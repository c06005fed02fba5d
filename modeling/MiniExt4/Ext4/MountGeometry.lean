import MiniExt4.Ext4.Inode
import MiniExt4.Ext4.MkfsMount

/-!
# The geometry a mount establishes

What `ext4_fill_super` checks of the numbers in a superblock, and what it does not: the counts per
group, the size of a descriptor and the places of the descriptors go unchecked, and the allocators rely
on all of them.

The condition is stated in the fields of the superblock (`SoundSuper`), and the numbers that a mount
computes from them are connected with the fields one by one (`FillSuper.Reads`), including those that it
replaces because they are 0. That a descriptor can be read is then a question of where its last byte is
(`desc_inside_iff`).
-/

namespace MiniExt4

open StateErr

/-! ### The geometries that can be mounted -/

/-- The numbers `ext4_fill_super` lets pass. -/
structure SbInfo.Accepted (sbi : SbInfo) : Prop where
  bs_ge : 1024 ≤ sbi.sBlockSize
  bs_le : sbi.sBlockSize ≤ 65536
  blocks_pos : 0 < sbi.sBlocksCount
  blocks_lt : sbi.sBlocksCount < 2 ^ 32
  groups_le : sbi.sGroupsCount * 4 ≤ 65536
  groups_pos : sbi.sGroupDesc.isSome → 0 < sbi.sGroupsCount
  descSize_ge : 32 ≤ sbi.sDescSize
  descSize_le : sbi.sDescSize ≤ 64
  cache : sbi.sBmapCacheValid = false

/-- The blocks of a volume that mounts can be counted in 32 bits. -/
theorem FillSuper.blocksCount_bounds {buf : Buf} {bs count : ℕ} {d : BlockDevice}
    (h : FillSuper.blocksCount buf bs d = some count) : 0 < count ∧ count < 2 ^ 32 := by
  unfold FillSuper.blocksCount at h
  have hfield : buf.getField 1024 Esb.sBlocksCountLo < 2 ^ 32 := Buf.getField_lt ..
  have hfallback : u32 d.bdNrSectors / ext4SectorsPerBlock bs d < 2 ^ 32 :=
    lt_of_le_of_lt (Nat.div_le_self _ _) (Nat.mod_lt _ (by norm_num))
  generalize u32 d.bdNrSectors / ext4SectorsPerBlock bs d = fallback at h hfallback
  dsimp only at h
  split at h
  · obtain rfl := Option.some.inj h
    omega
  · split at h
    · simp at h
    · obtain rfl := Option.some.inj h
      omega

/-- A descriptor has 32 to 64 bytes. -/
theorem FillSuper.descSize_bounds (buf : Buf) :
    32 ≤ FillSuper.descSize buf ∧ FillSuper.descSize buf ≤ 64 := by
  have hsize : Gd.size = 64 := rfl
  unfold FillSuper.descSize
  generalize buf.getField 1024 Esb.sDescSize = size
  by_cases h : size = 0 ∨ size < 32 ∨ size > Gd.size ∨ size % 8 ≠ 0
  · rw [if_pos h]
    omega
  · rw [if_neg h]
    omega

/-- What `ext4_fill_super` has found of the superblock when it returns. -/
structure FillSuper.Reads (now : ℕ) (d dev : BlockDevice) (sbi : SbInfo) (buf : Buf) (d₁ : BlockDevice)
    (count : ℕ) : Prop where
  readSuper : FillSuper.readSuper now d = (some buf, d₁)
  blockSize : 1024 ≤ FillSuper.blockSize buf ∧ FillSuper.blockSize buf ≤ 65536
  blocksCount : FillSuper.blocksCount buf (FillSuper.blockSize buf) d₁ = some count
  geom : sbi.toSbGeom = FillSuper.geometry buf count
  groups_le : sbi.sGroupsCount * 4 ≤ 65536
  readGroupDesc0 :
    FillSuper.readGroupDesc0 (FillSuper.geometry buf count) buf d₁ = (some sbi.sGroupDesc, dev)
  cache : sbi.sBmapCacheValid = false

/-- A mount has read a superblock. -/
theorem exists_of_fillSuper {now : ℕ} {d dev : BlockDevice} {sbi : SbInfo}
    (hmount : ext4FillSuper now d = (some sbi, dev)) :
    ∃ buf d₁ count, FillSuper.Reads now d dev sbi buf d₁ count := by
  unfold ext4FillSuper at hmount
  obtain ⟨buf, d₁, hread, hmount⟩ := bind_eq_some_iff.1 hmount
  rw [guard_bind_eq_some_iff, get_bind] at hmount
  obtain ⟨hsize, hmount⟩ := hmount
  obtain ⟨count, d₂, hcount, hmount⟩ := bind_eq_some_iff.1 hmount
  rw [guard_bind_eq_some_iff] at hmount
  obtain ⟨hgroups, hmount⟩ := hmount
  obtain ⟨gd, d₃, hgd, hpure⟩ := bind_eq_some_iff.1 hmount
  obtain ⟨hsome, rfl⟩ : FillSuper.blocksCount buf (FillSuper.blockSize buf) d₁ = some count ∧
      d₁ = d₂ := by
    rcases h : FillSuper.blocksCount buf (FillSuper.blockSize buf) d₁ with _ | c
    · rw [h, ofOption_none, fail_apply] at hcount
      simp at hcount
    · rw [h, ofOption_some, pure_apply] at hcount
      exact Prod.mk.inj hcount
  obtain ⟨rfl, rfl⟩ : _ = sbi ∧ d₃ = dev := by simpa using hpure
  exact ⟨buf, d₁, count, hread, hsize, hsome, rfl, hgroups, hgd, rfl⟩

/-- A volume whose first descriptor was read has a group. -/
theorem FillSuper.Reads.groups_pos {now count : ℕ} {d d₁ dev : BlockDevice} {sbi : SbInfo} {buf : Buf}
    (h : FillSuper.Reads now d dev sbi buf d₁ count) (hgd : sbi.sGroupDesc.isSome) :
    0 < sbi.sGroupsCount := by
  by_contra hzero
  have hgroups : ¬ (FillSuper.geometry buf count).sGroupsCount > 0 := by
    rwa [← h.geom]
  have hread := h.readGroupDesc0
  rw [FillSuper.readGroupDesc0, if_neg hgroups, pure_apply] at hread
  rw [← Option.some.inj (Prod.mk.inj hread).1] at hgd
  simp at hgd

/-- What a mount gives is what it accepts. -/
theorem accepted_of_fillSuper {now : ℕ} {d dev : BlockDevice} {sbi : SbInfo}
    (hmount : ext4FillSuper now d = (some sbi, dev)) : sbi.Accepted := by
  obtain ⟨buf, d₁, count, h⟩ := exists_of_fillSuper hmount
  have hcount := FillSuper.blocksCount_bounds h.blocksCount
  have hdesc := FillSuper.descSize_bounds buf
  have hbs : sbi.sBlockSize = FillSuper.blockSize buf := congrArg SbGeom.sBlockSize h.geom
  have hblocks : sbi.sBlocksCount = count := congrArg SbGeom.sBlocksCount h.geom
  have hds : sbi.sDescSize = FillSuper.descSize buf := congrArg SbGeom.sDescSize h.geom
  refine ⟨?_, ?_, ?_, ?_, h.groups_le, h.groups_pos, ?_, ?_, h.cache⟩
  · exact hbs ▸ h.blockSize.1
  · exact hbs ▸ h.blockSize.2
  · exact hblocks ▸ hcount.1
  · exact hblocks ▸ hcount.2
  · exact hds ▸ hdesc.1
  · exact hds ▸ hdesc.2

/-! ### What the allocators rely on -/

/-- Reading a descriptor succeeds exactly where it is inside one block, the block is not larger than
the buffers of the pool, and it is on the device. -/
theorem Fs.readGroupDesc_isSome_iff {fs : Fs} (h : fs.dev.faults = []) (g : ℕ) :
    (Fs.readGroupDesc g fs).1.isSome ↔ fs.sbi.sDescSize ≠ 0 ∧
      (fs.sbi.descLoc fs.blockSize g).2 + fs.sbi.copySz ≤ fs.blockSize ∧
      fs.blockSize ≤ blockSizeDefault ∧
      fs.dev.HasBlock fs.blockSize (fs.sbi.descLoc fs.blockSize g).1 := by
  unfold Fs.readGroupDesc
  rw [get_bind]
  by_cases hsize : fs.sbi.sDescSize ≠ 0
  swap
  · rw [guard_false hsize, fail_bind]
    simp [hsize]
  rw [guard_true hsize, pure_bind']
  by_cases hin : (fs.sbi.descLoc fs.blockSize g).2 + fs.sbi.copySz ≤ fs.blockSize
  swap
  · rw [guard_false hin, fail_bind]
    simp [hin]
  rw [guard_true hin, pure_bind']
  by_cases hbs : fs.blockSize ≤ blockSizeDefault
  swap
  · have hmalloc : Fs.mallocBlock fs = (none, fs) := by
      rw [Fs.mallocBlock, get_bind, guard_false hbs, fail_apply]
    rw [bind_of_eq_none hmalloc]
    simp [hbs]
  have hmalloc : Fs.mallocBlock fs = (some (), fs) := by
    rw [Fs.mallocBlock, get_bind, guard_true hbs, pure_apply]
  rw [bind_of_eq_some hmalloc]
  rcases BlockDevice.read_quiet_cases h fs.blockSize (fs.sbi.descLoc fs.blockSize g).1 with
    ⟨buf, hread, hblock⟩ | ⟨hread, hblock⟩
  · have hread' : Fs.readBlock (fs.sbi.descLoc fs.blockSize g).1 fs = (some buf, fs) := by
      simp only [Fs.readBlock, Fs.io, zoom_apply, hread]
    rw [bind_of_eq_some hread']
    simp [hsize, hin, hbs, hblock]
  · have hread' : Fs.readBlock (fs.sbi.descLoc fs.blockSize g).1 fs = (none, fs) := by
      simp only [Fs.readBlock, Fs.io, zoom_apply, hread]
    rw [bind_of_eq_none hread']
    simp [hblock]

/-- The superblock `ext4_fill_super` reads has the magic. -/
def HasMagic (buf : Buf) : Prop := buf.getField 1024 Esb.sMagic = ext4SuperMagic

/-- A superblock with its magic is taken as it is. -/
theorem FillSuper.readSuper_of_magic {now : ℕ} {d : BlockDevice} {buf : Buf}
    (hread : ext4ReadBlock blockSizeDefault 0 d = (some buf, d)) (hmagic : HasMagic buf) :
    FillSuper.readSuper now d = (some buf, d) := by
  rw [FillSuper.readSuper, bind_of_eq_some hread,
    if_neg (not_not_intro (show buf.getField 1024 Esb.sMagic = ext4SuperMagic from hmagic)), pure_apply]

/-- The geometry the allocators rely on, of a superblock `buf` and the filesystem mounted from it. -/
structure Fs.WellShaped (buf : Buf) (fs : Fs) : Prop where
  blockSize_eq : fs.sbi.sBlockSize = 1024 * 2 ^ buf.getField 1024 Esb.sLogBlockSize
  blockSize_ge : 1024 ≤ fs.sbi.sBlockSize
  blockSize_le : fs.sbi.sBlockSize ≤ 65536
  blocksPerGroup_pos : 0 < fs.sbi.sBlocksPerGroup
  blocksPerGroup_le : fs.sbi.sBlocksPerGroup ≤ 8 * fs.sbi.sBlockSize
  inodesPerGroup_pos : 0 < fs.sbi.sInodesPerGroup
  inodesPerGroup_le : fs.sbi.sInodesPerGroup ≤ 8 * fs.sbi.sBlockSize
  groups_pos : 1 ≤ fs.sbi.sGroupsCount
  groups_mul : fs.sbi.sBlocksCount ≤ fs.sbi.sGroupsCount * fs.sbi.sBlocksPerGroup
  desc_inside : ∀ g < fs.sbi.sGroupsCount,
    g * fs.sbi.sDescSize % fs.sbi.sBlockSize + fs.sbi.sDescSize ≤ fs.sbi.sBlockSize
  readGroupDesc : ∀ g < fs.sbi.sGroupsCount, (Fs.readGroupDesc g fs).1.isSome

/-! ### What the superblock says -/

/-- The size of a block, as the field `s_log_block_size` has it. -/
def superBlockSize (buf : Buf) : ℕ := 1024 * 2 ^ buf.getField 1024 Esb.sLogBlockSize

/-- The field `s_blocks_count_lo`, or the blocks of the device where it is 0. -/
def superBlocksCount (buf : Buf) (d : BlockDevice) : ℕ :=
  if buf.getField 1024 Esb.sBlocksCountLo ≠ 0 then buf.getField 1024 Esb.sBlocksCountLo
  else u32 d.bdNrSectors / ext4SectorsPerBlock (superBlockSize buf) d

/-- So many blocks in groups of `s_blocks_per_group`, or of the bits of a block where that is 0. -/
def superGroups (buf : Buf) (d : BlockDevice) : ℕ :=
  let count := superBlocksCount buf d
  let perGroup := buf.getField 1024 Esb.sBlocksPerGroup
  let perGroup := if perGroup ≠ 0 then perGroup else min (superBlockSize buf * 8) count
  (count + perGroup - 1) / perGroup

/-- The block of the descriptor of group `g`, by `s_first_data_block` and `s_desc_size`. -/
def superDescBlock (buf : Buf) (g : ℕ) : ℕ :=
  u32 ((if superBlockSize buf = 1024 then 2 else u32 (buf.getField 1024 Esb.sFirstDataBlock + 1)) +
    g * FillSuper.descSize buf / superBlockSize buf)

/-- What the superblock must say for the geometry, beyond what is checked. -/
structure SoundSuper (buf : Buf) (d : BlockDevice) : Prop where
  /-- a block fits in a buffer of the allocators -/
  logBlockSize_le : buf.getField 1024 Esb.sLogBlockSize ≤ 2
  blocksPerGroup_le : buf.getField 1024 Esb.sBlocksPerGroup ≤ 8 * superBlockSize buf
  inodesPerGroup_le : buf.getField 1024 Esb.sInodesPerGroup ≤ 8 * superBlockSize buf
  /-- no descriptor is cut in two -/
  descSize : buf.getField 1024 Esb.sDescSize ∉ ({40, 48, 56} : Finset ℕ) ∨
    superGroups buf d * buf.getField 1024 Esb.sDescSize ≤ superBlockSize buf
  /-- the descriptors are on the device -/
  hasBlock : ∀ g < superGroups buf d, d.HasBlock (superBlockSize buf) (superDescBlock buf g)

/-- A shift of a block that fits a buffer is not taken modulo 32. -/
theorem FillSuper.blockSize_of_log_le {buf : Buf} (h : buf.getField 1024 Esb.sLogBlockSize ≤ 2) :
    FillSuper.blockSize buf = superBlockSize buf := by
  unfold FillSuper.blockSize superBlockSize
  have hpow : 2 ^ buf.getField 1024 Esb.sLogBlockSize ≤ 2 ^ 2 := Nat.pow_le_pow_right (by norm_num) h
  rw [Nat.mod_eq_of_lt (by omega), u32_of_lt (by omega)]

/-- Such a shift is what a block of at most 4096 bytes has. -/
theorem log_le_two_iff {buf : Buf} :
    buf.getField 1024 Esb.sLogBlockSize ≤ 2 ↔ superBlockSize buf ≤ blockSizeDefault := by
  unfold superBlockSize blockSizeDefault
  rw [show 4096 = 1024 * 2 ^ 2 by norm_num, Nat.mul_le_mul_left_iff (by norm_num)]
  exact (Nat.pow_le_pow_iff_right (by norm_num)).symm

/-- An accepted block size is a power of two. -/
theorem FillSuper.blockSize_eq {buf : Buf}
    (h : 1024 ≤ FillSuper.blockSize buf ∧ FillSuper.blockSize buf ≤ 65536) :
    FillSuper.blockSize buf = 2 ^ (10 + buf.getField 1024 Esb.sLogBlockSize % 32) := by
  unfold FillSuper.blockSize at *
  generalize buf.getField 1024 Esb.sLogBlockSize % 32 = s at *
  have hpow : 1024 * 2 ^ s = 2 ^ (10 + s) := by rw [pow_add]; norm_num
  rw [hpow] at h ⊢
  by_cases hlarge : 22 ≤ s
  · -- everything is shifted out
    have hdvd : 2 ^ 32 ∣ 2 ^ (10 + s) := pow_dvd_pow 2 (by omega)
    have hzero : u32 (2 ^ (10 + s)) = 0 := Nat.mod_eq_zero_of_dvd hdvd
    omega
  · exact u32_of_lt (Nat.pow_lt_pow_right (by norm_num) (by omega))

/-- The sizes of descriptors that are accepted. -/
theorem FillSuper.descSize_cases (buf : Buf) :
    FillSuper.descSize buf ∈ ({32, 40, 48, 56, 64} : Finset ℕ) := by
  have hsize : Gd.size = 64 := rfl
  unfold FillSuper.descSize
  generalize buf.getField 1024 Esb.sDescSize = size
  dsimp only
  split
  · decide
  · simp only [Finset.mem_insert, Finset.mem_singleton]
    omega

/-- The sizes that do not divide a block are taken as the superblock has them. -/
theorem FillSuper.descSize_iff {buf : Buf} (groups bs : ℕ) :
    (FillSuper.descSize buf = 32 ∨ FillSuper.descSize buf = 64 ∨ groups * FillSuper.descSize buf ≤ bs) ↔
      buf.getField 1024 Esb.sDescSize ∉ ({40, 48, 56} : Finset ℕ) ∨
        groups * buf.getField 1024 Esb.sDescSize ≤ bs := by
  have hcases := FillSuper.descSize_cases buf
  have hsize : Gd.size = 64 := rfl
  simp only [Finset.mem_insert, Finset.mem_singleton] at hcases ⊢
  unfold FillSuper.descSize at hcases ⊢
  generalize buf.getField 1024 Esb.sDescSize = size at hcases ⊢
  dsimp only at hcases ⊢
  by_cases hbad : size = 0 ∨ size < 32 ∨ size > Gd.size ∨ size % 8 ≠ 0
  · rw [if_pos hbad]
    exact iff_of_true (.inl rfl) (.inl (by omega))
  · rw [if_neg hbad] at hcases ⊢
    rcases hcases with h | h | h | h | h <;> simp [h]

/-- The descriptors lie inside their blocks exactly if their size divides that of a block or they are
all in the first. -/
theorem desc_inside_iff {k ds groups : ℕ} (hk : 10 ≤ k)
    (hds : ds ∈ ({32, 40, 48, 56, 64} : Finset ℕ)) :
    (∀ g < groups, g * ds % 2 ^ k + ds ≤ 2 ^ k) ↔ ds = 32 ∨ ds = 64 ∨ groups * ds ≤ 2 ^ k := by
  have hpos : 0 < ds := by
    simp only [Finset.mem_insert, Finset.mem_singleton] at hds
    omega
  constructor
  · intro h
    by_contra hne
    simp only [not_or, Nat.not_le] at hne
    obtain ⟨h32, h64, hlong⟩ := hne
    have hodd : ¬ ds ∣ 2 ^ k := by
      obtain ⟨p, hp, hdvd, hne⟩ : ∃ p, Nat.Prime p ∧ p ∣ ds ∧ p ≠ 2 := by
        simp only [Finset.mem_insert, Finset.mem_singleton] at hds
        rcases hds with rfl | rfl | rfl | rfl | rfl
        · exact absurd rfl h32
        · exact ⟨5, by norm_num, by norm_num, by norm_num⟩
        · exact ⟨3, by norm_num, by norm_num, by norm_num⟩
        · exact ⟨7, by norm_num, by norm_num, by norm_num⟩
        · exact absurd rfl h64
      exact fun hpow ↦ hne ((Nat.prime_dvd_prime_iff_eq hp Nat.prime_two).1
        (hp.dvd_of_dvd_pow (hdvd.trans hpow)))
    -- the descriptor the end of the first block cuts
    have hcut := h (2 ^ k / ds) (Nat.div_lt_of_lt_mul (by rwa [Nat.mul_comm]))
    have hle := Nat.div_mul_le_self (2 ^ k) ds
    have hlt : 2 ^ k / ds * ds < 2 ^ k := lt_of_le_of_ne hle fun heq ↦ hodd ⟨_, by
      rw [Nat.mul_comm]
      exact heq.symm⟩
    rw [Nat.mod_eq_of_lt hlt] at hcut
    have := Nat.lt_div_mul_add hpos (a := 2 ^ k)
    omega
  · rintro (rfl | rfl | hall) g hg
    · exact Mkfs.add_le_of_dvd (pow_dvd_pow 2 (show 5 ≤ k by omega)) (by positivity) g
    · obtain ⟨c, hc⟩ : 64 ∣ 2 ^ k := pow_dvd_pow 2 (show 6 ≤ k by omega)
      have hcpos : 0 < c := by
        by_contra hzero
        obtain rfl : c = 0 := by omega
        simp at hc
      rw [hc, Nat.mul_comm g, Nat.mul_mod_mul_left]
      have := Nat.mod_lt g hcpos
      omega
    · have hend : (g + 1) * ds ≤ groups * ds := Nat.mul_le_mul_right _ hg
      rw [Nat.succ_mul] at hend
      rw [Nat.mod_eq_of_lt (by omega)]
      omega

variable {now bgSyncBatch preallocGoalLen : ℕ} {d dev : BlockDevice} {sbi : SbInfo} {buf : Buf}

/-- A mount where nothing fails leaves the device. -/
theorem FillSuper.Reads.dev_eq {d₁ : BlockDevice} {count : ℕ}
    (h : FillSuper.Reads now d dev sbi buf d₁ count) (hquiet : d₁.faults = []) : dev = d₁ := by
  have hread := h.readGroupDesc0
  rw [FillSuper.readGroupDesc0] at hread
  split at hread
  · obtain ⟨gdBuf, d₂, hblock, hpure⟩ := bind_eq_some_iff.1 hread
    have hd₂ : d₂ = d₁ := by
      rcases BlockDevice.read_quiet_cases hquiet _ _ with ⟨buf', heq, -⟩ | ⟨heq, -⟩
      · exact (Prod.mk.inj (hblock.symm.trans heq)).2
      · rw [heq] at hblock
        simp at hblock
    rw [← hd₂]
    exact (Prod.mk.inj hpure).2.symm
  · exact (Prod.mk.inj hread).2.symm

/-- Reading an inode needs a group to read it from. -/
theorem Fs.groupDesc_of_iget {fs : Fs} {ino : ℕ} (h : (fs.ext4Iget ino).1.isSome) :
    fs.sbi.sGroupDesc.isSome ∧ fs.sbi.sInodesPerGroup ≠ 0 := by
  obtain ⟨inode, hinode⟩ := Option.isSome_iff_exists.1 h
  have hrun : fs.ext4Iget ino = (some inode, (fs.ext4Iget ino).2) := eq_of_fst_eq hinode
  unfold Fs.ext4Iget Fs.ext4GetInodeDiskLoc at hrun
  obtain ⟨loc, fs₁, hloc, -⟩ := bind_eq_some_iff.1 hrun
  rw [get_bind, guard_bind_eq_some_iff, guard_bind_eq_some_iff] at hloc
  exact ⟨hloc.1.1, hloc.2.1⟩

/-- The blocks of a group fit its bitmap exactly where the superblock says so. -/
theorem FillSuper.blocksPerGroup_spec {bs count : ℕ} (hbs : 1024 ≤ bs ∧ bs ≤ 65536)
    (hcount : 0 < count) : 0 < FillSuper.blocksPerGroup buf bs count ∧
      (FillSuper.blocksPerGroup buf bs count ≤ 8 * bs ↔
        buf.getField 1024 Esb.sBlocksPerGroup ≤ 8 * bs) := by
  unfold FillSuper.blocksPerGroup
  rw [u32_of_lt (show bs * 8 < 2 ^ 32 by omega)]
  generalize buf.getField 1024 Esb.sBlocksPerGroup = field
  dsimp only
  by_cases hzero : field ≠ 0
  · rw [if_pos hzero]
    exact ⟨Nat.pos_of_ne_zero hzero, Iff.rfl⟩
  · rw [if_neg hzero]
    split <;> constructor <;> omega

/-- So do the inodes of a group. -/
theorem FillSuper.inodesPerGroup_spec {bs bpg : ℕ} (hbs : 1024 ≤ bs) (hbpg : bpg ≤ 8 * bs) :
    FillSuper.inodesPerGroup buf bpg ≤ 8 * bs ↔ buf.getField 1024 Esb.sInodesPerGroup ≤ 8 * bs := by
  unfold FillSuper.inodesPerGroup
  generalize buf.getField 1024 Esb.sInodesPerGroup = field
  dsimp only
  by_cases hzero : field ≠ 0
  · rw [if_pos hzero]
  · rw [if_neg hzero]
    split <;> omega

/-- A number of groups above 0 was computed without a wrap. -/
theorem no_wrap_of_groups_pos {count bpg : ℕ} (hbpg : 0 < bpg) (hcount : count < 2 ^ 32)
    (hpos : 0 < u32 (count + bpg - 1) / bpg) : count + bpg - 1 < 2 ^ 32 := by
  by_contra hw
  refine hpos.ne' (Nat.div_eq_of_lt ?_)
  unfold u32
  omega

/-- So the groups hold all blocks. -/
theorem le_groups_mul {count bpg : ℕ} (hbpg : 0 < bpg) (hcount : count < 2 ^ 32)
    (hpos : 0 < u32 (count + bpg - 1) / bpg) : count ≤ u32 (count + bpg - 1) / bpg * bpg := by
  rw [u32_of_lt (no_wrap_of_groups_pos hbpg hcount hpos)]
  have := Nat.lt_div_mul_add hbpg (a := count + bpg - 1)
  omega

/-- The groups are those that the superblock says. -/
theorem FillSuper.Reads.superGroups_eq {d₁ : BlockDevice} {count : ℕ}
    (h : FillSuper.Reads now d dev sbi buf d₁ count) (hlog : buf.getField 1024 Esb.sLogBlockSize ≤ 2)
    (hpos : 0 < sbi.sGroupsCount) : superGroups buf d₁ = sbi.sGroupsCount := by
  have hbs := FillSuper.blockSize_of_log_le hlog
  have hbounds := FillSuper.blocksCount_bounds h.blocksCount
  have hcount : superBlocksCount buf d₁ = count := by
    have hblocks := h.blocksCount
    unfold FillSuper.blocksCount at hblocks
    unfold superBlocksCount
    rw [← hbs]
    dsimp only at hblocks
    split at hblocks
    · next hfield => rw [if_pos hfield, Option.some.inj hblocks]
    · next hfield =>
      rw [if_neg hfield]
      split at hblocks
      · simp at hblocks
      · exact Option.some.inj hblocks
  have hper : (if buf.getField 1024 Esb.sBlocksPerGroup ≠ 0 then buf.getField 1024 Esb.sBlocksPerGroup
      else min (superBlockSize buf * 8) count) =
      FillSuper.blocksPerGroup buf (FillSuper.blockSize buf) count := by
    have hle := h.blockSize
    unfold FillSuper.blocksPerGroup
    rw [u32_of_lt (show FillSuper.blockSize buf * 8 < 2 ^ 32 by omega), hbs]
    dsimp only
    split
    · rfl
    · split <;> omega
  have hgroups : sbi.sGroupsCount =
      u32 (count + FillSuper.blocksPerGroup buf (FillSuper.blockSize buf) count - 1) /
        FillSuper.blocksPerGroup buf (FillSuper.blockSize buf) count :=
    congrArg SbGeom.sGroupsCount h.geom
  have hbpg := (@FillSuper.blocksPerGroup_spec buf _ count h.blockSize hbounds.1).1
  unfold superGroups
  dsimp only
  rw [hcount, hper, hgroups]
  rw [hgroups] at hpos
  generalize FillSuper.blocksPerGroup buf (FillSuper.blockSize buf) count = bpg at hpos hbpg
  rw [u32_of_lt (no_wrap_of_groups_pos hbpg hbounds.2 hpos)]

namespace FillSuper.Reads

variable {d₁ : BlockDevice} {count : ℕ}

/-- The blocks of a group fit its bitmap where the superblock says so. -/
theorem blocksPerGroup (h : FillSuper.Reads now d dev sbi buf d₁ count) :
    0 < sbi.sBlocksPerGroup ∧ (sbi.sBlocksPerGroup ≤ 8 * sbi.sBlockSize ↔
      buf.getField 1024 Esb.sBlocksPerGroup ≤ 8 * sbi.sBlockSize) := by
  rw [show sbi.sBlocksPerGroup = _ from congrArg SbGeom.sBlocksPerGroup h.geom,
    show sbi.sBlockSize = _ from congrArg SbGeom.sBlockSize h.geom]
  exact FillSuper.blocksPerGroup_spec h.blockSize (FillSuper.blocksCount_bounds h.blocksCount).1

/-- So do the inodes. -/
theorem inodesPerGroup (h : FillSuper.Reads now d dev sbi buf d₁ count)
    (hbpg : sbi.sBlocksPerGroup ≤ 8 * sbi.sBlockSize) :
    sbi.sInodesPerGroup ≤ 8 * sbi.sBlockSize ↔
      buf.getField 1024 Esb.sInodesPerGroup ≤ 8 * sbi.sBlockSize := by
  have hbpg' : sbi.sBlocksPerGroup = _ := congrArg SbGeom.sBlocksPerGroup h.geom
  have hbs : sbi.sBlockSize = _ := congrArg SbGeom.sBlockSize h.geom
  have hipg : sbi.sInodesPerGroup = _ := congrArg SbGeom.sInodesPerGroup h.geom
  rw [hbpg', hbs] at hbpg
  rw [hipg, hbs]
  exact FillSuper.inodesPerGroup_spec h.blockSize.1 hbpg

/-- The groups hold all blocks. -/
theorem le_groups_mul (h : FillSuper.Reads now d dev sbi buf d₁ count) (hpos : 0 < sbi.sGroupsCount) :
    sbi.sBlocksCount ≤ sbi.sGroupsCount * sbi.sBlocksPerGroup := by
  have hbpg := h.blocksPerGroup.1
  have hgroups : sbi.sGroupsCount = u32 (count + sbi.sBlocksPerGroup - 1) / sbi.sBlocksPerGroup := by
    rw [show sbi.sBlocksPerGroup = _ from congrArg SbGeom.sBlocksPerGroup h.geom]
    exact congrArg SbGeom.sGroupsCount h.geom
  rw [hgroups] at hpos ⊢
  rw [show sbi.sBlocksCount = count from congrArg SbGeom.sBlocksCount h.geom]
  exact MiniExt4.le_groups_mul hbpg (FillSuper.blocksCount_bounds h.blocksCount).2 hpos

/-- No descriptor is cut in two where the superblock says so. -/
theorem desc_inside_iff (h : FillSuper.Reads now d dev sbi buf d₁ count) :
    (∀ g < sbi.sGroupsCount, g * sbi.sDescSize % sbi.sBlockSize + sbi.sDescSize ≤ sbi.sBlockSize) ↔
      buf.getField 1024 Esb.sDescSize ∉ ({40, 48, 56} : Finset ℕ) ∨
        sbi.sGroupsCount * buf.getField 1024 Esb.sDescSize ≤ sbi.sBlockSize := by
  have hbs : sbi.sBlockSize = 2 ^ (10 + buf.getField 1024 Esb.sLogBlockSize % 32) :=
    (congrArg SbGeom.sBlockSize h.geom).trans (FillSuper.blockSize_eq h.blockSize)
  have hds : sbi.sDescSize = FillSuper.descSize buf := congrArg SbGeom.sDescSize h.geom
  rw [hbs, hds, MiniExt4.desc_inside_iff (by omega) (FillSuper.descSize_cases buf)]
  exact FillSuper.descSize_iff ..

/-- The numbers of the superblock are those of the mount. -/
theorem super_eq (h : FillSuper.Reads now d dev sbi buf d₁ count)
    (hlog : buf.getField 1024 Esb.sLogBlockSize ≤ 2) (hpos : 0 < sbi.sGroupsCount) :
    superBlockSize buf = sbi.sBlockSize ∧ superGroups buf d₁ = sbi.sGroupsCount ∧
      ∀ g < sbi.sGroupsCount, superDescBlock buf g = (sbi.descLoc sbi.sBlockSize g).1 := by
  have hsize : superBlockSize buf = sbi.sBlockSize := by
    rw [← FillSuper.blockSize_of_log_le hlog]
    exact (congrArg SbGeom.sBlockSize h.geom).symm
  have hfirst : sbi.sFirstDataBlock = buf.getField 1024 Esb.sFirstDataBlock :=
    congrArg SbGeom.sFirstDataBlock h.geom
  have hds : sbi.sDescSize = FillSuper.descSize buf := congrArg SbGeom.sDescSize h.geom
  have hdsle := (FillSuper.descSize_bounds buf).2
  have hgroups := h.groups_le
  refine ⟨hsize, h.superGroups_eq hlog hpos, fun g hg ↦ ?_⟩
  have hmul : g * FillSuper.descSize buf ≤ 16384 * 64 := Nat.mul_le_mul (by omega) hdsle
  unfold superDescBlock SbGeom.descLoc
  dsimp only
  rw [hsize, hfirst, hds, u32_of_lt (show g * FillSuper.descSize buf < 2 ^ 32 by omega)]

end FillSuper.Reads

/-- The descriptors of an accepted geometry are found without a wrap, and copied whole. -/
theorem SbInfo.Accepted.descLoc_snd (h : sbi.Accepted) {g : ℕ} (hg : g < sbi.sGroupsCount) :
    (sbi.descLoc sbi.sBlockSize g).2 + sbi.copySz =
      g * sbi.sDescSize % sbi.sBlockSize + sbi.sDescSize := by
  have hgroups := h.groups_le
  have hmul : g * sbi.sDescSize ≤ 16384 * 64 := Nat.mul_le_mul (by omega) h.descSize_le
  have hcopy : sbi.copySz = sbi.sDescSize := if_neg (Nat.not_lt.2 h.descSize_le)
  rw [hcopy]
  show u32 (g * sbi.sDescSize) % sbi.sBlockSize + _ = _
  rw [u32_of_lt (by omega)]

/-- **A mount establishes the geometry exactly where the superblock is sound.** -/
theorem wellShaped_iff_soundSuper (hquiet : d.faults = [])
    (hread : ext4ReadBlock blockSizeDefault 0 d = (some buf, d)) (hmagic : HasMagic buf)
    (hmount : ext4FillSuper now d = (some sbi, dev))
    (hroot : ((Fs.ofMount dev sbi bgSyncBatch preallocGoalLen).ext4Iget sbi.sRootIno).1.isSome) :
    (Fs.ofMount dev sbi bgSyncBatch preallocGoalLen).WellShaped buf ↔ SoundSuper buf dev := by
  -- without faults the mount reads the block that was given, and the device stays as it is
  obtain ⟨buf', d₁, count, h⟩ := exists_of_fillSuper hmount
  obtain ⟨rfl, rfl⟩ : buf = buf' ∧ d = d₁ := by
    have := (FillSuper.readSuper_of_magic hread hmagic).symm.trans h.readSuper
    obtain ⟨hbuf, hd⟩ := Prod.mk.inj this
    exact ⟨Option.some.inj hbuf, hd⟩
  obtain rfl := h.dev_eq hquiet
  have haccepted := accepted_of_fillSuper hmount
  obtain ⟨hgd, hipg⟩ := Fs.groupDesc_of_iget hroot
  have hgroups := h.groups_pos hgd
  obtain ⟨hbpgpos, hbpg⟩ := h.blocksPerGroup
  set fs := Fs.ofMount dev sbi bgSyncBatch preallocGoalLen with hfs
  have hreads := fun g ↦ @Fs.readGroupDesc_isSome_iff fs hquiet g
  constructor
  · intro hshape
    have hread₀ := (hreads 0).1 (hshape.readGroupDesc 0 hgroups)
    have hlog : buf.getField 1024 Esb.sLogBlockSize ≤ 2 :=
      log_le_two_iff.2 (hshape.blockSize_eq.symm.trans_le hread₀.2.2.1)
    obtain ⟨hsize, hcount, hdesc⟩ := h.super_eq hlog hgroups
    refine ⟨hlog, ?_, ?_, ?_, fun g hg ↦ ?_⟩
    · rw [hsize]
      exact hbpg.1 hshape.blocksPerGroup_le
    · rw [hsize]
      exact (h.inodesPerGroup hshape.blocksPerGroup_le).1 hshape.inodesPerGroup_le
    · rw [hsize, hcount]
      exact h.desc_inside_iff.1 hshape.desc_inside
    · rw [hcount] at hg
      rw [hsize, hdesc g hg]
      exact ((hreads g).1 (hshape.readGroupDesc g hg)).2.2.2
  · intro hsound
    obtain ⟨hsize, hcount, hdesc⟩ := h.super_eq hsound.logBlockSize_le hgroups
    obtain ⟨hlog, hfieldb, hfieldi, hfieldd, hblock⟩ := hsound
    rw [hsize] at hfieldb hfieldi hfieldd hblock
    rw [hcount] at hfieldd hblock
    have hbpg8 := hbpg.2 hfieldb
    have hinside := h.desc_inside_iff.2 hfieldd
    refine ⟨hsize.symm, haccepted.bs_ge, haccepted.bs_le, hbpgpos, hbpg8, Nat.pos_of_ne_zero hipg,
      (h.inodesPerGroup hbpg8).2 hfieldi, hgroups, h.le_groups_mul hgroups, hinside,
      fun g hg ↦ (hreads g).2 ⟨?_, ?_, ?_, ?_⟩⟩
    · have := haccepted.descSize_ge
      show sbi.sDescSize ≠ 0
      omega
    · exact (haccepted.descLoc_snd hg).trans_le (hinside g hg)
    · exact hsize.symm.trans_le (log_le_two_iff.1 hlog)
    · exact hdesc g hg ▸ hblock g hg

theorem Mkfs.usable_smallDisk : Mkfs.smallDisk.Usable 4096 64 :=
  ⟨by decide +kernel, by decide +kernel, by decide +kernel, by decide +kernel, by decide +kernel⟩

/-- A new volume of 64 blocks of 4096 bytes. -/
theorem wellShaped_iff_soundSuper_64 : Mkfs.smallFs.WellShaped (Mkfs.smallDisk.block 4096 0) := by
  have hread : ext4ReadBlock blockSizeDefault 0 Mkfs.smallDisk =
      (some (Mkfs.smallDisk.block 4096 0), Mkfs.smallDisk) :=
    Mkfs.usable_smallDisk.read (by norm_num)
  refine (wellShaped_iff_soundSuper (by decide +kernel) hread (by unfold HasMagic; decide +kernel)
    Mkfs.fillSuper_small_eq (by decide +kernel)).2 ?_
  refine ⟨by decide +kernel, by decide +kernel, by decide +kernel, .inl (by decide +kernel), ?_⟩
  unfold BlockDevice.HasBlock
  decide +kernel

/-- The superblock of that volume says that a group has 65536 blocks, twice what a block has bits. -/
def wideDisk : BlockDevice :=
  { Mkfs.smallDisk with media := Mkfs.smallDisk.media.setField 1024 Esb.sBlocksPerGroup 65536 }

/-- The volume with wide groups mounts. -/
theorem fillSuper_wide : (ext4FillSuper 0 wideDisk).1.isSome = true := by decide +kernel

/-- The superblock info of that volume. -/
def wideSb : SbInfo := (ext4FillSuper 0 wideDisk).1.get fillSuper_wide

theorem fillSuper_wide_eq :
    ext4FillSuper 0 wideDisk = (some wideSb, (ext4FillSuper 0 wideDisk).2) :=
  eq_of_fst_eq (Option.some_get _).symm

/-- It is mounted with groups larger than a bitmap. -/
theorem not_wellShaped_wide : wideDisk.faults = [] ∧ HasMagic (wideDisk.block 4096 0) ∧
    ext4FillSuper 0 wideDisk = (some wideSb, (ext4FillSuper 0 wideDisk).2) ∧
    ((Fs.ofMount (ext4FillSuper 0 wideDisk).2 wideSb 32 32).ext4Iget 2).1.isSome = true ∧
    ¬ (Fs.ofMount (ext4FillSuper 0 wideDisk).2 wideSb 32 32).WellShaped (wideDisk.block 4096 0) := by
  refine ⟨by decide +kernel, by unfold HasMagic; decide +kernel, fillSuper_wide_eq,
    by decide +kernel, fun h ↦ ?_⟩
  have hle := h.blocksPerGroup_le
  revert hle
  decide +kernel

end MiniExt4
