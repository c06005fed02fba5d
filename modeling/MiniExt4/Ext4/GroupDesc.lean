import MiniExt4.Ext4.Ialloc
import MiniExt4.Ext4.Inode
import MiniExt4.Ext4.MkfsMount
import MiniExt4.Ext4.Volume

/-!
# The addresses of group descriptors

Both allocators, `ext4_get_inode_disk_loc` and `ext4_sync_super_free_counts` compute the place of a
descriptor for themselves, in the same way. A descriptor that would cross the end of a block has no place:
it cannot be read or written (`ownDescriptor_iff`).

The four places in the source are one function of the group number here, `descLoc`, and the theorems about
the other readers say that they compute the same block and offset. Independence is a statement about the
bytes: a store to one descriptor leaves each other as it was, because two that lie in one block are apart in
it.
-/

namespace MiniExt4

open StateErr

/-- The counts of free blocks and of free inodes of a descriptor. -/
def descFree (gd : Buf) : ℕ × ℕ :=
  (gd.getField 0 Gd.bgFreeBlocksCountLo + gd.getField 0 Gd.bgFreeBlocksCountHi * 2 ^ 16,
    gd.getField 0 Gd.bgFreeInodesCountLo + gd.getField 0 Gd.bgFreeInodesCountHi * 2 ^ 16)

/-- Where inode `ino` is, by the descriptor of its group. -/
def SbGeom.inodeSlot (sbi : SbGeom) (gd : Buf) (ino : ℕ) : Option (ℕ × ℕ) :=
  let loc := inodeLoc sbi.sBlockSize (gd.getField 0 Gd.bgInodeTableLo) ((ino - 1) % sbi.sInodesPerGroup)
  if loc.1 < sbi.sBlocksCount then some loc else none

namespace Fs

variable {n g h : ℕ} {fs : Fs} {gd : Buf}

/-- The descriptor of group `g` is in one block. -/
def Whole (fs : Fs) (g : ℕ) : Prop :=
  g * fs.sbi.sDescSize % fs.sbi.sBlockSize + fs.sbi.sDescSize ≤ fs.sbi.sBlockSize

instance (fs : Fs) (g : ℕ) : Decidable (fs.Whole g) := inferInstanceAs (Decidable (_ ≤ _))

/-- A filesystem as `ext4_fill_super` leaves it, on a device that works and has the blocks of all
descriptors. The table of cursors, of four bytes for each group, fits a slot of its pool. -/
structure Described (n : ℕ) (fs : Fs) : Prop where
  usable : fs.Usable n
  blocks_lt : n < 2 ^ 32
  blockSize : fs.blockSize = fs.sbi.sBlockSize
  bs_ge : 1024 ≤ fs.sbi.sBlockSize
  bs_le : fs.sbi.sBlockSize ≤ blockSizeDefault
  descSize_ge : 32 ≤ fs.sbi.sDescSize
  descSize_le : fs.sbi.sDescSize ≤ Gd.size
  groups_le : fs.sbi.sGroupsCount * 4 ≤ 65536
  groupDesc : fs.sbi.sGroupDesc.isSome
  inodesPerGroup : fs.sbi.sInodesPerGroup ≠ 0
  held : ∀ g < fs.sbi.sGroupsCount, (fs.sbi.descLoc fs.sbi.sBlockSize g).1 < n

/-- The block of the descriptor of group `g`. -/
def descBlk (fs : Fs) (g : ℕ) : ℕ := (fs.sbi.descLoc fs.sbi.sBlockSize g).1

/-- The offset of the descriptor in its block. -/
def descPos (fs : Fs) (g : ℕ) : ℕ := g * fs.sbi.sDescSize % fs.sbi.sBlockSize

/-- The code copies the descriptor and no more. -/
theorem Described.copySz (hfs : Described n fs) : fs.sbi.copySz = fs.sbi.sDescSize := by
  rw [SbGeom.copySz, if_neg (by have := hfs.descSize_le; omega)]

/-- The place of a descriptor in the table. -/
theorem Described.descOff_lt (hfs : Described n fs) (hg : g < fs.sbi.sGroupsCount) :
    g * fs.sbi.sDescSize < 2 ^ 20 := by
  have hsize : Gd.size = 64 := rfl
  have hle := Nat.mul_le_mul (show g ≤ 2 ^ 14 - 1 by have := hfs.groups_le; omega) hfs.descSize_le
  rw [hsize] at hle
  omega

/-- The code finds the descriptor at its place. -/
theorem Described.descLoc (hfs : Described n fs) (hg : g < fs.sbi.sGroupsCount) :
    fs.sbi.descLoc fs.sbi.sBlockSize g = (fs.descBlk g, fs.descPos g) := by
  refine Prod.ext rfl ?_
  have hlt := hfs.descOff_lt hg
  simp only [SbGeom.descLoc, descPos]
  rw [u32_of_lt (by omega)]

/-- Two descriptors in one block are in different places. -/
theorem Described.descBlk_eq_iff (hfs : Described n fs) (hg : g < fs.sbi.sGroupsCount)
    (hh : h < fs.sbi.sGroupsCount) : fs.descBlk g = fs.descBlk h ↔
      g * fs.sbi.sDescSize / fs.sbi.sBlockSize = h * fs.sbi.sDescSize / fs.sbi.sBlockSize := by
  have hglt := hfs.descOff_lt hg
  have hhlt := hfs.descOff_lt hh
  have hgdiv := Nat.div_le_self (g * fs.sbi.sDescSize) fs.sbi.sBlockSize
  have hhdiv := Nat.div_le_self (h * fs.sbi.sDescSize) fs.sbi.sBlockSize
  simp only [descBlk, SbGeom.descLoc]
  rw [u32_of_lt (show g * fs.sbi.sDescSize < 2 ^ 32 by omega),
    u32_of_lt (show h * fs.sbi.sDescSize < 2 ^ 32 by omega)]
  generalize (if fs.sbi.sBlockSize = 1024 then 2 else u32 (fs.sbi.sFirstDataBlock + 1)) = base
  generalize g * fs.sbi.sDescSize / fs.sbi.sBlockSize = i at hgdiv ⊢
  generalize h * fs.sbi.sDescSize / fs.sbi.sBlockSize = j at hhdiv ⊢
  unfold u32
  omega

/-- Two descriptors of one block are apart. -/
theorem Described.descPos_apart (hfs : Described n fs) (hg : g < fs.sbi.sGroupsCount)
    (hh : h < fs.sbi.sGroupsCount) (hne : h ≠ g) (hblk : fs.descBlk h = fs.descBlk g) :
    fs.descPos h + fs.sbi.sDescSize ≤ fs.descPos g ∨ fs.descPos g + fs.sbi.sDescSize ≤ fs.descPos h := by
  have hdiv := (hfs.descBlk_eq_iff hh hg).1 hblk
  have hgm := Nat.div_add_mod (g * fs.sbi.sDescSize) fs.sbi.sBlockSize
  have hhm := Nat.div_add_mod (h * fs.sbi.sDescSize) fs.sbi.sBlockSize
  rw [hdiv] at hhm
  unfold descPos
  rcases Nat.lt_or_gt_of_ne hne with hlt | hgt
  · have hmul := Nat.mul_le_mul_right fs.sbi.sDescSize (show h + 1 ≤ g from hlt)
    rw [Nat.add_mul, one_mul] at hmul
    omega
  · have hmul := Nat.mul_le_mul_right fs.sbi.sDescSize (show g + 1 ≤ h from hgt)
    rw [Nat.add_mul, one_mul] at hmul
    omega

/-! ### Reading and writing -/

/-- The pool gives a buffer. -/
theorem Described.mallocBlock (hfs : Described n fs) : Fs.mallocBlock fs = (some (), fs) := by
  rw [Fs.mallocBlock, get_bind, guard_true (hfs.blockSize ▸ hfs.bs_le)]
  rfl

/-- The block of a descriptor can be read. -/
theorem Described.readDescBlk (hfs : Described n fs) (hg : g < fs.sbi.sGroupsCount) :
    readBlock (fs.descBlk g) fs = (some (fs.block (fs.descBlk g)), fs) :=
  hfs.usable.readBlock (hfs.held g hg)

/-- A descriptor in memory is `s_desc_size` bytes of its block and zeros. -/
theorem Described.desc_eq (hfs : Described n fs) (hg : g < fs.sbi.sGroupsCount) :
    fs.desc g = Buf.zero.blit 0 (fs.block (fs.descBlk g)) (fs.descPos g) fs.sbi.sDescSize := by
  rw [Fs.desc, hfs.blockSize, hfs.descLoc hg, hfs.copySz]

/-- A descriptor is read if it is inside its block. -/
theorem Described.readGroupDesc (hfs : Described n fs) (hg : g < fs.sbi.sGroupsCount) :
    Fs.readGroupDesc g fs = (if fs.Whole g then some (fs.desc g) else none, fs) := by
  have hpos : fs.sbi.sDescSize ≠ 0 := by have := hfs.descSize_ge; omega
  rw [Fs.readGroupDesc, get_bind, guard_true hpos, pure_bind', hfs.blockSize,
    hfs.descLoc hg, hfs.copySz]
  by_cases hwhole : fs.Whole g
  · rw [guard_true (show (_, fs.descPos g).2 + fs.sbi.sDescSize ≤ fs.sbi.sBlockSize from hwhole), pure_bind',
      bind_of_eq_some hfs.mallocBlock,
      bind_of_eq_some (hfs.readDescBlk hg), if_pos hwhole, hfs.desc_eq hg]
    rfl
  · rw [guard_false (show ¬ (_, fs.descPos g).2 + fs.sbi.sDescSize ≤ fs.sbi.sBlockSize from hwhole), if_neg hwhole]
    rfl

/-- The filesystem after the descriptor was written. -/
def putDesc (fs : Fs) (g : ℕ) (gd : Buf) : Fs :=
  fs.put (fs.descBlk g) ((fs.block (fs.descBlk g)).blit (fs.descPos g) gd 0 fs.sbi.sDescSize)

/-- A descriptor is written if it is inside its block. -/
theorem Described.writeGroupDesc (hfs : Described n fs) (hg : g < fs.sbi.sGroupsCount) (gd : Buf) :
    Fs.writeGroupDesc g gd fs = if fs.Whole g then (some (), fs.putDesc g gd) else (none, fs) := by
  have hpos : fs.sbi.sDescSize ≠ 0 := by have := hfs.descSize_ge; omega
  rw [Fs.writeGroupDesc, get_bind, guard_true hpos, pure_bind', hfs.blockSize,
    hfs.descLoc hg, hfs.copySz]
  by_cases hwhole : fs.Whole g
  · rw [guard_true (show (_, fs.descPos g).2 + fs.sbi.sDescSize ≤ fs.sbi.sBlockSize from hwhole), pure_bind',
      bind_of_eq_some hfs.mallocBlock,
      bind_of_eq_some (hfs.readDescBlk hg), if_pos hwhole,
      hfs.usable.writeBlock (show fs.descBlk g < n from hfs.held g hg)]
    rfl
  · rw [guard_false (show ¬ (_, fs.descPos g).2 + fs.sbi.sDescSize ≤ fs.sbi.sBlockSize from hwhole), if_neg hwhole]
    rfl

/-- Writing a descriptor leaves the table. -/
theorem Described.putDesc (hfs : Described n fs) (g : ℕ) (gd : Buf) : Described n (fs.putDesc g gd) :=
  ⟨hfs.usable.put _ _, hfs.blocks_lt, hfs.blockSize, hfs.bs_ge, hfs.bs_le, hfs.descSize_ge, hfs.descSize_le,
    hfs.groups_le, hfs.groupDesc, hfs.inodesPerGroup, hfs.held⟩

/-- What was written is read. -/
theorem Described.desc_putDesc (hfs : Described n fs) (hg : g < fs.sbi.sGroupsCount) (hwhole : fs.Whole g)
    (gd : Buf) : (fs.putDesc g gd).desc g = Buf.clip fs.sbi.sDescSize gd := by
  have hblock : (fs.putDesc g gd).block ((fs.putDesc g gd).descBlk g) = Buf.clip fs.blockSize _ :=
    fs.block_put_self (fs.descBlk g) _
  have hwhole' : fs.descPos g + fs.sbi.sDescSize ≤ fs.sbi.sBlockSize := hwhole
  rw [(hfs.putDesc g gd).desc_eq hg, hblock, hfs.blockSize]
  show Buf.zero.blit 0 _ (fs.descPos g) fs.sbi.sDescSize = _
  funext i
  by_cases hi : i < fs.sbi.sDescSize
  · rw [Buf.blit_in (Nat.zero_le i) (by omega), Buf.clip_of_lt _ (by omega),
      Buf.blit_in (by omega) (by omega), Buf.clip_of_lt _ hi]
    congr 1
    omega
  · rw [Buf.blit_out (by omega), Buf.clip_of_le _ (by omega)]
    rfl

/-- Other descriptors stay as they are. -/
theorem Described.desc_putDesc_of_ne (hfs : Described n fs) (hg : g < fs.sbi.sGroupsCount)
    (hh : h < fs.sbi.sGroupsCount) (hne : h ≠ g) (hwhole : fs.Whole h) (gd : Buf) :
    (fs.putDesc g gd).desc h = fs.desc h := by
  have hwhole' : fs.descPos h + fs.sbi.sDescSize ≤ fs.sbi.sBlockSize := hwhole
  rw [(hfs.putDesc g gd).desc_eq hh, hfs.desc_eq hh]
  show Buf.zero.blit 0 ((fs.putDesc g gd).block (fs.descBlk h)) (fs.descPos h) fs.sbi.sDescSize = _
  by_cases hblk : fs.descBlk h = fs.descBlk g
  · have hapart := hfs.descPos_apart hg hh hne hblk
    rw [hblk, Fs.putDesc, block_put_self, hfs.blockSize]
    funext i
    by_cases hi : i < fs.sbi.sDescSize
    · rw [Buf.blit_in (Nat.zero_le i) (by omega), Buf.blit_in (Nat.zero_le i) (by omega),
        Buf.clip_of_lt _ (by omega), Buf.blit_out (by omega)]
    · rw [Buf.blit_out (by omega), Buf.blit_out (by omega)]
  · rw [Fs.putDesc, block_put_of_ne _ _ hblk]

/-- Another descriptor is read as it was. -/
theorem Described.readGroupDesc_of_ne (hfs : Described n fs) (hg : g < fs.sbi.sGroupsCount)
    (hh : h < fs.sbi.sGroupsCount) (hne : h ≠ g) (gd : Buf) :
    (Fs.readGroupDesc h (fs.putDesc g gd)).1 = (Fs.readGroupDesc h fs).1 := by
  rw [hfs.readGroupDesc hh, (hfs.putDesc g gd).readGroupDesc hh]
  show (if fs.Whole h then _ else none) = if fs.Whole h then _ else none
  by_cases hwhole : fs.Whole h
  · rw [if_pos hwhole, if_pos hwhole, hfs.desc_putDesc_of_ne hg hh hne hwhole]
  · rw [if_neg hwhole, if_neg hwhole]

/-! ### The other readers -/

/-- `ext4_get_inode_disk_loc` goes by the descriptor of the group. -/
theorem Described.getInodeDiskLoc (hfs : Described n fs) {ino : ℕ} (hino : ino ≠ 0)
    (hg : (ino - 1) / fs.sbi.sInodesPerGroup < fs.sbi.sGroupsCount) (hpool : 0 < fs.superPool) :
    (ext4GetInodeDiskLoc ino fs).1 =
      (Fs.readGroupDesc ((ino - 1) / fs.sbi.sInodesPerGroup) fs).1.bind fun gd ↦ fs.sbi.inodeSlot gd ino := by
  rw [hfs.readGroupDesc hg, ext4GetInodeDiskLoc, get_bind, guard_true ⟨hfs.groupDesc, hino⟩, pure_bind',
    guard_true hfs.inodesPerGroup, pure_bind', guard_true hg, pure_bind', hfs.descLoc hg, hfs.copySz]
  set g := (ino - 1) / fs.sbi.sInodesPerGroup with hgroup
  by_cases hwhole : fs.Whole g
  swap
  · rw [guard_false (show ¬ (_, fs.descPos g).2 + fs.sbi.sDescSize ≤ fs.sbi.sBlockSize from hwhole), if_neg hwhole]
    rfl
  have hmalloc : superMalloc 0 fs = (some (), fs) := by
    have hle := hfs.bs_le
    simp only [blockSizeDefault] at hle
    rw [superMalloc, get_bind, guard_true ⟨by omega, hpool⟩]
    rfl
  rw [guard_true (show (_, fs.descPos g).2 + fs.sbi.sDescSize ≤ fs.sbi.sBlockSize from hwhole), pure_bind',
    bind_of_eq_some hmalloc,
    bind_of_eq_some (hfs.readDescBlk hg), if_pos hwhole, Option.bind_some,
    hfs.desc_eq hg, SbGeom.inodeSlot]
  dsimp only
  split <;> rename_i hlt
  · rw [guard_true hlt]
    rfl
  · rw [guard_false hlt]
    rfl

/-- The counts that `ext4_sync_super_free_counts` adds for a group: a descriptor that cannot be read
counts for nothing. -/
def readFree (fs : Fs) (g : ℕ) : ℕ × ℕ := (((Fs.readGroupDesc g fs).1.map descFree).getD (0, 0))

/-- The sum of the counts is over the descriptors: an induction on the groups that are left. -/
theorem Described.sumFreeCounts (hfs : Described n fs) : ∀ m g cur buf a b, g + m ≤ fs.sbi.sGroupsCount →
    (buf = fs.block cur ∨ cur = 2 ^ 32 - 1) → b < 2 ^ 32 →
    Fs.sumFreeCounts m g cur buf a b fs = (some (a + ∑ k ∈ Finset.range m, (fs.readFree (g + k)).1,
      u32 (b + ∑ k ∈ Finset.range m, (fs.readFree (g + k)).2)), fs) := by
  intro m
  induction m with
  | zero =>
    intro g cur buf a b _ _ hb
    rw [Finset.sum_range_zero, Finset.sum_range_zero, Nat.add_zero, Nat.add_zero, u32_of_lt hb]
    rfl
  | succ m ih =>
    intro g cur buf a b hm hcur hb
    have hg : g < fs.sbi.sGroupsCount := by omega
    -- the first group is taken out of each sum
    have hshift : ∀ f : ℕ → ℕ, ∑ k ∈ Finset.range (m + 1), f (g + k) =
        f g + ∑ k ∈ Finset.range m, f (g + 1 + k) := fun f ↦ by
      rw [Finset.sum_range_succ', Nat.add_comm, Nat.add_zero]
      congr 1
      exact Finset.sum_congr rfl fun k _ ↦ by rw [Nat.add_right_comm, Nat.add_assoc]
    rw [hshift fun k ↦ (fs.readFree k).1, hshift fun k ↦ (fs.readFree k).2, Fs.sumFreeCounts, get_bind]
    dsimp only
    rw [hfs.descLoc hg, hfs.copySz]
    by_cases hwhole : fs.Whole g
    swap
    · have hnone : fs.readFree g = (0, 0) := by
        rw [readFree, hfs.readGroupDesc hg, if_neg hwhole]
        rfl
      have hgt : (fs.descBlk g, fs.descPos g).2 + fs.sbi.sDescSize > fs.sbi.sBlockSize := Nat.lt_of_not_le hwhole
      rw [if_pos hgt, ih (g + 1) _ _ _ _ (by omega) hcur hb, hnone, Nat.zero_add, Nat.zero_add]
    · have hle : ¬ (fs.descBlk g, fs.descPos g).2 + fs.sbi.sDescSize > fs.sbi.sBlockSize := Nat.not_lt_of_le hwhole
      have hfree : fs.readFree g = descFree (fs.desc g) := by
        rw [readFree, hfs.readGroupDesc hg, if_pos hwhole]
        rfl
      have hheld := hfs.held g hg
      -- the buffer has the block already, unless another one is to be read
      have hrefill : Fs.refillGdBuf (fs.descBlk g) cur buf fs = (some (fs.block (fs.descBlk g)), fs) := by
        unfold Fs.refillGdBuf
        split <;> rename_i hne
        · exact hfs.usable.readBlock hheld
        · obtain rfl := not_ne_iff.1 hne
          rcases hcur with rfl | hcur
          · rfl
          · have hlt : fs.descBlk g < n := hheld
            have := hfs.blocks_lt
            omega
      rw [if_neg hle, bind_of_eq_some hrefill]
      dsimp only
      rw [← hfs.desc_eq hg]
      refine (ih (g + 1) (fs.descBlk g) _ _ _ (by omega) (.inl rfl) (u32_lt _)).trans ?_
      rw [hfree]
      refine Prod.ext (congrArg some (Prod.ext (Nat.add_assoc _ _ _) ?_)) rfl
      show u32 (u32 (b + (descFree (fs.desc g)).2) + ∑ k ∈ Finset.range m, (fs.readFree (g + 1 + k)).2) = _
      unfold u32
      omega

/-! ### Independence -/

/-- Group `g` has a descriptor of its own: it can be written by both allocators, it is then read with its
first `s_desc_size` bytes and no other descriptor has changed, and the other readers go by it too. -/
def OwnDescriptor (fs : Fs) (g : ℕ) (gd : Buf) : Prop :=
  ∃ fs', Fs.writeGroupDesc g gd fs = (some (), fs') ∧ Ialloc.writeGroupDesc g gd fs = (some (), fs') ∧
    Fs.readGroupDesc g fs' = (some (Buf.clip fs.sbi.sDescSize gd), fs') ∧
    (∀ h < fs.sbi.sGroupsCount, h ≠ g → (Fs.readGroupDesc h fs').1 = (Fs.readGroupDesc h fs).1) ∧
    (∀ h < fs.sbi.sGroupsCount, Ialloc.readGroupDesc h fs' = Fs.readGroupDesc h fs') ∧
    (∀ ino, ino ≠ 0 → (ino - 1) / fs.sbi.sInodesPerGroup = g → 0 < fs.superPool →
      (ext4GetInodeDiskLoc ino fs').1 = fs.sbi.inodeSlot (Buf.clip fs.sbi.sDescSize gd) ino) ∧
    fs'.readFree g = descFree (Buf.clip fs.sbi.sDescSize gd) ∧
    Fs.sumFreeCounts fs.sbi.sGroupsCount 0 (2 ^ 32 - 1) Buf.zero 0 0 fs' =
      (some (∑ k ∈ Finset.range fs.sbi.sGroupsCount, (fs'.readFree k).1,
        u32 (∑ k ∈ Finset.range fs.sbi.sGroupsCount, (fs'.readFree k).2)), fs')

/-- **A group has a descriptor of its own exactly where the descriptor does not cross the end of a
block.** -/
theorem ownDescriptor_iff (hfs : Described n fs) (hg : g < fs.sbi.sGroupsCount) (gd : Buf) :
    OwnDescriptor fs g gd ↔ g * fs.sbi.sDescSize % fs.sbi.sBlockSize + fs.sbi.sDescSize ≤ fs.sbi.sBlockSize := by
  constructor
  · rintro ⟨fs', hwrite, -⟩
    rw [hfs.writeGroupDesc hg] at hwrite
    by_contra hcross
    rw [if_neg (show ¬ fs.Whole g from hcross)] at hwrite
    simp at hwrite
  · intro hfits
    have hwhole : fs.Whole g := hfits
    have hput := hfs.putDesc g gd
    have hwrite : Fs.writeGroupDesc g gd fs = (some (), fs.putDesc g gd) := by
      rw [hfs.writeGroupDesc hg, if_pos hwhole]
    have hread : Fs.readGroupDesc g (fs.putDesc g gd) =
        (some (Buf.clip fs.sbi.sDescSize gd), fs.putDesc g gd) := by
      rw [hput.readGroupDesc hg, if_pos (show (fs.putDesc g gd).Whole g from hwhole),
        hfs.desc_putDesc hg hwhole]
    refine ⟨fs.putDesc g gd, hwrite, ?_, hread, fun h hh hne ↦ hfs.readGroupDesc_of_ne hg hh hne gd,
      fun h hh ↦ ?_, fun ino hino hgroup hpool ↦ ?_, ?_, ?_⟩
    · rw [Ialloc.writeGroupDesc, get_bind, guard_true hg, pure_bind', hwrite]
    · rw [Ialloc.readGroupDesc, get_bind, guard_true (show h < (fs.putDesc g gd).sbi.sGroupsCount from hh),
        pure_bind']
    · subst hgroup
      rw [hput.getInodeDiskLoc hino hg hpool]
      show (Fs.readGroupDesc ((ino - 1) / fs.sbi.sInodesPerGroup) _).1.bind _ = _
      rw [hread]
      rfl
    · rw [readFree, hread]
      rfl
    · have hsum := hput.sumFreeCounts fs.sbi.sGroupsCount 0 (2 ^ 32 - 1) Buf.zero 0 0 (Nat.zero_add _).le
        (.inr rfl) (by norm_num)
      simpa using hsum

/-- The small device with blocks of 1024 bytes, 26 groups of 8 blocks and descriptors of `size` bytes. -/
def manyGroups (size : ℕ) : Fs :=
  { Mkfs.smallFs with
    blockSize := 1024
    sbi :=
      { Mkfs.smallSb with
        sBlockSize := 1024, sDescSize := size, sGroupsCount := 26, sBlocksPerGroup := 8, sBlocksCount := 208 } }

/-- The volume of the example has its table. -/
theorem manyGroups_described {size : ℕ} (h : size = 32 ∨ size = 40) : Described 256 (manyGroups size) := by
  rcases h with rfl | rfl <;>
  exact ⟨⟨rfl, by decide, by decide, by decide, by decide⟩, by decide, rfl, by decide, by decide, by decide,
    by decide, by decide, by decide +kernel, by decide +kernel, by decide +kernel⟩

theorem ownDescriptor_iff_32 : OwnDescriptor (manyGroups 32) 25 (fun i ↦ BitVec.ofNat 8 i) :=
  (ownDescriptor_iff (manyGroups_described (.inl rfl)) (by decide) _).2 (by decide)

/-- With descriptors of 40 bytes that of group 25 begins at byte 1000 of its block. -/
theorem not_ownDescriptor_40 : ¬ ∀ (n g : ℕ) (fs : Fs) (gd : Buf), Described n fs → 8 ∣ fs.sbi.sDescSize →
    g < fs.sbi.sGroupsCount → OwnDescriptor fs g gd := by
  intro hall
  have hfs := manyGroups_described (.inr rfl)
  obtain ⟨fs', hwrite, -⟩ := hall 256 25 (manyGroups 40) Buf.zero hfs (by decide) (by decide)
  rw [hfs.writeGroupDesc (by decide), if_neg (by decide)] at hwrite
  simp at hwrite

end Fs

end MiniExt4
