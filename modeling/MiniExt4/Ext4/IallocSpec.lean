import MiniExt4.Ext4.Ialloc
import MiniExt4.Ext4.InodeSpec
import MiniExt4.Machine.BitCount

/-!
# What the inode allocator guarantees

`Volume.InodesOnDisk I fs` says that the inode bitmaps on the device of `fs` mark exactly the inodes of
`I`, and that every descriptor has the right number of free ones. `ext4_new_inode_in_group` adds a
number to `I` that was not in it, and gives up only where `I` has every number of every group;
`ext4_free_inode` takes a number out of `I`.

A failure inside a group makes the search go on, so that what is known at its end is what is known of each
group: that it had no clear bit, or that its descriptor or bitmap could not be used. On a volume that works
the second does not happen (`InodesOnDisk.tryInodeGroup`), and the loop is an induction over the groups in
the order in which they are visited.
-/

namespace MiniExt4

open StateErr

/-! ### Searching a bitmap -/

/-- Where all `n` bits are on the device and have numbers, the search finds the first clear one. -/
theorem scanInodes_spec (bitmap : Buf) (blockSize base : ℕ) {inodesCount : ℕ}
    (hcount : inodesCount < 2 ^ 32) :
    ∀ n i, i + n ≤ blockSize * 8 → base + i + n ≤ inodesCount →
      match scanInodes bitmap blockSize base inodesCount n i with
      | some (k, ino) => i ≤ k ∧ k < i + n ∧ bitmap.bit k = false ∧ ino = base + k + 1
      | none => ∀ k, i ≤ k → k < i + n → bitmap.bit k = true := by
  intro n
  induction n with
  | zero => exact fun i _ _ k hk hk' ↦ by omega
  | succ n ih =>
    intro i hbits hbase
    have hu : u32 (base + i + 1) = base + i + 1 := u32_of_lt (by omega)
    rw [scanInodes, hu, if_neg (by omega), if_neg (by omega)]
    by_cases hbit : bitmap.bit i = true
    · rw [if_pos hbit]
      have hrest := ih (i + 1) (by omega) (by omega)
      revert hrest
      rcases scanInodes bitmap blockSize base inodesCount n (i + 1) with _ | ⟨k, ino⟩
      · intro hall k hk hk'
        rcases Nat.eq_or_lt_of_le hk with rfl | hlt
        · exact hbit
        · exact hall k hlt (by omega)
      · rintro ⟨hlo, hhi, hclear, hino⟩
        exact ⟨by omega, by omega, hclear, hino⟩
    · rw [if_neg hbit]
      exact ⟨le_rfl, by omega, by simpa using hbit, rfl⟩

namespace Volume

variable {V : Volume} {n g : ℕ} {I I' : Set ℕ} {fs fs' : Fs} {bitmap gd : Buf}

/-! ### The inode bitmaps -/

/-- The inode bitmaps are on a device of `n` blocks, apart from each other and from what the block
allocator writes to, and they have a bit for every inode. -/
structure InodeBitmapsLaid (V : Volume) (n : ℕ) : Prop where
  bs_le : V.bs ≤ blockSizeDefault
  group : ∀ g < V.groups, V.Group g
  bitmap_lt : ∀ g < V.groups, V.inodeBitmap g < n
  bitmap_pos : ∀ g < V.groups, V.inodeBitmap g ≠ 0
  not_alloc : ∀ g < V.groups, ¬ V.AllocMeta (V.inodeBitmap g)
  injective : ∀ g < V.groups, ∀ g' < V.groups, V.inodeBitmap g = V.inodeBitmap g' → g = g'
  perGroup_pos : 0 < V.geom.sInodesPerGroup
  perGroup_le : V.geom.sInodesPerGroup ≤ V.bs * 8
  count_eq : V.geom.sInodesCount = V.groups * V.geom.sInodesPerGroup
  count_lt : V.geom.sInodesCount < 2 ^ 32

/-- The number of the inode of bit `i` in the bitmap of group `g`. -/
def inodeNr (V : Volume) (g i : ℕ) : ℕ := g * V.geom.sInodesPerGroup + i + 1

/-- The bitmaps of the groups mark the inodes of `I`, and the descriptors count the others. -/
structure InodesOnDisk (V : Volume) (n : ℕ) (I : Set ℕ) (fs : Fs) : Prop extends V.Carried n fs where
  bitmapsLaid : V.InodeBitmapsLaid n
  desc_inodeBitmap : ∀ g < V.groups, (fs.desc g).getField 0 Gd.bgInodeBitmapLo = V.inodeBitmap g
  bit_iff : ∀ g < V.groups, ∀ i < V.geom.sInodesPerGroup,
    (fs.block (V.inodeBitmap g)).bit i = true ↔ V.inodeNr g i ∈ I
  count : ∀ g < V.groups, (fs.desc g).getField 0 Gd.bgFreeInodesCountLo =
    (fs.block (V.inodeBitmap g)).clearBits V.geom.sInodesPerGroup

/-- Of group `g` the inode bitmap and the descriptor are now `bitmap` and `gd`. Of what else the
allocators write to, only the superblock may have changed. -/
structure InodeChanged (V : Volume) (g : ℕ) (bitmap gd : Buf) (fs fs' : Fs) : Prop where
  group : V.Group g
  bitmap : fs'.block (V.inodeBitmap g) = Buf.clip V.bs bitmap
  block : ∀ b, b ≠ V.inodeBitmap g → ¬ V.AllocMeta b → fs'.block b = fs.block b
  blockBitmap : ∀ g', V.Group g' → fs'.block (V.blockBitmap g') = fs.block (V.blockBitmap g')
  desc : fs'.desc g = gd
  desc_ne : ∀ g', V.Group g' → g' ≠ g → fs'.desc g' = fs.desc g'
  memory : fs'.sbi.sGroupDesc = if g = 0 then some gd else fs.sbi.sGroupDesc
  cache : SameCache fs fs'

theorem InodeBitmapsLaid.inodeNr_le (h : V.InodeBitmapsLaid n) {i : ℕ} (hg : g < V.groups)
    (hi : i < V.geom.sInodesPerGroup) : V.inodeNr g i ≤ V.geom.sInodesCount := by
  have hmul := Nat.mul_le_mul_right V.geom.sInodesPerGroup hg
  rw [Nat.succ_mul] at hmul
  rw [h.count_eq, inodeNr]
  omega

/-- The numbers of different bits are different. -/
theorem inodeNr_inj {g' i i' : ℕ} (hi : i < V.geom.sInodesPerGroup) (hi' : i' < V.geom.sInodesPerGroup)
    (h : V.inodeNr g i = V.inodeNr g' i') : g = g' ∧ i = i' := by
  have heq : g * V.geom.sInodesPerGroup + i = g' * V.geom.sInodesPerGroup + i' := by
    unfold inodeNr at h
    omega
  have hdiv := congrArg (· / V.geom.sInodesPerGroup) heq
  simp only [Nat.mul_comm _ V.geom.sInodesPerGroup] at hdiv
  rw [Nat.mul_add_div (by omega), Nat.mul_add_div (by omega), Nat.div_eq_of_lt hi,
    Nat.div_eq_of_lt hi', Nat.add_zero, Nat.add_zero] at hdiv
  subst hdiv
  exact ⟨rfl, by omega⟩

/-- Every number up to `s_inodes_count` belongs to a bit. -/
theorem InodeBitmapsLaid.inodeNr_inodeIndex (h : V.InodeBitmapsLaid n) {ino : ℕ} (hino : ino ≠ 0)
    (hle : ino ≤ V.geom.sInodesCount) : V.inodeGroup ino < V.groups ∧
      V.inodeIndex ino < V.geom.sInodesPerGroup ∧
      V.inodeNr (V.inodeGroup ino) (V.inodeIndex ino) = ino := by
  have hdm := Nat.div_add_mod' (ino - 1) V.geom.sInodesPerGroup
  refine ⟨?_, Nat.mod_lt _ h.perGroup_pos, ?_⟩
  · rw [inodeGroup, Nat.div_lt_iff_lt_mul h.perGroup_pos, ← h.count_eq]
    omega
  · unfold inodeNr inodeGroup inodeIndex
    omega

/-! ### One group -/

theorem InodesOnDisk.readInodeDesc (h : V.InodesOnDisk n I fs) (hg : g < V.groups) :
    Fs.Ialloc.readGroupDesc g fs = (some (fs.desc g), fs) := by
  have hgroups : fs.sbi.sGroupsCount = V.groups := congrArg SbGeom.sGroupsCount h.geom
  unfold Fs.Ialloc.readGroupDesc
  rw [get_bind, guard_true (by omega), pure_bind',
    h.toCarried.readGroupDesc h.bitmapsLaid.bs_le (h.bitmapsLaid.group g hg)]

theorem InodesOnDisk.readInodeBitmap (h : V.InodesOnDisk n I fs) (hg : g < V.groups) :
    Fs.readInodeBitmap g fs = (some (V.inodeBitmap g, fs.block (V.inodeBitmap g)), fs) := by
  have hgroups : fs.sbi.sGroupsCount = V.groups := congrArg SbGeom.sGroupsCount h.geom
  unfold Fs.readInodeBitmap
  rw [get_bind, guard_true h.groupDesc, pure_bind', guard_true (by omega), pure_bind',
    bind_of_eq_some (h.readInodeDesc hg)]
  simp only [h.desc_inodeBitmap g hg]
  rw [bind_of_eq_some (h.usable.readBlock (h.bitmapsLaid.bitmap_lt g hg)),
    guard_true (by
      rw [h.desc_inodeBitmap g hg]
      exact h.bitmapsLaid.bitmap_pos g hg), pure_bind', pure_apply]

/-- Writing the bitmap of a group. -/
theorem Carried.putInodeBitmap (h : V.Carried n fs) (hlaid : V.InodeBitmapsLaid n) (hg : g < V.groups)
    (bitmap : Buf) : V.Carried n (fs.put (V.inodeBitmap g) bitmap) ∧
      V.Kept fs (fs.put (V.inodeBitmap g) bitmap) ∧
      Fs.writeInodeBitmap (V.inodeBitmap g) bitmap fs =
        (some (), fs.put (V.inodeBitmap g) bitmap) := by
  have hnot := hlaid.not_alloc g hg
  obtain ⟨hput, hkept⟩ := h.put bitmap (b := V.inodeBitmap g)
    (fun g' hg' heq ↦ hnot (.inr ⟨g', hg'.1, .inl heq⟩))
    fun g' hg' heq ↦ hnot (.inr ⟨g', hg'.1, .inr heq⟩)
  refine ⟨hput, hkept, ?_⟩
  unfold Fs.writeInodeBitmap
  rw [guard_true (hlaid.bitmap_pos g hg), pure_bind', h.usable.writeBlock (hlaid.bitmap_lt g hg)]

/-- The counts of the superblock are brought up to date, if there is room to compute them. -/
theorem Carried.attempt_sync (h : V.Carried n fs) :
    ∃ r fs', attempt Fs.ext4SyncSuperFreeCounts fs = (some r, fs') ∧ V.Carried n fs' ∧ V.Kept fs fs' ∧
      V.AllocFrame fs fs' ∧ SameCache fs fs' := by
  refine ⟨_, (Fs.ext4SyncSuperFreeCounts fs).2, attempt_apply _ _, ?_⟩
  rcases h.syncSuperFreeCounts with heq | ⟨buf, heq⟩
  · rw [show (Fs.ext4SyncSuperFreeCounts fs).2 = fs from heq]
    exact ⟨h, .refl fs, .refl fs, .refl fs⟩
  · obtain ⟨hput, hkept⟩ := h.put buf h.laid.superBlock_ne_desc fun g hg ↦
      (h.laid.blockBitmap_ne_super g hg).symm
    rw [show (Fs.ext4SyncSuperFreeCounts fs).2 = _ from heq]
    exact ⟨hput, hkept, .put (.inl rfl) buf, rfl, rfl, rfl, rfl⟩

/-- Storing a group's bitmap and then its descriptor changes them and nothing else of the inodes. -/
theorem Carried.storeInode (h : V.Carried n fs) (hlaid : V.InodeBitmapsLaid n) (hg : g < V.groups)
    (bitmap : Buf) {gd : Buf} (hend : ∀ i, V.geom.copySz ≤ i → clearItableUnused gd i = 0)
    (hbb : (clearItableUnused gd).getField 0 Gd.bgBlockBitmapLo = V.blockBitmap g) :
    ∃ fs', Fs.storeInodeDesc g gd (fs.put (V.inodeBitmap g) bitmap) = (some (), fs') ∧
      V.Carried n fs' ∧ V.InodeChanged g bitmap (clearItableUnused gd) fs fs' := by
  obtain ⟨h₁, hkept₁, -⟩ := h.putInodeBitmap hlaid hg bitmap
  obtain ⟨fs₂, hstore, h₂, hchanged, hframe, hcache⟩ :=
    h₁.storeGroupDesc hlaid.bs_le (hlaid.group g hg) hend hbb
  obtain ⟨r, fs₃, hsync, h₃, hkept₃, hframe₃, hcache₃⟩ := h₂.attempt_sync
  have hgroups : (fs.put (V.inodeBitmap g) bitmap).sbi.sGroupsCount = V.groups :=
    congrArg SbGeom.sGroupsCount h₁.geom
  refine ⟨fs₃, ?_, h₃, ?_⟩
  · unfold Fs.storeGroupDesc at hstore
    obtain ⟨_, fs', hwrite, hmodify⟩ := bind_eq_some_iff.1 hstore
    unfold Fs.storeInodeDesc Fs.Ialloc.writeGroupDesc
    rw [bind_of_eq_some (show _ = (some (), fs') by
        rw [get_bind, guard_true (by omega), pure_bind', hwrite]),
      bind_of_eq_some hmodify, bind_of_eq_some hsync, pure_apply]
  · have hall := hchanged.trans_kept hkept₃
    have hsame : SameCache fs (fs.put (V.inodeBitmap g) bitmap) := ⟨rfl, rfl, rfl, rfl⟩
    have hblock : ∀ b, ¬ V.AllocMeta b → fs₃.block b = (fs.put (V.inodeBitmap g) bitmap).block b :=
      fun b hb ↦ (hframe₃.block b hb).trans (hframe.block b hb)
    have hbitmap : fs₃.block (V.inodeBitmap g) = Buf.clip V.bs bitmap := by
      rw [hblock _ (hlaid.not_alloc g hg), Fs.block_put_self, h.blockSize]
    refine ⟨hall.group, hbitmap, fun b hb hnot ↦ ?_, fun g' hg' ↦ ?_, hall.desc,
      fun g' hg' hne ↦ ?_, hall.memory,
      hsame.trans (hcache.trans hcache₃)⟩
    · rw [hblock b hnot, fs.block_put_of_ne _ hb]
    · by_cases hne : g' = g
      · subst hne
        rw [hall.bitmap, hkept₁.bitmap g' hg', ← h.blockSize, Fs.clip_block]
      · rw [hall.bitmap_ne g' hg' hne, hkept₁.bitmap g' hg']
    · rw [hall.desc_ne g' hg' hne, hkept₁.desc g' hg']

/-- The inodes that the bitmaps mark after a change. -/
theorem InodesOnDisk.of_changed (h : V.InodesOnDisk n I fs) (hcarried : V.Carried n fs')
    (hchanged : V.InodeChanged g bitmap gd fs fs')
    (hinode : gd.getField 0 Gd.bgInodeBitmapLo = V.inodeBitmap g)
    (hcount : gd.getField 0 Gd.bgFreeInodesCountLo = bitmap.clearBits V.geom.sInodesPerGroup)
    (hself : ∀ i < V.geom.sInodesPerGroup, bitmap.bit i = true ↔ V.inodeNr g i ∈ I')
    (hother : ∀ g', g' ≠ g → ∀ i < V.geom.sInodesPerGroup, V.inodeNr g' i ∈ I' ↔ V.inodeNr g' i ∈ I) :
    V.InodesOnDisk n I' fs' := by
  have hg := hchanged.group.1
  have hlaid := h.bitmapsLaid
  have hle := hlaid.perGroup_le
  have hbit : ∀ i < V.geom.sInodesPerGroup, (fs'.block (V.inodeBitmap g)).bit i = bitmap.bit i := by
    intro i hi
    rw [hchanged.bitmap, Buf.bit_clip _ (by omega)]
  have hne : ∀ g' < V.groups, g' ≠ g →
      fs'.block (V.inodeBitmap g') = fs.block (V.inodeBitmap g') ∧ fs'.desc g' = fs.desc g' := by
    intro g' hg' hne
    exact ⟨hchanged.block _ (fun heq ↦ hne (hlaid.injective g' hg' g hg heq)) (hlaid.not_alloc g' hg'),
      hchanged.desc_ne g' (hlaid.group g' hg') hne⟩
  refine ⟨hcarried, hlaid, fun g' hg' ↦ ?_, fun g' hg' i hi ↦ ?_, fun g' hg' ↦ ?_⟩
  · by_cases hgg : g' = g
    · rw [hgg, hchanged.desc, hinode]
    · rw [(hne g' hg' hgg).2, h.desc_inodeBitmap g' hg']
  · by_cases hgg : g' = g
    · rw [hgg, hbit i hi, hself i hi]
    · rw [(hne g' hg' hgg).1, h.bit_iff g' hg' i hi, hother g' hgg i hi]
  · by_cases hgg : g' = g
    · rw [hgg, hchanged.desc, hcount]
      exact (Buf.clearBits_congr hbit).symm
    · rw [(hne g' hg' hgg).1, (hne g' hg' hgg).2, h.count g' hg']

/-- The descriptor of a group after its count of free inodes was set to `count`. -/
def countInodes (gd : Buf) (count : ℕ) : Buf :=
  clearItableUnused (gd.setField 0 Gd.bgFreeInodesCountLo count)

theorem getField_countInodes {f : Buf.Field} {count : ℕ} (h : f.Disjoint Gd.bgFreeInodesCountLo)
    (h' : f.Disjoint Gd.bgItableUnusedLo) (h'' : f.Disjoint Gd.bgItableUnusedHi) :
    (countInodes gd count).getField 0 f = gd.getField 0 f := by
  unfold countInodes clearItableUnused
  simp (disch := assumption) only [Buf.getField_setField_of_disjoint]

theorem getField_countInodes_self {count : ℕ} (h : count < 2 ^ 16) :
    (countInodes gd count).getField 0 Gd.bgFreeInodesCountLo = count := by
  unfold countInodes clearItableUnused
  simp (disch := decide) only [Buf.getField_setField_of_disjoint, Buf.getField_setField_self]
  exact Nat.mod_eq_of_lt h

/-- The count is stored in front of what only a large descriptor has. -/
theorem Image.countInodes_of_le (h : V.Image n fs) {count i : ℕ} (hi : V.geom.copySz ≤ i) :
    countInodes (fs.desc g) count i = 0 := by
  have hsz := h.laid.copySz_ge
  refine Buf.setField_zero_eq_zero (Buf.setField_zero_eq_zero ?_)
  rw [Buf.setField_of_le (by simp only [Gd.bgFreeInodesCountLo]; omega), h.desc_of_le hi]

/-- Storing a group's bitmap and its new count of free inodes. -/
theorem InodesOnDisk.storeCounted (h : V.InodesOnDisk n I fs) (hg : g < V.groups) (bitmap : Buf)
    (I' : Set ℕ) (hself : ∀ i < V.geom.sInodesPerGroup, bitmap.bit i = true ↔ V.inodeNr g i ∈ I')
    (hother : ∀ g', g' ≠ g → ∀ i < V.geom.sInodesPerGroup, V.inodeNr g' i ∈ I' ↔ V.inodeNr g' i ∈ I) :
    ∃ fs', Fs.storeInodeDesc g ((fs.desc g).setField 0 Gd.bgFreeInodesCountLo
        (bitmap.clearBits V.geom.sInodesPerGroup)) (fs.put (V.inodeBitmap g) bitmap) = (some (), fs') ∧
      V.InodesOnDisk n I' fs' ∧ V.InodeChanged g bitmap
        (countInodes (fs.desc g) (bitmap.clearBits V.geom.sInodesPerGroup)) fs fs' := by
  have hle := h.bitmapsLaid.perGroup_le
  have hbs := h.bitmapsLaid.bs_le
  have hclear := bitmap.clearBits_le V.geom.sInodesPerGroup
  have hlt : bitmap.clearBits V.geom.sInodesPerGroup < 2 ^ 16 := by
    simp only [blockSizeDefault] at hbs
    omega
  obtain ⟨fs', hrun, hcarried, hchanged⟩ :=
    h.toCarried.storeInode h.bitmapsLaid hg bitmap (fun i hi ↦ h.toImage.countInodes_of_le hi)
    ((getField_countInodes (by decide) (by decide) (by decide)).trans
      (h.desc_blockBitmap g (h.bitmapsLaid.group g hg)))
  exact ⟨fs', hrun, h.of_changed hcarried hchanged
    ((getField_countInodes (by decide) (by decide) (by decide)).trans (h.desc_inodeBitmap g hg))
    (getField_countInodes_self hlt) hself hother, hchanged⟩

/-! ### Allocation -/

/-- What a call of the inode allocator has done that returned `ino`. -/
structure InodeAllocated (V : Volume) (n : ℕ) (I : Set ℕ) (fs : Fs) (ino : ℕ) (fs' : Fs) : Prop where
  pos : ino ≠ 0
  le_count : ino ≤ V.geom.sInodesCount
  fresh : ino ∉ I
  onDisk : V.InodesOnDisk n (insert ino I) fs'
  changed : ∃ bitmap, V.InodeChanged (V.inodeGroup ino) bitmap
    (countInodes (fs.desc (V.inodeGroup ino)) (bitmap.clearBits V.geom.sInodesPerGroup)) fs fs'

/-- The bits of group `g` are all set. -/
def GroupFull (V : Volume) (I : Set ℕ) (g : ℕ) : Prop :=
  ∀ i < V.geom.sInodesPerGroup, V.inodeNr g i ∈ I

theorem inodeGroup_inodeNr {i : ℕ} (hi : i < V.geom.sInodesPerGroup) :
    V.inodeGroup (V.inodeNr g i) = g := by
  rw [inodeGroup, inodeNr, Nat.add_sub_cancel, Nat.mul_comm, Nat.mul_add_div (by omega),
    Nat.div_eq_of_lt hi, Nat.add_zero]

theorem InodesOnDisk.tryInodeGroup (h : V.InodesOnDisk n I fs) (hg : g < V.groups) :
    (∃ ino fs', Fs.tryInodeGroup g fs = (some ino, fs') ∧ V.InodeAllocated n I fs ino fs') ∨
      Fs.tryInodeGroup g fs = (none, fs) ∧ V.GroupFull I g := by
  have hlaid := h.bitmapsLaid
  have hipg : fs.sbi.sInodesPerGroup = V.geom.sInodesPerGroup :=
    congrArg SbGeom.sInodesPerGroup h.geom
  have hcount : fs.sbi.sInodesCount = V.geom.sInodesCount := congrArg SbGeom.sInodesCount h.geom
  have hbits := hlaid.perGroup_le
  have hlast : V.inodeNr g (V.geom.sInodesPerGroup - 1) ≤ V.geom.sInodesCount :=
    hlaid.inodeNr_le hg (by have := hlaid.perGroup_pos; omega)
  have hscan := scanInodes_spec (fs.block (V.inodeBitmap g)) V.bs (g * V.geom.sInodesPerGroup)
    hlaid.count_lt V.geom.sInodesPerGroup 0 (by omega) (by
      have := hlaid.perGroup_pos
      unfold inodeNr at hlast
      omega)
  unfold Fs.tryInodeGroup
  rw [bind_of_eq_some (h.readInodeBitmap hg), bind_of_eq_some (h.readInodeDesc hg), get_bind, hipg,
    hcount, h.blockSize]
  revert hscan
  rcases scanInodes (fs.block (V.inodeBitmap g)) V.bs (g * V.geom.sInodesPerGroup)
    V.geom.sInodesCount V.geom.sInodesPerGroup 0 with _ | ⟨k, ino⟩
  · -- no clear bit: the group is full
    intro hall
    exact .inr ⟨rfl, fun i hi ↦ (h.bit_iff g hg i hi).1 (hall i (Nat.zero_le _) (by omega))⟩
  · -- the first clear bit is taken
    rintro ⟨-, hk, hclear, rfl⟩
    rw [Nat.zero_add] at hk
    have hfresh : V.inodeNr g k ∉ I := by
      rw [← h.bit_iff g hg k hk, hclear]
      simp
    have hbitmap := Buf.clearBits_setBit hk hclear
    have hfree : (fs.desc g).getField 0 Gd.bgFreeInodesCountLo - 1 =
        ((fs.block (V.inodeBitmap g)).setBit k).clearBits V.geom.sInodesPerGroup := by
      rw [h.count g hg]
      omega
    set bitmap := (fs.block (V.inodeBitmap g)).setBit k with hbitmapdef
    have hself : ∀ i < V.geom.sInodesPerGroup,
        bitmap.bit i = true ↔ V.inodeNr g i ∈ insert (V.inodeNr g k) I := by
      intro i hi
      rw [hbitmapdef, Buf.bit_setBit, Bool.or_eq_true, h.bit_iff g hg i hi, Set.mem_insert_iff,
        decide_eq_true_iff]
      constructor
      · rintro (hin | rfl)
        · exact .inr hin
        · exact .inl rfl
      · rintro (heq | hin)
        · exact .inr (inodeNr_inj hi hk heq).2
        · exact .inl hin
    have hother : ∀ g', g' ≠ g → ∀ i < V.geom.sInodesPerGroup,
        V.inodeNr g' i ∈ insert (V.inodeNr g k) I ↔ V.inodeNr g' i ∈ I := by
      intro g' hne i hi
      rw [Set.mem_insert_iff, or_iff_right fun heq ↦ hne (inodeNr_inj hi hk heq).1]
    obtain ⟨-, -, hwrite⟩ := h.toCarried.putInodeBitmap hlaid hg bitmap
    obtain ⟨fs', hstore, honDisk, hchanged⟩ := h.storeCounted hg bitmap _ hself hother
    refine .inl ⟨V.inodeNr g k, fs', ?_, Nat.succ_ne_zero _, hlaid.inodeNr_le hg hk, hfresh, honDisk, ?_⟩
    · simp only [ofOption_some, pure_bind']
      rw [bind_of_eq_some hwrite, if_pos (by rw [h.count g hg]; omega), hfree,
        bind_of_eq_some hstore, pure_apply]
      rfl
    · rw [inodeGroup_inodeNr hk]
      exact ⟨_, hchanged⟩

/-- The loop over the groups passes only full ones by. -/
theorem InodesOnDisk.scanInodeGroups (h : V.InodesOnDisk n I fs) {startGroup : ℕ}
    (hstart : startGroup < V.groups) :
    ∀ m scanned, scanned + m ≤ V.groups →
      (∃ ino fs', Fs.scanInodeGroups V.groups startGroup m scanned fs = (some ino, fs') ∧
        V.InodeAllocated n I fs ino fs') ∨
      Fs.scanInodeGroups V.groups startGroup m scanned fs = (none, fs) ∧
        ∀ k, scanned ≤ k → k < scanned + m → V.GroupFull I (visit startGroup V.groups k) := by
  intro m
  induction m with
  | zero => exact fun scanned _ ↦ .inr ⟨rfl, fun k hk hk' ↦ by omega⟩
  | succ m ih =>
    intro scanned hle
    have hvisit : visit startGroup V.groups scanned < V.groups := by
      unfold visit
      split <;> omega
    have hloop : ∀ {r fs'}, Fs.tryInodeGroup (visit startGroup V.groups scanned) fs = (r, fs') →
        Fs.scanInodeGroups V.groups startGroup (m + 1) scanned fs =
          r.elim (Fs.scanInodeGroups V.groups startGroup m (scanned + 1)) pure fs' := fun {r fs'} hrun ↦ by
      change (attempt (Fs.tryInodeGroup (visit startGroup V.groups scanned)) >>= _) fs = _
      rw [attempt_bind, hrun]
      cases r <;> rfl
    rcases h.tryInodeGroup hvisit with ⟨ino, fs', hrun, halloc⟩ | ⟨hrun, hfull⟩
    · exact .inl ⟨ino, fs', hloop hrun, halloc⟩
    · rw [hloop hrun, Option.elim_none]
      rcases ih (scanned + 1) (by omega) with hsome | ⟨hnone, hrest⟩
      · exact .inl hsome
      · refine .inr ⟨hnone, fun k hk hk' ↦ ?_⟩
        rcases Nat.eq_or_lt_of_le hk with rfl | hlt
        · exact hfull
        · exact hrest k hlt (by omega)

/-- `ext4_new_inode_in_group` returns a new number, or fails, with nothing changed, where there is
none. -/
theorem InodesOnDisk.newInode (h : V.InodesOnDisk n I fs) (preferredGroup : ℕ) :
    (∃ ino fs', fs.ext4NewInodeInGroup preferredGroup = (some ino, fs') ∧
        V.InodeAllocated n I fs ino fs') ∨
      fs.ext4NewInodeInGroup preferredGroup = (none, fs) ∧ ∀ g < V.groups, V.GroupFull I g := by
  have hipg : fs.sbi.sInodesPerGroup = V.geom.sInodesPerGroup :=
    congrArg SbGeom.sInodesPerGroup h.geom
  have hgroups : fs.sbi.sGroupsCount = V.groups := congrArg SbGeom.sGroupsCount h.geom
  have hpos := h.laid.groups_pos
  have hperGroup := h.bitmapsLaid.perGroup_pos
  have hstart : (if preferredGroup < V.groups then preferredGroup else 0) < V.groups := by
    split <;> omega
  have hmalloc : Fs.mallocBlock fs = (some (), fs) :=
    Fs.mallocBlock_eq (h.blockSize ▸ h.bitmapsLaid.bs_le)
  unfold Fs.ext4NewInodeInGroup
  rw [get_bind, guard_true h.groupDesc, pure_bind', guard_true (by omega), pure_bind', hgroups,
    if_neg hpos.ne', bind_of_eq_some hmalloc]
  rcases h.scanInodeGroups hstart V.groups 0 (by omega) with hsome | ⟨hnone, hfull⟩
  · exact .inl hsome
  · refine .inr ⟨hnone, fun g hg ↦ ?_⟩
    obtain ⟨k, hk, rfl⟩ := exists_visit_eq hstart hg
    exact hfull k (Nat.zero_le _) (by omega)

/-! ### Freeing -/

/-- `ext4_free_inode` of an inode that is in use takes it out. -/
theorem InodesOnDisk.freeInode (h : V.InodesOnDisk n I fs) {ino : ℕ} (hino : ino ≠ 0)
    (hle : ino ≤ V.geom.sInodesCount) (hmem : ino ∈ I) :
    ∃ fs', fs.ext4FreeInode ino = (some (), fs') ∧ V.InodesOnDisk n (I \ {ino}) fs' ∧
      ∃ bitmap, V.InodeChanged (V.inodeGroup ino) bitmap
        (countInodes (fs.desc (V.inodeGroup ino)) (bitmap.clearBits V.geom.sInodesPerGroup)) fs fs' := by
  have hlaid := h.bitmapsLaid
  have hipg : fs.sbi.sInodesPerGroup = V.geom.sInodesPerGroup :=
    congrArg SbGeom.sInodesPerGroup h.geom
  have hgroups : fs.sbi.sGroupsCount = V.groups := congrArg SbGeom.sGroupsCount h.geom
  have hbits := hlaid.perGroup_le
  have hmalloc : Fs.mallocBlock fs = (some (), fs) := Fs.mallocBlock_eq (h.blockSize ▸ hlaid.bs_le)
  obtain ⟨hg, hk, hnr⟩ := hlaid.inodeNr_inodeIndex hino hle
  have hgroup : (ino - 1) / V.geom.sInodesPerGroup = V.inodeGroup ino := rfl
  have hindex : (ino - 1) % V.geom.sInodesPerGroup = V.inodeIndex ino := rfl
  unfold Fs.ext4FreeInode
  rw [get_bind, guard_true h.groupDesc, pure_bind', guard_true hino, pure_bind', hipg, hgroups, hgroup,
    hindex]
  -- from here on the inode is a group and a bit of it
  generalize V.inodeGroup ino = g at *
  generalize V.inodeIndex ino = k at *
  subst hnr
  have hset : (fs.block (V.inodeBitmap g)).bit k = true := (h.bit_iff g hg k hk).2 hmem
  rw [guard_true hg, pure_bind', guard_true hk, pure_bind', bind_of_eq_some hmalloc,
    bind_of_eq_some (h.readInodeBitmap hg), h.blockSize, guard_true (by omega), pure_bind']
  simp only [hset, Bool.not_true, Bool.false_eq_true, if_false]
  set bitmap := (fs.block (V.inodeBitmap g)).clearBit k with hbitmapdef
  have hcount : (fs.desc g).getField 0 Gd.bgFreeInodesCountLo + 1 =
      bitmap.clearBits V.geom.sInodesPerGroup := by
    rw [h.count g hg, hbitmapdef, Buf.clearBits_clearBit hk hset]
  have hself : ∀ i < V.geom.sInodesPerGroup,
      bitmap.bit i = true ↔ V.inodeNr g i ∈ I \ {V.inodeNr g k} := by
    intro i hi
    rw [hbitmapdef, Buf.bit_clearBit, Bool.and_eq_true, h.bit_iff g hg i hi, Set.mem_sdiff,
      Set.mem_singleton_iff, Bool.not_eq_true', decide_eq_false_iff_not]
    exact and_congr_right fun _ ↦
      not_congr ⟨fun heq ↦ heq ▸ rfl, fun heq ↦ (inodeNr_inj hi hk heq).2⟩
  have hother : ∀ g', g' ≠ g → ∀ i < V.geom.sInodesPerGroup,
      V.inodeNr g' i ∈ I \ {V.inodeNr g k} ↔ V.inodeNr g' i ∈ I := by
    intro g' hne i hi
    exact ⟨fun hin ↦ hin.1, fun hin ↦ ⟨hin, fun heq ↦ hne (inodeNr_inj hi hk heq).1⟩⟩
  obtain ⟨hput, hkept, hwrite⟩ := h.toCarried.putInodeBitmap hlaid hg bitmap
  obtain ⟨fs', hstore, honDisk, hchanged⟩ := h.storeCounted hg bitmap _ hself hother
  refine ⟨fs', ?_, honDisk, bitmap, hchanged⟩
  have hgroups' : (fs.put (V.inodeBitmap g) bitmap).sbi.sGroupsCount = V.groups := hgroups
  have hread : Fs.Ialloc.readGroupDesc g (fs.put (V.inodeBitmap g) bitmap) =
      (some (fs.desc g), fs.put (V.inodeBitmap g) bitmap) := by
    unfold Fs.Ialloc.readGroupDesc
    rw [get_bind, guard_true (by omega), pure_bind', hput.readGroupDesc hlaid.bs_le (hlaid.group g hg),
      hkept.desc g (hlaid.group g hg)]
  rw [bind_of_eq_some hwrite, bind_of_eq_some hread, hcount, hstore]

end Volume

end MiniExt4
