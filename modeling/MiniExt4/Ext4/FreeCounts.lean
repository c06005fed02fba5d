import MiniExt4.Ext4.BallocSpec
import MiniExt4.Ext4.IallocRun

/-!
# The counts of free blocks

The free blocks of a group are counted in its descriptor. The descriptor of group 0 is also in memory,
and the directory count is changed there and the whole of it written back. Through allocations and
releases of blocks and inodes in any order, each descriptor counts the clear bits of its bitmap, and the
copy in memory has the counts of the descriptor on the device; unless mounting, which takes a count of 0
for a damaged one, has replaced it.

The invariant is kept by every call without a condition, whatever its arguments are; the condition is on the
volume alone, and it enters once, when the mount makes the copy. A full volume and one without a free inode
are those whose count is 0, and the state after the mount is already the counterexample.
-/

namespace MiniExt4

open StateErr

/-! ### The block bitmaps as they are on the device -/

namespace Fs

/-- The block bitmap of a group, where the group's descriptor says it is. -/
def blockBitmapOf (fs : Fs) (g : ℕ) : Buf := fs.block ((fs.desc g).getField 0 Gd.bgBlockBitmapLo)

/-- The number of clear bits of a group that stand for a block of the volume. -/
def clearBlocks (fs : Fs) (g : ℕ) : ℕ :=
  ((Finset.range fs.sbi.sBlocksPerGroup).filter fun i ↦
    g * fs.sbi.sBlocksPerGroup + i < fs.sbi.sBlocksCount ∧ (fs.blockBitmapOf g).bit i = false).card

/-- The descriptors count the clear bits, and the copy in memory counts what the first one does. -/
structure TracksFree (fs : Fs) : Prop where
  count : ∀ g < fs.sbi.sGroupsCount,
    (fs.desc g).getField 0 Gd.bgFreeBlocksCountLo = fs.clearBlocks g
  memory : ∃ gd, fs.sbi.sGroupDesc = some gd ∧
    gd.getField 0 Gd.bgFreeBlocksCountLo = (fs.desc 0).getField 0 Gd.bgFreeBlocksCountLo ∧
    gd.getField 0 Gd.bgFreeInodesCountLo = (fs.desc 0).getField 0 Gd.bgFreeInodesCountLo

/-- What `ext4_mkdir` and `ext4_rmdir` do to the directory count: it is changed in memory, and the
descriptor is written back for the group of the inode. -/
def updateUsedDirs (f : ℕ → ℕ) (group : ℕ) : StateErr Fs Unit := do
  let fs ← get
  let gd ← ofOption fs.sbi.sGroupDesc
  modifySbi fun sbi ↦
    { sbi with
      sGroupDesc := some
        (gd.setField 0 Gd.bgUsedDirsCountLo (f (gd.getField 0 Gd.bgUsedDirsCountLo))) }
  let _ ← attempt (ext4WriteGroupDescCached group)

/-- The filesystem with another copy of the first descriptor in memory. -/
def withGroupDesc (fs : Fs) (gd : Buf) : Fs := { fs with sbi := { fs.sbi with sGroupDesc := some gd } }

end Fs

namespace Volume

variable {V : Volume} {n g : ℕ} {I : Set ℕ} {fs fs' : Fs} {bitmap gd gd' : Buf}

/-! ### What is tracked -/

/-- A descriptor in memory that differs from `gd'` in the directory count and the flags at most. -/
structure CopyOf (V : Volume) (gd gd' : Buf) : Prop where
  blockBitmap : gd.getField 0 Gd.bgBlockBitmapLo = gd'.getField 0 Gd.bgBlockBitmapLo
  inodeBitmap : gd.getField 0 Gd.bgInodeBitmapLo = gd'.getField 0 Gd.bgInodeBitmapLo
  freeBlocks : gd.getField 0 Gd.bgFreeBlocksCountLo = gd'.getField 0 Gd.bgFreeBlocksCountLo
  freeInodes : gd.getField 0 Gd.bgFreeInodesCountLo = gd'.getField 0 Gd.bgFreeInodesCountLo
  end_zero : ∀ i, V.geom.copySz ≤ i → gd i = 0

/-- Besides the inodes the device tracks the free blocks, and so does the descriptor in memory. -/
structure Tracked (V : Volume) (n : ℕ) (I : Set ℕ) (fs : Fs) : Prop extends V.InodesOnDisk n I fs where
  coherent : V.Coherent n fs
  perGroup_eq : V.perGroup = min (V.bs * 8) V.blocks
  blocks_le : V.blocks ≤ V.groups * V.perGroup
  free_eq : ∀ g < V.groups, (fs.desc g).getField 0 Gd.bgFreeBlocksCountLo =
    (fs.block (V.blockBitmap g)).clearBits (V.groupBlocks g)
  memory : ∃ gd, fs.sbi.sGroupDesc = some gd ∧ V.CopyOf gd (fs.desc 0)

/-- A descriptor is a copy of itself. -/
theorem Image.copyOf_desc (h : V.Image n fs) (g : ℕ) : V.CopyOf (fs.desc g) (fs.desc g) :=
  ⟨rfl, rfl, rfl, rfl, fun _ hi ↦ h.desc_of_le hi⟩

/-- The blocks of a group can be counted in 16 bits. -/
theorem Tracked.groupBlocks_lt (h : V.Tracked n I fs) (g : ℕ) : V.groupBlocks g < 2 ^ 16 := by
  have hbs := h.bitmapsLaid.bs_le
  have hper := h.perGroup_eq
  unfold groupBlocks
  simp only [blockSizeDefault] at hbs
  omega

/-- The clear bits of a group are counted over its blocks. -/
theorem Tracked.clearBlocks_eq (h : V.Tracked n I fs) (hg : g < V.groups) :
    fs.clearBlocks g = (fs.block (V.blockBitmap g)).clearBits (V.groupBlocks g) := by
  have hper : fs.sbi.sBlocksPerGroup = V.perGroup := congrArg SbGeom.sBlocksPerGroup h.geom
  have hblocks : fs.sbi.sBlocksCount = V.blocks := congrArg SbGeom.sBlocksCount h.geom
  have hbitmap : fs.blockBitmapOf g = fs.block (V.blockBitmap g) := by
    rw [Fs.blockBitmapOf, h.desc_blockBitmap g (h.bitmapsLaid.group g hg)]
  rw [Buf.clearBits_eq_card, Fs.clearBlocks, hper, hblocks, hbitmap]
  congr 1
  ext i
  simp only [Finset.mem_filter, Finset.mem_range, groupBlocks]
  constructor
  · rintro ⟨hi, hlt, hbit⟩
    exact ⟨by omega, hbit⟩
  · rintro ⟨hi, hbit⟩
    exact ⟨by omega, by omega, hbit⟩

/-- Counts that are tracked are right. -/
theorem Tracked.tracksFree (h : V.Tracked n I fs) : fs.TracksFree := by
  have hgroups : fs.sbi.sGroupsCount = V.groups := congrArg SbGeom.sGroupsCount h.geom
  obtain ⟨gd, hgd, hcopy⟩ := h.memory
  exact ⟨fun g hg ↦ by rw [h.free_eq g (hgroups ▸ hg), h.clearBlocks_eq (hgroups ▸ hg)],
    gd, hgd, hcopy.freeBlocks, hcopy.freeInodes⟩

/-! ### Blocks -/

/-- The counts after a change of the bitmap and the descriptor of one group. -/
theorem Tracked.of_changed (h : V.Tracked n I fs) (hcoherent : V.Coherent n fs')
    (hframe : V.AllocFrame fs fs') (hchanged : V.Changed g bitmap gd fs fs')
    (hinode : gd.getField 0 Gd.bgInodeBitmapLo = V.inodeBitmap g)
    (hinodes : gd.getField 0 Gd.bgFreeInodesCountLo = (fs.desc g).getField 0 Gd.bgFreeInodesCountLo)
    (hfree : gd.getField 0 Gd.bgFreeBlocksCountLo = bitmap.clearBits (V.groupBlocks g)) :
    V.Tracked n I fs' := by
  have hlaid := h.bitmapsLaid
  have hblock : ∀ g < V.groups, fs'.block (V.inodeBitmap g) = fs.block (V.inodeBitmap g) :=
    fun g hg ↦ hframe.block _ (hlaid.not_alloc g hg)
  have hdesc : ∀ g' < V.groups, g' ≠ g → fs'.desc g' = fs.desc g' := fun g' hg' ↦
    hchanged.desc_ne g' (hlaid.group g' hg')
  refine ⟨⟨hcoherent.toCarried, hlaid, fun g' hg' ↦ ?_, fun g' hg' i hi ↦ ?_, fun g' hg' ↦ ?_⟩,
    hcoherent, h.perGroup_eq, h.blocks_le, fun g' hg' ↦ ?_, ?_⟩
  · by_cases hne : g' = g
    · rw [hne, hchanged.desc, hinode]
    · rw [hdesc g' hg' hne, h.desc_inodeBitmap g' hg']
  · rw [hblock g' hg', h.bit_iff g' hg' i hi]
  · rw [hblock g' hg', ← h.count g' hg']
    by_cases hne : g' = g
    · rw [hne, hchanged.desc, hinodes]
    · rw [hdesc g' hg' hne]
  · by_cases hne : g' = g
    · have hper := h.perGroup_eq
      rw [hne, hchanged.desc, hchanged.bitmap, hfree]
      refine Buf.clearBits_congr fun i hi ↦ (Buf.bit_clip _ ?_).symm
      unfold groupBlocks at hi
      omega
    · rw [hdesc g' hg' hne, hchanged.bitmap_ne g' (hlaid.group g' hg') hne, h.free_eq g' hg']
  · rw [hchanged.memory]
    by_cases hzero : g = 0
    · subst hzero
      exact ⟨gd, if_pos rfl, by
        rw [← hchanged.desc]
        exact hcoherent.copyOf_desc 0⟩
    · rw [if_neg hzero, hdesc 0 h.laid.groups_pos fun h0 ↦ hzero h0.symm]
      exact h.memory

/-- The counts after nothing was changed but the superblock. -/
theorem Tracked.of_kept (h : V.Tracked n I fs) (hcoherent : V.Coherent n fs') (hkept : V.Kept fs fs')
    (hframe : V.AllocFrame fs fs') : V.Tracked n I fs' := by
  have hlaid := h.bitmapsLaid
  have hblock : ∀ g < V.groups, fs'.block (V.inodeBitmap g) = fs.block (V.inodeBitmap g) :=
    fun g hg ↦ hframe.block _ (hlaid.not_alloc g hg)
  have hdesc : ∀ g < V.groups, fs'.desc g = fs.desc g := fun g hg ↦ hkept.desc g (hlaid.group g hg)
  refine ⟨⟨hcoherent.toCarried, hlaid, fun g hg ↦ ?_, fun g hg i hi ↦ ?_, fun g hg ↦ ?_⟩,
    hcoherent, h.perGroup_eq, h.blocks_le, fun g hg ↦ ?_, ?_⟩
  · rw [hdesc g hg, h.desc_inodeBitmap g hg]
  · rw [hblock g hg, h.bit_iff g hg i hi]
  · rw [hblock g hg, hdesc g hg, h.count g hg]
  · rw [hdesc g hg, hkept.bitmap g (hlaid.group g hg), h.free_eq g hg]
  · rw [hkept.memory, hdesc 0 h.laid.groups_pos]
    exact h.memory

/-- Taking a run of blocks lowers the count by its length. -/
theorem Tracked.newBlocks (h : V.Tracked n I fs) (goalLen preferredGroup : ℕ) :
    wp (Fs.ext4NewBlocksInGroup goalLen preferredGroup) (fun r fs' ↦ V.Tracked n I fs' ∧
      ∀ b len, r = some (b, len) → b + len ≤ V.blocks) fs := by
  refine wp_mono (h.coherent.newBlocks goalLen preferredGroup) fun r fs' hpost ↦ ?_
  cases r with
  | none => exact ⟨h.of_kept hpost.1 hpost.2.1 hpost.2.2.1, fun b len hr ↦ by simp at hr⟩
  | some r =>
    obtain ⟨b, len⟩ := r
    obtain ⟨⟨bpg, bc, gc⟩, hgeom, g, hg, i, rfl, hrun⟩ := hpost
    obtain ⟨hmul, hle⟩ :=
      (h.toCarried.allocGeometry hrun.bs_le hgeom).groupBlocks_le h.perGroup_eq hg
    dsimp only at hmul
    have hgroup := hrun.changed.group
    have hend : i + len ≤ V.groupBlocks g := hrun.le_limit.trans hle
    have hlen := hrun.len_pos
    refine ⟨h.of_changed hrun.coherent hrun.frame hrun.changed ?_ ?_ ?_, fun b len hr ↦ ?_⟩
    · rw [lowerFree, Buf.getField_setField_of_disjoint _ _ _ (by decide),
        h.desc_inodeBitmap g hgroup.1]
    · rw [lowerFree, Buf.getField_setField_of_disjoint _ _ _ (by decide)]
    · have hcount := Buf.clearBits_setBits hend hrun.clear
      have hlt := h.groupBlocks_lt g
      have hclear := (fs.block (V.blockBitmap g)).clearBits_le (V.groupBlocks g)
      rw [lowerFree, Buf.getField_setField_self, h.free_eq g hgroup.1]
      show _ % 2 ^ 16 = _
      split <;> omega
    · obtain ⟨rfl, rfl⟩ : g * bpg + i = b ∧ _ = len := by simpa using hr
      unfold groupBlocks at hend
      omega

/-- Freeing a block raises the count by one, if the block was in use. -/
theorem Tracked.freeBlock (h : V.Tracked n I fs) {b : ℕ} (hb : b < V.blocks) :
    wp (Fs.ext4FreeBlock b) (fun _ fs' ↦ V.Tracked n I fs') fs := by
  have hpos : 0 < V.perGroup := by
    have := h.laid.bs_pos
    have := h.laid.blocks_pos
    rw [h.perGroup_eq]
    omega
  have hper := h.perGroup_eq
  have hmod := Nat.mod_lt b hpos
  have hdm := Nat.div_add_mod' b V.perGroup
  have hg : b / V.perGroup < V.groups := by
    rw [Nat.div_lt_iff_lt_mul hpos]
    exact lt_of_lt_of_le hb h.blocks_le
  have hbit : b % V.perGroup < V.groupBlocks (b / V.perGroup) := by
    unfold groupBlocks
    omega
  obtain ⟨fs', hrun, hpost⟩ := h.coherent.freeBlock
    ⟨h.bitmapsLaid.bs_le, h.bitmapsLaid.group _ hg, hmod, by omega⟩
  rw [wp, hrun]
  by_cases hset : (fs.block (V.blockBitmap (b / V.perGroup))).bit (b % V.perGroup) = true
  swap
  · rw [if_neg hset] at hpost
    exact hpost ▸ h
  rw [if_pos hset] at hpost
  refine h.of_changed hpost.coherent hpost.frame hpost.changed ?_ ?_ ?_
  · rw [raiseFree, Buf.getField_setField_of_disjoint _ _ _ (by decide), h.desc_inodeBitmap _ hg]
  · rw [raiseFree, Buf.getField_setField_of_disjoint _ _ _ (by decide)]
  · have hlt := h.groupBlocks_lt (b / V.perGroup)
    have hclear := ((fs.block (V.blockBitmap (b / V.perGroup))).clearBit
      (b % V.perGroup)).clearBits_le (V.groupBlocks (b / V.perGroup))
    rw [raiseFree, Buf.getField_setField_self, h.free_eq _ hg, ← Buf.clearBits_clearBit hbit hset]
    exact Nat.mod_eq_of_lt (lt_of_le_of_lt hclear hlt)

/-! ### Inodes and directories -/

/-- The counts after a change of the inodes of one group. -/
theorem Tracked.of_inodeChanged {I' : Set ℕ} {count : ℕ} (h : V.Tracked n I fs)
    (honDisk : V.InodesOnDisk n I' fs')
    (hchanged : V.InodeChanged g bitmap (countInodes (fs.desc g) count) fs fs') :
    V.Tracked n I' fs' := by
  have hlaid := h.bitmapsLaid
  refine ⟨honDisk, ⟨honDisk.toCarried, fun hv ↦ ?_⟩, h.perGroup_eq, h.blocks_le, fun g' hg' ↦ ?_, ?_⟩
  · have hsame := hchanged.cache
    rw [hsame.valid] at hv
    obtain ⟨hgroup, hdirty, hbuf⟩ := h.coherent.cache hv
    rw [hsame.group, hsame.dirty, hsame.buf, hchanged.blockBitmap _ hgroup]
    exact ⟨hgroup, hdirty, hbuf⟩
  · rw [hchanged.blockBitmap g' (hlaid.group g' hg'), ← h.free_eq g' hg']
    by_cases hne : g' = g
    · rw [hne, hchanged.desc, getField_countInodes (by decide) (by decide) (by decide)]
    · rw [hchanged.desc_ne g' (hlaid.group g' hg') hne]
  · rw [hchanged.memory]
    by_cases hzero : g = 0
    · rw [if_pos hzero]
      refine ⟨_, rfl, ?_⟩
      rw [← hchanged.desc, hzero]
      exact honDisk.copyOf_desc 0
    · rw [if_neg hzero, hchanged.desc_ne 0 (hlaid.group 0 h.laid.groups_pos) fun h0 ↦ hzero h0.symm]
      exact h.memory

/-- A new inode leaves the counts of free blocks. -/
theorem Tracked.newInode (h : V.Tracked n I fs) (preferredGroup : ℕ) :
    (∃ ino fs', fs.ext4NewInodeInGroup preferredGroup = (some ino, fs') ∧ ino ≠ 0 ∧
        ino ≤ V.geom.sInodesCount ∧ ino ∉ I ∧ V.Tracked n (insert ino I) fs') ∨
      fs.ext4NewInodeInGroup preferredGroup = (none, fs) := by
  rcases h.toInodesOnDisk.newInode preferredGroup with ⟨ino, fs', hrun, halloc⟩ | ⟨hrun, -⟩
  · obtain ⟨bitmap, hchanged⟩ := halloc.changed
    exact .inl ⟨ino, fs', hrun, halloc.pos, halloc.le_count, halloc.fresh,
      h.of_inodeChanged halloc.onDisk hchanged⟩
  · exact .inr hrun

/-- Freeing an inode tracks one more that is free. -/
theorem Tracked.freeInode (h : V.Tracked n I fs) {ino : ℕ} (hino : ino ≠ 0)
    (hle : ino ≤ V.geom.sInodesCount) (hmem : ino ∈ I) :
    ∃ fs', fs.ext4FreeInode ino = (some (), fs') ∧ V.Tracked n (I \ {ino}) fs' := by
  obtain ⟨fs', hrun, honDisk, bitmap, hchanged⟩ := h.toInodesOnDisk.freeInode hino hle hmem
  exact ⟨fs', hrun, h.of_inodeChanged honDisk hchanged⟩

/-- The copy in memory may be replaced by another. -/
theorem Tracked.withGroupDesc (h : V.Tracked n I fs) (hcopy : V.CopyOf gd (fs.desc 0)) :
    V.Tracked n I (fs.withGroupDesc gd) := by
  have hcarried : V.Carried n (fs.withGroupDesc gd) := h.toCarried.withSbi _ rfl rfl
  exact ⟨⟨hcarried, h.bitmapsLaid, h.desc_inodeBitmap, h.bit_iff, h.count⟩, ⟨hcarried, h.coherent.cache⟩,
    h.perGroup_eq, h.blocks_le, h.free_eq, gd, rfl, hcopy⟩

/-- Writing the copy in memory over the descriptor of group 0. -/
theorem Tracked.writeMemory (h : V.Tracked n I fs) (hmem : fs.sbi.sGroupDesc = some gd)
    (hcopy : V.CopyOf gd (fs.desc 0)) :
    ∃ fs', Fs.Ialloc.writeGroupDesc 0 gd fs = (some (), fs') ∧ V.Tracked n I fs' := by
  have hlaid := h.bitmapsLaid
  have hpos := h.laid.groups_pos
  have hg : V.Group 0 := hlaid.group 0 hpos
  have hgroups : fs.sbi.sGroupsCount = V.groups := congrArg SbGeom.sGroupsCount h.geom
  have hbb : gd.getField 0 Gd.bgBlockBitmapLo = V.blockBitmap 0 :=
    hcopy.blockBitmap.trans (h.desc_blockBitmap 0 hg)
  obtain ⟨-, hself, hother, hbitmap⟩ := h.toImage.putDesc hg hcopy.end_zero hbb
  have hcarried := h.toCarried.putDesc hg hcopy.end_zero hbb
  set fs₁ := fs.put (V.descBlock 0) (V.descStored fs 0 gd)
  have hcoherent : V.Coherent n fs₁ := ⟨hcarried, fun hv ↦ by
    obtain ⟨hgroup, hdirty, hbuf⟩ := h.coherent.cache hv
    exact ⟨hgroup, hdirty, hbuf.trans (hbitmap _ hgroup).symm⟩⟩
  have hchanged : V.Changed 0 (fs.block (V.blockBitmap 0)) gd fs fs₁ :=
    ⟨hg, by rw [hbitmap 0 hg, ← h.blockSize, Fs.clip_block], fun g' hg' _ ↦ hbitmap g' hg', hself,
      hother, hmem⟩
  refine ⟨fs₁, ?_, h.of_changed hcoherent (.put (.inr ⟨0, hpos, .inl rfl⟩) _) hchanged
    (hcopy.inodeBitmap.trans (h.desc_inodeBitmap 0 hpos)) hcopy.freeInodes
    (hcopy.freeBlocks.trans (h.free_eq 0 hpos))⟩
  unfold Fs.Ialloc.writeGroupDesc
  rw [get_bind, guard_true (by omega), pure_bind', h.toCarried.writeGroupDesc hlaid.bs_le hg gd]

/-- The directory count is not one of the fields a copy shares. -/
theorem CopyOf.setUsedDirs (h : V.CopyOf gd gd') (hsize : 32 ≤ V.geom.copySz) (v : ℕ) :
    V.CopyOf (gd.setField 0 Gd.bgUsedDirsCountLo v) gd' := by
  have hof : ∀ {f : Buf.Field}, f.Disjoint Gd.bgUsedDirsCountLo →
      (gd.setField 0 Gd.bgUsedDirsCountLo v).getField 0 f = gd.getField 0 f :=
    fun hf ↦ Buf.getField_setField_of_disjoint _ _ _ hf
  refine ⟨(hof (by decide)).trans h.blockBitmap, (hof (by decide)).trans h.inodeBitmap,
    (hof (by decide)).trans h.freeBlocks, (hof (by decide)).trans h.freeInodes, fun i hi ↦ ?_⟩
  rw [Buf.setField_of_le (by simp only [Gd.bgUsedDirsCountLo]; omega), h.end_zero i hi]

/-- Clearing the unused inodes leaves a copy. -/
theorem CopyOf.clearItableUnused (h : V.CopyOf gd gd') : V.CopyOf (clearItableUnused gd) gd' := by
  have hof : ∀ {f : Buf.Field}, f.Disjoint Gd.bgItableUnusedLo → f.Disjoint Gd.bgItableUnusedHi →
      (MiniExt4.clearItableUnused gd).getField 0 f = gd.getField 0 f := by
    intro f hf hf'
    unfold MiniExt4.clearItableUnused
    simp (disch := assumption) only [Buf.getField_setField_of_disjoint]
  exact ⟨(hof (by decide) (by decide)).trans h.blockBitmap,
    (hof (by decide) (by decide)).trans h.inodeBitmap, (hof (by decide) (by decide)).trans h.freeBlocks,
    (hof (by decide) (by decide)).trans h.freeInodes,
    fun i hi ↦ Buf.setField_zero_eq_zero (Buf.setField_zero_eq_zero (h.end_zero i hi))⟩

/-- A change of the directory count leaves the counts of free blocks and inodes. -/
theorem Tracked.updateUsedDirs (h : V.Tracked n I fs) (f : ℕ → ℕ) (group : ℕ) :
    V.Tracked n I (Fs.updateUsedDirs f group fs).2 := by
  obtain ⟨gd, hgd, hcopy⟩ := h.memory
  have hcopy₁ := hcopy.setUsedDirs h.laid.copySz_ge (f (gd.getField 0 Gd.bgUsedDirsCountLo))
  set gd₁ := gd.setField 0 Gd.bgUsedDirsCountLo (f (gd.getField 0 Gd.bgUsedDirsCountLo))
  have h₁ := h.withGroupDesc hcopy₁
  have hrun : (Fs.updateUsedDirs f group fs).2 =
      (Fs.ext4WriteGroupDescCached group (fs.withGroupDesc gd₁)).2 := by
    unfold Fs.updateUsedDirs Fs.modifySbi
    rw [get_bind, hgd, ofOption_some, pure_bind', modify_bind, attempt_bind]
    rfl
  rw [hrun, Fs.ext4WriteGroupDescCached, get_bind,
    show (fs.withGroupDesc gd₁).sbi.sGroupDesc = some gd₁ from rfl, ofOption_some, pure_bind']
  by_cases hzero : group ≠ 0
  · rw [if_pos hzero]
    exact h₁
  rw [if_neg hzero, Fs.modifySbi, modify_bind]
  obtain ⟨fs', hwrite, h'⟩ := (h₁.withGroupDesc hcopy₁.clearItableUnused).writeMemory rfl
    hcopy₁.clearItableUnused
  exact (congrArg Prod.snd hwrite).symm ▸ h'

end Volume

/-! ### The copy that mounting makes -/

namespace FillSuper

variable {geom : SbGeom} {buf gd : Buf}

/-- A count that is not zero is not refilled. -/
theorem refillFreeInodes_of_ne_zero (h : gd.getField 0 Gd.bgFreeInodesCountLo ≠ 0) :
    refillFreeInodes geom buf gd = gd := if_neg h

/-- Nor is that of the blocks. -/
theorem refillFreeBlocks_of_ne_zero (h : gd.getField 0 Gd.bgFreeBlocksCountLo ≠ 0) :
    refillFreeBlocks geom gd = gd := if_neg h

/-- After mounting the count of free inodes in memory is not 0. -/
theorem refillFreeInodes_ne_zero (h : geom.sInodesPerGroup < 2 ^ 16) :
    (refillFreeInodes geom buf gd).getField 0 Gd.bgFreeInodesCountLo ≠ 0 := by
  unfold refillFreeInodes
  by_cases hzero : gd.getField 0 Gd.bgFreeInodesCountLo = 0
  swap
  · rwa [if_neg hzero]
  rw [if_pos hzero]
  dsimp only
  generalize (if (if buf.getField 1024 Esb.sFirstIno > 1 then buf.getField 1024 Esb.sFirstIno - 1 else 1) ≥
      geom.sInodesPerGroup ∧ geom.sInodesPerGroup ≥ 2 then 2
    else if buf.getField 1024 Esb.sFirstIno > 1 then buf.getField 1024 Esb.sFirstIno - 1 else 1) = reserved
  simp (disch := decide) only [Buf.getField_setField_of_disjoint, Buf.getField_setField_self]
  show _ % 2 ^ 16 ≠ 0
  unfold u16
  split <;> omega

/-- After mounting the count of free blocks in memory is not 0. -/
theorem refillFreeBlocks_ne_zero (h : geom.sBlocksPerGroup < 2 ^ 16) :
    (refillFreeBlocks geom gd).getField 0 Gd.bgFreeBlocksCountLo ≠ 0 := by
  unfold refillFreeBlocks
  by_cases hzero : gd.getField 0 Gd.bgFreeBlocksCountLo = 0
  swap
  · rwa [if_neg hzero]
  rw [if_pos hzero, Buf.getField_setField_self]
  generalize u32 (1 + _ + 1 + 1 + _ + 1) = used
  show _ % 2 ^ 16 ≠ 0
  unfold u16
  split <;> omega

/-- The refill leaves the other fields. -/
theorem getField_refillFreeBlocks {f : Buf.Field} (h : f.Disjoint Gd.bgFreeBlocksCountLo) :
    (refillFreeBlocks geom gd).getField 0 f = gd.getField 0 f := by
  unfold refillFreeBlocks
  dsimp only
  split
  · exact Buf.getField_setField_of_disjoint _ _ _ h
  · rfl

end FillSuper

namespace Mkfs

variable {now now' total n : ℕ} {d d₁ d₂ : BlockDevice} {sbi : SbInfo}

/-- The layout that is rebuilt is the one of the volume. -/
theorem GeomOf.copyOf_rebuildDesc {geom : SbGeom} {gd : Buf} (h : GeomOf 4096 total geom)
    (htotal : total < 2 ^ 32)
    (hbb : gd.getField 0 Gd.bgBlockBitmapLo = blockBitmapAbs 4096 total 0)
    (hib : gd.getField 0 Gd.bgInodeBitmapLo = inodeBitmapAbs 4096 total 0)
    (hend : ∀ i, 32 ≤ i → gd i = 0) :
    (volume 4096 total geom).CopyOf (FillSuper.rebuildDesc geom (gd.setField 0 Gd.bgFlags 0)) gd := by
  have hgroups : groupsCount 4096 total ≤ 2 ^ 19 := groupsCount_le (by norm_num) htotal
  have hsz : (volume 4096 total geom).geom.copySz = 32 := h.copySz_eq
  have hof : ∀ {f : Buf.Field}, f.Disjoint Gd.bgFlags →
      (gd.setField 0 Gd.bgFlags 0).getField 0 f = gd.getField 0 f :=
    fun hf ↦ Buf.getField_setField_of_disjoint _ _ _ hf
  have hend' : ∀ i, 32 ≤ i → gd.setField 0 Gd.bgFlags 0 i = 0 := fun i hi ↦ by
    rw [Buf.setField_of_le (by simp only [Gd.bgFlags]; omega), hend i hi]
  unfold FillSuper.rebuildDesc
  rw [h.sGroupsCount, h.sDescSize, h.sBlockSize, h.sFirstDataBlock]
  -- the positions are those of the descriptor
  have hbmap : u32 (0 + 1 + u32 (groupsCount 4096 total * 32 + 4096 - 1) / 4096) =
      blockBitmapAbs 4096 total 0 := by
    unfold blockBitmapAbs groupStart gdBlocks gdEntrySize
    rw [u32_of_lt (show groupsCount 4096 total * 32 < 2 ^ 32 by omega)]
    simp [u32]
  have himap : (blockBitmapAbs 4096 total 0 + 1) % 2 ^ 32 = inodeBitmapAbs 4096 total 0 := rfl
  have hlt : blockBitmapAbs 4096 total 0 < 2 ^ 32 := Nat.mod_lt _ (by norm_num)
  simp only [hbmap]
  split
  · refine ⟨?_, ?_, ?_, ?_, fun i hi ↦ ?_⟩
    · simp (disch := decide) only [Buf.getField_setField_of_disjoint, Buf.getField_setField_self, hbb]
      exact Nat.mod_eq_of_lt hlt
    · simp (disch := decide) only [Buf.getField_setField_of_disjoint, Buf.getField_setField_self, hib]
      exact himap
    · simp (disch := decide) only [Buf.getField_setField_of_disjoint]
    · simp (disch := decide) only [Buf.getField_setField_of_disjoint]
    · rw [hsz] at hi
      rw [Buf.setField_of_le (by simp only [Gd.bgInodeTableLo]; omega),
        Buf.setField_of_le (by simp only [Gd.bgInodeBitmapLo]; omega),
        Buf.setField_of_le (by simp only [Gd.bgBlockBitmapLo]; omega), hend' i hi]
  · exact ⟨hof (by decide), hof (by decide), hof (by decide), hof (by decide),
      fun i hi ↦ hend' i (hsz ▸ hi)⟩

/-- Mounting a new volume keeps a copy of the first descriptor, with the counts refilled. -/
theorem Formatted.exists_sGroupDesc (h : Formatted now total n d d₁)
    (hmount : ext4FillSuper now' d₁ = (some sbi, d₂)) (bgSyncBatch preallocGoalLen : ℕ) :
    ∃ gd buf, (volume 4096 total sbi.toSbGeom).CopyOf gd
        ((Fs.ofMount d₂ sbi bgSyncBatch preallocGoalLen).desc 0) ∧
      sbi.sGroupDesc = some (FillSuper.refillFreeBlocks sbi.toSbGeom
        (FillSuper.refillFreeInodes sbi.toSbGeom buf gd)) := by
  have hcarried := h.carried hmount bgSyncBatch preallocGoalLen
  have hfresh := h.fresh hmount bgSyncBatch preallocGoalLen
  obtain ⟨hgeom, rfl, -⟩ := h.mount hmount
  obtain ⟨hblk, hoff, -⟩ := hgeom.desc h.spaced.ne_1024 (by norm_num) (by norm_num) h.total_lt
    h.groups_pos h.groups_pos
  obtain ⟨buf, d', count, hreads⟩ := exists_of_fillSuper hmount
  have hread : FillSuper.readSuper now' d₂ = (some (d₂.block 4096 0), d₂) :=
    readSuper_eq (fun _ _ hf ↦ h.superFields hf)
      (h.whole.toUsable.read (by have := h.one_lt; omega))
  obtain rfl : d₂ = d' := (Prod.mk.inj (hread.symm.trans hreads.readSuper)).2
  set fs := Fs.ofMount d₂ sbi bgSyncBatch preallocGoalLen with hfs
  have hdesc0 := hreads.readGroupDesc0
  rw [← hreads.geom, FillSuper.readGroupDesc0, if_pos (by rw [hgeom.sGroupsCount]; exact h.groups_pos),
    hgeom.sBlockSize, hgeom.sFirstDataBlock, if_neg (by decide),
    bind_of_eq_some (h.whole.toUsable.read (lt_of_eq_of_lt (by decide) h.one_lt)), pure_apply] at hdesc0
  have hdesc : Buf.zero.blit 0 (d₂.block 4096 (u32 (0 + 1))) 0 sbi.copySz = fs.desc 0 := by
    rw [hcarried.desc_eq, hblk, hoff, Fs.block, hfresh.blockSize]
    rfl
  have hcopy := hgeom.copyOf_rebuildDesc h.total_lt
    (hfresh.desc 0 h.groups_pos Gd.bgBlockBitmapLo _ (by simp [descFields]))
    (hfresh.desc 0 h.groups_pos Gd.bgInodeBitmapLo _ (by simp [descFields]))
    fun i hi ↦ hcarried.desc_of_le (hgeom.copySz_eq.symm ▸ hi)
  rw [← hdesc] at hcopy ⊢
  exact ⟨_, _, hcopy, (Option.some.inj (Prod.mk.inj hdesc0).1).symm⟩

/-- What the descriptor of group 0 of a new volume counts. -/
theorem Formatted.desc_counts (h : Formatted now total n d d₁)
    (hmount : ext4FillSuper now' d₁ = (some sbi, d₂)) (bgSyncBatch preallocGoalLen : ℕ) :
    ∀ g < groupsCount 4096 total,
      ((Fs.ofMount d₂ sbi bgSyncBatch preallocGoalLen).desc g).getField 0 Gd.bgFreeBlocksCountLo =
        groupBlocks 4096 total g - usedBlocks 4096 total g ∧
      ((Fs.ofMount d₂ sbi bgSyncBatch preallocGoalLen).desc g).getField 0 Gd.bgFreeInodesCountLo =
        freeInodes 4096 total g := by
  intro g hg
  have hfresh := h.fresh hmount bgSyncBatch preallocGoalLen
  have hle : blocksPerGroup 4096 total ≤ 4096 * 8 := (blocksPerGroup_le 4096 total).2
  have hipg : inodesPerGroup 4096 total ≤ 4096 * 8 := hle
  have hblocks := groupBlocks_eq h.spaced.no_wrap hg
  rw [hfresh.table g hg _ (by decide), hfresh.table g hg _ (by decide),
    getField_gdTable_of_descCounts hg (v := u16 (groupBlocks 4096 total g - usedBlocks 4096 total g))
      (by simp [descCounts]),
    getField_gdTable_of_descCounts hg (v := u16 (freeInodes 4096 total g)) (by simp [descCounts])]
  exact ⟨u16_of_lt (by omega), u16_of_lt (by unfold freeInodes; omega)⟩

/-- On a new volume the counts are those of the bitmaps, and so are the ones in memory unless one of
group 0 is 0. -/
theorem Formatted.tracked (h : Formatted now total n d d₁)
    (hmount : ext4FillSuper now' d₁ = (some sbi, d₂)) (bgSyncBatch preallocGoalLen : ℕ)
    (hinodes : freeInodes 4096 total 0 ≠ 0)
    (hblocks : groupBlocks 4096 total 0 - usedBlocks 4096 total 0 ≠ 0) :
    (volume 4096 total sbi.toSbGeom).Tracked n (Set.Icc 1 (reservedInodesG0 4096 total))
      (Fs.ofMount d₂ sbi bgSyncBatch preallocGoalLen) := by
  have hfresh := h.fresh hmount bgSyncBatch preallocGoalLen
  have honDisk := h.inodesOnDisk hmount bgSyncBatch preallocGoalLen
  have hcounts := h.desc_counts hmount bgSyncBatch preallocGoalLen
  obtain ⟨gd, buf, hcopy, hgd⟩ := h.exists_sGroupDesc hmount bgSyncBatch preallocGoalLen
  obtain ⟨hgeom, -, -, hcache⟩ := h.mount hmount
  set fs := Fs.ofMount d₂ sbi bgSyncBatch preallocGoalLen
  have hgroups := hgeom.groups
  have hbs : (volume 4096 total sbi.toSbGeom).bs = 4096 := hgeom.sBlockSize
  have htotal : (volume 4096 total sbi.toSbGeom).blocks = total := hgeom.sBlocksCount
  have hper : (volume 4096 total sbi.toSbGeom).perGroup = blocksPerGroup 4096 total :=
    hgeom.sBlocksPerGroup
  have hle : blocksPerGroup 4096 total ≤ 4096 * 8 := (blocksPerGroup_le 4096 total).2
  have hpos : 0 < blocksPerGroup 4096 total := by
    have := h.total_pos
    unfold blocksPerGroup
    split <;> omega
  refine ⟨honDisk, ⟨honDisk.toCarried, fun hv ↦ ?_⟩, ?_, ?_, fun g hg ↦ ?_, ?_⟩
  · -- after a mount there is no cached bitmap
    exact absurd hv (by rw [show fs.sbi = sbi from rfl, hcache]; decide)
  · rw [hper, hbs, htotal]
    unfold blocksPerGroup
    split <;> omega
  · rw [htotal, hgroups, hper, groupsCount, u32_of_lt h.spaced.no_wrap]
    have hceil := Nat.lt_div_mul_add hpos (a := total + blocksPerGroup 4096 total - 1)
    omega
  · rw [hgroups] at hg
    have hgroup : (volume 4096 total sbi.toSbGeom).groupBlocks g = groupBlocks 4096 total g := by
      rw [groupBlocks_eq h.spaced.no_wrap hg, Volume.groupBlocks, hper, htotal]
    have hblock : fs.block (blockBitmapAbs 4096 total g) = Buf.clip 4096 (blockBitmap 4096 total g) := by
      rw [Fs.block, hfresh.dev, hfresh.blockSize, h.block_blockBitmap hg]
    have hlt := groupBlocks_eq h.spaced.no_wrap hg
    rw [(hcounts g hg).1, hgroup]
    show _ = (fs.block (blockBitmapAbs 4096 total g)).clearBits _
    rw [hblock, clearBits_blockBitmap (by omega)]
  · -- neither count of group 0 is zero, so the mount refills none
    obtain ⟨hfree, hifree⟩ := hcounts 0 h.groups_pos
    rw [← hfree, ← hcopy.freeBlocks] at hblocks
    rw [← hifree, ← hcopy.freeInodes] at hinodes
    rw [FillSuper.refillFreeInodes_of_ne_zero hinodes,
      FillSuper.refillFreeBlocks_of_ne_zero hblocks] at hgd
    exact ⟨gd, hgd, hcopy⟩

/-- Where one of the counts is 0 the copy in memory has another. -/
theorem Formatted.ne_zero_of_tracksFree (h : Formatted now total n d d₁)
    (hmount : ext4FillSuper now' d₁ = (some sbi, d₂)) {bgSyncBatch preallocGoalLen : ℕ}
    (htracks : (Fs.ofMount d₂ sbi bgSyncBatch preallocGoalLen).TracksFree) :
    freeInodes 4096 total 0 ≠ 0 ∧ groupBlocks 4096 total 0 - usedBlocks 4096 total 0 ≠ 0 := by
  obtain ⟨hfree, hifree⟩ := h.desc_counts hmount bgSyncBatch preallocGoalLen 0 h.groups_pos
  obtain ⟨gd, buf, -, hgd⟩ := h.exists_sGroupDesc hmount bgSyncBatch preallocGoalLen
  obtain ⟨hgeom, -⟩ := h.mount hmount
  have hle : blocksPerGroup 4096 total ≤ 4096 * 8 := (blocksPerGroup_le 4096 total).2
  obtain ⟨gd', hgd', hblocks, hinodes⟩ := htracks.memory
  obtain rfl := Option.some.inj (hgd.symm.trans hgd')
  rw [← hfree, ← hifree, ← hblocks, ← hinodes, FillSuper.getField_refillFreeBlocks (by decide)]
  refine ⟨FillSuper.refillFreeInodes_ne_zero ?_, FillSuper.refillFreeBlocks_ne_zero ?_⟩
  · rw [hgeom.sInodesPerGroup]
    exact lt_of_le_of_lt hle (by norm_num)
  · rw [hgeom.sBlocksPerGroup]
    exact lt_of_le_of_lt hle (by norm_num)

/-- The sizes at which a new volume has a free block and a free inode in group 0. -/
theorem counts_ne_zero_iff (htotal : total < 2 ^ 32) (hpos : 0 < total) (hg : 0 < groupsCount 4096 total) :
    (freeInodes 4096 total 0 ≠ 0 ∧ groupBlocks 4096 total 0 - usedBlocks 4096 total 0 ≠ 0) ↔
      7 ≤ total ∧ total ≠ 10 := by
  have hblocks := groupBlocks_eq (no_wrap_of_groupsCount_pos htotal hg) hg
  have htable := @inodeTableBlocks_eq 4096 total (by norm_num)
  have hgd := @gdBlocks_eq 4096 total (by norm_num) (by norm_num) htotal
  have hgroups : groupsCount 4096 total ≤ 2 ^ 19 := groupsCount_le (by norm_num) htotal
  unfold inodesPerGroup inodeSize at htable
  unfold gdEntrySize at hgd
  unfold freeInodes reservedInodesG0 inodesPerGroup usedBlocks metadataBlocks
  simp only [if_true]
  by_cases hle : total ≤ 4096 * 8
  · have hbpg : blocksPerGroup 4096 total = total := if_pos hle
    rw [hbpg, Nat.zero_mul, Nat.sub_zero, min_self] at hblocks
    rw [groupsCount_eq_one hpos hle (by norm_num)] at hgd
    rw [hbpg] at htable ⊢
    split_ifs <;> omega
  · have hbpg : blocksPerGroup 4096 total = 4096 * 8 := if_neg hle
    rw [hbpg, Nat.zero_mul, Nat.sub_zero, min_eq_left (by omega)] at hblocks
    rw [hbpg] at htable ⊢
    split_ifs <;> omega

end Mkfs

namespace FreeCounts

/-! ### Runs -/

/-- A filesystem, the blocks and the inodes that were returned and are not freed. -/
structure State where
  fs : Fs
  blocks : Set ℕ
  inodes : Set ℕ

/-- One call, or one update of the directory count. A call that returns an error leaves what is
outstanding as it was. -/
inductive Step : State → State → Prop
  | newBlocks {fs fs' : Fs} {B I : Set ℕ} {goalLen preferredGroup b len : ℕ}
      (hrun : fs.ext4NewBlocksInGroup goalLen preferredGroup = (some (b, len), fs')) :
      Step ⟨fs, B, I⟩ ⟨fs', B ∪ Set.Ico b (b + len), I⟩
  | newBlocksFail {fs fs' : Fs} {B I : Set ℕ} {goalLen preferredGroup : ℕ}
      (hrun : fs.ext4NewBlocksInGroup goalLen preferredGroup = (none, fs')) :
      Step ⟨fs, B, I⟩ ⟨fs', B, I⟩
  | freeBlock {fs fs' : Fs} {B I : Set ℕ} {b : ℕ} (hb : b ∈ B)
      (hrun : fs.ext4FreeBlock b = (some (), fs')) : Step ⟨fs, B, I⟩ ⟨fs', B \ {b}, I⟩
  | freeBlockFail {fs fs' : Fs} {B I : Set ℕ} {b : ℕ} (hb : b ∈ B)
      (hrun : fs.ext4FreeBlock b = (none, fs')) : Step ⟨fs, B, I⟩ ⟨fs', B, I⟩
  | newInode {fs fs' : Fs} {B I : Set ℕ} {preferredGroup ino : ℕ}
      (hrun : fs.ext4NewInodeInGroup preferredGroup = (some ino, fs')) :
      Step ⟨fs, B, I⟩ ⟨fs', B, insert ino I⟩
  | newInodeFail {fs fs' : Fs} {B I : Set ℕ} {preferredGroup : ℕ}
      (hrun : fs.ext4NewInodeInGroup preferredGroup = (none, fs')) : Step ⟨fs, B, I⟩ ⟨fs', B, I⟩
  | freeInode {fs fs' : Fs} {B I : Set ℕ} {ino : ℕ} (hino : ino ∈ I)
      (hrun : fs.ext4FreeInode ino = (some (), fs')) : Step ⟨fs, B, I⟩ ⟨fs', B, I \ {ino}⟩
  | freeInodeFail {fs fs' : Fs} {B I : Set ℕ} {ino : ℕ} (hino : ino ∈ I)
      (hrun : fs.ext4FreeInode ino = (none, fs')) : Step ⟨fs, B, I⟩ ⟨fs', B, I⟩
  | updateUsedDirs {fs : Fs} {B I : Set ℕ} (f : ℕ → ℕ) (group : ℕ) :
      Step ⟨fs, B, I⟩ ⟨(Fs.updateUsedDirs f group fs).2, B, I⟩

/-- Any sequence of steps. -/
abbrev Run : State → State → Prop := Relation.ReflTransGen Step

/-- The counts are tracked; the outstanding blocks and inodes are ones the volume has. -/
structure Inv (V : Volume) (n : ℕ) (s : State) : Prop where
  blocks_lt : ∀ b ∈ s.blocks, b < V.blocks
  inodes : ∀ ino ∈ s.inodes, ino ≠ 0 ∧ ino ≤ V.geom.sInodesCount
  tracked : ∃ I, s.inodes ⊆ I ∧ V.Tracked n I s.fs

variable {V : Volume} {n : ℕ} {s s' : State}

/-- Each call keeps the counts right. -/
theorem Inv.step (h : Inv V n s) (hstep : Step s s') : Inv V n s' := by
  obtain ⟨J, hsub, htracked⟩ := h.tracked
  cases hstep with
  | @newBlocks fs fs' B I goalLen preferredGroup b len hrun =>
    have hpost := htracked.newBlocks goalLen preferredGroup
    rw [wp_of_eq hrun] at hpost
    refine ⟨?_, h.inodes, J, hsub, hpost.1⟩
    rintro c (hc | hc)
    · exact h.blocks_lt c hc
    · have hle := hpost.2 b len rfl
      have := hc.2
      omega
  | @newBlocksFail fs fs' B I goalLen preferredGroup hrun =>
    have hpost := htracked.newBlocks goalLen preferredGroup
    rw [wp_of_eq hrun] at hpost
    exact ⟨h.blocks_lt, h.inodes, J, hsub, hpost.1⟩
  | @freeBlock fs fs' B I b hb hrun =>
    have hpost := htracked.freeBlock (h.blocks_lt b hb)
    rw [wp_of_eq hrun] at hpost
    exact ⟨fun c hc ↦ h.blocks_lt c hc.1, h.inodes, J, hsub, hpost⟩
  | @freeBlockFail fs fs' B I b hb hrun =>
    have hpost := htracked.freeBlock (h.blocks_lt b hb)
    rw [wp_of_eq hrun] at hpost
    exact ⟨h.blocks_lt, h.inodes, J, hsub, hpost⟩
  | @newInode fs fs' B I preferredGroup ino hrun =>
    rcases htracked.newInode preferredGroup with ⟨ino', fs'', hsome, hne, hle, -, h'⟩ | hnone
    · obtain ⟨hino, rfl⟩ := Prod.mk.inj (hrun.symm.trans hsome)
      obtain rfl := Option.some.inj hino
      refine ⟨h.blocks_lt, ?_, _, Set.insert_subset_insert hsub, h'⟩
      rintro i (rfl | hi)
      · exact ⟨hne, hle⟩
      · exact h.inodes i hi
    · rw [hrun] at hnone
      simp at hnone
  | @newInodeFail fs fs' B I preferredGroup hrun =>
    rcases htracked.newInode preferredGroup with ⟨ino', fs'', hsome, -⟩ | hnone
    · rw [hrun] at hsome
      simp at hsome
    · obtain rfl := (Prod.mk.inj (hrun.symm.trans hnone)).2
      exact h
  | @freeInode fs fs' B I ino hino hrun =>
    obtain ⟨hne, hle⟩ := h.inodes ino hino
    obtain ⟨fs'', hfree, h'⟩ := htracked.freeInode hne hle (hsub hino)
    obtain rfl := (Prod.mk.inj (hrun.symm.trans hfree)).2
    exact ⟨h.blocks_lt, fun i hi ↦ h.inodes i hi.1, _, Set.sdiff_subset_sdiff_left hsub, h'⟩
  | @freeInodeFail fs fs' B I ino hino hrun =>
    obtain ⟨hne, hle⟩ := h.inodes ino hino
    obtain ⟨fs'', hfree, -⟩ := htracked.freeInode hne hle (hsub hino)
    rw [hrun] at hfree
    simp at hfree
  | @updateUsedDirs fs B I f group =>
    exact ⟨h.blocks_lt, h.inodes, J, hsub, htracked.updateUsedDirs f group⟩

/-- So does every run. -/
theorem Inv.run (h : Inv V n s) (hrun : Run s s') : Inv V n s' := by
  induction hrun with
  | refl => exact h
  | tail _ hstep ih => exact ih.step hstep

/-! ### From a new volume -/

/-- **The counts track the bitmaps in every state of every run exactly where a new volume has a free
block and a free inode in group 0**: not on volumes of fewer than 7 blocks, nor on one of 10. -/
theorem tracksFree_iff {now now' total n bgSyncBatch preallocGoalLen : ℕ} {d d₁ d₂ : BlockDevice}
    {sbi : SbInfo} (hd : d.Usable 4096 n) (htotal : total < 2 ^ 32)
    (hmkfs : ext4Mkfs now 4096 total d = (some (), d₁)) (hmagic : HasMagic (d₁.block 4096 0))
    (hmount : ext4FillSuper now' d₁ = (some sbi, d₂)) :
    (∀ s, Run ⟨Fs.ofMount d₂ sbi bgSyncBatch preallocGoalLen, ∅, ∅⟩ s → s.fs.TracksFree) ↔
      7 ≤ total ∧ total ≠ 10 := by
  have hformatted := Mkfs.formatted_of_mkfs hd htotal hmkfs hmagic
  rw [← Mkfs.counts_ne_zero_iff htotal hformatted.total_pos hformatted.groups_pos]
  constructor
  · exact fun hall ↦ hformatted.ne_zero_of_tracksFree hmount (hall _ .refl)
  · rintro ⟨hinodes, hblocks⟩ s hrun
    have htracked := hformatted.tracked hmount bgSyncBatch preallocGoalLen hinodes hblocks
    have hstart : Inv (Mkfs.volume 4096 total sbi.toSbGeom) (d.bdNrSectors / (4096 / d.bdSectorSize))
        ⟨Fs.ofMount d₂ sbi bgSyncBatch preallocGoalLen, ∅, ∅⟩ :=
      ⟨fun b hb ↦ absurd hb (Set.notMem_empty b), fun i hi ↦ absurd hi (Set.notMem_empty i), _,
        Set.empty_subset _, htracked⟩
    obtain ⟨I, -, h⟩ := (hstart.run hrun).tracked
    exact h.tracksFree

/-- On the small volume: take three blocks, take an inode, count a directory, free the second block. -/
theorem exists_small_run : ∃ fs₁ fs₂ fs₄,
    Mkfs.smallFs.ext4NewBlocksInGroup 3 0 = (some (9, 3), fs₁) ∧
      fs₁.ext4NewInodeInGroup 0 = (some 11, fs₂) ∧
        (Fs.updateUsedDirs (· + 1) 0 fs₂).2.ext4FreeBlock 10 = (some (), fs₄) :=
  ⟨_, _, _, eq_of_fst_eq (by decide +kernel), eq_of_fst_eq (by decide +kernel),
    eq_of_fst_eq (by decide +kernel)⟩

theorem tracksFree_iff_64 : ∃ fs, Run ⟨Mkfs.smallFs, ∅, ∅⟩
    ⟨fs, (∅ ∪ Set.Ico 9 (9 + 3)) \ {10}, insert 11 ∅⟩ ∧ fs.TracksFree := by
  obtain ⟨fs₁, fs₂, fs₄, hblocks, hinode, hfree⟩ := exists_small_run
  have hstep₁ := @Step.newBlocks _ _ ∅ ∅ _ _ _ _ hblocks
  have hstep₃ := @Step.updateUsedDirs fs₂ (∅ ∪ Set.Ico 9 (9 + 3)) (insert 11 ∅) (· + 1) 0
  have hrun := (((Relation.ReflTransGen.single hstep₁).tail (Step.newInode hinode)).tail
    hstep₃).tail (Step.freeBlock (by simp) hfree)
  exact ⟨fs₄, hrun, (tracksFree_iff (BlockDevice.holds_blank 512 8 64 (by norm_num) (by norm_num)).1
    (by norm_num) Mkfs.mkfs_small (by unfold HasMagic; decide +kernel) Mkfs.fillSuper_small_eq).2
    (by norm_num) _ hrun⟩

/-! ### A volume without a free inode -/

/-- A device of ten blocks after `ext4_mkfs`. All ten inodes are reserved. -/
def fullDisk : BlockDevice := (ext4Mkfs 0 4096 10 (BlockDevice.blank 512 80)).2

/-- A volume without a block to spare. -/
theorem mkfs_full : ext4Mkfs 0 4096 10 (BlockDevice.blank 512 80) = (some (), fullDisk) :=
  eq_of_fst_eq (by decide +kernel)

/-- It mounts. -/
theorem fillSuper_full : (ext4FillSuper 0 fullDisk).1.isSome = true := by decide +kernel

/-- The superblock info of that volume. -/
def fullSb : SbInfo := (ext4FillSuper 0 fullDisk).1.get fillSuper_full

/-- That volume mounted. -/
def fullFs : Fs := Fs.ofMount (ext4FillSuper 0 fullDisk).2 fullSb 32 32

/-- Mounting has put 9 for the 0 free inodes of the descriptor on the device. -/
theorem not_tracksFree_full : ext4Mkfs 0 4096 10 (BlockDevice.blank 512 80) = (some (), fullDisk) ∧
    ext4FillSuper 0 fullDisk = (some fullSb, fullFs.dev) ∧ Run ⟨fullFs, ∅, ∅⟩ ⟨fullFs, ∅, ∅⟩ ∧
      ¬ fullFs.TracksFree := by
  refine ⟨mkfs_full, eq_of_fst_eq (Option.some_get _).symm, .refl, fun h ↦ ?_⟩
  obtain ⟨gd, hgd, -, hinodes⟩ := h.memory
  have hdisk : (fullFs.desc 0).getField 0 Gd.bgFreeInodesCountLo = 0 := by decide +kernel
  have hmem : (fullFs.sbi.sGroupDesc.map fun gd ↦ gd.getField 0 Gd.bgFreeInodesCountLo) = some 9 := by
    decide +kernel
  rw [hgd, Option.map_some, hinodes, hdisk] at hmem
  simp at hmem

end FreeCounts

end MiniExt4
