import MiniExt4.Ext4.BallocFault
import MiniExt4.Ext4.Ialloc

/-!
# The free counts of the superblock

The superblock holds the sums of the counts in the group descriptors, and they are brought up to date
in batches: `s_bg_sync_pending` says that something is left to do. On a device that may fail the
superblock goes stale in two places, where a sync fails and nothing is pending any more: when the sync of
a full batch fails, and when the sync after a change of the inodes fails with nothing pending.

`InStep` is the invariant: the counts of the superblock are true, or a sync is pending. It is kept by every
call except those in which a sync fails and leaves nothing pending, and each of these is a predicate on the
state before the call (`LosesNewBlocks`, `LosesFreeBlock`, `LosesNewInode`, `LosesFreeInode`). `Quiet`
collects the steps that touch no count at all, so that the work is where a count changes: there the sum over
the groups changes by one, and the pending number grows. Block calls go along the steps of `BallocWalk`.
-/

namespace MiniExt4

open StateErr

/-- `ext4_set_bg_sync_batch(batch)` -/
def Fs.ext4SetBgSyncBatch (batch : ℕ) (fs : Fs) : Fs :=
  { fs with bgSyncBatch := if u32 batch = 0 then 1 else u32 batch }

/-- The cursors are not what is pending. -/
theorem SbInfo.advanceGoal_pending (sbi : SbInfo) (g nextBit groupBlocks groupsCount : ℕ) :
    (sbi.advanceGoal g nextBit groupBlocks groupsCount).sBgSyncPending = sbi.sBgSyncPending := by
  unfold advanceGoal
  rcases sbi.goalBitPerGroup with _ | goalBit
  · rfl
  · dsimp only
    split
    · split <;> rfl
    · rfl

namespace Fs

/-! ### The counts -/

/-- The free blocks in the descriptor of group `g` on the device. -/
def descFreeBlocks (fs : Fs) (g : ℕ) : ℕ :=
  (fs.desc g).getField 0 Gd.bgFreeBlocksCountLo +
    (fs.desc g).getField 0 Gd.bgFreeBlocksCountHi * 2 ^ 16

/-- The free inodes in the descriptor of group `g` on the device. -/
def descFreeInodes (fs : Fs) (g : ℕ) : ℕ :=
  (fs.desc g).getField 0 Gd.bgFreeInodesCountLo +
    (fs.desc g).getField 0 Gd.bgFreeInodesCountHi * 2 ^ 16

/-- The sum of the free inodes of all groups. -/
def freeInodesSum (fs : Fs) : ℕ := ∑ g ∈ Finset.range fs.sbi.sGroupsCount, fs.descFreeInodes g

/-- A field of the superblock on the device. -/
def superField (fs : Fs) (f : Buf.Field) : ℕ :=
  (fs.block (if fs.sbi.sBlockSize = 1024 then 1 else 0)).getField
    (if fs.sbi.sBlockSize = 1024 then 0 else 1024) f

/-- The counts of the superblock are the sums of those of the descriptors. -/
structure SuperTrue (fs : Fs) : Prop where
  freeBlocks : fs.superField Esb.sFreeBlocksCountLo + fs.superField Esb.sFreeBlocksCountHi * 2 ^ 32 =
    ∑ g ∈ Finset.range fs.sbi.sGroupsCount, fs.descFreeBlocks g
  freeInodes : fs.superField Esb.sFreeInodesCount = fs.freeInodesSum

/-! ### Where the superblock goes stale -/

/-- The change fills the batch, and the sync fails. -/
def LosesBatch (fs : Fs) : Prop :=
  fs.bgSyncBatch ≤ fs.bumpPending.sbi.sBgSyncPending ∧ (ext4SyncSuperFreeCounts fs.bumpPending).1 = none

/-- Nothing is pending and the sync fails, or the free inodes no longer fit their 32 bits. -/
def LosesSync (fs : Fs) : Prop :=
  2 ^ 32 ≤ fs.freeInodesSum ∨ fs.sbi.sBgSyncPending = 0 ∧ (ext4SyncSuperFreeCounts fs).1 = none

/-- An iteration of an allocation over group `g` marks a run, and counting it loses the change. -/
def LosesGroup (goalLen : ℕ) (requireFullGoal : Bool) (blocksPerGroup blocksCount groupsCount g : ℕ)
    (fs : Fs) : Prop :=
  ∃ gd fs₁ gd' fs₂ fs₃, readGroupDesc g fs = (some gd, fs₁) ∧ bmapCacheLoad g gd fs₁ = (some gd', fs₂) ∧
    let run := fs₂.scanGroup g (groupBits blocksPerGroup blocksCount g) goalLen requireFullGoal
    markRun blocksCount groupsCount g (u32 (g * blocksPerGroup)) (groupBits blocksPerGroup blocksCount g)
      run.2.1 run.2.2 gd' fs₂ = (some (), fs₃) ∧ fs₃.LosesBatch

/-- A call of `ext4_new_blocks_in_group` loses its change, in its first pass or in its second. -/
def LosesNewBlocks (goalLen preferredGroup : ℕ) (fs : Fs) : Prop :=
  MeetsNew LosesGroup goalLen preferredGroup fs

/-- A call of `ext4_free_block` stores the descriptor, and counting the change loses it. -/
def LosesFreeBlock (blocknr : ℕ) (fs : Fs) : Prop :=
  let group := blocknr / fs.sbi.sBlocksPerGroup
  ∃ bitmap gd fs₁ fs₂ fs₃ fs₄, readBlockBitmap group fs = (some bitmap, fs₁) ∧
    writeBlockBitmap bitmap.1 (bitmap.2.clearBit (blocknr % fs.sbi.sBlocksPerGroup)) fs₁ =
      (some (), fs₂) ∧
    readGroupDesc group fs₂ = (some gd, fs₃) ∧
    storeGroupDesc group (Volume.raiseFree gd) fs₃ = (some (), fs₄) ∧ fs₄.LosesBatch

/-- `storeInodeDesc` up to the point where the superblock is synced. -/
def recordInodeDesc (group : ℕ) (gd : Buf) : StateErr Fs Unit := do
  let gd := clearItableUnused gd
  Ialloc.writeGroupDesc group gd
  modifySbi fun sbi ↦ if group = 0 then { sbi with sGroupDesc := some gd } else sbi

/-- Storing the descriptor of a group whose inodes changed is recording it and then a sync. -/
theorem storeInodeDesc_eq (group : ℕ) (gd : Buf) : storeInodeDesc group gd =
    (recordInodeDesc group gd >>= fun _ ↦ attempt ext4SyncSuperFreeCounts >>= fun _ ↦ pure ()) := by
  simp only [storeInodeDesc, recordInodeDesc, bind_assoc']

/-- Storing the descriptor of a group whose inodes changed loses the change. -/
def LosesInodeDesc (group : ℕ) (gd : Buf) (fs : Fs) : Prop :=
  ∃ fs₁, recordInodeDesc group gd fs = (some (), fs₁) ∧ fs₁.LosesSync

/-- An iteration of `ext4_new_inode_in_group` over group `g` loses its change. -/
def LosesInodeGroup (g : ℕ) (fs : Fs) : Prop :=
  ∃ bitmap gd found fs₁ fs₂ fs₃, readInodeBitmap g fs = (some bitmap, fs₁) ∧
    Ialloc.readGroupDesc g fs₁ = (some gd, fs₂) ∧
    scanInodes bitmap.2 fs₂.blockSize (g * fs₂.sbi.sInodesPerGroup) fs₂.sbi.sInodesCount
      fs₂.sbi.sInodesPerGroup 0 = some found ∧
    writeInodeBitmap bitmap.1 (bitmap.2.setBit found.1) fs₂ = (some (), fs₃) ∧
    let free := gd.getField 0 Gd.bgFreeInodesCountLo
    fs₃.LosesInodeDesc g (gd.setField 0 Gd.bgFreeInodesCountLo (if free > 0 then free - 1 else free))

/-- One of the `n` iterations from the one `scanned` after `startGroup` loses its change. -/
def LosesInodeScan (groupsCount startGroup : ℕ) : ℕ → ℕ → Fs → Prop
  | 0, _, _ => False
  | n + 1, scanned, fs =>
    let g := Volume.visit startGroup groupsCount scanned
    fs.LosesInodeGroup g ∨ ∃ fs₁, tryInodeGroup g fs = (none, fs₁) ∧
      LosesInodeScan groupsCount startGroup n (scanned + 1) fs₁

/-- A call of `ext4_new_inode_in_group` loses its change. -/
def LosesNewInode (preferredGroup : ℕ) (fs : Fs) : Prop :=
  let groupsCount := if fs.sbi.sGroupsCount = 0 then 1 else fs.sbi.sGroupsCount
  fs.LosesInodeScan groupsCount (if preferredGroup < groupsCount then preferredGroup else 0)
    groupsCount 0

/-- A call of `ext4_free_inode` loses its change. -/
def LosesFreeInode (ino : ℕ) (fs : Fs) : Prop :=
  let group := (ino - 1) / fs.sbi.sInodesPerGroup
  ∃ bitmap gd fs₁ fs₂ fs₃, readInodeBitmap group fs = (some bitmap, fs₁) ∧
    writeInodeBitmap bitmap.1 (bitmap.2.clearBit ((ino - 1) % fs.sbi.sInodesPerGroup)) fs₁ =
      (some (), fs₂) ∧
    Ialloc.readGroupDesc group fs₂ = (some gd, fs₃) ∧
    fs₃.LosesInodeDesc group
      (gd.setField 0 Gd.bgFreeInodesCountLo (gd.getField 0 Gd.bgFreeInodesCountLo + 1))

/-- Reading a descriptor uses up faults and changes nothing else. -/
theorem Atomic.readGroupDesc {fs : Fs} (h : fs.Atomic) (g : ℕ) :
    wp (Fs.readGroupDesc g) (fun r fs' ↦ (∃ l, fs' = fs.withFaults l) ∧
      ∀ gd, r = some gd → gd = fs.desc g ∧ fs.blockSize ≤ blockSizeDefault) fs := by
  have hnone : (∃ l, fs = fs.withFaults l) ∧ ∀ gd, (none : Option Buf) = some gd →
      gd = fs.desc g ∧ fs.blockSize ≤ blockSizeDefault := ⟨⟨fs.dev.faults, rfl⟩, by simp⟩
  unfold Fs.readGroupDesc Fs.mallocBlock
  rw [wp, get_bind]
  by_cases hsize : fs.sbi.sDescSize ≠ 0
  swap
  · rwa [guard_false hsize, fail_bind]
  rw [guard_true hsize, pure_bind']
  by_cases hin : (fs.sbi.descLoc fs.blockSize g).2 + fs.sbi.copySz ≤ fs.blockSize
  swap
  · rwa [guard_false hin, fail_bind]
  rw [guard_true hin, pure_bind', bind_assoc', get_bind]
  by_cases hbs : fs.blockSize ≤ blockSizeDefault
  swap
  · rwa [guard_false hbs, fail_bind]
  rw [guard_true hbs, pure_bind']
  obtain ⟨l, hread | hread⟩ := h.readBlock (fs.sbi.descLoc fs.blockSize g).1
  · rw [bind_of_eq_some hread]
    exact ⟨⟨l, rfl⟩, fun gd hgd ↦ ⟨(Option.some.inj hgd).symm, hbs⟩⟩
  · rw [bind_of_eq_none hread]
    exact ⟨⟨l, rfl⟩, by simp⟩

end Fs

namespace Volume

variable {V : Volume} {n g : ℕ} {fs fs' fs'' : Fs} {gd : Buf}

/-! ### Steps that leave the counts -/

/-- What the counts need of a layout: every descriptor is inside one block, the superblock is inside its
block, and the inode bitmaps are not where the superblock or the descriptors are. -/
structure CountsLaid (V : Volume) (n : ℕ) : Prop where
  group : ∀ g < V.groups, V.Group g
  super_le : (if V.bs = 1024 then 0 else 1024) + 1024 ≤ V.bs
  inodeBitmap_ne_super : ∀ g < V.groups, V.inodeBitmap g ≠ V.superBlock
  inodeBitmap_ne_desc : ∀ g < V.groups, ∀ g' < V.groups, V.inodeBitmap g ≠ V.descBlock g'
  blocks_lt : n < 2 ^ 32

/-- The device holds such a layout, and a cached bitmap is that of a group. -/
structure Counted (V : Volume) (n : ℕ) (fs : Fs) : Prop extends V.Flaky n fs where
  countsLaid : V.CountsLaid n
  desc_inodeBitmap : ∀ g < V.groups, (fs.desc g).getField 0 Gd.bgInodeBitmapLo = V.inodeBitmap g
  cacheGroup : fs.sbi.sBmapCacheValid = true → fs.sbi.sBmapCacheGroup < V.groups
  batch_lt : fs.bgSyncBatch < 2 ^ 32

/-- From `fs` neither the superblock nor a descriptor has changed on the device. -/
structure Quiet (V : Volume) (n : ℕ) (fs fs' : Fs) : Prop where
  counted : V.Counted n fs'
  super : fs'.block V.superBlock = fs.block V.superBlock
  desc : ∀ g < V.groups, fs'.desc g = fs.desc g
  pending : fs'.sbi.sBgSyncPending = fs.sbi.sBgSyncPending
  batch : fs'.bgSyncBatch = fs.bgSyncBatch

/-- What holds between two calls: the superblock is true unless something is pending. -/
structure InStep (V : Volume) (n : ℕ) (fs : Fs) : Prop extends V.Counted n fs where
  pending_lt : fs.sbi.sBgSyncPending + 1 < 2 ^ 32
  inodes_lt : fs.freeInodesSum < 2 ^ 32
  superTrue : fs.sbi.sBgSyncPending = 0 → fs.SuperTrue

theorem Quiet.refl (h : V.Counted n fs) : V.Quiet n fs fs := ⟨h, rfl, fun _ _ ↦ rfl, rfl, rfl⟩

/-- Two steps that leave the counts, one after the other. -/
theorem Quiet.trans (h : V.Quiet n fs fs') (h' : V.Quiet n fs' fs'') : V.Quiet n fs fs'' :=
  ⟨h'.counted, h'.super.trans h.super, fun g hg ↦ (h'.desc g hg).trans (h.desc g hg),
    h'.pending.trans h.pending, h'.batch.trans h.batch⟩

/-- The number of groups in memory is the layout's. -/
theorem Image.groupsCount_eq (h : V.Image n fs) : fs.sbi.sGroupsCount = V.groups :=
  congrArg SbGeom.sGroupsCount h.geom

/-- The fields of the superblock, where the layout has them. -/
theorem Image.superField_eq (h : V.Image n fs) (f : Buf.Field) :
    fs.superField f = (fs.block V.superBlock).getField (if V.bs = 1024 then 0 else 1024) f := by
  have hbs : fs.sbi.sBlockSize = V.bs := congrArg SbGeom.sBlockSize h.geom
  rw [Fs.superField, hbs, superBlock]

/-- Counts that do not change on the device stay true. -/
theorem Quiet.freeInodesSum (h : V.Quiet n fs fs') (hfs : V.Image n fs) :
    fs'.freeInodesSum = fs.freeInodesSum := by
  unfold Fs.freeInodesSum Fs.descFreeInodes
  rw [h.counted.groupsCount_eq, hfs.groupsCount_eq]
  exact Finset.sum_congr rfl fun g hg ↦ by rw [h.desc g (Finset.mem_range.1 hg)]

/-- A step that leaves the descriptors and the superblock leaves the superblock true. -/
theorem Quiet.superTrue (h : V.Quiet n fs fs') (hfs : V.Image n fs) (htrue : fs.SuperTrue) :
    fs'.SuperTrue := by
  obtain ⟨hblocks, hinodes⟩ := htrue
  refine ⟨?_, ?_⟩
  · rw [h.counted.superField_eq, h.counted.superField_eq, h.super, ← hfs.superField_eq,
      ← hfs.superField_eq, hblocks, h.counted.groupsCount_eq, hfs.groupsCount_eq]
    exact Finset.sum_congr rfl fun g hg ↦ by
      rw [Fs.descFreeBlocks, Fs.descFreeBlocks, h.desc g (Finset.mem_range.1 hg)]
  · rw [h.freeInodesSum hfs, h.counted.superField_eq, h.super, ← hfs.superField_eq, hinodes]

/-- A step that leaves the counts leaves them in step. -/
theorem InStep.quiet (h : V.InStep n fs) (h' : V.Quiet n fs fs') : V.InStep n fs' :=
  ⟨h'.counted, h'.pending ▸ h.pending_lt, by rw [h'.freeInodesSum h.toImage]; exact h.inodes_lt,
    fun hzero ↦ h'.superTrue h.toImage (h.superTrue (h'.pending ▸ hzero))⟩

/-- The faults to come are no part of the counts. -/
theorem Counted.withFaults (h : V.Counted n fs) (l : List Fault) : V.Counted n (fs.withFaults l) :=
  { h with toFlaky := h.toFlaky.withFaults l }

/-- A failure leaves the counts. -/
theorem Counted.quiet_withFaults (h : V.Counted n fs) (l : List Fault) :
    V.Quiet n fs (fs.withFaults l) := ⟨h.withFaults l, rfl, fun _ _ ↦ rfl, rfl, rfl⟩

/-- Variables that the counts do not depend on. -/
theorem Counted.withSbi (h : V.Counted n fs) (sbi : SbInfo) (hgeom : sbi.toSbGeom = fs.sbi.toSbGeom)
    (hgd : sbi.sGroupDesc.isSome)
    (hcache : sbi.sBmapCacheValid = true → sbi.sBmapCacheGroup < V.groups) :
    V.Counted n { fs with sbi := sbi } := by
  have hdesc : ∀ g, ({ fs with sbi := sbi } : Fs).desc g = fs.desc g := fun g ↦
    h.desc_congr hgeom rfl rfl
  exact ⟨h.toFlaky.withSbi sbi hgeom hgd, h.countsLaid, fun g hg ↦ by
    rw [hdesc g, h.desc_inodeBitmap g hg], hcache, h.batch_lt⟩

/-- What is in memory can change, all but the geometry and the pending changes. -/
theorem Counted.quiet_withSbi (h : V.Counted n fs) (sbi : SbInfo)
    (hgeom : sbi.toSbGeom = fs.sbi.toSbGeom) (hgd : sbi.sGroupDesc.isSome)
    (hcache : sbi.sBmapCacheValid = true → sbi.sBmapCacheGroup < V.groups)
    (hpending : sbi.sBgSyncPending = fs.sbi.sBgSyncPending) :
    V.Quiet n fs { fs with sbi := sbi } :=
  ⟨h.withSbi sbi hgeom hgd hcache, rfl,
    fun _ _ ↦ h.desc_congr hgeom rfl rfl, hpending, rfl⟩

/-- Dropping the cache leaves the counts. -/
theorem Counted.quiet_dropBmapCache (h : V.Counted n fs) (g : ℕ) :
    V.Quiet n fs { fs with sbi := fs.sbi.dropBmapCache g } := by
  unfold SbInfo.dropBmapCache
  split
  · exact h.quiet_withSbi _ rfl h.groupDesc (by simp) rfl
  · exact .refl h

/-- Storing a block that is neither the superblock nor a descriptor. -/
theorem Counted.quiet_put (h : V.Counted n fs) {b : ℕ} (buf : Buf) (hsuper : b ≠ V.superBlock)
    (hdesc : ∀ g < V.groups, b ≠ V.descBlock g) : V.Quiet n fs (fs.put b buf) := by
  have hkept : ∀ g < V.groups, (fs.put b buf).desc g = fs.desc g := fun g hg ↦
    h.desc_congr rfl rfl (fs.block_put_of_ne buf (hdesc g hg).symm)
  have himage : V.Image n (fs.put b buf) := { h.toImage with
    desc_blockBitmap := fun g hg ↦ by rw [hkept g hg.1, h.desc_blockBitmap g hg] }
  exact ⟨⟨h.toFlaky.put himage, h.countsLaid, fun g hg ↦ by rw [hkept g hg, h.desc_inodeBitmap g hg],
    h.cacheGroup, h.batch_lt⟩, fs.block_put_of_ne buf hsuper.symm, hkept, rfl, rfl⟩

/-! ### Reading and writing descriptors -/

/-- A descriptor that was read is the one on the device. -/
theorem Counted.readGroupDesc (h : V.Counted n fs) (g : ℕ) :
    wp (Fs.readGroupDesc g) (fun r fs' ↦ V.Quiet n fs fs' ∧
      ∀ gd, r = some gd → gd = fs.desc g ∧ V.bs ≤ blockSizeDefault) fs :=
  wp_mono (h.atomic.readGroupDesc g) fun r fs' hr ↦ by
    obtain ⟨⟨l, rfl⟩, hgd⟩ := hr
    exact ⟨h.quiet_withFaults l, fun gd hr ↦ h.blockSize ▸ hgd gd hr⟩

/-- A descriptor in memory that says where the bitmaps of its group are. -/
structure IsGroupDesc (V : Volume) (g : ℕ) (gd : Buf) : Prop where
  group : g < V.groups
  blockBitmap : gd.getField 0 Gd.bgBlockBitmapLo = V.blockBitmap g
  inodeBitmap : gd.getField 0 Gd.bgInodeBitmapLo = V.inodeBitmap g
  end_zero : ∀ i, V.geom.copySz ≤ i → gd i = 0

/-- A descriptor on the device is one in memory. -/
theorem Counted.isGroupDesc (h : V.Counted n fs) (hg : g < V.groups) : V.IsGroupDesc g (fs.desc g) :=
  ⟨hg, h.desc_blockBitmap g (h.countsLaid.group g hg), h.desc_inodeBitmap g hg,
    fun _ hi ↦ h.desc_of_le hi⟩

/-- A field other than the places of the bitmaps. -/
theorem IsGroupDesc.setField (h : V.IsGroupDesc g gd) {f : Buf.Field} {v : ℕ}
    (hblock : Gd.bgBlockBitmapLo.Disjoint f) (hinode : Gd.bgInodeBitmapLo.Disjoint f)
    (hend : f.off + f.size ≤ V.geom.copySz ∨ v = 0) : V.IsGroupDesc g (gd.setField 0 f v) := by
  refine ⟨h.group, ?_, ?_, fun i hi ↦ ?_⟩
  · rw [Buf.getField_setField_of_disjoint _ _ _ hblock, h.blockBitmap]
  · rw [Buf.getField_setField_of_disjoint _ _ _ hinode, h.inodeBitmap]
  · rcases hend with hsize | rfl
    · rw [Buf.setField_of_le (by omega), h.end_zero i hi]
    · exact Buf.setField_zero_eq_zero (h.end_zero i hi)

/-- Clearing the unused inodes leaves the places and the counts. -/
theorem IsGroupDesc.clearItableUnused (h : V.IsGroupDesc g gd) :
    V.IsGroupDesc g (MiniExt4.clearItableUnused gd) :=
  (h.setField (by decide) (by decide) (.inr rfl)).setField (by decide) (by decide) (.inr rfl)

/-- From `fs` the descriptor of group `g` on the device has become `gd`, and no other count has
changed. -/
structure Recorded (V : Volume) (n g : ℕ) (gd : Buf) (fs fs' : Fs) : Prop where
  counted : V.Counted n fs'
  desc : fs'.desc g = gd
  desc_ne : ∀ g' < V.groups, g' ≠ g → fs'.desc g' = fs.desc g'
  pending : fs'.sbi.sBgSyncPending = fs.sbi.sBgSyncPending
  batch : fs'.bgSyncBatch = fs.bgSyncBatch

/-- What storing a descriptor leaves. -/
structure RecordPost (V : Volume) (n g : ℕ) (gd : Buf) (fs : Fs) (r : Option Unit) (fs' : Fs) :
    Prop where
  quiet : r = none → V.Quiet n fs fs'
  recorded : r = some () → V.Recorded n g gd fs fs'

/-- Nothing was recorded where the write fails. -/
theorem RecordPost.of_quiet (h : V.Quiet n fs fs') : V.RecordPost n g gd fs none fs' :=
  ⟨fun _ ↦ h, by simp⟩

/-- A step that leaves the counts after a descriptor was recorded. -/
theorem Recorded.quiet (h : V.Recorded n g gd fs fs') (hg : g < V.groups)
    (h' : V.Quiet n fs' fs'') : V.Recorded n g gd fs fs'' :=
  ⟨h'.counted, (h'.desc g hg).trans h.desc, fun g' hg' hne ↦
    (h'.desc g' hg').trans (h.desc_ne g' hg' hne), h'.pending.trans h.pending, h'.batch.trans h.batch⟩

/-- A step that leaves the counts before a descriptor is recorded. -/
theorem Recorded.of_quiet (h : V.Quiet n fs fs') (h' : V.Recorded n g gd fs' fs'') :
    V.Recorded n g gd fs fs'' :=
  ⟨h'.counted, h'.desc, fun g' hg' hne ↦ (h'.desc_ne g' hg' hne).trans (h.desc g' hg'),
    h'.pending.trans h.pending, h'.batch.trans h.batch⟩

/-- Storing a descriptor in its block records it. -/
theorem Counted.put_desc (h : V.Counted n fs) (hgd : V.IsGroupDesc g gd) :
    V.Recorded n g gd fs (fs.put (V.descBlock g) (V.descStored fs g gd)) := by
  have hgroup := h.countsLaid.group g hgd.group
  obtain ⟨himage, hself, hother, -⟩ := h.toImage.putDesc hgroup hgd.end_zero hgd.blockBitmap
  refine ⟨⟨h.toFlaky.put himage, h.countsLaid, fun g' hg' ↦ ?_, h.cacheGroup, h.batch_lt⟩, hself,
    fun g' hg' hne ↦ hother g' (h.countsLaid.group g' hg') hne, rfl, rfl⟩
  by_cases hne : g' = g
  · rw [hne, hself, hgd.inodeBitmap]
  · rw [hother g' (h.countsLaid.group g' hg') hne, h.desc_inodeBitmap g' hg']

/-- Writing a descriptor records it or leaves the counts. -/
theorem Counted.writeGroupDesc (h : V.Counted n fs) (hgd : V.IsGroupDesc g gd) :
    wp (Fs.writeGroupDesc g gd) (V.RecordPost n g gd fs) fs := by
  unfold Fs.writeGroupDesc
  rw [wp, get_bind]
  by_cases hsize : fs.sbi.sDescSize ≠ 0
  swap
  · rw [guard_false hsize, fail_bind]
    exact .of_quiet (.refl h)
  rw [guard_true hsize, pure_bind']
  by_cases hin : (fs.sbi.descLoc fs.blockSize g).2 + fs.sbi.copySz ≤ fs.blockSize
  swap
  · rw [guard_false hin, fail_bind]
    exact .of_quiet (.refl h)
  rw [guard_true hin, pure_bind']
  rcases mallocBlock_cases fs with ⟨hmalloc, -⟩ | hmalloc
  swap
  · rw [bind_of_eq_none hmalloc]
    exact .of_quiet (.refl h)
  rw [bind_of_eq_some hmalloc, h.descLoc_eq, h.copySz_eq]
  dsimp only
  obtain ⟨l, hread | hread⟩ := h.atomic.readBlock (V.descBlock g)
  swap
  · rw [bind_of_eq_none hread]
    exact .of_quiet (h.quiet_withFaults l)
  rw [bind_of_eq_some hread, show (fs.block (V.descBlock g)).blit (V.descOff g) gd 0 V.geom.copySz =
    V.descStored (fs.withFaults l) g gd from rfl]
  have h₁ := h.withFaults l
  obtain ⟨l', hwrite | hwrite⟩ := h₁.atomic.writeBlock (V.descBlock g)
    (V.descStored (fs.withFaults l) g gd)
  · rw [hwrite]
    have hput := h₁.put_desc hgd
    exact ⟨by simp, fun _ ↦ (hput.quiet hgd.group (hput.counted.quiet_withFaults l')).of_quiet
      (h.quiet_withFaults l)⟩
  · rw [hwrite]
    exact .of_quiet ((h.quiet_withFaults l).trans (h₁.quiet_withFaults l'))

/-- The copy of the descriptor of group 0 in memory. -/
theorem Counted.quiet_memory (h : V.Counted n fs) (g : ℕ) (gd : Buf) : V.Quiet n fs
    { fs with sbi := if g = 0 then { fs.sbi with sGroupDesc := some gd } else fs.sbi } := by
  refine h.quiet_withSbi _ (by split <;> rfl) ?_ (fun hv ↦ ?_) (by split <;> rfl)
  · split
    · rfl
    · exact h.groupDesc
  · have hcache := h.cacheGroup
    revert hv
    split <;> exact hcache

/-- So does storing it in memory as well. -/
theorem Counted.storeGroupDesc (h : V.Counted n fs) (hgd : V.IsGroupDesc g gd) :
    wp (Fs.storeGroupDesc g gd) (V.RecordPost n g gd fs) fs := by
  unfold Fs.storeGroupDesc
  refine wp_seq (h.writeGroupDesc hgd) (fun _ h' ↦ h') fun _ fs₁ h₁ ↦ ?_
  have hrec := h₁.recorded rfl
  exact ⟨by simp [Fs.modifySbi], fun _ ↦ hrec.quiet hgd.group (hrec.counted.quiet_memory g gd)⟩

/-- So does storing that of a group whose inodes changed. -/
theorem Counted.recordInodeDesc (h : V.Counted n fs) (hgd : V.IsGroupDesc g gd) :
    wp (Fs.recordInodeDesc g gd) (V.RecordPost n g (MiniExt4.clearItableUnused gd) fs) fs := by
  unfold Fs.recordInodeDesc Fs.Ialloc.writeGroupDesc
  dsimp only
  rw [wp, bind_assoc', get_bind]
  have hg : g < fs.sbi.sGroupsCount := by
    rw [h.groupsCount_eq]
    exact hgd.group
  rw [guard_true hg, pure_bind']
  refine wp_seq (h.writeGroupDesc hgd.clearItableUnused) (fun _ h' ↦ h') fun _ fs₁ h₁ ↦ ?_
  have hrec := h₁.recorded rfl
  exact ⟨by simp [Fs.modifySbi], fun _ ↦ hrec.quiet hgd.group (hrec.counted.quiet_memory g _)⟩

/-! ### Syncing the superblock -/

/-- The sums over the `m` groups from `g`. -/
theorem Counted.sumFreeCounts : ∀ m g cur buf freeBlocks freeInodes (fs : Fs), V.Counted n fs →
    g + m ≤ V.groups → (buf = fs.block cur ∨ cur = 2 ^ 32 - 1) → freeInodes < 2 ^ 32 →
    wp (Fs.sumFreeCounts m g cur buf freeBlocks freeInodes) (fun r fs' ↦
      (∃ l, fs' = fs.withFaults l) ∧ ∀ x, r = some x →
        x.1 = freeBlocks + ∑ k ∈ Finset.range m, fs.descFreeBlocks (g + k) ∧
        x.2 = u32 (freeInodes + ∑ k ∈ Finset.range m, fs.descFreeInodes (g + k))) fs := by
  intro m
  induction m with
  | zero =>
    intro g cur buf a b fs _ _ _ hb
    refine ⟨⟨fs.dev.faults, rfl⟩, fun x hx ↦ ?_⟩
    obtain rfl : (a, b) = x := Option.some.inj hx
    exact ⟨rfl, (u32_of_lt hb).symm⟩
  | succ m ih =>
    intro g cur buf a b fs h hm hcur hb
    have hbs : fs.sbi.sBlockSize = fs.blockSize := by
      rw [h.blockSize]
      exact congrArg SbGeom.sBlockSize h.geom
    have hin := (h.countsLaid.group g (by omega)).2
    have hlt := h.laid.descBlock_lt (show g < V.groups by omega)
    have hblocks := h.countsLaid.blocks_lt
    -- what the rest of the groups adds, once the descriptor of `g` is in `buf`
    have hrest : ∀ l, wp (Fs.sumFreeCounts m (g + 1) (V.descBlock g) (fs.block (V.descBlock g))
        (a + fs.descFreeBlocks g) (u32 (b + fs.descFreeInodes g))) (fun r fs' ↦
          (∃ l, fs' = fs.withFaults l) ∧ ∀ x, r = some x →
            x.1 = a + ∑ k ∈ Finset.range (m + 1), fs.descFreeBlocks (g + k) ∧
            x.2 = u32 (b + ∑ k ∈ Finset.range (m + 1), fs.descFreeInodes (g + k)))
        (fs.withFaults l) := by
      intro l
      refine wp_mono (ih (g + 1) _ _ _ _ _ (h.withFaults l) (by omega) (.inl rfl) (u32_lt _))
        fun r fs' hr ↦ ?_
      obtain ⟨⟨l', rfl⟩, hsum⟩ := hr
      refine ⟨⟨l', rfl⟩, fun x hx ↦ ?_⟩
      obtain ⟨hblocks, hinodes⟩ := hsum x hx
      have hshift : ∀ f : ℕ → ℕ, ∑ k ∈ Finset.range (m + 1), f (g + k) =
          f g + ∑ k ∈ Finset.range m, f (g + 1 + k) := fun f ↦ by
        rw [Finset.sum_range_succ', Nat.add_comm, Nat.add_zero]
        congr 1
        exact Finset.sum_congr rfl fun k _ ↦ by rw [Nat.add_right_comm, Nat.add_assoc]
      rw [hshift, hshift, hblocks, hinodes]
      refine ⟨by rw [Nat.add_assoc]; rfl, ?_⟩
      show u32 (u32 (b + fs.descFreeInodes g) + ∑ k ∈ Finset.range m, fs.descFreeInodes (g + 1 + k)) = _
      unfold u32
      omega
    have hdesc : ∀ {b : Buf}, b = fs.block (V.descBlock g) →
        Buf.zero.blit 0 b (V.descOff g) V.geom.copySz = fs.desc g := fun hb ↦ by
      rw [hb, h.desc_eq]
    unfold Fs.sumFreeCounts Fs.refillGdBuf
    rw [wp, get_bind, hbs, h.descLoc_eq, h.copySz_eq, h.blockSize]
    dsimp only
    rw [if_neg (show ¬ V.descOff g + V.geom.copySz > V.bs by omega)]
    by_cases hne : V.descBlock g ≠ cur
    · rw [if_pos hne]
      obtain ⟨l, hread | hread⟩ := h.atomic.readBlock (V.descBlock g)
      · rw [bind_of_eq_some hread, hdesc rfl]
        exact hrest l
      · rw [bind_of_eq_none hread]
        exact ⟨⟨l, rfl⟩, by simp⟩
    · rw [if_neg hne, pure_bind']
      obtain rfl : V.descBlock g = cur := by
        by_contra hne'
        exact hne hne'
      obtain rfl : buf = fs.block (V.descBlock g) := by
        rcases hcur with hcur | hcur
        · exact hcur
        · omega
      rw [hdesc rfl]
      exact hrest fs.dev.faults

/-- What writing the sums to the superblock leaves. -/
structure SyncPost (V : Volume) (n : ℕ) (fs : Fs) (r : Option Unit) (fs' : Fs) : Prop where
  counted : V.Counted n fs'
  desc : ∀ g < V.groups, fs'.desc g = fs.desc g
  pending : fs'.sbi.sBgSyncPending = fs.sbi.sBgSyncPending
  quiet : r = none → V.Quiet n fs fs'
  superTrue : r = some () → fs.freeInodesSum < 2 ^ 32 → fs'.SuperTrue

/-- A sync that fails leaves the counts. -/
theorem SyncPost.of_quiet (h : V.Quiet n fs fs') : V.SyncPost n fs none fs' :=
  ⟨h.counted, h.desc, h.pending, fun _ ↦ h, by simp⟩

/-- The sum of the free blocks fits its 64 bits. -/
theorem Counted.freeBlocks_lt (h : V.Counted n fs) :
    ∑ g ∈ Finset.range V.groups, fs.descFreeBlocks g < 2 ^ 64 := by
  have hlt : ∀ g ∈ Finset.range V.groups, fs.descFreeBlocks g ≤ 2 ^ 32 := fun g _ ↦ by
    have hlo := Buf.getField_lt (fs.desc g) 0 Gd.bgFreeBlocksCountLo
    have hhi := Buf.getField_lt (fs.desc g) 0 Gd.bgFreeBlocksCountHi
    simp only [Gd.bgFreeBlocksCountLo, Gd.bgFreeBlocksCountHi] at hlo hhi
    simp only [Fs.descFreeBlocks, Gd.bgFreeBlocksCountLo, Gd.bgFreeBlocksCountHi]
    omega
  have hsum : ∑ g ∈ Finset.range V.groups, fs.descFreeBlocks g ≤ V.groups * 2 ^ 32 := by
    simpa using Finset.sum_le_card_nsmul _ _ _ hlt
  have hsize := h.laid.descSize_no_wrap
  have hmul : V.groups * 32 ≤ V.groups * V.geom.sDescSize :=
    Nat.mul_le_mul_left _ (h.laid.copySz_ge.trans h.laid.copySz_le)
  omega

/-- Storing the superblock leaves the descriptors. -/
theorem Counted.put_super (h : V.Counted n fs) (buf : Buf) :
    V.Counted n (fs.put V.superBlock buf) ∧
      ∀ g < V.groups, (fs.put V.superBlock buf).desc g = fs.desc g := by
  have hkept : ∀ g < V.groups, (fs.put V.superBlock buf).desc g = fs.desc g := fun g hg ↦
    h.desc_congr rfl rfl (fs.block_put_of_ne buf
      (h.laid.superBlock_ne_desc g (h.countsLaid.group g hg)).symm)
  have himage : V.Image n (fs.put V.superBlock buf) := { h.toImage with
    desc_blockBitmap := fun g hg ↦ by rw [hkept g hg.1, h.desc_blockBitmap g hg] }
  exact ⟨⟨h.toFlaky.put himage, h.countsLaid, fun g hg ↦ by rw [hkept g hg, h.desc_inodeBitmap g hg],
    h.cacheGroup, h.batch_lt⟩, hkept⟩

/-- **A sync that succeeds makes the superblock true.** A sync that fails leaves the counts. -/
theorem Counted.syncSuperFreeCounts (h : V.Counted n fs) :
    wp Fs.ext4SyncSuperFreeCounts (V.SyncPost n fs) fs := by
  have hbs : fs.sbi.sBlockSize = V.bs := congrArg SbGeom.sBlockSize h.geom
  have hsuper : (if V.bs = 1024 then 1 else 0) = V.superBlock := rfl
  have hroom := h.countsLaid.super_le
  unfold Fs.ext4SyncSuperFreeCounts
  rw [wp, get_bind, guard_true h.groupDesc, pure_bind', hbs, hsuper, h.groupsCount_eq]
  set o := if V.bs = 1024 then 0 else 1024 with ho
  -- without two slots of the pool nothing is done
  by_cases hpool : V.bs ≤ 65536 ∧ 2 ≤ fs.superPool
  swap
  · rw [guard_false hpool, fail_bind]
    exact .of_quiet (.refl h)
  simp only [guard_true hpool, pure_bind']
  obtain ⟨l, hread | hread⟩ := h.atomic.readBlock V.superBlock
  swap
  · rw [bind_of_eq_none hread]
    exact .of_quiet (h.quiet_withFaults l)
  rw [bind_of_eq_some hread]
  have h₁ := h.withFaults l
  refine wp_seq (Q := V.SyncPost n fs) (h₁.sumFreeCounts V.groups 0 _ _ 0 0 _ (by omega) (.inr rfl)
    (by norm_num)) (fun fs₂ h₂ ↦ ?_) fun free fs₂ h₂ ↦ ?_
  · obtain ⟨⟨l', rfl⟩, -⟩ := h₂
    exact .of_quiet (h.quiet_withFaults l')
  obtain ⟨⟨l', rfl⟩, hsum⟩ := h₂
  obtain ⟨hblocks, hinodes⟩ := hsum free rfl
  simp only [Nat.zero_add] at hblocks hinodes
  rw [wp]
  set buf := (((fs.block V.superBlock).setField o Esb.sFreeBlocksCountLo free.1).setField o
    Esb.sFreeBlocksCountHi (free.1 / 2 ^ 32)).setField o Esb.sFreeInodesCount free.2 with hbuf
  -- a write that fails leaves the counts of the disk as they were
  obtain ⟨l'', hwrite | hwrite⟩ := (h.withFaults l').atomic.writeBlock V.superBlock buf
  swap
  · rw [show Fs.writeBlock V.superBlock buf ((fs.withFaults l).withFaults l') = _ from hwrite]
    exact .of_quiet (h.quiet_withFaults l'')
  rw [show Fs.writeBlock V.superBlock buf ((fs.withFaults l).withFaults l') = _ from hwrite]
  obtain ⟨hcounted, hdesc⟩ := (h.withFaults l').put_super buf
  set fs₃ := ((fs.withFaults l').put V.superBlock buf).withFaults l'' with hfs₃
  have h₃ : V.Counted n fs₃ := hcounted.withFaults l''
  refine ⟨h₃, hdesc, rfl, by simp, fun _ hlt ↦ ?_⟩
  have hblock : fs₃.block V.superBlock = Buf.clip V.bs buf := by
    show ((fs.withFaults l').put V.superBlock buf).block V.superBlock = _
    rw [Fs.block_put_self, (h.withFaults l').blockSize]
  have hfield : ∀ f : Buf.Field, f.off + f.size ≤ 1024 → fs₃.superField f = buf.getField o f := by
    intro f hf
    rw [h₃.superField_eq, hblock, ← ho]
    exact Buf.le_clip _ (by omega)
  -- the descriptors are where they were, so the sums are the ones before
  have hinodesSum : fs₃.freeInodesSum = fs.freeInodesSum := by
    unfold Fs.freeInodesSum Fs.descFreeInodes
    rw [h₃.groupsCount_eq, h.groupsCount_eq]
    exact Finset.sum_congr rfl fun g hg ↦ by
      rw [show fs₃.desc g = fs.desc g from hdesc g (Finset.mem_range.1 hg)]
  constructor
  · have hlt := h.freeBlocks_lt
    have heq : ∑ g ∈ Finset.range fs₃.sbi.sGroupsCount, fs₃.descFreeBlocks g = free.1 := by
      rw [h₃.groupsCount_eq, hblocks]
      exact Finset.sum_congr rfl fun g hg ↦ by
        rw [Fs.descFreeBlocks, show fs₃.desc g = fs.desc g from hdesc g (Finset.mem_range.1 hg)]
        rfl
    have hfree : free.1 < 2 ^ 64 := by
      rw [hblocks]
      exact hlt
    rw [hfield _ (by decide), hfield _ (by decide), heq, hbuf]
    simp (disch := decide) only [Buf.getField_setField_of_disjoint, Buf.getField_setField_self]
    simp only [Esb.sFreeBlocksCountLo, Esb.sFreeBlocksCountHi]
    omega
  · rw [hfield _ (by decide), hinodesSum, hbuf, Buf.getField_setField_self, hinodes]
    have hsame : ∑ g ∈ Finset.range V.groups, (fs.withFaults l).descFreeInodes g =
        fs.freeInodesSum := by
      rw [Fs.freeInodesSum, h.groupsCount_eq]
      rfl
    rw [hsame, u32_of_lt hlt]
    exact Nat.mod_eq_of_lt hlt

/-- Counting a change that was recorded, unless that loses it. -/
theorem Counted.bgSync (h : V.Counted n fs) (hpending : fs.sbi.sBgSyncPending + 1 < 2 ^ 32)
    (hinodes : fs.freeInodesSum < 2 ^ 32) (hsafe : ¬ fs.LosesBatch) :
    wp Fs.bgSync (fun r fs' ↦ r = some () ∧ V.InStep n fs') fs := by
  have hbump : V.Counted n fs.bumpPending := h.withSbi _ rfl h.groupDesc h.cacheGroup
  have hcount : fs.bumpPending.sbi.sBgSyncPending = fs.sbi.sBgSyncPending + 1 := u32_of_lt hpending
  have hsum : fs.bumpPending.freeInodesSum = fs.freeInodesSum := rfl
  have hbatch := h.batch_lt
  by_cases hfull : fs.bgSyncBatch ≤ fs.bumpPending.sbi.sBgSyncPending
  · rw [wp, Fs.bgSync_apply, if_pos hfull]
    have hpost := hbump.syncSuperFreeCounts
    rcases hrun : Fs.ext4SyncSuperFreeCounts fs.bumpPending with ⟨_ | _, fs₁⟩ <;>
      rw [wp_of_eq hrun] at hpost
    · exact absurd ⟨hfull, by rw [hrun]⟩ hsafe
    · obtain ⟨hblocks, hfree⟩ := hpost.superTrue rfl (hsum ▸ hinodes)
      refine ⟨rfl, hpost.counted.withSbi _ rfl hpost.counted.groupDesc hpost.counted.cacheGroup,
        by norm_num [Fs.modifySbi], ?_, fun _ ↦ ⟨hblocks, hfree⟩⟩
      have hlt := Buf.getField_lt (fs₁.block (if fs₁.sbi.sBlockSize = 1024 then 1 else 0))
        (if fs₁.sbi.sBlockSize = 1024 then 0 else 1024) Esb.sFreeInodesCount
      exact lt_of_eq_of_lt hfree.symm hlt
  · rw [wp, Fs.bgSync_apply, if_neg hfull]
    refine ⟨rfl, hbump, ?_, hsum ▸ hinodes, fun hzero ↦ ?_⟩
    · show fs.bumpPending.sbi.sBgSyncPending + 1 < 2 ^ 32
      omega
    · replace hzero : fs.bumpPending.sbi.sBgSyncPending = 0 := hzero
      omega

/-- Syncing after a change of the inodes that was recorded, unless that loses it. -/
theorem Counted.syncInodes (h : V.Counted n fs) (hpending : fs.sbi.sBgSyncPending + 1 < 2 ^ 32)
    (hsafe : ¬ fs.LosesSync) : V.InStep n (Fs.ext4SyncSuperFreeCounts fs).2 := by
  have hinodes : fs.freeInodesSum < 2 ^ 32 := by
    by_contra hlt
    exact hsafe (.inl (Nat.not_lt.1 hlt))
  have hpost := h.syncSuperFreeCounts
  rcases hrun : Fs.ext4SyncSuperFreeCounts fs with ⟨_ | _, fs₁⟩ <;> rw [wp_of_eq hrun] at hpost
  · have hquiet := hpost.quiet rfl
    refine ⟨hpost.counted, hpost.pending ▸ hpending, ?_, fun hzero ↦ ?_⟩
    · rwa [hquiet.freeInodesSum h.toImage]
    · exact absurd (.inr ⟨hpost.pending ▸ hzero, by rw [hrun]⟩) hsafe
  · have htrue := hpost.superTrue rfl hinodes
    refine ⟨hpost.counted, hpost.pending ▸ hpending, ?_, fun _ ↦ htrue⟩
    rw [← htrue.freeInodes]
    exact Buf.getField_lt _ _ Esb.sFreeInodesCount

/-! ### The cached bitmap -/

/-- Writing the cached bitmap back leaves the counts. -/
theorem Counted.bmapCacheFlush (h : V.Counted n fs) :
    wp Fs.bmapCacheFlush (fun _ fs' ↦ V.Quiet n fs fs' ∧
      fs'.sbi.sBmapCacheGroup = fs.sbi.sBmapCacheGroup) fs := by
  unfold Fs.bmapCacheFlush
  rw [wp, get_bind]
  by_cases hdirty : (fs.sbi.sBmapCacheValid && fs.sbi.sBmapCacheDirty) = true
  swap
  · rw [if_neg hdirty]
    exact ⟨.refl h, rfl⟩
  rw [if_pos hdirty]
  rw [Bool.and_eq_true] at hdirty
  have hg := h.cacheGroup hdirty.1
  have hgroup := h.countsLaid.group _ hg
  refine wp_seq (Q := fun _ fs' ↦ V.Quiet n fs fs' ∧ fs'.sbi.sBmapCacheGroup =
    fs.sbi.sBmapCacheGroup) (h.atomic.readGroupDesc _) (fun fs₁ hr ↦ ?_) fun gd fs₁ hr ↦ ?_
  · obtain ⟨⟨l, rfl⟩, -⟩ := hr
    exact ⟨h.quiet_withFaults l, rfl⟩
  obtain ⟨⟨l, rfl⟩, hgd⟩ := hr
  obtain rfl := (hgd gd rfl).1
  rw [h.desc_blockBitmap _ hgroup]
  have h₁ := h.withFaults l
  obtain ⟨l', hwrite | hwrite⟩ := h₁.toFlaky.writeBlockBitmap hgroup fs.sbi.sBmapCacheBuf
  swap
  · rw [wp, bind_of_eq_none hwrite]
    exact ⟨(h.quiet_withFaults l).trans (h₁.quiet_withFaults l'), rfl⟩
  rw [wp, bind_of_eq_some hwrite, Fs.modifySbi, modify_apply]
  have h₂ := h₁.quiet_put fs.sbi.sBmapCacheBuf (h.laid.blockBitmap_ne_super _ hgroup) fun g hg' ↦
    h.laid.blockBitmap_ne_desc _ hgroup g (h.countsLaid.group g hg')
  have h₃ := h₂.counted.quiet_withFaults l'
  exact ⟨((h.quiet_withFaults l).trans (h₂.trans h₃)).trans (h₃.counted.quiet_withSbi _ rfl
    h₃.counted.groupDesc h₃.counted.cacheGroup rfl), rfl⟩

/-- Loading a bitmap leaves the counts. -/
theorem Counted.bmapCacheLoad (h : V.Counted n fs) (hg : g < V.groups) :
    wp (Fs.bmapCacheLoad g (fs.desc g)) (fun r fs' ↦ V.Quiet n fs fs' ∧
      ∀ gd, r = some gd → gd = fs.desc g) fs := by
  unfold Fs.bmapCacheLoad
  rw [wp, get_bind]
  by_cases hhit : (fs.sbi.sBmapCacheValid && fs.sbi.sBmapCacheGroup == g) = true
  · rw [if_pos hhit]
    exact ⟨.refl h, fun gd hgd ↦ (Option.some.inj hgd).symm⟩
  rw [if_neg hhit]
  refine wp_seq (Q := fun r fs' ↦ V.Quiet n fs fs' ∧ ∀ gd, r = some gd → gd = fs.desc g)
    h.bmapCacheFlush (fun _ h₁ ↦ ⟨h₁.1, by simp⟩) fun _ fs₁ h₁ ↦ ?_
  replace h₁ := h₁.1
  refine wp_seq (Q := fun r fs' ↦ V.Quiet n fs fs' ∧ ∀ gd, r = some gd → gd = fs.desc g)
    (h₁.counted.readGroupDesc g) (fun _ h₂ ↦ ⟨h₁.trans h₂.1, by simp⟩) fun gd fs₂ h₂ ↦ ?_
  obtain ⟨h₂, hgd⟩ := h₂
  obtain rfl : gd = fs.desc g := by
    rw [← h₁.desc g hg]
    exact (hgd gd rfl).1
  replace h₂ := h₁.trans h₂
  have hpos := h.laid.blockBitmap_pos g (h.countsLaid.group g hg)
  have hptr : (fs.desc g).getField 0 Gd.bgBlockBitmapLo ≠ 0 := by
    rwa [(h.isGroupDesc hg).blockBitmap]
  rw [wp, guard_true hptr, pure_bind']
  -- whatever a failed read leaves in the buffer
  have hbuf : ∀ l buf, V.Quiet n fs
      { fs₂.withFaults l with sbi := { fs₂.sbi with sBmapCacheBuf := buf } } := fun l buf ↦
    (h₂.trans (h₂.counted.quiet_withFaults l)).trans ((h₂.counted.withFaults l).quiet_withSbi _ rfl
      h₂.counted.groupDesc h₂.counted.cacheGroup rfl)
  obtain ⟨l, hinto | ⟨buf, hinto⟩⟩ := BlockDevice.Atomic.readInto h₂.counted.atomic
    ((fs.desc g).getField 0 Gd.bgBlockBitmapLo) fs₂.sbi.sBmapCacheBuf
  · set buf := fs₂.sbi.sBmapCacheBuf.blit 0
      (fs₂.dev.block fs₂.blockSize ((fs.desc g).getField 0 Gd.bgBlockBitmapLo)) 0 fs₂.blockSize
    have hload : Fs.readBmapCache ((fs.desc g).getField 0 Gd.bgBlockBitmapLo) fs₂ =
        (some (), { fs₂.withFaults l with sbi := { fs₂.sbi with sBmapCacheBuf := buf } }) := by
      simp only [Fs.readBmapCache, hinto]
      rfl
    rw [bind_of_eq_some hload, Fs.modifySbi, modify_bind]
    exact ⟨(hbuf l buf).trans ((hbuf l buf).counted.quiet_withSbi _ rfl h₂.counted.groupDesc
      (fun _ ↦ hg) rfl), fun gd hgd ↦ (Option.some.inj hgd).symm⟩
  · have hload : Fs.readBmapCache ((fs.desc g).getField 0 Gd.bgBlockBitmapLo) fs₂ =
        (none, { fs₂.withFaults l with sbi := { fs₂.sbi with sBmapCacheBuf := buf } }) := by
      simp only [Fs.readBmapCache, hinto]
      rfl
    rw [bind_of_eq_none hload]
    exact ⟨hbuf l buf, by simp⟩

/-! ### Blocks -/

/-- The new descriptor has the count of free inodes of the old one. -/
theorem Recorded.freeInodesSum (h : V.Recorded n g gd fs fs') (hfs : V.Image n fs)
    (hlo : gd.getField 0 Gd.bgFreeInodesCountLo = (fs.desc g).getField 0 Gd.bgFreeInodesCountLo)
    (hhi : gd.getField 0 Gd.bgFreeInodesCountHi = (fs.desc g).getField 0 Gd.bgFreeInodesCountHi) :
    fs'.freeInodesSum = fs.freeInodesSum := by
  unfold Fs.freeInodesSum
  rw [h.counted.groupsCount_eq, hfs.groupsCount_eq]
  refine Finset.sum_congr rfl fun g' hg' ↦ ?_
  unfold Fs.descFreeInodes
  by_cases hne : g' = g
  · rw [hne, h.desc, hlo, hhi]
  · rw [h.desc_ne g' (Finset.mem_range.1 hg') hne]

/-- The free blocks of a group were counted, unless counting them lost the change. -/
theorem InStep.countBlocks (h : V.InStep n fs) {v : ℕ}
    (h' : V.Recorded n g ((fs.desc g).setField 0 Gd.bgFreeBlocksCountLo v) fs fs')
    (hsafe : ¬ fs'.LosesBatch) : wp Fs.bgSync (fun r fs' ↦ r = some () ∧ V.InStep n fs') fs' := by
  refine h'.counted.bgSync (h'.pending ▸ h.pending_lt) ?_ hsafe
  rw [h'.freeInodesSum h.toImage (Buf.getField_setField_of_disjoint _ _ _ (by decide))
    (Buf.getField_setField_of_disjoint _ _ _ (by decide))]
  exact h.inodes_lt

/-- A descriptor with another count of free blocks. -/
theorem Counted.setFreeBlocks (h : V.Counted n fs) (hg : g < V.groups) (v : ℕ) :
    V.IsGroupDesc g ((fs.desc g).setField 0 Gd.bgFreeBlocksCountLo v) :=
  (h.isGroupDesc hg).setField (by decide) (by decide)
    (.inl ((show Gd.bgFreeBlocksCountLo.off + Gd.bgFreeBlocksCountLo.size ≤ 32 by decide).trans
      h.laid.copySz_ge))

/-- Marking a run records at most the free blocks of its group. -/
theorem Counted.markRun (h : V.Counted n fs) (hg : g < V.groups) (bc gc gs gb i l : ℕ) :
    wp (Fs.markRun bc gc g gs gb i l (fs.desc g)) (fun r fs' ↦ (r = none → V.Quiet n fs fs') ∧
      (r = some () → ∃ v, V.Recorded n g ((fs.desc g).setField 0 Gd.bgFreeBlocksCountLo v) fs fs'))
      fs := by
  have h₁ : V.Quiet n fs (fs.setRun i l) := h.quiet_withSbi _ rfl h.groupDesc h.cacheGroup rfl
  have h₂ : V.Quiet n fs (fs.setRun i l).setDirty :=
    h₁.trans (h₁.counted.quiet_withSbi _ rfl h₁.counted.groupDesc h₁.counted.cacheGroup rfl)
  have hflushed : ∀ {r fs₃}, Fs.bmapCacheFlush (fs.setRun i l).setDirty = (r, fs₃) → V.Quiet n fs fs₃ :=
    fun hrun ↦ by
      have hpost := h₂.counted.bmapCacheFlush
      rw [wp_of_eq hrun] at hpost
      exact h₂.trans hpost.1
  have hstored : ∀ {r fs₃ fs₄}, V.Quiet n fs fs₃ →
      Fs.storeGroupDesc g (lowerFree (fs.desc g) l) fs₃ = (r, fs₄) →
        V.RecordPost n g (lowerFree (fs.desc g) l) fs₃ r fs₄ := fun {_ fs₃ _} h₃ hrun ↦ by
    have hpost : wp (Fs.storeGroupDesc g (lowerFree (fs.desc g) l))
      (V.RecordPost n g (lowerFree (fs.desc g) l) fs₃) fs₃ :=
      h₃.counted.storeGroupDesc (h.setFreeBlocks hg _)
    rwa [wp_of_eq hrun] at hpost
  refine wp_mono (Fs.wp_markRun bc gc g gs gb i l (fs.desc g) fs) fun r fs' hmarks ↦ ?_
  cases hmarks with
  | outside _ => exact ⟨fun _ ↦ h₁, by simp⟩
  | noFlush _ hflush => exact ⟨fun _ ↦ hflushed hflush, by simp⟩
  | noStore _ hflush hstore =>
    have h₃ := hflushed hflush
    exact ⟨fun _ ↦ h₃.trans ((hstored h₃ hstore).quiet rfl), by simp⟩
  | @marked _ fs₄ _ hflush hstore =>
    have h₃ := hflushed hflush
    have hrec := ((hstored h₃ hstore).recorded rfl).of_quiet h₃
    obtain ⟨hgeom, hgdesc, hvalid, hcg, -, -⟩ := fs₄.sbi.advanceGoal_keeps g (u32 (i + l)) gb gc
    have hquiet := hrec.counted.quiet_withSbi (fs₄.sbi.advanceGoal g (u32 (i + l)) gb gc) hgeom
      (by rw [hgdesc]; exact hrec.counted.groupDesc)
      (fun hv ↦ by rw [hcg]; exact hrec.counted.cacheGroup (hvalid ▸ hv))
      (fs₄.sbi.advanceGoal_pending g (u32 (i + l)) gb gc)
    exact ⟨by simp, fun _ ↦ ⟨_, hrec.quiet hg hquiet⟩⟩

/-- An iteration over group `g`, unless counting what it marked loses the change. -/
theorem InStep.tryGroup (h : V.InStep n fs) (goalLen : ℕ) (requireFullGoal : Bool) (bpg bc : ℕ)
    {gc : ℕ} (hgc : V.bs ≤ blockSizeDefault → gc ≤ V.groups) (hg : g < gc)
    (hsafe : ¬ fs.LosesGroup goalLen requireFullGoal bpg bc gc g) :
    wp (Fs.tryGroup goalLen requireFullGoal bpg bc gc g) (fun _ fs' ↦ V.InStep n fs') fs := by
  -- up to the marking of the run nothing that is counted changes
  have hread : ∀ {r fs₁}, Fs.readGroupDesc g fs = (r, fs₁) → V.Quiet n fs fs₁ ∧
      ∀ gd, r = some gd → g < V.groups ∧ gd = fs₁.desc g := fun hrun ↦ by
    have hpost := h.toCounted.readGroupDesc g
    rw [wp_of_eq hrun] at hpost
    refine ⟨hpost.1, fun gd hgd ↦ ?_⟩
    obtain ⟨hdesc, hbs⟩ := hpost.2 gd hgd
    have hlt := lt_of_lt_of_le hg (hgc hbs)
    exact ⟨hlt, hdesc.trans (hpost.1.desc g hlt).symm⟩
  have hloaded : ∀ {gd fs₁ r fs₂}, Fs.readGroupDesc g fs = (some gd, fs₁) →
      Fs.bmapCacheLoad g gd fs₁ = (r, fs₂) → V.Quiet n fs fs₂ ∧
        ∀ gd', r = some gd' → g < V.groups ∧ gd' = fs₂.desc g := fun hrun hload ↦ by
    obtain ⟨h₁, hgd⟩ := hread hrun
    obtain ⟨hlt, rfl⟩ := hgd _ rfl
    have hpost := h₁.counted.bmapCacheLoad hlt
    rw [wp_of_eq hload] at hpost
    refine ⟨h₁.trans hpost.1, fun gd' hgd' ↦ ⟨hlt, ?_⟩⟩
    rw [hpost.2 gd' hgd', hpost.1.desc g hlt]
  refine wp_mono (Fs.wp_tryGroup goalLen requireFullGoal bpg bc gc g fs) fun r fs' htries ↦ ?_
  cases htries with
  | skip _ => exact h
  | noDesc _ hrun | noBitmap _ hrun _ => exact h.quiet (hread hrun).1
  | noLoad _ hrun _ hload | noRun _ hrun _ hload _ => exact h.quiet (hloaded hrun hload).1
  | @noMark _ _ _ _ _ i len _ hrun _ hload _ hmark =>
    obtain ⟨h₂, hgd⟩ := hloaded hrun hload
    obtain ⟨hlt, rfl⟩ := hgd _ rfl
    have hpost := h₂.counted.markRun hlt bc gc (u32 (g * bpg)) (Fs.groupBits bpg bc g) i len
    rw [wp_of_eq hmark] at hpost
    exact h.quiet (h₂.trans (hpost.1 rfl))
  | @took _ _ _ _ _ i len _ hrun _ hload hfound hmark =>
    obtain ⟨h₂, hgd⟩ := hloaded hrun hload
    obtain ⟨hlt, rfl⟩ := hgd _ rfl
    have hpost := h₂.counted.markRun hlt bc gc (u32 (g * bpg)) (Fs.groupBits bpg bc g) i len
    rw [wp_of_eq hmark] at hpost
    obtain ⟨v, hrec⟩ := hpost.2 rfl
    refine ((h.quiet h₂).countBlocks hrec fun hloses ↦ hsafe ⟨_, _, _, _, _, hrun, hload, ?_, hloses⟩).2
    rw [hfound]
    exact hmark

/-- A call of `ext4_new_blocks_in_group` that does not lose its change. -/
theorem InStep.newBlocks (h : V.InStep n fs) {goalLen preferredGroup : ℕ}
    (hsafe : ¬ fs.LosesNewBlocks goalLen preferredGroup) :
    wp (Fs.ext4NewBlocksInGroup goalLen preferredGroup) (fun _ fs' ↦ V.InStep n fs') fs := by
  rcases hgeom : fs.allocGeometry with _ | ⟨bpg, bc, gc⟩
  · rw [wp, Fs.newBlocks_of_geometry_none h.groupDesc hgeom]
    exact h
  have hgc : V.bs ≤ blockSizeDefault → gc ≤ V.groups := fun hbs ↦
    (h.toImage.allocGeometry hbs hgeom).groups_le
  have hlt := fs.startGroup_lt preferredGroup (Fs.groupsCount_pos_of_allocGeometry hgeom)
  refine Fs.wp_newBlocks (I := fun _ _ fs' ↦ V.InStep n fs') h.groupDesc hgeom hsafe h ?_
    (fun _ _ hI ↦ hI) fun _ hI ↦ hI
  intro full k fs' hk h' hbad
  refine wp_mono (h'.tryGroup _ full bpg bc hgc (visit_lt hlt hk) hbad) fun r fs'' hpost ↦ ?_
  split <;> exact hpost

/-- Reading a block bitmap leaves the counts. -/
theorem Counted.readBlockBitmap (h : V.Counted n fs) (g : ℕ) :
    wp (Fs.readBlockBitmap g) (fun r fs' ↦ V.Quiet n fs fs' ∧ ∀ x : ℕ × Buf, r = some x →
      g < V.groups ∧ x.1 = V.blockBitmap g) fs := by
  unfold Fs.readBlockBitmap
  rw [wp, get_bind, h.groupsCount_eq]
  by_cases hg : g < V.groups
  swap
  · rw [guard_false hg, fail_bind]
    exact ⟨.refl h, by simp⟩
  rw [guard_true hg, pure_bind']
  refine wp_seq (Q := fun r fs' ↦ V.Quiet n fs fs' ∧ ∀ x : ℕ × Buf, r = some x → g < V.groups ∧
    x.1 = V.blockBitmap g) (h.readGroupDesc g) (fun _ hr ↦ ⟨hr.1, by simp⟩) fun gd fs₁ hr ↦ ?_
  obtain ⟨h₁, hgd⟩ := hr
  obtain ⟨rfl, -⟩ := hgd gd rfl
  rw [wp, (h.isGroupDesc hg).blockBitmap]
  obtain ⟨l, hread | hread⟩ := h₁.counted.atomic.readBlock (V.blockBitmap g)
  swap
  · rw [bind_of_eq_none hread]
    exact ⟨h₁.trans (h₁.counted.quiet_withFaults l), by simp⟩
  rw [bind_of_eq_some hread,
    guard_true (h.laid.blockBitmap_pos g (h.countsLaid.group g hg)), pure_bind']
  refine ⟨h₁.trans (h₁.counted.quiet_withFaults l), fun x hx ↦ ⟨hg, ?_⟩⟩
  rw [← Option.some.inj hx]

/-- Writing a bitmap that is neither the superblock nor a descriptor. -/
theorem Counted.quiet_writeBlock (h : V.Counted n fs) {b : ℕ} (buf : Buf) (hsuper : b ≠ V.superBlock)
    (hdesc : ∀ g < V.groups, b ≠ V.descBlock g) :
    wp (Fs.writeBlock b buf) (fun _ fs' ↦ V.Quiet n fs fs') fs := by
  rw [wp]
  obtain ⟨l, hwrite | hwrite⟩ := h.atomic.writeBlock b buf
  · rw [hwrite]
    have hput := h.quiet_put buf hsuper hdesc
    exact hput.trans (hput.counted.quiet_withFaults l)
  · rw [hwrite]
    exact h.quiet_withFaults l

/-- Writing a block bitmap leaves the counts. -/
theorem Counted.writeBlockBitmap (h : V.Counted n fs) (hg : g < V.groups) (buf : Buf) :
    wp (Fs.writeBlockBitmap (V.blockBitmap g) buf) (fun _ fs' ↦ V.Quiet n fs fs') fs := by
  have hgroup := h.countsLaid.group g hg
  unfold Fs.writeBlockBitmap
  rw [guard_true (h.laid.blockBitmap_pos g hgroup), pure_bind']
  exact h.quiet_writeBlock buf (h.laid.blockBitmap_ne_super g hgroup) fun g' hg' ↦
    h.laid.blockBitmap_ne_desc g hgroup g' (h.countsLaid.group g' hg')

/-- A call of `ext4_free_block` that does not lose its change. -/
theorem InStep.freeBlock (h : V.InStep n fs) {blocknr : ℕ} (hsafe : ¬ fs.LosesFreeBlock blocknr) :
    wp (Fs.ext4FreeBlock blocknr) (fun _ fs' ↦ V.InStep n fs') fs := by
  unfold Fs.LosesFreeBlock at hsafe
  have hfrees := Fs.wp_freeBlock h.groupDesc blocknr
  generalize blocknr / fs.sbi.sBlocksPerGroup = g at hsafe hfrees
  generalize blocknr % fs.sbi.sBlocksPerGroup = i at hsafe hfrees
  have hread : ∀ {r fs₁}, Fs.readBlockBitmap g fs = (r, fs₁) → V.Quiet n fs fs₁ ∧
      ∀ bitmap, r = some bitmap → g < V.groups ∧ bitmap.1 = V.blockBitmap g := fun hrun ↦ by
    have hpost := h.toCounted.readBlockBitmap g
    rwa [wp_of_eq hrun] at hpost
  have hwritten : ∀ {bitmap fs₁ r fs₂}, fs.ReadsBit g i bitmap fs₁ →
      Fs.writeBlockBitmap bitmap.1 (bitmap.2.clearBit i) fs₁ = (r, fs₂) →
        g < V.groups ∧ V.Quiet n fs fs₂ := fun {bitmap _ _ _} hreads hrun ↦ by
    obtain ⟨h₁, hbitmap⟩ := hread hreads.read
    obtain ⟨hlt, hblk⟩ := hbitmap _ rfl
    rw [hblk] at hrun
    have hpost := h₁.counted.writeBlockBitmap hlt (bitmap.2.clearBit i)
    rw [wp_of_eq hrun] at hpost
    exact ⟨hlt, h₁.trans hpost⟩
  have hdesc : ∀ {fs₂ r fs₃}, g < V.groups → V.Quiet n fs fs₂ → Fs.readGroupDesc g fs₂ = (r, fs₃) →
      V.Quiet n fs fs₃ ∧ ∀ gd, r = some gd → gd = fs.desc g := fun hlt h₂ hrun ↦ by
    have hpost := h₂.counted.readGroupDesc g
    rw [wp_of_eq hrun] at hpost
    exact ⟨h₂.trans hpost.1, fun gd hgd ↦ (hpost.2 gd hgd).1.trans (h₂.desc g hlt)⟩
  have hstored : ∀ {fs₃ r fs₄}, g < V.groups → V.Quiet n fs fs₃ →
      Fs.storeGroupDesc g (raiseFree (fs.desc g)) fs₃ = (r, fs₄) →
        V.RecordPost n g (raiseFree (fs.desc g)) fs₃ r fs₄ := fun {fs₃ _ _} hlt h₃ hrun ↦ by
    have hpost : wp (Fs.storeGroupDesc g (raiseFree (fs.desc g)))
      (V.RecordPost n g (raiseFree (fs.desc g)) fs₃) fs₃ :=
      h₃.counted.storeGroupDesc (h.setFreeBlocks hlt _)
    rwa [wp_of_eq hrun] at hpost
  refine wp_mono hfrees fun r fs' hfrees ↦ ?_
  cases hfrees with
  | refuse _ => exact h
  | noBitmap _ hrun | outside _ hrun _ => exact h.quiet (hread hrun).1
  | clear hreads _ => exact h.quiet (hread hreads.read).1
  | noWrite hreads _ hwrite => exact h.quiet (hwritten hreads hwrite).2
  | noDesc hreads _ hwrite hrun =>
    obtain ⟨hlt, h₂⟩ := hwritten hreads hwrite
    exact h.quiet (hdesc hlt h₂ hrun).1
  | noStore hreads _ hwrite hrun hstore =>
    obtain ⟨hlt, h₂⟩ := hwritten hreads hwrite
    obtain ⟨h₃, hgd⟩ := hdesc hlt h₂ hrun
    obtain rfl := hgd _ rfl
    exact h.quiet (h₃.trans ((hstored hlt h₃ hstore).quiet rfl))
  | freed hreads _ hwrite hrun hstore =>
    obtain ⟨hlt, h₂⟩ := hwritten hreads hwrite
    obtain ⟨h₃, hgd⟩ := hdesc hlt h₂ hrun
    obtain rfl := hgd _ rfl
    have hrec := ((hstored hlt h₃ hstore).recorded rfl).of_quiet h₃
    have hcounted := h.countBlocks hrec fun hloses ↦
      hsafe ⟨_, fs.desc g, _, _, _, _, hreads.read, hwrite, hrun, hstore, hloses⟩
    exact hcounted.2.quiet (hcounted.2.toCounted.quiet_dropBmapCache g)

/-- A release loses nothing as long as it does not fill the batch. -/
theorem Counted.not_losesFreeBlock (h : V.Counted n fs)
    (hbatch : fs.sbi.sBgSyncPending + 1 < fs.bgSyncBatch) (blocknr : ℕ) :
    ¬ fs.LosesFreeBlock blocknr := by
  rintro ⟨bitmap, gd, fs₁, fs₂, fs₃, fs₄, hrun₁, hrun₂, hrun₃, hrun₄, hfull, -⟩
  have hread := h.readBlockBitmap (blocknr / fs.sbi.sBlocksPerGroup)
  rw [wp_of_eq hrun₁] at hread
  obtain ⟨h₁, hbitmap⟩ := hread
  obtain ⟨hlt, hblk⟩ := hbitmap bitmap rfl
  have hwrite := h₁.counted.writeBlockBitmap hlt
    (bitmap.2.clearBit (blocknr % fs.sbi.sBlocksPerGroup))
  rw [← hblk, wp_of_eq hrun₂] at hwrite
  have hdesc := hwrite.counted.readGroupDesc (blocknr / fs.sbi.sBlocksPerGroup)
  rw [wp_of_eq hrun₃] at hdesc
  have h₃ := h₁.trans (hwrite.trans hdesc.1)
  obtain rfl : gd = fs.desc (blocknr / fs.sbi.sBlocksPerGroup) := by
    rw [(hdesc.2 gd rfl).1, (h₁.trans hwrite).desc _ hlt]
  have hstore := h₃.counted.storeGroupDesc (h.setFreeBlocks hlt
    ((fs.desc (blocknr / fs.sbi.sBlocksPerGroup)).getField 0 Gd.bgFreeBlocksCountLo + 1))
  rw [wp, show Fs.storeGroupDesc _ ((fs.desc (blocknr / fs.sbi.sBlocksPerGroup)).setField 0
    Gd.bgFreeBlocksCountLo _) fs₃ = _ from hrun₄] at hstore
  have hrec := (hstore.recorded rfl).of_quiet h₃
  have hpending : fs₄.bumpPending.sbi.sBgSyncPending = u32 (fs₄.sbi.sBgSyncPending + 1) := rfl
  rw [hpending, hrec.pending, hrec.batch] at hfull
  have hle : u32 (fs.sbi.sBgSyncPending + 1) ≤ fs.sbi.sBgSyncPending + 1 := Nat.mod_le _ _
  omega

/-! ### Inodes -/

/-- A descriptor with another count of free inodes. -/
theorem Counted.setFreeInodes (h : V.Counted n fs) (hg : g < V.groups) (v : ℕ) :
    V.IsGroupDesc g ((fs.desc g).setField 0 Gd.bgFreeInodesCountLo v) :=
  (h.isGroupDesc hg).setField (by decide) (by decide)
    (.inl ((show Gd.bgFreeInodesCountLo.off + Gd.bgFreeInodesCountLo.size ≤ 32 by decide).trans
      h.laid.copySz_ge))

/-- The inode allocator reads the same descriptors. -/
theorem Counted.readInodeDesc (h : V.Counted n fs) (g : ℕ) :
    wp (Fs.Ialloc.readGroupDesc g) (fun r fs' ↦ V.Quiet n fs fs' ∧
      ∀ gd, r = some gd → gd = fs.desc g ∧ g < V.groups) fs := by
  unfold Fs.Ialloc.readGroupDesc
  rw [wp, get_bind, h.groupsCount_eq]
  by_cases hg : g < V.groups
  · rw [guard_true hg, pure_bind']
    obtain ⟨hquiet, hgd⟩ := h.readGroupDesc g
    exact ⟨hquiet, fun gd hr ↦ ⟨(hgd gd hr).1, hg⟩⟩
  · rw [guard_false hg, fail_bind]
    exact ⟨.refl h, by simp⟩

/-- Reading an inode bitmap leaves the counts. -/
theorem Counted.readInodeBitmap (h : V.Counted n fs) (g : ℕ) :
    wp (Fs.readInodeBitmap g) (fun r fs' ↦ V.Quiet n fs fs' ∧ ∀ x : ℕ × Buf, r = some x →
      g < V.groups ∧ x.1 = V.inodeBitmap g) fs := by
  unfold Fs.readInodeBitmap
  rw [wp, get_bind, guard_true h.groupDesc, pure_bind', h.groupsCount_eq]
  by_cases hg : g < V.groups
  swap
  · rw [guard_false hg, fail_bind]
    exact ⟨.refl h, by simp⟩
  rw [guard_true hg, pure_bind']
  refine wp_seq (Q := fun r fs' ↦ V.Quiet n fs fs' ∧ ∀ x : ℕ × Buf, r = some x → g < V.groups ∧
    x.1 = V.inodeBitmap g) (h.readInodeDesc g) (fun _ hr ↦ ⟨hr.1, by simp⟩) fun gd fs₁ hr ↦ ?_
  obtain ⟨h₁, hgd⟩ := hr
  obtain ⟨rfl, -⟩ := hgd gd rfl
  rw [wp, (h.isGroupDesc hg).inodeBitmap]
  obtain ⟨l, hread | hread⟩ := h₁.counted.atomic.readBlock (V.inodeBitmap g)
  swap
  · rw [bind_of_eq_none hread]
    exact ⟨h₁.trans (h₁.counted.quiet_withFaults l), by simp⟩
  rw [bind_of_eq_some hread]
  replace h₁ := h₁.trans (h₁.counted.quiet_withFaults l)
  by_cases hpos : V.inodeBitmap g ≠ 0
  · rw [guard_true hpos, pure_bind']
    exact ⟨h₁, fun x hx ↦ ⟨hg, by rw [← Option.some.inj hx]⟩⟩
  · rw [guard_false hpos, fail_bind]
    exact ⟨h₁, by simp⟩

/-- Writing an inode bitmap leaves the counts. -/
theorem Counted.writeInodeBitmap (h : V.Counted n fs) (hg : g < V.groups) (buf : Buf) :
    wp (Fs.writeInodeBitmap (V.inodeBitmap g) buf) (fun _ fs' ↦ V.Quiet n fs fs') fs := by
  unfold Fs.writeInodeBitmap
  by_cases hpos : V.inodeBitmap g ≠ 0
  · rw [guard_true hpos, pure_bind']
    exact h.quiet_writeBlock buf (h.countsLaid.inodeBitmap_ne_super g hg) fun g' hg' ↦
      h.countsLaid.inodeBitmap_ne_desc g hg g' hg'
  · rw [guard_false hpos, fail_bind]
    exact .refl h

/-- Storing the descriptor of a group whose inodes changed, unless the sync loses the change. -/
theorem InStep.storeInodeDesc (h : V.InStep n fs) (hgd : V.IsGroupDesc g gd)
    (hsafe : ¬ fs.LosesInodeDesc g gd) :
    wp (Fs.storeInodeDesc g gd) (fun _ fs' ↦ V.InStep n fs') fs := by
  rw [Fs.storeInodeDesc_eq]
  have hpost := h.toCounted.recordInodeDesc hgd
  rcases hrun : Fs.recordInodeDesc g gd fs with ⟨_ | _, fs₁⟩ <;> rw [wp_of_eq hrun] at hpost
  · exact wp_bind_of_eq_none hrun (h.quiet (hpost.quiet rfl))
  · have hrec := hpost.recorded rfl
    refine wp_bind_of_eq_some hrun ?_
    exact hrec.counted.syncInodes (hrec.pending ▸ h.pending_lt) fun hloses ↦ hsafe ⟨fs₁, hrun, hloses⟩

/-- An iteration of the search for an inode that does not lose its change. -/
theorem InStep.tryInodeGroup (h : V.InStep n fs) (hsafe : ¬ fs.LosesInodeGroup g) :
    wp (Fs.tryInodeGroup g) (fun _ fs' ↦ V.InStep n fs') fs := by
  unfold Fs.LosesInodeGroup at hsafe
  unfold Fs.tryInodeGroup
  have hread := h.toCounted.readInodeBitmap g
  rcases hrun : Fs.readInodeBitmap g fs with ⟨_ | bitmap, fs₁⟩ <;> rw [wp_of_eq hrun] at hread
  · exact wp_bind_of_eq_none hrun (h.quiet hread.1)
  obtain ⟨h₁, hbitmap⟩ := hread
  obtain ⟨hlt, hblk⟩ := hbitmap bitmap rfl
  refine wp_bind_of_eq_some hrun ?_
  have hdesc := h₁.counted.readInodeDesc g
  rcases hrun₁ : Fs.Ialloc.readGroupDesc g fs₁ with ⟨_ | gd, fs₂⟩ <;> rw [wp_of_eq hrun₁] at hdesc
  · exact wp_bind_of_eq_none hrun₁ (h.quiet (h₁.trans hdesc.1))
  obtain ⟨h₂, hgd⟩ := hdesc
  obtain ⟨rfl, -⟩ := hgd gd rfl
  rw [h₁.desc g hlt] at hrun₁
  replace h₂ := h₁.trans h₂
  rw [wp, bind_of_eq_some hrun₁, get_bind]
  rcases hscan : scanInodes bitmap.2 fs₂.blockSize (g * fs₂.sbi.sInodesPerGroup)
    fs₂.sbi.sInodesCount fs₂.sbi.sInodesPerGroup 0 with _ | found
  · rw [ofOption_none, fail_bind]
    exact h.quiet h₂
  rw [ofOption_some, pure_bind']
  have hwrite := h₂.counted.writeInodeBitmap hlt (bitmap.2.setBit found.1)
  rw [← hblk] at hwrite
  rcases hrun₂ : Fs.writeInodeBitmap bitmap.1 (bitmap.2.setBit found.1) fs₂ with ⟨_ | _, fs₃⟩ <;>
    rw [wp_of_eq hrun₂] at hwrite
  · rw [bind_of_eq_none hrun₂]
    exact h.quiet (h₂.trans hwrite)
  rw [bind_of_eq_some hrun₂]
  refine wp_seq (Q := fun _ fs' ↦ V.InStep n fs') ((h.quiet (h₂.trans hwrite)).storeInodeDesc
    (h.setFreeInodes hlt _) fun hloses ↦ hsafe ⟨bitmap, fs.desc g, found, fs₁, fs₂, fs₃, hrun, hrun₁,
      hscan, hrun₂, hloses⟩) (fun _ h' ↦ h') fun _ _ h' ↦ h'

/-- The loop over the groups, as long as no iteration loses its change. -/
theorem InStep.scanInodeGroups (gc startGroup : ℕ) : ∀ m scanned fs, V.InStep n fs →
    ¬ fs.LosesInodeScan gc startGroup m scanned →
    wp (Fs.scanInodeGroups gc startGroup m scanned) (fun _ fs' ↦ V.InStep n fs') fs := by
  intro m
  induction m with
  | zero => exact fun scanned fs h _ ↦ h
  | succ m ih =>
    intro scanned fs h hsafe
    unfold Fs.scanInodeGroups
    dsimp only
    rw [← visit, wp, attempt_bind]
    have htry := h.tryInodeGroup (g := visit startGroup gc scanned) fun hloses ↦ hsafe (.inl hloses)
    rcases hrun : Fs.tryInodeGroup (visit startGroup gc scanned) fs with ⟨_ | ino, fs₁⟩ <;>
      rw [wp_of_eq hrun] at htry
    · exact ih (scanned + 1) fs₁ htry fun hloses ↦ hsafe (.inr ⟨fs₁, hrun, hloses⟩)
    · exact htry

/-- A call of `ext4_new_inode_in_group` that does not lose its change. -/
theorem InStep.newInode (h : V.InStep n fs) {preferredGroup : ℕ}
    (hsafe : ¬ fs.LosesNewInode preferredGroup) :
    wp (Fs.ext4NewInodeInGroup preferredGroup) (fun _ fs' ↦ V.InStep n fs') fs := by
  unfold Fs.ext4NewInodeInGroup
  rw [wp, get_bind, guard_true h.groupDesc, pure_bind']
  by_cases hper : fs.sbi.sInodesPerGroup ≠ 0
  swap
  · rw [guard_false hper, fail_bind]
    exact h
  rw [guard_true hper, pure_bind']
  rcases mallocBlock_cases fs with ⟨hmalloc, -⟩ | hmalloc
  · rw [bind_of_eq_some hmalloc]
    exact InStep.scanInodeGroups _ _ _ _ fs h hsafe
  · rw [bind_of_eq_none hmalloc]
    exact h

/-- A call of `ext4_free_inode` that does not lose its change. -/
theorem InStep.freeInode (h : V.InStep n fs) {ino : ℕ} (hsafe : ¬ fs.LosesFreeInode ino) :
    wp (Fs.ext4FreeInode ino) (fun _ fs' ↦ V.InStep n fs') fs := by
  unfold Fs.ext4FreeInode
  rw [wp, get_bind, guard_true h.groupDesc, pure_bind']
  unfold Fs.LosesFreeInode at hsafe
  by_cases hino : ino ≠ 0
  swap
  · rw [guard_false hino, fail_bind]
    exact h
  rw [guard_true hino, pure_bind']
  generalize (ino - 1) / fs.sbi.sInodesPerGroup = g at hsafe ⊢
  generalize (ino - 1) % fs.sbi.sInodesPerGroup = i at hsafe ⊢
  by_cases hg : g < fs.sbi.sGroupsCount
  swap
  · rw [guard_false hg, fail_bind]
    exact h
  rw [guard_true hg, pure_bind']
  by_cases hi : i < fs.sbi.sInodesPerGroup
  swap
  · rw [guard_false hi, fail_bind]
    exact h
  rw [guard_true hi, pure_bind']
  rcases mallocBlock_cases fs with ⟨hmalloc, -⟩ | hmalloc
  swap
  · rw [bind_of_eq_none hmalloc]
    exact h
  rw [bind_of_eq_some hmalloc]
  -- from here on it is the bitmap, its block, and then the descriptor
  have hread := h.toCounted.readInodeBitmap g
  rcases hrun : Fs.readInodeBitmap g fs with ⟨_ | bitmap, fs₁⟩ <;> rw [wp_of_eq hrun] at hread
  · rw [bind_of_eq_none hrun]
    exact h.quiet hread.1
  obtain ⟨h₁, hbitmap⟩ := hread
  obtain ⟨hlt, hblk⟩ := hbitmap bitmap rfl
  rw [bind_of_eq_some hrun]
  by_cases hbyte : i / 8 < fs.blockSize
  swap
  · rw [guard_false hbyte, fail_bind]
    exact h.quiet h₁
  rw [guard_true hbyte, pure_bind']
  by_cases hset : bitmap.2.bit i = true
  swap
  · simp only [hset, Bool.not_false, if_true]
    exact h.quiet h₁
  simp only [hset, Bool.not_true, Bool.false_eq_true, if_false]
  have hwrite := h₁.counted.writeInodeBitmap hlt (bitmap.2.clearBit i)
  rw [← hblk] at hwrite
  rcases hrun₂ : Fs.writeInodeBitmap bitmap.1 (bitmap.2.clearBit i) fs₁ with ⟨_ | _, fs₂⟩ <;>
    rw [wp_of_eq hrun₂] at hwrite
  · rw [bind_of_eq_none hrun₂]
    exact h.quiet (h₁.trans hwrite)
  rw [bind_of_eq_some hrun₂]
  replace hwrite := h₁.trans hwrite
  have hdesc := hwrite.counted.readInodeDesc g
  rcases hrun₃ : Fs.Ialloc.readGroupDesc g fs₂ with ⟨_ | gd, fs₃⟩ <;> rw [wp_of_eq hrun₃] at hdesc
  · rw [bind_of_eq_none hrun₃]
    exact h.quiet (hwrite.trans hdesc.1)
  obtain ⟨h₃, hgd⟩ := hdesc
  obtain ⟨rfl, -⟩ := hgd gd rfl
  rw [hwrite.desc g hlt] at hrun₃
  rw [bind_of_eq_some hrun₃]
  exact (h.quiet (hwrite.trans h₃)).storeInodeDesc (h.setFreeInodes hlt _) fun hloses ↦
    hsafe ⟨bitmap, fs.desc g, fs₁, fs₂, fs₃, hrun, hrun₂, hrun₃, hloses⟩

/-! ### Flushing -/

/-- **A flush that succeeds leaves the superblock true.** -/
theorem InStep.ballocFlush (h : V.InStep n fs) :
    wp Fs.ext4BallocFlush (fun r fs' ↦ V.InStep n fs' ∧ (r = some () → fs'.SuperTrue)) fs := by
  unfold Fs.ext4BallocFlush
  refine wp_seq (Q := fun r fs' ↦ V.InStep n fs' ∧ (r = some () → fs'.SuperTrue))
    h.toCounted.bmapCacheFlush (fun _ h₁ ↦ ⟨h.quiet h₁.1, by simp⟩) fun _ fs₁ h₁ ↦ ?_
  replace h₁ := h.quiet h₁.1
  rw [wp, get_bind]
  by_cases hpending : fs₁.sbi.sBgSyncPending > 0
  · rw [if_pos hpending]
    have hpost := h₁.toCounted.syncSuperFreeCounts
    rcases hrun : Fs.ext4SyncSuperFreeCounts fs₁ with ⟨_ | _, fs₂⟩ <;> rw [wp_of_eq hrun] at hpost
    · rw [bind_of_eq_none hrun]
      exact ⟨h₁.quiet (hpost.quiet rfl), by simp⟩
    · rw [bind_of_eq_some hrun, Fs.modifySbi, modify_apply]
      obtain ⟨hblocks, hinodes⟩ := hpost.superTrue rfl h₁.inodes_lt
      have hlt : fs₂.freeInodesSum < 2 ^ 32 := by
        rw [← hinodes]
        exact Buf.getField_lt _ _ Esb.sFreeInodesCount
      have htrue : Fs.SuperTrue { fs₂ with sbi := { fs₂.sbi with sBgSyncPending := 0 } } :=
        ⟨hblocks, hinodes⟩
      exact ⟨⟨hpost.counted.withSbi _ rfl hpost.counted.groupDesc hpost.counted.cacheGroup,
        by norm_num, hlt, fun _ ↦ htrue⟩, fun _ ↦ htrue⟩
  · rw [if_neg hpending]
    exact ⟨h₁, fun _ ↦ h₁.superTrue (by omega)⟩

/-- The size of a batch matters to no count. -/
theorem InStep.setBgSyncBatch (h : V.InStep n fs) (batch : ℕ) :
    V.InStep n (fs.ext4SetBgSyncBatch batch) := by
  have hlt : (if u32 batch = 0 then 1 else u32 batch) < 2 ^ 32 := by
    have := u32_lt batch
    split <;> omega
  exact { h with
    laid := h.laid
    blockSize := h.blockSize
    geom := h.geom
    blocksCount := h.blocksCount
    groupDesc := h.groupDesc
    desc_blockBitmap := h.desc_blockBitmap
    atomic := h.atomic
    desc_inodeBitmap := h.desc_inodeBitmap
    cacheGroup := h.cacheGroup
    batch_lt := hlt
    superTrue := fun hzero ↦ ⟨(h.superTrue hzero).freeBlocks, (h.superTrue hzero).freeInodes⟩ }

end Volume

/-! ### Runs -/

namespace Fs

/-- One call of the allocators, whatever it returns. -/
inductive AllocStep : Fs → Fs → Prop
  | newBlocks (goalLen preferredGroup : ℕ) (fs : Fs) :
      AllocStep fs (fs.ext4NewBlocksInGroup goalLen preferredGroup).2
  | freeBlock (blocknr : ℕ) (fs : Fs) : AllocStep fs (fs.ext4FreeBlock blocknr).2
  | newInode (preferredGroup : ℕ) (fs : Fs) : AllocStep fs (fs.ext4NewInodeInGroup preferredGroup).2
  | freeInode (ino : ℕ) (fs : Fs) : AllocStep fs (fs.ext4FreeInode ino).2
  | setBgSyncBatch (batch : ℕ) (fs : Fs) : AllocStep fs (fs.ext4SetBgSyncBatch batch)
  | ballocFlush (fs : Fs) : AllocStep fs fs.ext4BallocFlush.2

/-- One call that does not lose its change. -/
inductive CountedStep : Fs → Fs → Prop
  | newBlocks {goalLen preferredGroup : ℕ} {fs : Fs}
      (hsafe : ¬ fs.LosesNewBlocks goalLen preferredGroup) :
      CountedStep fs (fs.ext4NewBlocksInGroup goalLen preferredGroup).2
  | freeBlock {blocknr : ℕ} {fs : Fs} (hsafe : ¬ fs.LosesFreeBlock blocknr) :
      CountedStep fs (fs.ext4FreeBlock blocknr).2
  | newInode {preferredGroup : ℕ} {fs : Fs} (hsafe : ¬ fs.LosesNewInode preferredGroup) :
      CountedStep fs (fs.ext4NewInodeInGroup preferredGroup).2
  | freeInode {ino : ℕ} {fs : Fs} (hsafe : ¬ fs.LosesFreeInode ino) :
      CountedStep fs (fs.ext4FreeInode ino).2
  | setBgSyncBatch (batch : ℕ) (fs : Fs) : CountedStep fs (fs.ext4SetBgSyncBatch batch)
  | ballocFlush (fs : Fs) : CountedStep fs fs.ext4BallocFlush.2

end Fs

namespace Volume

variable {V : Volume} {n : ℕ} {fs fs' fs'' : Fs}

/-- Each safe call keeps the counts in step. -/
theorem InStep.step (h : V.InStep n fs) (hstep : Fs.CountedStep fs fs') : V.InStep n fs' := by
  cases hstep with
  | newBlocks hsafe => exact h.newBlocks hsafe
  | freeBlock hsafe => exact h.freeBlock hsafe
  | newInode hsafe => exact h.newInode hsafe
  | freeInode hsafe => exact h.freeInode hsafe
  | setBgSyncBatch batch => exact h.setBgSyncBatch batch
  | ballocFlush => exact h.ballocFlush.1

/-- So does every run of safe calls. -/
theorem InStep.run (h : V.InStep n fs) (hrun : Relation.ReflTransGen Fs.CountedStep fs fs') :
    V.InStep n fs' := by
  induction hrun with
  | refl => exact h
  | tail _ hstep ih => exact ih.step hstep

/-- Mounting leaves nothing pending and no bitmap in the cache. -/
structure JustMounted (V : Volume) (n : ℕ) (fs : Fs) : Prop extends V.Flaky n fs where
  countsLaid : V.CountsLaid n
  desc_inodeBitmap : ∀ g < V.groups, (fs.desc g).getField 0 Gd.bgInodeBitmapLo = V.inodeBitmap g
  cache : fs.sbi.sBmapCacheValid = false
  pending : fs.sbi.sBgSyncPending = 0
  batch_lt : fs.bgSyncBatch < 2 ^ 32

/-- On a new mount with a true superblock nothing is pending. -/
theorem JustMounted.inStep (h : V.JustMounted n fs) (htrue : fs.SuperTrue) : V.InStep n fs where
  toFlaky := h.toFlaky
  countsLaid := h.countsLaid
  desc_inodeBitmap := h.desc_inodeBitmap
  cacheGroup hv := absurd hv (by simp [h.cache])
  batch_lt := h.batch_lt
  pending_lt := by
    rw [h.pending]
    norm_num
  inodes_lt := by
    rw [← htrue.freeInodes]
    exact Buf.getField_lt _ _ Esb.sFreeInodesCount
  superTrue _ := htrue

/-- A well-formed volume whose superblock is inside its block. -/
theorem WellFormed.countsLaid (h : V.WellFormed)
    (hsuper : (if V.bs = 1024 then 0 else 1024) + 1024 ≤ V.bs) : V.CountsLaid V.blocks where
  group _ hg := h.group hg
  super_le := hsuper
  inodeBitmap_ne_super g hg heq := h.inodeBitmap_not_alloc g hg (.inl heq)
  inodeBitmap_ne_desc g hg g' hg' heq := h.inodeBitmap_not_alloc g hg (.inr ⟨g', hg', .inl heq⟩)
  blocks_lt := h.laid.blocks_lt

/-- A new volume of 64 blocks after a sync, on a device that may fail. -/
def syncedFs (l : List Fault) : Fs := (Fs.ext4SyncSuperFreeCounts Mkfs.smallFs).2.withFaults l

/-- A small volume, formatted, mounted and synced. -/
theorem justMounted_small (l : List Fault) :
    (Mkfs.volume 4096 64 Mkfs.smallSb.toSbGeom).JustMounted 64 (syncedFs l) ∧
      (syncedFs l).SuperTrue := by
  obtain ⟨hgeom, hmounted⟩ := Mkfs.mounted_small
  set V := Mkfs.volume 4096 64 Mkfs.smallSb.toSbGeom
  have hbs : V.bs = 4096 := hgeom.sBlockSize
  have hblocks : V.blocks = 64 := hgeom.sBlocksCount
  have hlaid : V.CountsLaid 64 := by
    rw [← hblocks]
    exact hmounted.wf.countsLaid (by rw [hbs]; norm_num)
  have hcounted : V.Counted 64 Mkfs.smallFs :=
    ⟨flaky_small [], hlaid, hmounted.desc_inodeBitmap, fun hv ↦ (hmounted.cache hv).1,
      by decide +kernel⟩
  have hpost := hcounted.syncSuperFreeCounts
  rw [wp, show (Fs.ext4SyncSuperFreeCounts Mkfs.smallFs).1 = some () by decide +kernel] at hpost
  have hsynced := hpost.counted.withFaults l
  obtain ⟨hfree, hinodes⟩ := hpost.superTrue rfl (by decide +kernel)
  have hcache : (Fs.ext4SyncSuperFreeCounts Mkfs.smallFs).2.sbi.sBmapCacheValid = false := by
    decide +kernel
  exact ⟨⟨hsynced.toFlaky, hlaid, hsynced.desc_inodeBitmap, hcache,
    hpost.pending.trans (by decide +kernel), hsynced.batch_lt⟩, hfree, hinodes⟩

/-- The device fails the third call, which writes the bitmap. -/
def unwrittenFs : Fs := syncedFs (List.replicate 2 .pass ++ [.fail Buf.zero])

/-- The device fails its seventh call. -/
def staleFs : Fs := syncedFs (List.replicate 6 .pass ++ [.fail Buf.zero])

end Volume

end MiniExt4
