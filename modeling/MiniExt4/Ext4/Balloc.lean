import MiniExt4.Ext4.Fs

/-!
# The block allocator (`fs/ext4/balloc.c`)

One block bitmap is cached in memory. `ext4_new_blocks_in_group` searches it group by group from a
next-fit cursor, marks the run in the cache and flushes it before returning; `ext4_free_block` edits
the bitmap on disk and drops the cache.

A loop iteration ends in one of three ways: `continue`, a run was allocated, or the whole call
returns 0. The first two are the values `none` and `some` of `tryGroup`, the last is its failure.
-/

namespace MiniExt4

open StateErr

namespace Fs

/-- `ext4_read_block_bitmap(sb, group, bitmap_buf)`: the bitmap's block and its contents. -/
def readBlockBitmap (group : ℕ) : StateErr Fs (ℕ × Buf) := do
  let fs ← get
  guard (group < fs.sbi.sGroupsCount)
  let gd ← readGroupDesc group
  let bitmapBlock := gd.getField 0 Gd.bgBlockBitmapLo
  let buf ← readBlock bitmapBlock
  -- block 0 is taken for a failure
  guard (bitmapBlock ≠ 0)
  pure (bitmapBlock, buf)

/-- `ext4_write_block_bitmap(sb, bitmap_block, bitmap_buf)` -/
def writeBlockBitmap (bitmapBlock : ℕ) (buf : Buf) : StateErr Fs Unit := do
  guard (bitmapBlock ≠ 0)
  writeBlock bitmapBlock buf

/-- `ext4_bmap_cache_flush(sb, sbi)` -/
def bmapCacheFlush : StateErr Fs Unit := do
  let fs ← get
  if fs.sbi.sBmapCacheValid && fs.sbi.sBmapCacheDirty then
    let gd ← readGroupDesc fs.sbi.sBmapCacheGroup
    writeBlockBitmap (gd.getField 0 Gd.bgBlockBitmapLo) fs.sbi.sBmapCacheBuf
    modifySbi fun sbi ↦ { sbi with sBmapCacheDirty := false }
  else pure ()

/-- `ext4_read_block(blocknr, sbi->s_bmap_cache_buf)`. A read that fails may have scribbled over the
cached bitmap. -/
def readBmapCache (blocknr : ℕ) : StateErr Fs Unit := fun fs ↦
  let r := ext4ReadBlockInto fs.blockSize blocknr fs.sbi.sBmapCacheBuf fs.dev
  (if r.1.1 then some () else none,
    { fs with dev := r.2, sbi := { fs.sbi with sBmapCacheBuf := r.1.2 } })

/-- `ext4_bmap_cache_load(sb, sbi, group, gd_local)`, with what it leaves in `*gd_local`. -/
def bmapCacheLoad (group : ℕ) (gd : Buf) : StateErr Fs Buf := do
  let fs ← get
  if fs.sbi.sBmapCacheValid && fs.sbi.sBmapCacheGroup == group then pure gd
  else
    bmapCacheFlush
    let gd ← readGroupDesc group
    guard (gd.getField 0 Gd.bgBlockBitmapLo ≠ 0)
    readBmapCache (gd.getField 0 Gd.bgBlockBitmapLo)
    modifySbi fun sbi ↦
      { sbi with sBmapCacheGroup := group, sBmapCacheValid := true, sBmapCacheDirty := false }
    pure gd

end Fs

/-! ### Searching a bitmap -/

/-- The variables of `ext4_bmap_scan_free_run`: the run that ends at the current bit, and the
longest one so far. -/
structure FreeRun where
  start : ℕ
  len : ℕ
  startBit : ℕ
  allocLen : ℕ

/-- The loop over `n` bits from bit `i`. -/
def scanLoop (bitmap : Buf) (goalLen : ℕ) : ℕ → ℕ → FreeRun → FreeRun
  | 0, _, r => r
  | n + 1, i, r =>
    let r := if bitmap.bit i then { r with len := 0 } else
      { r with start := if r.len = 0 then i else r.start, len := r.len + 1 }
    let r := if r.len > r.allocLen then { r with allocLen := r.len, startBit := r.start } else r
    if r.allocLen ≥ goalLen then r else scanLoop bitmap goalLen n (i + 1) r

/-- `ext4_bmap_scan_free_run`: whether a run was found, `*start_bit` and `*alloc_len`. -/
def bmapScanFreeRun (bitmap : Buf) (blockSize scanBegin scanEnd goalLen startBit allocLen : ℕ)
    (mustFull : Bool) : Bool × ℕ × ℕ :=
  if scanEnd > blockSize * 8 then (false, startBit, allocLen)
  else if scanBegin ≥ scanEnd then (false, startBit, allocLen)
  else
    let r := scanLoop bitmap goalLen (scanEnd - scanBegin) scanBegin ⟨0, 0, startBit, allocLen⟩
    (if mustFull then decide (r.allocLen ≥ goalLen) else decide (r.allocLen > 0),
      r.startBit, r.allocLen)

namespace Fs

/-! ### Allocation -/

/-- The geometry `ext4_new_blocks_in_group` works with: `blocks_per_group`, `blocks_count` and
`groups_count`. It returns 0 where this is `none`. -/
def allocGeometry (fs : Fs) : Option (ℕ × ℕ × ℕ) :=
  if fs.blockSize = 0 then none
  else
    let blocksPerGroup := u32 (fs.blockSize * 8)
    if blocksPerGroup = 0 then none
    else
      let blocksCount :=
        if fs.sbi.sBlocksCount > 0 ∧
            (fs.fsBlocksCount = 0 ∨ fs.sbi.sBlocksCount < fs.fsBlocksCount) then
          fs.sbi.sBlocksCount
        else fs.fsBlocksCount
      if blocksCount = 0 then none
      else
        let totalSectors := u32 fs.dev.bdNrSectors
        let devBlocks := totalSectors / ext4SectorsPerBlock fs.blockSize fs.dev
        let blocksCount := if devBlocks > 0 ∧ blocksCount > devBlocks then devBlocks else blocksCount
        let blocksPerGroup := if blocksPerGroup > blocksCount then blocksCount else blocksPerGroup
        let byGroups := u32 (fs.sbi.sGroupsCount * blocksPerGroup)
        let blocksCount :=
          if fs.sbi.sGroupsCount > 0 ∧ byGroups > 0 ∧ byGroups < blocksCount then byGroups
          else blocksCount
        let groupsCount := u32 (blocksCount + blocksPerGroup - 1) / blocksPerGroup
        if groupsCount = 0 then none else some (blocksPerGroup, blocksCount, groupsCount)

end Fs

/-- The next-fit cursors after the bits of group `g` up to `nextBit` were allocated. -/
def SbInfo.advanceGoal (sbi : SbInfo) (g nextBit groupBlocks groupsCount : ℕ) : SbInfo :=
  let next := if g + 1 < groupsCount then g + 1 else 0
  match sbi.goalBitPerGroup with
  | some goalBit =>
    if g < sbi.sGroupsCount then
      if nextBit ≥ groupBlocks then
        { sbi with goalBitPerGroup := some (Function.update goalBit g 1), goalGroup := next }
      else { sbi with goalBitPerGroup := some (Function.update goalBit g nextBit), goalGroup := g }
    else { sbi with goalGroup := if nextBit ≥ groupBlocks then next else g }
  | none => { sbi with goalGroup := if nextBit ≥ groupBlocks then next else g }

/-- Only the cursors move. -/
theorem SbInfo.advanceGoal_keeps (sbi : SbInfo) (g nextBit groupBlocks groupsCount : ℕ) :
    let sbi' := sbi.advanceGoal g nextBit groupBlocks groupsCount
    sbi'.toSbGeom = sbi.toSbGeom ∧ sbi'.sGroupDesc = sbi.sGroupDesc ∧
      sbi'.sBmapCacheValid = sbi.sBmapCacheValid ∧ sbi'.sBmapCacheGroup = sbi.sBmapCacheGroup ∧
      sbi'.sBmapCacheDirty = sbi.sBmapCacheDirty ∧ sbi'.sBmapCacheBuf = sbi.sBmapCacheBuf := by
  unfold advanceGoal
  rcases sbi.goalBitPerGroup with _ | goalBit
  · exact ⟨rfl, rfl, rfl, rfl, rfl, rfl⟩
  · dsimp only
    split
    · split <;> exact ⟨rfl, rfl, rfl, rfl, rfl, rfl⟩
    · exact ⟨rfl, rfl, rfl, rfl, rfl, rfl⟩

namespace Fs

/-- `start_i`, the bit the search of a group starts from. -/
def startBit (fs : Fs) (g groupBlocks : ℕ) : ℕ :=
  match fs.sbi.goalBitPerGroup with
  | some goalBit =>
    if g < fs.sbi.sGroupsCount ∧ goalBit g ≥ 1 ∧ goalBit g < groupBlocks then goalBit g else 1
  | none => 1

/-- The search of the cached bitmap from the cursor and then from the start: whether a run was
found, `i` and `alloc_len`. -/
def scanGroup (fs : Fs) (g groupBlocks goalLen : ℕ) (requireFullGoal : Bool) : Bool × ℕ × ℕ :=
  let startI := fs.startBit g groupBlocks
  let r := bmapScanFreeRun fs.sbi.sBmapCacheBuf fs.blockSize startI groupBlocks goalLen 0 0
    requireFullGoal
  if !r.1 && decide (startI > 1) then
    bmapScanFreeRun fs.sbi.sBmapCacheBuf fs.blockSize 1 startI goalLen r.2.1 r.2.2 requireFullGoal
  else r

/-- The counts of the superblock are written back once every `ext4_bg_sync_batch` changes. -/
def bgSync : StateErr Fs Unit := do
  modifySbi fun sbi ↦ { sbi with sBgSyncPending := u32 (sbi.sBgSyncPending + 1) }
  let fs ← get
  if fs.sbi.sBgSyncPending ≥ fs.bgSyncBatch then
    let _ ← attempt ext4SyncSuperFreeCounts
    modifySbi fun sbi ↦ { sbi with sBgSyncPending := 0 }
  else pure ()

/-- Write back a changed descriptor, and keep the copy of group 0's in step. -/
def storeGroupDesc (g : ℕ) (gd : Buf) : StateErr Fs Unit := do
  writeGroupDesc g gd
  modifySbi fun sbi ↦ if g = 0 then { sbi with sGroupDesc := some gd } else sbi

/-- The part of an iteration after a run of `allocLen` bits from bit `i` was found. -/
def takeRun (blocksCount groupsCount g groupStart groupBlocks i allocLen : ℕ) (gd : Buf) :
    StateErr Fs (ℕ × ℕ) := do
  modifySbi fun sbi ↦ { sbi with sBmapCacheBuf := sbi.sBmapCacheBuf.setBits i (i + allocLen) }
  let newBlock := u32 (groupStart + i)
  guard (¬ (newBlock < groupStart ∨ newBlock ≥ blocksCount))
  guard (allocLen ≠ 0)
  guard (u32 (newBlock + allocLen) ≤ blocksCount)
  modifySbi fun sbi ↦ { sbi with sBmapCacheDirty := true }
  bmapCacheFlush
  let free := gd.getField 0 Gd.bgFreeBlocksCountLo
  storeGroupDesc g
    (gd.setField 0 Gd.bgFreeBlocksCountLo (if free > allocLen then free - allocLen else 0))
  modifySbi fun sbi ↦ sbi.advanceGoal g (u32 (i + allocLen)) groupBlocks groupsCount
  bgSync
  pure (newBlock, allocLen)

/-- One iteration over group `g` of the loop of `ext4_new_blocks_in_group`. -/
def tryGroup (goalLen : ℕ) (requireFullGoal : Bool) (blocksPerGroup blocksCount groupsCount g : ℕ) :
    StateErr Fs (Option (ℕ × ℕ)) := do
  let groupStart := u32 (g * blocksPerGroup)
  if groupStart ≥ blocksCount then pure none
  else
    let groupBlocks :=
      if u32 (groupStart + blocksPerGroup) > blocksCount then blocksCount - groupStart
      else blocksPerGroup
    if groupBlocks ≤ 1 then pure none
    else
      match ← attempt (readGroupDesc g) with
      | none => pure none
      | some gd =>
        if gd.getField 0 Gd.bgBlockBitmapLo = 0 then pure none
        else
          match ← attempt (bmapCacheLoad g gd) with
          | none => pure none
          | some gd =>
            let fs ← get
            let run := fs.scanGroup g groupBlocks goalLen requireFullGoal
            if !run.1 then pure none
            else
              let r ← takeRun blocksCount groupsCount g groupStart groupBlocks run.2.1 run.2.2 gd
              pure (some r)

/-- The loop over the `n` groups that are left, from the one `scanned` after `startGroup`. -/
def scanGroups (goalLen : ℕ) (requireFullGoal : Bool)
    (blocksPerGroup blocksCount groupsCount startGroup : ℕ) :
    ℕ → ℕ → StateErr Fs (Option (ℕ × ℕ))
  | 0, _ => pure none
  | n + 1, scanned => do
    let g := if startGroup + scanned ≥ groupsCount then startGroup + scanned - groupsCount
      else startGroup + scanned
    match ← tryGroup goalLen requireFullGoal blocksPerGroup blocksCount groupsCount g with
    | some r => pure (some r)
    | none =>
      scanGroups goalLen requireFullGoal blocksPerGroup blocksCount groupsCount startGroup n
        (scanned + 1)

/-- `ext4_new_blocks_in_group(sb, goal_len, out_len, preferred_group)`: the first block of the run
and `*out_len`. A `goal_len` above 1 is first searched for in full, in every group. -/
def ext4NewBlocksInGroup (goalLen preferredGroup : ℕ) : StateErr Fs (ℕ × ℕ) := do
  let fs ← get
  guard fs.sbi.sGroupDesc.isSome
  let geom ← ofOption fs.allocGeometry
  let blocksPerGroup := geom.1
  let blocksCount := geom.2.1
  let groupsCount := geom.2.2
  let goalLen := if goalLen = 0 then 1 else goalLen
  let startGroup := if preferredGroup < groupsCount then preferredGroup else fs.sbi.goalGroup
  let startGroup := if startGroup ≥ groupsCount then 0 else startGroup
  let pass (requireFullGoal : Bool) :=
    scanGroups goalLen requireFullGoal blocksPerGroup blocksCount groupsCount startGroup
      groupsCount 0
  match ← pass (decide (goalLen > 1)) with
  | some r => pure r
  | none =>
    if goalLen = 1 then fail
    else
      match ← pass false with
      | some r => pure r
      | none => fail

/-- `ext4_new_blocks(sb, goal_len, out_len)` -/
def ext4NewBlocks (goalLen : ℕ) : StateErr Fs (ℕ × ℕ) := ext4NewBlocksInGroup goalLen (2 ^ 32 - 1)

/-- `ext4_new_block(sb)` -/
def ext4NewBlock : StateErr Fs ℕ := do
  let r ← ext4NewBlocks 1
  pure r.1

/-- `ext4_new_block_in_group(sb, preferred_group)` -/
def ext4NewBlockInGroup (preferredGroup : ℕ) : StateErr Fs ℕ := do
  let r ← ext4NewBlocksInGroup 1 preferredGroup
  pure r.1

end Fs

/-! ### Freeing -/

/-- The cache may hold the bitmap of the group as it was before the block was freed. -/
def SbInfo.dropBmapCache (sbi : SbInfo) (group : ℕ) : SbInfo :=
  if sbi.sBmapCacheValid && sbi.sBmapCacheGroup == group then
    { sbi with sBmapCacheValid := false, sBmapCacheDirty := false }
  else sbi

/-- A cache that is kept is of another group. -/
theorem SbInfo.eq_of_dropBmapCache_valid {sbi : SbInfo} {group : ℕ}
    (h : (sbi.dropBmapCache group).sBmapCacheValid = true) :
    sbi.dropBmapCache group = sbi ∧ sbi.sBmapCacheGroup ≠ group := by
  unfold dropBmapCache at h ⊢
  by_cases hhit : (sbi.sBmapCacheValid && sbi.sBmapCacheGroup == group) = true
  · simp [hhit] at h
  · rw [if_neg hhit] at h ⊢
    simp only [h, Bool.true_and, beq_iff_eq] at hhit
    exact ⟨rfl, hhit⟩

/-- Only the cache is dropped. -/
theorem SbInfo.dropBmapCache_keeps (sbi : SbInfo) (group : ℕ) :
    (sbi.dropBmapCache group).toSbGeom = sbi.toSbGeom ∧
      (sbi.dropBmapCache group).sGroupDesc = sbi.sGroupDesc := by
  unfold dropBmapCache
  split <;> exact ⟨rfl, rfl⟩

namespace Fs

/-- `ext4_free_block(sb, blocknr)` -/
def ext4FreeBlock (blocknr : ℕ) : StateErr Fs Unit := do
  let fs ← get
  let group := blocknr / fs.sbi.sBlocksPerGroup
  let blockInGroup := blocknr % fs.sbi.sBlocksPerGroup
  guard fs.sbi.sGroupDesc.isSome
  guard (group < fs.sbi.sGroupsCount)
  guard (blockInGroup < fs.sbi.sBlocksPerGroup)
  mallocBlock
  let bitmap ← readBlockBitmap group
  guard (blockInGroup / 8 < fs.blockSize)
  if !bitmap.2.bit blockInGroup then pure ()
  else
    writeBlockBitmap bitmap.1 (bitmap.2.clearBit blockInGroup)
    let gd ← readGroupDesc group
    storeGroupDesc group
      (gd.setField 0 Gd.bgFreeBlocksCountLo (gd.getField 0 Gd.bgFreeBlocksCountLo + 1))
    bgSync
    modifySbi fun sbi ↦ sbi.dropBmapCache group

/-- `ext4_balloc_flush(sb)` -/
def ext4BallocFlush : StateErr Fs Unit := do
  bmapCacheFlush
  let fs ← get
  if fs.sbi.sBgSyncPending > 0 then
    ext4SyncSuperFreeCounts
    modifySbi fun sbi ↦ { sbi with sBgSyncPending := 0 }
  else pure ()

end Fs

end MiniExt4
