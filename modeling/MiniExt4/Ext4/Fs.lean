import MiniExt4.Ext4.Io
import MiniExt4.Ext4.Layout

/-!
# A mounted filesystem

`Fs` is the state the functions of `fs/ext4` share: the device, what mounting kept of the superblock
(`struct ext4_sb_info`) and the file-scope variables. A pointer that some function compares with
`NULL` is an `Option`.

Each source file has a static pool of buffers behind its `malloc`. A function that frees all it took
finds its pool as it was, so only the size of the request can fail it (`mallocBlock`); the pools that
can be used up by calls in progress or by leaks are counted.
-/

namespace MiniExt4

open StateErr

/-- The part of `struct ext4_sb_info` that is read when mounting and never changes. -/
structure SbGeom where
  sBlocksPerGroup : ℕ
  sInodesPerGroup : ℕ
  sInodesCount : ℕ
  sBlocksCount : ℕ
  sFirstDataBlock : ℕ
  sBlockSize : ℕ
  sGroupsCount : ℕ
  sDescSize : ℕ
  sRootIno : ℕ
  sHashSeed : ℕ → ℕ
  sDefHashVersion : ℕ

/-- `struct ext4_sb_info` -/
structure SbInfo extends SbGeom where
  /-- the copy of the descriptor of group 0 -/
  sGroupDesc : Option Buf
  /-- `s_alloc_nf.goal_group` -/
  goalGroup : ℕ
  /-- `s_alloc_nf.goal_bit_per_group` -/
  goalBitPerGroup : Option (ℕ → ℕ)
  sBmapCacheGroup : ℕ
  sBmapCacheValid : Bool
  sBmapCacheDirty : Bool
  sBmapCacheBuf : Buf
  sBgSyncPending : ℕ

/-- The state of a mounted filesystem. -/
structure Fs where
  dev : BlockDevice
  /-- `ext4_block_size` of `io.c` -/
  blockSize : ℕ
  /-- `ext4_fs_blocks_count` of `super.c` -/
  fsBlocksCount : ℕ
  sbi : SbInfo
  /-- `ext4_bg_sync_batch` of `balloc.c` -/
  bgSyncBatch : ℕ
  /-- `ext4_prealloc_goal_len` of `extents.c` -/
  preallocGoalLen : ℕ
  /-- free slots of 65536 bytes in the pool of `super.c` -/
  superPool : ℕ
  /-- free slots in the pool of `extents.c` -/
  extPool : ℕ

namespace Fs

/-- Run block I/O on the filesystem's device. -/
def io {α : Type} (x : StateErr BlockDevice α) : StateErr Fs α :=
  zoom Fs.dev (fun fs d ↦ { fs with dev := d }) x

/-- `ext4_read_block(blocknr, buf)` -/
def readBlock (blocknr : ℕ) : StateErr Fs Buf := fun fs ↦
  io (ext4ReadBlock fs.blockSize blocknr) fs

/-- `ext4_write_block(blocknr, buf)` -/
def writeBlock (blocknr : ℕ) (buf : Buf) : StateErr Fs Unit := fun fs ↦
  io (ext4WriteBlock fs.blockSize blocknr buf) fs

/-- Change the superblock info. -/
def modifySbi (f : SbInfo → SbInfo) : StateErr Fs Unit :=
  modify fun fs ↦ { fs with sbi := f fs.sbi }

/-- `malloc(block_size)` from a pool of `BLOCK_SIZE` slots that is full between calls. -/
def mallocBlock : StateErr Fs Unit := do
  let fs ← get
  guard (fs.blockSize ≤ blockSizeDefault)

/-- The contents of block `b`. -/
def block (fs : Fs) (b : ℕ) : Buf := fs.dev.block fs.blockSize b

end Fs

/-! ### Group descriptors -/

/-- `copy_sz`, the part of a descriptor that is in memory. -/
def SbGeom.copySz (sbi : SbGeom) : ℕ := if sbi.sDescSize > Gd.size then Gd.size else sbi.sDescSize

/-- The block and the offset in it of the descriptor of a group. -/
def SbGeom.descLoc (sbi : SbGeom) (blockSize group : ℕ) : ℕ × ℕ :=
  let gdBase := if blockSize = 1024 then 2 else u32 (sbi.sFirstDataBlock + 1)
  let descOff := u32 (group * sbi.sDescSize)
  (u32 (gdBase + descOff / blockSize), descOff % blockSize)

namespace Fs

/-- `ext4_read_group_desc(sb, group, out_gd)` of `balloc.c`; the caller has checked `sbi`. -/
def readGroupDesc (group : ℕ) : StateErr Fs Buf := do
  let fs ← get
  guard (fs.sbi.sDescSize ≠ 0)
  let loc := fs.sbi.descLoc fs.blockSize group
  guard (loc.2 + fs.sbi.copySz ≤ fs.blockSize)
  mallocBlock
  let buf ← readBlock loc.1
  pure (Buf.zero.blit 0 buf loc.2 fs.sbi.copySz)

/-- `ext4_write_group_desc(sb, group, gd)` of `balloc.c`. -/
def writeGroupDesc (group : ℕ) (gd : Buf) : StateErr Fs Unit := do
  let fs ← get
  guard (fs.sbi.sDescSize ≠ 0)
  let loc := fs.sbi.descLoc fs.blockSize group
  guard (loc.2 + fs.sbi.copySz ≤ fs.blockSize)
  mallocBlock
  let buf ← readBlock loc.1
  writeBlock loc.1 (buf.blit loc.2 gd 0 fs.sbi.copySz)

/-- `gd_buf` for a descriptor in block `blk`, where it holds block `cur`. -/
def refillGdBuf (blk cur : ℕ) (gdBuf : Buf) : StateErr Fs Buf :=
  if blk ≠ cur then readBlock blk else pure gdBuf

/-- The sums of `ext4_sync_super_free_counts` over the `n` groups from `g`. -/
def sumFreeCounts : ℕ → ℕ → ℕ → Buf → ℕ → ℕ → StateErr Fs (ℕ × ℕ)
  | 0, _, _, _, freeBlocks, freeInodes => pure (freeBlocks, freeInodes)
  | n + 1, g, cur, gdBuf, freeBlocks, freeInodes => do
    let fs ← get
    let loc := fs.sbi.descLoc fs.sbi.sBlockSize g
    if loc.2 + fs.sbi.copySz > fs.sbi.sBlockSize then
      sumFreeCounts n (g + 1) cur gdBuf freeBlocks freeInodes
    else
      let gdBuf ← refillGdBuf loc.1 cur gdBuf
      let gd := Buf.zero.blit 0 gdBuf loc.2 fs.sbi.copySz
      let fb := gd.getField 0 Gd.bgFreeBlocksCountLo + gd.getField 0 Gd.bgFreeBlocksCountHi * 2 ^ 16
      let fi := gd.getField 0 Gd.bgFreeInodesCountLo + gd.getField 0 Gd.bgFreeInodesCountHi * 2 ^ 16
      sumFreeCounts n (g + 1) loc.1 gdBuf (freeBlocks + fb) (u32 (freeInodes + fi))

/-- `ext4_sync_super_free_counts(sb)` -/
def ext4SyncSuperFreeCounts : StateErr Fs Unit := do
  let fs ← get
  guard (fs.sbi.sGroupDesc.isSome)
  let sbBlocknr := if fs.sbi.sBlockSize = 1024 then 1 else 0
  let o := if fs.sbi.sBlockSize = 1024 then 0 else 1024
  guard (fs.sbi.sBlockSize ≤ 65536 ∧ 2 ≤ fs.superPool)
  let sbBuf ← readBlock sbBlocknr
  let free ← sumFreeCounts fs.sbi.sGroupsCount 0 (2 ^ 32 - 1) Buf.zero 0 0
  writeBlock sbBlocknr
    (sbBuf
      |>.setField o Esb.sFreeBlocksCountLo free.1
      |>.setField o Esb.sFreeBlocksCountHi (free.1 / 2 ^ 32)
      |>.setField o Esb.sFreeInodesCount free.2)

end Fs

end MiniExt4
