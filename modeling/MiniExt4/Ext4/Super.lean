import MiniExt4.Ext4.Balloc
import MiniExt4.Ext4.Mkfs

/-!
# Mounting (`ext4_fill_super` in `fs/ext4/super.c`)

Mounting reads the superblock with the default block size, formats a device that has none, and keeps
what it needs in `struct ext4_sb_info`. Numbers a damaged superblock has as 0 are replaced by numbers
derived from the others or from the size of the device. The root inode and the root dentry are the
business of the layer above.

The buffers come from a pool of 256 slots of which mounting keeps four.
-/

namespace MiniExt4

open StateErr

namespace FillSuper

/-- `total_blocks` for a device without a superblock. -/
def formatBlocks (d : BlockDevice) : ℕ :=
  let totalSectors := u32 d.bdNrSectors
  let totalBlocks :=
    if totalSectors > 0 then totalSectors / ext4SectorsPerBlock blockSizeDefault d else 16384
  if totalBlocks < 1024 then 1024 else totalBlocks

/-- The block of the superblock, after formatting a device that has none. -/
def readSuper (now : ℕ) : StateErr BlockDevice Buf := do
  let buf ← ext4ReadBlock blockSizeDefault 0
  if buf.getField 1024 Esb.sMagic ≠ ext4SuperMagic then
    let d ← get
    ext4Mkfs now blockSizeDefault (formatBlocks d)
    ext4ReadBlock blockSizeDefault 0
  else pure buf

/-- `desc_size`: only 32 to 64 bytes, and a multiple of 8. -/
def descSize (buf : Buf) : ℕ :=
  let descSize := buf.getField 1024 Esb.sDescSize
  if descSize = 0 ∨ descSize < 32 ∨ descSize > Gd.size ∨ descSize % 8 ≠ 0 then 32 else descSize

/-- `sbi->s_blocks_count`, from the size of the device if the superblock has 0. -/
def blocksCount (buf : Buf) (blockSize : ℕ) (d : BlockDevice) : Option ℕ :=
  let count := buf.getField 1024 Esb.sBlocksCountLo
  if count ≠ 0 then some count
  else
    let fallback := u32 d.bdNrSectors / ext4SectorsPerBlock blockSize d
    if fallback = 0 then none else some fallback

/-- `sbi->s_blocks_per_group` -/
def blocksPerGroup (buf : Buf) (blockSize blocksCount : ℕ) : ℕ :=
  let count := buf.getField 1024 Esb.sBlocksPerGroup
  if count ≠ 0 then count
  else
    let fallback := u32 (blockSize * 8)
    if fallback = 0 ∨ fallback > blocksCount then blocksCount else fallback

/-- `sbi->s_inodes_per_group` -/
def inodesPerGroup (buf : Buf) (blocksPerGroup : ℕ) : ℕ :=
  let count := buf.getField 1024 Esb.sInodesPerGroup
  if count ≠ 0 then count else if blocksPerGroup / 4 = 0 then 1 else blocksPerGroup / 4

/-- `block_size`. The target takes a shift count modulo 32. -/
def blockSize (buf : Buf) : ℕ := u32 (1024 * 2 ^ (buf.getField 1024 Esb.sLogBlockSize % 32))

/-- The numbers kept of the superblock, of a volume of `count` blocks. -/
def geometry (buf : Buf) (count : ℕ) : SbGeom where
  sBlocksPerGroup := blocksPerGroup buf (blockSize buf) count
  sInodesPerGroup := inodesPerGroup buf (blocksPerGroup buf (blockSize buf) count)
  sInodesCount := buf.getField 1024 Esb.sInodesCount
  sBlocksCount := count
  sFirstDataBlock := buf.getField 1024 Esb.sFirstDataBlock
  sBlockSize := blockSize buf
  sGroupsCount :=
    u32 (count + blocksPerGroup buf (blockSize buf) count - 1) /
      blocksPerGroup buf (blockSize buf) count
  sDescSize := descSize buf
  sRootIno := 2
  sHashSeed := fun i ↦ buf.le (1024 + Esb.sHashSeed + 4 * i) 4
  sDefHashVersion := buf.getField 1024 Esb.sDefHashVersion

/-- The block numbers of group 0 when its inode table is not inside the volume. -/
def rebuildDesc (geom : SbGeom) (gd : Buf) : Buf :=
  let table := gd.getField 0 Gd.bgInodeTableLo
  if table = 0 ∨ table ≥ geom.sBlocksCount then
    let gdBlocks := u32 (geom.sGroupsCount * geom.sDescSize + geom.sBlockSize - 1) / geom.sBlockSize
    let bmap := u32 (geom.sFirstDataBlock + 1 + gdBlocks)
    gd
      |>.setField 0 Gd.bgBlockBitmapLo bmap
      |>.setField 0 Gd.bgInodeBitmapLo (bmap + 1)
      |>.setField 0 Gd.bgInodeTableLo (bmap + 2)
  else gd

/-- A free inode count of 0 is replaced. `buf` is the buffer `esb` still points into. -/
def refillFreeInodes (geom : SbGeom) (buf gd : Buf) : Buf :=
  if gd.getField 0 Gd.bgFreeInodesCountLo = 0 then
    let firstIno := buf.getField 1024 Esb.sFirstIno
    let reserved := if firstIno > 1 then firstIno - 1 else 1
    let reserved :=
      if reserved ≥ geom.sInodesPerGroup ∧ geom.sInodesPerGroup ≥ 2 then 2 else reserved
    let free := if geom.sInodesPerGroup > reserved then u16 (geom.sInodesPerGroup - reserved) else 1
    gd
      |>.setField 0 Gd.bgFreeInodesCountLo free
      |>.setField 0 Gd.bgItableUnusedLo 0
      |>.setField 0 Gd.bgItableUnusedHi 0
      |>.setField 0 Gd.bgUsedDirsCountLo 1
  else gd

/-- A free block count of 0 is replaced. -/
def refillFreeBlocks (geom : SbGeom) (gd : Buf) : Buf :=
  if gd.getField 0 Gd.bgFreeBlocksCountLo = 0 then
    let inodeTableBlocks :=
      u32 (geom.sInodesPerGroup * 256 + geom.sBlockSize - 1) / geom.sBlockSize
    let gdBlocks := u32 (geom.sGroupsCount * geom.sDescSize + geom.sBlockSize - 1) / geom.sBlockSize
    let used := u32 (1 + gdBlocks + 1 + 1 + inodeTableBlocks + 1)
    let free := if geom.sBlocksPerGroup > used then u16 (geom.sBlocksPerGroup - used) else 1
    gd.setField 0 Gd.bgFreeBlocksCountLo free
  else gd

/-- `sbi->s_group_desc`, the descriptor of group 0 with its counts made plausible. -/
def readGroupDesc0 (geom : SbGeom) (buf : Buf) : StateErr BlockDevice (Option Buf) :=
  if geom.sGroupsCount > 0 then do
    let gdBuf ← ext4ReadBlock geom.sBlockSize
      (if geom.sBlockSize = 1024 then 2 else u32 (geom.sFirstDataBlock + 1))
    let gd := (Buf.zero.blit 0 gdBuf 0 geom.copySz).setField 0 Gd.bgFlags 0
    let buf := buf.blit 0 gdBuf 0 geom.sBlockSize
    pure (some (refillFreeBlocks geom (refillFreeInodes geom buf (rebuildDesc geom gd))))
  else pure none

end FillSuper

open FillSuper in
/-- `ext4_fill_super(sb, data)` up to the root inode: the superblock info. -/
def ext4FillSuper (now : ℕ) : StateErr BlockDevice SbInfo := do
  let buf ← readSuper now
  guard (1024 ≤ FillSuper.blockSize buf ∧ FillSuper.blockSize buf ≤ 65536)
  let d ← get
  let count ← ofOption (FillSuper.blocksCount buf (FillSuper.blockSize buf) d)
  guard ((geometry buf count).sGroupsCount * 4 ≤ 65536)
  let sGroupDesc ← readGroupDesc0 (geometry buf count) buf
  pure
    { toSbGeom := geometry buf count
      sGroupDesc
      goalGroup := 0
      goalBitPerGroup := if (geometry buf count).sGroupsCount > 0 then some fun _ ↦ 1 else none
      sBmapCacheGroup := 0
      sBmapCacheValid := false
      sBmapCacheDirty := false
      sBmapCacheBuf := Buf.zero
      sBgSyncPending := 0 }

/-- The filesystem right after mounting, under the tunables in force. -/
def Fs.ofMount (dev : BlockDevice) (sbi : SbInfo) (bgSyncBatch preallocGoalLen : ℕ) : Fs where
  dev
  blockSize := sbi.sBlockSize
  fsBlocksCount := sbi.sBlocksCount
  sbi
  bgSyncBatch
  preallocGoalLen
  superPool := 256 - 4
  extPool := 8

end MiniExt4
