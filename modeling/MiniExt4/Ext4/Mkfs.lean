import MiniExt4.Ext4.Io
import MiniExt4.Ext4.Layout

/-!
# Formatting (`ext4_mkfs` in `fs/ext4/super.c`)

The numbers `ext4_mkfs` derives from its two arguments are definitions of their own, named after the
source's local variables; the function itself is the source's sequence of block writes. All of its
arithmetic is `uint32_t`. The backup superblocks and descriptor tables of the other groups copy the
primary ones.
-/

namespace MiniExt4

open StateErr

/-- The loop `while (v > 1U) { v >>= 1; log++; }`. -/
def ext4LogLoop : ℕ → ℕ → ℕ → ℕ
  | 0, _, log => log
  | fuel + 1, v, log => if v > 1 then ext4LogLoop fuel (v >>> 1) (log + 1) else log

/-- `ext4_block_size_to_log` -/
def ext4BlockSizeToLog (blockSize : ℕ) : Option ℕ :=
  if blockSize < 1024 ∨ blockSize > 65536 then none
  else if blockSize &&& (blockSize - 1) ≠ 0 then none
  else
    let v := blockSize >>> 10
    if v = 0 then none else some (ext4LogLoop 32 v 0)

namespace Mkfs

variable (bs total : ℕ)

/-- `blocks_per_group`: what one bitmap block can describe, or the whole small device. -/
def blocksPerGroup : ℕ := if total ≤ bs * 8 then total else bs * 8

/-- `inodes_per_group` -/
def inodesPerGroup : ℕ := blocksPerGroup bs total

/-- `groups_count`; the sum wraps for a device of almost `2 ^ 32` blocks. -/
def groupsCount : ℕ := u32 (total + blocksPerGroup bs total - 1) / blocksPerGroup bs total

/-- `first_data_block` -/
def firstDataBlock : ℕ := if bs = 1024 then 1 else 0

/-- `inode_size` -/
def inodeSize : ℕ := 256

/-- `reserved_inodes_g0` -/
def reservedInodesG0 : ℕ :=
  if inodesPerGroup bs total ≥ 10 then 10
  else if inodesPerGroup bs total ≥ 2 then 2
  else inodesPerGroup bs total

/-- `sb_blocknr` -/
def sbBlocknr : ℕ := if bs = 1024 then 1 else 0

/-- `sb_offset` -/
def sbOffset : ℕ := if bs = 1024 then 0 else 1024

/-- `inode_table_blocks` -/
def inodeTableBlocks : ℕ := u32 (u32 (inodesPerGroup bs total * inodeSize) + bs - 1) / bs

/-- `gd_entry_size` -/
def gdEntrySize : ℕ := 32

/-- `gd_blocks` -/
def gdBlocks : ℕ := u32 (u32 (groupsCount bs total * gdEntrySize) + bs - 1) / bs

/-- `gd_block` -/
def gdBlock : ℕ := if bs = 1024 then 2 else firstDataBlock bs + 1

/-- `group_start` -/
def groupStart (g : ℕ) : ℕ := u32 (g * blocksPerGroup bs total)

/-- `group_blocks`, less in a shorter last group. -/
def groupBlocks (g : ℕ) : ℕ :=
  if u32 (groupStart bs total g + blocksPerGroup bs total) > total then
    total - groupStart bs total g
  else blocksPerGroup bs total

/-- `block_bitmap_abs` -/
def blockBitmapAbs (g : ℕ) : ℕ := u32 (groupStart bs total g + 1 + gdBlocks bs total)

/-- `inode_bitmap_abs` -/
def inodeBitmapAbs (g : ℕ) : ℕ := u32 (blockBitmapAbs bs total g + 1)

/-- `inode_table_abs` -/
def inodeTableAbs (g : ℕ) : ℕ := u32 (inodeBitmapAbs bs total g + 1)

/-- `used_blocks` of a group before it is clamped to the group's size. -/
def metadataBlocks (g : ℕ) : ℕ :=
  1 + gdBlocks bs total + 1 + 1 + inodeTableBlocks bs total + (if g = 0 then 1 else 0)

/-- `used_blocks` -/
def usedBlocks (g : ℕ) : ℕ :=
  if metadataBlocks bs total g > groupBlocks bs total g then groupBlocks bs total g
  else metadataBlocks bs total g

/-- `group0_inode_table`, which stays 0 when there is no group. -/
def group0InodeTable : ℕ := if groupsCount bs total = 0 then 0 else inodeTableAbs bs total 0

/-- `root_dir_block`, which stays 0 when there is no group. -/
def rootDirBlock : ℕ :=
  if groupsCount bs total = 0 then 0 else u32 (inodeTableAbs bs total 0 + inodeTableBlocks bs total)

/-- `s_free_blocks_count_lo` as the superblock is first written. -/
def freeBlocksCount : ℕ :=
  let rBlocks := total / 20
  let system := (if bs = 1024 then 5 else 4) + inodeTableBlocks bs total + 1
  let system := if system > blocksPerGroup bs total then blocksPerGroup bs total else system
  let free := blocksPerGroup bs total - system
  if groupsCount bs total = 1 then (if free > rBlocks then free - rBlocks else 0)
  else u32 (total + 2 ^ 32 - rBlocks + 2 ^ 32 - system)

/-- The superblock laid over `buf`; `now` is the clock. -/
def superBlock (logBlockSize now : ℕ) (buf : Buf) (o : ℕ) : Buf :=
  let bpg := blocksPerGroup bs total
  let inodes := u32 (groupsCount bs total * inodesPerGroup bs total)
  let uuid (b : Buf) : Buf :=
    (List.range 16).foldl (fun b i ↦ b.putLe (o + (Esb.sUuid + i)) 1 (i * 17)) b
  let seeds (b : Buf) : Buf :=
    (List.range 4).foldl (fun b i ↦ b.putLe (o + (Esb.sHashSeed + 4 * i)) 4 0) b
  (buf.clear o Esb.size)
    |>.setField o Esb.sInodesCount inodes
    |>.setField o Esb.sBlocksCountLo total
    |>.setField o Esb.sRBlocksCountLo (total / 20)
    |>.setField o Esb.sFreeInodesCount (u32 (inodes + 2 ^ 32 - reservedInodesG0 bs total))
    |>.setField o Esb.sFirstDataBlock (firstDataBlock bs)
    |>.setField o Esb.sLogBlockSize logBlockSize
    |>.setField o Esb.sLogClusterSize logBlockSize
    |>.setField o Esb.sBlocksPerGroup bpg
    |>.setField o Esb.sClustersPerGroup bpg
    |>.setField o Esb.sInodesPerGroup (inodesPerGroup bs total)
    |>.setField o Esb.sMtime now
    |>.setField o Esb.sWtime now
    |>.setField o Esb.sMntCount 0
    |>.setField o Esb.sMaxMntCount 0xFFFF
    |>.setField o Esb.sMagic ext4SuperMagic
    |>.setField o Esb.sState 1
    |>.setField o Esb.sErrors 1
    |>.setField o Esb.sMinorRevLevel 0
    |>.setField o Esb.sLastcheck now
    |>.setField o Esb.sCheckinterval 0
    |>.setField o Esb.sCreatorOs 0
    |>.setField o Esb.sRevLevel 1
    |>.setField o Esb.sDefResuid 0
    |>.setField o Esb.sDefResgid 0
    |>.setField o Esb.sFirstIno (reservedInodesG0 bs total + 1)
    |>.setField o Esb.sInodeSize inodeSize
    |>.setField o Esb.sBlockGroupNr 0
    |>.setField o Esb.sFeatureCompat 0x20
    |>.setField o Esb.sFeatureIncompat (0x2 ||| 0x40)
    |>.setField o Esb.sFeatureRoCompat 0
    |>.setField o Esb.sMkfsTime now
    |>.setField o Esb.sJournalInum 0
    |>.setField o Esb.sJournalDev 0
    |>.setField o Esb.sLastOrphan 0
    |> seeds
    |>.setField o Esb.sDefHashVersion 0
    |>.setField o Esb.sJnlBackupType 0
    |>.setField o Esb.sDescSize gdEntrySize
    |> uuid
    |>.clear (o + Esb.sVolumeName) 16
    |>.clear (o + Esb.sLastMounted) 64
    |>.setField o Esb.sBlocksCountHi 0
    |>.setField o Esb.sRBlocksCountHi 0
    |>.setField o Esb.sFreeBlocksCountHi 0
    |>.setField o Esb.sFreeBlocksCountLo (freeBlocksCount bs total)

/-- The descriptor of group `g`, stored at its place in the table. -/
def groupDesc (table : Buf) (g : ℕ) : Buf :=
  let o := g * gdEntrySize
  let freeInodes :=
    if g = 0 then inodesPerGroup bs total - reservedInodesG0 bs total else inodesPerGroup bs total
  table
    |>.setField o Gd.bgBlockBitmapLo (blockBitmapAbs bs total g)
    |>.setField o Gd.bgInodeBitmapLo (inodeBitmapAbs bs total g)
    |>.setField o Gd.bgInodeTableLo (inodeTableAbs bs total g)
    |>.setField o Gd.bgFreeBlocksCountLo (u16 (groupBlocks bs total g - usedBlocks bs total g))
    |>.setField o Gd.bgFreeInodesCountLo (u16 freeInodes)
    |>.setField o Gd.bgUsedDirsCountLo (if g = 0 then 1 else 0)
    |>.setField o Gd.bgFlags 0
    |>.setField o Gd.bgExcludeBitmapLo 0
    |>.setField o Gd.bgBlockBitmapCsumLo 0
    |>.setField o Gd.bgInodeBitmapCsumLo 0
    |>.setField o Gd.bgItableUnusedLo 0
    |>.setField o Gd.bgChecksum 0

/-- `gd_table` with the descriptors of the groups below `n`. -/
def gdTable : ℕ → Buf
  | 0 => Buf.zero
  | n + 1 => groupDesc bs total (gdTable n) n

/-- Block `i` of `gd_table`. -/
def gdTableBlock (i : ℕ) : Buf := fun j ↦ gdTable bs total (groupsCount bs total) (i * bs + j)

/-- The block bitmap of group `g`: its metadata, and the bits past its end. -/
def blockBitmap (g : ℕ) : Buf :=
  (Buf.zero.setBits 0 (usedBlocks bs total g)).setBits (groupBlocks bs total g) (bs * 8)

/-- The inode bitmap of group `g`: the reserved inodes of group 0, and the bits past the end. -/
def inodeBitmap (g : ℕ) : Buf :=
  (Buf.zero.setBits 0 (if g = 0 then reservedInodesG0 bs total else 0)).setBits
    (inodesPerGroup bs total) (bs * 8)

/-- The inode table block that holds the root directory's inode 2. -/
def rootInode (now : ℕ) : Buf :=
  let o := (2 - 1) * inodeSize
  ((Buf.zero
    |>.setField o RawInode.iMode 0x41ED
    |>.setField o RawInode.iUid 0
    |>.setField o RawInode.iSizeLo bs
    |>.setField o RawInode.iSizeHigh 0
    |>.setField o RawInode.iAtime now
    |>.setField o RawInode.iCtime now
    |>.setField o RawInode.iMtime now
    |>.setField o RawInode.iDtime 0
    |>.setField o RawInode.iGid 0
    |>.setField o RawInode.iLinksCount 2
    |>.setField o RawInode.iBlocksLo (bs / 512)
    |>.setField o RawInode.iBlocksHi 0
    |>.setField o RawInode.iFlags 0
    |>.setField o RawInode.iOsd1 0
    |>.setField o RawInode.iGeneration 0
    |>.setField o RawInode.iFileAclLo 0
    |>.setField o RawInode.iFileAclHigh 0
    |>.setField o RawInode.iUidHigh 0
    |>.setField o RawInode.iGidHigh 0
    |>.setField o RawInode.iObsoFaddr 0
    |>.setField o RawInode.iObsoOsd2 0
    |>.setField o RawInode.iChecksumLo 0
    |>.setField o RawInode.iReserved2 0).clear (o + RawInode.iBlock) iBlockSize).putLe
      (o + RawInode.iBlock) 4 (rootDirBlock bs total)

/-- The root directory's block: `.`, `..` and a free entry. -/
def rootDir : Buf :=
  let rec1 := ext4DirRecLen 1
  let rec2 := ext4DirRecLen 2
  Buf.zero
    |>.setField 0 De.inode 2
    |>.setField 0 De.recLen rec1
    |>.setField 0 De.nameLen 1
    |>.setField 0 De.fileType 2
    |>.putLe (0 + De.name) 1 46
    |>.setField rec1 De.inode 2
    |>.setField rec1 De.recLen rec2
    |>.setField rec1 De.nameLen 2
    |>.setField rec1 De.fileType 2
    |>.putLe (rec1 + De.name) 1 46
    |>.putLe (rec1 + De.name + 1) 1 46
    |>.setField (rec1 + rec2) De.inode 0
    |>.setField (rec1 + rec2) De.recLen (u16 (bs - rec1 - rec2))
    |>.setField (rec1 + rec2) De.nameLen 0
    |>.setField (rec1 + rec2) De.fileType 0

end Mkfs

open Mkfs in
/-- `ext4_mkfs(block_size, total_blocks)`. `now` is `rtc_get_unix_time()`.

A device of no blocks divides by zero, which is not a return of 0. The buffers come from a pool of
256 slots of 65536 bytes of which at most three are in use, so only a descriptor table of more than
65536 bytes fails to be allocated. -/
def ext4Mkfs (now bs total : ℕ) : StateErr BlockDevice Unit := do
  let logBlockSize ← ofOption (ext4BlockSizeToLog bs)
  guard (blocksPerGroup bs total ≠ 0)
  let buf ← ext4ReadBlock bs (sbBlocknr bs)
  let sb := superBlock bs total logBlockSize now buf (sbOffset bs)
  ext4WriteBlock bs (sbBlocknr bs) sb
  guard (u32 (gdBlocks bs total * bs) ≤ 65536)
  forUp (fun i ↦ ext4WriteBlock bs (gdBlock bs + i) (gdTableBlock bs total i)) 0 (gdBlocks bs total)
  -- backup superblock and descriptor table of every group but the first
  let esbBackup : Buf := fun i ↦ sb (sbOffset bs + i)
  forUp (fun g ↦ do
      ext4WriteBlock bs (groupStart bs total g) (Buf.zero.blit 0 esbBackup 0 Esb.size)
      forUp (fun i ↦ ext4WriteBlock bs (groupStart bs total g + 1 + i) (gdTableBlock bs total i))
        0 (gdBlocks bs total))
    1 (groupsCount bs total - 1)
  forUp (fun g ↦ do
      ext4WriteBlock bs (blockBitmapAbs bs total g) (blockBitmap bs total g)
      ext4WriteBlock bs (inodeBitmapAbs bs total g) (inodeBitmap bs total g))
    0 (groupsCount bs total)
  ext4WriteBlock bs (group0InodeTable bs total) (rootInode bs total now)
  ext4WriteBlock bs (rootDirBlock bs total) (rootDir bs)

end MiniExt4
