import MiniExt4.Ext4.InCore
import MiniExt4.Ext4.Super

/-!
# Reading and writing inodes (`fs/ext4/super.c`)

An inode number is a group and an index in it; the group's descriptor has the first block of the inode
table. The buffers and the `ext4_inode_info` of each in-core inode come from the pool of `super.c`. The
pool of the in-core inodes themselves is the business of the layer above.
-/

namespace MiniExt4

open StateErr

/-- `EXT4_DISK_INODE_SIZE` times an index is cut up in blocks. -/
def inodeLoc (blockSize table index : ℕ) : ℕ × ℕ :=
  let inodeOffset := u32 (index * RawInode.size)
  (u32 (table + inodeOffset / blockSize), inodeOffset % blockSize)

namespace Inode

/-- `ext4_fill_inode(inode, ino, raw, inodes_per_group)` of the record at `o`, on a fresh inode. -/
def fill (ino : ℕ) (buf : Buf) (o inodesPerGroup : ℕ) : Inode where
  iIno := ino
  iMode := buf.getField o RawInode.iMode
  iSize := buf.getField o RawInode.iSizeLo + buf.getField o RawInode.iSizeHigh * 2 ^ 32
  -- `unsigned long` has 32 bits
  iBlocks := u32 (buf.getField o RawInode.iBlocksLo + buf.getField o RawInode.iBlocksHi * 2 ^ 32)
  iAtime := buf.getField o RawInode.iAtime
  iMtime := buf.getField o RawInode.iMtime
  iCtime := buf.getField o RawInode.iCtime
  iUid := u32 (buf.getField o RawInode.iUid + buf.getField o RawInode.iUidHigh * 2 ^ 16)
  iGid := u32 (buf.getField o RawInode.iGid + buf.getField o RawInode.iGidHigh * 2 ^ 16)
  iNlink := buf.getField o RawInode.iLinksCount
  dirty := false
  iBlock := Buf.zero.blit 0 buf (o + RawInode.iBlock) iBlockSize
  iFlags := buf.getField o RawInode.iFlags
  iAllocGroupHint := if inodesPerGroup = 0 then 0 else (ino - 1) / inodesPerGroup

/-- The fields `ext4_write_inode` stores, with what it stores in them. -/
def rawFields (inode : Inode) : List (Buf.Field × ℕ) :=
  [(RawInode.iMode, inode.iMode),
    (RawInode.iSizeLo, inode.iSize),
    (RawInode.iSizeHigh, inode.iSize / 2 ^ 32),
    (RawInode.iBlocksLo, inode.iBlocks),
    (RawInode.iBlocksHi, inode.iBlocks / 2 ^ 32),
    (RawInode.iAtime, inode.iAtime),
    (RawInode.iMtime, inode.iMtime),
    (RawInode.iCtime, inode.iCtime),
    (RawInode.iUid, inode.iUid),
    (RawInode.iUidHigh, inode.iUid / 2 ^ 16 % 2 ^ 16),
    (RawInode.iGid, inode.iGid),
    (RawInode.iGidHigh, inode.iGid / 2 ^ 16 % 2 ^ 16),
    (RawInode.iLinksCount, inode.iNlink),
    (RawInode.iFlags, inode.iFlags)]

/-- The record at `o` with the inode written into it; the other fields are kept. -/
def store (inode : Inode) (buf : Buf) (o : ℕ) : Buf :=
  (inode.rawFields.foldl (fun b fv ↦ b.setField o fv.1 fv.2) buf).blit (o + RawInode.iBlock)
    inode.iBlock 0 iBlockSize

end Inode

namespace Fs

/-- `malloc(block_size)` from the pool of `super.c`, where `held` slots are taken by the caller. -/
def superMalloc (held : ℕ) : StateErr Fs Unit := do
  let fs ← get
  guard (fs.sbi.sBlockSize ≤ 65536 ∧ held < fs.superPool)

/-- `ext4_get_inode_disk_loc(sbi, ino, &block, &offset)` -/
def ext4GetInodeDiskLoc (ino : ℕ) : StateErr Fs (ℕ × ℕ) := do
  let fs ← get
  guard (fs.sbi.sGroupDesc.isSome ∧ ino ≠ 0)
  guard (fs.sbi.sInodesPerGroup ≠ 0)
  let group := (ino - 1) / fs.sbi.sInodesPerGroup
  let index := (ino - 1) % fs.sbi.sInodesPerGroup
  guard (group < fs.sbi.sGroupsCount)
  let loc := fs.sbi.descLoc fs.sbi.sBlockSize group
  guard (loc.2 + fs.sbi.copySz ≤ fs.sbi.sBlockSize)
  superMalloc 0
  let gdBuf ← readBlock loc.1
  let gd := Buf.zero.blit 0 gdBuf loc.2 fs.sbi.copySz
  let loc := inodeLoc fs.sbi.sBlockSize (gd.getField 0 Gd.bgInodeTableLo) index
  guard (loc.1 < fs.sbi.sBlocksCount)
  pure loc

/-- `ext4_iget(sb, ino)`. It fails where the pool has no slot for the `ext4_inode_info`; the source
goes on with a null pointer. -/
def ext4Iget (ino : ℕ) : StateErr Fs Inode := do
  let loc ← ext4GetInodeDiskLoc ino
  superMalloc 0
  let buf ← readBlock loc.1
  let fs ← get
  guard (1 < fs.superPool)
  modify fun fs ↦ { fs with superPool := fs.superPool - 1 }
  pure (Inode.fill ino buf loc.2 fs.sbi.sInodesPerGroup)

/-- `ext4_write_inode(inode, wbc)` -/
def ext4WriteInode (inode : Inode) : StateErr Fs Unit := do
  guard (inode.iIno ≠ 0)
  let loc ← ext4GetInodeDiskLoc inode.iIno
  superMalloc 0
  let buf ← readBlock loc.1
  writeBlock loc.1 (inode.store buf loc.2)

end Fs

end MiniExt4
