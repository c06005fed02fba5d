import MiniExt4.Ext4.Fs

/-!
# The inode allocator (`fs/ext4/ialloc.c`)

Inode `ino` is bit `(ino - 1) % s_inodes_per_group` of the bitmap of group
`(ino - 1) / s_inodes_per_group`. A new inode is the first clear bit of the first group that has one,
from the preferred group on; nothing is cached but the descriptor of group 0.

The functions return 0 for a failure. In the search a failure inside one group is a `continue`, so one
iteration is a function of its own, `tryInodeGroup`, that the loop attempts.
-/

namespace MiniExt4

open StateErr

/-- The loop over the bits of a group, from bit `i`; `base` is `g * inodes_per_group`. The first clear
bit and its inode number. -/
def scanInodes (bitmap : Buf) (blockSize base inodesCount : ℕ) : ℕ → ℕ → Option (ℕ × ℕ)
  | 0, _ => none
  | n + 1, i =>
    let candIno := u32 (base + i + 1)
    if i / 8 ≥ blockSize then none
    else if candIno = 0 ∨ candIno > inodesCount then none
    else if bitmap.bit i then scanInodes bitmap blockSize base inodesCount n (i + 1)
    else some (i, candIno)

/-- The descriptor with all inodes of its group's table in use. -/
def clearItableUnused (gd : Buf) : Buf :=
  (gd.setField 0 Gd.bgItableUnusedLo 0).setField 0 Gd.bgItableUnusedHi 0

namespace Fs

namespace Ialloc

/-- `ext4_read_group_desc` of `ialloc.c`, which also checks the group. -/
def readGroupDesc (group : ℕ) : StateErr Fs Buf := do
  let fs ← get
  guard (group < fs.sbi.sGroupsCount)
  Fs.readGroupDesc group

/-- `ext4_write_group_desc` of `ialloc.c`, which also checks the group. -/
def writeGroupDesc (group : ℕ) (gd : Buf) : StateErr Fs Unit := do
  let fs ← get
  guard (group < fs.sbi.sGroupsCount)
  Fs.writeGroupDesc group gd

end Ialloc

/-- `ext4_read_inode_bitmap(sb, group, bitmap_buf)`: the bitmap's block and its contents. -/
def readInodeBitmap (group : ℕ) : StateErr Fs (ℕ × Buf) := do
  let fs ← get
  guard fs.sbi.sGroupDesc.isSome
  guard (group < fs.sbi.sGroupsCount)
  let gd ← Ialloc.readGroupDesc group
  let bitmapBlock := gd.getField 0 Gd.bgInodeBitmapLo
  let buf ← readBlock bitmapBlock
  -- block 0 is taken for a failure
  guard (bitmapBlock ≠ 0)
  pure (bitmapBlock, buf)

/-- `ext4_write_inode_bitmap(sb, bitmap_block, bitmap_buf)` -/
def writeInodeBitmap (bitmapBlock : ℕ) (buf : Buf) : StateErr Fs Unit := do
  guard (bitmapBlock ≠ 0)
  writeBlock bitmapBlock buf

/-- `ext4_update_group_desc_inode(sb, group)`, under the name `ext4_write_group_desc_cached` too. Only
the descriptor of group 0 is in memory. -/
def ext4WriteGroupDescCached (group : ℕ) : StateErr Fs Unit := do
  let fs ← get
  let gd ← ofOption fs.sbi.sGroupDesc
  if group ≠ 0 then pure ()
  else
    modifySbi fun sbi ↦ { sbi with sGroupDesc := some (clearItableUnused gd) }
    Ialloc.writeGroupDesc 0 (clearItableUnused gd)

/-- Write back the descriptor of a group whose bitmap has changed, keep the copy of group 0's in step,
and bring the counts of the superblock up to date if that works. -/
def storeInodeDesc (group : ℕ) (gd : Buf) : StateErr Fs Unit := do
  let gd := clearItableUnused gd
  Ialloc.writeGroupDesc group gd
  modifySbi fun sbi ↦ if group = 0 then { sbi with sGroupDesc := some gd } else sbi
  let _ ← attempt ext4SyncSuperFreeCounts

/-- One iteration over group `g` of the loop of `ext4_new_inode_in_group`. -/
def tryInodeGroup (g : ℕ) : StateErr Fs ℕ := do
  let bitmap ← readInodeBitmap g
  let gd ← Ialloc.readGroupDesc g
  let fs ← get
  let found ← ofOption (scanInodes bitmap.2 fs.blockSize (g * fs.sbi.sInodesPerGroup)
    fs.sbi.sInodesCount fs.sbi.sInodesPerGroup 0)
  writeInodeBitmap bitmap.1 (bitmap.2.setBit found.1)
  let free := gd.getField 0 Gd.bgFreeInodesCountLo
  storeInodeDesc g (gd.setField 0 Gd.bgFreeInodesCountLo (if free > 0 then free - 1 else free))
  pure found.2

/-- The loop over the `n` groups that are left, from the one `scanned` after `startGroup`. -/
def scanInodeGroups (groupsCount startGroup : ℕ) : ℕ → ℕ → StateErr Fs ℕ
  | 0, _ => fail
  | n + 1, scanned => do
    let g := if startGroup + scanned ≥ groupsCount then startGroup + scanned - groupsCount
      else startGroup + scanned
    match ← attempt (tryInodeGroup g) with
    | some ino => pure ino
    | none => scanInodeGroups groupsCount startGroup n (scanned + 1)

/-- `ext4_new_inode_in_group(sb, preferred_group)` -/
def ext4NewInodeInGroup (preferredGroup : ℕ) : StateErr Fs ℕ := do
  let fs ← get
  guard fs.sbi.sGroupDesc.isSome
  guard (fs.sbi.sInodesPerGroup ≠ 0)
  let groupsCount := if fs.sbi.sGroupsCount = 0 then 1 else fs.sbi.sGroupsCount
  let startGroup := if preferredGroup < groupsCount then preferredGroup else 0
  mallocBlock
  scanInodeGroups groupsCount startGroup groupsCount 0

/-- `ext4_new_inode(sb)` -/
def ext4NewInode : StateErr Fs ℕ := ext4NewInodeInGroup 0

/-- `ext4_free_inode(sb, ino)` -/
def ext4FreeInode (ino : ℕ) : StateErr Fs Unit := do
  let fs ← get
  guard fs.sbi.sGroupDesc.isSome
  guard (ino ≠ 0)
  let group := (ino - 1) / fs.sbi.sInodesPerGroup
  let index := (ino - 1) % fs.sbi.sInodesPerGroup
  guard (group < fs.sbi.sGroupsCount)
  guard (index < fs.sbi.sInodesPerGroup)
  mallocBlock
  let bitmap ← readInodeBitmap group
  guard (index / 8 < fs.blockSize)
  if !bitmap.2.bit index then pure ()
  else
    writeInodeBitmap bitmap.1 (bitmap.2.clearBit index)
    let gd ← Ialloc.readGroupDesc group
    storeInodeDesc group
      (gd.setField 0 Gd.bgFreeInodesCountLo (gd.getField 0 Gd.bgFreeInodesCountLo + 1))

end Fs

end MiniExt4
