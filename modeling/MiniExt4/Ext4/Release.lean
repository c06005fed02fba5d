import MiniExt4.Ext4.Balloc
import MiniExt4.Ext4.ExtentTree
import MiniExt4.Ext4.InCore

/-!
# Releasing the blocks of an inode (`ext4_free_inode_data_blocks` in `fs/ext4/inode.c`)

The functions discard what `ext4_free_block` returns, so they are modelled over a state that also
lists the calls made so far; `ext4FreeInodeDataBlocks` starts from the empty list and drops it.

The buffers come from a pool of four slots that is full between calls. A level of the recursion over
an extent tree keeps one of them while it works on the level below, and a request of more than
`BLOCK_SIZE` bytes fails.
-/

namespace MiniExt4

open StateErr

/-- A filesystem and the calls of `ext4_free_block` so far. -/
structure Releasing where
  fs : Fs
  calls : List ℕ

namespace Releasing

/-- Run a computation on the filesystem. -/
def onFs {α : Type} (x : StateErr Fs α) : StateErr Releasing α :=
  zoom Releasing.fs (fun s fs ↦ { s with fs }) x

/-- `(void)ext4_free_block(sb, b)` -/
def freeBlock (b : ℕ) : StateErr Releasing Unit := do
  modify fun s ↦ { s with calls := s.calls ++ [b] }
  let _ ← attempt (onFs (Fs.ext4FreeBlock b))

/-- The slots of the pool a request of one block finds: none for a block above `BLOCK_SIZE`. -/
def poolSlots (blockSize : ℕ) : ℕ := if blockSize ≤ blockSizeDefault then 4 else 0

/-- The extents of a leaf. -/
def freeExtent (ex : Extent) : StateErr Releasing Unit :=
  if ex.eeLen = 0 ∨ ex.eeStart = 0 then pure ()
  else forUp (fun j ↦ freeBlock (u32 (ex.eeStart + j))) 0 ex.eeLen

/-- One entry of an index node; `child` releases the node below, if there is a buffer for it. -/
def freeChild (child : Option (Buf → StateErr Releasing Unit)) (ix : ExtentIdx) :
    StateErr Releasing Unit := do
  let childBlock := u32 ix.eiLeaf
  if childBlock = 0 then pure ()
  else
    match child with
    | none => freeBlock childBlock
    | some freeNode =>
      match ← attempt (onFs (Fs.readBlock childBlock)) with
      | some childBuf => freeNode childBuf
      | none => pure ()
      freeBlock childBlock

/-- The body of `ext4_free_extent_tree_node`. -/
def freeNode (child : Option (Buf → StateErr Releasing Unit)) (eh : Buf) :
    StateErr Releasing Unit :=
  if Node.magic eh ≠ ext4ExtMagic then pure ()
  else if Node.depth eh = 0 then
    forUp (fun i ↦ freeExtent (Node.extentAt eh i)) 0 (Node.entries eh)
  else forUp (fun i ↦ freeChild child (Node.idxAt eh i)) 0 (Node.entries eh)

/-- `ext4_free_extent_tree_node(sb, eh)` with so many slots of the pool free. -/
def ext4FreeExtentTreeNode : ℕ → Buf → StateErr Releasing Unit
  | 0 => freeNode none
  | slots + 1 => freeNode (some (ext4FreeExtentTreeNode slots))

/-- `if (ptr != 0) (void)ext4_free_block(sb, ptr);` -/
def freePtr (ptr : ℕ) : StateErr Releasing Unit := if ptr ≠ 0 then freeBlock ptr else pure ()

/-- The block of an indirection, if there is a slot for it and it can be read, given to `free`. -/
def withIndirect (slots blk : ℕ) (free : Buf → StateErr Releasing Unit) :
    StateErr Releasing Unit :=
  if slots = 0 then pure ()
  else do
    match ← attempt (onFs (Fs.readBlock blk)) with
    | some buf => free buf
    | none => pure ()

/-- An indirect block, unless its number is 0: the blocks it points to, then the block itself. -/
def freeIndirect (slots ptrsPerBlock blk : ℕ) : StateErr Releasing Unit :=
  if blk ≠ 0 then do
    withIndirect slots blk fun buf ↦ forUp (fun i ↦ freePtr (buf.le (4 * i) 4)) 0 ptrsPerBlock
    freeBlock blk
  else pure ()

/-- A double indirect block, unless its number is 0. -/
def freeDoubleIndirect (slots ptrsPerBlock blk : ℕ) : StateErr Releasing Unit :=
  if blk ≠ 0 then do
    withIndirect slots blk fun buf ↦
      forUp (fun i ↦ freeIndirect (slots - 1) ptrsPerBlock (buf.le (4 * i) 4)) 0 ptrsPerBlock
    freeBlock blk
  else pure ()

/-- `ext4_free_legacy_data_blocks(inode, ei)`. The pointers are set to 0 by the caller. -/
def ext4FreeLegacyDataBlocks (inode : Inode) : StateErr Releasing Unit := do
  let s ← get
  let slots := poolSlots s.fs.blockSize
  let ptrsPerBlock := s.fs.blockSize / 4
  forUp (fun i ↦ freePtr (inode.word i)) 0 12
  freeIndirect slots ptrsPerBlock (inode.word 12)
  freeDoubleIndirect slots ptrsPerBlock (inode.word 13)
  freePtr (inode.word 14)

/-- The calls of `ext4_free_inode_data_blocks(inode)`. -/
def freeInodeDataBlocks (inode : Inode) : StateErr Releasing Unit := do
  let s ← get
  if sIsreg inode.iMode && inode.hasExtents then
    ext4FreeExtentTreeNode (poolSlots s.fs.blockSize) inode.iBlock
  else ext4FreeLegacyDataBlocks inode

end Releasing

/-- `ext4_free_inode_data_blocks(inode)` -/
def FsInode.ext4FreeInodeDataBlocks : StateErr FsInode Unit := do
  let s ← get
  let r := Releasing.freeInodeDataBlocks s.inode ⟨s.fs, []⟩
  modify fun s ↦
    ⟨r.2.fs, { s.inode with iBlock := s.inode.iBlock.clear 0 iBlockSize, iSize := 0, iBlocks := 0 }⟩

end MiniExt4
