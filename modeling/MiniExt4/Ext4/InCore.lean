import MiniExt4.Ext4.Fs

/-!
# In-core inodes (`include/fs/inode.h`, `struct ext4_inode_info`)

An in-core inode is `struct inode` together with its `i_private`. The functions that work on one
inode of a mounted filesystem run over `FsInode`; the layer above keeps the pool of inodes.
-/

namespace MiniExt4

open StateErr

/-- `struct inode` with its `struct ext4_inode_info`. -/
structure Inode where
  iIno : ℕ
  iNlink : ℕ
  iUid : ℕ
  iGid : ℕ
  iMode : ℕ
  iAtime : ℕ
  iMtime : ℕ
  iCtime : ℕ
  iSize : ℕ
  iBlocks : ℕ
  /-- `i_state & I_DIRTY` -/
  dirty : Bool
  /-- the 60 bytes of `ei->i_block` -/
  iBlock : Buf
  /-- `ei->i_flags` -/
  iFlags : ℕ
  /-- `ei->i_alloc_group_hint` -/
  iAllocGroupHint : ℕ

namespace Inode

/-- `ei->i_flags & EXT4_INODE_FLAG_EXTENTS` -/
def hasExtents (inode : Inode) : Bool := inode.iFlags &&& ext4InodeFlagExtents != 0

/-- `ei->i_flags & EXT4_INODE_FLAG_INDEX` -/
def hasIndex (inode : Inode) : Bool := inode.iFlags &&& ext4InodeFlagIndex != 0

/-- `ei->i_block[i]` -/
def word (inode : Inode) (i : ℕ) : ℕ := inode.iBlock.le (4 * i) 4

end Inode

/-- A mounted filesystem and one of its in-core inodes. -/
structure FsInode where
  fs : Fs
  inode : Inode

namespace FsInode

/-- Run a computation on the filesystem. -/
def onFs {α : Type} (x : StateErr Fs α) : StateErr FsInode α :=
  zoom FsInode.fs (fun s fs ↦ { s with fs }) x

/-- Change the inode. -/
def modifyInode (f : Inode → Inode) : StateErr FsInode Unit :=
  modify fun s ↦ { s with inode := f s.inode }

end FsInode

end MiniExt4
