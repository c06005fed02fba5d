import MiniExt4.Ext4.Ialloc
import MiniExt4.Ext4.Rmdir
import MiniExt4.Vfs.Create

/-!
# The operations of ext4 below the VFS (`fs/inode.c`, `fs/ext4/super.c`, `fs/ext4/inode.c`)

The in-core inodes of ext4 are slots of the pool of the VFS, each with an `ext4_inode_info` from the pool of
`super.c`. The operations of a directory work on both layers: the disk through the functions of the
modules on ext4, the dentry cache through `d_instantiate`.

Where no inode can be allocated `ext4_iget` fills in the one at address 0. What this overwrites is not in
the model; `nullWrite` says that it happened.

`rmdirInode` and `ext4Rmdir` are the second form of a function that `Rmdir` has over a pair of inodes;
`RmdirPair` proves that they agree.
-/

namespace MiniExt4

open StateErr

/-- `-EBADF` -/
def eBadf : ℤ := -9

/-- `-EBUSY` -/
def eBusy : ℤ := -16

/-- `-EISDIR` -/
def eIsdir : ℤ := -21

/-- `-ENOSPC` -/
def eNospc : ℤ := -28

/-- `-ENOTEMPTY` -/
def eNotempty : ℤ := -39

/-- `O_TRUNC` -/
def oTrunc : ℕ := 0o1000

/-- `S_IFDIR | 0755` and the like: the type with the permissions of `mode & 0777`. -/
def typedMode (type mode : ℕ) : ℕ := type ||| (mode &&& 0o777)

/-- What ext4 keeps in an in-core inode. -/
structure Ext4Inode where
  info : Inode
  /-- `i_op` and `i_fop` are the tables of directories. -/
  dirOps : Bool

/-- What ext4 keeps apart from the inodes. -/
structure Ext4State where
  fs : Fs
  /-- `rtc_get_unix_time()` -/
  now : ℕ
  /-- an inode at address 0 has been filled in -/
  nullWrite : Bool

/-- The VFS over ext4. -/
abbrev Ext4Vfs : Type := Vfs Ext4Inode Ext4State

namespace Ext4Vfs

variable {α : Type}

/-- Run a computation on the filesystem. -/
def onFs (x : StateErr Fs α) : StateErr Ext4Vfs α :=
  zoom (fun v ↦ v.fs.fs) (fun v fs ↦ { v with fs := { v.fs with fs } }) x

/-- Run a computation on the filesystem and the inode `i`, which is in use. -/
def onInode (i : ℕ) (x : StateErr FsInode α) : StateErr Ext4Vfs α := fun v ↦
  match v.inodes i with
  | none => (none, v)
  | some n =>
    let r := x ⟨v.fs.fs, n.node.info⟩
    (r.1, { v with
      inodes := Function.update v.inodes i (some { n with node := { n.node with info := r.2.inode } })
      fs := { v.fs with fs := r.2.fs } })

/-- Change the inode `i`, where it is in use. -/
def modifyInfo (i : ℕ) (f : Inode → Inode) : StateErr Ext4Vfs Unit :=
  modify fun v ↦ v.setInode i ((v.inodes i).map fun n ↦ { n with node := { n.node with info := f n.node.info } })

/-- `write_inode(inode, NULL)` -/
def writeInode (i : ℕ) : StateErr Ext4Vfs Unit := onInode i (do
  let s ← get
  FsInode.onFs (Fs.ext4WriteInode s.inode))

end Ext4Vfs

open Ext4Vfs

/-! ### In-core inodes -/

/-- The first slot of the pool that is free. -/
def freeInode {ι σ : Type} (v : Vfs ι σ) : Option ℕ := (List.range vfsMaxInodes).find? fun i ↦ (v.inodes i).isNone

/-- `vfs_alloc_inode(sb)`, with what the caller fills in. -/
def vfsAllocInode {ι σ : Type} (n : ι) (v : Vfs ι σ) : Option ℕ × Vfs ι σ :=
  match freeInode v with
  | none => (none, v)
  | some i => (some i, v.setInode i (some ⟨1, n⟩))

/-- `vfs_free_inode(node)` -/
def vfsFreeInode {ι σ : Type} (i : ℕ) (v : Vfs ι σ) : Vfs ι σ := v.setInode i none

/-- `malloc(sizeof(*ei))` -/
def Ext4State.takeInfo (s : Ext4State) : Ext4State :=
  { s with fs := { s.fs with superPool := s.fs.superPool - 1 } }

/-- `free(inode->i_private)` -/
def Ext4State.freeInfo (s : Ext4State) : Ext4State :=
  { s with fs := { s.fs with superPool := s.fs.superPool + 1 } }

/-- `ext4_alloc_inode(sb)`, with what the caller fills in; `held` slots of the pool behind `malloc` are
taken by the caller. -/
def ext4AllocInode (held : ℕ) (n : Ext4Inode) (v : Ext4Vfs) : Option ℕ × Ext4Vfs :=
  match vfsAllocInode n v with
  | (none, v) => (none, v)
  | (some i, v) =>
    if held < v.fs.fs.superPool then (some i, { v with fs := v.fs.takeInfo }) else (none, vfsFreeInode i v)

/-- `ext4_destroy_inode(inode)` -/
def ext4DestroyInode (i : ℕ) (v : Ext4Vfs) : Ext4Vfs := { vfsFreeInode i v with fs := v.fs.freeInfo }

namespace Fs

/-- The part of `ext4_iget` that reads: the block with the record of the inode, and its offset. -/
def readRawInode (ino : ℕ) : StateErr Fs (Buf × ℕ) := do
  let loc ← ext4GetInodeDiskLoc ino
  superMalloc 0
  let buf ← readBlock loc.1
  pure (buf, loc.2)

end Fs

/-- `ext4_fill_inode` on a fresh inode: the fields and the operations. -/
def Ext4Inode.fill (ino : ℕ) (buf : Buf) (o inodesPerGroup : ℕ) : Ext4Inode :=
  let info := Inode.fill ino buf o inodesPerGroup
  ⟨info, sIsdir info.iMode⟩

/-- `ext4_iget(sb, ino)`: the slot of the inode. The block is still held when the inode is allocated. -/
def ext4Iget (ino : ℕ) (v : Ext4Vfs) : Option ℕ × Ext4Vfs :=
  match onFs (Fs.readRawInode ino) v with
  | (none, v) => (none, v)
  | (some (buf, o), v) =>
    match ext4AllocInode 1 (Ext4Inode.fill ino buf o v.fs.fs.sbi.sInodesPerGroup) v with
    | (none, v) => (none, { v with fs := { v.fs with nullWrite := true } })
    | (some i, v) => (some i, v)

/-! ### The operations of directories -/

/-- `ext4_lookup(dir, dentry, flags)`: a dentry that is not found stays without inode. -/
def ext4Lookup (dir dentry : ℕ) (v : Ext4Vfs) : Option ℕ × Ext4Vfs :=
  match v.dcache dentry with
  | none => (some dentry, v)
  | some e =>
    match onInode dir (FsInode.ext4FindEntry e.dName.1) v with
    | (none, v) => (some dentry, v)
    | (some found, v) =>
      match ext4Iget found.1 v with
      | (none, v) => (some dentry, v)
      | (some i, v) => (some dentry, dInstantiate dentry i v)

namespace Inode

/-- The inode that `ext4_create` fills in. -/
def newFile (fs : Fs) (ino mode now : ℕ) : Inode where
  iIno := ino
  iNlink := 1
  iUid := 0
  iGid := 0
  iMode := typedMode sIfreg mode
  iAtime := now
  iMtime := now
  iCtime := now
  iSize := 0
  iBlocks := 0
  dirty := false
  iBlock := Node.ext4ExtentsInitNode Buf.zero iBlockSize 0
  iFlags := ext4InodeFlagExtents
  iAllocGroupHint := fs.ext4InodeGroupOfIno ino

/-- The inode that `ext4_mkdir` fills in, with one block. -/
def newDir (fs : Fs) (ino mode now blocknr : ℕ) : Inode where
  iIno := ino
  iNlink := 2
  iUid := 0
  iGid := 0
  iMode := typedMode sIfdir mode
  iAtime := now
  iMtime := now
  iCtime := now
  iSize := fs.blockSize
  iBlocks := fs.blockSize / 512
  dirty := false
  iBlock := Buf.zero.putLe 0 4 blocknr
  iFlags := 0
  iAllocGroupHint := fs.ext4InodeGroupOfIno ino

end Inode

/-- The block of a new directory: `"."`, `".."` and a dead entry with the rest. -/
def newDirBlock (freeLen ino parentIno : ℕ) : Buf :=
  let rec1 := ext4DirRecLen 1
  let rec2 := ext4DirRecLen 2
  let buf := putEntry (putEntry Buf.zero 0 ino rec1 2 [46]) rec1 parentIno rec2 2 [46, 46]
  putEntry buf (rec1 + rec2) 0 freeLen 0 []

/-- What `ext4_create` and `ext4_mkdir` do with the number of the new inode, and the block if there is one,
when they fail: the disk gets them back. -/
def undoNew (ino : ℕ) (blocknr : Option ℕ) (v : Ext4Vfs) : Ext4Vfs :=
  let v := match blocknr with
    | none => v
    | some b => (onFs (Fs.ext4FreeBlock b) v).2
  (onFs (Fs.ext4FreeInode ino) v).2

/-- The end of `ext4_create` and `ext4_mkdir`: the new inode is written and gets its entry. -/
def enterNew (dir dentry i ino : ℕ) (name : List Byte) (blocknr : Option ℕ) (v : Ext4Vfs) : ℤ × Ext4Vfs :=
  let v := (writeInode i v).2
  match onInode dir (FsInode.ext4AddEntry name ino) v with
  | (none, v) => (eNospc, undoNew ino blocknr (ext4DestroyInode i v))
  | (some _, v) => (0, dInstantiate dentry i v)

/-- `ext4_create(dir, dentry, mode, excl)` -/
def ext4Create (dir dentry mode : ℕ) (_excl : Bool) (v : Ext4Vfs) : ℤ × Ext4Vfs :=
  match v.inodes dir, v.dcache dentry with
  | some n, some e =>
    match onFs (Fs.ext4NewInodeInGroup (v.fs.fs.ext4InodeGroupOfIno n.node.info.iIno)) v with
    | (none, v) => (eNospc, v)
    | (some ino, v) =>
      match ext4AllocInode 0 ⟨Inode.newFile v.fs.fs ino mode v.fs.now, false⟩ v with
      | (none, v) => (eNomem, undoNew ino none v)
      | (some i, v) => enterNew dir dentry i ino e.dName.1 none v
  | _, _ => (eIo, v)

/-- `ext4_mkdir` from the new inode on. -/
def mkdirBlock (dir dentry i ino blocknr parentIno : ℕ) (name : List Byte) (v : Ext4Vfs) : ℤ × Ext4Vfs :=
  let bs := v.fs.fs.blockSize
  let freeLen := u16 (bs + 2 ^ 32 - ext4DirRecLen 1 - ext4DirRecLen 2)
  if blockSizeDefault < bs then (eNomem, undoNew ino (some blocknr) (ext4DestroyInode i v))
  else if freeLen < 8 then (eIo, undoNew ino (some blocknr) (ext4DestroyInode i v))
  else
    match onFs (Fs.writeBlock blocknr (newDirBlock freeLen ino parentIno)) v with
    | (none, v) => (eIo, undoNew ino (some blocknr) (ext4DestroyInode i v))
    | (some _, v) =>
      match enterNew dir dentry i ino name (some blocknr) v with
      | (0, v) =>
        let v := (modifyInfo dir (fun inode ↦ { inode with iNlink := u32 (inode.iNlink + 1) }) v).2
        let v := (writeInode dir v).2
        (0, (onFs (Fs.updateUsedDirs (· + 1) (v.fs.fs.ext4InodeGroupOfIno ino)) v).2)
      | r => r

/-- `ext4_mkdir(dir, dentry, mode)` -/
def ext4Mkdir (dir dentry mode : ℕ) (v : Ext4Vfs) : ℤ × Ext4Vfs :=
  match v.inodes dir, v.dcache dentry with
  | some n, some e =>
    let group := v.fs.fs.ext4InodeGroupOfIno n.node.info.iIno
    match onFs (Fs.ext4NewInodeInGroup group) v with
    | (none, v) => (eNospc, v)
    | (some ino, v) =>
      match onFs (Fs.ext4NewBlockInGroup group) v with
      | (none, v) => (eNospc, undoNew ino none v)
      | (some blocknr, v) =>
        match ext4AllocInode 0 ⟨Inode.newDir v.fs.fs ino mode v.fs.now blocknr, true⟩ v with
        | (none, v) => (eNomem, undoNew ino (some blocknr) v)
        | (some i, v) => mkdirBlock dir dentry i ino blocknr n.node.info.iIno e.dName.1 v
  | _, _ => (eIo, v)

/-- A dentry whose entry was removed: it has no inode and is on no list. -/
def unhook {ι σ : Type} (d : ℕ) (v : Vfs ι σ) : Vfs ι σ :=
  let v := v.modifyDentry d fun e ↦ { e with dInode := none }
  listDel d (v.dParent d) v

/-- The end of `ext4_unlink` and `ext4_rmdir` for an inode without links: it is cleared, written and freed. -/
def deleteInode (i : ℕ) : StateErr Ext4Vfs Unit := do
  let _ ← attempt (onInode i FsInode.ext4FreeInodeDataBlocks)
  modifyInfo i fun inode ↦ { inode with iMode := 0, iSize := 0, iBlocks := 0 }

/-- `ext4_unlink(dir, dentry)` for a dentry with the inode `i` -/
def unlinkInode (dir dentry i : ℕ) (name : List Byte) (v : Ext4Vfs) : ℤ × Ext4Vfs :=
  match onInode dir (FsInode.ext4RemoveEntry name) v with
  | (none, v) => (-1, v)
  | (some _, v) =>
    let v := unhook dentry v
    let v := (modifyInfo i (fun inode ↦ { inode with iNlink := u32 (inode.iNlink + (2 ^ 32 - 1)) }) v).2
    match v.inodes i with
    | none => (-1, v)
    | some n =>
      if n.node.info.iNlink = 0 then
        let v := (deleteInode i v).2
        let wr := writeInode i v
        let fr := onFs (Fs.ext4FreeInode n.node.info.iIno) wr.2
        if wr.1 = none ∨ fr.1 = none then (eIo, fr.2) else (0, ext4DestroyInode i fr.2)
      else
        match writeInode i v with
        | (none, v) => (eIo, v)
        | (some _, v) => (0, v)

/-- `ext4_unlink(dir, dentry)` -/
def ext4Unlink (dir dentry : ℕ) (v : Ext4Vfs) : ℤ × Ext4Vfs :=
  match v.dcache dentry with
  | none => (-1, v)
  | some e =>
    match e.dInode with
    | none => (-1, v)
    | some i => unlinkInode dir dentry i e.dName.1 v

/-- `ext4_rmdir` from the removal of the entry on, for the inode `i` with the number `ino`. -/
def rmdirInode (dir dentry i ino : ℕ) (v : Ext4Vfs) : ℤ × Ext4Vfs :=
  let v := unhook dentry v
  let v := (modifyInfo i (fun inode ↦ { inode with iNlink := u32 (inode.iNlink + (2 ^ 32 - 2)) }) v).2
  let v := (modifyInfo dir (fun inode ↦ { inode with iNlink := u32 (inode.iNlink + (2 ^ 32 - 1)) }) v).2
  let v := (deleteInode i v).2
  match writeInode i v with
  | (none, v) => (eIo, v)
  | (some _, v) =>
    match onFs (Fs.ext4FreeInode ino) v with
    | (none, v) => (eIo, v)
    | (some _, v) =>
      let v := (writeInode dir (ext4DestroyInode i v)).2
      (0, (onFs (Fs.decUsedDirs ino) v).2)

/-- `ext4_rmdir(dir, dentry)` -/
def ext4Rmdir (dir dentry : ℕ) (v : Ext4Vfs) : ℤ × Ext4Vfs :=
  match v.dcache dentry with
  | none => (eNoent, v)
  | some e =>
    match e.dInode with
    | none => (eNoent, v)
    | some i =>
      match v.inodes i with
      | none => (eNoent, v)
      | some n =>
        match onInode i (FsInode.ext4DirForeach countNonDotEntries 0) v with
        | (none, v) => (eIo, v)
        | (some r, v) =>
          if r.2 > 0 then (eNotempty, v)
          else
            match onInode dir (FsInode.ext4RemoveEntry e.dName.1) v with
            | (none, v) => (eNoent, v)
            | (some _, v) => rmdirInode dir dentry i n.node.info.iIno v

/-! ### The operations of files -/

/-- `ext4_file_open(inode, file)` and, for a directory, `ext4_dir_open(inode, file)` -/
def ext4FileOpen (i : ℕ) (f : File) (v : Ext4Vfs) : (ℤ × File) × Ext4Vfs :=
  let f := { f with fInode := i, fPos := 0 }
  match v.inodes i with
  | none => ((0, f), v)
  | some n =>
    if !n.node.dirOps && sIsreg n.node.info.iMode && (f.fFlags &&& oTrunc != 0) && (f.fFlags &&& 3 != 0) then
      let v := (onInode i FsInode.ext4FreeInodeDataBlocks v).2
      let v := (modifyInfo i (fun inode ↦ { inode with dirty := true }) v).2
      match writeInode i v with
      | (none, v) => ((0, f), v)
      | (some _, v) => ((0, f), (modifyInfo i (fun inode ↦ { inode with dirty := false }) v).2)
    else ((0, f), v)

/-- `ext4_file_release(inode, file)`; nothing is written for an inode that was destroyed. -/
def ext4Release (f : File) (v : Ext4Vfs) : Ext4Vfs := (onInode f.fInode FsFile.ext4FileRelease v).2

/-! ### The tables -/

/-- `ext4_dir_inode_operations` -/
def ext4DirInodeOperations : InodeOperations Ext4Inode Ext4State where
  lookup := some ext4Lookup
  mkdir := some ext4Mkdir
  create := some ext4Create

/-- `ext4_file_inode_operations` -/
def ext4FileInodeOperations : InodeOperations Ext4Inode Ext4State := ⟨none, none, none⟩

/-- The operations of ext4. -/
def ext4FileSystem : FileSystem Ext4Inode Ext4State where
  iMode n := n.info.iMode
  iOp n := some (if n.dirOps then ext4DirInodeOperations else ext4FileInodeOperations)
  fopOpen _ := some ext4FileOpen
  destroyInode := ext4DestroyInode

end MiniExt4
