import MiniExt4.Vfs.Ext4Ops

/-!
# The calls of the VFS (`fs/dir.c`, `fs/open.c`)

`vfs_chdir`, `vfs_unlink`, `vfs_rmdir` and `vfs_stat` look a path up from the root or from the current
directory and then work on the dentry, on which the lookup has taken a reference. `vfs_close` gives the
reference of an open file back. `VfsCall` is a call with its arguments, and `VfsCall.run` what it does.

The calls are written over any filesystem, with its operations as a parameter; the instance for ext4 is at
the end. A call that is refused returns the state it has come to, so what it has taken by then is visible.
-/

namespace MiniExt4

open Touch Namei

/-- The other operations of a filesystem. -/
structure FileSystemOps (ι σ : Type) extends FileSystem ι σ where
  /-- `i_op->unlink(dir, dentry)` -/
  unlink : ι → Option (ℕ → ℕ → Vfs ι σ → ℤ × Vfs ι σ)
  /-- `i_op->rmdir(dir, dentry)` -/
  rmdir : ι → Option (ℕ → ℕ → Vfs ι σ → ℤ × Vfs ι σ)
  /-- `f->f_op->release(f->f_inode, f)` -/
  release : File → Vfs ι σ → Vfs ι σ

variable {ι σ : Type} (fs : FileSystemOps ι σ)

/-- The inode of a dentry, `dentry->d_inode`. -/
def Vfs.inodeOf (v : Vfs ι σ) (d : ℕ) : Option (VfsInode ι) := (v.dInode d).bind v.inodes

namespace PathCalls

/-- What the calls begin with: the root, and the current directory. -/
def withCwd {α : Type} (error : ℤ → α) (v : Vfs ι σ) (go : ℕ → ℕ → Vfs ι σ → Touch (α × Vfs ι σ)) :
    Touch (α × Vfs ι σ) :=
  match v.sRoot with
  | none => pure (error eNodev, v)
  | some root =>
    let r := vfsGetCwdDentry v
    match r.1 with
    | none => pure (error eInval, r.2)
    | some cwd => go root cwd r.2

/-- The lookup of a path from the root or from the current directory. -/
def lookupFrom (root cwd : ℕ) (path : List Byte) (name : Buf) (v : Vfs ι σ) : Touch (Option ℕ × Vfs ι σ) :=
  vfsPathLookup fs.toFileSystem (fun _ ↦ pure ()) (if path.head? = some slash then root else cwd) path name v

/-- The end of `vfs_chdir`, from the dentry that was found on. -/
def chdirTo (root cwd target : ℕ) (v : Vfs ι σ) : ℤ × Vfs ι σ :=
  match v.inodeOf target with
  | none => (eNoent, dput fs.toFileSystem target v)
  | some n =>
    if sIsdir (fs.iMode n.node) = false then (eNotdir, dput fs.toFileSystem target v)
    else if target = cwd then (0, if target ≠ root then dput fs.toFileSystem target v else v)
    else
      let v := dput fs.toFileSystem cwd (dget target v)
      let v := if target ≠ root then dput fs.toFileSystem target v else v
      (0, { v with vfsCwd := some target })

/-- The end of `vfs_unlink` and `vfs_rmdir`: the operation `op` of the parent directory. -/
def removeIn (op : ι → Option (ℕ → ℕ → Vfs ι σ → ℤ × Vfs ι σ)) (target : ℕ) (v : Vfs ι σ) :
    ℤ × Vfs ι σ :=
  match (v.dParent target).bind fun parent ↦ (v.dInode parent).bind fun dir ↦
      ((v.inodes dir).bind fun n ↦ op n.node).map fun f ↦ (dir, f) with
  | none => (eInval, dput fs.toFileSystem target v)
  | some (dir, f) =>
    let r := f dir target v
    (if r.1 = 0 then 0 else coerceFsErrno r.1, dput fs.toFileSystem target r.2)

/-- The end of `vfs_unlink`. A dentry without inode is not given back. -/
def unlinkAt (target : ℕ) (v : Vfs ι σ) : ℤ × Vfs ι σ :=
  match v.inodeOf target with
  | none => (eNoent, v)
  | some n =>
    if sIsdir (fs.iMode n.node) then (eIsdir, dput fs.toFileSystem target v)
    else removeIn fs fs.unlink target v

/-- The end of `vfs_rmdir`. -/
def rmdirAt (root cwd target : ℕ) (v : Vfs ι σ) : ℤ × Vfs ι σ :=
  match v.inodeOf target with
  | none => (eNoent, dput fs.toFileSystem target v)
  | some n =>
    if sIsdir (fs.iMode n.node) = false then (eNotdir, dput fs.toFileSystem target v)
    else if target = root ∨ target = cwd then (eBusy, dput fs.toFileSystem target v)
    else removeIn fs fs.rmdir target v

/-- The end of `vfs_stat`: the inode that `st` is filled in from. -/
def statAt (target : ℕ) (v : Vfs ι σ) : Except ℤ ι × Vfs ι σ :=
  match v.inodeOf target with
  | none => (.error eNoent, dput fs.toFileSystem target v)
  | some n => (.ok n.node, dput fs.toFileSystem target v)

/-- A lookup, and what is done with the dentry it finds. -/
def atPath {α : Type} (error : ℤ → α) (root cwd : ℕ) (path : List Byte) (name : Buf)
    (go : ℕ → Vfs ι σ → α × Vfs ι σ) (v : Vfs ι σ) : Touch (α × Vfs ι σ) := do
  let r ← lookupFrom fs root cwd path name v
  match r.1 with
  | none => pure (error eNoent, r.2)
  | some target => pure (go target r.2)

end PathCalls

open PathCalls

/-- `vfs_chdir(path)`, with what the array of `vfs_path_lookup` holds before. -/
def vfsChdir (path : List Byte) (name : Buf) (v : Vfs ι σ) : Touch (ℤ × Vfs ι σ) :=
  if path = [] then pure (eInval, v)
  else withCwd id v fun root cwd v ↦
    -- `cd /` goes to the root without a lookup
    if path = [slash] then pure (chdirTo fs root cwd root v)
    else atPath fs id root cwd path name (chdirTo fs root cwd) v

/-- `vfs_unlink(path)` -/
def vfsUnlink (path : List Byte) (name : Buf) (v : Vfs ι σ) : Touch (ℤ × Vfs ι σ) :=
  if path = [] then pure (eInval, v)
  else if (v.sRoot.bind v.dInode).isNone then pure (eNodev, v)
  else withCwd id v fun root cwd v ↦ atPath fs id root cwd path name (unlinkAt fs) v

/-- `vfs_rmdir(path)` -/
def vfsRmdir (path : List Byte) (name : Buf) (v : Vfs ι σ) : Touch (ℤ × Vfs ι σ) :=
  if path = [] then pure (eInval, v)
  else if (v.sRoot.bind v.dInode).isNone then pure (eNodev, v)
  else withCwd id v fun root cwd v ↦ atPath fs id root cwd path name (rmdirAt fs root cwd) v

/-- `vfs_stat(path, st)` -/
def vfsStat (path : List Byte) (name : Buf) (v : Vfs ι σ) : Touch (Except ℤ ι × Vfs ι σ) :=
  if (v.sRoot.bind v.dInode).isNone then pure (.error eNodev, v)
  else withCwd .error v fun root cwd v ↦ atPath fs .error root cwd path name (statAt fs) v

/-- `vfs_close(fd)` -/
def vfsClose (fd : ℕ) (v : Vfs ι σ) : ℤ × Vfs ι σ :=
  match (if fd < maxFd then v.fds fd else none) with
  | none => (eBadf, v)
  | some f =>
    let v := dput fs.toFileSystem f.fPathDentry (fs.release f v)
    (0, { v with fds := Function.update v.fds fd none })

/-- A call, with what the arrays on its stack hold before. -/
inductive VfsCall
  | open (path : List Byte) (flags mode : ℕ) (name name' parentBuf : Buf)
  | close (fd : ℕ)
  | mkdir (path : List Byte) (mode : ℕ) (name name' parentBuf : Buf)
  | chdir (path : List Byte) (name : Buf)
  | unlink (path : List Byte) (name : Buf)
  | rmdir (path : List Byte) (name : Buf)
  | stat (path : List Byte) (name : Buf)

namespace VfsCall

/-- The state after a call. -/
def run (v : Vfs ι σ) : VfsCall → Vfs ι σ
  | .open path flags mode name name' parentBuf =>
    (vfsOpen fs.toFileSystem path flags mode name name' parentBuf v).val.2
  | close fd => (vfsClose fs fd v).2
  | mkdir path mode name name' parentBuf =>
    (vfsMkdir fs.toFileSystem path mode name name' parentBuf v).val.2
  | chdir path name => (vfsChdir fs path name v).val.2
  | unlink path name => (vfsUnlink fs path name v).val.2
  | rmdir path name => (vfsRmdir fs path name v).val.2
  | stat path name => (vfsStat fs path name v).val.2

/-- The state after a run of calls. -/
def runAll (calls : List VfsCall) (v : Vfs ι σ) : Vfs ι σ := calls.foldl (run fs) v

theorem runAll_append (calls calls' : List VfsCall) (v : Vfs ι σ) :
    runAll fs (calls ++ calls') v = runAll fs calls' (runAll fs calls v) := List.foldl_append ..

end VfsCall

/-! ### ext4 -/

/-- The operations of ext4. -/
def ext4FileSystemOps : FileSystemOps Ext4Inode Ext4State where
  toFileSystem := ext4FileSystem
  unlink n := if n.dirOps then some ext4Unlink else none
  rmdir n := if n.dirOps then some ext4Rmdir else none
  release := ext4Release

/-- The end of `ext4_fill_super`: the inode and the dentry of the root. -/
def ext4FillRoot (rootIno : ℕ) (v : Ext4Vfs) : Option Ext4Vfs :=
  match ext4Iget rootIno v with
  | (none, _) => none
  | (some i, v) =>
    let v := v.setInode i ((v.inodes i).map fun n ↦
      if sIsdir n.node.info.iMode then n
      -- a root whose type is damaged is made a directory
      else { n with node := ⟨{ n.node.info with iMode := sIfdir ||| 0o755, iNlink := 2 }, true⟩ })
    match (do
      let q ← qstrInit (fun _ ↦ slash) 1
      dAlloc none q v).val with
    | (none, _) => none
    | (some d, v) =>
      let v := (dInstantiate d i v).modifyDentry d fun e ↦ { e with dParent := some d }
      some { v with sRoot := some d }

end MiniExt4
