import MiniExt4.Vfs.Getdents
import MiniExt4.Vfs.Walk

/-!
# Creating by path (`vfs_mkdir` in `fs/dir.c`, `vfs_open` in `fs/open.c`)

Both functions cut the path at its last slash. What stands before it is copied to `parent_buf` and looked
up, what stands behind it is copied to `name_buf` and becomes the name of a new dentry. The copy of the
parent is made only if it fits, the copy of the name is cut off after 255 bytes while its length is counted
on.
-/

namespace MiniExt4

open Touch Namei

/-- `-ENOENT` -/
def eNoent : ℤ := -2

/-- `-EIO` -/
def eIo : ℤ := -5

/-- `-ENOMEM` -/
def eNomem : ℤ := -12

/-- `-ENODEV` -/
def eNodev : ℤ := -19

/-- `-ENOTDIR` -/
def eNotdir : ℤ := -20

/-- `-EMFILE` -/
def eMfile : ℤ := -24

/-- `O_CREAT` -/
def oCreat : ℕ := 0o100

/-- `O_EXCL` -/
def oExcl : ℕ := 0o200

/-- `MAX_FD` -/
def maxFd : ℕ := 256

/-- `sizeof(parent_buf)` -/
def parentBufSize : ℕ := 256

/-- `coerce_fs_errno(ret)` for a result that is not 0; a positive one is `-EIO` too. -/
def coerceFsErrno (ret : ℤ) : ℤ := if ret < 0 ∧ ret ≠ -1 then ret else eIo

variable {ι σ : Type} (fs : FileSystem ι σ)

/-- `vfs_get_cwd_dentry()`, which is the root as long as no directory was changed to. -/
def vfsGetCwdDentry (v : Vfs ι σ) : Option ℕ × Vfs ι σ :=
  match v.sRoot with
  | none => (none, v)
  | some root =>
    match v.vfsCwd with
    | some cwd => (some cwd, v)
    | none => (some root, { dget root v with vfsCwd := some root })

namespace Create

/-! ### The parts of a path -/

/-- The scan for the last `'/'`: the string from there on. -/
def lastSep : List Byte → Option (List Byte) → Option (List Byte)
  | [], last => last
  | c :: s, last => lastSep s (if c = slash then some (c :: s) else last)

/-- The loop that copies the parent's path. -/
def copyBytes : List Byte → ℕ → Buf → Touch Buf
  | [], _, buf => pure buf
  | c :: s, i, buf => do
    touch i 1
    copyBytes s (i + 1) (Function.update buf i c)

/-- `parent_buf` with the first `len` bytes of `rel` and a NUL. -/
def storeParent (rel : List Byte) (len : ℕ) (buf : Buf) : Touch Buf := do
  let buf ← copyBytes (rel.take len) 0 buf
  touch len 1
  pure (Function.update buf len 0)

/-- `vfs_path_lookup(start, parent_buf)`: the path it reads is the string in the array. -/
def lookupParent (start len : ℕ) (parentBuf name : Buf) (v : Vfs ι σ) : Touch (Option ℕ × Vfs ι σ) :=
  vfsPathLookup fs (fun s ↦ touch (len - s.length) 1) start ((List.range len).map parentBuf) name v

/-- The copy of the last component: its length and `name_buf`, or nothing where there is a slash in it. -/
def storeLast (last : List Byte) (name : Buf) : Touch (Option (ℕ × Buf)) := do
  let r ← storeName (fun _ ↦ pure ()) last 0 name
  if r.1 ≠ [] then pure none
  else do
    let nul := if r.2.1 < 255 then r.2.1 else 255
    touch nul 1
    pure (some (r.2.1, Function.update r.2.2 nul 0))

/-! ### The steps that both functions take -/

variable {α β : Type}

/-- The copy of the name and the new dentry with it, for the operation `op` of the directory: `noOp` is
what happens to the state where the directory lacks it, `make` is the call of the operation. -/
def entryIn (op : InodeOperations ι σ → Option α) (error : ℤ → β) (noOp : Vfs ι σ → Vfs ι σ)
    (make : ℕ → α → ℕ → Vfs ι σ → β × Vfs ι σ) (parent : ℕ) (last : List Byte) (name : Buf)
    (v : Vfs ι σ) : Touch (β × Vfs ι σ) := do
  match ← storeLast last name with
  | none => pure (error eInval, v)
  | some (len, name) =>
    match inodeOp fs op parent v with
    | none => pure (error eInval, noOp v)
    | some (dir, f) => do
      let q ← qstrInit name len
      let r ← dAlloc (some parent) q v
      match r.1 with
      | none => pure (error eNomem, r.2)
      | some dentry => pure (make dir f dentry r.2)

/-- The lookup of the parent, for a path cut at `sep`: `notDir` is what happens to the state
where it is no directory, `inDir` goes on with the last component. -/
def entryBelow (error : ℤ → β) (notDir : ℕ → Vfs ι σ → Vfs ι σ)
    (inDir : ℕ → List Byte → Vfs ι σ → Touch (β × Vfs ι σ)) (start : ℕ) (rel sep : List Byte)
    (name' parentBuf : Buf) (v : Vfs ι σ) : Touch (β × Vfs ι σ) := do
  let parentLen := rel.length - sep.length
  if parentLen = 0 ∨ parentBufSize ≤ parentLen then pure (error eInval, v)
  else
    let parentBuf ← storeParent rel parentLen parentBuf
    let r ← lookupParent fs start parentLen parentBuf name' v
    match r.1 with
    | none => pure (error eNoent, r.2)
    | some parent =>
      match (r.2.dInode parent).bind r.2.inodes with
      | none => pure (error eNoent, r.2)
      | some n =>
        if sIsdir (fs.iMode n.node) = false then pure (error eNotdir, notDir parent r.2)
        else if sep.tail = [] then pure (error eInval, r.2)
        else inDir parent sep.tail r.2

/-- The way to the directory for the last component of `rel`; `inDir true` is for a parent that comes from
a lookup. -/
def entryAt (error : ℤ → β) (notDir : ℕ → Vfs ι σ → Vfs ι σ)
    (inDir : Bool → ℕ → List Byte → Vfs ι σ → Touch (β × Vfs ι σ)) (start : ℕ) (rel : List Byte)
    (name' parentBuf : Buf) (v : Vfs ι σ) : Touch (β × Vfs ι σ) :=
  match lastSep rel none with
  | none => inDir false start rel v
  | some sep => entryBelow fs error notDir (inDir true) start rel sep name' parentBuf v

end Create

open Create

/-! ### `vfs_mkdir` -/

namespace Create

/-- `dput(parent)` where the parent comes from a lookup. -/
def dputIf (fromLookup : Bool) (parent : ℕ) (v : Vfs ι σ) : Vfs ι σ :=
  if fromLookup then dput fs parent v else v

/-- `vfs_mkdir` from the copy of the name on. -/
def mkdirIn (mode : ℕ) (name : Buf) (fromLookup : Bool) (parent : ℕ) (last : List Byte) (v : Vfs ι σ) :
    Touch (ℤ × Vfs ι σ) :=
  entryIn fs InodeOperations.mkdir id (dputIf fs fromLookup parent)
    (fun dir mkdir dentry v ↦
      let mr := mkdir dir dentry mode v
      (if mr.1 = 0 then 0 else coerceFsErrno mr.1,
        dputIf fs fromLookup parent (dput fs dentry mr.2)))
    parent last name v

end Create

/-- `vfs_mkdir(path, mode)`, with what `name_buf`, the one of `vfs_path_lookup` and `parent_buf` hold
before. -/
def vfsMkdir (path : List Byte) (mode : ℕ) (name name' parentBuf : Buf) (v : Vfs ι σ) :
    Touch (ℤ × Vfs ι σ) :=
  if path = [] then pure (eInval, v)
  else
    match v.sRoot with
    | none => pure (eNodev, v)
    | some root =>
      if (v.dInode root).isNone then pure (eNodev, v)
      else
        let r := vfsGetCwdDentry v
        match r.1 with
        | none => pure (eInval, r.2)
        | some cwd =>
          let start := if path.head? = some slash then root else cwd
          let rel := path.dropWhile (· == slash)
          if rel = [] then pure (eInval, r.2)
          else entryAt fs id (dput fs) (mkdirIn fs mode name) start rel name' parentBuf r.2

/-! ### `vfs_open` -/

namespace Create

/-- The creation in `vfs_open` from the copy of the name on: the new dentry, or the error. A parent that
comes from a lookup is not given back. -/
def createIn (flags mode : ℕ) (name : Buf) (_fromLookup : Bool) (parent : ℕ) (last : List Byte)
    (v : Vfs ι σ) : Touch (Except ℤ ℕ × Vfs ι σ) :=
  entryIn fs InodeOperations.create .error id
    (fun dir create dentry v ↦
      let cr := create dir dentry mode (flags &&& oExcl != 0) v
      if cr.1 = 0 then (.ok dentry, cr.2) else (.error (coerceFsErrno cr.1), dput fs dentry cr.2))
    parent last name v

/-- The creation of `vfs_open` where the path was not found. -/
def openCreate (root cwd : ℕ) (path : List Byte) (flags mode : ℕ) (name name' parentBuf : Buf)
    (v : Vfs ι σ) : Touch (Except ℤ ℕ × Vfs ι σ) :=
  if path = [] then pure (.error eInval, v)
  else
    let start := if path.head? = some slash then root else cwd
    let rel := path.dropWhile (· == slash)
    if rel = [] then pure (.error eInval, v)
    else entryAt fs .error (fun _ v ↦ v) (createIn fs flags mode name) start rel name' parentBuf v

/-- The dentry that `vfs_open` finds at the path. -/
def openTarget (root cwd : ℕ) (path : List Byte) (name : Buf) (v : Vfs ι σ) : Touch (Option ℕ × Vfs ι σ) :=
  if path = [] then pure (some cwd, v)
  else if path = [slash] then pure (some root, v)
  else vfsPathLookup fs (fun _ ↦ pure ()) (if path.head? = some slash then root else cwd) path name v

/-- The end of `vfs_open`: the file is filled in, opened and entered into the table. -/
def openFile (fd target flags mode : ℕ) (v : Vfs ι σ) : ℤ × Vfs ι σ :=
  match v.dInode target with
  -- `target->d_inode` is not `NULL` here
  | none => (eNoent, v)
  | some i =>
    let f : File := ⟨i, target, 0, flags, mode, 1⟩
    match (v.inodes i).bind fun n ↦ fs.fopOpen n.node with
    | none => (fd, { v with fds := Function.update v.fds fd (some f) })
    | some fopOpen =>
      let r := fopOpen i f v
      if r.1.1 < 0 then (coerceFsErrno r.1.1, dput fs target r.2)
      else (fd, { r.2 with fds := Function.update r.2.fds fd (some r.1.2) })

end Create

/-- The first descriptor that is not used. -/
def freeFd (v : Vfs ι σ) : Option ℕ := (List.range maxFd).find? fun fd ↦ (v.fds fd).isNone

/-- `vfs_open(path, flags, mode)`, with what its arrays hold before. -/
def vfsOpen (path : List Byte) (flags mode : ℕ) (name name' parentBuf : Buf) (v : Vfs ι σ) :
    Touch (ℤ × Vfs ι σ) :=
  match freeFd v with
  | none => pure (eMfile, v)
  | some fd =>
    let r := vfsGetCwdDentry v
    match r.2.sRoot, r.1 with
    | some root, some cwd => do
      let r ← openTarget fs root cwd path name' r.2
      match r.1.bind fun target ↦ (r.2.dInode target).map fun _ ↦ target with
      | some target => pure (openFile fs fd target flags mode r.2)
      | none =>
        if flags &&& oCreat = 0 then pure (eNoent, r.2)
        else
          let r ← openCreate fs root cwd path flags mode name name' parentBuf r.2
          match r.1 with
          | .error e => pure (e, r.2)
          | .ok target => pure (openFile fs fd target flags mode r.2)
    | _, _ => pure (eNodev, r.2)

end MiniExt4
