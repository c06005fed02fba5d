import MiniExt4.Machine.Touch

/-!
# The dentry cache (`fs/dcache.c`)

The dentries and the in-core inodes live in two static pools, and a pointer to one is its index. A free
slot is `none`: what an earlier user left in it is cleared before it is handed out again. The list
`d_subdirs` of a dentry is the list of the dentries on it, and `d_child` is empty where a dentry is not on
the list of its parent.

The filesystem below is a parameter: `ι` is what it keeps in an inode, `σ` is its own state, and its
operations are the function pointers of `struct inode_operations` and `struct super_operations`.

A name comes in as a pointer into an array of the caller, with a length. The functions that read it run
over `Touch` and say which of its bytes they read.
-/

namespace MiniExt4

open Touch

/-- `DCACHE_MAX_DENTRIES` -/
def dcacheMaxDentries : ℕ := 256

/-- `VFS_MAX_INODES` -/
def vfsMaxInodes : ℕ := 128

/-- `sizeof(dentry->d_iname)` -/
def dnameInlineLen : ℕ := 32

/-- A name that fits into `d_iname` together with its NUL. -/
abbrev DName : Type := {name : List Byte // name.length < dnameInlineLen}

/-- `struct qstr` -/
structure Qstr where
  /-- the array that `name` points to -/
  name : Buf
  len : ℕ
  hash : BitVec 32

/-- `struct dentry` -/
structure Dentry where
  dCount : ℕ
  dName : DName
  hash : BitVec 32
  dParent : Option ℕ
  dSubdirs : List ℕ
  dInode : Option ℕ

/-- `struct inode`: the reference count, and what the filesystem keeps. -/
structure VfsInode (ι : Type) where
  iCount : ℕ
  node : ι

/-- `struct file` -/
structure File where
  fInode : ℕ
  fPathDentry : ℕ
  fPos : ℕ
  fFlags : ℕ
  fMode : ℕ
  fCount : ℕ

/-- The file-scope variables of the VFS, and the filesystem. -/
structure Vfs (ι σ : Type) where
  /-- `dcache_pool` and `dcache_used` -/
  dcache : ℕ → Option Dentry
  /-- `vfs_inode_pool` and `vfs_inode_used` -/
  inodes : ℕ → Option (VfsInode ι)
  fs : σ
  /-- `vfs_get_root_sb()->s_root` -/
  sRoot : Option ℕ
  /-- `vfs_cwd` -/
  vfsCwd : Option ℕ
  /-- `global_fd_table` and `fd_used` -/
  fds : ℕ → Option File

/-- The members of `struct inode_operations` that path walking, `vfs_mkdir` and `vfs_open` call. -/
structure InodeOperations (ι σ : Type) where
  /-- `lookup(dir, dentry, flags)` -/
  lookup : Option (ℕ → ℕ → Vfs ι σ → Option ℕ × Vfs ι σ)
  /-- `mkdir(dir, dentry, mode)` -/
  mkdir : Option (ℕ → ℕ → ℕ → Vfs ι σ → ℤ × Vfs ι σ)
  /-- `create(dir, dentry, mode, excl)` -/
  create : Option (ℕ → ℕ → ℕ → Bool → Vfs ι σ → ℤ × Vfs ι σ)

/-- The operations of a filesystem. -/
structure FileSystem (ι σ : Type) where
  /-- `inode->i_mode` -/
  iMode : ι → ℕ
  /-- `inode->i_op` -/
  iOp : ι → Option (InodeOperations ι σ)
  /-- `inode->i_fop->open(inode, file)` -/
  fopOpen : ι → Option (ℕ → File → Vfs ι σ → (ℤ × File) × Vfs ι σ)
  /-- `sb->s_op->destroy_inode(inode)` -/
  destroyInode : ℕ → Vfs ι σ → Vfs ι σ

variable {ι σ : Type}

namespace Vfs

/-- Store the dentry `d`. -/
def setDentry (v : Vfs ι σ) (d : ℕ) (e : Option Dentry) : Vfs ι σ :=
  { v with dcache := Function.update v.dcache d e }

/-- Store the inode `i`. -/
def setInode (v : Vfs ι σ) (i : ℕ) (n : Option (VfsInode ι)) : Vfs ι σ :=
  { v with inodes := Function.update v.inodes i n }

/-- Change the dentry `d`, where it is in use. -/
def modifyDentry (v : Vfs ι σ) (d : ℕ) (f : Dentry → Dentry) : Vfs ι σ :=
  v.setDentry d ((v.dcache d).map f)

/-- `dentry->d_inode` -/
def dInode (v : Vfs ι σ) (d : ℕ) : Option ℕ := (v.dcache d).bind Dentry.dInode

/-- `dentry->d_parent` -/
def dParent (v : Vfs ι σ) (d : ℕ) : Option ℕ := (v.dcache d).bind Dentry.dParent

end Vfs

/-! ### Names -/

/-- The loop of `d_hash_string` over the first bytes. -/
def dHashString (str : Buf) : ℕ → Touch (BitVec 32)
  | 0 => pure 0
  | n + 1 => do
    let hash ← dHashString str n
    touch n 1
    pure ((hash <<< 5) - hash + (str n).setWidth 32)

/-- `qstr_init(qstr, name, len)` -/
def qstrInit (name : Buf) (len : ℕ) : Touch Qstr := do
  let hash ← dHashString name len
  pure ⟨name, len, hash⟩

/-- The bytes of a name. -/
def Qstr.bytes (q : Qstr) : List Byte := (List.range q.len).map q.name

/-! ### References -/

/-- `dget(dentry)` -/
def dget (d : ℕ) (v : Vfs ι σ) : Vfs ι σ := v.modifyDentry d fun e ↦ { e with dCount := e.dCount + 1 }

/-- The simplified `iput` of `dput`: the last reference but the one of the allocation destroys the
inode. -/
def iput (fs : FileSystem ι σ) (i : ℕ) (v : Vfs ι σ) : Vfs ι σ :=
  match v.inodes i with
  | none => v
  | some n =>
    let v := v.setInode i (some { n with iCount := n.iCount - 1 })
    if n.iCount - 1 ≤ 1 then fs.destroyInode i v else v

/-- `list_del(&dentry->d_child)` -/
def listDel (d : ℕ) (parent : Option ℕ) (v : Vfs ι σ) : Vfs ι σ :=
  match parent with
  | none => v
  | some p => v.modifyDentry p fun e ↦ { e with dSubdirs := e.dSubdirs.erase d }

/-- `dput(dentry)`, which goes up along the parents while the dentries become unused. -/
def dputUp (fs : FileSystem ι σ) : ℕ → ℕ → Vfs ι σ → Vfs ι σ
  | 0, _, v => v
  | fuel + 1, d, v =>
    match v.dcache d with
    | none => v
    | some e =>
      if e.dCount - 1 ≠ 0 then v.setDentry d (some { e with dCount := e.dCount - 1 })
      else
        let v := listDel d e.dParent v
        let v := match e.dInode with
          | none => v
          | some i => iput fs i v
        let v := v.setDentry d none
        match e.dParent with
        | none => v
        | some p => if p ≠ d then dputUp fs fuel p v else v

/-- `dput(dentry)`: every dentry on the way up is freed, so there are at most as many as in the pool. -/
def dput (fs : FileSystem ι σ) (d : ℕ) (v : Vfs ι σ) : Vfs ι σ := dputUp fs dcacheMaxDentries d v

/-! ### Allocation and lookup -/

/-- The first slot of the pool that is free. -/
def freeDentry (v : Vfs ι σ) : Option ℕ := (List.range dcacheMaxDentries).find? fun d ↦ (v.dcache d).isNone

/-- `d_alloc(parent, name)` -/
def dAlloc (parent : Option ℕ) (name : Qstr) (v : Vfs ι σ) : Touch (Option ℕ × Vfs ι σ) :=
  match freeDentry v with
  | none => pure (none, v)
  | some d =>
    if h : name.len < dnameInlineLen then do
      touch 0 name.len
      let dentry : Dentry :=
        { dCount := 1
          dName := ⟨name.bytes, by simpa [Qstr.bytes] using h⟩
          hash := name.hash
          dParent := parent
          dSubdirs := []
          dInode := none }
      let v := v.setDentry d (some dentry)
      pure (some d, match parent with
        | none => v
        | some p => dget p v)
    else pure (none, v)

/-- The loop of `d_lookup` over the list. -/
def dLookupLoop (v : Vfs ι σ) (name : Qstr) : List ℕ → Touch (Option ℕ)
  | [] => pure none
  | d :: l => do
    match v.dcache d with
    | none => dLookupLoop v name l
    | some e =>
      if e.dName.1.length = name.len then
        if ← memcmpEq name.name 0 e.dName.1 then pure (some d) else dLookupLoop v name l
      else dLookupLoop v name l

/-- `d_lookup(parent, name)` -/
def dLookup (parent : ℕ) (name : Qstr) (v : Vfs ι σ) : Touch (Option ℕ × Vfs ι σ) := do
  let subdirs := ((v.dcache parent).map Dentry.dSubdirs).getD []
  match ← dLookupLoop v name subdirs with
  | none => pure (none, v)
  | some d => pure (some d, dget d v)

/-- `d_instantiate(dentry, inode)` with an inode. -/
def dInstantiate (d i : ℕ) (v : Vfs ι σ) : Vfs ι σ :=
  let v := v.modifyDentry d fun e ↦ { e with dInode := some i }
  let v := v.setInode i ((v.inodes i).map fun n ↦ { n with iCount := n.iCount + 1 })
  match v.dParent d with
  | none => v
  | some p => v.modifyDentry p fun e ↦
      if d ∈ e.dSubdirs then e else { e with dSubdirs := d :: e.dSubdirs }

/-! ### The state -/

namespace Vfs

variable {v : Vfs ι σ} {d d' : ℕ} {f : Dentry → Dentry}

@[simp] theorem dcache_setDentry (e : Option Dentry) :
    (v.setDentry d e).dcache = Function.update v.dcache d e := rfl

@[simp] theorem dcache_modifyDentry :
    (v.modifyDentry d f).dcache = Function.update v.dcache d ((v.dcache d).map f) := rfl

/-- A change that keeps the inode of a dentry keeps all of them. -/
theorem dInode_modifyDentry (hf : ∀ e, (f e).dInode = e.dInode) :
    (v.modifyDentry d f).dInode d' = v.dInode d' := by
  rw [dInode, dInode, dcache_modifyDentry]
  by_cases h : d' = d
  · rw [h, Function.update_self]
    rcases v.dcache d with _ | e
    · rfl
    · exact hf e
  · rw [Function.update_of_ne h]

end Vfs

/-- One more use leaves the inode. -/
@[simp] theorem dInode_dget {v : Vfs ι σ} {d d' : ℕ} : (dget d v).dInode d' = v.dInode d' :=
  Vfs.dInode_modifyDentry fun _ ↦ rfl

/-! ### What a name does -/

section Names

variable {v : Vfs ι σ} {q q' : Qstr} {b b' : Buf} {c : List Byte} {d len N : ℕ} {parent : Option ℕ}

/-- The hash depends on the bytes of the name. -/
theorem val_dHashString_congr (h : ∀ i < len, b i = b' i) :
    (dHashString b len).val = (dHashString b' len).val := by
  induction len with
  | zero => rfl
  | succ n ih =>
    have hn := h n n.lt_succ_self
    have hprefix := ih fun i hi ↦ h i (hi.trans n.lt_succ_self)
    simp only [dHashString, val_bind, val_pure, hn, hprefix]

/-- So do the bytes that are kept. -/
theorem bytes_congr (h : ∀ i < len, b i = b' i) :
    (qstrInit b len).val.bytes = (qstrInit b' len).val.bytes :=
  List.map_congr_left fun i hi ↦ h i (List.mem_range.1 hi)

/-- Hashing reads all bytes of the name. -/
theorem within_dHashString : (dHashString b len).Within N ↔ len ≤ N := by
  induction len with
  | zero => exact iff_of_true (within_pure _) (Nat.zero_le N)
  | succ n ih =>
    rw [dHashString, within_bind, within_bind, ih, within_touch one_pos]
    exact ⟨fun h ↦ h.2.1, fun h ↦ ⟨by omega, h, within_pure _⟩⟩

/-- The bytes of the name are read. -/
theorem within_qstrInit : (qstrInit b len).Within N ↔ len ≤ N := by
  rw [qstrInit, within_bind, within_dHashString]
  exact ⟨And.left, fun h ↦ ⟨h, within_pure _⟩⟩

/-- A dentry has a name. -/
def Vfs.named (v : Vfs ι σ) (c : List Byte) (d : ℕ) : Bool := (v.dcache d).any fun e ↦ e.dName.1 == c

/-- No dentry has a name that does not fit. -/
theorem Vfs.named_eq_false (v : Vfs ι σ) (hc : dnameInlineLen ≤ c.length) (d : ℕ) :
    v.named c d = false := by
  rw [named]
  rcases v.dcache d with _ | e
  · rfl
  · refine beq_eq_false_iff_ne.2 ?_
    rintro rfl
    exact absurd e.dName.2 (Nat.not_lt.2 hc)

/-- The lookup takes the first dentry of that name. -/
theorem val_dLookupLoop (v : Vfs ι σ) (q : Qstr) (l : List ℕ) :
    (dLookupLoop v q l).val = l.find? (v.named q.bytes) := by
  induction l with
  | nil => rfl
  | cons d l ih =>
    rw [dLookupLoop, List.find?_cons]
    rcases hd : v.dcache d with _ | e
    · have hnamed : v.named q.bytes d = false := by rw [Vfs.named, hd]; rfl
      simp only [hnamed, ih]
    · have hnamed : v.named q.bytes d = (e.dName.1 == q.bytes) := by rw [Vfs.named, hd]; rfl
      have hlength : q.bytes.length = q.len := by simp [Qstr.bytes]
      simp only [hnamed]
      by_cases hlen : e.dName.1.length = q.len
      · have hbytes : (List.range e.dName.1.length).map (fun i ↦ q.name (0 + i)) = q.bytes := by
          simp only [hlen, Nat.zero_add, Qstr.bytes]
        rw [if_pos hlen, val_bind, val_memcmpEq, hbytes]
        by_cases heq : q.bytes = e.dName.1
        · simp [heq]
        · rw [if_neg (by simpa using heq), ih, beq_eq_false_iff_ne.2 (Ne.symm heq)]
      · have hne : e.dName.1 ≠ q.bytes := fun h ↦ hlen (by rw [h, hlength])
        rw [if_neg hlen, ih, beq_eq_false_iff_ne.2 hne]

/-- Names are compared within their arrays. -/
theorem within_dLookupLoop (hN : dnameInlineLen ≤ N) (l : List ℕ) : (dLookupLoop v q l).Within N := by
  induction l with
  | nil => exact within_pure _
  | cons d l ih =>
    rw [dLookupLoop]
    split
    · exact ih
    next e _ =>
      split
      · have he := e.dName.2
        refine (within_memcmpEq _ (by omega)).bind ?_
        split
        · exact within_pure _
        · exact ih
      · exact ih

/-- So is the name that is looked up. -/
theorem within_dLookup (hN : dnameInlineLen ≤ N) : (dLookup d q v).Within N := by
  refine (within_dLookupLoop hN _).bind ?_
  split <;> exact within_pure _

/-- A name is copied within the array of the dentry. -/
theorem within_dAlloc (hN : dnameInlineLen ≤ N) : (dAlloc parent q v).Within N := by
  rw [dAlloc]
  split
  · exact within_pure _
  · split
    next hlen =>
      refine Within.bind (fun i hi ↦ ?_) (within_pure _)
      have := List.mem_range'_1.1 hi
      omega
    · exact within_pure _

/-- A lookup takes the first child of that name and counts a use of it. -/
theorem val_dLookup (d : ℕ) (q : Qstr) (v : Vfs ι σ) : (dLookup d q v).val =
    match (((v.dcache d).map Dentry.dSubdirs).getD []).find? (v.named q.bytes) with
    | none => (none, v)
    | some d => (some d, dget d v) := by
  rw [dLookup, val_bind, val_dLookupLoop]
  split <;> rfl

/-- A name that is too long is not found. -/
theorem val_dLookup_of_le (hc : dnameInlineLen ≤ q.len) : (dLookup d q v).val = (none, v) := by
  have hlength : q.bytes.length = q.len := by simp [Qstr.bytes]
  rw [val_dLookup, List.find?_eq_none.2 fun e _ ↦ ?_]
  rw [v.named_eq_false (hlength ▸ hc)]
  exact Bool.false_ne_true

/-- Nor is a dentry made for it. -/
theorem val_dAlloc_of_le (hc : dnameInlineLen ≤ q.len) : (dAlloc parent q v).val = (none, v) := by
  rw [dAlloc]
  split
  · rfl
  · rw [dif_neg (Nat.not_lt.2 hc)]
    rfl

/-- A lookup depends on the bytes of the name. -/
theorem val_dLookup_congr (h : q.bytes = q'.bytes) : (dLookup d q v).val = (dLookup d q' v).val := by
  rw [val_dLookup, val_dLookup, h]

/-- So does a new dentry. -/
theorem val_dAlloc_congr (hlen : q.len = q'.len) (h : q.bytes = q'.bytes) (hhash : q.hash = q'.hash) :
    (dAlloc parent q v).val = (dAlloc parent q' v).val := by
  rw [dAlloc, dAlloc]
  split
  · rfl
  · by_cases hq : q.len < dnameInlineLen
    · rw [dif_pos hq, dif_pos (hlen ▸ hq)]
      simp only [val_bind, val_pure, h, hhash]
    · rw [dif_neg hq, dif_neg (hlen ▸ hq)]

end Names

end MiniExt4
