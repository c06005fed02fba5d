import MiniExt4.Machine.Tokens
import MiniExt4.Vfs.Dcache

/-!
# Path walking (`fs/namei.c`)

A path is a string, and a pointer into it is the string from there on. `rd` is what reading the byte at a
pointer touches: nothing, unless the path itself is in an array whose bounds are of interest. The walker
cuts the path into components as it goes, in an array of 256 bytes, and passes the array with the length
of the component to the dentry cache.

What a walk does depends only on the components: `vfsPathLookup` computes `walk` of the components of the
path (`val_vfsPathLookup`), whatever the array held before.

The loops are written over `Touch` because it matters which bytes of the array they read. Everything about
the value of a walk is said of `val`, and everything about the bytes of `Within`; no lemma mixes the two.
-/

namespace MiniExt4

open Touch

namespace Namei

/-- `'/'` -/
def slash : Byte := 47

/-- `'.'` -/
def dot : Byte := 46

/-- `sizeof(name_buf)` -/
def nameBufSize : ℕ := 256

/-! ### The code -/

/-- `skip_slashes(path)` -/
def skipSlashes (rd : List Byte → Touch Unit) : List Byte → Touch (List Byte)
  | [] => do
    rd []
    pure []
  | c :: p => do
    rd (c :: p)
    if c = slash then skipSlashes rd p else pure (c :: p)

/-- The loop of `next_component`, with `n` bytes of the component counted: the pointer behind the
component, its length and `name`. -/
def storeName (rd : List Byte → Touch Unit) : List Byte → ℕ → Buf → Touch (List Byte × ℕ × Buf)
  | [], n, name => do
    rd []
    pure ([], n, name)
  | c :: p, n, name => do
    rd (c :: p)
    if c = slash then pure (c :: p, n, name)
    else if n < 255 then do
      touch n 1
      storeName rd p (n + 1) (Function.update name n c)
    else storeName rd p (n + 1) name

/-- The component at a pointer, stored with its NUL. -/
def takeName (rd : List Byte → Touch Unit) (p : List Byte) (name : Buf) :
    Touch (List Byte × ℕ × Buf) := do
  let r ← storeName rd p 0 name
  let nul := if r.2.1 < 255 then r.2.1 else 255
  touch nul 1
  pure (r.1, r.2.1, Function.update r.2.2 nul 0)

/-- `next_component(&path, name, &len)`: the new pointer, the length and the array, where there is a
component. -/
def nextComponent (rd : List Byte → Touch Unit) (p : List Byte) (name : Buf) :
    Touch (Option (List Byte × ℕ × Buf)) := do
  let p ← skipSlashes rd p
  rd p
  if p = [] then pure none
  else do
    let r ← takeName rd p name
    pure (some r)

/-- `name_len == 1 && name_buf[0] == '.'` -/
def isDot (name : Buf) (len : ℕ) : Touch Bool :=
  if len = 1 then do
    touch 0 1
    pure (name 0 = dot)
  else pure false

/-- `name_len == 2 && name_buf[0] == '.' && name_buf[1] == '.'` -/
def isDotDot (name : Buf) (len : ℕ) : Touch Bool :=
  if len = 2 then do
    touch 0 1
    if name 0 = dot then do
      touch 1 1
      pure (name 1 = dot)
    else pure false
  else pure false

end Namei

variable {ι σ : Type} (fs : FileSystem ι σ)

/-- The inode of a dentry with an operation it has, `dentry->d_inode->i_op->op`. -/
def inodeOp {α : Type} (op : InodeOperations ι σ → Option α) (d : ℕ) (v : Vfs ι σ) : Option (ℕ × α) := do
  let i ← v.dInode d
  let n ← v.inodes i
  let ops ← fs.iOp n.node
  let f ← op ops
  pure (i, f)

namespace Namei

/-- The move of `vfs_path_lookup` from a dentry to its child. -/
def enter (dentry : ℕ) (child : Option ℕ) (v : Vfs ι σ) : Option ℕ × Vfs ι σ :=
  match child with
  | none => (none, dput fs dentry v)
  | some child =>
    if (v.dInode child).isNone then (none, dput fs dentry (dput fs child v))
    else (some child, dput fs dentry v)

/-- The step to the parent for `".."`. -/
def ascend (dentry : ℕ) (v : Vfs ι σ) : ℕ × Vfs ι σ :=
  match v.dParent dentry with
  | none => (dentry, v)
  | some parent => (parent, dput fs dentry (dget parent v))

/-- The lookup of a name in a directory that has an operation for it: first in the dentry cache, then in
the filesystem. -/
def lookupChild (dir : ℕ) (lookup : ℕ → ℕ → Vfs ι σ → Option ℕ × Vfs ι σ) (dentry : ℕ) (name : Buf)
    (len : ℕ) (v : Vfs ι σ) : Touch (Option ℕ × Vfs ι σ) := do
  let q ← qstrInit name len
  let r ← dLookup dentry q v
  match r.1 with
  | some child => pure (enter fs dentry (some child) r.2)
  | none => do
    let r ← dAlloc (some dentry) q r.2
    match r.1 with
    | none => pure (none, dput fs dentry r.2)
    | some child =>
      let r := lookup dir child r.2
      pure (enter fs dentry r.1 r.2)

/-- The body of the loop of `vfs_path_lookup`, for the component in `name`. -/
def walkComponent (dentry : ℕ) (name : Buf) (len : ℕ) (v : Vfs ι σ) : Touch (Option ℕ × Vfs ι σ) := do
  if ← isDot name len then pure (some dentry, v)
  else if ← isDotDot name len then
    let r := ascend fs dentry v
    pure (some r.1, r.2)
  else
    match inodeOp fs InodeOperations.lookup dentry v with
    | none => pure (none, dput fs dentry v)
    | some (dir, lookup) => lookupChild fs dir lookup dentry name len v

/-- The loop of `vfs_path_lookup`. -/
def walkLoop (rd : List Byte → Touch Unit) :
    ℕ → ℕ → List Byte → Buf → Vfs ι σ → Touch (Option ℕ × Vfs ι σ)
  | 0, dentry, _, _, v => pure (some dentry, v)
  | fuel + 1, dentry, p, name, v => do
    match ← nextComponent rd p name with
    | none => pure (some dentry, v)
    | some (p, len, name) =>
      let r ← walkComponent fs dentry name len v
      match r.1 with
      | none => pure (none, r.2)
      | some dentry => do
        let p ← skipSlashes rd p
        rd p
        if p = [] then pure (some dentry, r.2) else walkLoop rd fuel dentry p name r.2

end Namei

open Namei

/-- `vfs_path_lookup(start, path)`, with what `name_buf` holds before. -/
def vfsPathLookup (rd : List Byte → Touch Unit) (start : ℕ) (path : List Byte) (name : Buf)
    (v : Vfs ι σ) : Touch (Option ℕ × Vfs ι σ) := do
  if (v.dInode start).isNone then pure (none, v)
  else
    let v := dget start v
    let p ← skipSlashes rd path
    rd p
    if p = [] then pure (some start, v) else walkLoop fs rd path.length start p name v

namespace Namei

/-! ### Strings -/

/-- The components of a path. -/
def components (path : List Byte) : List (List Byte) := path.tokens (· == slash)

section Strings

variable {rd : List Byte → Touch Unit} {p : List Byte} {n N len : ℕ} {name : Buf}

@[simp] theorem val_skipSlashes : (skipSlashes rd p).val = p.dropWhile (· == slash) := by
  induction p with
  | nil => rfl
  | cons c p ih =>
    rw [skipSlashes, val_bind, List.dropWhile_cons]
    by_cases hc : c = slash
    · rw [if_pos hc, ih, if_pos (by simpa using hc)]
    · rw [if_neg hc, if_neg (by simpa using hc), val_pure]

theorem within_skipSlashes (hrd : ∀ s, s <:+ p → (rd s).Within N) : (skipSlashes rd p).Within N := by
  induction p with
  | nil => exact (hrd [] List.nil_suffix).bind (within_pure _)
  | cons c p ih =>
    refine (hrd _ (List.suffix_refl _)).bind ?_
    split
    · exact ih fun s hs ↦ hrd s (hs.trans (List.suffix_cons c p))
    · exact within_pure _

/-- The component is counted to its end, and as much of it is stored as there is room for. -/
theorem storeName_spec (rd : List Byte → Touch Unit) (p : List Byte) (n : ℕ) (name : Buf) :
    (storeName rd p n name).val.1 = p.dropWhile (!· == slash) ∧
      (storeName rd p n name).val.2.1 = n + (p.takeWhile (!· == slash)).length ∧
      (∀ i < n, (storeName rd p n name).val.2.2 i = name i) ∧
      ∀ i < (p.takeWhile (!· == slash)).length, n + i < 255 →
        (storeName rd p n name).val.2.2 (n + i) = (p.takeWhile (!· == slash)).getD i 0 := by
  induction p generalizing n name with
  | nil => exact ⟨rfl, rfl, fun _ _ ↦ rfl, fun i h ↦ absurd h (Nat.not_lt_zero i)⟩
  | cons c p ih =>
    rw [storeName, val_bind]
    by_cases hc : c = slash
    · simp [hc]
    · have htake : (c :: p).takeWhile (!· == slash) = c :: p.takeWhile (!· == slash) :=
        List.takeWhile_cons_of_pos (by simpa using hc)
      have hdrop : (c :: p).dropWhile (!· == slash) = p.dropWhile (!· == slash) :=
        List.dropWhile_cons_of_pos (by simpa using hc)
      rw [if_neg hc, htake, hdrop, List.length_cons]
      split
      next hn =>
        rw [val_bind]
        obtain ⟨hrest, hlen, hkept, hstored⟩ := ih (n + 1) (Function.update name n c)
        refine ⟨hrest, by omega, fun i hi ↦ ?_, fun i hi hin ↦ ?_⟩
        · rw [hkept i (by omega), Function.update_of_ne hi.ne]
        · cases i with
          | zero => exact (hkept n n.lt_succ_self).trans (Function.update_self n c name)
          | succ i =>
            have hnext := hstored i (by omega) (by omega)
            rwa [show n + 1 + i = n + (i + 1) by omega] at hnext
      next hn =>
        obtain ⟨hrest, hlen, hkept, -⟩ := ih (n + 1) name
        exact ⟨hrest, by omega, fun i hi ↦ hkept i (by omega), fun i _ hin ↦ absurd hin (by omega)⟩

theorem within_storeName (hN : 256 ≤ N) (hrd : ∀ s, s <:+ p → (rd s).Within N) :
    (storeName rd p n name).Within N := by
  induction p generalizing n name with
  | nil => exact (hrd [] List.nil_suffix).bind (within_pure _)
  | cons c p ih =>
    have hp : ∀ s, s <:+ p → (rd s).Within N := fun s hs ↦ hrd s (hs.trans (List.suffix_cons c p))
    refine (hrd _ (List.suffix_refl _)).bind ?_
    split
    · exact within_pure _
    · split
      · exact ((within_touch one_pos).2 (by omega)).bind (ih hp)
      · exact ih hp

theorem takeName_fst : (takeName rd p name).val.1 = p.dropWhile (!· == slash) :=
  (storeName_spec rd p 0 name).1

theorem takeName_len : (takeName rd p name).val.2.1 = (p.takeWhile (!· == slash)).length :=
  (storeName_spec rd p 0 name).2.1.trans (Nat.zero_add _)

/-- A component that fits is in the array. -/
theorem takeName_name (h : (p.takeWhile (!· == slash)).length ≤ 255) (i : ℕ)
    (hi : i < (p.takeWhile (!· == slash)).length) :
    (takeName rd p name).val.2.2 i = (p.takeWhile (!· == slash)).getD i 0 := by
  obtain ⟨-, hlen, -, hstored⟩ := storeName_spec rd p 0 name
  have hi' := hstored i hi (by omega)
  rw [Nat.zero_add] at hi'
  change Function.update _ _ _ i = _
  rw [Function.update_of_ne, hi']
  rw [hlen]
  split <;> omega

theorem within_takeName (hN : 256 ≤ N) (hrd : ∀ s, s <:+ p → (rd s).Within N) :
    (takeName rd p name).Within N := by
  refine (within_storeName hN hrd).bind (((within_touch one_pos).2 ?_).bind (within_pure _))
  split <;> omega

theorem val_nextComponent : (nextComponent rd p name).val =
    if p.dropWhile (· == slash) = [] then none
    else some (takeName rd (p.dropWhile (· == slash)) name).val := by
  rw [nextComponent, val_bind, val_bind, val_skipSlashes]
  split <;> rfl

theorem within_nextComponent (hN : 256 ≤ N) (hrd : ∀ s, s <:+ p → (rd s).Within N) :
    (nextComponent rd p name).Within N := by
  have hdrop : ∀ s, s <:+ p.dropWhile (· == slash) → (rd s).Within N :=
    fun s hs ↦ hrd s (hs.trans (List.dropWhile_suffix _))
  refine (within_skipSlashes hrd).bind ?_
  rw [val_skipSlashes]
  refine (hdrop _ (List.suffix_refl _)).bind ?_
  split
  · exact within_pure _
  · exact (within_takeName hN hdrop).bind (within_pure _)

end Strings

end Namei

end MiniExt4
