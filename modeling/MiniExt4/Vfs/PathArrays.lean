import MiniExt4.Vfs.Create

/-!
# The arrays of path walking

`name_buf` and `parent_buf` have 256 bytes each. Every store is guarded, but the length that goes along
with a component is not cut off, so hashing a component of more than 256 bytes reads behind the array. This
happens exactly where such a component comes to a directory (`pathArrays_iff`). A component of 32 bytes or
more is always reported: the lookup gives no dentry, and `vfs_mkdir` and `vfs_open` return an error.

For each of the three calls the reads are followed up to the component that is too long (`Overlong`), with
what the lookups before it find. `MkdirFits` and `OpenFits` state where this happens by walking the names
themselves, without the arrays: a component comes to a directory exactly if the walk along the names before
it ends in one.
-/

namespace MiniExt4

open Touch Namei Create

variable {ι σ : Type} {fs : FileSystem ι σ} {v : Vfs ι σ} {d start parent len mode flags : ℕ}
  {name name' parentBuf : Buf} {c rel last sep path : List Byte} {N : ℕ}

/-! ### Cutting a path -/

namespace Create

/-- A path without a separator has none to find. -/
theorem lastSep_of_notMem (h : slash ∉ rel) (o : Option (List Byte)) : lastSep rel o = o := by
  induction rel generalizing o with
  | nil => rfl
  | cons c s ih =>
    rw [List.mem_cons, not_or] at h
    rw [lastSep, if_neg (Ne.symm h.1), ih h.2]

/-- The scan stops at the last slash. -/
theorem lastSep_append (pre : List Byte) (h : slash ∉ last) (o : Option (List Byte)) :
    lastSep (pre ++ slash :: last) o = some (slash :: last) := by
  induction pre generalizing o with
  | nil => rw [List.nil_append, lastSep, if_pos rfl, lastSep_of_notMem h]
  | cons c pre ih => rw [List.cons_append, lastSep, ih]

/-- A string has no slash, or it is cut at its last one. -/
theorem lastSep_cases (rel : List Byte) : (slash ∉ rel ∧ lastSep rel none = none) ∨
    ∃ pre last, slash ∉ last ∧ rel = pre ++ slash :: last ∧ lastSep rel none = some (slash :: last) := by
  by_cases h : slash ∈ rel
  · obtain ⟨as, bs, hsplit, hlast⟩ := List.eq_append_cons_of_mem (List.mem_reverse.2 h)
    have hrel : rel = bs.reverse ++ slash :: as.reverse := by
      rw [← List.reverse_reverse rel, hsplit]
      simp
    have hlast' : slash ∉ as.reverse := fun hmem ↦ hlast (List.mem_reverse.1 hmem)
    exact Or.inr ⟨_, _, hlast', hrel, hrel ▸ lastSep_append _ hlast' none⟩
  · exact Or.inl ⟨h, lastSep_of_notMem h none⟩

/-! ### Copying -/

/-- Copying bytes writes them where they go and leaves what is before them. -/
theorem copyBytes_spec (s : List Byte) (i : ℕ) (buf : Buf) :
    (∀ j < i, (copyBytes s i buf).val j = buf j) ∧
      ∀ j < s.length, (copyBytes s i buf).val (i + j) = s.getD j 0 := by
  induction s generalizing i buf with
  | nil => exact ⟨fun _ _ ↦ rfl, fun j hj ↦ absurd hj (Nat.not_lt_zero j)⟩
  | cons c s ih =>
    rw [copyBytes, val_bind]
    obtain ⟨hkept, hstored⟩ := ih (i + 1) (Function.update buf i c)
    refine ⟨fun j hj ↦ ?_, fun j hj ↦ ?_⟩
    · rw [hkept j (by omega), Function.update_of_ne hj.ne]
    · cases j with
      | zero => exact (hkept i i.lt_succ_self).trans (Function.update_self i c buf)
      | succ j =>
        have hnext := hstored j (by simpa using hj)
        rwa [show i + 1 + j = i + (j + 1) by omega] at hnext

/-- The bytes are stored within the array if they end within it. -/
theorem within_copyBytes {s : List Byte} {i : ℕ} {buf : Buf} (h : i + s.length ≤ N) :
    (copyBytes s i buf).Within N := by
  induction s generalizing i buf with
  | nil => exact within_pure _
  | cons c s ih =>
    rw [List.length_cons] at h
    exact ((within_touch one_pos).2 (by omega)).bind (ih (by omega))

/-- The string in `parent_buf`. -/
theorem map_storeParent (hlen : len ≤ rel.length) (buf : Buf) :
    (List.range len).map (storeParent rel len buf).val = rel.take len := by
  obtain ⟨-, hstored⟩ := copyBytes_spec (rel.take len) 0 buf
  refine List.ext_getElem (by simpa using hlen) fun i hi hi' ↦ ?_
  have hi₀ : i < len := by simpa using hi
  have hval := hstored i hi'
  rw [Nat.zero_add, List.getD_eq_getElem _ _ hi'] at hval
  rw [List.getElem_map, List.getElem_range, ← hval]
  exact Function.update_of_ne hi₀.ne _ _

/-- The parent path is stored within an array that is longer than it. -/
theorem within_storeParent (hlen : len < N) : (storeParent rel len name).Within N := by
  refine (within_copyBytes ?_).bind (((within_touch one_pos).2 hlen).bind (within_pure _))
  have := List.length_take_le len rel
  omega

/-- The last component is stored with its length. -/
theorem val_storeLast (h : slash ∉ last) :
    ∃ name', (storeLast last name).val = some (last.length, name') := by
  have hall : ∀ c ∈ last, (!c == slash) = true := by
    intro c hc
    have hne : c ≠ slash := fun h' ↦ h (h' ▸ hc)
    simpa using hne
  obtain ⟨hrest, hlen, -⟩ := storeName_spec (fun _ ↦ pure ()) last 0 name
  rw [List.dropWhile_eq_nil_iff.2 hall] at hrest
  rw [List.takeWhile_eq_self_iff.2 hall, Nat.zero_add] at hlen
  rw [storeLast, val_bind, if_neg (not_not.2 hrest), val_bind, hlen]
  exact ⟨_, rfl⟩

/-- The last component is stored within the name array. -/
theorem within_storeLast (hN : nameBufSize ≤ N) : (storeLast last name).Within N := by
  have hN' : 256 ≤ N := hN
  refine (within_storeName hN' fun _ _ ↦ within_pure _).bind ?_
  split
  · exact within_pure _
  · refine Within.bind ((within_touch one_pos).2 ?_) (within_pure _)
    split <;> omega

/-! ### The parent -/

variable (fs) in
/-- A dentry with the inode of a directory. -/
def isDir (d : ℕ) (v : Vfs ι σ) : Bool := ((v.dInode d).bind v.inodes).any fun n ↦ sIsdir (fs.iMode n.node)

variable (fs) in
/-- The directory that the last component of a path goes to, with the component and the state then. -/
def lastDir (start : ℕ) (rel : List Byte) (v : Vfs ι σ) : Option (ℕ × List Byte × Vfs ι σ) :=
  match lastSep rel none with
  | none => some (start, rel, v)
  | some sep =>
    let parentLen := rel.length - sep.length
    if parentLen = 0 ∨ parentBufSize ≤ parentLen ∨ sep.tail = [] then none
    else
      let r := resolve fs start (rel.take parentLen) v
      r.1.bind fun parent ↦ if isDir fs parent r.2 then some (parent, sep.tail, r.2) else none

variable (fs) in
/-- The last component does not come to a directory with the operation if it has more than `N` bytes. -/
def LastFits {α : Type} (op : InodeOperations ι σ → Option α) (N start : ℕ) (rel : List Byte)
    (v : Vfs ι σ) : Prop :=
  ∀ parent last v', lastDir fs start rel v = some (parent, last, v') → N < last.length →
    inodeOp fs op parent v' = none

variable {α : Type} {op : InodeOperations ι σ → Option α} {pre : List Byte} {v' : Vfs ι σ}

/-- Without a parent directory nothing is stored. -/
theorem lastFits_of_none (h : lastDir fs start rel v = none) : LastFits fs op N start rel v :=
  fun _ _ _ h' ↦ absurd (h.symm.trans h') (Option.some_ne_none _).symm

/-- With one, a component that is too long must not be looked for in it. -/
theorem lastFits_iff_of_some (h : lastDir fs start rel v = some (parent, last, v')) :
    LastFits fs op N start rel v ↔ (N < last.length → inodeOp fs op parent v' = none) := by
  refine ⟨fun hfits ↦ hfits parent last v' h, fun hfits p l w hp ↦ ?_⟩
  obtain ⟨rfl, rfl, rfl⟩ : parent = p ∧ last = l ∧ v' = w := by simpa [h] using hp
  exact hfits

/-- A path of one component is looked up where it starts. -/
theorem lastDir_of_notMem (h : slash ∉ rel) : lastDir fs start rel v = some (start, rel, v) := by
  rw [lastDir, lastSep_of_notMem h]

/-- The last component is looked up where the rest leads to. -/
theorem lastDir_append (h : slash ∉ last) : lastDir fs start (pre ++ slash :: last) v =
    if pre.length = 0 ∨ parentBufSize ≤ pre.length ∨ last = [] then none
    else (resolve fs start pre v).1.bind fun parent ↦
      if isDir fs parent (resolve fs start pre v).2 then some (parent, last, (resolve fs start pre v).2)
      else none := by
  have hlen : (pre ++ slash :: last).length - (slash :: last).length = pre.length := by simp
  rw [lastDir, lastSep_append pre h]
  simp only [hlen, List.take_left, List.tail_cons]

/-- The path in `parent_buf` is looked up inside the array, and as if it were in a string of its own. -/
theorem lookupParent_spec (hpre : pre.length < parentBufSize) (rest : List Byte) :
    (lookupParent fs start pre.length (storeParent (pre ++ rest) pre.length parentBuf).val name v).val =
        resolve fs start pre v ∧
      (lookupParent fs start pre.length (storeParent (pre ++ rest) pre.length parentBuf).val name v).Within
        nameBufSize := by
  have hpre' : pre.length < nameBufSize := hpre
  have hpath : (List.range pre.length).map (storeParent (pre ++ rest) pre.length parentBuf).val = pre := by
    rw [map_storeParent (by simp), List.take_left]
  rw [lookupParent, hpath]
  refine ⟨val_vfsPathLookup, (within_vfsPathLookup le_rfl fun s hs ↦ ?_).2 fun _ ↦ ?_⟩
  · refine (within_touch one_pos).2 ?_
    omega
  · exact fits_of_forall fun c hc ↦ (List.length_le_of_mem_tokens hc).trans (Nat.le_of_lt hpre')

/-! ### The steps of the creation -/

section Entry

variable {β : Type} {error : ℤ → β} {noOp : Vfs ι σ → Vfs ι σ} {make : ℕ → α → ℕ → Vfs ι σ → β × Vfs ι σ}
  {notDir : ℕ → Vfs ι σ → Vfs ι σ} {inDir : Bool → ℕ → List Byte → Vfs ι σ → Touch (β × Vfs ι σ)}

/-- The operation on the last component stays within the array if its name fits or there is none. -/
theorem within_entryIn (hlast : slash ∉ last) :
    (entryIn fs op error noOp make parent last name v).Within nameBufSize ↔
      (nameBufSize < last.length → inodeOp fs op parent v = none) := by
  obtain ⟨name', hname⟩ := @val_storeLast name last hlast
  rw [entryIn, within_bind, and_iff_right (within_storeLast le_rfl), hname]
  rcases hop : inodeOp fs op parent v with _ | ⟨dir, f⟩
  · exact iff_of_true (within_pure _) fun _ ↦ rfl
  · dsimp only
    rw [within_bind, within_qstrInit]
    refine ⟨fun h h' ↦ absurd h.1 (Nat.not_le.2 h'), fun h ↦ ⟨Nat.not_lt.1 fun h' ↦ ?_, ?_⟩⟩
    · exact Option.some_ne_none _ (h h')
    · refine (within_dAlloc (by decide)).bind ?_
      split <;> exact within_pure _

/-- A component that does not fit into a dentry is reported. -/
theorem entryIn_of_le (hlast : slash ∉ last) (hlong : dnameInlineLen ≤ last.length) :
    ∃ e < 0, (entryIn fs op error noOp make parent last name v).val.1 = error e := by
  obtain ⟨name', hname⟩ := @val_storeLast name last hlast
  have hq : dnameInlineLen ≤ (qstrInit name' last.length).val.len := hlong
  rw [entryIn, val_bind, hname]
  rcases hop : inodeOp fs op parent v with _ | ⟨dir, f⟩
  · exact ⟨eInval, by decide, rfl⟩
  · refine ⟨eNomem, by decide, ?_⟩
    simp only [val_bind, val_dAlloc_of_le hq, val_pure]

/-- So it does below the directory that the rest of the path leads to. -/
theorem within_entryBelow (hlast : slash ∉ last)
    (hin : ∀ parent v, (inDir true parent last v).Within nameBufSize ↔
      (nameBufSize < last.length → inodeOp fs op parent v = none)) :
    (entryBelow fs error notDir (inDir true) start (pre ++ slash :: last) (slash :: last) name' parentBuf
      v).Within nameBufSize ↔ LastFits fs op nameBufSize start (pre ++ slash :: last) v := by
  have hlen : (pre ++ slash :: last).length - (slash :: last).length = pre.length := by simp
  have hdir := @lastDir_append ι σ fs v start last pre hlast
  rw [entryBelow]
  simp only [hlen]
  by_cases hpre : pre.length = 0 ∨ parentBufSize ≤ pre.length
  · rw [if_pos hpre]
    rw [if_pos (by tauto)] at hdir
    exact iff_of_true (within_pure _) (lastFits_of_none hdir)
  have hfit : pre.length < nameBufSize := Nat.not_le.1 (not_or.1 hpre).2
  obtain ⟨hval, hwithin⟩ := @lookupParent_spec ι σ fs v start name' parentBuf pre hfit (slash :: last)
  rw [if_neg hpre, within_bind, and_iff_right (within_storeParent hfit), within_bind,
    and_iff_right hwithin, hval]
  -- At every exit before the last component there is no directory for it.
  rcases hr : resolve fs start pre v with ⟨_ | p, v'⟩
  · rw [hr, Option.bind_none, ite_self] at hdir
    exact iff_of_true (within_pure _) (lastFits_of_none hdir)
  rw [hr, Option.bind_some] at hdir
  dsimp only at hdir ⊢
  rcases hn : (v'.dInode p).bind v'.inodes with _ | n
  · rw [isDir, hn, Option.any_none, if_neg Bool.false_ne_true, ite_self] at hdir
    exact iff_of_true (within_pure _) (lastFits_of_none hdir)
  rw [isDir, hn, Option.any_some] at hdir
  dsimp only
  by_cases hdirn : sIsdir (fs.iMode n.node) = false
  · rw [hdirn, if_neg Bool.false_ne_true, ite_self] at hdir
    rw [if_pos hdirn]
    exact iff_of_true (within_pure _) (lastFits_of_none hdir)
  rw [if_neg hdirn]
  by_cases hlast₀ : (slash :: last).tail = []
  · rw [if_pos hlast₀]
    rw [if_pos (Or.inr (Or.inr (show last = [] from hlast₀)))] at hdir
    exact iff_of_true (within_pure _) (lastFits_of_none hdir)
  · rw [if_neg hlast₀]
    have hnone : ¬(pre.length = 0 ∨ parentBufSize ≤ pre.length ∨ last = []) :=
      fun h ↦ (or_assoc.2 h).elim hpre hlast₀
    rw [if_neg hnone, if_pos (by simpa using hdirn)] at hdir
    exact (hin p v').trans (lastFits_iff_of_some hdir).symm

/-- So it does for the whole path. -/
theorem within_entryAt (hin : ∀ b parent last v, slash ∉ last →
      ((inDir b parent last v).Within nameBufSize ↔
        (nameBufSize < last.length → inodeOp fs op parent v = none))) :
    (entryAt fs error notDir inDir start rel name' parentBuf v).Within nameBufSize ↔
      LastFits fs op nameBufSize start rel v := by
  rcases lastSep_cases rel with ⟨hrel, hsep⟩ | ⟨pre, last, hlast, rfl, hsep⟩
  · rw [entryAt, hsep]
    exact (hin false start rel v hrel).trans (lastFits_iff_of_some (lastDir_of_notMem hrel)).symm
  · rw [entryAt, hsep]
    exact within_entryBelow hlast fun parent v ↦ hin true parent last v hlast

/-- A component that is too long, before the last, makes the lookup of the parent fail. -/
theorem entryBelow_of_mem_le
    (hin : ∀ parent v, dnameInlineLen ≤ last.length → ∃ e < 0, (inDir true parent last v).val.1 = error e)
    (hmem : c ∈ components (pre ++ slash :: last)) (hc : dnameInlineLen ≤ c.length) :
    ∃ e < 0, (entryBelow fs error notDir (inDir true) start (pre ++ slash :: last) (slash :: last) name'
      parentBuf v).val.1 = error e := by
  have hlen : (pre ++ slash :: last).length - (slash :: last).length = pre.length := by simp
  rw [entryBelow]
  simp only [hlen]
  by_cases hpre : pre.length = 0 ∨ parentBufSize ≤ pre.length
  · rw [if_pos hpre]
    exact ⟨eInval, by decide, rfl⟩
  have hfit : pre.length < nameBufSize := Nat.not_le.1 (not_or.1 hpre).2
  obtain ⟨hval, -⟩ := @lookupParent_spec ι σ fs v start name' parentBuf pre hfit (slash :: last)
  rw [if_neg hpre, val_bind, val_bind, hval]
  rcases hr : resolve fs start pre v with ⟨_ | p, v'⟩
  · exact ⟨eNoent, by decide, rfl⟩
  -- The parent is found, so it is the last component that does not fit.
  have hlong : dnameInlineLen ≤ last.length := by
    rw [components_append_slash, List.mem_append] at hmem
    rcases hmem with hmem | hmem
    · have hnone := @resolve_of_mem_le ι σ fs v c start pre hmem hc
      rw [hr] at hnone
      exact absurd hnone (Option.some_ne_none p)
    · exact hc.trans (List.length_le_of_mem_tokens hmem)
  dsimp only
  split
  · exact ⟨eNoent, by decide, rfl⟩
  split
  · exact ⟨eNotdir, by decide, rfl⟩
  split
  · exact ⟨eInval, by decide, rfl⟩
  · exact hin p v' hlong

/-- So does one anywhere in the path. -/
theorem entryAt_of_mem_le (hin : ∀ b parent last v, slash ∉ last → dnameInlineLen ≤ last.length →
      ∃ e < 0, (inDir b parent last v).val.1 = error e)
    (hmem : c ∈ components rel) (hc : dnameInlineLen ≤ c.length) :
    ∃ e < 0, (entryAt fs error notDir inDir start rel name' parentBuf v).val.1 = error e := by
  rcases lastSep_cases rel with ⟨hrel, hsep⟩ | ⟨pre, last, hlast, rfl, hsep⟩
  · rw [entryAt, hsep]
    exact hin false start rel v hrel (hc.trans (List.length_le_of_mem_tokens hmem))
  · rw [entryAt, hsep]
    exact entryBelow_of_mem_le (fun parent v ↦ hin true parent last v hlast) hmem hc

end Entry

end Create

/-! ### The three calls -/

variable {α : Type} {t : Touch (α × Vfs ι σ)} {failed : α → Prop}

/-- A component that does not fit into a dentry. -/
def Overlong (path : List Byte) : Prop := ∃ c ∈ components path, dnameInlineLen ≤ c.length

/-- The accesses to the arrays are inside them, and an over-long component is reported. -/
structure PathSafe (path : List Byte) (failed : α → Prop) (t : Touch (α × Vfs ι σ)) : Prop where
  within : t.Within nameBufSize
  reported : Overlong path → failed t.val.1

/-- A call that fails on every path with a component too long is safe if it stays within its arrays. -/
theorem pathSafe_iff (h : Overlong path → failed t.val.1) : PathSafe path failed t ↔ t.Within nameBufSize :=
  ⟨PathSafe.within, fun hw ↦ ⟨hw, h⟩⟩

/-- An error is safe. -/
theorem pathSafe_error {e : ℤ} (he : e < 0) : PathSafe path (· < 0) (pure (e, v) : Touch (ℤ × Vfs ι σ)) :=
  ⟨within_pure _, fun _ ↦ he⟩

variable (fs)

/-- No component of more than 256 bytes comes to a directory on the way from `start`. -/
def LookupFits (start : ℕ) (path : List Byte) (v : Vfs ι σ) : Prop :=
  (v.dInode start).isSome → Fits fs nameBufSize (components path) start (dget start v)

/-- The dentry that a path is relative to. -/
def startOf (root cwd : ℕ) (path : List Byte) : ℕ := if path.head? = some slash then root else cwd

/-- No last component of more than 256 bytes comes to a directory that it can be made in. -/
def MkdirFits (path : List Byte) (v : Vfs ι σ) : Prop :=
  ∀ root cwd, v.sRoot = some root → (v.dInode root).isSome → (vfsGetCwdDentry v).1 = some cwd →
    LastFits fs InodeOperations.mkdir nameBufSize (startOf root cwd path) (path.dropWhile (· == slash))
      (vfsGetCwdDentry v).2

/-- Neither on the way to the file nor, where it is not found and to be created, in its directory does a
component of more than 256 bytes come to a directory. -/
def OpenFits (path : List Byte) (flags : ℕ) (v : Vfs ι σ) : Prop :=
  ∀ fd root cwd, freeFd v = some fd → (vfsGetCwdDentry v).2.sRoot = some root →
    (vfsGetCwdDentry v).1 = some cwd →
    LookupFits fs (startOf root cwd path) path (vfsGetCwdDentry v).2 ∧
      ((resolve fs (startOf root cwd path) path (vfsGetCwdDentry v).2).1.bind
          (resolve fs (startOf root cwd path) path (vfsGetCwdDentry v).2).2.dInode = none →
        flags &&& oCreat ≠ 0 →
        LastFits fs InodeOperations.create nameBufSize (startOf root cwd path)
          (path.dropWhile (· == slash)) (resolve fs (startOf root cwd path) path (vfsGetCwdDentry v).2).2)

variable {fs}

/-- A path with a component too long has more than separators. -/
theorem Overlong.ne_nil (h : Overlong path) : path.dropWhile (· == slash) ≠ [] := by
  obtain ⟨c, hc, hlong⟩ := h
  intro hnil
  rw [← components_dropWhile, hnil] at hc
  exact absurd hc List.not_mem_nil

/-- The separators in front do not matter. -/
theorem Overlong.dropWhile (h : Overlong path) : Overlong (path.dropWhile (· == slash)) := by
  rwa [Overlong, components_dropWhile]

/-- Nothing is left of a path that has no component. -/
theorem lastFits_nil {op : InodeOperations ι σ → Option α} : LastFits fs op N start [] v :=
  (lastFits_iff_of_some (lastDir_of_notMem List.not_mem_nil)).2 fun h ↦ absurd h (Nat.not_lt_zero N)

/-- **A lookup is safe exactly where its names fit.** -/
theorem pathSafe_vfsPathLookup : PathSafe path (· = none)
    (vfsPathLookup fs (fun _ ↦ pure ()) start path name v) ↔ LookupFits fs start path v := by
  rw [pathSafe_iff, within_vfsPathLookup le_rfl fun _ _ ↦ within_pure _, LookupFits]
  rintro ⟨c, hmem, hc⟩
  rw [val_vfsPathLookup]
  exact resolve_of_mem_le hmem hc

/-- `mkdir` in the directory of the last component. -/
theorem within_mkdirIn (b : Bool) (parent : ℕ) (last : List Byte) (v : Vfs ι σ) (hlast : slash ∉ last) :
    (mkdirIn fs mode name b parent last v).Within nameBufSize ↔
      (nameBufSize < last.length → inodeOp fs InodeOperations.mkdir parent v = none) :=
  within_entryIn hlast

/-- **`mkdir` is safe exactly where its names fit.** -/
theorem pathSafe_vfsMkdir : PathSafe path (· < 0) (vfsMkdir fs path mode name name' parentBuf v) ↔
    MkdirFits fs path v := by
  rw [vfsMkdir, MkdirFits]
  by_cases hpath : path = []
  · rw [if_pos hpath, hpath]
    exact iff_of_true (pathSafe_error (by decide)) fun _ _ _ _ _ ↦ lastFits_nil
  rw [if_neg hpath]
  rcases hroot : v.sRoot with _ | root
  · exact iff_of_true (pathSafe_error (by decide)) fun _ _ h ↦ absurd h.symm (Option.some_ne_none _)
  dsimp only
  by_cases hino : (v.dInode root).isNone
  · rw [if_pos hino]
    refine iff_of_true (pathSafe_error (by decide)) fun r _ h h' ↦ ?_
    rw [← Option.some_inj.1 h, Option.isSome_iff_ne_none] at h'
    exact absurd (Option.isNone_iff_eq_none.1 hino) h'
  rw [if_neg hino]
  rcases hcwd : vfsGetCwdDentry v with ⟨_ | cwd, v₀⟩
  · exact iff_of_true (pathSafe_error (by decide)) fun _ _ _ _ h ↦ absurd h.symm (Option.some_ne_none _)
  have hfits : (∀ root' cwd', some root = some root' → (v.dInode root').isSome → some cwd = some cwd' →
      LastFits fs InodeOperations.mkdir nameBufSize (startOf root' cwd' path)
        (path.dropWhile (· == slash)) v₀) ↔
      LastFits fs InodeOperations.mkdir nameBufSize (startOf root cwd path)
        (path.dropWhile (· == slash)) v₀ := by
    refine ⟨fun h ↦ h root cwd rfl (by simpa [Option.isSome_iff_ne_none] using hino) rfl, ?_⟩
    rintro h _ _ ⟨⟩ - ⟨⟩
    exact h
  dsimp only
  rw [hfits]
  by_cases hrel : path.dropWhile (· == slash) = []
  · rw [if_pos hrel, hrel]
    exact iff_of_true (pathSafe_error (by decide)) lastFits_nil
  · rw [if_neg hrel, pathSafe_iff]
    · exact within_entryAt within_mkdirIn
    · rintro ⟨c, hmem, hc⟩
      rw [← components_dropWhile] at hmem
      obtain ⟨e, he, hval⟩ := @entryAt_of_mem_le ι σ fs v₀ _ name' parentBuf c _ ℤ id (dput fs)
        (mkdirIn fs mode name) (fun b parent last v hlast hlong ↦ entryIn_of_le hlast hlong) hmem hc
      rw [hval]
      exact he

/-- `create` in the directory of the last component. -/
theorem within_createIn (b : Bool) (parent : ℕ) (last : List Byte) (v : Vfs ι σ) (hlast : slash ∉ last) :
    (createIn fs flags mode name b parent last v).Within nameBufSize ↔
      (nameBufSize < last.length → inodeOp fs InodeOperations.create parent v = none) :=
  within_entryIn hlast

/-- `open` with `O_CREAT` stays within its arrays where the last component fits. -/
theorem within_openCreate {root cwd : ℕ} :
    (openCreate fs root cwd path flags mode name name' parentBuf v).Within nameBufSize ↔
      LastFits fs InodeOperations.create nameBufSize (startOf root cwd path)
        (path.dropWhile (· == slash)) v := by
  rw [openCreate]
  by_cases hpath : path = []
  · rw [if_pos hpath, hpath]
    exact iff_of_true (within_pure _) lastFits_nil
  rw [if_neg hpath]
  by_cases hrel : path.dropWhile (· == slash) = []
  · rw [if_pos hrel, hrel]
    exact iff_of_true (within_pure _) lastFits_nil
  · rw [if_neg hrel]
    exact within_entryAt within_createIn

/-- It fails where a component is too long. -/
theorem openCreate_of_overlong {root cwd : ℕ} (h : Overlong path) :
    ∃ e < 0, (openCreate fs root cwd path flags mode name name' parentBuf v).val.1 = .error e := by
  have hpath : path ≠ [] := fun hnil ↦ h.ne_nil (by rw [hnil]; rfl)
  obtain ⟨c, hmem, hc⟩ := h.dropWhile
  rw [openCreate, if_neg hpath, if_neg h.ne_nil]
  exact entryAt_of_mem_le (fun b parent last v hlast hlong ↦ entryIn_of_le hlast hlong) hmem hc

/-- The walk along a path without components stays where it is. -/
theorem resolve_of_nil (h : components path = []) : (resolve fs start path v).1.bind
    (resolve fs start path v).2.dInode = v.dInode start := by
  rw [resolve, h]
  rcases hstart : v.dInode start with _ | i
  · rfl
  · exact dInode_dget.trans hstart

/-- What `vfs_open` finds is what the walk along the path finds. -/
theorem openTarget_spec (root cwd : ℕ) :
    ((openTarget fs root cwd path name v).Within nameBufSize ↔ LookupFits fs (startOf root cwd path) path v) ∧
      ((openTarget fs root cwd path name v).val.1.bind (openTarget fs root cwd path name v).val.2.dInode =
        (resolve fs (startOf root cwd path) path v).1.bind
          (resolve fs (startOf root cwd path) path v).2.dInode) ∧
      ((resolve fs (startOf root cwd path) path v).1.bind
          (resolve fs (startOf root cwd path) path v).2.dInode = none →
        (openTarget fs root cwd path name v).val.2 = (resolve fs (startOf root cwd path) path v).2) := by
  have hstay : ∀ start : ℕ, components path = [] →
      ((pure (some start, v) : Touch (Option ℕ × Vfs ι σ)).Within nameBufSize ↔ LookupFits fs start path v) ∧
      (v.dInode start = (resolve fs start path v).1.bind (resolve fs start path v).2.dInode) ∧
      ((resolve fs start path v).1.bind (resolve fs start path v).2.dInode = none →
        v = (resolve fs start path v).2) := by
    intro start hnil
    refine ⟨iff_of_true (within_pure _) ?_, (resolve_of_nil hnil).symm, fun h ↦ ?_⟩
    · rw [LookupFits, hnil]
      exact fun _ ↦ fits_nil
    · rw [resolve_of_nil hnil] at h
      rw [resolve, h]
      rfl
  rw [openTarget]
  by_cases hpath : path = []
  · obtain rfl := hpath
    exact hstay cwd rfl
  by_cases hslash : path = [slash]
  · obtain rfl := hslash
    exact hstay root (by decide)
  · rw [if_neg hpath, if_neg hslash, val_vfsPathLookup]
    exact ⟨within_vfsPathLookup le_rfl fun _ _ ↦ within_pure _, rfl, fun _ ↦ rfl⟩

/-- **`open` is safe exactly where its names fit.** -/
theorem pathSafe_vfsOpen : PathSafe path (· < 0) (vfsOpen fs path flags mode name name' parentBuf v) ↔
    OpenFits fs path flags v := by
  rw [vfsOpen, OpenFits]
  -- without a descriptor, a root or a current directory no array is filled
  rcases hfd : freeFd v with _ | fd
  · exact iff_of_true (pathSafe_error (by decide)) fun _ _ _ h ↦ absurd h.symm (Option.some_ne_none _)
  rcases hcwd : vfsGetCwdDentry v with ⟨cwd, v₀⟩
  dsimp only
  rcases hroot : v₀.sRoot with _ | root
  · exact iff_of_true (pathSafe_error (by decide)) fun _ _ _ _ h ↦ absurd h.symm (Option.some_ne_none _)
  rcases cwd with _ | cwd
  · exact iff_of_true (pathSafe_error (by decide)) fun _ _ _ _ _ h ↦ absurd h.symm (Option.some_ne_none _)
  dsimp only
  have hfits : ∀ P : ℕ → ℕ → Prop, (∀ fd' root' cwd', some fd = some fd' → some root = some root' →
      some cwd = some cwd' → P root' cwd') ↔ P root cwd := by
    refine fun P ↦ ⟨fun h ↦ h fd root cwd rfl rfl rfl, ?_⟩
    rintro h _ _ _ - ⟨⟩ ⟨⟩
    exact h
  rw [hfits fun root cwd ↦ LookupFits fs (startOf root cwd path) path v₀ ∧ _]
  obtain ⟨hwithin, hfound, hstate⟩ := @openTarget_spec ι σ fs v₀ name' path root cwd
  rw [← hwithin]
  have hlong : Overlong path → (resolve fs (startOf root cwd path) path v₀).1 = none :=
    fun ⟨c, hmem, hc⟩ ↦ resolve_of_mem_le hmem hc
  -- the path leads nowhere: the call may create the file
  by_cases hnone : (resolve fs (startOf root cwd path) path v₀).1.bind
      (resolve fs (startOf root cwd path) path v₀).2.dInode = none
  · have htarget : ((openTarget fs root cwd path name' v₀).val.1.bind fun target ↦
        ((openTarget fs root cwd path name' v₀).val.2.dInode target).map fun _ ↦ target) = none := by
      rw [hnone, Option.bind_eq_none_iff] at hfound
      exact Option.bind_eq_none_iff.2 fun t ht ↦ by rw [hfound t ht]; rfl
    rw [pathSafe_iff, within_bind, htarget, hstate hnone, imp_iff_right hnone]
    · by_cases hflag : flags &&& oCreat = 0
      · simp only [hflag, if_pos, within_pure, ne_eq, not_true, false_imp_iff]
      · rw [imp_iff_right hflag]
        dsimp only
        rw [if_neg hflag, within_bind, within_openCreate]
        refine and_congr_right fun _ ↦ and_iff_left ?_
        split <;> exact within_pure _
    · intro h
      rw [val_bind, htarget]
      dsimp only
      split
      · exact (by decide : eNoent < 0)
      · obtain ⟨e, he, hval⟩ := @openCreate_of_overlong ι σ fs
          (openTarget fs root cwd path name' v₀).val.2 mode flags name name' parentBuf path root cwd h
        rw [val_bind, hval]
        exact he
  · have htarget : ∃ t, ((openTarget fs root cwd path name' v₀).val.1.bind fun target ↦
        ((openTarget fs root cwd path name' v₀).val.2.dInode target).map fun _ ↦ target) = some t := by
      rw [← hfound] at hnone
      obtain ⟨i, hi⟩ := Option.ne_none_iff_exists'.1 hnone
      obtain ⟨t, ht, hti⟩ := Option.bind_eq_some_iff.1 hi
      exact ⟨t, Option.bind_eq_some_iff.2 ⟨t, ht, by rw [hti]; rfl⟩⟩
    obtain ⟨t, ht⟩ := htarget
    rw [pathSafe_iff, within_bind, ht, and_iff_left (within_pure _), and_iff_left fun h ↦ absurd h hnone]
    exact fun h ↦ absurd (by rw [hlong h]; rfl) hnone

/-- The accesses of a lookup, of a `vfs_mkdir` and of a `vfs_open` to their arrays are inside them, and an
over-long component is reported, exactly as long as no component of more than 256 bytes comes to a
directory that it is looked up or made in. -/
theorem pathArrays_iff (fs : FileSystem ι σ) (start : ℕ) (path : List Byte) (flags mode : ℕ)
    (name name' parentBuf : Buf) (v : Vfs ι σ) :
    (PathSafe path (· = none) (vfsPathLookup fs (fun _ ↦ pure ()) start path name v) ↔
      LookupFits fs start path v) ∧
    (PathSafe path (· < 0) (vfsMkdir fs path mode name name' parentBuf v) ↔ MkdirFits fs path v) ∧
    (PathSafe path (· < 0) (vfsOpen fs path flags mode name name' parentBuf v) ↔ OpenFits fs path flags v) :=
  ⟨pathSafe_vfsPathLookup, pathSafe_vfsMkdir, pathSafe_vfsOpen⟩

/-! ### A component of 257 bytes -/

/-- A filesystem of one empty directory. -/
def emptyDirFs : FileSystem Unit Unit where
  iMode _ := sIfdir
  iOp _ := some ⟨some fun _ dentry v ↦ (some dentry, v), none, none⟩
  fopOpen _ := none
  destroyInode _ v := v

/-- The state after the mount: the root dentry with its inode. -/
def emptyDirVfs : Vfs Unit Unit where
  dcache := Function.update (fun _ ↦ none) 0 (some ⟨1, ⟨[slash], by decide⟩, 0, some 0, [], some 0⟩)
  inodes := Function.update (fun _ ↦ none) 0 (some ⟨2, ()⟩)
  fs := ()
  sRoot := some 0
  vfsCwd := none
  fds _ := none

/-- The byte behind `name_buf` is read for a name of 257 times the letter `a`. -/
theorem not_pathSafe_replicate : ¬PathSafe (List.replicate 257 97) (· = none)
    (vfsPathLookup emptyDirFs (fun _ ↦ pure ()) 0 (List.replicate 257 97) Buf.zero emptyDirVfs) := by
  rw [pathSafe_vfsPathLookup]
  intro hfits
  have hcomponents : components (List.replicate 257 97) = [List.replicate 257 97] :=
    List.tokens_eq_singleton (by decide) (by decide)
  have hop := hfits rfl [] _ [] hcomponents (by rw [List.length_replicate]; decide) 0 _ rfl
  exact absurd hop (by simp [inodeOp, Vfs.dInode, dget, Vfs.modifyDentry, Vfs.setDentry, emptyDirVfs, emptyDirFs])

end MiniExt4
