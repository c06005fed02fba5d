import MiniExt4.Vfs.Ext4Calls

/-!
# The current directory as a path (`vfs_getcwd` in `fs/dir.c`)

The path is written from the end of the buffer towards its front, along the parents of the current
directory, and then moved to the front. It stands two bytes or more before the end, so that one of `n - 1`
bytes is refused although it would fit together with its NUL.

Where the dentries on the way are those that a lookup finds, changing to the path that was printed is the
identity (`vfsChdir_getcwd`).

The climb is an induction on the path of a dentry (`CachedPath`), and what it leaves in the buffer is the
text of the path, right-justified. The way back is the walk of `Namei` over that text: each name finds the
dentry it was printed for, because `FoundIn` says that no other child has the name.
-/

namespace MiniExt4

open Touch Namei PathCalls

variable {ι σ : Type}

/-- `-ERANGE` -/
def eRange : ℤ := -34

namespace Getcwd

/-- The bytes of a list, from offset `o` on. -/
def put (buf : Buf) (o : ℕ) (l : List Byte) : Buf := buf.blit o (fun i ↦ l.getD i 0) 0 l.length

/-- The loop along the parents, with what has been written from `pos` on: whether there was room, and what
has been written then. Every round writes at least two bytes. -/
def climb (v : Vfs ι σ) (root : ℕ) : ℕ → Option ℕ → ℕ → Buf → Touch (Bool × ℕ × Buf)
  | 0, _, pos, buf => pure (true, pos, buf)
  | fuel + 1, cwd, pos, buf =>
    match cwd.bind fun d ↦ if d = root then none else v.dcache d with
    | none => pure (true, pos, buf)
    | some e =>
      let len := e.dName.1.length
      if len = 0 then pure (true, pos, buf)
      else if pos ≤ len + 1 then pure (false, pos, buf)
      else do
        touch (pos - len) len
        touch (pos - len - 1) 1
        climb v root fuel e.dParent (pos - len - 1)
          (Function.update (put buf (pos - len) e.dName.1) (pos - len - 1) slash)

/-- The result is moved to the front, up to its NUL. -/
def moveFront : ℕ → ℕ → ℕ → Buf → Touch Buf
  | 0, _, _, buf => pure buf
  | fuel + 1, pos, i, buf => do
    touch pos 1
    if buf pos = 0 then do
      touch i 1
      pure (Function.update buf i 0)
    else do
      touch i 1
      moveFront fuel (pos + 1) (i + 1) (Function.update buf i (buf pos))

end Getcwd

open Getcwd

/-- `vfs_getcwd(buf, buf_len)`: the result and the buffer. -/
def vfsGetcwd (buf : Buf) (bufLen : ℕ) (v : Vfs ι σ) : Touch ((ℤ × Buf) × Vfs ι σ) :=
  if bufLen < 2 then pure ((eInval, buf), v)
  else withCwd (fun e ↦ (e, buf)) v fun root cwd v ↦
    if cwd = root then do
      touch 0 2
      pure ((0, put buf 0 [slash, 0]), v)
    else do
      touch (bufLen - 1) 1
      let r ← climb v root bufLen (some cwd) (bufLen - 1) (Function.update buf (bufLen - 1) 0)
      if r.1 = false ∨ r.2.1 = 0 then pure ((eRange, r.2.2), v)
      else do
        let buf ← moveFront bufLen r.2.1 0 r.2.2
        pure ((0, buf), v)

namespace Getcwd

section Arrays

variable {v : Vfs ι σ} {buf : Buf} {l m : List Byte} {o i pos fuel bufLen root : ℕ}

theorem put_in (h : o ≤ i) (h' : i < o + l.length) : put buf o l i = l.getD (i - o) 0 := by
  rw [put, Buf.blit_in h h', Nat.zero_add]

theorem put_out (h : i < o ∨ o + l.length ≤ i) : put buf o l i = buf i := Buf.blit_out h

/-- A list in front of another. -/
theorem put_put (buf : Buf) (o : ℕ) (l m : List Byte) :
    put (put buf (o + l.length) m) o l = put buf o (l ++ m) := by
  funext i
  by_cases hlt : i < o
  · rw [put_out (Or.inl hlt), put_out (Or.inl (by omega)), put_out (Or.inl hlt)]
  by_cases hl : i < o + l.length
  · rw [put_in (Nat.not_lt.1 hlt) hl, put_in (Nat.not_lt.1 hlt) (by rw [List.length_append]; omega),
      List.getD_append _ _ _ _ (by omega)]
  by_cases hm : i < o + l.length + m.length
  · rw [put_out (Or.inr (Nat.not_lt.1 hl)), put_in (Nat.not_lt.1 hl) hm,
      put_in (Nat.not_lt.1 hlt) (by rw [List.length_append]; omega), List.getD_append_right _ _ _ _ (by omega)]
    congr 1
    omega
  · rw [put_out (Or.inr (by omega)), put_out (Or.inr (by omega)),
      put_out (Or.inr (by rw [List.length_append]; omega))]

/-- A list behind another. -/
theorem put_append (buf : Buf) (o : ℕ) (l m : List Byte) :
    put (put buf o l) (o + l.length) m = put buf o (l ++ m) := by
  rw [← put_put]
  funext i
  by_cases hm : o + l.length ≤ i ∧ i < o + l.length + m.length
  · rw [put_in hm.1 hm.2, put_out (Or.inr hm.1), put_in hm.1 hm.2]
  · rw [put_out (by omega)]
    by_cases hl : o ≤ i ∧ i < o + l.length
    · rw [put_in hl.1 hl.2, put_in hl.1 hl.2]
    · rw [put_out (by omega), put_out (by omega), put_out (by omega)]

theorem put_singleton (buf : Buf) (o : ℕ) (b : Byte) : put buf o [b] = Function.update buf o b := by
  funext i
  by_cases hi : i = o
  · rw [hi, put_in le_rfl (by simp), Function.update_self, Nat.sub_self]
    rfl
  · rw [Function.update_of_ne hi, put_out (by simp only [List.length_singleton]; omega)]

/-- Moving a text to the front. -/
theorem val_moveFront (hzero : (0 : Byte) ∉ l) (hi : i ≤ pos) (hl : ∀ k < l.length, buf (pos + k) = l.getD k 0)
    (hend : buf (pos + l.length) = 0) (hfuel : l.length < fuel) :
    (moveFront fuel pos i buf).val = put buf i (l ++ [0]) := by
  induction l generalizing pos i buf fuel with
  | nil =>
    obtain ⟨fuel, rfl⟩ := Nat.exists_eq_add_of_lt hfuel
    rw [List.length_nil, Nat.add_zero] at hend
    rw [moveFront, val_bind, if_pos hend]
    exact (put_singleton buf i 0).symm
  | cons b l ih =>
    obtain ⟨fuel, rfl⟩ := Nat.exists_eq_add_of_lt hfuel
    have hb : buf pos = b := hl 0 (Nat.zero_lt_succ _)
    have hne : buf pos ≠ 0 := fun h ↦ hzero (by rw [← h, hb]; exact List.mem_cons_self)
    rw [moveFront, val_bind, if_neg hne, val_bind, hb]
    have hread : ∀ k, Function.update buf i b (pos + 1 + k) = buf (pos + (k + 1)) := fun k ↦ by
      rw [Function.update_of_ne (by omega)]
      congr 1
      omega
    rw [ih (fun h ↦ hzero (List.mem_cons_of_mem b h)) (by omega)
      (fun k hk ↦ (hread k).trans (hl (k + 1) (Nat.succ_lt_succ hk))) ((hread _).trans hend)
      (by rw [List.length_cons]; omega), ← put_singleton]
    exact put_append buf i [b] (l ++ [0])

/-- The climb stays below `pos` and leaves what is behind it alone. -/
theorem climb_spec (v : Vfs ι σ) (root fuel : ℕ) (cwd : Option ℕ) (pos : ℕ) (buf : Buf) :
    (climb v root fuel cwd pos buf).Within pos ∧ (climb v root fuel cwd pos buf).val.2.1 ≤ pos ∧
      ∀ i, pos ≤ i → (climb v root fuel cwd pos buf).val.2.2 i = buf i := by
  induction fuel generalizing cwd pos buf with
  | zero => exact ⟨within_pure _, le_rfl, fun _ _ ↦ rfl⟩
  | succ fuel ih =>
    rw [climb]
    split
    · exact ⟨within_pure _, le_rfl, fun _ _ ↦ rfl⟩
    next e _ =>
      dsimp only
      split
      · exact ⟨within_pure _, le_rfl, fun _ _ ↦ rfl⟩
      next hlen =>
        split
        · exact ⟨within_pure _, le_rfl, fun _ _ ↦ rfl⟩
        next hroom =>
          obtain ⟨hwithin, hle, hsame⟩ := ih e.dParent (pos - e.dName.1.length - 1)
            (Function.update (put buf (pos - e.dName.1.length) e.dName.1) (pos - e.dName.1.length - 1) slash)
          refine ⟨?_, hle.trans (by omega), fun i hi ↦ (hsame i (by omega)).trans ?_⟩
          · refine ((within_touch (Nat.pos_of_ne_zero hlen)).2 (by omega)).bind
              (((within_touch one_pos).2 (by omega)).bind fun i hi ↦ ?_)
            exact lt_of_lt_of_le (hwithin i hi) (by omega)
          · rw [Function.update_of_ne (by omega), put_out (Or.inr (by omega))]

/-- The move stops at the first NUL. -/
theorem within_moveFront {n : ℕ} (hi : i ≤ pos) (hpos : pos ≤ n) (hn : n < bufLen) (hzero : buf n = 0) :
    (moveFront fuel pos i buf).Within bufLen := by
  induction fuel generalizing pos i buf with
  | zero => exact within_pure _
  | succ fuel ih =>
    refine ((within_touch one_pos).2 (by omega)).bind ?_
    split
    · exact ((within_touch one_pos).2 (by omega)).bind (within_pure _)
    next hne =>
      have hlt : pos < n := lt_of_le_of_ne hpos fun h ↦ hne (h ▸ hzero)
      refine ((within_touch one_pos).2 (by omega)).bind (ih (Nat.succ_le_succ hi) hlt ?_)
      rw [Function.update_of_ne (by omega)]
      exact hzero

/-- `vfs_getcwd` stays inside the buffer. -/
theorem within_vfsGetcwd (buf : Buf) (bufLen : ℕ) (v : Vfs ι σ) : (vfsGetcwd buf bufLen v).Within bufLen := by
  rw [vfsGetcwd]
  split
  · exact within_pure _
  rw [withCwd]
  split
  · exact within_pure _
  next root _ =>
    dsimp only
    split
    · exact within_pure _
    next cwd _ =>
      split
      · exact ((within_touch two_pos).2 (by omega)).bind (within_pure _)
      obtain ⟨hwithin, hle, hsame⟩ := climb_spec (vfsGetCwdDentry v).2 root bufLen (some cwd) (bufLen - 1)
        (Function.update buf (bufLen - 1) 0)
      refine ((within_touch one_pos).2 (by omega)).bind (Within.bind (fun i hi ↦ ?_) ?_)
      · exact lt_of_lt_of_le (hwithin i hi) (Nat.sub_le _ _)
      · split
        · exact within_pure _
        · refine Within.bind (within_moveFront (Nat.zero_le _) hle (by omega) ?_) (within_pure _)
          rw [hsame _ le_rfl, Function.update_self]

end Arrays

/-! ### The path of a dentry -/

/-- The child `d` of `p` is the one that a lookup of its name in `p` finds, and the name is one that paths
can have. -/
structure FoundIn (fs : FileSystem ι σ) (v : Vfs ι σ) (p d : ℕ) (name : List Byte) : Prop where
  dentry : ∃ e, v.dcache d = some e ∧ e.dName.1 = name ∧ e.dParent = some p ∧ e.dInode ≠ none
  dir : inodeOp fs InodeOperations.lookup p v ≠ none
  listed : ∃ ep, v.dcache p = some ep ∧ d ∈ ep.dSubdirs ∧ ∀ x ∈ ep.dSubdirs, v.named name x = true → x = d
  ne_nil : name ≠ []
  ne_dot : name ≠ [dot] ∧ name ≠ [dot, dot]
  chars : 0 ∉ name ∧ slash ∉ name

/-- The names on the way from the root to a dentry. -/
inductive CachedPath (fs : FileSystem ι σ) (v : Vfs ι σ) (root : ℕ) : ℕ → List (List Byte) → Prop
  | root : CachedPath fs v root root []
  | child {p d : ℕ} {names : List (List Byte)} {name : List Byte} : CachedPath fs v root p names →
      d ≠ root → FoundIn fs v p d name → CachedPath fs v root d (names ++ [name])

/-- A `'/'` in front of each name. -/
def pathText (names : List (List Byte)) : List Byte := names.flatMap fun name ↦ slash :: name

section Paths

variable {fs : FileSystem ι σ} {v : Vfs ι σ} {root d p : ℕ} {names : List (List Byte)} {name : List Byte}
  {buf : Buf} {pos fuel : ℕ}

theorem pathText_append_singleton (names : List (List Byte)) (name : List Byte) :
    pathText (names ++ [name]) = pathText names ++ slash :: name := by
  rw [pathText, List.flatMap_append, List.flatMap_singleton]
  rfl

/-- What is known of the names. -/
theorem CachedPath.text (h : CachedPath fs v root d names) :
    components (pathText names) = names ∧ 0 ∉ pathText names := by
  induction h with
  | root => exact ⟨rfl, List.not_mem_nil⟩
  | child _ _ hfound ih =>
    obtain ⟨hcomp, hzero⟩ := ih
    have hslash : ∀ x ∈ _, (x == slash) = false := fun x hx ↦
      beq_eq_false_iff_ne.2 fun h ↦ hfound.chars.2 (h ▸ hx)
    rw [pathText_append_singleton, components_append_slash, hcomp]
    refine ⟨congrArg _ (List.tokens_eq_singleton hslash hfound.ne_nil), fun hmem ↦ ?_⟩
    rcases List.mem_append.1 hmem with hmem | hmem
    · exact hzero hmem
    · rcases List.mem_cons.1 hmem with h | hmem
      · exact absurd h (by decide)
      · exact hfound.chars.1 hmem

/-- Only the root has no names above it. -/
theorem CachedPath.eq_nil_iff (h : CachedPath fs v root d names) : names = [] ↔ d = root := by
  cases h with
  | root => exact iff_of_true rfl rfl
  | child _ hne _ => exact iff_of_false (List.append_ne_nil_of_right_ne_nil _ (List.cons_ne_nil _ _)) hne

/-- A root with a dentry below it has an inode. -/
theorem CachedPath.dInode_root (h : CachedPath fs v root d names) (hne : d ≠ root) : v.dInode root ≠ none := by
  induction h with
  | root => exact absurd rfl hne
  | @child p _ _ _ _ _ hfound ih =>
    by_cases hp : p = root
    · obtain ⟨r, hr⟩ := Option.ne_none_iff_exists'.1 hfound.dir
      obtain ⟨i, hi, -⟩ := Option.bind_eq_some_iff.1 hr
      rw [← hp, hi]
      exact Option.some_ne_none i
    · exact ih hp

/-- The climb writes the path in front of what is there, where there is room for it and one byte more. -/
theorem CachedPath.val_climb (h : CachedPath fs v root d names) (hfuel : pos < fuel) :
    if (pathText names).length < pos then (climb v root fuel (some d) pos buf).val =
      (true, pos - (pathText names).length, put buf (pos - (pathText names).length) (pathText names))
    else names ≠ [] → (climb v root fuel (some d) pos buf).val.1 = false := by
  induction h generalizing pos buf fuel with
  | root =>
    obtain ⟨fuel, rfl⟩ := Nat.exists_eq_add_of_lt hfuel
    split
    · have hnil : put buf pos [] = buf := funext fun i ↦ put_out (by simp only [List.length_nil]; omega)
      rw [climb, Option.bind_some, if_pos rfl]
      change ((true, pos, buf) : Bool × ℕ × Buf) = (true, pos - 0, put buf (pos - 0) [])
      rw [Nat.sub_zero, hnil]
    · exact fun hne ↦ absurd rfl hne
  | @child p d names name hp hd hfound ih =>
    obtain ⟨e, he, hname, hpar, -⟩ := hfound.dentry
    obtain ⟨fuel, rfl⟩ := Nat.exists_eq_add_of_lt hfuel
    have hlen : (pathText (names ++ [name])).length = (pathText names).length + (name.length + 1) := by
      rw [pathText_append_singleton, List.length_append, List.length_cons]
    have hpos : name.length ≠ 0 := fun h ↦ hfound.ne_nil (List.length_eq_zero_iff.1 h)
    rw [hlen, climb, Option.bind_some, if_neg hd, he]
    dsimp only
    rw [hname, if_neg hpos]
    -- the text grows to the front, one name a step
    by_cases hroom : pos ≤ name.length + 1
    · rw [if_neg (by omega), if_pos hroom]
      exact fun _ ↦ rfl
    rw [if_neg hroom, val_bind, val_bind, hpar, ← put_singleton]
    have hput : put (put buf (pos - name.length) name) (pos - name.length - 1) [slash] =
        put buf (pos - name.length - 1) (slash :: name) := by
      have hcons := put_put buf (pos - name.length - 1) [slash] name
      rw [List.length_singleton, Nat.sub_add_cancel (by omega)] at hcons
      exact hcons
    rw [hput]
    have hrest := @ih (put buf (pos - name.length - 1) (slash :: name)) (pos - name.length - 1)
      (pos + fuel) (by omega)
    by_cases hfit : (pathText names).length < pos - name.length - 1
    · rw [if_pos hfit] at hrest
      rw [if_pos (by omega), hrest, pathText_append_singleton]
      have hback : pos - name.length - 1 = pos - ((pathText names).length + (name.length + 1)) +
          (pathText names).length := by omega
      rw [hback, Nat.add_sub_cancel, put_put]
    · rw [if_neg hfit] at hrest
      rw [if_neg (by omega)]
      refine fun _ ↦ hrest fun hnil ↦ hfit ?_
      rw [hnil]
      change 0 < pos - name.length - 1
      omega

/-! ### Walking the path -/

theorem dget_comm (d d' : ℕ) (v : Vfs ι σ) : dget d (dget d' v) = dget d' (dget d v) := by
  have hcache : (dget d (dget d' v)).dcache = (dget d' (dget d v)).dcache := by
    funext x
    rw [dget, dget, dget, dget]
    simp only [Vfs.dcache_modifyDentry]
    by_cases hd : x = d
    · by_cases hd' : x = d'
      · subst hd hd'
        rfl
      · subst hd
        rw [Function.update_self, Function.update_of_ne hd', Function.update_of_ne hd', Function.update_self]
    · rw [Function.update_of_ne hd]
      by_cases hd' : x = d'
      · subst hd'
        rw [Function.update_self, Function.update_self, Function.update_of_ne hd]
      · rw [Function.update_of_ne hd', Function.update_of_ne hd', Function.update_of_ne hd]
  rw [dget, dget, dget, dget] at hcache ⊢
  rw [Vfs.modifyDentry, Vfs.modifyDentry, Vfs.modifyDentry, Vfs.modifyDentry] at hcache ⊢
  rw [Vfs.setDentry, Vfs.setDentry, Vfs.setDentry, Vfs.setDentry] at hcache ⊢
  exact congrArg (fun dcache ↦ ({ v with dcache } : Vfs ι σ)) hcache

/-- A reference more changes no name. -/
theorem named_dget (d x : ℕ) (c : List Byte) (v : Vfs ι σ) : (dget d v).named c x = v.named c x := by
  rw [Vfs.named, Vfs.named, dget, Vfs.dcache_modifyDentry]
  by_cases hx : x = d
  · rw [hx, Function.update_self]
    rcases v.dcache d with _ | e <;> rfl
  · rw [Function.update_of_ne hx]

theorem bytes_qstrInit (name : List Byte) :
    (qstrInit (fun i ↦ name.getD i 0) name.length).val.bytes = name := by
  change (List.range name.length).map (fun i ↦ name.getD i 0) = name
  refine List.ext_getElem (by simp) fun i hi hi' ↦ ?_
  rw [List.getElem_map, List.getElem_range, List.getD_eq_getElem _ _ hi']

/-- The lookup finds the only child with the name. -/
theorem FoundIn.find_eq (h : FoundIn fs v p d name) :
    ((((dget p v).dcache p).map Dentry.dSubdirs).getD []).find? ((dget p v).named name) = some d := by
  obtain ⟨e, he, hname, -⟩ := h.dentry
  obtain ⟨ep, hp, hmem, huniq⟩ := h.listed
  have hsub : (((dget p v).dcache p).map Dentry.dSubdirs).getD [] = ep.dSubdirs := by
    rw [dget, Vfs.dcache_modifyDentry, Function.update_self, hp]
    rfl
  have hnamed : (dget p v).named name = v.named name := funext fun x ↦ named_dget p x name v
  rw [hsub, hnamed]
  rcases hfind : ep.dSubdirs.find? (v.named name) with _ | x
  · refine absurd ?_ (List.find?_eq_none.1 hfind d hmem)
    rw [Vfs.named, he, Option.any_some, hname]
    exact beq_self_eq_true name
  · rw [huniq x (List.mem_of_find?_eq_some hfind) (List.find?_some hfind)]

/-- The step to a child that is in the cache. -/
theorem FoundIn.walkName (h : FoundIn fs v p d name) (hlive : ∀ x e, v.dcache x = some e → 0 < e.dCount) :
    walkName fs p name (dget p v) = (some d, dget d v) := by
  obtain ⟨e, he, -, -, hi⟩ := h.dentry
  obtain ⟨ep, hp, -⟩ := h.listed
  obtain ⟨⟨dir, lookup⟩, hop⟩ := Option.ne_none_iff_exists'.1 h.dir
  have hop' : inodeOp fs InodeOperations.lookup p (dget p v) = some (dir, lookup) := by
    rw [inodeOp, dInode_dget]
    exact hop
  rw [walkName_of_ne h.ne_dot.1 h.ne_dot.2, hop']
  dsimp only
  rw [val_lookupChild, bytes_qstrInit, h.find_eq]
  dsimp only
  rw [enter, dInode_dget, dInode_dget, Vfs.dInode_of_some he]
  rw [if_neg (by rwa [Option.isNone_iff_eq_none]), dget_comm]
  have hheld : ∃ e', (dget d v).dcache p = some e' ∧ 0 < e'.dCount := by
    by_cases hpd : p = d
    · refine ⟨{ ep with dCount := ep.dCount + 1 }, ?_, Nat.zero_lt_succ _⟩
      rw [dget, ← hpd, Vfs.dcache_modifyDentry, Function.update_self, hp]
      rfl
    · refine ⟨ep, ?_, hlive p ep hp⟩
      rw [dget, Vfs.dcache_modifyDentry_of_ne hpd, hp]
  obtain ⟨e', he', hpos⟩ := hheld
  rw [dput_dget he' hpos]

/-- The walk along the path of a dentry ends at it. -/
theorem CachedPath.walk (h : CachedPath fs v root d names) (hlive : ∀ x e, v.dcache x = some e → 0 < e.dCount) :
    walk fs names root (dget root v) = (some d, dget d v) := by
  induction h with
  | root => rfl
  | child _ _ hfound ih =>
    rw [walk_append, ih]
    exact walk_cons_some (hfound.walkName hlive)

end Paths

/-- What `vfs_getcwd` writes, but for the NUL. -/
def cwdText (names : List (List Byte)) : List Byte := if names = [] then [slash] else pathText names

section Round

variable {fs : FileSystemOps ι σ} {v : Vfs ι σ} {root cwd bufLen : ℕ} {names : List (List Byte)} {buf : Buf}

/-- `vfs_getcwd` in a directory that is not the root. -/
theorem val_vfsGetcwd_of_ne (hroot : v.sRoot = some root) (hcwd : v.vfsCwd = some cwd) (hne : cwd ≠ root)
    (hpath : CachedPath fs.toFileSystem v root cwd names) (hlen : 2 ≤ bufLen) :
    ∃ buf', (vfsGetcwd buf bufLen v).val =
        ((if (pathText names).length + 1 < bufLen then 0 else eRange, buf'), v) ∧
      ((pathText names).length + 1 < bufLen → buf' = put (put (Function.update buf (bufLen - 1) 0)
        (bufLen - 1 - (pathText names).length) (pathText names)) 0 (pathText names ++ [0])) := by
  have hcall : vfsGetCwdDentry v = (some cwd, v) := by rw [vfsGetCwdDentry, hroot, hcwd]
  have hclimb := @CachedPath.val_climb _ _ _ _ _ _ _ (Function.update buf (bufLen - 1) 0) (bufLen - 1) bufLen
    hpath (by omega)
  rw [vfsGetcwd, if_neg (by omega), withCwd, hroot]
  dsimp only
  rw [hcall]
  dsimp only
  rw [if_neg hne, val_bind, val_bind]
  by_cases hfit : (pathText names).length + 1 < bufLen
  · rw [if_pos (by omega)] at hclimb
    rw [hclimb, if_neg (by simp only [Bool.true_eq_false, false_or]; omega), if_pos hfit, val_bind]
    dsimp only
    refine ⟨_, rfl, fun _ ↦ val_moveFront hpath.text.2 (Nat.zero_le _) (fun k hk ↦ ?_) ?_ (by omega)⟩
    · rw [put_in (Nat.le_add_right _ _) (by omega), Nat.add_sub_cancel_left]
    · rw [put_out (Or.inr le_rfl), Nat.sub_add_cancel (by omega), Function.update_self]
  · rw [if_neg (by omega)] at hclimb
    rw [if_pos (Or.inl (hclimb fun hnil ↦ hne (hpath.eq_nil_iff.1 hnil))), if_neg hfit]
    exact ⟨_, rfl, fun h ↦ absurd h hfit⟩

/-- `vfs_chdir` to the current directory. -/
theorem val_vfsChdir_cwdText (hroot : v.sRoot = some root) (hcwd : v.vfsCwd = some cwd)
    (hlive : ∀ x e, v.dcache x = some e → 0 < e.dCount)
    (hdir : ∃ n, v.inodeOf cwd = some n ∧ sIsdir (fs.iMode n.node) = true)
    (hpath : CachedPath fs.toFileSystem v root cwd names) (name : Buf) :
    (vfsChdir fs (cwdText names) name v).val = (0, v) := by
  have hcall : vfsGetCwdDentry v = (some cwd, v) := by rw [vfsGetCwdDentry, hroot, hcwd]
  obtain ⟨n, hn, hmode⟩ := hdir
  have hmode' : ¬ sIsdir (fs.iMode n.node) = false := by rw [hmode]; exact Bool.noConfusion
  have hbegin : ∀ path : List Byte, path ≠ [] → vfsChdir fs path name v =
      if path = [slash] then pure (chdirTo fs root cwd root v)
      else atPath fs id root cwd path name (chdirTo fs root cwd) v := fun path hpath ↦ by
    rw [vfsChdir, if_neg hpath, withCwd, hroot]
    dsimp only
    rw [hcall]
  -- the text of the root is a single slash
  by_cases hnames : names = []
  · obtain rfl := hpath.eq_nil_iff.1 hnames
    rw [cwdText, if_pos hnames, hbegin _ (List.cons_ne_nil _ _), if_pos rfl, chdirTo, hn]
    dsimp only
    rw [if_neg hmode', if_pos rfl, if_neg (not_not.2 rfl)]
    rfl
  have hne : cwd ≠ root := fun h ↦ hnames (hpath.eq_nil_iff.2 h)
  obtain ⟨c, names', rfl⟩ := List.exists_cons_of_ne_nil hnames
  have hcomp := hpath.text.1
  have hcons : pathText (c :: names') = slash :: (c ++ pathText names') := rfl
  have hslash : pathText (c :: names') ≠ [slash] := fun h ↦ by
    rw [h] at hcomp
    exact absurd hcomp (List.cons_ne_nil c names').symm
  have hstart : (v.dInode root).isNone = false :=
    Option.isNone_eq_false_iff.2 (Option.isSome_iff_ne_none.2 (hpath.dInode_root hne))
  rw [cwdText, if_neg hnames, hbegin _ (by rw [hcons]; exact List.cons_ne_nil _ _), if_neg hslash, atPath,
    val_bind, lookupFrom, val_vfsPathLookup, hcons, List.head?_cons, if_pos rfl, ← hcons, resolve, hstart,
    if_neg Bool.false_ne_true, hcomp, hpath.walk hlive]
  obtain ⟨e, he⟩ : ∃ e, v.dcache cwd = some e := by
    obtain ⟨i, hi, -⟩ := Option.bind_eq_some_iff.1 hn
    obtain ⟨e, he, -⟩ := Option.bind_eq_some_iff.1 hi
    exact ⟨e, he⟩
  have hn' : (dget cwd v).inodeOf cwd = some n := by
    rw [Vfs.inodeOf, dInode_dget]
    exact hn
  change chdirTo fs root cwd cwd (dget cwd v) = (0, v)
  rw [chdirTo, hn']
  dsimp only
  rw [if_neg hmode', if_pos rfl, if_pos hne, dput_dget he (hlive cwd e he)]

end Round

end Getcwd

/-- An empty directory in core. -/
def bareDir : VfsInode Ext4Inode :=
  ⟨2, ⟨⟨2, 2, 0, 0, sIfdir ||| 0o755, 0, 0, 0, 0, 0, false, Buf.zero, 0, 0⟩, true⟩⟩

/-- A name of one byte. -/
def byteName (c : Byte) : DName := ⟨[c], of_decide_eq_true rfl⟩

/-- The small volume with a directory `a` in the cache, the current one. -/
def smallCwd : Ext4Vfs where
  dcache := fun d ↦
    if d = 0 then some ⟨2, byteName slash, 0, some 0, [1], some 0⟩
    else if d = 1 then some ⟨1, byteName 97, 0, some 0, [], some 1⟩
    else none
  inodes := fun i ↦ if i < 2 then some bareDir else none
  fs := ⟨Mkfs.smallFs, 0, false⟩
  sRoot := some 0
  vfsCwd := some 1
  fds := fun _ ↦ none

end MiniExt4
