import MiniExt4.Vfs.Namei

/-!
# Path walking by components (`fs/namei.c`)

The loop of `vfs_path_lookup` carries an array with the component, cut off after 255 bytes, and the length
of the component, which is not cut off. All the same the walk is the one along the names themselves: a
name of 32 bytes or more is not in the cache and gets no dentry, and a shorter one is all there.

The array is read up to the length that goes with it. So the reads stay inside it exactly as long as no
component of more than 256 bytes comes to a directory (`within_vfsPathLookup`).

`walkName` is one component without the array, `walk` the fold over the names. The code agrees with it in
two cases that are proved separately: names that fit, where the array holds the name whole, and longer ones,
where neither finds anything (`walkName_of_le`). Padding a path with separators changes the components in no
way, and so the last theorem needs no induction over the walk.
-/

namespace MiniExt4

open Touch

namespace Namei

variable {ι σ : Type} (fs : FileSystem ι σ)

/-! ### One component -/

/-- What the loop does for a component whose bytes are all there. -/
def walkName (dentry : ℕ) (c : List Byte) (v : Vfs ι σ) : Option ℕ × Vfs ι σ :=
  (walkComponent fs dentry (fun i ↦ c.getD i 0) c.length v).val

/-- The walk along a list of components. -/
def walk : List (List Byte) → ℕ → Vfs ι σ → Option ℕ × Vfs ι σ
  | [], d, v => (some d, v)
  | c :: cs, d, v =>
    match walkName fs d c v with
    | (none, v) => (none, v)
    | (some d, v) => walk cs d v

variable {fs} {v : Vfs ι σ} {b b' name : Buf} {c : List Byte} {d dir len N : ℕ}
  {lookup : ℕ → ℕ → Vfs ι σ → Option ℕ × Vfs ι σ}

/-- The comparison reads the bytes of the name only. -/
theorem val_isDot_congr (h : len < dnameInlineLen → ∀ i < len, b i = b' i) :
    (isDot b len).val = (isDot b' len).val := by
  rw [isDot, isDot]
  split
  next hlen => rw [val_bind, val_bind, h (by rw [hlen]; decide) 0 (by omega)]
  next => rfl

/-- So does the other. -/
theorem val_isDotDot_congr (h : len < dnameInlineLen → ∀ i < len, b i = b' i) :
    (isDotDot b len).val = (isDotDot b' len).val := by
  rw [isDotDot, isDotDot]
  split
  next hlen =>
    have h0 := h (by rw [hlen]; decide) 0 (by omega)
    have h1 := h (by rw [hlen]; decide) 1 (by omega)
    rw [val_bind, val_bind, h0]
    split
    · rw [val_bind, val_bind, h1]
    · rfl
  next => rfl

/-- Only a name that fits into a dentry is looked at. -/
theorem val_lookupChild_congr (h : len < dnameInlineLen → ∀ i < len, b i = b' i) :
    (lookupChild fs dir lookup d b len v).val = (lookupChild fs dir lookup d b' len v).val := by
  by_cases hlen : len < dnameInlineLen
  · have hbytes := bytes_congr (h hlen)
    have hhash := val_dHashString_congr (h hlen)
    have hlookup := @val_dLookup_congr ι σ v _ _ d hbytes
    rw [lookupChild, lookupChild, val_bind, val_bind, val_bind, val_bind, hlookup]
    split
    · rfl
    · rw [val_bind, val_bind, @val_dAlloc_congr ι σ _ (qstrInit b len).val (qstrInit b' len).val _ rfl hbytes hhash]
  · have hmiss : ∀ a : Buf, (lookupChild fs dir lookup d a len v).val = (none, dput fs d v) := by
      intro a
      have hq : dnameInlineLen ≤ (qstrInit a len).val.len := Nat.not_lt.1 hlen
      rw [lookupChild, val_bind, val_bind, val_dLookup_of_le hq]
      simp only [val_bind, val_dAlloc_of_le hq, val_pure]
    rw [hmiss, hmiss]

/-- A step of the walk depends on the bytes of its name, as far as they fit. -/
theorem val_walkComponent_congr (h : len < dnameInlineLen → ∀ i < len, b i = b' i) :
    (walkComponent fs d b len v).val = (walkComponent fs d b' len v).val := by
  rw [walkComponent, walkComponent, val_bind, val_bind, val_isDot_congr h]
  split
  · rfl
  · rw [val_bind, val_bind, val_isDotDot_congr h]
    split
    · rfl
    · split
      · rfl
      · exact val_lookupChild_congr h

/-- One byte is read. -/
theorem within_isDot (hN : 0 < N) : (isDot b len).Within N := by
  rw [isDot]
  split
  · exact ((within_touch one_pos).2 hN).bind (within_pure _)
  · exact within_pure _

/-- Two bytes are read. -/
theorem within_isDotDot (hN : 1 < N) : (isDotDot b len).Within N := by
  rw [isDotDot]
  split
  · refine ((within_touch one_pos).2 (by omega)).bind ?_
    split
    · exact ((within_touch one_pos).2 hN).bind (within_pure _)
    · exact within_pure _
  · exact within_pure _

/-- A name that fits is copied within its array. -/
theorem within_lookupChild (hN : dnameInlineLen ≤ N) :
    (lookupChild fs dir lookup d b len v).Within N ↔ len ≤ N := by
  rw [lookupChild, within_bind, within_qstrInit]
  refine and_iff_left ((within_dLookup hN).bind ?_)
  split
  · exact within_pure _
  · refine (within_dAlloc hN).bind ?_
    split <;> exact within_pure _

/-- The reads for a component are inside the array unless it is long and there is a directory to look it
up in. -/
theorem within_walkComponent (hN : dnameInlineLen ≤ N) : (walkComponent fs d b len v).Within N ↔
    (N < len → inodeOp fs InodeOperations.lookup d v = none) := by
  have h32 : 32 ≤ N := hN
  rw [walkComponent, within_bind, and_iff_right (within_isDot (by omega))]
  by_cases hdot : (isDot b len).val = true
  · have hlen : len = 1 := by
      by_contra hne
      rw [isDot, if_neg hne] at hdot
      exact absurd hdot Bool.false_ne_true
    rw [if_pos hdot]
    exact iff_of_true (within_pure _) fun h ↦ absurd h (by omega)
  rw [if_neg hdot, within_bind, and_iff_right (within_isDotDot (by omega))]
  by_cases hdots : (isDotDot b len).val = true
  · have hlen : len = 2 := by
      by_contra hne
      rw [isDotDot, if_neg hne] at hdots
      exact absurd hdots Bool.false_ne_true
    rw [if_pos hdots]
    exact iff_of_true (within_pure _) fun h ↦ absurd h (by omega)
  rw [if_neg hdots]
  rcases hop : inodeOp fs InodeOperations.lookup d v with _ | ⟨dir, lookup⟩
  · exact iff_of_true (within_pure _) fun _ ↦ rfl
  · exact (within_lookupChild hN).trans ⟨fun h h' ↦ absurd h' (Nat.not_lt.2 h),
      fun h ↦ Nat.not_lt.1 fun h' ↦ Option.some_ne_none _ (h h')⟩

/-! ### The cases of a component -/


/-- `.` stays where it is. -/
@[simp] theorem walkName_dot : walkName fs d [dot] v = (some d, v) := by
  have hdot : (isDot (fun i ↦ [dot].getD i 0) [dot].length).val = true := rfl
  rw [walkName, walkComponent, val_bind, hdot, if_pos rfl]
  rfl

/-- `..` goes up. -/
@[simp] theorem walkName_dotdot : walkName fs d [dot, dot] v =
    (some (ascend fs d v).1, (ascend fs d v).2) := by
  have hdot : (isDot (fun i ↦ [dot, dot].getD i 0) [dot, dot].length).val = false := rfl
  have hdots : (isDotDot (fun i ↦ [dot, dot].getD i 0) [dot, dot].length).val = true := rfl
  rw [walkName, walkComponent, val_bind, hdot, if_neg Bool.false_ne_true, val_bind, hdots, if_pos rfl]
  rfl

/-- Another name is not taken for `.`. -/
theorem val_isDot_of_ne (h : c ≠ [dot]) : (isDot (fun i ↦ c.getD i 0) c.length).val = false := by
  rw [isDot]
  split
  next hlen =>
    obtain ⟨a, rfl⟩ := List.length_eq_one_iff.1 hlen
    exact decide_eq_false fun ha ↦ h (congrArg (fun a ↦ [a]) ha)
  next => rfl

/-- Nor for `..`. -/
theorem val_isDotDot_of_ne (h : c ≠ [dot, dot]) :
    (isDotDot (fun i ↦ c.getD i 0) c.length).val = false := by
  rw [isDotDot]
  split
  next hlen =>
    obtain ⟨a, b, rfl⟩ := List.length_eq_two.1 hlen
    rw [val_bind]
    split
    next ha =>
      have ha' : a = dot := ha
      subst ha'
      exact decide_eq_false fun hb ↦ h (congrArg (fun b ↦ [dot, b]) hb)
    next => rfl
  next => rfl

/-- The step for a name. -/
theorem walkName_of_ne (hdot : c ≠ [dot]) (hdots : c ≠ [dot, dot]) : walkName fs d c v =
    match inodeOp fs InodeOperations.lookup d v with
    | none => (none, dput fs d v)
    | some (dir, lookup) => (lookupChild fs dir lookup d (fun i ↦ c.getD i 0) c.length v).val := by
  rw [walkName, walkComponent, val_bind, val_isDot_of_ne hdot, if_neg Bool.false_ne_true, val_bind,
    val_isDotDot_of_ne hdots, if_neg Bool.false_ne_true]
  rcases inodeOp fs InodeOperations.lookup d v with _ | ⟨dir, lookup⟩ <;> rfl

/-- What a lookup of a name does: a dentry of the cache is taken, or a new one is looked up. -/
theorem val_lookupChild : (lookupChild fs dir lookup d b len v).val =
      match (((v.dcache d).map Dentry.dSubdirs).getD []).find? (v.named (qstrInit b len).val.bytes) with
      | some child => enter fs d (some child) (dget child v)
      | none => match (dAlloc (some d) (qstrInit b len).val v).val with
        | (none, v) => (none, dput fs d v)
        | (some child, v) => enter fs d (lookup dir child v).1 (lookup dir child v).2 := by
  rw [lookupChild, val_bind, val_bind, val_dLookup]
  rcases (((v.dcache d).map Dentry.dSubdirs).getD []).find? (v.named (qstrInit b len).val.bytes) with _ | child
  · dsimp only
    rw [val_bind]
    rcases (dAlloc (some d) (qstrInit b len).val v).val with ⟨_ | child, v'⟩ <;> rfl
  · rfl

/-! ### All components -/

variable {cs : List (List Byte)} {p : List Byte} {rd : List Byte → Touch Unit} {fuel : ℕ}

/-- A step that fails ends the walk. -/
theorem walk_cons_none {v' : Vfs ι σ} (h : walkName fs d c v = (none, v')) :
    walk fs (c :: cs) d v = (none, v') := by rw [walk, h]

/-- A step that succeeds is where the walk goes on. -/
theorem walk_cons_some {v' : Vfs ι σ} {d' : ℕ} (h : walkName fs d c v = (some d', v')) :
    walk fs (c :: cs) d v = walk fs cs d' v' := by rw [walk, h]

/-- A walk over two lists of components is one after the other. -/
theorem walk_append {cs' : List (List Byte)} : walk fs (cs ++ cs') d v =
    match walk fs cs d v with
    | (none, v) => (none, v)
    | (some d, v) => walk fs cs' d v := by
  induction cs generalizing d v with
  | nil => rfl
  | cons c cs ih =>
    rw [List.cons_append]
    rcases hstep : walkName fs d c v with ⟨_ | d', v'⟩
    · rw [walk_cons_none hstep, walk_cons_none hstep]
    · rw [walk_cons_some hstep, walk_cons_some hstep, ih]

/-- A name that does not fit into a dentry is not found. -/
theorem walkName_of_le (hc : dnameInlineLen ≤ c.length) : (walkName fs d c v).1 = none := by
  have h32 : 32 ≤ c.length := hc
  have hq : dnameInlineLen ≤ (qstrInit (fun i ↦ c.getD i 0) c.length).val.len := hc
  have hdot : (isDot (fun i ↦ c.getD i 0) c.length).val = false := by rw [isDot, if_neg (by omega)]; rfl
  have hdots : (isDotDot (fun i ↦ c.getD i 0) c.length).val = false := by
    rw [isDotDot, if_neg (by omega)]
    rfl
  rw [walkName, walkComponent, val_bind, hdot, if_neg Bool.false_ne_true, val_bind, hdots,
    if_neg Bool.false_ne_true]
  split
  · rfl
  · rw [lookupChild, val_bind, val_bind, val_dLookup_of_le hq]
    simp only [val_bind, val_dAlloc_of_le hq, val_pure]

/-- A walk over a name that does not fit into a dentry fails. -/
theorem walk_of_mem_le (hmem : c ∈ cs) (hc : dnameInlineLen ≤ c.length) : (walk fs cs d v).1 = none := by
  induction cs generalizing d v with
  | nil => exact absurd hmem List.not_mem_nil
  | cons c' cs ih =>
    rcases hstep : walkName fs d c' v with ⟨_ | d', v'⟩
    · rw [walk_cons_none hstep]
    · rw [walk_cons_some hstep]
      rcases List.mem_cons.1 hmem with rfl | hmem
      · have hnone := @walkName_of_le ι σ fs v c d hc
        rw [hstep] at hnone
        exact absurd hnone (Option.some_ne_none d')
      · exact ih hmem

variable (fs) in
/-- No component of more than `N` bytes comes to a directory that looks names up. -/
def Fits (N : ℕ) (cs : List (List Byte)) (d : ℕ) (v : Vfs ι σ) : Prop :=
  ∀ pre c post, cs = pre ++ c :: post → N < c.length →
    ∀ d' v', walk fs pre d v = (some d', v') → inodeOp fs InodeOperations.lookup d' v' = none

/-- No name, nothing to fit. -/
theorem fits_nil : Fits fs N [] d v := fun pre c post h ↦ absurd h.symm (by simp)

/-- The first name fits or is not looked up, and so on from where it leads. -/
theorem fits_cons : Fits fs N (c :: cs) d v ↔
    (N < c.length → inodeOp fs InodeOperations.lookup d v = none) ∧
      ∀ d' v', walkName fs d c v = (some d', v') → Fits fs N cs d' v' := by
  constructor
  · intro h
    refine ⟨fun hc ↦ h [] c cs rfl hc d v rfl, fun d' v' hstep pre c' post hcs hc' d'' v'' hwalk ↦ ?_⟩
    exact h (c :: pre) c' post (by rw [hcs]; rfl) hc' d'' v'' (by rw [walk_cons_some hstep, hwalk])
  · rintro ⟨hhead, htail⟩ pre c' post hcs hc' d'' v'' hwalk
    cases pre with
    | nil =>
      obtain ⟨rfl, rfl⟩ := List.cons.inj hcs
      obtain ⟨hd, rfl⟩ := Prod.mk.inj hwalk
      obtain rfl := Option.some.inj hd
      exact hhead hc'
    | cons c₁ pre =>
      obtain ⟨rfl, htl⟩ := List.cons.inj hcs
      rcases hstep : walkName fs d c v with ⟨_ | d', v'⟩
      · rw [walk_cons_none hstep] at hwalk
        exact absurd (congrArg Prod.fst hwalk) (Option.some_ne_none d'').symm
      · rw [walk_cons_some hstep] at hwalk
        exact htail d' v' hstep pre c' post htl hc' d'' v'' hwalk

/-- Short names fit wherever they lead. -/
theorem fits_of_forall (h : ∀ c ∈ cs, c.length ≤ N) : Fits fs N cs d v := by
  intro pre c post hcs hc
  exact absurd (h c (hcs ▸ List.mem_append_right pre List.mem_cons_self)) (Nat.not_le.2 hc)

/-- The components at a pointer with no slash. -/
theorem components_cons {c₀ : Byte} (hc : (c₀ == slash) = false) : components (c₀ :: p) =
    (c₀ :: p).takeWhile (!· == slash) :: components ((c₀ :: p).dropWhile (!· == slash)) := by
  rw [components, List.tokens_eq_cons (p := (· == slash)) hc, List.takeWhile_cons_of_pos (by simpa using hc),
    List.dropWhile_cons_of_pos (by simpa using hc)]
  rfl

/-- The components of two paths put together. -/
theorem components_append_slash (p q : List Byte) :
    components (p ++ slash :: q) = components p ++ components q :=
  List.tokens_append_cons (p := (· == slash)) p q (beq_self_eq_true slash)

/-- Separators in front make no component. -/
theorem components_dropWhile (p : List Byte) : components (p.dropWhile (· == slash)) = components p :=
  List.tokens_dropWhile _ p

/-- What `next_component` gives where there is a component: the walk goes on behind it, and if it fits
into a dentry it is in the array. -/
theorem val_nextComponent_of_cons {c₀ : Byte} {q : List Byte} (rd : List Byte → Touch Unit) (name : Buf)
    (h : p.dropWhile (· == slash) = c₀ :: q) :
    components p = (c₀ :: q).takeWhile (!· == slash) :: components ((c₀ :: q).dropWhile (!· == slash)) ∧
      ((c₀ :: q).dropWhile (!· == slash)).length < p.length ∧
      ∃ name', (nextComponent rd p name).val = some ((c₀ :: q).dropWhile (!· == slash),
          ((c₀ :: q).takeWhile (!· == slash)).length, name') ∧
        ∀ (d : ℕ) (v : Vfs ι σ), (walkComponent fs d name' ((c₀ :: q).takeWhile (!· == slash)).length v).val =
          walkName fs d ((c₀ :: q).takeWhile (!· == slash)) v := by
  have hc₀ : (c₀ == slash) = false := by
    have hhead := List.head_dropWhile_not (· == slash) (l := p) (by rw [h]; exact List.cons_ne_nil c₀ q)
    simpa only [h, List.head_cons] using hhead
  have hlt : ((c₀ :: q).dropWhile (!· == slash)).length < p.length := by
    have hskip := (List.dropWhile_suffix (l := p) (· == slash)).length_le
    have hrest := (List.dropWhile_suffix (l := q) (!· == slash)).length_le
    rw [List.dropWhile_cons_of_pos (by simpa using hc₀)]
    rw [h, List.length_cons] at hskip
    omega
  refine ⟨by rw [← components_dropWhile, h, components_cons hc₀], hlt,
    (takeName rd (c₀ :: q) name).val.2.2, ?_, fun d v ↦ val_walkComponent_congr fun hlen i hi ↦ ?_⟩
  · rw [val_nextComponent, h, if_neg (List.cons_ne_nil c₀ q), ← takeName_len, ← takeName_fst]
  · exact takeName_name (hlen.le.trans (by decide)) i hi

/-- The loop of `vfs_path_lookup` walks along the components of the path. -/
theorem val_walkLoop (hfuel : p.length ≤ fuel) :
    (walkLoop fs rd fuel d p name v).val = walk fs (components p) d v := by
  induction fuel generalizing p d name v with
  | zero =>
    obtain rfl := List.eq_nil_of_length_eq_zero (Nat.le_zero.1 hfuel)
    rfl
  | succ fuel ih =>
    rw [walkLoop, val_bind]
    rcases hp : p.dropWhile (· == slash) with _ | ⟨c₀, q⟩
    · rw [val_nextComponent, if_pos hp, ← components_dropWhile, hp]
      rfl
    · obtain ⟨hcs, hlt, name', hnext, hstep⟩ := @val_nextComponent_of_cons ι σ fs p c₀ q rd name hp
      rw [hnext, hcs]
      simp only [val_bind, hstep]
      rcases hw : walkName fs d ((c₀ :: q).takeWhile (!· == slash)) v with ⟨_ | d', v'⟩
      · rw [walk_cons_none hw]
        rfl
      · rw [walk_cons_some hw, ← components_dropWhile ((c₀ :: q).dropWhile (!· == slash))]
        simp only [val_bind, val_skipSlashes]
        split
        next hnil => rw [hnil]; rfl
        next => exact ih ((List.dropWhile_suffix _).length_le.trans (by omega))

/-- The loop stays inside its array as long as no long component comes to a directory. -/
theorem within_walkLoop (hN : nameBufSize ≤ N) (hrd : ∀ s, s <:+ p → (rd s).Within N)
    (hfuel : p.length ≤ fuel) :
    (walkLoop fs rd fuel d p name v).Within N ↔ Fits fs N (components p) d v := by
  have hN' : 256 ≤ N := hN
  induction fuel generalizing p d name v with
  | zero =>
    obtain rfl := List.eq_nil_of_length_eq_zero (Nat.le_zero.1 hfuel)
    exact iff_of_true (within_pure _) fits_nil
  | succ fuel ih =>
    rw [walkLoop, within_bind, and_iff_right (within_nextComponent hN' hrd)]
    rcases hp : p.dropWhile (· == slash) with _ | ⟨c₀, q⟩
    · rw [val_nextComponent, if_pos hp, ← components_dropWhile, hp]
      exact iff_of_true (within_pure _) fits_nil
    · obtain ⟨hcs, hlt, name', hnext, hstep⟩ := @val_nextComponent_of_cons ι σ fs p c₀ q rd name hp
      have hcons : c₀ :: q <:+ p := hp ▸ List.dropWhile_suffix _
      have hrest : (c₀ :: q).dropWhile (!· == slash) <:+ p := (List.dropWhile_suffix _).trans hcons
      have hskip := fun s (hs : s <:+ (c₀ :: q).dropWhile (!· == slash)) ↦ hrd s (hs.trans hrest)
      rw [hnext, hcs, fits_cons]
      simp only [within_bind, hstep]
      refine and_congr (within_walkComponent (by exact hN'.trans' (by decide))) ?_
      rcases hw : walkName fs d ((c₀ :: q).takeWhile (!· == slash)) v with ⟨_ | d', v'⟩
      · exact iff_of_true (within_pure _) fun d' v' h ↦ absurd (congrArg Prod.fst h).symm (by simp)
      · have hself : (∀ d'' v'', (some d', v') = ((some d'', v'') : Option ℕ × Vfs ι σ) →
            Fits fs N (components ((c₀ :: q).dropWhile (!· == slash))) d'' v'') ↔
            Fits fs N (components ((c₀ :: q).dropWhile (!· == slash))) d' v' :=
          ⟨fun h ↦ h d' v' rfl, fun h d'' v'' heq ↦ by cases heq; exact h⟩
        rw [hself, ← components_dropWhile]
        simp only [within_bind, val_skipSlashes, and_iff_right (within_skipSlashes hskip),
          and_iff_right (hskip _ (List.dropWhile_suffix _))]
        split
        next hnil => rw [hnil]; exact iff_of_true (within_pure _) fits_nil
        next =>
          exact ih (fun s hs ↦ hskip s (hs.trans (List.dropWhile_suffix _)))
            ((List.dropWhile_suffix _).length_le.trans (by omega))

/-! ### `vfs_path_lookup` -/

variable {start : ℕ} {path : List Byte}

variable (fs) in
/-- The walk along the components of a path, with a reference to the dentry it starts at. -/
def resolve (start : ℕ) (path : List Byte) (v : Vfs ι σ) : Option ℕ × Vfs ι σ :=
  if (v.dInode start).isNone then (none, v) else walk fs (components path) start (dget start v)

/-- A path lookup walks along the components of the path. -/
theorem val_vfsPathLookup : (vfsPathLookup fs rd start path name v).val = resolve fs start path v := by
  rw [vfsPathLookup, resolve]
  split
  · rfl
  · simp only [val_bind, val_skipSlashes]
    rw [← components_dropWhile path]
    split
    next hnil => rw [hnil]; rfl
    next => exact val_walkLoop (List.dropWhile_suffix _).length_le

/-- A path lookup stays inside its arrays exactly as long as no long component comes to a directory. -/
theorem within_vfsPathLookup (hN : nameBufSize ≤ N) (hrd : ∀ s, s <:+ path → (rd s).Within N) :
    (vfsPathLookup fs rd start path name v).Within N ↔
      ((v.dInode start).isSome → Fits fs N (components path) start (dget start v)) := by
  have hdrop : ∀ s, s <:+ path.dropWhile (· == slash) → (rd s).Within N :=
    fun s hs ↦ hrd s (hs.trans (List.dropWhile_suffix _))
  rw [vfsPathLookup]
  split
  next h => exact iff_of_true (within_pure _) fun h' ↦ by simp_all
  next h =>
    rw [imp_iff_right (by simpa [Option.isSome_iff_ne_none] using h), ← components_dropWhile path]
    simp only [within_bind, val_skipSlashes, and_iff_right (within_skipSlashes hrd),
      and_iff_right (hdrop _ (List.suffix_refl _))]
    split
    next hnil => rw [hnil]; exact iff_of_true (within_pure _) fits_nil
    next => exact within_walkLoop hN hdrop (List.dropWhile_suffix _).length_le

/-- A path with a component that does not fit into a dentry is not found. -/
theorem resolve_of_mem_le (hmem : c ∈ components path) (hc : dnameInlineLen ≤ c.length) :
    (resolve fs start path v).1 = none := by
  rw [resolve]
  split
  · rfl
  · exact walk_of_mem_le hmem hc

/-! ### Redundant separators -/

section Separators

variable {v : Vfs ι σ} {d start : ℕ} {cs : List (List Byte)} {p q : List Byte}

/-- The components of a path that are not `"."`. -/
def properComponents (path : List Byte) : List (List Byte) := (components path).filter (· ≠ [dot])

/-- A walk does not move at a `"."`. -/
theorem walk_filter (cs : List (List Byte)) (d : ℕ) (v : Vfs ι σ) :
    walk fs (cs.filter (· ≠ [dot])) d v = walk fs cs d v := by
  induction cs generalizing d v with
  | nil => rfl
  | cons c cs ih =>
    by_cases hc : c = [dot]
    · rw [hc, List.filter_cons_of_neg (by simp), walk_cons_some walkName_dot, ih]
    · rw [List.filter_cons_of_pos (by simpa using hc)]
      rcases hstep : walkName fs d c v with ⟨_ | d', v'⟩
      · rw [walk_cons_none hstep, walk_cons_none hstep]
      · rw [walk_cons_some hstep, walk_cons_some hstep, ih]

/-- Paths with the same components but for `.` lead to the same place. -/
theorem resolve_congr (h : properComponents p = properComponents q) :
    resolve fs start p v = resolve fs start q v := by
  rw [resolve, resolve, ← walk_filter (components p), ← walk_filter (components q)]
  rw [properComponents, properComponents] at h
  rw [h]

/-- The components but `.` of two paths put together. -/
theorem properComponents_append_slash (p q : List Byte) :
    properComponents (p ++ slash :: q) = properComponents p ++ properComponents q := by
  rw [properComponents, components_append_slash, List.filter_append]
  rfl

/-- A path of nothing but `.` and separators. -/
theorem properComponents_eq_nil : properComponents p = [] ↔ ∀ c ∈ components p, c = [dot] := by
  rw [properComponents, List.filter_eq_nil_iff]
  simp

/-- Text of slashes and dots, that names no entry. -/
abbrev Padding : Type := {s : List Byte // ∀ c ∈ components s, c = [dot]}

/-- **Redundant separators are ignored, and a path is walked in parts.** Padding between, behind or before the
parts of a path changes nothing of what a lookup does, and the second part is walked from where the lookup
of the first one ends. -/
theorem vfsPathLookup_padding (rd : List Byte → Touch Unit) (name : Buf) (start : ℕ) (v : Vfs ι σ)
    (s : Padding) (p q : List Byte) :
    (vfsPathLookup fs rd start (p ++ slash :: (s.1 ++ slash :: q)) name v).val =
      (vfsPathLookup fs rd start (p ++ slash :: q) name v).val ∧
    (vfsPathLookup fs rd start (p ++ slash :: s.1) name v).val = (vfsPathLookup fs rd start p name v).val ∧
    (vfsPathLookup fs rd start (s.1 ++ slash :: p) name v).val = (vfsPathLookup fs rd start p name v).val ∧
    (vfsPathLookup fs rd start (p ++ slash :: q) name v).val =
      match (vfsPathLookup fs rd start p name v).val with
      | (none, w) => (none, w)
      | (some d, w) => walk fs (components q) d w := by
  have hnil := properComponents_eq_nil.2 s.2
  simp only [val_vfsPathLookup]
  refine ⟨resolve_congr ?_, resolve_congr ?_, resolve_congr ?_, ?_⟩
  · simp only [properComponents_append_slash, hnil, List.nil_append]
  · simp only [properComponents_append_slash, hnil, List.append_nil]
  · simp only [properComponents_append_slash, hnil, List.nil_append]
  · rw [resolve, resolve, components_append_slash]
    split
    · rfl
    · exact walk_append

end Separators

end Namei

end MiniExt4
