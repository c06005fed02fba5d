import MiniExt4.Vfs.Dcache

/-!
# Reference counts of dentries (`fs/dcache.c`)

The count of a dentry is the number of references from outside the cache and of the dentries that have it
as their parent. `Refs v ext` says so for the references `ext` from outside, with what keeps it true: a
parent is in the cache, and the dentries on the list of a dentry have it as their parent. The root is its
own parent and does not count itself.

`dget` and `dput` add and take away one reference from outside (`Refs.dget`, `Refs.dput`). A `dput` that
frees a dentry turns its reference to the parent into one from outside, and goes on with that one.

The recursion of `dput` goes up the tree, so it ends, and a bound on it is the number of dentries in the
cache (`Refs.dputUp`). The laws that the filesystem has to obey are those of destroying an inode: it leaves
the cache alone and forgets nothing that an equivalence on its state can see (`FileSystem.Laws`).
-/

namespace MiniExt4

variable {ι σ : Type}

/-! ### Children -/

/-- The dentries in the pool whose parent, by `par`, is `d`. -/
def kids (par : ℕ → Option ℕ) (d : ℕ) : Finset ℕ :=
  (Finset.range dcacheMaxDentries).filter fun c ↦ c ≠ d ∧ par c = some d

section Kids

variable {par : ℕ → Option ℕ} {c d p x : ℕ}

/-- The children of a dentry, by their parent. -/
theorem mem_kids : c ∈ kids par d ↔ c < dcacheMaxDentries ∧ c ≠ d ∧ par c = some d := by
  rw [kids, Finset.mem_filter, Finset.mem_range]

/-- A dentry that loses its parent is one child less of that parent. -/
theorem card_kids_orphan (par : ℕ → Option ℕ) (d : ℕ) (hx : x < dcacheMaxDentries) : (kids par d).card =
    (kids (Function.update par x none) d).card + if par x = some d ∧ d ≠ x then 1 else 0 := by
  have herase : kids (Function.update par x none) d = (kids par d).erase x := by
    ext c
    rw [Finset.mem_erase, mem_kids, mem_kids]
    by_cases hc : c = x
    · simp [hc]
    · simp [hc]
  rw [herase]
  split
  next h => rw [Finset.card_erase_add_one (mem_kids.2 ⟨hx, Ne.symm h.2, h.1⟩)]
  next h => rw [Finset.erase_eq_of_notMem fun hmem ↦ h ⟨(mem_kids.1 hmem).2.2, (mem_kids.1 hmem).2.1.symm⟩,
      Nat.add_zero]

/-- A dentry that gets a parent is one child more of that parent. -/
theorem card_kids_adopt (d : ℕ) (hx : x < dcacheMaxDentries) (hpx : p ≠ x) (h : par x = none) :
    (kids (Function.update par x (some p)) d).card = (kids par d).card + if d = p then 1 else 0 := by
  have hback : Function.update (Function.update par x (some p)) x none = par := by
    rw [Function.update_idem, ← h, Function.update_eq_self]
  have hcond : (some p = some d ∧ d ≠ x) ↔ d = p :=
    ⟨fun hc ↦ (Option.some_inj.1 hc.1).symm, fun hd ↦ ⟨congrArg some hd.symm, hd ▸ hpx⟩⟩
  rw [card_kids_orphan _ d hx, hback, Function.update_self, if_congr hcond rfl rfl]

end Kids

/-! ### The state -/

namespace Vfs

variable {v : Vfs ι σ} {d d' : ℕ} {e : Dentry} {f : Dentry → Dentry}

theorem dParent_of_some (h : v.dcache d = some e) : v.dParent d = e.dParent := by rw [dParent, h]; rfl

theorem dParent_of_none (h : v.dcache d = none) : v.dParent d = none := by rw [dParent, h]; rfl

/-- A change that keeps the parent of a dentry keeps all of them. -/
theorem dParent_modifyDentry (hf : ∀ e, (f e).dParent = e.dParent) :
    (v.modifyDentry d f).dParent = v.dParent := by
  funext x
  rw [dParent, dParent, dcache_modifyDentry]
  by_cases h : x = d
  · rw [h, Function.update_self]
    rcases v.dcache d with _ | e
    · rfl
    · exact hf e
  · rw [Function.update_of_ne h]

/-- The parents after a dentry is set. -/
theorem dParent_setDentry (e : Option Dentry) :
    (v.setDentry d e).dParent = Function.update v.dParent d (e.bind Dentry.dParent) := by
  funext x
  rw [dParent, dcache_setDentry]
  by_cases h : x = d
  · rw [h, Function.update_self, Function.update_self]
  · rw [Function.update_of_ne h, Function.update_of_ne h]
    rfl

/-- The change of a dentry in use. -/
theorem modifyDentry_of_some (h : v.dcache d = some e) : v.modifyDentry d f = v.setDentry d (some (f e)) := by
  rw [modifyDentry, h]
  rfl

/-- A dentry is in use after a change exactly if it was before. -/
theorem modifyDentry_eq_none_iff : (v.modifyDentry d f).dcache d' = none ↔ v.dcache d' = none := by
  rw [dcache_modifyDentry]
  by_cases h : d' = d
  · rw [h, Function.update_self, Option.map_eq_none_iff]
  · rw [Function.update_of_ne h]

/-- The dentries after a change of one. -/
theorem modifyDentry_eq_some_iff : (v.modifyDentry d f).dcache d' = some e ↔
    ∃ e₀, v.dcache d' = some e₀ ∧ e = if d' = d then f e₀ else e₀ := by
  rw [dcache_modifyDentry]
  by_cases h : d' = d
  · rw [h, Function.update_self, Option.map_eq_some_iff]
    simp only [if_pos, eq_comm]
  · rw [Function.update_of_ne h]
    simp [h, eq_comm]

end Vfs

/-! ### The invariant -/

/-- One reference more to `d` from outside. -/
def bump (d : ℕ) (ext : ℕ → ℕ) : ℕ → ℕ := Function.update ext d (ext d + 1)

/-- One more use of one dentry. -/
theorem bump_apply (d : ℕ) (ext : ℕ → ℕ) (x : ℕ) : bump d ext x = ext x + if x = d then 1 else 0 := by
  by_cases h : x = d
  · rw [bump, h, Function.update_self, if_pos rfl]
  · rw [bump, Function.update_of_ne h, if_neg h, Nat.add_zero]

/-- The counts of the dentries are those of the references there are, `ext` of them from outside. -/
structure Refs (v : Vfs ι σ) (ext : ℕ → ℕ) : Prop where
  lt : ∀ {d e}, v.dcache d = some e → d < dcacheMaxDentries
  count : ∀ {d e}, v.dcache d = some e → e.dCount = ext d + (kids v.dParent d).card
  pos : ∀ {d e}, v.dcache d = some e → 0 < e.dCount
  free : ∀ {d}, v.dcache d = none → ext d = 0
  parent : ∀ {d p}, v.dParent d = some p → v.dcache p ≠ none
  subdirs : ∀ {p e d}, v.dcache p = some e → d ∈ e.dSubdirs → d ≠ p ∧ v.dParent d = some p
  nodup : ∀ {p e}, v.dcache p = some e → e.dSubdirs.Nodup

namespace Refs

variable {v w : Vfs ι σ} {ext : ℕ → ℕ} {d p : ℕ} {e : Dentry} {f : Dentry → Dentry}

/-- A dentry with a reference from outside is in use. -/
theorem exists_of_bump (h : Refs v (bump d ext)) : ∃ e, v.dcache d = some e := by
  refine Option.ne_none_iff_exists'.1 fun hnone ↦ ?_
  have hfree := h.free hnone
  rw [bump_apply, if_pos rfl] at hfree
  omega

/-- A change of one dentry that keeps its parent, lists children of it, and counts as the references
change. -/
theorem modify {ext' : ℕ → ℕ} (h : Refs v ext) (hd : v.dcache d = some e) (hparent : (f e).dParent = e.dParent)
    (hsubdirs : ∀ c ∈ (f e).dSubdirs, c ∈ e.dSubdirs ∨ c ≠ d ∧ v.dParent c = some d)
    (hnodup : (f e).dSubdirs.Nodup) (hcount : (f e).dCount + ext d = e.dCount + ext' d)
    (hpos : 0 < (f e).dCount) (hext : ∀ x, x ≠ d → ext' x = ext x) : Refs (v.modifyDentry d f) ext' := by
  have hpar : (v.modifyDentry d f).dParent = v.dParent := by
    rw [Vfs.modifyDentry_of_some hd, Vfs.dParent_setDentry, Option.bind_some, hparent,
      ← Vfs.dParent_of_some hd, Function.update_eq_self]
  refine ⟨fun {x e'} hx ↦ ?_, fun {x e'} hx ↦ ?_, fun {x e'} hx ↦ ?_, fun {x} hx ↦ ?_, fun {x q} hx ↦ ?_,
    fun {x e' c} hx hc ↦ ?_, fun {x e'} hx ↦ ?_⟩
  all_goals first
    | rw [Vfs.modifyDentry_eq_some_iff] at hx
      obtain ⟨e₀, he₀, rfl⟩ := hx
    | skip
  · -- one goal a field; only the count and the children of `d` are new
    exact h.lt he₀
  · have hold := h.count he₀
    rw [hpar]
    by_cases hxd : x = d
    · subst hxd
      obtain rfl := Option.some_inj.1 (he₀.symm.trans hd)
      rw [if_pos rfl]
      omega
    · rw [if_neg hxd, hext x hxd, hold]
  · by_cases hxd : x = d
    · subst hxd
      obtain rfl := Option.some_inj.1 (he₀.symm.trans hd)
      rwa [if_pos rfl]
    · rw [if_neg hxd]
      exact h.pos he₀
  · rw [Vfs.modifyDentry_eq_none_iff] at hx
    have hxd : x ≠ d := fun hxd ↦ by rw [hxd, hd] at hx; exact absurd hx (Option.some_ne_none e)
    rw [hext x hxd, h.free hx]
  · rw [hpar] at hx
    rw [Ne, Vfs.modifyDentry_eq_none_iff]
    exact h.parent hx
  · rw [hpar]
    by_cases hxd : x = d
    · subst hxd
      obtain rfl := Option.some_inj.1 (he₀.symm.trans hd)
      rw [if_pos rfl] at hc
      exact (hsubdirs c hc).elim (h.subdirs he₀) id
    · rw [if_neg hxd] at hc
      exact h.subdirs he₀ hc
  · by_cases hxd : x = d
    · subst hxd
      obtain rfl := Option.some_inj.1 (he₀.symm.trans hd)
      rw [if_pos rfl]
      exact hnodup
    · rw [if_neg hxd]
      exact h.nodup he₀

/-- `dget` adds a reference. -/
theorem dget (h : Refs v ext) (hd : v.dcache d = some e) : Refs (dget d v) (bump d ext) := by
  refine h.modify hd rfl (fun _ ↦ Or.inl) (show e.dSubdirs.Nodup from h.nodup hd) ?_ (Nat.succ_pos _)
    fun x hx ↦ ?_
  · rw [bump_apply, if_pos rfl]
    dsimp only
    omega
  · rw [bump_apply, if_neg hx, Nat.add_zero]

/-- What the counts are does not depend on the rest of the state. -/
theorem congr (h : Refs v ext) (hw : w.dcache = v.dcache) : Refs w ext := by
  have hpar : w.dParent = v.dParent := funext fun x ↦ by rw [Vfs.dParent, Vfs.dParent, hw]
  constructor <;> rw [hw] <;> try rw [hpar]
  exacts [h.lt, h.count, h.pos, h.free, h.parent, h.subdirs, h.nodup]

/-- A reference to `p` from outside becomes the one of a new dentry below `p`. -/
theorem adopt (h : Refs v (bump p ext)) (hfree : v.dcache d = none) (hlt : d < dcacheMaxDentries)
    (hcount : e.dCount = 1) (hparent : e.dParent = some p) (hsubdirs : e.dSubdirs = []) :
    Refs (v.setDentry d (some e)) (bump d ext) := by
  obtain ⟨ep, hp⟩ := h.exists_of_bump
  have hpd : p ≠ d := fun hpd ↦ Option.some_ne_none ep (hp.symm.trans (hpd ▸ hfree))
  have hpar : (v.setDentry d (some e)).dParent = Function.update v.dParent d (some p) := by
    rw [Vfs.dParent_setDentry, Option.bind_some, hparent]
  have hcard := fun x ↦ @card_kids_adopt v.dParent p d x hlt hpd (Vfs.dParent_of_none hfree)
  have hkids : kids v.dParent d = ∅ :=
    Finset.eq_empty_of_forall_notMem fun y hy ↦ h.parent (mem_kids.1 hy).2.2 hfree
  have hext : ext d = 0 := by
    have hzero := h.free hfree
    rw [bump_apply] at hzero
    omega
  have hold : ∀ {x e'}, x ≠ d → (v.setDentry d (some e)).dcache x = some e' → v.dcache x = some e' :=
    fun hx hx' ↦ by rwa [Vfs.dcache_setDentry, Function.update_of_ne hx] at hx'
  have hnew : ∀ {e'}, (v.setDentry d (some e)).dcache d = some e' → e' = e := fun hx' ↦ by
    rw [Vfs.dcache_setDentry, Function.update_self] at hx'
    exact (Option.some_inj.1 hx').symm
  refine ⟨fun {x e'} hx ↦ ?_, fun {x e'} hx ↦ ?_, fun {x e'} hx ↦ ?_, fun {x} hx ↦ ?_, fun {x q} hx ↦ ?_,
    fun {x e' c} hx hc ↦ ?_, fun {x e'} hx ↦ ?_⟩
  · rcases eq_or_ne x d with rfl | hxd
    · exact hlt
    · exact h.lt (hold hxd hx)
  · rw [hpar, hcard, bump_apply]
    rcases eq_or_ne x d with rfl | hxd
    · rw [hnew hx, hcount, hext, hkids, if_pos rfl, if_neg hpd.symm, Finset.card_empty]
    · have hcount' := h.count (hold hxd hx)
      rw [bump_apply] at hcount'
      rw [if_neg hxd]
      omega
  · rcases eq_or_ne x d with rfl | hxd
    · rw [hnew hx, hcount]
      exact one_pos
    · exact h.pos (hold hxd hx)
  · rcases eq_or_ne x d with rfl | hxd
    · rw [Vfs.dcache_setDentry, Function.update_self] at hx
      exact absurd hx (Option.some_ne_none e)
    · rw [Vfs.dcache_setDentry, Function.update_of_ne hxd] at hx
      have hzero := h.free hx
      rw [bump_apply] at hzero
      rw [bump_apply, if_neg hxd]
      omega
  · have hlive : v.dcache q ≠ none := by
      rw [hpar] at hx
      rcases eq_or_ne x d with rfl | hxd
      · rw [Function.update_self, Option.some_inj] at hx
        rw [← hx, hp]
        exact Option.some_ne_none ep
      · rw [Function.update_of_ne hxd] at hx
        exact h.parent hx
    rw [Vfs.dcache_setDentry, Function.update_of_ne fun hqd ↦ hlive (by rw [hqd]; exact hfree)]
    exact hlive
  · rcases eq_or_ne x d with rfl | hxd
    · rw [hnew hx, hsubdirs] at hc
      exact absurd hc List.not_mem_nil
    · obtain ⟨hcx, hcp⟩ := h.subdirs (hold hxd hx) hc
      have hcd : c ≠ d := by
        rintro rfl
        rw [Vfs.dParent_of_none hfree] at hcp
        exact absurd hcp.symm (Option.some_ne_none x)
      rw [hpar, Function.update_of_ne hcd]
      exact ⟨hcx, hcp⟩
  · rcases eq_or_ne x d with rfl | hxd
    · rw [hnew hx, hsubdirs]
      exact List.nodup_nil
    · exact h.nodup (hold hxd hx)

/-- Giving a dentry its inode puts it on the list of its parent. -/
theorem dInstantiate (h : Refs v ext) (hd : v.dcache d = some e) (hparent : e.dParent = some p)
    (hpd : p ≠ d) (i : ℕ) : Refs (dInstantiate d i v) ext := by
  have hnode : Refs (v.modifyDentry d fun e ↦ { e with dInode := some i }) ext :=
    h.modify hd rfl (fun _ ↦ Or.inl) (show e.dSubdirs.Nodup from h.nodup hd) rfl
      (show 0 < e.dCount from h.pos hd) fun _ _ ↦ rfl
  have hpar : (v.modifyDentry d fun e ↦ { e with dInode := some i }).dParent = v.dParent :=
    Vfs.dParent_modifyDentry fun _ ↦ rfl
  have hdp : v.dParent d = some p := (Vfs.dParent_of_some hd).trans hparent
  rw [MiniExt4.dInstantiate]
  set w := (v.modifyDentry d fun e ↦ { e with dInode := some i }).setInode i
    (((v.modifyDentry d fun e ↦ { e with dInode := some i }).inodes i).map fun n ↦
      { n with iCount := n.iCount + 1 }) with hw
  have hwRefs : Refs w ext := hnode.congr rfl
  have hwdp : w.dParent d = some p := (congrFun hpar d).trans hdp
  obtain ⟨ep, hep⟩ := Option.ne_none_iff_exists'.1 (hwRefs.parent hwdp)
  simp only [hwdp]
  refine hwRefs.modify hep ?_ (fun c hc ↦ ?_) ?_ ?_ ?_ fun _ _ ↦ rfl
  · split <;> rfl
  · split at hc
    · exact Or.inl hc
    · rcases List.mem_cons.1 hc with rfl | hc
      · exact Or.inr ⟨hpd.symm, hwdp⟩
      · exact Or.inl hc
  · split
    · exact hwRefs.nodup hep
    next hmem => exact List.nodup_cons.2 ⟨hmem, hwRefs.nodup hep⟩
  · split <;> rfl
  · have hpos := hwRefs.pos hep
    split
    · exact hpos
    · exact hpos

end Refs

/-! ### What the filesystem may do -/

/-- What is assumed of the operations of a filesystem: destroying an inode frees its slot and gives back,
by `free`, what the filesystem keeps with it; `same` is what a lookup that is taken back leaves alone. -/
structure FileSystem.Laws (fs : FileSystem ι σ) where
  free : σ → σ
  same : σ → σ → Prop
  equiv : Equivalence same
  free_congr : ∀ {s t}, same s t → same (free s) (free t)
  destroyInode_eq : ∀ i v, fs.destroyInode i v =
    { v with inodes := Function.update v.inodes i none, fs := free v.fs }
  /-- A lookup leaves the dentry negative, or gives it an inode of its own. -/
  lookup_cases : ∀ {n ops lookup}, fs.iOp n = some ops → ops.lookup = some lookup → ∀ dir d v,
    (∃ s, same v.fs s ∧ lookup dir d v = (some d, { v with fs := s })) ∨
    ∃ s i n', same v.fs (free s) ∧ v.inodes i = none ∧ lookup dir d v =
      (some d, dInstantiate d i { v with inodes := Function.update v.inodes i (some ⟨1, n'⟩), fs := s })

/-- A dentry without references is taken out of the cache. -/
def release (fs : FileSystem ι σ) (d : ℕ) (e : Dentry) (v : Vfs ι σ) : Vfs ι σ :=
  (match e.dInode with
    | none => listDel d e.dParent v
    | some i => iput fs i (listDel d e.dParent v)).setDentry d none

section Release

variable {fs : FileSystem ι σ} {v : Vfs ι σ} {d p fuel : ℕ} {e e' : Dentry}

/-- Without a dentry there is nothing to give up. -/
@[simp] theorem dputUp_of_none (h : v.dcache d = none) : dputUp fs fuel d v = v := by
  cases fuel with
  | zero => rfl
  | succ fuel => rw [dputUp, h]

/-- With more than one use the dentry stays. -/
theorem dputUp_of_one_lt (h : v.dcache d = some e) (hcount : 1 < e.dCount) :
    dputUp fs (fuel + 1) d v = v.modifyDentry d fun e ↦ { e with dCount := e.dCount - 1 } := by
  rw [dputUp, h, Vfs.modifyDentry_of_some h]
  exact if_pos (by omega)

/-- With the last use the dentry is released, and its parent gives up a use. -/
theorem dputUp_of_le_one (h : v.dcache d = some e) (hcount : e.dCount ≤ 1) :
    dputUp fs (fuel + 1) d v = match e.dParent with
      | none => release fs d e v
      | some p => if p ≠ d then dputUp fs fuel p (release fs d e v) else release fs d e v := by
  rw [dputUp, h]
  refine (if_neg (by omega)).trans ?_
  obtain ⟨_, _, _, _, _, _ | i⟩ := e <;> rfl

variable (laws : fs.Laws)

include laws in
/-- Giving up an inode leaves the dentries. -/
theorem iput_dcache (i : ℕ) (v : Vfs ι σ) : (iput fs i v).dcache = v.dcache := by
  rw [iput]
  split
  · rfl
  · dsimp only
    split
    · rw [laws.destroyInode_eq]
      rfl
    · rfl

/-- The dentries after one is taken from its parent's list. -/
theorem listDel_dcache_eq_some_iff {parent : Option ℕ} {x : ℕ} :
    (listDel d parent v).dcache x = some e' ↔ ∃ e₀, v.dcache x = some e₀ ∧
      e' = if parent = some x then { e₀ with dSubdirs := e₀.dSubdirs.erase d } else e₀ := by
  cases parent with
  | none => simp [listDel, eq_comm]
  | some p =>
    rw [listDel, Vfs.modifyDentry_eq_some_iff]
    simp only [Option.some_inj, @eq_comm ℕ p x]

include laws in
/-- What is left of the cache. -/
theorem release_eq_some_iff {x : ℕ} : (release fs d e v).dcache x = some e' ↔ x ≠ d ∧
    ∃ e₀, v.dcache x = some e₀ ∧
      e' = if e.dParent = some x then { e₀ with dSubdirs := e₀.dSubdirs.erase d } else e₀ := by
  have hdcache : (release fs d e v).dcache = Function.update (listDel d e.dParent v).dcache d none := by
    rw [release]
    rcases e.dInode with _ | i
    · rfl
    · rw [Vfs.dcache_setDentry, iput_dcache laws]
  rw [hdcache]
  by_cases hx : x = d
  · rw [hx, Function.update_self]
    simp
  · rw [Function.update_of_ne hx, listDel_dcache_eq_some_iff, and_iff_right hx]

include laws in
/-- A release frees its dentry and no other. -/
theorem release_eq_none_iff {x : ℕ} : (release fs d e v).dcache x = none ↔ x = d ∨ v.dcache x = none := by
  rw [Option.eq_none_iff_forall_ne_some]
  constructor
  · intro h
    by_contra hne
    rw [not_or] at hne
    obtain ⟨e₀, he₀⟩ := Option.ne_none_iff_exists'.1 hne.2
    exact h _ ((release_eq_some_iff laws).2 ⟨hne.1, e₀, he₀, rfl⟩)
  · rintro h e' he'
    obtain ⟨hx, e₀, he₀, -⟩ := (release_eq_some_iff laws).1 he'
    exact h.elim hx fun hnone ↦ Option.some_ne_none e₀ (he₀.symm.trans hnone)

include laws in
/-- A dentry that was released has no parent. -/
theorem release_dParent : (release fs d e v).dParent = Function.update v.dParent d none := by
  funext x
  by_cases hx : x = d
  · rw [hx, Function.update_self]
    exact Vfs.dParent_of_none ((release_eq_none_iff laws).2 (Or.inl rfl))
  · rw [Function.update_of_ne hx]
    rcases hv : v.dcache x with _ | e₀
    · rw [Vfs.dParent_of_none hv, Vfs.dParent_of_none ((release_eq_none_iff laws).2 (Or.inr hv))]
    · rw [Vfs.dParent_of_some hv,
        Vfs.dParent_of_some ((release_eq_some_iff laws).2 ⟨hx, e₀, hv, rfl⟩)]
      split <;> rfl

/-- The references from outside once `d` is freed: the one it had to its parent is left over. -/
def leftover (d : ℕ) (parent : Option ℕ) (ext : ℕ → ℕ) : ℕ → ℕ :=
  match parent with
  | none => ext
  | some p => if p ≠ d then bump p ext else ext

/-- What a release leaves to give up: the parent's use. -/
theorem leftover_apply (d : ℕ) (parent : Option ℕ) (ext : ℕ → ℕ) (x : ℕ) :
    leftover d parent ext x = ext x + if parent = some x ∧ x ≠ d then 1 else 0 := by
  rcases parent with _ | p
  · simp [leftover]
  · by_cases hp : p = d
    · by_cases hx : x = p
      · simp [leftover, hp, hx]
      · simp [leftover, hp, Ne.symm (hp ▸ hx : x ≠ d)]
    · by_cases hx : x = p
      · simp [leftover, hp, hx, bump_apply]
      · simp [leftover, hp, bump_apply, hx, Ne.symm hx]

variable {ext : ℕ → ℕ} (h : Refs v (bump d ext)) (hd : v.dcache d = some e) (hcount : e.dCount ≤ 1)

include h hd hcount in
/-- A dentry whose last reference is given back has no children and no other references. -/
theorem Refs.of_le_one : ext d = 0 ∧ kids v.dParent d = ∅ := by
  have hlast := h.count hd
  rw [bump_apply, if_pos rfl] at hlast
  exact ⟨by omega, Finset.card_eq_zero.1 (by omega)⟩

include laws h hd hcount in
/-- A release keeps the counts, but for the parent's use. -/
theorem Refs.release : Refs (release fs d e v) (leftover d e.dParent ext) := by
  obtain ⟨hext, hkids⟩ := h.of_le_one hd hcount
  -- Nobody has `d` as its parent any more.
  have hno : ∀ y, v.dParent y = some d → y = d := by
    intro y hy
    by_contra hne
    rcases hv : v.dcache y with _ | e₀
    · rw [Vfs.dParent_of_none hv] at hy
      exact absurd hy.symm (Option.some_ne_none d)
    · have hmem : y ∈ kids v.dParent d := mem_kids.2 ⟨h.lt hv, hne, hy⟩
      rw [hkids] at hmem
      exact absurd hmem (Finset.notMem_empty y)
  have hpar : v.dParent d = e.dParent := Vfs.dParent_of_some hd
  refine ⟨fun {x e'} hx ↦ ?_, fun {x e'} hx ↦ ?_, fun {x e'} hx ↦ ?_, fun {x} hx ↦ ?_, fun {x q} hx ↦ ?_,
    fun {x e' c} hx hc ↦ ?_, fun {x e'} hx ↦ ?_⟩
  · obtain ⟨-, e₀, he₀, -⟩ := (release_eq_some_iff laws).1 hx
    exact h.lt he₀
  · obtain ⟨hxd, e₀, he₀, rfl⟩ := (release_eq_some_iff laws).1 hx
    have hold := h.count he₀
    rw [bump_apply, if_neg hxd, card_kids_orphan _ x (h.lt hd), hpar] at hold
    rw [release_dParent laws, leftover_apply]
    split
    · dsimp only
      omega
    · omega
  · obtain ⟨-, e₀, he₀, rfl⟩ := (release_eq_some_iff laws).1 hx
    have hpos := h.pos he₀
    split
    · exact hpos
    · exact hpos
  · rw [leftover_apply]
    rcases (release_eq_none_iff laws).1 hx with rfl | hx
    · rw [hext, if_neg fun hc ↦ hc.2 rfl]
    · have hxd : x ≠ d := fun hxd ↦ Option.some_ne_none e (hd.symm.trans (hxd ▸ hx))
      have hxp : e.dParent ≠ some x := fun hc ↦ h.parent (hpar.trans hc) hx
      have hfree := h.free hx
      rw [bump_apply, if_neg hxd] at hfree
      rw [if_neg fun hc ↦ hxp hc.1, hfree]
  · rw [release_dParent laws] at hx
    have hxd : x ≠ d := by
      rintro rfl
      rw [Function.update_self] at hx
      exact absurd hx.symm (Option.some_ne_none q)
    rw [Function.update_of_ne hxd] at hx
    rw [Ne, release_eq_none_iff laws, not_or]
    exact ⟨fun hq ↦ hxd (hno x (hq ▸ hx)), h.parent hx⟩
  · obtain ⟨hxd, e₀, he₀, rfl⟩ := (release_eq_some_iff laws).1 hx
    have hmem : c ∈ e₀.dSubdirs := by
      split at hc
      · exact List.mem_of_mem_erase hc
      · exact hc
    obtain ⟨hcx, hcp⟩ := h.subdirs he₀ hmem
    have hcd : c ≠ d := by
      rintro rfl
      rw [if_pos (hpar.symm.trans hcp)] at hc
      exact (h.nodup he₀).not_mem_erase hc
    rw [release_dParent laws, Function.update_of_ne hcd]
    exact ⟨hcx, hcp⟩
  · obtain ⟨-, e₀, he₀, rfl⟩ := (release_eq_some_iff laws).1 hx
    split
    · exact (h.nodup he₀).erase d
    · exact h.nodup he₀

/-! ### The recursion of `dput` -/

/-- The dentries in use. -/
def liveDentries (v : Vfs ι σ) : Finset ℕ :=
  (Finset.range dcacheMaxDentries).filter fun d ↦ (v.dcache d).isSome

omit h hd hcount in
/-- There are no more dentries in use than the table has. -/
theorem card_liveDentries_le (v : Vfs ι σ) : (liveDentries v).card ≤ dcacheMaxDentries := by
  have hle := Finset.card_filter_le (Finset.range dcacheMaxDentries) fun d ↦ (v.dcache d).isSome
  rwa [Finset.card_range] at hle

/-- A dentry in use is counted. -/
theorem mem_liveDentries (hlt : d < dcacheMaxDentries) (hd : v.dcache d = some e) : d ∈ liveDentries v :=
  Finset.mem_filter.2 ⟨Finset.mem_range.2 hlt, by rw [hd]; rfl⟩

include laws in
/-- Freeing a dentry leaves one less in use. -/
theorem card_liveDentries_release (hlt : d < dcacheMaxDentries) (hd : v.dcache d = some e) :
    (liveDentries (release fs d e v)).card + 1 = (liveDentries v).card := by
  have herase : liveDentries (release fs d e v) = (liveDentries v).erase d := by
    ext x
    rw [liveDentries, liveDentries, Finset.mem_erase, Finset.mem_filter, Finset.mem_filter,
      Option.isSome_iff_ne_none, Option.isSome_iff_ne_none, Ne, release_eq_none_iff laws, not_or]
    tauto
  rw [herase, Finset.card_erase_add_one (mem_liveDentries hlt hd)]

include laws in
/-- `dput` takes a reference from outside away. -/
theorem Refs.dputUp {ext : ℕ → ℕ} (h : Refs v (bump d ext)) (hfuel : (liveDentries v).card ≤ fuel) :
    Refs (dputUp fs fuel d v) ext := by
  induction fuel generalizing v d with
  | zero =>
    obtain ⟨e, he⟩ := h.exists_of_bump
    have hmem := mem_liveDentries (h.lt he) he
    rw [Finset.card_eq_zero.1 (Nat.le_zero.1 hfuel)] at hmem
    exact absurd hmem (Finset.notMem_empty d)
  | succ fuel ih =>
    obtain ⟨e, he⟩ := h.exists_of_bump
    by_cases hcount : 1 < e.dCount
    · rw [dputUp_of_one_lt he hcount]
      refine h.modify he rfl (fun _ ↦ Or.inl) (show e.dSubdirs.Nodup from h.nodup he) ?_
        (by dsimp only; omega) fun x hx ↦ ?_
      · rw [bump_apply, if_pos rfl]
        dsimp only
        omega
      · rw [bump_apply, if_neg hx, Nat.add_zero]
    · have hrelease := h.release laws he (Nat.not_lt.1 hcount)
      have hlive := card_liveDentries_release laws (h.lt he) he
      rw [dputUp_of_le_one he (Nat.not_lt.1 hcount)]
      rcases hp : e.dParent with _ | p
      · rwa [hp] at hrelease
      · dsimp only
        split
        next hpd =>
          rw [hp, leftover, if_pos hpd] at hrelease
          exact ih hrelease (by omega)
        next hpd => rwa [hp, leftover, if_neg hpd] at hrelease

include laws in
/-- **Giving up a use of a dentry keeps the counts.** -/
theorem Refs.dput {ext : ℕ → ℕ} (h : Refs v (bump d ext)) : Refs (dput fs d v) ext :=
  h.dputUp laws (card_liveDentries_le v)

include laws in
/-- There are no more calls than dentries in use. -/
theorem dputUp_succ (hlt : ∀ x e, v.dcache x = some e → x < dcacheMaxDentries)
    (hfuel : (liveDentries v).card ≤ fuel) : dputUp fs (fuel + 1) d v = dputUp fs fuel d v := by
  induction fuel generalizing v d with
  | zero =>
    have hnone : v.dcache d = none := by
      by_contra hne
      obtain ⟨e, he⟩ := Option.ne_none_iff_exists'.1 hne
      have hmem := mem_liveDentries (hlt d e he) he
      rw [Finset.card_eq_zero.1 (Nat.le_zero.1 hfuel)] at hmem
      exact absurd hmem (Finset.notMem_empty d)
    rw [dputUp_of_none hnone, dputUp_of_none hnone]
  | succ fuel ih =>
    rcases he : v.dcache d with _ | e
    · rw [dputUp_of_none he, dputUp_of_none he]
    by_cases hcount : 1 < e.dCount
    · rw [dputUp_of_one_lt he hcount, dputUp_of_one_lt he hcount]
    · have hlive := card_liveDentries_release laws (hlt d e he) he
      have hlt' : ∀ x e', (release fs d e v).dcache x = some e' → x < dcacheMaxDentries := by
        intro x e' hx
        obtain ⟨-, e₀, he₀, -⟩ := (release_eq_some_iff laws).1 hx
        exact hlt x e₀ he₀
      rw [dputUp_of_le_one he (Nat.not_lt.1 hcount), dputUp_of_le_one he (Nat.not_lt.1 hcount)]
      simp only [ih hlt' (by omega : (liveDentries (release fs d e v)).card ≤ fuel)]

include laws in
/-- The bound on the recursion of `dput` is out of reach. -/
theorem dputUp_eq_dput (hlt : ∀ x e, v.dcache x = some e → x < dcacheMaxDentries)
    (hfuel : (liveDentries v).card ≤ fuel) (hle : fuel ≤ dcacheMaxDentries) :
    dputUp fs fuel d v = MiniExt4.dput fs d v := by
  have hmore : ∀ k, dputUp fs (fuel + k) d v = dputUp fs fuel d v := by
    intro k
    induction k with
    | zero => rfl
    | succ k ih => rw [← Nat.add_assoc, dputUp_succ laws hlt (hfuel.trans (Nat.le_add_right _ _)), ih]
  obtain ⟨k, hk⟩ := Nat.exists_eq_add_of_le hle
  rw [MiniExt4.dput, hk, hmore]

end Release

end MiniExt4
