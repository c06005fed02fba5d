import MiniExt4.Vfs.Refs
import MiniExt4.Vfs.Walk

/-!
# Path walking keeps the references (`fs/namei.c`)

At every point of a walk there is one reference from outside to the dentry it has come to, and giving it
back undoes the walk (`Walked.undo`): a dentry that the walk has entered into the cache has no other
reference than the one of its child on the way, so `dput` goes up to where the way left the old cache. Each
step of the loop keeps this, and a walk that fails gives its reference back.

Undoing is a statement about states that are the same but for what a lookup uses up (`Vfs.SameBy`), since a
lookup may have read the disk. The steps differ in what they have taken: a step up takes a reference to the
parent and gives one back (`Walked.ascend`), a hit takes one (`Walked.hit`), a miss makes a dentry whose
only reference is that of the walk (`Walked.lookup`). `CacheGrown` records that nothing of the old cache was
lost.
-/

namespace MiniExt4

open Namei

variable {ι σ : Type} {fs : FileSystem ι σ}

/-! ### States that are the same but for what lookups use up -/

/-- The caches are the same, and so is what `R` looks at in the filesystem. -/
def Vfs.SameBy (R : σ → σ → Prop) (v w : Vfs ι σ) : Prop := ∃ s, R v.fs s ∧ w = { v with fs := s }

namespace Vfs.SameBy

variable {R : σ → σ → Prop} {u v w : Vfs ι σ}

/-- A state is the same as itself. -/
theorem refl (hR : Equivalence R) (v : Vfs ι σ) : SameBy R v v := ⟨v.fs, hR.refl _, rfl⟩

/-- Sameness is symmetric. -/
theorem symm (hR : Equivalence R) (h : SameBy R v w) : SameBy R w v := by
  obtain ⟨s, hs, rfl⟩ := h
  exact ⟨v.fs, hR.symm hs, rfl⟩

/-- Sameness is transitive. -/
theorem trans (hR : Equivalence R) (h : SameBy R u v) (h' : SameBy R v w) : SameBy R u w := by
  obtain ⟨s, hs, rfl⟩ := h
  obtain ⟨t, ht, rfl⟩ := h'
  exact ⟨t, hR.trans hs ht, rfl⟩

/-- States that are the same have the same dentries. -/
theorem dcache_eq (h : SameBy R v w) : w.dcache = v.dcache := by
  obtain ⟨s, -, rfl⟩ := h
  rfl

end Vfs.SameBy

section Same

variable {v w : Vfs ι σ} {d fuel : ℕ} {e : Dentry} (laws : fs.Laws)

include laws in
/-- The last reference to an inode destroys it. -/
theorem iput_of_le_two {i : ℕ} {n : VfsInode ι} (hi : v.inodes i = some n) (hn : n.iCount ≤ 2) :
    iput fs i v = { v with inodes := Function.update v.inodes i none, fs := laws.free v.fs } := by
  rw [iput, hi]
  refine (if_pos (by omega)).trans ?_
  rw [laws.destroyInode_eq, Vfs.setInode, Function.update_idem]

/-- With more than two uses the inode stays, with one use less. -/
theorem iput_of_two_lt {i : ℕ} {n : VfsInode ι} (hi : v.inodes i = some n) (hn : 2 < n.iCount) :
    iput fs i v = v.setInode i (some { n with iCount := n.iCount - 1 }) := by
  rw [iput, hi]
  exact if_neg (by omega)

include laws in
/-- Giving up an inode keeps sameness. -/
theorem iput_sameBy (i : ℕ) (h : v.SameBy laws.same w) : (iput fs i v).SameBy laws.same (iput fs i w) := by
  obtain ⟨s, hs, rfl⟩ := h
  rcases hi : v.inodes i with _ | n
  · rw [iput, iput, hi]
    exact ⟨s, hs, rfl⟩
  have hi' : ({ v with fs := s } : Vfs ι σ).inodes i = some n := hi
  by_cases hn : n.iCount ≤ 2
  · rw [iput_of_le_two laws hi hn, iput_of_le_two laws hi' hn]
    exact ⟨laws.free s, laws.free_congr hs, rfl⟩
  · rw [iput_of_two_lt hi (Nat.not_le.1 hn), iput_of_two_lt hi' (Nat.not_le.1 hn)]
    exact ⟨s, hs, rfl⟩

/-- Taking a dentry from its list keeps sameness. -/
theorem listDel_sameBy {R : σ → σ → Prop} (parent : Option ℕ) (h : v.SameBy R w) :
    (listDel d parent v).SameBy R (listDel d parent w) := by
  obtain ⟨s, hs, rfl⟩ := h
  cases parent <;> exact ⟨s, hs, rfl⟩

include laws in
/-- Releasing a dentry keeps sameness. -/
theorem release_sameBy (h : v.SameBy laws.same w) :
    (release fs d e v).SameBy laws.same (release fs d e w) := by
  have hset : ∀ {u u' : Vfs ι σ}, u.SameBy laws.same u' →
      (u.setDentry d none).SameBy laws.same (u'.setDentry d none) := by
    rintro u _ ⟨s, hs, rfl⟩
    exact ⟨s, hs, rfl⟩
  rw [release, release]
  rcases e.dInode with _ | i
  · exact hset (listDel_sameBy _ h)
  · exact hset (iput_sameBy laws i (listDel_sameBy _ h))

include laws in
/-- `dput` does the same to states that are the same. -/
theorem dputUp_sameBy (h : v.SameBy laws.same w) :
    (dputUp fs fuel d v).SameBy laws.same (dputUp fs fuel d w) := by
  induction fuel generalizing v w d with
  | zero => exact h
  | succ fuel ih =>
    rcases he : v.dcache d with _ | e
    · rwa [dputUp_of_none he, dputUp_of_none (h.dcache_eq ▸ he)]
    have he' : w.dcache d = some e := h.dcache_eq ▸ he
    by_cases hcount : 1 < e.dCount
    · rw [dputUp_of_one_lt he hcount, dputUp_of_one_lt he' hcount]
      obtain ⟨s, hs, rfl⟩ := h
      exact ⟨s, hs, rfl⟩
    · rw [dputUp_of_le_one he (Nat.not_lt.1 hcount), dputUp_of_le_one he' (Nat.not_lt.1 hcount)]
      rcases e.dParent with _ | p
      · exact release_sameBy laws h
      · dsimp only
        split
        · exact ih (release_sameBy laws h)
        · exact release_sameBy laws h

end Same

/-! ### Taking single steps back -/

section Undo

variable {v : Vfs ι σ} {d d' p child : ℕ} {e c ep : Dentry} {ext : ℕ → ℕ} {f g : Dentry → Dentry}

namespace Vfs

/-- Two changes of one dentry are one. -/
theorem modifyDentry_modifyDentry : (v.modifyDentry d f).modifyDentry d g = v.modifyDentry d (g ∘ f) := by
  simp only [modifyDentry, setDentry, Function.update_self, Function.update_idem, Option.map_map]

/-- Changes of two dentries can be made in either order. -/
theorem modifyDentry_comm (h : d ≠ d') :
    (v.modifyDentry d f).modifyDentry d' g = (v.modifyDentry d' g).modifyDentry d f := by
  simp only [modifyDentry, setDentry, Function.update_of_ne h, Function.update_of_ne h.symm,
    Function.update_comm h]

/-- A change that changes nothing. -/
theorem modifyDentry_eq_self (h : ∀ e, v.dcache d = some e → f e = e) : v.modifyDentry d f = v := by
  have hmap : (v.dcache d).map f = v.dcache d := by
    rcases hd : v.dcache d with _ | e
    · rfl
    · exact congrArg some (h e hd)
  rw [modifyDentry, hmap, setDentry, Function.update_eq_self]

/-- Another dentry is as it was. -/
theorem dcache_modifyDentry_of_ne (h : d' ≠ d) : (v.modifyDentry d f).dcache d' = v.dcache d' :=
  Function.update_of_ne h _ _

end Vfs

/-- With more than one use the dentry stays, with one use less. -/
theorem dput_of_one_lt (hd : v.dcache d = some e) (hcount : 1 < e.dCount) :
    dput fs d v = v.modifyDentry d fun e ↦ { e with dCount := e.dCount - 1 } := dputUp_of_one_lt hd hcount

/-- A reference that is taken and given back leaves no trace. -/
theorem dput_dget (hd : v.dcache d = some e) (hpos : 0 < e.dCount) : dput fs d (dget d v) = v := by
  have hd' : (dget d v).dcache d = some { e with dCount := e.dCount + 1 } := by
    rw [dget, Vfs.modifyDentry_of_some hd]
    exact Function.update_self ..
  rw [dput_of_one_lt hd' (by dsimp only; omega), dget, Vfs.modifyDentry_modifyDentry]
  exact Vfs.modifyDentry_eq_self fun _ _ ↦ rfl

/-- The step to a dentry in the cache is undone by its `dput`. -/
theorem dput_of_hit (hd : v.dcache d = some e) (hcount : 1 < e.dCount) (hc : v.dcache child = some c)
    (hpos : 0 < c.dCount) (hne : child ≠ d) : dput fs child (dput fs d (dget child v)) = dput fs d v := by
  have hd' : (dget child v).dcache d = some e := (Vfs.dcache_modifyDentry_of_ne hne.symm).trans hd
  have hc' : (dput fs d v).dcache child = some c := by
    rw [dput_of_one_lt hd hcount, Vfs.dcache_modifyDentry_of_ne hne, hc]
  have hswap : dput fs d (dget child v) = dget child (dput fs d v) := by
    rw [dput_of_one_lt hd' hcount, dput_of_one_lt hd hcount, dget, dget, Vfs.modifyDentry_comm hne]
  rw [hswap, dput_dget hc' hpos]

variable (laws : fs.Laws)

include laws in
/-- A dentry whose last reference is given back gives back the one to its parent. -/
theorem dput_of_le_one (hlt : ∀ x e, v.dcache x = some e → x < dcacheMaxDentries) (hd : v.dcache d = some e)
    (hcount : e.dCount ≤ 1) (hp : e.dParent = some p) (hpd : p ≠ d) :
    dput fs d v = dput fs p (release fs d e v) := by
  have hlive := card_liveDentries_release laws (hlt d e hd) hd
  have hbound : (liveDentries (release fs d e v)).card ≤ 255 := by
    have hle : (liveDentries v).card ≤ 256 := card_liveDentries_le v
    omega
  have hlt' : ∀ x e', (release fs d e v).dcache x = some e' → x < dcacheMaxDentries := by
    intro x e' hx
    obtain ⟨-, e₀, he₀, -⟩ := (release_eq_some_iff laws).1 hx
    exact hlt x e₀ he₀
  have hrest := @dputUp_eq_dput _ _ fs _ p 255 laws hlt' hbound (by decide)
  rw [← hrest]
  have hstep := @dputUp_of_le_one _ _ fs v d 255 e hd hcount
  rw [hp] at hstep
  exact hstep.trans (if_pos hpd)

/-- The entry that `d_alloc` makes below `p`. -/
structure IsNew (e : Dentry) (p : ℕ) : Prop where
  count : e.dCount = 1
  parent : e.dParent = some p
  subdirs : e.dSubdirs = []
  inode : e.dInode = none

variable (hp : v.dcache p = some ep) (hpos : 0 < ep.dCount) (hfree : v.dcache child = none)
  (hlt : ∀ x e, v.dcache x = some e → x < dcacheMaxDentries) (hclt : child < dcacheMaxDentries)
  (hnew : IsNew e p)

include hp hfree in
/-- A dentry in use is not the free one. -/
theorem ne_of_free : p ≠ child := fun h ↦ Option.some_ne_none ep (hp.symm.trans (h ▸ hfree))

include laws hp hpos hfree hlt hclt hnew in
/-- A new dentry that got no inode is taken back by its `dput`. -/
theorem dput_of_negative (hmem : child ∉ ep.dSubdirs) :
    dput fs child (dget p (v.setDentry child (some e))) = v := by
  have hpc := ne_of_free hp hfree
  set w := dget p (v.setDentry child (some e)) with hw
  have hwc : w.dcache child = some e := by
    rw [hw, dget, Vfs.dcache_modifyDentry_of_ne hpc.symm]
    exact Function.update_self ..
  have hwlt : ∀ x e, w.dcache x = some e → x < dcacheMaxDentries := by
    intro x e' hx
    rcases eq_or_ne x child with rfl | hxc
    · exact hclt
    · obtain ⟨e₀, he₀, -⟩ := Vfs.modifyDentry_eq_some_iff.1 hx
      exact hlt x e₀ (by rwa [Vfs.dcache_setDentry, Function.update_of_ne hxc] at he₀)
  have hrelease : release fs child e w = dget p v := by
    have hlist : listDel child (some p) w = w := by
      refine Vfs.modifyDentry_eq_self fun e' he' ↦ ?_
      obtain ⟨e₀, he₀, rfl⟩ := Vfs.modifyDentry_eq_some_iff.1 he'
      rw [Vfs.dcache_setDentry, Function.update_of_ne hpc, hp, Option.some_inj] at he₀
      rw [if_pos rfl, ← he₀]
      exact congrArg (Dentry.mk _ _ _ _ · _) (List.erase_of_not_mem hmem)
    rw [release, hnew.inode, hnew.parent]
    dsimp only
    rw [hlist, hw]
    simp only [dget, Vfs.modifyDentry, Vfs.setDentry, Function.update_of_ne hpc, Function.update_comm hpc,
      Function.update_idem]
    rw [← hfree, Function.update_eq_self]
  rw [dput_of_le_one laws hwlt hwc hnew.count.le hnew.parent hpc, hrelease, dput_dget hp hpos]

/-- The state after a new dentry has got an inode and the reference to its parent was given back. -/
def entered (v : Vfs ι σ) (p child i : ℕ) (ep e : Dentry) (n : ι) (s : σ) : Vfs ι σ :=
  { v with
    dcache := Function.update (Function.update v.dcache child (some { e with dInode := some i })) p
      (some { ep with dSubdirs := child :: ep.dSubdirs })
    inodes := Function.update v.inodes i (some ⟨2, n⟩)
    fs := s }

/-- The dentries after a name was entered: the new one, and its parent with it. -/
theorem dcache_entered (i : ℕ) (n : ι) (s : σ) : (entered v p child i ep e n s).dcache =
    Function.update (Function.update v.dcache child (some { e with dInode := some i })) p
      (some { ep with dSubdirs := child :: ep.dSubdirs }) := rfl

include hp hpos hfree hnew in
/-- The step to a new dentry that the filesystem gives an inode. -/
theorem dput_dInstantiate (hmem : child ∉ ep.dSubdirs) (i : ℕ) (n : ι) (s : σ) :
    dput fs p (dInstantiate child i { dget p (v.setDentry child (some e)) with
      inodes := Function.update v.inodes i (some ⟨1, n⟩), fs := s }) = entered v p child i ep e n s := by
  have hpc := ne_of_free hp hfree
  have hinst : dInstantiate child i { dget p (v.setDentry child (some e)) with
      inodes := Function.update v.inodes i (some ⟨1, n⟩), fs := s } =
      { v with
        dcache := Function.update (Function.update v.dcache child (some { e with dInode := some i })) p
          (some { ep with dCount := ep.dCount + 1, dSubdirs := child :: ep.dSubdirs })
        inodes := Function.update v.inodes i (some ⟨2, n⟩)
        fs := s } := by
    have hpar : ∀ w : Vfs ι σ, w.dcache child = some { e with dInode := some i } → w.dParent child = some p :=
      fun w hw ↦ (Vfs.dParent_of_some hw).trans hnew.parent
    rw [dInstantiate]
    dsimp only
    rw [hpar]
    · simp only [dget, Vfs.modifyDentry, Vfs.setDentry, Vfs.setInode, Function.update_self,
        Function.update_of_ne hpc, Function.update_of_ne hpc.symm, hp, Option.map_some, if_neg hmem,
        Function.update_comm hpc, Function.update_idem]
    · simp only [dget, Vfs.modifyDentry, Vfs.setDentry, Vfs.setInode, Function.update_self,
        Function.update_of_ne hpc.symm, Option.map_some]
  rw [hinst]
  have hcount : 1 < ep.dCount + 1 := by omega
  rw [dput_of_one_lt (Function.update_self ..) hcount]
  simp only [Vfs.modifyDentry, Vfs.setDentry, Function.update_self, Option.map_some, Function.update_idem,
    entered, Nat.add_sub_cancel]

include laws hp hfree hlt hclt hnew in
/-- It is taken back by the `dput` of the dentry, which destroys the inode. -/
theorem dput_entered {i : ℕ} (hi : v.inodes i = none) (n : ι) (s : σ) :
    dput fs child (entered v p child i ep e n s) = dput fs p { v with fs := laws.free s } := by
  have hpc := ne_of_free hp hfree
  have hwc : (entered v p child i ep e n s).dcache child = some { e with dInode := some i } := by
    rw [dcache_entered, Function.update_of_ne hpc.symm, Function.update_self]
  have hwlt : ∀ x e', (entered v p child i ep e n s).dcache x = some e' → x < dcacheMaxDentries := by
    intro x e' hx
    by_cases hxc : x = child
    · exact hxc ▸ hclt
    by_cases hxp : x = p
    · exact hxp ▸ hlt p ep hp
    · rw [dcache_entered, Function.update_of_ne hxp, Function.update_of_ne hxc] at hx
      exact hlt x e' hx
  have hrelease : release fs child { e with dInode := some i } (entered v p child i ep e n s) =
      { v with fs := laws.free s } := by
    have hlist : listDel child (some p) (entered v p child i ep e n s) =
        { v with
          dcache := Function.update (Function.update v.dcache child (some { e with dInode := some i })) p
            (some ep)
          inodes := Function.update v.inodes i (some ⟨2, n⟩)
          fs := s } := by
      simp only [listDel, Vfs.modifyDentry, Vfs.setDentry, entered, Function.update_self, Option.map_some,
        List.erase_cons_head, Function.update_idem]
    rw [release, hnew.parent]
    dsimp only
    rw [hlist, @iput_of_le_two _ _ fs _ laws i ⟨2, n⟩ (Function.update_self ..) le_rfl]
    simp only [Vfs.setDentry, Function.update_idem, Function.update_comm hpc]
    rw [← hi, Function.update_eq_self, ← hfree, Function.update_eq_self, ← hp, Function.update_eq_self]
  rw [dput_of_le_one laws hwlt hwc hnew.count.le hnew.parent hpc, hrelease]

include laws in
/-- Giving up an inode has nothing to do with a dentry. -/
theorem iput_modifyDentry (i : ℕ) : iput fs i (v.modifyDentry d f) = (iput fs i v).modifyDentry d f := by
  have hinodes : (v.modifyDentry d f).inodes i = v.inodes i := rfl
  rcases hi : v.inodes i with _ | n
  · rw [iput, iput, hinodes, hi]
  by_cases hn : n.iCount ≤ 2
  · rw [iput_of_le_two laws (hinodes.trans hi) hn, iput_of_le_two laws hi hn]
    rfl
  · rw [iput_of_two_lt (hinodes.trans hi) (Nat.not_le.1 hn), iput_of_two_lt hi (Nat.not_le.1 hn)]
    rfl

include laws in
/-- A reference to another dentry can be taken before or after a dentry is freed. -/
theorem release_dget (hpd : p ≠ d) : release fs d e (dget p v) = dget p (release fs d e v) := by
  have hlist : listDel d e.dParent (dget p v) = dget p (listDel d e.dParent v) := by
    rcases e.dParent with _ | q
    · rfl
    · rw [listDel, listDel, dget, dget]
      by_cases hqp : p = q
      · rw [hqp, Vfs.modifyDentry_modifyDentry, Vfs.modifyDentry_modifyDentry]
        rfl
      · exact Vfs.modifyDentry_comm hqp
  have hset : ∀ u : Vfs ι σ, (dget p u).setDentry d none = dget p (u.setDentry d none) := by
    intro u
    simp only [dget, Vfs.modifyDentry, Vfs.setDentry, Function.update_of_ne hpd, Function.update_comm hpd]
  rw [release, release, hlist]
  rcases e.dInode with _ | i
  · exact hset _
  · dsimp only
    rw [dget, iput_modifyDentry laws]
    exact hset _

include laws in
/-- The step to the parent is undone by its `dput`. -/
theorem dput_of_ascend (h : Refs v (bump d ext)) (hd : v.dcache d = some e) (hp : e.dParent = some p) :
    dput fs p (dput fs d (dget p v)) = dput fs d v ∧
      (p ≠ d → e.dCount ≤ 1 → dput fs d (dget p v) = release fs d e v) := by
  obtain ⟨ep, hep⟩ := Option.ne_none_iff_exists'.1 (h.parent ((Vfs.dParent_of_some hd).trans hp))
  have hpos := h.pos hep
  by_cases hpd : p = d
  · subst hpd
    obtain rfl := Option.some_inj.1 (hd.symm.trans hep)
    rw [dput_dget hd hpos]
    exact ⟨rfl, fun hc ↦ absurd rfl hc⟩
  have hd' : (dget p v).dcache d = some e := (Vfs.dcache_modifyDentry_of_ne (Ne.symm hpd)).trans hd
  by_cases hcount : 1 < e.dCount
  · have hswap : dput fs d (dget p v) = dget p (dput fs d v) := by
      rw [dput_of_one_lt hd' hcount, dput_of_one_lt hd hcount, dget, dget, Vfs.modifyDentry_comm hpd]
    have hep' : (dput fs d v).dcache p = some ep := by
      rw [dput_of_one_lt hd hcount, Vfs.dcache_modifyDentry_of_ne hpd, hep]
    rw [hswap, dput_dget hep' hpos]
    exact ⟨rfl, fun _ hle ↦ absurd hcount (Nat.not_lt.2 hle)⟩
  · have hle := Nat.not_lt.1 hcount
    have hlt : ∀ x e', (dget p v).dcache x = some e' → x < dcacheMaxDentries := by
      intro x e' hx
      obtain ⟨e₀, he₀, -⟩ := Vfs.modifyDentry_eq_some_iff.1 hx
      exact h.lt he₀
    -- The reference of the freed dentry is what is left of the one that was taken.
    have hrelease : dput fs p (release fs d e (dget p v)) = release fs d e v := by
      have hep' := (@release_eq_some_iff _ _ fs v d e _ laws p).2 ⟨hpd, ep, hep, rfl⟩
      rw [release_dget laws hpd, dput_dget hep' (by split <;> exact hpos)]
    have hall : dput fs d (dget p v) = release fs d e v := by
      rw [dput_of_le_one laws hlt hd' hle hp hpd, hrelease]
    refine ⟨?_, fun _ _ ↦ hall⟩
    rw [hall, dput_of_le_one laws (fun x e ↦ h.lt) hd hle hp hpd]

end Undo

/-! ### What a walk adds to the cache -/

/-- The old dentries and inodes are there, and each new dentry has an inode of its own. -/
structure CacheGrown (v₀ v : Vfs ι σ) : Prop where
  dentry : ∀ {d e}, v₀.dcache d = some e → ∃ e', v.dcache d = some e' ∧ e'.dName = e.dName ∧
    e'.hash = e.hash ∧ e'.dParent = e.dParent ∧ e'.dInode = e.dInode ∧ e.dSubdirs.Sublist e'.dSubdirs
  inode : ∀ {i n}, v₀.inodes i = some n → v.inodes i = some n
  fresh : ∀ {d e}, v₀.dcache d = none → v.dcache d = some e →
    ∃ i n, e.dInode = some i ∧ v₀.inodes i = none ∧ v.inodes i = some ⟨2, n⟩
  inj : ∀ {d d' e e'}, v₀.dcache d = none → v.dcache d = some e → v₀.dcache d' = none →
    v.dcache d' = some e' → e.dInode = e'.dInode → d = d'

namespace CacheGrown

variable {v₀ v : Vfs ι σ} {d p child i : ℕ} {e ep : Dentry} {f : Dentry → Dentry} {ext : ℕ → ℕ}

theorem refl (v : Vfs ι σ) : CacheGrown v v where
  dentry h := ⟨_, h, rfl, rfl, rfl, rfl, List.Sublist.refl _⟩
  inode h := h
  fresh h h' := absurd (h.symm.trans h').symm (Option.some_ne_none _)
  inj h h' := absurd (h.symm.trans h').symm (Option.some_ne_none _)

/-- Counting references changes nothing else. -/
theorem modify (h : CacheGrown v₀ v)
    (hf : ∀ e, (f e).dName = e.dName ∧ (f e).hash = e.hash ∧ (f e).dParent = e.dParent ∧
      (f e).dInode = e.dInode ∧ (f e).dSubdirs = e.dSubdirs) : CacheGrown v₀ (v.modifyDentry d f) := by
  have hkept : ∀ {x e'}, (v.modifyDentry d f).dcache x = some e' → ∃ e₀, v.dcache x = some e₀ ∧
      e'.dName = e₀.dName ∧ e'.hash = e₀.hash ∧ e'.dParent = e₀.dParent ∧ e'.dInode = e₀.dInode ∧
        e'.dSubdirs = e₀.dSubdirs := by
    intro x e' hx
    obtain ⟨e₀, he₀, rfl⟩ := Vfs.modifyDentry_eq_some_iff.1 hx
    refine ⟨e₀, he₀, ?_⟩
    split
    · exact hf e₀
    · exact ⟨rfl, rfl, rfl, rfl, rfl⟩
  refine ⟨fun {x e₀} hx ↦ ?_, h.inode, fun {x e'} hx hx' ↦ ?_, fun {x y e' e''} hx hx' hy hy' heq ↦ ?_⟩
  · obtain ⟨e₁, he₁, hname, hhash, hparent, hinode, hsub⟩ := h.dentry hx
    have hlive : (v.modifyDentry d f).dcache x ≠ none := by
      rw [Ne, Vfs.modifyDentry_eq_none_iff, he₁]
      exact Option.some_ne_none e₁
    obtain ⟨e', he'⟩ := Option.ne_none_iff_exists'.1 hlive
    obtain ⟨e₂, he₂, hname', hhash', hparent', hinode', hsub'⟩ := hkept he'
    obtain rfl := Option.some_inj.1 (he₁.symm.trans he₂)
    exact ⟨e', he', hname'.trans hname, hhash'.trans hhash, hparent'.trans hparent,
      hinode'.trans hinode, hsub' ▸ hsub⟩
  · obtain ⟨e₀, he₀, -, -, -, hinode, -⟩ := hkept hx'
    rw [hinode]
    exact h.fresh hx he₀
  · obtain ⟨e₀, he₀, -, -, -, hinode, -⟩ := hkept hx'
    obtain ⟨e₁, he₁, -, -, -, hinode', -⟩ := hkept hy'
    exact h.inj hx he₀ hy he₁ (hinode.symm.trans (heq.trans hinode'))

/-- So does one more use. -/
theorem dget (h : CacheGrown v₀ v) (d : ℕ) : CacheGrown v₀ (dget d v) :=
  h.modify fun _ ↦ ⟨rfl, rfl, rfl, rfl, rfl⟩

/-- A new dentry with a new inode. -/
theorem entered (h : CacheGrown v₀ v) (hp : v.dcache p = some ep) (hpc : p ≠ child)
    (hfree : v.dcache child = none) (hi : v.inodes i = none) (n : ι) (s : σ) :
    CacheGrown v₀ (entered v p child i ep e n s) := by
  have hold : ∀ {x e'}, x ≠ child → (MiniExt4.entered v p child i ep e n s).dcache x = some e' →
      ∃ e₀, v.dcache x = some e₀ ∧ e'.dInode = e₀.dInode := by
    intro x e' hxc hx
    rw [dcache_entered] at hx
    by_cases hxp : x = p
    · rw [hxp, Function.update_self, Option.some_inj] at hx
      exact ⟨ep, hxp ▸ hp, by rw [← hx]⟩
    · rw [Function.update_of_ne hxp, Function.update_of_ne hxc] at hx
      exact ⟨e', hx, rfl⟩
  have hnew : ∀ {e'}, (MiniExt4.entered v p child i ep e n s).dcache child = some e' →
      e'.dInode = some i := by
    intro e' hx
    rw [dcache_entered, Function.update_of_ne hpc.symm, Function.update_self, Option.some_inj] at hx
    rw [← hx]
  have hold₀ : ∀ {j n'}, v₀.inodes j = some n' → j ≠ i := fun hj hji ↦
    Option.some_ne_none _ ((h.inode hj).symm.trans (hji ▸ hi))
  have hi₀ : v₀.inodes i = none := by
    by_contra hne
    obtain ⟨n', hn'⟩ := Option.ne_none_iff_exists'.1 hne
    exact hold₀ hn' rfl
  have hneither : ∀ {x e₀}, v₀.dcache x = none → v.dcache x = some e₀ → e₀.dInode ≠ some i := by
    intro x e₀ hx hx' hei
    obtain ⟨j, n', hj, -, hj'⟩ := h.fresh hx hx'
    obtain rfl := Option.some_inj.1 (hj.symm.trans hei)
    exact Option.some_ne_none _ (hj'.symm.trans hi)
  refine ⟨fun {x e₀} hx ↦ ?_, fun {j n'} hj ↦ ?_, fun {x e'} hx hx' ↦ ?_,
    fun {x y e' e''} hx hx' hy hy' heq ↦ ?_⟩
  · obtain ⟨e₁, he₁, hrest⟩ := h.dentry hx
    have hxc : x ≠ child := fun hxc ↦ Option.some_ne_none e₁ (he₁.symm.trans (hxc ▸ hfree))
    rw [dcache_entered]
    by_cases hxp : x = p
    · subst hxp
      obtain rfl := Option.some_inj.1 (he₁.symm.trans hp)
      obtain ⟨hname, hhash, hparent, hinode, hsub⟩ := hrest
      exact ⟨_, Function.update_self .., hname, hhash, hparent, hinode, hsub.cons child⟩
    · exact ⟨e₁, by rw [Function.update_of_ne hxp, Function.update_of_ne hxc, he₁], hrest⟩
  · exact (Function.update_of_ne (hold₀ hj) ..).trans (h.inode hj)
  · by_cases hxc : x = child
    · subst hxc
      exact ⟨i, n, hnew hx', hi₀, Function.update_self ..⟩
    · obtain ⟨e₀, he₀, hinode⟩ := hold hxc hx'
      obtain ⟨j, n', hj, hj₀, hj'⟩ := h.fresh hx he₀
      have hji : j ≠ i := fun hji ↦ hneither hx he₀ (hji ▸ hj)
      exact ⟨j, n', hinode.trans hj, hj₀, (Function.update_of_ne hji ..).trans hj'⟩
  · by_cases hxc : x = child
    · by_cases hyc : y = child
      · exact hxc.trans hyc.symm
      · obtain ⟨e₀, he₀, hinode⟩ := hold hyc hy'
        exact absurd (hinode.symm.trans (heq.symm.trans (hnew (hxc ▸ hx')))) (hneither hy he₀)
    · obtain ⟨e₀, he₀, hinode⟩ := hold hxc hx'
      by_cases hyc : y = child
      · exact absurd (hinode.symm.trans (heq.trans (hnew (hyc ▸ hy')))) (hneither hx he₀)
      · obtain ⟨e₁, he₁, hinode'⟩ := hold hyc hy'
        exact h.inj hx he₀ hy he₁ (hinode.symm.trans (heq.trans hinode'))

/-- A new dentry that is freed takes its inode along. -/
theorem release (laws : fs.Laws) (h : CacheGrown v₀ v) (h₀ : Refs v₀ ext) (hd₀ : v₀.dcache d = none)
    (hd : v.dcache d = some e) : CacheGrown v₀ (release fs d e v) := by
  obtain ⟨i, n, hei, hi₀, hi⟩ := h.fresh hd₀ hd
  have hinodes : (MiniExt4.release fs d e v).inodes = Function.update v.inodes i none := by
    have hlist : (listDel d e.dParent v).inodes = v.inodes := by rcases e.dParent with _ | p <;> rfl
    rw [MiniExt4.release, hei]
    change (iput fs i (listDel d e.dParent v)).inodes = _
    rw [iput_of_le_two laws (by rw [hlist]; exact hi) le_rfl, hlist]
  have hkept : ∀ {x e'}, (MiniExt4.release fs d e v).dcache x = some e' → x ≠ d ∧
      ∃ e₀, v.dcache x = some e₀ ∧ e'.dInode = e₀.dInode := by
    intro x e' hx
    obtain ⟨hxd, e₀, he₀, rfl⟩ := (release_eq_some_iff laws).1 hx
    exact ⟨hxd, e₀, he₀, by split <;> rfl⟩
  refine ⟨fun {x e₀} hx ↦ ?_, fun {j n'} hj ↦ ?_, fun {x e'} hx hx' ↦ ?_,
    fun {x y e' e''} hx hx' hy hy' heq ↦ ?_⟩
  · obtain ⟨e₁, he₁, hname, hhash, hparent, hinode, hsub⟩ := h.dentry hx
    have hxd : x ≠ d := fun hxd ↦ Option.some_ne_none e₀ (hx.symm.trans (hxd ▸ hd₀))
    refine ⟨_, (release_eq_some_iff laws).2 ⟨hxd, e₁, he₁, rfl⟩, ?_⟩
    split
    · refine ⟨hname, hhash, hparent, hinode, ?_⟩
      have hmem : d ∉ e₀.dSubdirs := fun hmem ↦ by
        have hpar := (h₀.subdirs hx hmem).2
        rw [Vfs.dParent_of_none hd₀] at hpar
        exact absurd hpar.symm (Option.some_ne_none x)
      have hle := hsub.erase d
      rwa [List.erase_of_not_mem hmem] at hle
    · exact ⟨hname, hhash, hparent, hinode, hsub⟩
  · have hji : j ≠ i := fun hji ↦ Option.some_ne_none n' (hj.symm.trans (hji ▸ hi₀))
    rw [hinodes, Function.update_of_ne hji]
    exact h.inode hj
  · obtain ⟨hxd, e₀, he₀, hinode⟩ := hkept hx'
    obtain ⟨j, n', hj, hj₀, hj'⟩ := h.fresh hx he₀
    have hji : j ≠ i := fun hji ↦ hxd (h.inj hx he₀ hd₀ hd (by rw [hj, hei, hji]))
    exact ⟨j, n', hinode.trans hj, hj₀, by rw [hinodes, Function.update_of_ne hji, hj']⟩
  · obtain ⟨-, e₀, he₀, hinode⟩ := hkept hx'
    obtain ⟨-, e₁, he₁, hinode'⟩ := hkept hy'
    exact h.inj hx he₀ hy he₁ (hinode.symm.trans (heq.trans hinode'))

/-- The old children of a dentry are there. -/
theorem card_kids_le (h : CacheGrown v₀ v) (d : ℕ) : (kids v₀.dParent d).card ≤ (kids v.dParent d).card := by
  refine Finset.card_le_card fun c hc ↦ ?_
  obtain ⟨hclt, hcd, hcp⟩ := mem_kids.1 hc
  obtain ⟨e₀, he₀, hp₀⟩ := Option.bind_eq_some_iff.1 hcp
  obtain ⟨e', he', -, -, hparent, -⟩ := h.dentry he₀
  exact mem_kids.2 ⟨hclt, hcd, (Vfs.dParent_of_some he').trans (hparent.trans hp₀)⟩

/-- A dentry that has only one reference left is new. -/
theorem new_of_le_one (h : CacheGrown v₀ v) (h₀ : Refs v₀ ext) (hv : Refs v (bump d ext))
    (hd : v.dcache d = some e) (hcount : e.dCount ≤ 1) : v₀.dcache d = none := by
  by_contra hne
  obtain ⟨e₀, he₀⟩ := Option.ne_none_iff_exists'.1 hne
  have hcount₀ := h₀.count he₀
  have hpos₀ := h₀.pos he₀
  have hcount' := hv.count hd
  have hkids := h.card_kids_le d
  rw [bump_apply, if_pos rfl] at hcount'
  omega

end CacheGrown

/-! ### One step -/

/-- A walk that started at `v₀` has come to `d`. -/
structure Walked (laws : fs.Laws) (v₀ : Vfs ι σ) (ext : ℕ → ℕ) (v : Vfs ι σ) (d : ℕ) : Prop where
  refs : Refs v (bump d ext)
  undo : (dput fs d v).SameBy laws.same v₀
  grown : CacheGrown v₀ v

/-- What a walk from `v₀` leaves behind: with no result the old state, otherwise a reference to it. -/
def WalkResult (laws : fs.Laws) (v₀ : Vfs ι σ) (ext : ℕ → ℕ) (r : Option ℕ × Vfs ι σ) : Prop :=
  match r.1 with
  | none => r.2.SameBy laws.same v₀
  | some d => Walked laws v₀ ext r.2 d

/-- Uses are counted in any order. -/
theorem bump_comm (d d' : ℕ) (ext : ℕ → ℕ) : bump d (bump d' ext) = bump d' (bump d ext) := by
  funext x
  simp only [bump_apply]
  omega

section Step

variable {laws : fs.Laws} {v₀ v : Vfs ι σ} {ext : ℕ → ℕ} {d p child : ℕ} {e c : Dentry}

/-- A walk starts with one more use of its first dentry. -/
theorem Walked.start (h : Refs v ext) (hd : v.dcache d = some e) : Walked laws v ext (dget d v) d where
  refs := h.dget hd
  undo := by
    rw [dput_dget hd (h.pos hd)]
    exact Vfs.SameBy.refl laws.equiv v
  grown := (CacheGrown.refl v).dget d

/-- The step to the parent. -/
theorem Walked.ascend (h₀ : Refs v₀ ext) (h : Walked laws v₀ ext v d) :
    Walked laws v₀ ext (ascend fs d v).2 (ascend fs d v).1 := by
  obtain ⟨e, hd⟩ := h.refs.exists_of_bump
  rw [Namei.ascend, Vfs.dParent_of_some hd]
  rcases hp : e.dParent with _ | p
  · exact h
  dsimp only
  have hlive := h.refs.parent ((Vfs.dParent_of_some hd).trans hp)
  obtain ⟨ep, hep⟩ := Option.ne_none_iff_exists'.1 hlive
  obtain ⟨hundo, hfree⟩ := dput_of_ascend laws h.refs hd hp
  refine ⟨?_, by rw [hundo]; exact h.undo, ?_⟩
  · have hrefs := h.refs.dget hep
    rw [bump_comm] at hrefs
    exact hrefs.dput laws
  · by_cases hpd : p = d
    · obtain rfl := hpd
      rw [dput_dget hep (h.refs.pos hep)]
      exact h.grown
    by_cases hcount : 1 < e.dCount
    · have hd' : (dget p v).dcache d = some e :=
        (Vfs.dcache_modifyDentry_of_ne (Ne.symm hpd)).trans hd
      rw [dput_of_one_lt hd' hcount]
      exact (h.grown.dget _).modify fun _ ↦ ⟨rfl, rfl, rfl, rfl, rfl⟩
    · have hle := Nat.not_lt.1 hcount
      rw [hfree hpd hle]
      exact h.grown.release laws h₀ (h.grown.new_of_le_one h₀ h.refs hd hle) hd

/-- The step to a dentry on the list of the directory. -/
theorem Walked.hit (h : Walked laws v₀ ext v d) (hd : v.dcache d = some e) (hmem : child ∈ e.dSubdirs) :
    WalkResult laws v₀ ext (enter fs d (some child) (dget child v)) := by
  obtain ⟨hne, hpar⟩ := h.refs.subdirs hd hmem
  obtain ⟨c, hc, -⟩ := Option.bind_eq_some_iff.1 hpar
  have hpos := h.refs.pos hc
  have hcount : 1 < e.dCount := by
    have hkids : 0 < (kids v.dParent d).card := Finset.card_pos.2 ⟨child, mem_kids.2 ⟨h.refs.lt hc, hne, hpar⟩⟩
    have htotal := h.refs.count hd
    rw [bump_apply, if_pos rfl] at htotal
    omega
  rw [enter]
  split
  · rw [WalkResult, dput_dget hc hpos]
    exact h.undo
  · refine ⟨?_, ?_, ?_⟩
    · have hrefs := h.refs.dget hc
      rw [bump_comm] at hrefs
      exact hrefs.dput laws
    · rw [dput_of_hit hd hcount hc hpos hne]
      exact h.undo
    · have hd' : (dget child v).dcache d = some e := (Vfs.dcache_modifyDentry_of_ne hne.symm).trans hd
      rw [dput_of_one_lt hd' hcount]
      exact (h.grown.dget _).modify fun _ ↦ ⟨rfl, rfl, rfl, rfl, rfl⟩

/-- What `d_alloc` gives: nothing, or a free slot with a new entry below `p`. -/
theorem dAlloc_cases (p : ℕ) (q : Qstr) (v : Vfs ι σ) : (dAlloc (some p) q v).val = (none, v) ∨
    ∃ d e, v.dcache d = none ∧ d < dcacheMaxDentries ∧ IsNew e p ∧ e.dName.1 = q.bytes ∧
      (dAlloc (some p) q v).val = (some d, dget p (v.setDentry d (some e))) := by
  rw [dAlloc]
  rcases hfree : freeDentry v with _ | d
  · exact Or.inl rfl
  have hd := List.find?_some hfree
  have hmem := List.mem_of_find?_eq_some hfree
  dsimp only
  split
  · exact Or.inr ⟨d, _, Option.isNone_iff_eq_none.1 hd, List.mem_range.1 hmem, ⟨rfl, rfl, rfl, rfl⟩, rfl, rfl⟩
  · exact Or.inl rfl

/-- A dentry without an inode ends the walk. -/
theorem enter_of_none (h : v.dInode child = none) :
    enter fs d (some child) v = (none, dput fs d (dput fs child v)) := by
  rw [enter, h]
  rfl

/-- A dentry with an inode is where the walk goes on. -/
theorem enter_of_some {i : ℕ} (h : v.dInode child = some i) :
    enter fs d (some child) v = (some child, dput fs d v) := by
  rw [enter, h]
  rfl

/-- The inode a dentry was given. -/
theorem dInode_dInstantiate (hd : v.dcache d = some e) (i : ℕ) : (dInstantiate d i v).dInode d = some i := by
  have hnode : (v.modifyDentry d fun e ↦ { e with dInode := some i }).dInode d = some i := by
    rw [Vfs.dInode, Vfs.modifyDentry_of_some hd, Vfs.dcache_setDentry, Function.update_self]
    rfl
  rw [dInstantiate]
  split
  · exact hnode
  · refine (Vfs.dInode_modifyDentry fun e ↦ ?_).trans hnode
    split <;> rfl

/-- The references after a new dentry has got an inode. -/
theorem refs_lookup (h : Refs v (bump d ext)) (hfree : v.dcache child = none) (hclt : child < dcacheMaxDentries)
    (hnew : IsNew e d) (i : ℕ) {w : Vfs ι σ} (hw : w.dcache = (dget d (v.setDentry child (some e))).dcache) :
    Refs (dInstantiate child i w) (bump d (bump child ext)) := by
  obtain ⟨ed, hd⟩ := h.exists_of_bump
  have hdc := ne_of_free hd hfree
  have hfree' : (dget d v).dcache child = none := by
    rw [dget, Vfs.dcache_modifyDentry_of_ne hdc.symm, hfree]
  have hadopt := (h.dget hd).adopt hfree' hclt hnew.count hnew.parent hnew.subdirs
  have hswap : (dget d (v.setDentry child (some e))).dcache =
      ((dget d v).setDentry child (some e)).dcache := by
    simp only [dget, Vfs.modifyDentry, Vfs.setDentry, Function.update_of_ne hdc,
      Function.update_comm hdc]
  have hrefs := hadopt.congr (hw.trans hswap)
  rw [bump_comm] at hrefs
  refine hrefs.dInstantiate ?_ hnew.parent hdc i
  rw [hw, hswap]
  exact Function.update_self ..

/-- The step to a new dentry. -/
theorem Walked.lookup (h : Walked laws v₀ ext v d) {n : ι} {ops : InodeOperations ι σ}
    {lookup : ℕ → ℕ → Vfs ι σ → Option ℕ × Vfs ι σ} (hops : fs.iOp n = some ops)
    (hlookup : ops.lookup = some lookup) (dir : ℕ) (hfree : v.dcache child = none)
    (hclt : child < dcacheMaxDentries) (hnew : IsNew e d) :
    WalkResult laws v₀ ext (enter fs d (lookup dir child (dget d (v.setDentry child (some e)))).1
      (lookup dir child (dget d (v.setDentry child (some e)))).2) := by
  obtain ⟨ed, hd⟩ := h.refs.exists_of_bump
  have hdc := ne_of_free hd hfree
  have hpos := h.refs.pos hd
  have hmem : child ∉ ed.dSubdirs := fun hmem ↦ by
    have hpar := (h.refs.subdirs hd hmem).2
    rw [Vfs.dParent_of_none hfree] at hpar
    exact absurd hpar.symm (Option.some_ne_none d)
  have hsame : ∀ s, laws.same v.fs s → (dput fs d { v with fs := s }).SameBy laws.same v₀ := fun s hs ↦
    Vfs.SameBy.trans laws.equiv
      (Vfs.SameBy.symm laws.equiv (dputUp_sameBy laws ⟨s, hs, rfl⟩)) h.undo
  have hnegative := fun s ↦ @dput_of_negative _ _ fs { v with fs := s } d child e ed laws hd hpos hfree
    (fun _ _ ↦ h.refs.lt) hclt hnew hmem
  have hpositive := @dput_dInstantiate _ _ fs v d child e ed hd hpos hfree hnew hmem
  have hwc : (dget d (v.setDentry child (some e))).dcache child = some e := by
    rw [dget, Vfs.dcache_modifyDentry_of_ne hdc.symm]
    exact Function.update_self ..
  obtain ⟨w, hw⟩ : ∃ w, dget d (v.setDentry child (some e)) = w := ⟨_, rfl⟩
  have hfs : w.fs = v.fs := by rw [← hw]; rfl
  have hinodes : w.inodes = v.inodes := by rw [← hw]; rfl
  rw [hw] at hwc ⊢
  rcases laws.lookup_cases hops hlookup dir child w with ⟨s, hs, hval⟩ | ⟨s, i, n', hs, hi, hval⟩
  · have hnone : ({ w with fs := s } : Vfs ι σ).dInode child = none := by
      change (w.dcache child).bind _ = none
      rw [hwc]
      exact hnew.inode
    have hback : dput fs child { w with fs := s } = { v with fs := s } := by
      rw [← hnegative s, ← hw]
      rfl
    rw [hval, enter_of_none hnone, hback]
    exact hsame s (hfs ▸ hs)
  · rw [hfs] at hs
    rw [hinodes] at hi
    have hstep : dput fs d (dInstantiate child i { w with
        inodes := Function.update w.inodes i (some ⟨1, n'⟩), fs := s }) = entered v d child i ed e n' s := by
      rw [← hpositive i n' s, ← hw]
      rfl
    have hrefs := @refs_lookup _ _ v ext d child e h.refs hfree hclt hnew i
      { w with inodes := Function.update w.inodes i (some ⟨1, n'⟩), fs := s } (by rw [hw])
    rw [hval, enter_of_some (dInode_dInstantiate (by exact hwc) i)]
    refine ⟨hrefs.dput laws, ?_, ?_⟩
    · rw [hstep, dput_entered laws hd hfree (fun _ _ ↦ h.refs.lt) hclt hnew hi n' s]
      exact hsame _ hs
    · rw [hstep]
      exact h.grown.entered hd hdc hfree hi n' s

end Step

section Run

variable {laws : fs.Laws} {v₀ v : Vfs ι σ} {ext : ℕ → ℕ} {d : ℕ} {c : List Byte} {cs : List (List Byte)}

/-- One component of a walk. -/
theorem Walked.step (h₀ : Refs v₀ ext) (h : Walked laws v₀ ext v d) (c : List Byte) :
    WalkResult laws v₀ ext (walkName fs d c v) := by
  by_cases hdot : c = [dot]
  · rw [hdot, walkName_dot]
    exact h
  by_cases hdots : c = [dot, dot]
  · rw [hdots, walkName_dotdot]
    exact h.ascend h₀
  obtain ⟨e, hd⟩ := h.refs.exists_of_bump
  rw [walkName_of_ne hdot hdots]
  rcases hop : inodeOp fs InodeOperations.lookup d v with _ | ⟨dir, lookup⟩
  · exact h.undo
  obtain ⟨i, -, n, -, ops, hops, f, hlookup, hpair⟩ : ∃ i, v.dInode d = some i ∧ ∃ n, v.inodes i = some n ∧
      ∃ ops, fs.iOp n.node = some ops ∧ ∃ f, ops.lookup = some f ∧ (i, f) = (dir, lookup) := by
    simpa [inodeOp, Option.bind_eq_some_iff] using hop
  obtain ⟨rfl, rfl⟩ := Prod.mk.inj hpair
  dsimp only
  rw [val_lookupChild, hd]
  split
  next child hfind =>
    exact h.hit hd (List.mem_of_find?_eq_some hfind)
  next =>
    rcases dAlloc_cases d (qstrInit (fun i ↦ c.getD i 0) c.length).val v with
      hnone | ⟨child, e', hfree, hlt, hnew, -, hsome⟩
    · rw [hnone]
      exact h.undo
    · rw [hsome]
      exact h.lookup hops hlookup i hfree hlt hnew

/-- A walk. -/
theorem Walked.walk (h₀ : Refs v₀ ext) (h : Walked laws v₀ ext v d) (cs : List (List Byte)) :
    WalkResult laws v₀ ext (walk fs cs d v) := by
  induction cs generalizing d v with
  | nil => exact h
  | cons c cs ih =>
    have hstep := h.step h₀ c
    rcases hname : walkName fs d c v with ⟨_ | d', v'⟩
    · rw [walk_cons_none hname]
      rwa [hname] at hstep
    · rw [walk_cons_some hname]
      rw [hname] at hstep
      exact ih hstep

/-- A path lookup takes one reference, to what it finds. -/
theorem walkResult_resolve (laws : fs.Laws) (h₀ : Refs v₀ ext) (start : ℕ) (path : List Byte) :
    WalkResult laws v₀ ext (resolve fs start path v₀) := by
  rw [resolve]
  split
  · exact Vfs.SameBy.refl laws.equiv v₀
  next hstart =>
    obtain ⟨i, hi⟩ := Option.ne_none_iff_exists'.1 (mt Option.isNone_iff_eq_none.2 hstart)
    obtain ⟨e, hd, -⟩ := Option.bind_eq_some_iff.1 hi
    exact (Walked.start h₀ hd).walk h₀ _

end Run

/-! ### Properties of the inodes and the filesystem -/

/-- `P k` is a property of the inodes and the filesystem that a walk keeps while there are lookups left of
the `k` it may make: giving an inode back keeps it, and a lookup spends one. -/
structure KeptByWalk (fs : FileSystem ι σ) (P : ℕ → Vfs ι σ → Prop) : Prop where
  mono : ∀ {k l v}, k ≤ l → P l v → P k v
  dcache : ∀ {k v} dcache, P k v → P k { v with dcache := dcache }
  iput : ∀ {k v} i, P k v → P k (iput fs i v)
  lookup : ∀ {k v dir n ops lookup} d, v.inodes dir = some n → fs.iOp n.node = some ops →
    ops.lookup = some lookup → P (k + 1) v → P k (lookup dir d v).2

namespace KeptByWalk

variable {P : ℕ → Vfs ι σ → Prop} {v : Vfs ι σ} {k d : ℕ} {e : Dentry} {c : List Byte} {cs : List (List Byte)}

/-- Releasing a dentry keeps what a walk keeps. -/
theorem release (h : KeptByWalk fs P) (hv : P k v) : P k (release fs d e v) := by
  have hdel : P k (listDel d e.dParent v) := by
    cases e.dParent with
    | none => exact hv
    | some p => exact h.dcache _ hv
  rw [MiniExt4.release]
  split
  · exact h.dcache _ hdel
  · exact h.dcache _ (h.iput _ hdel)

/-- So does giving up a dentry and its ancestors: an induction on how far up. -/
theorem dputUp (h : KeptByWalk fs P) (fuel : ℕ) (hv : P k v) : P k (dputUp fs fuel d v) := by
  induction fuel generalizing d v with
  | zero => exact hv
  | succ fuel ih =>
    rcases hd : v.dcache d with _ | e
    · rwa [dputUp_of_none hd]
    by_cases hcount : 1 < e.dCount
    · rw [dputUp_of_one_lt hd hcount]
      exact h.dcache _ hv
    · rw [dputUp_of_le_one hd (Nat.not_lt.1 hcount)]
      split
      · exact h.release hv
      · split
        · exact ih (h.release hv)
        · exact h.release hv

/-- Giving a reference back keeps it. -/
theorem dput (h : KeptByWalk fs P) (hv : P k v) : P k (dput fs d v) := h.dputUp dcacheMaxDentries hv

theorem dget (h : KeptByWalk fs P) (hv : P k v) : P k (dget d v) := h.dcache _ hv

/-- So does a step into a child. -/
theorem enter (h : KeptByWalk fs P) (child : Option ℕ) (hv : P k v) : P k (enter fs d child v).2 := by
  cases child with
  | none => exact h.dput hv
  | some child =>
    rw [Namei.enter]
    split
    · exact h.dput (h.dput hv)
    · exact h.dput hv

/-- A component spends at most one lookup. -/
theorem walkName (h : KeptByWalk fs P) (c : List Byte) (hv : P (k + 1) v) : P k (walkName fs d c v).2 := by
  have hk := h.mono (Nat.le_succ k) hv
  by_cases hdot : c = [dot]
  · rwa [hdot, walkName_dot]
  by_cases hdots : c = [dot, dot]
  · rw [hdots, walkName_dotdot, ascend]
    split
    · exact hk
    · exact h.dput (h.dget hk)
  rw [walkName_of_ne hdot hdots]
  rcases hop : inodeOp fs InodeOperations.lookup d v with _ | ⟨dir, lookup⟩
  · exact h.dput hk
  obtain ⟨i, -, n, hn, ops, hops, f, hlookup, hpair⟩ : ∃ i, v.dInode d = some i ∧ ∃ n, v.inodes i = some n ∧
      ∃ ops, fs.iOp n.node = some ops ∧ ∃ f, ops.lookup = some f ∧ (i, f) = (dir, lookup) := by
    simpa [inodeOp, Option.bind_eq_some_iff] using hop
  obtain ⟨rfl, rfl⟩ := Prod.mk.inj hpair
  dsimp only
  rw [val_lookupChild]
  split
  · exact h.enter _ (h.dget hk)
  · rcases dAlloc_cases d (qstrInit (fun i ↦ c.getD i 0) c.length).val v with
      hnone | ⟨child, e', -, -, -, -, hsome⟩
    · rw [hnone]
      exact h.dput hk
    · rw [hsome]
      have hnew : P (k + 1) (v.setDentry child (some e')) := h.dcache _ hv
      exact h.enter _ (h.lookup child hn hops hlookup (h.dget hnew))

/-- **A walk keeps it,** with one lookup less to come for each component. -/
theorem walk (h : KeptByWalk fs P) (cs : List (List Byte)) (hv : P (cs.length + k) v) :
    P k (walk fs cs d v).2 := by
  induction cs generalizing d v with
  | nil => rwa [List.length_nil, Nat.zero_add] at hv
  | cons c cs ih =>
    rw [List.length_cons, Nat.succ_add_eq_add_succ] at hv
    have hstep := h.walkName (d := d) c hv
    rcases hname : Namei.walkName fs d c v with ⟨_ | d', v'⟩ <;> rw [hname] at hstep
    · rw [walk_cons_none hname]
      exact h.mono (Nat.le_add_left k cs.length) hstep
    · rw [walk_cons_some hname]
      exact ih hstep

/-- **A path lookup keeps what its steps keep**, with one lookup for each component. -/
theorem resolve (h : KeptByWalk fs P) (start : ℕ) {path : List Byte} (hv : P (components path).length v) :
    P 0 (resolve fs start path v).2 := by
  rw [Namei.resolve]
  split
  · exact h.mono (Nat.zero_le _) hv
  · exact h.walk _ (h.dget hv)

end KeptByWalk

end MiniExt4
