import MiniExt4.Vfs.Calls
import MiniExt4.Vfs.WalkRefs

/-!
# References over whole runs (`fs/dir.c`, `fs/open.c`)

Between calls the references to the dentries are held by the root of the superblock, by the current
directory and by the open files. `held` counts them. Some exits of the calls lose a reference, and then it
is never given back: the invariant is that the counts are those of the references held and of some `leak`,
and that the inode of a dentry is in use, has an `i_count` of 2 and belongs to no other dentry (`Counted`).
An inode in use without a dentry is allowed for: the removal of a name or a write that failed can leave one.

Only a call of `vfs_open` on `""` or `"/"` breaks it: it takes no reference, and `vfs_close` gives one back.

`Sound` is what every state between two statements satisfies, for any references from outside, and its
lemmas are one for each operation on the cache. `Owned` is the part about inodes: without it, giving back a
dentry could free an inode that another dentry points to.
-/

namespace MiniExt4

open Touch Namei

variable {ι σ : Type}

/-! ### What is held -/

/-- The descriptors with the dentry `d`. -/
def openOn (fds : ℕ → Option File) (d : ℕ) : Finset ℕ :=
  (Finset.range maxFd).filter fun fd ↦ (fds fd).map File.fPathDentry = some d

/-- The references to a dentry from a root, a current directory and a table of open files. -/
def heldBy (root cwd : Option ℕ) (fds : ℕ → Option File) (d : ℕ) : ℕ :=
  (if root = some d then 1 else 0) + (if cwd = some d then 1 else 0) + (openOn fds d).card

/-- The references to a dentry that the variables of the VFS hold. -/
def held (v : Vfs ι σ) : ℕ → ℕ := heldBy v.sRoot v.vfsCwd v.fds

section Held

variable {root cwd : Option ℕ} {fds : ℕ → Option File} {d fd : ℕ} {f : File} {ext leak : ℕ → ℕ}

/-- The working directory is one more use. -/
theorem heldBy_cwd (root : Option ℕ) (c : ℕ) (fds : ℕ → Option File) :
    heldBy root (some c) fds = bump c (heldBy root none fds) := by
  funext d
  simp only [bump_apply, heldBy, Option.some_inj, @eq_comm ℕ d c, reduceCtorEq, if_false]
  omega

/-- A file that is entered into the table holds its dentry. -/
theorem heldBy_open (hfd : fd < maxFd) (hfree : fds fd = none) :
    heldBy root cwd (Function.update fds fd (some f)) = bump f.fPathDentry (heldBy root cwd fds) := by
  have hopen : ∀ d, openOn (Function.update fds fd (some f)) d =
      if d = f.fPathDentry then insert fd (openOn fds d) else openOn fds d := by
    intro d
    ext x
    by_cases hx : x = fd
    · subst hx
      by_cases hd : d = f.fPathDentry
      · simp [openOn, hd, hfd]
      · simp [openOn, hd, hfree, Ne.symm hd]
    · by_cases hd : d = f.fPathDentry
      · simp [openOn, hd, hx]
      · simp [openOn, hd, hx]
  have hnotMem : ∀ d, fd ∉ openOn fds d := fun d ↦ by simp [openOn, hfree]
  funext d
  rw [bump_apply, heldBy, heldBy, hopen]
  by_cases hd : d = f.fPathDentry
  · rw [if_pos hd, if_pos hd, Finset.card_insert_of_notMem (hnotMem d)]
    rfl
  · rw [if_neg hd, if_neg hd]
    rfl

/-- A file that is taken out of the table leaves a reference over. -/
theorem heldBy_close (hfd : fd < maxFd) (hf : fds fd = some f) :
    heldBy root cwd fds = bump f.fPathDentry (heldBy root cwd (Function.update fds fd none)) := by
  rw [← heldBy_open hfd (Function.update_self ..), Function.update_idem, ← hf, Function.update_eq_self]

/-- The root is in use. -/
theorem heldBy_root_pos (r : ℕ) (cwd : Option ℕ) (fds : ℕ → Option File) : 0 < heldBy (some r) cwd fds r := by
  rw [heldBy, if_pos rfl]
  omega

/-- A use and the leaks are counted in any order. -/
theorem bump_add (d : ℕ) (ext leak : ℕ → ℕ) : bump d ext + leak = bump d (ext + leak) := by
  funext x
  rw [Pi.add_apply, bump_apply, bump_apply, Pi.add_apply]
  omega

theorem add_bump (d : ℕ) (ext leak : ℕ → ℕ) : ext + bump d leak = bump d (ext + leak) := by
  rw [add_comm, bump_add, add_comm]

end Held

/-- The variables outside the caches are the same. -/
structure SameVars (v w : Vfs ι σ) : Prop where
  sRoot : w.sRoot = v.sRoot
  vfsCwd : w.vfsCwd = v.vfsCwd
  fds : w.fds = v.fds

namespace SameVars

variable {u v w : Vfs ι σ}

theorem refl (v : Vfs ι σ) : SameVars v v := ⟨rfl, rfl, rfl⟩

/-- Two steps that leave the variables, one after the other. -/
theorem trans (h : SameVars u v) (h' : SameVars v w) : SameVars u w :=
  ⟨h'.sRoot.trans h.sRoot, h'.vfsCwd.trans h.vfsCwd, h'.fds.trans h.fds⟩

/-- The uses that the variables account for. -/
theorem held_eq (h : SameVars v w) : held w = held v := by
  rw [held, held, h.sRoot, h.vfsCwd, h.fds]

end SameVars

/-! ### Owned inodes -/

/-- Each inode that a dentry has is in use, with the count it has from its allocation and its dentry, and no
other dentry has it. -/
structure Owned (v : Vfs ι σ) : Prop where
  inode : ∀ {d i}, v.dInode d = some i → ∃ n, v.inodes i = some n ∧ n.iCount = 2
  inj : ∀ {d d' i}, v.dInode d = some i → v.dInode d' = some i → d = d'

/-- The references are counted, the inodes are owned, and the root is a directory. -/
structure Sound (fs : FileSystem ι σ) (v : Vfs ι σ) (ext : ℕ → ℕ) : Prop where
  refs : Refs v ext
  owned : Owned v
  root : ∃ r n, v.sRoot = some r ∧ 0 < ext r ∧ v.inodeOf r = some n ∧ sIsdir (fs.iMode n.node) = true

variable {fs : FileSystem ι σ} {v w : Vfs ι σ} {ext : ℕ → ℕ} {d p child i : ℕ} {e : Dentry}

theorem Vfs.dInode_of_some (h : v.dcache d = some e) : v.dInode d = e.dInode := by rw [dInode, h]; rfl

theorem Vfs.dInode_of_none (h : v.dcache d = none) : v.dInode d = none := by rw [dInode, h]; rfl

namespace Owned

/-- Dentries and inodes that are the same for owning. -/
theorem congr (h : Owned v) (hd : w.dInode = v.dInode) (hi : w.inodes = v.inodes) : Owned w :=
  ⟨fun hdi ↦ by rw [hi]; exact h.inode (hd ▸ hdi), fun hdi hdi' ↦ h.inj (hd ▸ hdi) (hd ▸ hdi')⟩

/-- The slot of an owned inode is in use. -/
theorem ne_of_free (h : Owned v) (hi : v.inodes i = none) : v.dInode d ≠ some i := fun hdi ↦ by
  obtain ⟨n, hn, -⟩ := h.inode hdi
  exact Option.some_ne_none n (hn.symm.trans hi)

end Owned

/-- A change that keeps the inode. -/
theorem dInode_modify {f : Dentry → Dentry} (hf : ∀ e, (f e).dInode = e.dInode) :
    (v.modifyDentry d f).dInode = v.dInode := funext fun _ ↦ Vfs.dInode_modifyDentry hf

namespace Sound

/-- Counting references changes the references only. -/
theorem modify {ext' : ℕ → ℕ} {f : Dentry → Dentry} (h : Sound fs v ext) (hf : ∀ e, (f e).dInode = e.dInode)
    (hrefs : Refs (v.modifyDentry d f) ext') (hroot : ∀ r, v.sRoot = some r → 0 < ext' r) :
    Sound fs (v.modifyDentry d f) ext' := by
  have hd : (v.modifyDentry d f).dInode = v.dInode := dInode_modify hf
  refine ⟨hrefs, h.owned.congr hd rfl, ?_⟩
  obtain ⟨r, n, hr, -, hn, hdir⟩ := h.root
  refine ⟨r, n, hr, hroot r hr, ?_, hdir⟩
  rw [Vfs.inodeOf, hd]
  exact hn

/-- One more use of a dentry. -/
theorem dget (h : Sound fs v ext) (hd : v.dcache d = some e) : Sound fs (dget d v) (bump d ext) := by
  refine h.modify (fun _ ↦ rfl) (h.refs.dget hd) fun r hr ↦ ?_
  obtain ⟨r', n, hr', hpos, -⟩ := h.root
  obtain rfl := Option.some_inj.1 (hr'.symm.trans hr)
  rw [bump_apply]
  omega

end Sound

section Release

variable (laws : fs.Laws)

include laws in
/-- A dentry that was released has no inode. -/
theorem dInode_release : (release fs d e v).dInode = Function.update v.dInode d none := by
  funext x
  by_cases hx : x = d
  · rw [hx, Function.update_self]
    exact Vfs.dInode_of_none ((release_eq_none_iff laws).2 (Or.inl rfl))
  · rw [Function.update_of_ne hx]
    rcases hv : v.dcache x with _ | e₀
    · rw [Vfs.dInode_of_none hv, Vfs.dInode_of_none ((release_eq_none_iff laws).2 (Or.inr hv))]
    · rw [Vfs.dInode_of_some hv, Vfs.dInode_of_some ((release_eq_some_iff laws).2 ⟨hx, e₀, hv, rfl⟩)]
      split <;> rfl

include laws in
/-- Freeing a dentry destroys its inode. -/
theorem inodes_release (h : Owned v) (hd : v.dcache d = some e) (i : ℕ) :
    (release fs d e v).inodes i = if e.dInode = some i then none else v.inodes i := by
  have hlist : (listDel d e.dParent v).inodes = v.inodes := by rcases e.dParent with _ | p <;> rfl
  rw [release]
  rcases hi : e.dInode with _ | j
  · rw [if_neg (Option.some_ne_none i).symm]
    exact congrFun hlist i
  · obtain ⟨n, hn, hcount⟩ := h.inode ((Vfs.dInode_of_some hd).trans hi)
    change (iput fs j (listDel d e.dParent v)).inodes i = _
    rw [iput_of_le_two laws (by rw [hlist]; exact hn) hcount.le, hlist]
    change Function.update v.inodes j none i = _
    by_cases hij : i = j
    · rw [hij, Function.update_self, if_pos rfl]
    · rw [Function.update_of_ne hij, if_neg fun h ↦ hij (Option.some_inj.1 h).symm]

include laws in
/-- Releasing a dentry leaves the variables. -/
theorem sameVars_release : SameVars v (release fs d e v) := by
  have hlist : SameVars v (listDel d e.dParent v) := by rcases e.dParent with _ | p <;> exact ⟨rfl, rfl, rfl⟩
  rw [release]
  rcases e.dInode with _ | i
  · exact ⟨hlist.sRoot, hlist.vfsCwd, hlist.fds⟩
  · have hiput : SameVars (listDel d e.dParent v) (iput fs i (listDel d e.dParent v)) := by
      rw [iput]
      split
      · exact .refl _
      · dsimp only
        split
        · rw [laws.destroyInode_eq]
          exact ⟨rfl, rfl, rfl⟩
        · exact ⟨rfl, rfl, rfl⟩
    exact ⟨(hlist.trans hiput).sRoot, (hlist.trans hiput).vfsCwd, (hlist.trans hiput).fds⟩

include laws in
/-- Releasing a dentry gives up its inode with it. -/
theorem Owned.release (h : Owned v) (hd : v.dcache d = some e) : Owned (release fs d e v) := by
  have hmem : ∀ {x i}, (MiniExt4.release fs d e v).dInode x = some i → x ≠ d ∧ v.dInode x = some i := by
    intro x i hx
    rw [dInode_release laws] at hx
    by_cases hxd : x = d
    · rw [hxd, Function.update_self] at hx
      exact absurd hx.symm (Option.some_ne_none i)
    · rw [Function.update_of_ne hxd] at hx
      exact ⟨hxd, hx⟩
  refine ⟨fun {x i} hx ↦ ?_, fun hx hy ↦ h.inj (hmem hx).2 (hmem hy).2⟩
  obtain ⟨hxd, hxi⟩ := hmem hx
  obtain ⟨n, hn, hcount⟩ := h.inode hxi
  refine ⟨n, ?_, hcount⟩
  rw [inodes_release laws h hd, if_neg fun hi ↦ hxd (h.inj hxi ((Vfs.dInode_of_some hd).trans hi)), hn]

include laws in
/-- The other dentries keep their inodes. -/
theorem inodeOf_release (h : Owned v) (hd : v.dcache d = some e) {x : ℕ} (hx : x ≠ d) :
    (release fs d e v).inodeOf x = v.inodeOf x := by
  rw [Vfs.inodeOf, Vfs.inodeOf, dInode_release laws, Function.update_of_ne hx]
  rcases hxi : v.dInode x with _ | i
  · rfl
  · exact (inodes_release laws h hd i).trans (if_neg fun hi ↦ hx (h.inj hxi ((Vfs.dInode_of_some hd).trans hi)))

include laws in
/-- `dput` keeps all this where it leaves the root a reference. -/
theorem Sound.dputUp {fuel : ℕ} (h : Sound fs v (bump d ext)) (hroot : ∀ r, v.sRoot = some r → 0 < ext r)
    (hfuel : (liveDentries v).card ≤ fuel) :
    Sound fs (dputUp fs fuel d v) ext ∧ SameVars v (dputUp fs fuel d v) := by
  induction fuel generalizing v d with
  | zero =>
    obtain ⟨e, he⟩ := h.refs.exists_of_bump
    have hmem := mem_liveDentries (h.refs.lt he) he
    rw [Finset.card_eq_zero.1 (Nat.le_zero.1 hfuel)] at hmem
    exact absurd hmem (Finset.notMem_empty d)
  | succ fuel ih =>
    obtain ⟨e, he⟩ := h.refs.exists_of_bump
    -- a dentry that others hold only loses one reference
    by_cases hcount : 1 < e.dCount
    · have hrefs := h.refs.dputUp laws hfuel
      rw [dputUp_of_one_lt he hcount] at hrefs ⊢
      exact ⟨h.modify (fun _ ↦ rfl) hrefs hroot, ⟨rfl, rfl, rfl⟩⟩
    · have hle := Nat.not_lt.1 hcount
      have hrelease := h.refs.release laws he hle
      have hlive := card_liveDentries_release laws (h.refs.lt he) he
      have hvars := @sameVars_release _ _ fs v d e laws
      obtain ⟨r, n, hr, -, hn, hdir⟩ := h.root
      -- the root is held from outside, so it is never the one that goes
      have hrd : r ≠ d := by
        rintro rfl
        have hzero := (h.refs.of_le_one he hle).1
        exact absurd (hroot r hr) (by omega)
      have hkeep : ∀ {ext' : ℕ → ℕ}, Refs (release fs d e v) ext' → (∀ x, ext x ≤ ext' x) →
          Sound fs (release fs d e v) ext' := by
        intro ext' hrefs hmono
        refine ⟨hrefs, h.owned.release laws he, r, n, hvars.sRoot.trans hr,
          (hroot r hr).trans_le (hmono r), ?_, hdir⟩
        rw [inodeOf_release laws h.owned he hrd, hn]
      rw [dputUp_of_le_one he hle]
      rcases hp : e.dParent with _ | p
      · rw [hp] at hrelease
        exact ⟨hkeep hrelease fun _ ↦ le_rfl, hvars⟩
      · dsimp only
        split
        -- the parent loses the reference of its child
        next hpd =>
          rw [hp, leftover, if_pos hpd] at hrelease
          have hmono : ∀ x, ext x ≤ bump p ext x := fun x ↦ by rw [bump_apply]; omega
          obtain ⟨hsound, hvars'⟩ := ih (hkeep hrelease hmono) (fun r hr ↦ hroot r (hvars.sRoot ▸ hr)) (by omega)
          exact ⟨hsound, hvars.trans hvars'⟩
        next hpd =>
          rw [hp, leftover, if_neg hpd] at hrelease
          exact ⟨hkeep hrelease fun _ ↦ le_rfl, hvars⟩

include laws in
/-- Giving up a use of a dentry keeps the state sound. -/
theorem Sound.dput (h : Sound fs v (bump d ext)) (hroot : ∀ r, v.sRoot = some r → 0 < ext r) :
    Sound fs (dput fs d v) ext ∧ SameVars v (dput fs d v) :=
  h.dputUp laws hroot (card_liveDentries_le v)

end Release

/-! ### Path walking -/

/-- The references with the one to a result of a lookup. -/
def gain (d : Option ℕ) (ext : ℕ → ℕ) : ℕ → ℕ :=
  match d with
  | none => ext
  | some d => bump d ext

/-- What a lookup leaves: the state is sound, with one more reference to the result. -/
structure Gains (fs : FileSystem ι σ) (v : Vfs ι σ) (ext : ℕ → ℕ) (r : Option ℕ × Vfs ι σ) : Prop where
  sound : Sound fs r.2 (gain r.1 ext)
  vars : SameVars v r.2

/-- The root has a reference among `ext`. -/
def RootHeld (v : Vfs ι σ) (ext : ℕ → ℕ) : Prop := ∀ r, v.sRoot = some r → 0 < ext r

/-- With one more use the root is still held. -/
theorem RootHeld.bump (h : RootHeld v ext) (d : ℕ) : RootHeld v (bump d ext) := fun r hr ↦ by
  have hpos := h r hr
  rw [bump_apply]
  omega

/-- The root is held as long as the variables are the same. -/
theorem RootHeld.of_sameVars (h : RootHeld v ext) (hvars : SameVars v w) : RootHeld w ext :=
  fun r hr ↦ h r (hvars.sRoot ▸ hr)

theorem Sound.rootHeld (h : Sound fs v ext) : RootHeld v ext := fun r hr ↦ by
  obtain ⟨r', n, hr', hpos, -⟩ := h.root
  rwa [← Option.some_inj.1 (hr'.symm.trans hr)]

/-- One more use leaves the variables. -/
theorem SameVars.dget (v : Vfs ι σ) (d : ℕ) : SameVars v (dget d v) := ⟨rfl, rfl, rfl⟩

section Walk

variable (laws : fs.Laws)

include laws in
/-- The step to the parent. -/
theorem Sound.ascend (h : Sound fs v (bump d ext)) (hroot : RootHeld v ext) :
    Sound fs (ascend fs d v).2 (bump (ascend fs d v).1 ext) ∧ SameVars v (ascend fs d v).2 := by
  obtain ⟨e, hd⟩ := h.refs.exists_of_bump
  rw [Namei.ascend]
  rcases hp : v.dParent d with _ | p
  · exact ⟨h, .refl v⟩
  obtain ⟨ep, hep⟩ := Option.ne_none_iff_exists'.1 (h.refs.parent hp)
  have hget := h.dget hep
  rw [bump_comm] at hget
  obtain ⟨hsound, hvars⟩ := hget.dput laws (hroot.bump p)
  exact ⟨hsound, (SameVars.dget v p).trans hvars⟩

include laws in
/-- The step to a dentry that a reference was taken on. -/
theorem Sound.enter (h : Sound fs v (bump child (bump d ext))) (hroot : RootHeld v ext) :
    Gains fs v ext (enter fs d (some child) v) := by
  rw [Namei.enter]
  split
  · obtain ⟨hchild, hvars⟩ := h.dput laws (hroot.bump d)
    obtain ⟨hd, hvars'⟩ := hchild.dput laws (hroot.of_sameVars hvars)
    exact ⟨hd, hvars.trans hvars'⟩
  · rw [bump_comm] at h
    obtain ⟨hd, hvars⟩ := h.dput laws (hroot.bump child)
    exact ⟨hd, hvars⟩

/-- The references after `d_alloc` below `p`. -/
theorem Refs.dAlloc {ep : Dentry} (h : Refs v ext) (hp : v.dcache p = some ep) (hfree : v.dcache child = none)
    (hlt : child < dcacheMaxDentries) (hnew : IsNew e p) :
    Refs (MiniExt4.dget p (v.setDentry child (some e))) (bump child ext) := by
  have hpc := ne_of_free hp hfree
  have hfree' : (MiniExt4.dget p v).dcache child = none := by
    rw [MiniExt4.dget, Vfs.dcache_modifyDentry_of_ne hpc.symm, hfree]
  refine ((h.dget hp).adopt hfree' hlt hnew.count hnew.parent hnew.subdirs).congr ?_
  simp only [MiniExt4.dget, Vfs.modifyDentry, Vfs.setDentry, Function.update_of_ne hpc,
    Function.update_comm hpc]

/-- A new dentry has no inode, and the others keep theirs. -/
theorem dInode_dAlloc (hfree : v.dcache child = none) (hnew : IsNew e p) :
    (dget p (v.setDentry child (some e))).dInode = v.dInode := by
  funext x
  rw [dInode_dget, Vfs.dInode, Vfs.dInode, Vfs.dcache_setDentry]
  by_cases hx : x = child
  · rw [hx, Function.update_self, hfree]
    exact hnew.inode
  · rw [Function.update_of_ne hx]

/-- A new dentry below another counts as one use of its parent. -/
theorem Sound.dAlloc {ep : Dentry} (h : Sound fs v ext) (hp : v.dcache p = some ep)
    (hfree : v.dcache child = none) (hlt : child < dcacheMaxDentries) (hnew : IsNew e p) :
    Sound fs (MiniExt4.dget p (v.setDentry child (some e))) (bump child ext) := by
  refine ⟨h.refs.dAlloc hp hfree hlt hnew, h.owned.congr (dInode_dAlloc hfree hnew) rfl, ?_⟩
  obtain ⟨r, n, hr, hpos, hn, hdir⟩ := h.root
  refine ⟨r, n, hr, h.rootHeld.bump child r hr, ?_, hdir⟩
  rw [Vfs.inodeOf, dInode_dAlloc hfree hnew]
  exact hn

/-- The state with another filesystem below. -/
theorem Sound.setFs (h : Sound fs v ext) (s : σ) : Sound fs { v with fs := s } ext :=
  ⟨h.refs.congr rfl, h.owned.congr rfl rfl, h.root⟩

/-- `d_instantiate` gives its dentry the inode, and the others keep theirs. -/
theorem dInode_dInstantiate_eq (hd : v.dcache d = some e) (i : ℕ) :
    (dInstantiate d i v).dInode = Function.update v.dInode d (some i) := by
  have hnode : (v.modifyDentry d fun e ↦ { e with dInode := some i }).dInode =
      Function.update v.dInode d (some i) := by
    funext x
    rw [Vfs.dInode, Vfs.modifyDentry_of_some hd, Vfs.dcache_setDentry]
    by_cases hx : x = d
    · rw [hx, Function.update_self, Function.update_self]
      rfl
    · rw [Function.update_of_ne hx, Function.update_of_ne hx]
      rfl
  rw [dInstantiate]
  split
  · exact hnode
  · refine (dInode_modify fun e ↦ ?_).trans hnode
    split <;> rfl

/-- Instantiating a dentry counts a use of the inode. -/
theorem inodes_dInstantiate (d i : ℕ) (v : Vfs ι σ) : (dInstantiate d i v).inodes =
    Function.update v.inodes i ((v.inodes i).map fun n ↦ { n with iCount := n.iCount + 1 }) := by
  rw [dInstantiate]
  split <;> rfl

/-- A dentry without inode gets a new one. -/
theorem Sound.instantiate {n : ι} (h : Sound fs v ext) (hd : v.dcache d = some e) (hnone : e.dInode = none)
    (hp : e.dParent = some p) (hpd : p ≠ d) (hi : v.inodes i = none) (s : σ) :
    Sound fs (dInstantiate d i { v with inodes := Function.update v.inodes i (some ⟨1, n⟩), fs := s }) ext := by
  set w : Vfs ι σ := { v with inodes := Function.update v.inodes i (some ⟨1, n⟩), fs := s } with hw
  have hwd : w.dcache d = some e := hd
  have hdInode := dInode_dInstantiate_eq hwd i
  have hinodes : (dInstantiate d i w).inodes = Function.update v.inodes i (some ⟨2, n⟩) := by
    rw [inodes_dInstantiate, hw]
    dsimp only
    rw [Function.update_self, Function.update_idem]
    rfl
  -- an entry has the new inode, or one that it had before
  have hcase : ∀ {x j}, (dInstantiate d i w).dInode x = some j →
      x = d ∧ j = i ∨ x ≠ d ∧ j ≠ i ∧ v.dInode x = some j := by
    intro x j hx
    rw [hdInode] at hx
    by_cases hxd : x = d
    · rw [hxd, Function.update_self, Option.some_inj] at hx
      exact Or.inl ⟨hxd, hx.symm⟩
    · rw [Function.update_of_ne hxd] at hx
      exact Or.inr ⟨hxd, fun hji ↦ h.owned.ne_of_free hi (hji ▸ hx), hx⟩
  refine ⟨(h.refs.congr (w := w) rfl).dInstantiate hwd hp hpd i, ⟨fun hx ↦ ?_, fun hx hy ↦ ?_⟩, ?_⟩
  · rw [hinodes]
    obtain ⟨-, rfl⟩ | ⟨-, hji, hx⟩ := hcase hx
    · exact ⟨_, Function.update_self .., rfl⟩
    · rw [Function.update_of_ne hji]
      exact h.owned.inode hx
  · obtain ⟨rfl, rfl⟩ | ⟨-, hji, hx⟩ := hcase hx
    · obtain ⟨rfl, -⟩ | ⟨-, hji, -⟩ := hcase hy
      · rfl
      · exact absurd rfl hji
    · obtain ⟨-, hji'⟩ | ⟨-, -, hy⟩ := hcase hy
      · exact absurd hji' hji
      · exact h.owned.inj hx hy
  · obtain ⟨r, m, hr, hpos, hm, hdir⟩ := h.root
    obtain ⟨j, hj, hmj⟩ := Option.bind_eq_some_iff.1 hm
    have hrd : r ≠ d := by
      rintro rfl
      rw [Vfs.dInode_of_some hd, hnone] at hj
      exact absurd hj.symm (Option.some_ne_none j)
    have hji : j ≠ i := fun hji ↦ h.owned.ne_of_free hi (hji ▸ hj)
    have hsRoot : (dInstantiate d i w).sRoot = v.sRoot := by
      rw [dInstantiate]
      split <;> rfl
    refine ⟨r, m, hsRoot.trans hr, hpos, ?_, hdir⟩
    have hjw : (dInstantiate d i w).dInode r = some j := by
      rw [hdInode, Function.update_of_ne hrd]
      exact hj
    rw [Vfs.inodeOf, hjw, hinodes, Option.bind_some, Function.update_of_ne hji, hmj]

variable {n : ι} {ops : InodeOperations ι σ} {f : ℕ → ℕ → Vfs ι σ → Option ℕ × Vfs ι σ}

/-- The filesystem below is as it was. -/
theorem fs_dInstantiate (d i : ℕ) (v : Vfs ι σ) : (dInstantiate d i v).fs = v.fs := by
  rw [dInstantiate]
  split <;> rfl

/-- Instantiating a dentry leaves the variables. -/
theorem sameVars_dInstantiate (d i : ℕ) (v : Vfs ι σ) : SameVars v (dInstantiate d i v) := by
  rw [dInstantiate]
  split <;> exact ⟨rfl, rfl, rfl⟩

include laws in
/-- The lookup of a new dentry in the filesystem, and the step to it. -/
theorem Sound.lookup (h : Sound fs v (bump child (bump d ext))) (hroot : RootHeld v ext)
    (hops : fs.iOp n = some ops) (hlookup : ops.lookup = some f) (dir : ℕ) (hchild : v.dcache child = some e)
    (hnone : e.dInode = none) (hp : e.dParent = some p) (hpd : p ≠ child) :
    Gains fs v ext (Namei.enter fs d (f dir child v).1 (f dir child v).2) := by
  rcases laws.lookup_cases hops hlookup dir child v with ⟨s, -, hval⟩ | ⟨s, i, n', -, hi, hval⟩
  · rw [hval]
    have hset : SameVars v { v with fs := s } := ⟨rfl, rfl, rfl⟩
    obtain ⟨hsound, hvars⟩ := (h.setFs s).enter laws hroot
    exact ⟨hsound, hset.trans hvars⟩
  · rw [hval]
    have hset : SameVars v { v with inodes := Function.update v.inodes i (some ⟨1, n'⟩), fs := s } :=
      ⟨rfl, rfl, rfl⟩
    have hvars := hset.trans (sameVars_dInstantiate child i _)
    have hnew := h.instantiate (n := n') hchild hnone hp hpd hi s
    obtain ⟨hsound, hvars'⟩ := hnew.enter laws (hroot.of_sameVars hvars)
    exact ⟨hsound, hvars.trans hvars'⟩

include laws in
/-- One component of a walk. -/
theorem Sound.walkName (h : Sound fs v (bump d ext)) (hroot : RootHeld v ext) (c : List Byte) :
    Gains fs v ext (walkName fs d c v) := by
  have hfail : Gains fs v ext (none, MiniExt4.dput fs d v) := by
    obtain ⟨hsound, hvars⟩ := h.dput laws hroot
    exact ⟨hsound, hvars⟩
  -- the two special names leave the cache as it is
  by_cases hdot : c = [dot]
  · rw [hdot, walkName_dot]
    exact ⟨h, .refl v⟩
  by_cases hdots : c = [dot, dot]
  · rw [hdots, walkName_dotdot]
    obtain ⟨hsound, hvars⟩ := h.ascend laws hroot
    exact ⟨hsound, hvars⟩
  obtain ⟨ed, hd⟩ := h.refs.exists_of_bump
  rw [walkName_of_ne hdot hdots]
  rcases hop : inodeOp fs InodeOperations.lookup d v with _ | ⟨dir, lookup⟩
  · exact hfail
  obtain ⟨n, ops, hops, hlookup⟩ : ∃ n ops, fs.iOp n = some ops ∧ ops.lookup = some lookup := by
    obtain ⟨i, -, hi⟩ := Option.bind_eq_some_iff.1 hop
    obtain ⟨n, -, hn⟩ := Option.bind_eq_some_iff.1 hi
    obtain ⟨ops, hops, hf⟩ := Option.bind_eq_some_iff.1 hn
    obtain ⟨f, hf', heq⟩ := Option.bind_eq_some_iff.1 hf
    obtain ⟨-, rfl⟩ := Prod.mk.inj (Option.some_inj.1 heq)
    exact ⟨n.node, ops, hops, hf'⟩
  dsimp only
  rw [val_lookupChild, hd]
  -- the child is in the cache, or the filesystem is asked for it
  split
  next child hfind =>
    have hmem := List.mem_of_find?_eq_some hfind
    obtain ⟨-, hpar⟩ := h.refs.subdirs hd hmem
    obtain ⟨ec, hec, -⟩ := Option.bind_eq_some_iff.1 hpar
    obtain ⟨hsound, hvars⟩ := (h.dget hec).enter laws (hroot.of_sameVars (SameVars.dget v child))
    exact ⟨hsound, (SameVars.dget v child).trans hvars⟩
  next =>
    rcases dAlloc_cases d (qstrInit (fun i ↦ c.getD i 0) c.length).val v with
      hnone | ⟨child, e', hfree, hlt, hnew, -, hsome⟩
    · rw [hnone]
      exact hfail
    · rw [hsome]
      have hdc := ne_of_free hd hfree
      have hvars : SameVars v (MiniExt4.dget d (v.setDentry child (some e'))) := ⟨rfl, rfl, rfl⟩
      have hchild : (MiniExt4.dget d (v.setDentry child (some e'))).dcache child = some e' := by
        rw [MiniExt4.dget, Vfs.dcache_modifyDentry_of_ne hdc.symm]
        exact Function.update_self ..
      obtain ⟨hsound, hvars'⟩ := (h.dAlloc hd hfree hlt hnew).lookup laws
        (hroot.of_sameVars hvars) hops hlookup dir hchild hnew.inode hnew.parent hdc
      exact ⟨hsound, hvars.trans hvars'⟩

include laws in
/-- A walk. -/
theorem Sound.walk (h : Sound fs v (bump d ext)) (hroot : RootHeld v ext) (cs : List (List Byte)) :
    Gains fs v ext (walk fs cs d v) := by
  induction cs generalizing d v with
  | nil => exact ⟨h, .refl v⟩
  | cons c cs ih =>
    have hstep := h.walkName laws hroot c
    rcases hname : Namei.walkName fs d c v with ⟨_ | d', v'⟩
    · rw [walk_cons_none hname]
      rwa [hname] at hstep
    · rw [walk_cons_some hname]
      rw [hname] at hstep
      have hrest := ih hstep.sound (hroot.of_sameVars hstep.vars)
      exact ⟨hrest.sound, hstep.vars.trans hrest.vars⟩

include laws in
/-- Resolving a path gains a use of the dentry it leads to. -/
theorem Sound.resolve (h : Sound fs v ext) (start : ℕ) (path : List Byte) :
    Gains fs v ext (resolve fs start path v) := by
  rw [Namei.resolve]
  split
  · exact ⟨h, .refl v⟩
  next hstart =>
    obtain ⟨i, hi⟩ := Option.ne_none_iff_exists'.1 (mt Option.isNone_iff_eq_none.2 hstart)
    obtain ⟨e, hd, -⟩ := Option.bind_eq_some_iff.1 hi
    have hwalk := (h.dget hd).walk laws (h.rootHeld.of_sameVars (SameVars.dget v start)) (components path)
    exact ⟨hwalk.sound, (SameVars.dget v start).trans hwalk.vars⟩

end Walk

end MiniExt4
