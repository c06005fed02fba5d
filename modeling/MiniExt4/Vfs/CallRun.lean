import MiniExt4.Vfs.CallRefs

/-!
# Runs of calls keep the references

What the operations of a filesystem may do to the caches is said by `FileSystemOps.CallLaws`: they change
the contents of inodes, give a new dentry a new inode, or take the inode of a dentry away. Each call is then
a sequence of steps that keep the state sound, and `Counted` holds after every run.

A call takes a reference when its lookup returns, works on the dentry, and gives the reference back on the
exits that do so. `Holding` is the state in between, `Counted` the one at the end, and an exit that forgets
the reference turns it into a leak (`Holding.lose`). So every call has the same two cases, and the run lemma
adds up their leaks; calls without such an exit leave the leaks as they were
(`Counted.runAll_of_givesBack`).
-/

namespace MiniExt4

open Touch Namei

variable {ι σ : Type}

/-! ### What operations do -/

/-- What is looked at of an inode in the pool: its count, and whether it is a directory. -/
def slots (fs : FileSystem ι σ) (v : Vfs ι σ) (i : ℕ) : Option (ℕ × Bool) :=
  (v.inodes i).map fun n ↦ (n.iCount, sIsdir (fs.iMode n.node))

/-- Only the filesystem and the contents of inodes change. -/
structure Quiet (fs : FileSystem ι σ) (v w : Vfs ι σ) : Prop where
  dcache : w.dcache = v.dcache
  vars : SameVars v w
  slots : slots fs w = slots fs v

/-- A new dentry gets a new inode if the result is 0. -/
def Makes (fs : FileSystem ι σ) (d : ℕ) (v : Vfs ι σ) (r : ℤ × Vfs ι σ) : Prop :=
  r.1 ≠ 0 ∧ Quiet fs v r.2 ∨
  r.1 = 0 ∧ ∃ w i n, Quiet fs v w ∧ w.inodes i = none ∧
    Quiet fs (dInstantiate d i { w with inodes := Function.update w.inodes i (some ⟨1, n⟩) }) r.2

/-- A dentry loses its inode and is taken off the list. -/
structure Unhooks (fs : FileSystem ι σ) (d : ℕ) (v w : Vfs ι σ) : Prop where
  dcache : w.dcache = (unhook d v).dcache
  vars : SameVars v w
  slots : ∀ i, v.dInode d ≠ some i → MiniExt4.slots fs w i = MiniExt4.slots fs v i

/-- What is assumed of the operations that the calls use. -/
structure FileSystemOps.CallLaws (fs : FileSystemOps ι σ) : Prop where
  mkdir : ∀ {n ops f}, fs.iOp n = some ops → ops.mkdir = some f → ∀ dir d mode v,
    Makes fs.toFileSystem d v (f dir d mode v)
  create : ∀ {n ops f}, fs.iOp n = some ops → ops.create = some f → ∀ dir d mode excl v,
    Makes fs.toFileSystem d v (f dir d mode excl v)
  unlink : ∀ {n f}, fs.unlink n = some f → ∀ dir d v,
    Quiet fs.toFileSystem v (f dir d v).2 ∨ Unhooks fs.toFileSystem d v (f dir d v).2
  rmdir : ∀ {n f}, fs.rmdir n = some f → ∀ dir d v,
    Quiet fs.toFileSystem v (f dir d v).2 ∨ Unhooks fs.toFileSystem d v (f dir d v).2
  fopOpen : ∀ {n f}, fs.fopOpen n = some f → ∀ i file v, Quiet fs.toFileSystem v (f i file v).2 ∧
    (f i file v).1.2.fPathDentry = file.fPathDentry
  release : ∀ f v, Quiet fs.toFileSystem v (fs.release f v)

namespace Quiet

variable {fs : FileSystem ι σ} {u v w : Vfs ι σ}

theorem refl (v : Vfs ι σ) : Quiet fs v v := ⟨rfl, .refl v, rfl⟩

theorem trans (h : Quiet fs u v) (h' : Quiet fs v w) : Quiet fs u w :=
  ⟨h'.dcache.trans h.dcache, h.vars.trans h'.vars, h'.slots.trans h.slots⟩

theorem dInode_eq (h : Quiet fs v w) : w.dInode = v.dInode := funext fun d ↦ by
  rw [Vfs.dInode, Vfs.dInode, h.dcache]

end Quiet

section Slots

variable {fs : FileSystem ι σ} {v w : Vfs ι σ} {ext : ℕ → ℕ} {d i : ℕ} {n : VfsInode ι} {e : Dentry}

/-- What a slot tells about the inode. -/
theorem exists_of_slots_eq (h : slots fs w i = slots fs v i) (hn : v.inodes i = some n) :
    ∃ n', w.inodes i = some n' ∧ n'.iCount = n.iCount ∧
      sIsdir (fs.iMode n'.node) = sIsdir (fs.iMode n.node) := by
  rw [slots, slots, hn, Option.map_some, Option.map_eq_some_iff] at h
  obtain ⟨n', hn', heq⟩ := h
  obtain ⟨hcount, hdir⟩ := Prod.mk.inj heq
  exact ⟨n', hn', hcount, hdir⟩

/-- Sound states, by the dentries that keep their inodes and the slots of these. -/
theorem Sound.of_slots {ext' : ℕ → ℕ} (h : Sound fs v ext) (hrefs : Refs w ext') (hvars : SameVars v w)
    (hd : ∀ {x i}, w.dInode x = some i → v.dInode x = some i)
    (hslots : ∀ {x i}, w.dInode x = some i → slots fs w i = slots fs v i)
    (hroot : ∀ r, v.sRoot = some r → 0 < ext' r ∧ w.dInode r = v.dInode r) : Sound fs w ext' := by
  refine ⟨hrefs, ⟨fun hx ↦ ?_, fun hx hy ↦ h.owned.inj (hd hx) (hd hy)⟩, ?_⟩
  · obtain ⟨n, hn, hcount⟩ := h.owned.inode (hd hx)
    obtain ⟨n', hn', hcount', -⟩ := exists_of_slots_eq (hslots hx) hn
    exact ⟨n', hn', hcount'.trans hcount⟩
  · obtain ⟨r, n, hr, -, hn, hdir⟩ := h.root
    obtain ⟨hpos, hrd⟩ := hroot r hr
    obtain ⟨i, hi, hni⟩ := Option.bind_eq_some_iff.1 hn
    have hi' : w.dInode r = some i := hrd.trans hi
    obtain ⟨n', hn', -, hdir'⟩ := exists_of_slots_eq (hslots hi') hni
    exact ⟨r, n', hvars.sRoot.trans hr, hpos, Option.bind_eq_some_iff.2 ⟨i, hi', hn'⟩, hdir'.trans hdir⟩

theorem Sound.quiet (h : Sound fs v ext) (hq : Quiet fs v w) : Sound fs w ext :=
  h.of_slots (h.refs.congr hq.dcache) hq.vars (fun hx ↦ hq.dInode_eq ▸ hx) (fun _ ↦ congrFun hq.slots _)
    fun r hr ↦ ⟨h.rootHeld r hr, congrFun hq.dInode_eq r⟩

/-- The new dentry of `mkdir` and `create`. -/
theorem Sound.makes {p : ℕ} {r : ℤ × Vfs ι σ} (h : Sound fs v ext) (hd : v.dcache d = some e)
    (hnone : e.dInode = none) (hp : e.dParent = some p) (hpd : p ≠ d) (hmakes : Makes fs d v r) :
    Sound fs r.2 ext ∧ SameVars v r.2 := by
  obtain ⟨-, hq⟩ | ⟨-, w, i, n, hw, hi, hq⟩ := hmakes
  · exact ⟨h.quiet hq, hq.vars⟩
  · have hdw : w.dcache d = some e := by rw [hw.dcache, hd]
    have hinst := (h.quiet hw).instantiate (n := n) hdw hnone hp hpd hi w.fs
    have hset : SameVars w { w with inodes := Function.update w.inodes i (some ⟨1, n⟩) } := ⟨rfl, rfl, rfl⟩
    exact ⟨hinst.quiet hq, ((hw.vars.trans hset).trans (sameVars_dInstantiate d i _)).trans hq.vars⟩

theorem dInode_unhook (d : ℕ) (v : Vfs ι σ) : (unhook d v).dInode = Function.update v.dInode d none := by
  have hnode : (v.modifyDentry d fun e ↦ { e with dInode := none }).dInode = Function.update v.dInode d none := by
    funext x
    rw [Vfs.dInode, Vfs.dcache_modifyDentry]
    by_cases hx : x = d
    · rw [hx, Function.update_self, Function.update_self]
      rcases v.dcache d with _ | e <;> rfl
    · rw [Function.update_of_ne hx, Function.update_of_ne hx]
      rfl
  rw [unhook]
  rcases (v.modifyDentry d fun e ↦ { e with dInode := none }).dParent d with _ | p
  · exact hnode
  · have hlist := @dInode_modify _ _ (v.modifyDentry d fun e ↦ { e with dInode := none }) p
      (fun e ↦ { e with dSubdirs := e.dSubdirs.erase d }) fun _ ↦ rfl
    exact hlist.trans hnode

/-- The references do not change where a dentry loses its inode. -/
theorem Refs.unhook (h : Refs v ext) (hd : v.dcache d = some e) : Refs (unhook d v) ext := by
  have hnode : Refs (v.modifyDentry d fun e ↦ { e with dInode := none }) ext :=
    h.modify hd rfl (fun _ ↦ Or.inl) (show e.dSubdirs.Nodup from h.nodup hd) rfl
      (show 0 < e.dCount from h.pos hd) fun _ _ ↦ rfl
  rw [MiniExt4.unhook]
  rcases hp : (v.modifyDentry d fun e ↦ { e with dInode := none }).dParent d with _ | p
  · exact hnode
  · obtain ⟨ep, hep⟩ := Option.ne_none_iff_exists'.1 (hnode.parent hp)
    exact hnode.modify hep rfl (fun c hc ↦ Or.inl (List.mem_of_mem_erase hc))
      (show (ep.dSubdirs.erase d).Nodup from (hnode.nodup hep).erase d) rfl
      (show 0 < ep.dCount from hnode.pos hep) fun _ _ ↦ rfl

theorem Sound.unhooks (h : Sound fs v ext) (hd : v.dcache d = some e) (hroot : v.sRoot ≠ some d)
    (hu : Unhooks fs d v w) : Sound fs w ext := by
  have hdInode : w.dInode = Function.update v.dInode d none := by
    rw [← dInode_unhook]
    funext x
    rw [Vfs.dInode, Vfs.dInode, hu.dcache]
  have hcase : ∀ {x i}, w.dInode x = some i → x ≠ d ∧ v.dInode x = some i := by
    intro x i hx
    rw [hdInode] at hx
    by_cases hxd : x = d
    · rw [hxd, Function.update_self] at hx
      exact absurd hx.symm (Option.some_ne_none i)
    · rw [Function.update_of_ne hxd] at hx
      exact ⟨hxd, hx⟩
  refine h.of_slots ((h.refs.unhook hd).congr hu.dcache) hu.vars (fun hx ↦ (hcase hx).2) (fun hx ↦ ?_)
    fun r hr ↦ ⟨h.rootHeld r hr, ?_⟩
  · obtain ⟨hxd, hxi⟩ := hcase hx
    exact hu.slots _ fun hdi ↦ hxd (h.owned.inj hxi hdi)
  · rw [hdInode, Function.update_of_ne]
    rintro rfl
    exact hroot hr

end Slots

/-! ### Counting -/

/-- The dentries have the references that are held, and `leak` that nobody gives back. -/
def Counted (fs : FileSystem ι σ) (v : Vfs ι σ) (leak : ℕ → ℕ) : Prop := Sound fs v (held v + leak)

/-- A call has a reference to `d` besides. -/
def Holding (fs : FileSystem ι σ) (v : Vfs ι σ) (leak : ℕ → ℕ) (d : ℕ) : Prop :=
  Sound fs v (bump d (held v + leak))

/-- A call ends with at least the leaks there were before. -/
def Ends (fs : FileSystem ι σ) (leak : ℕ → ℕ) (w : Vfs ι σ) : Prop := ∃ leak', leak ≤ leak' ∧ Counted fs w leak'

section Counting

variable {fs : FileSystem ι σ} {v w : Vfs ι σ} {leak : ℕ → ℕ} {d r c : ℕ} {e : Dentry}

theorem le_bump (d : ℕ) (leak : ℕ → ℕ) : leak ≤ bump d leak := fun x ↦ by
  rw [bump_apply]
  exact Nat.le_add_right _ _

theorem Counted.ends (h : Counted fs v leak) : Ends fs leak v := ⟨leak, le_rfl, h⟩

theorem Ends.trans {leak' : ℕ → ℕ} (h : Ends fs leak' w) (hle : leak ≤ leak') : Ends fs leak w := by
  obtain ⟨l, hl, hw⟩ := h
  exact ⟨l, hle.trans hl, hw⟩

/-- The root is held. -/
theorem rootHeld_held (v : Vfs ι σ) (cwd : Option ℕ) (fds : ℕ → Option File) (leak : ℕ → ℕ) :
    RootHeld v (heldBy v.sRoot cwd fds + leak) := fun r hr ↦ by
  have hpos := heldBy_root_pos r cwd fds
  rw [Pi.add_apply, hr]
  omega

/-- Other variables with other references. -/
theorem Sound.setVars {ext : ℕ → ℕ} (h : Sound fs v ext) (cwd : Option ℕ) (fds : ℕ → Option File) :
    Sound fs { v with vfsCwd := cwd, fds } ext := ⟨h.refs.congr rfl, h.owned.congr rfl rfl, h.root⟩

theorem Counted.of_sound (h : Sound fs w (held v + leak)) (hvars : SameVars v w) : Counted fs w leak := by
  rw [Counted, hvars.held_eq]
  exact h

theorem Holding.of_sound (h : Sound fs w (bump d (held v + leak))) (hvars : SameVars v w) :
    Holding fs w leak d := by
  rw [Holding, hvars.held_eq]
  exact h

/-- The reference is given back. -/
theorem Holding.dput (laws : fs.Laws) (h : Holding fs v leak d) : Counted fs (dput fs d v) leak := by
  obtain ⟨hsound, hvars⟩ := Sound.dput laws h (rootHeld_held v v.vfsCwd v.fds leak)
  exact .of_sound hsound hvars

/-- The reference is lost. -/
theorem Holding.lose (h : Holding fs v leak d) : Ends fs leak v := by
  refine ⟨bump d leak, le_bump d leak, ?_⟩
  rw [Counted, add_bump]
  exact h

theorem Counted.sRoot_ne (h : Counted fs v leak) : v.sRoot ≠ none := by
  obtain ⟨r, -, hr, -⟩ := h.root
  rw [hr]
  exact Option.some_ne_none r

/-- The root is a directory. -/
theorem Counted.root_isDir (h : Counted fs v leak) (hr : v.sRoot = some r) :
    ∃ n, v.inodeOf r = some n ∧ sIsdir (fs.iMode n.node) = true := by
  obtain ⟨r', n, hr', -, hn, hdir⟩ := h.root
  obtain rfl := Option.some_inj.1 (hr'.symm.trans hr)
  exact ⟨n, hn, hdir⟩

/-- The current directory is the root as long as none was changed to. -/
theorem Counted.getCwd (h : Counted fs v leak) (hr : v.sRoot = some r) : ∃ cwd w,
    vfsGetCwdDentry v = (some cwd, w) ∧ w.sRoot = some r ∧ w.vfsCwd = some cwd ∧ w.fds = v.fds ∧
      Counted fs w leak := by
  rw [vfsGetCwdDentry, hr]
  rcases hc : v.vfsCwd with _ | cwd
  · obtain ⟨r', n, hr', -, hn, -⟩ := h.root
    obtain rfl := Option.some_inj.1 (hr'.symm.trans hr)
    obtain ⟨i, hi, -⟩ := Option.bind_eq_some_iff.1 hn
    obtain ⟨e, hd, -⟩ := Option.bind_eq_some_iff.1 hi
    have hget := (Sound.dget h hd).setVars (some r') v.fds
    refine ⟨r', _, rfl, hr, rfl, rfl, ?_⟩
    rw [held, hc] at hget
    rw [Counted, held]
    change Sound fs _ (heldBy v.sRoot (some r') v.fds + leak)
    rw [heldBy_cwd, bump_add]
    exact hget
  · exact ⟨cwd, v, rfl, hr, hc, rfl, h⟩

/-- What a lookup leaves to a call. -/
theorem Counted.resolve (laws : fs.Laws) (h : Counted fs v leak) (start : ℕ) (path : List Byte) :
    SameVars v (resolve fs start path v).2 ∧
      match (resolve fs start path v).1 with
      | none => Counted fs (resolve fs start path v).2 leak
      | some d => Holding fs (resolve fs start path v).2 leak d := by
  have hgains := Sound.resolve laws h start path
  refine ⟨hgains.vars, ?_⟩
  have hsound := hgains.sound
  rcases hres : (Namei.resolve fs start path v).1 with _ | d
  · rw [hres] at hsound
    exact .of_sound hsound hgains.vars
  · rw [hres] at hsound
    exact .of_sound hsound hgains.vars

end Counting

/-! ### The calls on a path -/

section Calls

open PathCalls

variable {fs : FileSystemOps ι σ} {v w : Vfs ι σ} {leak : ℕ → ℕ} {root cwd t fd : ℕ} {path : List Byte}
  {name : Buf}

/-- The reference of the current directory is given back. -/
theorem Sound.leaveCwd (laws : fs.toFileSystem.Laws) (h : Holding fs.toFileSystem v leak t)
    (hc : v.vfsCwd = some cwd) :
    Sound fs.toFileSystem (MiniExt4.dput fs.toFileSystem cwd v) (bump t (heldBy v.sRoot none v.fds + leak)) ∧
      SameVars v (MiniExt4.dput fs.toFileSystem cwd v) := by
  refine Sound.dput laws ?_ ((rootHeld_held v none v.fds leak).bump t)
  rw [Holding, held, hc, heldBy_cwd, bump_add, bump_comm] at h
  exact h

/-- A reference becomes the one of the current directory. -/
theorem Sound.enterCwd (h : Sound fs.toFileSystem w (bump t (heldBy w.sRoot none w.fds + leak))) :
    Counted fs.toFileSystem { w with vfsCwd := some t } leak := by
  have hset := h.setVars (some t) w.fds
  rw [← bump_add, ← heldBy_cwd] at hset
  exact hset

/-- The change to a directory, with a reference to it. -/
theorem Holding.changeCwd (laws : fs.toFileSystem.Laws) (h : Holding fs.toFileSystem v leak t)
    (hc : v.vfsCwd = some cwd) :
    Counted fs.toFileSystem { MiniExt4.dput fs.toFileSystem cwd v with vfsCwd := some t } leak := by
  obtain ⟨hsound, hvars⟩ := Sound.leaveCwd laws h hc
  rw [← hvars.sRoot, ← hvars.fds] at hsound
  exact hsound.enterCwd

/-- `vfs_chdir` of a dentry that a lookup has found. -/
theorem Holding.chdirTo (laws : fs.toFileSystem.Laws) (h : Holding fs.toFileSystem v leak t)
    (hc : v.vfsCwd = some cwd) : Ends fs.toFileSystem leak (chdirTo fs root cwd t v).2 := by
  rw [PathCalls.chdirTo]
  split
  · exact (h.dput laws).ends
  split
  · exact (h.dput laws).ends
  split
  · dsimp only
    split
    · exact (h.dput laws).ends
    · exact h.lose
  -- The lookup's reference and the one of `dget`.
  obtain ⟨e, hd⟩ := Refs.exists_of_bump h.refs
  have htwo : Holding fs.toFileSystem (dget t v) (bump t leak) t := by
    rw [Holding, add_bump]
    exact Sound.dget h hd
  dsimp only
  split
  · obtain ⟨hsound, hvars⟩ := Sound.leaveCwd laws htwo hc
    rw [add_bump] at hsound
    obtain ⟨hlast, hvars'⟩ := hsound.dput laws
      ((((rootHeld_held v none v.fds leak).of_sameVars (SameVars.dget v t)).of_sameVars hvars).bump t)
    have hall := ((SameVars.dget v t).trans hvars).trans hvars'
    change Sound _ _ (bump t (heldBy v.sRoot none v.fds + leak)) at hlast
    rw [← hall.sRoot, ← hall.fds] at hlast
    exact hlast.enterCwd.ends
  · exact ⟨bump t leak, le_bump t leak, htwo.changeCwd laws hc⟩

/-- `cd /` -/
theorem Counted.chdirRoot (laws : fs.toFileSystem.Laws) (h : Counted fs.toFileSystem v leak)
    (hr : v.sRoot = some root) (hc : v.vfsCwd = some cwd) :
    Counted fs.toFileSystem (chdirTo fs root cwd root v).2 leak := by
  obtain ⟨n, hn, hdir⟩ := h.root_isDir hr
  rw [PathCalls.chdirTo, hn]
  dsimp only
  rw [if_neg (by rw [hdir]; exact Bool.noConfusion)]
  obtain ⟨i, hi, -⟩ := Option.bind_eq_some_iff.1 hn
  obtain ⟨e, hd, -⟩ := Option.bind_eq_some_iff.1 hi
  split
  · dsimp only
    rw [if_neg (not_not_intro rfl)]
    exact h
  · have hget : Holding fs.toFileSystem (dget root v) leak root := Sound.dget h hd
    dsimp only
    rw [if_neg (not_not_intro rfl)]
    exact hget.changeCwd laws hc

/-- The calls start with the root and the current directory. -/
theorem Counted.withCwd {α : Type} {error : ℤ → α} {go : ℕ → ℕ → Vfs ι σ → Touch (α × Vfs ι σ)}
    {P : Vfs ι σ → Prop} (h : Counted fs.toFileSystem v leak)
    (hgo : ∀ root cwd w, w.sRoot = some root → w.vfsCwd = some cwd → Counted fs.toFileSystem w leak →
      P (go root cwd w).val.2) : P (withCwd error v go).val.2 := by
  rw [PathCalls.withCwd]
  rcases hr : v.sRoot with _ | root
  · exact absurd hr h.sRoot_ne
  · obtain ⟨cwd, w, hget, hrw, hcw, -, hw⟩ := h.getCwd hr
    rw [hget]
    exact hgo root cwd w hrw hcw hw

/-- A call that looks its path up. -/
theorem Counted.atPath {α : Type} {error : ℤ → α} {go : ℕ → Vfs ι σ → α × Vfs ι σ} {P : Vfs ι σ → Prop}
    (laws : fs.toFileSystem.Laws) (h : Counted fs.toFileSystem v leak)
    (hnone : ∀ w, SameVars v w → Counted fs.toFileSystem w leak → P w)
    (hsome : ∀ t w, SameVars v w → Holding fs.toFileSystem w leak t → P (go t w).2) :
    P (atPath fs error root cwd path name go v).val.2 := by
  obtain ⟨hvars, hres⟩ := h.resolve laws (if path.head? = some slash then root else cwd) path
  rw [PathCalls.atPath, val_bind, lookupFrom, val_vfsPathLookup]
  rcases hr : Namei.resolve fs.toFileSystem (if path.head? = some slash then root else cwd) path v with ⟨_ | t, w⟩
  · rw [hr] at hvars hres
    exact hnone w hvars hres
  · rw [hr] at hvars hres
    exact hsome t w hvars hres

/-- `vfs_chdir` -/
theorem Counted.vfsChdir (laws : fs.toFileSystem.Laws) (h : Counted fs.toFileSystem v leak) :
    Ends fs.toFileSystem leak (vfsChdir fs path name v).val.2 := by
  rw [MiniExt4.vfsChdir]
  split
  · exact h.ends
  refine h.withCwd fun root cwd w hr hc hw ↦ ?_
  split
  · exact (hw.chdirRoot laws hr hc).ends
  · exact hw.atPath laws (fun _ _ hu ↦ hu.ends) fun t u hvars hu ↦ hu.chdirTo laws (hvars.vfsCwd.trans hc)

/-- `vfs_stat` -/
theorem Counted.vfsStat (laws : fs.toFileSystem.Laws) (h : Counted fs.toFileSystem v leak) :
    Counted fs.toFileSystem (vfsStat fs path name v).val.2 leak := by
  rw [MiniExt4.vfsStat]
  split
  · exact h
  refine h.withCwd fun root cwd w _ _ hw ↦ hw.atPath laws (fun _ _ hu ↦ hu) fun t u _ hu ↦ ?_
  rw [statAt]
  split
  · exact hu.dput laws
  · exact hu.dput laws

/-- The removal of a dentry that is not the root. -/
theorem Holding.removeIn {op : ι → Option (ℕ → ℕ → Vfs ι σ → ℤ × Vfs ι σ)} (laws : fs.toFileSystem.Laws)
    (hop : ∀ {n f}, op n = some f → ∀ dir d v,
      Quiet fs.toFileSystem v (f dir d v).2 ∨ Unhooks fs.toFileSystem d v (f dir d v).2)
    (h : Holding fs.toFileSystem v leak t) (hroot : v.sRoot ≠ some t) :
    Counted fs.toFileSystem (removeIn fs op t v).2 leak := by
  rw [PathCalls.removeIn]
  split
  · exact h.dput laws
  next dir f hf =>
    obtain ⟨p, -, hp⟩ := Option.bind_eq_some_iff.1 hf
    obtain ⟨i, -, hi⟩ := Option.bind_eq_some_iff.1 hp
    obtain ⟨f', hn, heq⟩ := Option.map_eq_some_iff.1 hi
    obtain ⟨n, -, hnf⟩ := Option.bind_eq_some_iff.1 hn
    obtain ⟨rfl, rfl⟩ := Prod.mk.inj heq
    obtain ⟨e, hd⟩ := Refs.exists_of_bump h.refs
    have hheld : Holding fs.toFileSystem (f' i t v).2 leak t := by
      rcases hop hnf i t v with hq | hu
      · exact .of_sound (Sound.quiet h hq) hq.vars
      · exact .of_sound (Sound.unhooks h hd hroot hu) hu.vars
    exact hheld.dput laws

/-- `vfs_rmdir` -/
theorem Counted.vfsRmdir (laws : fs.toFileSystem.Laws) (ops : fs.CallLaws)
    (h : Counted fs.toFileSystem v leak) : Counted fs.toFileSystem (vfsRmdir fs path name v).val.2 leak := by
  rw [MiniExt4.vfsRmdir]
  split
  · exact h
  split
  · exact h
  refine h.withCwd fun root cwd w hr _ hw ↦ hw.atPath laws (fun _ _ hu ↦ hu) fun t u hvars hu ↦ ?_
  rw [rmdirAt]
  split
  · exact hu.dput laws
  split
  · exact hu.dput laws
  split
  · exact hu.dput laws
  next hne =>
    refine hu.removeIn laws ops.rmdir fun ht ↦ hne (Or.inl ?_)
    exact (Option.some_inj.1 ((hvars.sRoot.trans hr).symm.trans ht)).symm

/-- `vfs_unlink` -/
theorem Counted.vfsUnlink (laws : fs.toFileSystem.Laws) (ops : fs.CallLaws)
    (h : Counted fs.toFileSystem v leak) : Ends fs.toFileSystem leak (vfsUnlink fs path name v).val.2 := by
  rw [MiniExt4.vfsUnlink]
  split
  · exact h.ends
  split
  · exact h.ends
  refine h.withCwd fun root cwd w _ _ hw ↦ hw.atPath laws (fun _ _ hu ↦ hu.ends) fun t u _ hu ↦ ?_
  rw [unlinkAt]
  split
  · exact hu.lose
  split
  · exact (hu.dput laws).ends
  next n hn hdir =>
    refine (hu.removeIn laws ops.unlink fun ht ↦ hdir ?_).ends
    -- The root is a directory.
    obtain ⟨r, m, hr, -, hm, hmdir⟩ := Sound.root hu
    obtain rfl := Option.some_inj.1 (hr.symm.trans ht)
    obtain rfl := Option.some_inj.1 (hm.symm.trans hn)
    exact hmdir

/-- `vfs_close` -/
theorem Counted.vfsClose (laws : fs.toFileSystem.Laws) (ops : fs.CallLaws)
    (h : Counted fs.toFileSystem v leak) : Counted fs.toFileSystem (vfsClose fs fd v).2 leak := by
  rw [MiniExt4.vfsClose]
  split
  · exact h
  next f hf =>
    have hfd : fd < maxFd := by
      by_contra hge
      rw [if_neg hge] at hf
      exact absurd hf.symm (Option.some_ne_none f)
    rw [if_pos hfd] at hf
    have hq := ops.release f v
    have hrel : Sound fs.toFileSystem (fs.release f v)
        (bump f.fPathDentry (heldBy v.sRoot v.vfsCwd (Function.update v.fds fd none) + leak)) := by
      rw [← bump_add, ← heldBy_close hfd hf]
      exact Sound.quiet h hq
    obtain ⟨hsound, hvars⟩ := hrel.dput laws
      ((rootHeld_held v v.vfsCwd (Function.update v.fds fd none) leak).of_sameVars hq.vars)
    have hall := hq.vars.trans hvars
    have hset := hsound.setVars (MiniExt4.dput fs.toFileSystem f.fPathDentry (fs.release f v)).vfsCwd
      (Function.update (MiniExt4.dput fs.toFileSystem f.fPathDentry (fs.release f v)).fds fd none)
    rw [← hall.sRoot, ← hall.vfsCwd, ← hall.fds] at hset
    exact hset

end Calls

/-! ### The calls that create -/

section Create

open Create

variable {fs : FileSystemOps ι σ} {v w : Vfs ι σ} {ext leak : ℕ → ℕ} {root cwd t fd parent mode flags : ℕ}
  {path rel last sep : List Byte} {name name' parentBuf : Buf} {α β : Type} {P : β × Vfs ι σ → Prop}
  {error : ℤ → β}

/-- A dentry with a reference from outside is in the cache. -/
theorem Refs.live (h : Refs v ext) (hpos : 0 < ext t) : ∃ e, v.dcache t = some e := by
  refine Option.ne_none_iff_exists'.1 fun hnone ↦ ?_
  have hzero := h.free hnone
  omega

/-- The root and the current directory are in the cache. -/
theorem Counted.live (h : Counted fs.toFileSystem v leak) (ht : v.sRoot = some t ∨ v.vfsCwd = some t) :
    ∃ e, v.dcache t = some e := by
  refine Sound.refs h |>.live ?_
  rw [Pi.add_apply, held, heldBy]
  rcases ht with ht | ht
  · rw [if_pos ht]
    omega
  · rw [if_pos ht]
    omega

/-- The new dentry in the directory `parent`. -/
theorem Sound.entryIn {op : InodeOperations ι σ → Option α} {noOp : Vfs ι σ → Vfs ι σ}
    {make : ℕ → α → ℕ → Vfs ι σ → β × Vfs ι σ} {ep : Dentry} (h : Sound fs.toFileSystem v ext)
    (hp : v.dcache parent = some ep) (hstay : ∀ z, P (error z, v)) (hnoOp : ∀ z, P (error z, noOp v))
    (hmake : ∀ {dir n ops f child w e}, fs.iOp n = some ops → op ops = some f →
      Sound fs.toFileSystem w (bump child ext) → SameVars v w → w.dcache child = some e → e.dInode = none →
      e.dParent = some parent → parent ≠ child → P (make dir f child w)) :
    P (entryIn fs.toFileSystem op error noOp make parent last name v).val := by
  rw [Create.entryIn, val_bind]
  split
  · exact hstay _
  split
  · exact hnoOp _
  next len b _ _ dir f hop =>
    rw [val_bind, val_bind]
    obtain ⟨i, -, hi⟩ := Option.bind_eq_some_iff.1 hop
    obtain ⟨n, -, hn⟩ := Option.bind_eq_some_iff.1 hi
    obtain ⟨ops, hops, hf⟩ := Option.bind_eq_some_iff.1 hn
    obtain ⟨f', hf', heq⟩ := Option.bind_eq_some_iff.1 hf
    obtain ⟨rfl, rfl⟩ := Prod.mk.inj (Option.some_inj.1 heq)
    rcases dAlloc_cases parent (qstrInit b len).val v with hnone | ⟨child, e, hfree, hlt, hnew, -, hsome⟩
    · rw [hnone]
      exact hstay _
    · rw [hsome]
      have hpc := ne_of_free hp hfree
      refine hmake hops hf' (h.dAlloc hp hfree hlt hnew) ⟨rfl, rfl, rfl⟩ ?_ hnew.inode hnew.parent hpc
      rw [MiniExt4.dget, Vfs.dcache_modifyDentry_of_ne hpc.symm]
      exact Function.update_self ..

/-- The way to the parent directory of a new entry. -/
theorem Counted.entryAt {notDir : ℕ → Vfs ι σ → Vfs ι σ}
    {inDir : Bool → ℕ → List Byte → Vfs ι σ → Touch (β × Vfs ι σ)} (laws : fs.toFileSystem.Laws)
    (h : Counted fs.toFileSystem v leak) (hhere : ∀ last, P (inDir false t last v).val)
    (hstay : ∀ z w, SameVars v w → Counted fs.toFileSystem w leak → P (error z, w))
    (hfound : ∀ parent w, SameVars v w → Holding fs.toFileSystem w leak parent →
      (∀ z, P (error z, w)) ∧ (∀ z, P (error z, notDir parent w)) ∧ ∀ last, P (inDir true parent last w).val) :
    P (entryAt fs.toFileSystem error notDir inDir t rel name' parentBuf v).val := by
  rw [Create.entryAt]
  split
  · exact hhere rel
  next sep _ =>
    rw [entryBelow]
    split
    · exact hstay _ v (.refl v) h
    rw [val_bind, val_bind, lookupParent, val_vfsPathLookup]
    generalize (List.range (rel.length - sep.length)).map _ = path
    obtain ⟨hvars, hres⟩ := h.resolve laws t path
    rcases hr : Namei.resolve fs.toFileSystem t path v with ⟨_ | parent, w⟩
    · rw [hr] at hvars hres
      exact hstay _ w hvars hres
    · rw [hr] at hvars hres
      obtain ⟨hlost, hnot, hin⟩ := hfound parent w hvars hres
      dsimp only
      split
      · exact hlost _
      split
      · exact hnot _
      split
      · exact hlost _
      · exact hin _

/-- `vfs_mkdir` from the copy of the name on: the parent's reference is given back, or lost. -/
theorem Sound.mkdirIn {fromLookup : Bool} {ep : Dentry} (laws : fs.toFileSystem.Laws) (ops : fs.CallLaws)
    (h : Sound fs.toFileSystem v ext) (hroot : RootHeld v ext) (hp : v.dcache parent = some ep)
    (hlost : Ends fs.toFileSystem leak v)
    (hback : ∀ w, SameVars v w → Sound fs.toFileSystem w ext →
      Ends fs.toFileSystem leak (dputIf fs.toFileSystem fromLookup parent w)) :
    Ends fs.toFileSystem leak (mkdirIn fs.toFileSystem mode name fromLookup parent last v).val.2 := by
  refine h.entryIn (P := fun r ↦ Ends fs.toFileSystem leak r.2) hp (fun _ ↦ hlost) (fun _ ↦ hback v (.refl v) h) ?_
  intro dir n iops f child w e hops hf hw hvars hchild hnone hpar hpc
  obtain ⟨hmade, hvars'⟩ := hw.makes hchild hnone hpar hpc (ops.mkdir hops hf dir child mode w)
  obtain ⟨hsound, hvars''⟩ := hmade.dput laws ((hroot.of_sameVars hvars).of_sameVars hvars')
  exact hback _ ((hvars.trans hvars').trans hvars'') hsound

/-- `vfs_mkdir` -/
theorem Counted.vfsMkdir (laws : fs.toFileSystem.Laws) (ops : fs.CallLaws)
    (h : Counted fs.toFileSystem v leak) :
    Ends fs.toFileSystem leak (vfsMkdir fs.toFileSystem path mode name name' parentBuf v).val.2 := by
  rw [MiniExt4.vfsMkdir]
  split
  · exact h.ends
  rcases hr : v.sRoot with _ | root
  · exact absurd hr h.sRoot_ne
  dsimp only
  split
  · exact h.ends
  obtain ⟨cwd, w, hget, hrw, hcw, -, hw⟩ := h.getCwd hr
  rw [hget]
  dsimp only
  split
  · exact hw.ends
  have hstart : w.sRoot = some (if path.head? = some slash then root else cwd) ∨
      w.vfsCwd = some (if path.head? = some slash then root else cwd) := by
    split
    · exact Or.inl hrw
    · exact Or.inr hcw
  obtain ⟨ep, hep⟩ := hw.live hstart
  refine hw.entryAt (P := fun r ↦ Ends fs.toFileSystem leak r.2) laws (fun last ↦ ?_) (fun _ _ _ hu ↦ hu.ends)
    fun parent u _ hu ↦ ⟨fun _ ↦ hu.lose, fun _ ↦ (hu.dput laws).ends, fun last ↦ ?_⟩
  · exact Sound.mkdirIn laws ops hw (rootHeld_held w w.vfsCwd w.fds leak) hep hw.ends
      fun x hvars hx ↦ (Counted.of_sound hx hvars).ends
  · obtain ⟨eu, hpu⟩ := Refs.exists_of_bump hu.refs
    exact Sound.mkdirIn laws ops hu ((rootHeld_held u u.vfsCwd u.fds leak).bump parent) hpu hu.lose
      fun x hvars hx ↦ ((Holding.of_sound hx hvars).dput laws).ends

/-- The creation in `vfs_open` ends with a reference to the new dentry, or without. -/
def Opens (fs : FileSystem ι σ) (v : Vfs ι σ) (leak : ℕ → ℕ) (r : Except ℤ ℕ × Vfs ι σ) : Prop :=
  SameVars v r.2 ∧
    match r.1 with
    | .error _ => Ends fs leak r.2
    | .ok t => ∃ leak', leak ≤ leak' ∧ Holding fs r.2 leak' t

/-- The creation from the copy of the name on: the parent's reference, if there is one, is lost. -/
theorem Counted.createIn {leak' : ℕ → ℕ} {fromLookup : Bool} {ep : Dentry} (laws : fs.toFileSystem.Laws)
    (ops : fs.CallLaws) (h : Counted fs.toFileSystem v leak') (hle : leak ≤ leak')
    (hp : v.dcache parent = some ep) :
    Opens fs.toFileSystem v leak (createIn fs.toFileSystem flags mode name fromLookup parent last v).val := by
  have hstay : ∀ z, Opens fs.toFileSystem v leak (.error z, v) := fun _ ↦ ⟨.refl v, leak', hle, h⟩
  refine Sound.entryIn h hp hstay hstay fun {dir n iops f child w e} hops hf hw hvars hchild hnone hpar hpc ↦ ?_
  obtain ⟨hmade, hvars'⟩ := hw.makes hchild hnone hpar hpc (ops.create hops hf dir child mode _ w)
  dsimp only
  split
  · exact ⟨hvars.trans hvars', leak', hle, .of_sound hmade (hvars.trans hvars')⟩
  · obtain ⟨hsound, hvars''⟩ := hmade.dput laws
      (((rootHeld_held v v.vfsCwd v.fds leak').of_sameVars hvars).of_sameVars hvars')
    have hall := (hvars.trans hvars').trans hvars''
    exact ⟨hall, leak', hle, .of_sound hsound hall⟩

theorem Opens.of_sameVars {r : Except ℤ ℕ × Vfs ι σ} (h : Opens fs.toFileSystem w leak r) (hvars : SameVars v w) :
    Opens fs.toFileSystem v leak r := ⟨hvars.trans h.1, h.2⟩

/-- The creation in `vfs_open`. -/
theorem Counted.openCreate (laws : fs.toFileSystem.Laws) (ops : fs.CallLaws)
    (h : Counted fs.toFileSystem v leak) (hr : v.sRoot = some root) (hc : v.vfsCwd = some cwd) :
    Opens fs.toFileSystem v leak
      (openCreate fs.toFileSystem root cwd path flags mode name name' parentBuf v).val := by
  have hend : ∀ z w, SameVars v w → Ends fs.toFileSystem leak w → Opens fs.toFileSystem v leak (.error z, w) :=
    fun _ _ hvars hw ↦ ⟨hvars, hw⟩
  rw [Create.openCreate]
  split
  · exact hend _ v (.refl v) h.ends
  dsimp only
  split
  · exact hend _ v (.refl v) h.ends
  have hstart : v.sRoot = some (if path.head? = some slash then root else cwd) ∨
      v.vfsCwd = some (if path.head? = some slash then root else cwd) := by
    split
    · exact Or.inl hr
    · exact Or.inr hc
  obtain ⟨ep, hep⟩ := h.live hstart
  refine h.entryAt laws (fun last ↦ h.createIn laws ops le_rfl hep) (fun z w hvars hw ↦ hend z w hvars hw.ends)
    fun parent w hvars hw ↦ ?_
  obtain ⟨ew, hpw⟩ := Refs.exists_of_bump hw.refs
  have hlost : Counted fs.toFileSystem w (bump parent leak) := by
    rw [Counted, add_bump]
    exact hw
  refine ⟨fun z ↦ hend z w hvars hw.lose, fun z ↦ hend z w hvars hw.lose, fun last ↦ ?_⟩
  exact (hlost.createIn laws ops (le_bump parent leak) hpw).of_sameVars hvars

/-- The end of `vfs_open`: the file takes the reference over. -/
theorem Holding.openFile (laws : fs.toFileSystem.Laws) (ops : fs.CallLaws)
    (h : Holding fs.toFileSystem v leak t) (hfd : fd < maxFd) (hfree : v.fds fd = none) :
    Ends fs.toFileSystem leak (openFile fs.toFileSystem fd t flags mode v).2 := by
  have henter : ∀ {w : Vfs ι σ} {f : File}, Holding fs.toFileSystem w leak t → SameVars v w → f.fPathDentry = t →
      Counted fs.toFileSystem { w with fds := Function.update w.fds fd (some f) } leak := by
    intro w f hw hvars hf
    have hset := Sound.setVars hw w.vfsCwd (Function.update w.fds fd (some f))
    rw [← hf, held, ← bump_add, ← heldBy_open hfd (by rw [hvars.fds, hfree])] at hset
    exact hset
  rw [Create.openFile]
  split
  · exact h.lose
  next i hi =>
    dsimp only
    split
    · exact (henter h (.refl v) rfl).ends
    next fopOpen hop =>
      obtain ⟨n, -, hn⟩ := Option.bind_eq_some_iff.1 hop
      obtain ⟨hq, hpath⟩ := ops.fopOpen hn i ⟨i, t, 0, flags, mode, 1⟩ v
      have hopened := Holding.of_sound (Sound.quiet h hq) hq.vars
      split
      · exact (hopened.dput laws).ends
      · exact (henter hopened hq.vars hpath).ends

/-- What `vfs_open` does after the creation. -/
theorem Opens.openFile {r : Except ℤ ℕ × Vfs ι σ} (laws : fs.toFileSystem.Laws) (ops : fs.CallLaws)
    (h : Opens fs.toFileSystem v leak r) (hfd : fd < maxFd) (hfree : v.fds fd = none) :
    match r.1 with
    | .error _ => Ends fs.toFileSystem leak r.2
    | .ok t => Ends fs.toFileSystem leak (MiniExt4.Create.openFile fs.toFileSystem fd t flags mode r.2).2 := by
  obtain ⟨hvars, hend⟩ := h
  split at hend
  · exact hend
  · obtain ⟨leak', hle, hhold⟩ := hend
    exact (hhold.openFile laws ops hfd (by rw [hvars.fds, hfree])).trans hle

/-- `vfs_open` on a path that it looks up. -/
theorem Counted.vfsOpen (laws : fs.toFileSystem.Laws) (ops : fs.CallLaws)
    (h : Counted fs.toFileSystem v leak) (hnil : path ≠ []) (hslash : path ≠ [slash]) :
    Ends fs.toFileSystem leak (vfsOpen fs.toFileSystem path flags mode name name' parentBuf v).val.2 := by
  rw [MiniExt4.vfsOpen]
  rcases hfree : freeFd v with _ | fd
  · exact h.ends
  have hnone := List.find?_some hfree
  have hfd : fd < maxFd := List.mem_range.1 (List.mem_of_find?_eq_some hfree)
  have hslot : v.fds fd = none := Option.isNone_iff_eq_none.1 hnone
  rcases hr : v.sRoot with _ | root
  · exact absurd hr h.sRoot_ne
  obtain ⟨cwd, w, hget, hrw, hcw, hfds, hw⟩ := h.getCwd hr
  rw [hget]
  dsimp only
  rw [hrw]
  dsimp only
  rw [val_bind, openTarget, if_neg hnil, if_neg hslash, val_vfsPathLookup]
  obtain ⟨hvars, hres⟩ := hw.resolve laws (if path.head? = some slash then root else cwd) path
  rcases hfound : Namei.resolve fs.toFileSystem (if path.head? = some slash then root else cwd) path w with ⟨t, u⟩
  rw [hfound] at hvars hres
  have hfd' : u.fds fd = none := by rw [hvars.fds, hfds, hslot]
  dsimp only at hvars hres ⊢
  split
  next target ht =>
    obtain ⟨t', rfl, ht'⟩ := Option.bind_eq_some_iff.1 ht
    obtain ⟨i, -, rfl⟩ := Option.map_eq_some_iff.1 ht'
    exact hres.openFile laws ops hfd hfd'
  next ht =>
    -- A dentry without inode is not found, and its reference is lost.
    obtain ⟨leak₁, hle, hcount⟩ : Ends fs.toFileSystem leak u := by
      rcases t with _ | t
      · exact Counted.ends hres
      · exact hres.lose
    split
    · exact ⟨leak₁, hle, hcount⟩
    · have hopens :=
        @Counted.openCreate _ _ fs u leak₁ root cwd mode flags path name name' parentBuf laws ops hcount
        (hvars.sRoot.trans hrw) (hvars.vfsCwd.trans hcw)
      have hend := @Opens.openFile _ _ fs u leak₁ fd mode flags _ laws ops hopens hfd hfd'
      rw [val_bind]
      rcases hz : (Create.openCreate fs.toFileSystem root cwd path flags mode name name' parentBuf u).val with
        ⟨z | target, x⟩ <;> rw [hz] at hend
      · exact hend.trans hle
      · exact hend.trans hle

end Create

/-! ### Runs -/

/-- A call that opens a file by a path it looks up, or another call. -/
def VfsCall.LooksUp : VfsCall → Prop
  | .open path .. => path ≠ [] ∧ path ≠ [slash]
  | _ => True

section Runs

variable {fs : FileSystemOps ι σ} {v : Vfs ι σ} {leak : ℕ → ℕ} {call : VfsCall}

/-- One call. -/
theorem Counted.run (laws : fs.toFileSystem.Laws) (ops : fs.CallLaws) (h : Counted fs.toFileSystem v leak)
    (hcall : call.LooksUp) : Ends fs.toFileSystem leak (call.run fs v) := by
  cases call with
  | «open» path flags mode name name' parentBuf => exact h.vfsOpen laws ops hcall.1 hcall.2
  | close fd => exact (h.vfsClose laws ops).ends
  | mkdir path mode name name' parentBuf => exact h.vfsMkdir laws ops
  | chdir path name => exact h.vfsChdir laws
  | unlink path name => exact h.vfsUnlink laws ops
  | rmdir path name => exact (h.vfsRmdir laws ops).ends
  | stat path name => exact (h.vfsStat laws).ends

/-- A run of calls. -/
theorem Counted.runAll (laws : fs.toFileSystem.Laws) (ops : fs.CallLaws) (h : Counted fs.toFileSystem v leak)
    {calls : List VfsCall} (hcalls : ∀ call ∈ calls, call.LooksUp) :
    Ends fs.toFileSystem leak (VfsCall.runAll fs calls v) := by
  induction calls generalizing v leak with
  | nil => exact h.ends
  | cons call calls ih =>
    obtain ⟨leak', hle, hcount⟩ := h.run laws ops (hcalls call List.mem_cons_self)
    exact (ih hcount fun c hc ↦ hcalls c (List.mem_cons_of_mem call hc)).trans hle

/-- A call that gives all its references back. -/
def VfsCall.GivesBack : VfsCall → Prop
  | .close _ | .rmdir .. | .stat .. => True
  | _ => False

/-- Calls that give their references back leave the leaks as they are. -/
theorem Counted.runAll_of_givesBack (laws : fs.toFileSystem.Laws) (ops : fs.CallLaws)
    (h : Counted fs.toFileSystem v leak) {calls : List VfsCall} (hcalls : ∀ call ∈ calls, call.GivesBack) :
    Counted fs.toFileSystem (VfsCall.runAll fs calls v) leak := by
  induction calls generalizing v with
  | nil => exact h
  | cons call calls ih =>
    refine ih ?_ fun c hc ↦ hcalls c (List.mem_cons_of_mem call hc)
    have hcall := hcalls call List.mem_cons_self
    cases call with
    | close fd => exact h.vfsClose laws ops
    | rmdir path name => exact h.vfsRmdir laws ops
    | stat path name => exact h.vfsStat laws
    | _ => exact hcall.elim

end Runs

end MiniExt4
