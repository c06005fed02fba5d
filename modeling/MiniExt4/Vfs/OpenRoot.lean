import MiniExt4.Vfs.Ext4Calls

/-!
# Opening the root (`fs/open.c`)

`vfs_open` takes no reference where the path is `"/"`, and `vfs_close` gives one back. So each pair of
these calls takes away one of the references to the root that somebody holds, and as many pairs as the root
has references free it. The superblock and the current directory still point to it then.

`RootAt` follows the root through one pair of calls: while it has more than one reference a pair takes one
of them (`RootAt.openClose`), and the pair that takes the last frees the dentry (`RootAt.free`). Two
conditions come from the walk, that the path is found and that a descriptor is free, and they hold after a
mount.
-/

namespace MiniExt4

open Touch Namei

variable {ι σ : Type} {fs : FileSystemOps ι σ}

/-- A call of `vfs_open` on `"/"`. -/
def VfsCall.OpensRoot : VfsCall → Prop
  | .open path .. => path = [slash]
  | _ => False

/-- Each of the calls, and `vfs_close(fd)` after it. -/
def openClose (fd : ℕ) (opens : List VfsCall) : List VfsCall := opens.flatMap fun call ↦ [call, .close fd]

/-- The root is in the cache and has an inode. Once there is a current directory it has `n` references. -/
structure RootAt (v : Vfs ι σ) (r fd n : ℕ) : Prop where
  sRoot : v.sRoot = some r
  freeFd : freeFd v = some fd
  root : ∃ e, v.dcache r = some e ∧ e.dInode ≠ none ∧ e.dCount + (if v.vfsCwd = none then 1 else 0) = n

section Rounds

variable {u v w : Vfs ι σ} {r fd n : ℕ} {call : VfsCall}

/-- A dentry that is not in the cache is not put there. -/
theorem dcache_dputUp_none {fs : FileSystem ι σ} (laws : fs.Laws) {x : ℕ} (fuel d : ℕ) {v : Vfs ι σ}
    (h : v.dcache x = none) : (dputUp fs fuel d v).dcache x = none := by
  induction fuel generalizing d v with
  | zero => exact h
  | succ fuel ih =>
    rcases hd : v.dcache d with _ | e
    · rwa [dputUp_of_none hd]
    by_cases hcount : 1 < e.dCount
    · rw [dputUp_of_one_lt hd hcount]
      exact Vfs.modifyDentry_eq_none_iff.2 h
    · have hrel := (release_eq_none_iff (e := e) (d := d) laws).2 (Or.inr h)
      rw [dputUp_of_le_one hd (Nat.not_lt.1 hcount)]
      split
      · exact hrel
      · split
        · exact ih _ hrel
        · exact hrel

/-- The last reference is given back. -/
theorem dput_of_dCount_eq_one {fs : FileSystem ι σ} (laws : fs.Laws) {d : ℕ} {e : Dentry} {v : Vfs ι σ}
    (hd : v.dcache d = some e) (hcount : e.dCount = 1) : (dput fs d v).dcache d = none := by
  have hrel := (release_eq_none_iff (e := e) (d := d) (v := v) laws).2 (Or.inl rfl)
  rw [dput, show dcacheMaxDentries = 255 + 1 from rfl, dputUp_of_le_one hd hcount.le]
  split
  · exact hrel
  · split
    · exact dcache_dputUp_none laws _ _ hrel
    · exact hrel

/-- `dput` changes the caches and the filesystem only. -/
theorem sameVars_dputUp {fs : FileSystem ι σ} (laws : fs.Laws) (fuel d : ℕ) (v : Vfs ι σ) :
    SameVars v (dputUp fs fuel d v) := by
  induction fuel generalizing d v with
  | zero => exact .refl v
  | succ fuel ih =>
    rcases hd : v.dcache d with _ | e
    · rw [dputUp_of_none hd]
      exact .refl v
    by_cases hcount : 1 < e.dCount
    · rw [dputUp_of_one_lt hd hcount]
      exact ⟨rfl, rfl, rfl⟩
    · have hrel := @sameVars_release _ _ fs v d e laws
      rw [dputUp_of_le_one hd (Nat.not_lt.1 hcount)]
      split
      · exact hrel
      · split
        · exact hrel.trans (ih _ _)
        · exact hrel

/-- From now on there is a current directory. -/
theorem RootAt.getCwd (h : RootAt v r fd n) : ∃ c, (vfsGetCwdDentry v).1 = some c ∧
    RootAt (vfsGetCwdDentry v).2 r fd n ∧ (vfsGetCwdDentry v).2.vfsCwd = some c ∧
      (vfsGetCwdDentry v).2.fds = v.fds := by
  obtain ⟨e, hd, hi, hcount⟩ := h.root
  rw [vfsGetCwdDentry, h.sRoot]
  rcases hc : v.vfsCwd with _ | c
  · rw [hc, if_pos rfl] at hcount
    refine ⟨r, rfl, ⟨h.sRoot, h.freeFd, { e with dCount := e.dCount + 1 }, ?_, hi, hcount⟩, rfl, rfl⟩
    change (dget r v).dcache r = _
    rw [dget, Vfs.dcache_modifyDentry, Function.update_self, hd]
    rfl
  · exact ⟨c, rfl, h, hc, rfl⟩

/-- The contents of inodes do not matter. -/
theorem RootAt.quiet (h : RootAt v r fd n) (hq : Quiet fs.toFileSystem v w) : RootAt w r fd n := by
  refine ⟨hq.vars.sRoot.trans h.sRoot, ?_, by rw [hq.dcache, hq.vars.vfsCwd]; exact h.root⟩
  rw [MiniExt4.freeFd, hq.vars.fds]
  exact h.freeFd

/-- `"/"` is opened without a reference, or the operation of the filesystem fails and gives one back. -/
theorem RootAt.vfsOpen (ops : fs.CallLaws) (h : RootAt v r fd n) (hcall : call.OpensRoot) :
    ∃ u, RootAt u r fd n ∧ u.vfsCwd ≠ none ∧ (call.run fs v = dput fs.toFileSystem r u ∨
      ∃ f : File, f.fPathDentry = r ∧ call.run fs v = { u with fds := Function.update u.fds fd (some f) }) := by
  cases call with
  | «open» path flags mode name name' parentBuf =>
    obtain rfl : path = [slash] := hcall
    obtain ⟨c, hget, hw, hcw, hfds⟩ := h.getCwd
    obtain ⟨e, hd, hi, -⟩ := hw.root
    obtain ⟨i, hei⟩ := Option.ne_none_iff_exists'.1 hi
    have hri := (Vfs.dInode_of_some hd).trans hei
    have hcwd : (vfsGetCwdDentry v).2.vfsCwd ≠ none := by rw [hcw]; exact Option.some_ne_none c
    rw [VfsCall.run, MiniExt4.vfsOpen, h.freeFd]
    dsimp only
    rw [hw.sRoot, hget]
    dsimp only
    rw [val_bind, Create.openTarget, if_neg (List.cons_ne_nil _ _), if_pos rfl]
    simp only [Touch.val_pure, Option.bind_some, hri, Option.map_some]
    rw [Create.openFile, hri]
    dsimp only
    split
    · exact ⟨_, hw, hcwd, Or.inr ⟨_, rfl, rfl⟩⟩
    next fopOpen hop =>
      obtain ⟨m, -, hm⟩ := Option.bind_eq_some_iff.1 hop
      obtain ⟨hq, hpath⟩ := ops.fopOpen hm i ⟨i, r, 0, flags, mode, 1⟩ (vfsGetCwdDentry v).2
      refine ⟨_, hw.quiet hq, by rw [hq.vars.vfsCwd]; exact hcwd, ?_⟩
      split
      · exact Or.inl rfl
      · exact Or.inr ⟨_, hpath, rfl⟩
  | _ => exact hcall.elim

theorem RootAt.free (h : RootAt v r fd n) : fd < maxFd ∧ v.fds fd = none :=
  ⟨List.mem_range.1 (List.mem_of_find?_eq_some h.freeFd),
    Option.isNone_iff_eq_none.1 (@List.find?_some _ (fun fd ↦ (v.fds fd).isNone) _ _ h.freeFd)⟩

/-- What a state with the same root and one reference less to it is. -/
theorem RootAt.dput (laws : fs.toFileSystem.Laws) (h : RootAt v r fd (n + 1)) (hcwd : v.vfsCwd ≠ none)
    (hu : u.dcache = v.dcache) (hd : w.dcache = (dput fs.toFileSystem r u).dcache) (hvars : SameVars v w) :
    w.sRoot = some r ∧ if n = 0 then w.dcache r = none else RootAt w r fd n := by
  obtain ⟨e, he, hi, hcount⟩ := h.root
  rw [← hu] at he
  rw [if_neg hcwd, Nat.add_zero] at hcount
  refine ⟨hvars.sRoot.trans h.sRoot, ?_⟩
  split
  next hn =>
    rw [hd]
    exact dput_of_dCount_eq_one laws he (by omega)
  next hn =>
    rw [dput_of_one_lt he (by omega)] at hd
    refine ⟨hvars.sRoot.trans h.sRoot, ?_, { e with dCount := e.dCount - 1 }, ?_, hi, ?_⟩
    · rw [MiniExt4.freeFd, hvars.fds]
      exact h.freeFd
    · rw [hd, Vfs.dcache_modifyDentry, Function.update_self, he]
      rfl
    · rw [hvars.vfsCwd, if_neg hcwd, Nat.add_zero]
      change e.dCount - 1 = n
      omega

/-- `"/"` is opened and closed. -/
theorem RootAt.round (laws : fs.toFileSystem.Laws) (ops : fs.CallLaws) (h : RootAt v r fd (n + 1))
    (hcall : call.OpensRoot) : (VfsCall.run fs (call.run fs v) (.close fd)).sRoot = some r ∧
      if n = 0 then (VfsCall.run fs (call.run fs v) (.close fd)).dcache r = none
      else RootAt (VfsCall.run fs (call.run fs v) (.close fd)) r fd n := by
  obtain ⟨u, hu, hcwd, hopen | ⟨f, hf, hopen⟩⟩ := h.vfsOpen ops hcall
  · -- Nothing is open.
    obtain ⟨hfd, hnone⟩ := hu.free
    have hvars := sameVars_dputUp laws dcacheMaxDentries r u
    have hclose : VfsCall.run fs (call.run fs v) (.close fd) = MiniExt4.dput fs.toFileSystem r u := by
      rw [hopen, VfsCall.run, vfsClose, if_pos hfd, MiniExt4.dput, hvars.fds, hnone]
    rw [hclose]
    exact hu.dput laws hcwd rfl rfl hvars
  · obtain ⟨hfd, hnone⟩ := hu.free
    have hq := ops.release f { u with fds := Function.update u.fds fd (some f) }
    generalize hy : fs.release f { u with fds := Function.update u.fds fd (some f) } = y at hq
    have hvars := sameVars_dputUp laws dcacheMaxDentries r y
    have hclose : VfsCall.run fs (call.run fs v) (.close fd) =
        { MiniExt4.dput fs.toFileSystem r y with
          fds := Function.update (MiniExt4.dput fs.toFileSystem r y).fds fd none } := by
      rw [hopen, VfsCall.run, vfsClose, if_pos hfd]
      dsimp only
      rw [Function.update_self]
      dsimp only
      rw [hy, hf]
    -- The table of files is as before.
    have hback : Function.update (MiniExt4.dput fs.toFileSystem r y).fds fd none = u.fds := by
      rw [MiniExt4.dput, hvars.fds, hq.vars.fds, Function.update_idem, ← hnone, Function.update_eq_self]
    rw [hclose]
    exact hu.dput laws hcwd hq.dcache rfl
      ⟨hvars.sRoot.trans hq.vars.sRoot, hvars.vfsCwd.trans hq.vars.vfsCwd, hback⟩

/-- As many rounds as the root has references free it. -/
theorem RootAt.openClose (laws : fs.toFileSystem.Laws) (ops : fs.CallLaws) {opens : List VfsCall}
    (h : RootAt v r fd opens.length) (hne : opens ≠ []) (hopens : ∀ call ∈ opens, call.OpensRoot) :
    (VfsCall.runAll fs (openClose fd opens) v).sRoot = some r ∧
      (VfsCall.runAll fs (openClose fd opens) v).dcache r = none := by
  induction opens generalizing v with
  | nil => exact absurd rfl hne
  | cons call opens ih =>
    obtain ⟨hsRoot, hround⟩ := h.round laws ops (hopens call List.mem_cons_self)
    change (VfsCall.runAll fs (MiniExt4.openClose fd opens) _).sRoot = some r ∧
      (VfsCall.runAll fs (MiniExt4.openClose fd opens) _).dcache r = none
    by_cases hnil : opens = []
    · subst hnil
      exact ⟨hsRoot, hround⟩
    · rw [if_neg (by rwa [List.length_eq_zero_iff])] at hround
      exact ih hround hnil fun c hc ↦ hopens c (List.mem_cons_of_mem call hc)

end Rounds

/-! ### From a mount on -/

/-- Whatever the calls on `"/"` are, `n` of them, each with a close of `fd` after it, free the dentry that
`s_root` points to. -/
def RootFreedBy (n fd : ℕ) (v : Ext4Vfs) : Prop :=
  ∃ r, v.sRoot = some r ∧ ∀ opens : List VfsCall, (∀ call ∈ opens, call.OpensRoot) → opens.length = n →
    (VfsCall.runAll ext4FileSystemOps (openClose fd opens) v).sRoot = some r ∧
      (VfsCall.runAll ext4FileSystemOps (openClose fd opens) v).dcache r = none

/-- Where all references are counted, there is a dentry of the root, and its count says how many pairs free
it. -/
theorem Counted.rootFreedBy {v : Ext4Vfs} {leak : ℕ → ℕ} {fd : ℕ} (h : Counted ext4FileSystem v leak)
    (hfd : freeFd v = some fd) : ∃ r e, v.sRoot = some r ∧ v.dcache r = some e ∧
      RootFreedBy (e.dCount + if v.vfsCwd = none then 1 else 0) fd v := by
  obtain ⟨r, n, hr, -, hn, -⟩ := h.root
  obtain ⟨i, hi, -⟩ := Option.bind_eq_some_iff.1 hn
  obtain ⟨e, hd, hei⟩ := Option.bind_eq_some_iff.1 hi
  refine ⟨r, e, hr, hd, r, hr, fun opens hopens hlen ↦ ?_⟩
  have hpos := h.refs.pos hd
  refine RootAt.openClose ext4Laws ext4CallLaws ⟨hr, hfd, e, hd, ?_, hlen.symm⟩ ?_ hopens
  · rw [hei]
    exact Option.some_ne_none i
  · rintro rfl
    rw [List.length_nil] at hlen
    omega

end MiniExt4
