import MiniExt4.Vfs.Ext4Ops

/-!
# The two forms of `ext4_rmdir` (`fs/ext4/inode.c`)

`DirPair.ext4Rmdir` is the function over a directory, an inode and the filesystem, `ext4Rmdir` the one over
the pool of in-core inodes and the dentry cache. The second does to the slots of the two inodes what the
first does to the pair, until the slot of the removed one is given back: each statement of the one is a
lemma about the other. Both remove the directory or neither does, and the disk and the inode of the parent
are the same afterwards (`ext4Rmdir_shows`).
-/

namespace MiniExt4

open StateErr Ext4Vfs

namespace Ext4Vfs

variable {α : Type} {dir i d : ℕ} {v : Ext4Vfs} {p : DirPair}

/-- The slot `i` of the pool holds an in-core inode. -/
def Holds (v : Ext4Vfs) (i : ℕ) (inode : Inode) : Prop := ∃ n, v.inodes i = some n ∧ n.node.info = inode

/-- The filesystem and the directory of a pair are those of the caches. -/
structure ShowsParent (dir : ℕ) (v : Ext4Vfs) (p : DirPair) : Prop where
  fs_eq : v.fs.fs = p.fs
  holdsDir : Holds v dir p.dir

/-- A pair is what the caches have in two slots. -/
structure Shows (dir i : ℕ) (v : Ext4Vfs) (p : DirPair) : Prop extends ShowsParent dir v p where
  holdsInode : Holds v i p.inode
  ne : dir ≠ i

/-- Two runs return the same, and what they leave is in the relation. -/
def Agree (R : Ext4Vfs → DirPair → Prop) (r : Option α × Ext4Vfs) (r' : Option α × DirPair) : Prop :=
  r.1 = r'.1 ∧ R r.2 r'.2

/-- Both fail or both succeed. -/
theorem Agree.cases {R : Ext4Vfs → DirPair → Prop} {r : Option α × Ext4Vfs} {r' : Option α × DirPair}
    (h : Agree R r r') : (∃ v p, r = (none, v) ∧ r' = (none, p) ∧ R v p) ∨
      ∃ a v p, r = (some a, v) ∧ r' = (some a, p) ∧ R v p := by
  obtain ⟨o, v⟩ := r
  obtain ⟨o', p⟩ := r'
  obtain ⟨rfl, hR⟩ : o = o' ∧ R v p := h
  cases o with
  | none => exact .inl ⟨v, p, rfl, rfl, hR⟩
  | some a => exact .inr ⟨a, v, p, rfl, rfl, hR⟩

/-- A slot that is not written keeps its inode. -/
theorem Holds.update {j : ℕ} {inode : Inode} (h : Holds v j inode) (hne : j ≠ i) (s : Ext4State)
    (n : Option (VfsInode Ext4Inode)) :
    Holds { v with inodes := Function.update v.inodes i n, fs := s } j inode := by
  obtain ⟨m, hm, hinfo⟩ := h
  exact ⟨m, (Function.update_of_ne hne n v.inodes).trans hm, hinfo⟩

/-! ### Each statement -/

/-- A computation on the filesystem. -/
theorem Shows.onFs (h : Shows dir i v p) (x : StateErr Fs α) :
    Agree (Shows dir i) (onFs x v) (DirPair.onFs x p) := by
  unfold Ext4Vfs.onFs DirPair.onFs
  rw [zoom_apply, zoom_apply, h.fs_eq]
  exact ⟨rfl, ⟨rfl, h.holdsDir⟩, h.holdsInode, h.ne⟩

theorem ShowsParent.onFs (h : ShowsParent dir v p) (x : StateErr Fs α) :
    Agree (ShowsParent dir) (onFs x v) (DirPair.onFs x p) := by
  unfold Ext4Vfs.onFs DirPair.onFs
  rw [zoom_apply, zoom_apply, h.fs_eq]
  exact ⟨rfl, rfl, h.holdsDir⟩

/-- A computation on the inode that is removed. -/
theorem Shows.onChild (h : Shows dir i v p) (x : StateErr FsInode α) :
    Agree (Shows dir i) (onInode i x v) (DirPair.onChild x p) := by
  obtain ⟨n, hn, hinfo⟩ := h.holdsInode
  have hstate : (⟨v.fs.fs, n.node.info⟩ : FsInode) = p.child := by rw [h.fs_eq, hinfo, DirPair.child]
  unfold onInode DirPair.onChild
  rw [zoom_apply, hn]
  dsimp only
  rw [hstate]
  exact ⟨rfl, ⟨rfl, h.holdsDir.update h.ne _ _⟩, ⟨_, Function.update_self .., rfl⟩, h.ne⟩

/-- A computation on the parent. -/
theorem Shows.onParent (h : Shows dir i v p) (x : StateErr FsInode α) :
    Agree (Shows dir i) (onInode dir x v) (DirPair.onParent x p) := by
  obtain ⟨n, hn, hinfo⟩ := h.holdsDir
  have hstate : (⟨v.fs.fs, n.node.info⟩ : FsInode) = p.parent := by rw [h.fs_eq, hinfo, DirPair.parent]
  unfold onInode DirPair.onParent
  rw [zoom_apply, hn]
  dsimp only
  rw [hstate]
  exact ⟨rfl, ⟨rfl, _, Function.update_self .., rfl⟩, h.holdsInode.update h.ne.symm _ _, h.ne⟩

/-- A change of the inode that is removed. -/
theorem Shows.modifyChild (h : Shows dir i v p) (f : Inode → Inode) :
    Shows dir i (modifyInfo i f v).2 { p with inode := f p.inode } := by
  obtain ⟨n, hn, hinfo⟩ := h.holdsInode
  refine ⟨⟨h.fs_eq, h.holdsDir.update h.ne _ _⟩,
    ⟨{ n with node := { n.node with info := f n.node.info } }, ?_, congrArg f hinfo⟩, h.ne⟩
  rw [modifyInfo, modify_apply, hn]
  exact Function.update_self ..

/-- A change of the parent. -/
theorem Shows.modifyParent (h : Shows dir i v p) (f : Inode → Inode) :
    Shows dir i (modifyInfo dir f v).2 { p with dir := f p.dir } := by
  obtain ⟨n, hn, hinfo⟩ := h.holdsDir
  refine ⟨⟨h.fs_eq, { n with node := { n.node with info := f n.node.info } }, ?_, congrArg f hinfo⟩,
    h.holdsInode.update h.ne.symm _ _, h.ne⟩
  rw [modifyInfo, modify_apply, hn]
  exact Function.update_self ..

/-- The dentry is not part of the pair. -/
theorem Shows.unhook (h : Shows dir i v p) (d : ℕ) : Shows dir i (unhook d v) p := by
  have hlist : ∀ o (w : Ext4Vfs), (listDel d o w).fs = w.fs ∧ (listDel d o w).inodes = w.inodes := by
    intro o w
    cases o <;> exact ⟨rfl, rfl⟩
  obtain ⟨hfs, hinodes⟩ := hlist _ (v.modifyDentry d fun e ↦ { e with dInode := none })
  exact ⟨⟨(congrArg Ext4State.fs hfs).trans h.fs_eq, by rw [Holds, MiniExt4.unhook, hinodes]; exact h.holdsDir⟩,
    by rw [Holds, MiniExt4.unhook, hinodes]; exact h.holdsInode, h.ne⟩

/-- The slot of the inode and its part of the pool are given back. -/
theorem Shows.destroy (h : Shows dir i v p) : ShowsParent dir (ext4DestroyInode i v)
    (DirPair.onFs (modify fun fs ↦ { fs with superPool := fs.superPool + 1 }) p).2 := by
  refine ⟨?_, h.holdsDir.update h.ne _ _⟩
  show { v.fs.fs with superPool := v.fs.fs.superPool + 1 } = { p.fs with superPool := p.fs.superPool + 1 }
  rw [h.fs_eq]

/-- `write_inode` of the inode that is removed. -/
theorem Shows.writeInode (h : Shows dir i v p) :
    Agree (Shows dir i) (writeInode i v) (DirPair.onFs (Fs.ext4WriteInode p.inode) p) := h.onChild _

/-- `write_inode` of the parent. -/
theorem ShowsParent.writeInode (h : ShowsParent dir v p) :
    Agree (ShowsParent dir) (writeInode dir v) (DirPair.writeParent p) := by
  obtain ⟨n, hn, hinfo⟩ := h.holdsDir
  unfold Ext4Vfs.writeInode onInode DirPair.writeParent DirPair.onFs
  rw [hn, get_bind, zoom_apply]
  dsimp only
  rw [get_bind, h.fs_eq, hinfo]
  exact ⟨rfl, rfl, _, Function.update_self .., rfl⟩

/-! ### The function -/

/-- The part that clears the inode. -/
theorem Shows.clearInode (h : Shows dir i v p) (d : ℕ) :
    let v := MiniExt4.unhook d v
    let v := (modifyInfo i (fun inode ↦ { inode with iNlink := u32 (inode.iNlink + (2 ^ 32 - 2)) }) v).2
    let v := (modifyInfo dir (fun inode ↦ { inode with iNlink := u32 (inode.iNlink + (2 ^ 32 - 1)) }) v).2
    Shows dir i (deleteInode i v).2 (DirPair.clearInode p).2 := by
  have hlinks := ((h.unhook d).modifyChild
    fun inode ↦ { inode with iNlink := u32 (inode.iNlink + (2 ^ 32 - 2)) }).modifyParent
    fun inode ↦ { inode with iNlink := u32 (inode.iNlink + (2 ^ 32 - 1)) }
  exact (hlinks.onChild FsInode.ext4FreeInodeDataBlocks).2.modifyChild
    fun inode ↦ { inode with iMode := 0, iSize := 0, iBlocks := 0 }

/-- Other links leave the number of an inode. -/
theorem iIno_withLinks (p : DirPair) (n m : ℕ) :
    ({ p with inode := { p.inode with iNlink := n }, dir := { p.dir with iNlink := m } } : DirPair).inode.iIno =
      p.inode.iIno := rfl

/-- So does all of this part. -/
theorem keeps_iIno_clearInode : Keeps (fun p ↦ p.inode.iIno) DirPair.clearInode := by
  have hfree : Keeps (fun p ↦ p.inode.iIno) (DirPair.onChild FsInode.ext4FreeInodeDataBlocks) := by
    refine ⟨fun p ↦ ?_⟩
    show (FsInode.ext4FreeInodeDataBlocks p.child).2.inode.iIno = p.child.inode.iIno
    rw [FsInode.ext4FreeInodeDataBlocks, get_bind, modify_apply]
  unfold DirPair.clearInode
  exact Keeps.bind ⟨fun p ↦ iIno_withLinks p _ _⟩ fun _ ↦ hfree.attempt.bind fun _ ↦ ⟨fun _ ↦ rfl⟩

/-- From `write_inode` on the slot of the inode is in use until the inode is freed. -/
theorem Shows.rmdirInode (h : Shows dir i v p) (d : ℕ) :
    ((rmdirInode dir d i p.inode.iIno v).1 = 0 ↔ (DirPair.releaseInode p).1 = some ()) ∧
      ShowsParent dir (rmdirInode dir d i p.inode.iIno v).2 (DirPair.releaseInode p).2 := by
  have hclear := h.clearInode d
  have hino : (DirPair.clearInode p).2.inode.iIno = p.inode.iIno := keeps_iIno_clearInode.snd_eq p
  unfold MiniExt4.rmdirInode DirPair.releaseInode
  rw [bind_of_eq_some
      (eq_of_fst_eq rfl : DirPair.clearInode p = (some (), (DirPair.clearInode p).2)), DirPair.dropInode,
    get_bind, hino]
  dsimp only at hclear ⊢
  generalize (deleteInode i _).2 = v₁ at hclear ⊢
  generalize (DirPair.clearInode p).2 = p₁ at hclear ⊢
  rcases hclear.writeInode.cases with ⟨v₂, p₂, hv, hp, h₂⟩ | ⟨⟨⟩, v₂, p₂, hv, hp, h₂⟩
  · rw [hv, bind_of_eq_none hp]
    exact ⟨by simp [eIo], h₂.toShowsParent⟩
  rw [hv, bind_of_eq_some hp]
  dsimp only
  rcases (h₂.onFs (Fs.ext4FreeInode p.inode.iIno)).cases with
    ⟨v₃, p₃, hv, hp, h₃⟩ | ⟨⟨⟩, v₃, p₃, hv, hp, h₃⟩
  · rw [hv, bind_of_eq_none hp]
    exact ⟨by simp [eIo], h₃.toShowsParent⟩
  rw [hv, bind_of_eq_some hp, bind_of_eq_some (eq_of_fst_eq rfl), attempt_bind, attempt_bind]
  exact ⟨iff_of_true rfl rfl, (h₃.destroy.writeInode.2.onFs (Fs.decUsedDirs p.inode.iIno)).2⟩

/-- **Both forms of `ext4_rmdir` remove the directory or neither does, and leave the same disk and the same
inode of the parent.** -/
theorem ext4Rmdir_shows {e : Dentry} (hd : v.dcache d = some e) (hi : e.dInode = some i)
    (h : Shows dir i v p) :
    ((ext4Rmdir dir d v).1 = 0 ↔ (DirPair.ext4Rmdir e.dName.1 p).1 = some ()) ∧
      ShowsParent dir (ext4Rmdir dir d v).2 (DirPair.ext4Rmdir e.dName.1 p).2 := by
  obtain ⟨n, hn, hinfo⟩ := h.holdsInode
  obtain ⟨ok, c, hscan, hstill, -⟩ := p.onChild_scan
  have hchild := h.onChild (FsInode.ext4DirForeach countNonDotEntries 0)
  unfold MiniExt4.ext4Rmdir DirPair.ext4Rmdir DirPair.removeIfEmpty
  rw [hd]
  dsimp only
  rw [hi]
  dsimp only
  rw [hn]
  dsimp only
  rw [bind_assoc', bind_of_eq_some hscan]
  rw [hscan] at hchild
  rcases hchild.cases with ⟨v₁, p₁, -, hp, -⟩ | ⟨r, v₁, p₁, hv, hp, h₁⟩
  · simp at hp
  obtain ⟨rfl, rfl⟩ : (ok, c) = r ∧ p.scanned = p₁ := by simpa using hp
  rw [hv]
  dsimp only
  by_cases hc : c = 0
  swap
  · -- `-ENOTEMPTY`
    rw [if_pos (Nat.pos_of_ne_zero hc), guard_false hc]
    exact ⟨by simp [eNotempty], h₁.toShowsParent⟩
  rw [if_neg (by omega), guard_true hc, pure_bind']
  rcases (h₁.onParent (FsInode.ext4RemoveEntry e.dName.1)).cases with
    ⟨v₂, p₂, hv, hp, h₂⟩ | ⟨⟨⟩, v₂, p₂, hv, hp, h₂⟩
  · -- `-ENOENT`
    rw [hv, bind_of_eq_none hp]
    exact ⟨by simp [eNoent], h₂.toShowsParent⟩
  rw [hv, bind_of_eq_some hp]
  have hinode : p₂.inode = p.inode :=
    calc p₂.inode = p.scanned.inode := congrArg (fun r ↦ r.2.inode) hp.symm
      _ = p.scanned.still.inode := rfl
      _ = p.still.inode := congrArg DirPair.inode hstill
      _ = p.inode := rfl
  rw [hinfo, ← hinode]
  exact h₂.rmdirInode d

end Ext4Vfs

end MiniExt4
