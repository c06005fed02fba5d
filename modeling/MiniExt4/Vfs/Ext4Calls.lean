import MiniExt4.Ext4.InodeAttrs
import MiniExt4.Ext4.MkfsMount
import MiniExt4.Vfs.CallRun
import MiniExt4.Vfs.Ext4Laws

/-!
# Runs of calls over ext4

The operations of ext4 change the disk and the contents of inodes. Of the caches they change what
`FileSystemOps.CallLaws` allows: a new inode for the dentry that `create` and `mkdir` are given, no inode
any more for the one that `unlink` and `rmdir` are given. So the references are counted in every state
that calls lead to from a mount (`runAll_of_mount`), and path lookups are neutral (`ext4PathLookup_neutral`).

The operations fall into three kinds, by what they do to the slots of the pool: none at all (`Quiet`), a new
one for the dentry they are given (`Makes`), and one emptied (`Unhooks`). Each is composed of statements of
its kind, and the error paths of a creation give the new slot back (`Allocated.destroy`).

The neutrality of a lookup needs a free inode for each component, which `HasInodes` counts down as the walk
goes on (`KeptByWalk`), and directories without extents (`NoExtentDirs`).
-/

namespace MiniExt4

open StateErr Ext4Vfs

variable {v w : Ext4Vfs} {d i : ℕ}

/-! ### Statements on inodes -/

/-- The filesystem below is none of the caches. -/
theorem quiet_fs (v : Ext4Vfs) (s : Ext4State) : Quiet ext4FileSystem v { v with fs := s } :=
  ⟨rfl, ⟨rfl, rfl, rfl⟩, rfl⟩

/-- Nor is a call of it. -/
theorem quiet_onFs {α : Type} (x : StateErr Fs α) (v : Ext4Vfs) : Quiet ext4FileSystem v (onFs x v).2 :=
  quiet_fs v _

/-- An inode in use gets other contents. -/
theorem quiet_setNode {n : VfsInode Ext4Inode} (hn : v.inodes i = some n) (m : Ext4Inode) (s : Ext4State)
    (hmode : m.info.iMode = n.node.info.iMode) : Quiet ext4FileSystem v
      { v with inodes := Function.update v.inodes i (some { n with node := m }), fs := s } := by
  refine ⟨rfl, ⟨rfl, rfl, rfl⟩, funext fun j ↦ ?_⟩
  rw [slots, slots]
  dsimp only
  by_cases hj : j = i
  · rw [hj, Function.update_self, hn]
    exact congrArg (fun mode ↦ some (n.iCount, sIsdir mode)) hmode
  · rw [Function.update_of_ne hj]

/-- A call on an inode that keeps its attributes leaves the kind of the inode. -/
theorem quiet_onInode {α : Type} {x : StateErr FsInode α} (h : Keeps FsInode.attrs x) (i : ℕ) (v : Ext4Vfs) :
    Quiet ext4FileSystem v (onInode i x v).2 := by
  rw [onInode]
  rcases hi : v.inodes i with _ | n
  · exact .refl v
  · have hattrs := h.snd_eq ⟨v.fs.fs, n.node.info⟩
    exact quiet_setNode hi _ _ (congrArg Inode.iMode hattrs :)

/-- So does a change that keeps the mode. -/
theorem quiet_modifyInfo {f : Inode → Inode} (h : ∀ inode, (f inode).iMode = inode.iMode) (i : ℕ)
    (v : Ext4Vfs) : Quiet ext4FileSystem v (modifyInfo i f v).2 := by
  rw [modifyInfo, modify_apply, Vfs.setInode]
  rcases hi : v.inodes i with _ | n
  · have hsame : Function.update v.inodes i none = v.inodes := by rw [← hi, Function.update_eq_self]
    rw [Option.map_none, hsame]
    exact .refl v
  · exact quiet_setNode hi _ v.fs (h n.node.info)

/-- Storing an inode leaves the caches. -/
theorem quiet_writeInode (i : ℕ) (v : Ext4Vfs) : Quiet ext4FileSystem v (writeInode i v).2 :=
  quiet_onInode (.get_bind fun _ ↦ FsInode.keeps_attrs_onFs _) i v

/-- Giving an inode and its block back leaves the caches. -/
theorem quiet_undoNew (ino : ℕ) (blocknr : Option ℕ) (v : Ext4Vfs) :
    Quiet ext4FileSystem v (undoNew ino blocknr v) := by
  cases blocknr with
  | none => exact quiet_onFs _ v
  | some b => exact (quiet_onFs _ v).trans (quiet_onFs _ _)

/-! ### New inodes -/

section Allocated

variable {ι σ : Type} {fs : FileSystem ι σ} {u v w : Vfs ι σ} {r : ℤ × Vfs ι σ} {z : ℤ}

/-- The free slot `i` has been taken for a new inode. -/
def Allocated (fs : FileSystem ι σ) (i : ℕ) (v w : Vfs ι σ) : Prop := v.inodes i = none ∧
  ∃ n, Quiet fs { v with inodes := Function.update v.inodes i (some ⟨1, n⟩) } w

/-- An inode that was allocated still is, after a step that leaves the caches. -/
theorem Allocated.then (h : Allocated fs i u v) (hq : Quiet fs v w) : Allocated fs i u w := by
  obtain ⟨hi, n, hn⟩ := h
  exact ⟨hi, n, hn.trans hq⟩

theorem slots_dInstantiate (d i : ℕ) (v : Vfs ι σ) :
    slots fs (dInstantiate d i v) = fun j ↦ (slots fs v j).map fun s ↦ if j = i then (s.1 + 1, s.2) else s := by
  funext j
  rw [slots, slots, inodes_dInstantiate]
  by_cases hj : j = i
  · rw [hj, Function.update_self]
    rcases v.inodes i with _ | n
    · rfl
    · simp
  · rw [Function.update_of_ne hj]
    rcases v.inodes j with _ | n
    · rfl
    · simp [hj]

/-- A change of a dentry depends on the dentries only. -/
theorem dcache_modifyDentry_congr (h : w.dcache = v.dcache) (d : ℕ) (f : Dentry → Dentry) :
    (w.modifyDentry d f).dcache = (v.modifyDentry d f).dcache := by
  rw [Vfs.dcache_modifyDentry, Vfs.dcache_modifyDentry, h]

/-- Instantiating a dentry sets its inode and counts one more use of it. -/
theorem dInstantiate_eq (d i : ℕ) (v : Vfs ι σ) : dInstantiate d i v =
    (let u := v.modifyDentry d fun e ↦ { e with dInode := some i }
      let u' := u.setInode i ((u.inodes i).map fun n ↦ { n with iCount := n.iCount + 1 })
      (u.dParent d).elim u' fun p ↦ u'.modifyDentry p fun e ↦
        if d ∈ e.dSubdirs then e else { e with dSubdirs := d :: e.dSubdirs }) := by
  have hpar : ∀ (u : Vfs ι σ) n, (u.setInode i n).dParent d = u.dParent d := fun _ _ ↦ rfl
  unfold dInstantiate
  dsimp only
  rw [hpar]
  cases (v.modifyDentry d fun e ↦ { e with dInode := some i }).dParent d <;> rfl

/-- What it does to the dentries depends on the dentries only. -/
theorem dcache_dInstantiate_congr (h : w.dcache = v.dcache) (d i : ℕ) :
    (dInstantiate d i w).dcache = (dInstantiate d i v).dcache := by
  have hnode := dcache_modifyDentry_congr h d fun e ↦ { e with dInode := some i }
  have hpar : (w.modifyDentry d fun e ↦ { e with dInode := some i }).dParent d =
      (v.modifyDentry d fun e ↦ { e with dInode := some i }).dParent d := by
    rw [Vfs.dParent, Vfs.dParent, hnode]
  rw [dInstantiate_eq, dInstantiate_eq]
  dsimp only
  rw [hpar]
  cases (v.modifyDentry d fun e ↦ { e with dInode := some i }).dParent d with
  | none => exact hnode
  | some p => exact dcache_modifyDentry_congr hnode _ _

/-- Instantiating a dentry before and after a step that leaves the caches. -/
theorem Quiet.dInstantiate (h : Quiet fs v w) (d i : ℕ) :
    Quiet fs (dInstantiate d i v) (dInstantiate d i w) := by
  refine ⟨dcache_dInstantiate_congr h.dcache d i, ?_, ?_⟩
  · have hv := sameVars_dInstantiate d i v
    have hw := h.vars.trans (sameVars_dInstantiate d i w)
    exact ⟨hw.sRoot.trans hv.sRoot.symm, hw.vfsCwd.trans hv.vfsCwd.symm, hw.fds.trans hv.fds.symm⟩
  · rw [slots_dInstantiate, slots_dInstantiate, h.slots]

/-- A call that fails leaves the caches. -/
theorem Makes.fail (h : Quiet fs v r.2) (hz : r.1 ≠ 0) : Makes fs d v r := Or.inl ⟨hz, h⟩

/-- What is done before and after does not matter. -/
theorem Makes.frame (h : Makes fs d v (z, w)) (hu : Quiet fs u v) {x : Vfs ι σ} (hx : Quiet fs w x) :
    Makes fs d u (z, x) := by
  obtain ⟨hz, hq⟩ | ⟨hz, y, i, n, hy, hi, hq⟩ := h
  · exact Or.inl ⟨hz, (hu.trans hq).trans hx⟩
  · exact Or.inr ⟨hz, y, i, n, hu.trans hy, hi, hq.trans hx⟩

/-- The new dentry gets the new inode. -/
theorem Allocated.makes (h : Allocated fs i v w) (d : ℕ) : Makes fs d v (0, MiniExt4.dInstantiate d i w) := by
  obtain ⟨hi, n, hn⟩ := h
  exact Or.inr ⟨rfl, v, i, n, .refl v, hi, hn.dInstantiate d i⟩

end Allocated

/-- A new inode that is destroyed again. -/
theorem Allocated.destroy {u : Ext4Vfs} (h : Allocated ext4FileSystem i u v) :
    Quiet ext4FileSystem u (ext4DestroyInode i v) := by
  obtain ⟨hi, n, hn⟩ := h
  refine ⟨hn.dcache, ⟨hn.vars.sRoot, hn.vars.vfsCwd, hn.vars.fds⟩, funext fun j ↦ ?_⟩
  by_cases hj : j = i
  · have hnone : (ext4DestroyInode i v).inodes i = none := Function.update_self ..
    rw [hj, slots, slots, hnone, hi]
  · have hslot := congrFun hn.slots j
    rw [slots, slots] at hslot ⊢
    change Option.map _ (Function.update v.inodes i none j) = _
    rw [Function.update_of_ne hj, hslot]
    dsimp only
    rw [Function.update_of_ne hj]

/-- `ext4_alloc_inode` fails, or it takes a slot. -/
theorem ext4AllocInode_allocated (n : Ext4Inode) (v : Ext4Vfs) : ext4AllocInode 0 n v = (none, v) ∨
    ∃ i w, ext4AllocInode 0 n v = (some i, w) ∧ Allocated ext4FileSystem i v w := by
  obtain ⟨-, h⟩ | ⟨i, -, hi, -, h⟩ := ext4AllocInode_cases 0 n v
  · exact Or.inl h
  · exact Or.inr ⟨i, _, h, hi, n, quiet_fs _ _⟩

/-- Entering a new inode into its directory makes it or undoes it. -/
theorem makes_enterNew {u : Ext4Vfs} (h : Allocated ext4FileSystem i u v) (dir d ino : ℕ) (name : List Byte)
    (blocknr : Option ℕ) : Makes ext4FileSystem d u (enterNew dir d i ino name blocknr v) := by
  rw [enterNew]
  have hwritten := h.then (quiet_writeInode i v)
  have hadd := hwritten.then
    (quiet_onInode (FsInode.keeps_attrs_ext4AddEntry name ino) dir (writeInode i v).2)
  rcases hr : onInode dir (FsInode.ext4AddEntry name ino) (writeInode i v).2 with ⟨_ | _, w⟩ <;>
    rw [hr] at hadd
  · exact .fail (hadd.destroy.trans (quiet_undoNew ino blocknr _)) (by decide : eNospc ≠ 0)
  · exact hadd.makes d

/-- **`create` makes an inode for its dentry, or leaves the caches.** -/
theorem makes_ext4Create (dir d mode : ℕ) (excl : Bool) (v : Ext4Vfs) :
    Makes ext4FileSystem d v (ext4Create dir d mode excl v) := by
  rw [ext4Create]
  split
  next n e _ _ =>
    have hnew := quiet_onFs (Fs.ext4NewInodeInGroup (v.fs.fs.ext4InodeGroupOfIno n.node.info.iIno)) v
    rcases hr : onFs (Fs.ext4NewInodeInGroup (v.fs.fs.ext4InodeGroupOfIno n.node.info.iIno)) v with
      ⟨_ | ino, w⟩ <;> rw [hr] at hnew
    · exact .fail hnew (by decide : eNospc ≠ 0)
    dsimp only
    rcases ext4AllocInode_allocated ⟨Inode.newFile w.fs.fs ino mode w.fs.now, false⟩ w with
      halloc | ⟨i, x, halloc, hi⟩
    · rw [halloc]
      exact .fail (hnew.trans (quiet_undoNew ino none w)) (by decide : eNomem ≠ 0)
    · rw [halloc]
      exact (makes_enterNew hi dir d ino e.dName.1 none).frame hnew (.refl _)
  · exact .fail (.refl v) (by decide : eIo ≠ 0)

/-- A directory whose block was allocated is entered or undone. -/
theorem makes_mkdirBlock {u : Ext4Vfs} (h : Allocated ext4FileSystem i u v) (dir d ino blocknr parentIno : ℕ)
    (name : List Byte) : Makes ext4FileSystem d u (mkdirBlock dir d i ino blocknr parentIno name v) := by
  have hundo := fun {w : Ext4Vfs} (hw : Allocated ext4FileSystem i u w) ↦
    hw.destroy.trans (quiet_undoNew ino (some blocknr) _)
  rw [mkdirBlock]
  dsimp only
  split
  · exact .fail (hundo h) (by decide : eNomem ≠ 0)
  split
  · exact .fail (hundo h) (by decide : eIo ≠ 0)
  generalize newDirBlock _ ino parentIno = buf
  have hwrite := h.then (quiet_onFs (Fs.writeBlock blocknr buf) v)
  rcases hr : onFs (Fs.writeBlock blocknr buf) v with ⟨_ | _, w⟩ <;> rw [hr] at hwrite
  · exact .fail (hundo hwrite) (by decide : eIo ≠ 0)
  dsimp only
  have henter := makes_enterNew hwrite dir d ino name (some blocknr)
  split
  next x heq =>
    rw [heq] at henter
    have hlink := quiet_modifyInfo (f := fun inode ↦ { inode with iNlink := u32 (inode.iNlink + 1) })
      (fun _ ↦ rfl) dir x
    exact henter.frame (.refl u) ((hlink.trans (quiet_writeInode dir _)).trans (quiet_onFs _ _))
  · exact henter

/-- **`mkdir` makes an inode for its dentry, or leaves the caches.** -/
theorem makes_ext4Mkdir (dir d mode : ℕ) (v : Ext4Vfs) :
    Makes ext4FileSystem d v (ext4Mkdir dir d mode v) := by
  rw [ext4Mkdir]
  split
  next n e _ _ =>
    dsimp only
    generalize v.fs.fs.ext4InodeGroupOfIno n.node.info.iIno = group
    have hnew := quiet_onFs (Fs.ext4NewInodeInGroup group) v
    rcases hr : onFs (Fs.ext4NewInodeInGroup group) v with ⟨_ | ino, w⟩ <;> rw [hr] at hnew
    · exact .fail hnew (by decide : eNospc ≠ 0)
    dsimp only
    have hblock := hnew.trans (quiet_onFs (Fs.ext4NewBlockInGroup group) w)
    rcases hr : onFs (Fs.ext4NewBlockInGroup group) w with ⟨_ | blocknr, x⟩ <;> rw [hr] at hblock
    · exact .fail (hblock.trans (quiet_undoNew ino none x)) (by decide : eNospc ≠ 0)
    dsimp only
    rcases ext4AllocInode_allocated ⟨Inode.newDir x.fs.fs ino mode x.fs.now blocknr, true⟩ x with
      halloc | ⟨i, y, halloc, hi⟩
    · rw [halloc]
      exact .fail (hblock.trans (quiet_undoNew ino (some blocknr) x)) (by decide : eNomem ≠ 0)
    · rw [halloc]
      exact (makes_mkdirBlock hi dir d ino blocknr n.node.info.iIno e.dName.1).frame hblock (.refl _)
  · exact .fail (.refl v) (by decide : eIo ≠ 0)

/-! ### Inodes that lose their dentry -/

/-- Only the filesystem, the contents of inodes, and the inode `i` change. -/
structure QuietBut {ι σ : Type} (fs : FileSystem ι σ) (i : ℕ) (v w : Vfs ι σ) : Prop where
  dcache : w.dcache = v.dcache
  vars : SameVars v w
  slots : ∀ j, j ≠ i → slots fs w j = slots fs v j

namespace QuietBut

variable {u : Ext4Vfs}

/-- A step that leaves the caches, after one that touched the inode only. -/
theorem quiet (h : QuietBut ext4FileSystem i u v) (hq : Quiet ext4FileSystem v w) :
    QuietBut ext4FileSystem i u w :=
  ⟨hq.dcache.trans h.dcache, h.vars.trans hq.vars, fun j hj ↦ (congrFun hq.slots j).trans (h.slots j hj)⟩

/-- The inode itself may change in any way. -/
theorem setInode (h : QuietBut ext4FileSystem i u v) (n : Option (VfsInode Ext4Inode)) (s : Ext4State) :
    QuietBut ext4FileSystem i u { v with inodes := Function.update v.inodes i n, fs := s } := by
  refine ⟨h.dcache, h.vars.trans ⟨rfl, rfl, rfl⟩, fun j hj ↦ Eq.trans ?_ (h.slots j hj)⟩
  rw [MiniExt4.slots, MiniExt4.slots]
  dsimp only
  rw [Function.update_of_ne hj]

/-- A change of the inode. -/
theorem modifyInfo (h : QuietBut ext4FileSystem i u v) (f : Inode → Inode) :
    QuietBut ext4FileSystem i u (modifyInfo i f v).2 := h.setInode _ v.fs

/-- Deleting the inode. -/
theorem deleteInode (h : QuietBut ext4FileSystem i u v) : QuietBut ext4FileSystem i u (deleteInode i v).2 :=
  (h.quiet (quiet_onInode FsInode.keeps_attrs_ext4FreeInodeDataBlocks i v)).modifyInfo _

/-- Destroying the inode. -/
theorem destroy (h : QuietBut ext4FileSystem i u v) : QuietBut ext4FileSystem i u (ext4DestroyInode i v) :=
  h.setInode none _

end QuietBut

/-- Unhooking a dentry leaves the inodes. -/
theorem unhook_inodes (d : ℕ) (v : Ext4Vfs) : (unhook d v).inodes = v.inodes ∧ SameVars v (unhook d v) := by
  rw [unhook]
  rcases (v.modifyDentry d fun e ↦ { e with dInode := none }).dParent d with _ | p <;>
    exact ⟨rfl, rfl, rfl, rfl⟩

/-- The dentry is taken off, and then the inode is dealt with. -/
theorem QuietBut.unhooks (hd : v.dInode d = some i) (h : QuietBut ext4FileSystem i (unhook d v) w) :
    Unhooks ext4FileSystem d v w := by
  obtain ⟨hinodes, hvars⟩ := unhook_inodes d v
  refine ⟨h.dcache, hvars.trans h.vars, fun j hj ↦ ?_⟩
  rw [h.slots j fun hji ↦ hj (hji ▸ hd), MiniExt4.slots, MiniExt4.slots, hinodes]

/-- Nothing was touched. -/
theorem quietBut_refl (i : ℕ) (v : Ext4Vfs) : QuietBut ext4FileSystem i v v := ⟨rfl, .refl v, fun _ _ ↦ rfl⟩

/-- The disk may have changed before. -/
theorem Unhooks.of_quiet {x : Ext4Vfs} (hq : Quiet ext4FileSystem v x) (h : Unhooks ext4FileSystem d x w) :
    Unhooks ext4FileSystem d v w := by
  refine ⟨h.dcache.trans ?_, hq.vars.trans h.vars, fun j hj ↦ ?_⟩
  · have hnode := dcache_modifyDentry_congr hq.dcache d fun e ↦ { e with dInode := none }
    have hpar : (x.modifyDentry d fun e ↦ { e with dInode := none }).dParent d =
        (v.modifyDentry d fun e ↦ { e with dInode := none }).dParent d := by
      rw [Vfs.dParent, Vfs.dParent, hnode]
    rw [unhook, unhook, hpar]
    rcases (v.modifyDentry d fun e ↦ { e with dInode := none }).dParent d with _ | p
    · exact hnode
    · exact dcache_modifyDentry_congr hnode p _
  · rw [h.slots j (by rw [hq.dInode_eq]; exact hj), hq.slots]

/-- `unlink` of an inode that is there takes it from its dentry or leaves the caches. -/
theorem unhooks_unlinkInode (hd : v.dInode d = some i) (dir : ℕ) (name : List Byte) :
    Quiet ext4FileSystem v (unlinkInode dir d i name v).2 ∨
      Unhooks ext4FileSystem d v (unlinkInode dir d i name v).2 := by
  rw [unlinkInode]
  have hq := quiet_onInode (FsInode.keeps_attrs_ext4RemoveEntry name) dir v
  rcases hr : onInode dir (FsInode.ext4RemoveEntry name) v with ⟨_ | _, x⟩ <;> rw [hr] at hq
  · exact Or.inl hq
  refine Or.inr (.of_quiet hq (QuietBut.unhooks (by rw [hq.dInode_eq]; exact hd) ?_))
  dsimp only
  have hlink := (quietBut_refl i (unhook d x)).modifyInfo fun inode ↦
    { inode with iNlink := u32 (inode.iNlink + (2 ^ 32 - 1)) }
  generalize (modifyInfo i _ (unhook d x)).2 = y at hlink
  split
  · exact hlink
  next n _ =>
    split
    · have hwritten := hlink.deleteInode.quiet (quiet_writeInode i _)
      have hfreed := hwritten.quiet (quiet_onFs (Fs.ext4FreeInode n.node.info.iIno) _)
      split
      · exact hfreed
      · exact hfreed.destroy
    · have hwritten := hlink.quiet (quiet_writeInode i y)
      rcases hr : writeInode i y with ⟨_ | _, z⟩ <;> rw [hr] at hwritten <;> exact hwritten

/-- **`unlink` takes the inode from its dentry, or leaves the caches.** -/
theorem unhooks_ext4Unlink (dir d : ℕ) (v : Ext4Vfs) : Quiet ext4FileSystem v (ext4Unlink dir d v).2 ∨
    Unhooks ext4FileSystem d v (ext4Unlink dir d v).2 := by
  rw [ext4Unlink]
  rcases hd : v.dcache d with _ | e
  · exact Or.inl (.refl v)
  dsimp only
  rcases hi : e.dInode with _ | i
  · exact Or.inl (.refl v)
  · exact unhooks_unlinkInode ((Vfs.dInode_of_some hd).trans hi) dir e.dName.1

/-- `rmdir` of a directory that was found empty takes it from its dentry. -/
theorem unhooks_rmdirInode (hd : v.dInode d = some i) (dir ino : ℕ) :
    Unhooks ext4FileSystem d v (rmdirInode dir d i ino v).2 := by
  refine QuietBut.unhooks hd ?_
  rw [rmdirInode]
  have hlink := (quietBut_refl i (unhook d v)).modifyInfo fun inode ↦
    { inode with iNlink := u32 (inode.iNlink + (2 ^ 32 - 2)) }
  have hparent := hlink.quiet (quiet_modifyInfo
    (f := fun inode ↦ { inode with iNlink := u32 (inode.iNlink + (2 ^ 32 - 1)) }) (fun _ ↦ rfl) dir _)
  have hwritten := hparent.deleteInode.quiet (quiet_writeInode i _)
  dsimp only
  rcases hr : writeInode i _ with ⟨_ | _, x⟩ <;> rw [hr] at hwritten
  · exact hwritten
  have hfreed := hwritten.quiet (quiet_onFs (Fs.ext4FreeInode ino) x)
  dsimp only
  rcases hr : onFs (Fs.ext4FreeInode ino) x with ⟨_ | _, y⟩ <;> rw [hr] at hfreed
  · exact hfreed
  exact (hfreed.destroy.quiet (quiet_writeInode dir _)).quiet (quiet_onFs (Fs.decUsedDirs ino) _)

/-- **`rmdir` takes the inode from its dentry, or leaves the caches.** -/
theorem unhooks_ext4Rmdir (dir d : ℕ) (v : Ext4Vfs) : Quiet ext4FileSystem v (ext4Rmdir dir d v).2 ∨
    Unhooks ext4FileSystem d v (ext4Rmdir dir d v).2 := by
  rw [ext4Rmdir]
  rcases hd : v.dcache d with _ | e
  · exact Or.inl (.refl v)
  dsimp only
  rcases hi : e.dInode with _ | i
  · exact Or.inl (.refl v)
  dsimp only
  rcases v.inodes i with _ | n
  · exact Or.inl (.refl v)
  dsimp only
  have hcount := quiet_onInode (FsInode.keeps_attrs_ext4DirForeach countNonDotEntries 0) i v
  rcases hr : onInode i (FsInode.ext4DirForeach countNonDotEntries 0) v with ⟨_ | r, x⟩ <;> rw [hr] at hcount
  · exact Or.inl hcount
  dsimp only
  split
  · exact Or.inl hcount
  have hremove := hcount.trans (quiet_onInode (FsInode.keeps_attrs_ext4RemoveEntry e.dName.1) dir x)
  rcases hr : onInode dir (FsInode.ext4RemoveEntry e.dName.1) x with ⟨_ | _, y⟩ <;> rw [hr] at hremove
  · exact Or.inl hremove
  · refine Or.inr (.of_quiet hremove (unhooks_rmdirInode ?_ dir n.node.info.iIno))
    rw [hremove.dInode_eq]
    exact (Vfs.dInode_of_some hd).trans hi

/-! ### Files -/

/-- `open` sets up the file and leaves the caches. -/
theorem quiet_ext4FileOpen (i : ℕ) (f : File) (v : Ext4Vfs) :
    Quiet ext4FileSystem v (ext4FileOpen i f v).2 ∧ (ext4FileOpen i f v).1.2.fPathDentry = f.fPathDentry := by
  rw [ext4FileOpen]
  dsimp only
  split
  · exact ⟨.refl v, rfl⟩
  split
  · have hfreed := quiet_onInode FsInode.keeps_attrs_ext4FreeInodeDataBlocks i v
    have hdirty := hfreed.trans
      (quiet_modifyInfo (f := fun inode ↦ { inode with dirty := true }) (fun _ ↦ rfl) i _)
    have hwritten := hdirty.trans (quiet_writeInode i _)
    rcases hr : writeInode i _ with ⟨_ | _, x⟩ <;> rw [hr] at hwritten
    · exact ⟨hwritten, rfl⟩
    · exact ⟨hwritten.trans
        (quiet_modifyInfo (f := fun inode ↦ { inode with dirty := false }) (fun _ ↦ rfl) i x), rfl⟩
  · exact ⟨.refl v, rfl⟩

/-- The operations of ext4 do what the calls rely on. -/
theorem ext4CallLaws : ext4FileSystemOps.CallLaws where
  mkdir := by
    intro n ops f hops hf dir d mode v
    obtain rfl : (if n.dirOps then ext4DirInodeOperations else ext4FileInodeOperations) = ops :=
      Option.some_inj.1 hops
    split at hf
    · obtain rfl := Option.some_inj.1 hf
      exact makes_ext4Mkdir dir d mode v
    · exact absurd hf.symm (Option.some_ne_none f)
  create := by
    intro n ops f hops hf dir d mode excl v
    obtain rfl : (if n.dirOps then ext4DirInodeOperations else ext4FileInodeOperations) = ops :=
      Option.some_inj.1 hops
    split at hf
    · obtain rfl := Option.some_inj.1 hf
      exact makes_ext4Create dir d mode excl v
    · exact absurd hf.symm (Option.some_ne_none f)
  unlink := by
    intro n f hf dir d v
    obtain ⟨-, htable⟩ := Option.ite_none_right_eq_some.1 hf
    obtain rfl := Option.some_inj.1 htable
    exact unhooks_ext4Unlink dir d v
  rmdir := by
    intro n f hf dir d v
    obtain ⟨-, htable⟩ := Option.ite_none_right_eq_some.1 hf
    obtain rfl := Option.some_inj.1 htable
    exact unhooks_ext4Rmdir dir d v
  fopOpen := by
    intro n f hf i file v
    obtain rfl := Option.some_inj.1 hf
    exact quiet_ext4FileOpen i file v
  release f v := quiet_onInode FsFile.keeps_attrs_ext4FileRelease f.fInode v

/-! ### From a mount on -/

/-- The caches before a filesystem is mounted: no dentry, no current directory, no open file. -/
structure Vfs.Unmounted {ι σ : Type} (v : Vfs ι σ) : Prop where
  dcache : v.dcache = fun _ ↦ none
  vfsCwd : v.vfsCwd = none
  fds : v.fds = fun _ ↦ none

/-- There is one dentry, the root of a mounted filesystem. -/
structure Vfs.Mounted (v : Ext4Vfs) : Prop where
  root : ∃ d e i n, d < dcacheMaxDentries ∧ v.dcache = Function.update (fun _ ↦ none) d (some e) ∧
    e.dCount = 1 ∧ e.dParent = some d ∧ e.dSubdirs = [] ∧ e.dInode = some i ∧
    v.inodes i = some ⟨2, n⟩ ∧ sIsdir n.info.iMode = true ∧ v.sRoot = some d
  vfsCwd : v.vfsCwd = none
  fds : v.fds = fun _ ↦ none

/-- A dentry without parent is allocated, or there is none left. -/
theorem dAlloc_none_cases {ι σ : Type} (q : Qstr) (v : Vfs ι σ) : (dAlloc none q v).val = (none, v) ∨
    ∃ d e, d < dcacheMaxDentries ∧ e.dCount = 1 ∧ e.dParent = none ∧ e.dSubdirs = [] ∧
      (dAlloc none q v).val = (some d, v.setDentry d (some e)) := by
  rw [dAlloc]
  rcases hfree : freeDentry v with _ | d
  · exact Or.inl rfl
  have hmem := List.mem_of_find?_eq_some hfree
  dsimp only
  split
  · exact Or.inr ⟨d, _, List.mem_range.1 hmem, rfl, rfl, rfl, rfl⟩
  · exact Or.inl rfl

/-- A dentry without parent gets an inode. -/
theorem dInstantiate_root {ι σ : Type} {d i : ℕ} {e : Dentry} {n : ι} {v : Vfs ι σ} (he : e.dParent = none)
    (hn : v.inodes i = some ⟨1, n⟩) : dInstantiate d i (v.setDentry d (some e)) =
      { v with
        dcache := Function.update v.dcache d (some { e with dInode := some i })
        inodes := Function.update v.inodes i (some ⟨2, n⟩) } := by
  have hpar : ((v.setDentry d (some e)).modifyDentry d fun e ↦ { e with dInode := some i }).dParent d = none := by
    rw [Vfs.dParent, Vfs.dcache_modifyDentry, Function.update_self, Vfs.dcache_setDentry, Function.update_self]
    exact he
  rw [dInstantiate_eq]
  dsimp only
  rw [hpar, Option.elim_none, Vfs.modifyDentry, Vfs.dcache_setDentry, Function.update_self, Vfs.setDentry,
    Vfs.setDentry, Vfs.setInode]
  dsimp only
  rw [Function.update_idem, hn]
  rfl

/-- A root whose type is damaged is made a directory. -/
theorem exists_rootInode (i : ℕ) (n : Ext4Inode) (v : Ext4Vfs) : ∃ m, sIsdir m.info.iMode = true ∧
    Vfs.setInode { v with inodes := Function.update v.inodes i (some ⟨1, n⟩) } i
      ((some (⟨1, n⟩ : VfsInode Ext4Inode)).map fun n ↦ if sIsdir n.node.info.iMode then n
        else { n with node := ⟨{ n.node.info with iMode := sIfdir ||| 0o755, iNlink := 2 }, true⟩ }) =
      { v with inodes := Function.update v.inodes i (some ⟨1, m⟩) } := by
  rw [Vfs.setInode, Option.map_some]
  dsimp only
  rw [Function.update_idem]
  by_cases hdir : sIsdir n.info.iMode = true
  · exact ⟨n, hdir, by rw [if_pos hdir]⟩
  · exact ⟨⟨{ n.info with iMode := sIfdir ||| 0o755, iNlink := 2 }, true⟩,
      (by decide : sIsdir (sIfdir ||| 0o755) = true), by rw [if_neg hdir]⟩

/-- What `ext4_fill_super` adds: the dentry of the root and its in-core inode. -/
theorem ext4FillRoot_cases {ino : ℕ} (hroot : ext4FillRoot ino v = some w) : ∃ s d e i n,
    s.fs.SameDisk v.fs.fs ∧ d < dcacheMaxDentries ∧ e.dCount = 1 ∧ e.dParent = some d ∧ e.dSubdirs = [] ∧
      e.dInode = some i ∧ sIsdir n.info.iMode = true ∧ w = { v with
        dcache := Function.update v.dcache d (some e)
        inodes := Function.update v.inodes i (some ⟨2, n⟩)
        fs := s
        sRoot := some d } := by
  rw [ext4FillRoot] at hroot
  obtain ⟨fs', hstill, -, hget | ⟨-, hget⟩ | ⟨i, -, hi, -, buf, o, -, hget⟩⟩ := ext4Iget_cases ino v
  · rw [hget] at hroot
    exact absurd hroot.symm (Option.some_ne_none w)
  · rw [hget] at hroot
    exact absurd hroot.symm (Option.some_ne_none w)
  have hsame : (v.fs.withFs fs').takeInfo.fs.SameDisk v.fs.fs := by
    obtain ⟨hdev, hbs, hsbi⟩ := Fs.sameDisk_of_still hstill
    exact ⟨hdev, hbs, hsbi⟩
  set s := (v.fs.withFs fs').takeInfo
  set n := Ext4Inode.fill ino buf o v.fs.fs.sbi.sInodesPerGroup
  obtain ⟨m, hdir, hset⟩ := exists_rootInode i n { v with fs := s }
  rw [hget] at hroot
  dsimp only at hroot hset
  rw [Function.update_self, hset, Touch.val_bind] at hroot
  generalize (qstrInit (fun _ ↦ Namei.slash) 1).val = q at hroot
  rcases dAlloc_none_cases q ({ v with inodes := Function.update v.inodes i (some ⟨1, m⟩), fs := s } : Ext4Vfs) with
    hnone | ⟨d, e, hlt, hcount, hpar, hsub, hsome⟩
  · rw [hnone] at hroot
    exact absurd hroot.symm (Option.some_ne_none w)
  rw [hsome] at hroot
  obtain rfl := Option.some_inj.1 hroot
  rw [dInstantiate_root hpar (n := m) (Function.update_self ..)]
  refine ⟨s, d, { e with dInode := some i, dParent := some d }, i, m, hsame, hlt, hcount, rfl, hsub, rfl, hdir, ?_⟩
  simp only [Vfs.modifyDentry, Vfs.setDentry, Function.update_self, Option.map_some, Function.update_idem]

/-- `ext4_fill_super` leaves the root as the only dentry. -/
theorem mounted_ext4FillRoot {ino : ℕ} (h : v.Unmounted) (hroot : ext4FillRoot ino v = some w) :
    w.Mounted := by
  obtain ⟨s, d, e, i, n, -, hlt, hcount, hpar, hsub, hinode, hdir, rfl⟩ := ext4FillRoot_cases hroot
  refine ⟨⟨d, e, i, n, hlt, ?_, hcount, hpar, hsub, hinode, Function.update_self .., hdir, rfl⟩, h.vfsCwd, h.fds⟩
  dsimp only
  rw [h.dcache]

/-- The one reference is that of `s_root`. -/
theorem Vfs.Mounted.counted (h : v.Mounted) : Counted ext4FileSystem v 0 := by
  obtain ⟨d, e, i, n, hlt, hcache, hcount, hpar, hsub, hnode, hi, hdir, hroot⟩ := h.root
  have hd : v.dcache d = some e := by rw [hcache, Function.update_self]
  -- after a mount the root is the only dentry
  have honly : ∀ {x f}, v.dcache x = some f → x = d ∧ f = e := by
    intro x f hx
    by_cases hxd : x = d
    · exact ⟨hxd, Option.some_inj.1 ((hxd ▸ hx).symm.trans hd)⟩
    · rw [hcache, Function.update_of_ne hxd] at hx
      exact absurd hx.symm (Option.some_ne_none f)
  have hopen : openOn v.fds = fun _ ↦ ∅ := by
    funext x
    rw [openOn, h.fds]
    exact Finset.filter_eq_empty_iff.2 fun _ _ ↦ (Option.some_ne_none x).symm
  -- and `s_root` is the only variable that holds one
  have hheld : ∀ x, (held v + 0) x = if x = d then 1 else 0 := by
    intro x
    rw [add_zero, held, heldBy, hopen, hroot, h.vfsCwd, Finset.card_empty, if_neg (Option.some_ne_none x).symm]
    simp only [Option.some_inj, eq_comm, Nat.add_zero]
  have hkids : kids v.dParent d = ∅ := by
    rw [kids, Finset.filter_eq_empty_iff]
    rintro x - ⟨hxd, hx⟩
    obtain ⟨f, hf, -⟩ := Option.bind_eq_some_iff.1 hx
    exact hxd (honly hf).1
  refine ⟨⟨fun hx ↦ ?_, fun hx ↦ ?_, fun hx ↦ ?_, fun hx ↦ ?_, fun hx ↦ ?_, fun hx hmem ↦ ?_, fun hx ↦ ?_⟩,
    ⟨fun hx ↦ ?_, fun hx hy ↦ ?_⟩, d, ⟨2, n⟩, hroot, ?_, ?_, hdir⟩
  · rw [(honly hx).1]
    exact hlt
  · obtain ⟨rfl, rfl⟩ := honly hx
    rw [hheld, if_pos rfl, hkids, Finset.card_empty, hcount]
  · rw [(honly hx).2, hcount]
    exact one_pos
  · rw [hheld, if_neg]
    rintro rfl
    exact Option.some_ne_none e (hd.symm.trans hx)
  · obtain ⟨f, hf, hp⟩ := Option.bind_eq_some_iff.1 hx
    rw [(honly hf).2, hpar] at hp
    rw [← Option.some_inj.1 hp, hd]
    exact Option.some_ne_none e
  · rw [(honly hx).2, hsub] at hmem
    exact absurd hmem List.not_mem_nil
  · rw [(honly hx).2, hsub]
    exact List.nodup_nil
  · obtain ⟨f, hf, hj⟩ := Option.bind_eq_some_iff.1 hx
    rw [(honly hf).2, hnode] at hj
    exact ⟨⟨2, n⟩, by rw [← Option.some_inj.1 hj, hi], rfl⟩
  · obtain ⟨f, hf, -⟩ := Option.bind_eq_some_iff.1 hx
    obtain ⟨f', hf', -⟩ := Option.bind_eq_some_iff.1 hy
    exact (honly hf).1.trans (honly hf').1.symm
  · rw [hheld, if_pos rfl]
    exact one_pos
  · rw [Vfs.inodeOf, Vfs.dInode_of_some hd, hnode, Option.bind_some, hi]

/-- The small volume before its root is set up. -/
def smallVfs : Ext4Vfs where
  dcache _ := none
  inodes _ := none
  fs := ⟨Mkfs.smallFs, 0, false⟩
  sRoot := none
  vfsCwd := none
  fds _ := none

/-- The small filesystem before it is mounted. -/
theorem unmounted_small : smallVfs.Unmounted := ⟨rfl, rfl, rfl⟩

/-- It mounts. -/
theorem exists_fillRoot_small : ∃ w, ext4FillRoot 2 smallVfs = some w :=
  Option.isSome_iff_exists.1 (by decide +kernel)

/-- It is not a directory with the flag EXTENTS. -/
def Ext4Inode.Plain (n : Ext4Inode) : Prop := n.dirOps = true → n.info.hasExtents = false

namespace Ext4Vfs

/-- No directory has the flag EXTENTS, in core or on the disk. -/
structure NoExtentDirs (v : Ext4Vfs) : Prop where
  core : ∀ {i n}, v.inodes i = some n → n.node.Plain
  disk : ∀ {ino fs buf o}, fs.SameDisk v.fs.fs → (Fs.readRawInode ino fs).1 = some (buf, o) →
    (Ext4Inode.fill ino buf o fs.sbi.sInodesPerGroup).Plain

/-- Only the disk and the in-core inodes matter. -/
theorem NoExtentDirs.congr {v w : Ext4Vfs} (h : v.NoExtentDirs) (hfs : w.fs.fs.SameDisk v.fs.fs)
    (hcore : ∀ {i n}, w.inodes i = some n → n.node.Plain) : w.NoExtentDirs :=
  ⟨hcore, fun hsame hread ↦ h.disk (hsame.trans hfs) hread⟩

/-- The free slots of the pool of in-core inodes. -/
def freeInodes (v : Ext4Vfs) : Finset ℕ := (Finset.range vfsMaxInodes).filter fun i ↦ v.inodes i = none

/-- There are `k` in-core inodes left, and slots of the pool behind `malloc` for them. -/
def HasInodes (v : Ext4Vfs) (k : ℕ) : Prop := k ≤ v.freeInodes.card ∧ k < v.fs.fs.superPool

instance (v : Ext4Vfs) (k : ℕ) : Decidable (v.HasInodes k) := inferInstanceAs (Decidable (_ ∧ _))

variable {v : Ext4Vfs} {k p : ℕ} {b : Bool}

/-- A free slot of the inode table can be taken. -/
theorem freeInode_ne_none (h : 0 < v.freeInodes.card) : freeInode v ≠ none := by
  obtain ⟨i, hi⟩ := Finset.card_pos.1 h
  obtain ⟨hlt, hfree⟩ := Finset.mem_filter.1 hi
  rw [freeInode, Ne, List.find?_eq_none]
  exact fun hall ↦ hall i (List.mem_range.2 (Finset.mem_range.1 hlt)) (by rw [hfree]; rfl)

/-- Free slots that stay free are still as many. -/
theorem card_freeInodes_le {w : Ext4Vfs} (h : ∀ i, v.inodes i = none → w.inodes i = none) :
    v.freeInodes.card ≤ w.freeInodes.card := by
  refine Finset.card_le_card fun i hi ↦ ?_
  obtain ⟨hlt, hfree⟩ := Finset.mem_filter.1 hi
  exact Finset.mem_filter.2 ⟨hlt, h i hfree⟩

/-- One slot is taken. -/
theorem card_freeInodes_lt {w : Ext4Vfs} {i : ℕ} (hlt : i < vfsMaxInodes) (hi : v.inodes i = none)
    (h : ∀ j, j ≠ i → v.inodes j = none → w.inodes j = none) :
    v.freeInodes.card ≤ w.freeInodes.card + 1 := by
  have hmem : i ∈ v.freeInodes := Finset.mem_filter.2 ⟨Finset.mem_range.2 hlt, hi⟩
  rw [← Finset.card_erase_add_one hmem, Nat.add_le_add_iff_right]
  refine Finset.card_le_card fun j hj ↦ ?_
  obtain ⟨hji, hj⟩ := Finset.mem_erase.1 hj
  obtain ⟨hjlt, hfree⟩ := Finset.mem_filter.1 hj
  exact Finset.mem_filter.2 ⟨hjlt, h j hji hfree⟩

end Ext4Vfs

/-- Where they differ in the answers of the device only. -/
theorem Vfs.SameBy.sameButFaults {v w : Ext4Vfs} (h : w.SameBy Ext4State.Same v)
    (hpool : w.fs.fs.extPool = v.fs.fs.extPool) (hnull : w.fs.nullWrite = v.fs.nullWrite) :
    w.SameBy Ext4State.SameButFaults v := by
  obtain ⟨s, hs, rfl⟩ := h
  exact ⟨s, hs.sameButFaults hpool hnull, rfl⟩

/-- Without extents no lookup loses a buffer. -/
theorem keptByWalk_noExtentDirs (p : ℕ) :
    KeptByWalk ext4FileSystem fun _ (v : Ext4Vfs) ↦ v.NoExtentDirs ∧ v.fs.fs.extPool = p where
  mono _ h := h
  dcache _ h := ⟨⟨h.1.core, h.1.disk⟩, h.2⟩
  iput {k v} i h := by
    rw [iput]
    rcases hi : v.inodes i with _ | n
    · exact h
    -- every other inode stays as it was
    have hset : ∀ m : Option (VfsInode Ext4Inode), (∀ n', m = some n' → n'.node.Plain) → ∀ {j n'},
        Function.update v.inodes i m j = some n' → n'.node.Plain := by
      intro m hm j n' hj
      by_cases hji : j = i
      · rw [hji, Function.update_self] at hj
        exact hm n' hj
      · rw [Function.update_of_ne hji] at hj
        exact h.1.core hj
    dsimp only
    split
    · -- the last reference is gone, or one of several
      refine ⟨h.1.congr ⟨rfl, rfl, rfl⟩ fun {j n'} hj ↦ ?_, h.2⟩
      change Function.update (Function.update v.inodes i _) i none j = some n' at hj
      rw [Function.update_idem] at hj
      exact hset none (fun _ hn ↦ absurd hn.symm (Option.some_ne_none _)) hj
    · refine ⟨h.1.congr ⟨rfl, rfl, rfl⟩ fun {j n'} hj ↦ hset _ (fun m hm ↦ ?_) hj, h.2⟩
      rw [← Option.some_inj.1 hm]
      exact (h.1.core hi : n.node.Plain)
  lookup {k v dir n ops lookup} d hn hops hlookup h := by
    obtain ⟨hdir, rfl⟩ := Ext4Inode.lookup_eq hops hlookup
    obtain ⟨fs', hstill, hpool, hlook⟩ := ext4Lookup_cases dir d v
    have hext := hpool fun m hm ↦ by
      obtain rfl := Option.some_inj.1 (hn.symm.trans hm)
      exact h.1.core hn hdir
    have hsame : fs'.SameDisk v.fs.fs := Fs.sameDisk_of_still hstill
    rcases hlook with hlook | ⟨-, hlook⟩ | ⟨i, -, hi, -, ino, fs, buf, o, hfs, hread, hlook⟩
    · rw [hlook]
      exact ⟨h.1.congr hsame h.1.core, hext.trans h.2⟩
    · rw [hlook]
      exact ⟨h.1.congr hsame h.1.core, hext.trans h.2⟩
    · -- The inode is one that the disk has.
      rw [hlook, fs_dInstantiate]
      refine ⟨h.1.congr (by rw [fs_dInstantiate]; exact ⟨hsame.dev, hsame.blockSize, hsame.sbi⟩)
        fun {j m} hj ↦ ?_, hext.trans h.2⟩
      rw [inodes_dInstantiate] at hj
      dsimp only at hj
      rw [Function.update_idem, Function.update_self] at hj
      by_cases hji : j = i
      · rw [hji, Function.update_self] at hj
        obtain rfl := Option.some_inj.1 hj
        exact h.1.disk (Fs.sameDisk_of_still hfs) hread
      · rw [Function.update_of_ne hji] at hj
        exact h.1.core hj

/-- Where there is an inode for each lookup nothing is written through NULL. -/
theorem keptByWalk_hasInodes (b : Bool) :
    KeptByWalk ext4FileSystem fun k (v : Ext4Vfs) ↦ v.HasInodes k ∧ v.fs.nullWrite = b where
  mono hkl h := ⟨⟨hkl.trans h.1.1, hkl.trans_lt h.1.2⟩, h.2⟩
  dcache _ h := h
  iput {k v} i h := by
    rw [iput]
    rcases hi : v.inodes i with _ | n
    · exact h
    dsimp only
    split
    · refine ⟨⟨h.1.1.trans (Ext4Vfs.card_freeInodes_le fun j hj ↦ ?_),
        h.1.2.trans (Nat.lt_succ_self _)⟩, h.2⟩
      change Function.update (Function.update v.inodes i _) i none j = none
      by_cases hji : j = i
      · rw [hji, Function.update_self]
      · rw [Function.update_of_ne hji, Function.update_of_ne hji, hj]
    · refine ⟨⟨h.1.1.trans (Ext4Vfs.card_freeInodes_le fun j hj ↦ ?_), h.1.2⟩, h.2⟩
      change Function.update v.inodes i _ j = none
      have hji : j ≠ i := fun hji ↦ Option.some_ne_none n (hi.symm.trans (hji ▸ hj))
      rw [Function.update_of_ne hji, hj]
  lookup {k v dir n ops lookup} d hn hops hlookup h := by
    obtain ⟨-, rfl⟩ := Ext4Inode.lookup_eq hops hlookup
    obtain ⟨fs', hstill, -, hlook⟩ := ext4Lookup_cases dir d v
    have hsuper := Fs.superPool_eq_of_still hstill
    obtain ⟨hcard, hpool⟩ := h.1
    rcases hlook with hlook | ⟨hfull | hfull, -⟩ | ⟨i, hlt, hi, hone, ino, fs, buf, o, -, -, hlook⟩
    · rw [hlook]
      exact ⟨⟨(Nat.le_succ k).trans hcard, hsuper.symm ▸ (Nat.lt_succ_self k).trans hpool⟩, h.2⟩
    · -- there is a free inode and a free slot, by assumption
      exact absurd hfull (Ext4Vfs.freeInode_ne_none (Nat.lt_of_lt_of_le (Nat.succ_pos k) hcard))
    · omega
    · rw [hlook]
      refine ⟨⟨?_, ?_⟩, ?_⟩
      · have hle := Ext4Vfs.card_freeInodes_lt (w := dInstantiate d i { v with
            inodes := Function.update v.inodes i (some ⟨1, Ext4Inode.fill ino buf o fs.sbi.sInodesPerGroup⟩)
            fs := (v.fs.withFs fs').takeInfo }) hlt hi fun j hji hj ↦ by
          rw [inodes_dInstantiate, Function.update_of_ne hji]
          exact (Function.update_of_ne hji _ _).trans hj
        exact Nat.le_of_add_le_add_right (hcard.trans hle)
      · rw [fs_dInstantiate]
        change k < fs'.superPool - 1
        omega
      · rw [fs_dInstantiate]
        exact h.2

/-- What a path lookup from `v` leaves: as it was up to `R` where nothing is found, and otherwise one more
reference and cached dentries on the way, all of which `dput` takes back. -/
def LooksUpPath (R : Ext4State → Ext4State → Prop) (v : Ext4Vfs) (ext : ℕ → ℕ) (r : Option ℕ × Ext4Vfs) : Prop :=
  match r with
  | (none, w) => w.SameBy R v
  | (some d, w) => Refs w (bump d ext) ∧ CacheGrown v w ∧ (dput ext4FileSystem d w).SameBy R v

/-- What ext4 is after a directory was made on the small volume. -/
def madeFs : Ext4State := ((ext4FillRoot 2 smallVfs).elim smallVfs
  (VfsCall.runAll ext4FileSystemOps [.mkdir [97] 0 Buf.zero Buf.zero Buf.zero])).fs

/-- It is mounted again. -/
def remountedVfs : Ext4Vfs := { smallVfs with fs := madeFs }

theorem sectored_made : madeFs.fs.Sectored := ⟨by decide +kernel, by decide +kernel, by decide +kernel⟩

theorem inodesPerGroup_made : madeFs.fs.sbi.sInodesPerGroup = 64 := by decide +kernel

theorem groups_made : madeFs.fs.sbi.sGroupsCount = 1 := by decide +kernel

/-- No inode on its disk is a directory with extents. -/
theorem plain_made : ∀ ino < 65,
    (Ext4Inode.fill ino (madeFs.fs.block (madeFs.fs.rawSlot ino).1) (madeFs.fs.rawSlot ino).2 64).Plain := by
  unfold Ext4Inode.Plain
  decide +kernel

theorem noExtentDirs_remounted {w : Ext4Vfs} (hw : ext4FillRoot 2 remountedVfs = some w)
    (hroot : (w.inodes 0).map (fun n ↦ n.node.dirOps && n.node.info.hasExtents) = some false) :
    w.NoExtentDirs := by
  obtain ⟨s, d, e, i, n, hsame, -, -, -, -, -, -, rfl⟩ := ext4FillRoot_cases hw
  refine ⟨fun {j m} hj hdir ↦ ?_, fun {ino fs buf o} hfs hread ↦ ?_⟩
  · -- Slot 0 is the only one in use.
    have honly : ∀ {x m'}, Function.update (fun _ ↦ none) i (some (⟨2, n⟩ : VfsInode Ext4Inode)) x = some m' →
        x = i ∧ m' = ⟨2, n⟩ := by
      intro x m' hx
      by_cases hxi : x = i
      · rw [hxi, Function.update_self] at hx
        exact ⟨hxi, (Option.some_inj.1 hx).symm⟩
      · rw [Function.update_of_ne hxi] at hx
        exact absurd hx.symm (Option.some_ne_none m')
    obtain ⟨m₀, hm₀, hplain⟩ := Option.map_eq_some_iff.1 hroot
    obtain ⟨-, rfl⟩ := honly hm₀
    obtain ⟨-, rfl⟩ := honly hj
    rwa [hdir, Bool.true_and] at hplain
  · have hdisk : fs.SameDisk madeFs.fs := hfs.trans hsame
    obtain ⟨hino, hipg, hgroup, rfl, rfl⟩ := Fs.readRawInode_of_some (hdisk.sectored sectored_made) hread
    rw [hdisk.sbi, inodesPerGroup_made] at hgroup hipg ⊢
    rw [hdisk.rawSlot_eq, hdisk.block_eq]
    exact plain_made ino (by rw [groups_made] at hgroup; omega)

end MiniExt4
