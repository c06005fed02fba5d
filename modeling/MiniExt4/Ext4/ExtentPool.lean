import MiniExt4.Ext4.ExtentRun
import MiniExt4.Ext4.File
import MiniExt4.Machine.Keeps
import MiniExt4.Machine.Ring

/-!
# The buffers of `extents.c`

A descent takes a buffer for each node below the root, and `ext4_extents_free_path` gives them back. But
the callers know the length of a path only when the descent has succeeded, and a descent that fails
frees none of those it has stored: they are lost (`extPool_iff`). No other statement of a call changes
the pool for good, whatever the nodes say and whatever the device does.

Two kinds of statements are kept apart: those that leave the pool as it is (`Keeps`), which is proved along
the combinators and covers the allocator with all its error returns, and those that take a buffer and owe
it. A function that owes one is followed to the call that returns it (`Returns`, `Yields`), on every path.
What remains is the descent, whose loss is exactly the buffers it has stored (`readPathLoop_spec`), and
`Strands` says on the state before the call that there is one and that the descent does not come to a leaf.
-/

namespace MiniExt4

open StateErr

namespace Fs

/-! ### Statements that leave the pool alone -/

/-- Reading a block. -/
theorem keeps_readBlock (b : ℕ) : Keeps extPool (readBlock b) :=
  ⟨fun _ ↦ rfl⟩

/-- Writing a block. -/
theorem keeps_writeBlock (b : ℕ) (buf : Buf) : Keeps extPool (writeBlock b buf) :=
  ⟨fun _ ↦ rfl⟩

/-- What is in memory of the superblock is apart from the pool. -/
theorem keeps_modifySbi (f : SbInfo → SbInfo) : Keeps extPool (modifySbi f) :=
  ⟨fun _ ↦ rfl⟩

/-- The buffers of the allocator are of another pool. -/
theorem keeps_mallocBlock : Keeps extPool mallocBlock := .get_bind fun _ ↦ .guard _

/-- Reading a descriptor. -/
theorem keeps_readGroupDesc (group : ℕ) : Keeps extPool (readGroupDesc group) :=
  .get_bind fun _ ↦ (Keeps.guard _).bind fun _ ↦ (Keeps.guard _).bind fun _ ↦
    keeps_mallocBlock.bind fun _ ↦ (keeps_readBlock _).bind fun _ ↦ .pure _

/-- Writing a descriptor. -/
theorem keeps_writeGroupDesc (group : ℕ) (gd : Buf) : Keeps extPool (writeGroupDesc group gd) :=
  .get_bind fun _ ↦ (Keeps.guard _).bind fun _ ↦ (Keeps.guard _).bind fun _ ↦
    keeps_mallocBlock.bind fun _ ↦ (keeps_readBlock _).bind fun _ ↦ keeps_writeBlock _ _

/-- Summing the counts of the groups: an induction on their number. -/
theorem keeps_sumFreeCounts (n g cur : ℕ) (gdBuf : Buf) (freeBlocks freeInodes : ℕ) :
    Keeps extPool (sumFreeCounts n g cur gdBuf freeBlocks freeInodes) := by
  induction n generalizing g cur gdBuf freeBlocks freeInodes with
  | zero => exact .pure _
  | succ n ih =>
    refine .get_bind fun fs ↦ .ite (ih ..) (.bind ?_ fun _ ↦ ih ..)
    exact .ite (keeps_readBlock _) (.pure _)

/-- Writing the counts back to the superblock. -/
theorem keeps_ext4SyncSuperFreeCounts : Keeps extPool ext4SyncSuperFreeCounts :=
  .get_bind fun _ ↦ (Keeps.guard _).bind fun _ ↦ (Keeps.guard _).bind fun _ ↦ (keeps_readBlock _).bind fun _ ↦
    (keeps_sumFreeCounts ..).bind fun _ ↦ keeps_writeBlock _ _

/-- Counting a change. -/
theorem keeps_bgSync : Keeps extPool bgSync :=
  (keeps_modifySbi _).bind fun _ ↦ .get_bind fun _ ↦
    .ite (keeps_ext4SyncSuperFreeCounts.attempt.bind fun _ ↦ keeps_modifySbi _) (.pure _)

/-- Storing a descriptor, in memory too. -/
theorem keeps_storeGroupDesc (g : ℕ) (gd : Buf) : Keeps extPool (storeGroupDesc g gd) :=
  (keeps_writeGroupDesc g gd).bind fun _ ↦ keeps_modifySbi _

/-- Writing a bitmap. -/
theorem keeps_writeBlockBitmap (b : ℕ) (buf : Buf) : Keeps extPool (writeBlockBitmap b buf) :=
  (Keeps.guard _).bind fun _ ↦ keeps_writeBlock _ _

/-- Writing the cached bitmap back. -/
theorem keeps_bmapCacheFlush : Keeps extPool bmapCacheFlush :=
  .get_bind fun _ ↦ .ite ((keeps_readGroupDesc _).bind fun _ ↦ (keeps_writeBlockBitmap _ _).bind fun _ ↦
    keeps_modifySbi _) (.pure _)

/-- Loading a bitmap into the cache. -/
theorem keeps_bmapCacheLoad (group : ℕ) (gd : Buf) : Keeps extPool (bmapCacheLoad group gd) :=
  .get_bind fun _ ↦ .ite (.pure _) (keeps_bmapCacheFlush.bind fun _ ↦ (keeps_readGroupDesc _).bind fun _ ↦
    (Keeps.guard _).bind fun _ ↦ Keeps.bind ⟨fun _ ↦ rfl⟩ fun _ ↦ (keeps_modifySbi _).bind fun _ ↦ .pure _)

/-! ### The allocator -/

/-- Taking a run of blocks. -/
theorem keeps_takeRun (blocksCount groupsCount g groupStart groupBlocks i allocLen : ℕ) (gd : Buf) :
    Keeps extPool (takeRun blocksCount groupsCount g groupStart groupBlocks i allocLen gd) :=
  (keeps_modifySbi _).bind fun _ ↦ (Keeps.guard _).bind fun _ ↦ (Keeps.guard _).bind fun _ ↦
    (Keeps.guard _).bind fun _ ↦ (keeps_modifySbi _).bind fun _ ↦ keeps_bmapCacheFlush.bind fun _ ↦
      (keeps_storeGroupDesc _ _).bind fun _ ↦ (keeps_modifySbi _).bind fun _ ↦ keeps_bgSync.bind fun _ ↦
        .pure _

/-- Looking for a run in one group. -/
theorem keeps_tryGroup (goalLen : ℕ) (requireFullGoal : Bool)
    (blocksPerGroup blocksCount groupsCount g : ℕ) :
    Keeps extPool (tryGroup goalLen requireFullGoal blocksPerGroup blocksCount groupsCount g) := by
  unfold tryGroup
  refine .ite (.pure _) (.ite (.pure _) ((keeps_readGroupDesc g).attempt.bind fun gd ↦ ?_))
  cases gd with
  | none => exact .pure _
  | some gd =>
    refine .ite (.pure _) ((keeps_bmapCacheLoad g gd).attempt.bind fun gd ↦ ?_)
    cases gd with
    | none => exact .pure _
    | some gd =>
      exact .get_bind fun _ ↦ .ite (.pure _) ((keeps_takeRun ..).bind fun _ ↦ .pure _)

/-- Looking through the groups: an induction on how many are left. -/
theorem keeps_scanGroups (goalLen : ℕ) (requireFullGoal : Bool)
    (blocksPerGroup blocksCount groupsCount startGroup n scanned : ℕ) : Keeps extPool
      (scanGroups goalLen requireFullGoal blocksPerGroup blocksCount groupsCount startGroup n scanned) := by
  induction n generalizing scanned with
  | zero => exact .pure _
  | succ n ih =>
    refine (keeps_tryGroup ..).bind fun r ↦ ?_
    cases r with
    | none => exact ih _
    | some r => exact .pure _

/-- The block allocator has no slot of the extent pool. -/
theorem keeps_ext4NewBlocksInGroup (goalLen preferredGroup : ℕ) :
    Keeps extPool (ext4NewBlocksInGroup goalLen preferredGroup) := by
  refine .get_bind fun _ ↦ (Keeps.guard _).bind fun _ ↦ (Keeps.ofOption _).bind fun _ ↦
    (keeps_scanGroups ..).bind fun r ↦ ?_
  cases r with
  | some r => exact .pure _
  | none =>
    refine .ite .fail ((keeps_scanGroups ..).bind fun r ↦ ?_)
    cases r with
    | some r => exact .pure _
    | none => exact .fail

/-- Nor has the allocation of a single block. -/
theorem keeps_ext4NewBlock : Keeps extPool ext4NewBlock :=
  (keeps_ext4NewBlocksInGroup _ _).bind fun _ ↦ .pure _

end Fs

namespace FsInode

/-- The free slots of the pool. -/
abbrev pool (s : FsInode) : ℕ := s.fs.extPool

/-- What the filesystem does without a slot, an inode over it does without one. -/
theorem keeps_onFs {α : Type} {x : StateErr Fs α} (h : Keeps Fs.extPool x) : Keeps pool (onFs x) :=
  ⟨fun s ↦ h.snd_eq s.fs⟩

/-- The words of the inode are apart from the pool. -/
theorem keeps_modifyInode (f : Inode → Inode) : Keeps pool (modifyInode f) := ⟨fun _ ↦ rfl⟩

/-! ### Buffers -/

/-- Whether or not `x` succeeds, it gives one buffer back. -/
structure Returns {α : Type} (x : StateErr FsInode α) : Prop where
  snd_eq : ∀ s, pool (x s).2 = pool s + 1

/-- A slot is taken, and given back by what follows. -/
theorem keeps_extMalloc_bind {α : Type} {f : Unit → StateErr FsInode α} (h : Returns (f ())) :
    Keeps pool (extMalloc >>= f) := by
  refine ⟨fun s ↦ ?_⟩
  by_cases hroom : s.fs.blockSize ≤ blockSizeDefault ∧ 0 < s.fs.extPool
  · have hmalloc : extMalloc s = (some (), { s with fs := { s.fs with extPool := s.fs.extPool - 1 } }) := by
      rw [extMalloc, get_bind, guard_true hroom]
      rfl
    rw [bind_of_eq_some hmalloc, h.snd_eq]
    show s.fs.extPool - 1 + 1 = s.fs.extPool
    omega
  · have hmalloc : extMalloc s = (none, s) := by
      rw [extMalloc, get_bind, guard_false hroom]
      rfl
    rw [bind_of_eq_none hmalloc]

/-- What holds its slot until the last statement. -/
theorem Returns.keeps_bind {α β : Type} {x : StateErr FsInode α} {f : α → StateErr FsInode β}
    (hx : Keeps pool x) (hnone : ∀ s, (x s).1 ≠ none) (hf : ∀ a, Returns (f a)) : Returns (x >>= f) := by
  refine ⟨fun s ↦ ?_⟩
  rcases h : x s with ⟨_ | a, s'⟩
  · exact absurd (congrArg Prod.fst h) (hnone s)
  · rw [bind_of_eq_some h, (hf a).snd_eq, ← hx.snd_eq s, h]

/-- A statement that may fail, and whose buffer is freed either way. -/
theorem returns_orFree_bind {α β : Type} {x : StateErr FsInode α} {f : α → StateErr FsInode β}
    (hx : Keeps pool x) (hf : ∀ a, Returns (f a)) : Returns (orFree x >>= f) := by
  refine ⟨fun s ↦ ?_⟩
  have hkept := hx.snd_eq s
  rcases h : x s with ⟨_ | a, s'⟩ <;> rw [h] at hkept
  · have hrun : orFree x s = (none, { s' with fs := { s'.fs with extPool := s'.fs.extPool + 1 } }) := by
      rw [orFree, attempt_bind, h]
      rfl
    rw [bind_of_eq_none hrun, ← hkept]
  · have hrun : orFree x s = (some a, s') := by
      rw [orFree, attempt_bind, h]
      rfl
    rw [bind_of_eq_some hrun, (hf a).snd_eq, ← hkept]

/-- The slot is given back first. -/
theorem returns_extFree_bind {α : Type} {f : Unit → StateErr FsInode α} (hf : Keeps pool (f ())) :
    Returns (extFree 1 >>= f) :=
  ⟨fun s ↦ by rw [extFree, modify_bind, hf.snd_eq]⟩

/-! ### Insertions -/

/-- Putting a node back in place. -/
theorem keeps_setNode (node : PathNode) (eh : Buf) : Keeps pool (setNode node eh) :=
  .ite ((keeps_modifyInode _).bind fun _ ↦ .pure _) (.pure _)

/-- Writing a node of the path. -/
theorem keeps_ext4ExtentsWritePathNode (node : PathNode) : Keeps pool (ext4ExtentsWritePathNode node) :=
  .ite (keeps_onFs (Fs.keeps_writeBlock _ _)) (.pure _)

/-- Allocating the block of a node. -/
theorem keeps_newNodeBlock (fsBlocksCount : ℕ) : Keeps pool (newNodeBlock fsBlocksCount) :=
  (keeps_onFs Fs.keeps_ext4NewBlock).bind fun _ ↦ (Keeps.guard _).bind fun _ ↦ .pure _

/-- The buffer is freed at the end of `x`, if it comes to its end. -/
structure Yields {α : Type} (x : StateErr FsInode α) : Prop where
  none_eq : ∀ s s', x s = (none, s') → pool s' = pool s
  some_eq : ∀ s s' a, x s = (some a, s') → pool s' = pool s + 1

/-- What comes before the statement that gives the slot back. -/
theorem Yields.keeps_bind {α β : Type} {x : StateErr FsInode α} {f : α → StateErr FsInode β}
    (hx : Keeps pool x) (hf : ∀ a, Yields (f a)) : Yields (x >>= f) := by
  constructor
  · intro s s' hrun
    have hkept := hx.snd_eq s
    rcases h : x s with ⟨_ | a, s₁⟩ <;> rw [h] at hkept
    · rw [bind_of_eq_none h] at hrun
      exact (Prod.mk.inj hrun).2 ▸ hkept
    · rw [bind_of_eq_some h] at hrun
      exact ((hf a).none_eq _ _ hrun).trans hkept
  · intro s s' b hrun
    obtain ⟨a, s₁, h, hrun⟩ := bind_eq_some_iff.1 hrun
    have hkept := hx.snd_eq s
    rw [h] at hkept
    rw [(hf a).some_eq _ _ _ hrun, hkept]

/-- The slot is given back last. -/
theorem yields_extFree {α : Type} (a : α) : Yields (extFree 1 >>= fun _ ↦ pure a) where
  none_eq _ _ h := by simp [extFree] at h
  some_eq _ _ _ h := by
    rw [← (Prod.mk.inj h).2]

/-- On failure the slot is given back at once. -/
theorem returns_orFree {α : Type} {x : StateErr FsInode α} (h : Yields x) : Returns (orFree x) := by
  refine ⟨fun s ↦ ?_⟩
  rw [orFree, attempt_bind]
  rcases hx : x s with ⟨_ | a, s'⟩
  · have hkept := h.none_eq _ _ hx
    exact congrArg (· + 1) hkept
  · exact h.some_eq _ _ _ hx

/-- Both halves of a node are stored, or it fails; the buffer of the right one is freed. -/
theorem keeps_storeHalves (fsBlocksCount : ℕ) (node : PathNode) (left right : Buf) :
    Keeps pool (storeHalves fsBlocksCount node left right) := by
  refine keeps_extMalloc_bind (.keeps_bind (keeps_setNode node left) (fun s ↦ ?_) fun node ↦ ?_)
  · unfold setNode
    split <;> simp [modifyInode]
  · exact returns_orFree (.keeps_bind (keeps_newNodeBlock _) fun _ ↦
      .keeps_bind (keeps_ext4ExtentsWritePathNode _) fun _ ↦
        .keeps_bind (keeps_onFs (Fs.keeps_writeBlock _ _)) fun _ ↦ yields_extFree _)

/-- Splitting a leaf takes a slot and gives it back on every way out. -/
theorem keeps_ext4ExtentsSplitLeaf (leaf : PathNode) (fsBlocksCount : ℕ) (newEx : Extent) :
    Keeps pool (ext4ExtentsSplitLeaf leaf fsBlocksCount newEx) :=
  .get_bind fun _ ↦ (Keeps.guard _).bind fun _ ↦ (keeps_storeHalves ..).bind fun _ ↦ .pure _

/-- So does adding an index, at every level. -/
theorem keeps_ext4ExtentsAddIndex (fsBlocksCount : ℕ) (path : List PathNode) (rightBlk key : ℕ) :
    Keeps pool (ext4ExtentsAddIndex fsBlocksCount path rightBlk key) := by
  induction path generalizing rightBlk key with
  | nil => exact .pure _
  | cons node up ih =>
    refine .get_bind fun s ↦ .ite ?_ ?_
    · exact (keeps_setNode ..).bind fun _ ↦ (keeps_ext4ExtentsWritePathNode _).bind fun _ ↦ .pure _
    · exact (Keeps.guard _).bind fun _ ↦ (keeps_storeHalves ..).bind fun _ ↦ ih _ _

/-- So does growing the tree. -/
theorem keeps_ext4ExtentsGrowIndepth (fsBlocksCount rightBlk key : ℕ) :
    Keeps pool (ext4ExtentsGrowIndepth fsBlocksCount rightBlk key) :=
  .get_bind fun _ ↦ (Keeps.guard _).bind fun _ ↦ (Keeps.guard _).bind fun _ ↦
    (keeps_newNodeBlock _).bind fun _ ↦ keeps_extMalloc_bind (returns_orFree_bind
      (keeps_onFs (Fs.keeps_writeBlock _ _)) fun _ ↦ returns_extFree_bind (keeps_modifyInode _))

/-- Inserting into a leaf needs no slot. -/
theorem keeps_ext4ExtentsInsertAtLeaf (leaf : PathNode) (newEx : Extent) :
    Keeps pool (ext4ExtentsInsertAtLeaf leaf newEx) := by
  unfold ext4ExtentsInsertAtLeaf
  split
  · exact .pure _
  · refine (keeps_setNode ..).bind fun leaf ↦ (keeps_ext4ExtentsWritePathNode leaf).attempt.bind fun r ↦ ?_
    cases r <;> exact .pure _

/-- Inserting along a path. -/
theorem keeps_insertAlong (fsBlocksCount : ℕ) (newEx : Extent) (path : List PathNode) :
    Keeps pool (insertAlong fsBlocksCount newEx path) := by
  cases path with
  | nil => exact .fail
  | cons leaf up =>
    refine (keeps_ext4ExtentsInsertAtLeaf leaf newEx).bind fun r ↦ .ite (.pure _) ?_
    exact (Keeps.guard _).bind fun _ ↦ (keeps_ext4ExtentsSplitLeaf ..).bind fun _ ↦
      keeps_ext4ExtentsAddIndex ..

/-- Allocating the run of an extent. -/
theorem keeps_ext4ExtentsAllocNewExtent (lblock fsBlocksCount : ℕ) :
    Keeps pool (ext4ExtentsAllocNewExtent lblock fsBlocksCount) :=
  .get_bind fun _ ↦ (keeps_onFs (Fs.keeps_ext4NewBlocksInGroup _ _)).bind fun _ ↦ (Keeps.guard _).bind fun _ ↦
    (Keeps.guard _).bind fun _ ↦ .ite ((keeps_modifyInode _).bind fun _ ↦ .pure _) (.pure _)

/-- Mapping a block to a new run. -/
theorem keeps_ext4ExtentsInsertMappedBlock (path : List PathNode) (lblock fsBlocksCount : ℕ) :
    Keeps pool (ext4ExtentsInsertMappedBlock path lblock fsBlocksCount) := by
  refine (keeps_ext4ExtentsAllocNewExtent ..).bind fun newEx ↦ (keeps_insertAlong ..).bind fun r ↦ ?_
  cases r with
  | none => exact .pure _
  | some grow => exact (keeps_ext4ExtentsGrowIndepth ..).bind fun _ ↦ .pure _

/-! ### The descent -/

/-- The child of a node on the way to `lblock`, where there is a buffer for it and it can be read. -/
def readChild (lblock : ℕ) (eh : Buf) (fs : Fs) : Option (Buf × Fs) :=
  let childBlk := u32 (chosenIdx lblock eh).eiLeaf
  if Node.entries eh ≠ 0 ∧ childBlk ≠ 0 ∧ fs.blockSize ≤ blockSizeDefault ∧ 0 < fs.extPool then
    match Fs.readBlock childBlk { fs with extPool := fs.extPool - 1 } with
    | (some buf, fs') => some (buf, fs')
    | (none, _) => none
  else none

/-- The way down to `lblock` comes to a leaf: each child can be read and has a header for its level. -/
def Reaches (lblock : ℕ) : ℕ → Buf → Fs → Prop
  | 0, _, _ => True
  | levels + 1, eh, fs => ∃ c, readChild lblock eh fs = some c ∧ Node.magic c.1 = ext4ExtMagic ∧
      Node.depth c.1 = u16 levels ∧ Reaches lblock levels c.1 c.2

section Child

variable {lblock levels : ℕ} {up : List PathNode} {cur : PathNode} {s : FsInode}

/-- Without a child the descent ends, and has given back what it took. -/
theorem readPathLoop_of_none (h : readChild lblock cur.eh s.fs = none) : ∃ s',
    readPathLoop lblock (levels + 1) up cur s = (none, s') ∧ pool s' = pool s := by
  unfold readPathLoop
  by_cases hentries : Node.entries cur.eh ≠ 0
  swap
  · rw [guard_false hentries]
    exact ⟨s, rfl, rfl⟩
  rw [guard_true hentries, pure_bind']
  by_cases hchild : u32 (chosenIdx lblock cur.eh).eiLeaf ≠ 0
  swap
  · rw [guard_false hchild]
    exact ⟨s, rfl, rfl⟩
  rw [guard_true hchild, pure_bind']
  by_cases hroom : s.fs.blockSize ≤ blockSizeDefault ∧ 0 < s.fs.extPool
  swap
  · exact ⟨s, bind_of_eq_none (extMalloc_eq_none hroom), rfl⟩
  rw [readChild, if_pos ⟨hentries, hchild, hroom⟩] at h
  rw [bind_of_eq_some (extMalloc_eq hroom.1 hroom.2)]
  set fs₁ : Fs := { s.fs with extPool := s.fs.extPool - 1 } with hfs₁
  have hkept := (Fs.keeps_readBlock (u32 (chosenIdx lblock cur.eh).eiLeaf)).snd_eq fs₁
  rcases hread : Fs.readBlock (u32 (chosenIdx lblock cur.eh).eiLeaf) fs₁ with ⟨_ | buf, fs'⟩ <;>
    rw [hread] at hkept h
  swap
  · simp at h
  have hrun : orFree (onFs (Fs.readBlock (u32 (chosenIdx lblock cur.eh).eiLeaf))) { s with fs := fs₁ } =
      (none, { s with fs := { fs' with extPool := fs'.extPool + 1 } }) := by
    rw [orFree, attempt_bind, onFs, zoom_apply, hread]
    rfl
  refine ⟨_, bind_of_eq_none hrun, ?_⟩
  show fs'.extPool + 1 = s.fs.extPool
  rw [hkept, hfs₁]
  exact Nat.sub_add_cancel hroom.2

/-- With a child its buffer becomes part of the path, and the header is looked at. -/
theorem readPathLoop_of_some {buf : Buf} {fs' : Fs} (h : readChild lblock cur.eh s.fs = some (buf, fs')) :
    fs'.extPool + 1 = pool s ∧ readPathLoop lblock (levels + 1) up cur s =
      (guard (Node.magic buf = ext4ExtMagic) >>= fun _ ↦ guard (Node.depth buf = u16 levels) >>= fun _ ↦
        readPathLoop lblock levels (cur :: up) ⟨buf, u32 (chosenIdx lblock cur.eh).eiLeaf⟩)
        { s with fs := fs' } := by
  unfold readChild at h
  dsimp only at h
  split at h
  swap
  · simp at h
  next hcond =>
  obtain ⟨hentries, hchild, hroom⟩ := hcond
  set fs₁ : Fs := { s.fs with extPool := s.fs.extPool - 1 } with hfs₁
  have hkept := (Fs.keeps_readBlock (u32 (chosenIdx lblock cur.eh).eiLeaf)).snd_eq fs₁
  rcases hread : Fs.readBlock (u32 (chosenIdx lblock cur.eh).eiLeaf) fs₁ with ⟨_ | buf', fs''⟩ <;>
    rw [hread] at hkept h
  · simp at h
  obtain ⟨rfl, rfl⟩ : buf' = buf ∧ fs'' = fs' := by simpa using h
  have hrun : orFree (onFs (Fs.readBlock (u32 (chosenIdx lblock cur.eh).eiLeaf))) { s with fs := fs₁ } =
      (some buf', { s with fs := fs'' }) := by
    rw [orFree, attempt_bind, onFs, zoom_apply, hread]
    rfl
  refine ⟨by rw [hkept, hfs₁]; exact Nat.sub_add_cancel hroom.2, ?_⟩
  conv_lhs => unfold readPathLoop
  rw [guard_true hentries, pure_bind', guard_true hchild, pure_bind',
    bind_of_eq_some (extMalloc_eq hroom.1 hroom.2)]
  exact bind_of_eq_some hrun

end Child

/-- A descent that fails keeps the buffers of the children it has read. -/
theorem readPathLoop_spec (lblock levels : ℕ) (up : List PathNode) (cur : PathNode) (s : FsInode) :
    wp (readPathLoop lblock levels up cur) (fun r s' ↦ r.elim
      (¬ Reaches lblock levels cur.eh s.fs ∧ pool s' ≤ pool s ∧
        (pool s' = pool s ↔ readChild lblock cur.eh s.fs = none))
      fun path ↦ Reaches lblock levels cur.eh s.fs ∧ path.length = up.length + 1 + levels ∧
        pool s' + levels = pool s) s := by
  induction levels generalizing up cur s with
  | zero => exact ⟨trivial, by simp, rfl⟩
  | succ levels ih =>
    rcases hchild : readChild lblock cur.eh s.fs with _ | ⟨buf, fs'⟩
    · obtain ⟨s', hrun, hpool⟩ := @readPathLoop_of_none lblock levels up cur s hchild
      rw [wp_of_eq hrun]
      refine ⟨?_, hpool.le, iff_of_true hpool rfl⟩
      rintro ⟨c, hc, -⟩
      simp [hchild] at hc
    obtain ⟨hpool, hrun⟩ := @readPathLoop_of_some lblock levels up cur s buf fs' hchild
    rw [wp, hrun]
    -- from here on the buffer of the child is part of the path
    have hlost : ∀ s' : FsInode, pool s' ≤ fs'.extPool → pool s' ≤ pool s ∧
        (pool s' = pool s ↔ some (buf, fs') = none) :=
      fun s' hle ↦ ⟨by omega, iff_of_false (by omega) (by simp)⟩
    have hreaches : Reaches lblock (levels + 1) cur.eh s.fs ↔
        Node.magic buf = ext4ExtMagic ∧ Node.depth buf = u16 levels ∧ Reaches lblock levels buf fs' := by
      refine ⟨?_, fun hr ↦ ⟨_, hchild, hr⟩⟩
      rintro ⟨c, hc, hr⟩
      obtain rfl := Option.some.inj (hchild.symm.trans hc)
      exact hr
    rw [hreaches]
    by_cases hmagic : Node.magic buf = ext4ExtMagic
    swap
    · rw [guard_false hmagic]
      exact ⟨fun hr ↦ hmagic hr.1, hlost _ le_rfl⟩
    by_cases hdepth : Node.depth buf = u16 levels
    swap
    · rw [guard_true hmagic, pure_bind', guard_false hdepth]
      exact ⟨fun hr ↦ hdepth hr.2.1, hlost _ le_rfl⟩
    rw [guard_true hmagic, pure_bind', guard_true hdepth, pure_bind', and_iff_right hmagic, and_iff_right hdepth]
    have hrest := ih (cur :: up) ⟨buf, u32 (chosenIdx lblock cur.eh).eiLeaf⟩ { s with fs := fs' }
    rcases hloop : readPathLoop lblock levels (cur :: up) ⟨buf, u32 (chosenIdx lblock cur.eh).eiLeaf⟩
      { s with fs := fs' } with ⟨_ | path, s'⟩ <;> rw [wp_of_eq hloop] at hrest
    · exact ⟨hrest.1, hlost s' hrest.2.1⟩
    · have hend : pool s' + levels = fs'.extPool := hrest.2.2
      refine ⟨hrest.1, ?_, show pool s' + (levels + 1) = pool s by omega⟩
      rw [hrest.2.1, List.length_cons]
      omega

/-- The descent to `lblock` stores a buffer, and ends before it comes to a leaf. -/
def Strands (lblock : ℕ) (s : FsInode) : Prop :=
  Node.magic s.inode.iBlock = ext4ExtMagic ∧ Node.depth s.inode.iBlock ≤ ext4ExtMaxDepth ∧
    Node.depth s.inode.iBlock ≠ 0 ∧ readChild lblock s.inode.iBlock s.fs ≠ none ∧
      ¬ Reaches lblock (Node.depth s.inode.iBlock) s.inode.iBlock s.fs

/-- What the descent leaves of the pool. -/
theorem readPath_spec (lblock : ℕ) (s : FsInode) :
    wp (ext4ExtentsReadPath lblock) (fun r s' ↦ r.elim (pool s' = pool s ↔ ¬ Strands lblock s)
      fun path ↦ ¬ Strands lblock s ∧ pool s' + (path.length - 1) = pool s) s := by
  unfold ext4ExtentsReadPath
  rw [wp, get_bind]
  by_cases hmagic : Node.magic s.inode.iBlock = ext4ExtMagic
  swap
  · rw [guard_false hmagic]
    exact iff_of_true rfl fun h ↦ hmagic h.1
  by_cases hdepth : Node.depth s.inode.iBlock ≤ ext4ExtMaxDepth
  swap
  · rw [guard_true hmagic, pure_bind', guard_false hdepth]
    exact iff_of_true rfl fun h ↦ hdepth h.2.1
  rw [guard_true hmagic, pure_bind', guard_true hdepth, pure_bind']
  have hspec := readPathLoop_spec lblock (Node.depth s.inode.iBlock) [] ⟨s.inode.iBlock, 0⟩ s
  rcases hrun : readPathLoop lblock (Node.depth s.inode.iBlock) [] ⟨s.inode.iBlock, 0⟩ s with
    ⟨_ | path, s'⟩ <;> rw [wp_of_eq hrun] at hspec
  · obtain ⟨hnot, -, hiff⟩ := hspec
    have hne : Node.depth s.inode.iBlock ≠ 0 := fun h0 ↦ hnot (by rw [h0]; exact trivial)
    refine hiff.trans ⟨fun hnone h ↦ h.2.2.2.1 hnone, fun h ↦ ?_⟩
    by_contra hsome
    exact h ⟨hmagic, hdepth, hne, hsome, hnot⟩
  · obtain ⟨hreaches, hlen, hpool⟩ := hspec
    refine ⟨fun h ↦ h.2.2.2.2 hreaches, ?_⟩
    rw [hlen, List.length_nil, show 0 + 1 + Node.depth s.inode.iBlock - 1 = Node.depth s.inode.iBlock by omega]
    exact hpool

/-! ### Whole calls -/

/-- An insertion gives back the slots of its path, all but the root's. -/
theorem insertAndFreePath_pool (path : List PathNode) (lblock : ℕ) (s : FsInode) :
    pool (insertAndFreePath path lblock s).2 = pool s + (path.length - 1) := by
  have hkept := (keeps_ext4ExtentsInsertMappedBlock path lblock (ext4ExtentsFsBlocksCount s.fs)).snd_eq s
  unfold insertAndFreePath
  rw [get_bind, attempt_bind]
  rcases hrun : ext4ExtentsInsertMappedBlock path lblock (ext4ExtentsFsBlocksCount s.fs) s with ⟨_ | b, s'⟩ <;>
    rw [hrun] at hkept <;> exact congrArg (· + (path.length - 1)) hkept

/-- A lookup or insertion leaves the pool as it was unless a node of its path cannot be read. -/
theorem lookupOrInsert_pool (lblock : ℕ) (create : Bool) (s : FsInode) :
    pool (lookupOrInsert lblock create s).2 = pool s ↔ ¬ Strands lblock s := by
  have hspec := readPath_spec lblock s
  unfold lookupOrInsert
  rcases hrun : ext4ExtentsReadPath lblock s with ⟨_ | path, s'⟩ <;> rw [wp_of_eq hrun] at hspec
  · rw [bind_of_eq_none hrun]
    exact hspec
  rw [bind_of_eq_some hrun]
  obtain ⟨hnot, hpool⟩ := hspec
  refine iff_of_true ?_ hnot
  cases (path.head?).bind fun leaf ↦ ext4ExtentsLookupMapped leaf.eh lblock with
  | some b => exact hpool
  | none =>
    cases create with
    | false => exact hpool
    | true => exact (insertAndFreePath_pool path lblock s').trans hpool

end FsInode

/-- A call of the extent code. The uninitialised `ex` of `ext4_extents_map_blocks` holds `stale`. -/
inductive ExtentCall where
  | getBlock (lblock : ℕ) (create : Bool)
  | mapBlocks (stale : Option Extent) (lblock maxBlocks : ℕ)

namespace ExtentCall

open FsInode

/-- The state after the call. -/
def step (s : FsInode) : ExtentCall → FsInode
  | getBlock lblock create => (ext4ExtentsGetBlock lblock create s).2
  | mapBlocks stale lblock maxBlocks => (ext4ExtentsMapBlocks stale lblock maxBlocks s).2

/-- The call goes down to a block and the descent strands. -/
def Strands (s : FsInode) : ExtentCall → Prop
  | getBlock lblock _ =>
    s.fs.blockSize ≠ 0 ∧ (sIsreg s.inode.iMode ∨ sIsdir s.inode.iMode) ∧ s.Strands lblock
  | mapBlocks _ lblock maxBlocks => maxBlocks ≠ 0 ∧ s.Strands lblock

/-- `get_block` loses a slot exactly where it strands one. -/
theorem getBlock_pool (lblock : ℕ) (create : Bool) (s : FsInode) :
    pool (step s (getBlock lblock create)) = pool s ↔ ¬ Strands s (getBlock lblock create) := by
  unfold step ext4ExtentsGetBlock
  dsimp only
  rw [get_bind]
  by_cases hkind : s.fs.blockSize ≠ 0 ∧ (sIsreg s.inode.iMode ∨ sIsdir s.inode.iMode)
  swap
  · rw [guard_false hkind]
    exact iff_of_true rfl fun h ↦ hkind ⟨h.1, h.2.1⟩
  rw [guard_true hkind, pure_bind']
  by_cases hmagic : Node.magic s.inode.iBlock = ext4ExtMagic
  · rw [if_neg (by simp [hmagic]), if_neg (by simp [hmagic])]
    exact (lookupOrInsert_pool lblock create s).trans
      (not_congr ⟨fun h ↦ ⟨hkind.1, hkind.2, h⟩, fun h ↦ h.2.2⟩)
  · refine iff_of_true ?_ fun h ↦ hmagic h.2.2.1
    cases create with
    | false => rw [if_pos (by simpa using hmagic), pure_apply]
    | true =>
      -- the new root is a leaf
      rw [if_neg (by simp), if_pos hmagic]
      have hdepth : Node.depth (Node.ext4ExtentsInitNode s.inode.iBlock iBlockSize 0) = 0 :=
        (Node.isNode_init Node.extentView s.inode.iBlock (by norm_num) (by decide)).header.depth
      rw [modifyInode, modify_bind]
      exact (lookupOrInsert_pool lblock true _).2 fun h ↦ h.2.2.1 hdepth

/-- `map_blocks` loses a slot exactly where it strands one. -/
theorem mapBlocks_pool (stale : Option Extent) (lblock maxBlocks : ℕ) (s : FsInode) :
    pool (step s (mapBlocks stale lblock maxBlocks)) = pool s ↔
      ¬ Strands s (mapBlocks stale lblock maxBlocks) := by
  unfold step ext4ExtentsMapBlocks
  dsimp only
  by_cases hmax : maxBlocks ≠ 0
  swap
  · rw [guard_false hmax]
    exact iff_of_true rfl fun h ↦ hmax h.1
  rw [guard_true hmax, pure_bind', get_bind]
  by_cases hmagic : Node.magic s.inode.iBlock = ext4ExtMagic
  swap
  · rw [if_pos hmagic]
    exact iff_of_true rfl fun h ↦ hmagic h.2.1
  rw [if_neg (by simp [hmagic])]
  have hspec := readPath_spec lblock s
  rcases hrun : ext4ExtentsReadPath lblock s with ⟨_ | path, s'⟩ <;> rw [wp_of_eq hrun] at hspec
  · rw [bind_of_eq_none hrun]
    exact hspec.trans (not_congr ⟨fun h ↦ ⟨hmax, h⟩, fun h ↦ h.2⟩)
  rw [bind_of_eq_some hrun]
  obtain ⟨hnot, hpool⟩ := hspec
  refine iff_of_true (Eq.trans ?_ hpool) fun h ↦ hnot h.2
  unfold ext4ExtentsFreePath extFree
  rw [modify_bind]
  generalize ((path.head?).bind fun leaf ↦ ext4ExtentsFind leaf.eh lblock).or stale = found
  cases found with
  | none => rfl
  | some ex =>
    have hkept : Keeps pool (do
        guard (ex.eeBlock ≤ lblock)
        guard (lblock - ex.eeBlock < ex.eeLen)
        pure (u32 (ex.eeStart + (lblock - ex.eeBlock)),
          if ex.eeLen - (lblock - ex.eeBlock) > maxBlocks then maxBlocks else ex.eeLen - (lblock - ex.eeBlock)) :
            StateErr FsInode (ℕ × ℕ)) :=
      (Keeps.guard _).bind fun _ ↦ (Keeps.guard _).bind fun _ ↦ .pure _
    exact hkept.snd_eq _

/-- The filesystem after a call on one of its inodes. -/
def stepOn (fs : Fs) (c : Inode × ExtentCall) : Fs := (step ⟨fs, c.1⟩ c.2).fs

/-- **A call gives back all its buffers exactly where its descent does not strand**, and so does a
sequence of such calls, each on any inode. -/
theorem extPool_iff (s : FsInode) (call : ExtentCall) (fs : Fs) (calls : List (Inode × ExtentCall)) :
    (pool (step s call) = pool s ↔ ¬ Strands s call) ∧
      (Calls.Along stepOn (fun fs c ↦ ¬ Strands ⟨fs, c.1⟩ c.2) calls fs →
        (calls.foldl stepOn fs).extPool = fs.extPool) := by
  have hstep : ∀ (s : FsInode) (call : ExtentCall), pool (step s call) = pool s ↔ ¬ Strands s call := by
    intro s call
    cases call with
    | getBlock lblock create => exact getBlock_pool lblock create s
    | mapBlocks stale lblock maxBlocks => exact mapBlocks_pool stale lblock maxBlocks s
  refine ⟨hstep s call, fun hcalls ↦ ?_⟩
  exact @Calls.inv_of_along _ _ stepOn (fun fs c ↦ ¬ Strands ⟨fs, c.1⟩ c.2)
    (fun fs' ↦ fs'.extPool = fs.extPool) (fun fs' c heq hcall ↦ ((hstep ⟨fs', c.1⟩ c.2).2 hcall).trans heq)
    calls fs rfl hcalls

/-- A root with one entry, for a child in block 9. -/
def indexOnly : Buf :=
  Node.setIdx (Node.setEntries (Node.ext4ExtentsInitNode Buf.zero iBlockSize 1) 1) 0 ⟨0, 9⟩

/-- A file on the small volume with this root. Block 9 is full of zeros. -/
def brokenFile : FsInode :=
  { smallFile 1 with inode := { (smallFile 1).inode with iBlock := indexOnly } }

/-- The child has no header. Eight lookups use up all buffers. -/
theorem not_extPool_broken : (¬ ∀ (s : FsInode) (call : ExtentCall), pool (step s call) = pool s) ∧
    pool brokenFile = 8 ∧ pool ((List.replicate 8 (getBlock 0 false)).foldl step brokenFile) = 0 := by
  refine ⟨fun hall ↦ ?_, by decide +kernel, by decide +kernel⟩
  have hpool := hall brokenFile (getBlock 0 false)
  exact absurd hpool (by decide +kernel)

end ExtentCall

end MiniExt4
