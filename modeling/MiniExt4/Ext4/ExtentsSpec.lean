import MiniExt4.Ext4.ExtentNodeSpec
import MiniExt4.Ext4.Extents
import MiniExt4.Ext4.ReleaseSpec

/-!
# Extent trees of an inode

`Holds rd cap m eh t` says that the buffer `eh` is the root of the tree `t`, with room for `m` entries
in the root and for `cap` in every other node, when blocks are read with `rd`.

An insertion works on the path from a leaf up, and each step changes one node and at most allocates another.
So the state before a step and the one after it are related by `Changed`: what was changed, which blocks
were taken, and that the volume is mounted with these marked. The lemmas have one form, from the list of
entries of a node and the buffer that holds it to the same afterwards, and the main one is the induction
over the path (`insertAlong_spec`), in which the subtree below has been replaced already and the node above
has not.

`Spot` is the place of one node, `i_block` or a block of the tree, with the number of entries it has room
for.
-/

namespace MiniExt4

open StateErr Keyed ExtTree
open Releasing (IsData)

/-- The entries there is room for in a block. -/
def nodeCap (blockSize : ℕ) : ℕ := (blockSize - extEntrySize) / extEntrySize

/-- The entries there is room for in `i_block`. -/
def rootCap : ℕ := (iBlockSize - extEntrySize) / extEntrySize

namespace ExtTree

/-- The buffer is the root of the tree. -/
def Holds (rd : ℕ → Buf) (cap : ℕ) : {d : ℕ} → ℕ → Buf → ExtTree d → Prop
  | 0, m, eh, t => Node.IsNode Node.extentView 0 m t eh ∧ t.length ≤ m
  | d + 1, m, eh, t => Node.IsNode Node.idxView (d + 1) m (t.map Prod.fst) eh ∧ t.length ≤ m ∧
      ∀ c ∈ t, Holds rd cap cap (rd c.1.eiLeaf) c.2

/-- The blocks of the nodes below the root. -/
def nodes : {d : ℕ} → ExtTree d → List ℕ
  | 0, _ => []
  | _ + 1, t => t.flatMap fun c ↦ nodes c.2 ++ [c.1.eiLeaf]

/-- The nodes from the leaf for `x` up to the root. -/
def path (rd : ℕ → Buf) (x : ℕ) : {d : ℕ} → PathNode → ExtTree d → List PathNode
  | 0, node, _ => [node]
  | _ + 1, node, t =>
    match locate entryKey x t with
    | none => [node]
    | some c => path rd x ⟨rd c.1.eiLeaf, c.1.eiLeaf⟩ c.2 ++ [node]

variable {rd rd' : ℕ → Buf} {cap m d x b : ℕ} {eh : Buf} {t : ExtTree d} {node : PathNode}

/-- The blocks of nodes are blocks of the tree. -/
theorem nodes_subset : ∀ b ∈ t.nodes, b ∈ t.blocks := by
  induction d with
  | zero => simp [nodes]
  | succ d ih =>
    intro b hb
    obtain ⟨c, hc, hb⟩ := List.mem_flatMap.1 hb
    refine List.mem_flatMap.2 ⟨c, hc, ?_⟩
    rcases List.mem_append.1 hb with hb | hb
    · exact List.mem_append_left _ (ih b hb)
    · exact List.mem_append_right _ hb

/-- What is mapped is a block of the tree. -/
theorem Maps.mem_blocks (h : t.Maps x b) : b ∈ t.blocks := by
  induction d with
  | zero =>
    obtain ⟨e, he, hle, hlt, rfl⟩ := h
    unfold Extent.stop at hlt
    exact List.mem_flatMap.2 ⟨e, he, List.mem_range'_1.2 (by omega)⟩
  | succ d ih =>
    obtain ⟨c, hc, hmaps⟩ := h
    exact List.mem_flatMap.2 ⟨c, locate_mem hc, List.mem_append_left _ (ih hmaps)⟩

/-- A tree is where its nodes are. -/
theorem Holds.congr (h : Holds rd cap m eh t) (hrd : ∀ b ∈ t.nodes, rd' b = rd b) :
    Holds rd' cap m eh t := by
  induction d generalizing m eh with
  | zero => exact h
  | succ d ih =>
    obtain ⟨hnode, hlen, hchild⟩ := h
    refine ⟨hnode, hlen, fun c hc ↦ ?_⟩
    have hmem : ∀ b ∈ nodes c.2 ++ [c.1.eiLeaf], b ∈ @nodes (d + 1) t := fun b hb ↦
      List.mem_flatMap.2 ⟨c, hc, hb⟩
    rw [hrd _ (hmem _ (by simp))]
    exact ih (hchild c hc) fun b hb ↦ hrd b (hmem b (by simp [hb]))

end ExtTree

/-! ### Changes of the state -/

/-- The slots of the extent pool are no part of the volume. -/
theorem Volume.Mounted.withPool {V : Volume} {U : Set ℕ} {fs : Fs} (h : V.Mounted U fs) (n : ℕ) :
    V.Mounted U { fs with extPool := n } :=
  ⟨⟨h.wf, h.usable, h.blockSize, h.geom, h.blocksCount, h.groupDesc, h.desc_blockBitmap,
    h.desc_inodeBitmap, h.desc_inodeTable, h.bit_iff, h.meta_used⟩, h.cache⟩

namespace FsInode

/-- The contents of a node of a path: the root, which has block number 0, is in the inode. -/
def contents (s : FsInode) (b : ℕ) : Buf := if b = 0 then s.inode.iBlock else s.fs.block b

/-- From `s` to `s'` the blocks `fresh` were allocated; of the other blocks only those of `B` were
stored to, where 0 is `i_block`. -/
structure Changed (V : Volume) (U B : Set ℕ) (fresh : List ℕ) (s s' : FsInode) : Prop where
  mounted : V.Mounted (U ∪ {b | b ∈ fresh}) s'.fs
  isNew : ∀ b ∈ fresh, b ∉ U ∧ IsData V b
  nodup : fresh.Nodup
  block : ∀ b, ¬ V.AllocMeta b → b ∉ fresh → (b ∈ B → b = 0) → s'.fs.block b = s.fs.block b
  inode : s'.inode = { s.inode with iBlock := s'.inode.iBlock }
  iBlock : 0 ∉ B → s'.inode.iBlock = s.inode.iBlock
  pool : s'.fs.extPool = s.fs.extPool
  goal : s'.fs.preallocGoalLen = s.fs.preallocGoalLen

variable {V : Volume} {U B B' : Set ℕ} {fresh fresh' : List ℕ} {s s' s'' : FsInode} {b : ℕ}

/-- Nothing was written and nothing allocated. -/
theorem Changed.refl (h : V.Mounted U s.fs) : Changed V U ∅ [] s s :=
  ⟨by simpa using h, by simp, .nil, fun _ _ _ _ ↦ rfl, rfl, fun _ ↦ rfl, rfl, rfl⟩

/-- More blocks may have been written than were. -/
theorem Changed.mono (h : Changed V U B fresh s s') (hB : B ⊆ B') : Changed V U B' fresh s s' :=
  { h with
    block := fun b hb hf hB' ↦ h.block b hb hf fun hmem ↦ hB' (hB hmem)
    iBlock := fun h0 ↦ h.iBlock fun hmem ↦ h0 (hB hmem) }

/-- Two steps, one after the other: what either writes, and what either allocates. -/
theorem Changed.trans (h : Changed V U B fresh s s')
    (h' : Changed V (U ∪ {b | b ∈ fresh}) B' fresh' s' s'') :
    Changed V U (B ∪ B') (fresh ++ fresh') s s'' where
  mounted := by
    have hset : U ∪ {b | b ∈ fresh ++ fresh'} = U ∪ {b | b ∈ fresh} ∪ {b | b ∈ fresh'} := by
      ext b
      simp [or_assoc]
    rw [hset]
    exact h'.mounted
  isNew b hb := by
    rcases List.mem_append.1 hb with hb | hb
    · exact h.isNew b hb
    · exact ⟨fun hU ↦ (h'.isNew b hb).1 (.inl hU), (h'.isNew b hb).2⟩
  nodup := h.nodup.append h'.nodup fun b hb hb' ↦ (h'.isNew b hb').1 (.inr hb)
  block b hb hf hB := by
    simp only [List.mem_append, not_or] at hf
    rw [h'.block b hb hf.2 fun hmem ↦ hB (.inr hmem), h.block b hb hf.1 fun hmem ↦ hB (.inl hmem)]
  inode := by rw [h'.inode, h.inode]
  iBlock h0 := by
    rw [h'.iBlock fun hmem ↦ h0 (.inr hmem), h.iBlock fun hmem ↦ h0 (.inl hmem)]
  pool := h'.pool.trans h.pool
  goal := h'.goal.trans h.goal

theorem union_mem_nil (U : Set ℕ) : U ∪ {b | b ∈ ([] : List ℕ)} = U := by simp

/-- A step that allocates nothing after one that may. -/
theorem Changed.trans_nil (h : Changed V U B [] s s') (h' : Changed V U B' fresh s' s'') :
    Changed V U (B ∪ B') fresh s s'' := by
  rw [← union_mem_nil U] at h'
  exact h.trans h'

/-- A block in use that was not written has its contents. -/
theorem Changed.contents (h : Changed V U B fresh s s') (hb : b = 0 ∨ b ∈ U ∧ IsData V b)
    (hB : b ∉ B) : s'.contents b = s.contents b := by
  unfold FsInode.contents
  rcases hb with rfl | ⟨hU, hdata⟩
  · simp [h.iBlock hB]
  · rw [if_neg hdata.1, if_neg hdata.1]
    exact h.block b (fun hmeta ↦ hdata.2.2 (.inl hmeta)) (fun hf ↦ (h.isNew b hf).1 hU)
      fun hmem ↦ absurd hmem hB

/-- The state after a node was stored. -/
def put (s : FsInode) (b : ℕ) (eh : Buf) : FsInode :=
  if b = 0 then { s with inode := { s.inode with iBlock := eh } } else { s with fs := s.fs.put b eh }

/-- A data block is none of the allocator's. -/
theorem not_allocMeta_of_isData (h : IsData V b) : ¬ V.AllocMeta b := fun hmeta ↦ h.2.2 (.inl hmeta)

/-- Writing a data block leaves the volume mounted. -/
theorem mounted_put {fs : Fs} (h : V.Mounted U fs) (eh : Buf) (hb : IsData V b) :
    V.Mounted U (fs.put b eh) := by
  have hne : ∀ g < V.groups, b ≠ V.descBlock g ∧ b ≠ V.blockBitmap g := fun g hg ↦
    ⟨fun e ↦ hb.2.2 (.inl (.inr ⟨g, hg, .inl e⟩)), fun e ↦ hb.2.2 (.inl (.inr ⟨g, hg, .inr e⟩))⟩
  exact h.put eh (fun g hg ↦ (hne g hg).1) fun g hg ↦ (hne g hg).2

/-- Storing a node. -/
theorem changed_put (h : V.Mounted U s.fs) (eh : Buf) (hb : b = 0 ∨ IsData V b) :
    Changed V U {b} [] s (s.put b eh) := by
  have hset : U ∪ {c | c ∈ ([] : List ℕ)} = U := by simp
  rcases hb with rfl | hb
  · rw [put, if_pos rfl]
    exact ⟨by rwa [hset], by simp, .nil, fun _ _ _ _ ↦ rfl, rfl, fun h0 ↦ absurd rfl h0, rfl, rfl⟩
  · rw [put, if_neg hb.1]
    refine ⟨?_, by simp, .nil, fun c _ _ hc ↦ ?_, rfl, fun _ ↦ rfl, rfl, rfl⟩
    · rw [hset]
      exact mounted_put h eh hb
    · refine s.fs.block_put_of_ne eh ?_
      rintro rfl
      exact hb.1 (hc rfl)

/-- A node is stored at the size of its place. -/
theorem contents_put_self (s : FsInode) (b : ℕ) (eh : Buf) :
    (s.put b eh).contents b = if b = 0 then eh else Buf.clip s.fs.blockSize eh := by
  unfold contents put
  split
  · rfl
  · exact s.fs.block_put_self b eh

/-- Storing a block that was just allocated. -/
theorem Changed.putFresh (h : Changed V U B fresh s s') (hb : b ∈ fresh) (eh : Buf) :
    Changed V U B fresh s { s' with fs := s'.fs.put b eh } :=
  { h with
    mounted := mounted_put h.mounted eh (h.isNew b hb).2
    block := fun c hc hf hB ↦ by
      have hne : c ≠ b := fun e ↦ hf (e ▸ hb)
      rw [← h.block c hc hf hB]
      exact s'.fs.block_put_of_ne eh hne }

/-! ### Buffers -/

/-- The state with so many free buffers. -/
def setPool (s : FsInode) (n : ℕ) : FsInode := { s with fs := { s.fs with extPool := n } }

/-- A slot is taken if there is one and the blocks fit. -/
theorem extMalloc_eq (hbs : s.fs.blockSize ≤ blockSizeDefault) (hpool : 0 < s.fs.extPool) :
    extMalloc s = (some (), s.setPool (s.fs.extPool - 1)) := by
  unfold extMalloc
  rw [get_bind, guard_true ⟨hbs, hpool⟩, pure_bind', modify_apply]
  rfl

/-- Otherwise nothing changes. -/
theorem extMalloc_eq_none (h : ¬ (s.fs.blockSize ≤ blockSizeDefault ∧ 0 < s.fs.extPool)) :
    extMalloc s = (none, s) := by
  unfold extMalloc
  rw [get_bind, guard_false h, fail_bind, fail_apply]

theorem extFree_eq (n : ℕ) : extFree n s = (some (), s.setPool (s.fs.extPool + n)) := rfl

/-- The volume stays mounted whatever the pool. -/
theorem mounted_setPool (h : V.Mounted U s.fs) (n : ℕ) : V.Mounted U (s.setPool n).fs :=
  h.withPool n

/-- What is done with one buffer less. -/
theorem Changed.freed {n : ℕ} (h : Changed V U B fresh (s.setPool (s.fs.extPool - n)) s')
    (hn : n ≤ s.fs.extPool) : Changed V U B fresh s (s'.setPool (s'.fs.extPool + n)) where
  mounted := h.mounted.withPool _
  isNew := h.isNew
  nodup := h.nodup
  block := h.block
  inode := h.inode
  iBlock := h.iBlock
  pool := by
    have hpool : s'.fs.extPool = s.fs.extPool - n := h.pool
    show s'.fs.extPool + n = s.fs.extPool
    omega
  goal := h.goal

/-- A failing statement gives its buffer back. -/
theorem wp_orFree {α : Type} {x : StateErr FsInode α} {Q : Option α → FsInode → Prop}
    (h : wp x (fun r s' ↦ match r with
      | none => Q none (s'.setPool (s'.fs.extPool + 1))
      | some a => Q (some a) s') s) : wp (orFree x) Q s := by
  unfold wp at h ⊢
  unfold orFree
  rw [attempt_bind]
  rcases hr : x s with ⟨_ | a, s'⟩
  · rw [hr] at h
    exact h
  · rw [hr] at h
    exact h

/-- A computation that succeeds keeps its slot. -/
theorem orFree_of_eq_some {α : Type} {x : StateErr FsInode α} {a : α} (h : x s = (some a, s')) :
    orFree x s = (some a, s') := by
  rw [orFree, attempt_bind, h]
  rfl

/-- What succeeds with its slot freed on failure has succeeded. -/
theorem of_orFree_eq_some {α : Type} {x : StateErr FsInode α} {a : α} (h : orFree x s = (some a, s')) :
    x s = (some a, s') := by
  rw [orFree, attempt_bind] at h
  rcases hx : x s with ⟨_ | c, s₁⟩ <;> rw [hx] at h
  · exact absurd (congrArg Prod.fst h) nofun
  · exact h

/-! ### The steps of an insertion -/

/-- Writing a data block. -/
theorem writeBlock_eq (h : V.Mounted U s.fs) (hb : IsData V b) (eh : Buf) :
    onFs (Fs.writeBlock b eh) s = (some (), { s with fs := s.fs.put b eh }) := by
  rw [onFs, zoom_apply, h.usable.writeBlock hb.2.1]

/-- Only the root is put back at once. -/
theorem setNode_eq (node : PathNode) (eh : Buf) :
    setNode node eh s =
      (some { node with eh }, if node.blocknr = 0 then s.put node.blocknr eh else s) := by
  unfold setNode put
  split <;> rfl

/-- Writing a node back stores it unless it is the root. -/
theorem writePathNode_eq {node : PathNode} (h : V.Mounted U s.fs)
    (hb : node.blocknr = 0 ∨ IsData V node.blocknr) :
    ext4ExtentsWritePathNode node s =
      (some (), if node.blocknr = 0 then s else s.put node.blocknr node.eh) := by
  unfold ext4ExtentsWritePathNode put
  by_cases h0 : node.blocknr = 0
  · rw [if_neg (by simpa using h0), if_pos h0]
    rfl
  · rw [if_pos h0, if_neg h0, if_neg h0]
    exact writeBlock_eq h (hb.resolve_left h0) _

/-- The number of blocks of the filesystem. -/
theorem fsBlocksCount_eq (h : V.Mounted U s.fs) : ext4ExtentsFsBlocksCount s.fs = V.blocks := by
  have hsb : s.fs.sbi.sBlocksCount = V.blocks := congrArg SbGeom.sBlocksCount h.geom
  unfold ext4ExtentsFsBlocksCount
  rw [hsb, h.blocksCount]
  split <;> rfl

/-- What was allocated is free and holds data. -/
theorem isData_of_allocated {goalLen len : ℕ} {fs fs' : Fs} {c : ℕ}
    (h : V.Allocated U goalLen fs b len fs') (hU : V.Mounted U fs) (hc : b ≤ c) (hlt : c < b + len) :
    c ∉ U ∧ IsData V c := by
  have hfresh := h.fresh c hc hlt
  have := h.pos
  have := h.le_blocks
  exact ⟨hfresh, by omega, by omega, fun hmeta ↦ hfresh (hU.meta_used c hmeta)⟩

/-- What the allocator leaves alone. -/
theorem changed_of_allocFrame {fs' : Fs} (hframe : V.AllocFrame s.fs fs')
    (hnew : ∀ b ∈ fresh, b ∉ U ∧ IsData V b) (hnodup : fresh.Nodup)
    (hmounted : V.Mounted (U ∪ {b | b ∈ fresh}) fs') :
    Changed V U ∅ fresh s { s with fs := fs' } :=
  ⟨hmounted, hnew, hnodup, fun c hc _ _ ↦ hframe.block c hc, rfl, fun _ ↦ rfl, hframe.extPool,
    hframe.preallocGoalLen⟩

/-- A block for a new node is one that was not in use. -/
theorem newNodeBlock_spec (h : V.Mounted U s.fs) :
    wp (newNodeBlock V.blocks) (fun r s' ↦
      (r = none ∧ Changed V U ∅ [] s s') ∨ ∃ b, r = some b ∧ V.bs ≤ blockSizeDefault ∧
        Changed V U ∅ [b] s s') s := by
  have hpost := h.newBlocks 1 (2 ^ 32 - 1)
  rcases hr : Fs.ext4NewBlocksInGroup 1 (2 ^ 32 - 1) s.fs with ⟨_ | ⟨b, len⟩, fs'⟩
  · rw [wp_of_eq hr] at hpost
    have hrun : newNodeBlock V.blocks s = (none, { s with fs := fs' }) := by
      refine bind_of_eq_none ?_
      rw [Fs.ext4NewBlock, Fs.ext4NewBlocks, onFs, zoom_apply, bind_of_eq_none hr]
    rw [wp_of_eq hrun]
    exact .inl ⟨rfl, changed_of_allocFrame hpost.2 (by simp) .nil (by simpa using hpost.1)⟩
  · rw [wp_of_eq hr] at hpost
    have hone : len = 1 := Nat.le_antisymm hpost.len_le hpost.len_pos
    have hdata := isData_of_allocated hpost h le_rfl (Nat.lt_add_of_pos_right hpost.len_pos)
    have hrun : newNodeBlock V.blocks s = (some b, { s with fs := fs' }) := by
      have hnew : onFs Fs.ext4NewBlock s = (some b, { s with fs := fs' }) := by
        rw [Fs.ext4NewBlock, Fs.ext4NewBlocks, onFs, zoom_apply, bind_of_eq_some hr, pure_apply]
      rw [newNodeBlock, bind_of_eq_some hnew, guard_true ⟨hdata.2.1, hdata.2.2.1⟩, pure_bind',
        pure_apply]
    have hset : U ∪ {c | c ∈ [b]} = U ∪ Set.Ico b (b + len) := by
      rw [hone]
      ext c
      refine or_congr_right ?_
      rw [Set.mem_Ico, Set.mem_ofPred_eq, List.mem_singleton]
      omega
    rw [wp_of_eq hrun]
    refine .inr ⟨b, rfl, hpost.bs_le, changed_of_allocFrame hpost.frame ?_ (by simp) ?_⟩
    · simpa using hdata
    · rw [hset]
      exact hpost.mounted

/-- What a statement leaves when it fails, too: some blocks may have been allocated. -/
def Leaves {α : Type} (V : Volume) (U B : Set ℕ) (s : FsInode) (Q : α → List ℕ → FsInode → Prop) :
    Option α → FsInode → Prop := fun r s' ↦
  ∃ fresh, Changed V U B fresh s s' ∧ ∀ a, r = some a → Q a fresh s'

/-- A failure leaves what was written up to there. -/
theorem Leaves.none {α : Type} {Q : α → List ℕ → FsInode → Prop} (h : Changed V U B fresh s s') :
    Leaves V U B s Q none s' := ⟨fresh, h, by simp⟩

/-- The halves of a node are stored, or there is no block for the right one. -/
theorem storeHalves_spec {node : PathNode} {left right : Buf} (h : V.Mounted U s.fs)
    (hb : node.blocknr = 0 ∨ IsData V node.blocknr ∧ node.blocknr ∈ U) :
    wp (storeHalves V.blocks node left right) (Leaves V U {node.blocknr} s fun b fresh s' ↦
      fresh = [b] ∧ V.bs ≤ blockSizeDefault ∧
      s'.contents node.blocknr = (if node.blocknr = 0 then left else Buf.clip V.bs left) ∧
      s'.fs.block b = Buf.clip V.bs right) s := by
  have hb' : node.blocknr = 0 ∨ IsData V node.blocknr := hb.imp_right And.left
  unfold storeHalves
  by_cases hmalloc : s.fs.blockSize ≤ blockSizeDefault ∧ 0 < s.fs.extPool
  · refine wp_bind_of_eq_some (extMalloc_eq hmalloc.1 hmalloc.2)
      (wp_bind_of_eq_some (setNode_eq _ _) ?_)
    set s₁ := s.setPool (s.fs.extPool - 1) with hs₁
    have h₁ : V.Mounted U s₁.fs := mounted_setPool h _
    have hset : Changed V U {node.blocknr} [] s₁
        (if node.blocknr = 0 then s₁.put node.blocknr left else s₁) := by
      split
      · exact changed_put h₁ left hb'
      · exact (Changed.refl h₁).mono (Set.empty_subset _)
    set s₂ := if node.blocknr = 0 then s₁.put node.blocknr left else s₁ with hs₂
    have h₂ : V.Mounted U s₂.fs := by simpa using hset.mounted
    refine wp_orFree (wp_seq (newNodeBlock_spec h₂) (fun s₃ hnone ↦ ?_) fun b s₃ hsome ↦ ?_)
    · rcases hnone with ⟨-, hchanged⟩ | ⟨_, hr, -⟩
      · exact .none (((hset.trans_nil hchanged).mono (by simp)).freed hmalloc.2)
      · simp at hr
    · rcases hsome with ⟨hr, -⟩ | ⟨_, hr, hbs, hchanged⟩
      · simp at hr
      obtain rfl := Option.some.inj hr
      have h₃ : Changed V U {node.blocknr} [b] s₁ s₃ := (hset.trans_nil hchanged).mono (by simp)
      have hnew := h₃.isNew b (by simp)
      refine wp_bind_of_eq_some (writePathNode_eq h₃.mounted hb') ?_
      set s₄ := if node.blocknr = 0 then s₃ else s₃.put node.blocknr left with hs₄
      have h₄ : Changed V U {node.blocknr} [b] s₁ s₄ := by
        rw [hs₄]
        split
        · exact h₃
        · have hput := h₃.trans (changed_put h₃.mounted left hb')
          simpa using hput
      have h₅ := h₄.putFresh (show b ∈ [b] by simp) right
      refine wp_bind_of_eq_some (writeBlock_eq h₄.mounted hnew.2 right)
        (wp_bind_of_eq_some (extFree_eq 1) ?_)
      refine ⟨[b], h₅.freed hmalloc.2, fun c hc ↦ ?_⟩
      obtain rfl := Option.some.inj hc
      refine ⟨rfl, hbs, ?_, ?_⟩
      · unfold FsInode.contents
        rcases hb with h0 | ⟨hdata, hU⟩
        · have hroot := hchanged.iBlock (Set.notMem_empty 0)
          rw [if_pos h0, if_pos h0]
          show s₄.inode.iBlock = left
          rw [hs₄, if_pos h0, hroot, hs₂, if_pos h0, put, if_pos h0]
        · have hne : node.blocknr ≠ b := fun e ↦ hnew.1 (e ▸ hU)
          rw [if_neg hdata.1, if_neg hdata.1]
          show (s₄.fs.put b right).block node.blocknr = _
          rw [Fs.block_put_of_ne _ _ hne, hs₄, if_neg hdata.1, put, if_neg hdata.1,
            Fs.block_put_self, h₃.mounted.blockSize]
      · show (s₄.fs.put b right).block b = _
        rw [Fs.block_put_self, h₄.mounted.blockSize]
  · refine wp_bind_of_eq_none (extMalloc_eq_none hmalloc) ?_
    exact .none ((Changed.refl h).mono (Set.empty_subset _))

/-- A node that was changed in memory, and then written if it has a block. -/
theorem writePathNode_setNode {node : PathNode} (eh : Buf) (h : V.Mounted U s.fs)
    (hb : node.blocknr = 0 ∨ IsData V node.blocknr) :
    ext4ExtentsWritePathNode { node with eh }
      (if node.blocknr = 0 then s.put node.blocknr eh else s) =
      (some (), s.put node.blocknr eh) := by
  by_cases h0 : node.blocknr = 0
  · rw [if_pos h0, ext4ExtentsWritePathNode, if_neg (by simpa using h0), pure_apply]
  · have hwrite := @writePathNode_eq V U s { node with eh } h hb
    rw [if_neg h0] at hwrite ⊢
    exact hwrite

/-- A leaf that has room for the extent is stored with it. -/
theorem insertAtLeaf_eq {leaf : PathNode} (ex : Extent) (h : V.Mounted U s.fs)
    (hb : leaf.blocknr = 0 ∨ IsData V leaf.blocknr) :
    ext4ExtentsInsertAtLeaf leaf ex s = match ext4ExtentsInsert leaf.eh ex with
      | (false, _) => (some (false, leaf), s)
      | (true, eh) => (some (true, { leaf with eh }), s.put leaf.blocknr eh) := by
  unfold ext4ExtentsInsertAtLeaf
  rcases ext4ExtentsInsert leaf.eh ex with ⟨_ | _, eh⟩
  · rfl
  · dsimp only
    rw [bind_of_eq_some (setNode_eq leaf eh), attempt_bind, writePathNode_setNode eh h hb]
    rfl

/-! ### One node -/

/-- The entries of a node can be counted in 16 bits. -/
theorem nodeCap_lt (bs : ℕ) (h : bs ≤ 2 ^ 16) : nodeCap bs + 1 < 2 ^ 16 := by
  unfold nodeCap extEntrySize
  omega

/-- The entries of a node of a block are inside the block. -/
theorem entryOff_nodeCap_le {bs n : ℕ} (h : n ≤ nodeCap bs) (hbs : extEntrySize ≤ bs) :
    Node.entryOff n ≤ bs := by
  have hmul : n * extEntrySize ≤ bs - extEntrySize :=
    (Nat.mul_le_mul_right _ h).trans (Nat.div_mul_le_self _ _)
  unfold Node.entryOff Buf.recordOff
  omega

/-- A node that is stored is read back as that node. -/
theorem isNode_contents_put {α : Type} {v : Buf.RecordView α extEntrySize extEntrySize} {d m : ℕ}
    {l : List α} {eh : Buf} (h : Node.IsNode v d m l eh) (hl : l.length ≤ m)
    (hm : b ≠ 0 → m = nodeCap s.fs.blockSize) (hbs : extEntrySize ≤ s.fs.blockSize) :
    Node.IsNode v d m l ((s.put b eh).contents b) := by
  rw [contents_put_self]
  split
  · exact h
  · exact h.clip (entryOff_nodeCap_le (hm ‹_› ▸ hl) hbs)

/-- Where a node with room for `m` entries is. -/
structure Spot (V : Volume) (U : Set ℕ) (b m : ℕ) : Prop where
  block : b = 0 ∨ IsData V b ∧ b ∈ U
  cap : b ≠ 0 → m = nodeCap V.bs
  pos : 0 < m
  le_cap : m ≤ nodeCap V.bs

variable {m d : ℕ} {node : PathNode} {α : Type}
  {v : Buf.RecordView α extEntrySize extEntrySize}

/-- Storing the node again, with other entries. -/
theorem Spot.put (hspot : Spot V U b m) (h : V.Mounted U s.fs) (hbs : 1024 ≤ V.bs) {l : List α}
    {eh : Buf} (hnode : Node.IsNode v d m l eh) (hl : l.length ≤ m) :
    Changed V U {b} [] s (s.put b eh) ∧ Node.IsNode v d m l ((s.put b eh).contents b) := by
  have hsize : extEntrySize ≤ 1024 := by decide
  refine ⟨changed_put h eh (hspot.block.imp_right And.left), isNode_contents_put hnode hl ?_ ?_⟩
  · rw [h.blockSize]
    exact hspot.cap
  · rw [h.blockSize]
    omega

/-- **A full node is cut in two**, the right part in a new block. -/
theorem Spot.cut (hspot : Spot V U node.blocknr m) (h : V.Mounted U s.fs) (hbs : 1024 ≤ V.bs)
    {l r : List α} {a : α} {key : α → ℕ} (hnode : Node.IsNode v d m (l ++ r) node.eh)
    (hfull : (l ++ r).length = m) (ha : v.Fits a) (hkey : ∀ b i, key (v.get b i) = Node.keyAt b i)
    (hd : d < 2 ^ 16) {left right : Buf} {k : ℕ}
    (hcut : Node.cutAt v.set key node.eh V.bs d l.length (l ++ r).length a = (left, right, k)) :
    wp (storeHalves V.blocks node left right) (Leaves V U {node.blocknr} s fun b fresh s' ↦
      fresh = [b] ∧ ∃ ls y rs, Node.Cut l a r ls (y :: rs) ∧ ls ≠ [] ∧ k = key y ∧
        Node.IsNode v d m ls (s'.contents node.blocknr) ∧ ls.length ≤ m ∧
        Node.IsNode v d (nodeCap V.bs) (y :: rs) (s'.fs.block b) ∧
        (y :: rs).length ≤ nodeCap V.bs) s := by
  have hle := h.wf.bs_le
  have hsize : extEntrySize ≤ 1024 := by decide
  have hm := hspot.le_cap
  have hpos := hspot.pos
  have hcap := nodeCap_lt V.bs hle
  have hlen : l.length + r.length = m := by rw [← List.length_append, hfull]
  obtain ⟨ls, y, rs, hparts, hk, hleft, hright⟩ := hnode.cutAt ha hkey hd hle (by omega) hcut
  have hls : ls ≠ [] ∧ ls.length ≤ m ∧ (y :: rs).length ≤ nodeCap V.bs := by
    rcases hparts with ⟨rfl, rfl, hrs⟩ | ⟨hne, rfl, hrs⟩
    · rw [hrs]
      simp only [List.length_nil] at hlen
      refine ⟨List.ne_nil_of_length_pos (by omega), by omega, ?_⟩
      rw [List.length_singleton]
      omega
    · have := List.length_pos_iff.2 hne
      rw [hrs]
      refine ⟨by simp, ?_, by omega⟩
      rw [List.length_append, List.length_singleton]
      omega
  refine wp_mono (storeHalves_spec h hspot.block) fun r s' hr ↦ ?_
  obtain ⟨fresh, hchanged, hpost⟩ := hr
  refine ⟨fresh, hchanged, fun b hb ↦ ?_⟩
  obtain ⟨hfresh, -, hcont, hblock⟩ := hpost b hb
  refine ⟨hfresh, ls, y, rs, hparts, hls.1, hk, ?_, hls.2.1, ?_, hls.2.2⟩
  · rw [hcont]
    split
    · exact hleft
    · exact hleft.clip (entryOff_nodeCap_le (hspot.cap ‹_› ▸ hls.2.1) (by omega))
  · rw [hblock]
    exact hright.clip (entryOff_nodeCap_le hls.2.2 (by omega))

/-- **A new entry in an index node**, which may be cut for it. -/
theorem addEntry_spec (hspot : Spot V U node.blocknr m) (h : V.Mounted U s.fs) (hbs : 1024 ≤ V.bs)
    {l r : List ExtentIdx} {ix : ExtentIdx}
    (hnode : Node.IsNode Node.idxView d m (l ++ r) node.eh) (hlen : (l ++ r).length ≤ m)
    (hl : ∀ a ∈ l, a.eiBlock ≤ ix.eiBlock) (hr : ∀ b ∈ r, ix.eiBlock < b.eiBlock)
    (hfit : Node.idxView.Fits ix) (hd : d < 2 ^ 16) :
    wp (ext4ExtentsAddIndex V.blocks [node] ix.eiLeaf ix.eiBlock)
      (Leaves V U {node.blocknr} s fun o fresh s' ↦
        (o = none ∧ fresh = [] ∧ (l ++ ix :: r).length ≤ m ∧
          Node.IsNode Node.idxView d m (l ++ ix :: r) (s'.contents node.blocknr)) ∨
        ∃ b ls y rs, o = some (b, y.eiBlock) ∧ fresh = [b] ∧ ls ++ y :: rs = l ++ ix :: r ∧ ls ≠ [] ∧
          Node.IsNode Node.idxView d m ls (s'.contents node.blocknr) ∧ ls.length ≤ m ∧
          Node.IsNode Node.idxView d (nodeCap V.bs) (y :: rs) (s'.fs.block b) ∧
          (y :: rs).length ≤ nodeCap V.bs) s := by
  have hkey : ∀ b i, ExtentIdx.eiBlock (Node.idxView.get b i) = Node.keyAt b i := fun _ _ ↦ rfl
  have hle := h.wf.bs_le
  have hcap := nodeCap_lt V.bs hle
  have hm := hspot.le_cap
  have hpos := hspot.pos
  have hlen' : (l ++ ix :: r).length = (l ++ r).length + 1 := by
    simp only [List.length_append, List.length_cons, Nat.add_assoc]
  unfold ext4ExtentsAddIndex
  rw [wp_bind, wp_get, andThen_some, hnode.header.entries, hnode.header.max]
  by_cases hroom : (l ++ r).length < m
  · have hins := hnode.insert hfit (show (l ++ r).length + 1 < 2 ^ 16 by omega)
    obtain ⟨hchanged, hput⟩ := hspot.put h hbs hins (by omega)
    simp only [if_pos hroom, hnode.firstAbove hkey hl hr]
    refine wp_bind_of_eq_some (setNode_eq _ _) (wp_bind_of_eq_some
      (writePathNode_setNode _ h (hspot.block.imp_right And.left)) ?_)
    exact ⟨[], hchanged, fun o ho ↦ .inl ⟨(Option.some.inj ho).symm, rfl, by omega, hput⟩⟩
  · have hfull : (l ++ r).length = m := by omega
    simp only [if_neg hroom, hnode.insertPos hkey hl hr]
    rw [guard_true ⟨by omega, hfull⟩, pure_bind']
    rcases hcut : splitIndexAt node.eh s.fs.blockSize l.length (l ++ r).length ix with ⟨left, right, k⟩
    rw [splitIndexAt, h.blockSize, hnode.header.depth] at hcut
    refine wp_seq (hspot.cut h hbs hnode hfull hfit hkey hd hcut) ?_ ?_
    · rintro s' ⟨fresh, hchanged, -⟩
      exact .none hchanged
    · rintro b s' ⟨fresh, hchanged, hpost⟩
      obtain ⟨hfresh, ls, y, rs, hparts, hne, hk, hrest⟩ := hpost b rfl
      refine ⟨fresh, hchanged, fun o ho ↦ .inr ⟨b, ls, y, rs, ?_, hfresh, hparts.append_eq, hne,
        hrest⟩⟩
      rw [← Option.some.inj ho, hk]

/-- Where a tree is stored that was grown: at the place of its root, and a new sibling in the block
that is returned with its key. -/
def Stored (V : Volume) (s : FsInode) (b m : ℕ) {d : ℕ} : Grown (ExtTree d) → Option (ℕ × ℕ) → Prop
  | .one t, o => o = none ∧ t.Holds s.fs.block (nodeCap V.bs) m (s.contents b)
  | .two left ix right, o => o = some (ix.eiLeaf, ix.eiBlock) ∧
      left.Holds s.fs.block (nodeCap V.bs) m (s.contents b) ∧
      right.Holds s.fs.block (nodeCap V.bs) (nodeCap V.bs) (s.fs.block ix.eiLeaf)

/-- The key that the right part of a full leaf gets. -/
def splitKey (blockSize : ℕ) (ex : Extent) (leaf : Buf) : ℕ :=
  (splitLeafAt leaf blockSize (Node.insertPos leaf ex.eeBlock (Node.entries leaf))
    (Node.entries leaf) ex).2.2

/-- Where an insertion of `ex` goes right. If the leaf takes the extent in, the extent ends before
the next one begins; if the leaf is cut, the key of its right part is not below the key of the
leaf. -/
def PathSafe (blockSize : ℕ) (ex : Extent) : List PathNode → Prop
  | [] => True
  | leaf :: up =>
    if (ext4ExtentsInsert leaf.eh ex).1 then
      ∀ e ∈ Node.extents leaf.eh, ex.eeBlock < e.eeBlock → ex.stop ≤ e.eeBlock
    else ∀ parent ∈ up.head?,
      (chosenIdx ex.eeBlock parent.eh).eiBlock ≤ splitKey blockSize ex leaf.eh

/-- With room in the leaf the new extent must end before the next one. -/
theorem pathSafe_of_true {bs : ℕ} {ex : Extent} {leaf : PathNode} {up : List PathNode} {eh : Buf}
    (h : ext4ExtentsInsert leaf.eh ex = (true, eh)) : PathSafe bs ex (leaf :: up) ↔
      ∀ e ∈ Node.extents leaf.eh, ex.eeBlock < e.eeBlock → ex.stop ≤ e.eeBlock := by
  rw [PathSafe, h, if_pos (by simp)]

/-- Without room the key of the split must not lie before the parent's. -/
theorem pathSafe_of_false {bs : ℕ} {ex : Extent} {leaf : PathNode} {up : List PathNode} {eh : Buf}
    (h : ext4ExtentsInsert leaf.eh ex = (false, eh)) : PathSafe bs ex (leaf :: up) ↔
      ∀ parent ∈ up.head?, (chosenIdx ex.eeBlock parent.eh).eiBlock ≤ splitKey bs ex leaf.eh := by
  rw [PathSafe, h, if_neg (by simp)]

/-- The extents of a leaf, up to the block `x` and from there on. -/
theorem exists_parts {t : List Extent} (x : ℕ) (h : t.Pairwise fun a b ↦ a.stop ≤ b.eeBlock) :
    ∃ l r, t = l ++ r ∧ (∀ e ∈ l, e.eeBlock ≤ x) ∧ ∀ e ∈ r, x < e.eeBlock := by
  induction t with
  | nil => exact ⟨[], [], rfl, by simp, by simp⟩
  | cons a t ih =>
    obtain ⟨ha, ht⟩ := List.pairwise_cons.1 h
    by_cases hx : a.eeBlock ≤ x
    · obtain ⟨l, r, rfl, hl, hr⟩ := ih ht
      exact ⟨a :: l, r, rfl, List.forall_mem_cons.2 ⟨hx, hl⟩, hr⟩
    · refine ⟨[], a :: t, rfl, by simp, List.forall_mem_cons.2 ⟨by omega, fun e he ↦ ?_⟩⟩
      have := ha e he
      unfold Extent.stop at this
      omega

/-- **A full leaf is cut in two.** -/
theorem splitLeaf_spec {ex : Extent} {l r : List Extent} (hspot : Spot V U node.blocknr m)
    (h : V.Mounted U s.fs) (hbs : 1024 ≤ V.bs)
    (hnode : Node.IsNode Node.extentView 0 m (l ++ r) node.eh) (hfull : (l ++ r).length = m)
    (hl : ∀ e ∈ l, e.eeBlock ≤ ex.eeBlock) (hr : ∀ e ∈ r, ex.eeBlock < e.eeBlock)
    (hfit : Node.extentView.Fits ex) :
    wp (ext4ExtentsSplitLeaf node V.blocks ex) (Leaves V U {node.blocknr} s fun right fresh s' ↦
      fresh = [right.1] ∧ right.2 = splitKey V.bs ex node.eh ∧
      ∃ ls y rs, Node.Cut l ex r ls (y :: rs) ∧ ls ≠ [] ∧ right.2 = y.eeBlock ∧
        Node.IsNode Node.extentView 0 m ls (s'.contents node.blocknr) ∧ ls.length ≤ m ∧
        Node.IsNode Node.extentView 0 (nodeCap V.bs) (y :: rs) (s'.fs.block right.1) ∧
        (y :: rs).length ≤ nodeCap V.bs) s := by
  have hkey : ∀ b i, Extent.eeBlock (Node.extentView.get b i) = Node.keyAt b i := fun _ _ ↦ rfl
  have hpos := hspot.pos
  have hn := hnode.header.entries
  have hplace := hnode.insertPos hkey hl hr
  rcases hcut : splitLeafAt node.eh V.bs l.length (l ++ r).length ex with ⟨left, right, k⟩
  have hsplit : splitKey V.bs ex node.eh = k := by
    rw [splitKey, hn, hplace, hcut]
  unfold ext4ExtentsSplitLeaf
  rw [wp_bind, wp_get, andThen_some]
  dsimp only
  rw [hn, hnode.header.max, hplace, h.blockSize, hcut, guard_true ⟨by omega, hfull⟩, pure_bind']
  refine wp_seq (hspot.cut h hbs hnode hfull hfit hkey (by norm_num) hcut) ?_ ?_
  · rintro s' ⟨fresh, hchanged, -⟩
    exact .none hchanged
  · rintro b s' ⟨fresh, hchanged, hpost⟩
    obtain ⟨hfresh, ls, y, rs, hparts, hne, hk, hrest⟩ := hpost b rfl
    refine ⟨fresh, hchanged, fun p hp ↦ ?_⟩
    obtain rfl := Option.some.inj hp
    exact ⟨hfresh, hsplit.symm, ls, y, rs, hparts, hne, hk, hrest⟩

/-- An extent that can be inserted. -/
structure Insertable (ex : Extent) : Prop where
  pos : 0 < ex.eeLen
  stop_lt : ex.stop < 2 ^ 32
  fits : Node.extentView.Fits ex

/-- What is known of the node above a tree whose first key is `first`. -/
def Above (x first : ℕ) (up : List PathNode) : Prop :=
  ∀ parent ∈ up.head?, (chosenIdx x parent.eh).eiBlock = first

/-- **The leaf of a path.** -/
theorem insertLeaf_spec {ex : Extent} {t : List Extent} {lo first hi : ℕ} {up : List PathNode}
    (hspot : Spot V U node.blocknr m) (h : V.Mounted U s.fs) (hbs : 1024 ≤ V.bs)
    (hnode : Node.IsNode Node.extentView 0 m t node.eh) (hlen : t.length ≤ m)
    (ht : Leaf lo hi t) (hex : Insertable ex) (hsafe : PathSafe V.bs ex (node :: up))
    (hup : Above ex.eeBlock first up) :
    wp (insertAlong V.blocks ex [node]) (Leaves V U {node.blocknr} s fun o fresh s' ↦
      ∃ g : Grown (ExtTree 0), @Inserts ex 0 t fresh g ∧ Stored V s' node.blocknr m g o ∧
        (up ≠ [] → g.KeyGe first)) s := by
  have hkey : ∀ b i, Extent.eeBlock (Node.extentView.get b i) = Node.keyAt b i := fun _ _ ↦ rfl
  have hle := h.wf.bs_le
  have hcap := nodeCap_lt V.bs hle
  have hm := hspot.le_cap
  have hpos := hspot.pos
  obtain ⟨l, r, rfl, hl, hr⟩ := exists_parts ex.eeBlock ht.sorted
  have hleaf := insertAtLeaf_eq ex h (hspot.block.imp_right And.left)
  unfold insertAlong
  rcases ext4ExtentsInsert_spec hnode hlen (by omega) hl hr (fun e he ↦ (ht.ok e he).2) hex.fits
    hex.stop_lt with ⟨t, eh, hins, hnode', hjoined, hlen'⟩ | ⟨hins, hfull⟩
  · rw [hins] at hleaf
    obtain ⟨hchanged, hput⟩ := hspot.put h hbs hnode' hlen'
    have hroom := (pathSafe_of_true hins).1 hsafe
    refine wp_bind_of_eq_some hleaf ⟨[], hchanged, fun o ho ↦ ?_⟩
    refine ⟨.one t, .fits hl (fun e he ↦ ?_) hjoined,
      ⟨(Option.some.inj ho).symm, hput, hlen'⟩, fun _ ↦ trivial⟩
    have hext : Node.extents node.eh = l ++ r := by
      have hlist := hnode.list
      rw [← hnode.header.entries] at hlist
      exact hlist
    exact hroom e (hext ▸ List.mem_append_right l he) (hr e he)
  · rw [hins] at hleaf
    have hguard : ¬ Node.entries node.eh < Node.max node.eh := by
      rw [hnode.header.entries, hnode.header.max]
      omega
    refine wp_bind_of_eq_some hleaf ?_
    simp only [Bool.false_eq_true, if_false]
    rw [guard_true hguard, pure_bind']
    refine wp_seq (splitLeaf_spec hspot h hbs hnode hfull hl hr hex.fits) ?_ ?_
    · rintro s' ⟨fresh, hchanged, -⟩
      exact .none hchanged
    · rintro ⟨b, k⟩ s' ⟨fresh, hchanged, hpost⟩
      obtain ⟨rfl, hsplit, ls, y, rs, hparts, hne, hk, hleft, hlenl, hright, hlenr⟩ := hpost _ rfl
      refine ⟨[b], hchanged, fun o ho ↦ ?_⟩
      obtain rfl := Option.some.inj ho
      refine ⟨.two ls ⟨k, b⟩ (y :: rs), ?_, ⟨rfl, ⟨hleft, hlenl⟩, ⟨hright, hlenr⟩⟩, fun hne ↦ ?_⟩
      · rcases hparts with ⟨rfl, rfl, hrs⟩ | ⟨-, rfl, rfl⟩
        · obtain ⟨rfl, rfl⟩ : y = ex ∧ rs = [] := by simpa using hrs
          rw [List.append_nil, show k = y.eeBlock from hk]
          exact .append hne hl
        · rw [show k = y.eeBlock from hk]
          exact .cut hl (hr y (by simp))
      · obtain ⟨parent, up, rfl⟩ := List.exists_cons_of_ne_nil hne
        have hge := (pathSafe_of_false hins).1 hsafe parent (by simp)
        rw [hup parent (by simp)] at hge
        exact hge.trans_eq hsplit.symm

/-! ### Paths -/

/-- What is done in the node above the ones of a path. -/
def goUp (n : ℕ) (node : PathNode) : Option (ℕ × ℕ) → StateErr FsInode (Option (ℕ × ℕ))
  | none => pure none
  | some right => ext4ExtentsAddIndex n [node] right.1 right.2

/-- Adding an index goes up from the leaf: the root is the last to be changed. -/
theorem addIndex_append (n : ℕ) (up : List PathNode) (node : PathNode) (rightBlk key : ℕ) :
    ext4ExtentsAddIndex n (up ++ [node]) rightBlk key =
      ext4ExtentsAddIndex n up rightBlk key >>= goUp n node := by
  induction up generalizing rightBlk key with
  | nil => rfl
  | cons a up ih =>
    rw [List.cons_append, ext4ExtentsAddIndex, ext4ExtentsAddIndex, bind_assoc']
    congr 1
    funext s
    dsimp only
    split
    · simp only [bind_assoc', pure_bind']
      rfl
    · simp only [bind_assoc', ih]

/-- So does the insertion. -/
theorem insertAlong_append (n : ℕ) (ex : Extent) {path : List PathNode} (hne : path ≠ [])
    (node : PathNode) :
    insertAlong n ex (path ++ [node]) = insertAlong n ex path >>= goUp n node := by
  obtain ⟨leaf, up, rfl⟩ := List.exists_cons_of_ne_nil hne
  rw [List.cons_append, insertAlong, insertAlong, bind_assoc']
  congr 1
  funext r
  split
  · rfl
  · simp only [bind_assoc', addIndex_append]

/-- A path has the root. -/
theorem path_ne_nil {rd : ℕ → Buf} {x : ℕ} {t : ExtTree d} : t.path rd x node ≠ [] := by
  cases d with
  | zero => simp [path]
  | succ d =>
    unfold path
    split <;> simp

/-- The entry the code goes to is the one the block is looked up in. -/
theorem chosenIdx_eq {t : ExtTree (d + 1)} {x k : ℕ} {eh : Buf} {c : ExtentIdx × ExtTree d}
    (h : Node.IsNode Node.idxView k m (t.map Prod.fst) eh) (hs : Sorted entryKey t)
    (hc : locate entryKey x t = some c) : chosenIdx x eh = c.1 := by
  have hidxs : Node.idxs eh = t.map Prod.fst := by
    have hlist := h.list
    rw [← h.header.entries] at hlist
    exact hlist
  cases t with
  | nil => simp [locate] at hc
  | cons a t =>
    have hzero : Node.idxAt eh 0 = a.1 := Node.idxView.get_zero_of_list h.list
    have hs' : Sorted ExtentIdx.eiBlock (a.1 :: t.map Prod.fst) := by
      rw [← List.map_cons]
      exact List.pairwise_map.2 hs
    have hsome : some (chosenIdx x eh) = some c.1 := by
      rw [chosenIdx, hidxs, hzero, chooseIdx_eq, List.map_cons, locate_cons_self hs', ← List.map_cons,
        locate_map]
      exact congrArg _ hc
    exact Option.some.inj hsome

/-- Trees that are away from what changed are still there. -/
theorem Changed.holds {cap : ℕ} {F : List (ExtentIdx × ExtTree d)} (h : Changed V U B fresh s s')
    (hF : ∀ e ∈ F, e.2.Holds s.fs.block cap cap (s.fs.block e.1.eiLeaf))
    (hblocks : ∀ b ∈ @blocks (d + 1) F, (b ∈ U ∧ IsData V b) ∧ b ∉ B) :
    ∀ e ∈ F, e.2.Holds s'.fs.block cap cap (s'.fs.block e.1.eiLeaf) := by
  have hsame : ∀ b ∈ @blocks (d + 1) F, s'.fs.block b = s.fs.block b := fun b hb ↦ by
    obtain ⟨⟨hU, hdata⟩, hB⟩ := hblocks b hb
    exact h.block b (not_allocMeta_of_isData hdata) (fun hf ↦ (h.isNew b hf).1 hU)
      fun hmem ↦ absurd hmem hB
  intro e he
  have hmem : ∀ b ∈ e.2.blocks ++ [e.1.eiLeaf], b ∈ @blocks (d + 1) F := fun b hb ↦
    List.mem_flatMap.2 ⟨e, he, hb⟩
  rw [hsame _ (hmem _ (by simp))]
  exact (hF e he).congr fun b hb ↦ hsame b (hmem b (by simp [nodes_subset b hb]))

/-- The blocks of a tree and of an extent that is to be inserted are in use, and no two are the
same. -/
structure Owns (V : Volume) (U : Set ℕ) (ex : Extent) {d : ℕ} (t : ExtTree d) : Prop where
  nodup : (t.blocks ++ ex.blocks).Nodup
  used : ∀ b ∈ t.blocks ++ ex.blocks, b ∈ U ∧ IsData V b

/-- The blocks of the other children are blocks of the tree. -/
theorem blocks_others_subset {pre post : List (ExtentIdx × ExtTree d)} {c : ExtentIdx × ExtTree d} :
    ∀ b ∈ @blocks (d + 1) (pre ++ post), b ∈ @blocks (d + 1) (pre ++ c :: post) := by
  intro b hb
  obtain ⟨e, he, hb⟩ := List.mem_flatMap.1 hb
  refine List.mem_flatMap.2 ⟨e, ?_, hb⟩
  rcases List.mem_append.1 he with he | he <;> simp [he]

/-- A tree that owns its blocks has children that own theirs, apart from the others. -/
theorem Owns.child {ex : Extent} {pre post : List (ExtentIdx × ExtTree d)}
    {c : ExtentIdx × ExtTree d} (h : @Owns V U ex (d + 1) (pre ++ c :: post)) :
    Owns V U ex c.2 ∧ c.1.eiLeaf ∉ c.2.blocks ++ ex.blocks ∧
      ∀ b ∈ @blocks (d + 1) (pre ++ post), b ≠ c.1.eiLeaf ∧ b ∉ c.2.blocks := by
  obtain ⟨hnodup, hused⟩ := h
  have hparts : @blocks (d + 1) (pre ++ c :: post) =
      @blocks (d + 1) pre ++ (c.2.blocks ++ [c.1.eiLeaf] ++ @blocks (d + 1) post) := by
    simp [blocks]
  have hrest : @blocks (d + 1) (pre ++ post) = @blocks (d + 1) pre ++ @blocks (d + 1) post := by
    simp [blocks]
  rw [hparts] at hnodup hused
  rw [hrest]
  simp only [List.nodup_append, List.mem_append, List.mem_singleton] at hnodup hused
  obtain ⟨⟨hpre, ⟨⟨hc, -, hcl⟩, hpost, hcpost⟩, hprec⟩, hexn, hall⟩ := hnodup
  refine ⟨⟨List.nodup_append.2 ⟨hc, hexn, fun a ha b hb ↦ hall a ?_ b hb⟩, fun b hb ↦ hused b ?_⟩,
    ?_, ?_⟩
  · tauto
  · rw [List.mem_append] at hb
    tauto
  · rw [List.mem_append]
    rintro (hmem | hmem)
    · exact hcl _ hmem _ rfl rfl
    · exact hall c.1.eiLeaf (by tauto) _ hmem rfl
  · intro b hb
    rw [List.mem_append] at hb
    rcases hb with hb | hb
    · exact ⟨fun e ↦ hprec b hb b (.inl (.inr e)) rfl, fun hmem ↦ hprec b hb b (.inl (.inl hmem)) rfl⟩
    · exact ⟨fun e ↦ hcpost b (.inr e) b hb rfl, fun hmem ↦ hcpost b (.inl hmem) b hb rfl⟩

/-- A tree in order has no key before its first. -/
theorem Grown.keyGe_of_ordered {lo first hi : ℕ} {g : Grown (ExtTree (d + 1))}
    (h : g.Ordered lo first hi) : g.KeyGe first := by
  cases g with
  | one t => trivial
  | two left ix right =>
    obtain ⟨⟨hfirst, hdiv⟩, -⟩ := h
    have hle := hdiv.key_le (fun _ _ _ hc ↦ hc.1) fun _ _ _ hc ↦ hc.2.1
    cases left with
    | nil => simp at hfirst
    | cons a left =>
      obtain rfl : entryKey a = first := by simpa using hfirst
      exact hle a (by simp)

/-- What was stored for a child is what its entries hold. -/
theorem Stored.entries {cap : ℕ} {ix : ExtentIdx} {g : Grown (ExtTree d)} {o : Option (ℕ × ℕ)}
    (h : Stored V s ix.eiLeaf cap g o) (hcap : cap = nodeCap V.bs) (hne : ix.eiLeaf ≠ 0) :
    ∀ e ∈ g.entries ix, e.2.Holds s.fs.block (nodeCap V.bs) (nodeCap V.bs)
      (s.fs.block e.1.eiLeaf) := by
  have hcont : s.contents ix.eiLeaf = s.fs.block ix.eiLeaf := if_neg hne
  subst hcap
  cases g with
  | one t =>
    obtain ⟨-, ht⟩ := h
    rw [hcont] at ht
    simpa [Grown.entries] using ht
  | two left ix' right =>
    obtain ⟨-, hleft, hright⟩ := h
    rw [hcont] at hleft
    simpa [Grown.entries] using ⟨hleft, hright⟩

/-- The key after a child lies before the end. -/
theorem headKey_le {lo first hi : ℕ} {pre post : List (ExtentIdx × ExtTree d)}
    {c : ExtentIdx × ExtTree d} (h : @Ordered (d + 1) lo first hi (pre ++ c :: post)) :
    headKey entryKey hi post ≤ hi ∧ ∀ p ∈ post, headKey entryKey hi post ≤ entryKey p := by
  have hle := h.2.key_le (fun _ _ _ hc ↦ hc.1) fun _ _ _ hc ↦ hc.2.1
  cases post with
  | nil => simp
  | cons p post =>
    refine ⟨hle p (by simp), fun q hq ↦ ?_⟩
    rcases List.mem_cons.1 hq with rfl | hq
    · exact le_rfl
    · have hs := (List.pairwise_append.1 h.sorted).2.1
      exact (List.pairwise_cons.1 (List.pairwise_cons.1 hs).2).1 q hq

/-- A node has room for an entry. -/
theorem nodeCap_pos {bs : ℕ} (h : 1024 ≤ bs) : 0 < nodeCap bs := by
  unfold nodeCap extEntrySize
  omega

/-- What changes below an entry is below the node. -/
theorem changed_child_subset {pre post : List (ExtentIdx × ExtTree d)} (c : ExtentIdx × ExtTree d) :
    {c.1.eiLeaf} ∪ {b | b ∈ c.2.nodes} ⊆
      {node.blocknr} ∪ {b | b ∈ @nodes (d + 1) (pre ++ c :: post)} := by
  rintro b hb
  refine .inr (List.mem_flatMap.2 ⟨c, by simp, ?_⟩)
  rcases hb with rfl | hb
  · simp
  · exact List.mem_append_left _ hb

/-- The part of the volume that a node can be written in grows with what is allocated. -/
theorem Spot.mono (h : Spot V U b m) (fresh : List ℕ) : Spot V (U ∪ {b | b ∈ fresh}) b m :=
  ⟨h.block.imp_right fun hb ↦ ⟨hb.1, .inl hb.2⟩, h.cap, h.pos, h.le_cap⟩

section Child

variable {ex : Extent} {lo first hi : ℕ} {pre post : List (ExtentIdx × ExtTree d)}
  {c : ExtentIdx × ExtTree d} {g : Grown (ExtTree d)} {up : List PathNode}

/-- After an insertion below a child the blocks of the tree are in use, and none is that of the node. -/
theorem Owns.used_replace (howns : @Owns V U ex (d + 1) (pre ++ c :: post))
    (hroot : node.blocknr ∉ @blocks (d + 1) (pre ++ c :: post) ++ ex.blocks)
    (hspot : Spot V U node.blocknr m) (hchanged : Changed V U B fresh s s')
    (hins : Inserts ex c.2 fresh g) : ∀ b ∈ @blocks (d + 1) (pre ++ (g.entries c.1 ++ post)),
      (b ∈ U ∪ {b | b ∈ fresh} ∧ IsData V b) ∧ b ≠ node.blocknr := by
  have hperm := @blocks_replace d pre post c g _ hins.blocks_perm
  intro b hb
  rcases List.mem_append.1 (hperm.mem_iff.1 hb) with hb | hb
  · have hmem := howns.used b (List.mem_append_left _ hb)
    exact ⟨⟨.inl hmem.1, hmem.2⟩, fun e ↦ hroot (List.mem_append_left _ (e ▸ hb))⟩
  rcases List.mem_append.1 hb with hb | hb
  · have hmem := howns.used b (List.mem_append_right _ hb)
    exact ⟨⟨.inl hmem.1, hmem.2⟩, fun e ↦ hroot (List.mem_append_right _ (e ▸ hb))⟩
  · have hnew := hchanged.isNew b hb
    refine ⟨⟨.inr hb, hnew.2⟩, ?_⟩
    rintro rfl
    rcases hspot.block with h0 | ⟨-, hU⟩
    · exact hnew.2.1 h0
    · exact hnew.1 hU

/-- After an insertion below a child the nodes below all entries are there. -/
theorem Owns.holds_replace {o : Option (ℕ × ℕ)} (howns : @Owns V U ex (d + 1) (pre ++ c :: post))
    (hchild : ∀ e ∈ pre ++ c :: post,
      e.2.Holds s.fs.block (nodeCap V.bs) (nodeCap V.bs) (s.fs.block e.1.eiLeaf))
    (hchanged : Changed V U ({c.1.eiLeaf} ∪ {b | b ∈ c.2.nodes}) fresh s s')
    (hstored : Stored V s' c.1.eiLeaf (nodeCap V.bs) g o) (hleaf : c.1.eiLeaf ≠ 0) :
    ∀ e ∈ pre ++ (g.entries c.1 ++ post),
      e.2.Holds s'.fs.block (nodeCap V.bs) (nodeCap V.bs) (s'.fs.block e.1.eiLeaf) := by
  have haway := howns.child.2.2
  have hothers := @Changed.holds _ _ _ _ _ _ d _ (pre ++ post) hchanged
    (fun e he ↦ hchild e (by rcases List.mem_append.1 he with he | he <;> simp [he]))
    (fun b hb ↦ ⟨howns.used b (List.mem_append_left _ (blocks_others_subset b hb)), fun hB ↦ by
      obtain ⟨hne, hnot⟩ := haway b hb
      rcases hB with rfl | hB
      · exact hne rfl
      · exact hnot (nodes_subset b hB)⟩)
  intro e he
  rcases List.mem_append.1 he with he | he
  · exact hothers e (List.mem_append_left _ he)
  rcases List.mem_append.1 he with he | he
  · exact hstored.entries rfl hleaf e he
  · exact hothers e (List.mem_append_right _ he)

/-- The keys around a new entry behind child `c`. -/
theorem keys_around {ix : ExtentIdx} (ht : @Ordered (d + 1) lo first hi (pre ++ c :: post))
    (hkey : entryKey c ≤ ix.eiBlock) (hlt : ix.eiBlock < headKey entryKey hi post) :
    (∀ a ∈ (pre ++ [c]).map Prod.fst, a.eiBlock ≤ ix.eiBlock) ∧
      ∀ p ∈ post.map Prod.fst, ix.eiBlock < p.eiBlock := by
  have hle := headKey_le ht
  have hs := (List.pairwise_append.1 ht.sorted).2.2
  refine ⟨fun a ha ↦ ?_, fun p hp ↦ ?_⟩
  · obtain ⟨e, he, rfl⟩ := List.mem_map.1 ha
    rcases List.mem_append.1 he with he | he
    · exact (hs e he c (by simp)).trans hkey
    · rw [List.mem_singleton.1 he]
      exact hkey
  · obtain ⟨e, he, rfl⟩ := List.mem_map.1 hp
    exact lt_of_lt_of_le hlt (hle.2 e he)

/-- An entry of a tree can be stored. -/
theorem fits_entry {ix : ExtentIdx} (h : V.Mounted U s.fs) (hhi : ix.eiBlock < hi) (hhi32 : hi ≤ 2 ^ 32)
    (hdata : IsData V ix.eiLeaf) : Node.idxView.Fits ix := by
  have := h.wf.no_wrap
  have := h.wf.perGroup_pos
  have := hdata.2.1
  exact ⟨by omega, by omega⟩

/-- **The node above a child that was cut:** it gets an entry for the right part, and is cut itself where it
has no room for it. -/
theorem addIndex_spec {left right : ExtTree d} {ix : ExtentIdx} (hbs : 1024 ≤ V.bs) (hex : Insertable ex)
    (hd : d + 1 < 2 ^ 16) (hspot : Spot V U node.blocknr m) (h : V.Mounted U s.fs)
    (hnode : Node.IsNode Node.idxView (d + 1) m ((pre ++ c :: post).map Prod.fst) node.eh)
    (hlen : (pre ++ c :: post).length ≤ m) (ht : @Ordered (d + 1) lo first hi (pre ++ c :: post))
    (hlo : lo ≤ ex.eeBlock) (hhi : ex.eeBlock < hi) (hhi32 : hi ≤ 2 ^ 32)
    (hfree : ∀ b, ¬ @Maps ex.eeBlock b (d + 1) (pre ++ c :: post))
    (hfocus : Focus entryKey ex.eeBlock pre c post)
    (hwhole : Changed V U ({node.blocknr} ∪ {b | b ∈ @nodes (d + 1) (pre ++ c :: post)}) fresh s s')
    (hins : Inserts ex c.2 fresh (.two left ix right)) (hkey : entryKey c ≤ ix.eiBlock)
    (hlt : ix.eiBlock < headKey entryKey hi post)
    (hused : ∀ b ∈ @blocks (d + 1) (pre ++ (Grown.entries c.1 (.two left ix right) ++ post)),
      (b ∈ U ∪ {b | b ∈ fresh} ∧ IsData V b) ∧ b ≠ node.blocknr)
    (hbelow : ∀ e ∈ pre ++ (Grown.entries c.1 (.two left ix right) ++ post),
      e.2.Holds s'.fs.block (nodeCap V.bs) (nodeCap V.bs) (s'.fs.block e.1.eiLeaf)) :
    wp (ext4ExtentsAddIndex V.blocks [node] ix.eiLeaf ix.eiBlock)
      (Leaves V U ({node.blocknr} ∪ {b | b ∈ @nodes (d + 1) (pre ++ c :: post)}) s fun o fresh s' ↦
        ∃ g, @Inserts ex (d + 1) (pre ++ c :: post) fresh g ∧ Stored V s' node.blocknr m g o ∧
          (up ≠ [] → g.KeyGe first)) s' := by
  have hix := hused ix.eiLeaf (by simp [blocks, Grown.entries])
  obtain ⟨hl, hr⟩ := keys_around ht hkey hlt
  have hmap : (pre ++ c :: post).map Prod.fst = (pre ++ [c]).map Prod.fst ++ post.map Prod.fst := by simp
  rw [hmap] at hnode
  -- the child itself is stored; what is left is the new entry behind it
  have hadd := @addEntry_spec V _ s' m (d + 1) node (hspot.mono fresh) hwhole.mounted hbs _ _ ix hnode
    (by simpa using hlen) hl hr (fits_entry h (hlt.trans_le (headKey_le ht).1) hhi32 hix.1.2) hd
  refine wp_mono hadd ?_
  rintro r s'' ⟨fresh', hchanged', hpost'⟩
  have hbelow' := hchanged'.holds hbelow fun b hb ↦ hused b hb
  have hall : (pre ++ (Grown.entries c.1 (.two left ix right) ++ post)).map Prod.fst =
      (pre ++ [c]).map Prod.fst ++ ix :: post.map Prod.fst := by simp [Grown.entries]
  refine ⟨fresh ++ fresh', (hwhole.trans hchanged').mono (by simp), fun o ho ↦ ?_⟩
  rcases hpost' o ho with ⟨rfl, rfl, hlen', hnode'⟩ |
    ⟨b, ls, y, rs, rfl, rfl, hcut, hne, hls, hlenl, hrs, hlenr⟩
  · -- there was room
    rw [List.append_nil]
    rw [← hall] at hlen' hnode'
    rw [List.length_map] at hlen'
    exact ⟨_, .child hfocus hins hkey, ⟨rfl, hnode', hlen', hbelow'⟩, fun _ ↦ trivial⟩
  · -- the node is cut between two of its entries
    rw [← hall] at hcut
    obtain ⟨F₁, F₂, hF, rfl, hF₂⟩ := List.map_eq_append_iff.1 hcut.symm
    obtain ⟨y, rs, rfl, rfl, rfl⟩ := List.map_eq_cons_iff.1 hF₂
    have hne' : F₁ ≠ [] := fun e ↦ hne (by simp [e])
    have hins' := @Inserts.split ex d pre post F₁ rs c y fresh _ b hfocus hins hkey hF hne'
    rw [hF] at hbelow'
    rw [List.length_map] at hlenl
    rw [List.length_cons, List.length_map, ← List.length_cons] at hlenr
    refine ⟨_, hins', ⟨rfl, ⟨hls, hlenl, fun e he ↦ hbelow' e (by simp [he])⟩,
      ⟨hrs, hlenr, fun e he ↦ hbelow' e (List.mem_append_right _ he)⟩⟩, fun _ ↦ ?_⟩
    exact Grown.keyGe_of_ordered (hins'.ordered hex.pos hex.stop_lt ht hlo hhi hfree)

end Child

/-- **The nodes of a path after an insertion.** -/
theorem insertAlong_spec {ex : Extent} {t : ExtTree d} {lo first hi : ℕ} {up : List PathNode}
    (hbs : 1024 ≤ V.bs) (hex : Insertable ex) (hd : d < 2 ^ 16)
    (hspot : Spot V U node.blocknr m) (h : V.Mounted U s.fs)
    (hcont : s.contents node.blocknr = node.eh)
    (hholds : t.Holds s.fs.block (nodeCap V.bs) m node.eh) (ht : t.Ordered lo first hi)
    (hlo : lo ≤ ex.eeBlock) (hhi : ex.eeBlock < hi) (hhi32 : hi ≤ 2 ^ 32)
    (hfree : ∀ b, ¬ t.Maps ex.eeBlock b) (howns : Owns V U ex t) (hroot : node.blocknr ∉ t.blocks ++ ex.blocks)
    (hsafe : PathSafe V.bs ex (t.path s.fs.block ex.eeBlock node ++ up))
    (hup : Above ex.eeBlock first up) :
    wp (insertAlong V.blocks ex (t.path s.fs.block ex.eeBlock node))
      (Leaves V U ({node.blocknr} ∪ {b | b ∈ t.nodes}) s fun o fresh s' ↦
        ∃ g, Inserts ex t fresh g ∧ Stored V s' node.blocknr m g o ∧ (up ≠ [] → g.KeyGe first))
      s := by
  induction d generalizing s node m lo first hi up with
  | zero =>
    refine wp_mono (insertLeaf_spec hspot h hbs hholds.1 hholds.2 ht hex hsafe hup) ?_
    rintro r s' ⟨fresh, hchanged, hpost⟩
    exact ⟨fresh, hchanged.mono Set.subset_union_left, hpost⟩
  | succ d ih =>
    obtain ⟨hnode, hlen, hchild⟩ := hholds
    obtain ⟨pre, c, post, rfl, hfocus⟩ := exists_focus entryKey ex.eeBlock ht.ne_nil
    have hloc := hfocus.locate ht.sorted
    have hpath : @path s.fs.block ex.eeBlock (d + 1) node (pre ++ c :: post) =
        path s.fs.block ex.eeBlock ⟨s.fs.block c.1.eiLeaf, c.1.eiLeaf⟩ c.2 ++ [node] := by
      rw [path, hloc]
    have hsub : ∀ b ∈ c.2.blocks ++ [c.1.eiLeaf],
        b ∈ @blocks (d + 1) (pre ++ c :: post) := fun b hb ↦
      List.mem_flatMap.2 ⟨c, by simp, hb⟩
    have hleaf := howns.used c.1.eiLeaf (List.mem_append_left _ (hsub _ (by simp)))
    obtain ⟨hc, hlo', hhi'⟩ := ht.focus hfocus hlo hhi
    rw [hpath] at hsafe ⊢
    rw [insertAlong_append _ _ path_ne_nil]
    obtain ⟨hownsc, hrootc, -⟩ := howns.child
    have hspotc : Spot V U c.1.eiLeaf (nodeCap V.bs) :=
      ⟨.inr hleaf.symm, fun _ ↦ rfl, nodeCap_pos hbs, le_rfl⟩
    have hcontc : s.contents c.1.eiLeaf = s.fs.block c.1.eiLeaf := if_neg hleaf.2.1
    have hchosen : (chosenIdx ex.eeBlock node.eh).eiBlock = c.1.eiBlock := by
      rw [chosenIdx_eq hnode ht.sorted hloc]
    have hfreec : ∀ b, ¬ c.2.Maps ex.eeBlock b := fun b hb ↦ hfree b ((ht.maps_focus hfocus).2 hb)
    rw [List.append_assoc] at hsafe
    refine wp_seq (ih (by omega) hspotc h hcontc (hchild c (by simp)) hc hlo' hhi'
      ((headKey_le ht).1.trans hhi32) hfreec hownsc hrootc hsafe (by simpa [Above] using hchosen)) ?_ ?_
    · rintro s' ⟨fresh, hchanged, -⟩
      exact .none (hchanged.mono (changed_child_subset c))
    -- the child was changed, and its node stored
    rintro o s' ⟨fresh, hchanged, hpost⟩
    obtain ⟨g, hins, hstored, hkey⟩ := hpost o rfl
    replace hkey := hkey (by simp)
    have hg := hins.ordered hex.pos hex.stop_lt hc hlo' hhi' hfreec
    have hused := howns.used_replace hroot hspot hchanged hins
    have hbelow := howns.holds_replace hchild hchanged hstored hleaf.2.1
    have hwhole : Changed V U ({node.blocknr} ∪ {b | b ∈ @nodes (d + 1) (pre ++ c :: post)}) fresh s
        s' := hchanged.mono (changed_child_subset c)
    cases g with
    | one t =>
      obtain ⟨rfl, -⟩ := hstored
      have hsame : s'.contents node.blocknr = node.eh := by
        rw [← hcont]
        refine hchanged.contents (hspot.block.imp_right And.symm) ?_
        rintro (heq | hmem)
        · exact hroot (List.mem_append_left _ (heq ▸ hsub _ (by simp)))
        · exact hroot (List.mem_append_left _ (hsub _ (by simp [nodes_subset _ hmem])))
      refine ⟨fresh, hwhole, fun o ho ↦ ⟨_, .child hfocus hins hkey, ⟨(Option.some.inj ho).symm, ?_⟩,
        fun _ ↦ trivial⟩⟩
      show Holds s'.fs.block (nodeCap V.bs) m (s'.contents node.blocknr) _
      rw [hsame]
      refine ⟨?_, ?_, hbelow⟩
      · simpa [Grown.entries] using hnode
      · simpa [Grown.entries] using hlen
    | two left ix right =>
      obtain ⟨rfl, -⟩ := hstored
      exact addIndex_spec hbs hex hd hspot h hnode hlen ht hlo hhi hhi32 hfree hfocus hwhole hins hkey
        hg.2.2.2 hused hbelow

end FsInode

end MiniExt4
