import MiniExt4.Ext4.ExtentMap
import MiniExt4.Ext4.MkfsMount

/-!
# Runs that map blocks

A run is a sequence of `ext4_extents_get_block(inode, x, 1, ..)` on one inode that all succeed, with
any goal for the length of new extents in between. As long as no insertion goes wrong the inode keeps
a tree (`Inv`), and each call adds to its map and changes nothing in it.

An insertion goes wrong in two ways: a new extent may reach beyond the next one of its leaf, and the
key of a new node may be below the key of the node that was cut. `SafeAt` is that neither happens.

The condition is about the step only, so the run lemma is the induction over the calls with `Tree.create` as
its step. It speaks of what was mapped before as well as of what is new: the map of the tree after a call
contains the one before, and adds the extent that was entered.
-/

namespace MiniExt4

open StateErr Keyed ExtTree
open Releasing (IsData)

theorem Volume.Mounted.withGoal {V : Volume} {U : Set ℕ} {fs : Fs} (h : V.Mounted U fs) (n : ℕ) :
    V.Mounted U { fs with preallocGoalLen := n } :=
  ⟨⟨h.wf, h.usable, h.blockSize, h.geom, h.blocksCount, h.groupDesc, h.desc_blockBitmap,
    h.desc_inodeBitmap, h.desc_inodeTable, h.bit_iff, h.meta_used⟩, h.cache⟩

namespace FsInode

variable {V : Volume} {U : Set ℕ} {s s' : FsInode} {d x b : ℕ} {t : ExtTree d}

/-! ### Safe insertions -/

instance (blockSize : ℕ) (ex : Extent) (path : List PathNode) :
    Decidable (PathSafe blockSize ex path) :=
  match path with
  | [] => isTrue trivial
  | leaf :: up => inferInstanceAs (Decidable (if (ext4ExtentsInsert leaf.eh ex).1 then
      ∀ e ∈ Node.extents leaf.eh, ex.eeBlock < e.eeBlock → ex.stop ≤ e.eeBlock
    else ∀ parent ∈ up.head?,
      (chosenIdx ex.eeBlock parent.eh).eiBlock ≤ splitKey blockSize ex leaf.eh))

/-- The insertion that creates block `x` goes right: if `x` is not mapped and there is a run of free
blocks for it, then the extent for the run fits into the leaf it goes to, and a leaf that is cut has
its key below that of its new right part. -/
@[irreducible] def SafeAt (x : ℕ) (s : FsInode) : Prop :=
  match ext4ExtentsReadPath x s with
  | (none, _) => True
  | (some path, s₁) =>
    match (path.head?).bind fun leaf ↦ ext4ExtentsLookupMapped leaf.eh x with
    | some _ => True
    | none =>
      match (ext4ExtentsAllocNewExtent x (ext4ExtentsFsBlocksCount s₁.fs) s₁).1 with
      | none => True
      | some ex => PathSafe s.fs.blockSize ex path

instance (x : ℕ) (s : FsInode) : Decidable (SafeAt x s) := by
  unfold SafeAt
  split
  · exact isTrue trivial
  · split
    · exact isTrue trivial
    · split
      · exact isTrue trivial
      · infer_instance

/-- A file without blocks: its root is a leaf without extents, or not yet a node. -/
structure EmptyFile (V : Volume) (U : Set ℕ) (s : FsInode) : Prop where
  mounted : V.Mounted U s.fs
  bs_ge : 1024 ≤ V.bs
  kind : sIsreg s.inode.iMode
  pool : ext4ExtMaxDepth < s.fs.extPool
  empty : Node.magic s.inode.iBlock ≠ ext4ExtMagic ∨
    Node.IsNode Node.extentView 0 rootCap [] s.inode.iBlock

/-- One call. -/
inductive Call : FsInode → FsInode → Prop
  | create {s s' : FsInode} {x b : ℕ} {isNew : Bool} (hx : x < 2 ^ 20)
      (hrun : ext4ExtentsGetBlock x true s = (some (b, isNew), s')) : Call s s'
  | setGoal (s : FsInode) (n : ℕ) : Call s { s with fs := { s.fs with preallocGoalLen := n } }

/-- A call whose insertion goes right. -/
inductive SafeCall : FsInode → FsInode → Prop
  | create {s s' : FsInode} {x b : ℕ} {isNew : Bool} (hx : x < 2 ^ 20) (hsafe : SafeAt x s)
      (hrun : ext4ExtentsGetBlock x true s = (some (b, isNew), s')) : SafeCall s s'
  | setGoal (s : FsInode) (n : ℕ) : SafeCall s { s with fs := { s.fs with preallocGoalLen := n } }

/-! ### What every call preserves -/

/-- The inode has a tree, or no root yet. -/
def Inv (V : Volume) (s : FsInode) : Prop :=
  ∃ U, (EmptyFile V U s ∧ Node.magic s.inode.iBlock ≠ ext4ExtMagic) ∨
    ∃ d, ∃ t : ExtTree d, Tree V U s t

theorem EmptyFile.tree (h : EmptyFile V U s)
    (hroot : Node.IsNode Node.extentView 0 rootCap [] s.inode.iBlock) :
    @Tree V U s 0 [] :=
  ⟨h.mounted, h.bs_ge, .inl h.kind, h.pool, Nat.zero_le _, fun h0 ↦ absurd h0 (lt_irrefl _),
    ⟨hroot, Nat.zero_le _⟩, ⟨0, List.Pairwise.nil, by simp, by simp⟩, List.nodup_nil, by simp [blocks]⟩

theorem EmptyFile.inv (h : EmptyFile V U s) : Inv V s := by
  by_cases hmagic : Node.magic s.inode.iBlock = ext4ExtMagic
  · exact ⟨U, .inr ⟨0, [], h.tree (h.empty.resolve_left (not_not_intro hmagic))⟩⟩
  · exact ⟨U, .inl ⟨h, hmagic⟩⟩

/-- The state with a root that was made on the first call. -/
def initRoot (s : FsInode) : FsInode :=
  { s with inode :=
      { s.inode with iBlock := Node.ext4ExtentsInitNode s.inode.iBlock iBlockSize 0 } }

theorem EmptyFile.initRoot (h : EmptyFile V U s) : @Tree V U s.initRoot 0 [] :=
  EmptyFile.tree ⟨h.mounted, h.bs_ge, h.kind, h.pool, .inr (Node.isNode_init _ _ (by norm_num)
    (by decide))⟩ (Node.isNode_init _ _ (by norm_num) (by decide))

/-- The first call makes the root. -/
theorem EmptyFile.getBlock_eq (h : EmptyFile V U s) (hmagic : Node.magic s.inode.iBlock ≠ ext4ExtMagic)
    (x : ℕ) : ext4ExtentsGetBlock x true s = ext4ExtentsGetBlock x true s.initRoot := by
  have hnew : Node.magic s.initRoot.inode.iBlock = ext4ExtMagic :=
    (Node.isNode_init Node.extentView s.inode.iBlock (show 0 < 2 ^ 16 by norm_num)
      (show iBlockSize ≤ 2 ^ 16 by decide)).header.magic
  have hguard : s.fs.blockSize ≠ 0 ∧ (sIsreg s.inode.iMode ∨ sIsdir s.inode.iMode) := by
    have := h.bs_ge
    exact ⟨by rw [h.mounted.blockSize]; omega, .inl h.kind⟩
  have hguard' : s.initRoot.fs.blockSize ≠ 0 ∧
      (sIsreg s.initRoot.inode.iMode ∨ sIsdir s.initRoot.inode.iMode) := hguard
  have hstart : ext4ExtentsGetBlock x true s = lookupOrInsert x true s.initRoot := by
    unfold ext4ExtentsGetBlock
    rw [get_bind, guard_true hguard, pure_bind', if_neg (by simp), if_pos hmagic]
    rfl
  rw [hstart]
  unfold ext4ExtentsGetBlock
  rw [get_bind, guard_true hguard', pure_bind', if_neg (by simp), if_neg (not_not_intro hnew)]

/-- A file without a root maps nothing. -/
theorem EmptyFile.not_resolves (h : EmptyFile V U s)
    (hmagic : Node.magic s.inode.iBlock ≠ ext4ExtMagic) (y c : ℕ) : ¬ Resolves s y c := by
  have hguard : s.fs.blockSize ≠ 0 ∧ (sIsreg s.inode.iMode ∨ sIsdir s.inode.iMode) := by
    have := h.bs_ge
    exact ⟨by rw [h.mounted.blockSize]; omega, .inl h.kind⟩
  have hrun : ext4ExtentsGetBlock y false s = (some (0, false), s) := by
    unfold ext4ExtentsGetBlock
    rw [get_bind, guard_true hguard, pure_bind', if_pos ⟨hmagic, rfl⟩, pure_apply]
  rintro ⟨hne, heq⟩
  rw [hrun] at heq
  exact hne (by simpa using heq.symm)

/-- The call `s → s'` for block `x` adds `b` to the map, and nothing in the map is changed. -/
structure MapsTo (x b : ℕ) (s s' : FsInode) : Prop where
  new : Resolves s' x b
  old : ∀ y c, Resolves s y c → Resolves s' y c

/-- **The map after a block was created.** -/
theorem Tree.create {isNew : Bool} (h : Tree V U s t) (hx : x < 2 ^ 20) (hsafe : SafeAt x s)
    (hrun : ext4ExtentsGetBlock x true s = (some (b, isNew), s')) : MapsTo x b s s' ∧ Inv V s' := by
  have hmax : x + ext4ExtInitMaxLen < 2 ^ 32 := by
    unfold ext4ExtInitMaxLen
    omega
  -- a block that is mapped already is returned
  rcases h.getBlock x true with ⟨c, hc, hget⟩ | ⟨hfree, -⟩
  · rw [hget] at hrun
    obtain ⟨⟨rfl, -⟩, rfl⟩ : (c = b ∧ false = isNew) ∧ s = s' := by simpa using hrun
    exact ⟨⟨h.resolves_iff.2 hc, fun _ _ hy ↦ hy⟩, U, .inr ⟨d, t, h⟩⟩
  have hblk := h.mounted.blockSize
  have hlookup : ((t.path s.fs.block x s.rootNode).head?.bind fun leaf ↦
      ext4ExtentsLookupMapped leaf.eh x) = none := by
    obtain ⟨first, hord⟩ := h.ordered
    refine Option.eq_none_iff_forall_not_mem.2 fun c hc ↦ hfree c ?_
    exact (path_lookup h.holds hord fun b hb ↦ h.lt_two_pow hb).1 hc
  have hcount := fsBlocksCount_eq (mounted_setPool h.mounted (s.fs.extPool - d))
  -- what the condition looks at is what the call does
  unfold SafeAt at hsafe
  rw [h.readPath x] at hsafe
  simp only [hlookup, hcount] at hsafe
  have halloc := allocNewExtent_spec (mounted_setPool h.mounted (s.fs.extPool - d)) x
  rcases hr : ext4ExtentsAllocNewExtent x V.blocks (s.withPath d) with ⟨_ | ex, s₂⟩
  · rw [wp_of_eq hr] at halloc
    obtain ⟨-, hno⟩ := halloc.resolve_right fun ⟨ex, heq, _⟩ ↦ by simp at heq
    obtain ⟨s₃, hget, -⟩ := h.create_of_noExtent hfree hr hno
    rw [hget] at hrun
    simp at hrun
  · rw [wp_of_eq hr] at halloc
    obtain ⟨_, heq, hnew⟩ := halloc.resolve_left fun ⟨heq, _⟩ ↦ by simp at heq
    obtain rfl := Option.some.inj heq
    rw [hr, hblk] at hsafe
    rcases hins : insertAndGrow V.blocks ex (t.path s.fs.block x s.rootNode) s₂ with ⟨_ | u, s₃⟩
    · rw [h.create_of_newExtent hfree hr hins] at hrun
      simp at hrun
    · rw [h.create_of_newExtent hfree hr hins] at hrun
      obtain ⟨⟨rfl, -⟩, rfl⟩ : (ex.eeStart = b ∧ true = isNew) ∧
          s₃.setPool (s₃.fs.extPool + d) = s' := by simpa using hrun
      obtain ⟨fresh, d', t', -, htree, hadds, -⟩ := h.created hmax hfree hnew hsafe hins
      have hself := hadds.self
      rw [hnew.eeBlock] at hself
      exact ⟨⟨htree.resolves_iff.2 hself, fun y c hy ↦
        htree.resolves_iff.2 (hadds.old y c (h.resolves_iff.1 hy))⟩, _, .inr ⟨d', t', htree⟩⟩

theorem pathSafe_empty {bs : ℕ} {ex : Extent} {leaf : PathNode} (h : Node.extents leaf.eh = []) :
    PathSafe bs ex [leaf] := by
  rw [PathSafe, h]
  split <;> simp

/-- The first insertion cannot go wrong. -/
theorem Tree.safeAt_empty (h : @Tree V U s 0 []) (x : ℕ) : SafeAt x s := by
  have hext : Node.extents s.inode.iBlock = [] := by
    have hlist := h.holds.1.list
    rw [← h.holds.1.header.entries] at hlist
    exact hlist
  unfold SafeAt
  rw [h.readPath x]
  dsimp only
  split
  · trivial
  · split
    · trivial
    · exact pathSafe_empty hext

theorem Inv.create {isNew : Bool} (h : Inv V s) (hx : x < 2 ^ 20) (hsafe : SafeAt x s)
    (hrun : ext4ExtentsGetBlock x true s = (some (b, isNew), s')) : MapsTo x b s s' ∧ Inv V s' := by
  obtain ⟨U, ⟨hempty, hmagic⟩ | ⟨d, t, htree⟩⟩ := h
  · rw [hempty.getBlock_eq hmagic] at hrun
    have hsafe' := hempty.initRoot.safeAt_empty x
    obtain ⟨hmaps, hinv⟩ := hempty.initRoot.create hx hsafe' hrun
    exact ⟨⟨hmaps.new, fun y c hy ↦ absurd hy (hempty.not_resolves hmagic y c)⟩, hinv⟩
  · exact htree.create hx hsafe hrun

theorem Inv.setGoal (h : Inv V s) (n : ℕ) :
    Inv V { s with fs := { s.fs with preallocGoalLen := n } } := by
  obtain ⟨U, ⟨⟨hm, hbs, hkind, hpool, hempty⟩, hmagic⟩ | ⟨d, t, ht⟩⟩ := h
  · exact ⟨U, .inl ⟨⟨hm.withGoal n, hbs, hkind, hpool, hempty⟩, hmagic⟩⟩
  · exact ⟨U, .inr ⟨d, t, ht.mounted.withGoal n, ht.bs_ge, ht.kind, ht.pool, ht.depth_le, ht.bs_le,
      ht.holds, ht.ordered, ht.nodup, ht.used⟩⟩

theorem Inv.step (h : Inv V s) (hcall : SafeCall s s') : Inv V s' := by
  cases hcall with
  | create hx hsafe hrun => exact (h.create hx hsafe hrun).2
  | setGoal n => exact h.setGoal n

/-- **In a run whose insertions go right the map only grows**: after each call a lookup finds the
block that the call returned, and for every block mapped before what it found then. -/
theorem getBlock_mapsTo {s₀ : FsInode} {isNew : Bool} (h₀ : EmptyFile V U s₀)
    (hrun : Relation.ReflTransGen SafeCall s₀ s) (hx : x < 2 ^ 20) (hsafe : SafeAt x s)
    (hcall : ext4ExtentsGetBlock x true s = (some (b, isNew), s')) : MapsTo x b s s' := by
  have hinv : Inv V s := by
    clear hsafe hcall
    induction hrun with
    | refl => exact h₀.inv
    | tail _ hstep ih => exact ih.step hstep
  exact (hinv.create hx hsafe hcall).1

/-- What is known of a filesystem after an allocation, with a goal of one block. -/
theorem mounted_of_newBlocks {fs fs' : Fs} {goalLen preferredGroup len : ℕ} (h : V.Mounted U fs)
    (hpool : ext4ExtMaxDepth < fs.extPool)
    (hrun : fs.ext4NewBlocksInGroup goalLen preferredGroup = (some (b, len), fs')) :
    ext4ExtMaxDepth < ({ fs' with preallocGoalLen := 1 } : Fs).extPool ∧
      V.Mounted (U ∪ Set.Ico b (b + len)) { fs' with preallocGoalLen := 1 } := by
  have hpost := h.newBlocks goalLen preferredGroup
  rw [wp_of_eq hrun] at hpost
  exact ⟨lt_of_lt_of_eq hpool hpost.frame.extPool.symm, hpost.mounted.withGoal 1⟩

/-- A file on the small volume that has no block yet. -/
def smallFile (goalLen : ℕ) : FsInode where
  fs := { Mkfs.smallFs with preallocGoalLen := goalLen }
  inode :=
    { iIno := 12, iNlink := 1, iUid := 0, iGid := 0, iMode := 0o100644, iAtime := 0, iMtime := 0,
      iCtime := 0, iSize := 0, iBlocks := 0, dirty := false, iBlock := Buf.zero,
      iFlags := ext4InodeFlagExtents, iAllocGroupHint := 0 }

theorem smallFile_empty (goalLen : ℕ) : EmptyFile (Mkfs.volume 4096 64 Mkfs.smallSb.toSbGeom)
    (Mkfs.initialUsed 4096 64) (smallFile goalLen) := by
  obtain ⟨hgeom, hmounted⟩ := Mkfs.mounted_small
  refine ⟨hmounted.withGoal goalLen, ?_, show sIsreg 0o100644 = true by decide,
    show ext4ExtMaxDepth < Mkfs.smallFs.extPool by decide,
    .inl (show Node.magic Buf.zero ≠ ext4ExtMagic by decide)⟩
  show 1024 ≤ Mkfs.smallSb.sBlockSize
  rw [hgeom.sBlockSize]
  norm_num

/-- The small file after block 5 was created. -/
def smallFile₅ : FsInode := (ext4ExtentsGetBlock 5 true (smallFile 1)).2

theorem getBlock_small : ext4ExtentsGetBlock 5 true (smallFile 1) = (some (9, true), smallFile₅) :=
  eq_of_fst_eq (by decide +kernel)

/-- Block 3 is created before block 5. -/
theorem getBlock_mapsTo_small : MapsTo 3 10 smallFile₅ (ext4ExtentsGetBlock 3 true smallFile₅).2 := by
  have hrun : Relation.ReflTransGen SafeCall (smallFile 1) smallFile₅ :=
    .single (.create (by norm_num) (by decide +kernel) getBlock_small)
  have hcall : ext4ExtentsGetBlock 3 true smallFile₅ = (some (10, true), _) :=
    eq_of_fst_eq (by decide +kernel)
  exact getBlock_mapsTo (smallFile_empty 1) hrun (by norm_num) (by decide +kernel) hcall

/-- With block 5 mapped, a goal of 32 blocks for block 0 maps block 5 anew. -/
theorem getBlock_overlap : ¬ ∀ (V : Volume) (U : Set ℕ) (s₀ s s' : FsInode) (x b : ℕ) (isNew : Bool),
    EmptyFile V U s₀ → Relation.ReflTransGen Call s₀ s → x < 2 ^ 20 →
      ext4ExtentsGetBlock x true s = (some (b, isNew), s') → MapsTo x b s s' := by
  intro hall
  set s : FsInode := { smallFile₅ with fs := { smallFile₅.fs with preallocGoalLen := 32 } } with hs
  have hrun : Relation.ReflTransGen Call (smallFile 1) s :=
    (Relation.ReflTransGen.single (.create (by norm_num) getBlock_small)).tail (.setGoal _ 32)
  have hcall : ext4ExtentsGetBlock 0 true s = (some (10, true), _) :=
    eq_of_fst_eq (by decide +kernel)
  have hmaps := hall _ _ _ _ _ _ _ _ (smallFile_empty 1) hrun (by norm_num) hcall
  have hold : Resolves s 5 9 := ⟨by norm_num, by decide +kernel⟩
  exact absurd (hmaps.old 5 9 hold).2 (by decide +kernel)

end FsInode

end MiniExt4
