import MiniExt4.Ext4.ExtentsSpec

/-!
# The map of an inode

`Tree V U s t` says that the inode of `s` has the extent tree `t`. On such a state
`ext4_extents_get_block` is a lookup in the map of `t`, and it creates a block by an insertion into
`t`, which may make the tree one level deeper.

The bytes of the tree are related to it by `Holds` of `ExtentsSpec`, and `Tree` adds what makes the lookup
right and what belongs to the volume: the keys (`ExtTree.Ordered`), and that the nodes and the mapped blocks
are used blocks outside the metadata, each once. A call that creates has three outcomes, which the callers
distinguish: no data block (`NoExtent`), an insertion that succeeded (`Tree.created`), and one that failed
on the way, of which no more is known than that the volume is mounted with more blocks in use (`Grows`).
-/

namespace MiniExt4

open StateErr Keyed ExtTree
open Releasing (IsData)

/-- The root of a tree, in the inode. -/
abbrev FsInode.rootNode (s : FsInode) : PathNode := ⟨s.inode.iBlock, 0⟩

namespace ExtTree

variable {d m lo first hi x b : ℕ} {t : ExtTree d}

/-- The header of the root of a tree. -/
theorem Holds.header {rd : ℕ → Buf} {cap : ℕ} {eh : Buf} (h : t.Holds rd cap m eh) :
    ∃ n, Node.Header eh d m n := by
  cases d with
  | zero => exact ⟨_, h.1.header⟩
  | succ d => exact ⟨_, h.1.header⟩

/-- The key of the first entry of the root. -/
def firstKey : {d : ℕ} → ExtTree d → Option ℕ
  | 0, t => t.head?.map Extent.eeBlock
  | _ + 1, t => t.head?.map entryKey

/-- The first entry of a root that has one. -/
theorem Holds.of_firstKey {rd : ℕ → Buf} {cap k : ℕ} {eh : Buf} (h : t.Holds rd cap m eh)
    (hk : t.firstKey = some k) : Node.keyAt eh 0 = k ∧ Node.entries eh ≠ 0 := by
  cases d with
  | zero =>
    cases t with
    | nil => simp [firstKey] at hk
    | cons e t =>
      have hget : Node.extentAt eh 0 = e := Node.extentView.get_zero_of_list h.1.list
      obtain rfl : e.eeBlock = k := by simpa [firstKey] using hk
      exact ⟨congrArg Extent.eeBlock hget, by rw [h.1.header.entries]; simp⟩
  | succ d =>
    cases t with
    | nil => simp [firstKey] at hk
    | cons c t =>
      have hget : Node.idxAt eh 0 = c.1 := Node.idxView.get_zero_of_list (l := t.map Prod.fst) h.1.list
      obtain rfl : c.1.eiBlock = k := by simpa [firstKey] using hk
      exact ⟨congrArg ExtentIdx.eiBlock hget, by rw [h.1.header.entries]; simp⟩

/-- The root of a tree as the node of a block. -/
theorem Holds.copyRoot {rd : ℕ → Buf} {cap bs : ℕ} {eh : Buf} (h : t.Holds rd cap m eh)
    (hm : m ≤ nodeCap bs) (hd : d < 2 ^ 16) (hbs : extEntrySize ≤ bs) (hbs' : bs ≤ 2 ^ 16) :
    t.Holds rd cap (nodeCap bs) (Buf.clip bs (Node.copyEntries (Node.setEntries
      (Node.ext4ExtentsInitNode Buf.zero bs d) (Node.entries eh)) eh 0 (Node.entries eh))) := by
  cases d with
  | zero =>
    obtain ⟨hnode, hlen⟩ := h
    have hcopy := hnode.copyAll (Node.isNode_init Node.extentView Buf.zero hd hbs').header
    rw [← hnode.header.entries] at hcopy
    exact ⟨hcopy.clip (FsInode.entryOff_nodeCap_le (hlen.trans hm) hbs), hlen.trans hm⟩
  | succ d =>
    obtain ⟨hnode, hlen, hchild⟩ := h
    have hcopy := hnode.copyAll (Node.isNode_init Node.idxView Buf.zero hd hbs').header
    rw [← hnode.header.entries] at hcopy
    refine ⟨hcopy.clip (FsInode.entryOff_nodeCap_le ?_ hbs), hlen.trans hm, hchild⟩
    rw [List.length_map]
    exact hlen.trans hm

/-- The left part of a node that was cut has a first entry. -/
theorem Inserts.exists_firstKey {ex : Extent} {fresh : List ℕ} {left right : ExtTree d}
    {ix : ExtentIdx} (h : Inserts ex t fresh (.two left ix right)) : ∃ k, left.firstKey = some k := by
  cases h with
  | append hne _ =>
    obtain ⟨e, l, rfl⟩ := List.exists_cons_of_ne_nil hne
    exact ⟨_, rfl⟩
  | @cut l r e b hl he => cases l <;> exact ⟨_, rfl⟩
  | split _ _ _ _ hne =>
    obtain ⟨c, l, rfl⟩ := List.exists_cons_of_ne_nil hne
    exact ⟨_, rfl⟩

/-- A new root above the two parts of the old one. -/
theorem ordered_pair {left right : ExtTree d} {ix : ExtentIdx} {k old : ℕ}
    (h : Grown.Ordered lo first hi (.two left ix right)) (hk : left.firstKey = some k) :
    @Ordered (d + 1) lo k hi [(⟨k, old⟩, left), (ix, right)] := by
  have hkey : k ≤ ix.eiBlock ∧ Ordered lo k ix.eiBlock left := by
    cases d with
    | zero =>
      obtain ⟨e, he, rfl⟩ := Option.map_eq_some_iff.1 hk
      exact ⟨(h.1.inside e (List.mem_of_head? he)).2.le, h.1⟩
    | succ d =>
      obtain rfl : k = first := Option.some.inj (hk.symm.trans h.1.1)
      exact ⟨FsInode.Grown.keyGe_of_ordered h, h.1⟩
  obtain ⟨-, hright, hlo, hhi⟩ := h
  exact ⟨rfl, ⟨hkey.1, hlo, hkey.2⟩, ⟨hhi.le, hhi, hright⟩, trivial⟩

/-- The new root maps what the parts map. -/
theorem maps_pair {left right : ExtTree d} {ix : ExtentIdx} {k old : ℕ} :
    @Maps x b (d + 1) [(⟨k, old⟩, left), (ix, right)] ↔ Grown.Maps x b (.two left ix right) := by
  simp only [Maps, Grown.Maps, locate, entryKey]
  split <;> simp

/-- The leaf of a path is the one that maps the block. -/
theorem path_lookup {rd : ℕ → Buf} {cap : ℕ} {node : PathNode} (hholds : t.Holds rd cap m node.eh)
    (ht : t.Ordered lo first hi) (hlt : ∀ b ∈ t.blocks, b < 2 ^ 32) :
    (((t.path rd x node).head?.bind fun leaf ↦ FsInode.ext4ExtentsLookupMapped leaf.eh x) = some b) ↔
      t.Maps x b := by
  -- the path goes through the child that the keys choose, and only it can map the block
  induction d generalizing node m lo first hi with
  | zero =>
    have hnode := hholds.1
    have hleaf : Leaf lo hi t := ht
    have hext : Node.extents node.eh = t := by
      have hlist := hnode.list
      rw [← hnode.header.entries] at hlist
      exact hlist
    -- no physical block number wraps
    have hmap : ∀ e ∈ t, e.eeBlock ≤ x ∧ x < e.stop →
        u32 (e.eeStart + (x - e.eeBlock)) = e.eeStart + (x - e.eeBlock) := fun e he hin ↦
      u32_of_lt (hlt _ (List.mem_flatMap.2 ⟨e, he, List.mem_range'_1.2 (by
        unfold Extent.stop at hin
        omega)⟩))
    simp only [path, List.head?_cons, Option.bind_some, FsInode.ext4ExtentsLookupMapped,
      Option.map_eq_some_iff, ext4ExtentsFind, hnode.header.magic, ne_eq, not_true_eq_false, if_false,
      hext, findExtent_eq_some_iff hleaf.sorted hleaf.ok]
    constructor
    · rintro ⟨e, ⟨he, hin⟩, rfl⟩
      exact ⟨e, he, hin.1, hin.2, hmap e he hin⟩
    · rintro ⟨e, he, hle, hlt', rfl⟩
      exact ⟨e, ⟨he, hle, hlt'⟩, hmap e he ⟨hle, hlt'⟩⟩
  | succ d ih =>
    obtain ⟨pre, c, post, rfl, hfocus⟩ := exists_focus entryKey x ht.ne_nil
    have hloc := hfocus.locate ht.sorted
    have hpath : @path rd x (d + 1) node (pre ++ c :: post) =
        path rd x ⟨rd c.1.eiLeaf, c.1.eiLeaf⟩ c.2 ++ [node] := by
      rw [path, hloc]
    have hc := ht.2.focus.2.2
    have hsub : ∀ b ∈ c.2.blocks, b < 2 ^ 32 := fun b hb ↦
      hlt b (List.mem_flatMap.2 ⟨c, by simp, List.mem_append_left _ hb⟩)
    have hne : c.2.path rd x ⟨rd c.1.eiLeaf, c.1.eiLeaf⟩ ≠ [] := FsInode.path_ne_nil
    obtain ⟨leaf, up, hleaf⟩ := List.exists_cons_of_ne_nil hne
    have hchild : Holds rd cap cap (PathNode.eh ⟨rd c.1.eiLeaf, c.1.eiLeaf⟩) c.2 :=
      hholds.2.2 c (by simp)
    have hrest := ih hchild hc hsub
    rw [ht.maps_focus hfocus, hpath, ← hrest, hleaf]
    rfl

end ExtTree

namespace FsInode

variable {V : Volume} {U : Set ℕ} {s s' : FsInode} {d m lo first hi x b : ℕ} {t : ExtTree d}

/-- The nodes of a path are read. -/
theorem readPathLoop_eq {cap : ℕ} {node : PathNode} {up : List PathNode} (h : V.Mounted U s.fs)
    (hbs : 0 < d → V.bs ≤ blockSizeDefault) (hpool : d ≤ s.fs.extPool) (hd : d < 2 ^ 16)
    (hholds : t.Holds s.fs.block cap m node.eh) (ht : t.Ordered lo first hi)
    (hdata : ∀ b ∈ t.blocks, IsData V b) :
    readPathLoop x d up node s =
      (some (t.path s.fs.block x node ++ up), s.setPool (s.fs.extPool - d)) := by
  -- each level takes one buffer and reads the child that the keys choose
  induction d generalizing s node up m lo first hi with
  | zero => rfl
  | succ d ih =>
    obtain ⟨hnode, -, hchild⟩ := hholds
    obtain ⟨pre, c, post, rfl, hfocus⟩ := exists_focus entryKey x ht.ne_nil
    have hloc := hfocus.locate ht.sorted
    have hpath : @path s.fs.block x (d + 1) node (pre ++ c :: post) =
        path s.fs.block x ⟨s.fs.block c.1.eiLeaf, c.1.eiLeaf⟩ c.2 ++ [node] := by
      rw [path, hloc]
    have hsub : ∀ b ∈ c.2.blocks ++ [c.1.eiLeaf], IsData V b := fun b hb ↦
      hdata b (List.mem_flatMap.2 ⟨c, by simp, hb⟩)
    have hleaf := hsub c.1.eiLeaf (by simp)
    have hwrap : u32 c.1.eiLeaf = c.1.eiLeaf := by
      have := h.wf.no_wrap
      have := h.wf.perGroup_pos
      exact u32_of_lt (by have := hleaf.2.1; omega)
    have hentries : Node.entries node.eh ≠ 0 := by
      rw [hnode.header.entries]
      simp
    have hsize : s.fs.blockSize ≤ blockSizeDefault := by
      rw [h.blockSize]
      exact hbs (by omega)
    obtain ⟨_, hheader⟩ := (hchild c (by simp)).header
    set s₁ := s.setPool (s.fs.extPool - 1) with hs₁
    have hread : orFree (onFs (Fs.readBlock c.1.eiLeaf)) s₁ =
        (some (s.fs.block c.1.eiLeaf), s₁) := by
      refine orFree_of_eq_some ?_
      rw [onFs, zoom_apply, (mounted_setPool h _).usable.readBlock hleaf.2.1]
      rfl
    have hrest : readPathLoop x d (node :: up) ⟨s.fs.block c.1.eiLeaf, c.1.eiLeaf⟩ s₁ = _ := ih
      (mounted_setPool h _) (fun _ ↦ hbs (by omega)) (show d ≤ s.fs.extPool - 1 by omega) (by omega)
      (hchild c (by simp)) ht.2.focus.2.2 fun b hb ↦ hsub b (by simp [hb])
    unfold readPathLoop
    rw [guard_true hentries, pure_bind', chosenIdx_eq hnode ht.sorted hloc]
    rw [hwrap, guard_true hleaf.1, pure_bind', bind_of_eq_some (extMalloc_eq hsize (by omega)),
      bind_of_eq_some hread, guard_true hheader.magic, pure_bind',
      guard_true (by rw [hheader.depth, u16_of_lt (by omega)]), pure_bind',
      hrest, hpath, List.append_assoc]
    show _ = (_, s.setPool (s.fs.extPool - (d + 1)))
    rw [show s.fs.extPool - (d + 1) = s.fs.extPool - 1 - d by omega]
    rfl

/-- The inode of `s` has the extent tree `t`, on a volume whose marks are `U`. -/
structure Tree (V : Volume) (U : Set ℕ) (s : FsInode) {d : ℕ} (t : ExtTree d) : Prop where
  mounted : V.Mounted U s.fs
  bs_ge : 1024 ≤ V.bs
  kind : sIsreg s.inode.iMode ∨ sIsdir s.inode.iMode
  pool : ext4ExtMaxDepth < s.fs.extPool
  depth_le : d ≤ ext4ExtMaxDepth
  bs_le : 0 < d → V.bs ≤ blockSizeDefault
  holds : t.Holds s.fs.block (nodeCap V.bs) rootCap s.inode.iBlock
  ordered : ∃ first, t.Ordered 0 first (2 ^ 32)
  nodup : t.blocks.Nodup
  used : ∀ b ∈ t.blocks, b ∈ U ∧ IsData V b

/-- The map of the inode: `ext4_extents_get_block(inode, x, 0, ..)` finds `b`. -/
def Resolves (s : FsInode) (x b : ℕ) : Prop :=
  b ≠ 0 ∧ (ext4ExtentsGetBlock x false s).1 = some (b, false)

/-- The blocks of a tree can be counted in 32 bits. -/
theorem Tree.lt_two_pow (h : Tree V U s t) {b : ℕ} (hb : b ∈ t.blocks) : b < 2 ^ 32 := by
  have := (h.used b hb).2.2.1
  have := h.mounted.wf.no_wrap
  have := h.mounted.wf.perGroup_pos
  omega

/-- Reading the path of a tree takes a slot for each level below the root. -/
theorem Tree.readPath (h : Tree V U s t) (x : ℕ) : ext4ExtentsReadPath x s =
    (some (t.path s.fs.block x s.rootNode), s.setPool (s.fs.extPool - d)) := by
  obtain ⟨_, hheader⟩ := h.holds.header
  have hdepth := h.depth_le
  have hpool := h.pool
  obtain ⟨first, hord⟩ := h.ordered
  have hmax : ext4ExtMaxDepth < 2 ^ 16 := by decide
  unfold ext4ExtentsReadPath
  rw [get_bind, guard_true hheader.magic, pure_bind', hheader.depth, guard_true hdepth, pure_bind',
    readPathLoop_eq h.mounted h.bs_le (by omega) (by omega) h.holds hord fun b hb ↦ (h.used b hb).2,
    List.append_nil]

/-- A path has a node for each level. -/
theorem length_path (h : Tree V U s t) (x : ℕ) :
    (t.path s.fs.block x s.rootNode).length = d + 1 := by
  have hlen : ∀ {k lo first hi : ℕ} {t : ExtTree k} {node : PathNode} {rd : ℕ → Buf},
      t.Ordered lo first hi → (t.path rd x node).length = k + 1 := by
    intro k
    induction k with
    | zero => exact fun _ ↦ rfl
    | succ k ih =>
      intro lo first hi t node rd ht
      obtain ⟨pre, c, post, rfl, hfocus⟩ := exists_focus entryKey x ht.ne_nil
      rw [path, hfocus.locate ht.sorted]
      simp [ih ht.2.focus.2.2]
  obtain ⟨first, hord⟩ := h.ordered
  exact hlen hord

/-- The path is given back. -/
theorem freePath_eq (h : Tree V U s t) (x : ℕ) :
    ext4ExtentsFreePath (t.path s.fs.block x s.rootNode) (s.setPool (s.fs.extPool - d)) =
      (some (), s) := by
  have hdepth := h.depth_le
  have hpool := h.pool
  rw [ext4ExtentsFreePath, length_path h, Nat.add_sub_cancel, extFree_eq]
  have hsum : s.fs.extPool - d + d = s.fs.extPool := by omega
  show (_, s.setPool (s.fs.extPool - d + d)) = _
  rw [hsum]
  rfl

/-- **A lookup in the map, and an insertion where it finds nothing.** -/
theorem Tree.getBlock (h : Tree V U s t) (x : ℕ) (create : Bool) :
    (∃ b, t.Maps x b ∧ ext4ExtentsGetBlock x create s = (some (b, false), s)) ∨
      (∀ b, ¬ t.Maps x b) ∧ ext4ExtentsGetBlock x create s = if create then
        insertAndFreePath (t.path s.fs.block x s.rootNode) x (s.setPool (s.fs.extPool - d))
      else (some (0, false), s) := by
  obtain ⟨_, hheader⟩ := h.holds.header
  have hmagic : ¬ Node.magic s.inode.iBlock ≠ ext4ExtMagic := not_not_intro hheader.magic
  have hguard : s.fs.blockSize ≠ 0 ∧ (sIsreg s.inode.iMode ∨ sIsdir s.inode.iMode) := by
    have := h.bs_ge
    exact ⟨by rw [h.mounted.blockSize]; omega, h.kind⟩
  obtain ⟨first, hord⟩ := h.ordered
  have hlookup := fun b ↦ @path_lookup _ _ _ _ _ x b t s.fs.block _ s.rootNode h.holds hord
    fun b hb ↦ h.lt_two_pow hb
  have hstart : ext4ExtentsGetBlock x create s =
      ((t.path s.fs.block x s.rootNode).head?.bind fun leaf ↦ ext4ExtentsLookupMapped leaf.eh x).elim
        (if !create then do
          ext4ExtentsFreePath (t.path s.fs.block x s.rootNode)
          pure (0, false)
        else insertAndFreePath (t.path s.fs.block x s.rootNode) x)
        (fun b ↦ do
          ext4ExtentsFreePath (t.path s.fs.block x s.rootNode)
          pure (b, false) : ℕ → StateErr FsInode (ℕ × Bool))
        (s.setPool (s.fs.extPool - d)) := by
    unfold ext4ExtentsGetBlock
    rw [get_bind, guard_true hguard, pure_bind', if_neg (fun hc ↦ hmagic hc.1), if_neg hmagic]
    show lookupOrInsert x create s = _
    refine (bind_of_eq_some (h.readPath x)).trans ?_
    cases (t.path s.fs.block x s.rootNode).head?.bind fun leaf ↦ ext4ExtentsLookupMapped leaf.eh x <;> rfl
  rw [hstart]
  rcases hfind : (t.path s.fs.block x s.rootNode).head?.bind fun leaf ↦
      ext4ExtentsLookupMapped leaf.eh x with _ | b
  · refine .inr ⟨fun b hb ↦ ?_, ?_⟩
    · rw [(hlookup b).2 hb] at hfind
      simp at hfind
    · cases create with
      | true => rfl
      | false => exact bind_of_eq_some (freePath_eq h x)
  · exact .inl ⟨b, (hlookup b).1 hfind, bind_of_eq_some (freePath_eq h x)⟩

/-- The map of an inode is the map of its tree. -/
theorem Tree.resolves_iff (h : Tree V U s t) : Resolves s x b ↔ t.Maps x b := by
  obtain ⟨first, hord⟩ := h.ordered
  have hlookup := fun b ↦ @path_lookup _ _ _ _ _ x b t s.fs.block _ s.rootNode h.holds hord
    fun b hb ↦ h.lt_two_pow hb
  have hpos : ∀ {c}, t.Maps x c → c ≠ 0 := fun hc ↦ (h.used _ hc.mem_blocks).2.1
  unfold Resolves
  rcases h.getBlock x false with ⟨c, hc, hrun⟩ | ⟨hfree, hrun⟩
  · rw [hrun]
    constructor
    · rintro ⟨-, heq⟩
      obtain rfl : c = b := by simpa using heq
      exact hc
    · intro hb
      have hcb : some c = some b := by rw [← (hlookup c).2 hc, (hlookup b).2 hb]
      rw [Option.some.inj hcb]
      exact ⟨hpos hb, rfl⟩
  · rw [hrun]
    simp only [Bool.false_eq_true, if_false, Option.some.injEq, Prod.mk.injEq, and_true]
    exact ⟨fun ⟨hne, heq⟩ ↦ absurd heq.symm hne, fun hb ↦ absurd hb (hfree b)⟩

/-! ### New extents -/

/-- The extent `ex` for the logical block `x` was allocated. -/
structure NewExtent (V : Volume) (U : Set ℕ) (x : ℕ) (s : FsInode) (ex : Extent) (s' : FsInode) :
    Prop where
  eeBlock : ex.eeBlock = x
  pos : 0 < ex.eeLen
  len_le : ex.eeLen ≤ ext4ExtInitMaxLen
  bs_le : V.bs ≤ blockSizeDefault
  isNew : ∀ b ∈ ex.blocks, b ∉ U ∧ IsData V b
  mounted : V.Mounted (U ∪ {b | b ∈ ex.blocks}) s'.fs
  frame : V.AllocFrame s.fs s'.fs
  inode : s'.inode = { s.inode with iBlocks := s'.inode.iBlocks, dirty := s'.inode.dirty }
  iBlocks : s'.inode.iBlocks = if ex.eeLen > 1 then
    u32 (s.inode.iBlocks + (ex.eeLen - 1) * ((V.bs + 511) / 512)) else s.inode.iBlocks
  run : (Fs.ext4NewBlocksInGroup s.fs.preallocGoalLen s.inode.iAllocGroupHint s.fs).1 =
    some (ex.eeStart, ex.eeLen)

/-- There is no run for a new extent. -/
structure NoExtent (V : Volume) (U : Set ℕ) (s s' : FsInode) : Prop where
  mounted : V.Mounted U s'.fs
  frame : V.AllocFrame s.fs s'.fs
  inode : s'.inode = s.inode
  run : (Fs.ext4NewBlocksInGroup s.fs.preallocGoalLen s.inode.iAllocGroupHint s.fs).1 = none

/-- The blocks of an extent are an interval. -/
theorem mem_blocks_iff {ex : Extent} : b ∈ ex.blocks ↔ ex.eeStart ≤ b ∧ b < ex.eeStart + ex.eeLen :=
  List.mem_range'_1

/-- A new extent is all of the run that the allocator found. -/
theorem allocNewExtent_spec (h : V.Mounted U s.fs) (x : ℕ) :
    wp (ext4ExtentsAllocNewExtent x V.blocks) (fun r s' ↦
      (r = none ∧ NoExtent V U s s') ∨ ∃ ex, r = some ex ∧ NewExtent V U x s ex s') s := by
  have hpost := h.newBlocks s.fs.preallocGoalLen s.inode.iAllocGroupHint
  unfold ext4ExtentsAllocNewExtent
  rw [wp_bind, wp_get, andThen_some]
  rcases hr : Fs.ext4NewBlocksInGroup s.fs.preallocGoalLen s.inode.iAllocGroupHint s.fs with
    ⟨_ | ⟨b, len⟩, fs'⟩
  · rw [wp_of_eq hr] at hpost
    have hrun : onFs (Fs.ext4NewBlocksInGroup s.fs.preallocGoalLen s.inode.iAllocGroupHint) s =
        (none, { s with fs := fs' }) := by
      rw [onFs, zoom_apply, hr]
    exact wp_bind_of_eq_none hrun (.inl ⟨rfl, hpost.1, hpost.2, rfl, by rw [hr]⟩)
  · rw [wp_of_eq hr] at hpost
    have hrun : onFs (Fs.ext4NewBlocksInGroup s.fs.preallocGoalLen s.inode.iAllocGroupHint) s =
        (some (b, len), { s with fs := fs' }) := by
      rw [onFs, zoom_apply, hr]
    have hdata := isData_of_allocated hpost h le_rfl (Nat.lt_add_of_pos_right hpost.len_pos)
    have hlt := hpost.len_lt
    have hper := h.wf.perGroup_eq
    have hwrap := h.wf.no_wrap
    have hbs := hpost.bs_le
    have hpos := hpost.len_pos
    have hend := hpost.le_blocks
    have hmax : len ≤ ext4ExtInitMaxLen := by
      unfold ext4ExtInitMaxLen
      unfold blockSizeDefault at hbs
      omega
    -- the run is neither empty nor longer than an extent may be, and ends inside the volume
    have hlen : extentLen b len V.blocks = len := by
      unfold extentLen
      rw [if_neg (show ¬ len = 0 by omega)]
      dsimp only
      rw [if_neg (show ¬ len > ext4ExtInitMaxLen by omega),
        u32_of_lt (by omega), if_neg (by omega)]
    have hset : U ∪ {c | c ∈ Extent.blocks ⟨x, len, b⟩} = U ∪ Set.Ico b (b + len) := by
      ext c
      exact or_congr_right mem_blocks_iff
    have hnew : ∀ c ∈ Extent.blocks ⟨x, len, b⟩, c ∉ U ∧ IsData V c := fun c hc ↦
      isData_of_allocated hpost h (mem_blocks_iff.1 hc).1 (mem_blocks_iff.1 hc).2
    refine wp_bind_of_eq_some hrun ?_
    dsimp only
    rw [guard_true ⟨hdata.2.1, by omega, hdata.2.2.1⟩, pure_bind', hlen, guard_true (by omega),
      pure_bind', h.blockSize]
    -- the blocks behind the first are counted here, the first one by the caller
    by_cases hone : len > 1
    · rw [if_pos hone]
      refine .inr ⟨_, rfl, rfl, hpos, hmax, hbs, hnew, hset ▸ hpost.mounted, hpost.frame, rfl, ?_,
        by rw [hr]⟩
      rw [if_pos hone]
      rfl
    · rw [if_neg hone]
      refine .inr ⟨_, rfl, rfl, hpos, hmax, hbs, hnew, hset ▸ hpost.mounted, hpost.frame, rfl, ?_,
        by rw [hr]⟩
      rw [if_neg hone]
      rfl

/-- A new extent can be inserted. -/
theorem NewExtent.insertable {ex : Extent} (h : NewExtent V U x s ex s')
    (hx : x + ext4ExtInitMaxLen < 2 ^ 32) : Insertable ex := by
  have hblock := h.eeBlock
  have hlen := h.len_le
  have hpos := h.pos
  have hstart := (h.isNew ex.eeStart (mem_blocks_iff.2 ⟨le_rfl, by omega⟩)).2.2.1
  have hwrap := h.mounted.wf.no_wrap
  have hper := h.mounted.wf.perGroup_pos
  unfold ext4ExtInitMaxLen at *
  refine ⟨hpos, ?_, by omega, by omega, by omega⟩
  unfold Extent.stop
  omega

/-! ### A new root -/

/-- The old root is stored in a new block, the new one in the inode. -/
theorem moveRoot_spec (h : V.Mounted U s.fs) (tmp : Buf) (grown : ℕ → Buf) :
    wp (do
      let old ← newNodeBlock V.blocks
      extMalloc
      orFree (onFs (Fs.writeBlock old tmp))
      extFree 1
      modifyInode fun inode ↦ { inode with iBlock := grown old })
    (Leaves V U {0} s fun _ fresh s' ↦ ∃ old, fresh = [old] ∧ V.bs ≤ blockSizeDefault ∧
      s'.fs.block old = Buf.clip V.bs tmp ∧ s'.inode.iBlock = grown old) s := by
  refine wp_seq (newNodeBlock_spec h) (fun s₁ hnone ↦ ?_) fun old s₁ hsome ↦ ?_
  · rcases hnone with ⟨-, hchanged⟩ | ⟨_, hr, -⟩
    · exact .none (hchanged.mono (Set.empty_subset _))
    · simp at hr
  rcases hsome with ⟨hr, -⟩ | ⟨_, hr, hbs, h₁⟩
  · simp at hr
  obtain rfl := Option.some.inj hr
  by_cases hmalloc : s₁.fs.blockSize ≤ blockSizeDefault ∧ 0 < s₁.fs.extPool
  · refine wp_bind_of_eq_some (extMalloc_eq hmalloc.1 hmalloc.2) ?_
    have hnew := h₁.isNew old (by simp)
    have hwrite := writeBlock_eq (mounted_setPool h₁.mounted (s₁.fs.extPool - 1)) hnew.2 tmp
    have h₂ := h₁.putFresh (show old ∈ [old] by simp) tmp
    have h₃ := h₂.trans (changed_put h₂.mounted (grown old) (.inl rfl))
    refine wp_bind_of_eq_some (orFree_of_eq_some hwrite) (wp_bind_of_eq_some (extFree_eq 1) ?_)
    have hpool : s₁.fs.extPool - 1 + 1 = s₁.fs.extPool := by omega
    have hend : (modifyInode fun inode ↦ { inode with iBlock := grown old })
        (FsInode.setPool ⟨(s₁.setPool (s₁.fs.extPool - 1)).fs.put old tmp, s₁.inode⟩
          (s₁.fs.extPool - 1 + 1)) =
        (some (), FsInode.put ⟨s₁.fs.put old tmp, s₁.inode⟩ 0 (grown old)) := by
      rw [hpool]
      rfl
    refine (wp_of_eq hend).2 ⟨_, h₃.mono (by simp), fun _ _ ↦ ⟨old, rfl, hbs, ?_, rfl⟩⟩
    show (s₁.fs.put old tmp).block old = _
    rw [Fs.block_put_self, h₁.mounted.blockSize]
  · refine wp_bind_of_eq_none (extMalloc_eq_none hmalloc) ?_
    exact .none (h₁.mono (Set.empty_subset _))

/-- **The root is moved to a block** and gets two entries. -/
theorem growIndepth_spec {left : ExtTree d} {rightBlk key k : ℕ} (h : V.Mounted U s.fs)
    (hbs : 1024 ≤ V.bs) (hleft : left.Holds s.fs.block (nodeCap V.bs) rootCap s.inode.iBlock)
    (hk : left.firstKey = some k) (hused : ∀ b ∈ left.blocks, b ∈ U ∧ IsData V b)
    (hkey : key < 2 ^ 32) (hright : rightBlk < 2 ^ 48) :
    wp (ext4ExtentsGrowIndepth V.blocks rightBlk key) (Leaves V U {0} s fun _ fresh s' ↦
      ∃ old, fresh = [old] ∧ d < ext4ExtMaxDepth ∧ V.bs ≤ blockSizeDefault ∧
        left.Holds s'.fs.block (nodeCap V.bs) (nodeCap V.bs) (s'.fs.block old) ∧
        Node.IsNode Node.idxView (d + 1) rootCap [⟨k, old⟩, ⟨key, rightBlk⟩] s'.inode.iBlock) s := by
  obtain ⟨n, hheader⟩ := hleft.header
  obtain ⟨hkeyAt, hentries⟩ := hleft.of_firstKey hk
  unfold ext4ExtentsGrowIndepth
  rw [wp_bind, wp_get, andThen_some]
  dsimp only
  rw [hheader.depth, h.blockSize, hkeyAt]
  by_cases hdepth : d < ext4ExtMaxDepth
  · rw [guard_true hdepth, pure_bind', guard_true hentries, pure_bind']
    refine wp_mono (moveRoot_spec h _ _) ?_
    rintro r s' ⟨fresh, hchanged, hpost⟩
    refine ⟨fresh, hchanged, fun u hu ↦ ?_⟩
    obtain ⟨old, hfresh, hbs', htmp, hgrown⟩ := hpost u hu
    have hold := (hchanged.isNew old (by simp [hfresh])).2.2.1
    have hwrap := h.wf.no_wrap
    have hper := h.wf.perGroup_pos
    have hsmall : ext4ExtMaxDepth < 2 ^ 15 := by decide
    have hcap : rootCap ≤ nodeCap V.bs := by
      unfold rootCap nodeCap iBlockSize extEntrySize
      omega
    have hsize : extEntrySize ≤ V.bs := by
      unfold extEntrySize
      omega
    refine ⟨old, hfresh, hdepth, hbs', ?_, ?_⟩
    · -- the old root is copied to a block, and its children stay where they are
      rw [htmp]
      refine (hleft.copyRoot hcap (by omega) hsize h.wf.bs_le).congr fun b hb ↦ ?_
      obtain ⟨hU, hdata⟩ := hused b (nodes_subset b hb)
      exact hchanged.block b (not_allocMeta_of_isData hdata)
        (fun hmem ↦ (hchanged.isNew b hmem).1 hU) (by simp)
    · have hinit := Node.isNode_init Node.idxView s.inode.iBlock (show d + 1 < 2 ^ 16 by omega)
        (show iBlockSize ≤ 2 ^ 16 by decide)
      have hkeyfit : k < 2 ^ 32 := by
        rw [← hkeyAt]
        exact Buf.getField_lt _ _ Ee.block
      rw [hgrown]
      exact Node.isNode_pair hinit.header ⟨hkeyfit, show old < 2 ^ 48 by omega⟩ ⟨hkey, hright⟩
  · rw [guard_false hdepth, fail_bind]
    exact .none ((Changed.refl h).mono (Set.empty_subset _))

/-! ### The whole insertion -/

/-- The nodes of a path are those of the tree where its nodes are the same. -/
theorem path_congr {rd rd' : ℕ → Buf} {node : PathNode} (hrd : ∀ b ∈ t.nodes, rd' b = rd b) :
    t.path rd' x node = t.path rd x node := by
  induction d generalizing node with
  | zero => rfl
  | succ d ih =>
    unfold path
    rcases hloc : locate entryKey x t with _ | c
    · rfl
    · have hmem : ∀ b ∈ nodes c.2 ++ [c.1.eiLeaf], b ∈ @nodes (d + 1) t := fun b hb ↦
        List.mem_flatMap.2 ⟨c, locate_mem hloc, hb⟩
      dsimp only
      rw [hrd _ (hmem c.1.eiLeaf (by simp)), ih fun b hb ↦ hrd b (hmem b (by simp [hb]))]

/-- How the tree that an inode has after an insertion of `ex` comes from the one before: as one node, or as
two below a new root. -/
inductive Becomes (ex : Extent) {d : ℕ} (t : ExtTree d) : {d' : ℕ} → ExtTree d' → Prop
  | one {t' : ExtTree d} {fresh : List ℕ} (h : Inserts ex t fresh (.one t')) : Becomes ex t t'
  | two {left right : ExtTree d} {ix : ExtentIdx} {fresh : List ℕ} {k old : ℕ}
      (h : Inserts ex t fresh (.two left ix right)) (hk : left.firstKey = some k) :
      @Becomes ex d t (d + 1) [(⟨k, old⟩, left), (ix, right)]

/-- The tree that an inode has after an insertion of `ex` into `t`. -/
structure Inserted (V : Volume) (ex : Extent) {d : ℕ} (t : ExtTree d) (fresh : List ℕ)
    (s' : FsInode) {d' : ℕ} (t' : ExtTree d') : Prop where
  depth_le : d' ≤ ext4ExtMaxDepth
  bs_le : 0 < d' → V.bs ≤ blockSizeDefault
  holds : t'.Holds s'.fs.block (nodeCap V.bs) rootCap s'.inode.iBlock
  ordered : ∃ first, t'.Ordered 0 first (2 ^ 32)
  adds : Adds ex (fun x b ↦ t.Maps x b) fun x b ↦ t'.Maps x b
  perm : t'.blocks.Perm (t.blocks ++ (ex.blocks ++ fresh))
  becomes : Becomes ex t t'

/-- The nodes of the path, and a new root if the old one was cut. -/
def insertAndGrow (n : ℕ) (ex : Extent) (path : List PathNode) : StateErr FsInode Unit := do
  match ← insertAlong n ex path with
  | none => pure ()
  | some grow => ext4ExtentsGrowIndepth n grow.1 grow.2

/-- **An extent is put into the tree of an inode.** -/
theorem insertAndGrow_spec {ex : Extent} {first : ℕ} (h : V.Mounted U s.fs) (hbs : 1024 ≤ V.bs)
    (hdepth : d ≤ ext4ExtMaxDepth) (hbs' : V.bs ≤ blockSizeDefault)
    (hholds : t.Holds s.fs.block (nodeCap V.bs) rootCap s.inode.iBlock)
    (ht : t.Ordered 0 first (2 ^ 32)) (hex : Insertable ex) (hhi : ex.eeBlock < 2 ^ 32)
    (howns : Owns V U ex t) (hfree : ∀ b, ¬ t.Maps ex.eeBlock b)
    (hsafe : PathSafe V.bs ex (t.path s.fs.block ex.eeBlock s.rootNode)) :
    wp (insertAndGrow V.blocks ex (t.path s.fs.block ex.eeBlock s.rootNode))
      (Leaves V U ({0} ∪ {b | b ∈ t.nodes}) s fun _ fresh s' ↦
        ∃ d', ∃ t' : ExtTree d', Inserted V ex t fresh s' t') s := by
  have hmax : ext4ExtMaxDepth < 2 ^ 15 := by decide
  have hspot : Spot V U s.rootNode.blocknr rootCap := by
    refine ⟨.inl rfl, fun h0 ↦ absurd rfl h0, by decide, ?_⟩
    unfold rootCap nodeCap iBlockSize extEntrySize
    omega
  have hroot : s.rootNode.blocknr ∉ t.blocks ++ ex.blocks := fun hmem ↦ (howns.used _ hmem).2.1 rfl
  have hins := @insertAlong_spec V U s rootCap d s.rootNode ex t 0 first (2 ^ 32) [] hbs hex
    (by omega) hspot h rfl hholds ht (Nat.zero_le _) hhi le_rfl hfree howns hroot
    (by rwa [List.append_nil]) (by simp [Above])
  unfold insertAndGrow
  refine wp_seq hins ?_ ?_
  · rintro s₁ ⟨fresh, hchanged, -⟩
    exact .none hchanged
  rintro o s₁ ⟨fresh, h₁, hpost⟩
  obtain ⟨g, hg, hstored, -⟩ := hpost o rfl
  have hord := hg.ordered hex.pos hex.stop_lt ht (Nat.zero_le _) hhi hfree
  have hadds := hg.adds hex.pos hex.stop_lt ht (Nat.zero_le _) hhi hfree
  have hperm := hg.blocks_perm
  -- the root took the extent in, or was cut in two
  cases g with
  | one t' =>
    obtain ⟨rfl, hholds'⟩ := hstored
    exact ⟨fresh, h₁, fun _ _ ↦ ⟨d, t', hdepth, fun _ ↦ hbs', hholds', ⟨_, hord⟩, hadds, hperm, .one hg⟩⟩
  | two left ix right =>
    obtain ⟨rfl, hleft, hright⟩ := hstored
    obtain ⟨k, hk⟩ := hg.exists_firstKey
    have hleaf : ∀ b ∈ left.blocks ++ (right.blocks ++ [ix.eiLeaf]),
        b ∈ U ∪ {b | b ∈ fresh} ∧ IsData V b := by
      intro b hb
      rcases List.mem_append.1 (hperm.mem_iff.1 hb) with hb | hb
      · exact ⟨.inl (howns.used b (List.mem_append_left _ hb)).1,
          (howns.used b (List.mem_append_left _ hb)).2⟩
      rcases List.mem_append.1 hb with hb | hb
      · exact ⟨.inl (howns.used b (List.mem_append_right _ hb)).1,
          (howns.used b (List.mem_append_right _ hb)).2⟩
      · exact ⟨.inr hb, (h₁.isNew b hb).2⟩
    have hix := (hleaf ix.eiLeaf (by simp)).2.2.1
    have hkey := hord.2.2.2
    have hwrap := h.wf.no_wrap
    have hper := h.wf.perGroup_pos
    refine wp_mono (growIndepth_spec h₁.mounted hbs hleft hk
      (fun b hb ↦ hleaf b (List.mem_append_left _ hb)) hkey (by omega)) ?_
    rintro r s₂ ⟨fresh', h₂, hpost'⟩
    refine ⟨fresh ++ fresh', (h₁.trans h₂).mono (by simp), fun u hu ↦ ?_⟩
    obtain ⟨old, rfl, hdepth', hbs', hleft', hroot'⟩ := hpost' u hu
    -- a new root does not touch the right part
    have hsame : ∀ b ∈ right.blocks ++ [ix.eiLeaf], s₂.fs.block b = s₁.fs.block b := fun b hb ↦ by
      obtain ⟨hU, hdata⟩ := hleaf b (List.mem_append_right _ hb)
      exact h₂.block b (not_allocMeta_of_isData hdata) (fun hmem ↦ (h₂.isNew b hmem).1 hU) (by simp)
    refine ⟨d + 1, [(⟨k, old⟩, left), (ix, right)], hdepth', fun _ ↦ hbs', ⟨hroot', show 2 ≤ rootCap by decide, ?_⟩,
      ⟨k, ordered_pair hord hk⟩, ?_, ?_, .two hg hk⟩
    · intro c hc
      rcases List.mem_pair.1 hc with rfl | rfl
      · exact hleft'
      · rw [hsame _ (by simp)]
        exact hright.congr fun b hb ↦ hsame b (by simp [nodes_subset b hb])
    · exact ⟨fun x b hx ↦ maps_pair.2 (hadds.old x b hx), fun x b hx ↦ hadds.new x b (maps_pair.1 hx),
        maps_pair.2 hadds.self⟩
    · have hparts : @blocks (d + 1) [(⟨k, old⟩, left), (ix, right)] =
          left.blocks ++ [old] ++ (right.blocks ++ [ix.eiLeaf]) := by simp [blocks]
      simp only [Grown.blocks, ← Multiset.coe_eq_coe, ← Multiset.coe_add, hparts] at hperm ⊢
      have hsum : (left.blocks : Multiset ℕ) + [old] + (right.blocks + [ix.eiLeaf]) =
          left.blocks + (right.blocks + [ix.eiLeaf]) + [old] := by abel
      rw [hsum, hperm]
      abel

/-- Mapping a block is allocating an extent and inserting it, growing the tree if it must. -/
theorem insertMapped_eq (path : List PathNode) (x n : ℕ) :
    ext4ExtentsInsertMappedBlock path x n = ext4ExtentsAllocNewExtent x n >>= fun ex ↦
      insertAndGrow n ex path >>= fun _ ↦ pure ex.eeStart := by
  unfold ext4ExtentsInsertMappedBlock insertAndGrow
  congr 1
  funext ex
  rw [bind_assoc']
  congr 1
  funext o
  cases o <;> rfl

/-! ### Failures

What a failed insertion leaves, whatever the nodes of the path hold: the marks of the blocks it
allocated. -/

/-- A node of a path has a place of its own. -/
def InPlace (V : Volume) (U : Set ℕ) (node : PathNode) : Prop :=
  node.blocknr = 0 ∨ IsData V node.blocknr ∧ node.blocknr ∈ U

/-- A node in place stays in place as more blocks are used. -/
theorem InPlace.mono {U' : Set ℕ} {node : PathNode} (h : InPlace V U node) (hU : U ⊆ U') :
    InPlace V U' node := h.imp_right fun hb ↦ ⟨hb.1, hU hb.2⟩

/-- Some blocks may have been allocated. -/
abbrev Grows {α : Type} (V : Volume) (U : Set ℕ) (s : FsInode) : Option α → FsInode → Prop :=
  Leaves V U Set.univ s fun _ _ _ ↦ True

/-- What a computation leaves is the volume with more blocks in use. -/
theorem Leaves.grows {α : Type} {B : Set ℕ} {Q : α → List ℕ → FsInode → Prop} {r : Option α}
    (h : Leaves V U B s Q r s') : Grows V U s r s' :=
  let ⟨fresh, hchanged, _⟩ := h
  ⟨fresh, hchanged.mono (Set.subset_univ _), fun _ _ ↦ trivial⟩

/-- What comes after a statement that may have allocated. -/
theorem wp_grows_bind {α β : Type} {B : Set ℕ} {y : StateErr FsInode α}
    {f : α → StateErr FsInode β} {Q : α → List ℕ → FsInode → Prop} (hy : wp y (Leaves V U B s Q) s)
    (hf : ∀ a fresh s', Changed V U Set.univ fresh s s' →
      wp (f a) (Grows V (U ∪ {b | b ∈ fresh}) s') s') :
    wp (y >>= f) (Grows V U s) s := by
  refine wp_seq hy (fun s₁ hnone ↦ ?_) fun a s₁ hsome ↦ ?_
  · obtain ⟨fresh, hchanged, -⟩ := hnone
    exact .none (hchanged.mono (Set.subset_univ _))
  · obtain ⟨fresh, hchanged, -⟩ := hsome
    refine wp_mono (hf a fresh s₁ (hchanged.mono (Set.subset_univ _))) ?_
    rintro r s₂ ⟨fresh', hchanged', -⟩
    exact ⟨fresh ++ fresh', ((hchanged.mono (Set.subset_univ _)).trans hchanged').mono
      (Set.subset_univ _), fun _ _ ↦ trivial⟩

/-- Nothing was allocated. -/
theorem grows_refl {α : Type} {r : Option α} (h : V.Mounted U s.fs) : Grows V U s r s :=
  ⟨[], (Changed.refl h).mono (Set.subset_univ _), fun _ _ ↦ trivial⟩

/-- A check allocates nothing. -/
theorem grows_guard {p : Prop} [Decidable p] {β : Type} {f : Unit → StateErr FsInode β}
    (h : V.Mounted U s.fs) (hf : p → wp (f ()) (Grows V U s) s) :
    wp (StateErr.guard p >>= f) (Grows V U s) s := by
  by_cases hp : p
  · rw [guard_true hp, pure_bind']
    exact hf hp
  · rw [guard_false hp, fail_bind]
    exact grows_refl h

/-- Adding an index allocates at most: an induction on the path. -/
theorem addIndex_grows {up : List PathNode} (h : V.Mounted U s.fs) (hup : ∀ node ∈ up, InPlace V U node)
    (rightBlk key : ℕ) : wp (ext4ExtentsAddIndex V.blocks up rightBlk key) (Grows V U s) s := by
  induction up generalizing U s rightBlk key with
  | nil => exact grows_refl h
  | cons node up ih =>
    have hnode := hup node (by simp)
    unfold ext4ExtentsAddIndex
    rw [wp_bind, wp_get, andThen_some]
    dsimp only
    split
    · refine wp_bind_of_eq_some (setNode_eq _ _) (wp_bind_of_eq_some
        (writePathNode_setNode _ h (hnode.imp_right And.left)) ?_)
      exact ⟨[], (changed_put h _ (hnode.imp_right And.left)).mono (Set.subset_univ _),
        fun _ _ ↦ trivial⟩
    · refine grows_guard h fun _ ↦ wp_grows_bind (storeHalves_spec h hnode) fun b fresh s₁ h₁ ↦ ?_
      exact ih h₁.mounted (fun node' hmem ↦ (hup node' (by simp [hmem])).mono Set.subset_union_left)
        _ _

/-- So does splitting a leaf. -/
theorem splitLeaf_grows {leaf : PathNode} (h : V.Mounted U s.fs) (hleaf : InPlace V U leaf)
    (ex : Extent) : wp (ext4ExtentsSplitLeaf leaf V.blocks ex) (Grows V U s) s := by
  unfold ext4ExtentsSplitLeaf
  rw [wp_bind, wp_get, andThen_some]
  dsimp only
  exact grows_guard h fun _ ↦ wp_grows_bind (storeHalves_spec h hleaf) fun _ _ _ h₁ ↦
    grows_refl h₁.mounted

/-- So does the insertion along a path. -/
theorem insertAlong_grows {path : List PathNode} (h : V.Mounted U s.fs)
    (hpath : ∀ node ∈ path, InPlace V U node) (ex : Extent) :
    wp (insertAlong V.blocks ex path) (Grows V U s) s := by
  cases path with
  | nil => exact grows_refl h
  | cons leaf up =>
    have hleaf := hpath leaf (by simp)
    have hrun := insertAtLeaf_eq ex h (hleaf.imp_right And.left)
    unfold insertAlong
    rcases hins : ext4ExtentsInsert leaf.eh ex with ⟨_ | _, eh⟩
    · rw [hins] at hrun
      refine wp_bind_of_eq_some hrun ?_
      simp only [Bool.false_eq_true, if_false]
      refine grows_guard h fun _ ↦ wp_grows_bind (splitLeaf_grows h hleaf ex) ?_
      exact fun right fresh s₁ h₁ ↦ addIndex_grows h₁.mounted
        (fun node hmem ↦ (hpath node (by simp [hmem])).mono Set.subset_union_left) _ _
    · rw [hins] at hrun
      refine wp_bind_of_eq_some hrun ?_
      exact ⟨[], (changed_put h _ (hleaf.imp_right And.left)).mono (Set.subset_univ _),
        fun _ _ ↦ trivial⟩

/-- So does growing the tree. -/
theorem growIndepth_grows (h : V.Mounted U s.fs) (rightBlk key : ℕ) :
    wp (ext4ExtentsGrowIndepth V.blocks rightBlk key) (Grows V U s) s := by
  unfold ext4ExtentsGrowIndepth
  rw [wp_bind, wp_get, andThen_some]
  dsimp only
  exact grows_guard h fun _ ↦ grows_guard h fun _ ↦
    wp_mono (moveRoot_spec h _ _) fun _ _ hpost ↦ hpost.grows

/-- So do both together. -/
theorem insertAndGrow_grows {path : List PathNode} (h : V.Mounted U s.fs)
    (hpath : ∀ node ∈ path, InPlace V U node) (ex : Extent) :
    wp (insertAndGrow V.blocks ex path) (Grows V U s) s := by
  unfold insertAndGrow
  refine wp_grows_bind (insertAlong_grows h hpath ex) fun o fresh s₁ h₁ ↦ ?_
  cases o with
  | none => exact grows_refl h₁.mounted
  | some right => exact growIndepth_grows h₁.mounted _ _

/-! ### Creating a block -/

/-- The nodes of a path are the root and nodes of the tree. -/
theorem mem_path {rd : ℕ → Buf} {node node' : PathNode} (h : node' ∈ t.path rd x node) :
    node'.blocknr = node.blocknr ∨ node'.blocknr ∈ t.nodes := by
  induction d generalizing node with
  | zero => exact .inl (by rw [List.mem_singleton.1 h])
  | succ d ih =>
    unfold path at h
    rcases hloc : locate entryKey x t with _ | c
    · rw [hloc] at h
      exact .inl (by rw [List.mem_singleton.1 h])
    · rw [hloc] at h
      rcases List.mem_append.1 h with h | h
      · refine .inr (List.mem_flatMap.2 ⟨c, locate_mem hloc, ?_⟩)
        rcases ih h with heq | hmem
        · simp [heq]
        · exact List.mem_append_left _ hmem
      · exact .inl (by rw [List.mem_singleton.1 h])

/-- The state after the path for a block was read. -/
abbrev withPath (s : FsInode) (d : ℕ) : FsInode := s.setPool (s.fs.extPool - d)

/-- The path is given back after the insertion, successful or not. -/
theorem insertAndFreePath_eq {path : List PathNode} {r : Option ℕ} (h : V.Mounted U s.fs)
    (hrun : ext4ExtentsInsertMappedBlock path x V.blocks s = (r, s')) :
    insertAndFreePath path x s =
      (r.map fun b ↦ (b, true), s'.setPool (s'.fs.extPool + (path.length - 1))) := by
  unfold insertAndFreePath
  rw [get_bind, fsBlocksCount_eq h, attempt_bind, hrun]
  cases r <;> rfl

/-- Without a run for the block the state is as it was, but for the allocator's. -/
theorem Tree.create_of_noExtent {s₂ : FsInode} (h : Tree V U s t) (hfree : ∀ b, ¬ t.Maps x b)
    (halloc : ext4ExtentsAllocNewExtent x V.blocks (s.withPath d) = (none, s₂))
    (hno : NoExtent V U (s.withPath d) s₂) :
    ∃ s', ext4ExtentsGetBlock x true s = (none, s') ∧ Tree V U s' t ∧ s'.inode = s.inode := by
  have hpool := h.pool
  have hdepth := h.depth_le
  have hrun := (h.getBlock x true).resolve_left fun ⟨b, hb, _⟩ ↦ hfree b hb
  have hmapped : ext4ExtentsInsertMappedBlock (t.path s.fs.block x s.rootNode) x V.blocks
      (s.withPath d) = (none, s₂) := by
    rw [insertMapped_eq, bind_of_eq_none halloc]
  have hins := insertAndFreePath_eq (mounted_setPool h.mounted _) hmapped
  rw [length_path h, Nat.add_sub_cancel] at hins
  have hback : s₂.fs.extPool + d = s.fs.extPool := by
    have hsame : s₂.fs.extPool = s.fs.extPool - d := hno.frame.extPool
    omega
  rw [hback] at hins
  refine ⟨s₂.setPool s.fs.extPool, by rw [hrun.2, if_pos rfl, hins]; rfl, ?_, hno.inode⟩
  have hblock : ∀ b ∈ t.nodes, s₂.fs.block b = s.fs.block b := fun b hb ↦
    hno.frame.block b (not_allocMeta_of_isData (h.used b (nodes_subset b hb)).2)
  have hinode : s₂.inode = s.inode := hno.inode
  exact { h with
    mounted := mounted_setPool hno.mounted _
    kind := by
      show sIsreg s₂.inode.iMode ∨ sIsdir s₂.inode.iMode
      rw [hinode]
      exact h.kind
    holds := by
      show t.Holds s₂.fs.block _ _ s₂.inode.iBlock
      rw [hinode]
      exact h.holds.congr hblock }

/-- With a run for the block the rest of the call is the insertion. -/
theorem Tree.create_of_newExtent {s₂ s₃ : FsInode} {ex : Extent} {r : Option Unit}
    (h : Tree V U s t) (hfree : ∀ b, ¬ t.Maps x b)
    (halloc : ext4ExtentsAllocNewExtent x V.blocks (s.withPath d) = (some ex, s₂))
    (hrun : insertAndGrow V.blocks ex (t.path s.fs.block x s.rootNode) s₂ = (r, s₃)) :
    ext4ExtentsGetBlock x true s =
      (r.map fun _ ↦ (ex.eeStart, true), s₃.setPool (s₃.fs.extPool + d)) := by
  have hget := (h.getBlock x true).resolve_left fun ⟨b, hb, _⟩ ↦ hfree b hb
  have hmapped : ext4ExtentsInsertMappedBlock (t.path s.fs.block x s.rootNode) x V.blocks
      (s.withPath d) = (r.map fun _ ↦ ex.eeStart, s₃) := by
    rw [insertMapped_eq, bind_of_eq_some halloc]
    cases r with
    | none => exact bind_of_eq_none hrun
    | some u => exact bind_of_eq_some hrun
  have hins := insertAndFreePath_eq (mounted_setPool h.mounted _) hmapped
  rw [length_path h, Nat.add_sub_cancel] at hins
  rw [hget.2, if_pos rfl, hins]
  cases r <;> rfl

/-- **An inode's tree after a block was created**, where the insertion goes right. -/
theorem Tree.created {s₂ s₃ : FsInode} {ex : Extent} (h : Tree V U s t)
    (hx : x + ext4ExtInitMaxLen < 2 ^ 32) (hfree : ∀ b, ¬ t.Maps x b)
    (hnew : NewExtent V U x (s.withPath d) ex s₂)
    (hsafe : PathSafe V.bs ex (t.path s.fs.block x s.rootNode))
    (hrun : insertAndGrow V.blocks ex (t.path s.fs.block x s.rootNode) s₂ = (some (), s₃)) :
    ∃ fresh d', ∃ t' : ExtTree d',
      Changed V (U ∪ {b | b ∈ ex.blocks}) ({0} ∪ {b | b ∈ t.nodes}) fresh s₂ s₃ ∧
      Tree V (U ∪ {b | b ∈ ex.blocks} ∪ {b | b ∈ fresh}) (s₃.setPool (s₃.fs.extPool + d)) t' ∧
      Adds ex (fun x b ↦ t.Maps x b) (fun x b ↦ t'.Maps x b) ∧
      t'.blocks.Perm (t.blocks ++ (ex.blocks ++ fresh)) ∧ Becomes ex t t' := by
  have hpool := h.pool
  have hdepth := h.depth_le
  -- nothing of the tree was changed by the allocation
  have hblock : ∀ b ∈ t.nodes, s₂.fs.block b = s.fs.block b := fun b hb ↦
    hnew.frame.block b (not_allocMeta_of_isData (h.used b (nodes_subset b hb)).2)
  have hroot : s₂.inode.iBlock = s.inode.iBlock := (congrArg Inode.iBlock hnew.inode).trans rfl
  have hmode : s₂.inode.iMode = s.inode.iMode := (congrArg Inode.iMode hnew.inode).trans rfl
  have hnode : s₂.rootNode = s.rootNode := by rw [rootNode, hroot]
  have hpath : t.path s₂.fs.block ex.eeBlock s₂.rootNode = t.path s.fs.block x s.rootNode := by
    rw [path_congr hblock, hnew.eeBlock, hnode]
  have howns : Owns V (U ∪ {b | b ∈ ex.blocks}) ex t := by
    refine ⟨h.nodup.append List.nodup_range' fun b hb hb' ↦ (hnew.isNew b hb').1 (h.used b hb).1, ?_⟩
    intro b hb
    rcases List.mem_append.1 hb with hb | hb
    · exact ⟨.inl (h.used b hb).1, (h.used b hb).2⟩
    · exact ⟨.inr hb, (hnew.isNew b hb).2⟩
  obtain ⟨first, hord⟩ := h.ordered
  have hblk := hnew.eeBlock
  have hmax : 0 < ext4ExtInitMaxLen := by decide
  have hspec := insertAndGrow_spec hnew.mounted h.bs_ge hdepth hnew.bs_le
    (by rw [hroot]; exact h.holds.congr hblock) hord (hnew.insertable hx) (by omega) howns
    (by rwa [hblk]) (by rwa [hpath])
  rw [hpath, wp_of_eq hrun] at hspec
  obtain ⟨fresh, hchanged, hpost⟩ := hspec
  obtain ⟨d', t', hins⟩ := hpost () rfl
  have hmode' : s₃.inode.iMode = s.inode.iMode :=
    ((congrArg Inode.iMode hchanged.inode).trans rfl).trans hmode
  refine ⟨fresh, d', t', hchanged, ⟨mounted_setPool hchanged.mounted _, h.bs_ge, ?_, ?_,
    hins.depth_le, hins.bs_le, hins.holds, hins.ordered, ?_, ?_⟩, hins.adds, hins.perm, hins.becomes⟩
  · show sIsreg s₃.inode.iMode ∨ sIsdir s₃.inode.iMode
    rw [hmode']
    exact h.kind
  · show ext4ExtMaxDepth < s₃.fs.extPool + d
    rw [hchanged.pool, hnew.frame.extPool]
    show ext4ExtMaxDepth < s.fs.extPool - d + d
    omega
  · refine hins.perm.nodup_iff.2 ?_
    rw [← List.append_assoc]
    refine howns.nodup.append hchanged.nodup fun b hb hb' ↦ (hchanged.isNew b hb').1 ?_
    exact (howns.used b hb).1
  · intro b hb
    rw [hins.perm.mem_iff, ← List.append_assoc, List.mem_append] at hb
    rcases hb with hb | hb
    · exact ⟨.inl (howns.used b hb).1, (howns.used b hb).2⟩
    · exact ⟨.inr hb, (hchanged.isNew b hb).2⟩

end FsInode

end MiniExt4
