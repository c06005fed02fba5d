import MiniExt4.Ext4.ExtentMap
import MiniExt4.Machine.Chained

/-!
# Extent trees without holes

A file that is only written at or before its end maps a prefix of its logical blocks, and its tree is
packed: an extent begins where the one before it ends, and every key is the first block below it. A new
extent comes behind all others then. It cannot get in the way of one, and the keys stay right, so that the
insertion needs no condition (`Packed.pathSafe`). A node that is full is left as it was when a sibling
is made for the new extent, and so an insertion that fails changes nothing in the tree
(`insertAlong_keeps`).

Being packed is what makes every bound of an insertion hold by itself: the last extent is found for the new
one at every level (`Packed.focus_last`), and what is above it is nothing. The same fact serves failing
calls. A node that is cut on the way is cut behind its last entry, so that its left half is the node itself
(`storeHalves_same`), which is not so in trees with holes.
-/

namespace MiniExt4

open StateErr Keyed
open Releasing (IsData)

namespace ExtTree

/-- The tree maps the logical blocks from `lo` to `hi`, in order and without a hole. -/
def Packed : {d : ℕ} → (lo hi : ℕ) → ExtTree d → Prop
  | 0, lo, hi, t => Chained (fun lo hi e ↦ Extent.eeBlock e = lo ∧ e.stop = hi) hi lo t
  | _ + 1, lo, hi, t => Chained (fun lo hi c ↦ entryKey c = lo ∧ Packed lo hi c.2) hi lo t

end ExtTree

/-- What the nodes map after an insertion: the key of a new node is the first block below it. -/
def Grown.Packed {d : ℕ} (lo hi : ℕ) : Grown (ExtTree d) → Prop
  | .one t => t.Packed lo hi
  | .two left ix right => lo < ix.eiBlock ∧ left.Packed lo ix.eiBlock ∧
      ix.eiBlock < hi ∧ right.Packed ix.eiBlock hi

namespace ExtTree

variable {d lo first k hi H x : ℕ} {t : ExtTree d} {ex : Extent} {fresh : List ℕ}

/-- The end of a packed tree is not before its start. -/
theorem Packed.le (h : t.Packed lo hi) : lo ≤ hi := by
  cases d with
  | zero => exact Chained.le h
  | succ d => exact Chained.le h

/-- The part of a packed node from an entry on. -/
theorem Packed.split {pre post : List (ExtentIdx × ExtTree d)} {c : ExtentIdx × ExtTree d}
    (h : @Packed (d + 1) lo hi (pre ++ c :: post)) : ∃ lo' hi',
      @Packed (d + 1) lo lo' pre ∧ entryKey c = lo' ∧ lo' < hi' ∧ c.2.Packed lo' hi' ∧
        @Packed (d + 1) hi' hi post := by
  obtain ⟨lo', hpre, hi', hlt, ⟨hkey, hc⟩, hpost⟩ := Chained.append_iff.1 h
  exact ⟨lo', hi', hpre, hkey, hlt, hc, hpost⟩

/-- The keys are not above `hi`. -/
theorem Packed.key_lt {c : ExtentIdx × ExtTree d} {t : ExtTree (d + 1)} (h : t.Packed lo hi) (hc : c ∈ t) :
    entryKey c < hi := by
  obtain ⟨lo', hi', -, hlt, hle, hkey, -⟩ := Chained.of_mem h hc
  exact hkey.trans_lt (hlt.trans_le hle)

/-- Its extents start before its end. -/
theorem Packed.block_lt {e : Extent} {t : ExtTree 0} (h : t.Packed lo hi) (he : e ∈ t) : e.eeBlock < hi := by
  obtain ⟨lo', hi', -, hlt, hle, hkey, -⟩ := Chained.of_mem h he
  exact hkey.trans_lt (hlt.trans_le hle)

/-- Behind a packed node there is no entry for a block from its end on but the last one. -/
theorem Packed.focus_last {pre post : List (ExtentIdx × ExtTree d)} {c : ExtentIdx × ExtTree d}
    (h : @Packed (d + 1) lo x (pre ++ c :: post)) (hfocus : Focus entryKey x pre c post) : post = [] := by
  cases post with
  | nil => rfl
  | cons p post =>
    have hlt := hfocus.lt p rfl
    exact absurd (h.key_lt (c := p) (by simp)) (by omega)

/-! ### The map -/

/-- **A packed tree maps exactly the blocks of its range.** -/
theorem Packed.maps_iff (h : t.Packed lo hi) (ht : t.Ordered first k H) (y : ℕ) :
    (∃ b, t.Maps y b) ↔ lo ≤ y ∧ y < hi := by
  induction d generalizing lo hi first k H with
  | zero =>
    rw [← Chained.exists_mem_iff (R := fun e : Extent ↦ e.eeBlock ≤ y ∧ y < e.stop) _ h]
    · constructor
      · rintro ⟨b, e, he, hle, hlt, -⟩
        exact ⟨e, he, hle, hlt⟩
      · rintro ⟨e, he, hle, hlt⟩
        exact ⟨_, e, he, hle, hlt, rfl⟩
    · rintro lo hi e ⟨rfl, rfl⟩
      exact Iff.rfl
  | succ d ih =>
    obtain ⟨pre, c, post, rfl, hfocus⟩ := exists_focus entryKey y ht.ne_nil
    obtain ⟨lo', hi', hpre, hkey, hlt, hc, hpost⟩ := h.split
    simp only [ht.maps_focus hfocus]
    rw [ih hc ht.2.focus.2.2]
    have hlo : lo' ≤ y ↔ lo ≤ y := by
      refine ⟨fun hy ↦ hpre.le.trans hy, fun hy ↦ ?_⟩
      cases pre with
      | nil => exact le_of_eq_of_le (Eq.symm hpre) hy
      | cons a pre => exact hkey ▸ hfocus.le (List.cons_ne_nil a pre)
    have hhi : y < hi' ↔ y < hi := by
      refine ⟨fun hy ↦ hy.trans_le hpost.le, fun hy ↦ ?_⟩
      cases post with
      | nil => exact hy.trans_eq (Eq.symm hpost)
      | cons p post => exact (hfocus.lt p rfl).trans_eq (Chained.head_key (fun _ _ _ hp ↦ hp.1) hpost)
    rw [hlo, hhi]

/-! ### A new extent at the end -/

/-- A step of joining keeps a leaf packed. -/
theorem packed_joinStep {l l' : List Extent} (h : @Packed 0 lo hi l) (hjoin : JoinStep l l') :
    @Packed 0 lo hi l' := by
  obtain ⟨l, r, hab⟩ := hjoin
  obtain ⟨m, hl, m₁, hlt₁, ⟨ha, ha'⟩, m₂, hlt₂, ⟨-, hb'⟩, hr⟩ := Chained.append_iff.1 h
  refine Chained.append_iff.2 ⟨m, hl, m₂, hlt₁.trans hlt₂, ⟨ha, ?_⟩, hr⟩
  rw [hab.stop_join, hb']

/-- So do any number of them. -/
theorem packed_joined {l l' : List Extent} (h : @Packed 0 lo hi l) (hjoin : Joined l l') : @Packed 0 lo hi l' := by
  induction hjoin with
  | refl => exact h
  | tail _ hstep ih => exact packed_joinStep ih hstep

/-- The extent behind all others. -/
theorem Packed.snoc {l : List Extent} (h : @Packed 0 lo ex.eeBlock l) (hpos : 0 < ex.eeLen) :
    @Packed 0 lo ex.stop (l ++ [ex]) :=
  Chained.append h (Chained.singleton_iff.2 ⟨Nat.lt_add_of_pos_right hpos, rfl, rfl⟩)

/-- The nodes below an entry, and their new entry, in the place of the last one. -/
theorem Grown.Packed.entries {pre : List (ExtentIdx × ExtTree d)} {c : ExtentIdx × ExtTree d}
    {g : Grown (ExtTree d)} {mid : ℕ} (hpre : @ExtTree.Packed (d + 1) lo mid pre) (hkey : entryKey c = mid)
    (hlt : mid < hi) (hg : g.Packed mid hi) : @ExtTree.Packed (d + 1) lo hi (pre ++ g.entries c.1) := by
  refine Chained.append hpre ?_
  cases g with
  | one t => exact Chained.singleton_iff.2 ⟨hlt, hkey, hg⟩
  | two left ix right =>
    obtain ⟨hleft, hl, hright, hr⟩ := hg
    exact ⟨_, hleft, ⟨hkey, hl⟩, Chained.singleton_iff.2 ⟨hright, rfl, hr⟩⟩

/-- **An extent at the end of a packed tree leaves it packed.** -/
theorem Inserts.packed {g : Grown (ExtTree d)} (h : Inserts ex t fresh g) (ht : t.Packed lo ex.eeBlock)
    (hpos : 0 < ex.eeLen) : g.Packed lo ex.stop := by
  have hstop : ex.eeBlock < ex.stop := Nat.lt_add_of_pos_right hpos
  -- the new extent comes behind all others, so nothing is to the right of it on its way
  induction h generalizing lo with
  | @fits l r t hl hr hjoin =>
    obtain rfl : r = [] := List.eq_nil_iff_forall_not_mem.2 fun e he ↦ by
      have hlt := ht.block_lt (List.mem_append_right l he)
      have hle := hr e he
      omega
    rw [List.append_nil] at ht
    exact packed_joined (ht.snoc hpos) hjoin
  | @append l b hne hl =>
    refine ⟨?_, ht, hstop, Chained.singleton_iff.2 ⟨hstop, rfl, rfl⟩⟩
    obtain ⟨e, l, rfl⟩ := List.exists_cons_of_ne_nil hne
    obtain ⟨mid, hlt, -, hrest⟩ := ht
    exact hlt.trans_le hrest.le
  | @cut l r e b hl he => exact absurd (ht.block_lt (e := e) (by simp)) (by omega)
  | @child d pre post c fresh g hfocus h hkey ih =>
    obtain rfl := ht.focus_last hfocus
    obtain ⟨mid, hi', hpre, hck, hlt, hc, hend⟩ := ht.split
    obtain rfl : hi' = ex.eeBlock := hend
    rw [List.append_nil]
    exact Grown.Packed.entries hpre hck (hlt.trans hstop) (ih hc)
  | @split d pre post ls rs c y fresh g b hfocus h hkey hcut hne ih =>
    obtain rfl := ht.focus_last hfocus
    obtain ⟨mid, hi', hpre, hck, hlt, hc, hend⟩ := ht.split
    obtain rfl : hi' = ex.eeBlock := hend
    rw [List.append_nil] at hcut
    have hall := Grown.Packed.entries hpre hck (hlt.trans hstop) (ih hc)
    rw [hcut] at hall
    obtain ⟨mid', hls, hy⟩ := Chained.append_iff.1 hall
    obtain rfl : y.1.eiBlock = mid' := by
      obtain ⟨_, -, ⟨hyk, -⟩, -⟩ := hy
      exact hyk
    refine ⟨?_, hls, ?_, hy⟩
    · obtain ⟨a, ls, rfl⟩ := List.exists_cons_of_ne_nil hne
      obtain ⟨_, hlt', -, hrest⟩ := hls
      exact hlt'.trans_le hrest.le
    · obtain ⟨_, hlt', -, hrest⟩ := hy
      exact hlt'.trans_le hrest.le

/-- The first key of a packed tree is the first block. -/
theorem Packed.firstKey (h : t.Packed lo hi) {k : ℕ} (hk : t.firstKey = some k) : k = lo := by
  cases d with
  | zero =>
    cases t with
    | nil => exact absurd hk (by simp [ExtTree.firstKey])
    | cons e t =>
      obtain ⟨_, -, ⟨he, -⟩, -⟩ := h
      exact (Option.some.inj hk).symm.trans he
  | succ d =>
    cases t with
    | nil => exact absurd hk (by simp [ExtTree.firstKey])
    | cons c t =>
      obtain ⟨_, -, ⟨hc, -⟩, -⟩ := h
      exact (Option.some.inj hk).symm.trans hc

end ExtTree

open ExtTree

/-- **So does an inode whose tree is packed.** -/
theorem FsInode.Becomes.packed {d d' lo : ℕ} {t : ExtTree d} {t' : ExtTree d'} {ex : Extent}
    (h : FsInode.Becomes ex t t') (ht : t.Packed lo ex.eeBlock) (hpos : 0 < ex.eeLen) :
    t'.Packed lo ex.stop := by
  cases h with
  | one h => exact h.packed ht hpos
  | two h hk =>
    obtain ⟨hlt, hleft, hlt', hright⟩ := h.packed ht hpos
    exact ⟨_, hlt, ⟨hleft.firstKey hk, hleft⟩, Chained.singleton_iff.2 ⟨hlt', rfl, hright⟩⟩

/-- The inode without the map and the number of its blocks. -/
def Inode.fixed (n : Inode) : Inode := { n with iBlocks := 0, dirty := false, iBlock := Buf.zero }

/-- `n'` is the inode `n` after blocks were added to it. -/
structure Inode.Later (n n' : Inode) : Prop where
  fixed : n'.fixed = n.fixed
  iBlocks : n.iBlocks < 2 ^ 32 → n'.iBlocks < 2 ^ 32

namespace Inode.Later

variable {n n' n'' : Inode}

theorem refl (n : Inode) : n.Later n := ⟨rfl, id⟩

/-- Two steps that leave the attributes, one after the other. -/
theorem trans (h : n.Later n') (h' : n'.Later n'') : n.Later n'' :=
  ⟨h'.fixed.trans h.fixed, h'.iBlocks ∘ h.iBlocks⟩

/-- Only the root of the tree changed. -/
theorem of_root (h : n' = { n with iBlock := n'.iBlock }) : n.Later n' := by
  rw [h]
  exact ⟨rfl, id⟩

theorem iSize (h : n.Later n') : n'.iSize = n.iSize := (congrArg Inode.iSize h.fixed).trans rfl

theorem iMode (h : n.Later n') : n'.iMode = n.iMode := (congrArg Inode.iMode h.fixed).trans rfl

theorem iFlags (h : n.Later n') : n'.iFlags = n.iFlags := (congrArg Inode.iFlags h.fixed).trans rfl

end Inode.Later

namespace FsInode

variable {V : Volume} {U : Set ℕ} {s s' : FsInode} {d m lo x : ℕ} {t : ExtTree d} {node : PathNode}
  {ex : Extent} {fresh : List ℕ}

/-! ### The condition on an insertion -/

/-- In a leaf whose extents come before the new one it goes to the end. -/
theorem insertPos_last {l : List Extent} (h : Node.IsNode Node.extentView 0 m l node.eh)
    (hl : ∀ e ∈ l, e.eeBlock ≤ x) : Node.insertPos node.eh x (Node.entries node.eh) = Node.entries node.eh := by
  have hkey : ∀ b i, Extent.eeBlock (Node.extentView.get b i) = Node.keyAt b i := fun _ _ ↦ rfl
  rw [← List.append_nil l] at h
  have hpos := h.insertPos hkey hl (List.forall_mem_nil _)
  rw [h.header.entries, hpos, List.append_nil]

theorem extents_eq {l : List Extent} (h : Node.IsNode Node.extentView 0 m l node.eh) :
    Node.extents node.eh = l := by
  have hlist := h.list
  rw [← h.header.entries] at hlist
  exact hlist

/-! ### Insertions that fail -/

/-- Storing what is there. -/
theorem Changed.putSame {b : ℕ} (h : Changed V U ∅ fresh s s') (hb : IsData V b) {eh : Buf}
    (hsame : s'.fs.block b = eh) : Changed V U ∅ fresh s (s'.put b eh) := by
  rw [put, if_neg hb.1]
  exact { h with
    mounted := mounted_put h.mounted eh hb
    block := fun c hc hf hB ↦ by
      rw [← h.block c hc hf hB]
      by_cases hcb : c = b
      · subst hcb
        rw [Fs.block_put_self, ← hsame, Fs.clip_block]
      · exact s'.fs.block_put_of_ne eh hcb }

/-- Where the left part of a node is the node itself, only the right part is new. -/
theorem storeHalves_same {right : Buf} (h : V.Mounted U s.fs)
    (hb : node.blocknr = 0 ∨ IsData V node.blocknr ∧ node.blocknr ∈ U) (hcont : s.contents node.blocknr = node.eh) :
    wp (storeHalves V.blocks node node.eh right) (fun _ s' ↦ ∃ fresh, Changed V U ∅ fresh s s') s := by
  have hb' : node.blocknr = 0 ∨ IsData V node.blocknr := hb.imp_right And.left
  unfold storeHalves
  by_cases hmalloc : s.fs.blockSize ≤ blockSizeDefault ∧ 0 < s.fs.extPool
  swap
  · exact wp_bind_of_eq_none (extMalloc_eq_none hmalloc) ⟨[], Changed.refl h⟩
  set s₁ := s.setPool (s.fs.extPool - 1) with hs₁
  have h₁ : V.Mounted U s₁.fs := mounted_setPool h _
  have hset : setNode node node.eh s₁ = (some { node with eh := node.eh }, s₁) := by
    rw [setNode_eq]
    refine Prod.ext rfl ?_
    by_cases h0 : node.blocknr = 0
    · rw [contents, if_pos h0] at hcont
      show (if node.blocknr = 0 then s₁.put node.blocknr node.eh else s₁) = s₁
      rw [if_pos h0, h0, put, if_pos rfl, ← hcont]
      rfl
    · exact if_neg h0
  refine wp_bind_of_eq_some (extMalloc_eq hmalloc.1 hmalloc.2) (wp_bind_of_eq_some hset ?_)
  -- from here on the buffer of the right part is freed on every way out
  refine wp_orFree (wp_seq (newNodeBlock_spec h₁) (fun s₂ hnone ↦ ?_) fun b s₂ hsome ↦ ?_)
  · rcases hnone with ⟨-, hchanged⟩ | ⟨_, hr, -⟩
    · exact ⟨[], hchanged.freed hmalloc.2⟩
    · cases hr
  rcases hsome with ⟨hr, -⟩ | ⟨_, hr, -, hchanged⟩
  · cases hr
  obtain rfl := Option.some.inj hr
  have hnew := hchanged.isNew b (List.mem_singleton_self b)
  refine wp_bind_of_eq_some (writePathNode_eq hchanged.mounted hb') ?_
  have h₂ : Changed V U ∅ [b] s₁ (if node.blocknr = 0 then s₂ else s₂.put node.blocknr node.eh) := by
    split
    · exact hchanged
    · next h0 =>
      obtain ⟨hdata, hU⟩ := hb.resolve_left h0
      refine hchanged.putSame hdata ?_
      rw [contents, if_neg h0] at hcont
      rw [← hcont]
      exact hchanged.block _ (not_allocMeta_of_isData hdata) (fun hmem ↦ (hchanged.isNew _ hmem).1 hU)
        fun hmem ↦ absurd hmem (Set.notMem_empty _)
  refine wp_bind_of_eq_some (writeBlock_eq h₂.mounted hnew.2 right) (wp_bind_of_eq_some (extFree_eq 1) ?_)
  exact ⟨[b], (h₂.putFresh (List.mem_singleton_self b) right).freed hmalloc.2⟩

/-- What an insertion at the end of a packed tree leaves, but where it has put an entry into a node that
had room: the nodes as they were. A sibling that was made is under the key `x`. -/
def KeepsNodes (V : Volume) (U : Set ℕ) (x : ℕ) (s : FsInode) (r : Option (Option (ℕ × ℕ))) (s' : FsInode) : Prop :=
  (r ≠ some none → ∃ fresh, Changed V U ∅ fresh s s') ∧ ∀ b k, r = some (some (b, k)) → k = x

/-- A failure that wrote nothing. -/
theorem KeepsNodes.none (h : Changed V U ∅ fresh s s') : KeepsNodes V U x s none s' :=
  ⟨fun _ ↦ ⟨fresh, h⟩, fun _ _ hr ↦ by cases hr⟩

/-- A tree that did not grow. -/
theorem KeepsNodes.stays {r : Option (Option (ℕ × ℕ))} (hr : r = some .none) : KeepsNodes V U x s r s' := by
  subst hr
  exact ⟨fun hne ↦ absurd rfl hne, fun _ _ hr ↦ by cases hr⟩

/-- A new entry behind those of an index node. -/
theorem addIndex_keeps {l : List ExtentIdx} (h : V.Mounted U s.fs)
    (hb : node.blocknr = 0 ∨ IsData V node.blocknr ∧ node.blocknr ∈ U) (hcont : s.contents node.blocknr = node.eh)
    (hnode : Node.IsNode Node.idxView d m l node.eh) (hl : ∀ a ∈ l, a.eiBlock ≤ x) (rightBlk : ℕ) :
    wp (ext4ExtentsAddIndex V.blocks [node] rightBlk x) (KeepsNodes V U x s) s := by
  have hkey : ∀ b i, ExtentIdx.eiBlock (Node.idxView.get b i) = Node.keyAt b i := fun _ _ ↦ rfl
  have hpos : Node.insertPos node.eh x (Node.entries node.eh) = Node.entries node.eh := by
    rw [← List.append_nil l] at hnode
    have hpos := hnode.insertPos hkey hl (List.forall_mem_nil _)
    rw [hnode.header.entries, hpos, List.append_nil]
  unfold ext4ExtentsAddIndex
  rw [wp_bind, wp_get, andThen_some]
  dsimp only
  split
  · refine wp_bind_of_eq_some (setNode_eq _ _) (wp_bind_of_eq_some
      (writePathNode_setNode _ h (hb.imp_right And.left)) ?_)
    exact .stays rfl
  by_cases hguard : 0 < Node.entries node.eh ∧ Node.entries node.eh = Node.max node.eh
  swap
  · rw [guard_false hguard, fail_bind]
    exact .none (Changed.refl h)
  rw [guard_true hguard, pure_bind', hpos, splitIndexAt, Node.cutAt, if_pos rfl]
  refine wp_seq (storeHalves_same h hb hcont) ?_ ?_
  · rintro s₁ ⟨fresh, hchanged⟩
    exact .none hchanged
  · rintro b s₁ ⟨fresh, hchanged⟩
    exact ⟨fun _ ↦ ⟨fresh, hchanged⟩, fun b' k hr ↦ (congrArg Prod.snd (Option.some.inj (Option.some.inj hr))).symm⟩

/-- A new extent behind those of a leaf. -/
theorem insertLeaf_keeps {l : List Extent} (h : V.Mounted U s.fs)
    (hb : node.blocknr = 0 ∨ IsData V node.blocknr ∧ node.blocknr ∈ U) (hcont : s.contents node.blocknr = node.eh)
    (hnode : Node.IsNode Node.extentView 0 m l node.eh) (hl : ∀ e ∈ l, e.eeBlock ≤ ex.eeBlock) :
    wp (insertAlong V.blocks ex [node]) (KeepsNodes V U ex.eeBlock s) s := by
  have hleaf := insertAtLeaf_eq ex h (hb.imp_right And.left)
  unfold insertAlong
  rcases hins : ext4ExtentsInsert node.eh ex with ⟨_ | _, eh⟩
  swap
  · rw [hins] at hleaf
    exact wp_bind_of_eq_some hleaf (.stays rfl)
  rw [hins] at hleaf
  refine wp_bind_of_eq_some hleaf ?_
  simp only [Bool.false_eq_true, if_false]
  by_cases hroom : ¬ Node.entries node.eh < Node.max node.eh
  swap
  · rw [guard_false hroom, fail_bind]
    exact .none (Changed.refl h)
  rw [guard_true hroom, pure_bind']
  have hsplit : wp (ext4ExtentsSplitLeaf node V.blocks ex)
      (fun r s' ↦ (∃ fresh, Changed V U ∅ fresh s s') ∧ ∀ p, r = some p → p.2 = ex.eeBlock) s := by
    unfold ext4ExtentsSplitLeaf
    rw [wp_bind, wp_get, andThen_some]
    dsimp only
    by_cases hguard : 0 < Node.entries node.eh ∧ Node.entries node.eh = Node.max node.eh
    swap
    · rw [guard_false hguard, fail_bind]
      exact ⟨⟨[], Changed.refl h⟩, fun _ hr ↦ by cases hr⟩
    -- the entry is behind all others, so the cut is at the end and the left part is the whole node
    rw [guard_true hguard, pure_bind', insertPos_last hnode hl, splitLeafAt, Node.cutAt, if_pos rfl]
    refine wp_seq (storeHalves_same h hb hcont) ?_ ?_
    · exact fun s₁ hchanged ↦ ⟨hchanged, fun _ hr ↦ by cases hr⟩
    · exact fun b s₁ hchanged ↦ ⟨hchanged, fun p hp ↦ congrArg Prod.snd (Option.some.inj hp).symm⟩
  refine wp_seq hsplit ?_ ?_
  · rintro s₁ ⟨⟨fresh, hchanged⟩, -⟩
    exact .none hchanged
  · rintro p s₁ ⟨⟨fresh, hchanged⟩, hkey⟩
    refine ⟨fun _ ↦ ⟨fresh, hchanged⟩, fun b k hr ↦ ?_⟩
    have hp : p.2 = k := congrArg Prod.snd (Option.some.inj (Option.some.inj hr))
    rw [← hp, hkey p rfl]

/-- The path to the last leaf of a packed tree. -/
theorem Packed.path {first k H : ℕ} {rd : ℕ → Buf} {t : ExtTree (d + 1)} (h : t.Packed lo x)
    (ht : t.Ordered first k H) : ∃ pre c, t = pre ++ [c] ∧ entryKey c < x ∧ c.2.Packed (entryKey c) x ∧
      locate entryKey x t = some c ∧
      t.path rd x node = c.2.path rd x ⟨rd c.1.eiLeaf, c.1.eiLeaf⟩ ++ [node] := by
  obtain ⟨pre, c, post, rfl, hfocus⟩ := exists_focus entryKey x ht.ne_nil
  have hloc := hfocus.locate ht.sorted
  obtain rfl := ExtTree.Packed.focus_last h hfocus
  obtain ⟨lo', hi', -, hkey, hlt, hc, hend⟩ := ExtTree.Packed.split h
  obtain rfl : hi' = x := hend
  refine ⟨pre, c, rfl, by rwa [hkey], by rwa [hkey], hloc, ?_⟩
  rw [ExtTree.path, hloc]

/-- **An insertion at the end of a packed tree goes right.** -/
theorem packed_pathSafe {first k H cap : ℕ} {rd : ℕ → Buf} {up : List PathNode} (bs : ℕ)
    (hholds : t.Holds rd cap m node.eh) (h : t.Packed lo ex.eeBlock) (ht : t.Ordered first k H)
    (hup : ∀ parent ∈ up.head?, (chosenIdx ex.eeBlock parent.eh).eiBlock ≤ ex.eeBlock) :
    PathSafe bs ex (t.path rd ex.eeBlock node ++ up) := by
  induction d generalizing node m lo first k H up with
  | zero =>
    have hnode := hholds.1
    have hlt : ∀ e ∈ t, e.eeBlock < ex.eeBlock := fun e he ↦ ExtTree.Packed.block_lt h he
    show PathSafe bs ex (node :: up)
    rcases hins : ext4ExtentsInsert node.eh ex with ⟨_ | _, eh⟩
    · rw [pathSafe_of_false hins]
      have hkey : splitKey bs ex node.eh = ex.eeBlock := by
        rw [splitKey, insertPos_last hnode fun e he ↦ (hlt e he).le, splitLeafAt, Node.cutAt, if_pos rfl]
      rwa [hkey]
    · rw [pathSafe_of_true hins, extents_eq hnode]
      exact fun e he hgt ↦ absurd (hlt e he) hgt.asymm
  | succ d ih =>
    obtain ⟨pre, c, rfl, hkey, hc, hloc, hpath⟩ := @Packed.path d lo ex.eeBlock node first k H rd t h ht
    rw [hpath, List.append_assoc]
    refine ih (hholds.2.2 c (by simp)) hc ht.2.focus.2.2 fun parent hparent ↦ ?_
    obtain rfl : node = parent := Option.some.inj hparent
    rw [chosenIdx_eq hholds.1 ht.sorted hloc]
    exact hkey.le

/-- **An insertion at the end of a packed tree that fails changes no node.** -/
theorem insertAlong_keeps {first k H cap : ℕ} (h : V.Mounted U s.fs)
    (hb : node.blocknr = 0 ∨ IsData V node.blocknr ∧ node.blocknr ∈ U) (hcont : s.contents node.blocknr = node.eh)
    (hholds : t.Holds s.fs.block cap m node.eh) (ht : t.Packed lo ex.eeBlock) (hord : t.Ordered first k H)
    (hused : ∀ b ∈ t.nodes, IsData V b ∧ b ∈ U) :
    wp (insertAlong V.blocks ex (t.path s.fs.block ex.eeBlock node)) (KeepsNodes V U ex.eeBlock s) s := by
  induction d generalizing node m lo first k H with
  | zero => exact insertLeaf_keeps h hb hcont hholds.1 fun e he ↦ (ExtTree.Packed.block_lt ht he).le
  | succ d ih =>
    obtain ⟨pre, c, rfl, hkey, hc, hloc, hpath⟩ := @Packed.path d lo ex.eeBlock node first k H s.fs.block t ht hord
    have hsub : ∀ b ∈ c.2.nodes ++ [c.1.eiLeaf], IsData V b ∧ b ∈ U := fun b hmem ↦
      hused b (List.mem_flatMap.2 ⟨c, by simp, hmem⟩)
    have hleaf := hsub c.1.eiLeaf (by simp)
    have hcontc : s.contents c.1.eiLeaf = s.fs.block c.1.eiLeaf := if_neg hleaf.1.1
    rw [hpath, insertAlong_append _ _ path_ne_nil]
    refine wp_seq (@ih cap (entryKey c) c.2 ⟨s.fs.block c.1.eiLeaf, c.1.eiLeaf⟩ _ _ _ (.inr hleaf) hcontc
      (hholds.2.2 c (by simp)) hc hord.2.focus.2.2 fun b hmem ↦ hsub b (List.mem_append_left _ hmem)) ?_ ?_
    · rintro s₁ ⟨hkeep, -⟩
      exact ⟨fun _ ↦ hkeep (by simp), fun _ _ hr ↦ by cases hr⟩
    rintro (_ | ⟨b, key⟩) s₁ ⟨hkeep, hkeys⟩
    · exact .stays rfl
    obtain ⟨fresh, h₁⟩ := hkeep (by simp)
    obtain rfl := hkeys b key rfl
    have hcont₁ : s₁.contents node.blocknr = node.eh :=
      (h₁.contents (hb.imp_right And.symm) (Set.notMem_empty _)).trans hcont
    have hle : ∀ a ∈ (pre ++ [c]).map Prod.fst, a.eiBlock ≤ ex.eeBlock := fun a ha ↦ by
      obtain ⟨e, he, rfl⟩ := List.mem_map.1 ha
      exact (ExtTree.Packed.key_lt ht he).le
    refine wp_mono (addIndex_keeps h₁.mounted (hb.imp_right fun hd ↦ ⟨hd.1, .inl hd.2⟩) hcont₁ hholds.1 hle b) ?_
    rintro r s₂ ⟨hkeep₂, hkeys₂⟩
    refine ⟨fun hne ↦ ?_, hkeys₂⟩
    obtain ⟨fresh', h₂⟩ := hkeep₂ hne
    exact ⟨_, (h₁.trans h₂).mono (by simp)⟩

/-- A root that is not moved stays as it is. -/
theorem growIndepth_keeps (h : V.Mounted U s.fs) (rightBlk key : ℕ) :
    wp (ext4ExtentsGrowIndepth V.blocks rightBlk key)
      (fun r s' ↦ r = none → ∃ fresh, Changed V U ∅ fresh s s') s := by
  unfold ext4ExtentsGrowIndepth
  rw [wp_bind, wp_get, andThen_some]
  dsimp only
  by_cases hdepth : Node.depth s.inode.iBlock < ext4ExtMaxDepth
  swap
  · rw [guard_false hdepth, fail_bind]
    exact fun _ ↦ ⟨[], Changed.refl h⟩
  by_cases hentries : Node.entries s.inode.iBlock ≠ 0
  swap
  · rw [guard_true hdepth, pure_bind', guard_false hentries, fail_bind]
    exact fun _ ↦ ⟨[], Changed.refl h⟩
  rw [guard_true hdepth, pure_bind', guard_true hentries, pure_bind']
  refine wp_seq (newNodeBlock_spec h) (fun s₁ hnone ↦ ?_) fun old s₁ hsome ↦ ?_
  · rcases hnone with ⟨-, hchanged⟩ | ⟨_, hr, -⟩
    · exact fun _ ↦ ⟨[], hchanged⟩
    · cases hr
  rcases hsome with ⟨hr, -⟩ | ⟨_, hr, -, h₁⟩
  · cases hr
  obtain rfl := Option.some.inj hr
  by_cases hmalloc : s₁.fs.blockSize ≤ blockSizeDefault ∧ 0 < s₁.fs.extPool
  swap
  · exact wp_bind_of_eq_none (extMalloc_eq_none hmalloc) fun _ ↦ ⟨[old], h₁⟩
  have hnew := h₁.isNew old (List.mem_singleton_self old)
  refine wp_bind_of_eq_some (extMalloc_eq hmalloc.1 hmalloc.2) (wp_bind_of_eq_some
    (orFree_of_eq_some (writeBlock_eq (mounted_setPool h₁.mounted (s₁.fs.extPool - 1)) hnew.2 _)) ?_)
  exact fun hnone ↦ by cases hnone

/-- **Appending an extent writes the last node of each level only.** -/
theorem insertAndGrow_keeps {first k H cap : ℕ} (h : V.Mounted U s.fs)
    (hholds : t.Holds s.fs.block cap m s.inode.iBlock) (ht : t.Packed lo ex.eeBlock) (hord : t.Ordered first k H)
    (hused : ∀ b ∈ t.nodes, IsData V b ∧ b ∈ U) :
    wp (insertAndGrow V.blocks ex (t.path s.fs.block ex.eeBlock s.rootNode))
      (fun r s' ↦ r = none → ∃ fresh, Changed V U ∅ fresh s s') s := by
  unfold insertAndGrow
  have halong : wp (insertAlong V.blocks ex (t.path s.fs.block ex.eeBlock s.rootNode))
      (KeepsNodes V U ex.eeBlock s) s :=
    insertAlong_keeps h (.inl rfl) rfl hholds ht hord hused
  refine wp_seq halong ?_ ?_
  · exact fun s₁ hkeep _ ↦ hkeep.1 (by simp)
  rintro (_ | ⟨b, key⟩) s₁ ⟨hkeep, -⟩
  · exact fun hr ↦ by cases hr
  obtain ⟨fresh, h₁⟩ := hkeep (by simp)
  refine wp_mono (growIndepth_keeps h₁.mounted b key) fun r s₂ hgrow hr ↦ ?_
  obtain ⟨fresh', h₂⟩ := hgrow hr
  exact ⟨_, (h₁.trans h₂).mono (by simp)⟩

/-! ### The next block of a file -/

/-- From `s` to `s'` the tree `t` became `t'`, which maps the blocks below `k`, and the marks `U` became `U'`. -/
structure Grew (V : Volume) (U U' : Set ℕ) (s s' : FsInode) {d d' : ℕ} (t : ExtTree d) (t' : ExtTree d') (k : ℕ) :
    Prop where
  marks : U ⊆ U'
  tree : Tree V U' s' t'
  packed : t'.Packed 0 k
  old : ∀ y b, t.Maps y b → t'.Maps y b
  isNew : ∀ b ∈ t'.blocks, b ∈ t.blocks ∨ b ∉ U
  block : ∀ b ∈ U, ¬ V.AllocMeta b → b ∉ t.nodes → s'.fs.block b = s.fs.block b
  later : s.inode.Later s'.inode

/-- What `ext4_extents_get_block(inode, x, 1, ..)` leaves where `x` is the first block that is not mapped. -/
def Appends (V : Volume) (U : Set ℕ) (x : ℕ) (s : FsInode) (t : ExtTree d) : Option (ℕ × Bool) → FsInode → Prop
  | none, s' => ∃ U', Grew V U U' s s' t t x
  | some r, s' => ∃ U' d' k, ∃ t' : ExtTree d', x < k ∧ r.2 = true ∧ t'.Maps x r.1 ∧ Grew V U U' s s' t t' k

/-- Without a run for the block the call leaves what the allocator left. -/
theorem Tree.getBlock_of_noExtent {s₂ : FsInode} (h : Tree V U s t) (hfree : ∀ b, ¬ t.Maps x b)
    (halloc : ext4ExtentsAllocNewExtent x V.blocks (s.withPath d) = (none, s₂)) :
    ext4ExtentsGetBlock x true s = (none, s₂.setPool (s₂.fs.extPool + d)) := by
  have hget := (h.getBlock x true).resolve_left fun ⟨b, hb, _⟩ ↦ hfree b hb
  have hmapped : ext4ExtentsInsertMappedBlock (t.path s.fs.block x s.rootNode) x V.blocks (s.withPath d) =
      (none, s₂) := by
    rw [insertMapped_eq, bind_of_eq_none halloc]
  have hins := insertAndFreePath_eq (mounted_setPool h.mounted _) hmapped
  rw [length_path h, Nat.add_sub_cancel] at hins
  rw [hget.2, if_pos rfl, hins]
  rfl

/-- A tree is still there when its nodes are. -/
theorem Tree.of_same {U' : Set ℕ} (h : Tree V U s t) (hU : U ⊆ U') (hmounted : V.Mounted U' s'.fs)
    (hpool : s'.fs.extPool = s.fs.extPool) (hlater : s.inode.Later s'.inode)
    (hroot : s'.inode.iBlock = s.inode.iBlock) (hblock : ∀ b ∈ t.nodes, s'.fs.block b = s.fs.block b) :
    Tree V U' s' t :=
  { h with
    mounted := hmounted
    kind := by rw [hlater.iMode]; exact h.kind
    pool := by rw [hpool]; exact h.pool
    holds := by rw [hroot]; exact h.holds.congr hblock
    used := fun b hb ↦ ⟨hU (h.used b hb).1, (h.used b hb).2⟩ }

/-- Where the blocks in use and the root are as they were, so is the tree. -/
theorem Grew.of_same {U' : Set ℕ} (h : Tree V U s t) (hp : t.Packed 0 x) (hU : U ⊆ U')
    (hmounted : V.Mounted U' s'.fs) (hpool : s'.fs.extPool = s.fs.extPool)
    (hlater : s.inode.Later s'.inode) (hroot : s'.inode.iBlock = s.inode.iBlock)
    (hblock : ∀ b ∈ U, ¬ V.AllocMeta b → s'.fs.block b = s.fs.block b) : Grew V U U' s s' t t x where
  marks := hU
  tree := h.of_same hU hmounted hpool hlater hroot fun b hb ↦
    hblock b (h.used b (nodes_subset b hb)).1 (not_allocMeta_of_isData (h.used b (nodes_subset b hb)).2)
  packed := hp
  old _ _ hy := hy
  isNew _ hb := .inl hb
  block b hbU hb _ := hblock b hbU hb
  later := hlater

/-- **The block behind the last one is mapped, or nothing is.** Whether the call succeeds or fails, what was
mapped before is mapped as before. -/
theorem Tree.append (h : Tree V U s t) (hp : t.Packed 0 x) (hx : x + ext4ExtInitMaxLen < 2 ^ 32) :
    wp (ext4ExtentsGetBlock x true) (Appends V U x s t) s := by
  obtain ⟨first, hord⟩ := h.ordered
  have hpool := h.pool
  have hdepth := h.depth_le
  have hdata : ∀ b ∈ t.nodes, IsData V b ∧ b ∈ U := fun b hb ↦ (h.used b (nodes_subset b hb)).symm
  have hnodes : ∀ b ∈ t.nodes, ¬ V.AllocMeta b := fun b hb ↦ not_allocMeta_of_isData (hdata b hb).1
  have hfree : ∀ b, ¬ t.Maps x b := fun b hb ↦ absurd ((hp.maps_iff hord x).1 ⟨b, hb⟩).2 (lt_irrefl x)
  have halloc := allocNewExtent_spec (mounted_setPool h.mounted (s.fs.extPool - d)) x
  rcases hr : ext4ExtentsAllocNewExtent x V.blocks (s.withPath d) with ⟨_ | ex, s₂⟩
  · -- the allocator finds no run
    rw [wp_of_eq hr] at halloc
    obtain ⟨-, hno⟩ := halloc.resolve_right (by rintro ⟨_, ⟨⟩, -⟩)
    have hinode : s₂.inode = s.inode := hno.inode
    have hback : s₂.fs.extPool = s.fs.extPool - d := hno.frame.extPool
    rw [wp_of_eq (h.getBlock_of_noExtent hfree hr)]
    have hlater : s.inode.Later s₂.inode := by rw [hinode]; exact .refl _
    refine ⟨U, .of_same h hp subset_rfl (mounted_setPool hno.mounted _) ?_ hlater
      (congrArg Inode.iBlock hinode) fun b _ hb ↦ hno.frame.block b hb⟩
    show s₂.fs.extPool + d = s.fs.extPool
    omega
  rw [wp_of_eq hr] at halloc
  obtain ⟨_, heq, hnew⟩ := halloc.resolve_left (by rintro ⟨⟨⟩, -⟩)
  obtain rfl := Option.some.inj heq
  have hblk := hnew.eeBlock
  have hroot : s₂.inode.iBlock = s.inode.iBlock := (congrArg Inode.iBlock hnew.inode).trans rfl
  have hlater : s.inode.Later s₂.inode := ⟨(congrArg Inode.fixed hnew.inode).trans rfl, fun hlt ↦ by
    rw [hnew.iBlocks]
    split
    · exact u32_lt _
    · exact hlt⟩
  have hblock : ∀ b, ¬ V.AllocMeta b → s₂.fs.block b = s.fs.block b := hnew.frame.block
  have hback : s₂.fs.extPool = s.fs.extPool - d := hnew.frame.extPool
  -- the allocator has changed nothing of the tree
  have hholds : t.Holds s₂.fs.block (nodeCap V.bs) rootCap s₂.inode.iBlock := by
    rw [hroot]
    exact h.holds.congr fun b hb ↦ hblock b (hnodes b hb)
  have hpath : t.path s₂.fs.block ex.eeBlock s₂.rootNode = t.path s.fs.block x s.rootNode := by
    rw [path_congr fun b hb ↦ hblock b (hnodes b hb), hblk, rootNode, hroot]
  have hpacked : t.Packed 0 ex.eeBlock := by rwa [hblk]
  rcases hins : insertAndGrow V.blocks ex (t.path s.fs.block x s.rootNode) s₂ with ⟨_ | _, s₃⟩
  · -- there is no block for a new node
    have hkeeps := insertAndGrow_keeps hnew.mounted hholds hpacked hord fun b hb ↦
      ⟨(hdata b hb).1, .inl (hdata b hb).2⟩
    rw [hpath, wp_of_eq hins] at hkeeps
    obtain ⟨fresh, hchanged⟩ := hkeeps rfl
    have hback' : s₃.fs.extPool = s₂.fs.extPool := hchanged.pool
    rw [wp_of_eq (h.create_of_newExtent hfree hr hins)]
    refine ⟨_, .of_same h hp (fun b hb ↦ .inl (.inl hb)) (mounted_setPool hchanged.mounted _) ?_
      (hlater.trans (.of_root hchanged.inode))
      ((hchanged.iBlock (Set.notMem_empty 0)).trans hroot) fun b hbU hb ↦ ?_⟩
    · show s₃.fs.extPool + d = s.fs.extPool
      omega
    · exact (hchanged.block b hb (fun hmem ↦ (hchanged.isNew b hmem).1 (.inl hbU))
        fun hmem ↦ absurd hmem (Set.notMem_empty b)).trans (hblock b hb)
  · have hsafe := @packed_pathSafe d rootCap 0 t s.rootNode ex _ _ _ _ s.fs.block [] V.bs h.holds hpacked hord
      fun _ hmem ↦ by cases hmem
    rw [List.append_nil, hblk] at hsafe
    obtain ⟨fresh, d', t', hchanged, htree, hadds, hperm, hbecomes⟩ := h.created hx hfree hnew hsafe hins
    rw [wp_of_eq (h.create_of_newExtent hfree hr hins)]
    have hself := hadds.self
    rw [hblk] at hself
    refine ⟨_, d', ex.stop, t', ?_, rfl, hself, fun b hb ↦ .inl (.inl hb), htree,
      hbecomes.packed hpacked hnew.pos, hadds.old, fun b hb ↦ ?_, fun b hbU hb hnot ↦ ?_,
      hlater.trans (.of_root hchanged.inode)⟩
    · have hpos := hnew.pos
      rw [← hblk, Extent.stop]
      omega
    · -- the blocks of the new tree are old, of the new extent or of a new node
      rcases List.mem_append.1 (hperm.mem_iff.1 hb) with hb | hb
      · exact .inl hb
      rcases List.mem_append.1 hb with hb | hb
      · exact .inr (hnew.isNew b hb).1
      · exact .inr fun hU ↦ (hchanged.isNew b hb).1 (.inl hU)
    · refine (hchanged.block b hb (fun hmem ↦ (hchanged.isNew b hmem).1 (.inl hbU)) ?_).trans (hblock b hb)
      rintro (h0 | hmem)
      · exact h0
      · exact absurd hmem hnot

end FsInode

end MiniExt4
