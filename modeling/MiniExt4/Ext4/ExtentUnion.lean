import MiniExt4.Ext4.ExtentsSpec

/-!
# Insertion into a leaf as union of maps (`ext4_extents_insert`)

A leaf of extents is a partial map from logical to physical blocks, the one `ext4_extents_find` realises.
Whatever way an extent is taken in, merged with either neighbour, with both, or entered between them, the
map afterwards is the map before with the blocks of the extent added.

The statement is about the map that the code realises, not about lists of extents: `ext4_extents_find` on
the buffer afterwards. A union of maps does not show how the extents were joined, so one lemma for lists is
enough for the four ways (`Joined`). That nothing changes where the call returns -1 is part of the theorem,
about the buffer that it leaves.
-/

namespace MiniExt4

open Node (extentView)
open FsInode (ext4ExtentsLookupMapped exists_parts)

namespace Extent

/-- A length from 1 to 0x7fff, and ends below 2^32. -/
structure Ok (e : Extent) : Prop where
  pos : 0 < e.eeLen
  le : e.eeLen ≤ ext4ExtInitMaxLen
  stop : e.stop < 2 ^ 32
  physStop : e.eeStart + e.eeLen < 2 ^ 32

/-- The extents have no logical block in common. -/
def Apart (a b : Extent) : Prop := a.stop ≤ b.eeBlock ∨ b.stop ≤ a.eeBlock

theorem Ok.fits {e : Extent} (h : e.Ok) : extentView.Fits e := by
  have hle : e.eeLen ≤ 0x7fff := h.le
  have hstop := h.stop
  have hphys := h.physStop
  rw [Extent.stop] at hstop
  exact ⟨by omega, by omega, by omega⟩

theorem Ok.join {a b : Extent} (ha : a.Ok) (hb : b.Ok) (h : a.Joins b) : (a.join b).Ok := by
  refine ⟨Nat.add_pos_left ha.pos _, h.2.2, by rw [h.stop_join]; exact hb.stop, ?_⟩
  change a.eeStart + (a.eeLen + b.eeLen) < 2 ^ 32
  rw [← Nat.add_assoc, h.2.1]
  exact hb.physStop

end Extent

/-- Joining neighbours keeps the bounds. -/
theorem Joined.ok {t t' : List Extent} (h : Joined t t') (hok : ∀ e ∈ t, e.Ok) : ∀ e ∈ t', e.Ok := by
  induction h with
  | refl => exact hok
  | tail _ hstep ih =>
    obtain ⟨l, r, hjoins⟩ := hstep
    intro e he
    rcases List.mem_append.1 he with he | he
    · exact ih e (by simp [he])
    rcases List.mem_cons.1 he with rfl | he
    · exact (ih _ (by simp)).join (ih _ (by simp)) hjoins
    · exact ih e (by simp [he])

/-- A leaf whose extents are sorted and disjoint, and within their bounds. -/
structure LeafNode (eh : Buf) : Prop where
  magic : Node.magic eh = ext4ExtMagic
  depth : Node.depth eh = 0
  entries_le : Node.entries eh ≤ Node.max eh
  sorted : (Node.extents eh).Pairwise fun a b ↦ a.stop ≤ b.eeBlock
  ok : ∀ e ∈ Node.extents eh, e.Ok

namespace LeafNode

variable {eh : Buf} {ex : Extent} {l r : List Extent}

theorem length_extents (eh : Buf) : (Node.extents eh).length = Node.entries eh := by simp [Node.extents]

theorem isNode (h : LeafNode eh) : Node.IsNode extentView 0 (Node.max eh) (Node.extents eh) eh :=
  ⟨⟨h.magic, h.depth, rfl, (length_extents eh).symm⟩, by rw [length_extents]; rfl⟩

theorem of_isNode {m : ℕ} {t : List Extent} (h : Node.IsNode extentView 0 m t eh) (hlen : t.length ≤ m)
    (hsorted : t.Pairwise fun a b ↦ a.stop ≤ b.eeBlock) (hok : ∀ e ∈ t, e.Ok) :
    LeafNode eh ∧ Node.max eh = m ∧ Node.extents eh = t := by
  have hextents : Node.extents eh = t := by
    have hlist := h.list
    rw [← h.header.entries] at hlist
    exact hlist
  refine ⟨⟨h.header.magic, h.header.depth, ?_, hextents ▸ hsorted, hextents ▸ hok⟩, h.header.max, hextents⟩
  rw [h.header.entries, h.header.max]
  exact hlen

/-- What the lookup in a leaf finds is what its extents map. -/
theorem lookup_iff (h : LeafNode eh) {x b : ℕ} :
    ext4ExtentsLookupMapped eh x = some b ↔ ∃ e ∈ Node.extents eh, e.Maps x b := by
  have hfind := fun e ↦ @findExtent_eq_some_iff (Node.extents eh) x e h.sorted
    fun e he ↦ ⟨(h.ok e he).pos, (h.ok e he).stop⟩
  rw [ext4ExtentsLookupMapped, ext4ExtentsFind, if_neg (not_not.2 h.magic), Option.map_eq_some_iff]
  refine exists_congr fun e ↦ ?_
  rw [hfind e, and_assoc]
  refine and_congr_right fun he ↦ ?_
  have hphys := (h.ok e he).physStop
  have hval : x < e.stop → u32 (e.eeStart + (x - e.eeBlock)) = e.eeStart + (x - e.eeBlock) := by
    intro hlt
    rw [Extent.stop] at hlt
    exact u32_of_lt (by omega)
  rw [Extent.Maps, and_assoc]
  refine and_congr_right fun _ ↦ and_congr_right fun hlt ↦ ?_
  rw [hval hlt, eq_comm]

/-- The sides of the place for an extent that is apart from those of the leaf. -/
theorem exists_sides (h : LeafNode eh) (hex : ex.Ok) (hapart : ∀ e ∈ Node.extents eh, e.Apart ex) :
    ∃ l r, Node.extents eh = l ++ r ∧ (∀ e ∈ l, e.stop ≤ ex.eeBlock) ∧ ∀ e ∈ r, ex.stop ≤ e.eeBlock := by
  obtain ⟨l, r, hparts, hl, hr⟩ := exists_parts ex.eeBlock h.sorted
  have hpos := hex.pos
  refine ⟨l, r, hparts, fun e he ↦ ?_, fun e he ↦ ?_⟩
  · have hle := hl e he
    rcases hapart e (by simp [hparts, he]) with hbefore | hafter
    · exact hbefore
    · rw [Extent.stop] at hafter
      omega
  · have hlt := hr e he
    rcases hapart e (by simp [hparts, he]) with hbefore | hafter
    · rw [Extent.stop] at hbefore
      omega
    · exact hafter

/-- An extent is refused only if it does not continue the extent on its left, and is not continued by
the one on its right. -/
theorem joins_of_false (h : LeafNode eh) (hparts : Node.extents eh = l ++ r)
    (hl : ∀ e ∈ l, e.eeBlock ≤ ex.eeBlock) (hr : ∀ e ∈ r, ex.eeBlock < e.eeBlock)
    (hfail : (ext4ExtentsInsert eh ex).1 = false) :
    ¬(l.length > 0 ∧ ExtInsert.joinsLeft eh ex l.length) ∧
      ¬(l.length < Node.entries eh ∧ ExtInsert.joinsRight eh ex l.length) := by
  have hnode := h.isNode
  rw [hparts] at hnode
  have hpos := hnode.insertPos (fun _ _ ↦ rfl) hl hr
  rw [← hnode.header.entries] at hpos
  rw [ext4ExtentsInsert, if_neg (not_not.2 h.magic), if_neg (not_lt.2 h.entries_le)] at hfail
  simp only [hpos] at hfail
  split at hfail
  next => cases hfail
  next hleft =>
  split at hfail
  next => cases hfail
  next hright => exact ⟨hleft, hright⟩

/-- In a full leaf nothing that could be merged is refused. -/
theorem not_joins_of_false (h : LeafNode eh) (hex : ex.Ok) (hparts : Node.extents eh = l ++ r)
    (hl : ∀ e ∈ l, e.stop ≤ ex.eeBlock) (hr : ∀ e ∈ r, ex.stop ≤ e.eeBlock)
    (hfail : (ext4ExtentsInsert eh ex).1 = false) : ∀ e ∈ l ++ r, ¬e.Joins ex ∧ ¬ex.Joins e := by
  have hpos := hex.pos
  have hsorted := h.sorted
  have hnode := h.isNode
  have hok := h.ok
  rw [hparts] at hsorted hnode hok
  obtain ⟨hleft, hright⟩ := h.joins_of_false hparts (fun e he ↦ (Nat.le_add_right _ _).trans (hl e he))
    (fun e he ↦ by have hle := hr e he; rw [Extent.stop] at hle; omega) hfail
  rw [← length_extents, hparts] at hright
  obtain ⟨hsl, hsr, -⟩ := List.pairwise_append.1 hsorted
  intro e he
  constructor
  · -- it would have to be the last extent on the left
    intro hjoins
    have hstop : e.stop = ex.eeBlock := hjoins.1
    have hel : e ∈ l := by
      refine (List.mem_append.1 he).resolve_right fun her ↦ ?_
      have hle := hr e her
      rw [Extent.stop] at hle hstop
      omega
    obtain ⟨l', a, rfl⟩ := (List.eq_nil_or_concat' l).resolve_left (List.ne_nil_of_mem hel)
    have hea : e = a := by
      rcases List.mem_append.1 hel with hel' | hea
      · have hsep := (List.pairwise_append.1 hsl).2.2 e hel' a (by simp)
        have hstop' := hl a (by simp)
        have hapos := (hok a (by simp)).pos
        rw [Extent.stop] at hstop'
        omega
      · exact List.mem_singleton.1 hea
    subst hea
    refine hleft ⟨by simp, ?_⟩
    rw [List.append_assoc, List.singleton_append] at hnode
    have hlast : Node.extentAt eh l'.length = e := hnode.get_at
    simp only [ExtInsert.joinsLeft, List.length_append, List.length_singleton, Nat.add_sub_cancel, hlast]
    exact decide_eq_true ((ExtInsert.joins_iff (hok e he).stop).2 hjoins)
  · -- it would have to be the first extent on the right
    intro hjoins
    have hstop : ex.stop = e.eeBlock := hjoins.1
    have hepos := (hok e he).pos
    have her : e ∈ r := by
      refine (List.mem_append.1 he).resolve_left fun hel ↦ ?_
      have hle := hl e hel
      rw [Extent.stop] at hle hstop
      omega
    obtain ⟨b, r', rfl⟩ := List.exists_cons_of_ne_nil (List.ne_nil_of_mem her)
    have heb : e = b := by
      rcases List.mem_cons.1 her with heb | her'
      · exact heb
      · have hsep := (List.pairwise_cons.1 hsr).1 e her'
        have hle := hr b (by simp)
        have hbpos := (hok b (by simp)).pos
        rw [Extent.stop] at hsep
        omega
    subst heb
    refine hright ⟨by simp, ?_⟩
    have hfirst : Node.extentAt eh l.length = e := hnode.get_at
    simp only [ExtInsert.joinsRight, hfirst, Nat.add_comm e.eeLen]
    exact decide_eq_true ((ExtInsert.joins_iff hex.stop).2 hjoins)

end LeafNode

/-- **Insertion into a leaf is union of maps.** The leaf that an insertion leaves is a leaf, and its map is
the old one with the extent's; an insertion fails only in a full leaf with nothing to merge, and changes
nothing then. -/
theorem ext4ExtentsInsert_union {eh : Buf} {ex : Extent} (h : LeafNode eh) (hex : ex.Ok)
    (hapart : ∀ e ∈ Node.extents eh, e.Apart ex) :
    ((ext4ExtentsInsert eh ex).1 = true →
      LeafNode (ext4ExtentsInsert eh ex).2 ∧ Node.max (ext4ExtentsInsert eh ex).2 = Node.max eh ∧
      ∀ x, ext4ExtentsLookupMapped (ext4ExtentsInsert eh ex).2 x =
        if ex.eeBlock ≤ x ∧ x < ex.stop then some (ex.eeStart + (x - ex.eeBlock))
        else ext4ExtentsLookupMapped eh x) ∧
    ((ext4ExtentsInsert eh ex).1 = false →
      Node.entries eh = Node.max eh ∧ (∀ e ∈ Node.extents eh, ¬e.Joins ex ∧ ¬ex.Joins e) ∧
      (ext4ExtentsInsert eh ex).2 = eh) := by
  obtain ⟨l, r, hparts, hl, hr⟩ := h.exists_sides hex hapart
  have hpos := hex.pos
  have hnode := h.isNode
  have hok := h.ok
  have hlen : (l ++ r).length ≤ Node.max eh := by
    rw [← hparts, LeafNode.length_extents]
    exact h.entries_le
  rw [hparts] at hnode hok
  have hleaf : ExtTree.Leaf 0 (2 ^ 32) (l ++ r) := by
    refine ⟨hparts ▸ h.sorted, fun e he ↦ ⟨Nat.zero_le _, ?_⟩, fun e he ↦ ⟨(hok e he).pos, (hok e he).stop⟩⟩
    exact (Nat.le_add_right _ _).trans_lt (hok e he).stop
  have hgrown := hleaf.insert (Nat.zero_le _) ((Nat.le_add_right _ _).trans_lt hex.stop) hpos hex.stop hl hr
  have hmax : Node.max eh < 2 ^ 16 := eh.getField_lt 0 Eh.max
  have hspec := ext4ExtentsInsert_spec hnode hlen hmax
    (fun e he ↦ (Nat.le_add_right _ _).trans (hl e he))
    (fun e he ↦ by have hle := hr e he; rw [Extent.stop] at hle; omega) (fun e he ↦ (hok e he).stop)
    hex.fits hex.stop
  -- the call took the extent in, or found the leaf full
  refine ⟨fun hdone ↦ ?_, fun hfail ↦ ?_⟩
  · obtain ⟨t, eh', hinsert, hnode', hjoined, hlen'⟩ := hspec.resolve_right fun hc ↦ by
      rw [hc.1] at hdone
      cases hdone
    have hokt := hjoined.ok (t := l ++ ex :: r) fun e he ↦ by
      rcases List.mem_append.1 he with he | he
      · exact hok e (by simp [he])
      rcases List.mem_cons.1 he with rfl | he
      · exact hex
      · exact hok e (by simp [he])
    obtain ⟨hleaf', hmax', hextents⟩ := LeafNode.of_isNode hnode' hlen' (hgrown.joined hjoined).sorted hokt
    rw [hinsert]
    refine ⟨hleaf', hmax', fun x ↦ Option.ext fun b ↦ ?_⟩
    -- joining changes no mapping, so the extent could stand by itself
    have hmaps : (∃ e ∈ l ++ ex :: r, e.Maps x b) ↔ ex.Maps x b ∨ ∃ e ∈ l ++ r, e.Maps x b := by
      simp only [List.mem_append, List.mem_cons, or_and_right, exists_or, exists_eq_left]
      exact or_left_comm
    rw [hleaf'.lookup_iff, hextents, ExtTree.Joined.maps_iff hjoined, hmaps, ← hparts, ← h.lookup_iff]
    split
    next hin =>
      have hfree : ext4ExtentsLookupMapped eh x ≠ some b := by
        rw [Ne, h.lookup_iff]
        rintro ⟨e, he, hle, hlt, -⟩
        rcases hapart e he with hsep | hsep <;> omega
      rw [or_iff_left hfree, Option.some_inj, Extent.Maps, ← and_assoc, and_iff_right hin, eq_comm]
    next hout =>
      exact or_iff_right fun hc ↦ hout ⟨hc.1, hc.2.1⟩
  · obtain ⟨hsame, hfull⟩ := hspec.resolve_left fun hc ↦ by
      obtain ⟨_, _, hinsert, -⟩ := hc
      rw [hinsert] at hfail
      cases hfail
    refine ⟨?_, ?_, congrArg Prod.snd hsame⟩
    · rw [← LeafNode.length_extents, hparts, hfull]
    · rw [hparts]
      exact h.not_joins_of_false hex hparts hl hr hfail

/-- A root node with the extent of the blocks 10 to 14. -/
def oneExtent : Buf :=
  Node.setEntries (Node.setExtent (Node.ext4ExtentsInitNode Buf.zero 60 0) 0 ⟨10, 5, 100⟩) 1

theorem extents_oneExtent : Node.extents oneExtent = [⟨10, 5, 100⟩] := by decide +kernel

theorem ext4ExtentsInsert_union_one :
    ((ext4ExtentsInsert oneExtent ⟨15, 3, 105⟩).1 = true →
      LeafNode (ext4ExtentsInsert oneExtent ⟨15, 3, 105⟩).2 ∧
      Node.max (ext4ExtentsInsert oneExtent ⟨15, 3, 105⟩).2 = Node.max oneExtent ∧
      ∀ x, ext4ExtentsLookupMapped (ext4ExtentsInsert oneExtent ⟨15, 3, 105⟩).2 x =
        if 15 ≤ x ∧ x < 18 then some (105 + (x - 15)) else ext4ExtentsLookupMapped oneExtent x) ∧
    ((ext4ExtentsInsert oneExtent ⟨15, 3, 105⟩).1 = false →
      Node.entries oneExtent = Node.max oneExtent ∧
      (∀ e ∈ Node.extents oneExtent, ¬e.Joins ⟨15, 3, 105⟩ ∧ ¬Extent.Joins ⟨15, 3, 105⟩ e) ∧
      (ext4ExtentsInsert oneExtent ⟨15, 3, 105⟩).2 = oneExtent) := by
  have hok : ∀ e ∈ Node.extents oneExtent, e.Ok := by
    rw [extents_oneExtent, List.forall_mem_singleton]
    exact ⟨by decide, by decide, by decide, by decide⟩
  have hapart : ∀ e ∈ Node.extents oneExtent, e.Apart ⟨15, 3, 105⟩ := by
    rw [extents_oneExtent, List.forall_mem_singleton]
    exact Or.inl (by decide)
  have hsorted : (Node.extents oneExtent).Pairwise fun a b ↦ a.stop ≤ b.eeBlock := by
    rw [extents_oneExtent]
    exact List.pairwise_singleton _ _
  exact ext4ExtentsInsert_union
    ⟨by decide +kernel, by decide +kernel, by decide +kernel, hsorted, hok⟩
    ⟨by decide, by decide, by decide, by decide⟩ hapart

end MiniExt4
