import Mathlib.Data.List.Basic
import Mathlib.Order.Lattice

/-!
# Lists that fill a range

The elements of a list follow one another from `lo` to `hi`: each has a range that begins where that of the
one before it ends, and none is empty. `P lo hi a` says that `a` has the range from `lo` to `hi`, so that
the elements may themselves be made of parts that fill their ranges.

An extent tree whose extents leave no hole is such a list at every level: the extents of a leaf, and the
subtrees of a node, each of which fills the range from its key on. `append_iff` cuts a list in two at a
number where both halves meet, and `exists_mem_iff` says which element has a given number of the range.
-/

variable {α ι : Type*} [Preorder ι]

/-- The list fills the range from `lo` to `hi`. -/
def Chained (P : ι → ι → α → Prop) (hi : ι) : ι → List α → Prop
  | lo, [] => lo = hi
  | lo, a :: l => ∃ mid, lo < mid ∧ P lo mid a ∧ Chained P hi mid l

namespace Chained

variable {P Q : ι → ι → α → Prop} {lo mid hi : ι} {a : α} {l A B : List α}

/-- A single element fills a range. -/
theorem singleton_iff : Chained P hi lo [a] ↔ lo < hi ∧ P lo hi a := by
  constructor
  · rintro ⟨mid, hlt, ha, rfl⟩
    exact ⟨hlt, ha⟩
  · exact fun ⟨hlt, ha⟩ ↦ ⟨hi, hlt, ha, rfl⟩

/-- Two lists fill what is before and what is after a point. -/
theorem append_iff : Chained P hi lo (A ++ B) ↔ ∃ mid, Chained P mid lo A ∧ Chained P hi mid B := by
  induction A generalizing lo with
  | nil => exact ⟨fun h ↦ ⟨lo, rfl, h⟩, fun ⟨_, hmid, h⟩ ↦ hmid ▸ h⟩
  | cons a A ih =>
    constructor
    · rintro ⟨m, hlt, ha, h⟩
      obtain ⟨mid, hA, hB⟩ := ih.1 h
      exact ⟨mid, ⟨m, hlt, ha, hA⟩, hB⟩
    · rintro ⟨mid, ⟨m, hlt, ha, hA⟩, hB⟩
      exact ⟨m, hlt, ha, ih.2 ⟨mid, hA, hB⟩⟩

/-- A list up to a point and a list from there on fill the whole. -/
theorem append (hA : Chained P mid lo A) (hB : Chained P hi mid B) : Chained P hi lo (A ++ B) :=
  append_iff.2 ⟨mid, hA, hB⟩

/-- A range that is filled does not end before it begins. -/
theorem le (h : Chained P hi lo l) : lo ≤ hi := by
  induction l generalizing lo with
  | nil => exact le_of_eq h
  | cons a l ih =>
    obtain ⟨mid, hlt, -, hrest⟩ := h
    exact hlt.le.trans (ih hrest)

/-- The range of an element is inside that of the list. -/
theorem of_mem (h : Chained P hi lo l) (ha : a ∈ l) : ∃ lo' hi', lo ≤ lo' ∧ lo' < hi' ∧ hi' ≤ hi ∧ P lo' hi' a := by
  obtain ⟨A, B, rfl⟩ := List.append_of_mem ha
  obtain ⟨lo', hA, hi', hlt, ha, hB⟩ := append_iff.1 h
  exact ⟨lo', hi', hA.le, hlt, hB.le, ha⟩

/-- A point is in the range of an element exactly if it is in that of the list. -/
theorem exists_mem_iff {ι : Type*} [LinearOrder ι] {P : ι → ι → α → Prop} {lo hi x : ι} {R : α → Prop}
    (hR : ∀ lo hi a, P lo hi a → (R a ↔ lo ≤ x ∧ x < hi)) (h : Chained P hi lo l) :
    (∃ a ∈ l, R a) ↔ lo ≤ x ∧ x < hi := by
  induction l generalizing lo with
  | nil =>
    obtain rfl : lo = hi := h
    exact iff_of_false (fun ⟨_, ha, _⟩ ↦ List.not_mem_nil ha) fun ⟨hle, hlt⟩ ↦ hle.not_gt hlt
  | cons a l ih =>
    obtain ⟨mid, hlt, ha, hrest⟩ := h
    rw [List.exists_mem_cons_iff, hR _ _ _ ha, ih hrest]
    constructor
    · rintro (⟨hle, hx⟩ | ⟨hle, hx⟩)
      · exact ⟨hle, hx.trans_le hrest.le⟩
      · exact ⟨hlt.le.trans hle, hx⟩
    · rintro ⟨hle, hx⟩
      exact (lt_or_ge x mid).imp (fun hm ↦ ⟨hle, hm⟩) fun hm ↦ ⟨hm, hx⟩

/-- The first element begins where the list does. -/
theorem head_key {key : α → ι} (hkey : ∀ lo hi a, P lo hi a → key a = lo) (h : Chained P hi lo (a :: l)) :
    key a = lo := by
  obtain ⟨_, -, ha, -⟩ := h
  exact hkey _ _ _ ha

end Chained
