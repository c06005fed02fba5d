import Mathlib

/-!
# Sorting by exchanging

`for (i = 0; i < n - 1; i++) for (j = i + 1; j < n; j++)`, where the elements at `i` and `j` are
exchanged if the key of the first is greater. A round puts an element with the least key in front.

That the list afterwards is the one before in another order (`sort_perm`) rests on each exchange being one,
and that it is sorted (`sort_sorted`) on what a round does: the element in front is no greater than any
behind it (`exchange_le`), and later rounds do not touch it. Equal keys may change their order; nothing here
needs more.
-/

namespace ExchangeSort

variable {α : Type*} {κ : Type*} [LinearOrder κ] (key : α → κ)

/-- A round, with `a` in front of the elements of the list: the element that is in front after it, and
the others. -/
def exchange (a : α) : List α → α × List α
  | [] => (a, [])
  | b :: l =>
    if key a > key b then ((exchange b l).1, a :: (exchange b l).2)
    else ((exchange a l).1, b :: (exchange a l).2)

/-- So many rounds. -/
def rounds : ℕ → List α → List α
  | 0, l => l
  | _ + 1, [] => []
  | n + 1, a :: l => (exchange key a l).1 :: rounds n (exchange key a l).2

/-- The sorted list. -/
def sort (l : List α) : List α := rounds key l.length l

variable {key} {a : α} {l : List α}

/-- A pass of exchanges only reorders. -/
theorem exchange_perm (a : α) (l : List α) : ((exchange key a l).1 :: (exchange key a l).2).Perm (a :: l) := by
  induction l generalizing a with
  | nil => rfl
  | cons b l ih =>
    unfold exchange
    split
    · exact (List.Perm.swap ..).trans ((ih b).cons a)
    · exact (List.Perm.swap ..).trans (((ih a).cons b).trans (List.Perm.swap ..))

/-- A pass keeps the number of elements. -/
theorem length_exchange (a : α) (l : List α) : (exchange key a l).2.length = l.length := by
  have := (@exchange_perm _ _ _ key a l).length_eq
  simpa using this

/-- The element in front has the least key. -/
theorem exchange_le (a : α) (l : List α) :
    key (exchange key a l).1 ≤ key a ∧ ∀ b ∈ (exchange key a l).2, key (exchange key a l).1 ≤ key b := by
  induction l generalizing a with
  | nil => exact ⟨le_rfl, by simp [exchange]⟩
  | cons b l ih =>
    unfold exchange
    split
    · rename_i hlt
      obtain ⟨hb, hall⟩ := ih b
      refine ⟨hb.trans hlt.le, fun c hc ↦ ?_⟩
      rcases List.mem_cons.1 hc with rfl | hc
      · exact hb.trans hlt.le
      · exact hall c hc
    · rename_i hle
      obtain ⟨ha, hall⟩ := ih a
      refine ⟨ha, fun c hc ↦ ?_⟩
      rcases List.mem_cons.1 hc with rfl | hc
      · exact ha.trans (not_lt.1 hle)
      · exact hall c hc

/-- So do any number of passes. -/
theorem rounds_perm (n : ℕ) (l : List α) : (rounds key n l).Perm l := by
  induction n generalizing l with
  | zero => rfl
  | succ n ih =>
    rcases l with _ | ⟨a, l⟩
    · rfl
    · exact ((ih _).cons _).trans (exchange_perm a l)

/-- Sorting only reorders. -/
theorem sort_perm (l : List α) : (sort key l).Perm l := rounds_perm _ l

/-- Sorting keeps the number of elements. -/
@[simp] theorem length_sort (l : List α) : (sort key l).length = l.length := (sort_perm l).length_eq

/-- As many passes as there are elements leave the keys ascending. -/
theorem rounds_sorted {n : ℕ} (h : l.length ≤ n) : (rounds key n l).Pairwise fun a b ↦ key a ≤ key b := by
  induction n generalizing l with
  | zero =>
    obtain rfl : l = [] := List.eq_nil_of_length_eq_zero (by omega)
    exact List.Pairwise.nil
  | succ n ih =>
    rcases l with _ | ⟨a, l⟩
    · exact List.Pairwise.nil
    · rw [List.length_cons] at h
      refine List.pairwise_cons.2 ⟨fun b hb ↦ ?_, ih (by rw [length_exchange]; omega)⟩
      exact (exchange_le a l).2 b ((rounds_perm _ _).mem_iff.1 hb)

/-- After sorting the keys ascend. -/
theorem sort_sorted (l : List α) : (sort key l).Pairwise fun a b ↦ key a ≤ key b := rounds_sorted le_rfl

end ExchangeSort
