import Mathlib

/-!
# Queues in a ring of cells

A queue that lies in an array of `n` cells from cell `head` on, and goes on in cell 0 after the last
one. The lemmas say what entering an element behind the last, removing the last and removing elements
from the front do to the cells.

The second part is about sequences of calls, each of which may only be made in some states.

`Holds` is a statement about the cells of the queue only, so an array of more cells, or with anything in the
others, serves as well. `Along` says of a sequence of calls that each was made in a state where it may be,
and `inv_of_along` that an invariant of such calls holds at its end.
-/

namespace Ring

variable {α : Type*} {n head : ℕ} {cell : ℕ → α} {q q₁ q₂ : List α}

/-- The `n` cells from cell `head` on hold the queue `q`. -/
def Holds (n : ℕ) (cell : ℕ → α) (head : ℕ) (q : List α) : Prop :=
  q.length ≤ n ∧ ∀ k (h : k < q.length), cell ((head + k) % n) = q[k]

/-- An empty queue is held wherever the head is. -/
theorem Holds.nil : Holds n cell head [] := ⟨Nat.zero_le _, fun _ h ↦ absurd h (Nat.not_lt_zero _)⟩

/-- Where there is no wrap in between the elements are in consecutive cells. -/
theorem Holds.apply (h : Holds n cell head q) {k : ℕ} (hk : k < q.length) (hwrap : head + k < n) :
    cell (head + k) = q[k] := by
  have hcell := h.2 k hk
  rwa [Nat.mod_eq_of_lt hwrap] at hcell

/-- Entering an element in the cell behind the last one. -/
theorem Holds.push (h : Holds n cell head q) (hroom : q.length < n) (a : α) :
    Holds n (Function.update cell ((head + q.length) % n) a) head (q ++ [a]) := by
  refine ⟨by simpa using hroom, fun k hk ↦ ?_⟩
  rw [List.length_append, List.length_singleton] at hk
  by_cases hlast : k = q.length
  · subst hlast
    simp
  · have hlt : k < q.length := by omega
    have hne : (head + k) % n ≠ (head + q.length) % n := by
      intro heq
      have hmod : k ≡ q.length [MOD n] := Nat.ModEq.add_left_cancel' head heq
      have := Nat.ModEq.eq_of_lt_of_lt hmod (by omega) hroom
      omega
    rw [Function.update_of_ne hne, List.getElem_append_left hlt, h.2 k hlt]

/-- Removing the last element leaves the cells. -/
theorem Holds.dropLast (h : Holds n cell head q) : Holds n cell head q.dropLast := by
  refine ⟨?_, fun k hk ↦ ?_⟩
  · rw [List.length_dropLast]
    have := h.1
    omega
  · rw [List.getElem_dropLast]
    exact h.2 k _

/-- Removing elements from the front moves the head over their cells. -/
theorem Holds.of_append (h : Holds n cell head (q₁ ++ q₂)) :
    Holds n cell ((head + q₁.length) % n) q₂ := by
  have hlen := h.1
  rw [List.length_append] at hlen
  refine ⟨by omega, fun k hk ↦ ?_⟩
  rw [Nat.mod_add_mod, Nat.add_assoc, h.2 (q₁.length + k) (by rw [List.length_append]; omega),
    List.getElem_append_right (by omega)]
  simp

end Ring

/-! ### Sequences of calls -/

namespace Calls

variable {σ α : Type*} {step : σ → α → σ} {P Q : σ → α → Prop} {I : σ → Prop}

/-- Every call of the sequence is made in a state that satisfies `P`. -/
def Along (step : σ → α → σ) (P : σ → α → Prop) : List α → σ → Prop
  | [], _ => True
  | a :: l, s => P s a ∧ Along step P l (step s a)

/-- Whether they are can be found out by making them. -/
def decidableAlong (step : σ → α → σ) (P : σ → α → Prop) [∀ s a, Decidable (P s a)] :
    ∀ l s, Decidable (Along step P l s)
  | [], _ => isTrue trivial
  | a :: l, s =>
    haveI := decidableAlong step P l (step s a)
    inferInstanceAs (Decidable (P s a ∧ Along step P l (step s a)))

instance (step : σ → α → σ) (P : σ → α → Prop) [∀ s a, Decidable (P s a)] (l : List α) (s : σ) :
    Decidable (Along step P l s) := decidableAlong step P l s

/-- Two conditions that hold along a run hold together. -/
theorem Along.and {l : List α} {s : σ} (hP : Along step P l s) (hQ : Along step Q l s) :
    Along step (fun s a ↦ P s a ∧ Q s a) l s := by
  induction l generalizing s with
  | nil => trivial
  | cons a l ih => exact ⟨⟨hP.1, hQ.1⟩, ih hP.2 hQ.2⟩

/-- The calls at the front of a sequence are made in the same states. -/
theorem Along.of_append {l m : List α} {s : σ} (h : Along step P (l ++ m) s) : Along step P l s := by
  induction l generalizing s with
  | nil => trivial
  | cons a l ih => exact ⟨h.1, ih h.2⟩

/-- What each call preserves holds after all of them. -/
theorem inv_of_along (hstep : ∀ s a, I s → P s a → I (step s a)) {l : List α} {s : σ} (h : I s)
    (hl : Along step P l s) : I (l.foldl step s) := by
  induction l generalizing s with
  | nil => exact h
  | cons a l ih => exact ih (hstep s a h hl.1) hl.2

end Calls
