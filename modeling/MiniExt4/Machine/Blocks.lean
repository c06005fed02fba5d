import Mathlib

/-!
# Consecutive blocks of varying length

The numbers from 0 on are cut into blocks: from block `a` on, block `k` has `len k` numbers. A number is
then a block and a place in it, as a day is a year and a day of that year. Finding the pair is a loop that
takes off one block after the other; going back is a sum. The order of the numbers is the lexicographic
order of the pairs.

`start a k` is the sum of the lengths before block `k`. `locate_start_add` says that the loop comes back to
the block and the place that a number was made from, and `exists_start_add` that every number is made from
some. Nothing is said of the lengths but that none of them is 0.
-/

namespace Blocks

/-- Where block `k` starts, counted from the start of block `a`. -/
def start (len : ℕ → ℕ) (a k : ℕ) : ℕ := ∑ i ∈ Finset.Ico a k, len i

/-- Take off blocks from `k` on while one fits in `n`, at most `fuel` of them. -/
def locate (len : ℕ → ℕ) : ℕ → ℕ → ℕ → ℕ × ℕ
  | 0, n, k => (n, k)
  | fuel + 1, n, k => if len k ≤ n then locate len fuel (n - len k) (k + 1) else (n, k)

variable {len : ℕ → ℕ} {a k l r q n fuel : ℕ}

/-- The first block starts at 0. -/
@[simp] theorem start_self : start len a a = 0 := by simp [start]

/-- The next block starts where this one ends. -/
theorem start_succ (h : a ≤ k) : start len a (k + 1) = start len a k + len k :=
  Finset.sum_Ico_succ_top h len

/-- The start of a block, with the first block taken off. -/
theorem start_eq_head_add (h : a < k) : start len a k = len a + start len (a + 1) k :=
  Finset.sum_eq_sum_Ico_succ_bot h len

/-- Later blocks start no earlier. -/
theorem start_mono (h : k ≤ l) : start len a k ≤ start len a l :=
  Finset.sum_le_sum_of_subset (Finset.Ico_subset_Ico_right h)

/-- A place of an earlier block comes before every place of a later one. -/
theorem start_add_lt (hak : a ≤ k) (hkl : k < l) (hr : r < len k) :
    start len a k + r < start len a l := by
  have hnext : start len a (k + 1) ≤ start len a l := start_mono hkl
  rw [start_succ hak] at hnext
  omega

/-- The loop finds the pair a number was made from. -/
theorem locate_start_add (hak : a ≤ k) (hr : r < len k) (hfuel : k - a ≤ fuel) :
    locate len fuel (start len a k + r) a = (r, k) := by
  induction fuel generalizing a with
  | zero =>
    obtain rfl : a = k := by omega
    rw [locate, start_self, Nat.zero_add]
  | succ fuel ih =>
    rcases Nat.eq_or_lt_of_le hak with rfl | hlt
    · rw [locate, start_self, Nat.zero_add, if_neg (by omega)]
    · rw [locate, start_eq_head_add hlt, if_pos (by omega), Nat.add_assoc, Nat.add_sub_cancel_left]
      exact ih (by omega) (by omega)

/-- Every number short of the end of the blocks lies in one of them. -/
theorem exists_start_add (hal : a ≤ l) (hn : n < start len a l) :
    ∃ k r, a ≤ k ∧ k < l ∧ r < len k ∧ n = start len a k + r := by
  induction l, hal using Nat.le_induction with
  | base => simp at hn
  | succ l hal ih =>
    rcases Nat.lt_or_ge n (start len a l) with h | h
    · obtain ⟨k, r, hak, hkl, hr, hn⟩ := ih h
      exact ⟨k, r, hak, by omega, hr, hn⟩
    · rw [start_succ hal] at hn
      exact ⟨l, n - start len a l, hal, by omega, by omega, by omega⟩

/-- Blocks that are not empty start at least as far out as there are blocks before them. -/
theorem le_start (hpos : ∀ k, 0 < len k) (hak : a ≤ k) : k - a ≤ start len a k := by
  induction k, hak using Nat.le_induction with
  | base => simp
  | succ k hak ih =>
    have hlen := hpos k
    rw [start_succ hak]
    omega

/-- Blocks that are not empty reach every number. -/
theorem lt_start (hpos : ∀ k, 0 < len k) (n : ℕ) : n < start len a (a + n + 1) := by
  have hle := le_start hpos (show a ≤ a + n + 1 by omega)
  omega

end Blocks
