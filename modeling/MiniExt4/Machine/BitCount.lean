import MiniExt4.Machine.Bytes

/-!
# Counting the clear bits of a bitmap

`Buf.clearBits b n` is how many of the bits below `n` are clear. Setting a run of clear bits takes its
length off the count, clearing a set bit adds one.

The number is the cardinality of a set of positions (`clearBits_eq_card`), so that two bitmaps with the same
bits below `n` have the same count (`clearBits_congr`). A bitmap whose first `k` bits are set, as formatting
writes one, has `n - k` clear bits (`clearBits_of_prefix`).
-/

namespace Buf

/-- The number of clear bits among the first `n` of `b`. -/
def clearBits (b : Buf) (n : ℕ) : ℕ := Nat.count (fun i ↦ b.bit i = false) n

/-- There are at most as many clear bits as bits. -/
theorem clearBits_le (b : Buf) (n : ℕ) : b.clearBits n ≤ n := Nat.count_le _

/-- The count as the size of a set. -/
theorem clearBits_eq_card (b : Buf) (n : ℕ) :
    b.clearBits n = ((Finset.range n).filter fun i ↦ b.bit i = false).card :=
  Nat.count_eq_card_filter_range _ _

/-- The count depends on the bits that are counted only. -/
theorem clearBits_congr {b c : Buf} {n : ℕ} (h : ∀ i < n, b.bit i = c.bit i) :
    b.clearBits n = c.clearBits n := by
  rw [clearBits_eq_card, clearBits_eq_card]
  exact congrArg _ (Finset.filter_congr fun i hi ↦ by rw [h i (Finset.mem_range.1 hi)])

/-- A bitmap whose first `k` bits are the set ones. -/
theorem clearBits_of_prefix {b : Buf} {n k : ℕ} (h : ∀ i < n, b.bit i = decide (i < k)) :
    b.clearBits n = n - k := by
  induction n with
  | zero => simp [clearBits]
  | succ n ih =>
    have hlast := h n (Nat.lt_succ_self n)
    rw [clearBits, Nat.count_succ, ← clearBits, ih fun i hi ↦ h i (by omega), hlast]
    by_cases hk : n < k
    · simp only [hk, decide_true, Bool.true_eq_false, if_false]
      omega
    · simp only [hk, decide_false, if_true]
      omega

/-- Setting a run of clear bits takes its length off the count. -/
theorem clearBits_setBits {b : Buf} {n lo hi : ℕ} (hhi : hi ≤ n)
    (hclear : ∀ i, lo ≤ i → i < hi → b.bit i = false) :
    (b.setBits lo hi).clearBits n + (hi - lo) = b.clearBits n := by
  have hsub : Finset.Ico lo hi ⊆ (Finset.range n).filter fun i ↦ b.bit i = false := by
    intro i hi
    rw [Finset.mem_Ico] at hi
    exact Finset.mem_filter.2 ⟨Finset.mem_range.2 (by omega), hclear i hi.1 hi.2⟩
  have hsdiff : ((Finset.range n).filter fun i ↦ (b.setBits lo hi).bit i = false) =
      ((Finset.range n).filter fun i ↦ b.bit i = false) \ Finset.Ico lo hi := by
    ext i
    simp only [Finset.mem_filter, Finset.mem_range, Finset.mem_sdiff, Finset.mem_Ico, bit_setBits,
      Bool.or_eq_false_iff, decide_eq_false_iff_not]
    tauto
  rw [clearBits_eq_card, clearBits_eq_card, hsdiff, Finset.card_sdiff_of_subset hsub,
    Nat.card_Ico]
  have := Finset.card_le_card hsub
  rw [Nat.card_Ico] at this
  omega

/-- Clearing a set bit adds one to the count. -/
theorem clearBits_clearBit {b : Buf} {n k : ℕ} (hk : k < n) (hset : b.bit k = true) :
    (b.clearBit k).clearBits n = b.clearBits n + 1 := by
  have hins : ((Finset.range n).filter fun i ↦ (b.clearBit k).bit i = false) =
      insert k ((Finset.range n).filter fun i ↦ b.bit i = false) := by
    ext i
    by_cases hik : i = k
    · subst hik
      simp [hk]
    · simp [hik]
  rw [clearBits_eq_card, clearBits_eq_card, hins, Finset.card_insert_of_notMem (by simp [hset])]

/-- Setting a clear bit takes one off the count. -/
theorem clearBits_setBit {b : Buf} {n k : ℕ} (hk : k < n) (hclear : b.bit k = false) :
    (b.setBit k).clearBits n + 1 = b.clearBits n := by
  have hrun := @clearBits_setBits b n k (k + 1) (by omega) fun i h h' ↦ (show i = k by omega) ▸ hclear
  rw [show k + 1 - k = 1 by omega] at hrun
  rw [← hrun]
  congr 1
  exact clearBits_congr fun i _ ↦ by
    rw [bit_setBit, bit_setBits]
    congr 1
    exact decide_eq_decide.2 (by omega)

/-! ### The bits of a number in a bitmap -/

/-- The bits of a little-endian number are those of the bitmap from its offset on. -/
theorem testBit_le (b : Buf) (o n j : ℕ) :
    (b.le o n).testBit j = (decide (j < 8 * n) && b.bit (8 * o + j)) := by
  induction n generalizing o j with
  | zero => simp [le]
  | succ n ih =>
    have hbyte : (b o).toNat < 2 ^ 8 := (b o).isLt
    rw [le, Nat.add_comm, show 256 = 2 ^ 8 by norm_num, Nat.testBit_two_pow_mul_add _ hbyte]
    by_cases hj : j < 8
    · rw [if_pos hj, BitVec.testBit_toNat, bit, show (8 * o + j) / 8 = o by omega,
        show (8 * o + j) % 8 = j by omega]
      simp [show j < 8 * (n + 1) by omega]
    · rw [if_neg hj, ih, show 8 * (o + 1) + (j - 8) = 8 * o + j by omega]
      congr 1
      exact decide_eq_decide.2 (by omega)

/-- A field whose bits are set up to the `k`-th and clear above. -/
theorem le_eq_of_prefix {b : Buf} {o n k : ℕ} (hk : k ≤ 8 * n)
    (h : ∀ j < 8 * n, b.bit (8 * o + j) = decide (j < k)) : b.le o n = 2 ^ k - 1 := by
  refine Nat.eq_of_testBit_eq fun j ↦ ?_
  rw [testBit_le, Nat.testBit_two_pow_sub_one]
  by_cases hj : j < 8 * n
  · simp [hj, h j hj]
  · simp [hj, show ¬ j < k by omega]

end Buf
