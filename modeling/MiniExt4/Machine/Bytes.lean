import Mathlib

/-!
# Byte buffers with little-endian fields and bitmaps

A buffer is a total function from offsets to bytes, so that overlaying a C structure on a buffer is
reading and writing fields at offsets and no bound has to be carried. Which offsets are meaningful
is the business of the code that uses the buffer.

Two views are laid over the same bytes: little-endian numbers (`Buf.le`, `Buf.putLe`) and bits
(`Buf.bit`, `Buf.setBit`, `Buf.setBits`, `Buf.clearBit`). The lemmas say how a read sees a write:
at the same place, at a disjoint place, and through a copy of a region.
-/

/-- One byte. -/
abbrev Byte : Type := BitVec 8

/-- A byte buffer, indexed by offset. -/
abbrev Buf : Type := ℕ → Byte

namespace Buf

/-- The buffer of zero bytes. -/
def zero : Buf := fun _ ↦ 0

@[simp] theorem zero_apply (i : ℕ) : zero i = 0 := rfl

/-- The `n`-byte little-endian number at offset `o`. -/
def le (b : Buf) (o : ℕ) : ℕ → ℕ
  | 0 => 0
  | n + 1 => (b o).toNat + 256 * le b (o + 1) n

/-- Store `v` as an `n`-byte little-endian number at offset `o`, keeping its low bytes. -/
def putLe (b : Buf) (o n v : ℕ) : Buf := fun i ↦
  if o ≤ i ∧ i < o + n then BitVec.ofNat 8 (v / 256 ^ (i - o)) else b i

/-- Copy `n` bytes of `src` from offset `s` to offset `d` of `dst`. -/
def blit (dst : Buf) (d : ℕ) (src : Buf) (s n : ℕ) : Buf := fun i ↦
  if d ≤ i ∧ i < d + n then src (s + (i - d)) else dst i

/-- Fill `n` bytes from offset `o` with zeros. -/
def clear (b : Buf) (o n : ℕ) : Buf := fun i ↦
  if o ≤ i ∧ i < o + n then 0 else b i

/-! ### Little-endian fields -/

/-- A number depends on its own bytes only. -/
theorem le_congr {b c : Buf} {o n : ℕ} (h : ∀ i, o ≤ i → i < o + n → b i = c i) :
    b.le o n = c.le o n := by
  induction n generalizing o with
  | zero => rfl
  | succ n ih =>
    have hhead : b o = c o := h o le_rfl (by omega)
    have htail : b.le (o + 1) n = c.le (o + 1) n := ih fun i hi hlt ↦ h i (by omega) (by omega)
    simp only [le, hhead, htail]

/-- Reading a buffer that is another one from an offset on. -/
theorem le_shift (b : Buf) (k o n : ℕ) : le (fun j ↦ b (k + j)) o n = b.le (k + o) n := by
  induction n generalizing o with
  | zero => rfl
  | succ n ih => rw [le, le, ih, Nat.add_assoc]

/-- A number of `n` bytes is below `256 ^ n`. -/
theorem le_lt (b : Buf) (o n : ℕ) : b.le o n < 256 ^ n := by
  induction n generalizing o with
  | zero => simp [le]
  | succ n ih =>
    have hbyte : (b o).toNat < 256 := (b o).isLt
    have htail := ih (o + 1)
    rw [le, pow_succ]
    omega

@[simp] theorem le_zero_buf (o n : ℕ) : zero.le o n = 0 := by
  induction n generalizing o with
  | zero => rfl
  | succ n ih => simp [le, ih]

/-- A number stored in `n` bytes reads back as its low `n` bytes. -/
theorem le_putLe_same (b : Buf) (o n v : ℕ) : (b.putLe o n v).le o n = v % 256 ^ n := by
  -- The window moves: what is left to read at `o + k` is `v / 256 ^ k`.
  have key : ∀ m k, k + m = n →
      (b.putLe o n v).le (o + k) m = v / 256 ^ k % 256 ^ m := by
    intro m
    induction m with
    | zero => intro k _; simp [le, Nat.mod_one]
    | succ m ih =>
      intro k hk
      have htail := ih (k + 1) (by omega)
      have hbyte : ((b.putLe o n v) (o + k)).toNat = v / 256 ^ k % 256 := by
        have hin : o ≤ o + k ∧ o + k < o + n := by omega
        simp [putLe, hin]
      rw [le, hbyte, Nat.add_assoc, htail, pow_succ, ← Nat.div_div_eq_div_mul, pow_succ,
        Nat.mul_comm (256 ^ m) 256, Nat.mod_mul]
  simpa using key n 0 (by omega)

/-- A number that fits its bytes reads back as it was stored. -/
theorem le_putLe_of_lt {b : Buf} {o n v : ℕ} (h : v < 256 ^ n) :
    (b.putLe o n v).le o n = v := by
  rw [le_putLe_same, Nat.mod_eq_of_lt h]

/-- A field keeps its value when a disjoint field is stored. -/
theorem le_putLe_disjoint {b : Buf} {o n o' n' v : ℕ} (h : o + n ≤ o' ∨ o' + n' ≤ o) :
    (b.putLe o' n' v).le o n = b.le o n := by
  refine le_congr fun i hi hlt ↦ ?_
  have hout : ¬ (o' ≤ i ∧ i < o' + n') := by omega
  simp [putLe, hout]

/-- A store changes nothing before its offset. -/
theorem putLe_of_lt {b : Buf} {o n v i : ℕ} (h : i < o) : b.putLe o n v i = b i := by
  have hout : ¬ (o ≤ i ∧ i < o + n) := by omega
  simp [putLe, hout]

/-- A store changes nothing behind its last byte. -/
theorem putLe_of_le {b : Buf} {o n v i : ℕ} (h : o + n ≤ i) : b.putLe o n v i = b i := by
  have hout : ¬ (o ≤ i ∧ i < o + n) := by omega
  simp [putLe, hout]

/-! ### Fields of a record laid over the buffer -/

/-- A field of a record: its offset in the record and its size in bytes. -/
structure Field where
  off : ℕ
  size : ℕ
  deriving DecidableEq

/-- Two fields that share no byte. -/
def Field.Disjoint (f g : Field) : Prop := f.off + f.size ≤ g.off ∨ g.off + g.size ≤ f.off

instance (f g : Field) : Decidable (f.Disjoint g) := inferInstanceAs (Decidable (_ ∨ _))

/-- Field `f` of the record at offset `base`. -/
def getField (b : Buf) (base : ℕ) (f : Field) : ℕ := b.le (base + f.off) f.size

/-- Store into field `f` of the record at offset `base`. -/
def setField (b : Buf) (base : ℕ) (f : Field) (v : ℕ) : Buf := b.putLe (base + f.off) f.size v

/-- A field reads back as the low bytes of what was stored. -/
theorem getField_setField_self (b : Buf) (base : ℕ) (f : Field) (v : ℕ) :
    (b.setField base f v).getField base f = v % 256 ^ f.size := le_putLe_same ..

/-- A field is kept by a store into another field of the same record. -/
theorem getField_setField_of_disjoint (b : Buf) (base : ℕ) {f g : Field} (v : ℕ)
    (h : f.Disjoint g) : (b.setField base g v).getField base f = b.getField base f :=
  le_putLe_disjoint (by unfold Field.Disjoint at h; omega)

/-- Records that do not overlap have independent fields. -/
theorem getField_setField_apart (b : Buf) {base base' : ℕ} {f g : Field} (v : ℕ)
    (h : base + f.off + f.size ≤ base' + g.off ∨ base' + g.off + g.size ≤ base + f.off) :
    (b.setField base' g v).getField base f = b.getField base f :=
  le_putLe_disjoint (by omega)

/-- The value of a field fits its size. -/
theorem getField_lt (b : Buf) (base : ℕ) (f : Field) : b.getField base f < 256 ^ f.size :=
  le_lt ..

/-- A field depends on its own bytes only. -/
theorem getField_congr {b c : Buf} {base : ℕ} {f : Field}
    (h : ∀ i, base + f.off ≤ i → i < base + f.off + f.size → b i = c i) :
    b.getField base f = c.getField base f := le_congr h

/-- Storing a field changes nothing before it. -/
theorem setField_of_lt {b : Buf} {base : ℕ} {f : Field} {v i : ℕ} (h : i < base + f.off) :
    b.setField base f v i = b i := putLe_of_lt h

/-- Storing a field changes nothing behind it. -/
theorem setField_of_le {b : Buf} {base : ℕ} {f : Field} {v i : ℕ}
    (h : base + f.off + f.size ≤ i) : b.setField base f v i = b i := putLe_of_le h

/-- Storing 0 leaves a byte that is 0. -/
theorem setField_zero_eq_zero {b : Buf} {base : ℕ} {f : Field} {i : ℕ} (h : b i = 0) :
    b.setField base f 0 i = 0 := by
  unfold setField putLe
  split
  · simp
  · exact h

/-- A field is kept by the store of a number elsewhere in the record. -/
theorem getField_putLe_of_disjoint (b : Buf) (base : ℕ) {f : Field} {o n : ℕ} (v : ℕ)
    (h : f.off + f.size ≤ o ∨ o + n ≤ f.off) :
    (b.putLe (base + o) n v).getField base f = b.getField base f :=
  le_putLe_disjoint (by omega)

/-- A field is kept by a loop that stores elsewhere. -/
theorem getField_foldl_putLe (b : Buf) (base : ℕ) {f : Field} {n : ℕ} (o v : ℕ → ℕ) {l : List ℕ}
    (h : ∀ i ∈ l, f.off + f.size ≤ o i ∨ o i + n ≤ f.off) :
    (l.foldl (fun b i ↦ b.putLe (base + o i) n (v i)) b).getField base f = b.getField base f := by
  induction l generalizing b with
  | nil => rfl
  | cons i l ih =>
    rw [List.foldl_cons, ih _ fun j hj ↦ h j (List.mem_cons_of_mem i hj),
      getField_putLe_of_disjoint b base (v i) (h i List.mem_cons_self)]

/-- Storing a list of fields keeps a field that is disjoint from each. -/
theorem getField_foldl_setField_of_disjoint (b : Buf) (base : ℕ) {f : Field} {l : List (Field × ℕ)}
    (h : ∀ fv ∈ l, f.Disjoint fv.1) :
    (l.foldl (fun b fv ↦ b.setField base fv.1 fv.2) b).getField base f = b.getField base f := by
  induction l generalizing b with
  | nil => rfl
  | cons fv l ih =>
    rw [List.foldl_cons, ih _ fun gv hg ↦ h gv (List.mem_cons_of_mem fv hg),
      getField_setField_of_disjoint b base fv.2 (h fv List.mem_cons_self)]

/-- Each of a list of disjoint fields reads back as it was stored, whatever their order. -/
theorem getField_foldl_setField_of_mem (b : Buf) (base : ℕ) {f : Field} {v : ℕ}
    {l : List (Field × ℕ)} (hl : (l.map Prod.fst).Pairwise Field.Disjoint) (hmem : (f, v) ∈ l) :
    (l.foldl (fun b fv ↦ b.setField base fv.1 fv.2) b).getField base f = v % 256 ^ f.size := by
  induction l generalizing b with
  | nil => simp at hmem
  | cons gv l ih =>
    rw [List.map_cons, List.pairwise_cons] at hl
    rw [List.foldl_cons]
    rcases List.mem_cons.1 hmem with rfl | htail
    · rw [getField_foldl_setField_of_disjoint _ _ fun gv hg ↦
        hl.1 gv.1 (List.mem_map_of_mem hg), getField_setField_self]
    · exact ih _ hl.2 htail

/-- Storing fields of a record of `n` bytes touches nothing outside it. -/
theorem foldl_setField_out (b : Buf) {base n i : ℕ} {l : List (Field × ℕ)}
    (hl : ∀ fv ∈ l, fv.1.off + fv.1.size ≤ n) (h : i < base ∨ base + n ≤ i) :
    l.foldl (fun b fv ↦ b.setField base fv.1 fv.2) b i = b i := by
  induction l generalizing b with
  | nil => rfl
  | cons fv l ih =>
    have hfv := hl fv List.mem_cons_self
    rw [List.foldl_cons, ih _ fun gv hg ↦ hl gv (List.mem_cons_of_mem fv hg)]
    rcases h with h | h
    · exact setField_of_lt (by omega)
    · exact setField_of_le (by omega)

/-! ### Copies and fills -/

/-- A byte of the copied region is the one of the source. -/
theorem blit_in {dst src : Buf} {d s n i : ℕ} (h : d ≤ i) (h' : i < d + n) :
    dst.blit d src s n i = src (s + (i - d)) := by
  simp [blit, h, h']

/-- A byte outside the copied region is kept. -/
theorem blit_out {dst src : Buf} {d s n i : ℕ} (h : i < d ∨ d + n ≤ i) :
    dst.blit d src s n i = dst i := by
  have hout : ¬ (d ≤ i ∧ i < d + n) := by omega
  simp [blit, hout]

/-- A field inside the copied region is the source's field. -/
theorem le_blit_in {dst src : Buf} {d s n o k : ℕ} (h : d ≤ o) (h' : o + k ≤ d + n) :
    (dst.blit d src s n).le o k = src.le (s + (o - d)) k := by
  induction k generalizing o with
  | zero => rfl
  | succ k ih =>
    have htail := ih (o := o + 1) (by omega) (by omega)
    have hoff : s + (o + 1 - d) = s + (o - d) + 1 := by omega
    rw [le, le, blit_in h (by omega), htail, hoff]

/-- A field outside the copied region is kept. -/
theorem le_blit_out {dst src : Buf} {d s n o k : ℕ} (h : o + k ≤ d ∨ d + n ≤ o) :
    (dst.blit d src s n).le o k = dst.le o k :=
  le_congr fun _ _ _ ↦ blit_out (by omega)

/-- Two adjacent copies are one copy. -/
theorem blit_blit_adjacent (dst src : Buf) (d s n m : ℕ) :
    (dst.blit d src s n).blit (d + n) src (s + n) m = dst.blit d src s (n + m) := by
  funext i
  by_cases h₂ : d + n ≤ i ∧ i < d + n + m
  · rw [blit_in h₂.1 h₂.2, blit_in (by omega) (by omega)]
    congr 1
    omega
  · rw [blit_out (by omega)]
    by_cases h₁ : d ≤ i ∧ i < d + n
    · rw [blit_in h₁.1 h₁.2, blit_in (by omega) (by omega)]
    · rw [blit_out (by omega), blit_out (by omega)]

@[simp] theorem blit_zero_len (dst src : Buf) (d s : ℕ) : dst.blit d src s 0 = dst := by
  funext i
  exact blit_out (by omega)

/-- The first `n` bytes, with zeros after them. -/
def clip (n : ℕ) (b : Buf) : Buf := fun i ↦ if i < n then b i else 0

/-- The bytes below the limit are kept. -/
@[simp] theorem clip_of_lt {n i : ℕ} (b : Buf) (h : i < n) : clip n b i = b i := if_pos h

/-- From the limit on there are zeros. -/
theorem clip_of_le {n i : ℕ} (b : Buf) (h : n ≤ i) : clip n b i = 0 := if_neg (by omega)

/-- A number below the limit is kept. -/
theorem le_clip {n o k : ℕ} (b : Buf) (h : o + k ≤ n) : (clip n b).le o k = b.le o k :=
  le_congr fun _ _ _ ↦ clip_of_lt b (by omega)

@[simp] theorem clip_clip (n : ℕ) (b : Buf) : clip n (clip n b) = clip n b := by
  funext i
  by_cases h : i < n
  · simp [h]
  · rw [clip_of_le _ (by omega), clip_of_le _ (by omega)]

/-- A byte of the cleared region is 0. -/
theorem clear_in {b : Buf} {o n i : ℕ} (h : o ≤ i) (h' : i < o + n) : b.clear o n i = 0 := by
  simp [clear, h, h']

/-- A byte outside the cleared region is kept. -/
theorem clear_out {b : Buf} {o n i : ℕ} (h : i < o ∨ o + n ≤ i) : b.clear o n i = b i := by
  have hout : ¬ (o ≤ i ∧ i < o + n) := by omega
  simp [clear, hout]

/-- A field is kept by clearing another part of the record. -/
theorem getField_clear_of_disjoint (b : Buf) (base : ℕ) {f : Field} {o n : ℕ}
    (h : f.off + f.size ≤ o ∨ o + n ≤ f.off) :
    (b.clear (base + o) n).getField base f = b.getField base f :=
  le_congr fun _ _ _ ↦ clear_out (by omega)

/-- A number outside the cleared region is kept. -/
theorem le_clear_out {b : Buf} {o n o' k : ℕ} (h : o' + k ≤ o ∨ o + n ≤ o') :
    (b.clear o n).le o' k = b.le o' k :=
  le_congr fun _ _ _ ↦ clear_out (by omega)

/-! ### Bits -/

/-- Bit `k` of the buffer, read as a bitmap. -/
def bit (b : Buf) (k : ℕ) : Bool := (b (k / 8)).getLsbD (k % 8)

/-- Set bit `k`. -/
def setBit (b : Buf) (k : ℕ) : Buf := fun i ↦
  if i = k / 8 then b i ||| (1#8 <<< (k % 8)) else b i

/-- Clear bit `k`. -/
def clearBit (b : Buf) (k : ℕ) : Buf := fun i ↦
  if i = k / 8 then b i &&& ~~~(1#8 <<< (k % 8)) else b i

/-- The byte at index `i` of the bitmap whose set bits are those in `[lo, hi)`. -/
def rangeMask (lo hi i : ℕ) : Byte :=
  BitVec.ofFnLE fun j : Fin 8 ↦ decide (lo ≤ 8 * i + j ∧ 8 * i + j < hi)

/-- Set every bit in `[lo, hi)`: the loop `for (k = lo; k < hi; k++) buf[k/8] |= 1 << (k%8)` done
bytewise (`setBits_eq_foldl`). -/
def setBits (b : Buf) (lo hi : ℕ) : Buf := fun i ↦ b i ||| rangeMask lo hi i

/-- The bits of the mask are those of the range. -/
theorem getLsbD_rangeMask {lo hi i j : ℕ} (hj : j < 8) :
    (rangeMask lo hi i).getLsbD j = decide (lo ≤ 8 * i + j ∧ 8 * i + j < hi) := by
  rw [rangeMask, BitVec.getLsbD_ofFnLE]
  simp [hj]

/-- After setting a range the bits of the range are set, and the others are as they were. -/
@[simp] theorem bit_setBits (b : Buf) (lo hi k : ℕ) :
    (b.setBits lo hi).bit k = (b.bit k || decide (lo ≤ k ∧ k < hi)) := by
  have hk : 8 * (k / 8) + k % 8 = k := by omega
  simp only [bit, setBits, BitVec.getLsbD_or, getLsbD_rangeMask (Nat.mod_lt k (by norm_num)), hk]

private theorem one_shift_getLsbD {s j : ℕ} (hj : j < 8) :
    ((1#8) <<< s).getLsbD j = decide (j = s) := by
  rw [BitVec.getLsbD_shiftLeft]
  by_cases h : j = s
  · subst h; simp [hj]
  · by_cases hlt : j < s
    · simp [hlt, h]
    · have hne : j - s ≠ 0 := by omega
      simp [hlt, h, BitVec.getLsbD_one, hne]

private theorem byte_bit_eq {j k : ℕ} (h : j / 8 = k / 8) : (j % 8 = k % 8) ↔ j = k := by
  omega

/-- After setting bit `k` it is set, and the others are as they were. -/
@[simp] theorem bit_setBit (b : Buf) (k j : ℕ) :
    (b.setBit k).bit j = (b.bit j || decide (j = k)) := by
  unfold bit setBit
  by_cases h : j / 8 = k / 8
  · rw [if_pos h, BitVec.getLsbD_or, one_shift_getLsbD (Nat.mod_lt j (by norm_num))]
    simp only [byte_bit_eq h]
  · have hne : j ≠ k := fun e ↦ h (by rw [e])
    simp [h, hne]

/-- After clearing bit `k` it is clear, and the others are as they were. -/
@[simp] theorem bit_clearBit (b : Buf) (k j : ℕ) :
    (b.clearBit k).bit j = (b.bit j && !decide (j = k)) := by
  unfold bit clearBit
  by_cases h : j / 8 = k / 8
  · have hj : j % 8 < 8 := Nat.mod_lt j (by norm_num)
    rw [if_pos h, BitVec.getLsbD_and, BitVec.getLsbD_not, one_shift_getLsbD hj]
    simp only [byte_bit_eq h, hj, decide_true, Bool.true_and]
  · have hne : j ≠ k := fun e ↦ h (by rw [e])
    simp [h, hne]

/-- An empty range sets nothing. -/
theorem setBits_empty (b : Buf) (lo : ℕ) : b.setBits lo lo = b := by
  funext i
  have hz : rangeMask lo lo i = 0 := by
    refine BitVec.eq_of_getLsbD_eq fun j hj ↦ ?_
    rw [getLsbD_rangeMask hj]
    simp
  simp [setBits, hz]

/-- The step of the loop that `setBits` stands for. -/
theorem setBits_succ (b : Buf) {lo hi : ℕ} (h : lo ≤ hi) :
    b.setBits lo (hi + 1) = (b.setBits lo hi).setBit hi := by
  funext i
  refine BitVec.eq_of_getLsbD_eq fun j hj ↦ ?_
  have hbit : ∀ c : Buf, (c i).getLsbD j = c.bit (8 * i + j) := by
    intro c
    have hdiv : (8 * i + j) / 8 = i := by omega
    have hmod : (8 * i + j) % 8 = j := by omega
    rw [bit, hdiv, hmod]
  rw [hbit, hbit, bit_setBits, bit_setBit, bit_setBits, Bool.or_assoc]
  congr 1
  rw [Bool.eq_iff_iff]
  simp only [Bool.or_eq_true, decide_eq_true_eq]
  omega

/-- Setting a range at once is the loop that sets its bits one after the other. -/
theorem setBits_eq_foldl (b : Buf) (lo n : ℕ) :
    b.setBits lo (lo + n) = (List.range' lo n).foldl setBit b := by
  induction n with
  | zero => exact setBits_empty b lo
  | succ n ih =>
    rw [List.range'_1_concat, List.foldl_append, ← ih, ← Nat.add_assoc, setBits_succ b (Nat.le_add_right lo n)]
    rfl

/-- A bit depends on its byte only. -/
theorem bit_congr {b c : Buf} {k : ℕ} (h : b (k / 8) = c (k / 8)) : b.bit k = c.bit k := by
  rw [bit, bit, h]

/-- The bits below the limit are kept. -/
theorem bit_clip {n k : ℕ} (b : Buf) (h : k < 8 * n) : (clip n b).bit k = b.bit k :=
  bit_congr (clip_of_lt b (by omega))

end Buf
