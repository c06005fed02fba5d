import MiniExt4.Machine.Bytes

/-!
# Arrays of records in a buffer

A `RecordView α base size` reads and stores records of `size` bytes from offset `base` on as values of
`α`. `RecordView.list` is the list of the first records; the loops that move records by one place
(`shiftUp`, `shiftDown`), copy or clear a range of them are copies and fills of regions, and the
lemmas say what they do to the list.

A view is two functions with the laws of a field: what was stored is read back, a store touches the bytes of
its record only, and a record depends on its own bytes. Group descriptors, extents, index entries and the
pairs of a hashed directory are instances, and none of them looks at bytes again above this module.
-/

namespace Buf

/-- The offset of record `i`. -/
def recordOff (base size i : ℕ) : ℕ := base + i * size

/-- How records are read and stored. -/
structure RecordView (α : Type) (base size : ℕ) where
  get : Buf → ℕ → α
  set : Buf → ℕ → α → Buf
  /-- the values a record can hold -/
  Fits : α → Prop
  fits_get : ∀ (b : Buf) (i : ℕ), Fits (get b i)
  get_congr : ∀ {b c : Buf} {i j : ℕ},
    (∀ k < size, b (recordOff base size i + k) = c (recordOff base size j + k)) → get b i = get c j
  get_set_self : ∀ (b : Buf) (i : ℕ) {a : α}, Fits a → get (set b i a) i = a
  set_outside : ∀ (b : Buf) (i : ℕ) (a : α) {o : ℕ},
    o < recordOff base size i ∨ recordOff base size i + size ≤ o → set b i a o = b o

variable {α : Type} {base size : ℕ}

/-- The next record begins where this one ends. -/
theorem recordOff_succ (i : ℕ) : recordOff base size (i + 1) = recordOff base size i + size := by
  unfold recordOff
  ring

/-- Later records begin later. -/
theorem recordOff_mono {i j : ℕ} (h : i ≤ j) : recordOff base size i ≤ recordOff base size j :=
  Nat.add_le_add_left (Nat.mul_le_mul_right size h) base

/-- A record ends before any later one begins. -/
theorem recordOff_add_le {i j : ℕ} (h : i < j) :
    recordOff base size i + size ≤ recordOff base size j := by
  rw [← recordOff_succ]
  exact recordOff_mono h

/-- The distance of two records. -/
theorem recordOff_sub {i j : ℕ} (h : i ≤ j) :
    recordOff base size j = recordOff base size i + (j - i) * size := by
  unfold recordOff
  rw [Nat.add_assoc, ← Nat.add_mul, Nat.add_sub_cancel' h]

/-- A field of a record depends on the bytes of the record only. -/
theorem getField_record_congr {b c : Buf} {i j : ℕ} {f : Field} (hf : f.off + f.size ≤ size)
    (h : ∀ k < size, b (recordOff base size i + k) = c (recordOff base size j + k)) :
    b.getField (recordOff base size i) f = c.getField (recordOff base size j) f := by
  rw [getField, getField, ← le_shift, ← le_shift]
  exact le_congr fun k hk hlt ↦ h k (by omega)

/-- A field of a record is stored inside the record. -/
theorem setField_outside_record (b : Buf) {i : ℕ} {f : Field} (v : ℕ) {o : ℕ}
    (hf : f.off + f.size ≤ size)
    (h : o < recordOff base size i ∨ recordOff base size i + size ≤ o) :
    b.setField (recordOff base size i) f v o = b o := by
  rcases h with h | h
  · exact setField_of_lt (by omega)
  · exact setField_of_le (by omega)

/-- Move the records from `pos` to the end `n` up by one. -/
def shiftUp (base size : ℕ) (b : Buf) (pos n : ℕ) : Buf :=
  b.blit (recordOff base size (pos + 1)) b (recordOff base size pos) ((n - pos) * size)

/-- Move the records after `pos` down by one. -/
def shiftDown (base size : ℕ) (b : Buf) (pos n : ℕ) : Buf :=
  b.blit (recordOff base size pos) b (recordOff base size (pos + 1)) ((n - 1 - pos) * size)

/-- The first `cnt` records are those of `src` from `pos` on. -/
def copyRecords (base size : ℕ) (dst src : Buf) (pos cnt : ℕ) : Buf :=
  dst.blit (recordOff base size 0) src (recordOff base size pos) (cnt * size)

/-- Fill the records from `pos` to the end `n` with zeros. -/
def clearRecords (base size : ℕ) (b : Buf) (pos n : ℕ) : Buf :=
  b.clear (recordOff base size pos) ((n - pos) * size)

namespace RecordView

variable (v : RecordView α base size)

/-- The first `n` records. -/
def list (b : Buf) (n : ℕ) : List α := (List.range n).map (v.get b)

/-- The list has as many elements as were read. -/
@[simp] theorem length_list (b : Buf) (n : ℕ) : (v.list b n).length = n := by simp [list]

/-- What was read from a buffer fits into a record. -/
theorem fits_of_mem {b : Buf} {n : ℕ} {a : α} (h : a ∈ v.list b n) : v.Fits a := by
  obtain ⟨i, -, rfl⟩ := List.mem_map.1 h
  exact v.fits_get b i

/-- An element of the list is the record of that number. -/
theorem getElem_list (b : Buf) {n i : ℕ} (h : i < (v.list b n).length) :
    (v.list b n)[i] = v.get b i := by simp [list]

/-- The same, as a lookup in the list. -/
theorem getElem?_list (b : Buf) {n i : ℕ} (h : i < n) : (v.list b n)[i]? = some (v.get b i) := by
  simp [list, h]

/-- Reading fewer records gives the front of the list. -/
theorem list_take (b : Buf) {m n : ℕ} (h : m ≤ n) : v.list b m = (v.list b n).take m := by
  rw [list, list, ← List.map_take, List.take_range, Nat.min_eq_left h]

/-- Lists agree when the bytes of the records do. -/
theorem list_congr {b c : Buf} {n : ℕ}
    (h : ∀ o, base ≤ o → o < recordOff base size n → b o = c o) : v.list b n = v.list c n := by
  refine List.map_congr_left fun i hi ↦ v.get_congr fun k hk ↦ ?_
  have hle := @recordOff_add_le base size _ _ (List.mem_range.1 hi)
  have hbase : base ≤ recordOff base size i := Nat.le_add_right _ _
  exact h _ (by omega) (by omega)

/-- Storing a record leaves the others. -/
theorem get_set_of_ne (b : Buf) {i j : ℕ} (a : α) (h : i ≠ j) : v.get (v.set b j a) i = v.get b i :=
  v.get_congr fun k hk ↦ v.set_outside b j a <| by
    rcases Nat.lt_or_gt_of_ne h with hlt | hlt
    · have := @recordOff_add_le base size _ _ hlt
      omega
    · have := @recordOff_add_le base size _ _ hlt
      omega

/-- Storing a record changes its element of the list. -/
theorem list_set (b : Buf) {n i : ℕ} {a : α} (ha : v.Fits a) :
    v.list (v.set b i a) n = (v.list b n).set i a := by
  refine List.ext_getElem (by simp) fun j hj _ ↦ ?_
  rw [getElem_list, List.getElem_set]
  split
  · subst_vars
    exact v.get_set_self b _ ha
  · rw [getElem_list, v.get_set_of_ne b a (by omega)]

/-- One record more at the end. -/
theorem list_succ (b : Buf) (n : ℕ) : v.list b (n + 1) = v.list b n ++ [v.get b n] := by
  simp [list, List.range_succ]

/-- What is stored after the records does not change them. -/
theorem list_set_of_le (b : Buf) {n i : ℕ} (a : α) (h : n ≤ i) :
    v.list (v.set b i a) n = v.list b n :=
  List.map_congr_left fun j hj ↦ v.get_set_of_ne b a (by
    have := List.mem_range.1 hj
    omega)

/-- The first record. -/
theorem get_zero_of_list {b : Buf} {a : α} {l : List α} (h : v.list b (a :: l).length = a :: l) :
    v.get b 0 = a := by
  have hhead := v.getElem?_list b (show 0 < (a :: l).length by simp)
  rw [h] at hhead
  simpa using hhead.symm

/-- A list that is another one with an element put in at `pos`. -/
theorem range_map_insert {f g : ℕ → α} {pos n : ℕ} {a : α} (h : pos ≤ n)
    (hlt : ∀ i < pos, g i = f i) (hpos : g pos = a) (hge : ∀ i, pos ≤ i → i < n → g (i + 1) = f i) :
    (List.range (n + 1)).map g =
      ((List.range n).map f).take pos ++ a :: ((List.range n).map f).drop pos := by
  refine List.ext_getElem (by simp; omega) fun i hi _ ↦ ?_
  simp only [List.length_map, List.length_range] at hi
  simp only [List.getElem_map, List.getElem_range, List.getElem_append, List.length_take,
    List.length_map, List.length_range, List.getElem_take, List.getElem_cons, List.getElem_drop]
  split
  · exact hlt i (by omega)
  · split
    · rw [show i = pos by omega, hpos]
    · have hprev := hge (i - 1) (by omega) (by omega)
      rw [show i - 1 + 1 = i by omega] at hprev
      rw [hprev]
      congr 1
      omega

/-- Making room leaves what is before the place. -/
theorem get_shiftUp_of_lt (b : Buf) {pos n i : ℕ} (h : i < pos) :
    v.get (shiftUp base size b pos n) i = v.get b i :=
  v.get_congr fun k hk ↦ blit_out <| by
    have := @recordOff_add_le base size _ _ (show i < pos + 1 by omega)
    omega

/-- Making room moves what is behind the place up by one. -/
theorem get_shiftUp_succ (b : Buf) {pos n i : ℕ} (h : pos ≤ i) (hi : i < n) :
    v.get (shiftUp base size b pos n) (i + 1) = v.get b i :=
  v.get_congr fun k hk ↦ by
    have hsub : recordOff base size (i + 1) = recordOff base size (pos + 1) + (i - pos) * size := by
      rw [recordOff_sub (show pos + 1 ≤ i + 1 by omega), Nat.add_sub_add_right]
    have hsub' := @recordOff_sub base size _ _ h
    have hin : (i - pos) * size + size ≤ (n - pos) * size := by
      rw [← Nat.succ_mul]
      exact Nat.mul_le_mul_right size (by omega)
    rw [shiftUp, blit_in (by omega) (by omega)]
    congr 1
    omega

/-- Making room at `pos` and storing there inserts. -/
theorem list_shiftUp_set (b : Buf) {pos n : ℕ} {a : α} (h : pos ≤ n) (ha : v.Fits a) :
    v.list (v.set (shiftUp base size b pos n) pos a) (n + 1) =
      (v.list b n).take pos ++ a :: (v.list b n).drop pos := by
  refine range_map_insert h (fun i hi ↦ ?_) (v.get_set_self _ _ ha) fun i hi hn ↦ ?_
  · rw [v.get_set_of_ne _ _ (by omega), v.get_shiftUp_of_lt _ hi]
  · rw [v.get_set_of_ne _ _ (by omega), v.get_shiftUp_succ _ hi hn]

/-- Closing the gap at `pos` removes. -/
theorem list_shiftDown (b : Buf) {pos n : ℕ} (h : pos < n) :
    v.list (shiftDown base size b pos n) (n - 1) = (v.list b n).eraseIdx pos := by
  refine List.ext_getElem (by simp [List.length_eraseIdx, h]) fun i hi _ ↦ ?_
  rw [length_list] at hi
  rw [getElem_list, List.getElem_eraseIdx]
  split
  · rw [getElem_list]
    refine v.get_congr fun k hk ↦ blit_out ?_
    have := @recordOff_add_le base size _ _ ‹i < pos›
    omega
  · rw [getElem_list]
    refine v.get_congr fun k hk ↦ ?_
    have hsub := @recordOff_sub base size _ _ (show pos ≤ i by omega)
    have hsub' : recordOff base size (i + 1) = recordOff base size (pos + 1) + (i - pos) * size := by
      rw [recordOff_sub (show pos + 1 ≤ i + 1 by omega), Nat.add_sub_add_right]
    have hin : (i - pos) * size + size ≤ (n - 1 - pos) * size := by
      rw [← Nat.succ_mul]
      exact Nat.mul_le_mul_right size (by omega)
    rw [shiftDown, blit_in (by omega) (by omega)]
    congr 1
    omega

/-- Copying to the front of a buffer what another one has from the place `pos` on. -/
theorem list_copyRecords (dst src : Buf) (pos n : ℕ) :
    v.list (copyRecords base size dst src pos (n - pos)) (n - pos) = (v.list src n).drop pos := by
  refine List.ext_getElem (by simp) fun i hi _ ↦ ?_
  rw [length_list] at hi
  rw [getElem_list, List.getElem_drop, getElem_list]
  refine v.get_congr fun k hk ↦ ?_
  have hsub := @recordOff_sub base size _ _ (Nat.zero_le i)
  have hsub' := @recordOff_sub base size _ _ (Nat.le_add_right pos i)
  have hin : i * size + size ≤ (n - pos) * size := by
    rw [← Nat.succ_mul]
    exact Nat.mul_le_mul_right size hi
  rw [Nat.sub_zero] at hsub
  rw [Nat.add_sub_cancel_left] at hsub'
  rw [copyRecords, blit_in (by omega) (by omega)]
  congr 1
  omega

/-- Clearing from `pos` on leaves the records before it. -/
theorem list_clearRecords (b : Buf) (pos n : ℕ) :
    v.list (clearRecords base size b pos n) pos = v.list b pos :=
  v.list_congr fun _ _ ho ↦ clear_out (.inl ho)

end RecordView

/-! ### What is before the records -/

/-- Making room keeps the numbers before the records. -/
theorem le_shiftUp (b : Buf) (pos n : ℕ) {o k : ℕ} (h : o + k ≤ base) :
    (shiftUp base size b pos n).le o k = b.le o k :=
  le_blit_out (.inl (h.trans (Nat.le_add_right _ _)))

/-- Closing a gap keeps them. -/
theorem le_shiftDown (b : Buf) (pos n : ℕ) {o k : ℕ} (h : o + k ≤ base) :
    (shiftDown base size b pos n).le o k = b.le o k :=
  le_blit_out (.inl (h.trans (Nat.le_add_right _ _)))

/-- Copying records keeps them. -/
theorem le_copyRecords (b c : Buf) (pos n : ℕ) {o k : ℕ} (h : o + k ≤ base) :
    (copyRecords base size b c pos n).le o k = b.le o k :=
  le_blit_out (.inl (h.trans (Nat.le_add_right _ _)))

/-- Clearing records keeps them. -/
theorem le_clearRecords (b : Buf) (pos n : ℕ) {o k : ℕ} (h : o + k ≤ base) :
    (clearRecords base size b pos n).le o k = b.le o k :=
  le_clear_out (.inl (h.trans (Nat.le_add_right _ _)))

/-- Storing a record keeps them. -/
theorem RecordView.le_set (v : RecordView α base size) (b : Buf) (i : ℕ) (a : α) {o k : ℕ}
    (h : o + k ≤ base) : (v.set b i a).le o k = b.le o k :=
  le_congr fun j _ hj ↦ v.set_outside b i a (.inl (by
    have : base ≤ recordOff base size i := Nat.le_add_right _ _
    omega))

end Buf
