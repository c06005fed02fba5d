import MiniExt4.Machine.Bytes

/-!
# Chains of records in a buffer

A record says how long it is, and the next one starts where it ends. A `ChainView α` reads records as
values of `α` with a length, and `Chain` says that the records of a list follow one another from an
offset up to an end. The lemmas are about chains cut in two, about the part of a buffer that a chain
depends on, and about exchanging some records of a chain for others of the same total length.
-/

namespace Buf

/-- How records are read, how long they are and which are sound. -/
structure ChainView (α : Type) where
  read : Buf → ℕ → α
  len : α → ℕ
  Ok : α → Prop
  len_pos : ∀ {a : α}, Ok a → 0 < len a
  /-- A sound record depends on its own bytes only. -/
  read_congr : ∀ {b c : Buf} {o : ℕ}, Ok (read b o) →
    (∀ i, o ≤ i → i < o + len (read b o) → c i = b i) → read c o = read b o

namespace ChainView

variable {α : Type} (v : ChainView α) {b c : Buf} {hi o m : ℕ} {a : α} {l l' l₁ l₂ : List α}

/-- The records of `l`, all of them sound, lie one behind the other from `o` up to `hi`. -/
def Chain (b : Buf) (hi : ℕ) : ℕ → List α → Prop
  | o, [] => o = hi
  | o, a :: l => v.read b o = a ∧ v.Ok a ∧ Chain b hi (o + v.len a) l

/-- The number of bytes of the records. -/
def total (l : List α) : ℕ := (l.map v.len).sum

/-- No records take no bytes. -/
@[simp] theorem total_nil : v.total [] = 0 := rfl

/-- The first record and the rest. -/
@[simp] theorem total_cons (a : α) (l : List α) : v.total (a :: l) = v.len a + v.total l := rfl

/-- The lengths of two lists of records add up. -/
@[simp] theorem total_append (l₁ l₂ : List α) : v.total (l₁ ++ l₂) = v.total l₁ + v.total l₂ := by
  simp [total]

/-- The first of the records from `o` on that has the property, and its offset. -/
def locate (p : α → Bool) : ℕ → List α → Option (ℕ × α)
  | _, [] => none
  | o, a :: l => if p a then some (o, a) else locate p (o + v.len a) l

instance [DecidableEq α] [DecidablePred v.Ok] (b : Buf) (hi : ℕ) :
    ∀ o l, Decidable (v.Chain b hi o l) :=
  let rec go : ∀ (l : List α) (o : ℕ), Decidable (v.Chain b hi o l)
    | [], o => inferInstanceAs (Decidable (o = hi))
    | a :: l, o =>
      haveI := go l (o + v.len a)
      inferInstanceAs (Decidable (v.read b o = a ∧ v.Ok a ∧ v.Chain b hi (o + v.len a) l))
  fun o l ↦ go l o

variable {v}

/-- A chain ends behind all of its records. -/
theorem Chain.hi_eq (h : v.Chain b hi o l) : hi = o + v.total l := by
  induction l generalizing o with
  | nil => exact h.symm
  | cons a l ih =>
    have := ih h.2.2
    rw [total_cons]
    omega

/-- A chain does not end before it starts. -/
theorem Chain.le (h : v.Chain b hi o l) : o ≤ hi := by
  rw [h.hi_eq]
  exact Nat.le_add_right _ _

/-- The buffer determines the chain. -/
theorem Chain.eq (h : v.Chain b hi o l) (h' : v.Chain b hi o l') : l = l' := by
  induction l generalizing o l' with
  | nil =>
    rcases l' with _ | ⟨a', l'⟩
    · rfl
    · have hend : o = hi := h
      have hpos := v.len_pos h'.2.1
      have := h'.2.2.le
      omega
  | cons a l ih =>
    rcases l' with _ | ⟨a', l'⟩
    · have hend : o = hi := h'
      have hpos := v.len_pos h.2.1
      have := h.2.2.le
      omega
    · obtain rfl : a = a' := h.1.symm.trans h'.1
      rw [ih h.2.2 h'.2.2]

/-- A chain is cut behind any of its records. -/
theorem chain_append :
    v.Chain b hi o (l₁ ++ l₂) ↔ v.Chain b (o + v.total l₁) o l₁ ∧ v.Chain b hi (o + v.total l₁) l₂ := by
  induction l₁ generalizing o with
  | nil => simp [Chain]
  | cons a l₁ ih =>
    simp only [List.cons_append, Chain, ih, total_cons, Nat.add_assoc]
    tauto

/-- What is outside the records does not matter. -/
theorem Chain.congr (h : v.Chain b hi o l) (heq : ∀ i, o ≤ i → i < hi → c i = b i) :
    v.Chain c hi o l := by
  induction l generalizing o with
  | nil => exact h
  | cons a l ih =>
    obtain ⟨hread, hok, hrest⟩ := h
    have hle := hrest.le
    refine ⟨?_, hok, ih hrest fun i hi ↦ heq i (by omega)⟩
    rw [← hread] at hok hle ⊢
    exact v.read_congr hok fun i hlo hlt ↦ heq i hlo (by omega)

/-- Some of the records are exchanged for others of the same length. -/
theorem Chain.replace {pre mid mid' post : List α} (h : v.Chain b hi o (pre ++ (mid ++ post)))
    (hmid : v.Chain c (o + v.total pre + v.total mid) (o + v.total pre) mid')
    (heq : ∀ i, i < o + v.total pre ∨ o + v.total pre + v.total mid ≤ i → c i = b i) :
    v.Chain c hi o (pre ++ (mid' ++ post)) := by
  obtain ⟨hpre, hrest⟩ := chain_append.1 h
  obtain ⟨-, hpost⟩ := chain_append.1 hrest
  have htotal : v.total mid' = v.total mid := by
    have := hmid.hi_eq
    omega
  refine chain_append.2 ⟨hpre.congr fun i _ hlt ↦ heq i (.inl hlt), chain_append.2 ⟨?_, ?_⟩⟩
  · rwa [htotal]
  · rw [htotal]
    exact hpost.congr fun i hlo _ ↦ heq i (.inr hlo)

/-- Two buffers that agree on the first records of a chain have these records in common. -/
theorem Chain.of_agree {hi' : ℕ} (h : v.Chain b m o l₁) (heq : ∀ i, o ≤ i → i < m → c i = b i)
    (h' : v.Chain c hi' o l) (hle : m ≤ hi') : ∃ l₂, l = l₁ ++ l₂ ∧ v.Chain c hi' m l₂ := by
  induction l₁ generalizing o l with
  | nil =>
    obtain rfl : o = m := h
    exact ⟨l, rfl, h'⟩
  | cons a l₁ ih =>
    obtain ⟨hread, hok, hrest⟩ := h
    have hpos := v.len_pos hok
    have hend := hrest.le
    have hread' : v.read c o = a := by
      rw [← hread] at hok hend ⊢
      exact v.read_congr hok fun i hlo hlt ↦ heq i hlo (by omega)
    rcases l with _ | ⟨a', l⟩
    · have : o = hi' := h'
      omega
    · obtain rfl : a' = a := h'.1.symm.trans hread'
      obtain ⟨l₂, rfl, hl₂⟩ := ih hrest (fun i hlo ↦ heq i (by omega)) h'.2.2
      exact ⟨l₂, rfl, hl₂⟩

/-- Nothing is found exactly where no record has the property. -/
theorem locate_eq_none {p : α → Bool} : v.locate p o l = none ↔ ∀ a ∈ l, p a = false := by
  induction l generalizing o with
  | nil => simp [locate]
  | cons a l ih =>
    unfold locate
    by_cases h : p a
    · simp [h]
    · simp [h, ih]

/-- What is found first stands behind the records before it. -/
theorem locate_append {p : α → Bool} {pre post : List α} (hpre : ∀ b ∈ pre, p b = false) (ha : p a = true) :
    v.locate p o (pre ++ (a :: post)) = some (o + v.total pre, a) := by
  induction pre generalizing o with
  | nil => simp [locate, ha]
  | cons b pre ih =>
    rw [List.cons_append, locate, hpre b (by simp), if_neg Bool.false_ne_true,
      ih fun c hc ↦ hpre c (by simp [hc]), total_cons, Nat.add_assoc]

/-- The record at the start. -/
theorem Chain.of_lt (h : v.Chain b hi o l) (hlt : o < hi) :
    ∃ a l', l = a :: l' ∧ v.read b o = a ∧ v.Ok a ∧ v.Chain b hi (o + v.len a) l' := by
  rcases l with _ | ⟨a, l'⟩
  · exact absurd h (by simp only [Chain]; omega)
  · exact ⟨a, l', rfl, h⟩

end ChainView

end Buf
