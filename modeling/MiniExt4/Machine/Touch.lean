import MiniExt4.Machine.Bytes

/-!
# The bytes that a computation touches

`Touch α` is a value with the offsets of a buffer that were read or written on the way to it. `Within n`
says that they are all below `n`, and is decided statement by statement (`within_bind`). A loop over a
buffer is written twice: once for what it computes, and once over `Touch`, with the theorem that the
values are the same.

The values and the offsets are kept apart so that one loop serves both kinds of statements. `val_bind` and
`bind_congr'` let the value of a loop be computed as if nothing were recorded, and `within_bind` follows the
same statements for the offsets. Comparing bytes stops at the first difference, as `memcmp` may do; a bound
for `memcmpEq` is one for every way of comparing.
-/

/-- A value, and the offsets that were read or written for it. -/
structure Touch (α : Type) where
  val : α
  offs : List ℕ

namespace Touch

variable {α β : Type}

instance : Monad Touch where
  pure a := ⟨a, []⟩
  bind x f := ⟨(f x.val).val, x.offs ++ (f x.val).offs⟩

/-- `n` bytes from `o` on are read or written. -/
def touch (o n : ℕ) : Touch Unit := ⟨(), List.range' o n⟩

/-- The field `f` of the structure at `o`. -/
def field (b : Buf) (o : ℕ) (f : Buf.Field) : Touch ℕ := ⟨b.getField o f, List.range' (o + f.off) f.size⟩

/-- All offsets are below `n`. -/
def Within (n : ℕ) (x : Touch α) : Prop := ∀ i ∈ x.offs, i < n

/-- A value on its own is what it is. -/
@[simp] theorem val_pure (a : α) : (pure a : Touch α).val = a := rfl

/-- The value of a sequence is that of its second statement at the value of the first. -/
@[simp] theorem val_bind (x : Touch α) (f : α → Touch β) : (x >>= f).val = (f x.val).val := rfl

@[simp] theorem val_field (b : Buf) (o : ℕ) (f : Buf.Field) : (field b o f).val = b.getField o f := rfl

/-- The rest matters only at the value that is there. -/
theorem bind_congr' {x : Touch α} {f g : α → Touch β} (h : f x.val = g x.val) : x >>= f = x >>= g := by
  show Touch.mk (f x.val).val (x.offs ++ (f x.val).offs) = ⟨(g x.val).val, x.offs ++ (g x.val).offs⟩
  rw [h]

variable {n o k : ℕ}

/-- A value on its own touches nothing. -/
theorem within_pure (a : α) : (pure a : Touch α).Within n := by
  intro i hi
  exact absurd hi List.not_mem_nil

/-- A sequence stays within the bound if both of its statements do. -/
theorem within_bind {x : Touch α} {f : α → Touch β} :
    (x >>= f).Within n ↔ x.Within n ∧ (f x.val).Within n := by
  constructor
  · exact fun h ↦ ⟨fun i hi ↦ h i (List.mem_append_left _ hi), fun i hi ↦ h i (List.mem_append_right _ hi)⟩
  · rintro ⟨hx, hf⟩ i hi
    exact (List.mem_append.1 hi).elim (hx i) (hf i)

/-- An access of at least one byte stays within the bound where its last byte does. -/
theorem within_touch (hk : 0 < k) : (touch o k).Within n ↔ o + k ≤ n := by
  constructor
  · intro h
    have := h (o + k - 1) (List.mem_range'_1.2 (by omega))
    omega
  · intro h i hi
    have := List.mem_range'_1.1 hi
    omega

/-- The same for the access to a field of a record. -/
theorem within_field {b : Buf} {f : Buf.Field} (hf : 0 < f.size) :
    (field b o f).Within n ↔ o + f.off + f.size ≤ n := @within_touch n (o + f.off) f.size hf

/-- The rule for a sequence, in the direction that proofs go through a function. -/
theorem Within.bind {x : Touch α} {f : α → Touch β} (hx : x.Within n) (hf : (f x.val).Within n) :
    (x >>= f).Within n := within_bind.2 ⟨hx, hf⟩

/-! ### Comparing -/

/-- `memcmp(p, s, n) == 0`, which stops at the first byte that differs. -/
def memcmpEq (b : Buf) : ℕ → List Byte → Touch Bool
  | _, [] => pure true
  | o, c :: s => do
    touch o 1
    if b o = c then memcmpEq b (o + 1) s else pure false

/-- The comparison is the equality of the bytes with the list. -/
theorem val_memcmpEq (b : Buf) (o : ℕ) (s : List Byte) :
    (memcmpEq b o s).val = decide ((List.range s.length).map (fun i ↦ b (o + i)) = s) := by
  induction s generalizing o with
  | nil => rfl
  | cons c s ih =>
    rw [memcmpEq, val_bind, List.length_cons, List.range_succ_eq_map, List.map_cons, List.map_map]
    by_cases h : b o = c
    · rw [if_pos h, ih]
      simp [h, Function.comp_def, Nat.add_assoc, Nat.add_comm 1]
    · rw [if_neg h]
      simp [h]

/-- A comparison touches no more than the bytes that it is asked to compare. -/
theorem within_memcmpEq (b : Buf) {s : List Byte} (h : o + s.length ≤ n) : (memcmpEq b o s).Within n := by
  induction s generalizing o with
  | nil => exact within_pure _
  | cons c s ih =>
    rw [List.length_cons] at h
    refine ((within_touch one_pos).2 (by omega)).bind ?_
    split
    · exact ih (by omega)
    · exact within_pure _

end Touch
