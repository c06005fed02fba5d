import MiniExt4.Machine.Bytes

/-!
# NUL-terminated strings

What a C program calls a string is an address: the bytes from there up to the first NUL. The relation
`Buf.IsString` says which list of bytes that is. It follows the list, so that a loop which moves a pointer
forward byte by byte is an induction on the string it has before it.

A text list holds no NUL. That a byte of the string is 0 says that the list ends there (`eq_zero_iff`), and
a string of a longer list has that of the rest behind its first bytes (`drop`).
-/

namespace Buf

/-- The bytes of `s`, none of them NUL, stand at `p` and a NUL follows them. -/
def IsString (b : Buf) : ℕ → List Byte → Prop
  | p, [] => b p = 0
  | p, c :: s => b p = c ∧ c ≠ 0 ∧ IsString b (p + 1) s

/-- Whether a list is the string at an address can be read off. -/
instance decidableIsString (b : Buf) : ∀ p s, Decidable (b.IsString p s)
  | p, [] => inferInstanceAs (Decidable (b p = 0))
  | p, c :: s =>
    have := decidableIsString b (p + 1) s
    inferInstanceAs (Decidable (b p = c ∧ c ≠ 0 ∧ IsString b (p + 1) s))

variable {b : Buf} {p : ℕ} {c : Byte} {s t : List Byte}

@[simp] theorem isString_nil : b.IsString p [] ↔ b p = 0 := Iff.rfl

@[simp] theorem isString_cons : b.IsString p (c :: s) ↔ b p = c ∧ c ≠ 0 ∧ b.IsString (p + 1) s := Iff.rfl

namespace IsString

/-- The string is over exactly where the byte is NUL. -/
theorem eq_zero_iff (h : b.IsString p s) : b p = 0 ↔ s = [] := by
  cases s with
  | nil => simpa using h
  | cons c s =>
    obtain ⟨rfl, hc, -⟩ := h
    exact iff_of_false hc (List.cons_ne_nil _ s)

/-- At a byte that is not NUL the string goes on. -/
theorem exists_cons (h : b.IsString p s) (hp : b p ≠ 0) : ∃ t, s = b p :: t ∧ b.IsString (p + 1) t := by
  cases s with
  | nil => exact absurd h hp
  | cons c s =>
    obtain ⟨rfl, -, hs⟩ := h
    exact ⟨s, rfl, hs⟩

/-- The end of a string is a string. -/
theorem of_append (h : b.IsString p (s ++ t)) : b.IsString (p + s.length) t := by
  induction s generalizing p with
  | nil => simpa using h
  | cons c s ih =>
    have ht := ih h.2.2
    rwa [List.length_cons, Nat.add_comm s.length 1, ← Nat.add_assoc]

/-- The bytes from any offset inside a string on are a string. -/
theorem drop (h : b.IsString p s) {k : ℕ} (hk : k ≤ s.length) : b.IsString (p + k) (s.drop k) := by
  have hsplit : b.IsString p (s.take k ++ s.drop k) := by rwa [List.take_append_drop]
  have hdrop := hsplit.of_append
  rwa [List.length_take_of_le hk] at hdrop

/-- The NUL that ends the string. -/
theorem nul (h : b.IsString p s) : b (p + s.length) = 0 := by
  have hend := @of_append b p s [] (by simpa using h)
  simpa using hend

end IsString

end Buf
