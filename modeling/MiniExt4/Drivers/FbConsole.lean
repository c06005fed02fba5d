import MiniExt4.Machine.CString

/-!
# Text on the frame buffer console (`drivers/video/fb_console.cpp`)

`utf8_pull` takes one code point off a NUL-terminated string. Where the bytes are no UTF-8 it gives a
replacement and goes on, one byte further or past the whole sequence. On well-formed text it is the
inverse of the encoding; on every text it stays within the string and gives scalar values.

The bit tests of the source are bounds on a byte (`lead2_iff`, `tail_iff`), and its shifts are sums. Each
branch of `utf8_pull` is then one lemma, from which both results follow: `utf8Pull_spec`, that a step stays
inside whatever the bytes are, and `utf8Pull_encodeChar`, that the code point which was encoded comes back.
The loop over a string ends since every step moves forward (`exists_pullAll`).
-/

namespace MiniExt4

namespace FbConsole

/-- `'?'` -/
def questionMark : ℕ := 63

/-- `(static_cast<uint32_t>(c0 & 0x1fu) << 6) | (c1 & 0x3fu)` -/
def codePoint2 (c0 c1 : Byte) : ℕ := (c0 &&& 0x1F).toNat <<< 6 ||| (c1 &&& 0x3F).toNat

/-- The code point of a sequence of three bytes. -/
def codePoint3 (c0 c1 c2 : Byte) : ℕ :=
  (c0 &&& 0x0F).toNat <<< 12 ||| (c1 &&& 0x3F).toNat <<< 6 ||| (c2 &&& 0x3F).toNat

/-- The code point of a sequence of four bytes. -/
def codePoint4 (c0 c1 c2 c3 : Byte) : ℕ :=
  (c0 &&& 0x07).toNat <<< 18 ||| (c1 &&& 0x3F).toNat <<< 12 ||| (c2 &&& 0x3F).toNat <<< 6 |||
    (c3 &&& 0x3F).toNat

/-- `utf8_pull(s, cp)`: the code point and the address after it, or `none` at the NUL. -/
def utf8Pull (b : Buf) (s : ℕ) : Option (ℕ × ℕ) :=
  let c0 := b s
  if c0 = 0 then none
  else if c0 < 0x80 then some (c0.toNat, s + 1)
  else if c0 &&& 0xE0 = 0xC0 then
    if b (s + 1) = 0 then some (questionMark, s + 1)
    else
      let c1 := b (s + 1)
      if c1 &&& 0xC0 ≠ 0x80 ∨ c0 < 0xC2 then some (questionMark, s + 1)
      else some (codePoint2 c0 c1, s + 2)
  else if c0 &&& 0xF0 = 0xE0 then
    if b (s + 1) = 0 ∨ b (s + 2) = 0 then some (questionMark, s + 1)
    else
      let c1 := b (s + 1)
      let c2 := b (s + 2)
      if c1 &&& 0xC0 ≠ 0x80 ∨ c2 &&& 0xC0 ≠ 0x80 then some (questionMark, s + 1)
      else
        let cp := codePoint3 c0 c1 c2
        if cp < 0x800 ∨ cp ≥ 0xD800 ∧ cp ≤ 0xDFFF then some (questionMark, s + 3) else some (cp, s + 3)
  else if c0 &&& 0xF8 = 0xF0 then
    if b (s + 1) = 0 ∨ b (s + 2) = 0 ∨ b (s + 3) = 0 then some (questionMark, s + 1)
    else
      let c1 := b (s + 1)
      let c2 := b (s + 2)
      let c3 := b (s + 3)
      if c1 &&& 0xC0 ≠ 0x80 ∨ c2 &&& 0xC0 ≠ 0x80 ∨ c3 &&& 0xC0 ≠ 0x80 then some (questionMark, s + 1)
      else
        let cp := codePoint4 c0 c1 c2 c3
        if cp < 0x10000 ∨ cp > 0x10FFFF then some (questionMark, s + 4) else some (cp, s + 4)
  else some (0xFFFD, s + 1)

/-- `while (utf8_pull(s, cp))`: the code points it gives. -/
def pullAll (b : Buf) : ℕ → ℕ → Option (List ℕ)
  | 0, _ => none
  | fuel + 1, s =>
    match utf8Pull b s with
    | none => some []
    | some (cp, s) => (pullAll b fuel s).map (cp :: ·)

/-- What `fb_console_puts` does to the screen. -/
inductive Action where
  | newline
  | backsp
  | carriageReturn
  | tabto
  | drawCodepoint (cp : ℕ)
  deriving DecidableEq

/-- The loop of `fb_console_puts`. -/
def putsLoop (b : Buf) : ℕ → ℕ → Option (List Action)
  | 0, _ => none
  | fuel + 1, p =>
    let c := b p
    if c = 0 then some []
    else if c = 10 then (putsLoop b fuel (p + 1)).map (Action.newline :: ·)
    else if c = 8 then (putsLoop b fuel (p + 1)).map (Action.backsp :: ·)
    else if c = 13 then (putsLoop b fuel (p + 1)).map (Action.carriageReturn :: ·)
    else if c = 9 then (putsLoop b fuel (p + 1)).map (Action.tabto :: ·)
    else if c < 0x20 then putsLoop b fuel (p + 1)
    else
      match utf8Pull b p with
      | none => some []
      | some (cp, p) => (putsLoop b fuel p).map (Action.drawCodepoint cp :: ·)

/-- `fb_console_puts(utf8)` -/
def fbConsolePuts (active : Bool) (b : Buf) (fuel utf8 : ℕ) : Option (List Action) :=
  if active = false ∨ utf8 = 0 then some [] else putsLoop b fuel utf8

/-! ### Bit tests as bounds -/

/-- The lead bytes of two-byte sequences. -/
theorem lead2_iff (c : Byte) : c &&& 0xE0 = 0xC0 ↔ 192 ≤ c.toNat ∧ c.toNat < 224 := by
  decide +revert

/-- The lead bytes of three-byte sequences. -/
theorem lead3_iff (c : Byte) : c &&& 0xF0 = 0xE0 ↔ 224 ≤ c.toNat ∧ c.toNat < 240 := by
  decide +revert

/-- The lead bytes of four-byte sequences. -/
theorem lead4_iff (c : Byte) : c &&& 0xF8 = 0xF0 ↔ 240 ≤ c.toNat ∧ c.toNat < 248 := by
  decide +revert

/-- The bytes that follow a lead byte. -/
theorem tail_iff (c : Byte) : c &&& 0xC0 = 0x80 ↔ 128 ≤ c.toNat ∧ c.toNat < 192 := by
  decide +revert

theorem toNat_low6 (c : Byte) : (c &&& 0x3F).toNat = c.toNat % 64 := by
  rw [BitVec.toNat_and]
  exact Nat.and_two_pow_sub_one_eq_mod _ 6

/-- Appending six bits is arithmetic. -/
theorem shift_or (a : ℕ) {l : ℕ} (hl : l < 64) : a <<< 6 ||| l = a * 64 + l := by
  rw [Nat.shiftLeft_eq, Nat.mul_comm]
  exact (Nat.two_pow_add_eq_or_of_lt hl a).symm

/-- The code point of two bytes, in numbers. -/
theorem codePoint2_eq (c0 c1 : Byte) : codePoint2 c0 c1 = c0.toNat % 32 * 64 + c1.toNat % 64 := by
  have hlead : (c0 &&& 0x1F).toNat = c0.toNat % 32 := by
    rw [BitVec.toNat_and]
    exact Nat.and_two_pow_sub_one_eq_mod _ 5
  rw [codePoint2, hlead, toNat_low6, shift_or _ (Nat.mod_lt _ (by decide))]

/-- The code point of three bytes. -/
theorem codePoint3_eq (c0 c1 c2 : Byte) :
    codePoint3 c0 c1 c2 = c0.toNat % 16 * 4096 + c1.toNat % 64 * 64 + c2.toNat % 64 := by
  have hlead : (c0 &&& 0x0F).toNat = c0.toNat % 16 := by
    rw [BitVec.toNat_and]
    exact Nat.and_two_pow_sub_one_eq_mod _ 4
  have hshift : (c0.toNat % 16) <<< 12 = (c0.toNat % 16) <<< 6 <<< 6 := Nat.shiftLeft_add _ 6 6
  rw [codePoint3, hlead, toNat_low6, toNat_low6, hshift, ← Nat.shiftLeft_or_distrib,
    shift_or _ (Nat.mod_lt _ (by decide)), shift_or _ (Nat.mod_lt _ (by decide))]
  omega

/-- The code point of four bytes. -/
theorem codePoint4_eq (c0 c1 c2 c3 : Byte) :
    codePoint4 c0 c1 c2 c3 =
      c0.toNat % 8 * 262144 + c1.toNat % 64 * 4096 + c2.toNat % 64 * 64 + c3.toNat % 64 := by
  have hlead : (c0 &&& 0x07).toNat = c0.toNat % 8 := by
    rw [BitVec.toNat_and]
    exact Nat.and_two_pow_sub_one_eq_mod _ 3
  have hshift : (c0.toNat % 8) <<< 18 = (c0.toNat % 8) <<< 6 <<< 6 <<< 6 := by
    rw [← Nat.shiftLeft_add, ← Nat.shiftLeft_add]
  have hshift' : (c1.toNat % 64) <<< 12 = (c1.toNat % 64) <<< 6 <<< 6 := Nat.shiftLeft_add _ 6 6
  rw [codePoint4, hlead, toNat_low6, toNat_low6, toNat_low6, hshift, hshift', ← Nat.shiftLeft_or_distrib,
    ← Nat.shiftLeft_or_distrib, ← Nat.shiftLeft_or_distrib, shift_or _ (Nat.mod_lt _ (by decide)),
    shift_or _ (Nat.mod_lt _ (by decide)), shift_or _ (Nat.mod_lt _ (by decide))]
  omega

/-! ### One step within the string -/

/-- A Unicode scalar value. -/
def IsScalar (cp : ℕ) : Prop := cp < 0xD800 ∨ 0xDFFF < cp ∧ cp ≤ 0x10FFFF

variable {b : Buf} {p : ℕ} {s : List Byte}

/-- What a step gives: a scalar value, and an address one to four bytes further that is still in the
string or at its NUL. -/
def Pulled (s : List Byte) (p : ℕ) (r : Option (ℕ × ℕ)) : Prop :=
  ∃ cp k, r = some (cp, p + k) ∧ 1 ≤ k ∧ k ≤ 4 ∧ k ≤ s.length ∧ IsScalar cp

/-- A step of one byte that gives some character. -/
theorem pulled_replacement (hs : s ≠ []) {cp : ℕ} (hcp : IsScalar cp) :
    Pulled s p (some (cp, p + 1)) :=
  ⟨cp, 1, rfl, le_rfl, by decide, List.length_pos_of_ne_nil hs, hcp⟩

/-- Bytes that are not NUL are in the string. -/
theorem lt_length (h : b.IsString p s) {k : ℕ} (hk : ∀ i ≤ k, b (p + i) ≠ 0) : k < s.length := by
  by_contra hge
  exact hk s.length (by omega) h.nul

/-- Before the NUL a step is made, and it stays within the string. -/
theorem utf8Pull_spec (h : b.IsString p s) (hs : s ≠ []) : Pulled s p (utf8Pull b p) := by
  have h0 : b p ≠ 0 := fun hc ↦ hs (h.eq_zero_iff.1 hc)
  have hlt := (b p).isLt
  have hq : IsScalar questionMark := Or.inl (by decide)
  rw [utf8Pull]
  dsimp only
  rw [if_neg h0]
  -- the cases are the forms of a first byte, of one to four bytes; the last is none of them
  split
  next hascii =>
    have hascii' : (b p).toNat < 128 := hascii
    exact pulled_replacement hs (Or.inl (by omega))
  next =>
  split
  next hlead =>
    split
    next => exact pulled_replacement hs hq
    next h1 =>
    split
    next => exact pulled_replacement hs hq
    next =>
      -- each byte of the sequence was tested before the next one was read, so no NUL was passed
      have hlen := lt_length h (k := 1) (by intro i hi; interval_cases i <;> assumption)
      refine ⟨_, 2, rfl, by decide, by decide, hlen, Or.inl ?_⟩
      rw [codePoint2_eq]
      omega
  next =>
  split
  next hlead =>
    split
    next => exact pulled_replacement hs hq
    next h12 =>
    split
    next => exact pulled_replacement hs hq
    next =>
      rw [not_or] at h12
      have hlen := lt_length h (k := 2) (by
        intro i hi
        interval_cases i
        · exact h0
        · exact h12.1
        · exact h12.2)
      split
      next => exact ⟨_, 3, rfl, by decide, by decide, hlen, hq⟩
      next hcp =>
        refine ⟨_, 3, rfl, by decide, by decide, hlen, ?_⟩
        rw [codePoint3_eq] at hcp ⊢
        rw [IsScalar]
        omega
  next =>
  split
  next hlead =>
    split
    next => exact pulled_replacement hs hq
    next h123 =>
    split
    next => exact pulled_replacement hs hq
    next =>
      rw [not_or, not_or] at h123
      have hlen := lt_length h (k := 3) (by
        intro i hi
        interval_cases i
        · exact h0
        · exact h123.1
        · exact h123.2.1
        · exact h123.2.2)
      split
      next => exact ⟨_, 4, rfl, by decide, by decide, hlen, hq⟩
      next hcp =>
        refine ⟨_, 4, rfl, by decide, by decide, hlen, Or.inr ?_⟩
        omega
  next => exact pulled_replacement hs (Or.inr (by decide))

/-! ### Whole strings -/

/-- One step, and the iteration goes on behind it. -/
theorem pullAll_succ_of_pulled {fuel q cp : ℕ} (h : utf8Pull b p = some (cp, q)) :
    pullAll b (fuel + 1) p = (pullAll b fuel q).map (cp :: ·) := by
  rw [pullAll, h]

/-- The iteration ends, and it gives scalar values only. -/
theorem exists_pullAll (h : b.IsString p s) :
    ∃ l, (∀ fuel, s.length < fuel → pullAll b fuel p = some l) ∧ ∀ cp ∈ l, IsScalar cp := by
  induction hn : s.length using Nat.strong_induction_on generalizing p s with
  | h n ih =>
    subst hn
    rcases eq_or_ne s [] with rfl | hs
    · refine ⟨[], fun fuel hfuel ↦ ?_, by simp⟩
      obtain ⟨fuel, rfl⟩ : ∃ m, fuel = m + 1 := ⟨fuel - 1, by omega⟩
      have hend : b p = 0 := h
      simp [pullAll, utf8Pull, hend]
    · obtain ⟨cp, k, hpull, hpos, -, hk, hscalar⟩ := utf8Pull_spec h hs
      have hlen : (s.drop k).length = s.length - k := List.length_drop
      obtain ⟨l, hl, hall⟩ := ih (s.drop k).length (by omega) (h.drop hk) rfl
      refine ⟨cp :: l, fun fuel hfuel ↦ ?_, ?_⟩
      · obtain ⟨fuel, rfl⟩ : ∃ m, fuel = m + 1 := ⟨fuel - 1, by omega⟩
        rw [pullAll_succ_of_pulled hpull, hl fuel (by omega), Option.map_some]
      · rw [List.forall_mem_cons]
        exact ⟨hscalar, hall⟩

/-! ### Decoding what was encoded -/

/-- The UTF-8 encoding of a character. -/
def encodeChar (c : Char) : List Byte := (String.utf8EncodeChar c).map UInt8.toBitVec

/-- The UTF-8 encoding of a text. -/
def encode (cs : List Char) : List Byte := cs.flatMap encodeChar

/-- The bytes of a character, in numbers. -/
theorem encodeChar_eq (c : Char) :
    encodeChar c =
      if c.toNat ≤ 0x7F then [BitVec.ofNat 8 c.toNat]
      else if c.toNat ≤ 0x7FF then
        [BitVec.ofNat 8 (c.toNat / 64 % 32 + 192), BitVec.ofNat 8 (c.toNat % 64 + 128)]
      else if c.toNat ≤ 0xFFFF then
        [BitVec.ofNat 8 (c.toNat / 4096 % 16 + 224), BitVec.ofNat 8 (c.toNat / 64 % 64 + 128),
          BitVec.ofNat 8 (c.toNat % 64 + 128)]
      else
        [BitVec.ofNat 8 (c.toNat / 262144 % 8 + 240), BitVec.ofNat 8 (c.toNat / 4096 % 64 + 128),
          BitVec.ofNat 8 (c.toNat / 64 % 64 + 128), BitVec.ofNat 8 (c.toNat % 64 + 128)] := by
  rw [encodeChar, String.utf8EncodeChar]
  change List.map _ (if c.toNat ≤ 0x7F then _ else _) = _
  split
  next => rfl
  next =>
  change List.map _ (if c.toNat ≤ 0x7FF then _ else _) = _
  split
  next => rfl
  next =>
  change List.map _ (if c.toNat ≤ 0xFFFF then _ else _) = _
  split <;> rfl

theorem ne_zero_of_toNat_pos {c : Byte} (h : 0 < c.toNat) : c ≠ 0 := by
  rintro rfl
  exact absurd h (by decide)

/-- A character of one byte is decoded. -/
theorem utf8Pull_one (hpos : 0 < (b p).toNat) (hlt : (b p).toNat < 128) :
    utf8Pull b p = some ((b p).toNat, p + 1) := by
  have hlt' : b p < 0x80 := hlt
  simp only [utf8Pull, if_neg (ne_zero_of_toNat_pos hpos), if_pos hlt']

/-- A character of two bytes is decoded. -/
theorem utf8Pull_two (h0 : 194 ≤ (b p).toNat ∧ (b p).toNat < 224)
    (h1 : 128 ≤ (b (p + 1)).toNat ∧ (b (p + 1)).toNat < 192) :
    utf8Pull b p = some ((b p).toNat % 32 * 64 + (b (p + 1)).toNat % 64, p + 2) := by
  have hascii : ¬b p < 0x80 := fun hc ↦ by
    have hc' : (b p).toNat < 128 := hc
    omega
  have hover : ¬b p < 0xC2 := fun hc ↦ by
    have hc' : (b p).toNat < 194 := hc
    omega
  have htail : ¬(b (p + 1) &&& 0xC0 ≠ 0x80 ∨ b p < 0xC2) := not_or.2 ⟨not_not.2 ((tail_iff _).2 h1), hover⟩
  simp only [utf8Pull, if_neg (ne_zero_of_toNat_pos (show 0 < (b p).toNat by omega)), if_neg hascii,
    if_pos ((lead2_iff _).2 ⟨by omega, h0.2⟩),
    if_neg (ne_zero_of_toNat_pos (show 0 < (b (p + 1)).toNat by omega)), if_neg htail, codePoint2_eq]

/-- A character of three bytes is decoded. -/
theorem utf8Pull_three (h0 : 224 ≤ (b p).toNat ∧ (b p).toNat < 240)
    (h1 : 128 ≤ (b (p + 1)).toNat ∧ (b (p + 1)).toNat < 192)
    (h2 : 128 ≤ (b (p + 2)).toNat ∧ (b (p + 2)).toNat < 192) {cp : ℕ}
    (hcp : (b p).toNat % 16 * 4096 + (b (p + 1)).toNat % 64 * 64 + (b (p + 2)).toNat % 64 = cp)
    (hlong : 0x800 ≤ cp) (hscalar : IsScalar cp) : utf8Pull b p = some (cp, p + 3) := by
  have hascii : ¬b p < 0x80 := fun hc ↦ by
    have hc' : (b p).toNat < 128 := hc
    omega
  have hlead : ¬b p &&& 0xE0 = 0xC0 := fun hc ↦ by
    have hc' := (lead2_iff _).1 hc
    omega
  have hnul : ¬(b (p + 1) = 0 ∨ b (p + 2) = 0) :=
    not_or.2 ⟨ne_zero_of_toNat_pos (by omega), ne_zero_of_toNat_pos (by omega)⟩
  have htail : ¬(b (p + 1) &&& 0xC0 ≠ 0x80 ∨ b (p + 2) &&& 0xC0 ≠ 0x80) :=
    not_or.2 ⟨not_not.2 ((tail_iff _).2 h1), not_not.2 ((tail_iff _).2 h2)⟩
  have hgood : ¬(cp < 0x800 ∨ cp ≥ 0xD800 ∧ cp ≤ 0xDFFF) := by
    rw [IsScalar] at hscalar
    omega
  simp only [utf8Pull, if_neg (ne_zero_of_toNat_pos (show 0 < (b p).toNat by omega)), if_neg hascii,
    if_neg hlead, if_pos ((lead3_iff _).2 h0), if_neg hnul, if_neg htail, codePoint3_eq, hcp,
    if_neg hgood]

/-- A character of four bytes is decoded. -/
theorem utf8Pull_four (h0 : 240 ≤ (b p).toNat ∧ (b p).toNat < 248)
    (h1 : 128 ≤ (b (p + 1)).toNat ∧ (b (p + 1)).toNat < 192)
    (h2 : 128 ≤ (b (p + 2)).toNat ∧ (b (p + 2)).toNat < 192)
    (h3 : 128 ≤ (b (p + 3)).toNat ∧ (b (p + 3)).toNat < 192) {cp : ℕ}
    (hcp : (b p).toNat % 8 * 262144 + (b (p + 1)).toNat % 64 * 4096 + (b (p + 2)).toNat % 64 * 64 +
      (b (p + 3)).toNat % 64 = cp)
    (hlong : 0x10000 ≤ cp) (hmax : cp ≤ 0x10FFFF) : utf8Pull b p = some (cp, p + 4) := by
  have hascii : ¬b p < 0x80 := fun hc ↦ by
    have hc' : (b p).toNat < 128 := hc
    omega
  have hlead2 : ¬b p &&& 0xE0 = 0xC0 := fun hc ↦ by
    have hc' := (lead2_iff _).1 hc
    omega
  have hlead3 : ¬b p &&& 0xF0 = 0xE0 := fun hc ↦ by
    have hc' := (lead3_iff _).1 hc
    omega
  have hnul : ¬(b (p + 1) = 0 ∨ b (p + 2) = 0 ∨ b (p + 3) = 0) :=
    not_or.2 ⟨ne_zero_of_toNat_pos (by omega),
      not_or.2 ⟨ne_zero_of_toNat_pos (by omega), ne_zero_of_toNat_pos (by omega)⟩⟩
  have htail : ¬(b (p + 1) &&& 0xC0 ≠ 0x80 ∨ b (p + 2) &&& 0xC0 ≠ 0x80 ∨ b (p + 3) &&& 0xC0 ≠ 0x80) :=
    not_or.2 ⟨not_not.2 ((tail_iff _).2 h1),
      not_or.2 ⟨not_not.2 ((tail_iff _).2 h2), not_not.2 ((tail_iff _).2 h3)⟩⟩
  have hgood : ¬(cp < 0x10000 ∨ cp > 0x10FFFF) := by omega
  simp only [utf8Pull, if_neg (ne_zero_of_toNat_pos (show 0 < (b p).toNat by omega)), if_neg hascii,
    if_neg hlead2, if_neg hlead3, if_pos ((lead4_iff _).2 h0), if_neg hnul, if_neg htail, codePoint4_eq,
    hcp, if_neg hgood]

/-- A character is a scalar value. -/
theorem isScalar_toNat (c : Char) : IsScalar c.toNat := by
  rcases c.valid with h | ⟨h, h'⟩
  · exact Or.inl h
  · exact Or.inr ⟨h, Nat.le_of_lt_succ h'⟩

/-- A step takes off the sequence of one character. -/
theorem utf8Pull_encodeChar {c : Char} (hc : c.toNat ≠ 0) {t : List Byte}
    (h : b.IsString p (encodeChar c ++ t)) :
    utf8Pull b p = some (c.toNat, p + (encodeChar c).length) := by
  have hscalar := isScalar_toNat c
  have hmax : c.toNat ≤ 0x10FFFF := by
    rw [IsScalar] at hscalar
    omega
  rw [encodeChar_eq] at h ⊢
  -- the encoding has one to four bytes, and their bounds decide which branch is taken
  split at h
  next h7 =>
    have hb : (b p).toNat = c.toNat := by
      rw [h.1, BitVec.toNat_ofNat]
      omega
    have hpull := utf8Pull_one (b := b) (p := p) (by omega) (by omega)
    rw [hpull, hb, if_pos h7]
    rfl
  next h7 =>
  split at h
  next h11 =>
    obtain ⟨h0, -, h1, -⟩ := h
    have hb0 : (b p).toNat = c.toNat / 64 % 32 + 192 := by
      rw [h0, BitVec.toNat_ofNat]
      omega
    have hb1 : (b (p + 1)).toNat = c.toNat % 64 + 128 := by
      rw [h1, BitVec.toNat_ofNat]
      omega
    have hpull := utf8Pull_two (b := b) (p := p) (by omega) (by omega)
    have hval : (b p).toNat % 32 * 64 + (b (p + 1)).toNat % 64 = c.toNat := by omega
    rw [hpull, hval, if_neg h7, if_pos h11]
    rfl
  next h11 =>
  split at h
  next h16 =>
    obtain ⟨h0, -, h1, -, h2, -⟩ := h
    have hb0 : (b p).toNat = c.toNat / 4096 % 16 + 224 := by
      rw [h0, BitVec.toNat_ofNat]
      omega
    have hb1 : (b (p + 1)).toNat = c.toNat / 64 % 64 + 128 := by
      rw [h1, BitVec.toNat_ofNat]
      omega
    have hb2 : (b (p + 2)).toNat = c.toNat % 64 + 128 := by
      rw [h2, BitVec.toNat_ofNat]
      omega
    rw [utf8Pull_three (by omega) (by omega) (by omega) (by omega) (by omega) hscalar, if_neg h7,
      if_neg h11, if_pos h16]
    rfl
  next h16 =>
    obtain ⟨h0, -, h1, -, h2, -, h3, -⟩ := h
    have hb0 : (b p).toNat = c.toNat / 262144 % 8 + 240 := by
      rw [h0, BitVec.toNat_ofNat]
      omega
    have hb1 : (b (p + 1)).toNat = c.toNat / 4096 % 64 + 128 := by
      rw [h1, BitVec.toNat_ofNat]
      omega
    have hb2 : (b (p + 2)).toNat = c.toNat / 64 % 64 + 128 := by
      rw [h2, BitVec.toNat_ofNat]
      omega
    have hb3 : (b (p + 3)).toNat = c.toNat % 64 + 128 := by
      rw [h3, BitVec.toNat_ofNat]
      omega
    rw [utf8Pull_four (by omega) (by omega) (by omega) (by omega) (by omega) (by omega) hmax, if_neg h7,
      if_neg h11, if_neg h16]
    rfl

/-- No byte of a sequence is NUL but that of the character NUL. -/
theorem zero_notMem_encodeChar {c : Char} (hc : c.toNat ≠ 0) : (0 : Byte) ∉ encodeChar c := by
  have hne : ∀ n : ℕ, n % 256 ≠ 0 → (0 : Byte) ≠ BitVec.ofNat 8 n := by
    intro n hn heq
    have hnat := congrArg BitVec.toNat heq
    rw [BitVec.toNat_ofNat] at hnat
    exact hn hnat.symm
  rw [encodeChar_eq]
  split
  next => simpa using hne _ (by omega)
  next =>
  split
  next =>
    rw [List.mem_cons, List.mem_singleton, not_or]
    exact ⟨hne _ (by omega), hne _ (by omega)⟩
  next =>
  split
  next =>
    rw [List.mem_cons, List.mem_cons, List.mem_singleton, not_or, not_or]
    exact ⟨hne _ (by omega), hne _ (by omega), hne _ (by omega)⟩
  next =>
    rw [List.mem_cons, List.mem_cons, List.mem_cons, List.mem_singleton, not_or, not_or, not_or]
    exact ⟨hne _ (by omega), hne _ (by omega), hne _ (by omega), hne _ (by omega)⟩

theorem encodeChar_length_pos (c : Char) : 0 < (encodeChar c).length := by
  rw [encodeChar_eq]
  split
  · exact Nat.one_pos
  split
  · exact Nat.two_pos
  split <;> exact Nat.succ_pos _

/-- The iteration over an encoded text gives back the text. -/
theorem pullAll_encode {cs : List Char} (hcs : ∀ c ∈ cs, c.toNat ≠ 0) (h : b.IsString p (encode cs))
    {fuel : ℕ} (hfuel : (encode cs).length < fuel) : pullAll b fuel p = some (cs.map Char.toNat) := by
  induction cs generalizing p fuel with
  | nil =>
    obtain ⟨fuel, rfl⟩ : ∃ m, fuel = m + 1 := ⟨fuel - 1, by omega⟩
    have hend : b p = 0 := h
    simp [pullAll, utf8Pull, hend]
  | cons c cs ih =>
    obtain ⟨fuel, rfl⟩ : ∃ m, fuel = m + 1 := ⟨fuel - 1, by omega⟩
    rw [List.forall_mem_cons] at hcs
    rw [encode, List.flatMap_cons, ← encode] at h hfuel
    rw [List.length_append] at hfuel
    have hpos := encodeChar_length_pos c
    rw [pullAll_succ_of_pulled (utf8Pull_encodeChar hcs.1 h), ih hcs.2 h.of_append (by omega)]
    rfl

/-! ### Main result -/

/-- Decoding undoes encoding, and on every string it ends, stays within the string and gives scalar
values only. -/
theorem utf8Pull_correct :
    (∀ cs : List Char, (∀ c ∈ cs, c.toNat ≠ 0) → 0 ∉ encode cs ∧ ∀ b p, b.IsString p (encode cs) →
      ∀ fuel, (encode cs).length < fuel → pullAll b fuel p = some (cs.map Char.toNat)) ∧
    ∀ b p s, b.IsString p s →
      (∃ l, (∀ fuel, s.length < fuel → pullAll b fuel p = some l) ∧ ∀ cp ∈ l, IsScalar cp) ∧
      ∀ i < s.length, Pulled (s.drop i) (p + i) (utf8Pull b (p + i)) := by
  refine ⟨fun cs hcs ↦ ⟨?_, fun b p h fuel hfuel ↦ pullAll_encode hcs h hfuel⟩, fun b p s h ↦
    ⟨exists_pullAll h, fun i hi ↦ utf8Pull_spec (h.drop hi.le) ?_⟩⟩
  · intro hmem
    obtain ⟨c, hc, hmem⟩ := List.mem_flatMap.1 hmem
    exact zero_notMem_encodeChar (hcs c hc) hmem
  · rw [Ne, List.drop_eq_nil_iff, not_le]
    exact hi

/-- A text with characters of one to four bytes is decoded, and a lead byte at the end of a string gives
some character. -/
theorem utf8Pull_correct_text :
    pullAll (fun i ↦ (encode ['a', 'é', '€', '😀']).getD i 0) 11 0 = some [97, 233, 0x20AC, 0x1F600] ∧
      ∃ l, pullAll (fun i ↦ [0xE2#8].getD i 0) 2 0 = some l ∧ ∀ cp ∈ l, IsScalar cp := by
  obtain ⟨hencoded, hany⟩ := utf8Pull_correct
  obtain ⟨-, htext⟩ := hencoded ['a', 'é', '€', '😀'] (by simp)
  refine ⟨htext _ 0 (by decide) 11 (by decide), ?_⟩
  obtain ⟨⟨l, hl, hscalar⟩, -⟩ := hany (fun i ↦ [0xE2#8].getD i 0) 0 [0xE2#8] (by decide)
  exact ⟨l, hl 2 (by decide), hscalar⟩

end FbConsole

end MiniExt4
