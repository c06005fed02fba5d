import MiniExt4.Machine.Bytes

/-!
# Segment descriptors (`mm/gdt.cpp`)

A descriptor scatters a 32-bit base and a 20-bit limit over eight bytes. A limit over 65536 is stored
in pages, with the two flags of byte 6 set, and `Limit` scales it back. `Base` tests the same flags and
scales the base too, which is in bytes whatever the flags are: the base stored is right and the base
read back is not.

The bytes are compared as numbers: `shiftIn` puts a byte behind others, and what a run of bytes decodes to
is a sum (`toNat_shiftIn`). `scaled_new` says which descriptors have the flags of byte 6 set, and with it
`base_new` and `limit_new` what the two accessors return.
-/

namespace MiniExt4

namespace Gdt

/-- `GlobalDescriptorTable::SegmentDescriptor`, as the eight bytes its members write and read. -/
structure SegmentDescriptor where
  target : Vector Byte 8

/-- The limit in the unit of the descriptor: bytes up to 65536, else pages, one page less where the
last page is not whole. -/
def storedLimit (limit : BitVec 32) : BitVec 32 :=
  if limit ≤ 65536 then limit
  else if limit &&& 0xFFF ≠ 0xFFF then (limit >>> 12) - 1
  else limit >>> 12

/-- What `target[6]` is set to first. -/
def flags (limit : BitVec 32) : Byte := if limit ≤ 65536 then 0x40 else 0xC0

/-- A byte of a 32-bit value: `(v >> s) & 0xFF`. -/
def byteAt (v : BitVec 32) (s : ℕ) : Byte := ((v >>> s) &&& 0xFF).setWidth 8

/-- `SegmentDescriptor::SegmentDescriptor(base, limit, type)` -/
def SegmentDescriptor.new (base limit : BitVec 32) (type : Byte) : SegmentDescriptor :=
  let stored := storedLimit limit
  ⟨#v[byteAt stored 0, byteAt stored 8, byteAt base 0, byteAt base 8, byteAt base 16, type,
    flags limit ||| byteAt stored 16, byteAt base 24]⟩

/-- `result = (result << 8) + target[i]` -/
def shiftIn (result : BitVec 32) (b : Byte) : BitVec 32 := (result <<< 8) + b.setWidth 32

/-- The end of both decoders: with both flags of byte 6 the value counts pages. -/
def scaled (d : SegmentDescriptor) (result : BitVec 32) : BitVec 32 :=
  if d.target[6] &&& 0xC0 = 0xC0 then (result <<< 12) ||| 0xFFF else result

/-- The base that bytes 7, 4, 3 and 2 hold. -/
def SegmentDescriptor.baseField (d : SegmentDescriptor) : BitVec 32 :=
  shiftIn (shiftIn (shiftIn (d.target[7].setWidth 32) d.target[4]) d.target[3]) d.target[2]

/-- `SegmentDescriptor::Base()` -/
def SegmentDescriptor.base (d : SegmentDescriptor) : BitVec 32 := scaled d d.baseField

/-- The limit that bytes 6, 1 and 0 hold. -/
def SegmentDescriptor.limitField (d : SegmentDescriptor) : BitVec 32 :=
  shiftIn (shiftIn ((d.target[6] &&& 0xF).setWidth 32) d.target[1]) d.target[0]

/-- `SegmentDescriptor::Limit()` -/
def SegmentDescriptor.limit (d : SegmentDescriptor) : BitVec 32 := scaled d d.limitField

/-- The descriptors of `GlobalDescriptorTable`. -/
structure GlobalDescriptorTable where
  nullSegmentSelector : SegmentDescriptor
  unusedSegmentSelector : SegmentDescriptor
  codeSegmentSelector : SegmentDescriptor
  dataSegmentSelector : SegmentDescriptor

/-- `GlobalDescriptorTable::GlobalDescriptorTable()` -/
def GlobalDescriptorTable.new : GlobalDescriptorTable where
  nullSegmentSelector := .new 0 0 0
  unusedSegmentSelector := .new 0 0 0
  codeSegmentSelector := .new 0 (64 * 1024 * 1024) 0x9A
  dataSegmentSelector := .new 0 (64 * 1024 * 1024) 0x92

/-! ### Bytes of a value -/

theorem toNat_byteAt (v : BitVec 32) (s : ℕ) : (byteAt v s).toNat = v.toNat / 2 ^ s % 256 := by
  have hand : v.toNat >>> s &&& 255 = v.toNat >>> s % 256 := Nat.and_two_pow_sub_one_eq_mod _ 8
  rw [byteAt, BitVec.toNat_setWidth, BitVec.toNat_and, BitVec.toNat_ushiftRight]
  change (v.toNat >>> s &&& 255) % 256 = _
  rw [hand, Nat.mod_mod, Nat.shiftRight_eq_div_pow]

theorem toNat_shiftIn {r : BitVec 32} (b : Byte) (hr : r.toNat < 2 ^ 24) :
    (shiftIn r b).toNat = r.toNat * 256 + b.toNat := by
  have hb := b.isLt
  simp only [shiftIn, BitVec.toNat_add, BitVec.toNat_shiftLeft, BitVec.toNat_setWidth,
    Nat.shiftLeft_eq]
  omega

/-- Counting in pages, the last byte of page `r`. -/
theorem toNat_pages (r : BitVec 32) :
    ((r <<< 12) ||| 0xFFF).toNat = 4096 * (r.toNat % 2 ^ 20) + 4095 := by
  have hor : 4096 * (r.toNat % 2 ^ 20) + 4095 = 4096 * (r.toNat % 2 ^ 20) ||| 4095 :=
    @Nat.two_pow_add_eq_or_of_lt 12 4095 (by decide) _
  have hshift : r.toNat * 4096 % 2 ^ 32 = 4096 * (r.toNat % 2 ^ 20) := by omega
  rw [hor, BitVec.toNat_or, BitVec.toNat_shiftLeft, Nat.shiftLeft_eq]
  simpa using congrArg (· ||| 4095) hshift

/-! ### What the constructor stores -/

variable (base limit : BitVec 32) (type : Byte)

theorem le_or_lt : limit ≤ 65536 ∨ 65536 < limit := le_or_gt limit.toNat 65536

theorem toNat_storedLimit_of_le {limit : BitVec 32} (h : limit ≤ 65536) :
    (storedLimit limit).toNat = limit.toNat := by
  rw [storedLimit, if_pos h]

theorem toNat_storedLimit_of_lt {limit : BitVec 32} (h : 65536 < limit) :
    (storedLimit limit).toNat =
      if limit.toNat % 4096 = 4095 then limit.toNat / 4096 else limit.toNat / 4096 - 1 := by
  have hlt : 65536 < limit.toNat := h
  have hmod : (limit &&& 0xFFF).toNat = limit.toNat % 4096 := by
    rw [BitVec.toNat_and]
    exact Nat.and_two_pow_sub_one_eq_mod _ 12
  have hiff : (limit &&& 0xFFF = 0xFFF) ↔ limit.toNat % 4096 = 4095 := by
    rw [← hmod, BitVec.toNat_eq]
    rfl
  have hpages : (limit >>> 12).toNat = limit.toNat / 4096 := by
    rw [BitVec.toNat_ushiftRight, Nat.shiftRight_eq_div_pow]
  rw [storedLimit, if_neg (BitVec.not_le.2 h)]
  by_cases hwhole : limit.toNat % 4096 = 4095
  · rw [if_neg (not_not.2 (hiff.2 hwhole)), if_pos hwhole, hpages]
  · rw [if_pos fun hc ↦ hwhole (hiff.1 hc), if_neg hwhole,
      BitVec.toNat_sub_of_le (by rw [BitVec.le_def, hpages]; change 1 ≤ _; omega), hpages]
    rfl

/-- Either way the limit fits the 20 bits it has. -/
theorem storedLimit_lt : (storedLimit limit).toNat < 2 ^ 20 := by
  rcases le_or_lt limit with h | h
  · have hle : limit.toNat ≤ 65536 := h
    rw [toNat_storedLimit_of_le h]
    omega
  · rw [toNat_storedLimit_of_lt h]
    have hlt := limit.isLt
    split <;> omega

/-- Four bits under either flag byte: the flags and the bits are both read back. -/
theorem flags_or (h : Byte) (hh : h < 16) :
    ((flags limit ||| h) &&& 0xC0 = 0xC0 ↔ 65536 < limit) ∧ (flags limit ||| h) &&& 0xF = h := by
  have hsmall : ∀ h : Byte, h < 16 →
      ¬(0x40 ||| h) &&& 0xC0 = 0xC0 ∧ (0x40 ||| h) &&& 0xF = h := by decide
  have hlarge : ∀ h : Byte, h < 16 →
      (0xC0 ||| h) &&& 0xC0 = 0xC0 ∧ (0xC0 ||| h) &&& 0xF = h := by decide
  rcases le_or_lt limit with hle | hgt
  · rw [flags, if_pos hle]
    exact ⟨⟨fun hc ↦ absurd hc (hsmall h hh).1, fun hc ↦ absurd hc (BitVec.not_lt.2 hle)⟩, (hsmall h hh).2⟩
  · rw [flags, if_neg (BitVec.not_le.2 hgt)]
    exact ⟨⟨fun _ ↦ hgt, fun _ ↦ (hlarge h hh).1⟩, (hlarge h hh).2⟩

theorem byteAt_storedLimit_lt : byteAt (storedLimit limit) 16 < 16 := by
  have hlt := storedLimit_lt limit
  rw [BitVec.lt_def, toNat_byteAt]
  change _ < 16
  omega

/-- The bytes of the base give back the base, whatever the limit is. -/
theorem baseField_new : (SegmentDescriptor.new base limit type).baseField = base := by
  have hb := base.isLt
  have h24 : ((byteAt base 24).setWidth 32).toNat = base.toNat / 2 ^ 24 := by
    rw [BitVec.toNat_setWidth, toNat_byteAt]
    omega
  refine BitVec.eq_of_toNat_eq ?_
  change (shiftIn (shiftIn (shiftIn ((byteAt base 24).setWidth 32) (byteAt base 16)) (byteAt base 8))
    (byteAt base 0)).toNat = _
  have h16 := toNat_shiftIn (byteAt base 16) (by rw [h24]; omega)
  have h8 := toNat_shiftIn (byteAt base 8) (by rw [h16, h24, toNat_byteAt]; omega)
  have h0 := toNat_shiftIn (byteAt base 0) (by rw [h8, h16, h24, toNat_byteAt, toNat_byteAt]; omega)
  rw [h0, h8, h16, h24, toNat_byteAt, toNat_byteAt, toNat_byteAt]
  omega

/-- So do the bytes of the stored limit. -/
theorem limitField_new : (SegmentDescriptor.new base limit type).limitField = storedLimit limit := by
  have hlt := storedLimit_lt limit
  have h16 : ((byteAt (storedLimit limit) 16).setWidth 32).toNat = (storedLimit limit).toNat / 2 ^ 16 := by
    rw [BitVec.toNat_setWidth, toNat_byteAt]
    omega
  refine BitVec.eq_of_toNat_eq ?_
  change (shiftIn (shiftIn (((flags limit ||| byteAt (storedLimit limit) 16) &&& 0xF).setWidth 32)
    (byteAt (storedLimit limit) 8)) (byteAt (storedLimit limit) 0)).toNat = _
  have h8 := toNat_shiftIn (byteAt (storedLimit limit) 8) (by rw [h16]; omega)
  have h0 := toNat_shiftIn (byteAt (storedLimit limit) 0) (by rw [h8, h16, toNat_byteAt]; omega)
  rw [(flags_or limit _ (byteAt_storedLimit_lt limit)).2, h0, h8, h16, toNat_byteAt, toNat_byteAt]
  omega

/-- Both decoders scale exactly when the limit is over 65536. -/
theorem scaled_new (r : BitVec 32) :
    scaled (.new base limit type) r = if 65536 < limit then (r <<< 12) ||| 0xFFF else r := by
  have hflags := (flags_or limit _ (byteAt_storedLimit_lt limit)).1
  rw [scaled]
  exact if_congr hflags rfl rfl

theorem base_new :
    (SegmentDescriptor.new base limit type).base =
      if 65536 < limit then (base <<< 12) ||| 0xFFF else base := by
  rw [SegmentDescriptor.base, scaled_new, baseField_new]

theorem limit_new :
    (SegmentDescriptor.new base limit type).limit =
      if 65536 < limit then (storedLimit limit <<< 12) ||| 0xFFF else limit := by
  rw [SegmentDescriptor.limit, scaled_new, limitField_new]
  split
  next => rfl
  next h => exact BitVec.eq_of_toNat_eq (toNat_storedLimit_of_le (BitVec.not_lt.1 h))

/-! ### Decoding what was encoded -/

/-- The last bytes of pages, up to `n`. -/
def pageEnds (n : ℕ) : Set ℕ := {e | (∃ k, e = 4096 * k + 4095) ∧ e ≤ n}

/-- `d` decodes to the base, and to the limit up to whole pages. -/
structure Decodes (base limit : BitVec 32) (d : SegmentDescriptor) : Prop where
  base : d.base = base
  small : limit ≤ 65536 → d.limit = limit
  large : 65536 < limit → IsGreatest (pageEnds limit.toNat) d.limit.toNat

/-- A limit over 65536 is rounded down to the end of a page. -/
theorem isGreatest_limit {limit : BitVec 32} (h : 65536 < limit) :
    IsGreatest (pageEnds limit.toNat) (SegmentDescriptor.new base limit type).limit.toNat := by
  have hgt : 65536 < limit.toNat := h
  have hstored := toNat_storedLimit_of_lt h
  have hfits := storedLimit_lt limit
  rw [limit_new, if_pos h, toNat_pages, Nat.mod_eq_of_lt hfits]
  refine ⟨⟨⟨_, rfl⟩, ?_⟩, ?_⟩
  · split at hstored <;> omega
  · rintro e ⟨⟨k, rfl⟩, hk⟩
    split at hstored <;> omega

/-- Scaling keeps one base only. -/
theorem pages_eq_iff : (base <<< 12) ||| 0xFFF = base ↔ base = 0xFFFFFFFF := by
  have hlt := base.isLt
  rw [BitVec.toNat_eq, toNat_pages, BitVec.toNat_eq]
  change _ ↔ base.toNat = 4294967295
  omega

/-- The descriptor decodes to what was encoded exactly when the limit is stored in bytes, or the base
is the one that scaling keeps. -/
theorem decodes_new_iff :
    Decodes base limit (.new base limit type) ↔ limit ≤ 65536 ∨ base = 0xFFFFFFFF := by
  constructor
  · intro h
    rcases le_or_lt limit with hle | hgt
    · exact Or.inl hle
    · have hbase := h.base
      rw [base_new, if_pos hgt] at hbase
      exact Or.inr ((pages_eq_iff base).1 hbase)
  · intro h
    refine ⟨?_, fun hle ↦ ?_, isGreatest_limit base type⟩
    · rw [base_new]
      split
      next hgt =>
        rcases h with hle | rfl
        · exact absurd hgt (BitVec.not_lt.2 hle)
        · rfl
      next => rfl
    · rw [limit_new, if_neg (BitVec.not_lt.2 hle)]

/-- The base of the code segment of the table is read back as 4095. -/
theorem not_decodes_codeSegment :
    ¬Decodes 0 (64 * 1024 * 1024) GlobalDescriptorTable.new.codeSegmentSelector := by
  intro h
  exact absurd h.base (by decide)

end Gdt

end MiniExt4
