import MiniExt4.Machine.Bytes
import MiniExt4.Lib.Time

/-!
# The real-time clock (`drivers/rtc.cpp`)

`rtc_get_unix_time` reads the date from the CMOS registers and counts the seconds before it in 32 bits.
For a clock that shows what `break_unix_time` gives, it is that function's inverse.

The two directions are one statement about the clock (`Shows`): its registers, decoded or not according to
the mode bit of register B, are the fields of a date. `rtcGetUnixTime_eq` says what the function computes
for such a clock, and the inverse is a fact of the calendar from there on.
-/

namespace MiniExt4

namespace Rtc

open Time

/-- The CMOS registers, by index. They do not change while they are read. -/
abbrev Cmos : Type := ℕ → Byte

/-- `bcd_to_bin(val, use_bcd)` -/
def bcdToBin (val : Byte) (useBcd : Bool) : Byte :=
  if useBcd then (val &&& 0x0F) + (val >>> 4) * 10 else val

/-- `use_bcd`: bit 2 of status register B is clear. -/
def useBcd (cmos : Cmos) : Bool := cmos 0x0B &&& 4 = 0

/-- A register of the date or the time. -/
def field (cmos : Cmos) (i : ℕ) : ℕ := (bcdToBin (cmos i) (useBcd cmos)).toNat

/-- `year`: with a century register that makes no sense, one of 2000 to 2255. -/
def year (cmos : Cmos) : ℕ :=
  let century := (cmos 0x32).toNat
  if century ≥ 19 ∧ century ≤ 21 then century * 100 + field cmos 0x09 else 2000 + field cmos 0x09

/-- `for (i = a; i < a + n; ++i) days += f(i)` -/
def addDays (f : ℕ → ℕ) (a n : ℕ) (days : BitVec 32) : BitVec 32 :=
  (List.range' a n).foldl (fun days i ↦ days + BitVec.ofNat 32 (f i)) days

/-- `rtc_get_unix_time()` -/
def rtcGetUnixTime (cmos : Cmos) : BitVec 32 :=
  let sec := field cmos 0x00
  let min := field cmos 0x02
  let hour := field cmos 0x04
  let day := field cmos 0x07
  let month := field cmos 0x08
  let year := year cmos
  let month := if month < 1 then 1 else month
  let month := if month > 12 then 12 else month
  let day := if day < 1 then 1 else day
  let days := addDays yearDays 1970 (year - 1970) 0
  let days := addDays monthLengths 0 (month - 1) days
  let days := if month > 2 ∧ isLeapYear year then days + 1 else days
  let days := days + BitVec.ofNat 32 (day - 1)
  let secs := days * 86400
  let secs := secs + BitVec.ofNat 32 hour * 3600
  let secs := secs + BitVec.ofNat 32 min * 60
  secs + BitVec.ofNat 32 sec

/-! ### The clock shows a date -/

/-- The registers hold the date and time `t`, with a valid century. -/
structure Shows (cmos : Cmos) (t : BrokenTime) : Prop where
  sec : field cmos 0x00 = t.sec
  min : field cmos 0x02 = t.min
  hour : field cmos 0x04 = t.hour
  day : field cmos 0x07 = t.day
  mon : field cmos 0x08 = t.mon
  century : 19 ≤ (cmos 0x32).toNat ∧ (cmos 0x32).toNat ≤ 21
  year : (cmos 0x32).toNat * 100 + field cmos 0x09 = t.year

/-- A number below 100 as a register has it. -/
def encode (bcd : Bool) (n : ℕ) : Byte := BitVec.ofNat 8 (if bcd then n / 10 * 16 + n % 10 else n)

/-- The registers of a clock that is set to `t`. -/
def registers (bcd : Bool) (t : BrokenTime) : Cmos := fun i ↦
  if i = 0x0B then if bcd then 0 else 4
  else if i = 0x32 then BitVec.ofNat 8 (t.year / 100)
  else encode bcd
    (([(0x00, t.sec), (0x02, t.min), (0x04, t.hour), (0x07, t.day), (0x08, t.mon),
      (0x09, t.year % 100)].lookup i).getD 0)

theorem bcdToBin_encode (bcd : Bool) {n : ℕ} (hn : n < 100) :
    (bcdToBin (encode bcd n) bcd).toNat = n := by
  have hall : ∀ bcd, ∀ n < 100, (bcdToBin (encode bcd n) bcd).toNat = n := by decide
  exact hall bcd n hn

/-- A clock can show every date of the centuries it knows, in either format. -/
theorem shows_registers (bcd : Bool) {t : BrokenTime} (ht : t.Valid) (hlo : 1900 ≤ t.year)
    (hhi : t.year < 2200) : Shows (registers bcd t) t := by
  have hmode : useBcd (registers bcd t) = bcd := by
    cases bcd with
    | true => exact decide_eq_true (show (0 : Byte) &&& 4 = 0 by decide)
    | false => exact decide_eq_false (show (4 : Byte) &&& 4 ≠ 0 by decide)
  have hfield : ∀ i n, registers bcd t i = encode bcd n → n < 100 → field (registers bcd t) i = n := by
    intro i n hi hn
    rw [field, hmode, hi, bcdToBin_encode bcd hn]
  have hmon := ht.mon_le
  have hday : t.day ≤ 31 := by
    refine ht.day_le.trans ?_
    have hlen : ∀ leap : Bool, ∀ m < 12,
        (if leap then Function.update monthLengths 1 29 else monthLengths) m ≤ 31 := by decide
    have hpos := ht.mon_pos
    exact hlen (isLeapYear t.year) (t.mon - 1) (by omega)
  have hcentury : (registers bcd t 0x32).toNat = t.year / 100 := by
    change (BitVec.ofNat 8 (t.year / 100)).toNat = _
    rw [BitVec.toNat_ofNat]
    omega
  refine ⟨hfield _ _ rfl (ht.sec_lt.trans (by decide)), hfield _ _ rfl (ht.min_lt.trans (by decide)),
    hfield _ _ rfl (ht.hour_lt.trans (by decide)), hfield _ _ rfl (by omega), hfield _ _ rfl (by omega),
    by omega, ?_⟩
  rw [hcentury, hfield 0x09 (t.year % 100) rfl (by omega)]
  omega

/-! ### Counting the seconds -/

theorem addDays_eq (f : ℕ → ℕ) (a n : ℕ) (days : BitVec 32) :
    addDays f a n days = days + BitVec.ofNat 32 (Blocks.start f a (a + n)) := by
  induction n with
  | zero => simp [addDays]
  | succ n ih =>
    rw [addDays, List.range'_concat, List.foldl_append, ← addDays, ih, ← Nat.add_assoc,
      Blocks.start_succ (Nat.le_add_right a n), BitVec.ofNat_add, ← BitVec.add_assoc]
    simp

/-- The seconds before the date the clock shows, modulo 2^32. -/
theorem rtcGetUnixTime_eq {cmos : Cmos} {t : BrokenTime} (ht : t.Valid) (hyear : 1970 ≤ t.year)
    (h : Shows cmos t) : rtcGetUnixTime cmos = BitVec.ofNat 32 t.secs := by
  have hcmosYear : year cmos = t.year := by
    rw [year]
    exact (if_pos h.century).trans h.year
  have hmon := ht.mon_pos
  have hmon' := ht.mon_le
  have hday := ht.day_pos
  have hmonth := start_monthLengthsOf t.year (show t.mon - 1 ≤ 12 by omega)
  have hleap : (2 ≤ t.mon - 1 ∧ isLeapYear t.year = true) ↔ (t.mon > 2 ∧ isLeapYear t.year = true) :=
    and_congr_left' (by omega)
  have hdays : (if t.mon > 2 ∧ isLeapYear t.year then
        addDays monthLengths 0 (t.mon - 1) (addDays yearDays 1970 (t.year - 1970) 0) + 1
      else addDays monthLengths 0 (t.mon - 1) (addDays yearDays 1970 (t.year - 1970) 0)) +
        BitVec.ofNat 32 (t.day - 1) = BitVec.ofNat 32 t.days := by
    rw [if_congr hleap rfl rfl] at hmonth
    rw [addDays_eq, addDays_eq, Nat.add_sub_cancel' hyear, Nat.zero_add, zero_add, BrokenTime.days, hmonth]
    split <;> simp [BitVec.ofNat_add, BitVec.add_assoc]
  simp only [rtcGetUnixTime, hcmosYear, h.sec, h.min, h.hour, h.day, h.mon, if_neg (not_lt.2 hmon),
    if_neg (not_lt.2 hday), if_neg (not_lt.2 hmon'), gt_iff_lt]
  rw [hdays, BrokenTime.secs, BitVec.ofNat_add, BitVec.ofNat_add, BitVec.ofNat_add, BitVec.ofNat_mul,
    BitVec.ofNat_mul, BitVec.ofNat_mul]
  rfl

/-! ### Main result -/

/-- From 2000 on as far as 32 bits reach, a time is converted to a date, a clock that shows the date is
converted back to the time, and later times have later dates. -/
theorem breakUnixTime_inverse {s : BitVec 32} (hs : 946684800 ≤ s) :
    (breakUnixTime s.toNat).Valid ∧
      (∀ bcd, Shows (registers bcd (breakUnixTime s.toNat)) (breakUnixTime s.toNat)) ∧
      (∀ cmos, Shows cmos (breakUnixTime s.toNat) → rtcGetUnixTime cmos = s) ∧
      ∀ s', s < s' → (breakUnixTime s.toNat).fields < (breakUnixTime s'.toNat).fields := by
  obtain ⟨hvalid, hyear, hsecs⟩ := breakUnixTime_spec s.toNat
  have hlo : 946684800 ≤ s.toNat := hs
  have hhi := s.isLt
  have hyears := hvalid.year_bounds hyear (by rwa [hsecs]) (by rwa [hsecs])
  refine ⟨hvalid, fun bcd ↦ shows_registers bcd hvalid (by omega) (by omega), fun cmos hshows ↦ ?_,
    fun s' hlt ↦ fields_breakUnixTime_lt hlt⟩
  rw [rtcGetUnixTime_eq hvalid hyear hshows, hsecs, BitVec.ofNat_toNat, BitVec.setWidth_eq]

/-- The leap day of 2000. -/
theorem breakUnixTime_inverse_leapDay :
    (breakUnixTime 951782400).Valid ∧
      (∀ bcd, Shows (registers bcd (breakUnixTime 951782400)) (breakUnixTime 951782400)) ∧
      (∀ cmos, Shows cmos (breakUnixTime 951782400) → rtcGetUnixTime cmos = 951782400) ∧
      ∀ s' : BitVec 32, 951782400 < s' →
        (breakUnixTime 951782400).fields < (breakUnixTime s'.toNat).fields :=
  @breakUnixTime_inverse 951782400 (by decide)

example : (breakUnixTime 951782400).fields = [2000, 2, 29, 0, 0, 0] := by decide +kernel

end Rtc

end MiniExt4
