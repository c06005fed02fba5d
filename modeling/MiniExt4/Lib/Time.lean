import MiniExt4.Machine.Blocks

/-!
# Unix time to calendar date (`lib/time.cpp`)

`break_unix_time` takes off years and then months from a count of days. Both loops locate a number among
blocks of varying length. No step of it leaves the range of an `unsigned long`.

A day of the month, a month and a year are what `locate` gives for a count of days, first over the lengths
of years and then over those of months (`yearLoop_eq`, `monthLoop_eq`). The inverse is a sum, and the order
of two times is that of their dates because `locate` keeps the order. What is added here is the calendar:
how long a year and its months are, and that the bounds of `Valid` are those of a date.
-/

namespace MiniExt4

namespace Time

/-- The 4/100/400 rule. -/
def isLeapYear (year : ℕ) : Bool := (year % 4 = 0 ∧ year % 100 ≠ 0) ∨ year % 400 = 0

/-- `ydays` -/
def yearDays (year : ℕ) : ℕ := if isLeapYear year then 366 else 365

/-- `month_lengths` as it is initialised, also `days_in_month`. -/
def monthLengths (month : ℕ) : ℕ := [31, 28, 31, 30, 31, 30, 31, 31, 30, 31, 30, 31].getD month 0

/-- `month_lengths` after `month_lengths[1] = 29` in a leap year. -/
def monthLengthsOf (year : ℕ) : ℕ → ℕ :=
  if isLeapYear year then Function.update monthLengths 1 29 else monthLengths

/-- What `break_unix_time` stores. -/
structure BrokenTime where
  year : ℕ
  mon : ℕ
  day : ℕ
  hour : ℕ
  min : ℕ
  sec : ℕ
  wday : ℕ
  deriving DecidableEq

/-- The loop over years. An iteration takes a year off `days`, so `days` bounds the iterations. -/
def yearLoop : ℕ → ℕ → ℕ → ℕ × ℕ
  | 0, days, year => (days, year)
  | fuel + 1, days, year =>
    if days ≥ yearDays year then yearLoop fuel (days - yearDays year) (year + 1) else (days, year)

/-- The loop over months, of at most 12 iterations. -/
def monthLoop (lengths : ℕ → ℕ) : ℕ → ℕ → ℕ → ℕ × ℕ
  | 0, days, month => (days, month)
  | fuel + 1, days, month =>
    if month < 12 ∧ days ≥ lengths month then monthLoop lengths fuel (days - lengths month) (month + 1)
    else (days, month)

/-- `break_unix_time(secs)` -/
def breakUnixTime (secs : ℕ) : BrokenTime :=
  let days := secs / 86400
  let rem := secs % 86400
  let wday := (days + 4) % 7
  let (days, year) := yearLoop days days 1970
  let (days', month) := monthLoop (monthLengthsOf year) 12 days 0
  { year
    mon := month + 1
    day := days' + 1
    hour := rem / 3600
    min := rem % 3600 / 60
    sec := rem % 3600 % 60
    wday }

/-! ### Years and months as blocks of days -/

theorem yearDays_pos (year : ℕ) : 0 < yearDays year := by
  rw [yearDays]
  split <;> decide

theorem yearLoop_eq (fuel days year : ℕ) :
    yearLoop fuel days year = Blocks.locate yearDays fuel days year := by
  induction fuel generalizing days year with
  | zero => rfl
  | succ fuel ih => rw [yearLoop, Blocks.locate, ih]

theorem monthLoop_eq (lengths : ℕ → ℕ) {fuel days month : ℕ} (h : month + fuel ≤ 12) :
    monthLoop lengths fuel days month = Blocks.locate lengths fuel days month := by
  induction fuel generalizing days month with
  | zero => rfl
  | succ fuel ih =>
    rw [monthLoop, Blocks.locate, ih (by omega)]
    exact if_congr (and_iff_right (by omega)) rfl rfl

/-- The months before month `m` of a year: those of any year, and the leap day once February is over. -/
theorem start_monthLengthsOf (year : ℕ) {m : ℕ} (hm : m ≤ 12) :
    Blocks.start (monthLengthsOf year) 0 m =
      Blocks.start monthLengths 0 m + if 2 ≤ m ∧ isLeapYear year then 1 else 0 := by
  rw [monthLengthsOf]
  cases isLeapYear year <;> interval_cases m <;> rfl

/-- The twelve months make the year. -/
theorem start_monthLengthsOf_twelve (year : ℕ) :
    Blocks.start (monthLengthsOf year) 0 12 = yearDays year := by
  rw [start_monthLengthsOf year le_rfl, yearDays]
  cases isLeapYear year <;> rfl

/-! ### Dates -/

namespace BrokenTime

/-- A date of the Gregorian calendar and a time of day. -/
structure Valid (t : BrokenTime) : Prop where
  mon_pos : 1 ≤ t.mon
  mon_le : t.mon ≤ 12
  day_pos : 1 ≤ t.day
  day_le : t.day ≤ monthLengthsOf t.year (t.mon - 1)
  hour_lt : t.hour < 24
  min_lt : t.min < 60
  sec_lt : t.sec < 60

/-- The days before the date, from the start of 1970 on. -/
def days (t : BrokenTime) : ℕ :=
  Blocks.start yearDays 1970 t.year + (Blocks.start (monthLengthsOf t.year) 0 (t.mon - 1) + (t.day - 1))

/-- The seconds before the date and time. -/
def secs (t : BrokenTime) : ℕ := t.days * 86400 + t.hour * 3600 + t.min * 60 + t.sec

/-- The date from the year down to the second, to be compared lexicographically. -/
def fields (t : BrokenTime) : List ℕ := [t.year, t.mon, t.day, t.hour, t.min, t.sec]

variable {t u : BrokenTime}

/-- The day of the year is one of the year. -/
theorem Valid.dayOfYear_lt (h : t.Valid) :
    Blocks.start (monthLengthsOf t.year) 0 (t.mon - 1) + (t.day - 1) < yearDays t.year := by
  have hpos := h.mon_pos
  have hle := h.mon_le
  have hday := h.day_le
  have hday' := h.day_pos
  have hlt := Blocks.start_add_lt (l := 12) (Nat.zero_le (t.mon - 1)) (by omega)
    (show t.day - 1 < monthLengthsOf t.year (t.mon - 1) by omega)
  rwa [start_monthLengthsOf_twelve] at hlt

/-- A date that comes later has more seconds before it. -/
theorem Valid.secs_lt (ht : t.Valid) (hu : u.Valid) (ht0 : 1970 ≤ t.year) (h : t.fields < u.fields) :
    t.secs < u.secs := by
  have hh := ht.hour_lt
  have hm := ht.min_lt
  have hs := ht.sec_lt
  have hearlier : t.days < u.days → t.secs < u.secs := by
    intro hlt
    rw [secs, secs]
    omega
  simp only [fields, List.cons_lt_cons_iff, List.not_lt_nil, and_false, or_false] at h
  rcases h with hyear | ⟨hyear, hmon | ⟨hmon, hday⟩⟩
  · have hlt := Blocks.start_add_lt ht0 hyear ht.dayOfYear_lt
    exact hearlier (by rw [days, days]; omega)
  · have hpos := ht.mon_pos
    have hday := ht.day_le
    have hday' := ht.day_pos
    have hlt := Blocks.start_add_lt (Nat.zero_le (t.mon - 1)) (show t.mon - 1 < u.mon - 1 by omega)
      (show t.day - 1 < monthLengthsOf t.year (t.mon - 1) by omega)
    refine hearlier ?_
    rw [days, days, ← hyear]
    omega
  · have hpos := ht.day_pos
    have hstart : t.days + u.day = u.days + t.day := by
      have hpos' := hu.day_pos
      rw [days, days, ← hyear, ← hmon]
      omega
    rw [secs, secs]
    omega

/-- The years that 32 bits of seconds reach, from 2000 on. -/
theorem Valid.year_bounds (h : t.Valid) (hyear : 1970 ≤ t.year) (hlo : 946684800 ≤ t.secs)
    (hhi : t.secs < 2 ^ 32) : 2000 ≤ t.year ∧ t.year ≤ 2106 := by
  have h2000 : Blocks.start yearDays 1970 2000 = 10957 := by decide +kernel
  have h2107 : 49710 < Blocks.start yearDays 1970 2107 := by decide +kernel
  have hh := h.hour_lt
  have hm := h.min_lt
  have hs := h.sec_lt
  rw [secs] at hlo hhi
  constructor
  · rcases Nat.lt_or_ge t.year 2000 with hlt | hge
    · have hdays := Blocks.start_add_lt hyear hlt h.dayOfYear_lt
      rw [← days] at hdays
      omega
    · exact hge
  · rcases Nat.lt_or_ge 2106 t.year with hlt | hge
    · have hmono := @Blocks.start_mono yearDays 1970 _ _ (show 2107 ≤ t.year from hlt)
      have hdays : Blocks.start yearDays 1970 t.year ≤ t.days := Nat.le_add_right _ _
      omega
    · exact hge

end BrokenTime

/-! ### The date of a time -/

/-- The conversion undoes the count of seconds, and what it gives is a date. -/
theorem breakUnixTime_spec (secs : ℕ) :
    (breakUnixTime secs).Valid ∧ 1970 ≤ (breakUnixTime secs).year ∧ (breakUnixTime secs).secs = secs := by
  obtain ⟨year, doy, hyear, -, hdoy, hdays⟩ :=
    Blocks.exists_start_add (by omega) (@Blocks.lt_start yearDays 1970 yearDays_pos (secs / 86400))
  obtain ⟨mon, dom, -, hmon, hdom, hdoy'⟩ := Blocks.exists_start_add (a := 0) (l := 12)
    (Nat.zero_le _) (hdoy.trans_eq (start_monthLengthsOf_twelve year).symm)
  have hyears := Blocks.le_start yearDays_pos hyear
  have hyearLoop : yearLoop (secs / 86400) (secs / 86400) 1970 = (doy, year) := by
    have hloc := @Blocks.locate_start_add _ _ _ _ (secs / 86400) hyear hdoy (by omega)
    rwa [← hdays, ← yearLoop_eq] at hloc
  have hmonthLoop : monthLoop (monthLengthsOf year) 12 doy 0 = (dom, mon) := by
    have hloc := @Blocks.locate_start_add _ _ _ _ 12 (Nat.zero_le mon) hdom (by omega)
    rwa [← hdoy', ← monthLoop_eq _ (by omega)] at hloc
  have hbreak : breakUnixTime secs = ⟨year, mon + 1, dom + 1, secs % 86400 / 3600,
      secs % 86400 % 3600 / 60, secs % 86400 % 3600 % 60, (secs / 86400 + 4) % 7⟩ := by
    simp only [breakUnixTime, hyearLoop, hmonthLoop]
  rw [hbreak]
  have hhour : secs % 86400 / 3600 < 24 := by omega
  have hmin : secs % 86400 % 3600 / 60 < 60 := by omega
  have hsec : secs % 86400 % 3600 % 60 < 60 := by omega
  refine ⟨⟨Nat.le_add_left 1 mon, hmon, Nat.le_add_left 1 dom, hdom, hhour, hmin, hsec⟩, hyear, ?_⟩
  rw [BrokenTime.secs, BrokenTime.days]
  dsimp only
  rw [Nat.add_sub_cancel, Nat.add_sub_cancel, ← hdoy', ← hdays]
  omega

/-- Later times have later dates. -/
theorem fields_breakUnixTime_lt {s s' : ℕ} (h : s < s') :
    (breakUnixTime s).fields < (breakUnixTime s').fields := by
  obtain ⟨hvalid, hyear, hsecs⟩ := breakUnixTime_spec s
  obtain ⟨hvalid', hyear', hsecs'⟩ := breakUnixTime_spec s'
  rcases lt_trichotomy (breakUnixTime s).fields (breakUnixTime s').fields with hlt | heq | hgt
  · exact hlt
  · have hsame : (breakUnixTime s).secs = (breakUnixTime s').secs := by
      simp only [BrokenTime.fields, List.cons.injEq] at heq
      obtain ⟨h1, h2, h3, h4, h5, h6, -⟩ := heq
      rw [BrokenTime.secs, BrokenTime.secs, BrokenTime.days, BrokenTime.days, h1, h2, h3, h4, h5, h6]
    omega
  · have hlt := hvalid'.secs_lt hvalid hyear' hgt
    omega

end Time

end MiniExt4
