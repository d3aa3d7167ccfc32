/-
  Foundation/Calendar.lean --- the proleptic Gregorian calendar, day by day and second by second.

  Every date is followed by one, and every second.  How many there are between two of them is how
  often the next one is taken; the numbers of dates and instants say how many that is.
-/
import Mathlib.Tactic.IntervalCases

set_option autoImplicit false

namespace TinyFramework.Foundation

/-- A year of 366 days. -/
def IsLeapYear (y : Int) : Prop := y % 4 = 0 ∧ (y % 100 ≠ 0 ∨ y % 400 = 0)

instance (y : Int) : Decidable (IsLeapYear y) := inferInstanceAs (Decidable (_ ∧ _))

/-- Months are counted from zero. -/
def daysInMonth (y : Int) (m : Nat) : Int :=
  if m = 1 then if IsLeapYear y then 29 else 28
  else if m = 3 ∨ m = 5 ∨ m = 8 ∨ m = 10 then 30
  else 31

theorem daysInMonth_pos (y : Int) (m : Nat) : 28 ≤ daysInMonth y m := by
  unfold daysInMonth
  split_ifs <;> omega

/-! ## Dates -/

@[ext] structure CivilDate where
  year : Int
  month : Nat
  day : Int
  month_lt : month < 12
  day_pos : 1 ≤ day
  day_le : day ≤ daysInMonth year month

namespace CivilDate

/-- The first of a month. -/
def first (y : Int) (m : Nat) (h : m < 12) : CivilDate :=
  ⟨y, m, 1, h, Int.le_refl 1, Int.le_trans (by decide) (daysInMonth_pos y m)⟩

theorem succ_day_le {d : CivilDate} (h : d.day < daysInMonth d.year d.month) :
    1 ≤ d.day + 1 ∧ d.day + 1 ≤ daysInMonth d.year d.month :=
  ⟨Int.le_add_one d.day_pos, h⟩

/-- The day after. -/
def next (d : CivilDate) : CivilDate :=
  if h : d.day < daysInMonth d.year d.month then
    { d with day := d.day + 1, day_pos := (succ_day_le h).1, day_le := (succ_day_le h).2 }
  else if h : d.month + 1 < 12 then first d.year (d.month + 1) h
  else first (d.year + 1) 0 (by decide)

end CivilDate

/-- The days of the years before, but for a constant. -/
def daysBeforeYear (y : Int) : Int := 365 * y + (y - 1) / 4 - (y - 1) / 100 + (y - 1) / 400

/-- The days of the months before. -/
def daysBeforeMonth (y : Int) : Nat → Int
  | 0 => 0
  | m + 1 => daysBeforeMonth y m + daysInMonth y m

theorem daysBeforeMonth_year (y : Int) :
    daysBeforeMonth y 12 = if IsLeapYear y then 366 else 365 := by
  by_cases h : IsLeapYear y <;> simp [daysBeforeMonth, daysInMonth, h]

theorem daysBeforeYear_succ (y : Int) :
    daysBeforeYear (y + 1) = daysBeforeYear y + daysBeforeMonth y 12 := by
  rw [daysBeforeMonth_year]
  unfold daysBeforeYear IsLeapYear
  split_ifs <;> omega

theorem daysBeforeYear_mono {y z : Int} (h : y ≤ z) : daysBeforeYear y ≤ daysBeforeYear z := by
  unfold daysBeforeYear
  omega

theorem daysBeforeMonth_mono (y : Int) {m n : Nat} (h : m ≤ n) :
    daysBeforeMonth y m ≤ daysBeforeMonth y n := by
  induction h with
  | refl => exact Int.le_refl _
  | step _ ih =>
    have hpos := daysInMonth_pos y
    exact Int.le_trans ih (Int.le_add_of_nonneg_right (Int.le_trans (by decide) (hpos _)))

namespace CivilDate

/-- Dates in a row. -/
def number (d : CivilDate) : Int :=
  daysBeforeYear d.year + daysBeforeMonth d.year d.month + d.day - 1

theorem number_next (d : CivilDate) : d.next.number = d.number + 1 := by
  have hle := d.day_le
  unfold next
  split_ifs with hday hmonth
  · simp only [number]
    omega
  · simp only [number, first, daysBeforeMonth]
    omega
  · have hlast : d.month = 11 := by
      have hlt := d.month_lt
      omega
    have hyear : daysBeforeMonth d.year 12 =
        daysBeforeMonth d.year d.month + daysInMonth d.year d.month := by
      rw [hlast]
      rfl
    have hfirst : daysBeforeMonth (d.year + 1) 0 = 0 := rfl
    simp only [number, first, hfirst, daysBeforeYear_succ, hyear]
    omega

/-- A date lies in its month. -/
theorem number_bounds (d : CivilDate) :
    daysBeforeYear d.year + daysBeforeMonth d.year d.month ≤ d.number ∧
      d.number < daysBeforeYear d.year + daysBeforeMonth d.year (d.month + 1) := by
  have hpos := d.day_pos
  have hle := d.day_le
  simp only [number, daysBeforeMonth]
  omega

theorem number_in_year (d : CivilDate) :
    daysBeforeYear d.year ≤ d.number ∧ d.number < daysBeforeYear (d.year + 1) := by
  obtain ⟨hlow, hhigh⟩ := d.number_bounds
  have hbefore := daysBeforeMonth_mono d.year (Nat.zero_le d.month)
  have hbehind := daysBeforeMonth_mono d.year d.month_lt
  rw [daysBeforeYear_succ]
  simp only [daysBeforeMonth] at hbefore hbehind hhigh ⊢
  omega

/-- Different dates have different numbers. -/
theorem number_injective : Function.Injective number := by
  intro d e h
  obtain ⟨hdlow, hdhigh⟩ := d.number_in_year
  obtain ⟨helow, hehigh⟩ := e.number_in_year
  have hyear : d.year = e.year := by
    rcases Int.lt_trichotomy d.year e.year with hlt | heq | hgt
    · have hmono := daysBeforeYear_mono (Int.add_one_le_of_lt hlt)
      omega
    · exact heq
    · have hmono := daysBeforeYear_mono (Int.add_one_le_of_lt hgt)
      omega
  obtain ⟨hdlow, hdhigh⟩ := d.number_bounds
  obtain ⟨helow, hehigh⟩ := e.number_bounds
  rw [hyear] at hdlow hdhigh
  have hmonth : d.month = e.month := by
    rcases Nat.lt_trichotomy d.month e.month with hlt | heq | hgt
    · have hmono := daysBeforeMonth_mono e.year (show d.month + 1 ≤ e.month from hlt)
      omega
    · exact heq
    · have hmono := daysBeforeMonth_mono e.year (show e.month + 1 ≤ d.month from hgt)
      omega
  refine CivilDate.ext hyear hmonth ?_
  unfold number at h
  rw [hyear, hmonth] at h
  omega

end CivilDate

/-! ## Instants -/

@[ext] structure Instant where
  date : CivilDate
  hour : Nat
  minute : Nat
  second : Nat
  hour_lt : hour < 24
  minute_lt : minute < 60
  second_lt : second < 60

namespace Instant

/-- The second after. -/
def next (t : Instant) : Instant :=
  if h : t.second + 1 < 60 then { t with second := t.second + 1, second_lt := h }
  else if h : t.minute + 1 < 60 then
    { t with minute := t.minute + 1, second := 0, minute_lt := h, second_lt := by decide }
  else if h : t.hour + 1 < 24 then ⟨t.date, t.hour + 1, 0, 0, h, by decide, by decide⟩
  else ⟨t.date.next, 0, 0, 0, by decide, by decide, by decide⟩

/-- The seconds of the day before. -/
def secondOfDay (t : Instant) : Nat := t.hour * 3600 + t.minute * 60 + t.second

/-- Instants in a row. -/
def number (t : Instant) : Int := t.date.number * 86400 + t.secondOfDay

theorem number_next (t : Instant) : t.next.number = t.number + 1 := by
  have hhour := t.hour_lt
  have hminute := t.minute_lt
  have hsecond := t.second_lt
  unfold next
  split_ifs with hs hm hh
  · simp only [number, secondOfDay]
    omega
  · simp only [number, secondOfDay]
    omega
  · simp only [number, secondOfDay]
    omega
  · simp only [number, secondOfDay, CivilDate.number_next]
    omega

theorem number_injective : Function.Injective number := by
  intro s t h
  have hs := And.intro s.hour_lt (And.intro s.minute_lt s.second_lt)
  have ht := And.intro t.hour_lt (And.intro t.minute_lt t.second_lt)
  simp only [number, secondOfDay] at h
  have hdate : s.date.number = t.date.number := by omega
  refine Instant.ext (CivilDate.number_injective hdate) ?_ ?_ ?_ <;> omega

theorem number_iterate (n : Nat) (t : Instant) : (next^[n] t).number = t.number + n := by
  induction n with
  | zero => exact (Int.add_zero _).symm
  | succ n ih =>
    rw [Function.iterate_succ_apply', number_next, ih]
    omega

/-- An instant is so many seconds after another one as their numbers say. -/
theorem iterate_next_iff {s t : Instant} {n : Nat} :
    next^[n] s = t ↔ t.number = s.number + n := by
  constructor
  · rintro rfl
    exact number_iterate n s
  · intro h
    exact number_injective ((number_iterate n s).trans h.symm)

end Instant

/-- 1970-01-01T00:00:00Z -/
def unixEpoch : Instant :=
  ⟨CivilDate.first 1970 0 (by decide), 0, 0, 0, by decide, by decide, by decide⟩

theorem unixEpoch_number : unixEpoch.number = 719527 * 86400 := by decide

end TinyFramework.Foundation
