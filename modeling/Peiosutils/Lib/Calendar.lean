import Mathlib.Algebra.Order.Group.Nat
import Mathlib.Data.Nat.Basic
import Mathlib.Tactic.IntervalCases

/-!
# The Gregorian calendar

`dayNumber` counts the days from the first day of year 0 by the lengths of years and months. Counted from the first of
March, years that begin on the day `marchFirst` come in eras of 400 (`marchFirst_era`), a day of an era is in the year
`yearOfEra` (`yearOfEra_spec`), and a day of such a year is in a month that is found by a division by 153
(`date_of_lt` and `date_of_le`).
-/

set_option autoImplicit false

namespace Calendar

/-- A year with a 29th of February. -/
def IsLeap (y : Nat) : Prop := 4 ∣ y ∧ (100 ∣ y → 400 ∣ y)

instance (y : Nat) : Decidable (IsLeap y) := inferInstanceAs (Decidable (_ ∧ _))

def leapDay (y : Nat) : Nat := if IsLeap y then 1 else 0

/-- The months from one to twelve. -/
def monthLength (y : Nat) : (m : Nat) → Nat
  | 1 | 3 | 5 | 7 | 8 | 10 | 12 => 31
  | 4 | 6 | 9 | 11 => 30
  | 2 => 28 + leapDay y
  | _ => 0

def daysBeforeYear : (y : Nat) → Nat
  | 0 => 0
  | y + 1 => daysBeforeYear y + (365 + leapDay y)

/-- The days of a year in front of a month. -/
def daysBeforeMonth (y : Nat) : (m : Nat) → Nat
  | 0 => 0
  | m + 1 => daysBeforeMonth y m + monthLength y m

/-- Days and months count from one. -/
def IsDate (y m d : Nat) : Prop := 1 ≤ m ∧ m ≤ 12 ∧ 1 ≤ d ∧ d ≤ monthLength y m

def dayNumber (y m d : Nat) : Nat := daysBeforeYear y + daysBeforeMonth y m + (d - 1)

/-- The days from the first day of January 1970 on. -/
def unixDay (y m d : Nat) : Int := (dayNumber y m d : Int) - dayNumber 1970 1 1

theorem leapDay_le (y : Nat) : leapDay y ≤ 1 := by
  unfold leapDay
  split <;> decide

/-- Every fourth year has a leap day, but for every hundredth, but for every four-hundredth. -/
theorem leapDay_add (y : Nat) :
    leapDay y + (if 100 ∣ y then 1 else 0) = (if 4 ∣ y then 1 else 0) + if 400 ∣ y then 1 else 0 := by
  have h4 : 100 ∣ y → 4 ∣ y := Nat.dvd_trans (by decide)
  have h100 : 400 ∣ y → 100 ∣ y := Nat.dvd_trans (by decide)
  by_cases h : 400 ∣ y
  · simp [leapDay, IsLeap, h, h100 h, h4 (h100 h)]
  · by_cases h' : 100 ∣ y
    · simp [leapDay, IsLeap, h, h', h4 h']
    · simp [leapDay, IsLeap, h, h']

/-! ## Years from March on -/

/-- The days from the first of March of year 0 to that of `y`. -/
def marchFirst (y : Nat) : Nat := 365 * y + y / 4 - y / 100 + y / 400

theorem marchFirst_eq (y : Nat) : daysBeforeYear y + 59 + leapDay y = 60 + marchFirst y := by
  have hsum : daysBeforeYear y + 59 + leapDay y + y / 100 = 60 + 365 * y + y / 4 + y / 400 := by
    induction y with
    | zero => rfl
    | succ y ih =>
      have := leapDay_add (y + 1)
      rw [daysBeforeYear, Nat.succ_div, Nat.succ_div, Nat.succ_div]
      omega
  unfold marchFirst
  omega

theorem marchFirst_succ (y : Nat) : marchFirst (y + 1) = marchFirst y + 365 + leapDay (y + 1) := by
  have h := marchFirst_eq y
  have h' := marchFirst_eq (y + 1)
  rw [daysBeforeYear] at h'
  omega

theorem dayNumber_1970 : dayNumber 1970 1 1 = 719528 := by
  have h := marchFirst_eq 1970
  rw [show leapDay 1970 = 0 from by decide, show marchFirst 1970 = 719527 from by decide] at h
  have hbefore : daysBeforeMonth 1970 1 = 0 := rfl
  unfold dayNumber
  omega

/-- Eras of 400 years have 146097 days. -/
theorem marchFirst_era (era y : Nat) : marchFirst (400 * era + y) = 146097 * era + marchFirst y := by
  unfold marchFirst
  omega

/-! ## The year of a day -/

/-- 365 times the year, and up to 364 more. -/
def scaledDay (doe : Nat) : Nat := doe - doe / 1460 + doe / 36524 - doe / 146096

/-- The year of an era for a day of it. -/
def yearOfEra (doe : Nat) : Nat := scaledDay doe / 365

theorem scaledDay_mono {a b : Nat} (h : a ≤ b) (hb : b < 146097) : scaledDay a ≤ scaledDay b := by
  unfold scaledDay
  omega

/-- The first and the last day of each year. -/
theorem scaledDay_ends : ∀ y < 400, 365 * y ≤ scaledDay (marchFirst y) ∧
    scaledDay (marchFirst (y + 1) - 1) < 365 * (y + 1) := by decide +kernel

theorem yearOfEra_spec {doe : Nat} (h : doe < 146097) : yearOfEra doe < 400 ∧ marchFirst (yearOfEra doe) ≤ doe ∧
    doe < marchFirst (yearOfEra doe + 1) := by
  have hlt : yearOfEra doe < 400 := by
    have := scaledDay_mono (Nat.le_of_lt_succ h) (by decide)
    have hlast : scaledDay 146096 = 145999 := by decide
    unfold yearOfEra
    omega
  have hlo : 365 * yearOfEra doe ≤ scaledDay doe := Nat.mul_div_le _ _
  have hhi : scaledDay doe < 365 * (yearOfEra doe + 1) := by
    unfold yearOfEra
    omega
  refine ⟨hlt, ?_, ?_⟩
  · -- an earlier day is in an earlier year
    by_contra hearly
    obtain ⟨y, hy⟩ := Nat.exists_eq_add_one_of_ne_zero (n := yearOfEra doe) fun e => by
      rw [e] at hearly
      exact hearly (Nat.zero_le _)
    rw [hy] at hearly hlo hlt
    have hday := (scaledDay_ends y (by omega)).2
    have hmono := scaledDay_mono (show doe ≤ marchFirst (y + 1) - 1 by omega) (by
      have := marchFirst_succ y
      unfold marchFirst
      omega)
    omega
  · by_contra hlate
    by_cases hend : yearOfEra doe = 399
    · rw [hend, show marchFirst (399 + 1) = 146097 from by decide] at hlate
      exact hlate h
    · have hday := (scaledDay_ends (yearOfEra doe + 1) (by omega)).1
      have hmono := scaledDay_mono (Nat.not_lt.1 hlate) h
      omega

/-! ## The month of a day -/

/-- From March to December. -/
theorem date_of_lt {y mp doy : Nat} (hmp : mp = (5 * doy + 2) / 153) (h : mp < 10) :
    IsDate y (mp + 3) (doy - (153 * mp + 2) / 5 + 1) ∧
      dayNumber y (mp + 3) (doy - (153 * mp + 2) / 5 + 1) = 60 + marchFirst y + doy := by
  have hday := marchFirst_eq y
  have hbefore : daysBeforeMonth y (mp + 3) = 59 + leapDay y + (153 * mp + 2) / 5 := by
    interval_cases mp <;> simp only [daysBeforeMonth, monthLength] <;> omega
  have hlength : (153 * mp + 2) / 5 + monthLength y (mp + 3) = (153 * (mp + 1) + 2) / 5 := by
    interval_cases mp <;> simp only [monthLength]
  unfold IsDate dayNumber
  omega

/-- January and February of the next year. -/
theorem date_of_le {y mp doy : Nat} (hmp : mp = (5 * doy + 2) / 153) (h : 10 ≤ mp)
    (hdoy : doy < 365 + leapDay (y + 1)) :
    IsDate (y + 1) (mp - 9) (doy - (153 * mp + 2) / 5 + 1) ∧
      dayNumber (y + 1) (mp - 9) (doy - (153 * mp + 2) / 5 + 1) = 60 + marchFirst y + doy := by
  have hday := marchFirst_eq (y + 1)
  have hsucc := marchFirst_succ y
  have hleap := leapDay_le (y + 1)
  have hle : mp ≤ 11 := by omega
  unfold IsDate dayNumber
  interval_cases mp <;> simp only [daysBeforeMonth, monthLength] <;> omega

end Calendar
