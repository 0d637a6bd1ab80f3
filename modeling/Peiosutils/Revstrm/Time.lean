import Peiosutils.Lib.Calendar
import Peiosutils.Lib.Fallible
import Peiosutils.Lib.Padded

/-!
# Times of records (`schema.rs`)

`formatTime` with the arithmetic of `u64`: a sum or a product from 2^64 on, or a difference below zero, is no result.
It has one for every count, and the date and the time that it renders are those of the count (`formatTime_names`).
-/

set_option autoImplicit false

namespace Peiosutils.Revstrm

open Checked Calendar
open Padded (zeroPadded)

/-- One more than the largest `u64`. -/
def u64 : Nat := 18446744073709551616

/-- `yoe`, the year of the era. -/
def yoe (doe : Nat) : Option Nat := do
  let a ← sub doe (doe / 1460)
  let b ← add u64 a (doe / 36524)
  let c ← sub b (doe / 146096)
  return c / 365

/-- `doy`, the day of the year, which starts in March. -/
def doy (doe yoe : Nat) : Option Nat := do
  let a ← mul u64 365 yoe
  let b ← add u64 a (yoe / 4)
  let c ← sub b (yoe / 100)
  sub doe c

/-- `mp`, the month of that year. -/
def mp (doy : Nat) : Option Nat := do
  let a ← mul u64 5 doy
  let b ← add u64 a 2
  return b / 153

/-- `d`, the day of the month. -/
def dayOfMonth (doy mp : Nat) : Option Nat := do
  let a ← mul u64 153 mp
  let b ← add u64 a 2
  let c ← sub doy (b / 5)
  add u64 c 1

/-- `m`, the month of the calendar year. -/
def month (mp : Nat) : Option Nat := if mp < 10 then add u64 mp 3 else sub mp 9

/-- The year, the month and the day of a number of days since 1970-01-01. -/
def civil (days : Nat) : Option (Nat × Nat × Nat) := do
  let z ← add u64 days 719468
  let era := z / 146097
  let start ← mul u64 era 146097
  let doe ← sub z start
  let yoe ← yoe doe
  let doy ← doy doe yoe
  let mp ← mp doy
  let d ← dayOfMonth doy mp
  let m ← month mp
  let eraYears ← mul u64 era 400
  let year ← add u64 yoe eraYears
  let y ← add u64 year (if m ≤ 2 then 1 else 0)
  return (y, m, d)

/-- `2026-10-06T12:34:56.123456789Z`. -/
def render (y m d hours minutes seconds nanos : Nat) : List UInt8 :=
  zeroPadded 4 y ++ [45] ++ zeroPadded 2 m ++ [45] ++ zeroPadded 2 d ++ [84] ++ zeroPadded 2 hours ++ [58] ++
    zeroPadded 2 minutes ++ [58] ++ zeroPadded 2 seconds ++ [46] ++ zeroPadded 9 nanos ++ [90]

def formatTime (ns : UInt64) : Option (List UInt8) := do
  let secs := ns.toNat / 1000000000
  let nanos := ns.toNat % 1000000000
  let days := secs / 86400
  let tod := secs % 86400
  let (y, m, d) ← civil days
  return render y m d (tod / 3600) (tod % 3600 / 60) (tod % 60) nanos

/-! ## Each step has a result -/

theorem yoe_eq {doe : Nat} (h : doe < 146097) : yoe doe = some (yearOfEra doe) := by
  have hu : u64 = 18446744073709551616 := rfl
  simp (disch := omega) only [yoe, sub_of_le, add_of_lt, Option.bind_eq_bind, Option.bind_some]
  rfl

theorem doy_eq {doe y : Nat} (hy : y < 400) (h : marchFirst y ≤ doe) : doy doe y = some (doe - marchFirst y) := by
  have hu : u64 = 18446744073709551616 := rfl
  have hfirst : marchFirst y = 365 * y + y / 4 - y / 100 := by
    unfold marchFirst
    omega
  rw [hfirst] at h ⊢
  simp (disch := omega) only [doy, mul_of_lt, add_of_lt, sub_of_le, Option.bind_eq_bind, Option.bind_some]

theorem mp_eq {doy : Nat} (h : doy < 366) : mp doy = some ((5 * doy + 2) / 153) := by
  have hu : u64 = 18446744073709551616 := rfl
  simp (disch := omega) only [mp, mul_of_lt, add_of_lt, Option.bind_eq_bind, Option.bind_some]
  rfl

theorem dayOfMonth_eq {doy mp : Nat} (hdoy : doy < 366) (h : mp = (5 * doy + 2) / 153) :
    dayOfMonth doy mp = some (doy - (153 * mp + 2) / 5 + 1) := by
  have hu : u64 = 18446744073709551616 := rfl
  simp (disch := omega) only [dayOfMonth, mul_of_lt, add_of_lt, sub_of_le, Option.bind_eq_bind, Option.bind_some]

/-- The month and the year behind `mp`. -/
theorem civil_of_mp {days era doe y doy m n : Nat} (h : days < 1000000000) (hera : (days + 719468) / 146097 = era)
    (hdoe : days + 719468 - era * 146097 = doe) (hyear : yearOfEra doe = y) (hdoy : doe - marchFirst y = doy)
    (hmp : (5 * doy + 2) / 153 = m) (hlt : doy < 366) (hn : (if m < 10 then m + 3 else m - 9) = n) :
    civil days = some (y + era * 400 + (if n ≤ 2 then 1 else 0), n, doy - (153 * m + 2) / 5 + 1) := by
  have hu : u64 = 18446744073709551616 := rfl
  have hz : add u64 days 719468 = some (days + 719468) := add_of_lt (by omega)
  have hstart : mul u64 era 146097 = some (era * 146097) := mul_of_lt (by omega)
  have hsub : sub (days + 719468) (era * 146097) = some doe := hdoe ▸ sub_of_le (by omega)
  obtain ⟨hy, hfirst, -⟩ := @yearOfEra_spec doe (by omega)
  have hyoe : yoe doe = some y := hyear ▸ yoe_eq (by omega)
  rw [hyear] at hy hfirst
  have hday : Revstrm.doy doe y = some doy := hdoy ▸ doy_eq hy hfirst
  have hmonth : month m = some n := by
    rw [← hn, month]
    split
    · exact add_of_lt (by omega)
    · exact sub_of_le (by omega)
  have hyears : mul u64 era 400 = some (era * 400) := mul_of_lt (by omega)
  have hsum : add u64 y (era * 400) = some (y + era * 400) := add_of_lt (by omega)
  have hlast : add u64 (y + era * 400) (if n ≤ 2 then 1 else 0) = some (y + era * 400 + if n ≤ 2 then 1 else 0) :=
    add_of_lt (by split <;> omega)
  rw [civil, bind_of_eq hz]
  dsimp only
  rw [hera, bind_of_eq hstart, bind_of_eq hsub, bind_of_eq hyoe, bind_of_eq hday, mp_eq hlt, hmp]
  rw [bind_of_eq rfl, bind_of_eq (dayOfMonth_eq hlt hmp.symm), bind_of_eq hmonth, bind_of_eq hyears, bind_of_eq hsum,
    bind_of_eq hlast]
  rfl

/-- The date is that of the day. -/
theorem civil_eq {days : Nat} (h : days < 1000000000) : ∃ y m d, civil days = some (y, m, d) ∧ IsDate y m d ∧
    dayNumber y m d = dayNumber 1970 1 1 + days ∧ y ≤ days / 365 + 1973 := by
  obtain ⟨era, hera⟩ : ∃ era, (days + 719468) / 146097 = era := ⟨_, rfl⟩
  obtain ⟨doe, hdoe⟩ : ∃ doe, days + 719468 - era * 146097 = doe := ⟨_, rfl⟩
  obtain ⟨-, hfirst, hlast⟩ := @yearOfEra_spec doe (by omega)
  obtain ⟨yoe, hyoe⟩ : ∃ yoe, yearOfEra doe = yoe := ⟨_, rfl⟩
  rw [hyoe] at hfirst hlast
  obtain ⟨doy, hdoy⟩ : ∃ doy, doe - marchFirst yoe = doy := ⟨_, rfl⟩
  obtain ⟨mp, hmp⟩ : ∃ mp, (5 * doy + 2) / 153 = mp := ⟨_, rfl⟩
  have hyear := marchFirst_succ yoe
  have hleap := leapDay_le (yoe + 1)
  have hstart := marchFirst_era era yoe
  have hnext := marchFirst_succ (400 * era + yoe)
  have hnext' := marchFirst_era era (yoe + 1)
  rw [← Nat.add_assoc] at hnext'
  have hepoch := dayNumber_1970
  have hdays : 365 * (400 * era + yoe) ≤ 146097 * era + marchFirst yoe := by
    rw [← hstart]
    unfold marchFirst
    omega
  have hcivil := civil_of_mp h hera hdoe hyoe hdoy hmp (by omega) rfl
  rw [show yoe + era * 400 = 400 * era + yoe by omega] at hcivil
  by_cases hmonth : mp < 10
  · rw [if_pos hmonth, if_neg (by omega), Nat.add_zero] at hcivil
    obtain ⟨hdate, hnumber⟩ := @date_of_lt (400 * era + yoe) _ _ hmp.symm hmonth
    exact ⟨_, _, _, hcivil, hdate, by omega, by omega⟩
  · rw [if_neg hmonth, if_pos (by omega)] at hcivil
    obtain ⟨hdate, hnumber⟩ := date_of_le hmp.symm (Nat.not_lt.1 hmonth)
      (show doy < 365 + leapDay (400 * era + yoe + 1) by omega)
    exact ⟨_, _, _, hcivil, hdate, by omega, by omega⟩

/-- **Every count has a time.** The date is one of the calendar, its year has four digits, and its day times 86400
seconds with the time of the day is the count of nanoseconds. -/
theorem formatTime_names (ns : UInt64) : ∃ y m d hours minutes seconds nanos,
    formatTime ns = some (render y m d hours minutes seconds nanos) ∧ IsDate y m d ∧ y < 10000 ∧
      hours < 24 ∧ minutes < 60 ∧ seconds < 60 ∧ nanos < 1000000000 ∧
      ((unixDay y m d * 86400 + hours * 3600 + minutes * 60 + seconds) * 1000000000 + nanos : Int) = ns.toNat := by
  have hns := ns.toNat_lt
  obtain ⟨y, m, d, hcivil, hdate, hday, hyear⟩ := @civil_eq (ns.toNat / 1000000000 / 86400) (by omega)
  refine ⟨y, m, d, ns.toNat / 1000000000 % 86400 / 3600, ns.toNat / 1000000000 % 86400 % 3600 / 60,
    ns.toNat / 1000000000 % 86400 % 60, ns.toNat % 1000000000, ?_, hdate, ?_⟩
  · simp only [formatTime, hcivil, Option.bind_eq_bind, Option.bind_some, Option.pure_def]
  · unfold unixDay
    omega

end Peiosutils.Revstrm
