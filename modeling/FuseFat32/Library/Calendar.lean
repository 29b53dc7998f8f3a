import Mathlib.Data.Fin.Basic
import Mathlib.Data.Int.Order.Basic

/-!
# The Gregorian calendar

Days are counted from 1970-01-01, in both directions, and a date carries the bounds of its day. The count of a date goes by the rule for leap years and the lengths of the months; the date of a count is found by taking whole cycles of 400, 100, 4 and 1 years off, and then whole months.
-/

namespace Calendar

/-- The leap years of the Gregorian calendar. -/
def IsLeap (y : Int) : Prop := 4 ∣ y ∧ (100 ∣ y → 400 ∣ y)

instance (y : Int) : Decidable (IsLeap y) := inferInstanceAs (Decidable (_ ∧ _))

/-- The days of month `m` of year `y`, months counted from 0. -/
def monthLength (y : Int) (m : Nat) : Int :=
  if m = 1 then if IsLeap y then 29 else 28
  else if m = 3 ∨ m = 5 ∨ m = 8 ∨ m = 10 then 30
  else 31

private theorem monthLength_bounds (y : Int) (m : Nat) : 28 ≤ monthLength y m ∧ monthLength y m ≤ 31 := by
  rw [monthLength]
  split_ifs <;> omega

/-- The days of year `y` before month `m`. -/
def daysBeforeMonth (y : Int) : Nat → Int
  | 0 => 0
  | m + 1 => daysBeforeMonth y m + monthLength y m

private theorem daysBeforeMonth_twelve (y : Int) : daysBeforeMonth y 12 = if IsLeap y then 366 else 365 := by
  have hfeb : monthLength y 1 = if IsLeap y then 29 else 28 := if_pos rfl
  have hsum : daysBeforeMonth y 12 = 337 + monthLength y 1 := by
    simp [daysBeforeMonth, monthLength]
    omega
  rw [hsum, hfeb]
  split_ifs <;> rfl

/-- The leap years among the years 1 to `y`. -/
def leaps (y : Int) : Int := y / 4 - y / 100 + y / 400

/-- The days from 1970-01-01 to the first day of year `y`. -/
def daysBeforeYear (y : Int) : Int := 365 * (y - 1970) + (leaps (y - 1) - leaps 1969)

structure Date where
  year : Int
  /-- January is 0. -/
  month : Fin 12
  day : Int
  one_le_day : 1 ≤ day
  day_le : day ≤ monthLength year month

namespace Date

/-- The days from 1970-01-01 to a date. -/
def toDays (d : Date) : Int := daysBeforeYear d.year + daysBeforeMonth d.year d.month + (d.day - 1)

theorem day_lt (d : Date) : d.day < 32 := by
  have hle := d.day_le
  have hlength := monthLength_bounds d.year d.month
  omega

end Date

/-! ### The year of a day -/

/-- The year that day `z` lies in. -/
def yearOf (z : Int) : Int :=
  let n := z + 719162
  let q400 := n / 146097
  let r := n % 146097
  let q100 := min (r / 36524) 3
  let r := r - 36524 * q100
  let q4 := r / 1461
  let q1 := min (r % 1461 / 365) 3
  400 * q400 + 100 * q100 + 4 * q4 + q1 + 1

/-- The whole cycles before day `z`, and the days left. A year has a last day 365 only if no cycle above it is cut short. -/
theorem yearOf_cycles (z : Int) : ∃ q400 q100 q4 q1 r : Int,
    yearOf z = 400 * q400 + 100 * q100 + 4 * q4 + q1 + 1 ∧
    z + 719162 = 146097 * q400 + 36524 * q100 + 1461 * q4 + 365 * q1 + r ∧
    (0 ≤ q100 ∧ q100 ≤ 3) ∧ (0 ≤ q4 ∧ q4 ≤ 24) ∧ (0 ≤ q1 ∧ q1 ≤ 3) ∧ 0 ≤ r ∧ r ≤ 365 ∧
    (r = 365 → q1 = 3 ∧ (q4 < 24 ∨ q100 = 3)) := by
  let n := (z + 719162) % 146097
  let q100 := min (n / 36524) 3
  let m := n - 36524 * q100
  let q1 := min (m % 1461 / 365) 3
  have hn : 0 ≤ n ∧ n < 146097 := by omega
  have hm : 0 ≤ m ∧ m ≤ 36524 ∧ (m = 36524 → q100 = 3) := by omega
  refine ⟨(z + 719162) / 146097, q100, m / 1461, q1, m % 1461 - 365 * q1, rfl, ?_, ?_, ?_, ?_, ?_, ?_, ?_⟩
  all_goals omega

private theorem leaps_cycles {q400 q100 q4 q1 : Int} (h100 : 0 ≤ q100 ∧ q100 ≤ 3) (h4 : 0 ≤ q4 ∧ q4 ≤ 24)
    (h1 : 0 ≤ q1 ∧ q1 ≤ 3) :
    leaps (400 * q400 + 100 * q100 + 4 * q4 + q1) = 97 * q400 + 24 * q100 + q4 := by
  simp only [leaps]
  omega

private theorem isLeap_cycles {q400 q100 q4 : Int} (h4 : 0 ≤ q4 ∧ q4 ≤ 24) (h : q4 < 24 ∨ q100 = 3) :
    IsLeap (400 * q400 + 100 * q100 + 4 * q4 + 3 + 1) := by
  simp only [IsLeap]
  omega

theorem yearOf_spec (z : Int) :
    daysBeforeYear (yearOf z) ≤ z ∧ z < daysBeforeYear (yearOf z) + daysBeforeMonth (yearOf z) 12 := by
  obtain ⟨q400, q100, q4, q1, r, hyear, hz, h100, h4, h1, hr, hr', hlast⟩ := yearOf_cycles z
  have hleaps : leaps (yearOf z - 1) = 97 * q400 + 24 * q100 + q4 := by
    rw [hyear, Int.add_sub_cancel]
    exact leaps_cycles h100 h4 h1
  have hbefore : daysBeforeYear (yearOf z) = 365 * (yearOf z - 1970) + (97 * q400 + 24 * q100 + q4 - 477) := by
    rw [daysBeforeYear, hleaps]
    rfl
  rw [hbefore, daysBeforeMonth_twelve]
  constructor
  · omega
  · by_cases hlong : r = 365
    · obtain ⟨rfl, hcut⟩ := hlast hlong
      rw [if_pos (hyear ▸ isLeap_cycles h4 hcut)]
      omega
    · split_ifs <;> omega

/-! ### The month of a day -/

/-- Goes from month `m` on to the month that day `d` of the rest of the year lies in. -/
def monthFrom (y : Int) (m : Nat) (d : Int) : Nat → Nat × Int
  | 0 => (m, d)
  | left + 1 => if d < monthLength y m then (m, d) else monthFrom y (m + 1) (d - monthLength y m) left

private theorem monthFrom_spec {y : Int} {left : Nat} : ∀ {m : Nat} {d : Int}, 0 ≤ d →
    daysBeforeMonth y m + d < daysBeforeMonth y (m + left) →
    (monthFrom y m d left).1 < m + left ∧ 0 ≤ (monthFrom y m d left).2 ∧
      (monthFrom y m d left).2 < monthLength y (monthFrom y m d left).1 ∧
      daysBeforeMonth y (monthFrom y m d left).1 + (monthFrom y m d left).2 = daysBeforeMonth y m + d := by
  induction left with
  | zero =>
    intro m d hd hlt
    simp only [Nat.add_zero] at hlt
    omega
  | succ left ih =>
    intro m d hd hlt
    rw [monthFrom]
    split
    · next hfound => exact ⟨by omega, hd, hfound, rfl⟩
    · next hpast =>
      have hnext : daysBeforeMonth y (m + 1) = daysBeforeMonth y m + monthLength y m := rfl
      have hend : m + 1 + left = m + (left + 1) := by omega
      obtain ⟨h1, h2, h3, h4⟩ := @ih (m + 1) (d - monthLength y m) (by omega)
        (by rw [hend, hnext]; omega)
      exact ⟨by omega, h2, h3, by omega⟩

namespace Date

/-- The month and the day of the month of day `z`, days of the month counted from 0. -/
def monthDay (z : Int) : Nat × Int := monthFrom (yearOf z) 0 (z - daysBeforeYear (yearOf z)) 12

theorem monthDay_spec (z : Int) :
    (monthDay z).1 < 12 ∧ 0 ≤ (monthDay z).2 ∧ (monthDay z).2 < monthLength (yearOf z) (monthDay z).1 ∧
      daysBeforeMonth (yearOf z) (monthDay z).1 + (monthDay z).2 = z - daysBeforeYear (yearOf z) := by
  obtain ⟨hle, hlt⟩ := yearOf_spec z
  have hrest : daysBeforeMonth (yearOf z) 0 + (z - daysBeforeYear (yearOf z))
      < daysBeforeMonth (yearOf z) (0 + 12) := by
    rw [daysBeforeMonth, Nat.zero_add]
    omega
  have hspec := monthFrom_spec (by omega) hrest
  rwa [Nat.zero_add, daysBeforeMonth, Int.zero_add] at hspec

/-- The date of a day. -/
def ofDays (z : Int) : Date where
  year := yearOf z
  month := ⟨(monthDay z).1, (monthDay_spec z).1⟩
  day := (monthDay z).2 + 1
  one_le_day := Int.le_add_of_nonneg_left (monthDay_spec z).2.1
  day_le := (monthDay_spec z).2.2.1

/-- Counting the days of a date inverts finding the date of a day. -/
theorem toDays_ofDays (z : Int) : (ofDays z).toDays = z := by
  have hsum := (monthDay_spec z).2.2.2
  simp only [toDays, ofDays]
  omega

end Date

end Calendar
