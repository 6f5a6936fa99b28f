import Mathlib.Data.Nat.Init

/-!
# LinuxKernel.Lib.Calendar

The **Gregorian calendar**: a `Date` is valid by construction, and `number` counts the days from
1 January of year 0 on.
-/

namespace LinuxKernel.Calendar

def IsLeap (year : Nat) : Prop := year % 4 = 0 ∧ (year % 100 ≠ 0 ∨ year % 400 = 0)

instance (year : Nat) : Decidable (IsLeap year) := inferInstanceAs (Decidable (_ ∧ _))

def monthDays (year : Nat) : Nat → Nat
  | 2 => if IsLeap year then 29 else 28
  | 4 | 6 | 9 | 11 => 30
  | _ => 31

@[ext]
structure Date where
  year : Nat
  month : Nat
  day : Nat
  month_pos : 1 ≤ month
  month_le : month ≤ 12
  day_pos : 1 ≤ day
  day_le : day ≤ monthDays year month

theorem monthDays_pos (year month : Nat) : 1 ≤ monthDays year month := by
  unfold monthDays
  split
  · split <;> decide
  all_goals decide

theorem monthDays_le (year month : Nat) : monthDays year month ≤ 31 := by
  unfold monthDays
  split
  · split <;> decide
  all_goals decide

/-- The first day of a month. -/
def monthStart (year month : Nat) (hpos : 1 ≤ month) (hle : month ≤ 12) : Date where
  year := year
  month := month
  day := 1
  month_pos := hpos
  month_le := hle
  day_pos := Nat.le_refl 1
  day_le := monthDays_pos year month

/-! ### The number of a day -/

/-- The days before a month. -/
def daysBeforeMonth (year : Nat) : Nat → Nat
  | 0 | 1 => 0
  | n + 2 => daysBeforeMonth year (n + 1) + monthDays year (n + 1)

def yearDays (year : Nat) : Nat := if IsLeap year then 366 else 365

def daysBeforeYear : Nat → Nat
  | 0 => 0
  | year + 1 => daysBeforeYear year + yearDays year

def Date.number (d : Date) : Nat :=
  daysBeforeYear d.year + daysBeforeMonth d.year d.month + (d.day - 1)

theorem daysBeforeMonth_succ (year : Nat) {month : Nat} (h : 1 ≤ month) :
    daysBeforeMonth year (month + 1) = daysBeforeMonth year month + monthDays year month := by
  cases month with
  | zero => cases h
  | succ n => rfl

/-- The date of a day of the year. -/
theorem exists_date {year month k : Nat} (hpos : 1 ≤ month) (hle : month ≤ 12)
    (hk : daysBeforeMonth year month ≤ k) (hk' : k < daysBeforeMonth year (month + 1)) :
    ∃ d : Date, d.year = year ∧ d.month = month ∧ d.day = k - daysBeforeMonth year month + 1 := by
  rw [daysBeforeMonth_succ year hpos] at hk'
  exact ⟨{ year := year
           month := month
           day := k - daysBeforeMonth year month + 1
           month_pos := hpos
           month_le := hle
           day_pos := Nat.le_add_left 1 _
           day_le := by omega }, rfl, rfl, rfl⟩

/-- The twelve months make up the year. -/
theorem daysBeforeMonth_year (year : Nat) : daysBeforeMonth year 13 = yearDays year := by
  by_cases h : IsLeap year
  · simp [daysBeforeMonth, monthDays, yearDays, h]
  · simp [daysBeforeMonth, monthDays, yearDays, h]

/-- Leap years below a year. -/
theorem daysBeforeYear_eq (year : Nat) :
    daysBeforeYear year + (year + 99) / 100 = 365 * year + (year + 3) / 4 + (year + 399) / 400 := by
  induction year with
  | zero => rfl
  | succ year ih =>
      rw [daysBeforeYear, yearDays]
      by_cases h : IsLeap year
      · rw [if_pos h]
        unfold IsLeap at h
        omega
      · rw [if_neg h]
        unfold IsLeap at h
        omega

theorem daysBeforeMonth_mono (year : Nat) {m n : Nat} (hm : 1 ≤ m) (h : m < n) :
    daysBeforeMonth year m + monthDays year m ≤ daysBeforeMonth year n := by
  induction n with
  | zero => cases h
  | succ n ih =>
      rw [daysBeforeMonth_succ year (by omega : 1 ≤ n)]
      rcases Nat.lt_succ_iff_lt_or_eq.mp h with hlt | rfl
      · have := ih hlt
        omega
      · omega

theorem daysBeforeMonth_le (year : Nat) {m n : Nat} (hm : 1 ≤ m) (h : m ≤ n) :
    daysBeforeMonth year m ≤ daysBeforeMonth year n := by
  rcases Nat.lt_or_eq_of_le h with hlt | rfl
  · exact Nat.le_trans (Nat.le_add_right _ _) (daysBeforeMonth_mono year hm hlt)
  · exact Nat.le_refl _

end LinuxKernel.Calendar
