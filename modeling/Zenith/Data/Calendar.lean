import Mathlib

/-!
# The Gregorian calendar

Dates follow each other day by day, in the calendar extended to all years. The number of days between
two of them is counted along this succession, and is the difference of their day numbers.
-/

namespace Zenith.Calendar

/-- Years are counted astronomically, with a year 0. -/
def IsLeap (year : ℤ) : Prop := year % 4 = 0 ∧ year % 100 ≠ 0 ∨ year % 400 = 0

instance (year : ℤ) : Decidable (IsLeap year) := inferInstanceAs (Decidable (_ ∨ _))

def monthLength (year : ℤ) : ℕ → ℕ
  | 2 => if IsLeap year then 29 else 28
  | 4 | 6 | 9 | 11 => 30
  | _ => 31

@[ext]
structure Date where
  year : ℤ
  month : ℕ
  day : ℕ
  month_mem : 1 ≤ month ∧ month ≤ 12
  day_mem : 1 ≤ day ∧ day ≤ monthLength year month

theorem monthLength_pos (year : ℤ) (month : ℕ) : 0 < monthLength year month := by
  unfold monthLength
  split
  · split_ifs <;> omega
  all_goals omega

/-- The first of a month. -/
def firstOf (year : ℤ) (month : ℕ) (h : 1 ≤ month ∧ month ≤ 12) : Date :=
  ⟨year, month, 1, h, le_rfl, monthLength_pos year month⟩

def newYear (year : ℤ) : Date := firstOf year 1 (by decide)

/-- The day after. -/
def Date.next (d : Date) : Date :=
  if hday : d.day < monthLength d.year d.month then
    ⟨d.year, d.month, d.day + 1, d.month_mem, Nat.le_add_left 1 _, hday⟩
  else if hmonth : d.month < 12 then firstOf d.year (d.month + 1) ⟨Nat.le_add_left 1 _, hmonth⟩
  else newYear (d.year + 1)

/-- `n` days lead from one date to the other, backwards where `n` is negative. -/
def Apart (d e : Date) (n : ℤ) : Prop :=
  ∃ k : ℕ, n = k ∧ Date.next^[k] d = e ∨ n = -k ∧ Date.next^[k] e = d

/-! ## Day numbers -/

/-- The days from the first day of the year 1 to that of another year. -/
def daysBeforeYear (year : ℤ) : ℤ :=
  365 * (year - 1) + (year - 1) / 4 - (year - 1) / 100 + (year - 1) / 400

def daysBeforeMonth (year : ℤ) (month : ℕ) : ℕ := ∑ m ∈ Finset.Ico 1 month, monthLength year m

def yearLength (year : ℤ) : ℕ := if IsLeap year then 366 else 365

def Date.dayNumber (d : Date) : ℤ :=
  daysBeforeYear d.year + daysBeforeMonth d.year d.month + (d.day - 1)

theorem daysBeforeYear_succ (year : ℤ) :
    daysBeforeYear (year + 1) = daysBeforeYear year + yearLength year := by
  unfold daysBeforeYear yearLength
  by_cases hleap : IsLeap year
  · rw [if_pos hleap]
    unfold IsLeap at hleap
    push_cast
    omega
  · rw [if_neg hleap]
    unfold IsLeap at hleap
    push_cast
    omega

theorem daysBeforeMonth_succ (year : ℤ) {month : ℕ} (h : 1 ≤ month) :
    daysBeforeMonth year (month + 1) = daysBeforeMonth year month + monthLength year month :=
  Finset.sum_Ico_succ_top h _

theorem daysBeforeMonth_end (year : ℤ) : daysBeforeMonth year 13 = yearLength year := by
  simp only [daysBeforeMonth, yearLength, Finset.sum_Ico_succ_top, Nat.reduceLeDiff,
    Finset.Ico_self, Finset.sum_empty, monthLength]
  split_ifs <;> rfl

@[simp] theorem dayNumber_firstOf (year : ℤ) (month : ℕ) (h : 1 ≤ month ∧ month ≤ 12) :
    (firstOf year month h).dayNumber = daysBeforeYear year + daysBeforeMonth year month := by
  simp [Date.dayNumber, firstOf]

@[simp] theorem dayNumber_newYear (year : ℤ) : (newYear year).dayNumber = daysBeforeYear year := by
  simp [newYear, daysBeforeMonth]

theorem Date.dayNumber_next (d : Date) : d.next.dayNumber = d.dayNumber + 1 := by
  obtain ⟨hone, hlast⟩ := d.day_mem
  have hmonths := daysBeforeMonth_succ d.year d.month_mem.1
  unfold next
  split_ifs with hday hmonth
  · unfold dayNumber
    push_cast
    ring
  · rw [dayNumber_firstOf, hmonths, dayNumber]
    push_cast
    omega
  · have hdecember : d.month = 12 := by
      have := d.month_mem.2
      omega
    rw [dayNumber_newYear, daysBeforeYear_succ, ← daysBeforeMonth_end, dayNumber]
    rw [hdecember] at hmonths hlast hday ⊢
    rw [hmonths]
    push_cast
    omega

theorem Date.dayNumber_iterate (k : ℕ) (d : Date) : (next^[k] d).dayNumber = d.dayNumber + k := by
  induction k with
  | zero => simp
  | succ k ih =>
    rw [Function.iterate_succ_apply', dayNumber_next, ih]
    push_cast
    ring

/-! ## Day numbers tell dates apart -/

theorem daysBeforeYear_mono : Monotone daysBeforeYear := by
  apply monotone_int_of_le_succ
  intro year
  rw [daysBeforeYear_succ]
  omega

theorem daysBeforeMonth_mono (year : ℤ) : Monotone (daysBeforeMonth year) := by
  intro month month' hle
  exact Finset.sum_le_sum_of_subset (Finset.Ico_subset_Ico_right hle)

/-- A date comes before the first of the next month. -/
theorem Date.day_lt (d : Date) :
    daysBeforeMonth d.year d.month + (d.day - 1) < daysBeforeMonth d.year (d.month + 1) := by
  obtain ⟨hone, hlast⟩ := d.day_mem
  rw [daysBeforeMonth_succ d.year d.month_mem.1]
  omega

theorem Date.month_le_of_dayNumber {d e : Date} (hyear : d.year = e.year)
    (h : d.dayNumber = e.dayNumber) : d.month ≤ e.month := by
  by_contra hlt
  have hbefore := e.day_lt
  have hmonths := daysBeforeMonth_mono e.year (show e.month + 1 ≤ d.month by omega)
  have hone := e.day_mem.1
  have hone' := d.day_mem.1
  unfold dayNumber at h
  rw [hyear] at h
  omega

theorem Date.year_le_of_dayNumber {d e : Date} (h : d.dayNumber = e.dayNumber) :
    d.year ≤ e.year := by
  by_contra hlt
  have hbefore := e.day_lt
  have hmonths := daysBeforeMonth_mono e.year (show e.month + 1 ≤ 13 by have := e.month_mem.2; omega)
  rw [daysBeforeMonth_end] at hmonths
  have hyears := daysBeforeYear_mono (show e.year + 1 ≤ d.year by omega)
  rw [daysBeforeYear_succ] at hyears
  have hone := e.day_mem.1
  have hone' := d.day_mem.1
  unfold dayNumber at h
  omega

theorem Date.dayNumber_injective : Function.Injective Date.dayNumber := by
  intro d e h
  have hyear := le_antisymm (year_le_of_dayNumber h) (year_le_of_dayNumber h.symm)
  have hmonth := le_antisymm (month_le_of_dayNumber hyear h) (month_le_of_dayNumber hyear.symm h.symm)
  apply Date.ext hyear hmonth
  unfold dayNumber at h
  rw [hyear, hmonth] at h
  omega

theorem Date.iterate_next_of_dayNumber {d e : Date} {k : ℕ} (h : e.dayNumber = d.dayNumber + k) :
    next^[k] d = e := by
  apply dayNumber_injective
  rw [dayNumber_iterate, h]

/-- Counting days is subtracting day numbers. -/
theorem apart_iff {d e : Date} {n : ℤ} : Apart d e n ↔ e.dayNumber = d.dayNumber + n := by
  constructor
  · rintro ⟨k, ⟨rfl, rfl⟩ | ⟨rfl, rfl⟩⟩
    · exact Date.dayNumber_iterate k d
    · rw [Date.dayNumber_iterate]
      ring
  · intro h
    rcases Int.le_total 0 n with hn | hn
    · refine ⟨n.toNat, .inl ⟨by omega, Date.iterate_next_of_dayNumber ?_⟩⟩
      omega
    · refine ⟨n.natAbs, .inr ⟨by omega, Date.iterate_next_of_dayNumber ?_⟩⟩
      omega

end Zenith.Calendar
