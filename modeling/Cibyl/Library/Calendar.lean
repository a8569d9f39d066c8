import Mathlib.Order.Basic
import Mathlib.Tactic.Common

namespace Calendar

def IsLeap (y : Int) : Prop := y % 4 = 0 ∧ (y % 100 ≠ 0 ∨ y % 400 = 0)

instance (y : Int) : Decidable (IsLeap y) := inferInstanceAs (Decidable (_ ∧ _))

/-- The leap years from year 1 to the end of `y`, counted backwards before that. -/
def leaps (y : Int) : Int := y / 4 - y / 100 + y / 400

def yearLength (y : Int) : Int := if IsLeap y then 366 else 365

/-- The days from the start of year 1 to the start of `y`, and a year of 365 days. -/
def daysBefore (y : Int) : Int := 365 * y + leaps (y - 1)

variable {y y' d d' : Int}

theorem leaps_eq (y : Int) : leaps y = leaps (y - 1) + if IsLeap y then 1 else 0 := by
  unfold leaps
  split
  · next h =>
    obtain ⟨h₄, h | h⟩ := h
    · omega
    · omega
  · next h =>
    rw [IsLeap, not_and_or, not_or, not_not] at h
    rcases h with h | ⟨h, h'⟩
    · omega
    · omega

theorem yearLength_pos (y : Int) : 0 < yearLength y := by
  unfold yearLength
  split
  · decide
  · decide

/-- The next year starts where this one ends. -/
theorem daysBefore_succ (y : Int) : daysBefore (y + 1) = daysBefore y + yearLength y := by
  have h := leaps_eq y
  unfold daysBefore yearLength
  rw [Int.add_sub_cancel, h]
  split
  · omega
  · omega

/-- Every fourth year at most is a leap year. -/
theorem leaps_between (h : y ≤ y') :
    leaps y ≤ leaps y' ∧ leaps y' - leaps y ≤ (y' - y) / 4 + 1 := by
  have hcent : y / 100 - y / 400 ≤ y' / 100 - y' / 400 := by omega
  have hfour : y / 4 - y / 100 ≤ y' / 4 - y' / 100 := by omega
  unfold leaps
  constructor
  · omega
  · omega

theorem daysBefore_lt (h : y < y') : daysBefore y + yearLength y ≤ daysBefore y' := by
  rw [← daysBefore_succ]
  have hl := (leaps_between (show y ≤ y' - 1 by omega)).1
  unfold daysBefore
  rw [Int.add_sub_cancel]
  omega

/-- A day is in one year only. -/
theorem year_unique (h : daysBefore y + d = daysBefore y' + d') (h₀ : 0 ≤ d)
    (h₁ : d < yearLength y) (h₀' : 0 ≤ d') (h₁' : d' < yearLength y') : y = y' ∧ d = d' := by
  obtain hlt | rfl | hlt := Int.lt_trichotomy y y'
  · have hl := daysBefore_lt hlt
    omega
  · exact ⟨rfl, by omega⟩
  · have hl := daysBefore_lt hlt
    omega

end Calendar
