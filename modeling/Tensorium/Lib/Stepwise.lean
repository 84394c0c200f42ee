import Mathlib.Algebra.BigOperators.Group.Finset.Basic
import Mathlib.Tactic

/-! # Sums of step functions

    A quantity that stays the same throughout each period of a fixed length,
    summed over the first points of the line: period by period, each with the
    number of its points that have been passed.
-/

namespace Stepwise

/-- How many of the first `h` points lie in a period. -/
def pointsIn (length h period : Nat) : Nat := min (h - period * length) length

variable {length : Nat}

theorem pointsIn_le (length h period : Nat) : pointsIn length h period ≤ length :=
  Nat.min_le_right _ _

/-- No point of a period that has not begun. -/
theorem pointsIn_eq_zero {h period : Nat} (hbegun : h ≤ period * length) :
    pointsIn length h period = 0 := by
  unfold pointsIn
  rw [Nat.sub_eq_zero_of_le hbegun, Nat.zero_min]

/-- All points of a period that is over. -/
theorem pointsIn_eq_length {h period : Nat} (hover : (period + 1) * length ≤ h) :
    pointsIn length h period = length := by
  unfold pointsIn
  rw [Nat.add_mul, Nat.one_mul] at hover
  omega

/-- The next point belongs to the period its quotient names. -/
theorem pointsIn_succ (hlength : 0 < length) (h period : Nat) :
    pointsIn length (h + 1) period
      = pointsIn length h period + if h / length = period then 1 else 0 := by
  unfold pointsIn
  have hquotient : h / length = period ↔ period * length ≤ h ∧ h < period * length + length := by
    rw [Nat.div_eq_iff hlength]
    omega
  by_cases hin : h / length = period
  · obtain ⟨hfrom, huntil⟩ := hquotient.mp hin
    rw [if_pos hin]
    omega
  · have hout : ¬ (period * length ≤ h ∧ h < period * length + length) :=
      fun hbetween => hin (hquotient.mpr hbetween)
    rw [if_neg hin]
    omega

/-- A function of the period alone, summed point by point and period by period.
    Periods without a value need not be counted. -/
theorem sum_div_eq {R : Type*} [AddCommMonoid R] (hlength : 0 < length) {f : Nat → R}
    {periods : Nat} (hlast : ∀ period, periods ≤ period → f period = 0) (h : Nat) :
    ∑ k ∈ Finset.range h, f (k / length)
      = ∑ period ∈ Finset.range periods, pointsIn length h period • f period := by
  induction h with
  | zero =>
    rw [Finset.sum_range_zero]
    symm
    apply Finset.sum_eq_zero
    intro period _
    rw [pointsIn_eq_zero (Nat.zero_le _), zero_nsmul]
  | succ h ih =>
    have hpoint : ∑ period ∈ Finset.range periods,
        (if h / length = period then 1 else 0) • f period = f (h / length) := by
      simp only [ite_smul, one_smul, zero_smul, Finset.sum_ite_eq, Finset.mem_range]
      by_cases hin : h / length < periods
      · rw [if_pos hin]
      · rw [if_neg hin, hlast _ (not_lt.mp hin)]
    rw [Finset.sum_range_succ, ih]
    simp only [pointsIn_succ hlength, add_nsmul, Finset.sum_add_distrib, hpoint]

end Stepwise
