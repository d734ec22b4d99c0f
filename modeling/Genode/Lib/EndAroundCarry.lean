import Mathlib.Data.Int.ModEq
import Mathlib.Tactic.Linarith

/-!
# EndAroundCarry — sums of digits modulo the base less one

What is above the lowest digit of a number is added to that digit. This
keeps the number modulo `b - 1`, and repeating it leaves a single digit,
also for numbers below zero.
-/

namespace Genode.Lib

variable {b v : Int}

/-- One round of the folding to base `b`. -/
def foldOnce (b v : Int) : Int := v % b + v / b

theorem foldOnce_modEq (b v : Int) : foldOnce b v ≡ v [ZMOD b - 1] := by
  have hdiff : v - foldOnce b v = (b - 1) * (v / b) := by
    have hv := Int.emod_add_mul_ediv v b
    unfold foldOnce
    linarith
  exact Int.modEq_iff_dvd.mpr ⟨v / b, hdiff⟩

/-- There is nothing above the lowest digit. -/
theorem ediv_eq_zero_iff (hb : 0 < b) : v / b = 0 ↔ 0 ≤ v ∧ v < b := by
  constructor
  · intro h
    have hv := Int.emod_add_mul_ediv v b
    rw [h, mul_zero, add_zero] at hv
    rw [← hv]
    exact ⟨Int.emod_nonneg v hb.ne', Int.emod_lt_of_pos v hb⟩
  · intro h
    exact Int.ediv_eq_zero_of_lt h.1 h.2

theorem foldOnce_pos (hb : 0 < b) (hv : 0 < v) : 0 < foldOnce b v := by
  have hmod := Int.emod_nonneg v hb.ne'
  have hdiv := Int.ediv_nonneg hv.le hb.le
  have heq := Int.emod_add_mul_ediv v b
  unfold foldOnce
  rcases hdiv.lt_or_eq with hpos | hzero
  · linarith
  · rw [← hzero, mul_zero] at heq
    linarith

/-- What bounds the number of rounds. The round that takes a number from below zero
leaves less than `b`. -/
def foldLeft (b v : Int) : Nat := if 0 ≤ v then v.toNat else (b - v).toNat

theorem foldLeft_lt (hb : 1 < b) (h : v / b ≠ 0) : foldLeft b (foldOnce b v) < foldLeft b v := by
  have hpos : 0 < b := by linarith
  have hmod := Int.emod_nonneg v hpos.ne'
  have hlt := Int.emod_lt_of_pos v hpos
  have heq := Int.emod_add_mul_ediv v b
  have hround : v - foldOnce b v = (b - 1) * (v / b) := by
    unfold foldOnce
    linarith
  have hround' : foldOnce b v = v % b + v / b := rfl
  rcases lt_or_gt_of_ne h with hneg | hgt
  · -- a number below zero grows, up to less than `b`
    have hv : v < 0 := by nlinarith
    have hgrow : v < foldOnce b v := by nlinarith
    unfold foldLeft
    split <;> split <;> omega
  · have hv : 0 < v := by nlinarith
    have hfold := foldOnce_pos hpos hv
    have hshrink : foldOnce b v < v := by nlinarith
    unfold foldLeft
    split <;> split <;> omega

end Genode.Lib
