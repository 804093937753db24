import Mathlib.Algebra.Order.Ring.Defs
import Mathlib.Algebra.Order.BigOperators.Group.List
import Mathlib.Algebra.BigOperators.Ring.List
import Mathlib.Tactic.Linarith

/- Allocations of an amount over goods that have a price and a limited supply each. What is
   cheapest can be seen from one price: an allocation that takes all there is below it and
   nothing above it costs no more than any other of the same amount. -/

namespace Allocation

variable {ι R : Type} [CommRing R] [LinearOrder R] [IsStrictOrderedRing R]

/-- The price `p` parts what the allocation takes whole from what it does not take. -/
structure Threshold (l : List ι) (price supply x : ι → R) (p : R) : Prop where
  below : ∀ i ∈ l, price i < p → x i = supply i
  above : ∀ i ∈ l, p < price i → x i = 0

variable {l : List ι} {price supply x y : ι → R} {p : R}

/-- What another allocation takes beyond this one is not below the threshold, and what it leaves of
it not above. -/
theorem Threshold.exchange (h : Threshold l price supply x p) {i : ι} (hi : i ∈ l)
    (hnonneg : 0 ≤ y i) (hsupply : y i ≤ supply i) :
    x i * price i + y i * p ≤ y i * price i + x i * p := by
  have hkey : 0 ≤ (y i - x i) * (price i - p) := by
    rcases lt_trichotomy (price i) p with hlt | heq | hgt
    · rw [h.below i hi hlt]
      exact mul_nonneg_of_nonpos_of_nonpos (sub_nonpos.mpr hsupply) (sub_nonpos.mpr hlt.le)
    · rw [heq, sub_self, mul_zero]
    · rw [h.above i hi hgt, sub_zero]
      exact mul_nonneg hnonneg (sub_nonneg.mpr hgt.le)
  rw [sub_mul, mul_sub, mul_sub] at hkey
  linarith

/-- An allocation with a threshold is a cheapest one of its amount. -/
theorem Threshold.cheapest (h : Threshold l price supply x p) (hnonneg : ∀ i ∈ l, 0 ≤ y i)
    (hsupply : ∀ i ∈ l, y i ≤ supply i) (htotal : (l.map y).sum = (l.map x).sum) :
    (l.map fun i => x i * price i).sum ≤ (l.map fun i => y i * price i).sum := by
  have hsum : (l.map fun i => x i * price i + y i * p).sum ≤
      (l.map fun i => y i * price i + x i * p).sum :=
    List.sum_le_sum fun i hi => h.exchange hi (hnonneg i hi) (hsupply i hi)
  rw [List.sum_map_add, List.sum_map_add, List.sum_map_mul_right, List.sum_map_mul_right,
    htotal] at hsum
  exact le_of_add_le_add_right hsum

end Allocation
