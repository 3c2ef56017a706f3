import BaccChain.Commons.Table
import Mathlib.Algebra.BigOperators.Ring.List
import Mathlib.Algebra.Order.Ring.Int

/-!
# Shares rounded down

An amount is divided over the entries of a table in proportion to a weight, and every share is
rounded down. Together the shares are at most the amount, also when all weights are zero.
-/

namespace Commons

variable {κ α : Type*}

namespace Table

variable [LinearOrder κ] (t : Table κ α)

theorem sum_mul (c : Int) (f : κ → α → Int) : (t.sum fun k a => c * f k a) = c * t.sum f :=
  List.sum_map_mul_left _ _ _

theorem sum_share_le {amount : Int} {weight : κ → α → Int} (hamount : 0 ≤ amount)
    (hweight : ∀ k a, t.find k = some a → 0 ≤ weight k a) :
    (t.sum fun k a => (amount * weight k a).fdiv (t.sum weight)) ≤ amount := by
  rcases (sum_nonneg hweight).eq_or_lt with hzero | hpos
  · rw [← hzero]
    simp only [Int.fdiv_zero, sum_zero]
    exact hamount
  · refine le_of_mul_le_mul_left ?_ hpos
    calc t.sum weight * (t.sum fun k a => (amount * weight k a).fdiv (t.sum weight))
        = t.sum fun k a => t.sum weight * (amount * weight k a).fdiv (t.sum weight) :=
          (t.sum_mul _ _).symm
      _ ≤ t.sum fun k a => amount * weight k a := by
          refine sum_le_sum fun k a _ => ?_
          rw [Int.fdiv_eq_ediv_of_nonneg _ hpos.le]
          exact Int.mul_ediv_self_le hpos.ne'
      _ = t.sum weight * amount := by rw [t.sum_mul, mul_comm]

theorem sum_single_le {amount : Int} (hamount : 0 ≤ amount) {p : κ → Prop} [DecidablePred p]
    (k₀ : κ) (hp : ∀ k, p k → k = k₀) : (t.sum fun k _ => if p k then amount else 0) ≤ amount := by
  have hoff := t.sum_eq_of_agree_off (f := fun k _ => if p k then amount else 0)
    (g := fun _ _ => (0 : Int)) k₀ fun k _ hk _ => if_neg fun h => hk (hp k h)
  have hzero : t.weightAt (fun _ _ => (0 : Int)) k₀ = 0 := by
    unfold weightAt
    cases t.find k₀ <;> rfl
  rw [t.sum_zero, zero_add, hzero, add_zero] at hoff
  rw [hoff]
  unfold weightAt
  cases t.find k₀ with
  | none => exact hamount
  | some =>
    show (if p k₀ then amount else 0) ≤ amount
    split_ifs
    · exact le_rfl
    · exact hamount

end Table

end Commons
