import Mathlib.Algebra.Group.Basic
import Mathlib.Algebra.Order.Field.Power
import Mathlib.Algebra.Order.Floor.Defs
import Mathlib.Data.Rat.Floor
import Mathlib.Tactic.Positivity

/-!
# Powers

Square and multiply, and powers with a negative exponent that are rounded toward zero.

Results:
1. `squareMultiply_step`: one turn of the loop.
2. `truncate_zpow`: what is left of a negative power.
-/

namespace Power

/-- One turn of square and multiply: the accumulator times the power that is still to be taken stays
the same. -/
theorem squareMultiply_step {M : Type*} [CommMonoid M] (a r : M) (b : Nat) :
    (if b % 2 = 1 then r * a else r) * (a * a) ^ (b / 2) = r * a ^ b := by
  have hsq : (a * a) ^ (b / 2) = a ^ (2 * (b / 2)) := by rw [← pow_two, pow_mul]
  rw [hsq]
  conv_rhs => rw [← Nat.mod_add_div b 2, pow_add]
  split
  · next h => rw [h, pow_one, mul_assoc]
  · next h => rw [(Nat.mod_two_eq_zero_or_one b).resolve_right h, pow_zero, one_mul]

/-- Rounding toward zero. -/
def truncate (q : ℚ) : ℤ := if 0 ≤ q then ⌊q⌋ else ⌈q⌉

theorem truncate_of_abs_lt_one {q : ℚ} (h : |q| < 1) : truncate q = 0 := by
  obtain ⟨hlo, hhi⟩ := abs_lt.mp h
  unfold truncate
  split
  · next hq => exact Int.floor_eq_zero_iff.mpr ⟨hq, hhi⟩
  · next hq => exact Int.ceil_eq_zero_iff.mpr ⟨hlo, le_of_lt (not_le.mp hq)⟩

theorem truncate_intCast (n : ℤ) : truncate n = n := by
  unfold truncate
  split
  · exact Int.floor_intCast n
  · exact Int.ceil_intCast n

/-- A negative power of an integer that is neither zero nor a unit rounds to zero. -/
theorem truncate_zpow {a b : ℤ} (ha : 2 ≤ |a|) (hb : b < 0) : truncate ((a : ℚ) ^ b) = 0 := by
  refine truncate_of_abs_lt_one ?_
  have habs : (1 : ℚ) < |(a : ℚ)| := by
    rw [← Int.cast_abs]
    exact_mod_cast lt_of_lt_of_le one_lt_two ha
  rw [abs_zpow]
  exact zpow_lt_one_of_neg₀ habs hb

/-- The powers of minus one alternate. -/
theorem neg_one_zpow (b : ℤ) : (((-1 : ℤ) : ℚ)) ^ b = ((if b % 2 = 1 then -1 else 1 : ℤ) : ℚ) := by
  push_cast
  split
  · next h => rw [Odd.neg_one_zpow (Int.odd_iff.mpr h)]
  · next h =>
      rw [Even.neg_one_zpow (Int.even_iff.mpr ((Int.emod_two_eq_zero_or_one b).resolve_right h))]

end Power
