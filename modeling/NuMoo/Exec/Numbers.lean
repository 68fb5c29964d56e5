import Mathlib.Data.Int.ModEq
import Mathlib.Data.Int.Order.Basic
import NuMoo.Lib.Power
import NuMoo.Code.Lex

/-!
# Exponentiation

`do_power` of `numbers.c`, which `EOP_EXP` applies to the two operands. The conversion of an
integer to a float and the `pow` of the C library are parameters; overflow wraps, as the
machine's multiplication does.

Results:
1. `powerLoop_eq`: square and multiply computes the power modulo `2^64` within 64 turns.
2. `doPower_eq_iff`: integer powers are exact unless the base is minus one and the exponent
   negative.
-/

namespace NuMoo

open NuMoo.Lex (num64)

/-- What `do_power` uses of floats. -/
structure FloatEnv where
  /-- `(double) num` -/
  ofNum : Int → UInt64
  /-- `pow`, without a value where it sets `errno` or what it returns is not `IS_REAL`. -/
  pow : UInt64 → UInt64 → Option UInt64

/-- The loop of `do_power`, for a number of turns. -/
def powerLoop : Nat → Int → Int → Int → Option Int
  | 0, _, _, _ => none
  | n + 1, a, b, r =>
    if b = 0 then some r
    else powerLoop n (num64 (a * a)) (b / 2) (if b % 2 = 1 then num64 (r * a) else r)

/-- The power of floats in `do_power`. -/
def powerFloat (env : FloatEnv) (x d : UInt64) : Var :=
  match env.pow x d with
  | some d => .float d
  | none => .err .E_FLOAT

/-- `do_power` -/
def doPower (env : FloatEnv) (lhs rhs : Var) : Option Var :=
  match lhs with
  | .int a =>
    match rhs with
    | .int b =>
      if b < 0 then
        if a = -1 then some (.int (if b % 2 = 1 then 1 else -1))
        else if a = 0 then some (.err .E_DIV)
        else if a = 1 then some (.int 1)
        else some (.int 0)
      else (powerLoop 64 a b 1).map .int
    | _ => some (.err .E_TYPE)
  | .float x =>
    match rhs with
    | .int b => some (powerFloat env x (env.ofNum b))
    | .float d => some (powerFloat env x d)
    | _ => some (.err .E_TYPE)
  | _ => some (.err .E_TYPE)

/-- The power of two integers: wrapped to 64 bits, or rounded toward zero where the exponent is
negative. -/
def exactPower (a b : Int) : Var :=
  if 0 ≤ b then .int (num64 (a ^ b.toNat))
  else if a = 0 then .err .E_DIV
  else .int (Power.truncate ((a : ℚ) ^ b))

variable {a b r : Int} {n : Nat}

/-! ## Wrapped arithmetic -/

theorem num64_modEq (a : Int) : num64 a ≡ a [ZMOD 2 ^ 64] := Int.bmod_emod

theorem num64_eq_iff : num64 a = num64 b ↔ a ≡ b [ZMOD 2 ^ 64] := by
  constructor
  · intro h
    exact (num64_modEq a).symm.trans (h ▸ num64_modEq b)
  · intro h
    have ha : num64 (a % 2 ^ 64) = num64 a := Int.emod_bmod _ _
    have hb : num64 (b % 2 ^ 64) = num64 b := Int.emod_bmod _ _
    rw [← ha, ← hb, h]

/-- The turns run out only after the exponent does; `r * a ^ b` stays the same modulo `2^64`. -/
theorem powerLoop_eq {b : Nat} (hb : b < 2 ^ n) (hr : num64 r = r) :
    powerLoop (n + 1) a b r = some (num64 (r * a ^ b)) := by
  induction n generalizing a b r with
  | zero =>
    obtain rfl : b = 0 := by simpa using hb
    rw [powerLoop, if_pos Int.natCast_zero, pow_zero, mul_one, hr]
  | succ n ih =>
    rw [powerLoop]
    split
    · next h0 =>
      obtain rfl : b = 0 := Int.natCast_eq_zero.mp h0
      rw [pow_zero, mul_one, hr]
    · next h0 =>
      have hhalf : b / 2 < 2 ^ n := by
        rw [Nat.div_lt_iff_lt_mul (by decide), ← pow_succ]
        exact hb
      have hwrap : num64 (num64 (r * a)) = num64 (r * a) := num64_eq_iff.mpr (num64_modEq _)
      have hacc : num64 (if (b : Int) % 2 = 1 then num64 (r * a) else r) = if (b : Int) % 2 = 1 then
          num64 (r * a) else r := by
        split
        · exact hwrap
        · exact hr
      have hdiv : (b : Int) / 2 = (b / 2 : Nat) := by norm_cast
      rw [hdiv, ih hhalf hacc, Option.some_inj, num64_eq_iff]
      have hparity : (b : Int) % 2 = 1 ↔ b % 2 = 1 := by omega
      have hmul : (if (b : Int) % 2 = 1 then num64 (r * a) else r) ≡ (if b % 2 = 1 then r * a
        else r) [ZMOD 2 ^ 64] := by
        simp only [hparity]
        split
        · exact num64_modEq _
        · exact Int.ModEq.refl _
      have hpow : num64 (a * a) ^ (b / 2) ≡ (a * a) ^ (b / 2) [ZMOD 2 ^ 64] := (num64_modEq _).pow _
      rw [← Power.squareMultiply_step a r b]
      exact hmul.mul hpow

/-! ## Integer powers -/

theorem doPower_of_nonneg (env : FloatEnv) (hb : 0 ≤ b) (h63 : b < 2 ^ 63) :
    doPower env (.int a) (.int b) = some (exactPower a b) := by
  lift b to Nat using hb
  have hloop : powerLoop 64 a b 1 = some (num64 (1 * a ^ b)) :=
    powerLoop_eq (by exact_mod_cast h63) rfl
  have hneg : ¬ (b : Int) < 0 := not_lt.mpr (Int.natCast_nonneg b)
  simp only [doPower, exactPower, if_neg hneg, if_pos (Int.natCast_nonneg b), hloop, one_mul,
    Int.toNat_natCast,
    Option.map_some]

/-- A base other than minus one is treated as it should be. -/
theorem doPower_of_neg (env : FloatEnv) (hb : b < 0) (ha : a ≠ -1) :
    doPower env (.int a) (.int b) = some (exactPower a b) := by
  simp only [doPower, exactPower, if_pos hb, if_neg (not_le.mpr hb), if_neg ha]
  split
  · rfl
  · next h0 =>
    split
    · next h1 =>
      rw [h1, Int.cast_one, one_zpow]
      exact congrArg (some ∘ Var.int) (Power.truncate_intCast 1).symm
    · next h1 =>
      have habs : 2 ≤ |a| := by
        rw [le_abs]
        omega
      rw [Power.truncate_zpow habs hb]

/-- The two powers of minus one are exchanged. -/
theorem doPower_neg_one (env : FloatEnv) (hb : b < 0) :
    doPower env (.int (-1)) (.int b) ≠ some (exactPower (-1) b) := by
  have hexact : exactPower (-1) b = .int (if b % 2 = 1 then -1 else 1) := by
    rw [exactPower, if_neg (not_le.mpr hb), if_neg (by decide), Power.neg_one_zpow,
      Power.truncate_intCast]
  simp only [doPower, if_pos hb, if_true, hexact]
  split <;> decide

/-- Integer powers are exact for every base and exponent, but for minus one with a negative
exponent. -/
theorem doPower_eq_iff (env : FloatEnv) (a b : Int64) :
    doPower env (.int a.toInt) (.int b.toInt) = some (exactPower a.toInt b.toInt) ↔
    ¬ (a.toInt = -1 ∧ b.toInt < 0) := by
  constructor
  · rintro h ⟨ha, hb⟩
    rw [ha] at h
    exact doPower_neg_one env hb h
  · intro h
    rcases lt_or_ge b.toInt 0 with hb | hb
    · exact doPower_of_neg env hb fun ha => h ⟨ha, hb⟩
    · exact doPower_of_nonneg env hb b.toInt_lt

/-- The reciprocal of minus one is minus one, and the code says one. -/
theorem doPower_minus_one :
    doPower { ofNum := fun _ => 0, pow := fun _ _ => none } (.int (-1))
    (.int (-1)) = some (.int 1) ∧
      exactPower (-1) (-1) = .int (-1) := by
  refine ⟨rfl, ?_⟩
  rw [exactPower, if_neg (by decide), if_neg (by decide), Power.neg_one_zpow,
    Power.truncate_intCast]
  rfl

end NuMoo
