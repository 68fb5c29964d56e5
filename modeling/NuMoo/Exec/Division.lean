import Mathlib.Data.Int.ModEq
import NuMoo.Exec.Run

/-!
# Integer division

`OP_DIV` and `OP_MOD` on two integers. They truncate; the least integer divided by minus one
has a quotient that is no integer of 64 bits, and neither operator of C has a value there.

Results:
1. `Machine.runDivision_eq`: what the two opcodes do with integers, as one equation.
2. `divides_iff`: quotient and remainder are right but for the least integer over minus one.
-/

namespace NuMoo.Exec

variable {D : Type} {env : RunEnv D} {m : Machine D} {a b : Int64} {s : List Var}

/-! ## Quotient and remainder -/

/-- The two opcodes. -/
inductive Divider where
  | div
  | mod
deriving DecidableEq, Repr

namespace Divider

def opcode : Divider → Opcode
  | div => .OP_DIV
  | mod => .OP_MOD

/-- The operator of C. -/
def op : Divider → Int → Int → Int
  | div => Int.tdiv
  | mod => Int.tmod

end Divider

/-- The operands that the operators of C have no value for. -/
def Traps (a b : Int64) : Prop := a.toInt = -2 ^ 63 ∧ b.toInt = -1

instance (a b : Int64) : Decidable (Traps a b) := inferInstanceAs (Decidable (_ ∧ _))

/-- The remainder is smaller than the divisor and has the sign of the dividend. -/
theorem tmod_small {a b : Int} (hb : b ≠ 0) :
    |a.tmod b| < |b| ∧ (a.tmod b = 0 ∨ (a.tmod b).sign = a.sign) := by
  constructor
  · have hlt : (a.tmod b).natAbs < b.natAbs := by
      rw [Int.natAbs_tmod]
      exact Nat.mod_lt _ (Int.natAbs_pos.mpr hb)
    rw [Int.abs_eq_natAbs, Int.abs_eq_natAbs]
    exact_mod_cast hlt
  · refine or_iff_not_imp_left.mpr fun h => ?_
    rcases lt_trichotomy a 0 with ha | rfl | ha
    · have hle : 0 ≤ (-a).tmod b := Int.tmod_nonneg b (neg_nonneg.mpr ha.le)
      rw [Int.neg_tmod, neg_nonneg] at hle
      rw [Int.sign_eq_neg_one_of_neg ha, Int.sign_eq_neg_one_of_neg (lt_of_le_of_ne hle h)]
    · exact absurd (Int.zero_tmod b) h
    · have hle : 0 ≤ a.tmod b := Int.tmod_nonneg b ha.le
      rw [Int.sign_eq_one_of_pos ha, Int.sign_eq_one_of_pos (lt_of_le_of_ne hle (Ne.symm h))]

/-- The quotient has 64 bits, unless the operator traps. -/
theorem tdiv_fits (hb : b.toInt ≠ 0) (h : ¬ Traps a b) :
    ∃ q : Int64, q.toInt = a.toInt.tdiv b.toInt := by
  have hle : (a.toInt.tdiv b.toInt).natAbs ≤ a.toInt.natAbs := Int.natAbs_tdiv_le_natAbs _ _
  have ha := And.intro a.le_toInt a.toInt_lt
  have hb' := And.intro b.le_toInt b.toInt_lt
  refine ⟨Int64.ofInt (a.toInt.tdiv b.toInt), Int64.toInt_ofInt_of_le (by omega)
    (lt_of_le_of_ne (by omega) fun htop => h ?_)⟩
  have hmin : a.toInt = -2 ^ 63 := by omega
  refine ⟨hmin, ?_⟩
  have hsum : 2 ^ 63 * b.toInt + a.toInt.tmod b.toInt = a.toInt :=
    htop ▸ Int.tdiv_mul_add_tmod a.toInt b.toInt
  have hsmall := (tmod_small hb (a := a.toInt)).1
  rw [Int.abs_eq_natAbs, Int.abs_eq_natAbs] at hsmall
  omega

/-- The remainder has 64 bits. -/
theorem tmod_fits (hb : b.toInt ≠ 0) : ∃ r : Int64, r.toInt = a.toInt.tmod b.toInt := by
  have hsmall := (tmod_small hb (a := a.toInt)).1
  rw [Int.abs_eq_natAbs, Int.abs_eq_natAbs] at hsmall
  have hb' := And.intro b.le_toInt b.toInt_lt
  exact ⟨Int64.ofInt (a.toInt.tmod b.toInt), Int64.toInt_ofInt_of_le (by omega) (by omega)⟩

/-! ## The opcodes -/

namespace Machine

/-- The stack of the top activation is replaced. -/
def withStack (s : List Var) (m : Machine D) : Machine D :=
  m.setTop fun a => { a with rtStack := s }

/-- An opcode on two integers. -/
theorem runDivision_eq (d : Divider) (hs : m.top.rtStack = .int b.toInt :: .int a.toInt :: s) :
    m.runOpcode env d.opcode =
      if b.toInt = 0 then (m.withStack s).pushError .E_DIV
      else if Traps a b then none
      else next ((m.withStack s).push (.int (d.op a.toInt b.toInt))) := by
  have hpop : ∀ f, m.opBinary f =
      (f (.int a.toInt) (.int b.toInt)).bind (pushResult · (m.withStack s)) := by
    intro f
    simp only [opBinary, pop, hs, setTop, withStack, Option.bind_eq_bind, Option.bind_some]
  have hrun : ∀ fop, m.opBinary (arithmetic (divisionOp d.op fop)) =
      if b.toInt = 0 then (m.withStack s).pushError .E_DIV
      else if Traps a b then none
      else next ((m.withStack s).push (.int (d.op a.toInt b.toInt))) := by
    intro fop
    rw [hpop]
    show (divisionOp d.op fop (.int a.toInt) (.int b.toInt)).bind _ = _
    rw [divisionOp]
    split
    · rfl
    · show Option.bind (if Traps a b then _ else _) _ = _
      split <;> rfl
  cases d with
  | div => exact hrun env.floats.div
  | mod => exact hrun env.floats.mod

theorem runDivision_traps (d : Divider) (hs : m.top.rtStack = .int b.toInt :: .int a.toInt :: s)
    (h : Traps a b) :
    m.runOpcode env d.opcode = none := by
  have hb : b.toInt ≠ 0 := by
    rw [h.2]
    decide
  rw [runDivision_eq d hs, if_neg hb, if_pos h]

end Machine

/-- What the two opcodes ought to do with integers. -/
structure Divides (env : RunEnv D) (m : Machine D) (a b : Int64) (s : List Var) : Prop where
  /-- `E_DIV` is raised exactly where the divisor is zero. -/
  zero : ∀ d : Divider, (∃ r, m.runOpcode env d.opcode = some r ∧ r.detected = some .E_DIV) ↔
    b.toInt = 0
  /-- Elsewhere there are a quotient and a remainder. -/
  value : b.toInt ≠ 0 → ∃ q r : Int64,
    m.runOpcode env .OP_DIV = next ((m.withStack s).push (.int q.toInt)) ∧
    m.runOpcode env .OP_MOD = next ((m.withStack s).push (.int r.toInt)) ∧
    a.toInt ≡ q.toInt * b.toInt + r.toInt [ZMOD 2 ^ 64] ∧ |r.toInt| < |b.toInt| ∧
    (r.toInt = 0 ∨ r.toInt.sign = a.toInt.sign)

theorem detected_next {e : ErrCode} {m : Machine D} :
    ¬ ∃ r, next m = some r ∧ r.detected = some e := by
  rintro ⟨r, hr, hd⟩
  cases hr
  cases hd

theorem detected_pushError (e : ErrCode) (m : Machine D) :
    ∃ r, m.pushError e = some r ∧ r.detected = some e := by
  unfold Machine.pushError Machine.raiseError
  split
  · exact ⟨_, rfl, rfl⟩
  · exact ⟨_, rfl, rfl⟩

theorem not_divides (hs : m.top.rtStack = .int b.toInt :: .int a.toInt :: s) (h : Traps a b) :
    ¬ Divides env m a b s := by
  intro hd
  have hne : b.toInt ≠ 0 := by
    rw [h.2]
    decide
  obtain ⟨q, -, hq, -⟩ := hd.value hne
  have hnone : m.runOpcode env .OP_DIV = none := Machine.runDivision_traps .div hs h
  rw [hnone] at hq
  cases hq

/-- Quotient and remainder are as they ought to be, but for the least integer divided by minus
one. -/
theorem divides_iff (env : RunEnv D) (m : Machine D) (a b : Int64) (s : List Var)
    (hs : m.top.rtStack = .int b.toInt :: .int a.toInt :: s) :
    Divides env m a b s ↔ ¬ (a.toInt = -2 ^ 63 ∧ b.toInt = -1) := by
  constructor
  · exact fun hd h => not_divides hs h hd
  · intro h
    have htraps : ¬ Traps a b := h
    refine ⟨fun d => ?_, fun hb => ?_⟩
    · rw [Machine.runDivision_eq d hs, if_neg htraps]
      split
      · next hb => exact iff_of_true (detected_pushError _ _) hb
      · next hb => exact iff_of_false detected_next hb
    · have hrun : ∀ d : Divider, m.runOpcode env d.opcode =
          next ((m.withStack s).push (.int (d.op a.toInt b.toInt))) := by
        intro d
        rw [Machine.runDivision_eq d hs, if_neg hb, if_neg htraps]
      obtain ⟨q, hq⟩ := tdiv_fits hb htraps
      obtain ⟨r, hr⟩ := tmod_fits (a := a) hb
      obtain ⟨hsmall, hsign⟩ := tmod_small hb (a := a.toInt)
      refine ⟨q, r, hq ▸ hrun .div, hr ▸ hrun .mod, ?_, hr ▸ hsmall, hr ▸ hsign⟩
      rw [hq, hr, Int.tdiv_mul_add_tmod]

/-- A machine at a division. -/
def atDivision (a b : Int64) : Machine Unit :=
  Machine.bare default 0 true [] [.int b.toInt, .int a.toInt]

theorem divides_seven : Divides bareEnv (atDivision 7 (-2)) 7 (-2) [] :=
  (divides_iff _ _ _ _ _ rfl).mpr (by decide)

/-- The least integer divided by minus one. -/
theorem division_traps :
    ¬ Divides bareEnv (atDivision Int64.minValue (-1)) Int64.minValue (-1) [] :=
  not_divides rfl (by decide)

end NuMoo.Exec
