import Mathlib.Data.List.TakeWhile
import NuMoo.Base

/-!
# Equality of values

`equality` of `utils.c` and `do_equals` of `numbers.c`. A float is compared by its
bits: the two zeros are equal, and no NaN equals anything.
-/

namespace NuMoo

/-- The C string that a byte string holds. -/
def cstr (s : Str) : Str := s.takeWhile (· ≠ 0)

/-- The bytes of a string constant. -/
def bytes (s : String) : Str := s.toList.map fun c => UInt8.ofNat c.toNat

/-- Text without a NUL is a C string as it is. -/
theorem cstr_plain {s : Str} (h : 0 ∉ s) : cstr s = s :=
  List.takeWhile_eq_self_iff.mpr fun _ hc => decide_eq_true fun h0 => h (h0 ▸ hc)

theorem cstr_word {u : Str} (h : 0 ∉ u) (v : Str) : cstr (u ++ 0 :: v) = u := by
  have hall : ∀ c ∈ u, decide (c ≠ 0) = true := fun c hc => decide_eq_true fun h0 => h (h0 ▸ hc)
  rw [cstr, List.takeWhile_append_of_pos hall, List.takeWhile_cons_of_neg (by simp),
    List.append_nil]

theorem cstr_ends {u : Str} (h : 0 ∈ u) (v : Str) : cstr (u ++ v) = cstr u := by
  obtain ⟨a, b, rfl, ha⟩ := List.eq_append_cons_of_mem h
  rw [List.append_assoc, List.cons_append, cstr_word ha, cstr_word ha]

/-- Whether the bits are those of a zero. -/
def floatIsZero (a : UInt64) : Bool := a = 0 || a = 0x8000000000000000

/-- Whether the bits are those of a NaN. -/
def floatIsNan (a : UInt64) : Bool := (a &&& 0x7FFFFFFFFFFFFFFF) > 0x7FF0000000000000

/-- `==` on floats -/
def floatEq (a b : UInt64) : Bool :=
  (a = b && !floatIsNan a) || (floatIsZero a && floatIsZero b)

mutual

/-- `equality`. The source panics on two markers of one type, which no expression yields. -/
def equality (caseMatters : Bool) : Var → Var → Bool
  | .float a, .float b => floatEq a b
  | .int a, .int b => a = b
  | .obj a, .obj b => a = b
  | .err a, .err b => a = b
  | .str a, .str b => if caseMatters then cstr a = cstr b else mystrcasecmp a b = 0
  | .list a, .list b => equalityList caseMatters a b
  | .waif a, .waif b => a = b
  | _, _ => false

/-- The loop of `equality` over the elements of two lists. -/
def equalityList (caseMatters : Bool) : List Var → List Var → Bool
  | [], [] => true
  | a :: as, b :: bs => equality caseMatters a b && equalityList caseMatters as bs
  | _, _ => false

end

/-- The test of `add_literal`: the same type and equal, case and all. -/
def sameLiteral (v w : Var) : Bool := equality true v w

end NuMoo
