import Mathlib.Algebra.Ring.Int.Defs
import Mathlib.Algebra.Ring.Nat
import Mathlib.Data.List.Basic
import Mathlib.Tactic.Common

/-!
# Basic data of the server

Object numbers, error codes, C strings and the values (`Var`) that variables,
property slots and the run-time stack hold. The names follow `structures.h`
and `utils.c`.
-/

namespace NuMoo

/-- `Objid`, a signed 64-bit object number. -/
abbrev Objid := Int

/-- `NOTHING`, the object number that stands for no object. -/
def NOTHING : Objid := -1

/-- `enum error`, in the order that the database format fixes. -/
inductive ErrCode where
  | E_NONE | E_TYPE | E_DIV | E_PERM | E_PROPNF | E_VERBNF | E_VARNF | E_INVIND
  | E_RECMOVE | E_MAXREC | E_RANGE | E_ARGS | E_NACC | E_INVARG | E_QUOTA | E_FLOAT
deriving DecidableEq, Repr

/-- The conversion of a `Num` to an `int`. -/
def int32 (n : Int) : Int := n.bmod (2 ^ 32)

/-- A byte string. Where the source expects a NUL terminator it is read at the
end of the list; a NUL inside the list ends the C string early, as in memory. -/
abbrev Str := List UInt8

/-- `cmap`: the table folds ASCII upper case to lower case and is the identity
on every other byte. -/
def cmap (c : UInt8) : UInt8 :=
  if 65 ≤ c ∧ c ≤ 90 then c + 32 else c

/-- The value of `cmap[c]` as the `char` the table holds, a signed byte. -/
def cmapChar (c : UInt8) : Int :=
  if cmap c < 128 then (cmap c).toNat else (cmap c).toNat - 256

/-- `mystrcasecmp`: zero when the strings are equal up to ASCII case, otherwise
the difference of the first pair of folded characters that differ. -/
def mystrcasecmp : Str → Str → Int
  | [], t => if cmap 0 = cmap (t.headD 0) then 0 else cmapChar 0 - cmapChar (t.headD 0)
  | a :: s, t =>
    if cmap a = cmap (t.headD 0) then
      if a = 0 then 0 else mystrcasecmp s t.tail
    else cmapChar a - cmapChar (t.headD 0)

/-- One turn of the loop of `str_hash`, on 32-bit unsigned arithmetic. -/
def hashStep (ans : UInt32) (c : UInt8) : UInt32 :=
  (ans <<< 3) + (ans >>> 28) + UInt32.ofInt (cmapChar c)

/-- `str_hash` -/
def strHash (s : Str) : UInt32 :=
  go 0 s
where
  go (ans : UInt32) : Str → UInt32
    | [] => ans
    | c :: s => if c = 0 then ans else go (hashStep ans c) s

/-- What `mystrcasecmp` and `str_hash` see of a string: its folded characters
up to the terminating NUL. -/
def nameKey (s : Str) : Str :=
  (s.takeWhile (· ≠ 0)).map cmap

theorem int32_emod (n : Int) : int32 n % 2 ^ 32 = n % 2 ^ 32 := Int.bmod_emod

theorem int32_bounds (n : Int) : -2 ^ 31 ≤ int32 n ∧ int32 n < 2 ^ 31 :=
  ⟨Int.le_bmod (by decide), Int.bmod_lt (by decide)⟩

/-- A number that fits is not changed. -/
theorem int32_eq_self {n : Int} (hlo : -2 ^ 31 ≤ n) (hhi : n < 2 ^ 31) : int32 n = n := by
  have hmod := int32_emod n
  have hbounds := int32_bounds n
  omega

/-- What is added to an `int` may be added before the number is cut off. -/
theorem int32_add (a b : Int) : int32 (int32 a + b) = int32 (a + b) := Int.bmod_add_bmod

theorem int32_sub (a b : Int) : int32 (int32 a - b) = int32 (a - b) := Int.bmod_sub_bmod

theorem int32_int32 (n : Int) : int32 (int32 n) = int32 n :=
  int32_eq_self (int32_bounds n).1 (int32_bounds n).2

theorem cmap_eq_zero {c : UInt8} : cmap c = 0 ↔ c = 0 := by
  constructor
  · intro h
    unfold cmap at h
    split at h
    · next hc =>
      have hn : (c + 32).toNat = 0 := by rw [h]; rfl
      rw [UInt8.toNat_add] at hn
      have h65 : 65 ≤ c.toNat := UInt8.le_iff_toNat_le.mp hc.1
      have h90 : c.toNat ≤ 90 := UInt8.le_iff_toNat_le.mp hc.2
      simp only [UInt8.reduceToNat] at hn
      omega
    · exact h
  · rintro rfl
    rfl

theorem cmapChar_inj {a b : UInt8} : cmapChar a = cmapChar b ↔ cmap a = cmap b := by
  constructor
  · intro h
    unfold cmapChar at h
    have ha := (cmap a).toNat_lt
    have hb := (cmap b).toNat_lt
    apply UInt8.toNat_inj.mp
    split at h <;> split at h <;> simp_all [UInt8.lt_iff_toNat_lt] <;> omega
  · intro h
    simp [cmapChar, h]

@[simp] theorem nameKey_nil : nameKey [] = [] := rfl

theorem nameKey_cons (a : UInt8) (s : Str) :
    nameKey (a :: s) = if a = 0 then [] else cmap a :: nameKey s := by
  by_cases h : a = 0 <;> simp [nameKey, h]

/-- `mystrcasecmp` returns zero exactly on strings with the same key. -/
theorem mystrcasecmp_eq_zero {s t : Str} : mystrcasecmp s t = 0 ↔ nameKey s = nameKey t := by
  induction s generalizing t with
  | nil =>
    cases t with
    | nil => simp [mystrcasecmp]
    | cons b t =>
      have hb : (0 : UInt8) = cmap b ↔ b = 0 := by rw [eq_comm, cmap_eq_zero]
      simp only [mystrcasecmp, List.headD_cons, nameKey_nil, nameKey_cons, cmap_eq_zero.mpr rfl, hb]
      by_cases h : b = 0
      · simp [h]
      · have hne : cmapChar 0 ≠ cmapChar b := by
          rw [Ne, cmapChar_inj, cmap_eq_zero.mpr rfl, hb]; exact h
        simp [h, Int.sub_eq_zero, hne]
  | cons a s ih =>
    cases t with
    | nil =>
      simp only [mystrcasecmp, List.headD_nil, nameKey_nil, nameKey_cons,
        cmap_eq_zero.mpr rfl, cmap_eq_zero]
      by_cases h : a = 0
      · simp [h]
      · have hne : cmapChar a ≠ cmapChar 0 := by
          rw [Ne, cmapChar_inj, cmap_eq_zero.mpr rfl, cmap_eq_zero]; exact h
        simp [h, Int.sub_eq_zero, hne]
    | cons b t =>
      simp only [mystrcasecmp, List.headD_cons, List.tail_cons, nameKey_cons]
      by_cases h : cmap a = cmap b
      · have hz : a = 0 ↔ b = 0 := by rw [← cmap_eq_zero (c := a), h, cmap_eq_zero]
        by_cases h0 : a = 0
        · simp [h0, hz.mp h0]
        · simp [h, h0, mt hz.mpr h0, ih]
      · have hne : cmapChar a ≠ cmapChar b := by rwa [Ne, cmapChar_inj]
        simp only [h, if_false, Int.sub_eq_zero, hne, false_iff]
        by_cases h0 : a = 0 <;> by_cases h1 : b = 0 <;> simp_all

theorem strHash_go_eq (s : Str) (ans : UInt32) :
    strHash.go ans s = (s.takeWhile (· ≠ 0)).foldl hashStep ans := by
  induction s generalizing ans with
  | nil => rfl
  | cons c s ih =>
    by_cases h : c = 0
    · simp [strHash.go, h]
    · simp [strHash.go, h, ih]

/-- Equal keys have equal hashes, so testing the hash first never hides a match. -/
theorem strHash_eq_of_key {s t : Str} (h : nameKey s = nameKey t) : strHash s = strHash t := by
  have key : ∀ (l m : Str) (ans : UInt32), l.map cmap = m.map cmap →
      l.foldl hashStep ans = m.foldl hashStep ans := by
    intro l
    induction l with
    | nil => intro m ans hm; cases m <;> simp_all
    | cons a l ih =>
      intro m ans hm
      cases m with
      | nil => simp at hm
      | cons b m =>
        simp only [List.map_cons, List.cons.injEq] at hm
        simp only [List.foldl_cons, hashStep, cmapChar_inj.mpr hm.1]
        exact ih m _ hm.2
  unfold strHash
  rw [strHash_go_eq, strHash_go_eq]
  exact key _ _ 0 h

/-! ## Values -/

/-- A `Var`: the user-visible types and the markers that only property slots,
variables and the run-time stack hold. A float is its 64 bits; a waif is named by
its address. -/
inductive Var where
  | int (num : Int)
  | obj (obj : Objid)
  | str (str : Str)
  | err (err : ErrCode)
  | list (list : List Var)
  | clear
  | none
  | catch (num : Int)
  | finally (num : Int)
  | float (bits : UInt64)
  | waif (addr : Nat)
deriving Repr, Inhabited

mutual

/-- Equality of values is decidable. -/
def Var.decEq : (a b : Var) → Decidable (a = b)
  | .int a, b => match b with
    | .int b => decidable_of_iff (a = b) (by simp)
    | .obj _ | .str _ | .err _ | .list _ | .clear | .none | .catch _ | .finally _ | .float _
    | .waif _ => isFalse (by simp)
  | .obj a, b => match b with
    | .obj b => decidable_of_iff (a = b) (by simp)
    | .int _ | .str _ | .err _ | .list _ | .clear | .none | .catch _ | .finally _ | .float _
    | .waif _ => isFalse (by simp)
  | .str a, b => match b with
    | .str b => decidable_of_iff (a = b) (by simp)
    | .int _ | .obj _ | .err _ | .list _ | .clear | .none | .catch _ | .finally _ | .float _
    | .waif _ => isFalse (by simp)
  | .err a, b => match b with
    | .err b => decidable_of_iff (a = b) (by simp)
    | .int _ | .obj _ | .str _ | .list _ | .clear | .none | .catch _ | .finally _ | .float _
    | .waif _ => isFalse (by simp)
  | .list a, b => match b with
    | .list b => match Var.decEqList a b with
      | isTrue h => isTrue (by rw [h])
      | isFalse h => isFalse (by simpa using h)
    | .int _ | .obj _ | .str _ | .err _ | .clear | .none | .catch _ | .finally _ | .float _
    | .waif _ => isFalse (by simp)
  | .clear, b => match b with
    | .clear => isTrue rfl
    | .int _ | .obj _ | .str _ | .err _ | .list _ | .none | .catch _ | .finally _ | .float _
    | .waif _ => isFalse (by simp)
  | .none, b => match b with
    | .none => isTrue rfl
    | .int _ | .obj _ | .str _ | .err _ | .list _ | .clear | .catch _ | .finally _ | .float _
    | .waif _ => isFalse (by simp)
  | .catch a, b => match b with
    | .catch b => decidable_of_iff (a = b) (by simp)
    | .int _ | .obj _ | .str _ | .err _ | .list _ | .clear | .none | .finally _ | .float _
    | .waif _ => isFalse (by simp)
  | .finally a, b => match b with
    | .finally b => decidable_of_iff (a = b) (by simp)
    | .int _ | .obj _ | .str _ | .err _ | .list _ | .clear | .none | .catch _ | .float _
    | .waif _ => isFalse (by simp)
  | .float a, b => match b with
    | .float b => decidable_of_iff (a = b) (by simp)
    | .int _ | .obj _ | .str _ | .err _ | .list _ | .clear | .none | .catch _ | .finally _
    | .waif _ => isFalse (by simp)
  | .waif a, b => match b with
    | .waif b => decidable_of_iff (a = b) (by simp)
    | .int _ | .obj _ | .str _ | .err _ | .list _ | .clear | .none | .catch _ | .finally _
    | .float _ => isFalse (by simp)

/-- Equality of lists of values is decidable. -/
def Var.decEqList : (a b : List Var) → Decidable (a = b)
  | [], [] => isTrue rfl
  | [], _ :: _ => isFalse (by simp)
  | _ :: _, [] => isFalse (by simp)
  | a :: as, b :: bs => match Var.decEq a b, Var.decEqList as bs with
    | isTrue h, isTrue hs => isTrue (by rw [h, hs])
    | isFalse h, _ => isFalse (by simp [h])
    | _, isFalse hs => isFalse (by simp [hs])

end

instance : DecidableEq Var := Var.decEq

end NuMoo
