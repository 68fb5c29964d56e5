import NuMoo.Code.Value
import NuMoo.Db.Dbio
import NuMoo.Db.Properties
import NuMoo.Exec.Numbers
import NuMoo.Exec.Ranges
import NuMoo.Net.Index

/-!
# What the opcodes do with values

The operators of `run()` on their operands: comparisons and arithmetic (`numbers.c`), `in`,
references to elements and their replacement. `Except.error` is the code of the error, and no
value at all is what C leaves undefined. Operations on floats are parameters.
-/

namespace NuMoo

open Net
open NuMoo.Lex (num64)

/-- What the opcodes use of floats. -/
structure FloatOps extends FloatEnv where
  /-- `<` -/
  lt : UInt64 → UInt64 → Bool
  /-- The operations, and `fmod`, have no value where what they return is not `IS_REAL`. -/
  add : UInt64 → UInt64 → Option UInt64
  sub : UInt64 → UInt64 → Option UInt64
  mul : UInt64 → UInt64 → Option UInt64
  div : UInt64 → UInt64 → Option UInt64
  mod : UInt64 → UInt64 → Option UInt64

/-- The types that comparisons and arithmetic hand on to `numbers.c`. -/
def Var.isNumber : Var → Bool
  | .int _ | .float _ => true
  | _ => false

/-- `compare_integers` -/
def compareIntegers (a b : Int) : Int := if a < b then -1 else if a > b then 1 else 0

/-- `compare_numbers` -/
def compareNumbers (fl : FloatOps) (a b : Var) : Except ErrCode Int :=
  match a, b with
  | .int a, .int b => .ok (compareIntegers a b)
  | .float x, .float y => .ok (if fl.lt x y then -1 else if fl.lt y x then 1 else 0)
  | _, _ => .error .E_TYPE

/-- The comparison that `OP_LT` and its kind make. -/
def comparison (fl : FloatOps) (lhs rhs : Var) : Except ErrCode Int :=
  if lhs.isNumber && rhs.isNumber then compareNumbers fl lhs rhs
  else
    match lhs, rhs with
    | .obj a, .obj b => .ok (compareIntegers a b)
    | .err a, .err b => .ok (a.num - b.num)
    | .str a, .str b => .ok (mystrcasecmp a b)
    -- The source logs the type, and takes the two as equal.
    | .waif _, .waif _ | .clear, .clear | .none, .none | .catch _, .catch _
    | .finally _, .finally _ => .ok 0
    | _, _ => .error .E_TYPE

/-- A truth value. -/
def Var.ofBool (b : Bool) : Var := .int (if b then 1 else 0)

/-- A float that is `IS_REAL`, or `E_FLOAT`. -/
def realFloat : Option UInt64 → Except ErrCode Var
  | some d => .ok (.float d)
  | none => .error .E_FLOAT

/-- `SIMPLE_BINARY`; integers wrap. -/
def simpleBinary (op : Int → Int → Int) (fop : UInt64 → UInt64 → Option UInt64) (a b : Var) :
    Except ErrCode Var :=
  match a, b with
  | .int a, .int b => .ok (.int (num64 (op a b)))
  | .float x, .float y => realFloat (fop x y)
  | _, _ => .error .E_TYPE

def doAdd (fl : FloatOps) : Var → Var → Except ErrCode Var := simpleBinary (· + ·) fl.add
def doSubtract (fl : FloatOps) : Var → Var → Except ErrCode Var := simpleBinary (· - ·) fl.sub
def doMultiply (fl : FloatOps) : Var → Var → Except ErrCode Var := simpleBinary (· * ·) fl.mul

/-- `DIVISION_OP`. The least integer divided by minus one has no value in C. -/
def divisionOp (op : Int → Int → Int) (fop : UInt64 → UInt64 → Option UInt64) (a b : Var) :
    Option (Except ErrCode Var) :=
  match a, b with
  | .int a, .int b =>
    if b = 0 then some (.error .E_DIV)
    else if a = -2 ^ 63 ∧ b = -1 then none
    else some (.ok (.int (op a b)))
  | .float x, .float y => some (if floatIsZero y then .error .E_DIV else realFloat (fop x y))
  | _, _ => some (.error .E_TYPE)

def doDivide (fl : FloatOps) : Var → Var → Option (Except ErrCode Var) := divisionOp Int.tdiv fl.div
def doModulus (fl : FloatOps) : Var → Var → Option (Except ErrCode Var) :=
  divisionOp Int.tmod fl.mod

/-- The operators that `OP_MULT`, `OP_MINUS`, `OP_DIV` and `OP_MOD` apply. -/
def arithmetic (f : Var → Var → Option (Except ErrCode Var)) (lhs rhs : Var) :
    Option (Except ErrCode Var) :=
  if lhs.isNumber && rhs.isNumber then f lhs rhs else some (.error .E_TYPE)

/-- `OP_ADD` on its operands. -/
def addition (fl : FloatOps) (lhs rhs : Var) : Except ErrCode Var :=
  if lhs.isNumber && rhs.isNumber then doAdd fl lhs rhs
  else
    match lhs, rhs with
    | .str s, .str t => .ok (.str (s ++ t))
    | _, _ => .error .E_TYPE

/-- `OP_UNARY_MINUS` on its operand; a float has its sign changed. -/
def negation : Var → Except ErrCode Var
  | .int n => .ok (.int (num64 (-n)))
  | .float d => .ok (.float (d ^^^ 0x8000000000000000))
  | _ => .error .E_TYPE

/-- The error that an operation returns as a value. -/
def ofErrVar : Var → Except ErrCode Var
  | .err e => .error e
  | v => .ok v

/-- `ismember`: the place of the value, counted from one, or zero. -/
def ismember (lhs : Var) (l : List Var) : Int :=
  ((l.findIdx? fun x => equality false lhs x).map fun i => (i : Int) + 1).getD 0

/-- `OP_IN` on its operands. -/
def membership (lhs rhs : Var) : Option (Except ErrCode Var) :=
  match rhs, lhs with
  | .list l, _ => some (.ok (.int (ismember lhs l)))
  | .str source, .str what => (strindex source what false).map fun n => .ok (.int n)
  | _, _ => some (.error .E_TYPE)

/-- `strget` -/
def strget (str : Str) (i : Int) : Option Str := do
  let ind ← skipUtf (str ++ [0]) (int32 (i - 1))
  let c ← (str ++ [0])[ind]?
  return (str.drop ind).take (clearanceUtf c)

/-- `OP_REF` on a value that is no waif. -/
def elementRef (list index : Var) : Option (Except ErrCode Var) :=
  match index, list with
  | .int i, .list l =>
    if i ≤ 0 ∨ i > l.length then some (.error .E_RANGE) else (element l i).map .ok
  | .int i, .str s => do
    let len ← strlenUtf (s ++ [0])
    if i ≤ 0 ∨ i > int32 len then return .error .E_RANGE
    return .ok (.str (← strget s i))
  | _, _ => some (.error .E_TYPE)

/-- `OP_PUSH_REF` on its operands. -/
def elementPush (list index : Var) : Option (Except ErrCode Var) :=
  match index, list with
  | .int i, .list l =>
    if i ≤ 0 ∨ i > l.length then some (.error .E_RANGE) else (element l i).map .ok
  | _, _ => some (.error .E_TYPE)

/-- `OP_INDEXSET` on a value that is no waif. -/
def elementSet (list index value : Var) : Option (Except ErrCode Var) :=
  match list, index, value with
  | .list l, .int i, v =>
    some (if i < 1 ∨ i > l.length then .error .E_RANGE else .ok (.list (l.set (i - 1).toNat v)))
  | .str s, .int i, .str v => do
    let len ← strlenUtf (s ++ [0])
    if i < 1 ∨ i > int32 len then return .error .E_RANGE
    if (← strlenUtf (v ++ [0])) ≠ 1 then return .error .E_INVARG
    return .ok (.str (← strrangeset s (int32 i) (int32 i) v))
  | _, _, _ => some (.error .E_TYPE)

/-- `OP_LIST_ADD_TAIL` on its operands. -/
def addTail (list tail : Var) : Except ErrCode Var :=
  match list with
  | .list l => .ok (.list (l ++ [tail]))
  | _ => .error .E_TYPE

/-- `OP_LIST_APPEND` on its operands. -/
def appendList (list tail : Var) : Except ErrCode Var :=
  match list, tail with
  | .list l, .list t => .ok (.list (l ++ t))
  | _, _ => .error .E_TYPE

/-- `EOP_LENGTH` on the value whose length it is. -/
def lengthOf : Var → Option (Except ErrCode Var)
  | .str s => (strlenUtf (s ++ [0])).map fun len => .ok (.int (int32 len))
  | .list l => some (.ok (.int l.length))
  | _ => some (.error .E_TYPE)

end NuMoo
