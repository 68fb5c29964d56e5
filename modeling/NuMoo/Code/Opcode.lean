import NuMoo.Base

/-!
# Opcodes

The instruction bytes of `opcode.h`, as it is compiled without
`BYTECODE_REDUCE_REF`. Every byte is an opcode: those from `OPTIM_NUM_START` on
stand for small integers.

Results:
1. `Opcode.ofByte_toByte`: decoding inverts encoding.
2. `Opcode.toByte_inj`: distinct opcodes have distinct bytes.
-/

namespace NuMoo

/-- `NUM_READY_VARS` -/
abbrev NUM_READY_VARS : Nat := 32

/-- `enum Opcode`. The families `OP_PUT + n`, `OP_PUSH + n` and the small integers have
a parameter. -/
inductive Opcode where
  | OP_IF | OP_WHILE | OP_EIF | OP_FORK | OP_FORK_WITH_ID | OP_FOR_LIST | OP_FOR_RANGE
  | OP_INDEXSET | OP_PUSH_GET_PROP | OP_GET_PROP | OP_CALL_VERB | OP_PUT_PROP | OP_BI_FUNC_CALL
  | OP_IF_QUES | OP_REF | OP_RANGE_REF | OP_MAKE_SINGLETON_LIST | OP_CHECK_LIST_FOR_SPLICE
  | OP_MULT | OP_DIV | OP_MOD | OP_ADD | OP_MINUS
  | OP_EQ | OP_NE | OP_LT | OP_LE | OP_GT | OP_GE | OP_IN | OP_AND | OP_OR | OP_UNARY_MINUS | OP_NOT
  | OP_PUT (n : Fin NUM_READY_VARS) | OP_G_PUT | OP_PUSH (n : Fin NUM_READY_VARS) | OP_G_PUSH
  | OP_IMM | OP_MAKE_EMPTY_LIST | OP_LIST_ADD_TAIL | OP_LIST_APPEND | OP_PUSH_REF
  | OP_PUT_TEMP | OP_PUSH_TEMP
  | OP_JUMP | OP_RETURN | OP_RETURN0 | OP_DONE | OP_POP | OP_EXTENDED
  | OPTIM_NUM (i : Int)
deriving DecidableEq, Repr

/-- `enum Extended_Opcode` -/
inductive ExtendedOpcode where
  | EOP_RANGESET | EOP_LENGTH | EOP_PUSH_LABEL | EOP_END_CATCH | EOP_END_EXCEPT
  | EOP_END_FINALLY | EOP_CONTINUE
  | EOP_CATCH | EOP_TRY_EXCEPT | EOP_TRY_FINALLY | EOP_WHILE_ID | EOP_EXIT | EOP_EXIT_ID
  | EOP_SCATTER | EOP_EXP
deriving DecidableEq, Repr

def OPTIM_NUM_START : Nat := 113
def OPTIM_NUM_LOW : Int := -10
def OPTIM_NUM_HI : Int := 132

/-- `IN_OPTIM_NUM_RANGE` -/
def inOptimNumRange (i : Int) : Bool := OPTIM_NUM_LOW ≤ i && i ≤ OPTIM_NUM_HI

namespace Opcode

/-- The opcodes before `OP_PUT`, in order. -/
def lowOps : List Opcode :=
  [OP_IF, OP_WHILE, OP_EIF, OP_FORK, OP_FORK_WITH_ID, OP_FOR_LIST, OP_FOR_RANGE,
   OP_INDEXSET, OP_PUSH_GET_PROP, OP_GET_PROP, OP_CALL_VERB, OP_PUT_PROP, OP_BI_FUNC_CALL,
   OP_IF_QUES, OP_REF, OP_RANGE_REF, OP_MAKE_SINGLETON_LIST, OP_CHECK_LIST_FOR_SPLICE,
   OP_MULT, OP_DIV, OP_MOD, OP_ADD, OP_MINUS,
   OP_EQ, OP_NE, OP_LT, OP_LE, OP_GT, OP_GE, OP_IN, OP_AND, OP_OR, OP_UNARY_MINUS, OP_NOT]

/-- The opcodes from `OP_G_PUSH` to `OP_EXTENDED`, in order. -/
def highOps : List Opcode :=
  [OP_G_PUSH, OP_IMM, OP_MAKE_EMPTY_LIST, OP_LIST_ADD_TAIL, OP_LIST_APPEND, OP_PUSH_REF,
    OP_PUT_TEMP, OP_PUSH_TEMP,
   OP_JUMP, OP_RETURN, OP_RETURN0, OP_DONE, OP_POP, OP_EXTENDED]

/-- The byte of an opcode; that of a small integer is `OPTIM_NUM_TO_OPCODE`. -/
def toByte : Opcode → UInt8
  | OP_PUT n => UInt8.ofNat (34 + n)
  | OP_G_PUT => 66
  | OP_PUSH n => UInt8.ofNat (67 + n)
  | OPTIM_NUM i => UInt8.ofNat (OPTIM_NUM_START + (i - OPTIM_NUM_LOW).toNat)
  | op => if op ∈ lowOps then UInt8.ofNat (lowOps.idxOf op) else UInt8.ofNat (99 + highOps.idxOf op)

/-- The opcode of a byte. -/
def ofByte (b : UInt8) : Opcode :=
  if h : 34 ≤ b.toNat ∧ b.toNat < 66 then OP_PUT ⟨b.toNat - 34, by simp [NUM_READY_VARS]; omega⟩
  else if b = 66 then OP_G_PUT
  else if h : 67 ≤ b.toNat ∧ b.toNat < 99 then OP_PUSH ⟨b.toNat - 67,
    by simp [NUM_READY_VARS]; omega⟩
  else if OPTIM_NUM_START ≤ b.toNat then OPTIM_NUM (b.toNat - OPTIM_NUM_START + OPTIM_NUM_LOW)
  else if b.toNat < 34 then lowOps.getD b.toNat OP_DONE
  else highOps.getD (b.toNat - 99) OP_DONE

/-- An opcode that has a byte: the integers outside the range have none. -/
def Encodable : Opcode → Prop
  | OPTIM_NUM i => inOptimNumRange i = true
  | _ => True

theorem ofByte_toByte {op : Opcode} (h : op.Encodable) : ofByte op.toByte = op := by
  cases op with
  | OP_PUT n => clear h; revert n; decide
  | OP_PUSH n => clear h; revert n; decide
  | OPTIM_NUM i =>
    have hi : OPTIM_NUM_LOW ≤ i ∧ i ≤ OPTIM_NUM_HI := by simpa [Encodable, inOptimNumRange] using h
    rw [OPTIM_NUM_LOW, OPTIM_NUM_HI] at hi
    obtain ⟨n, rfl⟩ : ∃ n : Nat, i = n - 10 := ⟨(i + 10).toNat, by omega⟩
    have hn : n ≤ 142 := by omega
    have hb : (toByte (OPTIM_NUM (n - 10))).toNat = 113 + n := by
      rw [toByte, OPTIM_NUM_START, OPTIM_NUM_LOW, UInt8.toNat_ofNat']
      omega
    have hne : toByte (OPTIM_NUM (n - 10)) ≠ 66 := by
      intro he
      rw [he] at hb
      simp at hb
      omega
    rw [ofByte, dif_neg (by omega), if_neg hne, dif_neg (by omega),
      if_pos (by rw [hb, OPTIM_NUM_START]; omega), hb,
      OPTIM_NUM_START, OPTIM_NUM_LOW]
    congr 1
    omega
  | _ => decide

theorem toByte_inj {op op' : Opcode} (h : op.Encodable) (h' : op'.Encodable)
    (he : op.toByte = op'.toByte) : op = op' := by
  rw [← ofByte_toByte h, he, ofByte_toByte h']

end Opcode

namespace ExtendedOpcode

/-- The extended opcodes, in order. -/
def ops : List ExtendedOpcode :=
  [EOP_RANGESET, EOP_LENGTH, EOP_PUSH_LABEL, EOP_END_CATCH, EOP_END_EXCEPT,
    EOP_END_FINALLY, EOP_CONTINUE,
   EOP_CATCH, EOP_TRY_EXCEPT, EOP_TRY_FINALLY, EOP_WHILE_ID, EOP_EXIT, EOP_EXIT_ID,
   EOP_SCATTER, EOP_EXP]

def toByte (op : ExtendedOpcode) : UInt8 := UInt8.ofNat (ops.idxOf op)

/-- The extended opcode of a byte, if it is one. -/
def ofByte (b : UInt8) : Option ExtendedOpcode := ops[b.toNat]?

theorem ofByte_toByte (op : ExtendedOpcode) : ofByte op.toByte = some op := by
  cases op <;> decide

end ExtendedOpcode

end NuMoo
