import NuMoo.Code.Program
import NuMoo.Code.Value

/-!
# The code generator

`code_gen.c`, as it is compiled without `BYTECODE_REDUCE_REF`. A result `none` is a
call of `panic`.

Operands are emitted as one placeholder byte and a fixup; `stmt_to_code` chooses the
widths of the operands when the whole vector is known, and then writes it.
-/

namespace NuMoo
namespace CodeGen

/-- `emit_byte` -/
def emitByte (b : UInt8) (state : State) : State :=
  { state with bytes := state.bytes ++ [b] }

def emitOp (op : Opcode) (state : State) : State := emitByte op.toByte state

/-- `emit_extended_byte` -/
def emitExtendedByte (op : ExtendedOpcode) (state : State) : State :=
  emitByte op.toByte (emitOp .OP_EXTENDED state)

/-- `add_known_fixup` -/
def addKnownFixup (f : Fixup) (state : State) : Nat × State :=
  (state.fixups.length,
    emitByte 0 { state with fixups := state.fixups ++ [{ f with pc := state.numBytes }] })

/-- A fixup of the given kind with the present counts. -/
def State.fixup (state : State) (kind : FixupKind) (value : Nat) (next : Option Nat) (done : Bool) :
    Fixup where
  kind := kind
  pc := state.numBytes
  value := value
  prevLiterals := state.numLiterals
  prevForks := state.numForks
  prevVarRefs := state.numVarRefs
  prevLabels := state.numLabels
  prevStacks := state.numStacks
  next := next
  done := done

/-- `add_linked_fixup` -/
def addLinkedFixup (kind : FixupKind) (value : Nat) (next : Option Nat) (state : State) :
    Nat × State :=
  addKnownFixup (state.fixup kind value next false) state

/-- `add_fixup` -/
def addFixup (kind : FixupKind) (value : Nat) (state : State) : State :=
  (addLinkedFixup kind value none state).2

/-- The table and the index of a value after `add_literal` has looked it up. -/
def internLiteral (v : Var) (literals : List Var) : Nat × List Var :=
  let i := literals.findIdx (sameLiteral v)
  (i, if i = literals.length then literals ++ [v] else literals)

/-- `add_literal` -/
def addLiteral (v : Var) (state : State) : State :=
  let (i, literals) := internLiteral v state.gstate.literals
  let state := { state with gstate := { state.gstate with literals := literals } }
  let state := addFixup .literal i state
  { state with numLiterals := state.numLiterals + 1, maxLiteral := max i state.maxLiteral }

/-- `add_fork` -/
def addFork (b : Bytecodes) (state : State) : State :=
  let i := state.gstate.forkVectors.length
  let state :=
    { state with gstate := { state.gstate with forkVectors := state.gstate.forkVectors ++ [b] } }
  let state := addFixup .fork i state
  { state with numForks := state.numForks + 1, maxFork := max i state.maxFork }

/-- `add_var_ref` -/
def addVarRef (slot : Nat) (state : State) : State :=
  let state := addFixup .varRef slot state
  { state with
    numVarRefs := state.numVarRefs + 1
    maxVarRef := max slot state.maxVarRef
    gstate := { state.gstate with totalVarRefs := state.gstate.totalVarRefs + 1 } }

/-- `add_linked_label` -/
def addLinkedLabel (next : Option Nat) (state : State) : Nat × State :=
  let (label, state) := addLinkedFixup .label 0 next state
  (label, { state with numLabels := state.numLabels + 1 })

/-- `add_label` -/
def addLabel (state : State) : Nat × State := addLinkedLabel none state

/-- `add_known_label` -/
def addKnownLabel (f : Fixup) (state : State) : State :=
  let (_, state) := addKnownFixup f state
  { state with numLabels := state.numLabels + 1 }

/-- `add_pseudo_label` -/
def addPseudoLabel (value : Nat) (state : State) : State :=
  addKnownLabel
    { kind := .label, pc := 0, value := value, prevLiterals := 0, prevForks := 0, prevVarRefs := 0,
      prevLabels := 0, prevStacks := 0, next := none, done := true } state

/-- `capture_label` -/
def captureLabel (state : State) : Fixup := state.fixup .label state.numBytes none true

/-- The body of the loop of `define_label`: the label is at the present end of the code. -/
def State.resolve (state : State) (f : Fixup) : Fixup :=
  { state.fixup .label state.numBytes f.next true with kind := f.kind, pc := f.pc }

/-- The loop of `define_label`. The fuel is the number of fixups; every `next` is an earlier one. -/
def defineChain : Nat → Option Nat → State → State
  | n + 1, some label, state =>
    match state.fixups[label]? with
    | some f =>
      defineChain n f.next { state with fixups := state.fixups.set label (state.resolve f) }
    | none => state
  | _, _, state => state

/-- `define_label` -/
def defineLabel (label : Option Nat) (state : State) : State :=
  defineChain state.fixups.length label state

/-- `add_stack_ref` -/
def addStackRef (index : Nat) (state : State) : State := addFixup .stack index state

/-- `push_stack` -/
def pushStack (n : Nat) (state : State) : State :=
  { state with
    curStack := state.curStack + n
    maxStack := max (state.curStack + n) state.maxStack }

/-- `pop_stack` -/
def popStack (n : Nat) (state : State) : State :=
  { state with curStack := state.curStack - n }

/-- `save_stack_top` -/
def saveStackTop (state : State) : Option Nat × State :=
  (state.savedStack, { state with savedStack := some (state.curStack - 1) })

/-- `restore_stack_top` -/
def restoreStackTop (old : Option Nat) (state : State) : State :=
  { state with savedStack := old }

/-- `enter_loop` -/
def enterLoop (id : Option Nat) (topLabel : Fixup) (topStack : Nat) (bottomLabel : Nat)
    (bottomStack : Nat)
    (state : State) : State :=
  { state with
    loops :=
      { id := id, topLabel := topLabel, topStack := topStack, bottomLabel := some bottomLabel,
               bottomStack := bottomStack } :: state.loops }

/-- `exit_loop` -/
def exitLoop (state : State) : Option Nat × State :=
  ((state.loops.head?.bind Loop.bottomLabel), { state with loops := state.loops.tail })

/-- `emit_var_op`, for `OP_PUSH` and `OP_PUT`: the short opcode of a ready variable or the long
one. -/
def emitVarOp (short : Fin NUM_READY_VARS → Opcode) (long : Opcode) (slot : Nat)
    (state : State) : State :=
  if h : slot < NUM_READY_VARS then emitOp (short ⟨slot, h⟩) state
  else addVarRef slot (emitOp long state)

def emitPush (slot : Nat) (state : State) : State := emitVarOp .OP_PUSH .OP_G_PUSH slot state

def emitPut (slot : Nat) (state : State) : State := emitVarOp .OP_PUT .OP_G_PUT slot state

/-- The opcode of a binary operator. -/
def emitBinary (kind : BinaryKind) (state : State) : State :=
  match kind with
  | .plus => emitOp .OP_ADD state
  | .minus => emitOp .OP_MINUS state
  | .times => emitOp .OP_MULT state
  | .divide => emitOp .OP_DIV state
  | .mod => emitOp .OP_MOD state
  | .exp => emitExtendedByte .EOP_EXP state
  | .eq => emitOp .OP_EQ state
  | .ne => emitOp .OP_NE state
  | .lt => emitOp .OP_LT state
  | .le => emitOp .OP_LE state
  | .gt => emitOp .OP_GT state
  | .ge => emitOp .OP_GE state
  | .in_ => emitOp .OP_IN state

/-- The opcode of a logical operator. -/
def logicalOp : LogicalKind → Opcode
  | .and => .OP_AND
  | .or => .OP_OR

/-- The opcode of a unary operator. -/
def unaryOp : UnaryKind → Opcode
  | .negate => .OP_UNARY_MINUS
  | .not => .OP_NOT

/-- The opcode that begins a list with its first argument. -/
def firstArgOp : ArgKind → Opcode
  | .normal => .OP_MAKE_SINGLETON_LIST
  | .splice => .OP_CHECK_LIST_FOR_SPLICE

/-- The opcode that adds an argument to a list. -/
def nextArgOp : ArgKind → Opcode
  | .normal => .OP_LIST_ADD_TAIL
  | .splice => .OP_LIST_APPEND

/-- The opcode of a `fork`. -/
def forkOp : Option Nat → Opcode
  | some _ => .OP_FORK_WITH_ID
  | none => .OP_FORK

/-- The first loop over the targets of a scatter: their number, how many are required, and the
rest. -/
def countTargets : Scatter → Nat → Nat → Option Nat → Nat × Nat × Option Nat
  | .nil, nargs, nreq, rest => (nargs, nreq, rest)
  | .cons kind _ _ next, nargs, nreq, rest =>
    countTargets next (nargs + 1) (if kind = .required then nreq + 1 else nreq)
      (if kind = .rest then some (nargs + 1) else rest)

/-- The second loop over the targets; the labels are those of the defaults. -/
def addTargets : Scatter → State → List Nat × State
  | .nil, state => ([], state)
  | .cons kind id expr next, state =>
    let state := addVarRef id state
    match kind, expr with
    | .optional, .some _ =>
      let (label, state) := addLabel state
      let (labels, state) := addTargets next state
      (label :: labels, state)
    | .optional, .none => addTargets next (addPseudoLabel 1 state)
    | _, _ => addTargets next (addPseudoLabel 0 state)

/-- The loop of an assignment over its left side, once everything is on the stack. -/
def finishAssign : Expr → Bool → State → Option State
  | .range base _ _, _, state =>
    finishAssign base true (popStack 3 (emitExtendedByte .EOP_RANGESET state))
  | .index lhs _, _, state => finishAssign lhs true (popStack 2 (emitOp .OP_INDEXSET state))
  | .id slot, isIndexed, state => some (unTemp isIndexed (emitPut slot state))
  | .prop _ _, isIndexed, state => some (unTemp isIndexed (popStack 2 (emitOp .OP_PUT_PROP state)))
  | _, _, _ => none
where
  /-- What follows the loop. -/
  unTemp (isIndexed : Bool) (state : State) : State :=
    if isIndexed then emitOp .OP_PUSH_TEMP (emitOp .OP_POP state) else state

/-- Whether the left side is indexed, so that the right side is kept in the temporary. -/
def putsTemp : Expr → Bool
  | .range _ _ _ | .index _ _ => true
  | _ => false

mutual

/-- `generate_expr` -/
def generateExpr : Expr → State → Option State
  | .var v, state =>
    match v with
    | .int num =>
      if inOptimNumRange num then some (pushStack 1 (emitOp (.OPTIM_NUM num) state))
      else some (pushStack 1 (addLiteral v (emitOp .OP_IMM state)))
    | _ => some (pushStack 1 (addLiteral v (emitOp .OP_IMM state)))
  | .id slot, state => some (pushStack 1 (emitPush slot state))
  | .logical kind lhs rhs, state => do
    let state ← generateExpr lhs state
    let state := emitOp (logicalOp kind) state
    let (endLabel, state) := addLabel state
    let state := popStack 1 state
    let state ← generateExpr rhs state
    return defineLabel endLabel state
  | .unary kind expr, state => do
    let state ← generateExpr expr state
    return emitOp (unaryOp kind) state
  | .binary kind lhs rhs, state => do
    let state ← generateExpr lhs state
    let state ← generateExpr rhs state
    return popStack 1 (emitBinary kind state)
  | .prop lhs rhs, state => do
    let state ← generateExpr lhs state
    let state ← generateExpr rhs state
    return popStack 1 (emitOp .OP_GET_PROP state)
  | .index lhs rhs, state => do
    let state ← generateExpr lhs state
    let (old, state) := saveStackTop state
    let state ← generateExpr rhs state
    let state := restoreStackTop old state
    return popStack 1 (emitOp .OP_REF state)
  | .range base from_ to_, state => do
    let state ← generateExpr base state
    let (old, state) := saveStackTop state
    let state ← generateExpr from_ state
    let state ← generateExpr to_ state
    let state := restoreStackTop old state
    return popStack 2 (emitOp .OP_RANGE_REF state)
  | .length, state => do
    let saved ← state.savedStack
    return pushStack 1 (addStackRef saved (emitExtendedByte .EOP_LENGTH state))
  | .list args, state => generateArgs .OP_MAKE_EMPTY_LIST args state
  | .call func args, state => do
    let state ← generateArgs .OP_MAKE_EMPTY_LIST args state
    return emitByte (UInt8.ofNat func) (emitOp .OP_BI_FUNC_CALL state)
  | .verb obj verb args, state => do
    let state ← generateExpr obj state
    let state ← generateExpr verb state
    let state ← generateArgs .OP_MAKE_EMPTY_LIST args state
    return popStack 2 (emitOp .OP_CALL_VERB state)
  | .cond condition consequent alternate, state => do
    let state ← generateExpr condition state
    let (elseLabel, state) := addLabel (emitOp .OP_IF_QUES state)
    let state := popStack 1 state
    let state ← generateExpr consequent state
    let (endLabel, state) := addLabel (emitOp .OP_JUMP state)
    let state := popStack 1 state
    let state := defineLabel elseLabel state
    let state ← generateExpr alternate state
    return defineLabel endLabel state
  | .asgn (.scatter targets) rhs, state => do
    let state ← generateExpr rhs state
    let (nargs, nreq, rest) := countTargets targets 0 0 none
    let state := emitExtendedByte .EOP_SCATTER state
    let state := emitByte (UInt8.ofNat nargs) state
    let state := emitByte (UInt8.ofNat nreq) state
    let state := emitByte (UInt8.ofNat (rest.getD (nargs + 1))) state
    let (labels, state) := addTargets targets state
    let (done, state) := addLabel state
    let state ← generateDefaults targets labels state
    return defineLabel done state
  | .asgn lhs rhs, state => do
    let state ← pushLvalue lhs false state
    let state ← generateExpr rhs state
    let state := if putsTemp lhs then emitOp .OP_PUT_TEMP state else state
    finishAssign lhs false state
  | .catch_ tryexp codes except, state => do
    let state ← generateArgs (.OPTIM_NUM 0) codes state
    let (handlerLabel, state) := addLabel (emitExtendedByte .EOP_PUSH_LABEL state)
    let state := pushStack 1 state
    let state := pushStack 1 (emitExtendedByte .EOP_CATCH state)
    let state ← generateExpr tryexp state
    let (endLabel, state) := addLabel (emitExtendedByte .EOP_END_CATCH state)
    let state := popStack 3 state
    let state := defineLabel handlerLabel state
    let state ← generateExcept except state
    return defineLabel endLabel state
  | .scatter _, _ => none

/-- What `generate_expr` does at the handler of a catch expression. -/
def generateExcept : OptExpr → State → Option State
  | .some except, state => generateExpr except (popStack 1 (emitOp .OP_POP state))
  | .none, state => some (emitOp .OP_REF (emitOp (.OPTIM_NUM 1) state))

/-- `generate_arg_list` for `OP_MAKE_EMPTY_LIST`, and `generate_codes` for the literal zero, which
differ in the opcode of an absent list. -/
def generateArgs (empty : Opcode) : ArgList → State → Option State
  | .nil, state => some (pushStack 1 (emitOp empty state))
  | .cons kind expr next, state => do
    let state ← generateExpr expr state
    let state := emitOp (firstArgOp kind) state
    generateMoreArgs next state

/-- The later turns of the loop of `generate_arg_list`. -/
def generateMoreArgs : ArgList → State → Option State
  | .nil, state => some state
  | .cons kind expr next, state => do
    let state ← generateExpr expr state
    let state := emitOp (nextArgOp kind) state
    generateMoreArgs next (popStack 1 state)

/-- `push_lvalue` -/
def pushLvalue : Expr → Bool → State → Option State
  | .range base from_ to_, _, state => do
    let state ← pushLvalue base true state
    let (old, state) := saveStackTop state
    let state ← generateExpr from_ state
    let state ← generateExpr to_ state
    return restoreStackTop old state
  | .index lhs rhs, indexedAbove, state => do
    let state ← pushLvalue lhs true state
    let (old, state) := saveStackTop state
    let state ← generateExpr rhs state
    let state := restoreStackTop old state
    return if indexedAbove then pushStack 1 (emitOp .OP_PUSH_REF state) else state
  | .id slot, indexedAbove, state =>
    some (if indexedAbove then pushStack 1 (emitPush slot state) else state)
  | .prop lhs rhs, indexedAbove, state => do
    let state ← generateExpr lhs state
    let state ← generateExpr rhs state
    return if indexedAbove then pushStack 1 (emitOp .OP_PUSH_GET_PROP state) else state
  | _, _, _ => none

/-- The third loop over the targets of a scatter. -/
def generateDefaults : Scatter → List Nat → State → Option State
  | .nil, _, state => some state
  | .cons .optional id (.some expr) next, labels, state => do
    let state := defineLabel labels.head? state
    let state ← generateExpr expr state
    let state := popStack 1 (emitOp .OP_POP (emitPut id state))
    generateDefaults next labels.tail state
  | .cons _ _ _ next, labels, state => generateDefaults next labels state

end

/-! ## The final pass -/

/-- `ref_size` -/
def refSize (rmax : Nat) : Nat :=
  if rmax ≤ 256 then 1 else if rmax ≤ 256 * 256 then 2 else 4

/-- The bytes of an operand: the `switch` on its size. -/
def writeBytes (size value : Nat) : List UInt8 :=
  match size with
  | 4 => [UInt8.ofNat (value >>> 24), UInt8.ofNat (value >>> 16), UInt8.ofNat (value >>> 8),
      UInt8.ofNat value]
  | 2 => [UInt8.ofNat (value >>> 8), UInt8.ofNat value]
  | _ => [UInt8.ofNat value]

/-- The value of a label when the operands before its target have their final widths. -/
def relocate (bc : Bytecodes) (f : Fixup) : Nat :=
  f.value + f.prevLiterals * (bc.numbytesLiteral - 1)
    + f.prevForks * (bc.numbytesFork - 1)
    + f.prevVarRefs * (bc.numbytesVarName - 1)
    + f.prevLabels * (bc.numbytesLabel - 1)
    + f.prevStacks * (bc.numbytesStack - 1)

/-- The bytes that replace the placeholder of a fixup. -/
def fixupBytes (bc : Bytecodes) (f : Fixup) : List UInt8 :=
  writeBytes (bc.width f.kind) (if f.kind = .label then relocate bc f else f.value)

/-- The loop over the bytes of the vector. -/
def fixupPass (bc : Bytecodes) : Nat → List UInt8 → List Fixup → List UInt8
  | _, [], _ => []
  | oldI, b :: bytes, [] => b :: fixupPass bc (oldI + 1) bytes []
  | oldI, b :: bytes, f :: fixups =>
    if f.pc = oldI then fixupBytes bc f ++ fixupPass bc (oldI + 1) bytes fixups
    else b :: fixupPass bc (oldI + 1) bytes (f :: fixups)

/-- `unsigned` -/
def UINT_RANGE : Nat := 2 ^ 32

/-- The width of a label, from the size of the vector when labels have one byte. -/
def labelSize (size numLabels : Nat) : Nat :=
  if size ≤ 256 then 1 else if size + numLabels ≤ 256 * 256 then 2 else 4

/-- The size of the vector when labels have one byte. -/
def shortSize (state : State) (numbytesLiteral numbytesFork numbytesVarName : Nat) : Nat :=
  (state.numBytes + (numbytesLiteral - 1) * state.numLiterals + (numbytesFork - 1) * state.numForks
    + (numbytesVarName - 1) * state.numVarRefs) % UINT_RANGE

/-- The header of the vector: every field but the vector itself. -/
def header (state : State) : Bytecodes :=
  let numbytesLiteral := refSize (max state.maxLiteral state.gstate.literals.length)
  let numbytesFork := refSize (max state.maxFork state.gstate.forkVectors.length)
  let numbytesVarName := refSize (max state.maxVarRef state.gstate.totalVarRefs)
  let size := shortSize state numbytesLiteral numbytesFork numbytesVarName
  let numbytesLabel := labelSize size state.numLabels
  { numbytesLabel := numbytesLabel
    numbytesLiteral := numbytesLiteral
    numbytesFork := numbytesFork
    numbytesVarName := numbytesVarName
    numbytesStack := refSize state.maxStack
    vector := []
    size := (size + (numbytesLabel - 1) * state.numLabels) % UINT_RANGE
    maxStack := state.maxStack }

/-- The end of `stmt_to_code`: widths, size and the bytes of the vector. -/
def assemble (state : State) : Bytecodes :=
  { header state with vector := fixupPass (header state) 0 state.bytes state.fixups }

/-- The checks of `stmt_to_code` after `generate_stmt`. -/
def finish (state : State) : Option State :=
  let state := emitOp .OP_DONE state
  if state.curStack ≠ 0 then none
  else if state.savedStack ≠ none then none
  else some state

/-! ## Statements -/

/-- The index of the loop that a `break` or `continue` leaves. -/
def findLoop : Option Nat → List Loop → Option Nat
  | none, loops => if loops = [] then none else some 0
  | some exit, loops => loops.findIdx? fun loop => loop.id = some exit

/-- The instruction of a `break` or `continue` before its operands. -/
def emitExit (exit : Option Nat) (state : State) : State :=
  match exit with
  | none => emitExtendedByte .EOP_EXIT state
  | some id => addVarRef id (emitExtendedByte .EOP_EXIT_ID state)

mutual

/-- `generate_stmt`, one statement. -/
def generateStmt : Stmt → State → Option State
  | .cond arms otherwise, state => do
    let (endLabel, state) ← generateArms arms .OP_IF none state
    let state ← generateStmts otherwise state
    return defineLabel endLabel state
  | .list id expr body, state => do
    let state ← generateExpr expr state
    let state := pushStack 1 (emitOp (.OPTIM_NUM 1) state)
    let loopTop := captureLabel state
    let state := addVarRef id (emitOp .OP_FOR_LIST state)
    let (endLabel, state) := addLabel state
    let state := enterLoop (some id) loopTop state.curStack endLabel (state.curStack - 2) state
    let state ← generateStmts body state
    let (endLabel, state) := exitLoop state
    let state := addKnownLabel loopTop (emitOp .OP_JUMP state)
    let state := defineLabel endLabel state
    return popStack 2 state
  | .range id from_ to_ body, state => do
    let state ← generateExpr from_ state
    let state ← generateExpr to_ state
    let loopTop := captureLabel state
    let state := addVarRef id (emitOp .OP_FOR_RANGE state)
    let (endLabel, state) := addLabel state
    let state := enterLoop (some id) loopTop state.curStack endLabel (state.curStack - 2) state
    let state ← generateStmts body state
    let (endLabel, state) := exitLoop state
    let state := addKnownLabel loopTop (emitOp .OP_JUMP state)
    let state := defineLabel endLabel state
    return popStack 2 state
  | .while_ id condition body, state => do
    let loopTop := captureLabel state
    let state ← generateExpr condition state
    let state :=
      match id with
      | none => emitOp .OP_WHILE state
      | some slot => addVarRef slot (emitExtendedByte .EOP_WHILE_ID state)
    let (endLabel, state) := addLabel state
    let state := popStack 1 state
    let state := enterLoop id loopTop state.curStack endLabel state.curStack state
    let state ← generateStmts body state
    let (endLabel, state) := exitLoop state
    let state := addKnownLabel loopTop (emitOp .OP_JUMP state)
    return defineLabel endLabel state
  | .fork id time body, state => do
    let state ← generateExpr time state
    let state := emitOp (forkOp id) state
    let inner ← generateStmts body (initState state.gstate)
    let inner ← finish inner
    let state := addFork (assemble inner) { state with gstate := inner.gstate }
    let state :=
      match id with
      | some slot => addVarRef slot state
      | none => state
    return popStack 1 state
  | .expr expr, state => do
    let state ← generateExpr expr state
    return popStack 1 (emitOp .OP_POP state)
  | .return_ (.some expr), state => do
    let state ← generateExpr expr state
    return popStack 1 (emitOp .OP_RETURN state)
  | .return_ .none, state => some (emitOp .OP_RETURN0 state)
  | .tryExcept body excepts, state => do
    let (labels, state) ← generateExcepts excepts state
    let armCount := excepts.length
    let state := emitByte (UInt8.ofNat armCount) (emitExtendedByte .EOP_TRY_EXCEPT state)
    let state := pushStack 1 state
    let state ← generateStmts body state
    let (endLabel, state) := addLabel (emitExtendedByte .EOP_END_EXCEPT state)
    let state := popStack (2 * armCount + 1) state
    let (endLabel, state) ← generateHandlers excepts labels endLabel state
    return defineLabel endLabel state
  | .tryFinally body handler, state => do
    let (handlerLabel, state) := addLabel (emitExtendedByte .EOP_TRY_FINALLY state)
    let state := pushStack 1 state
    let state ← generateStmts body state
    let state := popStack 1 (emitExtendedByte .EOP_END_FINALLY state)
    let state := pushStack 2 (defineLabel handlerLabel state)
    let state ← generateStmts handler state
    return popStack 2 (emitExtendedByte .EOP_CONTINUE state)
  | .break_ exit, state => do
    let i ← findLoop exit state.loops
    let loop ← state.loops[i]?
    let state := addStackRef loop.bottomStack (emitExit exit state)
    let (label, state) := addLinkedLabel loop.bottomLabel state
    return { state with loops := state.loops.set i { loop with bottomLabel := some label } }
  | .continue_ exit, state => do
    let i ← findLoop exit state.loops
    let loop ← state.loops[i]?
    let state := addStackRef loop.topStack (emitExit exit state)
    return addKnownLabel loop.topLabel state

/-- `generate_stmt` -/
def generateStmts : Stmts → State → Option State
  | .nil, state => some state
  | .cons stmt next, state => do
    let state ← generateStmt stmt state
    generateStmts next state

/-- The loop over the arms of an `if`. -/
def generateArms : CondArms → Opcode → Option Nat → State → Option (Option Nat × State)
  | .nil, _, endLabel, state => some (endLabel, state)
  | .cons condition stmt next, ifOp, endLabel, state => do
    let state ← generateExpr condition state
    let (elseLabel, state) := addLabel (emitOp ifOp state)
    let state := popStack 1 state
    let state ← generateStmts stmt state
    let (endLabel, state) := addLinkedLabel endLabel (emitOp .OP_JUMP state)
    let state := defineLabel elseLabel state
    generateArms next .OP_EIF endLabel state

/-- The first loop over the arms of a `try`; the labels are those of the handlers. -/
def generateExcepts : ExceptArms → State → Option (List Nat × State)
  | .nil, state => some ([], state)
  | .cons _ codes _ next, state => do
    let state ← generateArgs (.OPTIM_NUM 0) codes state
    let (label, state) := addLabel (emitExtendedByte .EOP_PUSH_LABEL state)
    let (labels, state) ← generateExcepts next (pushStack 1 state)
    return (label :: labels, state)

/-- The second loop over the arms of a `try`. -/
def generateHandlers : ExceptArms → List Nat → Nat → State → Option (Nat × State)
  | .nil, _, endLabel, state => some (endLabel, state)
  | .cons id _ stmt next, labels, endLabel, state => do
    let state := pushStack 1 (defineLabel labels.head? state)
    let state :=
      match id with
      | some slot => emitPut slot state
      | none => state
    let state := popStack 1 (emitOp .OP_POP state)
    let state ← generateStmts stmt state
    match next with
    | .nil => return (endLabel, state)
    | .cons _ _ _ _ =>
      let (endLabel, state) := addLinkedLabel endLabel (emitOp .OP_JUMP state)
      generateHandlers next labels.tail endLabel state

end

/-- The vector of a statement list before its operands get their widths. -/
def generateVector (stmts : Stmts) (gstate : GState) : Option State := do
  let state ← generateStmts stmts (initState gstate)
  finish state

/-- `stmt_to_code` -/
def stmtToCode (stmts : Stmts) (gstate : GState) : Option (Bytecodes × GState) := do
  let state ← generateVector stmts gstate
  return (assemble state, state.gstate)

end CodeGen

/-- `generate_code` -/
def generateCode (stmts : Stmts) : Option Program := do
  let (mainVector, gstate) ← CodeGen.stmtToCode stmts initGState
  return { mainVector := mainVector, literals := gstate.literals,
           forkVectors := gstate.forkVectors }

end NuMoo
