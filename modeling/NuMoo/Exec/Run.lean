import NuMoo.Exec.Machine

/-!
# The instructions of `run()`

The loop of `run()` one instruction at a time, as it is compiled with `WAIF_DICT` and without
`BYTECODE_REDUCE_REF`. The choice of a handler and the unwinding of the stack begin where an
instruction ends; they are in `Unwind`.

A panic has no value.
-/

namespace NuMoo.Exec

open NuMoo.Lex (ascii)

variable {D : Type}

namespace Machine

/-! ## Control -/

/-- The label at `do_test`. -/
def doTest (m : Machine D) : Option (Result D) := do
  let (cond, m) ← m.pop
  if isTrue cond then next (m.skipBytes m.top.bc.numbytesLabel)
  else
    let (lab, m) ← m.readBytes m.top.bc.numbytesLabel
    next (m.jump lab)

def opJump (m : Machine D) : Option (Result D) := do
  let (lab, m) ← m.readBytes m.top.bc.numbytesLabel
  next (m.jump lab)

/-- The loop is over: both values are popped. -/
def leaveLoop (lab : Nat) (m : Machine D) : Option (Result D) := do
  let (_, m) ← m.pop
  let (_, m) ← m.pop
  next (m.jump lab)

def opForList (m : Machine D) : Option (Result D) := do
  let (id, m) ← m.readBytes m.top.bc.numbytesVarName
  let (lab, m) ← m.readBytes m.top.bc.numbytesLabel
  match m.top.rtStack with
  | count :: .list list :: s =>
    match count with
    | .int n =>
      if n > list.length then m.leaveLoop lab
      else
        let m ← m.putVar id (← element list n)
        next (m.setTop fun a => { a with rtStack := .int (n + 1) :: .list list :: s })
    | _ => none
  | _ :: _ :: _ => m.raiseError .E_TYPE fun m => m.leaveLoop lab
  | _ => none

/-- `MAXINT` and `MAXOBJ` -/
def MAXINT : Int := 2 ^ 63 - 1

/-- One turn of a loop over a range, whose bounds are made into values by `wrap`. -/
def forRange (wrap : Int → Var) (id lab : Nat) (from_ to_ : Int) (s : List Var) (m : Machine D) :
    Option (Result D) := do
  if from_ > to_ then m.leaveLoop lab
  else
    let m ← m.putVar id (wrap from_)
    if from_ < MAXINT then
      next (m.setTop fun a => { a with rtStack := wrap to_ :: wrap (from_ + 1) :: s })
    else next (m.setTop fun a => { a with rtStack := wrap (to_ - 1) :: wrap from_ :: s })

def opForRange (m : Machine D) : Option (Result D) := do
  let (id, m) ← m.readBytes m.top.bc.numbytesVarName
  let (lab, m) ← m.readBytes m.top.bc.numbytesLabel
  match m.top.rtStack with
  | .int to_ :: .int from_ :: s => m.forRange .int id lab from_ to_ s
  | .obj to_ :: .obj from_ :: s => m.forRange .obj id lab from_ to_ s
  | _ :: _ :: _ => m.raiseError .E_TYPE fun m => m.leaveLoop lab
  | _ => none

/-- `OP_AND` jumps where its operand is false, `OP_OR` where it is true. -/
def opLogical (jumps : Bool) (m : Machine D) : Option (Result D) := do
  let (lab, m) ← m.readBytes m.top.bc.numbytesLabel
  let (lhs, popped) ← m.pop
  if isTrue lhs = jumps then next (m.jump lab) else next popped

/-! ## Values -/

def opImm (m : Machine D) : Option (Result D) := do
  if m.top.bc.vector[m.top.pc + m.top.bc.numbytesLiteral]? = some Opcode.OP_POP.toByte then
    next (m.skipBytes (m.top.bc.numbytesLiteral + 1))
  else
    let (slot, m) ← m.readBytes m.top.bc.numbytesLiteral
    next (m.push (← m.top.prog.code.literals[slot]?))

/-- An operation on the value on top. -/
def opUnary (f : Var → Except ErrCode Var) (m : Machine D) : Option (Result D) := do
  let (arg, m) ← m.pop
  m.pushResult (f arg)

/-- An operation on the two values on top. -/
def opBinary (f : Var → Var → Option (Except ErrCode Var)) (m : Machine D) : Option (Result D) := do
  let (rhs, m) ← m.pop
  let (lhs, m) ← m.pop
  m.pushResult (← f lhs rhs)

/-- A variable is pushed, if it has a value. -/
def pushVar (id : Nat) (m : Machine D) : Option (Result D) := do
  match ← m.top.rtEnv[id]? with
  | .none => m.pushError .E_VARNF
  | value => next (m.push value)

def opGPush (m : Machine D) : Option (Result D) := do
  let (id, m) ← m.readBytes m.top.bc.numbytesVarName
  m.pushVar id

def opGPut (m : Machine D) : Option (Result D) := do
  let (id, m) ← m.readBytes m.top.bc.numbytesVarName
  next (← m.putVar id (← m.top.rtStack.head?))

/-- `OP_PUT`, with the `OP_POP` that follows. -/
def opPut (id : Nat) (m : Machine D) : Option (Result D) := do
  let (v, popped) ← m.pop
  if m.top.bc.vector[m.top.pc]? = some Opcode.OP_POP.toByte then
    next (← (popped.skipBytes 1).putVar id v)
  else next (← m.putVar id v)

def opCheckListForSplice (m : Machine D) : Option (Result D) := do
  let (v, popped) ← m.pop
  match v with
  | .list _ => next m
  | _ => popped.pushError .E_TYPE

def opPutTemp (m : Machine D) : Option (Result D) := do
  let v ← m.top.rtStack.head?
  next (m.setTop fun a => { a with temp := v })

def opPushTemp (m : Machine D) : Option (Result D) :=
  next ((m.push m.top.temp).setTop fun a => { a with temp := .none })

/-! ## Elements -/

/-- The call of a verb of a waif that an index is handed to. -/
def waifIndex (env : RunEnv D) (a : Nat) (vname : Str) (args : List Var) (m : Machine D) :
    Option (Result D) := do
  let w ← m.server.waifs a
  match m.server.db.find w.waifclass with
  | none => m.pushError .E_INVIND
  | some o =>
    if !m.server.db.isWizard o.owner then m.pushError .E_TYPE
    else
      match ← callVerb2 env w.waifclass ⟨env.stringAddr m, vname⟩ (.waif a) (.list args) m with
      | (.E_NONE, m) => next m
      | (.E_VERBNF, m) => m.pushError .E_TYPE
      | (err, m) => m.pushError err

/-- `WAIF_INDEX_VERB` -/
def WAIF_INDEX_VERB : Str := ascii ":_index"

/-- `WAIF_INDEXSET_VERB` -/
def WAIF_INDEXSET_VERB : Str := ascii ":_set_index"

def opIndexSet (env : RunEnv D) (m : Machine D) : Option (Result D) := do
  let (value, m) ← m.pop
  let (index, m) ← m.pop
  let (list, m) ← m.pop
  match list with
  | .waif a => m.waifIndex env a WAIF_INDEXSET_VERB [index, value]
  | _ => m.pushResult (← elementSet list index value)

def opRef (env : RunEnv D) (m : Machine D) : Option (Result D) := do
  let (index, m) ← m.pop
  let (list, m) ← m.pop
  match list with
  | .waif a => m.waifIndex env a WAIF_INDEX_VERB [index]
  | _ => m.pushResult (← elementRef list index)

def opPushRef (m : Machine D) : Option (Result D) := do
  match m.top.rtStack with
  | index :: list :: _ => m.pushResult (← elementPush list index)
  | _ => none

def opRangeRef (m : Machine D) : Option (Result D) := do
  let (to_, m) ← m.pop
  let (from_, m) ← m.pop
  let (base, m) ← m.pop
  m.pushResult (← rangeRef base from_ to_)

def eopRangeSet (m : Machine D) : Option (Result D) := do
  let (value, m) ← m.pop
  let (to_, m) ← m.pop
  let (from_, m) ← m.pop
  let (base, m) ← m.pop
  m.pushResult (← rangeSet base from_ to_ value)

def eopLength (m : Machine D) : Option (Result D) := do
  let (i, m) ← m.readBytes m.top.bc.numbytesStack
  m.pushResult (← lengthOf (← m.top.rtStack.reverse[i]?))

/-! ## Properties -/

/-- `OP_GET_PROP` and `OP_PUSH_GET_PROP` on their operands, which the first of them has popped. -/
def getProp (obj propname : Var) (m : Machine D) : Option (Result D) := do
  match obj, propname with
  | .waif a, .str name =>
    let (err, prop, server) ← m.server.waifGetProp a name m.top.progr
    let m := { m with server := server }
    if err = .E_NONE then next (m.push prop) else m.pushError err
  | .obj obj, .str name => m.pushResult (← m.server.db.getProperty obj name m.top.progr)
  | _, _ => m.pushError .E_TYPE

def opGetProp (m : Machine D) : Option (Result D) := do
  let (propname, m) ← m.pop
  let (obj, m) ← m.pop
  m.getProp obj propname

def opPushGetProp (m : Machine D) : Option (Result D) := do
  match m.top.rtStack with
  | propname :: obj :: _ => m.getProp obj propname
  | _ => none

def opPutProp (m : Machine D) : Option (Result D) := do
  let (rhs, m) ← m.pop
  let (propname, m) ← m.pop
  let (obj, m) ← m.pop
  match obj, propname with
  | .waif a, .str name =>
    let (err, server) ← m.server.waifPutProp a name rhs m.top.progr
    let m := { m with server := server }
    if err = .E_NONE then next (m.push rhs) else m.pushError err
  | .obj obj, .str name =>
    match ← m.server.db.putProperty obj name rhs m.top.progr with
    | .ok db => next ((m.withDb db).push rhs)
    | .error err => m.pushError err
  | _, _ => m.pushError .E_TYPE

/-! ## Tasks and calls -/

/-- `when < 0`: a value that is no number is looked at as if it were a `double`. -/
def negativeTime (env : RunEnv D) : Var → Bool
  | .int n => n < 0
  | .float d => env.floats.lt d 0
  | v => env.negative v

/-- What `OP_FORK` does after the test of the type. -/
def forkAfter (env : RunEnv D) (time : Var) (vid : Option Nat) (m : Machine D) :
    Option (Result D) := do
  if negativeTime env time then m.raiseError .E_INVARG next
  else
    match ← enqueueForkedTask2 env time vid m with
    | (.E_NONE, m) => next m
    | (e, m) => m.raiseError e next

/-- The variable that `OP_FORK_WITH_ID` names. -/
def readVid (withId : Bool) (m : Machine D) : Option (Option Nat × Machine D) :=
  if withId then (m.readBytes m.top.bc.numbytesVarName).map fun r => (some r.1, r.2)
  else some (none, m)

/-- `OP_FORK`, and `OP_FORK_WITH_ID`. -/
def opFork (env : RunEnv D) (withId : Bool) (m : Machine D) : Option (Result D) := do
  let (time, m) ← m.pop
  let (_, m) ← m.readBytes m.top.bc.numbytesFork
  let (vid, m) ← m.readVid withId
  if time.isNumber then m.forkAfter env time vid
  else m.raiseError .E_TYPE fun m => m.forkAfter env time vid

/-- What `OP_CALL_VERB` calls: the class that has the verb, and its name. -/
def calledVerb (server : Server) (obj verb args : Var) : Option (Except ErrCode (Objid × Str)) := do
  match verb, args with
  | .str name, .list _ =>
    match obj with
    | .waif a => return .ok ((← server.waifs a).waifclass, WAIF_VERB_PREFIX :: name)
    | .obj o => return if name.headD 0 = WAIF_VERB_PREFIX then .error .E_VERBNF else .ok (o, name)
    | _ => return .error .E_TYPE
  | _, _ => return .error .E_TYPE

def opCallVerb (env : RunEnv D) (m : Machine D) : Option (Result D) := do
  let (args, m) ← m.pop
  let (verb, m) ← m.pop
  let (obj, m) ← m.pop
  match ← calledVerb m.server obj verb args with
  | .error err => m.pushError err
  | .ok (waifclass, name) =>
    if !m.server.db.valid waifclass then m.pushError .E_INVIND
    else
      match ← callVerb2 env waifclass ⟨env.stringAddr m, name⟩ obj args m with
      | (.E_NONE, m) => next m
      | (err, m) => m.pushError err

def opBiFuncCall (env : RunEnv D) (m : Machine D) : Option (Result D) := do
  let (funcId, m) ← m.readBytes 1
  let (args, m) ← m.pop
  match args with
  | .list args =>
    match ← env.callBiFunc m funcId args with
    | (m, .ret v) => next (m.push v)
    | (m, .raise code msg value) =>
      if m.top.debug then return ⟨none, .raisePack code msg value m⟩ else next (m.push code)
    | (m, .call data pc) =>
      next (m.setTop fun a => { a with biFuncId := funcId, biFuncData := data, biFuncPc := pc })
    | (m, .suspend proc) =>
      match ← suspendTask proc m with
      | (.E_NONE, m) => return ⟨none, .blocked m⟩
      | (e, m) => m.pushError e
    | (m, .kill) => return ⟨none, .unwind .FIN_ABORT (.int 0) m⟩
  | _ => m.pushError .E_TYPE

/-! ## Scattering -/

/-- The operands of `EOP_SCATTER` after the first three: each target's variable and label. -/
def readTargets : Nat → Machine D → Option (List (Nat × Nat) × Machine D)
  | 0, m => some ([], m)
  | n + 1, m => do
    let (id, m) ← m.readBytes m.top.bc.numbytesVarName
    let (label, m) ← m.readBytes m.top.bc.numbytesLabel
    let (targets, m) ← readTargets n m
    return ((id, label) :: targets, m)

/-- The loop over the targets: `i` is the number of the first one, and `where_` the label of the
first default that is needed. -/
def scatterLoop (list : List Var) (rest nrest : Int) :
    List (Nat × Nat) → (i noptAvail offset : Int) → (where_ : Nat) → Machine D →
    Option (Nat × Machine D)
  | [], _, _, _, where_, m => some (where_, m)
  | (id, label) :: targets, i, noptAvail, offset, where_, m => do
    if i = rest then
      let m ← m.putVar id (.list (← sublist list i (i + nrest - 1)))
      scatterLoop list rest nrest targets (i + 1) noptAvail (offset + nrest - 1) where_ m
    else if label = 0 then
      let m ← m.putVar id (← element list (i + offset))
      scatterLoop list rest nrest targets (i + 1) noptAvail offset where_ m
    else if noptAvail > 0 then
      let m ← m.putVar id (← element list (i + offset))
      scatterLoop list rest nrest targets (i + 1) (noptAvail - 1) offset where_ m
    else
      scatterLoop list rest nrest targets (i + 1) noptAvail (offset - 1)
        (if where_ = 0 ∧ label ≠ 1 then label else where_) m

/-- The error of the value that is scattered. -/
def scatterError (v : Var) (nargs nreq : Int) (haveRest : Bool) : Option ErrCode :=
  match v with
  | .list l => if (l.length : Int) < nreq ∨ (!haveRest ∧ (l.length : Int) > nargs) then
      some .E_ARGS else none
  | _ => some .E_TYPE

def eopScatter (m : Machine D) : Option (Result D) := do
  let (nargs, m) ← m.readBytes 1
  let (nreq, m) ← m.readBytes 1
  let (rest, m) ← m.readBytes 1
  let haveRest := !decide (rest > nargs)
  let v ← m.top.rtStack.head?
  match scatterError v nargs nreq haveRest, v with
  | some e, _ =>
    let (_, m) ← m.pop
    m.raiseError e fun m => do
      let m := m.push (.err e)
      let m := m.skipBytes (nargs * (m.top.bc.numbytesVarName + m.top.bc.numbytesLabel))
      let (done, m) ← m.readBytes m.top.bc.numbytesLabel
      next (m.jump done)
  | none, .list list =>
    let len : Int := list.length
    let nrest := if haveRest ∧ len ≥ nargs then len - nargs + 1 else 0
    let (targets, m) ← m.readTargets nargs
    let (where_, m) ← scatterLoop list rest nrest targets 1 (len - nreq) 0 0 m
    let (done, m) ← m.readBytes m.top.bc.numbytesLabel
    next (m.jump (if where_ = 0 then done else where_))
  | none, _ => none

/-! ## Exceptions -/

/-- `EOP_PUSH_LABEL` and `EOP_TRY_FINALLY`, which push their label. -/
def eopPushLabel (wrap : Int → Var) (m : Machine D) : Option (Result D) := do
  let (lab, m) ← m.readBytes m.top.bc.numbytesLabel
  next (m.push (wrap lab))

def eopTryExcept (m : Machine D) : Option (Result D) := do
  let (n, m) ← m.readBytes 1
  next (m.push (.catch n))

/-- Pop a marker and the arms below it. -/
def popArms (m : Machine D) : Option (Machine D) := do
  let (marker, m) ← m.pop
  match marker with
  | .catch n =>
    if 2 * n.toNat ≤ m.top.rtStack.length then
      return m.setTop fun a => { a with rtStack := a.rtStack.drop (2 * n.toNat) }
    else none
  | _ => none

def eopEndCatch (m : Machine D) : Option (Result D) := do
  let (v, m) ← m.pop
  let m ← m.popArms
  (m.push v).opJump

def eopEndExcept (m : Machine D) : Option (Result D) := do
  let m ← m.popArms
  m.opJump

def eopEndFinally (m : Machine D) : Option (Result D) := do
  let (v, m) ← m.pop
  match v with
  | .finally _ => next ((m.push (.int FinallyReason.FIN_FALL_THRU.num)).push (.int 0))
  | _ => none

/-- `EOP_CONTINUE`; the panic has no result. -/
def eopContinue (m : Machine D) : Option (Result D) := do
  let (v, m) ← m.pop
  let (why, m) ← m.pop
  match why with
  | .int n =>
    match FinallyReason.ofNum n with
    | some .FIN_FALL_THRU => next m
    | some why => return ⟨none, .unwind why v m⟩
    | none => none
  | _ => none

def eopWhileId (m : Machine D) : Option (Result D) := do
  let (id, m) ← m.readBytes m.top.bc.numbytesVarName
  let m ← m.putVar id (← m.top.rtStack.head?)
  m.doTest

def eopExit (m : Machine D) : Option (Result D) := do
  let (stack, m) ← m.readBytes m.top.bc.numbytesStack
  let (lab, m) ← m.readBytes m.top.bc.numbytesLabel
  return ⟨none, .unwind .FIN_EXIT (.list [.int stack, .int lab]) m⟩

/-- `OP_RETURN`; the other two return zero. -/
def opReturn (m : Machine D) : Option (Result D) := do
  let (v, m) ← m.pop
  return ⟨none, .unwind .FIN_RETURN v m⟩

/-! ## The switch -/

/-- `COUNT_EOP_TICK` -/
def countEopTick (eop : ExtendedOpcode) : Bool := ExtendedOpcode.EOP_CATCH.toByte ≤ eop.toByte

/-- An operation that can not fail otherwise. -/
def total (f : Var → Var → Except ErrCode Var) (lhs rhs : Var) : Option (Except ErrCode Var) :=
  some (f lhs rhs)

def runExtended (env : RunEnv D) (eop : ExtendedOpcode) (m : Machine D) : Option (Result D) :=
  match eop with
  | .EOP_RANGESET => m.eopRangeSet
  | .EOP_LENGTH => m.eopLength
  | .EOP_EXP => m.opBinary fun lhs rhs => (doPower env.floats.toFloatEnv lhs rhs).map ofErrVar
  | .EOP_SCATTER => m.eopScatter
  | .EOP_PUSH_LABEL => m.eopPushLabel .int
  | .EOP_TRY_FINALLY => m.eopPushLabel .finally
  | .EOP_CATCH => next (m.push (.catch 1))
  | .EOP_TRY_EXCEPT => m.eopTryExcept
  | .EOP_END_CATCH => m.eopEndCatch
  | .EOP_END_EXCEPT => m.eopEndExcept
  | .EOP_END_FINALLY => m.eopEndFinally
  | .EOP_CONTINUE => m.eopContinue
  | .EOP_WHILE_ID => m.eopWhileId
  | .EOP_EXIT => m.eopExit
  | .EOP_EXIT_ID => (m.skipBytes m.top.bc.numbytesVarName).eopExit

def opExtended (env : RunEnv D) (m : Machine D) : Option (Result D) := do
  let (b, m) ← m.readBytes 1
  let eop ← ExtendedOpcode.ofByte (UInt8.ofNat b)
  runExtended env eop (if countEopTick eop then { m with ticksRemaining := m.ticksRemaining - 1 }
    else m)

/-- The result of a comparison. -/
def comparing (fl : FloatOps) (test : Int → Bool) (lhs rhs : Var) : Option (Except ErrCode Var) :=
  some ((comparison fl lhs rhs).map fun c => .ofBool (test c))

/-- The `switch` of `run()`. -/
def runOpcode (env : RunEnv D) (op : Opcode) (m : Machine D) : Option (Result D) :=
  match op with
  | .OP_IF_QUES | .OP_IF | .OP_WHILE | .OP_EIF => m.doTest
  | .OP_JUMP => m.opJump
  | .OP_FOR_LIST => m.opForList
  | .OP_FOR_RANGE => m.opForRange
  | .OP_POP => m.pop.bind fun r => next r.2
  | .OP_IMM => m.opImm
  | .OP_MAKE_EMPTY_LIST => next (m.push (.list []))
  | .OP_LIST_ADD_TAIL => m.opBinary (total addTail)
  | .OP_LIST_APPEND => m.opBinary (total appendList)
  | .OP_INDEXSET => m.opIndexSet env
  | .OP_MAKE_SINGLETON_LIST => m.opUnary fun v => .ok (.list [v])
  | .OP_CHECK_LIST_FOR_SPLICE => m.opCheckListForSplice
  | .OP_PUT_TEMP => m.opPutTemp
  | .OP_PUSH_TEMP => m.opPushTemp
  | .OP_EQ => m.opBinary (total fun lhs rhs => .ok (.ofBool (equality false rhs lhs)))
  | .OP_NE => m.opBinary (total fun lhs rhs => .ok (.ofBool (!equality false rhs lhs)))
  | .OP_LT => m.opBinary (comparing env.floats fun c => c < 0)
  | .OP_LE => m.opBinary (comparing env.floats fun c => c ≤ 0)
  | .OP_GT => m.opBinary (comparing env.floats fun c => c > 0)
  | .OP_GE => m.opBinary (comparing env.floats fun c => c ≥ 0)
  | .OP_IN => m.opBinary membership
  | .OP_MULT => m.opBinary (arithmetic (total (doMultiply env.floats)))
  | .OP_MINUS => m.opBinary (arithmetic (total (doSubtract env.floats)))
  | .OP_DIV => m.opBinary (arithmetic (doDivide env.floats))
  | .OP_MOD => m.opBinary (arithmetic (doModulus env.floats))
  | .OP_ADD => m.opBinary (total (addition env.floats))
  | .OP_AND => m.opLogical false
  | .OP_OR => m.opLogical true
  | .OP_NOT => m.opUnary fun v => .ok (.ofBool (!isTrue v))
  | .OP_UNARY_MINUS => m.opUnary negation
  | .OP_REF => m.opRef env
  | .OP_PUSH_REF => m.opPushRef
  | .OP_RANGE_REF => m.opRangeRef
  | .OP_G_PUT => m.opGPut
  | .OP_G_PUSH => m.opGPush
  | .OP_GET_PROP => m.opGetProp
  | .OP_PUSH_GET_PROP => m.opPushGetProp
  | .OP_PUT_PROP => m.opPutProp
  | .OP_FORK => m.opFork env false
  | .OP_FORK_WITH_ID => m.opFork env true
  | .OP_CALL_VERB => m.opCallVerb env
  | .OP_RETURN => m.opReturn
  | .OP_RETURN0 | .OP_DONE => some ⟨none, .unwind .FIN_RETURN (.int 0) m⟩
  | .OP_BI_FUNC_CALL => m.opBiFuncCall env
  | .OP_EXTENDED => m.opExtended env
  | .OP_PUSH n => m.pushVar n
  | .OP_PUT n => m.opPut n
  | .OPTIM_NUM i => next (m.push (.int i))

/-- `COUNT_TICK` -/
def countTick (op : Opcode) : Bool := op.toByte ≤ Opcode.OP_G_PUT.toByte

/-- The opcode at the pc, and the machine that has read it. -/
def fetch (m : Machine D) : Option (Opcode × Machine D) :=
  m.top.bc.vector[m.top.pc]?.map fun b =>
    (Opcode.ofByte b, m.setTop fun a => { a with errorPc := a.pc, pc := a.pc + 1 })

/-- One turn of the loop of `run()`. -/
def step (env : RunEnv D) (m : Machine D) : Option (Result D) := do
  let (op, m) ← m.fetch
  if countTick op then
    let m := { m with ticksRemaining := m.ticksRemaining - 1 }
    if m.ticksRemaining ≤ 0 ∨ m.taskTimedOut then return ⟨none, .abort m⟩
    m.runOpcode env op
  else m.runOpcode env op

end Machine

/-! ## A server with one object -/

/-- No operation on floats has a result. -/
def noFloats : FloatOps where
  ofNum _ := 0
  pow _ _ := none
  lt _ _ := false
  add _ _ := none
  sub _ _ := none
  mul _ _ := none
  div _ _ := none
  mod _ _ := none

/-- The built-in functions return zero. The address of a string is not less than zero as a
`double`. -/
def bareEnv : RunEnv Unit where
  floats := noFloats
  negative _ := false
  startTv _ := 1000
  newTaskId _ := 77
  maxStackSize := 50
  program _ := { code := default, numVarNames := 18, version := .DBV_Float }
  stringAddr _ := 0
  noData := ()
  callBiFunc m _ _ := some (m, .ret (.int 0))
  suspends h := by cases h

/-- A server whose only object is `#0`. -/
def lonelyServer : Server where
  db := { Db.empty with objects := [
    some { id := 0, owner := 0, location := NOTHING, contents := NOTHING, next := NOTHING,
           parent := NOTHING,
           child := NOTHING, sibling := NOTHING, name := [], flags := 0, verbdefs := [], propdefs :=
             [], propval := [] }] }
  nameAddr := fun _ => 0
  waifPropdefs := fun _ => none
  defs := fun _ => none
  nextDefs := 0
  waifs := fun _ => none
  nextWaif := 0
  text := fun _ => []
  waifBits := fun _ => 0

/-- A verb of `#0` that runs a vector. -/
def Machine.bare (bc : Bytecodes) (pc : Nat) (debug : Bool) (rtEnv s : List Var) :
    Machine Unit where
  server := lonelyServer
  tasks := .empty
  top := { rtStack := s, pc := pc, errorPc := 0, biFuncPc := 0, biFuncId := 0, biFuncData := (),
           this := .obj 0, player := 0,
           progr := 0, vloc := 0, verb := [], debug := debug, prog :=
             { code := default, numVarNames := 18, version := .DBV_Float },
           bc := bc, rtEnv := rtEnv, temp := .none, thisobj := 0, verbname := [] }
  rest := []
  ticksRemaining := 30000
  taskTimedOut := false

end NuMoo.Exec
