import NuMoo.Code.Program
import NuMoo.Db.Access
import NuMoo.Exec.Activation
import NuMoo.Exec.Operators
import NuMoo.Task.Queue
import NuMoo.Waif.Access

/-!
# The machine of `run()`

The state that `run()` works on: the activations with their variables, the database with its
waifs and the task queues. The local variables `bv`, `error_bv` and `rts` are the pc, the error
pc and the stack of the top activation, in which `STORE_STATE_VARIABLES` puts them.

A function has no value where the source reads outside an array or a stack.
-/

namespace NuMoo.Exec

open NuMoo.Lex (ascii)

/-- `Program`, with what a call reads of it besides the code. -/
structure Loaded where
  code : Program
  numVarNames : Nat
  version : Lex.DBVersion

/-- `activation` with what `run()` looks at: its program, the vector of it that is run, the
variables and the temporary value. -/
structure RunActiv (D : Type) extends Activation D where
  prog : Loaded
  bc : Bytecodes
  rtEnv : List Var
  temp : Var
  thisobj : Objid
  verbname : Str

/-- The activations of a task, the one that runs on top, and what it shares with others. -/
structure Machine (D : Type) where
  server : Server
  tasks : Task.Tasks
  top : RunActiv D
  rest : List (RunActiv D)
  ticksRemaining : Int
  taskTimedOut : Bool

/-- The functions that a built-in function hands to `suspend_task`, with their data. -/
inductive SuspendProc where
  | enqueueSuspendedTask (startTv : Int)
  | makeReadingTask (connection : Objid)

/-- `package`, without the activation that a `BI_CALL` has pushed. -/
inductive BiPackage (D : Type) where
  | ret (v : Var)
  | raise (code : Var) (msg : Str) (value : Var)
  | call (data : D) (pc : Nat)
  | suspend (proc : SuspendProc)
  | kill

/-- The rest of the server: floats, the clock and the next task number, the programs of verbs and
the built-in functions. `stringAddr` is where the string on top of the stack stands in memory, and
`negative` whether the bytes of a value that is no number are less than zero as a `double`. The
built-in functions that suspend (`bf_suspend` and `bf_read`) change nothing themselves. -/
structure RunEnv (D : Type) where
  floats : FloatOps
  negative : Var → Bool
  startTv : Var → Int
  newTaskId : Task.Tasks → Int
  maxStackSize : Nat
  program : Option Nat → Loaded
  stringAddr : Machine D → Nat
  noData : D
  callBiFunc : Machine D → (id : Nat) → (args : List Var) → Option (Machine D × BiPackage D)
  suspends : ∀ {m m' : Machine D} {id : Nat} {args : List Var} {proc : SuspendProc},
    callBiFunc m id args = some (m', .suspend proc) → m' = m

/-- Where an instruction leaves the machine. `raise` is the call of `raise_error` with an error
code, `raisePack` that with the package of a built-in function; `unwind` is the call of
`unwind_stack`. -/
inductive Next (D : Type) where
  | opcode (m : Machine D)
  | raise (e : ErrCode) (m : Machine D)
  | raisePack (code : Var) (msg : Str) (value : Var) (m : Machine D)
  | unwind (why : FinallyReason) (v : Var) (m : Machine D)
  | abort (m : Machine D)
  | blocked (m : Machine D)

/-- What an instruction does, and the error that it has detected. -/
structure Result (D : Type) where
  detected : Option ErrCode
  next : Next D

variable {D : Type}

/-- The end of an instruction without an error. -/
def next (m : Machine D) : Option (Result D) := some ⟨none, .opcode m⟩

namespace Machine

/-- Change the top activation. -/
def setTop (f : RunActiv D → RunActiv D) (m : Machine D) : Machine D := { m with top := f m.top }

/-- `PUSH` -/
def push (v : Var) (m : Machine D) : Machine D :=
  m.setTop fun a => { a with rtStack := v :: a.rtStack }

/-- `POP` -/
def pop (m : Machine D) : Option (Var × Machine D) :=
  match m.top.rtStack with
  | [] => none
  | v :: s => some (v, m.setTop fun a => { a with rtStack := s })

/-- `JUMP` -/
def jump (label : Nat) (m : Machine D) : Machine D := m.setTop fun a => { a with pc := label }

/-- `READ_BYTES`, of bytes that are in the vector. -/
def readBytes (nb : Nat) (m : Machine D) : Option (Nat × Machine D) :=
  if m.top.pc + nb ≤ m.top.bc.vector.length then
    some (NuMoo.readBytes m.top.bc.vector m.top.pc nb, m.jump (m.top.pc + nb))
  else none

/-- `SKIP_BYTES` -/
def skipBytes (nb : Nat) (m : Machine D) : Machine D := m.jump (m.top.pc + nb)

/-- A variable of the top activation is given a value. -/
def putVar (id : Nat) (v : Var) (m : Machine D) : Option (Machine D) :=
  if id < m.top.rtEnv.length then some (m.setTop fun a => { a with rtEnv := a.rtEnv.set id v })
  else none

/-- `RAISE_ERROR`: with the debug bit on the error is raised, and otherwise what follows the macro
is done. -/
def raiseError (e : ErrCode) (m : Machine D) (k : Machine D → Option (Result D)) :
    Option (Result D) :=
  if m.top.debug then some ⟨some e, .raise e m⟩ else (k m).map fun r =>
    { r with detected := some e }

/-- `PUSH_ERROR` at the end of an instruction. -/
def pushError (e : ErrCode) (m : Machine D) : Option (Result D) :=
  m.raiseError e fun m => Exec.next (m.push (.err e))

/-- Push the value of an operation, or its error. -/
def pushResult (r : Except ErrCode Var) (m : Machine D) : Option (Result D) :=
  match r with
  | .ok v => Exec.next (m.push v)
  | .error e => m.pushError e

/-- The database is replaced. -/
def withDb (db : Db) (m : Machine D) : Machine D := { m with server := { m.server with db := db } }

end Machine

/-! ## Calling a verb -/

/-- `VF_DEBUG` -/
def VF_DEBUG : UInt16 := 8

/-- `WAIF_VERB_PREFIX`, a colon. -/
def WAIF_VERB_PREFIX : UInt8 := 58

/-- The slots of `sym_table.h`. -/
def SLOT_NUM : Nat := 0
def SLOT_OBJ : Nat := 1
def SLOT_STR : Nat := 2
def SLOT_LIST : Nat := 3
def SLOT_ERR : Nat := 4
def SLOT_PLAYER : Nat := 5
def SLOT_THIS : Nat := 6
def SLOT_CALLER : Nat := 7
def SLOT_VERB : Nat := 8
def SLOT_ARGS : Nat := 9
def SLOT_ARGSTR : Nat := 10
def SLOT_DOBJ : Nat := 11
def SLOT_DOBJSTR : Nat := 12
def SLOT_PREPSTR : Nat := 13
def SLOT_IOBJ : Nat := 14
def SLOT_IOBJSTR : Nat := 15
def SLOT_INT : Nat := 16
def SLOT_FLOAT : Nat := 17

/-- The variables that `fill_in_rt_consts` sets, and the numbers of the types. -/
def rtConsts (version : Lex.DBVersion) : List (Nat × Int) :=
  [(SLOT_ERR, 3), (SLOT_NUM, 0), (SLOT_STR, 2), (SLOT_OBJ, 1), (SLOT_LIST, 4)] ++
    if Lex.DBVersion.DBV_Float.num ≤ version.num then [(SLOT_INT, 0), (SLOT_FLOAT, 9)] else []

/-- `set_rt_env_var` -/
def setRtEnvVar (env : List Var) (slot : Nat) (v : Var) : List Var := env.set slot v

/-- The variables that a call copies from its caller: the uses of `ENV_COPY`. -/
def copiedSlots : List Nat :=
  [SLOT_ARGSTR, SLOT_DOBJ, SLOT_DOBJSTR, SLOT_PREPSTR, SLOT_IOBJ, SLOT_IOBJSTR]

/-- `ENV_COPY` -/
def envCopy (caller : RunActiv D) (env : List Var) (slot : Nat) : List Var :=
  setRtEnvVar env slot (caller.rtEnv.getD slot .none)

/-- The variables of a verb that is called. -/
def verbEnv (caller : RunActiv D) (wizard : Bool) (prog : Loaded) (vname : Str) (this args : Var) :
    List Var :=
  let env := List.replicate prog.numVarNames Var.none
  let env := (rtConsts prog.version).foldl (fun env c => setRtEnvVar env c.1 (.int c.2)) env
  let env := setRtEnvVar env SLOT_THIS this
  let env := setRtEnvVar env SLOT_CALLER caller.this
  let env := copiedSlots.foldl (envCopy caller) env
  let player :=
    match wizard, caller.rtEnv.getD SLOT_PLAYER .none with
    | true, .obj player => Var.obj player
    | _, _ => Var.obj caller.player
  let env := setRtEnvVar env SLOT_PLAYER player
  let env :=
    setRtEnvVar env SLOT_VERB (.str (if vname.headD 0 = WAIF_VERB_PREFIX then vname.tail
      else vname))
  setRtEnvVar env SLOT_ARGS args

/-- The player of a verb that is called. -/
def verbPlayer (caller : RunActiv D) (wizard : Bool) : Objid :=
  match wizard, caller.rtEnv.getD SLOT_PLAYER .none with
  | true, .obj player => player
  | _, _ => caller.player

/-- `call_verb2` with `do_pass` clear. -/
def callVerb2 (env : RunEnv D) (thisobj : Objid) (vname : MooStr) (this args : Var)
    (m : Machine D) :
    Option (ErrCode × Machine D) := do
  if !m.server.db.valid thisobj then return (.E_INVIND, m)
  let (h, db) ← m.server.db.dbFindCallableVerb thisobj vname
  let m := m.withDb db
  match h with
  | none => return (.E_VERBNF, m)
  | some h =>
    if env.maxStackSize - 1 ≤ m.rest.length then return (.E_MAXREC, m)
    let o ← db.find h.definer
    let v ← o.verbdefs.find? fun v => v.addr = h.verbdef
    let prog := env.program v.program
    let wizard := db.isWizard m.top.progr
    let callee : RunActiv D :=
      { rtStack := []
        pc := 0
        errorPc := 0
        biFuncPc := 0
        biFuncId := 0
        biFuncData := env.noData
        this := this
        player := verbPlayer m.top wizard
        progr := v.owner
        vloc := h.definer
        verb := vname.text
        debug := v.perms &&& VF_DEBUG != 0
        prog := prog
        bc := prog.code.mainVector
        rtEnv := verbEnv m.top wizard prog vname.text this args
        temp := .none
        thisobj := thisobj
        verbname := v.name.text }
    return (.E_NONE, { m with top := callee, rest := m.top :: m.rest })

/-! ## Forking -/

/-- `get_server_option` for the system object. -/
def getServerOption (name : Str) (db : Db) : Option (Option Var) := do
  if !db.valid 0 then return none
  match ← db.dbFindPropertyValue 0 (ascii "server_options") with
  | some (_, .obj options) =>
    if !db.valid options then return none
    return (← db.dbFindPropertyValue options name).map Prod.snd
  | _ => return none

/-- `server_int_option` -/
def serverIntOption (name : Str) (defallt : Int) (db : Db) : Option Int := do
  match ← getServerOption name db with
  | some (.int n) => return int32 n
  | _ => return defallt

/-- The limit that `check_user_task_limit` finds on the user. -/
def queuedTaskLimit (user : Objid) (db : Db) : Option (Option Int) := do
  if !db.valid user then return none
  match ← db.dbFindPropertyValue user (ascii "queued_task_limit") with
  | some (_, .int n) => return some (int32 n)
  | _ => return none

/-- `enqueue_forked_task2` for the activation that runs; `vid` is the variable that gets the number
of the task. -/
def enqueueForkedTask2 (env : RunEnv D) (time : Var) (vid : Option Nat) (m : Machine D) :
    Option (ErrCode × Machine D) := do
  let property ← queuedTaskLimit m.top.progr m.server.db
  let serverOption ← serverIntOption (ascii "queued_task_limit") (-1) m.server.db
  let id := env.newTaskId m.tasks
  let (e, tasks) :=
    m.tasks.enqueueForkedTask2 id m.top.progr (env.startTv time) property serverOption
  let m := { m with tasks := tasks }
  match e, vid with
  | .E_NONE, some vid => return (.E_NONE, ← m.putVar vid (.int id))
  | e, _ => return (e, m)

/-- The call of the procedure in `suspend_task`. -/
def suspendTask (proc : SuspendProc) (m : Machine D) : Option (ErrCode × Machine D) := do
  match proc with
  | .enqueueSuspendedTask startTv =>
    let property ← queuedTaskLimit m.top.progr m.server.db
    let serverOption ← serverIntOption (ascii "queued_task_limit") (-1) m.server.db
    let (e, tasks) :=
      m.tasks.enqueueSuspendedTask m.tasks.currentTaskId m.top.progr startTv property serverOption
    return (e, { m with tasks := tasks })
  | .makeReadingTask connection =>
    let (e, tasks) := m.tasks.makeReadingTask m.tasks.currentTaskId connection
    return (e, { m with tasks := tasks })

end NuMoo.Exec
