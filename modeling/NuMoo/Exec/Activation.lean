import NuMoo.Code.Value
import NuMoo.Db.Builtins

/-!
# Activations

The stack of activations of `execute.c`. A run-time stack is a list with its top
first. It holds values and the markers of `try` statements: `TYPE_FINALLY` with the pc
of its clause, and `TYPE_CATCH n`, below which lie `n` pairs of error codes and pc.

Built-in functions are a parameter: what one does when the verb it has called is over.
-/

namespace NuMoo.Exec

/-- `Finally_Reason` -/
inductive FinallyReason where
  | FIN_FALL_THRU | FIN_RAISE | FIN_UNCAUGHT | FIN_RETURN | FIN_ABORT | FIN_EXIT
deriving DecidableEq, Repr

/-- The number of the reason on the stack. -/
def FinallyReason.num : FinallyReason → Int
  | .FIN_FALL_THRU => 0
  | .FIN_RAISE => 1
  | .FIN_UNCAUGHT => 2
  | .FIN_RETURN => 3
  | .FIN_ABORT => 4
  | .FIN_EXIT => 5

/-- The cases of `EOP_CONTINUE`; every other number, that of `FIN_ABORT` too, is its panic. -/
def FinallyReason.ofNum (n : Int) : Option FinallyReason :=
  if n = 0 then some .FIN_FALL_THRU
  else if n = 1 then some .FIN_RAISE
  else if n = 2 then some .FIN_UNCAUGHT
  else if n = 3 then some .FIN_RETURN
  else if n = 5 then some .FIN_EXIT
  else none

theorem FinallyReason.ofNum_num {why : FinallyReason} (h : why ≠ .FIN_ABORT) :
    ofNum why.num = some why := by
  cases why <;> first | rfl | exact absurd rfl h

/-- `enum outcome` -/
inductive Outcome where
  | OUTCOME_DONE | OUTCOME_ABORTED | OUTCOME_BLOCKED
deriving DecidableEq, Repr

/-- `activation`; `D` is what a built-in function saves while it waits for a verb. -/
structure Activation (D : Type) where
  rtStack : List Var
  pc : Nat
  errorPc : Nat
  biFuncPc : Nat
  biFuncId : Nat
  biFuncData : D
  this : Var
  player : Objid
  progr : Objid
  vloc : Objid
  verb : Str
  debug : Bool

/-- Push a value on the run-time stack. -/
def Activation.push {D : Type} (a : Activation D) (v : Var) : Activation D :=
  { a with rtStack := v :: a.rtStack }

/-- What the interpreter shares with the rest of the server: the database, the classes
of the waifs and what `save_handler_info` keeps. -/
structure World where
  db : Db
  waifClass : Nat → Objid
  handlerInfo : Option (Str × Var)

/-- `package`. A `BI_CALL` carries the activation that the function has pushed, a
`BI_SUSPEND` what the suspending procedure returns. -/
inductive Package (D : Type) where
  | ret (v : Var)
  | raise (code : Var) (msg : Str) (value : Var)
  | call (pc : Nat) (data : D) (callee : Activation D)
  | suspend (e : ErrCode)
  | kill

/-- The rest of the server. `call` is `call_bi_func`, for a function whose verb has
returned `arg`; `activs` are the activations below that verb.

A function that is resumed with zero in place of every result makes finitely many
calls. -/
structure Env (D : Type) where
  call : (w : World) → (activs : List (Activation D)) → (id pc : Nat) → (arg : Var) →
    (progr : Objid) → (data : D) →
    World × Package D
  lineNumber : Activation D → Nat → Int
  funcName : Nat → Str
  backtrace : Str → List (Activation D) → Var
  rank : World → (id pc : Nat) → D → Nat
  settles : ∀ {w w' : World} {activs : List (Activation D)} {id pc pc' : Nat} {progr :
    Objid} {data data' : D}
    {callee : Activation D}, call w activs id pc (.int 0) progr data =
      (w', .call pc' data' callee) → pc' ≠ 0 →
    rank w' id pc' data' < rank w id pc data

/-- The stack of activations is never empty while a task runs. -/
structure Vm (D : Type) where
  world : World
  top : Activation D
  rest : List (Activation D)

def Vm.activs {D : Type} (vm : Vm D) : List (Activation D) := vm.top :: vm.rest

/-! ## Error codes -/

/-- The loop of `isa`; a chain of parents visits no more objects than there are. -/
def isaFrom (db : Db) (targ : Objid) : Nat → Objid → Bool
  | 0, _ => false
  | n + 1, what =>
    match db.find what with
    | none => false
    | some o => what == targ || isaFrom db targ n o.parent

/-- `isa` -/
def isa (w : World) (ob parent : Var) : Bool :=
  match ob, parent with
  | .obj what, .obj targ => isaFrom w.db targ w.db.bound what
  | .waif a, .obj targ => isaFrom w.db targ w.db.bound (w.waifClass a)
  | _, _ => false

/-- `ishandled`: whether the code is one of those listed. -/
def ishandled (w : World) (lhs : Var) (rhs : List Var) : Bool :=
  rhs.any fun c => equality false lhs c || isa w lhs c

/-- The test of an arm: codes that are no list stand for `ANY`. -/
def handledBy (w : World) (code codes : Var) : Bool :=
  match codes with
  | .list l => ishandled w code l
  | _ => true

theorem isaFrom_eq {db : Db} {targ what : Objid} {l : List Objid}
    (h : Linked.Chain db.parentOf NOTHING what l)
    {n : Nat} (hn : l.length < n) : isaFrom db targ n what = decide (targ ∈ l) := by
  induction h generalizing n with
  | done =>
    obtain ⟨n, rfl⟩ := Nat.exists_eq_succ_of_ne_zero (Nat.ne_of_gt (Nat.zero_lt_of_lt hn))
    rw [isaFrom, Db.find_nothing]
    rfl
  | step ha hnext _ ih =>
    obtain ⟨n, rfl⟩ := Nat.exists_eq_succ_of_ne_zero (Nat.ne_of_gt (Nat.zero_lt_of_lt hn))
    obtain ⟨o, ho, rfl⟩ := Db.exists_of_parentOf hnext
    simp only [List.length_cons, Nat.succ_eq_add_one, Nat.add_lt_add_iff_right] at hn
    rw [Nat.succ_eq_add_one, isaFrom, ho]
    dsimp only
    rw [ih hn]
    simp only [List.mem_cons, beq_eq_decide, Bool.decide_or, eq_comm]

/-- In a database with the chains that `hierarchies` promises the loop of `isa` ends, with the
answer whether the parent is on the chain. -/
theorem isa_obj {w : World} {what targ : Objid} {l : List Objid}
    (h : Linked.Chain w.db.parentOf NOTHING what l) :
    isa w (.obj what) (.obj targ) = decide (targ ∈ l) :=
  isaFrom_eq h (Db.chain_length_lt h)

end NuMoo.Exec
