import NuMoo.Exec.Activation

/-!
# Unwinding

`find_handler_activ`, `unwind_stack`, `raise_error` and `EOP_CONTINUE` of `execute.c`.
-/

namespace NuMoo.Exec

variable {D : Type}

/-- The pairs of codes and pc, in the order they were pushed. -/
def pairUp : List Var → List (Var × Var)
  | codes :: pc :: l => (codes, pc) :: pairUp l
  | _ => []

/-- The `n` slots below a marker as pairs; none when the stack does not hold them. -/
def armsBelow (n : Nat) (s : List Var) : Option (List (Var × Var)) :=
  if s.length < n then none else some (pairUp (s.take n).reverse)

/-- How many slots the pairs of a `TYPE_CATCH` marker take. -/
def armSlots (n : Int) : Nat := 2 * n.toNat

/-- The value of a pc register that is set to a number. -/
def toPc (n : Int) : Nat := (n % 4294967296).toNat

/-! ## The search for a handler -/

/-- Does a run-time stack hold a handler for the code? The first argument counts the slots
that belong to the marker above. -/
def activeHandler (w : World) (code : Var) : Nat → List Var → Option Bool
  | _, [] => some false
  | k + 1, _ :: s => activeHandler w code k s
  | 0, .catch n :: s =>
    match armsBelow (armSlots n) s with
    | none => none
    | some arms => if arms.any fun p =>
      handledBy w code p.1 then some true else activeHandler w code (armSlots n) s
  | 0, _ :: s => activeHandler w code 0 s

/-- `find_handler_activ`, with the index of the activation from the bottom of the stack. -/
def findHandlerActiv (w : World) (code : Var) : List (Activation D) → Option (Option Nat)
  | [] => some none
  | a :: rest => do
    if ← activeHandler w code 0 a.rtStack then return some rest.length
    findHandlerActiv w code rest

/-! ## The loop over one run-time stack -/

/-- How the loop over a run-time stack ends: in a clause, in an arm or at its goal. -/
inductive Unwound where
  | finally (pc : Nat) (below : List Var)
  | catch (pc : Nat) (below : List Var)
  | goal (below : List Var)

/-- The pc of the first arm that handles the code. -/
def firstArm (w : World) (code : Var) (arms : List (Var × Var)) : Option Var :=
  (arms.find? fun p => handledBy w code p.1).map Prod.snd

/-- Pop a run-time stack down to `goal` slots. The source panics on a pc that is no number. -/
def popStack (w : World) (why : FinallyReason) (code : Var) (goal : Nat) :
    Nat → List Var → Option Unwound
  | _, [] => some (.goal [])
  | k + 1, _ :: s => popStack w why code goal k s
  | 0, v :: s =>
    if s.length < goal then some (.goal (v :: s))
    else
      match v with
      | .finally pc =>
        if why ≠ .FIN_ABORT then some (.finally (toPc pc) s) else popStack w why code goal 0 s
      | .catch n =>
        if why = .FIN_RAISE then
          match armsBelow (armSlots n) s with
          | none => none
          | some arms =>
            match firstArm w code arms with
            | none => popStack w why code goal (armSlots n) s
            | some (.int pc) => some (.catch (toPc pc) (s.drop (armSlots n)))
            | some _ => none
        else popStack w why code goal 0 s
      | _ => popStack w why code goal 0 s

/-! ## The loop over the activations -/

/-- Resume a built-in function with zero until it makes no further call. -/
def squelchLoop (env : Env D) (activs : List (Activation D)) (id : Nat) :
    Nat → World → Nat → Objid → D → World
  | 0, w, _, _, _ => w
  | n + 1, w, pc, progr, data =>
    match env.call w activs id pc (.int 0) progr data with
    | (w, .call pc data callee) =>
      if pc ≠ 0 then squelchLoop env activs id n w pc callee.progr data else w
    | (w, .ret _) => w
    | (w, .raise _ _ _) => w
    | (w, .suspend _) => w
    | (w, .kill) => w

/-- What the built-in function that waits for an activation leaves behind when the
activation is unwound on an error. -/
def squelch (env : Env D) (w : World) (a : Activation D) (activs : List (Activation D)) : World :=
  if a.biFuncPc ≠ 0 then
    squelchLoop env activs a.biFuncId (env.rank w a.biFuncId a.biFuncPc a.biFuncData + 1) w
      a.biFuncPc a.progr a.biFuncData
  else w

/-- Where the loop of `unwind_stack` returns: in a clause, in an arm, at the target of an
exit, with a value or a call in the activation below, or with the whole stack gone. The
source raises an error, aborts or gives up on a suspension by further calls. -/
inductive Stop (D : Type) where
  | finally (vm : Vm D)
  | catch (vm : Vm D)
  | exit (vm : Vm D)
  | value (vm : Vm D)
  | call (vm : Vm D)
  | raise (code : Var) (msg : Str) (value : Var) (vm : Vm D)
  | suspend (e : ErrCode) (vm : Vm D)
  | kill (vm : Vm D)
  | finish (outcome : Outcome) (world : World)

/-- `value.v.list[1]` of the value of a raise. -/
def raisedCode (why : FinallyReason) (value : Var) : Option Var :=
  match why, value with
  | .FIN_RAISE, .list (code :: _) => some code
  | .FIN_RAISE, _ => none
  | _, _ => some (.int 0)

/-- The depth of the stack that an exit leaves and the pc it continues at. -/
def exitTarget (why : FinallyReason) (value : Var) : Option (Nat × Nat) :=
  match why, value with
  | .FIN_EXIT, .list (.int goal :: .int pc :: _) =>
    if goal < 0 then none else some (goal.toNat, toPc pc)
  | .FIN_EXIT, _ => none
  | _, _ => some (0, 0)

/-- A built-in function has answered a value that its verb returned. -/
def answer (b : Activation D) (rest : List (Activation D)) (a : Activation D) :
    World × Package D → Stop D
  | (w, .ret v) => .value ⟨w, b.push v, rest⟩
  | (w, .raise code msg value) =>
    if b.debug then .raise code msg value ⟨w, b, rest⟩ else .value ⟨w, b.push code, rest⟩
  | (w, .call pc data callee) =>
    .call ⟨w, { callee with biFuncId := a.biFuncId, biFuncPc := pc, biFuncData := data }, b :: rest⟩
  | (w, .suspend e) => .suspend e ⟨w, b, rest⟩
  | (w, .kill) => .kill ⟨w, b, rest⟩

/-- One turn of the loop of `unwind_stack`, for the activation `a` with the others below it: where
it returns, unless it goes on with the activation below. -/
def unwindTurn (env : Env D) (why : FinallyReason) (value code : Var) (goal pc : Nat) (w : World)
    (a : Activation D)
    (rest : List (Activation D)) : Option (Option (Stop D)) :=
  match popStack w why code goal 0 a.rtStack with
  | none => none
  | some (.finally pc s) =>
    some (some (.finally ⟨w, { a with pc, rtStack := value :: .int why.num :: s }, rest⟩))
  | some (.catch pc s) => some (some (.catch ⟨w, { a with pc, rtStack := value :: s }, rest⟩))
  | some (.goal s) =>
    if why = .FIN_EXIT then some (some (.exit ⟨w, { a with pc, rtStack := s }, rest⟩))
    else
      match rest with
      | [] =>
        some (some (.finish (if why = .FIN_RETURN then .OUTCOME_DONE else .OUTCOME_ABORTED) w))
      | b :: rest =>
        if why = .FIN_RETURN then
          if a.biFuncPc ≠ 0 then
            some
              (some (answer b rest a (env.call w (b :: rest) a.biFuncId a.biFuncPc value
                b.progr a.biFuncData)))
          else some (some (.value ⟨w, b.push value, rest⟩))
        else some none

/-- The loop of `unwind_stack`. -/
def unwindLoop (env : Env D) (why : FinallyReason) (value code : Var) (goal pc : Nat) (w : World)
    (a : Activation D) :
    List (Activation D) → Option (Stop D)
  | [] => (unwindTurn env why value code goal pc w a []).bind id
  | b :: rest =>
    match unwindTurn env why value code goal pc w a (b :: rest) with
    | none => none
    | some (some stop) => some stop
    | some none => unwindLoop env why value code goal pc (squelch env w a (b :: rest)) b rest

/-- `unwind_stack` up to its first further call. -/
def unwind (env : Env D) (why : FinallyReason) (value : Var) (vm : Vm D) : Option (Stop D) := do
  let code ← raisedCode why value
  let (goal, pc) ← exitTarget why value
  unwindLoop env why value code goal pc vm.world vm.top vm.rest

/-! ## Raising an error -/

/-- The entry of `make_stack_list` for an activation and for the function that waits for it. -/
def stackEntry (this : Var) (verb : Str) (progr vloc player : Objid) (line : Int) : Var :=
  .list [this, .str verb, .obj progr, .obj vloc, .obj player, .int line]

/-- `make_stack_list` from the hottest activation down to the one with index `start`. -/
def makeStackList (env : Env D) (start : Nat) : List (Activation D) → List Var
  | [] => []
  | [a] => [stackEntry a.this a.verb a.progr a.vloc a.player (env.lineNumber a start)]
  | a :: b :: rest =>
    stackEntry a.this a.verb a.progr a.vloc a.player (env.lineNumber a
      (start + (b :: rest).length)) ::
      ((if a.biFuncPc ≠ 0 then
        [stackEntry (.obj NOTHING) (env.funcName a.biFuncId) NOTHING NOTHING a.player a.biFuncPc]
          else []) ++
        makeStackList env start (b :: rest))

/-- `raise_error` -/
def raiseError (env : Env D) (code : Var) (msg : Str) (value : Var) (vm : Vm D) :
    Option (Stop D) := do
  match ← findHandlerActiv vm.world code vm.activs with
  | some f =>
    let trace := makeStackList env f (vm.activs.take (vm.activs.length - f))
    unwind env .FIN_RAISE (.list [code, .str msg, value, .list trace]) vm
  | none =>
    let trace := makeStackList env 0 vm.activs
    let info := Var.list [code, .str msg, value, .list trace, env.backtrace msg vm.activs]
    let world := { vm.world with handlerInfo := some ("handle_uncaught_error".toUTF8.toList, info) }
    unwind env .FIN_UNCAUGHT (.int 0) { vm with world }

/-- `unwind_stack`. After a suspension has failed the source unwinds with the error itself
where a raise has a list. -/
def unwindStack (env : Env D) (why : FinallyReason) (value : Var) (vm : Vm D) :
    Option (Stop D) := do
  match ← unwind env why value vm with
  | .raise code msg value vm => raiseError env code msg value vm
  | .suspend .E_NONE vm => return .finish .OUTCOME_BLOCKED vm.world
  | .suspend e vm => unwind env .FIN_RAISE (.err e) vm
  | .kill vm => unwind env .FIN_ABORT (.int 0) vm
  | r => return r

/-! ## Leaving a clause -/

/-- The reason and the value that `EOP_CONTINUE` pops. -/
def popReason (vm : Vm D) : Option (FinallyReason × Var × Vm D) :=
  match vm.top.rtStack with
  | v :: .int n :: s => (FinallyReason.ofNum n).map fun why =>
    (why, v, { vm with top := { vm.top with rtStack := s } })
  | _ => none

/-- `EOP_CONTINUE`: the stop of the unwinding that goes on, if one does. -/
def eopContinue (env : Env D) (vm : Vm D) : Option (Vm D ⊕ Stop D) := do
  let (why, v, vm) ← popReason vm
  match why with
  | .FIN_FALL_THRU => return .inl vm
  | why => (unwindStack env why v vm).map .inr

/-! ## Further calls -/

/-- Stops after which `unwind_stack` makes a further call. -/
def Stop.callsOn : Stop D → Bool
  | .raise _ _ _ _ => true
  | .suspend _ _ => true
  | .kill _ => true
  | _ => false

theorem unwindTurn_callsOn {env : Env D} {why : FinallyReason} {value code : Var}
    {goal pc : Nat} {w : World}
    {a : Activation D} {rest : List (Activation D)} {r : Stop D} (hwhy : why ≠ .FIN_RETURN)
    (h : unwindTurn env why value code goal pc w a rest = some (some r)) : r.callsOn = false := by
  rw [unwindTurn.eq_def] at h
  split at h
  · cases h
  · cases h; rfl
  · cases h; rfl
  · split at h
    · cases h; rfl
    · split at h
      · cases h; rfl
      · cases h

/-- Only a return leads to a further call. -/
theorem unwindLoop_callsOn {env : Env D} {why : FinallyReason} {value code : Var}
    {goal pc : Nat} {w : World}
    {a : Activation D} {rest : List (Activation D)} {r : Stop D} (hwhy : why ≠ .FIN_RETURN)
    (h : unwindLoop env why value code goal pc w a rest = some r) : r.callsOn = false := by
  induction rest generalizing w a with
  | nil =>
    rw [unwindLoop, Option.bind_eq_some_iff] at h
    obtain ⟨r', hr', rfl⟩ := h
    exact unwindTurn_callsOn hwhy hr'
  | cons b rest ih =>
    rw [unwindLoop] at h
    split at h
    · cases h
    · next hr' =>
      cases h
      exact unwindTurn_callsOn hwhy hr'
    · exact ih h

theorem unwindStack_eq {env : Env D} {why : FinallyReason} (hwhy : why ≠ .FIN_RETURN)
    (value : Var) (vm : Vm D) :
    unwindStack env why value vm = unwind env why value vm := by
  cases h : unwind env why value vm with
  | none => rw [unwindStack, h]; rfl
  | some r =>
    have hr : r.callsOn = false := by
      rw [unwind] at h
      obtain ⟨code, -, h⟩ := Option.bind_eq_some_iff.mp h
      obtain ⟨target, -, h⟩ := Option.bind_eq_some_iff.mp h
      exact unwindLoop_callsOn hwhy h
    rw [unwindStack, h]
    cases r <;> first | rfl | cases hr

/-- After a clause that an error or an exit has entered, `EOP_CONTINUE` goes on with the
unwinding. -/
theorem eopContinue_eq {env : Env D} {vm vm' : Vm D} {why : FinallyReason} {value : Var}
    (h : popReason vm = some (why, value, vm')) (hthru : why ≠ .FIN_FALL_THRU)
    (hwhy : why ≠ .FIN_RETURN) :
    eopContinue env vm = (unwind env why value vm').map .inr := by
  rw [eopContinue, h]
  cases why <;> first
    | exact congrArg (Option.map Sum.inr) (unwindStack_eq hwhy value vm')
    | exact absurd rfl hthru

/-! ## The loops end -/

/-- The bound on the calls of a built-in function is never met. -/
theorem squelchLoop_bound (env : Env D) (activs : List (Activation D)) (id : Nat) {m n : Nat}
    {w : World} {pc : Nat}
    {progr : Objid} {data : D} (hm : env.rank w id pc data < m) (hn : env.rank w id pc data < n) :
    squelchLoop env activs id m w pc progr data = squelchLoop env activs id n w pc progr data := by
  induction m generalizing n w pc progr data with
  | zero => exact absurd hm (Nat.not_lt_zero _)
  | succ m ih =>
    obtain ⟨n, rfl⟩ := Nat.exists_eq_succ_of_ne_zero (Nat.ne_of_gt (Nat.zero_lt_of_lt hn))
    simp only [squelchLoop]
    split <;> try rfl
    next w' pc' data' callee hcall =>
      split
      · next hpc =>
        have hlt := env.settles hcall hpc
        exact ih (by omega) (by omega)
      · rfl

end NuMoo.Exec
