import NuMoo.Code.Vectors
import NuMoo.Exec.Literal

/-!
# Evaluating expressions

The code of an expression, run by `run()`, computes what the expression stands for: its value is
pushed and nothing else has changed, or its error is raised. The expressions are literals,
variables, operators, conditions, lists, indices and ranges, with `$`.

Results:
1. `run_expr`: the code of an expression computes its value, wherever it stands.
2. `return_correct`: a program that returns an expression returns its value, or raises its error.
-/

namespace NuMoo.Exec

open CodeGen Shape

variable {D : Type}

/-! ## What an expression stands for -/

/-- A value or an error; there is none where the expression has no meaning here. -/
abbrev Meaning := Option (Except ErrCode Var)

/-- The next step, unless there is an error. -/
def andThen (x : Meaning) (f : Var → Meaning) : Meaning :=
  match x with
  | some (.ok v) => f v
  | x => x

/-- A literal that is the same wherever it is equal. -/
def plain : Var → Bool
  | .int _ | .obj _ | .err _ => true
  | .str s => !s.contains 0
  | _ => false

/-- The value of a variable. -/
def variableValue (rt : List Var) (slot : Nat) : Meaning :=
  match rt[slot]? with
  | some .none => some (.error .E_VARNF)
  | some v => some (.ok v)
  | none => none

def unaryValue : UnaryKind → Var → Except ErrCode Var
  | .negate, v => negation v
  | .not, v => .ok (.ofBool (!isTrue v))

def binaryValue (fl : FloatOps) : BinaryKind → Var → Var → Meaning
  | .plus => Machine.total (addition fl)
  | .minus => arithmetic (Machine.total (doSubtract fl))
  | .times => arithmetic (Machine.total (doMultiply fl))
  | .divide => arithmetic (doDivide fl)
  | .mod => arithmetic (doModulus fl)
  | .exp => fun lhs rhs => (doPower fl.toFloatEnv lhs rhs).map ofErrVar
  | .eq => Machine.total fun lhs rhs => .ok (.ofBool (equality false rhs lhs))
  | .ne => Machine.total fun lhs rhs => .ok (.ofBool (!equality false rhs lhs))
  | .lt => Machine.comparing fl fun c => c < 0
  | .le => Machine.comparing fl fun c => c ≤ 0
  | .gt => Machine.comparing fl fun c => c > 0
  | .ge => Machine.comparing fl fun c => c ≥ 0
  | .in_ => membership

/-- Whether a true left side decides. -/
def decides : LogicalKind → Bool
  | .and => false
  | .or => true

/-- An element of a value; that of a waif is not considered. -/
def elementValue : Var → Var → Meaning
  | .waif _, _ => none
  | list, index => elementRef list index

/-- A list with its first element. -/
def firstValue : ArgKind → Var → Except ErrCode Var
  | .normal, v => .ok (.list [v])
  | .splice, .list l => .ok (.list l)
  | .splice, _ => .error .E_TYPE

/-- A list with its next element. -/
def nextValue : ArgKind → Var → Var → Except ErrCode Var
  | .normal => addTail
  | .splice => appendList

section Eval

variable (fl : FloatOps) (rt : List Var)

mutual

/-- The value of an expression with these variables, where `$` is the length of `dollar`. -/
def eval : Expr → (dollar : Option Var) → Meaning
  | .var v, _ => if plain v then some (.ok v) else none
  | .id slot, _ => variableValue rt slot
  | .unary kind expr, dollar => andThen (eval expr dollar) fun v => some (unaryValue kind v)
  | .binary kind lhs rhs, dollar => andThen (eval lhs dollar) fun v =>
    andThen (eval rhs dollar) (binaryValue fl kind v)
  | .logical kind lhs rhs, dollar =>
    andThen (eval lhs dollar) fun v => if isTrue v = decides kind then some (.ok v)
      else eval rhs dollar
  | .cond condition consequent alternate, dollar =>
    andThen (eval condition dollar) fun v => if isTrue v then eval consequent dollar
      else eval alternate dollar
  | .index lhs rhs, dollar => andThen (eval lhs dollar) fun v =>
    andThen (eval rhs (some v)) (elementValue v)
  | .range base from_ to_, dollar =>
    andThen (eval base dollar) fun v => andThen (eval from_ (some v)) fun i =>
      andThen (eval to_ (some v)) (rangeRef v i)
  | .length, dollar => dollar.bind lengthOf
  | .list args, dollar => evalArgs args dollar
  | _, _ => none

def evalArgs : ArgList → Option Var → Meaning
  | .nil, _ => some (.ok (.list []))
  | .cons kind expr next, dollar => andThen (andThen (eval expr dollar) fun v =>
    some (firstValue kind v)) fun l => evalMore next dollar l

/-- The later elements of a list. -/
def evalMore : ArgList → Option Var → Var → Meaning
  | .nil, _, l => some (.ok l)
  | .cons kind expr next, dollar, l =>
    andThen (andThen (eval expr dollar) fun v => some (nextValue kind l v)) fun l =>
      evalMore next dollar l

end

end Eval

mutual

/-- More ticks than the code of an expression counts. -/
def cost : Expr → Nat
  | .unary _ expr => cost expr + 1
  | .binary _ lhs rhs | .logical _ lhs rhs | .index lhs rhs => cost lhs + cost rhs + 1
  | .range base from_ to_ => cost base + cost from_ + cost to_ + 1
  | .cond condition consequent alternate => cost condition + cost consequent + cost alternate + 2
  | .list args => costArgs args
  | _ => 1

def costArgs : ArgList → Nat
  | .nil => 1
  | .cons _ expr next => cost expr + 1 + costArgs next

end

theorem andThen_cases {x : Meaning} {f : Var → Meaning} {r : Except ErrCode Var}
    (h : andThen x f = some r) :
    (∃ e, x = some (.error e) ∧ r = .error e) ∨ ∃ v, x = some (.ok v) ∧ f v = some r := by
  cases x with
  | none => cases h
  | some x =>
    cases x with
    | error e =>
      cases h
      exact .inl ⟨e, rfl, rfl⟩
    | ok v => exact .inr ⟨v, rfl, h⟩

/-! ## Machines in between -/

/-- A machine at a position of a vector, that raises its errors. -/
structure Ready (prog : Program) (bc : Bytecodes) (p : Nat) (m : Machine D) :
    Prop extends Running prog bc p m where
  debug : m.top.debug = true
  timedOut : m.taskTimedOut = false

/-- Only the stack and the pc have changed, and so many ticks have been used. -/
structure Framed (m m' : Machine D) (q : Nat) (s : List Var) (k : Nat) : Prop where
  pc : m'.top.pc = q
  rtStack : m'.top.rtStack = s
  bc : m'.top.bc = m.top.bc
  prog : m'.top.prog = m.top.prog
  rtEnv : m'.top.rtEnv = m.top.rtEnv
  debug : m'.top.debug = m.top.debug
  temp : m'.top.temp = m.top.temp
  server : m'.server = m.server
  tasks : m'.tasks = m.tasks
  rest : m'.rest = m.rest
  timedOut : m'.taskTimedOut = m.taskTimedOut
  ticks : m'.ticksRemaining = m.ticksRemaining - k

/-- Some instructions have been run. -/
structure Went (env : RunEnv D) (m m' : Machine D) (q : Nat) (s : List Var) (k : Nat) :
    Prop extends Framed m m' q s k where
  run : Reaches env (fun _ _ => False) m m'

/-- An error is raised, with the variables as they were. -/
def Raises (env : RunEnv D) (m : Machine D) (e : ErrCode) : Prop :=
  ∃ m' m'', Reaches env (fun _ _ => False) m m' ∧ m'.step env = some ⟨some e, .raise e m''⟩ ∧
    m''.top.rtEnv = m.top.rtEnv

/-- The value is pushed, with no more ticks than that, or the error is raised. -/
def Does (env : RunEnv D) (m : Machine D) (q : Nat) (s : List Var) (n : Nat) :
    Except ErrCode Var → Prop
  | .ok v => ∃ m' k, k ≤ n ∧ Went env m m' q (v :: s) k
  | .error e => Raises env m e

variable {env : RunEnv D} {m m' m'' m₁ : Machine D} {prog : Program} {bc : Bytecodes}
    {p q q' k k' n n' : Nat} {s s' : List Var} {v w : Var}
  {r : Except ErrCode Var} {op : Opcode}

theorem Framed.trans (h : Framed m m' q s k) (h' : Framed m' m'' q' s' k') :
    Framed m m'' q' s' (k + k') where
  pc := h'.pc
  rtStack := h'.rtStack
  bc := h'.bc.trans h.bc
  prog := h'.prog.trans h.prog
  rtEnv := h'.rtEnv.trans h.rtEnv
  debug := h'.debug.trans h.debug
  temp := h'.temp.trans h.temp
  server := h'.server.trans h.server
  tasks := h'.tasks.trans h.tasks
  rest := h'.rest.trans h.rest
  timedOut := h'.timedOut.trans h.timedOut
  ticks := by
    rw [h'.ticks, h.ticks]
    push_cast
    omega

theorem Framed.push (h : Framed m m' q s k) (v : Var) : Framed m (m'.push v) q (v :: s) k :=
  { h with rtStack := congrArg (v :: ·) h.rtStack }

theorem Framed.jump (h : Framed m m' q s k) (q' : Nat) : Framed m (m'.jump q') q' s k :=
  { h with pc := rfl }

theorem Framed.pop (h : Framed m m' q (v :: s) k) :
    ∃ m₁, m'.pop = some (v, m₁) ∧ Framed m m₁ q s k :=
  ⟨_, Machine.pop_eq h.rtStack, { h with rtStack := rfl }⟩

theorem Framed.ready (h : Framed m m' q s k) (hm : Ready prog bc p m) : Ready prog bc q m' :=
  ⟨⟨(congrArg Loaded.code h.prog).trans hm.code, h.bc.trans hm.bc, h.pc⟩, h.debug.trans hm.debug,
    h.timedOut.trans hm.timedOut⟩

theorem Framed.operand (h : Framed m m' q s k) (hm : Ready prog bc p m) {kind : FixupKind}
    {value : Nat} (hop : bc.OperandAt kind q value) :
    m'.readBytes (m'.top.bc.width kind) = some (value, m'.jump (q + bc.width kind)) := by
  have hbc : m'.top.bc = bc := h.bc.trans hm.bc
  rw [hbc]
  exact Machine.readBytes_operand hop hbc h.pc

/-- The result of an instruction is pushed or raised. -/
theorem Framed.result (h : Framed m m₁ q s k) (hk : k ≤ 1) (hm : Ready prog bc p m)
    (hstep : m.step env = m₁.pushResult r) :
    Does env m q s 1 r := by
  cases r with
  | ok v => exact ⟨_, k, hk, ⟨h.push v, .single (.opcode hstep)⟩⟩
  | error e =>
    rw [Machine.pushResult, Machine.pushError, Machine.raiseError,
      if_pos (h.debug.trans hm.debug)] at hstep
    exact ⟨m, _, .refl, hstep, h.rtEnv⟩

theorem Went.refl (hpc : m.top.pc = q) (hs : m.top.rtStack = s) : Went env m m q s 0 :=
  ⟨⟨hpc, hs, rfl, rfl, rfl, rfl, rfl, rfl, rfl, rfl, rfl, (Int.sub_zero _).symm⟩, .refl⟩

theorem Went.trans (h : Went env m m' q s k) (h' : Went env m' m'' q' s' k') :
    Went env m m'' q' s' (k + k') :=
  ⟨h.toFramed.trans h'.toFramed, h.run.trans h'.run⟩

/-- First some instructions, then what remains. -/
theorem Went.does (h : Went env m m' q s k) (hd : Does env m' q' s' n r) (hn : k + n ≤ n') :
    Does env m q' s' n' r := by
  cases r with
  | ok v =>
    obtain ⟨m₂, k₂, hk₂, h₂⟩ := hd
    exact ⟨m₂, k + k₂, Nat.le_trans (Nat.add_le_add_left hk₂ k) hn, h.trans h₂⟩
  | error e =>
    obtain ⟨m₁, m₂, hrun, hstep, henv⟩ := hd
    exact ⟨m₁, m₂, h.run.trans hrun, hstep, henv.trans h.rtEnv⟩

/-! ## Instructions -/

/-- An instruction begins, and may count a tick. -/
theorem step_any (env : RunEnv D) (hop : bc.OpAt p op) (henc : op.Encodable)
    (hm : Ready prog bc p m) (hticks : 1 < m.ticksRemaining) :
    ∃ k m₁, k ≤ 1 ∧ m.step env = m₁.runOpcode env op ∧ Framed m m₁ (p + 1) m.top.rtStack k := by
  have hpc : m.top.pc + 1 = p + 1 := congrArg (· + 1) hm.pc
  cases hcount : Machine.countTick op with
  | true => exact ⟨1, _, Nat.le_refl _, Machine.step_tick hop henc hcount ⟨hticks,
      hm.timedOut⟩ hm.bc hm.pc,
      ⟨hpc, rfl, rfl, rfl, rfl, rfl, rfl, rfl, rfl, rfl, rfl, rfl⟩⟩
  | false => exact ⟨0, _, Nat.zero_le _, Machine.step_op hop henc hcount hm.bc hm.pc,
      ⟨hpc, rfl, rfl, rfl, rfl, rfl, rfl, rfl, rfl, rfl, rfl, (Int.sub_zero _).symm⟩⟩

theorem step_extended (env : RunEnv D) {eop : ExtendedOpcode} (hop : bc.EopAt p eop)
    (hm : Ready prog bc p m) :
    ∃ k m₁, k ≤ 1 ∧ m.step env = m₁.runExtended env eop ∧ Framed m m₁ (p + 2) m.top.rtStack k := by
  have hstep : m.step env = m.fetched.opExtended env :=
    Machine.step_op hop.1 trivial (by decide) hm.bc hm.pc
  have hfetched : Framed m m.fetched (p + 1) m.top.rtStack 0 :=
    ⟨congrArg (· + 1) hm.pc, rfl, rfl, rfl, rfl, rfl, rfl, rfl, rfl, rfl, rfl,
      (Int.sub_zero _).symm⟩
  have hread := Machine.readBytes_byte hop.2 (m := m.fetched) hm.bc hfetched.pc
  have hjump := hfetched.jump (p + 1 + 1)
  rw [Machine.opExtended, hread] at hstep
  simp only [Option.bind_eq_bind, Option.bind_some, UInt8.ofNat_toNat,
    ExtendedOpcode.ofByte_toByte] at hstep
  split at hstep
  · exact ⟨1, _, Nat.le_refl _, hstep, { hjump with ticks := rfl }⟩
  · exact ⟨0, _, Nat.zero_le _, hstep, hjump⟩

theorem does_push (hop : bc.OpAt p op) (henc : op.Encodable)
    (hrun : ∀ m : Machine D, m.runOpcode env op = next (m.push v))
    (hm : Ready prog bc p m) (hticks : 1 < m.ticksRemaining) :
    Does env m (p + 1) m.top.rtStack 1 (.ok v) := by
  obtain ⟨k, m₁, hk, hstep, hframe⟩ := step_any env hop henc hm hticks
  exact hframe.result hk hm (hstep.trans (hrun m₁))

theorem does_unary {f : Var → Except ErrCode Var} (hop : bc.OpAt p op) (henc : op.Encodable)
    (hrun : ∀ m : Machine D, m.runOpcode env op = m.opUnary f) (hm : Ready prog bc p m)
    (hs : m.top.rtStack = v :: s)
    (hticks : 1 < m.ticksRemaining) : Does env m (p + 1) s 1 (f v) := by
  obtain ⟨k, m₁, hk, hstep, hframe⟩ := step_any env hop henc hm hticks
  rw [hs] at hframe
  obtain ⟨m₂, hpop, hframe₂⟩ := hframe.pop
  rw [hrun, Machine.opUnary, hpop] at hstep
  exact hframe₂.result hk hm hstep

theorem Framed.binary {f : Var → Var → Meaning} (h : Framed m m₁ q (w :: v :: s) k) (hk : k ≤ 1)
    (hm : Ready prog bc p m)
    (hstep : m.step env = m₁.opBinary f) (hr : f v w = some r) : Does env m q s 1 r := by
  obtain ⟨m₂, hpop, hframe₂⟩ := h.pop
  obtain ⟨m₃, hpop', hframe₃⟩ := hframe₂.pop
  have hresult : m₁.opBinary f = m₃.pushResult r := by
    rw [Machine.opBinary, hpop]
    simp only [Option.bind_eq_bind, Option.bind_some, hpop', hr]
  exact hframe₃.result hk hm (hstep.trans hresult)

theorem does_operator {f : Var → Var → Meaning} (hop : bc.OpAt p op) (henc : op.Encodable)
    (hrun : ∀ m : Machine D, m.runOpcode env op = m.opBinary f) (hm : Ready prog bc p m)
    (hs : m.top.rtStack = w :: v :: s)
    (hticks : 1 < m.ticksRemaining) (hr : f v w = some r) : Does env m (p + 1) s 1 r := by
  obtain ⟨k, m₁, hk, hstep, hframe⟩ := step_any env hop henc hm hticks
  rw [hs] at hframe
  exact hframe.binary hk hm (hstep.trans (hrun m₁)) hr

theorem does_binary {kind : BinaryKind} (hat : BinaryAt bc kind p q) (hm : Ready prog bc p m)
    (hs : m.top.rtStack = w :: v :: s)
    (hticks : 1 < m.ticksRemaining) (hr : binaryValue env.floats kind v w = some r) :
    Does env m q s 1 r := by
  cases kind with
  | exp =>
    obtain ⟨hop, rfl⟩ := hat
    obtain ⟨k, m₁, hk, hstep, hframe⟩ := step_extended env hop hm
    have hresult : m.step env = m₁.opBinary (binaryValue env.floats .exp) := hstep
    rw [hs] at hframe
    exact hframe.binary hk hm hresult hr
  | _ =>
    obtain ⟨hop, rfl⟩ := hat
    exact does_operator hop trivial (fun _ => rfl) hm hs hticks hr

theorem not_pop_binaryAt {kind : BinaryKind} (hat : BinaryAt bc kind p q) :
    ¬ bc.OpAt p .OP_POP := by
  cases kind with
  | exp => exact not_popAt hat.1.1 (by decide)
  | _ => exact not_popAt hat.1 (by decide)

/-- A variable is pushed, or there is an error. -/
theorem pushVar_eq {slot : Nat} (hr : variableValue m.top.rtEnv slot = some r) :
    m.pushVar slot = m.pushResult r := by
  unfold variableValue at hr
  rw [Machine.pushVar]
  split at hr
  · next hv =>
    cases hr
    rw [hv]
    rfl
  · next v hne hv =>
    cases hr
    rw [hv]
    cases v with
    | none => exact absurd rfl hne
    | _ => rfl
  · cases hr

theorem does_variable {slot : Nat} (hat : PushAt bc slot p q) (hm : Ready prog bc p m)
    (hticks : 1 < m.ticksRemaining)
    (hr : variableValue m.top.rtEnv slot = some r) : Does env m q m.top.rtStack 1 r := by
  rcases hat with ⟨hlt, hop, rfl⟩ | ⟨-, hop, hvar, rfl⟩
  · obtain ⟨k, m₁, hk, hstep, hframe⟩ := step_any env hop trivial hm hticks
    have hvalue : m₁.runOpcode env (.OP_PUSH ⟨slot, hlt⟩) = m₁.pushResult r :=
      pushVar_eq (hframe.rtEnv ▸ hr)
    exact hframe.result hk hm (hstep.trans hvalue)
  · obtain ⟨k, m₁, hk, hstep, hframe⟩ := step_any env hop trivial hm hticks
    have hread : m₁.readBytes m₁.top.bc.numbytesVarName = _ := hframe.operand hm hvar
    have hjump := hframe.jump (p + 1 + bc.width .varRef)
    have hvalue : m₁.runOpcode env .OP_G_PUSH =
        (m₁.jump (p + 1 + bc.width .varRef)).pushResult r := by
      rw [Machine.runOpcode, Machine.opGPush, hread]
      exact pushVar_eq (hjump.rtEnv ▸ hr)
    exact hjump.result hk hm (hstep.trans hvalue)

/-- A literal that is equal to a plain one is the same. -/
theorem eq_of_plain (hv : plain v = true) (hw : ∀ s, w = .str s → 0 ∉ s)
    (h : w = v ∨ sameLiteral v w = true) : w = v := by
  rcases h with rfl | h
  · rfl
  · rw [sameLiteral] at h
    cases v with
    | int | obj | err =>
      cases w with
      | int | obj | err => simp [equality] at h <;> rw [h]
      | _ => simp [equality] at h
    | str s =>
      cases w with
      | str t =>
        have hs : 0 ∉ s := by simpa [plain] using hv
        have hcstr : cstr s = cstr t := by simpa [equality] using h
        rw [cstr_plain hs, cstr_plain (hw t rfl)] at hcstr
        rw [hcstr]
      | _ => simp [equality] at h
    | _ => cases hv

theorem does_literal (hat : LiteralAt prog bc v p q) (htexts : CStrings prog) (hv : plain v = true)
    (hnext : ¬ bc.OpAt q .OP_POP)
    (hm : Ready prog bc p m) (hticks : 1 < m.ticksRemaining) :
    Does env m q m.top.rtStack 1 (.ok v) := by
  rcases hat with ⟨i, rfl, hrange, hop, rfl⟩ | ⟨i, w, -, hop, hoperand, hw, hsame, rfl⟩
  · exact does_push hop hrange (fun _ => rfl) hm hticks
  · obtain rfl := eq_of_plain hv (htexts w (List.mem_of_getElem? hw)) hsame
    obtain ⟨k, m₁, hk, hstep, hframe⟩ := step_any env hop trivial hm hticks
    have hbc : m₁.top.bc = bc := hframe.bc.trans hm.bc
    have hskip : ¬ m₁.top.bc.vector[m₁.top.pc + m₁.top.bc.numbytesLiteral]? =
        some Opcode.OP_POP.toByte := by
      rw [hbc, hframe.pc]
      exact hnext
    have hread : m₁.readBytes m₁.top.bc.numbytesLiteral = _ := hframe.operand hm hoperand
    have hjump := hframe.jump (p + 1 + bc.width .literal)
    have hliteral : (m₁.jump (p + 1 + bc.width .literal)).top.prog.code.literals[i]? = some w := by
      rw [hjump.prog, hm.code]
      exact hw
    have hvalue : m₁.runOpcode env .OP_IMM =
        (m₁.jump (p + 1 + bc.width .literal)).pushResult (.ok w) := by
      rw [Machine.runOpcode, Machine.opImm, if_neg hskip, hread]
      simp only [Option.bind_eq_bind, Option.bind_some, hliteral]
      rfl
    exact hjump.result hk hm (hstep.trans hvalue)

/-- A condition is tested. -/
theorem Framed.test (h : Framed m m₁ q (v :: s) k) (hm : Ready prog bc p m)
    (hlab : bc.OperandAt .label q lab) :
    ∃ m', m₁.doTest = next m' ∧ Framed m m' (if isTrue v then q + bc.numbytesLabel
      else lab) s k := by
  obtain ⟨m₂, hpop, hframe⟩ := h.pop
  rw [Machine.doTest, hpop]
  simp only [Option.bind_eq_bind, Option.bind_some]
  by_cases hv : isTrue v = true
  · have hskip := hframe.jump (m₂.top.pc + m₂.top.bc.numbytesLabel)
    rw [if_pos hv, if_pos hv]
    refine ⟨_, rfl, ?_⟩
    rw [hframe.pc, hframe.bc, hm.bc] at hskip
    rw [Machine.skipBytes, hframe.pc, hframe.bc, hm.bc]
    exact hskip
  · have hread : m₂.readBytes m₂.top.bc.numbytesLabel = _ := hframe.operand hm hlab
    rw [if_neg hv, if_neg hv, hread]
    exact ⟨_, rfl, (hframe.jump _).jump lab⟩

/-- `OP_IF_QUES` goes on behind its label where the condition is true, and otherwise at the
label. -/
theorem went_test (env : RunEnv D) {lab : Nat} (hop : bc.OpAt p .OP_IF_QUES)
    (hlab : bc.OperandAt .label (p + 1) lab)
    (hm : Ready prog bc p m) (hs : m.top.rtStack = v :: s) (hticks : 1 < m.ticksRemaining) :
    ∃ m' k, k ≤ 1 ∧ Went env m m' (if isTrue v then p + 1 + bc.numbytesLabel else lab) s k := by
  obtain ⟨k, m₁, hk, hstep, hframe⟩ := step_any env hop trivial hm hticks
  rw [hs] at hframe
  obtain ⟨m', htest, hframe'⟩ := hframe.test hm hlab
  exact ⟨m', k, hk, hframe', .single (.opcode (hstep.trans htest))⟩

theorem went_jump (env : RunEnv D) {lab : Nat} (hop : bc.OpAt p .OP_JUMP)
    (hlab : bc.OperandAt .label (p + 1) lab)
    (hm : Ready prog bc p m) (hticks : 1 < m.ticksRemaining) :
    ∃ m' k, k ≤ 1 ∧ Went env m m' lab m.top.rtStack k := by
  obtain ⟨k, m₁, hk, hstep, hframe⟩ := step_any env hop trivial hm hticks
  have hread : m₁.readBytes m₁.top.bc.numbytesLabel = _ := hframe.operand hm hlab
  rw [Machine.runOpcode, Machine.opJump, hread] at hstep
  exact ⟨_, k, hk, (hframe.jump _).jump lab, .single (.opcode hstep)⟩

/-- `OP_AND` and `OP_OR` keep the left side and jump where it decides, and pop it otherwise. -/
theorem went_logical (env : RunEnv D) {kind : LogicalKind} {lab : Nat}
    (hop : bc.OpAt p (logicalOp kind))
    (hlab : bc.OperandAt .label (p + 1) lab) (hm : Ready prog bc p m) (hs : m.top.rtStack = v :: s)
    (hticks : 1 < m.ticksRemaining) :
    ∃ m' k, k ≤ 1 ∧ if isTrue v = decides kind then Went env m m' lab (v :: s) k
      else Went env m m' (p + 1 + bc.numbytesLabel) s k := by
  have henc : (logicalOp kind).Encodable := by cases kind <;> trivial
  obtain ⟨k, m₁, hk, hstep, hframe⟩ := step_any env hop henc hm hticks
  have hrun : m₁.runOpcode env (logicalOp kind) = m₁.opLogical (decides kind) := by
    cases kind <;> rfl
  have hread : m₁.readBytes m₁.top.bc.numbytesLabel = _ := hframe.operand hm hlab
  rw [hs] at hframe
  obtain ⟨m₂, hpop, hframe₂⟩ := (hframe.jump (p + 1 + bc.width .label)).pop
  rw [hrun, Machine.opLogical, hread] at hstep
  simp only [Option.bind_eq_bind, Option.bind_some, hpop] at hstep
  split at hstep
  · next hv =>
    refine ⟨(m₁.jump (p + 1 + bc.width .label)).jump lab, k, hk, ?_⟩
    rw [if_pos hv]
    exact ⟨(hframe.jump _).jump lab, .single (.opcode hstep)⟩
  · next hv =>
    refine ⟨m₂, k, hk, ?_⟩
    rw [if_neg hv]
    exact ⟨hframe₂, .single (.opcode hstep)⟩

/-! ## Elements, ranges and lists -/

theorem does_ref (hop : bc.OpAt p .OP_REF) (hm : Ready prog bc p m)
    (hs : m.top.rtStack = w :: v :: s) (hticks : 1 < m.ticksRemaining)
    (hr : elementValue v w = some r) : Does env m (p + 1) s 1 r := by
  obtain ⟨k, m₁, hk, hstep, hframe⟩ := step_any env hop trivial hm hticks
  rw [hs] at hframe
  obtain ⟨m₂, hpop, hframe₂⟩ := hframe.pop
  obtain ⟨m₃, hpop', hframe₃⟩ := hframe₂.pop
  have hresult : m₁.opRef env = m₃.pushResult r := by
    rw [Machine.opRef, hpop]
    simp only [Option.bind_eq_bind, Option.bind_some, hpop']
    cases v with
    | waif => cases hr
    | _ =>
      rw [elementValue] at hr
      · simp only [hr, Option.bind_some]
      · intro a ha
        cases ha
  exact hframe₃.result hk hm (hstep.trans hresult)

theorem does_range {u : Var} (hop : bc.OpAt p .OP_RANGE_REF) (hm : Ready prog bc p m)
    (hs : m.top.rtStack = w :: v :: u :: s)
    (hticks : 1 < m.ticksRemaining) (hr : rangeRef u v w = some r) : Does env m (p + 1) s 1 r := by
  obtain ⟨k, m₁, hk, hstep, hframe⟩ := step_any env hop trivial hm hticks
  rw [hs] at hframe
  obtain ⟨m₂, hpop, hframe₂⟩ := hframe.pop
  obtain ⟨m₃, hpop', hframe₃⟩ := hframe₂.pop
  obtain ⟨m₄, hpop'', hframe₄⟩ := hframe₃.pop
  have hresult : m₁.opRangeRef = m₄.pushResult r := by
    rw [Machine.opRangeRef, hpop]
    simp only [Option.bind_eq_bind, Option.bind_some, hpop', hpop'', hr]
  exact hframe₄.result hk hm (hstep.trans hresult)

/-- The first element of a list, or the list that is spliced in. -/
theorem does_first {kind : ArgKind} (hop : bc.OpAt p (firstArgOp kind)) (hm : Ready prog bc p m)
    (hs : m.top.rtStack = v :: s)
    (hticks : 1 < m.ticksRemaining) : Does env m (p + 1) s 1 (firstValue kind v) := by
  cases kind with
  | normal =>
    have hmake : bc.OpAt p .OP_MAKE_SINGLETON_LIST := hop
    exact does_unary hmake trivial (fun _ => rfl) hm hs hticks
  | splice =>
    have hcheck : bc.OpAt p .OP_CHECK_LIST_FOR_SPLICE := hop
    obtain ⟨k, m₁, hk, hstep, hframe⟩ := step_any env hcheck trivial hm hticks
    rw [hs] at hframe
    obtain ⟨m₂, hpop, hframe₂⟩ := hframe.pop
    rw [Machine.runOpcode, Machine.opCheckListForSplice, hpop] at hstep
    cases v with
    | list l => exact ⟨m₁, k, hk, hframe, .single (.opcode hstep)⟩
    | _ => exact hframe₂.result (r := .error .E_TYPE) hk hm hstep

theorem does_next {kind : ArgKind} (hop : bc.OpAt p (nextArgOp kind)) (hm : Ready prog bc p m)
    (hs : m.top.rtStack = w :: v :: s)
    (hticks : 1 < m.ticksRemaining) : Does env m (p + 1) s 1 (nextValue kind v w) := by
  cases kind with
  | normal =>
    have hadd : bc.OpAt p .OP_LIST_ADD_TAIL := hop
    exact does_operator hadd trivial (fun _ => rfl) hm hs hticks rfl
  | splice =>
    have happend : bc.OpAt p .OP_LIST_APPEND := hop
    exact does_operator happend trivial (fun _ => rfl) hm hs hticks rfl

/-- The value that `$` is the length of stands where the code says. -/
def Dollar (saved : Option Nat) (dollar : Option Var) (s : List Var) : Prop :=
  ∀ i, saved = some i → ∃ b, dollar = some b ∧ s.reverse[i]? = some b

section Dollar

variable {saved : Option Nat} {dollar : Option Var}

theorem Dollar.push (h : Dollar saved dollar s) (v : Var) : Dollar saved dollar (v :: s) := by
  intro i hi
  obtain ⟨b, hb, hget⟩ := h i hi
  refine ⟨b, hb, ?_⟩
  rw [List.reverse_cons, List.getElem?_append_left (List.getElem?_eq_some_iff.mp hget).1, hget]

/-- What has just been pushed is what `$` is the length of. -/
theorem dollar_base {d : Nat} (hd : s.length = d) (v : Var) :
    Dollar (some d) (some v) (v :: s) := by
  intro i hi
  cases hi
  subst hd
  refine ⟨v, rfl, ?_⟩
  rw [List.reverse_cons, ← List.length_reverse]
  exact List.getElem?_concat_length

end Dollar

theorem does_length {i : Nat} {b : Var} (hop : bc.EopAt p .EOP_LENGTH)
    (hoperand : bc.OperandAt .stack (p + 2) i) (hm : Ready prog bc p m)
    (hget : m.top.rtStack.reverse[i]? = some b) (hr : lengthOf b = some r) :
    Does env m (p + 2 + bc.numbytesStack) m.top.rtStack 1 r := by
  obtain ⟨k, m₁, hk, hstep, hframe⟩ := step_extended env hop hm
  have hread : m₁.readBytes m₁.top.bc.numbytesStack = _ := hframe.operand hm hoperand
  have hjump := hframe.jump (p + 2 + bc.width .stack)
  have hresult : m₁.runExtended env .EOP_LENGTH =
      (m₁.jump (p + 2 + bc.width .stack)).pushResult r := by
    rw [Machine.runExtended, Machine.eopLength, hread]
    simp only [Option.bind_eq_bind, Option.bind_some, hjump.rtStack, hget, hr]
  exact hjump.result hk hm (hstep.trans hresult)

/-! ## The code of an expression -/

theorem not_pop (h : bc.OpAt p op) (henc : op.Encodable) (hne : op ≠ .OP_POP) :
    ¬ bc.OpAt p .OP_POP :=
  not_popAt h fun he => hne (Opcode.toByte_inj henc trivial he)

theorem not_pop_pushAt {slot : Nat} (hat : PushAt bc slot p q) : ¬ bc.OpAt p .OP_POP := by
  rcases hat with ⟨_, hop, -⟩ | ⟨-, hop, -⟩
  · exact not_pop hop trivial Opcode.noConfusion
  · exact not_pop hop trivial Opcode.noConfusion

mutual

/-- The code of an expression does not begin with `OP_POP`, by induction on the expression. -/
theorem not_pop_exprAt {e : Expr} {saved : Option Nat} {d p q : Nat}
    (hat : ExprAt prog bc e saved d p q) : ¬ bc.OpAt p .OP_POP := by
  cases e with
  | var v =>
    rcases hat.1 with ⟨_, -, hrange, hop, -⟩ | ⟨_, _, -, hop, -⟩
    · exact not_pop hop hrange Opcode.noConfusion
    · exact not_pop hop trivial Opcode.noConfusion
  | id slot => exact not_pop_pushAt hat.1
  | prop lhs rhs | binary kind lhs rhs | index lhs rhs =>
    obtain ⟨_, _, hlhs, -⟩ := hat
    exact not_pop_exprAt hlhs
  | verb obj verb args =>
    obtain ⟨_, _, _, hobj, -⟩ := hat
    exact not_pop_exprAt hobj
  | range base from_ to_ =>
    obtain ⟨_, _, _, hbase, -⟩ := hat
    exact not_pop_exprAt hbase
  | asgn lhs rhs =>
    cases lhs with
    | scatter targets =>
      obtain ⟨_, _, _, hrhs, -⟩ := hat
      exact not_pop_exprAt hrhs
    | _ =>
      obtain ⟨_, _, _, hlhs, hrhs, -⟩ := hat
      rcases not_pop_lvalueAt hlhs with hpop | rfl
      · exact hpop
      · exact not_pop_exprAt hrhs
  | call func args =>
    obtain ⟨_, hargs, -⟩ := hat
    exact not_pop_argsAt hargs trivial Opcode.noConfusion
  | unary kind expr =>
    obtain ⟨_, hexpr, -⟩ := hat
    exact not_pop_exprAt hexpr
  | logical kind lhs rhs =>
    obtain ⟨_, hlhs, -⟩ := hat
    exact not_pop_exprAt hlhs
  | list args => exact not_pop_argsAt hat trivial Opcode.noConfusion
  | cond condition consequent alternate =>
    obtain ⟨_, _, _, hcondition, -⟩ := hat
    exact not_pop_exprAt hcondition
  | catch_ tryexp codes except =>
    obtain ⟨_, _, _, hcodes, -⟩ := hat
    exact not_pop_argsAt hcodes rfl Opcode.noConfusion
  | length =>
    obtain ⟨_, -, hop, -⟩ := hat
    exact not_pop hop.1 trivial Opcode.noConfusion
  | scatter targets => exact absurd hat id

theorem not_pop_argsAt {args : ArgList} {empty : Opcode} {saved : Option Nat} {d p q : Nat}
    (hat : ArgsAt prog bc args empty saved d p q)
    (henc : empty.Encodable) (hne : empty ≠ .OP_POP) : ¬ bc.OpAt p .OP_POP := by
  cases args with
  | nil => exact not_pop hat.1 henc hne
  | cons kind expr next =>
    obtain ⟨_, hexpr, -⟩ := hat
    exact not_pop_exprAt hexpr

/-- For a left side there may be no code at all. -/
theorem not_pop_lvalueAt {lhs : Expr} {above : Bool} {saved : Option Nat} {d p q : Nat}
    (hat : LvalueAt prog bc lhs above saved d p q) :
    ¬ bc.OpAt p .OP_POP ∨ q = p := by
  cases lhs with
  | range base from_ to_ =>
    obtain ⟨_, _, hbase, hfrom, -⟩ := hat
    rcases not_pop_lvalueAt hbase with hpop | rfl
    · exact .inl hpop
    · exact .inl (not_pop_exprAt hfrom)
  | index lhs rhs =>
    obtain ⟨_, _, hlhs, hrhs, -⟩ := hat
    rcases not_pop_lvalueAt hlhs with hpop | rfl
    · exact .inl hpop
    · exact .inl (not_pop_exprAt hrhs)
  | id slot =>
    cases above with
    | false => exact .inr hat
    | true => exact .inl (not_pop_pushAt hat.1)
  | prop lhs rhs =>
    obtain ⟨_, _, hlhs, -⟩ := hat
    exact .inl (not_pop_exprAt hlhs)
  | _ => exact absurd hat id

end

mutual

/-- The code of an expression computes its value, by induction on the expression. -/
theorem run_expr {e : Expr} {saved : Option Nat} {dollar : Option Var} {d p q : Nat} {m : Machine D}
    {s : List Var} {r : Except ErrCode Var}
    (hat : ExprAt prog bc e saved d p q) (htexts : CStrings prog) (hnext : ¬ bc.OpAt q .OP_POP)
    (hm : Ready prog bc p m)
    (hs : m.top.rtStack = s) (hd : s.length = d) (hdollar : Dollar saved dollar s)
    (hticks : (cost e : Int) < m.ticksRemaining)
    (heval : eval env.floats m.top.rtEnv e dollar = some r) : Does env m q s (cost e) r := by
  -- an operand that raises an error ends the evaluation, so each operand has two cases
  cases e with
  | var v =>
    rw [eval] at heval
    split at heval
    · next hv =>
      cases heval
      subst hs
      exact does_literal hat.1 htexts hv hnext hm hticks
    · cases heval
  | id slot =>
    rw [eval] at heval
    subst hs
    exact does_variable hat.1 hm hticks heval
  | unary kind expr =>
    obtain ⟨p₁, hexpr, hop, rfl⟩ := hat
    rw [eval] at heval
    rw [cost] at hticks ⊢
    have henc : (unaryOp kind).Encodable := by cases kind <;> trivial
    have hne : unaryOp kind ≠ .OP_POP := by cases kind <;> exact Opcode.noConfusion
    have hrun : ∀ m : Machine D, m.runOpcode env (unaryOp kind) = m.opUnary (unaryValue kind) := by
      cases kind <;> exact fun _ => rfl
    rcases andThen_cases heval with ⟨err, he, rfl⟩ | ⟨v, he, hv⟩
    · exact run_expr hexpr htexts (not_pop hop henc hne) hm hs hd hdollar (by omega) he
    · obtain ⟨m₁, k₁, hk₁, h₁⟩ :=
        run_expr hexpr htexts (not_pop hop henc hne) hm hs hd hdollar (by omega) he
      have ht₁ := h₁.ticks
      cases hv
      exact h₁.does (does_unary hop henc hrun (h₁.ready hm) h₁.rtStack (by omega)) (by omega)
  | binary kind lhs rhs =>
    obtain ⟨p₁, p₂, hlhs, hrhs, hop⟩ := hat
    rw [eval] at heval
    rw [cost] at hticks ⊢
    rcases andThen_cases heval with ⟨err, hv, rfl⟩ | ⟨v, hv, heval⟩
    · exact run_expr hlhs htexts (not_pop_exprAt hrhs) hm hs hd hdollar (by omega) hv
    · obtain ⟨m₁, k₁, hk₁, h₁⟩ :=
        run_expr hlhs htexts (not_pop_exprAt hrhs) hm hs hd hdollar (by omega) hv
      have ht₁ := h₁.ticks
      have hrun : ∀ {r₁}, eval env.floats m.top.rtEnv rhs dollar = some r₁ →
          Does env m₁ p₂ (v :: s) (cost rhs) r₁ := fun hw =>
        run_expr hrhs htexts (not_pop_binaryAt hop) (h₁.ready hm) h₁.rtStack (congrArg (· + 1) hd)
          (hdollar.push v) (by omega)
          (h₁.rtEnv.symm ▸ hw)
      rcases andThen_cases heval with ⟨err, hw, rfl⟩ | ⟨w, hw, hr⟩
      · exact h₁.does (n := cost rhs) (hrun hw) (by omega)
      · obtain ⟨m₂, k₂, hk₂, h₂⟩ := hrun hw
        have h₁₂ := h₁.trans h₂
        have ht₂ := h₁₂.ticks
        exact h₁₂.does (does_binary hop (h₁₂.ready hm) h₁₂.rtStack (by omega) hr) (by omega)
  | logical kind lhs rhs =>
    obtain ⟨p₁, hlhs, hop, hlab, hrhs⟩ := hat
    rw [eval] at heval
    rw [cost] at hticks ⊢
    have hnot : ¬ bc.OpAt p₁ .OP_POP :=
      not_pop hop (by cases kind <;> trivial) (by cases kind <;> exact Opcode.noConfusion)
    rcases andThen_cases heval with ⟨err, hv, rfl⟩ | ⟨v, hv, heval⟩
    · exact run_expr hlhs htexts hnot hm hs hd hdollar (by omega) hv
    · obtain ⟨m₁, k₁, hk₁, h₁⟩ := run_expr hlhs htexts hnot hm hs hd hdollar (by omega) hv
      have ht₁ := h₁.ticks
      obtain ⟨m₂, k₂, hk₂, h₂⟩ := went_logical env hop hlab (h₁.ready hm) h₁.rtStack (by omega)
      -- what the left operand decides is the value, and the jump leaves out the right one
      split at heval
      · next hdec =>
        rw [if_pos hdec] at h₂
        cases heval
        exact ⟨m₂, k₁ + k₂, by omega, h₁.trans h₂⟩
      · next hdec =>
        rw [if_neg hdec] at h₂
        have h₁₂ := h₁.trans h₂
        have ht₂ := h₁₂.ticks
        exact h₁₂.does (run_expr hrhs htexts hnext (h₁₂.ready hm) h₁₂.rtStack hd hdollar (by omega)
          (h₁₂.rtEnv.symm ▸ heval)) (by omega)
  | cond condition consequent alternate =>
    obtain ⟨p₁, p₂, p₃, hcondition, hop, hlab, hthen, hjump, hend, rfl, helse⟩ := hat
    rw [eval] at heval
    rw [cost] at hticks ⊢
    have hnot : ¬ bc.OpAt p₁ .OP_POP := not_pop hop trivial Opcode.noConfusion
    rcases andThen_cases heval with ⟨err, hv, rfl⟩ | ⟨v, hv, heval⟩
    · exact run_expr hcondition htexts hnot hm hs hd hdollar (by omega) hv
    · obtain ⟨m₁, k₁, hk₁, h₁⟩ := run_expr hcondition htexts hnot hm hs hd hdollar (by omega) hv
      have ht₁ := h₁.ticks
      obtain ⟨m₂, k₂, hk₂, h₂⟩ := went_test env hop hlab (h₁.ready hm) h₁.rtStack (by omega)
      have h₁₂ := h₁.trans h₂
      have ht₂ := h₁₂.ticks
      split at heval
      · next hv =>
        rw [if_pos hv] at h₁₂
        have hdoes : Does env m₂ p₂ s (cost consequent) r :=
          run_expr hthen htexts (not_pop hjump trivial Opcode.noConfusion) (h₁₂.ready hm)
          h₁₂.rtStack hd hdollar (by omega) (h₁₂.rtEnv.symm ▸ heval)
        cases r with
        | error e => exact h₁₂.does (n := cost consequent) hdoes (by omega)
        | ok w =>
          obtain ⟨m₃, k₃, hk₃, h₃⟩ := hdoes
          have h₁₃ := h₁₂.trans h₃
          have ht₃ := h₁₃.ticks
          obtain ⟨m₄, k₄, hk₄, h₄⟩ := went_jump env hjump hend (h₁₃.ready hm) (by omega)
          rw [h₁₃.rtStack] at h₄
          exact ⟨m₄, _, by omega, h₁₃.trans h₄⟩
      · next hv =>
        rw [if_neg hv] at h₁₂
        exact h₁₂.does (run_expr helse htexts hnext (h₁₂.ready hm) h₁₂.rtStack hd hdollar (by omega)
          (h₁₂.rtEnv.symm ▸ heval)) (by omega)
  | index lhs rhs =>
    obtain ⟨p₁, p₂, hlhs, hrhs, hop, rfl⟩ := hat
    rw [eval] at heval
    rw [cost] at hticks ⊢
    rcases andThen_cases heval with ⟨err, hv, rfl⟩ | ⟨v, hv, heval⟩
    · exact run_expr hlhs htexts (not_pop_exprAt hrhs) hm hs hd hdollar (by omega) hv
    · obtain ⟨m₁, k₁, hk₁, h₁⟩ :=
        run_expr hlhs htexts (not_pop_exprAt hrhs) hm hs hd hdollar (by omega) hv
      have ht₁ := h₁.ticks
      have hrun : ∀ {r₁}, eval env.floats m.top.rtEnv rhs (some v) = some r₁ →
          Does env m₁ p₂ (v :: s) (cost rhs) r₁ := fun hw =>
        run_expr hrhs htexts (not_pop hop trivial Opcode.noConfusion)
          (h₁.ready hm) h₁.rtStack (congrArg (· + 1) hd) (dollar_base hd v)
          (by omega) (h₁.rtEnv.symm ▸ hw)
      rcases andThen_cases heval with ⟨err, hw, rfl⟩ | ⟨w, hw, hr⟩
      · exact h₁.does (n := cost rhs) (hrun hw) (by omega)
      · obtain ⟨m₂, k₂, hk₂, h₂⟩ := hrun hw
        have h₁₂ := h₁.trans h₂
        have ht₂ := h₁₂.ticks
        exact h₁₂.does (does_ref hop (h₁₂.ready hm) h₁₂.rtStack (by omega) hr) (by omega)
  | range base from_ to_ =>
    obtain ⟨p₁, p₂, p₃, hbase, hfrom, hto, hop, rfl⟩ := hat
    rw [eval] at heval
    rw [cost] at hticks ⊢
    rcases andThen_cases heval with ⟨err, hv, rfl⟩ | ⟨u, hv, heval⟩
    · exact run_expr hbase htexts (not_pop_exprAt hfrom) hm hs hd hdollar (by omega) hv
    · obtain ⟨m₁, k₁, hk₁, h₁⟩ :=
        run_expr hbase htexts (not_pop_exprAt hfrom) hm hs hd hdollar (by omega) hv
      have ht₁ := h₁.ticks
      have hdollar₁ := dollar_base hd u
      have hd₁ : (u :: s).length = d + 1 := congrArg (· + 1) hd
      have hrun : ∀ {r₁}, eval env.floats m.top.rtEnv from_ (some u) = some r₁ →
          Does env m₁ p₂ (u :: s) (cost from_) r₁ := fun hw =>
        run_expr hfrom htexts (not_pop_exprAt hto) (h₁.ready hm) h₁.rtStack hd₁ hdollar₁ (by omega)
          (h₁.rtEnv.symm ▸ hw)
      rcases andThen_cases heval with ⟨err, hw, rfl⟩ | ⟨v, hw, heval⟩
      · exact h₁.does (n := cost from_) (hrun hw) (by omega)
      · obtain ⟨m₂, k₂, hk₂, h₂⟩ := hrun hw
        have h₁₂ := h₁.trans h₂
        have ht₂ := h₁₂.ticks
        have hrun₂ : ∀ {r₂}, eval env.floats m.top.rtEnv to_ (some u) = some r₂ →
            Does env m₂ p₃ (v :: u :: s) (cost to_) r₂ := fun hw =>
          run_expr hto htexts (not_pop hop trivial Opcode.noConfusion)
            (h₁₂.ready hm) h₁₂.rtStack (congrArg (· + 1) hd₁) (hdollar₁.push v)
            (by omega) (h₁₂.rtEnv.symm ▸ hw)
        rcases andThen_cases heval with ⟨err, hw, rfl⟩ | ⟨w, hw, hr⟩
        · exact h₁₂.does (n := cost to_) (hrun₂ hw) (by omega)
        · obtain ⟨m₃, k₃, hk₃, h₃⟩ := hrun₂ hw
          have h₁₃ := h₁₂.trans h₃
          have ht₃ := h₁₃.ticks
          exact h₁₃.does (does_range hop (h₁₃.ready hm) h₁₃.rtStack (by omega) hr) (by omega)
  | length =>
    obtain ⟨i, hi, hop, hoperand, -, rfl⟩ := hat
    obtain ⟨b, rfl, hget⟩ := hdollar i hi
    rw [eval] at heval
    subst hs
    exact does_length hop hoperand hm hget heval
  | list args =>
    rw [eval] at heval
    exact run_args hat htexts hm hs hd hdollar hticks heval
  | _ => cases heval

theorem run_args {args : ArgList} {saved : Option Nat} {dollar : Option Var} {d p q : Nat}
    {m : Machine D} {s : List Var}
    {r : Except ErrCode Var} (hat : ArgsAt prog bc args .OP_MAKE_EMPTY_LIST saved d p q)
    (htexts : CStrings prog) (hm : Ready prog bc p m)
    (hs : m.top.rtStack = s) (hd : s.length = d) (hdollar : Dollar saved dollar s)
    (hticks : (costArgs args : Int) < m.ticksRemaining)
    (heval : evalArgs env.floats m.top.rtEnv args dollar = some r) :
    Does env m q s (costArgs args) r := by
  cases args with
  | nil =>
    obtain ⟨hop, -, rfl⟩ := hat
    rw [evalArgs] at heval
    cases heval
    subst hs
    exact does_push hop trivial (fun _ => rfl) hm hticks
  | cons kind expr next =>
    obtain ⟨p₁, hexpr, hop, hmore⟩ := hat
    rw [evalArgs] at heval
    rw [costArgs] at hticks ⊢
    have hnot : ¬ bc.OpAt p₁ .OP_POP :=
      not_pop hop (by cases kind <;> trivial) (by cases kind <;> exact Opcode.noConfusion)
    have hrun : ∀ {r₁}, (andThen (eval env.floats m.top.rtEnv expr dollar) fun v =>
      some (firstValue kind v)) = some r₁ →
        Does env m (p₁ + 1) s (cost expr + 1) r₁ := by
      intro r₁ hfirst
      rcases andThen_cases hfirst with ⟨err, hv, rfl⟩ | ⟨v, hv, hr⟩
      · exact run_expr hexpr htexts hnot hm hs hd hdollar (by omega) hv
      · obtain ⟨m₁, k₁, hk₁, h₁⟩ := run_expr hexpr htexts hnot hm hs hd hdollar (by omega) hv
        have ht₁ := h₁.ticks
        cases hr
        exact h₁.does (does_first hop (h₁.ready hm) h₁.rtStack (by omega)) (by omega)
    rcases andThen_cases heval with ⟨err, hl, rfl⟩ | ⟨l, hl, heval⟩
    · exact hrun hl
    · obtain ⟨m₁, k₁, hk₁, h₁⟩ := hrun hl
      have ht₁ := h₁.ticks
      exact h₁.does (run_more hmore htexts (h₁.ready hm) h₁.rtStack hd hdollar (by omega)
        (h₁.rtEnv.symm ▸ heval)) (by omega)

/-- The later elements are added to the list on top of the stack. -/
theorem run_more {args : ArgList} {saved : Option Nat} {dollar : Option Var} {d p q : Nat}
    {m : Machine D} {l : Var} {s : List Var}
    {r : Except ErrCode Var} (hat : MoreArgsAt prog bc args saved (d + 1) p q)
    (htexts : CStrings prog) (hm : Ready prog bc p m)
    (hs : m.top.rtStack = l :: s) (hd : s.length = d) (hdollar : Dollar saved dollar s)
    (hticks : (costArgs args : Int) < m.ticksRemaining)
    (heval : evalMore env.floats m.top.rtEnv args dollar l = some r) :
    Does env m q s (costArgs args) r := by
  cases args with
  | nil =>
    rw [MoreArgsAt] at hat
    rw [evalMore] at heval
    cases heval
    exact ⟨m, 0, Nat.zero_le _, .refl (hm.pc.trans hat.symm) hs⟩
  | cons kind expr next =>
    obtain ⟨p₁, hexpr, hop, hmore⟩ := hat
    rw [evalMore] at heval
    rw [costArgs] at hticks ⊢
    have hnot : ¬ bc.OpAt p₁ .OP_POP :=
      not_pop hop (by cases kind <;> trivial) (by cases kind <;> exact Opcode.noConfusion)
    have hd₁ : (l :: s).length = d + 1 := congrArg (· + 1) hd
    have hrun : ∀ {r₁}, (andThen (eval env.floats m.top.rtEnv expr dollar) fun v =>
      some (nextValue kind l v)) = some r₁ →
        Does env m (p₁ + 1) s (cost expr + 1) r₁ := by
      intro r₁ hnext
      rcases andThen_cases hnext with ⟨err, hv, rfl⟩ | ⟨v, hv, hr⟩
      · exact run_expr hexpr htexts hnot hm hs hd₁ (hdollar.push l) (by omega) hv
      · obtain ⟨m₁, k₁, hk₁, h₁⟩ :=
          run_expr hexpr htexts hnot hm hs hd₁ (hdollar.push l) (by omega) hv
        have ht₁ := h₁.ticks
        cases hr
        exact h₁.does (does_next hop (h₁.ready hm) h₁.rtStack (by omega)) (by omega)
    rcases andThen_cases heval with ⟨err, hl, rfl⟩ | ⟨l', hl, heval⟩
    · exact hrun hl
    · obtain ⟨m₁, k₁, hk₁, h₁⟩ := hrun hl
      have ht₁ := h₁.ticks
      exact h₁.does (run_more hmore htexts (h₁.ready hm) h₁.rtStack hd hdollar (by omega)
        (h₁.rtEnv.symm ▸ heval)) (by omega)

end

/-! ## The program -/

/-- The program comes to its `OP_RETURN` with a value, or raises an error; the variables are as they
were. -/
def Gives (env : RunEnv D) (m : Machine D) : Except ErrCode Var → Prop
  | .ok v => ∃ m' m'', Reaches env (fun _ _ => False) m m' ∧
  m'.step env = some ⟨none, .unwind .FIN_RETURN v m''⟩ ∧ m''.top.rtStack = [] ∧
      m''.top.rtEnv = m.top.rtEnv
  | .error e => Raises env m e

/-- A program that returns an expression returns its value, or raises its error. -/
theorem return_correct {e : Expr} (hcode : generateCode (returnProgram e) = some prog)
    (hl : e.Legal VarSlot) (hprog : SmallProgram prog)
    (htexts : CStrings prog) (hm : Ready prog prog.mainVector 0 m) (hs : m.top.rtStack = [])
    (hticks : (cost e : Int) < m.ticksRemaining)
    (heval : eval env.floats m.top.rtEnv e none = some r) : Gives env m r := by
  obtain ⟨inner, hvector, rfl⟩ := generateCode_vector hcode
  have hat := vectorAt_of_generateVector hvector ⟨hl, trivial⟩ hprog.main hprog.toSmallTables
    List.prefix_rfl List.prefix_rfl
  obtain ⟨t, ⟨t', ⟨p₁, hexpr, hop, -⟩, -⟩, -⟩ := hat
  have hnone : Dollar none none ([] : List Var) := by
    intro i hi
    cases hi
  have hdoes : Does env m p₁ [] (cost e) r :=
    run_expr hexpr htexts (not_pop hop trivial Opcode.noConfusion) hm hs rfl hnone hticks heval
  cases r with
  | error e => exact hdoes
  | ok v =>
    obtain ⟨m₁, k₁, hk₁, h₁⟩ := hdoes
    have hready := h₁.ready hm
    have hstep : m₁.step env = m₁.fetched.opReturn :=
      Machine.step_op hop trivial (by decide) hready.bc hready.pc
    have hpop := Machine.pop_eq (m := m₁.fetched) h₁.rtStack
    rw [Machine.opReturn, hpop] at hstep
    exact ⟨m₁, _, h₁.run, hstep, rfl, h₁.rtEnv⟩

/-- `{2, 3}[$] + 4` -/
def lastPlusFour : Expr :=
  .binary .plus (.index (.list (.cons .normal (.var (.int 2)) (.cons .normal (.var (.int 3)) .nil)))
    .length) (.var (.int 4))

theorem lastPlusFour_isSome : (generateCode (returnProgram lastPlusFour)).isSome = true := by
  decide +kernel

/-- The machine that begins to run a program. -/
def atBeginning (prog : Program) : Machine Unit :=
  let m := Machine.bare prog.mainVector 0 true [] []
  { m with top := { m.top with prog := { m.top.prog with code := prog } } }

/-- A program that returns the last element of a list, and four more. -/
theorem return_correct_last : ∃ prog, generateCode (returnProgram lastPlusFour) = some prog ∧
    Gives bareEnv (atBeginning prog) (.ok (.int 7)) := by
  have hforks : ((generateCode (returnProgram lastPlusFour)).get lastPlusFour_isSome).forkVectors =
      [] := by decide +kernel
  have hliterals : ((generateCode (returnProgram lastPlusFour)).get lastPlusFour_isSome).literals =
      [] := by decide +kernel
  have hcode := (Option.some_get lastPlusFour_isSome).symm
  refine ⟨_, hcode, return_correct hcode ?_ ⟨⟨?_, ?_, ?_⟩, ⟨?_, ?_⟩⟩ ?_ ⟨⟨rfl, rfl, rfl⟩,
    rfl, rfl⟩ rfl ?_ ?_⟩
  · exact ⟨⟨⟨trivial, trivial, trivial⟩, trivial⟩, trivial⟩
  · rw [hforks]
    exact fun _ h => absurd h List.not_mem_nil
  · decide +kernel
  · decide +kernel
  · decide +kernel
  · decide +kernel
  · rw [CStrings, hliterals]
    exact fun _ h => absurd h List.not_mem_nil
  · decide +kernel
  · rfl

end NuMoo.Exec
