import NuMoo.Exec.Expression
import NuMoo.Exec.Handlers

/-!
# Running statements

The code of statements, run by `run()` with the exits of `unwind_stack`, does what the statements
stand for. The statements are assignments to variables, `if`, `while`, `for` over the elements of a
list, `break`, `continue` and `return`, nested in any way.

Results:
1. `popStack_clear`: an exit comes to the height it names, where no handlers stand on the stack.
2. `runs_correct`: the code of statements does what they stand for, wherever it stands.
3. `program_correct`: a program ends as its statements end.
-/

namespace NuMoo.Exec

open CodeGen Shape

variable {D : Type}

/-! ## What statements stand for -/

/-- How statements end. -/
inductive StmtEnd where
  | normal
  | value (v : Var)
  | error (e : ErrCode)
  | break_ (exit : Option Nat)
  | continue_ (exit : Option Nat)

/-- What is run: a statement, statements, the arms of an `if` that remain, or the turns of a loop
over a list that remain. -/
inductive Fragment where
  | stmt (stmt : Stmt)
  | stmts (stmts : Stmts)
  | arms (arms : CondArms) (otherwise : Stmts)
  | turns (id : Nat) (list : List Var) (i : Int) (body : Stmts)

/-- What the end of its body is to a loop; there is none where the next turn follows. -/
def afterBody (id : Option Nat) : StmtEnd → Option StmtEnd
  | .normal => none
  | .break_ exit => if exit = none ∨ exit = id then some .normal else some (.break_ exit)
  | .continue_ exit => if exit = none ∨ exit = id then none else some (.continue_ exit)
  | e => some e

/-- A variable is given a value. -/
def setVar (slot : Nat) (v : Var) (rt : List Var) : Option (List Var) :=
  if slot < rt.length then some (rt.set slot v) else none

/-- The variable of a `while` is given the value of the condition. -/
def setName : Option Nat → Var → List Var → Option (List Var)
  | none, _, rt => some rt
  | some slot, v, rt => setVar slot v rt

/-- From these variables it ends like that, with those variables; fewer ticks are counted than the
number. -/
inductive Runs (fl : FloatOps) : Fragment → List Var → Nat → List Var → StmtEnd → Prop
  | nil {rt} : Runs fl (.stmts .nil) rt 0 rt .normal
  | next {stmt next rt rt₁ rt' n n' e} : Runs fl (.stmt stmt) rt n rt₁ .normal →
      Runs fl (.stmts next) rt₁ n' rt' e →
      Runs fl (.stmts (.cons stmt next)) rt (n + n') rt' e
  | stop {stmt next rt rt' n e} : Runs fl (.stmt stmt) rt n rt' e → e ≠ .normal →
      Runs fl (.stmts (.cons stmt next)) rt n rt' e
  | assign {slot expr rt rt' v} : eval fl rt expr none = some (.ok v) →
      setVar slot v rt = some rt' →
      Runs fl (.stmt (.expr (.asgn (.id slot) expr))) rt (cost expr + 2) rt' .normal
  | assignError {slot expr rt e} : eval fl rt expr none = some (.error e) →
      Runs fl (.stmt (.expr (.asgn (.id slot) expr))) rt (cost expr) rt (.error e)
  | returnValue {expr rt v} : eval fl rt expr none = some (.ok v) →
      Runs fl (.stmt (.return_ (.some expr))) rt (cost expr + 1) rt (.value v)
  | returnError {expr rt e} : eval fl rt expr none = some (.error e) →
      Runs fl (.stmt (.return_ (.some expr))) rt (cost expr) rt (.error e)
  | returnZero {rt} : Runs fl (.stmt (.return_ .none)) rt 1 rt (.value (.int 0))
  | break_ {exit rt} : Runs fl (.stmt (.break_ exit)) rt 1 rt (.break_ exit)
  | continue_ {exit rt} : Runs fl (.stmt (.continue_ exit)) rt 1 rt (.continue_ exit)
  | cond {arms otherwise rt rt' n e} : Runs fl (.arms arms otherwise) rt n rt' e →
      Runs fl (.stmt (.cond arms otherwise)) rt n rt' e
  | otherwise {otherwise rt rt' n e} : Runs fl (.stmts otherwise) rt n rt' e →
      Runs fl (.arms .nil otherwise) rt n rt' e
  | armTrue {condition stmt next otherwise rt rt' v n e} :
      eval fl rt condition none = some (.ok v) → isTrue v = true →
      Runs fl (.stmts stmt) rt n rt' e →
      Runs fl (.arms (.cons condition stmt next) otherwise) rt (cost condition + n + 2) rt' e
  | armFalse {condition stmt next otherwise rt rt' v n e} :
      eval fl rt condition none = some (.ok v) → isTrue v = false →
      Runs fl (.arms next otherwise) rt n rt' e →
      Runs fl (.arms (.cons condition stmt next) otherwise) rt (cost condition + n + 1) rt' e
  | armError {condition stmt next otherwise rt e} : eval fl rt condition none = some (.error e) →
      Runs fl (.arms (.cons condition stmt next) otherwise) rt (cost condition) rt (.error e)
  | whileTurn {id condition body rt rt₁ rt₂ rt' v n n' e e'} :
      eval fl rt condition none = some (.ok v) → isTrue v = true →
      setName id v rt = some rt₁ → Runs fl (.stmts body) rt₁ n rt₂ e → afterBody id e = none →
      Runs fl (.stmt (.while_ id condition body)) rt₂ n' rt' e' →
      Runs fl (.stmt (.while_ id condition body)) rt (cost condition + n + n' + 2) rt' e'
  | whileLeft {id condition body rt rt₁ rt' v n e e'} : eval fl rt condition none = some (.ok v) →
      isTrue v = true →
      setName id v rt = some rt₁ → Runs fl (.stmts body) rt₁ n rt' e → afterBody id e = some e' →
      Runs fl (.stmt (.while_ id condition body)) rt (cost condition + n + 1) rt' e'
  | whileEnd {id condition body rt rt' v} : eval fl rt condition none = some (.ok v) →
      isTrue v = false →
      setName id v rt = some rt' →
      Runs fl (.stmt (.while_ id condition body)) rt (cost condition + 1) rt' .normal
  | whileError {id condition body rt e} : eval fl rt condition none = some (.error e) →
      Runs fl (.stmt (.while_ id condition body)) rt (cost condition) rt (.error e)
  | list {id expr body rt rt' l n e} : eval fl rt expr none = some (.ok (.list l)) →
      Runs fl (.turns id l 1 body) rt n rt' e →
      Runs fl (.stmt (.list id expr body)) rt (cost expr + n + 1) rt' e
  | listError {id expr body rt e} : eval fl rt expr none = some (.error e) →
      Runs fl (.stmt (.list id expr body)) rt (cost expr) rt (.error e)
  | listType {id expr body rt v} : eval fl rt expr none = some (.ok v) → (∀ l, v ≠ .list l) →
      Runs fl (.stmt (.list id expr body)) rt (cost expr + 2) rt (.error .E_TYPE)
  | turn {id l i body rt rt₁ rt₂ rt' v n n' e e'} : element l i = some v →
      setVar id v rt = some rt₁ → Runs fl (.stmts body) rt₁ n rt₂ e →
      afterBody (some id) e = none → Runs fl (.turns id l (i + 1) body) rt₂ n' rt' e' →
      Runs fl (.turns id l i body) rt (n + n' + 2) rt' e'
  | turnLeft {id l i body rt rt₁ rt' v n e e'} : element l i = some v → setVar id v rt = some rt₁ →
      Runs fl (.stmts body) rt₁ n rt' e →
      afterBody (some id) e = some e' → Runs fl (.turns id l i body) rt (n + 1) rt' e'
  | turnsEnd {id l i body rt} : i > l.length → Runs fl (.turns id l i body) rt 1 rt .normal

/-! ## Exits -/

/-- No handlers stand on the stack. -/
def Clear (s : List Var) : Prop := ∀ v ∈ s, (∀ n, v ≠ .catch n) ∧ ∀ n, v ≠ .finally n

/-- Where an exit of `unwind_stack` leads, in the activation it begins in. -/
def Exits (uenv : Env D) (w : World) : Next D → Machine D → Prop
  | .unwind .FIN_EXIT value m, m' => ∃ vm : Vm D,
    unwind uenv .FIN_EXIT value ⟨w, m.top.toActivation, m.rest.map RunActiv.toActivation⟩ =
      some (.exit vm) ∧
    m' = m.setTop fun a => { a with pc := vm.top.pc, rtStack := vm.top.rtStack }
  | _, _ => False

/-- An exit comes to the height it names. -/
theorem popStack_clear {w : World} {code : Var} {goal : Nat} {s : List Var} (hs : Clear s)
    (hgoal : goal ≤ s.length) :
    ∃ s', popStack w .FIN_EXIT code goal 0 s = some (.goal s') ∧ s' <:+ s ∧ s'.length = goal := by
  induction s with
  | nil => exact ⟨[], rfl, List.suffix_rfl, (Nat.le_zero.mp hgoal).symm⟩
  | cons v s ih =>
    obtain ⟨hcatch, hfinally⟩ := hs v List.mem_cons_self
    rw [popStack]
    split
    · next hlt => exact ⟨v :: s, rfl, List.suffix_rfl,
        Nat.le_antisymm (Nat.succ_le_of_lt hlt) hgoal⟩
    · next hlt =>
      obtain ⟨s', hpop, hsuffix, hlength⟩ :=
        ih (fun v hv => hs v (List.mem_cons_of_mem _ hv)) (Nat.le_of_not_lt hlt)
      exact ⟨s', hpop, hsuffix.trans (List.suffix_cons v s), hlength⟩
    · exact hfinally
    · exact hcatch

theorem readBytes_lt (l : List UInt8) (acc : Nat) :
    l.foldl (fun value b => value * 256 + b.toNat) acc < (acc + 1) * 256 ^ l.length := by
  induction l generalizing acc with
  | nil => simp
  | cons b l ih =>
    have hb := b.toNat_lt
    have hacc : acc * 256 + b.toNat + 1 ≤ (acc + 1) * 256 := by omega
    calc List.foldl (fun value b => value * 256 + b.toNat) acc (b :: l)
        < (acc * 256 + b.toNat + 1) * 256 ^ l.length := ih _
      _ ≤ (acc + 1) * 256 * 256 ^ l.length := Nat.mul_le_mul_right _ hacc
      _ = (acc + 1) * 256 ^ (b :: l).length := by
        rw [List.length_cons, Nat.pow_succ, Nat.mul_assoc, Nat.mul_comm 256]

/-- A label is a value of the pc register. -/
theorem toPc_label {bc : Bytecodes} {p lab : Nat} (hwidth : bc.numbytesLabel ≤ 4)
    (hlab : bc.OperandAt .label p lab) : toPc lab = lab := by
  have hlt : lab < 256 ^ 4 := by
    have hread := readBytes_lt ((bc.vector.drop p).take bc.numbytesLabel) 0
    rw [Nat.zero_add, Nat.one_mul] at hread
    have hle : 256 ^ ((bc.vector.drop p).take bc.numbytesLabel).length ≤ 256 ^ 4 :=
      Nat.pow_le_pow_right (by decide) (Nat.le_trans (List.length_take_le _ _) hwidth)
    rw [← hlab.reads]
    exact Nat.lt_of_lt_of_le hread hle
  rw [toPc]
  omega

/-! ## Machines in between -/

/-- Some instructions have been run, and the variables are these. -/
structure Passed (env : RunEnv D) (uenv : Env D) (w : World) (m m' : Machine D) (q : Nat)
    (s : List Var) (rt : List Var) (k : Nat) : Prop
    extends Framed (m.withEnv rt) m' q s k where
  run : Reaches env (Exits uenv w) m m'

/-- A machine at a position, with these variables and this stack. -/
structure Stands (prog : Program) (bc : Bytecodes) (p : Nat) (rt s : List Var) (m : Machine D) :
    Prop extends Ready prog bc p m where
  rtEnv : m.top.rtEnv = rt
  rtStack : m.top.rtStack = s

/-- The loop is left or begun again: the machine goes on at the label, with a stack of that
height. -/
def Leads (env : RunEnv D) (uenv : Env D) (w : World) (m : Machine D) (q height : Nat)
    (s rt : List Var) (n : Nat) : Prop :=
  ∃ s' m' k, s' <:+ s ∧ s'.length = height ∧ k ≤ n ∧ Passed env uenv w m m' q s' rt k

/-- The machine ends like that: it goes on behind the code, or where a loop around it ends or
begins, or it returns or raises an error. -/
def Comes (env : RunEnv D) (uenv : Env D) (w : World) (ctx : List LoopCtx) (q : Nat)
    (s rt : List Var) (n : Nat) (m : Machine D) : StmtEnd → Prop
  | .normal => ∃ m' k, k ≤ n ∧ Passed env uenv w m m' q s rt k
  | .value v => ∃ m' m'', Reaches env (Exits uenv w) m m' ∧ m'.step env =
    some ⟨none, .unwind .FIN_RETURN v m''⟩ ∧ m''.top.rtEnv = rt
  | .error e => ∃ m' m'', Reaches env (Exits uenv w) m m' ∧ m'.step env =
    some ⟨some e, .raise e m''⟩ ∧ m''.top.rtEnv = rt
  | .break_ exit =>
    ∃ c, exitLoopCtx exit ctx = some c ∧ Leads env uenv w m c.bottom c.bottomStack s rt n
  | .continue_ exit =>
    ∃ c, exitLoopCtx exit ctx = some c ∧ Leads env uenv w m c.top c.topStack s rt n

variable {env : RunEnv D} {uenv : Env D} {w : World} {m m' m'' m₁ : Machine D} {prog : Program}
    {bc : Bytecodes}
  {p q q' lab k k' n n' height : Nat} {s s' rt rt' : List Var} {v : Var} {e : StmtEnd}
  {ctx : List LoopCtx} {c : LoopCtx} {expr : Expr}

theorem Reaches.with_exits (h : Reaches env (fun _ _ => False) m m') :
    Reaches env (Exits uenv w) m m' := by
  refine Relation.ReflTransGen.mono (fun _ _ hturn => ?_) _ _ h
  cases hturn with
  | opcode hstep => exact .opcode hstep
  | unwound _ hnext => exact hnext.elim

theorem Went.passed (h : Went env m m' q s k) (hrt : m.top.rtEnv = rt) :
    Passed env uenv w m m' q s rt k := by
  subst hrt
  exact ⟨h.toFramed, h.run.with_exits⟩

theorem Passed.trans (h : Passed env uenv w m m' q s rt k)
    (h' : Passed env uenv w m' m'' q' s' rt' k') :
    Passed env uenv w m m'' q' s' rt' (k + k') where
  pc := h'.pc
  rtStack := h'.rtStack
  bc := h'.bc.trans h.bc
  prog := h'.prog.trans h.prog
  rtEnv := h'.rtEnv
  debug := h'.debug.trans h.debug
  temp := h'.temp.trans h.temp
  server := h'.server.trans h.server
  tasks := h'.tasks.trans h.tasks
  rest := h'.rest.trans h.rest
  timedOut := h'.timedOut.trans h.timedOut
  ticks := by
    have h₁ : m'.ticksRemaining = m.ticksRemaining - k := h.ticks
    have h₂ : m''.ticksRemaining = m'.ticksRemaining - k' := h'.ticks
    change m''.ticksRemaining = m.ticksRemaining - (k + k' : Nat)
    omega
  run := h.run.trans h'.run

theorem Passed.ticksLeft (h : Passed env uenv w m m' q s rt k) :
    m'.ticksRemaining = m.ticksRemaining - k := h.ticks

theorem Passed.stands (h : Passed env uenv w m m' q s rt k) (hm : Ready prog bc p m) :
    Stands prog bc q rt s m' :=
  ⟨⟨⟨(congrArg Loaded.code h.prog).trans hm.code, h.bc.trans hm.bc, h.pc⟩, h.debug.trans hm.debug,
    h.timedOut.trans hm.timedOut⟩,
    h.rtEnv, h.rtStack⟩

theorem Leads.after (h : Passed env uenv w m m' q s' rt k)
    (hl : Leads env uenv w m' q' height s rt' n) (hn : k + n ≤ n') :
    Leads env uenv w m q' height s rt' n' := by
  obtain ⟨t, m₂, k₂, ht, hlen, hk₂, h₂⟩ := hl
  exact ⟨t, m₂, k + k₂, ht, hlen, Nat.le_trans (Nat.add_le_add_left hk₂ k) hn, h.trans h₂⟩

theorem Comes.after (h : Passed env uenv w m m' q s' rt k)
    (hc : Comes env uenv w ctx q' s rt' n m' e) (hn : k + n ≤ n') :
    Comes env uenv w ctx q' s rt' n' m e := by
  cases e with
  | normal =>
    obtain ⟨m₂, k₂, hk₂, h₂⟩ := hc
    exact ⟨m₂, k + k₂, Nat.le_trans (Nat.add_le_add_left hk₂ k) hn, h.trans h₂⟩
  | value v =>
    obtain ⟨m₁, m₂, hrun, hstep, henv⟩ := hc
    exact ⟨m₁, m₂, h.run.trans hrun, hstep, henv⟩
  | error e =>
    obtain ⟨m₁, m₂, hrun, hstep, henv⟩ := hc
    exact ⟨m₁, m₂, h.run.trans hrun, hstep, henv⟩
  | break_ exit =>
    obtain ⟨c, hc, hl⟩ := hc
    exact ⟨c, hc, hl.after h hn⟩
  | continue_ exit =>
    obtain ⟨c, hc, hl⟩ := hc
    exact ⟨c, hc, hl.after h hn⟩

/-- Only a normal end is behind the code. -/
theorem Comes.elsewhere (h : Comes env uenv w ctx q s rt n m e) (hne : e ≠ .normal) :
    Comes env uenv w ctx q' s rt n m e := by
  cases e with
  | normal => exact absurd rfl hne
  | _ => exact h

section Expressions

variable (h : Stands prog bc p rt s m) (hat : ExprAt prog bc expr none s.length p q)
    (htexts : CStrings prog) (hnext : ¬ bc.OpAt q .OP_POP)
  (hticks : (cost expr : Int) < m.ticksRemaining)

include h hat htexts hnext hticks

theorem Stands.does {r : Except ErrCode Var} (heval : eval env.floats rt expr none = some r) :
    Does env m q s (cost expr) r := by
  have hnone : Dollar none none s := by
    intro i hi
    cases hi
  exact run_expr hat htexts hnext h.toReady h.rtStack rfl hnone hticks (h.rtEnv.symm ▸ heval)

theorem Stands.value (uenv : Env D) (w : World)
    (heval : eval env.floats rt expr none = some (.ok v)) :
    ∃ m' k, k ≤ cost expr ∧ Passed env uenv w m m' q (v :: s) rt k := by
  obtain ⟨m', k, hk, hwent⟩ : Does env m q s (cost expr) (.ok v) :=
    h.does hat htexts hnext hticks heval
  exact ⟨m', k, hk, hwent.passed h.rtEnv⟩

theorem Stands.error {err : ErrCode} (heval : eval env.floats rt expr none = some (.error err)) :
    Comes env uenv w ctx q' s rt n m (.error err) := by
  obtain ⟨m', m'', hrun, hstep, henv⟩ : Does env m q s (cost expr) (.error err) :=
    h.does hat htexts hnext hticks heval
  exact ⟨m', m'', hrun.with_exits, hstep, henv.trans h.rtEnv⟩

end Expressions

/-! ## Instructions -/

theorem putVar_of_setVar {slot : Nat} (hrt : m.top.rtEnv = rt)
    (hset : setVar slot v rt = some rt') : m.putVar slot v = some (m.withEnv rt') := by
  rw [setVar] at hset
  split at hset
  · next hlt =>
    cases hset
    subst hrt
    exact Machine.putVar_eq hlt v
  · cases hset

theorem Framed.withEnv (h : Framed m m' q s k) (rt : List Var) :
    Framed (m.withEnv rt) (m'.withEnv rt) q s k := { h with rtEnv := rfl }

theorem Ready.withEnv (hm : Ready prog bc p m) (rt : List Var) : Ready prog bc p (m.withEnv rt) :=
  ⟨⟨hm.code, hm.bc, hm.pc⟩, hm.debug, hm.timedOut⟩

/-- A variable is given the value on top of the stack, which is popped. -/
theorem Stands.put {slot : Nat} (h : Stands prog bc p rt (v :: s) m) (env : RunEnv D)
    (uenv : Env D) (w : World)
    (hput : PutAt bc slot p q) (hpop : bc.OpAt q .OP_POP)
    (hset : setVar slot v rt = some rt') (hticks : 2 < m.ticksRemaining) :
    ∃ m' k, k ≤ 2 ∧ Passed env uenv w m m' (q + 1) s rt' k := by
  rcases hput with ⟨hlt, hop, rfl⟩ | ⟨-, hop, hvar, rfl⟩
  · obtain ⟨k, m₁, hk, hstep, hframe⟩ := step_any env hop trivial h.toReady (by omega)
    rw [h.rtStack] at hframe
    obtain ⟨m₂, hpopped, hframe₂⟩ := hframe.pop
    have hbc : m₁.top.bc = bc := hframe.bc.trans h.bc
    have hnext : m₁.top.bc.vector[m₁.top.pc]? = some Opcode.OP_POP.toByte := by
      rw [hbc, hframe.pc]
      exact hpop
    have hskip := hframe₂.jump (m₂.top.pc + 1)
    rw [hframe₂.pc] at hskip
    have hvalue : m₁.runOpcode env (.OP_PUT ⟨slot, hlt⟩) = next ((m₂.skipBytes 1).withEnv rt') := by
      rw [Machine.runOpcode, Machine.opPut, hpopped]
      simp only [Option.bind_eq_bind, Option.bind_some]
      rw [if_pos hnext, putVar_of_setVar (m := m₂.skipBytes 1) (hframe₂.rtEnv.trans h.rtEnv) hset]
      rfl
    rw [← hframe₂.pc] at hskip
    exact ⟨_, k, by omega, hframe₂.pc ▸ hskip.withEnv rt', .single (.opcode (hstep.trans hvalue))⟩
  · obtain ⟨k, m₁, hk, hstep, hframe⟩ := step_any env hop trivial h.toReady (by omega)
    rw [h.rtStack] at hframe
    have hread : m₁.readBytes m₁.top.bc.numbytesVarName = _ := hframe.operand h.toReady hvar
    have hjump := hframe.jump (p + 1 + bc.width .varRef)
    have hvalue : m₁.runOpcode env .OP_G_PUT =
        next ((m₁.jump (p + 1 + bc.width .varRef)).withEnv rt') := by
      rw [Machine.runOpcode, Machine.opGPut, hread]
      simp only [Option.bind_eq_bind, Option.bind_some, hjump.rtStack, List.head?_cons]
      rw [putVar_of_setVar (hjump.rtEnv.trans h.rtEnv) hset]
      rfl
    have hpassed : Passed env uenv w m _ _ (v :: s) rt' k :=
      ⟨hjump.withEnv rt', .single (.opcode (hstep.trans hvalue))⟩
    have hstands := hpassed.stands h.toReady
    have hleft := hpassed.ticksLeft
    obtain ⟨k₂, m₂, hk₂, hstep₂, hframe₂⟩ := step_any env hpop trivial hstands.toReady (by omega)
    rw [hstands.rtStack] at hframe₂
    obtain ⟨m₃, hpopped, hframe₃⟩ := hframe₂.pop
    have hnext : m₂.runOpcode env .OP_POP = next m₃ := by
      rw [Machine.runOpcode, hpopped]
      rfl
    have hwent : Went env _ m₃ _ s k₂ := ⟨hframe₃, .single (.opcode (hstep₂.trans hnext))⟩
    exact ⟨m₃, k + k₂, by omega, hpassed.trans (hwent.passed hstands.rtEnv)⟩

theorem Stands.test {op : Opcode} (h : Stands prog bc p rt (v :: s) m) (env : RunEnv D)
    (uenv : Env D) (w : World) (hop : bc.OpAt p op)
    (henc : op.Encodable)
    (hrun : ∀ m : Machine D, m.runOpcode env op = m.doTest) (hlab : bc.OperandAt .label (p + 1) lab)
    (hticks : 1 < m.ticksRemaining) :
    ∃ m' k, k ≤ 1 ∧ Passed env uenv w m m' (if isTrue v then p + 1 + bc.numbytesLabel
      else lab) s rt k := by
  obtain ⟨k, m₁, hk, hstep, hframe⟩ := step_any env hop henc h.toReady hticks
  rw [h.rtStack] at hframe
  obtain ⟨m', htest, hframe'⟩ := hframe.test h.toReady hlab
  have hwent : Went env m m' _ s k :=
    ⟨hframe', .single (.opcode (hstep.trans ((hrun m₁).trans htest)))⟩
  exact ⟨m', k, hk, hwent.passed h.rtEnv⟩

/-- The condition of a `while` is tested, and its variable is given the value. -/
theorem Stands.while {id : Option Nat} (h : Stands prog bc p rt (v :: s) m) (env : RunEnv D)
    (uenv : Env D) (w : World)
    (hat : whileAt bc id p q) (hlab : bc.OperandAt .label q lab)
    (hset : setName id v rt = some rt') (hticks : 1 < m.ticksRemaining) :
    ∃ m' k, k ≤ 1 ∧ Passed env uenv w m m' (if isTrue v then q + bc.numbytesLabel
      else lab) s rt' k := by
  cases id with
  | none =>
    obtain ⟨hop, rfl⟩ := hat
    cases hset
    exact h.test env uenv w hop trivial (fun _ => rfl) hlab hticks
  | some slot =>
    obtain ⟨hop, hvar, rfl⟩ := hat
    obtain ⟨k, m₁, hk, hstep, hframe⟩ := step_extended env hop h.toReady
    rw [h.rtStack] at hframe
    have hread : m₁.readBytes m₁.top.bc.numbytesVarName = _ := hframe.operand h.toReady hvar
    have hjump := hframe.jump (p + 2 + bc.width .varRef)
    have hwhile : m₁.runExtended env .EOP_WHILE_ID =
        ((m₁.jump (p + 2 + bc.width .varRef)).withEnv rt').doTest := by
      rw [Machine.runExtended, Machine.eopWhileId, hread]
      simp only [Option.bind_eq_bind, Option.bind_some, hjump.rtStack, List.head?_cons]
      rw [putVar_of_setVar (hjump.rtEnv.trans h.rtEnv) hset]
      rfl
    obtain ⟨m', htest, hframe'⟩ := (hjump.withEnv rt').test (h.toReady.withEnv rt') hlab
    exact ⟨m', k, hk, hframe', .single (.opcode (hstep.trans (hwhile.trans htest)))⟩

theorem Stands.jump (h : Stands prog bc p rt s m) (env : RunEnv D) (uenv : Env D) (w : World)
    (hop : bc.OpAt p .OP_JUMP)
    (hlab : bc.OperandAt .label (p + 1) lab) (hticks : 1 < m.ticksRemaining) :
    ∃ m' k, k ≤ 1 ∧ Passed env uenv w m m' lab s rt k := by
  obtain ⟨m', k, hk, hwent⟩ := went_jump env hop hlab h.toReady hticks
  rw [h.rtStack] at hwent
  exact ⟨m', k, hk, hwent.passed h.rtEnv⟩

/-- `unwind_stack` pops the stack to the height of the exit. -/
theorem Framed.exit (h : Framed m m₁ q s k) (hk : k ≤ 1) (hm : Stands prog bc p rt s m)
    (hstep : m.step env = m₁.eopExit) (hs : Clear s)
    (hheight : height ≤ s.length) (hwidth : bc.numbytesLabel ≤ 4)
    (hstack : bc.OperandAt .stack q height)
    (hlab : bc.OperandAt .label (q + bc.numbytesStack) lab) :
    Leads env uenv w m lab height s rt 1 := by
  have hread : m₁.readBytes m₁.top.bc.numbytesStack = _ := h.operand hm.toReady hstack
  have hjump := h.jump (q + bc.width .stack)
  have hread' : (m₁.jump (q + bc.width .stack)).readBytes (m₁.jump
    (q + bc.width .stack)).top.bc.numbytesLabel = _ :=
    hjump.operand hm.toReady hlab
  obtain ⟨m₃, hexit, hframe⟩ :
      ∃ m₃, m₁.eopExit = some ⟨none, .unwind .FIN_EXIT (.list [.int height, .int lab]) m₃⟩ ∧
      Framed m m₃ (q + bc.width .stack + bc.width .label) s k := by
    refine ⟨_, ?_, hjump.jump _⟩
    rw [Machine.eopExit, hread]
    simp only [Option.bind_eq_bind, Option.bind_some, hread']
    rfl
  obtain ⟨s', hpop, hsuffix, hlength⟩ : ∃ s', popStack w .FIN_EXIT (.int 0) height 0 s =
      some (.goal s') ∧ s' <:+ s ∧ s'.length = height :=
    popStack_clear hs hheight
  have htarget : exitTarget .FIN_EXIT (.list [.int height, .int lab]) = some (height, lab) := by
    simp [exitTarget, toPc_label hwidth hlab]
  have hturn : unwindTurn uenv .FIN_EXIT (.list [.int height, .int lab])
      (.int 0) height lab w m₃.top.toActivation
      (m₃.rest.map RunActiv.toActivation) =
        some (some (.exit ⟨w, { m₃.top.toActivation with pc := lab, rtStack := s' },
        m₃.rest.map RunActiv.toActivation⟩)) := by
    unfold unwindTurn
    rw [hframe.rtStack, hpop]
    rfl
  have hunwind : unwind uenv .FIN_EXIT (.list [.int height, .int lab]) ⟨w, m₃.top.toActivation,
    m₃.rest.map RunActiv.toActivation⟩
      = some (.exit ⟨w, { m₃.top.toActivation with pc := lab, rtStack := s' },
        m₃.rest.map RunActiv.toActivation⟩) := by
    rw [unwind, htarget]
    exact unwindLoop_of_turn hturn
  obtain rfl := hm.rtEnv
  exact ⟨s', m₃.setTop fun a => { a with pc := lab, rtStack := s' }, k, hsuffix, hlength, hk,
    { hframe with pc := rfl, rtStack := rfl },
    .single (.unwound (hstep.trans hexit) ⟨_, hunwind, rfl⟩)⟩

theorem Stands.exit {exit : Option Nat} (h : Stands prog bc p rt s m) (hat : exitAt bc exit p q)
    (hs : Clear s) (hheight : height ≤ s.length)
    (hwidth : bc.numbytesLabel ≤ 4) (hstack : bc.OperandAt .stack q height)
    (hlab : bc.OperandAt .label (q + bc.numbytesStack) lab) :
    Leads env uenv w m lab height s rt 1 := by
  cases exit with
  | none =>
    obtain ⟨hop, rfl⟩ := hat
    obtain ⟨k, m₁, hk, hstep, hframe⟩ := step_extended env hop h.toReady
    rw [h.rtStack] at hframe
    exact hframe.exit hk h hstep hs hheight hwidth hstack hlab
  | some slot =>
    obtain ⟨hop, -, rfl⟩ := hat
    obtain ⟨k, m₁, hk, hstep, hframe⟩ := step_extended env hop h.toReady
    rw [h.rtStack] at hframe
    have hskip := hframe.jump (p + 2 + bc.numbytesVarName)
    have hexit : m₁.runExtended env .EOP_EXIT_ID =
        (m₁.jump (p + 2 + bc.numbytesVarName)).eopExit := by
      rw [Machine.runExtended, Machine.skipBytes, hframe.pc, hframe.bc, h.bc]
    exact hskip.exit hk h (hstep.trans hexit) hs hheight hwidth hstack hlab

section Lists

variable {id : Nat} {l : List Var} {i : Int}

theorem element_le (h : element l i = some v) : i ≤ l.length := by
  rw [element] at h
  split at h
  · have hlt := (List.getElem?_eq_some_iff.mp h).1
    omega
  · cases h

/-- `OP_FOR_LIST` reads its variable and its label. -/
theorem Stands.readsFor (h : Stands prog bc p rt s m) (env : RunEnv D)
    (hop : bc.OpAt p .OP_FOR_LIST) (hvar : bc.OperandAt .varRef (p + 1) id)
    (hlab : bc.OperandAt .label (p + 1 + bc.numbytesVarName) lab) (hticks : 1 < m.ticksRemaining) :
    ∃ (k : Nat) (m₁ m₂ m₃ : Machine D), k ≤ 1 ∧ m.step env = m₁.opForList ∧
      m₁.readBytes m₁.top.bc.numbytesVarName = some (id, m₂) ∧
      m₂.readBytes m₂.top.bc.numbytesLabel = some (lab, m₃) ∧
      Framed m m₃ (p + 1 + bc.numbytesVarName + bc.numbytesLabel) s k := by
  obtain ⟨k, m₁, hk, hstep, hframe⟩ := step_any env hop trivial h.toReady hticks
  rw [h.rtStack] at hframe
  have hjump := hframe.jump (p + 1 + bc.width .varRef)
  exact ⟨k, m₁, _, _, hk, hstep, hframe.operand h.toReady hvar,
    hjump.operand h.toReady hlab, hjump.jump _⟩

/-- The next element of the list is the value of the variable. -/
theorem Stands.forList (h : Stands prog bc p rt (.int i :: .list l :: s) m) (env : RunEnv D)
    (uenv : Env D) (w : World)
    (hop : bc.OpAt p .OP_FOR_LIST)
    (hvar : bc.OperandAt .varRef (p + 1) id)
    (hlab : bc.OperandAt .label (p + 1 + bc.numbytesVarName) lab) (helem : element l i = some v)
    (hset : setVar id v rt = some rt') (hticks : 1 < m.ticksRemaining) :
    ∃ m' k, k ≤ 1 ∧ Passed env uenv w m m' (p + 1 + bc.numbytesVarName + bc.numbytesLabel)
    (.int (i + 1) :: .list l :: s) rt' k := by
  obtain ⟨k, m₁, m₂, m₃, hk, hstep, hread, hread', hframe⟩ := h.readsFor env hop hvar hlab hticks
  have hle : ¬ i > l.length := Int.not_lt.mpr (element_le helem)
  have hturn : m₁.opForList = next ((m₃.withEnv rt').setTop fun a =>
    { a with rtStack := .int (i + 1) :: .list l :: s }) := by
    rw [Machine.opForList, hread]
    simp only [Option.bind_eq_bind, Option.bind_some, hread', hframe.rtStack, if_neg hle, helem]
    rw [putVar_of_setVar (hframe.rtEnv.trans h.rtEnv) hset]
    rfl
  refine ⟨_, k, hk, ?_, .single (.opcode (hstep.trans hturn))⟩
  exact { hframe.withEnv rt' with rtStack := rfl }

/-- There are no more elements. -/
theorem Stands.forListEnd (h : Stands prog bc p rt (.int i :: .list l :: s) m) (env : RunEnv D)
    (uenv : Env D) (w : World)
    (hop : bc.OpAt p .OP_FOR_LIST)
    (hvar : bc.OperandAt .varRef (p + 1) id)
    (hlab : bc.OperandAt .label (p + 1 + bc.numbytesVarName) lab) (hgt : i > l.length)
    (hticks : 1 < m.ticksRemaining) : ∃ m' k, k ≤ 1 ∧ Passed env uenv w m m' lab s rt k := by
  obtain ⟨k, m₁, m₂, m₃, hk, hstep, hread, hread', hframe⟩ := h.readsFor env hop hvar hlab hticks
  obtain ⟨m₄, hpop, hframe₄⟩ := hframe.pop
  obtain ⟨m₅, hpop', hframe₅⟩ := hframe₄.pop
  have hleave : m₁.opForList = next (m₅.jump lab) := by
    rw [Machine.opForList, hread]
    simp only [Option.bind_eq_bind, Option.bind_some, hread', hframe.rtStack, if_pos hgt]
    rw [Machine.leaveLoop, hpop]
    simp only [Option.bind_eq_bind, Option.bind_some, hpop']
  have hwent : Went env m _ lab s k := ⟨hframe₅.jump lab, .single (.opcode (hstep.trans hleave))⟩
  exact ⟨_, k, hk, hwent.passed h.rtEnv⟩

/-- A loop over what is no list. -/
theorem Stands.forListType (h : Stands prog bc p rt (.int i :: v :: s) m) (env : RunEnv D)
    (uenv : Env D) (w : World)
    (hop : bc.OpAt p .OP_FOR_LIST) (hvar : bc.OperandAt .varRef (p + 1) id)
    (hlab : bc.OperandAt .label (p + 1 + bc.numbytesVarName) lab)
    (hne : ∀ l, v ≠ .list l) (hticks : 1 < m.ticksRemaining) :
    Comes env uenv w ctx q s' rt n m (.error .E_TYPE) := by
  obtain ⟨k, m₁, m₂, m₃, hk, hstep, hread, hread', hframe⟩ := h.readsFor env hop hvar hlab hticks
  have hraise : m₁.opForList = some ⟨some .E_TYPE, .raise .E_TYPE m₃⟩ := by
    rw [Machine.opForList, hread]
    simp only [Option.bind_eq_bind, Option.bind_some, hread', hframe.rtStack]
    cases v with
    | list l => exact absurd rfl (hne l)
    | _ => exact if_pos (hframe.debug.trans h.debug)
  exact ⟨m, _, .refl, hstep.trans hraise, hframe.rtEnv.trans h.rtEnv⟩

theorem Stands.push {op : Opcode} (h : Stands prog bc p rt s m) (env : RunEnv D) (uenv : Env D)
    (w : World) (hop : bc.OpAt p op)
    (henc : op.Encodable)
    (hrun : ∀ m : Machine D, m.runOpcode env op = next (m.push v)) (hticks : 1 < m.ticksRemaining) :
    ∃ m' k, k ≤ 1 ∧ Passed env uenv w m m' (p + 1) (v :: s) rt k := by
  obtain ⟨m', k, hk, hwent⟩ : Does env m (p + 1) m.top.rtStack 1 (.ok v) :=
    does_push hop henc hrun h.toReady hticks
  rw [h.rtStack] at hwent
  exact ⟨m', k, hk, hwent.passed h.rtEnv⟩

end Lists

/-! ## Loops -/

/-- The stack heights of the loops are not above that of the code. -/
def Bounded (ctx : List LoopCtx) (d : Nat) : Prop := ∀ c ∈ ctx, c.topStack ≤ d ∧ c.bottomStack ≤ d

theorem mem_of_exitLoopCtx {exit : Option Nat} (h : exitLoopCtx exit ctx = some c) : c ∈ ctx := by
  cases exit with
  | none => exact List.mem_of_head? h
  | some exit => exact List.mem_of_find?_eq_some h

theorem exitLoopCtx_here {exit : Option Nat} (h : exit = none ∨ exit = c.id) :
    exitLoopCtx exit (c :: ctx) = some c := by
  cases exit with
  | none => rfl
  | some exit =>
    have hid : c.id = some exit := (h.resolve_left (Option.some_ne_none exit)).symm
    rw [exitLoopCtx]
    exact List.find?_cons_of_pos (by simpa using hid)

theorem exitLoopCtx_outer {exit : Option Nat} (h : ¬ (exit = none ∨ exit = c.id)) :
    exitLoopCtx exit (c :: ctx) = exitLoopCtx exit ctx := by
  cases exit with
  | none => exact absurd (.inl rfl) h
  | some exit =>
    have hid : c.id ≠ some exit := fun hid => h (.inr hid.symm)
    rw [exitLoopCtx, exitLoopCtx]
    exact List.find?_cons_of_neg (by simpa using hid)

/-- What leads to a height of the stack below leads there from that stack. -/
theorem Leads.below (h : Leads env uenv w m q height s' rt n) (hs : s <:+ s')
    (hheight : height ≤ s.length) :
    Leads env uenv w m q height s rt n := by
  obtain ⟨t, m', k, ht, rfl, hk, hpassed⟩ := h
  exact ⟨t, m', k, List.suffix_of_suffix_length_le ht hs hheight, rfl, hk, hpassed⟩

theorem Leads.arrives (h : Leads env uenv w m q s.length s rt n) :
    ∃ m' k, k ≤ n ∧ Passed env uenv w m m' q s rt k := by
  obtain ⟨t, m', k, ht, hlen, hk, hpassed⟩ := h
  obtain rfl := ht.eq_of_length hlen
  exact ⟨m', k, hk, hpassed⟩

/-- A body after which the next turn follows comes to the top of the loop. -/
theorem Comes.again (h : Comes env uenv w (c :: ctx) p s rt n m e)
    (hafter : afterBody c.id e = none) (hm : Ready prog bc q m)
    (htop : c.topStack = s.length) (hop : bc.OpAt p .OP_JUMP)
    (hlab : bc.OperandAt .label (p + 1) c.top)
    (hticks : (n + 1 : Int) < m.ticksRemaining) :
    ∃ m' k, k ≤ n + 1 ∧ Passed env uenv w m m' c.top s rt k := by
  cases e with
  | normal =>
    obtain ⟨m₁, k₁, hk₁, h₁⟩ := h
    have hleft := h₁.ticksLeft
    obtain ⟨m₂, k₂, hk₂, h₂⟩ := (h₁.stands hm).jump env uenv w hop hlab (by omega)
    exact ⟨m₂, k₁ + k₂, by omega, h₁.trans h₂⟩
  | continue_ exit =>
    rw [afterBody] at hafter
    split at hafter
    · next hhere =>
      obtain ⟨c', hc', hl⟩ := h
      cases (exitLoopCtx_here hhere).symm.trans hc'
      obtain ⟨m', k, hk, hpassed⟩ := (htop ▸ hl).arrives
      exact ⟨m', k, Nat.le_succ_of_le hk, hpassed⟩
    · cases hafter
  | break_ exit =>
    rw [afterBody] at hafter
    split at hafter <;> cases hafter
  | _ => cases hafter

/-- A body after which the loop ends comes to where the loop comes. -/
theorem Comes.left {e' : StmtEnd} (h : Comes env uenv w (c :: ctx) p s' rt n m e)
    (hafter : afterBody c.id e = some e') (hs : s <:+ s')
    (hbottom : c.bottomStack = s.length) (hctx : Bounded ctx s.length) :
    Comes env uenv w ctx c.bottom s rt n m e' := by
  cases e with
  | normal => cases hafter
  | value v =>
    cases hafter
    exact h
  | error err =>
    cases hafter
    exact h
  | break_ exit =>
    obtain ⟨c', hc', hl⟩ := h
    rw [afterBody] at hafter
    split at hafter
    · next hhere =>
      cases hafter
      cases (exitLoopCtx_here hhere).symm.trans hc'
      exact ((hbottom ▸ hl : Leads env uenv w m c.bottom s.length s' rt n).below hs
        (Nat.le_refl _)).arrives
    · next houter =>
      cases hafter
      rw [exitLoopCtx_outer houter] at hc'
      exact ⟨c', hc', hl.below hs (hctx c' (mem_of_exitLoopCtx hc')).2⟩
  | continue_ exit =>
    obtain ⟨c', hc', hl⟩ := h
    rw [afterBody] at hafter
    split at hafter
    · cases hafter
    · next houter =>
      cases hafter
      rw [exitLoopCtx_outer houter] at hc'
      exact ⟨c', hc', hl.below hs (hctx c' (mem_of_exitLoopCtx hc')).1⟩

/-! ## First instructions -/

theorem not_pop_putAt {slot : Nat} (hat : PutAt bc slot p q) : ¬ bc.OpAt p .OP_POP := by
  rcases hat with ⟨_, hop, -⟩ | ⟨-, hop, -⟩
  · exact not_pop hop trivial Opcode.noConfusion
  · exact not_pop hop trivial Opcode.noConfusion

theorem not_pop_whileAt {id : Option Nat} (hat : whileAt bc id p q) : ¬ bc.OpAt p .OP_POP := by
  cases id with
  | none => exact not_pop hat.1 trivial Opcode.noConfusion
  | some slot => exact not_pop hat.1.1 trivial Opcode.noConfusion

theorem isTest_if (env : RunEnv D) {op : Opcode} (h : op = .OP_IF ∨ op = .OP_EIF) :
    op.Encodable ∧ op ≠ .OP_POP ∧ ∀ m : Machine D, m.runOpcode env op = m.doTest := by
  rcases h with rfl | rfl
  · exact ⟨trivial, Opcode.noConfusion, fun _ => rfl⟩
  · exact ⟨trivial, Opcode.noConfusion, fun _ => rfl⟩

/-! ## The code of statements -/

/-- The code of a fragment. -/
def FragmentAt (prog : Program) (bc : Bytecodes) (ctx : List LoopCtx) (d : Nat) :
    Fragment → Nat → Nat → Prop
  | .stmt stmt, p, q => StmtAt prog stmt bc ctx d p q
  | .stmts stmts, p, q => StmtsAt prog stmts bc ctx d p q
  | .arms arms otherwise, p, q => ∃ op t, (op = .OP_IF ∨ op = .OP_EIF) ∧
  ArmsAt prog arms bc ctx d op q p t ∧ StmtsAt prog otherwise bc ctx d t q
  | .turns id _ _ body, p, q => ∃ t, bc.OpAt p .OP_FOR_LIST ∧ bc.OperandAt .varRef (p + 1) id ∧
    bc.OperandAt .label (p + 1 + bc.numbytesVarName) q ∧
    StmtsAt prog body bc (⟨some id, p, d + 2, q, d⟩ :: ctx) (d + 2)
    (p + 1 + bc.numbytesVarName + bc.numbytesLabel) t ∧
    bc.OpAt t .OP_JUMP ∧ bc.OperandAt .label (t + 1) p ∧ q = t + 1 + bc.numbytesLabel

/-- A loop over a list keeps the list and the index on the stack. -/
def stackOf : Fragment → List Var → List Var
  | .turns _ l i _, s => .int i :: .list l :: s
  | _, s => s

theorem Clear.turns {l : List Var} {i : Int} (hs : Clear s) : Clear (.int i :: .list l :: s) := by
  intro v hv
  rcases List.mem_cons.mp hv with rfl | hv
  · exact ⟨fun _ => Var.noConfusion, fun _ => Var.noConfusion⟩
  · rcases List.mem_cons.mp hv with rfl | hv
    · exact ⟨fun _ => Var.noConfusion, fun _ => Var.noConfusion⟩
    · exact hs v hv

theorem Bounded.loop {d d' : Nat} (hctx : Bounded ctx d) (hle : d ≤ d')
    (hc : c.topStack ≤ d' ∧ c.bottomStack ≤ d') :
    Bounded (c :: ctx) d' := by
  intro c' hc'
  rcases List.mem_cons.mp hc' with rfl | hc'
  · exact hc
  · obtain ⟨htop, hbottom⟩ := hctx c' hc'
    exact ⟨Nat.le_trans htop hle, Nat.le_trans hbottom hle⟩

/-- The code of a fragment does what the fragment stands for, by induction on its run. -/
theorem runs_correct {fragment : Fragment} (h : Runs env.floats fragment rt n rt' e)
    (htexts : CStrings prog) (hwidth : bc.numbytesLabel ≤ 4)
    (hat : FragmentAt prog bc ctx s.length fragment p q)
    (hm : Stands prog bc p rt (stackOf fragment s) m) (hs : Clear s)
    (hctx : Bounded ctx s.length) (hticks : (n + 1 : Int) < m.ticksRemaining) :
    Comes env uenv w ctx q s rt' n m e := by
  -- by induction on the run: each part runs at the place where its code stands
  induction h generalizing ctx p q s m with
  | nil =>
    obtain rfl : q = p := hat
    exact ⟨m, 0, Nat.le_refl _, (Went.refl hm.pc hm.rtStack).passed hm.rtEnv⟩
  | next hstmt hnext ih ih' =>
    obtain ⟨t, hat, hat'⟩ := hat
    obtain ⟨m₁, k₁, hk₁, h₁⟩ := ih hat hm hs hctx (by omega)
    have hleft := h₁.ticksLeft
    exact (ih' hat' (h₁.stands hm.toReady) hs hctx (by omega)).after h₁ (by omega)
  | @stop stmt next rt rt' n e hstmt hne ih =>
    obtain ⟨t, hat, hat'⟩ := hat
    have hc := ih hat hm hs hctx hticks
    cases e with
    | normal => exact absurd rfl hne
    | _ => exact hc
  | @assign slot expr rt rt' v heval hset =>
    obtain ⟨t, ⟨t₁, t₂, t₃, ht₁, hexpr, ht₃, ⟨t₄, hput, ht₄⟩⟩, hpop, rfl⟩ := hat
    cases ht₁
    cases ht₃
    cases ht₄
    obtain ⟨m₁, k₁, hk₁, h₁⟩ := hm.value hexpr htexts (not_pop_putAt hput) (by omega) uenv w heval
    have hleft := h₁.ticksLeft
    obtain ⟨m₂, k₂, hk₂, h₂⟩ := (h₁.stands hm.toReady).put env uenv w hput hpop hset (by omega)
    exact ⟨m₂, k₁ + k₂, by omega, h₁.trans h₂⟩
  | assignError heval =>
    obtain ⟨t, ⟨t₁, t₂, t₃, ht₁, hexpr, ht₃, ⟨t₄, hput, ht₄⟩⟩, hpop, rfl⟩ := hat
    cases ht₁
    cases ht₃
    exact hm.error hexpr htexts (not_pop_putAt hput) (by omega) heval
  | returnValue heval =>
    obtain ⟨t, hexpr, hop, rfl⟩ := hat
    obtain ⟨m₁, k₁, hk₁, h₁⟩ :=
      hm.value hexpr htexts (not_pop hop trivial Opcode.noConfusion) (by omega) uenv w heval
    have hstands := h₁.stands hm.toReady
    have hstep : m₁.step env = m₁.fetched.opReturn :=
      Machine.step_op hop trivial (by decide) hstands.bc hstands.pc
    have hpop := Machine.pop_eq (m := m₁.fetched) hstands.rtStack
    rw [Machine.opReturn, hpop] at hstep
    exact ⟨m₁, _, h₁.run, hstep, hstands.rtEnv⟩
  | returnError heval =>
    obtain ⟨t, hexpr, hop, rfl⟩ := hat
    exact hm.error hexpr htexts (not_pop hop trivial Opcode.noConfusion) (by omega) heval
  | returnZero =>
    obtain ⟨hop, rfl⟩ := hat
    have hstep : m.step env = some ⟨none, .unwind .FIN_RETURN (.int 0) m.fetched⟩ :=
      Machine.step_op hop trivial (by decide) hm.bc hm.pc
    exact ⟨m, _, .refl, hstep, hm.rtEnv⟩
  | break_ =>
    -- the loop that is named is one of those around it, and its heights are in bounds
    obtain ⟨c, t, hc, hop, hstack, hlab, rfl⟩ := hat
    exact ⟨c, hc, hm.exit hop hs (hctx c (mem_of_exitLoopCtx hc)).2 hwidth hstack hlab⟩
  | continue_ =>
    obtain ⟨c, t, hc, hop, hstack, hlab, rfl⟩ := hat
    exact ⟨c, hc, hm.exit hop hs (hctx c (mem_of_exitLoopCtx hc)).1 hwidth hstack hlab⟩
  | cond harms ih =>
    obtain ⟨t, harms, hotherwise⟩ := hat
    exact ih ⟨_, t, .inl rfl, harms, hotherwise⟩ hm hs hctx hticks
  | otherwise hstmts ih =>
    obtain ⟨op, t, -, ht, hat⟩ := hat
    cases ht
    exact ih hat hm hs hctx hticks
  | @armTrue condition stmt next otherwise rt rt' v n e heval hv hstmt ih =>
    obtain ⟨op, t, hop, ⟨t₁, t₂, t₃, hcondition, hif, hlab, hbody, hjump, hend, ht₃, -⟩, -⟩ := hat
    obtain ⟨henc, hpop, hrun⟩ := isTest_if env hop
    obtain ⟨m₁, k₁, hk₁, h₁⟩ :=
      hm.value hcondition htexts (not_pop hif henc hpop) (by omega) uenv w heval
    have hleft := h₁.ticksLeft
    obtain ⟨m₂, k₂, hk₂, h₂⟩ := (h₁.stands hm.toReady).test env uenv w hif henc hrun hlab (by omega)
    rw [if_pos hv] at h₂
    have h₁₂ := h₁.trans h₂
    have hleft₂ := h₁₂.ticksLeft
    have hc := ih hbody (h₁₂.stands hm.toReady) hs hctx (by omega)
    cases e with
    | normal =>
      obtain ⟨m₃, k₃, hk₃, h₃⟩ := hc
      have h₁₃ := h₁₂.trans h₃
      have hleft₃ := h₁₃.ticksLeft
      obtain ⟨m₄, k₄, hk₄, h₄⟩ := (h₁₃.stands hm.toReady).jump env uenv w hjump hend (by omega)
      exact ⟨m₄, _, by omega, h₁₃.trans h₄⟩
    | _ => exact (hc.elsewhere StmtEnd.noConfusion).after h₁₂ (by omega)
  | @armFalse condition stmt next otherwise rt rt' v n e heval hv hnext ih =>
    obtain ⟨op, t, hop, ⟨t₁, t₂, t₃, hcondition, hif, hlab, hbody, hjump, hend, rfl, harms⟩,
      hotherwise⟩ := hat
    obtain ⟨henc, hpop, hrun⟩ := isTest_if env hop
    obtain ⟨m₁, k₁, hk₁, h₁⟩ :=
      hm.value hcondition htexts (not_pop hif henc hpop) (by omega) uenv w heval
    have hleft := h₁.ticksLeft
    obtain ⟨m₂, k₂, hk₂, h₂⟩ := (h₁.stands hm.toReady).test env uenv w hif henc hrun hlab (by omega)
    rw [hv] at h₂
    have h₁₂ := h₁.trans h₂
    have hleft₂ := h₁₂.ticksLeft
    exact (ih ⟨_, t, .inr rfl, harms, hotherwise⟩ (h₁₂.stands hm.toReady) hs hctx (by omega)).after
      h₁₂ (by omega)
  | armError heval =>
    obtain ⟨op, t, hop, ⟨t₁, t₂, t₃, hcondition, hif, -⟩, -⟩ := hat
    obtain ⟨henc, hpop, hrun⟩ := isTest_if env hop
    exact hm.error hcondition htexts (not_pop hif henc hpop) (by omega) heval
  | @whileTurn id condition body rt rt₁ rt₂ rt' v n n' e e' heval hv hset hbody
      hafter hloop ih ih' =>
    have hloopAt := hat
    obtain ⟨t₁, t₂, t₃, hcondition, hwhile, hlab, hcode, hjump, hback, rfl⟩ := hloopAt
    obtain ⟨m₁, k₁, hk₁, h₁⟩ :=
      hm.value hcondition htexts (not_pop_whileAt hwhile) (by omega) uenv w heval
    have hleft := h₁.ticksLeft
    obtain ⟨m₂, k₂, hk₂, h₂⟩ := (h₁.stands hm.toReady).while env uenv w hwhile hlab hset (by omega)
    rw [if_pos hv] at h₂
    have h₁₂ := h₁.trans h₂
    have hleft₂ := h₁₂.ticksLeft
    have hready := h₁₂.stands hm.toReady
    have hc :=
      ih hcode hready hs (hctx.loop (Nat.le_refl _) ⟨Nat.le_refl _, Nat.le_refl _⟩) (by omega)
    obtain ⟨m₃, k₃, hk₃, h₃⟩ := hc.again hafter hready.toReady rfl hjump hback (by omega)
    have h₁₃ := h₁₂.trans h₃
    have hleft₃ := h₁₃.ticksLeft
    exact (ih' hat (h₁₃.stands hm.toReady) hs hctx (by omega)).after h₁₃ (by omega)
  | @whileLeft id condition body rt rt₁ rt' v n e e' heval hv hset hbody hafter ih =>
    obtain ⟨t₁, t₂, t₃, hcondition, hwhile, hlab, hcode, hjump, hback, rfl⟩ := hat
    obtain ⟨m₁, k₁, hk₁, h₁⟩ :=
      hm.value hcondition htexts (not_pop_whileAt hwhile) (by omega) uenv w heval
    have hleft := h₁.ticksLeft
    obtain ⟨m₂, k₂, hk₂, h₂⟩ := (h₁.stands hm.toReady).while env uenv w hwhile hlab hset (by omega)
    rw [if_pos hv] at h₂
    have h₁₂ := h₁.trans h₂
    have hleft₂ := h₁₂.ticksLeft
    have hc := ih hcode (h₁₂.stands hm.toReady) hs
      (hctx.loop (Nat.le_refl _) ⟨Nat.le_refl _, Nat.le_refl _⟩) (by omega)
    exact (hc.left hafter List.suffix_rfl rfl hctx).after h₁₂ (by omega)
  | whileEnd heval hv hset =>
    obtain ⟨t₁, t₂, t₃, hcondition, hwhile, hlab, hcode, hjump, hback, rfl⟩ := hat
    obtain ⟨m₁, k₁, hk₁, h₁⟩ :=
      hm.value hcondition htexts (not_pop_whileAt hwhile) (by omega) uenv w heval
    have hleft := h₁.ticksLeft
    obtain ⟨m₂, k₂, hk₂, h₂⟩ := (h₁.stands hm.toReady).while env uenv w hwhile hlab hset (by omega)
    rw [hv] at h₂
    exact ⟨m₂, k₁ + k₂, by omega, h₁.trans h₂⟩
  | whileError heval =>
    obtain ⟨t₁, t₂, t₃, hcondition, hwhile, -⟩ := hat
    exact hm.error hcondition htexts (not_pop_whileAt hwhile) (by omega) heval
  | list heval hturns ih =>
    obtain ⟨t₁, t, hexpr, hone, -, hop, hvar, hlab, hbody, hjump, hback, rfl⟩ := hat
    obtain ⟨m₁, k₁, hk₁, h₁⟩ :=
      hm.value hexpr htexts (not_pop hone (by rfl) Opcode.noConfusion) (by omega) uenv w heval
    have hleft := h₁.ticksLeft
    obtain ⟨m₂, k₂, hk₂, h₂⟩ :=
      (h₁.stands hm.toReady).push env uenv w hone (by rfl) (fun _ => rfl) (by omega)
    have h₁₂ := h₁.trans h₂
    have hleft₂ := h₁₂.ticksLeft
    exact (ih ⟨t, hop, hvar, hlab, hbody, hjump, hback, rfl⟩ (h₁₂.stands hm.toReady) hs hctx
      (by omega)).after h₁₂ (by omega)
  | listError heval =>
    obtain ⟨t₁, t, hexpr, hone, -⟩ := hat
    exact hm.error hexpr htexts (not_pop hone (by rfl) Opcode.noConfusion) (by omega) heval
  | listType heval hne =>
    obtain ⟨t₁, t, hexpr, hone, -, hop, hvar, hlab, -⟩ := hat
    obtain ⟨m₁, k₁, hk₁, h₁⟩ :=
      hm.value hexpr htexts (not_pop hone (by rfl) Opcode.noConfusion) (by omega) uenv w heval
    have hleft := h₁.ticksLeft
    obtain ⟨m₂, k₂, hk₂, h₂⟩ :=
      (h₁.stands hm.toReady).push env uenv w hone (by rfl) (fun _ => rfl) (by omega)
    have h₁₂ := h₁.trans h₂
    have hleft₂ := h₁₂.ticksLeft
    exact ((h₁₂.stands hm.toReady).forListType env uenv w (n := 0) hop hvar hlab hne
      (by omega)).after h₁₂ (by omega)
  | @turn id l i body rt rt₁ rt₂ rt' v n n' e e' helem hset hbody hafter hturns ih ih' =>
    have hloopAt := hat
    obtain ⟨t, hop, hvar, hlab, hcode, hjump, hback, rfl⟩ := hloopAt
    obtain ⟨m₁, k₁, hk₁, h₁⟩ := hm.forList env uenv w hop hvar hlab helem hset (by omega)
    have hleft := h₁.ticksLeft
    have hready := h₁.stands hm.toReady
    have hc := ih (s := .int (i + 1) :: .list l :: s) hcode hready hs.turns
      (hctx.loop (Nat.le_add_right _ 2) ⟨Nat.le_refl _, Nat.le_add_right _ 2⟩) (by omega)
    obtain ⟨m₂, k₂, hk₂, h₂⟩ := hc.again hafter hready.toReady rfl hjump hback (by omega)
    have h₁₂ := h₁.trans h₂
    have hleft₂ := h₁₂.ticksLeft
    exact (ih' hat (h₁₂.stands hm.toReady) hs hctx (by omega)).after h₁₂ (by omega)
  | @turnLeft id l i body rt rt₁ rt' v n e e' helem hset hbody hafter ih =>
    obtain ⟨t, hop, hvar, hlab, hcode, hjump, hback, rfl⟩ := hat
    obtain ⟨m₁, k₁, hk₁, h₁⟩ := hm.forList env uenv w hop hvar hlab helem hset (by omega)
    have hleft := h₁.ticksLeft
    have hc := ih (s := .int (i + 1) :: .list l :: s) hcode (h₁.stands hm.toReady) hs.turns
      (hctx.loop (Nat.le_add_right _ 2) ⟨Nat.le_refl _, Nat.le_add_right _ 2⟩) (by omega)
    exact (hc.left hafter ((List.suffix_cons _ s).trans (List.suffix_cons _ _)) rfl hctx).after
      h₁ (by omega)
  | turnsEnd hgt =>
    obtain ⟨t, hop, hvar, hlab, -⟩ := hat
    exact hm.forListEnd env uenv w hop hvar hlab hgt (by omega)

/-! ## Programs -/

/-- The program ends like that: it returns a value, zero where the statements end normally, or
raises an error. -/
def Finishes (env : RunEnv D) (uenv : Env D) (w : World) (m : Machine D) (rt : List Var) :
    StmtEnd → Prop
  | .normal => ∃ m' m'', Reaches env (Exits uenv w) m m' ∧ m'.step env =
    some ⟨none, .unwind .FIN_RETURN (.int 0) m''⟩ ∧ m''.top.rtEnv = rt
  | .value v => ∃ m' m'', Reaches env (Exits uenv w) m m' ∧ m'.step env =
    some ⟨none, .unwind .FIN_RETURN v m''⟩ ∧ m''.top.rtEnv = rt
  | .error e => ∃ m' m'', Reaches env (Exits uenv w) m m' ∧ m'.step env =
    some ⟨some e, .raise e m''⟩ ∧ m''.top.rtEnv = rt
  | .break_ _ | .continue_ _ => False

theorem exitLoopCtx_nil (exit : Option Nat) : exitLoopCtx exit [] = none := by cases exit <;> rfl

theorem labelSize_le (size numLabels : Nat) : labelSize size numLabels ≤ 4 := by
  unfold labelSize
  split
  · decide
  · split <;> decide

/-- A program ends as its statements end, with the variables as they leave them. -/
theorem program_correct {stmts : Stmts} (h : Runs env.floats (.stmts stmts) rt n rt' e)
    (hcode : generateCode stmts = some prog)
    (hl : stmts.Legal VarSlot) (hprog : SmallProgram prog) (htexts : CStrings prog)
    (hm : Stands prog prog.mainVector 0 rt [] m)
    (hticks : (n + 1 : Int) < m.ticksRemaining) (uenv : Env D) (w : World) :
    Finishes env uenv w m rt' e := by
  obtain ⟨inner, hvector, rfl⟩ := generateCode_vector hcode
  have hat := vectorAt_of_generateVector hvector hl hprog.main hprog.toSmallTables
    List.prefix_rfl List.prefix_rfl
  obtain ⟨t, hat, hdone, -⟩ := hat
  have hwidth : (assemble inner).numbytesLabel ≤ 4 := labelSize_le _ _
  have hclear : Clear [] := fun _ hv => absurd hv List.not_mem_nil
  have hctx : Bounded [] 0 := fun _ hc => absurd hc List.not_mem_nil
  have hcomes : Comes env uenv w [] t [] rt' n m e :=
    runs_correct (s := []) h htexts hwidth hat hm hclear hctx hticks
  cases e with
  | normal =>
    obtain ⟨m₁, k₁, hk₁, h₁⟩ := hcomes
    have hstands := h₁.stands hm.toReady
    have hstep : m₁.step env = some ⟨none, .unwind .FIN_RETURN (.int 0) m₁.fetched⟩ :=
      Machine.step_op hdone trivial (by decide) hstands.bc hstands.pc
    exact ⟨m₁, _, h₁.run, hstep, hstands.rtEnv⟩
  | value v => exact hcomes
  | error err => exact hcomes
  | break_ exit =>
    obtain ⟨c, hc, -⟩ := hcomes
    cases (exitLoopCtx_nil exit).symm.trans hc
  | continue_ exit =>
    obtain ⟨c, hc, -⟩ := hcomes
    cases (exitLoopCtx_nil exit).symm.trans hc

/-- `for x in ({7, 8}) if (x == 7) continue; endif break; endfor return x;` -/
def foundSecond : Stmts :=
  .cons (.list 0 (.list (.cons .normal (.var (.int 7)) (.cons .normal (.var (.int 8)) .nil)))
    (.cons (.cond (.cons (.binary .eq (.id 0) (.var (.int 7))) (.cons (.continue_ none) .nil) .nil)
      .nil) (.cons (.break_ none) .nil)))
    (.cons (.return_ (.some (.id 0))) .nil)

theorem foundSecond_isSome : (generateCode foundSecond).isSome = true := by decide +kernel

/-- Every built-in function answers zero. -/
def answersZero : Env Unit where
  call w _ _ _ _ _ _ := (w, .ret (.int 0))
  lineNumber _ _ := 0
  funcName _ := []
  backtrace _ _ := .list []
  rank _ _ _ _ := 0
  settles h := by cases h

theorem stands_atBeginning (prog : Program) (rt : List Var) :
    Stands prog prog.mainVector 0 rt [] ((atBeginning prog).withEnv rt) :=
  ⟨⟨⟨rfl, rfl, rfl⟩, rfl, rfl⟩, rfl, rfl⟩

theorem runs_foundSecond :
    Runs bareEnv.floats (.stmts foundSecond) [.int 0] 22 [.int 8] (.value (.int 8)) :=
  have hskipped :
      Runs bareEnv.floats
        (.stmts
          (.cons (.cond (.cons (.binary .eq (.id 0) (.var (.int 7)))
            (.cons (.continue_ none) .nil) .nil) .nil)
      (.cons (.break_ none) .nil))) [.int 7] 6 [.int 7] (.continue_ none) :=
    .stop (.cond (.armTrue rfl rfl (.stop .continue_ StmtEnd.noConfusion))) StmtEnd.noConfusion
  have hleft :
      Runs bareEnv.floats
        (.stmts
          (.cons (.cond (.cons (.binary .eq (.id 0) (.var (.int 7)))
            (.cons (.continue_ none) .nil) .nil) .nil)
      (.cons (.break_ none) .nil))) [.int 8] 5 [.int 8] (.break_ none) :=
    .next (.cond (.armFalse rfl rfl (.otherwise .nil))) (.stop .break_ StmtEnd.noConfusion)
  .next (.list rfl (.turn rfl rfl hskipped rfl (.turnLeft rfl rfl hleft rfl)))
    (.stop (.returnValue rfl) StmtEnd.noConfusion)

/-- A program that looks for an element and returns it. -/
theorem program_correct_foundSecond : ∃ prog, generateCode foundSecond = some prog ∧
    Finishes bareEnv answersZero childWorld ((atBeginning prog).withEnv [.int 0]) [.int 8]
    (.value (.int 8)) := by
  have hforks : ((generateCode foundSecond).get foundSecond_isSome).forkVectors = [] := by
    decide +kernel
  have hliterals : ((generateCode foundSecond).get foundSecond_isSome).literals = [] := by
    decide +kernel
  have hcode := (Option.some_get foundSecond_isSome).symm
  refine ⟨_, hcode, program_correct runs_foundSecond hcode ?_ ⟨⟨?_, ?_, ?_⟩, ⟨?_, ?_⟩⟩ ?_
    (stands_atBeginning _ _) ?_ _ _⟩
  · exact ⟨⟨varSlot_zero, ⟨trivial, trivial, trivial⟩,
      ⟨⟨⟨varSlot_zero, trivial⟩, ⟨optSlot_none, trivial⟩, trivial⟩, trivial⟩,
      optSlot_none, trivial⟩,
      varSlot_zero, trivial⟩
  · rw [hforks]
    exact fun _ h => absurd h List.not_mem_nil
  · decide +kernel
  · decide +kernel
  · decide +kernel
  · decide +kernel
  · rw [CStrings, hliterals]
    exact fun _ h => absurd h List.not_mem_nil
  · decide +kernel

end NuMoo.Exec
