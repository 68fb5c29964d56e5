import NuMoo.Exec.Run
import NuMoo.Task.Control
import NuMoo.Task.Ledger

/-!
# Instructions that fail

What an instruction leaves behind when it detects an error. Up to the choice of the handler the
database, the tasks, the other activations and the variables ought to be as they were; without
the debug bit execution ought to go on at the end of the instruction.

Results:
1. `Popped`: an instruction takes its operands and changes nothing else before it detects an error.
2. `step_clean_iff`: every failure is clean, but for a fork whose time is not a number.
-/

namespace NuMoo.Exec

variable {D : Type}

/-! ## Clean failures -/

/-- The server, but for what is only remembered: the result of one verb lookup, or the list of
properties of one waif among the operands. -/
inductive SameServer (s : Server) (operands : List Var) : Server → Prop
  | refl : SameServer s operands s
  | lookup {oid : Objid} {verb : MooStr} {found : Option Handle} {db : Db} :
    s.db.dbFindCallableVerb oid verb = some (found, db) → SameServer s operands { s with db := db }
  | update {a : Nat} {s' : Server} : .waif a ∈ operands → s.updateWaifPropdefs a = some s' →
      SameServer s operands s'

/-- The database, the tasks, the other activations and the variables are as they were. -/
structure Unharmed (m m' : Machine D) : Prop where
  objects : m'.server.db.objects = m.server.db.objects
  users : m'.server.db.allUsers = m.server.db.allUsers
  server : SameServer m.server m.top.rtStack m'.server
  tasks : m'.tasks = m.tasks
  rest : m'.rest = m.rest
  rtEnv : m'.top.rtEnv = m.top.rtEnv
  temp : m'.top.temp = m.top.temp

/-- How an instruction ought to end that fails without the debug bit: the number of its operands
that are on the stack, whether it produces a value, and where execution goes on. -/
structure Ending where
  pops : Nat
  produces : Bool
  pc : Nat
deriving DecidableEq, Repr

namespace Ending

/-- The end of an extended instruction; `p` is where its operands are. -/
def ofExtended (bc : Bytecodes) (eop : ExtendedOpcode) (p : Nat) : Option Ending :=
  match eop with
  | .EOP_RANGESET => some ⟨4, true, p⟩
  | .EOP_LENGTH => some ⟨0, true, p + bc.numbytesStack⟩
  | .EOP_EXP => some ⟨2, true, p⟩
  | .EOP_SCATTER =>
    let done := p + 3 + readBytes bc.vector p 1 * (bc.numbytesVarName + bc.numbytesLabel)
    some ⟨1, true, readBytes bc.vector done bc.numbytesLabel⟩
  | _ => none

/-- The end of an instruction; `p` is where its operands are. -/
def ofOpcode (bc : Bytecodes) (op : Opcode) (p : Nat) : Option Ending :=
  match op with
  | .OP_FOR_LIST | .OP_FOR_RANGE =>
    some ⟨2, false, readBytes bc.vector (p + bc.numbytesVarName) bc.numbytesLabel⟩
  | .OP_LIST_ADD_TAIL | .OP_LIST_APPEND | .OP_EQ | .OP_NE | .OP_LT | .OP_LE | .OP_GT | .OP_GE
  | .OP_IN | .OP_MULT
  | .OP_MINUS | .OP_DIV | .OP_MOD | .OP_ADD | .OP_REF | .OP_GET_PROP => some ⟨2, true, p⟩
  | .OP_INDEXSET | .OP_RANGE_REF | .OP_PUT_PROP | .OP_CALL_VERB => some ⟨3, true, p⟩
  | .OP_MAKE_SINGLETON_LIST | .OP_CHECK_LIST_FOR_SPLICE | .OP_NOT | .OP_UNARY_MINUS =>
    some ⟨1, true, p⟩
  | .OP_PUSH_REF | .OP_PUSH_GET_PROP | .OP_PUSH _ => some ⟨0, true, p⟩
  | .OP_G_PUSH => some ⟨0, true, p + bc.numbytesVarName⟩
  | .OP_FORK => some ⟨1, false, p + bc.numbytesFork⟩
  | .OP_FORK_WITH_ID => some ⟨1, false, p + bc.numbytesFork + bc.numbytesVarName⟩
  | .OP_BI_FUNC_CALL => some ⟨1, true, p + 1⟩
  | .OP_EXTENDED => (bc.vector[p]?.bind ExtendedOpcode.ofByte).bind fun eop =>
    ofExtended bc eop (p + 1)
  | _ => none

end Ending

/-- The stack after a failure without the debug bit. -/
def Ending.stack (f : Ending) (e : ErrCode) (s : List Var) : List Var :=
  (if f.produces then [Var.err e] else []) ++ s.drop f.pops

/-- An instruction that detects an error raises it with the debug bit on, and otherwise ends as it
ought to. -/
def CleanEnd (m : Machine D) (f : Option Ending) (r : Result D) : Prop :=
  ∀ e, r.detected = some e →
    match r.next with
    | .raise e' m' => m.top.debug = true ∧ e' = e ∧ Unharmed m m'
    | .opcode m' =>
      m.top.debug = false ∧ Unharmed m m' ∧ ∃ f', f = some f' ∧ m'.top.pc = f'.pc ∧
        m'.top.rtStack = f'.stack e m.top.rtStack
    | _ => False

/-- The end of the instruction at the pc. -/
def Machine.ending (m : Machine D) : Option Ending :=
  m.top.bc.vector[m.top.pc]?.bind fun b => Ending.ofOpcode m.top.bc (Opcode.ofByte b) (m.top.pc + 1)

/-- A failure of the instruction at the pc has no side effect. -/
def Machine.CleanFailure (m : Machine D) (r : Result D) : Prop := CleanEnd m m.ending r

/-- The user of the activation may have one more task. -/
def Machine.BelowLimit (m : Machine D) : Prop :=
  ∃ property serverOption, queuedTaskLimit m.top.progr m.server.db = some property ∧
    serverIntOption (Lex.ascii "queued_task_limit") (-1) m.server.db = some serverOption ∧
    m.tasks.checkUserTaskLimit m.top.progr property serverOption = true

/-- A fork without the debug bit that takes a value which is no number for its time: its bytes are
not less than zero as a `double`, and the user may have one more task. -/
def Machine.ForksAnyway (env : RunEnv D) (m : Machine D) : Prop :=
  (∃ b, m.top.bc.vector[m.top.pc]? = some b ∧
    (Opcode.ofByte b = .OP_FORK ∨ Opcode.ofByte b = .OP_FORK_WITH_ID)) ∧
    ¬ (m.ticksRemaining - 1 ≤ 0 ∨ m.taskTimedOut = true) ∧ m.top.debug = false ∧
    (∃ time s, m.top.rtStack = time :: s ∧ time.isNumber = false ∧ env.negative time = false) ∧
    m.BelowLimit

/-! ## Before the error -/

/-- Since the start of the instruction some operands were popped and some were read. -/
structure Popped (m₀ m : Machine D) (k p : Nat) : Prop where
  server : m.server = m₀.server
  tasks : m.tasks = m₀.tasks
  rest : m.rest = m₀.rest
  top : m.top = { m₀.top with rtStack := m₀.top.rtStack.drop k, pc := p, errorPc := m₀.top.pc }

/-- The same where an error is detected. -/
structure Failing (m₀ m : Machine D) (k p : Nat) : Prop where
  server : SameServer m₀.server m₀.top.rtStack m.server
  tasks : m.tasks = m₀.tasks
  rest : m.rest = m₀.rest
  top : m.top = { m₀.top with rtStack := m₀.top.rtStack.drop k, pc := p, errorPc := m₀.top.pc }

variable {m₀ m m' : Machine D} {k p nb x : Nat} {v : Var} {e : ErrCode}
    {f : Option Ending} {r : Result D}

theorem classPropdefs_db {s s' : Server} {oid : Objid} {P : Nat}
    (h : s.classPropdefs oid = some (P, s')) : s'.db = s.db := by
  unfold Server.classPropdefs at h
  split at h
  · cases h
    rfl
  · obtain ⟨os, -, h⟩ := Option.bind_eq_some_iff.mp h
    cases h
    rfl

theorem updatedWaif_db {s s' : Server} {w w' : Waif} (h : Server.updatedWaif w s = some (w', s')) :
    s'.db = s.db := by
  unfold Server.updatedWaif at h
  split at h
  · obtain ⟨cnt, -, h⟩ := Option.bind_eq_some_iff.mp h
    split at h
    · cases h
      rfl
    · cases h
  · split at h
    · cases h
      rfl
    · obtain ⟨⟨P, s₁⟩, hP, h⟩ := Option.bind_eq_some_iff.mp h
      obtain ⟨new, -, h⟩ := Option.bind_eq_some_iff.mp h
      rw [← classPropdefs_db hP]
      dsimp only at h
      split at h
      · obtain ⟨vals, -, h⟩ := Option.bind_eq_some_iff.mp h
        cases h
        rfl
      · obtain ⟨old, -, h⟩ := Option.bind_eq_some_iff.mp h
        obtain ⟨xfer, -, h⟩ := Option.bind_eq_some_iff.mp h
        obtain ⟨fresh, -, h⟩ := Option.bind_eq_some_iff.mp h
        split at h
        · split at h
          · cases h
            rfl
          · cases h
        · split at h
          · cases h
            rfl
          · cases h

theorem updateWaifPropdefs_db {s s' : Server} {a : Nat} (h : s.updateWaifPropdefs a = some s') :
    s'.db = s.db := by
  obtain ⟨w, -, h⟩ := Option.bind_eq_some_iff.mp h
  obtain ⟨⟨w', s₁⟩, hup, h⟩ := Option.bind_eq_some_iff.mp h
  cases h
  exact (updatedWaif_db hup : s₁.db = s.db)

theorem dbFindCallableVerb_db {db db' : Db} {oid : Objid} {verb : MooStr} {found : Option Handle}
    (h : db.dbFindCallableVerb oid verb = some (found, db')) :
    db'.objects = db.objects ∧ db'.allUsers = db.allUsers := by
  obtain ⟨os, -, h⟩ := Option.bind_eq_some_iff.mp h
  dsimp only at h
  split at h <;>
  · cases h
    exact ⟨rfl, rfl⟩

theorem SameServer.db {s s' : Server} {operands : List Var} (h : SameServer s operands s') :
    s'.db.objects = s.db.objects ∧ s'.db.allUsers = s.db.allUsers := by
  cases h with
  | refl => exact ⟨rfl, rfl⟩
  | lookup h => exact dbFindCallableVerb_db h
  | update _ h =>
    rw [updateWaifPropdefs_db h]
    exact ⟨rfl, rfl⟩

/-- Without an error there is nothing to prove. -/
theorem cleanEnd_of_none (h : r.detected = none) : CleanEnd m f r :=
  fun e he => absurd (h ▸ he) (by simp)

theorem next_clean (hr : next m' = some r) : CleanEnd m f r := by
  cases hr
  exact cleanEnd_of_none rfl

namespace Failing

theorem debug (h : Failing m₀ m k p) : m.top.debug = m₀.top.debug := by rw [h.top]

theorem unharmed (h : Failing m₀ m k p) : Unharmed m₀ m where
  objects := h.server.db.1
  users := h.server.db.2
  server := h.server
  tasks := h.tasks
  rest := h.rest
  rtEnv := by rw [h.top]
  temp := by rw [h.top]

theorem raiseError (h : Failing m₀ m k p) {cont : Machine D → Option (Result D)}
    (hr : m.raiseError e cont = some r)
    (hcont : ∀ r', m₀.top.debug = false → cont m = some r' → ∃ m', r'.next = .opcode m' ∧
      Unharmed m₀ m' ∧
      ∃ f', f = some f' ∧ m'.top.pc = f'.pc ∧ m'.top.rtStack = f'.stack e m₀.top.rtStack) :
    CleanEnd m₀ f r := by
  intro e' he
  unfold Machine.raiseError at hr
  split at hr
  · next hd =>
    cases hr
    cases he
    exact ⟨h.debug ▸ hd, rfl, h.unharmed⟩
  · next hd =>
    rw [h.debug, Bool.not_eq_true] at hd
    obtain ⟨r', hr', rfl⟩ := Option.map_eq_some_iff.mp hr
    cases he
    obtain ⟨m', hm, hsafe, hend⟩ := hcont r' hd hr'
    simp only [hm]
    exact ⟨hd, hsafe, hend⟩

theorem pushError (h : Failing m₀ m k p) (hr : m.pushError e = some r) :
    CleanEnd m₀ (some ⟨k, true, p⟩) r := by
  refine h.raiseError hr fun r' _ hr' => ?_
  cases hr'
  refine ⟨_, rfl, { h.unharmed with }, _, rfl, ?_, ?_⟩
  · rw [Machine.push, Machine.setTop, h.top]
  · rw [Machine.push, Machine.setTop, h.top]
    rfl

end Failing

namespace Popped

/-- The server does what it may do before an error. -/
theorem withServer (h : Popped m₀ m k p) {s : Server} (hs : SameServer m₀.server m₀.top.rtStack s) :
    Failing m₀ { m with server := s } k p :=
  ⟨hs, h.tasks, h.rest, h.top⟩

theorem failing (h : Popped m₀ m k p) : Failing m₀ m k p := h.withServer (h.server ▸ .refl)

theorem bc (h : Popped m₀ m k p) : m.top.bc = m₀.top.bc := by rw [h.top]

theorem debug (h : Popped m₀ m k p) : m.top.debug = m₀.top.debug := h.failing.debug

theorem rtStack (h : Popped m₀ m k p) : m.top.rtStack = m₀.top.rtStack.drop k := by rw [h.top]

theorem pc (h : Popped m₀ m k p) : m.top.pc = p := by rw [h.top]

theorem pop (h : Popped m₀ m k p) (hr : m.pop = some (v, m')) :
    Popped m₀ m' (k + 1) p ∧ m.top.rtStack = v :: m'.top.rtStack := by
  unfold Machine.pop at hr
  split at hr
  · cases hr
  · next v' s hs =>
    cases hr
    have hdrop : m₀.top.rtStack.drop (k + 1) = s := by
      rw [← List.tail_drop, ← h.rtStack, hs, List.tail_cons]
    exact ⟨⟨h.server, h.tasks, h.rest, by rw [Machine.setTop, h.top, hdrop]⟩, hs⟩

/-- What is on the stack is among the operands. -/
theorem mem (h : Popped m₀ m k p) (hv : v ∈ m.top.rtStack) : v ∈ m₀.top.rtStack :=
  List.mem_of_mem_drop (h.rtStack ▸ hv)

theorem pop_mem (h : Popped m₀ m k p) (hr : m.pop = some (v, m')) : v ∈ m₀.top.rtStack :=
  h.mem ((h.pop hr).2 ▸ List.mem_cons_self)

theorem jump (h : Popped m₀ m k p) (x : Nat) : Popped m₀ (m.jump x) k x :=
  ⟨h.server, h.tasks, h.rest, by rw [Machine.jump, Machine.setTop, h.top]⟩

theorem readBytes (h : Popped m₀ m k p) (hr : m.readBytes nb = some (x, m')) :
    Popped m₀ m' k (p + nb) ∧ x = NuMoo.readBytes m₀.top.bc.vector p nb := by
  unfold Machine.readBytes at hr
  split at hr
  · cases hr
    rw [h.pc, h.bc]
    exact ⟨h.jump _, rfl⟩
  · cases hr

theorem pushResult (h : Popped m₀ m k p) {res : Except ErrCode Var}
    (hr : m.pushResult res = some r) :
    CleanEnd m₀ (some ⟨k, true, p⟩) r := by
  cases res with
  | ok v => exact next_clean hr
  | error e => exact h.failing.pushError hr

end Popped

/-! ## The instructions -/

namespace Machine

theorem opUnary_clean (h : Popped m₀ m k p) {g : Var → Except ErrCode Var}
    (hr : m.opUnary g = some r) :
    CleanEnd m₀ (some ⟨k + 1, true, p⟩) r := by
  obtain ⟨⟨v, m₁⟩, hpop, hr⟩ := Option.bind_eq_some_iff.mp hr
  exact (h.pop hpop).1.pushResult hr

theorem opBinary_clean (h : Popped m₀ m k p) {g : Var → Var → Option (Except ErrCode Var)}
    (hr : m.opBinary g = some r) :
    CleanEnd m₀ (some ⟨k + 2, true, p⟩) r := by
  obtain ⟨⟨rhs, m₁⟩, hpop, hr⟩ := Option.bind_eq_some_iff.mp hr
  obtain ⟨⟨lhs, m₂⟩, hpop', hr⟩ := Option.bind_eq_some_iff.mp hr
  obtain ⟨res, -, hr⟩ := Option.bind_eq_some_iff.mp hr
  exact ((h.pop hpop).1.pop hpop').1.pushResult hr

theorem doTest_clean (hr : m.doTest = some r) : CleanEnd m₀ f r := by
  obtain ⟨⟨v, m₁⟩, -, hr⟩ := Option.bind_eq_some_iff.mp hr
  dsimp only at hr
  split at hr
  · exact next_clean hr
  · obtain ⟨⟨lab, m₂⟩, -, hr⟩ := Option.bind_eq_some_iff.mp hr
    exact next_clean hr

theorem opJump_clean (hr : m.opJump = some r) : CleanEnd m₀ f r := by
  obtain ⟨⟨lab, m₁⟩, -, hr⟩ := Option.bind_eq_some_iff.mp hr
  exact next_clean hr

/-- The end of a loop, over which an error has led. -/
theorem leaveLoop_spec {lab : Nat} (h : Popped m₀ m k p) (hr : m.leaveLoop lab = some r) :
    ∃ m', r = ⟨none, .opcode m'⟩ ∧ Popped m₀ m' (k + 2) lab := by
  obtain ⟨⟨v, m₁⟩, hpop, hr⟩ := Option.bind_eq_some_iff.mp hr
  obtain ⟨⟨v', m₂⟩, hpop', hr⟩ := Option.bind_eq_some_iff.mp hr
  cases hr
  exact ⟨_, rfl, ((h.pop hpop).1.pop hpop').1.jump lab⟩

theorem leaveLoop_clean {lab : Nat} (h : Popped m₀ m k p) (hr : m.leaveLoop lab = some r) :
    CleanEnd m₀ f r := by
  obtain ⟨m', rfl, -⟩ := leaveLoop_spec h hr
  exact cleanEnd_of_none rfl

/-- A loop whose bounds have the wrong type is left. -/
theorem raise_leaveLoop_clean {lab : Nat} (h : Popped m₀ m k p)
    (hr : (m.raiseError e fun m => m.leaveLoop lab) = some r) :
    CleanEnd m₀ (some ⟨k + 2, false, lab⟩) r := by
  refine h.failing.raiseError hr fun r' _ hr' => ?_
  obtain ⟨m', rfl, h'⟩ := leaveLoop_spec h hr'
  exact ⟨m', rfl, h'.failing.unharmed, _, rfl, h'.pc, h'.rtStack⟩

theorem opForList_clean (h : Popped m₀ m k p) (hr : m.opForList = some r) :
    CleanEnd m₀ (some ⟨k + 2, false, NuMoo.readBytes m₀.top.bc.vector
      (p + m₀.top.bc.numbytesVarName) m₀.top.bc.numbytesLabel⟩) r := by
  obtain ⟨⟨id, m₁⟩, hid, hr⟩ := Option.bind_eq_some_iff.mp hr
  obtain ⟨⟨lab, m₂⟩, hlab, hr⟩ := Option.bind_eq_some_iff.mp hr
  obtain ⟨h₁, -⟩ := h.readBytes hid
  obtain ⟨h₂, rfl⟩ := h₁.readBytes hlab
  rw [h.bc, h₁.bc] at *
  dsimp only at hr
  split at hr
  · split at hr
    · split at hr
      · exact leaveLoop_clean h₂ hr
      · obtain ⟨v, -, hr⟩ := Option.bind_eq_some_iff.mp hr
        obtain ⟨m₃, -, hr⟩ := Option.bind_eq_some_iff.mp hr
        exact next_clean hr
    · cases hr
  · exact raise_leaveLoop_clean h₂ hr
  · cases hr

theorem forRange_clean {wrap : Int → Var} {id lab : Nat} {a b : Int} {s : List Var}
    (h : Popped m₀ m k p)
    (hr : m.forRange wrap id lab a b s = some r) : CleanEnd m₀ f r := by
  unfold forRange at hr
  split at hr
  · exact leaveLoop_clean h hr
  · obtain ⟨m₁, -, hr⟩ := Option.bind_eq_some_iff.mp hr
    split at hr <;> exact next_clean hr

theorem opForRange_clean (h : Popped m₀ m k p) (hr : m.opForRange = some r) :
    CleanEnd m₀ (some ⟨k + 2, false, NuMoo.readBytes m₀.top.bc.vector
      (p + m₀.top.bc.numbytesVarName) m₀.top.bc.numbytesLabel⟩) r := by
  obtain ⟨⟨id, m₁⟩, hid, hr⟩ := Option.bind_eq_some_iff.mp hr
  obtain ⟨⟨lab, m₂⟩, hlab, hr⟩ := Option.bind_eq_some_iff.mp hr
  obtain ⟨h₁, -⟩ := h.readBytes hid
  obtain ⟨h₂, rfl⟩ := h₁.readBytes hlab
  rw [h.bc, h₁.bc] at *
  dsimp only at hr
  split at hr
  · exact forRange_clean h₂ hr
  · exact forRange_clean h₂ hr
  · exact raise_leaveLoop_clean h₂ hr
  · cases hr

theorem opLogical_clean {jumps : Bool} (hr : m.opLogical jumps = some r) : CleanEnd m₀ f r := by
  obtain ⟨⟨lab, m₁⟩, -, hr⟩ := Option.bind_eq_some_iff.mp hr
  obtain ⟨⟨v, m₂⟩, -, hr⟩ := Option.bind_eq_some_iff.mp hr
  dsimp only at hr
  split at hr <;> exact next_clean hr

theorem opImm_clean (hr : m.opImm = some r) : CleanEnd m₀ f r := by
  unfold opImm at hr
  split at hr
  · exact next_clean hr
  · obtain ⟨⟨slot, m₁⟩, -, hr⟩ := Option.bind_eq_some_iff.mp hr
    obtain ⟨v, -, hr⟩ := Option.bind_eq_some_iff.mp hr
    exact next_clean hr

theorem pushVar_clean {id : Nat} (h : Popped m₀ m k p) (hr : m.pushVar id = some r) :
    CleanEnd m₀ (some ⟨k, true, p⟩) r := by
  obtain ⟨v, -, hr⟩ := Option.bind_eq_some_iff.mp hr
  split at hr
  · exact h.failing.pushError hr
  · exact next_clean hr

theorem opGPush_clean (h : Popped m₀ m k p) (hr : m.opGPush = some r) :
    CleanEnd m₀ (some ⟨k, true, p + m₀.top.bc.numbytesVarName⟩) r := by
  obtain ⟨⟨id, m₁⟩, hid, hr⟩ := Option.bind_eq_some_iff.mp hr
  rw [h.bc] at hid
  exact pushVar_clean (h.readBytes hid).1 hr

theorem opGPut_clean (hr : m.opGPut = some r) : CleanEnd m₀ f r := by
  obtain ⟨⟨id, m₁⟩, -, hr⟩ := Option.bind_eq_some_iff.mp hr
  obtain ⟨v, -, hr⟩ := Option.bind_eq_some_iff.mp hr
  obtain ⟨m₂, -, hr⟩ := Option.bind_eq_some_iff.mp hr
  exact next_clean hr

theorem opPut_clean {id : Nat} (hr : m.opPut id = some r) : CleanEnd m₀ f r := by
  obtain ⟨⟨v, m₁⟩, -, hr⟩ := Option.bind_eq_some_iff.mp hr
  dsimp only at hr
  split at hr
  all_goals
    obtain ⟨m₂, -, hr⟩ := Option.bind_eq_some_iff.mp hr
    exact next_clean hr

theorem opCheckListForSplice_clean (h : Popped m₀ m k p) (hr : m.opCheckListForSplice = some r) :
    CleanEnd m₀ (some ⟨k + 1, true, p⟩) r := by
  obtain ⟨⟨v, m₁⟩, hpop, hr⟩ := Option.bind_eq_some_iff.mp hr
  dsimp only at hr
  split at hr
  · exact next_clean hr
  · exact (h.pop hpop).1.failing.pushError hr

theorem opPutTemp_clean (hr : m.opPutTemp = some r) : CleanEnd m₀ f r := by
  obtain ⟨v, -, hr⟩ := Option.bind_eq_some_iff.mp hr
  exact next_clean hr

/-! ### Elements and properties -/

/-- A call that fails changes nothing but the cache of verb lookups. -/
theorem callVerb2_error {env : RunEnv D} {oid : Objid} {vname : MooStr} {this args : Var}
    (h : Popped m₀ m k p)
    (hr : callVerb2 env oid vname this args m = some (e, m')) (he : e ≠ .E_NONE) :
    Failing m₀ m' k p := by
  unfold callVerb2 at hr
  split at hr
  · cases hr
    exact h.failing
  · obtain ⟨⟨hd, db⟩, hfind, hr⟩ := Option.bind_eq_some_iff.mp hr
    rw [h.server] at hfind
    have h' : Failing m₀ (m.withDb db) k p := by
      rw [Machine.withDb, h.server]
      exact h.withServer (.lookup hfind)
    dsimp only at hr
    split at hr
    · cases hr
      exact h'
    · split at hr
      · cases hr
        exact h'
      · obtain ⟨o, -, hr⟩ := Option.bind_eq_some_iff.mp hr
        obtain ⟨v, -, hr⟩ := Option.bind_eq_some_iff.mp hr
        cases hr
        exact absurd rfl he

theorem waifIndex_clean {env : RunEnv D} {a : Nat} {vname : Str} {args : List Var}
    (h : Popped m₀ m k p)
    (hr : m.waifIndex env a vname args = some r) : CleanEnd m₀ (some ⟨k, true, p⟩) r := by
  obtain ⟨w, -, hr⟩ := Option.bind_eq_some_iff.mp hr
  split at hr
  · exact h.failing.pushError hr
  · split at hr
    · exact h.failing.pushError hr
    · obtain ⟨⟨err, m₁⟩, hcall, hr⟩ := Option.bind_eq_some_iff.mp hr
      split at hr
      · exact next_clean hr
      · next he =>
        cases he
        exact (callVerb2_error h hcall (by decide)).pushError hr
      · next hne _ he =>
        cases he
        exact (callVerb2_error h hcall hne).pushError hr

theorem opIndexSet_clean {env : RunEnv D} (h : Popped m₀ m k p) (hr : m.opIndexSet env = some r) :
    CleanEnd m₀ (some ⟨k + 3, true, p⟩) r := by
  obtain ⟨⟨value, m₁⟩, hpop₁, hr⟩ := Option.bind_eq_some_iff.mp hr
  obtain ⟨⟨index, m₂⟩, hpop₂, hr⟩ := Option.bind_eq_some_iff.mp hr
  obtain ⟨⟨list, m₃⟩, hpop₃, hr⟩ := Option.bind_eq_some_iff.mp hr
  have h₃ := (((h.pop hpop₁).1.pop hpop₂).1.pop hpop₃).1
  dsimp only at hr
  split at hr
  · exact waifIndex_clean h₃ hr
  · obtain ⟨res, -, hr⟩ := Option.bind_eq_some_iff.mp hr
    exact h₃.pushResult hr

theorem opRef_clean {env : RunEnv D} (h : Popped m₀ m k p) (hr : m.opRef env = some r) :
    CleanEnd m₀ (some ⟨k + 2, true, p⟩) r := by
  obtain ⟨⟨index, m₁⟩, hpop₁, hr⟩ := Option.bind_eq_some_iff.mp hr
  obtain ⟨⟨list, m₂⟩, hpop₂, hr⟩ := Option.bind_eq_some_iff.mp hr
  have h₂ := ((h.pop hpop₁).1.pop hpop₂).1
  dsimp only at hr
  split at hr
  · exact waifIndex_clean h₂ hr
  · obtain ⟨res, -, hr⟩ := Option.bind_eq_some_iff.mp hr
    exact h₂.pushResult hr

theorem opPushRef_clean (h : Popped m₀ m k p) (hr : m.opPushRef = some r) :
    CleanEnd m₀ (some ⟨k, true, p⟩) r := by
  unfold opPushRef at hr
  split at hr
  · obtain ⟨res, -, hr⟩ := Option.bind_eq_some_iff.mp hr
    exact h.pushResult hr
  · cases hr

theorem opRangeRef_clean (h : Popped m₀ m k p) (hr : m.opRangeRef = some r) :
    CleanEnd m₀ (some ⟨k + 3, true, p⟩) r := by
  obtain ⟨⟨to_, m₁⟩, hpop₁, hr⟩ := Option.bind_eq_some_iff.mp hr
  obtain ⟨⟨from_, m₂⟩, hpop₂, hr⟩ := Option.bind_eq_some_iff.mp hr
  obtain ⟨⟨base, m₃⟩, hpop₃, hr⟩ := Option.bind_eq_some_iff.mp hr
  obtain ⟨res, -, hr⟩ := Option.bind_eq_some_iff.mp hr
  exact (((h.pop hpop₁).1.pop hpop₂).1.pop hpop₃).1.pushResult hr

theorem eopRangeSet_clean (h : Popped m₀ m k p) (hr : m.eopRangeSet = some r) :
    CleanEnd m₀ (some ⟨k + 4, true, p⟩) r := by
  obtain ⟨⟨value, m₁⟩, hpop₁, hr⟩ := Option.bind_eq_some_iff.mp hr
  obtain ⟨⟨to_, m₂⟩, hpop₂, hr⟩ := Option.bind_eq_some_iff.mp hr
  obtain ⟨⟨from_, m₃⟩, hpop₃, hr⟩ := Option.bind_eq_some_iff.mp hr
  obtain ⟨⟨base, m₄⟩, hpop₄, hr⟩ := Option.bind_eq_some_iff.mp hr
  obtain ⟨res, -, hr⟩ := Option.bind_eq_some_iff.mp hr
  exact ((((h.pop hpop₁).1.pop hpop₂).1.pop hpop₃).1.pop hpop₄).1.pushResult hr

theorem eopLength_clean (h : Popped m₀ m k p) (hr : m.eopLength = some r) :
    CleanEnd m₀ (some ⟨k, true, p + m₀.top.bc.numbytesStack⟩) r := by
  obtain ⟨⟨i, m₁⟩, hi, hr⟩ := Option.bind_eq_some_iff.mp hr
  obtain ⟨item, -, hr⟩ := Option.bind_eq_some_iff.mp hr
  obtain ⟨res, -, hr⟩ := Option.bind_eq_some_iff.mp hr
  rw [h.bc] at hi
  exact (h.readBytes hi).1.pushResult hr

/-- Reading a property of a waif brings it up to date, whatever comes of it. -/
theorem waifGetProp_server {s s' : Server} {a : Nat} {name : Str} {progr : Objid}
    (hr : s.waifGetProp a name progr = some (e, v, s')) :
    s.updateWaifPropdefs a = some s' := by
  obtain ⟨s₁, hup, hr⟩ := Option.bind_eq_some_iff.mp hr
  obtain ⟨w, -, hr⟩ := Option.bind_eq_some_iff.mp hr
  obtain ⟨⟨err, v⟩, -, hr⟩ := Option.bind_eq_some_iff.mp hr
  cases hr
  exact hup

/-- A value that is not stored in a waif leaves the server as it is. -/
theorem putProp_error {s s' : Server} {a : Nat} {w : Waif} {name : Str} {val : Var} {progr : Objid}
    (hr : s.putProp a w name val progr = some (e, s')) (he : e ≠ .E_NONE) : s' = s := by
  unfold Server.putProp at hr
  dsimp only at hr
  split at hr
  · cases hr
    rfl
  · split at hr
    · cases hr
      rfl
    · split at hr
      · cases hr
        rfl
      · obtain ⟨off, -, hr⟩ := Option.bind_eq_some_iff.mp hr
        split at hr
        · cases hr
          rfl
        · obtain ⟨hd, -, hr⟩ := Option.bind_eq_some_iff.mp hr
          split at hr
          · cases hr
          · cases hr
          · obtain ⟨pv, -, hr⟩ := Option.bind_eq_some_iff.mp hr
            split at hr
            · cases hr
              rfl
            · obtain ⟨b, -, hr⟩ := Option.bind_eq_some_iff.mp hr
              split at hr
              · cases hr
                rfl
              · obtain ⟨⟨w', j⟩, -, hr⟩ := Option.bind_eq_some_iff.mp hr
                dsimp only at hr
                split at hr
                · cases hr
                  exact absurd rfl he
                · cases hr

theorem waifPutProp_server {s s' : Server} {a : Nat} {name : Str} {val : Var} {progr : Objid}
    (hr : s.waifPutProp a name val progr = some (e, s')) (he : e ≠ .E_NONE) :
    s.updateWaifPropdefs a = some s' := by
  obtain ⟨s₁, hup, hr⟩ := Option.bind_eq_some_iff.mp hr
  obtain ⟨w, -, hr⟩ := Option.bind_eq_some_iff.mp hr
  obtain rfl := putProp_error hr he
  exact hup

theorem getProp_clean {obj propname : Var} (h : Popped m₀ m k p) (hobj : obj ∈ m₀.top.rtStack)
    (hr : m.getProp obj propname = some r) : CleanEnd m₀ (some ⟨k, true, p⟩) r := by
  unfold getProp at hr
  split at hr
  · rw [h.server] at hr
    obtain ⟨⟨err, prop, server⟩, hget, hr⟩ := Option.bind_eq_some_iff.mp hr
    dsimp only at hr
    split at hr
    · exact next_clean hr
    · exact (h.withServer (.update hobj (waifGetProp_server hget))).pushError hr
  · obtain ⟨res, -, hr⟩ := Option.bind_eq_some_iff.mp hr
    exact h.pushResult hr
  · exact h.failing.pushError hr

theorem opGetProp_clean (h : Popped m₀ m k p) (hr : m.opGetProp = some r) :
    CleanEnd m₀ (some ⟨k + 2, true, p⟩) r := by
  obtain ⟨⟨propname, m₁⟩, hpop₁, hr⟩ := Option.bind_eq_some_iff.mp hr
  obtain ⟨⟨obj, m₂⟩, hpop₂, hr⟩ := Option.bind_eq_some_iff.mp hr
  exact getProp_clean ((h.pop hpop₁).1.pop hpop₂).1 ((h.pop hpop₁).1.pop_mem hpop₂) hr

theorem opPushGetProp_clean (h : Popped m₀ m k p) (hr : m.opPushGetProp = some r) :
    CleanEnd m₀ (some ⟨k, true, p⟩) r := by
  unfold opPushGetProp at hr
  split at hr
  · next s hs => exact getProp_clean h (h.mem (by rw [hs]; simp)) hr
  · cases hr

theorem opPutProp_clean (h : Popped m₀ m k p) (hr : m.opPutProp = some r) :
    CleanEnd m₀ (some ⟨k + 3, true, p⟩) r := by
  obtain ⟨⟨rhs, m₁⟩, hpop₁, hr⟩ := Option.bind_eq_some_iff.mp hr
  obtain ⟨⟨propname, m₂⟩, hpop₂, hr⟩ := Option.bind_eq_some_iff.mp hr
  obtain ⟨⟨obj, m₃⟩, hpop₃, hr⟩ := Option.bind_eq_some_iff.mp hr
  have h₃ := (((h.pop hpop₁).1.pop hpop₂).1.pop hpop₃).1
  have hobj := ((h.pop hpop₁).1.pop hpop₂).1.pop_mem hpop₃
  dsimp only at hr
  split at hr
  · rw [h₃.server] at hr
    obtain ⟨⟨err, server⟩, hput, hr⟩ := Option.bind_eq_some_iff.mp hr
    dsimp only at hr
    split at hr
    · exact next_clean hr
    · next he => exact (h₃.withServer (.update hobj (waifPutProp_server hput he))).pushError hr
  · obtain ⟨res, -, hr⟩ := Option.bind_eq_some_iff.mp hr
    split at hr
    · exact next_clean hr
    · exact h₃.failing.pushError hr
  · exact h₃.failing.pushError hr

/-! ### Tasks and calls -/

/-- A task that is enqueued waits. -/
theorem enqueueWaiting_ne (w : Task.Tasks) (t : Task.BgTask) : w.enqueueWaiting t ≠ w := by
  intro h
  have hwait : (w.enqueueWaiting t).waiting = Task.Tasks.insertWaiting t w.waiting :=
    congrArg (Task.Tasks.insertWaiting t) (Task.Tasks.findTqueue_waiting w t.progr)
  have hlen := (Task.Tasks.insertWaiting_perm t w.waiting).length_eq
  rw [← hwait, h, List.length_cons] at hlen
  exact absurd hlen (Nat.ne_of_lt (Nat.lt_succ_self _))

theorem enqueueForkedTask2_cases {env : RunEnv D} {time : Var} {vid : Option Nat}
    (hr : Exec.enqueueForkedTask2 env time vid m = some (e, m')) :
    (e = .E_QUOTA ∧ m' = m ∧ ¬ m.BelowLimit) ∨
      (e = .E_NONE ∧ m.BelowLimit ∧ m'.tasks ≠ m.tasks) := by
  obtain ⟨property, hprop, hr⟩ := Option.bind_eq_some_iff.mp hr
  obtain ⟨serverOption, hopt, hr⟩ := Option.bind_eq_some_iff.mp hr
  unfold Task.Tasks.enqueueForkedTask2 at hr
  dsimp only at hr
  by_cases hlimit : m.tasks.checkUserTaskLimit m.top.progr property serverOption = true
  · refine .inr ?_
    rw [if_pos hlimit] at hr
    cases vid with
    | none =>
      cases hr
      exact ⟨rfl, ⟨property, serverOption, hprop, hopt, hlimit⟩, enqueueWaiting_ne _ _⟩
    | some vid =>
      obtain ⟨m₁, hput, hr⟩ := Option.bind_eq_some_iff.mp hr
      cases hr
      unfold putVar at hput
      split at hput
      · cases hput
        exact ⟨rfl, ⟨property, serverOption, hprop, hopt, hlimit⟩, enqueueWaiting_ne _ _⟩
      · cases hput
  · refine .inl ?_
    rw [if_neg hlimit] at hr
    cases hr
    refine ⟨rfl, rfl, ?_⟩
    rintro ⟨property', serverOption', hprop', hopt', hlimit'⟩
    rw [hprop] at hprop'
    rw [hopt] at hopt'
    cases hprop'
    cases hopt'
    exact hlimit hlimit'

/-- What `OP_FORK` does after the test of the type, without the debug bit. -/
theorem forkAfter_cases {env : RunEnv D} {time : Var} {vid : Option Nat} (hd : m.top.debug = false)
    (hr : m.forkAfter env time vid = some r) :
    (negativeTime env time = true ∧ r.next = .opcode m) ∨ (¬ m.BelowLimit ∧ r.next = .opcode m) ∨
      (negativeTime env time = false ∧ m.BelowLimit ∧ ∃ m', r.next = .opcode m' ∧
        m'.tasks ≠ m.tasks) := by
  unfold forkAfter at hr
  split at hr
  · next hneg =>
    unfold raiseError at hr
    rw [if_neg (by rw [hd]; decide)] at hr
    cases hr
    exact .inl ⟨hneg, rfl⟩
  · next hneg =>
    rw [Bool.not_eq_true] at hneg
    obtain ⟨⟨e, m₁⟩, hfork, hr₁⟩ := Option.bind_eq_some_iff.mp hr
    rcases enqueueForkedTask2_cases hfork with ⟨rfl, rfl, hlimit⟩ | ⟨rfl, hlimit, htasks⟩
    · unfold raiseError at hr₁
      dsimp only at hr₁
      rw [if_neg (by rw [hd]; decide)] at hr₁
      cases hr₁
      exact .inr (.inl ⟨hlimit, rfl⟩)
    · cases hr₁
      exact .inr (.inr ⟨hneg, hlimit, _, rfl, htasks⟩)

/-- Where the time is a number, a fork fails without a side effect. -/
theorem forkAfter_clean {env : RunEnv D} {time : Var} {vid : Option Nat} (h : Popped m₀ m k p)
    (hr : m.forkAfter env time vid = some r) : CleanEnd m₀ (some ⟨k, false, p⟩) r := by
  have hend : ∀ {e : ErrCode}, m.raiseError e next = some r → CleanEnd m₀ (some ⟨k, false, p⟩) r :=
    fun hr =>
    h.failing.raiseError hr fun r' _ hr' => by
      cases hr'
      exact ⟨m, rfl, h.failing.unharmed, _, rfl, h.pc, h.rtStack⟩
  unfold forkAfter at hr
  split at hr
  · exact hend hr
  · obtain ⟨⟨e, m₁⟩, hfork, hr₁⟩ := Option.bind_eq_some_iff.mp hr
    rcases enqueueForkedTask2_cases hfork with ⟨rfl, rfl, -⟩ | ⟨rfl, -, -⟩
    · exact hend hr₁
    · exact next_clean hr₁

theorem belowLimit_congr (hserver : m'.server = m.server) (htasks : m'.tasks = m.tasks)
    (hprogr : m'.top.progr = m.top.progr) :
    m'.BelowLimit ↔ m.BelowLimit := by
  rw [BelowLimit, BelowLimit, hserver, htasks, hprogr]

/-- The operands of a fork. -/
theorem opFork_operands {env : RunEnv D} {withId : Bool} (h : Popped m₀ m 0 p)
    (hr : m.opFork env withId = some r) :
    ∃ time vid m₁, m₀.top.rtStack = time :: m₁.top.rtStack ∧
      Popped m₀ m₁ 1 (p + m₀.top.bc.numbytesFork + if withId then
        m₀.top.bc.numbytesVarName else 0) ∧
      (if time.isNumber then m₁.forkAfter env time vid else m₁.raiseError .E_TYPE fun m =>
        m.forkAfter env time vid) = some r := by
  obtain ⟨⟨time, m₁⟩, hpop, hr⟩ := Option.bind_eq_some_iff.mp hr
  obtain ⟨⟨x, m₂⟩, hread, hr⟩ := Option.bind_eq_some_iff.mp hr
  obtain ⟨⟨vid, m₃⟩, hvid, hr⟩ := Option.bind_eq_some_iff.mp hr
  obtain ⟨h₁, hstack⟩ := h.pop hpop
  rw [h₁.bc] at hread
  have h₂ := (h₁.readBytes hread).1
  rw [h.rtStack, List.drop_zero] at hstack
  have hstack₂ : m₂.top.rtStack = m₁.top.rtStack := by rw [h₂.rtStack, h₁.rtStack]
  cases withId with
  | false =>
    cases hvid
    exact ⟨time, none, m₂, by rw [hstack, hstack₂], h₂, hr⟩
  | true =>
    obtain ⟨⟨id, m₃⟩, hread', heq⟩ := Option.map_eq_some_iff.mp hvid
    cases heq
    rw [h₂.bc] at hread'
    have h₃ := (h₂.readBytes hread').1
    exact ⟨time, some id, m₃, by rw [hstack, h₃.rtStack, h₁.rtStack], h₃, hr⟩

/-- A fork is clean unless it takes place although its time is no number. -/
theorem opFork_clean_iff {env : RunEnv D} {withId : Bool} (h : Popped m₀ m 0 p)
    (hr : m.opFork env withId = some r) :
    CleanEnd m₀ (some ⟨1, false, p + m₀.top.bc.numbytesFork + if withId then
      m₀.top.bc.numbytesVarName else 0⟩) r ↔
      ¬ (m₀.top.debug = false ∧ (∃ time s, m₀.top.rtStack = time :: s ∧ time.isNumber = false ∧
        env.negative time = false) ∧
        m₀.BelowLimit) := by
  obtain ⟨time, vid, m₁, hstack, h₁, hr⟩ := opFork_operands h hr
  have hlimit : m₁.BelowLimit ↔ m₀.BelowLimit :=
    belowLimit_congr h₁.server h₁.tasks (by rw [h₁.top])
  cases hnum : time.isNumber with
  | true =>
    rw [hnum, if_pos rfl] at hr
    refine iff_of_true (forkAfter_clean h₁ hr) ?_
    rintro ⟨-, ⟨time', s, hstack', hnum', -⟩, -⟩
    rw [hstack] at hstack'
    cases hstack'
    rw [hnum] at hnum'
    cases hnum'
  | false =>
    have hneg : negativeTime env time = env.negative time := by
      cases time <;> first | rfl | cases hnum
    rw [hnum, if_neg Bool.false_ne_true] at hr
    cases hd : m₀.top.debug with
    | true =>
      refine iff_of_true (h₁.failing.raiseError hr fun r' hd' _ => ?_) fun hanyway =>
        Bool.false_ne_true hanyway.1.symm
      rw [hd] at hd'
      cases hd'
    | false =>
      have hd₁ : m₁.top.debug = false := h₁.debug.trans hd
      -- no debug bit: the error is noted, and the instruction runs on into the fork
      unfold raiseError at hr
      rw [if_neg (by rw [hd₁]; decide)] at hr
      obtain ⟨r', hr', rfl⟩ := Option.map_eq_some_iff.mp hr
      have hclean : r'.next = .opcode m₁ → CleanEnd m₀
          (some ⟨1, false, p + m₀.top.bc.numbytesFork + if withId then
            m₀.top.bc.numbytesVarName else 0⟩)
          { r' with detected := some .E_TYPE } := by
        intro hnext e he
        simp only [hnext]
        exact ⟨hd, h₁.failing.unharmed, _, rfl, h₁.pc, h₁.rtStack⟩
      rcases forkAfter_cases hd₁ hr' with ⟨hyes, hnext⟩ | ⟨hfull, hnext⟩ | ⟨hno, hbelow,
        m', hnext, htasks⟩
      · refine iff_of_true (hclean hnext) ?_
        rintro ⟨-, ⟨time', s, hstack', -, hneg'⟩, -⟩
        rw [hstack] at hstack'
        cases hstack'
        rw [hneg, hneg'] at hyes
        cases hyes
      · exact iff_of_true (hclean hnext) fun hanyway => hfull (hlimit.mpr hanyway.2.2)
      · refine iff_of_false (fun hend => ?_) fun hnot =>
          hnot ⟨rfl, ⟨time, _, hstack, hnum, hneg ▸ hno⟩, hlimit.mp hbelow⟩
        have hend' := hend .E_TYPE rfl
        simp only [hnext] at hend'
        exact htasks (hend'.2.1.tasks.trans h₁.tasks.symm)

theorem suspendTask_error {proc : SuspendProc} (h : Popped m₀ m k p)
    (hr : suspendTask proc m = some (e, m'))
    (he : e ≠ .E_NONE) : Popped m₀ m' k p := by
  cases proc with
  | enqueueSuspendedTask startTv =>
    obtain ⟨property, -, hr⟩ := Option.bind_eq_some_iff.mp hr
    obtain ⟨serverOption, -, hr⟩ := Option.bind_eq_some_iff.mp hr
    unfold Task.Tasks.enqueueSuspendedTask at hr
    dsimp only at hr
    split at hr
    · cases hr
      exact absurd rfl he
    · cases hr
      exact h
  | makeReadingTask connection =>
    unfold suspendTask Task.Tasks.makeReadingTask at hr
    dsimp only at hr
    split at hr
    · cases hr
      exact h
    · split at hr
      · cases hr
        exact h
      · cases hr
        exact absurd rfl he

theorem opCallVerb_clean {env : RunEnv D} (h : Popped m₀ m k p) (hr : m.opCallVerb env = some r) :
    CleanEnd m₀ (some ⟨k + 3, true, p⟩) r := by
  obtain ⟨⟨args, m₁⟩, hpop₁, hr⟩ := Option.bind_eq_some_iff.mp hr
  obtain ⟨⟨verb, m₂⟩, hpop₂, hr⟩ := Option.bind_eq_some_iff.mp hr
  obtain ⟨⟨obj, m₃⟩, hpop₃, hr⟩ := Option.bind_eq_some_iff.mp hr
  have h₃ := (((h.pop hpop₁).1.pop hpop₂).1.pop hpop₃).1
  obtain ⟨called, -, hr⟩ := Option.bind_eq_some_iff.mp hr
  split at hr
  · exact h₃.failing.pushError hr
  · split at hr
    · exact h₃.failing.pushError hr
    · obtain ⟨⟨err, m₄⟩, hcall, hr⟩ := Option.bind_eq_some_iff.mp hr
      split at hr
      · exact next_clean hr
      · next hne he =>
        cases he
        exact (callVerb2_error h₃ hcall hne).pushError hr

theorem opBiFuncCall_clean {env : RunEnv D} (h : Popped m₀ m k p)
    (hr : m.opBiFuncCall env = some r) :
    CleanEnd m₀ (some ⟨k + 1, true, p + 1⟩) r := by
  obtain ⟨⟨id, m₁⟩, hread, hr⟩ := Option.bind_eq_some_iff.mp hr
  obtain ⟨⟨args, m₂⟩, hpop, hr⟩ := Option.bind_eq_some_iff.mp hr
  have h₂ := ((h.readBytes hread).1.pop hpop).1
  dsimp only at hr
  split at hr
  · obtain ⟨⟨m₃, pack⟩, hcall, hr⟩ := Option.bind_eq_some_iff.mp hr
    cases pack with
    | ret v => exact next_clean hr
    | raise code msg value =>
      dsimp only at hr
      split at hr
      · cases hr
        exact cleanEnd_of_none rfl
      · exact next_clean hr
    | call data pc => exact next_clean hr
    | suspend proc =>
      rw [env.suspends hcall] at hr
      obtain ⟨⟨e, m₄⟩, hsus, hr⟩ := Option.bind_eq_some_iff.mp hr
      split at hr
      · cases hr
        exact cleanEnd_of_none rfl
      · next hne he =>
        cases he
        exact (suspendTask_error h₂ hsus hne).failing.pushError hr
    | kill =>
      cases hr
      exact cleanEnd_of_none rfl
  · exact h₂.failing.pushError hr

theorem eopScatter_clean (h : Popped m₀ m k p) (hr : m.eopScatter = some r) :
    CleanEnd m₀ (some ⟨k + 1, true, NuMoo.readBytes m₀.top.bc.vector
      (p + 3 + NuMoo.readBytes m₀.top.bc.vector p 1 *
        (m₀.top.bc.numbytesVarName + m₀.top.bc.numbytesLabel))
      m₀.top.bc.numbytesLabel⟩) r := by
  obtain ⟨⟨nargs, m₁⟩, hread₁, hr⟩ := Option.bind_eq_some_iff.mp hr
  obtain ⟨⟨nreq, m₂⟩, hread₂, hr⟩ := Option.bind_eq_some_iff.mp hr
  obtain ⟨⟨rest, m₃⟩, hread₃, hr⟩ := Option.bind_eq_some_iff.mp hr
  obtain ⟨h₁, rfl⟩ := h.readBytes hread₁
  have h₃ := ((h₁.readBytes hread₂).1.readBytes hread₃).1
  obtain ⟨v, -, hr⟩ := Option.bind_eq_some_iff.mp hr
  dsimp only at hr
  split at hr
  · next e _ =>
    obtain ⟨⟨v', m₄⟩, hpop, hr⟩ := Option.bind_eq_some_iff.mp hr
    have h₄ := (h₃.pop hpop).1
    refine h₄.failing.raiseError hr fun r' _ hr' => ?_
    obtain ⟨⟨done, m₅⟩, hdone, hr'⟩ := Option.bind_eq_some_iff.mp hr'
    cases hr'
    unfold Machine.readBytes at hdone
    split at hdone
    · cases hdone
      -- The operands are passed over with the error code on the stack.
      refine ⟨_, rfl, { h₄.failing.unharmed with }, _, rfl, ?_, ?_⟩
      · simp only [Machine.jump, Machine.setTop, Machine.skipBytes, Machine.push, h₄.pc, h₄.bc]
      · simp only [Machine.jump, Machine.setTop, Machine.skipBytes, Machine.push, h₄.rtStack]
        rfl
    · cases hdone
  · obtain ⟨⟨targets, m₄⟩, -, hr⟩ := Option.bind_eq_some_iff.mp hr
    obtain ⟨⟨where_, m₅⟩, -, hr⟩ := Option.bind_eq_some_iff.mp hr
    obtain ⟨⟨done, m₆⟩, -, hr⟩ := Option.bind_eq_some_iff.mp hr
    exact next_clean hr
  · cases hr

theorem eopEndCatch_clean (hr : m.eopEndCatch = some r) : CleanEnd m₀ f r := by
  obtain ⟨⟨v, m₁⟩, -, hr⟩ := Option.bind_eq_some_iff.mp hr
  obtain ⟨m₂, -, hr⟩ := Option.bind_eq_some_iff.mp hr
  exact opJump_clean hr

theorem eopEndExcept_clean (hr : m.eopEndExcept = some r) : CleanEnd m₀ f r := by
  obtain ⟨m₁, -, hr⟩ := Option.bind_eq_some_iff.mp hr
  exact opJump_clean hr

theorem eopEndFinally_clean (hr : m.eopEndFinally = some r) : CleanEnd m₀ f r := by
  obtain ⟨⟨v, m₁⟩, -, hr⟩ := Option.bind_eq_some_iff.mp hr
  dsimp only at hr
  split at hr
  · exact next_clean hr
  · cases hr

theorem eopContinue_clean (hr : m.eopContinue = some r) : CleanEnd m₀ f r := by
  obtain ⟨⟨v, m₁⟩, -, hr⟩ := Option.bind_eq_some_iff.mp hr
  obtain ⟨⟨why, m₂⟩, -, hr⟩ := Option.bind_eq_some_iff.mp hr
  dsimp only at hr
  split at hr
  · split at hr
    · exact next_clean hr
    · cases hr
      exact cleanEnd_of_none rfl
    · cases hr
  · cases hr

theorem eopWhileId_clean (hr : m.eopWhileId = some r) : CleanEnd m₀ f r := by
  obtain ⟨⟨id, m₁⟩, -, hr⟩ := Option.bind_eq_some_iff.mp hr
  obtain ⟨v, -, hr⟩ := Option.bind_eq_some_iff.mp hr
  obtain ⟨m₂, -, hr⟩ := Option.bind_eq_some_iff.mp hr
  exact doTest_clean hr

theorem eopExit_clean (hr : m.eopExit = some r) : CleanEnd m₀ f r := by
  obtain ⟨⟨stack, m₁⟩, -, hr⟩ := Option.bind_eq_some_iff.mp hr
  obtain ⟨⟨lab, m₂⟩, -, hr⟩ := Option.bind_eq_some_iff.mp hr
  cases hr
  exact cleanEnd_of_none rfl

theorem opReturn_clean (hr : m.opReturn = some r) : CleanEnd m₀ f r := by
  obtain ⟨⟨v, m₁⟩, -, hr⟩ := Option.bind_eq_some_iff.mp hr
  cases hr
  exact cleanEnd_of_none rfl

theorem eopPushLabel_clean {wrap : Int → Var} (hr : m.eopPushLabel wrap = some r) :
    CleanEnd m₀ f r := by
  obtain ⟨⟨lab, m₁⟩, -, hr⟩ := Option.bind_eq_some_iff.mp hr
  exact next_clean hr

theorem eopTryExcept_clean (hr : m.eopTryExcept = some r) : CleanEnd m₀ f r := by
  obtain ⟨⟨n, m₁⟩, -, hr⟩ := Option.bind_eq_some_iff.mp hr
  exact next_clean hr

/-! ## The switch -/

theorem runExtended_clean {env : RunEnv D} {eop : ExtendedOpcode} (h : Popped m₀ m 0 p)
    (hr : m.runExtended env eop = some r) :
    CleanEnd m₀ (Ending.ofExtended m₀.top.bc eop p) r := by
  cases eop with
  | EOP_RANGESET => exact eopRangeSet_clean h hr
  | EOP_LENGTH => exact eopLength_clean h hr
  | EOP_EXP =>
    exact opBinary_clean (g := fun lhs rhs => (doPower env.floats.toFloatEnv lhs rhs).map
      ofErrVar) h hr
  | EOP_SCATTER => exact eopScatter_clean h hr
  | EOP_PUSH_LABEL => exact eopPushLabel_clean hr
  | EOP_TRY_FINALLY => exact eopPushLabel_clean hr
  | EOP_CATCH => exact next_clean hr
  | EOP_TRY_EXCEPT => exact eopTryExcept_clean hr
  | EOP_END_CATCH => exact eopEndCatch_clean hr
  | EOP_END_EXCEPT => exact eopEndExcept_clean hr
  | EOP_END_FINALLY => exact eopEndFinally_clean hr
  | EOP_CONTINUE => exact eopContinue_clean hr
  | EOP_WHILE_ID => exact eopWhileId_clean hr
  | EOP_EXIT => exact eopExit_clean hr
  | EOP_EXIT_ID => exact eopExit_clean hr

theorem readByte_eq (h : Popped m₀ m k p) (hr : m.readBytes 1 = some (x, m')) :
    m₀.top.bc.vector[p]? = some (UInt8.ofNat x) := by
  unfold Machine.readBytes at hr
  split at hr
  · next hlen =>
    cases hr
    rw [h.pc, h.bc] at *
    rw [NuMoo.readBytes, List.drop_eq_getElem_cons hlen, List.take_succ_cons, List.take_zero,
      List.foldl_cons, List.foldl_nil,
      Nat.zero_mul, Nat.zero_add, UInt8.ofNat_toNat]
    exact List.getElem?_eq_getElem hlen
  · cases hr

theorem opExtended_clean {env : RunEnv D} (h : Popped m₀ m 0 p) (hr : m.opExtended env = some r) :
    CleanEnd m₀ (Ending.ofOpcode m₀.top.bc .OP_EXTENDED p) r := by
  obtain ⟨⟨b, m₁⟩, hread, hr⟩ := Option.bind_eq_some_iff.mp hr
  obtain ⟨eop, heop, hr⟩ := Option.bind_eq_some_iff.mp hr
  have hbyte := readByte_eq h hread
  have h₁ := (h.readBytes hread).1
  have h₂ : Popped m₀ (if countEopTick eop then { m₁ with ticksRemaining := m₁.ticksRemaining - 1 }
    else m₁) 0 (p + 1) := by
    split
    · exact ⟨h₁.server, h₁.tasks, h₁.rest, h₁.top⟩
    · exact h₁
  have hend : Ending.ofOpcode m₀.top.bc .OP_EXTENDED p =
      Ending.ofExtended m₀.top.bc eop (p + 1) := by
    simp only [Ending.ofOpcode, hbyte, Option.bind_some, heop]
  rw [hend]
  exact runExtended_clean h₂ hr

/-- Every instruction but the two forks. -/
theorem runOpcode_clean {env : RunEnv D} {op : Opcode} (h : Popped m₀ m 0 p) (hop : op ≠ .OP_FORK)
    (hop' : op ≠ .OP_FORK_WITH_ID)
    (hr : m.runOpcode env op = some r) : CleanEnd m₀ (Ending.ofOpcode m₀.top.bc op p) r := by
  cases op with
  | OP_FORK => exact absurd rfl hop
  | OP_FORK_WITH_ID => exact absurd rfl hop'
  | OP_IF | OP_IF_QUES | OP_WHILE | OP_EIF => exact doTest_clean hr
  | OP_JUMP => exact opJump_clean hr
  | OP_FOR_LIST => exact opForList_clean h hr
  | OP_FOR_RANGE => exact opForRange_clean h hr
  | OP_POP =>
    obtain ⟨x, -, hr⟩ := Option.bind_eq_some_iff.mp hr
    exact next_clean hr
  | OP_IMM => exact opImm_clean hr
  | OP_MAKE_EMPTY_LIST => exact next_clean hr
  | OP_LIST_ADD_TAIL => exact opBinary_clean (g := total addTail) h hr
  | OP_LIST_APPEND => exact opBinary_clean (g := total appendList) h hr
  | OP_INDEXSET => exact opIndexSet_clean h hr
  | OP_MAKE_SINGLETON_LIST => exact opUnary_clean (g := fun v => .ok (.list [v])) h hr
  | OP_CHECK_LIST_FOR_SPLICE => exact opCheckListForSplice_clean h hr
  | OP_PUT_TEMP => exact opPutTemp_clean hr
  | OP_PUSH_TEMP => exact next_clean hr
  | OP_EQ =>
    exact opBinary_clean (g := total fun lhs rhs => .ok (.ofBool (equality false rhs lhs))) h hr
  | OP_NE =>
    exact opBinary_clean (g := total fun lhs rhs => .ok (.ofBool (!equality false rhs lhs))) h hr
  | OP_LT => exact opBinary_clean (g := comparing env.floats fun c => c < 0) h hr
  | OP_LE => exact opBinary_clean (g := comparing env.floats fun c => c ≤ 0) h hr
  | OP_GT => exact opBinary_clean (g := comparing env.floats fun c => c > 0) h hr
  | OP_GE => exact opBinary_clean (g := comparing env.floats fun c => c ≥ 0) h hr
  | OP_IN => exact opBinary_clean (g := membership) h hr
  | OP_MULT => exact opBinary_clean (g := arithmetic (total (doMultiply env.floats))) h hr
  | OP_MINUS => exact opBinary_clean (g := arithmetic (total (doSubtract env.floats))) h hr
  | OP_DIV => exact opBinary_clean (g := arithmetic (doDivide env.floats)) h hr
  | OP_MOD => exact opBinary_clean (g := arithmetic (doModulus env.floats)) h hr
  | OP_ADD => exact opBinary_clean (g := total (addition env.floats)) h hr
  | OP_AND | OP_OR => exact opLogical_clean hr
  | OP_NOT => exact opUnary_clean (g := fun v => .ok (.ofBool (!isTrue v))) h hr
  | OP_UNARY_MINUS => exact opUnary_clean (g := negation) h hr
  | OP_REF => exact opRef_clean h hr
  | OP_PUSH_REF => exact opPushRef_clean h hr
  | OP_RANGE_REF => exact opRangeRef_clean h hr
  | OP_G_PUT => exact opGPut_clean hr
  | OP_G_PUSH => exact opGPush_clean h hr
  | OP_GET_PROP => exact opGetProp_clean h hr
  | OP_PUSH_GET_PROP => exact opPushGetProp_clean h hr
  | OP_PUT_PROP => exact opPutProp_clean h hr
  | OP_CALL_VERB => exact opCallVerb_clean h hr
  | OP_RETURN => exact opReturn_clean hr
  | OP_RETURN0 | OP_DONE =>
    cases hr
    exact cleanEnd_of_none rfl
  | OP_BI_FUNC_CALL => exact opBiFuncCall_clean h hr
  | OP_EXTENDED => exact opExtended_clean h hr
  | OP_PUSH n => exact pushVar_clean h hr
  | OP_PUT n => exact opPut_clean hr
  | OPTIM_NUM i => exact next_clean hr

/-! ## A turn of the loop -/

theorem fetch_spec {op : Opcode} (hr : m.fetch = some (op, m')) :
    ∃ b, m.top.bc.vector[m.top.pc]? = some b ∧ op = Opcode.ofByte b ∧
      Popped m m' 0 (m.top.pc + 1) := by
  obtain ⟨b, hb, heq⟩ := Option.map_eq_some_iff.mp hr
  cases heq
  exact ⟨b, hb, rfl, rfl, rfl, rfl, rfl⟩

theorem fork_counts_tick {op : Opcode} (hop : op = .OP_FORK ∨ op = .OP_FORK_WITH_ID) :
    countTick op = true := by
  rcases hop with rfl | rfl <;> decide

/-- The instruction that a turn runs, unless the ticks have run out. -/
theorem step_cases {env : RunEnv D} (hr : step env m = some r) :
    ∃ b m', m.top.bc.vector[m.top.pc]? = some b ∧ Popped m m' 0 (m.top.pc + 1) ∧
      ((countTick (Opcode.ofByte b) = true ∧ (m.ticksRemaining - 1 ≤ 0 ∨ m.taskTimedOut = true) ∧
        r.detected = none) ∨
        (¬ (countTick (Opcode.ofByte b) = true ∧
          (m.ticksRemaining - 1 ≤ 0 ∨ m.taskTimedOut = true)) ∧
          m'.runOpcode env (Opcode.ofByte b) = some r)) := by
  obtain ⟨⟨op, m₁⟩, hfetch, hr⟩ := Option.bind_eq_some_iff.mp hr
  obtain ⟨b, hb, rfl, h⟩ := fetch_spec hfetch
  have hticks : m₁.ticksRemaining = m.ticksRemaining ∧ m₁.taskTimedOut = m.taskTimedOut := by
    obtain ⟨b', -, heq⟩ := Option.map_eq_some_iff.mp hfetch
    obtain ⟨-, rfl⟩ := Prod.mk.inj heq
    exact ⟨rfl, rfl⟩
  dsimp only at hr
  split at hr
  · next hcount =>
    have h' : Popped m { m₁ with ticksRemaining := m₁.ticksRemaining - 1 } 0 (m.top.pc + 1) :=
      ⟨h.server, h.tasks, h.rest, h.top⟩
    refine ⟨b, _, hb, h', ?_⟩
    split at hr
    · next habort =>
      cases hr
      exact .inl ⟨hcount, hticks.1 ▸ hticks.2 ▸ habort, rfl⟩
    · next habort => exact .inr ⟨fun hboth => habort (hticks.1.symm ▸ hticks.2.symm ▸ hboth.2), hr⟩
  · next hcount => exact ⟨b, m₁, hb, h, .inr ⟨fun hboth => hcount hboth.1, hr⟩⟩

end Machine

/-! ## A fork after a time that is a string -/

section Fork

/-- The vector with the bytes and operands of a single byte. -/
def byteVector (bytes : List UInt8) : Bytecodes where
  numbytesLabel := 1
  numbytesLiteral := 1
  numbytesFork := 1
  numbytesVarName := 1
  numbytesStack := 1
  vector := bytes
  size := bytes.length
  maxStack := 1

/-- A verb of `#0` without the debug bit that runs the bytes on the stack. -/
def undebugged (bytes : List UInt8) (s : List Var) : Machine Unit :=
  Machine.bare (byteVector bytes) 0 false (List.replicate 18 .none) s

/-- `fork ("x")` -/
def forkString : Machine Unit :=
  undebugged [Opcode.OP_FORK.toByte, 0, Opcode.OP_DONE.toByte] [.str [120]]

/-- A variable without a value. -/
def pushUnset : Machine Unit := undebugged [(Opcode.OP_PUSH 3).toByte, Opcode.OP_DONE.toByte] []

end Fork

end NuMoo.Exec
