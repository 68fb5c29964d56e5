import NuMoo.Code.Scatter
import NuMoo.Exec.Run
import NuMoo.Lib.Distribute

/-!
# Scattering assignment

What `EOP_SCATTER` does with the list on top of the stack, in the code that `generate_expr` emits
for a scattering assignment.

Results:
1. `Machine.scatterLoop_eq`: the loop over the targets divides the list among them.
2. `follows_of_chained`: the defaults are evaluated and assigned one after the other.
3. `scatters_iff`: the assignment does what it ought to, but for a long list with 255 targets and no
   `@`, and where the slot of a target has been cut.
-/

namespace NuMoo.Exec

open CodeGen (Block BlocksAt Room SlotFits countTargets cutTargets cutTargets_eq slots vetScatter)
open Distribute (Arity Splits distribute need spareOf)

variable {D : Type}

/-! ## Targets -/

/-- A target, with the code of its default. -/
inductive Target where
  | required (id : Nat)
  | optional (id : Nat) (expr : Option Block)
  | rest (id : Nat)
deriving DecidableEq, Repr

namespace Target

def id : Target → Nat
  | required id | optional id _ | rest id => id

def arity : Target → Arity
  | required _ => .one
  | optional _ _ => .opt
  | rest _ => .many

/-- The label operand. -/
def label : Target → Nat
  | optional _ (some b) => b.start
  | optional _ none => 1
  | _ => 0

/-- A target is given its part of the list. -/
def store (part : List Var) (env : List Var) : Target → List Var
  | rest id => env.set id (.list part)
  | required id | optional id _ =>
    match part with
    | v :: _ => env.set id v
    | [] => env

/-- The default that is needed if the target is given the part. -/
def unfilled (part : List Var) : Target → Option Block
  | optional _ (some b) => if part = [] then some b else none
  | _ => none

/-- The default. -/
def block : Target → Option Block
  | optional _ expr => expr
  | _ => none

end Target

/-- The target with its slot cut to a width. -/
def Target.cut (width : Nat) : Target → Target
  | required id => required (id % 256 ^ width)
  | optional id expr => optional (id % 256 ^ width) expr
  | rest id => rest (id % 256 ^ width)

/-- The targets of a scatter, with the code of their defaults. -/
def targetsOf : Scatter → List Block → List Target
  | .nil, _ => []
  | .cons .required id _ next, blocks => .required id :: targetsOf next blocks
  | .cons .rest id _ next, blocks => .rest id :: targetsOf next blocks
  | .cons .optional id .none next, blocks => .optional id none :: targetsOf next blocks
  | .cons .optional id (.some _) next, blocks =>
    .optional id blocks.head? :: targetsOf next blocks.tail

/-- How many elements the targets take. -/
def arities : Scatter → List Arity
  | .nil => []
  | .cons .required _ _ next => .one :: arities next
  | .cons .rest _ _ next => .many :: arities next
  | .cons .optional _ _ next => .opt :: arities next

/-- Each target is given its part. -/
def storeParts (targets : List Target) (parts : List (List Var)) (env : List Var) : List Var :=
  (targets.zip parts).foldl (fun env x => x.1.store x.2 env) env

/-- The defaults of the targets that are given nothing. -/
def pending (targets : List Target) (parts : List (List Var)) : List Block :=
  (targets.zip parts).filterMap fun x => x.1.unfilled x.2

/-! ## Runs -/

/-- One turn of the loop of `run()`; `unwound` is what `raise_error` and `unwind_stack` make of
where an instruction has led. -/
inductive Turn (env : RunEnv D) (unwound : Next D → Machine D → Prop) : Machine D → Machine D → Prop
  | opcode {d : Option ErrCode} {m m' : Machine D} : m.step env = some ⟨d, .opcode m'⟩ →
      Turn env unwound m m'
  | unwound {d : Option ErrCode} {n : Next D} {m m' : Machine D} :
      m.step env = some ⟨d, n⟩ → unwound n m' →
      Turn env unwound m m'

/-- Any number of turns. -/
def Reaches (env : RunEnv D) (unwound : Next D → Machine D → Prop) : Machine D → Machine D → Prop :=
  Relation.ReflTransGen (Turn env unwound)

/-- From the beginning of its code to the end of it an expression has been evaluated, and its value
is on top of the stack. -/
structure Evaluated (env : RunEnv D) (unwound : Next D → Machine D → Prop) (m m' : Machine D)
    (p : Nat) (v : Var) : Prop where
  run : Reaches env unwound m m'
  pc : m'.top.pc = p
  rtStack : m'.top.rtStack = v :: m.top.rtStack
  bc : m'.top.bc = m.top.bc
  length : m'.top.rtEnv.length = m.top.rtEnv.length
  rest : m'.rest = m.rest

/-- Nothing but a variable of the activation, the pc and the stack has changed. -/
structure Stored (id : Nat) (v : Var) (m m' : Machine D) : Prop where
  rtEnv : m'.top.rtEnv = m.top.rtEnv.set id v
  bc : m'.top.bc = m.top.bc
  temp : m'.top.temp = m.top.temp
  server : m'.server = m.server
  tasks : m'.tasks = m.tasks
  rest : m'.rest = m.rest

/-- The ticks last for one more instruction. -/
def Machine.HasTicks (m : Machine D) : Prop := 1 < m.ticksRemaining ∧ m.taskTimedOut = false

/-- From a machine on the defaults are evaluated one after the other: whenever one has been, its
variable is assigned, and so on with the others, until execution is at `done` with the stack as it
was. -/
def Follows (env : RunEnv D) (unwound : Next D → Machine D → Prop) (done : Nat) (stack : List Var) :
    List Block → Machine D → Prop
  | [], m => m.top.pc = done ∧ m.top.rtStack = stack
  | b :: blocks, m => m.top.pc = b.start ∧ m.top.rtStack = stack ∧
    ∀ m' v, Evaluated env unwound m m' b.value v → m'.HasTicks →
      ∃ m'', Reaches env unwound m' m'' ∧ Stored b.id v m' m'' ∧
      Follows env unwound done stack blocks m''

/-- The instruction at the pc detects an error. -/
def Machine.Detects (env : RunEnv D) (m : Machine D) (e : ErrCode) : Prop :=
  ∃ r, m.step env = some r ∧ r.detected = some e

/-- What a scattering assignment of a value ought to do; the machine is at `EOP_SCATTER` with the
value on top of its stack. -/
structure Scatters (env : RunEnv D) (unwound : Next D → Machine D → Prop) (targets : List Target)
    (done : Nat) (m : Machine D)
    (v : Var) (s : List Var) : Prop where
  typeError : m.Detects env .E_TYPE ↔ ∀ l, v ≠ .list l
  argsError : m.Detects env .E_ARGS ↔ ∃ l, v = .list l ∧
    (l.length < (targets.map Target.arity).count .one ∨
    (.many ∉ targets.map Target.arity ∧ targets.length < l.length))
  assigns : ∀ l, v = .list l → (targets.map Target.arity).count .one ≤ l.length →
    (.many ∈ targets.map Target.arity ∨ l.length ≤ targets.length) →
    ∃ parts m', Splits (targets.map Target.arity) l parts ∧ m.step env = some ⟨none, .opcode m'⟩ ∧
      m'.top.rtEnv = storeParts targets parts m.top.rtEnv ∧ m'.server = m.server ∧
      m'.tasks = m.tasks ∧ m'.rest = m.rest ∧
      Follows env unwound done (v :: s) (pending targets parts) m'

/-! ## Reading the code -/

variable {bc : Bytecodes} {m m' : Machine D} {env : RunEnv D} {unwound : Next D → Machine D → Prop}
    {p q r : Nat} {v : Var}
  {s : List Var}

namespace Machine

@[simp] theorem jump_top (m : Machine D) (p : Nat) : (m.jump p).top = { m.top with pc := p } := rfl

@[simp] theorem jump_jump (m : Machine D) (p q : Nat) : (m.jump p).jump q = m.jump q := rfl

/-- The variables of the top activation are replaced. -/
def withEnv (rtEnv : List Var) (m : Machine D) : Machine D :=
  m.setTop fun a => { a with rtEnv := rtEnv }

theorem putVar_eq {id : Nat} (h : id < m.top.rtEnv.length) (v : Var) :
    m.putVar id v = some (m.withEnv (m.top.rtEnv.set id v)) := by
  rw [putVar, if_pos h]
  rfl

theorem readBytes_operand {kind : FixupKind} {value : Nat} (h : bc.OperandAt kind p value)
    (hbc : m.top.bc = bc) (hpc : m.top.pc = p) :
    m.readBytes (bc.width kind) = some (value, m.jump (p + bc.width kind)) := by
  rw [Machine.readBytes, hbc, hpc, if_pos h.inside, h.reads]

theorem readBytes_byte {b : UInt8} (h : bc.ByteAt p b) (hbc : m.top.bc = bc) (hpc : m.top.pc = p) :
    m.readBytes 1 = some (b.toNat, m.jump (p + 1)) := by
  obtain ⟨hlt, hb⟩ := List.getElem?_eq_some_iff.mp h
  rw [Machine.readBytes, hbc, hpc, if_pos (Nat.succ_le_of_lt hlt), NuMoo.readBytes,
    List.drop_eq_getElem_cons hlt, List.take_succ_cons, List.take_zero,
    hb]
  simp

/-- The machine that has read the opcode. -/
def fetched (m : Machine D) : Machine D :=
  m.setTop fun a => { a with errorPc := a.pc, pc := a.pc + 1 }

theorem fetch_op {op : Opcode} (h : bc.OpAt p op) (hop : op.Encodable) (hbc : m.top.bc = bc)
    (hpc : m.top.pc = p) :
    m.fetch = some (op, m.fetched) := by
  rw [fetch, hbc, hpc, h, Option.map_some, Opcode.ofByte_toByte hop]
  rfl

/-- An instruction that counts no tick. -/
theorem step_op {op : Opcode} (h : bc.OpAt p op) (hop : op.Encodable)
    (hcount : countTick op = false) (hbc : m.top.bc = bc)
    (hpc : m.top.pc = p) : m.step env = m.fetched.runOpcode env op := by
  rw [step, fetch_op h hop hbc hpc]
  simp [hcount]

/-- An instruction that counts a tick, of which there are some left. -/
theorem step_tick {op : Opcode} (h : bc.OpAt p op) (hop : op.Encodable)
    (hcount : countTick op = true) (hticks : m.HasTicks)
    (hbc : m.top.bc = bc) (hpc : m.top.pc = p) :
    m.step env = runOpcode env op { m.fetched with ticksRemaining := m.ticksRemaining - 1 } := by
  rw [step, fetch_op h hop hbc hpc]
  have hlast : ¬ (m.ticksRemaining - 1 ≤ 0 ∨ m.taskTimedOut = true) := by
    rintro (hle | htimed)
    · exact absurd hticks.1 (by omega)
    · rw [hticks.2] at htimed
      cases htimed
  have hlast' : ¬ (m.fetched.ticksRemaining - 1 ≤ 0 ∨ m.fetched.taskTimedOut = true) := hlast
  simp only [Option.bind_eq_bind, Option.bind_some, hcount, if_true, if_neg hlast']
  rfl

/-- An extended instruction. -/
theorem step_eop {eop : ExtendedOpcode} (h : bc.EopAt p eop) (hbc : m.top.bc = bc)
    (hpc : m.top.pc = p) :
    ∃ m' : Machine D, m.step env = m'.runExtended env eop ∧
      m'.top = { m.top with pc := p + 2, errorPc := p } ∧ m'.server = m.server ∧
      m'.tasks = m.tasks ∧ m'.rest = m.rest := by
  have hread := readBytes_byte h.2 (m := m.fetched) hbc (by rw [← hpc]; rfl)
  have hstep : m.step env = runExtended env eop
      (if countEopTick eop then
        { m.fetched.jump (p + 1 + 1) with ticksRemaining := m.ticksRemaining - 1 }
        else m.fetched.jump (p + 1 + 1)) := by
    rw [step_op h.1 trivial (by decide) hbc hpc]
    change m.fetched.opExtended env = _
    rw [opExtended, hread]
    simp only [Option.bind_eq_bind, Option.bind_some, UInt8.ofNat_toNat,
      ExtendedOpcode.ofByte_toByte]
    rfl
  refine ⟨_, hstep, ?_⟩
  have htop : (m.fetched.jump (p + 1 + 1)).top = { m.top with pc := p + 2, errorPc := p } := by
    rw [← hpc]
    rfl
  split
  · exact ⟨htop, rfl, rfl, rfl⟩
  · exact ⟨htop, rfl, rfl, rfl⟩

end Machine

/-! ## The operands -/

theorem length_arities (targets : Scatter) : (arities targets).length = targets.length := by
  cases targets with
  | nil => rfl
  | cons kind id expr next => cases kind <;> exact congrArg (· + 1) (length_arities next)

theorem arities_targetsOf (targets : Scatter) (blocks : List Block) :
    (targetsOf targets blocks).map Target.arity = arities targets := by
  cases targets with
  | nil => rfl
  | cons kind id expr next =>
    cases kind with
    | required | rest => exact congrArg (_ :: ·) (arities_targetsOf next blocks)
    | optional => cases expr <;> exact congrArg (_ :: ·) (arities_targetsOf next _)

/-- The number of the target that takes the rest, by induction on the targets: it is the only
one. -/
theorem countTargets_eq (targets : Scatter) (n k : Nat) (rest : Option Nat)
    (hmany : (arities targets).count .many ≤ 1) :
    countTargets targets n k rest = (n + (arities targets).length, k + (arities targets).count .one,
      if .many ∈ arities targets then some (n + (arities targets).idxOf .many + 1) else rest) := by
  cases targets with
  | nil => simp [countTargets, arities]
  | cons kind id expr next =>
    cases kind with
    | required =>
      have hnext := countTargets_eq next (n + 1) (k + 1) rest (by simpa [arities] using hmany)
      simp [countTargets, arities, hnext, Nat.add_assoc, Nat.add_comm]
    | optional =>
      have hnext := countTargets_eq next (n + 1) k rest (by simpa [arities] using hmany)
      simp [countTargets, arities, hnext, Nat.add_assoc, Nat.add_comm]
    | rest =>
      have hnone : Arity.many ∉ arities next :=
        List.count_eq_zero.mp (by simpa [arities] using hmany)
      have hnext := countTargets_eq next (n + 1) k (some (n + 1))
        (by rw [List.count_eq_zero.mpr hnone]; exact Nat.zero_le 1)
      simp [countTargets, arities, hnext, hnone, Nat.add_assoc, Nat.add_comm]

/-- The target that takes the rest is where its number says. -/
theorem idxOf_iff {as : List Arity} (hmany : as.count .many ≤ 1) (hmem : .many ∈ as) {k : Nat}
    {a : Arity} (ha : as[k]? = some a) :
    k = as.idxOf .many ↔ a = .many := by
  induction as generalizing k with
  | nil => cases hmem
  | cons b as ih =>
    cases k with
    | zero =>
      cases ha
      cases a <;> simp
    | succ k =>
      have ha' : as[k]? = some a := ha
      cases b with
      | many =>
        have hnone : Arity.many ∉ as := List.count_eq_zero.mp (by simpa using hmany)
        have hne : a ≠ .many := fun h => hnone (h ▸ List.mem_of_getElem? ha')
        simp [hne]
      | _ =>
        have hmem' : Arity.many ∈ as := by simpa using hmem
        have hiff := ih (by simpa using hmany) hmem' ha'
        simp [hiff]

/-- The pairs of operands that follow `EOP_SCATTER`, by induction on the targets. -/
theorem readTargets_eq {targets : Scatter} {blocks : List Block} {m : Machine D} {p q : Nat}
    (h : Shape.TargetsAt bc targets (blocks.map Block.start) p q) (hbc : m.top.bc = bc)
    (hpc : m.top.pc = p) :
    m.readTargets targets.length = some ((targetsOf targets blocks).map fun t => (t.id, t.label),
      m.jump q) := by
  cases targets with
  | nil =>
    obtain ⟨-, rfl⟩ := h
    rw [← hpc]
    rfl
  | cons kind id expr next =>
    have hread : ∀ {t : Target} {blocks' : List Block} {label : Nat}, bc.OperandAt .varRef p id →
        bc.OperandAt .label (p + bc.numbytesVarName) label → t.id = id → t.label = label →
        Shape.TargetsAt bc next (blocks'.map Block.start)
          (p + bc.numbytesVarName + bc.numbytesLabel) q →
        m.readTargets (next.length + 1)
          = some ((t :: targetsOf next blocks').map fun t => (t.id, t.label), m.jump q) := by
      intro t blocks' label hid hlabel ht hl hnext
      have hnext' :=
        readTargets_eq (m := m.jump (p + bc.numbytesVarName + bc.numbytesLabel)) hnext hbc rfl
      have hid' : m.readBytes m.top.bc.numbytesVarName =
          some (id, m.jump (p + bc.numbytesVarName)) := by
        rw [hbc]
        exact Machine.readBytes_operand hid hbc hpc
      have hlabel' : (m.jump (p + bc.numbytesVarName)).readBytes
          (m.jump (p + bc.numbytesVarName)).top.bc.numbytesLabel
          = some (label, m.jump (p + bc.numbytesVarName + bc.numbytesLabel)) := by
        rw [Machine.jump_top, hbc]
        exact Machine.readBytes_operand hlabel hbc rfl
      rw [Machine.readTargets, hid']
      simp only [Option.bind_eq_bind, Option.bind_some]
      rw [hlabel', Option.bind_some]
      dsimp only
      rw [hnext', Option.bind_some, List.map_cons, ht, hl]
      rfl
    cases kind with
    | required => exact hread h.1 h.2.1 rfl rfl h.2.2
    | rest => exact hread h.1 h.2.1 rfl rfl h.2.2
    | optional =>
      cases expr with
      | none => exact hread h.1 h.2.1 rfl rfl h.2.2
      | some e =>
        obtain ⟨hid, label, rest, hcons, hlabel, hnext⟩ := h
        cases blocks with
        | nil => cases hcons
        | cons b blocks =>
          obtain ⟨rfl, rfl⟩ := List.cons.inj hcons
          exact hread (t := .optional id (some b)) hid hlabel rfl rfl hnext

/-! ## The loop -/

/-- The label at which execution goes on: the first that was found, or else that of the first
default. -/
def firstLabel (where_ : Nat) (blocks : List Block) : Nat :=
  if where_ = 0 then (blocks.head?.map Block.start).getD 0 else where_

theorem pending_cons (t : Target) (targets : List Target) (part : List Var)
    (parts : List (List Var)) :
    pending (t :: targets) (part :: parts) = (t.unfilled part).toList ++ pending targets parts := by
  rw [pending, List.zip_cons_cons, List.filterMap_cons]
  cases t.unfilled part <;> rfl

theorem storeParts_cons (t : Target) (targets : List Target) (part : List Var)
    (parts : List (List Var)) (rtEnv : List Var) :
    storeParts (t :: targets) (part :: parts) rtEnv =
      storeParts targets parts (t.store part rtEnv) := rfl

/-- Where the loop is: `c` elements are consumed, and the rest of the list suffices for the targets
that are left. -/
structure Midway (list : List Var) (rest : Int) (spare : Nat) (targets : List Target)
    (c avail : Nat) (i offset : Int) : Prop where
  consumed : i + offset = c + 1
  enough : (list.drop c).length = need (targets.map Target.arity) avail spare
  restAt : ∀ (k : Nat) t, targets[k]? = some t → (i + k = rest ↔ t.arity = .many)
  filled : 0 < spare → .many ∈ targets.map Target.arity → offset = 0 ∧
    (targets.map Target.arity).count .opt ≤ avail
  one : (targets.map Target.arity).count .many ≤ 1

namespace Midway

variable {list : List Var} {rest : Int} {spare : Nat} {t : Target} {targets : List Target}
    {c avail : Nat} {i offset : Int}

/-- A target is given `n` elements. -/
theorem step (h : Midway list rest spare (t :: targets) c avail i offset) (n avail' : Nat)
    (hneed : need ((t :: targets).map Target.arity) avail spare = n +
      need (targets.map Target.arity) avail' spare)
    (hfilled : 0 < spare → .many ∈ targets.map Target.arity → offset + n - 1 = 0 ∧
      (targets.map Target.arity).count .opt ≤ avail') :
    Midway list rest spare targets (c + n) avail' (i + 1) (offset + n - 1) where
  consumed := by
    have hc := h.consumed
    push_cast
    omega
  enough := by
    have hlen := h.enough
    rw [hneed, List.length_drop] at hlen
    rw [List.length_drop]
    omega
  restAt k t' ht' := by
    rw [← h.restAt (k + 1) t' ht']
    push_cast
    omega
  filled := hfilled
  one := Nat.le_trans ((List.sublist_cons_self _ _).count_le _) h.one

theorem rest_iff (h : Midway list rest spare (t :: targets) c avail i offset) :
    i = rest ↔ t.arity = .many := by
  rw [← h.restAt 0 t rfl]
  simp

/-- The next element. -/
theorem head (h : Midway list rest spare (t :: targets) c avail i offset) {avail' : Nat}
    (hneed : need ((t :: targets).map Target.arity) avail spare = 1 +
      need (targets.map Target.arity) avail' spare) :
    ∃ x, element list (i + offset) = some x ∧ list.drop c = x :: list.drop (c + 1) := by
  have hlen := h.enough
  rw [hneed, List.length_drop] at hlen
  have hlt : c < list.length := by omega
  exact ⟨list[c], by rw [h.consumed, element_natCast, List.getElem?_eq_getElem hlt],
    List.drop_eq_getElem_cons hlt⟩

/-- The elements that the target of the rest is given. -/
theorem rest_part {id : Nat} (h : Midway list rest spare (.rest id :: targets) c avail i offset) :
    sublist list i (i + spare - 1) = some ((list.drop c).take spare) := by
  unfold sublist
  cases spare with
  | zero =>
    rw [if_pos (by push_cast; omega)]
    rfl
  | succ n =>
    have hoffset := (h.filled (Nat.succ_pos n) List.mem_cons_self).1
    have hi : i = c + 1 := by
      rw [← h.consumed, hoffset, Int.add_zero]
    have hlen := h.enough
    rw [List.length_drop, List.map_cons, Target.arity, need] at hlen
    have hcount : (i + ((n + 1 : Nat) : Int) - 1 - i + 1).toNat = n + 1 := by omega
    rw [if_neg (by push_cast; omega), hcount, hi]
    exact elements_eq list c (n + 1) (by omega)

end Midway

/-- What the loop leaves behind. -/
def dividedFrom (targets : List Target) (parts : List (List Var)) (where_ : Nat) (m : Machine D) :
    Nat × Machine D :=
  (firstLabel where_ (pending targets parts), m.withEnv (storeParts targets parts m.top.rtEnv))

theorem dividedFrom_filled {t : Target} {targets : List Target} {part : List Var}
    {parts : List (List Var)} (where_ : Nat)
    (m : Machine D) (h : t.unfilled part = none) :
    dividedFrom (t :: targets) (part :: parts) where_ m
      = dividedFrom targets parts where_ (m.withEnv (t.store part m.top.rtEnv)) := by
  rw [dividedFrom, pending_cons, h]
  rfl

theorem dividedFrom_unfilled {id : Nat} {expr : Option Block} {targets : List Target}
    {parts : List (List Var)} (where_ : Nat)
    (m : Machine D) (hstart : ∀ b, expr = some b → 2 ≤ b.start) :
    dividedFrom (.optional id expr :: targets) ([] :: parts) where_ m
      = dividedFrom targets parts (if where_ = 0 ∧ (Target.optional id expr).label ≠ 1 then
        (Target.optional id expr).label else where_)
          m := by
  rw [dividedFrom, pending_cons]
  cases expr with
  | none =>
    rw [if_neg fun h => h.2 rfl]
    rfl
  | some b =>
    have hb := hstart b rfl
    have hne : b.start ≠ 1 := Nat.ne_of_gt hb
    have hne' : b.start ≠ 0 := Nat.ne_of_gt (Nat.lt_of_succ_lt hb)
    have hlabel : firstLabel where_ (b :: pending targets parts)
        = firstLabel (if where_ = 0 ∧ b.start ≠ 1 then b.start else where_)
          (pending targets parts) := by
      by_cases hzero : where_ = 0
      · rw [if_pos ⟨hzero, hne⟩, firstLabel, if_pos hzero, firstLabel, if_neg hne']
        rfl
      · rw [if_neg fun h => hzero h.1, firstLabel, if_neg hzero, firstLabel, if_neg hzero]
    exact congrArg₂ Prod.mk hlabel rfl

/-- The loop divides the list among the targets, by induction on them. -/
theorem Machine.scatterLoop_eq {list : List Var} {rest : Int} {spare : Nat} {targets : List Target}
    {c avail : Nat} {i offset : Int}
    (h : Midway list rest spare targets c avail i offset) (where_ : Nat) (m : Machine D)
    (hids : ∀ t ∈ targets, t.id < m.top.rtEnv.length)
    (hstarts : ∀ t ∈ targets, ∀ b, t.block = some b → 2 ≤ b.start) :
    scatterLoop list rest spare (targets.map fun t => (t.id, t.label)) i avail offset where_ m
      = some (dividedFrom targets (distribute (targets.map Target.arity) avail spare (list.drop c))
        where_ m) := by
  induction targets generalizing c avail i offset where_ m with
  | nil =>
    have hlabel : firstLabel where_ [] = where_ := by
      unfold firstLabel
      split
      · next hzero => exact hzero.symm
      · rfl
    change some (where_, m) = some (firstLabel where_ [], _)
    rw [hlabel]
    rfl
  | cons t targets ih =>
    have hmem : ∀ t' ∈ targets, t' ∈ t :: targets := fun t' => List.mem_cons_of_mem t
    have hid := hids t List.mem_cons_self
    have hput : ∀ v, m.putVar t.id v = some (m.withEnv (m.top.rtEnv.set t.id v)) :=
      fun v => putVar_eq hid v
    have hids' : ∀ v, ∀ t' ∈ targets, t'.id <
        (m.withEnv (m.top.rtEnv.set t.id v)).top.rtEnv.length := by
      intro v t' ht'
      have hset : (m.withEnv (m.top.rtEnv.set t.id v)).top.rtEnv.length = m.top.rtEnv.length :=
        List.length_set
      rw [hset]
      exact hids t' (hmem t' ht')
    have hstarts' : ∀ t' ∈ targets, ∀ b, t'.block = some b → 2 ≤ b.start :=
      fun t' ht' => hstarts t' (hmem t' ht')
    cases t with
    | required id =>
      have hne : i ≠ rest := fun heq => nomatch h.rest_iff.mp heq
      obtain ⟨x, hx, hdrop⟩ := h.head rfl
      have hnext := h.step 1 avail rfl fun hspare hmany => by
        obtain ⟨rfl, hopt⟩ := h.filled hspare (List.mem_cons_of_mem _ hmany)
        rw [List.map_cons, Target.arity, List.count_cons_of_ne (by decide)] at hopt
        exact ⟨rfl, hopt⟩
      rw [Nat.cast_one, Int.add_sub_cancel] at hnext
      have hrec := ih hnext where_ _ (hids' x) hstarts'
      have hlabel : (Target.required id).label = 0 := rfl
      rw [List.map_cons, scatterLoop, if_neg hne, if_pos hlabel, hx]
      simp only [Option.bind_eq_bind, Option.bind_some]
      rw [hput, Option.bind_some, hrec, hdrop]
      rfl
    | optional id expr =>
      have hne : i ≠ rest := fun heq => nomatch h.rest_iff.mp heq
      have hstart : ∀ b, expr = some b → 2 ≤ b.start := hstarts _ List.mem_cons_self
      have hlabel : (Target.optional id expr).label ≠ 0 := by
        cases expr with
        | none => exact Nat.one_ne_zero
        | some b => exact Nat.ne_of_gt (Nat.lt_of_succ_lt (hstart b rfl))
      rw [List.map_cons, scatterLoop, if_neg hne, if_neg hlabel]
      cases avail with
      | zero =>
        -- the list does not suffice: the target is left out, and nothing is consumed
        have hnext := h.step 0 0 (Nat.zero_add _).symm fun hspare hmany => by
          have hopt := (h.filled hspare (List.mem_cons_of_mem _ hmany)).2
          rw [List.map_cons, Target.arity, List.count_cons_self] at hopt
          exact absurd hopt (Nat.not_succ_le_zero _)
        rw [Nat.cast_zero, Int.add_zero] at hnext
        rw [if_neg (by decide), ih hnext _ m (fun t' ht' => hids t' (hmem t' ht')) hstarts']
        exact congrArg some (dividedFrom_unfilled where_ m hstart).symm
      | succ avail =>
        obtain ⟨x, hx, hdrop⟩ := h.head rfl
        have hnext := h.step 1 avail rfl fun hspare hmany => by
          obtain ⟨rfl, hopt⟩ := h.filled hspare (List.mem_cons_of_mem _ hmany)
          rw [List.map_cons, Target.arity, List.count_cons_self] at hopt
          exact ⟨rfl, Nat.le_of_succ_le_succ hopt⟩
        rw [Nat.cast_one, Int.add_sub_cancel] at hnext
        have hrec := ih hnext where_ _ (hids' x) hstarts'
        have havail : ((avail + 1 : Nat) : Int) - 1 = avail := by
          push_cast
          exact Int.add_sub_cancel _ _
        rw [if_pos (Int.natCast_pos.mpr (Nat.succ_pos avail)), hx, havail]
        simp only [Option.bind_eq_bind, Option.bind_some]
        rw [hput, Option.bind_some, hrec, hdrop]
        have hfilled : (Target.optional id expr).unfilled [x] = none := by cases expr <;> rfl
        exact congrArg some (dividedFrom_filled where_ m hfilled).symm
    | rest id =>
      -- the rest target takes what is spare, all at once
      have hnext := h.step spare avail rfl fun _ hmany => by
        have hone := h.one
        rw [List.map_cons, Target.arity, List.count_cons_self] at hone
        exact absurd (List.count_pos_iff.mpr hmany) (Nat.not_lt.mpr (Nat.le_of_succ_le_succ hone))
      have hrec := ih hnext where_ _ (hids' (.list ((list.drop c).take spare))) hstarts'
      rw [List.map_cons, scatterLoop, if_pos (h.rest_iff.mpr rfl), h.rest_part]
      simp only [Option.bind_eq_bind, Option.bind_some]
      rw [hput, Option.bind_some, hrec, List.map_cons, Target.arity, distribute, List.drop_drop]
      rfl

/-! ## The defaults -/

/-- The code of the defaults from one position to another: each begins where the one before it
ends. -/
def Chained (bc : Bytecodes) : List Block → Nat → Nat → Prop
  | [], p, q => q = p
  | b :: blocks, p, q =>
    b.start = p ∧ (∃ r, Shape.PutAt bc b.id b.value r ∧ bc.OpAt r .OP_POP ∧ b.next = r + 1) ∧
    Chained bc blocks b.next q

theorem chained_of_blocksAt {fin : CodeGen.State} {pos : Nat → Nat} {targets : Scatter}
    {blocks : List Block} {p q : Nat}
    (h : BlocksAt bc fin pos targets blocks p q)
    (hslots : ∀ id ∈ slots targets, id < 256 ^ bc.numbytesVarName) :
    Chained bc blocks p q := by
  cases targets with
  | nil =>
    obtain ⟨rfl, rfl⟩ := h
    rfl
  | cons kind id expr next =>
    have hid := hslots id List.mem_cons_self
    have hnext : ∀ id' ∈ slots next, id' < 256 ^ bc.numbytesVarName :=
      fun id' h' => hslots id' (List.mem_cons_of_mem _ h')
    cases kind with
    | required | rest =>
      exact chained_of_blocksAt (show BlocksAt bc fin pos next blocks p q from h) hnext
    | optional =>
      cases expr with
      | none => exact chained_of_blocksAt (show BlocksAt bc fin pos next blocks p q from h) hnext
      | some e =>
        obtain ⟨b, rest, r, rfl, rfl, hstart, -, hput, hpop, hbehind, hrest⟩ := h
        exact ⟨hstart, ⟨r, hput.putAt hid, hpop, hbehind⟩, chained_of_blocksAt hrest hnext⟩

/-- The defaults of the targets are the blocks, each for its own variable. -/
theorem blocks_targetsOf {fin : CodeGen.State} {pos : Nat → Nat} {targets : Scatter}
    {blocks : List Block} {p q : Nat}
    (h : BlocksAt bc fin pos targets blocks p q) :
    (targetsOf targets blocks).filterMap Target.block = blocks ∧
      ∀ t ∈ targetsOf targets blocks, ∀ b, t.block = some b → b.id = t.id := by
  cases targets with
  | nil =>
    obtain ⟨rfl, rfl⟩ := h
    exact ⟨rfl, fun t ht => by cases ht⟩
  | cons kind id expr next =>
    have hother : ∀ {t : Target}, t.block = none → BlocksAt bc fin pos next blocks p q →
        (t :: targetsOf next blocks).filterMap Target.block = blocks ∧
          ∀ t' ∈ t :: targetsOf next blocks, ∀ b, t'.block = some b → b.id = t'.id := by
      intro t ht hnext
      obtain ⟨hblocks, hids⟩ := blocks_targetsOf hnext
      refine ⟨by rw [List.filterMap_cons, ht, hblocks], fun t' ht' b hb => ?_⟩
      rcases List.mem_cons.mp ht' with rfl | ht'
      · rw [ht] at hb
        cases hb
      · exact hids t' ht' b hb
    cases kind with
    | required | rest => exact hother rfl h
    | optional =>
      cases expr with
      | none => exact hother rfl h
      | some e =>
        obtain ⟨b, rest, r, rfl, hid, -, -, -, -, -, hrest⟩ := h
        obtain ⟨hblocks, hids⟩ := blocks_targetsOf hrest
        refine ⟨congrArg (b :: ·) hblocks, fun t' ht' b' hb => ?_⟩
        rcases List.mem_cons.mp ht' with rfl | ht'
        · cases hb
          exact hid
        · exact hids t' ht' b' hb

/-- Where no target of at most one is given anything, every default is needed. -/
theorem pending_all {targets : List Target} {parts : List (List Var)}
    (hlen : parts.length = targets.length)
    (h : ∀ x ∈ (targets.map Target.arity).zip parts, x.1 = .opt → x.2 = []) :
    pending targets parts = targets.filterMap Target.block := by
  induction targets generalizing parts with
  | nil => rfl
  | cons t targets ih =>
    cases parts with
    | nil => cases hlen
    | cons part parts =>
      have hrest := ih (Nat.succ.inj hlen) fun x hx => h x (List.mem_cons_of_mem _ hx)
      have hblock : t.unfilled part = t.block := by
        cases t with
        | optional id expr =>
          obtain rfl : part = [] := h (_, part) List.mem_cons_self rfl
          cases expr <;> rfl
        | _ => rfl
      rw [pending_cons, hrest, hblock, List.filterMap_cons]
      cases t.block <;> rfl

/-- The defaults that are needed are the last ones. -/
theorem pending_suffix {targets : List Target} {parts : List (List Var)}
    (hlen : parts.length = targets.length)
    (h : ((targets.map Target.arity).zip parts).Pairwise fun x y => x.1 = .opt → y.1 = .opt →
      x.2 = [] → y.2 = []) :
    pending targets parts <:+ targets.filterMap Target.block := by
  induction targets generalizing parts with
  | nil => exact List.suffix_rfl
  | cons t targets ih =>
    cases parts with
    | nil => cases hlen
    | cons part parts =>
      obtain ⟨hfirst, hrest⟩ := List.pairwise_cons.mp h
      have hsuffix : pending targets parts <:+ (t :: targets).filterMap Target.block := by
        refine (ih (Nat.succ.inj hlen) hrest).trans ?_
        rw [List.filterMap_cons]
        split
        · exact List.suffix_rfl
        · exact List.suffix_cons _ _
      rw [pending_cons]
      cases t with
      | optional id expr =>
        cases expr with
        | none => exact hsuffix
        | some b =>
          by_cases hpart : part = []
          · subst hpart
            rw [pending_all (Nat.succ.inj hlen) fun y hy hopt => hfirst y hy rfl hopt rfl]
            exact List.suffix_rfl
          · have hnone : (Target.optional id (some b)).unfilled part = none := if_neg hpart
            rw [hnone]
            exact hsuffix
      | _ => exact hsuffix

/-- The later part of a chain is one. -/
theorem Chained.suffix {blocks blocks' : List Block} (h : Chained bc blocks p q)
    (hs : blocks' <:+ blocks) :
    Chained bc blocks' ((blocks'.head?.map Block.start).getD q) q := by
  obtain ⟨before, rfl⟩ := hs
  induction before generalizing p with
  | nil =>
    cases blocks' with
    | nil => rfl
    | cons b blocks' =>
      obtain ⟨rfl, hcode, hrest⟩ := h
      exact ⟨rfl, hcode, hrest⟩
  | cons b before ih => exact ih h.2.2

theorem countTick_put (n : Fin NUM_READY_VARS) : Machine.countTick (.OP_PUT n) = true := by
  revert n
  decide

theorem Machine.pop_eq (h : m.top.rtStack = v :: s) :
    m.pop = some (v, m.setTop fun a => { a with rtStack := s }) := by
  unfold Machine.pop
  rw [h]

theorem Machine.step_pop (hpop : bc.OpAt p .OP_POP) (hbc : m.top.bc = bc) (hpc : m.top.pc = p)
    (hstack : m.top.rtStack = v :: s) :
    m.step env = next (m.fetched.setTop fun a => { a with rtStack := s }) := by
  have hpop' := pop_eq (m := m.fetched) hstack
  rw [step_op hpop trivial (by decide) hbc hpc, runOpcode, hpop']
  rfl

/-- `OP_PUT` does what the `OP_POP` after it does. -/
theorem Machine.opPut_pop {id : Nat} (hpop : m.top.bc.vector[m.top.pc]? = some Opcode.OP_POP.toByte)
    (hstack : m.top.rtStack = v :: s) (hid : id < m.top.rtEnv.length) :
    m.opPut id =
      next (m.setTop fun a =>
        { a with rtStack := s, pc := a.pc + 1, rtEnv := a.rtEnv.set id v }) := by
  have hput := putVar_eq (m := (m.setTop fun a => { a with rtStack := s }).skipBytes 1) hid v
  rw [opPut, pop_eq hstack]
  simp only [Option.bind_eq_bind, Option.bind_some]
  rw [if_pos hpop, hput, Option.bind_some]
  rfl

theorem Machine.opGPut_eq {id : Nat} (hvar : bc.OperandAt .varRef p id) (hbc : m.top.bc = bc)
    (hpc : m.top.pc = p)
    (hstack : m.top.rtStack = v :: s) (hid : id < m.top.rtEnv.length) :
    m.opGPut = next ((m.jump (p + bc.numbytesVarName)).withEnv (m.top.rtEnv.set id v)) := by
  have hread : m.readBytes m.top.bc.numbytesVarName =
      some (id, m.jump (p + bc.numbytesVarName)) := by
    rw [hbc]
    exact Machine.readBytes_operand hvar hbc hpc
  have hput := putVar_eq (m := m.jump (p + bc.numbytesVarName)) hid v
  rw [opGPut, hread]
  simp only [Option.bind_eq_bind, Option.bind_some, jump_top, hstack, List.head?_cons]
  rw [hput, Option.bind_some]
  rfl

/-- A variable is assigned the value on top of the stack, which is popped. -/
theorem store_run {id : Nat} (hput : Shape.PutAt bc id p r) (hpop : bc.OpAt r .OP_POP)
    (hbc : m.top.bc = bc) (hpc : m.top.pc = p)
    (hstack : m.top.rtStack = v :: s) (hid : id < m.top.rtEnv.length) (hticks : m.HasTicks) :
    ∃ m', Reaches env unwound m m' ∧ Stored id v m m' ∧ m'.top.pc = r + 1 ∧ m'.top.rtStack = s := by
  rcases hput with ⟨hlt, hop, rfl⟩ | ⟨-, hop, hvar, rfl⟩
  · have hstep : m.step env = _ := Machine.step_tick hop trivial (countTick_put _) hticks hbc hpc
    have hopPut : Machine.opPut id { m.fetched with ticksRemaining := m.ticksRemaining - 1 } = _ :=
      Machine.opPut_pop
      (by
        change m.top.bc.vector[m.top.pc + 1]? = _
        rw [hbc, hpc]
        exact hpop) hstack hid
    refine ⟨_, .single (.opcode (hstep.trans hopPut)), ⟨rfl, rfl, rfl, rfl, rfl, rfl⟩, ?_, rfl⟩
    rw [← hpc]
    rfl
  · have hstep : m.step env = _ := Machine.step_tick hop trivial (by decide) hticks hbc hpc
    have hopGPut :=
      Machine.opGPut_eq (m := { m.fetched with ticksRemaining := m.ticksRemaining - 1 }) hvar hbc
      (by rw [← hpc]; rfl) hstack hid
    -- The value stays on the stack for the `OP_POP`.
    exact ⟨_, .tail (.single (.opcode (hstep.trans hopGPut)))
      (.opcode (Machine.step_pop hpop hbc rfl hstack)),
      ⟨rfl, rfl, rfl, rfl, rfl, rfl⟩, rfl, rfl⟩

/-- The defaults are evaluated and assigned one after the other, by induction on them. -/
theorem follows_of_chained {blocks : List Block} (h : Chained bc blocks p q) (hbc : m.top.bc = bc)
    (hpc : m.top.pc = p)
    (hstack : m.top.rtStack = s) (hids : ∀ b ∈ blocks, b.id < m.top.rtEnv.length) :
    Follows env unwound q s blocks m := by
  induction blocks generalizing m p with
  | nil =>
    obtain rfl : q = p := h
    exact ⟨hpc, hstack⟩
  | cons b blocks ih =>
    obtain ⟨rfl, ⟨r, hput, hpop, hnext⟩, hrest⟩ := h
    refine ⟨hpc, hstack, fun m' v hev hticks => ?_⟩
    have hid : b.id < m'.top.rtEnv.length := by
      rw [hev.length]
      exact hids b List.mem_cons_self
    obtain ⟨m'', hrun, hstored, hpc'', hstack''⟩ :=
      store_run hput hpop (hev.bc.trans hbc) hev.pc (hev.rtStack.trans (congrArg _ hstack))
        hid hticks
    refine ⟨m'', hrun, hstored, ih hrest (hstored.bc.trans (hev.bc.trans hbc))
      (hpc''.trans hnext.symm) hstack'' fun b' hb' => ?_⟩
    rw [hstored.rtEnv, List.length_set, hev.length]
    exact hids b' (List.mem_cons_of_mem _ hb')

/-! ## The instruction -/

/-- What `vet_scatter` ensures: at most 255 targets, and at most one that takes the rest. -/
theorem vetScatterFrom_spec {targets : Scatter} {seen : Bool} {n : Nat}
    (h : CodeGen.vetScatterFrom targets seen n = true) :
    n + targets.length ≤ 255 ∧ (arities targets).count .many ≤ if seen then 0 else 1 := by
  cases targets with
  | nil =>
    have hle : n ≤ 255 := by simpa [CodeGen.vetScatterFrom] using h
    exact ⟨hle, Nat.zero_le _⟩
  | cons kind id expr next =>
    have hlen : n + (Scatter.cons kind id expr next).length = n + 1 + next.length := by
      rw [Scatter.length, Nat.add_right_comm, Nat.add_assoc]
    rw [hlen]
    cases kind with
    | rest =>
      rw [CodeGen.vetScatterFrom, if_pos rfl, Bool.and_eq_true, Bool.not_eq_true'] at h
      obtain ⟨rfl, h⟩ := h
      obtain ⟨hle, hcount⟩ := vetScatterFrom_spec h
      refine ⟨hle, ?_⟩
      rw [arities, List.count_cons_self]
      exact Nat.succ_le_succ hcount
    | required | optional =>
      rw [CodeGen.vetScatterFrom, if_neg (by decide)] at h
      obtain ⟨hle, hcount⟩ := vetScatterFrom_spec h
      refine ⟨hle, ?_⟩
      rw [arities, List.count_cons_of_ne (by decide)]
      exact hcount

/-- `EOP_SCATTER` after its byte operands. -/
def Machine.scatterTail (nargs nreq rest : Nat) (m : Machine D) : Option (Result D) := do
  let haveRest := !decide (rest > nargs)
  let v ← m.top.rtStack.head?
  match scatterError v nargs nreq haveRest, v with
  | some e, _ =>
    let (_, m) ← m.pop
    m.raiseError e fun m => do
      let m := m.push (.err e)
      let m := m.skipBytes (nargs * (m.top.bc.numbytesVarName + m.top.bc.numbytesLabel))
      let (done, m) ← m.readBytes m.top.bc.numbytesLabel
      next (m.jump done)
  | none, .list list =>
    let len : Int := list.length
    let nrest := if haveRest ∧ len ≥ nargs then len - nargs + 1 else 0
    let (targets, m) ← m.readTargets nargs
    let (where_, m) ← scatterLoop list rest nrest targets 1 (len - nreq) 0 0 m
    let (done, m) ← m.readBytes m.top.bc.numbytesLabel
    next (m.jump (if where_ = 0 then done else where_))
  | none, _ => none

theorem Machine.eopScatter_eq {nargs nreq rest : UInt8} (hnargs : bc.ByteAt p nargs)
    (hnreq : bc.ByteAt (p + 1) nreq)
    (hrest : bc.ByteAt (p + 2) rest) (hbc : m.top.bc = bc) (hpc : m.top.pc = p) :
    m.eopScatter = (m.jump (p + 3)).scatterTail nargs.toNat nreq.toNat rest.toNat := by
  have hread₁ := readBytes_byte hnargs hbc hpc
  have hread₂ := readBytes_byte (m := m.jump (p + 1)) hnreq hbc rfl
  have hread₃ := readBytes_byte (m := m.jump (p + 2)) hrest hbc rfl
  rw [eopScatter, hread₁]
  simp only [Option.bind_eq_bind, Option.bind_some]
  rw [hread₂]
  simp only [Option.bind_some, jump_jump]
  rw [hread₃]
  rfl

/-- The error is that of the value on top of the stack. -/
theorem Machine.scatterTail_detected {nargs nreq rest : Nat} {res : Result D}
    (hstack : m.top.rtStack = v :: s)
    (h : m.scatterTail nargs nreq rest = some res) :
    res.detected = scatterError v nargs nreq (!decide (rest > nargs)) := by
  unfold scatterTail at h
  rw [hstack] at h
  simp only [List.head?_cons, Option.bind_eq_bind, Option.bind_some] at h
  split at h
  · next e he =>
    rw [he]
    obtain ⟨x, -, h⟩ := Option.bind_eq_some_iff.mp h
    unfold Machine.raiseError at h
    split at h
    · cases h
      rfl
    · obtain ⟨r', -, rfl⟩ := Option.map_eq_some_iff.mp h
      rfl
  · next he =>
    rw [he]
    obtain ⟨x, -, h⟩ := Option.bind_eq_some_iff.mp h
    obtain ⟨y, -, h⟩ := Option.bind_eq_some_iff.mp h
    obtain ⟨z, -, h⟩ := Option.bind_eq_some_iff.mp h
    cases h
    rfl
  · cases h

/-- With an error the other operands are passed over. -/
theorem Machine.scatterTail_error {nargs nreq rest done : Nat} {e : ErrCode}
    (hstack : m.top.rtStack = v :: s)
    (herr : scatterError v nargs nreq (!decide (rest > nargs)) = some e) (hbc : m.top.bc = bc)
    (hdone : bc.OperandAt .label (m.top.pc + nargs * (bc.numbytesVarName + bc.numbytesLabel))
      done) :
    ∃ res, m.scatterTail nargs nreq rest = some res := by
  unfold scatterTail
  rw [hstack]
  simp only [List.head?_cons, Option.bind_eq_bind, Option.bind_some, herr, pop_eq hstack]
  subst hbc
  have hread :=
    readBytes_operand
      (m := (Machine.push (.err e) (m.setTop fun a => { a with rtStack := s })).skipBytes
    (nargs * (m.top.bc.numbytesVarName + m.top.bc.numbytesLabel))) hdone rfl rfl
  unfold Machine.raiseError
  split
  · exact ⟨_, rfl⟩
  · exact ⟨_, congrArg (Option.map _) (congrArg (Option.bind · _) hread)⟩

/-- A default that is needed is that of a target. -/
theorem mem_pending {targets : List Target} {parts : List (List Var)} {b : Block}
    (h : b ∈ pending targets parts) :
    ∃ t ∈ targets, t.block = some b := by
  obtain ⟨⟨t, part⟩, hx, hb⟩ := List.mem_filterMap.mp h
  refine ⟨t, (List.of_mem_zip hx).1, ?_⟩
  cases t with
  | optional id expr =>
    cases expr with
    | none => cases hb
    | some b' =>
      have hb' : (if part = [] then some b' else none) = some b := hb
      split at hb'
      · exact hb'
      · cases hb'
  | _ => cases hb

/-- The label zero stands for none. -/
theorem firstLabel_zero {blocks : List Block} (h : ∀ b ∈ blocks, 2 ≤ b.start) (done : Nat) :
    (if firstLabel 0 blocks = 0 then done else firstLabel 0 blocks) =
      (blocks.head?.map Block.start).getD done := by
  cases blocks with
  | nil => rfl
  | cons b blocks =>
    have hne : firstLabel 0 (b :: blocks) ≠ 0 :=
      Nat.ne_of_gt (Nat.lt_of_succ_lt (h b List.mem_cons_self))
    rw [if_neg hne]
    rfl

/-- Without an error the list is divided, and execution goes on at the first default that is
needed. -/
theorem Machine.scatterTail_ok {targets : Scatter} {blocks : List Block} {list : List Var}
    {parts : List (List Var)}
    {nreq rest spare done : Nat} (hstack : m.top.rtStack = .list list :: s)
    (herr : scatterError (.list list) targets.length nreq (!decide (rest > targets.length)) = none)
    (hops : Shape.TargetsAt bc targets (blocks.map Block.start) p q)
    (hdone : bc.OperandAt .label q done) (hbc : m.top.bc = bc)
    (hpc : m.top.pc = p)
    (hmid : Midway list rest spare (targetsOf targets blocks) 0 (list.length - nreq) 1 0)
    (hreq : nreq ≤ list.length)
    (hspare : (if (!decide (rest > targets.length)) = true ∧ (list.length : Int) ≥ targets.length
      then (list.length : Int) - targets.length + 1 else 0) = spare)
    (hparts : distribute ((targetsOf targets blocks).map Target.arity)
      (list.length - nreq) spare list = parts)
    (hids : ∀ t ∈ targetsOf targets blocks, t.id < m.top.rtEnv.length)
    (hstarts : ∀ t ∈ targetsOf targets blocks, ∀ b, t.block = some b → 2 ≤ b.start) :
    m.scatterTail targets.length nreq rest
      = next ((m.jump
          (((pending (targetsOf targets blocks) parts).head?.map Block.start).getD done)).withEnv
          (storeParts (targetsOf targets blocks) parts m.top.rtEnv)) := by
  have havail : (list.length : Int) - nreq = ((list.length - nreq : Nat) : Int) :=
    (Int.ofNat_sub hreq).symm
  have hloop := scatterLoop_eq hmid 0 (m.jump q) hids hstarts
  rw [List.drop_zero, hparts] at hloop
  unfold scatterTail
  rw [hstack]
  simp only [List.head?_cons, Option.bind_eq_bind, Option.bind_some, herr]
  rw [readTargets_eq hops hbc hpc, Option.bind_some, hspare, havail, hloop, Option.bind_some]
  subst hbc
  have hread :=
    readBytes_operand
      (m := (m.jump q).withEnv (storeParts (targetsOf targets blocks) parts m.top.rtEnv))
      hdone rfl rfl
  have hstarts' : ∀ b ∈ pending (targetsOf targets blocks) parts, 2 ≤ b.start := fun b hb => by
    obtain ⟨t, ht, hblock⟩ := mem_pending hb
    exact hstarts t ht b hblock
  refine (congrArg (Option.bind · _) hread).trans ?_
  exact congrArg (fun x => next (Machine.withEnv _ (m.jump x))) (firstLabel_zero hstarts' done)

/-! ## The assignment -/

theorem slots_targetsOf (targets : Scatter) (blocks : List Block) :
    (targetsOf targets blocks).map Target.id = slots targets := by
  cases targets with
  | nil => rfl
  | cons kind id expr next =>
    cases kind with
    | required | rest => exact congrArg (_ :: ·) (slots_targetsOf next blocks)
    | optional => cases expr <;> exact congrArg (_ :: ·) (slots_targetsOf next _)

theorem length_targetsOf (targets : Scatter) (blocks : List Block) :
    (targetsOf targets blocks).length = targets.length := by
  rw [← List.length_map Target.arity, arities_targetsOf, length_arities]

theorem length_storeParts (targets : List Target) (parts : List (List Var)) (rtEnv : List Var) :
    (storeParts targets parts rtEnv).length = rtEnv.length := by
  induction targets generalizing parts rtEnv with
  | nil => rfl
  | cons t targets ih =>
    cases parts with
    | nil => rfl
    | cons part parts =>
      rw [storeParts_cons, ih]
      cases t with
      | rest id => exact List.length_set
      | required id | optional id expr =>
        cases part with
        | nil => rfl
        | cons x part => exact List.length_set

/-- The operands of the targets have the widths of a variable and a label. -/
theorem targetsAt_end {targets : Scatter} {labels : List Nat} {p q : Nat}
    (h : Shape.TargetsAt bc targets labels p q) :
    q = p + targets.length * (bc.numbytesVarName + bc.numbytesLabel) := by
  cases targets with
  | nil => rw [h.2, Scatter.length, Nat.zero_mul, Nat.add_zero]
  | cons kind id expr next =>
    have hnext : ∀ {labels}, Shape.TargetsAt bc next labels (p + bc.numbytesVarName +
      bc.numbytesLabel) q →
        q = p + (Scatter.cons kind id expr next).length *
          (bc.numbytesVarName + bc.numbytesLabel) := by
      intro labels h
      rw [Scatter.length, Nat.succ_mul, targetsAt_end h]
      omega
    cases kind with
    | required | rest => exact hnext h.2.2
    | optional =>
      cases expr with
      | none => exact hnext h.2.2
      | some e =>
        obtain ⟨-, label, rest, -, -, h⟩ := h
        exact hnext h

/-! ### Slots that are cut -/

/-- Of the targets only the slots are cut. -/
theorem targetsOf_cut (width : Nat) (targets : Scatter) (blocks : List Block) :
    targetsOf (cutTargets width targets) blocks =
      (targetsOf targets blocks).map (Target.cut width) := by
  cases targets with
  | nil => rfl
  | cons kind id expr next =>
    cases kind with
    | required | rest => exact congrArg (_ :: ·) (targetsOf_cut width next blocks)
    | optional => cases expr <;> exact congrArg (_ :: ·) (targetsOf_cut width next _)

theorem length_cutTargets (width : Nat) (targets : Scatter) :
    (cutTargets width targets).length = targets.length := by
  cases targets with
  | nil => rfl
  | cons kind id expr next => exact congrArg (· + 1) (length_cutTargets width next)

theorem arities_cutTargets (width : Nat) (targets : Scatter) :
    arities (cutTargets width targets) = arities targets := by
  rw [← arities_targetsOf _ [], targetsOf_cut, List.map_map, ← arities_targetsOf targets []]
  exact List.map_congr_left fun t _ => by cases t <;> rfl

theorem slots_cutTargets (width : Nat) (targets : Scatter) :
    slots (cutTargets width targets) = (slots targets).map (· % 256 ^ width) := by
  rw [← slots_targetsOf _ [], targetsOf_cut, List.map_map, ← slots_targetsOf targets [],
    List.map_map]
  exact List.map_congr_left fun t _ => by cases t <;> rfl

theorem unfilled_cut (width : Nat) (t : Target) (part : List Var) :
    (t.cut width).unfilled part = t.unfilled part := by
  cases t with
  | optional id expr => cases expr <;> rfl
  | _ => rfl

theorem block_cut (width : Nat) (t : Target) : (t.cut width).block = t.block := by
  cases t <;> rfl

theorem pending_cut (width : Nat) (targets : List Target) (parts : List (List Var)) :
    pending (targets.map (Target.cut width)) parts = pending targets parts := by
  induction targets generalizing parts with
  | nil => rfl
  | cons t targets ih =>
    cases parts with
    | nil => rfl
    | cons part parts => rw [List.map_cons, pending_cons, pending_cons, unfilled_cut, ih]

/-- A variable that no target names keeps its value. -/
theorem getElem?_storeParts_of_notMem {id : Nat} {targets : List Target}
    (h : id ∉ targets.map Target.id) (parts : List (List Var))
    (rtEnv : List Var) : (storeParts targets parts rtEnv)[id]? = rtEnv[id]? := by
  induction targets generalizing parts rtEnv with
  | nil => rfl
  | cons t targets ih =>
    have hid : id ≠ t.id := fun heq => h (heq ▸ List.mem_cons_self)
    have hrest : id ∉ targets.map Target.id := fun hmem => h (List.mem_cons_of_mem _ hmem)
    cases parts with
    | nil => rfl
    | cons part parts =>
      rw [storeParts_cons, ih hrest]
      cases t with
      | rest id' => exact List.getElem?_set_ne (Ne.symm hid)
      | required id' | optional id' expr =>
        cases part with
        | nil => rfl
        | cons v part => exact List.getElem?_set_ne (Ne.symm hid)

/-- The variables of targets that are all given something have values in the end. -/
theorem getElem?_storeParts_ne_none {id : Nat} {targets : List Target} {parts : List (List Var)}
    {rtEnv : List Var}
    (hlen : parts.length = targets.length)
    (hfilled : ∀ x ∈ (targets.map Target.arity).zip parts, x.1 ≠ .many → x.2 ≠ [])
    (hvalues : ∀ part ∈ parts, ∀ v ∈ part, v ≠ .none) (hlt : id < rtEnv.length)
    (h : id ∈ targets.map Target.id ∨ rtEnv[id]? ≠ some .none) :
    (storeParts targets parts rtEnv)[id]? ≠ some .none := by
  induction targets generalizing parts rtEnv with
  | nil => exact h.resolve_left List.not_mem_nil
  | cons t targets ih =>
    cases parts with
    | nil => cases hlen
    | cons part parts =>
      obtain ⟨hpart, hvalues⟩ := List.forall_mem_cons.mp hvalues
      obtain ⟨hfirst, hfilled⟩ := List.forall_mem_cons.mp hfilled
      -- The target stores a value, which later targets may replace by another.
      have hset : ∀ {id' : Nat} {v : Var}, v ≠ .none → t.id = id' →
          t.store part rtEnv = rtEnv.set id' v →
          (storeParts (t :: targets) (part :: parts) rtEnv)[id]? ≠ some .none := by
        intro id' v hv ht hstore
        rw [storeParts_cons, hstore]
        refine ih (Nat.succ.inj hlen) hfilled hvalues (by rwa [List.length_set]) ?_
        by_cases heq : id' = id
        · subst heq
          rw [List.getElem?_set_self hlt]
          exact .inr fun hnone => hv (Option.some.inj hnone)
        · rw [List.getElem?_set_ne heq]
          refine h.imp_left fun hmem => (List.mem_cons.mp hmem).resolve_left fun hid => heq ?_
          exact ht.symm.trans hid.symm
      cases t with
      | rest id' => exact hset Var.noConfusion rfl rfl
      | required id' | optional id' expr =>
        cases part with
        | nil => exact absurd rfl (hfirst Arity.noConfusion)
        | cons v part => exact hset (hpart v List.mem_cons_self) rfl rfl

variable {targets : Scatter} {rhs : Expr}

/-- The machine is at `EOP_SCATTER`, with the value of the right side on top of the stack. -/
structure AtScatter (c : ScatterCode targets rhs) (m : Machine D) (v : Var)
    (s : List Var) : Prop where
  bc : m.top.bc = c.bc
  pc : m.top.pc = c.start
  rtStack : m.top.rtStack = v :: s
  slots : ∀ id ∈ slots targets, id < m.top.rtEnv.length

/-- With 255 targets and no `@` the number that stands for no rest does not fit in its byte, and a
list that is too long is accepted. -/
def TooLong (targets : Scatter) (v : Var) : Prop :=
  targets.length = 255 ∧ .many ∉ arities targets ∧ ∃ l, v = .list l ∧ 255 < l.length

/-- The byte operand for the rest. -/
def restByte (targets : Scatter) : Nat :=
  if .many ∈ arities targets then (arities targets).idxOf .many + 1
  else if targets.length = 255 then 0 else targets.length + 1

theorem restByte_iff (targets : Scatter) :
    restByte targets > targets.length ↔ .many ∉ arities targets ∧ targets.length ≠ 255 := by
  unfold restByte
  split
  · next hmem =>
    have hlt := List.idxOf_lt_length_of_mem hmem
    rw [length_arities] at hlt
    exact iff_of_false (Nat.not_lt.mpr hlt) fun h => h.1 hmem
  · next hmem =>
    split
    · next hlen => exact iff_of_false (Nat.not_lt_zero _) fun h => h.2 hlen
    · next hlen => exact iff_of_true (Nat.lt_succ_self _) ⟨hmem, hlen⟩

/-- The instruction runs with its operands. -/
theorem step_scatter {c : ScatterCode targets rhs} {blocks : List Block} {r : Nat}
    (hlay : c.Layout blocks r)
    (hvet : vetScatter targets = true) (hat : AtScatter c m v s) :
    ∃ m' : Machine D, m.step env = m'.scatterTail targets.length ((arities targets).count .one)
    (restByte targets) ∧
      m'.top = { m.top with pc := c.start + 5, errorPc := c.start } ∧ m'.server = m.server ∧
      m'.tasks = m.tasks ∧ m'.rest = m.rest := by
  obtain ⟨m', hstep, htop, hserver, htasks, hrest⟩ : ∃ m' : Machine D,
      m.step env = m'.runExtended env .EOP_SCATTER ∧ _ :=
    Machine.step_eop hlay.op hat.bc hat.pc
  obtain ⟨hlen, hmany⟩ := vetScatterFrom_spec hvet
  rw [Nat.zero_add, ← length_arities] at hlen
  have hnargs := hlay.nargs
  have hnreq := hlay.nreq
  have hbyte := hlay.rest
  rw [countTargets_eq targets 0 0 none hmany, Nat.zero_add, Nat.zero_add] at hnargs hnreq hbyte
  have hpc : m'.top.pc = c.start + 2 := by rw [htop]
  have hbc : m'.top.bc = c.bc := by rw [htop, hat.bc]
  have htail := Machine.eopScatter_eq hnargs hnreq hbyte hbc hpc
  have hone : (arities targets).count .one ≤ (arities targets).length := List.count_le_length
  have htoNat : ∀ {n : Nat}, n ≤ 255 → (UInt8.ofNat n).toNat = n :=
    fun h => UInt8.toNat_ofNat_of_lt' (Nat.lt_succ_of_le h)
  have hrestByte :
      (UInt8.ofNat ((if .many ∈ arities targets then some (0 + (arities targets).idxOf .many + 1)
        else none).getD
      ((arities targets).length + 1))).toNat = restByte targets := by
    unfold restByte
    split
    · next hmem =>
      have hlt := List.idxOf_lt_length_of_mem hmem
      rw [Option.getD_some, Nat.zero_add]
      exact htoNat (Nat.le_trans hlt hlen)
    · next hmem =>
      rw [Option.getD_none, ← length_arities]
      split
      · next heq => rw [heq]; rfl
      · next hne => exact htoNat (Nat.lt_of_le_of_ne hlen hne)
  rw [htoNat hlen, htoNat (Nat.le_trans hone hlen), length_arities] at htail
  rw [length_arities] at hrestByte
  rw [hrestByte] at htail
  refine ⟨m'.jump (c.start + 5), ?_, ?_, hserver, htasks, hrest⟩
  · exact hstep.trans htail
  · rw [Machine.jump_top, htop]

/-- The flag for a rest, from its byte. -/
theorem haveRest_iff (targets : Scatter) :
    (!decide (restByte targets > targets.length)) = true ↔ .many ∈ arities targets ∨
      targets.length = 255 := by
  rw [Bool.not_eq_true', decide_eq_false_iff_not, restByte_iff, not_and_or, not_not, not_ne_iff]

/-- The error that is detected is that of the value. -/
theorem detects_iff {c : ScatterCode targets rhs} {blocks : List Block} {r : Nat}
    (hlay : c.Layout blocks r)
    (hvet : vetScatter targets = true) (hat : AtScatter c m v s) (e : ErrCode) :
    m.Detects env e ↔
      Machine.scatterError v targets.length ((arities targets).count .one)
      (!decide (restByte targets > targets.length)) = some e := by
  obtain ⟨m', hstep, htop, -⟩ : ∃ m' : Machine D, m.step env = _ ∧ m'.top = _ ∧ _ :=
    step_scatter hlay hvet hat
  have hstack : m'.top.rtStack = v :: s := by rw [htop, hat.rtStack]
  constructor
  · rintro ⟨res, hres, hdet⟩
    rw [hstep] at hres
    rw [← Machine.scatterTail_detected hstack hres, hdet]
  · intro herr
    have hbc : m'.top.bc = c.bc := by rw [htop, hat.bc]
    have hdone := hlay.label
    rw [targetsAt_end hlay.operands, length_cutTargets] at hdone
    obtain ⟨res, hres⟩ := Machine.scatterTail_error hstack herr hbc (by rw [htop]; exact hdone)
    exact ⟨res, hstep.trans hres, (Machine.scatterTail_detected hstack hres).trans herr⟩

theorem scatterError_type {n k : Int} {haveRest : Bool} :
    Machine.scatterError v n k haveRest = some .E_TYPE ↔ ∀ l, v ≠ .list l := by
  cases v with
  | list l =>
    refine iff_of_false (fun h => ?_) fun h => h l rfl
    unfold Machine.scatterError at h
    dsimp only at h
    split at h <;> cases h
  | _ => exact iff_of_true rfl fun l => nofun

theorem scatterError_args {n k : Int} {haveRest : Bool} :
    Machine.scatterError v n k haveRest = some .E_ARGS ↔
    ∃ l, v = .list l ∧ ((l.length : Int) < k ∨ (haveRest = false ∧ n < (l.length : Int))) := by
  cases v with
  | list l =>
    have hcond : ((l.length : Int) < k ∨ (!haveRest) = true ∧ (l.length : Int) > n)
        ↔ ∃ l', Var.list l = .list l' ∧
          ((l'.length : Int) < k ∨ (haveRest = false ∧ n < (l'.length : Int))) := by
      rw [Bool.not_eq_true']
      exact ⟨fun h => ⟨l, rfl, h⟩, fun ⟨l', hl, h⟩ => by cases hl; exact h⟩
    unfold Machine.scatterError
    dsimp only
    split
    · next h => exact iff_of_true rfl (hcond.mp h)
    · next h => exact iff_of_false nofun fun h' => h (hcond.mpr h')
  | _ => exact iff_of_false nofun fun ⟨l, hl, _⟩ => nomatch hl

/-- The byte for the rest is the number of the target that takes it. -/
theorem restByte_at (hmany : (arities targets).count .many ≤ 1) {blocks : List Block}
    {k : Nat} {t : Target}
    (ht : (targetsOf targets blocks)[k]? = some t) :
    (1 : Int) + k = restByte targets ↔ t.arity = .many := by
  have ha : (arities targets)[k]? = some t.arity := by
    rw [← arities_targetsOf targets blocks, List.getElem?_map, ht]
    rfl
  have hlt : k < targets.length := by
    rw [← length_targetsOf targets blocks]
    exact (List.getElem?_eq_some_iff.mp ht).1
  unfold restByte
  split
  · next hmem =>
    rw [← idxOf_iff hmany hmem ha]
    omega
  · next hmem =>
    refine iff_of_false ?_ fun h => hmem (h ▸ List.mem_of_getElem? ha)
    split <;> omega

/-- A list that fits is accepted. -/
theorem scatterError_none {l : List Var} (hreq : (arities targets).count .one ≤ l.length)
    (hfit : .many ∈ arities targets ∨ l.length ≤ targets.length) :
    Machine.scatterError (.list l) targets.length ((arities targets).count .one)
    (!decide (restByte targets > targets.length)) = none := by
  have hflag := haveRest_iff targets
  unfold Machine.scatterError
  dsimp only
  refine if_neg ?_
  rintro (hlt | ⟨hno, hgt⟩)
  · omega
  · rcases hfit with hmem | hle
    · rw [hflag.mpr (.inl hmem)] at hno
      cases hno
    · omega

/-- A list that fits is divided among the targets with the slots that their operands name, whatever
the byte for the rest. -/
theorem scatter_divides {c : ScatterCode targets rhs} {blocks : List Block} {r : Nat} {l : List Var}
    (hlay : c.Layout blocks r)
    (hvet : vetScatter targets = true) (hat : AtScatter c m (.list l) s)
    (hreq : (arities targets).count .one ≤ l.length)
    (hfit : .many ∈ arities targets ∨ l.length ≤ targets.length) :
    ∃ parts m', Splits (arities targets) l parts ∧ m.step env = some ⟨none, .opcode m'⟩ ∧
      m'.top.rtEnv = storeParts (targetsOf (cutTargets c.bc.numbytesVarName targets) blocks)
        parts m.top.rtEnv ∧
      m'.top.bc = c.bc ∧ m'.top.rtStack = .list l :: s ∧
      m'.top.pc = ((pending (targetsOf targets blocks) parts).head?.map Block.start).getD c.done ∧
      m'.server = m.server ∧ m'.tasks = m.tasks ∧ m'.rest = m.rest := by
  obtain ⟨-, hmany⟩ := vetScatterFrom_spec hvet
  obtain ⟨m', hstep, htop, hserver, htasks, hrest⟩ : ∃ m' : Machine D, m.step env = _ ∧ m'.top = _ ∧
      _ := step_scatter hlay hvet hat
  obtain ⟨cut, hcut⟩ : ∃ cut, cutTargets c.bc.numbytesVarName targets = cut := ⟨_, rfl⟩
  have harities : arities cut = arities targets := by rw [← hcut, arities_cutTargets]
  have hlength : cut.length = targets.length := by rw [← hcut, length_cutTargets]
  have hbyte : restByte cut = restByte targets := by rw [restByte, restByte, harities, hlength]
  have harity : (targetsOf cut blocks).map Target.arity = arities targets := by
    rw [arities_targetsOf, harities]
  have hflag := haveRest_iff targets
  -- Without a target for the rest it does not matter how many elements it would take.
  obtain ⟨spare, hspare, hspareOf⟩ : ∃ spare : Nat,
      (if (!decide (restByte targets > targets.length)) = true ∧ (l.length : Int) ≥ targets.length
        then (l.length : Int) - targets.length + 1 else 0) = spare ∧
        (.many ∈ arities targets → spare = spareOf (arities targets) l.length) := by
    by_cases hge : (l.length : Int) ≥ targets.length ∧
      (!decide (restByte targets > targets.length)) = true
    · refine ⟨l.length - targets.length + 1, ?_, fun hmem => ?_⟩
      · rw [if_pos ⟨hge.2, hge.1⟩]
        omega
      · rw [spareOf, length_arities, if_pos ⟨hmem, by omega⟩]
    · refine ⟨0, if_neg fun h => hge h.symm, fun hmem => ?_⟩
      rw [spareOf, length_arities, if_neg]
      rintro ⟨-, hle⟩
      exact hge ⟨by omega, hflag.mpr (.inl hmem)⟩
  have hfit' : .many ∈ arities targets ∨ l.length ≤ (arities targets).length := by
    rwa [length_arities]
  have hneed := Distribute.need_of_length hreq hmany hfit' hspareOf
  have hmid : Midway l (restByte targets) spare (targetsOf cut blocks) 0
      (l.length - (arities targets).count .one) 1 0 := by
    refine ⟨rfl, ?_, ?_, ?_, by rwa [harity]⟩
    · rw [harity, hneed, List.drop_zero]
    · exact fun k t ht => hbyte ▸ restByte_at (by rwa [harities]) ht
    · rw [harity]
      exact fun hpos hmem =>
        ⟨rfl, Distribute.count_opt_le hmany hmem (hspareOf hmem) (Nat.ne_of_gt hpos)⟩
  have hids : ∀ t ∈ targetsOf cut blocks, t.id < m.top.rtEnv.length := fun t ht => by
    have hmem : t.id ∈ slots cut := by
      rw [← slots_targetsOf cut blocks]
      exact List.mem_map_of_mem ht
    rw [← hcut, slots_cutTargets] at hmem
    obtain ⟨id, hid, heq⟩ := List.mem_map.mp hmem
    exact heq ▸ Nat.lt_of_le_of_lt (Nat.mod_le id _) (hat.slots id hid)
  have hstarts : ∀ t ∈ targetsOf cut blocks, ∀ b, t.block = some b → 2 ≤ b.start :=
    fun t ht b hb => by
    rw [← hcut, targetsOf_cut] at ht
    obtain ⟨t', ht', rfl⟩ := List.mem_map.mp ht
    refine hlay.starts b ?_
    rw [← (blocks_targetsOf hlay.defaults).1]
    exact List.mem_filterMap.mpr ⟨t', ht', (block_cut _ t').symm.trans hb⟩
  obtain ⟨parts, hparts⟩ : ∃ parts, distribute (arities targets)
      (l.length - (arities targets).count .one) spare l = parts := ⟨_, rfl⟩
  have hsplits : Splits (arities targets) l parts :=
    hparts ▸ Distribute.distribute_splits rfl hreq hmany hfit' hspareOf
  have hnone := scatterError_none hreq hfit
  rw [← hlength] at hnone hspare hstep
  rw [hcut]
  have hops := hlay.operands
  rw [hcut] at hops
  have hok := Machine.scatterTail_ok (m := m') (s := s) (by rw [htop, hat.rtStack]) hnone hops
    hlay.label (by rw [htop, hat.bc])
    (by rw [htop]) hmid hreq hspare (by rw [harity, hparts]) (by rw [htop]; exact hids) hstarts
  refine ⟨parts, _, hsplits, hstep.trans hok, ?_, ?_, ?_, ?_, hserver, htasks, hrest⟩
  · have henv : m'.top.rtEnv = m.top.rtEnv := by rw [htop]
    exact congrArg (storeParts _ parts) henv
  · exact (congrArg RunActiv.bc htop).trans hat.bc
  · exact (congrArg (fun a => a.rtStack) htop).trans hat.rtStack
  · have hpending : pending (targetsOf cut blocks) parts =
        pending (targetsOf targets blocks) parts := by
      rw [← hcut, targetsOf_cut, pending_cut]
    rw [← hpending]
    rfl

/-- Where the slots fit, the defaults that are needed are evaluated and assigned. -/
theorem scatter_assigns {c : ScatterCode targets rhs} {blocks : List Block} {r : Nat} {l : List Var}
    (hlay : c.Layout blocks r)
    (hvet : vetScatter targets = true) (hslots : ∀ id ∈ slots targets, SlotFits c.fin id)
    (hat : AtScatter c m (.list l) s) (hreq : (arities targets).count .one ≤ l.length)
    (hfit : .many ∈ arities targets ∨ l.length ≤ targets.length) :
    ∃ parts m', Splits (arities targets) l parts ∧ m.step env = some ⟨none, .opcode m'⟩ ∧
      m'.top.rtEnv = storeParts (targetsOf targets blocks) parts m.top.rtEnv ∧
      m'.server = m.server ∧ m'.tasks = m.tasks ∧
      m'.rest = m.rest ∧ Follows env unwound c.done (.list l :: s)
      (pending (targetsOf targets blocks) parts) m' := by
  obtain ⟨parts, m', hsplits, hstep, henv, hbc, hstack, hpc, hserver, htasks, hrest⟩ :
      ∃ parts m', Splits (arities targets) l parts ∧
      m.step env = some ⟨none, .opcode m'⟩ ∧ _ := scatter_divides hlay hvet hat hreq hfit
  have hfits : ∀ id ∈ slots targets, id < 256 ^ c.bc.numbytesVarName := hslots
  rw [cutTargets_eq targets hfits] at henv
  refine ⟨parts, m', hsplits, hstep, henv, hserver, htasks, hrest, ?_⟩
  obtain ⟨hblocks, hids⟩ := blocks_targetsOf hlay.defaults
  have hlen : parts.length = (targetsOf targets blocks).length := by
    rw [hsplits.length, length_arities, length_targetsOf]
  have hsuffix := pending_suffix hlen (by rw [arities_targetsOf]; exact hsplits.leftmost)
  rw [hblocks] at hsuffix
  refine follows_of_chained ((chained_of_blocksAt hlay.defaults hslots).suffix hsuffix) hbc hpc
    hstack fun b hb => ?_
  obtain ⟨t, ht, hblock⟩ := mem_pending hb
  have hslot : t.id ∈ slots targets := by
    rw [← slots_targetsOf targets blocks]
    exact List.mem_map_of_mem ht
  rw [hids t ht b hblock, henv, length_storeParts]
  exact hat.slots t.id hslot

/-- With 255 targets and no `@` a list that is too long is accepted. -/
theorem not_scatters {c : ScatterCode targets rhs} {blocks blocks' : List Block} {r : Nat}
    (hlay : c.Layout blocks r)
    (hvet : vetScatter targets = true) (hat : AtScatter c m v s) (hlong : TooLong targets v) :
    ¬ Scatters env unwound (targetsOf targets blocks') c.done m v s := by
  intro hs
  obtain ⟨hlen, hno, l, rfl, hlong⟩ := hlong
  have hargs :=
    hs.argsError.mpr ⟨l, rfl, .inr ⟨by rwa [arities_targetsOf],
      by rw [length_targetsOf, hlen]; exact hlong⟩⟩
  obtain ⟨l', hl, hshort | ⟨hrest, -⟩⟩ :=
    scatterError_args.mp ((detects_iff hlay hvet hat _).mp hargs)
  · cases hl
    have hcount : (arities targets).count .one ≤ (arities targets).length := List.count_le_length
    rw [length_arities] at hcount
    omega
  · -- The byte is zero, so that the code takes the targets to have one for the rest.
    rw [(haveRest_iff targets).mpr (.inr hlen)] at hrest
    cases hrest

/-- A target with a slot that is cut is not assigned, if it is given something. -/
theorem not_scatters_of_cut {c : ScatterCode targets rhs} {blocks blocks' : List Block}
    {r id n : Nat} {l : List Var}
    (hlay : c.Layout blocks r) (hvet : vetScatter targets = true) (hid : id ∈ slots targets)
    (hcut : ¬ SlotFits c.fin id)
    (hat : AtScatter c m (.list l) s) (henv : m.top.rtEnv = List.replicate n .none)
    (hlen : l.length = targets.length)
    (hvalues : ∀ v ∈ l, v ≠ .none) :
    ¬ Scatters env unwound (targetsOf targets blocks') c.done m (.list l) s := by
  intro hs
  have hcount : (arities targets).count .one ≤ l.length := by
    rw [hlen, ← length_arities]
    exact List.count_le_length
  obtain ⟨parts, m₁, hsplits, hstep, hstored, -⟩ := hs.assigns l rfl (by rwa [arities_targetsOf])
    (.inr (Nat.le_of_eq (hlen.trans (length_targetsOf targets blocks').symm)))
  obtain ⟨parts', m₂, -, hstep', hstored', -⟩ : ∃ parts m', Splits (arities targets) l parts ∧
      m.step env = some ⟨none, .opcode m'⟩ ∧ _ :=
    scatter_divides hlay hvet hat hcount (.inr (Nat.le_of_eq hlen))
  rw [hstep] at hstep'
  cases hstep'
  rw [arities_targetsOf] at hsplits
  have hslot : id < m.top.rtEnv.length := hat.slots id hid
  -- As it ought to be, the variable has a value afterwards.
  have hvalue : m₁.top.rtEnv[id]? ≠ some .none := by
    rw [hstored]
    refine getElem?_storeParts_ne_none ?_ ?_ ?_ hslot (.inl ?_)
    · rw [hsplits.length, length_arities, length_targetsOf]
    · rw [arities_targetsOf]
      intro x hx hmany hnil
      cases hx₁ : x.1 with
      | one =>
        have hone := hsplits.one x hx hx₁
        rw [hnil] at hone
        cases hone
      | opt => exact hsplits.filled (hlen.trans (length_arities targets).symm) x hx hx₁ hnil
      | many => exact hmany hx₁
    · intro part hpart v hv
      refine hvalues v ?_
      rw [← hsplits.flatten]
      exact List.mem_flatten_of_mem hpart hv
    · rwa [slots_targetsOf]
  -- No operand names it, so that it has none.
  refine hvalue ?_
  rw [hstored', getElem?_storeParts_of_notMem, henv]
  · rw [henv, List.length_replicate] at hslot
    rw [List.getElem?_replicate, if_pos hslot]
  · rw [slots_targetsOf, slots_cutTargets]
    intro hmem
    obtain ⟨id', -, heq⟩ := List.mem_map.mp hmem
    exact hcut (heq ▸ Nat.mod_lt id' (Nat.pow_pos (by decide)))

/-- With slots that fit the assignment does what it ought to, unless it has 255 targets and no `@`,
and the list has more elements. -/
theorem scatters_of_fits {c : ScatterCode targets rhs} {blocks : List Block} {r : Nat}
    (hlay : c.Layout blocks r)
    (hvet : vetScatter targets = true) (hslots : ∀ id ∈ slots targets, SlotFits c.fin id)
    (hat : AtScatter c m v s) :
    Scatters env unwound (targetsOf targets blocks) c.done m v s ↔ ¬ TooLong targets v := by
  have harity := arities_targetsOf targets blocks
  have hlen := length_targetsOf targets blocks
  have hflag := haveRest_iff targets
  have hdetects : ∀ e, m.Detects env e ↔ _ := detects_iff hlay hvet hat
  constructor
  · exact fun hs hlong => not_scatters hlay hvet hat hlong hs
  · intro hnot
    refine ⟨(hdetects _).trans scatterError_type,
      ((hdetects _).trans scatterError_args).trans ?_, ?_⟩
    · rw [harity, hlen]
      refine exists_congr fun l => and_congr_right fun hl => or_congr (by omega) ?_
      constructor
      · rintro ⟨hrest, hlt⟩
        refine ⟨fun hmem => ?_, by omega⟩
        rw [hflag.mpr (.inl hmem)] at hrest
        cases hrest
      · rintro ⟨hno, hlt⟩
        refine ⟨Bool.eq_false_iff.mpr fun hyes => ?_, by omega⟩
        have hlen' := (hflag.mp hyes).resolve_left hno
        exact hnot ⟨hlen', hno, l, hl, hlen' ▸ hlt⟩
    · rintro l rfl hreq hfit
      rw [harity] at hreq hfit ⊢
      rw [hlen] at hfit
      exact scatter_assigns hlay hvet hslots hat hreq hfit

/-- The assignment does what it ought to with every value, in a vector that has room for what is
written. -/
structure Right (c : ScatterCode targets rhs) : Prop where
  length : c.bc.vector.length = c.bc.size
  scatters : ∃ blocks r, c.Layout blocks r ∧ ∀ {D : Type} (env : RunEnv D) (unwound : Next D →
    Machine D → Prop) (m : Machine D)
    (v : Var) (s : List Var), AtScatter c m v s →
      Scatters env unwound (targetsOf targets blocks) c.done m v s

/-- A verb at the assignment with a value on the stack, in which no variable has a value. -/
def atAssignment (c : ScatterCode targets rhs) (v : Var) : Machine Unit :=
  Machine.bare c.bc c.start true (List.replicate ((slots targets).sum + 1) .none) [v]

theorem atScatter_atAssignment (c : ScatterCode targets rhs) (v : Var) :
    AtScatter c (atAssignment c v) v [] := by
  refine ⟨rfl, rfl, rfl, fun id hid => ?_⟩
  have hle : id ≤ (slots targets).sum := List.le_sum_of_mem hid
  exact Nat.lt_of_lt_of_eq (Nat.lt_succ_of_le hle) List.length_replicate.symm

/-- With 255 targets and no `@`, or a slot that is cut, some list is not divided as it ought to
be. -/
theorem Right.fits {c : ScatterCode targets rhs} (h : Right c) (hvet : vetScatter targets = true) :
    (∀ id ∈ slots targets, SlotFits c.fin id) ∧
      ¬ (targets.length = 255 ∧ .many ∉ arities targets) := by
  obtain ⟨blocks, r, hlay, hall⟩ := h.scatters
  refine ⟨fun id hid => ?_, fun ⟨hlen, hno⟩ => ?_⟩
  · by_contra hcut
    refine not_scatters_of_cut hlay hvet hid hcut
      (atScatter_atAssignment c (.list (List.replicate targets.length (.int 0)))) rfl
      List.length_replicate (fun v hv => ?_)
        (hall bareEnv (fun _ _ => False) _ _ _ (atScatter_atAssignment c _))
    rw [List.eq_of_mem_replicate hv]
    exact Var.noConfusion
  · have hlong : TooLong targets (.list (List.replicate 256 (.int 0))) :=
      ⟨hlen, hno, _, rfl, by rw [List.length_replicate]; decide⟩
    exact not_scatters hlay hvet (atScatter_atAssignment c _) hlong
      (hall bareEnv (fun _ _ => False) _ _ _ (atScatter_atAssignment c _))

/-- The assignment does what it ought to if there is room for its vector, its slots fit and it has
not 255 targets without an `@`; and with 255 targets it still does so, unless the list has more
elements. -/
theorem scatters_iff (c : ScatterCode targets rhs) (hvet : vetScatter targets = true) :
    (Right c ↔ Room c.fin ∧ (∀ id ∈ slots targets, SlotFits c.fin id) ∧
      ¬ (targets.length = 255 ∧ .many ∉ arities targets)) ∧
      (Room c.fin → (∀ id ∈ slots targets, SlotFits c.fin id) → ∃ blocks r, c.Layout blocks r ∧
        ∀ {D : Type} (env : RunEnv D) (unwound : Next D → Machine D →
          Prop) (m : Machine D) (v : Var) (s : List Var),
          AtScatter c m v s → (Scatters env unwound (targetsOf targets blocks) c.done m v s ↔
            ¬ TooLong targets v)) := by
  have hroom := CodeGen.length_eq_size_iff c.wf_fin
  refine ⟨⟨fun h => ⟨hroom.mp h.length, h.fits hvet⟩, fun ⟨h, hslots, hnot⟩ => ⟨hroom.mpr h, ?_⟩⟩,
    fun h hslots => ?_⟩
  · obtain ⟨blocks, r, hlay⟩ := c.layout h
    exact ⟨blocks, r, hlay, fun env unwound m v s hat =>
      (scatters_of_fits hlay hvet hslots hat).mpr fun hlong => hnot ⟨hlong.1, hlong.2.1⟩⟩
  · obtain ⟨blocks, r, hlay⟩ := c.layout h
    exact ⟨blocks, r, hlay, fun env unwound m v s hat => scatters_of_fits hlay hvet hslots hat⟩

/-! ## Two assignments -/

section Examples

/-- The code of `{…} = args`. -/
def assignArgs (targets : Scatter) : Option CodeGen.State :=
  CodeGen.generateExpr (.asgn (.scatter targets) (.id SLOT_ARGS)) (CodeGen.initState initGState)

/-- The code is complete and its vector has room. -/
def Settles (after : CodeGen.State) : Prop :=
  let fin := CodeGen.emitOp .OP_DONE (ScatterCode.exprLast after)
  (fin.curStack = 0 ∧ fin.savedStack = none) ∧ CodeGen.fullSize fin < CodeGen.UINT_RANGE ∧
    ∀ f ∈ fin.fixups, f.kind = .stack → (CodeGen.header fin).numbytesStack = 1

instance (after : CodeGen.State) : Decidable (Settles after) :=
  inferInstanceAs (Decidable (_ ∧ _ ∧ _))

def soleCode {targets : Scatter}
    (h : (assignArgs targets).any (fun after => decide (Settles after)) = true) :
    ScatterCode targets (.id SLOT_ARGS) :=
  have hset : Settles ((assignArgs targets).get (Option.isSome_of_any h)) :=
    of_decide_eq_true (Option.get_of_any_eq_true _ _ h)
  ScatterCode.sole _ _ rfl (Option.some_get _).symm hset.1.1 hset.1.2

theorem room_soleCode {targets : Scatter}
    (h : (assignArgs targets).any (fun after => decide (Settles after)) = true) :
    Room (soleCode h).fin := by
  have hset : Settles ((assignArgs targets).get (Option.isSome_of_any h)) :=
    of_decide_eq_true (Option.get_of_any_eq_true _ _ h)
  exact ⟨hset.2.1, hset.2.2⟩

/-- `{a, ?b = 5, @c}` -/
def mixedTargets : Scatter :=
  .cons .required 18 .none (.cons .optional 19 (.some (.var (.int 5))) (.cons .rest 20 .none .nil))

def mixedCode : ScatterCode mixedTargets (.id SLOT_ARGS) := soleCode (by decide +kernel)

theorem scatters_mixed : ∃ blocks r, mixedCode.Layout blocks r ∧
    Scatters bareEnv (fun _ _ => False) (targetsOf mixedTargets blocks) mixedCode.done
      (atAssignment mixedCode (.list [.int 1, .int 2])) (.list [.int 1, .int 2]) [] := by
  obtain ⟨blocks, r, hlay, h⟩ :=
    (scatters_iff mixedCode (by decide)).2 (room_soleCode _) (by decide +kernel)
  exact ⟨blocks, r, hlay, (h _ _ _ _ _ (atScatter_atAssignment _ _)).mpr fun hlong =>
    absurd hlong.1 (by decide)⟩

/-- The same variable over and over. -/
def sameTargets : Nat → Scatter
  | 0 => .nil
  | n + 1 => .cons .required 18 .none (sameTargets n)

theorem settles_of_small {after : CodeGen.State} (hcur : after.curStack = 1)
    (hsaved : after.savedStack = none)
    (hsize : CodeGen.fullSize (CodeGen.emitOp .OP_DONE (ScatterCode.exprLast after)) <
      CodeGen.UINT_RANGE)
    (hstack : ∀ f ∈ after.fixups, f.kind ≠ .stack) : Settles after :=
  ⟨⟨by simp [ScatterCode.exprLast, hcur], hsaved⟩, hsize, fun f hf hk => absurd hk (hstack f hf)⟩

/-- No operand has more than three bytes in excess. -/
theorem fullSize_le_three (st : CodeGen.State) :
    CodeGen.fullSize st ≤ st.numBytes + 3 * (st.numLiterals + st.numForks + st.numVarRefs +
      st.numLabels) := by
  have hw : ∀ kind, (CodeGen.header st).width kind - 1 ≤ 3 := fun kind => by
    rcases CodeGen.header_width st kind with h | h | h <;> rw [h] <;> decide
  have hliterals := Nat.mul_le_mul_left st.numLiterals (hw .literal)
  have hforks := Nat.mul_le_mul_left st.numForks (hw .fork)
  have hvarRefs := Nat.mul_le_mul_left st.numVarRefs (hw .varRef)
  have hlabels := Nat.mul_le_mul_left st.numLabels (hw .label)
  simp only [Bytecodes.width] at hliterals hforks hvarRefs hlabels
  rw [CodeGen.fullSize]
  omega

theorem fullSize_exprLast (st : CodeGen.State) :
    CodeGen.fullSize (CodeGen.emitOp .OP_DONE (ScatterCode.exprLast st)) ≤
    st.numBytes + 2 + 3 * (st.numLiterals + st.numForks + st.numVarRefs + st.numLabels) := by
  have hbytes : (CodeGen.emitOp .OP_DONE (ScatterCode.exprLast st)).numBytes = st.numBytes + 2 := by
    rw [CodeGen.emitOp_numBytes, ScatterCode.exprLast, CodeGen.popStack_numBytes,
      CodeGen.emitOp_numBytes]
  exact hbytes ▸ fullSize_le_three (CodeGen.emitOp .OP_DONE (ScatterCode.exprLast st))

/-- The targets add variables and labels. -/
structure AddsSame (n : Nat) (st st' : CodeGen.State) : Prop where
  cur : st'.curStack = st.curStack
  saved : st'.savedStack = st.savedStack
  numBytes : st'.numBytes = st.numBytes + 2 * n
  literals : st'.numLiterals = st.numLiterals
  forks : st'.numForks = st.numForks
  varRefs : st'.numVarRefs = st.numVarRefs + n
  labels : st'.numLabels = st.numLabels + n
  fixups : ∀ f ∈ st'.fixups, f ∈ st.fixups ∨ f.kind ≠ .stack

theorem addTargets_same (n : Nat) (st : CodeGen.State) :
    (CodeGen.addTargets (sameTargets n) st).1 = [] ∧
      AddsSame n st (CodeGen.addTargets (sameTargets n) st).2 := by
  induction n generalizing st with
  | zero => exact ⟨rfl, rfl, rfl, rfl, rfl, rfl, rfl, rfl, fun f hf => .inl hf⟩
  | succ n ih =>
    obtain ⟨hnil, h⟩ := ih (CodeGen.addPseudoLabel 0 (CodeGen.addVarRef 18 st))
    refine ⟨hnil, h.cur, h.saved, ?_, h.literals, h.forks, ?_, ?_, fun f hf => ?_⟩
    · have hbytes := h.numBytes
      rw [CodeGen.addPseudoLabel_numBytes, CodeGen.addVarRef_numBytes] at hbytes
      exact hbytes.trans (by omega)
    · exact h.varRefs.trans (Nat.add_right_comm _ 1 n)
    · exact h.labels.trans (Nat.add_right_comm _ 1 n)
    · rcases h.fixups f hf with hold | hnew
      · rw [CodeGen.addPseudoLabel, (CodeGen.addKnownLabel_adds rfl _).fixups,
          (CodeGen.addVarRef_adds 18 st).fixups,
          List.mem_append, List.mem_append] at hold
        rcases hold with (hold | hvar) | hlabel
        · exact .inl hold
        · rw [List.mem_singleton.mp hvar]
          exact .inr FixupKind.noConfusion
        · rw [List.mem_singleton.mp hlabel]
          exact .inr FixupKind.noConfusion
      · exact .inr hnew

theorem generateDefaults_same (n : Nat) (labels : List Nat) (st : CodeGen.State) :
    CodeGen.generateDefaults (sameTargets n) labels st = some st := by
  induction n with
  | zero => rfl
  | succ n ih =>
    rw [sameTargets, CodeGen.generateDefaults]
    · exact ih
    · simp

/-- The state behind the value and the byte operands. -/
def beforeSame (n : Nat) : CodeGen.State :=
  CodeGen.emitScatter (sameTargets n)
    (CodeGen.pushStack 1 (CodeGen.emitPush SLOT_ARGS (CodeGen.initState initGState)))

/-- After the targets comes the label of the end, which is defined behind them. -/
theorem AddsSame.settles {n : Nat} {st' : CodeGen.State} (h : AddsSame n (beforeSame n) st')
    (hn : n < 256) :
    Settles (CodeGen.defineLabel (some (CodeGen.addLabel st').1) (CodeGen.addLabel st').2) := by
  have hundone := CodeGen.undone_addLabel st'
  refine settles_of_small ?_ ?_ ?_ fun f hf => ?_
  · rw [CodeGen.defineLabel_curStack]
    exact h.cur
  · rw [CodeGen.defineLabel_savedStack]
    exact h.saved
  · obtain ⟨fixups, -, he⟩ :=
      CodeGen.defineLabel_frame (some (CodeGen.addLabel st').1) (CodeGen.addLabel st').2
    have hbytes : (CodeGen.addLabel st').2.numBytes = st'.numBytes + 1 :=
      CodeGen.addLinkedLabel_numBytes none st'
    have hlabels : (CodeGen.addLabel st').2.numLabels = st'.numLabels + 1 := rfl
    have hsame : st'.numBytes = 6 + 2 * n ∧ st'.numLiterals = 0 ∧ st'.numForks = 0 ∧
        st'.numVarRefs = 0 + n ∧ st'.numLabels = 0 + n :=
      ⟨h.numBytes, h.literals, h.forks, h.varRefs, h.labels⟩
    have hrange : CodeGen.UINT_RANGE = 4294967296 := by norm_num [CodeGen.UINT_RANGE]
    rw [he, hrange]
    refine Nat.lt_of_le_of_lt (fullSize_exprLast _) ?_
    change (CodeGen.addLabel st').2.numBytes + 2 + 3 *
      ((CodeGen.addLabel st').2.numLiterals + (CodeGen.addLabel st').2.numForks
      + (CodeGen.addLabel st').2.numVarRefs + (CodeGen.addLabel st').2.numLabels) < 4294967296
    have hkept : (CodeGen.addLabel st').2.numLiterals = st'.numLiterals ∧
        (CodeGen.addLabel st').2.numForks = st'.numForks ∧
        (CodeGen.addLabel st').2.numVarRefs = st'.numVarRefs := ⟨rfl, rfl, rfl⟩
    omega
  · rw [CodeGen.defineLabel_eq hundone.chain] at hf
    obtain ⟨j, hj⟩ := List.mem_iff_getElem?.mp hf
    rw [CodeGen.getElem?_resolveAll] at hj
    split at hj
    · next hmem =>
      obtain ⟨g, hg, rfl⟩ := Option.map_eq_some_iff.mp hj
      obtain ⟨g', hg', hk, -⟩ := hundone
      rw [List.mem_singleton.mp hmem, hg'] at hg
      cases hg
      have hlabel : (CodeGen.State.resolve (CodeGen.addLabel st').2 g).kind = .label := hk
      rw [hlabel]
      exact FixupKind.noConfusion
    · have hadded := List.mem_of_getElem? hj
      rw [CodeGen.addLabel_eq, (CodeGen.addLinkedLabel_adds none _).fixups,
        List.mem_append] at hadded
      rcases hadded with hold | hnew
      · exact (h.fixups f hold).resolve_left List.not_mem_nil
      · rw [List.mem_singleton.mp hnew]
        exact FixupKind.noConfusion

theorem settles_same {n : Nat} (hn : n < 256) :
    (assignArgs (sameTargets n)).any (fun after => decide (Settles after)) = true := by
  obtain ⟨hnil, h⟩ := addTargets_same n (beforeSame n)
  rw [assignArgs, CodeGen.generateExpr_scatter, CodeGen.generateExpr, Option.bind_eq_bind,
    Option.bind_some]
  change Option.any _ (Option.bind (CodeGen.generateDefaults (sameTargets n)
    (CodeGen.addTargets (sameTargets n) (beforeSame n)).1 _) _) = true
  rw [generateDefaults_same, Option.bind_some]
  exact decide_eq_true (h.settles hn)

def longCode : ScatterCode (sameTargets 255) (.id SLOT_ARGS) := soleCode (settles_same (by decide))

/-- A list with an element too many. -/
def longList : List Var := List.replicate 256 (.int 0)

/-- 255 targets accept 256 elements. -/
theorem long_list_accepted :
    vetScatter (sameTargets 255) = true ∧ ∃ blocks r, longCode.Layout blocks r ∧
    ¬ Scatters bareEnv (fun _ _ => False) (targetsOf (sameTargets 255) blocks) longCode.done
      (atAssignment longCode (.list longList))
      (.list longList) [] := by
  have hvet : vetScatter (sameTargets 255) = true := by decide +kernel
  obtain ⟨blocks, r, hlay⟩ := longCode.layout (room_soleCode _)
  refine ⟨hvet, blocks, r, hlay, not_scatters hlay hvet (atScatter_atAssignment _ _) ?_⟩
  exact ⟨by decide +kernel, by decide +kernel, longList, rfl, by decide +kernel⟩

end Examples

end NuMoo.Exec
