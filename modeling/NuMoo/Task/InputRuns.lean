import NuMoo.Task.InputQueue

/-!
# Runs of the input queue

Every sequence of the operations that `tasks.c` makes on the input of one `tqueue`, on
memory and on the list of lines that it stands for.

Results:
1. `inputQueue_refines`: both give the same lines in the same order.
2. `dequeue_oob_disabled`: a queued out-of-band line is not given out as such while
   `disable_oob` is set.
-/

namespace NuMoo
namespace Task

/-- An operation on the input of a `tqueue`. -/
inductive InputOp where
  | enqueueInputTask (t : Nat) (input : Str) (atFront binary : Bool)
  | dequeueInputTask (how : DequeueHow)
  | flushInput
  | setDisableOob (b : Bool)

/-- The list of lines of a `tqueue`, and its connection option. -/
structure Lines where
  lines : List InputTask
  disableOob : Bool
deriving DecidableEq, Repr

namespace Lines

/-- An operation on the list, with the line that it hands over. -/
def step (s : Lines) : InputOp → Option InputTask × Lines
  | .enqueueInputTask t input atFront binary =>
    (none, { s with lines := enqueue t input atFront binary s.lines })
  | .dequeueInputTask how => ((dequeue s.disableOob how s.lines).1,
      { s with lines := (dequeue s.disableOob how s.lines).2 })
  | .flushInput => (none, { s with lines := [] })
  | .setDisableOob b => (none, { s with disableOob := b })

def run (s : Lines) : List InputOp → List (Option InputTask) × Lines
  | [] => ([], s)
  | op :: ops =>
    let (o, s) := s.step op
    let (os, s) := s.run ops
    (o :: os, s)

/-- A new task is not at the address of one that is queued. -/
def Fresh (s : Lines) : InputOp → Prop
  | .enqueueInputTask t _ _ _ => t ∉ s.lines.map InputTask.addr
  | _ => True

/-- Every new task of a sequence of operations is fresh. -/
def Allocates (s : Lines) : List InputOp → Prop
  | [] => True
  | op :: ops => s.Fresh op ∧ (s.step op).2.Allocates ops

end Lines

namespace InputQueue

/-- The queue that `find_tqueue` makes. -/
def create (connected : Bool) : InputQueue where
  heap := fun _ => none
  firstInput := none
  lastInput := .head
  firstItail := none
  lastItail := .head
  totalInputLength := 0
  inputSuspended := false
  connected := connected
  disableOob := false

/-- The task at an address, as its caller reads it. -/
def task (q : InputQueue) (t : Nat) : Option InputTask :=
  (q.heap t).map fun c => { addr := t, kind := c.kind, string := c.string, length := c.length }

/-- The line that a caller of `dequeue_input_task` gets. -/
def handOver (q : InputQueue) : Option Nat → Option (Option InputTask × InputQueue)
  | none => some (none, q)
  | some t => do
    let line ← q.task t
    return (some line, q)

/-- An operation on memory, with the line that it hands over. The fuel is for `flush_input`. -/
def step (fuel : Nat) (q : InputQueue) : InputOp → Option (Option InputTask × InputQueue)
  | .enqueueInputTask t input atFront binary => do
    let q ← q.enqueueInputTask t input atFront binary
    return (none, q)
  | .dequeueInputTask how => do
    let (t, q) ← q.dequeueInputTask how
    q.handOver t
  | .flushInput => do
    let q ← flushInput fuel q
    return (none, q)
  | .setDisableOob b => return (none, { q with disableOob := b })

def run (fuel : Nat) (q : InputQueue) : List InputOp → Option (List (Option InputTask) × InputQueue)
  | [] => some ([], q)
  | op :: ops => do
    let (o, q) ← q.step fuel op
    let (os, q) ← q.run fuel ops
    return (o :: os, q)

end InputQueue

open InputQueue

variable {q : InputQueue} {s : Lines} {fuel : Nat} {op : InputOp} {ops : List InputOp}

/-- The queue in memory stands for the list. -/
structure Refines (q : InputQueue) (s : Lines) : Prop where
  rep : Rep q s.lines
  disableOob : q.disableOob = s.disableOob

theorem create_refines (connected : Bool) :
    Refines (create connected) { lines := [], disableOob := false } :=
  ⟨⟨⟨⟨rfl, rfl, rfl, rfl⟩, .nil, by simp⟩, by simp, rfl⟩, rfl⟩

/-- One operation adds at most one line. -/
theorem Lines.length_step (s : Lines) (op : InputOp) :
    (s.step op).2.lines.length ≤ s.lines.length + 1 := by
  cases op with
  | enqueueInputTask t input atFront binary =>
    simp only [step, enqueue]
    split <;> simp
  | dequeueInputTask how =>
    have : (dequeue s.disableOob how s.lines).2.length ≤ s.lines.length :=
      List.eraseP_sublist.length_le
    simp only [step]
    omega
  | flushInput => simp [step]
  | setDisableOob b => simp [step]

/-- The address under which a line is read is the one under which it was handed over. -/
theorem handOver_of_yields {o : Option Nat} {t : Option InputTask} (h : Yields q o t) :
    q.handOver o = some (t, q) := by
  obtain ⟨rfl, hd⟩ := h
  cases t with
  | none => rfl
  | some t =>
    have ht := hd t rfl
    rw [data, Option.map_eq_some_iff] at ht
    obtain ⟨c, hc, he⟩ := ht
    simp only [Prod.mk.injEq] at he
    obtain ⟨hk, hs, hl⟩ := he
    simp only [Option.map_some, handOver, task, hc, hk, hs, hl]
    rfl

theorem step_refines (h : Refines q s) (hf : s.Fresh op) (hn : s.lines.length ≤ fuel) :
    ∃ q', q.step fuel op = some ((s.step op).1, q') ∧ Refines q' (s.step op).2 := by
  cases op with
  | enqueueInputTask t input atFront binary =>
    obtain ⟨q', hq', hrep, hdis⟩ := enqueueInputTask_spec h.rep hf input atFront binary
    refine ⟨q', ?_, hrep, hdis.trans h.disableOob⟩
    rw [InputQueue.step, hq']
    rfl
  | dequeueInputTask how =>
    obtain ⟨o, q', hq', hrep, hdis, hy⟩ := dequeueInputTask_spec h.rep how
    rw [h.disableOob] at hrep hy
    refine ⟨q', ?_, hrep, hdis.trans h.disableOob⟩
    rw [InputQueue.step, hq', Lines.step]
    exact handOver_of_yields hy
  | flushInput =>
    obtain ⟨q', hq', hrep, hdis⟩ := flushInput_spec fuel h.rep hn
    refine ⟨q', ?_, hrep, hdis.trans h.disableOob⟩
    rw [InputQueue.step, hq']
    rfl
  | setDisableOob b =>
    exact ⟨_, rfl, ⟨h.rep.toThreaded.of_eq rfl rfl rfl rfl rfl, h.rep.lengths, h.rep.total⟩, rfl⟩

theorem run_refines (h : Refines q s) (ha : s.Allocates ops)
    (hn : s.lines.length + ops.length ≤ fuel) :
    ∃ q', q.run fuel ops = some ((s.run ops).1, q') ∧ Refines q' (s.run ops).2 := by
  induction ops generalizing q s with
  | nil => exact ⟨q, rfl, h⟩
  | cons op ops ih =>
    rw [List.length_cons] at hn
    obtain ⟨q', hq', h'⟩ := step_refines h ha.1 (by omega : s.lines.length ≤ fuel)
    have hlen := s.length_step op
    obtain ⟨q'', hq'', h''⟩ := ih h' ha.2 (by omega)
    refine ⟨q'', ?_, h''⟩
    rw [InputQueue.run, hq']
    simp only [Option.bind_eq_bind, Option.bind_some, hq'']
    rfl

/-- Every sequence of operations on a new queue hands over the lines that it would hand over on a
list, none lost and none twice, and leaves the queue as its comment says. While `disable_oob` is
set, `DQ_OOB` gets nothing and the other modes get the first line. The queue counts the characters
that it holds, while there are fewer of them than `2 ^ 31`. -/
theorem inputQueue_refines (connected : Bool) (ops : List InputOp) (fuel : Nat)
    (hf : ops.length ≤ fuel)
    (ha : Lines.Allocates { lines := [], disableOob := false } ops) :
    ∃ q, (create connected).run fuel ops =
      some ((Lines.run { lines := [], disableOob := false } ops).1, q) ∧
      q.disableOob = (Lines.run { lines := [], disableOob := false } ops).2.disableOob ∧
      Rep q (Lines.run { lines := [], disableOob := false } ops).2.lines ∧
      (((Lines.run { lines := [], disableOob := false } ops).2.lines.map fun t =>
        t.string.length).sum < 2 ^ 31 →
        q.totalInputLength =
          ((Lines.run { lines := [], disableOob := false } ops).2.lines.map fun t =>
            t.string.length).sum) := by
  obtain ⟨q, hq, h⟩ := run_refines (create_refines connected) ha (by simpa using hf)
  exact ⟨q, hq, h.disableOob, h.rep, h.rep.total_eq⟩

/-- Lines of both kinds at both ends, and one taken from the middle. -/
theorem inputQueue_refines_mixed :
    ∃ q, (create true).run 4
        [.enqueueInputTask 0 [97] false false, .enqueueInputTask 1 [35, 36, 35] false false,
          .enqueueInputTask 2 [98] true false, .dequeueInputTask .DQ_OOB] =
        some ([none, none, none,
          some { addr := 1, kind := .TASK_OOB, string := [35, 36, 35], length := 3 }], q) ∧
      q.disableOob = false ∧
      Rep q [{ addr := 2, kind := .TASK_INBAND, string := [98], length := 1 },
        { addr := 0, kind := .TASK_INBAND, string := [97], length := 1 }] ∧
        q.totalInputLength = 2 := by
  have hrun : Lines.run { lines := [], disableOob := false }
      [.enqueueInputTask 0 [97] false false, .enqueueInputTask 1 [35, 36, 35] false false,
        .enqueueInputTask 2 [98] true false, .dequeueInputTask .DQ_OOB] =
      ([none, none, none,
        some { addr := 1, kind := .TASK_OOB, string := [35, 36, 35], length := 3 }],
        { lines := [{ addr := 2, kind := .TASK_INBAND, string := [98], length := 1 },
            { addr := 0, kind := .TASK_INBAND, string := [97], length := 1 }]
          disableOob := false }) := by
    decide +kernel
  have h := inputQueue_refines true
    [.enqueueInputTask 0 [97] false false, .enqueueInputTask 1 [35, 36, 35] false false,
      .enqueueInputTask 2 [98] true false, .dequeueInputTask .DQ_OOB] 4 (by decide)
    (by simp [Lines.Allocates, Lines.Fresh, Lines.step, enqueue, lineTask])
  rw [hrun] at h
  obtain ⟨q, hq, hdis, hrep, htotal⟩ := h
  exact ⟨q, hq, hdis, hrep, htotal (by decide)⟩

/-- With `disable_oob` set, `DQ_OOB` gets nothing, though the first task of the queue is a
`TASK_OOB`. -/
theorem dequeue_oob_disabled :
    ∃ q, (create true).run 2 [.enqueueInputTask 0 [35, 36, 35] false false, .setDisableOob true] =
      some ([none, none], q) ∧
      q.firstInput = some 0 ∧ (q.heap 0).map Cell.kind = some .TASK_OOB ∧
      q.dequeueInputTask .DQ_OOB = some (none, q) :=
  ⟨_, rfl, rfl, rfl, rfl⟩

end Task
end NuMoo
