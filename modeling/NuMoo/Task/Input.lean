import NuMoo.Code.Value

/-!
# Lines of input as a plain list

What the input queue of a connection is for: an ordered list of lines, from which the
first line, the first out-of-band line or the first in-band line is taken. The kinds of
lines and what happens to a line that is taken follow `tasks.c`.

Results:
1. `dequeue_partition`: what is taken is in the list, and the others keep their order.
-/

namespace NuMoo
namespace Task

/-- The kinds of `task_kind` that hold input. -/
inductive InputKind where
  | TASK_INBAND | TASK_OOB | TASK_QUOTED | TASK_BINARY
deriving DecidableEq, Repr

/-- A line of input, with the address of the task that holds it. -/
structure InputTask where
  addr : Nat
  kind : InputKind
  string : Str
  /-- An `int`. -/
  length : Int
deriving DecidableEq, Repr

/-- `enum dequeue_how` -/
inductive DequeueHow where
  | DQ_FIRST | DQ_OOB | DQ_INBAND
deriving DecidableEq, Repr

/-- The numbers of `enum dequeue_how`. -/
def DequeueHow.code : DequeueHow → Int
  | .DQ_FIRST => -1
  | .DQ_OOB => 0
  | .DQ_INBAND => 1

/-- `kind == TASK_OOB` -/
def InputKind.isOob (k : InputKind) : Bool := k = .TASK_OOB

def InputTask.isOob (t : InputTask) : Bool := t.kind.isOob

/-- `OUT_OF_BAND_PREFIX`, "#$#" -/
def oobPrefix : Str := [35, 36, 35]

/-- `OUT_OF_BAND_QUOTE_PREFIX`, "#$" and a quote -/
def oobQuotePrefix : Str := [35, 36, 34]

/-- The kind that `enqueue_input_task` gives a line. -/
def inputKind (input : Str) (binary : Bool) : InputKind :=
  if binary then .TASK_BINARY
  else if oobQuotePrefix.isPrefixOf input then .TASK_QUOTED
  else if oobPrefix.isPrefixOf input then .TASK_OOB
  else .TASK_INBAND

/-- What `dequeue_input_task` does with the kind of a task that it takes. -/
def deliveredKind (disableOob : Bool) (kind : InputKind) : InputKind :=
  match kind with
  | .TASK_OOB => if disableOob then .TASK_INBAND else .TASK_OOB
  | .TASK_QUOTED => .TASK_INBAND
  | kind => kind

/-- What `dequeue_input_task` does with the line of a task that it takes. -/
def deliveredString (disableOob : Bool) (kind : InputKind) (string : Str) : Str :=
  match kind with
  | .TASK_QUOTED => if disableOob then string else string.drop oobQuotePrefix.length
  | _ => string

def InputTask.delivered (disableOob : Bool) (t : InputTask) : InputTask :=
  { t with kind := deliveredKind disableOob t.kind,
           string := deliveredString disableOob t.kind t.string }

/-- The lines that a mode asks for. -/
def DequeueHow.wants : DequeueHow → InputTask → Bool
  | .DQ_FIRST, _ => true
  | .DQ_OOB, t => t.isOob
  | .DQ_INBAND, t => !t.isOob

/-- The lines that a mode asks for, given whether out-of-band lines are treated as in-band ones. -/
def wanted (disableOob : Bool) (how : DequeueHow) (t : InputTask) : Bool :=
  if disableOob then how ≠ .DQ_OOB else how.wants t

/-- Taking a line from the list: the first that is wanted. -/
def dequeue (disableOob : Bool) (how : DequeueHow) (l : List InputTask) :
    Option InputTask × List InputTask :=
  ((l.find? (wanted disableOob how)).map (InputTask.delivered disableOob),
    l.eraseP (wanted disableOob how))

/-- The task that `enqueue_input_task` makes of a line. -/
def lineTask (addr : Nat) (input : Str) (binary : Bool) : InputTask :=
  { addr := addr, kind := inputKind input binary, string := cstr input,
    length := int32 (cstr input).length }

/-- A new line at the front or at the rear of the list. -/
def enqueue (addr : Nat) (input : Str) (atFront binary : Bool) (l : List InputTask) :
    List InputTask :=
  let t := lineTask addr input binary
  if atFront then t :: l else l ++ [t]

/-- The sum of the lengths of a list of lines. -/
def totalLength (l : List InputTask) : Int := (l.map InputTask.length).sum

variable {disableOob : Bool} {how : DequeueHow} {l : List InputTask}

theorem totalLength_cons (t : InputTask) (l : List InputTask) :
    totalLength (t :: l) = t.length + totalLength l := by
  simp [totalLength]

theorem totalLength_singleton (t : InputTask) : totalLength [t] = t.length := by
  simp [totalLength]

theorem totalLength_append (m r : List InputTask) :
    totalLength (m ++ r) = totalLength m + totalLength r := by
  simp [totalLength]

theorem mem_enqueue {addr : Nat} {input : Str} {atFront binary : Bool} {t : InputTask}
    (ht : t ∈ enqueue addr input atFront binary l) : t = lineTask addr input binary ∨ t ∈ l := by
  unfold enqueue at ht
  cases atFront with
  | true => exact List.mem_cons.mp ht
  | false => exact (List.mem_append.mp ht).symm.imp_left List.mem_singleton.mp

theorem enqueue_nodup {addr : Nat} {input : Str} {atFront binary : Bool}
    (h : (l.map InputTask.addr).Nodup)
    (ha : addr ∉ l.map InputTask.addr) :
    ((enqueue addr input atFront binary l).map InputTask.addr).Nodup := by
  have hperm : (enqueue addr input atFront binary l).Perm (lineTask addr input binary :: l) := by
    unfold enqueue
    cases atFront with
    | true => exact .refl _
    | false => exact List.perm_append_singleton _ l
  rw [(hperm.map InputTask.addr).nodup_iff]
  exact List.nodup_cons.mpr ⟨ha, h⟩

theorem totalLength_enqueue (addr : Nat) (input : Str) (atFront binary : Bool)
    (l : List InputTask) :
    totalLength (enqueue addr input atFront binary l) = totalLength l +
      (lineTask addr input binary).length := by
  cases atFront with
  | true => exact (totalLength_cons (lineTask addr input binary) l).trans (add_comm _ _)
  | false =>
    exact (totalLength_append l [lineTask addr input binary]).trans
      (congrArg _ (totalLength_singleton _))

/-- What is taken was in the list, no line before it was wanted, and the others stay in their
order. -/
theorem dequeue_partition {t : InputTask} (h : (dequeue disableOob how l).1 = some t) :
    ∃ m u r, l = m ++ u :: r ∧ (dequeue disableOob how l).2 = m ++ r ∧ t = u.delivered disableOob ∧
      wanted disableOob how u = true ∧ ∀ x ∈ m, wanted disableOob how x = false := by
  simp only [dequeue, Option.map_eq_some_iff] at h ⊢
  obtain ⟨u, hu, rfl⟩ := h
  obtain ⟨hw, m, r, rfl, hm⟩ := List.find?_eq_some_iff_append.mp hu
  refine ⟨m, u, r, rfl, ?_, rfl, hw, fun x hx => by simpa using hm x hx⟩
  rw [List.eraseP_append_right _ (by simpa using hm), List.eraseP_cons_of_pos hw]

/-- Nothing is taken only when no line is wanted, and then the list stays. -/
theorem dequeue_eq_none (h : (dequeue disableOob how l).1 = none) :
    (∀ x ∈ l, wanted disableOob how x = false) ∧ (dequeue disableOob how l).2 = l := by
  simp only [dequeue, Option.map_eq_none_iff, List.find?_eq_none] at h ⊢
  exact ⟨fun x hx => by simpa using h x hx, List.eraseP_of_forall_not h⟩

end Task
end NuMoo
