import NuMoo.Lib.Slot
import Mathlib.Data.List.TakeWhile
import NuMoo.Task.Input

/-!
# The input queue in memory

The two interleaved lists of `tqueue`: the tasks in order, threaded along `next`, and the
last tasks of the contiguous sequences of `TASK_OOB`s and of other tasks, threaded along
`next_itail`. A result `none` is a use of a pointer to no task.

Results:
1. `dequeueInputTask_spec`, `enqueueInputTask_spec`, `flushInput_spec`: the operations on memory
   do what the operations on the list of lines do.
-/

namespace NuMoo
namespace Task

open Linked

/-- A `task` that holds input. -/
structure Cell where
  next : Option Nat
  kind : InputKind
  string : Str
  /-- An `int`. -/
  length : Int
  nextItail : Option Nat
deriving DecidableEq, Repr

/-- The fields of `tqueue` for input, and the memory of the tasks. -/
structure InputQueue where
  heap : Nat → Option Cell
  firstInput : Option Nat
  lastInput : Slot Nat
  firstItail : Option Nat
  lastItail : Slot Nat
  /-- An `int`. -/
  totalInputLength : Int
  inputSuspended : Bool
  connected : Bool
  disableOob : Bool

/-- `INPUT_HIWAT` -/
def INPUT_HIWAT : Int := 1048576

/-- `INPUT_LOWAT` -/
def INPUT_LOWAT : Int := INPUT_HIWAT / 2

namespace InputQueue

/-- The list along `next`. -/
def nexts (q : InputQueue) : Mem Nat := ⟨q.firstInput, fun a => (q.heap a).map Cell.next⟩

/-- The list along `next_itail`. -/
def itails (q : InputQueue) : Mem Nat := ⟨q.firstItail, fun a => (q.heap a).map Cell.nextItail⟩

/-- A change of one task. -/
def modify (q : InputQueue) (a : Nat) (f : Cell → Cell) : InputQueue :=
  { q with heap := Function.update q.heap a ((q.heap a).map f) }

/-- `*pt = p` -/
def storeNext (q : InputQueue) (s : Slot Nat) (p : Option Nat) : InputQueue :=
  match s with
  | .head => { q with firstInput := p }
  | .field a => q.modify a fun c => { c with next := p }

/-- `*pitail = p` -/
def storeItail (q : InputQueue) (s : Slot Nat) (p : Option Nat) : InputQueue :=
  match s with
  | .head => { q with firstItail := p }
  | .field a => q.modify a fun c => { c with nextItail := p }

/-- The slots that `dequeue_input_task` chooses: those of the first sequence or those of the
second. -/
def choose (q : InputQueue) (how : DequeueHow) (first : Cell) : Option (Slot Nat × Slot Nat) :=
  if how.code = (if first.kind.isOob then 1 else 0) then
    q.firstItail.map fun x => (.field x, .field x)
  else some (.head, .head)

/-- `dequeue_input_task` takes `t` out of the list along `next`. -/
def unlinkNext (q : InputQueue) (pt : Slot Nat) (t : Nat) (cell : Cell) : InputQueue :=
  let q := q.storeNext pt cell.next
  match cell.next with
  | none => { q with lastInput := pt }
  | some _ => q.modify t fun c => { c with next := none }

/-- `dequeue_input_task` takes `t` out of the list along `next_itail`, if it is in it. -/
def unlinkItail (q : InputQueue) (pitail : Slot Nat) (t : Nat) : Option InputQueue := do
  let tail ← q.itails.load pitail
  if tail = some t then
    let q := q.storeItail pitail none
    let cell ← q.heap t
    let q :=
      match cell.nextItail with
      | none => q
      | some n => ({ q with firstItail := some n }).modify t fun c => { c with nextItail := none }
    let last ← q.itails.load q.lastItail
    return if last = none then { q with lastItail := .head } else q
  else return q

/-- `dequeue_input_task` accounts for the length of the line and hands it over. -/
def deliver (q : InputQueue) (t : Nat) (cell : Cell) : InputQueue :=
  let total := int32 (q.totalInputLength - cell.length)
  let q := { q with totalInputLength := total }
  let q := if q.inputSuspended && q.connected && total < INPUT_LOWAT then
    { q with inputSuspended := false } else q
  q.modify t fun c =>
    { c with kind := deliveredKind q.disableOob cell.kind,
             string := deliveredString q.disableOob cell.kind cell.string }

/-- `dequeue_input_task`, after the test of `disable_oob`. -/
def dequeueHow (q : InputQueue) (how : DequeueHow) : Option (Option Nat × InputQueue) :=
  match q.firstInput with
  | none => some (none, q)
  | some f => do
    let first ← q.heap f
    let (pt, pitail) ← q.choose how first
    let p ← q.nexts.load pt
    match p with
    | none => return (none, q)
    | some t =>
      let cell ← q.heap t
      let q ← (q.unlinkNext pt t cell).unlinkItail pitail t
      return (some t, q.deliver t cell)

/-- `dequeue_input_task` -/
def dequeueInputTask (q : InputQueue) (how : DequeueHow) : Option (Option Nat × InputQueue) :=
  if q.disableOob then
    if how = .DQ_OOB then some (none, q) else q.dequeueHow .DQ_FIRST
  else q.dequeueHow how

/-- `enqueue_input_task` links a task at the front of a queue that is not empty. -/
def linkFront (q : InputQueue) (t f : Nat) (kind : InputKind) : Option InputQueue := do
  let first ← q.heap f
  let q :=
    if first.kind.isOob ≠ kind.isOob then
      let q := q.modify t fun c => { c with nextItail := q.firstItail }
      let q := { q with firstItail := some t }
      if q.lastItail = .head then { q with lastItail := .field t } else q
    else q
  return { q.modify t fun c => { c with next := some f } with firstInput := some t }

/-- `enqueue_input_task` moves `last_itail` on when a line begins a new sequence at the rear. -/
def openItail (q : InputQueue) (kind : InputKind) : Option InputQueue :=
  if q.firstInput = none then some q
  else do
    let x ← (← q.itails.load q.lastItail)
    let tail ← q.heap x
    return if tail.kind.isOob ≠ kind.isOob then { q with lastItail := .field x } else q

/-- `enqueue_input_task` links a task at the rear, or in an empty queue. -/
def linkRear (q : InputQueue) (t : Nat) (kind : InputKind) : Option InputQueue := do
  let q ← q.openItail kind
  let q := q.storeItail q.lastItail (some t)
  let q := q.storeNext q.lastInput (some t)
  return { q with lastInput := .field t }

/-- `enqueue_input_task` links a task; at the front of an empty queue is at its rear. -/
def link (q : InputQueue) (t : Nat) (kind : InputKind) (atFront : Bool) : Option InputQueue :=
  match atFront, q.firstInput with
  | true, some f => q.linkFront t f kind
  | _, _ => q.linkRear t kind

/-- `enqueue_input_task` fills a task, whatever was left in its fields, and counts its line. -/
def storeLine (q : InputQueue) (u : InputTask) : InputQueue :=
  let cell : Cell :=
    { next := none, kind := u.kind, string := u.string, length := u.length, nextItail := none }
  { q with
    heap := Function.update q.heap u.addr (some cell)
    totalInputLength := int32 (q.totalInputLength + u.length) }

/-- `enqueue_input_task`, without its call of `ensure_usage`. The task is at the address `t`. -/
def enqueueInputTask (q : InputQueue) (t : Nat) (input : Str) (atFront binary : Bool) :
    Option InputQueue := do
  let u := lineTask t input binary
  let q ← (q.storeLine u).link t u.kind atFront
  return if !q.inputSuspended && q.connected && q.totalInputLength > INPUT_HIWAT then
    { q with inputSuspended := true } else q

/-- `free_task` -/
def freeTask (q : InputQueue) (t : Nat) : InputQueue :=
  { q with heap := Function.update q.heap t none }

/-- `flush_input`, which frees what it takes. The fuel is the number of lines. -/
def flushInput : Nat → InputQueue → Option InputQueue
  | n + 1, q => do
    let (t, q) ← q.dequeueInputTask .DQ_FIRST
    match t with
    | none => return q
    | some t => flushInput n (q.freeTask t)
  | 0, q => do
    let (t, q) ← q.dequeueInputTask .DQ_FIRST
    if t = none then some q else none

end InputQueue

/-! ## The sequences of the list -/

/-- The last tasks of the maximal sequences of out-of-band and of other tasks. -/
def seqTails : List InputTask → List Nat
  | [] => []
  | [t] => [t.addr]
  | t :: u :: l => if t.isOob = u.isOob then seqTails (u :: l) else t.addr :: seqTails (u :: l)

@[simp] theorem seqTails_nil : seqTails [] = [] := rfl

@[simp] theorem seqTails_singleton (t : InputTask) : seqTails [t] = [t.addr] := rfl

theorem seqTails_same {t u : InputTask} {l : List InputTask} (h : t.isOob = u.isOob) :
    seqTails (t :: u :: l) = seqTails (u :: l) := by
  rw [seqTails, if_pos h]

theorem seqTails_diff {t u : InputTask} {l : List InputTask} (h : t.isOob ≠ u.isOob) :
    seqTails (t :: u :: l) = t.addr :: seqTails (u :: l) := by
  rw [seqTails, if_neg h]

theorem seqTails_ne_nil (t : InputTask) (l : List InputTask) : seqTails (t :: l) ≠ [] := by
  induction l generalizing t with
  | nil => simp
  | cons u l ih =>
    by_cases h : t.isOob = u.isOob
    · rw [seqTails_same h]; exact ih u
    · rw [seqTails_diff h]; simp

theorem seqTails_subset {l : List InputTask} {a : Nat} (h : a ∈ seqTails l) :
    a ∈ l.map InputTask.addr := by
  induction l with
  | nil => simp at h
  | cons t l ih =>
    cases l with
    | nil => simpa using h
    | cons u l =>
      by_cases hk : t.isOob = u.isOob
      · rw [seqTails_same hk] at h
        exact List.mem_cons_of_mem _ (ih h)
      · rw [seqTails_diff hk] at h
        rcases List.mem_cons.mp h with rfl | h
        · simp
        · exact List.mem_cons_of_mem _ (ih h)

theorem seqTails_nodup {l : List InputTask} (h : (l.map InputTask.addr).Nodup) :
    (seqTails l).Nodup := by
  induction l with
  | nil => simp
  | cons t l ih =>
    rw [List.map_cons, List.nodup_cons] at h
    cases l with
    | nil => simp
    | cons u l =>
      by_cases hk : t.isOob = u.isOob
      · rw [seqTails_same hk]; exact ih h.2
      · rw [seqTails_diff hk]
        exact List.nodup_cons.mpr ⟨fun hm => h.1 (seqTails_subset hm), ih h.2⟩

/-- Tasks of one kind before a task of that kind do not end a sequence. -/
theorem seqTails_prefix {m : List InputTask} {x : InputTask} (l : List InputTask)
    (h : ∀ t ∈ m, t.isOob = x.isOob) :
    seqTails (m ++ x :: l) = seqTails (x :: l) := by
  induction m with
  | nil => rfl
  | cons t m ih =>
    have hm := ih fun u hu => h u (List.mem_cons_of_mem _ hu)
    cases m with
    | nil => exact (seqTails_same (h t (by simp))).trans hm
    | cons u m =>
      have htu : t.isOob = u.isOob := (h t (by simp)).trans (h u (by simp)).symm
      exact (seqTails_same htu).trans hm

/-- The last task of the list ends the last sequence. -/
theorem seqTails_concat (l : List InputTask) (x : InputTask) :
    ∃ ys, seqTails (l ++ [x]) = ys ++ [x.addr] := by
  induction l with
  | nil => exact ⟨[], rfl⟩
  | cons t l ih =>
    obtain ⟨ys, hys⟩ := ih
    cases l with
    | nil =>
      by_cases hk : t.isOob = x.isOob
      · exact ⟨[], seqTails_same hk⟩
      · exact ⟨[t.addr], seqTails_diff hk⟩
    | cons u l =>
      by_cases hk : t.isOob = u.isOob
      · exact ⟨ys, (seqTails_same hk).trans hys⟩
      · exact ⟨t.addr :: ys,
          (seqTails_diff hk).trans (by rw [List.cons_append]; exact congrArg _ hys)⟩

/-- A task at the end joins the last sequence or begins a new one. -/
theorem seqTails_snoc (l : List InputTask) (x t : InputTask) {ys : List Nat}
    (h : seqTails (l ++ [x]) = ys ++ [x.addr]) :
    seqTails (l ++ [x, t]) = if x.isOob = t.isOob then ys ++ [t.addr]
      else ys ++ [x.addr, t.addr] := by
  induction l generalizing ys with
  | nil =>
    have hys : ys = [] := by simpa using congrArg List.length h
    subst hys
    by_cases hk : x.isOob = t.isOob
    · simp [seqTails_same hk, hk]
    · simp [seqTails_diff hk, hk]
  | cons u l ih =>
    obtain ⟨v, r, hv, hv'⟩ : ∃ v r, l ++ [x] = v :: r ∧ l ++ [x, t] = v :: (r ++ [t]) := by
      cases l with
      | nil => exact ⟨x, [], rfl, rfl⟩
      | cons w l => exact ⟨w, l ++ [x], rfl, by simp⟩
    by_cases hk : u.isOob = v.isOob
    · rw [List.cons_append, hv, seqTails_same hk, ← hv] at h
      rw [List.cons_append, hv', seqTails_same hk, ← hv', ih h]
    · rw [List.cons_append, hv, seqTails_diff hk, ← hv] at h
      obtain ⟨zs, hzs⟩ : ∃ zs, ys = u.addr :: zs := by
        cases ys with
        | nil =>
          obtain ⟨ws, hws⟩ := seqTails_concat l x
          rw [hws] at h
          have := congrArg List.length h
          simp at this
        | cons z zs =>
          rw [List.cons_append, List.cons.injEq] at h
          exact ⟨zs, by rw [h.1]⟩
      subst hzs
      rw [List.cons_append, List.cons.injEq] at h
      rw [List.cons_append, hv', seqTails_diff hk, ← hv', ih h.2]
      split <;> rfl

namespace InputQueue

variable {q : InputQueue} {s : Slot Nat} {p : Option Nat} {t a : Nat} {cell : Cell}

/-- What the list operations do not change of a task. -/
def data (q : InputQueue) (a : Nat) : Option (InputKind × Str × Int) :=
  (q.heap a).map fun c => (c.kind, c.string, c.length)

/-- The fields that are not part of either list are the same. -/
structure Frame (q q' : InputQueue) : Prop where
  data : q'.data = q.data
  total : q'.totalInputLength = q.totalInputLength
  suspended : q'.inputSuspended = q.inputSuspended
  connected : q'.connected = q.connected
  disableOob : q'.disableOob = q.disableOob

theorem Frame.refl (q : InputQueue) : Frame q q := ⟨rfl, rfl, rfl, rfl, rfl⟩

theorem Frame.trans {q q' q'' : InputQueue} (h : Frame q q') (h' : Frame q' q'') : Frame q q'' :=
  ⟨h'.data.trans h.data, h'.total.trans h.total, h'.suspended.trans h.suspended,
    h'.connected.trans h.connected,
    h'.disableOob.trans h.disableOob⟩

theorem Frame.isSome {q q' : InputQueue} (h : Frame q q') (a : Nat) :
    (q'.heap a).isSome = (q.heap a).isSome := by
  have hd := congrFun h.data a
  unfold InputQueue.data at hd
  cases hq : q.heap a <;> cases hq' : q'.heap a <;> simp_all

theorem modify_frame {f : Cell → Cell} (hf : ∀ c, (f c).kind = c.kind ∧ (f c).string = c.string ∧
    (f c).length = c.length)
    (q : InputQueue) (a : Nat) : Frame q (q.modify a f) := by
  refine ⟨?_, rfl, rfl, rfl, rfl⟩
  funext b
  by_cases hb : b = a
  · subst hb
    cases hq : q.heap b with
    | none => simp [data, modify, hq]
    | some c => simp [data, modify, hq, hf c]
  · simp [data, modify, hb]

theorem storeNext_frame (q : InputQueue) (s : Slot Nat) (p : Option Nat) :
    Frame q (q.storeNext s p) := by
  cases s with
  | head => exact ⟨rfl, rfl, rfl, rfl, rfl⟩
  | field a =>
    exact modify_frame (f := fun c => { c with next := p }) (fun _ => ⟨rfl, rfl, rfl⟩) q a

theorem storeItail_frame (q : InputQueue) (s : Slot Nat) (p : Option Nat) :
    Frame q (q.storeItail s p) := by
  cases s with
  | head => exact ⟨rfl, rfl, rfl, rfl, rfl⟩
  | field a =>
    exact modify_frame (f := fun c => { c with nextItail := p }) (fun _ => ⟨rfl, rfl, rfl⟩) q a

/-- A change of the `next` fields does not touch the other list, and so the other way round. -/
theorem modify_itails {f : Cell → Cell} (hf : ∀ c, (f c).nextItail = c.nextItail) :
    (q.modify a f).itails = q.itails := by
  refine congrArg (Mem.mk q.firstItail) (funext fun b => ?_)
  by_cases hb : b = a
  · subst hb
    cases hq : q.heap b <;> simp [modify, hq, hf]
  · simp [modify, hb]

theorem modify_nexts {f : Cell → Cell} (hf : ∀ c, (f c).next = c.next) :
    (q.modify a f).nexts = q.nexts := by
  refine congrArg (Mem.mk q.firstInput) (funext fun b => ?_)
  by_cases hb : b = a
  · subst hb
    cases hq : q.heap b <;> simp [modify, hq, hf]
  · simp [modify, hb]

theorem storeNext_itails : (q.storeNext s p).itails = q.itails := by
  cases s with
  | head => rfl
  | field a => exact modify_itails fun _ => rfl

theorem storeItail_nexts : (q.storeItail s p).nexts = q.nexts := by
  cases s with
  | head => rfl
  | field a => exact modify_nexts fun _ => rfl

theorem modify_nexts_next (h : (q.heap a).isSome) :
    (q.modify a fun c => { c with next := p }).nexts = q.nexts.store (.field a) p := by
  obtain ⟨c, hc⟩ := Option.isSome_iff_exists.mp h
  refine congrArg (Mem.mk q.firstInput) (funext fun b => ?_)
  by_cases hb : b = a
  · subst hb; simp [modify, hc]
  · simp [modify, hb, nexts]

theorem modify_itails_nextItail (h : (q.heap a).isSome) :
    (q.modify a fun c => { c with nextItail := p }).itails = q.itails.store (.field a) p := by
  obtain ⟨c, hc⟩ := Option.isSome_iff_exists.mp h
  refine congrArg (Mem.mk q.firstItail) (funext fun b => ?_)
  by_cases hb : b = a
  · subst hb; simp [modify, hc]
  · simp [modify, hb, itails]

theorem storeNext_nexts (h : ∀ a, s = .field a → (q.heap a).isSome) :
    (q.storeNext s p).nexts = q.nexts.store s p := by
  cases s with
  | head => rfl
  | field a => exact modify_nexts_next (h a rfl)

theorem storeItail_itails (h : ∀ a, s = .field a → (q.heap a).isSome) :
    (q.storeItail s p).itails = q.itails.store s p := by
  cases s with
  | head => rfl
  | field a => exact modify_itails_nextItail (h a rfl)

/-- The slot at the end of cells that are allocated is in one of them. -/
theorem endSlot_isSome {m : List Nat} (h : ∀ a ∈ m, (q.heap a).isSome) (a : Nat)
    (ha : endSlot m = .field a) :
    (q.heap a).isSome := by
  rcases List.eq_nil_or_concat m with rfl | ⟨m, b, rfl⟩
  · simp at ha
  · rw [List.concat_eq_append, endSlot_append_singleton] at ha
    cases ha
    exact h _ (by simp)

/-- Taking a task out of the list along `next`. -/
theorem unlinkNext_spec {m r : List Nat} (hn : q.nexts.Holds (m ++ t :: r))
    (hnd : (m ++ t :: r).Nodup)
    (hl : q.lastInput = endSlot (m ++ t :: r)) (hs : ∀ a ∈ m ++ t :: r, (q.heap a).isSome)
    (hc : q.heap t = some cell) :
    (q.unlinkNext (endSlot m) t cell).nexts.Holds (m ++ r) ∧
      (q.unlinkNext (endSlot m) t cell).lastInput = endSlot (m ++ r) ∧
      (q.unlinkNext (endSlot m) t cell).itails = q.itails ∧
      (q.unlinkNext (endSlot m) t cell).lastItail = q.lastItail ∧
      Frame q (q.unlinkNext (endSlot m) t cell) := by
  have hmem : ∀ a ∈ m, (q.heap a).isSome := fun a ha => hs a (by simp [ha])
  obtain ⟨hndm, hndt, hdis⟩ := List.nodup_append.mp hnd
  have htr : t ∉ r := (List.nodup_cons.mp hndt).1
  have hrun : ∃ n, cell.next = n ∧ Mem.Run q.nexts.next n r := by
    obtain ⟨n, hn', hr⟩ := Mem.Run.split hn
    have hcn : some cell.next = some n := by rw [← hn']; simp [nexts, hc]
    exact ⟨n, Option.some.inj hcn, hr⟩
  obtain ⟨n, hcn, hr⟩ := hrun
  have hst : (q.storeNext (endSlot m) cell.next).nexts = q.nexts.store (endSlot m) n := by
    rw [storeNext_nexts fun a ha => endSlot_isSome hmem a ha, hcn]
  have hkeep : ∀ a ∈ r, (q.nexts.store (endSlot m) n).next a = q.nexts.next a := by
    intro a ha
    rcases List.eq_nil_or_concat m with rfl | ⟨m, b, rfl⟩
    · rfl
    · rw [List.concat_eq_append] at hdis ⊢
      have hab : a ≠ b := fun he => hdis b (by simp) a (by simp [ha]) he.symm
      simp [Mem.store, hab]
  have hholds : (q.storeNext (endSlot m) cell.next).nexts.Holds (m ++ r) := by
    rw [hst]
    exact Mem.store_endSlot hn hndm (hr.congr hkeep)
  have hfr := storeNext_frame q (endSlot m) cell.next
  unfold unlinkNext
  cases hcc : cell.next with
  | none =>
    -- the task was the last, and `last_input' has to move back
    have hr0 : r = [] := by
      cases r with
      | nil => rfl
      | cons b r => rw [hcc] at hcn; rw [← hcn] at hr; exact absurd hr.1 (by simp)
    subst hr0
    rw [hcc] at hholds hfr
    exact ⟨hholds, by simp, storeNext_itails, by cases endSlot m <;> rfl,
      ⟨hfr.data, hfr.total, hfr.suspended, hfr.connected, hfr.disableOob⟩⟩
  | some b =>
    rw [hcc] at hholds hfr
    have hr0 : r ≠ [] := by
      rintro rfl
      rw [hcc] at hcn
      rw [← hcn] at hr
      exact absurd hr (by simp [Mem.Run])
    have ht : ((q.storeNext (endSlot m) (some b)).heap t).isSome := by
      rw [hfr.isSome, hc]; rfl
    refine ⟨?_, ?_, ?_, by cases endSlot m <;> rfl,
      hfr.trans (modify_frame (f := fun c => { c with next := none })
        (fun _ => ⟨rfl, rfl, rfl⟩) _ _)⟩
    · dsimp only
      rw [modify_nexts_next ht]
      have htm : t ∉ m ++ r := by
        simp only [List.mem_append, not_or]
        exact ⟨fun hm => hdis t hm t (by simp) rfl, htr⟩
      refine Mem.Run.congr hholds fun a ha => ?_
      have hat : a ≠ t := fun he => htm (he ▸ ha)
      simp [Mem.store, hat]
    · have hlast : (q.storeNext (endSlot m) (some b)).lastInput = q.lastInput := by
        cases endSlot m <;> rfl
      change (q.storeNext (endSlot m) (some b)).lastInput = _
      rw [hlast, hl, endSlot_append (by simp), endSlot_append hr0, ← List.singleton_append,
        endSlot_append hr0]
    · exact (modify_itails (f := fun c => { c with next := none }) fun _ => rfl).trans
        storeNext_itails

/-- A task that does not end a sequence stays out of the list of sequence ends. -/
theorem unlinkItail_skip {pitail : Slot Nat} {x : Option Nat} (hl : q.itails.load pitail = some x)
    (hx : x ≠ some t) :
    q.unlinkItail pitail t = some q := by
  unfold unlinkItail
  rw [hl]
  simp [hx]

/-- Taking a task that is a sequence of its own out of the list of sequence ends: what follows it
takes its place after the first sequence, or merges with the first sequence. -/
theorem unlinkItail_spec {pre T : List Nat} (hp : pre.length ≤ 1)
    (hi : q.itails.Holds (pre ++ t :: T))
    (hl : q.lastItail = endSlot (pre ++ t :: T).dropLast) (hnd : (pre ++ t :: T).Nodup)
    (hs : ∀ a ∈ pre ++ t :: T, (q.heap a).isSome) :
    ∃ q', q.unlinkItail (endSlot pre) t = some q' ∧
      q'.itails.Holds (if T = [] then pre else T) ∧
      q'.lastItail = endSlot (if T = [] then pre else T).dropLast ∧
      q'.nexts = q.nexts ∧ q'.lastInput = q.lastInput ∧ Frame q q' := by
  have hpre : ∀ a ∈ pre, (q.heap a).isSome := fun a ha => hs a (by simp [ha])
  obtain ⟨hndp, hndt, hdis⟩ := List.nodup_append.mp hnd
  have hload : q.itails.load (endSlot pre) = some (some t) := Mem.load_endSlot hi
  obtain ⟨n, hn, hrT⟩ := Mem.Run.split hi
  have htp : ∀ a, endSlot pre = .field a → a ≠ t := by
    intro a ha
    rcases List.eq_nil_or_concat pre with rfl | ⟨m, b, rfl⟩
    · simp at ha
    · rw [List.concat_eq_append, endSlot_append_singleton] at ha
      cases ha
      exact hdis _ (by simp) t (by simp)
  -- the first store, which cuts the list after the first sequence
  have hst : (q.storeItail (endSlot pre) none).itails = q.itails.store (endSlot pre) none :=
    storeItail_itails fun a ha => endSlot_isSome hpre a ha
  have hfr := storeItail_frame q (endSlot pre) none
  have hcut : (q.storeItail (endSlot pre) none).itails.Holds (pre ++ []) := by
    rw [hst]
    exact Mem.store_endSlot hi hndp rfl
  have hlast : (q.storeItail (endSlot pre) none).lastItail = q.lastItail := by
    cases endSlot pre <;> rfl
  have hheap : ∀ a, a ∉ pre → (q.storeItail (endSlot pre) none).itails.next a =
      q.itails.next a := by
    intro a ha
    rw [hst]
    rcases List.eq_nil_or_concat pre with rfl | ⟨m, b, rfl⟩
    · rfl
    · rw [List.concat_eq_append] at ha ⊢
      have hab : a ≠ b := fun he => ha (by simp [he])
      simp [Mem.store, hab]
  obtain ⟨cell, hcell⟩ : ∃ cell, (q.storeItail (endSlot pre) none).heap t = some cell := by
    rw [← Option.isSome_iff_exists, hfr.isSome]
    exact hs t (by simp)
  have hcn : cell.nextItail = n := by
    have htn := hheap t fun hm => hdis t hm t (by simp) rfl
    rw [hn] at htn
    simpa [itails, hcell] using htn
  unfold unlinkItail
  rw [hload]
  simp only [Option.bind_eq_bind, Option.bind_some, if_true, hcell, hcn]
  cases T with
  | nil =>
    obtain rfl : n = none := hrT
    have hl' : q.lastItail = endSlot pre := by rw [hl]; simp
    have hload' : (q.storeItail (endSlot pre) none).itails.load (q.storeItail (endSlot pre)
      none).lastItail = some none := by
      rw [hlast, hl']
      exact Mem.load_endSlot hcut
    simp only [hload', Option.bind_some, if_true]
    rw [List.append_nil] at hcut
    refine ⟨_, rfl, hcut, ?_, storeItail_nexts, by cases endSlot pre <;> rfl,
      ⟨hfr.data, hfr.total, hfr.suspended, hfr.connected, hfr.disableOob⟩⟩
    cases pre with
    | nil => rfl
    | cons x pre => cases pre with
      | nil => rfl
      | cons y pre => simp at hp
  | cons w T =>
    obtain ⟨rfl, n', hw, hT⟩ := hrT
    -- the second store, which makes the next sequence the first one
    have ht' :
        (({ q.storeItail (endSlot pre) none with firstItail := some w } : InputQueue).heap
          t).isSome := by
      change ((q.storeItail (endSlot pre) none).heap t).isSome
      rw [hcell]; rfl
    have hfr₁ : Frame q { q.storeItail (endSlot pre) none with firstItail := some w } :=
      ⟨hfr.data, hfr.total, hfr.suspended, hfr.connected, hfr.disableOob⟩
    have hit := modify_itails_nextItail (p := none) ht'
    have htT : t ∉ w :: T := (List.nodup_cons.mp hndt).1
    have hrun : Mem.Run (q.storeItail (endSlot pre) none).itails.next (some w) (w :: T) := by
      refine Mem.Run.congr ⟨rfl, n', hw, hT⟩ fun a ha => hheap a fun hm =>
        hdis a hm a (by simp [ha]) rfl
    have hholds :
        (({ q.storeItail (endSlot pre) none with firstItail := some w } : InputQueue).modify
          t fun c =>
        { c with nextItail := none }).itails.Holds (w :: T) := by
      rw [hit]
      refine Mem.Run.congr hrun fun a ha => ?_
      have hat : a ≠ t := fun he => htT (he ▸ ha)
      simp [Mem.store, hat, itails]
    have hfr' :
        Frame q (({ q.storeItail (endSlot pre) none with firstItail := some w } : InputQueue).modify
          t fun c =>
        { c with nextItail := none }) :=
      hfr₁.trans (modify_frame (f := fun c => { c with nextItail := none })
        (fun _ => ⟨rfl, rfl, rfl⟩) _ _)
    have hnx :
        (({ q.storeItail (endSlot pre) none with firstItail := some w } : InputQueue).modify
          t fun c =>
        { c with nextItail := none }).nexts = q.nexts :=
      (modify_nexts (f := fun c => { c with nextItail := none }) fun _ => rfl).trans
        storeItail_nexts
    have hli :
        (({ q.storeItail (endSlot pre) none with firstItail := some w } : InputQueue).modify
          t fun c =>
        { c with nextItail := none }).lastInput = q.lastInput := by
      change (q.storeItail (endSlot pre) none).lastInput = _
      cases endSlot pre <;> rfl
    have hll :
        (({ q.storeItail (endSlot pre) none with firstItail := some w } : InputQueue).modify
          t fun c =>
        { c with nextItail := none }).lastItail = endSlot (t :: (w :: T).dropLast) := by
      change (q.storeItail (endSlot pre) none).lastItail = _
      rw [hlast, hl, List.dropLast_append_cons, endSlot_append (by simp), List.dropLast_cons_cons]
    simp only [reduceCtorEq, if_false]
    generalize (({ q.storeItail (endSlot pre) none with firstItail := some w } : InputQueue).modify
      t fun c =>
        { c with nextItail := none }) = q₂ at hit hholds hfr' hnx hli hll ⊢
    cases T with
    | nil =>
      have hload' : q₂.itails.load q₂.lastItail = some none := by
        rw [hll, hit]
        simp [Mem.load, Mem.store, endSlot]
      simp only [hload', Option.bind_some, if_true]
      exact ⟨_, rfl, hholds, rfl, hnx, hli, ⟨hfr'.data, hfr'.total, hfr'.suspended, hfr'.connected,
        hfr'.disableOob⟩⟩
    | cons u T =>
      have hdl : (w :: u :: T).dropLast ++ [(w :: u :: T).getLast (by simp)] = w :: u :: T :=
        List.dropLast_append_getLast _
      have hll' : q₂.lastItail = endSlot (w :: u :: T).dropLast := by
        rw [hll, ← List.singleton_append, endSlot_append (by simp)]
      have hload' : q₂.itails.load q₂.lastItail =
          some (some ((w :: u :: T).getLast (by simp))) := by
        rw [hll']
        exact Mem.load_endSlot (by rw [hdl]; exact hholds)
      simp only [hload', Option.bind_some, reduceCtorEq, if_false]
      exact ⟨_, rfl, hholds, hll', hnx, hli, hfr'⟩

/-! ## The queue stands for a list -/

/-- The two lists and the pointers into them, as the comment in `tqueue` says. -/
structure Lists (q : InputQueue) (l : List InputTask) : Prop where
  nexts : q.nexts.Holds (l.map InputTask.addr)
  lastInput : q.lastInput = endSlot (l.map InputTask.addr)
  itails : q.itails.Holds (seqTails l)
  lastItail : q.lastItail = endSlot (seqTails l).dropLast

/-- The memory holds the lines of a list, each in a task of its own. -/
structure Threaded (q : InputQueue) (l : List InputTask) : Prop extends Lists q l where
  nodup : (l.map InputTask.addr).Nodup
  cells : ∀ t ∈ l, q.data t.addr = some (t.kind, t.string, t.length)

/-- The queue stands for a list: it holds its lines and counts their characters, as an `int`. -/
structure Rep (q : InputQueue) (l : List InputTask) : Prop extends Threaded q l where
  lengths : ∀ t ∈ l, t.length = int32 t.string.length
  total : q.totalInputLength = int32 (totalLength l)

variable {l m r : List InputTask} {u x : InputTask} {how : DequeueHow}

theorem Threaded.isSome (h : Threaded q l) (ha : a ∈ l.map InputTask.addr) : (q.heap a).isSome := by
  obtain ⟨t, ht, rfl⟩ := List.mem_map.mp ha
  have hd := h.cells t ht
  rw [data, Option.map_eq_some_iff] at hd
  obtain ⟨c, hc, _⟩ := hd
  rw [hc]; rfl

theorem Threaded.firstInput (h : Threaded q l) : q.firstInput = (l.map InputTask.addr).head? :=
  Mem.Run.head? h.nexts

/-- The counter is the number of characters that are queued, while an `int` holds it. -/
theorem Rep.total_eq (h : Rep q l) (hl : (l.map fun t => t.string.length).sum < 2 ^ 31) :
    q.totalInputLength = (l.map fun t => t.string.length).sum := by
  have hsum : totalLength l = (l.map fun t => t.string.length).sum := by
    have hlengths := h.lengths
    rw [totalLength]
    clear h
    induction l with
    | nil => rfl
    | cons t l ih =>
      rw [List.map_cons, List.sum_cons] at hl
      have ht : t.length = t.string.length := by
        rw [hlengths t List.mem_cons_self]
        exact int32_eq_self (by omega) (by omega)
      rw [List.map_cons, List.sum_cons, List.map_cons, List.sum_cons,
        ih (by omega) fun u hu => hlengths u (List.mem_cons_of_mem _ hu), ht]
      push_cast
      rfl
  rw [h.total, hsum]
  exact int32_eq_self (by omega) (by omega)

/-- A task of the first sequence, or none, comes before a task that is taken. -/
def Before (m : List InputTask) (u : InputTask) : Prop :=
  m = [] ∨ ∃ m' x, m = m' ++ [x] ∧ (∀ y ∈ m', y.isOob = x.isOob) ∧ x.isOob ≠ u.isOob

/-- The end of the first sequence before a task that is taken. -/
def seqBefore (m : List InputTask) : List Nat := (m.map InputTask.addr).getLast?.toList

theorem endSlot_seqBefore (m : List InputTask) :
    endSlot (seqBefore m) = endSlot (m.map InputTask.addr) := by
  rw [seqBefore, endSlot, endSlot]
  cases (m.map InputTask.addr).getLast? <;> rfl

theorem Before.seqTails (hb : Before m u) :
    seqTails (m ++ u :: r) = seqBefore m ++ seqTails (u :: r) := by
  rcases hb with rfl | ⟨m', x, rfl, hsame, hdiff⟩
  · rfl
  · rw [List.append_assoc, List.singleton_append, seqTails_prefix _ hsame, seqTails_diff hdiff]
    simp [seqBefore]

theorem Before.seqTails_nil (hb : Before m u) : Task.seqTails (m ++ []) = seqBefore m := by
  rcases hb with rfl | ⟨m', x, rfl, hsame, _⟩
  · rfl
  · rw [List.append_nil, seqTails_prefix [] hsame]
    simp [seqBefore]

/-- The sequence after a task that is a sequence of its own merges with the first one. -/
theorem Before.seqTails_merge (hb : Before m u) {v : InputTask} (hv : u.isOob ≠ v.isOob) :
    Task.seqTails (m ++ v :: r) = Task.seqTails (v :: r) := by
  rcases hb with rfl | ⟨m', x, rfl, hsame, hdiff⟩
  · rfl
  · have hxv : x.isOob = v.isOob := by
      cases hx : x.isOob <;> cases hu : u.isOob <;> cases hv' : v.isOob <;> simp_all
    rw [List.append_assoc, List.singleton_append, seqTails_prefix _ hsame, seqTails_same hxv]

theorem Before.of_same (hb : Before m u) {v : InputTask} (hv : u.isOob = v.isOob) : Before m v := by
  rcases hb with rfl | ⟨m', x, rfl, hsame, hdiff⟩
  · exact .inl rfl
  · exact .inr ⟨m', x, rfl, hsame, hv ▸ hdiff⟩

/-- Taking a task out of both lists. -/
theorem unlink_spec (h : Rep q (m ++ u :: r)) (hb : Before m u) (hc : q.heap u.addr = some cell) :
    ∃ q', (q.unlinkNext (endSlot (m.map InputTask.addr)) u.addr cell).unlinkItail
      (endSlot (m.map InputTask.addr)) u.addr
        = some q' ∧
      q'.nexts.Holds ((m ++ r).map InputTask.addr) ∧ q'.lastInput =
        endSlot ((m ++ r).map InputTask.addr) ∧
      q'.itails.Holds (seqTails (m ++ r)) ∧ q'.lastItail = endSlot (seqTails (m ++ r)).dropLast ∧
      Frame q q' := by
  have hlist : (m ++ u :: r).map InputTask.addr = m.map InputTask.addr ++ u.addr ::
      r.map InputTask.addr := by simp
  have hnd := h.nodup
  have hn := h.nexts
  have hl := h.lastInput
  rw [hlist] at hnd hn hl
  obtain ⟨hn₁, hl₁, hi₁, hli₁, hf₁⟩ :=
    unlinkNext_spec hn hnd hl (fun a ha => h.isSome (by rw [hlist]; exact ha)) hc
  generalize q.unlinkNext (endSlot (m.map InputTask.addr)) u.addr cell =
    q₁ at hn₁ hl₁ hi₁ hli₁ hf₁ ⊢
  have hi := h.itails
  have hli := h.lastItail
  rw [← hi₁] at hi
  rw [← hli₁] at hli
  rw [hb.seqTails] at hi hli
  have hnds := seqTails_nodup h.nodup
  rw [hb.seqTails] at hnds
  have hsome : ∀ a ∈ seqBefore m ++ seqTails (u :: r), (q₁.heap a).isSome := by
    intro a ha
    rw [← hb.seqTails] at ha
    rw [hf₁.isSome]
    exact h.isSome (seqTails_subset ha)
  have hlen : (seqBefore m).length ≤ 1 := by
    rw [seqBefore]
    cases (m.map InputTask.addr).getLast? <;> simp
  rw [← endSlot_seqBefore, List.map_append]
  rcases r with _ | ⟨v, r⟩
  · -- the task is the last one
    rw [seqTails_singleton] at hi hli hnds hsome
    obtain ⟨q₂, hq₂, hi₂, hli₂, hn₂, hl₂, hf₂⟩ := unlinkItail_spec hlen hi hli hnds hsome
    rw [if_pos rfl] at hi₂ hli₂
    rw [hb.seqTails_nil]
    exact ⟨q₂, hq₂, by rw [hn₂]; exact hn₁, by rw [hl₂]; exact hl₁, hi₂, hli₂, hf₁.trans hf₂⟩
  · by_cases hv : u.isOob = v.isOob
    · -- the task does not end its sequence
      rw [seqTails_same hv] at hi hli
      have hload := Mem.load_endSlot hi
      have hne : (seqTails (v :: r)).head? ≠ some u.addr := by
        intro he
        have hmem : u.addr ∈ seqTails (v :: r) := List.mem_of_head? he
        have hin := seqTails_subset hmem
        exact (List.nodup_cons.mp (List.nodup_append.mp hnd).2.1).1 hin
      rw [unlinkItail_skip hload hne]
      have hb' := hb.of_same hv
      rw [hb'.seqTails]
      exact ⟨q₁, rfl, hn₁, hl₁, hi, hli, hf₁⟩
    · -- the task is a sequence of its own
      rw [seqTails_diff hv] at hi hli hnds hsome
      obtain ⟨q₂, hq₂, hi₂, hli₂, hn₂, hl₂, hf₂⟩ := unlinkItail_spec hlen hi hli hnds hsome
      rw [if_neg (seqTails_ne_nil v r)] at hi₂ hli₂
      rw [hb.seqTails_merge hv]
      exact ⟨q₂, hq₂, by rw [hn₂]; exact hn₁, by rw [hl₂]; exact hl₁, hi₂, hli₂, hf₁.trans hf₂⟩

theorem deliver_nexts : (q.deliver t cell).nexts = q.nexts := by
  unfold deliver
  dsimp only
  split <;> exact modify_nexts (q := { q with }) fun _ => rfl

theorem deliver_itails : (q.deliver t cell).itails = q.itails := by
  unfold deliver
  dsimp only
  split <;> exact modify_itails (q := { q with }) fun _ => rfl

theorem deliver_lastInput : (q.deliver t cell).lastInput = q.lastInput := by
  unfold deliver
  dsimp only
  split <;> rfl

theorem deliver_lastItail : (q.deliver t cell).lastItail = q.lastItail := by
  unfold deliver
  dsimp only
  split <;> rfl

theorem deliver_total :
    (q.deliver t cell).totalInputLength = int32 (q.totalInputLength - cell.length) := by
  unfold deliver
  dsimp only
  split <;> rfl

theorem deliver_disableOob : (q.deliver t cell).disableOob = q.disableOob := by
  unfold deliver
  dsimp only
  split <;> rfl

theorem deliver_data : (q.deliver t cell).data a =
    if a = t then (q.heap t).map fun c =>
      (deliveredKind q.disableOob cell.kind, deliveredString q.disableOob cell.kind cell.string,
        c.length)
    else q.data a := by
  unfold deliver
  dsimp only
  by_cases ha : a = t
  · subst ha
    rw [if_pos rfl]
    split <;> (cases hq : q.heap a <;> simp [data, modify, hq])
  · rw [if_neg ha]
    split <;> simp [data, modify, ha]

/-- What `dequeue_input_task` yields: the task at the address, in the state in which it is handed
over. -/
def Yields (q' : InputQueue) (o : Option Nat) (t : Option InputTask) : Prop :=
  o = t.map InputTask.addr ∧ ∀ t' ∈ t, q'.data t'.addr = some (t'.kind, t'.string, t'.length)

theorem take_spec (h : Rep q (m ++ u :: r)) (hb : Before m u) (hc : q.heap u.addr = some cell) :
    ∃ q', (q.unlinkNext (endSlot (m.map InputTask.addr)) u.addr cell).unlinkItail
      (endSlot (m.map InputTask.addr)) u.addr
        = some q' ∧
      Rep (q'.deliver u.addr cell) (m ++ r) ∧ (q'.deliver u.addr cell).disableOob = q.disableOob ∧
      Yields (q'.deliver u.addr cell) (some u.addr) (some (u.delivered q.disableOob)) := by
  obtain ⟨q', hq', hn, hl, hi, hli, hf⟩ := unlink_spec h hb hc
  have hcell : cell.kind = u.kind ∧ cell.string = u.string ∧ cell.length = u.length := by
    have := h.cells u (by simp)
    simpa [data, hc] using this
  have hnd := h.nodup
  rw [List.map_append, List.map_cons] at hnd
  have hsub : List.Sublist (m ++ r) (m ++ u :: r) :=
    (List.Sublist.refl m).append (List.sublist_cons_self u r)
  have hdata : ∀ y ∈ m ++ r, y.addr ≠ u.addr := by
    intro y hy he
    obtain ⟨_, hndt, hdis⟩ := List.nodup_append.mp hnd
    rcases List.mem_append.mp hy with hy | hy
    · exact hdis _ (List.mem_map_of_mem hy) u.addr (by simp) he
    · exact (List.nodup_cons.mp hndt).1 (he ▸ List.mem_map_of_mem hy)
  have hlen : q'.data u.addr = some (cell.kind, cell.string, cell.length) := by
    rw [hf.data]
    simp [data, hc]
  refine ⟨q', hq', ?_, by rw [deliver_disableOob, hf.disableOob], rfl, ?_⟩
  · refine ⟨⟨⟨by rw [deliver_nexts]; exact hn, by rw [deliver_lastInput]; exact hl,
      by rw [deliver_itails]; exact hi,
      by rw [deliver_lastItail]; exact hli⟩, h.nodup.sublist (hsub.map _), fun y hy => ?_⟩,
      fun y hy => h.lengths y (hsub.subset hy), ?_⟩
    · rw [deliver_data, if_neg (hdata y hy), hf.data]
      exact h.cells y (hsub.subset hy)
    · have hu : totalLength (u :: r) = u.length + totalLength r := by simp [totalLength]
      rw [deliver_total, hf.total, h.total, totalLength_append, totalLength_append, hu,
        hcell.2.2, int32_sub]
      refine congrArg int32 ?_
      omega
  · intro t' ht'
    obtain rfl : u.delivered q.disableOob = t' := by simpa using ht'
    change (q'.deliver u.addr cell).data u.addr = _
    rw [data, Option.map_eq_some_iff] at hlen
    obtain ⟨c', hc', he⟩ := hlen
    rw [deliver_data, if_pos rfl, hc', hf.disableOob]
    simp only [Prod.mk.injEq] at he
    simp [InputTask.delivered, hcell, he.2.2]

/-- The mode that `dequeue_input_task` compares with the kind of the first task wants the other
kind. -/
theorem wants_of_code {f y : InputTask} (h : how.code = if f.isOob then 1 else 0) :
    how.wants y = true ↔ y.isOob ≠ f.isOob := by
  cases how <;> cases hf : f.isOob <;> cases hy : y.isOob <;>
    simp_all [DequeueHow.code, DequeueHow.wants]

theorem wants_first {f : InputTask} (h : how.code ≠ if f.isOob then 1 else 0) :
    how.wants f = true := by
  cases how <;> cases hf : f.isOob <;> simp_all [DequeueHow.code, DequeueHow.wants]

theorem dequeueHow_spec (h : Rep q l) (how : DequeueHow) :
    ∃ o q', q.dequeueHow how = some (o, q') ∧ Rep q' (l.eraseP how.wants) ∧
      q'.disableOob = q.disableOob ∧
      Yields q' o ((l.find? how.wants).map (InputTask.delivered q.disableOob)) := by
  cases l with
  | nil =>
    have hf : q.firstInput = none := h.firstInput
    refine ⟨none, q, by rw [dequeueHow, hf], h, rfl, rfl, by simp⟩
  | cons f l =>
    have hf : q.firstInput = some f.addr := h.firstInput
    obtain ⟨first, hfirst⟩ := Option.isSome_iff_exists.mp (h.isSome (a := f.addr) (by simp))
    have hkind : first.kind.isOob = f.isOob := by
      have := h.cells f (by simp)
      simp only [data, hfirst, Option.map_some, Option.some.injEq, Prod.mk.injEq] at this
      rw [this.1]; rfl
    rw [dequeueHow, hf]
    simp only [Option.bind_eq_bind, hfirst, Option.bind_some]
    unfold choose
    rw [hkind]
    by_cases hcode : how.code = if f.isOob then 1 else 0
    · -- the first sequence is skipped
      rw [if_pos hcode]
      obtain ⟨m, r, hmr, hm, hr⟩ : ∃ m r, l = m ++ r ∧ (∀ y ∈ m, y.isOob = f.isOob) ∧
          ∀ y ∈ r.head?, y.isOob ≠ f.isOob := by
        refine ⟨l.takeWhile fun y => y.isOob = f.isOob, l.dropWhile fun y => y.isOob = f.isOob,
          (List.takeWhile_append_dropWhile).symm, fun y hy => by
            simpa using List.mem_takeWhile_imp hy, fun y hy => ?_⟩
        have := List.head?_dropWhile_not (fun y : InputTask => decide (y.isOob = f.isOob)) l
        rw [Option.mem_def.mp hy] at this
        simpa using this
      subst hmr
      obtain ⟨m', x, hx⟩ : ∃ m' x, f :: m = m' ++ [x] :=
        ⟨(f :: m).dropLast, (f :: m).getLast (by simp), (List.dropLast_append_getLast _).symm⟩
      have hsame : ∀ y ∈ f :: m, y.isOob = f.isOob := by
        intro y hy
        rcases List.mem_cons.mp hy with rfl | hy
        · rfl
        · exact hm y hy
      have hxf : x.isOob = f.isOob := hsame x (by rw [hx]; simp)
      have hcons : f :: (m ++ r) = (f :: m) ++ r := rfl
      rw [hcons, hx] at h ⊢
      have hnone : ∀ y ∈ m' ++ [x], ¬ how.wants y = true := by
        intro y hy
        rw [wants_of_code hcode, hsame y (by rw [hx]; exact hy)]
        simp
      have htail : q.firstItail = some x.addr := by
        have hi := Mem.Run.head? h.itails
        have hsame' : ∀ y ∈ m', y.isOob = x.isOob := fun y hy => by
          rw [hxf]; exact hsame y (by rw [hx]; simp [hy])
        change q.firstItail = _ at hi
        rw [hi, List.append_assoc, List.singleton_append, seqTails_prefix _ hsame']
        cases r with
        | nil => rfl
        | cons v r =>
          have hv : x.isOob ≠ v.isOob := by
            have := hr v (by simp)
            rw [hxf]; exact this.symm
          rw [seqTails_diff hv]
          rfl
      have hslot : Slot.field x.addr = endSlot ((m' ++ [x]).map InputTask.addr) := by simp
      have hload : q.nexts.load (.field x.addr) = some (r.map InputTask.addr).head? := by
        rw [hslot]
        exact Mem.load_endSlot (by rw [← List.map_append]; exact h.nexts)
      simp only [htail, Option.map_some, Option.bind_some, hload]
      rw [List.find?_append, List.find?_eq_none.mpr hnone, List.eraseP_append_right _ hnone,
        Option.none_or]
      cases r with
      | nil => exact ⟨none, q, rfl, h, rfl, rfl, by simp⟩
      | cons v r =>
        have hv : how.wants v = true := (wants_of_code hcode).mpr (hr v (by simp))
        obtain ⟨cell, hcell⟩ := Option.isSome_iff_exists.mp (h.isSome (a := v.addr) (by simp))
        have hb : Before (m' ++ [x]) v := .inr ⟨m', x, rfl, fun y hy => by
          rw [hxf]; exact hsame y (by rw [hx]; simp [hy]), by rw [hxf]; exact (hr v (by simp)).symm⟩
        obtain ⟨q', hq', hrep, hdis, hy⟩ := take_spec h hb hcell
        rw [hslot]
        simp only [List.map_cons, List.head?_cons, hcell, Option.bind_some, hq',
          List.find?_cons_of_pos hv, Option.map_some,
          List.eraseP_cons_of_pos hv]
        exact ⟨_, _, rfl, hrep, hdis, hy⟩
    · -- the first task is taken
      rw [if_neg hcode]
      have hw := wants_first hcode
      have hload : q.nexts.load .head = some (some f.addr) := by rw [← hf]; rfl
      obtain ⟨q', hq', hrep, hdis, hy⟩ := take_spec (m := []) h (.inl rfl) hfirst
      simp only [List.map_nil, endSlot_nil] at hq'
      simp only [Option.bind_some, hload, hfirst, hq', List.find?_cons_of_pos hw, Option.map_some,
        List.eraseP_cons_of_pos hw]
      exact ⟨_, _, rfl, hrep, hdis, hy⟩

/-- `dequeue_input_task` takes what the list operation takes. -/
theorem dequeueInputTask_spec (h : Rep q l) (how : DequeueHow) :
    ∃ o q', q.dequeueInputTask how = some (o, q') ∧ Rep q' (dequeue q.disableOob how l).2 ∧
      q'.disableOob = q.disableOob ∧ Yields q' o (dequeue q.disableOob how l).1 := by
  unfold dequeueInputTask dequeue
  cases hd : q.disableOob with
  | false =>
    have hw : wanted false how = how.wants := by funext t; simp [wanted]
    obtain ⟨o, q', hq', hrep, hdis, hy⟩ := dequeueHow_spec h how
    rw [hd] at hdis hy
    rw [hw]
    exact ⟨o, q', by simpa using hq', hrep, hdis, hy⟩
  | true =>
    by_cases hhow : how = .DQ_OOB
    · have hw : wanted true how = fun _ => false := by funext t; simp [wanted, hhow]
      rw [hw, if_pos rfl, if_pos hhow]
      refine ⟨none, q, rfl, ?_, hd, ?_, ?_⟩
      · rw [List.eraseP_of_forall_not (by simp)]
        exact h
      · rw [List.find?_eq_none.mpr (by simp)]
        rfl
      · rw [List.find?_eq_none.mpr (by simp)]
        simp
    · have hw : wanted true how = DequeueHow.DQ_FIRST.wants := by
        funext t; simp [wanted, hhow, DequeueHow.wants]
      obtain ⟨o, q', hq', hrep, hdis, hy⟩ := dequeueHow_spec h .DQ_FIRST
      rw [hd] at hdis hy
      rw [hw, if_pos rfl, if_neg hhow]
      exact ⟨o, q', hq', hrep, hdis, hy⟩

/-! ## Enqueueing -/

/-- A queue with a new task in memory, which is in neither list. -/
theorem Threaded.alloc (h : Threaded q l) (ht : t ∉ l.map InputTask.addr) (c : Cell) :
    Threaded { q with heap := Function.update q.heap t (some c) } l := by
  have hne : ∀ a ∈ l.map InputTask.addr, a ≠ t := fun a ha he => ht (he ▸ ha)
  refine ⟨⟨?_, h.lastInput, ?_, h.lastItail⟩, h.nodup, fun y hy => ?_⟩
  · exact Mem.Run.congr h.nexts fun a ha => by simp [InputQueue.nexts, hne a ha]
  · exact Mem.Run.congr h.itails fun a ha => by simp [InputQueue.itails, hne a (seqTails_subset ha)]
  · rw [← h.cells y hy]
    simp [data, hne _ (List.mem_map_of_mem hy)]

/-- A queue whose memory of other tasks has changed. -/
theorem Rep.free (h : Rep q l) (ht : t ∉ l.map InputTask.addr) : Rep (q.freeTask t) l := by
  have hne : ∀ a ∈ l.map InputTask.addr, a ≠ t := fun a ha he => ht (he ▸ ha)
  refine ⟨⟨⟨?_, h.lastInput, ?_, h.lastItail⟩, h.nodup, fun y hy => ?_⟩, h.lengths, h.total⟩
  · exact Mem.Run.congr h.nexts fun a ha => by simp [freeTask, InputQueue.nexts, hne a ha]
  · exact Mem.Run.congr h.itails fun a ha => by
      simp [freeTask, InputQueue.itails, hne a (seqTails_subset ha)]
  · rw [← h.cells y hy]
    simp [freeTask, data, hne _ (List.mem_map_of_mem hy)]

theorem linkFront_spec {f : InputTask} {l : List InputTask} (h : Threaded q (f :: l))
    (hu : u.addr ∉ (f :: l).map InputTask.addr)
    (hs : (q.heap u.addr).isSome) :
    ∃ q', q.linkFront u.addr f.addr u.kind = some q' ∧ Lists q' (u :: f :: l) ∧ Frame q q' := by
  obtain ⟨first, hfirst⟩ := Option.isSome_iff_exists.mp (h.isSome (a := f.addr) (by simp))
  have hkind : first.kind.isOob = f.isOob := by
    have := h.cells f (by simp)
    simp only [data, hfirst, Option.map_some, Option.some.injEq, Prod.mk.injEq] at this
    rw [this.1]; rfl
  have hfi : q.firstItail = (seqTails (f :: l)).head? := Mem.Run.head? h.itails
  have hne : ∀ a ∈ (f :: l).map InputTask.addr, a ≠ u.addr := fun a ha he => hu (he ▸ ha)
  -- the list of sequence ends, before the task is linked along next
  have key : ∀ q₁ : InputQueue, q₁.nexts = q.nexts → q₁.lastInput = q.lastInput →
      q₁.itails.Holds (seqTails (u :: f :: l)) →
      q₁.lastItail = endSlot (seqTails (u :: f :: l)).dropLast → Frame q q₁ →
      Lists { q₁.modify u.addr fun c => { c with next := some f.addr } with
          firstInput := some u.addr } (u :: f :: l) ∧
        Frame q
          { q₁.modify u.addr fun c => { c with next := some f.addr } with
            firstInput := some u.addr } := by
    intro q₁ hn hl hi hli hf
    have hs₁ : (q₁.heap u.addr).isSome := by rw [hf.isSome]; exact hs
    have hnx := modify_nexts_next (p := some f.addr) hs₁
    have hit := modify_itails (q := q₁) (a := u.addr)
      (f := fun c => { c with next := some f.addr }) fun _ => rfl
    have hfr := hf.trans (modify_frame (f := fun c => { c with next := some f.addr })
      (fun _ => ⟨rfl, rfl, rfl⟩) q₁ u.addr)
    refine ⟨⟨?_, ?_, by rw [← hit] at hi; exact hi, hli⟩,
      ⟨hfr.data, hfr.total, hfr.suspended, hfr.connected, hfr.disableOob⟩⟩
    · refine ⟨rfl, some f.addr, ?_, ?_⟩
      · have hnu : (q₁.modify u.addr fun c => { c with next := some f.addr }).nexts.next u.addr =
          some (some f.addr) := by
          rw [hnx]
          simp [Mem.store]
        exact hnu
      · have hrun : Mem.Run q.nexts.next (some f.addr) ((f :: l).map InputTask.addr) := by
          have hh := h.nexts
          unfold Mem.Holds at hh
          rwa [Mem.Run.head? hh] at hh
        refine Mem.Run.congr hrun fun a ha => ?_
        have := congrArg (fun M => M.next a) hnx
        simp only [Mem.store, Function.update_of_ne (hne a ha), hn] at this
        exact this
    · change q₁.lastInput = _
      rw [hl, h.lastInput, List.map_cons, List.map_cons, ← List.singleton_append (x := u.addr),
        endSlot_append (by simp),
        List.map_cons]
  unfold linkFront
  simp only [Option.bind_eq_bind, hfirst, Option.bind_some, hkind]
  by_cases hk : f.isOob = u.kind.isOob
  · -- the task joins the first sequence
    have hk' : u.isOob = f.isOob := hk.symm
    simp only [hk, ne_eq, not_true_eq_false, if_false]
    have := key q rfl rfl (by rw [seqTails_same hk']; exact h.itails)
      (by rw [seqTails_same hk']; exact h.lastItail) (.refl q)
    exact ⟨_, rfl, this.1, this.2⟩
  · -- the task is a sequence of its own
    have hk' : u.isOob ≠ f.isOob := fun he => hk he.symm
    simp only [hk, ne_eq, not_false_eq_true, if_true]
    have hit := modify_itails_nextItail (p := q.firstItail) hs
    have hnx := modify_nexts (q := q) (a := u.addr)
      (f := fun c => { c with nextItail := q.firstItail }) fun _ => rfl
    have hfr := modify_frame (f := fun c => { c with nextItail := q.firstItail })
      (fun _ => ⟨rfl, rfl, rfl⟩) q u.addr
    have hll : (q.modify u.addr fun c => { c with nextItail := q.firstItail }).lastItail =
      q.lastItail := rfl
    have hli : (q.modify u.addr fun c => { c with nextItail := q.firstItail }).lastInput =
      q.lastInput := rfl
    generalize (q.modify u.addr fun c => { c with nextItail := q.firstItail }) =
      q₁ at hit hnx hfr hll hli ⊢
    have hrun : Mem.Run q₁.itails.next (some u.addr) (u.addr :: seqTails (f :: l)) := by
      refine ⟨rfl, q.firstItail, by rw [hit]; simp [Mem.store], ?_⟩
      refine Mem.Run.congr h.itails fun a ha => ?_
      rw [hit]
      simp [Mem.store, hne a (seqTails_subset ha)]
    have hholds : ∀ s, ({ q₁ with firstItail := some u.addr, lastItail := s } :
      InputQueue).itails.Holds (seqTails (u :: f :: l)) := by
      intro s
      rw [seqTails_diff hk']
      exact hrun
    have hlast : (if q.lastItail = .head then Slot.field u.addr else q.lastItail) =
        endSlot (seqTails (u :: f :: l)).dropLast := by
      rw [seqTails_diff hk', h.lastItail]
      have hnd := seqTails_nodup h.nodup
      cases hT : seqTails (f :: l) with
      | nil => exact absurd hT (seqTails_ne_nil f l)
      | cons w T =>
        cases T with
        | nil => simp [endSlot]
        | cons v T =>
          have hdl : endSlot (w :: v :: T).dropLast ≠ Slot.head := by
            rw [List.dropLast_cons_cons]
            simp [endSlot, List.getLast?_cons]
          rw [if_neg hdl, List.dropLast_cons_cons (x := u.addr), ← List.singleton_append
            (x := u.addr),
            endSlot_append (by simp)]
    have :=
      key { q₁ with firstItail := some u.addr,
                    lastItail := if q.lastItail = .head then Slot.field u.addr else q.lastItail }
      hnx hli (hholds _) hlast ⟨hfr.data, hfr.total, hfr.suspended, hfr.connected, hfr.disableOob⟩
    refine ⟨_, rfl, ?_⟩
    split
    · next hh =>
      have hq : q.lastItail = .head := hll.symm.trans hh
      rw [if_pos hq] at this
      exact this
    · next hh =>
      have hq : ¬ q.lastItail = .head := fun he => hh (hll.trans he)
      rw [if_neg hq, ← hll] at this
      exact this

/-- After `last_itail` has moved on, it is the slot in which the line at the rear is linked. -/
theorem openItail_spec (h : Threaded q l) (u : InputTask) :
    ∃ zs, q.openItail u.kind = some { q with lastItail := endSlot zs } ∧
      (∃ r, q.itails.Holds (zs ++ r)) ∧
      seqTails (l ++ [u]) = zs ++ [u.addr] ∧ zs ⊆ l.map InputTask.addr := by
  unfold openItail
  rcases List.eq_nil_or_concat l with rfl | ⟨l, x, rfl⟩
  · have hf : q.firstInput = none := h.firstInput
    refine ⟨[], ?_, ⟨[], h.itails⟩, rfl, by simp⟩
    rw [if_pos hf]
    have hl : q.lastItail = .head := h.lastItail
    rw [endSlot_nil, ← hl]
  · rw [List.concat_eq_append] at h ⊢
    obtain ⟨ys, hys⟩ := seqTails_concat l x
    have hf : q.firstInput ≠ none := by
      rw [h.firstInput]
      simp
    have hi := h.itails
    have hli := h.lastItail
    have hsub : ys ++ [x.addr] ⊆ (l ++ [x]).map InputTask.addr :=
      fun a ha => seqTails_subset (by rw [hys]; exact ha)
    rw [hys] at hi hli
    rw [List.dropLast_concat] at hli
    have hload : q.itails.load q.lastItail = some (some x.addr) := by
      rw [hli]
      exact Mem.load_endSlot hi
    obtain ⟨tail, htail⟩ := Option.isSome_iff_exists.mp (h.isSome (a := x.addr) (by simp))
    have hkind : tail.kind.isOob = x.isOob := by
      have := h.cells x (by simp)
      simp only [data, htail, Option.map_some, Option.some.injEq, Prod.mk.injEq] at this
      rw [this.1]; rfl
    have hsnoc := seqTails_snoc l x u hys
    rw [if_neg hf]
    simp only [Option.bind_eq_bind, hload, Option.bind_some, htail, hkind, List.append_assoc,
      List.singleton_append, hsnoc]
    by_cases hk : x.isOob = u.isOob
    · have hk' : x.isOob = u.kind.isOob := hk
      refine ⟨ys, ?_, ⟨_, hi⟩, by rw [if_pos hk], fun a ha => hsub (by simp [ha])⟩
      simp only [hk', ne_eq, not_true_eq_false, if_false, ← hli]
      rfl
    · have hk' : x.isOob ≠ u.kind.isOob := hk
      refine ⟨ys ++ [x.addr], ?_, ⟨[], by rw [List.append_nil]; exact hi⟩, ?_, hsub⟩
      · simp only [hk', ne_eq, not_false_eq_true, if_true, endSlot_append_singleton]
        rfl
      · rw [if_neg hk]
        simp

theorem linkRear_spec (h : Threaded q l) (hu : u.addr ∉ l.map InputTask.addr)
    (hc : q.heap u.addr = some cell)
    (hn : cell.next = none) (hi : cell.nextItail = none) :
    ∃ q', q.linkRear u.addr u.kind = some q' ∧ Lists q' (l ++ [u]) ∧ Frame q q' := by
  obtain ⟨zs, hopen, ⟨r, hholds⟩, hseq, hsub⟩ := openItail_spec h u
  have hnd : (l ++ [u]).map InputTask.addr = l.map InputTask.addr ++ [u.addr] := by simp
  have hndl : (l.map InputTask.addr ++ [u.addr]).Nodup := by
    rw [List.nodup_append]
    exact ⟨h.nodup, by simp, fun a ha b hb he => hu (by simp_all)⟩
  have hzs : zs.Nodup := by
    have := seqTails_nodup (l := l ++ [u]) (by rw [hnd]; exact hndl)
    rw [hseq] at this
    exact (List.nodup_append.mp this).1
  -- the store along next_itail
  have hit := storeItail_itails (q := { q with lastItail := endSlot zs }) (s := endSlot zs)
    (p := some u.addr)
    fun a ha => endSlot_isSome (fun b hb => h.isSome (hsub hb)) a ha
  have hnx := storeItail_nexts (q := { q with lastItail := endSlot zs }) (s := endSlot zs)
    (p := some u.addr)
  have hfr := storeItail_frame { q with lastItail := endSlot zs } (endSlot zs) (some u.addr)
  have hli : (({ q with lastItail := endSlot zs } : InputQueue).storeItail (endSlot zs)
    (some u.addr)).lastInput = q.lastInput := by
    cases endSlot zs <;> rfl
  have hll : (({ q with lastItail := endSlot zs } : InputQueue).storeItail (endSlot zs)
    (some u.addr)).lastItail = endSlot zs := by
    cases endSlot zs <;> rfl
  have hfr₁ : Frame q (({ q with lastItail := endSlot zs } : InputQueue).storeItail (endSlot zs)
    (some u.addr)) :=
    ⟨hfr.data, hfr.total, hfr.suspended, hfr.connected, hfr.disableOob⟩
  unfold linkRear
  rw [hopen]
  simp only [Option.bind_eq_bind, Option.bind_some]
  generalize (({ q with lastItail := endSlot zs } : InputQueue).storeItail (endSlot zs)
    (some u.addr)) = q₁
    at hit hnx hfr hli hll hfr₁ ⊢
  have hholds₁ : q₁.itails.Holds (zs ++ [u.addr]) := by
    rw [hit]
    refine Mem.store_endSlot hholds hzs ⟨rfl, none, ?_, rfl⟩
    rw [Mem.store_next_of_ne (Mem.endSlot_ne_field fun hm => hu (hsub hm))]
    simp [itails, hc, hi]
  -- the store along next
  have hsome : ∀ a, q₁.lastInput = .field a → (q₁.heap a).isSome := by
    intro a ha
    rw [hli, h.lastInput] at ha
    rw [hfr₁.isSome]
    exact endSlot_isSome (fun b hb => h.isSome hb) a ha
  have hnx₂ := storeNext_nexts (p := some u.addr) hsome
  have hit₂ := storeNext_itails (q := q₁) (s := q₁.lastInput) (p := some u.addr)
  have hfr₂ := hfr₁.trans (storeNext_frame q₁ q₁.lastInput (some u.addr))
  have hll₂ : (q₁.storeNext q₁.lastInput (some u.addr)).lastItail = q₁.lastItail := by
    cases q₁.lastInput <;> rfl
  generalize q₁.storeNext q₁.lastInput (some u.addr) = q₂ at hnx₂ hit₂ hfr₂ hll₂ ⊢
  refine ⟨_, rfl, ⟨?_, ?_, ?_, ?_⟩, ⟨hfr₂.data, hfr₂.total, hfr₂.suspended, hfr₂.connected,
    hfr₂.disableOob⟩⟩
  · change q₂.nexts.Holds _
    have hqn : q₁.nexts = q.nexts := hnx
    rw [hnx₂, hqn, hli, h.lastInput, hnd]
    refine Mem.store_endSlot (r := []) (by rw [List.append_nil]; exact h.nexts) h.nodup
      ⟨rfl, none, ?_, rfl⟩
    rw [Mem.store_next_of_ne (Mem.endSlot_ne_field hu)]
    simp [InputQueue.nexts, hc, hn]
  · rw [hnd, endSlot_append_singleton]
  · change q₂.itails.Holds _
    rw [hit₂, hseq]
    exact hholds₁
  · change q₂.lastItail = _
    rw [hll₂, hll, hseq, List.dropLast_concat]

/-- The fields that no list uses do not matter. -/
theorem Threaded.of_eq {q' : InputQueue} (h : Threaded q l) (hh : q'.heap = q.heap)
    (hf : q'.firstInput = q.firstInput)
    (hl : q'.lastInput = q.lastInput) (hi : q'.firstItail = q.firstItail)
    (hli : q'.lastItail = q.lastItail) :
    Threaded q' l := by
  have hn : q'.nexts = q.nexts := by simp only [InputQueue.nexts, hh, hf]
  have ht : q'.itails = q.itails := by simp only [InputQueue.itails, hh, hi]
  have hd : q'.data = q.data := by
    unfold InputQueue.data
    rw [hh]
  exact ⟨⟨hn ▸ h.nexts, hl ▸ h.lastInput, ht ▸ h.itails, hli ▸ h.lastItail⟩, h.nodup, hd ▸ h.cells⟩

/-- Filling a task and counting its line does not touch the lists. -/
theorem storeLine_threaded (h : Threaded q l) (hu : u.addr ∉ l.map InputTask.addr) :
    Threaded (q.storeLine u) l :=
  (h.alloc hu _).of_eq rfl rfl rfl rfl rfl

/-- A task that was filled is linked where the list operation puts its line. -/
theorem link_spec (h : Threaded q l) (hu : u.addr ∉ l.map InputTask.addr)
    (hc : q.heap u.addr = some cell)
    (hn : cell.next = none) (hi : cell.nextItail = none) (atFront : Bool) :
    ∃ q', q.link u.addr u.kind atFront = some q' ∧ Lists q' (if atFront then u :: l else l ++ [u]) ∧
      Frame q q' := by
  have hfirst := h.firstInput
  unfold link
  cases atFront with
  | false => exact linkRear_spec h hu hc hn hi
  | true =>
    cases l with
    | nil =>
      rw [hfirst]
      exact linkRear_spec h hu hc hn hi
    | cons f l =>
      rw [hfirst]
      exact linkFront_spec h hu (by rw [hc]; rfl)

/-- `enqueue_input_task` puts the line where the list operation puts it. -/
theorem enqueueInputTask_spec (h : Rep q l) (ht : t ∉ l.map InputTask.addr) (input : Str)
    (atFront binary : Bool) :
    ∃ q', q.enqueueInputTask t input atFront binary = some q' ∧
      Rep q' (enqueue t input atFront binary l) ∧
      q'.disableOob = q.disableOob := by
  have htotal := totalLength_enqueue t input atFront binary l
  have hlengths : ∀ y ∈ enqueue t input atFront binary l, y.length = int32 y.string.length := by
    intro y hy
    rcases mem_enqueue hy with rfl | hy
    · rw [lineTask]
    · exact h.lengths y hy
  have hmem : ∀ y ∈ enqueue t input atFront binary l, y = lineTask t input binary ∨ y ∈ l :=
    fun y => mem_enqueue
  have hnd := @enqueue_nodup l t input atFront binary h.nodup ht
  unfold enqueueInputTask
  have haddr : (lineTask t input binary).addr = t := rfl
  unfold enqueue at htotal hlengths hmem hnd ⊢
  generalize lineTask t input binary = u at htotal hlengths hmem hnd haddr ⊢
  subst haddr
  obtain ⟨q', hq', hlists, hfr⟩ :=
    link_spec (storeLine_threaded h.toThreaded ht) ht (Function.update_self ..) rfl rfl atFront
  have hrep : Rep q' (if atFront then u :: l else l ++ [u]) := by
    refine ⟨⟨hlists, hnd, fun y hy => ?_⟩, hlengths, ?_⟩
    · rw [hfr.data]
      rcases hmem y hy with rfl | hy
      · simp [data, storeLine]
      · exact (storeLine_threaded h.toThreaded ht).cells y hy
    · rw [hfr.total, htotal, ← int32_add, ← h.total]
      rfl
  refine ⟨if !q'.inputSuspended && q'.connected && q'.totalInputLength > INPUT_HIWAT then
    { q' with inputSuspended := true }
    else q', ?_, ?_, ?_⟩
  · dsimp only
    rw [hq']
    rfl
  · split
    · exact ⟨hrep.toThreaded.of_eq rfl rfl rfl rfl rfl, hrep.lengths, hrep.total⟩
    · exact hrep
  · have hdis : q'.disableOob = q.disableOob := hfr.disableOob
    split <;> exact hdis

/-- `flush_input` empties the queue, once it may take as many lines as there are. -/
theorem flushInput_spec (n : Nat) (h : Rep q l) (hn : l.length ≤ n) :
    ∃ q', flushInput n q = some q' ∧ Rep q' [] ∧ q'.disableOob = q.disableOob := by
  induction n generalizing q l with
  | zero =>
    obtain rfl : l = [] := List.length_eq_zero_iff.mp (by omega)
    obtain ⟨o, q', hq', hrep, hdis, ho, _⟩ := dequeueInputTask_spec h .DQ_FIRST
    obtain rfl : o = none := ho
    refine ⟨q', ?_, hrep, hdis⟩
    rw [flushInput, hq']
    rfl
  | succ n ih =>
    obtain ⟨o, q', hq', hrep, hdis, ho, _⟩ := dequeueInputTask_spec h .DQ_FIRST
    rw [flushInput, hq']
    cases l with
    | nil =>
      obtain rfl : o = none := ho
      exact ⟨q', rfl, hrep, hdis⟩
    | cons u l =>
      have hw : wanted q.disableOob .DQ_FIRST u = true := by
        cases hd : q.disableOob <;> simp [wanted, DequeueHow.wants]
      obtain rfl : o = some u.addr := by rw [ho]; simp [dequeue, hw, InputTask.delivered]
      have hrest : (dequeue q.disableOob .DQ_FIRST (u :: l)).2 = l := List.eraseP_cons_of_pos hw
      rw [hrest] at hrep
      have hu : u.addr ∉ l.map InputTask.addr := (List.nodup_cons.mp h.nodup).1
      rw [List.length_cons] at hn
      obtain ⟨q'', hq'', hrep', hdis'⟩ := ih (hrep.free hu) (by omega)
      exact ⟨q'', hq'', hrep', hdis'.trans hdis⟩

end InputQueue

end Task
end NuMoo
