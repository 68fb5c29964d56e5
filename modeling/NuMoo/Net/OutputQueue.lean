import Mathlib.Algebra.Order.BigOperators.Group.List
import NuMoo.Code.Value
import NuMoo.Lib.Decimal
import NuMoo.Lib.Slot

/-!
# The output queue

The blocks of text that wait to be written to a connection, with `push_output` and `enqueue_output`
of `net_multi.c`. What `write` answers is given beforehand. A log keeps what became of each byte.

Results:
1. `pushOutput_spec`, `enqueueOutput_spec`: what one call does to the queue, and to the log.
2. `output_faithful`: after any calls the queue holds what was accepted and neither written nor
   discarded.
-/

namespace NuMoo
namespace Output

open Linked

/-- `MAX_QUEUED_OUTPUT` -/
def MAX_QUEUED_OUTPUT : Int := 1048576

/-- `text_block` without its `next`. The length is an `int` that is not negative. -/
structure TextBlock where
  length : Nat
  buffer : Str
  start : Nat
deriving DecidableEq, Repr

/-- The bytes of a block that are still to be written. -/
def TextBlock.text (b : TextBlock) : Str := (b.buffer.drop b.start).take b.length

/-- What `write` answers: how many bytes it takes, which is never more than it is offered, or an
error, and whether that is `eagain` or `ewouldblock`. -/
inductive Answer where
  | count (n : Nat)
  | error (again : Bool)
deriving DecidableEq, Repr

/-- What becomes of text: a block is queued, bytes of the first block are written, the first block
is discarded, or bytes of a notice are written. -/
inductive Event where
  | queued (text : Str)
  | wrote (text : Str)
  | discarded (text : Str)
  | notice (lines : Nat) (text : Str) (complete : Bool)
deriving DecidableEq, Repr

/-- The output of an `nhandle`, with the blocks that are allocated, the answers to come and the log.
The length and the count of lines are `int`s. -/
structure Handle where
  output : Mem Nat
  blocks : Nat → Option TextBlock
  outputTail : Slot Nat
  outputLength : Int
  outputLinesFlushed : Int
  allocated : Nat
  answers : List Answer
  log : List Event

/-- Why a call is not over: `write` has not answered yet, or memory that is not there was used. -/
inductive Stop where
  | waiting | fault
deriving DecidableEq, Repr

namespace Handle

/-- The output of `new_nhandle`. -/
def new (answers : List Answer) : Handle where
  output := ⟨none, fun _ => none⟩
  blocks := fun _ => none
  outputTail := .head
  outputLength := 0
  outputLinesFlushed := 0
  allocated := 0
  answers := answers
  log := []

/-- The notice of `push_output`. -/
def notice (eol : Str) (lines : Nat) : Str :=
  eol ++ bytes ">> Network buffer overflow: " ++ Decimal.natText lines ++ bytes " line" ++
    (if lines = 1 then [] else bytes "s") ++ bytes " of output to you " ++
    (if lines = 1 then bytes "has" else bytes "have") ++ bytes " been lost <<" ++ eol

/-- The answers that are still to come. -/
def setAnswers (h : Handle) (answers : List Answer) : Handle := { h with answers }

/-- The part of `push_output` that writes the notice, and the result if it returns there. -/
def pushNotice (eol : Str) (h : Handle) : Except Stop (Option Bool × Handle) :=
  if h.outputLinesFlushed > 0 then
    let lines := h.outputLinesFlushed.toNat
    let text := notice eol lines
    match h.answers with
    | [] => .error .waiting
    | .error again :: answers => .ok (some again, h.setAnswers answers)
    | .count n :: answers =>
      if text.length ≤ n then .ok (none, { h with
        answers
        outputLinesFlushed := 0
        log := h.log ++ [.notice lines text true] })
      else .ok (some true, { h with
        answers
        log := h.log ++ [.notice lines (text.take n) false] })
  else .ok (none, h)

/-- The first block goes, with `free_text_block`. -/
def dropHead (h : Handle) (b : Nat) (next : Option Nat) : Handle where
  output := ⟨next, Function.update h.output.next b none⟩
  blocks := Function.update h.blocks b none
  outputTail := h.outputTail
  outputLength := h.outputLength
  outputLinesFlushed := h.outputLinesFlushed
  allocated := h.allocated
  answers := h.answers
  log := h.log

/-- `output_tail` is set to the head when the queue is empty. -/
def resetTail (h : Handle) : Handle :=
  if h.output.head = none then { h with outputTail := .head } else h

/-- `count` bytes of a block have been written. -/
def logWrote (h : Handle) (count : Nat) (block : TextBlock) : Handle :=
  { h with outputLength := int32 (h.outputLength - count),
           log := h.log ++ [.wrote (block.text.take count)] }

/-- A turn of the loop of `push_output` in which `count` bytes of the first block are written. -/
def advance (h : Handle) (b count : Nat) (next : Option Nat) (block : TextBlock) : Handle :=
  let h := h.logWrote count block
  if count = block.length then h.dropHead b next
  else
    let block := { block with start := block.start + count, length := block.length - count }
    { h with blocks := Function.update h.blocks b (some block) }

/-- The loop of `push_output`, which takes an answer in each turn. -/
def pushBlocks (h : Handle) : List Answer → Except Stop (Bool × Handle)
  | [] => if h.output.head = none then .ok (true, h.resetTail.setAnswers []) else .error .waiting
  | answer :: answers =>
    match h.output.head with
    | none => .ok (true, h.resetTail.setAnswers (answer :: answers))
    | some b =>
      match h.output.next b, h.blocks b with
      | some next, some block =>
        match answer with
        | .error again => .ok (again, h.setAnswers answers)
        | .count n => (h.advance b (min n block.length) next block).pushBlocks answers
      | _, _ => .error .fault

/-- `push_output` -/
def pushOutput (eol : Str) (h : Handle) : Except Stop (Bool × Handle) := do
  let (r, h) ← h.pushNotice eol
  match r with
  | some r => return (r, h)
  | none => h.pushBlocks h.answers

/-- A block is to be discarded. -/
def logDiscarded (h : Handle) (block : TextBlock) : Handle :=
  { h with
    outputLength := int32 (h.outputLength - block.length)
    outputLinesFlushed := int32 (h.outputLinesFlushed + 1)
    log := h.log ++ [.discarded block.text] }

/-- The loop of `enqueue_output` that discards blocks. -/
def flush : Nat → Handle → Int → Except Stop Handle
  | 0, _, _ => .error .fault
  | fuel + 1, h, toFlush =>
    if toFlush > 0 then
      match h.output.head with
      | none => .ok h
      | some b =>
        match h.output.next b, h.blocks b with
        | some next, some block =>
          flush fuel ((h.logDiscarded block).dropHead b next) (int32 (toFlush - block.length))
        | _, _ => .error .fault
    else .ok h

/-- The part of `enqueue_output` that makes room for `length` bytes, and whether it goes on. -/
def makeRoom (eol : Str) (length : Int) (flushOk : Bool) (h : Handle) :
    Except Stop (Bool × Handle) :=
  if h.outputLength ≠ 0 ∧ int32 (h.outputLength + length) > MAX_QUEUED_OUTPUT then do
    let (_, h) ← h.pushOutput eol
    let toFlush := int32 (int32 (h.outputLength + length) - MAX_QUEUED_OUTPUT)
    if toFlush > 0 ∧ !flushOk then return (false, h)
    let h ← flush (h.allocated + 1) h toFlush
    return (true, h.resetTail)
  else .ok (true, h)

/-- A block is allocated. -/
def alloc (h : Handle) (text : Str) (length : Int) : Handle where
  output := { h.output with next := Function.update h.output.next h.allocated (some none) }
  blocks := Function.update h.blocks h.allocated (some ⟨length.toNat, text, 0⟩)
  outputTail := h.outputTail
  outputLength := h.outputLength
  outputLinesFlushed := h.outputLinesFlushed
  allocated := h.allocated + 1
  answers := h.answers
  log := h.log

/-- The block `b` is linked in. -/
def link (h : Handle) (b : Nat) (text : Str) (length : Int) : Handle :=
  { h with
    output := h.output.store h.outputTail (some b)
    outputTail := .field b
    outputLength := int32 (h.outputLength + length)
    log := h.log ++ [.queued text] }

/-- The part of `enqueue_output` that appends a block. -/
def append (h : Handle) (text : Str) (length : Int) : Except Stop Handle :=
  let b := h.allocated
  let h := h.alloc text length
  match h.output.load h.outputTail with
  | none => .error .fault
  | some _ => .ok (h.link b text length)

/-- `enqueue_output`; the line has `line_length` bytes. -/
def enqueueOutput (eol line : Str) (addEol flushOk : Bool) (h : Handle) :
    Except Stop (Bool × Handle) := do
  let text := line ++ if addEol then eol else []
  let length := int32 text.length
  let (goOn, h) ← h.makeRoom eol length flushOk
  if goOn then return (true, ← h.append text length)
  else return (false, h)

/-- The calls on a connection. -/
inductive Call where
  | push
  | enqueue (line : Str) (addEol flushOk : Bool)
deriving DecidableEq, Repr

/-- One call, with the result of the function. -/
def call (eol : Str) (h : Handle) : Call → Except Stop (Bool × Handle)
  | .push => h.pushOutput eol
  | .enqueue line addEol flushOk => h.enqueueOutput eol line addEol flushOk

/-- A sequence of calls. -/
def calls (eol : Str) (h : Handle) (cs : List Call) : Except Stop Handle :=
  cs.foldlM (fun h c => (h.call eol c).map Prod.snd) h

end Handle

/-! ## A queue of bytes -/

/-- What an event does to a queue of bytes: they are queued at the end, and leave at the front. -/
inductive Step : Str → Event → Str → Prop
  | queued {content text : Str} : Step content (.queued text) (content ++ text)
  | wrote {content text : Str} : Step (text ++ content) (.wrote text) content
  | discarded {content text : Str} : Step (text ++ content) (.discarded text) content
  | notice {content text : Str} {lines : Nat} {complete : Bool} :
      Step content (.notice lines text complete) content

/-- What some events do to a queue of bytes. -/
inductive Replay : Str → List Event → Str → Prop
  | nil {content : Str} : Replay content [] content
  | cons {s t u : Str} {e : Event} {log : List Event} : Step s e t → Replay t log u →
      Replay s (e :: log) u

/-- The bytes that an event queues. -/
def Event.accepted : Event → Str
  | .queued text => text
  | _ => []

/-- The bytes of the queue that an event writes. -/
def Event.sent : Event → Str
  | .wrote text => text
  | _ => []

/-- The bytes that an event writes. -/
def Event.written : Event → Str
  | .wrote text | .notice _ text _ => text
  | _ => []

def Event.isDiscarded : Event → Bool
  | .discarded _ => true
  | _ => false

def Event.isWrite : Event → Bool
  | .wrote _ | .notice _ _ _ => true
  | _ => false

theorem accepted_of_write {e : Event} (h : e.isWrite = true) : e.accepted = [] := by
  cases e with
  | queued text => cases h
  | wrote text => rfl
  | discarded text => rfl
  | notice lines text complete => rfl

theorem accepted_of_discarded {e : Event} (h : e.isDiscarded = true) : e.accepted = [] := by
  cases e with
  | discarded text => rfl
  | queued text => cases h
  | wrote text => cases h
  | notice lines text complete => cases h

/-- The count of the blocks discarded since the last complete notice, behind one more event. -/
def countPending (n : Nat) : Event → Nat
  | .discarded _ => n + 1
  | .notice _ _ complete => if complete then 0 else n
  | .queued _ | .wrote _ => n

/-- The blocks discarded since the last complete notice. -/
def pending (log : List Event) : Nat := log.foldl countPending 0

/-- Every notice, complete or not, reports the blocks discarded since the last complete one, as an
`int`. -/
def Reported (eol : Str) (log : List Event) : Prop :=
  ∀ before (lines : Nat) text complete after, log = before ++ .notice lines text complete :: after →
    (lines : Int) = int32 (pending before) ∧ 0 < lines ∧ text <+: Handle.notice eol lines ∧
    (complete = true → text = Handle.notice eol lines)

variable {s t u eol : Str} {e : Event} {log events : List Event} {n : Nat}

theorem Replay.append (h₁ : Replay s log t) (h₂ : Replay t events u) :
    Replay s (log ++ events) u := by
  induction h₁ with
  | nil => exact h₂
  | cons hstep _ ih => exact .cons hstep (ih h₂)

theorem Replay.one (h : Step s e t) : Replay s [e] t := .cons h .nil

theorem Replay.split (h : Replay s (log ++ events) u) :
    ∃ t, Replay s log t ∧ Replay t events u := by
  induction log generalizing s with
  | nil => exact ⟨s, .nil, h⟩
  | cons e log ih =>
    cases h with
    | cons hstep hrest =>
      obtain ⟨t, hlog, hevents⟩ := ih hrest
      exact ⟨t, .cons hstep hlog, hevents⟩

theorem Step.det (h : Step s e t) (h' : Step s e u) : t = u := by
  cases h with
  | queued => cases h'; rfl
  | wrote => generalize hs : _ ++ t = s at h'; cases h'; exact List.append_cancel_left hs
  | discarded => generalize hs : _ ++ t = s at h'; cases h'; exact List.append_cancel_left hs
  | notice => cases h'; rfl

/-- The events determine what is left. -/
theorem Replay.det (h : Replay s log t) (h' : Replay s log u) : t = u := by
  induction h with
  | nil => cases h'; rfl
  | cons hstep _ ih =>
    cases h' with
    | cons hstep' hrest =>
      obtain rfl := hstep.det hstep'
      exact ih hrest

/-- Where only bytes are written, what is left is what was there without what was sent. -/
theorem Replay.writes (h : Replay s log t) (hw : ∀ e ∈ log, e.isWrite = true) :
    s = log.flatMap Event.sent ++ t := by
  induction h with
  | nil => rfl
  | cons hstep _ ih =>
    obtain ⟨he, hlog⟩ := List.forall_mem_cons.mp hw
    rw [List.flatMap_cons, List.append_assoc, ← ih hlog]
    cases hstep with
    | queued => cases he
    | wrote => rfl
    | discarded => cases he
    | notice => rfl

/-- A queue from which nothing is discarded: what is written and what is left is what there was and
what was accepted. -/
theorem Replay.undiscarded (h : Replay s log t)
    (hd : ∀ e ∈ log, e.isDiscarded = false ∧ ∀ l v c, e ≠ .notice l v c) :
    s ++ log.flatMap Event.accepted = log.flatMap Event.written ++ t := by
  induction h with
  | nil => exact List.append_nil _
  | cons hstep _ ih =>
    obtain ⟨he, hlog⟩ := List.forall_mem_cons.mp hd
    rw [List.flatMap_cons, List.flatMap_cons]
    cases hstep with
    | queued => exact (List.append_assoc _ _ _).symm.trans (ih hlog)
    | wrote =>
      exact (List.append_assoc _ _ _).trans
        ((congrArg _ (ih hlog)).trans (List.append_assoc _ _ _).symm)
    | discarded => cases he.1
    | notice => exact absurd rfl (he.2 _ _ _)

theorem pending_concat (log : List Event) (e : Event) :
    pending (log ++ [e]) = countPending (pending log) e := by
  rw [pending, List.foldl_append]
  rfl

theorem pending_undiscarded (h : ∀ e ∈ log, e.isDiscarded = false) : pending log = 0 := by
  induction log using List.reverseRecOn with
  | nil => rfl
  | append_singleton log e ih =>
    obtain ⟨hlog, he⟩ := List.forall_mem_append.mp h
    rw [pending_concat, ih hlog]
    cases e with
    | queued text => rfl
    | wrote text => rfl
    | discarded text => cases he _ (List.mem_singleton_self _)
    | notice lines text complete => cases complete <;> rfl

theorem Reported.concat (h : Reported eol log)
    (he : ∀ (lines : Nat) text complete, e = .notice lines text complete →
      (lines : Int) = int32 (pending log) ∧ 0 < lines ∧
      text <+: Handle.notice eol lines ∧ (complete = true → text = Handle.notice eol lines)) :
    Reported eol (log ++ [e]) := by
  intro before lines text complete after hsplit
  rcases List.eq_nil_or_concat after with rfl | ⟨after, x, rfl⟩
  · obtain ⟨rfl, hlast⟩ := List.append_inj' hsplit rfl
    exact he _ _ _ (List.cons.inj hlast).1
  · rw [List.concat_eq_append, ← List.cons_append, ← List.append_assoc] at hsplit
    exact h _ _ _ _ _ (List.append_inj' hsplit rfl).1

/-- A log without discarded blocks has no notices. -/
theorem Reported.undiscarded (h : Reported eol log) (hd : ∀ e ∈ log, e.isDiscarded = false) :
    ∀ e ∈ log, ∀ lines text complete, e ≠ .notice lines text complete := by
  rintro _ he lines text complete rfl
  obtain ⟨before, after, hsplit⟩ := List.append_of_mem he
  obtain ⟨hlines, hpos, -⟩ := h _ _ _ _ _ hsplit
  have hbefore : ∀ e ∈ before, e.isDiscarded = false :=
    fun e he => hd e (hsplit ▸ List.mem_append_left _ he)
  rw [pending_undiscarded hbefore, int32_eq_self (by decide) (by decide)] at hlines
  omega

namespace Handle

variable {h h' : Handle} {q q' : List (Nat × TextBlock)} {b : Nat} {block : TextBlock}
    {next : Option Nat} {text : Str}

/-! ## What a call finds -/

/-- The bytes of some blocks. -/
def queueText (q : List (Nat × TextBlock)) : Str := q.flatMap fun x => x.2.text

/-- The blocks that are queued, with their addresses. An `int` holds twice their length. While
blocks are taken off the queue `output_tail` may point into the last one, and it is of no use once
the queue is empty. -/
structure Held (h : Handle) (q : List (Nat × TextBlock)) : Prop where
  holds : h.output.Holds (q.map Prod.fst)
  nodup : (q.map Prod.fst).Nodup
  blocks : ∀ x ∈ q, h.blocks x.1 = some x.2 ∧ x.2.start + x.2.length = x.2.buffer.length
  fresh : ∀ x ∈ q, x.1 < h.allocated
  size : q.length ≤ h.allocated
  length : h.outputLength = (q.map fun x => (x.2.length : Int)).sum
  bound : h.outputLength < 2 ^ 30
  tail : q ≠ [] → h.outputTail = endSlot (q.map Prod.fst)

/-- The blocks that are queued between calls: `output_tail` points at the last link. -/
structure Represents (h : Handle) (q : List (Nat × TextBlock)) : Prop extends Held h q where
  last : h.outputTail = endSlot (q.map Prod.fst)

/-- The log accounts for what is queued, and for what has been discarded and not reported. -/
structure Logged (eol : Str) (h : Handle) (q : List (Nat × TextBlock)) : Prop where
  replay : Replay [] h.log (queueText q)
  pending : h.outputLinesFlushed = int32 (pending h.log)
  reported : Reported eol h.log

/-- The log goes on with events of a kind. -/
def Grows (P : Event → Prop) (h h' : Handle) : Prop :=
  ∃ events, h'.log = h.log ++ events ∧ ∀ e ∈ events, P e

theorem Grows.refl {P : Event → Prop} (h : Handle) : Grows P h h :=
  ⟨[], (List.append_nil _).symm, by simp⟩

theorem Grows.trans {P : Event → Prop} {h₁ h₂ h₃ : Handle} (h₁₂ : Grows P h₁ h₂)
    (h₂₃ : Grows P h₂ h₃) : Grows P h₁ h₃ := by
  obtain ⟨e₁, hlog₁, hP₁⟩ := h₁₂
  obtain ⟨e₂, hlog₂, hP₂⟩ := h₂₃
  exact ⟨e₁ ++ e₂, by rw [hlog₂, hlog₁, List.append_assoc], List.forall_mem_append.mpr ⟨hP₁, hP₂⟩⟩

theorem Grows.mono {P Q : Event → Prop} (hg : Grows P h h') (hPQ : ∀ e, P e → Q e) :
    Grows Q h h' := by
  obtain ⟨events, hlog, hP⟩ := hg
  exact ⟨events, hlog, fun e he => hPQ e (hP e he)⟩

theorem queueLength_nonneg (q : List (Nat × TextBlock)) :
    0 ≤ (q.map fun x => (x.2.length : Int)).sum := by
  refine List.sum_nonneg fun n hn => ?_
  obtain ⟨x, -, rfl⟩ := List.mem_map.mp hn
  exact Int.natCast_nonneg _

theorem length_text (hb : block.start + block.length = block.buffer.length) :
    block.text.length = block.length := by
  rw [TextBlock.text, List.length_take, List.length_drop]
  omega

theorem Held.cons_inv {x : Nat × TextBlock} (hq : h.Held (x :: q)) :
    h.output.head = some x.1 ∧ h.blocks x.1 = some x.2 ∧ x.2.start + x.2.length =
      x.2.buffer.length ∧
      ∃ next, h.output.next x.1 = some next := by
  obtain ⟨hhead, next, hnext, -⟩ := hq.holds
  exact ⟨hhead, (hq.blocks x List.mem_cons_self).1, (hq.blocks x List.mem_cons_self).2, next, hnext⟩

/-- An `int` holds what is left when bytes of the first block no longer count. -/
theorem Held.sub (hq : h.Held ((b, block) :: q)) {count : Nat} (hcount : count ≤ block.length) :
    int32 (h.outputLength - count) = h.outputLength - count := by
  have hsum : h.outputLength = block.length + (q.map fun x => (x.2.length : Int)).sum := hq.length
  have hrest : 0 ≤ (q.map fun x => (x.2.length : Int)).sum := queueLength_nonneg q
  have hbound := hq.bound
  exact int32_eq_self (by omega) (by omega)

/-- The first block goes, and its bytes no longer count. -/
theorem Held.dropHead (hq : h.Held ((b, block) :: q)) (hnext : h.output.next b = some next)
    (hsame : h'.output = h.output ∧ h'.blocks = h.blocks ∧ h'.outputTail = h.outputTail ∧
      h'.allocated = h.allocated)
    (hlen : h'.outputLength = h.outputLength - block.length) : (h'.dropHead b next).Held q := by
  obtain ⟨houtput, hblocks, htail, hallocated⟩ := hsame
  obtain ⟨-, next', hnext', hrun⟩ := hq.holds
  obtain rfl : next = next' := Option.some.inj (hnext.symm.trans hnext')
  obtain ⟨hb, hnd⟩ := List.nodup_cons.mp hq.nodup
  have hne : ∀ x ∈ q, x.1 ≠ b := fun x hx he => hb (List.mem_map.mpr ⟨x, hx, he⟩)
  have hbound := hq.bound
  refine ⟨?_, hnd, fun x hx => ?_, fun x hx => ?_, ?_, ?_, ?_, fun hne => ?_⟩
  · refine hrun.congr fun a ha => ?_
    obtain ⟨x, hx, rfl⟩ := List.mem_map.mp ha
    rw [Handle.dropHead, houtput]
    exact Function.update_of_ne (hne x hx) _ _
  · rw [Handle.dropHead, hblocks]
    exact (hq.blocks x (List.mem_cons_of_mem _ hx)).imp
      (Function.update_of_ne (hne x hx) _ _).trans id
  · exact (hq.fresh x (List.mem_cons_of_mem _ hx)).trans_eq hallocated.symm
  · exact (Nat.le_of_succ_le hq.size).trans_eq hallocated.symm
  · have hsum : h.outputLength = block.length + (q.map fun x => (x.2.length : Int)).sum := hq.length
    show h'.outputLength = _
    omega
  · show h'.outputLength < _
    omega
  · have hslot := hq.tail (List.cons_ne_nil _ _)
    have hmap : q.map Prod.fst ≠ [] := by simpa using hne
    show h'.outputTail = _
    rw [htail, hslot]
    exact endSlot_append (m := [b]) hmap

/-- Some bytes of the first block have been written. -/
theorem Held.shorten (hq : h.Held ((b, block) :: q)) {count : Nat} (hcount : count ≤ block.length)
    (hsame : h'.output = h.output ∧ h'.outputTail = h.outputTail ∧ h'.allocated = h.allocated)
    (hblocks : h'.blocks = Function.update h.blocks b
      (some { block with start := block.start + count, length := block.length - count }))
    (hlen : h'.outputLength = h.outputLength - count) :
    h'.Held ((b, { block with start := block.start + count, length := block.length - count }) ::
      q) := by
  obtain ⟨houtput, htail, hallocated⟩ := hsame
  obtain ⟨hb, -⟩ := List.nodup_cons.mp hq.nodup
  have hbound := hq.bound
  refine ⟨houtput ▸ hq.holds, hq.nodup, ?_, ?_, hallocated ▸ hq.size, ?_, by omega, fun _ => ?_⟩
  · refine List.forall_mem_cons.mpr ⟨⟨?_, ?_⟩, fun x hx => ?_⟩
    · rw [hblocks]
      exact Function.update_self _ _ _
    · have hwhole : block.start + block.length = block.buffer.length :=
        (hq.blocks _ List.mem_cons_self).2
      show block.start + count + (block.length - count) = block.buffer.length
      omega
    · have hxb : x.1 ≠ b := fun he => hb (List.mem_map.mpr ⟨x, hx, he⟩)
      rw [hblocks]
      exact (hq.blocks x (List.mem_cons_of_mem _ hx)).imp (Function.update_of_ne hxb _ _).trans id
  · rw [hallocated]
    exact List.forall_mem_cons.mpr ⟨hq.fresh (b, block) List.mem_cons_self,
      fun x hx => hq.fresh x (List.mem_cons_of_mem _ hx)⟩
  · have hsum : h.outputLength = block.length + (q.map fun x => (x.2.length : Int)).sum := hq.length
    show h'.outputLength = ((block.length - count : Nat) : Int) +
        (q.map fun x => (x.2.length : Int)).sum
    omega
  · rw [htail]
    exact hq.tail (List.cons_ne_nil _ _)

/-- One more event. -/
theorem Logged.concat (hl : h.Logged eol q) (hlog : h'.log = h.log ++ [e])
    (hstep : Step (queueText q) e (queueText q'))
    (hflushed : h'.outputLinesFlushed = int32 (countPending (Output.pending h.log) e))
    (hnotice : ∀ (lines : Nat) text complete, e = .notice lines text complete →
      (lines : Int) = h.outputLinesFlushed ∧ 0 < lines ∧
      text <+: notice eol lines ∧ (complete = true → text = notice eol lines)) :
    h'.Logged eol q' := by
  refine ⟨?_, ?_, ?_⟩
  · rw [hlog]
    exact hl.replay.append (.one hstep)
  · rw [hlog, pending_concat, hflushed]
  · rw [hlog]
    refine hl.reported.concat fun lines text complete he => ?_
    rw [← hl.pending]
    exact hnotice lines text complete he

/-! ## Writing -/

/-- A turn of the loop of `push_output`: bytes leave the queue at the front. -/
theorem advance_spec (hq : h.Held ((b, block) :: q)) (hl : h.Logged eol ((b, block) :: q))
    (hnext : h.output.next b = some next)
    {count : Nat} (hcount : count ≤ block.length) :
    ∃ q', (h.advance b count next block).Held q' ∧ (h.advance b count next block).Logged eol q' ∧
      Grows (fun e => e.isWrite = true) h (h.advance b count next block) := by
  have hwhole := (hq.blocks _ List.mem_cons_self).2
  have htext := length_text hwhole
  rw [advance]
  split
  · next hall =>
    have hfull : block.text.take count = block.text := List.take_of_length_le (by rw [htext, hall])
    have hlength : (h.logWrote count block).outputLength = h.outputLength - block.length :=
      hall ▸ hq.sub hcount
    refine ⟨q, hq.dropHead hnext ⟨rfl, rfl, rfl, rfl⟩ hlength, ?_,
      ⟨[.wrote (block.text.take count)], rfl, by simp [Event.isWrite]⟩⟩
    refine hl.concat (e := .wrote (block.text.take count)) rfl ?_ hl.pending nofun
    rw [hfull]
    exact .wrote
  · refine ⟨_, hq.shorten hcount ⟨rfl, rfl, rfl⟩ rfl (hq.sub hcount), ?_,
      ⟨[.wrote (block.text.take count)], rfl, by simp [Event.isWrite]⟩⟩
    refine hl.concat (e := .wrote (block.text.take count)) rfl ?_ hl.pending nofun
    have hrest :
        TextBlock.text { block with start := block.start + count, length := block.length - count } =
        block.text.drop count := by
      rw [TextBlock.text, TextBlock.text, List.drop_take, List.drop_drop]
    have hsplit : queueText ((b, block) :: q) = block.text.take count ++
        (block.text.drop count ++ queueText q) := by
      rw [← List.append_assoc, List.take_append_drop]
      rfl
    rw [hsplit, ← hrest]
    exact .wrote

theorem Held.nonneg (hq : h.Held q) : 0 ≤ h.outputLength := hq.length ▸ queueLength_nonneg q

/-- An `int` holds the length of the queue with one more line. -/
theorem Held.add (hq : h.Held q) {length : Nat} (hshort : length < 2 ^ 30) :
    int32 (h.outputLength + length) = h.outputLength + length := by
  have hnonneg := hq.nonneg
  have hbound := hq.bound
  exact int32_eq_self (by omega) (by omega)

theorem Held.head (hq : h.Held q) : h.output.head = (q.map Prod.fst).head? := Mem.Run.head? hq.holds

theorem Held.represents (hq : h.Held q) (hne : q ≠ []) : h.Represents q := ⟨hq, hq.tail hne⟩

/-- When the queue is empty `output_tail` is set to the head, and then it points at the last
link. -/
theorem Held.resetTail (hq : h.Held q) : h.resetTail.Represents q := by
  rw [Handle.resetTail, hq.head]
  cases q with
  | nil => exact ⟨⟨hq.holds, hq.nodup, hq.blocks, hq.fresh, hq.size, hq.length, hq.bound,
      fun _ => rfl⟩, rfl⟩
  | cons x q => exact hq.represents (List.cons_ne_nil x q)

theorem Logged.resetTail (hl : h.Logged eol q) : h.resetTail.Logged eol q := by
  rw [Handle.resetTail]
  split
  · exact ⟨hl.replay, hl.pending, hl.reported⟩
  · exact hl

theorem log_resetTail : h.resetTail.log = h.log := by
  rw [Handle.resetTail]
  split <;> rfl

/-- What is not in the queue and not in the log may change. -/
theorem Represents.setAnswers (hq : h.Represents q) (answers : List Answer) :
    (h.setAnswers answers).Represents q :=
  ⟨⟨hq.holds, hq.nodup, hq.blocks, hq.fresh, hq.size, hq.length, hq.bound, hq.tail⟩, hq.last⟩

theorem Logged.setAnswers (hl : h.Logged eol q) (answers : List Answer) :
    (h.setAnswers answers).Logged eol q :=
  ⟨hl.replay, hl.pending, hl.reported⟩

/-- The end of `push_output`. -/
theorem Held.finish (hq : h.Held q) (hl : h.Logged eol q) (answers : List Answer) :
    (h.resetTail.setAnswers answers).Represents q ∧ (h.resetTail.setAnswers answers).Logged eol q ∧
      Grows (fun e => e.isWrite = true) h (h.resetTail.setAnswers answers) :=
  ⟨hq.resetTail.setAnswers answers, hl.resetTail.setAnswers answers, [],
    log_resetTail.trans (List.append_nil _).symm, by simp⟩

/-- What the loop of `push_output` leaves, and that it waits only behind answers that are all
counts. -/
theorem pushBlocks_spec (hq : h.Held q) (hl : h.Logged eol q) (answers : List Answer) :
    (h.pushBlocks answers = .error .waiting ∧ ∀ a ∈ answers, ∃ n, a = .count n) ∨
      ∃ r h' q', h.pushBlocks answers = .ok (r, h') ∧ h'.Represents q' ∧ h'.Logged eol q' ∧
        Grows (fun e => e.isWrite = true) h h' := by
  induction answers generalizing h q with
  | nil =>
    cases q with
    | nil =>
      have hhead : h.output.head = none := hq.head
      exact .inr ⟨true, _, [], by rw [pushBlocks, if_pos hhead], hq.finish hl []⟩
    | cons x q => exact .inl ⟨by rw [pushBlocks, if_neg (by simp [hq.head])], by simp⟩
  | cons answer answers ih =>
    cases q with
    | nil =>
      have hhead : h.output.head = none := hq.head
      exact .inr ⟨true, _, [], by rw [pushBlocks]; simp only [hhead],
        hq.finish hl (answer :: answers)⟩
    | cons x q =>
      obtain ⟨b, block⟩ := x
      obtain ⟨hhead, hblock, -, next, hnext⟩ := hq.cons_inv
      cases answer with
      | error again =>
        refine .inr ⟨again, h.setAnswers answers, _, ?_,
          (hq.represents (List.cons_ne_nil _ _)).setAnswers answers,
          hl.setAnswers answers, .refl h⟩
        rw [pushBlocks]
        simp only [hhead, hblock, hnext]
      | count n =>
        obtain ⟨q₁, hq₁, hl₁, hgrows⟩ := advance_spec hq hl hnext (Nat.min_le_right n block.length)
        have hturn : h.pushBlocks (.count n :: answers) =
            (h.advance b (min n block.length) next block).pushBlocks answers := by
          rw [pushBlocks]
          simp only [hhead, hblock, hnext]
        rw [hturn]
        rcases ih hq₁ hl₁ with ⟨hwait, hall⟩ | ⟨r, h', q', hpush, hq', hl', hgrows'⟩
        · exact .inl ⟨hwait, List.forall_mem_cons.mpr ⟨⟨n, rfl⟩, hall⟩⟩
        · exact .inr ⟨r, h', q', hpush, hq', hl', hgrows.trans hgrows'⟩

/-- The notice is not part of the queue. If it is complete, the count begins again. -/
theorem pushNotice_spec (hq : h.Represents q) (hl : h.Logged eol q) :
    (h.pushNotice eol = .error .waiting ∧ h.answers = []) ∨
      ∃ r h', h.pushNotice eol = .ok (r, h') ∧ h'.Represents q ∧ h'.Logged eol q ∧
      Grows (fun e => e.isWrite = true) h h' ∧
        (r = none → ∀ a ∈ h.answers, a ∈ h'.answers ∨ ∃ n, a = .count n) := by
  rw [pushNotice]
  split
  · next hflushed =>
    have hlines : (h.outputLinesFlushed.toNat : Int) = h.outputLinesFlushed :=
      Int.toNat_of_nonneg (by omega)
    have hpos : 0 < h.outputLinesFlushed.toNat := by omega
    cases ha : h.answers with
    | nil => exact .inl ⟨rfl, rfl⟩
    | cons answer answers =>
      cases answer with
      | error again =>
        exact .inr ⟨some again, h.setAnswers answers, rfl, hq.setAnswers answers,
          hl.setAnswers answers, .refl h, nofun⟩
      | count n =>
        simp only []
        split
        · have hzero : (0 : Int) = int32 0 := (int32_eq_self (by decide) (by decide)).symm
          refine .inr ⟨none, _, rfl,
            ⟨⟨hq.holds, hq.nodup, hq.blocks, hq.fresh, hq.size, hq.length, hq.bound, hq.tail⟩,
              hq.last⟩,
            hl.concat (e := .notice h.outputLinesFlushed.toNat
              (notice eol h.outputLinesFlushed.toNat) true) rfl .notice
              hzero ?_,
            ⟨[_], rfl, by simp [Event.isWrite]⟩, fun _ a ha => ?_⟩
          · rintro _ _ _ ⟨⟩
            exact ⟨hlines, hpos, List.prefix_refl _, fun _ => rfl⟩
          · rcases List.mem_cons.mp ha with rfl | ha
            · exact .inr ⟨n, rfl⟩
            · exact .inl ha
        · refine .inr ⟨some true, _, rfl,
            ⟨⟨hq.holds, hq.nodup, hq.blocks, hq.fresh, hq.size, hq.length, hq.bound, hq.tail⟩,
              hq.last⟩,
            hl.concat (e := .notice h.outputLinesFlushed.toNat
              ((notice eol h.outputLinesFlushed.toNat).take n) false) rfl
              .notice hl.pending ?_,
            ⟨[_], rfl, by simp [Event.isWrite]⟩, nofun⟩
          rintro _ _ _ ⟨⟩
          exact ⟨hlines, hpos, List.take_prefix _ _, nofun⟩
  · exact .inr ⟨none, h, rfl, hq, hl, .refl h, fun _ a ha => .inl ha⟩

/-- `push_output` only writes. -/
theorem pushOutput_spec (hq : h.Represents q) (hl : h.Logged eol q) :
    (h.pushOutput eol = .error .waiting ∧ ∀ a ∈ h.answers, ∃ n, a = .count n) ∨
      ∃ r h' q', h.pushOutput eol = .ok (r, h') ∧ h'.Represents q' ∧ h'.Logged eol q' ∧
        Grows (fun e => e.isWrite = true) h h' := by
  rcases pushNotice_spec hq hl with ⟨hwait, hnone⟩ | ⟨r, h₁, hnotice, hq₁, hl₁, hgrows₁, hrest⟩
  · exact .inl ⟨by rw [pushOutput, hwait]; rfl, by simp [hnone]⟩
  · cases r with
    | some r => exact .inr ⟨r, h₁, q, by rw [pushOutput, hnotice]; rfl, hq₁, hl₁, hgrows₁⟩
    | none =>
      have hpush : h.pushOutput eol = h₁.pushBlocks h₁.answers := by
        rw [pushOutput, hnotice]
        rfl
      rw [hpush]
      rcases pushBlocks_spec hq₁.toHeld hl₁ h₁.answers with ⟨hwait, hall⟩ | ⟨r, h', q', hblocks,
        hq', hl', hgrows'⟩
      · exact .inl ⟨hwait, fun a ha => (hrest rfl a ha).elim (hall a) id⟩
      · exact .inr ⟨r, h', q', hblocks, hq', hl', hgrows₁.trans hgrows'⟩

/-! ## Making room -/

/-- The loop that discards: it ends with an empty queue, or when as much is gone as had to be. -/
theorem flush_spec {fuel : Nat} (hq : h.Held q) (hl : h.Logged eol q)
    (hfuel : q.length < fuel) (toFlush : Int)
    (hto : toFlush < 2 ^ 31) :
    ∃ h' q', flush fuel h toFlush = .ok h' ∧ h'.Held q' ∧ h'.Logged eol q' ∧
      Grows (fun e => e.isDiscarded = true) h h' ∧
      (q' = [] ∨ h'.outputLength ≤ h.outputLength - toFlush) := by
  induction q generalizing h fuel toFlush with
  | nil =>
    obtain ⟨fuel, rfl⟩ := Nat.exists_eq_add_of_lt hfuel
    have hhead : h.output.head = none := hq.head
    refine ⟨h, [], ?_, hq, hl, .refl h, .inl rfl⟩
    rw [flush, hhead]
    split <;> rfl
  | cons x q ih =>
    obtain ⟨b, block⟩ := x
    cases fuel with
    | zero => simp at hfuel
    | succ fuel =>
      rw [flush]
      split
      · obtain ⟨hhead, hblock, -, next, hnext⟩ := hq.cons_inv
        have hlength : (h.logDiscarded block).outputLength = h.outputLength - block.length :=
          hq.sub le_rfl
        have hflushed : int32 (h.outputLinesFlushed + 1) = int32 (pending h.log + 1 : Nat) := by
          rw [hl.pending, int32_add]
          rfl
        have hq₁ : ((h.logDiscarded block).dropHead b next).Held q :=
          hq.dropHead hnext ⟨rfl, rfl, rfl, rfl⟩ hlength
        have hl₁ : ((h.logDiscarded block).dropHead b next).Logged eol q :=
          hl.concat (e := .discarded block.text) rfl .discarded hflushed nofun
        have hblocklen : (block.length : Int) < 2 ^ 30 := by
          have hsum : h.outputLength = block.length + (q.map fun x => (x.2.length : Int)).sum :=
            hq.length
          have hrest := queueLength_nonneg q
          have hbound := hq.bound
          omega
        have hsub : int32 (toFlush - block.length) = toFlush - block.length :=
          int32_eq_self (by omega) (by omega)
        obtain ⟨h', q', hflush, hq', hl', hgrows, hroom⟩ :=
          ih hq₁ hl₁ (by simpa using hfuel) (toFlush - block.length) (by omega)
        have hgrows₁ : Grows (fun e => e.isDiscarded = true) h
            ((h.logDiscarded block).dropHead b next) :=
          ⟨[.discarded block.text], rfl, by simp [Event.isDiscarded]⟩
        refine ⟨h', q', ?_, hq', hl', hgrows₁.trans hgrows, hroom.imp_right fun hle => ?_⟩
        · simp only [hhead, hblock, hnext, hsub]
          exact hflush
        · have hafter : h'.outputLength ≤ (h.logDiscarded block).outputLength -
              (toFlush - block.length) := hle
          omega
      · next hdone =>
        exact ⟨h, _, rfl, hq, hl, .refl h, .inr (by omega)⟩

/-- Either there is room afterwards, or the call does not go on and has only written. -/
theorem makeRoom_spec (hq : h.Represents q) (hl : h.Logged eol q) {length : Nat}
    (hshort : length < 2 ^ 30)
    (flushOk : Bool) :
    (h.makeRoom eol length flushOk = .error .waiting ∧ ∀ a ∈ h.answers, ∃ n, a = .count n) ∨
      ∃ goOn h' q', h.makeRoom eol length flushOk = .ok (goOn, h') ∧ h'.Represents q' ∧
      h'.Logged eol q' ∧
        Grows (fun e => e.accepted = []) h h' ∧
        (goOn = false → Grows (fun e => e.isWrite = true) h h') ∧
        (goOn = true → h'.outputLength = 0 ∨ h'.outputLength + length ≤ MAX_QUEUED_OUTPUT) := by
  rw [makeRoom, hq.toHeld.add hshort]
  split
  · rcases pushOutput_spec hq hl with ⟨hwait, hall⟩ | ⟨r, h₁, q₁, hpush, hq₁, hl₁, hgrows₁⟩
    · exact .inl ⟨by rw [hwait]; rfl, hall⟩
    · refine .inr ?_
      rw [hpush]
      -- nothing wraps, as the queue is bounded and the line is short
      have hto : int32 (int32 (h₁.outputLength + length) - MAX_QUEUED_OUTPUT) =
          h₁.outputLength + length - MAX_QUEUED_OUTPUT := by
        have hnonneg := hq₁.toHeld.nonneg
        have hbound := hq₁.bound
        rw [hq₁.toHeld.add hshort, MAX_QUEUED_OUTPUT]
        exact int32_eq_self (by omega) (by omega)
      by_cases hrefuse : h₁.outputLength + length - MAX_QUEUED_OUTPUT > 0 ∧ !flushOk
      · refine ⟨false, h₁, q₁, ?_, hq₁, hl₁, hgrows₁.mono fun _ => accepted_of_write,
          fun _ => hgrows₁, nofun⟩
        show (if int32 (int32 (h₁.outputLength + length) - MAX_QUEUED_OUTPUT) > 0 ∧
          _ then _ else _) = _
        rw [hto, if_pos hrefuse]
        rfl
      · obtain ⟨h₂, q₂, hflush, hq₂, hl₂, hgrows₂, hroom⟩ := flush_spec hq₁.toHeld hl₁
          (Nat.lt_succ_of_le hq₁.size) (h₁.outputLength + length - MAX_QUEUED_OUTPUT) (by
            have hbound := hq₁.bound
            rw [MAX_QUEUED_OUTPUT]
            omega)
        have hlength : h₂.resetTail.outputLength = h₂.outputLength := by
          rw [Handle.resetTail]
          split <;> rfl
        have hgrows₃ : Grows (fun e => e.accepted = []) h₂ h₂.resetTail := by
          rw [Grows, log_resetTail]
          exact Grows.refl h₂
        refine ⟨true, h₂.resetTail, q₂, ?_, hq₂.resetTail, hl₂.resetTail, ?_, nofun, fun _ => ?_⟩
        · show (if int32 (int32 (h₁.outputLength + length) - MAX_QUEUED_OUTPUT) > 0 ∧
            _ then _ else (do
            let h ← flush (h₁.allocated + 1) h₁
              (int32 (int32 (h₁.outputLength + length) - MAX_QUEUED_OUTPUT))
            return (true, h.resetTail))) = _
          rw [hto, if_neg hrefuse, hflush]
          rfl
        · exact ((hgrows₁.mono fun _ => accepted_of_write).trans
            (hgrows₂.mono fun _ => accepted_of_discarded)).trans hgrows₃
        · rw [hlength]
          rcases hroom with rfl | hle
          · exact .inl hq₂.length
          · exact .inr (by omega)
  · next hroom => exact .inr ⟨true, h, q, rfl, hq, hl, .refl h, fun _ => .refl h, fun _ => by omega⟩

/-! ## Appending -/

/-- A block goes to the end of the queue. -/
theorem append_spec (hq : h.Represents q) (hl : h.Logged eol q) (text : Str)
    (hroom : h.outputLength + text.length < 2 ^ 30) :
    ∃ h', h.append text text.length = .ok h' ∧
      h'.Represents (q ++ [(h.allocated, ⟨text.length, text, 0⟩)]) ∧
      h'.Logged eol (q ++ [(h.allocated, ⟨text.length, text, 0⟩)]) ∧
      h'.log = h.log ++ [.queued text] ∧
      h'.outputLength = h.outputLength + text.length := by
  have hfresh : h.allocated ∉ q.map Prod.fst := by
    intro hm
    obtain ⟨x, hx, he⟩ := List.mem_map.mp hm
    exact (hq.fresh x hx).ne he
  have hne : ∀ x ∈ q, x.1 ≠ h.allocated := fun x hx he => hfresh (List.mem_map.mpr ⟨x, hx, he⟩)
  have hnonneg := hq.toHeld.nonneg
  have hlength : int32 (h.outputLength + text.length) = h.outputLength + text.length :=
    int32_eq_self (by omega) (by omega)
  -- the new block has an address of its own, so that the list is as before until it is linked
  have hholds : (h.alloc text text.length).output.Holds (q.map Prod.fst ++ []) := by
    rw [List.append_nil]
    refine hq.holds.congr fun a ha => ?_
    obtain ⟨x, hx, rfl⟩ := List.mem_map.mp ha
    exact Function.update_of_ne (hne x hx) _ _
  have htail : (h.alloc text text.length).outputTail = endSlot (q.map Prod.fst) := hq.last
  have hload := Mem.load_endSlot hholds
  have hnew : ((h.alloc text text.length).output.store (endSlot (q.map Prod.fst))
    (some h.allocated)).next h.allocated = some none := by
    rw [Mem.store_next_of_ne (Mem.endSlot_ne_field hfresh)]
    exact Function.update_self _ _ _
  have hmap : (q ++ [(h.allocated, (⟨text.length, text, 0⟩ : TextBlock))]).map Prod.fst =
      q.map Prod.fst ++ [h.allocated] := by
    rw [List.map_append]
    rfl
  refine ⟨(h.alloc text text.length).link h.allocated text text.length,
    by rw [append]; simp only [htail, hload],
    ⟨⟨?_, ?_, ?_, ?_, ?_, ?_, ?_, ?_⟩, ?_⟩, ?_, rfl, hlength⟩
  · rw [hmap]
    have hlinked := Mem.store_endSlot (v := some h.allocated) (l := [h.allocated]) hholds hq.nodup
      ⟨rfl, none, hnew, rfl⟩
    rwa [← htail] at hlinked
  · rw [hmap, List.nodup_append]
    exact ⟨hq.nodup, List.nodup_singleton _, fun a ha c hc he =>
      hfresh (by rw [← List.mem_singleton.mp hc, ← he]; exact ha)⟩
  · refine List.forall_mem_append.mpr ⟨fun x hx => ?_, fun x hx => ?_⟩
    · exact (hq.blocks x hx).imp (Function.update_of_ne (hne x hx) _ _).trans id
    · rw [List.mem_singleton.mp hx]
      exact ⟨Function.update_self _ _ _, Nat.zero_add _⟩
  · refine List.forall_mem_append.mpr ⟨fun x hx => Nat.lt_succ_of_lt (hq.fresh x hx),
      fun x hx => ?_⟩
    rw [List.mem_singleton.mp hx]
    exact Nat.lt_succ_self _
  · rw [List.length_append]
    exact Nat.succ_le_succ hq.size
  · show int32 (h.outputLength + text.length) = _
    rw [hlength, List.map_append, List.sum_append, ← hq.length]
    exact congrArg (h.outputLength + ·) (Int.add_zero _).symm
  · show int32 (h.outputLength + text.length) < _
    omega
  · intro _
    rw [hmap, endSlot_append_singleton]
    rfl
  · rw [hmap, endSlot_append_singleton]
    rfl
  · refine hl.concat (e := .queued text) rfl ?_ hl.pending nofun
    have htext : queueText (q ++ [(h.allocated, ⟨text.length, text, 0⟩)]) =
        queueText q ++ text := by
      rw [queueText, List.flatMap_append]
      simp [TextBlock.text, queueText]
    rw [htext]
    exact .queued

/-! ## Calls -/

/-- Nothing of the queue is lost: what a call has taken off it, it has written. -/
def OnlyWrites (h h' : Handle) (q q' : List (Nat × TextBlock)) : Prop :=
  ∃ events, h'.log = h.log ++ events ∧ (∀ e ∈ events, e.isWrite = true) ∧
    queueText q = events.flatMap Event.sent ++ queueText q'

theorem Logged.onlyWrites (hl : h.Logged eol q) (hl' : h'.Logged eol q')
    (hgrows : Grows (fun e => e.isWrite = true) h h') :
    OnlyWrites h h' q q' := by
  obtain ⟨events, hlog, hwrites⟩ := hgrows
  have hreplay := hl'.replay
  rw [hlog] at hreplay
  obtain ⟨t, hbefore, hafter⟩ := hreplay.split
  obtain rfl := hl.replay.det hbefore
  exact ⟨events, hlog, hwrites, hafter.writes hwrites⟩

/-- The line is the last block of the queue, which is within the limit unless the other blocks have
no bytes. -/
def Queued (h : Handle) (q : List (Nat × TextBlock)) (text : Str) : Prop :=
  ∃ before x, q = before ++ [x] ∧ x.2.text = text ∧
    (h.outputLength ≤ MAX_QUEUED_OUTPUT ∨ ∀ y ∈ before, y.2.text = [])

/-- No bytes are queued only in blocks without any. -/
theorem Held.text_nil (hq : h.Held q) (hzero : h.outputLength = 0) : ∀ x ∈ q, x.2.text = [] := by
  have hnonneg : ∀ n ∈ q.map fun x => (x.2.length : Int), 0 ≤ n := fun n hn => by
    obtain ⟨y, -, rfl⟩ := List.mem_map.mp hn
    exact Int.natCast_nonneg _
  intro x hx
  have hlen : (x.2.length : Int) = 0 :=
    List.all_zero_of_le_zero_le_of_sum_eq_zero hnonneg (hq.length.symm.trans hzero)
      (List.mem_map.mpr ⟨x, hx, rfl⟩)
  rw [TextBlock.text, Int.natCast_eq_zero.mp hlen, List.take_zero]

/-- What a call returns is whether the line has been queued. -/
theorem enqueueOutput_spec (hq : h.Represents q) (hl : h.Logged eol q) (line : Str)
    (addEol flushOk : Bool)
    (hshort : (line ++ if addEol then eol else []).length < 2 ^ 30) :
    (h.enqueueOutput eol line addEol flushOk = .error .waiting ∧
      ∀ a ∈ h.answers, ∃ n, a = .count n) ∨
      ∃ r h' q', h.enqueueOutput eol line addEol flushOk = .ok (r, h') ∧ h'.Represents q' ∧
      h'.Logged eol q' ∧
        (r = false → OnlyWrites h h' q q') ∧
        (r = true → h'.Queued q' (line ++ if addEol then eol else []) ∧
          ∃ events, h'.log = h.log ++ events ++ [.queued (line ++ if addEol then eol else [])] ∧
          ∀ e ∈ events, e.accepted = []) := by
  obtain ⟨text, htext⟩ : ∃ text, text = line ++ if addEol then eol else [] := ⟨_, rfl⟩
  have hint : int32 text.length = text.length := int32_eq_self (by omega) (by rw [htext]; omega)
  rw [enqueueOutput, ← htext, hint]
  rw [← htext] at hshort
  rcases makeRoom_spec hq hl hshort flushOk with ⟨hwait, hall⟩ | ⟨goOn, h₁, q₁, hroom, hq₁, hl₁,
    hgrows, hrefused, hlimit⟩
  · exact .inl ⟨by rw [hwait]; rfl, hall⟩
  · refine .inr ?_
    rw [hroom]
    cases goOn with
    | false =>
      exact ⟨false, h₁, q₁, rfl, hq₁, hl₁, fun _ => hl.onlyWrites hl₁ (hrefused rfl), nofun⟩
    | true =>
      have hfits : h₁.outputLength + text.length < 2 ^ 30 := by
        rcases hlimit rfl with hzero | hle
        · omega
        · rw [MAX_QUEUED_OUTPUT] at hle
          omega
      obtain ⟨h', happend, hq', hl', hlog, hlength⟩ := append_spec hq₁ hl₁ text hfits
      refine ⟨true, h', _, ?_, hq', hl', nofun, fun _ => ⟨⟨q₁, _, rfl, ?_, ?_⟩, ?_⟩⟩
      · show (do let h ← h₁.append text text.length; pure (true, h)) = _
        rw [happend]
        rfl
      · rw [TextBlock.text, List.drop_zero, List.take_length]
      · rcases hlimit rfl with hzero | hle
        · exact .inr (hq₁.toHeld.text_nil hzero)
        · exact .inl (hlength ▸ hle)
      · obtain ⟨events, hevents, haccepted⟩ := hgrows
        exact ⟨events, by rw [hlog, hevents], haccepted⟩

/-- What a call accepts. -/
def Call.accepted (eol : Str) (r : Bool) : Call → Str
  | .push => []
  | .enqueue line addEol _ => if r then line ++ (if addEol then eol else []) else []

/-- The line of a call has fewer than `2 ^ 30` bytes with its line end. -/
def Call.Short (eol : Str) : Call → Prop
  | .push => True
  | .enqueue line addEol _ => (line ++ if addEol then eol else []).length < 2 ^ 30

/-- Whether a call has queued a line. -/
def Call.queues (r : Bool) : Call → Prop
  | .push => False
  | .enqueue _ _ _ => r = true

/-- The queue between calls. `output_length` is the sum of the blocks and `output_tail` points at
the last link. As long as nothing has been discarded, what has been written and what is queued is
what was accepted. A notice reports the blocks discarded since the last complete one. -/
structure Faithful (eol : Str) (h : Handle) (q : List (Nat × TextBlock)) : Prop where
  holds : h.output.Holds (q.map Prod.fst)
  blocks : ∀ x ∈ q, h.blocks x.1 = some x.2
  length : h.outputLength = (q.map fun x => (x.2.length : Int)).sum
  last : h.outputTail = endSlot (q.map Prod.fst)
  undiscarded : (∀ e ∈ h.log, e.isDiscarded = false) →
    h.log.flatMap Event.written ++ queueText q = h.log.flatMap Event.accepted
  reported : Reported eol h.log

/-- What a call does: it accepts a line and keeps to the limit, or it loses nothing. -/
structure Settles (eol : Str) (c : Call) (r : Bool) (h h' : Handle)
    (q q' : List (Nat × TextBlock)) : Prop where
  accepted : h'.log.flatMap Event.accepted = h.log.flatMap Event.accepted ++ c.accepted eol r
  queued : c.queues r → h'.Queued q' (c.accepted eol r)
  unlost : ¬ c.queues r → OnlyWrites h h' q q'

theorem Represents.faithful (hq : h.Represents q) (hl : h.Logged eol q) : h.Faithful eol q := by
  refine ⟨hq.holds, fun x hx => (hq.blocks x hx).1, hq.length, hq.last, fun hd => ?_, hl.reported⟩
  have hcontent := hl.replay.undiscarded fun e he => ⟨hd e he, hl.reported.undiscarded hd e he⟩
  exact hcontent.symm

theorem flatMap_accepted {events : List Event} (hnone : ∀ e ∈ events, e.accepted = []) :
    events.flatMap Event.accepted = [] :=
  List.flatMap_eq_nil_iff.mpr hnone

/-- One call. -/
theorem call_spec (hq : h.Represents q) (hl : h.Logged eol q) (c : Call) (hc : c.Short eol) :
    (h.call eol c = .error .waiting ∧ ∀ a ∈ h.answers, ∃ n, a = .count n) ∨
      ∃ r h' q', h.call eol c = .ok (r, h') ∧ h'.Represents q' ∧ h'.Logged eol q' ∧
      Settles eol c r h h' q q' := by
  have hunlost : ∀ {h' q'}, OnlyWrites h h' q q' → h'.log.flatMap Event.accepted =
      h.log.flatMap Event.accepted ++ [] := by
    rintro h' q' ⟨events, hlog, hwrites, -⟩
    rw [hlog, List.flatMap_append, flatMap_accepted fun e he => accepted_of_write (hwrites e he)]
  cases c with
  | push =>
    rcases pushOutput_spec hq hl with hwait | ⟨r, h', q', hpush, hq', hl', hgrows⟩
    · exact .inl hwait
    · have honly := hl.onlyWrites hl' hgrows
      exact .inr ⟨r, h', q', hpush, hq', hl', hunlost honly, False.elim, fun _ => honly⟩
  | enqueue line addEol flushOk =>
    rcases enqueueOutput_spec hq hl line addEol flushOk hc with hwait | ⟨r, h', q', hcall, hq', hl',
      hrefused, haccepted⟩
    · exact .inl hwait
    · refine .inr ⟨r, h', q', hcall, hq', hl', ?_⟩
      cases r with
      | false => exact ⟨hunlost (hrefused rfl), nofun, fun _ => hrefused rfl⟩
      | true =>
        obtain ⟨hqueued, events, hlog, hnone⟩ := haccepted rfl
        refine ⟨?_, fun _ => hqueued, fun hn => absurd rfl hn⟩
        rw [hlog, List.flatMap_append, List.flatMap_append, flatMap_accepted hnone, List.append_nil]
        exact congrArg _ (List.append_nil _)

theorem new_represents (answers : List Answer) : (new answers).Represents [] :=
  ⟨⟨rfl, List.nodup_nil, by simp, by simp, Nat.zero_le _, rfl, by simp [new], fun _ => rfl⟩, rfl⟩

theorem new_logged (eol : Str) (answers : List Answer) : (new answers).Logged eol [] :=
  ⟨.nil, (int32_eq_self (n := 0) (by decide) (by decide)).symm,
    fun before _ _ _ _ hsplit => by cases before <;> cases hsplit⟩

/-- Any calls. -/
theorem calls_spec (hq : h.Represents q) (hl : h.Logged eol q) (cs : List Call)
    (hcs : ∀ c ∈ cs, c.Short eol) :
    h.calls eol cs = .error .waiting ∨ ∃ h' q', h.calls eol cs = .ok h' ∧ h'.Represents q' ∧
      h'.Logged eol q' := by
  induction cs generalizing h q with
  | nil => exact .inr ⟨h, q, rfl, hq, hl⟩
  | cons c cs ih =>
    obtain ⟨hc, hcs⟩ := List.forall_mem_cons.mp hcs
    rcases call_spec hq hl c hc with ⟨hwait, -⟩ | ⟨r, h₁, q₁, hcall, hq₁, hl₁, -⟩
    · refine .inl ?_
      rw [calls, List.foldlM_cons, hwait]
      rfl
    · rw [calls, List.foldlM_cons, hcall]
      exact ih hq₁ hl₁ hcs

/-- While no bytes are queued a line is accepted whatever its length. -/
theorem enqueueOutput_unqueued (hzero : h.outputLength = 0) (eol line : Str) (addEol flushOk : Bool)
    (hshort : (line ++ if addEol then eol else []).length < 2 ^ 30) :
    h.enqueueOutput eol line addEol flushOk =
      (h.append (line ++ if addEol then eol else []) (line ++ if addEol then eol
        else []).length).map (true, ·) := by
  generalize htext : (line ++ if addEol then eol else []) = text at hshort ⊢
  have hint : int32 text.length = text.length := int32_eq_self (by omega) (by omega)
  have hroom : h.makeRoom eol text.length flushOk = .ok (true, h) := if_neg fun hn => hn.1 hzero
  rw [enqueueOutput, htext, hint, hroom]
  rfl

/-- Behind a block without bytes, a line of any length that an `int` holds twice is accepted. -/
theorem calls_behind_empty (eol line : Str) (hshort : line.length < 2 ^ 30) : ∃ h q,
    (new []).calls eol [.enqueue [] false true, .enqueue line false true] = .ok h ∧
      h.Represents q ∧ q.length = 2 ∧
      h.outputLength = line.length := by
  obtain ⟨h₁, happend₁, hq₁, hl₁, -, hlength₁⟩ :=
    append_spec (new_represents []) (new_logged eol []) [] (by decide)
  have hzero : h₁.outputLength = 0 := hlength₁
  obtain ⟨h₂, happend₂, hq₂, -, -, hlength₂⟩ := append_spec hq₁ hl₁ line (by omega)
  refine ⟨h₂, _, ?_, hq₂, rfl, by rw [hlength₂, hzero, Int.zero_add]⟩
  have hcall₁ : (new []).call eol (.enqueue [] false true) = .ok (true, h₁) := by
    rw [call, enqueueOutput_unqueued rfl _ _ _ _ (by simp)]
    exact congrArg _ happend₁
  have hcall₂ : h₁.call eol (.enqueue line false true) = .ok (true, h₂) := by
    rw [call, enqueueOutput_unqueued hzero _ _ _ _ (by simpa using hshort),
      if_neg Bool.false_ne_true, List.append_nil,
      happend₂]
    rfl
  rw [calls, List.foldlM_cons, hcall₁]
  show [Call.enqueue line false true].foldlM (fun h c => (h.call eol c).map Prod.snd) h₁ = _
  rw [List.foldlM_cons, hcall₂]
  rfl

end Handle

end Output
end NuMoo
