import Mathlib.Data.List.TakeWhile
import NuMoo.Task.Activation

/-!
# No lost wakeup

An idle queue has nothing to do: no background task is ready, no reader waits for input
that cannot come, and `run_ready_tasks` would not take a line from it. Each operation on a
queue must call `ensure_usage` when it breaks this; `do_login_task` does not when it moves
the ready tasks of a connection to a queue of their own.

Results:
1. `run_quiet`: idle queues have nothing to do after every run in which each connection
   that logs in has no ready background task of its own, or a count of 0 for them.
2. `login_lost_wakeup`: after a login with such a task, the task is on an idle queue.
-/

namespace NuMoo
namespace Task

/-- There is nothing to do for a queue. -/
structure TQueue.Quiet (q : TQueue) : Prop where
  firstBg : q.firstBg = []
  reading : ¬ (q.reading.isSome ∧ q.isOutOfInput)
  input : (dequeue q.disableOob q.how q.input).1 = none

variable {q q' : TQueue} {l : List InputTask}

theorem dequeue_first_eq_none {b : Bool} : (dequeue b .DQ_FIRST l).1 = none ↔ l = [] := by
  have hw : ∀ t, wanted b .DQ_FIRST t = true :=
    fun t => by cases b <;> simp [wanted, DequeueHow.wants]
  cases l with
  | nil => simp [dequeue]
  | cons t l => simp [dequeue, hw]

theorem dequeue_oob_eq_none {b : Bool} :
    (dequeue b .DQ_OOB l).1 = none ↔ b ∨ ∀ t ∈ l, t.isOob = false := by
  cases b <;> simp [dequeue, wanted, DequeueHow.wants]

namespace TQueue

/-- Lines that nobody asks for yet. -/
def Unasked (q : TQueue) : Prop :=
  if q.holdInput && q.reading.isNone then q.disableOob ∨ ∀ t ∈ q.input, t.isOob = false
  else q.input = []

theorem dequeue_how_eq_none : (dequeue q.disableOob q.how q.input).1 = none ↔ q.Unasked := by
  unfold how Unasked
  split
  · exact dequeue_oob_eq_none
  · exact dequeue_first_eq_none

/-- Nothing is unasked for where there is a reader. -/
theorem Unasked.input_nil (h : q.Unasked) (hr : q.reading.isNone = false) : q.input = [] := by
  rw [Unasked, hr, Bool.and_false] at h
  exact h

theorem isOutOfInput_iff (hi : q.input = []) : q.isOutOfInput = true ↔ q.connected = false := by
  rw [isOutOfInput, hi]
  cases q.connected <;> decide

/-- The lines that a queue may hold while it is idle. -/
theorem quiet_iff : q.Quiet ↔ q.firstBg = [] ∧ (q.reading.isSome → q.connected) ∧
    if q.holdInput && q.reading.isNone then q.disableOob ∨ ∀ t ∈ q.input, t.isOob = false
      else q.input = [] := by
  constructor
  · rintro ⟨hb, hr, hi⟩
    have hun := dequeue_how_eq_none.mp hi
    refine ⟨hb, fun hs => ?_, hun⟩
    -- a reader asks for any line, so there is none
    have hnil := hun.input_nil (Option.isNone_eq_false_iff.mpr hs)
    have hno : ¬ q.isOutOfInput := fun ho => hr ⟨hs, ho⟩
    rw [isOutOfInput_iff hnil] at hno
    exact (Bool.not_eq_false _).mp hno
  · rintro ⟨hb, hr, hi⟩
    refine ⟨hb, fun ⟨hs, ho⟩ => ?_, dequeue_how_eq_none.mpr hi⟩
    rw [isOutOfInput, hr hs] at ho
    cases ho

theorem Quiet.same (h : q.Quiet) (hs : Tasks.SameTasks q q') : q'.Quiet := by
  rw [hs]
  exact ⟨h.firstBg, h.reading, h.input⟩

theorem create_quiet (player : Objid) : (create player).Quiet := quiet_iff.mpr (by simp [create])

/-- A queue that is quiet and whose reader waits, or whose lines do not wait for one, has no
lines. -/
theorem Quiet.input_nil (h : q.Quiet) (hr : (q.holdInput && q.reading.isNone) = false) :
    q.input = [] := by
  have := (quiet_iff.mp h).2.2
  rwa [hr, if_neg (by simp)] at this

theorem Quiet.enqueue (h : q.Quiet) (t : Nat) (input : Str) (atFront binary : Bool)
    (hc : ¬ (!q.holdInput || q.reading.isSome ||
      (!q.disableOob && (inputKind input binary).isOob)) = true) :
    ({ q with input := Task.enqueue t input atFront binary q.input } : TQueue).Quiet := by
  obtain ⟨hb, hr, hi⟩ := quiet_iff.mp h
  simp only [Bool.or_eq_true, Bool.not_eq_eq_eq_not, Bool.not_true, Bool.and_eq_true, not_or,
    Bool.not_eq_false,
    Bool.not_eq_true] at hc
  obtain ⟨⟨hh, hn⟩, hk⟩ := hc
  have hnone : q.reading.isNone = true := by cases hq : q.reading <;> simp_all
  refine quiet_iff.mpr ⟨hb, hr, ?_⟩
  rw [hh, hnone] at hi ⊢
  rw [Bool.and_self, if_pos rfl] at hi ⊢
  rcases hi with hd | hi
  · exact .inl hd
  · by_cases hd : q.disableOob = true
    · exact .inl hd
    · refine .inr fun u hu => ?_
      have hnew : (inputKind input binary).isOob = false := by
        rcases Bool.eq_false_or_eq_true (inputKind input binary).isOob with ho | ho
        · exact absurd ⟨by simpa using hd, ho⟩ hk
        · exact ho
      unfold Task.enqueue at hu
      dsimp only at hu
      split at hu
      · rcases List.mem_cons.mp hu with rfl | hu
        · exact hnew
        · exact hi u hu
      · rcases List.mem_append.mp hu with hu | hu
        · exact hi u hu
        · obtain rfl := List.mem_singleton.mp hu
          exact hnew

theorem Quiet.flush (h : q.Quiet) : ({ q with input := [] } : TQueue).Quiet := by
  obtain ⟨hb, hr, _⟩ := quiet_iff.mp h
  refine quiet_iff.mpr ⟨hb, hr, ?_⟩
  split <;> simp

/-- Lines may be taken from a quiet queue. -/
theorem Quiet.erase (h : q.Quiet) (p : InputTask → Bool) :
    ({ q with input := q.input.eraseP p } : TQueue).Quiet := by
  obtain ⟨hb, hr, hi⟩ := quiet_iff.mp h
  refine quiet_iff.mpr ⟨hb, hr, ?_⟩
  dsimp only
  split
  · next hc =>
    rw [if_pos hc] at hi
    exact hi.imp id fun hi u hu => hi u (List.mem_of_mem_eraseP hu)
  · next hc =>
    rw [if_neg hc] at hi
    rw [hi]
    rfl

theorem Quiet.connect (h : q.Quiet) (handler : Objid) :
    ({ q with connected := true, handler := handler } : TQueue).Quiet := by
  obtain ⟨hb, _, hi⟩ := quiet_iff.mp h
  exact quiet_iff.mpr ⟨hb, fun _ => rfl, hi⟩

theorem Quiet.disconnect (h : q.Quiet) (hr : ¬ q.reading.isSome) :
    ({ q with connected := false } : TQueue).Quiet := by
  obtain ⟨hb, _, hi⟩ := quiet_iff.mp h
  exact quiet_iff.mpr ⟨hb, fun hs => absurd hs hr, hi⟩

theorem Quiet.hold (h : q.Quiet) {b : Bool} (hc : ¬ (!b && !q.input.isEmpty) = true) :
    ({ q with holdInput := b } : TQueue).Quiet := by
  obtain ⟨hb, hr, hi⟩ := quiet_iff.mp h
  refine quiet_iff.mpr ⟨hb, hr, ?_⟩
  dsimp only
  cases b with
  | false =>
    have : q.input = [] := by simpa using hc
    simpa using this
  | true =>
    by_cases hh : (q.holdInput && q.reading.isNone) = true
    · rw [if_pos hh] at hi
      rw [Bool.true_and, if_pos (Bool.and_eq_true_iff.mp hh).2]
      exact hi
    · rw [if_neg hh] at hi
      split
      · exact .inr (by simp [hi])
      · exact hi

/-- The test of the option `disable-oob` finds every out-of-band line. -/
theorem hasOob_eq_true {l : List InputTask} : Tasks.hasOob l = true ↔ ∃ t ∈ l, t.isOob = true := by
  cases l with
  | nil => simp [Tasks.hasOob]
  | cons f l =>
    cases hf : f.isOob with
    | true => simp [Tasks.hasOob, hf]
    | false =>
      simp only [Tasks.hasOob, hf, Bool.or_false, Bool.not_eq_eq_eq_not, Bool.not_true,
        List.isEmpty_eq_false_iff, ne_eq,
        List.dropWhile_eq_nil_iff, List.mem_cons]
      simp [hf]

theorem Quiet.oob (h : q.Quiet) {b : Bool} (hc : ¬ (!b && Tasks.hasOob q.input) = true) :
    ({ q with disableOob := b } : TQueue).Quiet := by
  obtain ⟨hb, hr, hi⟩ := quiet_iff.mp h
  refine quiet_iff.mpr ⟨hb, hr, ?_⟩
  dsimp only
  split
  · cases b with
    | true => exact .inl rfl
    | false =>
      refine .inr fun t ht => ?_
      have hno : ¬ Tasks.hasOob q.input = true := by simpa using hc
      rw [hasOob_eq_true] at hno
      cases ho : t.isOob
      · rfl
      · exact absurd ⟨t, ht, ho⟩ hno
  · next hh =>
    rw [if_neg hh] at hi
    exact hi

/-- A quiet queue without lines that is connected may get a reader. -/
theorem Quiet.read (h : q.Quiet) (vm : Int) (hi : q.input = []) (ho : q.isOutOfInput = false) :
    ({ q with reading := some vm } : TQueue).Quiet := by
  refine quiet_iff.mpr ⟨h.firstBg, fun _ => ?_, ?_⟩
  · simpa [isOutOfInput, hi] using ho
  · simpa using hi

/-- The reader of a quiet queue may be killed. -/
theorem Quiet.unread (h : q.Quiet) : ({ q with reading := none } : TQueue).Quiet := by
  obtain ⟨hb, hr, hi⟩ := quiet_iff.mp h
  refine quiet_iff.mpr ⟨hb, fun hs => absurd hs (by simp), ?_⟩
  by_cases hh : (q.holdInput && q.reading.isNone) = true
  · rw [if_pos hh] at hi
    rw [show (q.holdInput && (none : Option Int).isNone) =
      true by simpa using (Bool.and_eq_true_iff.mp hh).1, if_pos rfl]
    exact hi
  · rw [if_neg hh] at hi
    dsimp only
    split
    · exact .inr (by simp [hi])
    · exact hi

/-- The count, the player and the lists of a queue do not matter. -/
theorem Quiet.account (h : q.Quiet) (n : Int) (player : Objid) :
    ({ q with numBgTasks := n, player := player } : TQueue).Quiet := ⟨h.firstBg, h.reading, h.input⟩

end TQueue

namespace Tasks

variable {w w' : Tasks} {tq : Nat} {f : TQueue → TQueue} {player : Objid}

/-- No idle queue has anything to do. -/
def Quiet (w : Tasks) : Prop := ∀ tq ∈ w.idle, (w.tqueues tq).Quiet

theorem Quiet.modify (hq : Quiet w) (hf : (w.tqueues tq).Quiet → (f (w.tqueues tq)).Quiet) :
    Quiet (w.modify tq f) := by
  intro j hj
  by_cases hjt : j = tq
  · subst hjt
    rw [modify_self]
    exact hf (hq j hj)
  · rw [modify_ne hjt]
    exact hq j hj

/-- A change of a queue that is not idle. -/
theorem Quiet.modify_active (hq : Quiet w) (hn : tq ∉ w.idle) : Quiet (w.modify tq f) := by
  intro j hj
  have hjt : j ≠ tq := fun he => hn (he ▸ hj)
  rw [modify_ne hjt]
  exact hq j hj

/-- After `ensure_usage` the queue itself may have something to do. -/
theorem Quiet.ensure (h : Wf w) (hl : w.Live tq) (hq : ∀ j ∈ w.idle, j ≠ tq → (w.tqueues j).Quiet) :
    Quiet (w.ensureUsage tq) := by
  have hu := ensureUsage_spec h hl
  intro j hj
  obtain ⟨hi, hne⟩ := hu.idle j hj
  exact (hq j hi hne).same (hu.tqueues j)

/-- An operation that changes a queue, and then calls `ensure_usage` when there may be something to
do. -/
theorem Quiet.modify_ensure (h : Wf w) (hl : w.Live tq) (hq : Quiet w)
    (hu : ∀ q, (f q).usage = q.usage) (c : Prop)
    [Decidable c] (hf : ¬ c → (w.tqueues tq).Quiet → (f (w.tqueues tq)).Quiet) :
    Quiet (if c then (w.modify tq f).ensureUsage tq else w.modify tq f) := by
  split
  · refine Quiet.ensure (h.modify hu) hl fun j hj hne => ?_
    rw [modify_ne hne]
    exact hq j hj
  · next hc => exact hq.modify (hf hc)

theorem Quiet.found (hq : Quiet w) (hf : Found w w' tq player) : Quiet w' := by
  intro j hj
  rcases hf.idle j hj with hi | he
  · rw [hf.tqueues j (List.mem_append_right _ hi)]
    exact hq j hi
  · rw [he]
    exact TQueue.create_quiet player

theorem Quiet.enqueueInputTask (h : Wf w) (hl : w.Live tq) (hq : Quiet w) (t : Nat) (input : Str)
    (atFront binary : Bool) :
    Quiet (w.enqueueInputTask tq t input atFront binary) := by
  unfold Tasks.enqueueInputTask
  dsimp only
  refine hq.modify_ensure h hl (fun _ => by rfl) _ fun hc hqt => ?_
  rw [modify_self] at hc
  exact hqt.enqueue t input atFront binary hc

theorem Quiet.freeTaskQueue (h : Wf w) (hl : w.Live tq) (hq : Quiet w) :
    Quiet (w.freeTaskQueue tq) := by
  unfold Tasks.freeTaskQueue
  dsimp only
  refine hq.modify_ensure h hl (fun _ => by rfl) _ fun hc hqt => ?_
  rw [modify_self] at hc
  exact hqt.disconnect hc

theorem Quiet.dequeueInputTask (hq : Quiet w) (tq : Nat) (how : DequeueHow) :
    Quiet (w.dequeueInputTask tq how).2 := by
  dsimp only [Tasks.dequeueInputTask]
  exact hq.modify fun hqt => hqt.erase _

theorem Quiet.readInputNow (hq : Quiet w) (connection : Objid) :
    Quiet (w.readInputNow connection).2 := by
  unfold Tasks.readInputNow
  split
  · exact hq
  · next tq _ =>
    have hd := hq.dequeueInputTask tq .DQ_INBAND
    split
    · exact hq
    · generalize w.dequeueInputTask tq .DQ_INBAND = d at hd ⊢
      obtain ⟨_ | _, w'⟩ := d <;> exact hd

theorem Quiet.makeReadingTask (h : Wf w) (hq : Quiet w) (vm : Int) (player : Objid) :
    Quiet (w.makeReadingTask vm player).2 := by
  unfold Tasks.makeReadingTask
  split
  · exact hq
  · next tq hl =>
    dsimp only
    split
    · exact hq
    · next hc =>
      obtain ⟨_, ho⟩ : (w.tqueues tq).reading.isSome = false ∧
          (w.tqueues tq).isOutOfInput = false := by simpa using hc
      dsimp only
      split
      · next hi => exact hq.modify fun hqt => hqt.read vm (by simpa using hi) ho
      · refine Quiet.ensure (h.modify fun _ => by rfl) (lookupTqueue_some hl).1 fun j hj hne => ?_
        rw [modify_ne hne]
        exact hq j hj

theorem Quiet.enqueueWaiting (h : Wf w) (hq : Quiet w) (t : BgTask) :
    Quiet (w.enqueueWaiting t) := by
  have hf := hq.found (findTqueue_spec h t.progr)
  have hm : Quiet ((w.findTqueue t.progr).2.modify (w.findTqueue t.progr).1 fun q =>
      { q with numBgTasks := q.numBgTasks + 1 }) := hf.modify fun hqt => hqt.account _ _
  exact hm

/-- A background task is put on a queue that has been woken. -/
theorem Quiet.ensure_enqueueBg (h : Wf w) (hl : w.Live tq) (hq : Quiet w) (t : BgTask) :
    Quiet ((w.ensureUsage tq).enqueueBgTask tq t) := by
  have hu := ensureUsage_spec h hl
  exact Quiet.modify_active (Quiet.ensure h hl fun j hj _ => hq j hj) fun hi =>
    (hu.idle tq hi).2 rfl

theorem Quiet.resumeTask (h : Wf w) (hq : Quiet w) (id : Int) (progr : Objid) (value : Var) :
    Quiet (w.resumeTask id progr value) := by
  have hf := findTqueue_spec h progr
  have hwf := hf.wf h
  refine Quiet.ensure (hwf.modify fun _ => by rfl) (findTqueue_live h progr) fun j hj hne => ?_
  rw [Tasks.enqueueBgTask, modify_ne hne]
  exact hq.found hf j hj

theorem Quiet.doResume (h : Wf w) (hq : Quiet w) (id : Int) (value : Var) (progr : Objid)
    (wizard : Bool) (now : Int) :
    Quiet (w.doResume id value progr wizard now).2 := by
  unfold Tasks.doResume
  split
  · next t _ =>
    split
    · exact hq
    · have hf := findTqueue_spec h t.progr
      have hw :=
        waiting_evolves (hf.wf h) ((w.findTqueue t.progr).2.waiting.eraseP (suspendedAs id))
      have hqf := hq.found hf
      have hqw : Quiet { (w.findTqueue t.progr).2 with
          waiting := (w.findTqueue t.progr).2.waiting.eraseP (suspendedAs id) } := hqf
      exact hqw.ensure_enqueueBg hw.wf (hw.live _ (findTqueue_live h t.progr)) _
  · split
    · exact hq
    · next tq hl =>
      have hactive : tq ∈ w.active := List.mem_of_find?_eq_some hl
      split
      · exact hq
      · exact hq.modify_active (h.not_idle hactive)

theorem Quiet.killTask (h : Wf w) (hq : Quiet w) (id : Int) (owner : Objid) (wizard : Bool) :
    Quiet (w.killTask id owner wizard).2 := by
  unfold Tasks.killTask
  split
  · exact hq
  · split
    · split
      · exact hq
      · dsimp only
        split
        · exact hq
        · have hm : Quiet (w.modify ‹Nat› fun q => { q with numBgTasks := q.numBgTasks - 1 }) :=
            hq.modify fun hqt => hqt.account _ _
          exact hm
    · split
      · exact hq
      · next tq hl =>
        split
        · exact hq
        · split
          · exact hq.modify fun hqt => hqt.unread
          · next hr =>
            -- only an active queue is searched for background tasks
            refine hq.modify_active fun hi => hr ?_
            rcases Option.or_eq_some_iff.mp hl with hl | ⟨_, hl⟩
            · simpa [Tasks.holding] using List.find?_some hl
            · exact absurd hi (h.not_idle (List.mem_of_find?_eq_some hl))

theorem Quiet.onLive (hq : Quiet w) {g : Tasks → Tasks} (hg : w.Live tq → Quiet (g w)) :
    Quiet (w.onLive tq g) := by
  unfold Tasks.onLive
  split
  · next hl => exact hg hl
  · exact hq

theorem Quiet.op (h : Wf w) (hq : Quiet w) (o : TaskOp) : Quiet (w.op o) := by
  cases o with
  | serverNewConnection handler =>
    have hwf : Wf { w with nextUnconnectedPlayer := w.nextUnconnectedPlayer - 1 } :=
      ⟨h.nodup, h.idle, h.active, h.fresh⟩
    have hqn : Quiet { w with nextUnconnectedPlayer := w.nextUnconnectedPlayer - 1 } :=
      fun j hj => hq j hj
    exact (hqn.found (findTqueue_spec hwf w.nextUnconnectedPlayer)).modify fun hqt =>
      hqt.connect handler
  | freeTaskQueue tq =>
    refine hq.onLive fun hl => ?_
    exact hq.freeTaskQueue h hl
  | enqueueInputTask tq t input atFront binary =>
    refine hq.onLive fun hl => ?_
    exact hq.enqueueInputTask h hl t input atFront binary
  | forceInput conn t input atFront =>
    have hf := findTqueue_spec h conn
    exact (hq.found hf).enqueueInputTask (hf.wf h) (findTqueue_live h conn) t input atFront false
  | flushInput tq =>
    refine hq.onLive fun _ => ?_
    exact hq.modify fun hqt => hqt.flush
  | flushInputOf conn =>
    exact (hq.found (findTqueue_spec h conn)).modify fun hqt => hqt.flush
  | setHoldInput tq b =>
    refine hq.onLive fun hl => ?_
    unfold Tasks.setHoldInput
    dsimp only
    refine hq.modify_ensure h hl (fun _ => by rfl) _ fun hc hqt => ?_
    rw [modify_self] at hc
    exact hqt.hold hc
  | setDisableOob tq b =>
    refine hq.onLive fun hl => ?_
    unfold Tasks.setDisableOob
    dsimp only
    refine hq.modify_ensure h hl (fun _ => by rfl) _ fun hc hqt => ?_
    rw [modify_self] at hc
    exact hqt.oob hc
  | readInputNow connection => exact hq.readInputNow connection
  | makeReadingTask vm player => exact hq.makeReadingTask h vm player
  | enqueueForkedTask2 id progr startTv property serverOption =>
    dsimp only [Tasks.op, enqueueForkedTask2]
    split
    · exact hq.enqueueWaiting h _
    · exact hq
  | enqueueSuspendedTask id progr startTv property serverOption =>
    dsimp only [Tasks.op, enqueueSuspendedTask]
    split
    · exact hq.enqueueWaiting h _
    · exact hq
  | resumeTask id progr value => exact hq.resumeTask h id progr value
  | doResume id value progr wizard now => exact hq.doResume h id value progr wizard now
  | killTask id owner wizard => exact hq.killTask h id owner wizard

theorem Quiet.ops (h : Wf w) (hq : Quiet w) (l : List TaskOp) : Quiet (w.ops l) := by
  induction l generalizing w with
  | nil => exact hq
  | cons o l ih => exact ih (op_evolves h o).wf (hq.op h o)

/-! ## One call of `run_ready_tasks` -/

theorem Quiet.wakeWaiting (h : Wf w) (hq : Quiet w) (now : Int) : Quiet (w.wakeWaiting now) := by
  have key : ∀ (l : List BgTask) (w : Tasks), Wf w → Quiet w → Quiet (w.enqueueReady l) := by
    intro l
    induction l with
    | nil => exact fun _ _ hq => hq
    | cons t l ih =>
      intro w h hq
      have hf := findTqueue_spec h t.progr
      have hlive := findTqueue_live h t.progr
      have hu := (ensureUsage_spec (hf.wf h) hlive).wf
      exact ih _ (enqueueBgTask_evolves hu _ _).wf
        ((hq.found hf).ensure_enqueueBg (hf.wf h) hlive t)
  exact key _ w h hq

/-- Taking the background tasks of an idle queue takes none. -/
theorem Quiet.dequeueBgTask (hq : Quiet w) (tq : Nat) : Quiet (w.dequeueBgTask tq).2 := by
  unfold Tasks.dequeueBgTask
  split
  · exact hq
  · next hb =>
    refine hq.modify_active fun hi => ?_
    rw [(hq tq hi).firstBg] at hb
    simp at hb

theorem Quiet.moveBgTasks {src dst : Nat} (hq : Quiet w) (hd : dst ∉ w.idle) (n : Nat) :
    Quiet (moveBgTasks src dst n w) := by
  induction n generalizing w with
  | zero => exact hq
  | succ n ih =>
    have hb := hq.dequeueBgTask src
    have hi : (w.dequeueBgTask src).2.idle = w.idle := (dequeueBgTask_taken w src).idle
    unfold Tasks.moveBgTasks
    generalize w.dequeueBgTask src = d at hb hi ⊢
    obtain ⟨_ | t, w'⟩ := d
    · exact hb
    · have hd' : dst ∉ w'.idle := by rw [hi]; exact hd
      exact ih (hb.modify_active hd') hd'

/-- A connection that has no ready background tasks, or whose count is 0, leaves none behind. -/
theorem Quiet.keepTasks (h : Wf w) (hl : w.Live tq) (hq : Quiet w)
    (hb : (w.tqueues tq).numBgTasks ≠ 0 → (w.tqueues tq).firstBg = [])
    (oldPlayer : Objid) : Quiet (w.keepTasks tq oldPlayer) := by
  unfold Tasks.keepTasks
  split
  · next hn =>
    have hf := findTqueue_spec h oldPlayer
    have hq₁ : Quiet ((w.findTqueue oldPlayer).2.modify (w.findTqueue oldPlayer).1 fun q =>
        { q with numBgTasks := ((w.findTqueue oldPlayer).2.tqueues tq).numBgTasks }) :=
      (hq.found hf).modify fun hqt => hqt.account _ _
    have hb₁ : (((w.findTqueue oldPlayer).2.modify (w.findTqueue oldPlayer).1 fun q =>
        { q with numBgTasks := ((w.findTqueue oldPlayer).2.tqueues tq).numBgTasks }).tqueues
          tq).firstBg = [] := by
      rw [modify_field (g := TQueue.firstBg) fun _ => by rfl, hf.tqueues tq hl]
      exact hb hn
    dsimp only
    rw [hb₁]
    exact hq₁.modify fun hqt => hqt.account _ _
  · exact hq

theorem Quiet.takeOver (hq : Quiet w) (hn : tq ∉ w.idle) (deadTq : Nat) :
    Quiet (w.takeOver tq deadTq) := by
  have hq₁ : Quiet (w.modify tq fun q => { q with numBgTasks := (w.tqueues deadTq).numBgTasks }) :=
    hq.modify_active hn
  have hq₂ :
      Quiet ((w.modify tq fun q => { q with numBgTasks := (w.tqueues deadTq).numBgTasks }).modify
        deadTq fun q =>
      { q with input := [] }) := hq₁.modify fun hqt => hqt.flush
  unfold Tasks.takeOver
  dsimp only [Tasks.flushInput]
  exact (hq₂.moveBgTasks hn _).modify fun hqt => hqt.account 0 NOTHING

theorem Quiet.login (h : Wf w) (hh : w.active.head? = some tq) (hq : Quiet w)
    (hb : (w.tqueues tq).numBgTasks ≠ 0 → (w.tqueues tq).firstBg = []) (newPlayer : Objid) :
    Quiet (w.login tq newPlayer) := by
  have ha : tq ∈ w.active := List.mem_of_head? hh
  have hm : Keeps w (w.modify tq fun q => { q with player := newPlayer }) :=
    modify_keeps h fun _ => by rfl
  have hqm : Quiet (w.modify tq fun q => { q with player := newPlayer }) :=
    hq.modify_active (h.not_idle ha)
  have hk :=
    hqm.keepTasks hm.wf (hm.live tq (List.mem_append_left _ ha)) (by rw [modify_self]; exact hb)
    (w.tqueues tq).player
  have he := keepTasks_evolves hm.wf tq (w.tqueues tq).player
  unfold Tasks.login
  dsimp only
  split
  · exact hk
  · next deadTq hd =>
    have ht := hk.takeOver (he.wf.not_idle (List.mem_of_head? (he.head tq (hm.head tq hh)))) deadTq
    have hkeeps := takeOver_keeps he.wf tq deadTq
    have hlive := hkeeps.live deadTq (he.live deadTq (hm.live deadTq (lookupTqueue_some hd).1))
    unfold playerConnected
    split
    · exact ht.freeTaskQueue hkeeps.wf hlive
    · exact ht

/-- Whether a line makes its connection log in. -/
def logsIn (w : Tasks) (tq : Nat) (t : InputTask) (s : Script) : Bool :=
  !t.isOob && (w.tqueues tq).reading.isNone && (w.tqueues tq).player < 0 &&
    ((w.runTask s.taskId s).loginUser tq s).isSome

/-- A connection that logs in has no ready background tasks of its own when `do_login_command`
returns, unless its count of them is 0 and `do_login_task` leaves them where they are. -/
def ClearLogin (w : Tasks) (tq : Nat) (work : Work) (s : Script) : Prop :=
  match work with
  | .input t =>
    w.logsIn tq t s → ((w.runTask s.taskId s).tqueues tq).numBgTasks ≠ 0 →
      ((w.runTask s.taskId s).tqueues tq).firstBg = []
  | _ => True

theorem Quiet.runTask (h : Wf w) (hq : Quiet w) (taskId : Int) (s : Script) :
    Quiet (w.runTask taskId s) := by
  have hwf : Wf { w with currentTaskId := taskId } := ⟨h.nodup, h.idle, h.active, h.fresh⟩
  exact Quiet.ops hwf (fun j hj => hq j hj) s.ops

theorem Quiet.runWork (h : Wf w) (hh : w.active.head? = some tq) (hq : Quiet w)
    {work : Work} {s : Script}
    (hc : w.ClearLogin tq work s) : Quiet (w.runWork tq work s) := by
  have hn : tq ∉ w.idle := h.not_idle (List.mem_of_head? hh)
  have hread : Keeps w (w.modify tq fun q => { q with reading := none }) :=
    modify_keeps h fun _ => by rfl
  have hqr : Quiet (w.modify tq fun q => { q with reading := none }) := hq.modify_active hn
  cases work with
  | endOfInput vm => exact hqr.runTask hread.wf vm s
  | bg t => exact hq.runTask h t.id s
  | input t =>
    unfold Tasks.runWork
    dsimp only
    split
    · exact hq.runTask h s.taskId s
    · next ho =>
      split
      · exact hqr.runTask hread.wf _ s
      · next hr =>
        split
        · exact hq.runTask h s.taskId s
        · next hp =>
          have ht := runTask_evolves h s.taskId s
          have hqt := hq.runTask h s.taskId s
          unfold doLoginTask
          dsimp only
          split
          · exact hqt
          · next newPlayer hu =>
            have hlog : w.logsIn tq t s = true := by simp [logsIn, ho, hr, hu, Int.not_le.mp hp]
            have hql := hqt.login ht.wf (ht.head tq hh) (hc hlog) newPlayer
            exact hql.ops (login_keeps ht.wf tq newPlayer).wf s.connect

/-- A queue from which no task is taken has nothing to do. -/
theorem takeTask_none {blank : Nat → Str → Bool} {n : Nat} (hn : (w.tqueues tq).input.length ≤ n)
    (hr : ¬ ((w.tqueues tq).reading.isSome ∧ (w.tqueues tq).isOutOfInput))
    (ht : (takeTask blank tq n w).1 = none) :
    ((takeTask blank tq n w).2.tqueues tq).Quiet := by
  have hbg : ∀ w : Tasks, (w.dequeueBgTask tq).1 = none → (w.tqueues tq).firstBg = [] ∧
      (w.dequeueBgTask tq).2 = w := by
    intro w hb
    unfold Tasks.dequeueBgTask at hb ⊢
    split at hb
    · next he => exact ⟨he, rfl⟩
    · simp at hb
  -- by induction on the lines that are left: each turn that goes on has dropped one
  induction n generalizing w with
  | zero =>
    have hi : (w.tqueues tq).input = [] := List.length_eq_zero_iff.mp (by omega)
    obtain ⟨hb, he⟩ := hbg w (by simpa [takeTask] using ht)
    have hw : (takeTask blank tq 0 w).2 = w := he
    rw [hw]
    exact ⟨hb, hr, by rw [hi]; rfl⟩
  | succ n ih =>
    unfold takeTask at ht ⊢
    have hfst : (w.dequeueInputTask tq (w.tqueues tq).how).1 =
        (dequeue (w.tqueues tq).disableOob (w.tqueues tq).how (w.tqueues tq).input).1 := rfl
    have hself : (w.dequeueInputTask tq (w.tqueues tq).how).2.tqueues tq =
        { w.tqueues tq with
          input :=
            (dequeue (w.tqueues tq).disableOob (w.tqueues tq).how (w.tqueues tq).input).2 } := by
      dsimp only [Tasks.dequeueInputTask]
      rw [modify_self]
    generalize w.dequeueInputTask tq (w.tqueues tq).how = d at ht hfst hself ⊢
    obtain ⟨_ | t, w'⟩ := d
    · -- no line is taken, and the queue is as it was
      rw [(dequeue_eq_none hfst.symm).2] at hself
      obtain ⟨hb, he⟩ := hbg w' (by simpa using ht)
      dsimp only at hself ⊢
      rw [he, hself]
      exact ⟨by rw [hself] at hb; exact hb, hr, hfst.symm⟩
    · -- a line is dropped, and nobody reads
      dsimp only at hfst hself ht ⊢
      split at ht
      · next hs =>
        rw [if_pos hs]
        have hnone : (w'.tqueues tq).reading.isNone = true := by
          simp only [skips, Bool.and_eq_true] at hs
          exact hs.1.1.2
        obtain ⟨m, u, r, hl, hl', _⟩ := dequeue_partition hfst.symm
        refine ih ?_ (fun hr' => ?_) ht
        · rw [hself]
          dsimp only
          rw [hl] at hn
          rw [hl']
          simp only [List.length_append, List.length_cons] at hn ⊢
          omega
        · rw [Option.isNone_iff_eq_none.mp hnone] at hr'
          simp at hr'
      · simp at ht

theorem Quiet.taken (hq : Quiet w) (h : Wf w) (ha : tq ∈ w.active) (ht : Taken w w' tq) :
    Quiet w' := by
  intro j hj
  rw [ht.idle] at hj
  have hjt : j ≠ tq := fun he => h.not_idle ha (he ▸ hj)
  rw [ht.ne j hjt]
  exact hq j hj

theorem Quiet.selectWork (h : Wf w) (hq : Quiet w) (blank : Nat → Str → Bool) (n : Nat) :
    Quiet (selectWork blank n w).2 := by
  induction n generalizing w with
  | zero => exact hq
  | succ n ih =>
    unfold Tasks.selectWork
    cases ha : w.active with
    | nil => exact hq
    | cons tq l =>
      have hh : w.active.head? = some tq := by rw [ha]; rfl
      have hactive : tq ∈ w.active := List.mem_of_head? hh
      have ht := takeTask_taken blank tq (w.tqueues tq).input.length w
      have hnone := @takeTask_none w tq blank _ (Nat.le_refl _)
      dsimp only
      split
      · exact hq
      · next hro =>
        have hr : ¬ ((w.tqueues tq).reading.isSome ∧ (w.tqueues tq).isOutOfInput) := by
          rintro ⟨hs, ho⟩
          obtain ⟨vm, hvm⟩ := Option.isSome_iff_exists.mp hs
          exact hro vm hvm ho
        have hnone := hnone hr
        have hqt := hq.taken h hactive ht
        generalize takeTask blank tq (w.tqueues tq).input.length w = d at ht hnone hqt ⊢
        obtain ⟨_ | work', w'⟩ := d
        · -- the queue becomes idle
          have hwf := ht.wf h
          have hh' : w'.active.head? = some tq := by rw [ht.active]; exact hh
          obtain ⟨hb, hnl⟩ := hwf.behead hh'
          have hlive : w'.Live tq := List.mem_append_left _ (List.mem_of_head? hh')
          refine ih (hb.deactivate hnl (hwf.fresh tq hlive)) fun j hj => ?_
          rcases List.mem_cons.mp hj with rfl | hj
          · rw [deactivate_self]
            exact (hnone rfl).same rfl
          · have hjt : j ≠ tq := fun he => hwf.not_idle (List.mem_of_head? hh') (he ▸ hj)
            rw [deactivate_ne hjt]
            exact hqt j hj
        · exact hqt

theorem Quiet.runSelected (h : Wf w) (hh : w.active.head? = some tq) (hq : Quiet w)
    {work : Work} {s : Script}
    (hc : w.ClearLogin tq work s) : Quiet (w.runSelected tq work s) := by
  have hk := runWork_keeps h tq work s
  have hn : tq ∉ (w.runWork tq work s).idle := hk.wf.not_idle (List.mem_of_head? (hk.head tq hh))
  have hqr := hq.runWork h hh hc
  intro j hj
  have hjt : j ≠ tq := fun he => hn (he ▸ hj)
  change (Function.update (w.runWork tq work s).tqueues tq _ j).Quiet
  rw [Function.update_of_ne hjt]
  exact hqr j hj

/-- The condition on a step of the server: a connection that logs in has no ready background
tasks. -/
def ClearStep (w : Tasks) : ServerOp → Prop
  | .op _ => True
  | .runReadyTasks now s =>
    let (selected, w) :=
  Tasks.selectWork s.blank (w.wakeWaiting now).active.length (w.wakeWaiting now)
    ∀ tq work, selected = some (tq, work) → w.ClearLogin tq work s

/-- The condition on the steps of a run. -/
def ClearRun (w : Tasks) : List ServerOp → Prop
  | [] => True
  | o :: l => w.ClearStep o ∧ (w.step o).ClearRun l

theorem Quiet.freeUnconnected (hq : Quiet w) : Quiet w.freeUnconnected :=
  fun j hj => hq j (List.mem_of_mem_filter hj)

theorem Quiet.step (h : Wf w) (hq : Quiet w) {o : ServerOp} (hc : w.ClearStep o) :
    Quiet (w.step o) := by
  cases o with
  | op o => exact hq.op h o
  | runReadyTasks now s =>
    have hw := wakeWaiting_evolves h now
    obtain ⟨hwf, hhead⟩ := selectWork_wf s.blank (w.wakeWaiting now).active.length hw.wf
    have hqs := (hq.wakeWaiting h now).selectWork hw.wf s.blank (w.wakeWaiting now).active.length
    unfold ClearStep at hc
    dsimp only at hc
    dsimp only [Tasks.step, runReadyTasks, runOneTask]
    refine Quiet.freeUnconnected ?_
    generalize Tasks.selectWork s.blank (w.wakeWaiting now).active.length (w.wakeWaiting now) =
      d at hc hwf hhead hqs ⊢
    obtain ⟨_ | ⟨tq, work⟩, w'⟩ := d
    · exact hqs
    · exact hqs.runSelected hwf (hhead tq work rfl) (hc tq work rfl)

theorem run_quiet_of (h : Wf w) (hq : Quiet w) {l : List ServerOp} (hc : w.ClearRun l) :
    Quiet (w.run l) := by
  induction l generalizing w with
  | nil => exact hq
  | cons o l ih => exact ih (step_wf h o) (hq.step h hc.1) hc.2

/-- No lost wakeup: in every state that a run from the empty state reaches, if no connection logs in
while it has ready background tasks of its own that are counted, no idle queue has anything to
do. -/
theorem run_quiet (l : List ServerOp) (hc : empty.ClearRun l) :
    ∀ tq ∈ (empty.run l).idle, ((empty.run l).tqueues tq).Quiet :=
  run_quiet_of empty_wf (fun _ h => absurd h List.not_mem_nil) hc

end Tasks

/-- A task that forks nothing and logs nobody in. -/
def Script.nothing : Script where
  blank := fun _ _ => false
  taskId := 1
  ops := []
  login := none
  connect := []
  elapsed := 0

/-- A connection types two lines; on the first, `do_login_command` forks a task with the permissions
of the connection, and on the second it returns a user. -/
def loginRun : List ServerOp :=
  [.op (.serverNewConnection 0), .op (.enqueueInputTask 0 100 [97] false false),
    .op (.enqueueInputTask 0 101 [98] false false),
    .runReadyTasks 0 { Script.nothing with ops := [.enqueueForkedTask2 7 (-2) 0 none (-1)] },
    .runReadyTasks 1 { Script.nothing with login := some 5 }]

namespace Tasks

/-- After the login the forked task is ready, and its queue is idle. -/
theorem login_lost_wakeup :
    (empty.run loginRun).idle = [1] ∧ ((empty.run loginRun).tqueues 1).firstBg.map BgTask.id = [7] ∧
      ¬ ∀ tq ∈ (empty.run loginRun).idle, ((empty.run loginRun).tqueues tq).Quiet := by
  have hi : (empty.run loginRun).idle = [1] := rfl
  have hb : ((empty.run loginRun).tqueues 1).firstBg.map BgTask.id = [7] := rfl
  refine ⟨hi, hb, fun hq => ?_⟩
  have := (hq 1 (by rw [hi]; simp)).firstBg
  rw [this] at hb
  simp at hb

/-- Another user has a task that waits, and a connection logs in without tasks of its own. -/
def quietRun : List ServerOp :=
  [.op (.enqueueForkedTask2 7 6 9 none (-1)), .op (.serverNewConnection 0),
    .op (.enqueueInputTask 1 100 [97] false false),
    .runReadyTasks 0 { Script.nothing with login := some 5 }]

theorem run_quiet_login : ((empty.run quietRun).tqueues 0).Quiet :=
  run_quiet quietRun ⟨trivial, trivial, trivial, fun tq work he => by
    obtain ⟨rfl, rfl⟩ : 1 = tq ∧ Work.input _ = work := by simpa using Option.some.inj he
    exact fun _ _ => rfl, trivial⟩ 0 (by decide)

end Tasks

end Task
end NuMoo
