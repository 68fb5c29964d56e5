import NuMoo.Task.Accounting
import NuMoo.Task.Server
import NuMoo.Task.Wakeup

/-!
# Connections and their queues

Every connection has a queue of its own that is marked as connected and carries the same
player, and no other queue is marked so. A login changes both in several steps: for a
while the queue carries the new player and the connection the old one, and two queues
carry the new player.

Results:
1. `login_paired`: a login retires the old connection and the old queue together.
2. `run_paired`: no run looks for a connection that there is not, connections and queues
   correspond, and a connection whose input is suspended has input to take.
-/

namespace NuMoo
namespace Task
namespace Tasks

variable {w w' w'' : Tasks} {tq j : Nat} {f : TQueue → TQueue} {player : Objid} {t : BgTask}
    {l : List BgTask}

/-- No queue is connected or changes hands, and a queue that is made is the only one of its
player. -/
structure Calm (w w' : Tasks) : Prop extends Evolves w w' where
  connected : ∀ j, w.Live j → (w'.tqueues j).connected = (w.tqueues j).connected
  new : ∀ j, w'.Live j → ¬ w.Live j → w.fresh ≤ j ∧ (w'.tqueues j).connected = false ∧
    ∀ i, w'.Live i → (w'.tqueues i).player = (w'.tqueues j).player → i = j
  fresh : w.fresh ≤ w'.fresh
  next : w'.nextUnconnectedPlayer = w.nextUnconnectedPlayer

/-- Nor is input taken. -/
structure Steady (w w' : Tasks) : Prop extends Calm w w' where
  input : ∀ j, w.Live j → (w'.tqueues j).input = (w.tqueues j).input

theorem Calm.refl (h : Wf w) : Calm w w :=
  ⟨.refl h, fun _ _ => rfl, fun _ hj hn => absurd hj hn, Nat.le_refl _, rfl⟩

theorem Calm.trans (h : Calm w w') (h' : Calm w' w'') : Calm w w'' := by
  refine ⟨h.toEvolves.trans h'.toEvolves, fun j hj =>
    (h'.connected j (h.live j hj)).trans (h.connected j hj),
    fun j hj hn => ?_, Nat.le_trans h.fresh h'.fresh, h'.next.trans h.next⟩
  by_cases hl : w'.Live j
  · -- the queue was made in the first part
    obtain ⟨hf, hc, hu⟩ := h.new j hl hn
    refine ⟨hf, (h'.connected j hl).trans hc, fun i hi he => ?_⟩
    by_cases hil : w'.Live i
    · rw [h'.player i hil, h'.player j hl] at he
      exact hu i hil he
    · exact ((h'.new i hi hil).2.2 j hj he.symm).symm
  · obtain ⟨hf, hc, hu⟩ := h'.new j hj hl
    exact ⟨Nat.le_trans h.fresh hf, hc, hu⟩

theorem Steady.refl (h : Wf w) : Steady w w := ⟨.refl h, fun _ _ => rfl⟩

theorem Steady.trans (h : Steady w w') (h' : Steady w' w'') : Steady w w'' :=
  ⟨h.toCalm.trans h'.toCalm, fun j hj => (h'.input j (h.live j hj)).trans (h.input j hj)⟩

theorem Found.steady (h : Wf w) (hf : Found w w' tq player) (hfresh : w.fresh ≤ w'.fresh)
    (hnew : ¬ w.Live tq → w.fresh ≤ tq)
    (hnext : w'.nextUnconnectedPlayer = w.nextUnconnectedPlayer) : Steady w w' := by
  refine ⟨⟨hf.evolves h, fun j hj => by rw [hf.tqueues j hj], fun j hj hn => ?_, hfresh, hnext⟩,
    fun j hj => by rw [hf.tqueues j hj]⟩
  obtain rfl : j = tq := ((hf.live j).mp hj).resolve_left hn
  obtain ⟨hnone, hq⟩ := hf.new hn
  refine ⟨hnew hn, by rw [hq]; rfl, fun i hi he => ?_⟩
  rcases (hf.live i).mp hi with hil | hij
  · rw [hf.tqueues i hil, hf.player] at he
    exact absurd he (lookupTqueue_none hnone hil)
  · exact hij

theorem findTqueue_steady (h : Wf w) (player : Objid) : Steady w (w.findTqueue player).2 := by
  refine (findTqueue_spec h player).steady h ?_ ?_ (findTqueue_next w player)
  · unfold findTqueue
    split
    · exact Nat.le_refl _
    · exact Nat.le_succ _
  · unfold findTqueue
    split
    · next tq hl => exact fun hn => absurd (lookupTqueue_some hl).1 hn
    · exact fun _ => Nat.le_refl _

theorem modify_calm (h : Wf w) (hu : ∀ q, (f q).usage = q.usage) (hp : ∀ q, (f q).player = q.player)
    (hc : ∀ q, (f q).connected = q.connected) : Calm w (w.modify tq f) :=
  ⟨modify_evolves h hu hp, fun j _ => modify_field (g := TQueue.connected) hc j,
    fun _ hj hn => absurd hj hn,
    Nat.le_refl _, rfl⟩

theorem modify_steady (h : Wf w) (hu : ∀ q, (f q).usage = q.usage)
    (hp : ∀ q, (f q).player = q.player)
    (hc : ∀ q, (f q).connected = q.connected) (hi : ∀ q, (f q).input = q.input) :
    Steady w (w.modify tq f) :=
  ⟨modify_calm h hu hp hc, fun j _ => modify_field (g := TQueue.input) hi j⟩

theorem ensureUsage_fresh (w : Tasks) (tq : Nat) : (w.ensureUsage tq).fresh = w.fresh := by
  unfold ensureUsage
  split <;> rfl

theorem ensureUsage_steady (h : Wf w) (hl : w.Live tq) : Steady w (w.ensureUsage tq) := by
  have hu := ensureUsage_spec h hl
  refine ⟨⟨hu.evolves, fun j _ => by rw [hu.tqueues j], fun j hj hn =>
    absurd ((hu.live j).mp hj) hn, ?_,
    ensureUsage_next w tq⟩, fun j _ => by rw [hu.tqueues j]⟩
  rw [ensureUsage_fresh]

theorem ensure_steady (h : Wf w) (hl : w.Live tq) (c : Prop) [Decidable c] :
    Steady w (if c then w.ensureUsage tq else w) := by
  split
  · exact ensureUsage_steady h hl
  · exact .refl h

theorem waiting_steady (h : Wf w) (l : List BgTask) : Steady w { w with waiting := l } :=
  ⟨⟨waiting_evolves h l, fun _ _ => rfl, fun _ hj hn => absurd hj hn, Nat.le_refl _, rfl⟩,
    fun _ _ => rfl⟩

theorem enqueueBgTask_steady (h : Wf w) (tq : Nat) (t : BgTask) : Steady w (w.enqueueBgTask tq t) :=
  modify_steady h (fun _ => by rfl) (fun _ => by rfl) (fun _ => by rfl) fun _ => by rfl

theorem dequeueBgTask_steady (h : Wf w) (tq : Nat) : Steady w (w.dequeueBgTask tq).2 := by
  unfold dequeueBgTask
  split
  · exact .refl h
  · dsimp only
    exact modify_steady h (fun _ => by rfl) (fun _ => by rfl) (fun _ => by rfl) fun _ => by rfl

/-- A task goes to the queue of its programmer. -/
theorem ready_steady (h : Wf w) (player : Objid) (t : BgTask) :
    Steady w (((w.findTqueue player).2.ensureUsage (w.findTqueue player).1).enqueueBgTask
      (w.findTqueue player).1 t) := by
  have hf := findTqueue_steady h player
  have hu := ensureUsage_steady hf.wf (findTqueue_live h player)
  exact (hf.trans hu).trans (enqueueBgTask_steady hu.wf _ t)

theorem enqueueWaiting_steady (h : Wf w) (t : BgTask) : Steady w (w.enqueueWaiting t) := by
  have hf := findTqueue_steady h t.progr
  have hm :
      Steady (w.findTqueue t.progr).2 ((w.findTqueue t.progr).2.modify
        (w.findTqueue t.progr).1 fun q =>
      { q with numBgTasks := q.numBgTasks + 1 }) :=
    modify_steady hf.wf (fun _ => rfl) (fun _ => rfl) (fun _ => rfl) fun _ => rfl
  exact (hf.trans hm).trans (waiting_steady hm.wf _)

theorem enqueueForkedTask2_steady (h : Wf w) (id : Int) (progr : Objid) (startTv : Int)
    (property : Option Int)
    (serverOption : Int) :
    Steady w (w.enqueueForkedTask2 id progr startTv property serverOption).2 := by
  unfold enqueueForkedTask2
  split
  · exact enqueueWaiting_steady h _
  · exact .refl h

theorem enqueueSuspendedTask_steady (h : Wf w) (id : Int) (progr : Objid) (startTv : Int)
    (property : Option Int)
    (serverOption : Int) :
    Steady w (w.enqueueSuspendedTask id progr startTv property serverOption).2 := by
  unfold enqueueSuspendedTask
  split
  · exact enqueueWaiting_steady h _
  · exact .refl h

theorem resumeTask_steady (h : Wf w) (id : Int) (progr : Objid) (value : Var) :
    Steady w (w.resumeTask id progr value) := by
  have hf := findTqueue_steady h progr
  have he := enqueueBgTask_steady hf.wf (w.findTqueue progr).1
    { kind := .TASK_SUSPENDED, id := id, progr := progr, startTv := 0, value := value }
  exact (hf.trans he).trans (ensureUsage_steady he.wf (he.live _ (findTqueue_live h progr)))

theorem doResume_steady (h : Wf w) (id : Int) (value : Var) (progr : Objid)
    (wizard : Bool) (now : Int) :
    Steady w (w.doResume id value progr wizard now).2 := by
  unfold doResume
  split
  · next t _ =>
    split
    · exact .refl h
    · dsimp only
      rw [ensureUsage_setWaiting]
      have hr := ready_steady h t.progr { t with startTv := now, value := value }
      exact hr.trans (waiting_steady hr.wf _)
  · split
    · exact .refl h
    · split
      · exact .refl h
      · dsimp only
        exact modify_steady h (fun _ => by rfl) (fun _ => by rfl) (fun _ => by rfl) fun _ => by rfl

theorem killTask_steady (h : Wf w) (id : Int) (owner : Objid) (wizard : Bool) :
    Steady w (w.killTask id owner wizard).2 := by
  have hm : ∀ (j : Nat) (f : TQueue → TQueue), (∀ q, (f q).usage = q.usage) →
      (∀ q, (f q).player = q.player) →
      (∀ q, (f q).connected = q.connected) → (∀ q, (f q).input = q.input) →
      Steady w (w.modify j f) :=
    fun j f hu hp hc hi => modify_steady h hu hp hc hi
  unfold killTask
  split
  · exact .refl h
  · split
    · split
      · exact .refl h
      · dsimp only
        split
        · exact waiting_steady h _
        · next j _ =>
          have hm := hm j (fun q => { q with numBgTasks := q.numBgTasks - 1 }) (fun _ => rfl)
            (fun _ => rfl) (fun _ => rfl)
            fun _ => rfl
          exact hm.trans (waiting_steady hm.wf _)
    · split
      · exact .refl h
      · split
        · exact .refl h
        · split
          · dsimp only
            exact hm _ _ (fun _ => by rfl) (fun _ => by rfl) (fun _ => by rfl) fun _ => by rfl
          · dsimp only
            exact hm _ _ (fun _ => by rfl) (fun _ => by rfl) (fun _ => by rfl) fun _ => by rfl

theorem makeReadingTask_steady (h : Wf w) (vm : Int) (player : Objid) :
    Steady w (w.makeReadingTask vm player).2 := by
  unfold makeReadingTask
  split
  · exact .refl h
  · next tq hl =>
    dsimp only
    split
    · exact .refl h
    · have hm : Steady w (w.modify tq fun q => { q with reading := some vm }) :=
        modify_steady h (fun _ => rfl) (fun _ => rfl) (fun _ => rfl) fun _ => rfl
      dsimp only
      split
      · exact hm
      · exact hm.trans (ensureUsage_steady hm.wf (hm.live _ (lookupTqueue_some hl).1))

theorem setHoldInput_steady (h : Wf w) (hl : w.Live tq) (b : Bool) :
    Steady w (w.setHoldInput tq b) := by
  have hm : Steady w (w.modify tq fun q => { q with holdInput := b }) :=
    modify_steady h (fun _ => rfl) (fun _ => rfl) (fun _ => rfl) fun _ => rfl
  exact hm.trans (ensure_steady hm.wf (hm.live _ hl) _)

theorem setDisableOob_steady (h : Wf w) (hl : w.Live tq) (b : Bool) :
    Steady w (w.setDisableOob tq b) := by
  have hm : Steady w (w.modify tq fun q => { q with disableOob := b }) :=
    modify_steady h (fun _ => rfl) (fun _ => rfl) (fun _ => rfl) fun _ => rfl
  exact hm.trans (ensure_steady hm.wf (hm.live _ hl) _)

theorem enqueueReady_steady (h : Wf w) (l : List BgTask) : Steady w (w.enqueueReady l) := by
  induction l generalizing w with
  | nil => exact .refl h
  | cons t l ih =>
    have hr := ready_steady h t.progr t
    exact hr.trans (ih hr.wf)

theorem wakeWaiting_steady (h : Wf w) (now : Int) : Steady w (w.wakeWaiting now) := by
  have he := enqueueReady_steady h (w.waiting.takeWhile fun t => t.startTv ≤ now)
  exact he.trans (waiting_steady he.wf _)

theorem moveBgTasks_steady {src dst : Nat} (h : Wf w) (n : Nat) :
    Steady w (moveBgTasks src dst n w) := by
  induction n generalizing w with
  | zero => exact .refl h
  | succ n ih =>
    have hd := dequeueBgTask_steady h src
    unfold moveBgTasks
    generalize w.dequeueBgTask src = d at hd ⊢
    obtain ⟨_ | t, w'⟩ := d
    · exact hd
    · have he := enqueueBgTask_steady hd.wf dst t
      exact (hd.trans he).trans (ih he.wf)

theorem keepTasks_steady (h : Wf w) (tq : Nat) (oldPlayer : Objid) :
    Steady w (w.keepTasks tq oldPlayer) := by
  unfold keepTasks
  split
  · have hf := findTqueue_steady h oldPlayer
    dsimp only
    have hm : Steady (w.findTqueue oldPlayer).2
        ((w.findTqueue oldPlayer).2.modify (w.findTqueue oldPlayer).1 fun q =>
        { q with numBgTasks := ((w.findTqueue oldPlayer).2.tqueues tq).numBgTasks }) :=
      modify_steady hf.wf (fun _ => by rfl) (fun _ => by rfl) (fun _ => by rfl) fun _ => by rfl
    have hb := fun n => @moveBgTasks_steady _ tq (w.findTqueue oldPlayer).1 hm.wf n
    exact ((hf.trans hm).trans (hb _)).trans
      (modify_steady (hb _).wf (fun _ => by rfl) (fun _ => by rfl)
        (fun _ => by rfl) fun _ => by rfl)
  · exact .refl h

theorem enqueueInputTask_calm (h : Wf w) (hl : w.Live tq) (t : Nat) (input : Str)
    (atFront binary : Bool) :
    Calm w (w.enqueueInputTask tq t input atFront binary) := by
  have hm :
      Calm w (w.modify tq fun q => { q with input := enqueue t input atFront binary q.input }) :=
    modify_calm h (fun _ => rfl) (fun _ => rfl) fun _ => rfl
  exact hm.trans (ensure_steady hm.wf (hm.live _ hl) _).toCalm

theorem enqueueInputTask_input (h : Wf w) (hl : w.Live tq) (t : Nat) (input : Str)
    (atFront binary : Bool) (j : Nat) :
    ((w.enqueueInputTask tq t input atFront binary).tqueues j).input =
      if j = tq then enqueue t input atFront binary (w.tqueues tq).input
        else (w.tqueues j).input := by
  have hm : Wf (w.modify tq fun q => { q with input := enqueue t input atFront binary q.input }) :=
    h.modify fun _ => by rfl
  have key : ((w.enqueueInputTask tq t input atFront binary).tqueues j).input =
      ((w.modify tq fun q => { q with input := enqueue t input atFront binary q.input }).tqueues
        j).input := by
    unfold enqueueInputTask
    dsimp only
    split
    · rw [(ensureUsage_spec hm hl).tqueues j]
    · rfl
  rw [key]
  by_cases hj : j = tq
  · rw [if_pos hj, hj, modify_self]
  · rw [if_neg hj, modify_ne hj]

theorem dequeueInputTask_calm (h : Wf w) (tq : Nat) (how : DequeueHow) :
    Calm w (w.dequeueInputTask tq how).2 := by
  dsimp only [dequeueInputTask]
  exact modify_calm h (fun _ => by rfl) (fun _ => by rfl) fun _ => by rfl

/-- What `free_task_queue` does. -/
structure Freed (w w' : Tasks) (tq : Nat) : Prop extends Evolves w w' where
  connected : ∀ j, (w'.tqueues j).connected = true ↔ (w.tqueues j).connected = true ∧ j ≠ tq
  input : ∀ j, (w'.tqueues j).input = (w.tqueues j).input
  old : ∀ j, w'.Live j → w.Live j
  same : ∀ j, (w'.tqueues j).player = (w.tqueues j).player
  fresh : w'.fresh = w.fresh
  next : w'.nextUnconnectedPlayer = w.nextUnconnectedPlayer

theorem freeTaskQueue_spec (h : Wf w) (hl : w.Live tq) : Freed w (w.freeTaskQueue tq) tq := by
  have he := freeTaskQueue_evolves h hl
  unfold freeTaskQueue at he ⊢
  dsimp only at he ⊢
  set w₁ := w.modify tq fun q => { q with connected := false } with hw₁
  have hc : ∀ j, (w₁.tqueues j).connected = true ↔ (w.tqueues j).connected = true ∧ j ≠ tq := by
    intro j
    by_cases hj : j = tq
    · rw [hj, hw₁, modify_self]
      simp
    · rw [hw₁, modify_ne hj]
      simp [hj]
  have hi : ∀ j, (w₁.tqueues j).input = (w.tqueues j).input :=
    modify_field (g := TQueue.input) fun _ => by rfl
  have hp : ∀ j, (w₁.tqueues j).player = (w.tqueues j).player :=
    modify_field (g := TQueue.player) fun _ => by rfl
  by_cases hr : (w₁.tqueues tq).reading.isSome = true
  · rw [if_pos hr] at he ⊢
    have hu := ensureUsage_spec (h.modify fun _ => by rfl : Wf w₁) hl
    refine ⟨he, fun j => ?_, fun j => ?_, fun j hj => (hu.live j).mp hj, fun j => ?_,
      ensureUsage_fresh w₁ tq,
      ensureUsage_next w₁ tq⟩
    · rw [hu.tqueues j]
      exact hc j
    · rw [hu.tqueues j]
      exact hi j
    · rw [hu.tqueues j]
      exact hp j
  · rw [if_neg hr] at he ⊢
    exact ⟨he, hc, hi, fun _ hj => hj, hp, rfl, rfl⟩

end Tasks

namespace Server

variable {s s' s'' : Server} {tq h : Nat} {player : Objid}

/-- Each connection has a queue of its own, which is connected and suspended as the network is
told. -/
structure Core (s : Server) : Prop where
  wf : Tasks.Wf s.tasks
  nodup : s.allShandles.Nodup
  bound : ∀ h ∈ s.allShandles, h < s.freshShandle
  live : ∀ h ∈ s.allShandles, s.tasks.Live (s.shandles h).tasks
  connected : ∀ h ∈ s.allShandles, (s.tasks.tqueues (s.shandles h).tasks).connected = true
  sync : ∀ h ∈ s.allShandles, (s.shandles h).inputSuspended = s.inputSuspended (s.shandles h).tasks
  owned : ∀ j, s.tasks.Live j → (s.tasks.tqueues j).connected = true →
    ∃ h ∈ s.allShandles, (s.shandles h).tasks = j
  unique : ∀ h ∈ s.allShandles, ∀ h' ∈ s.allShandles, (s.shandles h).tasks =
    (s.shandles h').tasks → h = h'
  fresh : ∀ j, s.tasks.fresh ≤ j → s.inputSuspended j = false
  flush : ∀ j c, s.flushCmd j = some c → c.headD 0 ≠ 0

/-- A connection whose input is suspended has input. -/
def Holds (s : Server) : Prop :=
  ∀ j, s.tasks.Live j → (s.tasks.tqueues j).connected = true → s.inputSuspended j = true →
    (s.tasks.tqueues j).input ≠ []

/-- Connections and queues carry the same players. A queue whose player is a connection to come is
not suspended. -/
structure Named (s : Server) : Prop where
  distinct : ∀ i j, s.tasks.Live i → s.tasks.Live j →
    (s.tasks.tqueues i).player = (s.tasks.tqueues j).player →
    (s.tasks.tqueues i).player ≠ NOTHING → i = j
  name : ∀ h ∈ s.allShandles, (s.tasks.tqueues (s.shandles h).tasks).player = (s.shandles h).player
  next : s.tasks.nextUnconnectedPlayer < NOTHING
  player : ∀ j, s.tasks.Live j → (s.tasks.tqueues j).connected = true →
    s.tasks.nextUnconnectedPlayer < (s.tasks.tqueues j).player ∧
    (s.tasks.tqueues j).player ≠ NOTHING
  early : ∀ j, s.tasks.Live j → (s.tasks.tqueues j).player ≤ s.tasks.nextUnconnectedPlayer →
    s.inputSuspended j = false

/-- Connections and queues correspond. -/
structure Paired (s : Server) : Prop extends Core s, Named s where
  holds : Holds s

/-- No connection is made or closed, and no queue or connection changes hands. -/
structure Same (s s' : Server) : Prop where
  calm : Tasks.Calm s.tasks s'.tasks
  all : s'.allShandles = s.allShandles
  shandle : ∀ h, (s'.shandles h).player = (s.shandles h).player ∧
    (s'.shandles h).tasks = (s.shandles h).tasks
  suspended : ∀ j, s'.inputSuspended j = true →
    s.inputSuspended j = true ∨ s.tasks.Live j ∧ (s.tasks.tqueues j).connected = true

theorem Same.refl (h : Tasks.Wf s.tasks) : Same s s :=
  ⟨.refl h, rfl, fun _ => ⟨rfl, rfl⟩, fun _ hj => .inl hj⟩

theorem Same.trans (h : Same s s') (h' : Same s' s'') : Same s s'' := by
  refine ⟨h.calm.trans h'.calm, h'.all.trans h.all,
    fun c => ⟨(h'.shandle c).1.trans (h.shandle c).1, (h'.shandle c).2.trans (h.shandle c).2⟩,
      fun j hj => ?_⟩
  rcases h'.suspended j hj with hj | ⟨hl, hc⟩
  · exact h.suspended j hj
  · by_cases hl₀ : s.tasks.Live j
    · rw [h.calm.connected j hl₀] at hc
      exact .inr ⟨hl₀, hc⟩
    · rw [(h.calm.new j hl hl₀).2.1] at hc
      simp at hc

theorem Core.calm (h : Core s) {w : Tasks} (hw : Tasks.Calm s.tasks w) :
    Core { s with tasks := w } := by
  refine ⟨hw.wf, h.nodup, h.bound, fun c hc => hw.live _ (h.live c hc), fun c hc => ?_, h.sync,
    fun j hl hj => ?_, h.unique,
    fun j hj => h.fresh j (Nat.le_trans hw.fresh hj), h.flush⟩
  · rw [← h.connected c hc]
    exact hw.connected _ (h.live c hc)
  · by_cases hl₀ : s.tasks.Live j
    · exact h.owned j hl₀ ((hw.connected j hl₀).symm.trans hj)
    · exact absurd ((hw.new j hl hl₀).2.1.symm.trans hj) (by simp)

theorem same_tasks {w : Tasks} (hw : Tasks.Calm s.tasks w) : Same s { s with tasks := w } :=
  ⟨hw, rfl, fun _ => ⟨rfl, rfl⟩, fun _ hj => .inl hj⟩

/-- A queue that is connected was so before. -/
theorem Same.wasConnected (hs : Same s s') {j : Nat} (hl : s'.tasks.Live j)
    (hc : (s'.tasks.tqueues j).connected = true) :
    s.tasks.Live j ∧ (s.tasks.tqueues j).connected = true := by
  by_cases hl₀ : s.tasks.Live j
  · exact ⟨hl₀, (hs.calm.connected j hl₀).symm.trans hc⟩
  · rw [(hs.calm.new j hl hl₀).2.1] at hc
    simp at hc

theorem Named.same (h : Named s) (hc : Core s) (hs : Same s s') : Named s' := by
  have hw := hs.calm
  refine ⟨fun i j hi hj he hn => ?_, fun c hcall => ?_, by rw [hw.next]; exact h.next,
    fun j hl hj => ?_, fun j hl hp => ?_⟩
  · by_cases hjl : s.tasks.Live j
    · by_cases hil : s.tasks.Live i
      · rw [hw.player i hil, hw.player j hjl] at he
        rw [hw.player i hil] at hn
        exact h.distinct i j hil hjl he hn
      · exact ((hw.new i hi hil).2.2 j hj he.symm).symm
    · exact (hw.new j hj hjl).2.2 i hi he
  · rw [hs.all] at hcall
    rw [(hs.shandle c).1, (hs.shandle c).2, hw.player _ (hc.live c hcall)]
    exact h.name c hcall
  · obtain ⟨hl₀, hc₀⟩ := hs.wasConnected hl hj
    rw [hw.next, hw.player j hl₀]
    exact h.player j hl₀ hc₀
  · rw [Bool.eq_false_iff]
    intro hsus
    by_cases hl₀ : s.tasks.Live j
    · rw [hw.next, hw.player j hl₀] at hp
      rcases hs.suspended j hsus with hsus | ⟨_, hcon⟩
      · rw [h.early j hl₀ hp] at hsus
        simp at hsus
      · exact absurd (h.player j hl₀ hcon).1 (Int.not_lt.mpr hp)
    · rcases hs.suspended j hsus with hsus | ⟨hl, _⟩
      · rw [hc.fresh j (hw.new j hl hl₀).1] at hsus
        simp at hsus
      · exact hl₀ hl

theorem Holds.steady (h : Holds s) {w : Tasks} (hw : Tasks.Steady s.tasks w) :
    Holds { s with tasks := w } := by
  intro j hl hc hsus
  obtain ⟨hl₀, hc₀⟩ := (same_tasks hw.toCalm).wasConnected hl hc
  have hi := h j hl₀ hc₀ hsus
  rw [← hw.input j hl₀] at hi
  exact hi

theorem Paired.steady (h : Paired s) {w : Tasks} (hw : Tasks.Steady s.tasks w) :
    Paired { s with tasks := w } :=
  ⟨h.toCore.calm hw.toCalm, h.toNamed.same h.toCore (same_tasks hw.toCalm), h.holds.steady hw⟩

/-- `find_shandle` finds the connection of a queue. -/
def Finds (s : Server) (tq : Nat) : Prop :=
  ∃ h ∈ s.allShandles, s.findShandle (s.tasks.tqueues tq).player = some h ∧
    (s.shandles h).tasks = tq

theorem Same.findShandle (hs : Same s s') (player : Objid) :
    s'.findShandle player = s.findShandle player := by
  unfold Server.findShandle
  rw [hs.all]
  congr 1
  funext c
  rw [(hs.shandle c).1]

theorem Same.finds (hs : Same s s') (hl : s.tasks.Live tq) (h : Finds s tq) : Finds s' tq := by
  obtain ⟨c, hc, hf, ht⟩ := h
  exact ⟨c, by rw [hs.all]; exact hc, by rw [hs.findShandle, hs.calm.player tq hl]; exact hf,
    by rw [(hs.shandle c).2]; exact ht⟩

theorem Paired.finds (h : Paired s) (hl : s.tasks.Live tq)
    (hc : (s.tasks.tqueues tq).connected = true) : Finds s tq := by
  obtain ⟨c, hcall, ht⟩ := h.owned tq hl hc
  have hsome : (s.findShandle (s.tasks.tqueues tq).player).isSome = true := by
    unfold Server.findShandle
    rw [List.find?_isSome]
    exact ⟨c, hcall, by simp [← h.name c hcall, ht]⟩
  obtain ⟨c', hf⟩ := Option.isSome_iff_exists.mp hsome
  have hc' : c' ∈ s.allShandles := List.mem_of_find?_eq_some hf
  have hp : (s.shandles c').player = (s.tasks.tqueues tq).player := by
    have := List.find?_some hf
    simpa using this
  rw [← h.name c' hc'] at hp
  exact ⟨c', hc', hf, h.distinct _ _ (h.live c' hc') hl hp (hp ▸ (h.player tq hl hc).2)⟩

/-! ## Flow control -/

/-- The network and the queue agree on whether input is suspended. -/
def mark (s : Server) (h tq : Nat) (b : Bool) : Server :=
  (s.modifyShandle h fun c => { c with inputSuspended := b }).setInputSuspended tq b

theorem mark_shandle (s : Server) (h tq : Nat) (b : Bool) (c : Nat) :
    ((s.mark h tq b).shandles c).player = (s.shandles c).player ∧
      ((s.mark h tq b).shandles c).tasks = (s.shandles c).tasks := by
  change (Function.update s.shandles h _ c).player = _ ∧
    (Function.update s.shandles h _ c).tasks = _
  by_cases hc : c = h
  · rw [hc, Function.update_self]
    exact ⟨rfl, rfl⟩
  · rw [Function.update_of_ne hc]
    exact ⟨rfl, rfl⟩

theorem Core.mark (hc : Core s) (hh : h ∈ s.allShandles) (ht : (s.shandles h).tasks = tq)
    (b : Bool) :
    Core (s.mark h tq b) := by
  have htasks : ∀ c, ((s.mark h tq b).shandles c).tasks = (s.shandles c).tasks :=
    fun c => (mark_shandle s h tq b c).2
  refine ⟨hc.wf, hc.nodup, hc.bound, fun c hcall => ?_, fun c hcall => ?_, fun c hcall => ?_,
    fun j hl hj => ?_,
    fun c hcall c' hcall' he => ?_, fun j hj => ?_, hc.flush⟩
  · rw [htasks]
    exact hc.live c hcall
  · rw [htasks]
    exact hc.connected c hcall
  · rw [htasks]
    change (Function.update s.shandles h _ c).inputSuspended =
      Function.update s.inputSuspended tq b (s.shandles c).tasks
    by_cases hch : c = h
    · rw [hch, Function.update_self, ht, Function.update_self]
    · have htne : (s.shandles c).tasks ≠ tq :=
        fun he => hch (hc.unique c hcall h hh (he.trans ht.symm))
      rw [Function.update_of_ne hch, Function.update_of_ne htne]
      exact hc.sync c hcall
  · obtain ⟨c, hcall, hct⟩ := hc.owned j hl hj
    exact ⟨c, hcall, by rw [htasks]; exact hct⟩
  · rw [htasks, htasks] at he
    exact hc.unique c hcall c' hcall' he
  · have hjt : j ≠ tq := by
      intro he
      have := hc.wf.fresh tq (ht ▸ hc.live h hh)
      exact Nat.not_lt.mpr (he ▸ hj) this
    change Function.update s.inputSuspended tq b j = false
    rw [Function.update_of_ne hjt]
    exact hc.fresh j hj

theorem Core.same_mark (hc : Core s) (hh : h ∈ s.allShandles)
    (ht : (s.shandles h).tasks = tq) (b : Bool) :
    Same s (s.mark h tq b) := by
  refine ⟨.refl hc.wf, rfl, mark_shandle s h tq b, fun j hj => ?_⟩
  by_cases hjt : j = tq
  · rw [hjt, ← ht]
    exact .inr ⟨hc.live h hh, hc.connected h hh⟩
  · change Function.update s.inputSuspended tq b j = true at hj
    rw [Function.update_of_ne hjt] at hj
    exact .inl hj

/-- What taking or adding a line of a queue does. -/
structure Fed (s s' : Server) (tq : Nat) : Prop where
  core : Core s'
  same : Same s s'
  flush : s'.flushCmd = s.flushCmd
  input : ∀ j, j ≠ tq → (s'.tasks.tqueues j).input = (s.tasks.tqueues j).input
  suspended : ∀ j, j ≠ tq → s'.inputSuspended j = s.inputSuspended j

theorem Fed.trans (h : Fed s s' tq) (h' : Fed s' s'' tq) : Fed s s'' tq :=
  ⟨h'.core, h.same.trans h'.same, h'.flush.trans h.flush, fun j hj =>
    (h'.input j hj).trans (h.input j hj),
    fun j hj => (h'.suspended j hj).trans (h.suspended j hj)⟩

/-- The queues that are not fed hold input as before. -/
theorem Fed.holds (h : Fed s s' tq) (hh : Holds s)
    (ht : (s.tasks.tqueues tq).connected = true → s'.inputSuspended tq = true →
      (s'.tasks.tqueues tq).input ≠ []) : Holds s' := by
  intro j hl hc hsus
  obtain ⟨hl₀, hc₀⟩ := h.same.wasConnected hl hc
  by_cases hj : j = tq
  · subst hj
    exact ht hc₀ hsus
  · rw [h.suspended j hj] at hsus
    rw [h.input j hj]
    exact hh j hl₀ hc₀ hsus

theorem fed_tasks (hc : Core s) {w : Tasks} (hw : Tasks.Calm s.tasks w)
    (hi : ∀ j, j ≠ tq → (w.tqueues j).input = (s.tasks.tqueues j).input) :
    Fed s { s with tasks := w } tq :=
  ⟨hc.calm hw, same_tasks hw, rfl, hi, fun _ _ => rfl⟩

theorem Core.fed_mark (hc : Core s) (hh : h ∈ s.allShandles)
    (ht : (s.shandles h).tasks = tq) (b : Bool) :
    Fed s (s.mark h tq b) tq :=
  ⟨hc.mark hh ht b, hc.same_mark hh ht b, rfl, fun _ _ => rfl,
    fun _ hj => Function.update_of_ne hj _ _⟩

theorem totalInputLength_nil {q : TQueue} (h : q.input = []) : q.totalInputLength = 0 := by
  unfold TQueue.totalInputLength
  rw [h]
  rfl

/-- What `dequeue_input_task` does: when it takes the last line of a suspended connection, it
resumes the input. -/
theorem dequeueInputTask_spec (hc : Core s) (hh : Holds s) (hl : s.tasks.Live tq)
    (hf : (s.tasks.tqueues tq).connected = true → Finds s tq) (how : DequeueHow) :
    ∃ s', s.dequeueInputTask tq how = some ((s.tasks.dequeueInputTask tq how).1, s') ∧
      Fed s s' tq ∧ Holds s' ∧
      s'.tasks = (s.tasks.dequeueInputTask tq how).2 := by
  have hw := Tasks.dequeueInputTask_calm hc.wf tq how
  have hinput : ∀ j, j ≠ tq → ((s.tasks.dequeueInputTask tq how).2.tqueues j).input =
      (s.tasks.tqueues j).input := fun j hj => by
    rw [(Tasks.dequeueInputTask_taken s.tasks tq how).ne j hj]
  have hnone : (s.tasks.dequeueInputTask tq how).1 = none →
      ((s.tasks.dequeueInputTask tq how).2.tqueues tq).input = (s.tasks.tqueues tq).input := by
    intro hn
    dsimp only [Tasks.dequeueInputTask] at hn ⊢
    rw [Tasks.modify_self]
    exact (dequeue_eq_none hn).2
  unfold dequeueInputTask
  generalize s.tasks.dequeueInputTask tq how = d at hw hinput hnone ⊢
  obtain ⟨t, w⟩ := d
  dsimp only at hw hinput hnone ⊢
  have hfed : Fed s { s with tasks := w } tq := fed_tasks hc hw hinput
  have hcon := hw.connected tq hl
  by_cases hcond : (t.isSome && s.inputSuspended tq && (w.tqueues tq).connected &&
      decide ((w.tqueues tq).totalInputLength < INPUT_LOWAT)) = true
  · rw [if_pos hcond]
    simp only [Bool.and_eq_true] at hcond
    obtain ⟨c, hcall, hfind, ht⟩ := hfed.same.finds hl (hf (hcon.symm.trans hcond.1.2))
    unfold serverResumeInput
    dsimp only at hfind
    rw [hfind]
    have hmark := hfed.core.fed_mark hcall ht false
    refine ⟨_, rfl, hfed.trans hmark, (hfed.trans hmark).holds hh fun _ hsus => ?_, rfl⟩
    change Function.update s.inputSuspended tq false tq = true at hsus
    rw [Function.update_self] at hsus
    simp at hsus
  · rw [if_neg hcond]
    refine ⟨_, rfl, hfed, hfed.holds hh fun hc₀ hsus => ?_, rfl⟩
    cases t with
    | none =>
      dsimp only
      rw [hnone rfl]
      exact hh tq hl hc₀ hsus
    | some t =>
      -- the queue still holds more than the low-water mark
      intro hnil
      have hz := totalInputLength_nil hnil
      dsimp only at hz hsus
      refine hcond ?_
      rw [hz, hcon, hc₀, hsus]
      rfl

/-- What `enqueue_input_task` does. -/
theorem enqueueInputTask_spec (hc : Core s) (hh : Holds s) (hl : s.tasks.Live tq)
    (hf : (s.tasks.tqueues tq).connected = true → Finds s tq) (t : Nat) (input : Str)
    (atFront binary : Bool) :
    ∃ s', s.enqueueInputTask tq t input atFront binary = some s' ∧ Fed s s' tq ∧ Holds s' ∧
      (s'.tasks.tqueues tq).input ≠ [] := by
  have hw := Tasks.enqueueInputTask_calm hc.wf hl t input atFront binary
  have hin := Tasks.enqueueInputTask_input hc.wf hl t input atFront binary
  unfold enqueueInputTask
  generalize s.tasks.enqueueInputTask tq t input atFront binary = w at hw hin ⊢
  have hfed : Fed s { s with tasks := w } tq := fed_tasks hc hw fun j hj => by rw [hin j, if_neg hj]
  have hne : (w.tqueues tq).input ≠ [] := by
    rw [hin tq, if_pos rfl]
    unfold enqueue
    split <;> simp
  dsimp only
  split
  · next hcond =>
    simp only [Bool.and_eq_true] at hcond
    obtain ⟨c, hcall, hfind, ht⟩ :=
      hfed.same.finds hl (hf ((hw.connected tq hl).symm.trans hcond.1.2))
    unfold serverSuspendInput
    dsimp only at hfind
    rw [hfind]
    have hmark := hfed.core.fed_mark hcall ht true
    exact ⟨_, rfl, hfed.trans hmark, (hfed.trans hmark).holds hh fun _ _ => hne, hne⟩
  · exact ⟨_, rfl, hfed, hfed.holds hh fun _ _ => hne, hne⟩

theorem taskSuspendInput_spec (hc : Core s) (hh : Holds s)
    (hf : (s.tasks.tqueues tq).connected = true → Finds s tq)
    (hi : (s.tasks.tqueues tq).input ≠ []) :
    ∃ s', s.taskSuspendInput tq = some s' ∧ Fed s s' tq ∧ Holds s' := by
  unfold taskSuspendInput
  dsimp only
  split
  · next hcond =>
    simp only [Bool.and_eq_true] at hcond
    obtain ⟨c, hcall, hfind, ht⟩ := hf hcond.2
    unfold serverSuspendInput
    rw [hfind]
    have hmark := hc.fed_mark hcall ht true
    exact ⟨_, rfl, hmark, hmark.holds hh fun _ _ => hi⟩
  · exact ⟨s, rfl, ⟨hc, .refl hc.wf, rfl, fun _ _ => rfl, fun _ _ => rfl⟩, hh⟩

theorem drain_spec (hc : Core s) (hh : Holds s) (hl : s.tasks.Live tq)
    (hf : (s.tasks.tqueues tq).connected = true → Finds s tq) {n : Nat}
    (hn : (s.tasks.tqueues tq).input.length ≤ n) :
    ∃ s', drain tq n s = some s' ∧ Fed s s' tq ∧ Holds s' ∧ (s'.tasks.tqueues tq).input = [] := by
  induction n generalizing s with
  | zero =>
    refine ⟨s, rfl, ⟨hc, .refl hc.wf, rfl, fun _ _ => rfl, fun _ _ => rfl⟩, hh, ?_⟩
    exact List.length_eq_zero_iff.mp (Nat.le_zero.mp hn)
  | succ n ih =>
    obtain ⟨s₁, hd, hfed, hh₁, htasks⟩ := dequeueInputTask_spec hc hh hl hf .DQ_FIRST
    have hw : ∀ d : Bool, ∀ t : InputTask, wanted d .DQ_FIRST t = true :=
      fun d t => by cases d <;> rfl
    have hin : (s₁.tasks.tqueues tq).input = (s.tasks.tqueues tq).input.tail := by
      rw [htasks]
      dsimp only [Tasks.dequeueInputTask]
      rw [Tasks.modify_self]
      dsimp only [dequeue]
      cases (s.tasks.tqueues tq).input with
      | nil => rfl
      | cons t l => rw [List.eraseP_cons_of_pos (hw _ t), List.tail_cons]
    have hnil : (s.tasks.dequeueInputTask tq .DQ_FIRST).1 = none →
        (s.tasks.tqueues tq).input = [] := by
      intro hnone
      cases hi : (s.tasks.tqueues tq).input with
      | nil => rfl
      | cons t l =>
        have := (dequeue_eq_none hnone).1 t (by rw [hi]; exact List.mem_cons_self)
        rw [hw] at this
        simp at this
    unfold drain
    rw [hd]
    cases hfst : (s.tasks.dequeueInputTask tq .DQ_FIRST).1 with
    | none => exact ⟨s₁, rfl, hfed, hh₁, by rw [hin, hnil hfst]; rfl⟩
    | some t =>
      have hl₁ := hfed.same.calm.live tq hl
      have hcon := hfed.same.calm.connected tq hl
      have hlen : (s₁.tasks.tqueues tq).input.length ≤ n := by
        rw [hin, List.length_tail]
        omega
      obtain ⟨s₂, hd₂, hfed₂, hh₂, hi₂⟩ :=
        ih hfed.core hh₁ hl₁ (fun hc₁ => hfed.same.finds hl (hf (hcon.symm.trans hc₁))) hlen
      exact ⟨s₂, hd₂, hfed.trans hfed₂, hh₂, hi₂⟩

theorem flushInput_spec (hc : Core s) (hh : Holds s) (hl : s.tasks.Live tq)
    (hf : (s.tasks.tqueues tq).connected = true → Finds s tq) :
    ∃ s', s.flushInput tq = some s' ∧ Fed s s' tq ∧ Holds s' ∧ (s'.tasks.tqueues tq).input = [] :=
  drain_spec hc hh hl hf (Nat.le_refl _)

theorem newInputTask_spec (hc : Core s) (hh : Holds s) (hl : s.tasks.Live tq)
    (hf : (s.tasks.tqueues tq).connected = true → Finds s tq) (t : Nat) (input : Str)
    (binary : Bool) :
    ∃ s', s.newInputTask tq t input binary = some s' ∧ Fed s s' tq ∧ Holds s' := by
  obtain ⟨s₁, hs₁, hfed₁, hh₁, _⟩ := flushInput_spec hc hh hl hf
  obtain ⟨s₂, hs₂, hfed₂, hh₂, _⟩ := enqueueInputTask_spec hc hh hl hf t input false binary
  unfold newInputTask
  split
  · split
    · exact ⟨s₁, hs₁, hfed₁, hh₁⟩
    · exact ⟨s₂, hs₂, hfed₂, hh₂⟩
  · exact ⟨s₂, hs₂, hfed₂, hh₂⟩

/-- A flush command is not empty, so that the empty line of a new connection is not one. -/
theorem newInputTask_nil (hc : Core s) (tq t : Nat) (binary : Bool) :
    s.newInputTask tq t [] binary = s.enqueueInputTask tq t [] false binary := by
  unfold newInputTask
  split
  · next c hcmd =>
    have hne : mystrcasecmp [] c ≠ 0 := by
      intro hz
      have hz := mystrcasecmp_eq_zero.mp hz
      have hhead := hc.flush tq c hcmd
      cases c with
      | nil => simp at hhead
      | cons a c =>
        simp only [List.headD_cons] at hhead
        rw [nameKey_cons, if_neg hhead] at hz
        simp [nameKey] at hz
    rw [if_neg hne]
  · rfl

/-- After a flush, a connection whose input was suspended is heard again. -/
theorem flushInput_resumes (h : Paired s) (hl : s.tasks.Live tq)
    (hc : (s.tasks.tqueues tq).connected = true) :
    ∃ s', s.flushInput tq = some s' ∧ s'.inputSuspended tq = false := by
  obtain ⟨s', hs', hfed, hh, hi⟩ := flushInput_spec h.toCore h.holds hl fun hc => h.finds hl hc
  refine ⟨s', hs', Bool.eq_false_iff.mpr fun hsus => ?_⟩
  exact hh tq (hfed.same.calm.live tq hl) ((hfed.same.calm.connected tq hl).trans hc) hsus hi

/-! ## Making and closing connections -/

/-- What MOO code does to queues and connections. -/
structure Goes (s s' : Server) : Prop where
  paired : Paired s'
  evolves : Tasks.Evolves s.tasks s'.tasks
  all : ∀ h ∈ s.allShandles, h ∈ s'.allShandles

theorem Goes.refl (h : Paired s) : Goes s s := ⟨h, .refl h.wf, fun _ hh => hh⟩

theorem Goes.trans (h : Goes s s') (h' : Goes s' s'') : Goes s s'' :=
  ⟨h'.paired, h.evolves.trans h'.evolves, fun c hc => h'.all c (h.all c hc)⟩

theorem Paired.goes_same (h : Paired s) (hs : Same s s') (hc : Core s') (hh : Holds s') :
    Goes s s' :=
  ⟨⟨hc, h.toNamed.same h.toCore hs, hh⟩, hs.calm.toEvolves, fun c hc => by rw [hs.all]; exact hc⟩

theorem Paired.goes_fed (h : Paired s) (hf : Fed s s' tq) (hh : Holds s') : Goes s s' :=
  h.goes_same hf.same hf.core hh

theorem Paired.goes_steady (h : Paired s) {w : Tasks} (hw : Tasks.Steady s.tasks w) :
    Goes s { s with tasks := w } :=
  ⟨h.steady hw, hw.toEvolves, fun _ hc => hc⟩

theorem modifyShandle_field {α : Type} {g : Shandle → α} {f : Shandle → Shandle}
    (hf : ∀ x, g (f x) = g x) (s : Server)
    (c i : Nat) : g ((s.modifyShandle c f).shandles i) = g (s.shandles i) := by
  change g (Function.update s.shandles c _ i) = _
  by_cases hi : i = c
  · rw [hi, Function.update_self, hf]
  · rw [Function.update_of_ne hi]

/-- A change of a connection that leaves its queue and its suspension. -/
theorem Core.modifyShandle (hc : Core s) (c : Nat) {f : Shandle → Shandle}
    (ht : ∀ x, (f x).tasks = x.tasks)
    (hs : ∀ x, (f x).inputSuspended = x.inputSuspended) : Core (s.modifyShandle c f) := by
  have ht' := modifyShandle_field (g := Shandle.tasks) ht s c
  have hs' := modifyShandle_field (g := Shandle.inputSuspended) hs s c
  refine ⟨hc.wf, hc.nodup, hc.bound, fun i hi => ?_, fun i hi => ?_, fun i hi => ?_,
    fun j hl hj => ?_, fun i hi i' hi' he => ?_,
    hc.fresh, hc.flush⟩
  · rw [ht']
    exact hc.live i hi
  · rw [ht']
    exact hc.connected i hi
  · rw [ht', hs']
    exact hc.sync i hi
  · obtain ⟨i, hi, hit⟩ := hc.owned j hl hj
    exact ⟨i, hi, by rw [ht']; exact hit⟩
  · rw [ht', ht'] at he
    exact hc.unique i hi i' hi' he

/-- Nor does it change its player. -/
theorem Paired.goes_modifyShandle (h : Paired s) (c : Nat) {f : Shandle → Shandle}
    (hp : ∀ x, (f x).player = x.player)
    (ht : ∀ x, (f x).tasks = x.tasks) (hs : ∀ x, (f x).inputSuspended = x.inputSuspended) :
    Goes s (s.modifyShandle c f) :=
  h.goes_same ⟨.refl h.wf, rfl, fun i => ⟨modifyShandle_field (g := Shandle.player) hp s c i,
    modifyShandle_field (g := Shandle.tasks) ht s c i⟩, fun _ hj =>
      .inl hj⟩ (h.toCore.modifyShandle c ht hs) h.holds

/-- What `free_shandle` does to connections and queues. -/
theorem Core.freeShandle (hc : Core s) (hh : h ∈ s.allShandles) : Core (s.freeShandle h) := by
  have hf := Tasks.freeTaskQueue_spec hc.wf (hc.live h hh)
  have hmem : ∀ c, c ∈ s.allShandles.erase h ↔ c ≠ h ∧ c ∈ s.allShandles :=
    fun c => hc.nodup.mem_erase_iff
  refine ⟨hf.wf, hc.nodup.erase h, fun c hcall => hc.bound c ((hmem c).mp hcall).2,
    fun c hcall => ?_, fun c hcall => ?_,
    fun c hcall => hc.sync c ((hmem c).mp hcall).2, fun j hl hj =>
      ?_, fun c hcall c' hcall' he => ?_,
    fun j hj => hc.fresh j (hf.fresh ▸ hj), hc.flush⟩
  · exact hf.live _ (hc.live c ((hmem c).mp hcall).2)
  · obtain ⟨hne, hin⟩ := (hmem c).mp hcall
    exact (hf.connected _).mpr ⟨hc.connected c hin, fun he => hne (hc.unique c hin h hh he)⟩
  · obtain ⟨hcon, hne⟩ := (hf.connected j).mp hj
    obtain ⟨c, hin, hct⟩ := hc.owned j (hf.old j hl) hcon
    exact ⟨c, (hmem c).mpr ⟨fun he => hne (he ▸ hct).symm, hin⟩, hct⟩
  · exact hc.unique c ((hmem c).mp hcall).2 c' ((hmem c').mp hcall').2 he

theorem Core.freeShandle_holds (hc : Core s) (hh : h ∈ s.allShandles) (hho : Holds s) :
    Holds (s.freeShandle h) := by
  have hf := Tasks.freeTaskQueue_spec hc.wf (hc.live h hh)
  intro j hl hcon hsus
  change ((s.tasks.freeTaskQueue (s.shandles h).tasks).tqueues j).input ≠ []
  rw [hf.input j]
  exact hho j (hf.old j hl) ((hf.connected j).mp hcon).1 hsus

theorem Paired.freeShandle (hp : Paired s) (hh : h ∈ s.allShandles) : Paired (s.freeShandle h) := by
  have hf := Tasks.freeTaskQueue_spec hp.wf (hp.live h hh)
  have hnext : (s.freeShandle h).tasks.nextUnconnectedPlayer < NOTHING := by
    change (s.tasks.freeTaskQueue (s.shandles h).tasks).nextUnconnectedPlayer < NOTHING
    rw [hf.next]
    exact hp.next
  refine ⟨hp.toCore.freeShandle hh, ⟨fun i j hi hj he hn => ?_, fun c hcall => ?_, hnext,
    fun j hl hcon => ?_,
    fun j hl hle => ?_⟩, hp.toCore.freeShandle_holds hh hp.holds⟩
  · change ((s.tasks.freeTaskQueue (s.shandles h).tasks).tqueues i).player =
      ((s.tasks.freeTaskQueue (s.shandles h).tasks).tqueues j).player at he
    change ((s.tasks.freeTaskQueue (s.shandles h).tasks).tqueues i).player ≠ NOTHING at hn
    rw [hf.same i, hf.same j] at he
    rw [hf.same i] at hn
    exact hp.distinct i j (hf.old i hi) (hf.old j hj) he hn
  · change ((s.tasks.freeTaskQueue (s.shandles h).tasks).tqueues (s.shandles c).tasks).player = _
    rw [hf.same]
    exact hp.name c (List.mem_of_mem_erase hcall)
  · change (s.tasks.freeTaskQueue (s.shandles h).tasks).nextUnconnectedPlayer <
        ((s.tasks.freeTaskQueue (s.shandles h).tasks).tqueues j).player ∧
      ((s.tasks.freeTaskQueue (s.shandles h).tasks).tqueues j).player ≠ NOTHING
    rw [hf.same j, hf.next]
    exact hp.player j (hf.old j hl) ((hf.connected j).mp hcon).1
  · change ((s.tasks.freeTaskQueue (s.shandles h).tasks).tqueues j).player ≤
      (s.tasks.freeTaskQueue (s.shandles h).tasks).nextUnconnectedPlayer at hle
    rw [hf.same j, hf.next] at hle
    exact hp.early j (hf.old j hl) hle

/-- What making a connection does to the queues. The queue that it gets may have been there, but not
connected. -/
structure Accepted (w w' : Tasks) (tq : Nat) : Prop extends Tasks.Evolves w w' where
  live_iff : ∀ j, w'.Live j ↔ w.Live j ∨ j = tq
  other : ∀ j, w.Live j → j ≠ tq → w'.tqueues j = w.tqueues j
  self : (w'.tqueues tq).player = w.nextUnconnectedPlayer ∧ (w'.tqueues tq).connected = true
  only : ∀ j, w.Live j → (w.tqueues j).player = w.nextUnconnectedPlayer →
    w.Live tq ∧ (w.tqueues tq).player = w.nextUnconnectedPlayer
  made : w.Live tq ∨ w.fresh ≤ tq
  fresh : w.fresh ≤ w'.fresh
  next : w'.nextUnconnectedPlayer = w.nextUnconnectedPlayer - 1

theorem findTqueue_setNext (w : Tasks) (n player : Objid) :
    Tasks.findTqueue { w with nextUnconnectedPlayer := n } player =
      ((w.findTqueue player).1, { (w.findTqueue player).2 with nextUnconnectedPlayer := n }) := by
  have hl : Tasks.lookupTqueue { w with nextUnconnectedPlayer := n } player =
    w.lookupTqueue player := rfl
  unfold Tasks.findTqueue
  rw [hl]
  cases w.lookupTqueue player <;> rfl

theorem serverNewConnection_accepted {w : Tasks} (h : Tasks.Wf w) (handler : Objid) :
    Accepted w (w.serverNewConnection handler) (w.findTqueue w.nextUnconnectedPlayer).1 := by
  have hev := Tasks.serverNewConnection_evolves h handler
  have hf := Tasks.findTqueue_spec h w.nextUnconnectedPlayer
  have hst := Tasks.findTqueue_steady h w.nextUnconnectedPlayer
  have heq : w.serverNewConnection handler =
      ({ (w.findTqueue w.nextUnconnectedPlayer).2 with
          nextUnconnectedPlayer := w.nextUnconnectedPlayer - 1 } : Tasks).modify
        (w.findTqueue w.nextUnconnectedPlayer).1 fun q =>
          { q with connected := true, handler := handler } := by
    unfold Tasks.serverNewConnection Tasks.newTaskQueue
    rw [findTqueue_setNext]
  rw [heq] at hev ⊢
  refine ⟨hev, hf.live, fun j hj hjt => ?_, ?_, fun j hj he => ?_, ?_, hst.fresh, rfl⟩
  · rw [Tasks.modify_ne hjt]
    exact hf.tqueues j hj
  · rw [Tasks.modify_self]
    exact ⟨hf.player, rfl⟩
  · by_cases hl : w.Live (w.findTqueue w.nextUnconnectedPlayer).1
    · exact ⟨hl, by rw [← hf.tqueues _ hl]; exact hf.player⟩
    · exact absurd he (Tasks.lookupTqueue_none (hf.new hl).1 hj)
  · by_cases hl : w.Live (w.findTqueue w.nextUnconnectedPlayer).1
    · exact .inl hl
    · exact .inr (hst.new _ ((hf.live _).mpr (.inr rfl)) hl).1

/-- A connection and its queue are linked before the first line of the connection is queued. -/
theorem Paired.accept (hp : Paired s) {c : Shandle} {w : Tasks} (hw : Accepted s.tasks w c.tasks)
    (hplayer : c.player = s.tasks.nextUnconnectedPlayer) (hsus : c.inputSuspended = false) :
    Goes s { s with
      tasks := w
      shandles := Function.update s.shandles s.freshShandle c
      allShandles := s.freshShandle :: s.allShandles
      freshShandle := s.freshShandle + 1 } := by
  obtain ⟨hplayer', hcon⟩ := hw.self
  have hlive := hw.live_iff
  have hnext := hw.next
  have hq := hw.other
  have hdist : ∀ j, s.tasks.Live j → j ≠ c.tasks → (s.tasks.tqueues j).player ≠
      s.tasks.nextUnconnectedPlayer := by
    intro j hj hjt he
    obtain ⟨hl, hpc⟩ := hw.only j hj he
    exact hjt (hp.distinct j c.tasks hj hl (he.trans hpc.symm) (he ▸ Int.ne_of_lt hp.next))
  -- the queue was not connected, and so it had no connection and was not suspended
  have hold : ∀ i ∈ s.allShandles, (s.shandles i).tasks ≠ c.tasks := by
    intro i hi he
    have hpl := hw.player _ (hp.live i hi)
    have hlt := (hp.player _ (hp.live i hi) (hp.connected i hi)).1
    rw [← hpl, he, hplayer'] at hlt
    exact Int.lt_irrefl _ hlt
  have hun : s.inputSuspended c.tasks = false := by
    rcases hw.made with hl | hf
    · refine hp.early c.tasks hl (Int.le_of_eq ?_)
      rw [← hw.player _ hl, hplayer']
    · exact hp.fresh c.tasks hf
  have hshandle : ∀ i ∈ s.allShandles, Function.update s.shandles s.freshShandle c i =
      s.shandles i := fun i hi =>
    Function.update_of_ne (fun he => Nat.lt_irrefl _ (he ▸ hp.bound i hi)) _ _
  have hfc : Function.update s.shandles s.freshShandle c s.freshShandle = c :=
    Function.update_self ..
  refine ⟨⟨⟨hw.wf, ?_, fun i hi => ?_, fun i hi => ?_, fun i hi => ?_, fun i hi => ?_,
    fun j hl hj => ?_, fun i hi i' hi' he => ?_,
    fun j hj => hp.fresh j (Nat.le_trans hw.fresh hj), hp.flush⟩,
      ⟨fun i j hi hj he hn => ?_, fun i hi => ?_, ?_, fun j hl hj => ?_,
    fun j hl hle => ?_⟩, fun j hl hj hs => ?_⟩, hw.toEvolves, fun i hi => List.mem_cons_of_mem _ hi⟩
  · exact List.nodup_cons.mpr ⟨fun hm => Nat.lt_irrefl _ (hp.bound _ hm), hp.nodup⟩
  · rcases List.mem_cons.mp hi with rfl | hi
    · exact Nat.lt_succ_self _
    · exact Nat.lt_succ_of_lt (hp.bound i hi)
  · dsimp only
    rcases List.mem_cons.mp hi with rfl | hi
    · rw [hfc]
      exact (hlive _).mpr (.inr rfl)
    · rw [hshandle i hi]
      exact (hlive _).mpr (.inl (hp.live i hi))
  · dsimp only
    rcases List.mem_cons.mp hi with rfl | hi
    · rw [hfc]
      exact hcon
    · rw [hshandle i hi, hq _ (hp.live i hi) (hold i hi)]
      exact hp.connected i hi
  · dsimp only
    rcases List.mem_cons.mp hi with rfl | hi
    · rw [hfc, hsus, hun]
    · rw [hshandle i hi]
      exact hp.sync i hi
  · dsimp only at hj ⊢
    by_cases hjt : j = c.tasks
    · exact ⟨s.freshShandle, List.mem_cons_self, by rw [hfc, hjt]⟩
    · have hl₀ := ((hlive j).mp hl).resolve_right hjt
      rw [hq j hl₀ hjt] at hj
      obtain ⟨i, hi, hit⟩ := hp.owned j hl₀ hj
      exact ⟨i, List.mem_cons_of_mem _ hi, by rw [hshandle i hi]; exact hit⟩
  · dsimp only at he
    rcases List.mem_cons.mp hi with rfl | hi <;> rcases List.mem_cons.mp hi' with rfl | hi'
    · rfl
    · rw [hfc, hshandle i' hi'] at he
      exact absurd he.symm (hold i' hi')
    · rw [hfc, hshandle i hi] at he
      exact absurd he (hold i hi)
    · rw [hshandle i hi, hshandle i' hi'] at he
      exact hp.unique i hi i' hi' he
  · dsimp only at he hn
    by_cases hit : i = c.tasks <;> by_cases hjt : j = c.tasks
    · rw [hit, hjt]
    · have hl₀ := ((hlive j).mp hj).resolve_right hjt
      rw [hit, hplayer', hq j hl₀ hjt] at he
      exact absurd he.symm (hdist j hl₀ hjt)
    · have hl₀ := ((hlive i).mp hi).resolve_right hit
      rw [hjt, hplayer', hq i hl₀ hit] at he
      exact absurd he (hdist i hl₀ hit)
    · have hi₀ := ((hlive i).mp hi).resolve_right hit
      have hj₀ := ((hlive j).mp hj).resolve_right hjt
      rw [hq i hi₀ hit, hq j hj₀ hjt] at he
      rw [hq i hi₀ hit] at hn
      exact hp.distinct i j hi₀ hj₀ he hn
  · dsimp only
    rcases List.mem_cons.mp hi with rfl | hi
    · rw [hfc, hplayer', hplayer]
    · rw [hshandle i hi, hq _ (hp.live i hi) (hold i hi)]
      exact hp.name i hi
  · dsimp only
    rw [hnext]
    exact Int.lt_trans (Int.sub_lt_self _ Int.one_pos) hp.next
  · dsimp only at hj ⊢
    rw [hnext]
    by_cases hjt : j = c.tasks
    · rw [hjt, hplayer']
      exact ⟨Int.sub_lt_self _ Int.one_pos, Int.ne_of_lt hp.next⟩
    · have hl₀ := ((hlive j).mp hl).resolve_right hjt
      rw [hq j hl₀ hjt] at hj ⊢
      obtain ⟨hlt, hno⟩ := hp.player j hl₀ hj
      exact ⟨Int.lt_trans (Int.sub_lt_self _ Int.one_pos) hlt, hno⟩
  · dsimp only at hle ⊢
    rw [hnext] at hle
    by_cases hjt : j = c.tasks
    · rw [hjt]
      exact hun
    · have hl₀ := ((hlive j).mp hl).resolve_right hjt
      rw [hq j hl₀ hjt] at hle
      exact hp.early j hl₀ (Int.le_trans hle (Int.le_of_lt (Int.sub_lt_self _ Int.one_pos)))
  · dsimp only at hj hs ⊢
    have hjt : j ≠ c.tasks := fun he => by
      rw [he, hun] at hs
      simp at hs
    have hl₀ := ((hlive j).mp hl).resolve_right hjt
    rw [hq j hl₀ hjt] at hj ⊢
    exact hp.holds j hl₀ hj hs

/-- `server_new_connection` never looks for a connection in vain. -/
theorem serverNewConnection_spec (hp : Paired s) (listener : Option Objid)
    (outbound : Bool) (t : Nat) :
    ∃ s', s.serverNewConnection listener outbound t = some s' ∧ Goes s s' := by
  have hw := serverNewConnection_accepted hp.wf (listener.getD 0)
  have hl := (hw.live_iff _).mpr (.inr rfl)
  unfold serverNewConnection
  dsimp only
  rw [findTqueue_setNext s.tasks]
  dsimp only
  generalize (s.tasks.findTqueue s.tasks.nextUnconnectedPlayer).1 = tq at hw hl
  have hg := hp.accept
    (c := ⟨s.tasks.nextUnconnectedPlayer, listener.getD 0, tq, false, false, outbound, false,
      false⟩) hw rfl rfl
  split
  · rw [newInputTask_nil hg.paired.toCore]
    obtain ⟨s₁, hs₁, hfed₁, hh₁, hi₁⟩ :=
      enqueueInputTask_spec hg.paired.toCore hg.paired.holds hl
        (fun hcon => hg.paired.finds hl hcon) t [] false false
    have hg₁ := hg.paired.goes_fed hfed₁ hh₁
    obtain ⟨s₂, hs₂, hfed₂, hh₂⟩ := taskSuspendInput_spec hg₁.paired.toCore hg₁.paired.holds
      (fun hcon => hg₁.paired.finds (hg₁.evolves.live _ hl) hcon) hi₁
    refine ⟨s₂, ?_, (hg.trans hg₁).trans (hg₁.paired.goes_fed hfed₂ hh₂)⟩
    rw [hs₁]
    exact hs₂
  · exact ⟨_, rfl, hg⟩

theorem readInputNow_spec (hp : Paired s) (connection : Objid) :
    ∃ s', s.readInputNow connection = some s' ∧ Goes s s' := by
  unfold readInputNow
  cases hlook : s.tasks.lookupTqueue connection with
  | none => exact ⟨s, rfl, .refl hp⟩
  | some tq =>
    have hl := (Tasks.lookupTqueue_some hlook).1
    dsimp only
    split
    · exact ⟨s, rfl, .refl hp⟩
    · obtain ⟨s', hs', hfed, hh, _⟩ :=
        dequeueInputTask_spec hp.toCore hp.holds hl (fun hc => hp.finds hl hc) .DQ_INBAND
      exact ⟨s', by rw [hs']; rfl, hp.goes_fed hfed hh⟩

/-- A flush command is not empty. -/
theorem flushCommand_ne {str : Option Str} {c : Str} (h : flushCommand str = some c) :
    c.headD 0 ≠ 0 := by
  cases str with
  | none => simp [flushCommand] at h
  | some x =>
    unfold flushCommand at h
    dsimp only at h
    split at h
    · next hne =>
      obtain rfl := Option.some.inj h
      exact hne
    · simp at h

theorem setConnectionOption_goes (hp : Paired s) (conn : Objid) (option : ConnectionOption) :
    Goes s (s.setConnectionOption conn option) := by
  unfold setConnectionOption
  split
  · exact .refl hp
  · next h hf =>
    have hl := hp.live h (List.mem_of_find?_eq_some hf)
    split
    · exact .refl hp
    · cases option with
      | holdInput b => exact hp.goes_steady (Tasks.setHoldInput_steady hp.wf hl b)
      | disableOob b => exact hp.goes_steady (Tasks.setDisableOob_steady hp.wf hl b)
      | flushCommand value =>
        refine hp.goes_same ⟨.refl hp.wf, rfl, fun _ => ⟨rfl, rfl⟩, fun _ hj => .inl hj⟩
          ⟨hp.wf, hp.nodup, hp.bound, hp.live, hp.connected, hp.sync, hp.owned, hp.unique, hp.fresh,
            fun j c hj => ?_⟩ hp.holds
        dsimp only at hj
        by_cases hjt : j = (s.shandles h).tasks
        · rw [hjt, Function.update_self] at hj
          exact flushCommand_ne hj
        · rw [Function.update_of_ne hjt] at hj
          exact hp.flush j c hj
      | binary b =>
        exact hp.goes_modifyShandle h (fun _ => by rfl) (fun _ => by rfl) fun _ => by rfl

theorem bootPlayer_goes (hp : Paired s) (player : Objid) : Goes s (s.bootPlayer player) := by
  unfold bootPlayer
  split
  · exact .refl hp
  · exact hp.goes_modifyShandle _ (fun _ => by rfl) (fun _ => by rfl) fun _ => by rfl

theorem op_spec (hp : Paired s) (o : MooOp) : ∃ s', s.op o = some s' ∧ Goes s s' := by
  cases o with
  | forceInput conn t input atFront =>
    have hg := hp.goes_steady (Tasks.findTqueue_steady hp.wf conn)
    have hl := Tasks.findTqueue_live hp.wf conn
    obtain ⟨s', hs', hfed, hh, _⟩ :=
      enqueueInputTask_spec hg.paired.toCore hg.paired.holds hl (fun hc => hg.paired.finds hl hc) t
        input atFront false
    exact ⟨s', hs', hg.trans (hg.paired.goes_fed hfed hh)⟩
  | flushInput conn =>
    have hg := hp.goes_steady (Tasks.findTqueue_steady hp.wf conn)
    have hl := Tasks.findTqueue_live hp.wf conn
    obtain ⟨s', hs', hfed, hh, _⟩ :=
      flushInput_spec hg.paired.toCore hg.paired.holds hl fun hc => hg.paired.finds hl hc
    exact ⟨s', hs', hg.trans (hg.paired.goes_fed hfed hh)⟩
  | readInputNow connection => exact readInputNow_spec hp connection
  | makeReadingTask vm player =>
    exact ⟨_, rfl, hp.goes_steady (Tasks.makeReadingTask_steady hp.wf vm player)⟩
  | setConnectionOption conn option => exact ⟨_, rfl, setConnectionOption_goes hp conn option⟩
  | enqueueForkedTask2 id progr startTv property serverOption =>
    exact ⟨_, rfl,
      hp.goes_steady (Tasks.enqueueForkedTask2_steady hp.wf id progr startTv property serverOption)⟩
  | enqueueSuspendedTask id progr startTv property serverOption =>
    exact ⟨_, rfl,
      hp.goes_steady (Tasks.enqueueSuspendedTask_steady hp.wf id progr startTv
        property serverOption)⟩
  | resumeTask id progr value =>
    exact ⟨_, rfl, hp.goes_steady (Tasks.resumeTask_steady hp.wf id progr value)⟩
  | doResume id value progr wizard now =>
    exact ⟨_, rfl, hp.goes_steady (Tasks.doResume_steady hp.wf id value progr wizard now)⟩
  | killTask id owner wizard =>
    exact ⟨_, rfl, hp.goes_steady (Tasks.killTask_steady hp.wf id owner wizard)⟩
  | bootPlayer player => exact ⟨_, rfl, bootPlayer_goes hp player⟩
  | openNetworkConnection listener t => exact serverNewConnection_spec hp listener true t
  | changeObjects valid =>
    exact ⟨{ s with valid := valid }, rfl, hp.goes_same ⟨.refl hp.wf, rfl, fun _ => ⟨rfl, rfl⟩,
      fun _ hj => .inl hj⟩
      ⟨hp.wf, hp.nodup, hp.bound, hp.live, hp.connected, hp.sync, hp.owned, hp.unique, hp.fresh,
        hp.flush⟩ hp.holds⟩

theorem ops_spec (hp : Paired s) (l : List MooOp) : ∃ s', s.ops l = some s' ∧ Goes s s' := by
  induction l generalizing s with
  | nil => exact ⟨s, rfl, .refl hp⟩
  | cons o l ih =>
    obtain ⟨s₁, hs₁, hg₁⟩ := op_spec hp o
    obtain ⟨s₂, hs₂, hg₂⟩ := ih hg₁.paired
    exact ⟨s₂, by rw [ops, hs₁]; exact hs₂, hg₁.trans hg₂⟩

/-- A task of the server runs. -/
theorem runTask_spec (hp : Paired s) (taskId : Int) (c : ServerScript) :
    ∃ s', s.runTask taskId c = some s' ∧ Goes s s' := by
  have hst : Tasks.Steady s.tasks { s.tasks with currentTaskId := taskId } :=
    ⟨⟨⟨⟨⟨hp.wf.nodup, hp.wf.idle, hp.wf.active, hp.wf.fresh⟩, fun _ hh => hh, fun _ hl => hl⟩,
      fun _ _ => rfl⟩, fun _ _ => rfl,
      fun _ hj hn => absurd hj hn, Nat.le_refl _, rfl⟩, fun _ _ => rfl⟩
  have hg := hp.goes_steady hst
  obtain ⟨s', hs', hg'⟩ := ops_spec hg.paired c.ops
  exact ⟨s', hs', hg.trans hg'⟩

/-- The listener of a connection is told that it is closed, and it is closed. -/
theorem ops_freeShandle (hp : Paired s) (hh : h ∈ s.allShandles) (l : List MooOp) :
    ∃ s', ((s.ops l).map fun s => s.freeShandle h) = some s' ∧ Paired s' ∧
      ∀ c ∈ s.allShandles, c ≠ h → c ∈ s'.allShandles := by
  obtain ⟨s₁, hs₁, hg₁⟩ := ops_spec hp l
  refine ⟨s₁.freeShandle h, by rw [hs₁]; rfl, hg₁.paired.freeShandle (hg₁.all h hh),
    fun c hc hne => ?_⟩
  exact (hg₁.paired.nodup.mem_erase_iff).mpr ⟨hne, hg₁.all c hc⟩

/-! ## A login -/

theorem modify_tasks (s : Server) (tq : Nat) (f : TQueue → TQueue) :
    (s.modify tq f).tasks = s.tasks.modify tq f := rfl

theorem Core.modify (hc : Core s) {f : TQueue → TQueue} (hu : ∀ q, (f q).usage = q.usage)
    (hcon : ∀ q, (f q).connected = q.connected) : Core (s.modify tq f) := by
  have hcon' : ∀ j, ((s.modify tq f).tasks.tqueues j).connected = (s.tasks.tqueues j).connected :=
    Tasks.modify_field (g := TQueue.connected) hcon
  refine ⟨hc.wf.modify hu, hc.nodup, hc.bound, hc.live, fun c hcall => ?_, hc.sync,
    fun j hl hj => ?_, hc.unique, hc.fresh,
    hc.flush⟩
  · rw [hcon']
    exact hc.connected c hcall
  · rw [hcon'] at hj
    exact hc.owned j hl hj

theorem Holds.modify (hh : Holds s) {f : TQueue → TQueue}
    (hcon : ∀ q, (f q).connected = q.connected)
    (hi : ∀ q, (f q).input = q.input) : Holds (s.modify tq f) := by
  intro j hl hj hsus
  have hcon' : ((s.modify tq f).tasks.tqueues j).connected = (s.tasks.tqueues j).connected :=
    Tasks.modify_field (g := TQueue.connected) hcon j
  have hi' : ((s.modify tq f).tasks.tqueues j).input = (s.tasks.tqueues j).input :=
    Tasks.modify_field (g := TQueue.input) hi j
  rw [hi']
  exact hh j hl (hcon' ▸ hj) hsus

/-- A connection logs in as `new`: its queue and then the connection change hands, and the queue
that the player had, if any, is given up with its connection. -/
structure LogsIn (s s' : Server) (tq : Nat) (new : Objid) : Prop where
  core : Core s'
  calm : ∃ w, Tasks.Calm (s.tasks.modify tq fun q => { q with player := new }) w ∧
    (∀ j, s'.tasks.Live j → w.Live j) ∧
    (∀ j, (s.tasks.tqueues j).player ≠ new ∨ ¬ s.tasks.Live j →
      (s'.tasks.tqueues j).player = (w.tqueues j).player) ∧
    ∀ j, (s'.tasks.tqueues j).connected = true → (w.tqueues j).connected = true
  dead : ∀ j, s.tasks.Live j → (s.tasks.tqueues j).player = new →
    (s'.tasks.tqueues j).player = NOTHING ∧ (s'.tasks.tqueues j).connected = false
  all : ∀ h ∈ s'.allShandles, h ∈ s.allShandles ∧ (s'.shandles h).tasks = (s.shandles h).tasks ∧
    (s'.shandles h).player = if (s.shandles h).tasks = tq then new else (s.shandles h).player
  next : s'.tasks.nextUnconnectedPlayer = s.tasks.nextUnconnectedPlayer
  suspended : ∀ j, s'.inputSuspended j = true →
    s.inputSuspended j = true ∨ s.tasks.Live j ∧ (s.tasks.tqueues j).connected = true

theorem LogsIn.named {new : Objid} (h : LogsIn s s' tq new) (hp : Paired s) (hnew : 0 ≤ new) :
    Named s' := by
  obtain ⟨w, hw, hlive, hplayer, hcon⟩ := h.calm
  have hlt : s.tasks.nextUnconnectedPlayer < new :=
    Int.lt_trans hp.next (Int.lt_of_lt_of_le (by decide : NOTHING < 0) hnew)
  -- the players before the old queue is given up
  have hpw : ∀ j, s.tasks.Live j → (w.tqueues j).player = if j = tq then new
    else (s.tasks.tqueues j).player := by
    intro j hj
    rw [hw.player j hj]
    by_cases hjt : j = tq
    · rw [if_pos hjt, hjt, Tasks.modify_self]
    · rw [if_neg hjt, Tasks.modify_ne hjt]
  have hnd : ∀ j, (s'.tasks.tqueues j).player ≠ NOTHING → (s.tasks.tqueues j).player ≠ new ∨
      ¬ s.tasks.Live j := by
    intro j hj
    by_cases hl : s.tasks.Live j
    · exact .inl fun he => hj (h.dead j hl he).1
    · exact .inr hl
  have hcd : ∀ j, (s'.tasks.tqueues j).connected = true → (s.tasks.tqueues j).player ≠ new ∨
      ¬ s.tasks.Live j := by
    intro j hj
    by_cases hl : s.tasks.Live j
    · refine .inl fun he => ?_
      rw [(h.dead j hl he).2] at hj
      simp at hj
    · exact .inr hl
  refine ⟨fun i j hi hj he hn => ?_, fun c hcall => ?_, by rw [h.next]; exact hp.next,
    fun j hl hj => ?_, fun j hl hle => ?_⟩
  · have hni := hnd i hn
    have hnj := hnd j (he ▸ hn)
    rw [hplayer i hni, hplayer j hnj] at he
    by_cases hjl : s.tasks.Live j
    · by_cases hil : s.tasks.Live i
      · rw [hpw i hil, hpw j hjl] at he
        have hni := hni.resolve_right (not_not.mpr hil)
        have hnj := hnj.resolve_right (not_not.mpr hjl)
        by_cases hit : i = tq <;> by_cases hjt : j = tq
        · rw [hit, hjt]
        · rw [if_pos hit, if_neg hjt] at he
          exact absurd he.symm hnj
        · rw [if_neg hit, if_pos hjt] at he
          exact absurd he hni
        · rw [if_neg hit, if_neg hjt] at he
          refine hp.distinct i j hil hjl he ?_
          rw [hplayer i (.inl hni), hpw i hil, if_neg hit] at hn
          exact hn
      · exact ((hw.new i (hlive i hi) hil).2.2 j (hlive j hj) he.symm).symm
    · exact (hw.new j (hlive j hj) hjl).2.2 i (hlive i hi) he
  · obtain ⟨hin, ht, hpl⟩ := h.all c hcall
    have hconn := h.core.connected c hcall
    rw [ht] at hconn ⊢
    rw [hplayer _ (hcd _ hconn), hpw _ (hp.live c hin), hpl]
    split
    · rfl
    · exact hp.name c hin
  · have hjw := hcon j hj
    have hjl : s.tasks.Live j := by
      by_contra hn
      rw [(hw.new j (hlive j hl) hn).2.1] at hjw
      simp at hjw
    have hjc : (s.tasks.tqueues j).connected = true := by
      rw [hw.connected j hjl, Tasks.modify_field (g := TQueue.connected) fun _ => by rfl] at hjw
      exact hjw
    rw [h.next, hplayer j (hcd j hj), hpw j hjl]
    split
    · exact ⟨hlt, Int.ne_of_gt (Int.lt_of_lt_of_le (by decide : NOTHING < 0) hnew)⟩
    · exact hp.player j hjl hjc
  · rw [Bool.eq_false_iff]
    intro hsus
    rw [h.next] at hle
    have hne : (s'.tasks.tqueues j).player ≠ NOTHING :=
      fun he => absurd hp.next (Int.not_lt.mpr (he ▸ hle))
    rw [hplayer j (hnd j hne)] at hle
    by_cases hjl : s.tasks.Live j
    · rw [hpw j hjl] at hle
      by_cases hjt : j = tq
      · rw [if_pos hjt] at hle
        exact absurd hlt (Int.not_lt.mpr hle)
      · rw [if_neg hjt] at hle
        rcases h.suspended j hsus with hsus | ⟨_, hcon⟩
        · rw [hp.early j hjl hle] at hsus
          simp at hsus
        · exact absurd (hp.player j hjl hcon).1 (Int.not_lt.mpr hle)
    · rcases h.suspended j hsus with hsus | ⟨hl', _⟩
      · rw [hp.fresh j (hw.new j (hlive j hl) hjl).1] at hsus
        simp at hsus
      · exact hjl hl'

/-- The state in which `player_connected` starts the first task, and that task and the others. -/
theorem playerConnected_spec {oldId newId : Objid} {newH : Nat} (c : ServerScript)
    (hold : s.findShandle oldId = some newH)
    (hnew : match s.findShandle newId with
      | none => Paired (s.modifyShandle newH fun c => { c with player := newId, loggedIn := true })
      | some h =>
        Paired
          ((s.modifyShandle newH fun c =>
            { c with player := newId, loggedIn := true }).freeShandle h))
    (hkeeps : ∀ h, s.findShandle newId = some h →
      Tasks.Keeps s.tasks (s.tasks.freeTaskQueue (s.shandles h).tasks)) :
    ∃ s', s.playerConnected oldId newId c = some s' ∧ Paired s' ∧ Tasks.Keeps s.tasks s'.tasks := by
  unfold playerConnected
  rw [hold]
  dsimp only
  cases hf : s.findShandle newId with
  | none =>
    rw [hf] at hnew
    obtain ⟨s', hs', hg⟩ := ops_spec hnew c.connect
    exact ⟨s', hs', hg.paired, hg.evolves.toKeeps⟩
  | some h =>
    rw [hf] at hnew
    dsimp only at hnew ⊢
    have hk : Tasks.Keeps s.tasks
        ((s.modifyShandle newH fun c => { c with player := newId, loggedIn := true }).freeShandle
          h).tasks := by
      have ht := modifyShandle_field (g := Shandle.tasks)
        (f := fun c => { c with player := newId, loggedIn := true })
        (fun _ => by rfl) s newH h
      change Tasks.Keeps s.tasks (s.tasks.freeTaskQueue _)
      rw [ht]
      exact hkeeps h hf
    split
    · obtain ⟨s', hs', hg⟩ := ops_spec hnew c.connect
      exact ⟨s', hs', hg.paired, hk.trans hg.evolves.toKeeps⟩
    · -- the connection seems closed while the old listener is told
      have hg₁ := hnew.goes_modifyShandle newH (f := fun c => { c with disconnectMe := true })
        (fun _ => by rfl)
        (fun _ => by rfl) fun _ => by rfl
      obtain ⟨s₂, hs₂, hg₂⟩ := ops_spec hg₁.paired c.redirected
      have hg₃ := hg₂.paired.goes_modifyShandle newH (f := fun c =>
        { c with disconnectMe := false }) (fun _ => by rfl)
        (fun _ => by rfl) fun _ => by rfl
      obtain ⟨s₄, hs₄, hg₄⟩ := ops_spec hg₃.paired c.connect
      refine ⟨s₄, ?_, hg₄.paired, hk.trans (((hg₁.trans hg₂).trans hg₃).trans hg₄).evolves.toKeeps⟩
      rw [hs₂]
      exact hs₄

theorem Finds.unique (hp : Paired s) {c : Nat} (hf : s.findShandle player = some c)
    (hn : player ≠ NOTHING)
    (hl : s.tasks.Live tq) (hq : (s.tasks.tqueues tq).player = player) :
    c ∈ s.allShandles ∧ (s.shandles c).tasks = tq := by
  have hc : c ∈ s.allShandles := List.mem_of_find?_eq_some hf
  have hpc : (s.shandles c).player = player := by
    have := List.find?_some hf
    simpa using this
  have hqc := (hp.name c hc).trans hpc
  exact ⟨hc, hp.distinct _ _ (hp.live c hc) hl (hqc.trans hq.symm) (hqc ▸ hn)⟩

/-- Flow control works while the queue that is given up and the new one carry the same player. -/
theorem takeOver_spec (tq : Nat) (hc : Core s) (hh : Holds s) {deadTq : Nat}
    (hl : s.tasks.Live deadTq)
    (hf : (s.tasks.tqueues deadTq).connected = true → Finds s deadTq) :
    ∃ s₁, Core s₁ ∧ Holds s₁ ∧ Same s s₁ ∧
      s.takeOver tq deadTq = some (s₁.modify deadTq fun q =>
        { q with player := NOTHING, numBgTasks := 0 }) := by
  have hst : Tasks.Steady s.tasks (s.tasks.modify tq fun q =>
    { q with numBgTasks := (s.tasks.tqueues deadTq).numBgTasks }) :=
    Tasks.modify_steady hc.wf (fun _ => by rfl) (fun _ => by rfl) (fun _ => by rfl) fun _ => by rfl
  have hsame := same_tasks (s := s) hst.toCalm
  have hcon := hst.connected deadTq hl
  obtain ⟨s₁, hs₁, hfed, hh₁, _⟩ :=
    flushInput_spec (hc.calm hst.toCalm) (hh.steady hst) (hst.live _ hl)
    fun hc₁ => hsame.finds hl (hf (hcon.symm.trans hc₁))
  have hmove :=
    @Tasks.moveBgTasks_steady _ deadTq tq hfed.core.wf (s₁.tasks.tqueues deadTq).firstBg.length
  refine ⟨_, hfed.core.calm hmove.toCalm, hh₁.steady hmove,
    (hsame.trans hfed.same).trans (same_tasks hmove.toCalm), ?_⟩
  unfold takeOver
  change ((Server.flushInput { s with tasks := s.tasks.modify tq _ } deadTq).map _) = _
  rw [hs₁]
  rfl

/-- A connection changes hands, as `player_connected` does it. -/
def rename (s : Server) (h : Nat) (new : Objid) : Server :=
  s.modifyShandle h fun c => { c with player := new, loggedIn := true }

/-- The queue `tq` has changed hands, and its connection `h` has not yet. -/
structure Pending (s s' : Server) (tq h : Nat) (new : Objid) : Prop where
  core : Core s'
  holds : Holds s'
  same : Same (s.modify tq fun q => { q with player := new }) s'
  handle : h ∈ s.allShandles
  tasks : (s.shandles h).tasks = tq

theorem Pending.suspended {new : Objid} (h₁ : Pending s s' tq h new) (j : Nat)
    (hj : s'.inputSuspended j = true) :
    s.inputSuspended j = true ∨ s.tasks.Live j ∧ (s.tasks.tqueues j).connected = true := by
  rcases h₁.same.suspended j hj with hj | ⟨hlj, hcj⟩
  · exact .inl hj
  · rw [modify_tasks, Tasks.modify_field (g := TQueue.connected) fun _ => by rfl] at hcj
    exact .inr ⟨hlj, hcj⟩

theorem Pending.live {new : Objid} (h₁ : Pending s s' tq h new) {j : Nat} (hj : s.tasks.Live j) :
    s'.tasks.Live j :=
  h₁.same.calm.live j hj

theorem Pending.connected {new : Objid} (h₁ : Pending s s' tq h new) {j : Nat}
    (hj : s.tasks.Live j) :
    (s'.tasks.tqueues j).connected = (s.tasks.tqueues j).connected := by
  rw [h₁.same.calm.connected j hj, modify_tasks,
    Tasks.modify_field (g := TQueue.connected) fun _ => by rfl]

theorem Pending.samePlayer {new : Objid} (h₁ : Pending s s' tq h new) {j : Nat}
    (hj : s.tasks.Live j) (hjt : j ≠ tq) :
    (s'.tasks.tqueues j).player = (s.tasks.tqueues j).player := by
  rw [h₁.same.calm.player j hj, modify_tasks, Tasks.modify_ne hjt]

theorem Pending.keeps {new : Objid} (h₁ : Pending s s' tq h new) (hwf : Tasks.Wf s.tasks) :
    Tasks.Keeps s.tasks s'.tasks := by
  have hk : Tasks.Keeps s.tasks (s.modify tq fun q => { q with player := new }).tasks := by
    rw [modify_tasks]
    exact Tasks.modify_keeps hwf fun _ => by rfl
  exact hk.trans h₁.same.calm.toKeeps

theorem Pending.findShandle {new : Objid} (h₁ : Pending s s' tq h new) (player : Objid) :
    s'.findShandle player = s.findShandle player := h₁.same.findShandle player

/-- The connections, once that of the queue has changed hands. -/
theorem Pending.rename {new : Objid} (h₁ : Pending s s' tq h new) (hc : Core s) (i : Nat)
    (hi : i ∈ s.allShandles) :
    ((s'.rename h new).shandles i).tasks = (s.shandles i).tasks ∧
      ((s'.rename h new).shandles i).player = if (s.shandles i).tasks = tq then new
        else (s.shandles i).player := by
  have hiff : (s.shandles i).tasks = tq ↔ i = h :=
    ⟨fun he => hc.unique i hi h h₁.handle (he.trans h₁.tasks.symm),
      fun he => by rw [he]; exact h₁.tasks⟩
  refine ⟨(modifyShandle_field (g := Shandle.tasks) (fun _ => by rfl) s' h i).trans
    (h₁.same.shandle i).2, ?_⟩
  change (Function.update s'.shandles h _ i).player = _
  by_cases hih : i = h
  · rw [if_pos (hiff.mpr hih), hih, Function.update_self]
  · rw [if_neg fun he => hih (hiff.mp he), Function.update_of_ne hih]
    exact (h₁.same.shandle i).1

theorem Pending.core_rename {new : Objid} (h₁ : Pending s s' tq h new) : Core (s'.rename h new) :=
  h₁.core.modifyShandle h (fun _ => by rfl) fun _ => by rfl

/-- The player has no queue yet, and so no connection. -/
theorem Pending.rename_paired {new : Objid} (h₁ : Pending s s' tq h new) (hp : Paired s)
    (hnew : 0 ≤ new)
    (hnone : s.tasks.lookupTqueue new = none) :
    s'.findShandle new = none ∧ Paired (s'.rename h new) := by
  have hlook : ∀ j, s.tasks.Live j → (s.tasks.tqueues j).player ≠ new :=
    fun j hj => Tasks.lookupTqueue_none hnone hj
  constructor
  · cases hf : s.findShandle new with
    | none => exact (h₁.findShandle new).trans hf
    | some i =>
      have hi : i ∈ s.allShandles := List.mem_of_find?_eq_some hf
      have hpi : (s.shandles i).player = new := by
        have := List.find?_some hf
        simpa using this
      exact absurd ((hp.name i hi).trans hpi) (hlook _ (hp.live i hi))
  · have hlog : LogsIn s (s'.rename h new) tq new :=
      ⟨h₁.core_rename, ⟨s'.tasks, h₁.same.calm, fun _ hj => hj, fun _ _ => rfl, fun _ hj => hj⟩,
        fun j hj he => absurd he (hlook j hj), fun i hi =>
          ⟨h₁.same.all ▸ hi, h₁.rename hp.toCore i (h₁.same.all ▸ hi)⟩,
        h₁.same.calm.next, fun j hj => h₁.suspended j hj⟩
    exact ⟨hlog.core, hlog.named hp hnew, h₁.holds⟩

/-- The queue of the player is given up. -/
def giveUp (s : Server) (deadTq : Nat) : Server :=
  s.modify deadTq fun q => { q with player := NOTHING, numBgTasks := 0 }

theorem giveUp_ne (s : Server) {deadTq j : Nat} (hj : j ≠ deadTq) :
    (s.giveUp deadTq).tasks.tqueues j = s.tasks.tqueues j := by
  rw [giveUp, modify_tasks, Tasks.modify_ne hj]

theorem giveUp_connected (s : Server) (deadTq j : Nat) :
    ((s.giveUp deadTq).tasks.tqueues j).connected = (s.tasks.tqueues j).connected := by
  rw [giveUp, modify_tasks, Tasks.modify_field (g := TQueue.connected) fun _ => by rfl]

theorem giveUp_self (s : Server) (deadTq : Nat) :
    ((s.giveUp deadTq).tasks.tqueues deadTq).player = NOTHING := by
  rw [giveUp, modify_tasks, Tasks.modify_self]

theorem Pending.core_giveUp {new : Objid} (h₁ : Pending s s' tq h new) (deadTq : Nat) :
    Core ((s'.giveUp deadTq).rename h new) := by
  have hc : Core (s'.giveUp deadTq) := h₁.core.modify (fun _ => by rfl) fun _ => by rfl
  exact hc.modifyShandle h (fun _ => by rfl) fun _ => by rfl

/-- The player had a queue but no connection. -/
theorem Pending.giveUp_paired {new : Objid} (h₁ : Pending s s' tq h new) (hp : Paired s)
    (hnew : 0 ≤ new) (hno : new ≠ NOTHING)
    {deadTq : Nat} (hdl : s.tasks.Live deadTq) (hdp : (s.tasks.tqueues deadTq).player = new)
    (hf : s.findShandle new = none) :
    Paired ((s'.giveUp deadTq).rename h new) := by
  have hcon : (s.tasks.tqueues deadTq).connected = false := by
    rw [Bool.eq_false_iff]
    intro hcon
    obtain ⟨i, _, hfi, _⟩ := hp.finds hdl hcon
    rw [hdp, hf] at hfi
    simp at hfi
  have hdead : ∀ j, s.tasks.Live j → (s.tasks.tqueues j).player = new → j = deadTq := fun j hj he =>
    hp.distinct j deadTq hj hdl (he.trans hdp.symm) (he ▸ hno)
  have hlog : LogsIn s ((s'.giveUp deadTq).rename h new) tq new := by
    refine ⟨h₁.core_giveUp deadTq, ⟨s'.tasks, h₁.same.calm, fun _ hj => hj, fun j hj => ?_,
      fun j hj => ?_⟩, fun j hj he => ?_,
      fun i hi => ⟨h₁.same.all ▸ hi, h₁.rename hp.toCore i (h₁.same.all ▸ hi)⟩, h₁.same.calm.next,
        fun j hj => h₁.suspended j hj⟩
    · have hjd : j ≠ deadTq := by
        rintro rfl
        exact hj.elim (fun hj => hj hdp) fun hj => hj hdl
      rw [← giveUp_ne s' hjd]
      rfl
    · exact (giveUp_connected s' deadTq j).symm.trans hj
    · rw [hdead j hj he]
      exact ⟨giveUp_self s' deadTq, (giveUp_connected s' deadTq deadTq).trans
        ((h₁.connected hdl).trans hcon)⟩
  exact ⟨hlog.core, hlog.named hp hnew, h₁.holds.modify (fun _ => by rfl) fun _ => by rfl⟩

/-- The player had a queue and a connection, which is closed. -/
theorem Pending.freeShandle_paired {new : Objid} (h₁ : Pending s s' tq h new) (hp : Paired s)
    (hnew : 0 ≤ new)
    (hno : new ≠ NOTHING) {deadTq i : Nat} (hdl : s.tasks.Live deadTq)
    (hdp : (s.tasks.tqueues deadTq).player = new)
    (hi : i ∈ s.allShandles) (hti : (s.shandles i).tasks = deadTq) :
    Paired (((s'.giveUp deadTq).rename h new).freeShandle i) := by
  have hc := h₁.core_giveUp deadTq
  have hi' : i ∈ ((s'.giveUp deadTq).rename h new).allShandles := h₁.same.all ▸ hi
  have hti' : (((s'.giveUp deadTq).rename h new).shandles i).tasks = deadTq :=
    (h₁.rename hp.toCore i hi).1.trans hti
  have hdl' : (s'.giveUp deadTq).tasks.Live deadTq := h₁.live hdl
  have hfree := Tasks.freeTaskQueue_spec hc.wf hdl'
  have htasks : (((s'.giveUp deadTq).rename h new).freeShandle i).tasks =
      ((s'.giveUp deadTq).rename h new).tasks.freeTaskQueue deadTq := by
    rw [← hti']
    rfl
  have hdead : ∀ j, s.tasks.Live j → (s.tasks.tqueues j).player = new → j = deadTq := fun j hj he =>
    hp.distinct j deadTq hj hdl (he.trans hdp.symm) (he ▸ hno)
  have hlog : LogsIn s (((s'.giveUp deadTq).rename h new).freeShandle i) tq new := by
    refine ⟨hc.freeShandle hi', ⟨s'.tasks, h₁.same.calm, fun j hj => ?_, fun j hj => ?_,
      fun j hj => ?_⟩, fun j hj he => ?_,
      fun i' hi' => ?_, ?_, fun j hj => h₁.suspended j hj⟩
    · rw [htasks] at hj
      exact hfree.old j hj
    · have hjd : j ≠ deadTq := by
        rintro rfl
        exact hj.elim (fun hj => hj hdp) fun hj => hj hdl
      rw [htasks, hfree.same j, ← giveUp_ne s' hjd]
      rfl
    · rw [htasks] at hj
      exact (giveUp_connected s' deadTq j).symm.trans ((hfree.connected j).mp hj).1
    · rw [htasks, hfree.same j, hdead j hj he]
      refine ⟨giveUp_self s' deadTq, Bool.eq_false_iff.mpr fun hcon => ?_⟩
      exact ((hfree.connected deadTq).mp hcon).2 rfl
    · have hin : i' ∈ s.allShandles := h₁.same.all ▸ List.mem_of_mem_erase hi'
      exact ⟨hin, h₁.rename hp.toCore i' hin⟩
    · rw [htasks, hfree.next]
      exact h₁.same.calm.next
  have hh : Holds (s'.giveUp deadTq) := h₁.holds.modify (fun _ => by rfl) fun _ => by rfl
  exact ⟨hlog.core, hlog.named hp hnew, hc.freeShandle_holds hi' hh⟩

/-- A login retires the old connection and the old queue of the player together. -/
theorem login_paired (hp : Paired s) (hh : s.tasks.active.head? = some tq)
    (hc : (s.tasks.tqueues tq).connected = true)
    (hneg : (s.tasks.tqueues tq).player < 0) (newPlayer : Nat) (c : ServerScript) :
    ∃ s', s.login tq newPlayer c = some s' ∧ Paired s' ∧ Tasks.Keeps s.tasks s'.tasks := by
  have hl : s.tasks.Live tq := List.mem_append_left _ (List.mem_of_head? hh)
  have hnew : (0 : Int) ≤ (newPlayer : Objid) := Int.natCast_nonneg newPlayer
  have hno : (newPlayer : Objid) ≠ NOTHING :=
    Int.ne_of_gt (Int.lt_of_lt_of_le (by decide : NOTHING < 0) hnew)
  have hne : (s.tasks.tqueues tq).player ≠ newPlayer := Int.ne_of_lt (Int.lt_of_lt_of_le hneg hnew)
  obtain ⟨h₀, hin₀, hf₀, ht₀⟩ := hp.finds hl hc
  -- the queue changes hands, and its tasks stay with the connection
  have hc₁ : Core (s.modify tq fun q => { q with player := newPlayer }) :=
    hp.toCore.modify (fun _ => by rfl) fun _ => by rfl
  have hh₁ : Holds (s.modify tq fun q => { q with player := newPlayer }) :=
    hp.holds.modify (fun _ => by rfl) fun _ => by rfl
  have hkeep := Tasks.keepTasks_steady hc₁.wf tq (s.tasks.tqueues tq).player
  have h₂ : Pending s { s with
      tasks := (s.tasks.modify tq fun q => { q with player := newPlayer }).keepTasks tq
        (s.tasks.tqueues tq).player } tq h₀ newPlayer :=
    ⟨hc₁.calm hkeep.toCalm, hh₁.steady hkeep, same_tasks hkeep.toCalm, hin₀, ht₀⟩
  unfold login
  dsimp only at h₂ ⊢
  generalize ({ s with
      tasks := (s.tasks.modify tq fun q => { q with player := newPlayer }).keepTasks tq
        (s.tasks.tqueues tq).player } : Server) = s₂ at h₂ ⊢
  cases hd : s.tasks.lookupTqueue newPlayer with
  | none =>
    obtain ⟨hnone, hpaired⟩ := h₂.rename_paired hp hnew hd
    obtain ⟨s', hs', hp', hk'⟩ :=
      playerConnected_spec c ((h₂.findShandle _).trans hf₀) (by rw [hnone]; exact hpaired)
      fun h hf => absurd hf (by rw [hnone]; simp)
    exact ⟨s', hs', hp', (h₂.keeps hp.wf).trans hk'⟩
  | some deadTq =>
    obtain ⟨hdl, hdp⟩ := Tasks.lookupTqueue_some hd
    have hdt : deadTq ≠ tq := fun he => hne (he ▸ hdp)
    have hfinds : (s₂.tasks.tqueues deadTq).connected = true → Finds s₂ deadTq := by
      intro hcon
      obtain ⟨i, hi, hf, ht⟩ := hp.finds hdl ((h₂.connected hdl) ▸ hcon)
      refine ⟨i, h₂.same.all ▸ hi, ?_, (h₂.same.shandle i).2.trans ht⟩
      rw [h₂.samePlayer hdl hdt, h₂.findShandle]
      exact hf
    obtain ⟨s₃, hc₃, hh₃, hsame₃, htake⟩ := takeOver_spec tq h₂.core h₂.holds (h₂.live hdl) hfinds
    have h₃ : Pending s s₃ tq h₀ newPlayer := ⟨hc₃, hh₃, h₂.same.trans hsame₃, hin₀, ht₀⟩
    have hfind : ∀ p, (s₃.giveUp deadTq).findShandle p = s.findShandle p := h₃.findShandle
    have hk₄ : Tasks.Keeps s.tasks (s₃.giveUp deadTq).tasks := by
      rw [giveUp, modify_tasks]
      exact (h₃.keeps hp.wf).trans (Tasks.modify_keeps hc₃.wf fun _ => by rfl)
    have hpaired : match (s₃.giveUp deadTq).findShandle newPlayer with
        | none => Paired ((s₃.giveUp deadTq).rename h₀ newPlayer)
        | some h => Paired (((s₃.giveUp deadTq).rename h₀ newPlayer).freeShandle h) := by
      rw [hfind]
      cases hf : s.findShandle newPlayer with
      | none => exact h₃.giveUp_paired hp hnew hno hdl hdp hf
      | some i =>
        obtain ⟨hi, hti⟩ := Finds.unique hp hf hno hdl hdp
        exact h₃.freeShandle_paired hp hnew hno hdl hdp hi hti
    obtain ⟨s', hs', hp', hk'⟩ :=
      playerConnected_spec c ((hfind _).trans hf₀) hpaired fun i hf => by
      obtain ⟨hi, hti⟩ := Finds.unique hp ((hfind _).symm.trans hf) hno hdl hdp
      have hti' : ((s₃.giveUp deadTq).shandles i).tasks = deadTq := (h₃.same.shandle i).2.trans hti
      rw [hti']
      exact (Tasks.freeTaskQueue_evolves hk₄.wf (h₃.live hdl)).toKeeps
    refine ⟨s', ?_, hp', hk₄.trans hk'⟩
    dsimp only
    rw [htake]
    exact hs'

theorem doLoginTask_spec (hp : Paired s) (hh : s.tasks.active.head? = some tq)
    (hneg : (s.tasks.tqueues tq).player < 0)
    (c : ServerScript) :
    ∃ s', s.doLoginTask tq c = some s' ∧ Paired s' ∧ Tasks.Keeps s.tasks s'.tasks := by
  have hl : s.tasks.Live tq := List.mem_append_left _ (List.mem_of_head? hh)
  obtain ⟨s₁, hs₁, hg⟩ := runTask_spec hp c.taskId c
  unfold doLoginTask
  rw [hs₁, Option.bind_some]
  cases c.login with
  | none => exact ⟨s₁, rfl, hg.paired, hg.evolves.toKeeps⟩
  | some newPlayer =>
    dsimp only
    split
    · next hcon =>
      obtain ⟨s₂, hs₂, hp₂, hk₂⟩ := login_paired hg.paired (hg.evolves.head tq hh) hcon
        (by rw [hg.evolves.player tq hl]; exact hneg) newPlayer c
      exact ⟨s₂, hs₂, hp₂, hg.evolves.toKeeps.trans hk₂⟩
    · exact ⟨s₁, rfl, hg.paired, hg.evolves.toKeeps⟩

/-! ## One call of `run_ready_tasks` -/

theorem dequeueBgTask_goes (hp : Paired s) (tq : Nat) : Goes s (s.dequeueBgTask tq).2 :=
  hp.goes_steady (Tasks.dequeueBgTask_steady hp.wf tq)

theorem takeTask_spec (hp : Paired s) (hl : s.tasks.Live tq) (blank : Nat → Str → Bool) (n : Nat) :
    ∃ r s', takeTask blank tq n s = some (r, s') ∧ Goes s s' := by
  induction n generalizing s with
  | zero => exact ⟨_, _, rfl, dequeueBgTask_goes hp tq⟩
  | succ n ih =>
    obtain ⟨s₁, hs₁, hfed, hh₁, _⟩ :=
      dequeueInputTask_spec hp.toCore hp.holds hl (fun hc => hp.finds hl hc)
        (s.tasks.tqueues tq).how
    have hg₁ := hp.goes_fed hfed hh₁
    unfold takeTask
    rw [hs₁]
    cases (s.tasks.dequeueInputTask tq (s.tasks.tqueues tq).how).1 with
    | none => exact ⟨_, _, rfl, hg₁.trans (dequeueBgTask_goes hg₁.paired tq)⟩
    | some t =>
      dsimp only
      split
      · obtain ⟨r, s₂, hs₂, hg₂⟩ := ih hg₁.paired (hg₁.evolves.live tq hl)
        exact ⟨r, s₂, hs₂, hg₁.trans hg₂⟩
      · exact ⟨_, s₁, rfl, hg₁⟩

/-- Queues move between the lists or are freed, but no queue that is connected goes. -/
theorem Paired.relist (hp : Paired s) {w : Tasks} (hwf : Tasks.Wf w)
    (hold : ∀ j, w.Live j → s.tasks.Live j)
    (hkeep : ∀ j, s.tasks.Live j → (s.tasks.tqueues j).connected = true → w.Live j)
    (hq : ∀ j, (w.tqueues j).player = (s.tasks.tqueues j).player ∧
      (w.tqueues j).connected = (s.tasks.tqueues j).connected ∧
      (w.tqueues j).input = (s.tasks.tqueues j).input) (hfresh : w.fresh = s.tasks.fresh)
    (hnext : w.nextUnconnectedPlayer = s.tasks.nextUnconnectedPlayer) :
    Paired { s with tasks := w } := by
  refine ⟨⟨hwf, hp.nodup, hp.bound, fun c hc => hkeep _ (hp.live c hc) (hp.connected c hc),
    fun c hc => ?_, hp.sync,
    fun j hl hj => hp.owned j (hold j hl) ((hq j).2.1 ▸ hj), hp.unique, fun j hj =>
      hp.fresh j (hfresh ▸ hj), hp.flush⟩,
    ⟨fun i j hi hj he hn => ?_, fun c hc => ?_, hnext ▸ hp.next, fun j hl hj => ?_,
      fun j hl hle => ?_⟩, fun j hl hj hs => ?_⟩
  · dsimp only
    rw [(hq _).2.1]
    exact hp.connected c hc
  · dsimp only at he hn
    rw [(hq i).1, (hq j).1] at he
    rw [(hq i).1] at hn
    exact hp.distinct i j (hold i hi) (hold j hj) he hn
  · dsimp only
    rw [(hq _).1]
    exact hp.name c hc
  · dsimp only at hj ⊢
    rw [(hq j).2.1] at hj
    rw [hnext, (hq j).1]
    exact hp.player j (hold j hl) hj
  · dsimp only at hle
    rw [hnext, (hq j).1] at hle
    exact hp.early j (hold j hl) hle
  · dsimp only at hj hs ⊢
    rw [(hq j).2.1] at hj
    rw [(hq j).2.2]
    exact hp.holds j (hold j hl) hj hs

theorem deactivate_paired (hp : Paired s) (hh : s.tasks.active.head? = some tq) :
    Paired (s.deactivate tq) := by
  obtain ⟨hb, hnl⟩ := hp.wf.behead hh
  have hl : s.tasks.Live tq := List.mem_append_left _ (List.mem_of_head? hh)
  have hlive : ∀ j, ({ s.tasks with active := s.tasks.afterActive tq }.deactivateTqueue tq).Live j ↔
    s.tasks.Live j := by
    intro j
    rw [Tasks.live_behead hh]
    unfold Tasks.Live
    rw [Tasks.deactivate_active, Tasks.deactivate_idle, List.perm_middle.mem_iff, List.mem_cons]
  refine hp.relist (hb.deactivate hnl (hp.wf.fresh tq hl)) (fun j hj => (hlive j).mp hj)
    (fun j hj _ => (hlive j).mpr hj)
    (fun j => ?_) rfl rfl
  by_cases hj : j = tq
  · rw [hj, Tasks.deactivate_self]
    exact ⟨rfl, rfl, rfl⟩
  · rw [Tasks.deactivate_ne hj]
    exact ⟨rfl, rfl, rfl⟩

theorem selectWork_spec (hp : Paired s) (blank : Nat → Str → Bool) (n : Nat) :
    ∃ r s', selectWork blank n s = some (r, s') ∧ Paired s' ∧
      ∀ tq work, r = some (tq, work) → s'.tasks.active.head? = some tq := by
  induction n generalizing s with
  | zero => exact ⟨none, s, rfl, hp, fun _ _ he => by simp at he⟩
  | succ n ih =>
    unfold selectWork
    cases ha : s.tasks.active with
    | nil => exact ⟨none, s, rfl, hp, fun _ _ he => by simp at he⟩
    | cons tq l =>
      have hh : s.tasks.active.head? = some tq := by rw [ha]; rfl
      have hl : s.tasks.Live tq := List.mem_append_left _ (List.mem_of_head? hh)
      obtain ⟨r, s₁, hs₁, hg₁⟩ := takeTask_spec hp hl blank (s.tasks.tqueues tq).input.length
      have hh₁ := hg₁.evolves.head tq hh
      dsimp only
      split
      · refine ⟨_, s, rfl, hp, fun tq' work he => ?_⟩
        obtain ⟨rfl, rfl⟩ := by simpa using he
        exact hh
      · rw [hs₁]
        cases r with
        | none => exact ih (deactivate_paired hg₁.paired hh₁)
        | some work =>
          refine ⟨_, s₁, rfl, hg₁.paired, fun tq' work' he => ?_⟩
          obtain ⟨rfl, rfl⟩ := by simpa using he
          exact hh₁

theorem endReading_goes (hp : Paired s) (tq : Nat) : Goes s (s.endReading tq) :=
  hp.goes_steady (Tasks.modify_steady hp.wf (fun _ => by rfl) (fun _ => by rfl)
    (fun _ => by rfl) fun _ => by rfl)

theorem runWork_spec (hp : Paired s) (hh : s.tasks.active.head? = some tq) (work : Work)
    (c : ServerScript) :
    ∃ s', s.runWork tq work c = some s' ∧ Paired s' ∧ Tasks.Keeps s.tasks s'.tasks := by
  have hrun : ∀ taskId, ∃ s', s.runTask taskId c = some s' ∧ Paired s' ∧
      Tasks.Keeps s.tasks s'.tasks := by
    intro taskId
    obtain ⟨s', hs', hg⟩ := runTask_spec hp taskId c
    exact ⟨s', hs', hg.paired, hg.evolves.toKeeps⟩
  have hread : ∀ taskId, ∃ s', (s.endReading tq).runTask taskId c = some s' ∧ Paired s' ∧
      Tasks.Keeps s.tasks s'.tasks := by
    intro taskId
    have hg := endReading_goes hp tq
    obtain ⟨s', hs', hg'⟩ := runTask_spec hg.paired taskId c
    exact ⟨s', hs', hg'.paired, (hg.trans hg').evolves.toKeeps⟩
  cases work with
  | endOfInput vm => exact hread vm
  | bg t => exact hrun t.id
  | input t =>
    unfold runWork
    dsimp only
    split
    · exact hrun c.taskId
    · split
      · exact hread _
      · split
        · exact hrun c.taskId
        · next hn => exact doLoginTask_spec hp hh (Int.not_le.mp hn) c

theorem requeue_paired (hp : Paired s) (hh : s.tasks.active.head? = some tq) (elapsed : Nat) :
    Paired (s.requeue tq elapsed) := by
  obtain ⟨hb, hnl⟩ := hp.wf.behead hh
  have ha : tq ∈ s.tasks.active := List.mem_of_head? hh
  have hlive : ∀ j, (s.requeue tq elapsed).tasks.Live j ↔ s.tasks.Live j := by
    intro j
    rw [Tasks.live_behead hh]
    unfold requeue
    dsimp only
    rw [Tasks.live_activate]
    rfl
  refine hp.relist ((hb.modify_off hnl).activate hnl
    (hp.wf.fresh tq (List.mem_append_left _ ha)) ?_)
    (fun j hj => (hlive j).mp hj) (fun j hj _ => (hlive j).mpr hj) (fun j => ?_) rfl rfl
  · rw [Tasks.modify_self]
    have := hp.wf.active tq ha
    dsimp only
    omega
  · change (Function.update s.tasks.tqueues tq _ j).player = _ ∧
      (Function.update s.tasks.tqueues tq _ j).connected = _ ∧
      (Function.update s.tasks.tqueues tq _ j).input = _
    by_cases hj : j = tq
    · rw [hj, Function.update_self]
      exact ⟨rfl, rfl, rfl⟩
    · rw [Function.update_of_ne hj]
      exact ⟨rfl, rfl, rfl⟩

theorem freeUnconnected_paired (hp : Paired s) :
    Paired { s with tasks := s.tasks.freeUnconnected } := by
  refine hp.relist (Tasks.freeUnconnected_wf hp.wf) (fun j hj => ?_) (fun j hj hc => ?_)
    (fun _ => ⟨rfl, rfl, rfl⟩) rfl rfl
  · exact List.mem_append.mpr ((List.mem_append.mp hj).imp id List.mem_of_mem_filter)
  · refine List.mem_append.mpr ((List.mem_append.mp hj).imp id fun hi => ?_)
    exact List.mem_filter.mpr ⟨hi, by simp [hc]⟩

theorem runReadyTasks_spec (hp : Paired s) (now : Int) (c : ServerScript) :
    ∃ s', s.runReadyTasks now c = some s' ∧ Paired s' := by
  have hg := hp.goes_steady (Tasks.wakeWaiting_steady hp.wf now)
  obtain ⟨r, s₁, hs₁, hp₁, hhead⟩ :=
    selectWork_spec hg.paired c.blank (s.tasks.wakeWaiting now).active.length
  unfold runReadyTasks
  dsimp only
  rw [hs₁]
  obtain _ | ⟨tq, work⟩ := r
  · exact ⟨_, rfl, freeUnconnected_paired hp₁⟩
  · obtain ⟨s₂, hs₂, hp₂, hk₂⟩ := runWork_spec hp₁ (hhead tq work rfl) work c
    refine ⟨_, ?_,
      freeUnconnected_paired (requeue_paired hp₂ (hk₂.head tq (hhead tq work rfl)) c.elapsed)⟩
    rw [Option.bind_some]
    dsimp only
    rw [hs₂]
    rfl

/-! ## Runs -/

theorem disconnect_spec (timedOut : Nat → Bool) (ops : Nat → List MooOp) {l : List Nat}
    (hn : l.Nodup) (hp : Paired s)
    (hl : ∀ h ∈ l, h ∈ s.allShandles) :
    ∃ s', disconnect timedOut ops l s = some s' ∧ Paired s' := by
  induction l generalizing s with
  | nil => exact ⟨s, rfl, hp⟩
  | cons h l ih =>
    obtain ⟨hnot, hn⟩ := List.nodup_cons.mp hn
    have hh := hl h List.mem_cons_self
    have hrest : ∀ i ∈ l, i ∈ s.allShandles ∧ i ≠ h := fun i hi =>
      ⟨hl i (List.mem_cons_of_mem _ hi), fun he => hnot (he ▸ hi)⟩
    unfold disconnect
    dsimp only
    split
    · obtain ⟨s₁, hs₁, hp₁, hall⟩ := ops_freeShandle hp hh (ops h)
      rw [hs₁]
      exact ih hn hp₁ fun i hi => hall i (hrest i hi).1 (hrest i hi).2
    · split
      · exact ih hn (hp.freeShandle hh) fun i hi => (hp.nodup.mem_erase_iff).mpr (hrest i hi).symm
      · split
        · obtain ⟨s₁, hs₁, hp₁, hall⟩ := ops_freeShandle hp hh (ops h)
          rw [hs₁]
          exact ih hn hp₁ fun i hi => hall i (hrest i hi).1 (hrest i hi).2
        · exact ih hn hp fun i hi => (hrest i hi).1

theorem step_spec (hp : Paired s) (e : Event) : ∃ s', s.step e = some s' ∧ Paired s' := by
  cases e with
  | serverNewConnection listener outbound t =>
    obtain ⟨s', hs', hg⟩ := serverNewConnection_spec hp listener outbound t
    exact ⟨s', hs', hg.paired⟩
  | serverReceiveLine h t line =>
    dsimp only [step]
    split
    · next hh =>
      have hl := hp.live h hh
      obtain ⟨s', hs', hfed, hho⟩ :=
        newInputTask_spec hp.toCore hp.holds hl (fun hc => hp.finds hl hc) t line
          (s.shandles h).binary
      exact ⟨s', hs', (hp.goes_fed hfed hho).paired⟩
    · exact ⟨s, rfl, hp⟩
  | serverClose h ops =>
    dsimp only [step]
    split
    · next hh =>
      have hg := hp.goes_modifyShandle h (f := fun c => { c with disconnectMe := true })
        (fun _ => by rfl) (fun _ => by rfl)
        fun _ => by rfl
      obtain ⟨s', hs', hp', _⟩ := ops_freeShandle hg.paired (hg.all h hh) ops
      exact ⟨s', hs', hp'⟩
    · exact ⟨s, rfl, hp⟩
  | runServerTask ops =>
    obtain ⟨s', hs', hg⟩ := ops_spec hp ops
    exact ⟨s', hs', hg.paired⟩
  | runReadyTasks now c => exact runReadyTasks_spec hp now c
  | disconnect timedOut ops => exact disconnect_spec timedOut ops hp.nodup hp fun _ hh => hh

theorem run_spec (hp : Paired s) (l : List Event) : ∃ s', s.run l = some s' ∧ Paired s' := by
  induction l generalizing s with
  | nil => exact ⟨s, rfl, hp⟩
  | cons e l ih =>
    obtain ⟨s₁, hs₁, hp₁⟩ := step_spec hp e
    obtain ⟨s₂, hs₂, hp₂⟩ := ih hp₁
    exact ⟨s₂, by rw [run, hs₁]; exact hs₂, hp₂⟩

theorem empty_paired (str : Nat → Option Str) (valid : Objid → Bool) :
    Paired (empty str valid) where
  wf := Tasks.empty_wf
  nodup := .nil
  bound _ h := absurd h List.not_mem_nil
  live _ h := absurd h List.not_mem_nil
  connected _ h := absurd h List.not_mem_nil
  sync _ h := absurd h List.not_mem_nil
  owned _ h := absurd h (by simp [Tasks.Live, empty, Tasks.empty])
  unique _ h := absurd h List.not_mem_nil
  fresh _ _ := rfl
  flush _ _ h := flushCommand_ne h
  distinct _ _ h := absurd h (by simp [Tasks.Live, empty, Tasks.empty])
  name _ h := absurd h List.not_mem_nil
  next := (by decide : NOTHING - 1 < NOTHING)
  player _ h := absurd h (by simp [Tasks.Live, empty, Tasks.empty])
  early _ h := absurd h (by simp [Tasks.Live, empty, Tasks.empty])
  holds _ h := absurd h (by simp [Tasks.Live, empty, Tasks.empty])

/-- Every sequence of steps of the main loop goes through, so that no step looks for a connection
that there is not. After it, each connection has a queue that is connected and carries its player,
no two connections carry one player, and every queue that is connected is that of a connection.
Where input is suspended, the network and the queue agree on it, the queue holds input, and when the
queue has been emptied, the input is no longer suspended. -/
theorem run_paired (str : Nat → Option Str) (valid : Objid → Bool) (l : List Event) :
    ∃ s, (empty str valid).run l = some s ∧
      (∀ h ∈ s.allShandles, s.tasks.Live (s.shandles h).tasks ∧
        (s.tasks.tqueues (s.shandles h).tasks).connected = true ∧
        (s.tasks.tqueues (s.shandles h).tasks).player = (s.shandles h).player ∧
        (s.shandles h).inputSuspended = s.inputSuspended (s.shandles h).tasks) ∧
      (∀ h ∈ s.allShandles, ∀ h' ∈ s.allShandles, (s.shandles h).player =
        (s.shandles h').player → h = h') ∧
      (∀ tq, s.tasks.Live tq → (s.tasks.tqueues tq).connected = true →
        ∃ h ∈ s.allShandles, (s.shandles h).tasks = tq) ∧
      ∀ tq, s.tasks.Live tq → (s.tasks.tqueues tq).connected = true → s.inputSuspended tq = true →
        (s.tasks.tqueues tq).input ≠ [] ∧ ∃ s', s.flushInput tq = some s' ∧
        s'.inputSuspended tq = false := by
  obtain ⟨s, hs, hp⟩ := run_spec (empty_paired str valid) l
  refine ⟨s, hs, fun h hh => ⟨hp.live h hh, hp.connected h hh, hp.name h hh, hp.sync h hh⟩,
    fun h hh h' hh' he => ?_, hp.owned,
    fun tq hl hc hsus => ⟨hp.holds tq hl hc hsus, flushInput_resumes hp hl hc⟩⟩
  rw [← hp.name h hh, ← hp.name h' hh'] at he
  have hne := (hp.player _ (hp.live h hh) (hp.connected h hh)).2
  exact hp.unique h hh h' hh' (hp.distinct _ _ (hp.live h hh) (hp.live h' hh') he hne)

end Server
end Task
end NuMoo
