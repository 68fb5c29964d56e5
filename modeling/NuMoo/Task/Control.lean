import Mathlib.Data.List.Nodup
import NuMoo.Task.Activation

/-!
# Killing and resuming by number

`kill_task` and `resume` take a number of 64 bits and look for an `int`. What they ought to do
is said of the number itself: a task that has it is killed or resumed, if the caller is a wizard or
the task's programmer, and no other task is touched.

Results:
1. `Reached.killTask_eq`, `ReachedSuspended.doResume_eq`: the caller is compared once, and a refusal
   changes nothing.
2. `kill_resume_exact_iff`: the numbers and the callers for which the built-ins do what they ought
   to.
-/

namespace NuMoo
namespace Task

/-- The numbers of the tasks that a queue holds. -/
def TQueue.taskIds (q : TQueue) : List Int := q.reading.toList ++ q.firstBg.map BgTask.id

/-- `package`, as far as these built-ins make it. -/
inductive Package where
  | noVar
  | error (e : ErrCode)
  | kill
deriving DecidableEq, Repr

namespace Tasks

/-- `bf_kill_task` -/
def bfKillTask (w : Tasks) (n : Int) (progr : Objid) (wizard : Bool) : Package × Tasks :=
  let id := int32 n
  let (e, w) := w.killTask id progr wizard
  (if e ≠ .E_NONE then .error e else if id = w.currentTaskId then .kill else .noVar, w)

/-- `bf_resume`; the value is zero if there is none. -/
def bfResume (w : Tasks) (n : Int) (value : Option Var) (progr : Objid) (wizard : Bool)
    (now : Int) : Package × Tasks :=
  let (e, w) := w.doResume (int32 n) (value.getD (.int 0)) progr wizard now
  (if e ≠ .E_NONE then .error e else .noVar, w)

/-! ## What they ought to do -/

/-- The numbers of all tasks that are not running. -/
def taskIds (w : Tasks) : List Int :=
  w.waiting.map BgTask.id ++ (w.active ++ w.idle).flatMap fun tq => (w.tqueues tq).taskIds

/-- The numbers are different, and each is an `int`. -/
structure Numbered (w : Tasks) : Prop where
  distinct : w.taskIds.Nodup
  int : ∀ id ∈ w.currentTaskId :: w.taskIds, int32 id = id

/-- The queue of a programmer has one task less. -/
def discount (w : Tasks) (progr : Objid) : Tasks :=
  match w.lookupTqueue progr with
  | none => w
  | some tq => w.modify tq fun q => { q with numBgTasks := q.numBgTasks - 1 }

/-- A task with a number, whom it belongs to, and the tasks without it. -/
inductive Kills (w : Tasks) (id : Int) : Objid → Tasks → Prop
  | waiting (a : List BgTask) (t : BgTask) (b : List BgTask) : w.waiting = a ++ t :: b → t.id = id →
      Kills w id t.progr { w.discount t.progr with waiting := a ++ b }
  | reading (tq : Nat) : w.Live tq → (w.tqueues tq).reading = some id →
      Kills w id (w.tqueues tq).player (w.modify tq fun q => { q with reading := none })
  | ready (tq : Nat) (a : List BgTask) (t : BgTask) (b : List BgTask) : w.Live tq →
      (w.tqueues tq).firstBg = a ++ t :: b →
      t.id = id → Kills w id t.progr (w.modify tq fun q =>
        { q with firstBg := a ++ b, numBgTasks := q.numBgTasks - 1 })

/-- A suspended task with a number, whom it belongs to, and the tasks when it is ready with a value.
One that waits leaves `waiting` for the end of `firstBg` of its programmer's queue, which is made if
he has none and becomes active, and starts now; its queue counts it already. -/
inductive MakesReady (w : Tasks) (id : Int) (value : Var) (now : Int) : Objid → Tasks → Prop
  | waiting (a : List BgTask) (t : BgTask) (b : List BgTask) : w.waiting = a ++ t :: b →
      suspendedAs id t →
      MakesReady w id value now t.progr
        (({ (w.findTqueue t.progr).2 with waiting := a ++ b }.ensureUsage
          (w.findTqueue t.progr).1).enqueueBgTask
          (w.findTqueue t.progr).1 { t with startTv := now, value := value })
  | ready (tq : Nat) (a : List BgTask) (t : BgTask) (b : List BgTask) : w.Live tq →
      (w.tqueues tq).firstBg = a ++ t :: b →
      suspendedAs id t → MakesReady w id value now t.progr (w.modify tq fun q =>
        { q with firstBg := a ++ { t with value := value } :: b })

/-- A request is granted to a wizard and to the owner, and otherwise refused and nothing is
changed. -/
def Authorised (w : Tasks) (request : Objid → Tasks → Prop) (progr : Objid) (wizard : Bool)
    (r : Package × Tasks) : Prop :=
  (∀ owner w', request owner w' → (wizard = true ∨ progr = owner) → r = (.noVar, w')) ∧
    ((∀ owner w', request owner w' → ¬ (wizard = true ∨ progr = owner)) →
      (r.1 = .error .E_PERM ∨ r.1 = .error .E_INVARG) ∧ r.2 = w)

/-- The task with the number `n`, and only it, is killed; the task that runs is the only one that
ends by itself. -/
def KillsExactly (w : Tasks) (n : Int) (progr : Objid) (wizard : Bool)
    (r : Package × Tasks) : Prop :=
  if n = w.currentTaskId then r = (.kill, w) else w.Authorised (w.Kills n) progr wizard r

/-- The suspended task with the number `n`, and only it, is made ready. -/
def ResumesExactly (w : Tasks) (n : Int) (value : Var) (progr : Objid) (wizard : Bool) (now : Int)
    (r : Package × Tasks) : Prop :=
  w.Authorised (w.MakesReady n value now) progr wizard r

/-! ## What is found -/

/-- `kill_task` comes to a task and compares the caller with `who`: a task that is ready is looked
for in active queues only, and it is the player of the queue that counts. -/
inductive Reached (w : Tasks) (id : Int) (who : Objid) : Prop
  | waiting (t : BgTask) : t ∈ w.waiting → t.id = id → t.progr = who → Reached w id who
  | reading (tq : Nat) : w.Live tq → (w.tqueues tq).reading = some id →
      (w.tqueues tq).player = who → Reached w id who
  | ready (tq : Nat) (t : BgTask) : tq ∈ w.active → t ∈ (w.tqueues tq).firstBg → t.id = id →
      (w.tqueues tq).player = who →
      Reached w id who

/-- `do_resume` comes to a task and compares the caller with `who`. -/
inductive ReachedSuspended (w : Tasks) (id : Int) (who : Objid) : Prop
  | waiting (t : BgTask) : t ∈ w.waiting → suspendedAs id t → t.progr = who →
      ReachedSuspended w id who
  | ready (tq : Nat) (t : BgTask) : tq ∈ w.active → t ∈ (w.tqueues tq).firstBg → suspendedAs id t →
      (w.tqueues tq).player = who → ReachedSuspended w id who

/-- A task that is ready and has the number is on an active queue whose player may do what its
programmer may. -/
def ReadyAt (w : Tasks) (p : BgTask → Bool) (progr : Objid) (wizard : Bool) : Prop :=
  ∀ tq t, w.Live tq → t ∈ (w.tqueues tq).firstBg → p t = true →
    (tq ∈ w.active ∧ (wizard = true ∨ progr = (w.tqueues tq).player) ↔
      wizard = true ∨ progr = t.progr)

variable {w w' w₁ w₂ : Tasks} {tq tq' : Nat} {id n now : Int}
    {who owner owner₁ owner₂ progr : Objid} {wizard : Bool}
  {a b a' b' : List BgTask} {t t' : BgTask} {value : Var}

theorem split_unique {α β : Type} {f : α → β} {l a b a' b' : List α} {x y : α}
    (hnd : (l.map f).Nodup)
    (h : l = a ++ x :: b) (h' : l = a' ++ y :: b') (hf : f x = f y) : a = a' ∧ x = y ∧ b = b' := by
  induction a generalizing l a' with
  | nil =>
    cases a' with
    | nil =>
      rw [List.nil_append] at h h'
      rw [h] at h'
      obtain ⟨hx, hb⟩ := List.cons.inj h'
      exact ⟨rfl, hx, hb⟩
    | cons c a' =>
      rw [h, List.nil_append, List.map_cons, List.nodup_cons] at hnd
      rw [h, List.nil_append, List.cons_append] at h'
      obtain ⟨-, hb⟩ := List.cons.inj h'
      refine absurd ?_ hnd.1
      rw [hb, hf]
      exact List.mem_map_of_mem (List.mem_append_right _ List.mem_cons_self)
  | cons d a ih =>
    cases a' with
    | nil =>
      rw [h', List.nil_append, List.map_cons, List.nodup_cons] at hnd
      rw [h', List.nil_append, List.cons_append] at h
      obtain ⟨-, hb⟩ := List.cons.inj h
      refine absurd ?_ hnd.1
      rw [hb, ← hf]
      exact List.mem_map_of_mem (List.mem_append_right _ List.mem_cons_self)
    | cons c a' =>
      rw [h, List.cons_append] at h'
      obtain ⟨rfl, htail⟩ := List.cons.inj h'
      rw [h, List.cons_append, List.map_cons, List.nodup_cons] at hnd
      obtain ⟨rfl, hx, hb⟩ := ih hnd.2 rfl htail
      exact ⟨rfl, hx, hb⟩

theorem eq_of_nodup_flatMap {α β : Type} {f : α → List β} {l : List α} {x y : α} {c : β}
    (h : (l.flatMap f).Nodup) (hx : x ∈ l)
    (hy : y ∈ l) (hcx : c ∈ f x) (hcy : c ∈ f y) : x = y := by
  induction l with
  | nil => cases hx
  | cons z l ih =>
    rw [List.flatMap_cons, List.nodup_append] at h
    rcases List.mem_cons.mp hx with rfl | hxl <;> rcases List.mem_cons.mp hy with rfl | hyl
    · rfl
    · exact absurd rfl (h.2.2 c hcx c (List.mem_flatMap.mpr ⟨y, hyl, hcy⟩))
    · exact absurd rfl (h.2.2 c hcy c (List.mem_flatMap.mpr ⟨x, hxl, hcx⟩))
    · exact ih h.2.1 hxl hyl

namespace Numbered

variable (h : Numbered w)
include h

theorem waiting_nodup : (w.waiting.map BgTask.id).Nodup := (List.nodup_append.mp h.distinct).1

theorem queues_nodup : ((w.active ++ w.idle).flatMap fun tq => (w.tqueues tq).taskIds).Nodup :=
  (List.nodup_append.mp h.distinct).2.1

theorem queue_nodup (hl : w.Live tq) : (w.tqueues tq).taskIds.Nodup :=
  (List.nodup_flatMap.mp h.queues_nodup).1 tq hl

theorem firstBg_nodup (hl : w.Live tq) : ((w.tqueues tq).firstBg.map BgTask.id).Nodup :=
  (List.nodup_append.mp (h.queue_nodup hl)).2.1

/-- A task that waits is in no queue. -/
theorem not_waiting (hl : w.Live tq) (hq : id ∈ (w.tqueues tq).taskIds) (ht : t ∈ w.waiting) :
    t.id ≠ id :=
  (List.nodup_append.mp h.distinct).2.2 t.id (List.mem_map_of_mem ht) id
    (List.mem_flatMap.mpr ⟨tq, hl, hq⟩)

theorem queue_unique (hl : w.Live tq) (hl' : w.Live tq') (hq : id ∈ (w.tqueues tq).taskIds)
    (hq' : id ∈ (w.tqueues tq').taskIds) :
    tq = tq' := eq_of_nodup_flatMap h.queues_nodup hl hl' hq hq'

/-- A task that reads is not ready. -/
theorem not_reading (hl : w.Live tq) (ht : t ∈ (w.tqueues tq).firstBg) :
    (w.tqueues tq).reading ≠ some t.id := by
  intro hr
  refine (List.nodup_append.mp (h.queue_nodup hl)).2.2 t.id ?_ t.id (List.mem_map_of_mem ht) rfl
  rw [hr]
  exact List.mem_singleton_self _

/-- A task that is ready is in one place. -/
theorem ready_unique (hl : w.Live tq) (hl' : w.Live tq') (ht : t ∈ (w.tqueues tq).firstBg)
    (ht' : t' ∈ (w.tqueues tq').firstBg)
    (hid : t'.id = t.id) : tq' = tq ∧ t' = t := by
  have hq : t.id ∈ (w.tqueues tq).taskIds := List.mem_append_right _ (List.mem_map_of_mem ht)
  have hq' : t'.id ∈ (w.tqueues tq').taskIds := List.mem_append_right _ (List.mem_map_of_mem ht')
  obtain rfl := h.queue_unique hl hl' hq (hid ▸ hq')
  exact ⟨rfl, List.inj_on_of_nodup_map (h.firstBg_nodup hl) ht' ht hid⟩

end Numbered

theorem mem_taskIds_of_reading (h : (w.tqueues tq).reading = some id) :
    id ∈ (w.tqueues tq).taskIds := by
  rw [TQueue.taskIds, h]
  exact List.mem_append_left _ (List.mem_singleton_self _)

theorem mem_taskIds_of_ready (h : t ∈ (w.tqueues tq).firstBg) : t.id ∈ (w.tqueues tq).taskIds :=
  List.mem_append_right _ (List.mem_map_of_mem h)

/-- A number names one task. -/
theorem Kills.unique (hn : Numbered w) (h : Kills w id owner₁ w₁) (h' : Kills w id owner₂ w₂) :
    owner₁ = owner₂ ∧ w₁ = w₂ := by
  cases h with
  | waiting a t b hw ht =>
    have hmem : t ∈ w.waiting := hw ▸ List.mem_append_right _ List.mem_cons_self
    cases h' with
    | waiting a' t' b' hw' ht' =>
      obtain ⟨rfl, rfl, rfl⟩ := split_unique hn.waiting_nodup hw hw' (ht.trans ht'.symm)
      exact ⟨rfl, rfl⟩
    | reading tq hl hr => exact absurd ht (hn.not_waiting hl (mem_taskIds_of_reading hr) hmem)
    | ready tq a' t' b' hl hb ht' =>
      have hready : t' ∈ (w.tqueues tq).firstBg := hb ▸ List.mem_append_right _ List.mem_cons_self
      exact absurd ht (hn.not_waiting hl (ht' ▸ mem_taskIds_of_ready hready) hmem)
  | reading tq hl hr =>
    cases h' with
    | waiting a' t' b' hw' ht' =>
      have hmem : t' ∈ w.waiting := hw' ▸ List.mem_append_right _ List.mem_cons_self
      exact absurd ht' (hn.not_waiting hl (mem_taskIds_of_reading hr) hmem)
    | reading tq' hl' hr' =>
      obtain rfl := hn.queue_unique hl hl' (mem_taskIds_of_reading hr) (mem_taskIds_of_reading hr')
      exact ⟨rfl, rfl⟩
    | ready tq' a' t' b' hl' hb ht' =>
      have hready : t' ∈ (w.tqueues tq').firstBg := hb ▸ List.mem_append_right _ List.mem_cons_self
      obtain rfl :=
        hn.queue_unique hl hl' (mem_taskIds_of_reading hr) (ht' ▸ mem_taskIds_of_ready hready)
      exact absurd (ht' ▸ hr) (hn.not_reading hl hready)
  | ready tq a t b hl hb ht =>
    have hready : t ∈ (w.tqueues tq).firstBg := hb ▸ List.mem_append_right _ List.mem_cons_self
    cases h' with
    | waiting a' t' b' hw' ht' =>
      have hmem : t' ∈ w.waiting := hw' ▸ List.mem_append_right _ List.mem_cons_self
      exact absurd ht' (hn.not_waiting hl (ht ▸ mem_taskIds_of_ready hready) hmem)
    | reading tq' hl' hr' =>
      obtain rfl :=
        hn.queue_unique hl hl' (ht ▸ mem_taskIds_of_ready hready) (mem_taskIds_of_reading hr')
      exact absurd (ht ▸ hr') (hn.not_reading hl hready)
    | ready tq' a' t' b' hl' hb' ht' =>
      have hready' : t' ∈ (w.tqueues tq').firstBg :=
        hb' ▸ List.mem_append_right _ List.mem_cons_self
      obtain rfl := hn.queue_unique hl hl' (ht ▸ mem_taskIds_of_ready hready)
        (ht' ▸ mem_taskIds_of_ready hready')
      obtain ⟨rfl, rfl, rfl⟩ := split_unique (hn.firstBg_nodup hl) hb hb' (ht.trans ht'.symm)
      exact ⟨rfl, rfl⟩

/-! ## Requests -/

variable {request : Objid → Tasks → Prop} {r : Package × Tasks}

/-- Where a task was found, what matters is whether the caller was compared with the owner. -/
theorem authorised_reached (h : request owner w') (hu : ∀ o v, request o v → o = owner ∧ v = w')
    (hr : r = if wizard = true ∨ progr = who then (.noVar, w') else (.error .E_PERM, w)) :
    w.Authorised request progr wizard r ↔ (wizard = true ∨ progr = who ↔
      wizard = true ∨ progr = owner) := by
  by_cases hwho : wizard = true ∨ progr = who
  · rw [if_pos hwho] at hr
    refine ⟨fun hauth => iff_of_true hwho ?_, fun hiff => ⟨fun o v ho _ => ?_, fun hnone => ?_⟩⟩
    · by_contra hnot
      have herr := (hauth.2 fun o v ho hgrant => hnot ((hu o v ho).1 ▸ hgrant)).1
      rw [hr] at herr
      rcases herr with herr | herr <;> cases herr
    · rw [hr, (hu o v ho).2]
    · exact absurd (hiff.mp hwho) (hnone owner w' h)
  · rw [if_neg hwho] at hr
    refine ⟨fun hauth => iff_of_false hwho fun hgrant => ?_, fun hiff =>
      ⟨fun o v ho hgrant => ?_, fun _ => ?_⟩⟩
    · have hdone := hauth.1 owner w' h hgrant
      rw [hr] at hdone
      cases hdone
    · exact absurd (hiff.mpr ((hu o v ho).1 ▸ hgrant)) hwho
    · rw [hr]
      exact ⟨.inl rfl, rfl⟩

/-- Where a task was not found, the caller must have no right to it. -/
theorem authorised_unreached (h : request owner w') (hu : ∀ o v, request o v → o = owner ∧ v = w')
    (hr : r = (.error .E_INVARG, w)) :
    w.Authorised request progr wizard r ↔ ¬ (wizard = true ∨ progr = owner) := by
  refine ⟨fun hauth hgrant => ?_, fun hnot => ⟨fun o v ho hgrant => ?_, fun _ => ?_⟩⟩
  · have hdone := hauth.1 owner w' h hgrant
    rw [hr] at hdone
    cases hdone
  · exact absurd ((hu o v ho).1 ▸ hgrant) hnot
  · rw [hr]
    exact ⟨.inr rfl, rfl⟩

/-- Where there is no task, nothing may be done. -/
theorem authorised_none (h : ∀ o v, ¬ request o v) :
    w.Authorised request progr wizard r ↔ (r.1 = .error .E_PERM ∨ r.1 = .error .E_INVARG) ∧
      r.2 = w :=
  ⟨fun hauth => hauth.2 fun o v ho => absurd ho (h o v), fun hr =>
    ⟨fun o v ho => absurd ho (h o v), fun _ => hr⟩⟩

/-! ## The searches -/

theorem find_split {p : BgTask → Bool} {l : List BgTask} (hnd : (l.map BgTask.id).Nodup)
    (h : l = a ++ t :: b) (ht : p t = true)
    (hp : ∀ u, p u = true → u.id = t.id) : l.find? p = some t ∧ l.eraseP p = a ++ b := by
  have hbefore : ∀ u ∈ a, ¬ p u = true := by
    intro u hu hpu
    rw [h, List.map_append, List.map_cons, List.nodup_append] at hnd
    exact hnd.2.2 u.id (List.mem_map_of_mem hu) t.id List.mem_cons_self (hp u hpu)
  constructor
  · refine List.find?_eq_some_iff_append.mpr ⟨ht, a, b, h, fun u hu => ?_⟩
    simpa using hbefore u hu
  · rw [h, List.eraseP_append_right _ hbefore, List.eraseP_cons_of_pos ht]

theorem discount_waiting (w : Tasks) (progr : Objid) : (w.discount progr).waiting = w.waiting := by
  unfold discount
  split <;> rfl

theorem killTask_waiting (hn : Numbered w) (hid : id ≠ w.currentTaskId)
    (hw : w.waiting = a ++ t :: b) (ht : t.id = id)
    (progr : Objid) (wizard : Bool) : w.killTask id progr wizard =
      if wizard = true ∨ progr = t.progr then
        (.E_NONE, { w.discount t.progr with waiting := a ++ b }) else (.E_PERM, w) := by
  obtain ⟨hfind, herase⟩ :=
    @find_split a b t (fun u => decide (u.id = id)) w.waiting hn.waiting_nodup hw
      (by simpa using ht)
    fun u hu => (by simpa using hu : u.id = id).trans ht.symm
  rw [killTask, if_neg hid, hfind]
  dsimp only
  by_cases hgrant : wizard = true ∨ progr = t.progr
  · rw [if_pos hgrant, if_neg (by rcases hgrant with rfl | rfl <;> simp)]
    rw [← herase, ← discount_waiting w t.progr]
    rfl
  · rw [if_neg hgrant, if_pos]
    rw [not_or] at hgrant
    simpa using hgrant

/-- Without a task that waits, `kill_task` looks at the queues. -/
theorem killTask_queue (hid : id ≠ w.currentTaskId) (hw : ∀ u ∈ w.waiting, u.id ≠ id)
    (progr : Objid) (wizard : Bool) :
    w.killTask id progr wizard =
      match (w.holding id false w.idle).or (w.holding id true w.active) with
      | none => (.E_INVARG, w)
      | some tq =>
        if wizard = true ∨ progr = (w.tqueues tq).player then
          (.E_NONE, if (w.tqueues tq).reading = some id then w.modify tq fun q =>
            { q with reading := none }
            else w.modify tq fun q =>
              { q with firstBg := q.firstBg.eraseP fun t => t.id = id,
                       numBgTasks := q.numBgTasks - 1 })
        else (.E_PERM, w) := by
  have hfind : (w.waiting.find? fun u => decide (u.id = id)) = none := by
    rw [List.find?_eq_none]
    exact fun u hu => by simpa using hw u hu
  rw [killTask, if_neg hid, hfind]
  cases hh : (w.holding id false w.idle).or (w.holding id true w.active) with
  | none => dsimp only
  | some tq =>
    dsimp only
    by_cases hgrant : wizard = true ∨ progr = (w.tqueues tq).player
    · rw [if_pos hgrant, if_neg (by rcases hgrant with rfl | rfl <;> simp)]
      split <;> rfl
    · rw [if_neg hgrant, if_pos]
      rw [not_or] at hgrant
      simpa using hgrant

/-- A queue at which the search for a number stops holds it. -/
theorem holding_spec (h : (w.holding id false w.idle).or (w.holding id true w.active) = some tq) :
    w.Live tq ∧ id ∈ (w.tqueues tq).taskIds := by
  rcases Option.or_eq_some_iff.mp h with h | ⟨-, h⟩
  · have hmem := List.mem_of_find?_eq_some h
    have hp := List.find?_some h
    refine ⟨List.mem_append_right _ hmem, mem_taskIds_of_reading ?_⟩
    simpa using hp
  · have hmem := List.mem_of_find?_eq_some h
    have hp := List.find?_some h
    refine ⟨List.mem_append_left _ hmem, ?_⟩
    rw [Bool.or_eq_true, Bool.true_and, List.any_eq_true] at hp
    rcases hp with hp | ⟨t, ht, hp⟩
    · exact mem_taskIds_of_reading (by simpa using hp)
    · obtain rfl : t.id = id := by simpa using hp
      exact mem_taskIds_of_ready ht

/-- The search stops at the queue that holds the number where it looks. -/
theorem holding_eq (hn : Numbered w) (hl : w.Live tq)
    (h : (w.tqueues tq).reading = some id ∨ tq ∈ w.active ∧
      ∃ t ∈ (w.tqueues tq).firstBg, t.id = id) :
    (w.holding id false w.idle).or (w.holding id true w.active) = some tq := by
  have hids : id ∈ (w.tqueues tq).taskIds := by
    rcases h with h | ⟨-, t, ht, rfl⟩
    · exact mem_taskIds_of_reading h
    · exact mem_taskIds_of_ready ht
  have hsome : ((w.holding id false w.idle).or (w.holding id true w.active)).isSome := by
    rw [Option.isSome_or, Bool.or_eq_true, holding, holding, List.find?_isSome, List.find?_isSome]
    rcases h with h | ⟨ha, t, ht, rfl⟩
    · rcases List.mem_append.mp hl with ha | hi
      · exact .inr ⟨tq, ha, by simp [h]⟩
      · exact .inl ⟨tq, hi, by simp [h]⟩
    · refine .inr ⟨tq, ha, ?_⟩
      rw [Bool.or_eq_true, Bool.true_and, List.any_eq_true]
      exact .inr ⟨t, ht, by simp⟩
  obtain ⟨tq', htq⟩ := Option.isSome_iff_exists.mp hsome
  obtain ⟨hl', hids'⟩ := holding_spec htq
  rw [htq, hn.queue_unique hl' hl hids' hids]

theorem killTask_reading (hn : Numbered w) (hid : id ≠ w.currentTaskId) (hl : w.Live tq)
    (hr : (w.tqueues tq).reading = some id)
    (progr : Objid) (wizard : Bool) : w.killTask id progr wizard =
      if wizard = true ∨ progr = (w.tqueues tq).player then
        (.E_NONE, w.modify tq fun q => { q with reading := none })
      else (.E_PERM, w) := by
  rw [killTask_queue hid fun u hu => hn.not_waiting hl (mem_taskIds_of_reading hr) hu,
    holding_eq hn hl (.inl hr)]
  dsimp only
  rw [if_pos hr]

theorem killTask_ready (hn : Numbered w) (hid : id ≠ w.currentTaskId) (ha : tq ∈ w.active)
    (hb : (w.tqueues tq).firstBg = a ++ t :: b) (ht : t.id = id) (progr : Objid) (wizard : Bool) :
    w.killTask id progr wizard =
      if wizard = true ∨ progr = (w.tqueues tq).player then
        (.E_NONE, w.modify tq fun q => { q with firstBg := a ++ b, numBgTasks := q.numBgTasks - 1 })
      else (.E_PERM, w) := by
  have hl : w.Live tq := List.mem_append_left _ ha
  have hready : t ∈ (w.tqueues tq).firstBg := hb ▸ List.mem_append_right _ List.mem_cons_self
  have hids : id ∈ (w.tqueues tq).taskIds := ht ▸ mem_taskIds_of_ready hready
  have hr : (w.tqueues tq).reading ≠ some id := ht ▸ hn.not_reading hl hready
  obtain ⟨-, herase⟩ :=
    @find_split a b t (fun u => decide (u.id = id)) _ (hn.firstBg_nodup hl) hb (by simpa using ht)
    fun u hu => (by simpa using hu : u.id = id).trans ht.symm
  rw [killTask_queue hid fun u hu => hn.not_waiting hl hids hu,
    holding_eq hn hl (.inr ⟨ha, t, hready, ht⟩)]
  dsimp only
  rw [if_neg hr]
  unfold modify
  dsimp only
  rw [herase]

theorem killTask_unreached (hid : id ≠ w.currentTaskId) (h : ∀ who, ¬ Reached w id who)
    (progr : Objid) (wizard : Bool) :
    w.killTask id progr wizard = (.E_INVARG, w) := by
  rw [killTask_queue hid fun u hu he => h u.progr (.waiting u hu he rfl)]
  cases hh : (w.holding id false w.idle).or (w.holding id true w.active) with
  | none => rfl
  | some tq =>
    refine absurd ?_ (h (w.tqueues tq).player)
    rcases Option.or_eq_some_iff.mp hh with hh | ⟨-, hh⟩
    · have hp := List.find?_some hh
      exact .reading tq (List.mem_append_right _ (List.mem_of_find?_eq_some hh))
        (by simpa using hp) rfl
    · have hp := List.find?_some hh
      have ha := List.mem_of_find?_eq_some hh
      rw [Bool.or_eq_true, Bool.true_and, List.any_eq_true] at hp
      rcases hp with hp | ⟨t, ht, hp⟩
      · exact .reading tq (List.mem_append_left _ ha) (by simpa using hp) rfl
      · exact .ready tq t ha ht (by simpa using hp) rfl

theorem Reached.killTask_eq (hn : Numbered w) (hid : id ≠ w.currentTaskId) (h : Reached w id who) :
    ∃ w', ∀ progr wizard, w.killTask id progr wizard =
      if wizard = true ∨ progr = who then (.E_NONE, w') else (.E_PERM, w) := by
  cases h with
  | waiting t hmem ht hp =>
    obtain ⟨a, b, hw⟩ := List.append_of_mem hmem
    subst hp
    exact ⟨_, killTask_waiting hn hid hw ht⟩
  | reading tq hl hr hp =>
    subst hp
    exact ⟨_, killTask_reading hn hid hl hr⟩
  | ready tq t ha hmem ht hp =>
    obtain ⟨a, b, hb⟩ := List.append_of_mem hmem
    subst hp
    exact ⟨_, killTask_ready hn hid ha hb ht⟩

/-! ## Resuming -/

theorem id_of_suspendedAs (h : suspendedAs id t = true) : t.id = id := by
  rw [suspendedAs, Bool.and_eq_true] at h
  simpa using h.2

theorem MakesReady.unique (hn : Numbered w) (h : MakesReady w id value now owner₁ w₁)
    (h' : MakesReady w id value now owner₂ w₂) :
    owner₁ = owner₂ ∧ w₁ = w₂ := by
  cases h with
  | waiting a t b hw ht =>
    have hmem : t ∈ w.waiting := hw ▸ List.mem_append_right _ List.mem_cons_self
    cases h' with
    | waiting a' t' b' hw' ht' =>
      obtain ⟨rfl, rfl, rfl⟩ :=
        split_unique hn.waiting_nodup hw hw'
          ((id_of_suspendedAs ht).trans (id_of_suspendedAs ht').symm)
      exact ⟨rfl, rfl⟩
    | ready tq a' t' b' hl hb ht' =>
      have hready : t' ∈ (w.tqueues tq).firstBg := hb ▸ List.mem_append_right _ List.mem_cons_self
      have hids : id ∈ (w.tqueues tq).taskIds := id_of_suspendedAs ht' ▸ mem_taskIds_of_ready hready
      exact absurd (id_of_suspendedAs ht) (hn.not_waiting hl hids hmem)
  | ready tq a t b hl hb ht =>
    have hready : t ∈ (w.tqueues tq).firstBg := hb ▸ List.mem_append_right _ List.mem_cons_self
    have hids : id ∈ (w.tqueues tq).taskIds := id_of_suspendedAs ht ▸ mem_taskIds_of_ready hready
    cases h' with
    | waiting a' t' b' hw' ht' =>
      have hmem : t' ∈ w.waiting := hw' ▸ List.mem_append_right _ List.mem_cons_self
      exact absurd (id_of_suspendedAs ht') (hn.not_waiting hl hids hmem)
    | ready tq' a' t' b' hl' hb' ht' =>
      have hready' : t' ∈ (w.tqueues tq').firstBg :=
        hb' ▸ List.mem_append_right _ List.mem_cons_self
      have hids' : id ∈ (w.tqueues tq').taskIds :=
        id_of_suspendedAs ht' ▸ mem_taskIds_of_ready hready'
      obtain rfl := hn.queue_unique hl hl' hids hids'
      obtain ⟨rfl, rfl, rfl⟩ := split_unique (hn.firstBg_nodup hl) hb hb'
        ((id_of_suspendedAs ht).trans (id_of_suspendedAs ht').symm)
      exact ⟨rfl, rfl⟩

theorem setValue_split (hnd : ((a ++ t :: b).map BgTask.id).Nodup) (ht : suspendedAs id t = true)
    (value : Var) :
    setValue id value (a ++ t :: b) = a ++ { t with value := value } :: b := by
  induction a with
  | nil => rw [List.nil_append, setValue, if_pos ht, List.nil_append]
  | cons u a ih =>
    rw [List.cons_append, List.map_cons, List.nodup_cons] at hnd
    have hu : ¬ suspendedAs id u = true := by
      intro hu
      refine hnd.1 ?_
      rw [id_of_suspendedAs hu, ← id_of_suspendedAs ht]
      exact List.mem_map_of_mem (List.mem_append_right _ List.mem_cons_self)
    rw [List.cons_append, setValue, if_neg hu, ih hnd.2, List.cons_append]

theorem doResume_waiting (hn : Numbered w) (hw : w.waiting = a ++ t :: b)
    (ht : suspendedAs id t = true) (value : Var) (now : Int)
    (progr : Objid) (wizard : Bool) : w.doResume id value progr wizard now =
      if wizard = true ∨ progr = t.progr then
        (.E_NONE, ({ (w.findTqueue t.progr).2 with waiting := a ++ b }.ensureUsage
          (w.findTqueue t.progr).1).enqueueBgTask
          (w.findTqueue t.progr).1 { t with startTv := now, value := value })
      else (.E_PERM, w) := by
  obtain ⟨hfind, herase⟩ := find_split hn.waiting_nodup hw ht fun u hu =>
    (id_of_suspendedAs hu).trans (id_of_suspendedAs ht).symm
  rw [doResume, hfind]
  dsimp only
  by_cases hgrant : wizard = true ∨ progr = t.progr
  · rw [if_pos hgrant, if_neg (by rcases hgrant with rfl | rfl <;> simp),
      findTqueue_waiting, herase]
  · rw [if_neg hgrant, if_pos]
    rw [not_or] at hgrant
    simpa using hgrant

/-- Without a task that waits, `do_resume` looks at the active queues. -/
theorem doResume_queue (hw : ∀ u ∈ w.waiting, ¬ suspendedAs id u = true) (value : Var) (now : Int)
    (progr : Objid) (wizard : Bool) :
    w.doResume id value progr wizard now =
      match w.active.find? fun tq => (w.tqueues tq).firstBg.any (suspendedAs id) with
      | none => (.E_INVARG, w)
      | some tq =>
        if wizard = true ∨ progr = (w.tqueues tq).player then
          (.E_NONE, w.modify tq fun q => { q with firstBg := setValue id value q.firstBg })
        else (.E_PERM, w) := by
  rw [doResume, List.find?_eq_none.mpr hw]
  cases hh : w.active.find? fun tq => (w.tqueues tq).firstBg.any (suspendedAs id) with
  | none => dsimp only
  | some tq =>
    dsimp only
    by_cases hgrant : wizard = true ∨ progr = (w.tqueues tq).player
    · rw [if_pos hgrant, if_neg (by rcases hgrant with rfl | rfl <;> simp)]
    · rw [if_neg hgrant, if_pos]
      rw [not_or] at hgrant
      simpa using hgrant

theorem doResume_ready (hn : Numbered w) (ha : tq ∈ w.active)
    (hb : (w.tqueues tq).firstBg = a ++ t :: b)
    (ht : suspendedAs id t = true) (value : Var) (now : Int) (progr : Objid) (wizard : Bool) :
    w.doResume id value progr wizard now =
      if wizard = true ∨ progr = (w.tqueues tq).player then
        (.E_NONE, w.modify tq fun q => { q with firstBg := a ++ { t with value := value } :: b })
      else (.E_PERM, w) := by
  have hl : w.Live tq := List.mem_append_left _ ha
  have hready : t ∈ (w.tqueues tq).firstBg := hb ▸ List.mem_append_right _ List.mem_cons_self
  have hids : id ∈ (w.tqueues tq).taskIds := id_of_suspendedAs ht ▸ mem_taskIds_of_ready hready
  have hset := setValue_split (hb ▸ hn.firstBg_nodup hl) ht value
  have hfind : (w.active.find? fun tq => (w.tqueues tq).firstBg.any (suspendedAs id)) =
      some tq := by
    have hsome : (w.active.find? fun tq => (w.tqueues tq).firstBg.any (suspendedAs id)).isSome := by
      rw [List.find?_isSome]
      exact ⟨tq, ha, List.any_eq_true.mpr ⟨t, hready, ht⟩⟩
    obtain ⟨tq', htq⟩ := Option.isSome_iff_exists.mp hsome
    have hany := List.find?_some htq
    obtain ⟨t', hready', ht'⟩ := List.any_eq_true.mp hany
    have hl' : w.Live tq' := List.mem_append_left _ (List.mem_of_find?_eq_some htq)
    rw [htq,
      (hn.ready_unique hl hl' hready hready'
        ((id_of_suspendedAs ht').trans (id_of_suspendedAs ht).symm)).1]
  rw [doResume_queue (fun u hu hsus => hn.not_waiting hl hids hu (id_of_suspendedAs hsus)), hfind]
  unfold modify
  dsimp only
  rw [hb, hset]

theorem doResume_unreached (h : ∀ who, ¬ ReachedSuspended w id who) (value : Var) (now : Int)
    (progr : Objid) (wizard : Bool) :
    w.doResume id value progr wizard now = (.E_INVARG, w) := by
  rw [doResume_queue fun u hu hsus => h u.progr (.waiting u hu hsus rfl)]
  cases hh : w.active.find? fun tq => (w.tqueues tq).firstBg.any (suspendedAs id) with
  | none => rfl
  | some tq =>
    have hany := List.find?_some hh
    obtain ⟨t, ht, hsus⟩ := List.any_eq_true.mp hany
    exact absurd (.ready tq t (List.mem_of_find?_eq_some hh) ht hsus rfl) (h (w.tqueues tq).player)

theorem ReachedSuspended.doResume_eq (hn : Numbered w) (h : ReachedSuspended w id who)
    (value : Var) (now : Int) :
    ∃ w', ∀ progr wizard, w.doResume id value progr wizard now =
      if wizard = true ∨ progr = who then (.E_NONE, w') else (.E_PERM, w) := by
  cases h with
  | waiting t hmem ht hp =>
    obtain ⟨a, b, hw⟩ := List.append_of_mem hmem
    subst hp
    exact ⟨_, doResume_waiting hn hw ht value now⟩
  | ready tq t ha hmem ht hp =>
    obtain ⟨a, b, hb⟩ := List.append_of_mem hmem
    subst hp
    exact ⟨_, doResume_ready hn ha hb ht value now⟩

/-! ## The built-ins -/

theorem readyAt_of_none {p : BgTask → Bool} (h : ∀ tq t, w.Live tq →
    t ∈ (w.tqueues tq).firstBg → ¬ p t = true) :
    w.ReadyAt p progr wizard := fun tq t hl ht hp => absurd hp (h tq t hl ht)

theorem readyAt_iff {p : BgTask → Bool} (hn : Numbered w) (hl : w.Live tq)
    (ht : t ∈ (w.tqueues tq).firstBg) (hp : p t = true)
    (hid : ∀ u, p u = true → u.id = t.id) : w.ReadyAt p progr wizard ↔
      (tq ∈ w.active ∧ (wizard = true ∨ progr = (w.tqueues tq).player) ↔
        wizard = true ∨ progr = t.progr) := by
  refine ⟨fun h => h tq t hl ht hp, fun h tq' t' hl' ht' hp' => ?_⟩
  obtain ⟨rfl, rfl⟩ := hn.ready_unique hl hl' ht ht' (hid t' hp')
  exact h

/-- What `bf_kill_task` makes of an answer when the number is not that of the current task. -/
def answer (r : ErrCode × Tasks) : Package × Tasks :=
  (if r.1 ≠ .E_NONE then .error r.1 else .noVar, r.2)

theorem answer_ite (c : Prop) [Decidable c] :
    answer (if c then (.E_NONE, w') else (.E_PERM, w)) = if c then (.noVar, w')
      else (.error .E_PERM, w) := by
  split <;> rfl

theorem killTask_currentTaskId (w : Tasks) (id : Int) (progr : Objid) (wizard : Bool) :
    (w.killTask id progr wizard).2.currentTaskId = w.currentTaskId := by
  unfold killTask
  split
  · rfl
  · split
    · split
      · rfl
      · dsimp only
        split <;> rfl
    · split
      · rfl
      · split
        · rfl
        · split <;> rfl

theorem bfKillTask_eq (hid : int32 n ≠ w.currentTaskId) (progr : Objid) (wizard : Bool) :
    w.bfKillTask n progr wizard = answer (w.killTask (int32 n) progr wizard) := by
  rw [bfKillTask]
  dsimp only
  rw [killTask_currentTaskId, if_neg hid]
  rfl

theorem bfKillTask_current (hid : int32 n = w.currentTaskId) (progr : Objid) (wizard : Bool) :
    w.bfKillTask n progr wizard = (.kill, w) := by
  rw [bfKillTask, killTask, if_pos hid]
  dsimp only
  rw [if_neg (fun h => h rfl), if_pos hid]

theorem bfResume_eq (n : Int) (value : Option Var) (progr : Objid) (wizard : Bool) (now : Int) :
    w.bfResume n value progr wizard now =
      answer (w.doResume (int32 n) (value.getD (.int 0)) progr wizard now) := rfl

/-- A number that no task has, but whose `int` one may have. -/
theorem unnamed_iff {reached : Objid → Prop} (hnone : ∀ o v, ¬ request o v)
    (hreached : ∀ who, reached who → ∃ w', r = if wizard = true ∨ progr = who then (.noVar, w')
      else (.error .E_PERM, w))
    (hun : (∀ who, ¬ reached who) → r = (.error .E_INVARG, w)) :
    w.Authorised request progr wizard r ↔ ∀ who, reached who → ¬ (wizard = true ∨ progr = who) := by
  rw [authorised_none hnone]
  constructor
  · rintro ⟨herr, -⟩ who hwho hgrant
    obtain ⟨w', hr⟩ := hreached who hwho
    rw [hr, if_pos hgrant] at herr
    rcases herr with herr | herr <;> cases herr
  · intro hnot
    by_cases hex : ∃ who, reached who
    · obtain ⟨who, hwho⟩ := hex
      obtain ⟨w', hr⟩ := hreached who hwho
      rw [hr, if_neg (hnot who hwho)]
      exact ⟨.inl rfl, rfl⟩
    · rw [hun (not_exists.mp hex)]
      exact ⟨.inr rfl, rfl⟩

theorem Kills.mem (h : Kills w id owner w') : id ∈ w.taskIds := by
  cases h with
  | waiting a t b hw ht =>
    refine List.mem_append_left _ (List.mem_map.mpr ⟨t, ?_, ht⟩)
    exact hw ▸ List.mem_append_right _ List.mem_cons_self
  | reading tq hl hr =>
    exact List.mem_append_right _ (List.mem_flatMap.mpr ⟨tq, hl, mem_taskIds_of_reading hr⟩)
  | ready tq a t b hl hb ht =>
    refine List.mem_append_right _ (List.mem_flatMap.mpr ⟨tq, hl, ?_⟩)
    exact ht ▸ mem_taskIds_of_ready (hb ▸ List.mem_append_right _ List.mem_cons_self)

theorem MakesReady.mem (h : MakesReady w id value now owner w') : id ∈ w.taskIds := by
  cases h with
  | waiting a t b hw ht =>
    refine List.mem_append_left _ (List.mem_map.mpr ⟨t, ?_, id_of_suspendedAs ht⟩)
    exact hw ▸ List.mem_append_right _ List.mem_cons_self
  | ready tq a t b hl hb ht =>
    refine List.mem_append_right _ (List.mem_flatMap.mpr ⟨tq, hl, ?_⟩)
    exact id_of_suspendedAs ht ▸
      mem_taskIds_of_ready (hb ▸ List.mem_append_right _ List.mem_cons_self)

theorem Reached.kills (h : Reached w id who) : ∃ owner w', Kills w id owner w' := by
  cases h with
  | waiting t hmem ht _ =>
    obtain ⟨a, b, hw⟩ := List.append_of_mem hmem
    exact ⟨_, _, .waiting a t b hw ht⟩
  | reading tq hl hr _ => exact ⟨_, _, .reading tq hl hr⟩
  | ready tq t ha hmem ht _ =>
    obtain ⟨a, b, hb⟩ := List.append_of_mem hmem
    exact ⟨_, _, .ready tq a t b (List.mem_append_left _ ha) hb ht⟩

theorem ReachedSuspended.makesReady (h : ReachedSuspended w id who) (value : Var) (now : Int) :
    ∃ owner w', MakesReady w id value now owner w' := by
  cases h with
  | waiting t hmem ht _ =>
    obtain ⟨a, b, hw⟩ := List.append_of_mem hmem
    exact ⟨_, _, .waiting a t b hw ht⟩
  | ready tq t ha hmem ht _ =>
    obtain ⟨a, b, hb⟩ := List.append_of_mem hmem
    exact ⟨_, _, .ready tq a t b (List.mem_append_left _ ha) hb ht⟩

theorem authorised_kills_iff (hn : Numbered w) (hid : id ≠ w.currentTaskId)
    (hr : r = answer (w.killTask id progr wizard)) :
    w.Authorised (w.Kills id) progr wizard r ↔ w.ReadyAt (fun t => t.id = id) progr wizard := by
  by_cases hex : ∃ owner w', Kills w id owner w'
  · obtain ⟨owner, w', hk⟩ := hex
    have hu : ∀ o v, Kills w id o v → o = owner ∧ v = w' := fun o v ho => Kills.unique hn ho hk
    cases hk with
    | waiting a t b hw ht =>
      have hmem : t ∈ w.waiting := hw ▸ List.mem_append_right _ List.mem_cons_self
      rw [killTask_waiting hn hid hw ht, answer_ite] at hr
      rw [authorised_reached (.waiting a t b hw ht) hu hr]
      refine iff_of_true Iff.rfl (readyAt_of_none fun tq u hl hready hp => ?_)
      obtain rfl : u.id = id := by simpa using hp
      exact hn.not_waiting hl (mem_taskIds_of_ready hready) hmem ht
    | reading tq hl hread =>
      rw [killTask_reading hn hid hl hread, answer_ite] at hr
      rw [authorised_reached (.reading tq hl hread) hu hr]
      refine iff_of_true Iff.rfl (readyAt_of_none fun tq' u hl' hready hp => ?_)
      obtain rfl : u.id = id := by simpa using hp
      obtain rfl :=
        hn.queue_unique hl hl' (mem_taskIds_of_reading hread) (mem_taskIds_of_ready hready)
      exact hn.not_reading hl hready hread
    | ready tq a t b hl hb ht =>
      have hready : t ∈ (w.tqueues tq).firstBg := hb ▸ List.mem_append_right _ List.mem_cons_self
      have hp : decide (t.id = id) = true := by simpa using ht
      rw [readyAt_iff hn hl hready hp fun u hu => (by simpa using hu : u.id = id).trans ht.symm]
      by_cases ha : tq ∈ w.active
      · rw [killTask_ready hn hid ha hb ht, answer_ite] at hr
        rw [authorised_reached (.ready tq a t b hl hb ht) hu hr, and_iff_right ha]
      · have hnot : ∀ who, ¬ Reached w id who := by
          intro who hwho
          cases hwho with
          | waiting t' hmem' ht' _ =>
            exact hn.not_waiting hl (ht ▸ mem_taskIds_of_ready hready) hmem' ht'
          | reading tq' hl' hr' _ =>
            obtain rfl := hn.queue_unique hl hl' (ht ▸ mem_taskIds_of_ready hready)
              (mem_taskIds_of_reading hr')
            exact hn.not_reading hl hready (ht ▸ hr')
          | ready tq' t' ha' hmem' ht' _ =>
            have hl' : w.Live tq' := List.mem_append_left _ ha'
            exact ha ((hn.ready_unique hl hl' hready hmem' (ht'.trans ht.symm)).1 ▸ ha')
        rw [killTask_unreached hid hnot] at hr
        rw [authorised_unreached (.ready tq a t b hl hb ht) hu hr]
        exact ⟨fun hgrant => iff_of_false (fun h => ha h.1) hgrant,
          fun hiff hgrant => ha (hiff.mpr hgrant).1⟩
  · have hnone : ∀ o v, ¬ Kills w id o v := fun o v ho => hex ⟨o, v, ho⟩
    have hun : w.killTask id progr wizard = (.E_INVARG, w) :=
      killTask_unreached hid (fun who hwho => hwho.kills.elim fun o ho =>
        ho.elim (hnone o)) progr wizard
    rw [authorised_none hnone, hr, hun]
    refine iff_of_true ⟨.inr rfl, rfl⟩ (readyAt_of_none fun tq t hl hready hp => ?_)
    obtain ⟨a, b, hb⟩ := List.append_of_mem hready
    exact hnone _ _ (.ready tq a t b hl hb (by simpa using hp))

theorem authorised_makesReady_iff (hn : Numbered w)
    (hr : r = answer (w.doResume id value progr wizard now)) :
    w.Authorised (w.MakesReady id value now) progr wizard r ↔
    w.ReadyAt (suspendedAs id) progr wizard := by
  by_cases hex : ∃ owner w', MakesReady w id value now owner w'
  · obtain ⟨owner, w', hk⟩ := hex
    have hu : ∀ o v, MakesReady w id value now o v → o = owner ∧ v = w' :=
      fun o v ho => MakesReady.unique hn ho hk
    cases hk with
    | waiting a t b hw ht =>
      have hmem : t ∈ w.waiting := hw ▸ List.mem_append_right _ List.mem_cons_self
      rw [doResume_waiting hn hw ht, answer_ite] at hr
      rw [authorised_reached (.waiting a t b hw ht) hu hr]
      refine iff_of_true Iff.rfl (readyAt_of_none fun tq u hl hready hp => ?_)
      refine hn.not_waiting hl (mem_taskIds_of_ready hready) hmem ?_
      exact (id_of_suspendedAs ht).trans (id_of_suspendedAs hp).symm
    | ready tq a t b hl hb ht =>
      have hready : t ∈ (w.tqueues tq).firstBg := hb ▸ List.mem_append_right _ List.mem_cons_self
      have hids : id ∈ (w.tqueues tq).taskIds := id_of_suspendedAs ht ▸ mem_taskIds_of_ready hready
      rw [readyAt_iff hn hl hready ht fun u hu => (id_of_suspendedAs hu).trans
        (id_of_suspendedAs ht).symm]
      by_cases ha : tq ∈ w.active
      · rw [doResume_ready hn ha hb ht, answer_ite] at hr
        rw [authorised_reached (.ready tq a t b hl hb ht) hu hr, and_iff_right ha]
      · have hnot : ∀ who, ¬ ReachedSuspended w id who := by
          intro who hwho
          cases hwho with
          | waiting t' hmem' ht' _ => exact hn.not_waiting hl hids hmem' (id_of_suspendedAs ht')
          | ready tq' t' ha' hmem' ht' _ =>
            have hl' : w.Live tq' := List.mem_append_left _ ha'
            have heq := hn.ready_unique hl hl' hready hmem'
              ((id_of_suspendedAs ht').trans (id_of_suspendedAs ht).symm)
            exact ha (heq.1 ▸ ha')
        rw [doResume_unreached hnot] at hr
        rw [authorised_unreached (.ready tq a t b hl hb ht) hu hr]
        exact ⟨fun hgrant => iff_of_false (fun h => ha h.1) hgrant,
          fun hiff hgrant => ha (hiff.mpr hgrant).1⟩
  · have hnone : ∀ o v, ¬ MakesReady w id value now o v := fun o v ho => hex ⟨o, v, ho⟩
    have hun : w.doResume id value progr wizard now = (.E_INVARG, w) :=
      doResume_unreached (fun who hwho => (hwho.makesReady value now).elim fun o ho =>
        ho.elim (hnone o)) value now progr wizard
    rw [authorised_none hnone, hr, hun]
    refine iff_of_true ⟨.inr rfl, rfl⟩ (readyAt_of_none fun tq t hl hready hp => ?_)
    obtain ⟨a, b, hb⟩ := List.append_of_mem hready
    exact hnone _ _ (.ready tq a t b hl hb hp)

/-- Task 7 of programmer 5 is suspended. -/
def oneSuspended : Tasks :=
  { empty with waiting := [{ kind := .TASK_SUSPENDED, id := 7, progr := 5, startTv := 0,
                             value := .int 0 }] }

/-- The number is told apart from all others if it is an `int`, and a task that is ready is compared
with its programmer if it is on an active queue that is his. -/
theorem kill_resume_exact_iff (w : Tasks) (hn : Numbered w) (n : Int) (progr : Objid)
    (wizard : Bool) :
    (w.KillsExactly n progr wizard (w.bfKillTask n progr wizard) ↔
      if n = int32 n then n = w.currentTaskId ∨ w.ReadyAt (fun t => t.id = n) progr wizard
      else int32 n ≠ w.currentTaskId ∧ ∀ who, Reached w (int32 n) who →
      ¬ (wizard = true ∨ progr = who)) ∧
    ∀ value now, w.ResumesExactly n (value.getD (.int 0)) progr wizard now (w.bfResume n value
      progr wizard now) ↔
      if n = int32 n then w.ReadyAt (suspendedAs n) progr wizard
      else ∀ who, ReachedSuspended w (int32 n) who → ¬ (wizard = true ∨ progr = who) := by
  by_cases hint : n = int32 n
  · rw [if_pos hint]
    constructor
    · by_cases hcur : n = w.currentTaskId
      · rw [KillsExactly, if_pos hcur, bfKillTask_current (hint ▸ hcur)]
        exact iff_of_true rfl (.inl hcur)
      · rw [KillsExactly, if_neg hcur, or_iff_right hcur, bfKillTask_eq (hint ▸ hcur), ← hint]
        exact authorised_kills_iff hn hcur rfl
    · intro value now
      rw [if_pos hint, ResumesExactly, bfResume_eq, ← hint]
      exact authorised_makesReady_iff hn rfl
  · have hnot : n ∉ w.currentTaskId :: w.taskIds := fun hmem => hint (hn.int n hmem).symm
    rw [List.mem_cons, not_or] at hnot
    rw [if_neg hint]
    constructor
    · rw [KillsExactly, if_neg hnot.1]
      by_cases hcur : int32 n = w.currentTaskId
      · rw [bfKillTask_current hcur, authorised_none fun o v ho => hnot.2 (Kills.mem ho)]
        exact iff_of_false (fun h => h.1.elim nofun nofun) fun h => h.1 hcur
      · rw [and_iff_right hcur, bfKillTask_eq hcur]
        refine unnamed_iff (fun o v ho => hnot.2 ho.mem) (fun who hwho => ?_) fun hno => ?_
        · obtain ⟨w', h⟩ := hwho.killTask_eq hn hcur
          exact ⟨w', by rw [h, answer_ite]⟩
        · rw [killTask_unreached hcur hno]
          rfl
    · intro value now
      rw [if_neg hint, ResumesExactly, bfResume_eq]
      refine unnamed_iff (fun o v ho => hnot.2 ho.mem) (fun who hwho => ?_) fun hno => ?_
      · obtain ⟨w', h⟩ := hwho.doResume_eq hn (value.getD (.int 0)) now
        exact ⟨w', by rw [h, answer_ite]⟩
      · rw [doResume_unreached hno]
        rfl

/-- Besides task 7 task 8 of the same programmer is ready on his queue, and task 9 reads from a
connection of 6. -/
def busy : Tasks :=
  { oneSuspended with
    tqueues := fun tq => if tq = 0 then
        { TQueue.create 5 with
          firstBg :=
            [{ kind := .TASK_SUSPENDED, id := 8, progr := 5, startTv := 0, value := .int 0 }],
              usage := 0, numBgTasks := 2 }
      else { TQueue.create 6 with reading := some 9 }
    active := [0]
    idle := [1]
    fresh := 2 }

theorem busy_numbered : Numbered busy where
  distinct := by decide
  int := by decide

/-- The task that is ready is on the queue of its programmer. -/
theorem busy_readyAt (p : BgTask → Bool) (progr : Objid) (wizard : Bool) :
    busy.ReadyAt p progr wizard := by
  intro tq t hl ht _
  obtain rfl | rfl : tq = 0 ∨ tq = 1 := by simpa [busy, Live] using hl
  · obtain rfl := List.mem_singleton.mp ht
    exact and_iff_right List.mem_cons_self
  · exact absurd ht List.not_mem_nil

theorem kill_resume_busy :
    busy.KillsExactly 7 5 false (busy.bfKillTask 7 5 false) ∧
      busy.KillsExactly 8 5 false (busy.bfKillTask 8 5 false) ∧
      busy.KillsExactly 9 6 false (busy.bfKillTask 9 6 false) ∧
      busy.ResumesExactly 8 (.int 3) 5 false 1 (busy.bfResume 8 (some (.int 3)) 5 false 1) := by
  have h₇ := (kill_resume_exact_iff busy busy_numbered 7 5 false).1
  have h₈ := kill_resume_exact_iff busy busy_numbered 8 5 false
  have h₉ := (kill_resume_exact_iff busy busy_numbered 9 6 false).1
  rw [if_pos (by decide)] at h₇ h₉
  rw [if_pos (by decide), if_pos (by decide)] at h₈
  exact ⟨h₇.mpr (.inr (busy_readyAt _ _ _)), h₈.1.mpr (.inr (busy_readyAt _ _ _)),
    h₉.mpr (.inr (busy_readyAt _ _ _)),
    (h₈.2 (some (.int 3)) 1).mpr (busy_readyAt _ _ _)⟩

/-- The upper half of the number is not looked at. -/
theorem kill_other_task :
    (oneSuspended.bfKillTask (2 ^ 32 + 7) 5 false).2.waiting = [] ∧
      ¬ oneSuspended.KillsExactly (2 ^ 32 + 7) 5 false
        (oneSuspended.bfKillTask (2 ^ 32 + 7) 5 false) := by
  refine ⟨by decide, fun h => ?_⟩
  rw [KillsExactly, if_neg (by decide)] at h
  have hnone : ∀ o v, ¬ Kills oneSuspended (2 ^ 32 + 7) o v :=
    fun o v ho => absurd ho.mem (by decide)
  have herr := (h.2 fun o v ho => absurd ho (hnone o v)).1
  exact absurd herr (by decide)

end Tasks
end Task
end NuMoo
