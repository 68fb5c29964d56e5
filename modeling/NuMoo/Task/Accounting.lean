import NuMoo.Task.Activation

/-!
# Accounting of background tasks

`num_bg_tasks` counts the tasks of a player, "in either here or waiting_tasks": those in
the list of the player's queue and those that wait. `check_user_task_limit` compares it
with the quota, and a queue is freed only when it is zero. `resume_task` links a task
without counting it.

Results:
1. `run_accounted`: the count is right after every run in which `resume_task` is not called.
2. `resume_uncounted`: `resume_task` leaves the count behind.
-/

namespace NuMoo
namespace Task

/-- `resume_task` is the one operation that does not count its task. -/
def TaskOp.counts : TaskOp → Bool
  | .resumeTask .. => false
  | _ => true

/-- A step in which `resume_task` is not called. -/
def ServerOp.counts : ServerOp → Bool
  | .op o => o.counts
  | .runReadyTasks _ s => s.ops.all TaskOp.counts && s.connect.all TaskOp.counts

namespace Tasks

variable {w w' : Tasks} {tq j : Nat} {f : TQueue → TQueue} {player : Objid} {l l' : List BgTask}

/-- The tasks of a programmer in a list. -/
def queued (player : Objid) (l : List BgTask) : Nat := l.countP fun t => t.progr = player

@[simp] theorem queued_nil (player : Objid) : queued player [] = 0 := rfl

theorem queued_cons (player : Objid) (t : BgTask) (l : List BgTask) :
    queued player (t :: l) = queued player l + if t.progr = player then 1 else 0 := by
  simp [queued, List.countP_cons]

/-- The queues account for the waiting tasks `l`. A queue whose player is `NOTHING` is about to be
freed. -/
structure Accounted (w : Tasks) (l : List BgTask) : Prop where
  distinct : ∀ i j, w.Live i → w.Live j → (w.tqueues i).player = (w.tqueues j).player →
    (w.tqueues i).player ≠ NOTHING → i = j
  count : ∀ j, w.Live j → (w.tqueues j).player ≠ NOTHING →
    (w.tqueues j).numBgTasks = (w.tqueues j).firstBg.length + queued (w.tqueues j).player l
  covered : ∀ t ∈ l, t.progr ≠ NOTHING → ∃ j, w.Live j ∧ (w.tqueues j).player = t.progr
  connected : ∀ j, w.Live j → (w.tqueues j).connected → (w.tqueues j).player ≠ NOTHING
  next : w.nextUnconnectedPlayer < NOTHING

theorem empty_accounted : Accounted empty [] :=
  ⟨fun _ _ hi => absurd hi (by simp [Live, empty]), fun _ hj => absurd hj (by simp [Live, empty]),
    fun _ ht => absurd ht (by simp), fun _ hj => absurd hj (by simp [Live, empty]), by decide⟩

/-- Two states of a queue that count the same tasks of the same player. -/
structure SameAccount (q q' : TQueue) : Prop where
  player : q'.player = q.player
  count : q'.numBgTasks = q.numBgTasks
  length : q'.firstBg.length = q.firstBg.length
  connected : q'.connected = true → q.connected = true

/-- Programmers without a queue have nothing waiting. -/
theorem Accounted.queued_eq_zero (h : Accounted w l) (hp : player ≠ NOTHING)
    (hn : ∀ j, w.Live j → (w.tqueues j).player ≠ player) : queued player l = 0 := by
  unfold queued
  rw [List.countP_eq_zero]
  intro t ht he
  obtain rfl : t.progr = player := by simpa using he
  obtain ⟨j, hj, hjp⟩ := h.covered t ht hp
  exact hn j hj hjp

/-- Tasks of one programmer, `player`, are added or taken, and the queue of that programmer
follows. -/
theorem Accounted.change (h : Accounted w l) (player : Objid) (hl : ∀ j, w'.Live j ↔ w.Live j)
    (hp : ∀ j, w.Live j → (w'.tqueues j).player = (w.tqueues j).player)
    (hc : ∀ j, w.Live j → (w'.tqueues j).connected = true → (w.tqueues j).player ≠ NOTHING)
    (hne : ∀ j, w.Live j → (w.tqueues j).player ≠ player → SameAccount (w.tqueues j) (w'.tqueues j))
    (hself : player ≠ NOTHING → ∀ j, w.Live j → (w.tqueues j).player = player →
      (w'.tqueues j).numBgTasks = (w'.tqueues j).firstBg.length + queued player l')
    (hcount : ∀ p, p ≠ player → queued p l' = queued p l)
    (hcov : player ≠ NOTHING → ∃ j, w.Live j ∧ (w.tqueues j).player = player)
    (hnext : w'.nextUnconnectedPlayer = w.nextUnconnectedPlayer) : Accounted w' l' := by
  refine ⟨fun i j hi hj he hn => ?_, fun j hj hn => ?_, fun t ht hn => ?_, fun j hj hcon => ?_,
    by rw [hnext]; exact h.next⟩
  · rw [hl] at hi hj
    rw [hp i hi, hp j hj] at he
    rw [hp i hi] at hn
    exact h.distinct i j hi hj he hn
  · rw [hl] at hj
    rw [hp j hj] at hn ⊢
    by_cases hjp : (w.tqueues j).player = player
    · rw [hjp]
      exact hself (hjp ▸ hn) j hj hjp
    · have hs := hne j hj hjp
      rw [hs.count, hs.length, hcount _ hjp]
      exact h.count j hj hn
  · by_cases htp : t.progr = player
    · obtain ⟨j, hj, hjp⟩ := hcov (htp ▸ hn)
      exact ⟨j, (hl j).mpr hj, by rw [hp j hj, hjp, htp]⟩
    · -- a task of another programmer was waiting before
      have hpos : 0 < queued t.progr l := by
        rw [← hcount _ htp]
        exact List.countP_pos_iff.mpr ⟨t, ht, by simp⟩
      obtain ⟨u, hu, he⟩ := List.countP_pos_iff.mp hpos
      have hut : u.progr = t.progr := by simpa using he
      obtain ⟨j, hj, hjp⟩ := h.covered u hu (hut ▸ hn)
      exact ⟨j, (hl j).mpr hj, by rw [hp j hj, hjp, hut]⟩
  · rw [hl] at hj
    rw [hp j hj]
    exact hc j hj hcon

/-- What does not touch the accounts. -/
theorem Accounted.congr (h : Accounted w l) (hl : ∀ j, w'.Live j ↔ w.Live j)
    (hs : ∀ j, w.Live j → SameAccount (w.tqueues j) (w'.tqueues j))
    (hnext : w'.nextUnconnectedPlayer = w.nextUnconnectedPlayer) : Accounted w' l := by
  refine h.change NOTHING hl (fun j hj => (hs j hj).player)
    (fun j hj hc => h.connected j hj ((hs j hj).connected hc))
    (fun j hj _ => hs j hj) (fun hn => absurd rfl hn) (fun _ _ => rfl)
      (fun hn => absurd rfl hn) hnext

theorem Accounted.modify (h : Accounted w l) (hf : SameAccount (w.tqueues tq) (f (w.tqueues tq))) :
    Accounted (w.modify tq f) l := by
  refine h.congr (fun _ => .rfl) (fun j _ => ?_) rfl
  by_cases hj : j = tq
  · subst hj
    rw [modify_self]
    exact hf
  · rw [modify_ne hj]
    exact ⟨rfl, rfl, rfl, id⟩

theorem SameTasks.sameAccount {q q' : TQueue} (h : SameTasks q q') : SameAccount q q' := by
  rw [h]
  exact ⟨rfl, rfl, rfl, id⟩

theorem ensureUsage_next (w : Tasks) (tq : Nat) :
    (w.ensureUsage tq).nextUnconnectedPlayer = w.nextUnconnectedPlayer := by
  unfold ensureUsage
  split <;> rfl

theorem Accounted.ensure (h : Accounted w l) (hwf : Wf w) (hl : w.Live tq) :
    Accounted (w.ensureUsage tq) l := by
  have hu := ensureUsage_spec hwf hl
  exact h.congr hu.live (fun j _ => (hu.tqueues j).sameAccount) (ensureUsage_next w tq)

/-- An operation that changes a queue, but not its account, and then may call `ensure_usage`. -/
theorem Accounted.modify_ensure (h : Accounted w l) (hwf : Wf w) (hl : w.Live tq)
    (hu : ∀ q, (f q).usage = q.usage)
    (hf : SameAccount (w.tqueues tq) (f (w.tqueues tq))) (c : Prop) [Decidable c] :
    Accounted (if c then (w.modify tq f).ensureUsage tq else w.modify tq f) l := by
  split
  · exact (h.modify hf).ensure (hwf.modify hu) hl
  · exact h.modify hf

theorem findTqueue_next (w : Tasks) (player : Objid) :
    (w.findTqueue player).2.nextUnconnectedPlayer = w.nextUnconnectedPlayer := by
  unfold findTqueue
  split <;> rfl

/-- A queue is made for a player that had none, and so has nothing waiting. -/
theorem Accounted.found (h : Accounted w l) (hf : Found w w' tq player)
    (hnext : w'.nextUnconnectedPlayer = w.nextUnconnectedPlayer) : Accounted w' l := by
  by_cases hl : w.Live tq
  · rw [hf.old hl]
    exact h
  · obtain ⟨hnone, hnew⟩ := hf.new hl
    have hold : ∀ j, w.Live j → (w.tqueues j).player ≠ player :=
      fun j hj => lookupTqueue_none hnone hj
    have hsame : ∀ j, w.Live j → w'.tqueues j = w.tqueues j := hf.tqueues
    refine ⟨fun i j hi hj he hn => ?_, fun j hj hn => ?_, fun t ht hn => ?_, fun j hj hcon => ?_,
      by rw [hnext]; exact h.next⟩
    · rcases (hf.live i).mp hi with hi | rfl <;> rcases (hf.live j).mp hj with hj | rfl
      · rw [hsame i hi, hsame j hj] at he
        rw [hsame i hi] at hn
        exact h.distinct i j hi hj he hn
      · rw [hsame i hi, hf.player] at he
        exact absurd he (hold i hi)
      · rw [hsame j hj, hf.player] at he
        exact absurd he.symm (hold j hj)
      · rfl
    · rcases (hf.live j).mp hj with hj | rfl
      · rw [hsame j hj] at hn ⊢
        exact h.count j hj hn
      · rw [hnew] at hn ⊢
        have hq : queued player l = 0 := h.queued_eq_zero hn hold
        simp [TQueue.create, hq]
    · obtain ⟨j, hj, hjp⟩ := h.covered t ht hn
      exact ⟨j, (hf.live j).mpr (.inl hj), by rw [hsame j hj]; exact hjp⟩
    · rcases (hf.live j).mp hj with hj | rfl
      · rw [hsame j hj] at hcon ⊢
        exact h.connected j hj hcon
      · rw [hnew] at hcon
        simp [TQueue.create] at hcon

theorem Accounted.findTqueue (h : Accounted w l) (hwf : Wf w) (player : Objid) :
    Accounted (w.findTqueue player).2 l :=
  h.found (findTqueue_spec hwf player) (findTqueue_next w player)

/-- The account of one queue changes with the list of waiting tasks. -/
theorem Accounted.modify_change (h : Accounted w l) (hl : w.Live tq)
    (hp : (f (w.tqueues tq)).player = (w.tqueues tq).player)
    (hc : (f (w.tqueues tq)).connected = true → (w.tqueues tq).player ≠ NOTHING)
    (hcount : ∀ p, p ≠ (w.tqueues tq).player → queued p l' = queued p l)
    (hself : (w.tqueues tq).player ≠ NOTHING →
      (f (w.tqueues tq)).numBgTasks = (f (w.tqueues tq)).firstBg.length +
        queued (w.tqueues tq).player l') :
    Accounted (w.modify tq f) l' := by
  have hother : ∀ j, j ≠ tq → (w.modify tq f).tqueues j = w.tqueues j := fun j hj => modify_ne hj
  refine h.change (w.tqueues tq).player (fun _ => .rfl) (fun j _ => ?_) (fun j hj hcon => ?_)
    (fun j hj hjp => ?_)
    (fun hn j hj hjp => ?_) hcount (fun _ => ⟨tq, hl, rfl⟩) rfl
  · by_cases hjt : j = tq
    · rw [hjt, modify_self, hp]
    · rw [hother j hjt]
  · by_cases hjt : j = tq
    · rw [hjt, modify_self] at hcon
      rw [hjt]
      exact hc hcon
    · rw [hother j hjt] at hcon
      exact h.connected j hj hcon
  · have hjt : j ≠ tq := fun he => hjp (by rw [he])
    rw [hother j hjt]
    exact ⟨rfl, rfl, rfl, id⟩
  · obtain rfl : j = tq := h.distinct j tq hj hl hjp (hjp ▸ hn)
    rw [modify_self]
    exact hself hn

/-- The list of waiting tasks itself is not a queue. -/
theorem Accounted.setWaiting (h : Accounted w l) (x : List BgTask) :
    Accounted { w with waiting := x } l :=
  ⟨h.distinct, h.count, h.covered, h.connected, h.next⟩

theorem queued_insertWaiting (player : Objid) (t : BgTask) (l : List BgTask) :
    queued player (insertWaiting t l) = queued player (t :: l) := by
  induction l with
  | nil => rfl
  | cons u l ih =>
    unfold insertWaiting
    split
    · rfl
    · rw [queued_cons, ih, queued_cons, queued_cons player t, queued_cons]
      omega

/-- A task that is taken out of a list is the first one that is found. -/
theorem queued_eraseP {p : BgTask → Bool} {t : BgTask} (h : l.find? p = some t) (player : Objid) :
    queued player l = queued player (l.eraseP p) + if t.progr = player then 1 else 0 := by
  obtain ⟨hp, m, r, rfl, hm⟩ := List.find?_eq_some_iff_append.mp h
  rw [List.eraseP_append_right _ (by simpa using hm), List.eraseP_cons_of_pos hp]
  simp only [queued, List.countP_append, List.countP_cons, decide_eq_true_eq]
  omega

/-! ## The operations -/

theorem Accounted.enqueueInputTask (h : Accounted w l) (hwf : Wf w) (hl : w.Live tq)
    (t : Nat) (input : Str)
    (atFront binary : Bool) : Accounted (w.enqueueInputTask tq t input atFront binary) l := by
  unfold Tasks.enqueueInputTask
  dsimp only
  exact h.modify_ensure hwf hl (fun _ => by rfl) ⟨rfl, rfl, rfl, id⟩ _

theorem Accounted.freeTaskQueue (h : Accounted w l) (hwf : Wf w) (hl : w.Live tq) :
    Accounted (w.freeTaskQueue tq) l := by
  unfold Tasks.freeTaskQueue
  dsimp only
  exact h.modify_ensure hwf hl (fun _ => by rfl) ⟨rfl, rfl, rfl, fun hc => by simp at hc⟩ _

theorem Accounted.serverNewConnection (h : Accounted w l) (hwf : Wf w) (handler : Objid) :
    Accounted (w.serverNewConnection handler) l := by
  have hp : w.nextUnconnectedPlayer ≠ NOTHING := Int.ne_of_lt h.next
  have hwf' : Wf { w with nextUnconnectedPlayer := w.nextUnconnectedPlayer - 1 } :=
    ⟨hwf.nodup, hwf.idle, hwf.active, hwf.fresh⟩
  have h' : Accounted { w with nextUnconnectedPlayer := w.nextUnconnectedPlayer - 1 } l :=
    ⟨h.distinct, h.count, h.covered, h.connected,
      Int.lt_trans (Int.sub_lt_self _ Int.one_pos) h.next⟩
  have hf := findTqueue_spec hwf' w.nextUnconnectedPlayer
  have hn := h'.findTqueue hwf' w.nextUnconnectedPlayer
  have hlive := findTqueue_live hwf' w.nextUnconnectedPlayer
  dsimp only [Tasks.serverNewConnection, newTaskQueue]
  refine hn.modify_change hlive (by rfl) (fun _ => by rw [hf.player]; exact hp)
    (fun _ _ => rfl) fun hne => ?_
  exact hn.count _ hlive hne

theorem Accounted.dequeueInputTask (h : Accounted w l) (tq : Nat) (how : DequeueHow) :
    Accounted (w.dequeueInputTask tq how).2 l := by
  dsimp only [Tasks.dequeueInputTask]
  exact h.modify ⟨rfl, rfl, rfl, id⟩

theorem Accounted.readInputNow (h : Accounted w l) (connection : Objid) :
    Accounted (w.readInputNow connection).2 l := by
  unfold Tasks.readInputNow
  split
  · exact h
  · next tq _ =>
    have hd := h.dequeueInputTask tq .DQ_INBAND
    split
    · exact h
    · generalize w.dequeueInputTask tq .DQ_INBAND = d at hd ⊢
      obtain ⟨_ | _, w'⟩ := d <;> exact hd

theorem Accounted.makeReadingTask (h : Accounted w l) (hwf : Wf w) (vm : Int) (player : Objid) :
    Accounted (w.makeReadingTask vm player).2 l := by
  unfold Tasks.makeReadingTask
  split
  · exact h
  · next tq hl =>
    dsimp only
    split
    · exact h
    · have hm : Accounted (w.modify tq fun q => { q with reading := some vm }) l :=
        h.modify ⟨rfl, rfl, rfl, id⟩
      dsimp only
      split
      · exact hm
      · exact hm.ensure (hwf.modify fun _ => by rfl) (lookupTqueue_some hl).1

theorem Accounted.enqueueWaiting (h : Accounted w w.waiting) (hwf : Wf w) (t : BgTask) :
    Accounted (w.enqueueWaiting t) (w.enqueueWaiting t).waiting := by
  have hf := findTqueue_spec hwf t.progr
  have hn := h.findTqueue hwf t.progr
  have hlive := findTqueue_live hwf t.progr
  have hw : (w.enqueueWaiting t).waiting = insertWaiting t w.waiting := by
    change insertWaiting t (w.findTqueue t.progr).2.waiting = _
    rw [hf.waiting]
  rw [hw]
  refine Accounted.setWaiting (hn.modify_change hlive rfl (fun hc => hn.connected _ hlive hc)
    (fun p hp => ?_) fun hne => ?_) _
  · rw [hf.player] at hp
    rw [queued_insertWaiting, queued_cons, if_neg fun he => hp he.symm, Nat.add_zero]
  · have hcount := hn.count _ hlive hne
    rw [hf.player] at hcount ⊢
    rw [queued_insertWaiting, queued_cons, if_pos rfl]
    dsimp only
    rw [hcount]
    push_cast
    omega

/-- A task leaves the waiting list for the queue of its programmer. -/
theorem Accounted.ready (h : Accounted w l) (hwf : Wf w) (t t' : BgTask)
    (hq : ∀ p, queued p l = queued p l' + if t.progr = p then 1 else 0) :
    Accounted (((w.findTqueue t.progr).2.ensureUsage (w.findTqueue t.progr).1).enqueueBgTask
      (w.findTqueue t.progr).1 t') l' := by
  have hf := findTqueue_spec hwf t.progr
  have hlive := findTqueue_live hwf t.progr
  have hu := ensureUsage_spec (hf.wf hwf) hlive
  have he := (h.findTqueue hwf t.progr).ensure (hf.wf hwf) hlive
  have hlive' := (hu.live _).mpr hlive
  have hplayer : (((w.findTqueue t.progr).2.ensureUsage (w.findTqueue t.progr).1).tqueues
    (w.findTqueue t.progr).1).player =
      t.progr := by
    rw [(hu.tqueues _).sameAccount.player, hf.player]
  refine he.modify_change hlive' rfl (fun hc => he.connected _ hlive' hc)
    (fun p hp => ?_) fun hne => ?_
  · rw [hplayer] at hp
    rw [hq p, if_neg fun he => hp he.symm, Nat.add_zero]
  · have hcount := he.count _ hlive' hne
    rw [hplayer, hq, if_pos rfl] at hcount
    rw [hplayer]
    simp only [List.length_append, List.length_singleton]
    rw [hcount]
    push_cast
    omega

theorem ensureUsage_setWaiting (w : Tasks) (tq : Nat) (x : List BgTask) :
    ensureUsage { w with waiting := x } tq = { w.ensureUsage tq with waiting := x } := by
  unfold ensureUsage
  split <;> rfl

theorem length_setValue (id : Int) (value : Var) (l : List BgTask) :
    (setValue id value l).length = l.length := by
  induction l with
  | nil => rfl
  | cons t l ih =>
    unfold setValue
    split
    · rfl
    · rw [List.length_cons, ih, List.length_cons]

theorem Accounted.doResume (h : Accounted w w.waiting) (hwf : Wf w) (id : Int) (value : Var)
    (progr : Objid) (wizard : Bool)
    (now : Int) : Accounted (w.doResume id value progr wizard now).2
      (w.doResume id value progr wizard now).2.waiting := by
  unfold Tasks.doResume
  split
  · next t ht =>
    split
    · exact h
    · dsimp only
      rw [ensureUsage_setWaiting, (findTqueue_spec hwf t.progr).waiting]
      have hr := h.ready hwf t { t with startTv := now, value := value }
        fun p => queued_eraseP ht p
      exact hr.setWaiting (w.waiting.eraseP (suspendedAs id))
  · split
    · exact h
    · next tq hl =>
      split
      · exact h
      · dsimp only
        exact h.modify ⟨rfl, rfl, length_setValue _ _ _, fun hc => hc⟩

theorem Accounted.killTask (h : Accounted w w.waiting) (id : Int) (owner : Objid) (wizard : Bool) :
    Accounted (w.killTask id owner wizard).2 (w.killTask id owner wizard).2.waiting := by
  unfold Tasks.killTask
  split
  · exact h
  · split
    · next t ht =>
      have hq := fun p => queued_eraseP ht p
      split
      · exact h
      · dsimp only
        cases hl : w.lookupTqueue t.progr with
        | none =>
          -- every programmer with a waiting task has a queue, so this one is `NOTHING`
          have hp : t.progr = NOTHING := by
            by_contra hne
            obtain ⟨j, hj, hjp⟩ := h.covered t (List.mem_of_find?_eq_some ht) hne
            exact lookupTqueue_none hl hj hjp
          refine Accounted.setWaiting (h.change NOTHING (fun _ => .rfl) (fun _ _ => rfl)
            (fun j hj hc => h.connected j hj hc)
            (fun _ _ _ => ⟨rfl, rfl, rfl, fun hc => hc⟩) (fun hn => absurd rfl hn) (fun p hne => ?_)
              (fun hn => absurd rfl hn) rfl) _
          rw [hq p, if_neg fun he => hne (by rw [← he, hp]), Nat.add_zero]
        | some tq =>
          obtain ⟨hlive, hplayer⟩ := lookupTqueue_some hl
          dsimp only [modify_waiting]
          refine Accounted.setWaiting (h.modify_change hlive (by rfl)
            (fun hc => h.connected _ hlive hc) (fun p hne => ?_)
            fun hne => ?_) _
          · rw [hplayer] at hne
            rw [hq p, if_neg fun he => hne he.symm, Nat.add_zero]
          · have hcount := h.count _ hlive hne
            rw [hplayer, hq, if_pos rfl] at hcount
            rw [hplayer]
            dsimp only
            rw [hcount]
            push_cast
            omega
    · split
      · exact h
      · next tq hl =>
        have hlive : w.Live tq := by
          rcases Option.or_eq_some_iff.mp hl with hl | ⟨_, hl⟩
          · exact List.mem_append_right _ (List.mem_of_find?_eq_some hl)
          · exact List.mem_append_left _ (List.mem_of_find?_eq_some hl)
        split
        · exact h
        · split
          · dsimp only
            exact h.modify ⟨rfl, rfl, rfl, fun hc => hc⟩
          · next hr =>
            -- the queue was found by one of its tasks, which goes
            have hany : ((w.tqueues tq).firstBg.any fun t => t.id = id) = true := by
              rcases Option.or_eq_some_iff.mp hl with hl | ⟨_, hl⟩
              · have := List.find?_some hl
                exact absurd (by simpa using this) hr
              · have := List.find?_some hl
                simpa [hr] using this
            have hlen : ((w.tqueues tq).firstBg.eraseP fun t => t.id = id).length + 1 =
                (w.tqueues tq).firstBg.length := by
              obtain ⟨t, ht, hid⟩ := List.any_eq_true.mp hany
              have hpos := List.length_pos_of_mem ht
              rw [List.length_eraseP_of_mem ht hid]
              omega
            dsimp only
            refine h.modify_change hlive (by rfl) (fun hc => h.connected _ hlive hc)
              (fun _ _ => rfl) fun hne => ?_
            have hcount := h.count _ hlive hne
            dsimp only [modify_waiting]
            rw [hcount, ← hlen]
            push_cast
            omega

theorem Accounted.onLive (h : Accounted w w.waiting) {g : Tasks → Tasks}
    (hg : w.Live tq → Accounted (g w) (g w).waiting) :
    Accounted (w.onLive tq g) (w.onLive tq g).waiting := by
  unfold Tasks.onLive
  split
  · next hl => exact hg hl
  · exact h

@[simp] theorem ensureUsage_waiting (w : Tasks) (tq : Nat) :
    (w.ensureUsage tq).waiting = w.waiting := by
  unfold ensureUsage
  split <;> rfl

theorem ensure_if_waiting (w : Tasks) (tq : Nat) (c : Prop) [Decidable c] :
    (if c then w.ensureUsage tq else w).waiting = w.waiting := by
  split <;> simp

theorem enqueueInputTask_waiting (w : Tasks) (tq t : Nat) (input : Str) (atFront binary : Bool) :
    (w.enqueueInputTask tq t input atFront binary).waiting = w.waiting :=
  ensure_if_waiting _ _ _

theorem freeTaskQueue_waiting (w : Tasks) (tq : Nat) : (w.freeTaskQueue tq).waiting = w.waiting :=
  ensure_if_waiting _ _ _

theorem setHoldInput_waiting (w : Tasks) (tq : Nat) (b : Bool) :
    (w.setHoldInput tq b).waiting = w.waiting :=
  ensure_if_waiting _ _ _

theorem setDisableOob_waiting (w : Tasks) (tq : Nat) (b : Bool) :
    (w.setDisableOob tq b).waiting = w.waiting :=
  ensure_if_waiting _ _ _

theorem readInputNow_waiting (w : Tasks) (connection : Objid) :
    (w.readInputNow connection).2.waiting = w.waiting := by
  unfold Tasks.readInputNow
  split
  · rfl
  · next tq _ =>
    have hd : (w.dequeueInputTask tq .DQ_INBAND).2.waiting = w.waiting := rfl
    split
    · rfl
    · generalize w.dequeueInputTask tq .DQ_INBAND = d at hd ⊢
      obtain ⟨_ | _, w'⟩ := d <;> exact hd

theorem makeReadingTask_waiting (w : Tasks) (vm : Int) (player : Objid) :
    (w.makeReadingTask vm player).2.waiting = w.waiting := by
  unfold Tasks.makeReadingTask
  split
  · rfl
  · dsimp only
    split
    · rfl
    · dsimp only
      split <;> simp

theorem Accounted.op (h : Accounted w w.waiting) (hwf : Wf w) {o : TaskOp} (ho : o.counts) :
    Accounted (w.op o) (w.op o).waiting := by
  cases o with
  | serverNewConnection handler =>
    have hw : (w.serverNewConnection handler).waiting = w.waiting := findTqueue_waiting ..
    dsimp only [Tasks.op]
    rw [hw]
    exact h.serverNewConnection hwf handler
  | freeTaskQueue tq =>
    dsimp only [Tasks.op]
    refine h.onLive fun hl => ?_
    rw [freeTaskQueue_waiting]
    exact h.freeTaskQueue hwf hl
  | enqueueInputTask tq t input atFront binary =>
    dsimp only [Tasks.op]
    refine h.onLive fun hl => ?_
    rw [enqueueInputTask_waiting]
    exact h.enqueueInputTask hwf hl t input atFront binary
  | forceInput conn t input atFront =>
    dsimp only [Tasks.op]
    rw [enqueueInputTask_waiting, findTqueue_waiting]
    exact (h.findTqueue hwf conn).enqueueInputTask ((findTqueue_spec hwf conn).wf hwf)
      (findTqueue_live hwf conn) t input
      atFront false
  | flushInput tq =>
    dsimp only [Tasks.op]
    refine h.onLive fun _ => ?_
    exact h.modify ⟨rfl, rfl, rfl, fun hc => hc⟩
  | flushInputOf conn =>
    dsimp only [Tasks.op, Tasks.flushInput, modify_waiting]
    rw [findTqueue_waiting]
    exact (h.findTqueue hwf conn).modify ⟨rfl, rfl, rfl, fun hc => hc⟩
  | setHoldInput tq b =>
    dsimp only [Tasks.op]
    refine h.onLive fun hl => ?_
    rw [setHoldInput_waiting]
    exact h.modify_ensure hwf hl (fun _ => by rfl) ⟨rfl, rfl, rfl, fun hc => hc⟩ _
  | setDisableOob tq b =>
    dsimp only [Tasks.op]
    refine h.onLive fun hl => ?_
    rw [setDisableOob_waiting]
    exact h.modify_ensure hwf hl (fun _ => by rfl) ⟨rfl, rfl, rfl, fun hc => hc⟩ _
  | readInputNow connection =>
    dsimp only [Tasks.op]
    rw [readInputNow_waiting]
    exact h.readInputNow connection
  | makeReadingTask vm player =>
    dsimp only [Tasks.op]
    rw [makeReadingTask_waiting]
    exact h.makeReadingTask hwf vm player
  | enqueueForkedTask2 id progr startTv property serverOption =>
    dsimp only [Tasks.op, enqueueForkedTask2]
    split
    · exact h.enqueueWaiting hwf _
    · exact h
  | enqueueSuspendedTask id progr startTv property serverOption =>
    dsimp only [Tasks.op, enqueueSuspendedTask]
    split
    · exact h.enqueueWaiting hwf _
    · exact h
  | resumeTask id progr value => simp [TaskOp.counts] at ho
  | doResume id value progr wizard now => exact h.doResume hwf id value progr wizard now
  | killTask id owner wizard => exact h.killTask id owner wizard

theorem Accounted.ops (h : Accounted w w.waiting) (hwf : Wf w) {l : List TaskOp}
    (hl : ∀ o ∈ l, o.counts) :
    Accounted (w.ops l) (w.ops l).waiting := by
  induction l generalizing w with
  | nil => exact h
  | cons o l ih =>
    exact ih (h.op hwf (hl o List.mem_cons_self)) (op_evolves hwf o).wf fun o' ho' =>
      hl o' (List.mem_cons_of_mem _ ho')

/-! ## A login -/

/-- What the loop that moves background tasks does. -/
structure Moved (w w' : Tasks) (src dst : Nat) : Prop where
  ne : ∀ j, j ≠ src → j ≠ dst → w'.tqueues j = w.tqueues j
  emptied : w'.tqueues src =
    { w.tqueues src with firstBg := [],
                         numBgTasks := (w.tqueues src).numBgTasks - (w.tqueues src).firstBg.length }
  filled : w'.tqueues dst =
    { w.tqueues dst with firstBg := (w.tqueues dst).firstBg ++ (w.tqueues src).firstBg }
  idle : w'.idle = w.idle
  active : w'.active = w.active
  waiting : w'.waiting = w.waiting
  next : w'.nextUnconnectedPlayer = w.nextUnconnectedPlayer

theorem moveBgTasks_spec {src dst : Nat} (hne : src ≠ dst) (w : Tasks) :
    Moved w (moveBgTasks src dst (w.tqueues src).firstBg.length w) src dst := by
  generalize hn : (w.tqueues src).firstBg.length = n
  induction n generalizing w with
  | zero =>
    have hb : (w.tqueues src).firstBg = [] := List.length_eq_zero_iff.mp hn
    refine ⟨fun _ _ _ => rfl, ?_, ?_, rfl, rfl, rfl, rfl⟩
    · rw [hb]
      simp only [moveBgTasks, List.length_nil, Int.natCast_zero, Int.sub_zero]
      rw [← hb]
    · rw [hb]
      simp [moveBgTasks]
  | succ n ih =>
    cases hb : (w.tqueues src).firstBg with
    | nil => rw [hb] at hn; simp at hn
    | cons t r =>
      unfold moveBgTasks Tasks.dequeueBgTask
      rw [hb]
      dsimp only
      set w₁ :=
        (w.modify src fun q =>
          { q with firstBg := r, numBgTasks := q.numBgTasks - 1 }).enqueueBgTask dst t with hw₁
      have hsrc : w₁.tqueues src =
          { w.tqueues src with firstBg := r, numBgTasks := (w.tqueues src).numBgTasks - 1 } := by
        rw [hw₁, Tasks.enqueueBgTask, modify_ne hne, modify_self]
      have hdst :
          w₁.tqueues dst = { w.tqueues dst with firstBg := (w.tqueues dst).firstBg ++ [t] } := by
        rw [hw₁, Tasks.enqueueBgTask, modify_self, modify_ne hne.symm]
      have hother : ∀ j, j ≠ src → j ≠ dst → w₁.tqueues j = w.tqueues j := fun j hs hd => by
        rw [hw₁, Tasks.enqueueBgTask, modify_ne hd, modify_ne hs]
      have hlen : r.length = n := by
        rw [hb] at hn
        simpa using hn
      have hm := ih w₁ (by rw [hsrc]; exact hlen)
      refine ⟨fun j hs hd => (hm.ne j hs hd).trans (hother j hs hd), ?_, ?_, hm.idle, hm.active,
        hm.waiting, hm.next⟩
      · rw [hm.emptied, hsrc]
        simp only [TQueue.mk.injEq, and_self, true_and, and_true]
        omega
      · rw [hm.filled, hdst, hsrc]
        simp [hb]

/-- `do_login_task` leaves a connection that had tasks without any, and gives them to a new
queue. -/
theorem keepTasks_spec (hwf : Wf w) (hl : w.Live tq) {oldPlayer : Objid}
    (hnone : w.lookupTqueue oldPlayer = none) :
    (w.tqueues tq).numBgTasks = 0 ∧ w.keepTasks tq oldPlayer = w ∨
      ∃ o, ¬ w.Live o ∧ (∀ j, (w.keepTasks tq oldPlayer).Live j ↔ w.Live j ∨ j = o) ∧
        (w.keepTasks tq oldPlayer).tqueues o =
          { TQueue.create oldPlayer with firstBg := (w.tqueues tq).firstBg,
                                         numBgTasks := (w.tqueues tq).numBgTasks } ∧
        (w.keepTasks tq oldPlayer).tqueues tq =
          { w.tqueues tq with firstBg := [], numBgTasks := 0 } ∧
        (∀ j, w.Live j → j ≠ tq → (w.keepTasks tq oldPlayer).tqueues j = w.tqueues j) ∧
        (w.keepTasks tq oldPlayer).waiting = w.waiting ∧
        (w.keepTasks tq oldPlayer).nextUnconnectedPlayer = w.nextUnconnectedPlayer := by
  by_cases hn : (w.tqueues tq).numBgTasks = 0
  · exact .inl ⟨hn, by rw [keepTasks, if_neg (not_not.mpr hn)]⟩
  · have hf := findTqueue_spec hwf oldPlayer
    have hfn := findTqueue_next w oldPlayer
    have ho : ¬ w.Live (w.findTqueue oldPlayer).1 := by
      intro hlive
      have hp := hf.player
      rw [hf.tqueues _ hlive] at hp
      exact lookupTqueue_none hnone hlive hp
    obtain ⟨_, hnew⟩ := hf.new ho
    unfold keepTasks
    rw [if_pos hn]
    dsimp only
    generalize w.findTqueue oldPlayer = d at hf hfn ho hnew ⊢
    obtain ⟨o, w₁⟩ := d
    dsimp only at hf hfn ho hnew ⊢
    have hto : tq ≠ o := fun he => ho (he ▸ hl)
    have htq₁ := hf.tqueues tq hl
    set w₂ := w₁.modify o fun q => { q with numBgTasks := (w₁.tqueues tq).numBgTasks } with hw₂
    have htq₂ : w₂.tqueues tq = w.tqueues tq := by rw [hw₂, modify_ne hto, htq₁]
    have ho₂ :
        w₂.tqueues o =
          { TQueue.create oldPlayer with numBgTasks := (w.tqueues tq).numBgTasks } := by
      rw [hw₂, modify_self, hnew, htq₁]
    have hm := moveBgTasks_spec hto w₂
    refine .inr ⟨o, ho, fun j => ?_, ?_, ?_, fun j hj hjt => ?_, ?_, ?_⟩
    · rw [← hf.live j]
      unfold Live
      rw [modify_active, modify_idle, hm.active, hm.idle, hw₂, modify_active, modify_idle]
    · rw [modify_ne hto.symm, hm.filled, ho₂, htq₂]
      rfl
    · rw [modify_self, hm.emptied, htq₂]
    · have hjo : j ≠ o := fun he => ho (he ▸ hj)
      rw [modify_ne hjt, hm.ne j hjt hjo, hw₂, modify_ne hjo, hf.tqueues j hj]
    · rw [modify_waiting, hm.waiting, hw₂, modify_waiting, hf.waiting]
    · have : w₂.nextUnconnectedPlayer = w₁.nextUnconnectedPlayer := rfl
      change (moveBgTasks tq o (w₂.tqueues tq).firstBg.length w₂).nextUnconnectedPlayer = _
      rw [hm.next, this, hfn]

/-- `do_login_task` gives the tasks of the player's old queue to the connection. -/
theorem takeOver_spec {deadTq : Nat} (hne : tq ≠ deadTq) (w : Tasks) :
    (∀ j, j ≠ tq → j ≠ deadTq → (w.takeOver tq deadTq).tqueues j = w.tqueues j) ∧
      (w.takeOver tq deadTq).tqueues tq =
        { w.tqueues tq with
          firstBg := (w.tqueues tq).firstBg ++ (w.tqueues deadTq).firstBg, numBgTasks :=
  (w.tqueues deadTq).numBgTasks } ∧
      (w.takeOver tq deadTq).tqueues deadTq =
        { w.tqueues deadTq with input := [], firstBg := [], player := NOTHING, numBgTasks := 0 } ∧
      (∀ j, (w.takeOver tq deadTq).Live j ↔ w.Live j) ∧ (w.takeOver tq deadTq).waiting = w.waiting ∧
      (w.takeOver tq deadTq).nextUnconnectedPlayer = w.nextUnconnectedPlayer := by
  unfold takeOver
  dsimp only [Tasks.flushInput]
  set w₁ := (w.modify tq fun q => { q with numBgTasks := (w.tqueues deadTq).numBgTasks }).modify
    deadTq fun q =>
    { q with input := [] } with hw₁
  have htq : w₁.tqueues tq = { w.tqueues tq with numBgTasks := (w.tqueues deadTq).numBgTasks } := by
    rw [hw₁, modify_ne hne, modify_self]
  have hdead : w₁.tqueues deadTq = { w.tqueues deadTq with input := [] } := by
    rw [hw₁, modify_self, modify_ne hne.symm]
  have hm := moveBgTasks_spec hne.symm w₁
  refine ⟨fun j hjt hjd => ?_, ?_, ?_, fun j => ?_, ?_, ?_⟩
  · rw [modify_ne hjd, hm.ne j hjd hjt, hw₁, modify_ne hjd, modify_ne hjt]
  · rw [modify_ne hne, hm.filled, htq, hdead]
  · rw [modify_self, hm.emptied, hdead]
  · unfold Live
    rw [modify_active, modify_idle, hm.active, hm.idle]
    rfl
  · rw [modify_waiting, hm.waiting]
    rfl
  · change (moveBgTasks deadTq tq (w₁.tqueues deadTq).firstBg.length w₁).nextUnconnectedPlayer = _
    rw [hm.next]
    rfl

/-- Queues may change hands, as long as each account stays with its player. -/
theorem Accounted.recast (h : Accounted w l)
    (hd : ∀ i j, w'.Live i → w'.Live j → (w'.tqueues i).player = (w'.tqueues j).player →
      (w'.tqueues i).player ≠ NOTHING → i = j)
    (hs : ∀ j, w'.Live j → (w'.tqueues j).player ≠ NOTHING →
      (∃ i, w.Live i ∧ (w.tqueues i).player = (w'.tqueues j).player ∧
          (w'.tqueues j).numBgTasks = (w.tqueues i).numBgTasks ∧
          (w'.tqueues j).firstBg.length = (w.tqueues i).firstBg.length) ∨
        (w'.tqueues j).numBgTasks = 0 ∧ (w'.tqueues j).firstBg = [] ∧
          ∀ i, w.Live i → (w.tqueues i).player ≠ (w'.tqueues j).player)
    (hcov : ∀ i, w.Live i → (w.tqueues i).player ≠ NOTHING →
      (∃ j, w'.Live j ∧ (w'.tqueues j).player = (w.tqueues i).player) ∨
      (w.tqueues i).numBgTasks = 0)
    (hc : ∀ j, w'.Live j → (w'.tqueues j).connected = true → (w'.tqueues j).player ≠ NOTHING)
    (hnext : w'.nextUnconnectedPlayer = w.nextUnconnectedPlayer) : Accounted w' l := by
  refine ⟨hd, fun j hj hn => ?_, fun t ht hn => ?_, hc, by rw [hnext]; exact h.next⟩
  · rcases hs j hj hn with ⟨i, hi, hp, hnum, hlen⟩ | ⟨hnum, hb, hno⟩
    · rw [hnum, hlen, ← hp]
      exact h.count i hi (hp ▸ hn)
    · rw [hnum, hb, h.queued_eq_zero hn hno]
      rfl
  · obtain ⟨i, hi, hp⟩ := h.covered t ht hn
    rcases hcov i hi (hp ▸ hn) with ⟨j, hj, hjp⟩ | hz
    · exact ⟨j, hj, hjp.trans hp⟩
    · have hcount := h.count i hi (hp ▸ hn)
      have hpos : 0 < queued (w.tqueues i).player l := List.countP_pos_iff.mpr ⟨t, ht, by simp [hp]⟩
      omega

/-- The connection that is closed when a player logs in again keeps its account. -/
theorem playerConnected_spec {deadTq : Nat} (hwf : Wf w) (hl : w.Live deadTq) :
    (∀ j, (w.playerConnected deadTq).Live j ↔ w.Live j) ∧
      (∀ j, SameAccount (w.tqueues j) ((w.playerConnected deadTq).tqueues j)) ∧
      ((w.playerConnected deadTq).tqueues deadTq).connected = false ∧
      (w.playerConnected deadTq).waiting = w.waiting ∧
      (w.playerConnected deadTq).nextUnconnectedPlayer = w.nextUnconnectedPlayer := by
  unfold playerConnected
  by_cases hc : (w.tqueues deadTq).connected = true
  · rw [if_pos hc]
    unfold Tasks.freeTaskQueue
    dsimp only
    set w₁ := w.modify deadTq fun q => { q with connected := false } with hw₁
    have hwf₁ : Wf w₁ := hwf.modify fun _ => by rfl
    have hs : ∀ j, SameAccount (w.tqueues j) (w₁.tqueues j) := by
      intro j
      by_cases hj : j = deadTq
      · subst hj
        rw [hw₁, modify_self]
        exact ⟨rfl, rfl, rfl, fun h => by simp at h⟩
      · rw [hw₁, modify_ne hj]
        exact ⟨rfl, rfl, rfl, id⟩
    have hdead : (w₁.tqueues deadTq).connected = false := by rw [hw₁, modify_self]
    split
    · have hu := ensureUsage_spec hwf₁ hl
      refine ⟨hu.live, fun j => ?_, ?_, hu.waiting, ensureUsage_next w₁ deadTq⟩
      · rw [hu.tqueues j]
        exact ⟨(hs j).player, (hs j).count, (hs j).length, (hs j).connected⟩
      · rw [hu.tqueues deadTq]
        exact hdead
    · exact ⟨fun _ => .rfl, hs, hdead, rfl, rfl⟩
  · rw [if_neg hc]
    exact ⟨fun _ => .rfl, fun _ => ⟨rfl, rfl, rfl, id⟩, by simpa using hc, rfl, rfl⟩

/-- What a login does to the accounts: the connection gets that of the player, and a new queue the
one that the connection had. -/
structure LoggedIn (w w' : Tasks) (tq : Nat) (newPlayer : Objid) : Prop where
  kinds : ∀ j, w'.Live j → j = tq ∨ ((w'.tqueues j).player = NOTHING ∧
    (w'.tqueues j).connected = false) ∨
    (w.Live j ∧ j ≠ tq ∧ (w.tqueues j).player ≠ newPlayer ∧
      SameAccount (w.tqueues j) (w'.tqueues j)) ∨
    (¬ w.Live j ∧ (w'.tqueues j).player = (w.tqueues tq).player ∧
      (w'.tqueues j).numBgTasks = (w.tqueues tq).numBgTasks ∧
      (w'.tqueues j).firstBg.length = (w.tqueues tq).firstBg.length)
  unique : ∀ i j, w'.Live i → w'.Live j → ¬ w.Live i → ¬ w.Live j → i = j
  self : w'.Live tq ∧ (w'.tqueues tq).player = newPlayer
  account : (∃ i, w.Live i ∧ (w.tqueues i).player = newPlayer ∧
      (w'.tqueues tq).numBgTasks = (w.tqueues i).numBgTasks ∧
      (w'.tqueues tq).firstBg.length = (w.tqueues i).firstBg.length) ∨
    (w'.tqueues tq).numBgTasks = 0 ∧ (w'.tqueues tq).firstBg = [] ∧ ∀ i, w.Live i →
    (w.tqueues i).player ≠ newPlayer
  others : ∀ j, w.Live j → j ≠ tq → (w.tqueues j).player ≠ newPlayer →
    w'.Live j ∧ (w'.tqueues j).player = (w.tqueues j).player
  old : (∃ j, w'.Live j ∧ (w'.tqueues j).player = (w.tqueues tq).player) ∨
    (w.tqueues tq).numBgTasks = 0
  next : w'.nextUnconnectedPlayer = w.nextUnconnectedPlayer

theorem LoggedIn.accounted {newPlayer : Objid} (hlog : LoggedIn w w' tq newPlayer)
    (h : Accounted w l) (hl : w.Live tq)
    (hold : (w.tqueues tq).player ≠ NOTHING) (hne : (w.tqueues tq).player ≠ newPlayer)
    (hn : newPlayer ≠ NOTHING) :
    Accounted w' l := by
  obtain ⟨hself, hplayer⟩ := hlog.self
  refine h.recast (fun i j hi hj he hp => ?_) (fun j hj hp => ?_) (fun i hi hp => ?_)
    (fun j hj hc => ?_) hlog.next
  · rcases hlog.kinds i hi with rfl | ⟨hi', _⟩ | ⟨hil, hit, hin, hsi⟩ | ⟨hil, hio, _⟩
    · rcases hlog.kinds j hj with rfl | ⟨hj', _⟩ | ⟨hjl, hjt, hjn, hsj⟩ | ⟨hjl, hjo, _⟩
      · rfl
      · exact absurd (he.trans hj') hp
      · exact absurd (hsj.player.symm.trans (he.symm.trans hplayer)) hjn
      · exact absurd (hjo.symm.trans (he.symm.trans hplayer)) hne
    · exact absurd hi' hp
    · rcases hlog.kinds j hj with rfl | ⟨hj', _⟩ | ⟨hjl, hjt, hjn, hsj⟩ | ⟨hjl, hjo, _⟩
      · exact absurd (hsi.player.symm.trans (he.trans hplayer)) hin
      · exact absurd (he.trans hj') hp
      · rw [hsi.player] at hp
        exact h.distinct i j hil hjl (hsi.player.symm.trans (he.trans hsj.player)) hp
      · have hio : (w.tqueues i).player = (w.tqueues tq).player :=
          hsi.player.symm.trans (he.trans hjo)
        exact absurd (h.distinct i tq hil hl hio (hio ▸ hold)) hit
    · rcases hlog.kinds j hj with rfl | ⟨hj', _⟩ | ⟨hjl, hjt, hjn, hsj⟩ | ⟨hjl, hjo, _⟩
      · exact absurd (hio.symm.trans (he.trans hplayer)) hne
      · exact absurd (he.trans hj') hp
      · have hjo : (w.tqueues j).player = (w.tqueues tq).player :=
          hsj.player.symm.trans (he.symm.trans hio)
        exact absurd (h.distinct j tq hjl hl hjo (hjo ▸ hold)) hjt
      · exact hlog.unique i j hi hj hil hjl
  · rcases hlog.kinds j hj with rfl | ⟨hj', _⟩ | ⟨hjl, hjt, hjn, hsj⟩ | ⟨hjl, hjo, hnum, hlen⟩
    · rw [hplayer]
      exact hlog.account
    · exact absurd hj' hp
    · exact .inl ⟨j, hjl, hsj.player.symm, hsj.count, hsj.length⟩
    · exact .inl ⟨tq, hl, hjo.symm, hnum, hlen⟩
  · by_cases hit : i = tq
    · subst hit
      exact hlog.old
    · by_cases hin : (w.tqueues i).player = newPlayer
      · exact .inl ⟨tq, hself, by rw [hplayer, hin]⟩
      · obtain ⟨hi', hp'⟩ := hlog.others i hi hit hin
        exact .inl ⟨i, hi', hp'⟩
  · rcases hlog.kinds j hj with rfl | ⟨_, hj'⟩ | ⟨hjl, hjt, hjn, hsj⟩ | ⟨hjl, hjo, _⟩
    · rw [hplayer]
      exact hn
    · rw [hj'] at hc
      simp at hc
    · rw [hsj.player]
      exact h.connected j hjl (hsj.connected hc)
    · rw [hjo]
      exact hold

/-- What `do_login_task` has done before it looks at the queue that the player had. -/
structure Kept (w w' : Tasks) (tq : Nat) (newPlayer : Objid) : Prop where
  self : w'.tqueues tq = { w.tqueues tq with player := newPlayer, firstBg := [], numBgTasks := 0 }
  same : ∀ j, w.Live j → j ≠ tq → w'.tqueues j = w.tqueues j
  live : ∀ j, w.Live j → w'.Live j
  new : ∀ j, w'.Live j → ¬ w.Live j → (w'.tqueues j).player = (w.tqueues tq).player ∧
    (w'.tqueues j).numBgTasks = (w.tqueues tq).numBgTasks ∧ (w'.tqueues j).firstBg =
      (w.tqueues tq).firstBg
  unique : ∀ i j, w'.Live i → w'.Live j → ¬ w.Live i → ¬ w.Live j → i = j
  old : (∃ j, w'.Live j ∧ ¬ w.Live j) ∨ (w.tqueues tq).numBgTasks = 0
  waiting : w'.waiting = w.waiting
  next : w'.nextUnconnectedPlayer = w.nextUnconnectedPlayer

theorem kept_of_login (h : Accounted w l) (hwf : Wf w) (hl : w.Live tq)
    (hold : (w.tqueues tq).player ≠ NOTHING)
    {newPlayer : Objid} (hne : (w.tqueues tq).player ≠ newPlayer) :
    Kept w ((w.modify tq fun q => { q with player := newPlayer }).keepTasks tq
      (w.tqueues tq).player) tq newPlayer := by
  set w₁ := w.modify tq fun q => { q with player := newPlayer } with hw₁
  have hwf₁ : Wf w₁ := hwf.modify fun _ => by rfl
  have htq₁ : w₁.tqueues tq = { w.tqueues tq with player := newPlayer } := by rw [hw₁, modify_self]
  have hother₁ : ∀ j, j ≠ tq → w₁.tqueues j = w.tqueues j := fun j hj => by rw [hw₁, modify_ne hj]
  have hlive₁ : ∀ j, w₁.Live j ↔ w.Live j := fun _ => .rfl
  have hnone : w₁.lookupTqueue (w.tqueues tq).player = none := by
    unfold lookupTqueue
    rw [List.find?_eq_none]
    intro j hj
    by_cases hjt : j = tq
    · rw [hjt, htq₁]
      simpa using fun he => hne he.symm
    · rw [hother₁ j hjt]
      have : (w.tqueues j).player ≠ (w.tqueues tq).player :=
        fun he => hjt (h.distinct j tq hj hl he (he ▸ hold))
      simpa using this
  rcases keepTasks_spec hwf₁ hl hnone with ⟨hz, he⟩ | ⟨o, ho, hlive, hoq, htq, hsame, hwait, hnext⟩
  · -- a connection without tasks has none in its list
    rw [htq₁] at hz
    dsimp only at hz
    have hcount := h.count tq hl hold
    have hb : (w.tqueues tq).firstBg = [] := List.length_eq_zero_iff.mp (by omega)
    rw [he]
    refine ⟨?_, fun j _ hjt => hother₁ j hjt, fun j hj => hj, fun j hj hnj => absurd hj hnj,
      fun i j hi _ hni => absurd hi hni,
      .inr hz, rfl, rfl⟩
    rw [htq₁, ← hb, ← hz]
  · rw [htq₁] at hoq htq
    have hnew : ∀ j, (w₁.keepTasks tq (w.tqueues tq).player).Live j → ¬ w.Live j → j = o :=
      fun j hj hnj =>
      ((hlive j).mp hj).resolve_left hnj
    refine ⟨htq, fun j hj hjt => (hsame j hj hjt).trans (hother₁ j hjt),
      fun j hj => (hlive j).mpr (.inl hj),
      fun j hj hnj => ?_, fun i j hi hj hni hnj => (hnew i hi hni).trans (hnew j hj hnj).symm,
      .inl ⟨o, (hlive o).mpr (.inr rfl), ho⟩, hwait, hnext⟩
    obtain rfl := hnew j hj hnj
    rw [hoq]
    exact ⟨rfl, rfl, rfl⟩

theorem login_accounted (h : Accounted w l) (hwf : Wf w) (hl : w.Live tq)
    (hc : (w.tqueues tq).connected = true)
    {newPlayer : Objid} (hne : (w.tqueues tq).player ≠ newPlayer) (hn : newPlayer ≠ NOTHING) :
    Accounted (w.login tq newPlayer) l ∧ (w.login tq newPlayer).waiting = w.waiting := by
  have hold := h.connected tq hl hc
  have hk := kept_of_login h hwf hl hold hne
  have hwf₁ : Wf (w.modify tq fun q => { q with player := newPlayer }) := hwf.modify fun _ => by rfl
  have hwf₂ := (keepTasks_evolves hwf₁ tq (w.tqueues tq).player).wf
  unfold login
  dsimp only
  set w₂ := (w.modify tq fun q => { q with player := newPlayer }).keepTasks tq (w.tqueues tq).player
  -- the tasks that stay behind have a queue of the old player, or there are none
  have holds : (∃ j, w₂.Live j ∧ (w₂.tqueues j).player = (w.tqueues tq).player) ∨
      (w.tqueues tq).numBgTasks = 0 :=
    hk.old.imp (fun ⟨j, hj, hnj⟩ => ⟨j, hj, (hk.new j hj hnj).1⟩) id
  cases hd : w.lookupTqueue newPlayer with
  | none =>
    have hno : ∀ i, w.Live i → (w.tqueues i).player ≠ newPlayer :=
      fun i hi => lookupTqueue_none hd hi
    refine ⟨LoggedIn.accounted ⟨fun j hj => ?_, hk.unique, ⟨hk.live tq hl, by rw [hk.self]⟩,
      .inr ⟨by rw [hk.self], by rw [hk.self], hno⟩, fun j hj hjt _ =>
        ⟨hk.live j hj, by rw [hk.same j hj hjt]⟩, holds,
      hk.next⟩ h hl hold hne hn, hk.waiting⟩
    by_cases hjl : w.Live j
    · by_cases hjt : j = tq
      · exact .inl hjt
      · refine .inr (.inr (.inl ⟨hjl, hjt, hno j hjl, ?_⟩))
        rw [hk.same j hjl hjt]
        exact ⟨rfl, rfl, rfl, id⟩
    · obtain ⟨hp, hnum, hb⟩ := hk.new j hj hjl
      exact .inr (.inr (.inr ⟨hjl, hp, hnum, by rw [hb]⟩))
  | some deadTq =>
    obtain ⟨hdl, hdp⟩ := lookupTqueue_some hd
    -- the player has a queue already: it is taken over, and the old one dies
    have htd : tq ≠ deadTq := fun he => hne (he ▸ hdp)
    obtain ⟨hsame, htq, hdead, hlive, hwait, hnext⟩ := takeOver_spec htd w₂
    have hkeeps := takeOver_keeps hwf₂ tq deadTq
    obtain ⟨hlive', hacc, hcon, hwait', hnext'⟩ :=
      playerConnected_spec hkeeps.wf (hkeeps.live deadTq (hk.live deadTq hdl))
    have hl₂ : ∀ j, ((w₂.takeOver tq deadTq).playerConnected deadTq).Live j ↔ w₂.Live j :=
      fun j => (hlive' j).trans (hlive j)
    rw [hk.self, hk.same deadTq hdl htd.symm] at htq
    rw [hk.same deadTq hdl htd.symm] at hdead
    refine ⟨LoggedIn.accounted ⟨fun j hj => ?_, fun i j hi hj => ?_,
      ⟨(hl₂ tq).mpr (hk.live tq hl), ?_⟩, .inl ⟨deadTq, hdl, hdp, ?_, ?_⟩,
      fun j hj hjt hjn => ?_, ?_, (hnext'.trans hnext).trans hk.next⟩ h hl hold hne hn,
        (hwait'.trans hwait).trans hk.waiting⟩
    · by_cases hjt : j = tq
      · exact .inl hjt
      by_cases hjd : j = deadTq
      · refine .inr (.inl ?_)
        rw [hjd, (hacc deadTq).player, hdead]
        exact ⟨rfl, hcon⟩
      · by_cases hjl : w.Live j
        · refine .inr (.inr (.inl ⟨hjl, hjt, fun he => hjd ?_, ?_⟩))
          · exact h.distinct j deadTq hjl hdl (he.trans hdp.symm) (he ▸ hn)
          · have hj' := hacc j
            rw [hsame j hjt hjd, hk.same j hjl hjt] at hj'
            exact hj'
        · obtain ⟨hp, hnum, hb⟩ := hk.new j ((hl₂ j).mp hj) hjl
          rw [(hacc j).player, (hacc j).count, (hacc j).length, hsame j hjt hjd]
          exact .inr (.inr (.inr ⟨hjl, hp, hnum, by rw [hb]⟩))
    · exact hk.unique i j ((hl₂ i).mp hi) ((hl₂ j).mp hj)
    · rw [(hacc tq).player, htq]
    · rw [(hacc tq).count, htq]
    · rw [(hacc tq).length, htq]
      rfl
    · have hjd : j ≠ deadTq := fun he => hjn (he ▸ hdp)
      exact ⟨(hl₂ j).mpr (hk.live j hj), by rw [(hacc j).player, hsame j hjt hjd, hk.same j hj hjt]⟩
    · refine hk.old.imp (fun ⟨j, hj, hnj⟩ => ⟨j, (hl₂ j).mpr hj, ?_⟩) id
      have hjt : j ≠ tq := fun he => hnj (he ▸ hl)
      have hjd : j ≠ deadTq := fun he => hnj (he ▸ hdl)
      rw [(hacc j).player, hsame j hjt hjd, (hk.new j hj hnj).1]

/-! ## One call of `run_ready_tasks` -/

theorem Accounted.enqueueReady (h : Accounted w (l ++ l')) (hwf : Wf w) :
    Accounted (w.enqueueReady l) l' := by
  induction l generalizing w with
  | nil => exact h
  | cons t l ih =>
    have hf := findTqueue_evolves hwf t.progr
    have hu := (ensureUsage_spec hf.wf (findTqueue_live hwf t.progr)).wf
    have hr := h.ready hwf t t fun p => queued_cons p t (l ++ l')
    exact ih hr (enqueueBgTask_evolves hu _ t).wf

theorem Accounted.wakeWaiting (h : Accounted w w.waiting) (hwf : Wf w) (now : Int) :
    Accounted (w.wakeWaiting now) (w.wakeWaiting now).waiting := by
  have hsplit : w.waiting = (w.waiting.takeWhile fun t => t.startTv ≤ now) ++
      w.waiting.dropWhile fun t => t.startTv ≤ now :=
    List.takeWhile_append_dropWhile.symm
  rw [hsplit] at h
  exact (h.enqueueReady hwf).setWaiting _

theorem Accounted.dequeueBgTask (h : Accounted w l) (hl : w.Live tq) :
    Accounted (w.dequeueBgTask tq).2 l := by
  unfold Tasks.dequeueBgTask
  split
  · exact h
  · next t r hb =>
    dsimp only
    refine h.modify_change hl (by rfl) (fun hc => h.connected tq hl hc)
      (fun _ _ => rfl) fun hn => ?_
    have hcount := h.count tq hl hn
    rw [hb, List.length_cons] at hcount
    dsimp only
    omega

theorem Accounted.takeTask (h : Accounted w l) (hl : w.Live tq)
    (blank : Nat → Str → Bool) (n : Nat) :
    Accounted (takeTask blank tq n w).2 l := by
  induction n generalizing w with
  | zero => exact h.dequeueBgTask hl
  | succ n ih =>
    have hd := h.dequeueInputTask tq (w.tqueues tq).how
    have hl' : (w.dequeueInputTask tq (w.tqueues tq).how).2.Live tq := hl
    unfold Tasks.takeTask
    generalize w.dequeueInputTask tq (w.tqueues tq).how = d at hd hl' ⊢
    obtain ⟨_ | t, w'⟩ := d
    · exact hd.dequeueBgTask hl'
    · dsimp only
      split
      · exact ih hd hl'
      · exact hd

theorem Taken.live (h : Taken w w' tq) (j : Nat) : w'.Live j ↔ w.Live j := by
  unfold Live
  rw [h.active, h.idle]

/-- The first active queue is put elsewhere. -/
theorem live_behead (hh : w.active.head? = some tq) (j : Nat) :
    w.Live j ↔ j = tq ∨ ({ w with active := w.afterActive tq } : Tasks).Live j := by
  unfold Live
  rw [active_eq hh, List.cons_append, List.mem_cons]

theorem Accounted.selectWork (h : Accounted w l) (hwf : Wf w) (blank : Nat → Str → Bool) (n : Nat) :
    Accounted (selectWork blank n w).2 l := by
  induction n generalizing w with
  | zero => exact h
  | succ n ih =>
    unfold Tasks.selectWork
    cases ha : w.active with
    | nil => exact h
    | cons tq r =>
      have hh : w.active.head? = some tq := by rw [ha]; rfl
      have hl : w.Live tq := List.mem_append_left _ (List.mem_of_head? hh)
      have ht := takeTask_taken blank tq (w.tqueues tq).input.length w
      have hacc := h.takeTask hl blank (w.tqueues tq).input.length
      dsimp only
      split
      · exact h
      · generalize Tasks.takeTask blank tq (w.tqueues tq).input.length w = d at ht hacc ⊢
        obtain ⟨_ | work', w'⟩ := d
        · have hwf' := ht.wf hwf
          have hh' : w'.active.head? = some tq := by rw [ht.active]; exact hh
          obtain ⟨hb, hnl⟩ := hwf'.behead hh'
          have hl' : w'.Live tq := (ht.live tq).mpr hl
          refine ih (hacc.congr (fun j => ?_) (fun j _ => ?_) rfl)
            (hb.deactivate hnl (hwf'.fresh tq hl'))
          · rw [live_behead hh']
            unfold Live
            rw [deactivate_active, deactivate_idle, List.perm_middle.mem_iff, List.mem_cons]
          · by_cases hj : j = tq
            · rw [hj, deactivate_self]
              exact ⟨rfl, rfl, rfl, id⟩
            · rw [deactivate_ne hj]
              exact ⟨rfl, rfl, rfl, id⟩
        · exact hacc

theorem selectWork_waiting (blank : Nat → Str → Bool) (n : Nat) (w : Tasks) :
    (selectWork blank n w).2.waiting = w.waiting := by
  induction n generalizing w with
  | zero => rfl
  | succ n ih =>
    unfold Tasks.selectWork
    cases w.active with
    | nil => rfl
    | cons tq r =>
      have ht := takeTask_taken blank tq (w.tqueues tq).input.length w
      dsimp only
      split
      · rfl
      · generalize Tasks.takeTask blank tq (w.tqueues tq).input.length w = d at ht ⊢
        obtain ⟨_ | work', w'⟩ := d
        · exact (ih _).trans ht.waiting
        · exact ht.waiting

theorem Accounted.runTask (h : Accounted w w.waiting) (hwf : Wf w) (taskId : Int) {s : Script}
    (hs : ∀ o ∈ s.ops, o.counts) :
    Accounted (w.runTask taskId s) (w.runTask taskId s).waiting := by
  have h' : Accounted { w with currentTaskId := taskId } w.waiting :=
    ⟨h.distinct, h.count, h.covered, h.connected, h.next⟩
  have hwf' : Wf { w with currentTaskId := taskId } := ⟨hwf.nodup, hwf.idle, hwf.active, hwf.fresh⟩
  exact Accounted.ops h' hwf' hs

theorem Accounted.doLoginTask (h : Accounted w w.waiting) (hwf : Wf w) (hl : w.Live tq)
    (hp : (w.tqueues tq).player < 0)
    {s : Script} (hs : ∀ o ∈ s.ops, o.counts) (hc : ∀ o ∈ s.connect, o.counts) :
    Accounted (w.doLoginTask tq s) (w.doLoginTask tq s).waiting := by
  have hr := h.runTask hwf s.taskId hs
  have he := runTask_evolves hwf s.taskId s
  unfold Tasks.doLoginTask
  dsimp only
  split
  · exact hr
  · next newPlayer hu =>
    have hcon : ((w.runTask s.taskId s).tqueues tq).connected = true := by
      unfold loginUser at hu
      split at hu
      · assumption
      · simp at hu
    have hne : ((w.runTask s.taskId s).tqueues tq).player ≠ (newPlayer : Objid) := by
      rw [he.player tq hl]
      exact Int.ne_of_lt (Int.lt_of_lt_of_le hp (Int.natCast_nonneg newPlayer))
    have hn : (newPlayer : Objid) ≠ NOTHING :=
      Int.ne_of_gt (Int.lt_of_lt_of_le (by decide : NOTHING < 0) (Int.natCast_nonneg newPlayer))
    obtain ⟨hlog, hwait⟩ := login_accounted hr he.wf (he.live tq hl) hcon hne hn
    rw [← hwait] at hlog
    exact hlog.ops (login_keeps he.wf tq newPlayer).wf hc

theorem Accounted.runWork (h : Accounted w w.waiting) (hwf : Wf w) (hl : w.Live tq)
    (work : Work) {s : Script}
    (hs : ∀ o ∈ s.ops, o.counts) (hc : ∀ o ∈ s.connect, o.counts) :
    Accounted (w.runWork tq work s) (w.runWork tq work s).waiting := by
  have hr : Accounted (w.modify tq fun q => { q with reading := none }) w.waiting :=
    h.modify ⟨rfl, rfl, rfl, fun hc => hc⟩
  have hwr : Wf (w.modify tq fun q => { q with reading := none }) := hwf.modify fun _ => by rfl
  cases work with
  | endOfInput vm => exact hr.runTask hwr vm hs
  | bg t => exact h.runTask hwf t.id hs
  | input t =>
    unfold Tasks.runWork
    dsimp only
    split
    · exact h.runTask hwf s.taskId hs
    · split
      · exact hr.runTask hwr _ hs
      · split
        · exact h.runTask hwf s.taskId hs
        · next hp => exact h.doLoginTask hwf hl (Int.not_le.mp hp) hs hc

theorem Accounted.runSelected (h : Accounted w w.waiting) (hwf : Wf w)
    (hh : w.active.head? = some tq) (work : Work)
    {s : Script} (hs : ∀ o ∈ s.ops, o.counts) (hc : ∀ o ∈ s.connect, o.counts) :
    Accounted (w.runSelected tq work s) (w.runSelected tq work s).waiting := by
  have hk := runWork_keeps hwf tq work s
  have hh' := hk.head tq hh
  have hr := h.runWork hwf (List.mem_append_left _ (List.mem_of_head? hh)) work hs hc
  refine hr.congr (fun j => ?_) (fun j _ => ?_) rfl
  · unfold Tasks.runSelected
    dsimp only
    rw [live_activate, live_behead hh']
    rfl
  · change SameAccount _ (Function.update (w.runWork tq work s).tqueues tq _ j)
    by_cases hj : j = tq
    · rw [hj, Function.update_self]
      exact ⟨rfl, rfl, rfl, id⟩
    · rw [Function.update_of_ne hj]
      exact ⟨rfl, rfl, rfl, id⟩

theorem Accounted.runOneTask (h : Accounted w w.waiting) (hwf : Wf w) (now : Int) {s : Script}
    (hs : ∀ o ∈ s.ops, o.counts) (hc : ∀ o ∈ s.connect, o.counts) :
    Accounted (w.runOneTask now s) (w.runOneTask now s).waiting := by
  have hw := wakeWaiting_evolves hwf now
  have hacc := h.wakeWaiting hwf now
  have hsel := hacc.selectWork hw.wf s.blank (w.wakeWaiting now).active.length
  have hwait := selectWork_waiting s.blank (w.wakeWaiting now).active.length (w.wakeWaiting now)
  obtain ⟨hwf', hhead⟩ := selectWork_wf s.blank (w.wakeWaiting now).active.length hw.wf
  rw [← hwait] at hsel
  unfold Tasks.runOneTask
  dsimp only
  generalize Tasks.selectWork s.blank (w.wakeWaiting now).active.length (w.wakeWaiting now) =
    d at hsel hwf' hhead ⊢
  obtain ⟨_ | ⟨tq, work⟩, w'⟩ := d
  · exact hsel
  · exact hsel.runSelected hwf' (hhead tq work rfl) work hs hc

/-- A queue that `run_ready_tasks` frees has no tasks. -/
theorem freed_empty (h : Accounted w w.waiting) (hl : w.Live tq) (hf : ¬ w.freeUnconnected.Live tq)
    (hp : (w.tqueues tq).player ≠ NOTHING) :
    (w.tqueues tq).firstBg = [] ∧ queued (w.tqueues tq).player w.waiting = 0 := by
  have hz : (w.tqueues tq).numBgTasks = 0 := by
    by_contra hne
    refine hf (List.mem_append.mpr ((List.mem_append.mp hl).imp id fun hi => ?_))
    exact List.mem_filter.mpr ⟨hi, by simp [hne]⟩
  have hcount := h.count tq hl hp
  exact ⟨List.length_eq_zero_iff.mp (by omega), by omega⟩

theorem Accounted.freeUnconnected (h : Accounted w w.waiting) :
    Accounted w.freeUnconnected w.freeUnconnected.waiting := by
  have hsub : ∀ j, w.freeUnconnected.Live j → w.Live j := by
    intro j hj
    exact List.mem_append.mpr ((List.mem_append.mp hj).imp id List.mem_of_mem_filter)
  refine ⟨fun i j hi hj => h.distinct i j (hsub i hi) (hsub j hj),
    fun j hj => h.count j (hsub j hj), fun t ht hn => ?_,
    fun j hj => h.connected j (hsub j hj), h.next⟩
  obtain ⟨j, hj, hjp⟩ := h.covered t ht hn
  refine ⟨j, ?_, hjp⟩
  by_contra hfree
  -- a queue with a waiting task is not freed
  have hq := (freed_empty h hj hfree (hjp ▸ hn)).2
  have hpos : 0 < queued (w.tqueues j).player w.waiting :=
    List.countP_pos_iff.mpr ⟨t, ht, by simp [hjp]⟩
  omega

theorem Accounted.step (h : Accounted w w.waiting) (hwf : Wf w) {o : ServerOp} (ho : o.counts) :
    Accounted (w.step o) (w.step o).waiting := by
  cases o with
  | op o => exact h.op hwf ho
  | runReadyTasks now s =>
    simp only [ServerOp.counts, Bool.and_eq_true, List.all_eq_true] at ho
    exact (h.runOneTask hwf now ho.1 ho.2).freeUnconnected

theorem run_accounted_of (h : Accounted w w.waiting) (hwf : Wf w) {l : List ServerOp}
    (hl : ∀ o ∈ l, o.counts) :
    Accounted (w.run l) (w.run l).waiting ∧ Wf (w.run l) := by
  induction l generalizing w with
  | nil => exact ⟨h, hwf⟩
  | cons o l ih =>
    exact ih (h.step hwf (hl o List.mem_cons_self)) (step_wf hwf o) fun o' ho' =>
      hl o' (List.mem_cons_of_mem _ ho')

/-- The tasks of a user: those of the user's queue and those that wait. -/
def queuedTasks (w : Tasks) (user : Objid) : Nat :=
  queued user w.waiting + match w.lookupTqueue user with
    | none => 0
    | some tq => (w.tqueues tq).firstBg.length

/-- The quota of a user is compared with the number of the user's tasks. -/
theorem checkUserTaskLimit_eq (h : Accounted w w.waiting) {user : Objid} (hu : user ≠ NOTHING)
    (property : Option Int)
    (serverOption : Int) :
    w.checkUserTaskLimit user property serverOption = true ↔
      (if property.getD (-1) < 0 then serverOption else property.getD (-1)) < 0 ∨
        (w.queuedTasks user : Int) < if property.getD (-1) < 0 then serverOption
          else property.getD (-1) := by
  have hcount : (match w.lookupTqueue user with
      | none => 0
      | some tq => (w.tqueues tq).numBgTasks) = (w.queuedTasks user : Int) := by
    unfold queuedTasks
    cases hl : w.lookupTqueue user with
    | none => simp [h.queued_eq_zero hu fun j hj => lookupTqueue_none hl hj]
    | some tq =>
      obtain ⟨hlive, hp⟩ := lookupTqueue_some hl
      have := h.count tq hlive (hp ▸ hu)
      rw [hp] at this
      dsimp only
      omega
  rw [← hcount]
  unfold checkUserTaskLimit
  dsimp only
  generalize (if property.getD (-1) < 0 then serverOption else property.getD (-1)) = limit
  by_cases hlt : limit < 0
  · simp [hlt]
  · cases w.lookupTqueue user <;> simp [hlt]

/-- In every state that a run without `resume_task` reaches, the count of a queue is the number of
tasks in its list and of those that wait for its player, unless the player is `NOTHING`. So the
quota of a user is compared with the number of the user's tasks, and no queue with pending tasks is
freed. -/
theorem run_accounted (l : List ServerOp) (hl : ∀ o ∈ l, o.counts) :
    (∀ tq, (empty.run l).Live tq → ((empty.run l).tqueues tq).player ≠ NOTHING →
      ((empty.run l).tqueues tq).numBgTasks =
        ((empty.run l).tqueues tq).firstBg.length +
          queued ((empty.run l).tqueues tq).player (empty.run l).waiting) ∧
    (∀ user property serverOption, user ≠ NOTHING →
      ((empty.run l).checkUserTaskLimit user property serverOption = true ↔
        (if property.getD (-1) < 0 then serverOption else property.getD (-1)) < 0 ∨
          ((empty.run l).queuedTasks user : Int) < if property.getD (-1) < 0 then serverOption
            else property.getD (-1))) ∧
    ∀ now s, (ServerOp.runReadyTasks now s).counts →
    ∀ tq, ((empty.run l).runOneTask now s).Live tq →
      ¬ ((empty.run l).runReadyTasks now s).Live tq →
      (((empty.run l).runOneTask now s).tqueues tq).player ≠ NOTHING →
      (((empty.run l).runOneTask now s).tqueues tq).firstBg = [] ∧
        queued (((empty.run l).runOneTask now s).tqueues tq).player ((empty.run l).runOneTask now
          s).waiting = 0 := by
  obtain ⟨h, hwf⟩ := run_accounted_of empty_accounted empty_wf hl
  refine ⟨h.count, fun user property serverOption hu =>
    checkUserTaskLimit_eq h hu property serverOption,
    fun now s hs tq htq hfree hp => ?_⟩
  simp only [ServerOp.counts, Bool.and_eq_true, List.all_eq_true] at hs
  exact freed_empty (h.runOneTask hwf now hs.1 hs.2) htq hfree hp

/-- The queue of a connection that logs in counts the task of the player that waits. -/
theorem run_accounted_login :
    ((empty.run [.op (.enqueueForkedTask2 7 5 9 none (-1)), .op (.serverNewConnection 0),
      .op (.enqueueInputTask 1 100 [99] false false),
      .runReadyTasks 0 { blank := fun _ _ => false, taskId := 1, ops := [], login := some 5,
                         connect := [], elapsed := 0 }]).tqueues
        1).numBgTasks = 1 :=
  (run_accounted _ (by decide)).1 1 (by unfold Live; decide) (by decide)

/-- A task that `resume_task` makes ready is not counted, and when it has run, the count is
negative. -/
theorem resume_uncounted :
    (empty.run [.op (.resumeTask 7 5 (.int 0))]).active = [0] ∧
      ((empty.run [.op (.resumeTask 7 5 (.int 0))]).tqueues 0).player = 5 ∧
      ((empty.run [.op (.resumeTask 7 5 (.int 0))]).tqueues 0).firstBg.length = 1 ∧
      ((empty.run [.op (.resumeTask 7 5 (.int 0))]).tqueues 0).numBgTasks = 0 ∧
      ((empty.run [.op (.resumeTask 7 5 (.int 0)), .runReadyTasks 0
        { blank := fun _ _ => false, taskId := 1, ops := [], login := none, connect := [],
          elapsed := 0 }]).tqueues 0).numBgTasks = -1 :=
  ⟨rfl, rfl, rfl, rfl, rfl⟩

end Tasks
end Task
end NuMoo
