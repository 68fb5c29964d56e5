import NuMoo.Task.Queue

/-!
# Idle and active queues

Every queue is either idle, and has no usage, or active. What an operation on the queues
leaves as it was: the queue whose task runs stays the first active one, no queue
disappears and none changes its player.

Results:
1. `ensureUsage_spec`: a queue is active after `ensure_usage`.
2. `ops_evolves`: what a task does keeps the lists of queues in order.
-/

namespace NuMoo
namespace Task
namespace Tasks

variable {w w' w'' : Tasks} {tq j : Nat} {f : TQueue → TQueue} {player : Objid}

@[simp] theorem modify_idle : (w.modify tq f).idle = w.idle := rfl
@[simp] theorem modify_active : (w.modify tq f).active = w.active := rfl
@[simp] theorem modify_waiting : (w.modify tq f).waiting = w.waiting := rfl
@[simp] theorem modify_fresh : (w.modify tq f).fresh = w.fresh := rfl
@[simp] theorem modify_self : (w.modify tq f).tqueues tq = f (w.tqueues tq) := by simp [modify]
@[simp] theorem modify_ne (h : j ≠ tq) : (w.modify tq f).tqueues j = w.tqueues j := by
  simp [modify, h]

/-- A change that does not touch a field. -/
theorem modify_field {α : Type} {g : TQueue → α} (hf : ∀ q, g (f q) = g q) (j : Nat) :
    g ((w.modify tq f).tqueues j) = g (w.tqueues j) := by
  by_cases h : j = tq
  · subst h
    rw [modify_self, hf]
  · rw [modify_ne h]

@[simp] theorem deactivate_active : (w.deactivateTqueue tq).active = w.active := rfl
@[simp] theorem deactivate_idle : (w.deactivateTqueue tq).idle = tq :: w.idle := rfl
@[simp] theorem deactivate_self :
    (w.deactivateTqueue tq).tqueues tq = { w.tqueues tq with usage := NO_USAGE } := by
  simp [deactivateTqueue, modify]
@[simp] theorem deactivate_ne (h : j ≠ tq) : (w.deactivateTqueue tq).tqueues j = w.tqueues j := by
  simp [deactivateTqueue, modify, h]

theorem insertByUsage_perm (usage : Nat → Int) (tq : Nat) (l : List Nat) :
    (insertByUsage usage tq l).Perm (tq :: l) := by
  induction l with
  | nil => exact .refl _
  | cons qq l ih =>
    unfold insertByUsage
    split
    · exact (ih.cons qq).trans (.swap ..)
    · exact .refl _

/-- The queues that are on one of the two lists. -/
def Live (w : Tasks) (tq : Nat) : Prop := tq ∈ w.active ++ w.idle

/-- A queue is on one list, once, and its usage says on which. -/
structure Wf (w : Tasks) : Prop where
  nodup : (w.active ++ w.idle).Nodup
  idle : ∀ tq ∈ w.idle, (w.tqueues tq).usage = NO_USAGE
  active : ∀ tq ∈ w.active, 0 ≤ (w.tqueues tq).usage
  fresh : ∀ tq, w.Live tq → tq < w.fresh

theorem empty_wf : Wf empty := ⟨.nil, by simp [empty], by simp [empty], by simp [empty, Live]⟩

theorem Wf.not_idle (h : Wf w) (ha : tq ∈ w.active) : tq ∉ w.idle := fun hi =>
  (List.nodup_append.mp h.nodup).2.2 tq ha tq hi rfl

theorem Wf.modify (h : Wf w) (hf : ∀ q, (f q).usage = q.usage) : Wf (w.modify tq f) := by
  refine ⟨h.nodup, fun j hj => ?_, fun j hj => ?_, h.fresh⟩
  · rw [modify_field (g := TQueue.usage) hf]
    exact h.idle j hj
  · rw [modify_field (g := TQueue.usage) hf]
    exact h.active j hj

/-! ## Activation -/

/-- A queue that is on neither list is put on the active one. -/
theorem Wf.activate (h : Wf w) (hn : ¬ w.Live tq) (hf : tq < w.fresh)
    (hu : 0 ≤ (w.tqueues tq).usage) :
    Wf (w.activateTqueue tq) := by
  have hp := insertByUsage_perm (fun i => (w.tqueues i).usage) tq w.active
  refine ⟨?_, h.idle, fun j hj => ?_, fun j hj => ?_⟩
  · exact (hp.append_right w.idle).nodup_iff.mpr (List.nodup_cons.mpr ⟨hn, h.nodup⟩)
  · rcases List.mem_cons.mp (hp.subset hj) with rfl | hj
    · exact hu
    · exact h.active j hj
  · rcases List.mem_cons.mp ((hp.append_right w.idle).subset hj) with rfl | hj
    · exact hf
    · exact h.fresh j hj

theorem live_activate : (w.activateTqueue tq).Live j ↔ j = tq ∨ w.Live j := by
  have hp := (insertByUsage_perm (fun i => (w.tqueues i).usage) tq w.active).append_right w.idle
  unfold Live activateTqueue
  rw [hp.mem_iff, List.cons_append, List.mem_cons]

/-- A queue that is on neither list is put on the idle one. -/
theorem Wf.deactivate (h : Wf w) (hn : ¬ w.Live tq) (hf : tq < w.fresh) :
    Wf (w.deactivateTqueue tq) := by
  have hne : ∀ j, w.Live j → j ≠ tq := fun j hj he => hn (he ▸ hj)
  refine ⟨?_, fun j hj => ?_, fun j hj => ?_, fun j hj => ?_⟩
  · change (w.active ++ tq :: w.idle).Nodup
    rw [List.perm_middle.nodup_iff]
    exact List.nodup_cons.mpr ⟨hn, h.nodup⟩
  · rcases List.mem_cons.mp hj with rfl | hj
    · rw [deactivate_self]
    · rw [deactivate_ne (hne j (List.mem_append_right _ hj))]
      exact h.idle j hj
  · rw [deactivate_ne (hne j (List.mem_append_left _ hj))]
    exact h.active j hj
  · rcases List.mem_append.mp hj with hj | hj
    · exact h.fresh j (List.mem_append_left _ hj)
    · rcases List.mem_cons.mp hj with rfl | hj
      · exact hf
      · exact h.fresh j (List.mem_append_right _ hj)

/-- Two states of a queue that differ at most in its usage. -/
def SameTasks (q q' : TQueue) : Prop := q' = { q with usage := q'.usage }

theorem SameTasks.refl (q : TQueue) : SameTasks q q := rfl

/-- What `ensure_usage` does: the queue is no longer idle, and only its usage has changed. -/
structure Woken (w w' : Tasks) (tq : Nat) : Prop where
  wf : Wf w'
  tqueues : ∀ j, SameTasks (w.tqueues j) (w'.tqueues j)
  idle : ∀ j ∈ w'.idle, j ∈ w.idle ∧ j ≠ tq
  head : ∀ j, w.active.head? = some j → w'.active.head? = some j
  live : ∀ j, w'.Live j ↔ w.Live j
  waiting : w'.waiting = w.waiting

theorem ensureUsage_spec (h : Wf w) (hl : w.Live tq) : Woken w (w.ensureUsage tq) tq := by
  unfold ensureUsage
  rcases List.mem_append.mp hl with ha | hi
  · -- an active queue has a usage
    have hu : (w.tqueues tq).usage ≠ NO_USAGE := by
      have := h.active tq ha
      unfold NO_USAGE
      omega
    rw [if_neg hu]
    exact ⟨h, fun _ => .refl _, fun j hj => ⟨hj, fun he => h.not_idle ha (he ▸ hj)⟩, fun _ hj => hj,
      fun _ => .rfl, rfl⟩
  · rw [if_pos (h.idle tq hi)]
    have hna : tq ∉ w.active := fun ha => h.not_idle ha hi
    have hndi : w.idle.Nodup := (List.nodup_append.mp h.nodup).2.1
    have hu0 : 0 ≤ w.firstUsage := by
      unfold firstUsage
      split
      · exact Int.le_refl 0
      · next head _ he => exact h.active head (by rw [he]; simp)
    -- the queue leaves the idle ones first, and is then put in behind those that used less
    set w₁ : Tasks :=
      { w.modify tq fun q => { q with usage := w.firstUsage } with idle := w.idle.erase tq } with
        hw₁
    have hself : (w₁.tqueues tq).usage = w.firstUsage := by simp [hw₁, Tasks.modify]
    have hne : ∀ j, j ≠ tq → w₁.tqueues j = w.tqueues j :=
      fun j hj => by simp [hw₁, Tasks.modify, hj]
    have herase : ∀ j, j ∈ w.idle.erase tq ↔ j ≠ tq ∧ j ∈ w.idle := fun j => hndi.mem_erase_iff
    have hlive₁ : ∀ j, w₁.Live j ↔ w.Live j ∧ j ≠ tq := by
      intro j
      unfold Live
      rw [List.mem_append, List.mem_append]
      change j ∈ w.active ∨ j ∈ w.idle.erase tq ↔ _
      rw [herase]
      constructor
      · rintro (hj | ⟨hj, hji⟩)
        · exact ⟨.inl hj, fun he => hna (he ▸ hj)⟩
        · exact ⟨.inr hji, hj⟩
      · rintro ⟨hj | hj, hjt⟩
        · exact .inl hj
        · exact .inr ⟨hjt, hj⟩
    have hwf₁ : Wf w₁ := by
      refine ⟨?_, fun j hj => ?_, fun j hj => ?_, fun j hj => h.fresh j ((hlive₁ j).mp hj).1⟩
      · exact h.nodup.sublist ((List.Sublist.refl _).append List.erase_sublist)
      · obtain ⟨hjt, hji⟩ := (herase j).mp hj
        rw [hne j hjt]
        exact h.idle j hji
      · rw [hne j fun he => hna (he ▸ hj)]
        exact h.active j hj
    have hnl : ¬ w₁.Live tq := fun hl => ((hlive₁ tq).mp hl).2 rfl
    have hwf := hwf₁.activate hnl (h.fresh tq hl) (by rw [hself]; exact hu0)
    refine ⟨hwf, fun j => ?_, fun j hj => ((herase j).mp hj).symm, fun j hj => ?_, fun j => ?_, rfl⟩
    · change SameTasks (w.tqueues j) (w₁.tqueues j)
      by_cases hj : j = tq
      · subst hj
        simp [SameTasks, hw₁, Tasks.modify]
      · rw [hne j hj]
        exact .refl _
    · -- the queue comes after the first one, whose usage it has got
      cases ha : w.active with
      | nil => rw [ha] at hj; simp at hj
      | cons head l =>
        have hhead : (w.tqueues head).usage = w.firstUsage := by rw [firstUsage, ha]
        rw [ha] at hj
        have hht : head ≠ tq := fun he => hna (by rw [ha, he]; simp)
        have hle : (w₁.tqueues head).usage ≤ (w₁.tqueues tq).usage := by
          rw [hself, hne head hht]
          exact Int.le_of_eq hhead
        change (insertByUsage (fun i => (w₁.tqueues i).usage) tq w.active).head? = _
        rw [ha, insertByUsage, if_pos hle]
        exact hj
    · rw [live_activate, hlive₁]
      constructor
      · rintro (rfl | hj)
        · exact hl
        · exact hj.1
      · intro hj
        by_cases hjt : j = tq
        · exact .inl hjt
        · exact .inr ⟨hj, hjt⟩

/-! ## Finding a queue -/

theorem lookupTqueue_some (h : w.lookupTqueue player = some tq) :
    w.Live tq ∧ (w.tqueues tq).player = player := by
  refine ⟨List.mem_of_find?_eq_some h, ?_⟩
  have := List.find?_some h
  simpa using this

theorem lookupTqueue_none (h : w.lookupTqueue player = none) (hj : w.Live j) :
    (w.tqueues j).player ≠ player := by
  have := List.find?_eq_none.mp h j hj
  simpa using this

/-- What `find_tqueue` does: it finds a queue of the player, or makes one that is idle. -/
structure Found (w w' : Tasks) (tq : Nat) (player : Objid) : Prop where
  wf : Wf w → Wf w'
  old : w.Live tq → w' = w
  new : ¬ w.Live tq → w.lookupTqueue player = none ∧ w'.tqueues tq = TQueue.create player
  tqueues : ∀ j, w.Live j → w'.tqueues j = w.tqueues j
  idle : ∀ j ∈ w'.idle, j ∈ w.idle ∨ w'.tqueues j = TQueue.create player
  active : w'.active = w.active
  live : ∀ j, w'.Live j ↔ w.Live j ∨ j = tq
  player : (w'.tqueues tq).player = player
  waiting : w'.waiting = w.waiting

theorem findTqueue_spec (h : Wf w) (player : Objid) :
    Found w (w.findTqueue player).2 (w.findTqueue player).1 player := by
  unfold findTqueue
  cases hl : w.lookupTqueue player with
  | some tq =>
    obtain ⟨hlive, hp⟩ := lookupTqueue_some hl
    refine ⟨id, fun _ => rfl, fun hn => absurd hlive hn, fun _ _ => rfl, fun _ hj => .inl hj, rfl,
      fun j => ?_, hp, rfl⟩
    constructor
    · exact .inl
    · rintro (hj | rfl)
      · exact hj
      · exact hlive
  | none =>
    have hnl : ¬ w.Live w.fresh := fun hl => Nat.lt_irrefl _ (h.fresh _ hl)
    have hne : ∀ j, w.Live j → Function.update w.tqueues w.fresh (TQueue.create player) j =
        w.tqueues j := by
      intro j hj
      have hjf : j ≠ w.fresh := fun he => hnl (he ▸ hj)
      exact Function.update_of_ne hjf _ _
    refine ⟨fun _ => ⟨?_, fun j hj => ?_, fun j hj => ?_, fun j hj => ?_⟩, fun hl => absurd hl hnl,
      fun _ => ⟨hl, Function.update_self ..⟩, hne, fun j hj => ?_, rfl, fun j => ?_, ?_, rfl⟩
    · change (w.active ++ w.fresh :: w.idle).Nodup
      rw [List.perm_middle.nodup_iff]
      exact List.nodup_cons.mpr ⟨hnl, h.nodup⟩
    · rcases List.mem_cons.mp hj with rfl | hj
      · simp [TQueue.create]
      · dsimp only
        rw [hne j (List.mem_append_right _ hj)]
        exact h.idle j hj
    · dsimp only
      rw [hne j (List.mem_append_left _ hj)]
      exact h.active j hj
    · have hj' : j ∈ w.active ++ w.fresh :: w.idle := hj
      rcases List.mem_cons.mp (List.perm_middle.subset hj') with rfl | hj
      · exact Nat.lt_succ_self _
      · exact Nat.lt_succ_of_lt (h.fresh j hj)
    · rcases List.mem_cons.mp hj with rfl | hj
      · exact .inr (Function.update_self ..)
      · exact .inl hj
    · change j ∈ w.active ++ w.fresh :: w.idle ↔ _
      rw [List.perm_middle.mem_iff, List.mem_cons, or_comm]
      rfl
    · change (Function.update w.tqueues w.fresh (TQueue.create player) w.fresh).player = player
      rw [Function.update_self]
      rfl

/-! ## What a task leaves as it was -/

/-- The lists stay in order, the first active queue stays first, and no queue goes. -/
structure Keeps (w w' : Tasks) : Prop where
  wf : Wf w'
  head : ∀ tq, w.active.head? = some tq → w'.active.head? = some tq
  live : ∀ tq, w.Live tq → w'.Live tq

/-- Nor does a queue change its player. -/
structure Evolves (w w' : Tasks) : Prop extends Keeps w w' where
  player : ∀ tq, w.Live tq → (w'.tqueues tq).player = (w.tqueues tq).player

theorem Keeps.refl (h : Wf w) : Keeps w w := ⟨h, fun _ h => h, fun _ h => h⟩

theorem Keeps.trans (h : Keeps w w') (h' : Keeps w' w'') : Keeps w w'' :=
  ⟨h'.wf, fun tq hh => h'.head tq (h.head tq hh), fun tq hl => h'.live tq (h.live tq hl)⟩

theorem Evolves.refl (h : Wf w) : Evolves w w := ⟨.refl h, fun _ _ => rfl⟩

theorem Evolves.trans (h : Evolves w w') (h' : Evolves w' w'') : Evolves w w'' :=
  ⟨h.toKeeps.trans h'.toKeeps, fun tq hl => (h'.player tq (h.live tq hl)).trans (h.player tq hl)⟩

theorem modify_evolves (h : Wf w) (hu : ∀ q, (f q).usage = q.usage)
    (hp : ∀ q, (f q).player = q.player) :
    Evolves w (w.modify tq f) :=
  ⟨⟨h.modify hu, fun _ hh => hh, fun _ hl => hl⟩, fun j _ => modify_field (g := TQueue.player) hp j⟩

theorem Woken.evolves (h : Woken w w' tq) : Evolves w w' :=
  ⟨⟨h.wf, h.head, fun j hj => (h.live j).mpr hj⟩, fun j _ => by rw [h.tqueues j]⟩

theorem Found.evolves (h : Wf w) (hf : Found w w' tq player) : Evolves w w' :=
  ⟨⟨hf.wf h, fun j hj => by rw [hf.active]; exact hj, fun j hj => (hf.live j).mpr (.inl hj)⟩,
    fun j hj => by rw [hf.tqueues j hj]⟩

theorem ensure_evolves (h : Wf w) (hl : w.Live tq) (c : Prop) [Decidable c] :
    Evolves w (if c then w.ensureUsage tq else w) := by
  split
  · exact (ensureUsage_spec h hl).evolves
  · exact .refl h

theorem waiting_evolves (h : Wf w) (l : List BgTask) : Evolves w { w with waiting := l } :=
  ⟨⟨⟨h.nodup, h.idle, h.active, h.fresh⟩, fun _ hh => hh, fun _ hl => hl⟩, fun _ _ => rfl⟩

theorem findTqueue_evolves (h : Wf w) (player : Objid) : Evolves w (w.findTqueue player).2 :=
  (findTqueue_spec h player).evolves h

theorem findTqueue_live (h : Wf w) (player : Objid) :
    (w.findTqueue player).2.Live (w.findTqueue player).1 :=
  ((findTqueue_spec h player).live _).mpr (.inr rfl)

theorem onLive_evolves (h : Wf w) {g : Tasks → Tasks} (hg : w.Live tq → Evolves w (g w)) :
    Evolves w (w.onLive tq g) := by
  unfold onLive
  split
  · next hl => exact hg hl
  · exact .refl h

theorem enqueueInputTask_evolves (h : Wf w) (hl : w.Live tq) (t : Nat) (input : Str)
    (atFront binary : Bool) :
    Evolves w (w.enqueueInputTask tq t input atFront binary) := by
  have hm :
      Evolves w (w.modify tq fun q => { q with input := enqueue t input atFront binary q.input }) :=
    modify_evolves h (fun _ => rfl) fun _ => rfl
  exact hm.trans (ensure_evolves hm.wf (hm.live _ hl) _)

theorem newTaskQueue_evolves (h : Wf w) (player handler : Objid) :
    Evolves w (w.newTaskQueue player handler) := by
  have hf := findTqueue_evolves h player
  dsimp only [newTaskQueue]
  exact hf.trans (modify_evolves hf.wf (fun _ => by rfl) fun _ => by rfl)

theorem serverNewConnection_evolves (h : Wf w) (handler : Objid) :
    Evolves w (w.serverNewConnection handler) := by
  have hn : Evolves w { w with nextUnconnectedPlayer := w.nextUnconnectedPlayer - 1 } :=
    ⟨⟨⟨h.nodup, h.idle, h.active, h.fresh⟩, fun _ hh => hh, fun _ hl => hl⟩, fun _ _ => rfl⟩
  exact hn.trans (newTaskQueue_evolves hn.wf _ handler)

theorem freeTaskQueue_evolves (h : Wf w) (hl : w.Live tq) : Evolves w (w.freeTaskQueue tq) := by
  have hm : Evolves w (w.modify tq fun q => { q with connected := false }) :=
    modify_evolves h (fun _ => rfl) fun _ => rfl
  exact hm.trans (ensure_evolves hm.wf (hm.live _ hl) _)

theorem setHoldInput_evolves (h : Wf w) (hl : w.Live tq) (b : Bool) :
    Evolves w (w.setHoldInput tq b) := by
  have hm : Evolves w (w.modify tq fun q => { q with holdInput := b }) :=
    modify_evolves h (fun _ => rfl) fun _ => rfl
  exact hm.trans (ensure_evolves hm.wf (hm.live _ hl) _)

theorem setDisableOob_evolves (h : Wf w) (hl : w.Live tq) (b : Bool) :
    Evolves w (w.setDisableOob tq b) := by
  have hm : Evolves w (w.modify tq fun q => { q with disableOob := b }) :=
    modify_evolves h (fun _ => rfl) fun _ => rfl
  exact hm.trans (ensure_evolves hm.wf (hm.live _ hl) _)

theorem dequeueInputTask_evolves (h : Wf w) (tq : Nat) (how : DequeueHow) :
    Evolves w (w.dequeueInputTask tq how).2 := by
  dsimp only [dequeueInputTask]
  exact modify_evolves h (fun _ => by rfl) fun _ => by rfl

theorem readInputNow_evolves (h : Wf w) (connection : Objid) :
    Evolves w (w.readInputNow connection).2 := by
  unfold readInputNow
  cases w.lookupTqueue connection with
  | none => exact .refl h
  | some tq =>
    have hd := dequeueInputTask_evolves h tq .DQ_INBAND
    dsimp only
    split
    · exact .refl h
    · generalize w.dequeueInputTask tq .DQ_INBAND = d at hd ⊢
      obtain ⟨_ | _, w'⟩ := d <;> exact hd

theorem makeReadingTask_evolves (h : Wf w) (vm : Int) (player : Objid) :
    Evolves w (w.makeReadingTask vm player).2 := by
  unfold makeReadingTask
  cases hl : w.lookupTqueue player with
  | none => exact .refl h
  | some tq =>
    have hm : Evolves w (w.modify tq fun q => { q with reading := some vm }) :=
      modify_evolves h (fun _ => rfl) fun _ => rfl
    have hlive := (lookupTqueue_some hl).1
    dsimp only
    split
    · exact .refl h
    · dsimp only
      split
      · exact hm
      · exact hm.trans (ensureUsage_spec hm.wf (hm.live _ hlive)).evolves

theorem enqueueWaiting_evolves (h : Wf w) (t : BgTask) : Evolves w (w.enqueueWaiting t) := by
  have hf := findTqueue_evolves h t.progr
  have hm :
      Evolves (w.findTqueue t.progr).2 ((w.findTqueue t.progr).2.modify
        (w.findTqueue t.progr).1 fun q =>
      { q with numBgTasks := q.numBgTasks + 1 }) := modify_evolves hf.wf (fun _ => rfl) fun _ => rfl
  exact (hf.trans hm).trans (waiting_evolves hm.wf _)

theorem enqueueForkedTask2_evolves (h : Wf w) (id : Int) (progr : Objid) (startTv : Int)
    (property : Option Int)
    (serverOption : Int) :
    Evolves w (w.enqueueForkedTask2 id progr startTv property serverOption).2 := by
  unfold enqueueForkedTask2
  split
  · exact enqueueWaiting_evolves h _
  · exact .refl h

theorem enqueueSuspendedTask_evolves (h : Wf w) (id : Int) (progr : Objid) (startTv : Int)
    (property : Option Int)
    (serverOption : Int) :
    Evolves w (w.enqueueSuspendedTask id progr startTv property serverOption).2 := by
  unfold enqueueSuspendedTask
  split
  · exact enqueueWaiting_evolves h _
  · exact .refl h

theorem enqueueBgTask_evolves (h : Wf w) (tq : Nat) (t : BgTask) :
    Evolves w (w.enqueueBgTask tq t) :=
  modify_evolves h (fun _ => by rfl) fun _ => by rfl

theorem resumeTask_evolves (h : Wf w) (id : Int) (progr : Objid) (value : Var) :
    Evolves w (w.resumeTask id progr value) := by
  have hf := findTqueue_evolves h progr
  have he := enqueueBgTask_evolves hf.wf (w.findTqueue progr).1
    { kind := .TASK_SUSPENDED, id := id, progr := progr, startTv := 0, value := value }
  exact (hf.trans he).trans (ensureUsage_spec he.wf (he.live _ (findTqueue_live h progr))).evolves

theorem doResume_evolves (h : Wf w) (id : Int) (value : Var) (progr : Objid)
    (wizard : Bool) (now : Int) :
    Evolves w (w.doResume id value progr wizard now).2 := by
  unfold doResume
  split
  · next t _ =>
    split
    · exact .refl h
    · have hf := findTqueue_evolves h t.progr
      have hw := waiting_evolves hf.wf ((w.findTqueue t.progr).2.waiting.eraseP (suspendedAs id))
      have hu := ensureUsage_spec hw.wf (hw.live _ (findTqueue_live h t.progr))
      exact ((hf.trans hw).trans hu.evolves).trans (enqueueBgTask_evolves hu.wf _ _)
  · split
    · exact .refl h
    · split
      · exact .refl h
      · dsimp only
        exact modify_evolves h (fun _ => by rfl) fun _ => by rfl

theorem killTask_evolves (h : Wf w) (id : Int) (owner : Objid) (wizard : Bool) :
    Evolves w (w.killTask id owner wizard).2 := by
  unfold killTask
  split
  · exact .refl h
  · split
    · split
      · exact .refl h
      · dsimp only
        split
        · exact waiting_evolves h _
        · next j _ =>
          have hm : Evolves w (w.modify j fun q => { q with numBgTasks := q.numBgTasks - 1 }) :=
            modify_evolves h (fun _ => rfl) fun _ => rfl
          exact hm.trans (waiting_evolves hm.wf _)
    · split
      · exact .refl h
      · split
        · exact .refl h
        · split
          · dsimp only
            exact modify_evolves h (fun _ => by rfl) fun _ => by rfl
          · dsimp only
            exact modify_evolves h (fun _ => by rfl) fun _ => by rfl

theorem op_evolves (h : Wf w) (o : TaskOp) : Evolves w (w.op o) := by
  cases o with
  | serverNewConnection handler => exact serverNewConnection_evolves h handler
  | freeTaskQueue tq =>
    dsimp only [op]
    refine onLive_evolves h fun hl => ?_
    exact freeTaskQueue_evolves h hl
  | enqueueInputTask tq t input atFront binary =>
    dsimp only [op]
    refine onLive_evolves h fun hl => ?_
    exact enqueueInputTask_evolves h hl t input atFront binary
  | forceInput conn t input atFront =>
    have hf := findTqueue_evolves h conn
    exact hf.trans (enqueueInputTask_evolves hf.wf (findTqueue_live h conn) t input atFront false)
  | flushInput tq =>
    dsimp only [op]
    refine onLive_evolves h fun _ => ?_
    exact modify_evolves h (fun _ => by rfl) fun _ => by rfl
  | flushInputOf conn =>
    dsimp only [op, flushInput]
    have hf := findTqueue_evolves h conn
    exact hf.trans (modify_evolves hf.wf (fun _ => by rfl) fun _ => by rfl)
  | setHoldInput tq b =>
    dsimp only [op]
    refine onLive_evolves h fun hl => ?_
    exact setHoldInput_evolves h hl b
  | setDisableOob tq b =>
    dsimp only [op]
    refine onLive_evolves h fun hl => ?_
    exact setDisableOob_evolves h hl b
  | readInputNow connection => exact readInputNow_evolves h connection
  | makeReadingTask vm player => exact makeReadingTask_evolves h vm player
  | enqueueForkedTask2 id progr startTv property serverOption =>
    exact enqueueForkedTask2_evolves h id progr startTv property serverOption
  | enqueueSuspendedTask id progr startTv property serverOption =>
    exact enqueueSuspendedTask_evolves h id progr startTv property serverOption
  | resumeTask id progr value => exact resumeTask_evolves h id progr value
  | doResume id value progr wizard now => exact doResume_evolves h id value progr wizard now
  | killTask id owner wizard => exact killTask_evolves h id owner wizard

theorem ops_evolves (h : Wf w) (l : List TaskOp) : Evolves w (w.ops l) := by
  induction l generalizing w with
  | nil => exact .refl h
  | cons o l ih =>
    have ho := op_evolves h o
    exact ho.trans (ih ho.wf)

/-! ## One call of `run_ready_tasks` -/

theorem dequeueBgTask_evolves (h : Wf w) (tq : Nat) : Evolves w (w.dequeueBgTask tq).2 := by
  unfold dequeueBgTask
  split
  · exact .refl h
  · dsimp only
    exact modify_evolves h (fun _ => by rfl) fun _ => by rfl

theorem enqueueReady_evolves (h : Wf w) (l : List BgTask) : Evolves w (w.enqueueReady l) := by
  induction l generalizing w with
  | nil => exact .refl h
  | cons t l ih =>
    have hf := findTqueue_evolves h t.progr
    have hu := (ensureUsage_spec hf.wf (findTqueue_live h t.progr)).evolves
    have he := enqueueBgTask_evolves hu.wf (w.findTqueue t.progr).1 t
    exact ((hf.trans hu).trans he).trans (ih he.wf)

theorem wakeWaiting_evolves (h : Wf w) (now : Int) : Evolves w (w.wakeWaiting now) := by
  have he := enqueueReady_evolves h (w.waiting.takeWhile fun t => t.startTv ≤ now)
  exact he.trans (waiting_evolves he.wf _)

theorem moveBgTasks_evolves {src dst : Nat} (h : Wf w) (n : Nat) :
    Evolves w (moveBgTasks src dst n w) := by
  induction n generalizing w with
  | zero => exact .refl h
  | succ n ih =>
    have hd := dequeueBgTask_evolves h src
    unfold moveBgTasks
    generalize w.dequeueBgTask src = d at hd ⊢
    obtain ⟨_ | t, w'⟩ := d
    · exact hd
    · have he := enqueueBgTask_evolves hd.wf dst t
      exact (hd.trans he).trans (ih he.wf)

theorem keepTasks_evolves (h : Wf w) (tq : Nat) (oldPlayer : Objid) :
    Evolves w (w.keepTasks tq oldPlayer) := by
  unfold keepTasks
  split
  · have hf := findTqueue_evolves h oldPlayer
    dsimp only
    have hm : Evolves (w.findTqueue oldPlayer).2
        ((w.findTqueue oldPlayer).2.modify (w.findTqueue oldPlayer).1 fun q =>
        { q with numBgTasks := ((w.findTqueue oldPlayer).2.tqueues tq).numBgTasks }) :=
      modify_evolves hf.wf (fun _ => by rfl) fun _ => by rfl
    have hb := fun n => @moveBgTasks_evolves _ tq (w.findTqueue oldPlayer).1 hm.wf n
    exact ((hf.trans hm).trans (hb _)).trans
      (modify_evolves (hb _).wf (fun _ => by rfl) fun _ => by rfl)
  · exact .refl h

theorem modify_keeps (h : Wf w) (hu : ∀ q, (f q).usage = q.usage) : Keeps w (w.modify tq f) :=
  ⟨h.modify hu, fun _ hh => hh, fun _ hl => hl⟩

theorem takeOver_keeps (h : Wf w) (tq deadTq : Nat) : Keeps w (w.takeOver tq deadTq) := by
  have hm : Keeps w (w.modify tq fun q => { q with numBgTasks := (w.tqueues deadTq).numBgTasks }) :=
    modify_keeps h fun _ => by rfl
  have hi := @modify_keeps _ deadTq (fun q => { q with input := [] }) hm.wf fun _ => by rfl
  have hb := fun n => @moveBgTasks_evolves _ deadTq tq hi.wf n
  unfold takeOver
  dsimp only [flushInput]
  exact ((hm.trans hi).trans (hb _).toKeeps).trans (modify_keeps (hb _).wf fun _ => by rfl)

theorem playerConnected_evolves (h : Wf w) {deadTq : Nat} (hl : w.Live deadTq) :
    Evolves w (w.playerConnected deadTq) := by
  unfold playerConnected
  split
  · exact freeTaskQueue_evolves h hl
  · exact .refl h

theorem login_keeps (h : Wf w) (tq : Nat) (newPlayer : Objid) : Keeps w (w.login tq newPlayer) := by
  have hm : Keeps w (w.modify tq fun q => { q with player := newPlayer }) :=
    modify_keeps h fun _ => by rfl
  have hk := hm.trans (keepTasks_evolves hm.wf tq (w.tqueues tq).player).toKeeps
  unfold login
  dsimp only
  split
  · exact hk
  · next deadTq hd =>
    have ht := hk.trans (takeOver_keeps hk.wf tq deadTq)
    exact ht.trans (playerConnected_evolves ht.wf (ht.live deadTq (lookupTqueue_some hd).1)).toKeeps

theorem runTask_evolves (h : Wf w) (taskId : Int) (s : Script) :
    Evolves w (w.runTask taskId s) := by
  have ht : Evolves w { w with currentTaskId := taskId } :=
    ⟨⟨⟨h.nodup, h.idle, h.active, h.fresh⟩, fun _ hh => hh, fun _ hl => hl⟩, fun _ _ => rfl⟩
  exact ht.trans (ops_evolves ht.wf s.ops)

theorem doLoginTask_keeps (h : Wf w) (tq : Nat) (s : Script) : Keeps w (w.doLoginTask tq s) := by
  have ht := runTask_evolves h s.taskId s
  unfold doLoginTask
  dsimp only
  split
  · exact ht.toKeeps
  · have hl := login_keeps ht.wf tq ‹Nat›
    exact (ht.toKeeps.trans hl).trans (ops_evolves hl.wf s.connect).toKeeps

theorem runWork_keeps (h : Wf w) (tq : Nat) (work : Work) (s : Script) :
    Keeps w (w.runWork tq work s) := by
  have hread : Keeps w (w.modify tq fun q => { q with reading := none }) :=
    modify_keeps h fun _ => by rfl
  cases work with
  | endOfInput vm => exact hread.trans (runTask_evolves hread.wf vm s).toKeeps
  | bg t => exact (runTask_evolves h t.id s).toKeeps
  | input t =>
    unfold runWork
    dsimp only
    split
    · exact (runTask_evolves h s.taskId s).toKeeps
    · split
      · exact hread.trans (runTask_evolves hread.wf _ s).toKeeps
      · split
        · exact (runTask_evolves h s.taskId s).toKeeps
        · exact doLoginTask_keeps h tq s

/-- What follows the first active queue. -/
theorem active_eq (h : w.active.head? = some tq) : w.active = tq :: w.afterActive tq := by
  unfold afterActive
  cases ha : w.active with
  | nil => rw [ha] at h; simp at h
  | cons i l =>
    obtain rfl : i = tq := by rw [ha] at h; simpa using h
    rw [List.dropWhile_cons_of_neg (by simp)]
    rfl

/-- The lists without the first active queue. -/
theorem Wf.behead (h : Wf w) (hh : w.active.head? = some tq) :
    Wf { w with active := w.afterActive tq } ∧
      ¬ ({ w with active := w.afterActive tq } : Tasks).Live tq := by
  have ha := active_eq hh
  have hnd := h.nodup
  rw [ha, List.cons_append, List.nodup_cons] at hnd
  have hsub : ∀ j, j ∈ w.afterActive tq → j ∈ w.active :=
    fun j hj => by rw [ha]; exact List.mem_cons_of_mem _ hj
  refine ⟨⟨hnd.2, h.idle, fun j hj => h.active j (hsub j hj), fun j hj => ?_⟩, hnd.1⟩
  rcases List.mem_append.mp hj with hj | hj
  · exact h.fresh j (List.mem_append_left _ (hsub j hj))
  · exact h.fresh j (List.mem_append_right _ hj)

/-- Taking a task from a queue changes its lines and its background tasks only. -/
structure Taken (w w' : Tasks) (tq : Nat) : Prop where
  ne : ∀ j, j ≠ tq → w'.tqueues j = w.tqueues j
  self : ∃ l b n, w'.tqueues tq = { w.tqueues tq with input := l, firstBg := b, numBgTasks := n }
  idle : w'.idle = w.idle
  active : w'.active = w.active
  waiting : w'.waiting = w.waiting
  fresh : w'.fresh = w.fresh

theorem Taken.refl (w : Tasks) (tq : Nat) : Taken w w tq :=
  ⟨fun _ _ => rfl, ⟨_, _, _, rfl⟩, rfl, rfl, rfl, rfl⟩

theorem Taken.trans (h : Taken w w' tq) (h' : Taken w' w'' tq) : Taken w w'' tq := by
  obtain ⟨l, b, n, hs⟩ := h.self
  obtain ⟨l', b', n', hs'⟩ := h'.self
  refine ⟨fun j hj => (h'.ne j hj).trans (h.ne j hj), ⟨l', b', n', by rw [hs', hs]⟩,
    h'.idle.trans h.idle,
    h'.active.trans h.active, h'.waiting.trans h.waiting, h'.fresh.trans h.fresh⟩

theorem Taken.wf (h : Taken w w' tq) (hw : Wf w) : Wf w' := by
  have hu : ∀ j, (w'.tqueues j).usage = (w.tqueues j).usage := by
    intro j
    by_cases hj : j = tq
    · subst hj
      obtain ⟨l, b, n, hs⟩ := h.self
      rw [hs]
    · rw [h.ne j hj]
  refine ⟨by rw [h.active, h.idle]; exact hw.nodup, fun j hj => ?_, fun j hj => ?_, fun j hj => ?_⟩
  · rw [hu]
    exact hw.idle j (by rw [← h.idle]; exact hj)
  · rw [hu]
    exact hw.active j (by rw [← h.active]; exact hj)
  · rw [h.fresh]
    refine hw.fresh j ?_
    unfold Live at hj ⊢
    rwa [h.active, h.idle] at hj

theorem modify_taken (w : Tasks) (tq : Nat)
    (hf : ∃ l b n, f (w.tqueues tq) =
      { w.tqueues tq with input := l, firstBg := b, numBgTasks := n }) :
    Taken w (w.modify tq f) tq :=
  ⟨fun _ hj => modify_ne hj, by rw [modify_self]; exact hf, rfl, rfl, rfl, rfl⟩

theorem dequeueInputTask_taken (w : Tasks) (tq : Nat) (how : DequeueHow) :
    Taken w (w.dequeueInputTask tq how).2 tq := by
  dsimp only [dequeueInputTask]
  exact modify_taken w tq ⟨_, _, _, rfl⟩

theorem dequeueBgTask_taken (w : Tasks) (tq : Nat) : Taken w (w.dequeueBgTask tq).2 tq := by
  unfold dequeueBgTask
  split
  · exact .refl w tq
  · dsimp only
    exact modify_taken w tq ⟨_, _, _, rfl⟩

theorem takeTask_taken (blank : Nat → Str → Bool) (tq n : Nat) (w : Tasks) :
    Taken w (takeTask blank tq n w).2 tq := by
  induction n generalizing w with
  | zero => exact dequeueBgTask_taken w tq
  | succ n ih =>
    have hd := dequeueInputTask_taken w tq (w.tqueues tq).how
    unfold takeTask
    generalize w.dequeueInputTask tq (w.tqueues tq).how = d at hd ⊢
    obtain ⟨_ | t, w'⟩ := d
    · exact hd.trans (dequeueBgTask_taken w' tq)
    · dsimp only at hd ⊢
      split
      · exact hd.trans (ih w')
      · exact hd

/-- The queue whose task is to run is the first active one. -/
theorem selectWork_wf (blank : Nat → Str → Bool) (n : Nat) (h : Wf w) :
    Wf (selectWork blank n w).2 ∧
      ∀ tq work, (selectWork blank n w).1 = some (tq, work) →
      (selectWork blank n w).2.active.head? = some tq := by
  induction n generalizing w with
  | zero => exact ⟨h, fun _ _ he => by simp [selectWork] at he⟩
  | succ n ih =>
    unfold selectWork
    cases ha : w.active with
    | nil => exact ⟨h, fun _ _ he => by simp at he⟩
    | cons tq l =>
      have hh : w.active.head? = some tq := by rw [ha]; rfl
      have ht := takeTask_taken blank tq (w.tqueues tq).input.length w
      dsimp only
      split
      · refine ⟨h, fun tq' work he => ?_⟩
        obtain ⟨rfl, rfl⟩ := by simpa using he
        exact hh
      · generalize takeTask blank tq (w.tqueues tq).input.length w = d at ht ⊢
        obtain ⟨_ | work', w'⟩ := d
        · have hwf := ht.wf h
          have hh' : w'.active.head? = some tq := by rw [ht.active]; exact hh
          obtain ⟨hb, hnl⟩ := hwf.behead hh'
          have hlive : w'.Live tq := List.mem_append_left _ (List.mem_of_head? hh')
          exact ih (hb.deactivate hnl (hwf.fresh tq hlive))
        · refine ⟨ht.wf h, fun tq' work he => ?_⟩
          obtain ⟨rfl, rfl⟩ := by simpa using he
          change w'.active.head? = _
          rw [ht.active]
          exact hh

/-- A change of a queue that is on neither list. -/
theorem Wf.modify_off (h : Wf w) (hn : ¬ w.Live tq) : Wf (w.modify tq f) := by
  have hne : ∀ j, w.Live j → j ≠ tq := fun j hj he => hn (he ▸ hj)
  refine ⟨h.nodup, fun j hj => ?_, fun j hj => ?_, h.fresh⟩
  · rw [modify_ne (hne j (List.mem_append_right _ hj))]
    exact h.idle j hj
  · rw [modify_ne (hne j (List.mem_append_left _ hj))]
    exact h.active j hj

theorem runSelected_wf (h : Wf w) (hh : w.active.head? = some tq) (work : Work) (s : Script) :
    Wf (w.runSelected tq work s) := by
  have hk := runWork_keeps h tq work s
  have hh' := hk.head tq hh
  have hactive : tq ∈ (w.runWork tq work s).active := List.mem_of_head? hh'
  obtain ⟨hb, hnl⟩ := hk.wf.behead hh'
  refine (hb.modify_off hnl).activate hnl (hk.wf.fresh tq (List.mem_append_left _ hactive)) ?_
  rw [modify_self]
  have := hk.wf.active tq hactive
  dsimp only
  omega

theorem freeUnconnected_wf (h : Wf w) : Wf w.freeUnconnected := by
  have hsub : List.Sublist w.freeUnconnected.idle w.idle := List.filter_sublist
  refine ⟨h.nodup.sublist ((List.Sublist.refl _).append hsub),
    fun j hj => h.idle j (hsub.subset hj), h.active, fun j hj => ?_⟩
  exact h.fresh j (((List.Sublist.refl _).append hsub).subset hj)

theorem runOneTask_wf (h : Wf w) (now : Int) (s : Script) : Wf (w.runOneTask now s) := by
  have hw := wakeWaiting_evolves h now
  obtain ⟨hsel, hhead⟩ := selectWork_wf s.blank (w.wakeWaiting now).active.length hw.wf
  unfold runOneTask
  dsimp only
  generalize selectWork s.blank (w.wakeWaiting now).active.length (w.wakeWaiting now) =
    d at hsel hhead ⊢
  obtain ⟨_ | ⟨tq, work⟩, w'⟩ := d
  · exact hsel
  · exact runSelected_wf hsel (hhead tq work rfl) work s

theorem step_wf (h : Wf w) (o : ServerOp) : Wf (w.step o) := by
  cases o with
  | op o => exact (op_evolves h o).wf
  | runReadyTasks now s => exact freeUnconnected_wf (runOneTask_wf h now s)

end Tasks
end Task
end NuMoo
