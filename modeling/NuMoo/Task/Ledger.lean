import Mathlib.Algebra.BigOperators.Group.Finset.Basic
import Mathlib.Algebra.Order.Group.Multiset
import Mathlib.Tactic.Abel
import NuMoo.Task.Accounting
import NuMoo.Task.Wakeup

/-!
# A ledger of the background tasks

A forked or suspended task moves from the waiting list to the list of a queue, and from
the queue of a connection to that of a player, until it runs or is killed. The ledger is
a record of a run that the server does not keep: the tasks that were accepted, those that
were run and those that were killed. The list and the queues together hold every accepted
task that was neither run nor killed, and each of them once.

Results:
1. `enqueueWaiting_ordered`: the waiting list is sorted, and stable.
2. `login_conserves`: a login moves tasks and loses none.
3. `run_ledger`: the books balance in every state, and what wakes, kills and resumes tasks
   leaves the others in order.
-/

namespace NuMoo
namespace Task

/-- What a task keeps when it is resumed. -/
def BgTask.key (t : BgTask) : BgKind × Int × Objid := (t.kind, t.id, t.progr)

/-- The tasks that were accepted, run and killed, in order. -/
structure Ledger where
  accepted : List BgTask
  ran : List BgTask
  killed : List BgTask

namespace Tasks

/-- The task that `kill_task` frees, for a caller that may do so. A task that waits in `read()` is
none of them. -/
def victim (w : Tasks) (id : Int) : Option BgTask :=
  if id = w.currentTaskId then none
  else
    (w.waiting.find? fun t => t.id = id).or
      (((w.holding id false w.idle).or (w.holding id true w.active)).bind fun tq =>
        if (w.tqueues tq).reading = some id then none
        else (w.tqueues tq).firstBg.find? fun t => t.id = id)

end Tasks

namespace Ledger

def empty : Ledger := { accepted := [], ran := [], killed := [] }

/-- A task was accepted, or the quota of its programmer was used up. -/
def accept (g : Ledger) (t : BgTask) (e : ErrCode) : Ledger :=
  if e = .E_NONE then { g with accepted := g.accepted ++ [t] } else g

/-- A task was killed, or the caller was refused. -/
def kill (g : Ledger) (t : Option BgTask) (e : ErrCode) : Ledger :=
  if e = .E_NONE then { g with killed := g.killed ++ t.toList } else g

/-- What an operation adds. -/
def op (g : Ledger) (w : Tasks) : TaskOp → Ledger
  | .enqueueForkedTask2 id progr startTv property serverOption =>
    g.accept { kind := .TASK_FORKED, id := id, progr := progr, startTv := startTv, value := .int 0 }
      (w.enqueueForkedTask2 id progr startTv property serverOption).1
  | .enqueueSuspendedTask id progr startTv property serverOption =>
    g.accept { kind := .TASK_SUSPENDED, id := id, progr := progr, startTv := startTv,
               value := .int 0 }
      (w.enqueueSuspendedTask id progr startTv property serverOption).1
  | .killTask id owner wizard => g.kill (w.victim id) (w.killTask id owner wizard).1
  | _ => g

def ops (g : Ledger) (w : Tasks) : List TaskOp → Ledger
  | [] => g
  | o :: l => (g.op w o).ops (w.op o) l

/-- What the task that was taken adds. -/
def take (g : Ledger) : Work → Ledger
  | .bg t => { g with ran := g.ran ++ [t] }
  | _ => g

def runTask (g : Ledger) (w : Tasks) (taskId : Int) (s : Script) : Ledger :=
  g.ops { w with currentTaskId := taskId } s.ops

def doLoginTask (g : Ledger) (w : Tasks) (tq : Nat) (s : Script) : Ledger :=
  let g := g.runTask w s.taskId s
  let w := w.runTask s.taskId s
  match w.loginUser tq s with
  | none => g
  | some newPlayer => g.ops (w.login tq newPlayer) s.connect

def runWork (g : Ledger) (w : Tasks) (tq : Nat) (work : Work) (s : Script) : Ledger :=
  match work with
  | .endOfInput vm => g.runTask (w.modify tq fun q => { q with reading := none }) vm s
  | .bg t => g.runTask w t.id s
  | .input t =>
    if t.isOob then g.runTask w s.taskId s
    else
      match (w.tqueues tq).reading with
      | some vm => g.runTask (w.modify tq fun q => { q with reading := none }) vm s
      | none => if 0 ≤ (w.tqueues tq).player then g.runTask w s.taskId s else g.doLoginTask w tq s

def runReadyTasks (g : Ledger) (w : Tasks) (now : Int) (s : Script) : Ledger :=
  let w := w.wakeWaiting now
  match Tasks.selectWork s.blank w.active.length w with
  | (none, _) => g
  | (some (tq, work), w) => (g.take work).runWork w tq work s

def step (g : Ledger) (w : Tasks) : ServerOp → Ledger
  | .op o => g.op w o
  | .runReadyTasks now s => g.runReadyTasks w now s

def run (g : Ledger) (w : Tasks) : List ServerOp → Ledger
  | [] => g
  | o :: l => (g.step w o).run (w.step o) l

end Ledger

namespace Tasks

variable {w w' w'' : Tasks} {tq j : Nat} {f : TQueue → TQueue} {player : Objid} {t : BgTask}
    {l l' : List BgTask}

/-! ## The tasks of the queues -/

/-- The tasks in a list, as far as they stay the same. -/
def keys (l : List BgTask) : Multiset (BgKind × Int × Objid) := (l.map BgTask.key : List _)

@[simp] theorem keys_nil : keys [] = 0 := rfl

@[simp] theorem keys_append (l l' : List BgTask) : keys (l ++ l') = keys l + keys l' := by
  unfold keys
  rw [List.map_append, Multiset.coe_add]

theorem keys_cons (t : BgTask) (l : List BgTask) : keys (t :: l) = keys [t] + keys l :=
  keys_append [t] l

/-- The tasks of a queue, if it is on one of the lists. -/
def bg (w : Tasks) (tq : Nat) : List BgTask :=
  if tq ∈ w.active ++ w.idle then (w.tqueues tq).firstBg else []

theorem bg_live (h : w.Live tq) : w.bg tq = (w.tqueues tq).firstBg := if_pos h

theorem bg_off (h : ¬ w.Live tq) : w.bg tq = [] := if_neg h

/-- The tasks of all queues. -/
def load (w : Tasks) : Multiset (BgKind × Int × Objid) :=
  ∑ tq ∈ (w.active ++ w.idle).toFinset, keys (w.tqueues tq).firstBg

theorem load_eq {s : Finset Nat} (h : ∀ j, w.Live j → j ∈ s) : w.load = ∑ j ∈ s, keys (w.bg j) := by
  have hsub : (w.active ++ w.idle).toFinset ⊆ s := fun j hj => h j (List.mem_toFinset.mp hj)
  unfold load
  rw [← Finset.sum_subset hsub fun j _ hj => ?_]
  · exact Finset.sum_congr rfl fun j hj => by rw [bg_live (List.mem_toFinset.mp hj)]
  · have hl : ¬ w.Live j := fun hl => hj (List.mem_toFinset.mpr hl)
    rw [bg_off hl, keys_nil]

/-- Queues other than one have kept their tasks. -/
theorem load_change (tq : Nat) (h : ∀ j, j ≠ tq → w'.bg j = w.bg j) :
    w'.load + keys (w.bg tq) = w.load + keys (w'.bg tq) := by
  set s : Finset Nat :=
    insert tq ((w.active ++ w.idle).toFinset ∪ (w'.active ++ w'.idle).toFinset) with hs
  have hmem : tq ∈ s := Finset.mem_insert_self ..
  have hw : ∀ j, w.Live j → j ∈ s := fun j hj =>
    Finset.mem_insert_of_mem (Finset.mem_union_left _ (List.mem_toFinset.mpr hj))
  have hw' : ∀ j, w'.Live j → j ∈ s := fun j hj =>
    Finset.mem_insert_of_mem (Finset.mem_union_right _ (List.mem_toFinset.mpr hj))
  have hrest : ∑ j ∈ s.erase tq, keys (w'.bg j) = ∑ j ∈ s.erase tq, keys (w.bg j) :=
    Finset.sum_congr rfl fun j hj => by rw [h j (Finset.ne_of_mem_erase hj)]
  rw [load_eq hw, load_eq hw', ← Finset.add_sum_erase s _ hmem, ← Finset.add_sum_erase s _ hmem,
    hrest]
  abel

theorem load_congr (h : ∀ j, w'.bg j = w.bg j) : w'.load = w.load := by
  have hc := load_change 0 fun j _ => h j
  rw [h 0] at hc
  exact add_right_cancel hc

/-- A queue whose player is `NOTHING` is about to be freed: when it is idle it has no tasks. -/
def Stray (w : Tasks) : Prop :=
  ∀ tq ∈ w.idle, (w.tqueues tq).player = NOTHING → (w.tqueues tq).firstBg = []


/-- An operation that leaves the background tasks where they are. -/
structure Frame (w w' : Tasks) : Prop where
  waiting : w'.waiting = w.waiting
  bg : ∀ j, w'.bg j = w.bg j
  stray : Stray w → Stray w'

theorem Frame.refl (w : Tasks) : Frame w w := ⟨rfl, fun _ => rfl, id⟩

theorem Frame.trans (h : Frame w w') (h' : Frame w' w'') : Frame w w'' :=
  ⟨h'.waiting.trans h.waiting, fun j => (h'.bg j).trans (h.bg j), fun hs => h'.stray (h.stray hs)⟩

theorem modify_frame (hb : ∀ q, (f q).firstBg = q.firstBg) (hp : ∀ q, (f q).player = q.player) :
    Frame w (w.modify tq f) := by
  refine ⟨rfl, fun j => ?_, fun hs j hj hn => ?_⟩
  · unfold bg
    rw [modify_active, modify_idle, modify_field (g := TQueue.firstBg) hb]
  · rw [modify_field (g := TQueue.player) hp] at hn
    rw [modify_field (g := TQueue.firstBg) hb]
    exact hs j hj hn

theorem bg_congr (hl : w'.Live j ↔ w.Live j) (hq : (w'.tqueues j).firstBg = (w.tqueues j).firstBg) :
    w'.bg j = w.bg j := by
  by_cases hj : w.Live j
  · rw [bg_live hj, bg_live (hl.mpr hj), hq]
  · rw [bg_off hj, bg_off fun h => hj (hl.mp h)]

theorem Woken.frame (h : Woken w w' tq) : Frame w w' := by
  refine ⟨h.waiting, fun j => bg_congr (h.live j) (by rw [h.tqueues j]), fun hs j hj hn => ?_⟩
  have hq := h.tqueues j
  rw [hq] at hn ⊢
  exact hs j (h.idle j hj).1 hn

theorem Found.frame (h : Found w w' tq player) : Frame w w' := by
  refine ⟨h.waiting, fun j => ?_, fun hs j hj hn => ?_⟩
  · by_cases hj : w.Live j
    · exact bg_congr (iff_of_true ((h.live j).mpr (.inl hj)) hj) (by rw [h.tqueues j hj])
    · rw [bg_off hj]
      by_cases hjt : j = tq
      · subst hjt
        rw [bg_live ((h.live j).mpr (.inr rfl)), (h.new hj).2]
        rfl
      · exact bg_off fun hl => ((h.live j).mp hl).elim hj hjt
  · rcases h.idle j hj with hi | hc
    · rw [h.tqueues j (List.mem_append_right _ hi)] at hn ⊢
      exact hs j hi hn
    · rw [hc]
      rfl

theorem findTqueue_frame (h : Wf w) (player : Objid) : Frame w (w.findTqueue player).2 :=
  (findTqueue_spec h player).frame

theorem ensure_frame (h : Wf w) (hl : w.Live tq) (c : Prop) [Decidable c] :
    Frame w (if c then w.ensureUsage tq else w) := by
  split
  · exact (ensureUsage_spec h hl).frame
  · exact .refl w

/-- A change of a queue's input or connection that may call `ensure_usage`. -/
theorem modify_ensure_frame (h : Wf w) (hl : w.Live tq) (hu : ∀ q, (f q).usage = q.usage)
    (hb : ∀ q, (f q).firstBg = q.firstBg) (hp : ∀ q, (f q).player = q.player)
    (c : Prop) [Decidable c] :
    Frame w (if c then (w.modify tq f).ensureUsage tq else w.modify tq f) :=
  (modify_frame hb hp).trans (ensure_frame (h.modify hu) hl c)

theorem onLive_frame {g : Tasks → Tasks} (hg : w.Live tq → Frame w (g w)) :
    Frame w (w.onLive tq g) := by
  unfold onLive
  split
  · next hl => exact hg hl
  · exact .refl w

theorem enqueueInputTask_frame (h : Wf w) (hl : w.Live tq) (t : Nat) (input : Str)
    (atFront binary : Bool) :
    Frame w (w.enqueueInputTask tq t input atFront binary) := by
  unfold enqueueInputTask
  dsimp only
  exact modify_ensure_frame h hl (fun _ => by rfl) (fun _ => by rfl) (fun _ => by rfl) _

theorem freeTaskQueue_frame (h : Wf w) (hl : w.Live tq) : Frame w (w.freeTaskQueue tq) := by
  unfold freeTaskQueue
  dsimp only
  exact modify_ensure_frame h hl (fun _ => by rfl) (fun _ => by rfl) (fun _ => by rfl) _

theorem serverNewConnection_frame (h : Wf w) (handler : Objid) :
    Frame w (w.serverNewConnection handler) := by
  have hwf : Wf { w with nextUnconnectedPlayer := w.nextUnconnectedPlayer - 1 } :=
    ⟨h.nodup, h.idle, h.active, h.fresh⟩
  have hf := findTqueue_frame hwf w.nextUnconnectedPlayer
  have hn : Frame w { w with nextUnconnectedPlayer := w.nextUnconnectedPlayer - 1 } :=
    ⟨rfl, fun _ => rfl, id⟩
  dsimp only [serverNewConnection, newTaskQueue]
  exact (hn.trans hf).trans (modify_frame (fun _ => by rfl) fun _ => by rfl)

theorem readInputNow_frame (w : Tasks) (connection : Objid) :
    Frame w (w.readInputNow connection).2 := by
  unfold readInputNow
  split
  · exact .refl w
  · next tq _ =>
    have hd : Frame w (w.dequeueInputTask tq .DQ_INBAND).2 := by
      dsimp only [dequeueInputTask]
      exact modify_frame (fun _ => by rfl) fun _ => by rfl
    split
    · exact .refl w
    · generalize w.dequeueInputTask tq .DQ_INBAND = d at hd ⊢
      obtain ⟨_ | _, w'⟩ := d <;> exact hd

theorem makeReadingTask_frame (h : Wf w) (vm : Int) (player : Objid) :
    Frame w (w.makeReadingTask vm player).2 := by
  unfold makeReadingTask
  split
  · exact .refl w
  · next tq hl =>
    dsimp only
    split
    · exact .refl w
    · have hm : Frame w (w.modify tq fun q => { q with reading := some vm }) :=
        modify_frame (fun _ => by rfl) fun _ => by rfl
      dsimp only
      split
      · exact hm
      · exact hm.trans (ensureUsage_spec (h.modify fun _ => by rfl) (lookupTqueue_some hl).1).frame

/-! ## The waiting list -/

/-- The waiting list is sorted, and equal times are in the order in which the tasks were
accepted. -/
structure Ordered (l accepted : List BgTask) : Prop where
  sorted : l.Pairwise fun t u => t.startTv ≤ u.startTv
  stable : ∀ x, (l.filter fun t => t.startTv = x).Sublist accepted

theorem Ordered.sublist {accepted : List BgTask} (h : Ordered l accepted) (hl : l'.Sublist l) :
    Ordered l' accepted :=
  ⟨h.sorted.sublist hl, fun x => (hl.filter _).trans (h.stable x)⟩

theorem insertWaiting_perm (t : BgTask) (l : List BgTask) : (insertWaiting t l).Perm (t :: l) := by
  induction l with
  | nil => exact .refl _
  | cons u l ih =>
    unfold insertWaiting
    split
    · exact .refl _
    · exact (ih.cons u).trans (.swap ..)

theorem insertWaiting_sorted (h : l.Pairwise fun t u => t.startTv ≤ u.startTv) :
    (insertWaiting t l).Pairwise fun t u => t.startTv ≤ u.startTv := by
  induction l with
  | nil => exact List.pairwise_singleton ..
  | cons u l ih =>
    obtain ⟨hu, hl⟩ := List.pairwise_cons.mp h
    unfold insertWaiting
    split
    · next hlt =>
      refine List.pairwise_cons.mpr ⟨fun v hv => ?_, h⟩
      rcases List.mem_cons.mp hv with rfl | hv
      · exact Int.le_of_lt hlt
      · exact Int.le_trans (Int.le_of_lt hlt) (hu v hv)
    · next hge =>
      refine List.pairwise_cons.mpr ⟨fun v hv => ?_, ih hl⟩
      rcases List.mem_cons.mp ((insertWaiting_perm t l).subset hv) with rfl | hv
      · exact Int.not_lt.mp hge
      · exact hu v hv

/-- Among the tasks with equal times, the new one comes last. -/
theorem filter_insertWaiting (h : l.Pairwise fun t u => t.startTv ≤ u.startTv) (x : Int) :
    (insertWaiting t l).filter (fun u => u.startTv = x) = (l ++ [t]).filter fun u =>
      u.startTv = x := by
  induction l with
  | nil => rfl
  | cons u l ih =>
    obtain ⟨hu, hl⟩ := List.pairwise_cons.mp h
    unfold insertWaiting
    split
    · next hlt =>
      -- the tasks that follow start later
      have hlate : ∀ v ∈ u :: l, t.startTv < v.startTv := by
        intro v hv
        rcases List.mem_cons.mp hv with rfl | hv
        · exact hlt
        · exact Int.lt_of_lt_of_le hlt (hu v hv)
      rw [← List.singleton_append, List.filter_append, List.filter_append]
      by_cases hx : t.startTv = x
      · have hnone : (u :: l).filter (fun v => v.startTv = x) = [] := by
          refine List.filter_eq_nil_iff.mpr fun v hv => ?_
          have := hlate v hv
          simp only [decide_eq_true_eq]
          omega
        rw [hnone, List.append_nil, List.nil_append]
      · have hnone : [t].filter (fun v => v.startTv = x) = [] := by simp [hx]
        rw [hnone, List.append_nil, List.nil_append]
    · rw [List.cons_append, List.filter_cons, List.filter_cons, ih hl]

theorem Ordered.insert {accepted : List BgTask} (h : Ordered l accepted) (t : BgTask) :
    Ordered (insertWaiting t l) (accepted ++ [t]) := by
  refine ⟨insertWaiting_sorted h.sorted, fun x => ?_⟩
  rw [filter_insertWaiting h.sorted, List.filter_append]
  exact (h.stable x).append List.filter_sublist

/-- In a sorted list the tasks whose time has come are those before the first one whose time has
not. -/
theorem takeWhile_ready (h : l.Pairwise fun t u => t.startTv ≤ u.startTv) (now : Int) :
    (l.takeWhile fun t => t.startTv ≤ now) = (l.filter fun t => t.startTv ≤ now) ∧
      (l.dropWhile fun t => t.startTv ≤ now) = l.filter fun t => now < t.startTv := by
  induction l with
  | nil => exact ⟨rfl, rfl⟩
  | cons u l ih =>
    obtain ⟨hu, hl⟩ := List.pairwise_cons.mp h
    obtain ⟨htake, hdrop⟩ := ih hl
    by_cases hle : u.startTv ≤ now
    · have hlt : ¬ now < u.startTv := Int.not_lt.mpr hle
      simp [hle, hlt, htake, hdrop]
    · have hlt : now < u.startTv := Int.not_le.mp hle
      have hnone : l.filter (fun t => t.startTv ≤ now) = [] := by
        refine List.filter_eq_nil_iff.mpr fun v hv => ?_
        have := hu v hv
        simp only [decide_eq_true_eq]
        omega
      have hall : l.filter (fun t => now < t.startTv) = l := by
        refine List.filter_eq_self.mpr fun v hv => ?_
        have := hu v hv
        simp only [decide_eq_true_eq]
        omega
      simp [hle, hlt, hnone, hall]

/-- A list without one of its tasks. -/
def Without (t : BgTask) (l l' : List BgTask) : Prop := ∃ a b, l = a ++ t :: b ∧ l' = a ++ b

theorem Without.sublist (h : Without t l l') : l'.Sublist l := by
  obtain ⟨a, b, rfl, rfl⟩ := h
  exact (List.Sublist.refl a).append (List.sublist_cons_self t b)

theorem Without.keys (h : Without t l l') : keys l = keys l' + keys [t] := by
  obtain ⟨a, b, rfl, rfl⟩ := h
  rw [keys_append, keys_cons, keys_append]
  abel

theorem without_eraseP {p : BgTask → Bool} (h : l.find? p = some t) :
    p t ∧ Without t l (l.eraseP p) := by
  obtain ⟨hp, a, b, rfl, ha⟩ := List.find?_eq_some_iff_append.mp h
  refine ⟨hp, a, b, rfl, ?_⟩
  rw [List.eraseP_append_right _ (by simpa using ha), List.eraseP_cons_of_pos hp]

/-! ## Killing and resuming -/

/-- One task leaves its place, and the others stay where they are. -/
inductive Leaves (w w' : Tasks) (t : BgTask) : Prop
  | waiting : Without t w.waiting w'.waiting → (∀ j, w'.bg j = w.bg j) → Leaves w w' t
  | tqueue (tq : Nat) : Without t (w.bg tq) (w'.bg tq) → w'.waiting = w.waiting →
      (∀ j, j ≠ tq → w'.bg j = w.bg j) →
      Leaves w w' t

theorem holding_live {id : Int}
    (h : (w.holding id false w.idle).or (w.holding id true w.active) = some tq) :
    w.Live tq ∧ ((w.tqueues tq).reading ≠ some id →
      ((w.tqueues tq).firstBg.any fun t => t.id = id) = true) := by
  rcases Option.or_eq_some_iff.mp h with h | ⟨_, h⟩
  · refine ⟨List.mem_append_right _ (List.mem_of_find?_eq_some h), fun hr => ?_⟩
    have := List.find?_some h
    exact absurd (by simpa using this) hr
  · refine ⟨List.mem_append_left _ (List.mem_of_find?_eq_some h), fun hr => ?_⟩
    have := List.find?_some h
    simpa [hr] using this

/-- What `kill_task` does. -/
structure Killed (w w' : Tasks) (id : Int) (e : ErrCode) : Prop where
  refused : e ≠ .E_NONE → w' = w
  spared : e = .E_NONE → w.victim id = none → Frame w w'
  killed : e = .E_NONE → ∀ t, w.victim id = some t → t.id = id ∧ Leaves w w' t
  stray : Stray w → Stray w'

theorem killTask_spec (w : Tasks) (id : Int) (owner : Objid) (wizard : Bool) :
    Killed w (w.killTask id owner wizard).2 id (w.killTask id owner wizard).1 := by
  have refuse : ∀ e : ErrCode, e ≠ .E_NONE → Killed w w id e := fun e he =>
    ⟨fun _ => rfl, fun h => absurd h he, fun h => absurd h he, fun hs => hs⟩
  have spare : ∀ w', w.victim id = none → Frame w w' → Killed w w' id .E_NONE := fun w' hv hf =>
    ⟨fun h => absurd rfl h, fun _ _ => hf, fun _ t ht => by rw [hv] at ht; simp at ht, hf.stray⟩
  unfold killTask
  split
  · next hc => exact spare w (by rw [victim, if_pos hc]) (.refl w)
  · next hc =>
    split
    · next t ht =>
      split
      · exact refuse .E_PERM (by decide)
      · obtain ⟨hid, hwo⟩ := without_eraseP ht
        have hv : w.victim id = some t := by rw [victim, if_neg hc, ht]; rfl
        -- a task that waits is found first, whoever else has its number
        have key : ∀ w₁, Frame w w₁ →
            Killed w { w₁ with waiting := w₁.waiting.eraseP fun t => t.id = id } id .E_NONE := by
          intro w₁ hf
          refine ⟨fun h => absurd rfl h, fun _ h => by rw [hv] at h; simp at h, fun _ u hu => ?_,
            fun hs => hf.stray hs⟩
          obtain rfl : t = u := by rw [hv] at hu; simpa using hu
          refine ⟨by simpa using hid, .waiting ?_ fun j => hf.bg j⟩
          rw [hf.waiting]
          exact hwo
        dsimp only
        split
        · exact key w (.refl w)
        · exact key _ (modify_frame (fun _ => by rfl) fun _ => by rfl)
    · next hw =>
      split
      · exact refuse .E_INVARG (by decide)
      · next tq hh =>
        obtain ⟨hl, hany⟩ := holding_live hh
        split
        · exact refuse .E_PERM (by decide)
        · split
          · next hr =>
            dsimp only
            refine spare _ ?_ (modify_frame (fun _ => by rfl) fun _ => by rfl)
            rw [victim, if_neg hc, hw, hh, Option.none_or, Option.bind_some, if_pos hr]
          · next hr =>
            obtain ⟨t, ht⟩ :=
              Option.isSome_iff_exists.mp (List.find?_isSome.mpr (List.any_eq_true.mp (hany hr)))
            obtain ⟨hid, hwo⟩ := without_eraseP ht
            have hv : w.victim id = some t := by
              rw [victim, if_neg hc, hw, hh, Option.none_or, Option.bind_some, if_neg hr]
              exact ht
            dsimp only
            refine ⟨fun h => absurd rfl h, fun _ h => by rw [hv] at h; simp at h, fun _ u hu => ?_,
              fun hs j hj hn => ?_⟩
            · obtain rfl : t = u := by rw [hv] at hu; simpa using hu
              refine ⟨by simpa using hid, .tqueue tq ?_ rfl fun j hj => ?_⟩
              · have hl' : (w.modify tq fun q => { q with
                    firstBg := q.firstBg.eraseP fun t => t.id = id, numBgTasks :=
                      q.numBgTasks - 1 }).Live tq := hl
                rw [bg_live hl, bg_live hl', modify_self]
                exact hwo
              · exact bg_congr .rfl (by rw [modify_ne hj])
            · by_cases hjt : j = tq
              · subst hjt
                rw [modify_self] at hn ⊢
                dsimp only at hn ⊢
                rw [hs j hj hn]
                rfl
              · rw [modify_ne hjt] at hn ⊢
                exact hs j hj hn

/-- A task comes last in a queue, which is active. -/
structure Linked (w w' : Tasks) (tq : Nat) (player : Objid) (t : BgTask) : Prop where
  self : w'.bg tq = w.bg tq ++ [t]
  ne : ∀ j, j ≠ tq → w'.bg j = w.bg j
  live : w'.Live tq
  player : (w'.tqueues tq).player = player
  waiting : w'.waiting = w.waiting
  stray : Stray w → Stray w'

theorem enqueueBgTask_linked (hl : w.Live tq) (hi : (w.tqueues tq).player ≠ NOTHING ∨ tq ∉ w.idle)
    (t : BgTask) :
    Linked w (w.enqueueBgTask tq t) tq (w.tqueues tq).player t := by
  have hl' : (w.enqueueBgTask tq t).Live tq := hl
  unfold enqueueBgTask at hl' ⊢
  refine ⟨?_, fun j hj => bg_congr .rfl (by rw [modify_ne hj]), hl', by rw [modify_self], rfl,
    fun hs j hj hn => ?_⟩
  · rw [bg_live hl', bg_live hl, modify_self]
  · by_cases hjt : j = tq
    · subst hjt
      rw [modify_self] at hn
      exact hi.elim (fun hp => absurd hn hp) fun ha => absurd hj ha
    · rw [modify_ne hjt] at hn ⊢
      exact hs j hj hn

theorem Frame.linked (h : Frame w w') (hk : Linked w' w'' tq player t) : Linked w w'' tq player t :=
  ⟨by rw [hk.self, h.bg], fun j hj => (hk.ne j hj).trans (h.bg j), hk.live, hk.player,
    hk.waiting.trans h.waiting,
    fun hs => hk.stray (h.stray hs)⟩

/-- A task whose time has come goes to the queue of its programmer. -/
theorem ready_linked (h : Wf w) (player : Objid) (t : BgTask) :
    Linked w (((w.findTqueue player).2.ensureUsage (w.findTqueue player).1).enqueueBgTask
      (w.findTqueue player).1 t)
      (w.findTqueue player).1 player t := by
  have hf := findTqueue_spec h player
  have hlive := findTqueue_live h player
  have hu := ensureUsage_spec (hf.wf h) hlive
  have hplayer : (((w.findTqueue player).2.ensureUsage (w.findTqueue player).1).tqueues
    (w.findTqueue player).1).player =
      player := by rw [hu.tqueues, hf.player]
  have hk := enqueueBgTask_linked ((hu.live _).mpr hlive) (.inr fun hi => (hu.idle _ hi).2 rfl) t
  rw [hplayer] at hk
  exact (hf.frame.trans hu.frame).linked hk

theorem Linked.load (h : Linked w w' tq player t) : w'.load = w.load + keys [t] := by
  have hc := load_change tq h.ne
  rw [h.self, keys_append] at hc
  rw [add_comm (keys (w.bg tq)), ← add_assoc] at hc
  exact add_right_cancel hc

/-- What `do_resume` does: a task that waits becomes ready, or a ready one gets another value. -/
inductive Resumed (w w' : Tasks) (id : Int) (value : Var) (now : Int) : Prop
  | waiting (t : BgTask) (tq : Nat) : suspendedAs id t → Without t w.waiting w'.waiting →
      (w'.tqueues tq).player = t.progr → w'.bg tq = w.bg tq ++
        [{ t with startTv := now, value := value }] →
      (∀ j, j ≠ tq → w'.bg j = w.bg j) → Resumed w w' id value now
  | ready (tq : Nat) (t : BgTask) (a b : List BgTask) : suspendedAs id t → w.bg tq = a ++ t :: b →
      w'.bg tq = a ++ { t with value := value } :: b → w'.waiting = w.waiting →
      (∀ j, j ≠ tq → w'.bg j = w.bg j) →
      Resumed w w' id value now

theorem setValue_spec {id : Int} (value : Var) (h : (l.any (suspendedAs id)) = true) :
    ∃ t a b, suspendedAs id t ∧ l = a ++ t :: b ∧ setValue id value l = a ++
      { t with value := value } :: b := by
  induction l with
  | nil => simp at h
  | cons u l ih =>
    unfold setValue
    by_cases hu : suspendedAs id u = true
    · rw [if_pos hu]
      exact ⟨u, [], l, hu, rfl, rfl⟩
    · rw [if_neg hu]
      rw [List.any_cons, Bool.or_eq_true] at h
      obtain ⟨t, a, b, ht, hl, hs⟩ := ih (h.resolve_left hu)
      exact ⟨t, u :: a, b, ht, by rw [hl]; rfl, by rw [hs]; rfl⟩

/-- Whether `do_resume` did anything, and what. -/
structure Resumes (w w' : Tasks) (id : Int) (value : Var) (now : Int) (e : ErrCode) : Prop where
  refused : e ≠ .E_NONE → w' = w
  resumed : e = .E_NONE → Resumed w w' id value now
  stray : Stray w → Stray w'

theorem doResume_spec (h : Wf w) (id : Int) (value : Var) (progr : Objid)
    (wizard : Bool) (now : Int) :
    Resumes w (w.doResume id value progr wizard now).2 id value now
      (w.doResume id value progr wizard now).1 := by
  have refuse : ∀ e : ErrCode, e ≠ .E_NONE → Resumes w w id value now e := fun e he =>
    ⟨fun _ => rfl, fun h => absurd h he, fun hs => hs⟩
  unfold doResume
  split
  · next t ht =>
    split
    · exact refuse .E_PERM (by decide)
    · obtain ⟨hid, hwo⟩ := without_eraseP ht
      have hk := ready_linked h t.progr { t with startTv := now, value := value }
      dsimp only
      rw [ensureUsage_setWaiting, findTqueue_waiting]
      refine ⟨fun hn => absurd rfl hn, fun _ => ?_, hk.stray⟩
      exact .waiting t (w.findTqueue t.progr).1 hid hwo hk.player hk.self hk.ne
  · split
    · exact refuse .E_INVARG (by decide)
    · next tq hl =>
      split
      · exact refuse .E_PERM (by decide)
      · have hlive : w.Live tq := List.mem_append_left _ (List.mem_of_find?_eq_some hl)
        have hlive' :
            (w.modify tq fun q => { q with firstBg := setValue id value q.firstBg }).Live tq :=
              hlive
        have hany : ((w.tqueues tq).firstBg.any (suspendedAs id)) = true := by
          have := List.find?_some hl
          exact this
        obtain ⟨t, a, b, hid, hb, hs⟩ := setValue_spec value hany
        dsimp only
        refine ⟨fun hn => absurd rfl hn, fun _ => .ready tq t a b hid ?_ ?_ rfl fun j hj => ?_,
          fun hst j hj hn => ?_⟩
        · rw [bg_live hlive, hb]
        · rw [bg_live hlive', modify_self]
          exact hs
        · exact bg_congr .rfl (by rw [modify_ne hj])
        · by_cases hjt : j = tq
          · subst hjt
            rw [modify_self] at hn
            rw [hst j hj hn] at hb
            simp at hb
          · rw [modify_ne hjt] at hn ⊢
            exact hst j hj hn

/-- A task that is resumed is still the same task. -/
theorem Resumed.balance {id now : Int} {value : Var} (h : Resumed w w' id value now) :
    keys w'.waiting + w'.load = keys w.waiting + w.load := by
  cases h with
  | waiting t tq _ hwo _ hself hne =>
    have hc := load_change tq hne
    rw [hself, keys_append, add_comm (keys (w.bg tq)), ← add_assoc] at hc
    rw [hwo.keys, add_right_cancel hc, add_right_comm, add_assoc (keys _) w.load]
    rfl
  | ready tq t a b _ hb hb' hw hne =>
    have hc := load_change tq hne
    have hk : keys (w'.bg tq) = keys (w.bg tq) := by
      rw [hb, hb', keys_append, keys_append, keys_cons, keys_cons t]
      rfl
    rw [hk] at hc
    rw [hw, add_right_cancel hc]

theorem Resumed.sublist {id now : Int} {value : Var} (h : Resumed w w' id value now) :
    w'.waiting.Sublist w.waiting := by
  cases h with
  | waiting _ _ _ hwo _ _ _ => exact hwo.sublist
  | ready _ _ _ _ _ _ _ hw _ => rw [hw]

theorem Leaves.balance (h : Leaves w w' t) :
    keys w.waiting + w.load = keys w'.waiting + w'.load + keys [t] := by
  cases h with
  | waiting hwo hb =>
    rw [hwo.keys, load_congr hb]
    abel
  | tqueue tq hwo hw hne =>
    have hc := load_change tq hne
    rw [hwo.keys, ← add_assoc, add_right_comm] at hc
    rw [hw, add_assoc, ← add_right_cancel hc]

theorem Leaves.sublist (h : Leaves w w' t) : w'.waiting.Sublist w.waiting := by
  cases h with
  | waiting hwo _ => exact hwo.sublist
  | tqueue _ _ hw _ => rw [hw]

/-! ## Waking -/

theorem enqueueReady_cons (w : Tasks) (t : BgTask) (l : List BgTask) :
    w.enqueueReady (t :: l) =
      (((w.findTqueue t.progr).2.ensureUsage (w.findTqueue t.progr).1).enqueueBgTask
        (w.findTqueue t.progr).1 t).enqueueReady
        l := rfl

/-- The tasks that go to a queue are those of its player, in their order. -/
theorem enqueueReady_spec (hwf : Wf w) (h : Accounted w (l ++ l')) :
    (∀ j, ∃ m, (w.enqueueReady l).bg j = w.bg j ++ m ∧ m.Sublist l ∧
        (∀ t ∈ m, t.progr = ((w.enqueueReady l).tqueues j).player) ∧
        ((w.enqueueReady l).Live j → ((w.enqueueReady l).tqueues j).player ≠ NOTHING →
          m = l.filter fun t => t.progr = ((w.enqueueReady l).tqueues j).player)) ∧
      (w.enqueueReady l).load = w.load + keys l ∧ (Stray w → Stray (w.enqueueReady l)) := by
  induction l generalizing w with
  | nil => exact ⟨fun j => ⟨[], (List.append_nil _).symm, .refl _, by simp, fun _ _ => rfl⟩,
      (add_zero _).symm, id⟩
  | cons t l ih =>
    have hk := ready_linked hwf t.progr t
    have hf := findTqueue_evolves hwf t.progr
    have hu := (ensureUsage_spec hf.wf (findTqueue_live hwf t.progr)).wf
    have hwf₁ := (enqueueBgTask_evolves hu (w.findTqueue t.progr).1 t).wf
    have hacc := h.ready hwf t t fun p => queued_cons p t (l ++ l')
    rw [enqueueReady_cons]
    generalize ((w.findTqueue t.progr).2.ensureUsage (w.findTqueue t.progr).1).enqueueBgTask
      (w.findTqueue t.progr).1 t = w₁
      at hk hwf₁ hacc ⊢
    generalize (w.findTqueue t.progr).1 = tq at hk
    have hev := enqueueReady_evolves hwf₁ l
    have hdist := (hacc.enqueueReady hwf₁).distinct
    obtain ⟨hmoved, hload, hstray⟩ := ih hwf₁ hacc
    refine ⟨fun j => ?_, ?_, fun hs => hstray (hk.stray hs)⟩
    · obtain ⟨m, hbg, hsub, hprogr, hall⟩ := hmoved j
      by_cases hj : j = tq
      · -- the queue of the programmer
        have hplayer := hev.player _ hk.live
        rw [hk.player, ← hj] at hplayer
        refine ⟨t :: m, ?_, hsub.cons_cons t, fun u hu => ?_, fun hl hn => ?_⟩
        · rw [hbg, hj, hk.self, List.append_assoc]
          rfl
        · rcases List.mem_cons.mp hu with rfl | hu
          · exact hplayer.symm
          · exact hprogr u hu
        · rw [List.filter_cons_of_pos (by simpa using hplayer.symm), ← hall hl hn]
      · refine ⟨m, by rw [hbg, hk.ne j hj], hsub.cons t, hprogr, fun hl hn => ?_⟩
        have hne : t.progr ≠ ((w₁.enqueueReady l).tqueues j).player := by
          intro he
          have hplayer := hev.player _ hk.live
          rw [hk.player, he] at hplayer
          exact hj (hdist j _ hl (hev.live _ hk.live) hplayer.symm hn)
        rw [List.filter_cons_of_neg (by simpa using hne)]
        exact hall hl hn
    · rw [hload, hk.load, keys_cons t l, add_assoc]

/-- What waking the tasks whose time has come does. -/
structure Woke (w w' : Tasks) (now : Int) : Prop where
  waiting : w'.waiting = w.waiting.filter fun t => now < t.startTv
  moved : ∀ j, ∃ m, w'.bg j = w.bg j ++ m ∧ m.Sublist (w.waiting.filter fun t => t.startTv ≤ now) ∧
    (∀ t ∈ m, t.progr = (w'.tqueues j).player) ∧
    (w'.Live j → (w'.tqueues j).player ≠ NOTHING →
      m = (w.waiting.filter fun t => t.startTv ≤ now).filter fun t =>
        t.progr = (w'.tqueues j).player)
  load : w'.load = w.load + keys (w.waiting.filter fun t => t.startTv ≤ now)

theorem wakeWaiting_spec (hwf : Wf w) (h : Accounted w w.waiting)
    (hs : w.waiting.Pairwise fun t u => t.startTv ≤ u.startTv) (now : Int) :
    Woke w (w.wakeWaiting now) now ∧ (Stray w → Stray (w.wakeWaiting now)) := by
  have hsplit : w.waiting = (w.waiting.takeWhile fun t => t.startTv ≤ now) ++
      w.waiting.dropWhile fun t => t.startTv ≤ now :=
    List.takeWhile_append_dropWhile.symm
  rw [hsplit] at h
  obtain ⟨hmoved, hload, hstray⟩ := enqueueReady_spec hwf h
  obtain ⟨htake, hdrop⟩ := takeWhile_ready hs now
  unfold wakeWaiting
  dsimp only
  rw [htake] at hmoved hload hstray ⊢
  rw [hdrop]
  exact ⟨⟨rfl, hmoved, hload⟩, hstray⟩

/-! ## Taking and moving tasks -/

/-- What taking a task from a queue does. -/
theorem dequeueBgTask_spec (hl : w.Live tq) :
    (w.dequeueBgTask tq).2.waiting = w.waiting ∧
      (w.dequeueBgTask tq).2.load + keys (w.dequeueBgTask tq).1.toList = w.load ∧
      (Stray w → Stray (w.dequeueBgTask tq).2) := by
  unfold dequeueBgTask
  split
  · exact ⟨rfl, add_zero _, id⟩
  · next t r hb =>
    set w₁ := w.modify tq fun q => { q with firstBg := r, numBgTasks := q.numBgTasks - 1 } with hw₁
    have hself : w₁.bg tq = r := by
      rw [bg_live (show w₁.Live tq from hl), hw₁, modify_self]
    have hc := load_change tq fun j (hj : j ≠ tq) =>
      show w₁.bg j = w.bg j from bg_congr .rfl (by rw [hw₁, modify_ne hj])
    rw [hself, bg_live hl, hb, keys_cons t r, ← add_assoc] at hc
    refine ⟨rfl, add_right_cancel hc, fun hs j hj hn => ?_⟩
    rw [hw₁] at hn ⊢
    by_cases hjt : j = tq
    · subst hjt
      rw [modify_self] at hn
      rw [hs j hj hn] at hb
      simp at hb
    · rw [modify_ne hjt] at hn ⊢
      exact hs j hj hn

/-- An operation that moves tasks from queue to queue. -/
structure Conserves (w w' : Tasks) : Prop where
  waiting : w'.waiting = w.waiting
  load : w'.load = w.load
  stray : Stray w → Stray w'

theorem Frame.conserves (h : Frame w w') : Conserves w w' := ⟨h.waiting, load_congr h.bg, h.stray⟩

theorem Conserves.trans (h : Conserves w w') (h' : Conserves w' w'') : Conserves w w'' :=
  ⟨h'.waiting.trans h.waiting, h'.load.trans h.load, fun hs => h'.stray (h.stray hs)⟩

theorem moveBgTasks_conserves {src dst : Nat} (hs : w.Live src) (hd : w.Live dst)
    (hi : (w.tqueues dst).player ≠ NOTHING ∨ dst ∉ w.idle) (n : Nat) :
    Conserves w (moveBgTasks src dst n w) := by
  induction n generalizing w with
  | zero => exact (Frame.refl w).conserves
  | succ n ih =>
    obtain ⟨hwait, hload, hstray⟩ := dequeueBgTask_spec hs
    have ht := dequeueBgTask_taken w src
    have hplayer : ((w.dequeueBgTask src).2.tqueues dst).player = (w.tqueues dst).player := by
      by_cases he : dst = src
      · subst he
        obtain ⟨l, b, n, hself⟩ := ht.self
        rw [hself]
      · rw [ht.ne dst he]
    unfold moveBgTasks
    generalize w.dequeueBgTask src = d at hwait hload hstray ht hplayer ⊢
    obtain ⟨_ | t, w'⟩ := d
    · exact ⟨hwait, (add_zero _).symm.trans hload, hstray⟩
    · have hd' : w'.Live dst := (ht.live dst).mpr hd
      have hi' : (w'.tqueues dst).player ≠ NOTHING ∨ dst ∉ w'.idle := by
        rw [hplayer, show w'.idle = w.idle from ht.idle]
        exact hi
      have hk := enqueueBgTask_linked hd' hi' t
      have hmove : Conserves w (w'.enqueueBgTask dst t) :=
        ⟨hk.waiting.trans hwait, hk.load.trans hload, fun hs => hk.stray (hstray hs)⟩
      have hsl : (w'.enqueueBgTask dst t).Live src := (ht.live src).mpr hs
      refine hmove.trans (ih hsl hk.live ?_)
      rw [hk.player]
      exact hi'

theorem keepTasks_conserves (h : Wf w) (hl : w.Live tq) {oldPlayer : Objid}
    (hp : oldPlayer ≠ NOTHING) :
    Conserves w (w.keepTasks tq oldPlayer) := by
  unfold keepTasks
  split
  · have hf := findTqueue_spec h oldPlayer
    have hold := findTqueue_live h oldPlayer
    dsimp only
    set w₁ := (w.findTqueue oldPlayer).2.modify (w.findTqueue oldPlayer).1 fun q =>
      { q with numBgTasks := ((w.findTqueue oldPlayer).2.tqueues tq).numBgTasks } with hw₁
    have hm : Frame w w₁ := hf.frame.trans (modify_frame (fun _ => by rfl) fun _ => by rfl)
    have hplayer : (w₁.tqueues (w.findTqueue oldPlayer).1).player ≠ NOTHING := by
      rw [hw₁, modify_self]
      dsimp only
      rw [hf.player]
      exact hp
    have hsrc : w₁.Live tq := (hf.live tq).mpr (.inl hl)
    have hmove := moveBgTasks_conserves hsrc (show w₁.Live _ from hold) (.inl hplayer)
      (w₁.tqueues tq).firstBg.length
    exact (hm.conserves.trans hmove).trans (modify_frame (fun _ => by rfl)
      fun _ => by rfl).conserves
  · exact (Frame.refl w).conserves

theorem takeOver_conserves {deadTq : Nat} (hne : tq ≠ deadTq) (hl : w.Live tq) (hd : w.Live deadTq)
    (hi : tq ∉ w.idle) :
    Conserves w (w.takeOver tq deadTq) := by
  unfold takeOver
  dsimp only [Tasks.flushInput]
  set w₁ := (w.modify tq fun q => { q with numBgTasks := (w.tqueues deadTq).numBgTasks }).modify
    deadTq fun q =>
    { q with input := [] } with hw₁
  have hm : Frame w w₁ :=
    (modify_frame (fun _ => by rfl) fun _ => by rfl).trans
      (modify_frame (fun _ => by rfl) fun _ => by rfl)
  have hmoved := moveBgTasks_spec hne.symm w₁
  have hmove := moveBgTasks_conserves (show w₁.Live deadTq from hd) (show w₁.Live tq from hl)
    (.inr (show tq ∉ w₁.idle from hi)) (w₁.tqueues deadTq).firstBg.length
  have hempty :
      ((moveBgTasks deadTq tq (w₁.tqueues deadTq).firstBg.length w₁).tqueues deadTq).firstBg =
        [] := by
    rw [hmoved.emptied]
  refine (hm.conserves.trans hmove).trans ⟨rfl, load_congr fun j => bg_congr .rfl ?_,
    fun hs j hj hn => ?_⟩
  · rw [modify_field (g := TQueue.firstBg) fun _ => by rfl]
  · rw [modify_field (g := TQueue.firstBg) fun _ => by rfl]
    by_cases hjd : j = deadTq
    · rw [hjd, hempty]
    · rw [modify_ne hjd] at hn
      exact hs j hj hn

theorem login_conserves (h : Wf w) (hh : w.active.head? = some tq) {newPlayer : Objid}
    (hold : (w.tqueues tq).player ≠ NOTHING) (hne : (w.tqueues tq).player ≠ newPlayer)
    (hn : newPlayer ≠ NOTHING) :
    Conserves w (w.login tq newPlayer) := by
  have hl : w.Live tq := List.mem_append_left _ (List.mem_of_head? hh)
  set w₁ := w.modify tq fun q => { q with player := newPlayer } with hw₁
  have hm : Keeps w w₁ := modify_keeps h fun _ => by rfl
  have hc : Conserves w w₁ := by
    refine ⟨rfl, load_congr fun j => bg_congr .rfl ?_, fun hs j hj hp => ?_⟩
    · rw [hw₁, modify_field (g := TQueue.firstBg) fun _ => by rfl]
    · rw [hw₁, modify_field (g := TQueue.firstBg) fun _ => by rfl]
      by_cases hjt : j = tq
      · rw [hjt, hw₁, modify_self] at hp
        exact absurd hp hn
      · rw [hw₁, modify_ne hjt] at hp
        exact hs j hj hp
  have hkeep := keepTasks_conserves hm.wf (show w₁.Live tq from hl) hold
  have he := keepTasks_evolves hm.wf tq (w.tqueues tq).player
  unfold Tasks.login
  dsimp only
  split
  · exact hc.trans hkeep
  · next deadTq hd =>
    obtain ⟨hdl, hdp⟩ := lookupTqueue_some hd
    have htd : tq ≠ deadTq := fun ht => hne (ht ▸ hdp)
    have hidle := he.wf.not_idle (List.mem_of_head? (he.head tq (hm.head tq hh)))
    have hover := takeOver_conserves htd (he.live tq hl) (he.live deadTq hdl) hidle
    have hkeeps := takeOver_keeps he.wf tq deadTq
    refine ((hc.trans hkeep).trans hover).trans ?_
    unfold playerConnected
    split
    · exact (freeTaskQueue_frame hkeeps.wf (hkeeps.live deadTq (he.live deadTq hdl))).conserves
    · exact (Frame.refl _).conserves

/-! ## The books -/

/-- The ledger accounts for every task, and the waiting list is in order. -/
structure Books (w : Tasks) (g : Ledger) : Prop where
  wf : Wf w
  accounted : Accounted w w.waiting
  stray : Stray w
  ordered : Ordered w.waiting g.accepted
  balance : keys g.accepted = keys w.waiting + w.load + keys g.ran + keys g.killed

variable {g : Ledger}

theorem Conserves.books (h : Conserves w w') (hb : Books w g) (hwf : Wf w')
    (ha : Accounted w' w'.waiting) : Books w' g :=
  ⟨hwf, ha, h.stray hb.stray, by rw [h.waiting]; exact hb.ordered,
    by rw [h.waiting, h.load]; exact hb.balance⟩

theorem Books.enqueueWaiting (h : Books w g) (t : BgTask) :
    Books (w.enqueueWaiting t) { g with accepted := g.accepted ++ [t] } := by
  have hf := findTqueue_spec h.wf t.progr
  have hm : Frame w ((w.findTqueue t.progr).2.modify (w.findTqueue t.progr).1 fun q =>
    { q with numBgTasks := q.numBgTasks + 1 }) :=
    hf.frame.trans (modify_frame (fun _ => by rfl) fun _ => by rfl)
  have hw : (w.enqueueWaiting t).waiting = insertWaiting t w.waiting := by
    change insertWaiting t (w.findTqueue t.progr).2.waiting = _
    rw [hf.waiting]
  refine ⟨(enqueueWaiting_evolves h.wf t).wf, h.accounted.enqueueWaiting h.wf t,
    hm.stray h.stray, ?_, ?_⟩
  · rw [hw]
    exact h.ordered.insert t
  · have hload : (w.enqueueWaiting t).load = w.load := load_congr hm.bg
    have hkeys : keys (insertWaiting t w.waiting) = keys [t] + keys w.waiting := by
      rw [← keys_cons]
      exact Multiset.coe_eq_coe.mpr ((insertWaiting_perm t w.waiting).map _)
    dsimp only
    rw [hw, hload, hkeys, keys_append, h.balance]
    abel

theorem Books.killTask (h : Books w g) (id : Int) (owner : Objid) (wizard : Bool) :
    Books (w.killTask id owner wizard).2 (g.kill (w.victim id) (w.killTask id owner wizard).1) := by
  have hk := killTask_spec w id owner wizard
  have ha := h.accounted.killTask id owner wizard
  have hwf := (killTask_evolves h.wf id owner wizard).wf
  generalize w.killTask id owner wizard = r at hk ha hwf ⊢
  obtain ⟨e, w'⟩ := r
  unfold Ledger.kill
  by_cases he : e = .E_NONE
  · rw [if_pos he]
    cases hv : w.victim id with
    | none =>
      rw [Option.toList_none, List.append_nil]
      exact (hk.spared he hv).conserves.books h hwf ha
    | some t =>
      obtain ⟨_, hleaves⟩ := hk.killed he t hv
      refine ⟨hwf, ha, hk.stray h.stray, h.ordered.sublist hleaves.sublist, ?_⟩
      dsimp only
      rw [Option.toList_some, keys_append, h.balance, hleaves.balance]
      abel
  · rw [if_neg he, hk.refused he]
    exact h

theorem Books.doResume (h : Books w g) (id : Int) (value : Var) (progr : Objid)
    (wizard : Bool) (now : Int) :
    Books (w.doResume id value progr wizard now).2 g := by
  have hr := doResume_spec h.wf id value progr wizard now
  have ha := h.accounted.doResume h.wf id value progr wizard now
  have hwf := (doResume_evolves h.wf id value progr wizard now).wf
  generalize w.doResume id value progr wizard now = r at hr ha hwf ⊢
  obtain ⟨e, w'⟩ := r
  by_cases he : e = .E_NONE
  · have hres := hr.resumed he
    exact ⟨hwf, ha, hr.stray h.stray, h.ordered.sublist hres.sublist,
      by rw [hres.balance]; exact h.balance⟩
  · rw [hr.refused he]
    exact h

theorem Books.op (h : Books w g) {o : TaskOp} (ho : o.counts) : Books (w.op o) (g.op w o) := by
  have ha := h.accounted.op h.wf ho
  have hwf := (op_evolves h.wf o).wf
  -- most calls move no task: the ledger is the same, and the books are right as before
  have hframe : Frame w (w.op o) → Books (w.op o) g := fun hf => hf.conserves.books h hwf ha
  cases o with
  | serverNewConnection handler => exact hframe (serverNewConnection_frame h.wf handler)
  | freeTaskQueue tq =>
    refine hframe ?_
    dsimp only [Tasks.op]
    refine onLive_frame fun hl => ?_
    exact freeTaskQueue_frame h.wf hl
  | enqueueInputTask tq t input atFront binary =>
    refine hframe ?_
    dsimp only [Tasks.op]
    refine onLive_frame fun hl => ?_
    exact enqueueInputTask_frame h.wf hl t input atFront binary
  | forceInput conn t input atFront =>
    have hf := findTqueue_spec h.wf conn
    exact hframe (hf.frame.trans (enqueueInputTask_frame (hf.wf h.wf)
      (findTqueue_live h.wf conn) t input atFront false))
  | flushInput tq =>
    refine hframe ?_
    dsimp only [Tasks.op]
    refine onLive_frame fun _ => ?_
    exact modify_frame (fun _ => by rfl) fun _ => by rfl
  | flushInputOf conn =>
    refine hframe ((findTqueue_frame h.wf conn).trans ?_)
    dsimp only [Tasks.op, Tasks.flushInput]
    exact modify_frame (fun _ => by rfl) fun _ => by rfl
  | setHoldInput tq b =>
    refine hframe ?_
    dsimp only [Tasks.op]
    refine onLive_frame fun hl => ?_
    exact modify_ensure_frame h.wf hl (fun _ => by rfl) (fun _ => by rfl) (fun _ => by rfl) _
  | setDisableOob tq b =>
    refine hframe ?_
    dsimp only [Tasks.op]
    refine onLive_frame fun hl => ?_
    exact modify_ensure_frame h.wf hl (fun _ => by rfl) (fun _ => by rfl) (fun _ => by rfl) _
  | readInputNow connection => exact hframe (readInputNow_frame w connection)
  | makeReadingTask vm player => exact hframe (makeReadingTask_frame h.wf vm player)
  | enqueueForkedTask2 id progr startTv property serverOption =>
    dsimp only [Tasks.op, Ledger.op, enqueueForkedTask2, Ledger.accept]
    split
    · exact h.enqueueWaiting _
    · exact h
  | enqueueSuspendedTask id progr startTv property serverOption =>
    dsimp only [Tasks.op, Ledger.op, enqueueSuspendedTask, Ledger.accept]
    split
    · exact h.enqueueWaiting _
    · exact h
  | resumeTask id progr value => simp [TaskOp.counts] at ho
  | doResume id value progr wizard now => exact h.doResume id value progr wizard now
  | killTask id owner wizard => exact h.killTask id owner wizard

theorem Books.ops (h : Books w g) {l : List TaskOp} (hl : ∀ o ∈ l, o.counts) :
    Books (w.ops l) (g.ops w l) := by
  induction l generalizing w g with
  | nil => exact h
  | cons o l ih =>
    exact ih (h.op (hl o List.mem_cons_self)) fun o' ho' => hl o' (List.mem_cons_of_mem _ ho')

theorem Books.runTask (h : Books w g) (taskId : Int) {s : Script} (hs : ∀ o ∈ s.ops, o.counts) :
    Books (w.runTask taskId s) (g.runTask w taskId s) := by
  have h' : Books { w with currentTaskId := taskId } g :=
    ⟨⟨h.wf.nodup, h.wf.idle, h.wf.active, h.wf.fresh⟩,
      ⟨h.accounted.distinct, h.accounted.count, h.accounted.covered, h.accounted.connected,
        h.accounted.next⟩,
      h.stray, h.ordered, h.balance⟩
  exact h'.ops hs

theorem Books.doLoginTask (h : Books w g) (hh : w.active.head? = some tq)
    (hp : (w.tqueues tq).player < 0) {s : Script}
    (hs : ∀ o ∈ s.ops, o.counts) (hc : ∀ o ∈ s.connect, o.counts) :
    Books (w.doLoginTask tq s) (g.doLoginTask w tq s) := by
  have hl : w.Live tq := List.mem_append_left _ (List.mem_of_head? hh)
  have hr := h.runTask s.taskId hs
  have he := runTask_evolves h.wf s.taskId s
  unfold Tasks.doLoginTask Ledger.doLoginTask
  dsimp only
  cases hu : (w.runTask s.taskId s).loginUser tq s with
  | none => exact hr
  | some newPlayer =>
    have hcon : ((w.runTask s.taskId s).tqueues tq).connected = true := by
      unfold loginUser at hu
      split at hu
      · assumption
      · simp at hu
    have hne : ((w.runTask s.taskId s).tqueues tq).player ≠ (newPlayer : Objid) := by
      rw [he.player tq hl]
      exact Int.ne_of_lt (Int.lt_of_lt_of_le hp (Int.natCast_nonneg newPlayer))
    have hn : (newPlayer : Objid) ≠ NOTHING :=
      Int.ne_of_gt (Int.lt_of_lt_of_le (by decide : NOTHING < 0) (Int.natCast_nonneg newPlayer))
    have hold := hr.accounted.connected tq (he.live tq hl) hcon
    obtain ⟨hacc, hwait⟩ := login_accounted hr.accounted hr.wf (he.live tq hl) hcon hne hn
    rw [← hwait] at hacc
    have hlog := login_conserves hr.wf (he.head tq hh) hold hne hn
    exact (hlog.books hr (login_keeps hr.wf tq newPlayer).wf hacc).ops hc

theorem Books.runWork (h : Books w g) (hh : w.active.head? = some tq) (work : Work) {s : Script}
    (hs : ∀ o ∈ s.ops, o.counts) (hc : ∀ o ∈ s.connect, o.counts) :
    Books (w.runWork tq work s) (g.runWork w tq work s) := by
  have hread : Books (w.modify tq fun q => { q with reading := none }) g := by
    refine (modify_frame (fun _ => by rfl) fun _ => by rfl).conserves.books h
      (h.wf.modify fun _ => by rfl) ?_
    exact h.accounted.modify ⟨rfl, rfl, rfl, fun hc => hc⟩
  cases work with
  | endOfInput vm => exact hread.runTask vm hs
  | bg t => exact h.runTask t.id hs
  | input t =>
    unfold Tasks.runWork Ledger.runWork
    dsimp only
    by_cases ho : t.isOob = true
    · rw [if_pos ho, if_pos ho]
      exact h.runTask s.taskId hs
    · rw [if_neg ho, if_neg ho]
      cases (w.tqueues tq).reading with
      | some vm => exact hread.runTask vm hs
      | none =>
        dsimp only
        split
        · exact h.runTask s.taskId hs
        · next hp => exact h.doLoginTask hh (Int.not_le.mp hp) hs hc

/-- What the task that was taken, if any, adds. -/
def takeSome (g : Ledger) : Option Work → Ledger
  | none => g
  | some work => g.take work

theorem Books.dequeueBgTask (h : Books w g) (hl : w.Live tq) :
    Books (w.dequeueBgTask tq).2 (takeSome g ((w.dequeueBgTask tq).1.map .bg)) := by
  obtain ⟨hwait, hload, hstray⟩ := dequeueBgTask_spec hl
  have ha := h.accounted.dequeueBgTask hl
  have hwf := (dequeueBgTask_taken w tq).wf h.wf
  have hord := h.ordered
  have hbal := h.balance
  rw [← hwait] at ha hord hbal
  rw [← hload] at hbal
  generalize w.dequeueBgTask tq = d at *
  obtain ⟨_ | t, w'⟩ := d
  · change keys g.accepted = _ + (_ + 0) + _ + _ at hbal
    rw [add_zero] at hbal
    exact ⟨hwf, ha, hstray h.stray, hord, hbal⟩
  · refine ⟨hwf, ha, hstray h.stray, hord, ?_⟩
    change keys g.accepted = _ + _ + keys (g.ran ++ [t]) + _
    rw [hbal, keys_append]
    change _ + (_ + keys [t]) + _ + _ = _
    abel

theorem Books.dequeueInputTask (h : Books w g) (tq : Nat) (how : DequeueHow) :
    Books (w.dequeueInputTask tq how).2 g := by
  have hf : Frame w (w.dequeueInputTask tq how).2 := by
    dsimp only [Tasks.dequeueInputTask]
    exact modify_frame (fun _ => by rfl) fun _ => by rfl
  exact hf.conserves.books h ((dequeueInputTask_taken w tq how).wf h.wf)
    (h.accounted.dequeueInputTask tq how)

theorem Books.takeTask (h : Books w g) (hl : w.Live tq) (blank : Nat → Str → Bool) (n : Nat) :
    Books (takeTask blank tq n w).2 (takeSome g (takeTask blank tq n w).1) := by
  induction n generalizing w with
  | zero => exact h.dequeueBgTask hl
  | succ n ih =>
    have hd := h.dequeueInputTask tq (w.tqueues tq).how
    have hl' : (w.dequeueInputTask tq (w.tqueues tq).how).2.Live tq := hl
    unfold Tasks.takeTask
    generalize w.dequeueInputTask tq (w.tqueues tq).how = d at hd hl' ⊢
    obtain ⟨_ | t, w'⟩ := d
    · exact hd.dequeueBgTask hl'
    · dsimp only
      split
      · exact ih hd hl'
      · exact hd

theorem Books.deactivate (h : Books w g) (hh : w.active.head? = some tq)
    (hq : (w.tqueues tq).firstBg = []) :
    Books ({ w with active := w.afterActive tq }.deactivateTqueue tq) g := by
  obtain ⟨hb, hnl⟩ := h.wf.behead hh
  have hl : w.Live tq := List.mem_append_left _ (List.mem_of_head? hh)
  have hlive : ∀ j, ({ w with active := w.afterActive tq }.deactivateTqueue tq).Live j ↔
    w.Live j := by
    intro j
    rw [live_behead hh]
    unfold Live
    rw [deactivate_active, deactivate_idle, List.perm_middle.mem_iff, List.mem_cons]
  have hsame : ∀ j, (({ w with active := w.afterActive tq }.deactivateTqueue tq).tqueues j).player =
    (w.tqueues j).player ∧
      (({ w with active := w.afterActive tq }.deactivateTqueue tq).tqueues j).firstBg =
        (w.tqueues j).firstBg ∧
      SameAccount (w.tqueues j)
        (({ w with active := w.afterActive tq }.deactivateTqueue tq).tqueues j) := by
    intro j
    by_cases hj : j = tq
    · rw [hj, deactivate_self]
      exact ⟨rfl, rfl, rfl, rfl, rfl, id⟩
    · rw [deactivate_ne hj]
      exact ⟨rfl, rfl, rfl, rfl, rfl, id⟩
  have hf : Frame w ({ w with active := w.afterActive tq }.deactivateTqueue tq) := by
    refine ⟨rfl, fun j => bg_congr (hlive j) (hsame j).2.1, fun hs j hj hn => ?_⟩
    rw [(hsame j).1] at hn
    rw [(hsame j).2.1]
    rcases List.mem_cons.mp hj with rfl | hj
    · exact hq
    · exact hs j hj hn
  exact hf.conserves.books h (hb.deactivate hnl (h.wf.fresh tq hl))
    (h.accounted.congr hlive (fun j _ => (hsame j).2.2) rfl)

theorem Books.selectWork (h : Books w g) (blank : Nat → Str → Bool) (n : Nat) :
    Books (selectWork blank n w).2 (takeSome g ((selectWork blank n w).1.map Prod.snd)) := by
  induction n generalizing w with
  | zero => exact h
  | succ n ih =>
    unfold Tasks.selectWork
    cases ha : w.active with
    | nil => exact h
    | cons tq r =>
      have hh : w.active.head? = some tq := by rw [ha]; rfl
      have hl : w.Live tq := List.mem_append_left _ (List.mem_of_head? hh)
      have ht := takeTask_taken blank tq (w.tqueues tq).input.length w
      have hb := h.takeTask hl blank (w.tqueues tq).input.length
      have hnone := @takeTask_none w tq blank _ (Nat.le_refl _)
      dsimp only
      split
      · exact h
      · next hro =>
        have hr : ¬ ((w.tqueues tq).reading.isSome ∧ (w.tqueues tq).isOutOfInput) := by
          rintro ⟨hs, ho⟩
          obtain ⟨vm, hvm⟩ := Option.isSome_iff_exists.mp hs
          exact hro vm hvm ho
        have hnone := hnone hr
        generalize Tasks.takeTask blank tq (w.tqueues tq).input.length w = d at ht hb hnone ⊢
        obtain ⟨_ | work', w'⟩ := d
        · -- the queue has no tasks when it becomes idle
          have hh' : w'.active.head? = some tq := by rw [ht.active]; exact hh
          exact ih (Books.deactivate hb hh' (hnone rfl).firstBg)
        · exact hb

theorem Books.runSelected (h : Books w g) (hh : w.active.head? = some tq) (work : Work) {s : Script}
    (hs : ∀ o ∈ s.ops, o.counts) (hc : ∀ o ∈ s.connect, o.counts) :
    Books (w.runSelected tq work s) (g.runWork w tq work s) := by
  have hk := runWork_keeps h.wf tq work s
  have hr := h.runWork hh work hs hc
  have hh' := hk.head tq hh
  have hlive : ∀ j, (w.runSelected tq work s).Live j ↔ (w.runWork tq work s).Live j := by
    intro j
    unfold Tasks.runSelected
    dsimp only
    rw [live_activate, live_behead hh']
    rfl
  have hsame : ∀ j, ((w.runSelected tq work s).tqueues j).player =
      ((w.runWork tq work s).tqueues j).player ∧
      ((w.runSelected tq work s).tqueues j).firstBg =
        ((w.runWork tq work s).tqueues j).firstBg := by
    intro j
    change (Function.update (w.runWork tq work s).tqueues tq _ j).player = _ ∧
      (Function.update (w.runWork tq work s).tqueues tq _ j).firstBg = _
    by_cases hj : j = tq
    · rw [hj, Function.update_self]
      exact ⟨rfl, rfl⟩
    · rw [Function.update_of_ne hj]
      exact ⟨rfl, rfl⟩
  have hf : Frame (w.runWork tq work s) (w.runSelected tq work s) := by
    refine ⟨rfl, fun j => bg_congr (hlive j) (hsame j).2, fun hst j hj hn => ?_⟩
    rw [(hsame j).1] at hn
    rw [(hsame j).2]
    exact hst j hj hn
  exact hf.conserves.books hr (runSelected_wf h.wf hh work s)
    (h.accounted.runSelected h.wf hh work hs hc)

/-- The queues that are freed have no tasks. -/
theorem Books.freeUnconnected (h : Books w g) : Books w.freeUnconnected g := by
  have hsub : ∀ j, w.freeUnconnected.Live j → w.Live j := by
    intro j hj
    exact List.mem_append.mpr ((List.mem_append.mp hj).imp id List.mem_of_mem_filter)
  have hbg : ∀ j, w.freeUnconnected.bg j = w.bg j := by
    intro j
    by_cases hj : w.Live j
    · by_cases hf : w.freeUnconnected.Live j
      · exact bg_congr (iff_of_true hf hj) rfl
      · rw [bg_off hf, bg_live hj]
        by_cases hp : (w.tqueues j).player = NOTHING
        · have hi : j ∈ w.idle := by
            rcases List.mem_append.mp hj with ha | hi
            · exact absurd (List.mem_append_left _ ha) hf
            · exact hi
          exact (h.stray j hi hp).symm
        · exact (freed_empty h.accounted hj hf hp).1.symm
    · rw [bg_off hj, bg_off fun hf => hj (hsub j hf)]
  have hf : Frame w w.freeUnconnected := ⟨rfl, hbg, fun hs j hj => hs j (List.mem_of_mem_filter hj)⟩
  exact hf.conserves.books h (freeUnconnected_wf h.wf) h.accounted.freeUnconnected

theorem Books.wakeWaiting (h : Books w g) (now : Int) : Books (w.wakeWaiting now) g := by
  obtain ⟨hw, hstray⟩ := wakeWaiting_spec h.wf h.accounted h.ordered.sorted now
  refine ⟨(wakeWaiting_evolves h.wf now).wf, h.accounted.wakeWaiting h.wf now,
    hstray h.stray, ?_, ?_⟩
  · rw [hw.waiting]
    exact h.ordered.sublist List.filter_sublist
  · -- a task is either ready or not
    have hsplit : keys w.waiting =
        keys (w.waiting.filter fun t => t.startTv ≤ now) +
          keys (w.waiting.filter fun t => now < t.startTv) := by
      obtain ⟨htake, hdrop⟩ := takeWhile_ready h.ordered.sorted now
      rw [← htake, ← hdrop, ← keys_append, List.takeWhile_append_dropWhile]
    rw [h.balance, hw.waiting, hw.load, hsplit]
    abel

theorem Books.step (h : Books w g) {o : ServerOp} (ho : o.counts) :
    Books (w.step o) (g.step w o) := by
  cases o with
  | op o => exact h.op ho
  | runReadyTasks now s =>
    simp only [ServerOp.counts, Bool.and_eq_true, List.all_eq_true] at ho
    have hw := h.wakeWaiting now
    have hsel := hw.selectWork s.blank (w.wakeWaiting now).active.length
    have hhead := (selectWork_wf s.blank (w.wakeWaiting now).active.length hw.wf).2
    dsimp only [Tasks.step, Ledger.step, Tasks.runReadyTasks, runOneTask, Ledger.runReadyTasks]
    refine Books.freeUnconnected ?_
    generalize Tasks.selectWork s.blank (w.wakeWaiting now).active.length (w.wakeWaiting now) =
      d at hsel hhead ⊢
    obtain ⟨_ | ⟨tq, work⟩, w'⟩ := d
    · exact hsel
    · exact Books.runSelected hsel (hhead tq work rfl) work ho.1 ho.2

theorem run_books (h : Books w g) {l : List ServerOp} (hl : ∀ o ∈ l, o.counts) :
    Books (w.run l) (g.run w l) := by
  induction l generalizing w g with
  | nil => exact h
  | cons o l ih =>
    exact ih (h.step (hl o List.mem_cons_self)) fun o' ho' => hl o' (List.mem_cons_of_mem _ ho')

theorem empty_books : Books empty Ledger.empty :=
  ⟨empty_wf, empty_accounted, fun _ h => absurd h List.not_mem_nil, ⟨.nil, fun _ => .refl _⟩, rfl⟩

/-- The tasks in the lists of the queues. -/
def background (w : Tasks) : List BgTask :=
  (w.active ++ w.idle).flatMap fun tq => (w.tqueues tq).firstBg

theorem load_background (h : Wf w) : w.load = keys w.background := by
  have key : ∀ l : List Nat, l.Nodup →
      ∑ tq ∈ l.toFinset, keys (w.tqueues tq).firstBg =
        keys (l.flatMap fun tq => (w.tqueues tq).firstBg) := by
    intro l hl
    induction l with
    | nil => rfl
    | cons tq l ih =>
      obtain ⟨hn, hl⟩ := List.nodup_cons.mp hl
      rw [List.toFinset_cons, Finset.sum_insert (by simpa using hn), ih hl,
        List.flatMap_cons, keys_append]
  exact key _ h.nodup

/-- In every state that a run without `resume_task` reaches, the waiting list is sorted and stable,
and the tasks in it and in the queues, with those that were run and those that were killed, are the
tasks that were accepted, each of them once. From such a state, waking takes the tasks whose time
has come to the queues of their programmers, in order, and killing or resuming a task leaves all
others in order. -/
theorem run_ledger (l : List ServerOp) (hl : ∀ o ∈ l, o.counts) :
    Ordered (empty.run l).waiting (Ledger.empty.run empty l).accepted ∧
      ((Ledger.empty.run empty l).accepted.map BgTask.key).Perm
        (((empty.run l).waiting ++ (empty.run l).background ++ (Ledger.empty.run empty l).ran ++
          (Ledger.empty.run empty l).killed).map BgTask.key) ∧
      (∀ now, Woke (empty.run l) ((empty.run l).wakeWaiting now) now) ∧
      (∀ id owner wizard, Killed (empty.run l) ((empty.run l).killTask id owner wizard).2 id
        ((empty.run l).killTask id owner wizard).1) ∧
      ∀ id value progr wizard now, Resumes (empty.run l)
      ((empty.run l).doResume id value progr wizard now).2 id value now
        ((empty.run l).doResume id value progr wizard now).1 := by
  have h := run_books empty_books hl
  refine ⟨h.ordered, Multiset.coe_eq_coe.mp ?_, fun now =>
    (wakeWaiting_spec h.wf h.accounted h.ordered.sorted now).1,
    fun id owner wizard => killTask_spec _ id owner wizard,
    fun id value progr wizard now => doResume_spec h.wf id value progr wizard now⟩
  have hb := h.balance
  rw [load_background h.wf, ← keys_append, ← keys_append, ← keys_append] at hb
  exact hb

/-- Three tasks wait, one of them is killed, and one runs. -/
def ledgerRun : List ServerOp :=
  [.op (.enqueueForkedTask2 7 5 3 none (-1)), .op (.enqueueSuspendedTask 8 5 1 none (-1)),
    .op (.enqueueForkedTask2 9 6 3 none (-1)), .op (.killTask 7 5 false),
    .runReadyTasks 2 Script.nothing]

/-- The suspended task has run, and the task of the other programmer waits. -/
theorem run_ledger_tasks :
    Ordered (empty.run ledgerRun).waiting (Ledger.empty.run empty ledgerRun).accepted ∧
      (empty.run ledgerRun).waiting.map BgTask.id = [9] ∧
      (Ledger.empty.run empty ledgerRun).ran.map BgTask.id = [8] ∧
        (Ledger.empty.run empty ledgerRun).killed.map BgTask.id = [7] :=
  ⟨(run_ledger ledgerRun (by decide)).1, rfl, rfl, rfl⟩

end Tasks
end Task
end NuMoo
