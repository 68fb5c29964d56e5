import Mathlib.Logic.Function.Basic
import NuMoo.Task.Input

/-!
# Task queues

The queues of `tasks.c`: one `tqueue` for each connection or programmer, on the list of
idle or on that of active queues, and the list of waiting tasks. The lines of a queue are
a plain list, which `InputRuns` relates to memory. What a task does when it runs is a list
of the operations that it makes on the queues.
-/

namespace NuMoo
namespace Task

/-- The kinds of `task_kind` that run in the background. -/
inductive BgKind where
  | TASK_FORKED | TASK_SUSPENDED
deriving DecidableEq, Repr

/-- A forked or suspended task. The value is the one that a suspended task resumes with. -/
structure BgTask where
  kind : BgKind
  id : Int
  progr : Objid
  startTv : Int
  value : Var

/-- `tqueue`. `reading` holds the task that waits in `read()`. -/
structure TQueue where
  player : Objid
  handler : Objid
  connected : Bool
  input : List InputTask
  firstBg : List BgTask
  usage : Int
  numBgTasks : Int
  holdInput : Bool
  disableOob : Bool
  reading : Option Int

/-- The queues and the lists that they are on. A queue that is freed is on neither. -/
structure Tasks where
  tqueues : Nat → TQueue
  idle : List Nat
  active : List Nat
  waiting : List BgTask
  fresh : Nat
  currentTaskId : Int
  nextUnconnectedPlayer : Objid

/-- `NO_USAGE` -/
def NO_USAGE : Int := -1

/-- `is_out_of_input` -/
def TQueue.isOutOfInput (q : TQueue) : Bool := !q.connected && q.input.isEmpty

/-- The mode in which `run_ready_tasks` takes lines. -/
def TQueue.how (q : TQueue) : DequeueHow :=
  if q.holdInput && q.reading.isNone then .DQ_OOB else .DQ_FIRST

/-- The queue that `find_tqueue` makes. -/
def TQueue.create (player : Objid) : TQueue where
  player := player
  handler := 0
  connected := false
  input := []
  firstBg := []
  usage := NO_USAGE
  numBgTasks := 0
  holdInput := false
  disableOob := false
  reading := none

namespace Tasks

/-- The state before the first connection. -/
def empty : Tasks where
  tqueues := fun _ => TQueue.create NOTHING
  idle := []
  active := []
  waiting := []
  fresh := 0
  currentTaskId := 0
  nextUnconnectedPlayer := NOTHING - 1

/-- A change of one queue. -/
def modify (w : Tasks) (tq : Nat) (f : TQueue → TQueue) : Tasks :=
  { w with tqueues := Function.update w.tqueues tq (f (w.tqueues tq)) }

/-- `deactivate_tqueue` -/
def deactivateTqueue (w : Tasks) (tq : Nat) : Tasks :=
  { w.modify tq fun q => { q with usage := NO_USAGE } with idle := tq :: w.idle }

/-- Where `activate_tqueue` links a queue. -/
def insertByUsage (usage : Nat → Int) (tq : Nat) : List Nat → List Nat
  | [] => [tq]
  | qq :: l => if usage qq ≤ usage tq then qq :: insertByUsage usage tq l else tq :: qq :: l

/-- `activate_tqueue` -/
def activateTqueue (w : Tasks) (tq : Nat) : Tasks :=
  { w with active := insertByUsage (fun i => (w.tqueues i).usage) tq w.active }

/-- `active_tqueues ? active_tqueues->usage : 0` -/
def firstUsage (w : Tasks) : Int :=
  match w.active with
  | [] => 0
  | tq :: _ => (w.tqueues tq).usage

/-- `ensure_usage` -/
def ensureUsage (w : Tasks) (tq : Nat) : Tasks :=
  if (w.tqueues tq).usage = NO_USAGE then
    activateTqueue
      { w.modify tq fun q => { q with usage := w.firstUsage } with idle := w.idle.erase tq } tq
  else w

/-- `find_tqueue` with `create_if_not_found` clear. -/
def lookupTqueue (w : Tasks) (player : Objid) : Option Nat :=
  (w.active ++ w.idle).find? fun tq => (w.tqueues tq).player = player

/-- `find_tqueue` with `create_if_not_found` set. -/
def findTqueue (w : Tasks) (player : Objid) : Nat × Tasks :=
  match w.lookupTqueue player with
  | some tq => (tq, w)
  | none =>
    (w.fresh, { w with
      tqueues := Function.update w.tqueues w.fresh (TQueue.create player), idle :=
        w.fresh :: w.idle, fresh := w.fresh + 1 })

@[simp] theorem findTqueue_waiting (w : Tasks) (player : Objid) :
    (w.findTqueue player).2.waiting = w.waiting := by
  unfold findTqueue
  split <;> rfl

/-- `enqueue_bg_task` -/
def enqueueBgTask (w : Tasks) (tq : Nat) (t : BgTask) : Tasks :=
  w.modify tq fun q => { q with firstBg := q.firstBg ++ [t] }

/-- `dequeue_bg_task` -/
def dequeueBgTask (w : Tasks) (tq : Nat) : Option BgTask × Tasks :=
  match (w.tqueues tq).firstBg with
  | [] => (none, w)
  | t :: l => (some t, w.modify tq fun q => { q with firstBg := l, numBgTasks := q.numBgTasks - 1 })

/-- `dequeue_input_task` -/
def dequeueInputTask (w : Tasks) (tq : Nat) (how : DequeueHow) : Option InputTask × Tasks :=
  let (t, l) := dequeue (w.tqueues tq).disableOob how (w.tqueues tq).input
  (t, w.modify tq fun q => { q with input := l })

/-- `enqueue_input_task` -/
def enqueueInputTask (w : Tasks) (tq t : Nat) (input : Str) (atFront binary : Bool) : Tasks :=
  let w := w.modify tq fun q => { q with input := enqueue t input atFront binary q.input }
  let q := w.tqueues tq
  if !q.holdInput || q.reading.isSome || (!q.disableOob && (inputKind input binary).isOob) then
    w.ensureUsage tq else w

/-- `flush_input` -/
def flushInput (w : Tasks) (tq : Nat) : Tasks := w.modify tq fun q => { q with input := [] }

/-- `new_task_queue` -/
def newTaskQueue (w : Tasks) (player handler : Objid) : Tasks :=
  let (tq, w) := w.findTqueue player
  w.modify tq fun q => { q with connected := true, handler := handler }

/-- `server_new_connection`, as far as it makes a queue. -/
def serverNewConnection (w : Tasks) (handler : Objid) : Tasks :=
  { w with nextUnconnectedPlayer := w.nextUnconnectedPlayer - 1 }.newTaskQueue
    w.nextUnconnectedPlayer handler

/-- `free_task_queue` -/
def freeTaskQueue (w : Tasks) (tq : Nat) : Tasks :=
  let w := w.modify tq fun q => { q with connected := false }
  if (w.tqueues tq).reading.isSome then w.ensureUsage tq else w

/-- The connection option `hold-input`. -/
def setHoldInput (w : Tasks) (tq : Nat) (b : Bool) : Tasks :=
  let w := w.modify tq fun q => { q with holdInput := b }
  if !b && !(w.tqueues tq).input.isEmpty then w.ensureUsage tq else w

/-- Whether the first line is out-of-band or a line follows the first sequence. -/
def hasOob : List InputTask → Bool
  | [] => false
  | f :: l => !(l.dropWhile fun t => t.isOob = f.isOob).isEmpty || f.isOob

/-- The connection option `disable-oob`. -/
def setDisableOob (w : Tasks) (tq : Nat) (b : Bool) : Tasks :=
  let w := w.modify tq fun q => { q with disableOob := b }
  if !b && hasOob (w.tqueues tq).input then w.ensureUsage tq else w

/-- Where `enqueue_waiting` links a task. -/
def insertWaiting (t : BgTask) : List BgTask → List BgTask
  | [] => [t]
  | u :: l => if t.startTv < u.startTv then t :: u :: l else u :: insertWaiting t l

/-- `enqueue_waiting` -/
def enqueueWaiting (w : Tasks) (t : BgTask) : Tasks :=
  let (tq, w) := w.findTqueue t.progr
  let w := w.modify tq fun q => { q with numBgTasks := q.numBgTasks + 1 }
  { w with waiting := insertWaiting t w.waiting }

/-- `check_user_task_limit`, for the user's property and the server option `queued_task_limit`. -/
def checkUserTaskLimit (w : Tasks) (user : Objid) (property : Option Int)
    (serverOption : Int) : Bool :=
  let limit := property.getD (-1)
  let limit := if limit < 0 then serverOption else limit
  if limit < 0 then true
  else
    match w.lookupTqueue user with
    | none => 0 < limit
    | some tq => (w.tqueues tq).numBgTasks < limit

/-- `enqueue_forked_task2` -/
def enqueueForkedTask2 (w : Tasks) (id : Int) (progr : Objid) (startTv : Int)
    (property : Option Int) (serverOption : Int) :
    ErrCode × Tasks :=
  if w.checkUserTaskLimit progr property serverOption then
    (.E_NONE, w.enqueueWaiting
      { kind := .TASK_FORKED, id := id, progr := progr, startTv := startTv, value := .int 0 })
  else (.E_QUOTA, w)

/-- `enqueue_suspended_task` -/
def enqueueSuspendedTask (w : Tasks) (id : Int) (progr : Objid) (startTv : Int)
    (property : Option Int) (serverOption : Int) :
    ErrCode × Tasks :=
  if w.checkUserTaskLimit progr property serverOption then
    (.E_NONE, w.enqueueWaiting
      { kind := .TASK_SUSPENDED, id := id, progr := progr, startTv := startTv, value := .int 0 })
  else (.E_QUOTA, w)

/-- `resume_task` -/
def resumeTask (w : Tasks) (id : Int) (progr : Objid) (value : Var) : Tasks :=
  let (tq, w) := w.findTqueue progr
  (w.enqueueBgTask tq { kind := .TASK_SUSPENDED, id := id, progr := progr, startTv := 0,
                        value := value }).ensureUsage tq

/-- `read_input_now` -/
def readInputNow (w : Tasks) (connection : Objid) : Var × Tasks :=
  match w.lookupTqueue connection with
  | none => (.err .E_INVARG, w)
  | some tq =>
    if (w.tqueues tq).isOutOfInput then (.err .E_INVARG, w)
    else
      match w.dequeueInputTask tq .DQ_INBAND with
      | (none, w) => (.int 0, w)
      | (some t, w) => (.str t.string, w)

/-- `make_reading_task` -/
def makeReadingTask (w : Tasks) (vm : Int) (player : Objid) : ErrCode × Tasks :=
  match w.lookupTqueue player with
  | none => (.E_INVARG, w)
  | some tq =>
    let q := w.tqueues tq
    if q.reading.isSome || q.isOutOfInput then (.E_INVARG, w)
    else
      let w := w.modify tq fun q => { q with reading := some vm }
      (.E_NONE, if q.input.isEmpty then w else w.ensureUsage tq)

/-- The first queue of a list whose reading task is `id`, or that has `id` among its tasks. -/
def holding (w : Tasks) (id : Int) (background : Bool) (l : List Nat) : Option Nat :=
  l.find? fun tq =>
    (w.tqueues tq).reading = some id ||
      (background && (w.tqueues tq).firstBg.any fun t => t.id = id)

/-- `kill_task`, for a caller that is a wizard or not. Tasks of other servers are not looked at. -/
def killTask (w : Tasks) (id : Int) (owner : Objid) (wizard : Bool) : ErrCode × Tasks :=
  if id = w.currentTaskId then (.E_NONE, w)
  else
    match w.waiting.find? fun t => t.id = id with
    | some t =>
      if !wizard && owner ≠ t.progr then (.E_PERM, w)
      else
        let w :=
          match w.lookupTqueue t.progr with
          | none => w
          | some tq => w.modify tq fun q => { q with numBgTasks := q.numBgTasks - 1 }
        (.E_NONE, { w with waiting := w.waiting.eraseP fun t => t.id = id })
    | none =>
      match (w.holding id false w.idle).or (w.holding id true w.active) with
      | none => (.E_INVARG, w)
      | some tq =>
        if !wizard && owner ≠ (w.tqueues tq).player then (.E_PERM, w)
        else if (w.tqueues tq).reading = some id then
          (.E_NONE, w.modify tq fun q => { q with reading := none })
        else
          (.E_NONE, w.modify tq fun q =>
            { q with firstBg := q.firstBg.eraseP fun t => t.id = id,
                     numBgTasks := q.numBgTasks - 1 })

/-- The test for a suspended task that `do_resume` makes. -/
def suspendedAs (id : Int) (t : BgTask) : Bool := t.kind = .TASK_SUSPENDED && t.id = id

/-- `do_resume` for a task that is ready: the first one gets a new value. -/
def setValue (id : Int) (value : Var) : List BgTask → List BgTask
  | [] => []
  | t :: l => if suspendedAs id t then { t with value := value } :: l else t :: setValue id value l

/-- `do_resume`, for a caller that is a wizard or not. -/
def doResume (w : Tasks) (id : Int) (value : Var) (progr : Objid) (wizard : Bool) (now : Int) :
    ErrCode × Tasks :=
  match w.waiting.find? (suspendedAs id) with
  | some t =>
    if !wizard && progr ≠ t.progr then (.E_PERM, w)
    else
      let (tq, w) := w.findTqueue t.progr
      let w := { w with waiting := w.waiting.eraseP (suspendedAs id) }
      (.E_NONE, (w.ensureUsage tq).enqueueBgTask tq { t with startTv := now, value := value })
  | none =>
    match w.active.find? fun tq => (w.tqueues tq).firstBg.any (suspendedAs id) with
    | none => (.E_INVARG, w)
    | some tq =>
      if !wizard && progr ≠ (w.tqueues tq).player then (.E_PERM, w)
      else (.E_NONE, w.modify tq fun q => { q with firstBg := setValue id value q.firstBg })

end Tasks

/-- What MOO code, the network or the server does to the queues. A `tq` is a pointer that the caller
holds. -/
inductive TaskOp where
  | serverNewConnection (handler : Objid)
  | freeTaskQueue (tq : Nat)
  | enqueueInputTask (tq t : Nat) (input : Str) (atFront binary : Bool)
  | forceInput (conn : Objid) (t : Nat) (input : Str) (atFront : Bool)
  | flushInput (tq : Nat)
  | flushInputOf (conn : Objid)
  | setHoldInput (tq : Nat) (b : Bool)
  | setDisableOob (tq : Nat) (b : Bool)
  | readInputNow (connection : Objid)
  | makeReadingTask (vm : Int) (player : Objid)
  | enqueueForkedTask2 (id : Int) (progr : Objid) (startTv : Int) (property : Option Int)
      (serverOption : Int)
  | enqueueSuspendedTask (id : Int) (progr : Objid) (startTv : Int) (property : Option Int)
      (serverOption : Int)
  | resumeTask (id : Int) (progr : Objid) (value : Var)
  | doResume (id : Int) (value : Var) (progr : Objid) (wizard : Bool) (now : Int)
  | killTask (id : Int) (owner : Objid) (wizard : Bool)

namespace Tasks

/-- An operation on a queue that there is. Nobody keeps a pointer to a queue that has been freed. -/
def onLive (w : Tasks) (tq : Nat) (f : Tasks → Tasks) : Tasks :=
  if tq ∈ w.active ++ w.idle then f w else w

def op (w : Tasks) : TaskOp → Tasks
  | .serverNewConnection handler => w.serverNewConnection handler
  | .freeTaskQueue tq => w.onLive tq fun w => w.freeTaskQueue tq
  | .enqueueInputTask tq t input atFront binary => w.onLive tq fun w =>
    w.enqueueInputTask tq t input atFront binary
  | .forceInput conn t input atFront =>
    let (tq, w) := w.findTqueue conn
    w.enqueueInputTask tq t input atFront false
  | .flushInput tq => w.onLive tq fun w => w.flushInput tq
  | .flushInputOf conn =>
    let (tq, w) := w.findTqueue conn
    w.flushInput tq
  | .setHoldInput tq b => w.onLive tq fun w => w.setHoldInput tq b
  | .setDisableOob tq b => w.onLive tq fun w => w.setDisableOob tq b
  | .readInputNow connection => (w.readInputNow connection).2
  | .makeReadingTask vm player => (w.makeReadingTask vm player).2
  | .enqueueForkedTask2 id progr startTv property serverOption =>
    (w.enqueueForkedTask2 id progr startTv property serverOption).2
  | .enqueueSuspendedTask id progr startTv property serverOption =>
    (w.enqueueSuspendedTask id progr startTv property serverOption).2
  | .resumeTask id progr value => w.resumeTask id progr value
  | .doResume id value progr wizard now => (w.doResume id value progr wizard now).2
  | .killTask id owner wizard => (w.killTask id owner wizard).2

def ops (w : Tasks) (l : List TaskOp) : Tasks := l.foldl op w

end Tasks

/-- What happens in one call of `run_ready_tasks` outside `tasks.c`: the lines of a queue in which
`parse_command` finds no command, the number of the task that runs, what it does, the user that
`do_login_command` returns, who is a valid object, what the tasks that `player_connected` starts do,
and the seconds that all of it takes. -/
structure Script where
  blank : Nat → Str → Bool
  taskId : Int
  ops : List TaskOp
  login : Option Nat
  connect : List TaskOp
  elapsed : Nat

/-- What `run_ready_tasks` finds to do: to resume a reader that has no more input, or a task. -/
inductive Work where
  | endOfInput (vm : Int)
  | input (t : InputTask)
  | bg (t : BgTask)

namespace Tasks

/-- The loop of `do_login_task` that moves the background tasks of a queue. -/
def moveBgTasks (src dst : Nat) : Nat → Tasks → Tasks
  | 0, w => w
  | n + 1, w =>
    match w.dequeueBgTask src with
    | (none, w) => w
    | (some t, w) => moveBgTasks src dst n (w.enqueueBgTask dst t)

/-- `do_login_task` moves the tasks of a connection that is not logged in to a queue of their
own. -/
def keepTasks (w : Tasks) (tq : Nat) (oldPlayer : Objid) : Tasks :=
  if (w.tqueues tq).numBgTasks ≠ 0 then
    let (oldTq, w) := w.findTqueue oldPlayer
    let w := w.modify oldTq fun q => { q with numBgTasks := (w.tqueues tq).numBgTasks }
    let w := moveBgTasks tq oldTq (w.tqueues tq).firstBg.length w
    w.modify tq fun q => { q with numBgTasks := 0 }
  else w

/-- `do_login_task` takes over the tasks of the queue that the player had, which is then to be
freed. -/
def takeOver (w : Tasks) (tq deadTq : Nat) : Tasks :=
  let w := w.modify tq fun q => { q with numBgTasks := (w.tqueues deadTq).numBgTasks }
  let w := w.flushInput deadTq
  let w := moveBgTasks deadTq tq (w.tqueues deadTq).firstBg.length w
  w.modify deadTq fun q => { q with player := NOTHING, numBgTasks := 0 }

/-- `player_connected`, which closes the connection that the player had. -/
def playerConnected (w : Tasks) (deadTq : Nat) : Tasks :=
  if (w.tqueues deadTq).connected then w.freeTaskQueue deadTq else w

/-- `do_login_task`, once `do_login_command` has returned a user. -/
def login (w : Tasks) (tq : Nat) (newPlayer : Objid) : Tasks :=
  let oldPlayer := (w.tqueues tq).player
  let deadTq := w.lookupTqueue newPlayer
  let w := w.modify tq fun q => { q with player := newPlayer }
  let w := w.keepTasks tq oldPlayer
  match deadTq with
  | none => w
  | some deadTq => (w.takeOver tq deadTq).playerConnected deadTq

/-- The user as whom a connection logs in when `do_login_command` has returned. -/
def loginUser (w : Tasks) (tq : Nat) (s : Script) : Option Nat :=
  if (w.tqueues tq).connected then s.login else none

/-- A task gets a new number and runs. -/
def runTask (w : Tasks) (taskId : Int) (s : Script) : Tasks :=
  { w with currentTaskId := taskId }.ops s.ops

/-- `do_login_task` -/
def doLoginTask (w : Tasks) (tq : Nat) (s : Script) : Tasks :=
  let w := w.runTask s.taskId s
  match w.loginUser tq s with
  | none => w
  | some newPlayer => (w.login tq newPlayer).ops s.connect

/-- Whether `run_ready_tasks` gives a line to `do_command_task` in vain. -/
def skips (q : TQueue) (blank : Str → Bool) (t : InputTask) : Bool :=
  !t.isOob && q.reading.isNone && 0 ≤ q.player && blank t.string

/-- The inner loop of `run_ready_tasks`, up to the task that runs. The fuel is the number of
lines. -/
def takeTask (blank : Nat → Str → Bool) (tq : Nat) : Nat → Tasks → Option Work × Tasks
  | 0, w =>
    let (t, w) := w.dequeueBgTask tq
    (t.map .bg, w)
  | n + 1, w =>
    match w.dequeueInputTask tq (w.tqueues tq).how with
    | (none, w) =>
      let (t, w) := w.dequeueBgTask tq
      (t.map .bg, w)
    | (some t, w) =>
      if skips (w.tqueues tq) (blank tq) t then takeTask blank tq n w else (some (.input t), w)

/-- What follows a queue on the list of active queues. -/
def afterActive (w : Tasks) (tq : Nat) : List Nat := (w.active.dropWhile (· ≠ tq)).tail

/-- The outer loop of `run_ready_tasks`, up to the task that runs: queues that have nothing to do
are deactivated. The fuel is the number of active queues. -/
def selectWork (blank : Nat → Str → Bool) : Nat → Tasks → Option (Nat × Work) × Tasks
  | 0, w => (none, w)
  | n + 1, w =>
    match w.active with
    | [] => (none, w)
    | tq :: _ =>
      let q := w.tqueues tq
      match q.reading, q.isOutOfInput with
      | some vm, true => (some (tq, .endOfInput vm), w)
      | _, _ =>
        match takeTask blank tq q.input.length w with
        | (some work, w) => (some (tq, work), w)
        | (none, w) =>
          selectWork blank n ({ w with active := w.afterActive tq }.deactivateTqueue tq)

/-- The switch of `run_ready_tasks`. A line that is taken is never a `TASK_QUOTED`, for which the
source panics. -/
def runWork (w : Tasks) (tq : Nat) (work : Work) (s : Script) : Tasks :=
  match work with
  | .endOfInput vm => (w.modify tq fun q => { q with reading := none }).runTask vm s
  | .bg t => w.runTask t.id s
  | .input t =>
    if t.isOob then w.runTask s.taskId s
    else
      match (w.tqueues tq).reading with
      | some vm => (w.modify tq fun q => { q with reading := none }).runTask vm s
      | none => if 0 ≤ (w.tqueues tq).player then w.runTask s.taskId s else w.doLoginTask tq s

/-- The first loop of `run_ready_tasks`, over the tasks whose time has come. -/
def enqueueReady (w : Tasks) : List BgTask → Tasks
  | [] => w
  | t :: l =>
    let (tq, w) := w.findTqueue t.progr
    ((w.ensureUsage tq).enqueueBgTask tq t).enqueueReady l

def wakeWaiting (w : Tasks) (now : Int) : Tasks :=
  let ready := w.waiting.takeWhile fun t => t.startTv ≤ now
  let rest := w.waiting.dropWhile fun t => t.startTv ≤ now
  { w.enqueueReady ready with waiting := rest }

/-- The task of a queue runs, and the queue goes back to the active ones with a higher usage. -/
def runSelected (w : Tasks) (tq : Nat) (work : Work) (s : Script) : Tasks :=
  let w := w.runWork tq work s
  let w := { w with active := w.afterActive tq }
  (w.modify tq fun q => { q with usage := q.usage + s.elapsed }).activateTqueue tq

/-- The last loop of `run_ready_tasks`, which frees the queues that are not connected and empty. -/
def freeUnconnected (w : Tasks) : Tasks :=
  { w with
    idle := w.idle.filter fun tq =>
      (w.tqueues tq).connected || !(w.tqueues tq).input.isEmpty || (w.tqueues tq).numBgTasks ≠ 0 }

/-- `run_ready_tasks` up to its last loop. -/
def runOneTask (w : Tasks) (now : Int) (s : Script) : Tasks :=
  let w := w.wakeWaiting now
  match selectWork s.blank w.active.length w with
  | (none, w) => w
  | (some (tq, work), w) => w.runSelected tq work s

/-- `run_ready_tasks` -/
def runReadyTasks (w : Tasks) (now : Int) (s : Script) : Tasks :=
  (w.runOneTask now s).freeUnconnected

end Tasks

/-- A step of the server. -/
inductive ServerOp where
  | op (o : TaskOp)
  | runReadyTasks (now : Int) (s : Script)

namespace Tasks

def step (w : Tasks) : ServerOp → Tasks
  | .op o => w.op o
  | .runReadyTasks now s => w.runReadyTasks now s

def run (w : Tasks) (l : List ServerOp) : Tasks := l.foldl step w

end Tasks

end Task
end NuMoo
