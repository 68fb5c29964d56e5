import NuMoo.Task.InputQueue
import NuMoo.Task.Queue

/-!
# Connections

The connections of `server.c` beside the task queues of `tasks.c`. Each connection has a
`shandle`, which names a player and points to a queue; `find_shandle` looks for a player.
A queue that holds too much input suspends the input of its connection at the network
level, and `dequeue_input_task` resumes it. A result `none` is a use of a connection that
there is not: a null handle, or the panic of `player_connected`.
-/

namespace NuMoo
namespace Task

/-- `shandle`. The network's mark of suspended input is that of the connection's `nhandle`. -/
structure Shandle where
  player : Objid
  listener : Objid
  tasks : Nat
  /-- `connection_time != 0` -/
  loggedIn : Bool
  disconnectMe : Bool
  outbound : Bool
  binary : Bool
  inputSuspended : Bool

/-- The queues with the fields of `tqueue` that flow control needs, the connections, and the valid
objects. -/
structure Server where
  tasks : Tasks
  inputSuspended : Nat → Bool
  flushCmd : Nat → Option Str
  shandles : Nat → Shandle
  allShandles : List Nat
  freshShandle : Nat
  valid : Objid → Bool

/-- `total_input_length`, an `int`. -/
def TQueue.totalInputLength (q : TQueue) : Int := int32 (totalLength q.input)

/-- `default_flush_command`, and the test that the connection option `flush-command` makes. -/
def flushCommand (str : Option Str) : Option Str :=
  match str with
  | some s => if s.headD 0 ≠ 0 then some s else none
  | none => none

/-- A connection option that `tasks.c` or `server.c` knows. -/
inductive ConnectionOption where
  | holdInput (b : Bool)
  | disableOob (b : Bool)
  | flushCommand (value : Option Str)
  | binary (b : Bool)

/-- What MOO code does to the queues and the connections. -/
inductive MooOp where
  | forceInput (conn : Objid) (t : Nat) (input : Str) (atFront : Bool)
  | flushInput (conn : Objid)
  | readInputNow (connection : Objid)
  | makeReadingTask (vm : Int) (player : Objid)
  | setConnectionOption (conn : Objid) (option : ConnectionOption)
  | enqueueForkedTask2 (id : Int) (progr : Objid) (startTv : Int) (property : Option Int)
      (serverOption : Int)
  | enqueueSuspendedTask (id : Int) (progr : Objid) (startTv : Int) (property : Option Int)
      (serverOption : Int)
  | resumeTask (id : Int) (progr : Objid) (value : Var)
  | doResume (id : Int) (value : Var) (progr : Objid) (wizard : Bool) (now : Int)
  | killTask (id : Int) (owner : Objid) (wizard : Bool)
  | bootPlayer (player : Objid)
  | openNetworkConnection (listener : Option Objid) (t : Nat)
  /-- Objects are created, recycled or renumbered. -/
  | changeObjects (valid : Objid → Bool)

namespace Server

/-- The state before the first connection. `str tq` is the server option `default_flush_command`
when the queue `tq` is made. -/
def empty (str : Nat → Option Str) (valid : Objid → Bool) : Server where
  tasks := Tasks.empty
  inputSuspended := fun _ => false
  flushCmd := fun tq => flushCommand (str tq)
  shandles := fun _ =>
    { player := NOTHING, listener := 0, tasks := 0, loggedIn := false, disconnectMe := false,
      outbound := false,
      binary := false, inputSuspended := false }
  allShandles := []
  freshShandle := 0
  valid := valid

/-- `find_shandle` -/
def findShandle (s : Server) (player : Objid) : Option Nat :=
  s.allShandles.find? fun h => (s.shandles h).player = player

/-- A change of one connection. -/
def modifyShandle (s : Server) (h : Nat) (f : Shandle → Shandle) : Server :=
  { s with shandles := Function.update s.shandles h (f (s.shandles h)) }

/-- A change of one queue. -/
def modify (s : Server) (tq : Nat) (f : TQueue → TQueue) : Server :=
  { s with tasks := s.tasks.modify tq f }

/-- `server_suspend_input` -/
def serverSuspendInput (s : Server) (connection : Objid) : Option Server :=
  (s.findShandle connection).map fun h => s.modifyShandle h fun c =>
    { c with inputSuspended := true }

/-- `server_resume_input` -/
def serverResumeInput (s : Server) (connection : Objid) : Option Server :=
  (s.findShandle connection).map fun h => s.modifyShandle h fun c =>
    { c with inputSuspended := false }

def setInputSuspended (s : Server) (tq : Nat) (b : Bool) : Server :=
  { s with inputSuspended := Function.update s.inputSuspended tq b }

/-- `free_shandle` -/
def freeShandle (s : Server) (h : Nat) : Server :=
  { s with tasks := s.tasks.freeTaskQueue (s.shandles h).tasks,
           allShandles := s.allShandles.erase h }

/-! ## Input -/

/-- `dequeue_input_task` -/
def dequeueInputTask (s : Server) (tq : Nat) (how : DequeueHow) :
    Option (Option InputTask × Server) :=
  let (t, w) := s.tasks.dequeueInputTask tq how
  let s := { s with tasks := w }
  let q := w.tqueues tq
  if t.isSome && s.inputSuspended tq && q.connected && q.totalInputLength < INPUT_LOWAT then
    (s.serverResumeInput q.player).map fun s => (t, s.setInputSuspended tq false)
  else some (t, s)

/-- `enqueue_input_task` -/
def enqueueInputTask (s : Server) (tq t : Nat) (input : Str) (atFront binary : Bool) :
    Option Server :=
  let s := { s with tasks := s.tasks.enqueueInputTask tq t input atFront binary }
  let q := s.tasks.tqueues tq
  if !s.inputSuspended tq && q.connected && INPUT_HIWAT < q.totalInputLength then
    (s.serverSuspendInput q.player).map fun s => s.setInputSuspended tq true
  else some s

/-- `task_suspend_input` -/
def taskSuspendInput (s : Server) (tq : Nat) : Option Server :=
  let q := s.tasks.tqueues tq
  if !s.inputSuspended tq && q.connected then
    (s.serverSuspendInput q.player).map fun s => s.setInputSuspended tq true
  else some s

/-- The loop that takes all lines of a queue. The fuel is their number. -/
def drain (tq : Nat) : Nat → Server → Option Server
  | 0, s => some s
  | n + 1, s =>
    match s.dequeueInputTask tq .DQ_FIRST with
    | none => none
    | some (none, s) => some s
    | some (some _, s) => drain tq n s

/-- `flush_input` -/
def flushInput (s : Server) (tq : Nat) : Option Server :=
  drain tq (s.tasks.tqueues tq).input.length s

/-- `new_input_task` -/
def newInputTask (s : Server) (tq t : Nat) (input : Str) (binary : Bool) : Option Server :=
  match s.flushCmd tq with
  | some c => if mystrcasecmp input c = 0 then s.flushInput tq
    else s.enqueueInputTask tq t input false binary
  | none => s.enqueueInputTask tq t input false binary

/-- `server_new_connection`. The listener is that of the port, or given to
`open_network_connection`. -/
def serverNewConnection (s : Server) (listener : Option Objid) (outbound : Bool) (t : Nat) :
    Option Server :=
  let player := s.tasks.nextUnconnectedPlayer
  let oid := listener.getD 0
  let tq := ({ s.tasks with nextUnconnectedPlayer := player - 1 }.findTqueue player).1
  let s : Server := { s with
    tasks := s.tasks.serverNewConnection oid
    shandles := Function.update s.shandles s.freshShandle
      { player := player, listener := oid, tasks := tq, loggedIn := false, disconnectMe := false,
        outbound := outbound,
        binary := false, inputSuspended := false }
    allShandles := s.freshShandle :: s.allShandles
    freshShandle := s.freshShandle + 1 }
  if listener.isSome || !outbound then (s.newInputTask tq t [] false).bind fun s =>
    s.taskSuspendInput tq
  else some s

/-! ## MOO code -/

/-- `read_input_now` -/
def readInputNow (s : Server) (connection : Objid) : Option Server :=
  match s.tasks.lookupTqueue connection with
  | none => some s
  | some tq => if (s.tasks.tqueues tq).isOutOfInput then some s
    else (s.dequeueInputTask tq .DQ_INBAND).map Prod.snd

/-- `bf_set_connection_option`, for an option that is known. -/
def setConnectionOption (s : Server) (conn : Objid) (option : ConnectionOption) : Server :=
  match s.findShandle conn with
  | none => s
  | some h =>
    if (s.shandles h).disconnectMe then s
    else
      match option with
      | .holdInput b => { s with tasks := s.tasks.setHoldInput (s.shandles h).tasks b }
      | .disableOob b => { s with tasks := s.tasks.setDisableOob (s.shandles h).tasks b }
      | .flushCommand value =>
        { s with flushCmd := Function.update s.flushCmd (s.shandles h).tasks
                   (Task.flushCommand value) }
      | .binary b => s.modifyShandle h fun c => { c with binary := b }

/-- `boot_player` -/
def bootPlayer (s : Server) (player : Objid) : Server :=
  match s.findShandle player with
  | none => s
  | some h => s.modifyShandle h fun c => { c with disconnectMe := true }

def op (s : Server) : MooOp → Option Server
  | .forceInput conn t input atFront =>
    let (tq, w) := s.tasks.findTqueue conn
    { s with tasks := w }.enqueueInputTask tq t input atFront false
  | .flushInput conn =>
    let (tq, w) := s.tasks.findTqueue conn
    { s with tasks := w }.flushInput tq
  | .readInputNow connection => s.readInputNow connection
  | .makeReadingTask vm player => some { s with tasks := (s.tasks.makeReadingTask vm player).2 }
  | .setConnectionOption conn option => some (s.setConnectionOption conn option)
  | .enqueueForkedTask2 id progr startTv property serverOption =>
    some { s with tasks := (s.tasks.enqueueForkedTask2 id progr startTv property serverOption).2 }
  | .enqueueSuspendedTask id progr startTv property serverOption =>
    some { s with tasks := (s.tasks.enqueueSuspendedTask id progr startTv property serverOption).2 }
  | .resumeTask id progr value => some { s with tasks := s.tasks.resumeTask id progr value }
  | .doResume id value progr wizard now =>
    some { s with tasks := (s.tasks.doResume id value progr wizard now).2 }
  | .killTask id owner wizard => some { s with tasks := (s.tasks.killTask id owner wizard).2 }
  | .bootPlayer player => some (s.bootPlayer player)
  | .openNetworkConnection listener t => s.serverNewConnection listener true t
  | .changeObjects valid => some { s with valid := valid }

def ops (s : Server) : List MooOp → Option Server
  | [] => some s
  | o :: l => (s.op o).bind fun s => s.ops l

end Server

/-- What happens in one call of `run_ready_tasks` outside it: as in `Script`, and what the task does
that `player_connected` starts on the listener of the connection that it closes. -/
structure ServerScript where
  blank : Nat → Str → Bool
  taskId : Int
  ops : List MooOp
  login : Option Nat
  redirected : List MooOp
  connect : List MooOp
  elapsed : Nat

namespace Server

/-- A task gets a new number and runs. -/
def runTask (s : Server) (taskId : Int) (c : ServerScript) : Option Server :=
  { s with tasks := { s.tasks with currentTaskId := taskId } }.ops c.ops

/-- `player_connected` -/
def playerConnected (s : Server) (oldId newId : Objid) (c : ServerScript) : Option Server :=
  let existing := s.findShandle newId
  match s.findShandle oldId with
  | none => none
  | some newH =>
    let s := s.modifyShandle newH fun c => { c with player := newId, loggedIn := true }
    match existing with
    | none => s.ops c.connect
    | some h =>
      let listener := (s.shandles h).listener
      let s := s.freeShandle h
      if listener = (s.shandles newH).listener then s.ops c.connect
      else
        ((s.modifyShandle newH fun c => { c with disconnectMe := true }).ops c.redirected).bind
          fun s =>
          (s.modifyShandle newH fun c => { c with disconnectMe := false }).ops c.connect

/-- `do_login_task` takes over the tasks of the queue that the player had, which is then to be
freed. -/
def takeOver (s : Server) (tq deadTq : Nat) : Option Server :=
  let s := s.modify tq fun q => { q with numBgTasks := (s.tasks.tqueues deadTq).numBgTasks }
  (s.flushInput deadTq).map fun s =>
    { s with tasks := (Tasks.moveBgTasks deadTq tq (s.tasks.tqueues deadTq).firstBg.length
               s.tasks).modify deadTq fun q =>
        { q with player := NOTHING, numBgTasks := 0 } }

/-- `do_login_task`, once `do_login_command` has returned a user. -/
def login (s : Server) (tq : Nat) (newPlayer : Objid) (c : ServerScript) : Option Server :=
  let oldPlayer := (s.tasks.tqueues tq).player
  let deadTq := s.tasks.lookupTqueue newPlayer
  let s :=
    { s with tasks := (s.tasks.modify tq fun q => { q with player := newPlayer }).keepTasks
               tq oldPlayer }
  match deadTq with
  | none => s.playerConnected oldPlayer newPlayer c
  | some deadTq => (s.takeOver tq deadTq).bind fun s => s.playerConnected oldPlayer newPlayer c

/-- `do_login_task` -/
def doLoginTask (s : Server) (tq : Nat) (c : ServerScript) : Option Server :=
  (s.runTask c.taskId c).bind fun s =>
    match c.login with
    | none => some s
    | some newPlayer => if (s.tasks.tqueues tq).connected then s.login tq newPlayer c else some s

/-! ## `run_ready_tasks` -/

def dequeueBgTask (s : Server) (tq : Nat) : Option Work × Server :=
  let (t, w) := s.tasks.dequeueBgTask tq
  (t.map .bg, { s with tasks := w })

/-- The inner loop, up to the task that runs. The fuel is the number of lines. -/
def takeTask (blank : Nat → Str → Bool) (tq : Nat) : Nat → Server → Option (Option Work × Server)
  | 0, s => some (s.dequeueBgTask tq)
  | n + 1, s =>
    match s.dequeueInputTask tq (s.tasks.tqueues tq).how with
    | none => none
    | some (none, s) => some (s.dequeueBgTask tq)
    | some (some t, s) =>
      if Tasks.skips (s.tasks.tqueues tq) (blank tq) t then takeTask blank tq n s
        else some (some (.input t), s)

/-- A queue that has nothing to do. -/
def deactivate (s : Server) (tq : Nat) : Server :=
  { s with tasks := { s.tasks with active := s.tasks.afterActive tq }.deactivateTqueue tq }

/-- The outer loop, up to the task that runs. The fuel is the number of active queues. -/
def selectWork (blank : Nat → Str → Bool) : Nat → Server → Option (Option (Nat × Work) × Server)
  | 0, s => some (none, s)
  | n + 1, s =>
    match s.tasks.active with
    | [] => some (none, s)
    | tq :: _ =>
      let q := s.tasks.tqueues tq
      match q.reading, q.isOutOfInput with
      | some vm, true => some (some (tq, .endOfInput vm), s)
      | _, _ =>
        match takeTask blank tq q.input.length s with
        | none => none
        | some (some work, s) => some (some (tq, work), s)
        | some (none, s) => selectWork blank n (s.deactivate tq)

/-- The reader of a queue is resumed. -/
def endReading (s : Server) (tq : Nat) : Server := s.modify tq fun q => { q with reading := none }

/-- The switch of `run_ready_tasks`. -/
def runWork (s : Server) (tq : Nat) (work : Work) (c : ServerScript) : Option Server :=
  match work with
  | .endOfInput vm => (s.endReading tq).runTask vm c
  | .bg t => s.runTask t.id c
  | .input t =>
    if t.isOob then s.runTask c.taskId c
    else
      match (s.tasks.tqueues tq).reading with
      | some vm => (s.endReading tq).runTask vm c
      | none => if 0 ≤ (s.tasks.tqueues tq).player then s.runTask c.taskId c else s.doLoginTask tq c

/-- A queue goes back to the active ones with a higher usage. -/
def requeue (s : Server) (tq elapsed : Nat) : Server :=
  { s with tasks := ({ s.tasks with active := s.tasks.afterActive tq }.modify tq fun q =>
      { q with usage := q.usage + elapsed }).activateTqueue tq }

/-- `run_ready_tasks` -/
def runReadyTasks (s : Server) (now : Int) (c : ServerScript) : Option Server :=
  let s := { s with tasks := s.tasks.wakeWaiting now }
  ((selectWork c.blank s.tasks.active.length s).bind fun
    | (none, s) => some s
    | (some (tq, work), s) => (s.runWork tq work c).map fun s =>
      s.requeue tq c.elapsed).map fun s =>
      { s with tasks := s.tasks.freeUnconnected }

/-! ## The main loop -/

/-- `server_receive_line` -/
def serverReceiveLine (s : Server) (h t : Nat) (line : Str) : Option Server :=
  s.newInputTask (s.shandles h).tasks t line (s.shandles h).binary

/-- `server_close` -/
def serverClose (s : Server) (h : Nat) (ops : List MooOp) : Option Server :=
  ((s.modifyShandle h fun c => { c with disconnectMe := true }).ops ops).map fun s =>
    s.freeShandle h

/-- The part of `main_loop` that gets rid of connections: those that did not log in in time, those
whose player is gone and those that were booted. `ops h` is what the notified listener of `h`
does. -/
def disconnect (timedOut : Nat → Bool) (ops : Nat → List MooOp) : List Nat → Server → Option Server
  | [], s => some s
  | h :: l, s =>
    let c := s.shandles h
    (if !c.outbound && !c.loggedIn && timedOut h then (s.ops (ops h)).map fun s => s.freeShandle h
      else if c.loggedIn && !s.valid c.player then some (s.freeShandle h)
      else if c.disconnectMe then (s.ops (ops h)).map fun s => s.freeShandle h
      else some s).bind fun s => disconnect timedOut ops l s

end Server

/-- A step of the main loop. The network holds the handles of open connections only. -/
inductive Event where
  | serverNewConnection (listener : Option Objid) (outbound : Bool) (t : Nat)
  | serverReceiveLine (h t : Nat) (line : Str)
  | serverClose (h : Nat) (ops : List MooOp)
  | runServerTask (ops : List MooOp)
  | runReadyTasks (now : Int) (c : ServerScript)
  | disconnect (timedOut : Nat → Bool) (ops : Nat → List MooOp)

namespace Server

def step (s : Server) : Event → Option Server
  | .serverNewConnection listener outbound t => s.serverNewConnection listener outbound t
  | .serverReceiveLine h t line =>
    if h ∈ s.allShandles then s.serverReceiveLine h t line else some s
  | .serverClose h ops => if h ∈ s.allShandles then s.serverClose h ops else some s
  | .runServerTask ops => s.ops ops
  | .runReadyTasks now c => s.runReadyTasks now c
  | .disconnect timedOut ops => disconnect timedOut ops s.allShandles s

def run (s : Server) : List Event → Option Server
  | [] => some s
  | e :: l => (s.step e).bind fun s => s.run l

end Server

end Task
end NuMoo
