import Ruyi.Base.Machine
import Ruyi.Reactor.TimerQueue
import Ruyi.Sys.Nio

namespace Ruyi.Reactor

open Sys (Event Nio ReadyTasks Schedule)
open Timer (Expiration PeriodicState Queue Resume)

/-- `none` is `TaskId::invalid()`, the id of the main task. -/
abbrev TaskId := Option Nat

/-- A task recorded to be run.  The code keeps the id alone; `who` is the serial number of
the task that was being polled when it was recorded, if one was. -/
structure Waiter where
  task : TaskId
  who : Option Nat
  deriving DecidableEq

/-- A spawned task, with its serial number: one of the program, or the one that ticks the
wheel, which is a `PeriodicTimer` and its `for_each`. -/
inductive Task where
  | user (serial : Nat)
  | ticker (serial : Nat) (timer : PeriodicState)
  deriving DecidableEq

def Task.serial : Task → Nat
  | .user serial | .ticker serial _ => serial

/-- Who has called `run_task`: one of the loops of `TaskRunner`, or the `tick` of the ticker,
which a loop has run in turn. -/
inductive Caller where
  | loop
  | tick (i serial : Nat) (current : Fin Wheel.numOfSlots) (next : Wheel.Token)
  deriving DecidableEq

/-- The code being run: that between two runs, the poll of a task by `run_task` or by
`spawn`, or the drop of a task that has completed. -/
inductive Code where
  | outside
  | main (caller : Caller)
  | task (i serial : Nat) (caller : Caller)
  | dropped (i serial : Nat) (caller : Caller)
  | spawned (i serial : Nat) (below : Code)
  | spawnedDropped (i serial : Nat) (below : Code)
  deriving DecidableEq

/-- The next step: of the code of a task, of `run_task`, of the ticker, of the loop of its
`tick`, or of the loops of `TaskRunner`. -/
inductive Control where
  | code (code : Code)
  | runTask (w : Waiter) (caller : Caller)
  | ticker (i serial : Nat)
  | tick (i serial : Nat) (current : Fin Wheel.numOfSlots) (timerId : Nat) (exit : Bool)
  | loop
  deriving DecidableEq

/-- An event of the batch, with the registration its token had when it was collected. -/
structure Pending where
  event : Event
  registration : Nat
  deriving DecidableEq

/-- Where the loops of `TaskRunner` stand. -/
inductive Phase where
  | outside
  | starting
  | timers
  | expiring (exp : Expiration) (resume : Option Resume)
  | waiting
  | events (rest : List Pending)
  | pair (task2 : Waiter) (rest : List Pending)
  | stopped
  | clearing
  deriving DecidableEq

/-- The part of the loop that the code of tasks acts on through the objects it holds: the
schedules, the timer queue and the wheel, and the `Nio`, `Timer` and `Sleep` values that
point into them. -/
structure Held where
  schedules : Slab (Schedule Waiter)
  queue : Queue Waiter
  wheel : Option (Wheel.Inner Waiter)
  registered : Nat
  nios : List Nio
  timers : List Nat
  sleeps : List Nat

/-- The event loop of a thread.  `spawned` counts the tasks, `runs` the runs that have
ended, and `wheelRun` is the run in which the wheel was made. -/
structure EventLoop where
  tasks : Slab Task
  currentTask : TaskId
  spawnStack : List TaskId
  gate : Nat
  mainTask : Bool
  held : Held
  spawned : Nat
  runs : Nat
  wheelRun : Option Nat
  phase : Phase
  control : Control

/-- The calls of a task on its I/O objects and its timers, each with what the clock or the
poller answers. -/
inductive Call where
  | register (result : Except ErrorKind Unit)
  | scheduleRead (nio : Nio) (result : Except ErrorKind Unit)
  | scheduleWrite (nio : Nio) (result : Except ErrorKind Unit)
  | cancelWrite (nio : Nio) (result : Except ErrorKind Unit)
  | dropNio (nio : Nio) (result : Except ErrorKind Unit)
  | add (due : Instant)
  | addPeriodic (due : Instant) (period : Duration)
  | dropTimer (taskId : Nat)
  | reschedule (now : Instant) (dur : Duration) (timerId : Nat)
  | dropSleep (timerId : Nat)

/-- The steps of code (`call`, `sleep`, `enterGate`, `leaveGate`, `spawn`, `finish`, which
returns from a poll, and `dropped`, which ends the drop of a task), and those of the loop. -/
inductive LoopAction where
  | call (c : Call)
  | sleep (now : Instant) (dur : Duration)
  | enterGate
  | leaveGate
  | spawn
  | finish (ready : Bool)
  | dropped
  | start
  | runTask
  | ticker
  | visit (now : Instant)
  | timers (now : Instant) (exp : Expiration)
  | wait (batch : Option (List Event))
  | event
  | clear
  | cleared

inductive LoopEvent where
  | started
  | ran (w : Waiter)
  | returned
  | silent
  deriving DecidableEq

/-- Calls a destructor makes. -/
def Call.releases : Call → Bool
  | .dropNio _ _ | .dropTimer _ | .dropSleep _ => true
  | _ => false

/-- The serial number of the task whose code this is. -/
def Code.who : Code → Option Nat
  | .outside | .main _ => none
  | .task _ serial _ | .dropped _ serial _ | .spawned _ serial _ | .spawnedDropped _ serial _ =>
      some serial

namespace Held

def init : Held := ⟨Slab.empty, Queue.new, none, 0, [], [], []⟩

/-- The end of a call that may have changed a `Nio`. -/
def setNio (h : Held) (nio : Nio)
    (r : Except Fault (Except ErrorKind Unit × Nio × Slab (Schedule Waiter))) :
    Except Fault Held := do
  let (_, nio', schedules) ← r
  .ok { h with schedules := schedules, nios := nio' :: h.nios.erase nio }

/-- A call made while `current` is the current task.  Only the owner of an object calls it. -/
def call (h : Held) (current : Waiter) : Call → Option (Except Fault Held)
  | .register result =>
      let r := Nio.register h.schedules h.registered current result
      let h := { h with schedules := r.2, registered := h.registered + 1 }
      match r.1 with
      | .ok nio => some (.ok { h with nios := nio :: h.nios })
      | .error _ => some (.ok h)
  | .scheduleRead nio result =>
      if nio ∈ h.nios then some (h.setNio nio (nio.scheduleRead h.schedules current result))
      else none
  | .scheduleWrite nio result =>
      if nio ∈ h.nios then some (h.setNio nio (nio.scheduleWrite h.schedules current result))
      else none
  | .cancelWrite nio result =>
      if nio ∈ h.nios then some (h.setNio nio (nio.cancelWrite h.schedules result))
      else none
  | .dropNio nio result =>
      if nio ∈ h.nios then
        some (.ok
          { h with schedules := nio.deregister h.schedules result, nios := h.nios.erase nio })
      else none
  | .add due =>
      let r := h.queue.add due current
      some (.ok { h with queue := r.2, timers := r.1 :: h.timers })
  | .addPeriodic due period =>
      let r := h.queue.addPeriodic due period current
      some (.ok { h with queue := r.2, timers := r.1 :: h.timers })
  | .dropTimer taskId =>
      if taskId ∈ h.timers then
        some do
          let (_, queue) ← h.queue.cancel taskId
          .ok { h with queue := queue, timers := h.timers.erase taskId }
      else none
  | .reschedule now dur timerId =>
      if timerId ∈ h.sleeps then
        match h.wheel with
        | none => some (.error .unreachable)
        | some inner =>
            some do
              let inner ← inner.reschedule now dur timerId
              .ok { h with wheel := some inner }
      else none
  | .dropSleep timerId =>
      if timerId ∈ h.sleeps then
        match h.wheel with
        | none => some (.error .unreachable)
        | some inner =>
            some do
              let inner ← inner.cancel timerId
              .ok { h with wheel := some inner, sleeps := h.sleeps.erase timerId }
      else none

/-- `Wheel::schedule`, once the wheel is there. -/
def schedule (h : Held) (current : Waiter) (now : Instant) (dur : Duration) :
    Except Fault Held :=
  match h.wheel with
  | none => .error .unreachable
  | some inner => do
      let (timerId, inner) ← inner.schedule now dur current
      .ok { h with wheel := some inner, sleeps := timerId :: h.sleeps }

end Held

namespace EventLoop

def init : EventLoop where
  tasks := Slab.empty
  currentTask := none
  spawnStack := []
  gate := 0
  mainTask := false
  held := Held.init
  spawned := 0
  runs := 0
  wheelRun := none
  phase := .outside
  control := .code .outside

def setWheel (s : EventLoop) (inner : Wheel.Inner Waiter) : EventLoop :=
  { s with held := { s.held with wheel := some inner } }

def setQueue (s : EventLoop) (queue : Queue Waiter) : EventLoop :=
  { s with held := { s.held with queue := queue } }

/-- `Wheel::init`.  The first poll of the ticker, inside `spawn`, only schedules its timer. -/
def initWheel (s : EventLoop) (now : Instant) : EventLoop :=
  let inserted := s.tasks.insert (.ticker s.spawned (.unscheduled (now + fromSecs 1) (fromSecs 1)))
  let added := s.held.queue.addPeriodic (now + fromSecs 1) (fromSecs 1)
    ⟨some inserted.1, some s.spawned⟩
  { s with
    tasks := inserted.2.modify inserted.1 fun _ => .ticker s.spawned (.scheduled added.1)
    held := { s.held with queue := added.2, wheel := some Wheel.Inner.new }
    spawned := s.spawned + 1
    wheelRun := some s.runs }

/-- `Wheel::schedule` for a timer of the code `c`. -/
def sleep (s : EventLoop) (c : Code) (now : Instant) (dur : Duration) :
    Except Fault EventLoop := do
  let s := match s.held.wheel with
    | none => s.initWheel now
    | some _ => s
  let held ← s.held.schedule ⟨s.currentTask, c.who⟩ now dur
  .ok { s with held := held }

/-- `Gate::new`. -/
def enterGate (s : EventLoop) : Bool × EventLoop :=
  if s.mainTask then (true, { s with gate := s.gate + 1 }) else (false, s)

/-- The drop of a `Gate`: there is one, so the counter is not zero. -/
def leaveGate (s : EventLoop) : Option EventLoop :=
  if s.gate = 0 then none else some { s with gate := s.gate - 1 }

/-- The first half of `spawn`, up to the poll of the task. -/
def spawn (s : EventLoop) (below : Code) : EventLoop :=
  let inserted := s.tasks.insert (.user s.spawned)
  { s with
    tasks := inserted.2
    currentTask := some inserted.1
    spawnStack := s.currentTask :: s.spawnStack
    spawned := s.spawned + 1
    control := .code (.spawned inserted.1 s.spawned below) }

/-- The end of `spawn`. -/
def unspawn (s : EventLoop) (below : Code) : Except Fault EventLoop :=
  match s.spawnStack with
  | [] => .error .unreachable
  | task :: stack =>
      .ok { s with currentTask := task, spawnStack := stack, control := .code below }

/-- `self.main_task.is_none() && !self.has_gate()` -/
def done (s : EventLoop) : Bool := !s.mainTask && s.gate == 0

/-- The loop of `Inner::tick` from the bottom of its body on. -/
def follow (s : EventLoop) (i serial : Nat) (current : Fin Wheel.numOfSlots) (exit : Bool) :
    Wheel.Token → Except Fault EventLoop
  | .entry timerId => .ok { s with control := .tick i serial current timerId exit }
  | .slot idx =>
      .ok
        { s with
          held := { s.held with wheel := s.held.wheel.map fun inner => inner.closeSlot current idx }
          control := .ticker i serial }
  | .nil => .error .unreachable

/-- `run_task`, or the first `run_main_task`, has returned `exit`. -/
def returned (s : EventLoop) (exit : Bool) : Caller → Except Fault EventLoop
  | .tick i serial current next => s.follow i serial current exit next
  | .loop =>
      let s := { s with control := .loop }
      if exit then .ok { s with phase := .stopped }
      else
        match s.phase with
        | .expiring exp resume => do
            let queue ← s.held.queue.afterRun exp resume
            .ok { s.setQueue queue with phase := .timers }
        | .pair task2 rest => .ok { s with phase := .events rest, control := .runTask task2 .loop }
        | .starting => .ok { s with phase := .timers }
        | _ => .ok s

/-- A poll returns, `Ready` or `NotReady`. -/
def finish (s : EventLoop) (ready : Bool) : Code → Option (Except Fault EventLoop)
  | .main caller =>
      if ready then
        let s := { s with mainTask := false }
        some (s.returned (s.gate == 0) caller)
      else some (s.returned false caller)
  | .task i serial caller =>
      if ready then
        some (.ok
          { s with tasks := (s.tasks.remove i).2, control := .code (.dropped i serial caller) })
      else some (s.returned s.done caller)
  | .spawned i serial below =>
      if ready then
        some (.ok
          { s with
            tasks := (s.tasks.remove i).2
            control := .code (.spawnedDropped i serial below) })
      else some (s.unspawn below)
  | _ => none

/-- What a completed task has held is dropped. -/
def dropped (s : EventLoop) : Code → Option (Except Fault EventLoop)
  | .dropped _ _ caller => some (s.returned s.done caller)
  | .spawnedDropped _ _ below => some (s.unspawn below)
  | _ => none

/-- `run_task(w)` up to the poll. -/
def runTask (s : EventLoop) (w : Waiter) (caller : Caller) : Except Fault EventLoop :=
  let s := { s with currentTask := w.task }
  match w.task with
  | none =>
      if s.mainTask then .ok { s with control := .code (.main caller) } else .error .unreachable
  | some i =>
      match s.tasks.get i with
      | none => .error .freed
      | some (.user serial) => .ok { s with control := .code (.task i serial caller) }
      | some (.ticker serial _) =>
          match caller with
          | .loop => .ok { s with control := .ticker i serial }
          | .tick _ _ _ _ => .error .aliased

/-- The head of `Inner::tick`. -/
def tick (s : EventLoop) (i serial : Nat) : Except Fault EventLoop :=
  match s.held.wheel with
  | none => .error .unreachable
  | some inner =>
      match (inner.slots inner.currentSlot).next with
      | .slot idx =>
          .ok
            { s.setWheel { inner with currentSlot := idx } with control := .ticker i serial }
      | .entry timerId =>
          .ok { s with control := .tick i serial inner.currentSlot timerId false }
      | .nil => .error .unreachable

def setTicker (s : EventLoop) (i serial : Nat) (timer : PeriodicState) : EventLoop :=
  { s with tasks := s.tasks.modify i fun _ => .ticker serial timer }

/-- A turn of the `for_each` of the ticker: a poll of its `PeriodicTimer`, and a tick when
that is ready. -/
def stepTicker (s : EventLoop) (i serial : Nat) : Except Fault EventLoop :=
  match s.tasks.get i with
  | some (.ticker _ (.unscheduled due period)) =>
      let added := s.held.queue.addPeriodic due period ⟨s.currentTask, some serial⟩
      let s := (s.setTicker i serial (.scheduled added.1)).setQueue added.2
      s.returned s.done .loop
  | some (.ticker _ (.scheduled taskId)) => do
      let expired ← s.held.queue.isTaskExpired taskId
      if expired then (s.setTicker i serial (.expired taskId)).tick i serial
      else s.returned s.done .loop
  | some (.ticker _ (.expired taskId)) =>
      let s := s.setTicker i serial (.scheduled taskId)
      s.returned s.done .loop
  | some (.ticker _ .cancelled) => .error .unreachable
  | _ => .error .freed

/-- The body of the loop of `Inner::tick`, up to `run_expired_task`. -/
def visit (s : EventLoop) (i serial : Nat) (current : Fin Wheel.numOfSlots) (timerId : Nat)
    (exit : Bool) (now : Instant) : Except Fault EventLoop :=
  match s.held.wheel with
  | none => .error .unreachable
  | some inner => do
      let (next, expiration, task, inner) ← inner.detach timerId
      let run : Except Fault EventLoop :=
        .ok { s.setWheel inner with control := .runTask task (.tick i serial current next) }
      if exit then
        (s.setWheel inner).follow i serial current exit next
      else
        match expiration with
        | some exp =>
            if now + fromSecs 1 ≤ exp then do
              let inner ← inner.rescheduleInternal now (exp - now) (some exp) timerId
              (s.setWheel inner).follow i serial current exit next
            else run
        | none => run

/-- A turn of the loop of `Queue::poll`, with the entry that `peek` shows. -/
def timers (s : EventLoop) (now : Instant) (exp : Expiration) :
    Option (Except Fault EventLoop) :=
  if s.held.queue.heap = [] then some (.ok { s with phase := .waiting })
  else if exp ∈ s.held.queue.heap ∧ s.held.queue.Top exp then
    if now < exp.inner then some (.ok { s with phase := .waiting })
    else
      some do
        let queue := { s.held.queue with heap := s.held.queue.heap.erase exp }
        let (task, queue) ← queue.expire exp
        match task with
        | none => .ok (s.setQueue queue)
        | some (w, resume) =>
            .ok { s.setQueue queue with phase := .expiring exp resume, control := .runTask w .loop }
  else none

/-- The batch of `epoll_wait`, all of it under tokens that are registered. -/
def collect (s : EventLoop) (batch : List Event) : Option (List Pending) :=
  batch.mapM fun event =>
    (s.held.schedules.get event.token).map fun schedule => ⟨event, schedule.registration⟩

/-- The dispatch of the next event. -/
def event (s : EventLoop) : List Pending → Except Fault EventLoop
  | [] => .ok { s with phase := .timers }
  | p :: rest =>
      match s.held.schedules.get p.event.token with
      | none => .error .freed
      | some schedule =>
          let r := Sys.getReadyTasks p.event schedule
          let schedules := s.held.schedules.modify p.event.token fun _ => r.2
          let s := { s with held := { s.held with schedules := schedules } }
          match r.1 with
          | .single task => .ok { s with phase := .events rest, control := .runTask task .loop }
          | .pair task1 task2 =>
              .ok { s with phase := .pair task2 rest, control := .runTask task1 .loop }

/-- The drop of a ticker cancels its timer. -/
def dropTicker (queue : Queue Waiter) : Object Task → Except Fault (Queue Waiter)
  | .used (.ticker _ (.scheduled taskId)) | .used (.ticker _ (.expired taskId)) =>
      (queue.cancel taskId).map (·.2)
  | _ => .ok queue

/-- `EventLoop::clear`, up to the drops of the objects that tasks have held. -/
def clear (s : EventLoop) : Except Fault EventLoop := do
  let queue ← s.tasks.objs.foldlM dropTicker s.held.queue
  .ok
    { s.setQueue queue with
      tasks := s.tasks.clear
      runs := s.runs + 1
      phase := .clearing }

def silent (r : Except Fault EventLoop) : Except Fault (LoopEvent × EventLoop) :=
  r.map fun s => (.silent, s)

/-- The steps of code.  While the tasks are cleared, it is that of destructors. -/
def stepCode (s : EventLoop) (c : Code) : LoopAction → Option (Except Fault EventLoop)
  | .call call =>
      (s.held.call ⟨s.currentTask, c.who⟩ call).map fun r =>
        r.map fun held => { s with held := held }
  | .sleep now dur => some (s.sleep c now dur)
  | .enterGate => some (.ok s.enterGate.2)
  | .leaveGate => s.leaveGate.map .ok
  | .spawn => some (.ok (s.spawn c))
  | .finish ready => s.finish ready c
  | .dropped => s.dropped c
  | _ => none

/-- The steps of the loops of `TaskRunner`. -/
def stepLoop (s : EventLoop) : Phase → LoopAction → Option (Except Fault EventLoop)
  | .timers, .timers now exp => s.timers now exp
  | .waiting, .wait none => some (.error .panic)
  | .waiting, .wait (some batch) =>
      (s.collect batch).map fun rest => .ok { s with phase := .events rest }
  | .events rest, .event => some (s.event rest)
  | .stopped, .clear => some s.clear
  | .clearing, .call call =>
      if call.releases then
        (s.held.call ⟨s.currentTask, none⟩ call).map fun r =>
          r.map fun held => { s with held := held }
      else none
  | .clearing, .leaveGate => s.leaveGate.map .ok
  | _, _ => none

def step (s : EventLoop) (a : LoopAction) : Option (Except Fault (LoopEvent × EventLoop)) :=
  match s.control, a with
  | .code .outside, .start =>
      some (.ok (.started,
        { s with mainTask := true, phase := .starting, control := .code (.main .loop) }))
  | .code c, a => (s.stepCode c a).map silent
  | .runTask w caller, .runTask => some ((s.runTask w caller).map fun s => (.ran w, s))
  | .ticker i serial, .ticker => some (silent (s.stepTicker i serial))
  | .tick i serial current timerId exit, .visit now =>
      some (silent (s.visit i serial current timerId exit now))
  | .loop, .cleared =>
      if s.phase = .clearing then
        some (.ok (.returned,
          { s with
            currentTask := none
            mainTask := false
            phase := .outside
            control := .code .outside }))
      else none
  | .loop, a => (s.stepLoop s.phase a).map silent
  | _, _ => none

end EventLoop

def loopMachine : Base.Machine EventLoop LoopAction LoopEvent Fault := ⟨EventLoop.step⟩

end Ruyi.Reactor
