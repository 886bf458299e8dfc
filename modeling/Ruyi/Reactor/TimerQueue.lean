import Ruyi.Reactor.Wheel

namespace Ruyi.Reactor.Timer

inductive TaskState where
  | oneshot
  | periodic (period : Duration)
  | expired
  | cancelled
  deriving DecidableEq

/-- A timer of the queue.  `id` names the task of the reactor that waits for it; `serial` tells
the timers apart, and is not kept by the code. -/
structure Task (τ : Type) where
  id : τ
  state : TaskState
  serial : Nat

/-- An entry of the heap; `taskId` is an index in `Queue.tasks`, and `serial` that of the timer
it was pushed for. -/
structure Expiration where
  inner : Instant
  taskId : Nat
  serial : Nat
  deriving DecidableEq

/-- The timer queue.  The heap is the list of its entries, in no order; `cap` is the capacity
of the vector in `tasks`, and `added` counts the timers. -/
structure Queue (τ : Type) where
  tasks : Slab (Task τ)
  heap : List Expiration
  cap : Nat
  added : Nat

/-- What `poll` keeps of a periodic timer while its task is run: the period, and a reference
to the timer, which is good as long as the vector has the capacity it had. -/
structure Resume where
  period : Duration
  cap : Nat
  deriving DecidableEq

/-- The state of a `PeriodicTimer`. -/
inductive PeriodicState where
  | unscheduled (due : Instant) (period : Duration)
  | scheduled (taskId : Nat)
  | expired (taskId : Nat)
  | cancelled
  deriving DecidableEq

namespace Queue

variable {τ : Type}

def new : Queue τ := ⟨Slab.empty, [], 0, 0⟩

def setState (q : Queue τ) (taskId : Nat) (state : TaskState) : Queue τ :=
  { q with tasks := q.tasks.modify taskId fun task => { task with state := state } }

def remove (q : Queue τ) (taskId : Nat) : Queue τ := { q with tasks := (q.tasks.remove taskId).2 }

/-- The capacity of a vector of `cap` once it holds `len` elements, pushed one by one. -/
def grow (cap len : Nat) : Nat := if len ≤ cap then cap else max 4 (2 * cap)

/-- `add` and `add_periodic`, which differ in the state of the new timer. -/
def push (q : Queue τ) (due : Instant) (task : τ) (state : TaskState) : Nat × Queue τ :=
  let inserted := q.tasks.insert ⟨task, state, q.added⟩
  (inserted.1,
    { tasks := inserted.2
      heap := ⟨due, inserted.1, q.added⟩ :: q.heap
      cap := grow q.cap inserted.2.objs.length
      added := q.added + 1 })

def add (q : Queue τ) (due : Instant) (task : τ) : Nat × Queue τ := q.push due task .oneshot

def addPeriodic (q : Queue τ) (due : Instant) (period : Duration) (task : τ) : Nat × Queue τ :=
  q.push due task (.periodic period)

def cancel (q : Queue τ) (taskId : Nat) : Except Fault (Bool × Queue τ) :=
  match q.tasks.get taskId with
  | none => .error .freed
  | some task =>
      match task.state with
      | .oneshot | .periodic _ => .ok (true, q.setState taskId .cancelled)
      | .expired => .ok (false, (q.setState taskId .cancelled).remove taskId)
      | .cancelled => .ok (true, q)

def isTaskExpired (q : Queue τ) (taskId : Nat) : Except Fault Bool :=
  match q.tasks.get taskId with
  | none => .error .freed
  | some task => .ok (task.state = .expired)

/-- `peek` may show the entry at `k`: no other one is due before it. -/
def Top (q : Queue τ) (exp : Expiration) : Prop := ∀ other ∈ q.heap, exp.inner ≤ other.inner

instance (q : Queue τ) (exp : Expiration) : Decidable (q.Top exp) :=
  inferInstanceAs (Decidable (∀ other ∈ q.heap, exp.inner ≤ other.inner))

/-- What `poll` does with an entry it has popped, up to `run_task`: the task to run, and what
is kept of its timer when that is periodic. -/
def expire (q : Queue τ) (exp : Expiration) :
    Except Fault (Option (τ × Option Resume) × Queue τ) :=
  match q.tasks.get exp.taskId with
  | none => .error .freed
  | some task =>
      match task.state with
      | .periodic dur => .ok (some (task.id, some ⟨dur, q.cap⟩), q.setState exp.taskId .expired)
      | .oneshot => .ok (some (task.id, none), q.setState exp.taskId .expired)
      | .cancelled => .ok (none, q.remove exp.taskId)
      | .expired => .error .unreachable

/-- The same after a `run_task` that has returned `false`. -/
def afterRun (q : Queue τ) (exp : Expiration) : Option Resume → Except Fault (Queue τ)
  | none => .ok q
  | some resume =>
      if q.cap ≠ resume.cap then .error .freed
      else
        match q.tasks.get exp.taskId with
        | none => .error .freed
        | some task =>
            if task.state = .cancelled then .ok (q.remove exp.taskId)
            else do
              let due ← addDuration exp.inner resume.period
              let q := q.setState exp.taskId (.periodic resume.period)
              .ok { q with heap := { exp with inner := due } :: q.heap }

end Queue

end Ruyi.Reactor.Timer
