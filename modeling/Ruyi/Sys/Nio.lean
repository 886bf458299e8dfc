import Ruyi.Outcome
import Ruyi.Slab

namespace Ruyi.Sys

/-- The interest of a descriptor, as the poller and `Nio::sched_ops` hold it. -/
structure Ops where
  read : Bool
  write : Bool
  deriving DecidableEq

/-- A schedule of the loop.  `registration` tells the calls of `Nio::register` apart; the
code does not keep it. -/
structure Schedule (τ : Type) where
  readTask : τ
  writeTask : τ
  readReady : Bool
  writeReady : Bool
  registration : Nat

/-- What `epoll_wait` reports for a token. -/
structure Event where
  token : Nat
  isRead : Bool
  isWrite : Bool
  deriving DecidableEq

inductive ReadyTasks (τ : Type) where
  | single (task : τ)
  | pair (task1 task2 : τ)

structure Nio where
  token : Nat
  schedOps : Ops
  deriving DecidableEq

section

variable {τ : Type}

namespace Schedule

def new (registration : Nat) (task : τ) : Schedule τ := ⟨task, task, true, true, registration⟩

def scheduleRead (s : Schedule τ) (task : τ) : Schedule τ :=
  { s with readReady := false, readTask := task }

def scheduleWrite (s : Schedule τ) (task : τ) : Schedule τ :=
  { s with writeReady := false, writeTask := task }

def cancelWrite (s : Schedule τ) : Schedule τ := { s with writeReady := true }

end Schedule

def getReadyTasks (event : Event) (schedule : Schedule τ) : ReadyTasks τ × Schedule τ :=
  match event.isRead, event.isWrite with
  | true, true =>
      (.pair schedule.readTask schedule.writeTask,
        { schedule with readReady := true, writeReady := true })
  | true, false => (.single schedule.readTask, { schedule with readReady := true })
  | false, _ => (.single schedule.writeTask, { schedule with writeReady := true })

/-- Write through `schedules.get_unchecked_mut`. -/
def modifySchedule (schedules : Slab (Schedule τ)) (token : Nat)
    (f : Schedule τ → Schedule τ) : Except Fault (Slab (Schedule τ)) :=
  match schedules.get token with
  | none => .error .freed
  | some _ => .ok (schedules.modify token f)

namespace Nio

/-- `try_from`, with the result of the poller. -/
def register (schedules : Slab (Schedule τ)) (registration : Nat) (current : τ)
    (result : Except ErrorKind Unit) : Except ErrorKind Nio × Slab (Schedule τ) :=
  let inserted := schedules.insert (Schedule.new registration current)
  match result with
  | .ok () => (.ok ⟨inserted.1, ⟨false, false⟩⟩, inserted.2)
  | .error e => (.error e, (inserted.2.remove inserted.1).2)

theorem get_register {schedules : Slab (Schedule τ)} {token : Nat} {schedule : Schedule τ}
    (hget : schedules.get token = some schedule) (registration : Nat) (current : τ)
    (result : Except ErrorKind Unit) :
    (register schedules registration current result).2.get token = some schedule := by
  have hne : token ≠ (schedules.insert (.new registration current)).1 := by
    rintro rfl
    rw [Slab.get_insert_fst] at hget
    cases hget
  have hinserted := schedules.get_insert (.new registration current) token
  rw [if_neg hne] at hinserted
  match result with
  | .ok () => exact hinserted.trans hget
  | .error _ => exact (Slab.get_remove _ _ _).trans ((if_neg hne).trans (hinserted.trans hget))

/-- A change of the interest: the poller first, and the schedule when it has succeeded. -/
def reregister (nio : Nio) (schedules : Slab (Schedule τ)) (ops : Ops)
    (result : Except ErrorKind Unit) (f : Schedule τ → Schedule τ) :
    Except Fault (Except ErrorKind Unit × Nio × Slab (Schedule τ)) :=
  match result with
  | .ok () => do
      let schedules ← modifySchedule schedules nio.token f
      .ok (.ok (), { nio with schedOps := ops }, schedules)
  | .error e => .ok (.error e, { nio with schedOps := ops }, schedules)

def scheduleRead (nio : Nio) (schedules : Slab (Schedule τ)) (current : τ)
    (result : Except ErrorKind Unit) :
    Except Fault (Except ErrorKind Unit × Nio × Slab (Schedule τ)) :=
  if nio.schedOps.read then .ok (.ok (), nio, schedules)
  else nio.reregister schedules { nio.schedOps with read := true } result (·.scheduleRead current)

def scheduleWrite (nio : Nio) (schedules : Slab (Schedule τ)) (current : τ)
    (result : Except ErrorKind Unit) :
    Except Fault (Except ErrorKind Unit × Nio × Slab (Schedule τ)) :=
  if nio.schedOps.write then .ok (.ok (), nio, schedules)
  else nio.reregister schedules { nio.schedOps with write := true } result (·.scheduleWrite current)

def cancelWrite (nio : Nio) (schedules : Slab (Schedule τ))
    (result : Except ErrorKind Unit) :
    Except Fault (Except ErrorKind Unit × Nio × Slab (Schedule τ)) :=
  if nio.schedOps.write then
    nio.reregister schedules { nio.schedOps with write := false } result Schedule.cancelWrite
  else .ok (.ok (), nio, schedules)

/-- The drop of a `Nio`: a token is cancelled once the poller has forgotten it. -/
def deregister (nio : Nio) (schedules : Slab (Schedule τ)) (result : Except ErrorKind Unit) :
    Slab (Schedule τ) :=
  match result with
  | .ok () => (schedules.remove nio.token).2
  | .error _ => schedules

end Nio

end

end Ruyi.Sys
