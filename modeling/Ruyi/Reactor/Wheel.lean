import Ruyi.Outcome
import Ruyi.Slab
import Ruyi.Base.Machine

namespace Ruyi.Reactor

/-- Durations and instants in nanoseconds. -/
abbrev Duration := Nat

abbrev Instant := Nat

/-- The end of the instants, whose seconds are an `i64`. -/
def instantEnd : Nat := 2 ^ 63 * 1000000000

/-- The sum of an instant and a duration is an instant. -/
def Fits (start : Instant) (dur : Duration) : Prop := start + dur < instantEnd

instance (start : Instant) (dur : Duration) : Decidable (Fits start dur) :=
  inferInstanceAs (Decidable (start + dur < instantEnd))

/-- `Instant + Duration`, which panics on overflow. -/
def addDuration (start : Instant) (dur : Duration) : Except Fault Instant :=
  if Fits start dur then .ok (start + dur) else .error .panic

theorem addDuration_ok {start : Instant} {dur : Duration} (hfits : Fits start dur) :
    addDuration start dur = .ok (start + dur) := if_pos hfits

theorem addDuration_panics {start : Instant} {dur : Duration} (hover : ¬ Fits start dur) :
    addDuration start dur = .error .panic := if_neg hover

def fromSecs (secs : Nat) : Duration := secs * 1000000000

def asSecs (dur : Duration) : Nat := dur / 1000000000

def subsecNanos (dur : Duration) : Nat := dur % 1000000000

def wrappingAdd (a b : Nat) : Nat := (a + b) % 2 ^ 64

def wrappingSub (a b : Nat) : Nat := (a + (2 ^ 64 - b)) % 2 ^ 64

namespace Wheel

def numOfSlots : Nat := 128

theorem numOfSlots_pos : 0 < numOfSlots := by decide

def mask : Nat := numOfSlots - 1

inductive Token where
  | entry (timerId : Nat)
  | slot (idx : Fin numOfSlots)
  | nil
  deriving DecidableEq

structure Entry (τ : Type) where
  prev : Token
  next : Token
  task : τ
  expiration : Option Instant

structure Slot where
  prev : Token
  next : Token

structure Inner (τ : Type) where
  entries : Slab (Entry τ)
  slots : Fin numOfSlots → Slot
  currentSlot : Fin numOfSlots

theorem and_mask_lt (slot : Nat) : slot &&& mask < numOfSlots := by
  have h : slot &&& mask = slot % 2 ^ 7 := Nat.and_two_pow_sub_one_eq_mod slot 7
  rw [h]
  exact Nat.mod_lt _ (by decide)

def effectiveSlot (slot : Nat) : Fin numOfSlots := ⟨slot &&& mask, and_mask_lt slot⟩

def roundToSecs (dur : Duration) : Nat :=
  if 500000000 ≤ subsecNanos dur then asSecs dur + 1 else asSecs dur

namespace Inner

variable {τ : Type}

def new : Inner τ where
  entries := Slab.empty
  slots i := ⟨.slot (effectiveSlot (wrappingSub i 1)), .slot (effectiveSlot (i + 1))⟩
  currentSlot := ⟨0, numOfSlots_pos⟩

def getEntry (s : Inner τ) (timerId : Nat) : Except Fault (Entry τ) :=
  match s.entries.get timerId with
  | some entry => .ok entry
  | none => .error .freed

/-- Write through `get_mut_entry`. -/
def modifyEntry (s : Inner τ) (timerId : Nat) (f : Entry τ → Entry τ) : Except Fault (Inner τ) :=
  match s.entries.get timerId with
  | some _ => .ok { s with entries := s.entries.modify timerId f }
  | none => .error .freed

/-- Write through `get_mut_slot`. -/
def modifySlot (s : Inner τ) (idx : Fin numOfSlots) (f : Slot → Slot) : Inner τ :=
  { s with slots := fun i => if i = idx then f (s.slots i) else s.slots i }

/-- The `match` that stores `token` as the next link of what `at` names. -/
def setNext (s : Inner τ) (node token : Token) : Except Fault (Inner τ) :=
  match node with
  | .entry timerId => s.modifyEntry timerId fun entry => { entry with next := token }
  | .slot idx => .ok (s.modifySlot idx fun slot => { slot with next := token })
  | .nil => .error .unreachable

def setPrev (s : Inner τ) (node token : Token) : Except Fault (Inner τ) :=
  match node with
  | .entry timerId => s.modifyEntry timerId fun entry => { entry with prev := token }
  | .slot idx => .ok (s.modifySlot idx fun slot => { slot with prev := token })
  | .nil => .error .unreachable

def isExpired (s : Inner τ) (timerId : Nat) : Except Fault Bool := do
  let entry ← s.getEntry timerId
  .ok (entry.prev = .nil)

def schedule (s : Inner τ) (now : Instant) (dur : Duration) (task : τ) :
    Except Fault (Nat × Inner τ) := do
  let timeout := if mask < asSecs dur then mask else asSecs dur
  let expiration ← (if mask < asSecs dur then (addDuration now dur).map some else .ok none)
  let slotIdx := effectiveSlot (wrappingAdd s.currentSlot timeout)
  let prev := (s.slots slotIdx).prev
  let inserted := s.entries.insert ⟨prev, .slot slotIdx, task, expiration⟩
  let s ← { s with entries := inserted.2 }.setNext prev (.entry inserted.1)
  .ok (inserted.1, s.modifySlot slotIdx fun slot => { slot with prev := .entry inserted.1 })

/-- The first half of `reschedule_internal`: a timer too long for the wheel remembers
when it is due. -/
def park (s : Inner τ) (now : Instant) (dur : Duration) (exp : Option Instant)
    (timerId : Nat) : Except Fault (Inner τ) :=
  if mask < roundToSecs dur then do
    let due ← exp.elim (addDuration now dur) .ok
    s.modifyEntry timerId fun entry => { entry with expiration := some due }
  else .ok s

def rescheduleInternal (s : Inner τ) (now : Instant) (dur : Duration) (exp : Option Instant)
    (timerId : Nat) : Except Fault (Inner τ) := do
  let timeout := if mask < roundToSecs dur then mask else roundToSecs dur
  let s ← s.park now dur exp timerId
  let slotIdx := effectiveSlot (wrappingAdd s.currentSlot timeout)
  let prev := (s.slots slotIdx).prev
  let s ← s.modifyEntry timerId fun entry => { entry with prev := prev, next := .slot slotIdx }
  let s ← s.setNext prev (.entry timerId)
  .ok (s.modifySlot slotIdx fun slot => { slot with prev := .entry timerId })

def reschedule (s : Inner τ) (now : Instant) (dur : Duration) (timerId : Nat) :
    Except Fault (Inner τ) := do
  let entry ← s.getEntry timerId
  let s ← s.setNext entry.prev entry.next
  let s ← s.setPrev entry.next entry.prev
  s.rescheduleInternal now dur none timerId

def cancel (s : Inner τ) (timerId : Nat) : Except Fault (Inner τ) :=
  match s.entries.remove timerId with
  | (none, _) => .error .panic
  | (some entry, entries) =>
      if entry.prev = .nil then .ok { s with entries := entries }
      else do
        let s ← { s with entries := entries }.setNext entry.prev entry.next
        s.setPrev entry.next entry.prev

/-- The head of the loop of `tick`: the entry is taken off its links, and `next`,
the expiration and the task are kept. -/
def detach (s : Inner τ) (timerId : Nat) :
    Except Fault (Token × Option Instant × τ × Inner τ) := do
  let entry ← s.getEntry timerId
  let s ← s.modifyEntry timerId fun entry =>
    { entry with prev := .nil, next := .nil, expiration := none }
  .ok (entry.next, entry.expiration, entry.task, s)

/-- The end of `tick`, after its loop. -/
def closeSlot (s : Inner τ) (current next : Fin numOfSlots) : Inner τ :=
  let s := s.modifySlot current fun slot => { slot with next := .slot next }
  let s := s.modifySlot next fun slot => { slot with prev := .slot s.currentSlot }
  { s with currentSlot := next }

end Inner

/-- Where `tick` stands.  `turn` is the top of its loop; `task` is inside
`run_expired_task`, with `next` the token saved from the entry it was called for. -/
inductive Control where
  | outside
  | turn (current : Fin numOfSlots) (timerId : Nat) (exit : Bool)
  | task (current : Fin numOfSlots) (timerId : Nat) (next : Token)
  deriving DecidableEq

/-- The wheel together with the `Timer` values in state `Scheduled` that point into it. -/
structure State (τ : Type) where
  inner : Inner τ
  timers : List Nat
  control : Control

/-- The calls a task may make, and the steps of `tick` between them.  Each carries the
clock it reads. -/
inductive Action (τ : Type) where
  | schedule (now : Instant) (dur : Duration) (task : τ)
  | reschedule (now : Instant) (dur : Duration) (timerId : Nat)
  | drop (timerId : Nat)
  | tick
  | visit (now : Instant)
  | finish (exit : Bool)

inductive Event (τ : Type) where
  | scheduled (timerId : Nat) (task : τ)
  | rescheduled (timerId : Nat)
  | cancelled (timerId : Nat)
  | ticked
  | ran (timerId : Nat) (task : τ)
  | skipped (timerId : Nat)
  | requeued (timerId : Nat) (now : Instant)
  | returned (exit : Bool)
  deriving DecidableEq

namespace State

variable {τ : Type}

def init : State τ := ⟨Inner.new, [], .outside⟩

/-- The bottom of the loop of `tick`. -/
def follow (s : State τ) (current : Fin numOfSlots) (exit : Bool) :
    Token → Except Fault (State τ)
  | .entry timerId => .ok { s with control := .turn current timerId exit }
  | .slot idx => .ok { s with inner := s.inner.closeSlot current idx, control := .outside }
  | .nil => .error .unreachable

def tick (s : State τ) : Except Fault (State τ) :=
  match (s.inner.slots s.inner.currentSlot).next with
  | .slot idx => .ok { s with inner := { s.inner with currentSlot := idx } }
  | .entry timerId => .ok { s with control := .turn s.inner.currentSlot timerId false }
  | .nil => .error .unreachable

def visit (s : State τ) (current : Fin numOfSlots) (timerId : Nat) (exit : Bool) (now : Instant) :
    Except Fault (Event τ × State τ) := do
  let (next, expiration, task, inner) ← s.inner.detach timerId
  let run : Except Fault (Event τ × State τ) :=
    .ok (.ran timerId task, { s with inner := inner, control := .task current timerId next })
  if exit then
    let s ← { s with inner := inner }.follow current exit next
    .ok (.skipped timerId, s)
  else
    match expiration with
    | some exp =>
        if now + fromSecs 1 ≤ exp then do
          let inner ← inner.rescheduleInternal now (exp - now) (some exp) timerId
          let s ← { s with inner := inner }.follow current exit next
          .ok (.requeued timerId now, s)
        else run
    | none => run

/-- A call made by a task.  Only the owner of a `Timer` can drop or reschedule it, and
a dropped one is gone. -/
def call (s : State τ) : Action τ → Option (Except Fault (Event τ × State τ))
  | .schedule now dur task =>
      some do
        let (timerId, inner) ← s.inner.schedule now dur task
        .ok (.scheduled timerId task,
          { s with inner := inner, timers := timerId :: s.timers })
  | .reschedule now dur timerId =>
      if timerId ∈ s.timers then
        some do
          let inner ← s.inner.reschedule now dur timerId
          .ok (.rescheduled timerId, { s with inner := inner })
      else none
  | .drop timerId =>
      if timerId ∈ s.timers then
        some do
          let inner ← s.inner.cancel timerId
          .ok (.cancelled timerId, { s with inner := inner, timers := s.timers.erase timerId })
      else none
  | _ => none

def step (s : State τ) (a : Action τ) : Option (Except Fault (Event τ × State τ)) :=
  match s.control, a with
  | .outside, .tick => some (s.tick.map fun s => (.ticked, s))
  | .outside, a => s.call a
  | .turn current timerId exit, .visit now => some (s.visit current timerId exit now)
  | .turn _ _ _, _ => none
  | .task current _ next, .finish exit =>
      some ((s.follow current exit next).map fun s => (.returned exit, s))
  | .task _ _ _, a => s.call a

end State

def machine (τ : Type) : Base.Machine (State τ) (Action τ) (Event τ) Fault := ⟨State.step⟩

end Wheel

end Ruyi.Reactor
