import Mathlib
import Ruyi.Outcome
import Ruyi.Base.Machine

namespace Ruyi.Sync

/-- `usize` arithmetic, for words of `w` bits. -/
def wrap (w n : Nat) : Nat := n % 2 ^ w

/-- `usize::next_power_of_two` of a release build, which wraps to 0. -/
def nextPowerOfTwo (w n : Nat) : Nat :=
  match (List.range w).find? fun k => n ≤ 2 ^ k with
  | some k => 2 ^ k
  | none => 0

/-- A slot of the buffer.  `writing` is one whose `ptr::write` is under way; a value that
`ptr::read` has moved out leaves its slot vacant. -/
inductive Slot (α : Type) where
  | vacant
  | writing
  | holds (value : α)
  deriving DecidableEq

/-- The buffer.  `slots` is what `buf_ptr` points to, the allocation that the drop gives back by
`alloc_cap`. -/
structure RingBuffer (w : Nat) (α : Type) where
  cap : Nat
  idxMask : Nat
  front : Nat
  shadowRear : Nat
  rear : Nat
  shadowFront : Nat
  slots : List (Slot α)

/-- Where the producer stands in `try_push(t)`. -/
inductive Producer (α : Type) where
  | idle
  | loadRear (t : α)
  | checkShadow (t : α) (rear : Nat)
  | reloadFront (t : α) (rear : Nat)
  | recheck (t : α) (rear : Nat)
  | startWrite (t : α) (rear : Nat)
  | endWrite (t : α) (rear : Nat)
  | storeRear (t : α) (rear : Nat)
  deriving DecidableEq

/-- Where the consumer stands in `try_pop`. -/
inductive Consumer (α : Type) where
  | idle
  | loadFront
  | checkShadow (front : Nat)
  | reloadRear (front : Nat)
  | recheck (front : Nat)
  | read (front : Nat)
  | storeFront (front : Nat) (v : α)
  deriving DecidableEq

/-- A ring buffer between its two threads. -/
structure Ring (w : Nat) (α : Type) where
  buf : RingBuffer w α
  producer : Producer α
  consumer : Consumer α

/-- `push` and `pop` enter `try_push` and `try_pop`; the others are the next step of a
thread inside its call. -/
inductive RingAction (α : Type) where
  | push (t : α)
  | producer
  | pop
  | consumer

/-- `pushed` and `popped` are calls that return `None` and `Some`; `refused` hands its
value back, `empty` is a `try_pop` that returns `None`. -/
inductive RingEvent (α : Type) where
  | called (t : α)
  | pushed (t : α)
  | refused (t : α)
  | popped (t : α)
  | empty
  | silent
  deriving DecidableEq

namespace RingBuffer

variable {w : Nat} {α : Type}

def withCapacity (w : Nat) (α : Type) (capacity : Nat) : RingBuffer w α where
  cap := capacity
  idxMask := wrap w (nextPowerOfTwo w capacity + (2 ^ w - 1))
  front := 0
  shadowRear := 0
  rear := 0
  shadowFront := 0
  slots := List.replicate (nextPowerOfTwo w capacity) .vacant

def effectiveIndex (b : RingBuffer w α) (index : Nat) : Nat := index &&& b.idxMask

/-- The comparison of `try_push` that finds no room. -/
def full (b : RingBuffer w α) (rear : Nat) : Bool := wrap w (b.shadowFront + b.cap) ≤ rear

def setSlot (b : RingBuffer w α) (i : Nat) (slot : Slot α) : RingBuffer w α :=
  { b with slots := b.slots.set i slot }

/-- A write to slot `i`, which has to be in the allocation. -/
def writeSlot (b : RingBuffer w α) (i : Nat) (slot : Slot α) : Except Fault (RingBuffer w α) :=
  if i < b.slots.length then .ok (b.setSlot i slot) else .error .outOfBounds

end RingBuffer

namespace Ring

variable {w : Nat} {α : Type}

def init (w : Nat) (α : Type) (capacity : Nat) : Ring w α :=
  ⟨RingBuffer.withCapacity w α capacity, .idle, .idle⟩

/-- The next step of `try_push`. -/
def produce (s : Ring w α) : Option (Except Fault (RingEvent α × Ring w α)) :=
  match s.producer with
  | .idle => none
  | .loadRear t => some (.ok (.silent, { s with producer := .checkShadow t s.buf.rear }))
  | .checkShadow t rear =>
      some (.ok (.silent,
        { s with producer := if s.buf.full rear then .reloadFront t rear else .startWrite t rear }))
  | .reloadFront t rear =>
      some (.ok (.silent,
        { s with buf := { s.buf with shadowFront := s.buf.front }, producer := .recheck t rear }))
  | .recheck t rear =>
      if s.buf.full rear then some (.ok (.refused t, { s with producer := .idle }))
      else some (.ok (.silent, { s with producer := .startWrite t rear }))
  | .startWrite t rear =>
      some do
        let buf ← s.buf.writeSlot (s.buf.effectiveIndex rear) .writing
        .ok (.silent, { s with buf := buf, producer := .endWrite t rear })
  | .endWrite t rear =>
      some do
        let buf ← s.buf.writeSlot (s.buf.effectiveIndex rear) (.holds t)
        .ok (.silent, { s with buf := buf, producer := .storeRear t rear })
  | .storeRear t rear =>
      some (.ok (.pushed t,
        { s with buf := { s.buf with rear := wrap w (rear + 1) }, producer := .idle }))

/-- The next step of `try_pop`. -/
def consume (s : Ring w α) : Option (Except Fault (RingEvent α × Ring w α)) :=
  match s.consumer with
  | .idle => none
  | .loadFront => some (.ok (.silent, { s with consumer := .checkShadow s.buf.front }))
  | .checkShadow front =>
      some (.ok (.silent,
        { s with
          consumer := if front = s.buf.shadowRear then .reloadRear front else .read front }))
  | .reloadRear front =>
      some (.ok (.silent,
        { s with buf := { s.buf with shadowRear := s.buf.rear }, consumer := .recheck front }))
  | .recheck front =>
      if front = s.buf.shadowRear then some (.ok (.empty, { s with consumer := .idle }))
      else some (.ok (.silent, { s with consumer := .read front }))
  | .read front =>
      match s.buf.slots[s.buf.effectiveIndex front]? with
      | some (.holds v) =>
          some (.ok (.silent,
            { s with
              buf := s.buf.setSlot (s.buf.effectiveIndex front) .vacant
              consumer := .storeFront front v }))
      | some _ => some (.error .uninit)
      | none => some (.error .outOfBounds)
  | .storeFront front v =>
      some (.ok (.popped v,
        { s with buf := { s.buf with front := wrap w (front + 1) }, consumer := .idle }))

def step (s : Ring w α) : RingAction α → Option (Except Fault (RingEvent α × Ring w α))
  | .push t =>
      match s.producer with
      | .idle => some (.ok (.called t, { s with producer := .loadRear t }))
      | _ => none
  | .producer => s.produce
  | .pop =>
      match s.consumer with
      | .idle => some (.ok (.silent, { s with consumer := .loadFront }))
      | _ => none
  | .consumer => s.consume

end Ring

def ringMachine (w : Nat) (α : Type) :
    Base.Machine (Ring w α) (RingAction α) (RingEvent α) Fault := ⟨Ring.step⟩

end Ruyi.Sync
