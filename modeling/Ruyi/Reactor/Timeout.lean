import Ruyi.Reactor.WheelTick

namespace Ruyi.Reactor.Wheel

open Ruyi.Base

inductive TimerState where
  | unscheduled (dur : Duration)
  | scheduled (timerId : Nat)
  | expired
  | cancelled
  deriving DecidableEq

structure Timer where
  state : TimerState
  deriving DecidableEq

variable {τ σ ε ι : Type}

namespace State

/-- Tasks run outside of `tick`, and where it calls `run_expired_task`. -/
def yields (s : State τ) : Bool :=
  match s.control with
  | .turn _ _ _ => false
  | _ => true

def schedule (s : State τ) (now : Instant) (dur : Duration) (task : τ) :
    Except Fault (Nat × State τ) := do
  let (timerId, inner) ← s.inner.schedule now dur task
  .ok (timerId, { s with inner := inner, timers := timerId :: s.timers })

def reschedule (s : State τ) (now : Instant) (dur : Duration) (timerId : Nat) :
    Except Fault (State τ) := do
  let inner ← s.inner.reschedule now dur timerId
  .ok { s with inner := inner }

def cancel (s : State τ) (timerId : Nat) : Except Fault (State τ) := do
  let inner ← s.inner.cancel timerId
  .ok { s with inner := inner, timers := s.timers.erase timerId }

end State

namespace Timer

def new (secs : Nat) : Timer := ⟨if secs = 0 then .expired else .unscheduled (fromSecs secs)⟩

def poll (timer : Timer) (s : State τ) (now : Instant) (task : τ) :
    Except Fault (Async Unit × Timer × State τ) :=
  match timer.state with
  | .scheduled timerId => do
      let expired ← s.inner.isExpired timerId
      .ok (if expired then .ready () else .notReady, timer, s)
  | .unscheduled dur => do
      let (timerId, s) ← s.schedule now dur task
      .ok (.notReady, ⟨.scheduled timerId⟩, s)
  | .expired => .ok (.ready (), timer, s)
  | .cancelled => .error .unreachable

def reschedule (timer : Timer) (s : State τ) (now : Instant) (secs : Nat) (task : τ) :
    Except Fault (Bool × Timer × State τ) :=
  match timer.state with
  | .scheduled timerId => do
      let s ← s.reschedule now (fromSecs secs) timerId
      .ok (true, timer, s)
  | .unscheduled dur => do
      let (timerId, s) ← s.schedule now dur task
      .ok (true, ⟨.scheduled timerId⟩, s)
  | .expired => .ok (false, timer, s)
  | .cancelled => .error .unreachable

def drop (timer : Timer) (s : State τ) : Except Fault (Timer × State τ) :=
  match timer.state with
  | .scheduled timerId => do
      let s ← s.cancel timerId
      .ok (⟨.cancelled⟩, s)
  | _ => .ok (timer, s)

end Timer

/-- What a stream with a timeout fails with, before `E::from`. -/
inductive TimeoutError (σ ε : Type) where
  | timedOut (inner : σ)
  | other (error : ε)

structure TimeoutStream (σ : Type) where
  stream : Option σ
  secs : Nat
  timer : Timer

namespace TimeoutStream

def new (stream : σ) (secs : Nat) : TimeoutStream σ := ⟨some stream, secs, Timer.new secs⟩

/-- The stream is taken out, and handed back in the error. -/
def timeOut (ts : TimeoutStream σ) (s : State τ) :
    Except Fault (Except (TimeoutError σ ε) (Async (Option ι)) × TimeoutStream σ × State τ) :=
  match ts.stream with
  | some stream => .ok (.error (.timedOut stream), { ts with stream := none }, s)
  | none => .error .unreachable

/-- `polled` is what the poll of the stream inside gives, with the stream after it. -/
def poll (ts : TimeoutStream σ) (s : State τ) (now : Instant) (task : τ)
    (polled : Except ε (Async (Option ι)) × σ) :
    Except Fault (Except (TimeoutError σ ε) (Async (Option ι)) × TimeoutStream σ × State τ) :=
  match ts.stream with
  | none => .error .panic
  | some _ =>
      let ts := { ts with stream := some polled.2 }
      match polled.1 with
      | .ok .notReady => do
          let (ready, timer, s) ← ts.timer.poll s now task
          let ts := { ts with timer := timer }
          match ready with
          | .notReady => .ok (.ok .notReady, ts, s)
          | .ready () => ts.timeOut s
      | .ok (.ready (some v)) => do
          let (rescheduled, timer, s) ← ts.timer.reschedule s now ts.secs task
          let ts := { ts with timer := timer }
          match rescheduled with
          | true => .ok (.ok (.ready (some v)), ts, s)
          | false => ts.timeOut s
      | .ok (.ready none) => .ok (.ok (.ready none), ts, s)
      | .error e => .ok (.error (.other e), ts, s)

end TimeoutStream

/-- The wheel, the streams with a timeout, and the `Timer` values others hold. -/
structure System (τ σ : Type) where
  wheel : State τ
  streams : Nat → Option (TimeoutStream σ)
  others : List Nat

inductive SystemAction (τ σ ε ι : Type) where
  | timeout (i : Nat) (stream : σ) (secs : Nat)
  | poll (i : Nat) (now : Instant) (task : τ) (polled : Except ε (Async (Option ι)) × σ)
  | drop (i : Nat)
  | wheel (a : Action τ)

inductive SystemEvent (τ σ ε ι : Type) where
  | made (i : Nat)
  | polled (i : Nat) (result : Except (TimeoutError σ ε) (Async (Option ι)))
  | dropped (i : Nat)
  | wheel (e : Event τ)

/-- The `Timer` values held after an event. -/
def Event.held (timers : List Nat) : Event τ → List Nat
  | .scheduled timerId _ => timerId :: timers
  | .cancelled timerId => timers.filter (· ≠ timerId)
  | _ => timers

namespace System

variable {s t : System τ σ} {i : Nat}

def init : System τ σ := ⟨State.init, fun _ => none, []⟩

def set (s : System τ σ) (wheel : State τ) (i : Nat) (ts : Option (TimeoutStream σ)) :
    System τ σ :=
  { s with wheel := wheel, streams := Function.update s.streams i ts }

def step (s : System τ σ) :
    SystemAction τ σ ε ι → Option (Except Fault (SystemEvent τ σ ε ι × System τ σ))
  | .timeout i stream secs =>
      if s.wheel.yields ∧ (s.streams i).isNone then
        some (.ok (.made i, s.set s.wheel i (some (.new stream secs))))
      else none
  | .poll i now task polled =>
      if s.wheel.yields then
        (s.streams i).map fun ts => do
          let (result, ts, wheel) ← ts.poll s.wheel now task polled
          .ok (.polled i result, s.set wheel i (some ts))
      else none
  | .drop i =>
      if s.wheel.yields then
        (s.streams i).map fun ts => do
          let (_, wheel) ← ts.timer.drop s.wheel
          .ok (.dropped i, s.set wheel i none)
      else none
  | .wheel a =>
      if ∀ timerId ∈ a.target, timerId ∈ s.others then
        (s.wheel.step a).map fun r => do
          let (e, wheel) ← r
          .ok (.wheel e, { s with wheel := wheel, others := e.held s.others })
      else none

end System

def system (τ σ ε ι : Type) :
    Machine (System τ σ) (SystemAction τ σ ε ι) (SystemEvent τ σ ε ι) Fault := ⟨System.step⟩

end Ruyi.Reactor.Wheel
