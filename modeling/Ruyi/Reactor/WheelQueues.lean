import Ruyi.Base.Queues
import Ruyi.Reactor.WheelRing

namespace Ruyi.Reactor.Wheel

open Ruyi.Base

/-- The calls the `Timer` values make into the wheel. -/
inductive Call (τ : Type) where
  | schedule (now : Instant) (dur : Duration) (task : τ)
  | reschedule (now : Instant) (dur : Duration) (timerId : Nat)
  | cancel (timerId : Nat)

variable {τ : Type} {s t : Inner τ} {chain chain' : Chains} {id : Nat}
  {log : List (Call τ × Nat)}

/-- Each call, with the entry it is about: for `schedule`, the one it returns. -/
def Inner.call (s : Inner τ) : Call τ → Except Fault ((Call τ × Nat) × Inner τ)
  | .schedule now dur task => do
      let (timerId, s) ← s.schedule now dur task
      .ok ((.schedule now dur task, timerId), s)
  | .reschedule now dur timerId => do
      let s ← s.reschedule now dur timerId
      .ok ((.reschedule now dur timerId, timerId), s)
  | .cancel timerId => do
      let s ← s.cancel timerId
      .ok ((.cancel timerId, timerId), s)

/-- A `Timer` is rescheduled while it has not expired, and cancelled once. -/
def Inner.Callable (s : Inner τ) : Call τ → Prop
  | .schedule _ _ _ => True
  | .reschedule _ _ timerId => s.isExpired timerId = .ok false
  | .cancel timerId => (s.entries.get timerId).isSome

instance (s : Inner τ) : ∀ c : Call τ, Decidable (s.Callable c)
  | .schedule _ _ _ => isTrue trivial
  | .reschedule _ _ timerId =>
      match h : s.isExpired timerId with
      | .ok false => isTrue h
      | .ok true => isFalse fun heq => nomatch h.symm.trans heq
      | .error _ => isFalse fun heq => nomatch h.symm.trans heq
  | .cancel timerId => inferInstanceAs (Decidable ((s.entries.get timerId).isSome = true))

/-- The deadline that a call computes is an instant. -/
def Call.InRange : Call τ → Prop
  | .schedule now dur _ => mask < asSecs dur → Fits now dur
  | .reschedule now dur _ => mask < roundToSecs dur → Fits now dur
  | .cancel _ => True

instance Call.decidableInRange : ∀ c : Call τ, Decidable c.InRange
  | .schedule now dur _ => inferInstanceAs (Decidable (mask < asSecs dur → Fits now dur))
  | .reschedule now dur _ => inferInstanceAs (Decidable (mask < roundToSecs dur → Fits now dur))
  | .cancel _ => isTrue trivial

def calls (τ : Type) : Machine (Inner τ) (Call τ) (Call τ × Nat) Fault :=
  ⟨fun s c => some (s.call c)⟩

/-- What a call does to the queues of the wheel whose current slot is `current`. -/
def queueStep (current : Fin numOfSlots) : Call τ × Nat → QueueStep (Fin numOfSlots) Nat
  | (.schedule _ dur _, id) => .push (ahead current (min (asSecs dur) mask)) id
  | (.reschedule _ dur timerId, _) => .move (ahead current (min (roundToSecs dur) mask)) timerId
  | (.cancel timerId, _) => .remove timerId

/-- What a call does to the entry it is about. -/
def Call.Tells (s t : Inner τ) : Call τ × Nat → Prop
  | (.schedule _ _ task, id) => s.dataOf id = none ∧ ∃ exp, t.dataOf id = some (task, exp)
  | (.reschedule _ _ timerId, id) => id = timerId ∧ ∃ task old exp,
      s.dataOf id = some (task, old) ∧ t.dataOf id = some (task, exp)
  | (.cancel timerId, id) => id = timerId ∧ t.dataOf id = none

theorem Call.Tells.subject {c : Call τ} (h : Call.Tells s t (c, id)) (current : Fin numOfSlots) :
    (queueStep current (c, id)).subject = id := by
  cases c with
  | schedule now dur task => rfl
  | reschedule now dur timerId => exact h.1.symm
  | cancel timerId => exact h.1.symm

namespace Ring

theorem chain_unique (h : Ring s none chain) (h' : Ring s none chain') : chain' = chain := by
  funext i
  have hspan : span none i (chain' i) = some (.slot (before i), (chain' i).map .entry) :=
    span_of_ne (by simp) _
  exact h.eq_of_path (h'.segment hspan).path

theorem call_ok (h : Ring s none chain) {c : Call τ} (hcall : s.Callable c)
    (hrange : c.InRange) :
    ∃ id t, s.call c = .ok ((c, id), t) ∧ t.currentSlot = s.currentSlot ∧
      Call.Tells s t (c, id) ∧ Ring t none ((queueStep s.currentSlot (c, id)).apply chain) := by
  cases c with
  | schedule now dur task =>
      obtain ⟨id, t, hok, hfresh, hring, hcurrent, hdata⟩ :=
        h.schedule task hrange fun hbusy => nomatch hbusy
      rw [slotAfter_eq_ahead] at hring
      exact ⟨id, t, bind_of_ok hok rfl, hcurrent, ⟨hfresh, _, (hdata id).trans (if_pos rfl)⟩,
        hring⟩
  | reschedule now dur id =>
      obtain ⟨i, hmem⟩ := h.exists_mem hcall
      obtain ⟨task, old, t, hold, hok, hring, hcurrent, hdata⟩ :=
        h.reschedule hrange hmem (fun hbusy => nomatch hbusy) fun hbusy => nomatch hbusy
      rw [slotAfter_eq_ahead] at hring
      exact ⟨id, t, bind_of_ok hok rfl, hcurrent,
        ⟨rfl, task, old, _, hold, (hdata id).trans (if_pos rfl)⟩, hring⟩
  | cancel id =>
      have hused : (s.dataOf id).isSome := (Option.isSome_map ..).trans hcall
      obtain ⟨t, hok, hring, hcurrent, hdata⟩ := h.cancel hused fun hbusy => nomatch hbusy
      exact ⟨id, t, bind_of_ok hok rfl, hcurrent, ⟨rfl, (hdata id).trans (if_pos rfl)⟩, hring⟩

theorem call_panics (h : Ring s none chain) {c : Call τ} (hcall : s.Callable c)
    (hrange : ¬ c.InRange) : s.call c = .error .panic := by
  cases c with
  | schedule now dur task =>
      rw [Inner.call, s.schedule_panics task hrange]
      rfl
  | reschedule now dur id =>
      obtain ⟨i, hmem⟩ := h.exists_mem hcall
      rw [Inner.call, h.reschedule_panics hrange hmem fun hbusy => by cases hbusy]
      rfl
  | cancel id => exact absurd trivial hrange

theorem inRange_of_call (h : Ring s none chain) {c : Call τ} (hcall : s.Callable c)
    {r : (Call τ × Nat) × Inner τ} (hok : s.call c = .ok r) : c.InRange := by
  by_contra hrange
  cases (h.call_panics hcall hrange).symm.trans hok

theorem iff_eq (h : Ring s none chain) : Ring s none chain' ↔ chain' = chain := by
  constructor
  · exact h.chain_unique
  · rintro rfl
    exact h

end Ring

/-- The queues after a run of calls. -/
def queuesAfter (current : Fin numOfSlots) (chain : Chains) (log : List (Call τ × Nat)) : Chains :=
  (log.map (queueStep current)).foldl QueueStep.apply chain

theorem queuesAfter_append (current : Fin numOfSlots) (chain : Chains) (log : List (Call τ × Nat))
    (made : Call τ × Nat) : queuesAfter current chain (log ++ [made]) =
      (queueStep current made).apply (queuesAfter current chain log) := by
  rw [queuesAfter, List.map_append, List.foldl_append]
  rfl

theorem ring_queuesAfter (h : Ring s none chain)
    (hrun : (calls τ).Run Inner.Callable s log t) :
    t.currentSlot = s.currentSlot ∧ Ring t none (queuesAfter s.currentSlot chain log) := by
  refine Machine.Run.invariant (I := fun log t => t.currentSlot = s.currentSlot ∧
    Ring t none (queuesAfter s.currentSlot chain log)) ⟨rfl, h⟩ ?_ hrun
  rintro log t c made u ⟨hcurrent, hring⟩ hcall hstep
  obtain ⟨id, u', hok, hcurrent', -, hring'⟩ :=
    hring.call_ok hcall (hring.inRange_of_call hcall (Option.some.inj hstep))
  obtain ⟨rfl, rfl⟩ := Prod.mk.inj (Except.ok.inj (hok.symm.trans (Option.some.inj hstep)))
  rw [hcurrent] at hcurrent' hring'
  refine ⟨hcurrent', ?_⟩
  rw [queuesAfter_append]
  exact hring'

/-- Outside `tick` the wheel is a set of queues.  From any well-formed wheel, every
sequence of calls leaves a well-formed one, whose chains are those the same steps leave in
the queues; every further call whose deadline is an instant succeeds and is again a step of
the queues, and such a step keeps all other entries in their chains and in their order.  The
other calls panic.  A timer rescheduled to a whole number of seconds goes where one scheduled
for as long would. -/
theorem calls_are_queue_steps (h : Ring s none chain)
    (hrun : (calls τ).Run Inner.Callable s log t) :
    let queues := queuesAfter s.currentSlot chain log
    t.currentSlot = s.currentSlot ∧ t.Complete ∧
      (∀ chain', Ring t none chain' ↔ chain' = queues) ∧
      (∀ (p : Nat → Bool) (i : Fin numOfSlots),
        (∀ made ∈ log, p (queueStep s.currentSlot made).subject = false) →
        (queues i).filter p = (chain i).filter p) ∧
      ∀ c, t.Callable c → (¬ c.InRange → t.call c = .error .panic) ∧
        (c.InRange → ∃ id u, t.call c = .ok ((c, id), u) ∧ Call.Tells t u (c, id) ∧
          (∀ chain', Ring u none chain' ↔
            chain' = (queueStep s.currentSlot (c, id)).apply queues) ∧
          (∀ (p : Nat → Bool) (i : Fin numOfSlots), p id = false →
            ((queueStep s.currentSlot (c, id)).apply queues i).filter p = (queues i).filter p) ∧
          ∀ now secs, c = .reschedule now (fromSecs secs) id → queueStep s.currentSlot (c, id) =
            .move (ahead s.currentSlot (min secs mask)) id) := by
  obtain ⟨hcurrent, hring⟩ := ring_queuesAfter h hrun
  refine ⟨hcurrent, hring.complete, fun _ => hring.iff_eq, ?_, ?_⟩
  · intro p i hlog
    apply QueueStep.filter_foldl
    intro step hstep
    obtain ⟨made, hmade, rfl⟩ := List.mem_map.mp hstep
    exact hlog made hmade
  · intro c hcall
    refine ⟨hring.call_panics hcall, fun hrange => ?_⟩
    obtain ⟨id, u, hok, -, htells, hring'⟩ := hring.call_ok hcall hrange
    rw [hcurrent] at hring'
    refine ⟨id, u, hok, htells, fun _ => hring'.iff_eq, ?_, ?_⟩
    · intro p i hp
      apply QueueStep.filter_apply
      rwa [htells.subject]
    · rintro now secs rfl
      rw [queueStep, roundToSecs_fromSecs]

theorem calls_are_queue_steps_of_four :
    ∃ (log : List (Call Unit × Nat)) (t : Inner Unit),
      (calls Unit).Run Inner.Callable Inner.new log t ∧ log.length = 4 ∧ t.Complete ∧
        queuesAfter ⟨0, numOfSlots_pos⟩ (fun _ => []) log ⟨127, by decide⟩ = [0] ∧
        queuesAfter ⟨0, numOfSlots_pos⟩ (fun _ => []) log ⟨3, by decide⟩ = [] := by
  have hall : ∀ {log : List (Call Unit × Nat)} {t : Inner Unit},
      (calls Unit).exec Inner.Callable [.schedule 0 (fromSecs 3) (), .schedule 0 (fromSecs 3) (),
        .reschedule 5 (fromSecs 200) 0, .cancel 1] Inner.new = some (log, t) →
      (calls Unit).Run Inner.Callable Inner.new log t ∧ t.Complete := by
    intro log t hexec
    have hrun := Machine.Run.of_exec _ hexec
    exact ⟨hrun, (calls_are_queue_steps Ring.new hrun).2.1⟩
  obtain ⟨hrun, hcomplete⟩ := hall rfl
  exact ⟨_, _, hrun, rfl, hcomplete, by decide, by decide⟩

/-- A timer for the longest time that an `Instant` can tell, one second after its start. -/
theorem overflowing_deadline_panics :
    let wheel : Inner Unit := Inner.new
    let call : Call Unit := .schedule (fromSecs 1) (fromSecs (2 ^ 63 - 1)) ()
    Ring wheel none (fun _ => []) ∧ wheel.Callable call ∧ wheel.call call = .error .panic :=
  ⟨Ring.new, trivial, Ring.new.call_panics trivial (by decide)⟩

end Ruyi.Reactor.Wheel
