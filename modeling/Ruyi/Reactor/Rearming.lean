import Ruyi.Reactor.Timeout

namespace Ruyi.Reactor.Wheel

open Ruyi.Base

variable {τ σ ε ι : Type} {w w' : State τ} {chain chain' : Chains} {id : Nat}

namespace State

/-- The entry is linked on the ring, and not expired. -/
def Waits (w : State τ) (id : Nat) : Prop :=
  ∃ chain, w.Inv chain ∧ (∃ i, id ∈ chain i) ∧ w.inner.isExpired id = .ok false

/-- The steps that leave alone what `tick` relies on between two entries. -/
def Undisturbed (w : State τ) : Action τ → Prop
  | .reschedule _ dur id => w.saved ≠ some (.entry id) ∧ (w.atLast → roundToSecs dur ≠ 1)
  | .schedule now dur task => w.Allowed (.schedule now dur task)
  | .drop id => w.Allowed (.drop id)
  | .tick => True
  | .visit now => w.Allowed (.visit now)
  | .finish _ => True

instance (w : State τ) : ∀ a : Action τ, Decidable (w.Undisturbed a)
  | .reschedule _ dur id =>
      inferInstanceAs (Decidable (w.saved ≠ some (.entry id) ∧ (w.atLast → roundToSecs dur ≠ 1)))
  | .schedule now dur task => inferInstanceAs (Decidable (w.Allowed (.schedule now dur task)))
  | .drop id => inferInstanceAs (Decidable (w.Allowed (.drop id)))
  | .tick => isTrue trivial
  | .visit now => inferInstanceAs (Decidable (w.Allowed (.visit now)))
  | .finish _ => isTrue trivial

theorem turn_ne (h : w.yields = true) (current : Fin numOfSlots) (id : Nat) (exit : Bool) :
    w.control ≠ .turn current id exit := by
  intro hcontrol
  rw [yields, hcontrol] at h
  cases h

theorem Inv.waits (h : w.Inv chain) {i : Fin numOfSlots} (hmem : id ∈ chain i) : w.Waits id :=
  ⟨chain, h, ⟨i, hmem⟩, h.ring.isExpired_of_mem hmem⟩

theorem Inv.schedule_ok (h : w.Inv chain) (hyields : w.yields = true) {now : Instant}
    {dur : Duration} {task : τ} (hallowed : w.Undisturbed (.schedule now dur task))
    (hrange : (Action.schedule now dur task).InRange) :
    ∃ id w' chain', w.schedule now dur task = .ok (id, w') ∧ w'.Inv chain' ∧
      w'.timers = id :: w.timers ∧ id ∉ w.timers ∧ w'.Waits id := by
  obtain ⟨id, w', chain', hok, hinv, heffect, hdetail⟩ :=
    h.call_schedule (turn_ne hyields) hallowed hrange
  obtain ⟨⟨id', inner⟩, hinner, heq⟩ := ok_of_bind_ok (Option.some.inj hok)
  obtain ⟨hevent, rfl⟩ := Prod.mk.inj (Except.ok.inj heq)
  obtain ⟨rfl, -⟩ := Event.scheduled.inj hevent
  refine ⟨id', _, chain', bind_of_ok hinner rfl, hinv, rfl, ?_, hinv.waits hdetail.places.1⟩
  rw [h.timers, heffect.tells.1]
  exact Bool.false_ne_true

theorem Inv.reschedule_ok (h : w.Inv chain) (hyields : w.yields = true) {now : Instant}
    {dur : Duration} (hmem : id ∈ w.timers) (hexpired : w.inner.isExpired id = .ok false)
    (hallowed : w.Undisturbed (.reschedule now dur id))
    (hrange : (.reschedule now dur id : Action τ).InRange) :
    ∃ w' chain', w.reschedule now dur id = .ok w' ∧ w'.Inv chain' ∧ w'.timers = w.timers ∧
      w'.Waits id := by
  obtain ⟨i, hi⟩ := h.ring.exists_mem hexpired
  obtain ⟨w', chain', hok, hinv, -, hdetail⟩ := h.call_reschedule (turn_ne hyields) hmem
    ⟨h.ring.queued hi, hallowed⟩ hrange
  rw [call, if_pos hmem] at hok
  obtain ⟨inner, hinner, heq⟩ := ok_of_bind_ok (Option.some.inj hok)
  obtain ⟨-, rfl⟩ := Prod.mk.inj (Except.ok.inj heq)
  exact ⟨_, chain', bind_of_ok hinner rfl, hinv, rfl, hinv.waits hdetail.places.1⟩

theorem schedule_panics (w : State τ) {now : Instant} {dur : Duration} {task : τ}
    (hrange : ¬ (Action.schedule now dur task).InRange) :
    w.schedule now dur task = .error .panic := by
  rw [schedule, Inner.schedule_panics w.inner task hrange]
  rfl

theorem Inv.reschedule_panics (h : w.Inv chain) (hyields : w.yields = true) {now : Instant}
    {dur : Duration} (hexpired : w.inner.isExpired id = .ok false)
    (hallowed : w.Undisturbed (.reschedule now dur id))
    (hrange : ¬ (.reschedule now dur id : Action τ).InRange) :
    w.reschedule now dur id = .error .panic := by
  obtain ⟨i, hi⟩ := h.ring.exists_mem hexpired
  rw [reschedule, h.ring.reschedule_panics hrange hi fun hbusy =>
    h.head_ne (turn_ne hyields) hallowed.1 hbusy]
  rfl

theorem Inv.cancel_ok (h : w.Inv chain) (hyields : w.yields = true) (hmem : id ∈ w.timers)
    (hallowed : w.Undisturbed (.drop id)) :
    ∃ w' chain', w.cancel id = .ok w' ∧ w'.Inv chain' ∧ w'.timers = w.timers.erase id := by
  obtain ⟨w', chain', hok, hinv, -⟩ := h.call_drop (turn_ne hyields) hmem hallowed
  rw [call, if_pos hmem] at hok
  obtain ⟨inner, hinner, heq⟩ := ok_of_bind_ok (Option.some.inj hok)
  obtain ⟨-, rfl⟩ := Prod.mk.inj (Except.ok.inj heq)
  exact ⟨_, chain', bind_of_ok hinner rfl, hinv, rfl⟩

theorem reschedule_expired (now : Instant) (dur : Duration)
    (hexpired : w.inner.isExpired id = .ok true) :
    w.reschedule now dur id = .error .unreachable := by
  obtain ⟨hused, hprev⟩ := Inner.isExpired_iff.mp hexpired
  obtain ⟨entry, hget⟩ := Inner.exists_entry hused
  rw [Inner.prevOf_entry hget] at hprev
  rw [reschedule, Inner.reschedule, Inner.getEntry_ok hget]
  simp only [bind, Except.bind, hprev.mp rfl, Inner.setNext]

end State

namespace Timer

variable {timer timer' : Timer}

/-- The entry a `Timer` owns. -/
def entry (timer : Timer) : Option Nat :=
  match timer.state with
  | .scheduled timerId => some timerId
  | _ => none

/-- `tick` has expired the entry. -/
def overdue (timer : Timer) (w : State τ) : Bool :=
  match timer.entry with
  | some timerId => (w.inner.isExpired timerId matches .ok true)
  | none => false

/-- What a `Timer` can be when its owner acts on it: not dropped, and the owner of an entry
in use. -/
structure Live (timer : Timer) (w : State τ) : Prop where
  state : timer.state ≠ .cancelled
  entry : ∀ id ∈ timer.entry, id ∈ w.timers

/-- A `Timer` keeps its entry or takes a new one. -/
structure Step (timer : Timer) (w : State τ) (timer' : Timer) (w' : State τ)
    (chain' : Chains) : Prop where
  wheel : w'.Inv chain'
  kept : ∀ id ∈ w.timers, id ∈ w'.timers
  live : timer'.Live w'
  entry : ∀ id ∈ timer'.entry, id ∈ w.timers → id ∈ timer.entry

theorem live_new (secs : Nat) (w : State τ) : (Timer.new secs).Live w := by
  unfold Timer.new
  split
  · exact ⟨nofun, nofun⟩
  · exact ⟨nofun, nofun⟩

theorem entry_new (secs : Nat) : (Timer.new secs).entry = none := by
  unfold Timer.new
  split <;> rfl

theorem overdue_iff : timer.overdue w = true ↔
    ∃ id, timer.entry = some id ∧ w.inner.isExpired id = .ok true := by
  unfold overdue
  rcases timer.entry with - | id
  · simp
  · rcases hexpired : w.inner.isExpired id with fault | expired
    · simp [hexpired]
    · cases expired <;> simp [hexpired]

theorem Live.isExpired (hlive : timer.Live w) (h : w.Inv chain) (hid : timer.entry = some id) :
    w.inner.isExpired id = .ok (timer.overdue w) := by
  obtain ⟨entry, hget⟩ := Inner.exists_entry (h.timers.mp (hlive.entry id hid))
  have hok : w.inner.isExpired id = .ok (decide (entry.prev = .nil)) :=
    bind_of_ok (Inner.getEntry_ok hget) rfl
  rw [overdue, hid]
  simp only [hok]
  by_cases hprev : entry.prev = .nil
  · simp [hprev]
  · simp [hprev]

theorem Step.refl (hlive : timer.Live w) (h : w.Inv chain) : timer.Step w timer w chain :=
  ⟨h, fun _ hid => hid, hlive, fun _ hid _ => hid⟩

theorem schedule_step (timer : Timer) (h : w.Inv chain) (hyields : w.yields = true) {now : Instant}
    {dur : Duration} {task : τ} (hallowed : w.Undisturbed (.schedule now dur task))
    (hrange : (Action.schedule now dur task).InRange) :
    ∃ id w' chain', w.schedule now dur task = .ok (id, w') ∧
      timer.Step w ⟨.scheduled id⟩ w' chain' ∧ w'.Waits id := by
  obtain ⟨id, w', chain', hok, hinv, htimers, hnew, hwaits⟩ :=
    h.schedule_ok hyields hallowed hrange
  refine ⟨id, w', chain', hok, ⟨hinv, ?_, ⟨nofun, ?_⟩, ?_⟩, hwaits⟩
  · intro j hj
    rw [htimers]
    exact List.mem_cons_of_mem id hj
  · rintro j ⟨⟩
    rw [htimers]
    exact List.mem_cons_self
  · rintro j ⟨⟩ hj
    exact absurd hj hnew

/-- The call into the wheel that a poll makes, besides asking whether a timer has expired. -/
def calls (timer : Timer) (now : Instant) (secs : Nat) (task : τ) (rearm : Bool) :
    Option (Action τ) :=
  match timer.state with
  | .unscheduled dur => some (.schedule now dur task)
  | .scheduled timerId =>
      if rearm then some (.reschedule now (fromSecs secs) timerId) else none
  | _ => none

variable {now : Instant} {secs : Nat} {task : τ}

theorem poll_ok (h : w.Inv chain) (hyields : w.yields = true) (hlive : timer.Live w)
    (hcalls : ∀ a ∈ timer.calls now secs task false, w.Undisturbed a)
    (hrange : ∀ a ∈ timer.calls now secs task false, a.InRange) :
    ∃ ready timer' w' chain', timer.poll w now task = .ok (ready, timer', w') ∧
      timer.Step w timer' w' chain' := by
  obtain ⟨state⟩ := timer
  cases state with
  | unscheduled dur =>
      obtain ⟨id, w', chain', hok, hstep, -⟩ :=
        schedule_step ⟨.unscheduled dur⟩ h hyields (hcalls _ rfl) (hrange _ rfl)
      exact ⟨_, _, w', chain', bind_of_ok hok rfl, hstep⟩
  | scheduled id =>
      exact ⟨_, _, w, chain, bind_of_ok (hlive.isExpired h rfl) rfl, .refl hlive h⟩
  | expired => exact ⟨_, _, w, chain, rfl, .refl hlive h⟩
  | cancelled => exact absurd rfl hlive.state

theorem poll_panics (w : State τ) {a : Action τ} (ha : a ∈ timer.calls now secs task false)
    (hrange : ¬ a.InRange) : timer.poll w now task = .error .panic := by
  obtain ⟨state⟩ := timer
  cases state with
  | unscheduled dur =>
      cases ha
      rw [poll]
      simp only [w.schedule_panics hrange]
      rfl
  | scheduled | expired | cancelled => cases ha

theorem reschedule_ok (h : w.Inv chain) (hyields : w.yields = true) (hlive : timer.Live w)
    (hintime : timer.overdue w = false)
    (hcalls : ∀ a ∈ timer.calls now secs task true, w.Undisturbed a)
    (hrange : ∀ a ∈ timer.calls now secs task true, a.InRange) :
    ∃ rescheduled timer' w' chain', timer.reschedule w now secs task =
        .ok (rescheduled, timer', w') ∧ timer.Step w timer' w' chain' ∧
      (rescheduled = true → ∃ id, timer'.entry = some id ∧ w'.Waits id) := by
  obtain ⟨state⟩ := timer
  cases state with
  | unscheduled dur =>
      obtain ⟨id, w', chain', hok, hstep, hwaits⟩ :=
        schedule_step ⟨.unscheduled dur⟩ h hyields (hcalls _ rfl) (hrange _ rfl)
      exact ⟨_, _, w', chain', bind_of_ok hok rfl, hstep, fun _ => ⟨id, rfl, hwaits⟩⟩
  | scheduled id =>
      have hmem := hlive.entry id rfl
      have hexpired := hlive.isExpired h rfl
      rw [hintime] at hexpired
      obtain ⟨w', chain', hok, hinv, htimers, hwaits⟩ :=
        h.reschedule_ok hyields hmem hexpired (hcalls _ rfl) (hrange _ rfl)
      refine ⟨_, _, w', chain', bind_of_ok hok rfl, ⟨hinv, ?_, ⟨nofun, ?_⟩, fun _ hj _ => hj⟩,
        fun _ => ⟨id, rfl, hwaits⟩⟩
      · intro j hj
        rwa [htimers]
      · intro j hj
        rw [htimers]
        exact hlive.entry j hj
  | expired => exact ⟨_, _, w, chain, rfl, .refl hlive h, nofun⟩
  | cancelled => exact absurd rfl hlive.state

theorem reschedule_panics (h : w.Inv chain) (hyields : w.yields = true) (hlive : timer.Live w)
    (hintime : timer.overdue w = false) {a : Action τ}
    (ha : a ∈ timer.calls now secs task true) (hundisturbed : w.Undisturbed a)
    (hrange : ¬ a.InRange) : timer.reschedule w now secs task = .error .panic := by
  obtain ⟨state⟩ := timer
  cases state with
  | unscheduled dur =>
      cases ha
      rw [reschedule]
      simp only [w.schedule_panics hrange]
      rfl
  | scheduled id =>
      cases ha
      have hexpired := hlive.isExpired h rfl
      rw [hintime] at hexpired
      rw [reschedule]
      simp only [h.reschedule_panics hyields hexpired hundisturbed hrange]
      rfl
  | expired | cancelled => cases ha

theorem drop_ok (h : w.Inv chain) (hyields : w.yields = true) (hlive : timer.Live w)
    (hdrop : ∀ id ∈ timer.entry, w.Undisturbed (.drop id)) :
    ∃ timer' w' chain', timer.drop w = .ok (timer', w') ∧ w'.Inv chain' ∧
      ∀ id ∈ w.timers, timer.entry ≠ some id → id ∈ w'.timers := by
  obtain ⟨state⟩ := timer
  cases state with
  | scheduled id =>
      obtain ⟨w', chain', hok, hinv, htimers⟩ :=
        h.cancel_ok hyields (hlive.entry id rfl) (hdrop id rfl)
      refine ⟨_, w', chain', bind_of_ok hok rfl, hinv, ?_⟩
      intro j hj hne
      rw [htimers]
      refine (List.mem_erase_of_ne ?_).mpr hj
      rintro rfl
      exact hne rfl
  | unscheduled dur => exact ⟨_, w, chain, rfl, h, fun _ hid _ => hid⟩
  | expired => exact ⟨_, w, chain, rfl, h, fun _ hid _ => hid⟩
  | cancelled => exact absurd rfl hlive.state

theorem reschedule_overdue (hlate : timer.overdue w = true) :
    timer.reschedule w now secs task = .error .unreachable := by
  obtain ⟨state⟩ := timer
  obtain ⟨id, hid, hexpired⟩ := overdue_iff.mp hlate
  cases state with
  | scheduled id' =>
      cases hid
      rw [reschedule]
      simp only [State.reschedule_expired now (fromSecs secs) hexpired]
      rfl
  | unscheduled dur => cases hid
  | expired => cases hid
  | cancelled => cases hid

end Timer

/-- The poll of the stream inside has found an item. -/
def foundItem : Except ε (Async (Option ι)) → Bool
  | .ok (.ready (some _)) => true
  | _ => false

namespace TimeoutStream

variable {ts : TimeoutStream σ} {now : Instant} {task : τ}

def calls (ts : TimeoutStream σ) (now : Instant) (task : τ) :
    Except ε (Async (Option ι)) → Option (Action τ)
  | .ok .notReady => ts.timer.calls now ts.secs task false
  | .ok (.ready (some _)) => ts.timer.calls now ts.secs task true
  | _ => none

theorem poll_ok (h : w.Inv chain) (hyields : w.yields = true) (hlive : ts.timer.Live w)
    (hstream : ts.stream ≠ none) {polled : Except ε (Async (Option ι)) × σ}
    (hintime : foundItem polled.1 = true → ts.timer.overdue w = false)
    (hcalls : ∀ a ∈ ts.calls now task polled.1, w.Undisturbed a)
    (hrange : ∀ a ∈ ts.calls now task polled.1, a.InRange) :
    ∃ result ts' w' chain', ts.poll w now task polled = .ok (result, ts', w') ∧
      ts.timer.Step w ts'.timer w' chain' := by
  obtain ⟨stream, secs, timer⟩ := ts
  obtain ⟨outcome, inside⟩ := polled
  rcases stream with - | stream
  · exact absurd rfl hstream
  · rcases outcome with error | ⟨- | item⟩ | -
    · exact ⟨_, _, w, chain, rfl, .refl hlive h⟩
    · exact ⟨_, _, w, chain, rfl, .refl hlive h⟩
    · obtain ⟨rescheduled, timer', w', chain', hok, hstep, -⟩ :=
        Timer.reschedule_ok h hyields hlive (hintime rfl) hcalls hrange
      rcases rescheduled with - | -
      · exact ⟨_, _, w', chain', bind_of_ok hok rfl, hstep⟩
      · exact ⟨_, _, w', chain', bind_of_ok hok rfl, hstep⟩
    · obtain ⟨ready, timer', w', chain', hok, hstep⟩ :=
        Timer.poll_ok h hyields hlive hcalls hrange
      cases ready with
      | ready _ => exact ⟨_, _, w', chain', bind_of_ok hok rfl, hstep⟩
      | notReady => exact ⟨_, _, w', chain', bind_of_ok hok rfl, hstep⟩

theorem poll_panics (h : w.Inv chain) (hyields : w.yields = true) (hlive : ts.timer.Live w)
    {polled : Except ε (Async (Option ι)) × σ}
    (hintime : foundItem polled.1 = true → ts.timer.overdue w = false) {a : Action τ}
    (ha : a ∈ ts.calls now task polled.1) (hundisturbed : w.Undisturbed a)
    (hrange : ¬ a.InRange) : ts.poll w now task polled = .error .panic := by
  obtain ⟨stream, secs, timer⟩ := ts
  obtain ⟨outcome, inside⟩ := polled
  rcases stream with - | stream
  · rfl
  · rcases outcome with error | ⟨- | item⟩ | -
    · cases ha
    · cases ha
    · have hpanics : timer.reschedule w now secs task = .error .panic :=
        Timer.reschedule_panics h hyields hlive (hintime rfl) ha hundisturbed hrange
      simp only [poll, hpanics]
      rfl
    · have hpanics : timer.poll w now task = .error .panic := Timer.poll_panics w ha hrange
      simp only [poll, hpanics]
      rfl

end TimeoutStream

theorem Effect.used {s s' : State τ} {e : Event τ} (h : Effect s chain e s' chain')
    (hused : (s.inner.dataOf id).isSome) (hne : e ≠ .cancelled id) :
    (s'.inner.dataOf id).isSome := by
  by_cases hsubject : e.subject = some id
  · cases e with
    | scheduled id' task =>
        cases hsubject
        obtain ⟨-, exp, hnew⟩ := h.tells
        rw [hnew]
        rfl
    | rescheduled id' =>
        cases hsubject
        obtain ⟨task, old, exp, -, hnew⟩ := h.tells
        rw [hnew]
        rfl
    | cancelled id' =>
        cases hsubject
        exact absurd rfl hne
    | ran id' task =>
        cases hsubject
        rw [h.tells.2.2.2]
        rfl
    | skipped id' =>
        cases hsubject
        obtain ⟨-, -, -, task, old, -, hnew⟩ := h.tells
        rw [hnew]
        rfl
    | requeued id' now =>
        cases hsubject
        obtain ⟨-, -, task, exp, exp', -, -, hnew⟩ := h.tells
        rw [hnew]
        rfl
    | ticked => cases hsubject
    | returned exit => cases hsubject
  · rwa [h.data hsubject]

namespace System

variable {s t : System τ σ} {i : Nat} {a : SystemAction τ σ ε ι}

/-- An item is found before `tick` has expired the timer, and `tick` is not disturbed. -/
def Safe (s : System τ σ) : SystemAction τ σ ε ι → Prop
  | .timeout _ _ _ => True
  | .poll i now task polled => ∀ ts ∈ s.streams i,
      (foundItem polled.1 = true → ts.timer.overdue s.wheel = false) ∧
        ∀ a ∈ ts.calls now task polled.1, s.wheel.Undisturbed a
  | .drop i => ∀ ts ∈ s.streams i, ∀ id ∈ ts.timer.entry, s.wheel.Undisturbed (.drop id)
  | .wheel a => s.wheel.Allowed a

instance (s : System τ σ) : ∀ a : SystemAction τ σ ε ι, Decidable (s.Safe a)
  | .timeout _ _ _ => isTrue trivial
  | .poll i now task polled => inferInstanceAs (Decidable (∀ ts ∈ s.streams i,
      (foundItem polled.1 = true → ts.timer.overdue s.wheel = false) ∧
        ∀ a ∈ ts.calls now task polled.1, s.wheel.Undisturbed a))
  | .drop i => inferInstanceAs (Decidable (∀ ts ∈ s.streams i, ∀ id ∈ ts.timer.entry,
      s.wheel.Undisturbed (.drop id)))
  | .wheel a => inferInstanceAs (Decidable (s.wheel.Allowed a))

/-- A stream that has failed or ended is polled again. -/
def Completed (s : System τ σ) : SystemAction τ σ ε ι → Prop
  | .poll i _ _ _ => ∃ ts, s.streams i = some ts ∧ ts.stream = none
  | _ => False

/-- The deadline of the call that a step makes is no instant. -/
def Overflows (s : System τ σ) : SystemAction τ σ ε ι → Prop
  | .poll i now task polled =>
      ∃ ts, s.streams i = some ts ∧ ∃ a ∈ ts.calls now task polled.1, ¬ a.InRange
  | .wheel a => ¬ a.InRange
  | _ => False

/-- Every `Timer` owns its entry alone. -/
structure Inv (s : System τ σ) (chain : Chains) : Prop where
  wheel : s.wheel.Inv chain
  live : ∀ {i ts}, s.streams i = some ts → ts.timer.Live s.wheel
  others : ∀ id ∈ s.others, id ∈ s.wheel.timers
  owned : ∀ {i ts id}, s.streams i = some ts → ts.timer.entry = some id → id ∉ s.others
  apart : ∀ {i j ts ts' id}, s.streams i = some ts → s.streams j = some ts' →
    ts.timer.entry = some id → ts'.timer.entry = some id → i = j

theorem inv_init : Inv (init : System τ σ) fun _ => [] :=
  ⟨State.inv_init, nofun, nofun, nofun, nofun⟩

theorem Inv.set (h : s.Inv chain) {new : Option (TimeoutStream σ)} (hw : w.Inv chain')
    (hkept : ∀ id ∈ s.wheel.timers,
      (∀ ts, s.streams i = some ts → ts.timer.entry ≠ some id) → id ∈ w.timers)
    (hlive : ∀ ts, new = some ts → ts.timer.Live w)
    (hentry : ∀ ts id, new = some ts → ts.timer.entry = some id → id ∈ s.wheel.timers →
      ∃ old, s.streams i = some old ∧ old.timer.entry = some id) :
    (s.set w i new).Inv chain' := by
  have hothers : ∀ {ts id}, new = some ts → ts.timer.entry = some id → id ∉ s.others := by
    intro ts id hnew hid hmem
    obtain ⟨old, hold, hold'⟩ := hentry ts id hnew hid (h.others id hmem)
    exact h.owned hold hold' hmem
  have hunique : ∀ {j ts ts' id}, j ≠ i → new = some ts → s.streams j = some ts' →
      ts.timer.entry = some id → ts'.timer.entry ≠ some id := by
    intro j ts ts' id hj hnew hts' hid hid'
    obtain ⟨old, hold, hold'⟩ := hentry ts id hnew hid ((h.live hts').entry id hid')
    exact hj (h.apart hts' hold hid' hold')
  have hget : ∀ {j ts}, (s.set w i new).streams j = some ts →
      j = i ∧ new = some ts ∨ j ≠ i ∧ s.streams j = some ts := by
    intro j ts hts
    have hupdate : Function.update s.streams i new j = some ts := hts
    by_cases hj : j = i
    · subst hj
      rw [Function.update_self] at hupdate
      exact Or.inl ⟨rfl, hupdate⟩
    · rw [Function.update_of_ne hj] at hupdate
      exact Or.inr ⟨hj, hupdate⟩
  refine ⟨hw, ?_, ?_, ?_, ?_⟩
  · intro j ts hts
    rcases hget hts with ⟨-, hnew⟩ | ⟨hj, hkeep⟩
    · exact hlive ts hnew
    · refine ⟨(h.live hkeep).state, ?_⟩
      intro id hid
      apply hkept id ((h.live hkeep).entry id hid)
      intro old hold hold'
      exact hj (h.apart hkeep hold hid hold')
  · intro id hmem
    exact hkept id (h.others id hmem) fun ts hts hid => h.owned hts hid hmem
  · intro j ts id hts hid
    rcases hget hts with ⟨-, hnew⟩ | ⟨-, hkeep⟩
    · exact hothers hnew hid
    · exact h.owned hkeep hid
  · intro j k ts ts' id hts hts' hid hid'
    rcases hget hts with ⟨hj, hnew⟩ | ⟨hj, hkeep⟩
    · rcases hget hts' with ⟨hk, -⟩ | ⟨hk, hkeep'⟩
      · exact hj.trans hk.symm
      · exact absurd hid' (hunique hk hnew hkeep' hid)
    · rcases hget hts' with ⟨-, hnew'⟩ | ⟨-, hkeep'⟩
      · exact absurd hid (hunique hj hnew' hkeep hid')
      · exact h.apart hkeep hkeep' hid hid'

theorem target_of_cancelled {a : Action τ} (h : a.Shows (.cancelled id)) :
    a.target = some id := by
  cases a with
  | drop id' => exact congrArg some h
  | schedule | reschedule | tick | visit | finish => exact h.elim

theorem Inv.of_wheel (h : s.Inv chain) {e : Event τ} (hinv : w.Inv chain')
    (heffect : Effect s.wheel chain e w chain')
    (hothers : ∀ id, e = .cancelled id → id ∈ s.others) :
    Inv { s with wheel := w, others := e.held s.others } chain' := by
  have hused : ∀ id ∈ s.wheel.timers, e ≠ .cancelled id → id ∈ w.timers := by
    intro id hid hne
    exact hinv.timers.mpr (heffect.used (h.wheel.timers.mp hid) hne)
  have hheld : ∀ id ∈ e.held s.others,
      (id ∈ s.others ∧ e ≠ .cancelled id) ∨ ∃ task, e = .scheduled id task := by
    intro id hid
    cases e with
    | scheduled id' task =>
        rcases List.mem_cons.mp hid with rfl | hid
        · exact Or.inr ⟨task, rfl⟩
        · exact Or.inl ⟨hid, nofun⟩
    | cancelled id' =>
        obtain ⟨hid, hne⟩ := List.mem_filter.mp hid
        refine Or.inl ⟨hid, ?_⟩
        rintro ⟨⟩
        simp at hne
    | rescheduled | ticked | ran | skipped | requeued | returned => exact Or.inl ⟨hid, nofun⟩
  refine ⟨hinv, ?_, ?_, ?_, h.apart⟩
  · intro i ts hts
    refine ⟨(h.live hts).state, ?_⟩
    intro id hid
    refine hused id ((h.live hts).entry id hid) ?_
    intro hcancelled
    exact h.owned hts hid (hothers id hcancelled)
  · intro id hid
    rcases hheld id hid with ⟨hid, hne⟩ | ⟨task, rfl⟩
    · exact hused id (h.others id hid) hne
    · obtain ⟨-, exp, hnew⟩ := heffect.tells
      rw [hinv.timers, hnew]
      rfl
  · intro i ts id hts hid hmem
    rcases hheld id hmem with ⟨hmem, -⟩ | ⟨task, rfl⟩
    · exact h.owned hts hid hmem
    · have hold := h.wheel.timers.mp ((h.live hts).entry id hid)
      rw [heffect.tells.1] at hold
      exact Bool.false_ne_true hold

/-- The step lemma: a safe step keeps every `Timer` with its entry, and fails only where a
completed stream is polled or where a deadline is no instant. -/
theorem Inv.step_ok (h : s.Inv chain) {r : Except Fault (SystemEvent τ σ ε ι × System τ σ)}
    (hsafe : s.Safe a) (hstep : s.step a = some r) :
    r = .error .panic ∧ (s.Completed a ∨ s.Overflows a) ∨
      ∃ e t chain', r = .ok (e, t) ∧ t.Inv chain' := by
  cases a with
  | timeout i stream secs =>
      obtain ⟨⟨hyields, hnone⟩, heq⟩ := Option.ite_none_right_eq_some.mp hstep
      refine Or.inr ⟨_, _, chain, (Option.some.inj heq).symm, h.set h.wheel (fun _ hid _ => hid)
        ?_ ?_⟩
      · rintro ts ⟨⟩
        exact Timer.live_new secs _
      · rintro ts id ⟨⟩ hid
        exact nomatch (Timer.entry_new secs).symm.trans hid
  | poll i now task polled =>
      obtain ⟨hyields, heq⟩ := Option.ite_none_right_eq_some.mp hstep
      obtain ⟨ts, hts, rfl⟩ := Option.map_eq_some_iff.mp heq
      obtain ⟨hintime, hcalls⟩ := hsafe ts hts
      rcases hstream : ts.stream with - | stream
      · left
        refine ⟨?_, .inl ⟨ts, hts, hstream⟩⟩
        simp only [TimeoutStream.poll, hstream]
        rfl
      · by_cases hover : ∃ a ∈ ts.calls now task polled.1, ¬ a.InRange
        · left
          obtain ⟨a, ha, hrange⟩ := hover
          refine ⟨?_, .inr ⟨ts, hts, a, ha, hrange⟩⟩
          rw [ts.poll_panics h.wheel hyields (h.live hts) hintime ha (hcalls a ha) hrange]
          rfl
        right
        obtain ⟨result, ts', w', chain', hok, hwheel⟩ :=
          ts.poll_ok h.wheel hyields (h.live hts) (by simp [hstream]) hintime hcalls
            fun a ha => not_not.mp fun hrange => hover ⟨a, ha, hrange⟩
        refine ⟨_, _, chain', bind_of_ok hok rfl, h.set hwheel.wheel (fun id hid _ =>
          hwheel.kept id hid) ?_ ?_⟩
        · rintro ts'' ⟨⟩
          exact hwheel.live
        · rintro ts'' id ⟨⟩ hid hmem
          exact ⟨ts, hts, hwheel.entry id hid hmem⟩
  | drop i =>
      right
      obtain ⟨hyields, heq⟩ := Option.ite_none_right_eq_some.mp hstep
      obtain ⟨ts, hts, rfl⟩ := Option.map_eq_some_iff.mp heq
      obtain ⟨timer', w', chain', hok, hinv, hkept⟩ :=
        Timer.drop_ok h.wheel hyields (h.live hts) (hsafe ts hts)
      refine ⟨_, _, chain', bind_of_ok hok rfl, h.set hinv ?_ nofun nofun⟩
      intro id hid hne
      exact hkept id hid (hne ts hts)
  | wheel a =>
      obtain ⟨htarget, heq⟩ := Option.ite_none_right_eq_some.mp hstep
      obtain ⟨r, hr, rfl⟩ := Option.map_eq_some_iff.mp heq
      by_cases hrange : a.InRange
      · right
        obtain ⟨e, w', chain', rfl, hshows, hinv, heffect⟩ := h.wheel.step_ok hsafe hrange hr
        exact ⟨_, _, chain', rfl, h.of_wheel hinv heffect fun id hid =>
          htarget id (target_of_cancelled (hid ▸ hshows))⟩
      · left
        rw [h.wheel.step_panics hsafe hrange hr]
        exact ⟨rfl, .inr hrange⟩

theorem exists_inv {log : List (SystemEvent τ σ ε ι)}
    (h : (system τ σ ε ι).Run Safe init log s) : ∃ chain, s.Inv chain := by
  refine Machine.Run.invariant (I := fun _ s => ∃ chain, s.Inv chain) ⟨_, inv_init⟩ ?_ h
  rintro log t a e u ⟨chain, hinv⟩ hsafe hstep
  rcases hinv.step_ok hsafe hstep with ⟨hpanic, -⟩ | ⟨e', u', chain', hok, hinv'⟩
  · cases hpanic
  · cases hok
    exact ⟨chain', hinv'⟩

/-- Re-arming a timeout is safe as long as an item is found before `tick` has expired the
timer: nothing fails but the poll of a completed stream and a call whose deadline is no
instant, and a `reschedule` that returns `true` leaves the timer's entry linked and not
expired.  A timer that `tick` has expired still takes itself for scheduled, and its
`reschedule` reaches `unreachable`. -/
theorem rearming_is_safe {log : List (SystemEvent τ σ ε ι)}
    (h : (system τ σ ε ι).Run Safe init log s) :
    (∀ (a : SystemAction τ σ ε ι) f, s.Safe a → s.step a = some (.error f) →
      f = .panic ∧ (s.Completed a ∨ s.Overflows a)) ∧
    ∀ i ts, s.streams i = some ts → s.wheel.yields → ∀ (now : Instant) (task : τ),
      (ts.timer.overdue s.wheel = true →
        ts.timer.reschedule s.wheel now ts.secs task = .error .unreachable) ∧
      (ts.timer.overdue s.wheel = false →
        (∀ a ∈ ts.timer.calls now ts.secs task true, s.wheel.Undisturbed a) →
        ts.timer.reschedule s.wheel now ts.secs task = .error .panic ∧
            (∃ a ∈ ts.timer.calls now ts.secs task true, ¬ a.InRange) ∨
          ∃ rescheduled timer' w', ts.timer.reschedule s.wheel now ts.secs task =
              .ok (rescheduled, timer', w') ∧
            (rescheduled = true → ∃ id, timer'.entry = some id ∧ w'.Waits id)) := by
  obtain ⟨chain, hinv⟩ := exists_inv h
  constructor
  · intro a f hsafe hstep
    rcases hinv.step_ok hsafe hstep with ⟨hpanic, hdone⟩ | ⟨e, t, chain', hok, -⟩
    · cases hpanic
      exact ⟨rfl, hdone⟩
    · cases hok
  · intro i ts hts hyields now task
    refine ⟨Timer.reschedule_overdue, ?_⟩
    intro hintime hcalls
    by_cases hover : ∃ a ∈ ts.timer.calls now ts.secs task true, ¬ a.InRange
    · obtain ⟨a, ha, hrange⟩ := hover
      exact .inl ⟨Timer.reschedule_panics hinv.wheel hyields (hinv.live hts) hintime ha
        (hcalls a ha) hrange, a, ha, hrange⟩
    · obtain ⟨rescheduled, timer', w', chain', hok, -, hwaits⟩ :=
        Timer.reschedule_ok hinv.wheel hyields (hinv.live hts) hintime hcalls
          fun a ha => not_not.mp fun hrange => hover ⟨a, ha, hrange⟩
      exact .inr ⟨rescheduled, timer', w', hok, hwaits⟩

theorem rearming_is_safe_of_one :
    ∃ (log : List (SystemEvent Unit Unit Unit Nat)) (s : System Unit Unit),
      (system Unit Unit Unit Nat).Run Safe init log s ∧
        ∃ ts rescheduled timer' w', s.streams 0 = some ts ∧
          ts.timer.reschedule s.wheel 2 ts.secs () = .ok (rescheduled, timer', w') ∧
          rescheduled = true ∧ ∃ id, timer'.entry = some id ∧ w'.Waits id := by
  have hall : ∀ {log : List (SystemEvent Unit Unit Unit Nat)} {s : System Unit Unit}
      {ts : TimeoutStream Unit} {timer' : Timer} {w' : State Unit},
      (system Unit Unit Unit Nat).exec Safe [.timeout 0 () 2, .poll 0 0 () (.ok .notReady, ()),
        .wheel .tick, .poll 0 1 () (.ok (.ready (some 7)), ())] init = some (log, s) →
      s.streams 0 = some ts → s.wheel.yields → ts.timer.overdue s.wheel = false →
      (∀ a ∈ ts.timer.calls 2 ts.secs () true, s.wheel.Undisturbed a) →
      ts.timer.reschedule s.wheel 2 ts.secs () = .ok (true, timer', w') →
      (system Unit Unit Unit Nat).Run Safe init log s ∧
        ∃ id, timer'.entry = some id ∧ w'.Waits id := by
    intro log s ts timer' w' hexec hts hyields hintime hcalls hok
    have hrun := Machine.Run.of_exec _ hexec
    obtain ⟨hpanic, -⟩ | ⟨rescheduled, timer'', w'', hok', hwaits⟩ :=
      ((rearming_is_safe hrun).2 0 ts hts hyields 2 ()).2 hintime hcalls
    · cases hok.symm.trans hpanic
    obtain ⟨rfl, heq⟩ := Prod.mk.inj (Except.ok.inj (hok.symm.trans hok'))
    obtain ⟨rfl, rfl⟩ := Prod.mk.inj heq
    exact ⟨hrun, hwaits rfl⟩
  obtain ⟨hrun, hwaits⟩ := hall rfl rfl rfl rfl (by decide) rfl
  exact ⟨_, _, hrun, _, _, _, _, rfl, rfl, rfl, hwaits⟩

/-- The item comes in the very poll that `tick` has caused by expiring the timer. -/
theorem expired_timer_rearmed :
    ∃ (log : List (SystemEvent Unit Unit Unit Nat)) (s : System Unit Unit),
      (system Unit Unit Unit Nat).Run (fun _ _ => True) init log s ∧
        s.step (.poll 0 1 ()
            ((.ok (.ready (some 7)), ()) : Except Unit (Async (Option Nat)) × Unit)) =
          some (.error .unreachable) :=
  ⟨_, _, Machine.Run.of_exec [.timeout 0 () 1, .poll 0 0 () (.ok .notReady, ()), .wheel .tick,
    .wheel (.visit 1)] rfl, rfl⟩

end System

end Ruyi.Reactor.Wheel
