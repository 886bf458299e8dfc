import Ruyi.Reactor.WheelHistory

namespace Ruyi.Reactor.Wheel

open Ruyi.Base

variable {τ σ ε ι : Type}

structure TimeoutFuture (σ : Type) where
  future : Option σ
  timer : Timer

namespace TimeoutFuture

def new (future : σ) (secs : Nat) : TimeoutFuture σ := ⟨some future, Timer.new secs⟩

/-- `polled` is what the poll of the future inside gives, with the future after it. -/
def poll (tf : TimeoutFuture σ) (s : State τ) (now : Instant) (task : τ)
    (polled : Except ε (Async ι) × σ) :
    Except Fault (Except (TimeoutError σ ε) (Async ι) × TimeoutFuture σ × State τ) :=
  match tf.future with
  | none => .error .panic
  | some _ =>
      match polled.1 with
      | .ok .notReady => do
          let (ready, timer, s) ← tf.timer.poll s now task
          match ready with
          | .notReady => .ok (.ok .notReady, ⟨some polled.2, timer⟩, s)
          | .ready () => .ok (.error (.timedOut polled.2), ⟨none, timer⟩, s)
      | .ok (.ready v) => .ok (.ok (.ready v), ⟨some polled.2, tf.timer⟩, s)
      | .error e => .ok (.error (.other e), ⟨some polled.2, tf.timer⟩, s)

end TimeoutFuture

/-- The values that own a `Timer` of the wheel. -/
inductive Timed (σ : Type) where
  | sleep (timer : Timer)
  | future (tf : TimeoutFuture σ)
  | stream (ts : TimeoutStream σ)

/-- What the poll of the future or the stream inside gives, with what is inside after it. -/
inductive Inside (σ ε ι : Type) where
  | nothing
  | future (polled : Except ε (Async ι) × σ)
  | stream (polled : Except ε (Async (Option ι)) × σ)

inductive Answer (σ ε ι : Type) where
  | sleep (answer : Async Unit)
  | future (answer : Except (TimeoutError σ ε) (Async ι))
  | stream (answer : Except (TimeoutError σ ε) (Async (Option ι)))

namespace Timed

def timer : Timed σ → Timer
  | .sleep timer => timer
  | .future tf => tf.timer
  | .stream ts => ts.timer

/-- `sleep`, or `timeout` on a future or a stream. -/
def ofKind (secs : Nat) : Option (σ ⊕ σ) → Timed σ
  | none => .sleep (.new secs)
  | some (.inl inner) => .future (.new inner secs)
  | some (.inr inner) => .stream (.new inner secs)

/-- A poll, by the loop's current task. -/
def poll (v : Timed σ) (w : State τ) (now : Instant) (task : τ) (inside : Inside σ ε ι) :
    Option (Except Fault (Answer σ ε ι × Timed σ × State τ)) :=
  match v, inside with
  | .sleep timer, .nothing => some do
      let (answer, timer, w) ← timer.poll w now task
      .ok (.sleep answer, .sleep timer, w)
  | .future tf, .future polled => some do
      let (answer, tf, w) ← tf.poll w now task polled
      .ok (.future answer, .future tf, w)
  | .stream ts, .stream polled => some do
      let (answer, ts, w) ← ts.poll w now task polled
      .ok (.stream answer, .stream ts, w)
  | _, _ => none

end Timed

/-- The poll of a stream re-arms its timer. -/
def Inside.rearms : Inside σ ε ι → Bool
  | .stream polled => foundItem polled.1
  | _ => false

/-- What a poll has done to the wheel, by the `Timer` before it and after it. -/
def Timer.told (before after : Timer) (task : τ) (rearm : Bool) : Option (Event τ) :=
  match before.state, after.state with
  | .unscheduled _, .scheduled timerId => some (.scheduled timerId task)
  | .scheduled timerId, .scheduled _ => if rearm then some (.rescheduled timerId) else none
  | _, _ => none

/-- The entry that a call has scheduled. -/
def Event.arms : Event τ → Option Nat
  | .scheduled timerId _ => some timerId
  | _ => none

namespace Timer

variable {timer timer' : Timer} {w w' : State τ} {chain : Chains} {events : List (Event τ)}
  {told : Option (Event τ)} {now : Instant} {secs : Nat} {task : τ}

/-- A `Timer` that is polled or re-armed: it leaves the wheel as it is, takes a new entry, or
keeps its own. -/
inductive Acts (timer : Timer) (w : State τ) : Timer → State τ → Option (Event τ) → Prop
  | rests : Acts timer w timer w none
  | schedules {a : Action τ} {id : Nat} {task : τ} {w' : State τ} (was : timer.entry = none)
      (state : timer.state ≠ .expired) (allowed : w.Allowed a)
      (step : w.step a = some (.ok (.scheduled id task, w'))) :
      Acts timer w ⟨.scheduled id⟩ w' (some (.scheduled id task))
  | rearms {a : Action τ} {id : Nat} {w' : State τ} (was : timer.entry = some id)
      (allowed : w.Allowed a) (step : w.step a = some (.ok (.rescheduled id, w'))) :
      Acts timer w timer w' (some (.rescheduled id))

/-- What a `Timer` and the wheel are after it has acted. -/
structure Acted (timer : Timer) (w : State τ) (events : List (Event τ)) (timer' : Timer)
    (w' : State τ) (told : Option (Event τ)) (chain' : Chains) : Prop where
  wheel : w'.Told chain' (events ++ told.toList)
  kept : ∀ id ∈ w.timers, id ∈ w'.timers
  owner : ∀ id ∈ w'.timers, id ∈ w.timers ∨ timer'.entry = some id
  live : timer'.Live w'
  entry : timer'.entry = timer.entry.or (told.bind Event.arms)
  new : ∀ id, timer'.entry = some id → timer.entry = some id ∨ id ∉ w.timers
  state : timer'.state = .expired ↔ timer.state = .expired

theorem Acts.acted (hacts : timer.Acts w timer' w' told) (h : w.Told chain events)
    (hlive : timer.Live w) : ∃ chain', timer.Acted w events timer' w' told chain' := by
  cases hacts with
  | rests =>
      refine ⟨chain, ?_, fun _ hid => hid, fun _ hid => .inl hid, hlive, ?_,
        fun _ hid => .inl hid, Iff.rfl⟩
      · rwa [Option.toList_none, List.append_nil]
      · exact (Option.or_none).symm
  | @schedules a id task _ was state allowed step =>
      obtain ⟨e, w'', chain', hok, hshows, htold, htimers⟩ :=
        h.step allowed (State.inRange_of_step step) step
      cases hok
      obtain ⟨_, _, _, hok', -, -, heffect, -⟩ :=
        h.inv.step_spec allowed (State.inRange_of_step step) step
      cases hok'
      have hnew : id ∉ w.timers := by
        rw [h.inv.timers, heffect.tells.1]
        exact Bool.false_ne_true
      have hmem : id ∈ w'.timers := (htimers id).mpr (.inr ⟨task, rfl⟩)
      refine ⟨chain', htold, ?_, ?_, ⟨nofun, ?_⟩, ?_, ?_, ?_⟩
      · exact fun j hj => (htimers j).mpr (.inl ⟨hj, nofun⟩)
      · intro j hj
        rcases (htimers j).mp hj with ⟨hj, -⟩ | ⟨task', heq⟩
        · exact .inl hj
        · cases heq
          exact .inr rfl
      · rintro j ⟨⟩
        exact hmem
      · rw [was]
        rfl
      · rintro j ⟨⟩
        exact .inr hnew
      · exact ⟨nofun, fun hexpired => absurd hexpired state⟩
  | @rearms a id _ was allowed step =>
      obtain ⟨e, w'', chain', hok, hshows, htold, htimers⟩ :=
        h.step allowed (State.inRange_of_step step) step
      cases hok
      have hsame : ∀ j, j ∈ w'.timers ↔ j ∈ w.timers := by
        intro j
        rw [htimers]
        constructor
        · rintro (⟨hj, -⟩ | ⟨task, heq⟩)
          · exact hj
          · cases heq
        · exact fun hj => .inl ⟨hj, nofun⟩
      refine ⟨chain', htold, fun j hj => (hsame j).mpr hj, fun j hj => .inl ((hsame j).mp hj),
        ⟨hlive.state, fun j hj => (hsame j).mpr (hlive.entry j hj)⟩, ?_, fun j hj => .inl hj,
        Iff.rfl⟩
      exact (Option.or_none).symm

theorem schedule_acts (h : w.Inv chain) (hyields : w.yields = true) {dur : Duration}
    (hallowed : w.Undisturbed (.schedule now dur task))
    (hrange : (Action.schedule now dur task).InRange) :
    ∃ id w', w.schedule now dur task = .ok (id, w') ∧
      Acts ⟨.unscheduled dur⟩ w ⟨.scheduled id⟩ w' (some (.scheduled id task)) := by
  obtain ⟨id, w', chain', hok, -⟩ := h.schedule_ok hyields hallowed hrange
  refine ⟨id, w', hok, .schedules (a := .schedule now dur task) rfl nofun hallowed ?_⟩
  exact State.step_schedule hyields hok

theorem poll_acts (h : w.Inv chain) (hyields : w.yields = true) (hlive : timer.Live w)
    (hcalls : ∀ a ∈ timer.calls now secs task false, w.Undisturbed a)
    (hrange : ∀ a ∈ timer.calls now secs task false, a.InRange) :
    ∃ ready timer' w', timer.poll w now task = .ok (ready, timer', w') ∧
      timer.Acts w timer' w' (timer.told timer' task false) ∧
      (ready = .ready () ↔ timer.state = .expired ∨ timer.overdue w = true) := by
  obtain ⟨state⟩ := timer
  cases state with
  | unscheduled dur =>
      obtain ⟨id, w', hok, hacts⟩ := schedule_acts h hyields (hcalls _ rfl) (hrange _ rfl)
      exact ⟨_, _, w', bind_of_ok hok rfl, hacts, nofun, by rintro (⟨⟨⟩⟩ | ⟨⟨⟩⟩)⟩
  | scheduled id =>
      have hexpired := hlive.isExpired h rfl
      refine ⟨_, _, w, bind_of_ok hexpired rfl, .rests, ?_⟩
      cases hoverdue : Timer.overdue ⟨.scheduled id⟩ w with
      | true => exact ⟨fun _ => .inr rfl, fun _ => rfl⟩
      | false => exact ⟨nofun, by rintro (⟨⟨⟩⟩ | ⟨⟨⟩⟩)⟩
  | expired => exact ⟨_, _, w, rfl, .rests, fun _ => .inl rfl, fun _ => rfl⟩
  | cancelled => exact absurd rfl hlive.state

theorem reschedule_acts (h : w.Inv chain) (hyields : w.yields = true) (hlive : timer.Live w)
    (hintime : timer.overdue w = false)
    (hcalls : ∀ a ∈ timer.calls now secs task true, w.Undisturbed a)
    (hrange : ∀ a ∈ timer.calls now secs task true, a.InRange) :
    ∃ rescheduled timer' w', timer.reschedule w now secs task = .ok (rescheduled, timer', w') ∧
      timer.Acts w timer' w' (timer.told timer' task true) ∧
      (rescheduled = false ↔ timer.state = .expired) := by
  obtain ⟨state⟩ := timer
  cases state with
  | unscheduled dur =>
      obtain ⟨id, w', hok, hacts⟩ := schedule_acts h hyields (hcalls _ rfl) (hrange _ rfl)
      exact ⟨_, _, w', bind_of_ok hok rfl, hacts, nofun, nofun⟩
  | scheduled id =>
      have hmem := hlive.entry id rfl
      have hexpired := hlive.isExpired h rfl
      rw [hintime] at hexpired
      have hundisturbed := hcalls _ rfl
      obtain ⟨w', -, hok, -⟩ := h.reschedule_ok hyields hmem hexpired hundisturbed (hrange _ rfl)
      obtain ⟨i, hi⟩ := h.ring.exists_mem hexpired
      have hallowed : w.Allowed (.reschedule now (fromSecs secs) id) :=
        ⟨h.ring.queued hi, hundisturbed⟩
      refine ⟨_, _, w', bind_of_ok hok rfl, .rearms rfl hallowed ?_, nofun, nofun⟩
      exact State.step_reschedule hyields hmem hok
  | expired => exact ⟨_, _, w, rfl, .rests, fun _ => rfl, fun _ => rfl⟩
  | cancelled => exact absurd rfl hlive.state

theorem drop_acts (h : w.Told chain events) (hyields : w.yields = true) (hlive : timer.Live w)
    (hdrop : ∀ id ∈ timer.entry, w.Undisturbed (.drop id)) :
    ∃ timer' w' chain', timer.drop w = .ok (timer', w') ∧
      w'.Told chain' (events ++ (timer.entry.map Event.cancelled).toList) ∧
      ∀ id, id ∈ w'.timers ↔ id ∈ w.timers ∧ timer.entry ≠ some id := by
  obtain ⟨state⟩ := timer
  cases state with
  | scheduled id =>
      have hmem := hlive.entry id rfl
      obtain ⟨w', -, hok, -⟩ := h.inv.cancel_ok hyields hmem (hdrop id rfl)
      obtain ⟨e, w'', chain', heq, -, htold, htimers⟩ :=
        h.step (a := .drop id) (hdrop id rfl) trivial (State.step_drop hyields hmem hok)
      cases heq
      refine ⟨_, w', chain', bind_of_ok hok rfl, htold, fun j => (htimers j).trans ?_⟩
      constructor
      · rintro (⟨hj, hne⟩ | ⟨task, heq⟩)
        · refine ⟨hj, ?_⟩
          rintro ⟨⟩
          exact hne rfl
        · cases heq
      · rintro ⟨hj, hne⟩
        refine .inl ⟨hj, ?_⟩
        rintro ⟨⟩
        exact hne rfl
  | unscheduled dur =>
      refine ⟨_, w, chain, rfl, ?_, fun j => ⟨fun hj => ⟨hj, nofun⟩, And.left⟩⟩
      exact (List.append_nil events).symm ▸ h
  | expired =>
      refine ⟨_, w, chain, rfl, ?_, fun j => ⟨fun hj => ⟨hj, nofun⟩, And.left⟩⟩
      exact (List.append_nil events).symm ▸ h
  | cancelled => exact absurd rfl hlive.state

/-- The time of a `Timer` is over: `tick` has passed its entry, or there was no time to wait. -/
def late (timer : Timer) (w : State τ) : Bool :=
  decide (timer.state = .expired) || timer.overdue w

theorem late_iff : timer.late w = true ↔ timer.state = .expired ∨ timer.overdue w = true := by
  rw [late, Bool.or_eq_true, decide_eq_true_iff]

theorem poll_late (h : w.Inv chain) (hyields : w.yields = true) (hlive : timer.Live w)
    (hcalls : ∀ a ∈ timer.calls now secs task false, w.Undisturbed a)
    (hrange : ∀ a ∈ timer.calls now secs task false, a.InRange) :
    ∃ timer' w', timer.poll w now task =
        .ok (if timer.late w then .ready () else .notReady, timer', w') ∧
      timer.Acts w timer' w' (timer.told timer' task false) := by
  obtain ⟨ready, timer', w', hok, hacts, hready⟩ := Timer.poll_acts h hyields hlive hcalls hrange
  refine ⟨timer', w', ?_, hacts⟩
  rw [← late_iff] at hready
  rw [hok]
  cases ready with
  | notReady => rw [if_neg fun hlate => nomatch hready.mpr hlate]
  | ready => rw [if_pos (hready.mp rfl)]

theorem acts_told_self (timer : Timer) (w : State τ) (task : τ) :
    timer.Acts w timer w (timer.told timer task false) := by
  have htold : timer.told timer task false = none := by
    obtain ⟨state⟩ := timer
    cases state with
    | _ => rfl
  rw [htold]
  exact .rests

end Timer

/-- What a poll answers by what it finds inside: a value is late when its time is over. -/
def Inside.answer (late : Bool) : Inside σ ε ι → Answer σ ε ι
  | .nothing => .sleep (if late then .ready () else .notReady)
  | .future (.ok .notReady, inner) =>
      .future (if late then .error (.timedOut inner) else .ok .notReady)
  | .future (.ok (.ready v), _) => .future (.ok (.ready v))
  | .future (.error e, _) => .future (.error (.other e))
  | .stream (.ok .notReady, inner) =>
      .stream (if late then .error (.timedOut inner) else .ok .notReady)
  | .stream (.ok (.ready (some v)), inner) =>
      .stream (if late then .error (.timedOut inner) else .ok (.ready (some v)))
  | .stream (.ok (.ready none), _) => .stream (.ok (.ready none))
  | .stream (.error e, _) => .stream (.error (.other e))

namespace Timed

variable {v : Timed σ} {w : State τ} {chain : Chains} {now : Instant} {task : τ}
  {inside : Inside σ ε ι}

/-- The call into the wheel that a poll makes. -/
def calls (v : Timed σ) (now : Instant) (task : τ) (inside : Inside σ ε ι) : Option (Action τ) :=
  match v, inside with
  | .sleep timer, _ => timer.calls now 0 task false
  | .future tf, .future (.ok .notReady, _) => tf.timer.calls now 0 task false
  | .stream ts, .stream polled => ts.calls now task polled.1
  | _, _ => none

/-- A timeout that is over, or that has handed back what was inside. -/
def Completed : Timed σ → Prop
  | .sleep _ => False
  | .future tf => tf.future = none
  | .stream ts => ts.stream = none

theorem poll_future {tf : TimeoutFuture σ} (h : w.Inv chain) (hyields : w.yields = true)
    (hlive : tf.timer.Live w) (hopen : tf.future ≠ none) {polled : Except ε (Async ι) × σ}
    (hcalls : ∀ a ∈ (Timed.future tf).calls now task (.future polled), w.Undisturbed a)
    (hrange : ∀ a ∈ (Timed.future tf).calls now task (.future polled), a.InRange) :
    ∃ answer tf' w', tf.poll w now task polled = .ok (answer, tf', w') ∧
      Answer.future answer = (Inside.future polled).answer (tf.timer.late w) ∧
      tf.timer.Acts w tf'.timer w' (tf.timer.told tf'.timer task false) := by
  obtain ⟨inner, hinner⟩ := Option.ne_none_iff_exists'.mp hopen
  obtain ⟨outcome, after⟩ := polled
  rw [TimeoutFuture.poll, hinner]
  rcases outcome with e | ⟨v⟩ | -
  · exact ⟨_, _, w, rfl, rfl, Timer.acts_told_self _ w task⟩
  · exact ⟨_, _, w, rfl, rfl, Timer.acts_told_self _ w task⟩
  · obtain ⟨timer', w', hok, hacts⟩ := Timer.poll_late h hyields hlive hcalls hrange
    dsimp only
    rw [hok, Inside.answer]
    cases tf.timer.late w with
    | false => exact ⟨_, _, w', rfl, rfl, hacts⟩
    | true => exact ⟨_, _, w', rfl, rfl, hacts⟩

theorem poll_stream {ts : TimeoutStream σ} (h : w.Inv chain) (hyields : w.yields = true)
    (hlive : ts.timer.Live w) (hopen : ts.stream ≠ none)
    {polled : Except ε (Async (Option ι)) × σ}
    (hintime : foundItem polled.1 = true → ts.timer.overdue w = false)
    (hcalls : ∀ a ∈ ts.calls now task polled.1, w.Undisturbed a)
    (hrange : ∀ a ∈ ts.calls now task polled.1, a.InRange) :
    ∃ answer ts' w', ts.poll w now task polled = .ok (answer, ts', w') ∧
      Answer.stream answer = (Inside.stream polled).answer (ts.timer.late w) ∧
      ts.timer.Acts w ts'.timer w' (ts.timer.told ts'.timer task (foundItem polled.1)) := by
  obtain ⟨inner, hinner⟩ := Option.ne_none_iff_exists'.mp hopen
  obtain ⟨outcome, after⟩ := polled
  rw [TimeoutStream.poll, hinner]
  rcases outcome with e | ⟨- | item⟩ | -
  · exact ⟨_, _, w, rfl, rfl, Timer.acts_told_self _ w task⟩
  · exact ⟨_, _, w, rfl, rfl, Timer.acts_told_self _ w task⟩
  · obtain ⟨rescheduled, timer', w', hok, hacts, hexpired⟩ :=
      Timer.reschedule_acts h hyields hlive (hintime rfl) hcalls hrange
    have hlate : ts.timer.late w = true ↔ rescheduled = false := by
      rw [Timer.late_iff, hexpired]
      apply or_iff_left
      rw [hintime rfl]
      exact Bool.false_ne_true
    dsimp only
    rw [hok, Inside.answer]
    cases rescheduled with
    | false =>
        rw [if_pos (hlate.mpr rfl)]
        exact ⟨_, _, w', rfl, rfl, hacts⟩
    | true =>
        rw [if_neg fun hlate' => by cases hlate.mp hlate']
        exact ⟨_, _, w', rfl, rfl, hacts⟩
  · obtain ⟨timer', w', hok, hacts⟩ := Timer.poll_late h hyields hlive hcalls hrange
    dsimp only
    rw [hok, Inside.answer]
    cases ts.timer.late w with
    | false => exact ⟨_, _, w', rfl, rfl, hacts⟩
    | true => exact ⟨_, _, w', rfl, rfl, hacts⟩

theorem poll_ok (h : w.Inv chain) (hyields : w.yields = true) (hlive : v.timer.Live w)
    (hopen : ¬ v.Completed) (hintime : inside.rearms = true → v.timer.overdue w = false)
    (hcalls : ∀ a ∈ v.calls now task inside, w.Undisturbed a)
    (hrange : ∀ a ∈ v.calls now task inside, a.InRange)
    {r : Except Fault (Answer σ ε ι × Timed σ × State τ)}
    (hpoll : v.poll w now task inside = some r) :
    ∃ v' w', r = .ok (inside.answer (v.timer.late w), v', w') ∧
      v.timer.Acts w v'.timer w' (v.timer.told v'.timer task inside.rearms) := by
  cases v with
  | sleep timer =>
      cases inside with
      | nothing =>
          have hlive : timer.Live w := hlive
          obtain ⟨timer', w', hok, hacts⟩ := Timer.poll_late h hyields hlive hcalls hrange
          rw [poll, hok] at hpoll
          cases hpoll
          exact ⟨.sleep timer', w', rfl, hacts⟩
      | future polled => cases hpoll
      | stream polled => cases hpoll
  | future tf =>
      cases inside with
      | nothing => cases hpoll
      | future polled =>
          obtain ⟨answer, tf', w', hok, hanswer, hacts⟩ :=
            poll_future h hyields hlive hopen hcalls hrange
          rw [poll, hok] at hpoll
          cases hpoll
          exact ⟨.future tf', w', congrArg (fun answer => Except.ok (answer, _)) hanswer, hacts⟩
      | stream polled => cases hpoll
  | stream ts =>
      cases inside with
      | nothing => cases hpoll
      | future polled => cases hpoll
      | stream polled =>
          obtain ⟨answer, ts', w', hok, hanswer, hacts⟩ :=
            poll_stream h hyields hlive hopen hintime hcalls hrange
          rw [poll, hok] at hpoll
          cases hpoll
          exact ⟨.stream ts', w', congrArg (fun answer => Except.ok (answer, _)) hanswer, hacts⟩

theorem poll_completed (hdone : v.Completed)
    {r : Except Fault (Answer σ ε ι × Timed σ × State τ)}
    (hpoll : v.poll w now task inside = some r) : r = .error .panic := by
  cases v with
  | sleep timer => exact hdone.elim
  | future tf =>
      cases inside with
      | future polled =>
          rw [poll, TimeoutFuture.poll, show tf.future = none from hdone] at hpoll
          cases hpoll
          rfl
      | nothing | stream => cases hpoll
  | stream ts =>
      cases inside with
      | stream polled =>
          rw [poll, TimeoutStream.poll, show ts.stream = none from hdone] at hpoll
          cases hpoll
          rfl
      | nothing | future => cases hpoll

theorem poll_panics (h : w.Inv chain) (hyields : w.yields = true) (hlive : v.timer.Live w)
    (hintime : inside.rearms = true → v.timer.overdue w = false) {a : Action τ}
    (ha : a ∈ v.calls now task inside) (hundisturbed : w.Undisturbed a) (hrange : ¬ a.InRange)
    {r : Except Fault (Answer σ ε ι × Timed σ × State τ)}
    (hpoll : v.poll w now task inside = some r) : r = .error .panic := by
  cases v with
  | sleep timer =>
      cases inside with
      | nothing =>
          rw [poll, Timer.poll_panics w ha hrange] at hpoll
          cases hpoll
          rfl
      | future | stream => cases hpoll
  | future tf =>
      cases inside with
      | future polled =>
          obtain ⟨outcome, inner⟩ := polled
          rcases outcome with e | ⟨value⟩ | -
          · cases ha
          · cases ha
          · cases hopen : tf.future with
            | none => exact poll_completed (v := .future tf) hopen hpoll
            | some future =>
                simp only [poll, TimeoutFuture.poll, hopen, Timer.poll_panics w ha hrange] at hpoll
                cases hpoll
                rfl
      | nothing | stream => cases hpoll
  | stream ts =>
      cases inside with
      | stream polled =>
          have hpanics := ts.poll_panics h hyields hlive hintime ha hundisturbed hrange
          rw [poll, hpanics] at hpoll
          cases hpoll
          rfl
      | nothing | future => cases hpoll

end Timed

end Ruyi.Reactor.Wheel
