import Ruyi.Net.TcpWakeup

namespace Ruyi.Net

open Sys

variable {τ : Type}

/-- `ConnectState`. -/
inductive ConnectState where
  | connecting (nio : Nio)
  | finishing (nio : Nio)
  | connected (nio : Nio)
  | error (e : ErrorKind)
  | done
  deriving DecidableEq

/-- What `libc::connect` returns, with `EINPROGRESS` apart. -/
inductive ConnectResult where
  | ok
  | inProgress
  | error (e : ErrorKind)

/-- What the system answers in a poll: the poller when the interest is changed, the socket when it
is asked for its error, and the poller when the `Nio` is dropped. -/
structure ConnectAnswers where
  ctl : Except ErrorKind Unit
  takeError : Except ErrorKind (Option ErrorKind)
  deregister : Except ErrorKind Unit

namespace ConnectState

def nio : ConnectState → Option Nio
  | connecting nio | finishing nio | connected nio => some nio
  | error _ | done => none

/-- `Connect::from`, with the results of `socket`, of the poller and of `connect`. -/
def connect (schedules : Slab (Schedule τ)) (registration : Nat) (current : τ)
    (socket ctl : Except ErrorKind Unit) (result : ConnectResult)
    (deregister : Except ErrorKind Unit) : ConnectState × Slab (Schedule τ) :=
  match socket with
  | .error e => (.error e, schedules)
  | .ok () =>
      match Nio.register schedules registration current ctl with
      | (.error e, schedules) => (.error e, schedules)
      | (.ok nio, schedules) =>
          match result with
          | .ok => (.connected nio, schedules)
          | .inProgress => (.connecting nio, schedules)
          | .error e => (.error e, nio.deregister schedules deregister)

/-- A poll that ends with an error, where the `Nio` is dropped. -/
def fail (nio : Nio) (schedules : Slab (Schedule τ)) (answers : ConnectAnswers) (e : ErrorKind) :
    Poll Nio × ConnectState × Slab (Schedule τ) :=
  (.error ⟨e⟩, .done, nio.deregister schedules answers.deregister)

/-- `poll_connect`, with the `Nio` of the `Sender` that it may return. -/
def pollConnect (state : ConnectState) (schedules : Slab (Schedule τ)) (current : τ)
    (answers : ConnectAnswers) :
    Except Fault (Poll Nio × ConnectState × Slab (Schedule τ)) :=
  match state with
  | connecting nio => do
      let (r, nio, schedules) ← nio.scheduleWrite schedules current answers.ctl
      match r with
      | .ok () => .ok (.ok .notReady, finishing nio, schedules)
      | .error e => .ok (fail nio schedules answers e)
  | finishing nio => do
      if ← nio.isWriteReady schedules then
        match answers.takeError with
        | .ok none =>
            let (r, nio, schedules) ← nio.cancelWrite schedules answers.ctl
            match r with
            | .ok () => .ok (.ok (.ready nio), done, schedules)
            | .error e => .ok (fail nio schedules answers e)
        | .ok (some e) => .ok (fail nio schedules answers e)
        | .error e => .ok (fail nio schedules answers e)
      else .ok (.ok .notReady, finishing nio, schedules)
  | connected nio => .ok (.ok (.ready nio), done, schedules)
  | error e => .ok (.error ⟨e⟩, done, schedules)
  | done => .error .panic

end ConnectState

/-- The values `Connect` of a thread, over the schedules of its loop.  `made` counts them. -/
structure Connects (τ : Type) where
  schedules : Slab (Schedule τ)
  connects : Nat → Option ConnectState
  made : Nat

/-- A call on a `Connect`, from the task that makes it, or an event that the poller reports for
one.  `elsewhere` is what the loop and its other objects do to the schedules. -/
inductive ConnectAction (τ : Type) where
  | connect (task : τ) (socket ctl : Except ErrorKind Unit) (result : ConnectResult)
      (deregister : Except ErrorKind Unit)
  | poll (i : Nat) (task : τ) (answers : ConnectAnswers)
  | drop (i : Nat) (result : Except ErrorKind Unit)
  | event (i : Nat) (event : Event)
  | elsewhere (schedules : Slab (Schedule τ))

inductive ConnectEvent (τ : Type) where
  | opened (i : Nat) (state : ConnectState)
  | polled (i : Nat) (task : τ) (poll : Poll Nio)
  | dropped (i : Nat)
  | ready (i : Nat) (event : Event) (tasks : ReadyTasks τ)
  | silent

namespace Connects

def init : Connects τ := ⟨Slab.empty, fun _ => none, 0⟩

def put (s : Connects τ) (i : Nat) (state : Option ConnectState)
    (schedules : Slab (Schedule τ)) : Connects τ :=
  { s with schedules := schedules, connects := Function.update s.connects i state }

/-- The `Nio` of a `Connect`. -/
def nio (s : Connects τ) (i : Nat) : Option Nio := (s.connects i).bind ConnectState.nio

def step (s : Connects τ) :
    ConnectAction τ → Option (Except Fault (ConnectEvent τ × Connects τ))
  | .connect task socket ctl result deregister =>
      let r := ConnectState.connect s.schedules s.made task socket ctl result deregister
      some (.ok (.opened s.made r.1,
        { s with made := s.made + 1 }.put s.made (some r.1) r.2))
  | .poll i task answers => (s.connects i).map fun state =>
      (state.pollConnect s.schedules task answers).map fun r =>
        (.polled i task r.1, s.put i (some r.2.1) r.2.2)
  | .drop i result => (s.connects i).map fun state =>
      .ok (.dropped i, s.put i none
        (match state.nio with
        | some nio => nio.deregister s.schedules result
        | none => s.schedules))
  | .event i event =>
      match s.nio i with
      | none => none
      | some nio =>
          if event.token = nio.token then
            match s.schedules.get event.token with
            | none => some (.error .freed)
            | some schedule =>
                let r := getReadyTasks event schedule
                some (.ok (.ready i event r.1,
                  { s with schedules := s.schedules.modify event.token fun _ => r.2 }))
          else none
  | .elsewhere schedules => some (.ok (.silent, { s with schedules := schedules }))

/-- What is done elsewhere leaves the schedules of the `Connect` values alone. -/
def Apart (s : Connects τ) : ConnectAction τ → Prop
  | .elsewhere schedules =>
      ∀ i < s.made, ∀ nio ∈ s.nio i, schedules.get nio.token = s.schedules.get nio.token
  | _ => True

end Connects

def connectMachine : Base.Machine (Connects τ) (ConnectAction τ) (ConnectEvent τ) Fault :=
  ⟨Connects.step⟩

/-- A poll of the `Connect` that an event is of, with the task that makes it. -/
def ConnectEvent.poll (i : Nat) : ConnectEvent τ → Option (τ × Poll Nio)
  | .polled j task poll => if j = i then some (task, poll) else none
  | _ => none

/-- A report that a descriptor can be written, or that there is an error. -/
def ConnectEvent.reports (i : Nat) : ConnectEvent τ → Bool
  | .ready j event _ => decide (j = i) && (event.isWrite || !event.isRead)
  | _ => false

/-- The polls of a `Connect`. -/
def pollsOf (i : Nat) (log : List (ConnectEvent τ)) : List (τ × Poll Nio) :=
  log.filterMap (·.poll i)

/-- The poller has reported a `Connect` since it was polled first. -/
def reported (i : Nat) (log : List (ConnectEvent τ)) : Bool :=
  (log.dropWhile fun e => (e.poll i).isNone).any (·.reports i)

/-- The answers of a `Connect`: none but the last, if there is one, is final. -/
def Settles (polls : List (τ × Poll Nio)) (final : List (Poll Nio)) : Prop :=
  .ok .notReady ∉ final ∧ ∃ n, polls.map Prod.snd = List.replicate n (.ok .notReady) ++ final

/-- What a poll does in each of the states that it can be made in. -/
inductive ConnectState.Polls (schedules : Slab (Schedule τ)) (task : τ) (answers : ConnectAnswers) :
    ConnectState → Poll Nio → ConnectState → Slab (Schedule τ) → Prop where
  | waits {token : Nat} : Polls schedules task answers (.connecting ⟨token, ⟨false, false⟩⟩)
      (.ok .notReady) (.finishing ⟨token, ⟨false, true⟩⟩)
      (schedules.modify token (·.scheduleWrite task))
  | refused {nio : Nio} (e : ErrorKind) : Polls schedules task answers (.connecting nio)
      (.error ⟨e⟩) .done (nio.deregister schedules answers.deregister)
  | again {nio : Nio} {schedule : Schedule τ} (get_eq : schedules.get nio.token = some schedule)
      (ready_eq : schedule.writeReady = false) : Polls schedules task answers (.finishing nio)
      (.ok .notReady) (.finishing nio) schedules
  | established {token : Nat} {schedule : Schedule τ}
      (get_eq : schedules.get token = some schedule) (ready_eq : schedule.writeReady = true)
      (takeError_eq : answers.takeError = .ok none) :
      Polls schedules task answers (.finishing ⟨token, ⟨false, true⟩⟩)
        (.ok (.ready ⟨token, ⟨false, false⟩⟩)) .done (schedules.modify token Schedule.cancelWrite)
  | failed {nio : Nio} {schedule : Schedule τ} (e : ErrorKind)
      (get_eq : schedules.get nio.token = some schedule) (ready_eq : schedule.writeReady = true) :
      Polls schedules task answers (.finishing nio) (.error ⟨e⟩) .done
        (nio.deregister schedules answers.deregister)
  | connected {nio : Nio} : Polls schedules task answers (.connected nio) (.ok (.ready nio)) .done
      schedules
  | error {e : ErrorKind} : Polls schedules task answers (.error e) (.error ⟨e⟩) .done schedules

namespace Connects

/-- A `Nio` has the schedule that was made for it. -/
structure Owns (s : Connects τ) (i : Nat) (nio : Nio) (schedule : Schedule τ) : Prop where
  get_eq : s.schedules.get nio.token = some schedule
  registration_eq : schedule.registration = i
  readReady_eq : schedule.readReady = true

/-- Where a `Connect` stands after its polls. -/
inductive Stage (s : Connects τ) (i : Nat) (polls : List (τ × Poll Nio)) (reported : Bool) :
    ConnectState → Prop where
  | connecting {nio : Nio} {schedule : Schedule τ} (owns : s.Owns i nio schedule)
      (ops_eq : nio.schedOps = ⟨false, false⟩) (polls_eq : polls = []) :
      Stage s i polls reported (.connecting nio)
  | finishing {nio : Nio} {schedule : Schedule τ} (owns : s.Owns i nio schedule)
      (ops_eq : nio.schedOps = ⟨false, true⟩) (ready_eq : schedule.writeReady = reported)
      (polls_eq : polls.head? = some (schedule.writeTask, .ok .notReady))
      (settles : Settles polls []) : Stage s i polls reported (.finishing nio)
  | connected {nio : Nio} {schedule : Schedule τ} (owns : s.Owns i nio schedule)
      (ops_eq : nio.schedOps = ⟨false, false⟩) (ready_eq : schedule.writeReady = true)
      (polls_eq : polls = []) : Stage s i polls reported (.connected nio)
  | error {e : ErrorKind} (polls_eq : polls = []) : Stage s i polls reported (.error e)
  | done {final : Poll Nio} (settles : Settles polls [final]) : Stage s i polls reported .done

/-- Each `Connect` has a schedule of its own as long as it needs one. -/
structure Held (s : Connects τ) (log : List (ConnectEvent τ)) : Prop where
  stage : ∀ i state, s.connects i = some state → s.Stage i (pollsOf i log) (reported i log) state
  fresh : ∀ i, s.made ≤ i → s.connects i = none ∧ pollsOf i log = []
  settles : ∀ i, ∃ final, Settles (pollsOf i log) final ∧ final.length ≤ 1

/-- A poll of a `Connect` that is not over, in the state `s` and with `t` after it. -/
structure Answered (s : Connects τ) (log : List (ConnectEvent τ)) (i : Nat) (state : ConnectState)
    (answers : ConnectAnswers) (poll : Poll Nio) (t : Connects τ) : Prop where
  waits_iff : pollsOf i log ≠ [] → (poll = .ok .notReady ↔ reported i log = false)
  waits : poll = .ok .notReady → ∃ nio, t.connects i = some (.finishing nio)
  ends : poll ≠ .ok .notReady → t.connects i = some .done
  ready : ∀ nio, poll = .ok (.ready nio) → nio.schedOps = ⟨false, false⟩ ∧
    (pollsOf i log ≠ [] → answers.takeError = .ok none) ∧
      (∃ schedule, t.Owns i nio schedule ∧ schedule.writeReady = true) ∧
        ∀ j other, t.nio j = some other → other.token ≠ nio.token
  failed : ∀ e, poll = .error e → answers.deregister = .ok () →
    ∀ nio, state.nio = some nio → t.schedules.get nio.token = none

end Connects

theorem get_deregister_of_ne {schedules : Slab (Schedule τ)} {nio : Nio} {token : Nat}
    {result : Except ErrorKind Unit} (hne : token ≠ nio.token) :
    (nio.deregister schedules result).get token = schedules.get token := by
  cases result with
  | ok _ => exact (Slab.get_remove _ _ _).trans (if_neg hne)
  | error _ => rfl

section

variable {schedules : Slab (Schedule τ)} {schedule : Schedule τ} {nio : Nio} {task : τ}
  {answers : ConnectAnswers}

theorem ConnectState.Polls.get_other {schedules' : Slab (Schedule τ)} {state state' : ConnectState}
    {poll : Poll Nio} (h : Polls schedules task answers state poll state' schedules') {token : Nat}
    (hne : ∀ nio, state.nio = some nio → token ≠ nio.token) :
    schedules'.get token = schedules.get token := by
  cases h with
  | waits | established => exact (Slab.get_modify _ _ _ _).trans (if_neg (hne _ rfl))
  | refused | failed => exact get_deregister_of_ne (hne _ rfl)
  | again | connected | error => rfl

theorem ConnectState.Polls.ends {schedules' : Slab (Schedule τ)} {state state' : ConnectState}
    {poll : Poll Nio} (h : Polls schedules task answers state poll state' schedules')
    (hpoll : poll ≠ .ok .notReady) : state' = .done := by
  cases h with
  | waits | again => exact absurd rfl hpoll
  | refused | established | failed | connected | error => rfl

theorem ConnectState.Polls.waits_iff {schedules' : Slab (Schedule τ)} {state : ConnectState}
    {poll : Poll Nio} (h : Polls schedules task answers (.finishing nio) poll state schedules')
    (hget : schedules.get nio.token = some schedule) :
    poll = .ok .notReady ↔ schedule.writeReady = false := by
  cases h with
  | again hget' hready =>
      cases hget.symm.trans hget'
      exact iff_of_true rfl hready
  | established hget' hready _ | failed e hget' hready =>
      cases hget.symm.trans hget'
      refine iff_of_false (fun hpoll => by cases hpoll) ?_
      rw [hready]
      exact Bool.false_ne_true.symm

theorem ConnectState.pollConnect_connecting (hget : schedules.get nio.token = some schedule)
    (hops : nio.schedOps = ⟨false, false⟩) :
    ∃ poll state schedules', pollConnect (.connecting nio) schedules task answers =
        .ok (poll, state, schedules') ∧
      Polls schedules task answers (.connecting nio) poll state schedules' := by
  obtain ⟨token, ops⟩ := nio
  cases hops
  obtain ⟨ctl, takeError, deregister⟩ := answers
  cases ctl with
  | ok _ =>
      refine ⟨_, _, _, ?_, .waits⟩
      simp [pollConnect, Nio.scheduleWrite, Nio.reregister, modifySchedule, hget, Bind.bind,
        Except.bind]
  | error e => exact ⟨_, _, _, rfl, .refused e⟩

theorem ConnectState.pollConnect_finishing (hget : schedules.get nio.token = some schedule)
    (hops : nio.schedOps = ⟨false, true⟩) :
    ∃ poll state schedules', pollConnect (.finishing nio) schedules task answers =
        .ok (poll, state, schedules') ∧
      Polls schedules task answers (.finishing nio) poll state schedules' := by
  obtain ⟨token, ops⟩ := nio
  cases hops
  have hready : Nio.isWriteReady ⟨token, ⟨false, true⟩⟩ schedules = .ok schedule.writeReady := by
    simp [Nio.isWriteReady, Nio.isReady, hget]
  cases hwrite : schedule.writeReady with
  | false =>
      refine ⟨_, _, _, ?_, .again hget hwrite⟩
      simp [pollConnect, hready, hwrite, Bind.bind, Except.bind]
  | true =>
      obtain ⟨ctl, takeError, deregister⟩ := answers
      rw [hwrite] at hready
      cases takeError with
      | error e =>
          refine ⟨_, _, _, ?_, .failed e hget hwrite⟩
          simp [pollConnect, hready, fail, Bind.bind, Except.bind]
      | ok pending =>
          cases pending with
          | some e =>
              refine ⟨_, _, _, ?_, .failed e hget hwrite⟩
              simp [pollConnect, hready, fail, Bind.bind, Except.bind]
          | none =>
              cases ctl with
              | error e =>
                  refine ⟨_, _, _, ?_, .failed e hget hwrite⟩
                  simp [pollConnect, hready, fail, Nio.cancelWrite, Nio.reregister, Nio.deregister,
                    Bind.bind, Except.bind]
              | ok _ =>
                  refine ⟨_, _, _, ?_, .established hget hwrite rfl⟩
                  simp [pollConnect, hready, Nio.cancelWrite, Nio.reregister, modifySchedule, hget,
                    Bind.bind, Except.bind]

end

section

variable {log : List (ConnectEvent τ)} {e : ConnectEvent τ} {i : Nat}

theorem pollsOf_concat (i : Nat) (log : List (ConnectEvent τ)) (e : ConnectEvent τ) :
    pollsOf i (log ++ [e]) = pollsOf i log ++ (e.poll i).toList := by
  rw [pollsOf, List.filterMap_append]
  refine congrArg _ ?_
  cases hpoll : e.poll i with
  | none => exact List.filterMap_cons_none hpoll
  | some poll => exact List.filterMap_cons_some hpoll

theorem ConnectEvent.reports_of_poll {poll : τ × Poll Nio} (h : e.poll i = some poll) :
    e.reports i = false := by
  cases e with
  | polled => rfl
  | opened | dropped | ready | silent => cases h

theorem dropWhile_eq_nil_iff (i : Nat) (log : List (ConnectEvent τ)) :
    (log.dropWhile fun e => (e.poll i).isNone) = [] ↔ pollsOf i log = [] := by
  rw [List.dropWhile_eq_nil_iff, pollsOf, List.filterMap_eq_nil_iff]
  exact forall₂_congr fun _ _ => Option.isNone_iff_eq_none

theorem reported_of_polls_nil (h : pollsOf i log = []) : reported i log = false := by
  rw [reported, (dropWhile_eq_nil_iff i log).mpr h, List.any_nil]

theorem reported_concat (i : Nat) (log : List (ConnectEvent τ)) (e : ConnectEvent τ) :
    reported i (log ++ [e]) =
      (reported i log || (!(pollsOf i log).isEmpty && e.reports i)) := by
  by_cases hpolls : pollsOf i log = []
  · rw [reported_of_polls_nil hpolls, hpolls, reported, List.dropWhile_append,
      (dropWhile_eq_nil_iff i log).mpr hpolls]
    cases hpoll : e.poll i with
    | none => simp [hpoll]
    | some poll => simp [hpoll, ConnectEvent.reports_of_poll hpoll]
  · have hdrop := mt (dropWhile_eq_nil_iff i log).mp hpolls
    rw [reported, List.dropWhile_append, List.isEmpty_eq_false_iff.mpr hdrop,
      List.isEmpty_eq_false_iff.mpr hpolls]
    simp [reported]

end

theorem settles_nil : Settles ([] : List (τ × Poll Nio)) [] := ⟨List.not_mem_nil, 0, rfl⟩

theorem Settles.wait {polls : List (τ × Poll Nio)} (h : Settles polls []) (task : τ) :
    Settles (polls ++ [(task, .ok .notReady)]) [] := by
  obtain ⟨hfinal, n, hpolls⟩ := h
  refine ⟨hfinal, n + 1, ?_⟩
  rw [List.map_append, hpolls, List.append_nil, List.append_nil, List.replicate_succ']
  rfl

theorem Settles.final {polls : List (τ × Poll Nio)} (h : Settles polls []) (task : τ)
    {poll : Poll Nio} (hpoll : poll ≠ .ok .notReady) :
    Settles (polls ++ [(task, poll)]) [poll] := by
  obtain ⟨-, n, hpolls⟩ := h
  refine ⟨fun hmem => hpoll (List.mem_singleton.mp hmem).symm, n, ?_⟩
  rw [List.map_append, hpolls, List.append_nil]
  rfl

theorem getReadyTasks_reports (event : Event) (schedule : Schedule τ) :
    (getReadyTasks event schedule).2.readReady = (schedule.readReady || event.isRead) ∧
      (getReadyTasks event schedule).2.writeReady =
        (schedule.writeReady || (event.isWrite || !event.isRead)) ∧
      ((event.isWrite || !event.isRead) = true →
        schedule.writeTask ∈ tasks (getReadyTasks event schedule).1) := by
  obtain ⟨token, isRead, isWrite⟩ := event
  cases isRead <;> cases isWrite <;> simp [getReadyTasks, tasks]

theorem get_connect {schedules : Slab (Schedule τ)} {token : Nat} {schedule : Schedule τ}
    (hget : schedules.get token = some schedule) (registration : Nat) (current : τ)
    (socket ctl : Except ErrorKind Unit) (result : ConnectResult)
    (deregister : Except ErrorKind Unit) :
    (ConnectState.connect schedules registration current socket ctl result deregister).2.get token =
      some schedule := by
  have hregister := Nio.get_register hget registration current ctl
  match socket, ctl with
  | .error _, _ => exact hget
  | .ok (), .error _ => exact hregister
  | .ok (), .ok () =>
      match result with
      | .ok | .inProgress => exact hregister
      | .error _ =>
          match deregister with
          | .error _ => exact hregister
          | .ok () =>
              refine (Slab.get_remove _ _ _).trans ((if_neg ?_).trans hregister)
              rintro rfl
              rw [Slab.get_insert_fst] at hget
              cases hget

namespace Connects

variable {s t : Connects τ} {log : List (ConnectEvent τ)} {e : ConnectEvent τ} {i j : Nat}
  {polls : List (τ × Poll Nio)} {reports : Bool} {state : ConnectState} {nio other : Nio}
  {schedule : Schedule τ}

theorem Stage.owns (h : s.Stage i polls reports state) (hnio : state.nio = some nio) :
    ∃ schedule, s.Owns i nio schedule := by
  cases h with
  | connecting howns _ _ =>
      cases hnio
      exact ⟨_, howns⟩
  | finishing howns _ _ _ _ =>
      cases hnio
      exact ⟨_, howns⟩
  | connected howns _ _ _ =>
      cases hnio
      exact ⟨_, howns⟩
  | error | done => cases hnio

theorem Stage.settles (h : s.Stage i polls reports state) :
    ∃ final, Settles polls final ∧ final.length ≤ 1 := by
  cases h with
  | connecting _ _ hpolls | connected _ _ _ hpolls | error hpolls =>
      exact ⟨[], hpolls ▸ settles_nil, Nat.zero_le _⟩
  | finishing _ _ _ _ hsettles => exact ⟨[], hsettles, Nat.zero_le _⟩
  | done hsettles => exact ⟨_, hsettles, Nat.le_refl _⟩

theorem Stage.frame (h : s.Stage i polls reports state)
    (hget : ∀ nio, state.nio = some nio →
      t.schedules.get nio.token = s.schedules.get nio.token) :
    t.Stage i polls reports state := by
  have howns : ∀ {nio schedule}, state.nio = some nio → s.Owns i nio schedule →
      t.Owns i nio schedule := fun hnio howns =>
    ⟨(hget _ hnio).trans howns.get_eq, howns.registration_eq, howns.readReady_eq⟩
  cases h with
  | connecting h hops hpolls => exact .connecting (howns rfl h) hops hpolls
  | finishing h hops hready hpolls hsettles =>
      exact .finishing (howns rfl h) hops hready hpolls hsettles
  | connected h hops hready hpolls => exact .connected (howns rfl h) hops hready hpolls
  | error hpolls => exact .error hpolls
  | done hsettles => exact .done hsettles

theorem nio_eq_some : s.nio i = some nio ↔ ∃ state, s.connects i = some state ∧
    state.nio = some nio := Option.bind_eq_some_iff

theorem Held.owns (h : s.Held log) (hi : s.nio i = some nio) :
    ∃ schedule, s.Owns i nio schedule := by
  obtain ⟨state, hstate, hnio⟩ := nio_eq_some.mp hi
  exact (h.stage i state hstate).owns hnio

theorem Held.token_ne (h : s.Held log) (hi : s.nio i = some nio) (hj : s.nio j = some other)
    (hne : i ≠ j) : nio.token ≠ other.token := by
  intro htoken
  obtain ⟨x, hx⟩ := h.owns hi
  obtain ⟨y, hy⟩ := h.owns hj
  have hsame : some x = some y := by rw [← hx.get_eq, htoken, hy.get_eq]
  cases hsame
  exact hne (hx.registration_eq.symm.trans hy.registration_eq)

theorem Held.lt (h : s.Held log) (hi : s.connects i = some state) : i < s.made := by
  refine Nat.lt_of_not_le fun hle => ?_
  rw [(h.fresh i hle).1] at hi
  cases hi

theorem Held.moves (h : s.Held log) (hother : ∀ i, i ≠ j → e.poll i = none ∧ e.reports i = false)
    (hconnects : ∀ i, i ≠ j → t.connects i = s.connects i)
    (hget : ∀ i nio, i ≠ j → s.nio i = some nio →
      t.schedules.get nio.token = s.schedules.get nio.token)
    (hmade : s.made ≤ t.made) (hj : j < t.made)
    (hstage : ∀ state, t.connects j = some state →
      t.Stage j (pollsOf j (log ++ [e])) (reported j (log ++ [e])) state)
    (hsettles : ∃ final, Settles (pollsOf j (log ++ [e])) final ∧ final.length ≤ 1) :
    t.Held (log ++ [e]) := by
  have hpolls : ∀ i, i ≠ j → pollsOf i (log ++ [e]) = pollsOf i log := fun i hij => by
    rw [pollsOf_concat, (hother i hij).1, Option.toList_none, List.append_nil]
  have hreported : ∀ i, i ≠ j → reported i (log ++ [e]) = reported i log := fun i hij => by
    rw [reported_concat, (hother i hij).2, Bool.and_false, Bool.or_false]
  constructor
  · intro i state hi
    by_cases hij : i = j
    · subst hij
      exact hstage state hi
    · have hi' := (hconnects i hij).symm.trans hi
      rw [hpolls i hij, hreported i hij]
      exact (h.stage i state hi').frame fun nio hnio =>
        hget i nio hij (nio_eq_some.mpr ⟨state, hi', hnio⟩)
  · intro i hi
    have hij := Nat.ne_of_gt (Nat.lt_of_lt_of_le hj hi)
    rw [hconnects i hij, hpolls i hij]
    exact h.fresh i (Nat.le_trans hmade hi)
  · intro i
    by_cases hij : i = j
    · subst hij
      exact hsettles
    · rw [hpolls i hij]
      exact h.settles i

theorem stage_connect {schedules : Slab (Schedule τ)} {task : τ}
    {socket ctl : Except ErrorKind Unit} {result : ConnectResult}
    {deregister : Except ErrorKind Unit}
    (ht : t.schedules =
      (ConnectState.connect schedules i task socket ctl result deregister).2) :
    t.Stage i [] reports
      (ConnectState.connect schedules i task socket ctl result deregister).1 := by
  match socket, ctl with
  | .error e, _ => exact .error rfl
  | .ok (), .error e => exact .error rfl
  | .ok (), .ok () =>
      have hget := (Slab.get_insert schedules (Schedule.new i task) _).trans (if_pos rfl)
      match result with
      | .ok => exact .connected ⟨ht ▸ hget, rfl, rfl⟩ rfl rfl rfl
      | .inProgress => exact .connecting ⟨ht ▸ hget, rfl, rfl⟩ rfl rfl
      | .error e => exact .error rfl

theorem Held.opened (h : s.Held log) {task : τ} {socket ctl : Except ErrorKind Unit}
    {result : ConnectResult} {deregister : Except ErrorKind Unit}
    (hstep : s.step (.connect task socket ctl result deregister) = some (.ok (e, t))) :
    t.Held (log ++ [e]) := by
  cases hstep
  have hfresh := (h.fresh s.made (Nat.le_refl _)).2
  refine h.moves (j := s.made) (fun i _ => ⟨rfl, rfl⟩)
    (fun i hij => Function.update_of_ne hij _ _) (fun i nio hij hi => ?_) (Nat.le_succ _)
    (Nat.lt_succ_self _) (fun state hstate => ?_) ?_
  · obtain ⟨x, hx⟩ := h.owns hi
    exact (get_connect hx.get_eq _ _ _ _ _ _).trans hx.get_eq.symm
  · cases (Function.update_self _ _ _).symm.trans hstate
    rw [pollsOf_concat, reported_of_polls_nil (by rw [pollsOf_concat, hfresh]; rfl), hfresh]
    exact stage_connect rfl
  · rw [pollsOf_concat, hfresh]
    exact ⟨[], settles_nil, Nat.zero_le _⟩

theorem Held.dropped (h : s.Held log) {result : Except ErrorKind Unit}
    (hstep : s.step (.drop j result) = some (.ok (e, t))) : t.Held (log ++ [e]) := by
  obtain ⟨state, hj, hr⟩ := Option.map_eq_some_iff.mp hstep
  cases hr
  have hpolls : pollsOf j (log ++ [ConnectEvent.dropped j]) = pollsOf j log := by
    rw [pollsOf_concat]
    exact List.append_nil _
  refine h.moves (j := j) (fun i _ => ⟨rfl, rfl⟩)
    (fun i hij => Function.update_of_ne hij _ _) (fun i nio hij hi => ?_) (Nat.le_refl _)
    (h.lt hj) (fun state hstate => ?_) (hpolls ▸ h.settles j)
  · cases hnio : state.nio with
    | none => rfl
    | some other => exact get_deregister_of_ne (h.token_ne hi (nio_eq_some.mpr ⟨_, hj, hnio⟩) hij)
  · cases (Function.update_self _ _ _).symm.trans hstate

theorem Owns.modify {f : Schedule τ → Schedule τ} (h : s.Owns i nio schedule)
    (htoken : other.token = nio.token)
    (hregistration : (f schedule).registration = schedule.registration)
    (hread : (f schedule).readReady = true)
    (ht : t.schedules = s.schedules.modify nio.token f) : t.Owns i other (f schedule) := by
  refine ⟨?_, hregistration.trans h.registration_eq, hread⟩
  rw [ht, Slab.get_modify, if_pos htoken, h.get_eq]
  rfl

theorem Held.event (h : s.Held log) {event : Event} (hnio : s.nio j = some nio)
    (htoken : event.token = nio.token) :
    ∃ schedule t, s.Owns j nio schedule ∧
      s.step (.event j event) =
        some (.ok (.ready j event (getReadyTasks event schedule).1, t)) ∧
      t.Held (log ++ [.ready j event (getReadyTasks event schedule).1]) := by
  obtain ⟨schedule, howns⟩ := h.owns hnio
  obtain ⟨state, hj, hstate⟩ := nio_eq_some.mp hnio
  obtain ⟨-, hwriteTask, hregistration⟩ := getReadyTasks_snd event schedule
  obtain ⟨hread, hready, -⟩ := getReadyTasks_reports event schedule
  rw [howns.readReady_eq, Bool.true_or] at hread
  have hpolls : pollsOf j (log ++ [.ready j event (getReadyTasks event schedule).1]) =
      pollsOf j log := by
    rw [pollsOf_concat]
    exact List.append_nil _
  obtain ⟨t, ht⟩ : ∃ t : Connects τ, t = { s with
      schedules := s.schedules.modify event.token fun _ => (getReadyTasks event schedule).2 } :=
    ⟨_, rfl⟩
  have hschedules : t.schedules =
      s.schedules.modify event.token fun _ => (getReadyTasks event schedule).2 := by rw [ht]
  have hconnects : t.connects = s.connects := by rw [ht]
  refine ⟨schedule, t, howns, ?_, h.moves (j := j) (fun i hij => ?_)
    (fun i _ => congrFun hconnects i) (fun i other hij hi => ?_) (by rw [ht])
    (by rw [ht]; exact h.lt hj) (fun state' hj' => ?_) (hpolls ▸ h.settles j)⟩
  · rw [step, hnio]
    simp only [htoken, if_pos, howns.get_eq, ht]
  · exact ⟨rfl, by rw [ConnectEvent.reports, decide_eq_false (Ne.symm hij), Bool.false_and]⟩
  · rw [hschedules, Slab.get_modify, htoken, if_neg (h.token_ne hi hnio hij)]
  · rw [hconnects, hj] at hj'
    cases hj'
    have hself : ∀ {x}, s.schedules.get nio.token = some x → x = schedule := fun hx =>
      Option.some.inj (hx.symm.trans howns.get_eq)
    have howns' : t.Owns j nio (getReadyTasks event schedule).2 :=
      howns.modify rfl hregistration hread (htoken ▸ hschedules)
    rw [hpolls, reported_concat]
    cases h.stage j state hj with
    | connecting _ hops hnil =>
        cases hstate
        exact .connecting howns' hops hnil
    | finishing hx hops hreported hhead hsettles =>
        cases hstate
        cases hself hx.get_eq
        have hpolled : (pollsOf j log).isEmpty = false :=
          List.isEmpty_eq_false_iff.mpr (List.ne_nil_of_mem (List.mem_of_mem_head? hhead))
        refine .finishing howns' hops ?_ ?_ hsettles
        · rw [hready, hreported, hpolled, ConnectEvent.reports, decide_eq_true rfl]
          rfl
        · rw [hwriteTask, hhead]
    | connected hx hops hwrite hnil =>
        cases hstate
        cases hself hx.get_eq
        refine .connected howns' hops ?_ hnil
        rw [hready, hwrite, Bool.true_or]
    | error | done => cases hstate

theorem Held.elsewhere (h : s.Held log) {schedules : Slab (Schedule τ)}
    (hapart : s.Apart (.elsewhere schedules)) :
    Held { s with schedules := schedules } (log ++ [.silent]) := by
  have hpolls : ∀ i, pollsOf i (log ++ [.silent]) = pollsOf i log := fun i => by
    rw [pollsOf_concat]
    exact List.append_nil _
  have hreported : ∀ i, reported i (log ++ [ConnectEvent.silent]) = reported i log := fun i => by
    have hsilent : (ConnectEvent.silent : ConnectEvent τ).reports i = false := rfl
    rw [reported_concat, hsilent, Bool.and_false, Bool.or_false]
  constructor
  · intro i state hi
    rw [hpolls, hreported]
    exact (h.stage i state hi).frame fun nio hnio =>
      hapart i (h.lt hi) nio (nio_eq_some.mpr ⟨state, hi, hnio⟩)
  · intro i hi
    rw [hpolls]
    exact h.fresh i hi
  · intro i
    rw [hpolls]
    exact h.settles i

theorem Stage.settles_of_ne (h : s.Stage i polls reports state) (hne : state ≠ .done) :
    Settles polls [] := by
  cases h with
  | connecting _ _ hnil | connected _ _ _ hnil | error hnil => exact hnil ▸ settles_nil
  | finishing _ _ _ _ hsettles => exact hsettles
  | done => exact absurd rfl hne

theorem Held.pollConnect (h : s.Held log) (hj : s.connects j = some state) (hne : state ≠ .done)
    (task : τ) (answers : ConnectAnswers) :
    ∃ poll state' schedules', state.pollConnect s.schedules task answers =
        .ok (poll, state', schedules') ∧
      ConnectState.Polls s.schedules task answers state poll state' schedules' := by
  cases h.stage j state hj with
  | connecting howns hops _ => exact ConnectState.pollConnect_connecting howns.get_eq hops
  | finishing howns hops _ _ _ => exact ConnectState.pollConnect_finishing howns.get_eq hops
  | connected => exact ⟨_, _, _, rfl, .connected⟩
  | error => exact ⟨_, _, _, rfl, .error⟩
  | done => exact absurd rfl hne

theorem Held.polled (h : s.Held log) (hj : s.connects j = some state) (hne : state ≠ .done)
    {task : τ} {answers : ConnectAnswers} {poll : Poll Nio} {state' : ConnectState}
    {schedules' : Slab (Schedule τ)}
    (hpolls : ConnectState.Polls s.schedules task answers state poll state' schedules') :
    (s.put j (some state') schedules').Held (log ++ [.polled j task poll]) := by
  have hother : ∀ i, i ≠ j → (ConnectEvent.polled j task poll).poll i = none ∧
      (ConnectEvent.polled j task poll).reports i = false :=
    fun i hij => ⟨if_neg (Ne.symm hij), rfl⟩
  have hlog : pollsOf j (log ++ [.polled j task poll]) = pollsOf j log ++ [(task, poll)] := by
    rw [pollsOf_concat, ConnectEvent.poll, if_pos rfl]
    rfl
  have hreported : reported j (log ++ [.polled j task poll]) = reported j log := by
    have hpolled : (ConnectEvent.polled j task poll).reports j = false := rfl
    rw [reported_concat, hpolled, Bool.and_false, Bool.or_false]
  have hstage : (s.put j (some state') schedules').Stage j
      (pollsOf j log ++ [(task, poll)]) (reported j log) state' := by
    have hsettles := (h.stage j state hj).settles_of_ne hne
    by_cases hpoll : poll = .ok .notReady
    · subst hpoll
      cases hpolls with
      | waits =>
          cases h.stage j _ hj with
          | connecting howns hops hnil =>
              refine .finishing (howns.modify rfl rfl howns.readReady_eq rfl) rfl ?_ ?_
                (hsettles.wait task)
              · exact (reported_of_polls_nil hnil).symm
              · rw [hnil]
                rfl
      | again =>
          cases h.stage j _ hj with
          | finishing howns hops hwrite hhead _ =>
              refine .finishing ⟨howns.get_eq, howns.registration_eq, howns.readReady_eq⟩ hops
                hwrite ?_ (hsettles.wait task)
              rw [List.head?_append, hhead]
              rfl
    · obtain rfl := hpolls.ends hpoll
      exact .done (hsettles.final task hpoll)
  refine h.moves (j := j) hother (fun i hij => Function.update_of_ne hij _ _)
    (fun i nio hij hi => ?_) (Nat.le_refl _) (h.lt hj) (fun state hstate => ?_) ?_
  · exact hpolls.get_other fun other hother => h.token_ne hi (nio_eq_some.mpr ⟨_, hj, hother⟩) hij
  · cases (Function.update_self _ _ _).symm.trans hstate
    rw [hlog, hreported]
    exact hstage
  · rw [hlog]
    exact hstage.settles

theorem Held.waits_iff (h : s.Held log) (hj : s.connects j = some state)
    (hpolled : pollsOf j log ≠ []) {task : τ} {answers : ConnectAnswers} {poll : Poll Nio}
    {state' : ConnectState} {schedules' : Slab (Schedule τ)}
    (hpolls : ConnectState.Polls s.schedules task answers state poll state' schedules')
    (hne : state ≠ .done) : poll = .ok .notReady ↔ reported j log = false := by
  cases h.stage j state hj with
  | connecting _ _ hnil | connected _ _ _ hnil | error hnil => exact absurd hnil hpolled
  | done => exact absurd rfl hne
  | finishing howns _ hreported _ _ =>
      rw [← hreported]
      exact hpolls.waits_iff howns.get_eq

theorem Held.established (h : s.Held log) (hj : s.connects j = some state) {task : τ}
    {answers : ConnectAnswers} {state' : ConnectState} {schedules' : Slab (Schedule τ)}
    (hpolls :
      ConnectState.Polls s.schedules task answers state (.ok (.ready nio)) state' schedules')
    (ht : t = s.put j (some state') schedules') :
    nio.schedOps = ⟨false, false⟩ ∧ (pollsOf j log ≠ [] → answers.takeError = .ok none) ∧
      (∃ schedule, t.Owns j nio schedule ∧ schedule.writeReady = true) ∧
        ∃ before, s.nio j = some before ∧ before.token = nio.token := by
  subst ht
  cases hpolls with
  | established hget hready htake =>
      obtain ⟨schedule, howns⟩ := h.owns (nio_eq_some.mpr ⟨_, hj, rfl⟩)
      exact ⟨rfl, fun _ => htake, ⟨_, howns.modify rfl rfl howns.readReady_eq rfl, rfl⟩, _,
        nio_eq_some.mpr ⟨_, hj, rfl⟩, rfl⟩
  | connected =>
      cases h.stage j _ hj with
      | connected howns hops hready hnil =>
          exact ⟨hops, fun hpolled => absurd hnil hpolled,
            ⟨_, ⟨howns.get_eq, howns.registration_eq, howns.readReady_eq⟩, hready⟩, _,
            nio_eq_some.mpr ⟨_, hj, rfl⟩, rfl⟩

theorem Held.answered (h : s.Held log) (hj : s.connects j = some state) (hne : state ≠ .done)
    {task : τ} {answers : ConnectAnswers} {poll : Poll Nio} {state' : ConnectState}
    {schedules' : Slab (Schedule τ)}
    (hpolls : ConnectState.Polls s.schedules task answers state poll state' schedules') :
    s.Answered log j state answers poll (s.put j (some state') schedules') := by
  constructor
  · exact fun hpolled => h.waits_iff hj hpolled hpolls hne
  · rintro rfl
    cases hpolls with
    | waits | again => exact ⟨_, Function.update_self _ _ _⟩
  · intro hpoll
    exact (Function.update_self _ _ _).trans (congrArg some (hpolls.ends hpoll))
  · rintro nio rfl
    obtain ⟨hops, htake, howns, before, hbefore, htoken⟩ := h.established hj hpolls rfl
    refine ⟨hops, htake, howns, fun i other hi => ?_⟩
    obtain ⟨other', hother, hnio⟩ := nio_eq_some.mp hi
    by_cases hij : i = j
    · subst hij
      cases (Function.update_self _ _ _).symm.trans hother
      rw [hpolls.ends (by simp)] at hnio
      cases hnio
    · have hother' := (Function.update_of_ne hij _ _).symm.trans hother
      rw [← htoken]
      exact h.token_ne (nio_eq_some.mpr ⟨_, hother', hnio⟩) hbefore hij
  · rintro e rfl hderegister nio hnio
    cases hpolls with
    | refused | failed =>
        cases hnio
        refine (congrArg (fun result => (nio.deregister s.schedules result).get nio.token)
          hderegister).trans ?_
        exact (Slab.get_remove _ _ _).trans (if_pos rfl)
    | error => cases hnio

theorem Held.step {a : ConnectAction τ} (h : s.Held log) (hapart : s.Apart a)
    (hstep : s.step a = some (.ok (e, t))) : t.Held (log ++ [e]) := by
  match a with
  | .connect _ _ _ _ _ => exact h.opened hstep
  | .drop i _ => exact h.dropped hstep
  | .elsewhere schedules =>
      cases hstep
      exact h.elsewhere hapart
  | .poll i task answers =>
      obtain ⟨state, hi, hr⟩ := Option.map_eq_some_iff.mp hstep
      by_cases hdone : state = .done
      · subst hdone
        cases hr
      · obtain ⟨poll, state', schedules', hpoll, hpolls⟩ := h.pollConnect hi hdone task answers
        rw [hpoll] at hr
        cases hr
        exact h.polled hi hdone hpolls
  | .event i event =>
      cases hnio : s.nio i with
      | none =>
          rw [Connects.step, hnio] at hstep
          cases hstep
      | some nio =>
          by_cases htoken : event.token = nio.token
          · obtain ⟨schedule, t', -, hstep', hheld⟩ := h.event hnio htoken
            cases hstep'.symm.trans hstep
            exact hheld
          · rw [Connects.step, hnio] at hstep
            simp only [if_neg htoken] at hstep
            cases hstep

theorem held_init : (init : Connects τ).Held [] := by
  refine ⟨fun i state hi => ?_, fun i _ => ⟨rfl, rfl⟩, fun i => ⟨[], settles_nil, Nat.zero_le _⟩⟩
  cases hi

end Connects

/-- A `Connect` waits for one report, which runs the task of its first poll, and is over with the
poll after it. -/
theorem connects_settle {log : List (ConnectEvent τ)} {s : Connects τ}
    (h : connectMachine.Run Connects.Apart .init log s) (i : Nat) :
    (∃ final, Settles (pollsOf i log) final ∧ final.length ≤ 1) ∧
      ∀ state, s.connects i = some state →
        (state = .done → ∀ task answers, s.step (.poll i task answers) = some (.error .panic)) ∧
        (state ≠ .done → ∀ task answers, ∃ poll t,
          s.step (.poll i task answers) = some (.ok (.polled i task poll, t)) ∧
            s.Answered log i state answers poll t) ∧
        ∀ nio, state.nio = some nio → ∀ event, event.token = nio.token → ∃ ready t,
          s.step (.event i event) = some (.ok (.ready i event ready, t)) ∧
            ((event.isWrite || !event.isRead) = true →
              ∀ first, (pollsOf i log).head? = some first → first.1 ∈ tasks ready) := by
  have hheld : s.Held log :=
    h.invariant (I := fun log s => s.Held log) Connects.held_init fun hlog hapart hstep =>
      hlog.step hapart hstep
  refine ⟨hheld.settles i, fun state hi => ⟨?_, fun hne task answers => ?_, ?_⟩⟩
  · rintro rfl task answers
    exact congrArg (Option.map _) hi
  · obtain ⟨poll, state', schedules', hpoll, hpolls⟩ := hheld.pollConnect hi hne task answers
    refine ⟨poll, _, ?_, hheld.answered hi hne hpolls⟩
    rw [Connects.step, hi, Option.map_some, hpoll]
    rfl
  · intro nio hnio event htoken
    obtain ⟨schedule, t, howns, hstep, -⟩ :=
      hheld.event (Connects.nio_eq_some.mpr ⟨state, hi, hnio⟩) htoken
    refine ⟨_, t, hstep, fun hreports first hfirst => ?_⟩
    obtain ⟨-, -, hmem⟩ := getReadyTasks_reports event schedule
    cases hheld.stage i state hi with
    | finishing howns' _ _ hhead _ =>
        cases hnio
        cases howns.get_eq.symm.trans howns'.get_eq
        cases hhead.symm.trans hfirst
        exact hmem hreports
    | connecting _ _ hnil | connected _ _ _ hnil =>
        rw [hnil] at hfirst
        cases hfirst
    | error | done => cases hnio

deriving instance DecidableEq for Schedule

instance [DecidableEq τ] (s : Connects τ) (a : ConnectAction τ) : Decidable (s.Apart a) :=
  match a with
  | .elsewhere schedules => inferInstanceAs (Decidable (∀ i < s.made, ∀ nio ∈ s.nio i,
      schedules.get nio.token = s.schedules.get nio.token))
  | .connect _ _ _ _ _ | .poll _ _ _ | .drop _ _ | .event _ _ => inferInstanceAs (Decidable True)

/-- The answers of a system where nothing fails. -/
def noErrors : ConnectAnswers := ⟨.ok (), .ok none, .ok ()⟩

/-- Two connections, of which the second is reported and not polled since. -/
def twoConnects : List (ConnectAction Nat) :=
  [.elsewhere (Slab.empty.insert (Schedule.new 9 5)).2,
    .connect 1 (.ok ()) (.ok ()) .inProgress (.ok ()), .poll 0 1 noErrors,
    .connect 2 (.ok ()) (.ok ()) .inProgress (.ok ()), .event 0 ⟨1, false, true⟩,
    .poll 0 1 noErrors, .poll 1 2 noErrors, .poll 1 3 noErrors, .event 1 ⟨2, false, true⟩]

theorem connects_settle_of_two :
    ∃ (log : List (ConnectEvent Nat)) (s : Connects Nat),
      connectMachine.Run Connects.Apart .init log s ∧
        (pollsOf 0 log).map Prod.snd = [.ok .notReady, .ok (.ready ⟨1, ⟨false, false⟩⟩)] ∧
        s.step (.poll 0 1 noErrors) = some (.error .panic) ∧
        ∀ task answers, ∃ poll t,
          s.step (.poll 1 task answers) = some (.ok (.polled 1 task poll, t)) ∧
            t.connects 1 = some .done := by
  have hend : ((connectMachine.exec Connects.Apart twoConnects (Connects.init (τ := Nat))).map
      fun r => ((pollsOf 0 r.1).map Prod.snd, (pollsOf 1 r.1).map Prod.fst, reported 1 r.1,
        r.2.connects 0, r.2.connects 1)) =
      some ([.ok .notReady, .ok (.ready ⟨1, ⟨false, false⟩⟩)], [2, 3], true, some .done,
        some (.finishing ⟨2, ⟨false, true⟩⟩)) := by
    rfl
  obtain ⟨⟨log, s⟩, hexec, heq⟩ := Option.map_eq_some_iff.mp hend
  obtain ⟨hpolls, heq⟩ := Prod.mk.inj heq
  obtain ⟨htasks, heq⟩ := Prod.mk.inj heq
  obtain ⟨hreported, heq⟩ := Prod.mk.inj heq
  obtain ⟨hdone, hfinishing⟩ := Prod.mk.inj heq
  have hrun := Base.Machine.Run.of_exec _ hexec
  refine ⟨log, s, hrun, hpolls, ?_, fun task answers => ?_⟩
  · exact ((connects_settle hrun 0).2 _ hdone).1 rfl 1 noErrors
  · obtain ⟨poll, t, hstep, hanswered⟩ :=
      ((connects_settle hrun 1).2 _ hfinishing).2.1 (by simp) task answers
    have hpolled : pollsOf 1 log ≠ [] := by
      intro hnil
      rw [hnil] at htasks
      cases htasks
    refine ⟨poll, t, hstep, hanswered.ends fun hpoll => ?_⟩
    rw [(hanswered.waits_iff hpolled).mp hpoll] at hreported
    cases hreported

end Ruyi.Net
