import Ruyi.Reactor.TimerPoll

namespace Ruyi.Reactor.Timer

variable {τ : Type}

/-- `poll` of a `PeriodicTimer` by a task: the answer, and the timer and the queue after it. -/
def PeriodicState.poll (timer : PeriodicState) (q : Queue τ) (task : τ) :
    Except Fault (Async (Option Unit) × PeriodicState × Queue τ) :=
  match timer with
  | .unscheduled due period =>
      let added := q.addPeriodic due period task
      .ok (.notReady, .scheduled added.1, added.2)
  | .scheduled taskId => do
      let expired ← q.isTaskExpired taskId
      if expired then .ok (.ready (some ()), .expired taskId, q)
      else .ok (.notReady, .scheduled taskId, q)
  | .expired taskId => .ok (.notReady, .scheduled taskId, q)
  | .cancelled => .error .unreachable

/-- The stream has been ready, and has not been polled since. -/
def PeriodicState.handed : PeriodicState → Bool
  | .expired _ => true
  | _ => false

/-- The timers, one of which is that of a stream.  `handle` is what the stream holds once it is
scheduled; `earlier` counts the polls of the stream in the expiry it is in, and `due` tells
whether it has been polled since the last poll that was the first of an expiry.  The code keeps
none of these. -/
structure Watched (τ : Type) where
  base : Timers τ
  timer : PeriodicState
  handle : Option Handle
  earlier : Nat
  due : Bool

/-- What the others do, and a poll of the stream by a task. -/
inductive WatchAction (τ : Type) where
  | base (a : TimerAction τ)
  | poll (task : τ)

/-- The moment of a poll: whether it is in an expiry, and what the counters are. -/
structure Moment where
  expired : Bool
  earlier : Nat
  due : Bool
  deriving DecidableEq

inductive WatchEvent (τ : Type) where
  | base (e : TimerEvent τ)
  | polled (m : Moment) (answer : Async (Option Unit))
  deriving DecidableEq

namespace Watched

/-- Before the first poll of a stream. -/
def init (due : Instant) (period : Duration) : Watched τ :=
  ⟨Timers.init, .unscheduled due period, none, 0, true⟩

/-- An expiry lasts as long as the queue has the timer of the stream in state `Expired`. -/
def expired (s : Watched τ) : Bool :=
  match s.timer with
  | .scheduled taskId | .expired taskId =>
      match s.base.queue.isTaskExpired taskId with
      | .ok expired => expired
      | .error _ => false
  | _ => false

def moment (s : Watched τ) : Moment := ⟨s.expired, s.earlier, s.due⟩

/-- The call is one of the owner of the stream. -/
def owns (s : Watched τ) : TimerAction τ → Bool
  | .cancel timer => s.handle = some timer
  | _ => false

/-- The state after a step of the others. -/
def next (s : Watched τ) (base : Timers τ) : Watched τ :=
  let s' := { s with base := base }
  { s' with earlier := if s'.expired then s.earlier else 0 }

def stepBase (s : Watched τ) (a : TimerAction τ) :
    Option (Except Fault (WatchEvent τ × Watched τ)) :=
  if s.owns a then none
  else (s.base.step a).map fun r => r.map fun r => (.base r.1, s.next r.2)

/-- A poll, while the code of a task runs. -/
def poll (s : Watched τ) (task : τ) : Option (Except Fault (WatchEvent τ × Watched τ)) :=
  if s.base.poll = .polling then none
  else
    some do
      let (answer, timer, queue) ← s.timer.poll s.base.queue task
      let handle : Option Handle :=
        match s.timer, timer with
        | .unscheduled _ _, .scheduled taskId => some ⟨taskId, s.base.queue.added⟩
        | _, _ => none
      .ok (.polled s.moment answer,
        { base := { s.base with queue := queue, timers := handle.toList ++ s.base.timers }
          timer := timer
          handle := handle.or s.handle
          earlier := if s.expired then s.earlier + 1 else 0
          due := !(s.expired && s.earlier = 0) })

def step (s : Watched τ) :
    WatchAction τ → Option (Except Fault (WatchEvent τ × Watched τ))
  | .base a => s.stepBase a
  | .poll task => s.poll task

end Watched

def watchedMachine (τ : Type) : Base.Machine (Watched τ) (WatchAction τ) (WatchEvent τ) Fault :=
  ⟨Watched.step⟩

/-- The first poll in an expiry is ready, and no other one is. -/
def WatchEvent.ReadyOncePerExpiry : WatchEvent τ → Prop
  | .base _ => True
  | .polled m answer =>
      answer = if m.expired && m.earlier = 0 then .ready (some ()) else .notReady

/-- In an expiry the stream is polled at most twice, and for the first time only when it has
been polled again since it was so the last time. -/
def WatchEvent.InTurn : WatchEvent τ → Prop
  | .base _ => True
  | .polled m _ => m.expired = true → m.earlier = 0 ∧ m.due = true ∨ m.earlier = 1

instance : ∀ e : WatchEvent τ, Decidable e.ReadyOncePerExpiry
  | .base _ => isTrue trivial
  | .polled _ _ => inferInstanceAs (Decidable (_ = _))

instance : ∀ e : WatchEvent τ, Decidable e.InTurn
  | .base _ => isTrue trivial
  | .polled _ _ => inferInstanceAs (Decidable (_ → _))

def WatchEvent.answer : WatchEvent τ → Option (Async (Option Unit))
  | .base _ => none
  | .polled _ answer => some answer

namespace Watched

variable {s s' : Watched τ} {log : List (WatchEvent τ)} {e : WatchEvent τ}

/-- The state of the stream says whether it has been polled again since the first poll of the
last expiry that it was polled in. -/
structure InTurn (s : Watched τ) : Prop where
  handed : s.timer.handed = !s.due
  outside : s.expired = false → s.earlier = 0
  second : s.earlier = 1 → s.due = false
  third : 2 ≤ s.earlier → s.due = true

theorem inTurn_init (due : Instant) (period : Duration) : InTurn (init due period : Watched τ) :=
  ⟨rfl, fun _ => rfl, by simp [init], by simp [init]⟩

theorem base_cases {a : TimerAction τ} (h : s.step (.base a) = some (.ok (e, s'))) :
    ∃ e' base, e = .base e' ∧ s' = s.next base := by
  rw [step, stepBase] at h
  split at h
  · cases h
  · obtain ⟨r, -, hr⟩ := Option.map_eq_some_iff.mp h
    obtain ⟨⟨e', base⟩, -, hnext⟩ := ok_of_map_ok hr
    cases hnext
    exact ⟨e', base, rfl, rfl⟩

theorem InTurn.next (h : InTurn s) (base : Timers τ) : InTurn (s.next base) := by
  refine ⟨h.handed, fun hexpired => if_neg (Bool.eq_false_iff.mp hexpired), fun hone => ?_,
    fun htwo => ?_⟩
  · dsimp only [Watched.next] at hone ⊢
    split at hone
    · exact h.second hone
    · cases hone
  · dsimp only [Watched.next] at htwo ⊢
    split at htwo
    · exact h.third htwo
    · cases htwo

theorem poll_cases {task : τ} (h : s.step (.poll task) = some (.ok (e, s'))) :
    e = .polled s.moment
        (if s.expired && !s.timer.handed then .ready (some ()) else .notReady) ∧
      s'.timer.handed = (s.expired && !s.timer.handed) ∧
      (s.expired = true → s'.expired = true) ∧
      s'.earlier = (if s.expired then s.earlier + 1 else 0) ∧
      s'.due = !(s.expired && s.earlier = 0) := by
  rw [step, poll] at h
  split at h
  · cases h
  · obtain ⟨⟨answer, timer, queue⟩, hpoll, hnext⟩ := ok_of_bind_ok (Option.some.inj h)
    cases hnext
    rcases htimer : s.timer with ⟨due, period⟩ | taskId | taskId | _
    · rw [htimer] at hpoll
      cases hpoll
      simp [expired, htimer, PeriodicState.handed]
    · rw [htimer] at hpoll
      obtain ⟨expired', hexpired, hanswer⟩ := ok_of_bind_ok hpoll
      rcases expired' with _ | _
      · cases hanswer
        simp [expired, htimer, hexpired, PeriodicState.handed]
      · cases hanswer
        simp [expired, htimer, hexpired, PeriodicState.handed]
    · rw [htimer] at hpoll
      cases hpoll
      simp [expired, htimer, PeriodicState.handed]
    · rw [htimer] at hpoll
      cases hpoll

theorem InTurn.poll {task : τ} (h : InTurn s) (hstep : s.step (.poll task) = some (.ok (e, s'))) :
    (e.ReadyOncePerExpiry ↔ e.InTurn) ∧ (e.InTurn → InTurn s') := by
  obtain ⟨rfl, hhanded, hexpired, hearlier, hdue⟩ := poll_cases hstep
  have hstate := h.handed
  rw [WatchEvent.ReadyOncePerExpiry, WatchEvent.InTurn]
  dsimp only [moment]
  by_cases hin : s.expired = true
  · simp only [hin, Bool.true_and, forall_const, if_true] at hhanded hexpired hearlier hdue ⊢
    refine ⟨?_, fun hturn => ⟨?_, fun hout => ?_, fun hone => ?_, fun htwo => ?_⟩⟩
    · have hcount : s.earlier = 0 ∨ s.earlier = 1 ∨ 2 ≤ s.earlier := by omega
      rcases hcount with hzero | hone | htwo
      · cases hdue₀ : s.due <;> simp [hstate, hdue₀, hzero]
      · simp [hstate, h.second hone, hone]
      · have hne : s.earlier ≠ 0 ∧ s.earlier ≠ 1 := by omega
        simp [hstate, h.third htwo, hne]
    · rcases hturn with ⟨hzero, hdue₀⟩ | hone
      · simp [hhanded, hdue, hstate, hzero, hdue₀]
      · simp [hhanded, hdue, hstate, hone, h.second hone]
    · rw [hexpired] at hout
      cases hout
    · have hzero : s.earlier = 0 := by omega
      simp [hdue, hzero]
    · have hpos : s.earlier ≠ 0 := by omega
      simp [hdue, hpos]
  · have hout : s.expired = false := Bool.eq_false_iff.mpr hin
    simp only [hout, Bool.false_and, Bool.not_false] at hhanded hearlier hdue ⊢
    refine ⟨by simp, fun _ => ⟨?_, fun _ => hearlier, fun hone => ?_, fun _ => hdue⟩⟩
    · rw [hhanded, hdue]
      rfl
    · rw [hearlier] at hone
      cases hone

end Watched

/-- A periodic timer is ready once in each expiry that it is polled in, and not else, if and only
if in each it is polled at most twice and not for the first time before it has been polled again
since it was so in another. -/
theorem ready_once_iff {due : Instant} {period : Duration} {ok : Watched τ → WatchAction τ → Prop}
    {log : List (WatchEvent τ)} {s : Watched τ}
    (h : (watchedMachine τ).Run ok (.init due period) log s) :
    (∀ e ∈ log, e.ReadyOncePerExpiry) ↔ ∀ e ∈ log, e.InTurn := by
  have hturn : ((∀ e ∈ log, e.ReadyOncePerExpiry) ↔ ∀ e ∈ log, e.InTurn) ∧
      ((∀ e ∈ log, e.InTurn) → s.InTurn) := by
    refine h.invariant (I := fun log s =>
      ((∀ e ∈ log, e.ReadyOncePerExpiry) ↔ ∀ e ∈ log, e.InTurn) ∧
        ((∀ e ∈ log, e.InTurn) → s.InTurn))
      ⟨by simp, fun _ => Watched.inTurn_init due period⟩ ?_
    rintro log t a e u ⟨hiff, hstate⟩ - hstep
    rw [List.forall_mem_append, List.forall_mem_append, List.forall_mem_singleton,
      List.forall_mem_singleton, hiff]
    cases a with
    | base a =>
        obtain ⟨e', base, rfl, rfl⟩ := Watched.base_cases hstep
        exact ⟨and_congr_right fun _ => Iff.rfl, fun hin => (hstate hin.1).next base⟩
    | poll task =>
        refine ⟨and_congr_right fun hin => ((hstate hin).poll hstep).1, fun hin => ?_⟩
        exact ((hstate hin.1).poll hstep).2 hin.2
  exact hturn.1

theorem ready_once_of_two :
    ∃ (log : List (WatchEvent Nat)) (s : Watched Nat),
      (watchedMachine Nat).Run (fun _ _ => True) (.init 1 2) log s ∧
        log.filterMap WatchEvent.answer =
          [.notReady, .ready (some ()), .notReady, .notReady] ∧
        ∀ e ∈ log, e.ReadyOncePerExpiry := by
  have hend : ((watchedMachine Nat).exec (fun _ _ => True)
      [.poll 7, .base .poll, .base (.turn 1 ⟨1, 0, 0⟩), .poll 7, .poll 7, .base (.finish false),
        .base (.turn 1 ⟨3, 0, 0⟩), .poll 7] (.init 1 2)).map
          (fun r => (r.1.filterMap WatchEvent.answer, decide (∀ e ∈ r.1, e.InTurn))) =
        some ([.notReady, .ready (some ()), .notReady, .notReady], true) := by
    decide +kernel
  obtain ⟨⟨log, s⟩, hexec, heq⟩ := Option.map_eq_some_iff.mp hend
  obtain ⟨hanswers, hturn⟩ := Prod.mk.inj heq
  have hrun := Base.Machine.Run.of_exec _ hexec
  exact ⟨log, s, hrun, hanswers, (ready_once_iff hrun).mpr (of_decide_eq_true hturn)⟩

/-- A stream that is polled once in an expiry is not ready when it is polled in the next one; and
one that is polled three times in an expiry is ready twice in it. -/
theorem expiry_lost_and_doubled :
    (∃ (log : List (WatchEvent Nat)) (s : Watched Nat),
      (watchedMachine Nat).Run (fun _ _ => True) (.init 1 2) log s ∧
        log.filterMap WatchEvent.answer = [.notReady, .ready (some ()), .notReady] ∧
        ¬ ∀ e ∈ log, e.ReadyOncePerExpiry) ∧
    ∃ (log : List (WatchEvent Nat)) (s : Watched Nat),
      (watchedMachine Nat).Run (fun _ _ => True) (.init 1 2) log s ∧
        log.filterMap WatchEvent.answer =
          [.notReady, .ready (some ()), .notReady, .ready (some ())] ∧
        ¬ ∀ e ∈ log, e.ReadyOncePerExpiry := by
  constructor
  · have hend : ((watchedMachine Nat).exec (fun _ _ => True)
        [.poll 7, .base .poll, .base (.turn 1 ⟨1, 0, 0⟩), .poll 7, .base (.finish false),
          .base (.turn 3 ⟨3, 0, 0⟩), .poll 7] (.init 1 2)).map
            (fun r => (r.1.filterMap WatchEvent.answer, decide (∀ e ∈ r.1, e.ReadyOncePerExpiry))) =
          some ([.notReady, .ready (some ()), .notReady], false) := by
      decide +kernel
    obtain ⟨⟨log, s⟩, hexec, heq⟩ := Option.map_eq_some_iff.mp hend
    obtain ⟨hanswers, hfalse⟩ := Prod.mk.inj heq
    exact ⟨log, s, .of_exec _ hexec, hanswers, of_decide_eq_false hfalse⟩
  · have hend : ((watchedMachine Nat).exec (fun _ _ => True)
        [.poll 7, .base .poll, .base (.turn 1 ⟨1, 0, 0⟩), .poll 7, .poll 7, .poll 7]
          (.init 1 2)).map
            (fun r => (r.1.filterMap WatchEvent.answer, decide (∀ e ∈ r.1, e.ReadyOncePerExpiry))) =
          some ([.notReady, .ready (some ()), .notReady, .ready (some ())], false) := by
      decide +kernel
    obtain ⟨⟨log, s⟩, hexec, heq⟩ := Option.map_eq_some_iff.mp hend
    obtain ⟨hanswers, hfalse⟩ := Prod.mk.inj heq
    exact ⟨log, s, .of_exec _ hexec, hanswers, of_decide_eq_false hfalse⟩

end Ruyi.Reactor.Timer
