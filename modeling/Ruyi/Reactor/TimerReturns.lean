import Ruyi.Reactor.TimerPoll

namespace Ruyi.Reactor.Timer

variable {τ : Type}

namespace Queue

variable {q q' : Queue τ} {exp : Expiration}

/-- No timer has become periodic, and none has another period than it had. -/
def NoNewPeriod (q q' : Queue τ) : Prop :=
  ∀ i task period, q'.tasks.get i = some task → task.state = .periodic period →
    q.tasks.get i = some task

theorem noNewPeriod_setState {taskId : Nat} {state : TaskState}
    (h : ∀ period, state ≠ .periodic period) : NoNewPeriod q (q.setState taskId state) := by
  intro i task period hget hstate
  rw [get_setState] at hget
  split at hget
  · obtain ⟨old, -, rfl⟩ := Option.map_eq_some_iff.mp hget
    exact absurd hstate (h period)
  · exact hget

theorem noNewPeriod_remove {taskId : Nat} : NoNewPeriod q (q.remove taskId) := by
  intro i task period hget hstate
  rw [get_remove] at hget
  split at hget
  · cases hget
  · exact hget

theorem expire_cases {r : Option (τ × Option Resume) × Queue τ} (h : q.expire exp = .ok r) :
    r.2.heap = q.heap ∧ NoNewPeriod q r.2 ∧ ∀ task resume, r.1 = some (task, some resume) →
      ∃ timer, q.tasks.get exp.taskId = some timer ∧ timer.state = .periodic resume.period := by
  rw [expire] at h
  split at h
  · cases h
  · rename_i timer hget
    split at h
    · rename_i period hstate
      cases h
      refine ⟨rfl, noNewPeriod_setState (by simp), ?_⟩
      rintro task resume ⟨⟩
      exact ⟨timer, hget, hstate⟩
    · cases h
      exact ⟨rfl, noNewPeriod_setState (by simp), by simp⟩
    · cases h
      exact ⟨rfl, noNewPeriod_remove, by simp⟩
    · cases h

theorem cancel_cases {taskId : Nat} {r : Bool × Queue τ} (h : q.cancel taskId = .ok r) :
    r.2.heap = q.heap ∧ NoNewPeriod q r.2 := by
  rw [cancel] at h
  split at h
  · cases h
  · split at h
    · cases h
      exact ⟨rfl, noNewPeriod_setState (by simp)⟩
    · cases h
      exact ⟨rfl, noNewPeriod_setState (by simp)⟩
    · cases h
      refine ⟨rfl, fun i task period hget hstate => ?_⟩
      exact noNewPeriod_setState (by simp) i task period (noNewPeriod_remove i task period hget
        hstate) hstate
    · cases h
      exact ⟨rfl, fun i task period hget _ => hget⟩

theorem afterRun_cases {resume : Resume} (h : q.afterRun exp (some resume) = .ok q') :
    (q'.heap = q.heap ∨ q'.heap = { exp with inner := exp.inner + resume.period } :: q.heap) ∧
      ∀ i task period, q'.tasks.get i = some task → task.state = .periodic period →
        q.tasks.get i = some task ∨ period = resume.period := by
  rw [afterRun] at h
  split at h
  · cases h
  · split at h
    · cases h
    · split at h
      · cases h
        exact ⟨.inl rfl, fun i task period hget hstate =>
          .inl (noNewPeriod_remove i task period hget hstate)⟩
      · obtain ⟨due, hdue, hnext⟩ := ok_of_bind_ok h
        rw [addDuration] at hdue
        split at hdue
        · cases hdue
          cases hnext
          refine ⟨.inr rfl, fun i task period hget hstate => ?_⟩
          rw [get_setState] at hget
          split at hget
          · obtain ⟨old, -, rfl⟩ := Option.map_eq_some_iff.mp hget
            cases hstate
            exact .inr rfl
          · exact .inl hget
        · cases hdue

end Queue

namespace Timers

variable {s s' t u : Timers τ} {log : List (TimerEvent τ)} {exp : Expiration} {now : Instant}
  {e : TimerEvent τ}

/-- No periodic timer is made whose period is 0. -/
def HasPeriod (_ : Timers τ) : TimerAction τ → Prop
  | .addPeriodic _ period _ => period ≠ 0
  | _ => True

instance (s : Timers τ) : ∀ a : TimerAction τ, Decidable (s.HasPeriod a)
  | .addPeriodic _ period _ => inferInstanceAs (Decidable (period ≠ 0))
  | .add _ _ => isTrue trivial
  | .cancel _ => isTrue trivial
  | .poll => isTrue trivial
  | .turn _ _ => isTrue trivial
  | .finish _ => isTrue trivial

/-- The queue is in step, and every periodic timer has a period. -/
structure Periodic (s : Timers τ) : Prop where
  inStep : s.InStep
  period : ∀ i task period, s.queue.tasks.get i = some task → task.state = .periodic period →
    0 < period
  resume : ∀ exp resume, s.poll = .running exp (some resume) → 0 < resume.period

theorem periodic_init : Periodic (init : Timers τ) := by
  have hnone : ∀ i, (init : Timers τ).queue.tasks.get i = none := Slab.get_empty
  refine ⟨inStep_init, ?_, by simp [init]⟩
  intro i task period hget
  rw [hnone] at hget
  cases hget

theorem turn_cases (h : s.turn now exp = some (.ok (e, s'))) :
    (s.queue.heap = [] ∨ exp ∈ s.queue.heap ∧ s.queue.Top exp ∧ now < exp.inner) ∧
        s' = { s with poll := .outside } ∨
      exp ∈ s.queue.heap ∧ exp.inner ≤ now ∧ s'.queue.heap = s.queue.heap.erase exp ∧
        s'.timers = s.timers ∧ Queue.NoNewPeriod s.queue s'.queue ∧
        (s'.poll = s.poll ∨ ∃ resume, s'.poll = .running exp resume ∧
          ∀ r, resume = some r → ∃ task, s.queue.tasks.get exp.taskId = some task ∧
            task.state = .periodic r.period) := by
  rw [turn] at h
  split at h
  · rename_i hnil
    cases h
    exact .inl ⟨.inl hnil, rfl⟩
  · split at h
    · rename_i htop
      split at h
      · rename_i hlt
        cases h
        exact .inl ⟨.inr ⟨htop.1, htop.2, hlt⟩, rfl⟩
      · rename_i hdue
        obtain ⟨⟨task, queue⟩, hexpire, hnext⟩ := ok_of_bind_ok (Option.some.inj h)
        obtain ⟨hheap, hperiod, hresume⟩ := Queue.expire_cases hexpire
        refine .inr ⟨htop.1, Nat.le_of_not_lt hdue, ?_⟩
        rcases task with _ | ⟨task, resume⟩
        · cases hnext
          exact ⟨hheap, rfl, hperiod, .inl rfl⟩
        · cases hnext
          refine ⟨hheap, rfl, hperiod, .inr ⟨resume, rfl, ?_⟩⟩
          rintro r rfl
          exact hresume task r rfl
    · cases h

theorem finish_cases {resume : Option Resume} (h : s.finish exp resume false = .ok (e, s')) :
    s'.poll = .polling ∧ s'.timers = s.timers ∧ s.queue.afterRun exp resume = .ok s'.queue := by
  obtain ⟨queue, hafter, hnext⟩ := ok_of_bind_ok h
  cases hnext
  exact ⟨rfl, rfl, hafter⟩

theorem call_cancel_cases {timer : Handle} (h : s.call (.cancel timer) = some (.ok (e, s'))) :
    timer ∈ s.timers ∧ s'.poll = s.poll ∧ s'.timers = s.timers.erase timer ∧
      s'.queue.heap = s.queue.heap ∧ Queue.NoNewPeriod s.queue s'.queue := by
  rw [call] at h
  split at h
  · rename_i hmem
    obtain ⟨⟨waiting, queue⟩, hcancel, hnext⟩ := ok_of_bind_ok (Option.some.inj h)
    obtain ⟨hheap, hperiod⟩ := Queue.cancel_cases hcancel
    cases hnext
    exact ⟨hmem, rfl, rfl, hheap, hperiod⟩
  · cases h

theorem Periodic.push {due : Instant} {task : τ} {state : TaskState} (h : Periodic s)
    (hstep : InStep (s.added due task (s.queue.push due task state)).2)
    (hstate : ∀ period, state = .periodic period → 0 < period) :
    Periodic (s.added due task (s.queue.push due task state)).2 := by
  refine ⟨hstep, ?_, h.resume⟩
  intro i new period hget hnew
  have hget : (s.queue.push due task state).2.tasks.get i = some new := hget
  rw [Queue.get_push] at hget
  split at hget
  · cases hget
    exact hstate period hnew
  · exact h.period i new period hget hnew

theorem Periodic.call {a : TimerAction τ} (h : Periodic s) (hin : InStep s')
    (hperiod : s.HasPeriod a) (hcall : s.call a = some (.ok (e, s'))) : Periodic s' := by
  cases a with
  | add due task =>
      cases hcall
      exact h.push hin (by simp)
  | addPeriodic due period task =>
      cases hcall
      refine h.push hin fun p hp => ?_
      cases hp
      exact Nat.pos_of_ne_zero hperiod
  | cancel timer =>
      obtain ⟨-, hpoll, -, -, hnew⟩ := call_cancel_cases hcall
      refine ⟨hin, fun i task period hget hstate => ?_, fun exp resume hrun => ?_⟩
      · exact h.period i task period (hnew i task period hget hstate) hstate
      · exact h.resume exp resume (hpoll ▸ hrun)
  | poll => cases hcall
  | turn now exp => cases hcall
  | finish exit => cases hcall

theorem Periodic.turn (h : Periodic s) (hin : InStep s')
    (hturn : s.turn now exp = some (.ok (e, s'))) : Periodic s' := by
  rcases turn_cases hturn with ⟨-, rfl⟩ | ⟨-, -, -, -, hnew, hpoll⟩
  · exact ⟨hin, h.period, by simp⟩
  · refine ⟨hin, fun i task period hget hstate => ?_, fun exp' resume hrun => ?_⟩
    · exact h.period i task period (hnew i task period hget hstate) hstate
    · rcases hpoll with hpoll | ⟨resume', hpoll, hresume⟩
      · exact h.resume exp' resume (hpoll ▸ hrun)
      · rw [hpoll] at hrun
        cases hrun
        obtain ⟨task, hget, hstate⟩ := hresume resume rfl
        exact h.period exp.taskId task _ hget hstate

theorem Periodic.finish {resume : Option Resume} {exit : Bool} (h : Periodic s) (hin : InStep s')
    (hpoll : s.poll = .running exp resume)
    (hfinish : s.finish exp resume exit = .ok (e, s')) : Periodic s' := by
  rcases exit with _ | _
  · obtain ⟨hpoll', -, hafter⟩ := finish_cases hfinish
    refine ⟨hin, fun i task period hget hstate => ?_, fun _ _ hrun => ?_⟩
    · rcases resume with _ | resume
      · have hsame : s.queue = s'.queue := Except.ok.inj hafter
        rw [← hsame] at hget
        exact h.period i task period hget hstate
      · rcases (Queue.afterRun_cases hafter).2 i task period hget hstate with hold | rfl
        · exact h.period i task period hold hstate
        · exact h.resume exp resume hpoll
    · rw [hpoll'] at hrun
      cases hrun
  · cases hfinish
    exact ⟨hin, h.period, by simp⟩

theorem Periodic.step {a : TimerAction τ} (h : Periodic s) (hkept : s.Kept a)
    (hperiod : s.HasPeriod a) (hstep : s.step a = some (.ok (e, s'))) : Periodic s' := by
  have hin := h.inStep.of_step hkept hstep
  unfold Timers.step at hstep
  split at hstep
  · cases hstep
    exact ⟨hin, h.period, by simp⟩
  · exact h.call hin hperiod hstep
  · exact h.turn hin hstep
  · cases hstep
  · rename_i hpoll
    exact h.finish hin hpoll (Option.some.inj hstep)
  · exact h.call hin hperiod hstep

/-- The steps of a call of `poll` whose clock stands still, and of tasks that make no timers and
do not end the loop. -/
def InPoll (now : Instant) (s : Timers τ) (a : TimerAction τ) : Prop :=
  s.poll ≠ .outside ∧ s.Kept a ∧
    match a with
    | .add _ _ | .addPeriodic _ _ _ => False
    | .turn at' _ => at' = now
    | .finish exit => exit = false
    | _ => True

/-- What is left of the time that an entry is overdue by, for each turn and each return from its
task. -/
def overdue (now inner : Nat) : Nat := 2 * (now + 1 - inner)

theorem two_le_overdue {now inner : Nat} (h : inner ≤ now) : 2 ≤ overdue now inner := by
  rw [overdue]
  omega

theorem overdue_add {now inner period : Nat} (h : inner ≤ now) (hpos : 0 < period) :
    overdue now (inner + period) + 2 ≤ overdue now inner := by
  rw [overdue, overdue]
  omega

/-- How many steps are left of the call at most. -/
def stepsLeft (now : Instant) (s : Timers τ) : Nat :=
  (s.queue.heap.map fun exp => overdue now exp.inner).sum + s.timers.length +
    match s.poll with
    | .outside => 0
    | .polling => 1
    | .running exp (some resume) => overdue now (exp.inner + resume.period) + 2
    | .running _ none => 2

theorem Periodic.stepsLeft_turn (h : Periodic s) (hpoll : s.poll = .polling)
    (hturn : s.turn now exp = some (.ok (e, s'))) :
    s'.stepsLeft now < s.stepsLeft now ∧
      (s'.poll = .outside → ∀ exp ∈ s'.queue.heap, now < exp.inner) := by
  rcases turn_cases hturn with ⟨hdue, rfl⟩ | ⟨hmem, hdue, hheap, htimers, -, hnext⟩
  · refine ⟨by simp only [stepsLeft, hpoll]; omega, fun _ other hother => ?_⟩
    rcases hdue with hnil | ⟨-, htop, hlt⟩
    · have hother : other ∈ s.queue.heap := hother
      rw [hnil] at hother
      cases hother
    · exact Nat.lt_of_lt_of_le hlt (htop other hother)
  · have hsum : overdue now exp.inner +
        ((s.queue.heap.erase exp).map fun exp => overdue now exp.inner).sum =
          (s.queue.heap.map fun exp => overdue now exp.inner).sum :=
      List.sum_map_erase (fun exp : Expiration => overdue now exp.inner) hmem
    have hpos := two_le_overdue hdue
    rcases hnext with hnext | ⟨resume, hnext, hresume⟩
    · rw [hpoll] at hnext
      refine ⟨?_, fun hout => by rw [hnext] at hout; cases hout⟩
      simp only [stepsLeft, hpoll, hnext, hheap, htimers]
      omega
    · refine ⟨?_, fun hout => by rw [hnext] at hout; cases hout⟩
      rcases resume with _ | resume
      · simp only [stepsLeft, hpoll, hnext, hheap, htimers]
        omega
      · obtain ⟨task, hget, hstate⟩ := hresume resume rfl
        have hperiod := h.period exp.taskId task _ hget hstate
        have hless := overdue_add hdue hperiod
        simp only [stepsLeft, hpoll, hnext, hheap, htimers]
        omega

theorem stepsLeft_finish {resume : Option Resume} (hpoll : s.poll = .running exp resume)
    (hfinish : s.finish exp resume false = .ok (e, s')) :
    s'.stepsLeft now < s.stepsLeft now ∧ s'.poll = .polling := by
  obtain ⟨hnext, htimers, hafter⟩ := finish_cases hfinish
  refine ⟨?_, hnext⟩
  rcases resume with _ | resume
  · have hsame : s.queue = s'.queue := Except.ok.inj hafter
    simp only [stepsLeft, hpoll, hnext, ← hsame, htimers]
    omega
  · rcases (Queue.afterRun_cases hafter).1 with hheap | hheap
    · simp only [stepsLeft, hpoll, hnext, hheap, htimers]
      omega
    · simp only [stepsLeft, hpoll, hnext, hheap, htimers, List.map_cons, List.sum_cons]
      omega

theorem stepsLeft_cancel {timer : Handle} (hcall : s.call (.cancel timer) = some (.ok (e, s'))) :
    s'.stepsLeft now < s.stepsLeft now ∧ s'.poll = s.poll := by
  obtain ⟨hmem, hnext, htimers, hheap, -⟩ := call_cancel_cases hcall
  have hpos := List.length_pos_of_mem hmem
  refine ⟨?_, hnext⟩
  simp only [stepsLeft, hnext, hheap, htimers, List.length_erase_of_mem hmem]
  omega

theorem Periodic.stepsLeft_lt {a : TimerAction τ} (h : Periodic s) (hin : InPoll now s a)
    (hstep : s.step a = some (.ok (e, s'))) :
    s'.stepsLeft now < s.stepsLeft now ∧
      (s'.poll = .outside → ∀ exp ∈ s'.queue.heap, now < exp.inner) := by
  obtain ⟨hinside, -, hquiet⟩ := hin
  rcases hpoll : s.poll with _ | _ | ⟨exp, resume⟩
  · exact absurd hpoll hinside
  · cases a with
    | turn at' exp =>
        cases hquiet
        simp only [Timers.step, hpoll] at hstep
        exact h.stepsLeft_turn hpoll hstep
    | _ => simp only [Timers.step, hpoll] at hstep; cases hstep
  · cases a with
    | finish exit =>
        cases hquiet
        simp only [Timers.step, hpoll] at hstep
        obtain ⟨hless, hnext⟩ := stepsLeft_finish hpoll (Option.some.inj hstep)
        exact ⟨hless, fun hout => by rw [hnext] at hout; cases hout⟩
    | cancel timer =>
        simp only [Timers.step, hpoll] at hstep
        obtain ⟨hless, hnext⟩ := stepsLeft_cancel hstep
        exact ⟨hless, fun hout => by rw [hnext, hpoll] at hout; cases hout⟩
    | add due task => exact hquiet.elim
    | addPeriodic due period task => exact hquiet.elim
    | _ => simp only [Timers.step, hpoll] at hstep; cases hstep

theorem InStep.goes_on (h : InStep s) (hinside : s.poll ≠ .outside)
    (hkept : s.Kept (.finish false)) (hrange : s.InRange (.finish false)) (now : Instant) :
    ∃ a e s', InPoll now s a ∧ s.step a = some (.ok (e, s')) := by
  rcases hpoll : s.poll with _ | _ | ⟨exp, resume⟩
  · exact absurd hpoll hinside
  · have hturn : ∃ exp r, s.turn now exp = some r := by
      rcases hheap : s.queue.heap with _ | ⟨first, rest⟩
      · exact ⟨⟨now, 0, 0⟩, _, if_pos hheap⟩
      · have hne : s.queue.heap ≠ [] := by
          rw [hheap]
          exact List.cons_ne_nil _ _
        obtain ⟨exp, hmem, htop⟩ : ∃ exp ∈ s.queue.heap, s.queue.Top exp := by
          obtain ⟨exp, hexp⟩ := Option.ne_none_iff_exists'.mp
            (mt List.argmin_eq_none.mp hne : s.queue.heap.argmin Expiration.inner ≠ none)
          exact ⟨exp, List.argmin_mem hexp, fun other hother =>
            List.le_of_mem_argmin hother hexp⟩
        refine ⟨exp, ?_⟩
        rw [Timers.turn, if_neg hne, if_pos ⟨hmem, htop⟩]
        split
        · exact ⟨_, rfl⟩
        · exact ⟨_, rfl⟩
    obtain ⟨exp, r, hturn⟩ := hturn
    obtain ⟨e, s', rfl, -⟩ := h.turn hpoll hturn
    refine ⟨.turn now exp, e, s', ⟨hinside, ?_, rfl⟩, ?_⟩
    · unfold Kept
      rw [hpoll]
      trivial
    · simp only [Timers.step, hpoll]
      exact hturn
  · obtain ⟨e, s', hfinish, -⟩ := h.finish hpoll hkept hrange
    refine ⟨.finish false, e, s', ⟨hinside, hkept, rfl⟩, ?_⟩
    simp only [Timers.step, hpoll]
    exact congrArg some hfinish

/-- A call of `poll` returns: it goes on as long as it has not, and it does not go on for ever;
and it does not return before all that is due has been handled. -/
structure PollReturns (now : Instant) (s : Timers τ) : Prop where
  bounded : ∃ n, ∀ log t, (timersMachine τ).Run (InPoll now) s log t → log.length ≤ n
  goes_on : ∀ log t, (timersMachine τ).Run (InPoll now) s log t → t.poll ≠ .outside →
    t.Kept (.finish false) → t.InRange (.finish false) →
      ∃ a e u, InPoll now t a ∧ t.step a = some (.ok (e, u))
  none_due : ∀ log t, (timersMachine τ).Run (InPoll now) s log t → t.poll = .outside →
    ∀ exp ∈ t.queue.heap, now < exp.inner

theorem Periodic.pollReturns (h : Periodic s) (hinside : s.poll ≠ .outside) (now : Instant) :
    s.PollReturns now := by
  have hrun : ∀ log t, (timersMachine τ).Run (InPoll now) s log t →
      (t.Periodic ∧ (t.poll = .outside → ∀ exp ∈ t.queue.heap, now < exp.inner)) ∧
        log.length + t.stepsLeft now ≤ s.stepsLeft now := by
    intro log t hrun
    refine hrun.length_le (I := fun t => t.Periodic ∧
      (t.poll = .outside → ∀ exp ∈ t.queue.heap, now < exp.inner))
      ⟨h, fun hout => absurd hout hinside⟩ ?_
    intro t a e u hI hin hstep
    have hperiod : t.HasPeriod a := by
      cases a with
      | addPeriodic due period task => exact hin.2.2.elim
      | _ => trivial
    obtain ⟨hlt, hdue⟩ := hI.1.stepsLeft_lt hin hstep
    exact ⟨⟨hI.1.step hin.2.1 hperiod hstep, hdue⟩, hlt⟩
  refine ⟨⟨s.stepsLeft now, fun log t ht => ?_⟩, fun log t ht hinside hkept hrange => ?_,
    fun log t ht => (hrun log t ht).1.2⟩
  · exact Nat.le_of_add_right_le (hrun log t ht).2
  · exact (hrun log t ht).1.1.inStep.goes_on hinside hkept hrange now

end Timers

/-- As long as no periodic timer is made without a period, every call of `poll` returns, with
nothing left that is due. -/
theorem poll_returns {s : Timers τ} {log : List (TimerEvent τ)}
    (h : (timersMachine τ).Run (fun s a => s.Kept a ∧ s.HasPeriod a) .init log s)
    (hinside : s.poll ≠ .outside) (now : Instant) : s.PollReturns now := by
  have hperiodic : s.Periodic := by
    refine h.invariant (I := fun _ s => s.Periodic) Timers.periodic_init ?_
    exact fun hI hallowed hstep => hI.step hallowed.1 hallowed.2 hstep
  exact hperiodic.pollReturns hinside now

theorem poll_returns_of_late :
    ∃ (log : List (TimerEvent Nat)) (s : Timers Nat), s.queue.heap = [⟨1, 0, 0⟩] ∧
      (timersMachine Nat).Run (fun s a => s.Kept a ∧ s.HasPeriod a) .init log s ∧
        s.PollReturns 5 := by
  have hend : ((timersMachine Nat).exec (fun s a => s.Kept a ∧ s.HasPeriod a)
      [.addPeriodic 1 2 7, .poll] .init).map (fun r => (r.2.queue.heap, r.2.poll)) =
        some ([⟨1, 0, 0⟩], .polling) := by
    decide +kernel
  obtain ⟨⟨log, s⟩, hexec, heq⟩ := Option.map_eq_some_iff.mp hend
  obtain ⟨hheap, hpoll⟩ := Prod.mk.inj heq
  have hrun := Base.Machine.Run.of_exec _ hexec
  refine ⟨log, s, hheap, hrun, poll_returns hrun ?_ 5⟩
  rw [hpoll]
  exact PollState.noConfusion

/-- A timer of period 0 is due again as soon as its task has been run. -/
theorem zero_period_polled_for_ever :
    ∃ (log : List (TimerEvent Nat)) (s : Timers Nat),
      (timersMachine Nat).Run Timers.Kept .init log s ∧ s.poll = .polling ∧
        ¬ s.PollReturns 0 := by
  let s : Timers Nat :=
    { (Timers.init.added 0 7 (Timers.init.queue.addPeriodic 0 0 7)).2 with poll := .polling }
  have hreach : (timersMachine Nat).Run Timers.Kept .init [.added 0 0 7, .silent] s := by
    refine Base.Machine.Run.of_exec [.addPeriodic 0 0 7, .poll] ?_
    rfl
  have hturn : ∃ t, (timersMachine Nat).step s (.turn 0 ⟨0, 0, 0⟩) =
        some (.ok (.ran 0 7, t)) ∧
      t.poll = .running ⟨0, 0, 0⟩ (some ⟨0, 4⟩) ∧ t.Kept (.finish false) ∧
        (timersMachine Nat).step t (.finish false) = some (.ok (.silent, s)) :=
    ⟨_, rfl, rfl, ⟨by decide, rfl⟩, rfl⟩
  have hloop : ∀ n, ∃ log, n ≤ log.length ∧
      (timersMachine Nat).Run (Timers.InPoll 0) s log s := by
    intro n
    induction n with
    | zero => exact ⟨[], Nat.le_refl _, .nil⟩
    | succ n ih =>
        obtain ⟨log, hlen, hrun⟩ := ih
        obtain ⟨t, hstep, hpoll, hkept, hback⟩ := hturn
        have hinside : t.poll ≠ .outside := by
          rw [hpoll]
          exact PollState.noConfusion
        refine ⟨log ++ [.ran 0 7] ++ [.silent], ?_, ?_⟩
        · simp only [List.length_append, List.length_singleton]
          omega
        · exact (hrun.snoc ⟨PollState.noConfusion, trivial, rfl⟩ hstep).snoc
            ⟨hinside, hkept, rfl⟩ hback
  refine ⟨_, s, hreach, rfl, fun h => ?_⟩
  obtain ⟨n, hbound⟩ := h.bounded
  obtain ⟨log, hlen, hrun⟩ := hloop (n + 1)
  exact absurd (hbound log s hrun) (Nat.not_le.mpr hlen)

end Ruyi.Reactor.Timer
