import Ruyi.Reactor.LoopTurns

namespace Ruyi.Reactor

namespace EventLoop

variable {s s' t : EventLoop} {caller : Caller}

/-- Wherever the loops of `TaskRunner` and of `tick` go on or stop, they have found out
whether the loop is done. -/
def Prompt (s : EventLoop) : Prop :=
  match s.control with
  | .code _ => True
  | .runTask _ _ => s.done = false
  | .ticker i serial =>
      s.done = true → ∃ taskId, s.tasks.get i = some (.ticker serial (.expired taskId))
  | .tick _ _ _ _ exit => exit = s.done
  | .loop => s.done = !s.phase.running

theorem prompt_follow {i serial : Nat} {current : Fin Wheel.numOfSlots} {exit : Bool}
    {next next' : Wheel.Token} (hcalled : s.Called (.tick i serial current next))
    (hexit : exit = s.done) (h : s.follow i serial current exit next' = .ok s') : Prompt s' := by
  unfold follow at h
  split at h <;> cases h
  · exact hexit
  · exact fun _ => hcalled.caller

theorem prompt_returned {exit : Bool} (hcalled : s.Called caller) (hexit : exit = s.done)
    (h : s.returned exit caller = .ok s') : Prompt s' := by
  cases caller with
  | tick i serial current next => exact prompt_follow hcalled hexit h
  | loop =>
      simp only [returned] at h
      split at h
      · rename_i hstop
        cases h
        rw [hstop] at hexit
        exact hexit.symm
      · rename_i hgo
        have hdone : s.done = false := by
          rw [← hexit]
          exact Bool.eq_false_iff.mpr hgo
        split at h
        · obtain ⟨queue, -, hr⟩ := ok_of_bind_ok h
          cases hr
          exact hdone
        · cases h
          exact hdone
        · cases h
          exact hdone
        · cases h
          show s.done = !s.phase.running
          rw [hdone, hcalled.running]
          rfl

theorem prompt_unspawn {below : Code} (h : s.unspawn below = .ok s') : Prompt s' := by
  unfold unspawn at h
  split at h
  · cases h
  · cases h
    trivial

theorem prompt_finish {c : Code} {ready : Bool} (hcontrol : s.control = .code c) (hshape : Shape s)
    (h : s.finish ready c = some (.ok s')) : Prompt s' := by
  rw [Shape, hcontrol] at hshape
  obtain ⟨hok, -, hsaved⟩ := hshape
  cases c with
  | outside | dropped _ _ _ | spawnedDropped _ _ _ => cases h
  | main caller =>
      obtain ⟨hmain, hrunning, hcaller⟩ := hok
      rw [finish] at h
      split at h
      · have hcalled : Called { s with mainTask := false } caller := ⟨hrunning, hcaller, hsaved⟩
        exact prompt_returned hcalled rfl (Option.some.inj h)
      · refine prompt_returned ⟨hrunning, hcaller, hsaved⟩ ?_ (Option.some.inj h)
        rw [done, hmain]
        rfl
  | task i serial caller =>
      obtain ⟨-, hrunning, hcaller⟩ := hok
      rw [finish] at h
      split at h
      · cases h
        trivial
      · exact prompt_returned ⟨hrunning, hcaller, hsaved⟩ rfl (Option.some.inj h)
  | spawned i serial below =>
      rw [finish] at h
      split at h
      · cases h
        trivial
      · exact prompt_unspawn (Option.some.inj h)

theorem prompt_dropped {c : Code} (hcontrol : s.control = .code c) (hshape : Shape s)
    (h : s.dropped c = some (.ok s')) : Prompt s' := by
  rw [Shape, hcontrol] at hshape
  obtain ⟨hok, -, hsaved⟩ := hshape
  cases c with
  | outside | main _ | task _ _ _ | spawned _ _ _ => cases h
  | dropped i serial caller =>
      exact prompt_returned ⟨hok.1, hok.2, hsaved⟩ rfl (Option.some.inj h)
  | spawnedDropped i serial below => exact prompt_unspawn (Option.some.inj h)

theorem prompt_code {c : Code} (h : s.control = .code c) : Prompt s := by
  rw [Prompt, h]
  trivial

theorem prompt_stepCode {c : Code} {a : LoopAction} (hcontrol : s.control = .code c)
    (hshape : Shape s) (h : s.stepCode c a = some (.ok s')) : Prompt s' := by
  unfold stepCode at h
  split at h
  · obtain ⟨r, -, hr⟩ := Option.map_eq_some_iff.mp h
    obtain ⟨held, -, rfl⟩ := ok_of_map_ok hr
    exact prompt_code hcontrol
  · obtain ⟨held, -, hr⟩ := ok_of_bind_ok (Option.some.inj h)
    cases hr
    refine prompt_code (c := c) ?_
    cases s.held.wheel <;> exact hcontrol
  · cases h
    refine prompt_code (c := c) ?_
    rw [enterGate]
    split <;> exact hcontrol
  · obtain ⟨-, rfl⟩ := leaveGate_ok h
    exact prompt_code hcontrol
  · cases h
    trivial
  · exact prompt_finish hcontrol hshape h
  · exact prompt_dropped hcontrol hshape h
  · cases h

theorem prompt_runTask {w : Waiter} (hgo : s.done = false) (h : s.runTask w caller = .ok s') :
    Prompt s' := by
  have hdone : ∀ {p : Prop}, s.done = true → p := by
    intro p hdone
    rw [hgo] at hdone
    cases hdone
  rw [runTask] at h
  split at h
  · split at h
    · cases h
      trivial
    · cases h
  · split at h
    · cases h
    · cases h
      trivial
    · split at h
      · cases h
        exact hdone
      · cases h

theorem prompt_tick {i serial taskId : Nat} (hgo : s.done = false)
    (hget : s.tasks.get i = some (.ticker serial (.expired taskId)))
    (h : s.tick i serial = .ok s') : Prompt s' := by
  rw [tick] at h
  split at h
  · cases h
  · split at h
    · cases h
      exact fun _ => ⟨taskId, hget⟩
    · cases h
      exact hgo.symm
    · cases h

theorem prompt_stepTicker {i serial : Nat} (hticking : s.Ticking i serial)
    (hprompt : s.done = true → ∃ taskId, s.tasks.get i = some (.ticker serial (.expired taskId)))
    (h : s.stepTicker i serial = .ok s') : Prompt s' := by
  obtain ⟨timer, hget⟩ := hticking.ticker
  rw [stepTicker, hget] at h
  cases timer with
  | unscheduled due period =>
      dsimp only at h
      refine prompt_returned (hticking.called ?_ ?_) ?_ h <;> rfl
  | scheduled taskId =>
      obtain ⟨expired, -, h'⟩ := ok_of_bind_ok h
      split at h'
      · refine prompt_tick (s := s.setTicker i serial (.expired taskId)) ?_
          (get_setTicker_self hget) h'
        show s.done = false
        rw [Bool.eq_false_iff]
        intro hdone
        obtain ⟨id, hexpired⟩ := hprompt hdone
        rw [hget] at hexpired
        cases hexpired
      · exact prompt_returned (hticking.called rfl rfl) rfl h'
  | expired taskId =>
      dsimp only at h
      refine prompt_returned (hticking.called ?_ ?_) ?_ h <;> rfl
  | cancelled => cases h

theorem prompt_visit {i serial timerId : Nat} {current : Fin Wheel.numOfSlots} {exit : Bool}
    {now : Instant} (hcalled : s.Called (.tick i serial current .nil)) (hexit : exit = s.done)
    (h : s.visit i serial current timerId exit now = .ok s') : Prompt s' := by
  have hfollow : ∀ {inner : Wheel.Inner Waiter} {next : Wheel.Token},
      (s.setWheel inner).follow i serial current exit next = .ok s' → Prompt s' := by
    intro inner next hnext
    have hwheel : (s.setWheel inner).Called (.tick i serial current .nil) :=
      ⟨hcalled.running, hcalled.caller, hcalled.stack⟩
    exact prompt_follow hwheel hexit hnext
  rw [visit] at h
  split at h
  · cases h
  · obtain ⟨⟨next, expiration, task, inner⟩, -, h'⟩ := ok_of_bind_ok h
    dsimp only at h'
    split at h'
    · exact hfollow h'
    · rename_i hgo
      have hrun : Prompt
          { s.setWheel inner with control := .runTask task (.tick i serial current next) } := by
        show s.done = false
        rw [← hexit]
        exact Bool.eq_false_iff.mpr hgo
      split at h'
      · split at h'
        · obtain ⟨inner', -, h''⟩ := ok_of_bind_ok h'
          exact hfollow h''
        · cases h'
          exact hrun
      · cases h'
        exact hrun

theorem prompt_loop (hcontrol : s.control = .loop) (h : s.done = !s.phase.running) : Prompt s := by
  rw [Prompt, hcontrol]
  exact h

theorem prompt_timers {now : Instant} {exp : Timer.Expiration} (hcontrol : s.control = .loop)
    (hphase : s.phase = .timers) (hgo : s.done = false)
    (h : s.timers now exp = some (.ok s')) : Prompt s' := by
  rw [timers] at h
  split at h
  · cases h
    exact prompt_loop hcontrol hgo
  · split at h
    · split at h
      · cases h
        exact prompt_loop hcontrol hgo
      · obtain ⟨⟨task, queue⟩, -, h'⟩ := ok_of_bind_ok (Option.some.inj h)
        cases task with
        | none =>
            cases h'
            refine prompt_loop hcontrol ?_
            show s.done = !s.phase.running
            rw [hgo, hphase]
            rfl
        | some task =>
            cases h'
            exact hgo
    · cases h

theorem prompt_event {rest : List Pending} (hcontrol : s.control = .loop) (hgo : s.done = false)
    (h : s.event rest = .ok s') : Prompt s' := by
  cases rest with
  | nil =>
      cases h
      exact prompt_loop hcontrol hgo
  | cons p rest =>
      rw [event] at h
      split at h
      · cases h
      · dsimp only at h
        split at h <;> cases h <;> exact hgo

theorem gate_of_done (h : s.done = true) : s.mainTask = false ∧ s.gate = 0 := by
  rw [done, Bool.and_eq_true, Bool.not_eq_true', beq_iff_eq] at h
  exact h

theorem prompt_stepLoop {a : LoopAction} (hcontrol : s.control = .loop)
    (hprompt : s.done = !s.phase.running) (h : s.stepLoop s.phase a = some (.ok s')) :
    Prompt s' := by
  unfold stepLoop at h
  split at h <;> rename_i hphase
  · rw [hphase] at hprompt
    exact prompt_timers hcontrol hphase hprompt h
  · cases h
  · rw [hphase] at hprompt
    obtain ⟨rest, -, hr⟩ := Option.map_eq_some_iff.mp h
    cases hr
    exact prompt_loop hcontrol hprompt
  · rw [hphase] at hprompt
    exact prompt_event hcontrol hprompt (Option.some.inj h)
  · rw [hphase] at hprompt
    obtain ⟨queue, -, hr⟩ := ok_of_bind_ok (Option.some.inj h)
    cases hr
    exact prompt_loop hcontrol hprompt
  · split at h
    · obtain ⟨r, -, hr⟩ := Option.map_eq_some_iff.mp h
      obtain ⟨held, -, rfl⟩ := ok_of_map_ok hr
      exact prompt_loop hcontrol hprompt
    · cases h
  · rw [hphase] at hprompt
    obtain ⟨hgate, -⟩ := leaveGate_ok h
    exact absurd (gate_of_done hprompt).2 hgate
  · cases h

theorem prompt_step {a : LoopAction} {e : LoopEvent} (hshape : Shape s) (hprompt : Prompt s)
    (h : s.step a = some (.ok (e, s'))) : Prompt s' := by
  cases steps_of_step h with
  | start hcontrol => trivial
  | code hcontrol hstep => exact prompt_stepCode hcontrol hshape hstep
  | runTask hcontrol hstep =>
      rw [Prompt, hcontrol] at hprompt
      exact prompt_runTask hprompt hstep
  | ticker hcontrol hstep =>
      rw [Shape, hcontrol] at hshape
      rw [Prompt, hcontrol] at hprompt
      exact prompt_stepTicker hshape hprompt hstep
  | visit hcontrol hstep =>
      rw [Shape, hcontrol] at hshape
      rw [Prompt, hcontrol] at hprompt
      exact prompt_visit hshape hprompt hstep
  | loop hcontrol hstep =>
      rw [Prompt, hcontrol] at hprompt
      exact prompt_stepLoop hcontrol hprompt hstep
  | cleared hcontrol hphase => trivial

/-- The loop is done, and it is not the code of a task that runs. -/
structure Winding (s : EventLoop) : Prop where
  done : s.done = true
  code : ∀ c, s.control ≠ .code c
  runTask : ∀ w caller, s.control ≠ .runTask w caller

theorem control_follow {i serial : Nat} {current : Fin Wheel.numOfSlots} {exit : Bool}
    {next : Wheel.Token} (h : s.follow i serial current exit next = .ok s') (c : Code) :
    s'.control ≠ .code c := by
  unfold follow at h
  split at h <;> cases h <;> rintro ⟨⟩

theorem control_returned {exit : Bool} (h : s.returned exit caller = .ok s') (c : Code) :
    s'.control ≠ .code c := by
  cases caller with
  | tick i serial current next => exact control_follow h c
  | loop =>
      simp only [returned] at h
      split at h
      · cases h
        rintro ⟨⟩
      · split at h
        · obtain ⟨queue, -, hr⟩ := ok_of_bind_ok h
          cases hr
          rintro ⟨⟩
        all_goals
          cases h
          rintro ⟨⟩

theorem winding_of_prompt (hprompt : Prompt s) (hdone : s.done = true)
    (hcode : ∀ c, s.control ≠ .code c) : Winding s := by
  refine ⟨hdone, hcode, ?_⟩
  intro w caller hcontrol
  rw [Prompt, hcontrol, hdone] at hprompt
  cases hprompt

theorem control_tick {i serial : Nat} (h : s.tick i serial = .ok s') (c : Code) :
    s'.control ≠ .code c := by
  rw [tick] at h
  split at h
  · cases h
  · split at h <;> cases h <;> rintro ⟨⟩

theorem control_stepTicker {i serial : Nat} (h : s.stepTicker i serial = .ok s') (c : Code) :
    s'.control ≠ .code c := by
  unfold stepTicker at h
  split at h
  · exact control_returned h c
  · obtain ⟨expired, -, h'⟩ := ok_of_bind_ok h
    split at h'
    · exact control_tick h' c
    · exact control_returned h' c
  · exact control_returned h c
  · cases h
  · cases h

theorem control_visit {i serial timerId : Nat} {current : Fin Wheel.numOfSlots} {exit : Bool}
    {now : Instant} (h : s.visit i serial current timerId exit now = .ok s') (c : Code) :
    s'.control ≠ .code c := by
  rw [visit] at h
  split at h
  · cases h
  · obtain ⟨⟨next, expiration, task, inner⟩, -, h'⟩ := ok_of_bind_ok h
    dsimp only at h'
    split at h'
    · exact control_follow h' c
    · split at h'
      · split at h'
        · obtain ⟨inner', -, h''⟩ := ok_of_bind_ok h'
          exact control_follow h'' c
        · cases h'
          rintro ⟨⟩
      · cases h'
        rintro ⟨⟩

theorem Turned.done (h : Turned s s') : s'.done = s.done := by
  rw [EventLoop.done, EventLoop.done, h.mainTask, h.gate]

theorem done_stepTicker {i serial : Nat} (h : s.stepTicker i serial = .ok s') :
    s'.mainTask = s.mainTask ∧ s'.gate = s.gate := by
  cases ticked_stepTicker h with
  | same h => exact ⟨h.mainTask, h.gate⟩
  | changed timer _ h => exact ⟨h.mainTask, h.gate⟩
  | first hget h => exact ⟨h.mainTask, h.gate⟩

theorem winding_stepLoop {a : LoopAction} (hcontrol : s.control = .loop)
    (hprompt : s.done = !s.phase.running) (hdone : s.done = true)
    (h : s.stepLoop s.phase a = some (.ok s')) : s'.done = true ∧ s'.control = .loop := by
  have hstopped : ∀ {phase : Phase} {p : Prop}, s.phase = phase → phase.running = true → p := by
    intro phase p hphase hrunning
    rw [hphase, hrunning, hdone] at hprompt
    cases hprompt
  unfold stepLoop at h
  split at h <;> rename_i hphase
  · exact hstopped hphase rfl
  · exact hstopped hphase rfl
  · exact hstopped hphase rfl
  · exact hstopped hphase rfl
  · obtain ⟨queue, -, hr⟩ := ok_of_bind_ok (Option.some.inj h)
    cases hr
    exact ⟨hdone, hcontrol⟩
  · split at h
    · obtain ⟨r, -, hr⟩ := Option.map_eq_some_iff.mp h
      obtain ⟨held, -, rfl⟩ := ok_of_map_ok hr
      exact ⟨hdone, hcontrol⟩
    · cases h
  · exact absurd (gate_of_done hdone).2 (leaveGate_ok h).1
  · cases h

theorem winding_step {a : LoopAction} {e : LoopEvent} (hshape : Shape s) (hprompt : Prompt s)
    (hwinding : Winding s) (h : s.step a = some (.ok (e, s'))) :
    e = .returned ∨ (∀ w, e ≠ .ran w) ∧ Winding s' := by
  have hprompt' := prompt_step hshape hprompt h
  cases steps_of_step h with
  | start hcontrol => exact absurd hcontrol (hwinding.code _)
  | code hcontrol hstep => exact absurd hcontrol (hwinding.code _)
  | runTask hcontrol hstep => exact absurd hcontrol (hwinding.runTask _ _)
  | ticker hcontrol hstep =>
      obtain ⟨hmain, hgate⟩ := done_stepTicker hstep
      refine .inr ⟨by simp, winding_of_prompt hprompt' ?_ (control_stepTicker hstep)⟩
      rw [done, hmain, hgate]
      exact hwinding.done
  | visit hcontrol hstep =>
      refine .inr ⟨by simp, winding_of_prompt hprompt' ?_ (control_visit hstep)⟩
      rw [(turned_visit hstep).done]
      exact hwinding.done
  | loop hcontrol hstep =>
      rw [Prompt, hcontrol] at hprompt
      obtain ⟨hdone, hloop⟩ := winding_stepLoop hcontrol hprompt hwinding.done hstep
      refine .inr ⟨by simp, winding_of_prompt hprompt' hdone ?_⟩
      rw [hloop]
      exact fun _ => by simp
  | cleared hcontrol hphase => exact .inl rfl

/-- The main task stays completed, and no gate is entered. -/
def Closed (s s' : EventLoop) : Prop := s'.mainTask = false ∧ s'.gate ≤ s.gate

theorem closed_of_eq (hmain : s.mainTask = false) (hmain' : s'.mainTask = s.mainTask)
    (hgate : s'.gate = s.gate) : Closed s s' :=
  ⟨hmain'.trans hmain, Nat.le_of_eq hgate⟩

theorem Turned.closed (h : Turned s s') (hmain : s.mainTask = false) : Closed s s' :=
  closed_of_eq hmain h.mainTask h.gate

theorem closed_unspawn {below : Code} (hmain : s.mainTask = false)
    (h : s.unspawn below = .ok s') : Closed s s' := by
  unfold unspawn at h
  split at h
  · cases h
  · cases h
    exact closed_of_eq hmain rfl rfl

theorem closed_finish {c : Code} {ready : Bool} (hmain : s.mainTask = false)
    (h : s.finish ready c = some (.ok s')) : Closed s s' := by
  cases c with
  | outside | dropped _ _ _ | spawnedDropped _ _ _ => cases h
  | main caller =>
      rw [finish] at h
      split at h
      · have hturned := turned_returned (Option.some.inj h)
        exact ⟨hturned.mainTask, Nat.le_of_eq hturned.gate⟩
      · exact (turned_returned (Option.some.inj h)).closed hmain
  | task i serial caller =>
      rw [finish] at h
      split at h
      · cases h
        exact closed_of_eq hmain rfl rfl
      · exact (turned_returned (Option.some.inj h)).closed hmain
  | spawned i serial below =>
      rw [finish] at h
      split at h
      · cases h
        exact closed_of_eq hmain rfl rfl
      · exact closed_unspawn hmain (Option.some.inj h)

theorem closed_stepCode {c : Code} {a : LoopAction} (hmain : s.mainTask = false)
    (h : s.stepCode c a = some (.ok s')) : Closed s s' := by
  unfold stepCode at h
  split at h
  · obtain ⟨r, -, hr⟩ := Option.map_eq_some_iff.mp h
    obtain ⟨held, -, rfl⟩ := ok_of_map_ok hr
    exact closed_of_eq hmain rfl rfl
  · obtain ⟨held, -, hr⟩ := ok_of_bind_ok (Option.some.inj h)
    cases hr
    cases s.held.wheel <;> exact closed_of_eq hmain rfl rfl
  · cases h
    rw [enterGate, hmain]
    exact closed_of_eq hmain rfl rfl
  · obtain ⟨-, rfl⟩ := leaveGate_ok h
    exact ⟨hmain, Nat.sub_le _ _⟩
  · cases h
    exact closed_of_eq hmain rfl rfl
  · exact closed_finish hmain h
  · unfold dropped at h
    split at h
    · exact (turned_returned (Option.some.inj h)).closed hmain
    · exact closed_unspawn hmain (Option.some.inj h)
    · cases h
  · cases h

theorem closed_stepLoop {a : LoopAction} (hmain : s.mainTask = false)
    (h : s.stepLoop s.phase a = some (.ok s')) : Closed s s' := by
  unfold stepLoop at h
  split at h
  · exact (turned_timers h).closed hmain
  · cases h
  · obtain ⟨rest, -, hr⟩ := Option.map_eq_some_iff.mp h
    cases hr
    exact closed_of_eq hmain rfl rfl
  · rename_i rest hphase
    cases rest with
    | nil =>
        cases h
        exact closed_of_eq hmain rfl rfl
    | cons p rest => exact (turned_event hphase (Option.some.inj h)).closed hmain
  · obtain ⟨queue, -, hr⟩ := ok_of_bind_ok (Option.some.inj h)
    cases hr
    exact closed_of_eq hmain rfl rfl
  · split at h
    · obtain ⟨r, -, hr⟩ := Option.map_eq_some_iff.mp h
      obtain ⟨held, -, rfl⟩ := ok_of_map_ok hr
      exact closed_of_eq hmain rfl rfl
    · cases h
  · obtain ⟨-, rfl⟩ := leaveGate_ok h
    exact ⟨hmain, Nat.sub_le _ _⟩
  · cases h

theorem closed_step {a : LoopAction} {e : LoopEvent} (hmain : s.mainTask = false)
    (h : s.step a = some (.ok (e, s'))) : e = .started ∨ Closed s s' := by
  cases steps_of_step h with
  | start hcontrol => exact .inl rfl
  | code hcontrol hstep => exact .inr (closed_stepCode hmain hstep)
  | runTask hcontrol hstep => exact .inr ((turned_runTask hstep).closed hmain)
  | ticker hcontrol hstep =>
      obtain ⟨hmain', hgate⟩ := done_stepTicker hstep
      exact .inr (closed_of_eq hmain hmain' hgate)
  | visit hcontrol hstep => exact .inr ((turned_visit hstep).closed hmain)
  | loop hcontrol hstep => exact .inr (closed_stepLoop hmain hstep)
  | cleared hcontrol hphase => exact .inr ⟨rfl, Nat.le_refl _⟩

end EventLoop

open EventLoop

/-- A run in which every step is allowed. -/
abbrev LoopRun (s : EventLoop) (log : List LoopEvent) (t : EventLoop) : Prop :=
  loopMachine.Run (fun _ _ => True) s log t

variable {s s' t : EventLoop} {log : List LoopEvent}

theorem shape_of_run (h : LoopRun .init log s) : Shape s ∧ Prompt s := by
  refine h.invariant (I := fun _ s => Shape s ∧ Prompt s) ⟨shape_init, trivial⟩ ?_
  intro log t a e u hinv _ hstep
  exact ⟨shape_step hinv.1 hstep, prompt_step hinv.1 hinv.2 hstep⟩

theorem closed_of_run (hmain : s.mainTask = false) (h : LoopRun s log t)
    (hstarted : .started ∉ log) : Closed s t := by
  refine h.invariant (I := fun log t => .started ∉ log → Closed s t)
    (fun _ => ⟨hmain, Nat.le_refl _⟩) ?_ hstarted
  intro log t a e u hinv _ hstep hstarted
  rw [List.mem_append, not_or] at hstarted
  obtain ⟨hmain, hgate⟩ := hinv hstarted.1
  rcases closed_step hmain hstep with rfl | hclosed
  · exact absurd List.mem_cons_self hstarted.2
  · exact ⟨hclosed.1, Nat.le_trans hclosed.2 hgate⟩

theorem winding_of_run (hshape : Shape s) (hprompt : Prompt s) (hwinding : Winding s)
    (h : LoopRun s log t) (hreturned : .returned ∉ log) (w : Waiter) : .ran w ∉ log := by
  have hinv := h.invariant (I := fun log t => .returned ∉ log →
    Shape t ∧ Prompt t ∧ Winding t ∧ .ran w ∉ log) ?_ ?_ hreturned
  · exact hinv.2.2.2
  · exact fun _ => ⟨hshape, hprompt, hwinding, List.not_mem_nil⟩
  · intro log t a e u hinv _ hstep hreturned
    rw [List.mem_append, not_or] at hreturned
    obtain ⟨hshape, hprompt, hwinding, hran⟩ := hinv hreturned.1
    rcases winding_step hshape hprompt hwinding hstep with rfl | ⟨hne, hwinding'⟩
    · exact absurd List.mem_cons_self hreturned.2
    · refine ⟨shape_step hshape hstep, prompt_step hshape hprompt hstep, hwinding', ?_⟩
      rw [List.mem_append, not_or]
      exact ⟨hran, fun hmem => hne w (List.mem_singleton.mp hmem).symm⟩

/-- The step that ends the completion of a task that `run`, `Queue::poll` or `Inner::tick` has
dispatched: the last one of the drop of what it held. -/
inductive EventLoop.Completes (s : EventLoop) : LoopAction → Prop where
  | main {caller : Caller} (hcontrol : s.control = .code (.main caller)) :
      Completes s (.finish true)
  | task {i serial : Nat} {caller : Caller}
      (hcontrol : s.control = .code (.dropped i serial caller)) : Completes s .dropped

theorem winding_of_completes {a : LoopAction} {e : LoopEvent} (hshape : Shape s)
    (hprompt : Prompt s) (hcompletes : s.Completes a) (h : s.step a = some (.ok (e, s')))
    (hdone : s'.done = true) : Winding s' := by
  refine winding_of_prompt (prompt_step hshape hprompt h) hdone ?_
  cases hcompletes with
  | main hcontrol =>
      cases steps_of_step h with
      | code hcode hstep =>
          rw [hcontrol] at hcode
          cases hcode
          exact control_returned (Option.some.inj hstep)
      | loop hloop hstep =>
          rw [hcontrol] at hloop
          cases hloop
  | task hcontrol =>
      cases steps_of_step h with
      | code hcode hstep =>
          rw [hcontrol] at hcode
          cases hcode
          exact control_returned (Option.some.inj hstep)
      | loop hloop hstep =>
          rw [hcontrol] at hloop
          cases hloop

theorem done_of_returned {a : LoopAction} (hprompt : Prompt s)
    (h : s.step a = some (.ok (.returned, s'))) : s.mainTask = false ∧ s.gate = 0 := by
  cases steps_of_step h with
  | cleared hcontrol hphase =>
      rw [Prompt, hcontrol, hphase] at hprompt
      exact gate_of_done hprompt

/-- Graceful shutdown: a run of the loop returns only when its main task has completed and no
gate is held, no gate is entered once the main task has completed, and when the completion of
a task leaves no gate, no task is run before the run of the loop returns. -/
theorem graceful_shutdown (h : LoopRun .init log s) :
    (∀ a s', s.step a = some (.ok (.returned, s')) → s.mainTask = false ∧ s.gate = 0) ∧
      (s.mainTask = false → ∀ log' t, LoopRun s log' t → .started ∉ log' →
        t.enterGate = (false, t) ∧ t.gate ≤ s.gate) ∧
      ∀ a e s', s.Completes a → s.step a = some (.ok (e, s')) → s'.done = true →
        ∀ log' t, LoopRun s' log' t → .returned ∉ log' → ∀ w, .ran w ∉ log' := by
  obtain ⟨hshape, hprompt⟩ := shape_of_run h
  refine ⟨fun a s' => done_of_returned hprompt, ?_, ?_⟩
  · intro hmain log' t hrun hstarted
    obtain ⟨hmain', hgate⟩ := closed_of_run hmain hrun hstarted
    refine ⟨?_, hgate⟩
    rw [enterGate, hmain']
    rfl
  · intro a e s' hcompletes hstep hdone log' t hrun hreturned w
    have hwinding := winding_of_completes hshape hprompt hcompletes hstep hdone
    exact winding_of_run (shape_step hshape hstep) (prompt_step hshape hprompt hstep) hwinding
      hrun hreturned w

theorem graceful_shutdown_of_gate :
    ∃ (log : List LoopEvent) (s : EventLoop) (e : LoopEvent) (s' : EventLoop),
      LoopRun .init log s ∧ s.Completes .dropped ∧ s.step .dropped = some (.ok (e, s')) ∧
        s'.done = true ∧
        ∀ log' t, LoopRun s' log' t → .returned ∉ log' → ∀ w, .ran w ∉ log' := by
  let as : List LoopAction :=
    [.start, .enterGate, .spawn, .call (.register (.ok ())),
      .call (.scheduleRead ⟨0, ⟨false, false⟩⟩ (.ok ())), .finish false, .finish true,
      .timers 0 ⟨0, 0, 0⟩, .wait (some [⟨0, true, false⟩]), .event, .runTask, .leaveGate,
      .finish true]
  have hend : ((loopMachine.exec (fun _ _ => True) as EventLoop.init).map fun r =>
      (r.2.control, (r.2.step .dropped).map fun r => r.toOption.map fun r => r.2.done)) =
        some (.code (.dropped 0 0 .loop), some (some true)) := by
    decide +kernel
  obtain ⟨⟨log, s⟩, hexec, heq⟩ := Option.map_eq_some_iff.mp hend
  obtain ⟨hcontrol, hdropped⟩ := Prod.mk.inj heq
  obtain ⟨r, hstep, hr⟩ := Option.map_eq_some_iff.mp hdropped
  cases r with
  | error fault => cases hr
  | ok r =>
      have hdone : r.2.done = true := Option.some.inj hr
      have hrun : LoopRun .init log s := .of_exec as hexec
      exact ⟨log, s, r.1, r.2, hrun, .task hcontrol, hstep, hdone,
        (graceful_shutdown hrun).2.2 _ _ _ (.task hcontrol) hstep hdone⟩

end Ruyi.Reactor
