import Ruyi.Reactor.EventLoop

namespace Ruyi.Reactor

variable {tasks tasks' : Slab Task} {mainTask : Bool} {phase : Phase} {s s' : EventLoop}
  {caller : Caller}

/-- The phases between the start of a run and the end of its loop. -/
def Phase.running : Phase → Bool
  | .outside | .stopped | .clearing => false
  | _ => true

/-- A ticker that waits for a `run_task` is still there, as it was when its timer expired. -/
def Caller.Ok (tasks : Slab Task) : Caller → Prop
  | .loop => True
  | .tick i serial _ _ => ∃ taskId, tasks.get i = some (.ticker serial (.expired taskId))

namespace Code

/-- The id that is the current one while this code runs. -/
def current : Code → TaskId
  | .outside | .main _ => none
  | .task i _ _ | .dropped i _ _ | .spawned i _ _ | .spawnedDropped i _ _ => some i

/-- The ids saved by the calls of `spawn` under way. -/
def saved : Code → List TaskId
  | .spawned _ _ below | .spawnedDropped _ _ below => below.current :: below.saved
  | _ => []

/-- The ids of the tasks being polled. -/
def polled : Code → List Nat
  | .task i _ _ => [i]
  | .spawned i _ below => i :: below.polled
  | .spawnedDropped _ _ below => below.polled
  | _ => []

/-- The tasks being polled are still there, each under an id of its own. -/
def Ok (tasks : Slab Task) (mainTask : Bool) (phase : Phase) : Code → Prop
  | .outside => phase = .outside
  | .main caller => mainTask = true ∧ phase.running = true ∧ caller.Ok tasks
  | .task i serial caller =>
      tasks.get i = some (.user serial) ∧ phase.running = true ∧ caller.Ok tasks
  | .dropped _ _ caller => phase.running = true ∧ caller.Ok tasks
  | .spawned i serial below =>
      tasks.get i = some (.user serial) ∧ i ∉ below.polled ∧ below.Ok tasks mainTask phase
  | .spawnedDropped _ _ below => below.Ok tasks mainTask phase

end Code

namespace EventLoop

/-- A `run_task` called by `caller` may go on. -/
structure Called (s : EventLoop) (caller : Caller) : Prop where
  running : s.phase.running = true
  caller : caller.Ok s.tasks
  stack : s.spawnStack = []

/-- The ticker may go on. -/
structure Ticking (s : EventLoop) (i serial : Nat) : Prop where
  running : s.phase.running = true
  ticker : ∃ timer, s.tasks.get i = some (.ticker serial timer)
  stack : s.spawnStack = []

/-- What the control, the current task and the spawn stack say agrees with the tasks. -/
def Shape (s : EventLoop) : Prop :=
  match s.control with
  | .code c =>
      c.Ok s.tasks s.mainTask s.phase ∧ s.currentTask = c.current ∧ s.spawnStack = c.saved
  | .runTask _ caller => s.Called caller
  | .ticker i serial => s.Ticking i serial
  | .tick i serial current _ _ => s.Called (.tick i serial current .nil)
  | .loop => s.phase ≠ .outside ∧ s.spawnStack = []

end EventLoop

theorem Caller.Ok.of_get (h : caller.Ok tasks)
    (htasks : ∀ i serial timer, tasks.get i = some (.ticker serial timer) →
      tasks'.get i = some (.ticker serial timer)) : caller.Ok tasks' := by
  cases caller with
  | loop => trivial
  | tick i serial current next =>
      obtain ⟨taskId, hget⟩ := h
      exact ⟨taskId, htasks i serial _ hget⟩

theorem Code.Ok.get_of_mem {c : Code} (h : c.Ok tasks mainTask phase) {i : Nat}
    (hi : i ∈ c.polled) : ∃ serial, tasks.get i = some (.user serial) := by
  induction c with
  | outside | main _ | dropped _ _ _ => cases hi
  | task j serial caller =>
      rw [List.mem_singleton.mp hi]
      exact ⟨serial, h.1⟩
  | spawned j serial below ih =>
      rcases List.mem_cons.mp hi with rfl | hi
      · exact ⟨serial, h.1⟩
      · exact ih h.2.2 hi
  | spawnedDropped j serial below ih => exact ih h hi

theorem Code.Ok.of_get {c : Code} (h : c.Ok tasks mainTask phase)
    (htickers : ∀ i serial timer, tasks.get i = some (.ticker serial timer) →
      tasks'.get i = some (.ticker serial timer))
    (husers : ∀ i ∈ c.polled, tasks'.get i = tasks.get i) : c.Ok tasks' mainTask phase := by
  induction c with
  | outside => exact h
  | main caller => exact ⟨h.1, h.2.1, h.2.2.of_get htickers⟩
  | dropped i serial caller => exact ⟨h.1, h.2.of_get htickers⟩
  | task i serial caller =>
      refine ⟨?_, h.2.1, h.2.2.of_get htickers⟩
      rw [husers i List.mem_cons_self]
      exact h.1
  | spawned i serial below ih =>
      refine ⟨?_, h.2.1, ih h.2.2 fun j hj => husers j (List.mem_cons_of_mem _ hj)⟩
      rw [husers i List.mem_cons_self]
      exact h.1
  | spawnedDropped i serial below ih => exact ih h husers

theorem get_insert_of_some {i : Nat} {task : Task} (h : tasks.get i = some task) (new : Task) :
    (tasks.insert new).2.get i = some task := by
  rw [Slab.get_insert, if_neg]
  · exact h
  · rintro rfl
    rw [Slab.get_insert_fst] at h
    cases h

theorem get_remove_of_ne {i j : Nat} (hne : j ≠ i) : (tasks.remove i).2.get j = tasks.get j := by
  rw [Slab.get_remove, if_neg hne]

theorem ticker_remove {i serial : Nat} (hi : tasks.get i = some (.user serial)) {j n : Nat}
    {timer : Timer.PeriodicState} (hj : tasks.get j = some (.ticker n timer)) :
    (tasks.remove i).2.get j = some (.ticker n timer) := by
  rw [get_remove_of_ne, hj]
  rintro rfl
  rw [hi] at hj
  cases hj

namespace EventLoop

theorem shape_init : Shape init := ⟨rfl, rfl, rfl⟩

theorem shape_unspawn {below : Code} (hbelow : below.Ok s.tasks s.mainTask s.phase)
    (hstack : s.spawnStack = below.current :: below.saved) (h : s.unspawn below = .ok s') :
    Shape s' := by
  rw [unspawn, hstack] at h
  cases h
  exact ⟨hbelow, rfl, rfl⟩

theorem shape_follow {i serial : Nat} {current : Fin Wheel.numOfSlots} {exit : Bool}
    {next next' : Wheel.Token} (hcalled : s.Called (.tick i serial current next))
    (h : s.follow i serial current exit next' = .ok s') : Shape s' := by
  obtain ⟨hrunning, ⟨taskId, hget⟩, hstack⟩ := hcalled
  unfold follow at h
  split at h <;> cases h
  · exact ⟨hrunning, ⟨taskId, hget⟩, hstack⟩
  · exact ⟨hrunning, ⟨_, hget⟩, hstack⟩

theorem shape_returned {exit : Bool} (hcalled : s.Called caller)
    (h : s.returned exit caller = .ok s') : Shape s' := by
  cases caller with
  | tick i serial current next => exact shape_follow hcalled h
  | loop =>
      have hphase : s.phase ≠ .outside := by
        intro hout
        have hrun := hcalled.running
        rw [hout] at hrun
        cases hrun
      simp only [returned] at h
      split at h
      · cases h
        exact ⟨by simp, hcalled.stack⟩
      · split at h
        · obtain ⟨queue, -, hr⟩ := ok_of_bind_ok h
          cases hr
          exact ⟨by simp, hcalled.stack⟩
        · cases h
          exact ⟨rfl, trivial, hcalled.stack⟩
        · cases h
          exact ⟨by simp, hcalled.stack⟩
        · cases h
          exact ⟨hphase, hcalled.stack⟩

theorem shape_finish {c : Code} {ready : Bool} (hcontrol : s.control = .code c) (hshape : Shape s)
    (h : s.finish ready c = some (.ok s')) : Shape s' := by
  rw [Shape, hcontrol] at hshape
  obtain ⟨hok, hcurrent, hsaved⟩ := hshape
  cases c with
  | outside | dropped _ _ _ | spawnedDropped _ _ _ => cases h
  | main caller =>
      obtain ⟨hmain, hrunning, hcaller⟩ := hok
      rw [finish] at h
      split at h
      · have hcalled : Called { s with mainTask := false } caller := ⟨hrunning, hcaller, hsaved⟩
        exact shape_returned hcalled (Option.some.inj h)
      · exact shape_returned ⟨hrunning, hcaller, hsaved⟩ (Option.some.inj h)
  | task i serial caller =>
      obtain ⟨hget, hrunning, hcaller⟩ := hok
      rw [finish] at h
      split at h
      · cases h
        exact ⟨⟨hrunning, hcaller.of_get fun _ _ _ => ticker_remove hget⟩, hcurrent, hsaved⟩
      · exact shape_returned ⟨hrunning, hcaller, hsaved⟩ (Option.some.inj h)
  | spawned i serial below =>
      obtain ⟨hget, hfresh, hbelow⟩ := hok
      rw [finish] at h
      split at h
      · cases h
        refine ⟨hbelow.of_get (fun _ _ _ => ticker_remove hget) ?_, hcurrent, hsaved⟩
        intro j hj
        exact get_remove_of_ne fun heq => hfresh (heq ▸ hj)
      · exact shape_unspawn hbelow hsaved (Option.some.inj h)

theorem shape_dropped {c : Code} (hcontrol : s.control = .code c) (hshape : Shape s)
    (h : s.dropped c = some (.ok s')) : Shape s' := by
  rw [Shape, hcontrol] at hshape
  obtain ⟨hok, -, hsaved⟩ := hshape
  cases c with
  | outside | main _ | task _ _ _ | spawned _ _ _ => cases h
  | dropped i serial caller => exact shape_returned ⟨hok.1, hok.2, hsaved⟩ (Option.some.inj h)
  | spawnedDropped i serial below =>
      have hbelow : below.Ok s.tasks s.mainTask s.phase := hok
      exact shape_unspawn hbelow hsaved (Option.some.inj h)

theorem shape_spawn {c : Code} (hcontrol : s.control = .code c) (hshape : Shape s) :
    Shape (s.spawn c) := by
  rw [Shape, hcontrol] at hshape
  obtain ⟨hok, hcurrent, hsaved⟩ := hshape
  have hfresh := Slab.get_insert_fst s.tasks (.user s.spawned)
  refine ⟨⟨?_, ?_, ?_⟩, rfl, ?_⟩
  · rw [spawn, Slab.get_insert, if_pos rfl]
  · intro hmem
    obtain ⟨serial, hget⟩ := hok.get_of_mem hmem
    rw [hfresh] at hget
    cases hget
  · refine hok.of_get (fun i serial timer hget => get_insert_of_some hget _) ?_
    intro i hi
    obtain ⟨serial, hget⟩ := hok.get_of_mem hi
    rw [spawn, get_insert_of_some hget, hget]
  · rw [spawn, hcurrent, hsaved]
    rfl

/-- The ticker that `initWheel` leaves in the slab, with its id. -/
def newTicker (s : EventLoop) (now : Instant) : Nat × Task :=
  let inserted := s.tasks.insert (.ticker s.spawned (.unscheduled (now + fromSecs 1) (fromSecs 1)))
  let added := s.held.queue.addPeriodic (now + fromSecs 1) (fromSecs 1)
    ⟨some inserted.1, some s.spawned⟩
  (inserted.1, .ticker s.spawned (.scheduled added.1))

theorem get_newTicker (s : EventLoop) (now : Instant) :
    s.tasks.get (s.newTicker now).1 = none := Slab.get_insert_fst _ _

theorem tasks_initWheel (s : EventLoop) (now : Instant) (j : Nat) :
    (s.initWheel now).tasks.get j =
      if j = (s.newTicker now).1 then some (s.newTicker now).2 else s.tasks.get j := by
  rw [initWheel, Slab.get_modify]
  split <;> rename_i hj
  · rw [Slab.get_insert, if_pos rfl, if_pos (show j = (s.newTicker now).1 from hj)]
    rfl
  · rw [Slab.get_insert, if_neg hj, if_neg (show j ≠ (s.newTicker now).1 from hj)]

theorem get_initWheel {i : Nat} {task : Task} {now : Instant} (h : s.tasks.get i = some task) :
    (s.initWheel now).tasks.get i = some task := by
  rw [tasks_initWheel, if_neg]
  · exact h
  · rintro rfl
    rw [get_newTicker] at h
    cases h

theorem ticker_initWheel (s : EventLoop) (now : Instant) :
    ∃ i timer, (s.initWheel now).tasks.get i = some (.ticker s.spawned timer) :=
  ⟨_, _, (tasks_initWheel s now _).trans (if_pos rfl)⟩

theorem shape_initWheel {c : Code} {now : Instant} (hcontrol : s.control = .code c)
    (hshape : Shape s) : Shape (s.initWheel now) := by
  rw [Shape, hcontrol] at hshape
  obtain ⟨hok, hcurrent, hsaved⟩ := hshape
  simp only [Shape, initWheel, hcontrol]
  refine ⟨hok.of_get ?_ ?_, hcurrent, hsaved⟩
  · exact fun i serial timer hget => get_initWheel (s := s) hget
  · intro i hi
    obtain ⟨serial, hget⟩ := hok.get_of_mem hi
    rw [hget]
    exact get_initWheel (s := s) hget

theorem shape_of_eq (hshape : Shape s) (htasks : s'.tasks = s.tasks)
    (hcurrent : s'.currentTask = s.currentTask) (hstack : s'.spawnStack = s.spawnStack)
    (hmain : s'.mainTask = s.mainTask) (hphase : s'.phase = s.phase)
    (hcontrol : s'.control = s.control) : Shape s' := by
  obtain ⟨tasks, current, stack, gate, main, held, spawned, runs, wheelRun, phase, control⟩ := s
  obtain ⟨tasks', current', stack', gate', main', held', spawned', runs', wheelRun', phase',
    control'⟩ := s'
  simp only at htasks hcurrent hstack hmain hphase hcontrol
  subst htasks hcurrent hstack hmain hphase hcontrol
  cases control' with
  | code c => exact hshape
  | runTask w caller => exact ⟨hshape.1, hshape.2, hshape.3⟩
  | ticker i serial => exact ⟨hshape.1, hshape.2, hshape.3⟩
  | tick i serial current timerId exit => exact ⟨hshape.1, hshape.2, hshape.3⟩
  | loop => exact hshape

theorem shape_sleep {c : Code} {now : Instant} {dur : Duration} (hcontrol : s.control = .code c)
    (hshape : Shape s) (h : s.sleep c now dur = .ok s') : Shape s' := by
  obtain ⟨held, -, hr⟩ := ok_of_bind_ok h
  cases hr
  cases s.held.wheel with
  | some inner => exact shape_of_eq hshape rfl rfl rfl rfl rfl rfl
  | none =>
      have hinit : Shape (s.initWheel now) := shape_initWheel hcontrol hshape
      exact shape_of_eq hinit rfl rfl rfl rfl rfl rfl

theorem shape_runTask {w : Waiter} (hcalled : s.Called caller)
    (h : s.runTask w caller = .ok s') : Shape s' := by
  rw [runTask] at h
  split at h
  · rename_i hmain
    split at h
    · rename_i hsome
      cases h
      exact ⟨⟨hsome, hcalled.running, hcalled.caller⟩, hmain, hcalled.stack⟩
    · cases h
  · rename_i i hi
    split at h
    · cases h
    · rename_i serial hget
      cases h
      exact ⟨⟨hget, hcalled.running, hcalled.caller⟩, hi, hcalled.stack⟩
    · rename_i serial timer hget
      split at h
      · cases h
        exact ⟨hcalled.running, ⟨timer, hget⟩, hcalled.stack⟩
      · cases h

theorem shape_tick {i serial taskId : Nat} (hrunning : s.phase.running = true)
    (hget : s.tasks.get i = some (.ticker serial (.expired taskId))) (hstack : s.spawnStack = [])
    (h : s.tick i serial = .ok s') : Shape s' := by
  rw [tick] at h
  split at h
  · cases h
  · split at h
    · cases h
      exact ⟨hrunning, ⟨_, hget⟩, hstack⟩
    · cases h
      exact ⟨hrunning, ⟨taskId, hget⟩, hstack⟩
    · cases h

theorem get_setTicker {i serial : Nat} {timer : Timer.PeriodicState} (j : Nat) :
    (s.setTicker i serial timer).tasks.get j =
      if j = i then (s.tasks.get i).map fun _ => .ticker serial timer else s.tasks.get j := by
  rw [setTicker, Slab.get_modify]

theorem get_setTicker_self {i serial : Nat} {timer timer' : Timer.PeriodicState}
    (hi : s.tasks.get i = some (.ticker serial timer)) :
    (s.setTicker i serial timer').tasks.get i = some (.ticker serial timer') := by
  rw [get_setTicker, if_pos rfl, hi]
  rfl

theorem Ticking.called {i serial : Nat} (hticking : s.Ticking i serial) {t : EventLoop}
    (hphase : t.phase = s.phase) (hstack : t.spawnStack = s.spawnStack) : t.Called .loop := by
  refine ⟨?_, trivial, ?_⟩
  · rw [hphase]
    exact hticking.running
  · rw [hstack]
    exact hticking.stack

theorem shape_stepTicker {i serial : Nat} (hticking : s.Ticking i serial)
    (h : s.stepTicker i serial = .ok s') : Shape s' := by
  obtain ⟨timer, hget⟩ := hticking.ticker
  rw [stepTicker, hget] at h
  cases timer with
  | unscheduled due period =>
      dsimp only at h
      refine shape_returned (hticking.called ?_ ?_) h <;> rfl
  | scheduled taskId =>
      obtain ⟨expired, -, h'⟩ := ok_of_bind_ok h
      split at h'
      · exact shape_tick (s := s.setTicker i serial (.expired taskId)) hticking.running
          (get_setTicker_self hget) hticking.stack h'
      · exact shape_returned (hticking.called rfl rfl) h'
  | expired taskId =>
      dsimp only at h
      refine shape_returned (hticking.called ?_ ?_) h <;> rfl
  | cancelled => cases h

theorem shape_visit {i serial timerId : Nat} {current : Fin Wheel.numOfSlots} {exit : Bool}
    {now : Instant} (hcalled : s.Called (.tick i serial current .nil))
    (h : s.visit i serial current timerId exit now = .ok s') : Shape s' := by
  have hfollow : ∀ {inner : Wheel.Inner Waiter} {next : Wheel.Token},
      (s.setWheel inner).follow i serial current exit next = .ok s' → Shape s' := by
    intro inner next hnext
    have hwheel : (s.setWheel inner).Called (.tick i serial current .nil) :=
      ⟨hcalled.running, hcalled.caller, hcalled.stack⟩
    exact shape_follow hwheel hnext
  rw [visit] at h
  split at h
  · cases h
  · obtain ⟨⟨next, expiration, task, inner⟩, -, h'⟩ := ok_of_bind_ok h
    have hrun : Shape
        { s.setWheel inner with control := .runTask task (.tick i serial current next) } :=
      ⟨hcalled.running, hcalled.caller, hcalled.stack⟩
    dsimp only at h'
    split at h'
    · exact hfollow h'
    · split at h'
      · split at h'
        · obtain ⟨inner', -, h''⟩ := ok_of_bind_ok h'
          exact hfollow h''
        · cases h'
          exact hrun
      · cases h'
        exact hrun

theorem shape_timers {now : Instant} {exp : Timer.Expiration} (hphase : s.phase = .timers)
    (hstack : s.spawnStack = []) (hcontrol : s.control = .loop)
    (h : s.timers now exp = some (.ok s')) : Shape s' := by
  have hloop : ∀ {s' : EventLoop}, s'.control = .loop → s'.phase ≠ .outside →
      s'.spawnStack = [] → Shape s' := by
    intro s' hcontrol hphase hstack
    rw [Shape, hcontrol]
    exact ⟨hphase, hstack⟩
  rw [timers] at h
  split at h
  · cases h
    exact hloop hcontrol (by simp) hstack
  · split at h
    · split at h
      · cases h
        exact hloop hcontrol (by simp) hstack
      · obtain ⟨⟨task, queue⟩, -, h'⟩ := ok_of_bind_ok (Option.some.inj h)
        cases task with
        | none =>
            cases h'
            refine hloop hcontrol ?_ hstack
            show s.phase ≠ .outside
            rw [hphase]
            simp
        | some task =>
            cases h'
            exact ⟨rfl, trivial, hstack⟩
    · cases h

theorem shape_event {rest : List Pending} (hphase : s.phase = .events rest)
    (hstack : s.spawnStack = []) (hcontrol : s.control = .loop)
    (h : s.event rest = .ok s') : Shape s' := by
  cases rest with
  | nil =>
      cases h
      rw [Shape, hcontrol]
      exact ⟨by simp, hstack⟩
  | cons p rest =>
      rw [event] at h
      split at h
      · cases h
      · dsimp only at h
        split at h <;> cases h <;> exact ⟨rfl, trivial, hstack⟩

theorem silent_ok {r : Except Fault EventLoop} {e : LoopEvent} (h : silent r = .ok (e, s')) :
    e = .silent ∧ r = .ok s' := by
  cases r with
  | error fault => cases h
  | ok t =>
      cases h
      exact ⟨rfl, rfl⟩

/-- The steps of a run, by who makes them. -/
inductive Steps (s : EventLoop) : LoopAction → LoopEvent → EventLoop → Prop where
  | start (hcontrol : s.control = .code .outside) :
      Steps s .start .started
        { s with mainTask := true, phase := .starting, control := .code (.main .loop) }
  | code {c : Code} {a : LoopAction} {s' : EventLoop} (hcontrol : s.control = .code c)
      (hstep : s.stepCode c a = some (.ok s')) : Steps s a .silent s'
  | runTask {w : Waiter} {caller : Caller} {s' : EventLoop}
      (hcontrol : s.control = .runTask w caller) (hstep : s.runTask w caller = .ok s') :
      Steps s .runTask (.ran w) s'
  | ticker {i serial : Nat} {s' : EventLoop} (hcontrol : s.control = .ticker i serial)
      (hstep : s.stepTicker i serial = .ok s') : Steps s .ticker .silent s'
  | visit {i serial timerId : Nat} {current : Fin Wheel.numOfSlots} {exit : Bool}
      {now : Instant} {s' : EventLoop} (hcontrol : s.control = .tick i serial current timerId exit)
      (hstep : s.visit i serial current timerId exit now = .ok s') :
      Steps s (.visit now) .silent s'
  | loop {a : LoopAction} {s' : EventLoop} (hcontrol : s.control = .loop)
      (hstep : s.stepLoop s.phase a = some (.ok s')) : Steps s a .silent s'
  | cleared (hcontrol : s.control = .loop) (hphase : s.phase = .clearing) :
      Steps s .cleared .returned
        { s with
          currentTask := none
          mainTask := false
          phase := .outside
          control := .code .outside }

theorem steps_code {c : Code} {a : LoopAction} {e : LoopEvent} (hcontrol : s.control = .code c)
    (h : (s.stepCode c a).map silent = some (.ok (e, s'))) : Steps s a e s' := by
  obtain ⟨r, hstep, hr⟩ := Option.map_eq_some_iff.mp h
  obtain ⟨rfl, rfl⟩ := silent_ok hr
  exact .code hcontrol hstep

theorem steps_loop {a : LoopAction} {e : LoopEvent} (hcontrol : s.control = .loop)
    (h : (s.stepLoop s.phase a).map silent = some (.ok (e, s'))) : Steps s a e s' := by
  obtain ⟨r, hstep, hr⟩ := Option.map_eq_some_iff.mp h
  obtain ⟨rfl, rfl⟩ := silent_ok hr
  exact .loop hcontrol hstep

theorem steps_of_step {a : LoopAction} {e : LoopEvent} (h : s.step a = some (.ok (e, s'))) :
    Steps s a e s' := by
  unfold step at h
  split at h
  · rename_i hcontrol
    cases h
    exact .start hcontrol
  · exact steps_code (by assumption) h
  · rename_i w caller hcontrol
    cases hstep : s.runTask w caller with
    | error fault =>
        rw [hstep] at h
        cases h
    | ok t =>
        rw [hstep] at h
        cases h
        exact .runTask hcontrol hstep
  · rename_i hcontrol
    obtain ⟨rfl, hstep⟩ := silent_ok (Option.some.inj h)
    exact .ticker hcontrol hstep
  · rename_i hcontrol
    obtain ⟨rfl, hstep⟩ := silent_ok (Option.some.inj h)
    exact .visit hcontrol hstep
  · rename_i hcontrol
    split at h
    · rename_i hphase
      cases h
      exact .cleared hcontrol hphase
    · cases h
  · exact steps_loop (by assumption) h
  · cases h

theorem shape_call {a : Call} {current : Waiter} (hshape : Shape s)
    (h : (s.held.call current a).map (fun r => r.map fun held => { s with held := held }) =
      some (.ok s')) : Shape s' := by
  obtain ⟨r, -, hr⟩ := Option.map_eq_some_iff.mp h
  cases r with
  | error fault => cases hr
  | ok held =>
      cases hr
      exact shape_of_eq hshape rfl rfl rfl rfl rfl rfl

theorem shape_enterGate (hshape : Shape s) : Shape s.enterGate.2 := by
  rw [enterGate]
  split
  · exact shape_of_eq hshape rfl rfl rfl rfl rfl rfl
  · exact hshape

theorem leaveGate_ok
    (h : s.leaveGate.map (Except.ok (ε := Fault)) = some (.ok s')) :
    s.gate ≠ 0 ∧ s' = { s with gate := s.gate - 1 } := by
  obtain ⟨t, ht, heq⟩ := Option.map_eq_some_iff.mp h
  cases heq
  rw [leaveGate] at ht
  split at ht
  · cases ht
  · rename_i hgate
    cases ht
    exact ⟨hgate, rfl⟩

theorem shape_leaveGate (hshape : Shape s)
    (h : s.leaveGate.map (Except.ok (ε := Fault)) = some (.ok s')) : Shape s' := by
  obtain ⟨-, rfl⟩ := leaveGate_ok h
  exact shape_of_eq hshape rfl rfl rfl rfl rfl rfl

theorem shape_stepCode {c : Code} {a : LoopAction} (hcontrol : s.control = .code c)
    (hshape : Shape s) (h : s.stepCode c a = some (.ok s')) : Shape s' := by
  unfold stepCode at h
  split at h
  · exact shape_call hshape h
  · exact shape_sleep hcontrol hshape (Option.some.inj h)
  · cases h
    exact shape_enterGate hshape
  · exact shape_leaveGate hshape h
  · cases h
    exact shape_spawn hcontrol hshape
  · exact shape_finish hcontrol hshape h
  · exact shape_dropped hcontrol hshape h
  · cases h

theorem shape_stepLoop {a : LoopAction} (hcontrol : s.control = .loop) (hshape : Shape s)
    (h : s.stepLoop s.phase a = some (.ok s')) : Shape s' := by
  have hstack : s.spawnStack = [] := by
    rw [Shape, hcontrol] at hshape
    exact hshape.2
  unfold stepLoop at h
  split at h
  · exact shape_timers (by assumption) hstack hcontrol h
  · cases h
  · obtain ⟨rest, -, hr⟩ := Option.map_eq_some_iff.mp h
    cases hr
    rw [Shape, hcontrol]
    exact ⟨by simp, hstack⟩
  · exact shape_event (by assumption) hstack hcontrol (Option.some.inj h)
  · obtain ⟨queue, -, hr⟩ := ok_of_bind_ok (Option.some.inj h)
    cases hr
    rw [Shape, setQueue, hcontrol]
    exact ⟨by simp, hstack⟩
  · split at h
    · exact shape_call hshape h
    · cases h
  · exact shape_leaveGate hshape h
  · cases h

theorem shape_step {a : LoopAction} {e : LoopEvent} (hshape : Shape s)
    (h : s.step a = some (.ok (e, s'))) : Shape s' := by
  cases steps_of_step h with
  | start hcontrol =>
      rw [Shape, hcontrol] at hshape
      exact ⟨⟨rfl, rfl, trivial⟩, hshape.2⟩
  | code hcontrol hstep => exact shape_stepCode hcontrol hshape hstep
  | runTask hcontrol hstep =>
      rw [Shape, hcontrol] at hshape
      exact shape_runTask hshape hstep
  | ticker hcontrol hstep =>
      rw [Shape, hcontrol] at hshape
      exact shape_stepTicker hshape hstep
  | visit hcontrol hstep =>
      rw [Shape, hcontrol] at hshape
      exact shape_visit hshape hstep
  | loop hcontrol hstep => exact shape_stepLoop hcontrol hshape hstep
  | cleared hcontrol hphase =>
      rw [Shape, hcontrol] at hshape
      exact ⟨rfl, rfl, hshape.2⟩

end EventLoop

end Ruyi.Reactor
