import Ruyi.Reactor.LoopExit

namespace Ruyi.Reactor

variable {ρ : Type}

/-- `MainTask`: whether the future is still there, and what it has resolved to. -/
structure MainTask (ρ : Type) where
  inner : Bool
  ret : Option ρ

namespace MainTask

def new : MainTask ρ := ⟨true, none⟩

/-- `poll`, with the answer of the future. -/
def poll (main : MainTask ρ) (answer : Async ρ) : Except Fault (Bool × MainTask ρ) :=
  if main.inner then
    match answer with
    | .notReady => .ok (false, main)
    | .ready r => .ok (true, ⟨false, some r⟩)
  else .error .panic

def takeResult (main : MainTask ρ) : Except Fault (ρ × MainTask ρ) :=
  match main.ret with
  | some r => .ok (r, { main with ret := none })
  | none => .error .panic

end MainTask

/-- A thread that runs futures on its event loop, one after the other. -/
structure Runner (ρ : Type) where
  eloop : EventLoop
  main : MainTask ρ

/-- A step of the event loop, or the answer to a poll of the future that is run. -/
inductive RunnerAction (ρ : Type) where
  | loop (a : LoopAction)
  | answer (answer : Async ρ)

inductive RunnerEvent (ρ : Type) where
  | loop (e : LoopEvent)
  | polled (answer : Async ρ)
  | returned (result : ρ)

/-- The main task is being polled. -/
def EventLoop.pollsMain (s : EventLoop) : Bool :=
  match s.control with
  | .code (.main _) => true
  | _ => false

namespace Runner

def init : Runner ρ := ⟨.init, false, none⟩

/-- A step of the event loop which is none of `MainTask`. -/
def stepLoop (s : Runner ρ) (a : LoopAction) :
    Option (Except Fault (RunnerEvent ρ × Runner ρ)) :=
  (s.eloop.step a).map fun r => r.map fun r => (.loop r.1, { s with eloop := r.2 })

/-- The next step.  `EventLoop::run` makes the main task at its start, and takes the result at its
end. -/
def step (s : Runner ρ) :
    RunnerAction ρ → Option (Except Fault (RunnerEvent ρ × Runner ρ))
  | .loop .start => stepLoop { s with main := .new } .start
  | .loop .cleared =>
      (s.eloop.step .cleared).map fun r => do
        let (_, eloop) ← r
        let (result, main) ← s.main.takeResult
        .ok (.returned result, ⟨eloop, main⟩)
  | .loop (.finish ready) => if s.eloop.pollsMain then none else s.stepLoop (.finish ready)
  | .loop a => s.stepLoop a
  | .answer answer =>
      if s.eloop.pollsMain then
        match s.main.poll answer with
        | .error fault => some (.error fault)
        | .ok (ready, main) =>
            (s.eloop.step (.finish ready)).map fun r =>
              r.map fun r => (.polled answer, ⟨r.2, main⟩)
      else none

end Runner

def runnerMachine (ρ : Type) :
    Base.Machine (Runner ρ) (RunnerAction ρ) (RunnerEvent ρ) Fault := ⟨Runner.step⟩

/-- What the future has resolved to in the run that is under way. -/
def resolved : List (RunnerEvent ρ) → Option ρ :=
  List.foldl (fun result e =>
    match e with
    | .loop .started | .returned _ => none
    | .polled (.ready r) => some r
    | _ => result) none

namespace EventLoop

variable {s s' : EventLoop} {a : LoopAction} {e : LoopEvent}

/-- A step that leaves the main task alone, and starts no run. -/
structure Aside (s s' : EventLoop) : Prop where
  mainTask : s'.mainTask = s.mainTask
  outside : s.phase = .outside → s'.phase = .outside

theorem Turned.aside (h : Turned s s') (hrunning : s.phase.running = true) : Aside s s' where
  mainTask := h.mainTask
  outside hphase := by
    rw [hphase] at hrunning
    cases hrunning

theorem aside_unspawn {below : Code} (h : s.unspawn below = .ok s') : Aside s s' := by
  unfold unspawn at h
  split at h
  · cases h
  · cases h
    exact ⟨rfl, id⟩

theorem aside_finish {c : Code} {ready : Bool} (hshape : Shape s) (hcontrol : s.control = .code c)
    (hmain : s.pollsMain = false) (h : s.finish ready c = some (.ok s')) : Aside s s' := by
  rw [Shape, hcontrol] at hshape
  cases c with
  | outside | dropped _ _ _ | spawnedDropped _ _ _ => cases h
  | main caller =>
      rw [pollsMain, hcontrol] at hmain
      cases hmain
  | task i serial caller =>
      rw [finish] at h
      split at h
      · cases h
        exact ⟨rfl, id⟩
      · exact (turned_returned (Option.some.inj h)).aside hshape.1.2.1
  | spawned i serial below =>
      rw [finish] at h
      split at h
      · cases h
        exact ⟨rfl, id⟩
      · exact aside_unspawn (Option.some.inj h)

theorem aside_stepCode {c : Code} (hshape : Shape s) (hcontrol : s.control = .code c)
    (hmain : ∀ ready, a = .finish ready → s.pollsMain = false)
    (h : s.stepCode c a = some (.ok s')) : Aside s s' := by
  unfold stepCode at h
  split at h
  · obtain ⟨r, -, hr⟩ := Option.map_eq_some_iff.mp h
    obtain ⟨held, -, rfl⟩ := ok_of_map_ok hr
    exact ⟨rfl, id⟩
  · obtain ⟨held, -, hr⟩ := ok_of_bind_ok (Option.some.inj h)
    cases hr
    cases s.held.wheel <;> exact ⟨rfl, id⟩
  · cases h
    rw [enterGate]
    split <;> exact ⟨rfl, id⟩
  · obtain ⟨-, rfl⟩ := leaveGate_ok h
    exact ⟨rfl, id⟩
  · cases h
    exact ⟨rfl, id⟩
  · exact aside_finish hshape hcontrol (hmain _ rfl) h
  · rw [Shape, hcontrol] at hshape
    unfold dropped at h
    split at h
    · exact (turned_returned (Option.some.inj h)).aside hshape.1.1
    · exact aside_unspawn (Option.some.inj h)
    · cases h
  · cases h

theorem mainTask_stepLoop (h : s.stepLoop s.phase a = some (.ok s')) :
    s'.mainTask = s.mainTask := by
  unfold stepLoop at h
  split at h
  · exact (turned_timers h).mainTask
  · cases h
  · obtain ⟨rest, -, hr⟩ := Option.map_eq_some_iff.mp h
    cases hr
    rfl
  · rename_i rest hphase
    cases rest with
    | nil =>
        cases h
        rfl
    | cons p rest => exact (turned_event hphase (Option.some.inj h)).mainTask
  · obtain ⟨queue, -, hr⟩ := ok_of_bind_ok (Option.some.inj h)
    cases hr
    rfl
  · split at h
    · obtain ⟨r, -, hr⟩ := Option.map_eq_some_iff.mp h
      obtain ⟨held, -, rfl⟩ := ok_of_map_ok hr
      rfl
    · cases h
  · obtain ⟨-, rfl⟩ := leaveGate_ok h
    rfl
  · cases h

theorem aside_step (hshape : Shape s) (hstart : a ≠ .start) (hcleared : a ≠ .cleared)
    (hmain : ∀ ready, a = .finish ready → s.pollsMain = false)
    (h : s.step a = some (.ok (e, s'))) : Aside s s' := by
  have hsteps := steps_of_step h
  cases hsteps with
  | start hcontrol => exact absurd rfl hstart
  | code hcontrol hstep => exact aside_stepCode hshape hcontrol hmain hstep
  | runTask hcontrol hstep =>
      rw [Shape, hcontrol] at hshape
      exact (turned_runTask hstep).aside hshape.running
  | ticker hcontrol hstep =>
      rw [Shape, hcontrol] at hshape
      refine ⟨(done_stepTicker hstep).1, fun hphase => ?_⟩
      have hrunning := hshape.running
      rw [hphase] at hrunning
      cases hrunning
  | visit hcontrol hstep =>
      rw [Shape, hcontrol] at hshape
      exact (turned_visit hstep).aside hshape.running
  | loop hcontrol hstep =>
      rw [Shape, hcontrol] at hshape
      exact ⟨mainTask_stepLoop hstep, fun hphase => absurd hphase hshape.1⟩
  | cleared hcontrol hphase => exact absurd rfl hcleared

theorem start_of_started (h : s.step a = some (.ok (.started, s'))) : a = .start := by
  have hsteps := steps_of_step h
  cases hsteps with
  | start => rfl

theorem step_start {r : Except Fault (LoopEvent × EventLoop)} (h : s.step .start = some r) :
    r = .ok (.started,
      { s with mainTask := true, phase := .starting, control := .code (.main .loop) }) := by
  unfold step at h
  split at h
  · cases h
    rfl
  · cases h
  · contradiction
  · contradiction
  · contradiction
  · contradiction
  · cases hphase : s.phase <;> rw [hphase] at h <;> cases h
  · cases h

theorem step_cleared {r : Except Fault (LoopEvent × EventLoop)} (h : s.step .cleared = some r) :
    s.control = .loop ∧ s.phase = .clearing ∧
      r = .ok (.returned,
        { s with
          currentTask := none
          mainTask := false
          phase := .outside
          control := .code .outside }) := by
  unfold step at h
  split at h
  · contradiction
  · cases h
  · contradiction
  · contradiction
  · contradiction
  · rename_i hcontrol _
    split at h
    · rename_i hphase
      cases h
      exact ⟨hcontrol, hphase, rfl⟩
    · cases h
  · contradiction
  · cases h

theorem mainTask_answer {ready : Bool} (hmain : s.pollsMain = true)
    (h : s.step (.finish ready) = some (.ok (e, s'))) :
    s'.mainTask = (!ready && s.mainTask) := by
  have hcontrol : ∃ caller, s.control = .code (.main caller) := by
    unfold pollsMain at hmain
    split at hmain
    · exact ⟨_, by assumption⟩
    · cases hmain
  obtain ⟨caller, hcontrol⟩ := hcontrol
  have hsteps := steps_of_step h
  cases hsteps with
  | loop hloop _ =>
      rw [hcontrol] at hloop
      cases hloop
  | code hcode hstep =>
      rw [hcontrol] at hcode
      cases hcode
      have hstep : s.finish ready (.main caller) = some (.ok s') := hstep
      rw [finish] at hstep
      cases ready with
      | true => exact (turned_returned (Option.some.inj hstep)).mainTask
      | false => exact (turned_returned (Option.some.inj hstep)).mainTask

end EventLoop

namespace Runner

variable {s t : Runner ρ} {log : List (RunnerEvent ρ)} {e : RunnerEvent ρ}

/-- The main task, the event loop and the events agree. -/
structure Agrees (log : List (RunnerEvent ρ)) (s : Runner ρ) : Prop where
  shape : s.eloop.Shape
  prompt : s.eloop.Prompt
  inner : s.main.inner = s.eloop.mainTask
  ret : s.main.ret = resolved log
  waits : s.main.inner = true → s.main.ret = none
  done : s.eloop.phase ≠ .outside → s.main.inner = false → s.main.ret.isSome = true

theorem agrees_init : Agrees [] (init : Runner ρ) where
  shape := EventLoop.shape_init
  prompt := trivial
  inner := rfl
  ret := rfl
  waits := nofun
  done h := absurd rfl h

theorem resolved_concat (log : List (RunnerEvent ρ)) (e : RunnerEvent ρ) :
    resolved (log ++ [e]) =
      match e with
      | .loop .started | .returned _ => none
      | .polled (.ready r) => some r
      | _ => resolved log := by
  rw [resolved, List.foldl_append, List.foldl_cons, List.foldl_nil]

theorem Agrees.inner_of_polls (h : Agrees log s) (hpolls : s.eloop.pollsMain = true) :
    s.main.inner = true := by
  rw [h.inner]
  have hshape := h.shape
  unfold EventLoop.pollsMain at hpolls
  split at hpolls
  · rename_i caller hcontrol
    rw [EventLoop.Shape, hcontrol] at hshape
    exact hshape.1.1
  · cases hpolls

theorem Agrees.start (h : Agrees log s) (hstep : s.step (.loop .start) = some (.ok (e, t))) :
    Agrees (log ++ [e]) t := by
  obtain ⟨r, hloop, hr⟩ := Option.map_eq_some_iff.mp hstep
  have hstarted := EventLoop.step_start hloop
  subst hstarted
  cases hr
  refine ⟨EventLoop.shape_step h.shape hloop, EventLoop.prompt_step h.shape h.prompt hloop, rfl,
    ?_, fun _ => rfl, fun _ => nofun⟩
  rw [resolved_concat]
  rfl

theorem Agrees.aside (h : Agrees log s) {a : LoopAction}
    (hstep : s.stepLoop a = some (.ok (e, t))) (hstart : a ≠ .start) (hcleared : a ≠ .cleared)
    (hmain : ∀ ready, a = .finish ready → s.eloop.pollsMain = false) : Agrees (log ++ [e]) t := by
  obtain ⟨r, hloop, hr⟩ := Option.map_eq_some_iff.mp hstep
  obtain ⟨⟨e', eloop⟩, rfl, heq⟩ := ok_of_map_ok hr
  cases heq
  have haside := EventLoop.aside_step h.shape hstart hcleared hmain hloop
  have hsame : resolved (log ++ [.loop e']) = resolved log := by
    rw [resolved_concat]
    cases e' with
    | started => exact absurd (EventLoop.start_of_started hloop) hstart
    | _ => rfl
  constructor
  · exact EventLoop.shape_step h.shape hloop
  · exact EventLoop.prompt_step h.shape h.prompt hloop
  · exact h.inner.trans haside.mainTask.symm
  · exact h.ret.trans hsame.symm
  · exact h.waits
  · exact fun hphase => h.done fun houtside => hphase (haside.outside houtside)

theorem Agrees.answer (h : Agrees log s) {answer : Async ρ}
    (hstep : s.step (.answer answer) = some (.ok (e, t))) : Agrees (log ++ [e]) t := by
  rw [step] at hstep
  split at hstep
  · rename_i hpolls
    have hinner := h.inner_of_polls hpolls
    cases answer with
    | notReady =>
        have hpoll : s.main.poll .notReady = .ok (false, s.main) := if_pos hinner
        rw [hpoll] at hstep
        obtain ⟨r, hloop, hr⟩ := Option.map_eq_some_iff.mp hstep
        obtain ⟨⟨e', eloop⟩, rfl, heq⟩ := ok_of_map_ok hr
        cases heq
        refine ⟨EventLoop.shape_step h.shape hloop, EventLoop.prompt_step h.shape h.prompt hloop,
          ?_, ?_, h.waits, ?_⟩
        · exact h.inner.trans (EventLoop.mainTask_answer hpolls hloop).symm
        · rw [resolved_concat]
          exact h.ret
        · intro _ hgone
          cases hinner.symm.trans hgone
    | ready r =>
        have hpoll : s.main.poll (.ready r) = .ok (true, ⟨false, some r⟩) := if_pos hinner
        rw [hpoll] at hstep
        obtain ⟨r', hloop, hr⟩ := Option.map_eq_some_iff.mp hstep
        obtain ⟨⟨e', eloop⟩, rfl, heq⟩ := ok_of_map_ok hr
        cases heq
        refine ⟨EventLoop.shape_step h.shape hloop, EventLoop.prompt_step h.shape h.prompt hloop,
          ?_, ?_, nofun, fun _ _ => rfl⟩
        · exact (EventLoop.mainTask_answer hpolls hloop).symm
        · rw [resolved_concat]
  · cases hstep

theorem Agrees.cleared (h : Agrees log s) {r : Except Fault (RunnerEvent ρ × Runner ρ)}
    (hstep : s.step (.loop .cleared) = some r) :
    ∃ result t, r = .ok (.returned result, t) ∧ resolved log = some result ∧
      Agrees (log ++ [.returned result]) t := by
  obtain ⟨r, hloop, rfl⟩ := Option.map_eq_some_iff.mp hstep
  obtain ⟨-, hphase, rfl⟩ := EventLoop.step_cleared hloop
  have hgone : s.main.inner = false := by
    rw [h.inner]
    exact (done_of_returned h.prompt hloop).1
  have hinside : s.eloop.phase ≠ .outside := by
    rw [hphase]
    exact nofun
  obtain ⟨result, hret⟩ := Option.isSome_iff_exists.mp (h.done hinside hgone)
  have htake : s.main.takeResult = .ok (result, { s.main with ret := none }) := by
    rw [MainTask.takeResult, hret]
  rw [htake]
  refine ⟨result, _, rfl, h.ret ▸ hret, ?_⟩
  refine ⟨EventLoop.shape_step h.shape hloop, EventLoop.prompt_step h.shape h.prompt hloop,
    hgone, ?_, fun _ => rfl, fun hnot => absurd rfl hnot⟩
  rw [resolved_concat]

theorem Agrees.step (h : Agrees log s) {a : RunnerAction ρ}
    (hstep : s.step a = some (.ok (e, t))) : Agrees (log ++ [e]) t := by
  cases a with
  | answer answer => exact h.answer hstep
  | loop a =>
      cases a with
      | start => exact h.start hstep
      | cleared =>
          obtain ⟨result, t', heq, -, hagrees⟩ := h.cleared hstep
          cases heq
          exact hagrees
      | finish ready =>
          rw [Runner.step] at hstep
          split at hstep
          · cases hstep
          · rename_i hpolls
            exact h.aside hstep nofun nofun fun _ _ => Bool.eq_false_iff.mpr hpolls
      | _ => exact h.aside hstep nofun nofun nofun

end Runner

/-- `run` polls the future only until it has resolved, and returns what it has resolved to: the
result is there when the loop ends, and it is that of the one poll that was ready. -/
theorem run_returns_result {ok : Runner ρ → RunnerAction ρ → Prop} {log : List (RunnerEvent ρ)}
    {s : Runner ρ} (h : (runnerMachine ρ).Run ok .init log s) :
    (s.eloop.pollsMain = true → resolved log = none ∧
      ∀ answer, ∃ ready main, s.main.poll answer = .ok (ready, main)) ∧
    ∀ r, s.step (.loop .cleared) = some r →
      ∃ result t, r = .ok (.returned result, t) ∧ resolved log = some result := by
  have hagrees : Runner.Agrees log s :=
    h.invariant Runner.agrees_init fun hagrees _ hstep => hagrees.step hstep
  constructor
  · intro hpolls
    have hinner := hagrees.inner_of_polls hpolls
    refine ⟨hagrees.ret.symm.trans (hagrees.waits hinner), fun answer => ?_⟩
    cases answer with
    | notReady => exact ⟨false, _, if_pos hinner⟩
    | ready r => exact ⟨true, _, if_pos hinner⟩
  · intro r hstep
    obtain ⟨result, t, heq, hresolved, -⟩ := hagrees.cleared hstep
    exact ⟨result, t, heq, hresolved⟩

/-- A future that waits for a socket, and resolves when it is polled again. -/
def twoPolls : List (RunnerAction Nat) :=
  [.loop .start, .loop (.call (.register (.ok ()))),
    .loop (.call (.scheduleRead ⟨0, ⟨false, false⟩⟩ (.ok ()))), .answer .notReady,
    .loop (.timers 0 ⟨0, 0, 0⟩), .loop (.wait (some [⟨0, true, false⟩])), .loop .event,
    .loop .runTask, .answer (.ready 5), .loop .clear]

theorem run_returns_result_of_two :
    ∃ (log : List (RunnerEvent Nat)) (s t : Runner Nat),
      (runnerMachine Nat).Run (fun _ _ => True) .init log s ∧ resolved log = some 5 ∧
        s.step (.loop .cleared) = some (.ok (.returned 5, t)) := by
  have hend : ((runnerMachine Nat).exec (fun _ _ => True) twoPolls .init).map (fun r =>
      (resolved r.1, (r.2.step (.loop .cleared)).isSome)) = some (some 5, true) := by
    decide +kernel
  obtain ⟨⟨log, s⟩, hexec, heq⟩ := Option.map_eq_some_iff.mp hend
  obtain ⟨hresolved, hsome⟩ := Prod.mk.inj heq
  obtain ⟨r, hstep⟩ := Option.isSome_iff_exists.mp hsome
  have hrun := Base.Machine.Run.of_exec _ hexec
  obtain ⟨result, t, rfl, hresult⟩ := (run_returns_result hrun).2 r hstep
  cases hresolved.symm.trans hresult
  exact ⟨log, s, t, hrun, hresolved, hstep⟩

end Ruyi.Reactor
