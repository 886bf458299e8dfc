import Ruyi.Reactor.OneshotTimers

namespace Ruyi.Reactor.Timer

variable {τ : Type}

/-- The state of a `Timer`. -/
inductive State where
  | unscheduled (due : Instant)
  | scheduled (taskId : Nat)
  | cancelled

namespace State

/-- `poll` of a `Timer` by a task. -/
def poll (timer : State) (q : Queue τ) (task : τ) :
    Except Fault (Async Unit × State × Queue τ) :=
  match timer with
  | .scheduled taskId => do
      let expired ← q.isTaskExpired taskId
      if expired then .ok (.ready (), timer, q) else .ok (.notReady, timer, q)
  | .unscheduled due =>
      let added := q.add due task
      .ok (.notReady, .scheduled added.1, added.2)
  | .cancelled => .error .unreachable

/-- `cancel` of a `Timer`, which its drop calls. -/
def cancel (timer : State) (q : Queue τ) : Except Fault (Bool × State × Queue τ) :=
  match timer with
  | .scheduled taskId => do
      let (waiting, q) ← q.cancel taskId
      .ok (waiting, .cancelled, q)
  | .unscheduled _ | .cancelled => .ok (true, .cancelled, q)

end State

/-- A `Timer`, with what the queue knows it by once it is scheduled. -/
structure Future where
  timer : State
  handle : Option Handle

/-- The timer queue with the `Timer` values that there are, which are numbered as they are made. -/
structure Futures (τ : Type) where
  base : Timers τ
  futures : Nat → Option Future
  made : Nat

/-- The calls of the owners of the timers, and the steps of the event loop. -/
inductive FutureAction (τ : Type) where
  | make (now : Instant) (dur : Duration)
  | poll (i : Nat) (task : τ)
  | drop (i : Nat)
  | loop (a : TimerAction τ)

/-- `queued` is what a poll or a drop has done to the queue. -/
inductive FutureEvent (τ : Type) where
  | made (i : Nat) (due : Instant)
  | polled (i : Nat) (task : τ) (answer : Async Unit) (queued : Option (TimerEvent τ))
  | dropped (i : Nat) (queued : Option (TimerEvent τ))
  | loop (a : TimerAction τ) (e : TimerEvent τ)

/-- The event loop takes the step, and no owner of a timer. -/
def TimerAction.ofLoop : TimerAction τ → Bool
  | .poll | .turn _ _ | .finish _ => true
  | .add _ _ | .addPeriodic _ _ _ | .cancel _ => false

namespace Futures

def init : Futures τ := ⟨Timers.init, fun _ => none, 0⟩

def set (s : Futures τ) (i : Nat) (f : Option Future) (queue : Queue τ) (timers : List Handle) :
    Futures τ :=
  { s with
    base := { s.base with queue := queue, timers := timers }
    futures := Function.update s.futures i f }

/-- A new `Timer`. -/
def make (s : Futures τ) (due : Instant) : Futures τ :=
  { s with
    futures := Function.update s.futures s.made (some ⟨.unscheduled due, none⟩)
    made := s.made + 1 }

def poll (s : Futures τ) (i : Nat) (task : τ) (f : Future) :
    Except Fault (FutureEvent τ × Futures τ) := do
  let (answer, timer, queue) ← f.timer.poll s.base.queue task
  match f.timer, timer with
  | .unscheduled due, .scheduled taskId =>
      let handle : Handle := ⟨taskId, s.base.queue.added⟩
      .ok (.polled i task answer (some (.added handle.serial due task)),
        s.set i (some ⟨timer, some handle⟩) queue (handle :: s.base.timers))
  | _, _ => .ok (.polled i task answer none, s.set i (some { f with timer }) queue s.base.timers)

def drop (s : Futures τ) (i : Nat) (f : Future) : Except Fault (FutureEvent τ × Futures τ) := do
  let (_, _, queue) ← f.timer.cancel s.base.queue
  match f.handle with
  | some handle => .ok (.dropped i (some (.cancelled handle.serial)),
      s.set i none queue (s.base.timers.erase handle))
  | none => .ok (.dropped i none, s.set i none queue s.base.timers)

/-- The next step.  `Timer::new` computes the deadline; a task polls and drops its timers while its
code runs, not while the loop of `Queue::poll` does. -/
def step (s : Futures τ) :
    FutureAction τ → Option (Except Fault (FutureEvent τ × Futures τ))
  | .make now dur => some do
      let due ← addDuration now dur
      .ok (.made s.made due, s.make due)
  | .poll i task =>
      if s.base.poll = .polling then none else (s.futures i).map (s.poll i task)
  | .drop i => if s.base.poll = .polling then none else (s.futures i).map (s.drop i)
  | .loop a =>
      if a.ofLoop then
        (s.base.step a).map fun r => r.map fun r => (.loop a r.1, { s with base := r.2 })
      else none

end Futures

def futuresMachine (τ : Type) :
    Base.Machine (Futures τ) (FutureAction τ) (FutureEvent τ) Fault := ⟨Futures.step⟩

namespace Timers

variable {s t : Timers τ} {log : List (TimerEvent τ)} {e : TimerEvent τ} {a : TimerAction τ}
  {exp : Expiration} {now : Instant}

/-- All that a step does to the slots and the handles. -/
inductive Effect (s t : Timers τ) : TimerAction τ → TimerEvent τ → Prop where
  | added (due : Instant) (task : τ) (next : t = (s.added due task (s.queue.add due task)).2) :
      Effect s t (.add due task) (.added s.queue.added due task)
  | cancelled {timer : Handle} (mem : timer ∈ s.timers)
      (timers_eq : t.timers = s.timers.erase timer) (added_eq : t.queue.added = s.queue.added)
      (other : ∀ i, i ≠ timer.taskId → t.queue.tasks.get i = s.queue.tasks.get i)
      (gone : ∀ task, t.queue.tasks.get timer.taskId = some task → task.state = .cancelled) :
      Effect s t (.cancel timer) (.cancelled timer.serial)
  | discarded {now : Instant} {exp : Expiration} {task : Task τ} (timers_eq : t.timers = s.timers)
      (added_eq : t.queue.added = s.queue.added)
      (other : ∀ i, i ≠ exp.taskId → t.queue.tasks.get i = s.queue.tasks.get i)
      (was : s.queue.tasks.get exp.taskId = some task) (state_eq : task.state = .cancelled)
      (gone : t.queue.tasks.get exp.taskId = none) :
      Effect s t (.turn now exp) (.discarded exp.serial)
  | ran {now : Instant} {exp : Expiration} {task : Task τ} (timers_eq : t.timers = s.timers)
      (added_eq : t.queue.added = s.queue.added)
      (other : ∀ i, i ≠ exp.taskId → t.queue.tasks.get i = s.queue.tasks.get i)
      (was : s.queue.tasks.get exp.taskId = some task) (state_eq : task.state = .oneshot)
      (serial_eq : task.serial = exp.serial)
      (after : t.queue.tasks.get exp.taskId = some { task with state := .expired }) :
      Effect s t (.turn now exp) (.ran exp.serial task.id)
  | still {a : TimerAction τ} {e : TimerEvent τ} (timers_eq : t.timers = s.timers)
      (queue_eq : t.queue = s.queue) (ended : e.ended = none)
      (added : ∀ serial due task, e ≠ .added serial due task) : Effect s t a e

theorem Recorded.effect_cancel {timer : Handle} {r : Bool × Queue τ} (h : Recorded log s)
    (hmem : timer ∈ s.timers) (hcancel : s.queue.cancel timer.taskId = .ok r) :
    Effect s { s with queue := r.2, timers := s.timers.erase timer } (.cancel timer)
      (.cancelled timer.serial) := by
  obtain ⟨task, hget, -, hne⟩ := h.inStep.owned timer hmem
  rw [Queue.cancel] at hcancel
  simp only [hget] at hcancel
  have hset : ∀ i, i ≠ timer.taskId →
      (s.queue.setState timer.taskId .cancelled).tasks.get i = s.queue.tasks.get i := by
    intro i hi
    rw [Queue.get_setState, if_neg hi]
  rcases h.state _ task hget with ⟨hstate, -⟩ | hstate | ⟨hstate, -⟩
  · rw [hstate] at hcancel
    cases hcancel
    refine .cancelled hmem rfl rfl hset fun new hnew => ?_
    rw [Queue.get_setState, if_pos rfl, hget] at hnew
    cases hnew
    rfl
  · rw [hstate] at hcancel
    cases hcancel
    refine .cancelled hmem rfl rfl (fun i hi => ?_) fun new hnew => ?_
    · rw [Queue.get_remove, if_neg hi, hset i hi]
    · rw [Queue.get_remove, if_pos rfl] at hnew
      cases hnew
  · exact absurd hstate hne

theorem Recorded.effect_turn (h : Recorded log s) (hturn : s.turn now exp = some (.ok (e, t))) :
    Effect s t (.turn now exp) e := by
  rw [turn] at hturn
  split at hturn
  · cases hturn
    exact .still rfl rfl rfl (by simp)
  · split at hturn
    · rename_i htop
      split at hturn
      · cases hturn
        exact .still rfl rfl rfl (by simp)
      · obtain ⟨⟨run, queue⟩, hexpire, hnext⟩ := ok_of_bind_ok (Option.some.inj hturn)
        obtain ⟨task, hget, hserial, -, hstate⟩ := h.task_of_entry htop.1
        rw [Queue.expire] at hexpire
        simp only [hget] at hexpire
        rcases hstate with ⟨hstate, -⟩ | ⟨hstate, -⟩
        · rw [hstate] at hexpire
          cases hexpire
          cases hnext
          refine .ran rfl rfl (fun i hi => ?_) hget hstate hserial ?_
          · rw [Queue.get_setState, if_neg hi]
          · rw [Queue.get_setState, if_pos rfl]
            exact congrArg (Option.map _) hget
        · rw [hstate] at hexpire
          cases hexpire
          cases hnext
          refine .discarded rfl rfl (fun i hi => ?_) hget hstate ?_
          · rw [Queue.get_remove, if_neg hi]
          · rw [Queue.get_remove, if_pos rfl]
    · cases hturn

theorem Recorded.effect_call (h : Recorded log s) (honeshot : s.Oneshot a)
    (hcall : s.call a = some (.ok (e, t))) : Effect s t a e := by
  cases a with
  | add due task =>
      cases hcall
      exact .added due task rfl
  | addPeriodic due period task => exact honeshot.elim
  | cancel timer =>
      rw [call] at hcall
      split at hcall
      · rename_i hmem
        obtain ⟨r, hcancel, hnext⟩ := ok_of_bind_ok (Option.some.inj hcall)
        cases hnext
        exact h.effect_cancel hmem hcancel
      · cases hcall
  | poll => cases hcall
  | turn now exp => cases hcall
  | finish exit => cases hcall

theorem Recorded.effect (h : Recorded log s) (honeshot : s.Oneshot a)
    (hstep : s.step a = some (.ok (e, t))) : Effect s t a e := by
  unfold step at hstep
  split at hstep
  · cases hstep
    exact .still rfl rfl rfl (by simp)
  · exact h.effect_call honeshot hstep
  · exact h.effect_turn hstep
  · cases hstep
  · rename_i exp resume exit hpoll
    have hfinish := Option.some.inj hstep
    cases h.running exp resume hpoll
    cases exit with
    | true =>
        cases hfinish
        exact .still rfl rfl rfl (by simp)
    | false =>
        cases hfinish
        exact .still rfl rfl rfl (by simp)
  · exact h.effect_call honeshot hstep

theorem step_of_code (hcode : s.poll ≠ .polling) (ha : a.ofLoop = false) :
    s.step a = s.call a := by
  unfold step
  split
  · cases ha
  · rfl
  · cases ha
  · contradiction
  · cases ha
  · rfl

/-- A slot that is not cancelled is that of a handle, and has expired when its task was run. -/
structure Answers (log : List (TimerEvent τ)) (s : Timers τ) : Prop where
  owner : ∀ k task, s.queue.tasks.get k = some task → task.state ≠ .cancelled →
    ⟨k, task.serial⟩ ∈ s.timers
  expired : ∀ k task, s.queue.tasks.get k = some task → task.state ≠ .cancelled →
    (task.state = .expired ↔ ∃ run, .ran task.serial run ∈ log)

theorem answers_init : Answers [] (init : Timers τ) := by
  have hnone : ∀ i, (init : Timers τ).queue.tasks.get i = none := Slab.get_empty
  constructor
  · intro k task hget
    rw [hnone] at hget
    cases hget
  · intro k task hget
    rw [hnone] at hget
    cases hget

theorem ran_concat {serial : Nat} (h : ∀ run, e ≠ .ran serial run) :
    (∃ run, .ran serial run ∈ log ++ [e]) ↔ ∃ run, .ran serial run ∈ log := by
  apply exists_congr
  intro run
  rw [List.mem_append, List.mem_singleton, or_iff_left (h run).symm]

theorem Answers.same (h : Answers log s) {k : Nat} {task : Task τ}
    (hget : s.queue.tasks.get k = some task) (hstate : task.state ≠ .cancelled)
    (htimers : ⟨k, task.serial⟩ ∈ s.timers → ⟨k, task.serial⟩ ∈ t.timers)
    (hran : ∀ run, e ≠ .ran task.serial run) :
    ⟨k, task.serial⟩ ∈ t.timers ∧
      (task.state = .expired ↔ ∃ run, .ran task.serial run ∈ log ++ [e]) := by
  rw [ran_concat hran]
  exact ⟨htimers (h.owner k task hget hstate), h.expired k task hget hstate⟩

theorem Answers.step (h : Answers log s) (hrecorded : Recorded log s) (heffect : Effect s t a e) :
    Answers (log ++ [e]) t := by
  suffices hslots : ∀ k task, t.queue.tasks.get k = some task → task.state ≠ .cancelled →
      ⟨k, task.serial⟩ ∈ t.timers ∧
        (task.state = .expired ↔ ∃ run, .ran task.serial run ∈ log ++ [e]) from
    ⟨fun k task hget hstate => (hslots k task hget hstate).1,
      fun k task hget hstate => (hslots k task hget hstate).2⟩
  intro k task hget hstate
  cases heffect with
  | added due run next =>
      subst next
      have hget : (s.queue.push due run .oneshot).2.tasks.get k = some task := hget
      rw [Queue.get_push] at hget
      split at hget
      · rename_i hk
        cases hget
        refine ⟨hk ▸ List.mem_cons_self, ?_⟩
        rw [ran_concat nofun]
        refine ⟨nofun, fun ⟨run, hmem⟩ => ?_⟩
        cases hrecorded.fresh _ (Nat.le_refl _) _ hmem rfl
      · exact h.same hget hstate (List.mem_cons_of_mem _) nofun
  | @cancelled timer mem timers_eq added_eq other gone =>
      by_cases hk : k = timer.taskId
      · rw [hk] at hget
        exact absurd (gone task hget) hstate
      · rw [other k hk] at hget
        refine h.same hget hstate (fun hmem => ?_) nofun
        rw [timers_eq]
        refine (List.mem_erase_of_ne ?_).mpr hmem
        exact fun heq => hk (congrArg Handle.taskId heq)
  | @discarded now exp old timers_eq added_eq other was state_eq gone =>
      by_cases hk : k = exp.taskId
      · rw [hk, gone] at hget
        cases hget
      · rw [other k hk] at hget
        exact h.same hget hstate (timers_eq ▸ id) nofun
  | @ran now exp old timers_eq added_eq other was state_eq serial_eq after =>
      by_cases hk : k = exp.taskId
      · rw [hk, after] at hget
        cases hget
        have howner := h.owner exp.taskId old was (by simp [state_eq])
        rw [hk, timers_eq, serial_eq]
        refine ⟨serial_eq ▸ howner, fun _ => ⟨old.id, ?_⟩, fun _ => rfl⟩
        exact List.mem_append_right _ (List.mem_singleton.mpr rfl)
      · rw [other k hk] at hget
        refine h.same hget hstate (timers_eq ▸ id) fun run heq => hk ?_
        obtain ⟨hserial, -⟩ := TimerEvent.ran.inj heq
        exact hrecorded.unique k exp.taskId task old hget was
          (hserial.symm.trans serial_eq.symm)
  | still timers_eq queue_eq ended added =>
      rw [queue_eq] at hget
      refine h.same hget hstate (timers_eq ▸ id) fun run heq => ?_
      rw [heq] at ended
      cases ended

end Timers

/-- What a step has done to the queue. -/
def FutureEvent.queued : FutureEvent τ → Option (TimerEvent τ)
  | .made _ _ => none
  | .polled _ _ _ queued => queued
  | .dropped _ queued => queued
  | .loop _ e => some e

def FutureEvent.isReady : FutureEvent τ → Bool
  | .polled _ _ (.ready ()) _ => true
  | _ => false

/-- The events of the queue. -/
def queuedOf (log : List (FutureEvent τ)) : List (TimerEvent τ) := log.filterMap FutureEvent.queued

/-- A poll has scheduled timer `i` for a task. -/
def Scheduled (log : List (FutureEvent τ)) (i serial : Nat) (due : Instant) (task : τ) : Prop :=
  .polled i task .notReady (some (.added serial due task)) ∈ log

/-- The queue has run the task of a timer when it was due. -/
def Fired (log : List (FutureEvent τ)) (serial : Nat) (task : τ) : Prop :=
  ∃ i due now exp, .made i due ∈ log ∧ Scheduled log i serial due task ∧
    .loop (.turn now exp) (.ran serial task) ∈ log ∧ due ≤ now

/-- What the events so far say of timer `i`. -/
inductive Future.Holds (log : List (FutureEvent τ)) (timers : List Handle) (i : Nat) :
    Future → Prop where
  | unscheduled {due : Instant} (made : .made i due ∈ log)
      (never : ∀ serial due task, ¬ Scheduled log i serial due task) :
      Holds log timers i ⟨.unscheduled due, none⟩
  | scheduled {handle : Handle} {due : Instant} {task : τ} (mem : handle ∈ timers)
      (made : .made i due ∈ log) (scheduled : Scheduled log i handle.serial due task)
      (only : ∀ serial due task, Scheduled log i serial due task → serial = handle.serial) :
      Holds log timers i ⟨.scheduled handle.taskId, some handle⟩

section

variable {log : List (FutureEvent τ)} {e : FutureEvent τ} {i serial : Nat} {due : Instant}
  {task : τ} {timers timers' : List Handle} {f : Future}

theorem queuedOf_concat (log : List (FutureEvent τ)) (e : FutureEvent τ) :
    queuedOf (log ++ [e]) = queuedOf log ++ e.queued.toList := by
  rw [queuedOf, List.filterMap_append, queuedOf, List.filterMap_cons]
  cases e.queued <;> rfl

theorem Scheduled.concat (h : Scheduled log i serial due task) (e : FutureEvent τ) :
    Scheduled (log ++ [e]) i serial due task := List.mem_append_left _ h

theorem Scheduled.of_concat (h : Scheduled (log ++ [e]) i serial due task)
    (hne : e.queued ≠ some (.added serial due task)) : Scheduled log i serial due task := by
  rcases List.mem_append.mp h with h | h
  · exact h
  · rw [← List.mem_singleton.mp h] at hne
    exact absurd rfl hne

theorem Fired.concat (h : Fired log serial task) (e : FutureEvent τ) :
    Fired (log ++ [e]) serial task := by
  obtain ⟨i, due, now, exp, hmade, hscheduled, hran, hle⟩ := h
  exact ⟨i, due, now, exp, List.mem_append_left _ hmade, hscheduled.concat e,
    List.mem_append_left _ hran, hle⟩

theorem Future.Holds.concat (h : f.Holds log timers i)
    (hsame : ∀ serial due task, Scheduled (log ++ [e]) i serial due task →
      Scheduled log i serial due task)
    (hmem : ∀ handle, f.handle = some handle → handle ∈ timers → handle ∈ timers') :
    f.Holds (log ++ [e]) timers' i := by
  cases h with
  | unscheduled made never =>
      exact .unscheduled (List.mem_append_left _ made) fun serial due task hscheduled =>
        never serial due task (hsame serial due task hscheduled)
  | scheduled mem made scheduled only =>
      exact .scheduled (hmem _ rfl mem) (List.mem_append_left _ made) (scheduled.concat e)
        fun serial due task hscheduled => only serial due task (hsame serial due task hscheduled)

theorem Future.Holds.handle {k : Nat} {g : Option Handle}
    (h : Future.Holds log timers i ⟨.scheduled k, g⟩) :
    ∃ handle ∈ timers, handle.taskId = k ∧ ∃ due task, Scheduled log i handle.serial due task := by
  generalize hf : (⟨.scheduled k, g⟩ : Future) = f at h
  cases h with
  | unscheduled => cases hf
  | scheduled mem made scheduled only =>
      cases hf
      exact ⟨_, mem, rfl, _, _, scheduled⟩

end

namespace Futures

variable {s t : Futures τ} {log : List (FutureEvent τ)} {e : FutureEvent τ} {i : Nat}
  {f : Future}

/-- The events, the queue and the timers agree. -/
structure Held (log : List (FutureEvent τ)) (s : Futures τ) : Prop where
  recorded : s.base.Recorded (queuedOf log)
  answers : s.base.Answers (queuedOf log)
  holds : ∀ i f, s.futures i = some f → f.Holds log s.base.timers i
  owned : ∀ handle ∈ s.base.timers, ∃ i timer, s.futures i = some ⟨timer, some handle⟩
  fresh : ∀ i, s.made ≤ i →
    s.futures i = none ∧ ∀ serial due task, ¬ Scheduled log i serial due task
  unique : ∀ i j serial due due' task task', Scheduled log i serial due task →
    Scheduled log j serial due' task' → i = j ∧ due = due' ∧ task = task'
  lt : ∀ i serial due task, Scheduled log i serial due task → serial < s.base.queue.added
  added : ∀ serial due task, .added serial due task ∈ queuedOf log →
    ∃ i, .made i due ∈ log ∧ Scheduled log i serial due task
  fired : ∀ serial task, .ran serial task ∈ queuedOf log → Fired log serial task

theorem held_init : Held [] (init : Futures τ) where
  recorded := Timers.recorded_init
  answers := Timers.answers_init
  holds := nofun
  owned := nofun
  fresh _ _ := ⟨rfl, nofun⟩
  unique := nofun
  lt := nofun
  added := nofun
  fired := nofun

theorem Held.quiet (h : Held log s) (hrecorded : t.base.Recorded (queuedOf (log ++ [e])))
    (hanswers : t.base.Answers (queuedOf (log ++ [e])))
    (hadded : t.base.queue.added = s.base.queue.added) (hmade : t.made = s.made)
    (hfutures : ∀ j f, t.futures j = some f → s.futures j = some f ∧
      ∀ handle, f.handle = some handle → handle ∈ s.base.timers → handle ∈ t.base.timers)
    (howned : ∀ handle ∈ t.base.timers, ∃ j timer, t.futures j = some ⟨timer, some handle⟩)
    (hquiet : ∀ serial due task, e.queued ≠ some (.added serial due task))
    (hran : ∀ serial task, e.queued = some (.ran serial task) → Fired (log ++ [e]) serial task) :
    Held (log ++ [e]) t where
  recorded := hrecorded
  answers := hanswers
  holds j f hj := by
    obtain ⟨hj, hmem⟩ := hfutures j f hj
    exact (h.holds j f hj).concat (fun serial due task hscheduled =>
      hscheduled.of_concat (hquiet serial due task)) hmem
  owned := howned
  fresh j hle := by
    rw [hmade] at hle
    obtain ⟨hnone, hnever⟩ := h.fresh j hle
    constructor
    · apply Option.eq_none_iff_forall_ne_some.mpr
      intro f hj
      cases hnone.symm.trans (hfutures j f hj).1
    · exact fun serial due task hscheduled =>
        hnever serial due task (hscheduled.of_concat (hquiet serial due task))
  unique j k serial due due' task task' hj hk :=
    h.unique j k serial due due' task task' (hj.of_concat (hquiet serial due task))
      (hk.of_concat (hquiet serial due' task'))
  lt j serial due task hj := by
    rw [hadded]
    exact h.lt j serial due task (hj.of_concat (hquiet serial due task))
  added serial due task hmem := by
    rw [queuedOf_concat] at hmem
    rcases List.mem_append.mp hmem with hmem | hmem
    · obtain ⟨j, hmade, hscheduled⟩ := h.added serial due task hmem
      exact ⟨j, List.mem_append_left _ hmade, hscheduled.concat e⟩
    · exact absurd (Option.mem_toList.mp hmem) (hquiet serial due task)
  fired serial task hmem := by
    rw [queuedOf_concat] at hmem
    rcases List.mem_append.mp hmem with hmem | hmem
    · exact (h.fired serial task hmem).concat e
    · exact hran serial task (Option.mem_toList.mp hmem)

theorem queuedOf_silent (h : e.queued = none) : queuedOf (log ++ [e]) = queuedOf log := by
  rw [queuedOf_concat, h, Option.toList_none, List.append_nil]

theorem Held.make (h : Held log s) (due : Instant) :
    Held (log ++ [.made s.made due]) (s.make due) := by
  have hqueued : queuedOf (log ++ [.made s.made due]) = queuedOf log := queuedOf_silent rfl
  have hnone : s.futures s.made = none := (h.fresh s.made (Nat.le_refl _)).1
  have hold : ∀ {i serial due' task},
      Scheduled (log ++ [.made s.made due]) i serial due' task → Scheduled log i serial due' task :=
    fun hscheduled => hscheduled.of_concat nofun
  constructor
  · rw [hqueued]
    exact h.recorded
  · rw [hqueued]
    exact h.answers
  · intro j f hj
    by_cases hnew : j = s.made
    · rw [hnew] at hj ⊢
      cases (Function.update_self _ _ _).symm.trans hj
      refine .unscheduled (List.mem_append_right _ (List.mem_singleton.mpr rfl)) ?_
      exact fun serial due' task hscheduled =>
        (h.fresh s.made (Nat.le_refl _)).2 serial due' task (hold hscheduled)
    · have hj : s.futures j = some f := (Function.update_of_ne hnew _ _).symm.trans hj
      exact (h.holds j f hj).concat (fun _ _ _ => hold) fun _ _ => id
  · intro handle hmem
    obtain ⟨j, timer, hj⟩ := h.owned handle hmem
    refine ⟨j, timer, (Function.update_of_ne ?_ _ _).trans hj⟩
    rintro rfl
    cases hnone.symm.trans hj
  · intro j hle
    have hle : s.made + 1 ≤ j := hle
    obtain ⟨hj, hnever⟩ := h.fresh j (Nat.le_of_succ_le hle)
    exact ⟨(Function.update_of_ne (Nat.ne_of_gt hle) _ _).trans hj,
      fun serial due' task hscheduled => hnever serial due' task (hold hscheduled)⟩
  · exact fun j k serial due due' task task' hj hk =>
      h.unique j k serial due due' task task' (hold hj) (hold hk)
  · exact fun j serial due task hj => h.lt j serial due task (hold hj)
  · rw [hqueued]
    intro serial due' task hmem
    obtain ⟨j, hmade, hscheduled⟩ := h.added serial due' task hmem
    exact ⟨j, List.mem_append_left _ hmade, hscheduled.concat _⟩
  · rw [hqueued]
    exact fun serial task hmem => (h.fired serial task hmem).concat _

theorem Held.base_step (h : Held log s) {a : TimerAction τ} {queued : TimerEvent τ}
    {base : Timers τ} (honeshot : s.base.Oneshot a)
    (hstep : s.base.step a = some (.ok (queued, base))) (he : e.queued = some queued) :
    base.Recorded (queuedOf (log ++ [e])) ∧ base.Answers (queuedOf (log ++ [e])) ∧
      s.base.Effect base a queued := by
  have heffect := h.recorded.effect honeshot hstep
  rw [queuedOf_concat, he, Option.toList_some]
  exact ⟨Timers.recorded_step h.recorded honeshot hstep, h.answers.step h.recorded heffect,
    heffect⟩

/-- What the first poll of a timer does. -/
def schedule (s : Futures τ) (i : Nat) (due : Instant) (task : τ) : Futures τ :=
  let r := s.base.queue.add due task
  let handle : Handle := ⟨r.1, s.base.queue.added⟩
  s.set i (some ⟨.scheduled handle.taskId, some handle⟩) r.2 (handle :: s.base.timers)

theorem scheduled_concat {j serial serial' : Nat} {due due' : Instant} {task task' : τ}
    (h : Scheduled (log ++ [.polled i task .notReady (some (.added serial due task))]) j serial'
      due' task') :
    Scheduled log j serial' due' task' ∨ j = i ∧ serial' = serial ∧ due' = due ∧ task' = task := by
  rcases List.mem_append.mp h with h | h
  · exact .inl h
  · cases List.mem_singleton.mp h
    exact .inr ⟨rfl, rfl, rfl, rfl⟩

theorem Held.schedule (h : Held log s) {due : Instant} (hi : s.futures i = some f)
    (hf : f.timer = .unscheduled due) (hcode : s.base.poll ≠ .polling) (task : τ) :
    Held (log ++ [.polled i task .notReady (some (.added s.base.queue.added due task))])
      (s.schedule i due task) := by
  have hstep := (Timers.step_of_code (a := .add due task) hcode rfl)
  obtain ⟨hrecorded, hanswers, -⟩ := h.base_step (a := .add due task) trivial hstep
    (e := .polled i task .notReady (some (.added s.base.queue.added due task))) rfl
  have hholds := h.holds i f hi
  cases hholds with
  | scheduled => cases hf
  | unscheduled made never =>
      cases hf
      have hself : (s.schedule i due task).futures i = some ⟨_, _⟩ := Function.update_self _ _ _
      have hother : ∀ j, j ≠ i → (s.schedule i due task).futures j = s.futures j :=
        fun j hj => Function.update_of_ne hj _ _
      refine ⟨hrecorded, hanswers, ?_, ?_, ?_, ?_, ?_, ?_, ?_⟩
      · intro j g hj
        by_cases hji : j = i
        · rw [hji] at hj ⊢
          cases hself.symm.trans hj
          refine .scheduled List.mem_cons_self (List.mem_append_left _ made)
            (List.mem_append_right _ (List.mem_singleton.mpr rfl)) ?_
          intro serial due' task' hscheduled
          rcases scheduled_concat hscheduled with hold | ⟨-, hserial, -, -⟩
          · exact absurd hold (never serial due' task')
          · exact hserial
        · rw [hother j hji] at hj
          refine (h.holds j g hj).concat ?_ fun handle _ => List.mem_cons_of_mem _
          intro serial due' task' hscheduled
          exact (scheduled_concat hscheduled).resolve_right fun hnew => hji hnew.1
      · intro handle hmem
        rcases List.mem_cons.mp hmem with rfl | hmem
        · exact ⟨i, _, hself⟩
        · obtain ⟨j, timer, hj⟩ := h.owned handle hmem
          refine ⟨j, timer, (hother j ?_).trans hj⟩
          rintro rfl
          cases hi.symm.trans hj
      · intro j hle
        obtain ⟨hnone, hnever⟩ := h.fresh j hle
        have hji : j ≠ i := by
          rintro rfl
          cases hi.symm.trans hnone
        refine ⟨(hother j hji).trans hnone, fun serial due' task' hscheduled => ?_⟩
        rcases scheduled_concat hscheduled with hold | ⟨hnew, -⟩
        · exact hnever serial due' task' hold
        · exact hji hnew
      · intro j k serial d d' r r' hj hk
        rcases scheduled_concat hj with hj | ⟨rfl, rfl, rfl, rfl⟩
        · rcases scheduled_concat hk with hk | ⟨-, rfl, -, -⟩
          · exact h.unique j k serial d d' r r' hj hk
          · exact absurd (h.lt j _ d r hj) (Nat.lt_irrefl _)
        · rcases scheduled_concat hk with hk | ⟨rfl, -, rfl, rfl⟩
          · exact absurd (h.lt k _ d' r' hk) (Nat.lt_irrefl _)
          · exact ⟨rfl, rfl, rfl⟩
      · intro j serial d r hj
        rcases scheduled_concat hj with hj | ⟨-, rfl, -, -⟩
        · exact Nat.lt_succ_of_lt (h.lt j serial d r hj)
        · exact Nat.lt_succ_self _
      · intro serial d r hmem
        rw [queuedOf_concat] at hmem
        rcases List.mem_append.mp hmem with hmem | hmem
        · obtain ⟨j, hmade, hscheduled⟩ := h.added serial d r hmem
          exact ⟨j, List.mem_append_left _ hmade, hscheduled.concat _⟩
        · cases List.mem_singleton.mp hmem
          exact ⟨i, List.mem_append_left _ made,
            List.mem_append_right _ (List.mem_singleton.mpr rfl)⟩
      · intro serial r hmem
        rw [queuedOf_concat] at hmem
        rcases List.mem_append.mp hmem with hmem | hmem
        · exact (h.fired serial r hmem).concat _
        · cases List.mem_singleton.mp hmem

theorem Held.poll_scheduled (h : Held log s) {handle : Handle}
    (hi : s.futures i = some ⟨.scheduled handle.taskId, some handle⟩)
    (hmem : handle ∈ s.base.timers) (task : τ) :
    ∃ answer, s.poll i task ⟨.scheduled handle.taskId, some handle⟩ =
        .ok (.polled i task answer none, s) ∧
      (answer = .ready () ↔ ∃ run, .ran handle.serial run ∈ queuedOf log) := by
  obtain ⟨slot, hget, hserial, hstate⟩ := h.recorded.inStep.owned handle hmem
  have hexpired := h.answers.expired handle.taskId slot hget hstate
  rw [hserial] at hexpired
  have hcall : s.base.queue.isTaskExpired handle.taskId = .ok (slot.state = .expired) := by
    rw [Queue.isTaskExpired, hget]
  have hset : s.set i (some ⟨.scheduled handle.taskId, some handle⟩) s.base.queue
      s.base.timers = s := by
    rw [set, ← hi, Function.update_eq_self]
  rw [poll, State.poll, hcall]
  by_cases hlate : slot.state = .expired
  · rw [decide_eq_true hlate]
    refine ⟨.ready (), congrArg (fun t => Except.ok (FutureEvent.polled i task _ none, t)) hset, ?_⟩
    rw [← hexpired]
    exact ⟨fun _ => hlate, fun _ => rfl⟩
  · rw [decide_eq_false hlate]
    refine ⟨.notReady, congrArg (fun t => Except.ok (FutureEvent.polled i task _ none, t)) hset, ?_⟩
    rw [← hexpired]
    exact ⟨nofun, fun hnot => absurd hnot hlate⟩

theorem Held.of_silent (h : Held log s) (hsilent : e.queued = none)  :
    Held (log ++ [e]) s := by
  have hqueued : queuedOf (log ++ [e]) = queuedOf log := queuedOf_silent hsilent
  refine h.quiet ?_ ?_ rfl rfl (fun _ _ hj => ⟨hj, fun _ _ => id⟩) h.owned ?_ ?_
  · rw [hqueued]
    exact h.recorded
  · rw [hqueued]
    exact h.answers
  · rw [hsilent]
    exact nofun
  · rw [hsilent]
    exact nofun

theorem Held.poll (h : Held log s) (hi : s.futures i = some f) (hcode : s.base.poll ≠ .polling)
    (task : τ) :
    ∃ answer queued t, s.poll i task f = .ok (.polled i task answer queued, t) ∧
      Held (log ++ [.polled i task answer queued]) t ∧
      (answer = .ready () ↔ ∃ serial due run, Scheduled log i serial due run ∧
        ∃ run', .ran serial run' ∈ queuedOf log) := by
  have hholds := h.holds i f hi
  cases hholds with
  | unscheduled made never =>
      refine ⟨.notReady, _, _, rfl, h.schedule hi rfl hcode task, nofun, ?_⟩
      rintro ⟨serial, due, run, hscheduled, -⟩
      exact absurd hscheduled (never serial due run)
  | @scheduled handle due run mem made scheduled only =>
      obtain ⟨answer, hpoll, hready⟩ := h.poll_scheduled hi mem task
      refine ⟨answer, none, s, hpoll, h.of_silent rfl, ?_⟩
      rw [hready]
      constructor
      · exact fun hran => ⟨_, _, _, scheduled, hran⟩
      · rintro ⟨serial, due', run', hscheduled, hran⟩
        rwa [only serial due' run' hscheduled] at hran

theorem Held.drop (h : Held log s) (hi : s.futures i = some f)
    (hcode : s.base.poll ≠ .polling) :
    ∃ queued t, s.drop i f = .ok (.dropped i queued, t) ∧
      Held (log ++ [.dropped i queued]) t := by
  have hother : ∀ queue timers j g, (s.set i none queue timers).futures j = some g →
      j ≠ i ∧ s.futures j = some g := by
    intro queue timers j g hj
    have hji : j ≠ i := by
      rintro rfl
      cases (Function.update_self _ _ _).symm.trans hj
    exact ⟨hji, (Function.update_of_ne hji _ _).symm.trans hj⟩
  have hkept : ∀ queue timers j timer handle, s.futures j = some ⟨timer, some handle⟩ →
      f.handle ≠ some handle →
      (s.set i none queue timers).futures j = some ⟨timer, some handle⟩ := by
    intro queue timers j timer handle hj hne
    refine (Function.update_of_ne ?_ _ _).trans hj
    rintro rfl
    cases hi.symm.trans hj
    exact hne rfl
  have hholds := h.holds i f hi
  cases hholds with
  | @unscheduled due made never =>
      refine ⟨none, s.set i none s.base.queue s.base.timers, rfl, ?_⟩
      refine h.quiet ?_ ?_ rfl rfl ?_ ?_ (fun _ _ _ hadd => by cases hadd)
        fun _ _ hran => by cases hran
      · rw [queuedOf_silent rfl]
        exact h.recorded
      · rw [queuedOf_silent rfl]
        exact h.answers
      · exact fun j g hj => ⟨(hother _ _ j g hj).2, fun _ _ => id⟩
      · intro handle hmem
        obtain ⟨j, timer, hj⟩ := h.owned handle hmem
        exact ⟨j, timer, hkept _ _ j timer handle hj (by simp)⟩
  | @scheduled handle due run mem made scheduled only =>
      obtain ⟨r, hcancel, -⟩ := h.recorded.inStep.cancel mem
      have hstep : s.base.step (.cancel handle) = some (.ok (.cancelled handle.serial,
          { s.base with queue := r.2, timers := s.base.timers.erase handle })) := by
        rw [Timers.step_of_code hcode rfl, Timers.call, if_pos mem, hcancel]
        rfl
      obtain ⟨hrecorded, hanswers, heffect⟩ := h.base_step (a := .cancel handle) trivial hstep
        (e := .dropped i (some (.cancelled handle.serial))) rfl
      have hadded : r.2.added = s.base.queue.added := by
        cases heffect with
        | cancelled _ _ added_eq _ _ => exact added_eq
        | still _ queue_eq _ _ => exact congrArg Queue.added queue_eq
      have hcall : s.drop i ⟨.scheduled handle.taskId, some handle⟩ =
          .ok (.dropped i (some (.cancelled handle.serial)),
            s.set i none r.2 (s.base.timers.erase handle)) := by
        rw [Futures.drop, State.cancel, hcancel]
        rfl
      refine ⟨_, _, hcall, h.quiet hrecorded hanswers hadded rfl ?_ ?_
        (fun _ _ _ hadd => by cases hadd) fun _ _ hran => by cases hran⟩
      · intro j g hj
        obtain ⟨hji, hbefore⟩ := hother _ _ j g hj
        refine ⟨hbefore, fun handle' hg hmem => (List.mem_erase_of_ne ?_).mpr hmem⟩
        rintro rfl
        have hholds := h.holds j g hbefore
        cases hholds with
        | unscheduled => cases hg
        | scheduled _ _ scheduled' _ =>
            cases hg
            exact hji (h.unique j i _ _ _ _ _ scheduled' scheduled).1
      · intro handle' hmem
        obtain ⟨j, timer, hj⟩ := h.owned handle' (List.mem_of_mem_erase hmem)
        refine ⟨j, timer, hkept _ _ j timer handle' hj ?_⟩
        rintro ⟨⟩
        exact h.recorded.inStep.nodup.not_mem_erase hmem

theorem Held.loop (h : Held log s) {a : TimerAction τ} (ha : a.ofLoop = true)
    {r : Except Fault (TimerEvent τ × Timers τ)} (hstep : s.base.step a = some r) :
    ∃ queued base, r = .ok (queued, base) ∧
      Held (log ++ [.loop a queued]) { s with base := base } := by
  obtain ⟨queued, base, rfl, -⟩ := h.recorded.step_ok hstep
  have honeshot : s.base.Oneshot a := by
    cases a with
    | addPeriodic => cases ha
    | _ => trivial
  refine ⟨queued, base, rfl, ?_⟩
  obtain ⟨hrecorded, hanswers, heffect⟩ := h.base_step honeshot hstep
    (e := .loop a queued) rfl
  have hsame : base.timers = s.base.timers ∧ base.queue.added = s.base.queue.added ∧
      ∀ serial due task, queued ≠ .added serial due task := by
    cases heffect with
    | added => cases ha
    | cancelled => cases ha
    | discarded timers_eq added_eq => exact ⟨timers_eq, added_eq, nofun⟩
    | ran timers_eq added_eq => exact ⟨timers_eq, added_eq, nofun⟩
    | still timers_eq queue_eq _ added => exact ⟨timers_eq, congrArg Queue.added queue_eq, added⟩
  obtain ⟨htimers, hadded, hquiet⟩ := hsame
  refine h.quiet hrecorded hanswers hadded rfl ?_ ?_ ?_ ?_
  · intro j g hj
    refine ⟨hj, fun handle _ hmem => ?_⟩
    rwa [htimers]
  · intro handle hmem
    rw [htimers] at hmem
    exact h.owned handle hmem
  · exact fun serial due task heq => hquiet serial due task (Option.some.inj heq)
  · intro serial task heq
    cases Option.some.inj heq
    obtain ⟨now, exp, rfl⟩ : ∃ now exp, a = .turn now exp := by
      cases heffect with
      | ran => exact ⟨_, _, rfl⟩
      | still _ _ ended _ => cases ended
    rcases h.recorded.turn_cases hstep with
      ⟨-, heq⟩ | ⟨-, ⟨-, heq⟩ | ⟨hdue, heq | ⟨run, heq, hadd, -⟩⟩⟩
    · cases heq
    · cases heq
    · cases heq
    · cases heq
      obtain ⟨i, hmade, hscheduled⟩ := h.added exp.serial exp.inner task hadd
      exact ⟨i, exp.inner, now, exp, List.mem_append_left _ hmade, hscheduled.concat _,
        List.mem_append_right _ (List.mem_singleton.mpr rfl), hdue⟩

/-- The deadline of a new timer is no instant. -/
def Overflows : FutureAction τ → Prop
  | .make now dur => ¬ Fits now dur
  | _ => False

theorem Held.step (h : Held log s) {a : FutureAction τ}
    {r : Except Fault (FutureEvent τ × Futures τ)} (hstep : s.step a = some r) :
    r = .error .panic ∧ Overflows a ∨ ∃ e t, r = .ok (e, t) ∧ Held (log ++ [e]) t := by
  cases a with
  | make now dur =>
      cases hstep
      by_cases hfits : Fits now dur
      · exact .inr ⟨_, _, bind_of_ok (addDuration_ok hfits) rfl, h.make _⟩
      · rw [addDuration_panics hfits]
        exact .inl ⟨rfl, hfits⟩
  | poll i task =>
      rw [Futures.step] at hstep
      split at hstep
      · cases hstep
      · rename_i hcode
        obtain ⟨f, hi, rfl⟩ := Option.map_eq_some_iff.mp hstep
        obtain ⟨answer, queued, t, hpoll, hheld, -⟩ := h.poll hi hcode task
        exact .inr ⟨_, t, hpoll, hheld⟩
  | drop i =>
      rw [Futures.step] at hstep
      split at hstep
      · cases hstep
      · rename_i hcode
        obtain ⟨f, hi, rfl⟩ := Option.map_eq_some_iff.mp hstep
        obtain ⟨queued, t, hdrop, hheld⟩ := h.drop hi hcode
        exact .inr ⟨_, t, hdrop, hheld⟩
  | loop a =>
      rw [Futures.step] at hstep
      split at hstep
      · rename_i ha
        obtain ⟨r', hbase, rfl⟩ := Option.map_eq_some_iff.mp hstep
        obtain ⟨queued, base, rfl, hheld⟩ := h.loop ha hbase
        exact .inr ⟨_, _, rfl, hheld⟩
      · cases hstep

theorem held_of_run {ok : Futures τ → FutureAction τ → Prop}
    (h : (futuresMachine τ).Run ok init log s) : Held log s := by
  refine h.invariant held_init fun hheld _ hstep => ?_
  rcases hheld.step hstep with ⟨hpanic, -⟩ | ⟨e, t, heq, hnext⟩
  · cases hpanic
  · cases heq
    exact hnext

end Futures

/-- In a queue of `Timer`s alone no call fails but the making of one whose deadline is no instant,
and a poll of one is ready when and only when the event loop has run the task that the first poll
has scheduled it for, which it does when the timer is due. -/
theorem timer_ready_iff {ok : Futures τ → FutureAction τ → Prop} {log : List (FutureEvent τ)}
    {s : Futures τ} (h : (futuresMachine τ).Run ok .init log s) :
    (∀ a fault, s.step a = some (.error fault) → fault = .panic ∧ Futures.Overflows a) ∧
      ∀ i f task, s.futures i = some f → s.base.poll ≠ .polling → ∃ answer queued t,
        s.step (.poll i task) = some (.ok (.polled i task answer queued, t)) ∧
        (answer = .ready () ↔ ∃ serial due run now exp, .made i due ∈ log ∧
          .polled i run .notReady (some (.added serial due run)) ∈ log ∧
          .loop (.turn now exp) (.ran serial run) ∈ log ∧ due ≤ now) := by
  have hheld := Futures.held_of_run h
  refine ⟨fun a fault hstep => ?_, fun i f task hi hcode => ?_⟩
  · rcases hheld.step hstep with ⟨hpanic, hover⟩ | ⟨e, t, heq, -⟩
    · cases hpanic
      exact ⟨rfl, hover⟩
    · cases heq
  · obtain ⟨answer, queued, t, hpoll, -, hready⟩ := hheld.poll hi hcode task
    refine ⟨answer, queued, t, ?_, hready.trans ⟨?_, ?_⟩⟩
    · rw [Futures.step, if_neg hcode, hi, Option.map_some, hpoll]
    · rintro ⟨serial, due, run, hscheduled, run', hran⟩
      obtain ⟨j, due', now, exp, hmade, hscheduled', hturn, hdue⟩ := hheld.fired serial run' hran
      obtain ⟨rfl, rfl, rfl⟩ := hheld.unique i j serial due due' run run' hscheduled hscheduled'
      exact ⟨serial, due, run, now, exp, hmade, hscheduled, hturn, hdue⟩
    · rintro ⟨serial, due, run, now, exp, -, hscheduled, hturn, -⟩
      exact ⟨serial, due, run, hscheduled, run, List.mem_filterMap.mpr ⟨_, hturn, rfl⟩⟩

/-- In a queue of `Timer`s alone, a slot is that of a `Timer` that there is, or waits for the event
loop to take its one entry out of the heap.  No two have one slot, so that nothing is left of the
timers when they are dropped and the heap is empty. -/
theorem timers_not_leaked {ok : Futures τ → FutureAction τ → Prop} {log : List (FutureEvent τ)}
    {s : Futures τ} (h : (futuresMachine τ).Run ok .init log s) :
    (∀ k task, s.base.queue.tasks.get k = some task →
      (∃ i handle, s.futures i = some ⟨.scheduled k, some handle⟩ ∧
        handle.serial = task.serial) ∨
      task.state = .cancelled ∧ s.base.queue.heap.countP (·.taskId = k) = 1) ∧
    ∀ i j k f g, s.futures i = some ⟨.scheduled k, f⟩ → s.futures j = some ⟨.scheduled k, g⟩ →
      i = j := by
  have hheld := Futures.held_of_run h
  constructor
  · intro k task hget
    by_cases hstate : task.state = .cancelled
    · refine .inr ⟨hstate, ?_⟩
      rw [hheld.recorded.inStep.matched.count k task hget, hstate]
      rfl
    · obtain ⟨i, timer, hi⟩ := hheld.owned _ (hheld.answers.owner k task hget hstate)
      have hholds := hheld.holds i _ hi
      cases hholds with
      | scheduled => exact .inl ⟨i, _, hi, rfl⟩
  · intro i j k f g hi hj
    obtain ⟨handle, hmem, hk, due, run, hscheduled⟩ := (hheld.holds i _ hi).handle
    obtain ⟨handle', hmem', hk', due', run', hscheduled'⟩ := (hheld.holds j _ hj).handle
    have hsame := hheld.recorded.inStep.eq_of_taskId hmem hmem' (hk.trans hk'.symm)
    rw [hsame] at hscheduled
    exact (hheld.unique i j _ due due' run run' hscheduled hscheduled').1

/-- Two timers, one of which is due when the event loop looks. -/
def twoTimers : List (FutureAction Nat) :=
  [.make 0 5, .make 1 9, .poll 0 7, .poll 1 8, .loop .poll, .loop (.turn 6 ⟨5, 0, 0⟩)]

theorem timer_ready_iff_of_two :
    ∃ (log : List (FutureEvent Nat)) (s t : Futures Nat),
      (futuresMachine Nat).Run (fun _ _ => True) .init log s ∧
        (∃ queued, s.step (.poll 0 7) = some (.ok (.polled 0 7 (.ready ()) queued, t))) ∧
        ∃ serial due run now exp, .made 0 due ∈ log ∧
          .polled 0 run .notReady (some (.added serial due run)) ∈ log ∧
          .loop (.turn now exp) (.ran serial run) ∈ log ∧ due ≤ now := by
  have hend : ((futuresMachine Nat).exec (fun _ _ => True) twoTimers .init).map (fun r =>
      ((r.2.futures 0).isSome, r.2.base.poll, (r.2.step (.poll 0 7)).map fun r =>
        r.toOption.map fun r => r.1.isReady)) =
      some (true, .running ⟨5, 0, 0⟩ none, some (some true)) := by
    decide +kernel
  obtain ⟨⟨log, s⟩, hexec, heq⟩ := Option.map_eq_some_iff.mp hend
  obtain ⟨hsome, heq⟩ := Prod.mk.inj heq
  obtain ⟨hpoll, heq⟩ := Prod.mk.inj heq
  obtain ⟨f, hi⟩ := Option.isSome_iff_exists.mp hsome
  have hcode : s.base.poll ≠ .polling := by
    rw [show s.base.poll = _ from hpoll]
    exact nofun
  have hrun := Base.Machine.Run.of_exec _ hexec
  obtain ⟨answer, queued, t, hstep, hready⟩ := (timer_ready_iff hrun).2 0 f 7 hi hcode
  simp only [hstep, Option.map_some] at heq
  cases answer with
  | notReady => cases heq
  | ready => exact ⟨log, s, t, hrun, ⟨queued, hstep⟩, hready.mp rfl⟩

theorem timers_not_leaked_of_two :
    ∃ (log : List (FutureEvent Nat)) (s : Futures Nat),
      (futuresMachine Nat).Run (fun _ _ => True) .init log s ∧
        (s.base.queue.tasks.get 0).isSome = true ∧
        ∀ task, s.base.queue.tasks.get 0 = some task →
          (∃ i handle, s.futures i = some ⟨.scheduled 0, some handle⟩ ∧
            handle.serial = task.serial) ∨
          task.state = .cancelled ∧ s.base.queue.heap.countP (·.taskId = 0) = 1 := by
  have hend : ((futuresMachine Nat).exec (fun _ _ => True) twoTimers .init).map (fun r =>
      (r.2.base.queue.tasks.get 0).isSome) = some true := by
    decide +kernel
  obtain ⟨⟨log, s⟩, hexec, heq⟩ := Option.map_eq_some_iff.mp hend
  have hrun := Base.Machine.Run.of_exec _ hexec
  exact ⟨log, s, hrun, heq, fun task => (timers_not_leaked hrun).1 0 task⟩

end Ruyi.Reactor.Timer
