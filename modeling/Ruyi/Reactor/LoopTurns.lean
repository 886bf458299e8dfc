import Ruyi.Reactor.LoopShape
import Ruyi.Reactor.LoopWaiters

namespace Ruyi.Reactor

variable {s s' t : EventLoop} {caller : Caller}

/-- The events of the batch still to be handled. -/
def Phase.pending : Phase → List Pending
  | .events rest | .pair _ rest => rest
  | _ => []

namespace EventLoop

/-- What the loops of `TaskRunner` and of `tick` leave alone between two tasks: the tasks
and what they hold.  No task is recorded, none is run but a recorded one, and no event is
added to the batch. -/
structure Turned (s s' : EventLoop) : Prop where
  tasks : s'.tasks = s.tasks
  gate : s'.gate = s.gate
  mainTask : s'.mainTask = s.mainTask
  spawned : s'.spawned = s.spawned
  runs : s'.runs = s.runs
  wheelRun : s'.wheelRun = s.wheelRun
  nios : s'.held.nios = s.held.nios
  sleeps : s'.held.sleeps = s.held.sleeps
  registered : s'.held.registered = s.held.registered
  registration : ∀ token, (s'.held.schedules.get token).map (·.registration) =
    (s.held.schedules.get token).map (·.registration)
  waiters : s'.held.waiters ⊆ s.held.waiters
  pending : s'.phase.pending ⊆ s.phase.pending
  second : ∀ w rest, s'.phase = .pair w rest → w ∈ s.held.waiters ∨ ∃ rest', s.phase = .pair w rest'
  given : ∀ w caller, s'.control = .runTask w caller →
    w ∈ s.held.waiters ∨ (∃ rest, s.phase = .pair w rest) ∨
      ∃ caller', s.control = .runTask w caller'

namespace Turned

theorem trans (h : Turned s s') (h' : Turned s' t) : Turned s t where
  tasks := h'.tasks.trans h.tasks
  gate := h'.gate.trans h.gate
  mainTask := h'.mainTask.trans h.mainTask
  spawned := h'.spawned.trans h.spawned
  runs := h'.runs.trans h.runs
  wheelRun := h'.wheelRun.trans h.wheelRun
  nios := h'.nios.trans h.nios
  sleeps := h'.sleeps.trans h.sleeps
  registered := h'.registered.trans h.registered
  registration token := (h'.registration token).trans (h.registration token)
  waiters := List.Subset.trans h'.waiters h.waiters
  pending := List.Subset.trans h'.pending h.pending
  second w rest hphase := by
    rcases h'.second w rest hphase with hmem | ⟨rest', hphase'⟩
    · exact .inl (h.waiters hmem)
    · exact h.second w rest' hphase'
  given w caller hcontrol := by
    rcases h'.given w caller hcontrol with hmem | ⟨rest, hphase⟩ | ⟨caller', hcontrol'⟩
    · exact .inl (h.waiters hmem)
    · rcases h.second w rest hphase with hmem | hphase'
      · exact .inl hmem
      · exact .inr (.inl hphase')
    · exact h.given w caller' hcontrol'

theorem of_phase {phase : Phase} {control : Control} (current : TaskId)
    (hpending : phase.pending ⊆ s.phase.pending)
    (hsecond : ∀ w rest, phase = .pair w rest →
      w ∈ s.held.waiters ∨ ∃ rest', s.phase = .pair w rest')
    (hgiven : ∀ w caller, control = .runTask w caller →
      w ∈ s.held.waiters ∨ (∃ rest, s.phase = .pair w rest) ∨
        ∃ caller', s.control = .runTask w caller') :
    Turned s { s with phase := phase, control := control, currentTask := current } :=
  ⟨rfl, rfl, rfl, rfl, rfl, rfl, rfl, rfl, rfl, fun _ => rfl, List.Subset.refl _, hpending, hsecond,
    hgiven⟩

theorem of_control {control : Control} (h : ∀ w caller, control ≠ .runTask w caller) :
    Turned s { s with control := control } :=
  of_phase _ (List.Subset.refl _) (fun _ rest hphase => .inr ⟨rest, hphase⟩)
    fun w caller hcontrol => absurd hcontrol (h w caller)

theorem of_empty {phase : Phase} {control : Control} (hpending : phase.pending = [])
    (hpair : ∀ w rest, phase ≠ .pair w rest)
    (hgiven : ∀ w caller, control = .runTask w caller →
      w ∈ s.held.waiters ∨ (∃ rest, s.phase = .pair w rest) ∨
        ∃ caller', s.control = .runTask w caller') :
    Turned s { s with phase := phase, control := control } := by
  refine of_phase s.currentTask ?_ (fun w rest h => absurd h (hpair w rest)) hgiven
  rw [hpending]
  exact List.nil_subset _

theorem of_wheel {inner inner' : Wheel.Inner Waiter} (hwheel : s.held.wheel = some inner)
    (hsub : inner'.tasks ⊆ inner.tasks) : Turned s (s.setWheel inner') := by
  refine ⟨rfl, rfl, rfl, rfl, rfl, rfl, rfl, rfl, rfl, fun _ => rfl, ?_, List.Subset.refl _,
    fun _ rest h => .inr ⟨rest, h⟩, fun _ caller h => .inr (.inr ⟨caller, h⟩)⟩
  intro w hw
  rcases Held.mem_waiters.mp hw with hmem | hmem | ⟨_, hsome, hmem⟩
  · exact Held.mem_waiters.mpr (.inl hmem)
  · exact Held.mem_waiters.mpr (.inr (.inl hmem))
  · cases hsome
    exact Held.mem_waiters.mpr (.inr (.inr ⟨inner, hwheel, hsub hmem⟩))

theorem of_queue {queue : Timer.Queue Waiter} (hsub : queue.waiters ⊆ s.held.queue.waiters) :
    Turned s (s.setQueue queue) := by
  refine ⟨rfl, rfl, rfl, rfl, rfl, rfl, rfl, rfl, rfl, fun _ => rfl, ?_, List.Subset.refl _,
    fun _ rest h => .inr ⟨rest, h⟩, fun _ caller h => .inr (.inr ⟨caller, h⟩)⟩
  intro w hw
  rcases Held.mem_waiters.mp hw with hmem | hmem | hmem
  · exact Held.mem_waiters.mpr (.inl hmem)
  · exact Held.mem_waiters.mpr (.inr (.inl (hsub hmem)))
  · exact Held.mem_waiters.mpr (.inr (.inr hmem))

end Turned

theorem turned_follow {i serial : Nat} {current : Fin Wheel.numOfSlots} {exit : Bool}
    {next : Wheel.Token} (h : s.follow i serial current exit next = .ok s') : Turned s s' := by
  unfold follow at h
  split at h
  · cases h
    exact .of_control fun _ _ => by simp
  · rename_i idx
    cases h
    have hclosed : Turned s { s with held := { s.held with
        wheel := s.held.wheel.map fun inner => inner.closeSlot current idx } } := by
      cases hwheel : s.held.wheel with
      | none =>
          refine ⟨rfl, rfl, rfl, rfl, rfl, rfl, rfl, rfl, rfl, fun _ => rfl, ?_, List.Subset.refl _,
            fun _ rest h => .inr ⟨rest, h⟩, fun _ caller h => .inr (.inr ⟨caller, h⟩)⟩
          simp only [Held.waiters, hwheel, Option.map_none]
          exact List.Subset.refl _
      | some inner => exact .of_wheel hwheel (List.Subset.refl _)
    exact hclosed.trans (.of_control fun _ _ => by simp)
  · cases h

theorem turned_returned {exit : Bool} (h : s.returned exit caller = .ok s') : Turned s s' := by
  cases caller with
  | tick i serial current next => exact turned_follow h
  | loop =>
      simp only [returned] at h
      split at h
      · cases h
        exact .of_empty rfl (fun _ _ => by simp) fun _ _ => by simp
      · split at h
        · obtain ⟨queue, hqueue, hr⟩ := ok_of_bind_ok h
          cases hr
          have hturned : Turned s (s.setQueue queue) :=
            .of_queue (Timer.Queue.waiters_afterRun hqueue)
          exact hturned.trans
            (.of_empty rfl (fun _ _ => by simp) fun _ _ hcontrol => by cases hcontrol)
        · rename_i task2 rest hphase
          cases h
          refine .of_phase s.currentTask ?_ (fun _ _ => by simp) ?_
          · rw [hphase]
            exact List.Subset.refl _
          · intro w caller hcontrol
            cases hcontrol
            exact .inr (.inl ⟨rest, hphase⟩)
        · cases h
          exact .of_empty rfl (fun _ _ => by simp) fun _ _ => by simp
        · cases h
          exact .of_control fun _ _ => by simp

theorem turned_runTask {w : Waiter} (h : s.runTask w caller = .ok s') : Turned s s' := by
  have hcurrent : ∀ {control : Control}, (∀ w caller, control ≠ .runTask w caller) →
      Turned s { s with currentTask := w.task, control := control } := by
    intro control hcontrol
    exact .of_phase _ (List.Subset.refl _) (fun _ rest h => .inr ⟨rest, h⟩)
      fun w caller h => absurd h (hcontrol w caller)
  rw [runTask] at h
  split at h
  · split at h
    · cases h
      exact hcurrent fun _ _ => by simp
    · cases h
  · split at h
    · cases h
    · cases h
      exact hcurrent fun _ _ => by simp
    · split at h
      · cases h
        exact hcurrent fun _ _ => by simp
      · cases h

theorem turned_tick {i serial : Nat} (h : s.tick i serial = .ok s') : Turned s s' := by
  rw [tick] at h
  split at h
  · cases h
  · rename_i inner hwheel
    split at h
    · rename_i idx hnext
      cases h
      have hslot : Turned s (s.setWheel { inner with currentSlot := idx }) :=
        .of_wheel hwheel (List.Subset.refl _)
      exact hslot.trans (.of_control fun _ _ => by simp)
    · cases h
      exact .of_control fun _ _ => by simp
    · cases h

/-- A turn of the ticker changes its own state, and its timer is new only when it is first
polled. -/
inductive Ticked (s : EventLoop) (i serial : Nat) (s' : EventLoop) : Prop where
  | same (h : Turned s s')
  | changed (timer : Timer.PeriodicState) (harmed : ∀ due period, timer ≠ .unscheduled due period)
      (h : Turned (s.setTicker i serial timer) s')
  | first {due : Instant} {period : Duration}
      (hget : ∃ n, s.tasks.get i = some (.ticker n (.unscheduled due period)))
      (h : Turned
        ((s.setTicker i serial (.scheduled
            (s.held.queue.addPeriodic due period ⟨s.currentTask, some serial⟩).1)).setQueue
          (s.held.queue.addPeriodic due period ⟨s.currentTask, some serial⟩).2) s')

theorem ticked_stepTicker {i serial : Nat} (h : s.stepTicker i serial = .ok s') :
    Ticked s i serial s' := by
  unfold stepTicker at h
  split at h
  · rename_i hget
    exact .first ⟨_, hget⟩ (turned_returned h)
  · rename_i taskId _
    obtain ⟨expired, -, h'⟩ := ok_of_bind_ok h
    split at h'
    · exact .changed (.expired taskId) (fun _ _ => by simp) (turned_tick h')
    · exact .same (turned_returned h')
  · rename_i taskId _
    exact .changed (.scheduled taskId) (fun _ _ => by simp) (turned_returned h)
  · cases h
  · cases h

theorem turned_visit {i serial timerId : Nat} {current : Fin Wheel.numOfSlots} {exit : Bool}
    {now : Instant} (h : s.visit i serial current timerId exit now = .ok s') :
    Turned s s' := by
  rw [visit] at h
  split at h
  · cases h
  · rename_i inner hwheel
    obtain ⟨⟨next, expiration, task, inner'⟩, hdetach, h'⟩ := ok_of_bind_ok h
    obtain ⟨hmem, hsub⟩ := Wheel.Inner.tasks_detach hdetach
    have hturned : Turned s (s.setWheel inner') := .of_wheel hwheel hsub
    have hrun : Turned s
        { s.setWheel inner' with control := .runTask task (.tick i serial current next) } := by
      have hwaiter : task ∈ s.held.waiters :=
        Held.mem_waiters.mpr (.inr (.inr ⟨inner, hwheel, hmem⟩))
      refine { hturned with given := ?_ }
      intro w caller hcontrol
      cases hcontrol
      exact .inl hwaiter
    dsimp only at h'
    split at h'
    · exact hturned.trans (turned_follow h')
    · split at h'
      · split at h'
        · obtain ⟨inner'', hinternal, h''⟩ := ok_of_bind_ok h'
          have hturned' : Turned s (s.setWheel inner'') :=
            .of_wheel hwheel
              (List.Subset.trans (Wheel.Inner.tasks_rescheduleInternal hinternal) hsub)
          exact hturned'.trans (turned_follow h'')
        · cases h'
          exact hrun
      · cases h'
        exact hrun

theorem turned_timers {now : Instant} {exp : Timer.Expiration}
    (h : s.timers now exp = some (.ok s')) : Turned s s' := by
  have hwaiting : Turned s { s with phase := .waiting } :=
    .of_empty rfl (fun _ _ => by simp) fun _ caller h => .inr (.inr ⟨caller, h⟩)
  rw [timers] at h
  split at h
  · cases h
    exact hwaiting
  · split at h
    · split at h
      · cases h
        exact hwaiting
      · obtain ⟨⟨task, queue⟩, hexpire, h'⟩ := ok_of_bind_ok (Option.some.inj h)
        obtain ⟨hgiven, hsub⟩ := Timer.Queue.waiters_expire hexpire
        have hturned : Turned s (s.setQueue queue) := .of_queue hsub
        cases task with
        | none =>
            cases h'
            exact hturned
        | some task =>
            cases h'
            have hwaiter : task.1 ∈ s.held.waiters :=
              Held.mem_waiters.mpr (.inr (.inl (hgiven task.1 task.2 rfl)))
            refine { hturned with pending := List.nil_subset _, second := by simp, given := ?_ }
            intro w caller hcontrol
            cases hcontrol
            exact .inl hwaiter
    · cases h

theorem registration_modify {schedules : Slab (Sys.Schedule Waiter)} {token : Nat}
    {schedule schedule' : Sys.Schedule Waiter} (hget : schedules.get token = some schedule)
    (h : schedule'.registration = schedule.registration) (other : Nat) :
    ((schedules.modify token fun _ => schedule').get other).map (·.registration) =
      (schedules.get other).map (·.registration) := by
  rw [Slab.get_modify]
  split
  · rename_i heq
    rw [heq, hget]
    exact congrArg some h
  · rfl

theorem turned_event {p : Pending} {rest : List Pending} (hphase : s.phase = .events (p :: rest))
    (h : s.event (p :: rest) = .ok s') : Turned s s' := by
  rw [event] at h
  split at h
  · cases h
  · rename_i schedule hget
    have hmem : ∀ w ∈ [schedule.readTask, schedule.writeTask], w ∈ s.held.waiters := by
      intro w hw
      exact Held.mem_waiters.mpr
        (.inl (mem_scheduled.mpr ⟨schedule, Slab.mem_elems.mpr ⟨_, hget⟩, hw⟩))
    have hread : schedule.readTask ∈ s.held.waiters := hmem _ List.mem_cons_self
    have hwrite : schedule.writeTask ∈ s.held.waiters :=
      hmem _ (List.mem_cons_of_mem _ List.mem_cons_self)
    have hready : Turned s { s with held := { s.held with
        schedules := s.held.schedules.modify p.event.token
          fun _ => (Sys.getReadyTasks p.event schedule).2 } } := by
      refine ⟨rfl, rfl, rfl, rfl, rfl, rfl, rfl, rfl, rfl, ?_, ?_, List.Subset.refl _,
        fun _ rest h => .inr ⟨rest, h⟩, fun _ caller h => .inr (.inr ⟨caller, h⟩)⟩
      · refine registration_modify hget ?_
        unfold Sys.getReadyTasks
        split <;> rfl
      · intro w hw
        rcases Held.mem_waiters.mp hw with hother | hother
        · obtain ⟨other, helem, hw⟩ := mem_scheduled.mp hother
          rcases Slab.elems_modify helem with helem | ⟨old, hold, rfl⟩
          · exact Held.mem_waiters.mpr (.inl (mem_scheduled.mpr ⟨other, helem, hw⟩))
          · refine hmem w ?_
            unfold Sys.getReadyTasks at hw
            split at hw <;> exact hw
        · exact Held.mem_waiters.mpr (.inr hother)
    have hrest : rest ⊆ s.phase.pending := by
      rw [hphase]
      exact List.subset_cons_self _ _
    have htasks : ∀ task1 task2, (Sys.getReadyTasks p.event schedule).1 = .pair task1 task2 →
        task1 = schedule.readTask ∧ task2 = schedule.writeTask := by
      intro task1 task2 hpair
      unfold Sys.getReadyTasks at hpair
      split at hpair <;> cases hpair
      exact ⟨rfl, rfl⟩
    have htask : ∀ task, (Sys.getReadyTasks p.event schedule).1 = .single task →
        task ∈ s.held.waiters := by
      intro task hsingle
      unfold Sys.getReadyTasks at hsingle
      split at hsingle <;> cases hsingle
      · exact hread
      · exact hwrite
    dsimp only at h
    split at h
    · rename_i task hsingle
      cases h
      refine { hready with pending := hrest, second := by simp, given := ?_ }
      intro w caller hcontrol
      cases hcontrol
      exact .inl (htask task hsingle)
    · rename_i task1 task2 hpair
      obtain ⟨rfl, rfl⟩ := htasks _ _ hpair
      cases h
      refine { hready with pending := hrest, second := ?_, given := ?_ }
      · intro w rest' hsecond
        cases hsecond
        exact .inl hwrite
      · intro w caller hcontrol
        cases hcontrol
        exact .inl hread

end EventLoop

end Ruyi.Reactor
