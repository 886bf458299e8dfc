import Ruyi.Reactor.EventLoop

namespace Ruyi.Reactor

open Sys (Nio Schedule)
open Timer (Expiration Queue Resume)

section Schedules

variable {τ : Type} {schedules schedules' : Slab (Schedule τ)} {nio : Nio} {current : τ}

/-- The tasks that the schedules in use would run. -/
def scheduled (schedules : Slab (Schedule τ)) : List τ :=
  schedules.elems.flatMap fun schedule => [schedule.readTask, schedule.writeTask]

theorem mem_scheduled {w : τ} :
    w ∈ scheduled schedules ↔
      ∃ schedule ∈ schedules.elems, w ∈ [schedule.readTask, schedule.writeTask] :=
  List.mem_flatMap

theorem scheduled_remove (token : Nat) :
    scheduled (schedules.remove token).2 ⊆ scheduled schedules := by
  intro w hw
  obtain ⟨schedule, hmem, hw⟩ := mem_scheduled.mp hw
  exact mem_scheduled.mpr ⟨schedule, Slab.elems_remove hmem, hw⟩

theorem scheduled_insert {registration : Nat} :
    scheduled (schedules.insert (.new registration current)).2 ⊆
      current :: scheduled schedules := by
  intro w hw
  obtain ⟨schedule, hmem, hw⟩ := mem_scheduled.mp hw
  rcases Slab.elems_insert hmem with rfl | hmem
  · simp only [Schedule.new, List.mem_cons, List.not_mem_nil, or_false, or_self] at hw
    exact List.mem_cons.mpr (.inl hw)
  · exact List.mem_cons_of_mem _ (mem_scheduled.mpr ⟨schedule, hmem, hw⟩)

theorem scheduled_modify {token : Nat} {f : Schedule τ → Schedule τ}
    (hf : ∀ schedule, schedules.get token = some schedule →
      [(f schedule).readTask, (f schedule).writeTask] ⊆
        current :: [schedule.readTask, schedule.writeTask]) :
    scheduled (schedules.modify token f) ⊆ current :: scheduled schedules := by
  intro w hw
  obtain ⟨schedule, hmem, hw⟩ := mem_scheduled.mp hw
  rcases Slab.elems_modify hmem with hmem | ⟨old, hold, rfl⟩
  · exact List.mem_cons_of_mem _ (mem_scheduled.mpr ⟨schedule, hmem, hw⟩)
  · rcases List.mem_cons.mp (hf old hold hw) with rfl | hw
    · exact List.mem_cons_self
    · exact List.mem_cons_of_mem _ (mem_scheduled.mpr ⟨old, Slab.mem_elems.mpr ⟨_, hold⟩, hw⟩)

theorem scheduled_reregister {ops : Sys.Ops} {result : Except ErrorKind Unit}
    {f : Schedule τ → Schedule τ} {r : Except ErrorKind Unit × Nio × Slab (Schedule τ)}
    (hf : ∀ schedule, [(f schedule).readTask, (f schedule).writeTask] ⊆
      current :: [schedule.readTask, schedule.writeTask])
    (h : nio.reregister schedules ops result f = .ok r) :
    scheduled r.2.2 ⊆ current :: scheduled schedules := by
  unfold Nio.reregister at h
  split at h
  · obtain ⟨schedules', hmodify, hr⟩ := ok_of_bind_ok h
    cases hr
    rw [Sys.modifySchedule] at hmodify
    split at hmodify
    · cases hmodify
    · cases hmodify
      exact scheduled_modify fun schedule _ => hf schedule
  · cases h
    exact List.subset_cons_self _ _

theorem scheduled_scheduleRead {result : Except ErrorKind Unit}
    {r : Except ErrorKind Unit × Nio × Slab (Schedule τ)}
    (h : nio.scheduleRead schedules current result = .ok r) :
    scheduled r.2.2 ⊆ current :: scheduled schedules := by
  rw [Nio.scheduleRead] at h
  split at h
  · cases h
    exact List.subset_cons_self _ _
  · exact scheduled_reregister (by simp [Schedule.scheduleRead]) h

theorem scheduled_scheduleWrite {result : Except ErrorKind Unit}
    {r : Except ErrorKind Unit × Nio × Slab (Schedule τ)}
    (h : nio.scheduleWrite schedules current result = .ok r) :
    scheduled r.2.2 ⊆ current :: scheduled schedules := by
  rw [Nio.scheduleWrite] at h
  split at h
  · cases h
    exact List.subset_cons_self _ _
  · exact scheduled_reregister (by simp [Schedule.scheduleWrite]) h

theorem scheduled_cancelWrite {result : Except ErrorKind Unit}
    {r : Except ErrorKind Unit × Nio × Slab (Schedule τ)}
    (h : nio.cancelWrite schedules result = .ok r) :
    scheduled r.2.2 ⊆ current :: scheduled schedules := by
  rw [Nio.cancelWrite] at h
  split at h
  · exact scheduled_reregister (by simp [Schedule.cancelWrite]) h
  · cases h
    exact List.subset_cons_self _ _

theorem scheduled_register (schedules : Slab (Schedule τ)) (registration : Nat) (current : τ)
    (result : Except ErrorKind Unit) :
    scheduled (Nio.register schedules registration current result).2 ⊆
      current :: scheduled schedules := by
  unfold Nio.register
  split
  · exact scheduled_insert
  · exact List.Subset.trans (scheduled_remove _) scheduled_insert

theorem scheduled_deregister (result : Except ErrorKind Unit) :
    scheduled (nio.deregister schedules result) ⊆ scheduled schedules := by
  unfold Nio.deregister
  split
  · exact scheduled_remove _
  · exact List.Subset.refl _

end Schedules

namespace Wheel.Inner

variable {τ : Type} {s s' : Inner τ} {now : Instant} {dur : Duration} {timerId : Nat}

/-- The tasks of the entries in use. -/
def tasks (s : Inner τ) : List τ := s.entries.elems.map (·.task)

theorem tasks_modifyEntry {f : Entry τ → Entry τ} (h : s.modifyEntry timerId f = .ok s')
    (hf : ∀ entry, (f entry).task = entry.task) : s'.tasks ⊆ s.tasks := by
  rw [modifyEntry] at h
  split at h
  · cases h
    intro task htask
    obtain ⟨entry, hentry, rfl⟩ := List.mem_map.mp htask
    rcases Slab.elems_modify hentry with hmem | ⟨old, hold, rfl⟩
    · exact List.mem_map_of_mem hmem
    · rw [hf]
      exact List.mem_map_of_mem (Slab.mem_elems.mpr ⟨_, hold⟩)
  · cases h

theorem tasks_setNext {node token : Token} (h : s.setNext node token = .ok s') :
    s'.tasks ⊆ s.tasks := by
  unfold setNext at h
  split at h
  · exact tasks_modifyEntry h fun _ => rfl
  · cases h
    exact List.Subset.refl _
  · cases h

theorem tasks_setPrev {node token : Token} (h : s.setPrev node token = .ok s') :
    s'.tasks ⊆ s.tasks := by
  unfold setPrev at h
  split at h
  · exact tasks_modifyEntry h fun _ => rfl
  · cases h
    exact List.Subset.refl _
  · cases h

theorem tasks_schedule {task : τ} {r : Nat × Inner τ}
    (h : s.schedule now dur task = .ok r) : r.2.tasks ⊆ task :: s.tasks := by
  obtain ⟨expiration, -, h₁⟩ := ok_of_bind_ok h
  obtain ⟨t, hlink, hr⟩ := ok_of_bind_ok h₁
  cases hr
  intro other hother
  obtain ⟨entry, hentry, rfl⟩ := List.mem_map.mp (tasks_setNext hlink hother)
  rcases Slab.elems_insert hentry with rfl | hmem
  · exact List.mem_cons_self
  · exact List.mem_cons_of_mem _ (List.mem_map_of_mem hmem)

theorem tasks_rescheduleInternal {exp : Option Instant}
    (h : s.rescheduleInternal now dur exp timerId = .ok s') : s'.tasks ⊆ s.tasks := by
  obtain ⟨s₁, hpark, h₁⟩ := ok_of_bind_ok h
  obtain ⟨s₂, hmodify, h₂⟩ := ok_of_bind_ok h₁
  obtain ⟨s₃, hlink, h₃⟩ := ok_of_bind_ok h₂
  have hparked : s₁.tasks ⊆ s.tasks := by
    rw [park] at hpark
    split at hpark
    · obtain ⟨due, -, hmodify⟩ := ok_of_bind_ok hpark
      exact tasks_modifyEntry hmodify fun _ => rfl
    · cases hpark
      exact List.Subset.refl _
  cases h₃
  have hlinked := tasks_setNext hlink
  exact List.Subset.trans hlinked
    (List.Subset.trans (tasks_modifyEntry hmodify fun _ => rfl) hparked)

theorem tasks_reschedule (h : s.reschedule now dur timerId = .ok s') : s'.tasks ⊆ s.tasks := by
  obtain ⟨entry, -, h₁⟩ := ok_of_bind_ok h
  obtain ⟨s₁, hnext, h₂⟩ := ok_of_bind_ok h₁
  obtain ⟨s₂, hprev, h₃⟩ := ok_of_bind_ok h₂
  exact List.Subset.trans (tasks_rescheduleInternal h₃)
    (List.Subset.trans (tasks_setPrev hprev) (tasks_setNext hnext))

theorem tasks_cancel (h : s.cancel timerId = .ok s') : s'.tasks ⊆ s.tasks := by
  have hremoved : (s.entries.remove timerId).2.elems.map (·.task) ⊆ s.tasks := by
    intro task htask
    obtain ⟨entry, hentry, rfl⟩ := List.mem_map.mp htask
    exact List.mem_map_of_mem (Slab.elems_remove hentry)
  rw [cancel] at h
  split at h
  · cases h
  · rename_i entry entries hremove
    rw [hremove] at hremoved
    split at h
    · cases h
      exact hremoved
    · obtain ⟨s₁, hnext, hprev⟩ := ok_of_bind_ok h
      exact List.Subset.trans (tasks_setPrev hprev)
        (List.Subset.trans (tasks_setNext hnext) hremoved)

theorem tasks_detach {r : Token × Option Instant × τ × Inner τ} (h : s.detach timerId = .ok r) :
    r.2.2.1 ∈ s.tasks ∧ r.2.2.2.tasks ⊆ s.tasks := by
  obtain ⟨entry, hget, h₁⟩ := ok_of_bind_ok h
  obtain ⟨s₁, hmodify, h₂⟩ := ok_of_bind_ok h₁
  cases h₂
  rw [getEntry] at hget
  split at hget
  · rename_i found hfound
    cases hget
    exact ⟨List.mem_map_of_mem (Slab.mem_elems.mpr ⟨_, hfound⟩),
      tasks_modifyEntry hmodify fun _ => rfl⟩
  · cases hget

end Wheel.Inner

namespace Timer.Queue

variable {τ : Type} {q q' : Queue τ} {taskId : Nat} {exp : Expiration}

/-- The tasks of the reactor that the timers not yet dropped are for. -/
def waiters (q : Queue τ) : List τ :=
  (q.tasks.elems.filter fun task => task.state ≠ .cancelled).map (·.id)

theorem mem_waiters {w : τ} :
    w ∈ q.waiters ↔ ∃ task ∈ q.tasks.elems, task.state ≠ .cancelled ∧ task.id = w := by
  simp only [waiters, List.mem_map, List.mem_filter, decide_eq_true_eq, and_assoc]

theorem mem_waiters_of_get {task : Task τ} (hget : q.tasks.get taskId = some task)
    (hstate : task.state ≠ .cancelled) : task.id ∈ q.waiters :=
  mem_waiters.mpr ⟨task, Slab.mem_elems.mpr ⟨_, hget⟩, hstate, rfl⟩

theorem waiters_setState {state : TaskState}
    (hstate : ∀ task, q.tasks.get taskId = some task → task.state = .cancelled →
      state = .cancelled) : (q.setState taskId state).waiters ⊆ q.waiters := by
  intro w hw
  obtain ⟨task, htask, hne, rfl⟩ := mem_waiters.mp hw
  rcases Slab.elems_modify htask with hmem | ⟨old, hold, rfl⟩
  · exact mem_waiters.mpr ⟨task, hmem, hne, rfl⟩
  · have hlive : old.state ≠ .cancelled := fun hcancelled => hne (hstate old hold hcancelled)
    show old.id ∈ q.waiters
    exact mem_waiters_of_get hold hlive

theorem waiters_remove : (q.remove taskId).waiters ⊆ q.waiters := by
  intro w hw
  obtain ⟨task, htask, hne, rfl⟩ := mem_waiters.mp hw
  exact mem_waiters.mpr ⟨task, Slab.elems_remove htask, hne, rfl⟩

theorem waiters_push {due : Instant} {task : τ} {state : TaskState} :
    (q.push due task state).2.waiters ⊆ task :: q.waiters := by
  intro w hw
  obtain ⟨other, hother, hne, rfl⟩ := mem_waiters.mp hw
  rcases Slab.elems_insert hother with rfl | hmem
  · exact List.mem_cons_self
  · exact List.mem_cons_of_mem _ (mem_waiters.mpr ⟨other, hmem, hne, rfl⟩)

theorem waiters_cancel {r : Bool × Queue τ} (h : q.cancel taskId = .ok r) :
    r.2.waiters ⊆ q.waiters := by
  have hcancel : (q.setState taskId .cancelled).waiters ⊆ q.waiters :=
    waiters_setState fun _ _ _ => rfl
  rw [cancel] at h
  split at h
  · cases h
  · split at h
    · cases h
      exact hcancel
    · cases h
      exact hcancel
    · cases h
      exact List.Subset.trans waiters_remove hcancel
    · cases h
      exact List.Subset.refl _

theorem waiters_afterRun {resume : Option Resume} (h : q.afterRun exp resume = .ok q') :
    q'.waiters ⊆ q.waiters := by
  unfold afterRun at h
  split at h
  · cases h
    exact List.Subset.refl _
  · split at h
    · cases h
    · split at h
      · cases h
      · rename_i task hget
        split at h
        · cases h
          exact waiters_remove
        · rename_i hne
          obtain ⟨due, -, hnext⟩ := ok_of_bind_ok h
          cases hnext
          refine @waiters_setState _ q exp.taskId _ ?_
          intro other hother hcancelled
          rw [hget] at hother
          cases hother
          exact absurd hcancelled hne

theorem waiters_expire {r : Option (τ × Option Resume) × Queue τ} (h : q.expire exp = .ok r) :
    (∀ task resume, r.1 = some (task, resume) → task ∈ q.waiters) ∧ r.2.waiters ⊆ q.waiters := by
  rw [expire] at h
  split at h
  · cases h
  · rename_i task hget
    have hexpired : task.state ≠ .cancelled →
        (q.setState exp.taskId .expired).waiters ⊆ q.waiters := by
      intro hne
      refine waiters_setState ?_
      intro other hother hcancelled
      rw [hget] at hother
      cases hother
      exact absurd hcancelled hne
    have hmem : task.state ≠ .cancelled → task.id ∈ q.waiters := mem_waiters_of_get hget
    split at h
    · rename_i dur hstate
      cases h
      refine ⟨?_, hexpired (by rw [hstate]; simp)⟩
      rintro _ _ ⟨⟩
      exact hmem (by rw [hstate]; simp)
    · rename_i hstate
      cases h
      refine ⟨?_, hexpired (by rw [hstate]; simp)⟩
      rintro _ _ ⟨⟩
      exact hmem (by rw [hstate]; simp)
    · cases h
      exact ⟨by simp, waiters_remove⟩
    · cases h

end Timer.Queue

namespace Held

variable {h h' : Held} {current : Waiter}

/-- The tasks that the I/O objects and the timers record: those an event or a timer would
run. -/
def waiters (h : Held) : List Waiter :=
  scheduled h.schedules ++ h.queue.waiters ++ (h.wheel.map Wheel.Inner.tasks).getD []

theorem mem_waiters {w : Waiter} :
    w ∈ h.waiters ↔ w ∈ scheduled h.schedules ∨ w ∈ h.queue.waiters ∨
      ∃ inner, h.wheel = some inner ∧ w ∈ inner.tasks := by
  rw [waiters, List.mem_append, List.mem_append, or_assoc]
  refine or_congr Iff.rfl (or_congr Iff.rfl ?_)
  cases h.wheel <;> simp

theorem waiters_schedules {schedules : Slab (Schedule Waiter)} {nios : List Nio} {registered : Nat}
    (hsub : scheduled schedules ⊆ current :: scheduled h.schedules) :
    waiters { h with schedules := schedules, registered := registered, nios := nios } ⊆
      current :: h.waiters := by
  intro w hw
  rcases mem_waiters.mp hw with hmem | hmem
  · rcases List.mem_cons.mp (hsub hmem) with rfl | hmem
    · exact List.mem_cons_self
    · exact List.mem_cons_of_mem _ (mem_waiters.mpr (.inl hmem))
  · exact List.mem_cons_of_mem _ (mem_waiters.mpr (.inr hmem))

theorem waiters_queue {queue : Queue Waiter} {timers : List Nat}
    (hsub : queue.waiters ⊆ current :: h.queue.waiters) :
    waiters { h with queue := queue, timers := timers } ⊆ current :: h.waiters := by
  intro w hw
  rcases mem_waiters.mp hw with hmem | hmem | hmem
  · exact List.mem_cons_of_mem _ (mem_waiters.mpr (.inl hmem))
  · rcases List.mem_cons.mp (hsub hmem) with rfl | hmem
    · exact List.mem_cons_self
    · exact List.mem_cons_of_mem _ (mem_waiters.mpr (.inr (.inl hmem)))
  · exact List.mem_cons_of_mem _ (mem_waiters.mpr (.inr (.inr hmem)))

theorem waiters_wheel {inner inner' : Wheel.Inner Waiter} {sleeps : List Nat}
    (hwheel : h.wheel = some inner) (hsub : inner'.tasks ⊆ current :: inner.tasks) :
    waiters { h with wheel := some inner', sleeps := sleeps } ⊆ current :: h.waiters := by
  intro w hw
  rcases mem_waiters.mp hw with hmem | hmem | ⟨_, hsome, hmem⟩
  · exact List.mem_cons_of_mem _ (mem_waiters.mpr (.inl hmem))
  · exact List.mem_cons_of_mem _ (mem_waiters.mpr (.inr (.inl hmem)))
  · cases hsome
    rcases List.mem_cons.mp (hsub hmem) with rfl | hmem
    · exact List.mem_cons_self
    · exact List.mem_cons_of_mem _ (mem_waiters.mpr (.inr (.inr ⟨_, hwheel, hmem⟩)))

theorem waiters_setNio {nio : Nio}
    {r : Except Fault (Except ErrorKind Unit × Nio × Slab (Schedule Waiter))}
    (hsub : ∀ r', r = .ok r' → scheduled r'.2.2 ⊆ current :: scheduled h.schedules)
    (hset : h.setNio nio r = .ok h') : h'.waiters ⊆ current :: h.waiters := by
  obtain ⟨r', hr, heq⟩ := ok_of_bind_ok hset
  cases heq
  exact waiters_schedules (hsub r' hr)

theorem waiters_call {c : Call} (hcall : h.call current c = some (.ok h')) :
    h'.waiters ⊆ current :: h.waiters := by
  cases c with
  | register result =>
      have hsub := scheduled_register h.schedules h.registered current result
      simp only [call] at hcall
      split at hcall <;> cases hcall <;> exact waiters_schedules hsub
  | scheduleRead nio result =>
      simp only [call] at hcall
      split at hcall
      · exact waiters_setNio (fun _ hr => scheduled_scheduleRead hr) (Option.some.inj hcall)
      · cases hcall
  | scheduleWrite nio result =>
      simp only [call] at hcall
      split at hcall
      · exact waiters_setNio (fun _ hr => scheduled_scheduleWrite hr) (Option.some.inj hcall)
      · cases hcall
  | cancelWrite nio result =>
      simp only [call] at hcall
      split at hcall
      · exact waiters_setNio (fun _ hr => scheduled_cancelWrite hr) (Option.some.inj hcall)
      · cases hcall
  | dropNio nio result =>
      simp only [call] at hcall
      split at hcall
      · cases hcall
        exact waiters_schedules
          (List.Subset.trans (scheduled_deregister result) (List.subset_cons_self _ _))
      · cases hcall
  | add due =>
      cases hcall
      exact waiters_queue Queue.waiters_push
  | addPeriodic due period =>
      cases hcall
      exact waiters_queue Queue.waiters_push
  | dropTimer taskId =>
      simp only [call] at hcall
      split at hcall
      · obtain ⟨r, hcancel, hr⟩ := ok_of_bind_ok (Option.some.inj hcall)
        cases hr
        exact waiters_queue
          (List.Subset.trans (Queue.waiters_cancel hcancel) (List.subset_cons_self _ _))
      · cases hcall
  | reschedule now dur timerId =>
      simp only [call] at hcall
      split at hcall
      · split at hcall
        · cases hcall
        · rename_i inner hwheel
          obtain ⟨inner', hreschedule, hr⟩ := ok_of_bind_ok (Option.some.inj hcall)
          cases hr
          exact waiters_wheel hwheel <|
            List.Subset.trans (Wheel.Inner.tasks_reschedule hreschedule)
              (List.subset_cons_self _ _)
      · cases hcall
  | dropSleep timerId =>
      simp only [call] at hcall
      split at hcall
      · split at hcall
        · cases hcall
        · rename_i inner hwheel
          obtain ⟨inner', hcancel, hr⟩ := ok_of_bind_ok (Option.some.inj hcall)
          cases hr
          exact waiters_wheel hwheel
            (List.Subset.trans (Wheel.Inner.tasks_cancel hcancel) (List.subset_cons_self _ _))
      · cases hcall

theorem waiters_schedule {now : Instant} {dur : Duration}
    (hschedule : h.schedule current now dur = .ok h') : h'.waiters ⊆ current :: h.waiters := by
  rw [schedule] at hschedule
  split at hschedule
  · cases hschedule
  · rename_i inner hwheel
    obtain ⟨r, hinner, hr⟩ := ok_of_bind_ok hschedule
    cases hr
    exact waiters_wheel hwheel (Wheel.Inner.tasks_schedule hinner)

end Held

end Ruyi.Reactor
