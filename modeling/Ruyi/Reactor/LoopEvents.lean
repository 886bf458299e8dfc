import Ruyi.Reactor.LoopTasks

namespace Ruyi.Reactor

open Sys (Nio Schedule)

section Schedules

variable {τ : Type} {schedules : Slab (Schedule τ)} {nio : Nio} {current : τ} {token r : Nat}

/-- `token` is that of registration `r`. -/
def RegisteredAs (schedules : Slab (Schedule τ)) (token r : Nat) : Prop :=
  (schedules.get token).map (·.registration) = some r

theorem registeredAs_remove (h : RegisteredAs schedules token r) {other : Nat}
    (hne : token ≠ other) : RegisteredAs (schedules.remove other).2 token r := by
  rw [RegisteredAs, Slab.get_remove, if_neg hne]
  exact h

theorem registeredAs_modify (h : RegisteredAs schedules token r) {other : Nat}
    {f : Schedule τ → Schedule τ}
    (hf : ∀ schedule, (f schedule).registration = schedule.registration) :
    RegisteredAs (schedules.modify other f) token r := by
  rw [RegisteredAs, Slab.get_modify]
  split
  · rename_i heq
    rw [RegisteredAs, heq] at h
    rw [Option.map_map]
    calc
      _ = (schedules.get other).map (·.registration) := Option.map_congr fun s _ => hf s
      _ = some r := h
  · exact h

theorem registeredAs_register (h : RegisteredAs schedules token r) (registration : Nat)
    (current : τ) (result : Except ErrorKind Unit) :
    RegisteredAs (Nio.register schedules registration current result).2 token r := by
  obtain ⟨schedule, hget, hr⟩ := Option.map_eq_some_iff.mp h
  rw [RegisteredAs, Nio.get_register hget, Option.map_some, hr]

theorem registeredAs_reregister {ops : Sys.Ops} {result : Except ErrorKind Unit}
    {f : Schedule τ → Schedule τ} {out : Except ErrorKind Unit × Nio × Slab (Schedule τ)}
    (h : RegisteredAs schedules token r)
    (hf : ∀ schedule, (f schedule).registration = schedule.registration)
    (hstep : nio.reregister schedules ops result f = .ok out) :
    RegisteredAs out.2.2 token r := by
  unfold Nio.reregister at hstep
  split at hstep
  · obtain ⟨schedules', hmodify, hr⟩ := ok_of_bind_ok hstep
    cases hr
    rw [Sys.modifySchedule] at hmodify
    split at hmodify
    · cases hmodify
    · cases hmodify
      exact registeredAs_modify h hf
  · cases hstep
    exact h

theorem registeredAs_deregister {result : Except ErrorKind Unit}
    (h : RegisteredAs schedules token r) (hne : result = .ok () → token ≠ nio.token) :
    RegisteredAs (nio.deregister schedules result) token r := by
  unfold Nio.deregister
  split
  · exact registeredAs_remove h (hne rfl)
  · exact h

end Schedules

variable {s s' : EventLoop}

theorem Held.registeredAs_call {h h' : Held} {current : Waiter} {c : Call} {token r : Nat}
    (hreg : RegisteredAs h.schedules token r)
    (hdrop : ∀ nio, c = .dropNio nio (.ok ()) → token ≠ nio.token)
    (hcall : h.call current c = some (.ok h')) : RegisteredAs h'.schedules token r := by
  have hset : ∀ {nio : Nio}
      {result : Except Fault (Except ErrorKind Unit × Nio × Slab (Schedule Waiter))},
      (∀ out, result = .ok out → RegisteredAs out.2.2 token r) →
        h.setNio nio result = .ok h' → RegisteredAs h'.schedules token r := by
    intro nio result hresult hset
    obtain ⟨out, hout, heq⟩ := ok_of_bind_ok hset
    cases heq
    exact hresult out hout
  cases c with
  | register result =>
      have hregister := registeredAs_register hreg h.registered current result
      simp only [call] at hcall
      split at hcall <;> cases hcall <;> exact hregister
  | scheduleRead nio result =>
      simp only [call] at hcall
      split at hcall
      · refine hset ?_ (Option.some.inj hcall)
        intro out hout
        rw [Nio.scheduleRead] at hout
        split at hout
        · cases hout
          exact hreg
        · refine registeredAs_reregister hreg ?_ hout
          exact fun _ => rfl
      · cases hcall
  | scheduleWrite nio result =>
      simp only [call] at hcall
      split at hcall
      · refine hset ?_ (Option.some.inj hcall)
        intro out hout
        rw [Nio.scheduleWrite] at hout
        split at hout
        · cases hout
          exact hreg
        · refine registeredAs_reregister hreg ?_ hout
          exact fun _ => rfl
      · cases hcall
  | cancelWrite nio result =>
      simp only [call] at hcall
      split at hcall
      · refine hset ?_ (Option.some.inj hcall)
        intro out hout
        rw [Nio.cancelWrite] at hout
        split at hout
        · refine registeredAs_reregister hreg ?_ hout
          exact fun _ => rfl
        · cases hout
          exact hreg
      · cases hcall
  | dropNio nio result =>
      simp only [call] at hcall
      split at hcall
      · cases hcall
        refine registeredAs_deregister hreg ?_
        rintro rfl
        exact hdrop nio rfl
      · cases hcall
  | add due | addPeriodic due period =>
      cases hcall
      exact hreg
  | dropTimer taskId =>
      simp only [call] at hcall
      split at hcall
      · obtain ⟨_, -, hr⟩ := ok_of_bind_ok (Option.some.inj hcall)
        cases hr
        exact hreg
      · cases hcall
  | reschedule now dur timerId | dropSleep timerId =>
      simp only [call] at hcall
      split at hcall
      · split at hcall
        · cases hcall
        · obtain ⟨inner, -, hr⟩ := ok_of_bind_ok (Option.some.inj hcall)
          cases hr
          exact hreg
      · cases hcall

namespace EventLoop

/-- The drop of an I/O object, when the poller forgets it, is not that of one with an event
still in the batch. -/
def Spares (s : EventLoop) : LoopAction → Prop
  | .call (.dropNio nio (.ok ())) => ∀ p ∈ s.phase.pending, p.event.token ≠ nio.token
  | _ => True

instance (s : EventLoop) (a : LoopAction) : Decidable (s.Spares a) := by
  unfold Spares
  split <;> infer_instance

/-- Every event of the batch still has the registration it was reported for. -/
def Reported (s : EventLoop) : Prop :=
  ∀ p ∈ s.phase.pending, RegisteredAs s.held.schedules p.event.token p.registration

theorem Reported.turned (h : Reported s) (hturned : Turned s s') : Reported s' := by
  intro p hp
  rw [RegisteredAs, hturned.registration]
  exact h p (hturned.pending hp)

theorem Reported.of_eq (h : Reported s) (hphase : s'.phase = s.phase)
    (hschedules : s'.held.schedules = s.held.schedules) : Reported s' := by
  intro p hp
  rw [hphase] at hp
  rw [hschedules]
  exact h p hp

theorem reported_of_pending (h : s.phase.pending = []) : Reported s := by
  intro p hp
  rw [h] at hp
  cases hp

theorem reported_call {c : Call} {current : Waiter} (h : Reported s) (hspares : s.Spares (.call c))
    (hstep : (s.held.call current c).map (fun r => r.map fun held => { s with held := held }) =
      some (.ok s')) : Reported s' := by
  obtain ⟨r, hcall, hr⟩ := Option.map_eq_some_iff.mp hstep
  obtain ⟨held, rfl, rfl⟩ := ok_of_map_ok hr
  intro p hp
  refine Held.registeredAs_call (h p hp) ?_ hcall
  rintro nio rfl
  exact hspares p hp

theorem reported_unspawn {below : Code} (h : Reported s) (hstep : s.unspawn below = .ok s') :
    Reported s' := by
  unfold unspawn at hstep
  split at hstep
  · cases hstep
  · cases hstep
    exact h.of_eq rfl rfl

theorem reported_finish {c : Code} {ready : Bool} (h : Reported s)
    (hstep : s.finish ready c = some (.ok s')) : Reported s' := by
  cases c with
  | outside | dropped _ _ _ | spawnedDropped _ _ _ => cases hstep
  | main caller =>
      rw [finish] at hstep
      split at hstep
      · have hcompleted : Reported { s with mainTask := false } := h.of_eq rfl rfl
        exact hcompleted.turned (turned_returned (Option.some.inj hstep))
      · exact h.turned (turned_returned (Option.some.inj hstep))
  | task i serial caller =>
      rw [finish] at hstep
      split at hstep
      · cases hstep
        exact h.of_eq rfl rfl
      · exact h.turned (turned_returned (Option.some.inj hstep))
  | spawned i serial below =>
      rw [finish] at hstep
      split at hstep
      · cases hstep
        exact h.of_eq rfl rfl
      · exact reported_unspawn h (Option.some.inj hstep)

theorem schedules_sleep {c : Code} {now : Instant} {dur : Duration}
    (hstep : s.sleep c now dur = .ok s') :
    s'.phase = s.phase ∧ s'.held.schedules = s.held.schedules := by
  have hschedule : ∀ {t : EventLoop} {held : Held} {current : Waiter},
      t.held.schedule current now dur = .ok held → held.schedules = t.held.schedules := by
    intro t held current h
    rw [Held.schedule] at h
    split at h
    · cases h
    · obtain ⟨r, -, hr⟩ := ok_of_bind_ok h
      cases hr
      rfl
  obtain ⟨held, hheld, hr⟩ := ok_of_bind_ok hstep
  cases hr
  have hschedules := hschedule hheld
  cases hwheel : s.held.wheel with
  | none =>
      simp only [hwheel] at hschedules
      exact ⟨rfl, hschedules⟩
  | some inner =>
      simp only [hwheel] at hschedules
      exact ⟨rfl, hschedules⟩

theorem reported_stepCode {c : Code} {a : LoopAction} (h : Reported s) (hspares : s.Spares a)
    (hstep : s.stepCode c a = some (.ok s')) : Reported s' := by
  unfold stepCode at hstep
  split at hstep
  · exact reported_call h hspares hstep
  · obtain ⟨hphase, hschedules⟩ := schedules_sleep (Option.some.inj hstep)
    exact h.of_eq hphase hschedules
  · cases hstep
    rw [enterGate]
    split
    · exact h.of_eq rfl rfl
    · exact h
  · obtain ⟨-, rfl⟩ := leaveGate_ok hstep
    exact h.of_eq rfl rfl
  · cases hstep
    exact h.of_eq rfl rfl
  · exact reported_finish h hstep
  · unfold dropped at hstep
    split at hstep
    · exact h.turned (turned_returned (Option.some.inj hstep))
    · exact reported_unspawn h (Option.some.inj hstep)
    · cases hstep
  · cases hstep

theorem registeredAs_collect {batch : List Sys.Event} {rest : List Pending}
    (h : s.collect batch = some rest) (p : Pending) (hp : p ∈ rest) :
    RegisteredAs s.held.schedules p.event.token p.registration := by
  induction batch generalizing rest with
  | nil =>
      cases h
      cases hp
  | cons event batch ih =>
      rw [collect, List.mapM_cons] at h
      obtain ⟨first, hfirst, h'⟩ := Option.bind_eq_some_iff.mp h
      obtain ⟨others, hothers, heq⟩ := Option.bind_eq_some_iff.mp h'
      cases heq
      rcases List.mem_cons.mp hp with rfl | hp
      · obtain ⟨schedule, hget, heq⟩ := Option.map_eq_some_iff.mp hfirst
        cases heq
        rw [RegisteredAs, hget]
        rfl
      · exact ih hothers hp

theorem reported_stepLoop {a : LoopAction} (h : Reported s) (hspares : s.Spares a)
    (hstep : s.stepLoop s.phase a = some (.ok s')) : Reported s' := by
  unfold stepLoop at hstep
  split at hstep
  · exact h.turned (turned_timers hstep)
  · cases hstep
  · obtain ⟨rest, hcollect, hr⟩ := Option.map_eq_some_iff.mp hstep
    cases hr
    exact registeredAs_collect hcollect
  · rename_i rest hphase
    cases rest with
    | nil =>
        cases hstep
        exact reported_of_pending rfl
    | cons p rest => exact h.turned (turned_event hphase (Option.some.inj hstep))
  · obtain ⟨queue, -, hr⟩ := ok_of_bind_ok (Option.some.inj hstep)
    cases hr
    exact reported_of_pending rfl
  · split at hstep
    · exact reported_call h hspares hstep
    · cases hstep
  · obtain ⟨-, rfl⟩ := leaveGate_ok hstep
    exact h.of_eq rfl rfl
  · cases hstep

theorem reported_step {a : LoopAction} {e : LoopEvent} (h : Reported s) (hspares : s.Spares a)
    (hstep : s.step a = some (.ok (e, s'))) : Reported s' := by
  cases steps_of_step hstep with
  | start hcontrol => exact reported_of_pending rfl
  | code hcontrol hstep => exact reported_stepCode h hspares hstep
  | runTask hcontrol hstep => exact h.turned (turned_runTask hstep)
  | ticker hcontrol hstep =>
      have hset : ∀ i serial timer, Reported (s.setTicker i serial timer) :=
        fun _ _ _ => h.of_eq rfl rfl
      have hqueue :
          ∀ i serial timer queue, Reported ((s.setTicker i serial timer).setQueue queue) :=
        fun _ _ _ _ => h.of_eq rfl rfl
      cases ticked_stepTicker hstep with
      | same hturned => exact h.turned hturned
      | changed timer _ hturned => exact (hset _ _ timer).turned hturned
      | first _ hturned => exact (hqueue _ _ _ _).turned hturned
  | visit hcontrol hstep => exact h.turned (turned_visit hstep)
  | loop hcontrol hstep => exact reported_stepLoop h hspares hstep
  | cleared hcontrol hphase => exact reported_of_pending rfl

end EventLoop

open EventLoop

/-- Every event is dispatched through a schedule in use, the one that was registered when the
event was collected. -/
theorem dispatches_registered {log : List LoopEvent} {p : Pending} {rest : List Pending}
    (h : loopMachine.Run Spares .init log s) (hphase : s.phase = .events (p :: rest)) :
    ∃ schedule, s.held.schedules.get p.event.token = some schedule ∧
      schedule.registration = p.registration := by
  have hreported : Reported s := by
    refine h.invariant (I := fun _ s => Reported s) (reported_of_pending rfl) ?_
    exact fun hreported hspares hstep => reported_step hreported hspares hstep
  have hreg := hreported p (by rw [hphase]; exact List.mem_cons_self)
  exact Option.map_eq_some_iff.mp hreg

/-- A task with two I/O objects, both ready in one batch, that is run for the first. -/
def bothReady : List LoopAction :=
  [.start, .spawn, .call (.register (.ok ())), .call (.scheduleRead ⟨0, ⟨false, false⟩⟩ (.ok ())),
    .call (.register (.ok ())), .call (.scheduleRead ⟨1, ⟨false, false⟩⟩ (.ok ())), .finish false,
    .finish false, .timers 0 ⟨0, 0, 0⟩, .wait (some [⟨0, true, false⟩, ⟨1, true, false⟩]), .event,
    .runTask]

theorem dispatches_registered_of_two :
    ∃ (log : List LoopEvent) (s : EventLoop) (p : Pending) (schedule : Schedule Waiter),
      loopMachine.Run Spares .init log s ∧ s.phase = .events [p] ∧
        s.held.schedules.get p.event.token = some schedule ∧
        schedule.registration = p.registration := by
  have hend : ((loopMachine.exec Spares
      (bothReady ++ [.call (.dropNio ⟨0, ⟨true, false⟩⟩ (.ok ())), .finish false])
      EventLoop.init).map fun r => r.2.phase) = some (.events [⟨⟨1, true, false⟩, 1⟩]) := by
    decide +kernel
  obtain ⟨⟨log, s⟩, hexec, hphase⟩ := Option.map_eq_some_iff.mp hend
  have hrun := Base.Machine.Run.of_exec _ hexec
  obtain ⟨schedule, hget, hregistration⟩ := dispatches_registered hrun hphase
  exact ⟨log, s, _, schedule, hrun, hphase, hget, hregistration⟩

/-- It drops the second, and the event that waits is dispatched through a slot that is free. -/
theorem freed_schedule_dispatched :
    ¬ ∀ (log : List LoopEvent) (s : EventLoop) (p : Pending) (rest : List Pending),
      LoopRun .init log s → s.phase = .events (p :: rest) →
        ∃ schedule, s.held.schedules.get p.event.token = some schedule ∧
          schedule.registration = p.registration := by
  intro h
  have hend : ((loopMachine.exec (fun _ _ => True)
      (bothReady ++ [.call (.dropNio ⟨1, ⟨true, false⟩⟩ (.ok ())), .finish false])
      EventLoop.init).map fun r => (r.2.phase, (r.2.held.schedules.get 1).isNone)) =
        some (.events [⟨⟨1, true, false⟩, 1⟩], true) := by
    decide +kernel
  obtain ⟨⟨log, s⟩, hexec, heq⟩ := Option.map_eq_some_iff.mp hend
  obtain ⟨hphase, hnone⟩ := Prod.mk.inj heq
  obtain ⟨schedule, hget, -⟩ := h log s _ _ (.of_exec _ hexec) hphase
  rw [hget] at hnone
  cases hnone

end Ruyi.Reactor
