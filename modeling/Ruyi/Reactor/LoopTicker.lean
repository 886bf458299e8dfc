import Ruyi.Reactor.LoopEvents

namespace Ruyi.Reactor

namespace Held

variable {h h' : Held}

/-- The timer is linked into the wheel: it has not expired. -/
def unexpired (h : Held) (timerId : Nat) : Bool :=
  match h.wheel with
  | none => false
  | some inner => (inner.entries.get timerId).any fun entry => entry.prev ≠ .nil

theorem unexpired_iff {timerId : Nat} :
    h.unexpired timerId = true ↔ ∃ inner entry, h.wheel = some inner ∧
      inner.entries.get timerId = some entry ∧ entry.prev ≠ .nil := by
  unfold unexpired
  cases hwheel : h.wheel with
  | none => simp
  | some inner => cases hget : inner.entries.get timerId <;> simp [hget]

/-- No `Sleep` is waiting for the wheel. -/
def Idle (h : Held) : Prop := ∀ timerId ∈ h.sleeps, h.unexpired timerId = false

instance (h : Held) : Decidable h.Idle :=
  inferInstanceAs (Decidable (∀ timerId ∈ h.sleeps, h.unexpired timerId = false))

theorem idle_of_eq (hidle : h.Idle) (hwheel : h'.wheel = h.wheel) (hsleeps : h'.sleeps = h.sleeps) :
    h'.Idle := by
  intro timerId hmem
  rw [hsleeps] at hmem
  have hexpired := hidle timerId hmem
  rw [unexpired, hwheel]
  exact hexpired

theorem prev_of_idle {inner : Wheel.Inner Waiter} {timerId : Nat} {entry : Wheel.Entry Waiter}
    (hidle : h.Idle) (hmem : timerId ∈ h.sleeps) (hwheel : h.wheel = some inner)
    (hget : inner.entries.get timerId = some entry) : entry.prev = .nil := by
  by_contra hne
  have hexpired := hidle timerId hmem
  rw [unexpired_iff.mpr ⟨inner, entry, hwheel, hget, hne⟩] at hexpired
  cases hexpired

theorem idle_cancel {inner inner' : Wheel.Inner Waiter} {timerId : Nat} (hidle : h.Idle)
    (hmem : timerId ∈ h.sleeps) (hwheel : h.wheel = some inner)
    (hcancel : inner.cancel timerId = .ok inner') :
    Idle { h with wheel := some inner', sleeps := h.sleeps.erase timerId } := by
  have hentries : inner'.entries = (inner.entries.remove timerId).2 := by
    have hfst := Slab.remove_fst inner.entries timerId
    rw [Wheel.Inner.cancel] at hcancel
    split at hcancel
    · cases hcancel
    · rename_i entry entries hremove
      rw [hremove] at hfst
      have hprev := prev_of_idle hidle hmem hwheel hfst.symm
      rw [if_pos hprev] at hcancel
      cases hcancel
      rw [hremove]
  intro other hother
  have hexpired := hidle other (List.mem_of_mem_erase hother)
  rw [← Bool.not_eq_true, unexpired_iff] at hexpired ⊢
  rintro ⟨_, entry, hsome, hget, hprev⟩
  cases hsome
  rw [hentries, Slab.get_remove] at hget
  split at hget
  · cases hget
  · exact hexpired ⟨inner, entry, hwheel, hget, hprev⟩

theorem idle_call {current : Waiter} {c : Call} (hidle : h.Idle)
    (hcall : h.call current c = some (.ok h')) : h'.Idle := by
  have hset : ∀ {nio : Sys.Nio}
      {r : Except Fault (Except ErrorKind Unit × Sys.Nio × Slab (Sys.Schedule Waiter))},
      h.setNio nio r = .ok h' → h'.Idle := by
    intro nio r hset
    obtain ⟨out, -, heq⟩ := ok_of_bind_ok hset
    cases heq
    exact idle_of_eq hidle rfl rfl
  cases c with
  | register result =>
      simp only [call] at hcall
      split at hcall <;> cases hcall <;> exact idle_of_eq hidle rfl rfl
  | scheduleRead nio result | scheduleWrite nio result | cancelWrite nio result =>
      simp only [call] at hcall
      split at hcall
      · exact hset (Option.some.inj hcall)
      · cases hcall
  | dropNio nio result =>
      simp only [call] at hcall
      split at hcall
      · cases hcall
        exact idle_of_eq hidle rfl rfl
      · cases hcall
  | add due | addPeriodic due period =>
      cases hcall
      exact idle_of_eq hidle rfl rfl
  | dropTimer taskId =>
      simp only [call] at hcall
      split at hcall
      · obtain ⟨_, -, hr⟩ := ok_of_bind_ok (Option.some.inj hcall)
        cases hr
        exact idle_of_eq hidle rfl rfl
      · cases hcall
  | reschedule now dur timerId =>
      simp only [call] at hcall
      split at hcall
      · rename_i hmem
        split at hcall
        · cases hcall
        · rename_i inner hwheel
          obtain ⟨inner', hreschedule, -⟩ := ok_of_bind_ok (Option.some.inj hcall)
          obtain ⟨entry, hentry, hlinks⟩ := ok_of_bind_ok hreschedule
          have hget : inner.entries.get timerId = some entry := by
            rw [Wheel.Inner.getEntry] at hentry
            split at hentry
            · rename_i found hfound
              cases hentry
              exact hfound
            · cases hentry
          obtain ⟨_, hnext, -⟩ := ok_of_bind_ok hlinks
          rw [prev_of_idle hidle hmem hwheel hget] at hnext
          cases hnext
      · cases hcall
  | dropSleep timerId =>
      simp only [call] at hcall
      split at hcall
      · rename_i hmem
        split at hcall
        · cases hcall
        · rename_i inner hwheel
          obtain ⟨inner', hcancel, hr⟩ := ok_of_bind_ok (Option.some.inj hcall)
          cases hr
          exact idle_cancel hidle hmem hwheel hcancel
      · cases hcall

end Held

variable {s s' : EventLoop}

namespace EventLoop

/-- The tasks hold the one that ticks the wheel. -/
def Ticks (s : EventLoop) : Prop := ∃ i serial timer, s.tasks.get i = some (.ticker serial timer)

/-- Wheel timers are used in one run only: none is scheduled in a run after the one the wheel
was made in, and none waits when such a run starts. -/
def OneRun (s : EventLoop) : LoopAction → Prop
  | .sleep _ _ => s.held.wheel = none ∨ s.wheelRun = some s.runs
  | .start => s.wheelRun = some s.runs ∨ s.held.Idle
  | _ => True

instance (s : EventLoop) (a : LoopAction) : Decidable (s.OneRun a) := by
  cases a <;> unfold OneRun <;> infer_instance

/-- The ticker is there in the run the wheel was made in, and no timer waits in a later one. -/
structure Wound (s : EventLoop) : Prop where
  past : ∀ r, s.wheelRun = some r → r ≤ s.runs
  ticks : s.wheelRun = some s.runs ↔ s.Ticks
  idle : s.phase.running = true → s.wheelRun ≠ some s.runs → s.held.Idle

theorem Wound.mono (h : Wound s) (hticks : s'.Ticks ↔ s.Ticks) (hwheel : s'.wheelRun = s.wheelRun)
    (hruns : s'.runs = s.runs) (hphase : s'.phase.running = true → s.phase.running = true)
    (hidle : ¬ s.Ticks → s.held.Idle → s'.held.Idle) : Wound s' := by
  refine ⟨?_, ?_, ?_⟩
  · rw [hwheel, hruns]
    exact h.past
  · rw [hwheel, hruns, hticks]
    exact h.ticks
  · rw [hwheel, hruns]
    intro hrunning hne
    exact hidle (fun ht => hne (h.ticks.mpr ht)) (h.idle (hphase hrunning) hne)

theorem Wound.turned (h : Wound s) (hturned : Turned s s')
    (hphase : s'.phase.running = true → s.phase.running = true)
    (hwheel : s.Ticks ∨ s'.held.wheel = s.held.wheel) : Wound s' := by
  refine h.mono ?_ hturned.wheelRun hturned.runs hphase ?_
  · rw [Ticks, Ticks, hturned.tasks]
  · intro hno hidle
    exact Held.idle_of_eq hidle (hwheel.resolve_left hno) hturned.sleeps

theorem wheel_returned {exit : Bool} (h : s.returned exit .loop = .ok s') :
    s'.held.wheel = s.held.wheel := by
  simp only [returned] at h
  split at h
  · cases h
    rfl
  · split at h
    · obtain ⟨queue, -, hr⟩ := ok_of_bind_ok h
      cases hr
      rfl
    · cases h
      rfl
    · cases h
      rfl
    · cases h
      rfl

theorem wheel_runTask {w : Waiter} {caller : Caller} (h : s.runTask w caller = .ok s') :
    s'.held.wheel = s.held.wheel := by
  rw [runTask] at h
  split at h
  · split at h
    · cases h
      rfl
    · cases h
  · split at h
    · cases h
    · cases h
      rfl
    · split at h
      · cases h
        rfl
      · cases h

theorem wheel_timers {now : Instant} {exp : Timer.Expiration}
    (h : s.timers now exp = some (.ok s')) : s'.held.wheel = s.held.wheel := by
  rw [timers] at h
  split at h
  · cases h
    rfl
  · split at h
    · split at h
      · cases h
        rfl
      · obtain ⟨⟨task, queue⟩, -, h'⟩ := ok_of_bind_ok (Option.some.inj h)
        cases task with
        | none =>
            cases h'
            rfl
        | some task =>
            cases h'
            rfl
    · cases h

theorem wheel_event {p : Pending} {rest : List Pending} (h : s.event (p :: rest) = .ok s') :
    s'.held.wheel = s.held.wheel := by
  rw [event] at h
  split at h
  · cases h
  · dsimp only at h
    split at h <;> cases h <;> rfl

theorem ticks_remove {i serial : Nat} {control : Control}
    (hget : s.tasks.get i = some (.user serial)) :
    Ticks { s with tasks := (s.tasks.remove i).2, control := control } ↔ s.Ticks := by
  constructor
  · rintro ⟨j, n, timer, hj⟩
    refine ⟨j, n, timer, ?_⟩
    have hremoved : (s.tasks.remove i).2.get j = some (.ticker n timer) := hj
    rw [Slab.get_remove] at hremoved
    split at hremoved
    · cases hremoved
    · exact hremoved
  · rintro ⟨j, n, timer, hj⟩
    exact ⟨j, n, timer, ticker_remove hget hj⟩

theorem ticks_spawn (c : Code) : (s.spawn c).Ticks ↔ s.Ticks := by
  constructor
  · rintro ⟨j, n, timer, hj⟩
    refine ⟨j, n, timer, ?_⟩
    rw [spawn, Slab.get_insert] at hj
    split at hj
    · cases hj
    · exact hj
  · rintro ⟨j, n, timer, hj⟩
    exact ⟨j, n, timer, get_insert_of_some hj _⟩

theorem wound_initWheel (now : Instant) : Wound (s.initWheel now) := by
  obtain ⟨i, timer, hget⟩ := ticker_initWheel s now
  refine ⟨?_, ⟨fun _ => ⟨i, _, timer, hget⟩, fun _ => rfl⟩, fun _ hne => absurd rfl hne⟩
  rintro r ⟨⟩
  exact Nat.le_refl _

theorem wound_held {held : Held} (h : Wound s) (hrun : s.wheelRun = some s.runs) :
    Wound { s with held := held } :=
  ⟨h.past, h.ticks, fun _ hne => absurd hrun hne⟩

theorem wound_sleep {c : Code} {now : Instant} {dur : Duration} (h : Wound s)
    (honce : s.OneRun (.sleep now dur)) (hstep : s.sleep c now dur = .ok s') : Wound s' := by
  obtain ⟨held, -, hr⟩ := ok_of_bind_ok hstep
  cases hr
  cases hwheel : s.held.wheel with
  | none => exact wound_held (wound_initWheel now) rfl
  | some inner =>
      rcases honce with hnone | hrun
      · rw [hwheel] at hnone
        cases hnone
      · exact wound_held h hrun

theorem wound_call {c : Call} {current : Waiter} (h : Wound s)
    (hstep : (s.held.call current c).map (fun r => r.map fun held => { s with held := held }) =
      some (.ok s')) : Wound s' := by
  obtain ⟨r, hcall, hr⟩ := Option.map_eq_some_iff.mp hstep
  obtain ⟨held, rfl, rfl⟩ := ok_of_map_ok hr
  exact h.mono Iff.rfl rfl rfl id fun _ hidle => Held.idle_call hidle hcall

theorem wound_unspawn {below : Code} (h : Wound s) (hstep : s.unspawn below = .ok s') :
    Wound s' := by
  unfold unspawn at hstep
  split at hstep
  · cases hstep
  · cases hstep
    exact h.mono Iff.rfl rfl rfl id fun _ hidle => hidle

theorem wound_returned {caller : Caller} {exit : Bool} (h : Wound s) (hcalled : s.Called caller)
    (hstep : s.returned exit caller = .ok s') : Wound s' := by
  refine h.turned (turned_returned hstep) (fun _ => hcalled.running) ?_
  cases caller with
  | loop => exact .inr (wheel_returned hstep)
  | tick i serial current next =>
      obtain ⟨taskId, hget⟩ := hcalled.caller
      exact .inl ⟨i, serial, _, hget⟩

theorem wound_finish {c : Code} {ready : Bool} (hcontrol : s.control = .code c) (hshape : Shape s)
    (h : Wound s) (hstep : s.finish ready c = some (.ok s')) : Wound s' := by
  rw [Shape, hcontrol] at hshape
  obtain ⟨hok, -, hsaved⟩ := hshape
  cases c with
  | outside | dropped _ _ _ | spawnedDropped _ _ _ => cases hstep
  | main caller =>
      obtain ⟨hmain, hrunning, hcaller⟩ := hok
      rw [finish] at hstep
      split at hstep
      · have hcompleted : Wound { s with mainTask := false } :=
          h.mono Iff.rfl rfl rfl id fun _ hidle => hidle
        exact wound_returned hcompleted ⟨hrunning, hcaller, hsaved⟩ (Option.some.inj hstep)
      · exact wound_returned h ⟨hrunning, hcaller, hsaved⟩ (Option.some.inj hstep)
  | task i serial caller =>
      obtain ⟨hget, hrunning, hcaller⟩ := hok
      rw [finish] at hstep
      split at hstep
      · cases hstep
        exact h.mono (ticks_remove hget) rfl rfl id fun _ hidle => hidle
      · exact wound_returned h ⟨hrunning, hcaller, hsaved⟩ (Option.some.inj hstep)
  | spawned i serial below =>
      rw [finish] at hstep
      split at hstep
      · cases hstep
        exact h.mono (ticks_remove hok.1) rfl rfl id fun _ hidle => hidle
      · exact wound_unspawn h (Option.some.inj hstep)

theorem wound_stepCode {c : Code} {a : LoopAction} (hcontrol : s.control = .code c)
    (hshape : Shape s) (h : Wound s) (honce : s.OneRun a)
    (hstep : s.stepCode c a = some (.ok s')) : Wound s' := by
  unfold stepCode at hstep
  split at hstep
  · exact wound_call h hstep
  · exact wound_sleep h honce (Option.some.inj hstep)
  · cases hstep
    rw [enterGate]
    split
    · exact h.mono Iff.rfl rfl rfl id fun _ hidle => hidle
    · exact h
  · obtain ⟨-, rfl⟩ := leaveGate_ok hstep
    exact h.mono Iff.rfl rfl rfl id fun _ hidle => hidle
  · cases hstep
    exact h.mono (ticks_spawn c) rfl rfl id fun _ hidle => hidle
  · exact wound_finish hcontrol hshape h hstep
  · unfold dropped at hstep
    split at hstep
    · rw [Shape, hcontrol] at hshape
      exact wound_returned h ⟨hshape.1.1, hshape.1.2, hshape.2.2⟩ (Option.some.inj hstep)
    · exact wound_unspawn h (Option.some.inj hstep)
    · cases hstep
  · cases hstep

theorem wound_stepTicker {i serial : Nat} (hticking : s.Ticking i serial) (h : Wound s)
    (hstep : s.stepTicker i serial = .ok s') : Wound s' := by
  obtain ⟨timer, hget⟩ := hticking.ticker
  have hset : ∀ timer', (s.setTicker i serial timer').Ticks :=
    fun timer' => ⟨i, serial, timer', get_setTicker_self hget⟩
  have hticks : s.Ticks := ⟨i, serial, timer, hget⟩
  have hrunning : ∀ {t : EventLoop}, t.phase.running = true → s.phase.running = true :=
    fun _ => hticking.running
  cases ticked_stepTicker hstep with
  | same hturned => exact h.turned hturned hrunning (.inl hticks)
  | changed timer' _ hturned =>
      have hwound : Wound (s.setTicker i serial timer') :=
        h.mono ⟨fun _ => hticks, fun _ => hset timer'⟩ rfl rfl id fun hno => absurd hticks hno
      exact hwound.turned hturned hrunning (.inl (hset timer'))
  | first _ hturned =>
      have hwound : ∀ timer' queue, Wound ((s.setTicker i serial timer').setQueue queue) :=
        fun timer' _ =>
          h.mono ⟨fun _ => hticks, fun _ => hset timer'⟩ rfl rfl id fun hno => absurd hticks hno
      exact (hwound _ _).turned hturned hrunning (.inl (hset _))

theorem wound_clear (h : Wound s) (hstep : s.clear = .ok s') : Wound s' := by
  obtain ⟨queue, -, hr⟩ := ok_of_bind_ok hstep
  cases hr
  refine ⟨?_, ⟨?_, ?_⟩, by simp [Phase.running]⟩
  · exact fun r hr => Nat.le_succ_of_le (h.past r hr)
  · intro hrun
    exact absurd (h.past _ hrun) (Nat.not_succ_le_self _)
  · rintro ⟨i, serial, timer, hget⟩
    have hnone : s.tasks.clear.get i = none := Slab.get_clear s.tasks i
    rw [hnone] at hget
    cases hget

theorem wound_stepLoop {a : LoopAction} (h : Wound s)
    (hstep : s.stepLoop s.phase a = some (.ok s')) : Wound s' := by
  have hrunning : ∀ {phase : Phase} {t : EventLoop}, s.phase = phase → phase.running = true →
      t.phase.running = true → s.phase.running = true := by
    intro phase t hphase hrunning _
    rw [hphase]
    exact hrunning
  unfold stepLoop at hstep
  split at hstep <;> rename_i hphase
  · exact h.turned (turned_timers hstep) (hrunning hphase rfl) (.inr (wheel_timers hstep))
  · cases hstep
  · obtain ⟨rest, -, hr⟩ := Option.map_eq_some_iff.mp hstep
    cases hr
    exact h.mono Iff.rfl rfl rfl (fun _ => by rw [hphase]; rfl) fun _ hidle => hidle
  · rename_i rest
    cases rest with
    | nil =>
        cases hstep
        exact h.mono Iff.rfl rfl rfl (fun _ => by rw [hphase]; rfl) fun _ hidle => hidle
    | cons p rest =>
        have hevent := Option.some.inj hstep
        exact h.turned (turned_event hphase hevent) (hrunning hphase rfl)
          (.inr (wheel_event hevent))
  · exact wound_clear h (Option.some.inj hstep)
  · split at hstep
    · exact wound_call h hstep
    · cases hstep
  · obtain ⟨-, rfl⟩ := leaveGate_ok hstep
    exact h.mono Iff.rfl rfl rfl id fun _ hidle => hidle
  · cases hstep

theorem wound_step {a : LoopAction} {e : LoopEvent} (hshape : Shape s) (h : Wound s)
    (honce : s.OneRun a) (hstep : s.step a = some (.ok (e, s'))) : Wound s' := by
  cases steps_of_step hstep with
  | start hcontrol => exact ⟨h.past, h.ticks, fun _ hne => honce.resolve_left hne⟩
  | code hcontrol hstep => exact wound_stepCode hcontrol hshape h honce hstep
  | runTask hcontrol hstep =>
      rw [Shape, hcontrol] at hshape
      exact h.turned (turned_runTask hstep) (fun _ => hshape.running) (.inr (wheel_runTask hstep))
  | ticker hcontrol hstep =>
      rw [Shape, hcontrol] at hshape
      exact wound_stepTicker hshape h hstep
  | visit hcontrol hstep =>
      rw [Shape, hcontrol] at hshape
      obtain ⟨hrunning, ⟨taskId, hget⟩, -⟩ := hshape
      exact h.turned (turned_visit hstep) (fun _ => hrunning) (.inl ⟨_, _, _, hget⟩)
  | loop hcontrol hstep => exact wound_stepLoop h hstep
  | cleared hcontrol hphase =>
      exact h.mono Iff.rfl rfl rfl (by simp [Phase.running]) fun _ hidle => hidle

end EventLoop

open EventLoop

theorem wound_init : Wound EventLoop.init := by
  refine ⟨by simp [init], ⟨by simp [init], ?_⟩, by simp [init, Phase.running]⟩
  rintro ⟨i, serial, timer, hget⟩
  have hnone : (Slab.empty : Slab Task).get i = none := Slab.get_empty i
  rw [EventLoop.init, hnone] at hget
  cases hget

/-- While a wheel timer waits in a run, the task that ticks its wheel is there. -/
theorem sleep_has_ticker {log : List LoopEvent} {timerId : Nat}
    (h : loopMachine.Run OneRun .init log s) (hrunning : s.phase.running = true)
    (hmem : timerId ∈ s.held.sleeps) (hwaits : s.held.unexpired timerId = true) : s.Ticks := by
  have hinv : Shape s ∧ Wound s := by
    refine h.invariant (I := fun _ s => Shape s ∧ Wound s) ⟨shape_init, wound_init⟩ ?_
    intro log t a e u ⟨hshape, hwound⟩ honce hstep
    exact ⟨shape_step hshape hstep, wound_step hshape hwound honce hstep⟩
  by_contra hno
  have hidle := hinv.2.idle hrunning fun hrun => hno (hinv.2.ticks.mp hrun)
  rw [hidle timerId hmem] at hwaits
  cases hwaits

theorem sleep_has_ticker_of_one :
    ∃ (log : List LoopEvent) (s : EventLoop), loopMachine.Run OneRun .init log s ∧
      s.phase.running = true ∧ 0 ∈ s.held.sleeps ∧ s.held.unexpired 0 = true ∧ s.Ticks := by
  have hend : ((loopMachine.exec OneRun [.start, .sleep 0 (fromSecs 1), .finish false]
      EventLoop.init).map fun r => (r.2.phase.running, decide (0 ∈ r.2.held.sleeps),
        r.2.held.unexpired 0)) = some (true, true, true) := by
    decide +kernel
  obtain ⟨⟨log, s⟩, hexec, heq⟩ := Option.map_eq_some_iff.mp hend
  obtain ⟨hrunning, heq⟩ := Prod.mk.inj heq
  obtain ⟨hmem, hwaits⟩ := Prod.mk.inj heq
  have hrun := Base.Machine.Run.of_exec _ hexec
  exact ⟨log, s, hrun, hrunning, of_decide_eq_true hmem, hwaits,
    sleep_has_ticker hrun hrunning (of_decide_eq_true hmem) hwaits⟩

/-- A timer in each of two runs: in the second, no task ticks the wheel. -/
theorem sleep_without_ticker :
    ¬ ∀ (log : List LoopEvent) (s : EventLoop) (timerId : Nat),
      LoopRun .init log s → s.phase.running = true → timerId ∈ s.held.sleeps →
        s.held.unexpired timerId = true → s.Ticks := by
  intro h
  have hend : ((loopMachine.exec (fun _ _ => True)
      [.start, .sleep 0 (fromSecs 1), .call (.dropSleep 0), .finish true, .clear, .cleared,
        .start, .sleep 0 (fromSecs 1), .finish false]
      EventLoop.init).map fun r => (r.2.phase.running, decide (0 ∈ r.2.held.sleeps),
        r.2.held.unexpired 0, r.2.tasks.objs)) = some (true, true, true, []) := by
    decide +kernel
  obtain ⟨⟨log, s⟩, hexec, heq⟩ := Option.map_eq_some_iff.mp hend
  obtain ⟨hrunning, heq⟩ := Prod.mk.inj heq
  obtain ⟨hmem, heq⟩ := Prod.mk.inj heq
  obtain ⟨hwaits, hobjs⟩ := Prod.mk.inj heq
  obtain ⟨i, serial, timer, hget⟩ :=
    h log s 0 (.of_exec _ hexec) hrunning (of_decide_eq_true hmem) hwaits
  rw [Slab.get, hobjs] at hget
  cases hget

end Ruyi.Reactor
