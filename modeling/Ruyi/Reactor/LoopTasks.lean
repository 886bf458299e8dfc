import Ruyi.Reactor.LoopExit

namespace Ruyi.Reactor

/-- The serial numbers of the tasks whose drop is under way. -/
def Code.dying : Code → List Nat
  | .outside | .main _ | .task _ _ _ => []
  | .dropped _ serial _ => [serial]
  | .spawned _ _ below => below.dying
  | .spawnedDropped _ serial below => serial :: below.dying

def Control.dying : Control → List Nat
  | .code c => c.dying
  | _ => []

/-- The second task of a `Pair` whose first is being run. -/
def Phase.second : Phase → List Waiter
  | .pair task2 _ => [task2]
  | _ => []

variable {s s' : EventLoop} {w : Waiter}

namespace EventLoop

/-- The main task is there, or no run of it can come before the next main task. -/
def MainLive (s : EventLoop) : Prop := s.mainTask = true ∨ s.gate = 0 ∨ s.phase = .outside

/-- The task that has recorded itself is there. -/
def Live (s : EventLoop) (w : Waiter) : Prop :=
  match w.task with
  | none => s.MainLive
  | some i => ∃ task, s.tasks.get i = some task ∧ w.who = some task.serial

/-- No task completes, or is cleared, while a live I/O object or timer still records it, and
the second task of a `Pair` does not complete while the first is run. -/
def Owned (s : EventLoop) (a : LoopAction) : Prop :=
  match s.control, a with
  | .code (.main _), .finish true =>
      s.gate = 0 ∨ ∀ w ∈ s.phase.second ++ s.held.waiters, w.task ≠ none
  | .code (.task i _ _), .finish true | .code (.spawned i _ _), .finish true =>
      ∀ w ∈ s.phase.second, w.task ≠ some i
  | .code (.dropped _ serial _), .dropped | .code (.spawnedDropped _ serial _), .dropped =>
      ∀ w ∈ s.held.waiters, w.who ≠ some serial
  | .loop, .cleared => ∀ w ∈ s.held.waiters, w.task = none
  | _, _ => True

instance (s : EventLoop) (a : LoopAction) : Decidable (s.Owned a) := by
  unfold Owned
  split <;> infer_instance

/-- No task but those being dropped is recorded after its end. -/
structure Tended (s : EventLoop) : Prop where
  armed : ∀ i n due period, s.tasks.get i ≠ some (.ticker n (.unscheduled due period))
  recorded : s.phase ≠ .clearing → ∀ w ∈ s.held.waiters,
    Live s w ∨ ∃ serial ∈ s.control.dying, w.who = some serial
  second : ∀ w rest, s.phase = .pair w rest → Live s w
  given : ∀ w caller, s.control = .runTask w caller → Live s w

/-- The same while no task is being dropped. -/
structure Settled (s : EventLoop) : Prop where
  armed : ∀ i n due period, s.tasks.get i ≠ some (.ticker n (.unscheduled due period))
  recorded : ∀ w ∈ s.held.waiters, Live s w
  second : ∀ w rest, s.phase = .pair w rest → Live s w
  given : ∀ w caller, s.control = .runTask w caller → Live s w

theorem Settled.tended (h : Settled s) : Tended s :=
  ⟨h.armed, fun _ w hw => .inl (h.recorded w hw), h.second, h.given⟩

theorem Tended.settled (h : Tended s) (hphase : s.phase ≠ .clearing)
    (hdying : s.control.dying = []) : Settled s := by
  refine ⟨h.armed, ?_, h.second, h.given⟩
  intro w hw
  rcases h.recorded hphase w hw with hlive | ⟨serial, hserial, -⟩
  · exact hlive
  · rw [hdying] at hserial
    cases hserial

theorem Live.mono (h : Live s w) (hmain : s.MainLive → s'.MainLive)
    (htasks : ∀ i task, s.tasks.get i = some task → w.task = some i →
      ∃ task', s'.tasks.get i = some task' ∧ task'.serial = task.serial) : Live s' w := by
  unfold Live at h ⊢
  split at h
  · exact hmain h
  · rename_i i hi
    obtain ⟨task, hget, hwho⟩ := h
    obtain ⟨task', hget', hserial⟩ := htasks i task hget hi
    refine ⟨task', hget', ?_⟩
    rw [hserial]
    exact hwho

theorem Live.turned (h : Live s w) (hturned : Turned s s') (hphase : s.phase ≠ .outside) :
    Live s' w := by
  refine h.mono ?_ ?_
  · rintro (hmain | hgate | hout)
    · exact .inl (hturned.mainTask.trans hmain)
    · exact .inr (.inl (hturned.gate.trans hgate))
    · exact absurd hout hphase
  · intro i task hget _
    rw [hturned.tasks]
    exact ⟨task, hget, rfl⟩

theorem Settled.turned (h : Settled s) (hturned : Turned s s') (hphase : s.phase ≠ .outside) :
    Settled s' := by
  have hsecond : ∀ w, (w ∈ s.held.waiters ∨ ∃ rest, s.phase = .pair w rest) → Live s' w := by
    rintro w (hmem | ⟨rest, hpair⟩)
    · exact (h.recorded w hmem).turned hturned hphase
    · exact (h.second w rest hpair).turned hturned hphase
  refine ⟨?_, ?_, ?_, ?_⟩
  · rw [hturned.tasks]
    exact h.armed
  · exact fun w hw => hsecond w (.inl (hturned.waiters hw))
  · exact fun w rest hpair => hsecond w (hturned.second w rest hpair)
  · intro w caller hcontrol
    rcases hturned.given w caller hcontrol with hmem | hpair | ⟨caller', hcontrol'⟩
    · exact hsecond w (.inl hmem)
    · exact hsecond w (.inr hpair)
    · exact (h.given w caller' hcontrol').turned hturned hphase

theorem ne_of_running (h : s.phase.running = true) :
    s.phase ≠ .outside ∧ s.phase ≠ .clearing := by
  constructor <;>
    intro hphase <;>
    rw [hphase] at h <;>
    cases h

theorem live_current {c : Code} (hcontrol : s.control = .code c) (hshape : Shape s) :
    Live s ⟨s.currentTask, c.who⟩ ∨
      ∃ serial ∈ s.control.dying, (Waiter.mk s.currentTask c.who).who = some serial := by
  rw [Shape, hcontrol] at hshape
  obtain ⟨hok, hcurrent, -⟩ := hshape
  rw [hcurrent, hcontrol]
  cases c with
  | outside => exact .inl (.inr (.inr hok))
  | main caller => exact .inl (.inl hok.1)
  | task i serial caller => exact .inl ⟨_, hok.1, rfl⟩
  | spawned i serial below => exact .inl ⟨_, hok.1, rfl⟩
  | dropped i serial caller => exact .inr ⟨serial, List.mem_cons_self, rfl⟩
  | spawnedDropped i serial below => exact .inr ⟨serial, List.mem_cons_self, rfl⟩

theorem tended_held {c : Code} {held : Held} (hcontrol : s.control = .code c) (hshape : Shape s)
    (h : Tended s) (hsub : held.waiters ⊆ ⟨s.currentTask, c.who⟩ :: s.held.waiters) :
    Tended { s with held := held } := by
  refine ⟨h.armed, ?_, h.second, h.given⟩
  intro hphase w hw
  rcases List.mem_cons.mp (hsub hw) with rfl | hmem
  · have hcurrent := live_current hcontrol hshape
    exact hcurrent
  · exact h.recorded hphase w hmem

theorem waiters_initWheel {now : Instant} (hw : w ∈ (s.initWheel now).held.waiters) :
    w ∈ s.held.waiters ∨ w = ⟨some (s.newTicker now).1, some s.spawned⟩ := by
  rcases Held.mem_waiters.mp hw with hmem | hmem | ⟨inner, hwheel, hmem⟩
  · exact .inl (Held.mem_waiters.mpr (.inl hmem))
  · rcases List.mem_cons.mp (Timer.Queue.waiters_push hmem) with rfl | hmem
    · exact .inr rfl
    · exact .inl (Held.mem_waiters.mpr (.inr (.inl hmem)))
  · cases hwheel
    cases hmem

theorem tended_initWheel {now : Instant} (h : Tended s) : Tended (s.initWheel now) := by
  have hlive : ∀ w, Live s w → Live (s.initWheel now) w := by
    intro w hw
    exact hw.mono id fun i task hget _ => ⟨task, get_initWheel hget, rfl⟩
  refine ⟨?_, ?_, ?_, ?_⟩
  · intro i n due period hget
    rw [tasks_initWheel] at hget
    split at hget
    · cases hget
    · exact h.armed i n due period hget
  · intro hphase w hw
    rcases waiters_initWheel hw with hmem | rfl
    · exact (h.recorded hphase w hmem).imp (hlive w) id
    · refine .inl ⟨(s.newTicker now).2, ?_, rfl⟩
      rw [tasks_initWheel, if_pos rfl]
  · exact fun w rest hphase => hlive w (h.second w rest hphase)
  · exact fun w caller hgiven => hlive w (h.given w caller hgiven)

theorem tended_sleep {c : Code} {now : Instant} {dur : Duration} (hcontrol : s.control = .code c)
    (hshape : Shape s) (h : Tended s) (hstep : s.sleep c now dur = .ok s') : Tended s' := by
  obtain ⟨held, hschedule, hr⟩ := ok_of_bind_ok hstep
  cases hr
  cases hwheel : s.held.wheel with
  | some inner =>
      simp only [hwheel] at hschedule ⊢
      exact tended_held hcontrol hshape h (Held.waiters_schedule hschedule)
  | none =>
      simp only [hwheel] at hschedule ⊢
      exact tended_held (s := s.initWheel now) hcontrol (shape_initWheel hcontrol hshape)
        (tended_initWheel h) (Held.waiters_schedule hschedule)

theorem Tended.mono (h : Tended s) (htasks : s'.tasks = s.tasks) (hheld : s'.held = s.held)
    (hphase : s'.phase = s.phase) (hcontrol : s'.control = s.control)
    (hmain : s.MainLive → s'.MainLive) : Tended s' := by
  have hlive : ∀ w, Live s w → Live s' w := by
    intro w hw
    refine hw.mono hmain ?_
    rw [htasks]
    exact fun i task hget _ => ⟨task, hget, rfl⟩
  refine ⟨?_, ?_, ?_, ?_⟩
  · rw [htasks]
    exact h.armed
  · rw [hphase, hheld, hcontrol]
    exact fun hphase w hw => (h.recorded hphase w hw).imp (hlive w) id
  · rw [hphase]
    exact fun w rest hphase => hlive w (h.second w rest hphase)
  · rw [hcontrol]
    exact fun w caller hgiven => hlive w (h.given w caller hgiven)

theorem tended_spawn {c : Code} (hcontrol : s.control = .code c) (h : Tended s) :
    Tended (s.spawn c) := by
  have hlive : ∀ w, Live s w → Live (s.spawn c) w := by
    intro w hw
    exact hw.mono id fun i task hget _ => ⟨task, get_insert_of_some hget _, rfl⟩
  refine ⟨?_, ?_, ?_, by simp [spawn]⟩
  · intro i n due period hget
    rw [spawn, Slab.get_insert] at hget
    split at hget
    · cases hget
    · exact h.armed i n due period hget
  · intro hphase w hw
    have hrecorded := h.recorded hphase w hw
    rw [hcontrol] at hrecorded
    exact hrecorded.imp (hlive w) id
  · exact fun w rest hphase => hlive w (h.second w rest hphase)

theorem tended_unspawn {below : Code} (h : Tended s)
    (hdying : ∀ serial ∈ s.control.dying,
      (∃ w ∈ s.held.waiters, w.who = some serial) → serial ∈ below.dying)
    (hstep : s.unspawn below = .ok s') : Tended s' := by
  unfold unspawn at hstep
  split at hstep
  · cases hstep
  · cases hstep
    refine ⟨h.armed, ?_, h.second, by simp⟩
    intro hphase w hw
    rcases h.recorded hphase w hw with hlive | ⟨serial, hserial, hwho⟩
    · exact .inl hlive
    · exact .inr ⟨serial, hdying serial hserial ⟨w, hw, hwho⟩, hwho⟩

theorem tended_remove {i serial : Nat} {control : Control} (h : Tended s)
    (hget : s.tasks.get i = some (.user serial))
    (howned : ∀ w ∈ s.phase.second, w.task ≠ some i)
    (hdying : ∀ n ∈ s.control.dying, n ∈ control.dying) (hserial : serial ∈ control.dying)
    (hcontrol : ∀ w caller, control ≠ .runTask w caller) :
    Tended { s with tasks := (s.tasks.remove i).2, control := control } := by
  have hlive : ∀ w, Live s w → w.task ≠ some i →
      Live { s with tasks := (s.tasks.remove i).2, control := control } w := by
    intro w hw hne
    refine hw.mono id ?_
    intro j task hj hwj
    refine ⟨task, ?_, rfl⟩
    rw [get_remove_of_ne, hj]
    rintro rfl
    exact hne hwj
  refine ⟨?_, ?_, ?_, ?_⟩
  · intro j n due period hj
    rw [Slab.get_remove] at hj
    split at hj
    · cases hj
    · exact h.armed j n due period hj
  · intro hphase w hw
    rcases h.recorded hphase w hw with hw | ⟨n, hn, hwho⟩
    · by_cases hwi : w.task = some i
      · rw [Live, hwi] at hw
        obtain ⟨task, htask, hwho⟩ := hw
        rw [hget] at htask
        cases htask
        exact .inr ⟨serial, hserial, hwho⟩
      · exact .inl (hlive w hw hwi)
    · exact .inr ⟨n, hdying n hn, hwho⟩
  · intro w rest hphase
    refine hlive w (h.second w rest hphase) (howned w ?_)
    rw [hphase]
    exact List.mem_cons_self
  · exact fun w caller hgiven => absurd hgiven (hcontrol w caller)

theorem tended_finish {c : Code} {ready : Bool} (hcontrol : s.control = .code c) (hshape : Shape s)
    (h : Tended s) (howned : s.Owned (.finish ready)) (hstep : s.finish ready c = some (.ok s')) :
    Tended s' := by
  rw [Shape, hcontrol] at hshape
  obtain ⟨hok, -, hsaved⟩ := hshape
  cases c with
  | outside | dropped _ _ _ | spawnedDropped _ _ _ => cases hstep
  | main caller =>
      obtain ⟨hmain, hrunning, hcaller⟩ := hok
      obtain ⟨hout, hclearing⟩ := ne_of_running hrunning
      have hsettled := h.settled hclearing (by rw [hcontrol]; rfl)
      rw [finish] at hstep
      split at hstep
      · rename_i hready
        have hturned := turned_returned (Option.some.inj hstep)
        have hlive : ∀ w ∈ s.phase.second ++ s.held.waiters, Live s w →
            Live { s with mainTask := false } w := by
          intro w hw hlive
          simp only [Owned, hcontrol, hready] at howned
          rcases howned with hgate | hnone
          · exact hlive.mono (fun _ => .inr (.inl hgate)) fun i task hget _ => ⟨task, hget, rfl⟩
          · unfold Live at hlive ⊢
            split at hlive
            · rename_i htask
              exact absurd htask (hnone w hw)
            · exact hlive
        have hsettled' : Settled { s with mainTask := false } := by
          refine ⟨hsettled.armed, ?_, ?_, ?_⟩
          · exact fun w hw => hlive w (List.mem_append_right _ hw) (hsettled.recorded w hw)
          · intro w rest hphase
            refine hlive w (List.mem_append_left _ ?_) (hsettled.second w rest hphase)
            rw [hphase]
            exact List.mem_cons_self
          · intro w caller hgiven
            rw [hcontrol] at hgiven
            cases hgiven
        exact (hsettled'.turned hturned hout).tended
      · exact (hsettled.turned (turned_returned (Option.some.inj hstep)) hout).tended
  | task i serial caller =>
      obtain ⟨hget, hrunning, hcaller⟩ := hok
      obtain ⟨hout, hclearing⟩ := ne_of_running hrunning
      rw [finish] at hstep
      split at hstep
      · rename_i hready
        cases hstep
        simp only [Owned, hcontrol, hready] at howned
        refine tended_remove h hget howned ?_ List.mem_cons_self fun _ _ => by simp
        rw [hcontrol]
        exact fun n hn => absurd hn List.not_mem_nil
      · have hsettled := h.settled hclearing (by rw [hcontrol]; rfl)
        exact (hsettled.turned (turned_returned (Option.some.inj hstep)) hout).tended
  | spawned i serial below =>
      rw [finish] at hstep
      split at hstep
      · rename_i hready
        cases hstep
        simp only [Owned, hcontrol, hready] at howned
        refine tended_remove h hok.1 howned ?_ List.mem_cons_self fun _ _ => by simp
        rw [hcontrol]
        exact fun n hn => List.mem_cons_of_mem _ hn
      · refine tended_unspawn h ?_ (Option.some.inj hstep)
        rw [hcontrol]
        exact fun n hn _ => hn

theorem tended_dropped {c : Code} (hcontrol : s.control = .code c) (hshape : Shape s)
    (h : Tended s) (howned : s.Owned .dropped) (hstep : s.dropped c = some (.ok s')) :
    Tended s' := by
  rw [Shape, hcontrol] at hshape
  cases c with
  | outside | main _ | task _ _ _ | spawned _ _ _ => cases hstep
  | dropped i serial caller =>
      simp only [Owned, hcontrol] at howned
      obtain ⟨hout, hclearing⟩ := ne_of_running hshape.1.1
      have hsettled : Settled s := by
        refine ⟨h.armed, ?_, h.second, h.given⟩
        intro w hw
        rcases h.recorded hclearing w hw with hlive | ⟨n, hn, hwho⟩
        · exact hlive
        · rw [hcontrol] at hn
          cases List.mem_singleton.mp hn
          exact absurd hwho (howned w hw)
      exact (hsettled.turned (turned_returned (Option.some.inj hstep)) hout).tended
  | spawnedDropped i serial below =>
      simp only [Owned, hcontrol] at howned
      refine tended_unspawn h ?_ (Option.some.inj hstep)
      rw [hcontrol]
      rintro n hn ⟨w, hw, hwho⟩
      rcases List.mem_cons.mp hn with rfl | hn
      · exact absurd hwho (howned w hw)
      · exact hn

theorem tended_stepCode {c : Code} {a : LoopAction} (hcontrol : s.control = .code c)
    (hshape : Shape s) (h : Tended s) (howned : s.Owned a)
    (hstep : s.stepCode c a = some (.ok s')) : Tended s' := by
  unfold stepCode at hstep
  split at hstep
  · obtain ⟨r, hcall, hr⟩ := Option.map_eq_some_iff.mp hstep
    obtain ⟨held, rfl, rfl⟩ := ok_of_map_ok hr
    exact tended_held hcontrol hshape h (Held.waiters_call hcall)
  · exact tended_sleep hcontrol hshape h (Option.some.inj hstep)
  · cases hstep
    rw [enterGate]
    split
    · rename_i hmain
      exact h.mono rfl rfl rfl rfl fun _ => .inl hmain
    · exact h
  · obtain ⟨hgate, rfl⟩ := leaveGate_ok hstep
    exact h.mono rfl rfl rfl rfl fun hmain =>
      hmain.imp_right (.imp_left fun hzero => absurd hzero hgate)
  · cases hstep
    exact tended_spawn hcontrol h
  · exact tended_finish hcontrol hshape h howned hstep
  · exact tended_dropped hcontrol hshape h howned hstep
  · cases hstep

theorem tended_stepTicker {i serial : Nat} (hticking : s.Ticking i serial) (h : Settled s)
    (hstep : s.stepTicker i serial = .ok s') : Tended s' := by
  obtain ⟨hout, -⟩ := ne_of_running hticking.running
  obtain ⟨timer, hget⟩ := hticking.ticker
  cases ticked_stepTicker hstep with
  | same hturned => exact (h.turned hturned hout).tended
  | changed timer' harmed hturned =>
      have hlive : ∀ w, Live s w → Live (s.setTicker i serial timer') w := by
        intro w hw
        refine hw.mono id ?_
        intro j task hj _
        by_cases hji : j = i
        · rw [hji, hget] at hj
          cases hj
          rw [hji]
          exact ⟨_, get_setTicker_self hget, rfl⟩
        · refine ⟨task, ?_, rfl⟩
          rw [get_setTicker, if_neg hji, hj]
      have hsettled : Settled (s.setTicker i serial timer') := by
        refine ⟨?_, fun w hw => hlive w (h.recorded w hw),
          fun w rest hphase => hlive w (h.second w rest hphase),
          fun w caller hgiven => hlive w (h.given w caller hgiven)⟩
        intro j n due period hj
        rw [get_setTicker] at hj
        split at hj
        · obtain ⟨_, -, heq⟩ := Option.map_eq_some_iff.mp hj
          cases heq
          exact harmed due period rfl
        · exact h.armed j n due period hj
      exact (hsettled.turned hturned hout).tended
  | first hunscheduled hturned =>
      obtain ⟨n, hn⟩ := hunscheduled
      exact absurd hn (h.armed i n _ _)

theorem tended_clear (h : s.clear = .ok s') (hcontrol : s.control = .loop) : Tended s' := by
  obtain ⟨queue, -, hr⟩ := ok_of_bind_ok h
  cases hr
  refine ⟨?_, fun hphase => absurd rfl hphase, by simp, ?_⟩
  · intro i n due period hget
    have hnone : s.tasks.clear.get i = none := Slab.get_clear s.tasks i
    rw [hnone] at hget
    cases hget
  · intro w caller hgiven
    have hloop : s.control = .runTask w caller := hgiven
    rw [hcontrol] at hloop
    cases hloop

theorem Settled.phase (h : Settled s) (hout : s.phase ≠ .outside) {phase : Phase}
    (hpair : ∀ w rest, phase ≠ .pair w rest) : Tended { s with phase := phase } := by
  have hlive : ∀ w, Live s w → Live { s with phase := phase } w := by
    intro w hw
    refine hw.mono ?_ fun i task hget _ => ⟨task, hget, rfl⟩
    exact fun hmain => hmain.imp_right (.imp_right fun h => absurd h hout)
  exact ⟨h.armed, fun _ w hw => .inl (hlive w (h.recorded w hw)),
    fun w rest hphase => absurd hphase (hpair w rest),
    fun w caller hgiven => hlive w (h.given w caller hgiven)⟩

theorem tended_stepLoop {a : LoopAction} (hcontrol : s.control = .loop) (hshape : Shape s)
    (h : Tended s) (hstep : s.stepLoop s.phase a = some (.ok s')) : Tended s' := by
  have hsettled : ∀ {phase : Phase}, s.phase = phase → phase ≠ .clearing → Settled s := by
    intro phase hphase hclearing
    rw [← hphase] at hclearing
    exact h.settled hclearing (by rw [hcontrol]; rfl)
  have hout : s.phase ≠ .outside := by
    rw [Shape, hcontrol] at hshape
    exact hshape.1
  unfold stepLoop at hstep
  split at hstep <;> rename_i hphase
  · exact ((hsettled hphase (by simp)).turned (turned_timers hstep) hout).tended
  · cases hstep
  · obtain ⟨rest, -, hr⟩ := Option.map_eq_some_iff.mp hstep
    cases hr
    exact (hsettled hphase (by simp)).phase hout fun _ _ => by simp
  · rename_i rest
    cases rest with
    | nil =>
        cases hstep
        exact (hsettled hphase (by simp)).phase hout fun _ _ => by simp
    | cons p rest =>
        have hturned := turned_event hphase (Option.some.inj hstep)
        exact ((hsettled hphase (by simp)).turned hturned hout).tended
  · exact tended_clear (Option.some.inj hstep) hcontrol
  · split at hstep
    · obtain ⟨r, -, hr⟩ := Option.map_eq_some_iff.mp hstep
      obtain ⟨held, -, rfl⟩ := ok_of_map_ok hr
      exact ⟨h.armed, fun hne => absurd hphase hne, h.second, h.given⟩
    · cases hstep
  · obtain ⟨hgate, rfl⟩ := leaveGate_ok hstep
    exact h.mono rfl rfl rfl rfl fun hmain =>
      hmain.imp_right (.imp_left fun hzero => absurd hzero hgate)
  · cases hstep

theorem tended_step {a : LoopAction} {e : LoopEvent} (hshape : Shape s) (h : Tended s)
    (howned : s.Owned a) (hstep : s.step a = some (.ok (e, s'))) : Tended s' := by
  cases steps_of_step hstep with
  | start hcontrol =>
      rw [Shape, hcontrol] at hshape
      have hlive : ∀ w, Live s w → Live { s with
          mainTask := true, phase := .starting, control := .code (.main .loop) } w :=
        fun w hw => hw.mono (fun _ => .inl rfl) fun i task hget _ => ⟨task, hget, rfl⟩
      refine ⟨h.armed, ?_, by simp, by simp⟩
      intro _ w hw
      refine .inl (hlive w ?_)
      rcases h.recorded (by rw [hshape.1]; simp) w hw with hw | ⟨n, hn, -⟩
      · exact hw
      · rw [hcontrol] at hn
        cases hn
  | code hcontrol hstep => exact tended_stepCode hcontrol hshape h howned hstep
  | runTask hcontrol hstep =>
      rw [Shape, hcontrol] at hshape
      obtain ⟨hout, hclearing⟩ := ne_of_running hshape.running
      have hsettled := h.settled hclearing (by rw [hcontrol]; rfl)
      exact (hsettled.turned (turned_runTask hstep) hout).tended
  | ticker hcontrol hstep =>
      rw [Shape, hcontrol] at hshape
      have hsettled := h.settled (ne_of_running hshape.running).2 (by rw [hcontrol]; rfl)
      exact tended_stepTicker hshape hsettled hstep
  | visit hcontrol hstep =>
      rw [Shape, hcontrol] at hshape
      obtain ⟨hout, hclearing⟩ := ne_of_running hshape.running
      have hsettled := h.settled hclearing (by rw [hcontrol]; rfl)
      exact (hsettled.turned (turned_visit hstep) hout).tended
  | loop hcontrol hstep => exact tended_stepLoop hcontrol hshape h hstep
  | cleared hcontrol hphase =>
      simp only [Owned, hcontrol] at howned
      refine ⟨h.armed, ?_, by simp, by simp⟩
      intro _ w hw
      refine .inl ?_
      unfold Live
      rw [howned w hw]
      exact .inr (.inr rfl)

end EventLoop

open EventLoop

theorem tended_init : Tended EventLoop.init := by
  refine ⟨?_, ?_, by simp [init], by simp [init]⟩
  · intro i n due period hget
    have hnone : (Slab.empty : Slab Task).get i = none := Slab.get_empty i
    rw [EventLoop.init, hnone] at hget
    cases hget
  · intro _ w hw
    rcases Held.mem_waiters.mp hw with hmem | hmem | ⟨inner, hwheel, -⟩
    · cases hmem
    · cases hmem
    · cases hwheel

/-- A task is run while it is there, and by the very task that asked for it. -/
def EventLoop.Alive (s : EventLoop) (w : Waiter) : Prop :=
  match w.task with
  | none => s.mainTask = true
  | some i => ∃ task, s.tasks.get i = some task ∧ w.who = some task.serial

theorem tended_of_run {log : List LoopEvent} (h : loopMachine.Run Owned .init log s) :
    Shape s ∧ Prompt s ∧ Tended s := by
  refine h.invariant (I := fun _ s => Shape s ∧ Prompt s ∧ Tended s)
    ⟨shape_init, trivial, tended_init⟩ ?_
  intro log t a e u ⟨hshape, hprompt, htended⟩ howned hstep
  exact ⟨shape_step hshape hstep, prompt_step hshape hprompt hstep,
    tended_step hshape htended howned hstep⟩

theorem runs_live_tasks {log : List LoopEvent} {caller : Caller}
    (h : loopMachine.Run Owned .init log s) (hcontrol : s.control = .runTask w caller) :
    s.Alive w := by
  obtain ⟨hshape, hprompt, htended⟩ := tended_of_run h
  have hlive := htended.given w caller hcontrol
  unfold Live at hlive
  unfold Alive
  split at hlive
  · rw [Prompt, hcontrol] at hprompt
    rw [Shape, hcontrol] at hshape
    rcases hlive with hmain | hgate | hout
    · exact hmain
    · rw [done, hgate] at hprompt
      simpa using hprompt
    · exact absurd hout (ne_of_running hshape.running).1
  · exact hlive

/-- A task that waits to read and to write on one I/O object, and completes when it is run for
the first. -/
def bothWays : List LoopAction :=
  [.start, .spawn, .call (.register (.ok ())), .call (.scheduleRead ⟨0, ⟨false, false⟩⟩ (.ok ())),
    .call (.scheduleWrite ⟨0, ⟨true, false⟩⟩ (.ok ())), .finish false, .finish false,
    .timers 0 ⟨0, 0, 0⟩, .wait (some [⟨0, true, true⟩]), .event]

theorem runs_live_tasks_of_pair :
    ∃ (log : List LoopEvent) (s : EventLoop) (w : Waiter) (caller : Caller),
      loopMachine.Run Owned .init log s ∧ s.control = .runTask w caller ∧ s.Alive w := by
  have hend : ((loopMachine.exec Owned (bothWays ++ [.runTask, .finish false])
      EventLoop.init).map fun r => r.2.control) = some (.runTask ⟨some 0, some 0⟩ .loop) := by
    decide +kernel
  obtain ⟨⟨log, s⟩, hexec, hcontrol⟩ := Option.map_eq_some_iff.mp hend
  have hrun := Base.Machine.Run.of_exec _ hexec
  exact ⟨log, s, _, _, hrun, hcontrol, runs_live_tasks hrun hcontrol⟩

/-- The second task of a `Pair` is dead when the first, the same one, has completed. -/
theorem dead_task_run :
    ¬ ∀ (log : List LoopEvent) (s : EventLoop) (w : Waiter) (caller : Caller),
      LoopRun .init log s → s.control = .runTask w caller → s.Alive w := by
  intro h
  have hend : ((loopMachine.exec (fun _ _ => True)
      (bothWays ++
        [.runTask, .finish true, .call (.dropNio ⟨0, ⟨true, true⟩⟩ (.ok ())), .dropped])
      EventLoop.init).map fun r => (r.2.control, r.2.tasks.get 0)) =
        some (.runTask ⟨some 0, some 0⟩ .loop, none) := by
    decide +kernel
  obtain ⟨⟨log, s⟩, hexec, heq⟩ := Option.map_eq_some_iff.mp hend
  obtain ⟨hcontrol, hget⟩ := Prod.mk.inj heq
  obtain ⟨task, htask, -⟩ := h log s _ _ (.of_exec _ hexec) hcontrol
  rw [hget] at htask
  cases htask

end Ruyi.Reactor
