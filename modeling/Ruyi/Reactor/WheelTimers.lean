import Ruyi.Reactor.WheelTick

namespace Ruyi.Reactor.Wheel

open Ruyi.Base

variable {τ : Type} {s s' t u : State τ} {chain chain' : Chains} {id : Nat} {task : τ}
  {old : Option Instant} {k : Fin numOfSlots} {log log₀ : List (Event τ)} {e : Event τ}

theorem exists_inv (h : (machine τ).Run State.Allowed State.init log s) : ∃ chain, s.Inv chain := by
  refine Machine.Run.invariant (I := fun _ s => ∃ chain, s.Inv chain) ⟨_, State.inv_init⟩ ?_ h
  rintro log t a e u ⟨chain, hinv⟩ hallowed hstep
  obtain ⟨e', u', chain', hok, -, hinv', -⟩ :=
    hinv.step_ok hallowed (State.inRange_of_step hstep) hstep
  cases hok
  exact ⟨chain', hinv'⟩

/-- The entries between the current slot and the next one on the ring. -/
def Inner.Due (inner : Inner τ) (id : Nat) : Prop :=
  ∃ (ids : List Nat) (idx : Fin numOfSlots),
    Path inner.nextOf (.slot inner.currentSlot) (ids.map .entry) (.slot idx) ∧ id ∈ ids

def Action.OnlySchedules : Action τ → Prop
  | .reschedule _ _ _ => False
  | .drop _ => False
  | _ => True

instance : ∀ a : Action τ, Decidable a.OnlySchedules
  | .reschedule _ _ _ => isFalse fun h => h
  | .drop _ => isFalse fun h => h
  | .schedule _ _ _ => isTrue trivial
  | .tick => isTrue trivial
  | .visit _ => isTrue trivial
  | .finish _ => isTrue trivial

theorem mem_chain_of_due (h : Ring s.inner none chain) (hdue : s.inner.Due id) :
    id ∈ chain (after s.inner.currentSlot) := by
  obtain ⟨ids, idx, hpath, hid⟩ := hdue
  rw [← before_after s.inner.currentSlot] at hpath
  rwa [h.eq_of_path hpath] at hid

/-- The tasks run on behalf of a timer. -/
def tasksRun (id : Nat) (log : List (Event τ)) : List τ :=
  log.filterMap fun
    | .ran id' task => if id' = id then some task else none
    | _ => none

/-- The timer's task has run once, or its turn came after a loop exit was requested. -/
def Handled (id : Nat) (task : τ) (log : List (Event τ)) : Prop :=
  tasksRun id log = [task] ∨
    tasksRun id log = [] ∧ ∃ l₁ l₂, log = l₁ ++ .skipped id :: l₂ ∧ .returned true ∈ l₁

/-- The timer was due at least a second later when its turn came. -/
def PutBack (id : Nat) (old : Option Instant) (log : List (Event τ)) : Prop :=
  tasksRun id log = [] ∧
    ∃ exp now, old = some exp ∧ now + fromSecs 1 ≤ exp ∧ .requeued id now ∈ log

/-- How far `tick` has come with an entry of the slot it empties. -/
def Progress (k : Fin numOfSlots) (id : Nat) (task : τ) (old : Option Instant)
    (log : List (Event τ)) (s : State τ) (chain : Chains) : Prop :=
  (∃ exp, s.inner.dataOf id = some (task, exp)) ∧
    ((id ∈ chain k ∧ tasksRun id log = [] ∧ s.inner.dataOf id = some (task, old)) ∨
      ((∃ i, id ∈ chain i) ∧ PutBack id old log) ∨
      ((∀ i, id ∉ chain i) ∧ Handled id task log))

theorem tasksRun_append_of_ne (h : e.subject ≠ some id) :
    tasksRun id (log ++ [e]) = tasksRun id log := by
  rw [tasksRun, List.filterMap_append]
  cases e with
  | ran id' task =>
      have hne : id' ≠ id := fun heq => h (congrArg some heq)
      simp [tasksRun, hne]
  | scheduled | rescheduled | cancelled | ticked | skipped | requeued | returned =>
      simp [tasksRun]

theorem Handled.append (h : Handled id task log) (hne : e.subject ≠ some id) :
    Handled id task (log ++ [e]) := by
  rw [Handled, tasksRun_append_of_ne hne]
  rcases h with h | ⟨h, l₁, l₂, rfl, hexit⟩
  · exact Or.inl h
  · exact Or.inr ⟨h, l₁, l₂ ++ [e], by simp, hexit⟩

theorem PutBack.append (h : PutBack id old log) (hrun : tasksRun id (log ++ [e]) = []) :
    PutBack id old (log ++ [e]) := by
  obtain ⟨-, exp, now, hold, hfar, hmem⟩ := h
  exact ⟨hrun, exp, now, hold, hfar, List.mem_append_left _ hmem⟩

theorem Progress.step {a : Action τ} (h : Progress k id task old log s chain)
    (heffect : Effect s chain e s' chain') (hshows : a.Shows e) (honly : a.OnlySchedules)
    (hexit : s.exiting → .returned true ∈ log) : Progress k id task old (log ++ [e]) s' chain' := by
  obtain ⟨⟨exp₀, hdata⟩, hwhere⟩ := h
  by_cases hsubject : e.subject = some id
  · cases e with
    | scheduled id' task' =>
        cases hsubject
        obtain ⟨hnone, -⟩ := heffect.tells
        rw [hnone] at hdata
        cases hdata
    | rescheduled id' => cases a <;> first | exact hshows.elim | exact honly.elim
    | cancelled id' => cases a <;> first | exact hshows.elim | exact honly.elim
    | ticked => cases hsubject
    | returned exit => cases hsubject
    | ran id' task' =>
        cases hsubject
        obtain ⟨hmem, hout, ⟨old', hold⟩, hnew⟩ := heffect.tells
        rw [hold] at hdata
        cases hdata
        have hrun : tasksRun id log = [] := by
          rcases hwhere with ⟨-, hrun, -⟩ | ⟨-, hrun, -⟩ | ⟨hnot, -⟩
          · exact hrun
          · exact hrun
          · exact absurd hmem (hnot _)
        refine ⟨⟨none, hnew⟩, Or.inr (Or.inr ⟨hout, Or.inl ?_⟩)⟩
        rw [tasksRun, List.filterMap_append, ← tasksRun, hrun]
        simp
    | skipped id' =>
        cases hsubject
        obtain ⟨hexiting, hmem, hout, task', old', hold, hnew⟩ := heffect.tells
        rw [hold] at hdata
        cases hdata
        have hrun : tasksRun id log = [] := by
          rcases hwhere with ⟨-, hrun, -⟩ | ⟨-, hrun, -⟩ | ⟨hnot, -⟩
          · exact hrun
          · exact hrun
          · exact absurd hmem (hnot _)
        refine ⟨⟨none, hnew⟩,
          Or.inr (Or.inr ⟨hout, Or.inr ⟨?_, log, [], rfl, hexit hexiting⟩⟩)⟩
        rw [tasksRun, List.filterMap_append, ← tasksRun, hrun]
        simp
    | requeued id' now =>
        cases hsubject
        obtain ⟨hmem, hin, task', exp, exp', hold, hfar, hnew⟩ := heffect.tells
        rw [hold] at hdata
        cases hdata
        refine ⟨⟨exp', hnew⟩, Or.inr (Or.inl ⟨hin, ?_⟩)⟩
        have hrun : tasksRun id (log ++ [.requeued id now]) = tasksRun id log := by
          rw [tasksRun, List.filterMap_append, ← tasksRun]
          simp
        rcases hwhere with ⟨-, hrunlog, hsame⟩ | ⟨-, hback⟩ | ⟨hnot, -⟩
        · rw [hold] at hsame
          cases hsame
          exact ⟨hrun.trans hrunlog, exp, now, rfl, hfar, by simp⟩
        · exact hback.append (hrun.trans hback.1)
        · exact absurd hmem (hnot _)
  · have hrun : tasksRun id (log ++ [e]) = tasksRun id log := tasksRun_append_of_ne hsubject
    refine ⟨⟨exp₀, (heffect.data hsubject).trans hdata⟩, ?_⟩
    rcases hwhere with ⟨hmem, hrunlog, hold⟩ | ⟨⟨i, hmem⟩, hback⟩ | ⟨hnot, hdone⟩
    · exact Or.inl ⟨(heffect.member hsubject).mpr hmem, hrun.trans hrunlog,
        (heffect.data hsubject).trans hold⟩
    · exact Or.inr (Or.inl ⟨⟨i, (heffect.member hsubject).mpr hmem⟩,
        hback.append (hrun.trans hback.1)⟩)
    · exact Or.inr (Or.inr ⟨fun i hi => hnot i ((heffect.member hsubject).mp hi),
        hdone.append hsubject⟩)

/-- The steps of a `tick` whose tasks only schedule timers. -/
def Ticking (s : State τ) (a : Action τ) : Prop :=
  s.control ≠ .outside ∧ s.Allowed a ∧ a.OnlySchedules

instance (s : State τ) (a : Action τ) : Decidable (Ticking s a) :=
  inferInstanceAs (Decidable (s.control ≠ .outside ∧ s.Allowed a ∧ a.OnlySchedules))

theorem progress_of_tick (hinv : s.Inv chain) (htick : s.step .tick = some (.ok (.ticked, t)))
    (hrun : (machine τ).Run Ticking t log u) (hdone : u.control = .outside)
    (hmem : id ∈ chain (after s.inner.currentSlot)) (hdata : s.inner.dataOf id = some (task, old)) :
    ∃ chain', u.Inv chain' ∧ chain' (after s.inner.currentSlot) = [] ∧
      Progress (after s.inner.currentSlot) id task old log u chain' := by
  obtain ⟨t', hok, hinv', heffect, -, hexit, hpassed, hsame⟩ := hinv.tick_ok (outside_of_tick htick)
  rw [hok] at htick
  cases htick
  have hstart : t.control ≠ .outside := by
    intro houtside
    rw [hpassed houtside] at hmem
    cases hmem
  let I (log : List (Event τ)) (u : State τ) : Prop := ∃ chain', u.Inv chain' ∧
    Progress (after s.inner.currentSlot) id task old log u chain' ∧
    (u.exiting → .returned true ∈ log) ∧
    (u.control ≠ .outside → u.inner.currentSlot = s.inner.currentSlot) ∧
    (u.control = .outside → chain' (after s.inner.currentSlot) = [])
  have hI : I log u := by
    refine Machine.Run.invariant ⟨chain, hinv', ?_, ?_, ?_, ?_⟩ ?_ hrun
    · refine ⟨⟨old, (heffect.data (by simp [Event.subject])).trans hdata⟩, Or.inl ⟨hmem, rfl, ?_⟩⟩
      exact (heffect.data (by simp [Event.subject])).trans hdata
    · intro hexiting
      rw [hexit] at hexiting
      cases hexiting
    · intro hne
      rw [hsame hne]
    · intro houtside
      exact absurd houtside hstart
    · rintro log u a e v ⟨chain', hinvu, hprogress, hexiting, hcurrent, -⟩
        ⟨hinside, hallowed, honly⟩ hstep
      obtain ⟨e', v', chain'', hokv, hshows, hinvv, heff⟩ :=
        hinvu.step_ok hallowed (State.inRange_of_step hstep) hstep
      cases hokv
      refine ⟨chain'', hinvv, hprogress.step heff hshows honly hexiting, ?_, ?_, ?_⟩
      · intro hexitv
        rcases heff.exiting hexitv with hexitu | rfl
        · exact List.mem_append_left _ (hexiting hexitu)
        · simp
      · intro hne
        rw [heff.current hinside hne, hcurrent hinside]
      · intro houtside
        rw [← hcurrent hinside]
        exact heff.done hinside houtside
  obtain ⟨chain', hinvu, hprogress, -, -, hempty⟩ := hI
  exact ⟨chain', hinvu, hempty hdone, hprogress⟩

/-- `tick` loses no timer: when it returns, following next links around the ring meets
every queued entry once, and every entry that was due has either been expired, its task
run once unless an exit had been requested, or is on the ring again because it was due
more than a second later. -/
theorem tick_loses_no_timer
    (hreach : (machine τ).Run State.Allowed State.init log₀ s)
    (htick : s.step .tick = some (.ok (.ticked, t)))
    (hrun : (machine τ).Run Ticking t log u) (hdone : u.control = .outside) :
    u.inner.Complete ∧ ∀ id, s.inner.Due id → ∃ task old, s.inner.dataOf id = some (task, old) ∧
      (u.inner.prevOf (.entry id) = .nil ∧ u.inner.nextOf (.entry id) = .nil ∧
          Handled id task log ∨
        u.inner.prevOf (.entry id) ≠ .nil ∧ PutBack id old log) := by
  obtain ⟨chain, hinv⟩ := exists_inv hreach
  have hring : Ring s.inner none chain := by
    have := hinv.ring
    rwa [State.busy, outside_of_tick htick] at this
  have hringu : ∀ {chain'}, u.Inv chain' → Ring u.inner none chain' := by
    intro chain' h
    have := h.ring
    rwa [State.busy, hdone] at this
  constructor
  · have hstep : (machine τ).Run State.Allowed State.init (log₀ ++ [.ticked]) t :=
      hreach.snoc (show s.Allowed .tick from trivial) htick
    obtain ⟨chain', hinvu⟩ := exists_inv (hstep.trans (hrun.mono fun _ _ h => h.2.1))
    exact (hringu hinvu).complete
  · intro id hdue
    have hmem := mem_chain_of_due hring hdue
    obtain ⟨⟨task, old⟩, hdata⟩ := Option.isSome_iff_exists.mp (hring.used hmem)
    obtain ⟨chain', hinvu, hempty, -, hwhere⟩ :=
      progress_of_tick hinv htick hrun hdone hmem hdata
    refine ⟨task, old, hdata, ?_⟩
    rcases hwhere with ⟨hwaiting, -⟩ | ⟨⟨i, hqueued⟩, hback⟩ | ⟨hout, hhandled⟩
    · rw [hempty] at hwaiting
      cases hwaiting
    · exact Or.inr ⟨(hringu hinvu).queued hqueued, hback⟩
    · obtain ⟨hprev, hnext⟩ := (hringu hinvu).idle hout
      exact Or.inl ⟨hprev, hnext, hhandled⟩

theorem tick_loses_no_timer_of_two :
    ∃ (s t u : State Unit) (log₀ log : List (Event Unit)),
      (machine Unit).Run State.Allowed State.init log₀ s ∧
        s.step .tick = some (.ok (.ticked, t)) ∧ (machine Unit).Run Ticking t log u ∧
        u.inner.Complete ∧ log = [.ran 0 (), .scheduled 2 (), .returned false, .ran 1 (),
          .returned false, .ran 2 (), .returned false] := by
  let before : List (Action Unit) :=
    [.schedule 0 (fromSecs 1) (), .schedule 0 (fromSecs 1) ()]
  let during : List (Action Unit) :=
    [.visit 5, .schedule 5 (fromSecs 1) (), .finish false, .visit 6, .finish false, .visit 7,
      .finish false]
  have hall : ∀ {s t u : State Unit} {log₀ log : List (Event Unit)},
      (machine Unit).exec State.Allowed before State.init = some (log₀, s) →
      s.step .tick = some (.ok (.ticked, t)) →
      (machine Unit).exec Ticking during t = some (log, u) → u.control = .outside →
      (machine Unit).Run State.Allowed State.init log₀ s ∧
        s.step .tick = some (.ok (.ticked, t)) ∧ (machine Unit).Run Ticking t log u ∧
        u.inner.Complete := by
    intro s t u log₀ log hbefore htick hduring hdone
    have hreach := Machine.Run.of_exec before hbefore
    have hrun := Machine.Run.of_exec during hduring
    exact ⟨hreach, htick, hrun, (tick_loses_no_timer hreach htick hrun hdone).1⟩
  obtain ⟨hreach, htick, hrun, hcomplete⟩ := hall rfl rfl rfl rfl
  exact ⟨_, _, _, _, _, hreach, htick, hrun, hcomplete, rfl⟩

theorem not_complete {inner : Inner τ} {j : Nat} (hqueued : inner.prevOf (.entry id) ≠ .nil)
    (honly : ∀ y, inner.nextOf y = .entry id → y = .entry j)
    (hnone : ∀ y, inner.nextOf y ≠ .entry j) : ¬ inner.Complete := by
  rintro ⟨ring, hpath, -, -, hall⟩
  obtain ⟨y, hy, hnext⟩ := hpath.exists_pred (hall id hqueued)
  obtain rfl := honly y hnext
  rcases List.mem_cons.mp hy with heq | hy
  · cases heq
  · obtain ⟨z, -, hz⟩ := hpath.exists_pred hy
    exact hnone z hz

/-- A timer of one second, scheduled by the task of the only entry of its slot. -/
theorem timer_lost :
    ∃ (log₀ log : List (Event Unit)) (s t u : State Unit),
      (machine Unit).Run (fun _ a => a.OnlySchedules) State.init log₀ s ∧
        s.step .tick = some (.ok (.ticked, t)) ∧
        (machine Unit).Run (fun v a => v.control ≠ .outside ∧ a.OnlySchedules) t log u ∧
        u.control = .outside ∧ ¬ u.inner.Complete := by
  refine ⟨_, _, _, _, _, Machine.Run.of_exec [.schedule 0 (fromSecs 1) ()] rfl, rfl,
    Machine.Run.of_exec [.visit 5, .schedule 5 (fromSecs 1) (), .finish false] rfl, rfl, ?_⟩
  refine @not_complete _ 1 _ 0 (by decide) ?_ ?_
  · rintro (id | i | -) h
    · rcases id with - | - | id
      · rfl
      · exact absurd h (by decide)
      · exact absurd h fun h => nomatch h
    · revert i
      decide
    · exact absurd h (by decide)
  · rintro (id | i | -)
    · rcases id with - | - | id
      · decide
      · decide
      · exact fun h => nomatch h
    · revert i
      decide
    · decide

/-- The last thing to have happened to the `Timer` is that this task scheduled it. -/
def ScheduledBy (task : τ) (id : Nat) (log : List (Event τ)) : Prop :=
  ∃ l₁ l₂, log = l₁ ++ .scheduled id task :: l₂ ∧ .cancelled id ∉ l₂

theorem ScheduledBy.append (h : ScheduledBy task id log) (hne : e ≠ .cancelled id) :
    ScheduledBy task id (log ++ [e]) := by
  obtain ⟨l₁, l₂, rfl, hnot⟩ := h
  refine ⟨l₁, l₂ ++ [e], by simp, ?_⟩
  intro hmem
  rcases List.mem_append.mp hmem with hmem | hmem
  · exact hnot hmem
  · exact hne (List.mem_singleton.mp hmem).symm

theorem Effect.scheduledBy (h : Effect s chain e s' chain')
    (hlog : ∀ {id task exp}, s.inner.dataOf id = some (task, exp) → ScheduledBy task id log)
    {exp : Option Instant} (hdata : s'.inner.dataOf id = some (task, exp)) :
    ScheduledBy task id (log ++ [e]) := by
  have hkept : ∀ {old new}, s.inner.dataOf id = some (task, old) →
      s'.inner.dataOf id = some (task, new) → ScheduledBy task id (log ++ [e]) := by
    intro old new hold hnew
    refine (hlog hold).append ?_
    rintro rfl
    have hnone : s'.inner.dataOf id = none := h.tells
    rw [hnone] at hnew
    cases hnew
  by_cases hsubject : e.subject = some id
  · cases e with
    | scheduled id' task' =>
        cases hsubject
        obtain ⟨-, exp', hnew⟩ := h.tells
        rw [hnew] at hdata
        cases hdata
        exact ⟨log, [], rfl, List.not_mem_nil⟩
    | rescheduled id' =>
        cases hsubject
        obtain ⟨task', old, exp', hold, hnew⟩ := h.tells
        rw [hnew] at hdata
        cases hdata
        exact hkept hold hnew
    | cancelled id' =>
        cases hsubject
        have hnone : s'.inner.dataOf id = none := h.tells
        rw [hnone] at hdata
        cases hdata
    | ran id' task' =>
        cases hsubject
        obtain ⟨-, -, ⟨old, hold⟩, hnew⟩ := h.tells
        rw [hnew] at hdata
        cases hdata
        exact hkept hold hnew
    | skipped id' =>
        cases hsubject
        obtain ⟨-, -, -, task', old, hold, hnew⟩ := h.tells
        rw [hnew] at hdata
        cases hdata
        exact hkept hold hnew
    | requeued id' now =>
        cases hsubject
        obtain ⟨-, -, task', exp', exp'', hold, -, hnew⟩ := h.tells
        rw [hnew] at hdata
        cases hdata
        exact hkept hold hnew
    | ticked => cases hsubject
    | returned exit => cases hsubject
  · exact hkept ((h.data hsubject).symm.trans hdata) hdata

theorem scheduledBy_of_ran (h : (machine τ).Run State.Allowed State.init log s) :
    (∀ {id task exp}, s.inner.dataOf id = some (task, exp) → ScheduledBy task id log) ∧
      ∀ {l₁ l₂ id task}, log = l₁ ++ .ran id task :: l₂ → ScheduledBy task id l₁ := by
  let I (log : List (Event τ)) (s : State τ) : Prop := ∃ chain, s.Inv chain ∧
    (∀ {id task exp}, s.inner.dataOf id = some (task, exp) → ScheduledBy task id log) ∧
    ∀ {l₁ l₂ id task}, log = l₁ ++ .ran id task :: l₂ → ScheduledBy task id l₁
  have hI : I log s := by
    refine Machine.Run.invariant ⟨_, State.inv_init, ?_, ?_⟩ ?_ h
    · intro id task exp hdata
      simp [State.init, Inner.new, Inner.dataOf, Slab.get_empty] at hdata
    · intro l₁ l₂ id task hnil
      simp at hnil
    · rintro log s a e t ⟨chain, hinv, hused, hran⟩ hallowed hstep
      obtain ⟨e', t', chain', hok, -, hinv', heffect⟩ :=
        hinv.step_ok hallowed (State.inRange_of_step hstep) hstep
      cases hok
      refine ⟨chain', hinv', heffect.scheduledBy hused, ?_⟩
      intro l₁ l₂ id task heq
      rcases List.eq_nil_or_concat l₂ with rfl | ⟨l₂, e', rfl⟩
      · obtain ⟨rfl, he⟩ := List.append_inj' heq rfl
        cases he
        obtain ⟨-, -, ⟨old, hold⟩, -⟩ := heffect.tells
        exact hused hold
      · rw [List.concat_eq_append, ← List.cons_append, ← List.append_assoc] at heq
        exact hran (List.append_inj' heq rfl).1
  obtain ⟨chain, -, hused, hran⟩ := hI
  exact ⟨hused, hran⟩

/-- Cancelling timers from inside a tick is safe as long as the entry `tick` has saved
stays: no step accesses an entry that is not in use or reaches `unreachable` (a call whose
deadline is no instant panics), and a task is only run for a timer it scheduled and that has
not been cancelled since. -/
theorem cancelling_is_safe (h : (machine τ).Run State.Allowed State.init log s) :
    (∀ a, s.Allowed a → ∀ f, s.step a = some (.error f) → f = .panic ∧ ¬ a.InRange) ∧
      ∀ l₁ l₂ id task, log = l₁ ++ .ran id task :: l₂ → ScheduledBy task id l₁ := by
  obtain ⟨chain, hinv⟩ := exists_inv h
  constructor
  · intro a hallowed f hstep
    by_cases hrange : a.InRange
    · obtain ⟨e, t, chain', hok, -⟩ := hinv.step_ok hallowed hrange hstep
      cases hok
    · have hpanic := hinv.step_panics hallowed hrange hstep
      exact ⟨Except.error.inj hpanic, hrange⟩
  · intro l₁ l₂ id task heq
    exact (scheduledBy_of_ran h).2 heq

theorem cancelling_third_is_safe :
    ∃ (log : List (Event Unit)) (s : State Unit), .cancelled 2 ∈ log ∧
      (∀ a, s.Allowed a → ∀ f, s.step a = some (.error f) → f = .panic ∧ ¬ a.InRange) ∧
      ∀ l₁ l₂ id task, log = l₁ ++ .ran id task :: l₂ → ScheduledBy task id l₁ := by
  have hrun : ∀ {log : List (Event Unit)} {s : State Unit},
      (machine Unit).exec State.Allowed [.schedule 0 (fromSecs 1) (), .schedule 0 (fromSecs 1) (),
        .schedule 0 (fromSecs 1) (), .tick, .visit 5, .drop 2, .finish false] State.init =
          some (log, s) →
      (∀ a, s.Allowed a → ∀ f, s.step a = some (.error f) → f = .panic ∧ ¬ a.InRange) ∧
        ∀ l₁ l₂ id task, log = l₁ ++ .ran id task :: l₂ → ScheduledBy task id l₁ :=
    fun h => cancelling_is_safe (Machine.Run.of_exec _ h)
  exact ⟨_, _, by decide, hrun rfl⟩

/-- The task of the first of two timers drops the second one, which `tick` has saved. -/
theorem saved_entry_freed :
    ∃ s : State Unit,
      (machine Unit).Run (fun _ _ => True) State.init [.scheduled 0 (), .scheduled 1 (), .ticked,
        .ran 0 (), .cancelled 1, .returned false] s ∧
        s.step (.visit 6) = some (.error .freed) :=
  ⟨_, Machine.Run.of_exec [.schedule 0 (fromSecs 1) (), .schedule 0 (fromSecs 1) (), .tick,
    .visit 5, .drop 1, .finish false] rfl, rfl⟩

end Ruyi.Reactor.Wheel
