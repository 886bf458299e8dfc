import Ruyi.Reactor.Rearming

namespace Ruyi.Reactor.Wheel

open Ruyi.Base

variable {τ : Type}

/-- The ticker takes the step, and no owner of a `Timer`. -/
def Action.ofTicker : Action τ → Bool
  | .tick | .visit _ | .finish _ => true
  | .schedule _ _ _ | .reschedule _ _ _ | .drop _ => false

/-- `tick` has passed the entry, and it is on the ring no more. -/
def Event.expires : Event τ → Bool
  | .ran _ _ | .skipped _ => true
  | _ => false

/-- `tick` has passed the entry since it was last put on the ring. -/
def passed (events : List (Event τ)) (id : Nat) : Bool :=
  events.foldl (fun late e => if e.subject = some id then e.expires else late) false

theorem passed_concat (events : List (Event τ)) (e : Event τ) (id : Nat) :
    passed (events ++ [e]) id = if e.subject = some id then e.expires else passed events id := by
  rw [passed, List.foldl_append]
  rfl

namespace State

variable {w w' : State τ} {chain chain' : Chains} {events : List (Event τ)} {e : Event τ}
  {a : Action τ} {id : Nat}

/-- The wheel is well-formed, and an entry has expired when the events say so. -/
structure Told (w : State τ) (chain : Chains) (events : List (Event τ)) : Prop where
  inv : w.Inv chain
  expired : ∀ id ∈ w.timers, w.inner.isExpired id = .ok (passed events id)

theorem told_init : Told (init : State τ) (fun _ => []) [] := ⟨inv_init, nofun⟩

theorem Inv.isExpired_of_free (h : w.Inv chain) (hid : id ∈ w.timers) (hfree : ∀ i, id ∉ chain i) :
    w.inner.isExpired id = .ok true := by
  obtain ⟨entry, hget⟩ := Inner.exists_entry (h.timers.mp hid)
  have hok : w.inner.isExpired id = .ok (decide (entry.prev = .nil)) :=
    bind_of_ok (Inner.getEntry_ok hget) rfl
  cases hexpired : decide (entry.prev = .nil) with
  | true => rw [hok, hexpired]
  | false =>
      rw [hexpired] at hok
      obtain ⟨i, hi⟩ := h.ring.exists_mem hok
      exact absurd hi (hfree i)

theorem Inv.isExpired_same (h : w.Inv chain) (h' : w'.Inv chain') (hid : id ∈ w.timers)
    (hid' : id ∈ w'.timers) (hmember : ∀ i, id ∈ chain' i ↔ id ∈ chain i) :
    w'.inner.isExpired id = w.inner.isExpired id := by
  by_cases hmem : ∃ i, id ∈ chain i
  · obtain ⟨i, hi⟩ := hmem
    rw [h.ring.isExpired_of_mem hi, h'.ring.isExpired_of_mem ((hmember i).mpr hi)]
  · have hfree : ∀ i, id ∉ chain i := fun i hi => hmem ⟨i, hi⟩
    rw [h.isExpired_of_free hid hfree]
    exact h'.isExpired_of_free hid' fun i hi => hfree i ((hmember i).mp hi)

theorem Inv.timers_iff (h : w.Inv chain) (h' : w'.Inv chain')
    (heffect : Effect w chain e w' chain') : id ∈ w'.timers ↔
      (id ∈ w.timers ∧ e ≠ .cancelled id) ∨ ∃ task, e = .scheduled id task := by
  rw [h.timers, h'.timers]
  by_cases hsubject : e.subject = some id
  · have htells := heffect.tells
    cases e with
    | scheduled id' task =>
        cases hsubject
        obtain ⟨-, exp, hnew⟩ := htells
        simp [hnew]
    | cancelled id' =>
        cases hsubject
        have hnone : w'.inner.dataOf id = none := htells
        simp [hnone]
    | rescheduled id' =>
        cases hsubject
        obtain ⟨task, old, exp, hold, hnew⟩ := htells
        simp [hold, hnew]
    | ran id' task =>
        cases hsubject
        obtain ⟨-, -, ⟨old, hold⟩, hnew⟩ := htells
        simp [hold, hnew]
    | skipped id' =>
        cases hsubject
        obtain ⟨-, -, -, task, old, hold, hnew⟩ := htells
        simp [hold, hnew]
    | requeued id' now =>
        cases hsubject
        obtain ⟨-, -, task, exp, exp', hold, -, hnew⟩ := htells
        simp [hold, hnew]
    | ticked => cases hsubject
    | returned exit => cases hsubject
  · rw [heffect.data hsubject]
    constructor
    · intro hused
      refine .inl ⟨hused, ?_⟩
      rintro rfl
      exact hsubject rfl
    · rintro (⟨hused, -⟩ | ⟨task, rfl⟩)
      · exact hused
      · exact absurd rfl hsubject

theorem Inv.isExpired_subject (h' : w'.Inv chain') (hid : id ∈ w'.timers) (hshows : a.Shows e)
    (heffect : Effect w chain e w' chain') (hdetail : Detail w a e w' chain')
    (hsubject : e.subject = some id) : w'.inner.isExpired id = .ok e.expires := by
  have htells := heffect.tells
  cases e with
  | scheduled id' task =>
      cases hsubject
      cases a with
      | schedule => exact h'.ring.isExpired_of_mem hdetail.places.1
      | _ => exact hshows.elim
  | rescheduled id' =>
      cases hsubject
      cases a with
      | reschedule => exact h'.ring.isExpired_of_mem hdetail.places.1
      | _ => exact hshows.elim
  | cancelled id' =>
      cases hsubject
      rw [h'.timers, show w'.inner.dataOf id = none from htells] at hid
      cases hid
  | ran id' task =>
      cases hsubject
      exact h'.isExpired_of_free hid htells.2.1
  | skipped id' =>
      cases hsubject
      exact h'.isExpired_of_free hid htells.2.2.1
  | requeued id' now =>
      cases hsubject
      obtain ⟨-, ⟨i, hi⟩, -⟩ := htells
      exact h'.ring.isExpired_of_mem hi
  | ticked => cases hsubject
  | returned exit => cases hsubject

theorem Told.step (h : w.Told chain events) (hallowed : w.Allowed a) (hrange : a.InRange)
    {r : Except Fault (Event τ × State τ)} (hstep : w.step a = some r) :
    ∃ e w' chain', r = .ok (e, w') ∧ a.Shows e ∧ w'.Told chain' (events ++ [e]) ∧
      ∀ id, id ∈ w'.timers ↔
        (id ∈ w.timers ∧ e ≠ .cancelled id) ∨ ∃ task, e = .scheduled id task := by
  obtain ⟨e, w', chain', hok, hshows, hinv, heffect, hdetail⟩ :=
    h.inv.step_spec hallowed hrange hstep
  have htimers : ∀ id, id ∈ w'.timers ↔
      (id ∈ w.timers ∧ e ≠ .cancelled id) ∨ ∃ task, e = .scheduled id task :=
    fun id => h.inv.timers_iff hinv heffect
  refine ⟨e, w', chain', hok, hshows, ⟨hinv, fun id hid => ?_⟩, htimers⟩
  rw [passed_concat]
  split
  · rename_i hsubject
    exact hinv.isExpired_subject hid hshows heffect hdetail hsubject
  · rename_i hsubject
    rcases (htimers id).mp hid with ⟨hmem, -⟩ | ⟨task, rfl⟩
    · rw [h.inv.isExpired_same hinv hmem hid fun i => heffect.member hsubject]
      exact h.expired id hmem
    · exact absurd rfl hsubject

theorem step_of_yields (hyields : w.yields = true) (ha : a.ofTicker = false) :
    w.step a = w.call a := by
  rcases hcontrol : w.control with - | ⟨current, id, exit⟩ | ⟨current, id, next⟩
  · unfold step
    rw [hcontrol]
    cases a with
    | tick => cases ha
    | _ => rfl
  · rw [yields, hcontrol] at hyields
    cases hyields
  · unfold step
    rw [hcontrol]
    cases a with
    | finish exit => cases ha
    | _ => rfl

theorem step_schedule (hyields : w.yields = true) {now : Instant} {dur : Duration} {task : τ}
    (h : w.schedule now dur task = .ok (id, w')) :
    w.step (.schedule now dur task) = some (.ok (.scheduled id task, w')) := by
  rw [step_of_yields hyields rfl, call]
  obtain ⟨⟨id', inner⟩, hinner, heq⟩ := ok_of_bind_ok h
  cases heq
  rw [hinner]
  rfl

theorem step_reschedule (hyields : w.yields = true) {now : Instant} {dur : Duration}
    (hmem : id ∈ w.timers) (h : w.reschedule now dur id = .ok w') :
    w.step (.reschedule now dur id) = some (.ok (.rescheduled id, w')) := by
  rw [step_of_yields hyields rfl, call, if_pos hmem]
  obtain ⟨inner, hinner, heq⟩ := ok_of_bind_ok h
  cases heq
  rw [hinner]
  rfl

theorem step_drop (hyields : w.yields = true) (hmem : id ∈ w.timers)
    (h : w.cancel id = .ok w') : w.step (.drop id) = some (.ok (.cancelled id, w')) := by
  rw [step_of_yields hyields rfl, call, if_pos hmem]
  obtain ⟨inner, hinner, heq⟩ := ok_of_bind_ok h
  cases heq
  rw [hinner]
  rfl

end State

end Ruyi.Reactor.Wheel
