import Ruyi.Reactor.WheelFutures

namespace Ruyi.Reactor.Wheel

open Ruyi.Base

variable {τ σ ε ι : Type}

/-- The wheel with the values that own a `Timer`, which are numbered as they are made. -/
structure Owners (τ σ : Type) where
  wheel : State τ
  values : Nat → Option (Timed σ)
  made : Nat

inductive OwnerAction (τ σ ε ι : Type) where
  | make (kind : Option (σ ⊕ σ)) (secs : Nat)
  | poll (i : Nat) (now : Instant) (task : τ) (inside : Inside σ ε ι)
  | drop (i : Nat)
  | wheel (a : Action τ)

inductive OwnerEvent (τ σ ε ι : Type) where
  | made (i secs : Nat)
  | polled (i : Nat) (told : Option (Event τ)) (answer : Answer σ ε ι)
  | dropped (i : Nat) (told : Option (Event τ))
  | wheel (e : Event τ)

namespace Owners

def init : Owners τ σ := ⟨State.init, fun _ => none, 0⟩

def set (s : Owners τ σ) (i : Nat) (v : Option (Timed σ)) (wheel : State τ) : Owners τ σ :=
  { s with wheel := wheel, values := Function.update s.values i v }

def step (s : Owners τ σ) :
    OwnerAction τ σ ε ι → Option (Except Fault (OwnerEvent τ σ ε ι × Owners τ σ))
  | .make kind secs => some (.ok (.made s.made secs,
      { s.set s.made (some (.ofKind secs kind)) s.wheel with made := s.made + 1 }))
  | .poll i now task inside =>
      if s.wheel.yields then
        (s.values i).bind fun v => (v.poll s.wheel now task inside).map fun r => do
          let (answer, next, wheel) ← r
          .ok (.polled i (v.timer.told next.timer task inside.rearms) answer,
            s.set i (some next) wheel)
      else none
  | .drop i =>
      if s.wheel.yields then
        (s.values i).map fun v => do
          let (_, wheel) ← v.timer.drop s.wheel
          .ok (.dropped i (v.timer.entry.map .cancelled), s.set i none wheel)
      else none
  | .wheel a =>
      if a.ofTicker then
        (s.wheel.step a).map fun r => do
          let (e, wheel) ← r
          .ok (.wheel e, { s with wheel := wheel })
      else none

end Owners

def ownersMachine (τ σ ε ι : Type) :
    Machine (Owners τ σ) (OwnerAction τ σ ε ι) (OwnerEvent τ σ ε ι) Fault := ⟨Owners.step⟩

/-- What a step has done to the wheel. -/
def OwnerEvent.told : OwnerEvent τ σ ε ι → Option (Event τ)
  | .made _ _ => none
  | .polled _ told _ => told
  | .dropped _ told => told
  | .wheel e => some e

/-- The entry that a poll of value `i` has taken. -/
def OwnerEvent.arms (i : Nat) : OwnerEvent τ σ ε ι → Option Nat
  | .polled j told _ => if j = i then told.bind Event.arms else none
  | _ => none

/-- Value `i` was made with no time to wait. -/
def OwnerEvent.overAtOnce (i : Nat) : OwnerEvent τ σ ε ι → Bool
  | .made j secs => j = i && secs = 0
  | _ => false

/-- The events of the wheel. -/
def wheelEvents (log : List (OwnerEvent τ σ ε ι)) : List (Event τ) := log.filterMap OwnerEvent.told

def armed (log : List (OwnerEvent τ σ ε ι)) (i : Nat) : Option Nat :=
  log.findSome? (OwnerEvent.arms i)

/-- The time of value `i` is over by what has happened: it had none to wait, or `tick` has passed
its entry since it was last put on the ring. -/
def late (log : List (OwnerEvent τ σ ε ι)) (i : Nat) : Bool :=
  match armed log i with
  | some id => passed (wheelEvents log) id
  | none => log.any (OwnerEvent.overAtOnce i)

section

variable {log : List (OwnerEvent τ σ ε ι)} {e : OwnerEvent τ σ ε ι} {i : Nat}

theorem wheelEvents_concat : wheelEvents (log ++ [e]) = wheelEvents log ++ e.told.toList := by
  rw [wheelEvents, List.filterMap_append, ← wheelEvents]
  cases htold : e.told with
  | none => rw [List.filterMap_cons_none htold, List.filterMap_nil, Option.toList_none]
  | some told => rw [List.filterMap_cons_some htold, List.filterMap_nil, Option.toList_some]

theorem any_concat : (log ++ [e]).any (OwnerEvent.overAtOnce i) =
    (log.any (OwnerEvent.overAtOnce i) || e.overAtOnce i) := by
  rw [List.any_append, List.any_cons, List.any_nil, Bool.or_false]

theorem armed_concat : armed (log ++ [e]) i = (armed log i).or (e.arms i) := by
  rw [armed, List.findSome?_append, ← armed, List.findSome?_singleton]

end

namespace Owners

variable {s t : Owners τ σ} {chain chain' : Chains} {log : List (OwnerEvent τ σ ε ι)}
  {a : OwnerAction τ σ ε ι} {e : OwnerEvent τ σ ε ι} {i : Nat}

/-- Every entry in use is that of one value, and every value has the entry and the time that the
events say. -/
structure Owned (log : List (OwnerEvent τ σ ε ι)) (s : Owners τ σ) (chain : Chains) : Prop where
  wheel : s.wheel.Told chain (wheelEvents log)
  live : ∀ i v, s.values i = some v → v.timer.Live s.wheel
  entry : ∀ i v, s.values i = some v → v.timer.entry = armed log i
  atOnce : ∀ i v, s.values i = some v →
    (v.timer.state = .expired ↔ log.any (OwnerEvent.overAtOnce i) = true)
  owner : ∀ id ∈ s.wheel.timers, ∃ i v, s.values i = some v ∧ v.timer.entry = some id
  apart : ∀ i j v v' id, s.values i = some v → s.values j = some v' →
    v.timer.entry = some id → v'.timer.entry = some id → i = j
  fresh : ∀ i, s.made ≤ i →
    s.values i = none ∧ armed log i = none ∧ log.any (OwnerEvent.overAtOnce i) = false

/-- Nothing disturbs `tick`, and a stream finds an item before `tick` has passed its timer. -/
def Safe (s : Owners τ σ) : OwnerAction τ σ ε ι → Prop
  | .make _ _ => True
  | .poll i now task inside => ∀ v ∈ s.values i,
      (inside.rearms = true → v.timer.overdue s.wheel = false) ∧
        ∀ a ∈ v.calls now task inside, s.wheel.Undisturbed a
  | .drop i => ∀ v ∈ s.values i, ∀ id ∈ v.timer.entry, s.wheel.Undisturbed (.drop id)
  | .wheel a => s.wheel.Allowed a

instance (s : Owners τ σ) : ∀ a : OwnerAction τ σ ε ι, Decidable (s.Safe a)
  | .make _ _ => isTrue trivial
  | .poll i now task inside => inferInstanceAs (Decidable (∀ v ∈ s.values i,
      (inside.rearms = true → v.timer.overdue s.wheel = false) ∧
        ∀ a ∈ v.calls now task inside, s.wheel.Undisturbed a))
  | .drop i => inferInstanceAs (Decidable (∀ v ∈ s.values i, ∀ id ∈ v.timer.entry,
      s.wheel.Undisturbed (.drop id)))
  | .wheel a => inferInstanceAs (Decidable (s.wheel.Allowed a))

theorem owned_init : Owned ([] : List (OwnerEvent τ σ ε ι)) init fun _ => [] :=
  ⟨State.told_init, nofun, nofun, nofun, nofun, nofun, fun _ _ => ⟨rfl, rfl, rfl⟩⟩

theorem Owned.late_eq (h : Owned log s chain) {v : Timed σ} (hi : s.values i = some v) :
    v.timer.late s.wheel = Wheel.late log i := by
  have hentry := h.entry i v hi
  have hatOnce := h.atOnce i v hi
  rw [Wheel.late, ← hentry, Bool.eq_iff_iff, Timer.late_iff]
  cases hid : v.timer.entry with
  | none =>
      dsimp only
      rw [← hatOnce]
      apply or_iff_left
      rw [Timer.overdue, hid]
      exact Bool.false_ne_true
  | some id =>
      have hexpired := (h.live i v hi).isExpired h.wheel.inv hid
      rw [h.wheel.expired id ((h.live i v hi).entry id hid)] at hexpired
      dsimp only
      rw [Except.ok.inj hexpired]
      apply or_iff_right
      intro hstate
      rw [Timer.entry, hstate] at hid
      cases hid

theorem Owned.make (h : Owned log s chain) (kind : Option (σ ⊕ σ)) (secs : Nat) :
    Owned (log ++ [.made s.made secs])
      { s.set s.made (some (.ofKind secs kind)) s.wheel with made := s.made + 1 } chain := by
  have htimer : (Timed.ofKind secs kind).timer = Timer.new secs := by
    rcases kind with - | inner | inner
    · rfl
    · rfl
    · rfl
  have harmed : ∀ i, armed (log ++ [.made s.made secs]) i = armed log i :=
    fun i => armed_concat.trans Option.or_none
  have hvalue : ∀ i v, Function.update s.values s.made (some (.ofKind secs kind)) i = some v →
      i = s.made ∧ v.timer = Timer.new secs ∨ i ≠ s.made ∧ s.values i = some v := by
    intro i v hv
    by_cases hi : i = s.made
    · rw [hi, Function.update_self] at hv
      cases hv
      exact .inl ⟨hi, htimer⟩
    · rw [Function.update_of_ne hi] at hv
      exact .inr ⟨hi, hv⟩
  have hany : ∀ i, i ≠ s.made → (log ++ [OwnerEvent.made s.made secs]).any
      (OwnerEvent.overAtOnce i) = log.any (OwnerEvent.overAtOnce i) := by
    intro i hi
    rw [any_concat, OwnerEvent.overAtOnce, decide_eq_false (Ne.symm hi), Bool.false_and,
      Bool.or_false]
  constructor
  · rw [wheelEvents_concat]
    exact (List.append_nil (wheelEvents log)).symm ▸ h.wheel
  · intro i v hv
    rcases hvalue i v hv with ⟨-, hnew⟩ | ⟨-, hold⟩
    · rw [hnew]
      exact Timer.live_new secs _
    · exact h.live i v hold
  · intro i v hv
    rw [harmed]
    rcases hvalue i v hv with ⟨rfl, hnew⟩ | ⟨-, hold⟩
    · rw [hnew, Timer.entry_new, (h.fresh s.made (Nat.le_refl _)).2.1]
    · exact h.entry i v hold
  · intro i v hv
    rcases hvalue i v hv with ⟨rfl, hnew⟩ | ⟨hi, hold⟩
    · rw [hnew, any_concat, (h.fresh s.made (Nat.le_refl _)).2.2, Timer.new]
      by_cases hsecs : secs = 0
      · simp [OwnerEvent.overAtOnce, hsecs]
      · simp [OwnerEvent.overAtOnce, hsecs]
    · rw [hany i hi]
      exact h.atOnce i v hold
  · intro id hid
    obtain ⟨i, v, hv, hentry⟩ := h.owner id hid
    refine ⟨i, v, (Function.update_of_ne ?_ _ _).trans hv, hentry⟩
    rintro rfl
    cases (h.fresh s.made (Nat.le_refl _)).1.symm.trans hv
  · intro i j v v' id hv hv' hid hid'
    rcases hvalue i v hv with ⟨-, hnew⟩ | ⟨-, hold⟩
    · rw [hnew, Timer.entry_new] at hid
      cases hid
    · rcases hvalue j v' hv' with ⟨-, hnew⟩ | ⟨-, hold'⟩
      · rw [hnew, Timer.entry_new] at hid'
        cases hid'
      · exact h.apart i j v v' id hold hold' hid hid'
  · intro i hi
    have hne : i ≠ s.made := (Nat.lt_of_succ_le hi).ne'
    obtain ⟨hnone, hunarmed, hno⟩ := h.fresh i (Nat.le_of_succ_le hi)
    exact ⟨(Function.update_of_ne hne _ _).trans hnone, (harmed i).trans hunarmed,
      (hany i hne).trans hno⟩

theorem Owned.act (h : Owned log s chain) {v v' : Timed σ} {w' : State τ}
    {told : Option (Event τ)} (hi : s.values i = some v)
    (hacts : v.timer.Acts s.wheel v'.timer w' told) (answer : Answer σ ε ι) :
    ∃ chain', Owned (log ++ [.polled i told answer]) (s.set i (some v') w') chain' := by
  obtain ⟨chain', hacted⟩ := hacts.acted h.wheel (h.live i v hi)
  have hvalue : ∀ j u, Function.update s.values i (some v') j = some u →
      j = i ∧ u = v' ∨ j ≠ i ∧ s.values j = some u := by
    intro j u hu
    by_cases hj : j = i
    · rw [hj, Function.update_self] at hu
      exact .inl ⟨hj, (Option.some.inj hu).symm⟩
    · rw [Function.update_of_ne hj] at hu
      exact .inr ⟨hj, hu⟩
  have harmed : ∀ j, j ≠ i → armed (log ++ [.polled i told answer]) j = armed log j := by
    intro j hj
    rw [armed_concat, OwnerEvent.arms, if_neg (Ne.symm hj), Option.or_none]
  have hany : ∀ j, (log ++ [OwnerEvent.polled i told answer]).any (OwnerEvent.overAtOnce j) =
      log.any (OwnerEvent.overAtOnce j) := fun j => any_concat.trans (Bool.or_false _)
  have hother : ∀ j u id, j ≠ i → s.values j = some u → v'.timer.entry = some id →
      u.timer.entry ≠ some id := by
    intro j u id hj hu hnew hid
    rcases hacted.new id hnew with hold | hnot
    · exact hj (h.apart j i u v id hu hi hid hold)
    · exact hnot ((h.live j u hu).entry id hid)
  refine ⟨chain', ?_, ?_, ?_, ?_, ?_, ?_, ?_⟩
  · rw [wheelEvents_concat]
    exact hacted.wheel
  · intro j u hu
    rcases hvalue j u hu with ⟨-, rfl⟩ | ⟨-, hold⟩
    · exact hacted.live
    · exact ⟨(h.live j u hold).state, fun id hid =>
        hacted.kept id ((h.live j u hold).entry id hid)⟩
  · intro j u hu
    rcases hvalue j u hu with ⟨rfl, rfl⟩ | ⟨hj, hold⟩
    · rw [armed_concat, OwnerEvent.arms, if_pos rfl, ← h.entry j v hi]
      exact hacted.entry
    · rw [harmed j hj]
      exact h.entry j u hold
  · intro j u hu
    rw [hany]
    rcases hvalue j u hu with ⟨rfl, rfl⟩ | ⟨-, hold⟩
    · exact hacted.state.trans (h.atOnce j v hi)
    · exact h.atOnce j u hold
  · intro id hid
    rcases hacted.owner id hid with hold | hnew
    · obtain ⟨j, u, hu, hentry⟩ := h.owner id hold
      by_cases hj : j = i
      · rw [hj, hi] at hu
        cases hu
        refine ⟨i, v', Function.update_self _ _ _, ?_⟩
        rw [hacted.entry, hentry]
        rfl
      · exact ⟨j, u, (Function.update_of_ne hj _ _).trans hu, hentry⟩
    · exact ⟨i, v', Function.update_self _ _ _, hnew⟩
  · intro j k u u' id hu hu' hid hid'
    rcases hvalue j u hu with ⟨rfl, rfl⟩ | ⟨hj, hold⟩
    · rcases hvalue k u' hu' with ⟨rfl, rfl⟩ | ⟨hk, hold'⟩
      · rfl
      · exact absurd hid' (hother k u' id hk hold' hid)
    · rcases hvalue k u' hu' with ⟨rfl, rfl⟩ | ⟨-, hold'⟩
      · exact absurd hid (hother j u id hj hold hid')
      · exact h.apart j k u u' id hold hold' hid hid'
  · intro j hj
    obtain ⟨hnone, hunarmed, hno⟩ := h.fresh j hj
    have hne : j ≠ i := by
      rintro rfl
      cases hnone.symm.trans hi
    exact ⟨(Function.update_of_ne hne _ _).trans hnone, (harmed j hne).trans hunarmed,
      (hany j).trans hno⟩

theorem Owned.quiet (h : Owned log s chain) (hmade : t.made = s.made)
    (harms : ∀ i, e.arms i = none) (hany : ∀ i, e.overAtOnce i = false)
    (hwheel : t.wheel.Told chain' (wheelEvents log ++ e.told.toList))
    (hvalues : ∀ i v, t.values i = some v → s.values i = some v)
    (hkept : ∀ i v id, t.values i = some v → v.timer.entry = some id → id ∈ t.wheel.timers)
    (howner : ∀ id ∈ t.wheel.timers, ∃ i v, t.values i = some v ∧ v.timer.entry = some id) :
    Owned (log ++ [e]) t chain' := by
  have harmed : ∀ i, armed (log ++ [e]) i = armed log i := by
    intro i
    rw [armed_concat, harms, Option.or_none]
  have hsame : ∀ i, (log ++ [e]).any (OwnerEvent.overAtOnce i) =
      log.any (OwnerEvent.overAtOnce i) := by
    intro i
    rw [any_concat, hany, Bool.or_false]
  constructor
  · rw [wheelEvents_concat]
    exact hwheel
  · exact fun i v hv => ⟨(h.live i v (hvalues i v hv)).state, fun id hid => hkept i v id hv hid⟩
  · intro i v hv
    rw [harmed]
    exact h.entry i v (hvalues i v hv)
  · intro i v hv
    rw [hsame]
    exact h.atOnce i v (hvalues i v hv)
  · exact howner
  · exact fun i j v v' id hv hv' => h.apart i j v v' id (hvalues i v hv) (hvalues j v' hv')
  · intro i hi
    rw [hmade] at hi
    obtain ⟨hnone, hunarmed, hno⟩ := h.fresh i hi
    refine ⟨?_, (harmed i).trans hunarmed, (hsame i).trans hno⟩
    cases hv : t.values i with
    | none => rfl
    | some v => cases hnone.symm.trans (hvalues i v hv)

theorem Owned.drop (h : Owned log s chain) {v : Timed σ} (hi : s.values i = some v)
    (hyields : s.wheel.yields = true)
    (hdrop : ∀ id ∈ v.timer.entry, s.wheel.Undisturbed (.drop id)) :
    ∃ timer' w' chain', v.timer.drop s.wheel = .ok (timer', w') ∧
      Owned (log ++ [.dropped i (v.timer.entry.map .cancelled)]) (s.set i none w') chain' := by
  obtain ⟨timer', w', chain', hok, htold, htimers⟩ :=
    Timer.drop_acts h.wheel hyields (h.live i v hi) hdrop
  have hvalue : ∀ j u, (s.set i none w').values j = some u → j ≠ i ∧ s.values j = some u := by
    intro j u hu
    have hj : j ≠ i := by
      rintro rfl
      cases (Function.update_self _ _ _).symm.trans hu
    exact ⟨hj, (Function.update_of_ne hj _ _).symm.trans hu⟩
  refine ⟨timer', w', chain', hok, h.quiet rfl (fun _ => rfl) (fun _ => rfl) htold
    (fun j u hu => (hvalue j u hu).2) ?_ ?_⟩
  · intro j u id hu hid
    obtain ⟨hj, hold⟩ := hvalue j u hu
    refine (htimers id).mpr ⟨(h.live j u hold).entry id hid, fun hsame => ?_⟩
    exact hj (h.apart j i u v id hold hi hid hsame)
  · intro id hid
    obtain ⟨hmem, hne⟩ := (htimers id).mp hid
    obtain ⟨j, u, hu, hentry⟩ := h.owner id hmem
    refine ⟨j, u, (Function.update_of_ne ?_ _ _).trans hu, hentry⟩
    rintro rfl
    cases hu.symm.trans hi
    exact hne hentry

theorem inRange_ofTicker {a : Action τ} (h : a.ofTicker = true) : a.InRange := by
  cases a with
  | tick | visit | finish => trivial
  | schedule | reschedule | drop => cases h

theorem Owned.tick (h : Owned log s chain) {a : Action τ} (ha : a.ofTicker = true)
    (hallowed : s.wheel.Allowed a) {r : Except Fault (Event τ × State τ)}
    (hstep : s.wheel.step a = some r) :
    ∃ e w' chain', r = .ok (e, w') ∧
      Owned (log ++ [.wheel e]) { s with wheel := w' } chain' := by
  obtain ⟨e, w', chain', rfl, hshows, htold, htimers⟩ :=
    h.wheel.step hallowed (inRange_ofTicker ha) hstep
  have hsame : ∀ id, id ∈ w'.timers ↔ id ∈ s.wheel.timers := by
    intro id
    rw [htimers]
    constructor
    · rintro (⟨hid, -⟩ | ⟨task, rfl⟩)
      · exact hid
      · cases a with
        | tick | visit | finish => exact hshows.elim
        | schedule | reschedule | drop => cases ha
    · intro hid
      refine .inl ⟨hid, ?_⟩
      rintro rfl
      cases a with
      | tick | visit | finish => exact hshows.elim
      | schedule | reschedule | drop => cases ha
  refine ⟨e, w', chain', rfl, h.quiet rfl (fun _ => rfl) (fun _ => rfl) htold
    (fun _ _ hv => hv) ?_ ?_⟩
  · exact fun i v id hv hid => (hsame id).mpr ((h.live i v hv).entry id hid)
  · exact fun id hid => h.owner id ((hsame id).mp hid)

/-- A value that is done with is polled again. -/
def Completed (s : Owners τ σ) : OwnerAction τ σ ε ι → Prop
  | .poll i _ _ _ => ∃ v, s.values i = some v ∧ v.Completed
  | _ => False

/-- The deadline of the call that a poll makes is no instant. -/
def Overflows (s : Owners τ σ) : OwnerAction τ σ ε ι → Prop
  | .poll i now task inside =>
      ∃ v, s.values i = some v ∧ ∃ a ∈ v.calls now task inside, ¬ a.InRange
  | _ => False

theorem Owned.poll (h : Owned log s chain) {now : Instant} {task : τ} {inside : Inside σ ε ι}
    {r : Except Fault (OwnerEvent τ σ ε ι × Owners τ σ)}
    (hsafe : s.Safe (.poll i now task inside)) (hstep : s.step (.poll i now task inside) = some r) :
    r = .error .panic ∧ (s.Completed (.poll i now task inside) ∨
        s.Overflows (.poll i now task inside)) ∨
      ∃ told t chain', r = .ok (.polled i told (inside.answer (Wheel.late log i)), t) ∧
        Owned (log ++ [.polled i told (inside.answer (Wheel.late log i))]) t chain' := by
  obtain ⟨hyields, heq⟩ := Option.ite_none_right_eq_some.mp hstep
  obtain ⟨v, hi, heq⟩ := Option.bind_eq_some_iff.mp heq
  obtain ⟨polled, hpoll, rfl⟩ := Option.map_eq_some_iff.mp heq
  obtain ⟨hintime, hcalls⟩ := hsafe v hi
  by_cases hdone : v.Completed
  · left
    rw [Timed.poll_completed hdone hpoll]
    exact ⟨rfl, .inl ⟨v, hi, hdone⟩⟩
  · by_cases hover : ∃ a ∈ v.calls now task inside, ¬ a.InRange
    · left
      obtain ⟨a, ha, hrange⟩ := hover
      rw [Timed.poll_panics h.wheel.inv hyields (h.live i v hi) hintime ha (hcalls a ha) hrange
        hpoll]
      exact ⟨rfl, .inr ⟨v, hi, a, ha, hrange⟩⟩
    · right
      obtain ⟨v', w', rfl, hacts⟩ := Timed.poll_ok h.wheel.inv hyields (h.live i v hi) hdone
        hintime hcalls (fun a ha => not_not.mp fun hrange => hover ⟨a, ha, hrange⟩) hpoll
      rw [h.late_eq hi]
      obtain ⟨chain', hnext⟩ := h.act hi hacts (inside.answer (Wheel.late log i))
      exact ⟨_, _, chain', rfl, hnext⟩

theorem Owned.step_ok (h : Owned log s chain) {r : Except Fault (OwnerEvent τ σ ε ι × Owners τ σ)}
    (hsafe : s.Safe a) (hstep : s.step a = some r) :
    r = .error .panic ∧ (s.Completed a ∨ s.Overflows a) ∨
      ∃ e t chain', r = .ok (e, t) ∧ Owned (log ++ [e]) t chain' := by
  cases a with
  | make kind secs =>
      cases hstep
      exact .inr ⟨_, _, chain, rfl, h.make kind secs⟩
  | poll i now task inside =>
      rcases h.poll hsafe hstep with hdone | ⟨told, t, chain', hok, hnext⟩
      · exact .inl hdone
      · exact .inr ⟨_, t, chain', hok, hnext⟩
  | drop i =>
      obtain ⟨hyields, heq⟩ := Option.ite_none_right_eq_some.mp hstep
      obtain ⟨v, hi, rfl⟩ := Option.map_eq_some_iff.mp heq
      obtain ⟨timer', w', chain', hok, hnext⟩ := h.drop hi hyields (hsafe v hi)
      exact .inr ⟨_, _, chain', bind_of_ok hok rfl, hnext⟩
  | wheel a =>
      obtain ⟨ha, heq⟩ := Option.ite_none_right_eq_some.mp hstep
      obtain ⟨r, hr, rfl⟩ := Option.map_eq_some_iff.mp heq
      obtain ⟨e, w', chain', rfl, hnext⟩ := h.tick ha hsafe hr
      exact .inr ⟨_, _, chain', rfl, hnext⟩

theorem exists_owned (h : (ownersMachine τ σ ε ι).Run Safe init log s) :
    ∃ chain, Owned log s chain := by
  refine h.invariant (I := fun log s => ∃ chain, Owned log s chain) ⟨_, owned_init⟩ ?_
  rintro log t a e u ⟨chain, howned⟩ hsafe hstep
  rcases howned.step_ok hsafe hstep with ⟨hpanic, -⟩ | ⟨e', u', chain', hok, hnext⟩
  · cases hpanic
  · cases hok
    exact ⟨chain', hnext⟩

/-- A poll of a `Sleep` or of a timeout answers by what it finds inside and by whether its time
is over: `tick` has passed its entry since it was last put on the ring, or it had no time to
wait.  It fails only where a timeout that is over is polled again, or where the deadline that it
computes is no instant. -/
theorem answers_in_time (h : (ownersMachine τ σ ε ι).Run Safe init log s) (i : Nat)
    (now : Instant) (task : τ) (inside : Inside σ ε ι)
    {r : Except Fault (OwnerEvent τ σ ε ι × Owners τ σ)}
    (hsafe : s.Safe (.poll i now task inside)) (hstep : s.step (.poll i now task inside) = some r) :
    r = .error .panic ∧ (s.Completed (.poll i now task inside) ∨
        s.Overflows (.poll i now task inside)) ∨
      ∃ told t, r = .ok (.polled i told (inside.answer (Wheel.late log i)), t) := by
  obtain ⟨chain, howned⟩ := exists_owned h
  rcases howned.poll hsafe hstep with hdone | ⟨told, t, chain', hok, -⟩
  · exact .inl hdone
  · exact .inr ⟨told, t, hok⟩

/-- An entry of the wheel is in use when and only when a `Sleep` or a timeout has it, no two of
them have the same, and a drop that leaves what `tick` has saved gives back that of its value. -/
theorem entries_owned (h : (ownersMachine τ σ ε ι).Run Safe init log s) :
    (∀ id, (s.wheel.inner.entries.get id).isSome = true ↔
      ∃ i v, s.values i = some v ∧ v.timer.entry = some id) ∧
    (∀ i j v v' id, s.values i = some v → s.values j = some v' → v.timer.entry = some id →
      v'.timer.entry = some id → i = j) ∧
    ∀ i v, s.values i = some v → s.wheel.yields = true →
      s.Safe (.drop i : OwnerAction τ σ ε ι) →
      ∃ t, s.step (.drop i : OwnerAction τ σ ε ι) =
          some (.ok (.dropped i (v.timer.entry.map .cancelled), t)) ∧
        ∀ id, (t.wheel.inner.entries.get id).isSome = true ↔
          (s.wheel.inner.entries.get id).isSome = true ∧ v.timer.entry ≠ some id := by
  obtain ⟨chain, howned⟩ := exists_owned h
  have hused : ∀ (w : State τ) (chain : Chains), w.Inv chain → ∀ id,
      (w.inner.entries.get id).isSome = true ↔ id ∈ w.timers := by
    intro w chain hinv id
    rw [hinv.timers, Inner.dataOf, Option.isSome_map]
  refine ⟨fun id => ?_, howned.apart, fun i v hi hyields hsafe => ?_⟩
  · rw [hused s.wheel chain howned.wheel.inv]
    constructor
    · exact howned.owner id
    · rintro ⟨i, v, hi, hentry⟩
      exact (howned.live i v hi).entry id hentry
  · obtain ⟨timer', w', chain', hok, htold, htimers⟩ :=
      Timer.drop_acts howned.wheel hyields (howned.live i v hi) (hsafe v hi)
    refine ⟨s.set i none w', ?_, fun id => ?_⟩
    · rw [step, if_pos hyields, hi, Option.map_some, hok]
      rfl
    · rw [hused s.wheel chain howned.wheel.inv]
      exact (hused w' chain' htold.inv id).trans (htimers id)

/-- A sleep of two seconds and a future with a timeout of one, which runs out. -/
def sleepAndTimeout : List (OwnerAction Unit Nat Unit Nat) :=
  [.make none 2, .make (some (.inl 7)) 1, .poll 0 0 () .nothing,
    .poll 1 0 () (.future (.ok .notReady, 7)), .wheel .tick, .wheel (.visit 1)]

theorem answers_in_time_of_two :
    ∃ (log : List (OwnerEvent Unit Nat Unit Nat)) (s : Owners Unit Nat),
      (ownersMachine Unit Nat Unit Nat).Run Safe init log s ∧ Wheel.late log 0 = false ∧
        ∃ told t, s.step (.poll 1 1 () (.future (.ok .notReady, 8)) :
          OwnerAction Unit Nat Unit Nat) =
            some (.ok (.polled 1 told (.future (.error (.timedOut 8))), t)) := by
  have hend : ((ownersMachine Unit Nat Unit Nat).exec Safe sleepAndTimeout init).map (fun r =>
      (Wheel.late r.1 0, Wheel.late r.1 1,
        decide (r.2.Safe (.poll 1 1 () (.future (.ok .notReady, 8)) :
          OwnerAction Unit Nat Unit Nat)),
        (r.2.step (.poll 1 1 () (.future (.ok .notReady, 8)) :
          OwnerAction Unit Nat Unit Nat)).map fun r => r.toOption.isSome)) =
      some (false, true, true, some true) := by
    decide +kernel
  obtain ⟨⟨log, s⟩, hexec, heq⟩ := Option.map_eq_some_iff.mp hend
  obtain ⟨hsleeps, heq⟩ := Prod.mk.inj heq
  obtain ⟨hlate, heq⟩ := Prod.mk.inj heq
  obtain ⟨hsafe, heq⟩ := Prod.mk.inj heq
  obtain ⟨r, hstep, hok⟩ := Option.map_eq_some_iff.mp heq
  have hrun := Machine.Run.of_exec _ hexec
  refine ⟨log, s, hrun, hsleeps, ?_⟩
  rcases answers_in_time hrun 1 1 () _ (of_decide_eq_true hsafe) hstep with
    ⟨rfl, -⟩ | ⟨told, t, rfl⟩
  · cases hok
  · rw [hstep, hlate]
    exact ⟨told, t, rfl⟩

theorem entries_owned_of_two :
    ∃ (log : List (OwnerEvent Unit Nat Unit Nat)) (s : Owners Unit Nat),
      (ownersMachine Unit Nat Unit Nat).Run Safe init log s ∧
        (∃ i v, s.values i = some v ∧ v.timer.entry = some 1) ∧
        ∃ told t, s.step (.drop 0 : OwnerAction Unit Nat Unit Nat) =
            some (.ok (.dropped 0 told, t)) ∧
          (t.wheel.inner.entries.get 1).isSome = true := by
  have hend : ((ownersMachine Unit Nat Unit Nat).exec Safe sleepAndTimeout init).map (fun r =>
      ((r.2.wheel.inner.entries.get 1).isSome, (r.2.values 0).map fun v => v.timer.entry,
        r.2.wheel.yields, decide (r.2.Safe (.drop 0 : OwnerAction Unit Nat Unit Nat)))) =
      some (true, some (some 0), true, true) := by
    decide +kernel
  obtain ⟨⟨log, s⟩, hexec, heq⟩ := Option.map_eq_some_iff.mp hend
  obtain ⟨hused, heq⟩ := Prod.mk.inj heq
  obtain ⟨hvalue, heq⟩ := Prod.mk.inj heq
  obtain ⟨hyields, hsafe⟩ := Prod.mk.inj heq
  obtain ⟨v, hi, hentry⟩ := Option.map_eq_some_iff.mp hvalue
  have hrun := Machine.Run.of_exec _ hexec
  obtain ⟨howner, -, hdrop⟩ := entries_owned hrun
  obtain ⟨t, hstep, hleft⟩ := hdrop 0 v hi hyields (of_decide_eq_true hsafe)
  refine ⟨log, s, hrun, (howner 1).mp hused, _, t, hstep, (hleft 1).mpr ⟨hused, ?_⟩⟩
  rw [hentry]
  exact nofun

end Owners

end Ruyi.Reactor.Wheel
