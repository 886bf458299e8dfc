import Ruyi.Reactor.WheelRing

namespace Ruyi.Reactor.Wheel

open Ruyi.Base

variable {τ : Type} {s s' : State τ} {chain chain' : Chains} {id : Nat}

/-- The entry is the last of its slot, and `tick` will put it back one second ahead. -/
def Inner.rebounds (inner : Inner τ) (id : Nat) (now : Instant) : Bool :=
  match inner.entries.get id with
  | some ⟨_, .slot _, _, some exp⟩ => now + fromSecs 1 ≤ exp && roundToSecs (exp - now) == 1
  | _ => false

namespace State

/-- The token `tick` has saved across the running task. -/
def saved (s : State τ) : Option Token :=
  match s.control with
  | .task _ _ next => some next
  | _ => none

/-- The running task belongs to the last entry of its slot. -/
def atLast (s : State τ) : Bool :=
  match s.control with
  | .task _ _ (.slot _) => true
  | _ => false

/-- A loop exit has been requested, and entries are still to be passed. -/
def exiting (s : State τ) : Bool :=
  match s.control with
  | .turn _ _ exit => exit
  | _ => false

/-- The entry whose turn it is goes back into the slot that is being emptied, behind
nothing. -/
def rebounds (s : State τ) (now : Instant) : Bool :=
  match s.control with
  | .turn _ id false => s.inner.rebounds id now
  | _ => false

def busy (s : State τ) : Option (Fin numOfSlots) :=
  match s.control with
  | .outside => none
  | .turn current _ _ => some (after current)
  | .task current _ _ => some (after current)

/-- The steps that neither move the entry `tick` has saved nor, from the last entry of a
slot, queue anything in the slot that is being emptied. -/
def Allowed (s : State τ) : Action τ → Prop
  | .schedule _ dur _ => s.atLast → asSecs dur ≠ 1
  | .reschedule _ dur id => s.inner.prevOf (.entry id) ≠ .nil ∧ s.saved ≠ some (.entry id) ∧
      (s.atLast → roundToSecs dur ≠ 1)
  | .drop id => s.saved ≠ some (.entry id)
  | .visit now => s.rebounds now = false
  | .tick => True
  | .finish _ => True

instance : ∀ (s : State τ) (a : Action τ), Decidable (s.Allowed a)
  | s, .schedule _ dur _ => inferInstanceAs (Decidable (s.atLast → asSecs dur ≠ 1))
  | s, .reschedule _ dur id =>
      inferInstanceAs (Decidable (s.inner.prevOf (.entry id) ≠ .nil ∧
        s.saved ≠ some (.entry id) ∧ (s.atLast → roundToSecs dur ≠ 1)))
  | s, .drop id => inferInstanceAs (Decidable (s.saved ≠ some (.entry id)))
  | s, .visit now => inferInstanceAs (Decidable (s.rebounds now = false))
  | _, .tick => isTrue trivial
  | _, .finish _ => isTrue trivial

/-- The wheel is well-formed, `tick` stands at the first of the entries still queued in the
slot it empties, and the `Timer` values are the entries in use. -/
structure Inv (s : State τ) (chain : Chains) : Prop where
  ring : Ring s.inner s.busy chain
  turn : ∀ {current id exit}, s.control = .turn current id exit →
    current = s.inner.currentSlot ∧ (chain (after current)).head? = some id
  task : ∀ {current id next}, s.control = .task current id next →
    current = s.inner.currentSlot ∧ next = firstToken (after current) (chain (after current))
  nodup : s.timers.Nodup
  timers : ∀ {id}, id ∈ s.timers ↔ (s.inner.dataOf id).isSome

theorem inv_init : Inv (init : State τ) fun _ => [] := by
  refine ⟨Ring.new, ?_, ?_, List.nodup_nil, ?_⟩
  · intro current id exit h
    cases h
  · intro current id next h
    cases h
  · intro id
    simp [init, Inner.new, Inner.dataOf, Slab.get_empty]

end State

/-- The deadline that a call computes is an instant. -/
def Action.InRange : Action τ → Prop
  | .schedule now dur _ => mask < asSecs dur → Fits now dur
  | .reschedule now dur _ => mask < roundToSecs dur → Fits now dur
  | .drop _ | .visit _ | .tick | .finish _ => True

instance Action.decidableInRange : ∀ a : Action τ, Decidable a.InRange
  | .schedule now dur _ => inferInstanceAs (Decidable (mask < asSecs dur → Fits now dur))
  | .reschedule now dur _ => inferInstanceAs (Decidable (mask < roundToSecs dur → Fits now dur))
  | .drop _ | .visit _ | .tick | .finish _ => isTrue trivial

/-- The entry an event is about. -/
def Event.subject : Event τ → Option Nat
  | .scheduled id _ => some id
  | .rescheduled id => some id
  | .cancelled id => some id
  | .ran id _ => some id
  | .skipped id => some id
  | .requeued id _ => some id
  | .ticked => none
  | .returned _ => none

/-- Each action shows in its event. -/
def Action.Shows : Action τ → Event τ → Prop
  | .schedule _ _ task, .scheduled _ task' => task = task'
  | .reschedule _ _ id, .rescheduled id' => id = id'
  | .drop id, .cancelled id' => id = id'
  | .tick, .ticked => True
  | .visit _, .ran _ _ => True
  | .visit _, .skipped _ => True
  | .visit now, .requeued _ now' => now = now'
  | .finish exit, .returned exit' => exit = exit'
  | _, _ => False

/-- What an event says about its entry. -/
def Event.Tells (s : State τ) (chain : Chains) (s' : State τ) (chain' : Chains) :
    Event τ → Prop
  | .scheduled id task =>
      s.inner.dataOf id = none ∧ ∃ exp, s'.inner.dataOf id = some (task, exp)
  | .rescheduled id => ∃ task old exp, s.inner.dataOf id = some (task, old) ∧
      s'.inner.dataOf id = some (task, exp)
  | .cancelled id => s'.inner.dataOf id = none
  | .ran id task => id ∈ chain (after s.inner.currentSlot) ∧ (∀ i, id ∉ chain' i) ∧
      (∃ old, s.inner.dataOf id = some (task, old)) ∧ s'.inner.dataOf id = some (task, none)
  | .skipped id => s.exiting ∧ id ∈ chain (after s.inner.currentSlot) ∧ (∀ i, id ∉ chain' i) ∧
      ∃ task old, s.inner.dataOf id = some (task, old) ∧ s'.inner.dataOf id = some (task, none)
  | .requeued id now => id ∈ chain (after s.inner.currentSlot) ∧ (∃ i, id ∈ chain' i) ∧
      ∃ task exp exp', s.inner.dataOf id = some (task, some exp) ∧ now + fromSecs 1 ≤ exp ∧
        s'.inner.dataOf id = some (task, exp')
  | .ticked => True
  | .returned _ => True

/-- All that a step may change. -/
structure Effect (s : State τ) (chain : Chains) (e : Event τ) (s' : State τ)
    (chain' : Chains) : Prop where
  tells : e.Tells s chain s' chain'
  data : ∀ {j}, e.subject ≠ some j → s'.inner.dataOf j = s.inner.dataOf j
  member : ∀ {i j}, e.subject ≠ some j → (j ∈ chain' i ↔ j ∈ chain i)
  exiting : s'.exiting → s.exiting ∨ e = .returned true
  done : s.control ≠ .outside → s'.control = .outside →
    chain' (after s.inner.currentSlot) = []
  current : s.control ≠ .outside → s'.control ≠ .outside →
    s'.inner.currentSlot = s.inner.currentSlot

/-- Where a step puts the entry it is about, and when that entry is due. -/
def Action.Places (s s' : State τ) (chain' : Chains) : Action τ → Event τ → Prop
  | .schedule now dur task, .scheduled id _ =>
      id ∈ chain' (s.inner.slotAfter (asSecs dur)) ∧ s'.inner.dataOf id =
        some (task, if mask < asSecs dur then some (now + dur) else none)
  | .reschedule now dur _, .rescheduled id =>
      id ∈ chain' (s.inner.slotAfter (roundToSecs dur)) ∧
        ∀ task old, s.inner.dataOf id = some (task, old) →
          s'.inner.dataOf id = some (task, Inner.parked now dur none old)
  | .visit now, .ran id _ =>
      ∀ task exp, s.inner.dataOf id = some (task, some exp) → exp < now + fromSecs 1
  | .visit _, .requeued id now =>
      ∀ task exp, s.inner.dataOf id = some (task, some exp) →
        id ∈ chain' (s.inner.slotAfter (roundToSecs (exp - now))) ∧
          s'.inner.dataOf id = some (task, Inner.parked now (exp - now) (some exp) none)
  | .visit _, .skipped id => ∃ current, s.control = .turn current id true
  | _, _ => True

/-- The timer that only its owner can act on. -/
def Action.target : Action τ → Option Nat
  | .reschedule _ _ timerId => some timerId
  | .drop timerId => some timerId
  | _ => none

/-- `tick` returns with this step. -/
def State.Returns (s : State τ) (a : Action τ) (s' : State τ) : Prop :=
  (s.control ≠ .outside ∨ a = .tick) ∧ s'.control = .outside

/-- What a step does with the clock it reads and with the current slot. -/
structure Detail (s : State τ) (a : Action τ) (e : Event τ) (s' : State τ)
    (chain' : Chains) : Prop where
  places : a.Places s s' chain' e
  outside : s.control = .outside → a ≠ .tick → s'.control = .outside
  passed : s.Returns a s' → s'.inner.currentSlot = after s.inner.currentSlot ∧
    chain' (after s.inner.currentSlot) = []
  kept : ¬ s.Returns a s' → s'.inner.currentSlot = s.inner.currentSlot

theorem outside_of_tick {r : Except Fault (Event τ × State τ)} (h : s.step .tick = some r) :
    s.control = .outside := by
  rcases hcontrol : s.control with - | ⟨current, id, exit⟩ | ⟨current, id, next⟩
  · rfl
  · unfold State.step at h
    rw [hcontrol] at h
    cases h
  · unfold State.step at h
    rw [hcontrol] at h
    cases h

theorem inside_of_visit {now : Instant} {r : Except Fault (Event τ × State τ)}
    (h : s.step (.visit now) = some r) : s.control ≠ .outside := by
  intro hcontrol
  unfold State.step at h
  rw [hcontrol] at h
  cases h

theorem firstToken_append {k : Fin numOfSlots} {ids : List Nat} (h : ids ≠ []) (more : List Nat) :
    firstToken k (ids ++ more) = firstToken k ids := by
  rcases ids with - | ⟨j, ids⟩
  · exact absurd rfl h
  · rfl

theorem firstToken_erase {k : Fin numOfSlots} {ids : List Nat}
    (h : firstToken k ids ≠ .entry id) :
    firstToken k (ids.erase id) = firstToken k ids ∧ (ids ≠ [] → ids.erase id ≠ []) := by
  rcases ids with - | ⟨j, ids⟩
  · exact ⟨rfl, fun h => h⟩
  · have hne : j ≠ id := fun heq => h (congrArg Token.entry heq)
    rw [List.erase_cons_tail (by simpa using hne)]
    exact ⟨rfl, fun _ => List.cons_ne_nil _ _⟩

namespace State

variable {a : Action τ} {r : Except Fault (Event τ × State τ)} {secs : Nat}

theorem Inv.saved (h : Inv s chain) {k : Fin numOfSlots} (hbusy : s.busy = some k)
    (hturn : ∀ current id exit, s.control ≠ .turn current id exit) :
    k = after s.inner.currentSlot ∧ s.saved = some (firstToken k (chain k)) ∧
      (s.atLast = false → chain k ≠ []) := by
  obtain ⟨inner, timers, control⟩ := s
  rcases control with - | ⟨current, id, exit⟩ | ⟨current, id, next⟩
  · cases hbusy
  · exact absurd rfl (hturn current id exit)
  · obtain ⟨hcurrent, hnext⟩ := h.task rfl
    obtain rfl : after current = k := Option.some.inj hbusy
    refine ⟨congrArg after hcurrent, congrArg some hnext, ?_⟩
    intro hlast hempty
    rw [hempty] at hnext
    subst hnext
    cases hlast

theorem Inv.room (h : Inv s chain) (hturn : ∀ current id exit, s.control ≠ .turn current id exit)
    (hsecs : s.atLast → secs ≠ 1) (hbusy : s.busy = some (s.inner.slotAfter secs)) :
    chain (s.inner.slotAfter secs) ≠ [] := by
  obtain ⟨hafter, -, hlast⟩ := h.saved hbusy hturn
  rw [slotAfter_eq_after] at hafter
  apply hlast
  rw [← Bool.not_eq_true]
  intro hatLast
  exact hsecs hatLast hafter

theorem Inv.head_ne (h : Inv s chain) (hturn : ∀ current id exit, s.control ≠ .turn current id exit)
    (hsaved : s.saved ≠ some (.entry id)) {k : Fin numOfSlots} (hbusy : s.busy = some k) :
    (chain k).head? ≠ some id := by
  obtain ⟨-, hfirst, -⟩ := h.saved hbusy hturn
  intro hhead
  apply hsaved
  rw [hfirst]
  rcases hk : chain k with - | ⟨j, ids⟩
  · rw [hk] at hhead
    cases hhead
  · rw [hk] at hhead
    cases hhead
    rfl

theorem Inv.of_call (h : Inv s chain) (hturn : ∀ current id exit, s.control ≠ .turn current id exit)
    {inner : Inner τ} (timers : List Nat) (hring : Ring inner s.busy chain')
    (hcurrent : inner.currentSlot = s.inner.currentSlot)
    (hfirst : ∀ k, s.busy = some k → firstToken k (chain' k) = firstToken k (chain k))
    (hnodup : timers.Nodup) (htimers : ∀ {id}, id ∈ timers ↔ (inner.dataOf id).isSome) :
    Inv { s with inner := inner, timers := timers } chain' := by
  refine ⟨hring, ?_, ?_, hnodup, htimers⟩
  · intro current id exit hcontrol
    exact absurd hcontrol (hturn current id exit)
  · intro current id next hcontrol
    obtain ⟨hc, hnext⟩ := h.task hcontrol
    have hbusy : s.busy = some (after current) := by
      simp only at hcontrol
      rw [busy, hcontrol]
    refine ⟨hc.trans hcurrent.symm, hnext.trans (hfirst _ hbusy).symm⟩

theorem Effect.of_call {e : Event τ} {inner : Inner τ} {timers : List Nat}
    (htells : e.Tells s chain { s with inner := inner, timers := timers } chain')
    (hdata : ∀ {j}, e.subject ≠ some j → inner.dataOf j = s.inner.dataOf j)
    (hmember : ∀ {i j}, e.subject ≠ some j → (j ∈ chain' i ↔ j ∈ chain i))
    (hcurrent : inner.currentSlot = s.inner.currentSlot) :
    Effect s chain e { s with inner := inner, timers := timers } chain' :=
  ⟨htells, hdata, hmember, fun h => Or.inl h, fun h h' => absurd h' h, fun _ _ => hcurrent⟩

theorem Detail.of_call {e : Event τ} {inner : Inner τ} {timers : List Nat}
    (hplaces : a.Places s { s with inner := inner, timers := timers } chain' e) (hne : a ≠ .tick)
    (hcurrent : inner.currentSlot = s.inner.currentSlot) :
    Detail s a e { s with inner := inner, timers := timers } chain' := by
  refine ⟨hplaces, fun h _ => h, ?_, fun _ => hcurrent⟩
  rintro ⟨hinside | htick, houtside⟩
  · exact absurd houtside hinside
  · exact absurd htick hne

theorem mem_update_append_self {k : Fin numOfSlots} :
    id ∈ Function.update chain k (chain k ++ [id]) k := by
  rw [Function.update_self]
  exact List.mem_append_right _ (List.mem_singleton.mpr rfl)

theorem mem_update_append {k i : Fin numOfSlots} {j : Nat} (hne : j ≠ id) :
    j ∈ Function.update chain k (chain k ++ [id]) i ↔ j ∈ chain i := by
  by_cases hi : i = k
  · subst hi
    simp [hne]
  · rw [Function.update_of_ne hi]

theorem firstToken_update {k i : Fin numOfSlots} (h : i = k → chain k ≠ []) :
    firstToken i (Function.update chain k (chain k ++ [id]) i) = firstToken i (chain i) := by
  by_cases hi : i = k
  · subst hi
    rw [Function.update_self, firstToken_append (h rfl)]
  · rw [Function.update_of_ne hi]

theorem Inv.call_schedule (h : Inv s chain)
    (hturn : ∀ current id exit, s.control ≠ .turn current id exit) {now : Instant}
    {dur : Duration} {task : τ} (hallowed : s.Allowed (.schedule now dur task))
    (hrange : (Action.schedule now dur task).InRange) :
    ∃ id s' chain', s.call (.schedule now dur task) = some (.ok (.scheduled id task, s')) ∧
      Inv s' chain' ∧ Effect s chain (.scheduled id task) s' chain' ∧
      Detail s (.schedule now dur task) (.scheduled id task) s' chain' := by
  have hroom : s.busy = some (s.inner.slotAfter (asSecs dur)) →
      chain (s.inner.slotAfter (asSecs dur)) ≠ [] := h.room hturn hallowed
  obtain ⟨id, inner, hok, hfresh, hring, hcurrent, hdata⟩ := h.ring.schedule task hrange hroom
  have hnew : id ∉ s.timers := by
    rw [h.timers, hfresh]
    simp
  refine ⟨id, _, _, ?_, h.of_call hturn (id :: s.timers) hring hcurrent ?_ ?_ ?_,
    Effect.of_call ⟨hfresh, _, (hdata id).trans (if_pos rfl)⟩ ?_ ?_ hcurrent,
    Detail.of_call ⟨mem_update_append_self, (hdata id).trans (if_pos rfl)⟩ nofun hcurrent⟩
  · rw [call, hok]
    rfl
  · intro k hbusy
    apply firstToken_update
    rintro rfl
    exact hroom hbusy
  · exact List.nodup_cons.mpr ⟨hnew, h.nodup⟩
  · intro j
    rw [List.mem_cons, hdata, h.timers]
    split
    · rename_i hj
      simp [hj]
    · rename_i hj
      simp [hj]
  · intro j hj
    rw [hdata, if_neg]
    rintro rfl
    exact hj rfl
  · intro i j hj
    apply mem_update_append
    rintro rfl
    exact hj rfl

theorem Inv.call_reschedule (h : Inv s chain)
    (hturn : ∀ current id exit, s.control ≠ .turn current id exit) {now : Instant}
    {dur : Duration} (hmem : id ∈ s.timers) (hallowed : s.Allowed (.reschedule now dur id))
    (hrange : (Action.reschedule (τ := τ) now dur id).InRange) :
    ∃ s' chain', s.call (.reschedule now dur id) = some (.ok (.rescheduled id, s')) ∧
      Inv s' chain' ∧ Effect s chain (.rescheduled id) s' chain' ∧
      Detail s (.reschedule now dur id) (.rescheduled id) s' chain' := by
  obtain ⟨hqueued, hsaved, hsecs⟩ := hallowed
  obtain ⟨i, hi⟩ : ∃ i, id ∈ chain i := by
    by_contra hnone
    exact hqueued (h.ring.idle fun i hi => hnone ⟨i, hi⟩).1
  have hhead := fun {k} (hbusy : s.busy = some k) => h.head_ne hturn hsaved hbusy
  have hkeep : ∀ k, s.busy = some k →
      firstToken k (Ring.without chain id k) = firstToken k (chain k) ∧
        (chain k ≠ [] → Ring.without chain id k ≠ []) := by
    intro k hbusy
    apply firstToken_erase
    intro hfirst
    exact hsaved ((h.saved hbusy hturn).2.1.trans (congrArg some hfirst))
  have hroom : s.busy = some (s.inner.slotAfter (roundToSecs dur)) →
      Ring.without chain id (s.inner.slotAfter (roundToSecs dur)) ≠ [] :=
    fun hbusy => (hkeep _ hbusy).2 (h.room hturn hsecs hbusy)
  obtain ⟨task, old, inner, hold, hok, hring, hcurrent, hdata⟩ :=
    h.ring.reschedule hrange hi hhead hroom
  refine ⟨_, _, ?_, h.of_call hturn s.timers hring hcurrent ?_ h.nodup ?_,
    Effect.of_call ⟨task, old, _, hold, (hdata id).trans (if_pos rfl)⟩ ?_ ?_ hcurrent,
    Detail.of_call ⟨mem_update_append_self, ?_⟩ nofun hcurrent⟩
  · rw [call, if_pos hmem, hok]
    rfl
  · intro k hbusy
    rw [firstToken_update, (hkeep k hbusy).1]
    rintro rfl
    exact hroom hbusy
  · intro j
    rw [h.timers, hdata]
    split
    · rename_i hj
      simp [hj, hold]
    · rfl
  · intro j hj
    rw [hdata, if_neg]
    rintro rfl
    exact hj rfl
  · intro i j hj
    have hne : j ≠ id := by
      rintro rfl
      exact hj rfl
    rw [mem_update_append hne, Ring.mem_without h.ring.toLinked]
    simp [hne]
  · intro task' old' hold'
    rw [hold] at hold'
    cases hold'
    exact (hdata id).trans (if_pos rfl)

theorem Inv.call_drop (h : Inv s chain)
    (hturn : ∀ current id exit, s.control ≠ .turn current id exit) (hmem : id ∈ s.timers)
    (hallowed : s.Allowed (.drop id)) :
    ∃ s' chain', s.call (.drop id) = some (.ok (.cancelled id, s')) ∧
      Inv s' chain' ∧ Effect s chain (.cancelled id) s' chain' ∧
      Detail s (.drop id) (.cancelled id) s' chain' := by
  obtain ⟨inner, hok, hring, hcurrent, hdata⟩ := h.ring.cancel (h.timers.mp hmem)
    fun hbusy => h.head_ne hturn hallowed hbusy
  refine ⟨_, _, ?_, h.of_call hturn (s.timers.erase id) hring hcurrent ?_ (h.nodup.erase id) ?_,
    Effect.of_call ((hdata id).trans (if_pos rfl)) ?_ ?_ hcurrent,
    Detail.of_call trivial nofun hcurrent⟩
  · rw [call, if_pos hmem, hok]
    rfl
  · intro k hbusy
    refine (firstToken_erase ?_).1
    intro hfirst
    exact hallowed ((h.saved hbusy hturn).2.1.trans (congrArg some hfirst))
  · intro j
    rw [h.nodup.mem_erase_iff, hdata, h.timers]
    split
    · rename_i hj
      simp [hj]
    · rename_i hj
      simp [hj]
  · intro j hj
    rw [hdata, if_neg]
    rintro rfl
    exact hj rfl
  · intro i j hj
    rw [Ring.mem_without h.ring.toLinked]
    have hne : j ≠ id := by
      rintro rfl
      exact hj rfl
    simp [hne]

theorem Detail.of_follow {e : Event τ} (hplaces : a.Places s s' chain' e)
    (hinside : s.control ≠ .outside)
    (hdone : s'.control = .outside → chain' (after s.inner.currentSlot) = [] ∧
      s'.inner.currentSlot = after s.inner.currentSlot)
    (hslot : s'.control ≠ .outside → s'.inner.currentSlot = s.inner.currentSlot) :
    Detail s a e s' chain' := by
  refine ⟨hplaces, fun h => absurd h hinside, fun h => (hdone h.2).symm, ?_⟩
  intro h
  exact hslot fun houtside => h ⟨Or.inl hinside, houtside⟩

theorem follow_ok {k : Fin numOfSlots} (hring : Ring s.inner (some k) chain)
    (hnodup : s.timers.Nodup) (htimers : ∀ {id}, id ∈ s.timers ↔ (s.inner.dataOf id).isSome)
    (exit : Bool) :
    ∃ s', s.follow s.inner.currentSlot exit (firstToken k (chain k)) = .ok s' ∧ Inv s' chain ∧
      (∀ j, s'.inner.dataOf j = s.inner.dataOf j) ∧ (s'.exiting → exit = true) ∧
      (s'.control = .outside → chain k = [] ∧ s'.inner.currentSlot = k) ∧
      (s'.control ≠ .outside → s'.inner.currentSlot = s.inner.currentSlot) := by
  have hk := hring.current rfl
  rcases hchain : chain k with - | ⟨id, ids⟩
  · refine ⟨_, rfl, ⟨hring.close hchain, ?_, ?_, hnodup, htimers⟩, fun _ => rfl, ?_,
      fun _ => ⟨rfl, rfl⟩, fun h => absurd rfl h⟩
    · intro current id exit hcontrol
      cases hcontrol
    · intro current id next hcontrol
      cases hcontrol
    · intro hexit
      cases hexit
  · refine ⟨_, rfl, ⟨?_, ?_, ?_, hnodup, htimers⟩, fun _ => rfl, fun h => h, ?_, fun _ => rfl⟩
    · rw [hk] at hring
      exact hring
    · intro current id' exit' hcontrol
      cases hcontrol
      refine ⟨rfl, ?_⟩
      rw [← hk, hchain]
      rfl
    · intro current id' next hcontrol
      cases hcontrol
    · intro hcontrol
      cases hcontrol

theorem Inv.tick_ok (h : Inv s chain) (hcontrol : s.control = .outside) :
    ∃ s', s.step .tick = some (.ok (.ticked, s')) ∧ Inv s' chain ∧
      Effect s chain .ticked s' chain ∧ Detail s .tick .ticked s' chain ∧ s'.exiting = false ∧
      (s'.control = .outside → chain (after s.inner.currentSlot) = []) ∧
      (s'.control ≠ .outside → s'.inner = s.inner) := by
  obtain ⟨inner, timers, control⟩ := s
  obtain rfl : control = .outside := hcontrol
  have hring : Ring inner none chain := h.ring
  have hnext := hring.next_current
  rcases hchain : chain (after inner.currentSlot) with - | ⟨id, ids⟩
  · rw [hchain] at hnext
    refine ⟨⟨{ inner with currentSlot := after inner.currentSlot }, timers, .outside⟩, ?_,
      ⟨hring.pass _, ?_, ?_, h.nodup, h.timers⟩,
      ⟨trivial, fun _ => rfl, fun _ => Iff.rfl, ?_, fun h => absurd rfl h, fun h => absurd rfl h⟩,
      ⟨trivial, fun _ h => absurd rfl h, fun _ => ⟨rfl, hchain⟩,
        fun h => absurd (And.intro (Or.inr rfl) rfl) h⟩, rfl, fun _ => rfl, fun h => absurd rfl h⟩
    · simp only [step, tick, hnext, firstToken]
      rfl
    · intro current id exit hcontrol
      cases hcontrol
    · intro current id next hcontrol
      cases hcontrol
    · intro hexit
      cases hexit
  · rw [hchain] at hnext
    refine ⟨⟨inner, timers, .turn inner.currentSlot id false⟩, ?_,
      ⟨hring.enter rfl, ?_, ?_, h.nodup, h.timers⟩,
      ⟨trivial, fun _ => rfl, fun _ => Iff.rfl, ?_, fun h => absurd rfl h, fun h => absurd rfl h⟩,
      ⟨trivial, fun _ h => absurd rfl h, (nomatch ·.2), fun _ => rfl⟩, rfl, ?_, fun _ => rfl⟩
    · simp only [step, tick, hnext, firstToken]
      rfl
    · intro current id' exit hcontrol
      cases hcontrol
      refine ⟨rfl, ?_⟩
      rw [hchain]
      rfl
    · intro current id next hcontrol
      cases hcontrol
    · intro hexit
      cases hexit
    · intro hcontrol
      cases hcontrol

theorem Inv.finish_ok (h : Inv s chain) {current : Fin numOfSlots} {next : Token}
    (hcontrol : s.control = .task current id next) (exit : Bool) :
    ∃ s', s.step (.finish exit) = some (.ok (.returned exit, s')) ∧ Inv s' chain ∧
      Effect s chain (.returned exit) s' chain ∧
      Detail s (.finish exit) (.returned exit) s' chain := by
  obtain ⟨inner, timers, control⟩ := s
  obtain rfl : control = .task current id next := hcontrol
  obtain ⟨hcurrent, rfl⟩ := h.task rfl
  obtain rfl : current = inner.currentSlot := hcurrent
  have hring : Ring inner (some (after inner.currentSlot)) chain := h.ring
  obtain ⟨s', hok, hinv, hdata, hexit, hdone, hslot⟩ :=
    @follow_ok τ ⟨inner, timers, .task inner.currentSlot id
      (firstToken (after inner.currentSlot) (chain (after inner.currentSlot)))⟩ chain _
      hring h.nodup h.timers exit
  refine ⟨s', ?_, hinv, ⟨trivial, fun _ => hdata _, fun _ => Iff.rfl, ?_, fun _ h => (hdone h).1,
    fun _ => hslot⟩, Detail.of_follow trivial nofun hdone hslot⟩
  · simp only [step]
    rw [hok]
    rfl
  · intro hexiting
    rw [hexit hexiting]
    exact Or.inr rfl

theorem rebounds_of_last {inner : Inner τ} {task : τ} {exp now : Instant} {k : Fin numOfSlots}
    (hdata : inner.dataOf id = some (task, some exp)) (hnext : inner.nextOf (.entry id) = .slot k)
    (hfar : now + fromSecs 1 ≤ exp) (hround : roundToSecs (exp - now) = 1) :
    inner.rebounds id now = true := by
  obtain ⟨entry, hget, hentry⟩ := Option.map_eq_some_iff.mp hdata
  rw [Inner.nextOf_entry hget] at hnext
  obtain ⟨prev, next, task', expiration⟩ := entry
  simp only [Prod.mk.injEq] at hentry hnext
  obtain ⟨-, rfl⟩ := hentry
  subst hnext
  simp [Inner.rebounds, hget, hfar, hround]

/-- The entry whose turn it is has been taken off its links. -/
structure Detached (inner : Inner τ) (chain : Chains) (id : Nat) (task : τ)
    (exp : Option Instant) (inner' : Inner τ) (chain' : Chains) : Prop where
  mem : id ∈ chain (after inner.currentSlot)
  old : inner.dataOf id = some (task, exp)
  next : inner.nextOf (.entry id) =
    firstToken (after inner.currentSlot) (chain' (after inner.currentSlot))
  detach : inner.detach id = .ok
    (firstToken (after inner.currentSlot) (chain' (after inner.currentSlot)), exp, task, inner')
  ring : Ring inner' (some (after inner.currentSlot)) chain'
  current : inner'.currentSlot = inner.currentSlot
  data : ∀ j, inner'.dataOf j = if j = id then some (task, none) else inner.dataOf j
  free : ∀ i, id ∉ chain' i
  member : ∀ {i j}, j ≠ id → (j ∈ chain' i ↔ j ∈ chain i)

theorem Inv.detached {inner : Inner τ} {timers : List Nat} {current : Fin numOfSlots} {exit : Bool}
    (h : Inv ⟨inner, timers, .turn current id exit⟩ chain) :
    current = inner.currentSlot ∧
      ∃ task exp inner' chain', Detached inner chain id task exp inner' chain' := by
  obtain ⟨hcurrent, hhead⟩ := h.turn rfl
  obtain rfl : current = inner.currentSlot := hcurrent
  refine ⟨rfl, ?_⟩
  have hring : Ring inner (some (after inner.currentSlot)) chain := h.ring
  obtain ⟨ids, hchain⟩ : ∃ ids, chain (after inner.currentSlot) = id :: ids := by
    rcases hn : chain (after inner.currentSlot) with - | ⟨j, ids⟩
    · rw [hn] at hhead
      cases hhead
    · rw [hn] at hhead
      cases hhead
      exact ⟨ids, rfl⟩
  have hnodup := hring.nodup (after inner.currentSlot)
  rw [hchain, List.nodup_cons] at hnodup
  have hmem : id ∈ chain (after inner.currentSlot) := by
    rw [hchain]
    exact List.mem_cons_self
  obtain ⟨task, exp, inner', hold, hnext, hdetach, hring', hslot, hdata⟩ := hring.detach hchain
  refine ⟨task, exp, inner', Function.update chain (after inner.currentSlot) ids,
    hmem, hold, ?_, ?_, hring', hslot, hdata, ?_, ?_⟩
  · rw [hnext, Function.update_self]
  · rw [hdetach, Function.update_self]
  · intro i hi
    by_cases hin : i = after inner.currentSlot
    · rw [hin, Function.update_self] at hi
      exact hnodup.1 hi
    · rw [Function.update_of_ne hin] at hi
      exact hin (hring.disjoint hi hmem)
  · intro i j hj
    by_cases hin : i = after inner.currentSlot
    · rw [hin, Function.update_self, hchain, List.mem_cons]
      simp [hj]
    · rw [Function.update_of_ne hin]

section Visit

variable {inner inner' : Inner τ} {timers : List Nat} {task : τ} {exp : Option Instant}

theorem Detached.owned (hd : Detached inner chain id task exp inner' chain')
    (h : ∀ {j}, j ∈ timers ↔ (inner.dataOf j).isSome) {j : Nat} :
    j ∈ timers ↔ (inner'.dataOf j).isSome := by
  rw [h, hd.data]
  split
  · rename_i hj
    simp [hj, hd.old]
  · rfl

theorem Detached.others (hd : Detached inner chain id task exp inner' chain') {j : Nat}
    (hj : some id ≠ some j) : inner'.dataOf j = inner.dataOf j := by
  rw [hd.data, if_neg]
  rintro rfl
  exact hj rfl

theorem Inv.visit_skip (h : Inv ⟨inner, timers, .turn inner.currentSlot id true⟩ chain)
    (hd : Detached inner chain id task exp inner' chain') (now : Instant) :
    ∃ s', visit ⟨inner, timers, .turn inner.currentSlot id true⟩ inner.currentSlot id true now =
        .ok (.skipped id, s') ∧ Inv s' chain' ∧
      Effect ⟨inner, timers, .turn inner.currentSlot id true⟩ chain (.skipped id) s' chain' ∧
      Detail ⟨inner, timers, .turn inner.currentSlot id true⟩ (.visit now) (.skipped id) s'
        chain' := by
  obtain ⟨s', hok, hinv, hdata, -, hdone, hslot⟩ :=
    @follow_ok τ ⟨inner', timers, .turn inner.currentSlot id true⟩ chain' _ hd.ring h.nodup
      (hd.owned h.timers) true
  refine ⟨s', ?_, hinv, ⟨⟨rfl, hd.mem, hd.free, task, exp, hd.old, ?_⟩, ?_, ?_, fun _ => Or.inl rfl,
    fun _ h => (hdone h).1, fun _ hne => (hslot hne).trans hd.current⟩, Detail.of_follow ⟨_, rfl⟩
      nofun hdone fun hne => (hslot hne).trans hd.current⟩
  · rw [visit]
    refine bind_of_ok hd.detach ?_
    simp only [hd.current] at hok
    exact bind_of_ok hok rfl
  · rw [hdata, hd.data, if_pos rfl]
  · intro j hj
    rw [hdata]
    exact hd.others hj
  · intro i j hj
    apply hd.member
    rintro rfl
    exact hj rfl

theorem Inv.visit_requeue {now exp : Instant}
    (h : Inv ⟨inner, timers, .turn inner.currentSlot id false⟩ chain)
    (hd : Detached inner chain id task (some exp) inner' chain') (hfar : now + fromSecs 1 ≤ exp)
    (hallowed : inner.rebounds id now = false) :
    ∃ s' chain'', visit ⟨inner, timers, .turn inner.currentSlot id false⟩ inner.currentSlot id
        false now = .ok (.requeued id now, s') ∧ Inv s' chain'' ∧
      Effect ⟨inner, timers, .turn inner.currentSlot id false⟩ chain (.requeued id now) s'
        chain'' ∧
      Detail ⟨inner, timers, .turn inner.currentSlot id false⟩ (.visit now) (.requeued id now) s'
        chain'' := by
  have hroom : inner'.slotAfter (roundToSecs (exp - now)) = after inner.currentSlot →
      chain' (after inner.currentSlot) ≠ [] := by
    intro hslot hempty
    rw [← hd.current, slotAfter_eq_after] at hslot
    have hnext := hd.next
    rw [hempty] at hnext
    rw [rebounds_of_last hd.old hnext hfar hslot] at hallowed
    cases hallowed
  have hknown : some exp = none → mask < roundToSecs (exp - now) → Fits now (exp - now) := by
    simp
  obtain ⟨inner₂, hok₂, hring₂, hcurrent₂, hdata₂⟩ := hd.ring.requeue hknown
    ((hd.data id).trans (if_pos rfl)) hd.free (fun heq => by
      have hslot := (Option.some.inj heq).symm
      rw [hslot]
      exact hroom hslot)
  have htimers : ∀ {j}, j ∈ timers ↔ (inner₂.dataOf j).isSome := by
    intro j
    rw [hd.owned h.timers, hdata₂, hd.data]
    split
    · rfl
    · rfl
  obtain ⟨s', hok, hinv, hdata, hexit, hdone, hslot⟩ :=
    @follow_ok τ ⟨inner₂, timers, .turn inner.currentSlot id false⟩ _ _ hring₂ h.nodup htimers
      false
  rw [firstToken_update fun heq => heq ▸ hroom heq.symm] at hok
  have hback : id ∈ Function.update chain' (inner'.slotAfter (roundToSecs (exp - now)))
      (chain' (inner'.slotAfter (roundToSecs (exp - now))) ++ [id])
      (inner'.slotAfter (roundToSecs (exp - now))) := by
    rw [Function.update_self]
    exact List.mem_append_right _ (List.mem_singleton.mpr rfl)
  have hnew := (hdata id).trans ((hdata₂ id).trans (if_pos rfl))
  have hkept : s'.control ≠ .outside → s'.inner.currentSlot = inner.currentSlot :=
    fun hne => (hslot hne).trans (hcurrent₂.trans hd.current)
  refine ⟨s', _, ?_, hinv, ⟨⟨hd.mem, ⟨_, hback⟩, task, exp, _, hd.old, hfar, hnew⟩, ?_, ?_, ?_,
    fun _ h => (hdone h).1, fun _ => hkept⟩,
    Detail.of_follow ?_ nofun hdone hkept⟩
  · rw [visit]
    refine bind_of_ok hd.detach ?_
    simp only [hcurrent₂, hd.current] at hok
    simp only [if_pos hfar, Bool.false_eq_true, if_false]
    refine bind_of_ok hok₂ ?_
    exact bind_of_ok hok rfl
  · intro j hj
    rw [hdata, hdata₂, if_neg]
    · exact hd.others hj
    · rintro rfl
      exact hj rfl
  · intro i j hj
    have hne : j ≠ id := by
      rintro rfl
      exact hj rfl
    rw [mem_update_append hne]
    exact hd.member hne
  · intro hexiting
    cases hexit hexiting
  · intro task' exp' hold
    rw [hd.old] at hold
    cases hold
    refine ⟨?_, hnew⟩
    have hslot : inner'.slotAfter (roundToSecs (exp - now)) =
        inner.slotAfter (roundToSecs (exp - now)) := by
      rw [Inner.slotAfter, hd.current, Inner.slotAfter]
    exact hslot ▸ hback

theorem Inv.visit_run (h : Inv ⟨inner, timers, .turn inner.currentSlot id false⟩ chain)
    (hd : Detached inner chain id task exp inner' chain') {now : Instant}
    (hnear : ∀ at', exp = some at' → at' < now + fromSecs 1) :
    let s' : State τ := ⟨inner', timers, .task inner.currentSlot id
      (firstToken (after inner.currentSlot) (chain' (after inner.currentSlot)))⟩
    Inv s' chain' ∧ Effect ⟨inner, timers, .turn inner.currentSlot id false⟩ chain
        (.ran id task) s' chain' ∧
      Detail ⟨inner, timers, .turn inner.currentSlot id false⟩ (.visit now) (.ran id task) s'
        chain' := by
  refine ⟨⟨hd.ring, ?_, ?_, h.nodup, hd.owned h.timers⟩,
    ⟨⟨hd.mem, hd.free, ⟨exp, hd.old⟩, (hd.data id).trans (if_pos rfl)⟩, hd.others, ?_, ?_, ?_,
      fun _ _ => hd.current⟩, Detail.of_follow ?_ nofun nofun fun _ => hd.current⟩
  · intro current id' exit hcontrol
    cases hcontrol
  · intro current id' next hcontrol
    cases hcontrol
    exact ⟨hd.current.symm, rfl⟩
  · intro i j hj
    apply hd.member
    rintro rfl
    exact hj rfl
  · intro hexiting
    cases hexiting
  · intro _ hcontrol
    cases hcontrol
  · intro task' exp' hold
    rw [hd.old] at hold
    cases hold
    exact hnear exp' rfl

end Visit

theorem Inv.visit_ok (h : Inv s chain) {current : Fin numOfSlots} {exit : Bool}
    (hcontrol : s.control = .turn current id exit) (now : Instant)
    (hallowed : s.Allowed (.visit now)) :
    ∃ e s' chain', s.step (.visit now) = some (.ok (e, s')) ∧ (Action.visit now).Shows e ∧
      Inv s' chain' ∧ Effect s chain e s' chain' ∧ Detail s (.visit now) e s' chain' := by
  obtain ⟨inner, timers, control⟩ := s
  obtain rfl : control = .turn current id exit := hcontrol
  obtain ⟨hcurrent, task, exp, inner', chain', hd⟩ := h.detached
  obtain rfl := hcurrent
  rcases exit with - | -
  · rcases exp with - | exp
    · refine ⟨.ran id task, _, chain', ?_, trivial, h.visit_run hd nofun⟩
      simp only [step, visit]
      rw [bind_of_ok hd.detach rfl]
      rfl
    · by_cases hfar : now + fromSecs 1 ≤ exp
      · obtain ⟨s', chain'', hok, hspec⟩ := h.visit_requeue hd hfar hallowed
        exact ⟨_, s', chain'', congrArg some hok, rfl, hspec⟩
      · have hnear : ∀ at', some exp = some at' → at' < now + fromSecs 1 := by
          rintro at' ⟨⟩
          exact Nat.lt_of_not_le hfar
        refine ⟨.ran id task, _, chain', ?_, trivial, h.visit_run hd hnear⟩
        simp only [step, visit]
        rw [bind_of_ok hd.detach rfl]
        simp only [if_neg hfar, Bool.false_eq_true, if_false]
  · obtain ⟨s', hok, hspec⟩ := h.visit_skip hd now
    exact ⟨_, s', chain', congrArg some hok, trivial, hspec⟩

theorem Inv.call_ok (h : Inv s chain)
    (hturn : ∀ current id exit, s.control ≠ .turn current id exit) {a : Action τ}
    {r : Except Fault (Event τ × State τ)} (hallowed : s.Allowed a) (hrange : a.InRange)
    (hcall : s.call a = some r) :
    ∃ e s' chain', r = .ok (e, s') ∧ a.Shows e ∧ Inv s' chain' ∧ Effect s chain e s' chain' ∧
      Detail s a e s' chain' := by
  cases a with
  | schedule now dur task =>
      obtain ⟨id, s', chain', hok, hspec⟩ := h.call_schedule hturn hallowed hrange
      rw [hok] at hcall
      exact ⟨_, s', chain', (Option.some.inj hcall).symm, rfl, hspec⟩
  | reschedule now dur id =>
      have hmem : id ∈ s.timers := by
        by_contra hnot
        rw [call, if_neg hnot] at hcall
        cases hcall
      obtain ⟨s', chain', hok, hspec⟩ := h.call_reschedule hturn hmem hallowed hrange
      rw [hok] at hcall
      exact ⟨_, s', chain', (Option.some.inj hcall).symm, rfl, hspec⟩
  | drop id =>
      have hmem : id ∈ s.timers := by
        by_contra hnot
        rw [call, if_neg hnot] at hcall
        cases hcall
      obtain ⟨s', chain', hok, hspec⟩ := h.call_drop hturn hmem hallowed
      rw [hok] at hcall
      exact ⟨_, s', chain', (Option.some.inj hcall).symm, rfl, hspec⟩
  | tick => cases hcall
  | visit now => cases hcall
  | finish exit => cases hcall

/-- The step lemma: an allowed step cannot fail, it keeps the wheel well-formed, and
what it changes is what its event says. -/
theorem Inv.step_spec (h : Inv s chain) {a : Action τ} {r : Except Fault (Event τ × State τ)}
    (hallowed : s.Allowed a) (hrange : a.InRange) (hstep : s.step a = some r) :
    ∃ e s' chain', r = .ok (e, s') ∧ a.Shows e ∧ Inv s' chain' ∧ Effect s chain e s' chain' ∧
      Detail s a e s' chain' := by
  rcases hcontrol : s.control with - | ⟨current, id, exit⟩ | ⟨current, id, next⟩
  · have hturn : ∀ current id exit, s.control ≠ .turn current id exit := by
      intro current id exit heq
      rw [hcontrol] at heq
      cases heq
    by_cases htick : a = .tick
    · subst htick
      obtain ⟨s', hok, hinv, heffect, hdetail, -⟩ := h.tick_ok hcontrol
      rw [hok] at hstep
      exact ⟨_, s', chain, (Option.some.inj hstep).symm, trivial, hinv, heffect, hdetail⟩
    · refine h.call_ok hturn hallowed hrange ?_
      unfold step at hstep
      rw [hcontrol] at hstep
      cases a <;> first | exact hstep | exact absurd rfl htick
  · cases a with
    | visit now =>
        obtain ⟨e, s', chain', hok, hspec⟩ := h.visit_ok hcontrol now hallowed
        rw [hok] at hstep
        exact ⟨e, s', chain', (Option.some.inj hstep).symm, hspec⟩
    | schedule now dur task | reschedule now dur id | drop id | tick | finish exit =>
        unfold step at hstep
        rw [hcontrol] at hstep
        cases hstep
  · have hturn : ∀ current id exit, s.control ≠ .turn current id exit := by
      intro current id exit heq
      rw [hcontrol] at heq
      cases heq
    by_cases hfinish : ∃ exit, a = .finish exit
    · obtain ⟨exit, rfl⟩ := hfinish
      obtain ⟨s', hok, hspec⟩ := h.finish_ok hcontrol exit
      rw [hok] at hstep
      exact ⟨_, s', chain, (Option.some.inj hstep).symm, rfl, hspec⟩
    · refine h.call_ok hturn hallowed hrange ?_
      unfold step at hstep
      rw [hcontrol] at hstep
      cases a <;> first | exact hstep | exact absurd ⟨_, rfl⟩ hfinish

theorem Inv.step_ok (h : Inv s chain) {a : Action τ} {r : Except Fault (Event τ × State τ)}
    (hallowed : s.Allowed a) (hrange : a.InRange) (hstep : s.step a = some r) :
    ∃ e s' chain', r = .ok (e, s') ∧ a.Shows e ∧ Inv s' chain' ∧ Effect s chain e s' chain' := by
  obtain ⟨e, s', chain', hok, hshows, hinv, heffect, -⟩ := h.step_spec hallowed hrange hstep
  exact ⟨e, s', chain', hok, hshows, hinv, heffect⟩

theorem call_of_step {a : Action τ} (hrange : ¬ a.InRange)
    {r : Except Fault (Event τ × State τ)} (hstep : s.step a = some r) :
    s.call a = some r ∧ ∀ current id exit, s.control ≠ .turn current id exit := by
  unfold step at hstep
  cases hcontrol : s.control with
  | outside | task current id next =>
      rw [hcontrol] at hstep
      refine ⟨?_, fun _ _ _ heq => by cases heq⟩
      cases a with
      | schedule | reschedule => exact hstep
      | drop | tick | visit | finish => exact absurd trivial hrange
  | turn current id exit =>
      rw [hcontrol] at hstep
      cases a with
      | visit => exact absurd trivial hrange
      | schedule | reschedule | drop | tick | finish => cases hstep

theorem inRange_of_step {a : Action τ} {r : Event τ × State τ}
    (hstep : s.step a = some (.ok r)) : a.InRange := by
  by_contra hrange
  obtain ⟨hcall, -⟩ := call_of_step hrange hstep
  cases a with
  | schedule now dur task =>
      rw [call, Inner.schedule_panics s.inner task hrange] at hcall
      cases hcall
  | reschedule now dur id =>
      rw [call] at hcall
      split at hcall
      · obtain ⟨inner, hinner, -⟩ := ok_of_bind_ok (Option.some.inj hcall)
        exact Inner.reschedule_ne_ok s.inner id hrange hinner
      · cases hcall
  | drop | visit | tick | finish => exact hrange trivial

theorem Inv.step_panics (h : Inv s chain) {a : Action τ} {r : Except Fault (Event τ × State τ)}
    (hallowed : s.Allowed a) (hrange : ¬ a.InRange) (hstep : s.step a = some r) :
    r = .error .panic := by
  obtain ⟨hcall, hturn⟩ := call_of_step hrange hstep
  cases a with
  | schedule now dur task =>
      rw [call, Inner.schedule_panics s.inner task hrange] at hcall
      exact (Option.some.inj hcall).symm
  | reschedule now dur id =>
      obtain ⟨hqueued, hsaved, -⟩ := hallowed
      obtain ⟨i, hi⟩ : ∃ i, id ∈ chain i := by
        by_contra hnone
        exact hqueued (h.ring.idle fun i hi => hnone ⟨i, hi⟩).1
      have hpanics : s.inner.reschedule now dur id = .error .panic :=
        h.ring.reschedule_panics hrange hi fun hbusy => h.head_ne hturn hsaved hbusy
      rw [call, hpanics] at hcall
      split at hcall
      · exact (Option.some.inj hcall).symm
      · cases hcall
  | drop | visit | tick | finish => exact absurd trivial hrange

end State

end Ruyi.Reactor.Wheel
