import Ruyi.Reactor.WheelTick

namespace Ruyi.Reactor.Wheel

open Ruyi.Base

/-- The wheel and the time of its last tick. -/
structure Clocked (τ : Type) where
  wheel : State τ
  last : Instant

variable {τ : Type} {c c' : Clocked τ} {chain chain' : Chains} {id : Nat} {a : Action τ}
  {e : Event τ} {log : List (Instant × Event τ)} {f : Instant}

theorem State.allowed_outside {w : State τ} (h : w.control = .outside) (now : Instant)
    (dur : Duration) (task : τ) : w.Allowed (.schedule now dur task) := by
  intro hlast
  rw [atLast, h] at hlast
  cases hlast

namespace Clocked

def init (start : Instant) : Clocked τ := ⟨State.init, start⟩

/-- Ticks come one second apart. -/
def tickTime (last : Instant) : Action τ → Instant
  | .tick => last + fromSecs 1
  | _ => last

/-- Events carry the time of the tick they belong to or follow. -/
def step (c : Clocked τ) (a : Action τ) :
    Option (Except Fault ((Instant × Event τ) × Clocked τ)) :=
  (c.wheel.step a).map fun r => do
    let (e, wheel) ← r
    .ok ((tickTime c.last a, e), ⟨wheel, tickTime c.last a⟩)

/-- Inside a tick, `Instant::now` is the time of the tick. -/
def OnTime (c : Clocked τ) : Action τ → Prop
  | .visit now => now = c.last
  | _ => True

instance (c : Clocked τ) : ∀ a : Action τ, Decidable (c.OnTime a)
  | .visit now => inferInstanceAs (Decidable (now = c.last))
  | .schedule _ _ _ => isTrue trivial
  | .reschedule _ _ _ => isTrue trivial
  | .drop _ => isTrue trivial
  | .tick => isTrue trivial
  | .finish _ => isTrue trivial

def Ticking (c : Clocked τ) (a : Action τ) : Prop := c.wheel.Allowed a ∧ c.OnTime a

/-- After an exit has been requested, an entry is taken off that is not due yet. -/
def abandons (c : Clocked τ) (id : Nat) : Bool :=
  match c.wheel.control with
  | .turn _ id' true => id' = id && ((c.wheel.inner.dataOf id).bind Prod.snd).isSome
  | _ => false

/-- The steps while a timer sleeps: it is neither dropped nor rescheduled. -/
def Sleeping (id : Nat) (c : Clocked τ) (a : Action τ) : Prop :=
  c.Ticking a ∧ a.target ≠ some id ∧ c.abandons id = false

instance (c : Clocked τ) (a : Action τ) : Decidable (c.Ticking a) :=
  inferInstanceAs (Decidable (c.wheel.Allowed a ∧ c.OnTime a))

instance (id : Nat) (c : Clocked τ) (a : Action τ) : Decidable (c.Sleeping id a) :=
  inferInstanceAs (Decidable (c.Ticking a ∧ a.target ≠ some id ∧ c.abandons id = false))

end Clocked

def clocked (τ : Type) : Machine (Clocked τ) (Action τ) (Instant × Event τ) Fault :=
  ⟨Clocked.step⟩

/-- The event takes the entry off the wheel. -/
def Event.Expires (id : Nat) : Event τ → Prop
  | .ran id' _ => id' = id
  | .skipped id' => id' = id
  | _ => False

def ExpiredAt (id : Nat) (f : Instant) (log : List (Instant × Event τ)) : Prop :=
  ∃ e, (f, e) ∈ log ∧ e.Expires id

theorem expiredAt_append {x : Instant} :
    ExpiredAt id f (log ++ [(x, e)]) ↔ ExpiredAt id f log ∨ f = x ∧ e.Expires id := by
  constructor
  · rintro ⟨e', hmem, hexpires⟩
    rcases List.mem_append.mp hmem with hmem | hmem
    · exact Or.inl ⟨e', hmem, hexpires⟩
    · obtain ⟨rfl, rfl⟩ := Prod.mk.inj (List.mem_singleton.mp hmem)
      exact Or.inr ⟨rfl, hexpires⟩
  · rintro (⟨e', hmem, hexpires⟩ | ⟨rfl, hexpires⟩)
    · exact ⟨e', List.mem_append_left _ hmem, hexpires⟩
    · exact ⟨e, by simp, hexpires⟩

theorem Event.Expires.subject (h : e.Expires id) : e.subject = some id := by
  cases e with
  | ran id' task => exact congrArg some h
  | skipped id' => exact congrArg some h
  | scheduled | rescheduled | cancelled | ticked | requeued | returned => exact h.elim

/-- What may happen to the entry of a timer that nobody touches. -/
inductive Fate (w : State τ) (chain : Chains) (a : Action τ) (e : Event τ) (w' : State τ)
    (chain' : Chains) (id : Nat) (task : τ) (old : Option Instant) : Prop where
  | passed (subject : e.subject ≠ some id)
  | expired (now : Instant) (visit : a = .visit now) (mem : id ∈ chain (after w.inner.currentSlot))
      (expires : e.Expires id) (free : ∀ i, id ∉ chain' i)
      (data : w'.inner.dataOf id = some (task, none))
      (due : (∃ current, w.control = .turn current id true) ∨
        ∀ exp, old = some exp → exp < now + fromSecs 1)
  | putBack (now exp : Instant) (visit : a = .visit now)
      (mem : id ∈ chain (after w.inner.currentSlot)) (waits : ¬ e.Expires id)
      (left : old = some exp)
      (mem' : id ∈ chain' (w.inner.slotAfter (roundToSecs (exp - now))))
      (data : w'.inner.dataOf id = some (task, Inner.parked now (exp - now) (some exp) none))

theorem fate_of_step {w w' : State τ} {task : τ} {old : Option Instant} (hshows : a.Shows e)
    (heffect : Effect w chain e w' chain') (hdetail : Detail w a e w' chain')
    (hdata : w.inner.dataOf id = some (task, old)) (htarget : a.target ≠ some id) :
    Fate w chain a e w' chain' id task old := by
  by_cases hsubject : e.subject = some id
  · cases e with
    | scheduled id' task' =>
        cases hsubject
        rw [heffect.tells.1] at hdata
        cases hdata
    | rescheduled id' =>
        cases hsubject
        cases a <;> first | exact hshows.elim | exact absurd (congrArg some hshows) htarget
    | cancelled id' =>
        cases hsubject
        cases a <;> first | exact hshows.elim | exact absurd (congrArg some hshows) htarget
    | ran id' task' =>
        cases hsubject
        obtain ⟨hmem, hfree, ⟨old', hold⟩, hnew⟩ := heffect.tells
        rw [hold] at hdata
        cases hdata
        cases a with
        | visit now =>
            refine .expired now rfl hmem rfl hfree hnew (Or.inr ?_)
            rintro exp rfl
            exact hdetail.places _ _ hold
        | schedule | reschedule | drop | tick | finish => exact hshows.elim
    | skipped id' =>
        cases hsubject
        obtain ⟨-, hmem, hfree, task', old', hold, hnew⟩ := heffect.tells
        rw [hold] at hdata
        cases hdata
        cases a with
        | visit now => exact .expired now rfl hmem rfl hfree hnew (Or.inl hdetail.places)
        | schedule | reschedule | drop | tick | finish => exact hshows.elim
    | requeued id' now =>
        cases hsubject
        obtain ⟨hmem, -, task', exp, exp', hold, -, -⟩ := heffect.tells
        rw [hold] at hdata
        cases hdata
        cases a with
        | visit now' =>
            cases hshows
            obtain ⟨hmem', hnew⟩ := hdetail.places _ _ hold
            exact .putBack now exp rfl hmem (fun h => h) rfl hmem' hnew
        | schedule | reschedule | drop | tick | finish => exact hshows.elim
    | ticked => cases hsubject
    | returned exit => cases hsubject
  · exact .passed hsubject

namespace Clocked

theorem abandons_of_turn (c : Clocked τ) {current : Fin numOfSlots} {task : τ} {exp : Instant}
    (hturn : c.wheel.control = .turn current id true)
    (hdata : c.wheel.inner.dataOf id = some (task, some exp)) : c.abandons id = true := by
  simp [abandons, hturn, hdata]

/-- Whether the tick at `last` still goes on. -/
def inTick (c : Clocked τ) : Nat :=
  match c.wheel.control with
  | .outside => 0
  | _ => 1

theorem inTick_outside (h : c.wheel.control = .outside) : c.inTick = 0 := by
  rw [inTick, h]

theorem inTick_inside (h : c.wheel.control ≠ .outside) : c.inTick = 1 := by
  rw [inTick]
  split
  · rename_i houtside
    exact absurd houtside h
  · rfl

theorem step_spec (h : c.wheel.Inv chain) (hallowed : c.wheel.Allowed a)
    {out : (Instant × Event τ) × Clocked τ} (hstep : c.step a = some (.ok out)) :
    ∃ e c' chain', out = ((c'.last, e), c') ∧ c'.last = tickTime c.last a ∧
      c.wheel.step a = some (.ok (e, c'.wheel)) ∧ a.Shows e ∧ c'.wheel.Inv chain' ∧
      Effect c.wheel chain e c'.wheel chain' ∧ Detail c.wheel a e c'.wheel chain' := by
  obtain ⟨r', hr, hmap⟩ := Option.map_eq_some_iff.mp hstep
  cases r' with
  | error f => cases hmap
  | ok out' =>
      obtain ⟨e, w', chain', hok, hspec⟩ := h.step_spec hallowed (State.inRange_of_step hr) hr
      cases hok
      exact ⟨e, ⟨w', tickTime c.last a⟩, chain', (Except.ok.inj hmap).symm, rfl, hr, hspec⟩

/-- After `m` whole ticks, a step leaves the current slot or ends another one. -/
structure Advance (m : Nat) (current : Fin numOfSlots) (m' : Nat) (current' : Fin numOfSlots)
    (chain' : Chains) : Prop where
  slot : m' = m ∧ current' = current ∨
    m' = m + 1 ∧ current' = after current ∧ chain' (after current) = []

theorem fromSecs_succ (secs : Nat) : fromSecs (secs + 1) = fromSecs secs + fromSecs 1 :=
  Nat.add_mul secs 1 _

theorem advance {start : Instant} {m : Nat} (hlast : c.last = start + fromSecs (m + c.inTick))
    (hlast' : c'.last = tickTime c.last a) (hstep : c.wheel.step a = some (.ok (e, c'.wheel)))
    (hdetail : Detail c.wheel a e c'.wheel chain') :
    ∃ m', c'.last = start + fromSecs (m' + c'.inTick) ∧
      Advance m c.wheel.inner.currentSlot m' c'.wheel.inner.currentSlot chain' := by
  by_cases htick : a = .tick
  · subst htick
    rw [inTick_outside (outside_of_tick hstep), Nat.add_zero] at hlast
    have hnext : c'.last = start + fromSecs (m + 1) := by
      rw [hlast', tickTime, hlast, Nat.add_assoc, ← fromSecs_succ]
    by_cases houtside : c'.wheel.control = .outside
    · refine ⟨m + 1, ?_, ⟨Or.inr ⟨rfl, hdetail.passed ⟨Or.inr rfl, houtside⟩⟩⟩⟩
      rwa [inTick_outside houtside]
    · refine ⟨m, ?_, ⟨Or.inl ⟨rfl, hdetail.kept fun h => houtside h.2⟩⟩⟩
      rwa [inTick_inside houtside]
  · have hsame : c'.last = c.last := by
      rw [hlast']
      cases a with
      | tick => exact absurd rfl htick
      | schedule | reschedule | drop | visit | finish => rfl
    rw [hsame, hlast]
    by_cases houtside : c.wheel.control = .outside
    · refine ⟨m, ?_, ⟨Or.inl ⟨rfl, hdetail.kept fun h => ?_⟩⟩⟩
      · rw [inTick_outside houtside, inTick_outside (hdetail.outside houtside htick)]
      · exact h.1.elim (fun hne => hne houtside) htick
    · rw [inTick_inside houtside]
      by_cases hdone : c'.wheel.control = .outside
      · refine ⟨m + 1, ?_, ⟨Or.inr ⟨rfl, hdetail.passed ⟨Or.inl houtside, hdone⟩⟩⟩⟩
        rw [inTick_outside hdone]
      · refine ⟨m, ?_, ⟨Or.inl ⟨rfl, hdetail.kept fun h => hdone h.2⟩⟩⟩
        rw [inTick_inside hdone]

theorem Advance.mem {m m' d : Nat} {current current' : Fin numOfSlots}
    (h : Advance m current m' current' chain') (hd : 1 ≤ d) (hle : d ≤ mask)
    (hmem : id ∈ chain' (ahead current d)) :
    ∃ d', 1 ≤ d' ∧ d' ≤ mask ∧ m' + d' = m + d ∧ id ∈ chain' (ahead current' d') := by
  rcases h.slot with ⟨rfl, rfl⟩ | ⟨rfl, rfl, hempty⟩
  · exact ⟨d, hd, hle, rfl, hmem⟩
  · obtain ⟨d, rfl⟩ := Nat.exists_eq_add_of_le' hd
    rcases d with - | d
    · have hnone : id ∈ chain' (after current) := hmem
      rw [hempty] at hnone
      cases hnone
    · refine ⟨d + 1, by omega, by omega, by omega, ?_⟩
      rwa [ahead_after]

end Clocked

theorem Clocked.exists_inv {start : Instant}
    (h : (clocked τ).Run Clocked.Ticking (Clocked.init start) log c) :
    ∃ chain, c.wheel.Inv chain := by
  refine Machine.Run.invariant (I := fun _ (c : Clocked τ) => ∃ chain, c.wheel.Inv chain)
    ⟨_, State.inv_init⟩ ?_ h
  rintro log c a e c' ⟨chain, hinv⟩ hticking hstep
  obtain ⟨e', c'', chain', hok, -, -, -, hinv', -⟩ := Clocked.step_spec hinv hticking.1 hstep
  cases hok
  exact ⟨chain', hinv'⟩

theorem run_ticks (id : Nat) {inner : Inner τ} (timers : List Nat) (start : Instant) (n : Nat)
    (h : ∀ k, k < n →
      (inner.slots (ahead inner.currentSlot k)).next = .slot (ahead inner.currentSlot (k + 1))) :
    ∃ log, (clocked τ).Run (Clocked.Sleeping id) ⟨⟨inner, timers, .outside⟩, start⟩ log
      ⟨⟨{ inner with currentSlot := ahead inner.currentSlot n }, timers, .outside⟩,
        start + fromSecs n⟩ := by
  induction n with
  | zero =>
      refine ⟨[], ?_⟩
      rw [ahead_zero]
      exact .nil
  | succ n ih =>
      obtain ⟨log, hrun⟩ := ih fun k hk => h k (Nat.lt_succ_of_lt hk)
      have hsleeping : Clocked.Sleeping id ⟨⟨{ inner with
          currentSlot := ahead inner.currentSlot n }, timers, .outside⟩, start + fromSecs n⟩
          .tick := ⟨⟨trivial, trivial⟩, nofun, rfl⟩
      refine ⟨log ++ [(start + fromSecs (n + 1), .ticked)], hrun.snoc hsleeping ?_⟩
      simp only [clocked, Clocked.step, State.step, State.tick, h n (Nat.lt_succ_self n)]
      rw [Clocked.fromSecs_succ, ← Nat.add_assoc]
      rfl

end Ruyi.Reactor.Wheel
