import Ruyi.Reactor.WheelClock

namespace Ruyi.Reactor.Wheel

open Ruyi.Base

variable {τ : Type} {c c' : Clocked τ} {chain chain' : Chains} {id : Nat} {a : Action τ}
  {e : Event τ} {log : List (Instant × Event τ)} {f : Instant}

/-- A sleep of `secs` seconds that starts at a phase of the second after the tick at
`start`. -/
structure Sleep where
  start : Instant
  phase : Nat
  secs : Nat
  phase_pos : 0 < phase
  phase_lt : phase < 1000000000
  secs_pos : 1 ≤ secs

namespace Sleep

variable {p : Sleep} {m : Nat} {exp : Instant} {old : Option Instant}

def calledAt (p : Sleep) : Instant := p.start + p.phase

/-- The tick that expires the timer, counted from `start`. -/
def dueTick (p : Sleep) : Nat :=
  if p.secs ≤ mask ∨ 500000000 ≤ p.phase then p.secs else p.secs - 1

/-- The entry is where tick `v` will meet it, and is expired by that tick or put back. -/
def Aimed (p : Sleep) (v : Nat) : Option Instant → Prop
  | none => v = p.dueTick
  | some exp => exp = p.calledAt + fromSecs p.secs ∧ v + 1 ≤ p.secs ∧ mask < p.secs

theorem left_eq (start phase secs n : Nat) (hn : n + 1 ≤ secs) :
    start + phase + fromSecs secs - (start + fromSecs n) = fromSecs (secs - n) + phase ∧
      start + fromSecs n + fromSecs 1 ≤ start + phase + fromSecs secs := by
  unfold fromSecs
  omega

theorem roundToSecs_add (secs phase : Nat) (h : phase < 1000000000) :
    roundToSecs (fromSecs secs + phase) =
      if 500000000 ≤ phase then secs + 1 else secs := by
  have hsub : subsecNanos (fromSecs secs + phase) = phase := by
    unfold subsecNanos fromSecs
    omega
  have hsecs : asSecs (fromSecs secs + phase) = secs := by
    unfold asSecs fromSecs
    omega
  rw [roundToSecs, hsub, hsecs]

theorem Aimed.due (h : p.Aimed (m + 1) (some exp)) :
    p.start + fromSecs (m + 1) + fromSecs 1 ≤ exp := by
  obtain ⟨rfl, hsecs, -⟩ := h
  exact (left_eq p.start p.phase p.secs (m + 1) hsecs).2

/-- The remainder is rounded to where the last lap starts: the current slot is still one
behind. -/
theorem Aimed.round (h : p.Aimed (m + 1) (some exp)) :
    roundToSecs (exp - (p.start + fromSecs (m + 1))) = p.dueTick - m ∧ m < p.dueTick ∧
      p.dueTick ≤ p.secs := by
  obtain ⟨rfl, hsecs, hlong⟩ := h
  rw [calledAt, (left_eq p.start p.phase p.secs (m + 1) hsecs).1,
    roundToSecs_add _ _ p.phase_lt, dueTick]
  by_cases hhalf : 500000000 ≤ p.phase
  · rw [if_pos hhalf, if_pos (Or.inr hhalf)]
    omega
  · rw [if_neg hhalf, if_neg (by omega)]
    omega

theorem Aimed.putBack (h : p.Aimed (m + 1) (some exp)) :
    let now := p.start + fromSecs (m + 1)
    1 ≤ roundToSecs (exp - now) ∧ p.Aimed (m + min (roundToSecs (exp - now)) mask)
      (Inner.parked now (exp - now) (some exp) none) := by
  obtain ⟨hround, hlt, hle⟩ := h.round
  have hmask : mask = 127 := rfl
  simp only [hround, Inner.parked]
  refine ⟨by omega, ?_⟩
  split
  · refine ⟨h.1, ?_, h.2.2⟩
    omega
  · change m + min (p.dueTick - m) mask = p.dueTick
    omega

/-- After `m` whole ticks the entry is still to be met by tick `m + d`. -/
def Waiting (p : Sleep) (id m : Nat) (w : State τ) (chain : Chains) : Prop :=
  ∃ d task old, 1 ≤ d ∧ d ≤ mask ∧ id ∈ chain (ahead w.inner.currentSlot d) ∧
    w.inner.dataOf id = some (task, old) ∧ p.Aimed (m + d) old

/-- The entry is off the wheel. -/
def Gone (id : Nat) (w : State τ) (chain : Chains) : Prop :=
  (w.inner.dataOf id).isSome ∧ ∀ i, id ∉ chain i

/-- What the events so far say about a timer that sleeps. -/
structure Keeps (p : Sleep) (id m : Nat) (log : List (Instant × Event τ)) (c : Clocked τ)
    (chain : Chains) : Prop where
  wheel : c.wheel.Inv chain
  last : c.last = p.start + fromSecs (m + c.inTick)
  phase : (p.Waiting id m c.wheel chain ∧ ∀ f, ¬ ExpiredAt id f log) ∨
    Gone id c.wheel chain ∧ ∀ f, ExpiredAt id f log ↔ f = p.start + fromSecs p.dueTick

theorem Gone.step {w w' : State τ} (h : Gone id w chain) (hshows : a.Shows e)
    (heffect : Effect w chain e w' chain') (hdetail : Detail w a e w' chain')
    (htarget : a.target ≠ some id) : ¬ e.Expires id ∧ Gone id w' chain' := by
  obtain ⟨⟨task, old⟩, hdata⟩ := Option.isSome_iff_exists.mp h.1
  cases fate_of_step hshows heffect hdetail hdata htarget with
  | passed hsubject =>
      refine ⟨fun hexpires => hsubject hexpires.subject, ?_, ?_⟩
      · rw [heffect.data hsubject]
        exact h.1
      · intro i hi
        exact h.2 i ((heffect.member hsubject).mp hi)
  | expired now hvisit hmem => exact absurd hmem (h.2 _)
  | putBack now exp hvisit hmem => exact absurd hmem (h.2 _)

theorem Keeps.met (h : p.Keeps id m log c chain) {now : Instant} {d : Nat}
    {r : Except Fault (Event τ × State τ)} (hstep : c.wheel.step (.visit now) = some r)
    (hmem : id ∈ chain (ahead c.wheel.inner.currentSlot d)) (hle : d ≤ mask)
    (hfirst : id ∈ chain (after c.wheel.inner.currentSlot)) :
    d = 1 ∧ c.last = p.start + fromSecs (m + 1) := by
  have hmask : mask = 127 := rfl
  have hslot : ahead c.wheel.inner.currentSlot d = ahead c.wheel.inner.currentSlot 1 :=
    h.wheel.ring.disjoint hmem hfirst
  refine ⟨ahead_inj hslot (by omega) (by omega), ?_⟩
  rw [h.last, Clocked.inTick_inside (inside_of_visit hstep)]

theorem Keeps.step {out : (Instant × Event τ) × Clocked τ} (h : p.Keeps id m log c chain)
    (hsleeping : c.Sleeping id a) (hstep : c.step a = some (.ok out)) :
    ∃ e c' m' chain', out = ((c'.last, e), c') ∧
      p.Keeps id m' (log ++ [(c'.last, e)]) c' chain' := by
  obtain ⟨⟨hallowed, hontime⟩, htarget, habandons⟩ := hsleeping
  obtain ⟨e, c', chain', rfl, hlast', hwheel, hshows, hinv, heffect, hdetail⟩ :=
    Clocked.step_spec h.wheel hallowed hstep
  obtain ⟨m', hlast, hadvance⟩ := Clocked.advance h.last hlast' hwheel hdetail
  refine ⟨e, c', m', chain', rfl, hinv, hlast, ?_⟩
  rcases h.phase with ⟨⟨d, task, old, hd, hle, hmem, hdata, haimed⟩, hnone⟩ | ⟨hgone, hlog⟩
  · cases fate_of_step hshows heffect hdetail hdata htarget with
    | passed hsubject =>
        left
        obtain ⟨d', hd', hle', hsum, hmem'⟩ :=
          hadvance.mem hd hle ((heffect.member hsubject).mpr hmem)
        refine ⟨⟨d', task, old, hd', hle', hmem', (heffect.data hsubject).trans hdata,
          hsum ▸ haimed⟩, ?_⟩
        intro f hf
        rcases expiredAt_append.mp hf with hf | ⟨-, hexpires⟩
        · exact hnone f hf
        · exact hsubject hexpires.subject
    | expired now hvisit hfirst hexpires hfree hnew hdue =>
        subst hvisit
        obtain ⟨rfl, hlast₀⟩ := h.met hwheel hmem hle hfirst
        obtain rfl : now = p.start + fromSecs (m + 1) := hontime.trans hlast₀
        have hdueTick : p.dueTick = m + 1 := by
          rcases old with - | exp
          · exact haimed.symm
          · rcases hdue with ⟨current, hturn⟩ | hdue
            · rw [c.abandons_of_turn hturn hdata] at habandons
              cases habandons
            · exact absurd (hdue exp rfl) (Nat.not_lt_of_ge haimed.due)
        have hat : c'.last = p.start + fromSecs p.dueTick := by
          rw [hlast', hdueTick]
          exact hlast₀
        refine Or.inr ⟨⟨Option.isSome_of_eq_some hnew, hfree⟩, ?_⟩
        intro f
        rw [expiredAt_append, hat]
        simp [hnone, hexpires]
    | putBack now exp hvisit hfirst hwaits hleft hmem' hnew =>
        subst hvisit hleft
        obtain ⟨rfl, hlast₀⟩ := h.met hwheel hmem hle hfirst
        obtain rfl : now = p.start + fromSecs (m + 1) := hontime.trans hlast₀
        obtain ⟨hround, haimed'⟩ := haimed.putBack
        rw [slotAfter_eq_ahead] at hmem'
        obtain ⟨d', hd', hle', hsum, hmem''⟩ := hadvance.mem (by omega) (by omega) hmem'
        refine Or.inl ⟨⟨d', task, _, hd', hle', hmem'', hnew, hsum ▸ haimed'⟩, ?_⟩
        intro f hf
        rcases expiredAt_append.mp hf with hf | ⟨-, hexpires⟩
        · exact hnone f hf
        · exact hwaits hexpires
  · obtain ⟨hnot, hgone'⟩ := hgone.step hshows heffect hdetail htarget
    refine Or.inr ⟨hgone', ?_⟩
    intro f
    rw [expiredAt_append, hlog]
    simp [hnot]

theorem Keeps.run (h : p.Keeps id m [] c chain)
    (hrun : (clocked τ).Run (Clocked.Sleeping id) c log c') :
    ∃ m' chain', p.Keeps id m' log c' chain' := by
  refine Machine.Run.invariant (I := fun log c => ∃ m chain, p.Keeps id m log c chain)
    ⟨m, chain, h⟩ ?_ hrun
  rintro log c a e c' ⟨m, chain, hkeeps⟩ hsleeping hstep
  obtain ⟨e', c'', m', chain', hok, hkeeps'⟩ := hkeeps.step hsleeping hstep
  cases hok
  exact ⟨m', chain', hkeeps'⟩

theorem keeps_of_schedule {t : Instant} {task : τ} (h : c.wheel.Inv chain)
    (houtside : c.wheel.control = .outside) (hlast : c.last = p.start) (ht : t = p.calledAt)
    (hstep : c.step (.schedule t (fromSecs p.secs) task) =
      some (.ok ((f, .scheduled id task), c'))) :
    ∃ chain', p.Keeps id 0 [] c' chain' := by
  subst ht
  obtain ⟨e, c'', chain', hok, hlast', -, -, hinv, -, hdetail⟩ :=
    Clocked.step_spec h (State.allowed_outside houtside _ _ _) hstep
  obtain ⟨heq, rfl⟩ := Prod.mk.inj hok
  obtain ⟨-, rfl⟩ := Prod.mk.inj heq
  have houtside' := hdetail.outside houtside nofun
  have hcurrent := hdetail.kept fun hreturns => hreturns.1.elim (· houtside) nofun
  obtain ⟨hmem, hdata⟩ := hdetail.places
  have hmask : mask = 127 := rfl
  have hsecs := p.secs_pos
  rw [asSecs_fromSecs] at hmem hdata
  rw [slotAfter_eq_ahead, ← hcurrent] at hmem
  refine ⟨chain', hinv, ?_, Or.inl ⟨⟨min p.secs mask, task, _, by omega, by omega, hmem, hdata,
    ?_⟩, nofun⟩⟩
  · rw [hlast', Clocked.inTick_outside houtside']
    exact hlast
  · rw [Nat.zero_add]
    split
    · refine ⟨rfl, by omega, by omega⟩
    · change min p.secs mask = p.dueTick
      rw [dueTick, if_pos (Or.inl (by omega))]
      omega

theorem le_of_fromSecs {start m n : Nat} (h : start + fromSecs m ≤ start + fromSecs n) :
    m ≤ n :=
  Nat.le_of_mul_le_mul_right (Nat.le_of_add_le_add_left h) (by decide)

theorem Keeps.gone (h : p.Keeps id m log c chain) (houtside : c.wheel.control = .outside)
    (hlate : p.start + fromSecs p.secs ≤ c.last) :
    c.wheel.inner.isExpired id = .ok true ∧
      ∀ f, ExpiredAt id f log ↔ f = p.start + fromSecs p.dueTick := by
  rcases h.phase with ⟨⟨d, task, old, hd, -, -, -, haimed⟩, -⟩ | ⟨⟨hused, hfree⟩, hlog⟩
  · rw [h.last, Clocked.inTick_outside houtside, Nat.add_zero] at hlate
    have hm := le_of_fromSecs hlate
    have hdue : p.dueTick ≤ p.secs := by
      rw [dueTick]
      split <;> omega
    rcases old with - | exp
    · have : m + d = p.dueTick := haimed
      omega
    · have := haimed.2.1
      omega
  · refine ⟨Inner.isExpired_iff.mpr ⟨hused, ?_⟩, hlog⟩
    simp [(h.wheel.ring.idle hfree).1]

theorem in_tolerance (start phase secs : Nat) (hphase : phase < 1000000000) (hsecs : 1 ≤ secs) :
    start + phase + fromSecs (secs - 1) ≤ start + fromSecs secs ∧
      start + fromSecs secs ≤ start + phase + fromSecs (secs + 1) := by
  unfold fromSecs
  omega

theorem inTolerance_iff (p : Sleep) :
    (p.calledAt + fromSecs (p.secs - 1) ≤ p.start + fromSecs p.dueTick ∧
        p.start + fromSecs p.dueTick ≤ p.calledAt + fromSecs (p.secs + 1)) ↔
      p.secs ≤ mask ∨ 500000000 ≤ p.phase := by
  rw [dueTick, calledAt]
  split
  · rename_i hmet
    exact iff_of_true (in_tolerance _ _ _ p.phase_lt p.secs_pos) hmet
  · rename_i hmissed
    refine iff_of_false ?_ hmissed
    rintro ⟨hle, -⟩
    refine absurd hle (Nat.not_le_of_gt (Nat.add_lt_add_right ?_ _))
    exact Nat.lt_add_of_pos_right p.phase_pos

end Sleep

/-- A timer of the wheel that sleeps undisturbed is expired by one tick: the one `secs`
seconds after the tick before the call, unless it was parked and the call came in the first
half of the second.  Then it is the tick before, which is more than a second early. -/
theorem expires_in_tolerance_iff {c₀ c₁ c₂ : Clocked τ} {first t : Instant} {secs : Nat}
    {task : τ} {log₀ : List (Instant × Event τ)}
    (hreach : (clocked τ).Run Clocked.Ticking (Clocked.init first) log₀ c₀)
    (houtside : c₀.wheel.control = .outside) (hsecs : 1 ≤ secs) (hafter : c₀.last < t)
    (hbefore : t < c₀.last + fromSecs 1)
    (hcall : c₀.step (.schedule t (fromSecs secs) task) =
      some (.ok ((c₀.last, .scheduled id task), c₁)))
    (hrun : (clocked τ).Run (Clocked.Sleeping id) c₁ log c₂)
    (hdone : c₂.wheel.control = .outside) (hlate : c₀.last + fromSecs secs ≤ c₂.last) :
    c₂.wheel.inner.isExpired id = .ok true ∧
      (∀ f, ExpiredAt id f log ↔ f = c₀.last + fromSecs
        (if secs ≤ mask ∨ c₀.last + 500000000 ≤ t then secs else secs - 1)) ∧
      ((∃ f, ExpiredAt id f log ∧ t + fromSecs (secs - 1) ≤ f ∧ f ≤ t + fromSecs (secs + 1)) ↔
        secs ≤ mask ∨ c₀.last + 500000000 ≤ t) := by
  obtain ⟨chain, hinv⟩ := Clocked.exists_inv hreach
  obtain ⟨phase, rfl⟩ := Nat.exists_eq_add_of_le (Nat.le_of_lt hafter)
  let p : Sleep := ⟨c₀.last, phase, secs, Nat.pos_of_lt_add_right hafter,
    Nat.lt_of_add_lt_add_left hbefore, hsecs⟩
  obtain ⟨chain₁, hkeeps⟩ := Sleep.keeps_of_schedule (p := p) hinv houtside rfl rfl hcall
  obtain ⟨m, chain₂, hkeeps⟩ := hkeeps.run hrun
  obtain ⟨hexpired, hlog⟩ := hkeeps.gone hdone hlate
  have hhalf : c₀.last + 500000000 ≤ c₀.last + phase ↔ 500000000 ≤ phase :=
    Nat.add_le_add_iff_left
  simp only [hhalf]
  refine ⟨hexpired, hlog, ?_⟩
  rw [← p.inTolerance_iff]
  constructor
  · rintro ⟨f, hf, hbounds⟩
    rwa [(hlog f).mp hf] at hbounds
  · intro hbounds
    exact ⟨_, (hlog _).mpr rfl, hbounds⟩

theorem expires_in_tolerance_of_two :
    ∃ (c₁ c₂ : Clocked Unit) (log : List (Instant × Event Unit)),
      (Clocked.init 0).step (.schedule 250000000 (fromSecs 2) ()) =
        some (.ok ((0, .scheduled 0 ()), c₁)) ∧
      (clocked Unit).Run (Clocked.Sleeping 0) c₁ log c₂ ∧
      ∃ f, ExpiredAt 0 f log ∧ 250000000 + fromSecs (2 - 1) ≤ f ∧
        f ≤ 250000000 + fromSecs (2 + 1) := by
  have hall : ∀ {c₁ c₂ : Clocked Unit} {log : List (Instant × Event Unit)},
      (Clocked.init 0).step (.schedule 250000000 (fromSecs 2) ()) =
        some (.ok ((0, .scheduled 0 ()), c₁)) →
      (clocked Unit).exec (Clocked.Sleeping 0) [.tick, .tick, .visit (fromSecs 2), .finish false]
        c₁ = some (log, c₂) →
      c₂.wheel.control = .outside → 0 + fromSecs 2 ≤ c₂.last →
      (clocked Unit).Run (Clocked.Sleeping 0) c₁ log c₂ ∧
        ∃ f, ExpiredAt 0 f log ∧ 250000000 + fromSecs (2 - 1) ≤ f ∧
          f ≤ 250000000 + fromSecs (2 + 1) := by
    intro c₁ c₂ log hcall hexec hdone hlate
    have hrun := Machine.Run.of_exec _ hexec
    exact ⟨hrun, (expires_in_tolerance_iff .nil rfl (by decide) (by decide) (by decide) hcall hrun
      hdone hlate).2.2.mpr (Or.inl (by decide))⟩
  obtain ⟨hrun, hexpired⟩ := hall rfl rfl rfl (by decide)
  exact ⟨_, _, _, rfl, hrun, hexpired⟩

/-- A sleep of 129 seconds that starts a quarter of a second after a tick. -/
theorem long_sleep_expires_early :
    ∃ (c₁ c₂ : Clocked Unit) (log : List (Instant × Event Unit)),
      (Clocked.init 0).step (.schedule 250000000 (fromSecs 129) ()) =
        some (.ok ((0, .scheduled 0 ()), c₁)) ∧
      (clocked Unit).Run (Clocked.Sleeping 0) c₁ log c₂ ∧ c₂.last = fromSecs 131 ∧
      ExpiredAt 0 (fromSecs 128) log ∧ ¬ ∃ f, ExpiredAt 0 f log ∧
        250000000 + fromSecs (129 - 1) ≤ f ∧ f ≤ 250000000 + fromSecs (129 + 1) := by
  let p : Sleep := ⟨0, 250000000, 129, by decide, by decide, by decide⟩
  obtain ⟨inner, c₂, log₂, hcall, hslots, hexec, hdone, hlast⟩ :
      ∃ (inner : Inner Unit) (c₂ : Clocked Unit) (log₂ : List (Instant × Event Unit)),
        (Clocked.init 0).step (.schedule 250000000 (fromSecs 129) ()) =
          some (.ok ((0, .scheduled 0 ()), ⟨⟨inner, [0], .outside⟩, 0⟩)) ∧
        (∀ k, k < 126 → (inner.slots (ahead inner.currentSlot k)).next =
          .slot (ahead inner.currentSlot (k + 1))) ∧
        (clocked Unit).exec (Clocked.Sleeping 0) [.tick, .visit (fromSecs 127), .tick,
          .visit (fromSecs 128), .finish false, .tick, .tick, .tick] ⟨⟨{ inner with
            currentSlot := ahead inner.currentSlot 126 }, [0], .outside⟩, 0 + fromSecs 126⟩ =
          some (log₂, c₂) ∧ c₂.wheel.control = .outside ∧ c₂.last = fromSecs 131 :=
    ⟨_, _, _, rfl, by decide, rfl, rfl, by decide⟩
  obtain ⟨log₁, hticks⟩ := run_ticks 0 [0] 0 126 hslots
  have hrun := hticks.trans (Machine.Run.of_exec _ hexec)
  obtain ⟨chain, hkeeps⟩ := Sleep.keeps_of_schedule (p := p) State.inv_init rfl rfl
    (Nat.zero_add _).symm hcall
  obtain ⟨m, chain', hkeeps⟩ := hkeeps.run hrun
  have hlog := (hkeeps.gone hdone (by rw [hlast]; decide)).2
  refine ⟨_, c₂, _, hcall, hrun, hlast, (hlog _).mpr (by decide), ?_⟩
  rintro ⟨f, hf, hle, -⟩
  obtain rfl := (hlog f).mp hf
  exact absurd hle (by decide)

end Ruyi.Reactor.Wheel
