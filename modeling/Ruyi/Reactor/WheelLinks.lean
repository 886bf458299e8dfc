import Ruyi.Reactor.Wheel

namespace Ruyi.Reactor.Wheel

namespace Inner

variable {τ : Type} {s t s' : Inner τ} {id : Nat} {k : Fin numOfSlots}

def nextOf (s : Inner τ) : Token → Token
  | .entry id => (s.entries.get id).elim .nil Entry.next
  | .slot i => (s.slots i).next
  | .nil => .nil

def prevOf (s : Inner τ) : Token → Token
  | .entry id => (s.entries.get id).elim .nil Entry.prev
  | .slot i => (s.slots i).prev
  | .nil => .nil

/-- What an entry holds besides its links. -/
def dataOf (s : Inner τ) (id : Nat) : Option (τ × Option Instant) :=
  (s.entries.get id).map fun entry => (entry.task, entry.expiration)

/-- A token that `setNext` and `setPrev` may be given. -/
def Valid (s : Inner τ) : Token → Prop
  | .entry id => (s.dataOf id).isSome
  | .slot _ => True
  | .nil => False

/-- The slot that is a number of whole seconds ahead. -/
def slotAfter (s : Inner τ) (secs : Nat) : Fin numOfSlots :=
  effectiveSlot (wrappingAdd s.currentSlot (if mask < secs then mask else secs))

/-- `s'` is `s` with entry `id` linked in before slot `k`. -/
structure LinkedIn (s s' : Inner τ) (id : Nat) (k : Fin numOfSlots) : Prop where
  next : ∀ y, s'.nextOf y = if y = s.prevOf (.slot k) then .entry id
    else if y = .entry id then .slot k else s.nextOf y
  prev : ∀ y, s'.prevOf y = if y = .slot k then .entry id
    else if y = .entry id then s.prevOf (.slot k) else s.prevOf y
  current : s'.currentSlot = s.currentSlot

/-- `s'` is `s` with the neighbours of entry `id` linked to each other. -/
structure Unlinked (s s' : Inner τ) (id : Nat) : Prop where
  next : ∀ y, y ≠ .entry id → s'.nextOf y =
    if y = s.prevOf (.entry id) then s.nextOf (.entry id) else s.nextOf y
  prev : ∀ y, y ≠ .entry id → s'.prevOf y =
    if y = s.nextOf (.entry id) then s.prevOf (.entry id) else s.prevOf y
  current : s'.currentSlot = s.currentSlot

theorem exists_entry (h : (s.dataOf id).isSome) : ∃ entry, s.entries.get id = some entry := by
  rw [dataOf, Option.isSome_map] at h
  exact Option.isSome_iff_exists.mp h

theorem valid_congr (h : ∀ id, s'.dataOf id = s.dataOf id) (y : Token) :
    s'.Valid y ↔ s.Valid y := by
  rcases y with id | i | -
  · rw [Valid, h, Valid]
  · exact Iff.rfl
  · exact Iff.rfl

theorem valid_of_dataOf {data : τ × Option Instant} (hget : (s.dataOf id).isSome)
    (h : ∀ j, s'.dataOf j = if j = id then some data else s.dataOf j) (y : Token) :
    s'.Valid y ↔ s.Valid y := by
  rcases y with j | i | -
  · rw [Valid, h, Valid]
    split
    · rename_i hj
      rw [hj, hget]
      simp
    · rfl
  · exact Iff.rfl
  · exact Iff.rfl

theorem getEntry_ok {entry : Entry τ} (h : s.entries.get id = some entry) :
    s.getEntry id = .ok entry := by
  rw [getEntry, h]

theorem nextOf_entry {entry : Entry τ} (h : s.entries.get id = some entry) :
    s.nextOf (.entry id) = entry.next := by
  rw [nextOf, h, Option.elim_some]

theorem prevOf_entry {entry : Entry τ} (h : s.entries.get id = some entry) :
    s.prevOf (.entry id) = entry.prev := by
  rw [prevOf, h, Option.elim_some]

theorem dataOf_entry {entry : Entry τ} (h : s.entries.get id = some entry) :
    s.dataOf id = some (entry.task, entry.expiration) := by
  rw [dataOf, h, Option.map_some]

theorem isExpired_iff {expired : Bool} : s.isExpired id = .ok expired ↔
    (s.dataOf id).isSome ∧ (expired = true ↔ s.prevOf (.entry id) = .nil) := by
  rcases hget : s.entries.get id with - | entry
  · have hfault : s.isExpired id = .error .freed := by
      rw [isExpired, getEntry, hget]
      rfl
    rw [hfault, dataOf, hget]
    simp
  · have hok : s.isExpired id = .ok (decide (entry.prev = .nil)) :=
      bind_of_ok (getEntry_ok hget) rfl
    rw [hok, dataOf_entry hget, prevOf_entry hget]
    by_cases hprev : entry.prev = .nil
    · cases expired <;> simp [hprev]
    · cases expired <;> simp [hprev]

theorem links_of_get {entry : Entry τ} (hslots : s'.slots = s.slots)
    (hget : ∀ j, s'.entries.get j = if j = id then some entry else s.entries.get j) :
    (∀ z, s'.nextOf z = if z = .entry id then entry.next else s.nextOf z) ∧
      (∀ z, s'.prevOf z = if z = .entry id then entry.prev else s.prevOf z) ∧
      ∀ j, s'.dataOf j =
        if j = id then some (entry.task, entry.expiration) else s.dataOf j := by
  refine ⟨?_, ?_, ?_⟩
  · rintro (j | i | -)
    · simp only [nextOf, hget, Token.entry.injEq]
      split <;> rfl
    · simp [nextOf, hslots]
    · simp [nextOf]
  · rintro (j | i | -)
    · simp only [prevOf, hget, Token.entry.injEq]
      split <;> rfl
    · simp [prevOf, hslots]
    · simp [prevOf]
  · intro j
    simp only [dataOf, hget]
    split <;> rfl

theorem modifyEntry_ok {entry : Entry τ} (h : s.entries.get id = some entry)
    (f : Entry τ → Entry τ) :
    ∃ s', s.modifyEntry id f = .ok s' ∧ s'.currentSlot = s.currentSlot ∧
      (∀ z, s'.nextOf z = if z = .entry id then (f entry).next else s.nextOf z) ∧
      (∀ z, s'.prevOf z = if z = .entry id then (f entry).prev else s.prevOf z) ∧
      ∀ j, s'.dataOf j =
        if j = id then some ((f entry).task, (f entry).expiration) else s.dataOf j := by
  refine ⟨{ s with entries := s.entries.modify id f }, ?_, rfl, links_of_get rfl ?_⟩
  · rw [modifyEntry, h]
  · intro j
    rw [Slab.get_modify, h, Option.map_some]

theorem nextOf_modifySlot (s : Inner τ) (k : Fin numOfSlots) (f : Slot → Slot) (z : Token) :
    (s.modifySlot k f).nextOf z = if z = .slot k then (f (s.slots k)).next else s.nextOf z := by
  rcases z with j | i | -
  · simp [nextOf, modifySlot]
  · simp only [nextOf, modifySlot, Token.slot.injEq]
    split
    · rename_i hi
      rw [hi]
    · rfl
  · simp [nextOf]

theorem prevOf_modifySlot (s : Inner τ) (k : Fin numOfSlots) (f : Slot → Slot) (z : Token) :
    (s.modifySlot k f).prevOf z = if z = .slot k then (f (s.slots k)).prev else s.prevOf z := by
  rcases z with j | i | -
  · simp [prevOf, modifySlot]
  · simp only [prevOf, modifySlot, Token.slot.injEq]
    split
    · rename_i hi
      rw [hi]
    · rfl
  · simp [prevOf]

theorem setNext_ok {y : Token} (hvalid : s.Valid y) (token : Token) :
    ∃ s', s.setNext y token = .ok s' ∧
      (∀ z, s'.nextOf z = if z = y then token else s.nextOf z) ∧
      (∀ z, s'.prevOf z = s.prevOf z) ∧ (∀ id, s'.dataOf id = s.dataOf id) ∧
      s'.currentSlot = s.currentSlot := by
  rcases y with id | i | -
  · obtain ⟨entry, hget⟩ := exists_entry hvalid
    obtain ⟨s', hok, hcurrent, hnext, hprev, hdata⟩ :=
      modifyEntry_ok hget fun entry => { entry with next := token }
    refine ⟨s', hok, hnext, ?_, ?_, hcurrent⟩
    · intro z
      rw [hprev]
      split
      · rename_i hz
        rw [hz, prevOf_entry hget]
      · rfl
    · intro j
      rw [hdata]
      split
      · rename_i hj
        rw [hj, dataOf_entry hget]
      · rfl
  · refine ⟨_, rfl, nextOf_modifySlot s i _, ?_, fun _ => rfl, rfl⟩
    intro z
    rw [prevOf_modifySlot]
    split
    · rename_i hz
      rw [hz, prevOf]
    · rfl
  · exact hvalid.elim

theorem setPrev_ok {y : Token} (hvalid : s.Valid y) (token : Token) :
    ∃ s', s.setPrev y token = .ok s' ∧
      (∀ z, s'.prevOf z = if z = y then token else s.prevOf z) ∧
      (∀ z, s'.nextOf z = s.nextOf z) ∧ (∀ id, s'.dataOf id = s.dataOf id) ∧
      s'.currentSlot = s.currentSlot := by
  rcases y with id | i | -
  · obtain ⟨entry, hget⟩ := exists_entry hvalid
    obtain ⟨s', hok, hcurrent, hnext, hprev, hdata⟩ :=
      modifyEntry_ok hget fun entry => { entry with prev := token }
    refine ⟨s', hok, hprev, ?_, ?_, hcurrent⟩
    · intro z
      rw [hnext]
      split
      · rename_i hz
        rw [hz, nextOf_entry hget]
      · rfl
    · intro j
      rw [hdata]
      split
      · rename_i hj
        rw [hj, dataOf_entry hget]
      · rfl
  · refine ⟨_, rfl, prevOf_modifySlot s i _, ?_, fun _ => rfl, rfl⟩
    intro z
    rw [nextOf_modifySlot]
    split
    · rename_i hz
      rw [hz, nextOf]
    · rfl
  · exact hvalid.elim

/-- Linking the neighbours of a slot's new last entry, the last steps of `schedule` and
`reschedule_internal`. -/
theorem linkLast_ok (hvalid : s.Valid (s.prevOf (.slot k)))
    (hnext : s.nextOf (.entry id) = .slot k) (hprev : s.prevOf (.entry id) = s.prevOf (.slot k)) :
    ∃ t, s.setNext (s.prevOf (.slot k)) (.entry id) = .ok t ∧
      LinkedIn s (t.modifySlot k fun slot => { slot with prev := .entry id }) id k ∧
      ∀ j, (t.modifySlot k fun slot => { slot with prev := .entry id }).dataOf j =
        s.dataOf j := by
  obtain ⟨t, hok, htnext, htprev, htdata, htcurrent⟩ := setNext_ok hvalid (.entry id)
  refine ⟨t, hok, ⟨?_, ?_, htcurrent⟩, htdata⟩
  · intro z
    rw [nextOf_modifySlot]
    split
    · rename_i hz
      rw [hz]
      change t.nextOf (.slot k) = _
      rw [htnext]
      simp
    · rw [htnext]
      by_cases hz : z = .entry id
      · rw [hz, hnext]
        simp
      · rw [if_neg hz]
  · intro z
    rw [prevOf_modifySlot]
    split
    · rfl
    · rw [htprev]
      split
      · rename_i hz
        rw [hz, hprev]
      · rfl

theorem LinkedIn.of_eq (h : LinkedIn t s' id k)
    (hnext : ∀ y, y ≠ .entry id → t.nextOf y = s.nextOf y)
    (hprev : ∀ y, y ≠ .entry id → t.prevOf y = s.prevOf y)
    (hcurrent : t.currentSlot = s.currentSlot) : LinkedIn s s' id k := by
  have hslot : t.prevOf (.slot k) = s.prevOf (.slot k) := hprev _ (by simp)
  refine ⟨?_, ?_, h.current.trans hcurrent⟩
  · intro y
    rw [h.next, hslot]
    by_cases hy : y = .entry id
    · simp [hy]
    · simp [hy, hnext y hy]
  · intro y
    rw [h.prev, hslot]
    by_cases hy : y = .entry id
    · simp [hy]
    · simp [hy, hprev y hy]

theorem schedule_panics (s : Inner τ) {now : Instant} {dur : Duration} (task : τ)
    (hfits : ¬ (mask < asSecs dur → Fits now dur)) :
    s.schedule now dur task = .error .panic := by
  obtain ⟨hmask, hover⟩ := Classical.not_imp.mp hfits
  rw [schedule, if_pos hmask, if_pos hmask, addDuration_panics hover]
  rfl

theorem schedule_ok {now : Instant} {dur : Duration} (task : τ)
    (hfits : mask < asSecs dur → Fits now dur)
    (hvalid : s.Valid (s.prevOf (.slot (s.slotAfter (asSecs dur))))) :
    ∃ id s', s.schedule now dur task = .ok (id, s') ∧ s.dataOf id = none ∧
      LinkedIn s s' id (s.slotAfter (asSecs dur)) ∧
      ∀ j, s'.dataOf j =
        if j = id then some (task, if mask < asSecs dur then some (now + dur) else none)
        else s.dataOf j := by
  let k := s.slotAfter (asSecs dur)
  let entry : Entry τ := ⟨s.prevOf (.slot k), .slot k, task,
    if mask < asSecs dur then some (now + dur) else none⟩
  let id := (s.entries.insert entry).1
  let t : Inner τ := { s with entries := (s.entries.insert entry).2 }
  have hget : ∀ j, t.entries.get j = if j = id then some entry else s.entries.get j :=
    Slab.get_insert s.entries entry
  have hfresh : s.dataOf id = none := by
    rw [dataOf, Slab.get_insert_fst s.entries entry, Option.map_none]
  obtain ⟨hnext, hprev, hdata⟩ := @links_of_get τ s t id entry rfl hget
  have hprevk : t.prevOf (.slot k) = s.prevOf (.slot k) := rfl
  have htvalid : t.Valid (t.prevOf (.slot k)) := by
    rw [hprevk]
    generalize s.prevOf (.slot k) = y at hvalid
    rcases y with j | i | -
    · have hj : j ≠ id := by
        rintro rfl
        simp [Valid, hfresh] at hvalid
      simpa [Valid, hdata, hj] using hvalid
    · trivial
    · exact hvalid
  obtain ⟨u, hok, hlinked, hu⟩ := linkLast_ok htvalid
    ((hnext _).trans (if_pos rfl)) ((hprev _).trans (if_pos rfl))
  refine ⟨id, _, ?_, hfresh, hlinked.of_eq ?_ ?_ rfl, ?_⟩
  · have hexp : (if mask < asSecs dur then (addDuration now dur).map some else .ok none) =
        Except.ok (if mask < asSecs dur then some (now + dur) else none) := by
      split
      · rename_i hmask
        rw [addDuration_ok (hfits hmask)]
        rfl
      · rfl
    rw [schedule]
    exact bind_of_ok hexp (bind_of_ok hok rfl)
  · intro y hy
    rw [hnext, if_neg hy]
  · intro y hy
    rw [hprev, if_neg hy]
  · intro j
    rw [hu, hdata]

/-- The expiration of an entry after `reschedule_internal`. -/
def parked (now : Instant) (dur : Duration) (exp old : Option Instant) : Option Instant :=
  if mask < roundToSecs dur then some (exp.getD (now + dur)) else old

theorem park_ok {now : Instant} {dur : Duration} {exp : Option Instant}
    (hfits : exp = none → mask < roundToSecs dur → Fits now dur)
    {task : τ} {old : Option Instant} (hget : s.dataOf id = some (task, old)) :
    ∃ t, s.park now dur exp id = .ok t ∧ t.currentSlot = s.currentSlot ∧
      (∀ z, t.nextOf z = s.nextOf z) ∧ (∀ z, t.prevOf z = s.prevOf z) ∧
      ∀ j, t.dataOf j = if j = id then some (task, parked now dur exp old) else s.dataOf j := by
  obtain ⟨entry, hentry, hdata⟩ := Option.map_eq_some_iff.mp hget
  cases hdata
  rw [park]
  split
  · rename_i hmask
    obtain ⟨t, hok, hcurrent, hnext, hprev, hdata⟩ := modifyEntry_ok hentry
      fun entry => { entry with expiration := some (exp.getD (now + dur)) }
    have hdue : exp.elim (addDuration now dur) .ok = .ok (exp.getD (now + dur)) := by
      cases exp with
      | none => exact addDuration_ok (hfits rfl hmask)
      | some exp => rfl
    refine ⟨t, bind_of_ok hdue hok, hcurrent, ?_, ?_, ?_⟩
    · intro z
      rw [hnext]
      split
      · rename_i hz
        rw [hz, nextOf_entry hentry]
      · rfl
    · intro z
      rw [hprev]
      split
      · rename_i hz
        rw [hz, prevOf_entry hentry]
      · rfl
    · simpa [parked, hmask] using hdata
  · rename_i hmask
    refine ⟨s, rfl, rfl, fun _ => rfl, fun _ => rfl, ?_⟩
    intro j
    split
    · rename_i hj
      rw [hj, dataOf_entry hentry, parked, if_neg hmask]
    · rfl

theorem rescheduleInternal_ok {now : Instant} {dur : Duration} {exp : Option Instant}
    (hfits : exp = none → mask < roundToSecs dur → Fits now dur)
    {task : τ} {old : Option Instant} (hget : s.dataOf id = some (task, old))
    (hvalid : s.Valid (s.prevOf (.slot (s.slotAfter (roundToSecs dur))))) :
    ∃ s', s.rescheduleInternal now dur exp id = .ok s' ∧
      LinkedIn s s' id (s.slotAfter (roundToSecs dur)) ∧
      ∀ j, s'.dataOf j =
        if j = id then some (task, parked now dur exp old) else s.dataOf j := by
  obtain ⟨t, hpark, hcurrent, hnext, hprev, hdata⟩ := park_ok hfits hget
  have hslot : t.slotAfter (roundToSecs dur) = s.slotAfter (roundToSecs dur) := by
    rw [slotAfter, hcurrent, slotAfter]
  rw [← hslot] at hvalid ⊢
  obtain ⟨entry, hentry, -⟩ := Option.map_eq_some_iff.mp ((hdata id).trans (if_pos rfl))
  let k := t.slotAfter (roundToSecs dur)
  obtain ⟨u, hmodify, hucurrent, hunext, huprev, hudata⟩ := modifyEntry_ok hentry
    fun entry => { entry with prev := t.prevOf (.slot k), next := .slot k }
  have huk : u.prevOf (.slot k) = t.prevOf (.slot k) := by
    rw [huprev, if_neg (by simp)]
  have hupdate : ∀ j, u.dataOf j = t.dataOf j := by
    intro j
    rw [hudata]
    split
    · rename_i hj
      rw [hj, dataOf_entry hentry]
    · rfl
  have huvalid : u.Valid (u.prevOf (.slot k)) := by
    rw [huk, hprev, valid_congr hupdate, valid_of_dataOf (by rw [hget]; rfl) hdata]
    exact hvalid
  obtain ⟨v, hlast, hlinked, hv⟩ := linkLast_ok huvalid
    ((hunext _).trans (if_pos rfl)) (((huprev _).trans (if_pos rfl)).trans huk.symm)
  rw [huk] at hlast
  refine ⟨_, ?_, hlinked.of_eq ?_ ?_ (hucurrent.trans hcurrent), ?_⟩
  · rw [rescheduleInternal]
    refine bind_of_ok hpark ?_
    refine bind_of_ok hmodify ?_
    exact bind_of_ok hlast rfl
  · intro y hy
    rw [hunext, if_neg hy, hnext]
  · intro y hy
    rw [huprev, if_neg hy, hprev]
  · intro j
    rw [hv, hupdate, hdata]

theorem rescheduleInternal_panics (s : Inner τ) {now : Instant} {dur : Duration} (id : Nat)
    (hfits : ¬ (mask < roundToSecs dur → Fits now dur)) :
    s.rescheduleInternal now dur none id = .error .panic := by
  obtain ⟨hmask, hover⟩ := Classical.not_imp.mp hfits
  rw [rescheduleInternal, park, if_pos hmask, addDuration_panics hover]
  rfl

theorem reschedule_eq (now : Instant) (dur : Duration) {entry : Entry τ}
    (hget : s.entries.get id = some entry) (hprev : s.Valid entry.prev)
    (hnext : s.Valid entry.next) :
    ∃ t, s.reschedule now dur id = t.rescheduleInternal now dur none id ∧
      Unlinked s t id ∧ ∀ j, t.dataOf j = s.dataOf j := by
  obtain ⟨t, hsetNext, htnext, htprev, htdata, htcurrent⟩ := setNext_ok hprev entry.next
  obtain ⟨u, hsetPrev, huprev, hunext, hudata, hucurrent⟩ :=
    setPrev_ok ((valid_congr htdata _).mpr hnext) entry.prev
  refine ⟨u, ?_, ⟨?_, ?_, hucurrent.trans htcurrent⟩, ?_⟩
  · rw [reschedule]
    refine bind_of_ok (getEntry_ok hget) ?_
    refine bind_of_ok hsetNext ?_
    exact bind_of_ok hsetPrev rfl
  · intro y _
    rw [hunext, htnext, nextOf_entry hget, prevOf_entry hget]
  · intro y _
    rw [huprev, htprev, nextOf_entry hget, prevOf_entry hget]
  · intro j
    rw [hudata, htdata]

theorem reschedule_ne_ok (s : Inner τ) {now : Instant} {dur : Duration} (id : Nat)
    (hfits : ¬ (mask < roundToSecs dur → Fits now dur)) {s' : Inner τ} :
    s.reschedule now dur id ≠ .ok s' := by
  intro h
  obtain ⟨entry, -, h⟩ := ok_of_bind_ok h
  obtain ⟨t, -, h⟩ := ok_of_bind_ok h
  obtain ⟨u, -, h⟩ := ok_of_bind_ok h
  rw [u.rescheduleInternal_panics id hfits] at h
  cases h

theorem links_of_remove (hslots : s'.slots = s.slots)
    (hget : ∀ j, s'.entries.get j = if j = id then none else s.entries.get j) :
    (∀ z, s'.nextOf z = if z = .entry id then .nil else s.nextOf z) ∧
      (∀ z, s'.prevOf z = if z = .entry id then .nil else s.prevOf z) ∧
      ∀ j, s'.dataOf j = if j = id then none else s.dataOf j := by
  refine ⟨?_, ?_, ?_⟩
  · rintro (j | i | -)
    · simp only [nextOf, hget, Token.entry.injEq]
      split <;> rfl
    · simp [nextOf, hslots]
    · simp [nextOf]
  · rintro (j | i | -)
    · simp only [prevOf, hget, Token.entry.injEq]
      split <;> rfl
    · simp [prevOf, hslots]
    · simp [prevOf]
  · intro j
    simp only [dataOf, hget]
    split <;> rfl

theorem cancel_ok {entry : Entry τ} (hget : s.entries.get id = some entry)
    (hprev : s.Valid entry.prev) (hnext : s.Valid entry.next) (hpne : entry.prev ≠ .entry id)
    (hnne : entry.next ≠ .entry id) :
    ∃ s', s.cancel id = .ok s' ∧ Unlinked s s' id ∧
      s'.nextOf (.entry id) = .nil ∧ s'.prevOf (.entry id) = .nil ∧
      ∀ j, s'.dataOf j = if j = id then none else s.dataOf j := by
  let t : Inner τ := { s with entries := (s.entries.remove id).2 }
  obtain ⟨htnext, htprev, htdata⟩ :=
    @links_of_remove τ s t id rfl (Slab.get_remove s.entries id)
  have hvalid : ∀ y, y ≠ .entry id → s.Valid y → t.Valid y := by
    rintro (j | i | -) hne hy
    · have hj : j ≠ id := by simpa using hne
      simpa only [Valid, htdata, if_neg hj] using hy
    · trivial
    · exact hy
  obtain ⟨u, hsetNext, hunext, huprev, hudata, hucurrent⟩ :=
    setNext_ok (hvalid _ hpne hprev) entry.next
  obtain ⟨v, hsetPrev, hvprev, hvnext, hvdata, hvcurrent⟩ :=
    setPrev_ok ((valid_congr hudata _).mpr (hvalid _ hnne hnext)) entry.prev
  have hnil : entry.prev ≠ .nil := by
    intro h
    rw [h] at hprev
    exact hprev
  have hremove : s.entries.remove id = (some entry, t.entries) :=
    Prod.ext ((Slab.remove_fst _ _).trans hget) rfl
  refine ⟨v, ?_, ⟨?_, ?_, hvcurrent.trans hucurrent⟩, ?_, ?_, ?_⟩
  · rw [cancel, hremove]
    simp only [if_neg hnil]
    refine bind_of_ok hsetNext ?_
    exact hsetPrev
  · intro y hy
    rw [hvnext, hunext, htnext, if_neg hy, nextOf_entry hget, prevOf_entry hget]
  · intro y hy
    rw [hvprev, huprev, htprev, if_neg hy, nextOf_entry hget, prevOf_entry hget]
  · rw [hvnext, hunext, if_neg (Ne.symm hpne), htnext, if_pos rfl]
  · rw [hvprev, if_neg (Ne.symm hnne), huprev, htprev, if_pos rfl]
  · intro j
    rw [hvdata, hudata, htdata]

theorem cancel_expired {entry : Entry τ} (hget : s.entries.get id = some entry)
    (hprev : entry.prev = .nil) :
    ∃ s', s.cancel id = .ok s' ∧ s'.currentSlot = s.currentSlot ∧
      (∀ z, s'.nextOf z = if z = .entry id then .nil else s.nextOf z) ∧
      (∀ z, s'.prevOf z = if z = .entry id then .nil else s.prevOf z) ∧
      ∀ j, s'.dataOf j = if j = id then none else s.dataOf j := by
  let t : Inner τ := { s with entries := (s.entries.remove id).2 }
  have hremove : s.entries.remove id = (some entry, t.entries) :=
    Prod.ext ((Slab.remove_fst _ _).trans hget) rfl
  refine ⟨t, ?_, rfl, @links_of_remove τ s t id rfl (Slab.get_remove s.entries id)⟩
  rw [cancel, hremove]
  exact if_pos hprev

theorem detach_ok {entry : Entry τ} (hget : s.entries.get id = some entry) :
    ∃ s', s.detach id = .ok (entry.next, entry.expiration, entry.task, s') ∧
      s'.currentSlot = s.currentSlot ∧
      (∀ z, s'.nextOf z = if z = .entry id then .nil else s.nextOf z) ∧
      (∀ z, s'.prevOf z = if z = .entry id then .nil else s.prevOf z) ∧
      ∀ j, s'.dataOf j = if j = id then some (entry.task, none) else s.dataOf j := by
  obtain ⟨s', hok, hcurrent, hnext, hprev, hdata⟩ := modifyEntry_ok hget
    fun entry => { entry with prev := .nil, next := .nil, expiration := none }
  refine ⟨s', ?_, hcurrent, hnext, hprev, hdata⟩
  rw [detach]
  refine bind_of_ok (getEntry_ok hget) ?_
  exact bind_of_ok hok rfl

/-- The two writes of `closeSlot`. -/
def joinSlots (s : Inner τ) (current next : Fin numOfSlots) : Inner τ :=
  (s.modifySlot current fun slot => { slot with next := .slot next }).modifySlot next
    fun slot => { slot with prev := .slot s.currentSlot }

theorem nextOf_closeSlot (s : Inner τ) (current next : Fin numOfSlots) (z : Token) :
    (s.closeSlot current next).nextOf z =
      if z = .slot current then .slot next else s.nextOf z := by
  have h : (s.closeSlot current next).nextOf z = (s.joinSlots current next).nextOf z := by
    rcases z with id | i | - <;> rfl
  rw [h, joinSlots, nextOf_modifySlot]
  split
  · rename_i hz
    rw [hz]
    exact nextOf_modifySlot s current _ (.slot next)
  · rw [nextOf_modifySlot]

theorem prevOf_closeSlot (s : Inner τ) (current next : Fin numOfSlots) (z : Token) :
    (s.closeSlot current next).prevOf z =
      if z = .slot next then .slot s.currentSlot else s.prevOf z := by
  have h : (s.closeSlot current next).prevOf z = (s.joinSlots current next).prevOf z := by
    rcases z with id | i | - <;> rfl
  rw [h, joinSlots, prevOf_modifySlot]
  split
  · rfl
  · rw [prevOf_modifySlot]
    split
    · rename_i hz
      rw [hz, prevOf]
    · rfl

end Inner

end Ruyi.Reactor.Wheel
