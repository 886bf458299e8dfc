import Ruyi.Reactor.LoopTasks

namespace Ruyi

/-- The elements of `s` are those of `base`, and those of `added` at other indices. -/
structure Slab.Added {α : Type} (base : Slab α) (added : List (Nat × α)) (s : Slab α) : Prop where
  keys : (added.map Prod.fst).Nodup
  fresh : ∀ i a, (i, a) ∈ added → base.get i = none
  get : ∀ i a, s.get i = some a ↔ base.get i = some a ∨ (i, a) ∈ added

namespace Slab.Added

variable {α : Type} {base s s' : Slab α} {added added' : List (Nat × α)} {i : Nat} {a : α}

theorem refl (s : Slab α) : s.Added [] s :=
  ⟨List.nodup_nil, fun _ _ h => absurd h List.not_mem_nil, fun _ _ => by simp⟩

theorem insert (h : base.Added added s) (hfresh : s.get i = none)
    (hget : ∀ j, s'.get j = if j = i then some a else s.get j) :
    base.Added ((i, a) :: added) s' := by
  have hbase : base.get i = none := by
    by_contra hne
    obtain ⟨b, hb⟩ := Option.ne_none_iff_exists'.mp hne
    rw [(h.get i b).mpr (.inl hb)] at hfresh
    cases hfresh
  have hkey : i ∉ added.map Prod.fst := by
    intro hmem
    obtain ⟨⟨j, b⟩, hb, rfl⟩ := List.mem_map.mp hmem
    rw [(h.get j b).mpr (.inr hb)] at hfresh
    cases hfresh
  refine ⟨List.nodup_cons.mpr ⟨hkey, h.keys⟩, ?_, ?_⟩
  · intro j b hb
    rcases List.mem_cons.mp hb with heq | hb
    · cases heq
      exact hbase
    · exact h.fresh j b hb
  · intro j b
    rw [hget, List.mem_cons, Prod.mk.injEq]
    split
    · rename_i hj
      subst hj
      constructor
      · intro heq
        exact .inr (.inl ⟨rfl, (Option.some.inj heq).symm⟩)
      · rintro (hb | ⟨-, rfl⟩ | hb)
        · rw [hbase] at hb
          cases hb
        · rfl
        · exact absurd (List.mem_map_of_mem hb) hkey
    · rename_i hj
      rw [h.get]
      simp [hj]

theorem perm (h : base.Added added s) (hperm : added.Perm added') : base.Added added' s where
  keys := (hperm.map Prod.fst).nodup_iff.mp h.keys
  fresh i a hmem := h.fresh i a (hperm.mem_iff.mpr hmem)
  get i a := (h.get i a).trans (or_congr_right hperm.mem_iff)

theorem remove (h : base.Added ((i, a) :: added) s) : base.Added added (s.remove i).2 := by
  have hkeys := List.nodup_cons.mp h.keys
  refine ⟨hkeys.2, fun j b hb => h.fresh j b (List.mem_cons_of_mem _ hb), ?_⟩
  intro j b
  rw [Slab.get_remove]
  split
  · rename_i hj
    subst hj
    constructor
    · intro hb
      cases hb
    · rintro (hb | hb)
      · rw [h.fresh j a List.mem_cons_self] at hb
        cases hb
      · exact absurd (List.mem_map_of_mem hb) hkeys.1
  · rename_i hj
    rw [h.get, List.mem_cons, Prod.mk.injEq]
    simp [hj]

end Slab.Added

namespace Reactor

/-- What the calls of `spawn` have done: the ids and the serial numbers of the tasks they have
added, and those whose first poll has returned `NotReady`, with their ids. -/
structure Spawns where
  spawned : List (Nat × Nat)
  pending : List (Nat × Task)

namespace Spawns

def init : Spawns := ⟨[], []⟩

def record (s : EventLoop) (a : LoopAction) (_ : LoopEvent) (h : Spawns) : Spawns :=
  match s.control, a with
  | .code _, .spawn =>
      { h with spawned := ((s.tasks.insert (.user s.spawned)).1, s.spawned) :: h.spawned }
  | .code (.spawned i serial _), .finish false =>
      { h with pending := (i, .user serial) :: h.pending }
  | .code _, .sleep now _ =>
      match s.held.wheel with
      | none =>
          ⟨((s.newTicker now).1, s.spawned) :: h.spawned, s.newTicker now :: h.pending⟩
      | some _ => h
  | _, _ => h

theorem record_of_ne {s : EventLoop} {a : LoopAction} {e : LoopEvent} {h : Spawns}
    (hspawn : a ≠ .spawn) (hfinish : a ≠ .finish false) (hsleep : ∀ now dur, a ≠ .sleep now dur) :
    h.record s a e = h := by
  unfold record
  split
  · exact absurd rfl hspawn
  · exact absurd rfl hfinish
  · exact absurd rfl (hsleep _ _)
  · rfl

end Spawns

/-- The code of tasks that `c` has spawned, directly or not, on the stack above `c`; `polled`
lists those that have not completed. -/
inductive Code.Above (spawned : List (Nat × Nat)) (c : Code) : Code → List (Nat × Nat) → Prop where
  | caller : Above spawned c c []
  | spawned {i serial : Nat} {below : Code} {polled : List (Nat × Nat)}
      (hmem : (i, serial) ∈ spawned) (h : Above spawned c below polled) :
      Above spawned c (.spawned i serial below) ((i, serial) :: polled)
  | dropped {i serial : Nat} {below : Code} {polled : List (Nat × Nat)}
      (hmem : (i, serial) ∈ spawned) (h : Above spawned c below polled) :
      Above spawned c (.spawnedDropped i serial below) polled

namespace Code.Above

variable {spawned spawned' : List (Nat × Nat)} {c d : Code} {polled : List (Nat × Nat)}

theorem mono (h : Above spawned c d polled) (hsub : spawned ⊆ spawned') :
    Above spawned' c d polled := by
  induction h with
  | caller => exact .caller
  | spawned hmem _ ih => exact .spawned (hsub hmem) ih
  | dropped hmem _ ih => exact .dropped (hsub hmem) ih

theorem sizeOf_le (h : Above spawned c d polled) : sizeOf c ≤ sizeOf d := by
  induction h with
  | caller => exact Nat.le_refl _
  | spawned _ _ ih | dropped _ _ ih =>
      refine Nat.le_trans ih ?_
      simp

theorem polled_of_caller (h : Above spawned c c polled) : polled = [] := by
  cases h with
  | caller => rfl
  | spawned hmem h | dropped hmem h =>
      have hle := h.sizeOf_le
      simp at hle

theorem who (h : Above spawned c d polled) (hne : d ≠ c) :
    ∃ i serial, d.current = some i ∧ d.who = some serial ∧ (i, serial) ∈ spawned := by
  cases h with
  | caller => exact absurd rfl hne
  | spawned hmem _ => exact ⟨_, _, rfl, rfl, hmem⟩
  | dropped hmem _ => exact ⟨_, _, rfl, rfl, hmem⟩

end Code.Above

namespace EventLoop

/-- `Wheel::init`, with the first half of its call of `spawn`. -/
def spawnTicker (s : EventLoop) (now : Instant) : EventLoop :=
  let inserted := s.tasks.insert (.ticker s.spawned (.unscheduled (now + fromSecs 1) (fromSecs 1)))
  { s with
    tasks := inserted.2
    currentTask := some inserted.1
    spawnStack := s.currentTask :: s.spawnStack
    held := { s.held with wheel := some Wheel.Inner.new }
    spawned := s.spawned + 1
    wheelRun := some s.runs }

/-- The first poll of a ticker. -/
def pollTicker (s : EventLoop) (i serial : Nat) : EventLoop :=
  match s.tasks.get i with
  | some (.ticker _ (.unscheduled due period)) =>
      let added := s.held.queue.addPeriodic due period ⟨s.currentTask, some serial⟩
      (s.setTicker i serial (.scheduled added.1)).setQueue added.2
  | _ => s

theorem initWheel_eq {s : EventLoop} {c : Code} (hcontrol : s.control = .code c) (now : Instant) :
    ((s.spawnTicker now).pollTicker (s.newTicker now).1 s.spawned).unspawn c =
      .ok (s.initWheel now) := by
  have hget : (s.spawnTicker now).tasks.get (s.newTicker now).1 =
      some (.ticker s.spawned (.unscheduled (now + fromSecs 1) (fromSecs 1))) :=
    (Slab.get_insert _ _ _).trans (if_pos rfl)
  rw [pollTicker, hget, initWheel, hcontrol]
  rfl

end EventLoop

variable {s₀ s s' : EventLoop} {c d : Code} {polled : List (Nat × Nat)} {h : Spawns}

open EventLoop

/-- Serial numbers below `n`, each of one task. -/
def Numbered (n : Nat) (spawned : List (Nat × Nat)) : Prop :=
  (∀ p ∈ spawned, p.2 < n) ∧ (spawned.map Prod.snd).Nodup

theorem Numbered.cons {n : Nat} {spawned : List (Nat × Nat)} (h : Numbered n spawned) (i : Nat) :
    Numbered (n + 1) ((i, n) :: spawned) := by
  obtain ⟨hlt, hnodup⟩ := h
  constructor
  · intro p hp
    rcases List.mem_cons.mp hp with rfl | hp
    · exact Nat.lt_succ_self n
    · exact Nat.lt_succ_of_lt (hlt p hp)
  · refine List.nodup_cons.mpr ⟨fun hmem => ?_, hnodup⟩
    obtain ⟨p, hp, heq⟩ := List.mem_map.mp hmem
    exact absurd heq (Nat.ne_of_lt (hlt p hp))

/-- The tasks recorded since `s₀` are tasks that have been spawned, each under its own id. -/
def Attributed (s₀ s : EventLoop) (spawned : List (Nat × Nat)) : Prop :=
  ∀ w ∈ s.held.waiters,
    w ∈ s₀.held.waiters ∨ ∃ i serial, w = ⟨some i, some serial⟩ ∧ (i, serial) ∈ spawned

theorem Attributed.cons {spawned : List (Nat × Nat)} (h : Attributed s₀ s spawned)
    (p : Nat × Nat) : Attributed s₀ s (p :: spawned) := by
  intro w hw
  refine (h w hw).imp_right ?_
  rintro ⟨i, serial, rfl, hmem⟩
  exact ⟨i, serial, rfl, List.mem_cons_of_mem _ hmem⟩

/-- The invariant of a call of `spawn` made by the code `c`, while `d` is being run. -/
structure Spawning (s₀ : EventLoop) (c : Code) (s : EventLoop) (h : Spawns) (d : Code)
    (polled : List (Nat × Nat)) : Prop where
  control : s.control = .code d
  above : Code.Above h.spawned c d polled
  tasks : s₀.tasks.Added (polled.map (fun p => (p.1, .user p.2)) ++ h.pending) s.tasks
  attributed : Attributed s₀ s h.spawned
  numbered : Numbered s.spawned h.spawned

namespace Spawning

theorem start (hcontrol : s₀.control = .code c) : Spawning s₀ c s₀ .init c [] where
  control := hcontrol
  above := .caller
  tasks := .refl _
  attributed _ hw := .inl hw
  numbered := ⟨fun _ hp => absurd hp List.not_mem_nil, List.nodup_nil⟩

theorem of_spawn (hs : Spawning s₀ c s h d polled) {e : LoopEvent} :
    ∃ d' polled', Spawning s₀ c (s.spawn d) (h.record s .spawn e) d' polled' := by
  have hrecord : h.record s .spawn e =
      { h with spawned := ((s.tasks.insert (.user s.spawned)).1, s.spawned) :: h.spawned } := by
    simp only [Spawns.record, hs.control]
  rw [hrecord]
  exact ⟨_, _, rfl, .spawned List.mem_cons_self (hs.above.mono (List.subset_cons_self _ _)),
    hs.tasks.insert (Slab.get_insert_fst _ _) (Slab.get_insert _ _), hs.attributed.cons _,
    hs.numbered.cons _⟩

theorem of_held (hs : Spawning s₀ c s h d polled) (hshape : Shape s) (hne : d ≠ c) {held : Held}
    (hsub : held.waiters ⊆ ⟨s.currentTask, d.who⟩ :: s.held.waiters) :
    Spawning s₀ c { s with held := held } h d polled := by
  refine ⟨hs.control, hs.above, hs.tasks, ?_, hs.numbered⟩
  intro w hw
  rcases List.mem_cons.mp (hsub hw) with rfl | hw
  · obtain ⟨i, serial, hcurrent, hwho, hmem⟩ := hs.above.who hne
    rw [Shape, hs.control] at hshape
    exact .inr ⟨i, serial, by rw [hshape.2.1, hcurrent, hwho], hmem⟩
  · exact hs.attributed w hw

theorem of_initWheel (hs : Spawning s₀ c s h d polled) (now : Instant) :
    Spawning s₀ c (s.initWheel now)
      ⟨((s.newTicker now).1, s.spawned) :: h.spawned, s.newTicker now :: h.pending⟩ d polled := by
  refine ⟨hs.control, hs.above.mono (List.subset_cons_self _ _), ?_, ?_, hs.numbered.cons _⟩
  · have htasks := hs.tasks.insert (s.get_newTicker now) (s.tasks_initWheel now)
    exact htasks.perm List.perm_middle.symm
  · intro w hw
    rcases waiters_initWheel hw with hw | rfl
    · exact hs.attributed.cons _ w hw
    · exact .inr ⟨_, _, rfl, List.mem_cons_self⟩

theorem of_sleep (hs : Spawning s₀ c s h d polled) (hshape : Shape s) (hne : d ≠ c)
    {now : Instant} {dur : Duration} {e : LoopEvent} (hstep : s.sleep d now dur = .ok s') :
    Spawning s₀ c s' (h.record s (.sleep now dur) e) d polled := by
  obtain ⟨held, hschedule, hr⟩ := ok_of_bind_ok hstep
  cases hr
  simp only [Spawns.record, hs.control]
  cases hwheel : s.held.wheel with
  | some inner =>
      simp only [hwheel] at hschedule ⊢
      exact hs.of_held hshape hne (Held.waiters_schedule hschedule)
  | none =>
      simp only [hwheel] at hschedule ⊢
      exact (hs.of_initWheel now).of_held (shape_initWheel hs.control hshape) hne
        (Held.waiters_schedule hschedule)

theorem unspawn_eq {below : Code} (hstack : s.spawnStack = below.current :: below.saved)
    (hstep : s.unspawn below = .ok s') :
    s' = { s with
      currentTask := below.current, spawnStack := below.saved, control := .code below } := by
  rw [unspawn, hstack] at hstep
  cases hstep
  rfl

theorem of_finish (hs : Spawning s₀ c s h d polled) (hshape : Shape s) (hne : d ≠ c) {ready : Bool}
    {e : LoopEvent} (hstep : s.finish ready d = some (.ok s')) :
    ∃ d' polled', Spawning s₀ c s' (h.record s (.finish ready) e) d' polled' := by
  rw [Shape, hs.control] at hshape
  have habove := hs.above
  cases habove with
  | caller => exact absurd rfl hne
  | @dropped i serial below _ hmem habove => cases hstep
  | @spawned i serial below polled hmem habove =>
      simp only [Spawns.record, hs.control]
      cases ready with
      | true =>
          cases hstep
          exact ⟨_, _, rfl, .dropped hmem habove, hs.tasks.remove, hs.attributed, hs.numbered⟩
      | false =>
          obtain rfl := unspawn_eq hshape.2.2 (Option.some.inj hstep)
          exact ⟨_, _, rfl, habove, hs.tasks.perm List.perm_middle.symm, hs.attributed,
            hs.numbered⟩

theorem of_dropped (hs : Spawning s₀ c s h d polled) (hshape : Shape s) (hne : d ≠ c)
    {e : LoopEvent} (hstep : s.dropped d = some (.ok s')) :
    ∃ d' polled', Spawning s₀ c s' (h.record s .dropped e) d' polled' := by
  rw [Shape, hs.control] at hshape
  have habove := hs.above
  cases habove with
  | caller => exact absurd rfl hne
  | @spawned i serial below polled hmem habove => cases hstep
  | @dropped i serial below _ hmem habove =>
      obtain rfl := unspawn_eq hshape.2.2 (Option.some.inj hstep)
      rw [Spawns.record_of_ne (by simp) (by simp) (by simp)]
      exact ⟨_, _, rfl, habove, hs.tasks, hs.attributed, hs.numbered⟩

theorem step_ok (hs : Spawning s₀ c s h d polled) (hshape : Shape s) (hne : d ≠ c)
    {a : LoopAction} {e : LoopEvent} (hstep : s.step a = some (.ok (e, s'))) :
    ∃ d' polled', Spawning s₀ c s' (h.record s a e) d' polled' := by
  have hcode : s.stepCode d a = some (.ok s') := by
    cases steps_of_step hstep with
    | start hcontrol =>
        rw [hs.control] at hcontrol
        obtain ⟨_, _, hcurrent, -⟩ := hs.above.who hne
        cases hcontrol
        cases hcurrent
    | code hcontrol hstep =>
        rw [hs.control] at hcontrol
        cases hcontrol
        exact hstep
    | runTask hcontrol _ | ticker hcontrol _ | visit hcontrol _ | loop hcontrol _
    | cleared hcontrol _ =>
        rw [hs.control] at hcontrol
        cases hcontrol
  unfold stepCode at hcode
  split at hcode
  · obtain ⟨r, hcall, hr⟩ := Option.map_eq_some_iff.mp hcode
    obtain ⟨held, rfl, rfl⟩ := ok_of_map_ok hr
    refine ⟨d, polled, ?_⟩
    rw [Spawns.record_of_ne (by simp) (by simp) (by simp)]
    exact hs.of_held hshape hne (Held.waiters_call hcall)
  · exact ⟨d, polled, hs.of_sleep hshape hne (Option.some.inj hcode)⟩
  · cases hcode
    refine ⟨d, polled, ?_⟩
    rw [Spawns.record_of_ne (by simp) (by simp) (by simp), enterGate]
    split <;> exact ⟨hs.control, hs.above, hs.tasks, hs.attributed, hs.numbered⟩
  · obtain ⟨-, rfl⟩ := leaveGate_ok hcode
    refine ⟨d, polled, ?_⟩
    rw [Spawns.record_of_ne (by simp) (by simp) (by simp)]
    exact ⟨hs.control, hs.above, hs.tasks, hs.attributed, hs.numbered⟩
  · cases hcode
    exact hs.of_spawn
  · exact hs.of_finish hshape hne hcode
  · exact hs.of_dropped hshape hne hcode
  · cases hcode

theorem returned (hs : Spawning s₀ c s h d polled) (hshape₀ : Shape s₀) (hshape : Shape s)
    (hcontrol₀ : s₀.control = .code c) (hcontrol : s.control = .code c) :
    s.currentTask = s₀.currentTask ∧ s.spawnStack = s₀.spawnStack ∧
      s₀.tasks.Added h.pending s.tasks := by
  have habove := hs.above
  have hd := hs.control
  rw [hcontrol] at hd
  cases hd
  obtain rfl := habove.polled_of_caller
  rw [Shape, hcontrol₀] at hshape₀
  rw [Shape, hcontrol] at hshape
  exact ⟨hshape.2.1.trans hshape₀.2.1.symm, hshape.2.2.trans hshape₀.2.2.symm, hs.tasks⟩

end Spawning

end Reactor

end Ruyi
