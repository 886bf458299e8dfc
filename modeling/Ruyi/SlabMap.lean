import Ruyi.Base.Machine
import Ruyi.Outcome
import Ruyi.Slab

namespace Ruyi

/-- The fields of a slab, with nothing said of them. -/
structure Slots (α : Type) where
  objs : List (Object α)
  len : Nat
  hfree : Option Nat

namespace Object

variable {α : Type}

def uncheckedNextFree : Object α → Except Fault (Option Nat)
  | .free next => .ok next
  | .used _ => .error .unreachable

end Object

namespace Slots

variable {α : Type}

def new : Slots α := ⟨[], 0, none⟩

def clear (s : Slots α) : Slots α := if 0 < s.len then new else s

/-- `get_unchecked_mut` of the vector, at the head of the free list. -/
def insert (s : Slots α) (elem : α) : Except Fault (Nat × Slots α) :=
  match s.hfree with
  | some i =>
      match s.objs[i]? with
      | none => .error .freed
      | some obj => do
          let next ← obj.uncheckedNextFree
          .ok (i, ⟨s.objs.set i (.used elem), s.len + 1, next⟩)
  | none => .ok (s.objs.length, ⟨s.objs ++ [.used elem], s.len + 1, none⟩)

def remove (s : Slots α) (i : Nat) : Option α × Slots α :=
  match s.objs[i]? with
  | some (.used elem) => (some elem, ⟨s.objs.set i (.free s.hfree), s.len - 1, some i⟩)
  | _ => (none, s)

def get (s : Slots α) (i : Nat) : Option α :=
  match s.objs[i]? with
  | some (.used elem) => some elem
  | _ => none

/-- `get_mut`, and what is then written through the reference. -/
def getMut (s : Slots α) (i : Nat) (f : α → α) : Option α × Slots α :=
  match s.objs[i]? with
  | some (.used elem) => (some elem, { s with objs := s.objs.set i (.used (f elem)) })
  | _ => (none, s)

end Slots

inductive SlabCall (α : Type) where
  | insert (elem : α)
  | remove (i : Nat)
  | get (i : Nat)
  | getMut (i : Nat) (f : α → α)
  | clear

inductive SlabAnswer (α : Type) where
  | index (i : Nat)
  | elem (elem : Option α)
  | unit

namespace Slots

variable {α : Type}

def call (s : Slots α) : SlabCall α → Except Fault (SlabAnswer α × Slots α)
  | .insert elem => (s.insert elem).map fun r => (.index r.1, r.2)
  | .remove i => .ok (.elem (s.remove i).1, (s.remove i).2)
  | .get i => .ok (.elem (s.get i), s)
  | .getMut i f => .ok (.elem (s.getMut i f).1, (s.getMut i f).2)
  | .clear => .ok (.unit, s.clear)

end Slots

/-- The calls of a slab, logged with their answers. -/
def slabMachine (α : Type) :
    Base.Machine (Slots α) (SlabCall α) (SlabCall α × SlabAnswer α) Fault :=
  ⟨fun s c => some ((s.call c).map fun r => ((c, r.1), r.2))⟩

/-- A map of indices, as a call and its answer change it. -/
def Holds.after {α : Type} (m : Nat → Option α) : SlabCall α × SlabAnswer α → Nat → Option α
  | (.insert elem, .index i) => Function.update m i (some elem)
  | (.remove i, _) => Function.update m i none
  | (.getMut i f, _) => Function.update m i ((m i).map f)
  | (.clear, _) => fun _ => none
  | _ => m

/-- What a log says is held at every index: the last element inserted there, as it was
written to since, unless it has been removed. -/
def Holds {α : Type} (log : List (SlabCall α × SlabAnswer α)) : Nat → Option α :=
  log.foldl Holds.after fun _ => none

theorem holds_append {α : Type} (log : List (SlabCall α × SlabAnswer α))
    (e : SlabCall α × SlabAnswer α) : Holds (log ++ [e]) = Holds.after (Holds log) e := by
  rw [Holds, List.foldl_append]
  rfl

namespace Slab

variable {α : Type}

def slots (s : Slab α) : Slots α := ⟨s.objs, s.len, s.hfree⟩

theorem slots_insert (s : Slab α) (elem : α) :
    s.slots.insert elem = .ok ((s.insert elem).1, (s.insert elem).2.slots) := by
  rw [insert]
  split
  · rename_i i h
    have hnext := (s.nextFree i h).2
    simp only [Slots.insert, slots, h, hnext, Object.uncheckedNextFree]
    rfl
  · rename_i h
    simp only [Slots.insert, slots, h]

theorem slots_remove (s : Slab α) (i : Nat) :
    s.slots.remove i = ((s.remove i).1, (s.remove i).2.slots) := by
  rw [remove]
  split
  · rename_i elem h
    simp only [Slots.remove, slots, h]
  · rename_i h
    simp only [Slots.remove, slots]

theorem slots_getMut (s : Slab α) (i : Nat) (f : α → α) :
    s.slots.getMut i f = (s.get i, (s.modify i f).slots) := by
  rw [modify]
  split
  · rename_i elem h
    simp only [Slots.getMut, slots, get, h]
  · rename_i h
    rw [get_eq_none h]
    simp only [Slots.getMut, slots]

theorem slots_clear (s : Slab α) : s.slots.clear = s.clear.slots := by
  have hlen : s.slots.len = s.len := rfl
  rw [Slots.clear, clear, hlen]
  split <;> rfl

theorem exists_free_list (s : Slab α) :
    ∃ chain, FreeChain s.objs s.hfree chain ∧ chain.Nodup ∧
      ∀ i, i ∈ chain ↔ ∃ next, s.objs[i]? = some (.free next) := by
  obtain ⟨chain, hchain, hnodup, hall⟩ := s.free_list
  refine ⟨chain, hchain, hnodup, fun i => ⟨hchain.free, ?_⟩⟩
  rintro ⟨next, hnext⟩
  exact hall i next hnext

theorem call_refines {m : Nat → Option α} (s : Slab α) (hm : s.get = m) (c : SlabCall α) :
    ∃ answer, ∃ t : Slab α, s.slots.call c = .ok (answer, t.slots) ∧
      t.get = Holds.after m (c, answer) := by
  subst hm
  cases c with
  | insert elem =>
      refine ⟨.index (s.insert elem).1, (s.insert elem).2, ?_, ?_⟩
      · rw [Slots.call, slots_insert]
        rfl
      · funext j
        rw [get_insert, Holds.after, Function.update_apply]
  | remove i =>
      refine ⟨.elem (s.remove i).1, (s.remove i).2, ?_, ?_⟩
      · rw [Slots.call, slots_remove]
      · funext j
        rw [get_remove, Holds.after, Function.update_apply]
  | get i => exact ⟨.elem (s.get i), s, rfl, rfl⟩
  | getMut i f =>
      refine ⟨.elem (s.get i), s.modify i f, ?_, ?_⟩
      · rw [Slots.call, slots_getMut]
      · funext j
        rw [get_modify, Holds.after, Function.update_apply]
  | clear =>
      refine ⟨.unit, s.clear, ?_, ?_⟩
      · rw [Slots.call, slots_clear]
      · funext j
        rw [get_clear, Holds.after]

end Slab

theorem slots_of_run {α : Type} {log : List (SlabCall α × SlabAnswer α)} {s : Slots α}
    (h : (slabMachine α).Run (fun _ _ => True) .new log s) :
    ∃ t : Slab α, t.slots = s ∧ t.get = Holds log := by
  refine h.invariant (I := fun log s => ∃ t : Slab α, t.slots = s ∧ t.get = Holds log) ?_ ?_
  · exact ⟨Slab.empty, rfl, funext Slab.get_empty⟩
  · rintro log _ c e u ⟨t, rfl, hget⟩ _ hstep
    obtain ⟨answer, t', hcall, hget'⟩ := t.call_refines hget c
    obtain ⟨r, hr, heq⟩ := ok_of_map_ok (Option.some.inj hstep)
    rw [hcall] at hr
    cases hr
    cases heq
    exact ⟨t', rfl, hget'.trans (holds_append log _).symm⟩

/-- A slab is a finite map with fresh keys. -/
theorem slab_is_finite_map {α : Type} {log : List (SlabCall α × SlabAnswer α)} {s : Slots α}
    (h : (slabMachine α).Run (fun _ _ => True) .new log s) :
    (∃ chain, FreeChain s.objs s.hfree chain ∧ chain.Nodup ∧
      ∀ i, i ∈ chain ↔ ∃ next, s.objs[i]? = some (.free next)) ∧
    s.len = s.objs.countP Object.isUsed ∧
    (∀ elem, ∃ i t, s.insert elem = .ok (i, t) ∧ s.get i = none ∧ t.get i = some elem ∧
      ∀ j, j ≠ i → t.get j = s.get j) ∧
    (∀ i, s.get i = Holds log i ∧ ∀ f, (s.getMut i f).1 = Holds log i) ∧
    (∀ i, (s.remove i).1 = Holds log i ∧ (s.remove i).2.get i = none ∧
      (Holds log i = none → (s.remove i).2 = s)) := by
  obtain ⟨t, rfl, hget⟩ := slots_of_run h
  refine ⟨t.exists_free_list, t.len_eq, ?_, ?_, ?_⟩
  · intro elem
    refine ⟨_, _, t.slots_insert elem, t.get_insert_fst elem, ?_, ?_⟩
    · exact (t.get_insert elem _).trans (if_pos rfl)
    · exact fun j hne => (t.get_insert elem j).trans (if_neg hne)
  · intro i
    refine ⟨congrFun hget i, fun f => ?_⟩
    rw [t.slots_getMut, congrFun hget i]
  · intro i
    rw [t.slots_remove]
    refine ⟨(t.remove_fst i).trans (congrFun hget i), ?_, ?_⟩
    · exact (t.get_remove i i).trans (if_pos rfl)
    · intro hnone
      rw [← congrFun hget i] at hnone
      rw [Slab.remove]
      split
      · rename_i elem hobj
        rw [Slab.get_eq_some.mpr hobj] at hnone
        cases hnone
      · rfl

theorem slab_is_finite_map_of_reuse :
    ∃ (log : List (SlabCall Nat × SlabAnswer Nat)) (s : Slots Nat),
      (slabMachine Nat).Run (fun _ _ => True) .new log s ∧ s.len = 2 ∧
        (s.remove 0).1 = some 30 ∧ ∀ i, s.get i = Holds log i := by
  let calls : List (SlabCall Nat) := [.insert 10, .insert 20, .remove 0, .insert 30, .remove 7]
  have hend : ((slabMachine Nat).exec (fun _ _ => True) calls .new).map
      (fun r => (r.2.len, (r.2.remove 0).1)) = some (2, some 30) := by
    decide +kernel
  obtain ⟨⟨log, s⟩, hexec, heq⟩ := Option.map_eq_some_iff.mp hend
  obtain ⟨hlen, hremove⟩ := Prod.mk.inj heq
  have hrun := Base.Machine.Run.of_exec calls hexec
  exact ⟨log, s, hrun, hlen, hremove, fun i => ((slab_is_finite_map hrun).2.2.2.1 i).1⟩

end Ruyi
