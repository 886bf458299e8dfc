import Mathlib

namespace Ruyi

/-- `slab::Object`; `none` as the next free index is `INVALID_INDEX`, which is
no index of a vector. -/
inductive Object (α : Type) where
  | free (next : Option Nat)
  | used (elem : α)
  deriving DecidableEq

namespace Object

variable {α : Type}

def isUsed : Object α → Bool
  | free _ => false
  | used _ => true

end Object

/-- `chain` lists the free objects met from `head` on. -/
def FreeChain {α : Type} (objs : List (Object α)) : Option Nat → List Nat → Prop
  | none, [] => True
  | some i, j :: chain => i = j ∧ ∃ next, objs[i]? = some (.free next) ∧ FreeChain objs next chain
  | _, _ => False

/-- A slab.  The free list starting at `hfree` visits every free object once,
and `len` counts the used ones. -/
structure Slab (α : Type) where
  objs : List (Object α)
  len : Nat
  hfree : Option Nat
  free_list : ∃ chain, FreeChain objs hfree chain ∧ chain.Nodup ∧
    ∀ i next, objs[i]? = some (.free next) → i ∈ chain
  len_eq : len = objs.countP Object.isUsed

section Chain

variable {α : Type} {objs : List (Object α)}

theorem FreeChain.free {head : Option Nat} {chain : List Nat} (h : FreeChain objs head chain)
    {i : Nat} (hi : i ∈ chain) : ∃ next, objs[i]? = some (.free next) := by
  induction chain generalizing head with
  | nil => cases hi
  | cons j chain ih =>
      cases head with
      | none => exact h.elim
      | some k =>
          obtain ⟨rfl, next, hk, htail⟩ := h
          rcases List.mem_cons.mp hi with rfl | hi
          · exact ⟨next, hk⟩
          · exact ih htail hi

theorem FreeChain.set {head : Option Nat} {chain : List Nat} (h : FreeChain objs head chain)
    {i : Nat} (hi : i ∉ chain) (obj : Object α) : FreeChain (objs.set i obj) head chain := by
  induction chain generalizing head with
  | nil =>
      cases head with
      | none => trivial
      | some k => exact h.elim
  | cons j chain ih =>
      cases head with
      | none => exact h.elim
      | some k =>
          obtain ⟨rfl, next, hk, htail⟩ := h
          rw [List.mem_cons, not_or] at hi
          refine ⟨rfl, next, ?_, ih htail hi.2⟩
          rw [List.getElem?_set_ne hi.1]
          exact hk

theorem FreeChain.append {head : Option Nat} {chain : List Nat} (h : FreeChain objs head chain)
    (more : List (Object α)) : FreeChain (objs ++ more) head chain := by
  induction chain generalizing head with
  | nil =>
      cases head with
      | none => trivial
      | some k => exact h.elim
  | cons j chain ih =>
      cases head with
      | none => exact h.elim
      | some k =>
          obtain ⟨rfl, next, hk, htail⟩ := h
          refine ⟨rfl, next, ?_, ih htail⟩
          obtain ⟨hlt, -⟩ := List.getElem?_eq_some_iff.mp hk
          rw [List.getElem?_append_left hlt]
          exact hk

theorem countP_set_used {i : Nat} {next : Option Nat} (h : objs[i]? = some (.free next)) (a : α) :
    (objs.set i (.used a)).countP Object.isUsed = objs.countP Object.isUsed + 1 := by
  obtain ⟨hlt, hget⟩ := List.getElem?_eq_some_iff.mp h
  rw [List.countP_set hlt]
  simp [hget, Object.isUsed]

theorem countP_set_free {i : Nat} {a : α} (h : objs[i]? = some (.used a)) (next : Option Nat) :
    (objs.set i (.free next)).countP Object.isUsed = objs.countP Object.isUsed - 1 := by
  obtain ⟨hlt, hget⟩ := List.getElem?_eq_some_iff.mp h
  rw [List.countP_set hlt]
  simp [hget, Object.isUsed]

theorem countP_set_again {i : Nat} {a : α} (h : objs[i]? = some (.used a)) (b : α) :
    (objs.set i (.used b)).countP Object.isUsed = objs.countP Object.isUsed := by
  obtain ⟨hlt, hget⟩ := List.getElem?_eq_some_iff.mp h
  have hmem : Object.used a ∈ objs := List.mem_of_getElem? h
  have hpos : 0 < objs.countP Object.isUsed := List.countP_pos_iff.mpr ⟨_, hmem, rfl⟩
  rw [List.countP_set hlt]
  simp [hget, Object.isUsed]
  omega

end Chain

namespace Slab

variable {α : Type}

def empty : Slab α where
  objs := []
  len := 0
  hfree := none
  free_list := ⟨[], trivial, List.nodup_nil, by simp⟩
  len_eq := rfl

def get (s : Slab α) (i : Nat) : Option α :=
  match s.objs[i]? with
  | some (.used a) => some a
  | _ => none

/-- The head of the free list is free, so `insert` may read it unchecked. -/
theorem head_free (s : Slab α) {i : Nat} (h : s.hfree = some i) :
    ∃ next, s.objs[i]? = some (.free next) := by
  obtain ⟨chain, hchain, -, -⟩ := s.free_list
  rw [h] at hchain
  cases chain with
  | nil => exact hchain.elim
  | cons j chain =>
      obtain ⟨rfl, next, hi, -⟩ := hchain
      exact ⟨next, hi⟩

/-- `unchecked_next_free` of the object at the head of the free list. -/
def nextFree (s : Slab α) (i : Nat) (h : s.hfree = some i) :
    { next : Option Nat // s.objs[i]? = some (.free next) } :=
  match hobj : s.objs[i]? with
  | some (.free next) => ⟨next, rfl⟩
  | some (.used _) => absurd (s.head_free h) (by simp [hobj])
  | none => absurd (s.head_free h) (by simp [hobj])

theorem free_list_pop (s : Slab α) {i : Nat} {next : Option Nat} (h : s.hfree = some i)
    (hnext : s.objs[i]? = some (.free next)) (a : α) :
    ∃ chain, FreeChain (s.objs.set i (.used a)) next chain ∧ chain.Nodup ∧
      ∀ j n, (s.objs.set i (.used a))[j]? = some (.free n) → j ∈ chain := by
  obtain ⟨chain, hchain, hnodup, hall⟩ := s.free_list
  rw [h] at hchain
  cases chain with
  | nil => exact hchain.elim
  | cons j chain =>
      obtain ⟨rfl, next', hi, htail⟩ := hchain
      rw [hnext] at hi
      cases hi
      rw [List.nodup_cons] at hnodup
      refine ⟨chain, htail.set hnodup.1 _, hnodup.2, ?_⟩
      intro j n hj
      by_cases hij : i = j
      · subst hij
        rw [List.getElem?_set_self (List.getElem?_eq_some_iff.mp hnext).1] at hj
        cases hj
      · rw [List.getElem?_set_ne hij] at hj
        exact (List.mem_cons.mp (hall j n hj)).resolve_left (Ne.symm hij)

theorem free_list_push (s : Slab α) {i : Nat} {a : α} (h : s.objs[i]? = some (.used a)) :
    ∃ chain, FreeChain (s.objs.set i (.free s.hfree)) (some i) chain ∧ chain.Nodup ∧
      ∀ j n, (s.objs.set i (.free s.hfree))[j]? = some (.free n) → j ∈ chain := by
  obtain ⟨chain, hchain, hnodup, hall⟩ := s.free_list
  have hi : i ∉ chain := by
    intro hmem
    obtain ⟨next, hnext⟩ := hchain.free hmem
    rw [h] at hnext
    cases hnext
  refine ⟨i :: chain, ⟨rfl, s.hfree, ?_, hchain.set hi _⟩, List.nodup_cons.mpr ⟨hi, hnodup⟩, ?_⟩
  · rw [List.getElem?_set_self (List.getElem?_eq_some_iff.mp h).1]
  · intro j n hj
    by_cases hij : i = j
    · exact hij ▸ List.mem_cons_self
    · rw [List.getElem?_set_ne hij] at hj
      exact List.mem_cons_of_mem _ (hall j n hj)

theorem free_list_append (s : Slab α) (h : s.hfree = none) (a : α) :
    ∃ chain, FreeChain (s.objs ++ [.used a]) none chain ∧ chain.Nodup ∧
      ∀ j n, (s.objs ++ [.used a])[j]? = some (.free n) → j ∈ chain := by
  obtain ⟨chain, hchain, hnodup, hall⟩ := s.free_list
  rw [h] at hchain
  refine ⟨chain, hchain.append _, hnodup, ?_⟩
  intro j n hj
  by_cases hlt : j < s.objs.length
  · rw [List.getElem?_append_left hlt] at hj
    exact hall j n hj
  · rw [List.getElem?_append_right (Nat.le_of_not_lt hlt)] at hj
    have hmem := List.mem_of_getElem? hj
    simp at hmem

theorem free_list_modify (s : Slab α) {i : Nat} {a : α} (h : s.objs[i]? = some (.used a)) (b : α) :
    ∃ chain, FreeChain (s.objs.set i (.used b)) s.hfree chain ∧ chain.Nodup ∧
      ∀ j n, (s.objs.set i (.used b))[j]? = some (.free n) → j ∈ chain := by
  obtain ⟨chain, hchain, hnodup, hall⟩ := s.free_list
  have hi : i ∉ chain := by
    intro hmem
    obtain ⟨next, hnext⟩ := hchain.free hmem
    rw [h] at hnext
    cases hnext
  refine ⟨chain, hchain.set hi _, hnodup, ?_⟩
  intro j n hj
  by_cases hij : i = j
  · subst hij
    rw [List.getElem?_set_self (List.getElem?_eq_some_iff.mp h).1] at hj
    cases hj
  · rw [List.getElem?_set_ne hij] at hj
    exact hall j n hj

def insert (s : Slab α) (elem : α) : Nat × Slab α :=
  match h : s.hfree with
  | some i =>
      let next := s.nextFree i h
      (i,
        { objs := s.objs.set i (.used elem)
          len := s.len + 1
          hfree := next.1
          free_list := s.free_list_pop h next.2 elem
          len_eq := by rw [countP_set_used next.2, s.len_eq] })
  | none =>
      (s.objs.length,
        { objs := s.objs ++ [.used elem]
          len := s.len + 1
          hfree := none
          free_list := s.free_list_append h elem
          len_eq := by simp [s.len_eq, Object.isUsed] })

def remove (s : Slab α) (i : Nat) : Option α × Slab α :=
  match h : s.objs[i]? with
  | some (.used elem) =>
      (some elem,
        { objs := s.objs.set i (.free s.hfree)
          len := s.len - 1
          hfree := some i
          free_list := s.free_list_push h
          len_eq := by rw [countP_set_free h, s.len_eq] })
  | _ => (none, s)

/-- Change the element at `i` through `get_mut`. -/
def modify (s : Slab α) (i : Nat) (f : α → α) : Slab α :=
  match h : s.objs[i]? with
  | some (.used elem) =>
      { objs := s.objs.set i (.used (f elem))
        len := s.len
        hfree := s.hfree
        free_list := s.free_list_modify h (f elem)
        len_eq := by rw [countP_set_again h, s.len_eq] }
  | _ => s

def clear (s : Slab α) : Slab α :=
  if 0 < s.len then empty else s

theorem get_eq_some {s : Slab α} {i : Nat} {a : α} :
    s.get i = some a ↔ s.objs[i]? = some (.used a) := by
  rw [get]
  split
  · rename_i b hb
    rw [hb]
    simp
  · rename_i h
    constructor
    · intro h'
      cases h'
    · intro h'
      exact absurd h' (h a)

/-- The elements in use, in the order of their indices. -/
def elems (s : Slab α) : List α :=
  s.objs.filterMap fun
    | .used a => some a
    | .free _ => none

theorem mem_elems {s : Slab α} {a : α} : a ∈ s.elems ↔ ∃ i, s.get i = some a := by
  rw [elems, List.mem_filterMap]
  constructor
  · rintro ⟨obj, hobj, ha⟩
    obtain ⟨i, hi⟩ := List.mem_iff_getElem?.mp hobj
    cases obj with
    | free next => cases ha
    | used b =>
        cases ha
        exact ⟨i, get_eq_some.mpr hi⟩
  · rintro ⟨i, hi⟩
    exact ⟨.used a, List.mem_of_getElem? (get_eq_some.mp hi), rfl⟩

theorem get_empty (i : Nat) : (empty : Slab α).get i = none := by
  simp [get, empty]

theorem get_insert_fst (s : Slab α) (a : α) : s.get (s.insert a).1 = none := by
  rw [insert]
  split
  · rename_i i h
    obtain ⟨next, hnext⟩ := s.head_free h
    simp [get, hnext]
  · simp [get]

theorem get_insert (s : Slab α) (a : α) (j : Nat) :
    (s.insert a).2.get j = if j = (s.insert a).1 then some a else s.get j := by
  rw [insert]
  split
  · rename_i i h
    obtain ⟨next, hnext⟩ := s.head_free h
    have hlt := (List.getElem?_eq_some_iff.mp hnext).1
    simp only
    split
    · rename_i hj
      subst hj
      simp [get, List.getElem?_set_self hlt]
    · rename_i hj
      simp [get, List.getElem?_set_ne (Ne.symm hj)]
  · simp only
    split
    · rename_i hj
      subst hj
      simp [get]
    · rename_i hj
      by_cases hlt : j < s.objs.length
      · simp [get, List.getElem?_append_left hlt]
      · have hge : s.objs.length ≤ j := Nat.le_of_not_lt hlt
        have hgt : (s.objs ++ [Object.used a]).length ≤ j := by
          simp only [List.length_append, List.length_singleton]
          omega
        simp only [get]
        rw [List.getElem?_eq_none hgt, List.getElem?_eq_none hge]

theorem get_eq_none {s : Slab α} {i : Nat} (h : ∀ a, s.objs[i]? ≠ some (.used a)) :
    s.get i = none := by
  rw [get]
  split
  · rename_i a h'
    exact absurd h' (h a)
  · rfl

theorem remove_fst (s : Slab α) (i : Nat) : (s.remove i).1 = s.get i := by
  rw [remove]
  split
  · rename_i a h
    exact (get_eq_some.mpr h).symm
  · rename_i h
    exact (get_eq_none h).symm

theorem get_remove (s : Slab α) (i j : Nat) :
    (s.remove i).2.get j = if j = i then none else s.get j := by
  rw [remove]
  split
  · rename_i a h
    have hlt := (List.getElem?_eq_some_iff.mp h).1
    split
    · rename_i hj
      subst hj
      simp [get, List.getElem?_set_self hlt]
    · rename_i hj
      simp [get, List.getElem?_set_ne (Ne.symm hj)]
  · rename_i h
    split
    · rename_i hj
      subst hj
      exact get_eq_none h
    · rfl

theorem get_modify (s : Slab α) (i : Nat) (f : α → α) (j : Nat) :
    (s.modify i f).get j = if j = i then (s.get i).map f else s.get j := by
  rw [modify]
  split
  · rename_i a h
    have hlt := (List.getElem?_eq_some_iff.mp h).1
    split
    · rename_i hj
      subst hj
      simp [get, List.getElem?_set_self hlt, h]
    · rename_i hj
      simp [get, List.getElem?_set_ne (Ne.symm hj)]
  · rename_i h
    split
    · rename_i hj
      subst hj
      rw [get_eq_none h, Option.map_none]
    · rfl

theorem get_clear (s : Slab α) (i : Nat) : s.clear.get i = none := by
  rw [clear]
  split
  · exact get_empty i
  · rename_i hlen
    cases hget : s.get i with
    | none => rfl
    | some a =>
        have hmem := List.mem_of_getElem? (get_eq_some.mp hget)
        have hpos : 0 < s.objs.countP Object.isUsed :=
          List.countP_pos_iff.mpr ⟨_, hmem, rfl⟩
        rw [← s.len_eq] at hpos
        exact absurd hpos hlen

theorem elems_insert {s : Slab α} {a b : α} (h : b ∈ (s.insert a).2.elems) :
    b = a ∨ b ∈ s.elems := by
  obtain ⟨j, hj⟩ := mem_elems.mp h
  rw [get_insert] at hj
  split at hj
  · exact .inl (Option.some.inj hj).symm
  · exact .inr (mem_elems.mpr ⟨j, hj⟩)

theorem elems_remove {s : Slab α} {i : Nat} {b : α} (h : b ∈ (s.remove i).2.elems) :
    b ∈ s.elems := by
  obtain ⟨j, hj⟩ := mem_elems.mp h
  rw [get_remove] at hj
  split at hj
  · cases hj
  · exact mem_elems.mpr ⟨j, hj⟩

theorem elems_modify {s : Slab α} {i : Nat} {f : α → α} {b : α} (h : b ∈ (s.modify i f).elems) :
    b ∈ s.elems ∨ ∃ a, s.get i = some a ∧ b = f a := by
  obtain ⟨j, hj⟩ := mem_elems.mp h
  rw [get_modify] at hj
  split at hj
  · obtain ⟨a, ha, hb⟩ := Option.map_eq_some_iff.mp hj
    exact .inr ⟨a, ha, hb.symm⟩
  · exact .inl (mem_elems.mpr ⟨j, hj⟩)

end Slab

end Ruyi
