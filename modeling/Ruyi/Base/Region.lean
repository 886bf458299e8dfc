import Mathlib

namespace Ruyi.Base

/-- The addresses from `base` up to `base + size` of an allocation. -/
structure Region where
  alloc : Nat
  base : Nat
  size : Nat
  deriving DecidableEq

namespace Region

/-- No address is in both. -/
def Disjoint (r s : Region) : Prop :=
  r.alloc = s.alloc → r.base + r.size ≤ s.base ∨ s.base + s.size ≤ r.base

instance (r s : Region) : Decidable (r.Disjoint s) :=
  inferInstanceAs (Decidable (r.alloc = s.alloc → _))

/-- The region is a part of another one. -/
structure Within (r s : Region) : Prop where
  alloc : r.alloc = s.alloc
  base : s.base ≤ r.base
  top : r.base + r.size ≤ s.base + s.size

variable {r r' s left right : Region}

theorem Disjoint.symm (h : r.Disjoint s) : s.Disjoint r := fun heq => (h heq.symm).symm

theorem Disjoint.mono (h : r.Disjoint s) (hle : r'.Within r) : r'.Disjoint s := by
  intro heq
  have hbase := hle.base
  have htop := hle.top
  rcases h (hle.alloc.symm.trans heq) with hbefore | hafter
  · exact .inl (by omega)
  · exact .inr (by omega)

end Region

/-- The regions in use, which lie apart in the allocations of these sizes. -/
structure Laid (sizes : List Nat) (regions : List Region) : Prop where
  within : ∀ r ∈ regions, ∃ size, sizes[r.alloc]? = some size ∧ r.base + r.size ≤ size
  apart : regions.Pairwise Region.Disjoint

theorem laid_nil (sizes : List Nat) : Laid sizes [] := ⟨by simp, .nil⟩

variable {sizes sizes' sizes'' : List Nat} {regions regions' regions'' more : List Region}
  {r left right : Region}

theorem Laid.perm (h : Laid sizes regions) (hperm : regions.Perm regions') :
    Laid sizes regions' :=
  ⟨fun r hr => h.within r (hperm.mem_iff.mpr hr),
    (hperm.pairwise_iff fun hdisjoint => hdisjoint.symm).mp h.apart⟩

theorem Laid.sublist (h : Laid sizes regions) (hsub : regions'.Sublist regions) :
    Laid sizes regions' :=
  ⟨fun r hr => h.within r (hsub.subset hr), h.apart.sublist hsub⟩

theorem Laid.shrink (h : Laid sizes (r :: regions)) (hleft : left.Within r) :
    Laid sizes (left :: regions) := by
  obtain ⟨hhead, htail⟩ := List.pairwise_cons.mp h.apart
  constructor
  · intro r' hr'
    rcases List.mem_cons.mp hr' with rfl | hr'
    · obtain ⟨size, hsize, hle⟩ := h.within r List.mem_cons_self
      refine ⟨size, ?_, Nat.le_trans hleft.top hle⟩
      rw [hleft.alloc]
      exact hsize
    · exact h.within r' (List.mem_cons_of_mem _ hr')
  · exact List.pairwise_cons.mpr ⟨fun s hs => (hhead s hs).mono hleft, htail⟩

theorem Laid.split (h : Laid sizes (r :: regions)) (hleft : left.Within r)
    (hright : right.Within r) (hcut : left.base + left.size ≤ right.base) :
    Laid sizes (left :: right :: regions) := by
  have hl := h.shrink hleft
  have hr := h.shrink hright
  constructor
  · intro r' hr'
    rcases List.mem_cons.mp hr' with rfl | hr'
    · exact hl.within _ List.mem_cons_self
    · exact hr.within _ hr'
  · refine List.pairwise_cons.mpr ⟨?_, hr.apart⟩
    intro s hs
    rcases List.mem_cons.mp hs with rfl | hs
    · exact fun _ => .inl hcut
    · exact (List.pairwise_cons.mp hl.apart).1 s hs

theorem Laid.alloc (h : Laid sizes regions) (size : Nat) :
    Laid (sizes ++ [size]) (⟨sizes.length, 0, size⟩ :: regions) := by
  constructor
  · intro r hr
    rcases List.mem_cons.mp hr with rfl | hr
    · refine ⟨size, ?_, Nat.le_of_eq (Nat.zero_add _)⟩
      rw [List.getElem?_append_right (Nat.le_refl _), Nat.sub_self]
      rfl
    · obtain ⟨size', hsize, hle⟩ := h.within r hr
      refine ⟨size', ?_, hle⟩
      rw [List.getElem?_append_left (List.getElem?_eq_some_iff.mp hsize).1]
      exact hsize
  · refine List.pairwise_cons.mpr ⟨?_, h.apart⟩
    intro s hs heq
    obtain ⟨_, hsize, -⟩ := h.within s hs
    have hlt := (List.getElem?_eq_some_iff.mp hsize).1
    exact absurd heq (Nat.ne_of_gt hlt)

/-- A change of some of the regions in use that leaves them laid out, whatever the other ones
are. -/
def Reshapes (sizes : List Nat) (regions : List Region) (sizes' : List Nat)
    (regions' : List Region) : Prop :=
  ∀ others, Laid sizes (regions ++ others) → Laid sizes' (regions' ++ others)

namespace Reshapes

theorem refl (sizes : List Nat) (regions : List Region) :
    Reshapes sizes regions sizes regions := fun _ h => h

theorem trans (h : Reshapes sizes regions sizes' regions')
    (h' : Reshapes sizes' regions' sizes'' regions'') :
    Reshapes sizes regions sizes'' regions'' :=
  fun others hlaid => h' others (h others hlaid)

theorem of_perm (h : regions.Perm regions') : Reshapes sizes regions sizes regions' :=
  fun _ hlaid => hlaid.perm (h.append_right _)

theorem of_eq (h : regions = regions') : Reshapes sizes regions sizes regions' :=
  .of_perm (.of_eq h)

theorem of_sublist (h : regions'.Sublist regions) : Reshapes sizes regions sizes regions' :=
  fun _ hlaid => hlaid.sublist (h.append (List.Sublist.refl _))

theorem alloc (size : Nat) :
    Reshapes sizes regions (sizes ++ [size]) (⟨sizes.length, 0, size⟩ :: regions) :=
  fun _ hlaid => hlaid.alloc size

theorem split (hleft : left.Within r) (hright : right.Within r)
    (hcut : left.base + left.size ≤ right.base) : Reshapes sizes [r] sizes [left, right] :=
  fun _ hlaid => hlaid.split hleft hright hcut

theorem append_right (h : Reshapes sizes regions sizes' regions') (more : List Region) :
    Reshapes sizes (regions ++ more) sizes' (regions' ++ more) := by
  intro others hlaid
  rw [List.append_assoc] at hlaid ⊢
  exact h _ hlaid

theorem append_left (h : Reshapes sizes regions sizes' regions') (more : List Region) :
    Reshapes sizes (more ++ regions) sizes' (more ++ regions') :=
  (of_perm List.perm_append_comm).trans <|
    (h.append_right more).trans (of_perm List.perm_append_comm)

theorem laid (h : Reshapes sizes regions sizes' regions') (hlaid : Laid sizes regions) :
    Laid sizes' regions' := by
  have hnil := h []
  rw [List.append_nil, List.append_nil] at hnil
  exact hnil hlaid

end Reshapes

/-- What the addresses of the allocations hold. -/
abbrev Memory (β : Type) := Nat → Nat → β

namespace Memory

variable {β : Type} {memory : Memory β} {cells : List β}

/-- The region holds these cells, one after another. -/
def Holds (memory : Memory β) (r : Region) (cells : List β) : Prop :=
  ∀ i cell, cells[i]? = some cell → i < r.size ∧ memory r.alloc (r.base + i) = cell

/-- Writes the cells of a region. -/
def store (memory : Memory β) (r : Region) (cells : List β) : Memory β :=
  fun alloc addr =>
    if alloc = r.alloc ∧ r.base ≤ addr then (cells[addr - r.base]?).getD (memory alloc addr)
    else memory alloc addr

theorem holds_store (memory : Memory β) (hsize : cells.length ≤ r.size) :
    (memory.store r cells).Holds r cells := by
  intro i cell hcell
  refine ⟨Nat.lt_of_lt_of_le (List.getElem?_eq_some_iff.mp hcell).1 hsize, ?_⟩
  rw [store, if_pos ⟨rfl, Nat.le_add_right _ _⟩, Nat.add_sub_cancel_left, hcell]
  rfl

theorem Holds.cut (h : memory.Holds r cells) :
    memory.Holds ⟨r.alloc, r.base, cells.length⟩ cells :=
  fun i cell hcell => ⟨(List.getElem?_eq_some_iff.mp hcell).1, (h i cell hcell).2⟩

theorem Holds.store {s : Region} {others : List β} (h : memory.Holds s others)
    (hdisjoint : r.Disjoint s) (hsize : cells.length ≤ r.size) :
    (memory.store r cells).Holds s others := by
  intro i cell hcell
  obtain ⟨hlt, hmem⟩ := h i cell hcell
  refine ⟨hlt, ?_⟩
  rw [Memory.store]
  split
  · rename_i hin
    have hnone : cells[s.base + i - r.base]? = none := by
      rcases hdisjoint hin.1.symm with hbefore | hafter
      · exact List.getElem?_eq_none (by omega)
      · exact absurd hin.2 (by omega)
    rw [hnone]
    exact hmem
  · exact hmem

end Memory

end Ruyi.Base
