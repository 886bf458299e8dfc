import Ruyi.Slab

namespace Ruyi

/-- What is known of a way to reserve room in a vector: the capacity it leaves, for the old
capacity, the length and how many more elements there are to come. -/
structure Growth where
  grow : Nat → Nat → Nat → Nat
  room : ∀ cap len additional, len + additional ≤ grow cap len additional
  keeps : ∀ cap len additional, cap ≤ grow cap len additional

/-- `Vec::reserve`, which `push` calls too, and `Vec::reserve_exact`. -/
structure VecGrowth where
  reserve : Growth
  reserveExact : Growth

/-- The growth to the least capacity. -/
def Growth.exact : Growth where
  grow cap len additional := if len + additional ≤ cap then cap else len + additional
  room _ _ _ := by split <;> omega
  keeps _ _ _ := by split <;> omega

/-- The growth that at least doubles the capacity. -/
def Growth.amortized : Growth where
  grow cap len additional :=
    if len + additional ≤ cap then cap else max (2 * cap) (len + additional)
  room _ _ _ := by split <;> omega
  keeps _ _ _ := by split <;> omega

namespace Slab

variable {α : Type}

theorem length_objs (s : Slab α) (h : s.hfree = none) : s.objs.length = s.len := by
  obtain ⟨chain, hchain, -, hall⟩ := s.free_list
  rw [h] at hchain
  cases chain with
  | cons j chain => exact hchain.elim
  | nil =>
      rw [s.len_eq, eq_comm, List.countP_eq_length]
      intro obj hobj
      cases obj with
      | used elem => rfl
      | free next =>
          obtain ⟨i, hi⟩ := List.mem_iff_getElem?.mp hobj
          cases hall i next hi

theorem len_le_length (s : Slab α) : s.len ≤ s.objs.length := by
  rw [s.len_eq]
  exact List.countP_le_length

theorem len_insert (s : Slab α) (elem : α) : (s.insert elem).2.len = s.len + 1 := by
  rw [insert]
  split <;> rfl

theorem length_insert_of_some {s : Slab α} {i : Nat} (h : s.hfree = some i) (elem : α) :
    (s.insert elem).2.objs.length = s.objs.length := by
  rw [insert]
  split
  · exact List.length_set
  · rename_i hnone
    rw [h] at hnone
    cases hnone

theorem length_insert_of_none {s : Slab α} (h : s.hfree = none) (elem : α) :
    (s.insert elem).2.objs.length = s.objs.length + 1 := by
  rw [insert]
  split
  · rename_i hsome
    rw [h] at hsome
    cases hsome
  · exact List.length_append

end Slab

/-- A slab with the capacity of its vector. -/
structure VecSlab (α : Type) where
  slab : Slab α
  capacity : Nat
  fits : slab.objs.length ≤ capacity

namespace VecSlab

variable {α : Type}

def withCapacity (capacity : Nat) : VecSlab α := ⟨Slab.empty, capacity, Nat.zero_le _⟩

/-- The body that `reserve` and `reserve_exact` share. -/
def reserveWith (s : VecSlab α) (g : Growth) (additional : Nat) : VecSlab α :=
  let n := s.capacity - s.slab.len
  if additional > n then
    { s with
      capacity := g.grow s.capacity s.slab.objs.length (additional - n)
      fits := Nat.le_trans s.fits (g.keeps _ _ _) }
  else s

def reserve (s : VecSlab α) (v : VecGrowth) (additional : Nat) : VecSlab α :=
  s.reserveWith v.reserve additional

def reserveExact (s : VecSlab α) (v : VecGrowth) (additional : Nat) : VecSlab α :=
  s.reserveWith v.reserveExact additional

/-- The capacity after `Vec::push`, which grows a full vector. -/
def pushed (s : VecSlab α) (v : VecGrowth) : Nat :=
  if s.slab.objs.length = s.capacity then v.reserve.grow s.capacity s.slab.objs.length 1
  else s.capacity

theorem length_lt_pushed (s : VecSlab α) (v : VecGrowth) : s.slab.objs.length < s.pushed v := by
  rw [pushed]
  split
  · exact v.reserve.room s.capacity s.slab.objs.length 1
  · rename_i hne
    exact Nat.lt_of_le_of_ne s.fits hne

def insert (s : VecSlab α) (v : VecGrowth) (elem : α) : Nat × VecSlab α :=
  let r := s.slab.insert elem
  match h : s.slab.hfree with
  | some _ => (r.1, ⟨r.2, s.capacity, by rw [Slab.length_insert_of_some h]; exact s.fits⟩)
  | none =>
      (r.1,
        ⟨r.2, s.pushed v, by rw [Slab.length_insert_of_none h]; exact s.length_lt_pushed v⟩)

def insertAll (s : VecSlab α) (v : VecGrowth) : List α → VecSlab α
  | [] => s
  | elem :: elems => (s.insert v elem).2.insertAll v elems

/-- There is room for so many more elements, and inserts take it without growing the vector. -/
structure RoomFor (s : VecSlab α) (v : VecGrowth) (additional : Nat) : Prop where
  capacity : s.slab.len + additional ≤ s.capacity
  inserts : ∀ elems : List α, elems.length ≤ additional →
    (s.insertAll v elems).capacity = s.capacity

theorem slab_insert (s : VecSlab α) (v : VecGrowth) (elem : α) :
    (s.insert v elem).2.slab = (s.slab.insert elem).2 := by
  rw [insert]
  split <;> rfl

theorem capacity_insert {s : VecSlab α} (h : s.slab.len < s.capacity) (v : VecGrowth) (elem : α) :
    (s.insert v elem).2.capacity = s.capacity := by
  rw [insert]
  split
  · rfl
  · rename_i hfree
    have hlength := s.slab.length_objs hfree
    exact if_neg (by omega)

theorem capacity_insertAll {s : VecSlab α} {v : VecGrowth} {elems : List α}
    (h : s.slab.len + elems.length ≤ s.capacity) : (s.insertAll v elems).capacity = s.capacity := by
  induction elems generalizing s with
  | nil => rfl
  | cons elem elems ih =>
      rw [List.length_cons] at h
      have hcapacity := capacity_insert (by omega) v elem (s := s)
      rw [insertAll, ih, hcapacity]
      rw [hcapacity, slab_insert, Slab.len_insert]
      omega

theorem roomFor_iff (s : VecSlab α) (v : VecGrowth) (additional : Nat) :
    s.RoomFor v additional ↔ s.slab.len + additional ≤ s.capacity := by
  constructor
  · exact RoomFor.capacity
  · intro h
    exact ⟨h, fun elems hlength => capacity_insertAll (by omega)⟩

theorem reserveWith_room (s : VecSlab α) (g : Growth) {additional : Nat}
    (h : s.slab.len + additional ≤ s.capacity ∨ s.slab.objs.length = s.capacity) :
    (s.reserveWith g additional).slab.len + additional ≤ (s.reserveWith g additional).capacity := by
  have hlen := s.slab.len_le_length
  have hfits := s.fits
  have hroom := g.room s.capacity s.slab.objs.length (additional - (s.capacity - s.slab.len))
  rw [reserveWith]
  split
  · dsimp only
    omega
  · omega

theorem reserveWith_exact (s : VecSlab α) {additional : Nat}
    (h : (s.reserveWith Growth.exact additional).slab.len + additional ≤
      (s.reserveWith Growth.exact additional).capacity) :
    s.slab.len + additional ≤ s.capacity ∨ s.slab.objs.length = s.capacity := by
  have hlen := s.slab.len_le_length
  have hfits := s.fits
  rw [reserveWith] at h
  split at h
  · simp only [Growth.exact] at h
    split at h <;> omega
  · exact .inl h

/-- `reserve` and `reserve_exact` keep their promise, whatever `Vec` does beyond its own, if
there is room already or the vector is full. -/
theorem slab_reserves_iff (s : VecSlab α) (additional : Nat) :
    (∀ v : VecGrowth, (s.reserve v additional).RoomFor v additional ∧
        (s.reserveExact v additional).RoomFor v additional) ↔
      s.slab.len + additional ≤ s.capacity ∨ s.slab.objs.length = s.capacity := by
  constructor
  · intro h
    exact s.reserveWith_exact ((h ⟨Growth.exact, Growth.exact⟩).1.capacity)
  · intro h v
    exact ⟨(roomFor_iff _ v additional).mpr (s.reserveWith_room v.reserve h),
      (roomFor_iff _ v additional).mpr (s.reserveWith_room v.reserveExact h)⟩

/-- Fifteen objects are asked for where ten fit in, and `Vec` is asked for five. -/
theorem reserved_nothing :
    ¬ ∀ (s : VecSlab Nat) (v : VecGrowth) (additional : Nat),
      (s.reserve v additional).RoomFor v additional ∧
        (s.reserveExact v additional).RoomFor v additional := by
  intro h
  have hroom := (h (withCapacity 10) ⟨Growth.amortized, Growth.exact⟩ 15).1.capacity
  exact absurd hroom (by decide)

end VecSlab

end Ruyi
