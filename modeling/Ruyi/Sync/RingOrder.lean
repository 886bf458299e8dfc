import Ruyi.Sync.RingBuffer

namespace Ruyi.Sync

variable {w capacity : Nat} {α : Type} {s s' : Ring w α} {pushed popped : List α}
  {e : RingEvent α}

/-- The values of the calls of `try_push` that have succeeded. -/
def pushedOf (log : List (RingEvent α)) : List α :=
  log.filterMap fun
    | .pushed t => some t
    | _ => none

def poppedOf (log : List (RingEvent α)) : List α :=
  log.filterMap fun
    | .popped v => some v
    | _ => none

theorem pushedOf_append (log log' : List (RingEvent α)) :
    pushedOf (log ++ log') = pushedOf log ++ pushedOf log' := List.filterMap_append

theorem poppedOf_append (log log' : List (RingEvent α)) :
    poppedOf (log ++ log') = poppedOf log ++ poppedOf log' := List.filterMap_append

/-- The values given to `try_push`. -/
def calledOf (log : List (RingEvent α)) : List α :=
  log.filterMap fun
    | .called t => some t
    | _ => none

/-- The values of the calls of `try_push` that have returned, kept or handed back. -/
def answeredOf (log : List (RingEvent α)) : List α :=
  log.filterMap fun
    | .pushed t => some t
    | .refused t => some t
    | _ => none

/-- The value of a call of `try_push` that has not returned. -/
def Producer.value : Producer α → Option α
  | .idle => none
  | .loadRear t | .checkShadow t _ | .reloadFront t _ | .recheck t _ | .startWrite t _
  | .endWrite t _ | .storeRear t _ => some t

namespace RingBuffer

/-- The index of a slot, under the mask of a buffer made by `withCapacity`. -/
def slotIndex (w capacity k : Nat) : Nat := k &&& (withCapacity w Unit capacity).idxMask

theorem wrap_mask {m : Nat} (hm : m < w) : wrap w (2 ^ m + (2 ^ w - 1)) = 2 ^ m - 1 := by
  have hlt : 2 ^ m < 2 ^ w := Nat.pow_lt_pow_right (by decide) hm
  have hmpos : 0 < 2 ^ m := Nat.two_pow_pos m
  have hsum : 2 ^ m + (2 ^ w - 1) = 2 ^ m - 1 + 2 ^ w := by omega
  rw [wrap, hsum, Nat.add_mod_right]
  exact Nat.mod_eq_of_lt (by omega)

theorem slotIndex_ne {j k : Nat} (hjk : j < k) (hcap : k < j + capacity) (hk : k < 2 ^ w) :
    slotIndex w capacity j ≠ slotIndex w capacity k := by
  have hmod : ∀ m, k < j + 2 ^ m → j % 2 ^ m ≠ k % 2 ^ m := by
    intro m hlt heq
    have hdvd : 2 ^ m ∣ k - j := Nat.dvd_of_mod_eq_zero (Nat.sub_mod_eq_zero_of_mod_eq heq.symm)
    have := Nat.le_of_dvd (by omega) hdvd
    omega
  have hpos : 0 < 2 ^ w := Nat.two_pow_pos w
  simp only [slotIndex, withCapacity, nextPowerOfTwo]
  split
  · rename_i m hfind
    have hle : capacity ≤ 2 ^ m := by simpa using List.find?_some hfind
    have hm : m < w := List.mem_range.mp (List.mem_of_find?_eq_some hfind)
    rw [wrap_mask hm, Nat.and_two_pow_sub_one_eq_mod, Nat.and_two_pow_sub_one_eq_mod]
    exact hmod m (by omega)
  · have hmask : wrap w (0 + (2 ^ w - 1)) = 2 ^ w - 1 := by
      rw [wrap, Nat.zero_add]
      exact Nat.mod_eq_of_lt (by omega)
    rw [hmask, Nat.and_two_pow_sub_one_eq_mod, Nat.and_two_pow_sub_one_eq_mod]
    exact hmod w (by omega)

theorem nextPowerOfTwo_of_lt (h : 2 ^ (w - 1) < capacity) : nextPowerOfTwo w capacity = 0 := by
  have hnone : (List.range w).find? (fun k => decide (capacity ≤ 2 ^ k)) = none := by
    rw [List.find?_eq_none]
    intro k hk hle
    have hk : k < w := List.mem_range.mp hk
    have hpow : 2 ^ k ≤ 2 ^ (w - 1) := Nat.pow_le_pow_right (by decide) (by omega)
    have := of_decide_eq_true hle
    omega
  rw [nextPowerOfTwo, hnone]

theorem slotIndex_lt (hcap : capacity ≤ 2 ^ (w - 1)) (hw : 0 < w) (k : Nat) :
    slotIndex w capacity k < nextPowerOfTwo w capacity := by
  obtain ⟨m, hfind⟩ : ∃ m, (List.range w).find? (fun k => decide (capacity ≤ 2 ^ k)) = some m := by
    rw [← Option.isSome_iff_exists, List.find?_isSome]
    exact ⟨w - 1, List.mem_range.mpr (by omega), decide_eq_true hcap⟩
  have hm : m < w := List.mem_range.mp (List.mem_of_find?_eq_some hfind)
  have hnext : nextPowerOfTwo w capacity = 2 ^ m := by
    rw [nextPowerOfTwo, hfind]
  rw [slotIndex, withCapacity, hnext]
  dsimp only
  rw [wrap_mask hm, Nat.and_two_pow_sub_one_eq_mod]
  exact Nat.mod_lt k (Nat.two_pow_pos m)

theorem length_setSlot (b : RingBuffer w α) (i : Nat) (slot : Slot α) :
    (b.setSlot i slot).slots.length = b.slots.length := List.length_set

theorem get_setSlot (b : RingBuffer w α) {i : Nat} (slot : Slot α) (hi : i < b.slots.length) :
    (b.setSlot i slot).slots[i]? = some slot := List.getElem?_set_self hi

theorem get_setSlot_ne (b : RingBuffer w α) {i j : Nat} (slot : Slot α) (hne : i ≠ j) :
    (b.setSlot i slot).slots[j]? = b.slots[j]? := List.getElem?_set_ne hne

theorem writeSlot_of_lt {b : RingBuffer w α} {i : Nat} (slot : Slot α) (hi : i < b.slots.length) :
    b.writeSlot i slot = .ok (b.setSlot i slot) := if_pos hi

theorem writeSlot_cases {b b' : RingBuffer w α} {i : Nat} {slot : Slot α}
    (h : b.writeSlot i slot = .ok b') : i < b.slots.length ∧ b' = b.setSlot i slot := by
  rw [writeSlot] at h
  split at h
  · rename_i hi
    exact ⟨hi, (Except.ok.inj h).symm⟩
  · cases h

theorem writeSlot_fails {b : RingBuffer w α} {i : Nat} {slot : Slot α} {f : Fault}
    (h : b.writeSlot i slot = .error f) : f = .outOfBounds ∧ b.slots.length ≤ i := by
  rw [writeSlot] at h
  split at h
  · cases h
  · rename_i hi
    exact ⟨(Except.error.inj h).symm, Nat.le_of_not_lt hi⟩

end RingBuffer

namespace Ring

open RingBuffer

/-- The first counter whose value has not been read. -/
def taken (s : Ring w α) : Nat :=
  match s.consumer with
  | .storeFront _ _ => s.buf.front + 1
  | _ => s.buf.front

/-- What a slot holds that no counter between the two threads owns. -/
def outside (s : Ring w α) (i : Nat) : Slot α :=
  match s.producer with
  | .endWrite _ rear => if i = s.buf.effectiveIndex rear then .writing else .vacant
  | .storeRear t rear => if i = s.buf.effectiveIndex rear then .holds t else .vacant
  | _ => .vacant

/-- The counter a producer works with, and the room it has found. -/
def ProducerOk (s : Ring w α) : Prop :=
  match s.producer with
  | .idle | .loadRear _ => True
  | .checkShadow _ rear | .reloadFront _ rear | .recheck _ rear => rear = s.buf.rear
  | .startWrite _ rear =>
      rear = s.buf.rear ∧ rear < s.buf.shadowFront + s.buf.cap ∧ rear + 1 < 2 ^ w
  | .endWrite _ rear | .storeRear _ rear =>
      (rear = s.buf.rear ∧ rear < s.buf.shadowFront + s.buf.cap ∧ rear + 1 < 2 ^ w) ∧
        s.buf.effectiveIndex rear < s.buf.slots.length

def ConsumerOk (s : Ring w α) (pushed : List α) : Prop :=
  match s.consumer with
  | .idle | .loadFront => True
  | .checkShadow front | .reloadRear front | .recheck front => front = s.buf.front
  | .read front => front = s.buf.front ∧ front < s.buf.shadowRear
  | .storeFront front v =>
      front = s.buf.front ∧ front < s.buf.shadowRear ∧ pushed[front]? = some v

/-- The invariant of the two counters, their shadows and the slots, for the values pushed
and popped so far. -/
structure Inv (capacity : Nat) (pushed popped : List α) (s : Ring w α) : Prop where
  cap : s.buf.cap = capacity
  mask : s.buf.idxMask = (withCapacity w Unit capacity).idxMask
  length : s.buf.slots.length = nextPowerOfTwo w capacity
  word : pushed.length < 2 ^ w
  front : s.buf.front = popped.length
  rear : s.buf.rear = pushed.length
  shadowFront : s.buf.shadowFront ≤ popped.length
  shadowRear_ge : popped.length ≤ s.buf.shadowRear
  shadowRear_le : s.buf.shadowRear ≤ pushed.length
  room : pushed.length ≤ s.buf.shadowFront + capacity
  order : popped = pushed.take popped.length
  held : ∀ {k v}, s.taken ≤ k → pushed[k]? = some v →
    s.buf.slots[slotIndex w capacity k]? = some (.holds v)
  vacant : ∀ {i}, i < s.buf.slots.length →
    (∀ k, s.taken ≤ k → k < pushed.length → slotIndex w capacity k ≠ i) →
      s.buf.slots[i]? = some (s.outside i)
  producer : s.ProducerOk
  consumer : s.ConsumerOk pushed

theorem inv_init : Inv capacity [] [] (init w α capacity) := by
  refine ⟨rfl, rfl, List.length_replicate, Nat.two_pow_pos w, rfl, rfl, Nat.le_refl _,
    Nat.le_refl _, Nat.le_refl _, Nat.zero_le _, rfl, ?_, ?_, trivial, trivial⟩
  · intro k v _ hv
    cases hv
  · intro i hi _
    have hlen : i < nextPowerOfTwo w capacity := hi.trans_eq List.length_replicate
    exact List.getElem?_replicate_of_lt hlen

namespace Inv

theorem of_quiet (hpush : pushedOf [e] = []) (hpop : poppedOf [e] = [])
    (h : Inv capacity pushed popped s) :
    Inv capacity (pushed ++ pushedOf [e]) (popped ++ poppedOf [e]) s := by
  rw [hpush, hpop, List.append_nil, List.append_nil]
  exact h

theorem effectiveIndex (h : Inv capacity pushed popped s) (k : Nat) :
    s.buf.effectiveIndex k = slotIndex w capacity k := by
  rw [RingBuffer.effectiveIndex, h.mask, slotIndex]

theorem front_le_taken (h : Inv capacity pushed popped s) : popped.length ≤ s.taken := by
  rw [← h.front, taken]
  split
  · exact Nat.le_succ _
  · exact Nat.le_refl _

theorem taken_le (h : Inv capacity pushed popped s) : s.taken ≤ pushed.length := by
  have hle := Nat.le_trans h.shadowRear_ge h.shadowRear_le
  have hconsumer := h.consumer
  rw [← h.front] at hle
  unfold ConsumerOk at hconsumer
  unfold taken
  split
  · rename_i front v hstore
    rw [hstore] at hconsumer
    obtain ⟨rfl, hlt, -⟩ := hconsumer
    exact Nat.le_trans hlt h.shadowRear_le
  · exact hle

theorem room_of_not_full (h : Inv capacity pushed popped s)
    (hfull : s.buf.full s.buf.rear = false) :
    s.buf.rear < s.buf.shadowFront + s.buf.cap ∧ s.buf.rear + 1 < 2 ^ w := by
  have hlt : s.buf.rear < (s.buf.shadowFront + capacity) % 2 ^ w := by
    rw [RingBuffer.full, h.cap, wrap, decide_eq_false_iff_not] at hfull
    exact Nat.lt_of_not_le hfull
  have hword := Nat.mod_lt (s.buf.shadowFront + capacity) (Nat.two_pow_pos w)
  have hle := Nat.mod_le (s.buf.shadowFront + capacity) (2 ^ w)
  rw [h.cap]
  omega

theorem rear_fresh (h : Inv capacity pushed popped s)
    (hroom : s.buf.rear < s.buf.shadowFront + s.buf.cap) {k : Nat} (hk : s.taken ≤ k)
    (hlt : k < pushed.length) : slotIndex w capacity k ≠ slotIndex w capacity s.buf.rear := by
  have hfront := h.front_le_taken
  have hshadow := h.shadowFront
  have hword := h.word
  rw [h.rear, h.cap] at hroom
  rw [h.rear]
  exact slotIndex_ne hlt (by omega) hword

theorem of_producer (h : Inv capacity pushed popped s) {producer : Producer α}
    (houtside : outside { s with producer := producer } = s.outside)
    (hok : ProducerOk { s with producer := producer }) :
    Inv capacity pushed popped { s with producer := producer } :=
  { h with
    vacant := fun hi hfree => (h.vacant hi hfree).trans (congrArg some (congrFun houtside _).symm)
    producer := hok }

theorem of_reloadFront (h : Inv capacity pushed popped s) {t : α} {rear : Nat}
    (hproducer : s.producer = .reloadFront t rear) :
    Inv (w := w) capacity pushed popped
      { s with buf := { s.buf with shadowFront := s.buf.front }, producer := .recheck t rear } := by
  have hok := h.producer
  rw [ProducerOk, hproducer] at hok
  have hroom := h.room
  have hshadow := h.shadowFront
  refine { h with
    shadowFront := Nat.le_of_eq h.front, room := ?_, vacant := ?_, producer := hok }
  · exact Nat.le_trans hroom (Nat.add_le_add_right (h.front ▸ hshadow) _)
  · intro i hlen hi
    have hslot := h.vacant hlen hi
    simp only [outside, hproducer] at hslot ⊢
    exact hslot

theorem of_write (h : Inv capacity pushed popped s) {t : α} {rear : Nat} {producer : Producer α}
    {slot : Slot α} (hrear : rear = s.buf.rear) (hroom : rear < s.buf.shadowFront + s.buf.cap)
    (hword : rear + 1 < 2 ^ w) (hbound : s.buf.effectiveIndex rear < s.buf.slots.length)
    (hbefore : ∀ i, i ≠ s.buf.effectiveIndex rear → s.outside i = .vacant)
    (hafter : producer = .endWrite t rear ∧ slot = .writing ∨
      producer = .storeRear t rear ∧ slot = .holds t) :
    Inv capacity pushed popped
      { s with buf := s.buf.setSlot (s.buf.effectiveIndex rear) slot, producer := producer } := by
  have hindex := h.effectiveIndex rear
  have hlength := s.buf.length_setSlot (s.buf.effectiveIndex rear) slot
  refine { h with length := hlength.trans h.length, held := ?_, vacant := ?_, producer := ?_ }
  · intro k v hk hv
    have hlt : k < pushed.length := (List.getElem?_eq_some_iff.mp hv).1
    have hne : s.buf.effectiveIndex rear ≠ slotIndex w capacity k := by
      rw [hindex, hrear]
      exact (h.rear_fresh (hrear ▸ hroom) hk hlt).symm
    exact (s.buf.get_setSlot_ne slot hne).trans (h.held hk hv)
  · intro i hi hfree
    have houtside : outside { s with
        buf := s.buf.setSlot (s.buf.effectiveIndex rear) slot, producer := producer } i =
        if i = s.buf.effectiveIndex rear then slot else .vacant := by
      rcases hafter with ⟨rfl, rfl⟩ | ⟨rfl, rfl⟩
      · rfl
      · rfl
    rw [houtside]
    by_cases hir : i = s.buf.effectiveIndex rear
    · rw [if_pos hir, hir]
      exact s.buf.get_setSlot slot hbound
    · rw [if_neg hir, ← hbefore i hir]
      exact (s.buf.get_setSlot_ne slot (Ne.symm hir)).trans (h.vacant (hlength ▸ hi) hfree)
  · rcases hafter with ⟨rfl, rfl⟩ | ⟨rfl, rfl⟩
    · exact ⟨⟨hrear, hroom, hword⟩, hlength.symm ▸ hbound⟩
    · exact ⟨⟨hrear, hroom, hword⟩, hlength.symm ▸ hbound⟩

theorem of_push (h : Inv capacity pushed popped s) {t : α} {rear : Nat}
    (hproducer : s.producer = .storeRear t rear) :
    Inv capacity (pushed ++ [t]) popped
      (⟨{ s.buf with rear := wrap w (rear + 1) }, .idle, s.consumer⟩ : Ring w α) := by
  have hok := h.producer
  simp only [ProducerOk, hproducer] at hok
  obtain ⟨⟨rfl, hroom, hword⟩, hbound⟩ := hok
  have hwrap : wrap w (s.buf.rear + 1) = pushed.length + 1 := by
    rw [wrap, Nat.mod_eq_of_lt hword, h.rear]
  have hlength : (pushed ++ [t]).length = pushed.length + 1 := by simp
  have houtside : ∀ i, s.outside i =
      if i = s.buf.effectiveIndex s.buf.rear then .holds t else .vacant := by
    intro i
    simp only [outside, hproducer]
  have hpopped : popped.length ≤ pushed.length :=
    Nat.le_trans h.shadowRear_ge h.shadowRear_le
  refine ⟨h.cap, h.mask, h.length, ?_, h.front, ?_, h.shadowFront, h.shadowRear_ge, ?_, ?_, ?_, ?_,
    ?_, ?_, ?_⟩
  · rw [hlength, ← h.rear]
    exact hword
  · rw [hlength]
    exact hwrap
  · rw [hlength]
    exact Nat.le_trans h.shadowRear_le (Nat.le_succ _)
  · rw [hlength, ← h.rear, ← h.cap]
    exact hroom
  · rw [List.take_append_of_le_length hpopped]
    exact h.order
  · intro k v hk hv
    by_cases hlt : k < pushed.length
    · rw [List.getElem?_append_left hlt] at hv
      exact h.held hk hv
    · have hkeq : k = pushed.length := by
        have := (List.getElem?_eq_some_iff.mp hv).1
        omega
      subst hkeq
      rw [List.getElem?_append_right (Nat.le_refl _), Nat.sub_self] at hv
      cases hv
      rw [h.effectiveIndex, h.rear] at hbound
      have hslot := h.vacant hbound fun k hk hlt => by
        rw [← h.rear]
        exact h.rear_fresh hroom hk hlt
      rw [houtside, h.effectiveIndex, h.rear, if_pos rfl] at hslot
      exact hslot
  · intro i hlen hi
    have hslot := h.vacant hlen fun k hk hlt => hi k hk (by omega)
    rw [houtside, h.effectiveIndex, h.rear, if_neg] at hslot
    · exact hslot
    · intro heq
      exact hi pushed.length h.taken_le (by omega) heq.symm
  · trivial
  · have hconsumer := h.consumer
    unfold ConsumerOk at hconsumer ⊢
    cases hc : s.consumer with
    | idle | loadFront => trivial
    | checkShadow front | reloadRear front | recheck front | read front =>
        rw [hc] at hconsumer
        exact hconsumer
    | storeFront front v =>
        rw [hc] at hconsumer
        obtain ⟨hfront, hlt, hv⟩ := hconsumer
        exact ⟨hfront, hlt, by rwa [List.getElem?_append_left (by
          exact (List.getElem?_eq_some_iff.mp hv).1)]⟩

theorem outside_of_used (h : Inv capacity pushed popped s) {k : Nat} (hk : s.taken ≤ k)
    (hlt : k < pushed.length) : s.outside (slotIndex w capacity k) = .vacant := by
  have hok := h.producer
  unfold ProducerOk at hok
  unfold outside
  split
  · rename_i t rear hproducer
    rw [hproducer] at hok
    obtain ⟨⟨rfl, hroom, -⟩, -⟩ := hok
    rw [h.effectiveIndex, if_neg (h.rear_fresh hroom hk hlt)]
  · rename_i t rear hproducer
    rw [hproducer] at hok
    obtain ⟨⟨rfl, hroom, -⟩, -⟩ := hok
    rw [h.effectiveIndex, if_neg (h.rear_fresh hroom hk hlt)]
  · rfl

theorem of_consumer (h : Inv capacity pushed popped s) {consumer : Consumer α}
    (htaken : taken { s with consumer := consumer } = s.taken)
    (hok : ConsumerOk { s with consumer := consumer } pushed) :
    Inv capacity pushed popped { s with consumer := consumer } :=
  { h with
    held := fun hk => h.held (htaken ▸ hk)
    vacant := fun hlen hi => h.vacant hlen fun k hk => hi k (htaken.symm ▸ hk)
    consumer := hok }

theorem of_reloadRear (h : Inv capacity pushed popped s) {front : Nat}
    (hconsumer : s.consumer = .reloadRear front) :
    Inv (w := w) capacity pushed popped
      { s with buf := { s.buf with shadowRear := s.buf.rear }, consumer := .recheck front } := by
  have hok := h.consumer
  rw [ConsumerOk, hconsumer] at hok
  have hrear : s.buf.rear = pushed.length := h.rear
  have htaken : s.taken = s.buf.front := by simp only [taken, hconsumer]
  refine { h with
    shadowRear_ge := ?_, shadowRear_le := Nat.le_of_eq hrear, held := ?_, vacant := ?_,
    consumer := hok }
  · exact hrear ▸ Nat.le_trans h.shadowRear_ge h.shadowRear_le
  · exact fun hk => h.held (htaken.symm ▸ hk)
  · exact fun hlen hi => h.vacant hlen fun k hk => hi k (htaken ▸ hk : s.buf.front ≤ k)

theorem holds_of_read (h : Inv capacity pushed popped s) {front : Nat}
    (hconsumer : s.consumer = .read front) :
    ∃ v, pushed[front]? = some v ∧
      s.buf.slots[s.buf.effectiveIndex front]? = some (.holds v) := by
  have hok := h.consumer
  rw [ConsumerOk, hconsumer] at hok
  obtain ⟨hfront, hlt⟩ := hok
  have hlength : front < pushed.length := Nat.lt_of_lt_of_le hlt h.shadowRear_le
  have htaken : s.taken ≤ front := by
    simp only [taken, hconsumer, hfront, Nat.le_refl]
  refine ⟨pushed[front], List.getElem?_eq_getElem hlength, ?_⟩
  rw [h.effectiveIndex]
  exact h.held htaken (List.getElem?_eq_getElem hlength)

theorem of_read (h : Inv capacity pushed popped s) {front : Nat} {v : α}
    (hconsumer : s.consumer = .read front) (hv : pushed[front]? = some v) :
    Inv capacity pushed popped
      { s with
        buf := s.buf.setSlot (s.buf.effectiveIndex front) .vacant
        consumer := .storeFront front v } := by
  have hok := h.consumer
  rw [ConsumerOk, hconsumer] at hok
  obtain ⟨rfl, hlt⟩ := hok
  have htaken : s.taken = s.buf.front := by rw [taken, hconsumer]
  have hlength : s.buf.front < pushed.length := (List.getElem?_eq_some_iff.mp hv).1
  have hindex := h.effectiveIndex s.buf.front
  have hne : ∀ k, s.buf.front < k → k < pushed.length →
      slotIndex w capacity k ≠ slotIndex w capacity s.buf.front := by
    intro k hk hklt
    have hroom := h.room
    have hshadow := h.shadowFront
    have hfront := h.front
    exact (slotIndex_ne hk (by omega) (Nat.lt_trans hklt h.word)).symm
  have hslots := s.buf.length_setSlot (s.buf.effectiveIndex s.buf.front) .vacant
  refine { h with
    length := hslots.trans h.length, held := ?_, vacant := ?_, producer := ?_,
    consumer := ⟨rfl, hlt, hv⟩ }
  · intro k u hk hu
    have hklt : k < pushed.length := (List.getElem?_eq_some_iff.mp hu).1
    have hother : s.buf.effectiveIndex s.buf.front ≠ slotIndex w capacity k := by
      rw [hindex]
      exact (hne k hk hklt).symm
    exact (s.buf.get_setSlot_ne _ hother).trans (h.held (htaken ▸ Nat.le_of_lt hk) hu)
  · intro i hlen hi
    by_cases hir : i = s.buf.effectiveIndex s.buf.front
    · have hvacant : s.outside i = .vacant := by
        rw [hir, hindex]
        exact h.outside_of_used (Nat.le_of_eq htaken) hlength
      rw [hir] at hlen ⊢
      refine (s.buf.get_setSlot _ (hslots ▸ hlen)).trans (congrArg some ?_)
      exact (hir ▸ hvacant).symm
    · refine (s.buf.get_setSlot_ne _ (Ne.symm hir)).trans (h.vacant (hslots ▸ hlen) ?_)
      intro k hk hklt
      by_cases hkfront : k = s.buf.front
      · rw [hkfront, ← hindex]
        exact Ne.symm hir
      · exact hi k (Nat.lt_of_le_of_ne (htaken ▸ hk) (Ne.symm hkfront)) hklt
  · have hproducer := h.producer
    unfold ProducerOk at hproducer ⊢
    dsimp only
    rw [hslots]
    exact hproducer

theorem of_pop (h : Inv capacity pushed popped s) {front : Nat} {v : α}
    (hconsumer : s.consumer = .storeFront front v) :
    Inv capacity pushed (popped ++ [v])
      (⟨{ s.buf with front := wrap w (front + 1) }, s.producer, .idle⟩ : Ring w α) := by
  have hok := h.consumer
  rw [ConsumerOk, hconsumer] at hok
  obtain ⟨rfl, hlt, hv⟩ := hok
  have hlength : (popped ++ [v]).length = s.buf.front + 1 := by simp [h.front]
  have hword : s.buf.front + 1 < 2 ^ w :=
    Nat.lt_of_le_of_lt (Nat.le_trans hlt h.shadowRear_le) h.word
  have hwrap : wrap w (s.buf.front + 1) = s.buf.front + 1 := Nat.mod_eq_of_lt hword
  have htaken : s.taken = s.buf.front + 1 := by rw [taken, hconsumer]
  refine { h with
    front := ?_, shadowFront := ?_, shadowRear_ge := ?_, order := ?_, held := ?_, vacant := ?_,
    consumer := trivial }
  · rw [hlength]
    exact hwrap
  · rw [hlength, h.front]
    exact Nat.le_succ_of_le h.shadowFront
  · rw [hlength]
    exact hlt
  · rw [hlength, List.take_add_one, hv, h.front, ← h.order]
    rfl
  · intro k u hk hu
    refine h.held ?_ hu
    rw [htaken, ← hwrap]
    exact hk
  · intro i hlen hi
    refine h.vacant hlen fun k hk hklt => hi k ?_ hklt
    rw [htaken, ← hwrap] at hk
    exact hk

theorem of_call_push (h : Inv capacity pushed popped s) (hproducer : s.producer = .idle) (t : α) :
    Inv capacity pushed popped { s with producer := .loadRear t } := by
  apply h.of_producer
  · funext i
    simp only [outside, hproducer]
  · trivial

theorem of_call_pop (h : Inv capacity pushed popped s) (hconsumer : s.consumer = .idle) :
    Inv capacity pushed popped { s with consumer := .loadFront } := by
  apply h.of_consumer
  · simp only [taken, hconsumer]
  · trivial

theorem produce_ok (h : Inv capacity pushed popped s) (hstep : s.produce = some (.ok (e, s'))) :
    Inv capacity (pushed ++ pushedOf [e]) (popped ++ poppedOf [e]) s' := by
  have hok := h.producer
  unfold ProducerOk at hok
  rw [produce] at hstep
  cases hproducer : s.producer with
  | idle =>
      rw [hproducer] at hstep
      cases hstep
  | loadRear t =>
      rw [hproducer] at hstep
      cases hstep
      apply Inv.of_quiet rfl rfl
      apply h.of_producer
      · funext i
        simp only [outside, hproducer]
      · rfl
  | checkShadow t rear =>
      rw [hproducer] at hstep hok
      cases hstep
      obtain rfl : rear = s.buf.rear := hok
      apply Inv.of_quiet rfl rfl
      split
      · apply h.of_producer
        · funext i
          simp only [outside, hproducer]
        · rfl
      · rename_i hfull
        apply h.of_producer
        · funext i
          simp only [outside, hproducer]
        · exact ⟨rfl, h.room_of_not_full (Bool.eq_false_iff.mpr hfull)⟩
  | reloadFront t rear =>
      rw [hproducer] at hstep
      cases hstep
      exact Inv.of_quiet rfl rfl (h.of_reloadFront hproducer)
  | recheck t rear =>
      rw [hproducer] at hstep hok
      obtain rfl : rear = s.buf.rear := hok
      dsimp only at hstep
      split at hstep
      · cases hstep
        apply Inv.of_quiet rfl rfl
        apply h.of_producer
        · funext i
          simp only [outside, hproducer]
        · trivial
      · rename_i hfull
        cases hstep
        apply Inv.of_quiet rfl rfl
        apply h.of_producer
        · funext i
          simp only [outside, hproducer]
        · exact ⟨rfl, h.room_of_not_full (Bool.eq_false_iff.mpr hfull)⟩
  | startWrite t rear =>
      rw [hproducer] at hstep hok
      obtain ⟨buf, hwrite, hnext⟩ := ok_of_bind_ok (Option.some.inj hstep)
      obtain ⟨hbound, rfl⟩ := writeSlot_cases hwrite
      cases hnext
      obtain ⟨hrear, hroom, hword⟩ := hok
      apply Inv.of_quiet rfl rfl
      apply h.of_write hrear hroom hword hbound
      · intro i _
        simp only [outside, hproducer]
      · exact .inl ⟨rfl, rfl⟩
  | endWrite t rear =>
      rw [hproducer] at hstep hok
      obtain ⟨buf, hwrite, hnext⟩ := ok_of_bind_ok (Option.some.inj hstep)
      obtain ⟨hbound, rfl⟩ := writeSlot_cases hwrite
      cases hnext
      obtain ⟨⟨hrear, hroom, hword⟩, -⟩ := hok
      apply Inv.of_quiet rfl rfl
      apply h.of_write hrear hroom hword hbound
      · intro i hi
        simp only [outside, hproducer, if_neg hi]
      · exact .inr ⟨rfl, rfl⟩
  | storeRear t rear =>
      rw [hproducer] at hstep
      cases hstep
      rw [show popped ++ poppedOf [.pushed t] = popped from List.append_nil _]
      exact h.of_push hproducer

theorem produce_fails (h : Inv capacity pushed popped s) {f : Fault}
    (hstep : s.produce = some (.error f)) : f = .outOfBounds ∧ 2 ^ (w - 1) < capacity := by
  have hok := h.producer
  unfold ProducerOk at hok
  rw [produce] at hstep
  cases hproducer : s.producer with
  | startWrite t rear =>
      rw [hproducer] at hstep hok
      obtain ⟨-, -, hword⟩ := hok
      rcases error_of_bind_error (Option.some.inj hstep) with hwrite | ⟨buf, -, hnext⟩
      · obtain ⟨rfl, hlen⟩ := writeSlot_fails hwrite
        refine ⟨rfl, Nat.lt_of_not_le fun hcap => ?_⟩
        have hw : 0 < w := by
          by_contra hzero
          rw [Nat.eq_zero_of_not_pos hzero] at hword
          omega
        rw [h.length, h.effectiveIndex] at hlen
        exact absurd (slotIndex_lt hcap hw rear) (Nat.not_lt_of_ge hlen)
      · cases hnext
  | endWrite t rear =>
      rw [hproducer] at hstep hok
      rcases error_of_bind_error (Option.some.inj hstep) with hwrite | ⟨buf, -, hnext⟩
      · exact absurd hok.2 (Nat.not_lt_of_ge (writeSlot_fails hwrite).2)
      · cases hnext
  | recheck t rear =>
      rw [hproducer] at hstep
      dsimp only at hstep
      split at hstep <;> cases hstep
  | idle | loadRear | checkShadow | reloadFront | storeRear =>
      rw [hproducer] at hstep
      cases hstep

theorem consume_ok (h : Inv capacity pushed popped s) {r : Except Fault (RingEvent α × Ring w α)}
    (hstep : s.consume = some r) :
    ∃ e s', r = .ok (e, s') ∧
      Inv capacity (pushed ++ pushedOf [e]) (popped ++ poppedOf [e]) s' := by
  have hok := h.consumer
  unfold ConsumerOk at hok
  rw [consume] at hstep
  cases hconsumer : s.consumer with
  | idle =>
      rw [hconsumer] at hstep
      cases hstep
  | loadFront =>
      rw [hconsumer] at hstep
      cases hstep
      refine ⟨_, _, rfl, ?_⟩
      apply Inv.of_quiet rfl rfl
      apply h.of_consumer
      · simp only [taken, hconsumer]
      · rfl
  | checkShadow front =>
      rw [hconsumer] at hstep hok
      cases hstep
      obtain rfl : front = s.buf.front := hok
      refine ⟨_, _, rfl, ?_⟩
      apply Inv.of_quiet rfl rfl
      split
      · apply h.of_consumer
        · simp only [taken, hconsumer]
        · rfl
      · rename_i hne
        apply h.of_consumer
        · simp only [taken, hconsumer]
        · exact ⟨rfl, Nat.lt_of_le_of_ne (h.front ▸ h.shadowRear_ge) hne⟩
  | reloadRear front =>
      rw [hconsumer] at hstep
      cases hstep
      exact ⟨_, _, rfl, Inv.of_quiet rfl rfl (h.of_reloadRear hconsumer)⟩
  | recheck front =>
      rw [hconsumer] at hstep hok
      obtain rfl : front = s.buf.front := hok
      dsimp only at hstep
      split at hstep
      · cases hstep
        refine ⟨_, _, rfl, ?_⟩
        apply Inv.of_quiet rfl rfl
        apply h.of_consumer
        · simp only [taken, hconsumer]
        · trivial
      · rename_i hne
        cases hstep
        refine ⟨_, _, rfl, ?_⟩
        apply Inv.of_quiet rfl rfl
        apply h.of_consumer
        · simp only [taken, hconsumer]
        · exact ⟨rfl, Nat.lt_of_le_of_ne (h.front ▸ h.shadowRear_ge) hne⟩
  | read front =>
      obtain ⟨v, hv, hslot⟩ := h.holds_of_read hconsumer
      rw [hconsumer] at hstep
      dsimp only at hstep
      rw [hslot] at hstep
      cases hstep
      refine ⟨_, _, rfl, ?_⟩
      apply Inv.of_quiet rfl rfl
      exact h.of_read hconsumer hv
  | storeFront front v =>
      rw [hconsumer] at hstep
      cases hstep
      refine ⟨_, _, rfl, ?_⟩
      rw [show pushed ++ pushedOf [.popped v] = pushed from List.append_nil _]
      exact h.of_pop hconsumer

theorem step_ok (h : Inv capacity pushed popped s) {a : RingAction α}
    (hstep : s.step a = some (.ok (e, s'))) :
    Inv capacity (pushed ++ pushedOf [e]) (popped ++ poppedOf [e]) s' := by
  cases a with
  | push t =>
      rw [step] at hstep
      split at hstep
      · rename_i hproducer
        cases hstep
        exact .of_quiet rfl rfl (h.of_call_push hproducer t)
      · cases hstep
  | producer => exact h.produce_ok hstep
  | pop =>
      rw [step] at hstep
      split at hstep
      · rename_i hconsumer
        cases hstep
        exact .of_quiet rfl rfl (h.of_call_pop hconsumer)
      · cases hstep
  | consumer =>
      obtain ⟨_, _, heq, hnext⟩ := h.consume_ok hstep
      cases heq
      exact hnext

theorem step_fails (h : Inv capacity pushed popped s) {a : RingAction α} {f : Fault}
    (hstep : s.step a = some (.error f)) : f = .outOfBounds ∧ 2 ^ (w - 1) < capacity := by
  cases a with
  | push t =>
      rw [step] at hstep
      split at hstep <;> cases hstep
  | producer => exact h.produce_fails hstep
  | pop =>
      rw [step] at hstep
      split at hstep <;> cases hstep
  | consumer =>
      obtain ⟨_, _, heq, -⟩ := h.consume_ok hstep
      cases heq

theorem popped_prefix (h : Inv capacity pushed popped s) : popped <+: pushed := by
  rw [h.order]
  exact List.take_prefix _ _

theorem length_le (h : Inv capacity pushed popped s) :
    pushed.length ≤ popped.length + capacity :=
  Nat.le_trans h.room (Nat.add_le_add_right h.shadowFront _)

theorem vacant_of_write (h : Inv capacity pushed popped s) {t : α} {rear : Nat}
    (hproducer : s.producer = .startWrite t rear ∨ s.producer = .endWrite t rear) (v : α) :
    s.buf.slots[s.buf.effectiveIndex rear]? ≠ some (.holds v) := by
  have hok : rear = s.buf.rear ∧ rear < s.buf.shadowFront + s.buf.cap ∧ rear + 1 < 2 ^ w := by
    have := h.producer
    rcases hproducer with heq | heq <;> rw [ProducerOk, heq] at this
    · exact this
    · exact this.1
  obtain ⟨rfl, hroom, -⟩ := hok
  intro hholds
  have hslot := h.vacant (List.getElem?_eq_some_iff.mp hholds).1 fun k hk hlt => by
    rw [h.effectiveIndex]
    exact h.rear_fresh hroom hk hlt
  rw [hholds, outside] at hslot
  rcases hproducer with heq | heq
  · simp only [heq, Option.some.injEq, reduceCtorEq] at hslot
  · simp only [heq, if_pos, Option.some.injEq, reduceCtorEq] at hslot

theorem room_of_outside (h : Inv capacity pushed popped s) {i : Nat}
    (hne : s.outside i ≠ .vacant) :
    i = s.buf.effectiveIndex s.buf.rear ∧ s.buf.rear < s.buf.shadowFront + capacity := by
  have hok := h.producer
  unfold ProducerOk at hok
  unfold outside at hne
  rw [← h.cap]
  split at hne
  · rename_i t rear hproducer
    rw [hproducer] at hok
    obtain ⟨⟨rfl, hroom, -⟩, -⟩ := hok
    exact ⟨by_contra fun hi => hne (if_neg hi), hroom⟩
  · rename_i t rear hproducer
    rw [hproducer] at hok
    obtain ⟨⟨rfl, hroom, -⟩, -⟩ := hok
    exact ⟨by_contra fun hi => hne (if_neg hi), hroom⟩
  · exact absurd rfl hne

theorem stored_le (h : Inv capacity pushed popped s) {is : List Nat} (hnodup : is.Nodup)
    (his : ∀ i ∈ is, ∃ slot, s.buf.slots[i]? = some slot ∧ slot ≠ .vacant) :
    is.length ≤ capacity := by
  have hroom := h.room
  have hshadow := Nat.le_trans h.shadowFront h.front_le_taken
  have hmem : ∀ k, s.taken ≤ k → k < s.buf.shadowFront + capacity →
      slotIndex w capacity k ∈ (List.range' s.taken capacity).map (slotIndex w capacity) := by
    intro k hk hlt
    exact List.mem_map_of_mem (List.mem_range'_1.mpr ⟨hk, by omega⟩)
  have hsubset : is ⊆ (List.range' s.taken capacity).map (slotIndex w capacity) := by
    intro i hi
    by_contra hnot
    obtain ⟨slot, hslot, hused⟩ := his i hi
    have houtside := h.vacant (List.getElem?_eq_some_iff.mp hslot).1 fun k hk hlt heq =>
      hnot (heq ▸ hmem k hk (Nat.lt_of_lt_of_le hlt hroom))
    obtain rfl := Option.some.inj (hslot.symm.trans houtside)
    · obtain ⟨heq, hlt⟩ := h.room_of_outside hused
      rw [heq, h.effectiveIndex] at hnot
      exact hnot (hmem _ (h.rear ▸ h.taken_le) hlt)
  have hlength := (List.subperm_of_subset hnodup hsubset).length_le
  rw [List.length_map, List.length_range'] at hlength
  exact hlength

end Inv

end Ring

theorem Ring.value_produce (hstep : s.produce = some (.ok (e, s'))) :
    s.producer.value.toList ++ calledOf [e] = answeredOf [e] ++ s'.producer.value.toList := by
  unfold produce at hstep
  split at hstep
  · cases hstep
  · rename_i hproducer
    cases hstep
    rw [hproducer]
    rfl
  · rename_i hproducer
    cases hstep
    rw [hproducer]
    split <;> rfl
  · rename_i hproducer
    cases hstep
    rw [hproducer]
    rfl
  · rename_i hproducer
    rw [hproducer]
    split at hstep <;> cases hstep <;> rfl
  · rename_i hproducer
    obtain ⟨buf, -, hnext⟩ := ok_of_bind_ok (Option.some.inj hstep)
    cases hnext
    rw [hproducer]
    rfl
  · rename_i hproducer
    obtain ⟨buf, -, hnext⟩ := ok_of_bind_ok (Option.some.inj hstep)
    cases hnext
    rw [hproducer]
    rfl
  · rename_i hproducer
    cases hstep
    rw [hproducer]
    rfl

theorem Ring.value_consume (hstep : s.consume = some (.ok (e, s'))) :
    s.producer.value.toList ++ calledOf [e] = answeredOf [e] ++ s'.producer.value.toList := by
  unfold consume at hstep
  split at hstep
  · cases hstep
  · cases hstep
    exact List.append_nil _
  · cases hstep
    exact List.append_nil _
  · cases hstep
    exact List.append_nil _
  · split at hstep <;> cases hstep <;> exact List.append_nil _
  · split at hstep <;> cases hstep
    exact List.append_nil _
  · cases hstep
    exact List.append_nil _

theorem Ring.value_step {a : RingAction α} (hstep : s.step a = some (.ok (e, s'))) :
    s.producer.value.toList ++ calledOf [e] = answeredOf [e] ++ s'.producer.value.toList := by
  cases a with
  | push t =>
      rw [step] at hstep
      split at hstep
      · rename_i hproducer
        cases hstep
        rw [hproducer]
        rfl
      · cases hstep
  | producer => exact value_produce hstep
  | pop =>
      rw [step] at hstep
      split at hstep
      · cases hstep
        exact List.append_nil _
      · cases hstep
  | consumer => exact value_consume hstep

theorem Ring.inv_of_run {log : List (RingEvent α)} {ok : Ring w α → RingAction α → Prop}
    (hrun : (ringMachine w α).Run ok (Ring.init w α capacity) log s) :
    Ring.Inv capacity (pushedOf log) (poppedOf log) s := by
  refine hrun.invariant (I := fun log s => Ring.Inv capacity (pushedOf log) (poppedOf log) s)
    Ring.inv_init ?_
  intro log t a e u h _ hstep
  rw [pushedOf_append, poppedOf_append]
  exact h.step_ok hstep

end Ruyi.Sync
