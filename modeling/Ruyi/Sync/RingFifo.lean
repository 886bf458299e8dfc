import Ruyi.Sync.RingOrder

namespace Ruyi.Sync

variable {w capacity : Nat} {α : Type} {s : Ring w α}

namespace Ring

/-- The counters are below `usize::MAX - cap`. -/
def CountersBelow (s : Ring w α) : Prop :=
  s.buf.front + s.buf.cap + 1 < 2 ^ w ∧ s.buf.rear + s.buf.cap + 1 < 2 ^ w

instance (s : Ring w α) : Decidable s.CountersBelow :=
  inferInstanceAs (Decidable (_ ∧ _))

/-- A bounded queue, as far as the events and the state show: the slot that is read holds a
value, the one that is written does not, a value that is refused is handed back, and no access
is outside of the slots. -/
structure Fifo (capacity : Nat) (log : List (RingEvent α)) (s : Ring w α) : Prop where
  order : poppedOf log <+: pushedOf log
  reads : ∀ front, s.consumer = .read front →
    ∃ v, s.buf.slots[s.buf.effectiveIndex front]? = some (.holds v)
  writes : ∀ t rear, s.producer = .startWrite t rear ∨ s.producer = .endWrite t rear →
    ∀ v, s.buf.slots[s.buf.effectiveIndex rear]? ≠ some (.holds v)
  stored : (pushedOf log).length ≤ (poppedOf log).length + capacity
  used : ∀ is : List Nat, is.Nodup →
    (∀ i ∈ is, ∃ slot, s.buf.slots[i]? = some slot ∧ slot ≠ .vacant) → is.length ≤ capacity
  answered : calledOf log = answeredOf log ++ s.producer.value.toList
  safe : ∀ a fault, s.step a ≠ some (.error fault)

theorem fifo_of_safe {log : List (RingEvent α)} {ok : Ring w α → RingAction α → Prop}
    (hrun : (ringMachine w α).Run ok (init w α capacity) log s)
    (hsafe : ∀ a fault, s.step a ≠ some (.error fault)) : s.Fifo capacity log := by
  have hinv := inv_of_run hrun
  refine ⟨hinv.popped_prefix, ?_, ?_, hinv.length_le, ?_, ?_, hsafe⟩
  · intro front hread
    obtain ⟨v, -, hv⟩ := hinv.holds_of_read hread
    exact ⟨v, hv⟩
  · exact fun t rear hwrite v => hinv.vacant_of_write hwrite v
  · exact fun is hnodup his => hinv.stored_le hnodup his
  · refine hrun.invariant
      (I := fun log s => calledOf log = answeredOf log ++ s.producer.value.toList) rfl ?_
    intro log t a e u h _ hstep
    have hvalue := value_step hstep
    simp only [calledOf, answeredOf, List.filterMap_append] at h hvalue ⊢
    rw [h, List.append_assoc, hvalue, List.append_assoc]

theorem fifo_of_run {log : List (RingEvent α)} {ok : Ring w α → RingAction α → Prop}
    (hcap : capacity ≤ 2 ^ (w - 1))
    (hrun : (ringMachine w α).Run ok (init w α capacity) log s) : s.Fifo capacity log :=
  fifo_of_safe hrun fun _ _ hstep =>
    absurd hcap (Nat.not_le_of_gt ((inv_of_run hrun).step_fails hstep).2)

theorem eq_init_of_run {log : List (RingEvent α)} (hword : 2 ^ w ≤ capacity + 1)
    (hrun : (ringMachine w α).Run (fun s _ => s.CountersBelow) (init w α capacity) log s) :
    s = init w α capacity := by
  refine hrun.invariant (I := fun _ s => s = init w α capacity) rfl ?_
  rintro log s a e t rfl ⟨hfront, -⟩ -
  have hlt : 0 + capacity + 1 < 2 ^ w := hfront
  omega

theorem push_out_of_bounds (t : α) (hcap : 2 ^ (w - 1) < capacity) (hword : capacity + 1 < 2 ^ w) :
    ∃ s : Ring w α, (ringMachine w α).Run (fun s _ => s.CountersBelow) (init w α capacity)
        [.called t, .silent, .silent] s ∧
      s.step .producer = some (.error .outOfBounds) := by
  have hbelow : ∀ producer : Producer α,
      CountersBelow ⟨RingBuffer.withCapacity w α capacity, producer, .idle⟩ :=
    fun _ => ⟨by simpa [RingBuffer.withCapacity] using hword,
      by simpa [RingBuffer.withCapacity] using hword⟩
  have hroom : (RingBuffer.withCapacity w α capacity).full 0 = false := by
    rw [RingBuffer.full, decide_eq_false_iff_not]
    have hsum : wrap w (0 + capacity) = capacity := by
      rw [Nat.zero_add]
      exact Nat.mod_eq_of_lt (by omega)
    exact Nat.not_le_of_gt (hsum.symm ▸ Nat.zero_lt_of_lt hcap)
  have hcalled : (ringMachine w α).Run (fun s _ => s.CountersBelow) (init w α capacity)
      [.called t, .silent] ⟨RingBuffer.withCapacity w α capacity, .checkShadow t 0, .idle⟩ :=
    (Base.Machine.Run.nil.snoc (a := .push t) (hbelow .idle) rfl).snoc (a := .producer)
      (hbelow (.loadRear t)) rfl
  refine ⟨⟨RingBuffer.withCapacity w α capacity, .startWrite t 0, .idle⟩,
    hcalled.snoc (a := .producer) (hbelow (.checkShadow t 0)) ?_, ?_⟩
  · simp only [ringMachine, step, produce, hroom, Bool.false_eq_true, if_false]
  · have hnone : (RingBuffer.withCapacity w α capacity).slots.length = 0 :=
      List.length_replicate.trans (RingBuffer.nextPowerOfTwo_of_lt hcap)
    simp only [step, produce, RingBuffer.writeSlot, hnone, Nat.not_lt_zero, if_false]
    rfl

end Ring

/-- The ring buffer is a bounded queue under any interleaving of its two threads, if and only if
its capacity has a next power of two, or leaves no counter below `usize::MAX - cap`. -/
theorem bounded_fifo_iff (w capacity : Nat) (t : α) :
    (∀ (log : List (RingEvent α)) (s : Ring w α),
      (ringMachine w α).Run (fun s _ => s.CountersBelow) (Ring.init w α capacity) log s →
        s.Fifo capacity log) ↔
      capacity ≤ 2 ^ (w - 1) ∨ 2 ^ w ≤ capacity + 1 := by
  constructor
  · intro hfifo
    by_contra hnot
    obtain ⟨hcap, hword⟩ := not_or.mp hnot
    obtain ⟨s, hrun, hfails⟩ :=
      Ring.push_out_of_bounds t (Nat.lt_of_not_le hcap) (Nat.lt_of_not_le hword)
    exact (hfifo _ s hrun).safe _ _ hfails
  · rintro (hcap | hword) log s hrun
    · exact Ring.fifo_of_run hcap hrun
    · refine Ring.fifo_of_safe hrun fun a fault hstep => ?_
      rw [Ring.eq_init_of_run hword hrun] at hstep
      cases a with
      | push | producer | pop | consumer => cases hstep

/-- On 64 bits the first push into a buffer for `2 ^ 63 + 1` values is out of bounds. -/
theorem first_push_out_of_bounds :
    (∃ s : Ring 64 Nat, (ringMachine 64 Nat).Run (fun s _ => s.CountersBelow)
        (Ring.init 64 Nat (2 ^ 63 + 1)) [.called 7, .silent, .silent] s ∧
      s.step .producer = some (.error .outOfBounds)) ∧
    ¬ ∀ (log : List (RingEvent Nat)) (s : Ring 64 Nat),
      (ringMachine 64 Nat).Run (fun s _ => s.CountersBelow) (Ring.init 64 Nat (2 ^ 63 + 1)) log s →
        s.Fifo (2 ^ 63 + 1) log := by
  have hcap : 2 ^ (64 - 1) < 2 ^ 63 + 1 := by decide
  obtain ⟨s, hrun, hfails⟩ := Ring.push_out_of_bounds 7 hcap (by decide)
  exact ⟨⟨s, hrun, hfails⟩, fun hfifo => (hfifo _ s hrun).safe _ _ hfails⟩

theorem bounded_fifo_of_one :
    ∃ s : Ring 64 Nat, (ringMachine 64 Nat).Run (fun s _ => s.CountersBelow) (Ring.init 64 Nat 1)
        [.called 7, .silent, .silent, .silent, .silent, .pushed 7, .called 8, .silent, .silent,
          .silent, .refused 8] s ∧
      [] <+: [7] ∧ [7, 8] = [7, 8] ++ s.producer.value.toList := by
  let as : List (RingAction Nat) :=
    [.push 7, .producer, .producer, .producer, .producer, .producer, .push 8, .producer,
      .producer, .producer, .producer]
  obtain ⟨⟨log, s⟩, hexec, hlog⟩ :
      ∃ r, (ringMachine 64 Nat).exec (fun s _ => s.CountersBelow) as (Ring.init 64 Nat 1) =
          some r ∧
        r.1 = [.called 7, .silent, .silent, .silent, .silent, .pushed 7, .called 8, .silent,
          .silent, .silent, .refused 8] := ⟨_, rfl, rfl⟩
  subst hlog
  have hrun := Base.Machine.Run.of_exec as hexec
  have hfifo := (bounded_fifo_iff 64 1 7).mpr (.inl (by decide)) _ s hrun
  exact ⟨s, hrun, hfifo.order, hfifo.answered⟩

end Ruyi.Sync
