import Ruyi.Sync.ChannelOrder
import Ruyi.Sync.RingCalls

namespace Ruyi.Sync

open Base (Machine)

variable {w capacity : Nat} {α : Type}

/-- The loop of `Drop for RingBuffer`: what it drops, one by one. -/
def RingBuffer.drop : (fuel : Nat) → RingBuffer w α →
    Option (Except Fault (List α × RingBuffer w α))
  | 0, _ => none
  | fuel + 1, b =>
      match b.tryPop with
      | .error fault => some (.error fault)
      | .ok (none, b) => some (.ok ([], b))
      | .ok (some t, b) => (drop fuel b).map fun r => r.map fun r => (t :: r.1, r.2)

namespace Ring.Inv

variable {pushed popped : List α} {s s' : Ring w α}

theorem of_run {log : List (RingEvent α)} (h : Inv capacity pushed popped s)
    (hrun : (ringMachine w α).Run (fun _ _ => True) s log s') :
    Inv capacity (pushed ++ pushedOf log) (popped ++ poppedOf log) s' := by
  refine hrun.invariant
    (I := fun log s => Inv capacity (pushed ++ pushedOf log) (popped ++ poppedOf log) s) ?_ ?_
  · simpa [pushedOf, poppedOf] using h
  · intro log t a e u hinv _ hstep
    rw [pushedOf_append, poppedOf_append, ← List.append_assoc, ← List.append_assoc]
    exact hinv.step_ok hstep

variable {b : RingBuffer w α}

theorem tryPop_ok (h : Inv capacity pushed popped ⟨b, .idle, .idle⟩) :
    ∃ b', b.tryPop = .ok (pushed[popped.length]?, b') ∧
      Inv capacity pushed (popped ++ pushed[popped.length]?.toList) ⟨b', .idle, .idle⟩ := by
  have hnext : ∃ b', b.tryPop = .ok (pushed[popped.length]?, b') := by
    rcases Nat.lt_or_ge popped.length pushed.length with hlt | hge
    · obtain ⟨v, hv⟩ : ∃ v, pushed[popped.length]? = some v := ⟨_, List.getElem?_eq_getElem hlt⟩
      have hslot := h.held (Nat.le_of_eq h.front) hv
      rw [← h.effectiveIndex, ← h.front] at hslot
      have hne : b.front ≠ b.rear := by
        rw [show b.front = popped.length from h.front, show b.rear = pushed.length from h.rear]
        exact Nat.ne_of_lt hlt
      obtain ⟨b', hpop⟩ := RingBuffer.tryPop_of_holds hslot hne
      rw [hv]
      exact ⟨b', hpop⟩
    · have hle := h.shadowRear_le
      have hge' := h.shadowRear_ge
      have hfront : b.front = popped.length := h.front
      have hrear : b.rear = pushed.length := h.rear
      have hshadow : b.front = b.shadowRear := by
        dsimp only at hle hge'
        omega
      have hreload : b.front = b.reloadRear.shadowRear := by
        show b.front = b.rear
        dsimp only at hle hge'
        omega
      rw [RingBuffer.tryPop, if_pos hshadow, if_pos hreload, List.getElem?_eq_none hge]
      exact ⟨_, rfl⟩
  obtain ⟨b', hpop⟩ := hnext
  obtain ⟨log, hrun, hpushed, hpopped⟩ := run_pop .idle hpop
  have hinv := h.of_run hrun
  rw [hpushed, hpopped, List.append_nil] at hinv
  exact ⟨b', hpop, hinv⟩

theorem drop_ok {fuel : Nat} (h : Inv capacity pushed popped ⟨b, .idle, .idle⟩)
    (hfuel : pushed.length - popped.length < fuel) :
    ∃ b', b.drop fuel = some (.ok (pushed.drop popped.length, b')) ∧
      Inv capacity pushed pushed ⟨b', .idle, .idle⟩ := by
  induction fuel generalizing b popped with
  | zero => exact absurd hfuel (Nat.not_lt_zero _)
  | succ fuel ih =>
      obtain ⟨b', hpop, hinv⟩ := h.tryPop_ok
      rw [RingBuffer.drop, hpop]
      rcases Nat.lt_or_ge popped.length pushed.length with hlt | hge
      · rw [List.getElem?_eq_getElem hlt, Option.toList_some] at hinv
        have hlen : (popped ++ [pushed[popped.length]]).length = popped.length + 1 := by
          rw [List.length_append, List.length_singleton]
        obtain ⟨b'', hdrop, hinv'⟩ := ih hinv (by omega)
        rw [hlen] at hdrop
        refine ⟨b'', ?_, hinv'⟩
        rw [List.getElem?_eq_getElem hlt]
        dsimp only
        rw [hdrop, List.drop_eq_getElem_cons hlt]
        rfl
      · have hall : pushed = popped := (List.take_of_length_le hge).symm.trans h.order.symm
        rw [List.getElem?_eq_none hge, Option.toList_none, List.append_nil] at hinv
        rw [List.getElem?_eq_none hge, List.drop_of_length_le hge]
        rw [← hall] at hinv
        exact ⟨b', rfl, hinv⟩

theorem vacant_of_all (h : Inv capacity pushed pushed ⟨b, .idle, .idle⟩) :
    ∀ slot ∈ b.slots, slot = .vacant := by
  intro slot hslot
  obtain ⟨i, hi, hget⟩ := List.mem_iff_getElem.mp hslot
  have hvacant := h.vacant hi fun k hk hlt =>
    absurd hlt (Nat.not_lt.mpr (Nat.le_trans (Nat.le_of_eq h.front.symm) hk))
  rw [List.getElem?_eq_getElem hi, hget] at hvacant
  exact Option.some.inj hvacant

end Ring.Inv

namespace Channel

variable {s : Channel w α} {log : List (ChannelEvent α)}
  {ok : Channel w α → ChannelAction α → Prop}

theorem Inv.idle_of_gone {pushed received : List α} (h : Inv capacity pushed received s)
    (hgone : s.strongCount = 0) : s.ring = ⟨s.ring.buf, .idle, .idle⟩ := by
  have hcount := h.count
  rw [hgone] at hcount
  have hreleased : s.sender.released = true := by
    by_contra hnot
    rw [if_neg hnot] at hcount
    omega
  have hreceiver : s.receiver = .gone := by
    by_contra hnot
    rw [if_neg hnot] at hcount
    omega
  have hproducer := h.producer fun retry heq => by
    rw [heq] at hreleased
    cases hreleased
  have hconsumer := h.consumer fun heq => by
    rw [heq] at hreceiver
    cases hreceiver
  rw [← hproducer, ← hconsumer]

/-- Every message that has come into the buffer is received once, or dropped once with the buffer
when both ends are gone, and the order is that of the sends. -/
theorem received_or_dropped (h : (channelMachine w α).Run ok (init w α capacity) log s)
    (hgone : s.strongCount = 0) :
    ∃ dropped b', s.ring.buf.drop (capacity + 1) = some (.ok (dropped, b')) ∧
      receivedOf log ++ dropped = pushedOf log ∧ ∀ slot ∈ b'.slots, slot = .vacant := by
  have hinv := inv_of_run h
  have hring := hinv.ring
  rw [hinv.idle_of_gone hgone] at hring
  have hlen : (pushedOf log).length - (receivedOf log).length < capacity + 1 :=
    Nat.lt_succ_of_le (Nat.sub_le_iff_le_add'.mpr hring.length_le)
  obtain ⟨b', hdrop, hall⟩ := hring.drop_ok hlen
  refine ⟨_, b', hdrop, ?_, hall.vacant_of_all⟩
  exact (congrArg (· ++ _) hring.order).trans (List.take_append_drop _ _)

theorem received_or_dropped_of_two :
    ∃ (log : List (ChannelEvent Nat)) (s : Channel 64 Nat) (dropped : List Nat)
        (b' : RingBuffer 64 Nat),
      sentOf log = [7, 8] ∧ receivedOf log = [7] ∧ s.ring.buf.drop 3 = some (.ok (dropped, b')) ∧
        [7] ++ dropped = [7, 8] := by
  let sender (n : Nat) : List (ChannelAction Nat) := List.replicate n (.sender (.ok ()))
  let receiver (n : Nat) : List (ChannelAction Nat) := List.replicate n (.receiver (.ok ()))
  let as : List (ChannelAction Nat) :=
    .send false 7 :: sender 9 ++ .send false 8 :: sender 7 ++ .poll :: receiver 9 ++
      .dropSender :: sender 4 ++ .dropReceiver :: receiver 4
  obtain ⟨⟨log, s⟩, hexec, hgone, hsent, hpushed, hreceived⟩ :
      ∃ r, (channelMachine 64 Nat).exec (fun _ _ => True) as (init 64 Nat 2) = some r ∧
        r.2.strongCount = 0 ∧ sentOf r.1 = [7, 8] ∧ pushedOf r.1 = [7, 8] ∧
          receivedOf r.1 = [7] := ⟨_, rfl, rfl, rfl, rfl, rfl⟩
  obtain ⟨dropped, b', hdrop, hall, -⟩ := received_or_dropped (.of_exec as hexec) hgone
  rw [hpushed, hreceived] at hall
  exact ⟨log, s, dropped, b', hsent, hreceived, hdrop, hall⟩

end Channel

end Ruyi.Sync
