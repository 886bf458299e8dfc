import Ruyi.Base.BoundedQueue
import Ruyi.Sync.ChannelOrder

namespace Ruyi.Sync

open Base (QueueOp boundedQueue)

variable {w capacity : Nat} {α : Type} {s s' : Ring w α} {e : RingEvent α}

/-- The call of a queue that a return is the end of. -/
def RingEvent.op : RingEvent α → Option (QueueOp α)
  | .pushed t => some (.push t)
  | .refused t => some (.refuse t)
  | .popped v => some (.pop v)
  | .empty => some .empty
  | .called _ | .silent => none

namespace Ring

/-- The step at which a call takes effect: the store of a counter, or the load that finds the other
counter too far away, or not far enough. -/
def effect (s : Ring w α) (a : RingAction α) (e : RingEvent α) : Option (QueueOp α) :=
  match e with
  | .pushed t => some (.push t)
  | .popped v => some (.pop v)
  | _ =>
      match a, s.producer, s.consumer with
      | .producer, .reloadFront t rear, _ =>
          if wrap w (s.buf.front + s.buf.cap) ≤ rear then some (.refuse t) else none
      | .consumer, _, .reloadRear front => if front = s.buf.rear then some .empty else none
      | _, _, _ => none

/-- What a call at one end is to return, once that is decided and before it does: a `try_push` that
is to hand its value back, a `try_pop` that has found nothing. -/
def decided (s : Ring w α) : (back : Bool) → List (QueueOp α)
  | true =>
      match s.producer with
      | .recheck t rear => if s.buf.full rear then [.refuse t] else []
      | _ => []
  | false =>
      match s.consumer with
      | .recheck front => if front = s.buf.shadowRear then [.empty] else []
      | _ => []

/-- At each end, what has taken effect is what has returned, but for a call that is to return. -/
def Answers (ops : List (QueueOp α)) (log : List (RingEvent α)) (s : Ring w α) : Prop :=
  ∀ back, ops.filter (·.atBack == back) =
    (log.filterMap RingEvent.op).filter (·.atBack == back) ++ s.decided back

/-- The ring holds a queue. -/
def Holds (capacity : Nat) (s : Ring w α) (q : List α) : Prop :=
  ∃ popped, Inv capacity (popped ++ q) popped s

theorem effect_produce (hstep : s.produce = some (.ok (e, s'))) :
    s.decided true ++ (s.effect .producer e).toList = e.op.toList ++ s'.decided true ∧
      ∀ op ∈ s.effect .producer e, op.atBack = true := by
  rw [produce] at hstep
  cases hproducer : s.producer with
  | idle =>
      rw [hproducer] at hstep
      cases hstep
  | checkShadow t rear =>
      rw [hproducer] at hstep
      cases hstep
      simp only [decided, effect, hproducer]
      cases s.buf.full rear <;> simp [RingEvent.op]
  | reloadFront t rear =>
      rw [hproducer] at hstep
      cases hstep
      simp only [decided, effect, hproducer, RingBuffer.full]
      split <;> simp [RingEvent.op, QueueOp.atBack, *]
  | recheck t rear =>
      rw [hproducer] at hstep
      dsimp only at hstep
      split at hstep <;> cases hstep <;> simp [decided, effect, RingEvent.op, *]
  | startWrite t rear | endWrite t rear =>
      rw [hproducer] at hstep
      obtain ⟨buf, -, hnext⟩ := ok_of_bind_ok (Option.some.inj hstep)
      cases hnext
      simp [decided, effect, hproducer, RingEvent.op]
  | loadRear | storeRear =>
      rw [hproducer] at hstep
      cases hstep
      simp [decided, effect, hproducer, RingEvent.op, QueueOp.atBack]

theorem effect_consume (hstep : s.consume = some (.ok (e, s'))) :
    s.decided false ++ (s.effect .consumer e).toList = e.op.toList ++ s'.decided false ∧
      ∀ op ∈ s.effect .consumer e, op.atBack = false := by
  rw [consume] at hstep
  cases hconsumer : s.consumer with
  | idle =>
      rw [hconsumer] at hstep
      cases hstep
  | checkShadow front =>
      rw [hconsumer] at hstep
      cases hstep
      simp only [decided, effect, hconsumer]
      by_cases h : front = s.buf.shadowRear <;> simp [RingEvent.op, h]
  | reloadRear front =>
      rw [hconsumer] at hstep
      cases hstep
      simp only [decided, effect, hconsumer]
      by_cases h : front = s.buf.rear <;> simp [RingEvent.op, QueueOp.atBack, h]
  | recheck front =>
      rw [hconsumer] at hstep
      dsimp only at hstep
      split at hstep <;> cases hstep <;> simp [decided, effect, RingEvent.op, *]
  | read front =>
      rw [hconsumer] at hstep
      dsimp only at hstep
      split at hstep <;> cases hstep
      simp [decided, effect, hconsumer, RingEvent.op]
  | _ =>
      rw [hconsumer] at hstep
      cases hstep
      simp [decided, effect, hconsumer, RingEvent.op, QueueOp.atBack]

theorem decided_produce (hstep : s.produce = some (.ok (e, s'))) :
    s'.decided false = s.decided false := by
  obtain ⟨hconsumer, -, hshadow, -⟩ := produce_cases hstep
  simp only [decided, hconsumer, hshadow]

theorem decided_consume (hstep : s.consume = some (.ok (e, s'))) :
    s'.decided true = s.decided true := by
  rw [consume] at hstep
  split at hstep
  case h_5 => split at hstep <;> cases hstep <;> rfl
  case h_6 => split at hstep <;> cases hstep; rfl
  all_goals cases hstep; try rfl

theorem atBack_decided {back : Bool} : ∀ op ∈ s.decided back, op.atBack = back := by
  intro op hop
  cases back with
  | true =>
      rw [decided] at hop
      split at hop
      · split at hop
        · rw [List.mem_singleton.mp hop]
          rfl
        · cases hop
      · cases hop
  | false =>
      rw [decided] at hop
      split at hop
      · split at hop
        · rw [List.mem_singleton.mp hop]
          rfl
        · cases hop
      · cases hop

theorem effect_step {a : RingAction α} (hstep : s.step a = some (.ok (e, s'))) :
    ∃ back, s.decided back ++ (s.effect a e).toList = e.op.toList ++ s'.decided back ∧
      s'.decided (!back) = s.decided (!back) ∧ ∀ op ∈ s.effect a e, op.atBack = back := by
  cases a with
  | push t =>
      rw [step] at hstep
      split at hstep
      · rename_i hproducer
        cases hstep
        exact ⟨true, by simp [decided, effect, RingEvent.op, hproducer], rfl, by simp [effect]⟩
      · cases hstep
  | producer =>
      obtain ⟨hsame, hback⟩ := effect_produce hstep
      exact ⟨true, hsame, decided_produce hstep, hback⟩
  | pop =>
      rw [step] at hstep
      split at hstep
      · rename_i hconsumer
        cases hstep
        exact ⟨false, by simp [decided, effect, RingEvent.op, hconsumer], rfl, by simp [effect]⟩
      · cases hstep
  | consumer =>
      obtain ⟨hsame, hfront⟩ := effect_consume hstep
      exact ⟨false, hsame, decided_consume hstep, hfront⟩

theorem answers_step {ops : List (QueueOp α)} {log : List (RingEvent α)} {a : RingAction α}
    (h : Answers ops log s) (hstep : s.step a = some (.ok (e, s'))) :
    Answers (ops ++ (s.effect a e).toList) (log ++ [e]) s' := by
  obtain ⟨back, hsame, hother, hside⟩ := effect_step hstep
  have heffect : ∀ op ∈ (s.effect a e).toList, op.atBack = back := by
    simpa using hside
  have hreturn : ∀ op ∈ e.op.toList, op.atBack = back := by
    intro op hop
    have hmem : op ∈ s.decided back ++ (s.effect a e).toList := by
      rw [hsame]
      exact List.mem_append_left _ hop
    rcases List.mem_append.mp hmem with hmem | hmem
    · exact atBack_decided op hmem
    · exact heffect op hmem
  have hfilter : ∀ {ops : List (QueueOp α)}, (∀ op ∈ ops, op.atBack = back) →
      ops.filter (·.atBack == back) = ops ∧ ops.filter (·.atBack == !back) = [] := by
    intro ops hops
    constructor
    · rw [List.filter_eq_self]
      exact fun op hop => by simp [hops op hop]
    · rw [List.filter_eq_nil_iff]
      exact fun op hop => by simp [hops op hop]
  have hlog : (log ++ [e]).filterMap RingEvent.op =
      log.filterMap RingEvent.op ++ e.op.toList := by
    rw [List.filterMap_append]
    congr 1
  intro b
  rw [List.filter_append, hlog, List.filter_append, h b]
  by_cases hb : b = back
  · subst hb
    rw [(hfilter heffect).1, (hfilter hreturn).1, List.append_assoc, hsame, List.append_assoc]
  · obtain rfl : b = !back := by cases b <;> cases back <;> simp_all
    rw [(hfilter heffect).2, (hfilter hreturn).2, hother, List.append_nil, List.append_nil]

theorem holds_shown {a : RingAction α} {q : List α} {op : QueueOp α} (h : Holds capacity s q)
    (hword : s.buf.front + s.buf.cap < 2 ^ w) (hstep : s.step a = some (.ok (e, s')))
    (heffect : s.effect a e = some op) :
    ∃ q', (boundedQueue α capacity).Step q op q' ∧ Holds capacity s' q' := by
  obtain ⟨popped, hinv⟩ := h
  have hinv' := hinv.step_ok hstep
  have hquiet : pushedOf [e] = [] → poppedOf [e] = [] → Holds capacity s' q := by
    intro hpush hpop
    rw [hpush, hpop, List.append_nil, List.append_nil] at hinv'
    exact ⟨popped, hinv'⟩
  unfold effect at heffect
  split at heffect
  · rename_i t
    cases heffect
    have hinv'' : Inv capacity (popped ++ (q ++ [t])) popped s' := by
      rw [show popped ++ poppedOf [.pushed t] = popped from List.append_nil _,
        List.append_assoc] at hinv'
      exact hinv'
    have hlen := hinv''.length_le
    rw [List.length_append, List.length_append, List.length_singleton] at hlen
    exact ⟨q ++ [t], ⟨by omega, rfl⟩, popped, hinv''⟩
  · rename_i v
    cases heffect
    have hinv'' : Inv capacity (popped ++ q) (popped ++ [v]) s' := by
      rw [← List.append_nil (popped ++ q)]
      exact hinv'
    obtain ⟨q', hq'⟩ := (List.prefix_append_right_inj popped).mp hinv''.popped_prefix
    refine ⟨q', hq'.symm, popped ++ [v], ?_⟩
    rw [List.append_assoc, hq']
    exact hinv''
  · rename_i hpushed hpopped
    have hsame : Holds capacity s' q := by
      cases e with
      | pushed t => exact absurd rfl (hpushed t)
      | popped v => exact absurd rfl (hpopped v)
      | _ => exact hquiet rfl rfl
    split at heffect
    · rename_i t rear hproducer
      split at heffect
      · rename_i hle
        cases heffect
        have hok := hinv.producer
        rw [ProducerOk, hproducer] at hok
        rw [wrap, Nat.mod_eq_of_lt hword, hinv.front, hinv.cap, hok, hinv.rear,
          List.length_append] at hle
        exact ⟨q, ⟨Nat.le_of_add_le_add_left hle, rfl⟩, hsame⟩
      · cases heffect
    · rename_i front hconsumer
      split at heffect
      · rename_i hfront
        cases heffect
        have hok := hinv.consumer
        rw [ConsumerOk, hconsumer] at hok
        have hlen := hok.symm.trans hfront
        rw [hinv.front, hinv.rear, List.length_append] at hlen
        exact ⟨q, ⟨List.eq_nil_of_length_eq_zero (by omega), rfl⟩, hsame⟩
      · cases heffect
    · cases heffect

theorem holds_hidden {a : RingAction α} {q : List α} (h : Holds capacity s q)
    (hstep : s.step a = some (.ok (e, s'))) (heffect : s.effect a e = none) :
    Holds capacity s' q := by
  obtain ⟨popped, hinv⟩ := h
  have hinv' := hinv.step_ok hstep
  refine ⟨popped, ?_⟩
  cases e with
  | pushed t => cases heffect
  | popped v => cases heffect
  | _ => simpa [pushedOf, poppedOf] using hinv'

theorem holds_produce {q : List α} (h : Holds capacity s q) (hroom : q.length < capacity)
    (hword : s.buf.front + s.buf.cap < 2 ^ w) (hdecided : s.decided true = [])
    (hstep : s.produce = some (.ok (e, s'))) :
    s'.decided true = [] ∧ ((e = .silent ∧ Holds capacity s' q) ∨
      ∃ t, e = .pushed t ∧ Holds capacity s' (q ++ [t])) := by
  have hnext : s.step .producer = some (.ok (e, s')) := hstep
  obtain ⟨hsame, hback⟩ := effect_produce hstep
  rw [hdecided, List.nil_append] at hsame
  cases heffect : s.effect .producer e with
  | none =>
      rw [heffect, Option.toList_none] at hsame
      obtain ⟨hop, hafter⟩ := List.append_eq_nil_iff.mp hsame.symm
      have hholds := holds_hidden h hnext heffect
      obtain ⟨-, -, -, ⟨rfl, -⟩ | ⟨t, rfl, -⟩ | ⟨t, rfl, -⟩⟩ := produce_cases hstep
      · exact ⟨hafter, .inl ⟨rfl, hholds⟩⟩
      · cases hop
      · cases hop
  | some op =>
      obtain ⟨q', hqueue, hholds⟩ := holds_shown h hword hnext heffect
      rw [heffect, Option.toList_some] at hsame
      cases op with
      | refuse t => exact absurd hqueue.1 (Nat.not_le.mpr hroom)
      | push t =>
          obtain ⟨-, rfl⟩ := hqueue
          obtain ⟨-, -, -, ⟨rfl, -⟩ | ⟨t', rfl, -⟩ | ⟨t', rfl, -⟩⟩ := produce_cases hstep
          · -- Only the store of the counter is a push.
            simp only [effect] at heffect
            split at heffect
            · split at heffect <;> cases heffect
            · contradiction
            · cases heffect
          · cases hsame
          · cases heffect
            exact ⟨(List.cons.inj hsame).2.symm, .inr ⟨_, rfl, hholds⟩⟩
      | pop v => cases hback _ heffect
      | empty => cases hback _ heffect

/-- As long as the sums of `try_push` do not wrap around, a ring buffer is a bounded queue. -/
def simulation (w capacity : Nat) (α : Type) :
    (ringMachine w α).Simulation (fun s _ => s.buf.front + s.buf.cap < 2 ^ w)
      (boundedQueue α capacity) effect where
  Rel := Holds capacity
  shown_step := holds_shown
  hidden_step h _ := holds_hidden h

theorem conserves {log : List (RingEvent α)} {ops : List (QueueOp α)}
    (h : ((ringMachine w α).traced Ring.effect).Run
      (fun p _ => p.1.buf.front + p.1.buf.cap < 2 ^ w) (Ring.init w α capacity, []) log (s, ops)) :
    ∃ q, Ring.Holds capacity s q ∧ QueueOp.pops ops ++ q = QueueOp.pushes ops ∧
      q.length ≤ capacity := by
  obtain ⟨q, hrun, hholds⟩ := (Ring.simulation w capacity α).run ⟨[], Ring.inv_init⟩ h
  exact ⟨q, hholds, Base.boundedQueue.conserves hrun⟩

end Ring

/-- However the threads take turns, every call takes effect at one step between its beginning and
its end, as if the calls were made on a bounded queue one after the other: what has returned at an
end is what has taken effect there, but for the last call when it has not returned yet.  A step
fails only where there are no slots. -/
theorem ring_linearizable {log : List (RingEvent α)} {ops : List (QueueOp α)}
    (h : ((ringMachine w α).traced Ring.effect).Run
      (fun p _ => p.1.buf.front + p.1.buf.cap < 2 ^ w) (Ring.init w α capacity, []) log (s, ops)) :
    (∃ q, (boundedQueue α capacity).Run [] ops q ∧ Ring.Holds capacity s q) ∧
      (∀ back, ops.filter (·.atBack == back) =
        (log.filterMap RingEvent.op).filter (·.atBack == back) ++ s.decided back) ∧
      (s.decided true ≠ [] → s.producer ≠ .idle) ∧
      (s.decided false ≠ [] → s.consumer ≠ .idle) ∧
      ∀ a fault, s.step a = some (.error fault) → 2 ^ (w - 1) < capacity := by
  refine ⟨(Ring.simulation w capacity α).run ⟨[], Ring.inv_init⟩ h, ?_, ?_, ?_, ?_⟩
  · refine h.invariant (I := fun log p => Ring.Answers p.2 log p.1) ?_ ?_
    · rintro (_ | _) <;> rfl
    · rintro log ⟨p, ops⟩ a e ⟨q, ops'⟩ hanswers - hnext
      obtain ⟨hstep, rfl⟩ := Base.Machine.withHistory_step.mp hnext
      exact Ring.answers_step hanswers hstep
  · intro hne hidle
    rw [Ring.decided, hidle] at hne
    exact hne rfl
  · intro hne hidle
    rw [Ring.decided, hidle] at hne
    exact hne rfl
  · intro a fault hstep
    have hrun : (ringMachine w α).Run (fun _ _ => True) (Ring.init w α capacity) log s :=
      Base.Machine.Run.forget (M := ringMachine w α) (fun _ _ _ => trivial) h
    exact ((Ring.inv_of_run hrun).step_fails hstep).2

theorem ring_linearizable_of_one :
    ∃ q, (boundedQueue Nat 1).Run [] [.empty, .push 7, .refuse 8, .pop 7] q ∧
      [QueueOp.push 7, .refuse 8] =
        ([.push 7, .empty, .pop 7, .refuse 8] : List (QueueOp Nat)).filter (·.atBack == true) := by
  let as : List (RingAction Nat) :=
    [.pop, .consumer, .consumer, .consumer, .push 7, .producer, .producer, .producer, .producer,
      .producer, .consumer, .push 8, .producer, .producer, .producer, .pop, .consumer, .consumer,
      .consumer, .consumer, .consumer, .consumer, .producer]
  obtain ⟨⟨log, s, ops⟩, hexec, hops, hlog, hdecided⟩ :
      ∃ r, ((ringMachine 64 Nat).traced Ring.effect).exec
          (fun p _ => p.1.buf.front + p.1.buf.cap < 2 ^ 64) as (Ring.init 64 Nat 1, []) = some r ∧
        r.2.2 = [.empty, .push 7, .refuse 8, .pop 7] ∧
          r.1.filterMap RingEvent.op = [.push 7, .empty, .pop 7, .refuse 8] ∧
            r.2.1.decided true = [] := ⟨_, rfl, rfl, rfl, rfl⟩
  dsimp only at hops hlog hdecided
  subst hops
  obtain ⟨⟨q, hrun, -⟩, hanswers, -⟩ := ring_linearizable (.of_exec as hexec)
  have hback := hanswers true
  rw [hlog, hdecided, List.append_nil] at hback
  exact ⟨q, hrun, hback⟩

end Ruyi.Sync
