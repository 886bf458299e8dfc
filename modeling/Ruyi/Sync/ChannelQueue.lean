import Ruyi.Sync.ChannelSends
import Ruyi.Sync.RingQueue

namespace Ruyi.Sync

/-- The actions of the thread that has the `Recv`. -/
def ChannelAction.atReceiver {α : Type} : ChannelAction α → Bool
  | .poll | .dropReceiver | .receiver _ => true
  | .send _ _ | .dropSender | .sender _ => false

namespace Channel

variable {w capacity : Nat} {α : Type} {s s' : Channel w α} {e : ChannelEvent α}
  {a : ChannelAction α} {result : Except ErrorKind Unit} {q : List α}

/-- A channel carries a queue. -/
def Holds (capacity : Nat) (s : Channel w α) (q : List α) : Prop :=
  ∃ received, Inv capacity (received ++ q) received s

theorem holds_init : (init w α capacity).Holds capacity [] := ⟨[], inv_init⟩

theorem holds_step (h : s.Holds capacity q) (hstep : s.step a = some (.ok (e, s'))) :
    ∃ q', s'.Holds capacity q' ∧ q ++ pushedOf [e] = receivedOf [e] ++ q' := by
  obtain ⟨received, hinv⟩ := h
  have hnext := hinv.step_ok hstep
  have hprefix := hnext.ring.popped_prefix
  rw [List.append_assoc] at hprefix
  obtain ⟨q', hq'⟩ := (List.prefix_append_right_inj received).mp hprefix
  refine ⟨q', ⟨received ++ receivedOf [e], ?_⟩, hq'.symm⟩
  rw [List.append_assoc, hq', ← List.append_assoc]
  exact hnext

theorem holds_quiet (h : s.Holds capacity q) (hstep : s.step a = some (.ok (e, s')))
    (hpush : pushedOf [e] = []) (hreceive : receivedOf [e] = []) : s'.Holds capacity q := by
  obtain ⟨q', hholds, heq⟩ := holds_step h hstep
  rw [hpush, hreceive, List.append_nil, List.nil_append] at heq
  exact heq ▸ hholds

theorem ring_of_receiver (hstep : s.stepReceiver result = some (.ok (e, s'))) :
    s'.ring = s.ring ∨ s'.ring = { s.ring with consumer := .loadFront } ∨
      ∃ event, s.ring.consume = some (.ok (event, s'.ring)) := by
  cases hreceiver : s.receiver with
  | idle | parked | gone =>
      unfold stepReceiver at hstep
      rw [hreceiver] at hstep
      cases hstep
  | loadFlag dropping =>
      unfold stepReceiver at hstep
      rw [hreceiver] at hstep
      dsimp only at hstep
      split at hstep <;> cases dropping <;> cases hstep
      · exact .inr (.inl rfl)
      all_goals exact .inl rfl
  | readFd dropping =>
      unfold stepReceiver at hstep
      rw [hreceiver] at hstep
      dsimp only at hstep
      split at hstep
      · cases hstep
        exact .inl rfl
      · cases dropping with
        | true =>
            cases hstep
            exact .inl rfl
        | false =>
            rw [resetFailed] at hstep
            split at hstep <;> cases hstep <;> exact .inl rfl
  | storeFlag dropping =>
      unfold stepReceiver at hstep
      rw [hreceiver] at hstep
      cases dropping <;> cases hstep
      · exact .inr (.inl rfl)
      · exact .inl rfl
  | popping =>
      obtain ⟨event, ring, hconsume, hcases⟩ := popping_cases hreceiver hstep
      refine .inr (.inr ⟨event, ?_⟩)
      rcases hcases with ⟨-, -, -, rfl⟩ | ⟨-, -, -, rfl⟩ | ⟨v, -, -, -, rfl⟩ <;> exact hconsume
  | testCount | scheduleRead =>
      unfold stepReceiver at hstep
      rw [hreceiver] at hstep
      dsimp only at hstep
      split at hstep <;> cases hstep <;> exact .inl rfl
  | release =>
      unfold stepReceiver at hstep
      rw [hreceiver] at hstep
      cases hstep
      exact .inl rfl

theorem receiver_frame (ha : a.atReceiver = true) (hstep : s.step a = some (.ok (e, s'))) :
    s'.sender = s.sender ∧ s'.ring.producer = s.ring.producer ∧
      s'.ring.decided true = s.ring.decided true ∧ pushedOf [e] = [] := by
  cases a with
  | send | dropSender | sender => cases ha
  | poll =>
      have hpoll : s.startPoll.sender = s.sender ∧
          s.startPoll.ring.producer = s.ring.producer ∧
          s.startPoll.ring.decided true = s.ring.decided true := by
        rw [startPoll]
        split <;> exact ⟨rfl, rfl, rfl⟩
      rw [step] at hstep
      split at hstep
      · cases hstep
        exact ⟨hpoll.1, hpoll.2.1, hpoll.2.2, rfl⟩
      · cases hstep
        exact ⟨hpoll.1, hpoll.2.1, hpoll.2.2, rfl⟩
      · cases hstep
  | dropReceiver =>
      rw [step] at hstep
      split at hstep <;> cases hstep <;> exact ⟨rfl, rfl, rfl, rfl⟩
  | receiver result =>
      obtain ⟨hsender, hproducer, -, hpush, -⟩ := receiver_cases hstep
      refine ⟨hsender, hproducer, ?_, hpush⟩
      rcases ring_of_receiver hstep with hring | hring | ⟨event, hconsume⟩
      · rw [hring]
      · rw [hring]
        rfl
      · exact Ring.decided_consume hconsume

theorem push_of_room {retry : Bool} {t : α} (h : s.Holds capacity q) (hroom : q.length < capacity)
    (hword : s.ring.buf.front + s.ring.buf.cap < 2 ^ w) (hdecided : s.ring.decided true = [])
    (hsender : s.sender = .pushing retry) (hvalue : s.ring.producer.value = some t)
    (hstep : s.stepSender result = some (.ok (e, s'))) :
    s'.ring.decided true = [] ∧
      ((e = .silent ∧ s'.sender = .pushing retry ∧ s'.ring.producer.value = some t) ∨
        e = .pushed t ∧ s'.sender = .loadFlag (.reply t)) := by
  obtain ⟨received, hinv⟩ := h
  obtain ⟨event, ring, hproduce, hcases⟩ := pushing_cases hsender hstep
  have hend := Ring.value_of_produce hvalue hproduce
  obtain ⟨hafter, hroomed⟩ :=
    Ring.holds_produce ⟨received, hinv.ring⟩ hroom hword hdecided hproduce
  rcases hcases with ⟨rfl, -, rfl, rfl⟩ | ⟨u, rfl, -⟩ | ⟨u, rfl, -, rfl, rfl⟩
  · have hkept : ring.producer.value = some t := by simpa using hend
    exact ⟨hafter, .inl ⟨rfl, hsender, hkept⟩⟩
  · rcases hroomed with ⟨heq, -⟩ | ⟨_, heq, -⟩ <;> cases heq
  · obtain rfl : u = t := by simpa using hend
    exact ⟨hafter, .inr ⟨rfl, rfl⟩⟩

theorem replying_cases {t : α} (hreplying : s.sender.replying = some t)
    (hstep : s.stepSender result = some (.ok (e, s'))) :
    s'.ring = s.ring ∧ ((e = .silent ∧ s'.sender.replying = some t) ∨
      s'.sender = .idle ∧ (e = .sent t ∨ ∃ kind, e = .sendFailed kind)) := by
  unfold Sender.replying at hreplying
  split at hreplying
  · rename_i hsender
    cases hreplying
    rw [stepSender, hsender] at hstep
    dsimp only at hstep
    split at hstep <;> cases hstep
    · exact ⟨rfl, .inl ⟨rfl, rfl⟩⟩
    · exact ⟨rfl, .inr ⟨rfl, .inl rfl⟩⟩
  · rename_i hsender
    cases hreplying
    rw [stepSender, hsender] at hstep
    dsimp only at hstep
    split at hstep <;> cases hstep
    · exact ⟨rfl, .inl ⟨rfl, rfl⟩⟩
    · exact ⟨rfl, .inr ⟨rfl, .inr ⟨_, rfl⟩⟩⟩
  · rename_i hsender
    cases hreplying
    rw [stepSender, hsender] at hstep
    cases hstep
    exact ⟨rfl, .inr ⟨rfl, .inl rfl⟩⟩
  · cases hreplying

end Channel

end Ruyi.Sync
