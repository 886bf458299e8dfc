import Ruyi.Sync.Channel
import Ruyi.Sync.RingOrder

namespace Ruyi.Sync

variable {w capacity : Nat} {α : Type} {pushed received : List α}

namespace Ring

variable {s s' : Ring w α} {e : RingEvent α}

theorem produce_cases (hstep : s.produce = some (.ok (e, s'))) :
    s'.consumer = s.consumer ∧ s'.buf.front = s.buf.front ∧
      s'.buf.shadowRear = s.buf.shadowRear ∧
      ((e = .silent ∧ s'.buf.rear = s.buf.rear) ∨
        (∃ t, e = .refused t ∧ s'.producer = .idle ∧ s'.buf.rear = s.buf.rear) ∨
        ∃ t, e = .pushed t ∧ s'.producer = .idle) := by
  unfold produce at hstep
  split at hstep
  · cases hstep
  · cases hstep
    exact ⟨rfl, rfl, rfl, .inl ⟨rfl, rfl⟩⟩
  · cases hstep
    exact ⟨rfl, rfl, rfl, .inl ⟨rfl, rfl⟩⟩
  · cases hstep
    exact ⟨rfl, rfl, rfl, .inl ⟨rfl, rfl⟩⟩
  · split at hstep
    · cases hstep
      exact ⟨rfl, rfl, rfl, .inr (.inl ⟨_, rfl, rfl, rfl⟩)⟩
    · cases hstep
      exact ⟨rfl, rfl, rfl, .inl ⟨rfl, rfl⟩⟩
  · obtain ⟨buf, hwrite, hnext⟩ := ok_of_bind_ok (Option.some.inj hstep)
    obtain ⟨-, rfl⟩ := RingBuffer.writeSlot_cases hwrite
    cases hnext
    exact ⟨rfl, rfl, rfl, .inl ⟨rfl, rfl⟩⟩
  · obtain ⟨buf, hwrite, hnext⟩ := ok_of_bind_ok (Option.some.inj hstep)
    obtain ⟨-, rfl⟩ := RingBuffer.writeSlot_cases hwrite
    cases hnext
    exact ⟨rfl, rfl, rfl, .inl ⟨rfl, rfl⟩⟩
  · cases hstep
    exact ⟨rfl, rfl, rfl, .inr (.inr ⟨_, rfl, rfl⟩)⟩

theorem consume_cases (hstep : s.consume = some (.ok (e, s'))) :
    s'.producer = s.producer ∧ s'.buf.rear = s.buf.rear ∧
      ((e = .silent ∧ ∀ front, s'.consumer = .recheck front → s'.buf.shadowRear = s'.buf.rear) ∨
        (e = .empty ∧ s'.buf = s.buf ∧ s'.consumer = .idle ∧
          s.consumer = .recheck s.buf.shadowRear) ∨
        ∃ v, e = .popped v ∧ s'.consumer = .idle) := by
  unfold consume at hstep
  split at hstep
  · cases hstep
  · cases hstep
    refine ⟨rfl, rfl, .inl ⟨rfl, ?_⟩⟩
    intro _ h
    cases h
  · cases hstep
    refine ⟨rfl, rfl, .inl ⟨rfl, ?_⟩⟩
    intro _ h
    dsimp only at h
    split at h <;> cases h
  · cases hstep
    exact ⟨rfl, rfl, .inl ⟨rfl, fun _ _ => rfl⟩⟩
  · rename_i front hconsumer
    split at hstep
    · rename_i heq
      cases hstep
      exact ⟨rfl, rfl, .inr (.inl ⟨rfl, rfl, rfl, heq ▸ hconsumer⟩)⟩
    · cases hstep
      refine ⟨rfl, rfl, .inl ⟨rfl, ?_⟩⟩
      intro _ h
      cases h
  · split at hstep
    · cases hstep
      refine ⟨rfl, rfl, .inl ⟨rfl, ?_⟩⟩
      intro _ h
      cases h
    · cases hstep
    · cases hstep
  · cases hstep
    exact ⟨rfl, rfl, .inr (.inr ⟨_, rfl, rfl⟩)⟩

end Ring

/-- The last `poll` has come to the end of the buffer, and `reset` has not been done since. -/
def Receiver.drained : Receiver → Bool
  | .loadFlag false | .readFd false | .storeFlag false | .scheduleRead | .parked => true
  | _ => false

/-- The sender no longer holds the buffer. -/
def Sender.released : Sender α → Bool
  | .gone | .loadFlag .dropping | .writeFd .dropping | .storeFlag .dropping => true
  | _ => false

/-- The message in the buffer whose call has not returned. -/
def Sender.replying : Sender α → Option α
  | .loadFlag (.reply t) | .writeFd (.reply t) | .storeFlag (.reply t) => some t
  | _ => none

namespace Channel

variable {s s' : Channel w α} {e : ChannelEvent α} {result : Except ErrorKind Unit}

theorem pushing_cases {retry : Bool} (hsender : s.sender = .pushing retry)
    (hstep : s.stepSender result = some (.ok (e, s'))) :
    ∃ event ring, s.ring.produce = some (.ok (event, ring)) ∧
      ((event = .silent ∧ ring.buf.rear = s.ring.buf.rear ∧ e = .silent ∧
          s' = { s with ring := ring }) ∨
        (∃ t, event = .refused t ∧ (ring.producer = .idle ∧ ring.buf.rear = s.ring.buf.rear) ∧
          (e = .silent ∧ s' = { s with ring := ring, sender := .testCount retry t } ∨
            e = .full t ∧ s' = { s with ring := ring, sender := .idle })) ∨
        ∃ t, event = .pushed t ∧ ring.producer = .idle ∧ e = .pushed t ∧
          s' = { s with ring := ring, sender := .loadFlag (.reply t) }) := by
  rw [stepSender, hsender] at hstep
  dsimp only at hstep
  rcases hproduce : s.ring.produce with _ | fault | ⟨event, ring⟩
  · rw [hproduce] at hstep
    cases hstep
  · rw [hproduce] at hstep
    cases hstep
  · refine ⟨event, ring, rfl, ?_⟩
    obtain ⟨-, -, -, hend⟩ := Ring.produce_cases hproduce
    rw [hproduce] at hstep
    rcases hend with ⟨rfl, hrear⟩ | ⟨t, rfl, hidle⟩ | ⟨t, rfl, hidle⟩
    · cases hstep
      exact .inl ⟨rfl, hrear, rfl, hsender ▸ rfl⟩
    · dsimp only at hstep
      split at hstep
      · cases hstep
        exact .inr (.inl ⟨t, rfl, hidle, .inl ⟨rfl, rfl⟩⟩)
      · cases hstep
        exact .inr (.inl ⟨t, rfl, hidle, .inr ⟨rfl, rfl⟩⟩)
    · cases hstep
      exact .inr (.inr ⟨t, rfl, hidle, rfl, rfl⟩)

theorem popping_cases (hreceiver : s.receiver = .popping)
    (hstep : s.stepReceiver result = some (.ok (e, s'))) :
    ∃ event ring, s.ring.consume = some (.ok (event, ring)) ∧
      ((event = .silent ∧
          (∀ front, ring.consumer = .recheck front → ring.buf.shadowRear = ring.buf.rear) ∧
          e = .silent ∧ s' = { s with ring := ring }) ∨
        (event = .empty ∧ (ring.buf = s.ring.buf ∧ ring.consumer = .idle ∧
            s.ring.consumer = .recheck s.ring.buf.shadowRear) ∧
          e = .silent ∧ s' = { s with ring := ring, receiver := .testCount }) ∨
        ∃ v, event = .popped v ∧ ring.consumer = .idle ∧ e = .received v ∧
          s' = { s with ring := ring, receiver := .idle }) := by
  unfold stepReceiver at hstep
  rw [hreceiver] at hstep
  dsimp only at hstep
  rcases hconsume : s.ring.consume with _ | fault | ⟨event, ring⟩
  · rw [hconsume] at hstep
    cases hstep
  · rw [hconsume] at hstep
    cases hstep
  · refine ⟨event, ring, rfl, ?_⟩
    obtain ⟨-, -, hend⟩ := Ring.consume_cases hconsume
    rw [hconsume] at hstep
    rcases hend with ⟨rfl, hloaded⟩ | ⟨rfl, hempty⟩ | ⟨v, rfl, hidle⟩
    · cases hstep
      exact .inl ⟨rfl, hloaded, rfl, hreceiver ▸ rfl⟩
    · cases hstep
      exact .inr (.inl ⟨rfl, hempty, rfl, rfl⟩)
    · cases hstep
      exact .inr (.inr ⟨v, rfl, hidle, rfl, rfl⟩)

/-- The messages in the order they become visible in the buffer. -/
def pushedOf (log : List (ChannelEvent α)) : List α :=
  log.filterMap fun
    | .pushed t => some t
    | _ => none

/-- The messages of the calls of `send` and `try_send` that have returned `Ok(())`. -/
def sentOf (log : List (ChannelEvent α)) : List α :=
  log.filterMap fun
    | .sent t => some t
    | _ => none

def receivedOf (log : List (ChannelEvent α)) : List α :=
  log.filterMap fun
    | .received t => some t
    | _ => none

/-- The invariant of the buffer, its owners and the end of the last `poll`. -/
structure Inv (capacity : Nat) (pushed received : List α) (s : Channel w α) : Prop where
  ring : Ring.Inv capacity pushed received s.ring
  producer : (∀ retry, s.sender ≠ .pushing retry) → s.ring.producer = .idle
  consumer : s.receiver ≠ .popping → s.ring.consumer = .idle
  count : s.strongCount =
    (if s.sender.released then 0 else 1) + (if s.receiver = .gone then 0 else 1)
  drained : s.needReset = true ∨ s.receiver = .testCount →
    s.ring.buf.front = s.ring.buf.shadowRear
  waiting : s.receiver.drained = true → s.needReset = true
  popping : s.receiver = .popping → s.needReset = false

theorem inv_init : Inv capacity [] [] (init w α capacity) where
  ring := Ring.inv_init
  producer _ := rfl
  consumer _ := rfl
  count := rfl
  drained _ := rfl
  waiting h := by cases h
  popping h := by cases h

namespace Inv

theorem of_sender (h : Inv capacity pushed received s) {sender : Sender α} {awakener : Awakener}
    (hpushing : ∀ retry, s.sender ≠ .pushing retry)
    (hreleased : sender.released = s.sender.released) :
    Inv capacity pushed received { s with sender := sender, awakener := awakener } :=
  { h with
    producer := fun _ => h.producer hpushing
    count := by
      rw [hreleased]
      exact h.count }

theorem of_receiver (h : Inv capacity pushed received s) {receiver : Receiver}
    {awakener : Awakener} (hpopping : s.receiver ≠ .popping) (hgone : s.receiver ≠ .gone)
    (hother : receiver ≠ .popping ∧ receiver ≠ .testCount ∧ receiver ≠ .gone)
    (hwaiting : receiver.drained = true → s.needReset = true) :
    Inv capacity pushed received { s with receiver := receiver, awakener := awakener } :=
  { h with
    consumer := fun _ => h.consumer hpopping
    count := by
      have hcount := h.count
      rw [if_neg hgone] at hcount
      rw [if_neg hother.2.2]
      exact hcount
    drained := by
      intro hdrained
      rcases hdrained with hreset | hreceiver
      · exact h.drained (.inl hreset)
      · exact absurd hreceiver hother.2.1
    waiting := hwaiting
    popping := fun hpopping => absurd hpopping hother.1 }

theorem of_quiet (hpush : pushedOf [e] = []) (hreceive : receivedOf [e] = [])
    (h : Inv capacity pushed received s) :
    Inv capacity (pushed ++ pushedOf [e]) (received ++ receivedOf [e]) s := by
  rw [hpush, hreceive, List.append_nil, List.append_nil]
  exact h

theorem of_wokenUp (h : Inv capacity pushed received s) {k : Wakeup α} {awakener : Awakener}
    (hpushing : ∀ retry, s.sender ≠ .pushing retry)
    (hk : s.sender.released = (Sender.loadFlag k).released)
    (hr : wokenUp { s with awakener := awakener } k = (e, s')) :
    Inv capacity (pushed ++ pushedOf [e]) (received ++ receivedOf [e]) s' := by
  cases k <;> cases hr <;> exact .of_quiet rfl rfl (h.of_sender hpushing hk.symm)

theorem of_wakeupFailed (h : Inv capacity pushed received s) {k : Wakeup α} {kind : ErrorKind}
    (hpushing : ∀ retry, s.sender ≠ .pushing retry)
    (hk : s.sender.released = (Sender.loadFlag k).released)
    (hr : s.wakeupFailed kind k = (e, s')) :
    Inv capacity (pushed ++ pushedOf [e]) (received ++ receivedOf [e]) s' := by
  cases k <;> cases hr <;> exact .of_quiet rfl rfl (h.of_sender hpushing hk.symm)

theorem sender_testCount (h : Inv capacity pushed received s) {retry : Bool} {t : α}
    (hsender : s.sender = .testCount retry t)
    (hstep : s.stepSender result = some (.ok (e, s'))) :
    Inv capacity (pushed ++ pushedOf [e]) (received ++ receivedOf [e]) s' := by
  have hpushing : ∀ retry, s.sender ≠ .pushing retry := by simp [hsender]
  rw [stepSender, hsender] at hstep
  dsimp only at hstep
  split at hstep
  · cases hstep
    refine .of_quiet rfl rfl (h.of_sender hpushing ?_)
    rw [hsender]
    rfl
  · cases hstep
    refine .of_quiet rfl rfl { h with
      ring := h.ring.of_call_push (h.producer hpushing) t, producer := ?_, count := ?_ }
    · exact fun hne => absurd rfl (hne retry)
    · have hcount := h.count
      rw [hsender] at hcount
      exact hcount

theorem sender_pushing (h : Inv capacity pushed received s) {retry : Bool}
    (hsender : s.sender = .pushing retry) (hstep : s.stepSender result = some (.ok (e, s'))) :
    Inv capacity (pushed ++ pushedOf [e]) (received ++ receivedOf [e]) s' := by
  have hcount := h.count
  rw [hsender] at hcount
  obtain ⟨event, ring, hproduce, hcases⟩ := pushing_cases hsender hstep
  have hring := h.ring.produce_ok hproduce
  obtain ⟨hconsumer, hfront, hshadow, -⟩ := Ring.produce_cases hproduce
  have hdrained : s.needReset = true ∨ s.receiver = .testCount →
      ring.buf.front = ring.buf.shadowRear := by
    rw [hfront, hshadow]
    exact h.drained
  have hidle : s.receiver ≠ .popping → ring.consumer = .idle := by
    rw [hconsumer]
    exact h.consumer
  rcases hcases with ⟨rfl, -, rfl, rfl⟩ | ⟨t, rfl, ⟨hproducer, -⟩, ⟨rfl, rfl⟩ | ⟨rfl, rfl⟩⟩ |
    ⟨t, rfl, hproducer, rfl, rfl⟩
  · exact ⟨hring, fun hne => absurd hsender (hne retry), hidle, hsender ▸ hcount, hdrained,
      h.waiting, h.popping⟩
  · exact ⟨hring, fun _ => hproducer, hidle, hcount, hdrained, h.waiting, h.popping⟩
  · exact ⟨hring, fun _ => hproducer, hidle, hcount, hdrained, h.waiting, h.popping⟩
  · exact ⟨hring, fun _ => hproducer, hidle, hcount, hdrained, h.waiting, h.popping⟩

theorem sender_loadFlag (h : Inv capacity pushed received s) {k : Wakeup α}
    (hsender : s.sender = .loadFlag k) (hstep : s.stepSender result = some (.ok (e, s'))) :
    Inv capacity (pushed ++ pushedOf [e]) (received ++ receivedOf [e]) s' := by
  have hpushing : ∀ retry, s.sender ≠ .pushing retry := by simp [hsender]
  rw [stepSender, hsender] at hstep
  dsimp only at hstep
  split at hstep
  · cases hstep
    refine .of_quiet rfl rfl (h.of_sender hpushing ?_)
    rw [hsender]
    cases k <;> rfl
  · exact h.of_wokenUp hpushing (by rw [hsender]) (Except.ok.inj (Option.some.inj hstep))

theorem sender_writeFd (h : Inv capacity pushed received s) {k : Wakeup α}
    (hsender : s.sender = .writeFd k) (hstep : s.stepSender result = some (.ok (e, s'))) :
    Inv capacity (pushed ++ pushedOf [e]) (received ++ receivedOf [e]) s' := by
  have hpushing : ∀ retry, s.sender ≠ .pushing retry := by simp [hsender]
  have hk : s.sender.released = (Sender.loadFlag k).released := by
    rw [hsender]
    cases k <;> rfl
  rw [stepSender, hsender] at hstep
  dsimp only at hstep
  split at hstep
  · cases hstep
    refine .of_quiet rfl rfl (h.of_sender hpushing ?_)
    rw [hk]
    cases k <;> rfl
  · exact h.of_wakeupFailed hpushing hk (Except.ok.inj (Option.some.inj hstep))

theorem sender_ok (h : Inv capacity pushed received s)
    (hstep : s.stepSender result = some (.ok (e, s'))) :
    Inv capacity (pushed ++ pushedOf [e]) (received ++ receivedOf [e]) s' := by
  cases hsender : s.sender with
  | idle | gone =>
      rw [stepSender, hsender] at hstep
      cases hstep
  | testCount retry t => exact h.sender_testCount hsender hstep
  | pushing retry => exact h.sender_pushing hsender hstep
  | release =>
      have hpushing : ∀ retry, s.sender ≠ .pushing retry := by simp [hsender]
      have hcount := h.count
      rw [hsender] at hcount
      rw [stepSender, hsender] at hstep
      cases hstep
      refine .of_quiet rfl rfl { h with producer := fun _ => h.producer hpushing, count := ?_ }
      show s.strongCount - 1 = 0 + _
      rw [hcount, Nat.zero_add]
      exact Nat.add_sub_cancel_left 1 _
  | loadFlag k => exact h.sender_loadFlag hsender hstep
  | writeFd k => exact h.sender_writeFd hsender hstep
  | storeFlag k =>
      have hpushing : ∀ retry, s.sender ≠ .pushing retry := by simp [hsender]
      have hk : s.sender.released = (Sender.loadFlag k).released := by
        rw [hsender]
        cases k <;> rfl
      rw [stepSender, hsender] at hstep
      exact h.of_wokenUp hpushing hk (Except.ok.inj (Option.some.inj hstep))

theorem of_resetDone (h : Inv capacity pushed received s) {awakener : Awakener} {dropping : Bool}
    (hpopping : s.receiver ≠ .popping) (hgone : s.receiver ≠ .gone) :
    Inv capacity pushed received (resetDone { s with awakener := awakener } dropping) := by
  cases dropping with
  | true =>
      apply h.of_receiver hpopping hgone <;> simp [Receiver.drained]
  | false =>
      have hcount := h.count
      rw [if_neg hgone] at hcount
      exact { h with
        ring := h.ring.of_call_pop (h.consumer hpopping)
        consumer := fun hne => absurd rfl hne
        count := hcount
        drained := by simp [resetDone]
        waiting := by simp [resetDone, Receiver.drained]
        popping := fun _ => rfl }

theorem of_resetFailed (h : Inv capacity pushed received s) {dropping : Bool} {kind : ErrorKind}
    (hreceiver : s.receiver = .readFd dropping) (hr : s.resetFailed kind dropping = (e, s')) :
    Inv capacity (pushed ++ pushedOf [e]) (received ++ receivedOf [e]) s' := by
  have hpopping : s.receiver ≠ .popping := by simp [hreceiver]
  have hgone : s.receiver ≠ .gone := by simp [hreceiver]
  cases dropping with
  | true =>
      cases hr
      refine .of_quiet rfl rfl (h.of_receiver hpopping hgone ?_ ?_) <;> simp [Receiver.drained]
  | false =>
      have hreset : s.needReset = true := h.waiting (by rw [hreceiver]; rfl)
      rw [resetFailed] at hr
      split at hr
      · cases hr
        exact .of_quiet rfl rfl
          (h.of_receiver hpopping hgone (by simp) fun _ => hreset)
      · cases hr
        refine .of_quiet rfl rfl (h.of_receiver hpopping hgone ?_ ?_) <;>
          simp [Receiver.drained]

theorem receiver_loadFlag (h : Inv capacity pushed received s) {dropping : Bool}
    (hreceiver : s.receiver = .loadFlag dropping)
    (hstep : s.stepReceiver result = some (.ok (e, s'))) :
    Inv capacity (pushed ++ pushedOf [e]) (received ++ receivedOf [e]) s' := by
  have hpopping : s.receiver ≠ .popping := by simp [hreceiver]
  have hgone : s.receiver ≠ .gone := by simp [hreceiver]
  unfold stepReceiver at hstep
  rw [hreceiver] at hstep
  dsimp only at hstep
  split at hstep
  · cases hstep
    exact .of_quiet rfl rfl (h.of_resetDone hpopping hgone)
  · cases hstep
    refine .of_quiet rfl rfl (h.of_receiver hpopping hgone (by simp) fun hdrained => ?_)
    cases dropping with
    | true => cases hdrained
    | false => exact h.waiting (by rw [hreceiver]; rfl)

theorem receiver_readFd (h : Inv capacity pushed received s) {dropping : Bool}
    (hreceiver : s.receiver = .readFd dropping)
    (hstep : s.stepReceiver result = some (.ok (e, s'))) :
    Inv capacity (pushed ++ pushedOf [e]) (received ++ receivedOf [e]) s' := by
  have hpopping : s.receiver ≠ .popping := by simp [hreceiver]
  have hgone : s.receiver ≠ .gone := by simp [hreceiver]
  unfold stepReceiver at hstep
  rw [hreceiver] at hstep
  dsimp only at hstep
  split at hstep
  · cases hstep
    refine .of_quiet rfl rfl (h.of_receiver hpopping hgone (by simp) fun hdrained => ?_)
    cases dropping with
    | true => cases hdrained
    | false => exact h.waiting (by rw [hreceiver]; rfl)
  · exact h.of_resetFailed hreceiver (Except.ok.inj (Option.some.inj hstep))

theorem receiver_popping (h : Inv capacity pushed received s) (hreceiver : s.receiver = .popping)
    (hstep : s.stepReceiver result = some (.ok (e, s'))) :
    Inv capacity (pushed ++ pushedOf [e]) (received ++ receivedOf [e]) s' := by
  have hreset := h.popping hreceiver
  have hcount := h.count
  rw [hreceiver] at hcount
  obtain ⟨event, ring, hconsume, hcases⟩ := popping_cases hreceiver hstep
  obtain ⟨_, _, heq, hring⟩ := h.ring.consume_ok hconsume
  cases heq
  have hproducer := (Ring.consume_cases hconsume).1
  have hidle : (∀ retry, s.sender ≠ .pushing retry) → ring.producer = .idle := by
    rw [hproducer]
    exact h.producer
  rcases hcases with ⟨rfl, -, rfl, rfl⟩ | ⟨rfl, ⟨hbuf, hconsumer, hrecheck⟩, rfl, rfl⟩ |
    ⟨v, rfl, hconsumer, rfl, rfl⟩
  · exact ⟨hring, hidle, fun hne => absurd hreceiver hne, hreceiver ▸ hcount,
      by simp [hreset, hreceiver], by simp [hreceiver, Receiver.drained], fun _ => hreset⟩
  · have hfront := h.ring.consumer
    rw [Ring.ConsumerOk, hrecheck] at hfront
    exact ⟨hring, hidle, fun _ => hconsumer, hcount, fun _ => hbuf ▸ hfront.symm,
      by simp [Receiver.drained], by simp⟩
  · exact ⟨hring, hidle, fun _ => hconsumer, hcount, by simp [hreset], by simp [Receiver.drained],
      by simp⟩

theorem receiver_testCount (h : Inv capacity pushed received s)
    (hreceiver : s.receiver = .testCount)
    (hstep : s.stepReceiver result = some (.ok (e, s'))) :
    Inv capacity (pushed ++ pushedOf [e]) (received ++ receivedOf [e]) s' := by
  have hempty := h.drained (.inr hreceiver)
  have hconsumer := h.consumer (by simp [hreceiver])
  have hcount := h.count
  rw [hreceiver] at hcount
  unfold stepReceiver at hstep
  rw [hreceiver] at hstep
  dsimp only at hstep
  split at hstep <;> cases hstep <;>
    exact .of_quiet rfl rfl
      ⟨h.ring, h.producer, fun _ => hconsumer, hcount, fun _ => hempty, fun _ => rfl, by simp⟩

theorem receiver_release (h : Inv capacity pushed received s) (hreceiver : s.receiver = .release)
    (hstep : s.stepReceiver result = some (.ok (e, s'))) :
    Inv capacity (pushed ++ pushedOf [e]) (received ++ receivedOf [e]) s' := by
  have hconsumer := h.consumer (by simp [hreceiver])
  have hcount := h.count
  have hdrained := h.drained
  rw [hreceiver] at hcount hdrained
  unfold stepReceiver at hstep
  rw [hreceiver] at hstep
  cases hstep
  refine .of_quiet rfl rfl
    ⟨h.ring, h.producer, fun _ => hconsumer, ?_, ?_, by simp [Receiver.drained], by simp⟩
  · show s.strongCount - 1 = _ + 0
    rw [hcount]
    rfl
  · rintro (hreset | hreceiver)
    · exact hdrained (.inl hreset)
    · cases hreceiver

theorem receiver_ok (h : Inv capacity pushed received s)
    (hstep : s.stepReceiver result = some (.ok (e, s'))) :
    Inv capacity (pushed ++ pushedOf [e]) (received ++ receivedOf [e]) s' := by
  cases hreceiver : s.receiver with
  | idle | parked | gone =>
      unfold stepReceiver at hstep
      rw [hreceiver] at hstep
      cases hstep
  | loadFlag dropping => exact h.receiver_loadFlag hreceiver hstep
  | readFd dropping => exact h.receiver_readFd hreceiver hstep
  | storeFlag dropping =>
      unfold stepReceiver at hstep
      rw [hreceiver] at hstep
      cases hstep
      exact .of_quiet rfl rfl (h.of_resetDone (by simp [hreceiver]) (by simp [hreceiver]))
  | popping => exact h.receiver_popping hreceiver hstep
  | testCount => exact h.receiver_testCount hreceiver hstep
  | scheduleRead =>
      have hreset : s.needReset = true := h.waiting (by rw [hreceiver]; rfl)
      unfold stepReceiver at hstep
      rw [hreceiver] at hstep
      dsimp only at hstep
      split at hstep <;> cases hstep <;>
        exact .of_quiet rfl rfl
          (h.of_receiver (by simp [hreceiver]) (by simp [hreceiver]) (by simp) fun _ => hreset)
  | release => exact h.receiver_release hreceiver hstep

theorem of_startPoll (h : Inv capacity pushed received s)
    (hreceiver : s.receiver = .idle ∨ s.receiver = .parked) :
    Inv capacity pushed received s.startPoll := by
  have hpopping : s.receiver ≠ .popping := by rcases hreceiver with h | h <;> simp [h]
  have hgone : s.receiver ≠ .gone := by rcases hreceiver with h | h <;> simp [h]
  rw [startPoll]
  split
  · rename_i hreset
    exact h.of_receiver hpopping hgone (by simp) fun _ => hreset
  · rename_i hreset
    have hcount := h.count
    rw [if_neg hgone] at hcount
    exact { h with
      ring := h.ring.of_call_pop (h.consumer hpopping)
      consumer := fun hne => absurd rfl hne
      count := hcount
      drained := by simp [hreset]
      waiting := by simp [Receiver.drained]
      popping := fun _ => Bool.eq_false_iff.mpr hreset }

theorem step_ok (h : Inv capacity pushed received s) {a : ChannelAction α}
    (hstep : s.step a = some (.ok (e, s'))) :
    Inv capacity (pushed ++ pushedOf [e]) (received ++ receivedOf [e]) s' := by
  cases a with
  | send retry t =>
      rw [step] at hstep
      split at hstep
      · rename_i hsender
        cases hstep
        refine .of_quiet rfl rfl (h.of_sender (by simp [hsender]) ?_)
        rw [hsender]
        rfl
      · cases hstep
  | dropSender =>
      rw [step] at hstep
      split at hstep
      · rename_i hsender
        cases hstep
        refine .of_quiet rfl rfl (h.of_sender (by simp [hsender]) ?_)
        rw [hsender]
        rfl
      · cases hstep
  | sender result => exact h.sender_ok hstep
  | poll =>
      rw [step] at hstep
      split at hstep
      · rename_i hreceiver
        cases hstep
        exact .of_quiet rfl rfl (h.of_startPoll (.inl hreceiver))
      · rename_i hreceiver
        cases hstep
        exact .of_quiet rfl rfl (h.of_startPoll (.inr hreceiver))
      · cases hstep
  | dropReceiver =>
      rw [step] at hstep
      split at hstep
      · rename_i hreceiver
        cases hstep
        refine .of_quiet rfl rfl (h.of_receiver ?_ ?_ ?_ ?_) <;>
          simp [hreceiver, Receiver.drained]
      · rename_i hreceiver
        cases hstep
        refine .of_quiet rfl rfl (h.of_receiver ?_ ?_ ?_ ?_) <;>
          simp [hreceiver, Receiver.drained]
      · cases hstep
  | receiver result => exact h.receiver_ok hstep

theorem sender_fails (h : Inv capacity pushed received s) {fault : Fault}
    (hstep : s.stepSender result = some (.error fault)) :
    fault = .outOfBounds ∧ 2 ^ (w - 1) < capacity := by
  cases hsender : s.sender with
  | pushing retry =>
      rw [stepSender, hsender] at hstep
      dsimp only at hstep
      split at hstep
      · cases hstep
      · rename_i hproduce
        cases hstep
        exact h.ring.produce_fails hproduce
      · cases hstep
      · split at hstep <;> cases hstep
      · cases hstep
  | testCount | loadFlag | writeFd =>
      rw [stepSender, hsender] at hstep
      dsimp only at hstep
      split at hstep <;> cases hstep
  | idle | gone | release | storeFlag =>
      rw [stepSender, hsender] at hstep
      cases hstep

theorem receiver_ne_error (h : Inv capacity pushed received s) {fault : Fault} :
    s.stepReceiver result ≠ some (.error fault) := by
  intro hstep
  unfold stepReceiver at hstep
  cases hreceiver : s.receiver with
  | popping =>
      rw [hreceiver] at hstep
      dsimp only at hstep
      split at hstep
      · cases hstep
      · rename_i hconsume
        obtain ⟨_, _, heq, -⟩ := h.ring.consume_ok hconsume
        cases heq
      all_goals cases hstep
  | loadFlag | readFd | testCount | scheduleRead =>
      rw [hreceiver] at hstep
      dsimp only at hstep
      split at hstep <;> cases hstep
  | idle | parked | gone | storeFlag | release =>
      rw [hreceiver] at hstep
      cases hstep

theorem step_fails (h : Inv capacity pushed received s) {a : ChannelAction α} {fault : Fault}
    (hstep : s.step a = some (.error fault)) : fault = .outOfBounds ∧ 2 ^ (w - 1) < capacity := by
  cases a with
  | sender result => exact h.sender_fails hstep
  | receiver result => exact absurd hstep h.receiver_ne_error
  | send | dropSender | poll | dropReceiver =>
      rw [step] at hstep
      split at hstep <;> cases hstep

theorem snoc {log : List (ChannelEvent α)}
    (h : Inv capacity (pushedOf log) (receivedOf log) s) {a : ChannelAction α}
    (hstep : s.step a = some (.ok (e, s'))) :
    Inv capacity (pushedOf (log ++ [e])) (receivedOf (log ++ [e])) s' := by
  simp only [pushedOf, receivedOf, List.filterMap_append]
  exact h.step_ok hstep

end Inv

theorem inv_of_run {log : List (ChannelEvent α)} {ok : Channel w α → ChannelAction α → Prop}
    (h : (channelMachine w α).Run ok (init w α capacity) log s) :
    Inv capacity (pushedOf log) (receivedOf log) s :=
  h.invariant (I := fun log s => Inv capacity (pushedOf log) (receivedOf log) s) inv_init
    fun hinv _ hstep => hinv.snoc hstep

end Channel

end Ruyi.Sync
