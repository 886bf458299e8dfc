import Ruyi.Sync.ChannelOrder

namespace Ruyi.Sync

/-- The write of the eventfd is the next step. -/
def Sender.writing {α : Type} : Sender α → Bool
  | .writeFd _ => true
  | _ => false

/-- The load of the flag, or the write of the eventfd, is the next step. -/
def Sender.waking {α : Type} : Sender α → Bool
  | .loadFlag _ | .writeFd _ => true
  | _ => false

namespace Channel

variable {w capacity : Nat} {α : Type} {s s' : Channel w α} {e : ChannelEvent α}
  {pushed received : List α} {result : Except ErrorKind Unit}

/-- What the kernel promises: the write fails only with `WouldBlock`, and only when the
counter of the eventfd is not zero. -/
def EventFd (s : Channel w α) : ChannelAction α → Prop
  | .sender (.error kind) =>
      s.sender.writing = true → kind = .wouldBlock ∧ s.awakener.eventFd ≠ 0
  | _ => True

instance (s : Channel w α) (a : ChannelAction α) : Decidable (EventFd s a) := by
  rcases a with ⟨retry, t⟩ | _ | ⟨kind | _⟩ | _ | _ | _ <;> unfold EventFd <;> infer_instance

/-- The eventfd is readable, or becomes so within `n` steps of the sender. -/
def Wakes : Nat → Channel w α → Prop
  | 0, s => s.awakener.eventFd ≠ 0
  | n + 1, s =>
      s.awakener.eventFd ≠ 0 ∨
        ∀ result, EventFd s (.sender result) →
          ∃ e s', s.stepSender result = some (.ok (e, s')) ∧ Wakes n s'

/-- The receiver does not look at the counter of the producer again before it parks. -/
def Looked (s : Channel w α) : Prop :=
  match s.receiver with
  | .popping => ∃ front, s.ring.consumer = .recheck front
  | .testCount | .scheduleRead | .parked => True
  | _ => False

/-- Nothing makes the eventfd readable but a `wakeup` to come. -/
def Quiet (s : Channel w α) : Prop := s.awakener.needWakeup = true ∧ s.awakener.eventFd = 0

/-- The flag, the eventfd and the buffer agree. -/
structure Awake (s : Channel w α) : Prop where
  signalled : s.awakener.needWakeup = false → (∀ d, s.receiver ≠ .storeFlag d) →
    s.awakener.eventFd ≠ 0
  needed : ∀ k, s.sender = .writeFd k ∨ s.sender = .storeFlag k → s.awakener.needWakeup = true
  written : ∀ k, s.sender = .storeFlag k → s.awakener.eventFd ≠ 0
  cleared : ∀ d, s.receiver = .readFd d ∨ s.receiver = .storeFlag d →
    s.awakener.needWakeup = false
  message : s.Quiet → s.Looked → s.ring.buf.rear ≠ s.ring.buf.shadowRear →
    s.sender.waking = true
  release : s.Quiet → s.receiver = .scheduleRead ∨ s.receiver = .parked →
    s.sender.released = true → s.sender.waking = true

theorem awake_init : Awake (init w α capacity) where
  signalled h := by cases h
  needed k h := by rcases h with h | h <;> cases h
  written k h := by cases h
  cleared d h := by rcases h with h | h <;> cases h
  message _ h := h.elim
  release _ h := by rcases h with h | h <;> cases h

namespace Awake

theorem of_sender (h : Awake s) {ring : Ring w α} {sender : Sender α}
    (hrear : ring.buf.rear = s.ring.buf.rear)
    (hshadow : ring.buf.shadowRear = s.ring.buf.shadowRear)
    (hconsumer : ring.consumer = s.ring.consumer) (hwaking : s.sender.waking = false)
    (hreleased : sender.released = s.sender.released)
    (hsender : ∀ k, sender ≠ .writeFd k ∧ sender ≠ .storeFlag k) :
    Awake { s with ring := ring, sender := sender } :=
  { h with
    needed := by
      rintro k (hk | hk)
      · exact absurd hk (hsender k).1
      · exact absurd hk (hsender k).2
    written := fun k hk => absurd hk (hsender k).2
    message := by
      intro hquiet hlooked hne
      have hlooked' : s.Looked := by
        simp only [Looked, hconsumer] at hlooked ⊢
        exact hlooked
      simp only [hrear, hshadow] at hne
      exact absurd (h.message hquiet hlooked' hne) (by simp [hwaking])
    release := by
      intro hquiet hreceiver hgone
      simp only [hreleased] at hgone
      exact absurd (h.release hquiet hreceiver hgone) (by simp [hwaking]) }

theorem of_loadFlag (h : Awake s) {ring : Ring w α} {strongCount : Nat} {k : Wakeup α} :
    Awake { s with ring := ring, strongCount := strongCount, sender := .loadFlag k } :=
  { h with
    needed := by rintro _ (hk | hk) <;> cases hk
    written := fun _ hk => by cases hk
    message := fun _ _ _ => rfl
    release := fun _ _ _ => rfl }

theorem of_wokenUp {awakener : Awakener} {sender : Sender α}
    (hsender : sender = .idle ∨ sender = .gone)
    (hquiet : ¬ (awakener.needWakeup = true ∧ awakener.eventFd = 0))
    (hsignalled : awakener.needWakeup = false → (∀ d, s.receiver ≠ .storeFlag d) →
      awakener.eventFd ≠ 0)
    (hcleared : ∀ d, s.receiver = .readFd d ∨ s.receiver = .storeFlag d →
      awakener.needWakeup = false) :
    Awake { s with awakener := awakener, sender := sender } where
  signalled := hsignalled
  needed := by
    rintro k (hk | hk) <;> rcases hsender with h | h <;> exact absurd (h.symm.trans hk) (by simp)
  written := by
    intro k hk
    rcases hsender with h | h <;> exact absurd (h.symm.trans hk) (by simp)
  cleared := hcleared
  message hq := absurd hq hquiet
  release hq := absurd hq hquiet

theorem of_wokenUp_eq {awakener : Awakener} {k : Wakeup α}
    (hquiet : ¬ (awakener.needWakeup = true ∧ awakener.eventFd = 0))
    (hsignalled : awakener.needWakeup = false → (∀ d, s.receiver ≠ .storeFlag d) →
      awakener.eventFd ≠ 0)
    (hcleared : ∀ d, s.receiver = .readFd d ∨ s.receiver = .storeFlag d →
      awakener.needWakeup = false)
    (hr : wokenUp { s with awakener := awakener } k = (e, s')) : Awake s' := by
  cases k <;> cases hr
  · exact of_wokenUp (.inl rfl) hquiet hsignalled hcleared
  · exact of_wokenUp (.inr rfl) hquiet hsignalled hcleared

theorem sender_pushing (h : Awake s) {retry : Bool} (hsender : s.sender = .pushing retry)
    (hstep : s.stepSender result = some (.ok (e, s'))) : Awake s' := by
  have hwaking : s.sender.waking = false := by rw [hsender]; rfl
  have hreleased : s.sender.released = false := by rw [hsender]; rfl
  obtain ⟨event, ring, hproduce, hcases⟩ := pushing_cases hsender hstep
  obtain ⟨hconsumer, -, hshadow, -⟩ := Ring.produce_cases hproduce
  rcases hcases with ⟨-, hrear, rfl, rfl⟩ | ⟨t, -, ⟨-, hrear⟩, ⟨rfl, rfl⟩ | ⟨rfl, rfl⟩⟩ |
    ⟨t, -, -, rfl, rfl⟩
  · exact h.of_sender hrear hshadow hconsumer hwaking rfl fun _ => by simp [hsender]
  · exact h.of_sender hrear hshadow hconsumer hwaking hreleased.symm fun _ => by simp
  · exact h.of_sender hrear hshadow hconsumer hwaking hreleased.symm fun _ => by simp
  · exact h.of_loadFlag

theorem sender_writeFd (h : Awake s) (hallowed : EventFd s (.sender result)) {k : Wakeup α}
    (hsender : s.sender = .writeFd k) (hstep : s.stepSender result = some (.ok (e, s'))) :
    Awake s' := by
  have hneed := h.needed k (.inl hsender)
  rw [stepSender, hsender] at hstep
  dsimp only at hstep
  split at hstep
  · have hfd : s.awakener.eventFd + (2 ^ 64 - 2) ≠ 0 := by omega
    cases hstep
    exact { h with
      signalled := fun _ _ => hfd
      needed := fun _ _ => hneed
      written := fun _ _ => hfd
      message := fun hquiet => absurd hquiet.2 hfd
      release := fun hquiet => absurd hquiet.2 hfd }
  · obtain ⟨-, hfd⟩ := hallowed (by rw [hsender]; rfl)
    cases k <;> cases hstep
    · exact of_wokenUp (.inl rfl) (fun hquiet => hfd hquiet.2) h.signalled h.cleared
    · exact of_wokenUp (.inr rfl) (fun hquiet => hfd hquiet.2) h.signalled h.cleared

theorem sender_ok (h : Awake s) (hallowed : EventFd s (.sender result))
    (hstep : s.stepSender result = some (.ok (e, s'))) : Awake s' := by
  cases hsender : s.sender with
  | idle | gone =>
      rw [stepSender, hsender] at hstep
      cases hstep
  | testCount retry t =>
      have hwaking : s.sender.waking = false := by rw [hsender]; rfl
      have hreleased : s.sender.released = false := by rw [hsender]; rfl
      rw [stepSender, hsender] at hstep
      dsimp only at hstep
      split at hstep <;> cases hstep <;>
        exact h.of_sender rfl rfl rfl hwaking hreleased.symm fun _ => ⟨by simp, by simp⟩
  | pushing retry => exact h.sender_pushing hsender hstep
  | release =>
      rw [stepSender, hsender] at hstep
      cases hstep
      exact h.of_loadFlag
  | loadFlag k =>
      rw [stepSender, hsender] at hstep
      dsimp only at hstep
      split at hstep
      · rename_i hneed
        cases hstep
        exact { h with
          needed := fun _ _ => hneed
          written := by simp
          message := fun _ _ _ => rfl
          release := fun _ _ _ => rfl }
      · rename_i hneed
        exact of_wokenUp_eq (fun hquiet => hneed hquiet.1) h.signalled h.cleared
          (Except.ok.inj (Option.some.inj hstep))
  | writeFd k => exact h.sender_writeFd hallowed hsender hstep
  | storeFlag k =>
      have hfd := h.written k hsender
      rw [stepSender, hsender] at hstep
      refine of_wokenUp_eq ?_ ?_ ?_ (Except.ok.inj (Option.some.inj hstep))
      · exact fun hquiet => hfd hquiet.2
      · exact fun _ _ => hfd
      · exact fun _ _ => rfl

theorem of_away (h : Awake s) (hsender : s'.sender = s.sender)
    (hfd : s'.awakener.eventFd = s.awakener.eventFd)
    (hneed : s'.awakener.needWakeup = true ∨
      s'.awakener.needWakeup = s.awakener.needWakeup ∧ ∀ d, s.receiver ≠ .storeFlag d)
    (hlooked : ¬ s'.Looked)
    (hreset : ∀ d, s'.receiver ≠ .readFd d ∧ s'.receiver ≠ .storeFlag d) : Awake s' where
  signalled := by
    intro hfalse _
    rw [hfd]
    rcases hneed with htrue | ⟨hsame, hstore⟩
    · exact absurd (htrue.symm.trans hfalse) (by simp)
    · exact h.signalled (hsame.symm.trans hfalse) hstore
  needed := by
    intro k hk
    rw [hsender] at hk
    rcases hneed with htrue | ⟨hsame, -⟩
    · exact htrue
    · exact hsame.trans (h.needed k hk)
  written := by
    rw [hsender, hfd]
    exact h.written
  cleared := by
    rintro d (hd | hd)
    · exact absurd hd (hreset d).1
    · exact absurd hd (hreset d).2
  message _ hl := absurd hl hlooked
  release := by
    rintro - (hd | hd) -
    · exact absurd (by simp only [Looked, hd]) hlooked
    · exact absurd (by simp only [Looked, hd]) hlooked

theorem of_resetDone (h : Awake s) {awakener : Awakener} {dropping : Bool}
    (hfd : awakener.eventFd = s.awakener.eventFd) (hneed : awakener.needWakeup = true) :
    Awake (resetDone { s with awakener := awakener } dropping) := by
  cases dropping with
  | true => exact h.of_away rfl hfd (.inl hneed) (by simp [resetDone, Looked]) (by simp [resetDone])
  | false =>
      exact h.of_away rfl hfd (.inl hneed) (by simp [resetDone, Looked]) (by simp [resetDone])

theorem receiver_loadFlag (h : Awake s) {dropping : Bool}
    (hreceiver : s.receiver = .loadFlag dropping)
    (hstep : s.stepReceiver result = some (.ok (e, s'))) : Awake s' := by
  unfold stepReceiver at hstep
  rw [hreceiver] at hstep
  dsimp only at hstep
  split at hstep
  · rename_i hneed
    cases hstep
    exact h.of_resetDone rfl hneed
  · rename_i hneed
    have hfalse := Bool.eq_false_iff.mpr hneed
    cases hstep
    exact { h with
      signalled := fun _ _ => h.signalled hfalse (by simp [hreceiver])
      cleared := fun _ _ => hfalse
      message := fun hquiet => absurd hquiet.1 hneed
      release := fun hquiet => absurd hquiet.1 hneed }

theorem of_resetFailed (h : Awake s) {dropping : Bool} {kind : ErrorKind}
    (hreceiver : s.receiver = .readFd dropping) (hr : s.resetFailed kind dropping = (e, s')) :
    Awake s' := by
  have hfd := h.signalled (h.cleared dropping (.inl hreceiver)) (by simp [hreceiver])
  cases dropping with
  | true =>
      cases hr
      exact h.of_away rfl rfl (.inr ⟨rfl, by simp [hreceiver]⟩) (by simp [Looked]) (by simp)
  | false =>
      rw [resetFailed] at hr
      split at hr
      · cases hr
        exact { h with
          signalled := fun _ _ => hfd
          cleared := by rintro _ (hd | hd) <;> cases hd
          message := fun hquiet => absurd hquiet.2 hfd
          release := fun hquiet => absurd hquiet.2 hfd }
      · cases hr
        exact h.of_away rfl rfl (.inr ⟨rfl, by simp [hreceiver]⟩) (by simp [Looked]) (by simp)

theorem receiver_readFd (h : Awake s) {dropping : Bool} (hreceiver : s.receiver = .readFd dropping)
    (hstep : s.stepReceiver result = some (.ok (e, s'))) : Awake s' := by
  have hfalse := h.cleared dropping (.inl hreceiver)
  unfold stepReceiver at hstep
  rw [hreceiver] at hstep
  dsimp only at hstep
  split at hstep
  · cases hstep
    exact { h with
      signalled := fun _ hstore => absurd rfl (hstore dropping)
      written := fun k hk => absurd ((h.needed k (.inr hk)).symm.trans hfalse) (by simp)
      cleared := fun _ _ => hfalse
      message := fun _ hlooked => hlooked.elim
      release := by rintro - (hd | hd) - <;> cases hd }
  · exact h.of_resetFailed hreceiver (Except.ok.inj (Option.some.inj hstep))

theorem receiver_popping (h : Awake s) (hreceiver : s.receiver = .popping)
    (hstep : s.stepReceiver result = some (.ok (e, s'))) : Awake s' := by
  have hstore : ∀ d, s.receiver ≠ .storeFlag d := by simp [hreceiver]
  obtain ⟨event, ring, -, hcases⟩ := popping_cases hreceiver hstep
  rcases hcases with ⟨-, hloaded, rfl, rfl⟩ | ⟨-, ⟨hbuf, -, hrecheck⟩, rfl, rfl⟩ |
    ⟨v, -, -, rfl, rfl⟩
  · exact { h with
      message := by
        intro _ hlooked hne
        simp only [Looked, hreceiver] at hlooked
        obtain ⟨front, hfront⟩ := hlooked
        exact absurd (hloaded front hfront).symm hne }
  · have hlooked : s.Looked := by
      rw [Looked, hreceiver]
      exact ⟨_, hrecheck⟩
    exact { h with
      signalled := fun hfalse _ => h.signalled hfalse hstore
      cleared := by rintro _ (hd | hd) <;> cases hd
      message := fun hquiet _ hne => h.message hquiet hlooked (hbuf ▸ hne)
      release := by rintro - (hd | hd) - <;> cases hd }
  · exact h.of_away rfl rfl (.inr ⟨rfl, hstore⟩) (by simp [Looked]) (by simp)

theorem receiver_testCount (h : Awake s) (hinv : Inv capacity pushed received s)
    (hreceiver : s.receiver = .testCount)
    (hstep : s.stepReceiver result = some (.ok (e, s'))) : Awake s' := by
  have hstore : ∀ d, s.receiver ≠ .storeFlag d := by simp [hreceiver]
  have hlooked : s.Looked := by simp only [Looked, hreceiver]
  have hcount := hinv.count
  rw [hreceiver] at hcount
  unfold stepReceiver at hstep
  rw [hreceiver] at hstep
  dsimp only at hstep
  split at hstep
  · cases hstep
    exact h.of_away rfl rfl (.inr ⟨rfl, hstore⟩) (by simp [Looked]) (by simp)
  · rename_i hone
    cases hstep
    exact { h with
      signalled := fun hfalse _ => h.signalled hfalse hstore
      cleared := by rintro _ (hd | hd) <;> cases hd
      message := fun hquiet _ => h.message hquiet hlooked
      release := by
        intro _ _ hgone
        simp only [hgone] at hcount
        exact absurd hcount hone }

theorem receiver_scheduleRead (h : Awake s) (hreceiver : s.receiver = .scheduleRead)
    (hstep : s.stepReceiver result = some (.ok (e, s'))) : Awake s' := by
  have hstore : ∀ d, s.receiver ≠ .storeFlag d := by simp [hreceiver]
  have hlooked : s.Looked := by simp only [Looked, hreceiver]
  unfold stepReceiver at hstep
  rw [hreceiver] at hstep
  dsimp only at hstep
  split at hstep
  · cases hstep
    exact { h with
      signalled := fun hfalse _ => h.signalled hfalse hstore
      cleared := by rintro _ (hd | hd) <;> cases hd
      message := fun hquiet _ => h.message hquiet hlooked
      release := fun hquiet _ => h.release hquiet (.inl hreceiver) }
  · cases hstep
    exact h.of_away rfl rfl (.inr ⟨rfl, hstore⟩) (by simp [Looked]) (by simp)

theorem receiver_ok (h : Awake s) (hinv : Inv capacity pushed received s)
    (hstep : s.stepReceiver result = some (.ok (e, s'))) : Awake s' := by
  cases hreceiver : s.receiver with
  | idle | parked | gone =>
      unfold stepReceiver at hstep
      rw [hreceiver] at hstep
      cases hstep
  | loadFlag dropping => exact h.receiver_loadFlag hreceiver hstep
  | readFd dropping => exact h.receiver_readFd hreceiver hstep
  | storeFlag dropping =>
      unfold stepReceiver at hstep
      rw [hreceiver] at hstep
      cases hstep
      exact h.of_resetDone rfl rfl
  | popping => exact h.receiver_popping hreceiver hstep
  | testCount => exact h.receiver_testCount hinv hreceiver hstep
  | scheduleRead => exact h.receiver_scheduleRead hreceiver hstep
  | release =>
      unfold stepReceiver at hstep
      rw [hreceiver] at hstep
      cases hstep
      exact h.of_away rfl rfl (.inr ⟨rfl, by simp [hreceiver]⟩) (by simp [Looked]) (by simp)

theorem step_ok (h : Awake s) (hinv : Inv capacity pushed received s) {a : ChannelAction α}
    (hallowed : EventFd s a) (hstep : s.step a = some (.ok (e, s'))) : Awake s' := by
  cases a with
  | send retry t =>
      rw [step] at hstep
      split at hstep
      · rename_i hsender
        cases hstep
        exact h.of_sender rfl rfl rfl (by rw [hsender]; rfl) (by rw [hsender]; rfl)
          fun _ => ⟨by simp, by simp⟩
      · cases hstep
  | dropSender =>
      rw [step] at hstep
      split at hstep
      · rename_i hsender
        cases hstep
        exact h.of_sender rfl rfl rfl (by rw [hsender]; rfl) (by rw [hsender]; rfl)
          fun _ => ⟨by simp, by simp⟩
      · cases hstep
  | sender result => exact h.sender_ok hallowed hstep
  | poll =>
      have haway : (∀ d, s.receiver ≠ .storeFlag d) → Awake s.startPoll := by
        intro hstore
        rw [startPoll]
        split
        · exact h.of_away rfl rfl (.inr ⟨rfl, hstore⟩) (by simp [Looked]) (by simp)
        · exact h.of_away rfl rfl (.inr ⟨rfl, hstore⟩) (by simp [Looked]) (by simp)
      rw [step] at hstep
      split at hstep
      · rename_i hreceiver
        cases hstep
        exact haway (by simp [hreceiver])
      · rename_i hreceiver
        cases hstep
        exact haway (by simp [hreceiver])
      · cases hstep
  | dropReceiver =>
      rw [step] at hstep
      split at hstep
      · rename_i hreceiver
        cases hstep
        exact h.of_away rfl rfl (.inr ⟨rfl, by simp [hreceiver]⟩) (by simp [Looked]) (by simp)
      · rename_i hreceiver
        cases hstep
        exact h.of_away rfl rfl (.inr ⟨rfl, by simp [hreceiver]⟩) (by simp [Looked]) (by simp)
      · cases hstep
  | receiver result => exact h.receiver_ok hinv hstep

end Awake

theorem wakes_of_writing (hwriting : s.sender.writing = true) : Wakes 1 s := by
  refine .inr fun result hallowed => ?_
  unfold Sender.writing at hwriting
  split at hwriting
  · rename_i k hsender
    cases result with
    | ok =>
        refine ⟨_, _, by simp only [stepSender, hsender]; rfl, ?_⟩
        show s.awakener.eventFd + (2 ^ 64 - 2) ≠ 0
        omega
    | error kind =>
        obtain ⟨-, hfd⟩ := hallowed (by rw [hsender]; rfl)
        refine ⟨_, _, by simp only [stepSender, hsender]; rfl, ?_⟩
        cases k <;> exact hfd
  · cases hwriting

theorem wakes_of_waking (hwaking : s.sender.waking = true)
    (hneed : s.awakener.needWakeup = true) : Wakes 2 s := by
  unfold Sender.waking at hwaking
  split at hwaking
  · rename_i k hsender
    refine .inr fun result _ => ⟨.silent, { s with sender := .writeFd k }, ?_, ?_⟩
    · simp only [stepSender, hsender, hneed, if_true]
    · exact wakes_of_writing rfl
  · rename_i k hsender
    rcases wakes_of_writing (s := s) (by rw [hsender]; rfl) with hfd | hwrite
    · exact .inl hfd
    · refine .inr fun result hallowed => ?_
      obtain ⟨e, s', hstep, hfd⟩ := hwrite result hallowed
      exact ⟨e, s', hstep, .inl hfd⟩
  · cases hwaking

/-- No wake-up is lost: a parked receiver with something to find is woken, or is about to be. -/
theorem parked_wakes {log : List (ChannelEvent α)}
    (hrun : (channelMachine w α).Run EventFd (init w α capacity) log s)
    (hparked : s.receiver = .parked)
    (hdue : s.ring.buf.front ≠ s.ring.buf.rear ∨ s.sender.released = true) : Wakes 2 s := by
  obtain ⟨hinv, hawake⟩ : Inv capacity (pushedOf log) (receivedOf log) s ∧ Awake s := by
    refine hrun.invariant (I := fun log s =>
      Inv capacity (pushedOf log) (receivedOf log) s ∧ Awake s) ⟨inv_init, awake_init⟩ ?_
    rintro log t a e u ⟨hinv, hawake⟩ hallowed hstep
    exact ⟨hinv.snoc hstep, hawake.step_ok hinv hallowed hstep⟩
  by_cases hfd : s.awakener.eventFd = 0
  · have hneed : s.awakener.needWakeup = true := by
      by_contra hfalse
      exact hawake.signalled (Bool.eq_false_iff.mpr hfalse) (by simp [hparked]) hfd
    refine wakes_of_waking ?_ hneed
    rcases hdue with hmessage | hreleased
    · have hfront := hinv.drained (.inl (hinv.waiting (by rw [hparked]; rfl)))
      have hlooked : s.Looked := by simp only [Looked, hparked]
      exact hawake.message ⟨hneed, hfd⟩ hlooked fun hrear => hmessage (hfront.trans hrear.symm)
    · exact hawake.release ⟨hneed, hfd⟩ (.inr hparked) hreleased
  · exact .inl hfd

theorem parked_wakes_of_one :
    ∃ (log : List (ChannelEvent Nat)) (s : Channel 64 Nat),
      (channelMachine 64 Nat).Run EventFd (init 64 Nat 1) log s ∧ s.receiver = .parked ∧
        s.ring.buf.front ≠ s.ring.buf.rear ∧ Wakes 2 s := by
  let go : ChannelAction Nat := .sender (.ok ())
  let look : ChannelAction Nat := .receiver (.ok ())
  let as : List (ChannelAction Nat) :=
    [.poll, look, look, look, look, look, look, look, .send false 7, go, go, go, go, go, go]
  have hend : ((channelMachine 64 Nat).exec EventFd as (init 64 Nat 1)).map (fun r =>
      (r.2.receiver, r.2.ring.buf.front, r.2.ring.buf.rear)) = some (.parked, 0, 1) := by
    decide +kernel
  obtain ⟨⟨log, s⟩, hexec, heq⟩ := Option.map_eq_some_iff.mp hend
  obtain ⟨hparked, hcounters⟩ := Prod.mk.inj heq
  obtain ⟨hfront, hrear⟩ := Prod.mk.inj hcounters
  have hmessage : s.ring.buf.front ≠ s.ring.buf.rear := by
    rw [hfront, hrear]
    decide
  have hrun := Base.Machine.Run.of_exec as hexec
  exact ⟨log, s, hrun, hparked, hmessage, parked_wakes hrun hparked (.inl hmessage)⟩

end Channel

end Ruyi.Sync
