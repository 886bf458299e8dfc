import Ruyi.Sync.ChannelSignals

namespace Ruyi.Sync

variable {w capacity : Nat} {α : Type}

/-- A call on a channel of Windows, or the event loop takes a packet out of the completion port
and runs the task that the packet is for. -/
inductive IocpAction (α : Type) where
  | call (a : ChannelAction α)
  | event

/-- The sender is inside a `wakeup`. -/
def Sender.posting : Sender α → Bool
  | .loadFlag _ | .storeFlag _ | .writeFd _ => true
  | _ => false

namespace Channel

/-- `sync_channel(capacity)` on Windows, where the flag is false at first. -/
def iocpInit (w : Nat) (α : Type) (capacity : Nat) : Channel w α :=
  { init w α capacity with awakener := ⟨false, 0⟩ }

/-- The next step of the sender.  `wakeup` stores the flag before it posts a packet. -/
def iocpSender (s : Channel w α) (result : Except ErrorKind Unit) :
    Option (Except Fault (ChannelEvent α × Channel w α)) :=
  match s.sender with
  | .loadFlag k =>
      if s.awakener.needWakeup then some (.ok (.silent, { s with sender := .storeFlag k }))
      else some (.ok (s.wokenUp k))
  | .storeFlag k =>
      some (.ok (.silent,
        { s with awakener := { s.awakener with needWakeup := false }, sender := .writeFd k }))
  | .writeFd k =>
      match result with
      | .ok () =>
          some (.ok (wokenUp
            { s with awakener := { s.awakener with eventFd := s.awakener.eventFd + 1 } } k))
      | .error kind => some (.ok (s.wakeupFailed kind k))
  | _ => s.stepSender result

/-- The next step of the receiver.  `reset` is a store, and `poll` schedules nothing. -/
def iocpReceiver (s : Channel w α) (result : Except ErrorKind Unit) :
    Option (Except Fault (ChannelEvent α × Channel w α)) :=
  match s.receiver with
  | .loadFlag dropping =>
      some (.ok (.silent,
        resetDone { s with awakener := { s.awakener with needWakeup := true } } dropping))
  | .testCount =>
      if s.strongCount = 1 then
        some (.ok (.ended, { s with needReset := true, receiver := .idle }))
      else some (.ok (.notReady, { s with needReset := true, receiver := .parked }))
  | _ => s.stepReceiver result

/-- The next step on Windows, where `eventFd` is the number of packets that were posted and not
yet taken. -/
def iocpStep (s : Channel w α) :
    IocpAction α → Option (Except Fault (ChannelEvent α × Channel w α))
  | .call (.sender result) => s.iocpSender result
  | .call (.receiver result) => s.iocpReceiver result
  | .call a => s.step a
  | .event =>
      if s.awakener.eventFd = 0 then none
      else
        let taken : Channel w α :=
          { s with awakener := { s.awakener with eventFd := s.awakener.eventFd - 1 } }
        match s.receiver with
        | .parked => some (.ok (.silent, taken.startPoll))
        | .idle | .gone => some (.ok (.silent, taken))
        | _ => none

end Channel

def iocpMachine (w : Nat) (α : Type) :
    Base.Machine (Channel w α) (IocpAction α) (ChannelEvent α) Fault := ⟨Channel.iocpStep⟩

namespace Channel

variable {s s' : Channel w α} {e : ChannelEvent α} {result : Except ErrorKind Unit}
  {pushed received : List α}

/-- A packet can be posted, and the task that is run for one finds the stream where a `poll` has
left it with nothing. -/
def Attended (s : Channel w α) : IocpAction α → Prop
  | .call (.sender result) => s.sender.writing = true → result = .ok ()
  | .event => s.receiver = .idle → s.needReset = true
  | _ => True

/-- The receiver stores the flag before it parks again. -/
def Resets (s : Channel w α) : Prop :=
  match s.receiver with
  | .loadFlag _ | .release | .gone => True
  | .idle => s.needReset = true
  | _ => False

theorem Looked.not_resets (h : s.Looked) : ¬ s.Resets := by
  intro hresets
  cases hreceiver : s.receiver <;> simp [Looked, Resets, hreceiver] at h hresets

/-- Where the receiver can stand on Windows. -/
def OnPort (s : Channel w α) : Prop :=
  match s.receiver with
  | .readFd _ | .storeFlag _ | .scheduleRead => False
  | _ => True

/-- The flag, the packets and the buffer agree. -/
structure Posted (s : Channel w α) : Prop where
  on_port : s.OnPort
  outstanding : s.awakener.needWakeup = false →
    0 < s.awakener.eventFd ∨ s.sender.writing = true ∨ s.Resets
  message : s.Looked → s.ring.buf.rear ≠ s.ring.buf.shadowRear →
    0 < s.awakener.eventFd ∨ s.sender.posting = true
  release : s.receiver = .parked → s.sender.released = true →
    0 < s.awakener.eventFd ∨ s.sender.posting = true

theorem posted_init : Posted (iocpInit w α capacity) where
  on_port := trivial
  outstanding _ := .inr (.inr rfl)
  message h := h.elim
  release := nofun

namespace Posted

theorem of_sender (h : Posted s) {ring : Ring w α} {sender : Sender α}
    (hrear : ring.buf.rear = s.ring.buf.rear)
    (hshadow : ring.buf.shadowRear = s.ring.buf.shadowRear)
    (hconsumer : ring.consumer = s.ring.consumer) (hwriting : s.sender.writing = false)
    (hposting : s.sender.posting = false) (hreleased : sender.released = s.sender.released) :
    Posted { s with ring := ring, sender := sender } where
  on_port := h.on_port
  outstanding hflag := (h.outstanding hflag).imp_right fun hrest =>
    .inr (hrest.resolve_left (Bool.eq_false_iff.mp hwriting))
  message hlooked hne := by
    have hlooked' : s.Looked := by
      simp only [Looked, hconsumer] at hlooked ⊢
      exact hlooked
    rw [show _ = s.ring.buf.rear from hrear, show _ = s.ring.buf.shadowRear from hshadow] at hne
    exact .inl ((h.message hlooked' hne).resolve_right (Bool.eq_false_iff.mp hposting))
  release hparked hgone := by
    rw [show sender.released = _ from hreleased] at hgone
    exact .inl ((h.release hparked hgone).resolve_right (Bool.eq_false_iff.mp hposting))

theorem of_posting {ring : Ring w α} {strongCount : Nat} {awakener : Awakener}
    {sender : Sender α} (hport : s.OnPort) (hposting : sender.posting = true)
    (houtstanding : awakener.needWakeup = false →
      0 < awakener.eventFd ∨ sender.writing = true ∨ s.Resets) :
    Posted { s with
      ring := ring, strongCount := strongCount, awakener := awakener, sender := sender } where
  on_port := hport
  outstanding := houtstanding
  message _ _ := .inr hposting
  release _ _ := .inr hposting

theorem of_wokenUp (hport : s.OnPort) {awakener : Awakener} {k : Wakeup α}
    (hposted : 0 < awakener.eventFd ∨ s.Resets) (hr : wokenUp { s with awakener } k = (e, s')) :
    Posted s' := by
  have hparked : s.receiver = .parked → ¬ s.Resets := by
    intro hparked hresets
    simp only [Resets, hparked] at hresets
  cases k <;> cases hr <;> exact
    { on_port := hport
      outstanding := fun _ => hposted.imp_right .inr
      message := fun hl _ => .inl (hposted.resolve_right hl.not_resets)
      release := fun hp _ => .inl (hposted.resolve_right (hparked hp)) }

theorem sender_pushing (h : Posted s) {retry : Bool} (hsender : s.sender = .pushing retry)
    (hstep : s.stepSender result = some (.ok (e, s'))) : Posted s' := by
  have hwriting : s.sender.writing = false := by rw [hsender]; rfl
  have hposting : s.sender.posting = false := by rw [hsender]; rfl
  have hreleased : s.sender.released = false := by rw [hsender]; rfl
  obtain ⟨event, ring, hproduce, hcases⟩ := pushing_cases hsender hstep
  obtain ⟨hconsumer, -, hshadow, -⟩ := Ring.produce_cases hproduce
  rcases hcases with ⟨-, hrear, rfl, rfl⟩ | ⟨t, -, ⟨-, hrear⟩, ⟨rfl, rfl⟩ | ⟨rfl, rfl⟩⟩ |
    ⟨t, -, -, rfl, rfl⟩
  · exact h.of_sender hrear hshadow hconsumer hwriting hposting rfl
  · exact h.of_sender hrear hshadow hconsumer hwriting hposting hreleased.symm
  · exact h.of_sender hrear hshadow hconsumer hwriting hposting hreleased.symm
  · refine of_posting h.on_port rfl fun hfalse => ?_
    exact (h.outstanding hfalse).imp_right fun hrest =>
      .inr (hrest.resolve_left (Bool.eq_false_iff.mp hwriting))

theorem sender_ok (h : Posted s) (hallowed : Attended s (.call (.sender result)))
    (hstep : s.iocpSender result = some (.ok (e, s'))) : Posted s' := by
  unfold iocpSender at hstep
  cases hsender : s.sender with
  | loadFlag k =>
      have hwriting : ¬ s.sender.writing = true := by
        rw [hsender]
        simp [Sender.writing]
      rw [hsender] at hstep
      dsimp only at hstep
      split at hstep
      · rename_i hneed
        cases hstep
        refine of_posting h.on_port rfl fun hfalse => ?_
        cases hneed.symm.trans hfalse
      · rename_i hneed
        have hposted := h.outstanding (Bool.eq_false_iff.mpr hneed)
        exact of_wokenUp h.on_port (hposted.imp_right fun hrest => hrest.resolve_left hwriting)
          (Except.ok.inj (Option.some.inj hstep))
  | storeFlag k =>
      rw [hsender] at hstep
      cases hstep
      exact of_posting h.on_port rfl fun _ => .inr (.inl rfl)
  | writeFd k =>
      cases hallowed (by rw [hsender]; rfl)
      rw [hsender] at hstep
      exact of_wokenUp h.on_port (.inl (Nat.succ_pos _)) (Except.ok.inj (Option.some.inj hstep))
  | idle | gone =>
      rw [hsender] at hstep
      simp only [stepSender, hsender] at hstep
      cases hstep
  | testCount retry t =>
      rw [hsender] at hstep
      simp only [stepSender, hsender] at hstep
      split at hstep <;> cases hstep <;>
        exact h.of_sender rfl rfl rfl (by rw [hsender]; rfl) (by rw [hsender]; rfl)
          (by rw [hsender]; rfl)
  | pushing retry =>
      rw [hsender] at hstep
      exact h.sender_pushing hsender hstep
  | release =>
      rw [hsender] at hstep
      simp only [stepSender, hsender] at hstep
      cases hstep
      refine of_posting h.on_port rfl fun hfalse => ?_
      exact (h.outstanding hfalse).imp_right fun hrest => .inr (hrest.resolve_left (by
        rw [hsender]
        simp [Sender.writing]))

theorem of_resets (hport : s.OnPort) (hresets : s.Resets) : Posted s where
  on_port := hport
  outstanding _ := .inr (.inr hresets)
  message hlooked := absurd hresets hlooked.not_resets
  release hparked _ := absurd hresets (by simp only [Resets, hparked, not_false_eq_true])

theorem of_polling (h : Posted s) (hport : s'.OnPort) (hsender : s'.sender = s.sender)
    (hawakener : s'.awakener = s.awakener) (hresets : ¬ s.Resets)
    (hmessage : s'.Looked → s'.ring.buf.rear ≠ s'.ring.buf.shadowRear →
      s.Looked ∧ s.ring.buf.rear ≠ s.ring.buf.shadowRear)
    (hrelease : s'.receiver = .parked → s.sender.released = false) : Posted s' where
  on_port := hport
  outstanding hfalse := by
    rw [hawakener] at hfalse ⊢
    rw [hsender]
    exact (h.outstanding hfalse).imp_right fun hrest => .inl (hrest.resolve_right hresets)
  message hlooked hne := by
    obtain ⟨hlooked', hne'⟩ := hmessage hlooked hne
    rw [hawakener, hsender]
    exact h.message hlooked' hne'
  release hparked hgone := by
    rw [hsender, hrelease hparked] at hgone
    cases hgone

theorem receiver_ok (h : Posted s) (hinv : Inv capacity pushed received s)
    (hstep : s.iocpReceiver result = some (.ok (e, s'))) : Posted s' := by
  have hport := h.on_port
  unfold iocpReceiver at hstep
  cases hreceiver : s.receiver with
  | readFd _ | storeFlag _ | scheduleRead =>
      simp only [OnPort, hreceiver] at hport
  | idle | parked | gone =>
      rw [hreceiver] at hstep
      simp only [stepReceiver, hreceiver] at hstep
      cases hstep
  | loadFlag dropping =>
      rw [hreceiver] at hstep
      cases hstep
      cases dropping with
      | true => exact of_resets trivial trivial
      | false =>
          refine ⟨trivial, ?_, ?_, ?_⟩
          · rintro ⟨⟩
          · rintro ⟨_, ⟨⟩⟩
          · rintro ⟨⟩
  | popping =>
      have hresets : ¬ s.Resets := by simp only [Resets, hreceiver, not_false_eq_true]
      rw [hreceiver] at hstep
      obtain ⟨event, ring, -, hcases⟩ := popping_cases hreceiver hstep
      rcases hcases with ⟨-, hloaded, rfl, rfl⟩ | ⟨-, ⟨hbuf, -, hrecheck⟩, rfl, rfl⟩ |
        ⟨v, -, -, rfl, rfl⟩
      · refine h.of_polling hport rfl rfl hresets ?_ (by simp [hreceiver])
        intro hlooked hne
        simp only [Looked, hreceiver] at hlooked
        obtain ⟨front, hfront⟩ := hlooked
        exact absurd (hloaded front hfront).symm hne
      · have hlooked : s.Looked := by
          rw [Looked, hreceiver]
          exact ⟨_, hrecheck⟩
        exact h.of_polling trivial rfl rfl hresets (fun _ hne => ⟨hlooked, hbuf ▸ hne⟩) (by simp)
      · exact h.of_polling trivial rfl rfl hresets (fun hlooked => hlooked.elim) (by simp)
  | testCount =>
      have hresets : ¬ s.Resets := by simp only [Resets, hreceiver, not_false_eq_true]
      have hlooked : s.Looked := by simp only [Looked, hreceiver]
      have hcount := hinv.count
      rw [hreceiver] at hcount hstep
      dsimp only at hstep
      split at hstep
      · cases hstep
        exact of_resets trivial rfl
      · rename_i hone
        cases hstep
        refine h.of_polling trivial rfl rfl hresets (fun _ hne => ⟨hlooked, hne⟩) fun _ => ?_
        refine Bool.eq_false_iff.mpr fun hgone => hone ?_
        rw [hcount, hgone]
        rfl
  | release =>
      rw [hreceiver] at hstep
      simp only [stepReceiver, hreceiver] at hstep
      cases hstep
      exact of_resets trivial trivial

theorem startPoll_ok (h : Posted s) (hreset : s.receiver = .parked → s.needReset = true)
    (hreceiver : s.receiver = .idle ∨ s.receiver = .parked) : Posted s.startPoll := by
  rw [startPoll]
  split
  · exact of_resets trivial trivial
  · rename_i hneed
    refine h.of_polling trivial rfl rfl ?_ ?_ (by simp)
    · rcases hreceiver with hidle | hparked
      · simpa only [Resets, hidle] using hneed
      · exact absurd (hreset hparked) hneed
    · rintro ⟨front, hfront⟩
      cases hfront

theorem step_ok {a : IocpAction α} (h : Posted s) (hinv : Inv capacity pushed received s)
    (hallowed : Attended s a) (hstep : s.iocpStep a = some (.ok (e, s'))) : Posted s' := by
  have hreset : s.receiver = .parked → s.needReset = true := fun hparked =>
    hinv.waiting (by rw [hparked]; rfl)
  match a with
  | .call (.sender result) => exact h.sender_ok hallowed hstep
  | .call (.receiver result) => exact h.receiver_ok hinv hstep
  | .call (.send _ _) | .call .dropSender =>
      simp only [iocpStep, step] at hstep
      split at hstep
      · rename_i hsender
        cases hstep
        exact h.of_sender rfl rfl rfl (by rw [hsender]; rfl) (by rw [hsender]; rfl)
          (by rw [hsender]; rfl)
      · cases hstep
  | .call .poll =>
      simp only [iocpStep, step] at hstep
      split at hstep
      · rename_i hreceiver
        cases hstep
        exact h.startPoll_ok hreset (.inl hreceiver)
      · rename_i hreceiver
        cases hstep
        exact h.startPoll_ok hreset (.inr hreceiver)
      · cases hstep
  | .call .dropReceiver =>
      simp only [iocpStep, step] at hstep
      split at hstep
      · cases hstep
        exact of_resets trivial trivial
      · cases hstep
        exact of_resets trivial trivial
      · cases hstep
  | .event =>
      simp only [iocpStep] at hstep
      split at hstep
      · cases hstep
      · split at hstep
        · rename_i hparked
          cases hstep
          rw [startPoll, if_pos (hreset hparked)]
          exact of_resets trivial trivial
        · rename_i hidle
          cases hstep
          refine of_resets h.on_port ?_
          simp only [Resets, hidle]
          exact hallowed hidle
        · rename_i hgone
          cases hstep
          refine of_resets h.on_port ?_
          simp only [Resets, hgone]
        · cases hstep

end Posted

namespace Inv

theorem of_awakener (h : Inv capacity pushed received s) (awakener : Awakener) :
    Inv capacity pushed received { s with awakener } :=
  ⟨h.ring, h.producer, h.consumer, h.count, h.drained, h.waiting, h.popping⟩

theorem iocpSender_ok (h : Inv capacity pushed received s)
    (hstep : s.iocpSender result = some (.ok (e, s'))) :
    Inv capacity (pushed ++ pushedOf [e]) (received ++ receivedOf [e]) s' := by
  unfold iocpSender at hstep
  split at hstep
  · rename_i k hsender
    have hpushing : ∀ retry, s.sender ≠ .pushing retry := by simp [hsender]
    have hk : s.sender.released = (Sender.loadFlag k).released := by rw [hsender]
    split at hstep
    · cases hstep
      refine .of_quiet rfl rfl (h.of_sender hpushing ?_)
      rw [hk]
      cases k <;> rfl
    · exact h.of_wokenUp hpushing hk (Except.ok.inj (Option.some.inj hstep))
  · rename_i k hsender
    have hpushing : ∀ retry, s.sender ≠ .pushing retry := by simp [hsender]
    cases hstep
    refine .of_quiet rfl rfl (h.of_sender hpushing ?_)
    rw [hsender]
    cases k <;> rfl
  · rename_i k hsender
    have hpushing : ∀ retry, s.sender ≠ .pushing retry := by simp [hsender]
    have hk : s.sender.released = (Sender.loadFlag k).released := by
      rw [hsender]
      cases k <;> rfl
    split at hstep
    · exact h.of_wokenUp hpushing hk (Except.ok.inj (Option.some.inj hstep))
    · exact h.of_wakeupFailed hpushing hk (Except.ok.inj (Option.some.inj hstep))
  · exact h.sender_ok hstep

theorem iocpReceiver_ok (h : Inv capacity pushed received s)
    (hstep : s.iocpReceiver result = some (.ok (e, s'))) :
    Inv capacity (pushed ++ pushedOf [e]) (received ++ receivedOf [e]) s' := by
  unfold iocpReceiver at hstep
  split at hstep
  · rename_i dropping hreceiver
    cases hstep
    exact .of_quiet rfl rfl (h.of_resetDone (by simp [hreceiver]) (by simp [hreceiver]))
  · rename_i hreceiver
    have hempty := h.drained (.inr hreceiver)
    have hcount := h.count
    have hconsumer := h.consumer (by simp [hreceiver])
    rw [hreceiver] at hcount
    split at hstep <;> cases hstep <;>
      exact .of_quiet rfl rfl
        ⟨h.ring, h.producer, fun _ => hconsumer, hcount, fun _ => hempty, fun _ => rfl, by simp⟩
  · exact h.receiver_ok hstep

theorem iocpStep_ok {a : IocpAction α} (h : Inv capacity pushed received s)
    (hstep : s.iocpStep a = some (.ok (e, s'))) :
    Inv capacity (pushed ++ pushedOf [e]) (received ++ receivedOf [e]) s' := by
  match a with
  | .call (.sender result) => exact h.iocpSender_ok hstep
  | .call (.receiver result) => exact h.iocpReceiver_ok hstep
  | .call (.send _ _) | .call .dropSender | .call .poll | .call .dropReceiver =>
      simp only [iocpStep] at hstep
      exact h.step_ok hstep
  | .event =>
      simp only [iocpStep] at hstep
      split at hstep
      · cases hstep
      · split at hstep
        · rename_i hparked
          cases hstep
          exact .of_quiet rfl rfl ((h.of_awakener _).of_startPoll (.inr hparked))
        · cases hstep
          exact .of_quiet rfl rfl (h.of_awakener _)
        · cases hstep
          exact .of_quiet rfl rfl (h.of_awakener _)
        · cases hstep

end Inv

/-- A packet is in the port, or is there within `n` steps of the sender. -/
def Posts : Nat → Channel w α → Prop
  | 0, s => 0 < s.awakener.eventFd
  | n + 1, s => 0 < s.awakener.eventFd ∨
      ∃ e s', s.iocpSender (.ok ()) = some (.ok (e, s')) ∧ Posts n s'

theorem posts_of_writing {k : Wakeup α} (h : s.sender = .writeFd k) : Posts 1 s := by
  refine .inr ⟨_, _, by simp only [iocpSender, h]; rfl, ?_⟩
  cases k <;> exact Nat.succ_pos _

theorem posts_of_posting (h : s.sender.posting = true)
    (hloading : ∀ k, s.sender = .loadFlag k → s.awakener.needWakeup = true) : Posts 3 s := by
  match hsender : s.sender with
  | .loadFlag k =>
      refine .inr ⟨_, _, by simp only [iocpSender, hsender, hloading k hsender]; rfl, ?_⟩
      refine .inr ⟨_, _, rfl, posts_of_writing rfl⟩
  | .storeFlag k =>
      refine .inr ⟨_, _, by simp only [iocpSender, hsender]; rfl, ?_⟩
      exact (posts_of_writing rfl).imp_right fun ⟨e, s', hstep, hposts⟩ =>
        ⟨e, s', hstep, .inl hposts⟩
  | .writeFd k =>
      exact (posts_of_writing hsender).imp_right fun ⟨e, s', hstep, hposts⟩ =>
        ⟨e, s', hstep, .inl hposts⟩
  | .idle | .gone | .testCount _ _ | .pushing _ | .release => rw [hsender] at h; cases h

/-- No wake-up is lost on Windows as long as every packet can be posted and the task polls the
stream for each until it has nothing: a parked receiver with something to find has a packet in the
port, or is about to. -/
theorem parked_posts {log : List (ChannelEvent α)}
    (hrun : (iocpMachine w α).Run Attended (iocpInit w α capacity) log s)
    (hparked : s.receiver = .parked)
    (hdue : s.ring.buf.front ≠ s.ring.buf.rear ∨ s.sender.released = true) : Posts 3 s := by
  obtain ⟨hinv, hposted⟩ : Inv capacity (pushedOf log) (receivedOf log) s ∧ Posted s := by
    refine hrun.invariant
      (I := fun log s => Inv capacity (pushedOf log) (receivedOf log) s ∧ Posted s)
      ⟨inv_init.of_awakener _, posted_init⟩ ?_
    rintro log t a e u ⟨hinv, hposted⟩ hallowed hstep
    have hinv' := hinv.iocpStep_ok hstep
    refine ⟨?_, hposted.step_ok hinv hallowed hstep⟩
    rw [pushedOf, List.filterMap_append, receivedOf, List.filterMap_append]
    exact hinv'
  by_cases hpacket : 0 < s.awakener.eventFd
  · exact .inl hpacket
  have hlooked : s.Looked := by simp only [Looked, hparked]
  have hposting : s.sender.posting = true := by
    rcases hdue with hmessage | hreleased
    · have hfront := hinv.drained (.inl (hinv.waiting (by rw [hparked]; rfl)))
      have hne : s.ring.buf.rear ≠ s.ring.buf.shadowRear := fun hrear =>
        hmessage (hfront.trans hrear.symm)
      exact (hposted.message hlooked hne).resolve_left hpacket
    · exact (hposted.release hparked hreleased).resolve_left hpacket
  refine posts_of_posting hposting fun k hload => ?_
  by_contra hfalse
  rcases hposted.outstanding (Bool.eq_false_iff.mpr hfalse) with hpos | hwriting | hresets
  · exact hpacket hpos
  · rw [hload] at hwriting
    cases hwriting
  · exact hlooked.not_resets hresets

instance (s : Channel w α) (a : IocpAction α) : Decidable (Attended s a) :=
  match a with
  | .call (.sender result) =>
      inferInstanceAs (Decidable (s.sender.writing = true → result = .ok ()))
  | .event => inferInstanceAs (Decidable (s.receiver = .idle → s.needReset = true))
  | .call (.receiver _) | .call (.send _ _) | .call .dropSender | .call .poll
  | .call .dropReceiver => inferInstanceAs (Decidable True)

def iocpSend (n : Nat) : List (IocpAction Nat) := List.replicate n (.call (.sender (.ok ())))

def iocpPoll (n : Nat) : List (IocpAction Nat) := List.replicate n (.call (.receiver (.ok ())))

theorem parked_posts_of_one :
    ∃ (log : List (ChannelEvent Nat)) (s : Channel 64 Nat),
      (iocpMachine 64 Nat).Run Attended (iocpInit 64 Nat 1) log s ∧ s.receiver = .parked ∧
        s.ring.buf.front ≠ s.ring.buf.rear ∧ Posts 3 s := by
  have hend : ((iocpMachine 64 Nat).exec Attended
      ([.call .poll] ++ iocpPoll 6 ++ [.call (.send false 7)] ++ iocpSend 6)
      (iocpInit 64 Nat 1)).map (fun r =>
        (r.2.receiver, r.2.ring.buf.front, r.2.ring.buf.rear)) = some (.parked, 0, 1) := by
    decide +kernel
  obtain ⟨⟨log, s⟩, hexec, heq⟩ := Option.map_eq_some_iff.mp hend
  obtain ⟨hparked, hcounters⟩ := Prod.mk.inj heq
  obtain ⟨hfront, hrear⟩ := Prod.mk.inj hcounters
  have hmessage : s.ring.buf.front ≠ s.ring.buf.rear := by
    rw [hfront, hrear]
    decide
  have hrun := Base.Machine.Run.of_exec _ hexec
  exact ⟨log, s, hrun, hparked, hmessage, parked_posts hrun hparked (.inl hmessage)⟩

/-- The packet of the first message is taken while the task does not poll the stream, which parks
later without it: nothing tells of the second message. -/
theorem unattended_misses :
    ¬ ∀ (log : List (ChannelEvent Nat)) (s : Channel 64 Nat),
      (iocpMachine 64 Nat).Run (fun _ _ => True) (iocpInit 64 Nat 1) log s →
        s.receiver = .parked → s.ring.buf.front ≠ s.ring.buf.rear → Posts 3 s := by
  intro h
  have hend : ((iocpMachine 64 Nat).exec (fun _ _ => True)
      ([.call .poll] ++ iocpPoll 1 ++ [.call (.send false 7)] ++ iocpSend 6 ++ iocpPoll 6 ++
        iocpSend 3 ++ [.event, .call .poll] ++ iocpPoll 5 ++ [.call (.send false 8)] ++ iocpSend 9)
      (iocpInit 64 Nat 1)).map (fun r => ((r.2.receiver, r.2.sender),
        (r.2.ring.buf.front, r.2.ring.buf.rear), r.2.awakener.eventFd)) =
      some ((.parked, .idle), (1, 2), 0) := by
    decide +kernel
  obtain ⟨⟨log, s⟩, hexec, heq⟩ := Option.map_eq_some_iff.mp hend
  obtain ⟨hthreads, heq⟩ := Prod.mk.inj heq
  obtain ⟨hparked, hsender⟩ := Prod.mk.inj hthreads
  obtain ⟨hcounters, hpackets⟩ := Prod.mk.inj heq
  obtain ⟨hfront, hrear⟩ := Prod.mk.inj hcounters
  have hmessage : s.ring.buf.front ≠ s.ring.buf.rear := by
    rw [hfront, hrear]
    decide
  have hposts := h log s (.of_exec _ hexec) hparked hmessage
  simp only at hsender hpackets
  simp [Posts, iocpSender, stepSender, hsender, hpackets] at hposts

end Channel

end Ruyi.Sync
