import Ruyi.Sync.ChannelDelivery

namespace Ruyi.Sync

variable {w capacity : Nat} {α : Type}

/-- `SendError` and `TrySendError`. -/
inductive SendError (α : Type) where
  | io (kind : ErrorKind)
  | full (t : α)
  | disconnected (t : α)
  deriving DecidableEq

/-- A call of `send` or `try_send` that has returned: its message, what it has made visible in
the buffer, and its answer. -/
structure SendReport (α : Type) where
  message : α
  placed : List α
  answer : Except (SendError α) Unit

/-- `Ok` has placed the message once, and `Err` has placed nothing. -/
def SendReport.Whole (r : SendReport α) : Prop :=
  match r.answer with
  | .ok () => r.placed = [r.message]
  | .error _ => r.placed = []

/-- The message of a call that says it has been sent. -/
def SendReport.accepted (r : SendReport α) : List α :=
  match r.answer with
  | .ok () => [r.message]
  | .error _ => []

/-- The calls of the sender: the message of the one under way, what it has placed so far, and
those that have returned. -/
structure Sends (α : Type) where
  message : Option α
  placed : List α
  reports : List (SendReport α)

namespace Sends

def init : Sends α := ⟨none, [], []⟩

def answer (h : Sends α) (answer : Except (SendError α) Unit) : Sends α :=
  match h.message with
  | none => h
  | some t => ⟨none, [], h.reports ++ [⟨t, h.placed, answer⟩]⟩

def record (_ : Channel w α) (a : ChannelAction α) (e : ChannelEvent α) (h : Sends α) : Sends α :=
  match a, e with
  | .send _ t, _ => { h with message := some t, placed := [] }
  | .sender _, .pushed t => { h with placed := h.placed ++ [t] }
  | .sender _, .sent _ => h.answer (.ok ())
  | .sender _, .full t => h.answer (.error (.full t))
  | .sender _, .disconnected t => h.answer (.error (.disconnected t))
  | .sender _, .sendFailed kind => h.answer (.error (.io kind))
  | _, _ => h

end Sends

/-- A channel with the calls of its sender. -/
def sendsMachine (w : Nat) (α : Type) :
    Base.Machine (Channel w α × Sends α) (ChannelAction α) (ChannelEvent α) Fault :=
  (channelMachine w α).withHistory Sends.record

namespace Ring

variable {s s' : Ring w α} {e : RingEvent α} {pushed popped : List α}

/-- The values that have been pushed and not been returned by `try_pop`: the one it has read,
and those in the slots. -/
def undelivered (s : Ring w α) : List α :=
  (match s.consumer with
    | .storeFront _ v => [v]
    | _ => []) ++
  (List.range' s.taken (s.buf.rear - s.taken)).filterMap fun k =>
    match s.buf.slots[s.buf.effectiveIndex k]? with
    | some (.holds v) => some v
    | _ => none

theorem filterMap_range'_getElem? (xs : List α) {i n : Nat} (h : i + n = xs.length) :
    (List.range' i n).filterMap (fun k => xs[k]?) = xs.drop i := by
  induction n generalizing i with
  | zero =>
      rw [Nat.add_zero] at h
      rw [h, List.drop_length]
      rfl
  | succ n ih =>
      have hi : i < xs.length := by omega
      rw [List.range'_succ, List.filterMap_cons, List.getElem?_eq_getElem hi,
        ih (by omega), List.drop_eq_getElem_cons hi]

theorem Inv.popped_append_undelivered (h : Inv capacity pushed popped s) :
    popped ++ s.undelivered = pushed := by
  have hslots : (List.range' s.taken (s.buf.rear - s.taken)).filterMap (fun k =>
      match s.buf.slots[s.buf.effectiveIndex k]? with
      | some (.holds v) => some v
      | _ => none) = pushed.drop s.taken := by
    rw [← filterMap_range'_getElem? pushed (i := s.taken) (n := s.buf.rear - s.taken)
      (by have := h.taken_le; rw [h.rear]; omega)]
    refine List.filterMap_congr fun k hk => ?_
    obtain ⟨hle, hlt⟩ := List.mem_range'_1.mp hk
    have hk' : k < pushed.length := by
      rw [h.rear] at hlt
      omega
    rw [h.effectiveIndex, h.held hle (List.getElem?_eq_getElem hk'), List.getElem?_eq_getElem hk']
  have hprefix := h.order
  rw [undelivered, hslots]
  conv_rhs => rw [← List.take_append_drop popped.length pushed, ← hprefix]
  refine congrArg (popped ++ ·) ?_
  have hconsumer := h.consumer
  rw [ConsumerOk] at hconsumer
  rw [taken, ← h.front]
  cases hstate : s.consumer with
  | storeFront front v =>
      rw [hstate] at hconsumer
      obtain ⟨rfl, -, hv⟩ := hconsumer
      obtain ⟨hlt, hv⟩ := List.getElem?_eq_some_iff.mp hv
      rw [List.drop_eq_getElem_cons hlt, hv]
      rfl
  | idle | loadFront | checkShadow | reloadRear | recheck | read => rfl

theorem value_of_produce {t : α} (hvalue : s.producer.value = some t)
    (hstep : s.produce = some (.ok (e, s'))) :
    (e = .silent ∧ s'.producer.value = some t) ∨ e = .refused t ∨ e = .pushed t := by
  have hkept := value_produce hstep
  rw [hvalue] at hkept
  obtain ⟨-, -, -, hend⟩ := produce_cases hstep
  rcases hend with ⟨rfl, -⟩ | ⟨u, rfl, hidle, -⟩ | ⟨u, rfl, hidle⟩
  · exact .inl ⟨rfl, Option.toList_eq_singleton_iff.mp hkept.symm⟩
  · rw [hidle] at hkept
    cases hkept
    exact .inr (.inl rfl)
  · rw [hidle] at hkept
    cases hkept
    exact .inr (.inr rfl)

end Ring

/-- The sender is about to write to the eventfd of the channel, for a message. -/
def Sender.writesReply : Sender α → Bool
  | .writeFd (.reply _) => true
  | _ => false

namespace Channel

variable {s s' : Channel w α} {a : ChannelAction α} {e : ChannelEvent α}
  {log : List (ChannelEvent α)} {result : Except ErrorKind Unit} {sends sends' : Sends α}
  {pushed : List α}

/-- No `wakeup` that is the reply to a message fails. -/
def Replies (s : Channel w α) : ChannelAction α → Prop
  | .sender (.error _) => s.sender.writesReply = false
  | _ => True

instance (s : Channel w α) : (a : ChannelAction α) → Decidable (s.Replies a)
  | .sender (.error _) => inferInstanceAs (Decidable (s.sender.writesReply = false))
  | .sender (.ok _) | .send _ _ | .dropSender | .poll | .dropReceiver | .receiver _ =>
      isTrue trivial

/-- The call under way, for where the sender stands. -/
def Standing (s : Channel w α) (sends : Sends α) : Prop :=
  match s.sender with
  | .testCount _ t => sends.message = some t ∧ sends.placed = []
  | .pushing _ =>
      (∃ t, sends.message = some t ∧ s.ring.producer.value = some t) ∧ sends.placed = []
  | .loadFlag (.reply t) | .writeFd (.reply t) | .storeFlag (.reply t) =>
      sends.message = some t ∧ sends.placed = [t]
  | _ => sends.message = none ∧ sends.placed = []

/-- What the calls of the sender have placed is what has been pushed. -/
structure Tallied (pushed : List α) (s : Channel w α) (sends : Sends α) : Prop where
  placed : sends.reports.flatMap (·.placed) ++ sends.placed = pushed
  standing : s.Standing sends

/-- What a step adds to the reports: a call that has returned, all done or not done at all
unless its `wakeup` has failed. -/
def Reported (s : Channel w α) (a : ChannelAction α) (sends sends' : Sends α) : Prop :=
  (sends'.reports = sends.reports ∧ s.Replies a) ∨
    ∃ r, sends'.reports = sends.reports ++ [r] ∧ (r.Whole ↔ s.Replies a)

theorem tallied_init : Tallied [] (init w α capacity) Sends.init := ⟨rfl, rfl, rfl⟩

namespace Tallied

theorem quiet (h : Tallied pushed s sends) (hpush : pushedOf [e] = []) (hreplies : s.Replies a)
    (hstanding : s'.Standing sends) :
    Tallied (pushed ++ pushedOf [e]) s' sends ∧ s.Reported a sends sends := by
  rw [hpush, List.append_nil]
  exact ⟨⟨h.placed, hstanding⟩, .inl ⟨rfl, hreplies⟩⟩

theorem answered (h : Tallied pushed s sends) (hpush : pushedOf [e] = []) {t : α}
    (hmessage : sends.message = some t) {answer : Except (SendError α) Unit}
    (hwhole : SendReport.Whole ⟨t, sends.placed, answer⟩ ↔ s.Replies a)
    (hidle : s'.sender = .idle) :
    Tallied (pushed ++ pushedOf [e]) s' (sends.answer answer) ∧
      s.Reported a sends (sends.answer answer) := by
  have hanswer : sends.answer answer =
      ⟨none, [], sends.reports ++ [⟨t, sends.placed, answer⟩]⟩ := by
    rw [Sends.answer, hmessage]
  rw [hanswer, hpush, List.append_nil]
  refine ⟨⟨?_, ?_⟩, .inr ⟨_, rfl, hwhole⟩⟩
  · rw [← h.placed, List.flatMap_append, List.flatMap_singleton, List.append_nil]
  · rw [Standing, hidle]
    exact ⟨rfl, rfl⟩

theorem of_wokenUp (h : Tallied pushed s sends) {k : Wakeup α} {awakener : Awakener}
    (hstanding : ({ s with sender := .loadFlag k } : Channel w α).Standing sends)
    (hreplies : s.Replies (.sender result))
    (hr : wokenUp { s with awakener := awakener } k = (e, s')) :
    Tallied (pushed ++ pushedOf [e]) s' (sends.record s (.sender result) e) ∧
      s.Reported (.sender result) sends (sends.record s (.sender result) e) := by
  cases k with
  | reply t =>
      cases hr
      obtain ⟨hmessage, hplaced⟩ := hstanding
      exact h.answered rfl hmessage (iff_of_true hplaced hreplies) rfl
  | dropping =>
      cases hr
      exact h.quiet rfl hreplies hstanding

end Tallied

theorem replies_of_not_writesReply (h : s.sender.writesReply = false) :
    s.Replies (.sender result) := by
  cases result with
  | ok _ => trivial
  | error kind => exact h

namespace Tallied

theorem sender_pushing (h : Tallied pushed s sends) {retry : Bool}
    (hsender : s.sender = .pushing retry) (hstep : s.stepSender result = some (.ok (e, s'))) :
    Tallied (pushed ++ pushedOf [e]) s' (sends.record s (.sender result) e) ∧
      s.Reported (.sender result) sends (sends.record s (.sender result) e) := by
  have hreplies : s.Replies (.sender result) := replies_of_not_writesReply (by rw [hsender]; rfl)
  have hstanding := h.standing
  rw [Standing, hsender] at hstanding
  obtain ⟨⟨t, hmessage, hvalue⟩, hplaced⟩ := hstanding
  obtain ⟨event, ring, hproduce, hcases⟩ := pushing_cases hsender hstep
  have hend := Ring.value_of_produce hvalue hproduce
  rcases hcases with ⟨rfl, -, rfl, rfl⟩ | ⟨t', rfl, -, ⟨rfl, rfl⟩ | ⟨rfl, rfl⟩⟩ |
    ⟨t', rfl, -, rfl, rfl⟩
  · have hkept : ring.producer.value = some t := by simpa using hend
    refine h.quiet rfl hreplies ?_
    rw [Standing, hsender]
    exact ⟨⟨t, hmessage, hkept⟩, hplaced⟩
  · obtain rfl : t' = t := by simpa using hend
    exact h.quiet rfl hreplies ⟨hmessage, hplaced⟩
  · exact h.answered rfl hmessage (iff_of_true hplaced hreplies) rfl
  · obtain rfl : t' = t := by simpa using hend
    refine ⟨⟨?_, hmessage, ?_⟩, .inl ⟨rfl, hreplies⟩⟩
    · rw [← h.placed, List.append_assoc]
      rfl
    · show sends.placed ++ [t'] = [t']
      rw [hplaced]
      rfl

theorem sender_writeFd (h : Tallied pushed s sends) {k : Wakeup α}
    (hsender : s.sender = .writeFd k) (hstep : s.stepSender result = some (.ok (e, s'))) :
    Tallied (pushed ++ pushedOf [e]) s' (sends.record s (.sender result) e) ∧
      s.Reported (.sender result) sends (sends.record s (.sender result) e) := by
  have hstanding := h.standing
  unfold Standing at hstanding
  rw [hsender] at hstanding
  rw [stepSender, hsender] at hstep
  dsimp only at hstep
  split at hstep
  · cases hstep
    refine h.quiet rfl trivial ?_
    cases k <;> exact hstanding
  · cases k with
    | dropping =>
        cases hstep
        exact h.quiet rfl (replies_of_not_writesReply (by rw [hsender]; rfl)) hstanding
    | reply t =>
        -- The message is in the buffer, and `Err` says that it is not.
        cases hstep
        obtain ⟨hmessage, hplaced⟩ := hstanding
        refine h.answered rfl hmessage (iff_of_false ?_ ?_) rfl
        · rw [SendReport.Whole, hplaced]
          simp
        · rw [Replies, hsender]
          simp [Sender.writesReply]

end Tallied

theorem tallied_sender (h : Tallied pushed s sends)
    (hstep : s.stepSender result = some (.ok (e, s'))) :
    Tallied (pushed ++ pushedOf [e]) s' (sends.record s (.sender result) e) ∧
      s.Reported (.sender result) sends (sends.record s (.sender result) e) := by
  have hstanding := h.standing
  unfold Standing at hstanding
  cases hsender : s.sender with
  | idle | gone =>
      rw [stepSender, hsender] at hstep
      cases hstep
  | testCount retry t =>
      have hreplies : s.Replies (.sender result) :=
        replies_of_not_writesReply (by rw [hsender]; rfl)
      rw [hsender] at hstanding
      obtain ⟨hmessage, hplaced⟩ := hstanding
      rw [stepSender, hsender] at hstep
      dsimp only at hstep
      split at hstep
      · cases hstep
        exact h.answered rfl hmessage (iff_of_true hplaced hreplies) rfl
      · cases hstep
        exact h.quiet rfl hreplies ⟨⟨t, hmessage, rfl⟩, hplaced⟩
  | pushing retry => exact h.sender_pushing hsender hstep
  | release =>
      rw [hsender] at hstanding
      rw [stepSender, hsender] at hstep
      cases hstep
      exact h.quiet rfl (replies_of_not_writesReply (by rw [hsender]; rfl)) hstanding
  | loadFlag k =>
      have hreplies : s.Replies (.sender result) :=
        replies_of_not_writesReply (by rw [hsender]; rfl)
      rw [hsender] at hstanding
      rw [stepSender, hsender] at hstep
      dsimp only at hstep
      split at hstep
      · cases hstep
        refine h.quiet rfl hreplies ?_
        cases k <;> exact hstanding
      · refine h.of_wokenUp (k := k) ?_ hreplies (Except.ok.inj (Option.some.inj hstep))
        cases k <;> exact hstanding
  | writeFd k => exact h.sender_writeFd hsender hstep
  | storeFlag k =>
      rw [hsender] at hstanding
      rw [stepSender, hsender] at hstep
      refine h.of_wokenUp (k := k) ?_ (replies_of_not_writesReply (by rw [hsender]; rfl))
        (Except.ok.inj (Option.some.inj hstep))
      cases k <;> exact hstanding

theorem Standing.congr (h : s.Standing sends) (hsender : s'.sender = s.sender)
    (hproducer : s'.ring.producer = s.ring.producer) : s'.Standing sends := by
  unfold Standing at h ⊢
  rw [hsender, hproducer]
  exact h

theorem Tallied.step_ok (h : Tallied pushed s sends) (hstep : s.step a = some (.ok (e, s'))) :
    Tallied (pushed ++ pushedOf [e]) s' (sends.record s a e) ∧
      s.Reported a sends (sends.record s a e) := by
  cases a with
  | send retry t =>
      rw [step] at hstep
      split at hstep
      · rename_i hsender
        cases hstep
        have hstanding := h.standing
        rw [Standing, hsender] at hstanding
        refine ⟨⟨?_, rfl, rfl⟩, .inl ⟨rfl, trivial⟩⟩
        rw [← h.placed, hstanding.2]
        exact (List.append_nil _).symm
      · cases hstep
  | dropSender =>
      rw [step] at hstep
      split at hstep
      · rename_i hsender
        cases hstep
        have hstanding := h.standing
        rw [Standing, hsender] at hstanding
        exact h.quiet rfl trivial hstanding
      · cases hstep
  | sender result => exact tallied_sender h hstep
  | poll =>
      have hpoll : s.startPoll.Standing sends := by
        refine h.standing.congr ?_ ?_ <;> rw [startPoll] <;> split <;> rfl
      rw [step] at hstep
      split at hstep
      · cases hstep
        exact h.quiet rfl trivial hpoll
      · cases hstep
        exact h.quiet rfl trivial hpoll
      · cases hstep
  | dropReceiver =>
      rw [step] at hstep
      split at hstep
      · cases hstep
        exact h.quiet rfl trivial (h.standing.congr rfl rfl)
      · cases hstep
        exact h.quiet rfl trivial (h.standing.congr rfl rfl)
      · cases hstep
  | receiver result =>
      obtain ⟨hsender, hproducer, -, hpush, -⟩ := receiver_cases hstep
      exact h.quiet hpush trivial (h.standing.congr hsender hproducer)

/-- `Ok` has placed its message once, and `Err` nothing.  What the receiver has been given and
what is in the buffer are the messages of the calls that have returned `Ok`, in their order, and
what the call under way has placed. -/
structure AllOrNothing (log : List (ChannelEvent α)) (s : Channel w α) (sends : Sends α) :
    Prop where
  whole : ∀ r ∈ sends.reports, r.Whole
  delivered : receivedOf log ++ s.ring.undelivered =
    sends.reports.flatMap (·.accepted) ++ sends.placed

theorem placed_eq_accepted {r : SendReport α} (h : r.Whole) : r.placed = r.accepted := by
  unfold SendReport.Whole at h
  unfold SendReport.accepted
  split at h <;> exact h

theorem tallied_of_run {p : Channel w α × Sends α}
    {ok : Channel w α × Sends α → ChannelAction α → Prop}
    (hrun : (sendsMachine w α).Run ok (init w α capacity, Sends.init) log p) :
    Tallied (pushedOf log) p.1 p.2 := by
  refine hrun.invariant (s := (_, _)) (I := fun log (p : Channel w α × Sends α) =>
    Tallied (pushedOf log) p.1 p.2) tallied_init ?_
  rintro log ⟨t, h⟩ a e ⟨u, h'⟩ htallied - hstep
  obtain ⟨hnext, rfl⟩ := Base.Machine.withHistory_step.mp hstep
  rw [pushedOf, List.filterMap_append]
  exact (htallied.step_ok hnext).1

theorem whole_of_replies {p : Channel w α × Sends α}
    (hrun : (sendsMachine w α).Run (fun p => Replies p.1) (init w α capacity, Sends.init) log p) :
    ∀ r ∈ p.2.reports, r.Whole := by
  suffices h : Tallied (pushedOf log) p.1 p.2 ∧ ∀ r ∈ p.2.reports, r.Whole from h.2
  refine hrun.invariant (s := (_, _)) (I := fun log (p : Channel w α × Sends α) =>
    Tallied (pushedOf log) p.1 p.2 ∧ ∀ r ∈ p.2.reports, r.Whole)
    ⟨tallied_init, fun r hr => absurd hr List.not_mem_nil⟩ ?_
  rintro log ⟨t, h⟩ a e ⟨u, h'⟩ ⟨htallied, hwhole⟩ hreplies hstep
  obtain ⟨hnext, rfl⟩ := Base.Machine.withHistory_step.mp hstep
  obtain ⟨htallied', hreported⟩ := htallied.step_ok hnext
  refine ⟨?_, ?_⟩
  · rw [pushedOf, List.filterMap_append]
    exact htallied'
  · rcases hreported with ⟨hsame, -⟩ | ⟨r, hadded, hiff⟩
    · exact fun r hr => hwhole r (hsame ▸ hr)
    · intro r' hr'
      rw [hadded] at hr'
      rcases List.mem_append.mp hr' with hr' | hr'
      · exact hwhole r' hr'
      · rw [List.mem_singleton.mp hr']
        exact hiff.mpr hreplies

theorem replies_of_whole {p : Channel w α × Sends α}
    (hrun : (sendsMachine w α).Run (fun _ _ => True) (init w α capacity, Sends.init) log p)
    (hwhole : ∀ r ∈ p.2.reports, r.Whole) :
    (sendsMachine w α).Run (fun p => Replies p.1) (init w α capacity, Sends.init) log p := by
  induction hrun with
  | nil => exact .nil
  | @snoc log p q a e hrun _ hstep ih =>
      obtain ⟨hnext, hrecord⟩ := Base.Machine.withHistory_step.mp hstep
      rw [hrecord] at hwhole
      rcases ((tallied_of_run hrun).step_ok hnext).2 with ⟨hsame, hreplies⟩ | ⟨r, hadded, hiff⟩
      · rw [hsame] at hwhole
        exact (ih hwhole).snoc hreplies hstep
      · rw [hadded] at hwhole
        refine (ih fun r' hr' => hwhole r' (List.mem_append_left _ hr')).snoc (hiff.mp ?_) hstep
        exact hwhole r (List.mem_append_right _ List.mem_cons_self)

/-- A failed send has no effect exactly in the runs in which no reply fails. -/
theorem failed_send_has_no_effect_iff
    (hrun : (sendsMachine w α).Run (fun _ _ => True) (init w α capacity, Sends.init) log
      (s, sends)) :
    AllOrNothing log s sends ↔
      (sendsMachine w α).Run (fun p => Replies p.1) (init w α capacity, Sends.init) log
        (s, sends) := by
  refine ⟨fun h => replies_of_whole hrun h.whole, fun hreplies => ?_⟩
  have hwhole := whole_of_replies hreplies
  have htallied := tallied_of_run hrun
  have hchannel : (channelMachine w α).Run (fun _ _ => True) (init w α capacity) log s :=
    Base.Machine.Run.forget (M := channelMachine w α) (fun _ _ _ => trivial) hrun
  refine ⟨hwhole, ?_⟩
  rw [(inv_of_run hchannel).ring.popped_append_undelivered, ← htallied.placed]
  refine congrArg (· ++ sends.placed) ?_
  rw [List.flatMap_def, List.flatMap_def]
  exact congrArg List.flatten (List.map_congr_left fun r hr => placed_eq_accepted (hwhole r hr))

theorem failed_send_has_no_effect_of_one :
    ∃ (log : List (ChannelEvent Nat)) (s : Channel 64 Nat) (sends : Sends Nat),
      (sendsMachine 64 Nat).Run (fun _ _ => True) (init 64 Nat 1, Sends.init) log (s, sends) ∧
        receivedOf log = [7] ∧ sends.reports.length = 1 ∧ AllOrNothing log s sends := by
  let go : ChannelAction Nat := .sender (.ok ())
  let look : ChannelAction Nat := .receiver (.ok ())
  let as : List (ChannelAction Nat) :=
    [.send false 7, go, go, go, go, go, go, go, go, go, .poll, look, look, look, look, look, look,
      look, look, look]
  have hend : ((sendsMachine 64 Nat).exec (fun p => Replies p.1) as (init 64 Nat 1, Sends.init)).map
      (fun r => (receivedOf r.1, r.2.2.reports.length)) = some ([7], 1) := by decide +kernel
  obtain ⟨⟨log, s, sends⟩, hexec, hend⟩ := Option.map_eq_some_iff.mp hend
  obtain ⟨hreceived, hlength⟩ := Prod.mk.inj hend
  have hreplies := Base.Machine.Run.of_exec as hexec
  have hrun := hreplies.mono fun _ _ _ => trivial
  exact ⟨log, s, sends, hrun, hreceived, hlength,
    (failed_send_has_no_effect_iff hrun).mpr hreplies⟩

/-- The message of a `try_send` that has failed is received. -/
theorem failed_send_received :
    ¬ ∀ (log : List (ChannelEvent Nat)) (s : Channel 64 Nat) (sends : Sends Nat),
      (sendsMachine 64 Nat).Run (fun _ _ => True) (init 64 Nat 1, Sends.init) log (s, sends) →
        AllOrNothing log s sends := by
  intro h
  let go : ChannelAction Nat := .sender (.ok ())
  let look : ChannelAction Nat := .receiver (.ok ())
  let as : List (ChannelAction Nat) :=
    [.send false 7, go, go, go, go, go, go, go, .sender (.error (.other 9)), .poll, look, look,
      look, look, look, look, look]
  have hend : ((sendsMachine 64 Nat).exec (fun _ _ => True) as (init 64 Nat 1, Sends.init)).map
      (fun r => (receivedOf r.1, r.2.2.reports.flatMap (·.accepted), r.2.2.placed)) =
        some ([7], [], []) := by decide +kernel
  obtain ⟨⟨log, s, sends⟩, hexec, hend⟩ := Option.map_eq_some_iff.mp hend
  obtain ⟨hreceived, hend⟩ := Prod.mk.inj hend
  obtain ⟨haccepted, hplaced⟩ := Prod.mk.inj hend
  have hdelivered := (h log s sends (Base.Machine.Run.of_exec as hexec)).delivered
  rw [hreceived, haccepted, hplaced] at hdelivered
  cases hdelivered

end Channel

end Ruyi.Sync
