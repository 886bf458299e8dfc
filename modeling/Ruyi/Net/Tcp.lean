import Ruyi.Base.Machine
import Ruyi.Sys.Tcp

namespace Ruyi.Net

open Buf Sys

variable {τ : Type}

/-- `Sender`.  A `SendHalf` is the same over a shared `Nio`, which a `Recv` or a `RecvHalf` has,
too. -/
structure Sender where
  inner : Nio
  buf : ByteBuf

namespace Sender

/-- `start_send`, which takes all it is given. -/
def startSend (self : Sender) (data : ByteBuf) : Sender :=
  if self.buf.isEmpty then { self with buf := data } else { self with buf := self.buf.extend data }

def pollComplete (self : Sender) (schedules : Slab (Schedule τ)) (current : τ)
    (answer : Except IoError Nat) (result : Except ErrorKind Unit) : Except Fault (Sent τ) :=
  OStream.pollSend self.inner self.buf schedules current answer result

/-- `close`, with the result of `shutdown`. -/
def close (self : Sender) (schedules : Slab (Schedule τ)) (current : τ)
    (answer : Except IoError Nat) (result shutdown : Except ErrorKind Unit) :
    Except Fault (Sent τ) :=
  (OStream.pollSend self.inner self.buf schedules current answer result).map fun out =>
    match out.poll with
    | .ok (.ready ()) => { out with poll := afterCall shutdown (.ready ()) }
    | _ => out

end Sender

theorem getReadyTasks_snd (event : Event) (schedule : Schedule τ) :
    (getReadyTasks event schedule).2.readTask = schedule.readTask ∧
      (getReadyTasks event schedule).2.writeTask = schedule.writeTask ∧
      (getReadyTasks event schedule).2.registration = schedule.registration := by
  unfold getReadyTasks
  split <;> exact ⟨rfl, rfl, rfl⟩

/-- The streams of a thread, over the schedules of its loop and the buffer that they are read
into.  `registered` counts the calls of `Nio::try_from`, and a stream goes by its own. -/
structure Streams (τ : Type) where
  schedules : Slab (Schedule τ)
  buffer : Buffer
  allocs : List Nat
  streams : Nat → Option Sender
  registered : Nat

/-- A call on a stream, from the task that makes it, or an event that the poller reports. -/
inductive StreamAction (τ : Type) where
  | tryFrom (task : τ) (result : Except ErrorKind Unit)
  | drop (i : Nat) (result : Except ErrorKind Unit)
  | startSend (i : Nat) (data : ByteBuf)
  | pollComplete (i : Nat) (task : τ) (answer : Except IoError Nat)
      (result : Except ErrorKind Unit)
  | close (i : Nat) (task : τ) (answer : Except IoError Nat)
      (result shutdown : Except ErrorKind Unit)
  | pollRecv (i : Nat) (task : τ) (answer : Except IoError (List UInt8))
      (result : Except ErrorKind Unit)
  | event (event : Event)

inductive StreamEvent (τ : Type) where
  | opened (i : Nat) (result : Except ErrorKind Unit)
  | dropped (i : Nat)
  | started (i : Nat) (bytes : List UInt8)
  | sent (i : Nat) (task : τ) (taken : Option (List UInt8)) (poll : Poll Unit)
  | received (i : Nat) (task : τ) (asked : Bool) (poll : Poll (Option ByteBuf))
  | ready (event : Event) (tasks : ReadyTasks τ)

/-- The stream that an event is about. -/
def StreamEvent.stream : StreamEvent τ → Option Nat
  | .opened i _ => some i
  | .dropped i => some i
  | .started i _ => some i
  | .sent i _ _ _ => some i
  | .received i _ _ _ => some i
  | .ready _ _ => none

namespace Streams

def init (buffer : Buffer) (allocs : List Nat) : Streams τ :=
  ⟨Slab.empty, buffer, allocs, fun _ => none, 0⟩

def put (s : Streams τ) (i : Nat) (stream : Option Sender) : Streams τ :=
  { s with streams := Function.update s.streams i stream }

/-- The state after a poll of the sink of stream `i`. -/
def putSent (s : Streams τ) (i : Nat) (task : τ) (out : Sent τ) : StreamEvent τ × Streams τ :=
  (.sent i task out.taken out.poll,
    { s with schedules := out.schedules }.put i (some ⟨out.nio, out.data⟩))

def putReceived (s : Streams τ) (i : Nat) (task : τ) (buf : ByteBuf) (out : Received τ) :
    StreamEvent τ × Streams τ :=
  (.received i task out.asked out.poll,
    { s with schedules := out.schedules, buffer := out.buffer, allocs := out.allocs }.put i
      (some ⟨out.nio, buf⟩))

def step (s : Streams τ) : StreamAction τ → Option (Except Fault (StreamEvent τ × Streams τ))
  | .tryFrom task result =>
      let r := Nio.register s.schedules s.registered task result
      let stream := match r.1 with
        | .ok nio => some ⟨nio, .new⟩
        | .error _ => none
      some (.ok (.opened s.registered result,
        { s with schedules := r.2, registered := s.registered + 1 }.put s.registered stream))
  | .drop i result => (s.streams i).map fun stream =>
      .ok (.dropped i,
        { s with schedules := stream.inner.deregister s.schedules result }.put i none)
  | .startSend i data => (s.streams i).map fun stream =>
      .ok (.started i data.content, s.put i (some (stream.startSend data)))
  | .pollComplete i task answer result => (s.streams i).map fun stream =>
      (stream.pollComplete s.schedules task answer result).map (s.putSent i task)
  | .close i task answer result shutdown => (s.streams i).map fun stream =>
      (stream.close s.schedules task answer result shutdown).map (s.putSent i task)
  | .pollRecv i task answer result => (s.streams i).map fun stream =>
      (IStream.pollRecv stream.inner s.buffer s.allocs s.schedules task answer result).map
        (s.putReceived i task stream.buf)
  | .event event => some (
      match s.schedules.get event.token with
      | none => .error .freed
      | some schedule =>
          let r := getReadyTasks event schedule
          .ok (.ready event r.1,
            { s with schedules := s.schedules.modify event.token fun _ => r.2 }))

end Streams

def streamMachine : Base.Machine (Streams τ) (StreamAction τ) (StreamEvent τ) Fault :=
  ⟨Streams.step⟩

/-- A poll of a sink: the stream, the task and what the socket takes. -/
def StreamAction.send : StreamAction τ → Option (Nat × τ × Except IoError Nat)
  | .pollComplete i task answer _ => some (i, task, answer)
  | .close i task answer _ _ => some (i, task, answer)
  | _ => none

/-- What an action can do to stream `i` and its schedule. -/
inductive Moves (i : Nat) (stream : Sender) (schedule : Schedule τ) :
    StreamAction τ → StreamEvent τ → Sender → Schedule τ → Prop where
  | idle {a : StreamAction τ} {e : StreamEvent τ} (other : e.stream ≠ some i) :
      Moves i stream schedule a e stream schedule
  | ready {event : Event} (token_eq : event.token = stream.inner.token) :
      Moves i stream schedule (.event event) (.ready event (getReadyTasks event schedule).1)
        stream (getReadyTasks event schedule).2
  | started (data : ByteBuf) :
      Moves i stream schedule (.startSend i data) (.started i data.content)
        (stream.startSend data) schedule
  | sent {a : StreamAction τ} {schedules : Slab (Schedule τ)} {task : τ}
      {answer : Except IoError Nat} {out : Sent τ} {schedule' : Schedule τ}
      (send : a.send = some (i, task, answer))
      (sends : Sends stream.inner stream.buf schedules task answer out schedule schedule') :
      Moves i stream schedule a (.sent i task out.taken out.poll) ⟨out.nio, out.data⟩ schedule'
  | received {schedules : Slab (Schedule τ)} {task : τ} {answer : Except IoError (List UInt8)}
      {result : Except ErrorKind Unit} {out : Received τ} {schedule' : Schedule τ}
      (recvs : Recvs stream.inner schedules task answer out schedule schedule') :
      Moves i stream schedule (.pollRecv i task answer result)
        (.received i task out.asked out.poll) ⟨out.nio, stream.buf⟩ schedule'

namespace Sender

variable {schedules : Slab (Schedule τ)} {schedule : Schedule τ} {self : Sender}

theorem inner_startSend (self : Sender) (data : ByteBuf) :
    (self.startSend data).inner = self.inner := by
  rw [startSend]
  split <;> rfl

theorem content_startSend (self : Sender) (data : ByteBuf) :
    (self.startSend data).buf.content = self.buf.content ++ data.content := by
  rw [startSend]
  split
  · rename_i hempty
    rw [ByteBuf.isEmpty_iff.mp hempty, List.nil_append]
  · exact self.buf.content_extend data

theorem pollComplete_ok (hget : schedules.get self.inner.token = some schedule) (current : τ)
    (answer : Except IoError Nat) (result : Except ErrorKind Unit) :
    ∃ out schedule', self.pollComplete schedules current answer result = .ok out ∧
      Sends self.inner self.buf schedules current answer out schedule schedule' :=
  OStream.pollSend_ok hget self.buf current answer result

theorem close_ok (hget : schedules.get self.inner.token = some schedule) (current : τ)
    (answer : Except IoError Nat) (result shutdown : Except ErrorKind Unit) :
    ∃ out schedule', self.close schedules current answer result shutdown = .ok out ∧
      Sends self.inner self.buf schedules current answer out schedule schedule' := by
  obtain ⟨out, schedule', hcall, hsends⟩ := OStream.pollSend_ok hget self.buf current answer result
  rw [close, hcall]
  obtain ⟨poll, taken, nio, data, schedules'⟩ := out
  match poll with
  | .ok (.ready ()) =>
      refine ⟨_, schedule', rfl, hsends.changed, hsends.token_eq, hsends.read_eq,
        hsends.readTask_eq, hsends.content_eq, fun _ => hsends.drained rfl,
        fun _ => hsends.stays rfl, fun htells => ?_⟩
      cases (ok_of_tells_afterCall htells).2
  | .ok .notReady => exact ⟨_, schedule', rfl, hsends⟩
  | .error _ => exact ⟨_, schedule', rfl, hsends⟩

end Sender

namespace Streams

/-- Stream `i` is there, and so is its schedule. -/
structure Tracks (s : Streams τ) (i : Nat) (stream : Sender) (schedule : Schedule τ) : Prop where
  stream_eq : s.streams i = some stream
  get_eq : s.schedules.get stream.inner.token = some schedule
  registration_eq : schedule.registration = i

/-- Each stream has a schedule of its own. -/
structure Sound (s : Streams τ) : Prop where
  tracked : ∀ i stream, s.streams i = some stream → ∃ schedule, s.Tracks i stream schedule
  fresh : ∀ i, s.registered ≤ i → s.streams i = none

variable {s t : Streams τ} {i j : Nat} {stream stream' other : Sender}
  {schedule schedule' : Schedule τ} {a : StreamAction τ} {e : StreamEvent τ}

theorem Sound.token_ne (h : s.Sound) (hi : s.streams i = some stream)
    (hj : s.streams j = some other) (hne : i ≠ j) : stream.inner.token ≠ other.inner.token := by
  intro htoken
  obtain ⟨x, hx⟩ := h.tracked i stream hi
  obtain ⟨y, hy⟩ := h.tracked j other hj
  have hsame : some x = some y := by rw [← hx.get_eq, htoken, hy.get_eq]
  cases hsame
  exact hne (hx.registration_eq.symm.trans hy.registration_eq)

theorem Sound.lt (h : s.Sound) (hi : s.streams i = some stream) : i < s.registered := by
  refine Nat.lt_of_not_le fun hle => ?_
  rw [h.fresh i hle] at hi
  cases hi

theorem Sound.moves (h : s.Sound) (hj : s.Tracks j stream schedule)
    (hchanged : Changed s.schedules t.schedules stream.inner.token schedule schedule')
    (htoken : other.inner.token = stream.inner.token)
    (hstreams : t.streams = Function.update s.streams j (some other))
    (hmoves : Moves j stream schedule a e other schedule') (hstream : e.stream = some j)
    (hi : t.streams i = some stream') :
    ∃ before x x',
      s.Tracks i before x ∧ t.Tracks i stream' x' ∧ Moves i before x a e stream' x' := by
  by_cases hij : i = j
  · subst hij
    have hother : t.streams i = some other := by rw [hstreams, Function.update_self]
    rw [hother] at hi
    cases hi
    refine ⟨stream, schedule, schedule', hj, ⟨hother, ?_, ?_⟩, hmoves⟩
    · rw [htoken]
      exact hchanged.get_self
    · rw [hchanged.registration_eq, hj.registration_eq]
  · have hi' : s.streams i = some stream' := by
      rwa [hstreams, Function.update_of_ne hij] at hi
    obtain ⟨x, hx⟩ := h.tracked i stream' hi'
    refine ⟨stream', x, x, hx, ⟨hi, ?_, hx.registration_eq⟩, .idle ?_⟩
    · rw [hchanged.get_other _ (h.token_ne hi' hj.stream_eq hij), hx.get_eq]
    · rw [hstream]
      exact fun heq => hij (Option.some.inj heq).symm

theorem Tracks.idle (h : s.Tracks i stream schedule) (hi : t.streams i = some stream)
    (hget : t.schedules.get stream.inner.token = s.schedules.get stream.inner.token)
    (hstream : e.stream ≠ some i) :
    ∃ before x x', s.Tracks i before x ∧ t.Tracks i stream x' ∧ Moves i before x a e stream x' :=
  ⟨stream, schedule, schedule, h, ⟨hi, hget.trans h.get_eq, h.registration_eq⟩, .idle hstream⟩

theorem Sound.tryFrom (h : s.Sound) {task : τ} {result : Except ErrorKind Unit}
    (hstep : s.step (.tryFrom task result) = some (.ok (e, t))) (hi : t.streams i = some stream') :
    (e = .opened i (.ok ()) ∧ i = s.registered ∧ stream'.buf = .new ∧
        t.Tracks i stream' (.new i task)) ∨
      ∃ before x x', s.Tracks i before x ∧ t.Tracks i stream' x' ∧
        Moves i before x (.tryFrom task result) e stream' x' := by
  cases hstep
  by_cases hnew : i = s.registered
  · subst hnew
    match result with
    | .ok () =>
        cases (Function.update_self _ _ _).symm.trans hi
        refine .inl ⟨rfl, rfl, rfl, hi, ?_, rfl⟩
        exact (Slab.get_insert _ _ _).trans (if_pos rfl)
    | .error _ => cases (Function.update_self _ _ _).symm.trans hi
  · have hi' : s.streams i = some stream' := (Function.update_of_ne hnew _ _).symm.trans hi
    obtain ⟨x, hx⟩ := h.tracked i stream' hi'
    refine .inr (hx.idle hi ?_ fun heq => hnew (Option.some.inj heq).symm)
    exact (Nio.get_register hx.get_eq _ task result).trans hx.get_eq.symm

theorem Sound.drop (h : s.Sound) {result : Except ErrorKind Unit}
    (hstep : s.step (.drop j result) = some (.ok (e, t))) (hi : t.streams i = some stream') :
    ∃ before x x', s.Tracks i before x ∧ t.Tracks i stream' x' ∧
      Moves i before x (.drop j result) e stream' x' := by
  obtain ⟨gone, hj, hr⟩ := Option.map_eq_some_iff.mp hstep
  cases hr
  have hij : i ≠ j := by
    rintro rfl
    cases (Function.update_self _ _ _).symm.trans hi
  have hi' : s.streams i = some stream' := (Function.update_of_ne hij _ _).symm.trans hi
  obtain ⟨x, hx⟩ := h.tracked i stream' hi'
  refine hx.idle hi ?_ fun heq => hij (Option.some.inj heq).symm
  match result with
  | .ok () => exact (Slab.get_remove _ _ _).trans (if_neg (h.token_ne hi' hj hij))
  | .error _ => rfl

theorem Tracks.event (h : s.Tracks i stream schedule) {event : Event}
    (htoken : event.token = stream.inner.token) :
    s.step (.event event) = some (.ok (.ready event (getReadyTasks event schedule).1,
      { s with schedules := s.schedules.modify event.token fun _ =>
          (getReadyTasks event schedule).2 })) := by
  rw [step, htoken, h.get_eq]

theorem Sound.event (h : s.Sound) {event : Event}
    (hstep : s.step (.event event) = some (.ok (e, t))) (hi : t.streams i = some stream') :
    ∃ before x x', s.Tracks i before x ∧ t.Tracks i stream' x' ∧
      Moves i before x (.event event) e stream' x' := by
  have hstep := Option.some.inj hstep
  split at hstep
  · cases hstep
  · rename_i schedule hget
    cases hstep
    obtain ⟨x, hx⟩ := h.tracked i stream' hi
    by_cases htoken : event.token = stream'.inner.token
    · rw [htoken, hx.get_eq] at hget
      cases hget
      refine ⟨stream', schedule, _, hx, ⟨hi, ?_, ?_⟩, .ready htoken⟩
      · refine (Slab.get_modify _ _ _ _).trans ((if_pos htoken.symm).trans ?_)
        rw [htoken, hx.get_eq]
        rfl
      · rw [(getReadyTasks_snd event schedule).2.2, hx.registration_eq]
    · refine hx.idle hi ?_ fun heq => by cases heq
      exact (Slab.get_modify _ _ _ _).trans (if_neg (Ne.symm htoken))

theorem Sound.step (h : s.Sound) (hstep : s.step a = some (.ok (e, t)))
    (hi : t.streams i = some stream') :
    (e = .opened i (.ok ()) ∧ i = s.registered ∧ stream'.buf = .new ∧
        ∃ task, t.Tracks i stream' (.new i task)) ∨
      ∃ before x x', s.Tracks i before x ∧ t.Tracks i stream' x' ∧
        Moves i before x a e stream' x' := by
  match a with
  | .tryFrom task result =>
      rcases h.tryFrom hstep hi with ⟨he, hnew, hbuf, htracks⟩ | hmoves
      · exact .inl ⟨he, hnew, hbuf, task, htracks⟩
      · exact .inr hmoves
  | .drop j result => exact .inr (h.drop hstep hi)
  | .event event => exact .inr (h.event hstep hi)
  | .startSend j data =>
      obtain ⟨stream, hj, hr⟩ := Option.map_eq_some_iff.mp hstep
      cases hr
      obtain ⟨x, hx⟩ := h.tracked j stream hj
      exact .inr (h.moves hx (.refl hx.get_eq)
        (congrArg Nio.token (stream.inner_startSend data)) rfl (.started data) rfl hi)
  | .pollComplete j task answer result =>
      obtain ⟨stream, hj, hr⟩ := Option.map_eq_some_iff.mp hstep
      obtain ⟨x, hx⟩ := h.tracked j stream hj
      obtain ⟨out, x', hcall, hsends⟩ := Sender.pollComplete_ok hx.get_eq task answer result
      rw [hcall] at hr
      cases hr
      exact .inr (h.moves hx hsends.changed hsends.token_eq rfl (.sent rfl hsends) rfl hi)
  | .close j task answer result shutdown =>
      obtain ⟨stream, hj, hr⟩ := Option.map_eq_some_iff.mp hstep
      obtain ⟨x, hx⟩ := h.tracked j stream hj
      obtain ⟨out, x', hcall, hsends⟩ := Sender.close_ok hx.get_eq task answer result shutdown
      rw [hcall] at hr
      cases hr
      exact .inr (h.moves hx hsends.changed hsends.token_eq rfl (.sent rfl hsends) rfl hi)
  | .pollRecv j task answer result =>
      obtain ⟨stream, hj, hr⟩ := Option.map_eq_some_iff.mp hstep
      obtain ⟨x, hx⟩ := h.tracked j stream hj
      obtain ⟨out, hcall, hr⟩ := ok_of_map_ok hr
      obtain ⟨x', hrecvs⟩ := IStream.pollRecv_ok hx.get_eq hcall
      cases hr
      exact .inr (h.moves hx hrecvs.changed hrecvs.token_eq rfl (.received hrecvs) rfl hi)

/-- Nothing is known of the streams to come. -/
structure Ahead (t : Streams τ) (e : StreamEvent τ) : Prop where
  fresh : ∀ i, t.registered ≤ i → t.streams i = none
  lt : ∀ i, e.stream = some i → i < t.registered

theorem Sound.ahead_put (h : s.Sound) (hj : s.streams j = some stream) {put : Option Sender}
    (hstreams : t.streams = Function.update s.streams j put)
    (hregistered : t.registered = s.registered) (he : e.stream = some j) : t.Ahead e := by
  have hlt := h.lt hj
  constructor
  · intro i hi
    rw [hregistered] at hi
    rw [hstreams, Function.update_of_ne (Nat.ne_of_gt (Nat.lt_of_lt_of_le hlt hi)), h.fresh i hi]
  · intro i hi
    rw [he] at hi
    cases hi
    rwa [hregistered]

theorem Sound.ahead (h : s.Sound) (hstep : s.step a = some (.ok (e, t))) :
    s.registered ≤ t.registered ∧ t.Ahead e := by
  match a with
  | .tryFrom task result =>
      cases hstep
      refine ⟨Nat.le_succ _, ?_, ?_⟩
      · intro i hi
        exact (Function.update_of_ne (Nat.ne_of_gt hi) _ _).trans (h.fresh i (Nat.le_of_lt hi))
      · intro i hi
        cases hi
        exact Nat.lt_succ_self _
  | .event event =>
      have hstep := Option.some.inj hstep
      split at hstep
      · cases hstep
      · cases hstep
        exact ⟨Nat.le_refl _, h.fresh, fun i hi => by cases hi⟩
  | .drop j result =>
      obtain ⟨stream, hj, hr⟩ := Option.map_eq_some_iff.mp hstep
      cases hr
      exact ⟨Nat.le_refl _, h.ahead_put hj rfl rfl rfl⟩
  | .startSend j data =>
      obtain ⟨stream, hj, hr⟩ := Option.map_eq_some_iff.mp hstep
      cases hr
      exact ⟨Nat.le_refl _, h.ahead_put hj rfl rfl rfl⟩
  | .pollComplete j task answer result =>
      obtain ⟨stream, hj, hr⟩ := Option.map_eq_some_iff.mp hstep
      obtain ⟨out, -, hr⟩ := ok_of_map_ok hr
      cases hr
      exact ⟨Nat.le_refl _, h.ahead_put hj rfl rfl rfl⟩
  | .close j task answer result shutdown =>
      obtain ⟨stream, hj, hr⟩ := Option.map_eq_some_iff.mp hstep
      obtain ⟨out, -, hr⟩ := ok_of_map_ok hr
      cases hr
      exact ⟨Nat.le_refl _, h.ahead_put hj rfl rfl rfl⟩
  | .pollRecv j task answer result =>
      obtain ⟨stream, hj, hr⟩ := Option.map_eq_some_iff.mp hstep
      obtain ⟨out, -, hr⟩ := ok_of_map_ok hr
      cases hr
      exact ⟨Nat.le_refl _, h.ahead_put hj rfl rfl rfl⟩

/-- A fact about each stream, its schedule and the events so far. -/
structure Each (P : Nat → List (StreamEvent τ) → Sender → Schedule τ → Prop)
    (log : List (StreamEvent τ)) (s : Streams τ) : Prop where
  each : ∀ i stream, s.streams i = some stream →
    ∃ schedule, s.Tracks i stream schedule ∧ P i log stream schedule
  fresh : ∀ i, s.registered ≤ i → s.streams i = none
  lt : ∀ e ∈ log, ∀ i, e.stream = some i → i < s.registered

variable {P : Nat → List (StreamEvent τ) → Sender → Schedule τ → Prop}
  {ok : Streams τ → StreamAction τ → Prop} {log : List (StreamEvent τ)}

theorem Each.sound (h : s.Each P log) : s.Sound :=
  ⟨fun i stream hi => (h.each i stream hi).imp fun _ hx => hx.1, h.fresh⟩

/-- The rule for the streams of a run: what holds of a new stream, and is kept by all that can
happen to it, holds of each stream. -/
theorem each_of_run {buffer : Buffer} {allocs : List Nat}
    (hopened : ∀ {i log stream task}, (∀ e ∈ log, e.stream ≠ some i) → stream.buf = .new →
      P i (log ++ [.opened i (.ok ())]) stream (.new i task))
    (hmoves : ∀ {s i log stream schedule a e stream' schedule'}, P i log stream schedule →
      s.Tracks i stream schedule → ok s a → Moves i stream schedule a e stream' schedule' →
      P i (log ++ [e]) stream' schedule')
    (h : streamMachine.Run ok (init buffer allocs) log s) : s.Each P log := by
  refine h.invariant ⟨fun i stream hi => (by cases hi), fun _ _ => rfl, fun e he => by cases he⟩ ?_
  intro log s a e t hs hallowed hstep
  obtain ⟨hle, hahead⟩ := hs.sound.ahead hstep
  refine ⟨?_, hahead.fresh, ?_⟩
  · intro i stream' hi
    rcases hs.sound.step hstep hi with
      ⟨rfl, rfl, hbuf, task, htracks⟩ | ⟨stream, x, x', hx, hx', hmove⟩
    · refine ⟨_, htracks, hopened (fun e he heq => ?_) hbuf⟩
      exact Nat.lt_irrefl _ (hs.lt e he _ heq)
    · obtain ⟨y, hy, hP⟩ := hs.each i stream hx.stream_eq
      have hsame : some y = some x := hy.get_eq.symm.trans hx.get_eq
      cases hsame
      exact ⟨x', hx', hmoves hP hx hallowed hmove⟩
  · intro f hf i hi
    rcases List.mem_append.mp hf with hf | hf
    · exact Nat.lt_of_lt_of_le (hs.lt f hf i hi) hle
    · rw [List.mem_singleton.mp hf] at hi
      exact hahead.lt i hi

end Streams

end Ruyi.Net
