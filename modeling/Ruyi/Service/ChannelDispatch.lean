import Ruyi.Service.Dispatcher
import Ruyi.Sync.ChannelQueue

namespace Ruyi.Sync.Channel

/-- Where a channel stands in a `send` of a connection. -/
def Sending {w : Nat} (s : Channel w Nat) (conn : Nat) : Prop :=
  match s.sender with
  | .testCount retry t => retry = true ∧ t = conn
  | .pushing retry => retry = true ∧ s.ring.producer.value = some conn
  | sender => sender.replying = some conn

theorem sending_of_replying {w conn : Nat} {s : Channel w Nat}
    (h : s.sender.replying = some conn) : s.Sending conn := by
  unfold Sending
  split
  · rename_i hsender
    rw [hsender] at h
    cases h
  · rename_i hsender
    rw [hsender] at h
    cases h
  · exact h

theorem Sending.congr {w conn : Nat} {s s' : Channel w Nat} (h : s.Sending conn)
    (hsender : s'.sender = s.sender) (hproducer : s'.ring.producer = s.ring.producer) :
    s'.Sending conn := by
  unfold Sending at h ⊢
  rw [hsender, hproducer]
  exact h

end Ruyi.Sync.Channel

namespace Ruyi.Service

open Sync

/-- A worker with the channel of its connections, and its `Session` values alive. -/
structure ChannelWorker (w : Nat) where
  connCount : Nat
  channel : Channel w Nat
  sessions : List Nat

/-- `Inner` as `run` has it, with the workers and the accept loop. -/
structure ChannelDispatcher (w : Nat) where
  workers : Nat → ChannelWorker w
  mask : Nat
  idx : Nat
  workerConns : Fin (2 ^ w)
  accepted : Nat
  loop : AcceptLoop

/-- The steps of the accept loop, and of the threads of the workers.  `send` is the start of
`SyncSender::send`, and `sender` its next step; `poll`, `receiver` and `dropReceiver` are those of
the `Recv` of a worker. -/
inductive ChannelDispatchAction where
  | accept
  | read
  | send
  | sender (result : Except ErrorKind Unit)
  | inc
  | poll (idx : Nat)
  | receiver (idx : Nat) (result : Except ErrorKind Unit)
  | dropReceiver (idx : Nat)
  | dropSession (idx conn : Nat)

inductive ChannelDispatchEvent where
  | dispatch (e : DispatchEvent)
  | channel (idx : Nat) (e : ChannelEvent Nat)
  deriving DecidableEq

namespace ChannelDispatcher

variable {w : Nat}

/-- `Inner::init`, with a channel of `worker_conns` places for each worker. -/
def init (mask : Nat) (workerConns : Fin (2 ^ w)) : ChannelDispatcher w :=
  ⟨fun _ => ⟨0, .init w Nat workerConns, []⟩, mask, 0, workerConns, 0, .waiting⟩

def setWorker (s : ChannelDispatcher w) (idx : Nat) (v : ChannelWorker w) : ChannelDispatcher w :=
  { s with workers := Function.update s.workers idx v }

/-- A turn of the loop of the closure, up to `send`. -/
def read (s : ChannelDispatcher w) (conn idx : Nat) :
    Except Fault (ChannelDispatchEvent × ChannelDispatcher w) :=
  if s.mask < idx then .error .freed
  else
    let next := (idx + 1) &&& s.mask
    if (s.workers idx).connCount < s.workerConns then
      .ok (.dispatch (.chosen conn idx), { s with idx := next, loop := .send conn idx })
    else if next = s.idx then .ok (.dispatch (.refused conn), { s with loop := .waiting })
    else .ok (.dispatch .silent, { s with loop := .scan conn next })

/-- The end of a step of `Worker::send`.  Whatever it returns, the connection is counted. -/
def sent (s : ChannelDispatcher w) (idx : Nat) (e : ChannelEvent Nat) (channel : Channel w Nat) :
    ChannelDispatcher w :=
  { s.setWorker idx { s.workers idx with channel := channel } with
    loop := match e with
      | .sent _ | .disconnected _ | .sendFailed _ => .count idx
      | _ => s.loop }

/-- A step of `Worker::send`. -/
def send (s : ChannelDispatcher w) (idx : Nat) (a : ChannelAction Nat) :
    Option (Except Fault (ChannelDispatchEvent × ChannelDispatcher w)) :=
  ((s.workers idx).channel.step a).map fun r => r.map fun (e, channel) =>
    (.channel idx e, s.sent idx e channel)

/-- `Worker::inc_conn_count`. -/
def inc (s : ChannelDispatcher w) (idx : Nat) : ChannelDispatcher w :=
  let v := s.workers idx
  { s.setWorker idx { v with connCount := fetchAdd w v.connCount } with loop := .waiting }

/-- A step of the thread of a worker, which makes a `Session` of what its `Recv` gives it. -/
def receive (s : ChannelDispatcher w) (idx : Nat) (a : ChannelAction Nat) :
    Option (Except Fault (ChannelDispatchEvent × ChannelDispatcher w)) :=
  let v := s.workers idx
  (v.channel.step a).map fun r => r.map fun (e, channel) =>
    (.channel idx e, s.setWorker idx { v with
      channel := channel
      sessions := match e with
        | .received conn => conn :: v.sessions
        | _ => v.sessions })

/-- The drop of a `Session`. -/
def dropSession (s : ChannelDispatcher w) (idx conn : Nat) : ChannelDispatcher w :=
  let v := s.workers idx
  s.setWorker idx
    { v with connCount := fetchSub w v.connCount, sessions := v.sessions.erase conn }

def step (s : ChannelDispatcher w) :
    ChannelDispatchAction → Option (Except Fault (ChannelDispatchEvent × ChannelDispatcher w))
  | .accept =>
      match s.loop with
      | .waiting => some (.ok (.dispatch .silent,
          { s with accepted := s.accepted + 1, loop := .scan s.accepted s.idx }))
      | _ => none
  | .read =>
      match s.loop with
      | .scan conn idx => some (s.read conn idx)
      | _ => none
  | .send =>
      match s.loop with
      | .send conn idx => s.send idx (.send true conn)
      | _ => none
  | .sender result =>
      match s.loop with
      | .send _ idx => s.send idx (.sender result)
      | _ => none
  | .inc =>
      match s.loop with
      | .count idx => some (.ok (.dispatch .silent, s.inc idx))
      | _ => none
  | .poll idx => s.receive idx .poll
  | .receiver idx result => s.receive idx (.receiver result)
  | .dropReceiver idx => s.receive idx .dropReceiver
  | .dropSession idx conn =>
      if conn ∈ (s.workers idx).sessions then
        some (.ok (.dispatch .silent, s.dropSession idx conn))
      else none

/-- The sums of `try_push` do not wrap around. -/
def WithinWord (s : ChannelDispatcher w) : ChannelDispatchAction → Prop
  | .sender _ =>
      match s.loop with
      | .send _ idx =>
          (s.workers idx).channel.ring.buf.front + (s.workers idx).channel.ring.buf.cap < 2 ^ w
      | _ => True
  | _ => True

instance (s : ChannelDispatcher w) (a : ChannelDispatchAction) : Decidable (s.WithinWord a) := by
  cases a <;> unfold WithinWord <;> dsimp only <;> try infer_instance
  split <;> infer_instance

/-- What a step is for a dispatcher whose channels are queues.  There a `send` is over when its
connection is visible. -/
def effect (_ : ChannelDispatcher w) :
    ChannelDispatchAction → ChannelDispatchEvent → Option (DispatchAction × DispatchEvent)
  | .accept, .dispatch e => some (.accept, e)
  | .read, .dispatch e => some (.read, e)
  | .inc, .dispatch e => some (.inc, e)
  | .dropSession idx conn, .dispatch e => some (.dropSession idx conn, e)
  | .sender _, .channel _ (.pushed _) => some (.send .ok, .silent)
  | .sender _, .channel _ (.disconnected _) => some (.send .disconnected, .silent)
  | _, .channel idx (.received _) => some (.receive idx, .silent)
  | _, _ => none

/-- The accept loop of a dispatcher whose channels are queues. -/
def shown (s : ChannelDispatcher w) : AcceptLoop :=
  match s.loop with
  | .send conn idx =>
      if (s.workers idx).channel.sender.replying.isSome then .count idx else .send conn idx
  | loop => loop

/-- A `send` that has found its receiver there does not go back to the test. -/
def Onward (s s' : ChannelDispatcher w) : Prop :=
  ∀ idx, (s.workers idx).channel.sender = .pushing true →
    ∀ conn, (s'.workers idx).channel.sender ≠ .testCount true conn

end ChannelDispatcher

def channelDispatchMachine (w : Nat) :
    Base.Machine (ChannelDispatcher w) ChannelDispatchAction ChannelDispatchEvent Fault :=
  ⟨ChannelDispatcher.step⟩

/-- The channel of a worker carries its queue, and no `try_push` is about to refuse. -/
structure ChannelWorker.Carries {w : Nat} (capacity : Nat) (v : ChannelWorker w) (u : Worker) :
    Prop where
  connCount : u.connCount = v.connCount
  sessions : u.sessions = v.sessions
  queue : v.channel.Holds capacity u.queue
  undecided : v.channel.ring.decided true = []

def DispatchEvent.decision : DispatchEvent → Option DispatchEvent
  | .silent => none
  | e => some e

/-- Which worker is chosen for a connection, or that it is refused. -/
def ChannelDispatchEvent.decision : ChannelDispatchEvent → Option DispatchEvent
  | .dispatch e => e.decision
  | .channel _ _ => none

namespace ChannelDispatcher

variable {w k : Nat} {s s' : ChannelDispatcher w} {x : Dispatcher w} {lost : Nat → Nat}
  {e : ChannelDispatchEvent}

/-- The same dispatcher with channels and with queues.  A `send` is under way at one worker at
most, the one that the loop sends to. -/
structure Like (s : ChannelDispatcher w) (x : Dispatcher w) : Prop where
  mask : x.mask = s.mask
  idx : x.idx = s.idx
  workerConns : x.workerConns = s.workerConns
  accepted : x.accepted = s.accepted
  loop : x.loop = s.shown
  worker : ∀ i, (s.workers i).Carries s.workerConns (x.workers i)
  sending : ∀ i, (s.workers i).channel.sender = .idle ∨
    ∃ conn, s.loop = .send conn i ∧ (s.workers i).channel.Sending conn

theorem like_init {mask : Nat} {workerConns : Fin (2 ^ w)} :
    Like (init mask workerConns) (.init mask workerConns) where
  mask := rfl
  idx := rfl
  workerConns := rfl
  accepted := rfl
  loop := rfl
  worker _ := ⟨rfl, rfl, Channel.holds_init, rfl⟩
  sending _ := .inl rfl

theorem workers_self {v : ChannelWorker w} {idx : Nat} : (s.setWorker idx v).workers idx = v :=
  Function.update_self _ _ _

theorem workers_of_ne {v : ChannelWorker w} {idx i : Nat} (hi : i ≠ idx) :
    (s.setWorker idx v).workers i = s.workers i := Function.update_of_ne hi _ _

theorem shown_of_ne (h : ∀ conn i, s.loop ≠ .send conn i) : s.shown = s.loop := by
  rw [shown]
  split
  · rename_i hloop
    exact absurd hloop (h _ _)
  · rfl

theorem shown_send {v : ChannelWorker w} {conn idx : Nat} :
    shown { s.setWorker idx v with loop := .send conn idx } =
      if v.channel.sender.replying.isSome then .count idx else .send conn idx := by
  simp only [shown, workers_self]

theorem shown_setWorker {v : ChannelWorker w} {idx : Nat}
    (hsender : v.channel.sender = (s.workers idx).channel.sender) :
    (s.setWorker idx v).shown = s.shown := by
  have hsame : ∀ i, ((s.setWorker idx v).workers i).channel.sender =
      (s.workers i).channel.sender := by
    intro i
    by_cases hi : i = idx
    · rw [hi, workers_self, hsender]
    · rw [workers_of_ne hi]
  have hloop : (s.setWorker idx v).loop = s.loop := rfl
  rw [shown, shown, hloop]
  cases s.loop with
  | send conn i =>
      dsimp only
      rw [hsame]
  | waiting | scan | count => rfl

theorem Like.exists_eq (h : Like s x) : ∃ workers missed,
    x = ⟨workers, s.mask, s.idx, s.workerConns, s.accepted, missed, s.shown⟩ := by
  refine ⟨x.workers, x.missed, ?_⟩
  rw [← h.mask, ← h.idx, ← h.workerConns, ← h.accepted, ← h.loop]

theorem Like.idle (h : Like s x) (hloop : ∀ conn i, s.loop ≠ .send conn i) (i : Nat) :
    (s.workers i).channel.sender = .idle :=
  (h.sending i).resolve_right fun ⟨conn, hsend, _⟩ => hloop conn i hsend

theorem Like.of_loop (h : Like s x) (hloop : ∀ conn i, s.loop ≠ .send conn i)
    {loop : AcceptLoop} {idx accepted : Nat} {missed : Nat → Nat} :
    Like { s with idx := idx, accepted := accepted, loop := loop }
      { x with idx := idx, accepted := accepted, loop := loop, missed := missed } where
  mask := h.mask
  idx := rfl
  workerConns := h.workerConns
  accepted := rfl
  loop := by
    cases loop with
    | send conn i =>
        simp only [shown, h.idle hloop i, Sender.replying, Option.isSome_none, Bool.false_eq_true,
          if_false]
    | waiting | scan | count => rfl
  worker := h.worker
  sending i := .inl (h.idle hloop i)

theorem Like.setWorker {v : ChannelWorker w} {u : Worker} {idx : Nat} (h : Like s x)
    {loop loop' : AcceptLoop} {missed : Nat → Nat} (hcarries : v.Carries s.workerConns u)
    (hshown : loop' = shown { s.setWorker idx v with loop := loop })
    (hself : v.channel.sender = .idle ∨ ∃ conn, loop = .send conn idx ∧ v.channel.Sending conn)
    (hothers : ∀ i conn, i ≠ idx → s.loop = .send conn i → loop = .send conn i) :
    Like { s.setWorker idx v with loop := loop }
      { x.setWorker idx u with loop := loop', missed := missed } := by
  have hworker : (x.setWorker idx u).workers idx = u := Function.update_self _ _ _
  have hother : ∀ i, i ≠ idx → (x.setWorker idx u).workers i = x.workers i :=
    fun i hi => Function.update_of_ne hi _ _
  refine ⟨h.mask, h.idx, h.workerConns, h.accepted, hshown, ?_, ?_⟩
  · intro i
    dsimp only
    by_cases hi : i = idx
    · subst hi
      rw [workers_self, hworker]
      exact hcarries
    · rw [workers_of_ne hi, hother i hi]
      exact h.worker i
  · intro i
    dsimp only
    by_cases hi : i = idx
    · subst hi
      rw [workers_self]
      exact hself
    · rw [workers_of_ne hi]
      rcases h.sending i with hidle | ⟨conn, hsend, hsending⟩
      · exact .inl hidle
      · exact .inr ⟨conn, hothers i conn hi hsend, hsending⟩

theorem Like.setChannel {channel : Channel w Nat} {idx : Nat} (h : Like s x) {loop : AcceptLoop}
    (hqueue : channel.Holds s.workerConns (x.workers idx).queue)
    (hundecided : channel.ring.decided true = [])
    (hshown : x.loop =
      shown { s.setWorker idx { s.workers idx with channel := channel } with loop := loop })
    (hself : channel.sender = .idle ∨ ∃ conn, loop = .send conn idx ∧ channel.Sending conn)
    (hothers : ∀ i conn, i ≠ idx → s.loop = .send conn i → loop = .send conn i) :
    Like { s.setWorker idx { s.workers idx with channel := channel } with loop := loop } x := by
  have hcarries : ChannelWorker.Carries s.workerConns
      { s.workers idx with channel := channel } (x.workers idx) :=
    ⟨(h.worker idx).connCount, (h.worker idx).sessions, hqueue, hundecided⟩
  have hlike : Like { s.setWorker idx { s.workers idx with channel := channel } with loop := loop }
      { x.setWorker idx (x.workers idx) with loop := x.loop, missed := x.missed } :=
    h.setWorker hcarries hshown hself hothers
  rwa [Dispatcher.setWorker, Function.update_eq_self] at hlike

theorem Like.loop_eq {conn idx : Nat} (h : Like s x) (hloop : s.loop = .send conn idx) :
    x.loop = if (s.workers idx).channel.sender.replying.isSome then .count idx
      else .send conn idx := by
  rw [h.loop, shown, hloop]

theorem loop_ne_send {conn conn' idx i : Nat} (hloop : s.loop = .send conn idx) (hne : i ≠ idx) :
    s.loop ≠ .send conn' i := by
  intro hsend
  cases hloop.symm.trans hsend
  exact hne rfl

theorem Like.of_quiet {channel : Channel w Nat} {conn idx : Nat} {e : ChannelEvent Nat}
    (h : Like s x) (hloop : s.loop = .send conn idx)
    (hqueue : channel.Holds s.workerConns (x.workers idx).queue)
    (hundecided : channel.ring.decided true = [])
    (hreplying : (s.workers idx).channel.sender.replying.isSome = channel.sender.replying.isSome)
    (hsending : channel.Sending conn) (he : e = .silent) : Like (s.sent idx e channel) x := by
  have hshown : x.loop = if channel.sender.replying.isSome then .count idx else .send conn idx := by
    rw [h.loop_eq hloop, hreplying]
  have hsent : s.sent idx e channel =
      { s.setWorker idx { s.workers idx with channel := channel } with
        loop := .send conn idx } := by
    rw [he, ← hloop]
    rfl
  rw [hsent]
  refine h.setChannel hqueue hundecided ?_ (.inr ⟨conn, rfl, hsending⟩)
    fun i conn' hne hsend => absurd hsend (loop_ne_send hloop hne)
  rw [hshown, shown_send]

theorem Like.of_return {channel : Channel w Nat} {conn idx : Nat} {e : ChannelEvent Nat}
    (h : Like s x) (hloop : s.loop = .send conn idx)
    (hqueue : channel.Holds s.workerConns (x.workers idx).queue)
    (hundecided : channel.ring.decided true = [])
    (hreplying : (s.workers idx).channel.sender.replying.isSome = true)
    (hidle : channel.sender = .idle)
    (he : (∃ t, e = .sent t) ∨ ∃ kind, e = .sendFailed kind) : Like (s.sent idx e channel) x := by
  have hshown : x.loop = .count idx := by
    rw [h.loop_eq hloop, if_pos hreplying]
  have hothers : ∀ i conn', i ≠ idx → s.loop = .send conn' i →
      AcceptLoop.count idx = .send conn' i :=
    fun i conn' hne hsend => absurd hsend (loop_ne_send hloop hne)
  rcases he with ⟨t, rfl⟩ | ⟨kind, rfl⟩ <;>
    exact h.setChannel hqueue hundecided hshown (.inl hidle) hothers

/-- A step is one of the dispatcher with queues or moves nothing there, and no `send` goes back. -/
def Follows (s : ChannelDispatcher w) (x : Dispatcher w) (a : ChannelDispatchAction)
    (e : ChannelDispatchEvent) (s' : ChannelDispatcher w) : Prop :=
  s.Onward s' ∧
    match s.effect a e with
    | none => Like s' x
    | some label =>
        ∃ x', ((dispatchMachine w).spec fun _ _ => True).Step x label x' ∧ Like s' x'

theorem onward_of_eq (h : ∀ i, (s'.workers i).channel.sender = (s.workers i).channel.sender) :
    s.Onward s' := by
  intro i hpushing conn
  rw [h i, hpushing]
  simp

theorem onward_setWorker {v : ChannelWorker w} {idx : Nat} {loop : AcceptLoop}
    (h : (s.workers idx).channel.sender = .pushing true →
      ∀ conn, v.channel.sender ≠ .testCount true conn) :
    s.Onward { s.setWorker idx v with loop := loop } := by
  intro i hpushing conn
  dsimp only
  by_cases hi : i = idx
  · subst hi
    rw [workers_self]
    exact h hpushing conn
  · rw [workers_of_ne hi, hpushing]
    simp

theorem onward_of_ne {v : ChannelWorker w} {idx : Nat} {loop : AcceptLoop}
    (h : (s.workers idx).channel.sender ≠ .pushing true) :
    s.Onward { s.setWorker idx v with loop := loop } :=
  onward_setWorker fun hpushing => absurd hpushing h

theorem follows_accept (h : Like s x) (hloop : s.loop = .waiting) :
    Follows s x .accept (.dispatch .silent)
      { s with accepted := s.accepted + 1, loop := .scan s.accepted s.idx } := by
  have hne : ∀ conn i, s.loop ≠ .send conn i := by simp [hloop]
  have hnext : x.step .accept = some (.ok (.silent,
      { x with accepted := x.accepted + 1, loop := .scan x.accepted x.idx })) := by
    rw [Dispatcher.step, h.loop, shown_of_ne hne, hloop]
  obtain ⟨workers, missed, rfl⟩ := h.exists_eq
  exact ⟨onward_of_eq fun _ => rfl, _, ⟨trivial, hnext⟩, h.of_loop hne⟩

theorem follows_read {conn idx : Nat} (h : Like s x) (hloop : s.loop = .scan conn idx)
    (hstep : s.read conn idx = .ok (e, s')) : Follows s x .read e s' := by
  have hne : ∀ conn i, s.loop ≠ .send conn i := by simp [hloop]
  have hread : x.step .read = some (x.read conn idx) := by
    rw [Dispatcher.step, h.loop, shown_of_ne hne, hloop]
  have hcount := (h.worker idx).connCount
  obtain ⟨workers, missed, rfl⟩ := h.exists_eq
  rw [Dispatcher.read] at hread
  rw [read] at hstep
  split at hstep
  · cases hstep
  · rename_i hidx
    rw [if_neg hidx] at hread
    dsimp only at hstep hread
    rw [hcount] at hread
    split at hstep
    · rename_i hroom
      cases hstep
      rw [if_pos hroom] at hread
      exact ⟨onward_of_eq fun _ => rfl, _, ⟨trivial, hread⟩, h.of_loop hne⟩
    · rename_i hfull
      rw [if_neg hfull] at hread
      split at hstep
      · rename_i hback
        cases hstep
        rw [if_pos hback] at hread
        exact ⟨onward_of_eq fun _ => rfl, _, ⟨trivial, hread⟩, h.of_loop hne⟩
      · rename_i hon
        cases hstep
        rw [if_neg hon] at hread
        exact ⟨onward_of_eq fun _ => rfl, _, ⟨trivial, hread⟩, h.of_loop hne⟩

theorem follows_inc {idx : Nat} (h : Like s x) (hloop : s.loop = .count idx) :
    Follows s x .inc (.dispatch .silent) (s.inc idx) := by
  have hne : ∀ conn i, s.loop ≠ .send conn i := by simp [hloop]
  have hnext : x.step .inc = some (.ok (.silent, x.inc idx)) := by
    rw [Dispatcher.step, h.loop, shown_of_ne hne, hloop]
  obtain ⟨hcount, hsessions, hqueue, hundecided⟩ := h.worker idx
  have hcarries : ChannelWorker.Carries s.workerConns
      { s.workers idx with connCount := fetchAdd w (s.workers idx).connCount }
      { x.workers idx with connCount := fetchAdd w (x.workers idx).connCount } := by
    refine ⟨?_, hsessions, hqueue, hundecided⟩
    rw [hcount]
  refine ⟨onward_of_ne ?_, _, ⟨trivial, hnext⟩,
    h.setWorker hcarries rfl (.inl (h.idle hne idx))
      fun i conn _ hsend => absurd hsend (hne conn i)⟩
  rw [h.idle hne idx]
  simp

theorem follows_dropSession {idx conn : Nat} (h : Like s x)
    (hmem : conn ∈ (s.workers idx).sessions) :
    Follows s x (.dropSession idx conn) (.dispatch .silent) (s.dropSession idx conn) := by
  obtain ⟨hcount, hsessions, hqueue, hundecided⟩ := h.worker idx
  have hnext : x.step (.dropSession idx conn) = some (.ok (.silent, x.dropSession idx conn)) := by
    rw [Dispatcher.step, hsessions, if_pos hmem]
  have hcarries : ChannelWorker.Carries s.workerConns
      { s.workers idx with
        connCount := fetchSub w (s.workers idx).connCount
        sessions := (s.workers idx).sessions.erase conn }
      { x.workers idx with
        connCount := fetchSub w (x.workers idx).connCount
        sessions := (x.workers idx).sessions.erase conn } := by
    refine ⟨?_, ?_, hqueue, hundecided⟩
    · rw [hcount]
    · rw [hsessions]
  refine ⟨onward_setWorker fun hpushing => ?_, _, ⟨trivial, hnext⟩,
    h.setWorker hcarries ?_ (h.sending idx) fun _ _ _ hsend => hsend⟩
  · simp [hpushing]
  · have hshown : (s.dropSession idx conn).shown = s.shown := shown_setWorker rfl
    exact h.loop.trans hshown.symm

theorem follows_send {conn idx : Nat} (h : Like s x) (hloop : s.loop = .send conn idx)
    (hstep : s.send idx (.send true conn) = some (.ok (e, s'))) : Follows s x .send e s' := by
  obtain ⟨r, hchannel, hr⟩ := Option.map_eq_some_iff.mp hstep
  obtain ⟨-, -, hqueue, hundecided⟩ := h.worker idx
  have hcall := hchannel
  rw [Channel.step] at hcall
  split at hcall
  · rename_i hidle
    cases hcall
    cases hr
    have hholds := Channel.holds_quiet hqueue hchannel rfl rfl
    refine ⟨onward_of_ne (by simp [hidle]), ?_⟩
    exact h.of_quiet hloop hholds hundecided (by rw [hidle]; rfl) ⟨rfl, rfl⟩ rfl
  · cases hcall

section Sender

variable {conn idx : Nat} {result : Except ErrorKind Unit} {event : ChannelEvent Nat}
  {channel : Channel w Nat}

theorem follows_testCount {retry : Bool} {t : Nat} (h : Like s x) (hloop : s.loop = .send conn idx)
    (hsender : (s.workers idx).channel.sender = .testCount retry t)
    (hsending : (s.workers idx).channel.Sending conn)
    (hstep : (s.workers idx).channel.step (.sender result) = some (.ok (event, channel))) :
    Follows s x (.sender result) (.channel idx event) (s.sent idx event channel) := by
  have honward : ∀ {loop : AcceptLoop}, s.Onward
      { s.setWorker idx { s.workers idx with channel := channel } with loop := loop } :=
    onward_of_ne (by simp [hsender])
  obtain ⟨-, -, hqueue, hundecided⟩ := h.worker idx
  rw [Channel.Sending, hsender] at hsending
  obtain ⟨rfl, rfl⟩ := hsending
  have hcall := hstep
  rw [Channel.step, Channel.stepSender, hsender] at hcall
  dsimp only at hcall
  split at hcall
  · cases hcall
    have hholds := Channel.holds_quiet hqueue hstep rfl rfl
    have hnext : x.step (.send .disconnected) =
        some (.ok (.silent, x.send t idx .disconnected)) := by
      rw [Dispatcher.step, h.loop_eq hloop, hsender]
      rfl
    refine ⟨honward, _, ⟨trivial, hnext⟩, ?_⟩
    exact h.setWorker ⟨(h.worker idx).connCount, (h.worker idx).sessions, hholds, hundecided⟩ rfl
      (.inl rfl) fun i conn' hne hsend => absurd hsend (loop_ne_send hloop hne)
  · cases hcall
    have hholds := Channel.holds_quiet hqueue hstep rfl rfl
    exact ⟨honward, h.of_quiet hloop hholds rfl (by rw [hsender]; rfl) ⟨rfl, rfl⟩ rfl⟩

/-- The loop is in `send` at `idx` only if there is room there, so that `try_push` never hands the
connection back. -/
theorem follows_pushing {retry : Bool} (h : Like s x) (hbalanced : x.Balanced k lost)
    (hloop : s.loop = .send conn idx)
    (hword : (s.workers idx).channel.ring.buf.front + (s.workers idx).channel.ring.buf.cap < 2 ^ w)
    (hsender : (s.workers idx).channel.sender = .pushing retry)
    (hsending : (s.workers idx).channel.Sending conn)
    (hstep : (s.workers idx).channel.step (.sender result) = some (.ok (event, channel))) :
    Follows s x (.sender result) (.channel idx event) (s.sent idx event channel) := by
  have hsend : x.loop = .send conn idx := by
    rw [h.loop_eq hloop, hsender]
    rfl
  have hroom : (x.workers idx).queue.length < s.workerConns := by
    have hlt := hbalanced.send conn idx hsend
    rw [h.workerConns, Worker.outstanding, Nat.add_assoc] at hlt
    exact Nat.lt_of_le_of_lt (Nat.le_add_right _ _) hlt
  obtain ⟨hcount, hsessions, hqueue, hundecided⟩ := h.worker idx
  rw [Channel.Sending, hsender] at hsending
  obtain ⟨rfl, hvalue⟩ := hsending
  obtain ⟨hafter, ⟨rfl, hsender', hvalue'⟩ | ⟨rfl, hsender'⟩⟩ :=
    Channel.push_of_room hqueue hroom hword hundecided hsender hvalue hstep
  · have hholds := Channel.holds_quiet hqueue hstep rfl rfl
    refine ⟨onward_setWorker fun _ => by simp [hsender'], ?_⟩
    refine h.of_quiet hloop hholds hafter (by rw [hsender, hsender']) ?_ rfl
    rw [Channel.Sending, hsender']
    exact ⟨rfl, hvalue'⟩
  · obtain ⟨q', hholds, hq'⟩ := Channel.holds_step hqueue hstep
    obtain rfl : (x.workers idx).queue ++ [conn] = q' := hq'
    have hnext : x.step (.send .ok) = some (.ok (.silent, x.send conn idx .ok)) := by
      rw [Dispatcher.step, hsend]
    refine ⟨onward_setWorker fun _ => by simp [hsender'], _, ⟨trivial, hnext⟩, ?_⟩
    have hsent : s.sent idx (.pushed conn) channel =
        { s.setWorker idx { s.workers idx with channel := channel } with
          loop := .send conn idx } := by
      rw [← hloop]
      rfl
    rw [hsent]
    refine h.setWorker ⟨hcount, hsessions, hholds, hafter⟩ ?_ (.inr ⟨conn, rfl, ?_⟩)
      fun i conn' hne hother => absurd hother (loop_ne_send hloop hne)
    · rw [shown_send, hsender']
      rfl
    · exact Channel.sending_of_replying (by rw [hsender']; rfl)

theorem follows_replying (h : Like s x) (hloop : s.loop = .send conn idx)
    (hreplying : (s.workers idx).channel.sender.replying = some conn)
    (hstep : (s.workers idx).channel.step (.sender result) = some (.ok (event, channel))) :
    Follows s x (.sender result) (.channel idx event) (s.sent idx event channel) := by
  obtain ⟨-, -, hqueue, hundecided⟩ := h.worker idx
  obtain ⟨hring, hnext⟩ := Channel.replying_cases hreplying hstep
  have hafter : channel.ring.decided true = [] := hring ▸ hundecided
  have honward : ∀ {loop : AcceptLoop}, s.Onward
      { s.setWorker idx { s.workers idx with channel := channel } with loop := loop } := by
    refine onward_of_ne fun hpushing => ?_
    rw [hpushing] at hreplying
    cases hreplying
  rcases hnext with ⟨rfl, hreplying'⟩ | ⟨hidle, hreturn⟩
  · have hholds := Channel.holds_quiet hqueue hstep rfl rfl
    exact ⟨honward, h.of_quiet hloop hholds hafter (by rw [hreplying, hreplying'])
      (Channel.sending_of_replying hreplying') rfl⟩
  · have hsome : (s.workers idx).channel.sender.replying.isSome = true := by
      rw [hreplying]
      rfl
    rcases hreturn with rfl | ⟨kind, rfl⟩
    · have hholds := Channel.holds_quiet hqueue hstep rfl rfl
      exact ⟨honward, h.of_return hloop hholds hafter hsome hidle (.inl ⟨_, rfl⟩)⟩
    · have hholds := Channel.holds_quiet hqueue hstep rfl rfl
      exact ⟨honward, h.of_return hloop hholds hafter hsome hidle (.inr ⟨_, rfl⟩)⟩

theorem follows_sender (h : Like s x) (hbalanced : x.Balanced k lost)
    (hloop : s.loop = .send conn idx)
    (hword : (s.workers idx).channel.ring.buf.front + (s.workers idx).channel.ring.buf.cap < 2 ^ w)
    (hstep : s.send idx (.sender result) = some (.ok (e, s'))) :
    Follows s x (.sender result) e s' := by
  obtain ⟨r, hchannel, hr⟩ := Option.map_eq_some_iff.mp hstep
  obtain ⟨⟨event, channel⟩, rfl, hnext⟩ := ok_of_map_ok hr
  cases hnext
  rcases h.sending idx with hidle | ⟨conn', hsend, hsending⟩
  · rw [Channel.step, Channel.stepSender, hidle] at hchannel
    cases hchannel
  · cases hloop.symm.trans hsend
    cases hsender : (s.workers idx).channel.sender with
    | testCount retry t => exact follows_testCount h hloop hsender hsending hchannel
    | pushing retry => exact follows_pushing h hbalanced hloop hword hsender hsending hchannel
    | idle | release | gone | loadFlag | writeFd | storeFlag =>
        refine follows_replying h hloop ?_ hchannel
        rw [Channel.Sending, hsender] at hsending
        rw [hsender]
        exact hsending

end Sender

theorem follows_receive {idx : Nat} {a : ChannelAction Nat} {action : ChannelDispatchAction}
    (h : Like s x) (ha : a.atReceiver = true)
    (haction : ∀ event, s.effect action (.channel idx event) =
      match event with
      | .received _ => some (.receive idx, .silent)
      | _ => none)
    (hstep : s.receive idx a = some (.ok (e, s'))) : Follows s x action e s' := by
  obtain ⟨r, hchannel, hr⟩ := Option.map_eq_some_iff.mp hstep
  obtain ⟨⟨event, channel⟩, rfl, hnext⟩ := ok_of_map_ok hr
  cases hnext
  obtain ⟨hsender, hproducer, hdecided, hpush⟩ := Channel.receiver_frame ha hchannel
  obtain ⟨hcount, hsessions, hqueue, hundecided⟩ := h.worker idx
  obtain ⟨queue, hholds, hqueue'⟩ := Channel.holds_step hqueue hchannel
  have hafter : channel.ring.decided true = [] := hdecided.trans hundecided
  have honward : ∀ {sessions : List Nat}, s.Onward (s.setWorker idx
      { s.workers idx with channel := channel, sessions := sessions }) := by
    intro sessions
    refine onward_setWorker fun hpushing conn => ?_
    rw [show ChannelWorker.channel _ = channel from rfl, hsender, hpushing]
    simp
  have hsending : channel.sender = .idle ∨ ∃ conn, s.loop = .send conn idx ∧
      channel.Sending conn := by
    rcases h.sending idx with hidle | ⟨conn, hloop, hsend⟩
    · exact .inl (hsender.trans hidle)
    · exact .inr ⟨conn, hloop, hsend.congr hsender hproducer⟩
  have hshown : ∀ {sessions : List Nat}, x.loop = (s.setWorker idx
      { s.workers idx with channel := channel, sessions := sessions }).shown :=
    h.loop.trans (shown_setWorker hsender).symm
  rw [Follows, haction]
  rw [hpush, List.append_nil] at hqueue'
  cases event with
  | received conn =>
      have hnext : x.step (.receive idx) = some (.ok (.silent, x.setWorker idx
          { x.workers idx with
            queue := queue, sessions := conn :: (x.workers idx).sessions })) := by
        rw [Dispatcher.step, Dispatcher.receive, hqueue']
        rfl
      refine ⟨honward, _, ⟨trivial, hnext⟩, ?_⟩
      exact h.setWorker ⟨hcount, by rw [hsessions], hholds, hafter⟩ hshown hsending
        fun _ _ _ hsend => hsend
  | _ =>
      obtain rfl : (x.workers idx).queue = queue := hqueue'
      exact ⟨honward, h.setChannel hholds hafter hshown hsending fun _ _ _ hsend => hsend⟩

theorem follows_step {a : ChannelDispatchAction} (h : Like s x) (hbalanced : x.Balanced k lost)
    (hword : s.WithinWord a) (hstep : s.step a = some (.ok (e, s'))) : Follows s x a e s' := by
  cases a with
  | accept =>
      rw [step] at hstep
      split at hstep
      · rename_i hloop
        cases hstep
        exact follows_accept h hloop
      · cases hstep
  | read =>
      rw [step] at hstep
      split at hstep
      · rename_i conn idx hloop
        exact follows_read h hloop (Option.some.inj hstep)
      · cases hstep
  | send =>
      rw [step] at hstep
      split at hstep
      · rename_i conn idx hloop
        exact follows_send h hloop hstep
      · cases hstep
  | sender result =>
      rw [step] at hstep
      split at hstep
      · rename_i conn idx hloop
        rw [WithinWord, hloop] at hword
        exact follows_sender h hbalanced hloop hword hstep
      · cases hstep
  | inc =>
      rw [step] at hstep
      split at hstep
      · rename_i idx hloop
        cases hstep
        exact follows_inc h hloop
      · cases hstep
  | poll idx | receiver idx result | dropReceiver idx =>
      exact follows_receive h rfl (fun event => by cases event <;> rfl) hstep
  | dropSession idx conn =>
      rw [step] at hstep
      split at hstep
      · rename_i hmem
        cases hstep
        exact follows_dropSession h hmem
      · cases hstep

/-- As long as the sums of `try_push` do not wrap around, the channels carry what the queues do. -/
def simulation (w k : Nat) :
    (channelDispatchMachine w).Simulation WithinWord ((dispatchMachine w).spec fun _ _ => True)
      effect where
  Rel s x := Like s x ∧ ∃ lost, x.Balanced k lost
  shown_step := by
    rintro s a e s' x label ⟨hlike, lost, hbalanced⟩ hword hstep hshow
    obtain ⟨-, hfollows⟩ := follows_step hlike hbalanced hword hstep
    rw [hshow] at hfollows
    obtain ⟨x', hnext, hlike'⟩ := hfollows
    obtain ⟨lost', hbalanced', -⟩ := Dispatcher.balanced_step hbalanced hnext.2
    exact ⟨x', hnext, hlike', lost', hbalanced'⟩
  hidden_step := by
    rintro s a e s' x ⟨hlike, hbalanced⟩ hword hstep hshow
    obtain ⟨lost, hbalanced'⟩ := hbalanced
    obtain ⟨-, hfollows⟩ := follows_step hlike hbalanced' hword hstep
    rw [hshow] at hfollows
    exact ⟨hfollows, lost, hbalanced'⟩

theorem decision_step {a : ChannelDispatchAction} (hstep : s.step a = some (.ok (e, s'))) :
    (s.effect a e).bind (fun label => label.2.decision) = e.decision := by
  cases e with
  | channel idx e => cases a <;> cases e <;> rfl
  | dispatch e =>
      have hchannel : ∀ {r : Option (Except Fault (ChannelEvent Nat × Channel w Nat))}
          {f : ChannelEvent Nat × Channel w Nat → ChannelDispatcher w} {idx : Nat},
          (r.map fun r => r.map fun p => (ChannelDispatchEvent.channel idx p.1, f p)) ≠
            some (.ok (.dispatch e, s')) := by
        intro r f idx heq
        obtain ⟨r, -, hr⟩ := Option.map_eq_some_iff.mp heq
        cases r <;> cases hr
      cases a with
      | send | sender =>
          rw [step] at hstep
          split at hstep
          · exact absurd hstep hchannel
          · cases hstep
      | poll | receiver | dropReceiver => exact absurd hstep hchannel
      | accept | read | inc | dropSession => rfl

theorem step_fails {a : ChannelDispatchAction} {fault : Fault} (h : Like s x)
    (hbalanced : x.Balanced k lost) (hstep : s.step a = some (.error fault)) :
    2 ^ (w - 1) < (s.workerConns : Nat) := by
  have hchannel : ∀ {a : ChannelAction Nat} {idx : Nat}
      {f : ChannelEvent Nat × Channel w Nat → ChannelDispatchEvent × ChannelDispatcher w},
      (((s.workers idx).channel.step a).map fun r => r.map f) = some (.error fault) →
        2 ^ (w - 1) < (s.workerConns : Nat) := by
    intro a idx f heq
    obtain ⟨r, hfails, hr⟩ := Option.map_eq_some_iff.mp heq
    obtain ⟨received, hinv⟩ := (h.worker idx).queue
    cases r with
    | error => exact (hinv.step_fails hfails).2
    | ok => cases hr
  cases a with
  | read =>
      rw [step] at hstep
      split at hstep
      · rename_i conn idx hloop
        have hne : ∀ conn i, s.loop ≠ .send conn i := by simp [hloop]
        have hscan : x.loop = .scan conn idx := by rw [h.loop, shown_of_ne hne, hloop]
        obtain ⟨j, -, hidx, -⟩ := hbalanced.scan conn idx hscan
        have hlt : idx < 2 ^ k := hidx ▸ Nat.mod_lt _ (Nat.two_pow_pos k)
        have hin : ¬ s.mask < idx := by
          rw [← h.mask, hbalanced.mask]
          exact Nat.not_lt.mpr (Nat.le_sub_one_of_lt hlt)
        rw [read, if_neg hin] at hstep
        dsimp only at hstep
        split at hstep
        · cases hstep
        · split at hstep <;> cases hstep
      · cases hstep
  | send | sender =>
      rw [step] at hstep
      split at hstep
      · exact hchannel hstep
      · cases hstep
  | poll | receiver | dropReceiver => exact hchannel hstep
  | accept | inc | dropSession =>
      rw [step] at hstep
      split at hstep <;> cases hstep

theorem read_workerConns {conn idx : Nat} (hread : s.read conn idx = .ok (e, s')) :
    s'.workerConns = s.workerConns := by
  rw [read] at hread
  split at hread
  · cases hread
  · dsimp only at hread
    split at hread
    · cases hread
      rfl
    · split at hread <;> cases hread <;> rfl

theorem step_workerConns {a : ChannelDispatchAction} (hstep : s.step a = some (.ok (e, s'))) :
    s'.workerConns = s.workerConns := by
  cases a with
  | read =>
      rw [step] at hstep
      split at hstep
      · exact read_workerConns (Option.some.inj hstep)
      · cases hstep
  | send | sender =>
      rw [step] at hstep
      split at hstep
      · obtain ⟨r, -, hr⟩ := Option.map_eq_some_iff.mp hstep
        obtain ⟨p, -, hp⟩ := ok_of_map_ok hr
        cases hp
        rfl
      · cases hstep
  | poll | receiver | dropReceiver =>
      obtain ⟨r, -, hr⟩ := Option.map_eq_some_iff.mp hstep
      obtain ⟨p, -, hp⟩ := ok_of_map_ok hr
      cases hp
      rfl
  | accept | inc | dropSession =>
      rw [step] at hstep
      split at hstep <;> cases hstep
      rfl

end ChannelDispatcher

variable {w k : Nat} {s : ChannelDispatcher w} {log : List ChannelDispatchEvent}

/-- As long as the sums of `try_push` do not wrap around, the channels of the workers are as good
as queues, whatever the sends return: each connection goes to the worker that it would go to then,
a `send` that finds the receiver there puts it in at once, and a step fails only where the channels
have no slots. -/
theorem send_never_retries {workerConns : Fin (2 ^ w)}
    (h : (channelDispatchMachine w).Run ChannelDispatcher.WithinWord
      (.init (2 ^ k - 1) workerConns) log s) :
    (∃ log' x, (dispatchMachine w).Run (fun _ _ => True) (.init (2 ^ k - 1) workerConns) log' x ∧
      s.Like x ∧ log'.filterMap DispatchEvent.decision =
        log.filterMap ChannelDispatchEvent.decision) ∧
      (∀ a e s', s.WithinWord a → s.step a = some (.ok (e, s')) → s.Onward s') ∧
      ∀ a fault, s.step a = some (.error fault) → 2 ^ (w - 1) < (workerConns : Nat) := by
  have hinit : (ChannelDispatcher.simulation w k).Rel (.init (2 ^ k - 1) workerConns)
      (.init (2 ^ k - 1) workerConns) :=
    ⟨ChannelDispatcher.like_init, _, Dispatcher.balanced_init⟩
  obtain ⟨labels, htraced⟩ := h.exists_traced ChannelDispatcher.effect
  obtain ⟨x, hrun, hlike, lost, hbalanced⟩ :=
    (ChannelDispatcher.simulation w k).run hinit htraced
  refine ⟨⟨_, x, .of_spec hrun, hlike, ?_⟩, ?_, ?_⟩
  · refine htraced.invariant (I := fun log p =>
      (p.2.map Prod.snd).filterMap DispatchEvent.decision =
        log.filterMap ChannelDispatchEvent.decision) rfl ?_
    rintro log ⟨t, labels⟩ a e ⟨t', labels'⟩ hsame - hnext
    obtain ⟨hstep, rfl⟩ := Base.Machine.withHistory_step.mp hnext
    have hdecision := ChannelDispatcher.decision_step hstep
    rw [List.map_append, List.filterMap_append, List.filterMap_append, hsame]
    congr 1
    rw [List.filterMap_cons, ← hdecision]
    cases t.effect a e with
    | none => rfl
    | some label => rfl
  · intro a e s' hword hstep
    exact (ChannelDispatcher.follows_step hlike hbalanced hword hstep).1
  · have hconns : s.workerConns = workerConns := by
      refine h.invariant (I := fun _ s => s.workerConns = workerConns) rfl ?_
      exact fun hsame _ hstep => (ChannelDispatcher.step_workerConns hstep).trans hsame
    intro a fault hstep
    rw [← hconns]
    exact ChannelDispatcher.step_fails hlike hbalanced hstep

/-- Two workers of one connection each.  The thread of the second one ends, and the connection sent
to it is lost; the session of the first connection ends, and there is room for a third. -/
def sendAgain : List ChannelDispatchAction :=
  let go (n : Nat) : List ChannelDispatchAction := List.replicate n (.sender (.ok ()))
  let look (idx n : Nat) : List ChannelDispatchAction := List.replicate n (.receiver idx (.ok ()))
  [.accept, .read, .send] ++ go 9 ++ [.inc, .poll 0] ++ look 0 9 ++ [.dropReceiver 1] ++ look 1 2 ++
    [.accept, .read, .send] ++ go 1 ++ [.inc, .dropSession 0 0] ++
    [.accept, .read, .send] ++ go 11 ++ [.inc, .accept, .read, .read]

theorem send_never_retries_of_two :
    ∃ (log : List ChannelDispatchEvent) (s : ChannelDispatcher 64) (log' : List DispatchEvent)
      (x : Dispatcher 64),
      (channelDispatchMachine 64).Run ChannelDispatcher.WithinWord (.init (2 ^ 1 - 1) 1) log s ∧
        log.filterMap ChannelDispatchEvent.decision =
          [.chosen 0 0, .chosen 1 1, .chosen 2 0, .refused 3] ∧
        (dispatchMachine 64).Run (fun _ _ => True) (.init (2 ^ 1 - 1) 1) log' x ∧ s.Like x := by
  have hend : ((channelDispatchMachine 64).exec ChannelDispatcher.WithinWord sendAgain
      (.init (2 ^ 1 - 1) 1)).map (fun r => r.1.filterMap ChannelDispatchEvent.decision) =
        some [.chosen 0 0, .chosen 1 1, .chosen 2 0, .refused 3] := by
    decide +kernel
  obtain ⟨⟨log, s⟩, hexec, hdecisions⟩ := Option.map_eq_some_iff.mp hend
  have hrun := Base.Machine.Run.of_exec _ hexec
  obtain ⟨⟨log', x, hrun', hlike, -⟩, -, -⟩ := send_never_retries hrun
  exact ⟨log, s, log', x, hrun, hdecisions, hrun', hlike⟩

end Ruyi.Service
