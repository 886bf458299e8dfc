import Ruyi.Sync.RingBuffer

namespace Ruyi.Sync

/-- The flag of `sys::unix::Awakener` and the counter of its eventfd. -/
structure Awakener where
  needWakeup : Bool
  eventFd : Nat
  deriving DecidableEq

/-- What a `wakeup` under way is for: the reply to a message that is in the buffer, or the
drop of the sender. -/
inductive Wakeup (α : Type) where
  | reply (t : α)
  | dropping
  deriving DecidableEq

/-- Where the thread of the `SyncSender` stands.  `retry` tells `send` from `try_send`. -/
inductive Sender (α : Type) where
  | idle
  | testCount (retry : Bool) (t : α)
  | pushing (retry : Bool)
  | release
  | loadFlag (k : Wakeup α)
  | writeFd (k : Wakeup α)
  | storeFlag (k : Wakeup α)
  | gone
  deriving DecidableEq

/-- Where the thread of the `Recv` stands: inside `reset`, which `poll` calls and the drop
too, or inside the rest of `poll`.  It is `parked` after a `poll` that has returned
`NotReady`, and `idle` after any other. -/
inductive Receiver where
  | idle
  | loadFlag (dropping : Bool)
  | readFd (dropping : Bool)
  | storeFlag (dropping : Bool)
  | popping
  | testCount
  | scheduleRead
  | parked
  | release
  | gone
  deriving DecidableEq

/-- A channel between its two threads. -/
structure Channel (w : Nat) (α : Type) where
  ring : Ring w α
  strongCount : Nat
  awakener : Awakener
  needReset : Bool
  sender : Sender α
  receiver : Receiver

/-- `send` stands for `send` and `try_send`, by `retry`.  `sender` and `receiver` are the
next steps of the two threads, with the result of the system call that the step makes,
if it makes one. -/
inductive ChannelAction (α : Type) where
  | send (retry : Bool) (t : α)
  | dropSender
  | sender (result : Except ErrorKind Unit)
  | poll
  | dropReceiver
  | receiver (result : Except ErrorKind Unit)

/-- `sent`, `full`, `disconnected` and `sendFailed` are what `send` and `try_send` return;
`received`, `ended`, `notReady` and `pollFailed` are what `poll` returns.  `pushed` is the
step of a `try_push` that makes its value visible. -/
inductive ChannelEvent (α : Type) where
  | pushed (t : α)
  | sent (t : α)
  | full (t : α)
  | disconnected (t : α)
  | sendFailed (kind : ErrorKind)
  | received (t : α)
  | ended
  | notReady
  | pollFailed (kind : ErrorKind)
  | silent
  deriving DecidableEq

namespace Channel

variable {w : Nat} {α : Type}

/-- `sync_channel(capacity)`, with its receiver turned into a `Recv`. -/
def init (w : Nat) (α : Type) (capacity : Nat) : Channel w α where
  ring := Ring.init w α capacity
  strongCount := 2
  awakener := ⟨true, 0⟩
  needReset := true
  sender := .idle
  receiver := .idle

/-- The end of a `wakeup` that has succeeded. -/
def wokenUp (s : Channel w α) : Wakeup α → ChannelEvent α × Channel w α
  | .reply t => (.sent t, { s with sender := .idle })
  | .dropping => (.silent, { s with sender := .gone })

/-- The end of a `wakeup` that has failed. -/
def wakeupFailed (s : Channel w α) (kind : ErrorKind) : Wakeup α → ChannelEvent α × Channel w α
  | .reply _ => (.sendFailed kind, { s with sender := .idle })
  | .dropping => (.silent, { s with sender := .gone })

/-- The next step of the sender. -/
def stepSender (s : Channel w α) (result : Except ErrorKind Unit) :
    Option (Except Fault (ChannelEvent α × Channel w α)) :=
  match s.sender with
  | .idle | .gone => none
  | .testCount retry t =>
      if s.strongCount = 1 then some (.ok (.disconnected t, { s with sender := .idle }))
      else
        some (.ok (.silent,
          { s with ring := { s.ring with producer := .loadRear t }, sender := .pushing retry }))
  | .pushing retry =>
      match s.ring.produce with
      | none => none
      | some (.error fault) => some (.error fault)
      | some (.ok (.pushed t, ring)) =>
          some (.ok (.pushed t, { s with ring := ring, sender := .loadFlag (.reply t) }))
      | some (.ok (.refused t, ring)) =>
          if retry then some (.ok (.silent, { s with ring := ring, sender := .testCount retry t }))
          else some (.ok (.full t, { s with ring := ring, sender := .idle }))
      | some (.ok (_, ring)) => some (.ok (.silent, { s with ring := ring }))
  | .release =>
      some (.ok (.silent,
        { s with strongCount := s.strongCount - 1, sender := .loadFlag .dropping }))
  | .loadFlag k =>
      if s.awakener.needWakeup then some (.ok (.silent, { s with sender := .writeFd k }))
      else some (.ok (s.wokenUp k))
  | .writeFd k =>
      match result with
      | .ok () =>
          some (.ok (.silent,
            { s with
              awakener := { s.awakener with eventFd := s.awakener.eventFd + (2 ^ 64 - 2) }
              sender := .storeFlag k }))
      | .error kind => some (.ok (s.wakeupFailed kind k))
  | .storeFlag k =>
      some (.ok (wokenUp { s with awakener := { s.awakener with needWakeup := false } } k))

/-- The end of a `reset` that has succeeded. -/
def resetDone (s : Channel w α) : Bool → Channel w α
  | true => { s with receiver := .release }
  | false =>
      { s with
        ring := { s.ring with consumer := .loadFront }
        needReset := false
        receiver := .popping }

/-- The end of a `reset` that has failed. -/
def resetFailed (s : Channel w α) (kind : ErrorKind) : Bool → ChannelEvent α × Channel w α
  | true => (.silent, { s with receiver := .release })
  | false =>
      if kind = .wouldBlock then (.silent, { s with receiver := .scheduleRead })
      else (.pollFailed kind, { s with receiver := .idle })

/-- The next step of the receiver. -/
def stepReceiver (s : Channel w α) (result : Except ErrorKind Unit) :
    Option (Except Fault (ChannelEvent α × Channel w α)) :=
  match s.receiver with
  | .idle | .parked | .gone => none
  | .loadFlag dropping =>
      if s.awakener.needWakeup then some (.ok (.silent, s.resetDone dropping))
      else some (.ok (.silent, { s with receiver := .readFd dropping }))
  | .readFd dropping =>
      match result with
      | .ok () =>
          some (.ok (.silent,
            { s with
              awakener := { s.awakener with eventFd := 0 }
              receiver := .storeFlag dropping }))
      | .error kind => some (.ok (s.resetFailed kind dropping))
  | .storeFlag dropping =>
      some (.ok (.silent,
        resetDone { s with awakener := { s.awakener with needWakeup := true } } dropping))
  | .popping =>
      match s.ring.consume with
      | none => none
      | some (.error fault) => some (.error fault)
      | some (.ok (.popped v, ring)) =>
          some (.ok (.received v, { s with ring := ring, receiver := .idle }))
      | some (.ok (.empty, ring)) =>
          some (.ok (.silent, { s with ring := ring, receiver := .testCount }))
      | some (.ok (_, ring)) => some (.ok (.silent, { s with ring := ring }))
  | .testCount =>
      if s.strongCount = 1 then
        some (.ok (.ended, { s with needReset := true, receiver := .idle }))
      else some (.ok (.silent, { s with needReset := true, receiver := .scheduleRead }))
  | .scheduleRead =>
      match result with
      | .ok () => some (.ok (.notReady, { s with receiver := .parked }))
      | .error kind => some (.ok (.pollFailed kind, { s with receiver := .idle }))
  | .release =>
      some (.ok (.silent, { s with strongCount := s.strongCount - 1, receiver := .gone }))

/-- `poll` starts with `reset` when the last one has come to the end of the buffer. -/
def startPoll (s : Channel w α) : Channel w α :=
  if s.needReset then { s with receiver := .loadFlag false }
  else { s with ring := { s.ring with consumer := .loadFront }, receiver := .popping }

def step (s : Channel w α) :
    ChannelAction α → Option (Except Fault (ChannelEvent α × Channel w α))
  | .send retry t =>
      match s.sender with
      | .idle => some (.ok (.silent, { s with sender := .testCount retry t }))
      | _ => none
  | .dropSender =>
      match s.sender with
      | .idle => some (.ok (.silent, { s with sender := .release }))
      | _ => none
  | .sender result => s.stepSender result
  | .poll =>
      match s.receiver with
      | .idle | .parked => some (.ok (.silent, s.startPoll))
      | _ => none
  | .dropReceiver =>
      match s.receiver with
      | .idle | .parked => some (.ok (.silent, { s with receiver := .loadFlag true }))
      | _ => none
  | .receiver result => s.stepReceiver result

end Channel

def channelMachine (w : Nat) (α : Type) :
    Base.Machine (Channel w α) (ChannelAction α) (ChannelEvent α) Fault := ⟨Channel.step⟩

end Ruyi.Sync
