import Ruyi.Net.Inbound
import Ruyi.Net.Overlapped

namespace Ruyi.Net.Overlapped

open Buf Sys

variable {τ : Type}

/-- `IStream` of Windows, with the schedule of its `Nio`. -/
structure IStream (τ : Type) where
  schedule : Schedule τ
  pending : Bool

/-- The end of `poll_recv`.  `resulted` says whether the result of a read was asked for,
`submitted` whether a read of no bytes is now under way, and `asked` whether the blocks were given
to the socket; the code keeps none of them. -/
structure Received (τ : Type) where
  poll : Poll (Option ByteBuf)
  resulted : Bool
  submitted : Bool
  asked : Bool
  stream : IStream τ
  buffer : Buffer
  allocs : List Nat

/-- What the socket gave in a poll whose blocks have `answer`. -/
def Received.given (out : Received τ) (answer : Except IoError (List UInt8)) : List UInt8 :=
  if out.asked then answer.toOption.getD [] else []

namespace IStream

/-- The last part of `poll_recv`: the blocks are given to the socket. -/
def read (self : IStream τ) (buffer : Buffer) (allocs : List Nat) (resulted : Bool)
    (answer : Except IoError (List UInt8)) : Except Fault (Received τ) := do
  let (received, buffer, allocs) ← buffer.readv allocs answer
  match received with
  | .ok (some (data, _)) =>
      .ok ⟨.ok (.ready (some data)), resulted, false, true, self, buffer, allocs⟩
  | .ok none => .ok ⟨.ok (.ready none), resulted, false, true, self, buffer, allocs⟩
  | .error e => .ok ⟨.error e, resulted, false, true, self, buffer, allocs⟩

/-- `poll_recv`, with the result of the read that was under way, and the answers of the socket to
a read of no bytes and to one with the blocks. -/
def pollRecv (self : IStream τ) (buffer : Buffer) (allocs : List Nat) (current : τ)
    (result probe : Except IoError Unit) (answer : Except IoError (List UInt8)) :
    Except Fault (Received τ) :=
  if self.pending then
    if self.schedule.readReady then
      let self := { self with pending := false }
      match result with
      | .error e => .ok ⟨.error e, true, false, false, self, buffer, allocs⟩
      | .ok () => self.read buffer allocs true answer
    else .ok ⟨.ok .notReady, false, false, false, self, buffer, allocs⟩
  else
    match probe with
    | .ok () => self.read buffer allocs false answer
    | .error e =>
        match e.kind with
        | .wouldBlock =>
            .ok ⟨.ok .notReady, false, true, false,
              { schedule := self.schedule.scheduleRead current, pending := true }, buffer, allocs⟩
        | .other _ => .ok ⟨.error e, false, false, false, self, buffer, allocs⟩

end IStream

/-- A stream with what its socket has and what the system knows of its reads: the bytes that have
arrived and were not read, whether more can come, whether a read of no bytes is under way, the
result that was not asked for yet, and the packets in the completion port. -/
structure Reader (τ : Type) where
  stream : IStream τ
  queue : List UInt8
  closed : Bool
  flight : Bool
  finished : Option (Except IoError Unit)
  packets : Nat

/-- The streams of a thread, with the blocks that they share. -/
structure Readers (τ : Type) where
  readers : Nat → Reader τ
  buffer : Buffer
  allocs : List Nat

/-- `finish` is the end of the read that is under way, and `event` takes its packet. -/
inductive ReadAction (τ : Type) where
  | arrive (i : Nat) (bytes : List UInt8)
  | close (i : Nat)
  | poll (i : Nat) (task : τ) (probe : Except IoError Unit) (answer : Except IoError (List UInt8))
  | finish (i : Nat) (result : Except IoError Unit)
  | event (i : Nat)

inductive ReadEvent (τ : Type) where
  | arrived (i : Nat) (bytes : List UInt8)
  | closed (i : Nat)
  | polled (i : Nat) (task : τ) (resulted submitted asked : Bool) (poll : Poll (Option ByteBuf))
  | finished (i : Nat)
  | ready (i : Nat) (task : τ)

namespace Reader

def init (registration : Nat) (task : τ) : Reader τ :=
  ⟨⟨.new registration task, false⟩, [], false, false, none, 0⟩

/-- There are bytes to read, or the end of them. -/
def Readable (r : Reader τ) : Prop := r.queue ≠ [] ∨ r.closed = true

instance (r : Reader τ) : Decidable r.Readable := inferInstanceAs (Decidable (_ ∨ _))

/-- The reader after a poll: what the socket gave has left it, whatever is handed out. -/
def received (r : Reader τ) (answer : Except IoError (List UInt8)) (out : Received τ) : Reader τ :=
  { r with
    stream := out.stream
    queue := r.queue.drop (out.given answer).length
    flight := out.submitted || r.flight
    finished := if out.resulted then none else r.finished }

end Reader

namespace Readers

def init (buffer : Buffer) (allocs : List Nat) (task : Nat → τ) : Readers τ :=
  ⟨fun i => .init i (task i), buffer, allocs⟩

def set (s : Readers τ) (i : Nat) (r : Reader τ) : Readers τ :=
  { s with readers := Function.update s.readers i r }

/-- The next step.  A read that is not over at once has its packet posted when it ends, and only
such a read: the handle skips the port on success. -/
def step (s : Readers τ) : ReadAction τ → Option (Except Fault (ReadEvent τ × Readers τ))
  | .arrive i bytes =>
      let r := s.readers i
      some (.ok (.arrived i bytes, s.set i { r with queue := r.queue ++ bytes }))
  | .close i => some (.ok (.closed i, s.set i { s.readers i with closed := true }))
  | .poll i task probe answer =>
      let r := s.readers i
      some ((r.stream.pollRecv s.buffer s.allocs task
        (r.finished.getD (.error Outbound.incomplete)) probe answer).map fun out =>
          (.polled i task out.resulted out.submitted out.asked out.poll,
            { s.set i (r.received answer out) with buffer := out.buffer, allocs := out.allocs }))
  | .finish i result =>
      let r := s.readers i
      if r.flight then
        some (.ok (.finished i, s.set i
          { r with flight := false, finished := some result, packets := r.packets + 1 }))
      else none
  | .event i =>
      let r := s.readers i
      if r.packets = 0 then none
      else some (.ok (.ready i r.stream.schedule.readTask, s.set i
        { r with
          stream := { r.stream with schedule := { r.stream.schedule with readReady := true } }
          packets := r.packets - 1 }))

end Readers

def readersMachine : Base.Machine (Readers τ) (ReadAction τ) (ReadEvent τ) Fault := ⟨Readers.step⟩

/-- A socket gives the first of its bytes, or none at their end.  It would block only when there
is neither. -/
def Reader.Gives (r : Reader τ) (buffer : Buffer) : Except IoError (List UInt8) → Prop
  | .ok bytes => bytes.length ≤ buffer.first.cap + buffer.second.cap ∧ bytes <+: r.queue ∧
      (bytes = [] → r.queue = [])
  | .error ⟨.wouldBlock⟩ => ¬ r.Readable
  | .error ⟨.other _⟩ => True

/-- A read of no bytes succeeds when there is something to read, and no byte arrives after the
end. -/
def FromSocket (s : Readers τ) : ReadAction τ → Prop
  | .arrive i _ => (s.readers i).closed = false
  | .poll i _ probe answer =>
      (probe = .ok () → (s.readers i).Readable) ∧ (s.readers i).Gives s.buffer answer
  | .finish i result => result = .ok () → (s.readers i).Readable
  | .close _ | .event _ => True

instance (r : Reader τ) (buffer : Buffer) :
    ∀ answer, Decidable (r.Gives buffer answer)
  | .ok _ => inferInstanceAs (Decidable (_ ∧ _))
  | .error ⟨.wouldBlock⟩ => inferInstanceAs (Decidable (¬ _))
  | .error ⟨.other _⟩ => .isTrue trivial

instance (s : Readers τ) : ∀ a, Decidable (FromSocket s a)
  | .arrive _ _ => inferInstanceAs (Decidable (_ = _))
  | .poll _ _ _ _ => inferInstanceAs (Decidable (_ ∧ _))
  | .finish _ _ => inferInstanceAs (Decidable (_ → _))
  | .close _ | .event _ => .isTrue trivial

/-- Where a reader stands: between reads, in one, or at the end of one. -/
inductive Reader.Stage (r : Reader τ) : Prop
  | idle (pending : r.stream.pending = false) (flight : r.flight = false)
      (finished : r.finished = none) (packets : r.packets = 0)
  | underWay (pending : r.stream.pending = true) (ready : r.stream.schedule.readReady = false)
      (flight : r.flight = true) (finished : r.finished = none) (packets : r.packets = 0)
  | ended {result : Except IoError Unit} (pending : r.stream.pending = true)
      (packet : r.packets = 1 ∧ r.stream.schedule.readReady = false ∨
        r.packets = 0 ∧ r.stream.schedule.readReady = true)
      (flight : r.flight = false) (finished : r.finished = some result)
      (readable : result = .ok () → r.Readable)

section

variable {r : Reader τ} {stream : IStream τ} {buffer : Buffer} {allocs : List Nat}
  {handed : List Base.Region} {resulted : Bool} {probe : Except IoError Unit}
  {answer : Except IoError (List UInt8)}

/-- What a poll of a reader comes to. -/
structure Reader.Polled (r : Reader τ) (answer : Except IoError (List UInt8))
    (out : Received τ) : Prop where
  stage : (r.received answer out).Stage
  handed : Inbound.chunk out.poll = out.given answer
  given : out.given answer <+: r.queue
  resulted : out.resulted = true → r.finished.isSome = true
  submitted : out.submitted = true → r.flight = false
  asked : out.asked = true → r.Readable ∧ answer ≠ .error ⟨.wouldBlock⟩
  ended : out.poll = .ok (.ready none) → r.closed = true ∧ r.queue = []
  waits : out.poll = .ok .notReady → (r.received answer out).flight = true ∨
    0 < (r.received answer out).packets

theorem IStream.read_ok (h : buffer.Ready allocs handed) (hreadable : r.Readable)
    (hgives : r.Gives buffer answer) (stream : IStream τ) (resulted : Bool) :
    ∃ out handed', stream.read buffer allocs resulted answer = .ok out ∧
      out.buffer.Ready out.allocs handed' ∧ out.stream = stream ∧ out.resulted = resulted ∧
      out.submitted = false ∧ Inbound.chunk out.poll = out.given answer ∧
      out.given answer <+: r.queue ∧ answer ≠ .error ⟨.wouldBlock⟩ ∧
      (out.poll = .ok (.ready none) → r.closed = true ∧ r.queue = []) ∧
      out.poll ≠ .ok .notReady := by
  match answer with
  | .error ⟨.wouldBlock⟩ => exact absurd hreadable hgives
  | .error ⟨.other code⟩ =>
      exact ⟨_, handed, rfl, h, rfl, rfl, rfl, rfl, List.nil_prefix, nofun, nofun, nofun⟩
  | .ok [] =>
      obtain ⟨next, hreadv, hready⟩ := Buffer.readv_nil h
      have hempty : r.queue = [] := hgives.2.2 rfl
      have hclosed : r.closed = true := hreadable.resolve_left fun hne => hne hempty
      exact ⟨_, handed, bind_of_ok hreadv rfl, hready, rfl, rfl, rfl, rfl, List.nil_prefix, nofun,
        fun _ => ⟨hclosed, hempty⟩, nofun⟩
  | .ok (byte :: bytes) =>
      obtain ⟨buf, next, allocs', hreadv, hreceives⟩ :=
        Buffer.readv_ok h (List.cons_ne_nil byte bytes) hgives.1 fun _ _ => 0
      exact ⟨_, _, bind_of_ok hreadv rfl, hreceives.ready, rfl, rfl, rfl, hreceives.content_eq,
        hgives.2.1, nofun, nofun, nofun⟩

namespace Reader

theorem polled_read (h : buffer.Ready allocs handed) (hreadable : r.Readable)
    (hgives : r.Gives buffer answer) (hpending : stream.pending = false)
    (hflight : r.flight = false) (hpackets : r.packets = 0)
    (hresulted : r.finished.isSome = resulted) :
    ∃ out handed', stream.read buffer allocs resulted answer = .ok out ∧
      out.buffer.Ready out.allocs handed' ∧ r.Polled answer out := by
  obtain ⟨out, handed', hcall, hready, hstream, heq, hsubmitted, hchunk, hgiven, hsync, hended,
    hwaits⟩ := IStream.read_ok h hreadable hgives stream resulted
  refine ⟨out, handed', hcall, hready, ?_, hchunk, hgiven, ?_, ?_, fun _ => ⟨hreadable, hsync⟩,
    hended, fun hpoll => absurd hpoll hwaits⟩
  · refine .idle ?_ ?_ ?_ hpackets
    · exact (congrArg IStream.pending hstream).trans hpending
    · rw [received, hsubmitted, Bool.false_or]
      exact hflight
    · rw [received, heq, ite_eq_left_iff]
      intro hno
      rw [← hresulted] at hno
      exact Option.not_isSome_iff_eq_none.mp hno
  · intro hresult
    rw [hresulted, ← heq]
    exact hresult
  · intro hno
    cases hsubmitted.symm.trans hno

theorem Stage.poll (hstage : r.Stage) (h : buffer.Ready allocs handed)
    (hprobe : probe = .ok () → r.Readable) (hgives : r.Gives buffer answer) (task : τ) :
    ∃ out handed', r.stream.pollRecv buffer allocs task
        (r.finished.getD (.error Outbound.incomplete)) probe answer = .ok out ∧
      out.buffer.Ready out.allocs handed' ∧ r.Polled answer out := by
  have hunready (hpending : r.stream.pending = true)
      (hready : r.stream.schedule.readReady = false) (hwaits : r.flight = true ∨ 0 < r.packets) :
      ∃ out handed', r.stream.pollRecv buffer allocs task
          (r.finished.getD (.error Outbound.incomplete)) probe answer = .ok out ∧
        out.buffer.Ready out.allocs handed' ∧ r.Polled answer out := by
    unfold IStream.pollRecv
    rw [if_pos hpending, if_neg (Bool.eq_false_iff.mp hready)]
    refine ⟨_, handed, rfl, h, ?_, rfl, List.nil_prefix, nofun, nofun, nofun, nofun,
      fun _ => hwaits⟩
    exact hstage
  cases hstage with
  | idle hpending hflight hfinished hpackets =>
      unfold IStream.pollRecv
      rw [if_neg (Bool.eq_false_iff.mp hpending)]
      match probe with
      | .ok () =>
          have hnone : r.finished.isSome = false := by
            rw [hfinished]
            rfl
          exact polled_read h (hprobe rfl) hgives hpending hflight hpackets hnone
      | .error ⟨.wouldBlock⟩ =>
          refine ⟨_, handed, rfl, h, ?_, rfl, List.nil_prefix, nofun, fun _ => hflight, nofun,
            nofun, fun _ => .inl rfl⟩
          exact .underWay rfl rfl rfl hfinished hpackets
      | .error ⟨.other code⟩ =>
          refine ⟨_, handed, rfl, h, ?_, rfl, List.nil_prefix, nofun, nofun, nofun, nofun, nofun⟩
          exact .idle hpending hflight hfinished hpackets
  | underWay hpending hready hflight hfinished hpackets =>
      exact hunready hpending hready (.inl hflight)
  | @ended result hpending hpacket hflight hfinished hreadable =>
      rcases hpacket with ⟨hpackets, hready⟩ | ⟨hpackets, hready⟩
      · exact hunready hpending hready (.inr (Nat.lt_of_lt_of_eq Nat.one_pos hpackets.symm))
      · have hsome : r.finished.isSome = true := Option.isSome_iff_exists.mpr ⟨result, hfinished⟩
        unfold IStream.pollRecv
        rw [if_pos hpending, if_pos hready, hfinished, Option.getD_some]
        match result with
        | .ok () => exact polled_read h (hreadable rfl) hgives rfl hflight hpackets hsome
        | .error e =>
            refine ⟨_, handed, rfl, h, ?_, rfl, List.nil_prefix, fun _ => hsome, nofun, nofun,
              nofun, nofun⟩
            exact .idle rfl hflight rfl hpackets

end Reader

end

def ReadEvent.arrival (i : Nat) : ReadEvent τ → List UInt8
  | .arrived j bytes => if j = i then bytes else []
  | _ => []

def ReadEvent.delivery (i : Nat) : ReadEvent τ → List UInt8
  | .polled j _ _ _ _ poll => if j = i then Inbound.chunk poll else []
  | _ => []

/-- What has arrived at the socket of reader `i`, in order. -/
def arrivals (log : List (ReadEvent τ)) (i : Nat) : List UInt8 := log.flatMap (ReadEvent.arrival i)

/-- What reader `i` has handed out, in order. -/
def deliveries (log : List (ReadEvent τ)) (i : Nat) : List UInt8 :=
  log.flatMap (ReadEvent.delivery i)

section

variable {s t : Readers τ} {log : List (ReadEvent τ)} {e : ReadEvent τ} {a : ReadAction τ}
  {i : Nat} {r : Reader τ} {bytes : List UInt8}

theorem arrivals_concat : arrivals (log ++ [e]) i = arrivals log i ++ e.arrival i := by
  rw [arrivals, List.flatMap_append, List.flatMap_singleton, arrivals]

theorem deliveries_concat : deliveries (log ++ [e]) i = deliveries log i ++ e.delivery i := by
  rw [deliveries, List.flatMap_append, List.flatMap_singleton, deliveries]

namespace Reader

theorem Stage.arrive (h : r.Stage) (bytes : List UInt8) :
    Stage { r with queue := r.queue ++ bytes } := by
  cases h with
  | idle hpending hflight hfinished hpackets => exact .idle hpending hflight hfinished hpackets
  | underWay hpending hready hflight hfinished hpackets =>
      exact .underWay hpending hready hflight hfinished hpackets
  | ended hpending hpacket hflight hfinished hreadable =>
      refine .ended hpending hpacket hflight hfinished fun hresult => ?_
      exact (hreadable hresult).imp_left fun hne hnil => hne (List.append_eq_nil_iff.mp hnil).1

theorem Stage.close (h : r.Stage) : Stage { r with closed := true } := by
  cases h with
  | idle hpending hflight hfinished hpackets => exact .idle hpending hflight hfinished hpackets
  | underWay hpending hready hflight hfinished hpackets =>
      exact .underWay hpending hready hflight hfinished hpackets
  | ended hpending hpacket hflight hfinished hreadable =>
      exact .ended hpending hpacket hflight hfinished fun _ => .inr rfl

theorem Stage.finish (h : r.Stage) (hflight : r.flight = true) {result : Except IoError Unit}
    (hreadable : result = .ok () → r.Readable) :
    Stage { r with flight := false, finished := some result, packets := r.packets + 1 } := by
  cases h with
  | idle _ hnone _ _ => cases hnone.symm.trans hflight
  | ended _ _ hnone _ _ => cases hnone.symm.trans hflight
  | underWay hpending hready _ _ hpackets =>
      refine .ended hpending (.inl ⟨?_, hready⟩) rfl rfl hreadable
      rw [hpackets]

theorem Stage.event (h : r.Stage) (hpackets : r.packets ≠ 0) :
    Stage { r with
      stream := { r.stream with schedule := { r.stream.schedule with readReady := true } }
      packets := r.packets - 1 } := by
  cases h with
  | idle _ _ _ hnone => cases hpackets hnone
  | underWay _ _ _ _ hnone => cases hpackets hnone
  | ended hpending hpacket hflight hfinished hreadable =>
      rcases hpacket with ⟨hone, -⟩ | ⟨hnone, -⟩
      · refine .ended hpending (.inr ⟨?_, rfl⟩) hflight hfinished hreadable
        rw [hone]
      · cases hpackets hnone

end Reader

namespace Readers

/-- The blocks are ready for the next read, and what has arrived was handed out or is still in the
sockets. -/
structure Held (log : List (ReadEvent τ)) (s : Readers τ) : Prop where
  buffer : ∃ handed, s.buffer.Ready s.allocs handed
  stage : ∀ i, (s.readers i).Stage
  eq : ∀ i, deliveries log i ++ (s.readers i).queue = arrivals log i

theorem held_init {buffer : Buffer} {allocs : List Nat} {handed : List Base.Region}
    (h : buffer.Ready allocs handed) (task : Nat → τ) : Held [] (init buffer allocs task) :=
  ⟨⟨handed, h⟩, fun _ => .idle rfl rfl rfl rfl, fun _ => rfl⟩

theorem Held.set (h : Held log s) (hstage : r.Stage)
    (hother : ∀ j, j ≠ i → e.delivery j = [] ∧ e.arrival j = [])
    (heq : e.delivery i ++ r.queue = (s.readers i).queue ++ e.arrival i) {buffer : Buffer}
    {allocs : List Nat} (hbuffer : ∃ handed, buffer.Ready allocs handed) :
    Held (log ++ [e]) ⟨Function.update s.readers i r, buffer, allocs⟩ := by
  have hself : Function.update s.readers i r i = r := Function.update_self _ _ _
  have hkeep : ∀ j, j ≠ i → Function.update s.readers i r j = s.readers j :=
    fun j hj => Function.update_of_ne hj _ _
  refine ⟨hbuffer, fun j => ?_, fun j => ?_⟩
  · dsimp only
    by_cases hj : j = i
    · rw [hj, hself]
      exact hstage
    · rw [hkeep j hj]
      exact h.stage j
  · dsimp only
    rw [deliveries_concat, arrivals_concat, ← h.eq j, List.append_assoc, List.append_assoc]
    apply congrArg
    by_cases hj : j = i
    · rw [hj, hself]
      exact heq
    · obtain ⟨hdelivery, harrival⟩ := hother j hj
      rw [hdelivery, harrival, hkeep j hj, List.append_nil, List.nil_append]

theorem Held.poll (h : Held log s) {task : τ} {probe : Except IoError Unit}
    {answer : Except IoError (List UInt8)} (hsocket : FromSocket s (.poll i task probe answer)) :
    ∃ out, s.step (.poll i task probe answer) =
        some (.ok (.polled i task out.resulted out.submitted out.asked out.poll,
          { s.set i ((s.readers i).received answer out) with
            buffer := out.buffer, allocs := out.allocs })) ∧
      (s.readers i).Polled answer out ∧ ∃ handed, out.buffer.Ready out.allocs handed := by
  obtain ⟨handed, hbuffer⟩ := h.buffer
  obtain ⟨out, handed', hcall, hready, hpolled⟩ :=
    (h.stage i).poll hbuffer hsocket.1 hsocket.2 task
  refine ⟨out, ?_, hpolled, handed', hready⟩
  rw [step, hcall]
  rfl

theorem Held.step (h : Held log s) (hsocket : FromSocket s a)
    (hstep : s.step a = some (.ok (e, t))) : Held (log ++ [e]) t := by
  match a with
  | .arrive i bytes =>
      cases hstep
      refine h.set ((h.stage i).arrive bytes) (fun j hj => ⟨rfl, ?_⟩) ?_ h.buffer
      · rw [ReadEvent.arrival, if_neg (Ne.symm hj)]
      · rw [ReadEvent.arrival, if_pos rfl]
        rfl
  | .close i =>
      cases hstep
      exact h.set (h.stage i).close (fun _ _ => ⟨rfl, rfl⟩) (List.append_nil _).symm h.buffer
  | .poll i task probe answer =>
      obtain ⟨out, hnext, hpolled, hbuffer⟩ := h.poll hsocket
      rw [hnext] at hstep
      cases hstep
      refine h.set hpolled.stage (fun j hj => ⟨?_, rfl⟩) ?_ hbuffer
      · rw [ReadEvent.delivery, if_neg (Ne.symm hj)]
      · obtain ⟨rest, hrest⟩ := hpolled.given
        rw [ReadEvent.delivery, if_pos rfl, hpolled.handed, Reader.received, ← hrest,
          List.drop_left]
        exact (List.append_nil _).symm
  | .finish i result =>
      by_cases hflight : (s.readers i).flight = true
      · rw [Readers.step, if_pos hflight] at hstep
        cases hstep
        exact h.set ((h.stage i).finish hflight hsocket) (fun _ _ => ⟨rfl, rfl⟩)
          (List.append_nil _).symm h.buffer
      · rw [Readers.step, if_neg hflight] at hstep
        cases hstep
  | .event i =>
      by_cases hpackets : (s.readers i).packets = 0
      · rw [Readers.step, if_pos hpackets] at hstep
        cases hstep
      · rw [Readers.step, if_neg hpackets] at hstep
        cases hstep
        exact h.set ((h.stage i).event hpackets) (fun _ _ => ⟨rfl, rfl⟩)
          (List.append_nil _).symm h.buffer

end Readers

end

/-- A stream of Windows hands out what its socket gives, in order and without a gap, and ends when
there is no more.  The blocks, which all the streams of a thread share, are given to a socket
only when it has something to read, so that no read with them is left under way; the result of a
read is asked for when it is over, and one is under way at most.  After a poll that is not ready
a read is under way or its packet is to come. -/
theorem overlapped_receives {allocs : List Nat} {task : Nat → τ} {log : List (ReadEvent τ)}
    {s : Readers τ}
    (h : readersMachine.Run FromSocket (.init (Buffer.new allocs).1 (Buffer.new allocs).2 task)
      log s) :
    (∀ i, deliveries log i ++ (s.readers i).queue = arrivals log i) ∧
      ∀ i task probe answer, FromSocket s (.poll i task probe answer) →
        ∃ resulted submitted asked poll t,
          s.step (.poll i task probe answer) =
            some (.ok (.polled i task resulted submitted asked poll, t)) ∧
          (asked = true → (s.readers i).Readable ∧ answer ≠ .error ⟨.wouldBlock⟩) ∧
          (resulted = true → (s.readers i).finished.isSome = true) ∧
          (submitted = true → (s.readers i).flight = false) ∧
          (poll = .ok (.ready none) →
            (s.readers i).closed = true ∧ deliveries log i = arrivals log i) ∧
          (poll = .ok .notReady → (t.readers i).flight = true ∨ 0 < (t.readers i).packets) := by
  have hheld : Readers.Held log s :=
    h.invariant (Readers.held_init (Buffer.ready_new allocs (Base.laid_nil allocs)) task)
      fun hheld hsocket hstep => hheld.step hsocket hstep
  refine ⟨hheld.eq, fun i task probe answer hsocket => ?_⟩
  obtain ⟨out, hstep, hpolled, -⟩ := hheld.poll hsocket
  refine ⟨out.resulted, out.submitted, out.asked, out.poll, _, hstep, hpolled.asked,
    hpolled.resulted, hpolled.submitted, fun hended => ?_, fun hwaits => ?_⟩
  · obtain ⟨hclosed, hempty⟩ := hpolled.ended hended
    have heq := hheld.eq i
    rw [hempty, List.append_nil] at heq
    exact ⟨hclosed, heq⟩
  · have hself : Function.update s.readers i ((s.readers i).received answer out) i =
        (s.readers i).received answer out := Function.update_self _ _ _
    dsimp only [Readers.set]
    rw [hself]
    exact hpolled.waits hwaits

/-- Three bytes that arrive while a read is under way. -/
def threeBytes : List (ReadAction Nat) :=
  [.poll 0 7 (.error ⟨.wouldBlock⟩) (.error ⟨.wouldBlock⟩), .arrive 0 [1, 2, 3], .finish 0 (.ok ()),
    .event 0]

theorem overlapped_receives_of_three :
    ∃ (log : List (ReadEvent Nat)) (s : Readers Nat),
      readersMachine.Run FromSocket
        (.init (Buffer.new []).1 (Buffer.new []).2 fun _ => 7) log s ∧
      arrivals log 0 = [1, 2, 3] ∧ deliveries log 0 ++ (s.readers 0).queue = [1, 2, 3] ∧
      ∃ resulted submitted asked poll t,
        s.step (.poll 0 7 (.ok ()) (.ok [1, 2])) =
          some (.ok (.polled 0 7 resulted submitted asked poll, t)) ∧
        (poll = .ok .notReady → (t.readers 0).flight = true ∨ 0 < (t.readers 0).packets) := by
  have hend : (readersMachine.exec FromSocket threeBytes
      (Readers.init (Buffer.new []).1 (Buffer.new []).2 fun _ => 7)).map (fun r =>
        (arrivals r.1 0, decide (FromSocket r.2 (.poll 0 7 (.ok ()) (.ok [1, 2]))))) =
      some ([1, 2, 3], true) := by
    decide +kernel
  obtain ⟨⟨log, s⟩, hexec, heq⟩ := Option.map_eq_some_iff.mp hend
  obtain ⟨harrivals, hsocket⟩ := Prod.mk.inj heq
  have hrun := Base.Machine.Run.of_exec _ hexec
  obtain ⟨hheld, hpoll⟩ := overlapped_receives hrun
  obtain ⟨resulted, submitted, asked, poll, t, hstep, -, -, -, -, hwaits⟩ :=
    hpoll 0 7 (.ok ()) (.ok [1, 2]) (of_decide_eq_true hsocket)
  exact ⟨log, s, hrun, harrivals, (hheld 0).trans harrivals, resulted, submitted, asked, poll, t,
    hstep, hwaits⟩

end Ruyi.Net.Overlapped
