import Ruyi.Base.Machine
import Ruyi.Sys.Tcp

namespace Ruyi.Net.Overlapped

open Buf Sys

variable {τ : Type}

/-- `OStream` of Windows, with the schedule of its `Nio`. -/
structure OStream (τ : Type) where
  schedule : Schedule τ
  pending : Bool

/-- The end of `poll_send`.  `taken` is what the socket took at once, `asked` says whether the
result of a send was asked for, and `submitted` is what a send is now under way with; the code
keeps none of them. -/
structure Sent (τ : Type) where
  poll : Poll Unit
  taken : List UInt8
  asked : Bool
  submitted : Option (List Block)
  stream : OStream τ
  data : ByteBuf

namespace OStream

/-- The second part of `poll_send`: what is left is given to the socket. -/
def send (self : OStream τ) (data : ByteBuf) (asked : Bool) (current : τ)
    (answer : Except IoError Nat) : Except Fault (Sent τ) := do
  let (written, rest) ← Sys.OStream.writev data answer
  match written with
  | .error e =>
      match e.kind with
      | .wouldBlock =>
          .ok ⟨.ok .notReady, [], asked, some (data.blocks.drop data.idx),
            { schedule := self.schedule.scheduleWrite current, pending := true }, rest⟩
      | .other _ => .ok ⟨.error e, [], asked, none, self, rest⟩
  | .ok bytes =>
      let rest := rest.compact
      if rest.isEmpty then .ok ⟨.ok (.ready ()), bytes, asked, none, self, rest⟩
      else .ok ⟨.ok .notReady, bytes, asked, none, self, rest⟩

/-- `poll_send`, with the result of the last send and the answer of the socket to the next
one. -/
def pollSend (self : OStream τ) (data : ByteBuf) (current : τ)
    (result answer : Except IoError Nat) : Except Fault (Sent τ) :=
  if data.isEmpty then .ok ⟨.ok (.ready ()), [], false, none, self, data⟩
  else if self.schedule.writeReady then
    if self.pending then
      let self := { self with pending := false }
      match result with
      | .error e => .ok ⟨.error e, [], true, none, self, data⟩
      | .ok n =>
          let data := (data.skip n).2.compact
          if data.isEmpty then .ok ⟨.ok (.ready ()), [], true, none, self, data⟩
          else self.send data true current answer
    else self.send data false current answer
  else .ok ⟨.ok .notReady, [], false, none, self, data⟩

end OStream

/-- `start_send` of a sink, on its buffer. -/
def startSend (buf data : ByteBuf) : ByteBuf :=
  if buf.isEmpty then data else buf.extend data

/-- A sink, and what the system knows of its sends: the blocks of the one that is under way, the
result that was not asked for yet, and the packets in the completion port. -/
structure Outbound (τ : Type) where
  stream : OStream τ
  buf : ByteBuf
  flight : Option (List Block)
  finished : Option (Except IoError Nat)
  packets : Nat

/-- `finish` is the end of the send that is under way, and `event` takes its packet. -/
inductive OutboundAction (τ : Type) where
  | startSend (data : ByteBuf)
  | pollComplete (task : τ) (answer : Except IoError Nat)
  | finish (result : Except IoError Nat)
  | event

inductive OutboundEvent (τ : Type) where
  | started (bytes : List UInt8)
  | sent (task : τ) (taken : List UInt8) (asked : Bool) (submitted : Option (List Block))
      (poll : Poll Unit)
  | finished (taken : List UInt8)
  | ready (task : τ)

/-- How much a send has sent. -/
def transferred : Except IoError Nat → Nat
  | .ok n => n
  | .error _ => 0

namespace Outbound

def init (registration : Nat) (task : τ) : Outbound τ :=
  ⟨⟨.new registration task, false⟩, .new, none, none, 0⟩

/-- What `WSAGetOverlappedResult` says of a send that is not over. -/
def incomplete : IoError := ⟨.other 996⟩

def putSent (s : Outbound τ) (task : τ) (out : Sent τ) : OutboundEvent τ × Outbound τ :=
  (.sent task out.taken out.asked out.submitted out.poll,
    { s with
      stream := out.stream
      buf := out.data
      flight := out.submitted.or s.flight
      finished := if out.asked then none else s.finished })

/-- The next step.  A send that is not over at once has its packet posted when it ends, and only
such a send: the handle skips the port on success. -/
def step (s : Outbound τ) :
    OutboundAction τ → Option (Except Fault (OutboundEvent τ × Outbound τ))
  | .startSend data =>
      some (.ok (.started data.content, { s with buf := Overlapped.startSend s.buf data }))
  | .pollComplete task answer =>
      some ((s.stream.pollSend s.buf task (s.finished.getD (.error incomplete)) answer).map
        (s.putSent task))
  | .finish result => s.flight.map fun blocks =>
      .ok (.finished ((bytesOf blocks).take (transferred result)),
        { s with flight := none, finished := some result, packets := s.packets + 1 })
  | .event =>
      if s.packets = 0 then none
      else some (.ok (.ready s.stream.schedule.writeTask,
        { s with
          stream := { s.stream with schedule := { s.stream.schedule with writeReady := true } }
          packets := s.packets - 1 }))

end Outbound

def outboundMachine : Base.Machine (Outbound τ) (OutboundAction τ) (OutboundEvent τ) Fault :=
  ⟨Outbound.step⟩

/-- A send sends no more than it was given. -/
def WithinFlight (s : Outbound τ) : OutboundAction τ → Prop
  | .finish result => transferred result ≤ (bytesOf (s.flight.getD [])).length
  | _ => True

instance : ∀ (s : Outbound τ) a, Decidable (WithinFlight s a)
  | _, .finish _ => inferInstanceAs (Decidable (_ ≤ _))
  | _, .startSend _ | _, .pollComplete _ _ | _, .event => .isTrue trivial

def OutboundEvent.taken : OutboundEvent τ → List UInt8
  | .sent _ bytes _ _ _ => bytes
  | .finished bytes => bytes
  | _ => []

def OutboundEvent.given : OutboundEvent τ → List UInt8
  | .started bytes => bytes
  | _ => []

/-- What the socket has taken, in order. -/
def accepted (log : List (OutboundEvent τ)) : List UInt8 := log.flatMap OutboundEvent.taken

/-- What was given to the sink, in order. -/
def given (log : List (OutboundEvent τ)) : List UInt8 := log.flatMap OutboundEvent.given

section

variable {s t : Outbound τ} {data : ByteBuf} {current : τ} {answer result : Except IoError Nat}
  {stream : OStream τ} {left : List UInt8} {log : List (OutboundEvent τ)} {e : OutboundEvent τ}

theorem accepted_concat (log : List (OutboundEvent τ)) (e : OutboundEvent τ) :
    accepted (log ++ [e]) = accepted log ++ e.taken := by
  rw [accepted, List.flatMap_append, List.flatMap_singleton, accepted]

theorem given_concat (log : List (OutboundEvent τ)) (e : OutboundEvent τ) :
    given (log ++ [e]) = given log ++ e.given := by
  rw [given, List.flatMap_append, List.flatMap_singleton, given]

/-- What becomes of a buffer that is given to the socket: the socket takes a part of it at once,
or a send is under way with the blocks of all of it. -/
structure OStream.Gives (stream : OStream τ) (data : ByteBuf) (asked : Bool) (current : τ)
    (answer : Except IoError Nat) (out : Sent τ) : Prop where
  asked_eq : out.asked = asked
  content_eq : out.taken ++ out.data.content = data.content
  drained : out.poll = .ok (.ready ()) → out.data.content = []
  stays : out.submitted = none → out.stream = stream
  submits : ∀ blocks, out.submitted = some blocks →
    blocks = data.blocks.drop data.idx ∧ out.data = data ∧
      out.stream = { schedule := stream.schedule.scheduleWrite current, pending := true }
  waits : out.poll = .ok .notReady → (∀ n, answer = .ok n → data.content.length ≤ n) →
    out.submitted.isSome = true

theorem OStream.send_ok (hne : data.content ≠ []) (stream : OStream τ) (asked : Bool)
    (current : τ) (answer : Except IoError Nat) :
    ∃ out, stream.send data asked current answer = .ok out ∧
      stream.Gives data asked current answer out := by
  rw [send, Sys.OStream.writev_eq hne]
  match answer with
  | .error ⟨.wouldBlock⟩ =>
      refine ⟨_, rfl, rfl, List.nil_append _, nofun, nofun, ?_, fun _ _ => rfl⟩
      rintro blocks ⟨⟩
      exact ⟨rfl, rfl, rfl⟩
  | .error ⟨.other code⟩ =>
      exact ⟨_, rfl, rfl, List.nil_append _, nofun, fun _ => rfl, nofun, nofun⟩
  | .ok n =>
      have hrest := Sys.OStream.content_skip_compact data n
      have hcontent : data.content.take n ++ (data.skip n).2.compact.content = data.content := by
        rw [hrest, List.take_append_drop]
      cases hempty : (data.skip n).2.compact.isEmpty with
      | true =>
          refine ⟨_, if_pos hempty, rfl, hcontent, fun _ => ByteBuf.isEmpty_iff.mp hempty,
            fun _ => rfl, nofun, nofun⟩
      | false =>
          refine ⟨_, if_neg (Bool.eq_false_iff.mp hempty), rfl, hcontent, nofun, fun _ => rfl,
            nofun, fun _ hall => ?_⟩
          rw [List.drop_of_length_le (hall n rfl), ← ByteBuf.isEmpty_iff, hempty] at hrest
          cases hrest

/-- Where a sink stands: between sends, in one, or at the end of one.  `left` is what the socket
has not taken. -/
inductive Outbound.Stage (s : Outbound τ) : (left : List UInt8) → Prop where
  | idle (pending : s.stream.pending = false) (ready : s.stream.schedule.writeReady = true)
      (flight : s.flight = none) (finished : s.finished = none) (packets : s.packets = 0) :
      Stage s s.buf.content
  | underWay {blocks : List Block} (pending : s.stream.pending = true)
      (ready : s.stream.schedule.writeReady = false) (flight : s.flight = some blocks)
      (finished : s.finished = none) (packets : s.packets = 0) (ne : bytesOf blocks ≠ [])
      (kept : blocks <+: s.buf.blocks.drop s.buf.idx) : Stage s s.buf.content
  | ended {result : Except IoError Nat} (pending : s.stream.pending = true)
      (packet : s.packets = 1 ∧ s.stream.schedule.writeReady = false ∨
        s.packets = 0 ∧ s.stream.schedule.writeReady = true)
      (flight : s.flight = none) (finished : s.finished = some result)
      (le : transferred result ≤ s.buf.content.length) :
      Stage s (s.buf.content.drop (transferred result))

variable {blocks : List Block} {buf : ByteBuf}

theorem content_startSend (buf data : ByteBuf) :
    (startSend buf data).content = buf.content ++ data.content := by
  rw [startSend]
  split
  · rename_i hempty
    rw [ByteBuf.isEmpty_iff.mp hempty, List.nil_append]
  · exact buf.content_extend data

theorem length_le_of_kept (h : blocks <+: buf.blocks.drop buf.idx) :
    (bytesOf blocks).length ≤ buf.content.length := by
  obtain ⟨rest, hrest⟩ := h
  rw [ByteBuf.content, ← hrest, bytesOf_append, List.length_append]
  exact Nat.le_add_right _ _

theorem take_of_kept (h : blocks <+: buf.blocks.drop buf.idx) {n : Nat}
    (hn : n ≤ (bytesOf blocks).length) : (bytesOf blocks).take n = buf.content.take n := by
  obtain ⟨rest, hrest⟩ := h
  rw [ByteBuf.content, ← hrest, bytesOf_append, List.take_append_of_le_length hn]

/-- The blocks of a send stay where they are while the buffer grows. -/
theorem kept_startSend (h : blocks <+: buf.blocks.drop buf.idx) (hne : bytesOf blocks ≠ [])
    (data : ByteBuf) :
    blocks <+: (startSend buf data).blocks.drop (startSend buf data).idx := by
  have hfull : ¬ buf.isEmpty = true := by
    intro hempty
    have hle := length_le_of_kept h
    rw [ByteBuf.isEmpty_iff.mp hempty] at hle
    exact hne (List.eq_nil_of_length_eq_zero (Nat.le_zero.mp hle))
  rw [startSend, if_neg hfull]
  apply h.trans
  rw [ByteBuf.extend, List.drop_append_of_le_length buf.idx_le]
  exact List.prefix_append _ _

namespace Outbound

theorem Stage.startSend (h : s.Stage left) (data : ByteBuf) :
    Stage { s with buf := Overlapped.startSend s.buf data } (left ++ data.content) := by
  cases h with
  | idle hpending hready hflight hfinished hpackets =>
      rw [← content_startSend]
      exact .idle hpending hready hflight hfinished hpackets
  | underWay hpending hready hflight hfinished hpackets hne hkept =>
      rw [← content_startSend]
      exact .underWay hpending hready hflight hfinished hpackets hne
        (kept_startSend hkept hne data)
  | ended hpending hpacket hflight hfinished hle =>
      rw [← List.drop_append_of_le_length hle, ← content_startSend]
      refine Stage.ended (s := { s with buf := _ }) hpending hpacket hflight hfinished ?_
      rw [content_startSend, List.length_append]
      exact Nat.le_add_right_of_le hle

theorem Stage.of_gives {asked : Bool} {out : Sent τ}
    (hready : stream.schedule.writeReady = true) (hpending : stream.pending = false)
    (hne : data.content ≠ []) (hflight : s.flight = none) (hpackets : s.packets = 0)
    (hasked : asked = true ∨ s.finished = none)
    (h : stream.Gives data asked current answer out) :
    (s.putSent current out).2.Stage out.data.content := by
  have hfinished : (if out.asked = true then none else s.finished) = none := by
    rw [h.asked_eq, ite_eq_left_iff]
    exact fun hno => hasked.resolve_left hno
  have hflight' : (s.putSent current out).2.flight = out.submitted := by
    rw [putSent, hflight, Option.or_none]
  cases hsubmitted : out.submitted with
  | none =>
      have hstream := h.stays hsubmitted
      refine Stage.idle ?_ ?_ (hflight'.trans hsubmitted) hfinished hpackets
      · exact (congrArg OStream.pending hstream).trans hpending
      · exact (congrArg (·.schedule.writeReady) hstream).trans hready
  | some blocks =>
      obtain ⟨rfl, hdata, hstream⟩ := h.submits blocks hsubmitted
      refine Stage.underWay ?_ ?_ (hflight'.trans hsubmitted) hfinished hpackets hne ?_
      · exact congrArg OStream.pending hstream
      · exact congrArg (·.schedule.writeReady) hstream
      · exact hdata ▸ List.prefix_rfl

theorem Stage.left_suffix (h : s.Stage left) : left <:+ s.buf.content := by
  cases h with
  | idle => exact List.suffix_rfl
  | underWay => exact List.suffix_rfl
  | ended => exact List.drop_suffix _ _

/-- What a poll comes to, with `left` not taken before it and `after` not taken after it. -/
structure Polled (s : Outbound τ) (left after : List UInt8) (answer : Except IoError Nat)
    (out : Sent τ) (t : Outbound τ) : Prop where
  stage : t.Stage after
  taken_eq : out.taken ++ after = left
  asks : out.asked = true → s.finished.isSome = true
  submits : out.submitted.isSome = true → s.flight = none
  drained : out.poll = .ok (.ready ()) → after = []
  waits : out.poll = .ok .notReady → (∀ n, answer = .ok n → s.buf.content.length ≤ n) →
    t.flight.isSome = true ∨ 0 < t.packets

theorem Stage.still (h : s.Stage left) (poll : Poll Unit)
    (hdrained : poll = .ok (.ready ()) → left = [])
    (hwaits : poll = .ok .notReady → s.flight.isSome = true ∨ 0 < s.packets) :
    s.Polled left left answer ⟨poll, [], false, none, s.stream, s.buf⟩ s where
  stage := h
  taken_eq := List.nil_append _
  asks := nofun
  submits := nofun
  drained := hdrained
  waits hpoll _ := hwaits hpoll

theorem Stage.gives {asked : Bool} {out : Sent τ}
    (h : stream.Gives data asked current answer out)
    (hready : stream.schedule.writeReady = true) (hpending : stream.pending = false)
    (hne : data.content ≠ []) (hle : data.content.length ≤ s.buf.content.length)
    (hflight : s.flight = none) (hpackets : s.packets = 0)
    (hasked : s.finished.isSome = asked) :
    s.Polled data.content out.data.content answer out (s.putSent current out).2 := by
  have hasked' : asked = true ∨ s.finished = none := by
    cases asked with
    | false => exact .inr (Option.not_isSome_iff_eq_none.mp (Bool.eq_false_iff.mp hasked))
    | true => exact .inl rfl
  refine ⟨Stage.of_gives hready hpending hne hflight hpackets hasked' h, h.content_eq, ?_,
    fun _ => hflight, h.drained, ?_⟩
  · rw [h.asked_eq, hasked]
    exact id
  · intro hpoll hall
    have hsubmitted := h.waits hpoll fun n hn => hle.trans (hall n hn)
    refine .inl ?_
    rwa [putSent, hflight, Option.or_none]

theorem Stage.pollEnded (hne : s.buf.content ≠ []) (hpending : s.stream.pending = true)
    (hready : s.stream.schedule.writeReady = true) (hpackets : s.packets = 0)
    (hflight : s.flight = none) (hfinished : s.finished = some result)
    (hle : transferred result ≤ s.buf.content.length) (task : τ) (answer : Except IoError Nat) :
    ∃ out after, s.stream.pollSend s.buf task result answer = .ok out ∧
      s.Polled (s.buf.content.drop (transferred result)) after answer out
        (s.putSent task out).2 := by
  have hfull : ¬ s.buf.isEmpty = true := ByteBuf.isEmpty_iff.not.mpr hne
  have hsome : s.finished.isSome = true := Option.isSome_iff_exists.mpr ⟨result, hfinished⟩
  rw [OStream.pollSend, if_neg hfull, if_pos hready, if_pos hpending]
  match result with
  | .error e =>
      refine ⟨_, s.buf.content, rfl, ?_, List.nil_append _, fun _ => hsome, nofun, nofun, nofun⟩
      exact .idle rfl hready hflight rfl hpackets
  | .ok n =>
      have hrest := Sys.OStream.content_skip_compact s.buf n
      cases hempty : (s.buf.skip n).2.compact.isEmpty with
      | true =>
          have hnil := ByteBuf.isEmpty_iff.mp hempty
          refine ⟨_, _, if_pos hempty, .idle rfl hready hflight rfl hpackets, ?_,
            fun _ => hsome, nofun, fun _ => hnil, nofun⟩
          exact (List.nil_append _).trans hrest
      | false =>
          have hne' : (s.buf.skip n).2.compact.content ≠ [] := by
            rw [← ByteBuf.isEmpty_iff.ne, hempty]
            exact Bool.false_ne_true
          obtain ⟨out, hcall, hgives⟩ :=
            OStream.send_ok hne' { s.stream with pending := false } true task answer
          refine ⟨out, out.data.content, (if_neg (Bool.eq_false_iff.mp hempty)).trans hcall, ?_⟩
          have hlength : (s.buf.skip n).2.compact.content.length ≤ s.buf.content.length := by
            rw [hrest]
            exact (List.drop_sublist _ _).length_le
          have hpolled := Stage.gives hgives hready rfl hne' hlength hflight hpackets hsome
          rwa [hrest] at hpolled

theorem Stage.poll (h : s.Stage left) (task : τ) (answer : Except IoError Nat) :
    ∃ out after,
      s.stream.pollSend s.buf task (s.finished.getD (.error incomplete)) answer = .ok out ∧
      s.Polled left after answer out (s.putSent task out).2 := by
  by_cases hempty : s.buf.isEmpty = true
  · have hleft : left = [] := by
      have hsuffix := h.left_suffix
      rwa [ByteBuf.isEmpty_iff.mp hempty, List.suffix_nil] at hsuffix
    exact ⟨_, left, if_pos hempty, h.still _ (fun _ => hleft) nofun⟩
  · have hne : s.buf.content ≠ [] := ByteBuf.isEmpty_iff.not.mp hempty
    have hunready (hready : s.stream.schedule.writeReady = false)
        (hwaits : s.flight.isSome = true ∨ 0 < s.packets) :
        ∃ out after,
          s.stream.pollSend s.buf task (s.finished.getD (.error incomplete)) answer = .ok out ∧
          s.Polled left after answer out (s.putSent task out).2 := by
      rw [OStream.pollSend, if_neg hempty, if_neg (Bool.eq_false_iff.mp hready)]
      exact ⟨_, left, rfl, h.still _ nofun fun _ => hwaits⟩
    cases h with
    | idle hpending hready hflight hfinished hpackets =>
        obtain ⟨out, hcall, hgives⟩ := OStream.send_ok hne s.stream false task answer
        have hnone : s.finished.isSome = false := by
          rw [hfinished]
          rfl
        refine ⟨out, _, ?_, Stage.gives hgives hready hpending hne (Nat.le_refl _) hflight
          hpackets hnone⟩
        rw [OStream.pollSend, if_neg hempty, if_pos hready, if_neg (Bool.eq_false_iff.mp hpending),
          hcall]
    | underWay _ hready hflight _ _ _ _ =>
        exact hunready hready (.inl (Option.isSome_iff_exists.mpr ⟨_, hflight⟩))
    | ended hpending hpacket hflight hfinished hle =>
        rcases hpacket with ⟨hpackets, hready⟩ | ⟨hpackets, hready⟩
        · exact hunready hready (.inr (Nat.lt_of_lt_of_eq Nat.one_pos hpackets.symm))
        · rw [hfinished]
          exact Stage.pollEnded hne hpending hready hpackets hflight hfinished hle task answer

/-- What was given to the sink is what the socket has taken and what it has not. -/
def Held (log : List (OutboundEvent τ)) (s : Outbound τ) : Prop :=
  ∃ left, s.Stage left ∧ accepted log ++ left = given log

theorem held_init (registration : Nat) (task : τ) : Held [] (init registration task) :=
  ⟨[], .idle rfl rfl rfl rfl rfl, rfl⟩

theorem Stage.finish (h : s.Stage left) (hflight : s.flight = some blocks)
    (hle : transferred result ≤ (bytesOf blocks).length) :
    (bytesOf blocks).take (transferred result) ++ s.buf.content.drop (transferred result) = left ∧
      Stage { s with flight := none, finished := some result, packets := s.packets + 1 }
        (s.buf.content.drop (transferred result)) := by
  cases h with
  | idle _ _ hnone _ _ => cases hnone.symm.trans hflight
  | ended _ _ hnone _ _ => cases hnone.symm.trans hflight
  | underWay hpending hready hsame _ hpackets _ hkept =>
      cases hsame.symm.trans hflight
      constructor
      · rw [take_of_kept hkept hle, List.take_append_drop]
      · refine .ended (s := { s with flight := none, finished := _, packets := _ }) hpending
          (.inl ⟨?_, hready⟩) rfl rfl (hle.trans (length_le_of_kept hkept))
        rw [hpackets]

theorem Stage.event (h : s.Stage left) (hpackets : s.packets ≠ 0) :
    Stage { s with
      stream := { s.stream with schedule := { s.stream.schedule with writeReady := true } }
      packets := s.packets - 1 } left := by
  cases h with
  | idle _ _ _ _ hnone => cases hpackets hnone
  | underWay _ _ _ _ hnone _ _ => cases hpackets hnone
  | ended hpending hpacket hflight hfinished hle =>
      rcases hpacket with ⟨hone, -⟩ | ⟨hnone, -⟩
      · refine Stage.ended (s := { s with stream := _, packets := _ }) hpending
          (.inr ⟨?_, rfl⟩) hflight hfinished hle
        rw [hone]
      · cases hpackets hnone

theorem Held.step {a : OutboundAction τ} (h : Held log s) (hwithin : WithinFlight s a)
    (hstep : s.step a = some (.ok (e, t))) : Held (log ++ [e]) t := by
  obtain ⟨left, hstage, heq⟩ := h
  rw [Held, accepted_concat, given_concat, ← heq]
  match a with
  | .startSend data =>
      cases hstep
      refine ⟨_, hstage.startSend data, ?_⟩
      simp only [OutboundEvent.taken, OutboundEvent.given, List.append_nil, List.append_assoc]
  | .pollComplete task answer =>
      obtain ⟨out, after, hcall, hpolled⟩ := hstage.poll task answer
      rw [Outbound.step, hcall] at hstep
      cases hstep
      refine ⟨after, hpolled.stage, ?_⟩
      rw [← hpolled.taken_eq]
      exact (List.append_assoc _ _ _).trans (List.append_nil _).symm
  | .finish result =>
      obtain ⟨blocks, hflight, hr⟩ := Option.map_eq_some_iff.mp hstep
      cases hr
      have hle : transferred result ≤ (bytesOf blocks).length := by
        rwa [WithinFlight, hflight] at hwithin
      obtain ⟨htaken, hafter⟩ := hstage.finish hflight hle
      refine ⟨_, hafter, ?_⟩
      rw [← htaken]
      exact (List.append_assoc _ _ _).trans (List.append_nil _).symm
  | .event =>
      by_cases hpackets : s.packets = 0
      · rw [Outbound.step, if_pos hpackets] at hstep
        cases hstep
      · rw [Outbound.step, if_neg hpackets] at hstep
        cases hstep
        refine ⟨left, hstage.event hpackets, ?_⟩
        simp only [OutboundEvent.taken, OutboundEvent.given, List.append_nil]

theorem held_of_run {registration : Nat} {task : τ}
    (h : outboundMachine.Run WithinFlight (init registration task) log s) : Held log s :=
  h.invariant (held_init registration task) fun hheld hwithin hstep => hheld.step hwithin hstep

end Outbound

end

/-- The sink of Windows gives the socket what it was given, in order, and reads the result of a
send only when the send is over.  One send is under way at most, and its blocks stay where they
are until it is over.  A poll that is ready finds everything taken, and after one that is not a
send is under way or its packet is to come, if the socket takes all of what it takes at once. -/
theorem overlapped_sends {registration : Nat} {task : τ} {log : List (OutboundEvent τ)}
    {s : Outbound τ} (h : outboundMachine.Run WithinFlight (.init registration task) log s) :
    accepted log <+: given log ∧
      (∀ blocks, s.flight = some blocks → blocks <+: s.buf.blocks.drop s.buf.idx) ∧
      ∀ task answer, ∃ taken asked submitted poll t,
        s.step (.pollComplete task answer) =
          some (.ok (.sent task taken asked submitted poll, t)) ∧
        (asked = true → s.finished.isSome = true) ∧
        (submitted.isSome = true → s.flight = none) ∧
        (poll = .ok (.ready ()) → accepted log ++ taken = given log) ∧
        (poll = .ok .notReady → (∀ n, answer = .ok n → s.buf.content.length ≤ n) →
          t.flight.isSome = true ∨ 0 < t.packets) := by
  obtain ⟨left, hstage, heq⟩ := Outbound.held_of_run h
  refine ⟨⟨left, heq⟩, fun blocks hflight => ?_, fun task answer => ?_⟩
  · cases hstage with
    | idle _ _ hnone _ _ => cases hnone.symm.trans hflight
    | ended _ _ hnone _ _ => cases hnone.symm.trans hflight
    | underWay _ _ hsame _ _ _ hkept =>
        cases hsame.symm.trans hflight
        exact hkept
  · obtain ⟨out, after, hcall, hpolled⟩ := hstage.poll task answer
    refine ⟨out.taken, out.asked, out.submitted, out.poll, _, ?_, hpolled.asks, hpolled.submits,
      fun hready => ?_, hpolled.waits⟩
    · rw [Outbound.step, hcall]
      rfl
    · rw [← heq, ← hpolled.taken_eq, hpolled.drained hready, List.append_nil]

/-- A buffer that grows while a send is under way, of which the socket takes a part. -/
def twoBuffers : List (OutboundAction Nat) :=
  [.startSend (.ofVec 0 [1, 2, 3] []), .pollComplete 7 (.error ⟨.wouldBlock⟩),
    .startSend (.ofVec 1 [4, 5] []), .finish (.ok 2), .event]

theorem overlapped_sends_of_two :
    ∃ (log : List (OutboundEvent Nat)) (s : Outbound Nat),
      outboundMachine.Run WithinFlight (.init 0 7) log s ∧ accepted log = [1, 2] ∧
      given log = [1, 2, 3, 4, 5] ∧
      ∃ taken asked submitted poll t,
        s.step (.pollComplete 7 (.ok 3)) = some (.ok (.sent 7 taken asked submitted poll, t)) ∧
        (poll = .ok (.ready ()) → accepted log ++ taken = [1, 2, 3, 4, 5]) := by
  have hend : (outboundMachine.exec WithinFlight twoBuffers (Outbound.init 0 7)).map (fun r =>
      (accepted r.1, given r.1)) = some ([1, 2], [1, 2, 3, 4, 5]) := by
    decide +kernel
  obtain ⟨⟨log, s⟩, hexec, heq⟩ := Option.map_eq_some_iff.mp hend
  obtain ⟨haccepted, hgiven⟩ := Prod.mk.inj heq
  have hrun := Base.Machine.Run.of_exec _ hexec
  obtain ⟨taken, asked, submitted, poll, t, hstep, -, -, hready, -⟩ :=
    (overlapped_sends hrun).2.2 7 (.ok 3)
  rw [hgiven] at hready
  exact ⟨log, s, hrun, haccepted, hgiven, taken, asked, submitted, poll, t, hstep, hready⟩

end Ruyi.Net.Overlapped
