import Ruyi.Net.TcpSink
import Ruyi.Proto.Framing

namespace Ruyi.Sys

open Buf Proto

variable {τ : Type} {buffer : Buffer} {allocs : List Nat} {handed : List Base.Region}
  {answer : Except IoError (List UInt8)}

/-- The socket writes into the blocks only. -/
def Buffer.Fits (buffer : Buffer) (answer : Except IoError (List UInt8)) : Prop :=
  ∀ bytes, answer = .ok bytes → bytes.length ≤ buffer.first.cap + buffer.second.cap

/-- What a reader sees of the answer of its socket: no bytes are the end of them. -/
def outcome : Except IoError (List UInt8) → Poll (Option (List UInt8))
  | .error ⟨.wouldBlock⟩ => .ok .notReady
  | .error ⟨.other code⟩ => .error ⟨.other code⟩
  | .ok [] => .ok (.ready none)
  | .ok (byte :: bytes) => .ok (.ready (some (byte :: bytes)))

variable {nio nio' : Nio} {schedules schedules' : Slab (Schedule τ)} {schedule : Schedule τ}

theorem Nio.scheduleRead_result {current : τ} {r : Except ErrorKind Unit}
    (hget : schedules.get nio.token = some schedule)
    (h : nio.scheduleRead schedules current (.ok ()) = .ok (r, nio', schedules')) :
    r = .ok () := by
  rw [scheduleRead] at h
  split at h
  · cases h
    rfl
  · rw [reregister, modifySchedule, hget] at h
    cases h
    rfl

namespace IStream

/-- A poll reads what the socket gave, and nothing when it is not asked. -/
structure Reads (answer : Except IoError (List UInt8)) (out : Received τ) : Prop where
  unasked : out.asked = false → out.poll = .ok .notReady
  asked : out.asked = true → mapPoll (Option.map ByteBuf.content) out.poll = outcome answer

theorem reads_unasked (h : nio.isReadReady schedules = .ok false) (current : τ)
    (answer : Except IoError (List UInt8)) (result : Except ErrorKind Unit) :
    pollRecv nio buffer allocs schedules current answer result =
      .ok ⟨.ok .notReady, false, nio, buffer, allocs, schedules⟩ := by
  rw [pollRecv, h]
  rfl

theorem pollRecv_ready (hget : schedules.get nio.token = some schedule)
    (h : buffer.Ready allocs handed) (hfits : buffer.Fits answer) (current : τ)
    (result : Except ErrorKind Unit) :
    ∃ out handed', pollRecv nio buffer allocs schedules current answer result = .ok out ∧
      out.buffer.Ready out.allocs handed' ∧ (result = .ok () → Reads answer out) := by
  have hcheck : nio.isReadReady schedules = .ok (!nio.schedOps.read || schedule.readReady) :=
    Nio.isReady_eq hget _ _
  obtain ⟨r, schedules', hcall, -⟩ := Nio.scheduleRead_eq hget current result
  cases hready : !nio.schedOps.read || schedule.readReady with
  | false =>
      rw [hready] at hcheck
      exact ⟨_, handed, reads_unasked hcheck current answer result, h,
        fun _ => ⟨fun _ => rfl, fun h => by cases h⟩⟩
  | true =>
      rw [hready] at hcheck
      match answer with
      | .error ⟨.other code⟩ =>
          refine ⟨_, handed, bind_of_ok hcheck (bind_of_ok rfl rfl), h,
            fun _ => ⟨nofun, fun _ => rfl⟩⟩
      | .error ⟨.wouldBlock⟩ =>
          refine ⟨_, handed, bind_of_ok hcheck (bind_of_ok rfl (bind_of_ok hcall rfl)), h,
            fun hresult => ⟨nofun, fun _ => ?_⟩⟩
          subst hresult
          cases Nio.scheduleRead_result hget hcall
          rfl
      | .ok [] =>
          obtain ⟨next, hreadv, hready'⟩ := Buffer.readv_nil h
          exact ⟨_, handed, bind_of_ok hcheck (bind_of_ok hreadv rfl), hready',
            fun _ => ⟨nofun, fun _ => rfl⟩⟩
      | .ok (byte :: bytes) =>
          obtain ⟨buf, next, allocs', hreadv, hreceives⟩ :=
            Buffer.readv_ok h (List.cons_ne_nil byte bytes) (hfits _ rfl) fun _ _ => 0
          refine ⟨_, _, bind_of_ok hcheck (bind_of_ok hreadv (bind_of_ok hcall rfl)),
            hreceives.ready, fun hresult => ⟨nofun, fun _ => ?_⟩⟩
          subst hresult
          cases Nio.scheduleRead_result hget hcall
          simp only [afterCall, mapPoll, Option.map_some, hreceives.content_eq, outcome]

end IStream

end Ruyi.Sys

namespace Ruyi.Net

open Buf Sys Proto

variable {τ : Type} {s t : Streams τ} {i : Nat} {a : StreamAction τ} {e : StreamEvent τ}
  {handed : List Base.Region}

namespace Streams

theorem sound_of_run {ok : Streams τ → StreamAction τ → Prop} {buffer : Buffer}
    {allocs : List Nat} {log : List (StreamEvent τ)}
    (h : streamMachine.Run ok (.init buffer allocs) log s) : s.Sound :=
  (@each_of_run _ s (fun _ _ _ _ => True) ok log buffer allocs (fun _ _ => trivial)
    (fun _ _ _ _ => trivial) h).sound

theorem Sound.ready_step (hs : s.Sound) (h : s.buffer.Ready s.allocs handed)
    (hfits : ∀ j task answer result, a = .pollRecv j task answer result → s.buffer.Fits answer)
    (hstep : s.step a = some (.ok (e, t))) : ∃ handed', t.buffer.Ready t.allocs handed' := by
  match a with
  | .tryFrom _ _ =>
      cases hstep
      exact ⟨handed, h⟩
  | .drop _ _ =>
      obtain ⟨_, -, hr⟩ := Option.map_eq_some_iff.mp hstep
      cases hr
      exact ⟨handed, h⟩
  | .startSend _ _ =>
      obtain ⟨_, -, hr⟩ := Option.map_eq_some_iff.mp hstep
      cases hr
      exact ⟨handed, h⟩
  | .pollComplete _ _ _ _ | .close _ _ _ _ _ =>
      obtain ⟨_, -, hr⟩ := Option.map_eq_some_iff.mp hstep
      obtain ⟨_, -, hr⟩ := ok_of_map_ok hr
      cases hr
      exact ⟨handed, h⟩
  | .event _ =>
      have hstep := Option.some.inj hstep
      split at hstep
      · cases hstep
      · cases hstep
        exact ⟨handed, h⟩
  | .pollRecv j task answer result =>
      obtain ⟨stream, hj, hr⟩ := Option.map_eq_some_iff.mp hstep
      obtain ⟨schedule, hx⟩ := hs.tracked j stream hj
      obtain ⟨out, handed', hcall, hready, -⟩ :=
        IStream.pollRecv_ready hx.get_eq h (hfits j task answer result rfl) task result
      rw [hcall] at hr
      cases hr
      exact ⟨handed', hready⟩

end Streams

/-- `Recv` of stream `i` as a `Stream`: with the task that polls it, and with what the socket and
the poller will say.  `got` is what the last poll read from the socket. -/
structure Inbound (τ : Type) where
  streams : Streams τ
  i : Nat
  task : τ
  answer : Except IoError (List UInt8)
  result : Except ErrorKind Unit
  got : Except Fault (List UInt8)

namespace Inbound

/-- `poll` of `Recv`. -/
def poll (self : Inbound τ) : Poll (Option ByteBuf) × Inbound τ :=
  match self.streams.step (.pollRecv self.i self.task self.answer self.result) with
  | some (.ok (.received _ _ asked poll, streams)) =>
      let got := if asked then self.answer.toOption.getD [] else []
      (poll, { self with streams, got := .ok got })
  | some (.error fault) => (.ok .notReady, { self with got := .error fault })
  | _ => (.ok .notReady, self)

instance : Stream (Inbound τ) := ⟨poll⟩

/-- The bytes in an answer. -/
def chunk : Poll (Option ByteBuf) → List UInt8
  | .ok (.ready (some data)) => data.content
  | _ => []

theorem chunk_eq {answer : Except IoError (List UInt8)} {r : Poll (Option ByteBuf)}
    (h : mapPoll (Option.map ByteBuf.content) r = outcome answer) :
    chunk r = answer.toOption.getD [] ∧ (r = .ok (.ready none) → answer = .ok []) := by
  rcases answer with ⟨_ | _⟩ | _ | ⟨byte, bytes⟩
  · rcases r with _ | (_ | _) | _
    · cases h
    · cases h
    · cases h
    · exact ⟨rfl, by simp⟩
  · rcases r with _ | (_ | _) | _
    · exact ⟨rfl, by simp⟩
    · cases h
    · cases h
    · cases h
  · rcases r with _ | (_ | _) | _
    · cases h
    · exact ⟨rfl, fun _ => rfl⟩
    · cases h
    · cases h
  · rcases r with _ | (_ | data) | _
    · cases h
    · cases h
    · simp only [mapPoll, Option.map_some, outcome, Except.ok.injEq, Async.ready.injEq,
        Option.some.injEq] at h
      exact ⟨h, by simp⟩
    · cases h

/-- What a poll of the stream is to come to: what the socket gave is handed on. -/
structure Hands (recv next : Inbound τ) (r : Poll (Option ByteBuf)) : Prop where
  step : ∃ e, recv.streams.step (.pollRecv recv.i recv.task recv.answer recv.result) =
    some (.ok (e, next.streams))
  got_eq : next.got = .ok (chunk r)
  chunk_eq : chunk r = [] ∨ recv.answer = .ok (chunk r)
  ended : r = .ok (.ready none) → recv.answer = .ok []

theorem poll_hands {self : Inbound τ} {stream : Sender} (hs : self.streams.Sound)
    (h : self.streams.buffer.Ready self.streams.allocs handed)
    (hfits : self.streams.buffer.Fits self.answer) (hi : self.streams.streams self.i = some stream)
    (hresult : self.result = .ok ()) : Hands self self.poll.2 self.poll.1 := by
  obtain ⟨schedule, hx⟩ := hs.tracked _ _ hi
  obtain ⟨out, _, hcall, -, hreads⟩ :=
    IStream.pollRecv_ready hx.get_eq h hfits self.task self.result
  have hstep : self.streams.step (.pollRecv self.i self.task self.answer self.result) =
      some (.ok (self.streams.putReceived self.i self.task stream.buf out)) := by
    simp only [Streams.step, hi, Option.map_some, hcall]
    rfl
  obtain ⟨hunasked, hasked⟩ := hreads hresult
  have hpoll : self.poll = (out.poll, { self with
      streams := (self.streams.putReceived self.i self.task stream.buf out).2,
      got := .ok (if out.asked then self.answer.toOption.getD [] else []) }) := by
    rw [poll, hstep]
    rfl
  rw [hpoll]
  refine ⟨⟨_, hstep⟩, ?_, ?_, ?_⟩
  · cases h : out.asked with
    | false => rw [hunasked h]; rfl
    | true => rw [(chunk_eq (hasked h)).1]; rfl
  · cases h : out.asked with
    | false => rw [hunasked h]; exact .inl rfl
    | true =>
        rw [(chunk_eq (hasked h)).1]
        cases self.answer with
        | ok _ => exact .inr rfl
        | error _ => exact .inl rfl
  · intro hended
    cases h : out.asked with
    | false => cases (hunasked h).symm.trans hended
    | true => exact (chunk_eq (hasked h)).2 hended

end Inbound

end Ruyi.Net
