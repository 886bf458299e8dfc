import Ruyi.Net.Tcp

namespace Ruyi.Net

open Buf Sys

variable {τ : Type}

/-- What the socket of stream `i` took. -/
def StreamEvent.takenFrom (i : Nat) : StreamEvent τ → List UInt8
  | .sent j _ taken _ => if j = i then taken.getD [] else []
  | _ => []

/-- What `start_send` was given for stream `i`. -/
def StreamEvent.startedOn (i : Nat) : StreamEvent τ → List UInt8
  | .started j bytes => if j = i then bytes else []
  | _ => []

def accepted (i : Nat) (log : List (StreamEvent τ)) : List UInt8 :=
  log.flatMap (StreamEvent.takenFrom i)

def started (i : Nat) (log : List (StreamEvent τ)) : List UInt8 :=
  log.flatMap (StreamEvent.startedOn i)

variable {i : Nat} {log : List (StreamEvent τ)} {e : StreamEvent τ}

theorem accepted_concat (i : Nat) (log : List (StreamEvent τ)) (e : StreamEvent τ) :
    accepted i (log ++ [e]) = accepted i log ++ e.takenFrom i := by
  rw [accepted, List.flatMap_append, List.flatMap_singleton, accepted]

theorem started_concat (i : Nat) (log : List (StreamEvent τ)) (e : StreamEvent τ) :
    started i (log ++ [e]) = started i log ++ e.startedOn i := by
  rw [started, List.flatMap_append, List.flatMap_singleton, started]

theorem takenFrom_of_ne (h : e.stream ≠ some i) : e.takenFrom i = [] := by
  match e with
  | .sent j _ _ _ => exact if_neg fun hj => h (congrArg some hj)
  | .opened _ _ | .dropped _ | .started _ _ | .received _ _ _ _ | .ready _ _ => rfl

theorem startedOn_of_ne (h : e.stream ≠ some i) : e.startedOn i = [] := by
  match e with
  | .started j _ => exact if_neg fun hj => h (congrArg some hj)
  | .opened _ _ | .dropped _ | .sent _ _ _ _ | .received _ _ _ _ | .ready _ _ => rfl

/-- The bytes that the socket took and those in the buffer are the bytes that were sent. -/
def Conserves (i : Nat) (log : List (StreamEvent τ)) (stream : Sender) (_ : Schedule τ) : Prop :=
  accepted i log ++ stream.buf.content = started i log

theorem conserves_opened {stream : Sender} {schedule : Schedule τ}
    (hlog : ∀ e ∈ log, e.stream ≠ some i) (hbuf : stream.buf = .new) :
    Conserves i (log ++ [.opened i (.ok ())]) stream schedule := by
  have haccepted : accepted i log = [] :=
    List.flatMap_eq_nil_iff.mpr fun e he => takenFrom_of_ne (hlog e he)
  have hstarted : started i log = [] :=
    List.flatMap_eq_nil_iff.mpr fun e he => startedOn_of_ne (hlog e he)
  rw [Conserves, accepted_concat, started_concat, haccepted, hstarted, hbuf]
  rfl

theorem conserves_moves {stream stream' : Sender} {schedule schedule' : Schedule τ}
    {a : StreamAction τ} (h : Conserves i log stream schedule)
    (hmoves : Moves i stream schedule a e stream' schedule') :
    Conserves i (log ++ [e]) stream' schedule' := by
  rw [Conserves] at h ⊢
  rw [accepted_concat, started_concat]
  cases hmoves with
  | idle hother =>
      rw [takenFrom_of_ne hother, startedOn_of_ne hother, List.append_nil, List.append_nil, h]
  | ready _ => simp only [StreamEvent.takenFrom, StreamEvent.startedOn, List.append_nil, h]
  | received _ => simp only [StreamEvent.takenFrom, StreamEvent.startedOn, List.append_nil, h]
  | started data =>
      simp only [StreamEvent.takenFrom, StreamEvent.startedOn, if_pos, List.append_nil]
      rw [Sender.content_startSend, ← List.append_assoc, h]
  | sent _ hsends =>
      simp only [StreamEvent.takenFrom, StreamEvent.startedOn, if_pos, List.append_nil]
      rw [List.append_assoc, hsends.content_eq, h]

variable {s : Streams τ} {buffer : Buffer} {allocs : List Nat} {stream : Sender}

/-- A sink loses, repeats and reorders nothing, and it is done when nothing is left. -/
theorem sends_in_order (h : streamMachine.Run (fun _ _ => True) (.init buffer allocs) log s)
    (hi : s.streams i = some stream) :
    accepted i log ++ stream.buf.content = started i log ∧
      ∀ task answer result, ∃ taken poll t stream',
        s.step (.pollComplete i task answer result) = some (.ok (.sent i task taken poll, t)) ∧
        t.streams i = some stream' ∧
        (poll = .ok (.ready ()) → stream'.buf.content = []) := by
  have heach := Streams.each_of_run (fun hlog hbuf => conserves_opened hlog hbuf)
    (fun hP _ _ hmoves => conserves_moves hP hmoves) h
  obtain ⟨schedule, htracks, hconserves⟩ := heach.each i stream hi
  refine ⟨hconserves, fun task answer result => ?_⟩
  obtain ⟨out, schedule', hcall, hsends⟩ :=
    Sender.pollComplete_ok htracks.get_eq task answer result
  refine ⟨out.taken, out.poll, (s.putSent i task out).2, ⟨out.nio, out.data⟩, ?_, ?_,
    hsends.drained⟩
  · simp only [Streams.step, hi, Option.map_some, hcall]
    rfl
  · exact Function.update_self _ _ _

/-- A sink that is given two buffers, the second while a byte of the first is left. -/
def twoSends : List (StreamAction Nat) :=
  [.tryFrom 7 (.ok ()), .startSend 0 (.ofVec 0 [1, 2, 3] []), .pollComplete 0 7 (.ok 2) (.ok ()),
    .startSend 0 (.ofVec 1 [4, 5] []), .event ⟨0, false, true⟩,
    .pollComplete 0 7 (.error ⟨.wouldBlock⟩) (.ok ()), .pollComplete 0 7 (.ok 2) (.ok ())]

theorem sends_in_order_of_two :
    ∃ (log : List (StreamEvent Nat)) (s : Streams Nat) (stream : Sender),
      streamMachine.Run (fun _ _ => True) (.init (Buffer.new []).1 []) log s ∧
      s.streams 0 = some stream ∧ accepted 0 log = [1, 2, 3, 4] ∧ stream.buf.content = [5] ∧
      started 0 log = [1, 2, 3, 4, 5] := by
  have hend : ((streamMachine.exec (fun _ _ => True) twoSends
      (Streams.init (Buffer.new []).1 [])).map fun r =>
        (accepted 0 r.1, (r.2.streams 0).map fun stream => stream.buf.content)) =
      some ([1, 2, 3, 4], some [5]) := by
    decide +kernel
  obtain ⟨⟨log, s⟩, hexec, heq⟩ := Option.map_eq_some_iff.mp hend
  obtain ⟨haccepted, hstream⟩ := Prod.mk.inj heq
  obtain ⟨stream, hi, hcontent⟩ := Option.map_eq_some_iff.mp hstream
  have hrun := Base.Machine.Run.of_exec _ hexec
  have horder := (sends_in_order hrun hi).1
  rw [haccepted, hcontent] at horder
  exact ⟨log, s, stream, hrun, hi, haccepted, hcontent, horder.symm⟩

end Ruyi.Net
