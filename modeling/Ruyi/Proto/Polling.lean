import Ruyi.Base.Machine
import Ruyi.Proto.U8Prefix

namespace Ruyi.Proto

open Ruyi.Buf

/-- The adapters. -/
inductive AnyAdapter where
  | u8
  | fixed (adapter : Adapter)
  deriving DecidableEq

namespace AnyAdapter

def size : AnyAdapter → Nat
  | u8 => 1
  | fixed a => a.size

def order : AnyAdapter → Endian
  | u8 => .big
  | fixed a => a.order

/-- What the length of a payload is compared with when its header has just been read from a buffer
of `len` bytes: what is left of it, or what there was before. -/
def counted : AnyAdapter → (len : Nat) → Nat
  | u8, len => len - 1
  | fixed _, len => len

/-- The header of a frame of which `bytes` are there. -/
def header (f : AnyAdapter) (bytes : List UInt8) : Nat := Decoder.header f.size f.order bytes

end AnyAdapter

/-- An inner stream that keeps its answers. -/
structure Watched (S : Type) where
  stream : S
  answers : List (Poll (Option ByteBuf))

section

variable {S : Type} [Stream S]

instance : Stream (Watched S) where
  poll w :=
    let r := Stream.poll w.stream
    (r.1, ⟨r.2, w.answers ++ [r.1]⟩)

def AnyAdapter.poll (target : Endian) :
    AnyAdapter → Prefix S → Except Fault (Poll (Option ByteBuf) × Prefix S)
  | u8, p => .ok (U8Prefix.poll p)
  | fixed a, p => a.poll target p

end

section

variable {S : Type}

def Prefix.watch (p : Prefix S) : Prefix (Watched S) where
  stream := ⟨p.stream, []⟩
  state := p.state
  data := p.data

/-- A chunk that does not complete the frame the adapter is at. -/
def AnyAdapter.Short (f : AnyAdapter) (p : Prefix S) (chunk : ByteBuf) : Prop :=
  match p.state with
  | .more n => p.data.content.length + chunk.content.length < n
  | .pending =>
      if p.data.content.length < f.size then
        chunk.content.length < f.size ∨
          f.counted chunk.content.length < f.header chunk.content
      else
        f.counted p.data.content.length < f.header p.data.content ∧
          p.data.content.length - f.size + chunk.content.length < f.header p.data.content
  | .done => False

section

variable {f : AnyAdapter} {p : Prefix S} {chunk : ByteBuf}

theorem AnyAdapter.short_more {n : Nat} (h : p.state = .more n) :
    f.Short p chunk ↔ p.data.content.length + chunk.content.length < n := by
  rw [Short, h]

theorem AnyAdapter.not_short_done (h : p.state = .done) : ¬ f.Short p chunk := by
  rw [Short, h]
  exact not_false

theorem AnyAdapter.short_missing (h : p.state = .pending)
    (hlen : p.data.content.length < f.size) :
    f.Short p chunk ↔ chunk.content.length < f.size ∨
      f.counted chunk.content.length < f.header chunk.content := by
  rw [Short, h]
  dsimp only
  rw [if_pos hlen]

theorem AnyAdapter.short_header (h : p.state = .pending)
    (hlen : ¬ p.data.content.length < f.size) :
    f.Short p chunk ↔ f.counted p.data.content.length < f.header p.data.content ∧
      p.data.content.length - f.size + chunk.content.length < f.header p.data.content := by
  rw [Short, h]
  dsimp only
  rw [if_neg hlen]

end

variable [Stream S]

/-- When this poll returns `NotReady`, that is what the inner stream said last during it. -/
def AnyAdapter.KeepsAwake (f : AnyAdapter) (target : Endian) (p : Prefix S) : Prop :=
  ∀ q, f.poll target p.watch = .ok (.ok .notReady, q) →
    q.stream.answers.getLast? = some (.ok .notReady)

/-- What a poll comes to when the inner stream is in state `s`: it returns `NotReady` after the
inner stream did, or after a chunk that is too short, and else returns something else. -/
inductive Outcome (short : ByteBuf → Prop) (s : S) :
    Except Fault (Poll (Option ByteBuf) × Prefix S) → Prop where
  | asleep {q : Prefix S} (asked : q.stream = (Stream.poll s).2)
      (answer : (Stream.poll s).1 = .ok .notReady) : Outcome short s (.ok (.ok .notReady, q))
  | short {q : Prefix S} {chunk : ByteBuf} (asked : q.stream = (Stream.poll s).2)
      (answer : (Stream.poll s).1 = .ok (.ready (some chunk))) (isShort : short chunk) :
      Outcome short s (.ok (.ok .notReady, q))
  | awake {r : Except Fault (Poll (Option ByteBuf) × Prefix S)}
      (ready : ∀ q, r ≠ .ok (.ok .notReady, q))
      (whole : ∀ chunk, (Stream.poll s).1 = .ok (.ready (some chunk)) → ¬ short chunk) :
      Outcome short s r

variable {short short' : ByteBuf → Prop} {s : S}
  {r : Except Fault (Poll (Option ByteBuf) × Prefix S)}

theorem Outcome.congr (h : Outcome short s r) (heq : ∀ chunk, short chunk ↔ short' chunk) :
    Outcome short' s r := by
  have hsame : short = short' := funext fun chunk => propext (heq chunk)
  exact hsame ▸ h

theorem Outcome.ended (h : (Stream.poll s).1 = .ok (.ready none)) {q : Prefix S} :
    Outcome short s (.ok (.ok (.ready none), q)) := by
  refine .awake (fun q hq => by cases hq) fun chunk hchunk => ?_
  cases h.symm.trans hchunk

theorem Outcome.failed {e : IoError} (h : (Stream.poll s).1 = .error e) {q : Prefix S} :
    Outcome short s (.ok (.error e, q)) := by
  refine .awake (fun q hq => by cases hq) fun chunk hchunk => ?_
  cases h.symm.trans hchunk

theorem Outcome.whole {chunk : ByteBuf} (h : (Stream.poll s).1 = .ok (.ready (some chunk)))
    (hwhole : ¬ short chunk) (hr : ∀ q, r ≠ .ok (.ok .notReady, q)) : Outcome short s r := by
  refine .awake hr fun other hother => ?_
  cases h.symm.trans hother
  exact hwhole

theorem pollMore_outcome (p : Prefix S) (n : Nat) (hidx : p.data.idx < p.data.blocks.length) :
    Outcome (fun chunk => p.data.content.length + chunk.content.length < n) p.stream
      (.ok (p.pollMore n)) := by
  rw [Prefix.pollMore]
  split
  · rename_i e stream hpoll
    exact .failed (congrArg Prod.fst hpoll)
  · rename_i stream hpoll
    exact .asleep (congrArg Prod.snd hpoll).symm (congrArg Prod.fst hpoll)
  · rename_i pulled stream hpoll
    have hanswer := congrArg Prod.fst hpoll
    have hidx' : (p.data.extend pulled).idx < (p.data.extend pulled).blocks.length := by
      simp only [ByteBuf.extend, List.length_append]
      exact Nat.lt_add_right _ hidx
    dsimp only
    rcases drainTo_cases hidx' (ByteBuf.content_extend p.data pulled) n with
      ⟨hle, head, tail, hdrain, -⟩ | ⟨hlt, hdrain⟩
    · rw [List.length_append] at hle
      rw [hdrain]
      exact .whole hanswer (Nat.not_lt.mpr hle) fun q hq => by cases hq
    · rw [List.length_append] at hlt
      rw [hdrain]
      exact .short (congrArg Prod.snd hpoll).symm hanswer (Nat.lt_of_not_le hlt)
  · rename_i stream hpoll
    exact .ended (congrArg Prod.fst hpoll)

theorem pollPending_outcome {size : Nat} (hsize : size = 2 ∨ size = 4 ∨ size = 8)
    (order target : Endian) (p : Prefix S) :
    Outcome (fun chunk => chunk.content.length < size ∨
        chunk.content.length < Decoder.header size order chunk.content) p.stream
      (p.pollPending size (readFixed size order target)) := by
  rw [Prefix.pollPending]
  split
  · rename_i e stream hpoll
    exact .failed (congrArg Prod.fst hpoll)
  · rename_i stream hpoll
    exact .asleep (congrArg Prod.snd hpoll).symm (congrArg Prod.fst hpoll)
  · rename_i pulled stream hpoll
    have hasked := (congrArg Prod.snd hpoll).symm
    have hanswer := congrArg Prod.fst hpoll
    rw [ByteBuf.len_eq]
    dsimp only
    by_cases hlen : pulled.content.length < size
    · rw [if_pos hlen]
      exact .short hasked hanswer (.inl hlen)
    · obtain ⟨body, hread, hbody, hidx⟩ := @readFixed_header _ order target hsize _ hlen
      rw [if_neg hlen, hread]
      dsimp only
      by_cases hle : Decoder.header size order pulled.content ≤ pulled.content.length
      · rw [if_pos hle]
        refine .whole hanswer (by omega) fun q hq => ?_
        split at hq
        · cases hq
        · cases hq
      · rw [if_neg hle]
        exact .short hasked hanswer (.inr (Nat.lt_of_not_le hle))
  · rename_i stream hpoll
    exact .ended (congrArg Prod.fst hpoll)

theorem header_byte (byte : UInt8) (bytes : List UInt8) :
    AnyAdapter.u8.header (byte :: bytes) = byte.toNat := by
  show Nat.ofDigits 256 [byte.toNat] = byte.toNat
  exact Nat.ofDigits_singleton

theorem U8Prefix.pollPending_outcome (p : Prefix S) :
    Outcome (fun chunk => chunk.content.length < 1 ∨
        chunk.content.length - 1 < AnyAdapter.u8.header chunk.content) p.stream
      (.ok (U8Prefix.pollPending p)) := by
  rw [U8Prefix.pollPending]
  split
  · rename_i e stream hpoll
    exact .failed (congrArg Prod.fst hpoll)
  · rename_i stream hpoll
    exact .asleep (congrArg Prod.snd hpoll).symm (congrArg Prod.fst hpoll)
  · rename_i pulled stream hpoll
    have hasked := (congrArg Prod.snd hpoll).symm
    have hanswer := congrArg Prod.fst hpoll
    rcases u8.read_cases pulled with
      ⟨hnil, data, hread, -⟩ | ⟨byte, bytes, hcontent, data, hread, hdata, hidx⟩
    · rw [hread]
      refine .short hasked hanswer (.inl ?_)
      rw [hnil]
      exact Nat.zero_lt_one
    · rw [hread]
      dsimp only
      rcases drainTo_cases hidx hdata byte.toNat with
        ⟨hle, head, tail, hdrain, -⟩ | ⟨hlt, hdrain⟩
      · rw [hdrain]
        refine .whole hanswer ?_ fun q hq => by cases hq
        rw [hcontent, header_byte, List.length_cons]
        omega
      · rw [hdrain]
        refine .short hasked hanswer (.inr ?_)
        rw [hcontent, header_byte, List.length_cons]
        omega
  · rename_i stream hpoll
    exact .ended (congrArg Prod.fst hpoll)

theorem Outcome.unasked (hr : ∀ q, r ≠ .ok (.ok .notReady, q))
    (hshort : ∀ chunk, ¬ short chunk) : Outcome short s r := .awake hr fun chunk _ => hshort chunk

theorem U8Prefix.poll_outcome {p : Prefix S} (h : p.Held) :
    Outcome (AnyAdapter.u8.Short p) p.stream (.ok (U8Prefix.poll p)) := by
  cases hstate : p.state with
  | more n =>
      have hpoll : U8Prefix.poll p = p.pollMore n := by rw [U8Prefix.poll, hstate]
      rw [hpoll]
      exact (pollMore_outcome p n (h n hstate)).congr fun _ => (AnyAdapter.short_more hstate).symm
  | done =>
      have hpoll : U8Prefix.poll p = (.ok (.ready none), p) := by rw [U8Prefix.poll, hstate]
      rw [hpoll]
      exact .unasked (fun q hq => by cases hq) fun _ => AnyAdapter.not_short_done hstate
  | pending =>
      rw [U8Prefix.poll, hstate]
      dsimp only
      rcases u8.read_cases p.data with
        ⟨hnil, data, hread, -⟩ | ⟨byte, bytes, hcontent, data, hread, hdata, hidx⟩
      · have hlen : p.data.content.length < AnyAdapter.u8.size := by
          rw [hnil]
          exact Nat.zero_lt_one
        rw [hread]
        exact (U8Prefix.pollPending_outcome { p with state := .pending, data }).congr fun _ =>
          (AnyAdapter.short_missing hstate hlen).symm
      · have hlen : p.data.content.length = bytes.length + 1 := by
          rw [hcontent, List.length_cons]
        have hheader : AnyAdapter.u8.header p.data.content = byte.toNat := by
          rw [hcontent, header_byte]
        have hshort : ∀ chunk, AnyAdapter.u8.Short p chunk ↔
            bytes.length < byte.toNat ∧ bytes.length + chunk.content.length < byte.toNat := by
          intro chunk
          have hthere : ¬ p.data.content.length < AnyAdapter.u8.size := by
            rw [hlen]
            exact Nat.not_lt.mpr (Nat.le_add_left 1 _)
          rw [AnyAdapter.short_header hstate hthere, hheader, hlen]
          exact Iff.rfl
        rw [hread]
        dsimp only
        rcases drainTo_cases hidx hdata byte.toNat with
          ⟨hle, head, tail, hdrain, -⟩ | ⟨hlt, hdrain⟩
        · rw [hdrain]
          refine .unasked (fun q hq => by cases hq) fun chunk => ?_
          rw [hshort]
          omega
        · rw [hdrain]
          refine (pollMore_outcome { p with state := .more byte.toNat, data } byte.toNat
            hidx).congr fun chunk => ?_
          dsimp only
          rw [hshort, hdata]
          omega

theorem Adapter.poll_outcome (target : Endian) (a : Adapter) {p : Prefix S} (h : p.Held) :
    Outcome ((AnyAdapter.fixed a).Short p) p.stream (a.poll target p) := by
  rw [a.poll_eq]
  cases hstate : p.state with
  | more n =>
      have hpoll : p.pollWith a.size (readFixed a.size a.order target) = .ok (p.pollMore n) := by
        rw [Prefix.pollWith, hstate]
      rw [hpoll]
      exact (pollMore_outcome p n (h n hstate)).congr fun _ => (AnyAdapter.short_more hstate).symm
  | done =>
      have hpoll : p.pollWith a.size (readFixed a.size a.order target) =
          .ok (.ok (.ready none), p) := by
        rw [Prefix.pollWith, hstate]
      rw [hpoll]
      exact .unasked (fun q hq => by cases hq) fun _ => AnyAdapter.not_short_done hstate
  | pending =>
      rw [Prefix.pollWith, hstate, ByteBuf.len_eq]
      dsimp only
      by_cases hlen : p.data.content.length < a.size
      · rw [if_pos hlen]
        exact (pollPending_outcome a.size_cases a.order target p).congr fun _ =>
          (AnyAdapter.short_missing (f := .fixed a) hstate hlen).symm
      · obtain ⟨body, hread, hbody, hidx⟩ :=
          @readFixed_header _ a.order target a.size_cases _ hlen
        have hshort : ∀ chunk, (AnyAdapter.fixed a).Short p chunk ↔
            p.data.content.length < Decoder.header a.size a.order p.data.content ∧
              p.data.content.length - a.size + chunk.content.length <
                Decoder.header a.size a.order p.data.content :=
          fun _ => AnyAdapter.short_header (f := .fixed a) hstate hlen
        rw [if_neg hlen, hread]
        dsimp only
        by_cases hle : Decoder.header a.size a.order p.data.content ≤ p.data.content.length
        · rw [if_pos hle]
          refine .unasked (fun q hq => ?_) fun chunk => ?_
          · split at hq
            · cases hq
            · cases hq
          · rw [hshort]
            omega
        · rw [if_neg hle]
          refine (pollMore_outcome { p with
            state := .more (Decoder.header a.size a.order p.data.content), data := body }
            (Decoder.header a.size a.order p.data.content) hidx).congr fun chunk => ?_
          dsimp only
          rw [hshort, hbody, List.length_drop]
          omega

theorem U8Prefix.pollPending_held {p : Prefix S} (h : p.state = .pending) :
    (U8Prefix.pollPending p).2.Held := by
  rw [U8Prefix.pollPending]
  split
  · exact Prefix.held_of_pending h
  · exact Prefix.held_of_pending h
  · rename_i pulled stream hpoll
    rcases u8.read_cases pulled with
      ⟨hnil, data, hread, -⟩ | ⟨byte, bytes, hcontent, data, hread, hdata, hidx⟩
    · rw [hread]
      exact Prefix.held_of_pending h
    · rw [hread]
      dsimp only
      split
      · exact Prefix.held_of_pending h
      · exact fun _ _ => hidx
  · intro n hn
    cases hn

theorem U8Prefix.poll_held {p : Prefix S} (h : p.Held) : (U8Prefix.poll p).2.Held := by
  cases hstate : p.state with
  | more n =>
      have hpoll : U8Prefix.poll p = p.pollMore n := by rw [U8Prefix.poll, hstate]
      rw [hpoll]
      exact Prefix.pollMore_held p n (h n hstate)
  | done =>
      have hpoll : U8Prefix.poll p = (.ok (.ready none), p) := by rw [U8Prefix.poll, hstate]
      rw [hpoll]
      exact h
  | pending =>
      rw [U8Prefix.poll, hstate]
      dsimp only
      rcases u8.read_cases p.data with
        ⟨hnil, data, hread, -⟩ | ⟨byte, bytes, hcontent, data, hread, hdata, hidx⟩
      · rw [hread]
        exact U8Prefix.pollPending_held rfl
      · rw [hread]
        dsimp only
        split
        · exact Prefix.held_of_pending rfl
        · exact Prefix.pollMore_held _ _ hidx

namespace AnyAdapter

variable {f : AnyAdapter} {target : Endian} {p : Prefix S}

theorem poll_outcome (h : p.Held) : Outcome (f.Short p) p.stream (f.poll target p) := by
  cases f with
  | u8 => exact U8Prefix.poll_outcome h
  | fixed a => exact a.poll_outcome target h

theorem poll_held {q : Prefix S} {r : Poll (Option ByteBuf)} (h : p.Held)
    (hpoll : f.poll target p = .ok (r, q)) : q.Held := by
  cases f with
  | u8 =>
      have hq := U8Prefix.poll_held h
      rwa [Except.ok.inj hpoll] at hq
  | fixed a => exact Prefix.pollWith_held a.size_cases h ((a.poll_eq target p).symm.trans hpoll)

theorem keepsAwake_iff_of_held (h : p.Held) :
    f.KeepsAwake target p ↔
      ∀ chunk, (Stream.poll p.stream).1 = .ok (.ready (some chunk)) → ¬ f.Short p chunk := by
  have hheld : p.watch.Held := h
  have houtcome : Outcome (f.Short p) p.watch.stream (f.poll target p.watch) :=
    poll_outcome hheld
  have hone : (Stream.poll p.watch.stream).2.answers.getLast? =
      some (Stream.poll p.stream).1 := List.getLast?_singleton
  rw [KeepsAwake]
  generalize f.poll target p.watch = r at houtcome
  cases houtcome with
  | asleep hasked hanswer =>
      have hanswer : (Stream.poll p.stream).1 = .ok .notReady := hanswer
      refine iff_of_true (fun q hq => ?_) fun chunk hchunk => ?_
      · cases hq
        rw [hasked, hone, hanswer]
      · cases hanswer.symm.trans hchunk
  | short hasked hanswer hshort =>
      have hanswer : (Stream.poll p.stream).1 = _ := hanswer
      refine iff_of_false (fun hall => ?_) fun hall => hall _ hanswer hshort
      have hlast := hall _ rfl
      rw [hasked, hone, hanswer] at hlast
      cases hlast
  | awake hready hwhole =>
      exact iff_of_true (fun q hq => absurd hq (hready q)) hwhole

end AnyAdapter

/-- What the owner of an adapter does: polls it, or changes its inner stream through `get_mut`. -/
inductive AdapterCall (S : Type) where
  | poll
  | getMut (stream : S)

def adapterMachine (f : AnyAdapter) (target : Endian) :
    Base.Machine (Prefix S) (AdapterCall S) (Option (Poll (Option ByteBuf))) Fault where
  step p
    | .poll => some ((f.poll target p).map fun r => (some r.1, r.2))
    | .getMut stream => some (.ok (none, { p with stream }))

variable {f : AnyAdapter} {target : Endian} {s : S} {p : Prefix S}
  {log : List (Option (Poll (Option ByteBuf)))}

theorem held_of_run {ok : Prefix S → AdapterCall S → Prop}
    (h : (adapterMachine f target).Run ok (Prefix.new s) log p) : p.Held := by
  refine h.invariant (I := fun _ p => p.Held) (Prefix.held_of_pending rfl) ?_
  intro log p c e q hp _ hstep
  cases c with
  | poll =>
      obtain ⟨⟨r, q'⟩, hpoll, heq⟩ := ok_of_map_ok (Option.some.inj hstep)
      cases heq
      exact AnyAdapter.poll_held hp hpoll
  | getMut stream =>
      cases hstep
      exact hp

/-- An adapter sleeps on what its inner stream still has just after a chunk that does not complete
a frame. -/
theorem keepsAwake_iff (h : (adapterMachine f target).Run (fun _ _ => True) (Prefix.new s) log p) :
    f.KeepsAwake target p ↔
      ∀ chunk, (Stream.poll p.stream).1 = .ok (.ready (some chunk)) → ¬ f.Short p chunk :=
  AnyAdapter.keepsAwake_iff_of_held (held_of_run h)

end

theorem keepsAwake_iff_of_frame :
    AnyAdapter.u8.KeepsAwake .little
      (Prefix.new (Script.mk [.ok (.ready (ByteBuf.ofVec 0 [1, 7] []))])) := by
  refine (keepsAwake_iff .nil).mpr fun chunk hchunk => ?_
  cases hchunk
  rw [AnyAdapter.short_missing rfl (by decide)]
  decide

/-- The payload comes in a second chunk, and nobody asks for it. -/
theorem sleeps_after_header :
    ¬ ∀ (f : AnyAdapter) (target : Endian) (s : Script)
        (log : List (Option (Poll (Option ByteBuf)))) (p : Prefix Script),
      (adapterMachine f target).Run (fun _ _ => True) (Prefix.new s) log p →
        f.KeepsAwake target p := by
  intro h
  have hlast := h .u8 .little ⟨(twoChunks [1] [7]).map .ok⟩ [] _ .nil _ rfl
  cases hlast

end Ruyi.Proto
