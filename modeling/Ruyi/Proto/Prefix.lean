import Ruyi.Outcome
import Ruyi.Buf.FixedWidth

namespace Ruyi.Proto

open Ruyi.Buf

/-- `futures::Stream` with `ByteBuf` items and `io::Error` errors. -/
class Stream (S : Type) where
  poll : S → Poll (Option ByteBuf) × S

/-- `proto::*_prefix::State`. -/
inductive State where
  | more (n : Nat)
  | pending
  | done
  deriving DecidableEq, Repr

/-- A framing adapter over an inner stream: `U16bePrefix`, `U16lePrefix`,
`U32bePrefix` or `U32lePrefix`. -/
structure Prefix (S : Type) where
  stream : S
  state : State
  data : ByteBuf

namespace Prefix

variable {S : Type}

def new (stream : S) : Prefix S where
  stream := stream
  state := .pending
  data := ByteBuf.new

/-- While a payload is being collected there is a block to read on from; without
one `drain_to` would refuse every position. -/
def Held (p : Prefix S) : Prop := ∀ n, p.state = .more n → p.data.idx < p.data.blocks.length

theorem held_of_pending {p : Prefix S} (h : p.state = .pending) : p.Held := by
  intro n hn
  cases h.symm.trans hn

variable [Stream S]

def pollMore (self : Prefix S) (n : Nat) : Poll (Option ByteBuf) × Prefix S :=
  match Stream.poll self.stream with
  | (.error e, stream) => (.error e, { self with stream })
  | (.ok .notReady, stream) => (.ok .notReady, { self with stream })
  | (.ok (.ready (some pulled)), stream) =>
      let data := self.data.extend pulled
      match data.drainTo n with
      | .ok (t, data) => (.ok (.ready (some t)), { stream, state := .pending, data })
      | .error _ => (.ok .notReady, { self with stream, data })
  | (.ok (.ready none), stream) => (.ok (.ready none), { self with stream, state := .done })

/-- `poll_pending` of the adapter whose header of `size` bytes is read by `read`.
What `self.data` still held is replaced by the pulled chunk. -/
def pollPending (size : Nat) (read : ByteBuf → Except Error Nat × ByteBuf) (self : Prefix S) :
    Except Fault (Poll (Option ByteBuf) × Prefix S) :=
  match Stream.poll self.stream with
  | (.error e, stream) => .ok (.error e, { self with stream })
  | (.ok .notReady, stream) => .ok (.ok .notReady, { self with stream })
  | (.ok (.ready (some pulled)), stream) =>
      let len := pulled.len
      if len < size then
        .ok (.ok .notReady, { self with stream, data := pulled })
      else
        match read pulled with
        | (.ok n, data) =>
            -- `len` was taken before the header was read
            if n ≤ len then
              match data.drainTo n with
              | .ok (t, data) => .ok (.ok (.ready (some t)), { self with stream, data })
              | .error _ => .error .unreachable
            else
              .ok (.ok .notReady, { stream, state := .more n, data })
        | (.error _, _) => .error .unreachable
  | (.ok (.ready none), stream) =>
      .ok (.ok (.ready none), { self with stream, state := .done })

/-- `Stream::poll` of the adapter whose header of `size` bytes is read by `read`. -/
def pollWith (size : Nat) (read : ByteBuf → Except Error Nat × ByteBuf) (self : Prefix S) :
    Except Fault (Poll (Option ByteBuf) × Prefix S) :=
  match self.state with
  | .pending =>
      let len := self.data.len
      if len < size then
        pollPending size read self
      else
        match read self.data with
        | (.ok n, data) =>
            if n ≤ len then
              match data.drainTo n with
              | .ok (t, data) => .ok (.ok (.ready (some t)), { self with data })
              | .error _ => .error .unreachable
            else
              .ok (pollMore { self with state := .more n, data } n)
        | (.error _, _) => .error .unreachable
  | .more n => .ok (pollMore self n)
  | .done => .ok (.ok (.ready none), self)

theorem pollMore_held (p : Prefix S) (n : Nat) (hidx : p.data.idx < p.data.blocks.length) :
    (p.pollMore n).2.Held := by
  rw [pollMore]
  split
  · exact fun _ _ => hidx
  · exact fun _ _ => hidx
  · dsimp only
    split
    · exact held_of_pending rfl
    · intro m _
      simp only [ByteBuf.extend, List.length_append]
      exact Nat.lt_add_right _ hidx
  · exact fun _ _ => hidx

variable {size : Nat} {order target : Endian} {p q : Prefix S} {r : Poll (Option ByteBuf)}

theorem pollPending_held (hsize : size = 2 ∨ size = 4 ∨ size = 8) (hstate : p.state = .pending)
    (h : p.pollPending size (readFixed size order target) = .ok (r, q)) : q.Held := by
  rw [pollPending] at h
  split at h
  · cases h
    exact held_of_pending hstate
  · cases h
    exact held_of_pending hstate
  · rename_i pulled stream hpoll
    dsimp only at h
    split at h
    · cases h
      exact held_of_pending hstate
    · rename_i hlen
      rw [ByteBuf.len_eq] at hlen
      obtain ⟨body, hread, -, hidx⟩ :=
        @readFixed_ok size order target _ hsize (Nat.le_of_not_lt hlen)
      rw [hread] at h
      dsimp only at h
      split at h
      · split at h
        · cases h
          exact held_of_pending hstate
        · cases h
      · cases h
        exact fun _ _ => hidx
  · cases h
    intro n hn
    cases hn

theorem pollWith_held (hsize : size = 2 ∨ size = 4 ∨ size = 8) (hheld : p.Held)
    (h : p.pollWith size (readFixed size order target) = .ok (r, q)) : q.Held := by
  rw [pollWith] at h
  split at h
  · rename_i hstate
    dsimp only at h
    split at h
    · exact pollPending_held hsize hstate h
    · rename_i hlen
      rw [ByteBuf.len_eq] at hlen
      obtain ⟨body, hread, -, hidx⟩ :=
        @readFixed_ok size order target _ hsize (Nat.le_of_not_lt hlen)
      rw [hread] at h
      dsimp only at h
      split at h
      · split at h
        · cases h
          exact held_of_pending hstate
        · cases h
      · have hmore := pollMore_held { p with
          state := .more (valueOf order (p.data.content.take size)), data := body }
          (valueOf order (p.data.content.take size)) hidx
        rw [Except.ok.inj h] at hmore
        exact hmore
  · rename_i n hstate
    have hmore := pollMore_held p n (hheld n hstate)
    rw [Except.ok.inj h] at hmore
    exact hmore
  · cases h
    exact hheld

end Prefix

variable {S : Type} [Stream S]

def U16bePrefix.poll (target : Endian) (self : Prefix S) :
    Except Fault (Poll (Option ByteBuf) × Prefix S) :=
  self.pollWith 2 (u16be.read target)

def U16lePrefix.poll (target : Endian) (self : Prefix S) :
    Except Fault (Poll (Option ByteBuf) × Prefix S) :=
  self.pollWith 2 (u16le.read target)

def U32bePrefix.poll (target : Endian) (self : Prefix S) :
    Except Fault (Poll (Option ByteBuf) × Prefix S) :=
  self.pollWith 4 (u32be.read target)

def U32lePrefix.poll (target : Endian) (self : Prefix S) :
    Except Fault (Poll (Option ByteBuf) × Prefix S) :=
  self.pollWith 4 (u32le.read target)

/-- The adapters with a header of more than one byte. -/
inductive Adapter where
  | u16be
  | u16le
  | u32be
  | u32le
  deriving DecidableEq, Repr

namespace Adapter

def size : Adapter → Nat
  | u16be | u16le => 2
  | u32be | u32le => 4

def order : Adapter → Endian
  | u16be | u32be => .big
  | u16le | u32le => .little

def poll (target : Endian) : Adapter → Prefix S → Except Fault (Poll (Option ByteBuf) × Prefix S)
  | u16be => U16bePrefix.poll target
  | u16le => U16lePrefix.poll target
  | u32be => U32bePrefix.poll target
  | u32le => U32lePrefix.poll target

theorem poll_eq (target : Endian) (a : Adapter) (self : Prefix S) :
    a.poll target self = self.pollWith a.size (readFixed a.size a.order target) := by
  cases a <;> rfl

theorem size_cases (a : Adapter) : a.size = 2 ∨ a.size = 4 ∨ a.size = 8 := by
  cases a <;> simp [size]

theorem size_pos (a : Adapter) : 0 < a.size := by
  have := a.size_cases
  omega

end Adapter

end Ruyi.Proto
