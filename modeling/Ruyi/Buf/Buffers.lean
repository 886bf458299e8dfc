import Ruyi.Base.Machine
import Ruyi.Buf.Prepending
import Ruyi.Buf.SetIter
import Ruyi.Outcome

namespace Ruyi.Buf

/-- The constructors. -/
inductive Making where
  | new
  | withCapacity (capacity : Nat)
  | withGrowth (growth : Nat)
  | ofVec (bytes spare : List UInt8)

inductive Reading where
  | value (codec : Codec)
  | u8s
  | u8sExact (n : Nat)
  | reader (n : Nat)
  | next

inductive Setting where
  | value (codec : Codec) (v : Nat)
  | u8s (v : List UInt8)
  | u8sFill (val : UInt8) (count : Nat)

/-- The calls that change one buffer; `fuel` is the number of turns after which a loop that has
not ended counts as endless. -/
inductive BufOp where
  | setGrowth (growth : Nat)
  | append (a : Appending) (fuel : Nat)
  | prepend (p : Prepending) (fuel : Nat)
  | read (r : Reading)
  | skip (n : Nat)
  | set (index : Nat) (s : Setting)
  | reserve (additional : Nat)
  | tryReserveInHead (len : Nat)
  | compact

/-- What a call returns. -/
inductive BufEvent where
  | done
  | count (n : Nat)
  | value (v : Nat)
  | bytes (bytes : List UInt8)
  | block (bytes : Option (List UInt8))
  | failed (e : Error)
  deriving DecidableEq

def Making.run (m : Making) (allocs : List Nat) : ByteBuf × List Nat :=
  match m with
  | new => (.new, allocs)
  | withCapacity capacity => ByteBuf.withCapacity allocs capacity
  | withGrowth growth => (.withGrowth growth, allocs)
  | ofVec bytes spare =>
      (.ofVec allocs.length bytes spare, allocs ++ [bytes.length + spare.length])

/-- What a call returns, with the buffer as it is after it. -/
def result {α : Type} (f : α → BufEvent) : Except Error α × ByteBuf → BufEvent × ByteBuf
  | (.ok a, buf) => (f a, buf)
  | (.error e, buf) => (.failed e, buf)

def Reading.run (r : Reading) (target : Endian) (buf : ByteBuf) : BufEvent × ByteBuf :=
  match r with
  | value codec => result .value (codec.read target buf)
  | u8s => result .bytes (u8s.read buf)
  | u8sExact n => result .bytes (u8s.readExact n buf)
  | reader n =>
      let r := Reader.read n buf
      (.bytes r.1, r.2)
  | next =>
      let r := Reader.next buf
      (.block (r.1.map Block.asBytes), r.2)

def Setting.run (s : Setting) (target : Endian) (index : Nat) (buf : ByteBuf) :
    Option (BufEvent × ByteBuf) :=
  match s with
  | value codec v => (codec.set target v index buf).map (result .count)
  | u8s v => (u8s.set v index buf).map (result .count)
  | u8sFill val count => (u8s.setFill val count index buf).map (result .count)

/-- A call on a buffer, when it returns. -/
def BufOp.run (op : BufOp) (target : Endian) (buf : ByteBuf) (allocs : List Nat) :
    Option (BufEvent × ByteBuf × List Nat) :=
  match op with
  | setGrowth growth => some (.done, buf.setGrowth growth, allocs)
  | append a fuel => (a.run target fuel buf allocs).map fun r => (.count r.1, r.2)
  | prepend p fuel => (p.run target fuel buf allocs).map fun r => (.count r.1, r.2)
  | read r =>
      let r := r.run target buf
      some (r.1, r.2, allocs)
  | skip n =>
      let r := buf.skip n
      some (.count r.1, r.2, allocs)
  | set index s => (s.run target index buf).map fun r => (r.1, r.2, allocs)
  | reserve additional => some (.done, buf.reserve allocs additional)
  | tryReserveInHead len =>
      let r := buf.tryReserveInHead len
      some (.count r.1, r.2, allocs)
  | compact => some (.done, buf.compact, allocs)

/-- The buffers there are, and the sizes of the allocations made for them. -/
structure Buffers where
  bufs : List ByteBuf
  allocs : List Nat

/-- The calls; a buffer is named by its place. -/
inductive BufAction where
  | make (m : Making)
  | drop (i : Nat)
  | call (i : Nat) (op : BufOp)
  | extend (i j : Nat)
  | splitOff (i pos : Nat)
  | drainTo (i pos : Nat)

namespace Buffers

def init : Buffers := ⟨[], []⟩

def step (target : Endian) (s : Buffers) :
    BufAction → Option (Except Fault (BufEvent × Buffers))
  | .make m =>
      let r := m.run s.allocs
      some (.ok (.done, ⟨s.bufs ++ [r.1], r.2⟩))
  | .drop i => if i < s.bufs.length then some (.ok (.done, { s with bufs := s.bufs.eraseIdx i }))
      else none
  | .call i op => do
      let buf ← s.bufs[i]?
      let (e, buf, allocs) ← op.run target buf s.allocs
      some (.ok (e, ⟨s.bufs.set i buf, allocs⟩))
  | .extend i j => do
      let buf ← s.bufs[i]?
      let other ← s.bufs[j]?
      -- the other buffer is gone after the call
      let rest := s.bufs.eraseIdx j
      let place := if j < i then i - 1 else i
      if i = j then none
      else some (.ok (.done, { s with bufs := rest.set place (buf.extend other) }))
  | .splitOff i pos => do
      let buf ← s.bufs[i]?
      match buf.splitOff pos with
      | .error e => some (.ok (.failed e, s))
      | .ok (buf, other) => some (.ok (.done, { s with bufs := s.bufs.set i buf ++ [other] }))
  | .drainTo i pos => do
      let buf ← s.bufs[i]?
      match buf.drainTo pos with
      | .error e => some (.ok (.failed e, s))
      | .ok (drained, buf) => some (.ok (.done, { s with bufs := s.bufs.set i buf ++ [drained] }))

end Buffers

def buffersMachine (target : Endian) : Base.Machine Buffers BufAction BufEvent Fault :=
  ⟨Buffers.step target⟩

/-- Bytes that are appended or prepended come into sight. -/
def BufOp.InSight (op : BufOp) (buf : ByteBuf) : Prop :=
  match op with
  | append a _ => a.InSight buf
  | prepend p _ => p.InSight buf
  | _ => True

instance (op : BufOp) (buf : ByteBuf) : Decidable (op.InSight buf) := by
  cases op <;> unfold BufOp.InSight <;> infer_instance

def BufAction.InSight (a : BufAction) (s : Buffers) : Prop :=
  match a with
  | call i op => ∀ buf ∈ s.bufs[i]?, op.InSight buf
  | _ => True

instance (a : BufAction) (s : Buffers) : Decidable (a.InSight s) := by
  cases a <;> unfold BufAction.InSight <;> infer_instance

end Ruyi.Buf
