import Ruyi.Base.Machine
import Ruyi.Buf.Appending
import Ruyi.Outcome

namespace Ruyi.Buf

namespace Block

/-- `set_write_pos`, with the bounds it asserts. -/
def setWritePos (b : Block) (pos : Nat) : Except Fault Block :=
  if h : b.readPos ≤ pos ∧ pos ≤ b.cap then
    .ok { b with writePos := pos, read_le := h.1, write_le := h.2 }
  else .error .panic

/-- `split_off`, with the bound it asserts. -/
def trySplitOff (b : Block) (pos : Nat) : Except Fault (Block × Block) :=
  if h : pos ≤ b.len then .ok (b.splitOff pos h) else .error .panic

/-- An empty block that begins with its region. -/
structure Fresh (b : Block) : Prop where
  readPos_eq : b.readPos = 0
  writePos_eq : b.writePos = 0
  cap_pos : 0 < b.cap

theorem fresh_withCapacity {shared capacity : Nat} (h : 0 < capacity) :
    (withCapacity shared capacity).Fresh := ⟨rfl, rfl, h⟩

theorem Fresh.copyTo {b : Block} (h : b.Fresh) (off : Nat) (bytes : List UInt8) :
    (b.copyTo off bytes).Fresh := ⟨h.readPos_eq, h.writePos_eq, h.cap_pos⟩

theorem Fresh.appendable_eq {b : Block} (h : b.Fresh) : b.appendable = b.cap := by
  rw [appendable, h.writePos_eq, Nat.sub_zero]

theorem mem_copyTo_zero (b : Block) (bytes : List UInt8) :
    (b.copyTo 0 bytes).mem = bytes.take b.cap ++ b.mem.drop bytes.length := by
  simp only [copyTo, overwrite, List.take_zero, List.nil_append, Nat.sub_zero, b.mem_length,
    Nat.zero_add]

theorem splitOff_received {b : Block} (h : b.Fresh) {bytes : List UInt8}
    (hle : bytes.length ≤ b.cap) :
    ∃ full head tail, (b.copyTo 0 bytes).setWritePos bytes.length = .ok full ∧
      full.trySplitOff bytes.length = .ok (head, tail) ∧ head.asBytes = bytes ∧
      head.mem = bytes ∧ head.region = ⟨b.shared, b.ptr, bytes.length⟩ ∧
      tail.region = ⟨b.shared, b.ptr + bytes.length, b.cap - bytes.length⟩ ∧
      tail.readPos = 0 ∧ tail.writePos = 0 := by
  have hread : b.readPos = 0 := h.readPos_eq
  have hbounds : (b.copyTo 0 bytes).readPos ≤ bytes.length ∧
      bytes.length ≤ (b.copyTo 0 bytes).cap := by
    simp only [copyTo, hread]
    exact ⟨Nat.zero_le _, hle⟩
  have hmem : ((b.copyTo 0 bytes).mem).take bytes.length = bytes := by
    rw [mem_copyTo_zero, List.take_of_length_le hle, List.take_left]
  let full : Block :=
    { b.copyTo 0 bytes with writePos := bytes.length, read_le := hbounds.1, write_le := hbounds.2 }
  have hlen : bytes.length ≤ full.len := by
    simp only [full, copyTo, len, hread, Nat.sub_zero, Nat.le_refl]
  have hoff : full.readPos + bytes.length = bytes.length := by
    simp only [full, copyTo, hread, Nat.zero_add]
  refine ⟨full, (full.splitOff bytes.length hlen).1, (full.splitOff bytes.length hlen).2,
    dif_pos hbounds, dif_pos hlen, ?_, ?_, ?_, ?_, rfl, ?_⟩
  · rw [asBytes_splitOff_fst, asBytes_eq]
    simp only [full, hmem]
    simp only [copyTo, hread, List.drop_zero, List.take_length]
  · simp only [splitOff, hoff]
    exact hmem
  · simp only [splitOff, region, hoff]
    rfl
  · simp only [splitOff, region, hoff]
    rfl
  · simp only [splitOff, hoff]
    exact Nat.sub_self _

theorem setWritePos_cap {b : Block} (h : b.Fresh) {bytes : List UInt8}
    (hle : b.cap ≤ bytes.length) :
    ∃ full, (b.copyTo 0 bytes).setWritePos b.cap = .ok full ∧
      full.asBytes = bytes.take b.cap ∧ full.mem = bytes.take b.cap ∧
      full.region = b.region := by
  have hread : b.readPos = 0 := h.readPos_eq
  have hmem : (b.copyTo 0 bytes).mem = bytes.take b.cap := by
    rw [mem_copyTo_zero, List.drop_of_length_le (by rwa [b.mem_length]), List.append_nil]
  have hbounds : (b.copyTo 0 bytes).readPos ≤ b.cap ∧ b.cap ≤ (b.copyTo 0 bytes).cap := by
    simp only [copyTo, hread]
    exact ⟨Nat.zero_le _, Nat.le_refl _⟩
  refine ⟨_, dif_pos hbounds, ?_, hmem, rfl⟩
  rw [asBytes_eq]
  simp only [hmem]
  simp only [copyTo, hread, List.drop_zero, List.take_take, Nat.min_self]

end Block

/-- `add_block`. -/
def ByteBuf.addBlock (buf : ByteBuf) (block : Block) : ByteBuf where
  blocks := buf.blocks ++ [block]
  idx := buf.idx
  growth := buf.growth
  idx_le := by
    have := buf.idx_le
    rw [List.length_append]
    omega

end Ruyi.Buf

namespace Ruyi.Sys

open Ruyi.Buf

/-- `BUF_SIZE`. -/
def bufSize : Nat := 128 * 1024

/-- The blocks that are read into, `block2` first when they are reversed. -/
structure Buffer where
  block1 : Block
  block2 : Block
  reverse : Bool

namespace Buffer

def new (allocs : List Nat) : Buffer × List Nat :=
  (⟨.withCapacity allocs.length bufSize, .withCapacity (allocs.length + 1) bufSize, false⟩,
    allocs ++ [bufSize] ++ [bufSize])

def first (self : Buffer) : Block := if self.reverse then self.block2 else self.block1

def second (self : Buffer) : Block := if self.reverse then self.block1 else self.block2

/-- The blocks after they were changed through the references to them. -/
def put (self : Buffer) (first second : Block) : Buffer :=
  if self.reverse then { self with block1 := second, block2 := first }
  else { self with block1 := first, block2 := second }

/-- A block with too little room for another read is given up for a new one. -/
def renew (block : Block) (allocs : List Nat) : Block × List Nat :=
  if block.appendable < 8 then (.withCapacity allocs.length bufSize, allocs ++ [bufSize])
  else (block, allocs)

/-- `readv` of a stream that gives this answer: an error, or the bytes it has put into the blocks
in order. -/
def readv (self : Buffer) (allocs : List Nat) (answer : Except IoError (List UInt8)) :
    Except Fault (Except IoError (Option (ByteBuf × Nat)) × Buffer × List Nat) :=
  match answer with
  | .error e => .ok (.error e, self, allocs)
  | .ok bytes =>
      let block1 := self.first.copyTo 0 bytes
      let block2 := self.second.copyTo 0 (bytes.drop block1.cap)
      let n := bytes.length
      if n = 0 then .ok (.ok none, self.put block1 block2, allocs)
      else if n ≤ block1.appendable then do
        let block1 ← block1.setWritePos n
        let (block, block1) ← block1.trySplitOff n
        let buf := ByteBuf.new.addBlock block
        let (block1, allocs) := renew block1 allocs
        .ok (.ok (some (buf, n)), self.put block1 block2, allocs)
      else do
        let len := n - block1.appendable
        let cap := block1.cap
        let block ← block1.setWritePos cap
        let (block1, allocs) :=
          (Block.withCapacity allocs.length bufSize, allocs ++ [bufSize])
        let buf := ByteBuf.new.addBlock block
        let block2 ← block2.setWritePos len
        let (block, block2) ← block2.trySplitOff len
        let buf := buf.addBlock block
        if block2.appendable < 8 then
          let (block2, allocs) :=
            (Block.withCapacity allocs.length bufSize, allocs ++ [bufSize])
          .ok (.ok (some (buf, n)), self.put block1 block2, allocs)
        else
          .ok (.ok (some (buf, n)),
            { self.put block1 block2 with reverse := !self.reverse }, allocs)

/-- The blocks are empty, and apart from each other and from the regions handed out. -/
structure Ready (buffer : Buffer) (allocs : List Nat) (handed : List Base.Region) : Prop where
  fresh1 : buffer.block1.Fresh
  fresh2 : buffer.block2.Fresh
  laid : Base.Laid allocs (buffer.block1.region :: buffer.block2.region :: handed)

section

variable {self : Buffer} {allocs allocs' : List Nat} {handed : List Base.Region}
  {first second : Block} {bytes : List UInt8}

theorem ready_new (allocs : List Nat) (h : Base.Laid allocs handed) :
    (new allocs).1.Ready (new allocs).2 handed := by
  have hpos : 0 < bufSize := by decide
  refine ⟨Block.fresh_withCapacity hpos, Block.fresh_withCapacity hpos, ?_⟩
  have hboth := (h.alloc bufSize).alloc bufSize
  rw [List.length_append, List.length_singleton] at hboth
  exact hboth.perm (.swap _ _ _)

theorem Ready.first_fresh (h : self.Ready allocs handed) : self.first.Fresh := by
  rw [Buffer.first]
  split
  · exact h.fresh2
  · exact h.fresh1

theorem Ready.second_fresh (h : self.Ready allocs handed) : self.second.Fresh := by
  rw [Buffer.second]
  split
  · exact h.fresh1
  · exact h.fresh2

theorem Ready.first_laid (h : self.Ready allocs handed) :
    Base.Laid allocs (self.first.region :: self.second.region :: handed) := by
  rw [Buffer.first, Buffer.second]
  split
  · exact h.laid.perm (.swap _ _ _)
  · exact h.laid

theorem ready_put (hfirst : first.Fresh) (hsecond : second.Fresh)
    (hlaid : Base.Laid allocs (first.region :: second.region :: handed)) (reverse : Bool) :
    Ready { self.put first second with reverse } allocs handed := by
  rw [put]
  split
  · exact ⟨hsecond, hfirst, hlaid.perm (.swap _ _ _)⟩
  · exact ⟨hfirst, hsecond, hlaid⟩

theorem put_reverse (self : Buffer) (first second : Block) :
    { self.put first second with reverse := self.reverse } = self.put first second := by
  rw [put]
  split <;> rfl

theorem renew_ok {block : Block} (hread : block.readPos = 0) (hwrite : block.writePos = 0)
    (hlaid : Base.Laid allocs (block.region :: handed)) :
    (renew block allocs).1.Fresh ∧
      Base.Laid (renew block allocs).2 ((renew block allocs).1.region :: handed) := by
  rw [renew]
  split
  · have hnew := hlaid.alloc bufSize
    refine ⟨Block.fresh_withCapacity (by decide), hnew.sublist ?_⟩
    exact (List.sublist_cons_self _ _).cons_cons _
  · rename_i hroom
    have hcap : block.appendable = block.cap := by rw [Block.appendable, hwrite, Nat.sub_zero]
    have hpos : 0 < block.cap := by omega
    exact ⟨⟨hread, hwrite, hpos⟩, hlaid⟩

theorem laid_cut {block head tail : Block} {n : Nat} (hn : n ≤ block.cap)
    (hhead : head.region = ⟨block.shared, block.ptr, n⟩)
    (htail : tail.region = ⟨block.shared, block.ptr + n, block.cap - n⟩)
    (hlaid : Base.Laid allocs (block.region :: handed)) :
    Base.Laid allocs (head.region :: tail.region :: handed) := by
  rw [hhead, htail]
  refine hlaid.split ⟨rfl, Nat.le_refl _, ?_⟩ ⟨rfl, Nat.le_add_right _ _, ?_⟩ (Nat.le_refl _)
  · exact Nat.add_le_add_left hn _
  · show block.ptr + n + (block.cap - n) ≤ block.ptr + block.cap
    omega

/-- What the memory holds after a read has put these bytes into the blocks. -/
def received (memory : Base.Memory UInt8) (first second : Block) (bytes : List UInt8) :
    Base.Memory UInt8 :=
  (memory.store first.region (bytes.take first.cap)).store second.region (bytes.drop first.cap)

theorem Ready.holds_received {memory : Base.Memory UInt8} (h : self.Ready allocs handed)
    (hfits : bytes.length ≤ self.first.cap + self.second.cap) {r : Base.Region}
    (hr : r ∈ handed) {cells : List UInt8} (hholds : memory.Holds r cells) :
    (received memory self.first self.second bytes).Holds r cells := by
  obtain ⟨hfirst, hrest⟩ := List.pairwise_cons.mp h.first_laid.apart
  obtain ⟨hsecond, -⟩ := List.pairwise_cons.mp hrest
  refine (hholds.store (hfirst r (List.mem_cons_of_mem _ hr)) ?_).store (hsecond r hr) ?_
  · exact List.length_take_le _ _
  · rw [List.length_drop]
    show _ ≤ self.second.cap
    omega

theorem Ready.holds_bytes (h : self.Ready allocs handed)
    (hfits : bytes.length ≤ self.first.cap + self.second.cap) (memory : Base.Memory UInt8) :
    (received memory self.first self.second bytes).Holds self.first.region
        (bytes.take self.first.cap) ∧
      (received memory self.first self.second bytes).Holds self.second.region
        (bytes.drop self.first.cap) := by
  have hsize : (bytes.drop self.first.cap).length ≤ self.second.region.size := by
    rw [List.length_drop]
    show _ ≤ self.second.cap
    omega
  have happart := (List.pairwise_cons.mp h.first_laid.apart).1 _ (.head _)
  have hfirst : (memory.store self.first.region (bytes.take self.first.cap)).Holds
      self.first.region (bytes.take self.first.cap) :=
    memory.holds_store (List.length_take_le _ _)
  exact ⟨hfirst.store happart.symm hsize, Base.Memory.holds_store _ hsize⟩

/-- What a read that got `bytes` is to come to: they are handed out, and the blocks are ready for
the next read. -/
structure Receives (buffer : Buffer) (handed : List Base.Region) (memory : Base.Memory UInt8)
    (bytes : List UInt8) (buf : ByteBuf) (next : Buffer) (allocs' : List Nat) : Prop where
  content_eq : buf.content = bytes
  ready : next.Ready allocs' (buf.regions ++ handed)
  holds : ∀ b ∈ buf.blocks,
    (received memory buffer.first buffer.second bytes).Holds b.region b.mem

theorem readv_first (h : self.Ready allocs handed) (hne : bytes ≠ [])
    (hle : bytes.length ≤ self.first.cap) (memory : Base.Memory UInt8) :
    ∃ buf next allocs', self.readv allocs (.ok bytes) =
        .ok (.ok (some (buf, bytes.length)), next, allocs') ∧
      self.Receives handed memory bytes buf next allocs' := by
  have hfresh := h.first_fresh
  obtain ⟨full, head, tail, hset, hsplit, hbytes, hmem, hhead, htail, hread, hwrite⟩ :=
    Block.splitOff_received hfresh hle
  have hroom : bytes.length ≤ (self.first.copyTo 0 bytes).appendable := by
    rw [(hfresh.copyTo 0 bytes).appendable_eq]
    exact hle
  have hlen : bytes.length ≠ 0 := mt List.length_eq_zero_iff.mp hne
  have hcut := laid_cut hle hhead htail h.first_laid
  obtain ⟨hfresh', hlaid'⟩ := renew_ok hread hwrite (hcut.perm (.swap _ _ _))
  refine ⟨.addBlock .new head, self.put (renew tail allocs).1
    (self.second.copyTo 0 (bytes.drop self.first.cap)), (renew tail allocs).2, ?_, ?_, ?_, ?_⟩
  · simp only [readv]
    rw [if_neg hlen, if_pos hroom, hset]
    simp only [bind, Except.bind]
    rw [hsplit]
    rfl
  · exact (List.append_nil _).trans hbytes
  · rw [← put_reverse]
    exact ready_put hfresh' (h.second_fresh.copyTo 0 _)
      (hlaid'.perm ((List.Perm.swap _ _ _).cons _)) _
  · intro b hb
    rw [List.mem_singleton.mp hb, hmem, hhead]
    have hholds := (h.holds_bytes (Nat.le_trans hle (Nat.le_add_right _ _)) memory).1
    rw [List.take_of_length_le hle] at hholds
    exact hholds.cut

theorem readv_second_eq {block full head tail : Block} (hfresh : self.first.Fresh)
    (hlt : self.first.cap < bytes.length)
    (hblock : (self.first.copyTo 0 bytes).setWritePos self.first.cap = .ok block)
    (hset : (self.second.copyTo 0 (bytes.drop self.first.cap)).setWritePos
      (bytes.drop self.first.cap).length = .ok full)
    (hsplit : full.trySplitOff (bytes.drop self.first.cap).length = .ok (head, tail)) :
    ∃ reverse, self.readv allocs (.ok bytes) =
      .ok (.ok (some ((ByteBuf.new.addBlock block).addBlock head, bytes.length)),
        { self.put (.withCapacity allocs.length bufSize) (renew tail (allocs ++ [bufSize])).1 with
          reverse }, (renew tail (allocs ++ [bufSize])).2) := by
  have hroom : ¬ bytes.length ≤ (self.first.copyTo 0 bytes).appendable := by
    rw [(hfresh.copyTo 0 bytes).appendable_eq]
    exact Nat.not_le.mpr hlt
  have hcount : bytes.length - (self.first.copyTo 0 bytes).appendable =
      (bytes.drop self.first.cap).length := by
    rw [(hfresh.copyTo 0 bytes).appendable_eq, List.length_drop]
    rfl
  have hlen : bytes.length ≠ 0 := Nat.ne_of_gt (Nat.zero_lt_of_lt hlt)
  simp only [readv]
  rw [if_neg hlen, if_neg hroom]
  simp only [bind, Except.bind]
  rw [show (self.first.copyTo 0 bytes).cap = self.first.cap from rfl, hblock]
  dsimp only
  rw [hcount, hset]
  dsimp only
  rw [hsplit]
  by_cases hsmall : tail.appendable < 8
  · refine ⟨self.reverse, ?_⟩
    rw [put_reverse, renew, if_pos hsmall]
    exact if_pos hsmall
  · refine ⟨!self.reverse, ?_⟩
    rw [renew, if_neg hsmall]
    exact if_neg hsmall

theorem readv_second (h : self.Ready allocs handed) (hlt : self.first.cap < bytes.length)
    (hfits : bytes.length ≤ self.first.cap + self.second.cap) (memory : Base.Memory UInt8) :
    ∃ buf next allocs', self.readv allocs (.ok bytes) =
        .ok (.ok (some (buf, bytes.length)), next, allocs') ∧
      self.Receives handed memory bytes buf next allocs' := by
  have hle : (bytes.drop self.first.cap).length ≤ self.second.cap := by
    rw [List.length_drop]
    omega
  obtain ⟨block, hblock, hblockBytes, hblockMem, hblockRegion⟩ :=
    Block.setWritePos_cap h.first_fresh (Nat.le_of_lt hlt)
  obtain ⟨full, head, tail, hset, hsplit, hbytes, hmem, hhead, htail, hread, hwrite⟩ :=
    Block.splitOff_received h.second_fresh hle
  let fresh : Block := .withCapacity allocs.length bufSize
  have hnew : Base.Laid (allocs ++ [bufSize])
      (self.second.region :: self.first.region :: fresh.region :: handed) :=
    (h.first_laid.alloc bufSize).perm
      ((List.reverse_perm
        [fresh.region, self.first.region, self.second.region]).symm.append_right _)
  have hcut : Base.Laid (allocs ++ [bufSize])
      (tail.region :: self.first.region :: head.region :: fresh.region :: handed) :=
    (laid_cut hle hhead htail hnew).perm ((@List.perm_append_comm _ [_] [_, _]).append_right _)
  obtain ⟨hfresh', hlaid'⟩ := renew_ok hread hwrite hcut
  obtain ⟨reverse, hreadv⟩ := readv_second_eq h.first_fresh hlt hblock hset hsplit
  refine ⟨_, _, _, hreadv, ?_, ?_, ?_⟩
  · show bytesOf [block, head] = bytes
    rw [bytesOf_cons, bytesOf_cons, bytesOf_nil, List.append_nil, hblockBytes, hbytes,
      List.take_append_drop]
  · refine ready_put (Block.fresh_withCapacity (by decide)) hfresh' ?_ reverse
    show Base.Laid _ (fresh.region :: _ :: block.region :: head.region :: handed)
    rw [hblockRegion]
    exact hlaid'.perm ((@List.perm_append_comm _ [_, _, _] [_]).append_right _)
  · obtain ⟨hfirst, hsecond⟩ := h.holds_bytes hfits memory
    intro b hb
    rcases List.mem_cons.mp hb with rfl | hb
    · rw [hblockRegion, hblockMem]
      exact hfirst
    · rw [List.mem_singleton.mp hb, hmem, hhead]
      exact hsecond.cut

theorem readv_ok (h : self.Ready allocs handed) (hne : bytes ≠ [])
    (hfits : bytes.length ≤ self.first.cap + self.second.cap) (memory : Base.Memory UInt8) :
    ∃ buf next allocs', self.readv allocs (.ok bytes) =
        .ok (.ok (some (buf, bytes.length)), next, allocs') ∧
      self.Receives handed memory bytes buf next allocs' := by
  rcases Nat.lt_or_ge self.first.cap bytes.length with hlt | hle
  · exact readv_second h hlt hfits memory
  · exact readv_first h hne hle memory

theorem readv_nil (h : self.Ready allocs handed) :
    ∃ next, self.readv allocs (.ok []) = .ok (.ok none, next, allocs) ∧
      next.Ready allocs handed := by
  refine ⟨_, rfl, ?_⟩
  rw [← put_reverse]
  exact ready_put (h.first_fresh.copyTo 0 _) (h.second_fresh.copyTo 0 _) h.first_laid _

end

end Buffer

/-- The buffer between two reads.  `memory` is what the allocations hold; the code does not keep
it. -/
structure Receiver where
  buffer : Buffer
  allocs : List Nat
  memory : Base.Memory UInt8

namespace Receiver

def init (allocs : List Nat) (memory : Base.Memory UInt8) : Receiver :=
  let r := Buffer.new allocs
  ⟨r.1, r.2, memory⟩

/-- What the memory holds after the stream has given this answer. -/
def written (s : Receiver) : Except IoError (List UInt8) → Base.Memory UInt8
  | .ok bytes => Buffer.received s.memory s.buffer.first s.buffer.second bytes
  | .error _ => s.memory

end Receiver

abbrev ReadEvent := Except IoError (Option (ByteBuf × Nat))

def receiverMachine : Base.Machine Receiver (Except IoError (List UInt8)) ReadEvent Fault where
  step s answer := some ((s.buffer.readv s.allocs answer).map fun r =>
    (r.1, ⟨r.2.1, r.2.2, s.written answer⟩))

/-- The stream writes into the blocks only. -/
def Fits (s : Receiver) (answer : Except IoError (List UInt8)) : Prop :=
  ∀ bytes, answer = .ok bytes → bytes.length ≤ s.buffer.first.cap + s.buffer.second.cap

/-- The buffers that the reads returned. -/
def handedOut (log : List ReadEvent) : List ByteBuf :=
  log.flatMap fun
    | .ok (some r) => [r.1]
    | _ => []

theorem handedOut_concat_some (log : List ReadEvent) (buf : ByteBuf) (n : Nat) :
    handedOut (log ++ [.ok (some (buf, n))]) = handedOut log ++ [buf] := by
  rw [handedOut, List.flatMap_append]
  rfl

theorem handedOut_concat_none (log : List ReadEvent) :
    handedOut (log ++ [.ok none]) = handedOut log := by
  rw [handedOut, List.flatMap_append]
  exact List.append_nil _

theorem handedOut_concat_error (log : List ReadEvent) (e : IoError) :
    handedOut (log ++ [.error e]) = handedOut log := by
  rw [handedOut, List.flatMap_append]
  exact List.append_nil _

/-- What was handed out lies apart from what is read into, and is still there. -/
structure Kept (log : List ReadEvent) (s : Receiver) : Prop where
  ready : s.buffer.Ready s.allocs ((handedOut log).flatMap ByteBuf.regions)
  holds : ∀ buf ∈ handedOut log, ∀ b ∈ buf.blocks, s.memory.Holds b.region b.mem

section

variable {log : List ReadEvent} {s t : Receiver} {bytes : List UInt8}

theorem Kept.holds_written (h : Kept log s)
    (hfits : bytes.length ≤ s.buffer.first.cap + s.buffer.second.cap) :
    ∀ buf ∈ handedOut log, ∀ b ∈ buf.blocks, (s.written (.ok bytes)).Holds b.region b.mem := by
  intro buf hbuf b hb
  refine h.ready.holds_received hfits ?_ (h.holds buf hbuf b hb)
  exact List.mem_flatMap.mpr ⟨buf, hbuf, List.mem_map_of_mem hb⟩

theorem Kept.read (h : Kept log s) (hne : bytes ≠ [])
    (hfits : bytes.length ≤ s.buffer.first.cap + s.buffer.second.cap) :
    ∃ buf t, receiverMachine.step s (.ok bytes) =
        some (.ok (.ok (some (buf, bytes.length)), t)) ∧
      buf.content = bytes ∧ Kept (log ++ [.ok (some (buf, bytes.length))]) t := by
  obtain ⟨buf, next, allocs, hreadv, hreceives⟩ := Buffer.readv_ok h.ready hne hfits s.memory
  refine ⟨buf, ⟨next, allocs, s.written (.ok bytes)⟩, ?_, hreceives.content_eq, ?_, ?_⟩
  · simp only [receiverMachine, hreadv, Except.map]
  · obtain ⟨hfresh1, hfresh2, hlaid⟩ := hreceives.ready
    refine ⟨hfresh1, hfresh2, hlaid.perm ?_⟩
    rw [handedOut_concat_some, List.flatMap_append, List.flatMap_singleton]
    exact (List.perm_append_comm.cons _).cons _
  · intro other hother b hb
    rw [handedOut_concat_some] at hother
    rcases List.mem_append.mp hother with hother | hother
    · exact h.holds_written hfits other hother b hb
    · rw [List.mem_singleton.mp hother] at hb
      exact hreceives.holds b hb

theorem Kept.ended (h : Kept log s) :
    ∃ t, receiverMachine.step s (.ok []) = some (.ok (.ok none, t)) ∧
      Kept (log ++ [.ok none]) t := by
  obtain ⟨next, hreadv, hready⟩ := Buffer.readv_nil h.ready
  refine ⟨⟨next, s.allocs, s.written (.ok [])⟩, ?_, ?_, ?_⟩
  · simp only [receiverMachine, hreadv, Except.map]
  · rw [handedOut_concat_none]
    exact hready
  · rw [handedOut_concat_none]
    exact h.holds_written (Nat.zero_le _)

theorem kept_step {answer : Except IoError (List UInt8)} {e : ReadEvent} (h : Kept log s)
    (hfits : Fits s answer) (hstep : receiverMachine.step s answer = some (.ok (e, t))) :
    Kept (log ++ [e]) t := by
  match answer with
  | .error failure =>
      cases hstep
      refine ⟨?_, ?_⟩
      · rw [handedOut_concat_error]
        exact h.ready
      · rw [handedOut_concat_error]
        exact h.holds
  | .ok [] =>
      obtain ⟨u, hu, hkept⟩ := h.ended
      cases hu.symm.trans hstep
      exact hkept
  | .ok (byte :: bytes) =>
      obtain ⟨buf, u, hu, -, hkept⟩ := h.read (List.cons_ne_nil byte bytes) (hfits _ rfl)
      cases hu.symm.trans hstep
      exact hkept

theorem kept_of_run {allocs : List Nat} {memory : Base.Memory UInt8}
    (h : receiverMachine.Run Fits (.init allocs memory) log s) : Kept log s := by
  refine h.invariant ⟨Buffer.ready_new allocs (Base.laid_nil _), fun buf hbuf => ?_⟩ kept_step
  cases hbuf

/-- Every read hands out what it received, in memory that no later read is given. -/
theorem hands_out_received {allocs : List Nat} {memory : Base.Memory UInt8}
    (h : receiverMachine.Run Fits (.init allocs memory) log s) :
    s.buffer.block1.Fresh ∧ s.buffer.block2.Fresh ∧
      (∀ buf ∈ handedOut log, ∀ b ∈ buf.blocks, b.region.Disjoint s.buffer.first.region ∧
        b.region.Disjoint s.buffer.second.region ∧ s.memory.Holds b.region b.mem) ∧
      ∀ bytes, bytes.length ≤ s.buffer.first.cap + s.buffer.second.cap →
        ∃ r t, receiverMachine.step s (.ok bytes) = some (.ok (.ok r, t)) ∧
          (bytes = [] → r = none) ∧
          (bytes ≠ [] → ∃ buf, r = some (buf, bytes.length) ∧ buf.content = bytes) := by
  have hkept := kept_of_run h
  refine ⟨hkept.ready.fresh1, hkept.ready.fresh2, ?_, ?_⟩
  · intro buf hbuf b hb
    have hmem : b.region ∈ (handedOut log).flatMap ByteBuf.regions :=
      List.mem_flatMap.mpr ⟨buf, hbuf, List.mem_map_of_mem hb⟩
    obtain ⟨hfirst, hrest⟩ := List.pairwise_cons.mp hkept.ready.first_laid.apart
    obtain ⟨hsecond, -⟩ := List.pairwise_cons.mp hrest
    exact ⟨(hfirst _ (.tail _ hmem)).symm, (hsecond _ hmem).symm, hkept.holds buf hbuf b hb⟩
  · intro bytes hfits
    by_cases hne : bytes = []
    · subst hne
      obtain ⟨t, ht, -⟩ := hkept.ended
      exact ⟨none, t, ht, fun _ => rfl, fun hne => absurd rfl hne⟩
    · obtain ⟨buf, t, ht, hcontent, -⟩ := hkept.read hne hfits
      exact ⟨_, t, ht, fun hnil => absurd hnil hne, fun _ => ⟨buf, rfl, hcontent⟩⟩

theorem hands_out_received_of_one :
    ∃ log s, receiverMachine.Run Fits (.init [] fun _ _ => 0) log s ∧
      (handedOut log).map ByteBuf.content = [[1, 2, 3]] ∧ s.buffer.block1.Fresh := by
  have hinit : Kept [] (.init [] fun _ _ => 0) := kept_of_run .nil
  have hfits : [1, 2, 3].length ≤ bufSize + bufSize := by decide
  obtain ⟨buf, t, hstep, hcontent, -⟩ := hinit.read (List.cons_ne_nil 1 [2, 3]) hfits
  have hrun : receiverMachine.Run Fits (.init [] fun _ _ => 0) _ t :=
    Base.Machine.Run.nil.snoc (fun bytes hbytes => Except.ok.inj hbytes ▸ hfits) hstep
  exact ⟨_, t, hrun, congrArg (fun content => [content]) hcontent, (hands_out_received hrun).1⟩

end

end Ruyi.Sys
