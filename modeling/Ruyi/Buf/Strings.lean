import Ruyi.Base.Simulation
import Ruyi.Buf.CallContent

namespace Ruyi.Buf

open Base (Machine Spec)

def Making.bytes : Making → List UInt8
  | ofVec bytes _ => bytes
  | _ => []

/-- What a read may return of a string, and what is left of it. -/
def Reading.Reads (r : Reading) (bytes : List UInt8) (e : BufEvent) (bytes' : List UInt8) : Prop :=
  match r with
  | value codec =>
      (∃ code, codec.IsCode code ∧ bytes = code ++ bytes' ∧ e = .value (codec.decode code)) ∨
        (∀ code, codec.IsCode code → ¬ code <+: bytes) ∧ e = .failed .underflow ∧ bytes' = []
  | u8s => e = .bytes bytes ∧ bytes' = []
  | u8sExact n =>
      n ≤ bytes.length ∧ e = .bytes (bytes.take n) ∧ bytes' = bytes.drop n ∨
        bytes.length < n ∧ e = .failed .underflow ∧ bytes' = []
  | reader n => e = .bytes (bytes.take n) ∧ bytes' = bytes.drop n
  | next =>
      bytes' = bytes ∧ (bytes = [] ∧ e = .block none ∨
        ∃ front, front ≠ [] ∧ front <+: bytes ∧ e = .block (some front))

/-- What a call may return of a string, and what is left of it.  Nothing is said of blocks. -/
def BufOp.Does (op : BufOp) (bytes : List UInt8) (e : BufEvent) (bytes' : List UInt8) : Prop :=
  match op with
  | append a _ => e = .count a.bytes.length ∧ bytes' = bytes ++ a.bytes
  | prepend p _ => e = .count p.bytes.length ∧ bytes' = p.bytes ++ bytes
  | read r => r.Reads bytes e bytes'
  | skip n => e = .count (min n bytes.length) ∧ bytes' = bytes.drop n
  | set index s =>
      index ≤ bytes.length ∧ bytes' = overwrite bytes index s.bytes ∧
        e = if index < bytes.length ∧ index + s.bytes.length ≤ bytes.length then
            .count s.bytes.length
          else .failed .indexOutOfBounds
  | tryReserveInHead _ => (∃ n, e = .count n) ∧ bytes' = bytes
  | setGrowth _ | reserve _ | compact => e = .done ∧ bytes' = bytes

/-- A string is cut in two at a position, or it is refused. -/
def Cuts (bytes : List UInt8) (pos : Nat) (e : BufEvent)
    (parts : Option (List UInt8 × List UInt8)) : Prop :=
  pos ≤ bytes.length ∧ e = .done ∧ parts = some (bytes.take pos, bytes.drop pos) ∨
    (bytes = [] ∨ bytes.length < pos) ∧ e = .failed .indexOutOfBounds ∧ parts = none

/-- Buffers as strings of bytes. -/
def strings : Spec (List (List UInt8)) (BufAction × BufEvent) where
  Step ss label ss' :=
    match label with
    | (.make m, e) => e = .done ∧ ss' = ss ++ [m.bytes]
    | (.drop i, e) => i < ss.length ∧ e = .done ∧ ss' = ss.eraseIdx i
    | (.call i op, e) =>
        ∃ bytes bytes', ss[i]? = some bytes ∧ op.Does bytes e bytes' ∧ ss' = ss.set i bytes'
    | (.extend i j, e) =>
        ∃ bytes other, ss[i]? = some bytes ∧ ss[j]? = some other ∧ i ≠ j ∧ e = .done ∧
          ss' = (ss.eraseIdx j).set (if j < i then i - 1 else i) (bytes ++ other)
    | (.splitOff i pos, e) =>
        ∃ bytes parts, ss[i]? = some bytes ∧ Cuts bytes pos e parts ∧
          ss' = parts.elim ss fun p => ss.set i p.1 ++ [p.2]
    | (.drainTo i pos, e) =>
        ∃ bytes parts, ss[i]? = some bytes ∧ Cuts bytes pos e parts ∧
          ss' = parts.elim ss fun p => ss.set i p.2 ++ [p.1]

theorem Making.content_run (m : Making) (allocs : List Nat) :
    (m.run allocs).1.content = m.bytes := by
  cases m with
  | ofVec bytes spare => exact ByteBuf.content_ofVec _ _ _
  | withCapacity capacity =>
      show bytesOf [_] = []
      rw [bytesOf_cons, bytesOf_nil, Block.asBytes_withCapacity]
      rfl
  | _ => rfl

theorem Reading.reads_run (r : Reading) (target : Endian) (buf : ByteBuf) :
    r.Reads buf.content (r.run target buf).1 (r.run target buf).2.content := by
  cases r with
  | value codec =>
      rw [run, ← Prod.mk.eta (p := codec.read target buf), result_eq]
      by_cases h : ∃ code, codec.IsCode code ∧ code <+: buf.content
      · obtain ⟨code, hcode, rest, hcontent⟩ := h
        obtain ⟨hvalue, hrest⟩ := Prod.mk.inj (Codec.read_code hcode target hcontent.symm)
        rw [hvalue, hrest]
        exact .inl ⟨code, hcode, hcontent.symm, rfl⟩
      · have hno : ∀ code, codec.IsCode code → ¬ code <+: buf.content := by
          intro code hcode hprefix
          exact h ⟨code, hcode, hprefix⟩
        obtain ⟨hvalue, hrest⟩ := Prod.mk.inj (Codec.read_no_code hno target)
        rw [hvalue, hrest]
        exact .inr ⟨hno, rfl, rfl⟩
  | u8s =>
      have hlen : buf.len ≤ buf.content.length := Nat.le_of_eq buf.len_eq
      obtain ⟨hvalue, hrest⟩ := Prod.mk.inj (u8s.readExact_ok hlen)
      rw [run, u8s.read, ← Prod.mk.eta (p := u8s.readExact _ buf), result_eq, hvalue, hrest,
        buf.len_eq, List.take_length, List.drop_length]
      exact ⟨rfl, rfl⟩
  | u8sExact n =>
      rw [run, ← Prod.mk.eta (p := u8s.readExact n buf), result_eq]
      rcases Nat.lt_or_ge buf.content.length n with hlt | hle
      · obtain ⟨hvalue, hrest⟩ := Prod.mk.inj (u8s.readExact_error hlt)
        rw [hvalue, hrest]
        exact .inr ⟨hlt, rfl, rfl⟩
      · obtain ⟨hvalue, hrest⟩ := Prod.mk.inj (u8s.readExact_ok hle)
        rw [hvalue, hrest]
        exact .inl ⟨hle, rfl, rfl⟩
  | reader n =>
      obtain ⟨hbytes, hrest⟩ := Prod.mk.inj (Reader.read_eq n buf)
      exact ⟨congrArg BufEvent.bytes hbytes, hrest⟩
  | next =>
      refine ⟨buf.content_next, ?_⟩
      obtain ⟨hnone, hnil⟩ | ⟨block, hsome, hne, hprefix⟩ := buf.next_cases
      · refine .inl ⟨hnil, ?_⟩
        rw [run, hnone]
        rfl
      · refine .inr ⟨block.asBytes, hne, hprefix, ?_⟩
        rw [run, hsome]
        rfl

theorem BufOp.does_run {op : BufOp} {target : Endian} {buf buf' : ByteBuf} {e : BufEvent}
    {allocs allocs' : List Nat} (hin : op.InSight buf)
    (h : op.run target buf allocs = some (e, buf', allocs')) :
    op.Does buf.content e buf'.content := by
  cases op with
  | setGrowth growth =>
      cases h
      exact ⟨rfl, rfl⟩
  | append a fuel =>
      obtain ⟨⟨n, r⟩, hrun, heq⟩ := Option.map_eq_some_iff.mp h
      cases heq
      obtain ⟨rfl, hcontent⟩ := Appending.run_some hin hrun
      exact ⟨rfl, hcontent⟩
  | prepend p fuel =>
      obtain ⟨⟨n, r⟩, hrun, heq⟩ := Option.map_eq_some_iff.mp h
      cases heq
      obtain ⟨rfl, -, -⟩ := Prepending.run_some hrun
      exact ⟨rfl, Prepending.content_run hin hrun⟩
  | read r =>
      cases h
      exact r.reads_run target buf
  | skip n =>
      cases h
      refine ⟨congrArg BufEvent.count ?_, buf.content_skip n⟩
      rw [← Nat.zero_add buf.content.length]
      exact skipBlocks_count (Nat.zero_le n)
  | set index s =>
      obtain ⟨r, hrun, heq⟩ := Option.map_eq_some_iff.mp h
      cases heq
      exact Setting.run_some hrun
  | reserve additional =>
      obtain ⟨rfl, hreserve⟩ := Prod.mk.inj (Option.some.inj h)
      have hcontent := buf.content_reserve allocs additional
      rw [hreserve] at hcontent
      exact ⟨rfl, hcontent⟩
  | tryReserveInHead len =>
      cases h
      exact ⟨⟨_, rfl⟩, buf.content_tryReserveInHead len⟩
  | compact =>
      cases h
      exact ⟨rfl, buf.content_compact⟩

theorem ByteBuf.cuts_splitOff (buf : ByteBuf) (pos : Nat) :
    (∃ head tail, buf.splitOff pos = .ok (head, tail) ∧
        Cuts buf.content pos .done (some (head.content, tail.content))) ∨
      buf.splitOff pos = .error .indexOutOfBounds ∧
        Cuts buf.content pos (.failed .indexOutOfBounds) none := by
  cases h : buf.splitOff pos with
  | ok parts =>
      obtain ⟨hle, hhead, htail⟩ := ByteBuf.splitOff_ok h
      exact .inl ⟨_, _, rfl, .inl ⟨hle, rfl, by rw [hhead, htail]⟩⟩
  | error e =>
      have herror : (∃ left, buf.locateIdx pos = .error left) ∧ e = .indexOutOfBounds := by
        rw [splitOff] at h
        split at h
        · rename_i left hleft
          cases h
          exact ⟨⟨left, hleft⟩, rfl⟩
        · dsimp only at h
          split at h
          · cases h
          · split at h <;> cases h
      obtain ⟨⟨left, hleft⟩, rfl⟩ := herror
      exact .inr ⟨rfl, .inr ⟨locateIdx_error hleft, rfl, rfl⟩⟩

/-- The call comes to an end: a loop of an appending call needs a growth, and the index of a set
is in bounds. -/
def BufOp.Returns (op : BufOp) (buf : ByteBuf) : Prop :=
  match op with
  | append a fuel => 0 < buf.growth ∧ a.bytes.length + 2 ≤ fuel
  | prepend p fuel => 0 < buf.growth ∧ p.bytes.length + 2 ≤ fuel
  | set index _ => index < buf.content.length
  | _ => True

def BufAction.Returns (a : BufAction) (s : Buffers) : Prop :=
  match a with
  | make _ => True
  | drop i | splitOff i _ | drainTo i _ => i < s.bufs.length
  | call i op => ∃ buf, s.bufs[i]? = some buf ∧ op.Returns buf
  | extend i j => i ≠ j ∧ i < s.bufs.length ∧ j < s.bufs.length

theorem Setting.exists_run (s : Setting) (target : Endian) {index : Nat} {buf : ByteBuf}
    (h : index < buf.content.length) : ∃ r, s.run target index buf = some r := by
  obtain ⟨σ, body, left, result, x, -, -, -, -, hrun⟩ := s.run_cases target
  have hne : buf.content.drop index ≠ [] := by
    refine List.ne_nil_of_length_pos ?_
    rw [List.length_drop]
    omega
  obtain ⟨p, hp⟩ := ByteBuf.exists_located hne
  rw [hrun, ByteBuf.setWith, hp]
  exact ⟨_, rfl⟩

theorem BufOp.exists_run {op : BufOp} {buf : ByteBuf} (h : op.Returns buf) (target : Endian)
    (allocs : List Nat) : ∃ r, op.run target buf allocs = some r := by
  cases op with
  | append a fuel =>
      obtain ⟨buf', allocs', hrun, -⟩ := a.run_ok target buf allocs h.1 h.2
      exact ⟨_, congrArg (Option.map _) hrun⟩
  | prepend p fuel =>
      obtain ⟨r, hrun⟩ := p.exists_run target buf allocs h.1 h.2
      exact ⟨_, congrArg (Option.map _) hrun⟩
  | set index s =>
      obtain ⟨r, hrun⟩ := s.exists_run target h
      exact ⟨_, congrArg (Option.map _) hrun⟩
  | _ => exact ⟨_, rfl⟩

namespace Buffers

variable {target : Endian} {s s' : Buffers}

/-- The strings that the buffers stand for. -/
def contents (s : Buffers) : List (List UInt8) := s.bufs.map ByteBuf.content

theorem getElem_contents {i : Nat} {buf : ByteBuf} (h : s.bufs[i]? = some buf) :
    s.contents[i]? = some buf.content := by
  rw [contents, List.getElem?_map, h]
  rfl

theorem step_strings {a : BufAction} {e : BufEvent} (hin : a.InSight s)
    (h : s.step target a = some (.ok (e, s'))) : strings.Step s.contents (a, e) s'.contents := by
  cases a with
  | make m =>
      cases h
      refine ⟨rfl, ?_⟩
      rw [contents, List.map_append, List.map_singleton, m.content_run]
      rfl
  | drop i =>
      rw [step] at h
      split at h
      · rename_i hlt
        cases h
        refine ⟨?_, rfl, (List.eraseIdx_map _ _ _).symm⟩
        rw [contents, List.length_map]
        exact hlt
      · cases h
  | call i op =>
      obtain ⟨buf, hbuf, h⟩ := Option.bind_eq_some_iff.mp h
      obtain ⟨⟨e', buf', allocs'⟩, hrun, h⟩ := Option.bind_eq_some_iff.mp h
      cases h
      refine ⟨_, _, getElem_contents hbuf, BufOp.does_run (hin buf hbuf) hrun, ?_⟩
      exact List.map_set
  | extend i j =>
      obtain ⟨buf, hbuf, h⟩ := Option.bind_eq_some_iff.mp h
      obtain ⟨other, hother, h⟩ := Option.bind_eq_some_iff.mp h
      dsimp only at h
      split at h
      · cases h
      · rename_i hne
        cases h
        refine ⟨_, _, getElem_contents hbuf, getElem_contents hother, hne, rfl, ?_⟩
        rw [contents, List.map_set, ByteBuf.content_extend, ← List.eraseIdx_map]
        rfl
  | splitOff i pos =>
      obtain ⟨buf, hbuf, h⟩ := Option.bind_eq_some_iff.mp h
      obtain ⟨head, tail, hsplit, hcuts⟩ | ⟨hsplit, hcuts⟩ := buf.cuts_splitOff pos
      · rw [hsplit] at h
        cases h
        refine ⟨_, _, getElem_contents hbuf, hcuts, ?_⟩
        rw [contents, List.map_append, List.map_set]
        rfl
      · rw [hsplit] at h
        cases h
        exact ⟨_, _, getElem_contents hbuf, hcuts, rfl⟩
  | drainTo i pos =>
      obtain ⟨buf, hbuf, h⟩ := Option.bind_eq_some_iff.mp h
      rw [ByteBuf.drainTo] at h
      obtain ⟨head, tail, hsplit, hcuts⟩ | ⟨hsplit, hcuts⟩ := buf.cuts_splitOff pos
      · rw [hsplit] at h
        cases h
        refine ⟨_, _, getElem_contents hbuf, hcuts, ?_⟩
        rw [contents, List.map_append, List.map_set]
        rfl
      · rw [hsplit] at h
        cases h
        exact ⟨_, _, getElem_contents hbuf, hcuts, rfl⟩

theorem exists_step {a : BufAction} (h : a.Returns s) (target : Endian) :
    ∃ e s', s.step target a = some (.ok (e, s')) := by
  cases a with
  | make m => exact ⟨_, _, rfl⟩
  | drop i => exact ⟨_, _, if_pos h⟩
  | call i op =>
      obtain ⟨buf, hbuf, hreturns⟩ := h
      obtain ⟨⟨e, buf', allocs'⟩, hrun⟩ := BufOp.exists_run hreturns target s.allocs
      exact ⟨_, _, step_call hbuf hrun⟩
  | extend i j =>
      obtain ⟨hne, hi, hj⟩ := h
      rw [step, List.getElem?_eq_getElem hi, List.getElem?_eq_getElem hj]
      exact ⟨_, _, if_neg hne⟩
  | splitOff i pos =>
      obtain ⟨buf, hbuf⟩ : ∃ buf, s.bufs[i]? = some buf := ⟨_, List.getElem?_eq_getElem h⟩
      rw [step, hbuf, Option.bind_eq_bind, Option.bind_some]
      obtain ⟨head, tail, hsplit, -⟩ | ⟨hsplit, -⟩ := buf.cuts_splitOff pos
      · rw [hsplit]
        exact ⟨_, _, rfl⟩
      · rw [hsplit]
        exact ⟨_, _, rfl⟩
  | drainTo i pos =>
      obtain ⟨buf, hbuf⟩ : ∃ buf, s.bufs[i]? = some buf := ⟨_, List.getElem?_eq_getElem h⟩
      rw [step, hbuf, Option.bind_eq_bind, Option.bind_some, ByteBuf.drainTo]
      obtain ⟨head, tail, hsplit, -⟩ | ⟨hsplit, -⟩ := buf.cuts_splitOff pos
      · rw [hsplit]
        exact ⟨_, _, rfl⟩
      · rw [hsplit]
        exact ⟨_, _, rfl⟩

/-- Buffers are strings, as long as what is appended and prepended comes into sight. -/
def simulation (target : Endian) : (buffersMachine target).Simulation (fun s a => a.InSight s)
    strings fun _ a e => some (a, e) where
  Rel s ss := ss = s.contents
  shown_step hrel hin hstep hlabel := by
    cases hlabel
    exact ⟨_, hrel ▸ step_strings hin hstep, rfl⟩
  hidden_step _ _ _ hlabel := nomatch hlabel

end Buffers

/-- Whatever calls change any number of chained buffers, of whatever blocks they are, what the calls
return and what the buffers hold is as if each of them were one string of bytes, as long as what is
appended and prepended comes into sight. -/
theorem buffers_are_strings {target : Endian} {s : Buffers} {log : List BufEvent}
    {calls : List (BufAction × BufEvent)}
    (h : ((buffersMachine target).traced fun _ a e => some (a, e)).Run
      (fun p a => a.InSight p.1) (.init, []) log (s, calls)) :
    strings.Run [] calls s.contents ∧
      ∀ a : BufAction, a.InSight s → a.Returns s → ∃ e s',
        s.step target a = some (.ok (e, s')) ∧ strings.Step s.contents (a, e) s'.contents := by
  obtain ⟨ss, hrun, hrel⟩ := (Buffers.simulation target).run rfl h
  refine ⟨hrel ▸ hrun, fun a hin hreturns => ?_⟩
  obtain ⟨e, s', hstep⟩ := Buffers.exists_step hreturns target
  exact ⟨e, s', hstep, Buffers.step_strings hin hstep⟩

theorem buffers_are_strings_of_two :
    ∃ calls s, strings.Run [] calls (Buffers.contents s) ∧ calls.length = 5 ∧
      s.contents = [[9, 1, 2, 3, 4]] := by
  have hend : (((buffersMachine .little).traced fun _ a e => some (a, e)).exec
      (fun p a => a.InSight p.1)
      [.make (.ofVec [0, 1, 2] [0]), .make (.withCapacity 8),
        .call 1 (.append (.u8s [3, 4]) 9), .call 0 (.set 0 (.value .u8 9)), .extend 0 1]
        (.init, [])).map (fun r => (r.2.2.length, r.2.1.contents)) =
          some (5, [[9, 1, 2, 3, 4]]) := by
    decide +kernel
  obtain ⟨⟨log, s, calls⟩, hexec, heq⟩ := Option.map_eq_some_iff.mp hend
  obtain ⟨hlen, hcontents⟩ := Prod.mk.inj heq
  exact ⟨calls, s, (buffers_are_strings (.of_exec _ hexec)).1, hlen, hcontents⟩

end Ruyi.Buf
