import Ruyi.Proto.Prefix

namespace Ruyi.Proto

open Ruyi.Buf

/-- An inner stream that gives these answers, one a poll, and has then ended. -/
structure Script where
  answers : List (Poll ByteBuf)

instance : Stream Script where
  poll s :=
    match s.answers with
    | [] => (.ok (.ready none), s)
    | .error e :: rest => (.error e, ⟨rest⟩)
    | .ok .notReady :: rest => (.ok .notReady, ⟨rest⟩)
    | .ok (.ready chunk) :: rest => (.ok (.ready (some chunk)), ⟨rest⟩)

/-- The adapter with every buffer replaced by its content. -/
structure Decoder where
  answers : List (Poll (List UInt8))
  state : State
  data : List UInt8

namespace Decoder

def pollMore (d : Decoder) (n : Nat) : Poll (Option (List UInt8)) × Decoder :=
  match d.answers with
  | [] => (.ok (.ready none), { d with state := .done })
  | .error e :: rest => (.error e, { d with answers := rest })
  | .ok .notReady :: rest => (.ok .notReady, { d with answers := rest })
  | .ok (.ready chunk) :: rest =>
      let data := d.data ++ chunk
      if n ≤ data.length then
        (.ok (.ready (some (data.take n))), ⟨rest, .pending, data.drop n⟩)
      else
        (.ok .notReady, { d with answers := rest, data })

/-- The number in the first `size` bytes. -/
def header (size : Nat) (order : Endian) (data : List UInt8) : Nat :=
  valueOf order (data.take size)

def pollPending (size : Nat) (order : Endian) (d : Decoder) :
    Except Fault (Poll (Option (List UInt8)) × Decoder) :=
  match d.answers with
  | [] => .ok (.ok (.ready none), { d with state := .done })
  | .error e :: rest => .ok (.error e, { d with answers := rest })
  | .ok .notReady :: rest => .ok (.ok .notReady, { d with answers := rest })
  | .ok (.ready chunk) :: rest =>
      if chunk.length < size then
        .ok (.ok .notReady, { d with answers := rest, data := chunk })
      else
        let n := header size order chunk
        let body := chunk.drop size
        if n ≤ chunk.length then
          if n ≤ body.length then
            .ok (.ok (.ready (some (body.take n))), { d with answers := rest, data := body.drop n })
          else
            .error .unreachable
        else
          .ok (.ok .notReady, ⟨rest, .more n, body⟩)

def poll (size : Nat) (order : Endian) (d : Decoder) :
    Except Fault (Poll (Option (List UInt8)) × Decoder) :=
  match d.state with
  | .pending =>
      if d.data.length < size then
        pollPending size order d
      else
        let n := header size order d.data
        let body := d.data.drop size
        if n ≤ d.data.length then
          if n ≤ body.length then
            .ok (.ok (.ready (some (body.take n))), { d with data := body.drop n })
          else
            .error .unreachable
        else
          .ok (pollMore { d with state := .more n, data := body } n)
  | .more n => .ok (pollMore d n)
  | .done => .ok (.ok (.ready none), d)

end Decoder

/-- Change what a poll is ready with. -/
def mapPoll {α β : Type} (f : α → β) : Poll α → Poll β
  | .error e => .error e
  | .ok .notReady => .ok .notReady
  | .ok (.ready value) => .ok (.ready (f value))

namespace Prefix

/-- The decoder an adapter implements. -/
def view (p : Prefix Script) : Decoder where
  answers := p.stream.answers.map (mapPoll ByteBuf.content)
  state := p.state
  data := p.data.content

/-- What a poll of the adapter shows of itself and of its result. -/
def observe (r : Poll (Option ByteBuf) × Prefix Script) :
    Poll (Option (List UInt8)) × Decoder :=
  (mapPoll (Option.map ByteBuf.content) r.1, r.2.view)

/-- While a payload is being collected there is a block to read on from; without
one `drain_to` would refuse every position. -/
def Anchored (p : Prefix Script) : Prop :=
  ∀ n, p.state = .more n → p.data.idx < p.data.blocks.length

theorem anchored_new (s : Script) : (new s).Anchored := by
  intro n h
  cases h

end Prefix

theorem drainTo_cases {data : ByteBuf} {content : List UInt8}
    (hidx : data.idx < data.blocks.length) (hcontent : data.content = content) (n : Nat) :
    (n ≤ content.length ∧ ∃ head tail, data.drainTo n = .ok (head, tail) ∧
        head.content = content.take n ∧ tail.content = content.drop n) ∨
      (¬ n ≤ content.length ∧ data.drainTo n = .error .indexOutOfBounds) := by
  subst hcontent
  by_cases hn : n ≤ data.content.length
  · obtain ⟨head, tail, h⟩ := ByteBuf.exists_splitOff hidx hn
    obtain ⟨-, hhead, htail⟩ := ByteBuf.splitOff_ok h
    exact .inl ⟨hn, head, tail, h, hhead, htail⟩
  · exact .inr ⟨hn, ByteBuf.splitOff_error (by omega)⟩

theorem pollMore_view (p : Prefix Script) (n : Nat) (hidx : p.data.idx < p.data.blocks.length) :
    Prefix.observe (p.pollMore n) = p.view.pollMore n := by
  obtain ⟨⟨answers⟩, state, data⟩ := p
  match answers with
  | [] => rfl
  | .error e :: rest => rfl
  | .ok .notReady :: rest => rfl
  | .ok (.ready chunk) :: rest =>
      have hidx' : (data.extend chunk).idx < (data.extend chunk).blocks.length := by
        simp only [ByteBuf.extend, List.length_append]
        exact Nat.lt_add_right _ hidx
      have hcontent := ByteBuf.content_extend data chunk
      simp only [Prefix.pollMore, Stream.poll, Prefix.view, Decoder.pollMore, List.map_cons,
        mapPoll]
      rcases drainTo_cases hidx' hcontent n with
        ⟨hn, head, tail, hdrain, hhead, htail⟩ | ⟨hn, hdrain⟩
      · rw [hdrain, if_pos hn]
        simp [Prefix.observe, Prefix.view, mapPoll, hhead, htail]
      · rw [hdrain, if_neg hn]
        simp [Prefix.observe, Prefix.view, mapPoll, hcontent]

variable {size : Nat} {order target : Endian}

theorem readFixed_header (hsize : size = 2 ∨ size = 4 ∨ size = 8) {buf : ByteBuf}
    (hlen : ¬ buf.content.length < size) :
    ∃ body, readFixed size order target buf =
        (.ok (Decoder.header size order buf.content), body) ∧
      body.content = buf.content.drop size ∧ body.idx < body.blocks.length :=
  readFixed_ok hsize (Nat.le_of_not_lt hlen)

theorem pollPending_view (hsize : size = 2 ∨ size = 4 ∨ size = 8) (p : Prefix Script) :
    (p.pollPending size (readFixed size order target)).map Prefix.observe =
      p.view.pollPending size order := by
  obtain ⟨⟨answers⟩, state, data⟩ := p
  match answers with
  | [] => rfl
  | .error e :: rest => rfl
  | .ok .notReady :: rest => rfl
  | .ok (.ready chunk) :: rest =>
      simp only [Prefix.pollPending, Stream.poll, Prefix.view, Decoder.pollPending,
        List.map_cons, mapPoll, ByteBuf.len_eq]
      split
      · rfl
      · rename_i hlen
        obtain ⟨body, hread, hbody, hidx⟩ := readFixed_header hsize hlen
        rw [hread]
        generalize Decoder.header size order chunk.content = n
        simp only
        by_cases hle : n ≤ chunk.content.length
        · rw [if_pos hle, if_pos hle]
          rcases drainTo_cases hidx hbody n with
            ⟨hn, head, tail, hdrain, hhead, htail⟩ | ⟨hn, hdrain⟩
          · rw [hdrain, if_pos hn]
            simp [Except.map, Prefix.observe, Prefix.view, mapPoll, hhead, htail]
          · rw [hdrain, if_neg hn]
            rfl
        · rw [if_neg hle, if_neg hle]
          simp [Except.map, Prefix.observe, Prefix.view, mapPoll, hbody]

/-- An adapter, polled over any chain of blocks, does what the decoder does on
the contents. -/
theorem pollWith_view (hsize : size = 2 ∨ size = 4 ∨ size = 8) {p : Prefix Script}
    (hanchor : p.Anchored) :
    (p.pollWith size (readFixed size order target)).map Prefix.observe =
      p.view.poll size order := by
  obtain ⟨stream, state, data⟩ := p
  cases state with
  | done => rfl
  | more n =>
      have h := pollMore_view ⟨stream, .more n, data⟩ n (hanchor n rfl)
      simp only [Prefix.pollWith, Except.map, h]
      rfl
  | pending =>
      simp only [Prefix.pollWith, Decoder.poll, ByteBuf.len_eq]
      have hview : (Prefix.view ⟨stream, .pending, data⟩).data = data.content := rfl
      simp only [hview]
      have hstate : (Prefix.view ⟨stream, .pending, data⟩).state = .pending := rfl
      simp only [hstate]
      split
      · exact pollPending_view hsize _
      · rename_i hlen
        obtain ⟨body, hread, hbody, hidx⟩ := readFixed_header hsize hlen
        rw [hread]
        generalize Decoder.header size order data.content = n
        simp only
        by_cases hle : n ≤ data.content.length
        · rw [if_pos hle, if_pos hle]
          rcases drainTo_cases hidx hbody n with
            ⟨hn, head, tail, hdrain, hhead, htail⟩ | ⟨hn, hdrain⟩
          · rw [hdrain, if_pos hn]
            simp [Except.map, Prefix.observe, Prefix.view, mapPoll, hhead, htail]
          · rw [hdrain, if_neg hn]
            rfl
        · rw [if_neg hle, if_neg hle, Except.map, pollMore_view _ _ hidx]
          simp only [Prefix.view, hbody]

theorem pollWith_anchored (hsize : size = 2 ∨ size = 4 ∨ size = 8) {p q : Prefix Script}
    {r : Poll (Option ByteBuf)} (hanchor : p.Anchored)
    (h : p.pollWith size (readFixed size order target) = .ok (r, q)) : q.Anchored :=
  Prefix.pollWith_held hsize hanchor h

/-- A run of polls: the answers other than `NotReady` and errors, in order, and
the adapter that is left. -/
def Adapter.drive (target : Endian) (a : Adapter) :
    Nat → Prefix Script → Except Fault (List (Option ByteBuf) × Prefix Script)
  | 0, p => .ok ([], p)
  | k + 1, p =>
      match a.poll target p with
      | .error f => .error f
      | .ok (r, p') =>
          match drive target a k p' with
          | .error f => .error f
          | .ok (items, q) =>
              match r with
              | .ok (.ready item) => .ok (item :: items, q)
              | _ => .ok (items, q)

def Decoder.drive (size : Nat) (order : Endian) :
    Nat → Decoder → Except Fault (List (Option (List UInt8)) × Decoder)
  | 0, d => .ok ([], d)
  | k + 1, d =>
      match d.poll size order with
      | .error f => .error f
      | .ok (r, d') =>
          match drive size order k d' with
          | .error f => .error f
          | .ok (items, e) =>
              match r with
              | .ok (.ready item) => .ok (item :: items, e)
              | _ => .ok (items, e)

/-- What a run of polls shows, as contents. -/
def Prefix.observeRun (r : List (Option ByteBuf) × Prefix Script) :
    List (Option (List UInt8)) × Decoder :=
  (r.1.map (Option.map ByteBuf.content), r.2.view)

theorem drive_view (target : Endian) (a : Adapter) (k : Nat) {p : Prefix Script}
    (hanchor : p.Anchored) :
    (a.drive target k p).map Prefix.observeRun = p.view.drive a.size a.order k := by
  induction k generalizing p with
  | zero => rfl
  | succ k ih =>
      have hview : (p.pollWith a.size (readFixed a.size a.order target)).map Prefix.observe =
          p.view.poll a.size a.order := pollWith_view a.size_cases hanchor
      rw [← a.poll_eq target] at hview
      rw [Adapter.drive, Decoder.drive, ← hview]
      cases hpoll : a.poll target p with
      | error f => rfl
      | ok r =>
          obtain ⟨r, q⟩ := r
          have hq : q.Anchored :=
            pollWith_anchored a.size_cases hanchor ((a.poll_eq target p).symm.trans hpoll)
          simp only [Except.map, Prefix.observe]
          rw [← ih hq]
          cases a.drive target k q with
          | error f => rfl
          | ok items =>
              match r with
              | .error e => rfl
              | .ok .notReady => rfl
              | .ok (.ready item) => rfl

end Ruyi.Proto
