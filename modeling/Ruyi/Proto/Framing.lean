import Ruyi.Proto.Decoder

namespace Ruyi.Proto

open Ruyi.Buf

/-- What is sent for one payload: its length in `size` bytes, then its bytes. -/
def frame (size : Nat) (order : Endian) (payload : List UInt8) : List UInt8 :=
  bytesFor order size payload.length ++ payload

def wire (size : Nat) (order : Endian) (payloads : List (List UInt8)) : List UInt8 :=
  payloads.flatMap (frame size order)

/-- The bytes a sequence of answers delivers. -/
def arrived (chunks : List (Async (List UInt8))) : List UInt8 :=
  chunks.flatMap fun
    | .ready chunk => chunk
    | .notReady => []

/-- The lengths of the chunks in a sequence of answers. -/
def chunkSizes (chunks : List (Async (List UInt8))) : List Nat :=
  chunks.filterMap fun
    | .ready chunk => some chunk.length
    | .notReady => none

/-- How many bytes the chunk holding offset `off` of the stream has from that
offset on. -/
def available : List Nat → Nat → Nat
  | [], _ => 0
  | size :: rest, off => if off < size then size - off else available rest (off - size)

/-- Every frame either lies in the chunk its first byte is in, or that chunk
holds its header and fewer bytes of it, header included, than the payload is
long.  Frames start at offset `off`. -/
def Clear (size : Nat) (chunks : List Nat) : Nat → List (List UInt8) → Prop
  | _, [] => True
  | off, payload :: rest =>
      (size + payload.length ≤ available chunks off ∨
        size ≤ available chunks off ∧ available chunks off < payload.length) ∧
      Clear size chunks (off + (size + payload.length)) rest

instance decidableClear (size : Nat) (chunks : List Nat) :
    (off : Nat) → (payloads : List (List UInt8)) → Decidable (Clear size chunks off payloads)
  | _, [] => .isTrue trivial
  | off, payload :: rest =>
      have := decidableClear size chunks (off + (size + payload.length)) rest
      inferInstanceAs (Decidable (_ ∧ _))

theorem wire_cons (size : Nat) (order : Endian) (p : List UInt8) (ps : List (List UInt8)) :
    wire size order (p :: ps) = bytesFor order size p.length ++ (p ++ wire size order ps) := by
  simp [wire, frame]

theorem available_zero (chunks : List Nat) (off : Nat) :
    available (0 :: chunks) off = available chunks off := by
  simp [available]

theorem available_shift (chunks : List Nat) {taken size : Nat} (off : Nat) (h : taken ≤ size) :
    available (size :: chunks) (off + taken) = available ((size - taken) :: chunks) off := by
  simp only [available]
  by_cases hlt : off + taken < size
  · rw [if_pos hlt, if_pos (by omega)]
    omega
  · rw [if_neg hlt, if_neg (by omega)]
    congr 1
    omega

theorem clear_congr {size : Nat} {chunks chunks' : List Nat} {ps : List (List UInt8)}
    {shift off : Nat} (h : ∀ o, available chunks (o + shift) = available chunks' o) :
    Clear size chunks (off + shift) ps ↔ Clear size chunks' off ps := by
  induction ps generalizing off with
  | nil => exact Iff.rfl
  | cons p ps ih =>
      simp only [Clear]
      rw [h off, Nat.add_right_comm off shift, ih]

theorem clear_shift {size : Nat} {chunks : List Nat} {ps : List (List UInt8)} {taken c : Nat}
    (off : Nat) (h : taken ≤ c) :
    Clear size (c :: chunks) (off + taken) ps ↔ Clear size ((c - taken) :: chunks) off ps :=
  clear_congr fun o => available_shift chunks o h

theorem clear_zero {size : Nat} {chunks : List Nat} {ps : List (List UInt8)} (off : Nat) :
    Clear size (0 :: chunks) off ps ↔ Clear size chunks off ps :=
  have h : Clear size (0 :: chunks) (off + 0) ps ↔ Clear size chunks off ps :=
    clear_congr fun o => available_zero chunks o
  h

theorem clear_skip {size : Nat} {chunks : List Nat} {ps : List (List UInt8)} {c : Nat}
    (off : Nat) : Clear size (c :: chunks) (off + c) ps ↔ Clear size chunks off ps := by
  rw [clear_shift off (Nat.le_refl c), Nat.sub_self, clear_zero]

namespace Decoder

variable {size : Nat} {order : Endian}

/-- Polled often enough, the decoder gives these payloads and then ends. -/
def Yields (size : Nat) (order : Endian) (d : Decoder) (payloads : List (List UInt8)) : Prop :=
  ∃ k e, d.drive size order k = .ok (payloads.map some ++ [none], e)

theorem not_yields_zero {d e : Decoder} {ps : List (List UInt8)} :
    ¬ d.drive size order 0 = .ok (ps.map some ++ [none], e) := by
  simp [drive]

theorem not_yields_of_error {d : Decoder} {ps : List (List UInt8)} {f : Fault}
    (h : d.poll size order = .error f) : ¬ d.Yields size order ps := by
  rintro ⟨k, e, hk⟩
  cases k with
  | zero => exact not_yields_zero hk
  | succ k => simp [drive, h] at hk

theorem yields_congr {d d' : Decoder} (h : d.poll size order = d'.poll size order)
    (ps : List (List UInt8)) : d.Yields size order ps ↔ d'.Yields size order ps := by
  constructor
  · rintro ⟨k, e, hk⟩
    cases k with
    | zero => exact absurd hk not_yields_zero
    | succ k => exact ⟨k + 1, e, by rw [← hk, drive, drive, h]⟩
  · rintro ⟨k, e, hk⟩
    cases k with
    | zero => exact absurd hk not_yields_zero
    | succ k => exact ⟨k + 1, e, by rw [← hk, drive, drive, h]⟩

theorem yields_quiet {d d' : Decoder} (ps : List (List UInt8))
    (h : d.poll size order = .ok (.ok .notReady, d')) :
    d.Yields size order ps ↔ d'.Yields size order ps := by
  constructor
  · rintro ⟨k, e, hk⟩
    cases k with
    | zero => exact absurd hk not_yields_zero
    | succ k =>
        rw [drive, h] at hk
        simp only at hk
        split at hk
        · cases hk
        · rename_i items e' hitems
          exact ⟨k, e', by rw [hitems, hk]; cases hk; rfl⟩
  · rintro ⟨k, e, hk⟩
    exact ⟨k + 1, e, by simp only [drive, h, hk]⟩

theorem yields_item {d d' : Decoder} {item : List UInt8} (ps : List (List UInt8))
    (h : d.poll size order = .ok (.ok (.ready (some item)), d')) :
    d.Yields size order ps ↔ ∃ rest, ps = item :: rest ∧ d'.Yields size order rest := by
  constructor
  · rintro ⟨k, e, hk⟩
    cases k with
    | zero => exact absurd hk not_yields_zero
    | succ k =>
        rw [drive, h] at hk
        simp only at hk
        split at hk
        · cases hk
        · rename_i items e' hitems
          simp only [Except.ok.injEq, Prod.mk.injEq] at hk
          obtain ⟨hlist, rfl⟩ := hk
          cases ps with
          | nil => simp at hlist
          | cons p rest =>
              simp only [List.map_cons, List.cons_append, List.cons.injEq, Option.some.injEq]
                at hlist
              obtain ⟨rfl, rfl⟩ := hlist
              exact ⟨rest, rfl, k, e', hitems⟩
  · rintro ⟨rest, rfl, k, e, hk⟩
    exact ⟨k + 1, e, by simp [drive, h, hk]⟩

theorem yields_end {d d' : Decoder} (ps : List (List UInt8))
    (h : d.poll size order = .ok (.ok (.ready none), d')) :
    d.Yields size order ps ↔ ps = [] := by
  constructor
  · rintro ⟨k, e, hk⟩
    cases k with
    | zero => exact absurd hk not_yields_zero
    | succ k =>
        rw [drive, h] at hk
        simp only at hk
        split at hk
        · cases hk
        · simp only [Except.ok.injEq, Prod.mk.injEq] at hk
          cases ps with
          | nil => rfl
          | cons p rest => simp at hk
  · rintro rfl
    exact ⟨1, d', by simp [drive, h]⟩

/-- The bytes a sequence of answers of the inner stream still holds. -/
def pendingBytes (answers : List (Poll (List UInt8))) : Nat :=
  (answers.map fun
    | .ok (.ready chunk) => chunk.length
    | _ => 0).sum

/-- The bytes a decoder may still turn into frames; a header already read counts. -/
def weight (size : Nat) (d : Decoder) : Nat :=
  d.data.length + pendingBytes d.answers +
    match d.state with
    | .more _ => size
    | _ => 0

/-- The bytes of the stream behind an answer of the decoder. -/
def answerCost (size : Nat) : Poll (Option (List UInt8)) → Nat
  | .ok (.ready (some item)) => size + item.length
  | _ => 0

theorem pollMore_weight (size : Nat) (d : Decoder) {n : Nat} (hstate : d.state = .more n) :
    answerCost size (d.pollMore n).1 + (d.pollMore n).2.weight size ≤ d.weight size := by
  obtain ⟨answers, state, data⟩ := d
  cases hstate
  match answers with
  | [] => simp [pollMore, answerCost, weight]
  | .error e :: rest => simp [pollMore, answerCost, weight, pendingBytes]
  | .ok .notReady :: rest => simp [pollMore, answerCost, weight, pendingBytes]
  | .ok (.ready chunk) :: rest =>
      simp only [pollMore]
      split
      · rename_i hn
        simp only [answerCost, weight, pendingBytes, List.map_cons, List.sum_cons,
          List.length_take, List.length_drop, List.length_append] at hn ⊢
        omega
      · simp only [answerCost, weight, pendingBytes, List.map_cons, List.sum_cons,
          List.length_append]
        omega

/-- A poll in state `Pending` that pulls a chunk throws away what was buffered. -/
theorem pollPending_weight {d d' : Decoder} {r : Poll (Option (List UInt8))}
    (hstate : d.state = .pending) (h : d.pollPending size order = .ok (r, d')) :
    answerCost size r + d'.weight size ≤ d.weight size := by
  obtain ⟨answers, state, data⟩ := d
  cases hstate
  match answers with
  | [] | .error e :: rest | .ok .notReady :: rest =>
      cases h
      simp [answerCost, weight, pendingBytes]
  | .ok (.ready chunk) :: rest =>
      simp only [pollPending] at h
      split at h
      · cases h
        simp only [answerCost, weight, pendingBytes, List.map_cons, List.sum_cons]
        omega
      · rename_i hlen
        split at h
        · split at h
          · rename_i hn
            cases h
            simp only [answerCost, weight, pendingBytes, List.map_cons, List.sum_cons,
              List.length_take, List.length_drop] at hn ⊢
            omega
          · cases h
        · cases h
          simp only [answerCost, weight, pendingBytes, List.map_cons, List.sum_cons,
            List.length_drop]
          omega

theorem poll_weight {d d' : Decoder} {r : Poll (Option (List UInt8))}
    (h : d.poll size order = .ok (r, d')) :
    answerCost size r + d'.weight size ≤ d.weight size := by
  obtain ⟨answers, state, data⟩ := d
  cases state with
  | done =>
      cases h
      simp [answerCost]
  | more n =>
      simp only [poll, Except.ok.injEq] at h
      have := pollMore_weight size ⟨answers, .more n, data⟩ rfl
      rwa [h] at this
  | pending =>
      simp only [poll] at h
      split at h
      · exact pollPending_weight rfl h
      · rename_i hlen
        split at h
        · split at h
          · rename_i hn
            cases h
            simp only [answerCost, weight, List.length_take, List.length_drop] at hn ⊢
            omega
          · cases h
        · simp only [Except.ok.injEq] at h
          have := pollMore_weight size
            ⟨answers, .more (header size order data), data.drop size⟩ rfl
          rw [h] at this
          refine this.trans ?_
          simp only [weight, List.length_drop]
          omega

/-- Frames cannot hold more bytes than the decoder had: once a byte has been
thrown away, not all of them can come out. -/
theorem wire_le_weight {d : Decoder} {ps : List (List UInt8)}
    (h : d.Yields size order ps) : (wire size order ps).length ≤ d.weight size := by
  obtain ⟨k, e, hk⟩ := h
  induction k generalizing d ps with
  | zero => exact absurd hk not_yields_zero
  | succ k ih =>
      cases hpoll : d.poll size order with
      | error f => exact absurd ⟨k + 1, e, hk⟩ (not_yields_of_error hpoll)
      | ok r =>
          obtain ⟨r, d'⟩ := r
          have hweight := poll_weight hpoll
          rw [drive, hpoll] at hk
          simp only at hk
          split at hk
          · cases hk
          · rename_i items e' hitems
            rcases r with err | item | -
            · cases hk
              exact (ih hitems).trans (by omega)
            · simp only [Except.ok.injEq, Prod.mk.injEq] at hk
              obtain ⟨hlist, rfl⟩ := hk
              cases ps with
              | nil => simp [wire]
              | cons p rest =>
                  simp only [List.map_cons, List.cons_append, List.cons.injEq] at hlist
                  obtain ⟨rfl, rfl⟩ := hlist
                  have hrest := ih hitems
                  rw [wire_cons, List.length_append, List.length_append, length_bytesFor]
                  simp only [answerCost] at hweight
                  omega
            · cases hk
              exact (ih hitems).trans (by omega)

/-- The decoder between two frames. -/
def waiting (data : List UInt8) (chunks : List (Async (List UInt8))) : Decoder :=
  ⟨chunks.map .ok, .pending, data⟩

/-- The decoder in the middle of a payload of `n` bytes. -/
def collecting (n : Nat) (data : List UInt8) (chunks : List (Async (List UInt8))) : Decoder :=
  ⟨chunks.map .ok, .more n, data⟩

theorem weight_waiting (data : List UInt8) (chunks : List (Async (List UInt8))) :
    (waiting data chunks).weight size = (data ++ arrived chunks).length := by
  have h : pendingBytes (chunks.map .ok) = (arrived chunks).length := by
    induction chunks with
    | nil => rfl
    | cons a rest ih =>
        cases a <;> simpa [pendingBytes, arrived] using ih
  rw [List.length_append, ← h]
  rfl

theorem cut_header {data rest p : List UInt8} {ps : List (List UInt8)}
    (hfit : p.length < 256 ^ size) (hsize : size ≤ data.length)
    (h : data ++ rest = wire size order (p :: ps)) :
    header size order data = p.length ∧ data.drop size ++ rest = p ++ wire size order ps := by
  rw [wire_cons] at h
  have hlen := length_bytesFor order size p.length
  have htake := congrArg (List.take size) h
  have hdrop := congrArg (List.drop size) h
  rw [List.take_append_of_le_length hsize, List.take_left' hlen] at htake
  rw [List.drop_append_of_le_length hsize, List.drop_left' hlen] at hdrop
  exact ⟨by rw [header, htake, valueOf_bytesFor order hfit], hdrop⟩

theorem cut_payload {body rest p w : List UInt8} (hlen : p.length ≤ body.length)
    (h : body ++ rest = p ++ w) : body.take p.length = p ∧ body.drop p.length ++ rest = w := by
  have htake := congrArg (List.take p.length) h
  have hdrop := congrArg (List.drop p.length) h
  rw [List.take_append_of_le_length hlen, List.take_left' rfl] at htake
  rw [List.drop_append_of_le_length hlen, List.drop_left' rfl] at hdrop
  exact ⟨htake, hdrop⟩

theorem clear_cons {c : Nat} {chunks : List Nat} {p : List UInt8} {ps : List (List UInt8)}
    (hc : 0 < c) :
    Clear size (c :: chunks) 0 (p :: ps) ↔
      (size + p.length ≤ c ∨ size ≤ c ∧ c < p.length) ∧
        Clear size (c :: chunks) (0 + (size + p.length)) ps := by
  simp [Clear, available, hc]

theorem poll_waiting_short {data chunk : List UInt8} {rest : List (Async (List UInt8))}
    (hdata : data.length < size) (hchunk : chunk.length < size) :
    (waiting data (.ready chunk :: rest)).poll size order =
      .ok (.ok .notReady, waiting chunk rest) := by
  simp [poll, waiting, pollPending, hdata, hchunk]

theorem yields_pulled {data chunk : List UInt8} {rest : List (Async (List UInt8))}
    (hdata : data.length < size) (ps : List (List UInt8)) :
    (waiting data (.ready chunk :: rest)).Yields size order ps ↔
      (waiting chunk rest).Yields size order ps := by
  by_cases hchunk : chunk.length < size
  · exact yields_quiet ps (poll_waiting_short hdata hchunk)
  · by_cases hle : header size order chunk ≤ chunk.length
    · apply yields_congr
      simp [poll, waiting, pollPending, hdata, hchunk, hle]
    · have hquiet : (waiting data (.ready chunk :: rest)).poll size order =
          .ok (.ok .notReady,
            collecting (header size order chunk) (chunk.drop size) rest) := by
        simp [poll, waiting, collecting, pollPending, hdata, hchunk, hle]
      rw [yields_quiet ps hquiet]
      apply yields_congr
      simp [poll, waiting, collecting, hchunk, hle]

theorem not_clear_of_short {data : List UInt8} {chunks : List Nat} {ps : List (List UInt8)}
    {rest : List UInt8} (hdata : 0 < data.length) (hshort : data.length < size)
    (h : data ++ rest = wire size order ps) :
    ¬ Clear size (data.length :: chunks) 0 ps := by
  cases ps with
  | nil =>
      have := congrArg List.length h
      simp only [wire, List.flatMap_nil, List.length_append, List.length_nil] at this
      omega
  | cons p ps =>
      rw [clear_cons hdata]
      rintro ⟨hp | hp, -⟩ <;> omega

theorem yields_waiting_nil {data : List UInt8} {ps : List (List UInt8)} (hdata : data.length < size)
    (hwire : data ++ arrived [] = wire size order ps) :
    (waiting data []).Yields size order ps ↔ Clear size (data.length :: chunkSizes []) 0 ps := by
  have hend : (waiting data []).poll size order = .ok (.ok (.ready none), ⟨[], .done, data⟩) := by
    simp [poll, waiting, pollPending, hdata]
  rw [yields_end ps hend]
  cases ps with
  | nil => simp [Clear]
  | cons p ps =>
      have hlen := congrArg List.length hwire
      rw [wire_cons] at hlen
      simp only [arrived, List.flatMap_nil, List.append_nil, List.length_append,
        length_bytesFor] at hlen
      omega

/-- The bytes in `data` are lost, so there are too few left. -/
theorem not_yields_of_lost {data chunk : List UInt8} {rest : List (Async (List UInt8))}
    {ps : List (List UInt8)} (hdata : 0 < data.length)
    (hwire : data ++ arrived (.ready chunk :: rest) = wire size order ps) :
    ¬ (waiting chunk rest).Yields size order ps := by
  intro hyields
  have hle := wire_le_weight hyields
  have hlen := congrArg List.length hwire
  rw [weight_waiting] at hle
  simp only [arrived, List.flatMap_cons, List.length_append] at hle hlen
  omega

section Header

variable {data p : List UInt8} {chunks : List (Async (List UInt8))} {ps : List (List UInt8)}

theorem yields_whole (hpos : 0 < size) (hheader : header size order data = p.length)
    (hbody : data.drop size ++ arrived chunks = p ++ wire size order ps)
    (hwhole : size + p.length ≤ data.length)
    (ih : (waiting ((data.drop size).drop p.length) chunks).Yields size order ps ↔
      Clear size (((data.drop size).drop p.length).length :: chunkSizes chunks) 0 ps) :
    (waiting data chunks).Yields size order (p :: ps) ↔
      Clear size (data.length :: chunkSizes chunks) 0 (p :: ps) := by
  have hbody' : p.length ≤ (data.drop size).length := by
    rw [List.length_drop]
    omega
  obtain ⟨hitem, -⟩ := cut_payload hbody' hbody
  have hdata : ¬ data.length < size := by omega
  have hle : p.length ≤ data.length := by omega
  have hpoll : (waiting data chunks).poll size order =
      .ok (.ok (.ready (some p)), waiting ((data.drop size).drop p.length) chunks) := by
    simp only [poll, waiting, if_neg hdata, hheader, if_pos hle, if_pos hbody', hitem]
  rw [yields_item _ hpoll, clear_cons (by omega), clear_shift 0 hwhole]
  simp only [List.length_drop, Nat.sub_sub] at ih
  rw [← ih]
  constructor
  · rintro ⟨rest, heq, hy⟩
    cases heq
    exact ⟨.inl hwhole, hy⟩
  · rintro ⟨-, hy⟩
    exact ⟨ps, rfl, hy⟩

theorem yields_overrun (hheader : header size order data = p.length)
    (hsize : size ≤ data.length) (hle : p.length ≤ data.length)
    (hoverrun : data.length < size + p.length) :
    (waiting data chunks).Yields size order (p :: ps) ↔
      Clear size (data.length :: chunkSizes chunks) 0 (p :: ps) := by
  have hpoll : (waiting data chunks).poll size order = .error .unreachable := by
    have hbody : ¬ p.length ≤ (data.drop size).length := by
      rw [List.length_drop]
      omega
    simp only [poll, waiting, if_neg (Nat.not_lt.mpr hsize), hheader, if_pos hle, if_neg hbody]
  refine iff_of_false (not_yields_of_error hpoll) ?_
  rw [clear_cons (by omega)]
  rintro ⟨hp | hp, -⟩ <;> omega

theorem yields_begun (hpos : 0 < size) (hheader : header size order data = p.length)
    (hsize : size ≤ data.length) (hlong : data.length < p.length)
    (ih : (collecting p.length (data.drop size) chunks).Yields size order (p :: ps) ↔
      Clear size (chunkSizes chunks) (p.length - (data.drop size).length) ps) :
    (waiting data chunks).Yields size order (p :: ps) ↔
      Clear size (data.length :: chunkSizes chunks) 0 (p :: ps) := by
  have hcongr : (waiting data chunks).poll size order =
      (collecting p.length (data.drop size) chunks).poll size order := by
    simp only [poll, waiting, collecting, if_neg (Nat.not_lt.mpr hsize), hheader,
      if_neg (Nat.not_le.mpr hlong)]
  have hoff : 0 + (size + p.length) = (p.length - (data.drop size).length) + data.length := by
    rw [List.length_drop]
    omega
  rw [yields_congr hcongr, ih, clear_cons (by omega), hoff, clear_skip]
  constructor
  · intro hclear
    exact ⟨.inr ⟨hsize, hlong⟩, hclear⟩
  · exact fun h => h.2

end Header

mutual

/-- Between two frames: the remaining payloads come out exactly when the rest of
the stream is cut clear of their headers. -/
theorem yields_waiting (hpos : 0 < size) (data : List UInt8)
    (chunks : List (Async (List UInt8))) (ps : List (List UInt8))
    (hfit : ∀ p ∈ ps, p.length < 256 ^ size)
    (hwire : data ++ arrived chunks = wire size order ps) :
    (waiting data chunks).Yields size order ps ↔
      Clear size (data.length :: chunkSizes chunks) 0 ps := by
  by_cases hdata : data.length < size
  · match chunks with
    | [] => exact yields_waiting_nil hdata hwire
    | .notReady :: rest =>
        have hquiet : (waiting data (.notReady :: rest)).poll size order =
            .ok (.ok .notReady, waiting data rest) := by
          simp [poll, waiting, pollPending, hdata]
        rw [yields_quiet ps hquiet]
        exact yields_waiting hpos data rest ps hfit hwire
    | .ready chunk :: rest =>
        rw [yields_pulled hdata]
        by_cases hnil : data = []
        · subst hnil
          have hwire' : chunk ++ arrived rest = wire size order ps := hwire
          rw [yields_waiting hpos chunk rest ps hfit hwire']
          exact (clear_zero 0).symm
        · have hdata' : 0 < data.length := List.length_pos_of_ne_nil hnil
          exact iff_of_false (not_yields_of_lost hdata' hwire)
            (not_clear_of_short hdata' hdata hwire)
  · have hsize : size ≤ data.length := Nat.le_of_not_lt hdata
    cases ps with
    | nil =>
        have hlen := congrArg List.length hwire
        simp only [wire, List.flatMap_nil, List.length_append, List.length_nil] at hlen
        omega
    | cons p ps =>
        obtain ⟨hheader, hbody⟩ := cut_header (hfit p (by simp)) hsize hwire
        have hfit' : ∀ q ∈ ps, q.length < 256 ^ size := fun q hq => hfit q (by simp [hq])
        by_cases hle : p.length ≤ data.length
        · by_cases hwhole : size + p.length ≤ data.length
          · have hbody' : p.length ≤ (data.drop size).length := by
              rw [List.length_drop]
              omega
            obtain ⟨-, hrest⟩ := cut_payload hbody' hbody
            exact yields_whole hpos hheader hbody hwhole
              (yields_waiting hpos _ chunks ps hfit' hrest)
          · exact yields_overrun hheader hsize hle (Nat.lt_of_not_le hwhole)
        · have hlong : data.length < p.length := Nat.lt_of_not_le hle
          have hbody' : (data.drop size).length < p.length := by
            rw [List.length_drop]
            omega
          exact yields_begun hpos hheader hsize hlong
            (yields_collecting hpos _ chunks p ps hfit' hbody' hbody)
termination_by chunks.length + ps.length

theorem yields_collecting (hpos : 0 < size) (data : List UInt8)
    (chunks : List (Async (List UInt8))) (p : List UInt8) (ps : List (List UInt8))
    (hfit : ∀ q ∈ ps, q.length < 256 ^ size) (hshort : data.length < p.length)
    (hwire : data ++ arrived chunks = p ++ wire size order ps) :
    (collecting p.length data chunks).Yields size order (p :: ps) ↔
      Clear size (chunkSizes chunks) (p.length - data.length) ps := by
  match chunks with
  | [] =>
      have hlen := congrArg List.length hwire
      simp only [arrived, List.flatMap_nil, List.append_nil, List.length_append] at hlen
      omega
  | .notReady :: rest =>
      have hquiet : (collecting p.length data (.notReady :: rest)).poll size order =
          .ok (.ok .notReady, collecting p.length data rest) := by
        simp [poll, collecting, pollMore]
      rw [yields_quiet _ hquiet]
      exact yields_collecting hpos data rest p ps hfit hshort hwire
  | .ready chunk :: rest =>
      have hwire' : (data ++ chunk) ++ arrived rest = p ++ wire size order ps := by
        rw [List.append_assoc]
        exact hwire
      by_cases hle : p.length ≤ (data ++ chunk).length
      · obtain ⟨hitem, hrest⟩ := cut_payload hle hwire'
        have hpoll : (collecting p.length data (.ready chunk :: rest)).poll size order =
            .ok (.ok (.ready (some p)), waiting ((data ++ chunk).drop p.length) rest) := by
          simp only [poll, collecting, waiting, pollMore, List.map_cons, if_pos hle, hitem]
        have ih := yields_waiting hpos _ rest ps hfit hrest
        have hlen : ((data ++ chunk).drop p.length).length =
            chunk.length - (p.length - data.length) := by
          rw [List.length_drop, List.length_append]
          omega
        have hle' : p.length - data.length ≤ chunk.length := by
          rw [List.length_append] at hle
          omega
        rw [hlen, ← clear_shift 0 hle', Nat.zero_add] at ih
        rw [yields_item _ hpoll]
        constructor
        · rintro ⟨tail, heq, hy⟩
          cases heq
          exact ih.mp hy
        · exact fun hclear => ⟨ps, rfl, ih.mpr hclear⟩
      · have hquiet : (collecting p.length data (.ready chunk :: rest)).poll size order =
            .ok (.ok .notReady, collecting p.length (data ++ chunk) rest) := by
          simp only [poll, collecting, pollMore, List.map_cons, if_neg hle]
        rw [yields_quiet _ hquiet,
          yields_collecting hpos (data ++ chunk) rest p ps hfit (by omega) hwire']
        have hoff : p.length - data.length =
            (p.length - (data ++ chunk).length) + chunk.length := by
          rw [List.length_append] at hle ⊢
          omega
        rw [hoff]
        exact (clear_skip _).symm
termination_by chunks.length + ps.length

end

/-- The bytes the next poll reads a header from, if it reads one. -/
def headed (size : Nat) (d : Decoder) : Option (List UInt8) :=
  match d.state with
  | .pending =>
      if d.data.length < size then
        match d.answers with
        | .ok (.ready chunk) :: _ => if chunk.length < size then none else some chunk
        | _ => none
      else
        some d.data
  | _ => none

/-- The next poll reads a header whose payload is longer than what follows the
header in the buffer, but no longer than the buffer with the header. -/
def Overrun (size : Nat) (order : Endian) (d : Decoder) : Prop :=
  ∃ bytes, d.headed size = some bytes ∧ header size order bytes ≤ bytes.length ∧
    bytes.length < size + header size order bytes

theorem poll_error_iff (d : Decoder) :
    (∃ f, d.poll size order = .error f) ↔ d.Overrun size order := by
  obtain ⟨answers, state, data⟩ := d
  cases state with
  | done => simp [poll, Overrun, headed]
  | more n => simp [poll, Overrun, headed]
  | pending =>
      by_cases hdata : data.length < size
      · match answers with
        | [] | .error e :: rest | .ok .notReady :: rest =>
            simp [poll, pollPending, Overrun, headed, hdata]
        | .ok (.ready chunk) :: rest =>
            by_cases hchunk : chunk.length < size
            · simp [poll, pollPending, Overrun, headed, hdata, hchunk]
            · simp only [poll, pollPending, Overrun, headed, if_pos hdata, if_neg hchunk,
                Option.some.injEq, exists_eq_left', List.length_drop]
              split
              · split
                · simp
                  omega
                · simp
                  omega
              · simp
                omega
      · simp only [poll, Overrun, headed, if_neg hdata, Option.some.injEq, exists_eq_left',
          List.length_drop]
        split
        · split
          · simp
            omega
          · simp
            omega
        · simp
          omega

end Decoder

theorem drive_anchored {target : Endian} {a : Adapter} {k : Nat} {p q : Prefix Script}
    {items : List (Option ByteBuf)} (hanchor : p.Anchored)
    (h : a.drive target k p = .ok (items, q)) : q.Anchored := by
  induction k generalizing p items with
  | zero =>
      cases h
      exact hanchor
  | succ k ih =>
      rw [Adapter.drive] at h
      split at h
      · cases h
      · rename_i r p' hpoll
        have hanchor' : p'.Anchored :=
          pollWith_anchored a.size_cases hanchor ((a.poll_eq target p).symm.trans hpoll)
        split at h
        · cases h
        · rename_i items' q' hdrive
          split at h
          · cases h
            exact ih hanchor' hdrive
          · cases h
            exact ih hanchor' hdrive

theorem drive_error_iff {target : Endian} {a : Adapter} (p : Prefix Script) (k : Nat) :
    (∃ f, a.drive target k p = .error f) ↔
      ∃ j < k, ∃ items q, a.drive target j p = .ok (items, q) ∧
        ∃ f, a.poll target q = .error f := by
  induction k generalizing p with
  | zero => simp [Adapter.drive]
  | succ k ih =>
      cases hpoll : a.poll target p with
      | error f =>
          constructor
          · intro _
            exact ⟨0, Nat.succ_pos k, [], p, rfl, f, hpoll⟩
          · intro _
            exact ⟨f, by rw [Adapter.drive, hpoll]⟩
      | ok r =>
          obtain ⟨r, p'⟩ := r
          have hrest : (∃ f, a.drive target (k + 1) p = .error f) ↔
              ∃ f, a.drive target k p' = .error f := by
            rw [Adapter.drive, hpoll]
            simp only
            cases a.drive target k p' with
            | error f => simp
            | ok res =>
                obtain ⟨items, q⟩ := res
                simp only
                split <;> simp
          rw [hrest, ih]
          constructor
          · rintro ⟨j, hj, items, q, hdrive, herr⟩
            refine ⟨j + 1, Nat.succ_lt_succ hj, ?_⟩
            rw [Adapter.drive, hpoll]
            simp only [hdrive]
            split
            · exact ⟨_, q, rfl, herr⟩
            · exact ⟨_, q, rfl, herr⟩
          · rintro ⟨j, hj, items, q, hdrive, herr⟩
            cases j with
            | zero =>
                cases hdrive
                obtain ⟨f, hf⟩ := herr
                rw [hpoll] at hf
                cases hf
            | succ j =>
                rw [Adapter.drive, hpoll] at hdrive
                simp only at hdrive
                split at hdrive
                · cases hdrive
                · rename_i items' q' hj'
                  refine ⟨j, Nat.lt_of_succ_lt_succ hj, items', q, ?_, herr⟩
                  rw [hj']
                  split at hdrive <;> cases hdrive <;> rfl

/-- No sequence of polls takes an `unreachable` arm, exactly when no poll meets a
header that overruns the buffer. -/
theorem never_unreachable_iff (target : Endian) (a : Adapter) (answers : List (Poll ByteBuf)) :
    (∀ k f, a.drive target k (Prefix.new ⟨answers⟩) ≠ .error f) ↔
      ∀ k items q, a.drive target k (Prefix.new ⟨answers⟩) = .ok (items, q) →
        ¬ q.view.Overrun a.size a.order := by
  have hpoll : ∀ {k items q}, a.drive target k (Prefix.new ⟨answers⟩) = .ok (items, q) →
      ((∃ f, a.poll target q = .error f) ↔ q.view.Overrun a.size a.order) := by
    intro k items q hdrive
    have hanchor := drive_anchored (Prefix.anchored_new ⟨answers⟩) hdrive
    have hview : (q.pollWith a.size (readFixed a.size a.order target)).map Prefix.observe =
        q.view.poll a.size a.order := pollWith_view a.size_cases hanchor
    rw [← Decoder.poll_error_iff, ← hview, ← a.poll_eq target]
    cases a.poll target q <;> simp [Except.map]
  constructor
  · intro hnever k items q hdrive hover
    obtain ⟨f, hf⟩ := (drive_error_iff _ (k + 1)).mpr
      ⟨k, Nat.lt_succ_self k, items, q, hdrive, (hpoll hdrive).mpr hover⟩
    exact hnever (k + 1) f hf
  · intro hclear k f hf
    obtain ⟨j, -, items, q, hdrive, herr⟩ := (drive_error_iff _ k).mp ⟨f, hf⟩
    exact hclear j items q hdrive ((hpoll hdrive).mp herr)

/-- One poll of a two-byte stream, a header with nothing behind it, is enough. -/
theorem unreachable_after_header :
    ¬ ∀ k f, Adapter.u16be.drive .little k
      (Prefix.new (Script.mk [.ok (.ready (ByteBuf.ofVec 0 [0, 1] []))])) ≠ .error f := by
  intro hnever
  exact hnever 1 .unreachable rfl

/-- A chunk of a script, as its content. -/
def chunkBytes : Async ByteBuf → Async (List UInt8)
  | .ready chunk => .ready chunk.content
  | .notReady => .notReady

/-- The adapter, polled often enough over this inner stream, gives exactly these
payloads and then `None`. -/
def Adapter.Delivers (target : Endian) (a : Adapter) (script : List (Async ByteBuf))
    (payloads : List (List UInt8)) : Prop :=
  ∃ k items q, a.drive target k (Prefix.new ⟨script.map .ok⟩) = .ok (items, q) ∧
    items.map (Option.map ByteBuf.content) = payloads.map some ++ [none]

theorem view_new (script : List (Async ByteBuf)) :
    (Prefix.new ⟨script.map .ok⟩).view = Decoder.waiting [] (script.map chunkBytes) := by
  have h : ((script.map Except.ok).map (mapPoll ByteBuf.content) : List (Poll (List UInt8))) =
      (script.map chunkBytes).map Except.ok := by
    rw [List.map_map, List.map_map]
    refine List.map_congr_left fun x _ => ?_
    cases x <;> rfl
  simp only [Prefix.view, Prefix.new, Decoder.waiting, h, ByteBuf.content_new]

theorem delivers_iff_yields (target : Endian) (a : Adapter) (script : List (Async ByteBuf))
    (payloads : List (List UInt8)) :
    a.Delivers target script payloads ↔
      (Decoder.waiting [] (script.map chunkBytes)).Yields a.size a.order payloads := by
  have hview : ∀ k, (a.drive target k (Prefix.new ⟨script.map .ok⟩)).map Prefix.observeRun =
      (Decoder.waiting [] (script.map chunkBytes)).drive a.size a.order k := by
    intro k
    rw [← view_new]
    exact drive_view target a k (Prefix.anchored_new _)
  constructor
  · rintro ⟨k, items, q, hdrive, hitems⟩
    refine ⟨k, q.view, ?_⟩
    rw [← hview, hdrive, Except.map, Prefix.observeRun, hitems]
  · rintro ⟨k, e, hk⟩
    rw [← hview] at hk
    cases hdrive : a.drive target k (Prefix.new ⟨script.map .ok⟩) with
    | error f =>
        rw [hdrive] at hk
        cases hk
    | ok r =>
        obtain ⟨items, q⟩ := r
        rw [hdrive] at hk
        simp only [Except.map, Prefix.observeRun, Except.ok.injEq, Prod.mk.injEq] at hk
        exact ⟨k, items, q, hdrive, hk.1⟩

/-- The adapter turns a well-formed stream back into its payloads exactly when
the chunks are cut clear of the headers. -/
theorem delivers_iff_clear (target : Endian) (a : Adapter) (script : List (Async ByteBuf))
    (payloads : List (List UInt8)) (hfit : ∀ p ∈ payloads, p.length < 256 ^ a.size)
    (hwire : arrived (script.map chunkBytes) = wire a.size a.order payloads) :
    a.Delivers target script payloads ↔
      Clear a.size (chunkSizes (script.map chunkBytes)) 0 payloads := by
  rw [delivers_iff_yields, Decoder.yields_waiting a.size_pos [] _ payloads hfit hwire]
  exact clear_zero 0

/-- A script of two chunks, the second one holding what the first lacks. -/
def twoChunks (first second : List UInt8) : List (Async ByteBuf) :=
  [.ready (ByteBuf.ofVec 0 first []), .notReady, .ready (ByteBuf.ofVec 1 second [])]

theorem delivers_long_payload :
    Adapter.u16be.Delivers .little (twoChunks [0, 5, 1] [2, 3, 4, 5]) [[1, 2, 3, 4, 5]] :=
  (delivers_iff_clear .little .u16be (twoChunks [0, 5, 1] [2, 3, 4, 5]) [[1, 2, 3, 4, 5]]
    (by decide) (by decide)).mpr (by decide)

/-- A header alone in its chunk, before a payload of one byte. -/
theorem not_delivers_header_alone :
    (∀ p ∈ [[(7 : UInt8)]], p.length < 256 ^ Adapter.u16be.size) ∧
      arrived ((twoChunks [0, 1] [7]).map chunkBytes) =
        wire Adapter.u16be.size Adapter.u16be.order [[7]] ∧
      ¬ Adapter.u16be.Delivers .little (twoChunks [0, 1] [7]) [[7]] := by
  refine ⟨by decide, by decide, ?_⟩
  rintro ⟨k, items, q, hdrive, hitems⟩
  cases k with
  | zero =>
      cases hdrive
      cases hitems
  | succ k =>
      have hpoll : Adapter.u16be.poll .little
          (Prefix.new (Script.mk ((twoChunks [0, 1] [7]).map .ok))) = .error .unreachable := rfl
      rw [Adapter.drive, hpoll] at hdrive
      cases hdrive

end Ruyi.Proto
