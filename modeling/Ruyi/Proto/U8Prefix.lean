import Ruyi.Buf.Cursor
import Ruyi.Proto.Framing

namespace Ruyi.Buf

def u8.read (buf : ByteBuf) : Except Error Nat × ByteBuf :=
  buf.readWith readByteBody (fun _ => .error .underflow) ()

theorem forBlocks_readByte (blocks : List Block) :
    (bytesOf blocks = [] ∧ ∃ blocks',
        forBlocks readByteBody (fun _ => Except.error Error.underflow) () blocks =
          (.error .underflow, blocks', blocks'.length)) ∨
      ∃ byte bytes, bytesOf blocks = byte :: bytes ∧ ∃ blocks' moved,
        forBlocks readByteBody (fun _ => Except.error Error.underflow) () blocks =
          (.ok byte.toNat, blocks', moved) ∧
        bytesOf (blocks'.drop moved) = bytes ∧ moved < blocks'.length := by
  induction blocks with
  | nil => exact .inl ⟨rfl, [], rfl⟩
  | cons block rest ih =>
      rw [forBlocks, bytesOf_cons]
      by_cases hempty : block.isEmpty = true
      · have hnil := Block.asBytes_of_isEmpty hempty
        rw [if_pos hempty, hnil, List.nil_append]
        rcases ih with ⟨hbytes, blocks', hrun⟩ | ⟨byte, bytes, hbytes, blocks', moved, hrun, hrest⟩
        · exact .inl ⟨hbytes, block :: blocks', by rw [hrun, List.length_cons]⟩
        · exact .inr ⟨byte, bytes, hbytes, block :: blocks', moved + 1, by rw [hrun], hrest.1,
            Nat.succ_lt_succ hrest.2⟩
      · have hpos : 0 < block.asBytes.length := by
          have hne := mt (Block.isEmpty_iff block).mpr hempty
          rw [Block.length_asBytes]
          omega
        obtain ⟨byte, bytes, hbytes⟩ := List.exists_cons_of_length_pos hpos
        rw [if_neg hempty]
        refine .inr ⟨byte, bytes ++ bytesOf rest, by rw [hbytes]; rfl,
          block.consume 1 :: rest, 0, ?_, ?_, Nat.zero_lt_succ _⟩
        · simp only [readByteBody, hbytes, List.headD_cons]
        · rw [List.drop_zero, bytesOf_cons, Block.asBytes_consume, hbytes]
          rfl

theorem u8.read_cases (buf : ByteBuf) :
    (buf.content = [] ∧ ∃ buf', u8.read buf = (.error .underflow, buf') ∧ buf'.content = []) ∨
      ∃ byte bytes, buf.content = byte :: bytes ∧ ∃ buf',
        u8.read buf = (.ok byte.toNat, buf') ∧ buf'.content = bytes ∧
          buf'.idx < buf'.blocks.length := by
  have hcontent := buf.content_readWith readByteBody (fun _ => Except.error Error.underflow) ()
  rcases forBlocks_readByte (buf.blocks.drop buf.idx) with
    ⟨hnil, blocks', hrun⟩ | ⟨byte, bytes, hbytes, blocks', moved, hrun, hrest, hmoved⟩
  · have hresult := congrArg Prod.fst hrun
    rw [hrun, List.drop_length] at hcontent
    exact .inl ⟨hnil, (u8.read buf).2, Prod.ext hresult rfl, hcontent⟩
  · have hresult := congrArg Prod.fst hrun
    rw [hrun] at hcontent
    refine .inr ⟨byte, bytes, hbytes, (u8.read buf).2, Prod.ext hresult rfl,
      hcontent.trans hrest, ?_⟩
    have hidx := buf.idx_le
    simp only [u8.read, ByteBuf.readWith]
    rw [hrun, List.length_append, List.length_take]
    dsimp only
    omega

end Ruyi.Buf

namespace Ruyi.Proto

open Ruyi.Buf

namespace U8Prefix

variable {S : Type} [Stream S]

/-- `poll_pending` of `U8Prefix`, whose `poll_more` is the one of the other adapters. -/
def pollPending (self : Prefix S) : Poll (Option ByteBuf) × Prefix S :=
  match Stream.poll self.stream with
  | (.error e, stream) => (.error e, { self with stream })
  | (.ok .notReady, stream) => (.ok .notReady, { self with stream })
  | (.ok (.ready (some pulled)), stream) =>
      match u8.read pulled with
      | (.ok n, data) =>
          match data.drainTo n with
          | .ok (t, data) => (.ok (.ready (some t)), { self with stream, data })
          | .error _ => (.ok .notReady, { stream, state := .more n, data })
      | (.error _, data) => (.ok .notReady, { self with stream, data })
  | (.ok (.ready none), stream) => (.ok (.ready none), { self with stream, state := .done })

def poll (self : Prefix S) : Poll (Option ByteBuf) × Prefix S :=
  match self.state with
  | .pending =>
      match u8.read self.data with
      | (.ok n, data) =>
          match data.drainTo n with
          | .ok (t, data) => (.ok (.ready (some t)), { self with data })
          | .error _ => Prefix.pollMore { self with state := .more n, data } n
      | (.error _, data) => pollPending { self with data }
  | .more n => self.pollMore n
  | .done => (.ok (.ready none), self)

/-- A run of polls: the answers other than `NotReady` and errors, in order. -/
def drive : Nat → Prefix S → List (Option ByteBuf) × Prefix S
  | 0, p => ([], p)
  | k + 1, p =>
      let r := poll p
      let others := drive k r.2
      match r.1 with
      | .ok (.ready item) => (item :: others.1, others.2)
      | _ => others

/-- What is sent for one payload: its length in one byte, then its bytes. -/
def frames (payloads : List (List UInt8)) : List UInt8 :=
  payloads.flatMap fun payload => UInt8.ofNat payload.length :: payload

/-- Polled often enough, the adapter gives these payloads, and then `None`. -/
def Delivers (p : Prefix S) (payloads : List (List UInt8)) : Prop :=
  ∃ k, (drive k p).1.map (Option.map ByteBuf.content) = payloads.map some ++ [none] ∧
    (drive k p).2.state = .done

section

variable {p q : Prefix S} {payloads : List (List UInt8)}

theorem delivers_of_quiet (h : poll p = (.ok .notReady, q)) (hq : Delivers q payloads) :
    Delivers p payloads := by
  obtain ⟨k, hitems, hstate⟩ := hq
  refine ⟨k + 1, ?_⟩
  rw [drive, h]
  exact ⟨hitems, hstate⟩

theorem delivers_of_item {item : ByteBuf} (h : poll p = (.ok (.ready (some item)), q))
    (hq : Delivers q payloads) : Delivers p (item.content :: payloads) := by
  obtain ⟨k, hitems, hstate⟩ := hq
  refine ⟨k + 1, ?_⟩
  rw [drive, h]
  exact ⟨congrArg (some item.content :: ·) hitems, hstate⟩

theorem delivers_of_end (h : poll p = (.ok (.ready none), q)) (hq : q.state = .done) :
    Delivers p [] := by
  refine ⟨1, ?_⟩
  rw [drive, h]
  exact ⟨rfl, hq⟩

end

/-- The adapter between two frames, or in the middle of the first of these payloads: what it has
and the chunks that are to come make up the rest of the stream. -/
inductive Feeds (p : Prefix Script) (chunks : List (Async ByteBuf)) :
    List (List UInt8) → Prop where
  | waiting {payloads : List (List UInt8)} (stream_eq : p.stream = ⟨chunks.map .ok⟩)
      (state_eq : p.state = .pending)
      (bytes_eq : p.data.content ++ arrived (chunks.map chunkBytes) = frames payloads) :
      Feeds p chunks payloads
  | collecting {payload : List UInt8} {payloads : List (List UInt8)}
      (stream_eq : p.stream = ⟨chunks.map .ok⟩) (state_eq : p.state = .more payload.length)
      (idx_lt : p.data.idx < p.data.blocks.length)
      (short : p.data.content.length < payload.length)
      (bytes_eq : p.data.content ++ arrived (chunks.map chunkBytes) =
        payload ++ frames payloads) :
      Feeds p chunks (payload :: payloads)

/-- What a poll can come to while the stream of these payloads arrives. -/
inductive Progress (chunks : List (Async ByteBuf)) :
    List (List UInt8) → Poll (Option ByteBuf) × Prefix Script → Prop where
  | ended {q : Prefix Script} (state_eq : q.state = .done) :
      Progress chunks [] (.ok (.ready none), q)
  | quiet {payloads : List (List UInt8)} {q : Prefix Script} {rest : List (Async ByteBuf)}
      (shorter : rest.length < chunks.length) (feeds : Feeds q rest payloads) :
      Progress chunks payloads (.ok .notReady, q)
  | item {payload : List UInt8} {payloads : List (List UInt8)} {t : ByteBuf}
      {q : Prefix Script} {rest : List (Async ByteBuf)} (shorter : rest.length ≤ chunks.length)
      (content_eq : t.content = payload) (feeds : Feeds q rest payloads) :
      Progress chunks (payload :: payloads) (.ok (.ready (some t)), q)

theorem pollMore_progress {p : Prefix Script} {chunks : List (Async ByteBuf)}
    {payload : List UInt8} {payloads : List (List UInt8)}
    (hstream : p.stream = ⟨chunks.map .ok⟩) (hstate : p.state = .more payload.length)
    (hidx : p.data.idx < p.data.blocks.length)
    (hshort : p.data.content.length < payload.length)
    (hbytes : p.data.content ++ arrived (chunks.map chunkBytes) = payload ++ frames payloads) :
    Progress chunks (payload :: payloads) (p.pollMore payload.length) := by
  obtain ⟨stream, state, data⟩ := p
  cases hstream
  cases hstate
  match chunks with
  | [] =>
      have hlen := congrArg List.length hbytes
      simp only [List.map_nil, arrived, List.flatMap_nil, List.append_nil,
        List.length_append] at hlen
      dsimp only at hshort
      omega
  | .notReady :: rest =>
      exact .quiet (Nat.lt_succ_self _) (.collecting rfl rfl hidx hshort hbytes)
  | .ready chunk :: rest =>
      have hidx' : (data.extend chunk).idx < (data.extend chunk).blocks.length := by
        simp only [ByteBuf.extend, List.length_append]
        exact Nat.lt_add_right _ hidx
      have hcontent := ByteBuf.content_extend data chunk
      have hbytes' : (data.content ++ chunk.content) ++ arrived (rest.map chunkBytes) =
          payload ++ frames payloads := by
        rw [List.append_assoc]
        exact hbytes
      simp only [Prefix.pollMore, Stream.poll, List.map_cons]
      rcases drainTo_cases hidx' hcontent payload.length with
        ⟨hle, head, tail, hdrain, hhead, htail⟩ | ⟨hlt, hdrain⟩
      · obtain ⟨hitem, hrest⟩ := Decoder.cut_payload hle hbytes'
        rw [hdrain]
        refine .item (Nat.le_succ _) (hhead.trans hitem) (.waiting rfl rfl ?_)
        rw [htail]
        exact hrest
      · rw [hdrain]
        refine .quiet (Nat.lt_succ_self _) (.collecting rfl rfl hidx' ?_ ?_)
        · rw [hcontent]
          exact Nat.lt_of_not_le hlt
        · rw [hcontent]
          exact hbytes'

theorem cut_length {byte : UInt8} {bytes rest : List UInt8} {payloads : List (List UInt8)}
    (hfit : ∀ p ∈ payloads, p.length ≤ 255) (h : byte :: bytes ++ rest = frames payloads) :
    ∃ payload payloads', payloads = payload :: payloads' ∧ byte.toNat = payload.length ∧
      bytes ++ rest = payload ++ frames payloads' := by
  cases payloads with
  | nil => cases h
  | cons payload payloads =>
      obtain ⟨hbyte, hbytes⟩ := List.cons.inj h
      refine ⟨payload, payloads, rfl, ?_, hbytes⟩
      have := hfit payload List.mem_cons_self
      rw [hbyte, UInt8.toNat_ofNat']
      omega

theorem pollPending_progress {p : Prefix Script} {chunks : List (Async ByteBuf)}
    {payloads : List (List UInt8)} (hfit : ∀ p ∈ payloads, p.length ≤ 255)
    (hstream : p.stream = ⟨chunks.map .ok⟩) (hstate : p.state = .pending)
    (hnil : p.data.content = []) (hbytes : arrived (chunks.map chunkBytes) = frames payloads) :
    Progress chunks payloads (pollPending p) := by
  obtain ⟨stream, state, data⟩ := p
  cases hstream
  cases hstate
  match chunks with
  | [] =>
      cases payloads with
      | nil => exact .ended rfl
      | cons payload payloads => cases hbytes
  | .notReady :: rest =>
      refine .quiet (Nat.lt_succ_self _) (.waiting rfl rfl ?_)
      rw [hnil]
      exact hbytes
  | .ready chunk :: rest =>
      have hbytes' : chunk.content ++ arrived (rest.map chunkBytes) = frames payloads := hbytes
      simp only [pollPending, Stream.poll, List.map_cons]
      rcases u8.read_cases chunk with
        ⟨hempty, data', hread, hdata'⟩ | ⟨byte, bytes, hcontent, data', hread, hdata', hidx⟩
      · rw [hread]
        refine .quiet (Nat.lt_succ_self _) (.waiting rfl rfl ?_)
        rw [hempty] at hbytes'
        rw [hdata']
        exact hbytes'
      · rw [hcontent] at hbytes'
        obtain ⟨payload, payloads', rfl, hn, hrest⟩ := cut_length hfit hbytes'
        rw [hread, hn]
        dsimp only
        rcases drainTo_cases hidx hdata' payload.length with
          ⟨hle, head, tail, hdrain, hhead, htail⟩ | ⟨hlt, hdrain⟩
        · obtain ⟨hitem, hrest⟩ := Decoder.cut_payload hle hrest
          rw [hdrain]
          refine .item (Nat.le_succ _) (hhead.trans hitem) (.waiting rfl rfl ?_)
          rw [htail]
          exact hrest
        · rw [hdrain]
          refine .quiet (Nat.lt_succ_self _) (.collecting rfl rfl hidx ?_ ?_)
          · rw [hdata']
            exact Nat.lt_of_not_le hlt
          · rw [hdata']
            exact hrest

theorem poll_progress {p : Prefix Script} {chunks : List (Async ByteBuf)}
    {payloads : List (List UInt8)} (hfit : ∀ p ∈ payloads, p.length ≤ 255)
    (h : Feeds p chunks payloads) : Progress chunks payloads (poll p) := by
  cases h with
  | collecting hstream hstate hidx hshort hbytes =>
      rw [poll, hstate]
      exact pollMore_progress hstream hstate hidx hshort hbytes
  | waiting hstream hstate hbytes =>
      rw [poll, hstate]
      dsimp only
      rcases u8.read_cases p.data with
        ⟨hempty, data', hread, hdata'⟩ | ⟨byte, bytes, hcontent, data', hread, hdata', hidx⟩
      · rw [hread]
        rw [hempty, List.nil_append] at hbytes
        exact pollPending_progress hfit hstream rfl hdata' hbytes
      · rw [hcontent] at hbytes
        obtain ⟨payload, payloads', rfl, hn, hrest⟩ := cut_length hfit hbytes
        rw [hread, hn]
        dsimp only
        rcases drainTo_cases hidx hdata' payload.length with
          ⟨hle, head, tail, hdrain, hhead, htail⟩ | ⟨hlt, hdrain⟩
        · obtain ⟨hitem, hrest⟩ := Decoder.cut_payload hle hrest
          rw [hdrain]
          refine .item (Nat.le_refl _) (hhead.trans hitem) (.waiting hstream rfl ?_)
          rw [htail]
          exact hrest
        · rw [hdrain]
          refine pollMore_progress hstream rfl hidx ?_ ?_
          · rw [hdata']
            exact Nat.lt_of_not_le hlt
          · rw [hdata']
            exact hrest

theorem delivers_of_feeds {p : Prefix Script} {chunks : List (Async ByteBuf)}
    {payloads : List (List UInt8)} (hfit : ∀ p ∈ payloads, p.length ≤ 255)
    (h : Feeds p chunks payloads) : Delivers p payloads := by
  induction hn : chunks.length + payloads.length using Nat.strong_induction_on
    generalizing p chunks payloads with
  | h n ih =>
      subst hn
      have hprogress := poll_progress hfit h
      generalize hpoll : poll p = r at hprogress
      cases hprogress with
      | ended hstate => exact delivers_of_end hpoll hstate
      | quiet hshorter hfeeds =>
          exact delivers_of_quiet hpoll (ih _ (by omega) hfit hfeeds rfl)
      | item hshorter hcontent hfeeds =>
          cases hcontent
          rw [List.length_cons] at ih
          exact delivers_of_item hpoll
            (ih _ (by omega) (fun q hq => hfit q (List.mem_cons_of_mem _ hq)) hfeeds rfl)

/-- Whatever the chunks, the payloads come out again, and then the end of the stream. -/
theorem delivers_payloads (script : List (Async ByteBuf)) (payloads : List (List UInt8))
    (hfit : ∀ p ∈ payloads, p.length ≤ 255)
    (hframes : arrived (script.map chunkBytes) = frames payloads) :
    Delivers (Prefix.new (Script.mk (script.map .ok))) payloads :=
  delivers_of_feeds hfit (.waiting rfl rfl hframes)

theorem delivers_payloads_of_two :
    Delivers (Prefix.new (Script.mk ((twoChunks [0, 2] [7, 8]).map .ok))) [[], [7, 8]] :=
  delivers_payloads (twoChunks [0, 2] [7, 8]) [[], [7, 8]] (by decide) (by decide)

end U8Prefix

end Ruyi.Proto
