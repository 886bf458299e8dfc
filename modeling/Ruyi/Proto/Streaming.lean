import Ruyi.Proto.U8Prefix

namespace Ruyi.Proto

open Ruyi.Buf

namespace U8Prefix

/-- Part of a frame: nothing, or the length and fewer bytes than that. -/
inductive Partial : List UInt8 → Prop where
  | nil : Partial []
  | cut {n : Nat} {bytes : List UInt8} (fits : n ≤ 255) (short : bytes.length < n) :
      Partial (UInt8.ofNat n :: bytes)

variable {S : Type} {p q : Prefix S} {fed chunk bytes rest : List UInt8}
  {payloads others : List (List UInt8)}

/-- The bytes that the adapter has had are the payloads that it gave and what it still holds. -/
inductive Fed (fed : List UInt8) (payloads : List (List UInt8)) (p : Prefix S) : Prop where
  | waiting (state_eq : p.state = .pending) (bytes_eq : fed = frames payloads ++ p.data.content)
  | collecting {n : Nat} (state_eq : p.state = .more n) (fits : n ≤ 255)
      (idx_lt : p.data.idx < p.data.blocks.length) (short : p.data.content.length < n)
      (bytes_eq : fed = frames payloads ++ UInt8.ofNat n :: p.data.content)
  | ended {rest : List UInt8} (state_eq : p.state = .done) (part : Partial rest)
      (bytes_eq : fed = frames payloads ++ rest)

/-- The payload in an answer. -/
def given : Poll (Option ByteBuf) → List (List UInt8)
  | .ok (.ready (some t)) => [t.content]
  | _ => []

theorem frames_append (payloads others : List (List UInt8)) :
    frames (payloads ++ others) = frames payloads ++ frames others :=
  List.flatMap_append

theorem frames_cons (payload : List UInt8) (payloads : List (List UInt8)) :
    frames (payload :: payloads) =
      UInt8.ofNat payload.length :: (payload ++ frames payloads) := rfl

theorem toNat_ofNat_of_le {n : Nat} (h : n ≤ 255) : (UInt8.ofNat n).toNat = n := by
  rw [UInt8.toNat_ofNat']
  omega

theorem Partial.eq_nil (h : Partial rest) (hfit : ∀ p ∈ payloads, p.length ≤ 255)
    (heq : rest = frames payloads) : payloads = [] := by
  cases payloads with
  | nil => rfl
  | cons payload payloads =>
      cases h with
      | nil => cases heq
      | cut hn hshort =>
          rw [frames_cons] at heq
          obtain ⟨hbyte, hbytes⟩ := List.cons.inj heq
          have hlen := hfit payload List.mem_cons_self
          have hsame := congrArg UInt8.toNat hbyte
          rw [toNat_ofNat_of_le hn, toNat_ofNat_of_le hlen] at hsame
          have htotal := congrArg List.length hbytes
          rw [List.length_append] at htotal
          omega

theorem prefix_of_frames (hfit : ∀ p ∈ payloads, p.length ≤ 255)
    (hfit' : ∀ p ∈ others, p.length ≤ 255) (h : frames payloads ++ rest = frames others) :
    ∃ more, others = payloads ++ more ∧ rest = frames more := by
  induction payloads generalizing others with
  | nil => exact ⟨others, rfl, h⟩
  | cons payload payloads ih =>
      cases others with
      | nil => cases h
      | cons other others =>
          rw [frames_cons, frames_cons, List.cons_append, List.append_assoc] at h
          obtain ⟨hbyte, hbytes⟩ := List.cons.inj h
          have hsame := congrArg UInt8.toNat hbyte
          rw [toNat_ofNat_of_le (hfit payload List.mem_cons_self),
            toNat_ofNat_of_le (hfit' other List.mem_cons_self)] at hsame
          obtain ⟨rfl, hrest⟩ := List.append_inj hbytes hsame
          obtain ⟨more, rfl, hmore⟩ := ih (fun p hp => hfit p (List.mem_cons_of_mem _ hp))
            (fun p hp => hfit' p (List.mem_cons_of_mem _ hp)) hrest
          exact ⟨more, rfl, hmore⟩

theorem fed_cut {n : Nat} {t : ByteBuf} (hstate : q.state = .pending)
    (hle : n ≤ bytes.length) (ht : t.content = bytes.take n) (hdata : q.data.content = bytes.drop n)
    (hfed : fed = frames payloads ++ UInt8.ofNat n :: bytes) :
    Fed fed (payloads ++ [t.content]) q := by
  refine .waiting hstate ?_
  have hlen : (bytes.take n).length = n := List.length_take_of_le hle
  rw [hfed, frames_append, frames_cons, ht, hlen, hdata, List.append_assoc, List.cons_append]
  show _ = frames payloads ++ UInt8.ofNat n :: (bytes.take n ++ [] ++ bytes.drop n)
  rw [List.append_nil, List.take_append_drop]

theorem Fed.given_prefix (h : Fed fed payloads p) (hfit : ∀ p ∈ payloads, p.length ≤ 255)
    (hfit' : ∀ p ∈ others, p.length ≤ 255) (hfed : fed <+: frames others) :
    payloads <+: others ∧ (p.state = .done → fed = frames others → payloads = others) := by
  obtain ⟨held, hheld, hpart⟩ : ∃ held, fed = frames payloads ++ held ∧
      (p.state = .done → Partial held) := by
    cases h with
    | waiting hstate hbytes => exact ⟨_, hbytes, fun h => by cases hstate.symm.trans h⟩
    | collecting hstate _ _ _ hbytes => exact ⟨_, hbytes, fun h => by cases hstate.symm.trans h⟩
    | ended _ hpart hbytes => exact ⟨_, hbytes, fun _ => hpart⟩
  obtain ⟨rest, hrest⟩ := hfed
  rw [hheld, List.append_assoc] at hrest
  obtain ⟨more, rfl, hmore⟩ := prefix_of_frames hfit hfit' hrest
  refine ⟨List.prefix_append _ _, fun hdone hall => ?_⟩
  rw [hheld, frames_append] at hall
  have hnil := (hpart hdone).eq_nil (fun p hp => hfit' p (List.mem_append_right _ hp))
    (List.append_cancel_left hall)
  rw [hnil, List.append_nil]

variable [Stream S]

/-- What a poll of the adapter takes from its stream. -/
inductive Pulls (p q : Prefix S) : List UInt8 → Prop where
  | unasked (stream_eq : q.stream = p.stream) (done : q.state = .done → p.state = .done) :
      Pulls p q []
  | chunk {pulled : ByteBuf}
      (polled : Stream.poll p.stream = (.ok (.ready (some pulled)), q.stream))
      (undone : q.state ≠ .done) : Pulls p q pulled.content
  | quiet {r : Poll (Option ByteBuf)} (polled : Stream.poll p.stream = (r, q.stream))
      (empty : ∀ item, r ≠ .ok (.ready item)) (undone : q.state ≠ .done) : Pulls p q []
  | ended (polled : Stream.poll p.stream = (.ok (.ready none), q.stream)) : Pulls p q []

/-- What a poll of a fed adapter is to come to. -/
inductive Feeding (fed : List UInt8) (payloads : List (List UInt8)) (p : Prefix S) :
    Poll (Option ByteBuf) × Prefix S → Prop where
  | quiet {r : Poll (Option ByteBuf)} {q : Prefix S} {chunk : List UInt8}
      (pulls : Pulls p q chunk) (none : given r = []) (fed_eq : Fed (fed ++ chunk) payloads q) :
      Feeding fed payloads p (r, q)
  | item {t : ByteBuf} {q : Prefix S} {chunk : List UInt8} (pulls : Pulls p q chunk)
      (fits : t.content.length ≤ 255) (fed_eq : Fed (fed ++ chunk) (payloads ++ [t.content]) q) :
      Feeding fed payloads p (.ok (.ready (some t)), q)

/-- What the adapter held before the poll does not matter, as long as its stream has not ended. -/
theorem Feeding.of_stream {p' : Prefix S} {r : Poll (Option ByteBuf) × Prefix S}
    (h : Feeding fed payloads p' r) (hstream : p'.stream = p.stream) (hstate : p'.state ≠ .done) :
    Feeding fed payloads p r := by
  have hpulls : ∀ {q chunk}, Pulls p' q chunk → Pulls p q chunk := by
    intro q chunk hpulls
    cases hpulls with
    | unasked hsame hdone => exact .unasked (hsame.trans hstream) fun h => absurd (hdone h) hstate
    | chunk hpolled hundone => exact .chunk (hstream ▸ hpolled) hundone
    | quiet hpolled hempty hundone => exact .quiet (hstream ▸ hpolled) hempty hundone
    | ended hpolled => exact .ended (hstream ▸ hpolled)
  cases h with
  | quiet hq hnone hfed => exact .quiet (hpulls hq) hnone hfed
  | item hq hfits hfed => exact .item (hpulls hq) hfits hfed

theorem pollMore_feeding {n : Nat} (hstate : p.state = .more n) (hn : n ≤ 255)
    (hidx : p.data.idx < p.data.blocks.length) (hshort : p.data.content.length < n)
    (hfed : fed = frames payloads ++ UInt8.ofNat n :: p.data.content) :
    Feeding fed payloads p (p.pollMore n) := by
  have hundone : p.state ≠ .done := by
    rw [hstate]
    simp
  rw [Prefix.pollMore]
  split
  · rename_i e stream hpoll
    exact .quiet (.quiet hpoll (by simp) hundone) rfl (.collecting hstate hn hidx hshort
      ((List.append_nil _).trans hfed))
  · rename_i stream hpoll
    exact .quiet (.quiet hpoll (by simp) hundone) rfl (.collecting hstate hn hidx hshort
      ((List.append_nil _).trans hfed))
  · rename_i pulled stream hpoll
    have hidx' : (p.data.extend pulled).idx < (p.data.extend pulled).blocks.length := by
      simp only [ByteBuf.extend, List.length_append]
      exact Nat.lt_add_right _ hidx
    have hcontent := ByteBuf.content_extend p.data pulled
    have hfed' : fed ++ pulled.content =
        frames payloads ++ UInt8.ofNat n :: (p.data.content ++ pulled.content) := by
      rw [hfed, List.append_assoc, List.cons_append]
    dsimp only
    rcases drainTo_cases hidx' hcontent n with ⟨hle, t, data, hdrain, ht, hdata⟩ | ⟨hlt, hdrain⟩
    · rw [hdrain]
      refine .item (.chunk hpoll (by simp)) ?_ (fed_cut rfl hle ht hdata hfed')
      rw [ht, List.length_take_of_le hle]
      exact hn
    · rw [hdrain]
      refine .quiet (.chunk hpoll hundone) rfl (.collecting hstate hn hidx' ?_ ?_)
      · rw [hcontent]
        exact Nat.lt_of_not_le hlt
      · rw [hcontent]
        exact hfed'
  · rename_i stream hpoll
    exact .quiet (.ended hpoll) rfl
      (.ended rfl (.cut hn hshort) ((List.append_nil _).trans hfed))

theorem byte_le (byte : UInt8) : byte.toNat ≤ 255 := Nat.le_of_lt_succ byte.toNat_lt

theorem pollPending_feeding (hstate : p.state = .pending) (hnil : p.data.content = [])
    (hfed : fed = frames payloads) : Feeding fed payloads p (pollPending p) := by
  have hundone : p.state ≠ .done := by
    rw [hstate]
    simp
  have hheld : fed ++ [] = frames payloads ++ p.data.content := by rw [hnil, hfed]
  rw [pollPending]
  split
  · rename_i e stream hpoll
    exact .quiet (.quiet hpoll (by simp) hundone) rfl (.waiting hstate hheld)
  · rename_i stream hpoll
    exact .quiet (.quiet hpoll (by simp) hundone) rfl (.waiting hstate hheld)
  · rename_i pulled stream hpoll
    rcases u8.read_cases pulled with
      ⟨hempty, data, hread, hdata⟩ | ⟨byte, bytes, hcontent, data, hread, hdata, hidx⟩
    · rw [hread]
      refine .quiet (.chunk hpoll hundone) rfl (.waiting hstate ?_)
      rw [hempty, hdata, hfed]
    · have hfed' : fed ++ pulled.content =
          frames payloads ++ UInt8.ofNat byte.toNat :: bytes := by
        rw [hfed, hcontent, UInt8.ofNat_toNat]
      rw [hread]
      dsimp only
      rcases drainTo_cases hidx hdata byte.toNat with
        ⟨hle, t, data', hdrain, ht, hdata'⟩ | ⟨hlt, hdrain⟩
      · rw [hdrain]
        refine .item (.chunk hpoll hundone) ?_ (fed_cut hstate hle ht hdata' hfed')
        rw [ht, List.length_take_of_le hle]
        exact byte_le byte
      · rw [hdrain]
        refine .quiet (.chunk hpoll (by simp)) rfl (.collecting rfl (byte_le byte) hidx ?_ ?_)
        · rw [hdata]
          exact Nat.lt_of_not_le hlt
        · rw [hdata]
          exact hfed'
  · rename_i stream hpoll
    exact .quiet (.ended hpoll) rfl (.ended rfl .nil (by rw [hfed]))

theorem poll_feeding (h : Fed fed payloads p) : Feeding fed payloads p (poll p) := by
  cases h with
  | ended hstate hpart hfed =>
      rw [poll, hstate]
      exact .quiet (.unasked rfl id) rfl (.ended hstate hpart ((List.append_nil _).trans hfed))
  | collecting hstate hn hidx hshort hfed =>
      rw [poll, hstate]
      exact pollMore_feeding hstate hn hidx hshort hfed
  | waiting hstate hfed =>
      obtain ⟨stream, state, data⟩ := p
      cases hstate
      rw [poll]
      dsimp only
      rcases u8.read_cases data with
        ⟨hempty, data', hread, hdata⟩ | ⟨byte, bytes, hcontent, data', hread, hdata, hidx⟩
      · rw [hempty, List.append_nil] at hfed
        rw [hread]
        dsimp only
        have hpending := @pollPending_feeding _ ⟨stream, .pending, data'⟩ _ _ _ rfl hdata hfed
        exact Feeding.of_stream hpending rfl (by simp)
      · have hfed' : fed = frames payloads ++ UInt8.ofNat byte.toNat :: bytes := by
          rw [hfed, hcontent, UInt8.ofNat_toNat]
        rw [hread]
        dsimp only
        rcases drainTo_cases hidx hdata byte.toNat with
          ⟨hle, t, rest, hdrain, ht, hrest⟩ | ⟨hlt, hdrain⟩
        · rw [hdrain]
          refine .item (.unasked rfl (by simp)) ?_
            (fed_cut rfl hle ht hrest ((List.append_nil _).trans hfed'))
          rw [ht, List.length_take_of_le hle]
          exact byte_le byte
        · rw [hdrain]
          dsimp only
          have hshort : data'.content.length < byte.toNat := by
            rw [hdata]
            exact Nat.lt_of_not_le hlt
          have hmore := @pollMore_feeding _ ⟨stream, .more byte.toNat, data'⟩ _ _ _ _ rfl
            (byte_le byte) hidx hshort (hdata ▸ hfed')
          exact Feeding.of_stream hmore rfl (by simp)

end U8Prefix

end Ruyi.Proto
