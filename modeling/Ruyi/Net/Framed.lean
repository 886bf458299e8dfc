import Ruyi.Net.Inbound
import Ruyi.Proto.Streaming

namespace Ruyi.Net

open Buf Sys Proto

variable {τ : Type}

/-- A connection: the streams of the thread that sends, the bytes that are on their way, and the
adapter that reads from a stream of the other thread.  `shut` says that the sink was closed, and
`closed` that it was closed or dropped. -/
structure Connection (τ : Type) where
  near : Streams τ
  wire : List UInt8
  shut : Bool
  closed : Bool
  adapter : Prefix (Inbound τ)

/-- A call on one side or the other, or a poll of the adapter. -/
inductive ConnectionAction (τ : Type) where
  | near (a : StreamAction τ)
  | far (a : StreamAction τ)
  | poll (task : τ) (answer : Except IoError (List UInt8)) (result : Except ErrorKind Unit)

inductive ConnectionEvent (τ : Type) where
  | near (e : StreamEvent τ)
  | far (e : StreamEvent τ)
  | polled (poll : Poll (Option ByteBuf))

/-- `close` of stream `i` has returned. -/
def shuts (i : Nat) : StreamAction τ → StreamEvent τ → Bool
  | .close j _ _ _ _, .sent _ _ _ (.ok (.ready ())) => j = i
  | _, _ => false

def drops (i : Nat) : StreamAction τ → Bool
  | .drop j _ => j = i
  | _ => false

namespace Connection

/-- Stream `i` of one thread and stream `j` of another, before they are there. -/
def init (buffer : Buffer) (allocs : List Nat) (buffer' : Buffer) (allocs' : List Nat) (j : Nat)
    (task : τ) : Connection τ where
  near := .init buffer allocs
  wire := []
  shut := false
  closed := false
  adapter := .new ⟨.init buffer' allocs', j, task, .error ⟨.wouldBlock⟩, .ok (), .ok []⟩

def far (c : Connection τ) : Streams τ := c.adapter.stream.streams

def putNear (c : Connection τ) (i : Nat) (a : StreamAction τ)
    (next : StreamEvent τ × Streams τ) : ConnectionEvent τ × Connection τ :=
  (.near next.1, { c with
    near := next.2
    wire := c.wire ++ next.1.takenFrom i
    shut := c.shut || shuts i a next.1
    closed := c.closed || shuts i a next.1 || drops i a })

def putFar (c : Connection τ) (next : StreamEvent τ × Streams τ) :
    ConnectionEvent τ × Connection τ :=
  (.far next.1, { c with
    adapter := { c.adapter with stream := { c.adapter.stream with streams := next.2 } } })

/-- The adapter before it is polled by this task, with what the socket and the poller will say. -/
def asking (c : Connection τ) (task : τ) (answer : Except IoError (List UInt8))
    (result : Except ErrorKind Unit) : Prefix (Inbound τ) :=
  { c.adapter with stream := { c.adapter.stream with task, answer, result, got := .ok [] } }

def step (i : Nat) (c : Connection τ) :
    ConnectionAction τ → Option (Except Fault (ConnectionEvent τ × Connection τ))
  | .near a => (c.near.step a).map fun r => r.map (c.putNear i a)
  | .far a => (c.far.step a).map fun r => r.map c.putFar
  | .poll task answer result => (c.far.streams c.adapter.stream.i).map fun _ =>
      let r := U8Prefix.poll (c.asking task answer result)
      r.2.stream.got.map fun bytes =>
        (.polled r.1, { c with wire := c.wire.drop bytes.length, adapter := r.2 })

end Connection

def connectionMachine (i : Nat) :
    Base.Machine (Connection τ) (ConnectionAction τ) (ConnectionEvent τ) Fault :=
  ⟨Connection.step i⟩

/-- The stream is left to the adapter. -/
def LeavesAdapter (c : Connection τ) : StreamAction τ → Prop
  | .pollRecv j _ answer _ => j ≠ c.adapter.stream.i ∧ c.far.buffer.Fits answer
  | .drop j _ => j ≠ c.adapter.stream.i
  | _ => True

/-- What the sockets do: the bytes of one side come out on the other in order, and their end when
there are no more.  Nothing is sent on a sink that was closed, and the poller agrees. -/
def Connected (i : Nat) (c : Connection τ) : ConnectionAction τ → Prop
  | .near (.startSend j _) => j = i → c.shut = false
  | .near _ => True
  | .far a => LeavesAdapter c a
  | .poll _ answer result => result = .ok () ∧ c.far.buffer.Fits answer ∧
      ∀ bytes, answer = .ok bytes → bytes <+: c.wire ∧ (bytes = [] → c.wire = [] ∧ c.closed = true)

def ConnectionEvent.onNear : ConnectionEvent τ → List (StreamEvent τ)
  | .near e => [e]
  | _ => []

/-- What happened on the side that sends. -/
def nearLog (log : List (ConnectionEvent τ)) : List (StreamEvent τ) :=
  log.flatMap ConnectionEvent.onNear

def ConnectionEvent.payload : ConnectionEvent τ → List (List UInt8)
  | .polled r => U8Prefix.given r
  | _ => []

/-- The payloads that the adapter gave. -/
def delivered (log : List (ConnectionEvent τ)) : List (List UInt8) :=
  log.flatMap ConnectionEvent.payload

variable {i : Nat} {log : List (ConnectionEvent τ)} {c c' : Connection τ}
  {a : StreamAction τ} {e : StreamEvent τ}

theorem nearLog_concat (log : List (ConnectionEvent τ)) (e : ConnectionEvent τ) :
    nearLog (log ++ [e]) = nearLog log ++ e.onNear := by
  rw [nearLog, List.flatMap_append, List.flatMap_singleton, nearLog]

theorem delivered_concat (log : List (ConnectionEvent τ)) (e : ConnectionEvent τ) :
    delivered (log ++ [e]) = delivered log ++ e.payload := by
  rw [delivered, List.flatMap_append, List.flatMap_singleton, delivered]

theorem delivered_quiet {e : ConnectionEvent τ} (log : List (ConnectionEvent τ))
    (h : e.payload = []) : delivered (log ++ [e]) = delivered log := by
  rw [delivered_concat, h, List.append_nil]

section Near

variable {s t : Streams τ}

theorem quiet_or_open (hstep : s.step a = some (.ok (e, t))) :
    (e.takenFrom i = [] ∧ e.startedOn i = []) ∨
      (s.streams i).isSome = true ∧ (t.streams i).isSome = true := by
  match a with
  | .tryFrom _ _ =>
      cases hstep
      exact .inl ⟨rfl, rfl⟩
  | .drop _ _ =>
      obtain ⟨_, -, hr⟩ := Option.map_eq_some_iff.mp hstep
      cases hr
      exact .inl ⟨rfl, rfl⟩
  | .event _ =>
      have hstep := Option.some.inj hstep
      split at hstep
      · cases hstep
      · cases hstep
        exact .inl ⟨rfl, rfl⟩
  | .pollRecv _ _ _ _ =>
      obtain ⟨_, -, hr⟩ := Option.map_eq_some_iff.mp hstep
      obtain ⟨_, -, hr⟩ := ok_of_map_ok hr
      cases hr
      exact .inl ⟨rfl, rfl⟩
  | .startSend j _ =>
      obtain ⟨_, hj, hr⟩ := Option.map_eq_some_iff.mp hstep
      cases hr
      by_cases hij : j = i
      · subst hij
        refine .inr ⟨by rw [hj]; rfl, ?_⟩
        exact Option.isSome_iff_exists.mpr ⟨_, Function.update_self _ _ _⟩
      · exact .inl ⟨rfl, startedOn_of_ne fun h => hij (Option.some.inj h)⟩
  | .pollComplete j _ _ _ | .close j _ _ _ _ =>
      obtain ⟨_, hj, hr⟩ := Option.map_eq_some_iff.mp hstep
      obtain ⟨_, -, hr⟩ := ok_of_map_ok hr
      cases hr
      by_cases hij : j = i
      · subst hij
        refine .inr ⟨by rw [hj]; rfl, ?_⟩
        exact Option.isSome_iff_exists.mpr ⟨_, Function.update_self _ _ _⟩
      · exact .inl ⟨takenFrom_of_ne fun h => hij (Option.some.inj h), rfl⟩

theorem startedOn_eq_nil (hstep : s.step a = some (.ok (e, t)))
    (ha : ∀ data, a ≠ .startSend i data) : e.startedOn i = [] := by
  match a with
  | .startSend j data =>
      obtain ⟨_, -, hr⟩ := Option.map_eq_some_iff.mp hstep
      cases hr
      refine startedOn_of_ne fun h => ?_
      cases h
      exact ha data rfl
  | .tryFrom _ _ =>
      cases hstep
      rfl
  | .drop _ _ =>
      obtain ⟨_, -, hr⟩ := Option.map_eq_some_iff.mp hstep
      cases hr
      rfl
  | .event _ =>
      have hstep := Option.some.inj hstep
      split at hstep
      · cases hstep
      · cases hstep
        rfl
  | .pollRecv _ _ _ _ | .pollComplete _ _ _ _ | .close _ _ _ _ _ =>
      obtain ⟨_, -, hr⟩ := Option.map_eq_some_iff.mp hstep
      obtain ⟨_, -, hr⟩ := ok_of_map_ok hr
      cases hr
      rfl

theorem Streams.Sound.shut_empty (hs : s.Sound) (hstep : s.step a = some (.ok (e, t)))
    (hshuts : shuts i a e = true) :
    ∃ stream, t.streams i = some stream ∧ stream.buf.content = [] := by
  match a with
  | .close j task answer result shutdown =>
      obtain ⟨stream, hj, hr⟩ := Option.map_eq_some_iff.mp hstep
      obtain ⟨schedule, hx⟩ := hs.tracked j stream hj
      obtain ⟨out, schedule', hcall, hsends⟩ :=
        Sender.close_ok hx.get_eq task answer result shutdown
      rw [hcall] at hr
      cases hr
      obtain ⟨poll, taken, nio, data, schedules⟩ := out
      match poll with
      | .ok (.ready ()) =>
          cases of_decide_eq_true hshuts
          exact ⟨_, Function.update_self _ _ _, hsends.drained rfl⟩
      | .ok .notReady | .error _ => cases hshuts
  | .tryFrom _ _ | .drop _ _ | .startSend _ _ | .pollComplete _ _ _ _ | .pollRecv _ _ _ _
  | .event _ => cases hshuts

theorem Streams.Sound.gone_of_drops (hs : s.Sound) (hstep : s.step a = some (.ok (e, t)))
    (hdrops : drops i a = true) : t.streams i = none ∧ i < t.registered := by
  match a with
  | .drop j result =>
      cases of_decide_eq_true hdrops
      obtain ⟨stream, hj, hr⟩ := Option.map_eq_some_iff.mp hstep
      cases hr
      exact ⟨Function.update_self _ _ _, hs.lt hj⟩
  | .tryFrom _ _ | .close _ _ _ _ _ | .startSend _ _ | .pollComplete _ _ _ _ | .pollRecv _ _ _ _
  | .event _ => cases hdrops

theorem Streams.Sound.stays_gone (hs : s.Sound) (hstep : s.step a = some (.ok (e, t)))
    (hnone : s.streams i = none) (hlt : i < s.registered) : t.streams i = none := by
  cases hi : t.streams i with
  | none => rfl
  | some stream =>
      rcases hs.step hstep hi with ⟨-, rfl, -⟩ | ⟨before, x, x', hx, -⟩
      · exact absurd hlt (Nat.lt_irrefl _)
      · cases hnone.symm.trans hx.stream_eq

/-- The streams of the side that sends, with what the connection knows of stream `i`. -/
structure NearSide (i : Nat) (log : List (StreamEvent τ)) (s : Streams τ) (shut closed : Bool) :
    Prop where
  reached : ∃ buffer allocs, streamMachine.Run (fun _ _ => True) (.init buffer allocs) log s
  accepted_le : accepted i log <+: started i log
  all_accepted : shut = true → accepted i log = started i log
  gone : closed = true → shut = true ∨ s.streams i = none ∧ i < s.registered

variable {log : List (StreamEvent τ)} {shut closed : Bool}

theorem NearSide.sound (h : NearSide i log s shut closed) : s.Sound := by
  obtain ⟨buffer, allocs, hrun⟩ := h.reached
  exact Streams.sound_of_run hrun

theorem NearSide.conserves_step {stream : Sender} (h : NearSide i log s shut closed)
    (hstep : s.step a = some (.ok (e, t))) (hi : t.streams i = some stream) :
    accepted i (log ++ [e]) ++ stream.buf.content = started i (log ++ [e]) := by
  obtain ⟨buffer, allocs, hrun⟩ := h.reached
  have hrun' : streamMachine.Run (fun _ _ => True) (.init buffer allocs) (log ++ [e]) t :=
    hrun.snoc trivial hstep
  have heach := Streams.each_of_run (fun hlog hbuf => conserves_opened hlog hbuf)
    (fun hP _ _ hmoves => conserves_moves hP hmoves) hrun'
  obtain ⟨_, -, hconserves⟩ := heach.each i stream hi
  exact hconserves

theorem NearSide.accepted_step (h : NearSide i log s shut closed)
    (hstep : s.step a = some (.ok (e, t))) :
    accepted i (log ++ [e]) <+: started i (log ++ [e]) := by
  rcases @quiet_or_open _ i _ _ _ _ hstep with ⟨htaken, hstarted⟩ | ⟨-, hopen⟩
  · rw [accepted_concat, started_concat, htaken, hstarted, List.append_nil, List.append_nil]
    exact h.accepted_le
  · obtain ⟨stream, hi⟩ := Option.isSome_iff_exists.mp hopen
    exact ⟨_, h.conserves_step hstep hi⟩

theorem NearSide.quiet (h : NearSide i log s shut closed) (hclosed : closed = true)
    (hallowed : ∀ data, a = .startSend i data → shut = false)
    (hstep : s.step a = some (.ok (e, t))) : e.takenFrom i = [] := by
  rcases @quiet_or_open _ i _ _ _ _ hstep with ⟨htaken, -⟩ | ⟨hopen, -⟩
  · exact htaken
  · rcases h.gone hclosed with hshut | ⟨hnone, -⟩
    · have hstarted : e.startedOn i = [] := by
        refine startedOn_eq_nil hstep fun data ha => ?_
        cases hshut.symm.trans (hallowed data ha)
      have hle := h.accepted_step hstep
      rw [accepted_concat, started_concat, hstarted, h.all_accepted hshut,
        List.prefix_append_right_inj] at hle
      exact List.prefix_nil.mp hle
    · rw [hnone] at hopen
      cases hopen

theorem NearSide.all_accepted_step (h : NearSide i log s shut closed)
    (hallowed : ∀ data, a = .startSend i data → shut = false)
    (hstep : s.step a = some (.ok (e, t))) (hshut : (shut || shuts i a e) = true) :
    accepted i (log ++ [e]) = started i (log ++ [e]) := by
  rcases Bool.or_eq_true_iff.mp hshut with hshut | hshuts
  · have hstarted : e.startedOn i = [] := by
      refine startedOn_eq_nil hstep fun data ha => ?_
      cases hshut.symm.trans (hallowed data ha)
    have hle := h.accepted_step hstep
    rw [accepted_concat, started_concat, hstarted, h.all_accepted hshut] at hle ⊢
    rw [List.prefix_append_right_inj] at hle
    rw [List.prefix_nil.mp hle]
  · obtain ⟨stream, hi, hempty⟩ := h.sound.shut_empty hstep hshuts
    have hconserves := h.conserves_step hstep hi
    rwa [hempty, List.append_nil] at hconserves

theorem NearSide.step (h : NearSide i log s shut closed)
    (hallowed : ∀ data, a = .startSend i data → shut = false)
    (hstep : s.step a = some (.ok (e, t))) :
    NearSide i (log ++ [e]) t (shut || shuts i a e) (closed || shuts i a e || drops i a) := by
  have hsound := h.sound
  refine ⟨?_, h.accepted_step hstep, h.all_accepted_step hallowed hstep, fun hclosed => ?_⟩
  · obtain ⟨buffer, allocs, hrun⟩ := h.reached
    exact ⟨buffer, allocs, hrun.snoc trivial hstep⟩
  · rcases Bool.or_eq_true_iff.mp hclosed with hclosed | hdrops
    · rcases Bool.or_eq_true_iff.mp hclosed with hclosed | hshuts
      · rcases h.gone hclosed with hshut | ⟨hnone, hlt⟩
        · exact .inl (by rw [hshut]; rfl)
        · refine .inr ⟨?_, Nat.lt_of_lt_of_le hlt (hsound.ahead hstep).1⟩
          exact hsound.stays_gone hstep hnone hlt
      · exact .inl (by rw [hshuts, Bool.or_true])
    · exact .inr (hsound.gone_of_drops hstep hdrops)

end Near

/-- The side that receives: its buffer can be read into. -/
structure FarSide (s : Streams τ) : Prop where
  reached : ∃ buffer allocs log, streamMachine.Run (fun _ _ => True) (.init buffer allocs) log s
  ready : ∃ handed, s.buffer.Ready s.allocs handed

theorem FarSide.sound {s : Streams τ} (h : FarSide s) : s.Sound := by
  obtain ⟨buffer, allocs, log, hrun⟩ := h.reached
  exact Streams.sound_of_run hrun

theorem FarSide.step {s t : Streams τ} (h : FarSide s)
    (hfits : ∀ j task answer result, a = .pollRecv j task answer result → s.buffer.Fits answer)
    (hstep : s.step a = some (.ok (e, t))) : FarSide t := by
  obtain ⟨handed, hready⟩ := h.ready
  obtain ⟨buffer, allocs, log, hrun⟩ := h.reached
  exact ⟨⟨buffer, allocs, _, hrun.snoc trivial hstep⟩, h.sound.ready_step hready hfits hstep⟩

/-- The bytes that the near socket took have reached the adapter, or are on their way. -/
structure Flow (i : Nat) (log : List (ConnectionEvent τ)) (c : Connection τ) : Prop where
  near : NearSide i (nearLog log) c.near c.shut c.closed
  far : FarSide c.far
  fits : ∀ p ∈ delivered log, p.length ≤ 255
  ended : c.adapter.state = .done → c.wire = [] ∧ c.closed = true
  fed : ∃ fed, U8Prefix.Fed fed (delivered log) c.adapter ∧
    fed ++ c.wire = accepted i (nearLog log)

theorem flow_init {buffer buffer' : Buffer} {allocs allocs' : List Nat} {j : Nat} {task : τ}
    {handed : List Base.Region} (hready : buffer'.Ready allocs' handed) :
    Flow i [] (.init buffer allocs buffer' allocs' j task) where
  near := ⟨⟨buffer, allocs, .nil⟩, List.prefix_rfl, nofun, nofun⟩
  far := ⟨⟨buffer', allocs', [], .nil⟩, handed, hready⟩
  fits := nofun
  ended := nofun
  fed := ⟨[], .waiting rfl rfl, rfl⟩

theorem Flow.near_step (h : Flow i log c) (hallowed : Connected i c (.near a))
    {next : StreamEvent τ × Streams τ} (hstep : c.near.step a = some (.ok next)) :
    Flow i (log ++ [.near next.1]) (c.putNear i a next).2 := by
  have hsend : ∀ data, a = .startSend i data → c.shut = false := by
    rintro data rfl
    exact hallowed rfl
  obtain ⟨fed, hfed, heq⟩ := h.fed
  constructor
  · rw [nearLog_concat]
    exact h.near.step hsend hstep
  · exact h.far
  · rw [delivered_quiet log rfl]
    exact h.fits
  · intro hdone
    obtain ⟨hwire, hclosed⟩ := h.ended hdone
    refine ⟨?_, ?_⟩
    · show c.wire ++ next.1.takenFrom i = []
      rw [hwire, h.near.quiet hclosed hsend hstep, List.append_nil]
    · show (c.closed || shuts i a next.1 || drops i a) = true
      rw [hclosed, Bool.true_or, Bool.true_or]
  · refine ⟨fed, ?_, ?_⟩
    · rw [delivered_quiet log rfl]
      exact hfed
    · rw [nearLog_concat, ConnectionEvent.onNear, accepted_concat, ← heq, List.append_assoc]
      rfl

theorem Flow.far_step (h : Flow i log c) (hallowed : Connected i c (.far a))
    {next : StreamEvent τ × Streams τ} (hstep : c.far.step a = some (.ok next)) :
    Flow i (log ++ [.far next.1]) (c.putFar next).2 := by
  have hfits : ∀ j task answer result, a = .pollRecv j task answer result →
      c.far.buffer.Fits answer := by
    rintro j task answer result rfl
    exact hallowed.2
  have hnear : nearLog (log ++ [.far next.1]) = nearLog log := by
    rw [nearLog_concat]
    exact List.append_nil _
  obtain ⟨fed, hfed, heq⟩ := h.fed
  constructor
  · rw [hnear]
    exact h.near
  · exact h.far.step hfits hstep
  · rw [delivered_quiet log rfl]
    exact h.fits
  · exact h.ended
  · refine ⟨fed, ?_, ?_⟩
    · rw [delivered_quiet log rfl]
      cases hfed with
      | waiting hstate hbytes => exact .waiting hstate hbytes
      | collecting hstate hn hidx hshort hbytes => exact .collecting hstate hn hidx hshort hbytes
      | ended hstate hpart hbytes => exact .ended hstate hpart hbytes
    · rw [hnear]
      exact heq

theorem Inbound.Hands.farSide {recv next : Inbound τ} {r : Poll (Option ByteBuf)}
    (hhands : recv.Hands next r) (h : FarSide recv.streams)
    (hfits : recv.streams.buffer.Fits recv.answer) : FarSide next.streams := by
  obtain ⟨e, hstep⟩ := hhands.step
  refine h.step (fun j task answer result ha => ?_) hstep
  cases ha
  exact hfits

theorem Flow.pulls {task : τ} {answer : Except IoError (List UInt8)} {q : Prefix (Inbound τ)}
    {chunk : List UInt8} {stream : Sender} (h : Flow i log c)
    (hallowed : Connected i c (.poll task answer (.ok ())))
    (hj : c.far.streams c.adapter.stream.i = some stream)
    (hpulls : U8Prefix.Pulls (c.asking task answer (.ok ())) q chunk) :
    q.stream.got = .ok chunk ∧ FarSide q.stream.streams ∧ chunk <+: c.wire ∧
      (q.state = .done → c.wire = [] ∧ c.closed = true) := by
  obtain ⟨handed, hready⟩ := h.far.ready
  obtain ⟨-, hfits, hwire⟩ := hallowed
  have hpoll := @Inbound.poll_hands _ _ (c.asking task answer (.ok ())).stream _ h.far.sound hready
    hfits hj rfl
  have hhands : ∀ {r : Poll (Option ByteBuf)},
      Stream.poll (c.asking task answer (.ok ())).stream = (r, q.stream) →
      q.stream.got = .ok (Inbound.chunk r) ∧ FarSide q.stream.streams ∧
        Inbound.chunk r <+: c.wire ∧ (r = .ok (.ready none) → answer = .ok []) := by
    intro r hr
    have hr' : (c.asking task answer (.ok ())).stream.poll = (r, q.stream) := hr
    rw [hr'] at hpoll
    refine ⟨hpoll.got_eq, hpoll.farSide h.far hfits, ?_, hpoll.ended⟩
    rcases hpoll.chunk_eq with hnil | hanswer
    · rw [hnil]
      exact List.nil_prefix
    · exact (hwire _ hanswer).1
  cases hpulls with
  | unasked hstream hdone =>
      rw [hstream]
      exact ⟨rfl, h.far, List.nil_prefix, fun hq => h.ended (hdone hq)⟩
  | chunk hpolled hundone =>
      obtain ⟨hgot, hfar, hle, -⟩ := hhands hpolled
      exact ⟨hgot, hfar, hle, fun hq => absurd hq hundone⟩
  | @quiet r hpolled hempty hundone =>
      obtain ⟨hgot, hfar, -, -⟩ := hhands hpolled
      have hnil : Inbound.chunk r = [] := by
        match r with
        | .ok (.ready item) => exact absurd rfl (hempty item)
        | .ok .notReady | .error _ => rfl
      rw [hnil] at hgot
      exact ⟨hgot, hfar, List.nil_prefix, fun hq => absurd hq hundone⟩
  | ended hpolled =>
      obtain ⟨hgot, hfar, hle, hended⟩ := hhands hpolled
      exact ⟨hgot, hfar, hle, fun _ => (hwire _ (hended rfl)).2 rfl⟩

theorem Flow.poll_step {task : τ} {answer : Except IoError (List UInt8)} {stream : Sender}
    (h : Flow i log c) (hallowed : Connected i c (.poll task answer (.ok ())))
    (hj : c.far.streams c.adapter.stream.i = some stream) :
    ∃ r c', c.step i (.poll task answer (.ok ())) = some (.ok (.polled r, c')) ∧
      Flow i (log ++ [.polled r]) c' := by
  obtain ⟨fed, hfed, heq⟩ := h.fed
  have hasking : U8Prefix.Fed fed (delivered log) (c.asking task answer (.ok ())) := by
    cases hfed with
    | waiting hstate hbytes => exact .waiting hstate hbytes
    | collecting hstate hn hidx hshort hbytes => exact .collecting hstate hn hidx hshort hbytes
    | ended hstate hpart hbytes => exact .ended hstate hpart hbytes
  have hfeeding := U8Prefix.poll_feeding hasking
  generalize hr : U8Prefix.poll (c.asking task answer (.ok ())) = r at hfeeding
  obtain ⟨chunk, hpulls, hfits, hnext⟩ : ∃ chunk,
      U8Prefix.Pulls (c.asking task answer (.ok ())) r.2 chunk ∧
      (∀ p ∈ U8Prefix.given r.1, p.length ≤ 255) ∧
      U8Prefix.Fed (fed ++ chunk) (delivered log ++ U8Prefix.given r.1) r.2 := by
    cases hfeeding with
    | quiet hpulls hnone hnext =>
        refine ⟨_, hpulls, ?_, ?_⟩
        · rw [hnone]
          exact nofun
        · rw [hnone, List.append_nil]
          exact hnext
    | item hpulls hfits hnext =>
        refine ⟨_, hpulls, fun p hp => ?_, hnext⟩
        rw [List.mem_singleton.mp hp]
        exact hfits
  obtain ⟨hgot, hfar, ⟨rest, hrest⟩, hended⟩ := h.pulls hallowed hj hpulls
  refine ⟨r.1, { c with wire := c.wire.drop chunk.length, adapter := r.2 }, ?_, ?_⟩
  · simp only [Connection.step, hj, Option.map_some, hr, hgot]
    rfl
  · have hnear : nearLog (log ++ [.polled r.1]) = nearLog log := by
      rw [nearLog_concat]
      exact List.append_nil _
    constructor
    · rw [hnear]
      exact h.near
    · exact hfar
    · rw [delivered_concat]
      intro p hp
      rcases List.mem_append.mp hp with hp | hp
      · exact h.fits p hp
      · exact hfits p hp
    · intro hdone
      obtain ⟨hwire, hclosed⟩ := hended hdone
      refine ⟨?_, hclosed⟩
      show c.wire.drop chunk.length = []
      rw [hwire, List.drop_nil]
    · refine ⟨fed ++ chunk, ?_, ?_⟩
      · rw [delivered_concat]
        exact hnext
      · rw [hnear, ← heq, ← hrest, List.drop_left, List.append_assoc]

theorem flow_step {action : ConnectionAction τ} {e : ConnectionEvent τ} (h : Flow i log c)
    (hallowed : Connected i c action) (hstep : c.step i action = some (.ok (e, c'))) :
    Flow i (log ++ [e]) c' := by
  match action with
  | .near a =>
      obtain ⟨r, hnear, hr⟩ := Option.map_eq_some_iff.mp hstep
      obtain ⟨next, rfl, hput⟩ := ok_of_map_ok hr
      cases hput
      exact h.near_step hallowed hnear
  | .far a =>
      obtain ⟨r, hfar, hr⟩ := Option.map_eq_some_iff.mp hstep
      obtain ⟨next, rfl, hput⟩ := ok_of_map_ok hr
      cases hput
      exact h.far_step hallowed hfar
  | .poll task answer result =>
      obtain ⟨stream, hj, -⟩ := Option.map_eq_some_iff.mp hstep
      cases hallowed.1
      obtain ⟨e', c'', hstep', hflow⟩ := h.poll_step hallowed hj
      cases hstep'.symm.trans hstep
      exact hflow

/-- Whatever the sockets take and give at a time, the adapter gives the payloads that were framed on
the other side, in order, and all of them when the sink was closed and the stream has ended. -/
theorem framed_payloads_arrive {buffer buffer' : Buffer} {allocs allocs' : List Nat} {j : Nat}
    {task : τ} {handed : List Base.Region} {sent : List (List UInt8)}
    (hready : buffer'.Ready allocs' handed)
    (h : (connectionMachine i).Run (Connected i) (.init buffer allocs buffer' allocs' j task) log c)
    (hsent : started i (nearLog log) = U8Prefix.frames sent) (hfit : ∀ p ∈ sent, p.length ≤ 255) :
    delivered log <+: sent ∧
      (c.shut = true → c.adapter.state = .done → delivered log = sent) ∧
      ∀ task answer, Connected i c (.poll task answer (.ok ())) →
        (c.far.streams c.adapter.stream.i).isSome = true →
        ∃ r c', c.step i (.poll task answer (.ok ())) = some (.ok (.polled r, c')) := by
  have hflow : Flow i log c := h.invariant (flow_init hready) flow_step
  obtain ⟨fed, hfed, heq⟩ := hflow.fed
  have haccepted := hflow.near.accepted_le
  rw [hsent] at haccepted
  have hle : fed <+: U8Prefix.frames sent :=
    List.IsPrefix.trans ⟨c.wire, heq⟩ haccepted
  obtain ⟨hdelivered, hall⟩ := hfed.given_prefix hflow.fits hfit hle
  refine ⟨hdelivered, fun hshut hdone => hall hdone ?_, fun task answer hallowed hopen => ?_⟩
  · rw [(hflow.ended hdone).1, List.append_nil] at heq
    rw [heq, hflow.near.all_accepted hshut, hsent]
  · obtain ⟨stream, hj⟩ := Option.isSome_iff_exists.mp hopen
    obtain ⟨r, c', hstep, -⟩ := hflow.poll_step hallowed hj
    exact ⟨r, c', hstep⟩

section

variable (buffer : Buffer) (s : Streams τ) (c : Connection τ)

instance (answer : Except IoError (List UInt8)) : Decidable (buffer.Fits answer) :=
  match answer with
  | .ok bytes => decidable_of_iff (bytes.length ≤ buffer.first.cap + buffer.second.cap)
      ⟨fun h _ hbytes => Except.ok.inj hbytes ▸ h, fun h => h bytes rfl⟩
  | .error _ => .isTrue nofun

instance (a : StreamAction τ) : Decidable (LeavesAdapter c a) :=
  match a with
  | .pollRecv j _ answer _ =>
      inferInstanceAs (Decidable (j ≠ c.adapter.stream.i ∧ c.far.buffer.Fits answer))
  | .drop j _ => inferInstanceAs (Decidable (j ≠ c.adapter.stream.i))
  | .tryFrom _ _ | .startSend _ _ | .pollComplete _ _ _ _ | .close _ _ _ _ _ | .event _ =>
      inferInstanceAs (Decidable True)

instance (i : Nat) (a : ConnectionAction τ) : Decidable (Connected i c a) :=
  match a with
  | .near (.startSend j _) => inferInstanceAs (Decidable (j = i → c.shut = false))
  | .near (.tryFrom _ _) | .near (.drop _ _) | .near (.pollComplete _ _ _ _)
  | .near (.close _ _ _ _ _) | .near (.pollRecv _ _ _ _) | .near (.event _) =>
      inferInstanceAs (Decidable True)
  | .far a => inferInstanceAs (Decidable (LeavesAdapter c a))
  | .poll _ (.ok bytes) result => decidable_of_iff
      (result = .ok () ∧ c.far.buffer.Fits (.ok bytes) ∧ bytes <+: c.wire ∧
        (bytes = [] → c.wire = [] ∧ c.closed = true))
      (and_congr_right fun _ => and_congr_right fun _ =>
        ⟨fun h _ hbytes => Except.ok.inj hbytes ▸ h, fun h => h bytes rfl⟩)
  | .poll _ (.error _) result => decidable_of_iff (result = .ok ())
      ⟨fun h => ⟨h, nofun, nofun⟩, fun h => h.1⟩

end

/-- Two payloads, of which the socket takes three bytes first. -/
def twoFramed : List (ConnectionAction Nat) :=
  [.near (.tryFrom 1 (.ok ())), .far (.tryFrom 2 (.ok ())),
    .near (.startSend 0 (.ofVec 0 [1, 7, 2, 8, 9] [])), .near (.pollComplete 0 1 (.ok 3) (.ok ())),
    .poll 2 (.ok [1, 7, 2]) (.ok ()), .near (.event ⟨0, false, true⟩),
    .near (.close 0 1 (.ok 2) (.ok ()) (.ok ())), .far (.event ⟨0, true, false⟩),
    .poll 2 (.ok [8, 9]) (.ok ()), .poll 2 (.ok []) (.ok ())]

/-- A buffer with little room. -/
def smallBuffer : Buffer := ⟨.withCapacity 0 64, .withCapacity 1 64, false⟩

theorem ready_smallBuffer : smallBuffer.Ready [64, 64] [] := by
  have hfresh : ∀ shared, (Block.withCapacity shared 64).Fresh := fun _ =>
    Block.fresh_withCapacity (by decide)
  exact ⟨hfresh 0, hfresh 1, (((Base.laid_nil []).alloc 64).alloc 64).perm (.swap _ _ _)⟩

theorem framed_payloads_arrive_of_two :
    ∃ (log : List (ConnectionEvent Nat)) (c : Connection Nat),
      (connectionMachine 0).Run (Connected 0)
        (.init (Buffer.new []).1 [] smallBuffer [64, 64] 0 2) log c ∧
      delivered log = [[7], [8, 9]] := by
  have hend : (((connectionMachine 0).exec (Connected 0) twoFramed
      (.init (Buffer.new []).1 [] smallBuffer [64, 64] 0 2)).map fun r =>
        (started 0 (nearLog r.1), r.2.shut, r.2.adapter.state)) =
      some ([1, 7, 2, 8, 9], true, .done) := by
    decide +kernel
  obtain ⟨⟨log, c⟩, hexec, heq⟩ := Option.map_eq_some_iff.mp hend
  obtain ⟨hsent, heq⟩ := Prod.mk.inj heq
  obtain ⟨hshut, hdone⟩ := Prod.mk.inj heq
  have hrun := Base.Machine.Run.of_exec _ hexec
  have harrive := @framed_payloads_arrive _ 0 log c _ _ _ _ _ _ [] [[7], [8, 9]]
    ready_smallBuffer hrun hsent (by decide)
  exact ⟨log, c, hrun, harrive.2.1 hshut hdone⟩

end Ruyi.Net
