import Ruyi.Buf.GetIter
import Ruyi.Sys.Nio
import Ruyi.Sys.RecvBuffer

namespace Ruyi.Sys

open Buf

variable {τ α : Type}

/-- `get_iovs`, as the bytes that each of the vectors is of. -/
def getIovs (chain : List (Block × Nat)) : List (List UInt8) :=
  chain.map fun b => b.1.asBytesFrom b.2

namespace Nio

/-- `is_read_ready` and `is_write_ready`: the schedule counts once the interest is there. -/
def isReady (nio : Nio) (schedules : Slab (Schedule τ)) (cached : Bool)
    (ready : Schedule τ → Bool) : Except Fault Bool :=
  if cached then
    match schedules.get nio.token with
    | none => .error .freed
    | some schedule => .ok (ready schedule)
  else .ok true

def isReadReady (nio : Nio) (schedules : Slab (Schedule τ)) : Except Fault Bool :=
  nio.isReady schedules nio.schedOps.read Schedule.readReady

def isWriteReady (nio : Nio) (schedules : Slab (Schedule τ)) : Except Fault Bool :=
  nio.isReady schedules nio.schedOps.write Schedule.writeReady

end Nio

/-- What a poll returns after a call that it makes with `?`. -/
def afterCall (r : Except ErrorKind Unit) (value : Async α) : Poll α :=
  match r with
  | .ok () => .ok value
  | .error kind => .error ⟨kind⟩

/-- The caller is told to wait for the socket, which was asked. -/
def tells (poll : Poll α) (asked : Bool) : Bool :=
  match poll with
  | .ok .notReady => asked
  | _ => false

/-- The end of `poll_recv`.  `asked` says whether the socket was read; the code does not keep
it. -/
structure Received (τ : Type) where
  poll : Poll (Option ByteBuf)
  asked : Bool
  nio : Nio
  buffer : Buffer
  allocs : List Nat
  schedules : Slab (Schedule τ)

/-- The end of `poll_send`.  `taken` is what the socket took, if it was asked; the code does not
keep it. -/
structure Sent (τ : Type) where
  poll : Poll Unit
  taken : Option (List UInt8)
  nio : Nio
  data : ByteBuf
  schedules : Slab (Schedule τ)

/-- `IStream::poll_recv`, with the answer of the socket and the result of the poller. -/
def IStream.pollRecv (nio : Nio) (buffer : Buffer) (allocs : List Nat)
    (schedules : Slab (Schedule τ)) (current : τ) (answer : Except IoError (List UInt8))
    (result : Except ErrorKind Unit) : Except Fault (Received τ) := do
  match ← nio.isReadReady schedules with
  | false => .ok ⟨.ok .notReady, false, nio, buffer, allocs, schedules⟩
  | true =>
      let (received, buffer, allocs) ← buffer.readv allocs answer
      match received with
      | .ok (some (data, _)) =>
          let (r, nio, schedules) ← nio.scheduleRead schedules current result
          .ok ⟨afterCall r (.ready (some data)), true, nio, buffer, allocs, schedules⟩
      | .ok none => .ok ⟨.ok (.ready none), true, nio, buffer, allocs, schedules⟩
      | .error e =>
          match e.kind with
          | .wouldBlock =>
              let (r, nio, schedules) ← nio.scheduleRead schedules current result
              .ok ⟨afterCall r .notReady, true, nio, buffer, allocs, schedules⟩
          | .other _ => .ok ⟨.error e, true, nio, buffer, allocs, schedules⟩

namespace OStream

/-- `writev`, with the number of bytes that the socket takes: these bytes of the vectors, in
order. -/
def writev (data : ByteBuf) (answer : Except IoError Nat) :
    Except Fault (Except IoError (List UInt8) × ByteBuf) := do
  let iovs ← data.get 0 getIovs
  match answer with
  | .error e => .ok (.error e, data)
  | .ok n => .ok (.ok (iovs.flatten.take n), (data.skip n).2)

def pollSend (nio : Nio) (data : ByteBuf) (schedules : Slab (Schedule τ)) (current : τ)
    (answer : Except IoError Nat) (result : Except ErrorKind Unit) : Except Fault (Sent τ) :=
  if data.isEmpty then .ok ⟨.ok (.ready ()), none, nio, data, schedules⟩
  else do
    match ← nio.isWriteReady schedules with
    | false => .ok ⟨.ok .notReady, none, nio, data, schedules⟩
    | true =>
        let (written, data) ← writev data answer
        match written with
        | .ok taken =>
            let data := data.compact
            if data.isEmpty then
              let (r, nio, schedules) ← nio.cancelWrite schedules result
              .ok ⟨afterCall r (.ready ()), some taken, nio, data, schedules⟩
            else
              let (r, nio, schedules) ← nio.scheduleWrite schedules current result
              .ok ⟨afterCall r .notReady, some taken, nio, data, schedules⟩
        | .error e =>
            match e.kind with
            | .wouldBlock =>
                let (r, nio, schedules) ← nio.scheduleWrite schedules current result
                .ok ⟨afterCall r .notReady, some [], nio, data, schedules⟩
            | .other _ => .ok ⟨.error e, some [], nio, data, schedules⟩

end OStream

section Schedules

variable {schedules schedules' : Slab (Schedule τ)} {schedule schedule' : Schedule τ}
  {token : Nat} {nio : Nio} {result : Except ErrorKind Unit} {f : Schedule τ → Schedule τ}

/-- The schedule under one token has changed, and no other. -/
structure Changed (schedules schedules' : Slab (Schedule τ)) (token : Nat)
    (schedule schedule' : Schedule τ) : Prop where
  get_self : schedules'.get token = some schedule'
  get_other : ∀ other, other ≠ token → schedules'.get other = schedules.get other
  registration_eq : schedule'.registration = schedule.registration

theorem Changed.refl (hget : schedules.get token = some schedule) :
    Changed schedules schedules token schedule schedule := ⟨hget, fun _ _ => rfl, rfl⟩

theorem changed_modify (hget : schedules.get token = some schedule)
    (hf : (f schedule).registration = schedule.registration) :
    Changed schedules (schedules.modify token f) token schedule (f schedule) := by
  refine ⟨?_, ?_, hf⟩
  · rw [Slab.get_modify, if_pos rfl, hget]
    rfl
  · intro other hne
    rw [Slab.get_modify, if_neg hne]

/-- The schedule is changed when the poller has agreed. -/
def Schedule.when (schedule : Schedule τ) (result : Except ErrorKind Unit)
    (f : Schedule τ → Schedule τ) : Schedule τ :=
  match result with
  | .ok () => f schedule
  | .error _ => schedule

namespace Nio

theorem isReady_eq (hget : schedules.get nio.token = some schedule) (cached : Bool)
    (ready : Schedule τ → Bool) :
    nio.isReady schedules cached ready = .ok (!cached || ready schedule) := by
  cases cached with
  | false => rfl
  | true => rw [isReady, if_pos rfl, hget, Bool.not_true, Bool.false_or]

theorem reregister_eq (hget : schedules.get nio.token = some schedule)
    (hf : (f schedule).registration = schedule.registration) (ops : Ops) :
    ∃ schedules', nio.reregister schedules ops result f =
        .ok (result, { nio with schedOps := ops }, schedules') ∧
      Changed schedules schedules' nio.token schedule (schedule.when result f) := by
  match result with
  | .ok () =>
      refine ⟨schedules.modify nio.token f, ?_, changed_modify hget hf⟩
      rw [reregister, modifySchedule, hget]
      rfl
  | .error e => exact ⟨schedules, rfl, .refl hget⟩

theorem interest_eq (hget : schedules.get nio.token = some schedule)
    (hf : (f schedule).registration = schedule.registration) {cached : Bool} {ops : Ops}
    (hops : cached = true → ops = nio.schedOps) :
    ∃ r schedules',
      (if cached = true then .ok (.ok (), nio, schedules)
        else nio.reregister schedules ops result f) =
        .ok (r, { nio with schedOps := ops }, schedules') ∧
      Changed schedules schedules' nio.token schedule
        (if cached = true then schedule else schedule.when r f) := by
  cases cached with
  | true => exact ⟨.ok (), schedules, by rw [hops rfl]; rfl, .refl hget⟩
  | false =>
      obtain ⟨schedules', heq, hchanged⟩ := reregister_eq hget hf ops
      exact ⟨result, schedules', heq, hchanged⟩

theorem scheduleRead_eq (hget : schedules.get nio.token = some schedule) (current : τ)
    (result : Except ErrorKind Unit) :
    ∃ r schedules', nio.scheduleRead schedules current result =
        .ok (r, { nio with schedOps := { nio.schedOps with read := true } }, schedules') ∧
      Changed schedules schedules' nio.token schedule
        (if nio.schedOps.read = true then schedule
          else schedule.when r (·.scheduleRead current)) :=
  interest_eq hget rfl fun hread => by rw [← hread]

theorem scheduleWrite_eq (hget : schedules.get nio.token = some schedule) (current : τ)
    (result : Except ErrorKind Unit) :
    ∃ r schedules', nio.scheduleWrite schedules current result =
        .ok (r, { nio with schedOps := { nio.schedOps with write := true } }, schedules') ∧
      Changed schedules schedules' nio.token schedule
        (if nio.schedOps.write = true then schedule
          else schedule.when r (·.scheduleWrite current)) :=
  interest_eq hget rfl fun hwrite => by rw [← hwrite]

theorem cancelWrite_eq (hget : schedules.get nio.token = some schedule)
    (result : Except ErrorKind Unit) :
    ∃ r schedules', nio.cancelWrite schedules result =
        .ok (r, { nio with schedOps := { nio.schedOps with write := false } }, schedules') ∧
      Changed schedules schedules' nio.token schedule
        (if nio.schedOps.write = false then schedule
          else schedule.when r Schedule.cancelWrite) := by
  have hops : (!nio.schedOps.write) = true →
      { nio.schedOps with write := false } = nio.schedOps := by
    intro hwrite
    rw [Bool.not_eq_true'] at hwrite
    rw [← hwrite]
  obtain ⟨r, schedules', heq, hchanged⟩ :=
    @interest_eq _ _ _ _ result Schedule.cancelWrite hget rfl (!nio.schedOps.write) _ hops
  simp only [Bool.not_eq_true'] at heq hchanged
  refine ⟨r, schedules', ?_, hchanged⟩
  rw [cancelWrite, ← heq]
  cases nio.schedOps.write <;> rfl

end Nio

theorem Schedule.when_readTask (schedule : Schedule τ) (r : Except ErrorKind Unit)
    (hf : (f schedule).readTask = schedule.readTask) :
    (schedule.when r f).readTask = schedule.readTask := by
  match r with
  | .ok () => exact hf
  | .error _ => rfl

theorem Schedule.when_writeTask (schedule : Schedule τ) (r : Except ErrorKind Unit)
    (hf : (f schedule).writeTask = schedule.writeTask) :
    (schedule.when r f).writeTask = schedule.writeTask := by
  match r with
  | .ok () => exact hf
  | .error _ => rfl

theorem ok_of_tells_afterCall {r : Except ErrorKind Unit} {value : Async α} {asked : Bool}
    (h : tells (afterCall r value) asked = true) : r = .ok () ∧ value = .notReady := by
  match r, value with
  | .ok (), .notReady => exact ⟨rfl, rfl⟩
  | .ok (), .ready _ => cases h
  | .error _, _ => cases h

/-- The socket took less than it was given, or nothing. -/
def blocked (data : ByteBuf) : Except IoError Nat → Bool
  | .ok n => n < data.len
  | .error e => e.kind = .wouldBlock

/-- What `poll_send` is to come to: the bytes are in the socket or in the buffer, and a caller that
is to wait for the socket is recorded, unless the interest was there already. -/
structure Sends (nio : Nio) (data : ByteBuf) (schedules : Slab (Schedule τ)) (current : τ)
    (answer : Except IoError Nat) (out : Sent τ) (schedule schedule' : Schedule τ) : Prop where
  changed : Changed schedules out.schedules nio.token schedule schedule'
  token_eq : out.nio.token = nio.token
  read_eq : out.nio.schedOps.read = nio.schedOps.read
  readTask_eq : schedule'.readTask = schedule.readTask
  content_eq : out.taken.getD [] ++ out.data.content = data.content
  drained : out.poll = .ok (.ready ()) → out.data.content = []
  stays : tells out.poll out.taken.isSome = false → schedule'.writeTask = schedule.writeTask
  waits : tells out.poll out.taken.isSome = true →
    data.isEmpty = false ∧ (nio.schedOps.write = true → schedule.writeReady = true) ∧
      blocked data answer = true ∧
      schedule'.writeTask = if nio.schedOps.write = true then schedule.writeTask else current

/-- What `poll_recv` is to come to. -/
structure Recvs (nio : Nio) (schedules : Slab (Schedule τ)) (current : τ)
    (answer : Except IoError (List UInt8)) (out : Received τ) (schedule schedule' : Schedule τ) :
    Prop where
  changed : Changed schedules out.schedules nio.token schedule schedule'
  token_eq : out.nio.token = nio.token
  writeTask_eq : schedule'.writeTask = schedule.writeTask
  cached : nio.schedOps.read = true →
    out.nio.schedOps.read = true ∧ schedule'.readTask = schedule.readTask
  waits : tells out.poll out.asked = true →
    (nio.schedOps.read = true → schedule.readReady = true) ∧ answer = .error ⟨.wouldBlock⟩ ∧
      out.nio.schedOps.read = true ∧
      schedule'.readTask = if nio.schedOps.read = true then schedule.readTask else current

namespace OStream

theorem writev_eq {data : ByteBuf} (h : data.content ≠ []) (answer : Except IoError Nat) :
    writev data answer = .ok (match answer with
      | .error e => (.error e, data)
      | .ok n => (.ok (data.content.take n), (data.skip n).2)) := by
  have hiovs : (getIovs (getBlocks (data.blocks.drop data.idx) 0)).flatten = data.content :=
    bytesOf_getBlocks _
  rw [writev, data.get_zero h]
  match answer with
  | .error _ => rfl
  | .ok n =>
      simp only [bind, Except.bind, hiovs]

variable {data data' : ByteBuf} {current : τ} {answer : Except IoError Nat}
  {taken : List UInt8}

theorem sends_wait (hget : schedules.get nio.token = some schedule)
    (hne : data.isEmpty = false)
    (hready : nio.schedOps.write = true → schedule.writeReady = true)
    (hblocked : blocked data answer = true) (hcontent : taken ++ data'.content = data.content)
    (result : Except ErrorKind Unit) :
    ∃ r nio' schedules' schedule',
      nio.scheduleWrite schedules current result = .ok (r, nio', schedules') ∧
      Sends nio data schedules current answer
        ⟨afterCall r .notReady, some taken, nio', data', schedules'⟩ schedule schedule' := by
  obtain ⟨r, schedules', hcall, hchanged⟩ := Nio.scheduleWrite_eq hget current result
  refine ⟨r, _, schedules', _, hcall, hchanged, rfl, rfl, ?_, hcontent, ?_, ?_, ?_⟩
  · split
    · rfl
    · exact schedule.when_readTask r rfl
  · match r with
    | .ok () =>
        intro h
        cases h
    | .error _ =>
        intro h
        cases h
  · intro htells
    match r with
    | .ok () => cases htells
    | .error _ => exact congrArg Schedule.writeTask (ite_self schedule)
  · intro htells
    obtain ⟨rfl, -⟩ := ok_of_tells_afterCall htells
    refine ⟨hne, hready, hblocked, ?_⟩
    rw [apply_ite Schedule.writeTask]
    rfl

theorem sends_drained (hget : schedules.get nio.token = some schedule)
    (hcontent : taken = data.content) (hempty : data'.content = [])
    (result : Except ErrorKind Unit) :
    ∃ r nio' schedules' schedule',
      nio.cancelWrite schedules result = .ok (r, nio', schedules') ∧
      Sends nio data schedules current answer
        ⟨afterCall r (.ready ()), some taken, nio', data', schedules'⟩ schedule schedule' := by
  obtain ⟨r, schedules', hcall, hchanged⟩ := Nio.cancelWrite_eq hget result
  have htells : tells (afterCall r (.ready ())) true = false := by
    match r with
    | .ok () => rfl
    | .error _ => rfl
  refine ⟨r, _, schedules', _, hcall, hchanged, rfl, rfl, ?_, ?_, fun _ => hempty, fun _ => ?_,
    fun h => absurd h (Bool.eq_false_iff.mp htells)⟩
  · split
    · rfl
    · exact schedule.when_readTask r rfl
  · rw [hempty, List.append_nil]
    exact hcontent
  · split
    · rfl
    · exact schedule.when_writeTask r rfl

theorem content_skip_compact (data : ByteBuf) (n : Nat) :
    (data.skip n).2.compact.content = data.content.drop n := by
  rw [ByteBuf.content_compact, ByteBuf.content_skip]

theorem blocked_of_left {n : Nat} (h : (data.skip n).2.compact.isEmpty = false) :
    blocked data (.ok n) = true := by
  refine decide_eq_true (Nat.lt_of_not_le fun hle => ?_)
  have hnone := content_skip_compact data n
  rw [List.drop_of_length_le (data.len_eq ▸ hle), ← ByteBuf.isEmpty_iff, h] at hnone
  exact Bool.false_ne_true hnone

theorem pollSend_ok (hget : schedules.get nio.token = some schedule) (data : ByteBuf) (current : τ)
    (answer : Except IoError Nat) (result : Except ErrorKind Unit) :
    ∃ out schedule', pollSend nio data schedules current answer result = .ok out ∧
      Sends nio data schedules current answer out schedule schedule' := by
  rw [pollSend]
  cases hempty : data.isEmpty with
  | true =>
      refine ⟨_, schedule, rfl, .refl hget, rfl, rfl, rfl, rfl, ?_, fun _ => rfl,
        fun h => by cases h⟩
      exact fun _ => ByteBuf.isEmpty_iff.mp hempty
  | false =>
      have hne : data.content ≠ [] := by
        rw [← ByteBuf.isEmpty_iff.ne, hempty]
        exact Bool.false_ne_true
      have hcheck : nio.isWriteReady schedules =
          .ok (!nio.schedOps.write || schedule.writeReady) := Nio.isReady_eq hget _ _
      rw [if_neg Bool.false_ne_true, hcheck]
      cases hready : !nio.schedOps.write || schedule.writeReady with
      | false =>
          exact ⟨_, schedule, rfl, .refl hget, rfl, rfl, rfl, rfl, fun h => (by cases h),
            fun _ => rfl, fun h => (by cases h)⟩
      | true =>
          have hready' : nio.schedOps.write = true → schedule.writeReady = true := by
            intro hwrite
            rwa [hwrite, Bool.not_true, Bool.false_or] at hready
          match answer with
          | .error ⟨.other code⟩ =>
              refine ⟨_, schedule, bind_of_ok rfl (bind_of_ok (writev_eq hne _) rfl), .refl hget,
                rfl, rfl, rfl, rfl, fun h => (by cases h), fun _ => rfl, fun h => (by cases h)⟩
          | .error ⟨.wouldBlock⟩ =>
              obtain ⟨r, nio', schedules', schedule', hcall, hsends⟩ :=
                @sends_wait _ _ _ _ data data current (.error ⟨.wouldBlock⟩) [] hget hempty hready'
                  rfl rfl result
              refine ⟨_, schedule', ?_, hsends⟩
              exact bind_of_ok rfl (bind_of_ok (writev_eq hne _) (bind_of_ok hcall rfl))
          | .ok n =>
              have hcontent : data.content.take n ++ (data.skip n).2.compact.content =
                  data.content := by rw [content_skip_compact, List.take_append_drop]
              cases hleft : (data.skip n).2.compact.isEmpty with
              | true =>
                  have hnil := ByteBuf.isEmpty_iff.mp hleft
                  rw [hnil, List.append_nil] at hcontent
                  obtain ⟨r, nio', schedules', schedule', hcall, hsends⟩ :=
                    @sends_drained _ _ _ _ data _ current (.ok n) _ hget hcontent hnil result
                  refine ⟨_, schedule', ?_, hsends⟩
                  refine bind_of_ok rfl (bind_of_ok (writev_eq hne _) ?_)
                  dsimp only
                  rw [if_pos hleft]
                  exact bind_of_ok hcall rfl
              | false =>
                  obtain ⟨r, nio', schedules', schedule', hcall, hsends⟩ :=
                    @sends_wait _ _ _ _ data _ current (.ok n) _ hget hempty hready'
                      (blocked_of_left hleft) hcontent result
                  refine ⟨_, schedule', ?_, hsends⟩
                  refine bind_of_ok rfl (bind_of_ok (writev_eq hne _) ?_)
                  dsimp only
                  rw [if_neg (Bool.eq_false_iff.mp hleft)]
                  exact bind_of_ok hcall rfl

end OStream

theorem Buffer.readv_error {self : Buffer} {allocs : List Nat}
    {answer : Except IoError (List UInt8)} {e : IoError} {rest : Buffer × List Nat}
    (h : self.readv allocs answer = .ok (.error e, rest)) : answer = .error e := by
  match answer with
  | .error _ =>
      cases h
      rfl
  | .ok bytes =>
      simp only [readv] at h
      split at h
      · cases h
      · split at h
        · obtain ⟨_, -, h⟩ := ok_of_bind_ok h
          obtain ⟨_, -, h⟩ := ok_of_bind_ok h
          cases h
        · obtain ⟨_, -, h⟩ := ok_of_bind_ok h
          obtain ⟨_, -, h⟩ := ok_of_bind_ok h
          obtain ⟨_, -, h⟩ := ok_of_bind_ok h
          split at h
          · cases h
          · cases h

namespace IStream

variable {current : τ} {answer : Except IoError (List UInt8)} {buffer : Buffer}
  {allocs : List Nat}

theorem recvs_schedule {r : Except ErrorKind Unit} {nio' : Nio} {value : Async (Option ByteBuf)}
    (hget : schedules.get nio.token = some schedule)
    (hready : nio.schedOps.read = true → schedule.readReady = true)
    (hanswer : value = .notReady → answer = .error ⟨.wouldBlock⟩)
    (hcall : nio.scheduleRead schedules current result = .ok (r, nio', schedules')) :
    ∃ schedule', Recvs nio schedules current answer
      ⟨afterCall r value, true, nio', buffer, allocs, schedules'⟩ schedule schedule' := by
  obtain ⟨r', schedules'', hcall', hchanged⟩ := Nio.scheduleRead_eq hget current result
  rw [hcall] at hcall'
  cases hcall'
  refine ⟨_, hchanged, rfl, ?_, fun hread => ⟨rfl, ?_⟩, ?_⟩
  · split
    · rfl
    · exact schedule.when_writeTask r rfl
  · rw [if_pos hread]
  · intro htells
    obtain ⟨rfl, hvalue⟩ := ok_of_tells_afterCall htells
    refine ⟨hready, hanswer hvalue, rfl, ?_⟩
    rw [apply_ite Schedule.readTask]
    rfl

theorem pollRecv_ok {out : Received τ} (hget : schedules.get nio.token = some schedule)
    (hstep : pollRecv nio buffer allocs schedules current answer result = .ok out) :
    ∃ schedule', Recvs nio schedules current answer out schedule schedule' := by
  have hunasked : ∀ {poll : Poll (Option ByteBuf)} {asked : Bool} {buffer : Buffer}
      {allocs : List Nat}, tells poll asked = false →
      Recvs nio schedules current answer ⟨poll, asked, nio, buffer, allocs, schedules⟩ schedule
        schedule :=
    fun htells => ⟨.refl hget, rfl, rfl, fun hread => ⟨hread, rfl⟩,
      fun h => absurd h (Bool.eq_false_iff.mp htells)⟩
  obtain ⟨ready, hcheck, hstep⟩ := ok_of_bind_ok hstep
  rw [Nio.isReadReady, Nio.isReady_eq hget] at hcheck
  cases ready with
  | false =>
      cases hstep
      exact ⟨schedule, hunasked rfl⟩
  | true =>
      have hready : nio.schedOps.read = true → schedule.readReady = true := by
        intro hread
        rw [hread, Bool.not_true, Bool.false_or] at hcheck
        exact Except.ok.inj hcheck
      obtain ⟨⟨received, buffer, allocs⟩, hreadv, hstep⟩ := ok_of_bind_ok hstep
      match received with
      | .ok (some (data, n)) =>
          obtain ⟨⟨r, nio', schedules'⟩, hcall, hstep⟩ := ok_of_bind_ok hstep
          cases hstep
          exact recvs_schedule hget hready (fun h => by cases h) hcall
      | .ok none =>
          cases hstep
          exact ⟨schedule, hunasked rfl⟩
      | .error ⟨.wouldBlock⟩ =>
          obtain ⟨⟨r, nio', schedules'⟩, hcall, hstep⟩ := ok_of_bind_ok hstep
          cases hstep
          exact recvs_schedule hget hready (fun _ => Buffer.readv_error hreadv) hcall
      | .error ⟨.other code⟩ =>
          cases hstep
          exact ⟨schedule, hunasked rfl⟩

end IStream

end Schedules

end Ruyi.Sys
