import Ruyi.Net.Tcp

namespace Ruyi.Net

open Buf Sys

variable {τ : Type}

/-- The tasks that a ready event runs. -/
def tasks : ReadyTasks τ → List τ
  | .single task => [task]
  | .pair task1 task2 => [task1, task2]

/-- The task that is told to wait until the socket of stream `i` can be read. -/
def StreamEvent.readTold (i : Nat) : StreamEvent τ → Option τ
  | .received j task asked poll => if j = i ∧ tells poll asked = true then some task else none
  | _ => none

def StreamEvent.writeTold (i : Nat) : StreamEvent τ → Option τ
  | .sent j task taken poll =>
      if j = i ∧ tells poll taken.isSome = true then some task else none
  | _ => none

/-- The last task that was told to wait. -/
def waiting (told : StreamEvent τ → Option τ) (log : List (StreamEvent τ)) : Option τ :=
  (log.filterMap told).getLast?

/-- The poll of a sink that is to wait finds the interest missing, or itself recorded. -/
def SendHeeded (s : Streams τ) (i : Nat) (task : τ) (answer : Except IoError Nat) : Prop :=
  ∀ stream ∈ s.streams i, ∀ schedule ∈ s.schedules.get stream.inner.token,
    stream.buf.isEmpty = false → blocked stream.buf answer = true →
      stream.inner.schedOps.write = true → schedule.writeReady = true → schedule.writeTask = task

/-- A poll that asks the socket, and is to wait for it, finds the interest missing, or itself
recorded. -/
def Heeded (s : Streams τ) : StreamAction τ → Prop
  | .pollRecv i task answer _ =>
      ∀ stream ∈ s.streams i, ∀ schedule ∈ s.schedules.get stream.inner.token,
        answer = .error ⟨.wouldBlock⟩ → stream.inner.schedOps.read = true →
          schedule.readReady = true → schedule.readTask = task
  | .pollComplete i task answer _ => SendHeeded s i task answer
  | .close i task answer _ _ => SendHeeded s i task answer
  | _ => True

variable {i : Nat} {log : List (StreamEvent τ)} {e : StreamEvent τ} {s : Streams τ}
  {stream stream' : Sender} {schedule schedule' : Schedule τ} {a : StreamAction τ} {task : τ}

theorem waiting_concat (told : StreamEvent τ → Option τ) (log : List (StreamEvent τ))
    (e : StreamEvent τ) : waiting told (log ++ [e]) = (told e).or (waiting told log) := by
  rw [waiting, List.filterMap_append, List.getLast?_append]
  cases htold : told e with
  | none => rw [List.filterMap_cons_none htold]; rfl
  | some task => rw [List.filterMap_cons_some htold]; rfl

theorem readTold_of_ne (h : e.stream ≠ some i) : e.readTold i = none := by
  match e with
  | .received j _ _ _ => exact if_neg fun hj => h (congrArg some hj.1)
  | .opened _ _ | .dropped _ | .started _ _ | .sent _ _ _ _ | .ready _ _ => rfl

theorem writeTold_of_ne (h : e.stream ≠ some i) : e.writeTold i = none := by
  match e with
  | .sent j _ _ _ => exact if_neg fun hj => h (congrArg some hj.1)
  | .opened _ _ | .dropped _ | .started _ _ | .received _ _ _ _ | .ready _ _ => rfl

theorem SendHeeded.of_send {answer : Except IoError Nat} (h : Heeded s a)
    (hsend : a.send = some (i, task, answer)) : SendHeeded s i task answer := by
  match a with
  | .pollComplete _ _ _ _ | .close _ _ _ _ _ =>
      cases hsend
      exact h
  | .tryFrom _ _ | .drop _ _ | .startSend _ _ | .pollRecv _ _ _ _ | .event _ => cases hsend

/-- The tasks that wait are recorded. -/
structure Waits (i : Nat) (log : List (StreamEvent τ)) (stream : Sender) (schedule : Schedule τ) :
    Prop where
  read : ∀ task, waiting (StreamEvent.readTold i) log = some task →
    stream.inner.schedOps.read = true ∧ schedule.readTask = task
  write : ∀ task, waiting (StreamEvent.writeTold i) log = some task → schedule.writeTask = task

theorem recvs_recorded_iff {schedules : Slab (Schedule τ)} {nio : Nio} {out : Received τ}
    {answer : Except IoError (List UInt8)}
    (h : Recvs nio schedules task answer out schedule schedule')
    (htells : tells out.poll out.asked = true) :
    schedule'.readTask = task ↔ (nio.schedOps.read = true → schedule.readTask = task) := by
  rw [(h.waits htells).2.2.2]
  exact ite_eq_right_iff

theorem sends_recorded_iff {schedules : Slab (Schedule τ)} {nio : Nio} {data : ByteBuf}
    {out : Sent τ} {answer : Except IoError Nat}
    (h : Sends nio data schedules task answer out schedule schedule')
    (htells : tells out.poll out.taken.isSome = true) :
    schedule'.writeTask = task ↔ (nio.schedOps.write = true → schedule.writeTask = task) := by
  rw [(h.waits htells).2.2.2]
  exact ite_eq_right_iff

theorem waits_opened (hlog : ∀ e ∈ log, e.stream ≠ some i) :
    Waits i (log ++ [.opened i (.ok ())]) stream schedule := by
  have hread : waiting (StreamEvent.readTold i) log = none := by
    rw [waiting, List.filterMap_eq_nil_iff.mpr fun e he => readTold_of_ne (hlog e he)]
    rfl
  have hwrite : waiting (StreamEvent.writeTold i) log = none := by
    rw [waiting, List.filterMap_eq_nil_iff.mpr fun e he => writeTold_of_ne (hlog e he)]
    rfl
  constructor
  · intro task h
    rw [waiting_concat, hread] at h
    cases h
  · intro task h
    rw [waiting_concat, hwrite] at h
    cases h

theorem Waits.untold (h : Waits i log stream schedule) (hread : e.readTold i = none)
    (hwrite : e.writeTold i = none) (hinner : stream'.inner = stream.inner)
    (hreadTask : schedule'.readTask = schedule.readTask)
    (hwriteTask : schedule'.writeTask = schedule.writeTask) :
    Waits i (log ++ [e]) stream' schedule' := by
  constructor
  · intro task hwaiting
    rw [waiting_concat, hread] at hwaiting
    rw [hinner, hreadTask]
    exact h.read task hwaiting
  · intro task hwaiting
    rw [waiting_concat, hwrite] at hwaiting
    rw [hwriteTask]
    exact h.write task hwaiting

theorem Waits.sent (h : Waits i log stream schedule) (hi : s.Tracks i stream schedule)
    {schedules : Slab (Schedule τ)} {answer : Except IoError Nat} {out : Sent τ}
    (hheeded : SendHeeded s i task answer)
    (hsends : Sends stream.inner stream.buf schedules task answer out schedule schedule') :
    Waits i (log ++ [.sent i task out.taken out.poll]) ⟨out.nio, out.data⟩ schedule' := by
  constructor
  · intro waiter hwaiting
    rw [waiting_concat] at hwaiting
    obtain ⟨hread, htask⟩ := h.read waiter hwaiting
    exact ⟨hsends.read_eq.trans hread, hsends.readTask_eq.trans htask⟩
  · intro waiter hwaiting
    rw [waiting_concat, StreamEvent.writeTold] at hwaiting
    cases htells : tells out.poll out.taken.isSome with
    | false =>
        rw [htells, if_neg fun hcon => Bool.false_ne_true hcon.2] at hwaiting
        rw [hsends.stays htells]
        exact h.write waiter hwaiting
    | true =>
        rw [htells, if_pos ⟨rfl, rfl⟩] at hwaiting
        cases hwaiting
        obtain ⟨hempty, hready, hblocked, -⟩ := hsends.waits htells
        refine (sends_recorded_iff hsends htells).mpr fun hwrite => ?_
        exact hheeded stream hi.stream_eq schedule hi.get_eq hempty hblocked hwrite (hready hwrite)

theorem Waits.received (h : Waits i log stream schedule) (hi : s.Tracks i stream schedule)
    {schedules : Slab (Schedule τ)} {answer : Except IoError (List UInt8)} {out : Received τ}
    {result : Except ErrorKind Unit} (hheeded : Heeded s (.pollRecv i task answer result))
    (hrecvs : Recvs stream.inner schedules task answer out schedule schedule') :
    Waits i (log ++ [.received i task out.asked out.poll]) ⟨out.nio, stream.buf⟩ schedule' := by
  constructor
  · intro waiter hwaiting
    rw [waiting_concat, StreamEvent.readTold] at hwaiting
    cases htells : tells out.poll out.asked with
    | false =>
        rw [htells, if_neg fun hcon => Bool.false_ne_true hcon.2] at hwaiting
        obtain ⟨hread, htask⟩ := h.read waiter hwaiting
        obtain ⟨hread', htask'⟩ := hrecvs.cached hread
        exact ⟨hread', htask'.trans htask⟩
    | true =>
        rw [htells, if_pos ⟨rfl, rfl⟩] at hwaiting
        cases hwaiting
        obtain ⟨hready, hanswer, hread', -⟩ := hrecvs.waits htells
        refine ⟨hread', (recvs_recorded_iff hrecvs htells).mpr fun hread => ?_⟩
        exact hheeded stream hi.stream_eq schedule hi.get_eq hanswer hread (hready hread)
  · intro waiter hwaiting
    rw [waiting_concat] at hwaiting
    exact hrecvs.writeTask_eq.trans (h.write waiter hwaiting)

theorem waits_moves (h : Waits i log stream schedule) (hi : s.Tracks i stream schedule)
    (hheeded : Heeded s a) (hmoves : Moves i stream schedule a e stream' schedule') :
    Waits i (log ++ [e]) stream' schedule' := by
  cases hmoves with
  | idle hother =>
      exact h.untold (readTold_of_ne hother) (writeTold_of_ne hother) rfl rfl rfl
  | ready _ =>
      obtain ⟨hread, hwrite, -⟩ := getReadyTasks_snd _ schedule
      exact h.untold rfl rfl rfl hread hwrite
  | started data => exact h.untold rfl rfl (stream.inner_startSend data) rfl rfl
  | sent hsend hsends => exact h.sent hi (.of_send hheeded hsend) hsends
  | received hrecvs => exact h.received hi hheeded hrecvs

theorem mem_tasks_of_read {event : Event} (h : event.isRead = true) (schedule : Schedule τ) :
    schedule.readTask ∈ tasks (getReadyTasks event schedule).1 := by
  unfold getReadyTasks
  rw [h]
  cases event.isWrite with
  | true => exact List.mem_cons_self
  | false => exact List.mem_cons_self

theorem mem_tasks_of_write {event : Event} (h : event.isWrite = true) (schedule : Schedule τ) :
    schedule.writeTask ∈ tasks (getReadyTasks event schedule).1 := by
  unfold getReadyTasks
  rw [h]
  cases event.isRead with
  | true => exact List.mem_cons_of_mem _ List.mem_cons_self
  | false => exact List.mem_cons_self

/-- The task that waits is recorded, and the next event runs it. -/
theorem waiting_is_woken {buffer : Buffer} {allocs : List Nat}
    (h : streamMachine.Run Heeded (.init buffer allocs) log s) (hi : s.streams i = some stream) :
    ∃ schedule, s.schedules.get stream.inner.token = some schedule ∧
      (∀ task, waiting (StreamEvent.readTold i) log = some task → schedule.readTask = task) ∧
      (∀ task, waiting (StreamEvent.writeTold i) log = some task → schedule.writeTask = task) ∧
      ∀ event, event.token = stream.inner.token → ∃ ready t,
        s.step (.event event) = some (.ok (.ready event ready, t)) ∧
        (event.isRead = true → ∀ task, waiting (StreamEvent.readTold i) log = some task →
          task ∈ tasks ready) ∧
        (event.isWrite = true → ∀ task, waiting (StreamEvent.writeTold i) log = some task →
          task ∈ tasks ready) := by
  have heach := Streams.each_of_run (fun hlog _ => waits_opened hlog)
    (fun hP hi hheeded hmoves => waits_moves hP hi hheeded hmoves) h
  obtain ⟨schedule, htracks, hwaits⟩ := heach.each i stream hi
  refine ⟨schedule, htracks.get_eq, fun task hwaiting => (hwaits.read task hwaiting).2,
    hwaits.write, fun event htoken => ⟨_, _, htracks.event htoken, ?_, ?_⟩⟩
  · intro hread task hwaiting
    rw [← (hwaits.read task hwaiting).2]
    exact mem_tasks_of_read hread schedule
  · intro hwrite task hwaiting
    rw [← hwaits.write task hwaiting]
    exact mem_tasks_of_write hwrite schedule

section

variable [DecidableEq τ]

instance (s : Streams τ) (i : Nat) (task : τ) (answer : Except IoError Nat) :
    Decidable (SendHeeded s i task answer) :=
  inferInstanceAs (Decidable (∀ stream ∈ s.streams i,
    ∀ schedule ∈ s.schedules.get stream.inner.token, stream.buf.isEmpty = false → _))

instance (s : Streams τ) (a : StreamAction τ) : Decidable (Heeded s a) :=
  match a with
  | .pollRecv i task answer _ => inferInstanceAs (Decidable (∀ stream ∈ s.streams i,
      ∀ schedule ∈ s.schedules.get stream.inner.token, answer = .error ⟨.wouldBlock⟩ → _ → _ →
        schedule.readTask = task))
  | .pollComplete i task answer _ => inferInstanceAs (Decidable (SendHeeded s i task answer))
  | .close i task answer _ _ => inferInstanceAs (Decidable (SendHeeded s i task answer))
  | .tryFrom _ _ | .drop _ _ | .startSend _ _ | .event _ => inferInstanceAs (Decidable True)

end

/-- A stream that task 1 reads and writes until the socket blocks. -/
def oneWaits : List (StreamAction Nat) :=
  [.tryFrom 1 (.ok ()), .pollRecv 0 1 (.error ⟨.wouldBlock⟩) (.ok ()),
    .startSend 0 (.ofVec 0 [1, 2, 3] []), .pollComplete 0 1 (.ok 2) (.ok ())]

theorem waiting_is_woken_of_one :
    ∃ (log : List (StreamEvent Nat)) (s : Streams Nat) (stream : Sender) (schedule : Schedule Nat),
      streamMachine.Run Heeded (.init (Buffer.new []).1 []) log s ∧ s.streams 0 = some stream ∧
        s.schedules.get stream.inner.token = some schedule ∧ schedule.readTask = 1 ∧
        schedule.writeTask = 1 := by
  have hend : ((streamMachine.exec Heeded (oneWaits ++ [.event ⟨0, true, true⟩,
        .pollRecv 0 1 (.error ⟨.wouldBlock⟩) (.ok ()),
        .pollComplete 0 1 (.error ⟨.wouldBlock⟩) (.ok ())])
      (Streams.init (Buffer.new []).1 [])).map fun r =>
        (waiting (StreamEvent.readTold 0) r.1, waiting (StreamEvent.writeTold 0) r.1,
          (r.2.streams 0).map Sender.inner)) =
      some (some 1, some 1, some ⟨0, ⟨true, true⟩⟩) := by
    decide +kernel
  obtain ⟨⟨log, s⟩, hexec, heq⟩ := Option.map_eq_some_iff.mp hend
  obtain ⟨hread, heq⟩ := Prod.mk.inj heq
  obtain ⟨hwrite, hstream⟩ := Prod.mk.inj heq
  obtain ⟨stream, hi, -⟩ := Option.map_eq_some_iff.mp hstream
  have hrun := Base.Machine.Run.of_exec _ hexec
  obtain ⟨schedule, hget, hreads, hwrites, -⟩ := waiting_is_woken hrun hi
  exact ⟨log, s, stream, schedule, hrun, hi, hget, hreads 1 hread, hwrites 1 hwrite⟩

/-- The stream goes to task 2, which is told to wait, and task 1 is still the one recorded. -/
theorem moved_not_recorded :
    ¬ ∀ (log : List (StreamEvent Nat)) (s : Streams Nat) (stream : Sender) (task : Nat),
      streamMachine.Run (fun _ _ => True) (.init (Buffer.new []).1 []) log s →
        s.streams 0 = some stream → waiting (StreamEvent.readTold 0) log = some task →
          ∃ schedule, s.schedules.get stream.inner.token = some schedule ∧
            schedule.readTask = task := by
  intro h
  have hend : ((streamMachine.exec (fun _ _ => True) (oneWaits ++ [.event ⟨0, true, false⟩,
        .pollRecv 0 2 (.error ⟨.wouldBlock⟩) (.ok ())])
      (Streams.init (Buffer.new []).1 [])).map fun r =>
        (waiting (StreamEvent.readTold 0) r.1, (r.2.streams 0).map Sender.inner,
          (r.2.schedules.get 0).map Schedule.readTask)) =
      some (some 2, some ⟨0, ⟨true, true⟩⟩, some 1) := by
    decide +kernel
  obtain ⟨⟨log, s⟩, hexec, heq⟩ := Option.map_eq_some_iff.mp hend
  obtain ⟨hread, heq⟩ := Prod.mk.inj heq
  obtain ⟨hstream, hrecorded⟩ := Prod.mk.inj heq
  obtain ⟨stream, hi, hinner⟩ := Option.map_eq_some_iff.mp hstream
  obtain ⟨schedule, hget, htask⟩ := h log s stream 2 (.of_exec _ hexec) hi hread
  rw [hinner] at hget
  rw [hget, Option.map_some, htask] at hrecorded
  cases hrecorded

end Ruyi.Net
