import Ruyi.Service.Server

namespace Ruyi.Service

/-- A worker as the dispatcher and its thread have it: `conn_count`, the connections in its
channel and its `Session` values alive, each as the number of its connection. -/
structure Worker where
  connCount : Nat
  queue : List Nat
  sessions : List Nat

/-- What `Worker::send` returns.  It fails to write to the `eventfd` when the connection is in
the channel already, and finds the receiver gone before. -/
inductive SendResult where
  | ok
  | io
  | disconnected
  deriving DecidableEq

/-- Where the accept loop stands: waiting, about to read the count of the worker at `idx`, in
`send`, or about to count. -/
inductive AcceptLoop where
  | waiting
  | scan (conn idx : Nat)
  | send (conn idx : Nat)
  | count (idx : Nat)
  deriving DecidableEq

/-- `Inner` as `run` has it, with the workers and the accept loop.  `missed` counts the sessions
of each worker that have ended since the scan under way has read its count. -/
structure Dispatcher (w : Nat) where
  workers : Nat → Worker
  mask : Nat
  idx : Nat
  workerConns : Fin (2 ^ w)
  accepted : Nat
  missed : Nat → Nat
  loop : AcceptLoop

/-- The steps of the accept loop, and of the threads of the workers. -/
inductive DispatchAction where
  | accept
  | read
  | send (result : SendResult)
  | inc
  | receive (idx : Nat)
  | dropSession (idx conn : Nat)

inductive DispatchEvent where
  | chosen (conn idx : Nat)
  | refused (conn : Nat)
  | silent
  deriving DecidableEq

namespace Worker

def new : Worker := ⟨0, [], []⟩

/-- The connections handed to the worker whose sessions have not been dropped. -/
def outstanding (v : Worker) : Nat := v.queue.length + v.sessions.length

end Worker

namespace Dispatcher

variable {w : Nat}

/-- `Inner::init`, for as many workers as are there. -/
def init (mask : Nat) (workerConns : Fin (2 ^ w)) : Dispatcher w :=
  ⟨fun _ => Worker.new, mask, 0, workerConns, 0, fun _ => 0, .waiting⟩

def setWorker (s : Dispatcher w) (idx : Nat) (v : Worker) : Dispatcher w :=
  { s with workers := Function.update s.workers idx v }

/-- A turn of the loop of the closure, up to `send`. -/
def read (s : Dispatcher w) (conn idx : Nat) : Except Fault (DispatchEvent × Dispatcher w) :=
  if s.mask < idx then .error .freed
  else
    let next := (idx + 1) &&& s.mask
    if (s.workers idx).connCount < s.workerConns then
      .ok (.chosen conn idx, { s with idx := next, loop := .send conn idx })
    else
      let s := { s with missed := Function.update s.missed idx 0 }
      if next = s.idx then .ok (.refused conn, { s with loop := .waiting })
      else .ok (.silent, { s with loop := .scan conn next })

/-- `Worker::send`. -/
def send (s : Dispatcher w) (conn idx : Nat) (result : SendResult) : Dispatcher w :=
  let v := s.workers idx
  let sent := if result = .disconnected then v else { v with queue := v.queue ++ [conn] }
  { s.setWorker idx sent with loop := .count idx }

/-- `Worker::inc_conn_count`. -/
def inc (s : Dispatcher w) (idx : Nat) : Dispatcher w :=
  let v := s.workers idx
  { s.setWorker idx { v with connCount := fetchAdd w v.connCount } with loop := .waiting }

/-- The thread of a worker takes a connection from its channel and makes a `Session` of it. -/
def receive (s : Dispatcher w) (idx : Nat) : Option (Dispatcher w) :=
  let v := s.workers idx
  match v.queue with
  | [] => none
  | conn :: queue =>
      some (s.setWorker idx { v with queue := queue, sessions := conn :: v.sessions })

/-- The drop of a `Session`. -/
def dropSession (s : Dispatcher w) (idx conn : Nat) : Dispatcher w :=
  let v := s.workers idx
  { s.setWorker idx
      { v with connCount := fetchSub w v.connCount, sessions := v.sessions.erase conn } with
    missed := Function.update s.missed idx (s.missed idx + 1) }

def step (s : Dispatcher w) :
    DispatchAction → Option (Except Fault (DispatchEvent × Dispatcher w))
  | .accept =>
      match s.loop with
      | .waiting =>
          some (.ok (.silent,
            { s with accepted := s.accepted + 1, loop := .scan s.accepted s.idx }))
      | _ => none
  | .read =>
      match s.loop with
      | .scan conn idx => some (s.read conn idx)
      | _ => none
  | .send result =>
      match s.loop with
      | .send conn idx => some (.ok (.silent, s.send conn idx result))
      | _ => none
  | .inc =>
      match s.loop with
      | .count idx => some (.ok (.silent, s.inc idx))
      | _ => none
  | .receive idx => (s.receive idx).map fun s => .ok (.silent, s)
  | .dropSession idx conn =>
      if conn ∈ (s.workers idx).sessions then some (.ok (.silent, s.dropSession idx conn))
      else none

/-- `Worker::send` succeeds. -/
def Sends (_ : Dispatcher w) : DispatchAction → Prop
  | .send result => result = .ok
  | _ => True

/-- How many counts a scan reads before that of the worker at `idx`. -/
def turns (s : Dispatcher w) (idx : Nat) : Nat := (idx + (s.mask + 1) - s.idx) % (s.mask + 1)

/-- The scan under way has read the count of the worker at `idx`. -/
def Passed (s : Dispatcher w) (idx : Nat) : Prop :=
  match s.loop with
  | .scan _ i => s.turns idx < s.turns i
  | _ => False

/-- `Worker::send` succeeds, and no session of a worker ends between the read of its count and the
end of the scan. -/
def Steady (s : Dispatcher w) (a : DispatchAction) : Prop :=
  s.Sends a ∧
    match a with
    | .dropSession idx _ => ¬ s.Passed idx
    | _ => True

instance (s : Dispatcher w) (a : DispatchAction) : Decidable (s.Sends a) := by
  cases a <;> unfold Sends <;> infer_instance

instance (s : Dispatcher w) (idx : Nat) : Decidable (s.Passed idx) := by
  unfold Passed
  split <;> infer_instance

instance (s : Dispatcher w) (a : DispatchAction) : Decidable (s.Steady a) := by
  cases a <;> unfold Steady <;> infer_instance

end Dispatcher

def dispatchMachine (w : Nat) : Base.Machine (Dispatcher w) DispatchAction DispatchEvent Fault :=
  ⟨Dispatcher.step⟩

namespace Dispatcher

variable {w k : Nat} {s s' : Dispatcher w} {lost : Nat → Nat}

theorem send_workers (conn idx : Nat) (result : SendResult) :
    (s.send conn idx result).workers = Function.update s.workers idx
      (if result = .disconnected then s.workers idx
        else { s.workers idx with queue := (s.workers idx).queue ++ [conn] }) := rfl

theorem inc_workers (idx : Nat) :
    (s.inc idx).workers = Function.update s.workers idx
      { s.workers idx with connCount := fetchAdd w (s.workers idx).connCount } := rfl

/-- One for the worker whose connection is still to be counted. -/
def pending (s : Dispatcher w) (idx : Nat) : Nat := if s.loop = .count idx then 1 else 0

/-- The worker was full when the scan under way has read its count. -/
def Full (s : Dispatcher w) (lost : Nat → Nat) (idx : Nat) : Prop :=
  (s.workers idx).outstanding + lost idx + s.missed idx = s.workerConns

/-- The counts say what is outstanding and what was lost in a `send` that failed, no worker has too
much, and a scan has found full the workers it has passed. -/
structure Balanced (k : Nat) (lost : Nat → Nat) (s : Dispatcher w) : Prop where
  mask : s.mask = 2 ^ k - 1
  idx : s.idx < 2 ^ k
  count : ∀ i,
    (s.workers i).connCount + s.pending i ≡ (s.workers i).outstanding + lost i [MOD 2 ^ w]
  lt : ∀ i, (s.workers i).connCount < 2 ^ w
  room : ∀ i, (s.workers i).outstanding + lost i ≤ s.workerConns
  send : ∀ conn i, s.loop = .send conn i → (s.workers i).outstanding + lost i < s.workerConns
  scan : ∀ conn i, s.loop = .scan conn i →
    ∃ j < 2 ^ k, i = (s.idx + j) % 2 ^ k ∧ ∀ j' < j, s.Full lost ((s.idx + j') % 2 ^ k)

theorem balanced_init {workerConns : Fin (2 ^ w)} :
    Balanced k (fun _ => 0) (init (2 ^ k - 1) workerConns) where
  mask := rfl
  idx := Nat.two_pow_pos k
  count _ := Nat.ModEq.rfl
  lt _ := Nat.two_pow_pos w
  room _ := Nat.zero_le _
  send _ _ h := by cases h
  scan _ _ h := by cases h

theorem Balanced.read_eq (h : Balanced k lost s) {conn idx : Nat}
    (hloop : s.loop = .scan conn idx) (i : Nat) :
    (s.workers i).connCount = (s.workers i).outstanding + lost i := by
  have hcount := h.count i
  have hpending : s.pending i = 0 := by
    rw [pending, hloop, if_neg (by simp)]
  rw [hpending] at hcount
  exact hcount.eq_of_lt_of_lt (h.lt i) ((h.room i).trans_lt s.workerConns.isLt)

theorem next_eq (h : Balanced k lost s) {j : Nat} :
    ((s.idx + j) % 2 ^ k + 1) &&& s.mask = (s.idx + (j + 1)) % 2 ^ k := by
  rw [h.mask, Nat.and_two_pow_sub_one_eq_mod, Nat.mod_add_mod, Nat.add_assoc]

theorem all_of_next_eq (h : Balanced k lost s) {j : Nat} (hj : j < 2 ^ k)
    (hnext : (s.idx + (j + 1)) % 2 ^ k = s.idx) : j + 1 = 2 ^ k := by
  have hidx := h.idx
  by_contra hne
  have hlt : j + 1 < 2 ^ k := by omega
  rcases Nat.lt_or_ge (s.idx + (j + 1)) (2 ^ k) with hsmall | hlarge
  · rw [Nat.mod_eq_of_lt hsmall] at hnext
    omega
  · rw [Nat.mod_eq_sub_mod hlarge, Nat.mod_eq_of_lt (by omega)] at hnext
    omega

theorem exists_offset {start n i : Nat} (hstart : start < n) (hi : i < n) :
    ∃ j < n, i = (start + j) % n := by
  rcases Nat.lt_or_ge i start with hlt | hge
  · refine ⟨n + i - start, by omega, ?_⟩
    have hsum : start + (n + i - start) = i + n := by omega
    rw [hsum, Nat.add_mod_right, Nat.mod_eq_of_lt hi]
  · refine ⟨i - start, by omega, ?_⟩
    rw [Nat.add_sub_cancel' hge, Nat.mod_eq_of_lt hi]

theorem full_of_read (h : Balanced k lost s) {conn idx : Nat} (hloop : s.loop = .scan conn idx)
    (hfull : ¬ (s.workers idx).connCount < s.workerConns) {loop : AcceptLoop} :
    Full { s with missed := Function.update s.missed idx 0, loop := loop } lost idx := by
  have hcount := h.read_eq hloop idx
  have hroom := h.room idx
  rw [Full]
  dsimp only
  rw [Function.update_self]
  omega

theorem full_of_passed {idx i : Nat} {loop : AcceptLoop} (h : s.Full lost i) (hne : i ≠ idx) :
    Full { s with missed := Function.update s.missed idx 0, loop := loop } lost i := by
  rw [Full]
  dsimp only
  rw [Function.update_of_ne hne]
  exact h

theorem full_of_scan (h : Balanced k lost s) {conn idx j : Nat} (hloop : s.loop = .scan conn idx)
    (hfull : ¬ (s.workers idx).connCount < s.workerConns) (hidx : idx = (s.idx + j) % 2 ^ k)
    (hpassed : ∀ j' < j, s.Full lost ((s.idx + j') % 2 ^ k)) {loop : AcceptLoop} (j' : Nat)
    (hj' : j' < j + 1) :
    Full { s with missed := Function.update s.missed idx 0, loop := loop } lost
      ((s.idx + j') % 2 ^ k) := by
  by_cases hsame : (s.idx + j') % 2 ^ k = idx
  · rw [hsame]
    exact full_of_read h hloop hfull
  · refine full_of_passed (hpassed j' ?_) hsame
    rcases Nat.lt_succ_iff_lt_or_eq.mp hj' with hlt | rfl
    · exact hlt
    · exact absurd hidx.symm hsame

theorem balanced_accept (h : Balanced k lost s) (hloop : s.loop = .waiting) :
    Balanced k lost { s with accepted := s.accepted + 1, loop := .scan s.accepted s.idx } where
  mask := h.mask
  idx := h.idx
  count i := by
    have hcount := h.count i
    rw [pending, hloop] at hcount
    exact hcount
  lt := h.lt
  room := h.room
  send := by simp
  scan := by
    rintro _ _ ⟨⟩
    refine ⟨0, Nat.two_pow_pos k, ?_, fun j' hj' => absurd hj' (Nat.not_lt_zero j')⟩
    exact (Nat.mod_eq_of_lt h.idx).symm

theorem balanced_read {conn idx : Nat} {e : DispatchEvent} (h : Balanced k lost s)
    (hloop : s.loop = .scan conn idx) (hstep : s.read conn idx = .ok (e, s')) :
    Balanced k lost s' ∧ (e = .refused conn → ∀ i < 2 ^ k, s'.Full lost i) := by
  obtain ⟨j, hj, hidx, hpassed⟩ := h.scan conn idx hloop
  have hnext := next_eq h (j := j)
  rw [← hidx] at hnext
  have hcount : ∀ i,
      (s.workers i).connCount ≡ (s.workers i).outstanding + lost i [MOD 2 ^ w] := by
    intro i
    rw [h.read_eq hloop i]
  rw [read] at hstep
  split at hstep
  · cases hstep
  · dsimp only at hstep
    split at hstep
    · rename_i hroom
      cases hstep
      refine ⟨⟨h.mask, ?_, hcount, h.lt, h.room, ?_, by simp⟩, by simp⟩
      · rw [hnext]
        exact Nat.mod_lt _ (Nat.two_pow_pos k)
      · rintro _ _ ⟨⟩
        rw [h.read_eq hloop idx] at hroom
        exact hroom
    · rename_i hfull
      have hscanned : ∀ {loop : AcceptLoop}, ∀ j' < j + 1,
          Full { s with missed := Function.update s.missed idx 0, loop := loop } lost
            ((s.idx + j') % 2 ^ k) :=
        full_of_scan h hloop hfull hidx hpassed
      split at hstep
      · rename_i hback
        cases hstep
        refine ⟨⟨h.mask, h.idx, hcount, h.lt, h.room, by simp, by simp⟩, ?_⟩
        intro _ i hi
        have hall := all_of_next_eq h hj (hnext.symm.trans hback)
        obtain ⟨j', hj', rfl⟩ := exists_offset h.idx hi
        refine hscanned j' ?_
        rw [hall]
        exact hj'
      · rename_i hon
        cases hstep
        refine ⟨⟨h.mask, h.idx, hcount, h.lt, h.room, by simp, ?_⟩, by simp⟩
        rintro _ _ ⟨⟩
        refine ⟨j + 1, ?_, hnext, hscanned⟩
        by_contra hlast
        have hall : j + 1 = 2 ^ k := by omega
        rw [hall, Nat.add_mod_right, Nat.mod_eq_of_lt h.idx] at hnext
        exact hon hnext

theorem balanced_send {conn idx : Nat} {result : SendResult} (h : Balanced k lost s)
    (hloop : s.loop = .send conn idx) (hresult : result ≠ .disconnected) :
    Balanced k lost (s.send conn idx result) := by
  have hroom := h.send conn idx hloop
  have hpending : ∀ i, s.pending i = 0 := fun i => by rw [pending, hloop, if_neg (by simp)]
  have hself : (s.send conn idx result).workers idx =
      { s.workers idx with queue := (s.workers idx).queue ++ [conn] } := by
    rw [send_workers, if_neg hresult, Function.update_self]
  have hother : ∀ i, i ≠ idx → (s.send conn idx result).workers i = s.workers i :=
    fun i hi => Function.update_of_ne hi _ _
  have hout :
      ((s.send conn idx result).workers idx).outstanding = (s.workers idx).outstanding + 1 := by
    rw [hself, Worker.outstanding, Worker.outstanding, List.length_append, List.length_singleton,
      Nat.add_right_comm]
  refine ⟨h.mask, h.idx, ?_, ?_, ?_, by simp [send], by simp [send]⟩
  · intro i
    have hcount := h.count i
    rw [hpending] at hcount
    by_cases hi : i = idx
    · subst hi
      have hone : (s.send conn i result).pending i = 1 := if_pos rfl
      rw [hone, hout, hself, Nat.add_right_comm _ 1]
      exact hcount.add_right 1
    · have hzero : (s.send conn idx result).pending i = 0 :=
        if_neg fun heq => hi (AcceptLoop.count.inj heq).symm
      rw [hzero, hother i hi]
      exact hcount
  · intro i
    by_cases hi : i = idx
    · subst hi
      rw [hself]
      exact h.lt i
    · rw [hother i hi]
      exact h.lt i
  · intro i
    by_cases hi : i = idx
    · subst hi
      rw [hout, Nat.add_right_comm _ 1]
      exact hroom
    · rw [hother i hi]
      exact h.room i

theorem balanced_lost {conn idx : Nat} (h : Balanced k lost s) (hloop : s.loop = .send conn idx) :
    Balanced k (Function.update lost idx (lost idx + 1)) (s.send conn idx .disconnected) := by
  have hroom := h.send conn idx hloop
  have hpending : ∀ i, s.pending i = 0 := fun i => by rw [pending, hloop, if_neg (by simp)]
  have hworkers : (s.send conn idx .disconnected).workers = s.workers := by
    rw [send_workers, if_pos rfl, Function.update_eq_self]
  refine ⟨h.mask, h.idx, ?_, ?_, ?_, by simp [send], by simp [send]⟩
  · intro i
    have hcount := h.count i
    rw [hpending] at hcount
    rw [hworkers]
    by_cases hi : i = idx
    · subst hi
      have hone : (s.send conn i .disconnected).pending i = 1 := if_pos rfl
      rw [hone, Function.update_self]
      exact hcount.add_right 1
    · have hzero : (s.send conn idx .disconnected).pending i = 0 :=
        if_neg fun heq => hi (AcceptLoop.count.inj heq).symm
      rw [hzero, Function.update_of_ne hi]
      exact hcount
  · rw [hworkers]
    exact h.lt
  · intro i
    rw [hworkers]
    by_cases hi : i = idx
    · subst hi
      rw [Function.update_self]
      exact hroom
    · rw [Function.update_of_ne hi]
      exact h.room i

theorem balanced_inc {idx : Nat} (h : Balanced k lost s) (hloop : s.loop = .count idx) :
    Balanced k lost (s.inc idx) := by
  have hself : (s.inc idx).workers idx =
      { s.workers idx with connCount := fetchAdd w (s.workers idx).connCount } :=
    Function.update_self _ _ _
  have hother : ∀ i, i ≠ idx → (s.inc idx).workers i = s.workers i :=
    fun i hi => Function.update_of_ne hi _ _
  have hzero : ∀ i, (s.inc idx).pending i = 0 := fun i => if_neg (by simp [inc])
  refine ⟨h.mask, h.idx, ?_, ?_, ?_, by simp [inc], by simp [inc]⟩
  · intro i
    have hcount := h.count i
    rw [hzero i]
    by_cases hi : i = idx
    · subst hi
      have hone : s.pending i = 1 := if_pos hloop
      rw [hone] at hcount
      rw [hself]
      exact (fetchAdd_modEq w _).trans hcount
    · have hnone : s.pending i = 0 := by
        rw [pending, hloop]
        exact if_neg fun heq => hi (AcceptLoop.count.inj heq).symm
      rw [hnone] at hcount
      rw [hother i hi]
      exact hcount
  · intro i
    by_cases hi : i = idx
    · subst hi
      rw [hself]
      exact Nat.mod_lt _ (Nat.two_pow_pos w)
    · rw [hother i hi]
      exact h.lt i
  · intro i
    by_cases hi : i = idx
    · subst hi
      rw [hself]
      exact h.room i
    · rw [hother i hi]
      exact h.room i

theorem balanced_setWorker {idx : Nat} {v : Worker} {missed : Nat → Nat} (h : Balanced k lost s)
    (hcount : v.connCount + s.pending idx ≡ v.outstanding + lost idx [MOD 2 ^ w])
    (hlt : v.connCount < 2 ^ w)
    (hout : v.outstanding ≤ (s.workers idx).outstanding)
    (hself : v.outstanding + missed idx = (s.workers idx).outstanding + s.missed idx)
    (hmissed : ∀ i, i ≠ idx → missed i = s.missed i) :
    Balanced k lost { s.setWorker idx v with missed := missed } := by
  have hworker : (s.setWorker idx v).workers idx = v := Function.update_self _ _ _
  have hother : ∀ i, i ≠ idx → (s.setWorker idx v).workers i = s.workers i :=
    fun i hi => Function.update_of_ne hi _ _
  have hfull : ∀ i, s.Full lost i →
      Full { s.setWorker idx v with missed := missed } lost i := by
    intro i hfull
    by_cases hi : i = idx
    · subst hi
      rw [Full] at hfull ⊢
      dsimp only
      rw [hworker, Nat.add_right_comm, hself, Nat.add_right_comm]
      exact hfull
    · rw [Full]
      dsimp only
      rw [hother i hi, hmissed i hi]
      exact hfull
  refine ⟨h.mask, h.idx, ?_, ?_, ?_, ?_, ?_⟩
  · intro i
    by_cases hi : i = idx
    · subst hi
      dsimp only
      rw [hworker]
      exact hcount
    · dsimp only
      rw [hother i hi]
      exact h.count i
  · intro i
    by_cases hi : i = idx
    · subst hi
      dsimp only
      rw [hworker]
      exact hlt
    · dsimp only
      rw [hother i hi]
      exact h.lt i
  · intro i
    by_cases hi : i = idx
    · subst hi
      dsimp only
      rw [hworker]
      exact (Nat.add_le_add_right hout _).trans (h.room i)
    · dsimp only
      rw [hother i hi]
      exact h.room i
  · intro conn i hloop
    by_cases hi : i = idx
    · subst hi
      dsimp only
      rw [hworker]
      exact (Nat.add_le_add_right hout _).trans_lt (h.send conn i hloop)
    · dsimp only
      rw [hother i hi]
      exact h.send conn i hloop
  · intro conn i hloop
    obtain ⟨j, hj, hidx, hpassed⟩ := h.scan conn i hloop
    exact ⟨j, hj, hidx, fun j' hj' => hfull _ (hpassed j' hj')⟩

theorem balanced_receive {idx : Nat} (h : Balanced k lost s) (hstep : s.receive idx = some s') :
    Balanced k lost s' := by
  rw [receive] at hstep
  split at hstep
  · cases hstep
  · rename_i conn queue hqueue
    cases hstep
    have hout : Worker.outstanding { s.workers idx with
        queue := queue, sessions := conn :: (s.workers idx).sessions } =
          (s.workers idx).outstanding := by
      simp only [Worker.outstanding, hqueue, List.length_cons]
      omega
    refine balanced_setWorker h ?_ (h.lt idx) (Nat.le_of_eq hout) ?_ fun _ _ => rfl
    · rw [hout]
      exact h.count idx
    · rw [hout]

theorem balanced_dropSession {idx conn : Nat} (h : Balanced k lost s)
    (hmem : conn ∈ (s.workers idx).sessions) : Balanced k lost (s.dropSession idx conn) := by
  have hlength : ((s.workers idx).sessions.erase conn).length + 1 =
      (s.workers idx).sessions.length := List.length_erase_add_one hmem
  have hout : Worker.outstanding
      { s.workers idx with
        connCount := fetchSub w (s.workers idx).connCount
        sessions := (s.workers idx).sessions.erase conn } + 1 = (s.workers idx).outstanding := by
    rw [Worker.outstanding, Worker.outstanding, Nat.add_assoc]
    dsimp only
    rw [hlength]
  refine balanced_setWorker h ?_ (Nat.mod_lt _ (Nat.two_pow_pos w))
    (Nat.le_of_succ_le (Nat.le_of_eq hout)) ?_ ?_
  · have hcount := h.count idx
    rw [← hout, Nat.add_right_comm _ 1] at hcount
    have hadd : fetchSub w (s.workers idx).connCount + s.pending idx + 1 ≡
        (s.workers idx).connCount + s.pending idx [MOD 2 ^ w] := by
      rw [Nat.add_right_comm]
      exact (fetchSub_modEq w _).add_right _
    exact (hadd.trans hcount).add_right_cancel'
  · have hmissed : ∀ {a b m : Nat}, a + 1 = b → a + (m + 1) = b + m := by omega
    rw [Function.update_self]
    exact hmissed hout
  · exact fun i hi => Function.update_of_ne hi _ _

theorem balanced_step {a : DispatchAction} {e : DispatchEvent} (h : Balanced k lost s)
    (hstep : s.step a = some (.ok (e, s'))) :
    ∃ lost', Balanced k lost' s' ∧ (a ≠ .send .disconnected → lost' = lost) := by
  cases a with
  | accept =>
      rw [step] at hstep
      split at hstep
      · rename_i hloop
        cases hstep
        exact ⟨lost, balanced_accept h hloop, fun _ => rfl⟩
      · cases hstep
  | read =>
      rw [step] at hstep
      split at hstep
      · rename_i conn idx hloop
        exact ⟨lost, (balanced_read h hloop (Option.some.inj hstep)).1, fun _ => rfl⟩
      · cases hstep
  | send result =>
      rw [step] at hstep
      split at hstep
      · rename_i conn idx hloop
        cases hstep
        by_cases hresult : result = .disconnected
        · subst hresult
          exact ⟨_, balanced_lost h hloop, fun hne => absurd rfl hne⟩
        · exact ⟨lost, balanced_send h hloop hresult, fun _ => rfl⟩
      · cases hstep
  | inc =>
      rw [step] at hstep
      split at hstep
      · rename_i idx hloop
        cases hstep
        exact ⟨lost, balanced_inc h hloop, fun _ => rfl⟩
      · cases hstep
  | receive idx =>
      obtain ⟨t, hreceive, heq⟩ := Option.map_eq_some_iff.mp hstep
      cases heq
      exact ⟨lost, balanced_receive h hreceive, fun _ => rfl⟩
  | dropSession idx conn =>
      rw [step] at hstep
      split at hstep
      · rename_i hmem
        cases hstep
        exact ⟨lost, balanced_dropSession h hmem, fun _ => rfl⟩
      · cases hstep

theorem balanced_steady {a : DispatchAction} {e : DispatchEvent} (h : Balanced k lost s)
    (hsteady : s.Steady a) (hstep : s.step a = some (.ok (e, s'))) : Balanced k lost s' := by
  obtain ⟨lost', h', hlost⟩ := balanced_step h hstep
  have hsends : a ≠ .send .disconnected := by
    rintro rfl
    cases hsteady.1
  exact hlost hsends ▸ h'

/-- No session has ended of a worker that the scan under way has passed. -/
def Unmissed (k : Nat) (s : Dispatcher w) : Prop := ∀ i < 2 ^ k, s.Passed i → s.missed i = 0

theorem turns_eq (h : Balanced k lost s) {j : Nat} (hj : j < 2 ^ k) :
    s.turns ((s.idx + j) % 2 ^ k) = j := by
  have hmask : s.mask + 1 = 2 ^ k := by
    rw [h.mask, Nat.sub_add_cancel Nat.one_le_two_pow]
  have hidx := h.idx
  rw [turns, hmask]
  rcases Nat.lt_or_ge (s.idx + j) (2 ^ k) with hlt | hge
  · rw [Nat.mod_eq_of_lt hlt]
    have hsum : s.idx + j + 2 ^ k - s.idx = j + 2 ^ k := by omega
    rw [hsum, Nat.add_mod_right, Nat.mod_eq_of_lt hj]
  · rw [Nat.mod_eq_sub_mod hge, Nat.mod_eq_of_lt (by omega : s.idx + j - 2 ^ k < 2 ^ k)]
    have hsum : s.idx + j - 2 ^ k + 2 ^ k - s.idx = j := by omega
    rw [hsum, Nat.mod_eq_of_lt hj]

theorem missed_of_read (h : Balanced k lost s) (hmissed : s.Unmissed k) {conn idx : Nat}
    (hloop : s.loop = .scan conn idx) {i : Nat} (hi : i < 2 ^ k)
    (hturns : s.turns i ≤ s.turns idx) : Function.update s.missed idx 0 i = 0 := by
  by_cases hsame : i = idx
  · rw [hsame, Function.update_self]
  · rw [Function.update_of_ne hsame]
    refine hmissed i hi ?_
    obtain ⟨j, hj, hidx, -⟩ := h.scan conn idx hloop
    obtain ⟨j', hj', rfl⟩ := exists_offset h.idx hi
    rw [hidx, turns_eq h hj, turns_eq h hj'] at hturns
    rw [Passed, hloop]
    dsimp only
    rw [hidx, turns_eq h hj, turns_eq h hj']
    refine Nat.lt_of_le_of_ne hturns fun heq => hsame ?_
    rw [hidx, heq]

theorem unmissed_of_loop (hloop : ∀ conn i, s.loop ≠ .scan conn i) : s.Unmissed k := by
  intro i _ hpassed
  unfold Passed at hpassed
  split at hpassed
  · rename_i conn idx hscan
    exact absurd hscan (hloop conn idx)
  · exact hpassed.elim

theorem unmissed_read {conn idx : Nat} {e : DispatchEvent} (h : Balanced k lost s)
    (hmissed : s.Unmissed k) (hloop : s.loop = .scan conn idx)
    (hstep : s.read conn idx = .ok (e, s')) :
    s'.Unmissed k ∧ (e = .refused conn → ∀ i < 2 ^ k, s'.missed i = 0) := by
  obtain ⟨j, hj, hidx, -⟩ := h.scan conn idx hloop
  have hnext := next_eq h (j := j)
  have hread : ∀ {i : Nat}, i < 2 ^ k → s.turns i ≤ s.turns idx →
      Function.update s.missed idx 0 i = 0 := missed_of_read h hmissed hloop
  rw [← hidx] at hnext
  rw [read] at hstep
  split at hstep
  · cases hstep
  · dsimp only at hstep
    split at hstep
    · cases hstep
      exact ⟨unmissed_of_loop (by simp), by simp⟩
    · split at hstep
      · rename_i hback
        cases hstep
        refine ⟨unmissed_of_loop (by simp), fun _ i hi => hread hi ?_⟩
        have hall := all_of_next_eq h hj (hnext.symm.trans hback)
        obtain ⟨j', hj', rfl⟩ := exists_offset h.idx hi
        rw [hidx, turns_eq h hj, turns_eq h hj']
        omega
      · rename_i hon
        cases hstep
        refine ⟨fun i hi hpassed => hread hi ?_, by simp⟩
        have hj' : j + 1 < 2 ^ k := by
          by_contra hlast
          have hall : j + 1 = 2 ^ k := by omega
          rw [hall, Nat.add_mod_right, Nat.mod_eq_of_lt h.idx] at hnext
          exact hon hnext
        have hlt : s.turns i < s.turns ((idx + 1) &&& s.mask) := hpassed
        rw [hnext, turns_eq h hj'] at hlt
        rw [hidx, turns_eq h hj]
        exact Nat.le_of_lt_succ hlt

theorem unmissed_step {a : DispatchAction} {e : DispatchEvent} (h : Balanced k lost s)
    (hmissed : s.Unmissed k) (hsteady : s.Steady a) (hstep : s.step a = some (.ok (e, s'))) :
    s'.Unmissed k := by
  cases a with
  | accept =>
      rw [step] at hstep
      split at hstep
      · cases hstep
        intro i _ hpassed
        have hlt : s.turns i < s.turns s.idx := hpassed
        have hzero := turns_eq h (Nat.two_pow_pos k)
        rw [Nat.add_zero, Nat.mod_eq_of_lt h.idx] at hzero
        rw [hzero] at hlt
        exact absurd hlt (Nat.not_lt_zero _)
      · cases hstep
  | read =>
      rw [step] at hstep
      split at hstep
      · rename_i conn idx hloop
        exact (unmissed_read h hmissed hloop (Option.some.inj hstep)).1
      · cases hstep
  | send result =>
      rw [step] at hstep
      split at hstep
      · cases hstep
        exact unmissed_of_loop (by simp [send])
      · cases hstep
  | inc =>
      rw [step] at hstep
      split at hstep
      · cases hstep
        exact unmissed_of_loop (by simp [inc])
      · cases hstep
  | receive idx =>
      obtain ⟨t, hreceive, heq⟩ := Option.map_eq_some_iff.mp hstep
      cases heq
      rw [receive] at hreceive
      split at hreceive
      · cases hreceive
      · cases hreceive
        exact hmissed
  | dropSession idx conn =>
      rw [step] at hstep
      split at hstep
      · cases hstep
        intro i hi hpassed
        have hpassed' : s.Passed i := hpassed
        have hne : i ≠ idx := fun heq => hsteady.2 (heq ▸ hpassed')
        exact (Function.update_of_ne hne _ _).trans (hmissed i hi hpassed')
      · cases hstep

theorem steady_of_run {workerConns : Fin (2 ^ w)} {log : List DispatchEvent}
    (h : (dispatchMachine w).Run Steady (.init (2 ^ k - 1) workerConns) log s) :
    s.Balanced k (fun _ => 0) ∧ s.Unmissed k := by
  refine h.invariant (I := fun _ s => s.Balanced k (fun _ => 0) ∧ s.Unmissed k)
    ⟨balanced_init, unmissed_of_loop (by simp [init])⟩ ?_
  rintro _ _ _ _ _ ⟨hbalanced, hmissed⟩ hsteady hstep
  exact ⟨balanced_steady hbalanced hsteady hstep, unmissed_step hbalanced hmissed hsteady hstep⟩

theorem scan_of_refused {conn : Nat} (hstep : s.step .read = some (.ok (.refused conn, s'))) :
    ∃ idx, s.loop = .scan conn idx ∧ s.read conn idx = .ok (.refused conn, s') := by
  rw [step] at hstep
  split at hstep
  · rename_i conn' idx hloop
    have hread := Option.some.inj hstep
    have hconn : conn' = conn := by
      rw [read] at hread
      split at hread
      · cases hread
      · dsimp only at hread
        split at hread
        · cases hread
        · split at hread <;> cases hread
          rfl
    rw [hconn] at hloop hread
    exact ⟨idx, hloop, hread⟩
  · cases hstep

end Dispatcher

variable {w k : Nat} {s : Dispatcher w} {log : List DispatchEvent}

/-- When the accept loop reads a count it reads what is outstanding; no worker ever has more
than `worker_conns` outstanding; and a connection is refused only if every worker has that many. -/
theorem dispatches_up_to_capacity {workerConns : Fin (2 ^ w)}
    (h : (dispatchMachine w).Run Dispatcher.Steady (.init (2 ^ k - 1) workerConns) log s) :
    (∀ conn idx, s.loop = .scan conn idx →
      (s.workers idx).connCount ≡ (s.workers idx).outstanding [MOD 2 ^ w]) ∧
    (∀ idx, (s.workers idx).outstanding ≤ s.workerConns) ∧
    ∀ conn s', s.step .read = some (.ok (.refused conn, s')) →
      ∀ idx < 2 ^ k, (s'.workers idx).outstanding = s'.workerConns := by
  obtain ⟨hbalanced, hmissed⟩ := Dispatcher.steady_of_run h
  refine ⟨?_, hbalanced.room, ?_⟩
  · intro conn idx hloop
    rw [hbalanced.read_eq hloop idx]
    rfl
  · intro conn s' hstep idx hidx
    obtain ⟨i, hloop, hread⟩ := Dispatcher.scan_of_refused hstep
    have hfull := (Dispatcher.balanced_read hbalanced hloop hread).2 rfl idx hidx
    have hnone := (Dispatcher.unmissed_read hbalanced hmissed hloop hread).2 rfl idx hidx
    rw [Dispatcher.Full, hnone] at hfull
    exact hfull

/-- Two workers of one connection each, both full. -/
def fillBoth : List DispatchAction :=
  [.accept, .read, .send .ok, .inc, .accept, .read, .send .ok, .inc]

theorem dispatches_up_to_capacity_of_two :
    ∃ (log : List DispatchEvent) (s : Dispatcher 64) (s' : Dispatcher 64),
      (dispatchMachine 64).Run Dispatcher.Steady (.init (2 ^ 1 - 1) 1) log s ∧
        s.step .read = some (.ok (.refused 2, s')) ∧
        ∀ idx < 2 ^ 1, (s'.workers idx).outstanding = s'.workerConns := by
  have hend : ((dispatchMachine 64).exec Dispatcher.Steady (fillBoth ++ [.accept, .read])
      (.init (2 ^ 1 - 1) 1)).map (fun r => (r.2.step .read).map fun r =>
        r.toOption.map fun r => r.1) = some (some (some (.refused 2))) := by
    decide +kernel
  obtain ⟨⟨log, s⟩, hexec, heq⟩ := Option.map_eq_some_iff.mp hend
  obtain ⟨r, hstep, hr⟩ := Option.map_eq_some_iff.mp heq
  have hrun := Base.Machine.Run.of_exec _ hexec
  cases r with
  | error fault => cases hr
  | ok r =>
      obtain ⟨e, s'⟩ := r
      cases Option.some.inj hr
      exact ⟨log, s, s', hrun, hstep, (dispatches_up_to_capacity hrun).2.2 2 s' hstep⟩

/-- The scan goes on from the first worker to the second, and meanwhile the session of the first
one ends. -/
def endWhileScanning : List DispatchAction :=
  fillBoth ++ [.receive 0, .accept, .read, .dropSession 0 0]

/-- A connection that `send` has failed for is counted; and when a session ends while the counts
are read, a connection is refused with a worker free. -/
theorem failed_send_counted :
    (¬ ∀ (workerConns : Fin (2 ^ 64)) (log : List DispatchEvent) (s : Dispatcher 64),
      (dispatchMachine 64).Run (fun _ _ => True) (.init (2 ^ 1 - 1) workerConns) log s →
        ∀ conn idx, s.loop = .scan conn idx →
          (s.workers idx).connCount ≡ (s.workers idx).outstanding [MOD 2 ^ 64]) ∧
    ∃ (log : List DispatchEvent) (s s' : Dispatcher 64),
      (dispatchMachine 64).Run Dispatcher.Sends (.init (2 ^ 1 - 1) 1) log s ∧
        s.step .read = some (.ok (.refused 2, s')) ∧ (s'.workers 0).outstanding = 0 := by
  constructor
  · intro h
    have hend : ((dispatchMachine 64).exec (fun _ _ => True)
        [.accept, .read, .send .disconnected, .inc, .accept, .read, .send .disconnected, .inc,
          .accept]
        (.init (2 ^ 1 - 1) 1)).map (fun r => (r.2.loop, (r.2.workers 0).connCount,
          (r.2.workers 0).queue, (r.2.workers 0).sessions)) = some (.scan 2 0, 1, [], []) := by
      decide +kernel
    obtain ⟨⟨log, s⟩, hexec, heq⟩ := Option.map_eq_some_iff.mp hend
    obtain ⟨hloop, heq⟩ := Prod.mk.inj heq
    obtain ⟨hcount, heq⟩ := Prod.mk.inj heq
    obtain ⟨hqueue, hsessions⟩ := Prod.mk.inj heq
    have hequal := h 1 log s (.of_exec _ hexec) 2 0 hloop
    rw [hcount, Worker.outstanding, hqueue, hsessions] at hequal
    exact absurd hequal (by decide)
  · have hend : ((dispatchMachine 64).exec Dispatcher.Sends endWhileScanning
        (.init (2 ^ 1 - 1) 1)).map (fun r => (r.2.step .read).map fun r => r.toOption.map fun r =>
          (r.1, (r.2.workers 0).outstanding)) = some (some (some (.refused 2, 0))) := by
      decide +kernel
    obtain ⟨⟨log, s⟩, hexec, heq⟩ := Option.map_eq_some_iff.mp hend
    obtain ⟨r, hstep, hr⟩ := Option.map_eq_some_iff.mp heq
    have hrun := Base.Machine.Run.of_exec _ hexec
    cases r with
    | error fault => cases hr
    | ok r =>
        obtain ⟨hrefused, hnone⟩ := Prod.mk.inj (Option.some.inj hr)
        obtain ⟨e, s'⟩ := r
        cases hrefused
        exact ⟨log, s, s', hrun, hstep, hnone⟩

end Ruyi.Service
