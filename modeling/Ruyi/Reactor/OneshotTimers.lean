import Ruyi.Reactor.TimerPoll

namespace Ruyi.Reactor.Timer

variable {τ : Type}

/-- The timer that has fired or has been cancelled. -/
def TimerEvent.ended : TimerEvent τ → Option Nat
  | .cancelled serial => some serial
  | .ran serial _ => some serial
  | _ => none

/-- The timer of the entry that a turn of the loop has popped. -/
def TimerEvent.handled : TimerEvent τ → Option Nat
  | .ran serial _ => some serial
  | .discarded serial => some serial
  | _ => none

/-- The timer has not been cancelled and has not fired. -/
def Pending (log : List (TimerEvent τ)) (serial : Nat) : Prop :=
  ∀ e ∈ log, e.ended ≠ some serial

theorem pending_append {log : List (TimerEvent τ)} {e : TimerEvent τ} {serial : Nat} :
    Pending (log ++ [e]) serial ↔ Pending log serial ∧ e.ended ≠ some serial := by
  rw [Pending, List.forall_mem_append, List.forall_mem_singleton]
  rfl

namespace Timers

variable {s s' : Timers τ} {q : Queue τ} {log : List (TimerEvent τ)} {exp : Expiration}

/-- The timers made are one-shot timers. -/
def Oneshot (_ : Timers τ) : TimerAction τ → Prop
  | .addPeriodic _ _ _ => False
  | _ => True

instance (s : Timers τ) : ∀ a : TimerAction τ, Decidable (s.Oneshot a)
  | .addPeriodic _ _ _ => isFalse fun h => h
  | .add _ _ => isTrue trivial
  | .cancel _ => isTrue trivial
  | .poll => isTrue trivial
  | .turn _ _ => isTrue trivial
  | .finish _ => isTrue trivial

/-- What the events so far say of the slots and the entries of the heap. -/
structure Recorded (log : List (TimerEvent τ)) (s : Timers τ) : Prop where
  inStep : s.InStep
  running : ∀ exp resume, s.poll = .running exp resume → resume = none
  unique : ∀ i j task task', s.queue.tasks.get i = some task → s.queue.tasks.get j = some task' →
    task.serial = task'.serial → i = j
  state : ∀ i task, s.queue.tasks.get i = some task →
    task.state = .oneshot ∧ Pending log task.serial ∨ task.state = .expired ∨
      task.state = .cancelled ∧ .cancelled task.serial ∈ log
  entry : ∀ exp ∈ s.queue.heap, ∀ task, s.queue.tasks.get exp.taskId = some task →
    .added exp.serial exp.inner task.id ∈ log
  pending : ∀ serial due task, .added serial due task ∈ log → Pending log serial →
    ∃ exp ∈ s.queue.heap, exp.serial = serial ∧ exp.inner = due
  fresh : ∀ serial, s.queue.added ≤ serial → Pending log serial

theorem recorded_init : Recorded [] (init : Timers τ) := by
  have hnone : ∀ i, (init : Timers τ).queue.tasks.get i = none := Slab.get_empty
  refine ⟨inStep_init, by simp [init], ?_, ?_, by simp [hnone], by simp, by simp [Pending]⟩
  · intro i j task task' hget
    rw [hnone] at hget
    cases hget
  · intro i task hget
    rw [hnone] at hget
    cases hget

theorem Recorded.kept {a : TimerAction τ} (h : Recorded log s) : s.Kept a := by
  unfold Kept
  split
  · rename_i exp resume hpoll
    cases h.running exp _ hpoll
  · trivial

theorem Recorded.inRange {a : TimerAction τ} (h : Recorded log s) : s.InRange a := by
  unfold InRange
  split
  · rename_i exp resume hpoll
    cases h.running exp _ hpoll
  · trivial

theorem Recorded.step_ok {a : TimerAction τ} {r : Except Fault (TimerEvent τ × Timers τ)}
    (h : Recorded log s) (hstep : s.step a = some r) : ∃ e s', r = .ok (e, s') ∧ s'.InStep := by
  rcases h.inStep.step h.kept hstep with ⟨-, hrange⟩ | hok
  · exact absurd h.inRange hrange
  · exact hok

theorem Recorded.task_of_entry (h : Recorded log s) (hmem : exp ∈ s.queue.heap) :
    ∃ task, s.queue.tasks.get exp.taskId = some task ∧ task.serial = exp.serial ∧
      .added exp.serial exp.inner task.id ∈ log ∧
      (task.state = .oneshot ∧ Pending log exp.serial ∨
        task.state = .cancelled ∧ .cancelled exp.serial ∈ log) := by
  obtain ⟨task, hget, hserial, hne⟩ := h.inStep.matched.entry exp hmem
  refine ⟨task, hget, hserial, h.entry exp hmem task hget, ?_⟩
  rw [← hserial]
  rcases h.state _ task hget with hstate | hstate | hstate
  · exact .inl hstate
  · exact absurd hstate hne
  · exact .inr hstate

theorem recorded_push {due : Instant} {task : τ} (h : Recorded log s)
    (hin : (s.added due task (s.queue.add due task)).2.InStep) :
    Recorded (log ++ [.added s.queue.added due task])
      (s.added due task (s.queue.add due task)).2 := by
  have hfresh := @Queue.get_push_fst _ s.queue due task .oneshot
  have hget : ∀ i, (s.added due task (s.queue.add due task)).2.queue.tasks.get i =
      if i = (s.queue.push due task .oneshot).1 then some ⟨task, .oneshot, s.queue.added⟩
      else s.queue.tasks.get i := Queue.get_push
  have hpend : ∀ {serial}, Pending log serial →
      Pending (log ++ [.added s.queue.added due task]) serial :=
    fun hlog => pending_append.mpr ⟨hlog, by simp [TimerEvent.ended]⟩
  refine ⟨hin, h.running, ?_, ?_, ?_, ?_, ?_⟩
  · intro i j new new' hi hj heq
    rw [hget] at hi hj
    split at hi
    · rename_i hi'
      split at hj
      · rename_i hj'
        exact hi'.trans hj'.symm
      · cases hi
        exact absurd heq.symm (Nat.ne_of_lt (h.inStep.serial j new' hj))
    · split at hj
      · cases hj
        exact absurd heq (Nat.ne_of_lt (h.inStep.serial i new hi))
      · exact h.unique i j new new' hi hj heq
  · intro i new hi
    rw [hget] at hi
    split at hi
    · cases hi
      exact .inl ⟨rfl, hpend (h.fresh _ (Nat.le_refl _))⟩
    · rcases h.state i new hi with hstate | hstate | hstate
      · exact .inl ⟨hstate.1, hpend hstate.2⟩
      · exact .inr (.inl hstate)
      · exact .inr (.inr ⟨hstate.1, List.mem_append_left _ hstate.2⟩)
  · intro exp hexp new hi
    rw [hget] at hi
    rcases List.mem_cons.mp hexp with rfl | hexp
    · cases (if_pos rfl).symm.trans hi
      exact List.mem_append_right _ (List.mem_singleton.mpr rfl)
    · split at hi
      · rename_i heq
        obtain ⟨old, hold, -⟩ := h.inStep.matched.entry exp hexp
        rw [heq, hfresh] at hold
        cases hold
      · exact List.mem_append_left _ (h.entry exp hexp new hi)
  · intro serial due' task' hadded hpending
    rcases List.mem_append.mp hadded with hadded | hadded
    · obtain ⟨exp, hexp, hentry⟩ :=
        h.pending serial due' task' hadded (pending_append.mp hpending).1
      exact ⟨exp, List.mem_cons_of_mem _ hexp, hentry⟩
    · cases List.mem_singleton.mp hadded
      exact ⟨_, List.mem_cons_self, rfl, rfl⟩
  · exact fun serial hle => hpend (h.fresh serial (Nat.le_of_succ_le hle))

theorem Recorded.change {k : Nat} {timers : List Handle} {poll : PollState} {e : TimerEvent τ}
    (h : Recorded log s) (hin : InStep ⟨q, timers, poll⟩)
    (hrunning : ∀ exp resume, poll = .running exp resume → resume = none)
    (hother : ∀ i, i ≠ k → q.tasks.get i = s.queue.tasks.get i)
    (hself : ∀ task, q.tasks.get k = some task →
      (∃ task', s.queue.tasks.get k = some task' ∧ task'.serial = task.serial ∧
        task'.id = task.id) ∧
      (task.state = .expired ∨ task.state = .cancelled ∧ .cancelled task.serial ∈ log ++ [e]))
    (hended : ∀ serial, e.ended = some serial →
      ∃ task, s.queue.tasks.get k = some task ∧ task.serial = serial)
    (hadded : ∀ serial due task, e ≠ .added serial due task)
    (hheap : ∀ exp ∈ q.heap, exp ∈ s.queue.heap)
    (hpending : ∀ exp ∈ s.queue.heap, Pending (log ++ [e]) exp.serial → exp ∈ q.heap)
    (hcount : q.added = s.queue.added) : Recorded (log ++ [e]) ⟨q, timers, poll⟩ := by
  have hslot : ∀ i task, q.tasks.get i = some task → ∃ task', s.queue.tasks.get i = some task' ∧
      task'.serial = task.serial ∧ task'.id = task.id := by
    intro i task hget
    by_cases hi : i = k
    · rw [hi] at hget ⊢
      exact (hself task hget).1
    · rw [hother i hi] at hget
      exact ⟨task, hget, rfl, rfl⟩
  refine ⟨hin, hrunning, ?_, ?_, ?_, ?_, ?_⟩
  · intro i j task task' hi hj heq
    obtain ⟨old, hold, hserial, -⟩ := hslot i task hi
    obtain ⟨old', hold', hserial', -⟩ := hslot j task' hj
    exact h.unique i j old old' hold hold' (hserial.trans (heq.trans hserial'.symm))
  · intro i task hget
    by_cases hi : i = k
    · rw [hi] at hget
      exact .inr (hself task hget).2
    · dsimp only at hget
      rw [hother i hi] at hget
      rcases h.state i task hget with hstate | hstate | hstate
      · refine .inl ⟨hstate.1, pending_append.mpr ⟨hstate.2, ?_⟩⟩
        intro heq
        obtain ⟨old, hold, hserial⟩ := hended _ heq
        exact hi (h.unique i k task old hget hold hserial.symm)
      · exact .inr (.inl hstate)
      · exact .inr (.inr ⟨hstate.1, List.mem_append_left _ hstate.2⟩)
  · intro exp hexp task hget
    obtain ⟨old, hold, -, hid⟩ := hslot _ task hget
    rw [← hid]
    exact List.mem_append_left _ (h.entry exp (hheap exp hexp) old hold)
  · intro serial due task hmem hpend
    rcases List.mem_append.mp hmem with hmem | hmem
    · obtain ⟨exp, hexp, hserial, hdue⟩ :=
        h.pending serial due task hmem (pending_append.mp hpend).1
      rw [← hserial] at hpend
      exact ⟨exp, hpending exp hexp hpend, hserial, hdue⟩
    · exact absurd (List.mem_singleton.mp hmem).symm (hadded serial due task)
  · intro serial hle
    dsimp only at hle
    rw [hcount] at hle
    refine pending_append.mpr ⟨h.fresh serial hle, ?_⟩
    intro heq
    obtain ⟨old, hold, hserial⟩ := hended _ heq
    have hlt := h.inStep.serial k old hold
    rw [hserial] at hlt
    exact absurd hlt (Nat.not_lt.mpr hle)

theorem Recorded.idle {poll : PollState} {e : TimerEvent τ} (h : Recorded log s)
    (hpoll : ∀ exp resume, poll ≠ .running exp resume) (hended : e.ended = none)
    (hadded : ∀ serial due task, e ≠ .added serial due task) :
    Recorded (log ++ [e]) { s with poll := poll } := by
  have hpend : ∀ {serial}, Pending log serial → Pending (log ++ [e]) serial := by
    intro serial hlog
    refine pending_append.mpr ⟨hlog, ?_⟩
    rw [hended]
    simp
  refine ⟨h.inStep.withPoll hpoll, fun exp resume heq => absurd heq (hpoll exp resume), h.unique,
    ?_, ?_, ?_, fun serial hle => hpend (h.fresh serial hle)⟩
  · intro i task hget
    rcases h.state i task hget with hstate | hstate | hstate
    · exact .inl ⟨hstate.1, hpend hstate.2⟩
    · exact .inr (.inl hstate)
    · exact .inr (.inr ⟨hstate.1, List.mem_append_left _ hstate.2⟩)
  · exact fun exp hexp task hget => List.mem_append_left _ (h.entry exp hexp task hget)
  · intro serial due task hmem hpending
    rcases List.mem_append.mp hmem with hmem | hmem
    · exact h.pending serial due task hmem (pending_append.mp hpending).1
    · exact absurd (List.mem_singleton.mp hmem).symm (hadded serial due task)

theorem recorded_cancel {timer : Handle} {r : Bool × Queue τ} (h : Recorded log s)
    (hmem : timer ∈ s.timers) (hcancel : s.queue.cancel timer.taskId = .ok r)
    (hin : InStep { s with queue := r.2, timers := s.timers.erase timer }) :
    Recorded (log ++ [.cancelled timer.serial])
      { s with queue := r.2, timers := s.timers.erase timer } := by
  obtain ⟨task, hget, hserial, -⟩ := h.inStep.owned timer hmem
  have hended : ∀ serial, (TimerEvent.cancelled timer.serial : TimerEvent τ).ended = some serial →
      ∃ task, s.queue.tasks.get timer.taskId = some task ∧ task.serial = serial := by
    intro serial heq
    cases heq
    exact ⟨task, hget, hserial⟩
  rw [Queue.cancel] at hcancel
  simp only [hget] at hcancel
  rcases h.state _ task hget with ⟨hstate, -⟩ | hstate | ⟨hstate, -⟩
  · rw [hstate] at hcancel
    cases hcancel
    refine h.change (k := timer.taskId) hin h.running ?_ ?_ hended (by simp) (fun _ hexp => hexp)
      (fun _ hexp _ => hexp) rfl
    · intro i hi
      rw [Queue.get_setState, if_neg hi]
    · intro new hnew
      rw [Queue.get_setState, if_pos rfl, hget] at hnew
      cases hnew
      refine ⟨⟨task, hget, rfl, rfl⟩, .inr ⟨rfl, ?_⟩⟩
      rw [hserial]
      exact List.mem_append_right _ (List.mem_singleton.mpr rfl)
  · rw [hstate] at hcancel
    cases hcancel
    refine h.change (k := timer.taskId) hin h.running ?_ ?_ hended (by simp) (fun _ hexp => hexp)
      (fun _ hexp _ => hexp) rfl
    · intro i hi
      rw [Queue.get_remove, if_neg hi, Queue.get_setState, if_neg hi]
    · intro new hnew
      rw [Queue.get_remove, if_pos rfl] at hnew
      cases hnew
  · obtain ⟨task', hget', -, hne⟩ := h.inStep.owned timer hmem
    rw [hget] at hget'
    cases hget'
    exact absurd hstate hne

theorem recorded_expire {r : Option (τ × Option Resume) × Queue τ} (h : Recorded log s)
    (hpoll : s.poll = .polling) (hmem : exp ∈ s.queue.heap)
    (hexpire : { s.queue with heap := s.queue.heap.erase exp }.expire exp = .ok r) :
    match r.1 with
    | none => Recorded (log ++ [.discarded exp.serial]) { s with queue := r.2 }
    | some (task, resume) => Recorded (log ++ [.ran exp.serial task])
        { s with queue := r.2, poll := .running exp resume } := by
  obtain ⟨r', hr', hin⟩ := h.inStep.expire hmem
  rw [hexpire] at hr'
  cases hr'
  obtain ⟨task, hget, hserial, -, hstate⟩ := h.task_of_entry hmem
  have hheap : ∀ exp' ∈ s.queue.heap.erase exp, exp' ∈ s.queue.heap :=
    fun exp' => List.mem_of_mem_erase
  have hpending : ∀ {e : TimerEvent τ}, ¬ Pending (log ++ [e]) exp.serial →
      ∀ exp' ∈ s.queue.heap, Pending (log ++ [e]) exp'.serial →
        exp' ∈ s.queue.heap.erase exp := by
    intro e hnot exp' hexp' hpend
    refine (List.mem_erase_of_ne ?_).mpr hexp'
    rintro rfl
    exact hnot hpend
  unfold Queue.expire at hexpire
  simp only [hget] at hexpire
  rcases hstate with ⟨hstate, -⟩ | ⟨hstate, hcancelled⟩
  · rw [hstate] at hexpire
    cases hexpire
    refine h.change (k := exp.taskId) hin ?_ ?_ ?_ ?_ (by simp) hheap (hpending ?_) rfl
    · intro exp' resume heq
      cases heq
      rfl
    · intro i hi
      rw [Queue.get_setState, if_neg hi]
    · intro new hnew
      rw [Queue.get_setState, if_pos rfl, hget] at hnew
      cases hnew
      exact ⟨⟨task, hget, rfl, rfl⟩, .inl rfl⟩
    · intro serial heq
      cases heq
      exact ⟨task, hget, hserial⟩
    · exact fun hpend => (pending_append.mp hpend).2 rfl
  · rw [hstate] at hexpire
    cases hexpire
    dsimp only at hin ⊢
    rw [← hpoll] at hin
    refine h.change (k := exp.taskId) hin h.running ?_ ?_ (by simp [TimerEvent.ended]) (by simp)
      hheap (hpending ?_) rfl
    · intro i hi
      rw [Queue.get_remove, if_neg hi]
    · intro new hnew
      rw [Queue.get_remove, if_pos rfl] at hnew
      cases hnew
    · exact fun hpend => (pending_append.mp hpend).1 _ hcancelled rfl

theorem recorded_turn {now : Instant} {e : TimerEvent τ} (h : Recorded log s)
    (hpoll : s.poll = .polling) (hturn : s.turn now exp = some (.ok (e, s'))) :
    Recorded (log ++ [e]) s' := by
  rw [turn] at hturn
  split at hturn
  · cases hturn
    exact h.idle (by simp) rfl (by simp)
  · split at hturn
    · rename_i htop
      split at hturn
      · cases hturn
        exact h.idle (by simp) rfl (by simp)
      · obtain ⟨⟨task, queue⟩, hexpire, hnext⟩ := ok_of_bind_ok (Option.some.inj hturn)
        have hrecorded := recorded_expire h hpoll htop.1 hexpire
        rcases task with _ | ⟨task, resume⟩
        · cases hnext
          exact hrecorded
        · cases hnext
          exact hrecorded
    · cases hturn

theorem recorded_call {a : TimerAction τ} {e : TimerEvent τ} (h : Recorded log s)
    (honeshot : s.Oneshot a) (hin : s'.InStep) (hcall : s.call a = some (.ok (e, s'))) :
    Recorded (log ++ [e]) s' := by
  cases a with
  | add due task =>
      cases hcall
      exact recorded_push h hin
  | addPeriodic due period task => exact honeshot.elim
  | cancel timer =>
      rw [call] at hcall
      split at hcall
      · rename_i hmem
        obtain ⟨r, hcancel, hnext⟩ := ok_of_bind_ok (Option.some.inj hcall)
        cases hnext
        exact recorded_cancel h hmem hcancel hin
      · cases hcall
  | poll => cases hcall
  | turn now exp => cases hcall
  | finish exit => cases hcall

theorem recorded_step {a : TimerAction τ} {e : TimerEvent τ} (h : Recorded log s)
    (honeshot : s.Oneshot a) (hstep : s.step a = some (.ok (e, s'))) :
    Recorded (log ++ [e]) s' := by
  have hin : s'.InStep := h.inStep.of_step h.kept hstep
  unfold step at hstep
  split at hstep
  · cases hstep
    exact h.idle (by simp) rfl (by simp)
  · exact recorded_call h honeshot hin hstep
  · rename_i hpoll
    exact recorded_turn h hpoll hstep
  · cases hstep
  · rename_i exp resume exit hpoll
    have hfinish := Option.some.inj hstep
    cases h.running exp resume hpoll
    rcases exit with _ | _
    · cases hfinish
      exact h.idle (by simp) rfl (by simp)
    · cases hfinish
      exact h.idle (by simp) rfl (by simp)
  · exact recorded_call h honeshot hin hstep

theorem Recorded.top_le {serial : Nat} {due : Instant} {task : τ} (h : Recorded log s)
    (htop : s.queue.Top exp) (hadded : .added serial due task ∈ log)
    (hpending : Pending log serial) : exp.inner ≤ due := by
  obtain ⟨other, hother, -, hdue⟩ := h.pending serial due task hadded hpending
  rw [← hdue]
  exact htop other hother

theorem expire_run {task : Task τ} {run : τ × Option Resume} {q' : Queue τ}
    (hget : q.tasks.get exp.taskId = some task) (h : q.expire exp = .ok (some run, q')) :
    run.1 = task.id ∧ task.state ≠ .cancelled := by
  rw [Queue.expire] at h
  simp only [hget] at h
  rcases hstate : task.state with _ | period | _ | _
  · rw [hstate] at h
    cases h
    exact ⟨rfl, by simp⟩
  · rw [hstate] at h
    cases h
    exact ⟨rfl, by simp⟩
  · rw [hstate] at h
    cases h
  · rw [hstate] at h
    cases h

theorem Recorded.turn_cases {now : Instant} {e : TimerEvent τ} (h : Recorded log s)
    (hstep : s.step (.turn now exp) = some (.ok (e, s'))) :
    s.queue.heap = [] ∧ e = .returned (some none) ∨
    (exp ∈ s.queue.heap ∧ s.queue.Top exp) ∧
      (now < exp.inner ∧ e = .returned (some (some (exp.inner - now))) ∨
      exp.inner ≤ now ∧ (e = .discarded exp.serial ∨ ∃ task, e = .ran exp.serial task ∧
        .added exp.serial exp.inner task ∈ log ∧ Pending log exp.serial)) := by
  have hturn : s.turn now exp = some (.ok (e, s')) := by
    unfold step at hstep
    rcases hpoll : s.poll with _ | _ | ⟨exp', resume⟩
    · rw [hpoll] at hstep
      cases hstep
    · rw [hpoll] at hstep
      exact hstep
    · rw [hpoll] at hstep
      cases hstep
  rw [turn] at hturn
  split at hturn
  · rename_i hempty
    cases hturn
    exact .inl ⟨hempty, rfl⟩
  · split at hturn
    · rename_i htop
      refine .inr ⟨htop, ?_⟩
      split at hturn
      · rename_i hnow
        cases hturn
        exact .inl ⟨hnow, rfl⟩
      · rename_i hnow
        refine .inr ⟨Nat.le_of_not_lt hnow, ?_⟩
        obtain ⟨task, hget, -, hadded, hstate⟩ := h.task_of_entry htop.1
        obtain ⟨⟨run, queue⟩, hexpire, hnext⟩ := ok_of_bind_ok (Option.some.inj hturn)
        rcases run with _ | run
        · cases hnext
          exact .inl rfl
        · obtain ⟨hid, hne⟩ := expire_run
            (q := { s.queue with heap := s.queue.heap.erase exp }) hget hexpire
          cases hnext
          rw [← hid] at hadded
          rcases hstate with ⟨-, hpending⟩ | ⟨hcancelled, -⟩
          · exact .inr ⟨_, rfl, hadded, hpending⟩
          · exact absurd hcancelled hne
    · cases hturn

end Timers

/-- A turn of the loop of `poll` takes the entry that is due first, runs a task only for a timer
that is due and pending, and ends the loop with the time to the first entry only when no pending
timer is due, with none only when the heap is empty. -/
theorem fires_once_when_due {s : Timers τ} {log : List (TimerEvent τ)}
    (h : (timersMachine τ).Run Timers.Oneshot .init log s) {now : Instant} {exp : Expiration}
    {r : Except Fault (TimerEvent τ × Timers τ)} (hstep : s.step (.turn now exp) = some r) :
    ∃ e s', r = .ok (e, s') ∧
      (∀ serial task, e = .ran serial task → (∃ due, .added serial due task ∈ log ∧ due ≤ now) ∧
        .cancelled serial ∉ log ∧ ∀ task', .ran serial task' ∉ log) ∧
      (∀ serial, e.handled = some serial → exp ∈ s.queue.heap ∧ exp.serial = serial ∧
        (∀ other ∈ s.queue.heap, exp.inner ≤ other.inner) ∧
        ∀ serial' due task, .added serial' due task ∈ log → Pending log serial' →
          exp.inner ≤ due) ∧
      (∀ d, e = .returned (some (some d)) → exp ∈ s.queue.heap ∧
        (∀ other ∈ s.queue.heap, exp.inner ≤ other.inner) ∧ exp.inner = now + d ∧
        ∀ serial due task, .added serial due task ∈ log → Pending log serial → now < due) ∧
      (e = .returned (some none) → s.queue.heap = []) := by
  have hrecorded : s.Recorded log := by
    refine h.invariant (I := Timers.Recorded) Timers.recorded_init ?_
    exact fun hrecorded honeshot hstep => Timers.recorded_step hrecorded honeshot hstep
  obtain ⟨e, s', rfl, -⟩ := hrecorded.step_ok hstep
  refine ⟨e, s', rfl, ?_⟩
  rcases hrecorded.turn_cases hstep with ⟨hempty, rfl⟩ | ⟨⟨hmem, htop⟩, hcases⟩
  · exact ⟨by simp, by simp [TimerEvent.handled], by simp, fun _ => hempty⟩
  have hfirst : ∀ serial due task, .added serial due task ∈ log → Pending log serial →
      exp.inner ≤ due :=
    fun serial due task hadded hpending => hrecorded.top_le htop hadded hpending
  rcases hcases with ⟨hnow, rfl⟩ | ⟨hnow, rfl | ⟨task, rfl, hadded, hpending⟩⟩
  · refine ⟨by simp, by simp [TimerEvent.handled], ?_, by simp⟩
    intro d heq
    cases heq
    refine ⟨hmem, htop, (Nat.add_sub_cancel' (Nat.le_of_lt hnow)).symm, ?_⟩
    exact fun serial due task hadded hpending =>
      Nat.lt_of_lt_of_le hnow (hfirst serial due task hadded hpending)
  · refine ⟨by simp, ?_, by simp, by simp⟩
    intro serial heq
    cases heq
    exact ⟨hmem, rfl, htop, hfirst⟩
  · refine ⟨?_, ?_, by simp, by simp⟩
    · intro serial run heq
      cases heq
      exact ⟨⟨exp.inner, hadded, hnow⟩, fun hmem => hpending _ hmem rfl,
        fun task' hmem => hpending _ hmem rfl⟩
    · intro serial heq
      cases heq
      exact ⟨hmem, rfl, htop, hfirst⟩

theorem fires_once_when_due_of_three :
    ∃ (log : List (TimerEvent Nat)) (s s' : Timers Nat),
      (timersMachine Nat).Run Timers.Oneshot .init log s ∧
        s.step (.turn 4 ⟨3, 2, 2⟩) = some (.ok (.ran 2 9, s')) ∧
        .cancelled 2 ∉ log ∧ ∀ task', .ran 2 task' ∉ log := by
  have hend : ((timersMachine Nat).exec Timers.Oneshot
      [.add 2 7, .add 5 8, .add 3 9, .cancel ⟨0, 0⟩, .poll, .turn 4 ⟨2, 0, 0⟩] .init).map
        (fun r => (r.2.step (.turn 4 ⟨3, 2, 2⟩)).map fun r => r.toOption.map fun r => r.1) =
          some (some (some (.ran 2 9))) := by
    decide +kernel
  obtain ⟨⟨log, s⟩, hexec, heq⟩ := Option.map_eq_some_iff.mp hend
  obtain ⟨r, hstep, hr⟩ := Option.map_eq_some_iff.mp heq
  have hrun := Base.Machine.Run.of_exec _ hexec
  obtain ⟨e, s', rfl, hran, -⟩ := fires_once_when_due hrun hstep
  cases Option.some.inj hr
  exact ⟨log, s, s', hrun, hstep, (hran 2 9 rfl).2⟩

end Ruyi.Reactor.Timer
