import Ruyi.Base.Machine
import Ruyi.Reactor.TimerMatched

namespace Ruyi.Reactor.Timer

/-- What a `Timer` or a `PeriodicTimer` that has been scheduled holds, and the serial number of
the timer. -/
structure Handle where
  taskId : Nat
  serial : Nat
  deriving DecidableEq

/-- Where `poll` stands: not called, at the top of its loop, or in the `run_task` for the entry
`exp`. -/
inductive PollState where
  | outside
  | polling
  | running (exp : Expiration) (resume : Option Resume)
  deriving DecidableEq

/-- The timer queue with the timers that point into it. -/
structure Timers (τ : Type) where
  queue : Queue τ
  timers : List Handle
  poll : PollState

/-- The calls of tasks, by the owners of the timers, and the steps of `poll`: `turn` is a turn of
its loop, with the clock it reads and the entry that `peek` shows. -/
inductive TimerAction (τ : Type) where
  | add (due : Instant) (task : τ)
  | addPeriodic (due : Instant) (period : Duration) (task : τ)
  | cancel (timer : Handle)
  | poll
  | turn (now : Instant) (exp : Expiration)
  | finish (exit : Bool)

inductive TimerEvent (τ : Type) where
  | added (serial : Nat) (due : Instant) (task : τ)
  | cancelled (serial : Nat)
  | ran (serial : Nat) (task : τ)
  | discarded (serial : Nat)
  | returned (timeout : Option (Option Duration))
  | silent
  deriving DecidableEq

namespace Timers

variable {τ : Type}

def init : Timers τ := ⟨Queue.new, [], .outside⟩

/-- A new timer of the queue. -/
def added (s : Timers τ) (due : Instant) (task : τ) (r : Nat × Queue τ) :
    TimerEvent τ × Timers τ :=
  (.added s.queue.added due task,
    { s with queue := r.2, timers := ⟨r.1, s.queue.added⟩ :: s.timers })

/-- The calls a task makes while it is run by `poll` or by others. -/
def call (s : Timers τ) : TimerAction τ → Option (Except Fault (TimerEvent τ × Timers τ))
  | .add due task => some (.ok (s.added due task (s.queue.add due task)))
  | .addPeriodic due period task =>
      some (.ok (s.added due task (s.queue.addPeriodic due period task)))
  | .cancel timer =>
      if timer ∈ s.timers then
        some do
          let (_, queue) ← s.queue.cancel timer.taskId
          .ok (.cancelled timer.serial,
            { s with queue := queue, timers := s.timers.erase timer })
      else none
  | _ => none

/-- A turn of the loop of `poll` up to `run_task`. -/
def turn (s : Timers τ) (now : Instant) (exp : Expiration) :
    Option (Except Fault (TimerEvent τ × Timers τ)) :=
  if s.queue.heap = [] then some (.ok (.returned (some none), { s with poll := .outside }))
  else if exp ∈ s.queue.heap ∧ s.queue.Top exp then
    if now < exp.inner then
      some (.ok (.returned (some (some (exp.inner - now))), { s with poll := .outside }))
    else
      some do
        let (task, queue) ← { s.queue with heap := s.queue.heap.erase exp }.expire exp
        match task with
        | none => .ok (.discarded exp.serial, { s with queue := queue })
        | some (task, resume) =>
            .ok (.ran exp.serial task, { s with queue := queue, poll := .running exp resume })
  else none

/-- The same from the return of `run_task` on. -/
def finish (s : Timers τ) (exp : Expiration) (resume : Option Resume) (exit : Bool) :
    Except Fault (TimerEvent τ × Timers τ) :=
  if exit then .ok (.returned none, { s with poll := .outside })
  else do
    let queue ← s.queue.afterRun exp resume
    .ok (.silent, { s with queue := queue, poll := .polling })

def step (s : Timers τ) (a : TimerAction τ) :
    Option (Except Fault (TimerEvent τ × Timers τ)) :=
  match s.poll, a with
  | .outside, .poll => some (.ok (.silent, { s with poll := .polling }))
  | .outside, a => s.call a
  | .polling, .turn now exp => s.turn now exp
  | .polling, _ => none
  | .running exp resume, .finish exit => some (s.finish exp resume exit)
  | .running _ _, a => s.call a

end Timers

def timersMachine (τ : Type) : Base.Machine (Timers τ) (TimerAction τ) (TimerEvent τ) Fault :=
  ⟨Timers.step⟩

variable {τ : Type}

namespace Timers

variable {s s' : Timers τ} {q : Queue τ} {exp : Expiration}

/-- When `run_task` has returned from the run of a periodic timer's task, the timer is still
there, and the vector of the timers is where it was. -/
def Kept (s : Timers τ) (a : TimerAction τ) : Prop :=
  match s.poll, a with
  | .running exp (some resume), .finish false =>
      ⟨exp.taskId, exp.serial⟩ ∈ s.timers ∧ s.queue.cap = resume.cap
  | _, _ => True

instance (s : Timers τ) (a : TimerAction τ) : Decidable (s.Kept a) := by
  unfold Kept
  split <;> infer_instance

/-- The deadline that a periodic timer gets when its task has been run is an instant. -/
def InRange (s : Timers τ) (a : TimerAction τ) : Prop :=
  match s.poll, a with
  | .running exp (some resume), .finish false => Fits exp.inner resume.period
  | _, _ => True

instance (s : Timers τ) (a : TimerAction τ) : Decidable (s.InRange a) := by
  unfold InRange
  split <;> infer_instance

/-- The heap, the slab and the timers are in step: every timer finds its slot, and a task that
is run finds that of its timer expired, if it is still there. -/
structure InStep (s : Timers τ) : Prop where
  matched : s.queue.Matched
  serial : ∀ i task, s.queue.tasks.get i = some task → task.serial < s.queue.added
  owned : ∀ timer ∈ s.timers, ∃ task, s.queue.tasks.get timer.taskId = some task ∧
    task.serial = timer.serial ∧ task.state ≠ .cancelled
  nodup : s.timers.Nodup
  running : ∀ exp resume, s.poll = .running exp resume → exp.serial < s.queue.added ∧
    ∀ task, s.queue.tasks.get exp.taskId = some task → task.serial = exp.serial →
      task.state = .expired

theorem inStep_init : InStep (init : Timers τ) := by
  refine ⟨Queue.matched_new, ?_, by simp [init], List.nodup_nil, by simp [init]⟩
  intro i task hget
  have hnone : (Slab.empty : Slab (Task τ)).get i = none := Slab.get_empty i
  rw [init, Queue.new, hnone] at hget
  cases hget

theorem InStep.change {k : Nat} {timers : List Handle} {poll : PollState} (h : InStep s)
    (hmatched : q.Matched) (hadded : q.added = s.queue.added)
    (hother : ∀ i, i ≠ k → q.tasks.get i = s.queue.tasks.get i)
    (hself : ∀ task, q.tasks.get k = some task → ∃ task', s.queue.tasks.get k = some task' ∧
      task'.serial = task.serial)
    (htimers : timers.Sublist s.timers)
    (howned : ∀ timer ∈ timers, timer.taskId = k → ∃ task, q.tasks.get k = some task ∧
      task.state ≠ .cancelled)
    (hrunning : ∀ exp resume, poll = .running exp resume → exp.serial < q.added ∧
      ∀ task, q.tasks.get exp.taskId = some task → task.serial = exp.serial →
        task.state = .expired) :
    InStep ⟨q, timers, poll⟩ := by
  refine ⟨hmatched, ?_, ?_, htimers.nodup h.nodup, hrunning⟩
  · intro i task hget
    dsimp only at hget ⊢
    rw [hadded]
    by_cases hi : i = k
    · rw [hi] at hget
      obtain ⟨old, hold, hserial⟩ := hself task hget
      rw [← hserial]
      exact h.serial k old hold
    · rw [hother i hi] at hget
      exact h.serial i task hget
  · intro timer htimer
    obtain ⟨old, hold, hserial, hstate⟩ := h.owned timer (htimers.subset htimer)
    dsimp only
    by_cases hi : timer.taskId = k
    · obtain ⟨task, htask, hne⟩ := howned timer htimer hi
      obtain ⟨old', hold', hsame⟩ := hself task htask
      rw [hi] at hold ⊢
      rw [hold] at hold'
      cases hold'
      exact ⟨task, htask, hsame.symm.trans hserial, hne⟩
    · rw [hother _ hi]
      exact ⟨old, hold, hserial, hstate⟩

theorem InStep.eq_of_taskId {timer timer' : Handle} (h : InStep s) (hmem : timer ∈ s.timers)
    (hmem' : timer' ∈ s.timers) (heq : timer.taskId = timer'.taskId) : timer = timer' := by
  obtain ⟨task, htask, hserial, -⟩ := h.owned timer hmem
  obtain ⟨task', htask', hserial', -⟩ := h.owned timer' hmem'
  rw [heq, htask'] at htask
  cases htask
  cases timer
  cases timer'
  cases heq
  cases hserial.symm.trans hserial'
  rfl

theorem inStep_push {due : Instant} {task : τ} {state : TaskState} (h : InStep s)
    (hexpired : state ≠ .expired) (hcancelled : state ≠ .cancelled) :
    InStep (s.added due task (s.queue.push due task state)).2 := by
  have hfresh := @Queue.get_push_fst _ s.queue due task state
  have hget := @Queue.get_push _ s.queue due task state
  have hkeep : ∀ i old, s.queue.tasks.get i = some old →
      (s.queue.push due task state).2.tasks.get i = some old := by
    intro i old hold
    rw [hget, if_neg]
    · exact hold
    · intro hi
      rw [hi, hfresh] at hold
      cases hold
  have hadded : (s.queue.push due task state).2.added = s.queue.added + 1 := rfl
  constructor
  · exact Queue.matched_push h.matched hexpired
  · intro i new hnew
    have hnew : (s.queue.push due task state).2.tasks.get i = some new := hnew
    show new.serial < s.queue.added + 1
    rw [hget] at hnew
    split at hnew
    · cases hnew
      exact Nat.lt_succ_self _
    · exact Nat.lt_succ_of_lt (h.serial i new hnew)
  · intro timer htimer
    rcases List.mem_cons.mp htimer with rfl | htimer
    · exact ⟨_, (hget _).trans (if_pos rfl), rfl, hcancelled⟩
    · obtain ⟨old, hold, howned⟩ := h.owned timer htimer
      exact ⟨old, hkeep _ old hold, howned⟩
  · refine List.nodup_cons.mpr ⟨?_, h.nodup⟩
    intro hmem
    obtain ⟨old, hold, -⟩ := h.owned _ hmem
    rw [hfresh] at hold
    cases hold
  · intro exp resume hpoll
    obtain ⟨hserial, hrunning⟩ := h.running exp resume hpoll
    refine ⟨Nat.lt_succ_of_lt hserial, ?_⟩
    intro new hnew heq
    have hnew : (s.queue.push due task state).2.tasks.get exp.taskId = some new := hnew
    rw [hget] at hnew
    split at hnew
    · cases hnew
      exact absurd heq (Nat.ne_of_gt hserial)
    · exact hrunning new hnew heq

theorem InStep.cancel {timer : Handle} (h : InStep s) (hmem : timer ∈ s.timers) :
    ∃ r, s.queue.cancel timer.taskId = .ok r ∧
      InStep { s with queue := r.2, timers := s.timers.erase timer } := by
  obtain ⟨task, hget, hserial, hstate⟩ := h.owned timer hmem
  have herase : (s.timers.erase timer).Sublist s.timers := List.erase_sublist
  have howned : ∀ other ∈ s.timers.erase timer, other.taskId ≠ timer.taskId := by
    intro other hother heq
    have hsame := h.eq_of_taskId (herase.subset hother) hmem heq
    rw [hsame] at hother
    exact h.nodup.not_mem_erase hother
  -- a task that is being run finds its slot as before, unless it is this one
  have hset : ∀ exp resume, s.poll = .running exp resume → task.state ≠ .expired →
      ∀ new, (s.queue.setState timer.taskId .cancelled).tasks.get exp.taskId = some new →
        new.serial = exp.serial → new.state = .expired := by
    intro exp resume hpoll hne new hnew heq
    obtain ⟨-, hrunning⟩ := h.running exp resume hpoll
    rw [Queue.get_setState] at hnew
    split at hnew
    · rename_i hi
      rw [hget] at hnew
      cases hnew
      exact absurd (hrunning task (by rw [hi]; exact hget) heq) hne
    · exact hrunning new hnew heq
  have hcancelled : task.state ≠ .expired →
      InStep { s with
        queue := s.queue.setState timer.taskId .cancelled, timers := s.timers.erase timer } := by
    intro hne
    refine h.change (k := timer.taskId) (Queue.matched_cancelled h.matched hget hne) rfl ?_ ?_
      herase ?_ ?_
    · intro i hi
      rw [Queue.get_setState, if_neg hi]
    · intro new hnew
      rw [Queue.get_setState, if_pos rfl, hget] at hnew
      cases hnew
      exact ⟨task, hget, rfl⟩
    · exact fun other hother heq => absurd heq (howned other hother)
    · exact fun exp resume hpoll => ⟨(h.running exp resume hpoll).1, hset exp resume hpoll hne⟩
  rw [Queue.cancel]
  simp only [hget]
  rcases hs : task.state with _ | period | _ | _
  · have hne : task.state ≠ .expired := by
      rw [hs]
      simp
    exact ⟨_, rfl, hcancelled hne⟩
  · have hne : task.state ≠ .expired := by
      rw [hs]
      simp
    exact ⟨_, rfl, hcancelled hne⟩
  · refine ⟨_, rfl, ?_⟩
    refine h.change (k := timer.taskId) ((h.matched.off hget hs).setState _).remove rfl ?_ ?_
      herase ?_ ?_
    · intro i hi
      rw [Queue.get_remove, if_neg hi, Queue.get_setState, if_neg hi]
    · intro new hnew
      rw [Queue.get_remove, if_pos rfl] at hnew
      cases hnew
    · exact fun other hother heq => absurd heq (howned other hother)
    · intro exp resume hpoll
      obtain ⟨hlt, hrunning⟩ := h.running exp resume hpoll
      refine ⟨hlt, ?_⟩
      intro new hnew heq
      rw [Queue.get_remove] at hnew
      split at hnew
      · cases hnew
      · rename_i hi
        rw [Queue.get_setState, if_neg hi] at hnew
        exact hrunning new hnew heq
  · exact absurd hs hstate

theorem InStep.expire (h : InStep s) (hmem : exp ∈ s.queue.heap) :
    ∃ r, { s.queue with heap := s.queue.heap.erase exp }.expire exp = .ok r ∧
      match r.1 with
      | none => InStep { s with queue := r.2, poll := .polling }
      | some (_, resume) => InStep { s with queue := r.2, poll := .running exp resume } := by
  obtain ⟨task, hget, hserial, hstate⟩ := h.matched.entry exp hmem
  have hlt : exp.serial < s.queue.added := by
    rw [← hserial]
    exact h.serial _ task hget
  have hoff := h.matched.pop hmem
  have hset : ∀ resume, InStep { s with
      queue := { s.queue with heap := s.queue.heap.erase exp }.setState exp.taskId .expired
      poll := .running exp resume } := by
    intro resume
    have hself : ({ s.queue with heap := s.queue.heap.erase exp }.setState
        exp.taskId .expired).tasks.get exp.taskId = some { task with state := .expired } := by
      rw [Queue.get_setState, if_pos rfl]
      exact congrArg (Option.map _) hget
    refine h.change (k := exp.taskId) hoff.expired rfl ?_ ?_ (List.Sublist.refl _) ?_ ?_
    · intro i hi
      rw [Queue.get_setState, if_neg hi]
    · intro new hnew
      rw [hself] at hnew
      cases hnew
      exact ⟨task, hget, rfl⟩
    · exact fun _ _ _ => ⟨_, hself, by simp⟩
    · intro exp' resume' hpoll
      cases hpoll
      refine ⟨hlt, ?_⟩
      intro new hnew _
      rw [hself] at hnew
      cases hnew
      rfl
  unfold Queue.expire
  simp only [hget]
  rcases hs : task.state with _ | period | _ | _
  · exact ⟨_, rfl, hset none⟩
  · exact ⟨_, rfl, hset _⟩
  · exact absurd hs hstate
  · refine ⟨_, rfl, ?_⟩
    refine h.change (k := exp.taskId) hoff.remove rfl ?_ ?_ (List.Sublist.refl _) ?_ (by simp)
    · intro i hi
      rw [Queue.get_remove, if_neg hi]
    · intro new hnew
      rw [Queue.get_remove, if_pos rfl] at hnew
      cases hnew
    · intro timer htimer hi
      obtain ⟨old, hold, -, hne⟩ := h.owned timer htimer
      rw [hi, hget] at hold
      cases hold
      exact absurd hs hne

theorem InStep.withPoll {poll : PollState} (h : InStep s)
    (hpoll : ∀ exp resume, poll ≠ .running exp resume) : InStep { s with poll := poll } :=
  ⟨h.matched, h.serial, h.owned, h.nodup,
    fun exp resume heq => absurd heq (hpoll exp resume)⟩

theorem InStep.turn {now : Instant} {r : Except Fault (TimerEvent τ × Timers τ)} (h : InStep s)
    (hpoll : s.poll = .polling) (hturn : s.turn now exp = some r) :
    ∃ e s', r = .ok (e, s') ∧ InStep s' := by
  have houtside : InStep { s with poll := .outside } := h.withPoll (by simp)
  rw [Timers.turn] at hturn
  split at hturn
  · cases hturn
    exact ⟨_, _, rfl, houtside⟩
  · split at hturn
    · rename_i htop
      split at hturn
      · cases hturn
        exact ⟨_, _, rfl, houtside⟩
      · obtain ⟨⟨task, queue⟩, hexpire, hnext⟩ := h.expire htop.1
        rw [hexpire] at hturn
        rcases task with _ | ⟨task, resume⟩
        · cases hturn
          rw [← hpoll] at hnext
          exact ⟨_, _, rfl, hnext⟩
        · cases hturn
          exact ⟨_, _, rfl, hnext⟩
    · cases hturn

theorem InStep.finish {resume : Option Resume} {exit : Bool} (h : InStep s)
    (hpoll : s.poll = .running exp resume) (hkept : s.Kept (.finish exit))
    (hrange : s.InRange (.finish exit)) :
    ∃ e s', s.finish exp resume exit = .ok (e, s') ∧ InStep s' := by
  rcases exit with _ | _
  · rcases resume with _ | resume
    · exact ⟨_, _, rfl, h.withPoll (by simp)⟩
    · unfold Kept at hkept
      unfold InRange at hrange
      rw [hpoll] at hkept hrange
      obtain ⟨hmem, hcap⟩ := hkept
      obtain ⟨task, hget, hserial, -⟩ := h.owned _ hmem
      have hstate := (h.running exp _ hpoll).2 task hget hserial
      obtain ⟨queue, hafter, hmatched, hadded, htasks⟩ :=
        Queue.matched_afterRun h.matched hcap hget hstate hserial hrange
      refine ⟨.silent, { s with queue := queue, poll := .polling }, ?_, ?_⟩
      · rw [Timers.finish, hafter]
        rfl
      · have hself := htasks exp.taskId
        rw [if_pos rfl, hget] at hself
        refine h.change (k := exp.taskId) hmatched hadded ?_ ?_ (List.Sublist.refl _) ?_ (by simp)
        · intro i hi
          rw [htasks, if_neg hi]
        · intro new hnew
          rw [hself] at hnew
          cases hnew
          exact ⟨task, hget, rfl⟩
        · exact fun _ _ _ => ⟨_, hself, by simp⟩
  · exact ⟨_, _, rfl, h.withPoll (by simp)⟩

theorem InStep.finish_panics {resume : Option Resume} {exit : Bool} (h : InStep s)
    (hpoll : s.poll = .running exp resume) (hkept : s.Kept (.finish exit))
    (hrange : ¬ s.InRange (.finish exit)) : s.finish exp resume exit = .error .panic := by
  unfold Kept at hkept
  unfold InRange at hrange
  rw [hpoll] at hkept hrange
  rcases resume with _ | resume
  · exact absurd trivial hrange
  · rcases exit with _ | _
    · obtain ⟨hmem, hcap⟩ := hkept
      obtain ⟨task, hget, hserial, -⟩ := h.owned _ hmem
      have hstate := (h.running exp _ hpoll).2 task hget hserial
      have hafter := Queue.afterRun_panics hcap hget hstate hrange
      rw [Timers.finish, hafter]
      rfl
    · exact absurd trivial hrange

theorem InStep.call {a : TimerAction τ} {r : Except Fault (TimerEvent τ × Timers τ)}
    (h : InStep s) (hcall : s.call a = some r) : ∃ e s', r = .ok (e, s') ∧ InStep s' := by
  cases a with
  | add due task =>
      cases hcall
      exact ⟨_, _, rfl, inStep_push h (by simp) (by simp)⟩
  | addPeriodic due period task =>
      cases hcall
      exact ⟨_, _, rfl, inStep_push h (by simp) (by simp)⟩
  | cancel timer =>
      rw [Timers.call] at hcall
      split at hcall
      · rename_i hmem
        obtain ⟨⟨waiting, queue⟩, hcancel, hnext⟩ := h.cancel hmem
        rw [hcancel] at hcall
        cases hcall
        exact ⟨_, _, rfl, hnext⟩
      · cases hcall
  | poll => cases hcall
  | turn now exp => cases hcall
  | finish exit => cases hcall

theorem InStep.step {a : TimerAction τ} {r : Except Fault (TimerEvent τ × Timers τ)}
    (h : InStep s) (hkept : s.Kept a) (hstep : s.step a = some r) :
    r = .error .panic ∧ ¬ s.InRange a ∨ ∃ e s', r = .ok (e, s') ∧ InStep s' := by
  unfold Timers.step at hstep
  split at hstep
  · cases hstep
    exact .inr ⟨_, _, rfl, h.withPoll (by simp)⟩
  · exact .inr (h.call hstep)
  · rename_i hpoll
    exact .inr (h.turn hpoll hstep)
  · cases hstep
  · rename_i exp resume exit hpoll
    rw [← Option.some.inj hstep]
    by_cases hrange : s.InRange (.finish exit)
    · exact .inr (h.finish hpoll hkept hrange)
    · exact .inl ⟨h.finish_panics hpoll hkept hrange, hrange⟩
  · exact .inr (h.call hstep)

theorem InStep.of_step {a : TimerAction τ} {e : TimerEvent τ} (h : InStep s) (hkept : s.Kept a)
    (hstep : s.step a = some (.ok (e, s'))) : InStep s' := by
  rcases h.step hkept hstep with ⟨hpanic, -⟩ | ⟨e', u, heq, hnext⟩
  · cases hpanic
  · cases heq
    exact hnext

end Timers

/-- Every entry of the heap is that of a timer which has not expired, each of these has one
entry and an expired one has none.  `poll` finds the timer of the entry it has popped, and the
same timer after the run of its task, and no call fails but for a deadline that is no instant. -/
theorem heap_in_step_with_slab {s : Timers τ} {log : List (TimerEvent τ)}
    (h : (timersMachine τ).Run Timers.Kept .init log s) :
    s.queue.Matched ∧
    (∀ exp resume, s.poll = .running exp (some resume) → s.Kept (.finish false) →
      ∃ task, s.queue.tasks.get exp.taskId = some task ∧ task.serial = exp.serial ∧
        task.state = .expired) ∧
    ∀ a fault, s.Kept a → s.step a = some (.error fault) → fault = .panic ∧ ¬ s.InRange a := by
  have hin : s.InStep := by
    refine h.invariant (I := fun _ s => s.InStep) Timers.inStep_init ?_
    exact fun hin hkept hstep => hin.of_step hkept hstep
  refine ⟨hin.matched, ?_, ?_⟩
  · intro exp resume hpoll hkept
    unfold Timers.Kept at hkept
    rw [hpoll] at hkept
    obtain ⟨task, hget, hserial, -⟩ := hin.owned _ hkept.1
    exact ⟨task, hget, hserial, (hin.running exp _ hpoll).2 task hget hserial⟩
  · intro a fault hkept hstep
    rcases hin.step hkept hstep with ⟨hpanic, hrange⟩ | ⟨e, u, heq, -⟩
    · cases hpanic
      exact ⟨rfl, hrange⟩
    · cases heq

/-- A periodic timer of period 2, whose task is run at 1. -/
def runPeriodic : List (TimerAction Nat) :=
  [.addPeriodic 1 2 7, .poll, .turn 1 ⟨1, 0, 0⟩]

theorem heap_in_step_with_slab_of_periodic :
    ∃ (log : List (TimerEvent Nat)) (s : Timers Nat),
      (timersMachine Nat).Run Timers.Kept .init log s ∧ s.queue.heap = [⟨3, 0, 0⟩] ∧
        s.queue.Matched ∧ ∀ a fault, s.Kept a → s.step a = some (.error fault) →
          fault = .panic ∧ ¬ s.InRange a := by
  have hend : ((timersMachine Nat).exec Timers.Kept (runPeriodic ++ [.finish false]) .init).map
      (fun r => r.2.queue.heap) = some [⟨3, 0, 0⟩] := by
    decide +kernel
  obtain ⟨⟨log, s⟩, hexec, hheap⟩ := Option.map_eq_some_iff.mp hend
  have hrun := Base.Machine.Run.of_exec _ hexec
  obtain ⟨hmatched, -, hok⟩ := heap_in_step_with_slab hrun
  exact ⟨log, s, hrun, hheap, hmatched, hok⟩

/-- A task that drops the periodic timer it is run for: `poll` comes back to a freed slot, and
where the task has made a timer since, to the slot of that one, which gets a second entry. -/
theorem dropped_timer_rescheduled :
    (¬ ∀ (log : List (TimerEvent Nat)) (s : Timers Nat),
      (timersMachine Nat).Run (fun _ _ => True) .init log s →
        ∀ a, s.step a ≠ some (.error .freed)) ∧
    ¬ ∀ (log : List (TimerEvent Nat)) (s : Timers Nat),
      (timersMachine Nat).Run (fun _ _ => True) .init log s → s.queue.Matched := by
  constructor
  · intro h
    have hend : ((timersMachine Nat).exec (fun _ _ => True) (runPeriodic ++ [.cancel ⟨0, 0⟩])
        .init).map (fun r => (r.2.step (.finish false)).map fun r =>
          match r with
          | .error fault => some fault
          | .ok _ => none) = some (some (some .freed)) := by
      decide +kernel
    obtain ⟨⟨log, s⟩, hexec, heq⟩ := Option.map_eq_some_iff.mp hend
    obtain ⟨r, hstep, hr⟩ := Option.map_eq_some_iff.mp heq
    rcases r with fault | r
    · cases hr
      exact h log s (.of_exec _ hexec) _ hstep
    · cases hr
  · intro h
    have hend : ((timersMachine Nat).exec (fun _ _ => True)
        (runPeriodic ++ [.cancel ⟨0, 0⟩, .add 9 8, .finish false]) .init).map
          (fun r => (r.2.queue.heap.countP (·.taskId = 0),
            (r.2.queue.tasks.get 0).map fun task => task.state)) =
        some (2, some (.periodic 2)) := by
      decide +kernel
    obtain ⟨⟨log, s⟩, hexec, heq⟩ := Option.map_eq_some_iff.mp hend
    obtain ⟨htwo, hstate⟩ := Prod.mk.inj heq
    obtain ⟨task, hget, hperiodic⟩ := Option.map_eq_some_iff.mp hstate
    have hcount := (h log s (.of_exec _ hexec)).count 0 task hget
    rw [hperiodic, if_neg (by simp)] at hcount
    exact absurd (htwo.symm.trans hcount) (by decide)

end Ruyi.Reactor.Timer
