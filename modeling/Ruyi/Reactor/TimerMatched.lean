import Ruyi.Reactor.TimerQueue

namespace Ruyi.Reactor.Timer

namespace Queue

variable {τ : Type} {q q' : Queue τ} {exp : Expiration}

/-- The heap and the slab are in step: every entry is that of a timer that has not expired,
each of these has one, and an expired one has none. -/
structure Matched (q : Queue τ) : Prop where
  entry : ∀ exp ∈ q.heap, ∃ task, q.tasks.get exp.taskId = some task ∧
    task.serial = exp.serial ∧ task.state ≠ .expired
  count : ∀ i task, q.tasks.get i = some task →
    q.heap.countP (·.taskId = i) = if task.state = .expired then 0 else 1

theorem matched_new : Matched (new : Queue τ) := by
  refine ⟨by simp [new], ?_⟩
  intro i task hget
  have hnone : (Slab.empty : Slab (Task τ)).get i = none := Slab.get_empty i
  rw [new, hnone] at hget
  cases hget

theorem Matched.count_of_none (h : Matched q) {i : Nat} (hget : q.tasks.get i = none) :
    q.heap.countP (·.taskId = i) = 0 := by
  rw [List.countP_eq_zero]
  intro exp hexp heq
  obtain ⟨task, htask, -⟩ := h.entry exp hexp
  rw [of_decide_eq_true heq, hget] at htask
  cases htask

theorem get_push {due : Instant} {task : τ} {state : TaskState} (i : Nat) :
    (q.push due task state).2.tasks.get i =
      if i = (q.push due task state).1 then some ⟨task, state, q.added⟩ else q.tasks.get i :=
  Slab.get_insert _ _ _

theorem get_push_fst (due : Instant) (task : τ) (state : TaskState) :
    q.tasks.get (q.push due task state).1 = none := Slab.get_insert_fst _ _

theorem matched_push {due : Instant} {task : τ} {state : TaskState} (h : Matched q)
    (hstate : state ≠ .expired) : Matched (q.push due task state).2 := by
  have hfresh := h.count_of_none (get_push_fst due task state)
  have hheap : (q.push due task state).2.heap =
      ⟨due, (q.push due task state).1, q.added⟩ :: q.heap := rfl
  constructor
  · intro exp hexp
    rw [hheap] at hexp
    rcases List.mem_cons.mp hexp with rfl | hexp
    · exact ⟨_, (get_push _).trans (if_pos rfl), rfl, hstate⟩
    · obtain ⟨other, hother, hserial, hne⟩ := h.entry exp hexp
      refine ⟨other, ?_, hserial, hne⟩
      rw [get_push, if_neg]
      · exact hother
      · intro heq
        rw [heq, get_push_fst] at hother
        cases hother
  · intro i other hget
    rw [get_push] at hget
    rw [hheap, List.countP_cons]
    split at hget
    · rename_i hi
      cases hget
      rw [hi, hfresh, if_neg hstate]
      simp
    · rename_i hi
      have hne : ¬ (q.push due task state).1 = i := fun heq => hi heq.symm
      rw [h.count i other hget]
      simp [hne]

theorem get_setState {taskId : Nat} {state : TaskState} (i : Nat) :
    (q.setState taskId state).tasks.get i =
      if i = taskId then (q.tasks.get taskId).map fun task => { task with state := state }
      else q.tasks.get i := Slab.get_modify _ _ _ _

theorem get_remove {taskId : Nat} (i : Nat) :
    (q.remove taskId).tasks.get i = if i = taskId then none else q.tasks.get i :=
  Slab.get_remove _ _ _

theorem matched_cancelled {taskId : Nat} {task : Task τ} (h : Matched q)
    (hget : q.tasks.get taskId = some task) (hstate : task.state ≠ .expired) :
    Matched (q.setState taskId .cancelled) := by
  constructor
  · intro exp hexp
    obtain ⟨other, hother, hserial, hne⟩ := h.entry exp hexp
    rw [get_setState]
    split
    · rename_i heq
      rw [heq, hget] at hother
      cases hother
      rw [hget]
      exact ⟨_, rfl, hserial, by simp⟩
    · exact ⟨other, hother, hserial, hne⟩
  · intro i other hi
    have hcount := h.count i
    rw [get_setState] at hi
    split at hi
    · rename_i heq
      rw [hget] at hi
      cases hi
      rw [heq] at hcount ⊢
      rw [if_neg (by simp)]
      exact (hcount task hget).trans (if_neg hstate)
    · exact hcount other hi

/-- The same but for one slot, which has no entry. -/
structure MatchedOff (q : Queue τ) (k : Nat) : Prop where
  entry : ∀ exp ∈ q.heap, exp.taskId ≠ k ∧ ∃ task, q.tasks.get exp.taskId = some task ∧
    task.serial = exp.serial ∧ task.state ≠ .expired
  count : ∀ i task, i ≠ k → q.tasks.get i = some task →
    q.heap.countP (·.taskId = i) = if task.state = .expired then 0 else 1

theorem Matched.off {k : Nat} {task : Task τ} (h : Matched q) (hget : q.tasks.get k = some task)
    (hstate : task.state = .expired) : MatchedOff q k := by
  refine ⟨?_, fun i task _ => h.count i task⟩
  intro exp hexp
  obtain ⟨other, hother, hserial, hne⟩ := h.entry exp hexp
  refine ⟨?_, other, hother, hserial, hne⟩
  rintro rfl
  rw [hget] at hother
  cases hother
  exact hne hstate

theorem Matched.pop (h : Matched q) (hmem : exp ∈ q.heap) :
    MatchedOff { q with heap := q.heap.erase exp } exp.taskId := by
  obtain ⟨task, hget, -, hstate⟩ := h.entry exp hmem
  have hone : q.heap.countP (·.taskId = exp.taskId) = 1 :=
    (h.count _ task hget).trans (if_neg hstate)
  have hzero : (q.heap.erase exp).countP (·.taskId = exp.taskId) = 0 := by
    rw [List.countP_erase, hone, if_pos ⟨hmem, decide_eq_true rfl⟩]
  constructor
  · intro other hother
    refine ⟨?_, h.entry other (List.mem_of_mem_erase hother)⟩
    intro heq
    exact List.countP_eq_zero.mp hzero other hother (decide_eq_true heq)
  · intro i task hne hi
    have hother : ¬ (exp ∈ q.heap ∧ decide (exp.taskId = i) = true) := by
      rintro ⟨-, heq⟩
      exact hne (of_decide_eq_true heq).symm
    show (q.heap.erase exp).countP _ = _
    rw [List.countP_erase, if_neg hother, Nat.sub_zero]
    exact h.count i task hi

theorem MatchedOff.setState {k : Nat} (h : MatchedOff q k) (state : TaskState) :
    MatchedOff (q.setState k state) k := by
  constructor
  · intro exp hexp
    obtain ⟨hne, task, htask⟩ := h.entry exp hexp
    refine ⟨hne, task, ?_⟩
    rw [get_setState, if_neg hne]
    exact htask
  · intro i task hne hi
    rw [get_setState, if_neg hne] at hi
    exact h.count i task hne hi

theorem MatchedOff.count_self {k : Nat} (h : MatchedOff q k) :
    q.heap.countP (·.taskId = k) = 0 := by
  rw [List.countP_eq_zero]
  exact fun exp hexp heq => (h.entry exp hexp).1 (of_decide_eq_true heq)

theorem MatchedOff.remove {k : Nat} (h : MatchedOff q k) : Matched (q.remove k) := by
  constructor
  · intro exp hexp
    obtain ⟨hne, task, htask⟩ := h.entry exp hexp
    refine ⟨task, ?_⟩
    rw [get_remove, if_neg hne]
    exact htask
  · intro i task hi
    rw [get_remove] at hi
    split at hi
    · cases hi
    · rename_i hne
      exact h.count i task hne hi

theorem MatchedOff.expired {k : Nat} (h : MatchedOff q k) : Matched (q.setState k .expired) := by
  have hset := h.setState .expired
  refine ⟨fun exp hexp => (hset.entry exp hexp).2, ?_⟩
  intro i task hi
  by_cases hik : i = k
  · subst hik
    rw [get_setState, if_pos rfl] at hi
    obtain ⟨old, -, rfl⟩ := Option.map_eq_some_iff.mp hi
    exact hset.count_self.trans (if_pos rfl).symm
  · exact hset.count i task hik hi

theorem MatchedOff.rearm {k : Nat} {task : Task τ} (h : MatchedOff q k)
    (hget : q.tasks.get k = some task) (due : Instant) (period : Duration) :
    Matched { q.setState k (.periodic period) with heap := ⟨due, k, task.serial⟩ :: q.heap } := by
  have hset := h.setState (.periodic period)
  have hself : (q.setState k (.periodic period)).tasks.get k =
      some { task with state := .periodic period } := by
    rw [get_setState, if_pos rfl, hget]
    rfl
  constructor
  · intro exp hexp
    rcases List.mem_cons.mp hexp with rfl | hexp
    · exact ⟨_, hself, rfl, by simp⟩
    · exact (hset.entry exp hexp).2
  · intro i other hi
    show List.countP _ (_ :: q.heap) = _
    rw [List.countP_cons]
    by_cases hik : i = k
    · subst hik
      have hother : (q.setState i (.periodic period)).tasks.get i = some other := hi
      rw [hself] at hother
      cases hother
      have hne : ¬ TaskState.periodic period = .expired := by simp
      rw [h.count_self, if_neg hne, if_pos (decide_eq_true rfl)]
    · have hne : ¬ k = i := fun heq => hik heq.symm
      have hcount := hset.count i other hik hi
      have hheap : (q.setState k (.periodic period)).heap = q.heap := rfl
      rw [hheap] at hcount
      rw [hcount]
      simp [hne]

theorem matched_afterRun {resume : Resume} {task : Task τ} (h : Matched q)
    (hcap : q.cap = resume.cap) (hget : q.tasks.get exp.taskId = some task)
    (hstate : task.state = .expired) (hserial : task.serial = exp.serial)
    (hfits : Fits exp.inner resume.period) :
    ∃ q', q.afterRun exp (some resume) = .ok q' ∧ Matched q' ∧ q'.added = q.added ∧
      ∀ i, q'.tasks.get i =
        if i = exp.taskId then
          (q.tasks.get exp.taskId).map fun task => { task with state := .periodic resume.period }
        else q.tasks.get i := by
  have hoff := h.off hget hstate
  have hne : task.state ≠ .cancelled := by
    rw [hstate]
    exact TaskState.noConfusion
  have hmatched := hoff.rearm hget (exp.inner + resume.period) resume.period
  refine ⟨_, ?_, hmatched, rfl, fun i => get_setState i⟩
  rw [afterRun, if_neg (fun hmoved => hmoved hcap)]
  simp only [hget, if_neg hne]
  rw [addDuration_ok hfits, hserial]
  rfl

theorem afterRun_panics {resume : Resume} {task : Task τ} (hcap : q.cap = resume.cap)
    (hget : q.tasks.get exp.taskId = some task) (hstate : task.state = .expired)
    (hover : ¬ Fits exp.inner resume.period) :
    q.afterRun exp (some resume) = .error .panic := by
  have hne : task.state ≠ .cancelled := by
    rw [hstate]
    exact TaskState.noConfusion
  rw [afterRun, if_neg (fun hmoved => hmoved hcap)]
  simp only [hget, if_neg hne]
  rw [addDuration_panics hover]
  rfl

end Queue

end Ruyi.Reactor.Timer
