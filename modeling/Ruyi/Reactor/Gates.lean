import Ruyi.Reactor.LoopTicker

namespace Ruyi.Reactor

variable {s s' : EventLoop}

namespace EventLoop

theorem gate_unspawn {below : Code} (h : s.unspawn below = .ok s') : s'.gate = s.gate := by
  unfold unspawn at h
  split at h
  · cases h
  · cases h
    rfl

theorem gate_finish {c : Code} {ready : Bool} (h : s.finish ready c = some (.ok s')) :
    s'.gate = s.gate := by
  cases c with
  | outside | dropped _ _ _ | spawnedDropped _ _ _ => cases h
  | main caller =>
      rw [finish] at h
      split at h
      · exact (turned_returned (Option.some.inj h)).gate
      · exact (turned_returned (Option.some.inj h)).gate
  | task i serial caller =>
      rw [finish] at h
      split at h
      · cases h
        rfl
      · exact (turned_returned (Option.some.inj h)).gate
  | spawned i serial below =>
      rw [finish] at h
      split at h
      · cases h
        rfl
      · exact gate_unspawn (Option.some.inj h)

theorem gate_step {a : LoopAction} {e : LoopEvent} (henter : a ≠ .enterGate)
    (hleave : a ≠ .leaveGate) (h : s.step a = some (.ok (e, s'))) : s'.gate = s.gate := by
  cases steps_of_step h with
  | start hcontrol => rfl
  | code hcontrol hstep =>
      unfold stepCode at hstep
      split at hstep
      · obtain ⟨r, -, hr⟩ := Option.map_eq_some_iff.mp hstep
        obtain ⟨held, -, rfl⟩ := ok_of_map_ok hr
        rfl
      · obtain ⟨held, -, hr⟩ := ok_of_bind_ok (Option.some.inj hstep)
        cases hr
        cases s.held.wheel <;> rfl
      · exact absurd rfl henter
      · exact absurd rfl hleave
      · cases hstep
        rfl
      · exact gate_finish hstep
      · unfold dropped at hstep
        split at hstep
        · exact (turned_returned (Option.some.inj hstep)).gate
        · exact gate_unspawn (Option.some.inj hstep)
        · cases hstep
      · cases hstep
  | runTask hcontrol hstep => exact (turned_runTask hstep).gate
  | ticker hcontrol hstep => exact (done_stepTicker hstep).2
  | visit hcontrol hstep => exact (turned_visit hstep).gate
  | loop hcontrol hstep =>
      unfold stepLoop at hstep
      split at hstep
      · exact (turned_timers hstep).gate
      · cases hstep
      · obtain ⟨rest, -, hr⟩ := Option.map_eq_some_iff.mp hstep
        cases hr
        rfl
      · rename_i rest hphase
        cases rest with
        | nil =>
            cases hstep
            rfl
        | cons p rest => exact (turned_event hphase (Option.some.inj hstep)).gate
      · obtain ⟨queue, -, hr⟩ := ok_of_bind_ok (Option.some.inj hstep)
        cases hr
        rfl
      · split at hstep
        · obtain ⟨r, -, hr⟩ := Option.map_eq_some_iff.mp hstep
          obtain ⟨held, -, rfl⟩ := ok_of_map_ok hr
          rfl
        · cases hstep
      · exact absurd rfl hleave
      · cases hstep
  | cleared hcontrol hphase => rfl

/-- Code may run on the thread: that of a task, that between two runs, or destructors. -/
def RunsCode (s : EventLoop) : Prop :=
  match s.control with
  | .code _ => True
  | .loop => s.phase = .clearing
  | _ => False

theorem runsCode_iff (s : EventLoop) :
    (match s.control with
      | .code _ => true
      | .loop => decide (s.phase = .clearing)
      | _ => false) = true ↔ s.RunsCode := by
  rw [RunsCode]
  split <;> simp

instance (s : EventLoop) : Decidable s.RunsCode := decidable_of_iff _ s.runsCode_iff

end EventLoop

/-- The threads, each with its `CURRENT_LOOP`, and the `Gate` values alive, each as the thread
on whose loop it was made.  A `Gate` says nothing of that thread, and may be moved to any. -/
structure Threads where
  loops : Nat → EventLoop
  gates : List Nat

inductive ThreadAction where
  | step (thread : Nat) (a : LoopAction)
  | newGate (thread : Nat)
  | dropGate (thread home : Nat)

namespace Threads

def init : Threads := ⟨fun _ => EventLoop.init, []⟩

def setLoop (s : Threads) (thread : Nat) (eloop : EventLoop) : Threads :=
  { s with loops := Function.update s.loops thread eloop }

/-- `Gate::new` on a thread. -/
def newGate (s : Threads) (thread : Nat) : Threads :=
  let entered := (s.loops thread).enterGate
  { s.setLoop thread entered.2 with
    gates := if entered.1 then thread :: s.gates else s.gates }

/-- The drop of a `Gate` on a thread.  `gate -= 1` overflows at zero. -/
def dropGate (s : Threads) (thread home : Nat) : Except Fault Threads :=
  match (s.loops thread).leaveGate with
  | none => .error .panic
  | some eloop => .ok { s.setLoop thread eloop with gates := s.gates.erase home }

/-- A step of the loop of a thread, but for those on gates. -/
def stepLoop (s : Threads) (thread : Nat) : LoopAction → Option (Except Fault (Unit × Threads))
  | .enterGate | .leaveGate => none
  | a => ((s.loops thread).step a).map fun r => r.map fun r => ((), s.setLoop thread r.2)

def step (s : Threads) : ThreadAction → Option (Except Fault (Unit × Threads))
  | .step thread a => s.stepLoop thread a
  | .newGate thread =>
      if (s.loops thread).RunsCode then some (.ok ((), s.newGate thread)) else none
  | .dropGate thread home =>
      if (s.loops thread).RunsCode ∧ home ∈ s.gates then
        some ((s.dropGate thread home).map fun s => ((), s))
      else none

end Threads

def threadsMachine : Base.Machine Threads ThreadAction Unit Fault := ⟨Threads.step⟩

/-- A `Gate` is dropped on the thread it was made on. -/
def Threads.DropsHome (_ : Threads) : ThreadAction → Prop
  | .dropGate thread home => thread = home
  | _ => True

instance (s : Threads) (a : ThreadAction) : Decidable (s.DropsHome a) := by
  cases a <;> unfold Threads.DropsHome <;> infer_instance

namespace Threads

/-- Every loop counts the gates made on it. -/
def Counted (s : Threads) : Prop := ∀ thread, (s.loops thread).gate = s.gates.count thread

variable {t t' : Threads}

theorem counted_setLoop {thread : Nat} {eloop : EventLoop} (h : Counted t)
    (hgate : eloop.gate = (t.loops thread).gate) : Counted (t.setLoop thread eloop) := by
  intro other
  by_cases hother : other = thread
  · subst hother
    simp only [setLoop, Function.update_self]
    rw [hgate]
    exact h other
  · simp only [setLoop, Function.update_of_ne hother]
    exact h other

theorem counted_newGate {thread : Nat} (h : Counted t) : Counted (t.newGate thread) := by
  unfold newGate EventLoop.enterGate
  split
  · intro other
    by_cases hother : other = thread
    · subst hother
      simp only [setLoop, Function.update_self, if_true, List.count_cons_self]
      rw [h other]
    · simp only [setLoop, Function.update_of_ne hother, if_true]
      rw [List.count_cons_of_ne (Ne.symm hother)]
      exact h other
  · exact counted_setLoop h rfl

theorem counted_dropGate {thread : Nat} (h : Counted t)
    (hstep : t.dropGate thread thread = .ok t') : Counted t' := by
  rw [dropGate] at hstep
  split at hstep
  · cases hstep
  · rename_i eloop hleave
    cases hstep
    rw [EventLoop.leaveGate] at hleave
    split at hleave
    · cases hleave
    · cases hleave
      intro other
      by_cases hother : other = thread
      · subst hother
        simp only [setLoop, Function.update_self, List.count_erase_self]
        rw [h other]
      · simp only [setLoop, Function.update_of_ne hother, List.count_erase_of_ne hother]
        exact h other

theorem counted_stepLoop {thread : Nat} {a : LoopAction} {e : Unit} (h : Counted t)
    (hstep : t.stepLoop thread a = some (.ok (e, t'))) : Counted t' := by
  unfold stepLoop at hstep
  split at hstep
  · cases hstep
  · cases hstep
  · rename_i henter hleave
    obtain ⟨r, hloop, hr⟩ := Option.map_eq_some_iff.mp hstep
    obtain ⟨⟨e', eloop⟩, rfl, heq⟩ := ok_of_map_ok hr
    cases heq
    exact counted_setLoop h (EventLoop.gate_step henter hleave hloop)

theorem counted_step {a : ThreadAction} {e : Unit} (h : Counted t) (hhome : t.DropsHome a)
    (hstep : t.step a = some (.ok (e, t'))) : Counted t' := by
  cases a with
  | step thread a => exact counted_stepLoop h hstep
  | newGate thread =>
      rw [step] at hstep
      split at hstep
      · cases hstep
        exact counted_newGate h
      · cases hstep
  | dropGate thread home =>
      rw [step] at hstep
      split at hstep
      · cases hhome
        obtain ⟨s, hdrop, heq⟩ := ok_of_map_ok (Option.some.inj hstep)
        cases heq
        exact counted_dropGate h hdrop
      · cases hstep

end Threads

/-- Gate counts do not drift: every loop counts the gates alive that were made on it, and is
not at zero when one is dropped. -/
theorem gates_counted {log : List Unit} {s : Threads}
    (h : threadsMachine.Run Threads.DropsHome .init log s) :
    (∀ thread, (s.loops thread).gate = s.gates.count thread) ∧
      ∀ thread, thread ∈ s.gates → ∃ s', s.dropGate thread thread = .ok s' := by
  have hcounted : s.Counted := by
    refine h.invariant (I := fun _ s => s.Counted) (fun _ => rfl) ?_
    exact fun hcounted hhome hstep => Threads.counted_step hcounted hhome hstep
  refine ⟨hcounted, ?_⟩
  intro thread hmem
  have hne : (s.loops thread).gate ≠ 0 := by
    rw [hcounted thread]
    exact Nat.ne_of_gt (List.count_pos_iff.mpr hmem)
  rw [Threads.dropGate, EventLoop.leaveGate, if_neg hne]
  exact ⟨_, rfl⟩

/-- A gate on each of two loops. -/
def gateEach : List ThreadAction :=
  [.step 0 .start, .newGate 0, .step 1 .start, .newGate 1]

theorem gates_counted_of_two :
    ∃ (log : List Unit) (s : Threads), threadsMachine.Run Threads.DropsHome .init log s ∧
      s.gates = [0] ∧ (s.loops 0).gate = s.gates.count 0 ∧ (s.loops 1).gate = s.gates.count 1 := by
  have hend : ((threadsMachine.exec Threads.DropsHome (gateEach ++ [.dropGate 1 1])
      Threads.init).map fun r => r.2.gates) = some [0] := by
    decide +kernel
  obtain ⟨⟨log, s⟩, hexec, hgates⟩ := Option.map_eq_some_iff.mp hend
  have hrun := Base.Machine.Run.of_exec _ hexec
  exact ⟨log, s, hrun, hgates, (gates_counted hrun).1 0, (gates_counted hrun).1 1⟩

/-- The first is dropped on the other thread: its loop keeps the count. -/
theorem gate_count_kept :
    ¬ ∀ (log : List Unit) (s : Threads), threadsMachine.Run (fun _ _ => True) .init log s →
      ∀ thread, (s.loops thread).gate = s.gates.count thread := by
  intro h
  have hend : ((threadsMachine.exec (fun _ _ => True) (gateEach ++ [.dropGate 1 0])
      Threads.init).map fun r => (r.2.gates, (r.2.loops 0).gate)) = some ([1], 1) := by
    decide +kernel
  obtain ⟨⟨log, s⟩, hexec, heq⟩ := Option.map_eq_some_iff.mp hend
  obtain ⟨hgates, hgate⟩ := Prod.mk.inj heq
  have hcount := h log s (.of_exec _ hexec) 0
  rw [hgate, hgates] at hcount
  cases hcount

end Ruyi.Reactor
