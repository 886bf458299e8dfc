import Ruyi.Base.Machine
import Ruyi.Sys.Nio

namespace Ruyi.Sys

variable {τ : Type}

/-- The calls that change the interest of a `Nio`, with the task that makes them. -/
inductive NioCall (τ : Type) where
  | scheduleRead (current : τ)
  | scheduleWrite (current : τ)
  | cancelWrite

namespace NioCall

/-- The interest that a call gives to `Poller::reregister`, unless it returns before. -/
def asks (ops : Ops) : NioCall τ → Option Ops
  | scheduleRead _ => if ops.read then none else some { ops with read := true }
  | scheduleWrite _ => if ops.write then none else some { ops with write := true }
  | cancelWrite => if ops.write then some { ops with write := false } else none

/-- What a call that returns `Ok` has told the poller, now or before. -/
def Met (registered : Ops) : NioCall τ → Prop
  | scheduleRead _ => registered.read = true
  | scheduleWrite _ => registered.write = true
  | cancelWrite => registered.write = false

instance (registered : Ops) (c : NioCall τ) : Decidable (c.Met registered) := by
  cases c <;> unfold Met <;> infer_instance

/-- The change of the schedule. -/
def change : NioCall τ → Schedule τ → Schedule τ
  | scheduleRead current => (·.scheduleRead current)
  | scheduleWrite current => (·.scheduleWrite current)
  | cancelWrite => Schedule.cancelWrite

end NioCall

def Nio.call (nio : Nio) (schedules : Slab (Schedule τ)) (result : Except ErrorKind Unit) :
    NioCall τ → Except Fault (Except ErrorKind Unit × Nio × Slab (Schedule τ))
  | .scheduleRead current => nio.scheduleRead schedules current result
  | .scheduleWrite current => nio.scheduleWrite schedules current result
  | .cancelWrite => nio.cancelWrite schedules result

/-- A `Nio`, the schedules of its loop, and the interest that its descriptor has in the
poller. -/
structure Watched (τ : Type) where
  nio : Nio
  schedules : Slab (Schedule τ)
  registered : Ops

/-- `elsewhere` is what the loop and the other objects do to the schedules between two calls. -/
inductive WatchedAction (τ : Type) where
  | call (c : NioCall τ) (result : Except ErrorKind Unit)
  | elsewhere (schedules : Slab (Schedule τ))

/-- A call with its answer, `sched_ops` on both sides of it, and the interest in the poller
after it. -/
structure NioReport (τ : Type) where
  call : NioCall τ
  answer : Except ErrorKind Unit
  before : Ops
  after : Ops
  registered : Ops

namespace Watched

/-- The poller after a call.  An `epoll_ctl` that has failed changes nothing. -/
def ctl (s : Watched τ) (c : NioCall τ) (result : Except ErrorKind Unit) : Ops :=
  match c.asks s.nio.schedOps, result with
  | some ops, .ok () => ops
  | _, _ => s.registered

def step (s : Watched τ) :
    WatchedAction τ → Option (Except Fault (Option (NioReport τ) × Watched τ))
  | .call c result =>
      some do
        let (answer, nio, schedules) ← s.nio.call s.schedules result c
        let registered := s.ctl c result
        .ok (some ⟨c, answer, s.nio.schedOps, nio.schedOps, registered⟩,
          ⟨nio, schedules, registered⟩)
  | .elsewhere schedules =>
      if (schedules.get s.nio.token).isSome then
        some (.ok (none, { s with schedules := schedules }))
      else none

/-- The `epoll_ctl` of a call, if it makes one, succeeds. -/
def Succeeds (s : Watched τ) : WatchedAction τ → Prop
  | .call c result => c.asks s.nio.schedOps ≠ none → result = .ok ()
  | .elsewhere _ => True

instance (s : Watched τ) : (a : WatchedAction τ) → Decidable (s.Succeeds a)
  | .call _ (.ok ()) => isTrue fun _ => rfl
  | .call c (.error _) =>
      match h : c.asks s.nio.schedOps with
      | none => isTrue fun hne => absurd h hne
      | some _ => isFalse fun hok => by cases hok (by rw [h]; simp)
  | .elsewhere _ => isTrue trivial

end Watched

def watchedMachine (τ : Type) :
    Base.Machine (Watched τ) (WatchedAction τ) (Option (NioReport τ)) Fault := ⟨Watched.step⟩

/-- The cache is what the poller has; `Err` has changed nothing, and `Ok` says what it should. -/
structure NioReport.Right (r : NioReport τ) : Prop where
  cached : r.after = r.registered
  failed : ∀ kind, r.answer = .error kind → r.after = r.before
  done : r.answer = .ok () → r.call.Met r.registered

theorem NioCall.asks_ne {c : NioCall τ} {ops ops' : Ops} (h : c.asks ops = some ops') :
    ops' ≠ ops := by
  rintro rfl
  obtain ⟨read, write⟩ := ops'
  cases c <;> cases read <;> cases write <;> cases h

theorem NioCall.met_of_asks {c : NioCall τ} {ops ops' : Ops} (h : c.asks ops = some ops') :
    c.Met ops' := by
  obtain ⟨read, write⟩ := ops
  cases c <;> cases read <;> cases write <;> cases h <;> rfl

theorem NioCall.met_of_not_asks {c : NioCall τ} {ops : Ops} (h : c.asks ops = none) :
    c.Met ops := by
  obtain ⟨read, write⟩ := ops
  cases c <;> cases read <;> cases write <;> cases h <;> rfl

/-- The three calls are one: they return when the cache says so, and register what they ask. -/
theorem Nio.call_eq (nio : Nio) (schedules : Slab (Schedule τ)) (result : Except ErrorKind Unit)
    (c : NioCall τ) :
    nio.call schedules result c =
      match c.asks nio.schedOps with
      | none => .ok (.ok (), nio, schedules)
      | some ops => nio.reregister schedules ops result c.change := by
  obtain ⟨token, read, write⟩ := nio
  cases c <;> cases read <;> cases write <;> rfl

theorem Nio.reregister_cases {nio nio' : Nio} {schedules schedules' : Slab (Schedule τ)} {ops : Ops}
    {result answer : Except ErrorKind Unit} {f : Schedule τ → Schedule τ}
    (h : nio.reregister schedules ops result f = .ok (answer, nio', schedules')) :
    answer = result ∧ nio'.schedOps = ops := by
  unfold reregister at h
  split at h
  · obtain ⟨_, -, hr⟩ := ok_of_bind_ok h
    cases hr
    exact ⟨rfl, rfl⟩
  · cases h
    exact ⟨rfl, rfl⟩

namespace Watched

variable {s s' : Watched τ} {log : List (Option (NioReport τ))}

theorem call_cases {c : NioCall τ} {result : Except ErrorKind Unit} {e : Option (NioReport τ)}
    (h : s.step (.call c result) = some (.ok (e, s'))) :
    ∃ answer, e = some ⟨c, answer, s.nio.schedOps, s'.nio.schedOps, s'.registered⟩ ∧
      s'.registered = s.ctl c result ∧
      match c.asks s.nio.schedOps with
      | none => answer = .ok () ∧ s'.nio.schedOps = s.nio.schedOps
      | some ops => answer = result ∧ s'.nio.schedOps = ops := by
  obtain ⟨⟨answer, nio, schedules⟩, hcall, hr⟩ := ok_of_bind_ok (Option.some.inj h)
  cases hr
  refine ⟨answer, rfl, rfl, ?_⟩
  rw [Nio.call_eq] at hcall
  cases hasks : c.asks s.nio.schedOps with
  | none =>
      rw [hasks] at hcall
      cases hcall
      exact ⟨rfl, rfl⟩
  | some ops =>
      rw [hasks] at hcall
      exact Nio.reregister_cases hcall

theorem right_of_succeeds {a : WatchedAction τ} {e : Option (NioReport τ)}
    (hcached : s.nio.schedOps = s.registered) (hsucceeds : s.Succeeds a)
    (hstep : s.step a = some (.ok (e, s'))) :
    s'.nio.schedOps = s'.registered ∧ ∀ r, e = some r → r.Right := by
  cases a with
  | elsewhere schedules =>
      rw [step] at hstep
      split at hstep
      · cases hstep
        exact ⟨hcached, fun _ hr => by cases hr⟩
      · cases hstep
  | call c result =>
      obtain ⟨answer, rfl, hctl, hcases⟩ := call_cases hstep
      suffices h : answer = .ok () ∧ s'.nio.schedOps = s'.registered ∧ c.Met s'.nio.schedOps by
        obtain ⟨rfl, hcached', hmet⟩ := h
        refine ⟨hcached', fun _ hr => ?_⟩
        cases hr
        exact ⟨hcached', fun _ hfailed => (by cases hfailed), fun _ => hcached' ▸ hmet⟩
      cases hasks : c.asks s.nio.schedOps with
      | none =>
          simp only [ctl, hasks] at hctl hcases
          obtain ⟨rfl, hops⟩ := hcases
          refine ⟨rfl, ?_, ?_⟩
          · rw [hops, hctl, hcached]
          · rw [hops]
            exact NioCall.met_of_not_asks hasks
      | some ops =>
          obtain rfl : result = .ok () := hsucceeds (by rw [hasks]; simp)
          simp only [ctl, hasks] at hctl hcases
          obtain ⟨rfl, hops⟩ := hcases
          refine ⟨rfl, hops.trans hctl.symm, ?_⟩
          rw [hops]
          exact NioCall.met_of_asks hasks

theorem succeeds_of_right {a : WatchedAction τ} {e : Option (NioReport τ)}
    (hstep : s.step a = some (.ok (e, s'))) (hright : ∀ r, e = some r → r.Right) :
    s.Succeeds a := by
  cases a with
  | elsewhere schedules => trivial
  | call c result =>
      intro hreaches
      obtain ⟨ops, hasks⟩ := Option.ne_none_iff_exists'.mp hreaches
      obtain ⟨answer, rfl, -, hcases⟩ := call_cases hstep
      rw [hasks] at hcases
      obtain ⟨rfl, hops⟩ := hcases
      cases answer with
      | ok _ => rfl
      | error kind =>
          have hsame := (hright _ rfl).failed kind rfl
          exact absurd (hops.symm.trans hsame) (NioCall.asks_ne hasks)

end Watched

/-- The cached interest is that in the poller exactly in the runs without failed registrations. -/
theorem interest_cached_iff {schedules schedules' : Slab (Schedule τ)} {registration : Nat}
    {current : τ} {nio : Nio} {log : List (Option (NioReport τ))} {s : Watched τ}
    (hnew : Nio.register schedules registration current (.ok ()) = (.ok nio, schedules'))
    (hrun : (watchedMachine τ).Run (fun _ _ => True) ⟨nio, schedules', ⟨false, false⟩⟩ log s) :
    (∀ r, some r ∈ log → r.Right) ↔
      (watchedMachine τ).Run Watched.Succeeds ⟨nio, schedules', ⟨false, false⟩⟩ log s := by
  have hempty : nio.schedOps = ⟨false, false⟩ := by
    cases hnew
    rfl
  constructor
  · intro hright
    induction hrun with
    | nil => exact .nil
    | snoc _ _ hstep ih =>
        have hlog := ih fun r hr => hright r (List.mem_append_left _ hr)
        refine hlog.snoc (Watched.succeeds_of_right hstep fun r hr => ?_) hstep
        exact hright r (List.mem_append_right _ (hr ▸ List.mem_cons_self))
  · intro hsucceeds
    refine (hsucceeds.invariant (I := fun log s =>
      s.nio.schedOps = s.registered ∧ ∀ r, some r ∈ log → NioReport.Right r)
      ⟨hempty, by simp⟩ ?_).2
    rintro log t a e u ⟨hcached, hlog⟩ hallowed hstep
    obtain ⟨hcached', hright⟩ := Watched.right_of_succeeds hcached hallowed hstep
    refine ⟨hcached', fun r hr => ?_⟩
    rcases List.mem_append.mp hr with hr | hr
    · exact hlog r hr
    · exact hright r (List.mem_singleton.mp hr).symm

theorem interest_cached_of_three :
    ∃ (nio : Nio) (schedules : Slab (Schedule Nat)) (log : List (Option (NioReport Nat)))
        (s : Watched Nat),
      Nio.register Slab.empty 0 7 (.ok ()) = (.ok nio, schedules) ∧
      (watchedMachine Nat).Run (fun _ _ => True) ⟨nio, schedules, ⟨false, false⟩⟩ log s ∧
      log.length = 3 ∧ s.registered = ⟨true, false⟩ ∧ ∀ r, some r ∈ log → r.Right := by
  let as : List (WatchedAction Nat) :=
    [.call (.scheduleRead 7) (.ok ()), .call (.scheduleWrite 8) (.ok ()),
      .call .cancelWrite (.ok ())]
  let new := Nio.register (Slab.empty : Slab (Schedule Nat)) 0 7 (.ok ())
  have hnew : new = (.ok ⟨0, ⟨false, false⟩⟩, new.2) := rfl
  obtain ⟨⟨log, s⟩, hexec, hlength, hregistered⟩ :
      ∃ r, (watchedMachine Nat).exec Watched.Succeeds as
          ⟨⟨0, ⟨false, false⟩⟩, new.2, ⟨false, false⟩⟩ = some r ∧
        r.1.length = 3 ∧ r.2.registered = ⟨true, false⟩ := ⟨_, rfl, rfl, rfl⟩
  have hsucceeds := Base.Machine.Run.of_exec as hexec
  have hrun := hsucceeds.mono fun _ _ _ => trivial
  exact ⟨_, _, log, s, hnew, hrun, hlength, hregistered,
    (interest_cached_iff hnew hrun).mpr hsucceeds⟩

/-- A registration that fails is taken for one that has been made. -/
theorem failed_registration_cached :
    ¬ ∀ (nio : Nio) (schedules : Slab (Schedule Nat)) (log : List (Option (NioReport Nat)))
        (s : Watched Nat),
      Nio.register Slab.empty 0 7 (.ok ()) = (.ok nio, schedules) →
      (watchedMachine Nat).Run (fun _ _ => True) ⟨nio, schedules, ⟨false, false⟩⟩ log s →
        ∀ r, some r ∈ log → r.Right := by
  intro h
  let as : List (WatchedAction Nat) :=
    [.call (.scheduleRead 7) (.error (.other 12)), .call (.scheduleRead 7) (.ok ())]
  let new := Nio.register (Slab.empty : Slab (Schedule Nat)) 0 7 (.ok ())
  let again : NioReport Nat :=
    ⟨.scheduleRead 7, .ok (), ⟨true, false⟩, ⟨true, false⟩, ⟨false, false⟩⟩
  obtain ⟨⟨log, s⟩, hexec, hlog⟩ :
      ∃ r, (watchedMachine Nat).exec (fun _ _ => True) as
          ⟨⟨0, ⟨false, false⟩⟩, new.2, ⟨false, false⟩⟩ = some r ∧
        r.1[1]? = some (some again) := ⟨_, rfl, rfl⟩
  have hright := h _ _ log s rfl (Base.Machine.Run.of_exec as hexec) again
    (List.mem_of_getElem? hlog)
  exact absurd (hright.done rfl) (by decide)

end Ruyi.Sys
