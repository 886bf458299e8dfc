import Ruyi.Sync.ChannelSignals

namespace Ruyi.Sync

variable {w capacity : Nat} {α : Type}

namespace Channel

/-- The next step where the `Awakener` has a pipe: `eventFd` is then the number of bytes in it, a
`wakeup` writes one, and a `reset` reads one when there is one. -/
def pipeStep (s : Channel w α) (a : ChannelAction α) :
    Option (Except Fault (ChannelEvent α × Channel w α)) :=
  match a, s.sender, s.receiver with
  | .sender (.ok ()), .writeFd k, _ =>
      some (.ok (.silent,
        { s with
          awakener := { s.awakener with eventFd := s.awakener.eventFd + 1 }
          sender := .storeFlag k }))
  | .receiver (.ok ()), _, .readFd dropping =>
      if s.awakener.eventFd = 0 then none
      else some (.ok (.silent,
        { s with
          awakener := { s.awakener with eventFd := s.awakener.eventFd - 1 }
          receiver := .storeFlag dropping }))
  | a, _, _ => s.step a

def withFd (fd : Nat) (s : Channel w α) : Channel w α :=
  { s with awakener := { s.awakener with eventFd := fd } }

/-- The channel with an eventfd that was written once for each byte in the pipe. -/
def counted (s : Channel w α) : Channel w α := s.withFd (s.awakener.eventFd * (2 ^ 64 - 2))

end Channel

def pipeMachine (w : Nat) (α : Type) :
    Base.Machine (Channel w α) (ChannelAction α) (ChannelEvent α) Fault := ⟨Channel.pipeStep⟩

namespace Channel

variable {s s' : Channel w α} {e : ChannelEvent α} {a : ChannelAction α}
  {result : Except ErrorKind Unit}

theorem stepSender_withFd (fd : Nat) (h : s.sender.writing = true → result ≠ .ok ()) :
    (s.withFd fd).stepSender result =
      (s.stepSender result).map (Except.map fun r => (r.1, r.2.withFd fd)) := by
  obtain ⟨ring, strongCount, awakener, needReset, sender, receiver⟩ := s
  cases sender with
  | idle | gone | release => rfl
  | testCount retry t =>
      rcases strongCount with _ | _ | _ <;> rfl
  | pushing retry =>
      simp only [stepSender, withFd]
      rcases ring.produce with - | fault | ⟨event, ring'⟩
      · rfl
      · rfl
      · cases event <;> cases retry <;> rfl
  | loadFlag k =>
      obtain ⟨needWakeup, eventFd⟩ := awakener
      cases needWakeup <;> cases k <;> rfl
  | writeFd k =>
      cases result with
      | ok _ => exact absurd rfl (h rfl)
      | error kind => cases k <;> rfl
  | storeFlag k => cases k <;> rfl

theorem stepReceiver_withFd (fd : Nat) (h : s.receiver.reading = true → result ≠ .ok ()) :
    (s.withFd fd).stepReceiver result =
      (s.stepReceiver result).map (Except.map fun r => (r.1, r.2.withFd fd)) := by
  obtain ⟨ring, strongCount, awakener, needReset, sender, receiver⟩ := s
  cases receiver with
  | idle | parked | gone | release => rfl
  | loadFlag dropping =>
      obtain ⟨needWakeup, eventFd⟩ := awakener
      cases needWakeup <;> cases dropping <;> rfl
  | readFd dropping =>
      match result with
      | .ok () => exact absurd rfl (h rfl)
      | .error kind =>
          cases dropping with
          | true => rfl
          | false =>
              cases kind <;> rfl
  | storeFlag dropping => cases dropping <;> rfl
  | popping =>
      simp only [stepReceiver, withFd]
      rcases ring.consume with - | fault | ⟨event, ring'⟩
      · rfl
      · rfl
      · cases event <;> rfl
  | testCount =>
      match strongCount with
      | 0 | 1 | _ + 2 => rfl
  | scheduleRead =>
      match result with
      | .ok () => rfl
      | .error kind => rfl

theorem step_withFd (fd : Nat)
    (hsender : a = .sender (.ok ()) → s.sender.writing = false)
    (hreceiver : a = .receiver (.ok ()) → s.receiver.reading = false) :
    (s.withFd fd).step a = (s.step a).map (Except.map fun r => (r.1, r.2.withFd fd)) := by
  match a with
  | .sender result =>
      have h : s.sender.writing = true → result ≠ .ok () := by
        rintro hwriting rfl
        cases (hsender rfl).symm.trans hwriting
      exact stepSender_withFd fd h
  | .receiver result =>
      refine stepReceiver_withFd fd ?_
      rintro hreading rfl
      cases (hreceiver rfl).symm.trans hreading
  | .send retry t | .dropSender =>
      obtain ⟨ring, strongCount, awakener, needReset, sender, receiver⟩ := s
      cases sender <;> rfl
  | .dropReceiver =>
      obtain ⟨ring, strongCount, awakener, needReset, sender, receiver⟩ := s
      cases receiver <;> rfl
  | .poll =>
      obtain ⟨ring, strongCount, awakener, needReset, sender, receiver⟩ := s
      cases receiver <;> cases needReset <;> rfl

theorem eventFd_of_step (hstep : s.step a = some (.ok (e, s')))
    (hsender : a = .sender (.ok ()) → s.sender.writing = false)
    (hreceiver : a = .receiver (.ok ()) → s.receiver.reading = false) :
    s'.awakener.eventFd = s.awakener.eventFd := by
  have hsame := step_withFd s.awakener.eventFd hsender hreceiver
  have hself : s.withFd s.awakener.eventFd = s := rfl
  rw [hself, hstep] at hsame
  have hnext : s' = s'.withFd s.awakener.eventFd :=
    congrArg Prod.snd (Except.ok.inj (Option.some.inj hsame))
  rw [hnext]
  rfl

theorem pipeStep_eq_step (hsender : a = .sender (.ok ()) → s.sender.writing = false)
    (hreceiver : a = .receiver (.ok ()) → s.receiver.reading = false) :
    s.pipeStep a = s.step a := by
  unfold pipeStep
  split
  · rename_i hs
    have hwriting := hsender rfl
    rw [hs] at hwriting
    cases hwriting
  · rename_i hr
    have hreading := hreceiver rfl
    rw [hr] at hreading
    cases hreading
  · rfl

theorem eventFd_counted (s : Channel w α) :
    s.counted.awakener.eventFd = s.awakener.eventFd * (2 ^ 64 - 2) := rfl

theorem counted_init : (init w α capacity).counted = init w α capacity := by
  simp only [counted, withFd, init, Nat.zero_mul]

theorem counted_write (hwriting : s.sender.writing = true)
    (hstep : s.pipeStep (.sender (.ok ())) = some (.ok (e, s'))) :
    s.counted.step (.sender (.ok ())) = some (.ok (e, s'.counted)) := by
  obtain ⟨ring, strongCount, awakener, needReset, sender, receiver⟩ := s
  match sender with
  | .writeFd k =>
      cases hstep
      simp only [step, stepSender, counted, withFd, Nat.add_mul, Nat.one_mul]

theorem counted_read (h : Paired s.counted) (hreading : s.receiver.reading = true)
    (hstep : s.pipeStep (.receiver (.ok ())) = some (.ok (e, s'))) :
    s.counted.step (.receiver (.ok ())) = some (.ok (e, s'.counted)) := by
  have hone := h.awaiting hreading
  rw [eventFd_counted] at hone
  have hcount : s.awakener.eventFd = 1 := by omega
  obtain ⟨ring, strongCount, ⟨needWakeup, eventFd⟩, needReset, sender, receiver⟩ := s
  cases hcount
  match receiver with
  | .readFd dropping =>
      cases hstep
      simp only [step, stepReceiver, counted, withFd, Nat.sub_self, Nat.zero_mul]

theorem counted_step (h : Paired s.counted) (hstep : s.pipeStep a = some (.ok (e, s'))) :
    s.counted.step a = some (.ok (e, s'.counted)) := by
  by_cases hwrite : a = .sender (.ok ()) ∧ s.sender.writing = true
  · obtain ⟨rfl, hwriting⟩ := hwrite
    exact counted_write hwriting hstep
  by_cases hread : a = .receiver (.ok ()) ∧ s.receiver.reading = true
  · obtain ⟨rfl, hreading⟩ := hread
    exact counted_read h hreading hstep
  have hsender : a = .sender (.ok ()) → s.sender.writing = false := fun ha =>
    Bool.eq_false_iff.mpr fun hwriting => hwrite ⟨ha, hwriting⟩
  have hreceiver : a = .receiver (.ok ()) → s.receiver.reading = false := fun ha =>
    Bool.eq_false_iff.mpr fun hreading => hread ⟨ha, hreading⟩
  rw [pipeStep_eq_step hsender hreceiver] at hstep
  rw [counted, step_withFd _ hsender hreceiver, hstep, counted,
    eventFd_of_step hstep hsender hreceiver]
  rfl

/-- What a channel with a pipe does, the channel with an eventfd does, too.  There is at most one
byte in the pipe: none when the sender is to write, so that it has not to wait, and one when the
receiver is to read. -/
theorem pipe_takes_turns {log : List (ChannelEvent α)}
    (h : (pipeMachine w α).Run (fun _ _ => True) (init w α capacity) log s) :
    (channelMachine w α).Run (fun _ _ => True) (init w α capacity) log s.counted ∧
      s.awakener.eventFd ≤ 1 ∧ (s.sender.writing = true → s.awakener.eventFd = 0) ∧
      (s.receiver.reading = true → s.awakener.eventFd = 1) := by
  have hrun : (channelMachine w α).Run (fun _ _ => True) (init w α capacity) log s.counted := by
    refine h.invariant (I := fun log s =>
      (channelMachine w α).Run (fun _ _ => True) (init w α capacity) log s.counted) ?_ ?_
    · rw [counted_init]
      exact .nil
    intro log s a e s' hrun _ hstep
    exact hrun.snoc trivial (counted_step (paired_of_run hrun) hstep)
  have hpaired := paired_of_run hrun
  have hexact := hpaired.exact_eq
  rw [eventFd_counted] at hexact
  refine ⟨hrun, ?_, fun hwriting => ?_, fun hreading => ?_⟩
  · split at hexact <;> omega
  · have hzero := hpaired.unsignalled hwriting
    rw [eventFd_counted] at hzero
    omega
  · have hone := hpaired.awaiting hreading
    rw [eventFd_counted] at hone
    omega

theorem pipe_takes_turns_of_one :
    ∃ (log : List (ChannelEvent Nat)) (s : Channel 64 Nat),
      (pipeMachine 64 Nat).Run (fun _ _ => True) (init 64 Nat 1) log s ∧
        s.receiver.reading = true ∧ s.awakener.eventFd = 1 := by
  have hend : ((pipeMachine 64 Nat).exec (fun _ _ => True)
      (oneWakeup ++ [.sender (.ok ()), .sender (.ok ()), .poll, .receiver (.ok ())])
      (init 64 Nat 1)).map (fun r => r.2.receiver) = some (.readFd false) := by
    decide +kernel
  obtain ⟨⟨log, s⟩, hexec, hreceiver⟩ := Option.map_eq_some_iff.mp hend
  have hreading : s.receiver.reading = true := by
    rw [hreceiver]
    rfl
  have hrun := Base.Machine.Run.of_exec _ hexec
  exact ⟨log, s, hrun, hreading, (pipe_takes_turns hrun).2.2.2 hreading⟩

end Channel

end Ruyi.Sync
