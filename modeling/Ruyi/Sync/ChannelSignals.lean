import Ruyi.Sync.ChannelWakeup

namespace Ruyi.Sync

variable {w capacity : Nat} {α : Type}

/-- The write has been done, and the store of the flag is the next step. -/
def Sender.storing : Sender α → Bool
  | .storeFlag _ => true
  | _ => false

/-- The read of the eventfd is the next step. -/
def Receiver.reading : Receiver → Bool
  | .readFd _ => true
  | _ => false

/-- The read has been done, and the store of the flag is the next step. -/
def Receiver.storing : Receiver → Bool
  | .storeFlag _ => true
  | _ => false

theorem Sender.storing_of_writing {sender : Sender α} (h : sender.writing = true) :
    sender.storing = false := by
  match sender with
  | .writeFd _ => rfl

theorem Receiver.storing_of_reading {receiver : Receiver} (h : receiver.reading = true) :
    receiver.storing = false := by
  match receiver with
  | .readFd _ => rfl

namespace Channel

variable {s s' : Channel w α} {e : ChannelEvent α} {result : Except ErrorKind Unit}
  {a : ChannelAction α}

/-- What a step can do to the flag and the eventfd: nothing, or the next step of a `wakeup` or of
a `reset`. -/
inductive Signals (s s' : Channel w α) : Prop where
  | quiet (awakener_eq : s'.awakener = s.awakener)
      (sender_storing : s'.sender.storing = s.sender.storing)
      (receiver_storing : s'.receiver.storing = s.receiver.storing)
      (writing : s'.sender.writing = true → s.sender.writing = true ∨
        s.awakener.needWakeup = true)
      (reading : s'.receiver.reading = true → s.receiver.reading = true ∨
        s.awakener.needWakeup = false)
  | written (writing : s.sender.writing = true) (storing : s'.sender.storing = true)
      (receiver_eq : s'.receiver = s.receiver)
      (flag_eq : s'.awakener.needWakeup = s.awakener.needWakeup)
      (fd_eq : s'.awakener.eventFd = s.awakener.eventFd + (2 ^ 64 - 2))
  | lowered (storing : s.sender.storing = true) (done : s'.sender.storing = false)
      (away : s'.sender.writing = false) (receiver_eq : s'.receiver = s.receiver)
      (flag_eq : s'.awakener.needWakeup = false) (fd_eq : s'.awakener.eventFd = s.awakener.eventFd)
  | cleared (reading : s.receiver.reading = true) (storing : s'.receiver.storing = true)
      (sender_eq : s'.sender = s.sender)
      (flag_eq : s'.awakener.needWakeup = s.awakener.needWakeup) (fd_eq : s'.awakener.eventFd = 0)
  | raised (storing : s.receiver.storing = true) (done : s'.receiver.storing = false)
      (away : s'.receiver.reading = false) (sender_eq : s'.sender = s.sender)
      (flag_eq : s'.awakener.needWakeup = true) (fd_eq : s'.awakener.eventFd = s.awakener.eventFd)

theorem signals_sender (hstep : s.stepSender result = some (.ok (e, s'))) : Signals s s' := by
  cases hsender : s.sender with
  | idle | gone =>
      rw [stepSender, hsender] at hstep
      cases hstep
  | testCount retry t =>
      rw [stepSender, hsender] at hstep
      dsimp only at hstep
      split at hstep <;> cases hstep <;>
        exact .quiet rfl (by rw [hsender]; rfl) rfl (fun h => by cases h) .inl
  | pushing retry =>
      obtain ⟨event, ring, -, hcases⟩ := pushing_cases hsender hstep
      rcases hcases with ⟨-, -, rfl, rfl⟩ | ⟨t, -, -, ⟨rfl, rfl⟩ | ⟨rfl, rfl⟩⟩ | ⟨t, -, -, rfl, rfl⟩
      · exact .quiet rfl rfl rfl .inl .inl
      all_goals exact .quiet rfl (by rw [hsender]; rfl) rfl (fun h => by cases h) .inl
  | release =>
      rw [stepSender, hsender] at hstep
      cases hstep
      exact .quiet rfl (by rw [hsender]; rfl) rfl (fun h => by cases h) .inl
  | loadFlag k =>
      rw [stepSender, hsender] at hstep
      dsimp only at hstep
      split at hstep
      · rename_i hneed
        cases hstep
        exact .quiet rfl (by rw [hsender]; rfl) rfl (fun _ => .inr hneed) .inl
      · cases k <;> cases hstep <;>
          exact .quiet rfl (by rw [hsender]; rfl) rfl (fun h => by cases h) .inl
  | writeFd k =>
      rw [stepSender, hsender] at hstep
      dsimp only at hstep
      split at hstep
      · cases hstep
        exact .written (by rw [hsender]; rfl) rfl rfl rfl rfl
      · cases k <;> cases hstep <;>
          exact .quiet rfl (by rw [hsender]; rfl) rfl (fun h => by cases h) .inl
  | storeFlag k =>
      rw [stepSender, hsender] at hstep
      cases k <;> cases hstep <;> exact .lowered (by rw [hsender]; rfl) rfl rfl rfl rfl rfl

theorem signals_receiver (hstep : s.stepReceiver result = some (.ok (e, s'))) :
    Signals s s' := by
  cases hreceiver : s.receiver with
  | idle | parked | gone =>
      unfold stepReceiver at hstep
      rw [hreceiver] at hstep
      cases hstep
  | loadFlag dropping =>
      unfold stepReceiver at hstep
      rw [hreceiver] at hstep
      dsimp only at hstep
      split at hstep
      · cases dropping <;> cases hstep <;>
          exact .quiet rfl rfl (by rw [hreceiver]; rfl) .inl (fun h => by cases h)
      · rename_i hneed
        cases hstep
        exact .quiet rfl rfl (by rw [hreceiver]; rfl) .inl
          fun _ => .inr (Bool.eq_false_iff.mpr hneed)
  | readFd dropping =>
      unfold stepReceiver at hstep
      rw [hreceiver] at hstep
      dsimp only at hstep
      split at hstep
      · cases hstep
        exact .cleared (by rw [hreceiver]; rfl) rfl rfl rfl rfl
      · cases dropping with
        | true =>
            cases hstep
            exact .quiet rfl rfl (by rw [hreceiver]; rfl) .inl (fun h => by cases h)
        | false =>
            simp only [resetFailed] at hstep
            split at hstep <;> cases hstep <;>
              exact .quiet rfl rfl (by rw [hreceiver]; rfl) .inl (fun h => by cases h)
  | storeFlag dropping =>
      unfold stepReceiver at hstep
      rw [hreceiver] at hstep
      cases dropping <;> cases hstep <;> exact .raised (by rw [hreceiver]; rfl) rfl rfl rfl rfl rfl
  | popping =>
      obtain ⟨event, ring, -, hcases⟩ := popping_cases hreceiver hstep
      rcases hcases with ⟨-, -, rfl, rfl⟩ | ⟨-, -, rfl, rfl⟩ | ⟨v, -, -, rfl, rfl⟩
      · exact .quiet rfl rfl rfl .inl .inl
      all_goals exact .quiet rfl rfl (by rw [hreceiver]; rfl) .inl (fun h => by cases h)
  | testCount =>
      unfold stepReceiver at hstep
      rw [hreceiver] at hstep
      dsimp only at hstep
      split at hstep <;> cases hstep <;>
        exact .quiet rfl rfl (by rw [hreceiver]; rfl) .inl (fun h => by cases h)
  | scheduleRead =>
      unfold stepReceiver at hstep
      rw [hreceiver] at hstep
      dsimp only at hstep
      split at hstep <;> cases hstep <;>
        exact .quiet rfl rfl (by rw [hreceiver]; rfl) .inl (fun h => by cases h)
  | release =>
      unfold stepReceiver at hstep
      rw [hreceiver] at hstep
      cases hstep
      exact .quiet rfl rfl (by rw [hreceiver]; rfl) .inl (fun h => by cases h)

theorem signals_step (hstep : s.step a = some (.ok (e, s'))) : Signals s s' := by
  cases a with
  | sender result => exact signals_sender hstep
  | receiver result => exact signals_receiver hstep
  | send retry t | dropSender =>
      rw [step] at hstep
      split at hstep
      · rename_i hsender
        cases hstep
        exact .quiet rfl (by rw [hsender]; rfl) rfl (fun h => by cases h) .inl
      · cases hstep
  | poll =>
      rw [step] at hstep
      split at hstep
      · rename_i hreceiver
        cases hstep
        rw [startPoll]
        split <;> exact .quiet rfl rfl (by rw [hreceiver]; rfl) .inl (fun h => by cases h)
      · rename_i hreceiver
        cases hstep
        rw [startPoll]
        split <;> exact .quiet rfl rfl (by rw [hreceiver]; rfl) .inl (fun h => by cases h)
      · cases hstep
  | dropReceiver =>
      rw [step] at hstep
      split at hstep
      · rename_i hreceiver
        cases hstep
        exact .quiet rfl rfl (by rw [hreceiver]; rfl) .inl (fun h => by cases h)
      · rename_i hreceiver
        cases hstep
        exact .quiet rfl rfl (by rw [hreceiver]; rfl) .inl (fun h => by cases h)
      · cases hstep

/-- A write that no read has answered. -/
def signalled (s : Channel w α) : Bool :=
  s.sender.storing || (!s.awakener.needWakeup && !s.receiver.storing)

/-- Writes and reads of the eventfd take turns. -/
structure Paired (s : Channel w α) : Prop where
  exact_eq : s.awakener.eventFd = if s.signalled then 2 ^ 64 - 2 else 0
  writes : s.sender.writing = true ∨ s.sender.storing = true → s.awakener.needWakeup = true
  reads : s.receiver.reading = true ∨ s.receiver.storing = true → s.awakener.needWakeup = false

theorem paired_init : Paired (init w α capacity) := ⟨rfl, nofun, nofun⟩

theorem Paired.unsignalled (h : Paired s) (hwriting : s.sender.writing = true) :
    s.awakener.eventFd = 0 := by
  rw [h.exact_eq, signalled, Sender.storing_of_writing hwriting, h.writes (.inl hwriting)]
  rfl

theorem Paired.awaiting (h : Paired s) (hreading : s.receiver.reading = true) :
    s.awakener.eventFd = 2 ^ 64 - 2 := by
  rw [h.exact_eq, signalled, Receiver.storing_of_reading hreading, h.reads (.inl hreading),
    Bool.not_false, Bool.and_self, Bool.or_true]
  rfl

theorem Paired.step (h : Paired s) (hstep : s.step a = some (.ok (e, s'))) : Paired s' := by
  cases signals_step hstep with
  | quiet hawakener hsender hreceiver hwriting hreading =>
      refine ⟨?_, ?_, ?_⟩
      · rw [signalled, hawakener, hsender, hreceiver]
        exact h.exact_eq
      · rw [hawakener, hsender]
        rintro (hnew | hstoring)
        · exact (hwriting hnew).elim (fun hold => h.writes (.inl hold)) id
        · exact h.writes (.inr hstoring)
      · rw [hawakener, hreceiver]
        rintro (hnew | hstoring)
        · exact (hreading hnew).elim (fun hold => h.reads (.inl hold)) id
        · exact h.reads (.inr hstoring)
  | written hwriting hstoring hreceiver hflag hfd =>
      have hneed := h.writes (.inl hwriting)
      refine ⟨?_, ?_, ?_⟩
      · rw [hfd, h.unsignalled hwriting, signalled, hstoring, Bool.true_or]
        rfl
      · intro _
        rw [hflag, hneed]
      · rw [hreceiver, hflag]
        exact h.reads
  | lowered hstoring hdone haway hreceiver hflag hfd =>
      have hneed := h.writes (.inr hstoring)
      have hrest : s.receiver.storing = false := by
        refine Bool.eq_false_iff.mpr fun hstores => ?_
        cases hneed.symm.trans (h.reads (.inr hstores))
      refine ⟨?_, ?_, fun _ => hflag⟩
      · rw [hfd, h.exact_eq, signalled, signalled, hstoring, hreceiver, hrest, hflag, Bool.true_or,
          Bool.not_false, Bool.and_self, Bool.or_true]
      · rintro (hnew | hnew)
        · cases haway.symm.trans hnew
        · cases hdone.symm.trans hnew
  | cleared hreading hstoring hsender hflag hfd =>
      have hneed := h.reads (.inl hreading)
      have hrest : s.sender.storing = false := by
        refine Bool.eq_false_iff.mpr fun hstores => ?_
        cases hneed.symm.trans (h.writes (.inr hstores))
      refine ⟨?_, ?_, ?_⟩
      · rw [hfd, signalled, hsender, hrest, hstoring, Bool.not_true, Bool.and_false]
        rfl
      · rw [hsender, hflag]
        exact h.writes
      · intro _
        rw [hflag, hneed]
  | raised hstoring hdone haway hsender hflag hfd =>
      have hneed := h.reads (.inr hstoring)
      have hrest : s.sender.storing = false := by
        refine Bool.eq_false_iff.mpr fun hstores => ?_
        cases hneed.symm.trans (h.writes (.inr hstores))
      refine ⟨?_, fun _ => hflag, ?_⟩
      · rw [hfd, h.exact_eq, signalled, signalled, hsender, hrest, hstoring, hflag, Bool.not_true,
          Bool.and_false, Bool.false_and]
      · rintro (hnew | hnew)
        · cases haway.symm.trans hnew
        · cases hdone.symm.trans hnew

theorem paired_of_run {log : List (ChannelEvent α)} {ok : Channel w α → ChannelAction α → Prop}
    (h : (channelMachine w α).Run ok (init w α capacity) log s) : Paired s :=
  h.invariant (I := fun _ s => Paired s) paired_init fun hs _ hstep => hs.step hstep

/-- Whatever the system calls return, the eventfd is empty when the sender is to write it and is
not when the receiver is to read it: neither has ever to wait. -/
theorem eventFd_takes_turns {log : List (ChannelEvent α)}
    (h : (channelMachine w α).Run (fun _ _ => True) (init w α capacity) log s) :
    (s.awakener.eventFd = 0 ∨ s.awakener.eventFd = 2 ^ 64 - 2) ∧
      (s.sender.writing = true → s.awakener.eventFd = 0) ∧
      (s.receiver.reading = true → s.awakener.eventFd = 2 ^ 64 - 2) := by
  have hpaired := paired_of_run h
  refine ⟨?_, hpaired.unsignalled, hpaired.awaiting⟩
  rw [hpaired.exact_eq]
  split
  · exact .inr rfl
  · exact .inl rfl

/-- A message that is pushed, and a `wakeup` up to its write. -/
def oneWakeup : List (ChannelAction Nat) :=
  [.send false 7, .sender (.ok ()), .sender (.ok ()), .sender (.ok ()), .sender (.ok ()),
    .sender (.ok ()), .sender (.ok ()), .sender (.ok ())]

theorem eventFd_takes_turns_of_one :
    ∃ (log : List (ChannelEvent Nat)) (s : Channel 64 Nat),
      (channelMachine 64 Nat).Run (fun _ _ => True) (init 64 Nat 1) log s ∧
        s.sender.writing = true ∧ s.awakener.eventFd = 0 := by
  have hend : ((channelMachine 64 Nat).exec (fun _ _ => True) oneWakeup (init 64 Nat 1)).map
      (fun r => r.2.sender) = some (.writeFd (.reply 7)) := by
    decide +kernel
  obtain ⟨⟨log, s⟩, hexec, hsender⟩ := Option.map_eq_some_iff.mp hend
  have hwriting : s.sender.writing = true := by
    rw [hsender]
    rfl
  have hrun := Base.Machine.Run.of_exec oneWakeup hexec
  exact ⟨log, s, hrun, hwriting, (eventFd_takes_turns hrun).2.1 hwriting⟩

end Channel

end Ruyi.Sync
