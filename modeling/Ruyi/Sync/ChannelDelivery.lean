import Ruyi.Sync.ChannelOrder

namespace Ruyi.Sync.Channel

open List

variable {w capacity : Nat} {α : Type} {s s' : Channel w α} {e : ChannelEvent α}
  {log : List (ChannelEvent α)} {result : Except ErrorKind Unit}

/-- At the `strong_count` test that finds the sender gone, `rear` is where the `try_pop`
before it has loaded it. -/
def Settled (s : Channel w α) : ChannelAction α → Prop
  | .receiver _ =>
      s.receiver = .testCount → s.strongCount = 1 → s.ring.buf.rear = s.ring.buf.shadowRear
  | _ => True

instance (s : Channel w α) (a : ChannelAction α) : Decidable (Settled s a) := by
  cases a <;> unfold Settled <;> infer_instance

/-- The messages acknowledged so far, and the one about to be, are in the buffer or past it. -/
def Acknowledged (log : List (ChannelEvent α)) (s : Channel w α) : Prop :=
  sentOf log ++ s.sender.replying.toList <+ pushedOf log

/-- At every end of the stream so far the sender was gone, and all it had acknowledged had
been received. -/
def Delivered (log : List (ChannelEvent α)) (s : Channel w α) : Prop :=
  ∀ l₁ l₂, log = l₁ ++ .ended :: l₂ →
    s.sender.released = true ∧ sentOf log <+ receivedOf l₁

theorem replying_sender (hstep : s.stepSender result = some (.ok (e, s'))) :
    e ≠ .ended ∧
      sentOf [e] ++ s'.sender.replying.toList <+ s.sender.replying.toList ++ pushedOf [e] := by
  cases hsender : s.sender with
  | idle | gone =>
      rw [stepSender, hsender] at hstep
      cases hstep
  | testCount retry t =>
      rw [stepSender, hsender] at hstep
      dsimp only at hstep
      split at hstep <;> cases hstep <;> exact ⟨by simp, Sublist.refl _⟩
  | pushing retry =>
      obtain ⟨event, ring, -, hcases⟩ := pushing_cases hsender hstep
      rcases hcases with ⟨-, -, rfl, rfl⟩ | ⟨t, -, -, ⟨rfl, rfl⟩ | ⟨rfl, rfl⟩⟩ | ⟨t, -, -, rfl, rfl⟩
      · exact ⟨by simp, by rw [hsender]; exact Sublist.refl _⟩
      · exact ⟨by simp, Sublist.refl _⟩
      · exact ⟨by simp, Sublist.refl _⟩
      · exact ⟨by simp, Sublist.refl _⟩
  | release =>
      rw [stepSender, hsender] at hstep
      cases hstep
      exact ⟨by simp, Sublist.refl _⟩
  | loadFlag k =>
      rw [stepSender, hsender] at hstep
      dsimp only at hstep
      split at hstep <;> cases k <;> cases hstep <;> exact ⟨by simp, Sublist.refl _⟩
  | writeFd k =>
      rw [stepSender, hsender] at hstep
      dsimp only at hstep
      split at hstep <;> cases k <;> cases hstep <;> first
        | exact ⟨by simp, Sublist.refl _⟩
        | exact ⟨by simp, nil_sublist _⟩
  | storeFlag k =>
      rw [stepSender, hsender] at hstep
      cases k <;> cases hstep <;> exact ⟨by simp, Sublist.refl _⟩

theorem released_sender (hreleased : s.sender.released = true)
    (hstep : s.stepSender result = some (.ok (e, s'))) :
    s'.sender.released = true ∧ sentOf [e] = [] := by
  unfold stepSender at hstep
  unfold Sender.released at hreleased
  split at hreleased
  · rename_i hsender
    rw [hsender] at hstep
    cases hstep
  · rename_i hsender
    rw [hsender] at hstep
    dsimp only at hstep
    split at hstep <;> cases hstep <;> exact ⟨rfl, rfl⟩
  · rename_i hsender
    rw [hsender] at hstep
    dsimp only at hstep
    split at hstep <;> cases hstep <;> exact ⟨rfl, rfl⟩
  · rename_i hsender
    rw [hsender] at hstep
    cases hstep
    exact ⟨rfl, rfl⟩
  · cases hreleased

theorem receiver_cases (hstep : s.stepReceiver result = some (.ok (e, s'))) :
    s'.sender = s.sender ∧ s'.ring.producer = s.ring.producer ∧ sentOf [e] = [] ∧
      pushedOf [e] = [] ∧ (e = .ended → s.receiver = .testCount ∧ s.strongCount = 1) := by
  cases hreceiver : s.receiver with
  | idle | parked | gone =>
      unfold stepReceiver at hstep
      rw [hreceiver] at hstep
      cases hstep
  | loadFlag dropping =>
      unfold stepReceiver at hstep
      rw [hreceiver] at hstep
      dsimp only at hstep
      split at hstep <;> cases dropping <;> cases hstep <;> exact ⟨rfl, rfl, rfl, rfl, by simp⟩
  | readFd dropping =>
      unfold stepReceiver at hstep
      rw [hreceiver] at hstep
      dsimp only at hstep
      split at hstep
      · cases hstep
        exact ⟨rfl, rfl, rfl, rfl, by simp⟩
      · cases dropping with
        | true =>
            cases hstep
            exact ⟨rfl, rfl, rfl, rfl, by simp⟩
        | false =>
            simp only [resetFailed] at hstep
            split at hstep <;> cases hstep <;> exact ⟨rfl, rfl, rfl, rfl, by simp⟩
  | storeFlag dropping =>
      unfold stepReceiver at hstep
      rw [hreceiver] at hstep
      cases dropping <;> cases hstep <;> exact ⟨rfl, rfl, rfl, rfl, by simp⟩
  | popping =>
      obtain ⟨event, ring, hconsume, hcases⟩ := popping_cases hreceiver hstep
      have hproducer := (Ring.consume_cases hconsume).1
      rcases hcases with ⟨-, -, rfl, rfl⟩ | ⟨-, -, rfl, rfl⟩ | ⟨v, -, -, rfl, rfl⟩ <;>
        exact ⟨rfl, hproducer, rfl, rfl, by simp⟩
  | testCount =>
      unfold stepReceiver at hstep
      rw [hreceiver] at hstep
      dsimp only at hstep
      split at hstep
      · rename_i hcount
        cases hstep
        exact ⟨rfl, rfl, rfl, rfl, fun _ => ⟨rfl, hcount⟩⟩
      · cases hstep
        exact ⟨rfl, rfl, rfl, rfl, by simp⟩
  | scheduleRead =>
      unfold stepReceiver at hstep
      rw [hreceiver] at hstep
      dsimp only at hstep
      split at hstep <;> cases hstep <;> exact ⟨rfl, rfl, rfl, rfl, by simp⟩
  | release =>
      unfold stepReceiver at hstep
      rw [hreceiver] at hstep
      cases hstep
      exact ⟨rfl, rfl, rfl, rfl, by simp⟩

theorem step_cases {a : ChannelAction α} (hstep : s.step a = some (.ok (e, s'))) :
    (∃ result, a = .sender result ∧ s.stepSender result = some (.ok (e, s'))) ∨
      (∃ result, a = .receiver result ∧ s.stepReceiver result = some (.ok (e, s'))) ∨
      e = .silent ∧ (s'.sender = s.sender ∨
        s.sender = .idle ∧ s'.sender.replying = none ∧ s'.sender.released = false) := by
  cases a with
  | send retry t =>
      rw [step] at hstep
      split at hstep
      · rename_i hsender
        cases hstep
        exact .inr (.inr ⟨rfl, .inr ⟨hsender, rfl, rfl⟩⟩)
      · cases hstep
  | dropSender =>
      rw [step] at hstep
      split at hstep
      · rename_i hsender
        cases hstep
        exact .inr (.inr ⟨rfl, .inr ⟨hsender, rfl, rfl⟩⟩)
      · cases hstep
  | sender result => exact .inl ⟨result, rfl, hstep⟩
  | poll =>
      have hsender : s.startPoll.sender = s.sender := by
        rw [startPoll]
        split <;> rfl
      rw [step] at hstep
      split at hstep
      · cases hstep
        exact .inr (.inr ⟨rfl, .inl hsender⟩)
      · cases hstep
        exact .inr (.inr ⟨rfl, .inl hsender⟩)
      · cases hstep
  | dropReceiver =>
      rw [step] at hstep
      split at hstep
      · cases hstep
        exact .inr (.inr ⟨rfl, .inl rfl⟩)
      · cases hstep
        exact .inr (.inr ⟨rfl, .inl rfl⟩)
      · cases hstep
  | receiver result => exact .inr (.inl ⟨result, rfl, hstep⟩)

theorem Acknowledged.step_ok (h : Acknowledged log s) {a : ChannelAction α}
    (hstep : s.step a = some (.ok (e, s'))) : Acknowledged (log ++ [e]) s' := by
  have hnext : sentOf [e] ++ s'.sender.replying.toList <+
      s.sender.replying.toList ++ pushedOf [e] := by
    rcases step_cases hstep with
      ⟨_, -, hsender⟩ | ⟨_, -, hreceiver⟩ | ⟨rfl, hsame | ⟨hidle, hnone, -⟩⟩
    · exact (replying_sender hsender).2
    · obtain ⟨hsame, -, hsent, hpushed, -⟩ := receiver_cases hreceiver
      rw [hsame, hsent, hpushed, List.append_nil]
      exact Sublist.refl _
    · rw [hsame]
      exact sublist_append_left _ _
    · rw [hidle, hnone]
      exact Sublist.refl _
  have hlog : sentOf log ++ (s.sender.replying.toList ++ pushedOf [e]) <+
      pushedOf log ++ pushedOf [e] := by
    rw [← List.append_assoc]
    exact Sublist.append h (Sublist.refl _)
  have hall := (hnext.append_left (sentOf log)).trans hlog
  simp only [Acknowledged, sentOf, pushedOf, List.filterMap_append, List.append_assoc] at hall ⊢
  exact hall

theorem released_step (hreleased : s.sender.released = true) {a : ChannelAction α}
    (hstep : s.step a = some (.ok (e, s'))) :
    s'.sender.released = true ∧ sentOf [e] = [] := by
  rcases step_cases hstep with ⟨_, -, hsender⟩ | ⟨_, -, hreceiver⟩ | ⟨rfl, hsame | ⟨hidle, -⟩⟩
  · exact released_sender hreleased hsender
  · obtain ⟨hsame, -, hsent, -⟩ := receiver_cases hreceiver
    exact ⟨hsame ▸ hreleased, hsent⟩
  · exact ⟨hsame ▸ hreleased, rfl⟩
  · rw [hidle] at hreleased
    cases hreleased

theorem Acknowledged.of_ended (h : Acknowledged log s)
    (hinv : Inv capacity (pushedOf log) (receivedOf log) s) {a : ChannelAction α}
    (hsettled : Settled s a) (hstep : s.step a = some (.ok (.ended, s'))) :
    s'.sender.released = true ∧ sentOf log <+ receivedOf log := by
  rcases step_cases hstep with ⟨_, -, hsender⟩ | ⟨_, rfl, hreceiver⟩ | ⟨heq, -⟩
  · exact absurd rfl (replying_sender hsender).1
  · obtain ⟨hsame, -, -, -, hend⟩ := receiver_cases hreceiver
    obtain ⟨htest, hone⟩ := hend rfl
    have hreleased : s.sender.released = true := by
      have hcount := hinv.count
      rw [hone, htest] at hcount
      by_contra hheld
      rw [if_neg hheld] at hcount
      cases hcount
    have hlength : (receivedOf log).length = (pushedOf log).length := by
      rw [← hinv.ring.front, ← hinv.ring.rear, hsettled htest hone]
      exact hinv.drained (.inr htest)
    refine ⟨hsame ▸ hreleased, ?_⟩
    rw [hinv.ring.order, hlength, List.take_length]
    exact (sublist_append_left _ _).trans h
  · cases heq

theorem Delivered.step_ok (h : Delivered log s) (hack : Acknowledged log s)
    (hinv : Inv capacity (pushedOf log) (receivedOf log) s) {a : ChannelAction α}
    (hsettled : Settled s a)
    (hstep : s.step a = some (.ok (e, s'))) : Delivered (log ++ [e]) s' := by
  intro l₁ l₂ heq
  rcases List.eq_nil_or_concat l₂ with rfl | ⟨l₃, e', rfl⟩
  · obtain ⟨rfl, hlast⟩ := List.append_inj' heq rfl
    cases hlast
    obtain ⟨hreleased, hsent⟩ := hack.of_ended hinv hsettled hstep
    refine ⟨hreleased, ?_⟩
    rw [sentOf, List.filterMap_append]
    exact (List.append_nil _).symm ▸ hsent
  · rw [List.concat_eq_append, ← List.cons_append, ← List.append_assoc] at heq
    obtain ⟨rfl, hlast⟩ := List.append_inj' heq rfl
    obtain ⟨hreleased, hsent⟩ := h l₁ l₃ rfl
    obtain ⟨hreleased', hnone⟩ := released_step hreleased hstep
    refine ⟨hreleased', ?_⟩
    rw [sentOf, List.filterMap_append]
    rw [sentOf] at hnone hsent
    rw [hnone, List.append_nil]
    exact hsent

theorem delivered_before_end {l₁ l₂ : List (ChannelEvent α)}
    (hrun : (channelMachine w α).Run Settled (init w α capacity) (l₁ ++ .ended :: l₂) s) :
    sentOf (l₁ ++ .ended :: l₂) <+ receivedOf l₁ := by
  suffices h : Inv capacity (pushedOf (l₁ ++ .ended :: l₂)) (receivedOf (l₁ ++ .ended :: l₂)) s ∧
      Acknowledged (l₁ ++ .ended :: l₂) s ∧ Delivered (l₁ ++ .ended :: l₂) s from
    (h.2.2 l₁ l₂ rfl).2
  refine hrun.invariant (I := fun log s =>
    Inv capacity (pushedOf log) (receivedOf log) s ∧ Acknowledged log s ∧ Delivered log s)
    ⟨inv_init, Sublist.refl _, ?_⟩ ?_
  · intro l₁ l₂ heq
    exact absurd heq.symm (by simp)
  · rintro log t a e u ⟨hinv, hack, hdelivered⟩ hsettled hstep
    exact ⟨hinv.snoc hstep, hack.step_ok hstep,
      hdelivered.step_ok hack hinv hsettled hstep⟩

theorem delivered_before_end_of_one :
    ∃ (l : List (ChannelEvent Nat)) (s : Channel 64 Nat),
      (channelMachine 64 Nat).Run Settled (init 64 Nat 1) (l ++ .ended :: []) s ∧
        sentOf (l ++ .ended :: []) = [7] ∧ sentOf (l ++ .ended :: []) <+ receivedOf l := by
  let go : ChannelAction Nat := .sender (.ok ())
  let look : ChannelAction Nat := .receiver (.ok ())
  let as : List (ChannelAction Nat) :=
    [.send false 7, go, go, go, go, go, go, go, go, go, .dropSender, go, go, .poll, look, look,
      look, look, look, look, look, look, look, .poll, look, look, look, look, look]
  let l : List (ChannelEvent Nat) :=
    [.silent, .silent, .silent, .silent, .silent, .silent, .pushed 7, .silent, .silent, .sent 7,
      .silent, .silent, .silent, .silent, .silent, .silent, .silent, .silent, .silent, .silent,
      .silent, .silent, .received 7, .silent, .silent, .silent, .silent, .silent]
  have hlog : ((channelMachine 64 Nat).exec Settled as (init 64 Nat 1)).map (·.1) =
      some (l ++ .ended :: []) := by decide +kernel
  obtain ⟨⟨log, s⟩, hexec, rfl⟩ := Option.map_eq_some_iff.mp hlog
  have hrun := Base.Machine.Run.of_exec as hexec
  exact ⟨l, s, hrun, rfl, delivered_before_end hrun⟩

/-- A message pushed between the last look at the buffer and the count of its owners. -/
theorem lost_at_end :
    ¬ ∀ (l₁ l₂ : List (ChannelEvent Nat)) (s : Channel 64 Nat),
      (channelMachine 64 Nat).Run (fun _ _ => True) (init 64 Nat 1) (l₁ ++ .ended :: l₂) s →
        sentOf (l₁ ++ .ended :: l₂) <+ receivedOf l₁ := by
  intro h
  let go : ChannelAction Nat := .sender (.ok ())
  let look : ChannelAction Nat := .receiver (.ok ())
  let as : List (ChannelAction Nat) :=
    [.poll, look, look, look, look, look, .send false 7, go, go, go, go, go, go, go, go, go,
      .dropSender, go, look]
  let l : List (ChannelEvent Nat) :=
    [.silent, .silent, .silent, .silent, .silent, .silent, .silent, .silent, .silent, .silent,
      .silent, .silent, .pushed 7, .silent, .silent, .sent 7, .silent, .silent]
  have hlog : ((channelMachine 64 Nat).exec (fun _ _ => True) as (init 64 Nat 1)).map (·.1) =
      some (l ++ .ended :: []) := by decide +kernel
  obtain ⟨⟨log, s⟩, hexec, rfl⟩ := Option.map_eq_some_iff.mp hlog
  exact absurd (h l [] s (Base.Machine.Run.of_exec as hexec)) (by decide)

end Ruyi.Sync.Channel
