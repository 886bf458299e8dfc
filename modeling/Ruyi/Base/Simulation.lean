import Ruyi.Base.Machine

namespace Ruyi.Base

/-- A specification: the steps that there may be, and what is shown of each. -/
structure Spec (τ l : Type) where
  Step : τ → l → τ → Prop

namespace Spec

variable {τ l : Type} {S : Spec τ l} {x y z : τ} {shown shown' : List l}

inductive Run (S : Spec τ l) (x : τ) : List l → τ → Prop where
  | nil : Run S x [] x
  | snoc {shown : List l} {y z : τ} {label : l} (run : Run S x shown y)
      (step : S.Step y label z) : Run S x (shown ++ [label]) z

theorem Run.invariant {I : List l → τ → Prop} (hinit : I [] x)
    (hstep : ∀ {shown y label z}, I shown y → S.Step y label z → I (shown ++ [label]) z)
    (h : S.Run x shown y) : I shown y := by
  induction h with
  | nil => exact hinit
  | snoc _ hnext ih => exact hstep ih hnext

end Spec

namespace Machine

variable {σ α ε φ τ l : Type}

/-- The machine with a record of what is shown of its steps. -/
def traced (M : Machine σ α ε φ) (shows : σ → α → ε → Option l) :
    Machine (σ × List l) α ε φ :=
  M.withHistory fun s a e shown => shown ++ (shows s a e).toList

/-- A relation of the states of a machine to those of a specification, under which every step goes
as a step of the specification does, or is not shown and moves nothing. -/
structure Simulation (M : Machine σ α ε φ) (ok : σ → α → Prop) (S : Spec τ l)
    (shows : σ → α → ε → Option l) where
  Rel : σ → τ → Prop
  shown_step : ∀ {s a e t x label}, Rel s x → ok s a → M.step s a = some (.ok (e, t)) →
    shows s a e = some label → ∃ y, S.Step x label y ∧ Rel t y
  hidden_step : ∀ {s a e t x}, Rel s x → ok s a → M.step s a = some (.ok (e, t)) →
    shows s a e = none → Rel t x

variable {M : Machine σ α ε φ} {ok : σ → α → Prop} {S : Spec τ l}
  {shows : σ → α → ε → Option l} {s t : σ} {log : List ε} {shown : List l} {x : τ}

/-- What is shown of a run is a run of the specification. -/
theorem Simulation.run (sim : Simulation M ok S shows) (hinit : sim.Rel s x)
    (h : (M.traced shows).Run (fun p a => ok p.1 a) (s, []) log (t, shown)) :
    ∃ y, S.Run x shown y ∧ sim.Rel t y := by
  refine h.invariant (I := fun _ p => ∃ y, S.Run x p.2 y ∧ sim.Rel p.1 y) ⟨x, .nil, hinit⟩ ?_
  rintro _ ⟨p, shown⟩ a e ⟨q, shown'⟩ ⟨y, hrun, hrel⟩ hallowed hnext
  obtain ⟨hstep, rfl⟩ := withHistory_step.mp hnext
  cases hshow : shows p a e with
  | none =>
      rw [Option.toList_none, List.append_nil]
      exact ⟨y, hrun, sim.hidden_step hrel hallowed hstep hshow⟩
  | some label =>
      obtain ⟨z, hnext', hrel'⟩ := sim.shown_step hrel hallowed hstep hshow
      exact ⟨z, hrun.snoc hnext', hrel'⟩

/-- A machine with its actions and its events, as a specification. -/
def spec (M : Machine σ α ε φ) (ok : σ → α → Prop) : Spec σ (α × ε) where
  Step s label t := ok s label.1 ∧ M.step s label.1 = some (.ok (label.2, t))

theorem Run.of_spec {labels : List (α × ε)} (h : (M.spec ok).Run s labels t) :
    M.Run ok s (labels.map Prod.snd) t := by
  induction h with
  | nil => exact .nil
  | snoc _ hnext ih =>
      rw [List.map_append]
      exact ih.snoc hnext.1 hnext.2

theorem Run.exists_traced (shows : σ → α → ε → Option l) (h : M.Run ok s log t) :
    ∃ shown, (M.traced shows).Run (fun p a => ok p.1 a) (s, []) log (t, shown) := by
  induction h with
  | nil => exact ⟨[], .nil⟩
  | snoc _ hallowed hnext ih =>
      obtain ⟨shown, hrun⟩ := ih
      exact ⟨_, hrun.snoc hallowed (withHistory_step.mpr ⟨hnext, rfl⟩)⟩

end Machine

end Ruyi.Base
