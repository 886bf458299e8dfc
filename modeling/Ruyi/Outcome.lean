namespace Ruyi

/-- The ways a call leaves the behaviour the crate defines: the function
`unreachable` of `lib.rs`, an unchecked slab access to a slot that is not in
use or by a reference to where it was, `ptr::read` of a slot that holds no
value, an access outside of an allocation, a second `&mut` to a task that is
being polled, and a panic. -/
inductive Fault where
  | unreachable
  | freed
  | uninit
  | outOfBounds
  | aliased
  | panic
  deriving DecidableEq, Repr

/-- The kinds of `io::Error` the crate tells apart. -/
inductive ErrorKind where
  | wouldBlock
  | other (code : Nat)
  deriving DecidableEq, Repr

structure IoError where
  kind : ErrorKind
  deriving DecidableEq, Repr

/-- `futures::Async`. -/
inductive Async (α : Type) where
  | ready (value : α)
  | notReady
  deriving DecidableEq, Repr

/-- `futures::Poll` with `io::Error`. -/
abbrev Poll (α : Type) := Except IoError (Async α)

theorem ok_of_bind_ok {ε α β : Type} {first : Except ε α} {next : α → Except ε β}
    {result : β} (h : first >>= next = .ok result) :
    ∃ value, first = .ok value ∧ next value = .ok result := by
  rcases first with failure | value
  · exact absurd h (by simp [bind, Except.bind])
  · exact ⟨value, rfl, h⟩

theorem error_of_bind_error {ε α β : Type} {first : Except ε α} {next : α → Except ε β}
    {failure : ε} (h : first >>= next = .error failure) :
    first = .error failure ∨ ∃ value, first = .ok value ∧ next value = .error failure := by
  rcases first with failure' | value
  · cases h
    exact .inl rfl
  · exact .inr ⟨value, rfl, h⟩

theorem ok_of_map_ok {ε α β : Type} {f : α → β} {r : Except ε α} {result : β}
    (h : r.map f = .ok result) : ∃ value, r = .ok value ∧ f value = result := by
  rcases r with failure | value
  · cases h
  · cases h
    exact ⟨value, rfl, rfl⟩

theorem bind_of_ok {ε α β : Type} {first : Except ε α} {next : α → Except ε β} {value : α}
    {result : Except ε β} (h : first = .ok value) (h' : next value = result) :
    first >>= next = result := by
  rw [h]
  exact h'

end Ruyi
