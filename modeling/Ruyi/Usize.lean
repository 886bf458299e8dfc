import Mathlib
import Ruyi.Outcome

namespace Ruyi

/-- How the crate is compiled: the width of `usize`, and whether an overflow panics. -/
structure Build where
  bits : Nat
  overflowChecks : Bool
  deriving DecidableEq

namespace Build

def add (build : Build) (x y : Nat) : Except Fault Nat :=
  if x + y < 2 ^ build.bits then .ok (x + y)
  else if build.overflowChecks then .error .panic
  else .ok ((x + y) % 2 ^ build.bits)

def sub (build : Build) (x y : Nat) : Except Fault Nat :=
  if y ≤ x then .ok (x - y)
  else if build.overflowChecks then .error .panic
  else .ok (x + 2 ^ build.bits - y)

/-- `usize::MAX`. -/
def max (build : Build) : Nat := 2 ^ build.bits - 1

theorem add_ok {build : Build} {x y : Nat} (h : x + y < 2 ^ build.bits) :
    build.add x y = .ok (x + y) := if_pos h

theorem sub_ok (build : Build) {x y : Nat} (h : y ≤ x) : build.sub x y = .ok (x - y) := if_pos h

theorem add_max (build : Build) {n : Nat} (hpos : 0 < n) (hlt : n < 2 ^ build.bits) :
    build.add build.max n = if build.overflowChecks then .error .panic else .ok (n - 1) := by
  have hsum : 2 ^ build.bits - 1 + n = 2 ^ build.bits + (n - 1) := by omega
  rw [add, max, hsum, if_neg (by omega), Nat.add_mod_left, Nat.mod_eq_of_lt (by omega)]

end Build

end Ruyi
