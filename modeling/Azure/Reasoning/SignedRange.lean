import Mathlib.Algebra.Ring.Int.Defs
import Mathlib.Algebra.Ring.Nat
import Mathlib.Data.Int.Init

/-!
# Signed arithmetic

A signed operation has a result when the exact value is in the range of its type, and none when it
overflows.
-/

namespace Azure.Reasoning

/-- A value of a signed type of `w` bits; none when it is out of range. -/
def checkedInt (w : Nat) (x : Int) : Option Int :=
  if -2 ^ (w - 1) ≤ x ∧ x < 2 ^ (w - 1) then some x else none

theorem checkedInt_eq_some_iff {w : Nat} {x y : Int} :
    checkedInt w x = some y ↔ (-2 ^ (w - 1) ≤ x ∧ x < 2 ^ (w - 1)) ∧ x = y := by
  unfold checkedInt
  split
  · next hin => simp [hin]
  · next hout => simp [hout]

theorem checkedInt_of_range {w : Nat} {x : Int} (hlo : -2 ^ (w - 1) ≤ x) (hhi : x < 2 ^ (w - 1)) :
    checkedInt w x = some x :=
  checkedInt_eq_some_iff.mpr ⟨⟨hlo, hhi⟩, rfl⟩

end Azure.Reasoning
