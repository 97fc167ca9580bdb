import Mathlib.Algebra.Ring.Nat

/-! # Instances for numerals

A numeral in a field or in a finite index type carries a proof about the number written. Here these
proofs are constants applied to the number, so that two spellings of a numeral are the same term
wherever they are elaborated.
-/

namespace Loquela.Library.Numerals

/-- The test `b` evaluates to `true`; as an implicit argument it is not looked up but evaluated. -/
class Holds {b : Bool} : Prop where
  out : b = true

instance holds_true : @Holds true := ⟨rfl⟩

instance atLeastTwo {n : ℕ} [h : @Holds (Nat.ble 2 n)] : n.AtLeastTwo :=
  ⟨Nat.le_of_ble_eq_true h.out⟩

instance neZero {n : ℕ} [h : @Holds (Nat.ble 1 n)] : NeZero (no_index (OfNat.ofNat n) : ℕ) :=
  ⟨Nat.ne_of_gt (Nat.le_of_ble_eq_true h.out)⟩

end Loquela.Library.Numerals
