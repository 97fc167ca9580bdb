import Mathlib.Algebra.Field.ZMod
import Mathlib.NumberTheory.LucasLehmer
import Loquela.Library.Numerals

/-! # The base field

All circuits are over Mersenne31, the integers modulo `2 ^ 31 - 1`.
-/

namespace Loquela

/-- The modulus of Mersenne31. -/
abbrev modulus : ℕ := 2147483647

theorem modulus_prime : modulus.Prime :=
  lucas_lehmer_sufficiency 31 (by norm_num) (by norm_num)

instance : Fact modulus.Prime := ⟨modulus_prime⟩

abbrev Felt := ZMod modulus

section Cast

variable {F : Type*} [Ring F] [CharP F modulus]

/-- Natural numbers below the modulus are told apart by the field. -/
theorem natCast_inj_of_lt {a b : ℕ} (ha : a < modulus) (hb : b < modulus) (h : (a : F) = b) :
    a = b :=
  CharP.natCast_injOn_Iio F modulus ha hb h

theorem natCast_sub_ne_zero {a b : ℕ} (ha : a < modulus) (hb : b < modulus) (h : a ≠ b) :
    (a : F) - (b : F) ≠ 0 := by
  intro hzero
  exact h (natCast_inj_of_lt ha hb (sub_eq_zero.mp hzero))

theorem natCast_ne_zero {a : ℕ} (ha : a < modulus) (h : a ≠ 0) : (a : F) ≠ 0 := by
  have hne := natCast_sub_ne_zero (F := F) ha (by norm_num) h
  rwa [Nat.cast_zero, sub_zero] at hne

theorem map_natCast_inj {l l' : List ℕ} (hl : ∀ n ∈ l, n < modulus) (hl' : ∀ n ∈ l', n < modulus)
    (h : l.map (fun n : ℕ => (n : F)) = l'.map (fun n : ℕ => (n : F))) : l = l' := by
  induction l generalizing l' with
  | nil => exact (List.map_eq_nil_iff.mp h.symm).symm
  | cons n l ih =>
    cases l' with
    | nil => cases h
    | cons n' l' =>
      obtain ⟨hn, h⟩ := List.cons.inj h
      rw [natCast_inj_of_lt (hl n List.mem_cons_self) (hl' n' List.mem_cons_self) hn,
        ih (fun m hm => hl m (.tail _ hm)) (fun m hm => hl' m (.tail _ hm)) h]

end Cast

end Loquela
