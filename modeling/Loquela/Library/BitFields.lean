import Mathlib.Data.BitVec
import Mathlib.Tactic.Ring
import Loquela.Library.Numerals

/-! # Bit fields

Cutting a bit vector into fields by shifts and masks, the way a decoder written over machine
words does, agrees with extraction; concatenation and extraction are numeric, so that the
arithmetic of a field layout is a linear goal.
-/

namespace Loquela.Library.BitFields

theorem toNat_append {m n : Nat} (x : BitVec m) (y : BitVec n) :
    (x ++ y).toNat = x.toNat * 2 ^ n + y.toNat := by
  rw [BitVec.toNat_append, Nat.shiftLeft_eq, Nat.mul_comm, Nat.two_pow_add_eq_or_of_lt y.isLt]

theorem toNat_extractLsb' {w : Nat} (x : BitVec w) (k n : Nat) :
    (x.extractLsb' k n).toNat = x.toNat / 2 ^ k % 2 ^ n := by
  rw [BitVec.extractLsb'_toNat, Nat.shiftRight_eq_div_pow]

theorem ushiftRight_and_mask {w : Nat} (x : BitVec w) (k n : Nat) :
    x >>> k &&& BitVec.ofNat w (2 ^ n - 1) = (x.extractLsb' k n).setWidth w := by
  apply BitVec.eq_of_getLsbD_eq
  intro i hi
  simp only [BitVec.getLsbD_and, BitVec.getLsbD_ushiftRight, BitVec.getLsbD_ofNat,
    Nat.testBit_two_pow_sub_one, BitVec.getLsbD_setWidth, BitVec.getLsbD_extractLsb', hi,
    decide_true, Bool.true_and, Bool.and_comm]

theorem and_mask {w : Nat} (x : BitVec w) (n : Nat) :
    x &&& BitVec.ofNat w (2 ^ n - 1) = (x.extractLsb' 0 n).setWidth w := by
  rw [← ushiftRight_and_mask, BitVec.ushiftRight_zero]

theorem toNat_ushiftRight_and_mask {w : Nat} (x : BitVec w) (k n : Nat) :
    (x >>> k &&& BitVec.ofNat w (2 ^ n - 1)).toNat = x.toNat / 2 ^ k % 2 ^ n := by
  have hdiv := Nat.div_le_self x.toNat (2 ^ k)
  have hmod := Nat.mod_le (x.toNat / 2 ^ k) (2 ^ n)
  rw [ushiftRight_and_mask, BitVec.toNat_setWidth, toNat_extractLsb']
  exact Nat.mod_eq_of_lt (hmod.trans_lt (hdiv.trans_lt x.isLt))

theorem toNat_and_mask {w : Nat} (x : BitVec w) (n : Nat) :
    (x &&& BitVec.ofNat w (2 ^ n - 1)).toNat = x.toNat % 2 ^ n := by
  have h := toNat_ushiftRight_and_mask x 0 n
  rwa [BitVec.ushiftRight_zero, Nat.pow_zero, Nat.div_one] at h

theorem toNat_msb {n : Nat} (x : BitVec (n + 1)) : x.msb.toNat = x.toNat / 2 ^ n := by
  have hx : x.toNat / 2 ^ n < 2 := by
    rw [Nat.div_lt_iff_lt_mul (Nat.two_pow_pos n), Nat.mul_comm, ← Nat.pow_succ]
    exact x.isLt
  rw [BitVec.msb_eq_getLsbD_last, BitVec.getLsbD, Nat.toNat_testBit]
  exact Nat.mod_eq_of_lt hx

theorem sshiftRight_eq_signExtend {m n : Nat} (hm : 0 < m) (x : BitVec (m + n)) :
    x.sshiftRight n = (x.extractLsb' n m).signExtend (m + n) := by
  apply BitVec.eq_of_getLsbD_eq
  intro i hi
  have hlast : n + (m - 1) = m + n - 1 := by omega
  have htop : m - 1 < m := by omega
  simp only [BitVec.getLsbD_sshiftRight, BitVec.getLsbD_signExtend, BitVec.msb_eq_getLsbD_last,
    BitVec.getLsbD_extractLsb', hi, hlast, htop, decide_true, Bool.true_and]
  by_cases h : i < m
  · simp [h, hi, Nat.add_comm n i]
  · simp [h, hi, Nat.add_comm n i]

/-- Shifting a field to the top and arithmetically back sign-extends it. -/
theorem shiftLeft_sshiftRight {m n : Nat} (hm : 0 < m) (x : BitVec (m + n)) :
    (x <<< n).sshiftRight n = (x.setWidth m).signExtend (m + n) := by
  rw [sshiftRight_eq_signExtend hm]
  congr 1
  apply BitVec.eq_of_getLsbD_eq
  intro i hi
  have hlow : n + i < m + n := by omega
  simp only [BitVec.getLsbD_extractLsb', BitVec.getLsbD_shiftLeft, BitVec.getLsbD_setWidth, hi,
    decide_true, Bool.true_and, Nat.add_sub_cancel_left, hlow]
  simp

theorem extractLsb'_signExtend {n w : Nat} (h : n ≤ w) (x : BitVec n) :
    (x.signExtend w).extractLsb' 0 n = x := by
  apply BitVec.eq_of_getLsbD_eq
  intro i hi
  have hw : i < w := by omega
  simp only [BitVec.getLsbD_extractLsb', BitVec.getLsbD_signExtend, hi, hw, Nat.zero_add,
    decide_true, Bool.true_and, if_true]

theorem setWidth_signExtend {k n w : Nat} (h : n ≤ w) (x : BitVec k) :
    (x.signExtend w).setWidth n = x.signExtend n := by
  apply BitVec.eq_of_getLsbD_eq
  intro i hi
  have hw : i < w := by omega
  simp only [BitVec.getLsbD_setWidth, BitVec.getLsbD_signExtend, hi, hw, decide_true,
    Bool.true_and]

theorem signExtend_signExtend {k n w : Nat} (hk : k ≤ n) (h : n ≤ w) (x : BitVec k) :
    (x.signExtend n).signExtend w = x.signExtend w := by
  apply BitVec.eq_of_toInt_eq
  rw [BitVec.toInt_signExtend_of_le h, BitVec.toInt_signExtend_of_le hk,
    BitVec.toInt_signExtend_of_le (hk.trans h)]

theorem setWidth_append {w m n : Nat} (x : BitVec m) (y : BitVec n) :
    (x ++ y).setWidth w = x.setWidth w <<< n ||| y.setWidth w := by
  apply BitVec.eq_of_getLsbD_eq
  intro i hi
  simp only [BitVec.getLsbD_setWidth, BitVec.getLsbD_append, BitVec.getLsbD_or,
    BitVec.getLsbD_shiftLeft, hi, decide_true, Bool.true_and]
  by_cases h : i < n
  · simp [h]
  · have hy : y.getLsbD i = false := BitVec.getLsbD_of_ge _ _ (by omega)
    have hw : i - n < w := by omega
    simp [h, hy, hw]

/-- A vector is zero-extended to a constant exactly when it is that constant. -/
theorem setWidth_eq_setWidth_iff {n w : Nat} (h : n ≤ w) (x y : BitVec n) :
    x.setWidth w = y.setWidth w ↔ x = y := by
  constructor
  · intro hxy
    have := congrArg (BitVec.setWidth n) hxy
    rwa [BitVec.setWidth_setWidth_of_le _ h, BitVec.setWidth_setWidth_of_le _ h,
      BitVec.setWidth_eq, BitVec.setWidth_eq] at this
  · rintro rfl
    rfl

/-- The signed range of a field. -/
theorem signExtend_setWidth_eq_iff {m w : Nat} (hm : 0 < m) (h : m ≤ w) (x : BitVec w) :
    (x.setWidth m).signExtend w = x ↔ -2 ^ (m - 1) ≤ x.toInt ∧ x.toInt < 2 ^ (m - 1) := by
  have hext := BitVec.toInt_signExtend_of_le h (x := x.setWidth m)
  constructor
  · intro heq
    rw [heq] at hext
    rw [hext]
    exact ⟨BitVec.le_toInt _, BitVec.toInt_lt⟩
  · rintro ⟨hle, hlt⟩
    apply BitVec.eq_of_toInt_eq
    have hpow : ((2 ^ m : Nat) : Int) = 2 ^ (m - 1) * 2 := by
      rw [Nat.cast_pow, ← pow_succ, Nat.sub_add_cancel hm]
      rfl
    have hbmod : (x.setWidth m).toInt = x.toInt.bmod (2 ^ m) := by
      rw [BitVec.toInt_setWidth, BitVec.toInt_eq_toNat_bmod,
        Int.bmod_bmod_of_dvd (Nat.pow_dvd_pow 2 h)]
    rw [hext, hbmod]
    apply Int.bmod_eq_of_le_mul_two <;> omega

/-- The unsigned range of a field. -/
theorem setWidth_setWidth_eq_iff {m w : Nat} (x : BitVec w) :
    (x.setWidth m).setWidth w = x ↔ x.toNat < 2 ^ m := by
  constructor
  · intro heq
    have h := congrArg BitVec.toNat heq
    rw [BitVec.toNat_setWidth, BitVec.toNat_setWidth] at h
    have := Nat.mod_lt x.toNat (Nat.two_pow_pos m)
    have := Nat.mod_le (x.toNat % 2 ^ m) (2 ^ w)
    omega
  · intro h
    apply BitVec.eq_of_toNat_eq
    rw [BitVec.toNat_setWidth, BitVec.toNat_setWidth, Nat.mod_eq_of_lt h, Nat.mod_eq_of_lt x.isLt]

/-- A field below the width that a word is cut down to. -/
theorem extractLsb'_of_setWidth {v w : Nat} {x : BitVec w} {y : BitVec v} (h : x.setWidth v = y)
    {k n : Nat} (hk : k + n ≤ v) : x.extractLsb' k n = y.extractLsb' k n := by
  apply BitVec.eq_of_getLsbD_eq
  intro i hi
  have hv : k + i < v := by omega
  rw [← h]
  simp [hi, hv]

theorem and_low {n w : Nat} (h : n ≤ w) (x : BitVec w) :
    x &&& BitVec.ofNat w (2 ^ n - 1) = (x.setWidth n).setWidth w := by
  rw [and_mask, BitVec.setWidth_eq_extractLsb' h]

end Loquela.Library.BitFields
