import Loquela.Completeness.Checks
import Loquela.Completeness.Decoding
import Loquela.Soundness.Arithmetic
import Loquela.Soundness.LogicalShift

/-! # Honest witnesses

What the builders fill in satisfies the constraints, one group of columns at a time: the split of
a sign-extended immediate, sign bits and borrows, the two stages of a shift, and the offsets and
targets of the jumps.
-/

namespace Loquela.Completeness
open Air Library Soundness Trace
open Library.Bits (bit pack)
open Vm (U32)

variable {F : Type*} [Field F]

section Immediates

theorem leBytes_extend (sign : Bool) (imm : BitVec 12) : leBytes (extend sign imm) =
    ![imm.toNat % 256, imm.toNat / 256 + sign.toNat * 0xF0, sign.toNat * 0xFF,
      sign.toNat * 0xFF] := by
  have himm := imm.isLt
  have hsign := sign.toNat_le
  apply leBytes_of_digits
  · intro i
    fin_cases i <;> simp only [Fin.zero_eta, Fin.mk_one, Fin.reduceFinMk, Matrix.cons_val] <;>
      omega
  · rw [toNat_extend]
    simp only [Matrix.cons_val]
    omega

/-- The bits of the high nibble. -/
theorem immHighBits_eq (imm : BitVec 12) (v : U32) (i : Fin 4) :
    (signExtension imm.toNat v : SignExtension F).immHighBits i =
      ((imm.toNat / 256 / 2 ^ (i : ℕ) % 2 : ℕ) : F) := by
  have himm := imm.isLt
  show (((imm.toNat >>> 8 &&& 0xF) >>> (i : ℕ) &&& 1 : ℕ) : F) = _
  have hnibble : imm.toNat >>> 8 &&& 0xF = imm.toNat / 256 := by
    rw [Nat.shiftRight_eq_div_pow, show 0xF = 2 ^ 4 - 1 from rfl, Nat.and_two_pow_sub_one_eq_mod]
    omega
  rw [hnibble, Nat.and_one_is_mod, Nat.shiftRight_eq_div_pow]

/-- The top bit of the nibble is the sign. -/
theorem immHighBits_top (imm : BitVec 12) (v : U32) :
    (signExtension imm.toNat v : SignExtension F).immHighBits 3 = bit imm.msb := by
  have himm := imm.isLt
  rw [immHighBits_eq, Bits.bit_eq_natCast, BitFields.toNat_msb (n := 11) imm]
  congr 1
  show imm.toNat / 256 / 2 ^ 3 % 2 = imm.toNat / 2 ^ 11
  omega

theorem highNibble_eq (imm : BitVec 12) (v : U32) :
    (signExtension imm.toNat v : SignExtension F).highNibble = ((imm.toNat / 256 : ℕ) : F) := by
  have himm := imm.isLt
  have hdigits : imm.toNat / 256 / 2 ^ 0 % 2 + imm.toNat / 256 / 2 ^ 1 % 2 * 2 +
      imm.toNat / 256 / 2 ^ 2 % 2 * 4 + imm.toNat / 256 / 2 ^ 3 % 2 * 8 = imm.toNat / 256 := by
    omega
  simp only [SignExtension.highNibble, immHighBits_eq]
  exact mod_cast congrArg (Nat.cast (R := F)) hdigits

theorem signExtension_eval (imm : BitVec 12) :
    (signExtension imm.toNat (imm.signExtend 32) : SignExtension F).eval (imm.toNat : F) := by
  have hbytes : ∀ i, (signExtension imm.toNat (imm.signExtend 32) : SignExtension F).immSeBytes i =
      (leBytes (extend imm.msb imm) i : F) := by
    intro i
    rw [extend_msb]
    rfl
  have hdigits : imm.toNat = imm.toNat % 256 + imm.toNat / 256 * 256 := by omega
  refine ⟨fun i => ?_, ?_, ?_, ?_, ?_⟩
  · rw [immHighBits_eq]
    exact assertBool_natCast (Nat.mod_lt _ Nat.two_pos)
  · rw [hbytes, highNibble_eq, leBytes_extend]
    exact mod_cast congrArg (Nat.cast (R := F)) hdigits
  · rw [hbytes, highNibble_eq, immHighBits_top, leBytes_extend, Bits.bit_eq_natCast]
    simp
  · rw [hbytes, immHighBits_top, leBytes_extend, Bits.bit_eq_natCast]
    simp
  · rw [hbytes, immHighBits_top, leBytes_extend, Bits.bit_eq_natCast]
    simp

theorem immU12_signExtend (imm : BitVec 12) : immU12 (imm.signExtend 16) = imm.toNat := by
  have hlow := congrArg BitVec.toNat (BitFields.extractLsb'_signExtend (w := 16) (by omega) imm)
  rw [BitFields.toNat_extractLsb', Nat.pow_zero, Nat.div_one] at hlow
  exact (BitFields.toNat_and_mask (imm.signExtend 16) 12).trans hlow

theorem immU12'_signExtend (imm : BitVec 12) : immU12' (imm.signExtend 32) = imm.toNat := by
  have hlow := congrArg BitVec.toNat (BitFields.extractLsb'_signExtend (w := 32) (by omega) imm)
  rw [BitFields.toNat_extractLsb', Nat.pow_zero, Nat.div_one] at hlow
  exact (BitFields.toNat_and_mask (imm.signExtend 32) 12).trans hlow

end Immediates

section Comparisons

theorem assertBool_bit (b : Bool) : AssertBool (bit b : F) := by
  rw [Bits.bit_eq_natCast]
  exact assertBool_natCast (Nat.lt_succ_of_le b.toNat_le)

theorem comparison_eval (x y : U32) (lt : Bool) :
    (Trace.comparison x y lt : Comparison F).eval (u32ToLimbs y) := by
  refine ⟨assertBool_bit lt, ?_⟩
  show u32Sub _ _ (ofNats (u32SubDiff x y)) _
  rw [u32SubDiff_eq]
  exact u32Sub_limbs x y

theorem comparison_borrow (x y : U32) (lt : Bool) :
    (Trace.comparison x y lt : Comparison F).borrow 3 = bit (x.ult y) := by
  show ((u32SubBorrows x y 3 : ℕ) : F) = _
  rw [u32SubBorrows_last, Bits.bit_eq_natCast]
  by_cases h : x < y
  · rw [if_pos h, BitVec.ult_iff_lt.mpr h, Bool.toNat_true]
  · rw [if_neg h, Bool.eq_false_iff.mpr (mt BitVec.ult_iff_lt.mp h), Bool.toNat_false]

theorem signBit_eq (v : U32) : signBit v = v.msb.toNat := by
  rw [signBit, BitVec.toNat_ushiftRight, Nat.shiftRight_eq_div_pow, BitFields.toNat_msb (n := 31) v]

/-- The sign and the low seven bits make up the top byte. -/
theorem topByte_eq (v : U32) : leBytes v 3 = v.msb.toNat * 128 + low7 v := by
  have hv := v.isLt
  rw [low7_eq, ← signBit_eq, signBit, BitVec.toNat_ushiftRight, Nat.shiftRight_eq_div_pow,
    show 0x7F = 2 ^ 7 - 1 from rfl, Nat.and_two_pow_sub_one_eq_mod, leBytes_eq]
  show v.toNat / 2 ^ 24 % 256 = v.toNat / 2 ^ 31 * 128 + v.toNat / 2 ^ 24 % 256 % 2 ^ 7
  omega

theorem splitSign_word (v : U32) :
    splitSign (u32ToLimbs v 3 : F) (signBit v : F) (byte3Low7 v : F) := by
  rw [signBit_eq, byte3Low7_eq]
  refine ⟨assertBool_natCast (Nat.lt_succ_of_le v.msb.toNat_le), ?_⟩
  exact mod_cast congrArg (Nat.cast (R := F)) (topByte_eq v)

theorem slt_eq_xorBit (x y : U32) : (bit (x.slt y) : Felt) =
    xorBit (bit (x.ult y)) (xorBit (bit x.msb) (bit y.msb)) := by
  rw [xorBit_bit, xorBit_bit, BitVec.slt_eq_ult]
  congr 1
  cases x.ult y <;> cases x.msb <;> cases y.msb <;> rfl

end Comparisons

section Shifts

theorem registerShamt_eq (s : RegisterStep) : registerShamt s = s.rs2Value.toNat % 32 :=
  BitFields.toNat_and_mask s.rs2Value 5

theorem shamtHigh_eq (v : U32) : shamtHigh v = v.toNat % 256 / 32 := by
  have hlow : (v &&& (0xFF : U32)).toNat = v.toNat % 256 := BitFields.toNat_and_mask v 8
  rw [shamtHigh, BitVec.toNat_ushiftRight, hlow, Nat.shiftRight_eq_div_pow]

/-- The low byte of `rs2` in its three parts. -/
theorem shamt_parts (v : U32) :
    leBytes v 0 = v.toNat % 32 % 8 + v.toNat % 32 / 8 * 8 + shamtHigh v * 32 := by
  rw [shamtHigh_eq, leBytes_eq]
  show v.toNat / 2 ^ 0 % 256 = _
  omega

variable {n : ℕ} (hn : n < 32)
include hn

theorem selectors_shiftStages (x rd : U32) (shifted carry : ℕ → ℕ → ℕ) :
    (shiftStages x rd n shifted carry : ShiftStages F).selectors := by
  have hb : n / 8 < 4 := by omega
  have hhot : ∀ i, (shiftStages x rd n shifted carry : ShiftStages F).isBs i =
      if n / 8 = (i : ℕ) then 1 else 0 := fun i => rfl
  refine ⟨fun i => ?_, ?_, ?_⟩
  · rw [hhot, assertBool_iff]
    split_ifs
    · exact .inr rfl
    · exact .inl rfl
  · simp only [hhot]
    generalize n / 8 = b at hb
    interval_cases b <;> simp
  · simp only [shiftStages]
    generalize n / 8 = b at hb
    interval_cases b <;> simp

/-- Shifting left by `n`, byte by byte. -/
theorem leBytes_shiftLeft (x : U32) :
    leBytes (x <<< n) = movedLeft (interLeft (leBytes x) (n % 8)) (n / 8) := by
  have hk : n % 8 < 8 := Nat.mod_lt n (by norm_num)
  have hb : n / 8 < 4 := by omega
  have hinter := interLeft_lt (leBytes_lt x) hk
  apply leBytes_of_digits (movedLeft_lt hinter _)
  calc (x <<< n).toNat = digits (leBytes x) * 2 ^ n % 2 ^ 32 := by
        rw [BitVec.toNat_shiftLeft, Nat.shiftLeft_eq, toNat_eq_leBytes x]
        rfl
    _ = digits (leBytes x) * 2 ^ (n % 8) % 2 ^ 32 * 2 ^ (8 * (n / 8)) % 2 ^ 32 := by
        rw [Nat.mod_mul_mod, Nat.mul_assoc, ← Nat.pow_add, Nat.mod_add_div]
    _ = digits (interLeft (leBytes x) (n % 8)) * 2 ^ (8 * (n / 8)) % 2 ^ 32 := by
        rw [digits_interLeft (leBytes_lt x) hk]
    _ = digits (movedLeft (interLeft (leBytes x) (n % 8)) (n / 8)) :=
        (digits_movedLeft hinter hb).symm

theorem left_shiftStages (x : U32) :
    (shiftStages x (x <<< n) n sllShifted sllCarry : ShiftStages F).left := by
  have hk : n % 8 < 8 := Nat.mod_lt n (by norm_num)
  have hb : n / 8 < 4 := by omega
  have hshifted : ∀ i,
      (shiftStages x (x <<< n) n sllShifted sllCarry : ShiftStages F).shiftedBytes i =
      ((leBytes x i * 2 ^ (n % 8) % 256 : ℕ) : F) := fun i => congrArg Nat.cast (shifted_eq_mod _ _)
  have hcarry : ∀ i, (shiftStages x (x <<< n) n sllShifted sllCarry : ShiftStages F).carryBytes i =
      ((leBytes x i * 2 ^ (n % 8) / 256 : ℕ) : F) := fun i =>
    congrArg Nat.cast (carry_eq_div (leBytes_lt x i) hk)
  have hrd : ∀ i, (shiftStages x (x <<< n) n sllShifted sllCarry : ShiftStages F).rdBytes i =
      (movedLeft (interLeft (leBytes x) (n % 8)) (n / 8) i : F) := fun i =>
    congrArg (fun b : Fin 4 → ℕ => (b i : F)) (leBytes_shiftLeft hn x)
  have hhot : ∀ i, (shiftStages x (x <<< n) n sllShifted sllCarry : ShiftStages F).isBs i =
      if n / 8 = (i : ℕ) then 1 else 0 := fun i => rfl
  simp only [ShiftStages.left, hshifted, hcarry, hrd, hhot]
  generalize n / 8 = b at hb
  interval_cases b <;> simp [movedLeft, interLeft]

/-- Shifting right by `n` under a sign, byte by byte. -/
theorem leBytes_shiftFill {x v : U32} {sign : ℕ} (hsign : sign < 2)
    (hv : v.toNat = shiftFill sign x.toNat n) :
    leBytes v = moved sign (inter sign (leBytes x) (n % 8)) (n / 8) := by
  have hk : n % 8 < 8 := Nat.mod_lt n (by norm_num)
  have hb : n / 8 < 4 := by omega
  have hinter := inter_lt hsign (leBytes_lt x) hk
  apply leBytes_of_digits (moved_lt hsign hinter _)
  calc v.toNat = shiftFill sign (digits (leBytes x)) n := by
        rw [hv, toNat_eq_leBytes x]
        rfl
    _ = shiftFill sign (shiftFill sign (digits (leBytes x)) (n % 8)) (8 * (n / 8)) := by
        rw [shiftFill_shiftFill, Nat.mod_add_div]
    _ = shiftFill sign (digits (inter sign (leBytes x) (n % 8))) (8 * (n / 8)) := by
        rw [digits_inter hsign (leBytes_lt x) hk]
    _ = digits (moved sign (inter sign (leBytes x) (n % 8)) (n / 8)) :=
        (digits_moved hsign hinter hb).symm

theorem right_shiftStages {x v : U32} {sign : ℕ} (hsign : sign < 2)
    (hv : v.toNat = shiftFill sign x.toNat n) {topCarry fill : F}
    (htop : topCarry = (sign * passed 0xFF (n % 8) : ℕ)) (hfill : fill = (sign * 255 : ℕ)) :
    (shiftStages x v n srlShifted srlCarry : ShiftStages F).right topCarry fill := by
  have hb : n / 8 < 4 := by omega
  have hshifted : ∀ i, (shiftStages x v n srlShifted srlCarry : ShiftStages F).shiftedBytes i =
      ((leBytes x i / 2 ^ (n % 8) : ℕ) : F) := fun i =>
    congrArg Nat.cast (Nat.shiftRight_eq_div_pow _ _)
  have hcarry : ∀ i, (shiftStages x v n srlShifted srlCarry : ShiftStages F).carryBytes i =
      (passed (leBytes x i) (n % 8) : F) := fun i => congrArg Nat.cast (carry_eq_passed _ _)
  have hrd : ∀ i, (shiftStages x v n srlShifted srlCarry : ShiftStages F).rdBytes i =
      (moved sign (inter sign (leBytes x) (n % 8)) (n / 8) i : F) := fun i =>
    congrArg (fun b : Fin 4 → ℕ => (b i : F)) (leBytes_shiftFill hn hsign hv)
  have hhot : ∀ i, (shiftStages x v n srlShifted srlCarry : ShiftStages F).isBs i =
      if n / 8 = (i : ℕ) then 1 else 0 := fun i => rfl
  simp only [ShiftStages.right, hshifted, hcarry, hrd, hhot, htop, hfill]
  generalize n / 8 = b at hb
  interval_cases b <;> simp [moved, inter]

/-- A logical right shift puts in nothing. -/
theorem logical_right (x : U32) :
    (shiftStages x (x >>> n) n srlShifted srlCarry : ShiftStages F).right 0 0 := by
  have hvalue : (x >>> n).toNat = shiftFill 0 x.toNat n := by
    rw [BitVec.toNat_ushiftRight, Nat.shiftRight_eq_div_pow, shiftFill, Nat.zero_mul,
      Nat.zero_mul, Nat.add_zero]
  apply right_shiftStages hn Nat.two_pos hvalue
  · rw [Nat.zero_mul, Nat.cast_zero]
  · rw [Nat.zero_mul, Nat.cast_zero]

end Shifts

section SignFill

theorem signFill_bit (v : U32) : (v >>> 31 &&& 1).toNat = v.msb.toNat := by
  have hv := v.msb.toNat_le
  have hmask : (v >>> 31 &&& (1 : U32)).toNat = v.toNat / 2 ^ 31 % 2 ^ 1 :=
    BitFields.toNat_ushiftRight_and_mask v 31 1
  rw [hmask, ← BitFields.toNat_msb (n := 31) v]
  omega

theorem signFill_eval (v : U32) (k : ℕ) :
    (signFill v k : SignFill F).eval (u32ToLimbs v 3) := by
  refine ⟨?_, ?_, ?_⟩
  · show AssertBool (((v >>> 31 &&& 1).toNat : ℕ) : F)
    rw [signFill_bit]
    exact assertBool_natCast (Nat.lt_succ_of_le v.msb.toNat_le)
  · exact Nat.cast_mul _ _
  · show (leBytes v 3 : F) = ((v >>> 31 &&& 1).toNat : F) * 128 + (leBytes v 3 &&& 0x7F : ℕ)
    rw [signFill_bit, ← low7_eq]
    exact mod_cast congrArg (Nat.cast (R := F)) (topByte_eq v)

/-- What an arithmetic shift puts in from above. -/
theorem signFill_right {n : ℕ} (hn : n < 32) (x : U32) :
    (shiftStages x (x.sshiftRight n) n srlShifted srlCarry : ShiftStages F).right
      ((signFill x (n % 8) : SignFill F).signBit * (signFill x (n % 8)).srlFfCarry)
      (signFill x (n % 8)).fillByte := by
  apply right_shiftStages hn (Nat.lt_succ_of_le x.msb.toNat_le) (toNat_sshiftRight x hn)
  · show (((x >>> 31 &&& 1).toNat : ℕ) : F) * (srlCarry 0xFF (n % 8) : ℕ) = _
    rw [signFill_bit, srlCarry, carry_eq_passed, Nat.cast_mul]
  · show (((x >>> 31 &&& 1).toNat * 255 : ℕ) : F) = _
    rw [signFill_bit]

end SignFill

section Upper

theorem upper_parts (imm : BitVec 20) :
    ((imm.setWidth 32 &&& 0xFF : U32).toNat + (imm.setWidth 32 >>> 8 &&& 0xFFF : U32).toNat * 256) *
      16 = leBytes (imm ++ (0 : BitVec 12)) 1 + leBytes (imm ++ (0 : BitVec 12)) 2 * 256 +
        leBytes (imm ++ (0 : BitVec 12)) 3 * 65536 ∧ leBytes (imm ++ (0 : BitVec 12)) 0 = 0 := by
  have himm := imm.isLt
  have hlow : (imm.setWidth 32 &&& (0xFF : U32)).toNat = (imm.setWidth 32).toNat % 2 ^ 8 :=
    BitFields.toNat_and_mask (imm.setWidth 32) 8
  have hhigh : (imm.setWidth 32 >>> 8 &&& (0xFFF : U32)).toNat =
      (imm.setWidth 32).toNat / 2 ^ 8 % 2 ^ 12 :=
    BitFields.toNat_ushiftRight_and_mask (imm.setWidth 32) 8 12
  have hword := toNat_eq_leBytes (imm ++ (0 : BitVec 12))
  have h0 := leBytes_lt (imm ++ (0 : BitVec 12)) 0
  have hvalue : (imm ++ (0 : BitVec 12)).toNat = imm.toNat * 2 ^ 12 :=
    (BitFields.toNat_append imm (0 : BitVec 12)).trans (Nat.add_zero _)
  rw [hvalue] at hword
  rw [hlow, hhigh, BitVec.toNat_setWidth]
  omega

theorem upperColumns_shiftedImm (s : WriteStep) (imm : BitVec 20) :
    (upperColumns s (imm.setWidth 32) : UpperColumns F).shiftedImm
      (u32ToLimbs (imm ++ (0 : BitVec 12))) := by
  obtain ⟨hsum, hzero⟩ := upper_parts imm
  refine ⟨?_, ?_⟩
  · rw [u32ToLimbs_apply, hzero, Nat.cast_zero]
  · show (((_ : ℕ) : F) + ((_ : ℕ) : F) * 256) * 16 =
      ((_ : ℕ) : F) + ((_ : ℕ) : F) * 256 + ((_ : ℕ) : F) * 65536
    exact mod_cast congrArg (Nat.cast (R := F)) hsum

end Upper

section Jumps

/-- The offset of a `JAL` as the two parts the circuit looks up. -/
theorem jumpImmediate_offset (offset : BitVec 20) :
    jumpImmediate (offset.extractLsb' 19 1 ++ (offset.extractLsb' 10 1 ++ offset.extractLsb' 0 10))
      (offset.extractLsb' 11 8) = (offset ++ (0 : BitVec 1)).signExtend 32 := by
  have hoffset := offset.isLt
  have hvalue : (offset ++ (0 : BitVec 1)).toNat = offset.toNat * 2 ^ 1 :=
    (BitFields.toNat_append offset (0 : BitVec 1)).trans (Nat.add_zero _)
  apply BitVec.eq_of_toNat_eq
  rw [toNat_jumpImmediate, BitVec.toNat_signExtend, BitVec.toNat_setWidth, BitVec.msb_eq_decide,
    hvalue]
  simp only [BitFields.toNat_append, BitFields.toNat_extractLsb', decide_eq_true_eq]
  split_ifs <;> omega

/-- Columns filled with the bits of a number are boolean and recombine to it. -/
theorem pack_ofNats {n : ℕ} {x : BitVec n} {f : Fin n → ℕ}
    (hf : ∀ i, f i = x.toNat / 2 ^ (i : ℕ) % 2) :
    (∀ i, (ofNats f : Fin n → F) i = bit (x.toNat.testBit i)) ∧
      (∀ i, AssertBool ((ofNats f : Fin n → F) i)) ∧
      (x.toNat : F) = pack (List.ofFn (ofNats f : Fin n → F)) := by
  have hbits : ∀ i, (ofNats f : Fin n → F) i = bit (x.toNat.testBit i) := by
    intro i
    rw [ofNats_apply, hf, Bits.bit_eq_natCast, Nat.toNat_testBit]
  refine ⟨hbits, fun i => ?_, ?_⟩
  · rw [hbits]
    exact assertBool_bit _
  · rw [funext hbits, Bits.pack_bits x.isLt]

theorem bit_columns (v : U32) (i : ℕ) : (v >>> i &&& 1).toNat = v.toNat / 2 ^ i % 2 :=
  BitFields.toNat_ushiftRight_and_mask v i 1

theorem jalRow_imm (s : WriteStep) (offset : BitVec 20) :
    (jalRow s ((offset ++ (0 : BitVec 1)).signExtend 32) : JalColumns F).immBits ∧
      (jalRow s ((offset ++ (0 : BitVec 1)).signExtend 32) : JalColumns F).immBytes := by
  let high := offset.extractLsb' 19 1 ++ (offset.extractLsb' 10 1 ++ offset.extractLsb' 0 10)
  let low := offset.extractLsb' 11 8
  have himm : jumpImmediate high low = (offset ++ (0 : BitVec 1)).signExtend 32 :=
    jumpImmediate_offset offset
  have hparts := operands_jumpImmediate s.rd high low
  rw [operands, List.cons.injEq, List.cons.injEq, List.singleton_inj] at hparts
  obtain ⟨-, hhigh, hlow⟩ := hparts
  rw [← himm]
  have hhigh := (jalImmHigh12_eq (jumpImmediate high low)).trans hhigh
  have hlow := (jalImmLo8_eq (jumpImmediate high low)).trans hlow
  obtain ⟨hbitsHigh, hboolHigh, hpackHigh⟩ := pack_ofNats (F := F) (x := high)
    (f := fun i => (jalImmHigh12 (jumpImmediate high low) >>> (i : ℕ) &&& 1).toNat) fun i => by
      rw [bit_columns, hhigh]
  obtain ⟨hbitsLow, hboolLow, hpackLow⟩ := pack_ofNats (F := F) (x := low)
    (f := fun i => (jalImmLo8 (jumpImmediate high low) >>> (i : ℕ) &&& 1).toNat) fun i => by
      rw [bit_columns, hlow]
  refine ⟨⟨⟨hboolHigh, ?_⟩, hboolLow, ?_⟩, (immBytes_iff hbitsHigh hbitsLow).mpr rfl⟩
  · exact (congrArg Nat.cast hhigh).trans hpackHigh
  · exact (congrArg Nat.cast hlow).trans hpackLow

/-- The is-zero gadget: a register index is invertible unless it is `x0`. -/
theorem jalRow_rdZero (s : WriteStep) (imm : U32) : (jalRow s imm : JalColumns Felt).rdZero := by
  by_cases hrd : s.rd = 0
  · refine ⟨?_, ?_, ?_⟩ <;> simp [jalRow, hrd, AssertBool]
  · have hlt := s.rd.isLt
    have hne : (s.rd.toNat : Felt) ≠ 0 := by
      intro hzero
      have hnat : s.rd.toNat = 0 :=
        nat_eq_of_cast (by omega) (by omega) (hzero.trans Nat.cast_zero.symm)
      exact hrd (BitVec.eq_of_toNat_eq hnat)
    have hflag : (jalRow s imm : JalColumns Felt).rdIsZero = 0 := if_neg hrd
    have hinv : (jalRow s imm : JalColumns Felt).rdInv = (s.rd.toNat : Felt)⁻¹ := if_neg hrd
    rw [JalColumns.rdZero, hflag, hinv, mul_zero, add_zero]
    exact ⟨assertBool_iff.mpr (.inl rfl), rfl, mul_inv_cancel₀ hne⟩

theorem leBytes_clear_lsb (v : U32) : leBytes (v &&& ~~~(1 : U32)) =
    ![leBytes v 0 - v.toNat % 2, leBytes v 1, leBytes v 2, leBytes v 3] := by
  have h0 := leBytes_lt v 0
  have hv := toNat_eq_leBytes v
  apply leBytes_of_digits
  · intro i
    fin_cases i
    · exact (Nat.sub_le _ _).trans_lt h0
    · exact leBytes_lt v 1
    · exact leBytes_lt v 2
    · exact leBytes_lt v 3
  · rw [toNat_clear_lsb]
    simp only [Matrix.cons_val]
    omega

/-- The target is the sum without its low bit. -/
theorem jalrRow_target (s : ImmediateStep) (imm : U32) : (jalrRow s imm : JalrColumns F).target := by
  have hlsb : (s.rs1Value + imm &&& 1).toNat = (s.rs1Value + imm).toNat % 2 :=
    BitFields.toNat_and_mask (s.rs1Value + imm) 1
  have hbytes := leBytes_clear_lsb (s.rs1Value + imm)
  have hlow : leBytes (s.rs1Value + imm) 0 =
      leBytes ((s.rs1Value + imm) &&& ~~~(1 : U32)) 0 + (s.rs1Value + imm &&& 1).toNat := by
    have hdigits := toNat_eq_leBytes (s.rs1Value + imm)
    rw [hbytes, hlsb]
    simp only [Matrix.cons_val]
    omega
  refine ⟨?_, ?_, ?_, ?_, ?_⟩
  · show AssertBool (((s.rs1Value + imm &&& 1).toNat : ℕ) : F)
    rw [hlsb]
    exact assertBool_natCast (Nat.mod_lt _ Nat.two_pos)
  · exact (congrArg Nat.cast hlow).trans (Nat.cast_add _ _)
  · exact congrArg Nat.cast (congrFun hbytes 1)
  · exact congrArg Nat.cast (congrFun hbytes 2)
  · exact congrArg Nat.cast (congrFun hbytes 3)

end Jumps

end Loquela.Completeness
