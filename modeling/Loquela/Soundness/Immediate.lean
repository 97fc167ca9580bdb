import Loquela.Soundness.Words

/-! # Rows with a sign-extended immediate

The immediate is split into a low byte and a bit-decomposed nibble. The low byte has no range
check, so the nibble is not determined by the immediate; all that its choice can change is the
sign with which the immediate is extended.
-/

namespace Loquela.Soundness
open Air Library
open Library.Bits (bit pack)
open Vm (U32)

/-- A 12-bit immediate with the upper bits set or clear. -/
def extend (sign : Bool) (imm : BitVec 12) : U32 :=
  BitVec.ofNat 32 (imm.toNat + sign.toNat * 0xFFFFF000)

theorem toNat_extend (sign : Bool) (imm : BitVec 12) :
    (extend sign imm).toNat = imm.toNat + sign.toNat * 0xFFFFF000 := by
  have himm := imm.isLt
  have hsign := sign.toNat_le
  rw [extend, BitVec.toNat_ofNat]
  omega

theorem extend_msb (imm : BitVec 12) : extend imm.msb imm = imm.signExtend 32 := by
  apply BitVec.eq_of_toNat_eq
  rw [toNat_extend, BitVec.toNat_signExtend, BitVec.toNat_setWidth]
  have himm := imm.isLt
  cases imm.msb <;> simp <;> omega

theorem extend_eq_signExtend_iff {sign : Bool} {imm : BitVec 12} :
    extend sign imm = imm.signExtend 32 ↔ sign = imm.msb := by
  rw [← extend_msb]
  constructor
  · intro h
    have := congrArg BitVec.toNat h
    rw [toNat_extend, toNat_extend] at this
    revert this
    cases sign <;> cases imm.msb <;> simp
  · rintro rfl
    rfl

section SignExtension

variable {s : SignExtension Felt} {value : Felt} {imm : BitVec 12}

/-- The chosen nibble `n` and sign, and the bytes they determine. -/
theorem exists_nibble (h : s.eval value) : ∃ (n : ℕ) (sign : Bool), n < 16 ∧
    s.immHighBits 3 = bit sign ∧ value = s.immSeBytes 0 + n * 256 ∧
    (s.immSeBytes 1).val = n + sign.toNat * 0xF0 ∧ (s.immSeBytes 2).val = sign.toNat * 0xFF ∧
    (s.immSeBytes 3).val = sign.toNat * 0xFF ∧ sign = n.testBit 3 := by
  obtain ⟨hbool, hvalue, h1, h2, h3⟩ := h
  obtain ⟨n, hn, hpack, hbits⟩ := Bits.exists_pack fun i => assertBool_iff.mp (hbool i)
  have hnibble : s.highNibble = (n : Felt) := by
    rw [← hpack, SignExtension.highNibble]
    show _ = s.immHighBits 0 + (s.immHighBits 1 + (s.immHighBits 2 + (s.immHighBits 3 +
      0 * 2) * 2) * 2) * 2
    ring
  refine ⟨n, n.testBit 3, hn, hbits 3, by rw [hvalue, hnibble], ?_, ?_, ?_, rfl⟩
  all_goals
    have hsign := (n.testBit 3).toNat_le
    apply val_lt_of_eq_natCast (by omega)
  · rw [h1, hnibble, hbits 3, Bits.bit_eq_natCast]
    push_cast
    rfl
  · rw [h2, hbits 3, Bits.bit_eq_natCast]
    push_cast
    rfl
  · rw [h3, hbits 3, Bits.bit_eq_natCast]
    push_cast
    rfl

/-- The low limb of a sum, with the nibble in place of the unchecked low byte. -/
theorem low_limb_add {x0 s0 c0 se0 : Felt} {n : ℕ} (h : s0 + c0 * 256 = x0 + se0)
    (hvalue : (imm.toNat : Felt) = se0 + n * 256) (hn : n < 16) (hx : x0.val < 256)
    (hs : s0.val < 256) (hc : c0.val < 2) :
    s0.val + c0.val * 256 + n * 256 = x0.val + imm.toNat := by
  have himm := imm.isLt
  apply nat_eq_of_cast (by omega) (by omega)
  push_cast
  simp only [ZMod.natCast_val, ZMod.cast_id', id_eq]
  linear_combination h - hvalue

/-- With bytes in all four limbs the split is the sign-extended immediate. -/
theorem immSeBytes_eq (h : s.eval imm.toNat) (hbytes : Bytes s.immSeBytes) :
    s.immSeBytes = u32ToLimbs (imm.signExtend 32) := by
  obtain ⟨n, sign, hn, -, hvalue, e1, e2, e3, hsign⟩ := exists_nibble h
  have himm := imm.isLt
  have hlow := hbytes 0
  have hvalue : imm.toNat = (s.immSeBytes 0).val + n * 256 := by
    apply nat_eq_of_cast (by omega) (by omega)
    rw [hvalue, Nat.cast_add, ZMod.natCast_zmod_val, Nat.cast_mul]
    rfl
  have hmsb : sign = imm.msb := by
    rw [hsign, BitVec.msb_eq_decide, Nat.testBit_eq_decide_div_mod_eq, decide_eq_decide]
    omega
  rw [eq_u32ToLimbs_iff hbytes, ← extend_msb, ← hmsb]
  apply BitVec.eq_of_toNat_eq
  rw [toNat_word hbytes, toNat_extend, packedNat, e1, e2, e3]
  omega

variable {x sum c : Limbs Felt}

/-- A sum with the immediate bytes is a sum with an extended immediate. -/
theorem word_add_extend (h : s.eval imm.toNat) (hadd : u32Add x s.immSeBytes sum c)
    (hx : Bytes x) (hsum : Bytes sum) {sign : Bool} (hsign : s.immHighBits 3 = bit sign) :
    word sum = word x + extend sign imm := by
  obtain ⟨n, sign', hn, hsign', hvalue, e1, e2, e3, -⟩ := exists_nibble h
  obtain rfl : sign' = sign := Bits.bit_injective (hsign'.symm.trans hsign)
  have hc := fun i => val_lt_two (hadd i).1
  have ht := sign'.toNat_le
  have h0 := (hadd 0).2
  simp only [carryIn, Matrix.cons_val, add_zero] at h0
  have h0 := low_limb_add h0 hvalue hn (hx 0) (hsum 0) (hc 0)
  have h1 := add_limb (hadd 1).2 (hsum 1) (hc 1) (hx 1) (by omega) (hc 0)
  have h2 := add_limb (hadd 2).2 (hsum 2) (hc 2) (hx 2) (by omega) (hc 1)
  have h3 := add_limb (hadd 3).2 (hsum 3) (hc 3) (hx 3) (by omega) (hc 2)
  simp only [carryIn, Matrix.cons_val] at h1 h2 h3
  have hlt := packedNat_lt_two_pow hsum
  apply BitVec.eq_of_toNat_eq
  rw [BitVec.toNat_add, toNat_word hsum, toNat_word hx, toNat_extend]
  rw [packedNat] at hlt ⊢
  rw [packedNat]
  omega

variable {d b : Limbs Felt}

theorem low_limb_sub {x0 d0 b0 se0 : Felt} {n : ℕ} (h : x0 + b0 * 256 = se0 + d0)
    (hvalue : (imm.toNat : Felt) = se0 + n * 256) (hn : n < 16) (hx : x0.val < 256)
    (hd : d0.val < 256) (hb : b0.val < 2) :
    x0.val + b0.val * 256 + n * 256 = imm.toNat + d0.val := by
  have himm := imm.isLt
  apply nat_eq_of_cast (by omega) (by omega)
  push_cast
  simp only [ZMod.natCast_val, ZMod.cast_id', id_eq]
  linear_combination h - hvalue

/-- The last borrow compares with an extended immediate. -/
theorem borrow_extend (h : s.eval imm.toNat) (hsub : u32Sub x s.immSeBytes d b)
    (hx : Bytes x) (hd : Bytes d) {sign : Bool} (hsign : s.immHighBits 3 = bit sign) :
    b 3 = bit (decide (word x < extend sign imm)) := by
  obtain ⟨n, sign', hn, hsign', hvalue, e1, e2, e3, -⟩ := exists_nibble h
  obtain rfl : sign' = sign := Bits.bit_injective (hsign'.symm.trans hsign)
  have hb := fun i => val_lt_two (hsub i).1
  have ht := sign'.toNat_le
  have himm := imm.isLt
  have h0 := (hsub 0).2
  simp only [carryIn, Matrix.cons_val, add_zero] at h0
  have h0 := low_limb_sub h0 hvalue hn (hx 0) (hd 0) (hb 0)
  have h1 := sub_limb (hsub 1).2 (hx 1) (hb 1) (by omega) (hb 0) (hd 1)
  have h2 := sub_limb (hsub 2).2 (hx 2) (hb 2) (by omega) (hb 1) (hd 2)
  have h3 := sub_limb (hsub 3).2 (hx 3) (hb 3) (by omega) (hb 2) (hd 3)
  simp only [carryIn, Matrix.cons_val] at h1 h2 h3
  have hxlt := packedNat_lt_two_pow hx
  have hdlt := packedNat_lt_two_pow hd
  have hlt : word x < extend sign' imm ↔ (b 3).val = 1 := by
    rw [BitVec.lt_def, toNat_word hx, toNat_extend]
    rw [packedNat] at hxlt hdlt ⊢
    omega
  rcases assertBool_iff.mp (hsub 3).1 with h | h
  · rw [h, decide_eq_false, Bits.bit_false]
    rw [hlt, h, ZMod.val_zero]
    exact zero_ne_one
  · rw [h, decide_eq_true, Bits.bit_true]
    rw [hlt, h]
    exact ZMod.val_one modulus

end SignExtension

/-- A real ADDI row adds the sign-extended immediate exactly when the top bit of the chosen nibble
is the sign of the immediate. -/
theorem addi_row_iff (c : AddiColumns Felt) (imm : BitVec 12) (heval : c.eval)
    (hbytes : SendsBytes c.ports.checks) (himm : c.imm = (imm.toNat : Felt)) :
    c.rdNewValue = u32ToLimbs (word c.rs1Value + imm.signExtend 32) ↔
      c.immHighBits 3 = bit imm.msb := by
  obtain ⟨-, hext, hadd⟩ := heval
  rw [himm] at hext
  simp only [AddiColumns.ports, ImmediateColumns.ports, sendsBytes_append,
    sendsBytes_byteChecks] at hbytes
  obtain ⟨hrs1, hrd⟩ := hbytes
  obtain ⟨n, sign, -, hsign, -⟩ := exists_nibble hext
  rw [eq_u32ToLimbs_iff hrd, word_add_extend hext hadd hrs1 hrd hsign, hsign,
    add_right_inj, extend_eq_signExtend_iff, Bits.bit_injective.eq_iff]

/-- `addi rd, x0, -2048` at address 0, with the split of the immediate left open. -/
def addiMin (high : Fin 4 → Felt) (seBytes rdNewValue carries : Limbs Felt) : AddiColumns Felt where
  pc := 0
  timestamp := 0
  rd := 1
  rs1 := 0
  imm := 0x800
  oldRdValue := 0
  nextPc := ![4, 0, 0, 0]
  nextPcCarries := 0
  isDummy := 1
  immHighBits := high
  immSeBytes := seBytes
  rs1Value := 0
  rdNewValue := rdNewValue
  addCarries := carries

def addiMinHonest : AddiColumns Felt :=
  addiMin ![0, 0, 0, 1] ![0, 0xF8, 0xFF, 0xFF] ![0, 0xF8, 0xFF, 0xFF] 0

theorem addi_row_min : addiMinHonest.rdNewValue =
    u32ToLimbs (word addiMinHonest.rs1Value + (0x800#12).signExtend 32) := by
  apply (addi_row_iff addiMinHonest 0x800#12 (by decide) ?_ rfl).mpr
  · decide
  · simp only [AddiColumns.ports, ImmediateColumns.ports, sendsBytes_append,
      sendsBytes_byteChecks, Bytes]
    decide

/-- The immediate split as `256 + 7 * 256`. -/
def addiMinForged : AddiColumns Felt :=
  addiMin ![1, 1, 1, 0] ![0x100, 7, 0, 0] ![0, 8, 0, 0] ![1, 0, 0, 0]

theorem addi_row_unsound : ¬ ∀ (c : AddiColumns Felt) (imm : BitVec 12), c.isDummy = 1 → c.eval →
    SendsBytes c.ports.checks → c.imm = (imm.toNat : Felt) →
    c.rdNewValue = u32ToLimbs (word c.rs1Value + imm.signExtend 32) := by
  intro h
  have hbytes : SendsBytes addiMinForged.ports.checks := by
    simp only [AddiColumns.ports, ImmediateColumns.ports, sendsBytes_append,
      sendsBytes_byteChecks, Bytes]
    decide
  have hrd := h addiMinForged 0x800#12 rfl (by decide) hbytes rfl
  exact absurd (congrFun hrd 2) (by decide)

theorem toNat_clear_lsb (v : U32) : (v &&& ~~~(1 : U32)).toNat = v.toNat - v.toNat % 2 := by
  have hclear : v &&& ~~~(1 : U32) = (v >>> 1) <<< 1 := by
    apply BitVec.eq_of_getLsbD_eq
    intro i hi
    have hone : (1 : U32).getLsbD i = decide (i = 0) := by
      rw [show (1 : U32) = 1#32 from rfl, BitVec.getLsbD_one]
      simp
    simp only [BitVec.getLsbD_and, BitVec.getLsbD_not, BitVec.getLsbD_shiftLeft,
      BitVec.getLsbD_ushiftRight, hone, hi, decide_true, Bool.true_and]
    by_cases h : i = 0
    · simp [h]
    · have hpos : 1 + (i - 1) = i := by omega
      have hge : ¬ i < 1 := by omega
      simp [h, hge, hpos]
  have hv := v.isLt
  rw [hclear, BitVec.toNat_shiftLeft, BitVec.toNat_ushiftRight, Nat.shiftLeft_eq,
    Nat.shiftRight_eq_div_pow]
  omega

section Target

variable {c : JalrColumns Felt}

/-- The target is the sum but for the bit taken off its low byte. -/
theorem packedNat_nextPc (h : c.target) (hsum : Bytes c.sum)
    (hlsb : c.sumLsb = bit ((c.sum 0).val.testBit 0)) :
    Bytes c.nextPc ∧ packedNat c.nextPc = packedNat c.sum - packedNat c.sum % 2 := by
  obtain ⟨-, h0, h1, h2, h3⟩ := h
  have hparity : ((c.sum 0).val.testBit 0).toNat = (c.sum 0).val % 2 := by
    rw [Nat.toNat_testBit, Nat.pow_zero, Nat.div_one]
  have hlow : (c.nextPc 0).val = (c.sum 0).val - (c.sum 0).val % 2 := by
    have hs := hsum 0
    apply val_lt_of_eq_natCast (by omega)
    rw [Nat.cast_sub (Nat.mod_le _ _), ZMod.natCast_zmod_val, ← hparity, ← Bits.bit_eq_natCast,
      ← hlsb, h0, add_sub_cancel_right]
  have hs := hsum 0
  refine ⟨?_, ?_⟩
  · rw [Bytes, Fin.forall_fin_succ, Fin.forall_fin_succ, Fin.forall_fin_two]
    refine ⟨by omega, ?_, ?_, ?_⟩
    · exact (congrArg ZMod.val h1).trans_lt (hsum 1)
    · exact (congrArg ZMod.val h2).trans_lt (hsum 2)
    · exact (congrArg ZMod.val h3).trans_lt (hsum 3)
  · rw [packedNat, packedNat, hlow, h1, h2, h3]
    omega

/-- An even target of bytes comes from a sum of bytes, by its low bit. -/
theorem bytes_sum (h : c.target) (hnext : Bytes c.nextPc) (heven : (c.nextPc 0).val % 2 = 0) :
    Bytes c.sum ∧ c.sumLsb = bit ((c.sum 0).val.testBit 0) := by
  obtain ⟨hbool, h0, h1, h2, h3⟩ := h
  have hlt := val_lt_two hbool
  have hn := hnext 0
  have hlow : (c.sum 0).val = (c.nextPc 0).val + c.sumLsb.val := by
    apply val_lt_of_eq_natCast (by omega)
    rw [h0, Nat.cast_add, ZMod.natCast_zmod_val, ZMod.natCast_zmod_val]
  constructor
  · rw [Bytes, Fin.forall_fin_succ, Fin.forall_fin_succ, Fin.forall_fin_two]
    refine ⟨by omega, ?_, ?_, ?_⟩
    · exact (congrArg ZMod.val h1.symm).trans_lt (hnext 1)
    · exact (congrArg ZMod.val h2.symm).trans_lt (hnext 2)
    · exact (congrArg ZMod.val h3.symm).trans_lt (hnext 3)
  · have hparity : ((c.sum 0).val.testBit 0).toNat = c.sumLsb.val := by
      rw [Nat.toNat_testBit, Nat.pow_zero, Nat.div_one, hlow]
      omega
    rw [Bits.bit_eq_natCast, hparity, ZMod.natCast_zmod_val]

end Target

theorem toNat_add_four {v : U32} (h : v.toNat + 4 < 2 ^ 32) : (v + 4).toNat = v.toNat + 4 := by
  rw [BitVec.toNat_add, show (4 : U32).toNat = 4 from rfl, Nat.mod_eq_of_lt h]

/-- What a JALR row is to do: jump to the even sum, and write what the interpreter logs. -/
structure JalrCorrect (c : JalrColumns Felt) (imm : BitVec 12) : Prop where
  nextPc : c.nextPc = u32ToLimbs ((word c.rs1Value + imm.signExtend 32) &&& ~~~(1 : U32))
  rdVal : c.rdVal = u32ToLimbs (if c.rd = 0 then 0 else word c.pc + 4)

/-- A real JALR row does that exactly when `rd` is not `x0`, the top bit of the chosen nibble is
the sign of the immediate, the limbs of `sum` are bytes and `sum_lsb` is their low bit. -/
theorem jalr_row_iff (c : JalrColumns Felt) (imm : BitVec 12) (heval : c.eval)
    (hpc : Bytes c.pc) (hover : (word c.pc).toNat + 4 < 2 ^ 32) (hbytes : SendsBytes c.ports.checks)
    (himm : c.imm = (imm.toNat : Felt)) :
    JalrCorrect c imm ↔ c.rd ≠ 0 ∧ c.immHighBits 3 = bit imm.msb ∧ Bytes c.sum ∧
      c.sumLsb = bit ((c.sum 0).val.testBit 0) := by
  obtain ⟨-, hfour, hext, hadd, htarget⟩ := heval
  rw [himm] at hext
  simp only [JalrColumns.ports, sendsBytes_append, sendsBytes_byteChecks] at hbytes
  obtain ⟨hrs1, hrd⟩ := hbytes
  obtain ⟨n, sign, -, hsign, -⟩ := exists_nibble hext
  have hpcFour := toNat_add_four hover
  have hreturn := u32PlusFour_word hfour hpc hrd
  have himm' := imm.isLt
  have hx := (word c.rs1Value).isLt
  rw [hsign, Bits.bit_injective.eq_iff]
  constructor
  · rintro ⟨hnext, hval⟩
    have hnonzero : c.rd ≠ 0 := by
      intro hzero
      rw [if_pos hzero, hreturn] at hval
      have hzero := congrArg BitVec.toNat (congrArg word hval)
      rw [word_u32ToLimbs, word_u32ToLimbs, hpcFour] at hzero
      exact absurd hzero (Nat.succ_ne_zero _)
    have hnextBytes : Bytes c.nextPc := hnext ▸ bytes_u32ToLimbs _
    have hnextNat : packedNat c.nextPc =
        ((word c.rs1Value + imm.signExtend 32) &&& ~~~(1 : U32)).toNat := by
      rw [hnext, packedNat_u32ToLimbs]
    rw [toNat_clear_lsb] at hnextNat
    have heven : (c.nextPc 0).val % 2 = 0 := by
      rw [packedNat] at hnextNat
      omega
    obtain ⟨hsum, hlsb⟩ := bytes_sum htarget hnextBytes heven
    refine ⟨hnonzero, ?_, hsum, hlsb⟩
    have hword := congrArg BitVec.toNat (word_add_extend hext hadd hrs1 hsum hsign)
    obtain ⟨-, hsub⟩ := packedNat_nextPc htarget hsum hlsb
    rw [toNat_word hsum, BitVec.toNat_add, toNat_extend] at hword
    rw [← extend_msb, BitVec.toNat_add, toNat_extend] at hnextNat
    revert hword hnextNat
    cases sign <;> cases imm.msb <;> simp <;> omega
  · rintro ⟨hnonzero, rfl, hsum, hlsb⟩
    refine ⟨?_, by rw [if_neg hnonzero, hreturn]⟩
    obtain ⟨hnextBytes, hsub⟩ := packedNat_nextPc htarget hsum hlsb
    rw [eq_u32ToLimbs_iff hnextBytes]
    apply BitVec.eq_of_toNat_eq
    rw [toNat_word hnextBytes, hsub, ← toNat_word hsum, word_add_extend hext hadd hrs1 hsum hsign,
      extend_msb, toNat_clear_lsb]

/-- `jalr x1, 0(x2)` at address 0 with 8 in `x2`; the bit taken off the sum is left open. -/
def jalrEight (lsb target : Felt) : JalrColumns Felt where
  pc := 0
  timestamp := 0
  rd := 1
  rs1 := 2
  imm := 0
  rs1Value := ![8, 0, 0, 0]
  oldRdValue := 0
  rdVal := ![4, 0, 0, 0]
  rdValCarries := 0
  sum := ![8, 0, 0, 0]
  sumCarries := 0
  sumLsb := lsb
  nextPc := ![target, 0, 0, 0]
  isDummy := 1
  immHighBits := 0
  immSeBytes := 0

theorem jalrEight_sendsBytes (lsb target : Felt) :
    SendsBytes (jalrEight lsb target).ports.checks := by
  simp only [JalrColumns.ports, sendsBytes_append, sendsBytes_byteChecks, Bytes, jalrEight]
  decide

theorem jalr_row_eight : JalrCorrect (jalrEight 0 8) 0 := by
  apply (jalr_row_iff (jalrEight 0 8) 0 (by decide) (by decide) (by decide)
    (jalrEight_sendsBytes 0 8) rfl).mpr
  exact ⟨by decide, by decide, by decide, by decide⟩

/-- The row may jump to address 7. -/
theorem jalr_row_unsound : ¬ ∀ (c : JalrColumns Felt) (imm : BitVec 12), c.isDummy = 1 → c.eval →
    Bytes c.pc → (word c.pc).toNat + 4 < 2 ^ 32 → SendsBytes c.ports.checks →
    c.imm = (imm.toNat : Felt) → JalrCorrect c imm := by
  intro h
  have hjump := (h (jalrEight 1 7) 0 rfl (by decide) (by decide) (by decide)
    (jalrEight_sendsBytes 1 7) rfl).nextPc
  exact absurd (congrFun hjump 0) (by decide)

end Loquela.Soundness
