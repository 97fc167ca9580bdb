import Loquela.Soundness.Immediate

/-! # Comparison rows

The last borrow of the subtraction is the unsigned comparison. The signed one is corrected by two
sign bits; those split off a top byte are chosen by the prover, since the rest of the byte is only
checked to be a byte.
-/

namespace Loquela.Soundness
open Air Library
open Library.Bits (bit)
open Vm (U32)

theorem bit_decide (p : Prop) [Decidable p] : bit (decide p) = if p then (1 : Felt) else 0 := by
  by_cases h : p <;> simp [h]

theorem xorBit_bit (a b : Bool) : xorBit (bit a) (bit b) = (bit (a ^^ b) : Felt) := by
  cases a <;> cases b <;> simp [xorBit]
  norm_num

theorem exists_bit {x : Felt} (h : AssertBool x) : ∃ b : Bool, x = bit b := by
  rcases assertBool_iff.mp h with rfl | rfl
  · exact ⟨false, rfl⟩
  · exact ⟨true, rfl⟩

/-- The borrow of a register comparison. -/
theorem borrow_eq {s : Comparison Felt} {right : Limbs Felt} (h : s.eval right)
    (hleft : Bytes s.rs1Bytes) (hright : Bytes right) (hdiff : Bytes s.diffBytes) :
    s.borrow 3 = bit ((word s.rs1Bytes).ult (word right)) := by
  have hnat := u32Sub_nat h.2 hleft hright hdiff
  have hd := packedNat_lt_two_pow hdiff
  have hx := packedNat_lt_two_pow hleft
  rw [BitVec.ult, toNat_word hleft, toNat_word hright]
  rcases assertBool_iff.mp (h.2 3).1 with hb | hb
  · rw [hb, ZMod.val_zero] at hnat
    rw [hb, decide_eq_false (by omega), Bits.bit_false]
  · rw [hb, show (1 : Felt).val = 1 from rfl] at hnat
    rw [hb, decide_eq_true (by omega), Bits.bit_true]

/-- A real SLTIU row compares with the sign-extended immediate exactly when the top bit of the
chosen nibble is its sign, or `rs1` is on the same side of both extensions. -/
theorem sltiu_row_iff (c : SltiuColumns Felt) (imm : BitVec 12) (heval : c.eval)
    (hbytes : SendsBytes c.ports.checks) (himm : c.imm = (imm.toNat : Felt)) :
    c.ltResult = (if word c.rs1Bytes < imm.signExtend 32 then 1 else 0) ↔
      c.immHighBits 3 = bit imm.msb ∨ (word c.rs1Bytes).toNat < imm.toNat ∨
        imm.toNat + 0xFFFFF000 ≤ (word c.rs1Bytes).toNat := by
  obtain ⟨-, hext, hcomp, hresult⟩ := heval
  rw [himm] at hext
  simp only [SltiuColumns.ports, ImmediateColumns.ports, sendsBytes_append,
    sendsBytes_byteChecks] at hbytes
  obtain ⟨hrs1, hdiff⟩ := hbytes
  obtain ⟨n, sign, -, hsign, -⟩ := exists_nibble hext
  rw [hresult, borrow_extend hext hcomp.2 hrs1 hdiff hsign, ← bit_decide, hsign,
    Bits.bit_injective.eq_iff, Bits.bit_injective.eq_iff, decide_eq_decide, ← extend_msb,
    BitVec.lt_def, BitVec.lt_def, toNat_extend, toNat_extend]
  cases sign <;> cases imm.msb <;> simp <;> omega

/-- `sltiu rd, x1, -2048` with 3000 in `x1`, with the split of the immediate left open. -/
def sltiuMin (high : Fin 4 → Felt) (seBytes diff borrow : Limbs Felt) (lt : Felt) :
    SltiuColumns Felt where
  pc := 0
  timestamp := 0
  rd := 2
  rs1 := 1
  imm := 0x800
  oldRdValue := 0
  nextPc := ![4, 0, 0, 0]
  nextPcCarries := 0
  isDummy := 1
  immHighBits := high
  immSeBytes := seBytes
  rs1Bytes := ![0xB8, 0xB, 0, 0]
  diffBytes := diff
  borrow := borrow
  ltResult := lt

def sltiuMinHonest : SltiuColumns Felt :=
  sltiuMin ![0, 0, 0, 1] ![0, 0xF8, 0xFF, 0xFF] ![0xB8, 0x13, 0, 0] ![0, 1, 1, 1] 1

theorem sltiu_row_min : sltiuMinHonest.ltResult =
    if word sltiuMinHonest.rs1Bytes < (0x800#12).signExtend 32 then 1 else 0 := by
  apply (sltiu_row_iff sltiuMinHonest 0x800#12 (by decide) ?_ rfl).mpr
  · exact .inl (by decide)
  · simp only [SltiuColumns.ports, ImmediateColumns.ports, sendsBytes_append,
      sendsBytes_byteChecks]
    decide

/-- The immediate split as `256 + 7 * 256`, which is below 3000. -/
def sltiuMinForged : SltiuColumns Felt :=
  sltiuMin ![1, 1, 1, 0] ![0x100, 7, 0, 0] ![0xB8, 3, 0, 0] ![1, 0, 0, 0] 0

theorem sltiu_row_unsound : ¬ ∀ (c : SltiuColumns Felt) (imm : BitVec 12), c.isDummy = 1 →
    c.eval → SendsBytes c.ports.checks → c.imm = (imm.toNat : Felt) →
    c.ltResult = if word c.rs1Bytes < imm.signExtend 32 then 1 else 0 := by
  intro h
  have hbytes : SendsBytes sltiuMinForged.ports.checks := by
    simp only [SltiuColumns.ports, ImmediateColumns.ports, sendsBytes_append,
      sendsBytes_byteChecks]
    decide
  exact absurd (h sltiuMinForged 0x800#12 rfl (by decide) hbytes rfl) (by decide)

theorem msb_extend (sign : Bool) (imm : BitVec 12) : (extend sign imm).msb = sign := by
  have himm := imm.isLt
  rw [BitVec.msb_eq_decide, toNat_extend]
  cases sign with
  | false =>
    apply decide_eq_false
    rw [Bool.toNat_false]
    omega
  | true =>
    apply decide_eq_true
    rw [Bool.toNat_true]
    omega

theorem toInt_extend (sign : Bool) (imm : BitVec 12) :
    (extend sign imm).toInt = imm.toNat - sign.toNat * 4096 := by
  have himm := imm.isLt
  rw [BitVec.toInt_eq_toNat_cond, toNat_extend]
  cases sign <;> simp only [Bool.toNat_false, Bool.toNat_true] <;> split_ifs <;> omega

/-- A wrong sign bit flips the result, two of them cancel. -/
theorem slt_row {s : Comparison Felt} {left' right' : Bool} {w : U32}
    (hborrow : s.borrow 3 = bit ((word s.rs1Bytes).ult w))
    (hresult : s.ltResult = xorBit (s.borrow 3) (xorBit (bit left') (bit right'))) :
    s.ltResult = bit ((word s.rs1Bytes).slt w ^^
      (left' ^^ (word s.rs1Bytes).msb) ^^ (right' ^^ w.msb)) := by
  rw [hresult, hborrow, xorBit_bit, xorBit_bit, BitVec.slt_eq_ult]
  congr 1
  cases (word s.rs1Bytes).ult w <;> cases (word s.rs1Bytes).msb <;> cases w.msb <;>
    cases left' <;> cases right' <;> rfl

/-- A real SLT row compares exactly when its two sign bits are both right or both wrong. -/
theorem slt_row_iff (c : SltColumns Felt) (heval : c.eval) (hbytes : SendsBytes c.ports.checks) :
    c.ltResult = (if (word c.rs1Bytes).slt (word c.rs2Bytes) then 1 else 0) ↔
      (c.signRs1 = bit (word c.rs1Bytes).msb ↔ c.signRs2 = bit (word c.rs2Bytes).msb) := by
  obtain ⟨-, hcomp, hleft, hright, hresult⟩ := heval
  simp only [SltColumns.ports, RegisterColumns.ports, sendsBytes_append,
    sendsBytes_byteChecks] at hbytes
  obtain ⟨⟨⟨hrs1, hrs2⟩, hdiff⟩, -⟩ := hbytes
  obtain ⟨left, hl⟩ := exists_bit hleft.1
  obtain ⟨right, hr⟩ := exists_bit hright.1
  rw [hl, hr] at hresult
  rw [slt_row (borrow_eq hcomp hrs1 hrs2 hdiff) hresult, hl, hr]
  show _ = bit ((word c.rs1Bytes).slt (word c.rs2Bytes)) ↔ _
  rw [Bits.bit_injective.eq_iff, Bits.bit_injective.eq_iff, Bits.bit_injective.eq_iff]
  cases (word c.rs1Bytes).slt (word c.rs2Bytes) <;> cases (word c.rs1Bytes).msb <;>
    cases (word c.rs2Bytes).msb <;> cases left <;> cases right <;> simp

/-- The two extensions of an immediate compare alike with a word outside of their range. -/
theorem slt_extend_iff (w : U32) (sign : Bool) (imm : BitVec 12) :
    w.slt (extend sign imm) = w.slt (imm.signExtend 32) ↔
      sign = imm.msb ∨ w.toInt < imm.toNat - 4096 ∨ (imm.toNat : ℤ) ≤ w.toInt := by
  rw [← extend_msb, BitVec.slt, BitVec.slt, decide_eq_decide, toInt_extend, toInt_extend]
  cases sign <;> cases imm.msb <;>
    simp only [Bool.toNat_false, Bool.toNat_true, reduceCtorEq, true_or, iff_self, false_or] <;>
    omega

/-- A real SLTI row compares exactly when its sign bit of `rs1` is right and the sign of the
immediate does no harm, or both go wrong. -/
theorem slti_row_iff (c : SltiColumns Felt) (imm : BitVec 12) (heval : c.eval)
    (hbytes : SendsBytes c.ports.checks) (himm : c.imm = (imm.toNat : Felt)) :
    c.ltResult = (if (word c.rs1Bytes).slt (imm.signExtend 32) then 1 else 0) ↔
      (c.signRs1 = bit (word c.rs1Bytes).msb ↔
        c.immHighBits 3 = bit imm.msb ∨ (word c.rs1Bytes).toInt < imm.toNat - 4096 ∨
          (imm.toNat : ℤ) ≤ (word c.rs1Bytes).toInt) := by
  obtain ⟨-, hext, hcomp, hleft, hresult⟩ := heval
  rw [himm] at hext
  simp only [SltiColumns.ports, ImmediateColumns.ports, sendsBytes_append,
    sendsBytes_byteChecks] at hbytes
  obtain ⟨⟨hrs1, hdiff⟩, -⟩ := hbytes
  obtain ⟨n, sign, -, hsign, -⟩ := exists_nibble hext
  obtain ⟨left, hl⟩ := exists_bit hleft.1
  rw [hl, hsign] at hresult
  have hborrow := borrow_extend hext hcomp.2 hrs1 hdiff hsign
  rw [slt_row (w := extend sign imm) hborrow hresult, msb_extend, hl, hsign]
  show _ = bit ((word c.rs1Bytes).slt (imm.signExtend 32)) ↔ _
  rw [Bits.bit_injective.eq_iff, Bits.bit_injective.eq_iff, Bits.bit_injective.eq_iff,
    ← slt_extend_iff]
  cases (word c.rs1Bytes).slt (extend sign imm) <;>
    cases (word c.rs1Bytes).slt (imm.signExtend 32) <;> cases (word c.rs1Bytes).msb <;>
    cases left <;> cases sign <;> simp

/-- Both signed comparisons. -/
theorem signed_comparison_iff (c : SltColumns Felt) (d : SltiColumns Felt) (imm : BitVec 12) :
    (c.eval → SendsBytes c.ports.checks →
      (c.ltResult = (if (word c.rs1Bytes).slt (word c.rs2Bytes) then 1 else 0) ↔
        (c.signRs1 = bit (word c.rs1Bytes).msb ↔ c.signRs2 = bit (word c.rs2Bytes).msb))) ∧
    (d.eval → SendsBytes d.ports.checks → d.imm = (imm.toNat : Felt) →
      (d.ltResult = (if (word d.rs1Bytes).slt (imm.signExtend 32) then 1 else 0) ↔
        (d.signRs1 = bit (word d.rs1Bytes).msb ↔
          d.immHighBits 3 = bit imm.msb ∨ (word d.rs1Bytes).toInt < imm.toNat - 4096 ∨
            (imm.toNat : ℤ) ≤ (word d.rs1Bytes).toInt))) :=
  ⟨slt_row_iff c, slti_row_iff d imm⟩

/-- `slt x3, x1, x2` with the least integer in `x1` and 0 in `x2`; the split of the sign bit of
`x1` is left open. -/
def sltMin (sign low7 lt : Felt) : SltColumns Felt where
  pc := 0
  timestamp := 0
  rd := 3
  rs1 := 1
  rs2 := 2
  oldRdValue := 0
  nextPc := ![4, 0, 0, 0]
  nextPcCarries := 0
  isDummy := 1
  rs1Bytes := ![0, 0, 0, 0x80]
  rs2Bytes := 0
  diffBytes := ![0, 0, 0, 0x80]
  borrow := 0
  ltResult := lt
  signRs1 := sign
  signRs2 := 0
  rs1Byte3Low7 := low7
  rs2Byte3Low7 := 0

/-- `slti x3, x1, 0` with the least integer in `x1`. -/
def sltiMin (sign low7 lt : Felt) : SltiColumns Felt where
  pc := 0
  timestamp := 0
  rd := 3
  rs1 := 1
  imm := 0
  oldRdValue := 0
  nextPc := ![4, 0, 0, 0]
  nextPcCarries := 0
  isDummy := 1
  immHighBits := 0
  immSeBytes := 0
  rs1Bytes := ![0, 0, 0, 0x80]
  diffBytes := ![0, 0, 0, 0x80]
  borrow := 0
  ltResult := lt
  signRs1 := sign
  rs1Byte3Low7 := low7

theorem sltMin_sendsBytes {low7 : Felt} (h : low7.val < 256) (sign lt : Felt) :
    SendsBytes (sltMin sign low7 lt).ports.checks := by
  simp only [SltColumns.ports, RegisterColumns.ports, sendsBytes_append, sendsBytes_byteChecks,
    sendsBytes_cons_cons, sendsBytes_byte, sltMin, h, true_and]
  decide

theorem sltiMin_sendsBytes {low7 : Felt} (h : low7.val < 256) (sign lt : Felt) :
    SendsBytes (sltiMin sign low7 lt).ports.checks := by
  simp only [SltiColumns.ports, ImmediateColumns.ports, sendsBytes_append, sendsBytes_byteChecks,
    sendsBytes_byte, sltiMin, h, and_true]
  decide

theorem signed_comparison_min :
    ((sltMin 1 0 1).ltResult = if (word (sltMin 1 0 1).rs1Bytes).slt (word (sltMin 1 0 1).rs2Bytes)
      then 1 else 0) ∧
    (sltiMin 1 0 1).ltResult =
      if (word (sltiMin 1 0 1).rs1Bytes).slt ((0#12).signExtend 32) then 1 else 0 := by
  have hiff := signed_comparison_iff (sltMin 1 0 1) (sltiMin 1 0 1) 0#12
  constructor
  · exact (hiff.1 (by decide) (sltMin_sendsBytes (by decide) _ _)).mpr (by decide)
  · exact (hiff.2 (by decide) (sltiMin_sendsBytes (by decide) _ _) rfl).mpr (by decide)

/-- With 0 for the sign and the whole top byte for the rest, the least integer is not negative. -/
theorem signed_comparison_unsound :
    (¬ ∀ c : SltColumns Felt, c.isDummy = 1 → c.eval → SendsBytes c.ports.checks →
      c.ltResult = if (word c.rs1Bytes).slt (word c.rs2Bytes) then 1 else 0) ∧
    ¬ ∀ (c : SltiColumns Felt) (imm : BitVec 12), c.isDummy = 1 → c.eval →
      SendsBytes c.ports.checks → c.imm = (imm.toNat : Felt) →
      c.ltResult = if (word c.rs1Bytes).slt (imm.signExtend 32) then 1 else 0 := by
  constructor
  · intro h
    exact absurd (h (sltMin 0 0x80 0) rfl (by decide) (sltMin_sendsBytes (by decide) _ _))
      (by decide)
  · intro h
    exact absurd (h (sltiMin 0 0x80 0) 0#12 rfl (by decide) (sltiMin_sendsBytes (by decide) _ _)
      rfl) (by decide)

end Loquela.Soundness
