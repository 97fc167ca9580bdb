import Loquela.Air.Instructions.Operands
import Loquela.Soundness.LessThan

/-! # Arithmetic rows

With byte limbs no limb equation wraps around the modulus, so a row of an adder, a subtractor or
an upper immediate determines the word it writes.
-/

namespace Loquela.Soundness
open Air Library
open Library.Bits (bit pack)
open Vm (U32)

/-- The upper immediate in two parts, shifted into place. -/
def upperImmediate (high : BitVec 12) (low : BitVec 8) : U32 :=
  (high ++ low : BitVec 20).setWidth 32 <<< 12

theorem toNat_upperImmediate (high : BitVec 12) (low : BitVec 8) :
    (upperImmediate high low).toNat = (high.toNat * 256 + low.toNat) * 4096 := by
  have hhigh := high.isLt
  have hlow := low.isLt
  rw [upperImmediate, BitVec.toNat_shiftLeft, BitVec.toNat_setWidth, BitFields.toNat_append,
    Nat.shiftLeft_eq]
  omega

/-- The offset of `JAL`: bits 10 to 1, 11 and 20 in one part, bits 19 to 12 in the other. -/
def jumpImmediate (high : BitVec 12) (low : BitVec 8) : U32 :=
  (high.extractLsb' 11 1 ++ low ++ high.extractLsb' 10 1 ++ high.extractLsb' 0 10 ++
    (0 : BitVec 1) : BitVec 21).signExtend 32

theorem toNat_jumpImmediate (high : BitVec 12) (low : BitVec 8) :
    (jumpImmediate high low).toNat = high.toNat % 2 ^ 10 * 2 + high.toNat / 2 ^ 10 % 2 * 2 ^ 11 +
      low.toNat * 2 ^ 12 + high.toNat / 2 ^ 11 * 0xFFF00000 := by
  have hhigh := high.isLt
  have hlow := low.isLt
  rw [jumpImmediate, BitVec.toNat_signExtend, BitVec.toNat_setWidth, BitVec.msb_eq_decide]
  simp only [BitFields.toNat_append, BitFields.toNat_extractLsb', decide_eq_true_eq,
    show (0 : BitVec 1).toNat = 0 from rfl, Nat.pow_zero, Nat.div_one]
  split_ifs <;> omega

/-- The parts are those the decoder offers for the immediate. -/
theorem operands_jumpImmediate (rd : Vm.Register) (high : BitVec 12) (low : BitVec 8) :
    operands (.jal rd (jumpImmediate high low)) = [rd.toNat, high.toNat, low.toNat] := by
  have hhigh := high.isLt
  have hlow := low.isLt
  have himm := toNat_jumpImmediate high low
  have hbits : jalHigh12 (jumpImmediate high low) = high.toNat := by
    rw [jalHigh12]
    omega
  have hrest : (jumpImmediate high low).toNat / 2 ^ 12 % 2 ^ 8 = low.toNat := by omega
  rw [operands, hbits, hrest]

section Immediates

variable {high : BitVec 12} {low : BitVec 8}

/-- The decomposition of the shifted immediate has 24 bits, so it does not wrap around. -/
theorem shiftedImm_word {c : UpperColumns Felt} {x : Limbs Felt} (h : c.shiftedImm x)
    (hx : Bytes x) (hhigh : c.immHigh12 = (high.toNat : Felt))
    (hlow : c.immLow8 = (low.toNat : Felt)) : x = u32ToLimbs (upperImmediate high low) := by
  obtain ⟨hzero, hsum⟩ := h
  have h0 : (x 0).val = 0 := by rw [hzero, ZMod.val_zero]
  have h1 := hx 1
  have h2 := hx 2
  have h3 := hx 3
  have hhigh' := high.isLt
  have hlow' := low.isLt
  rw [hhigh, hlow] at hsum
  have hnat : (low.toNat + high.toNat * 256) * 16 =
      (x 1).val + (x 2).val * 256 + (x 3).val * 65536 := by
    apply nat_eq_of_cast (by omega) (by omega)
    push_cast
    simp only [ZMod.natCast_val, ZMod.cast_id', id_eq]
    exact hsum
  rw [eq_u32ToLimbs_iff hx]
  apply BitVec.eq_of_toNat_eq
  rw [toNat_word hx, toNat_upperImmediate, packedNat]
  omega

/-- Columns that recombine to a number are its bits. -/
theorem bits_of_pack {n : ℕ} {f : Fin n → Felt} {x : ℕ} (hbool : ∀ i, AssertBool (f i))
    (hpack : pack (List.ofFn f) = x) (hx : x < 2 ^ n) (hn : 2 ^ n < modulus) :
    ∀ i : Fin n, f i = bit (x.testBit i) := by
  obtain ⟨y, hy, hpacked, hbits⟩ := Bits.exists_pack fun i => assertBool_iff.mp (hbool i)
  obtain rfl : y = x :=
    natCast_inj_of_lt (F := Felt) (hy.trans hn) (hx.trans hn) (hpacked.symm.trans hpack)
  exact hbits

theorem leBytes_jumpImmediate (high : BitVec 12) (low : BitVec 8) :
    leBytes (jumpImmediate high low) = ![high.toNat / 2 ^ 0 % 2 ^ 7 * 2,
      high.toNat / 2 ^ 7 % 2 ^ 4 + low.toNat / 2 ^ 0 % 2 ^ 4 * 16,
      low.toNat / 2 ^ 4 % 2 ^ 4 + high.toNat / 2 ^ 11 % 2 ^ 1 * 0xF0,
      high.toNat / 2 ^ 11 % 2 ^ 1 * 0xFF] := by
  have hhigh := high.isLt
  have hlow := low.isLt
  apply leBytes_of_digits
  · intro i
    fin_cases i <;> simp only [Fin.zero_eta, Fin.mk_one, Fin.reduceFinMk, Matrix.cons_val] <;>
      omega
  · rw [toNat_jumpImmediate]
    simp only [Matrix.cons_val]
    omega

/-- The bits of the two parts recombine to the bytes of the offset. -/
theorem immBytes_iff {F : Type*} [Field F] {c : JalColumns F}
    (h : ∀ i, c.immHigh12Bits i = bit (high.toNat.testBit i))
    (l : ∀ i, c.immLo8Bits i = bit (low.toNat.testBit i)) :
    c.immBytes ↔ c.immJ = u32ToLimbs (jumpImmediate high low) := by
  have hlimb := fun i => congrFun (leBytes_jumpImmediate high low) i
  -- Each byte recombines ranges of bits of the two parts.
  have h0 : u32ToLimbs (jumpImmediate high low) 0 = c.immHigh12Bits 0 * 2 +
      c.immHigh12Bits 1 * 4 + c.immHigh12Bits 2 * 8 + c.immHigh12Bits 3 * 16 +
      c.immHigh12Bits 4 * 32 + c.immHigh12Bits 5 * 64 + c.immHigh12Bits 6 * 128 := by
    rw [u32ToLimbs_apply, hlimb]
    simp only [Matrix.cons_val]
    rw [Nat.cast_mul, ← Bits.pack_testBit]
    simp [h]
    ring
  have h1 : u32ToLimbs (jumpImmediate high low) 1 = c.immHigh12Bits 7 + c.immHigh12Bits 8 * 2 +
      c.immHigh12Bits 9 * 4 + c.immHigh12Bits 10 * 8 + c.immLo8Bits 0 * 16 +
      c.immLo8Bits 1 * 32 + c.immLo8Bits 2 * 64 + c.immLo8Bits 3 * 128 := by
    rw [u32ToLimbs_apply, hlimb]
    simp only [Matrix.cons_val]
    rw [Nat.cast_add, Nat.cast_mul, ← Bits.pack_testBit, ← Bits.pack_testBit]
    simp [h, l]
    ring
  have h2 : u32ToLimbs (jumpImmediate high low) 2 = c.immLo8Bits 4 + c.immLo8Bits 5 * 2 +
      c.immLo8Bits 6 * 4 + c.immLo8Bits 7 * 8 + c.immHigh12Bits 11 * 0xF0 := by
    rw [u32ToLimbs_apply, hlimb]
    simp only [Matrix.cons_val]
    rw [Nat.cast_add, Nat.cast_mul, ← Bits.pack_testBit, ← Bits.pack_testBit]
    simp [h, l]
    ring
  have h3 : u32ToLimbs (jumpImmediate high low) 3 = c.immHigh12Bits 11 * 0xFF := by
    rw [u32ToLimbs_apply, hlimb]
    simp only [Matrix.cons_val]
    rw [Nat.cast_mul, ← Bits.pack_testBit]
    simp [h]
  constructor
  · rintro ⟨e0, e1, e2, e3⟩
    funext i
    fin_cases i
    · exact e0.trans h0.symm
    · exact e1.trans h1.symm
    · exact e2.trans h2.symm
    · exact e3.trans h3.symm
  · intro hbytes
    rw [JalColumns.immBytes, hbytes]
    exact ⟨h0, h1, h2, h3⟩

/-- The limbs added to the pc are the offset, put together and sign-extended. -/
theorem immJ_word {c : JalColumns Felt} (hbits : c.immBits) (hbytes : c.immBytes)
    (hhigh : c.immHigh12 = (high.toNat : Felt)) (hlow : c.immLo8 = (low.toNat : Felt)) :
    c.immJ = u32ToLimbs (jumpImmediate high low) := by
  obtain ⟨⟨hhighBool, hhighPack⟩, hlowBool, hlowPack⟩ := hbits
  have h := bits_of_pack hhighBool (hhighPack.symm.trans hhigh) high.isLt (by norm_num)
  have l := bits_of_pack hlowBool (hlowPack.symm.trans hlow) low.isLt (by norm_num)
  exact (immBytes_iff h l).mp hbytes

end Immediates

theorem add_row (c : AddColumns Felt) (heval : c.eval) (hbytes : SendsBytes c.ports.checks) :
    c.rdNewValue = u32ToLimbs (word c.rs1Value + word c.rs2Value) := by
  simp only [AddColumns.ports, RegisterColumns.ports, sendsBytes_append,
    sendsBytes_byteChecks] at hbytes
  obtain ⟨⟨hrs1, hrs2⟩, hrd⟩ := hbytes
  exact u32Add_word heval.2 hrs1 hrs2 hrd

theorem sub_row (c : SubColumns Felt) (heval : c.eval) (hbytes : SendsBytes c.ports.checks) :
    c.rdNewValue = u32ToLimbs (word c.rs1Value - word c.rs2Value) := by
  simp only [SubColumns.ports, RegisterColumns.ports, sendsBytes_append,
    sendsBytes_byteChecks] at hbytes
  obtain ⟨⟨hrs1, hrs2⟩, hrd⟩ := hbytes
  exact u32Sub_word heval.2 hrs1 hrs2 hrd

theorem bitLimbs_bit (b : Bool) : bitLimbs (bit b : Felt) = u32ToLimbs (if b then 1 else 0) := by
  cases b <;> decide

theorem sltu_row (c : SltuColumns Felt) (heval : c.eval) (hbytes : SendsBytes c.ports.checks) :
    bitLimbs c.ltResult = u32ToLimbs (if word c.rs1Bytes < word c.rs2Bytes then 1 else 0) := by
  obtain ⟨-, hcomp, hresult⟩ := heval
  simp only [SltuColumns.ports, RegisterColumns.ports, sendsBytes_append,
    sendsBytes_byteChecks] at hbytes
  obtain ⟨⟨hrs1, hrs2⟩, hdiff⟩ := hbytes
  rw [hresult, borrow_eq hcomp hrs1 hrs2 hdiff, bitLimbs_bit]
  simp only [BitVec.ult_iff_lt]

section Immediates

variable {high : BitVec 12} {low : BitVec 8}

theorem lui_row (c : LuiColumns Felt) (heval : luiEval c) (hbytes : SendsBytes (luiPorts c).checks)
    (hhigh : c.immHigh12 = (high.toNat : Felt)) (hlow : c.immLow8 = (low.toNat : Felt)) :
    c.rdVal = u32ToLimbs (upperImmediate high low) := by
  simp only [luiPorts, UpperColumns.ports, sendsBytes_byteChecks] at hbytes
  exact shiftedImm_word heval.2 hbytes hhigh hlow

theorem auipc_row (c : AuipcColumns Felt) (heval : c.eval) (hbytes : SendsBytes c.ports.checks)
    (hhigh : c.immHigh12 = (high.toNat : Felt)) (hlow : c.immLow8 = (low.toNat : Felt)) :
    c.rdVal = u32ToLimbs (word c.pc + upperImmediate high low) := by
  obtain ⟨-, hshift, hadd⟩ := heval
  simp only [AuipcColumns.ports, UpperColumns.ports, sendsBytes_append, sendsBytes_cons_cons,
    sendsBytes_byteChecks, sendsBytes_byte] at hbytes
  obtain ⟨⟨hpc, h1, h2, h3⟩, hrd⟩ := hbytes
  have himm : Bytes c.immU := by
    rw [Bytes, Fin.forall_fin_succ, Fin.forall_fin_succ, Fin.forall_fin_two]
    exact ⟨by rw [hshift.1]; decide, h1, h2, h3⟩
  have hword := shiftedImm_word hshift himm hhigh hlow
  rw [u32Add_word hadd hpc himm hrd, hword, word_u32ToLimbs]

/-- A jump that names a register writes the return address to it, and adds the offset to the pc. -/
theorem jal_row (c : JalColumns Felt) (hrd : c.rd ≠ 0) (heval : c.eval)
    (hbytes : SendsBytes c.ports.checks) (hhigh : c.immHigh12 = (high.toNat : Felt))
    (hlow : c.immLo8 = (low.toNat : Felt)) :
    c.ports.memoryMultiplicity = c.isDummy ∧ c.rdVal = u32ToLimbs (word c.pc + 4) ∧
      c.immJ = u32ToLimbs (jumpImmediate high low) := by
  obtain ⟨-, hbits, himm, -, hfour, -, hzero, -⟩ := heval
  simp only [JalColumns.ports, sendsBytes_append, sendsBytes_byteChecks] at hbytes
  obtain ⟨hpc, hval⟩ := hbytes
  refine ⟨?_, u32PlusFour_word hfour hpc hval, immJ_word hbits himm hhigh hlow⟩
  show c.isDummy * (1 - c.rdIsZero) = c.isDummy
  rw [(mul_eq_zero.mp hzero).resolve_left hrd, sub_zero, mul_one]

end Immediates

/-- The six carry chains determine what is written to `rd`, whatever carries, borrows, differences
and byte splits the row holds. -/
theorem carry_chains_sound (high : BitVec 12) (low : BitVec 8) :
    (∀ c : AddColumns Felt, c.eval → SendsBytes c.ports.checks →
      c.rdNewValue = u32ToLimbs (word c.rs1Value + word c.rs2Value)) ∧
    (∀ c : SubColumns Felt, c.eval → SendsBytes c.ports.checks →
      c.rdNewValue = u32ToLimbs (word c.rs1Value - word c.rs2Value)) ∧
    (∀ c : SltuColumns Felt, c.eval → SendsBytes c.ports.checks →
      bitLimbs c.ltResult = u32ToLimbs (if word c.rs1Bytes < word c.rs2Bytes then 1 else 0)) ∧
    (∀ c : LuiColumns Felt, luiEval c → SendsBytes (luiPorts c).checks →
      c.immHigh12 = (high.toNat : Felt) → c.immLow8 = (low.toNat : Felt) →
        c.rdVal = u32ToLimbs (upperImmediate high low)) ∧
    (∀ c : AuipcColumns Felt, c.eval → SendsBytes c.ports.checks →
      c.immHigh12 = (high.toNat : Felt) → c.immLow8 = (low.toNat : Felt) →
        c.rdVal = u32ToLimbs (word c.pc + upperImmediate high low)) ∧
    (∀ c : JalColumns Felt, c.rd ≠ 0 → c.eval → SendsBytes c.ports.checks →
      c.immHigh12 = (high.toNat : Felt) → c.immLo8 = (low.toNat : Felt) →
        c.ports.memoryMultiplicity = c.isDummy ∧ c.rdVal = u32ToLimbs (word c.pc + 4) ∧
          c.immJ = u32ToLimbs (jumpImmediate high low)) := by
  refine ⟨add_row, sub_row, sltu_row, ?_, ?_, ?_⟩
  · intro c heval hbytes hhigh hlow
    exact lui_row c heval hbytes hhigh hlow
  · intro c heval hbytes hhigh hlow
    exact auipc_row c heval hbytes hhigh hlow
  · intro c hrd heval hbytes hhigh hlow
    exact jal_row c hrd heval hbytes hhigh hlow

/-- `add x3, x1, x2` with 200 and 100. -/
def addRow : AddColumns Felt where
  pc := 0
  timestamp := 0
  rd := 3
  rs1 := 1
  rs2 := 2
  oldRdValue := 0
  nextPc := ![4, 0, 0, 0]
  nextPcCarries := 0
  isDummy := 1
  rs1Value := ![200, 0, 0, 0]
  rs2Value := ![100, 0, 0, 0]
  rdNewValue := ![44, 1, 0, 0]
  addCarries := ![1, 0, 0, 0]

/-- `sub x3, x2, x1` with 100 and 200. -/
def subRow : SubColumns Felt where
  pc := 0
  timestamp := 0
  rd := 3
  rs1 := 2
  rs2 := 1
  oldRdValue := 0
  nextPc := ![4, 0, 0, 0]
  nextPcCarries := 0
  isDummy := 1
  rs1Value := ![100, 0, 0, 0]
  rs2Value := ![200, 0, 0, 0]
  rdNewValue := ![0x9C, 0xFF, 0xFF, 0xFF]
  subBorrows := 1

/-- `sltu x3, x2, x1` with 100 and 200. -/
def sltuRow : SltuColumns Felt where
  pc := 0
  timestamp := 0
  rd := 3
  rs1 := 2
  rs2 := 1
  oldRdValue := 0
  nextPc := ![4, 0, 0, 0]
  nextPcCarries := 0
  isDummy := 1
  rs1Bytes := ![100, 0, 0, 0]
  rs2Bytes := ![200, 0, 0, 0]
  diffBytes := ![0x9C, 0xFF, 0xFF, 0xFF]
  borrow := 1
  ltResult := 1

/-- `lui x3, 0x80001`. -/
def luiHighRow : LuiColumns Felt where
  pc := 0
  timestamp := 0
  rd := 3
  immLow8 := 0x01
  immHigh12 := 0x800
  rdVal := ![0, 0x10, 0, 0x80]
  oldRdValue := 0
  nextPc := ![4, 0, 0, 0]
  nextPcCarries := 0
  isDummy := 1

/-- `auipc x3, 0x80001` at address 4. -/
def auipcHighRow : AuipcColumns Felt where
  pc := ![4, 0, 0, 0]
  timestamp := 0
  rd := 3
  immLow8 := 0x01
  immHigh12 := 0x800
  rdVal := ![4, 0x10, 0, 0x80]
  oldRdValue := 0
  nextPc := ![8, 0, 0, 0]
  nextPcCarries := 0
  isDummy := 1
  immU := ![0, 0x10, 0, 0x80]
  addCarries := 0

/-- `jal x1, -2` at address 8. -/
def jalBackRow : JalColumns Felt where
  pc := ![8, 0, 0, 0]
  timestamp := 0
  rd := 1
  immHigh12 := 0xFFF
  immLo8 := 0xFF
  immHigh12Bits := 1
  immLo8Bits := 1
  immJ := ![0xFE, 0xFF, 0xFF, 0xFF]
  jmpCarries := 1
  rdVal := ![12, 0, 0, 0]
  rdValCarries := 0
  oldRdValue := 0
  nextPc := ![6, 0, 0, 0]
  rdIsZero := 0
  rdInv := 1
  isDummy := 1

theorem carry_chains_sound_rows :
    addRow.rdNewValue = u32ToLimbs (200 + 100) ∧ subRow.rdNewValue = u32ToLimbs (100 - 200) ∧
      bitLimbs sltuRow.ltResult = u32ToLimbs (if (100 : U32) < 200 then 1 else 0) ∧
      luiHighRow.rdVal = u32ToLimbs (upperImmediate 0x800 0x01) ∧
      auipcHighRow.rdVal = u32ToLimbs (4 + upperImmediate 0x800 0x01) ∧
      jalBackRow.rdVal = u32ToLimbs (8 + 4) ∧
        jalBackRow.immJ = u32ToLimbs (jumpImmediate 0xFFF 0xFF) := by
  obtain ⟨hadd, hsub, hsltu, hlui, hauipc, -⟩ := carry_chains_sound 0x800 0x01
  obtain ⟨-, -, -, -, -, hjal⟩ := carry_chains_sound 0xFFF 0xFF
  refine ⟨hadd addRow (by decide) ?_, hsub subRow (by decide) ?_, hsltu sltuRow (by decide) ?_,
    hlui luiHighRow (by decide) ?_ rfl rfl, hauipc auipcHighRow (by decide) ?_ rfl rfl,
    (hjal jalBackRow (by decide) (by decide) ?_ rfl rfl).2⟩
  · simp only [AddColumns.ports, RegisterColumns.ports, sendsBytes_append, sendsBytes_byteChecks]
    decide
  · simp only [SubColumns.ports, RegisterColumns.ports, sendsBytes_append, sendsBytes_byteChecks]
    decide
  · simp only [SltuColumns.ports, RegisterColumns.ports, sendsBytes_append, sendsBytes_byteChecks]
    decide
  · simp only [luiPorts, UpperColumns.ports, sendsBytes_byteChecks]
    decide
  · simp only [AuipcColumns.ports, UpperColumns.ports, sendsBytes_append, sendsBytes_cons_cons,
      sendsBytes_byteChecks, sendsBytes_byte]
    decide
  · simp only [JalColumns.ports, sendsBytes_append, sendsBytes_byteChecks]
    decide

end Loquela.Soundness
