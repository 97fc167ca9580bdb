import Loquela.Vm.Runs

/-! # The assembler of the tests

The tests of the prover write their programs with one encoder for each instruction. The decoder
reads back what an encoder writes exactly if the immediate fits its field, and it accepts no other
words. So a program without jumps runs through the instructions that it was written with.
-/

namespace Loquela.Vm
open Loquela.Library Loquela.Rv32i

section Encoders

/-- `to_le_bytes`. -/
def toLeBytes (word : U32) : List Byte :=
  [word.extractLsb' 0 8, word.extractLsb' 8 8, word.extractLsb' 16 8, word.extractLsb' 24 8]

variable (rd rs1 rs2 shamt : Byte) (imm : BitVec 16)

/-- The encoders that take twelve bits of an immediate. Here and below the source leaves out a field
that is zero. -/
def encodeImmediate (funct3 opcode imm : U32) : U32 :=
  (imm &&& 0xFFF) <<< 20 ||| rs1.setWidth 32 <<< 15 ||| funct3 <<< 12 ||| rd.setWidth 32 <<< 7 |||
    opcode

/-- The encoders that take a shift amount. -/
def encodeShift (funct7 funct3 : U32) : U32 :=
  funct7 <<< 25 ||| (shamt.setWidth 32 &&& 0x1F) <<< 20 ||| rs1.setWidth 32 <<< 15 |||
    funct3 <<< 12 ||| rd.setWidth 32 <<< 7 ||| 0b0010011

/-- The encoders that take three registers. -/
def encodeRegister (funct7 funct3 : U32) : U32 :=
  funct7 <<< 25 ||| rs2.setWidth 32 <<< 20 ||| rs1.setWidth 32 <<< 15 ||| funct3 <<< 12 |||
    rd.setWidth 32 <<< 7 ||| 0b0110011

/-- The encoders that take an immediate of twenty bits, unshifted. -/
def encodeUpper (opcode immRaw : U32) : U32 :=
  immRaw <<< 12 ||| rd.setWidth 32 <<< 7 ||| opcode

def encodeAddi : List Byte := toLeBytes (encodeImmediate rd rs1 0b000 0b0010011 (imm.signExtend 32))

def encodeXori : List Byte := toLeBytes (encodeImmediate rd rs1 0b100 0b0010011 (imm.signExtend 32))

def encodeOri : List Byte := toLeBytes (encodeImmediate rd rs1 0b110 0b0010011 (imm.signExtend 32))

def encodeAndi : List Byte := toLeBytes (encodeImmediate rd rs1 0b111 0b0010011 (imm.signExtend 32))

def encodeSlti : List Byte := toLeBytes (encodeImmediate rd rs1 0b010 0b0010011 (imm.signExtend 32))

def encodeSltiu : List Byte :=
  toLeBytes (encodeImmediate rd rs1 0b011 0b0010011 (imm.signExtend 32))

/-- The immediate of this one is an `i32`. -/
def encodeJalr (imm : U32) : List Byte := toLeBytes (encodeImmediate rd rs1 0b000 0b1100111 imm)

def encodeSlli : List Byte := toLeBytes (encodeShift rd rs1 shamt 0b0000000 0b001)

def encodeSrli : List Byte := toLeBytes (encodeShift rd rs1 shamt 0b0000000 0b101)

def encodeSrai : List Byte := toLeBytes (encodeShift rd rs1 shamt 0b0100000 0b101)

def encodeAdd : List Byte := toLeBytes (encodeRegister rd rs1 rs2 0b0000000 0b000)

def encodeSub : List Byte := toLeBytes (encodeRegister rd rs1 rs2 0b0100000 0b000)

def encodeXor : List Byte := toLeBytes (encodeRegister rd rs1 rs2 0b0000000 0b100)

def encodeOr : List Byte := toLeBytes (encodeRegister rd rs1 rs2 0b0000000 0b110)

def encodeAnd : List Byte := toLeBytes (encodeRegister rd rs1 rs2 0b0000000 0b111)

def encodeSll : List Byte := toLeBytes (encodeRegister rd rs1 rs2 0b0000000 0b001)

def encodeSrl : List Byte := toLeBytes (encodeRegister rd rs1 rs2 0b0000000 0b101)

def encodeSra : List Byte := toLeBytes (encodeRegister rd rs1 rs2 0b0100000 0b101)

def encodeSlt : List Byte := toLeBytes (encodeRegister rd rs1 rs2 0b0000000 0b010)

def encodeSltu : List Byte := toLeBytes (encodeRegister rd rs1 rs2 0b0000000 0b011)

def encodeLui (immRaw : U32) : List Byte := toLeBytes (encodeUpper rd 0b0110111 immRaw)

def encodeAuipc (immRaw : U32) : List Byte := toLeBytes (encodeUpper rd 0b0010111 immRaw)

def encodeJal (imm : U32) : List Byte :=
  let imm20 := imm >>> 20 &&& 1
  let imm10_1 := imm >>> 1 &&& 0x3FF
  let imm11 := imm >>> 11 &&& 1
  let imm19_12 := imm >>> 12 &&& 0xFF
  toLeBytes (imm20 <<< 31 ||| imm10_1 <<< 21 ||| imm11 <<< 20 ||| imm19_12 <<< 12 |||
    rd.setWidth 32 <<< 7 ||| 0b1101111)

end Encoders

/-- The encoder of an instruction, called with its fields. -/
def assemble : Instruction → List Byte
  | .addI rd rs1 imm => encodeAddi (rd.setWidth 8) (rs1.setWidth 8) imm
  | .xorI rd rs1 imm => encodeXori (rd.setWidth 8) (rs1.setWidth 8) imm
  | .oriI rd rs1 imm => encodeOri (rd.setWidth 8) (rs1.setWidth 8) imm
  | .andiI rd rs1 imm => encodeAndi (rd.setWidth 8) (rs1.setWidth 8) imm
  | .slliI rd rs1 imm => encodeSlli (rd.setWidth 8) (rs1.setWidth 8) (imm.setWidth 8)
  | .srliI rd rs1 imm => encodeSrli (rd.setWidth 8) (rs1.setWidth 8) (imm.setWidth 8)
  | .sraiI rd rs1 imm => encodeSrai (rd.setWidth 8) (rs1.setWidth 8) (imm.setWidth 8)
  | .add rd rs1 rs2 => encodeAdd (rd.setWidth 8) (rs1.setWidth 8) (rs2.setWidth 8)
  | .sub rd rs1 rs2 => encodeSub (rd.setWidth 8) (rs1.setWidth 8) (rs2.setWidth 8)
  | .xor rd rs1 rs2 => encodeXor (rd.setWidth 8) (rs1.setWidth 8) (rs2.setWidth 8)
  | .or rd rs1 rs2 => encodeOr (rd.setWidth 8) (rs1.setWidth 8) (rs2.setWidth 8)
  | .and rd rs1 rs2 => encodeAnd (rd.setWidth 8) (rs1.setWidth 8) (rs2.setWidth 8)
  | .sll rd rs1 rs2 => encodeSll (rd.setWidth 8) (rs1.setWidth 8) (rs2.setWidth 8)
  | .srl rd rs1 rs2 => encodeSrl (rd.setWidth 8) (rs1.setWidth 8) (rs2.setWidth 8)
  | .sra rd rs1 rs2 => encodeSra (rd.setWidth 8) (rs1.setWidth 8) (rs2.setWidth 8)
  | .slt rd rs1 rs2 => encodeSlt (rd.setWidth 8) (rs1.setWidth 8) (rs2.setWidth 8)
  | .sltu rd rs1 rs2 => encodeSltu (rd.setWidth 8) (rs1.setWidth 8) (rs2.setWidth 8)
  | .sltiI rd rs1 imm => encodeSlti (rd.setWidth 8) (rs1.setWidth 8) (imm.setWidth 16)
  | .sltiuI rd rs1 imm => encodeSltiu (rd.setWidth 8) (rs1.setWidth 8) (imm.setWidth 16)
  | .lui rd imm => encodeLui (rd.setWidth 8) imm
  | .auipc rd imm => encodeAuipc (rd.setWidth 8) imm
  | .jal rd imm => encodeJal (rd.setWidth 8) imm
  | .jalr rd rs1 imm => encodeJalr (rd.setWidth 8) (rs1.setWidth 8) imm

/-- The immediates that the fields of an instruction word can hold. -/
def Instruction.InFormat : Instruction → Prop
  | .addI _ _ imm | .xorI _ _ imm | .oriI _ _ imm | .andiI _ _ imm =>
    -2 ^ 11 ≤ imm.toInt ∧ imm.toInt < 2 ^ 11
  | .sltiI _ _ imm | .sltiuI _ _ imm | .jalr _ _ imm => -2 ^ 11 ≤ imm.toInt ∧ imm.toInt < 2 ^ 11
  | .slliI _ _ imm | .srliI _ _ imm | .sraiI _ _ imm => imm.toNat < 2 ^ 5
  | .lui _ imm | .auipc _ imm => imm.toNat < 2 ^ 20
  | .jal _ imm => (-2 ^ 20 ≤ imm.toInt ∧ imm.toInt < 2 ^ 20) ∧ imm.toNat % 2 = 0
  | _ => True

/-- The RV32I instruction with the operands cut down to its fields. -/
def toRv32i : Instruction → Instr
  | .addI rd rs1 imm => .opImm .addi rd rs1 (imm.setWidth 12)
  | .xorI rd rs1 imm => .opImm .xori rd rs1 (imm.setWidth 12)
  | .oriI rd rs1 imm => .opImm .ori rd rs1 (imm.setWidth 12)
  | .andiI rd rs1 imm => .opImm .andi rd rs1 (imm.setWidth 12)
  | .slliI rd rs1 imm => .shiftImm .slli rd rs1 (imm.setWidth 5)
  | .srliI rd rs1 imm => .shiftImm .srli rd rs1 (imm.setWidth 5)
  | .sraiI rd rs1 imm => .shiftImm .srai rd rs1 (imm.setWidth 5)
  | .add rd rs1 rs2 => .opReg .add rd rs1 rs2
  | .sub rd rs1 rs2 => .opReg .sub rd rs1 rs2
  | .xor rd rs1 rs2 => .opReg .xor rd rs1 rs2
  | .or rd rs1 rs2 => .opReg .or rd rs1 rs2
  | .and rd rs1 rs2 => .opReg .and rd rs1 rs2
  | .sll rd rs1 rs2 => .opReg .sll rd rs1 rs2
  | .srl rd rs1 rs2 => .opReg .srl rd rs1 rs2
  | .sra rd rs1 rs2 => .opReg .sra rd rs1 rs2
  | .slt rd rs1 rs2 => .opReg .slt rd rs1 rs2
  | .sltu rd rs1 rs2 => .opReg .sltu rd rs1 rs2
  | .sltiI rd rs1 imm => .opImm .slti rd rs1 (imm.setWidth 12)
  | .sltiuI rd rs1 imm => .opImm .sltiu rd rs1 (imm.setWidth 12)
  | .lui rd imm => .lui rd (imm.setWidth 20)
  | .auipc rd imm => .auipc rd (imm.setWidth 20)
  | .jal rd imm => .jal rd (imm.extractLsb' 1 20)
  | .jalr rd rs1 imm => .jalr rd rs1 (imm.setWidth 12)

/-- An offset and its lowest bit. -/
theorem append_zero_eq_iff (x : U32) :
    (x.extractLsb' 1 20 ++ (0 : BitVec 1)).signExtend 32 = x ↔
      (-2 ^ 20 ≤ x.toInt ∧ x.toInt < 2 ^ 20) ∧ x.toNat % 2 = 0 := by
  rw [← BitFields.signExtend_setWidth_eq_iff (m := 21) (by omega) (by omega)]
  constructor
  · intro heq
    have hwidth : x.setWidth 21 = x.extractLsb' 1 20 ++ (0 : BitVec 1) := by
      rw [← heq, BitFields.setWidth_signExtend (by omega), BitVec.signExtend_eq, heq]
    refine ⟨by rw [hwidth, heq], even_of_getLsbD ?_⟩
    have hlow : ∀ y : BitVec 20, ((y ++ (0 : BitVec 1)).signExtend 32).getLsbD 0 = false := by
      intro y
      rw [BitVec.getLsbD_signExtend, if_pos (by decide), BitVec.getLsbD_append]
      rfl
    exact heq ▸ hlow (x.extractLsb' 1 20)
  · rintro ⟨heq, heven⟩
    rw [← heq]
    congr 1
    apply BitVec.eq_of_toNat_eq
    rw [heq, BitFields.toNat_append, BitFields.toNat_extractLsb', BitVec.toNat_setWidth]
    simp
    omega

theorem toRv32i_ofRv32i (i : Instr) : toRv32i (ofRv32i i) = i := by
  cases i with
  | opImm op rd rs1 imm => cases op <;> simp [ofRv32i, toRv32i, BitFields.setWidth_signExtend]
  | shiftImm op rd rs1 shamt => cases op <;> simp [ofRv32i, toRv32i]
  | opReg op rd rs1 rs2 => cases op <;> rfl
  | lui rd imm => simp [ofRv32i, toRv32i]
  | auipc rd imm => simp [ofRv32i, toRv32i]
  | jal rd offset =>
    have hwidth : ((offset ++ (0 : BitVec 1)).signExtend 32).setWidth 21 =
        offset ++ (0 : BitVec 1) := by
      rw [BitFields.setWidth_signExtend (by omega), BitVec.signExtend_eq]
    rw [ofRv32i, toRv32i, BitFields.extractLsb'_of_setWidth hwidth (by omega),
      BitVec.extractLsb'_append_eq_of_le (by omega), BitVec.extractLsb'_eq_self]
  | jalr rd rs1 imm => simp [ofRv32i, toRv32i, BitFields.setWidth_signExtend]

theorem ofRv32i_toRv32i_iff (x : Instruction) : ofRv32i (toRv32i x) = x ↔ x.InFormat := by
  have himm16 := fun imm : BitVec 16 => BitFields.signExtend_setWidth_eq_iff (m := 12) (by omega) (by omega) imm
  have himm32 := fun imm : U32 => BitFields.signExtend_setWidth_eq_iff (m := 12) (by omega) (by omega) imm
  have hshamt := fun imm : U32 => BitFields.setWidth_setWidth_eq_iff (m := 5) imm
  have hupper := fun imm : U32 => BitFields.setWidth_setWidth_eq_iff (m := 20) imm
  cases x with
  | addI | xorI | oriI | andiI =>
    simp only [toRv32i, ofRv32i, Instruction.InFormat, Instruction.addI.injEq,
      Instruction.xorI.injEq, Instruction.oriI.injEq, Instruction.andiI.injEq, true_and, himm16]
  | sltiI | sltiuI | jalr =>
    simp only [toRv32i, ofRv32i, Instruction.InFormat, Instruction.sltiI.injEq,
      Instruction.sltiuI.injEq, Instruction.jalr.injEq, true_and, himm32]
  | slliI | srliI | sraiI =>
    simp only [toRv32i, ofRv32i, Instruction.InFormat, Instruction.slliI.injEq,
      Instruction.srliI.injEq, Instruction.sraiI.injEq, true_and, hshamt]
  | lui | auipc =>
    simp only [toRv32i, ofRv32i, Instruction.InFormat, Instruction.lui.injEq,
      Instruction.auipc.injEq, true_and, hupper]
  | jal rd imm =>
    simp only [toRv32i, ofRv32i, Instruction.InFormat, Instruction.jal.injEq, true_and,
      append_zero_eq_iff]
  | _ => exact iff_of_true rfl trivial

section Words

variable (rd rs1 rs2 : Register) (funct3 : BitVec 3) (funct7 opcode : BitVec 7)

theorem encodeImmediate_eq (imm : U32) :
    encodeImmediate (rd.setWidth 8) (rs1.setWidth 8) (funct3.setWidth 32) (opcode.setWidth 32) imm =
      iType (imm.setWidth 12) rs1 funct3 rd opcode := by
  have hmask : imm &&& 0xFFF = (imm.setWidth 12).setWidth 32 := BitFields.and_low (n := 12) (by omega) imm
  rw [← BitVec.setWidth_eq (iType (imm.setWidth 12) rs1 funct3 rd opcode), encodeImmediate, hmask,
    iType]
  simp only [BitFields.setWidth_append, BitVec.shiftLeft_or_distrib, ← BitVec.shiftLeft_add]
  simp

theorem encodeShift_eq (shamt : Byte) :
    encodeShift (rd.setWidth 8) (rs1.setWidth 8) shamt (funct7.setWidth 32) (funct3.setWidth 32) =
      rType funct7 (shamt.setWidth 5) rs1 funct3 rd 0b0010011 := by
  have hmask : shamt.setWidth 32 &&& 0x1F = (shamt.setWidth 5).setWidth 32 := by
    rw [← BitVec.setWidth_setWidth_of_le shamt (by omega : 5 ≤ 32)]
    exact BitFields.and_low (n := 5) (by omega) _
  rw [← BitVec.setWidth_eq (rType funct7 (shamt.setWidth 5) rs1 funct3 rd _), encodeShift, hmask,
    rType]
  simp only [BitFields.setWidth_append, BitVec.shiftLeft_or_distrib, ← BitVec.shiftLeft_add]
  simp

theorem encodeRegister_eq :
    encodeRegister (rd.setWidth 8) (rs1.setWidth 8) (rs2.setWidth 8) (funct7.setWidth 32)
      (funct3.setWidth 32) = rType funct7 rs2 rs1 funct3 rd 0b0110011 := by
  rw [← BitVec.setWidth_eq (rType funct7 rs2 rs1 funct3 rd _), encodeRegister, rType]
  simp only [BitFields.setWidth_append, BitVec.shiftLeft_or_distrib, ← BitVec.shiftLeft_add]
  simp

theorem encodeUpper_eq (immRaw : U32) :
    encodeUpper (rd.setWidth 8) (opcode.setWidth 32) immRaw =
      uType (immRaw.setWidth 20) rd opcode := by
  have hshift : immRaw <<< 12 = (immRaw.setWidth 20).setWidth 32 <<< 12 := by
    apply BitVec.eq_of_toNat_eq
    simp only [BitVec.toNat_shiftLeft, BitVec.toNat_setWidth, Nat.shiftLeft_eq]
    omega
  rw [← BitVec.setWidth_eq (uType (immRaw.setWidth 20) rd opcode), encodeUpper, hshift, uType]
  simp only [BitFields.setWidth_append, BitVec.shiftLeft_or_distrib, ← BitVec.shiftLeft_add]
  simp

theorem encodeJal_eq (imm : U32) :
    encodeJal (rd.setWidth 8) imm = toLeBytes (jType (imm.extractLsb' 1 20) rd 0b1101111) := by
  have h20 : imm >>> 20 &&& 1 = (imm.extractLsb' 20 1).setWidth 32 :=
    BitFields.ushiftRight_and_mask imm 20 1
  have h10 : imm >>> 1 &&& 0x3FF = (imm.extractLsb' 1 10).setWidth 32 :=
    BitFields.ushiftRight_and_mask imm 1 10
  have h11 : imm >>> 11 &&& 1 = (imm.extractLsb' 11 1).setWidth 32 :=
    BitFields.ushiftRight_and_mask imm 11 1
  have h19 : imm >>> 12 &&& 0xFF = (imm.extractLsb' 12 8).setWidth 32 :=
    BitFields.ushiftRight_and_mask imm 12 8
  have hfield : ∀ {k n : Nat}, k + n ≤ 20 →
      (imm.extractLsb' 1 20).extractLsb' k n = imm.extractLsb' (1 + k) n := by
    intro k n h
    apply BitVec.eq_of_getLsbD_eq
    intro i hi
    have hk : k + i < 20 := by omega
    simp [hi, hk, Nat.add_assoc]
  rw [encodeJal, ← BitVec.setWidth_eq (jType _ rd _), jType, hfield (by omega), hfield (by omega),
    hfield (by omega), hfield (by omega), h20, h10, h11, h19]
  simp only [BitFields.setWidth_append, BitVec.shiftLeft_or_distrib, ← BitVec.shiftLeft_add]
  simp

end Words

/-- An instruction is assembled to the RV32I encoding of its fields. -/
theorem assemble_eq (x : Instruction) : assemble x = toLeBytes (toRv32i x).encode := by
  have hopImm : ∀ (rd rs1 : Register) (op : ImmOp) (imm : BitVec 16),
      encodeImmediate (rd.setWidth 8) (rs1.setWidth 8) (op.funct3.setWidth 32) 0b0010011
        (imm.signExtend 32) = (Instr.opImm op rd rs1 (imm.setWidth 12)).encode := by
    intro rd rs1 op imm
    have himm : (imm.signExtend 32).setWidth 12 = imm.setWidth 12 := by
      rw [BitFields.setWidth_signExtend (by omega), BitVec.signExtend_eq_setWidth_of_le _ (by omega)]
    exact himm ▸ encodeImmediate_eq rd rs1 op.funct3 0b0010011 (imm.signExtend 32)
  have himm32 : ∀ imm : U32, (imm.setWidth 16).setWidth 12 = imm.setWidth 12 := fun imm =>
    BitVec.setWidth_setWidth_of_le _ (by omega)
  have hshift : ∀ (rd rs1 : Register) (op : ShiftOp) (imm : U32),
      encodeShift (rd.setWidth 8) (rs1.setWidth 8) (imm.setWidth 8) (op.funct7.setWidth 32)
        (op.funct3.setWidth 32) = (Instr.shiftImm op rd rs1 (imm.setWidth 5)).encode := by
    intro rd rs1 op imm
    have hshamt : (imm.setWidth 8).setWidth 5 = imm.setWidth 5 :=
      BitVec.setWidth_setWidth_of_le _ (by omega)
    exact hshamt ▸ encodeShift_eq rd rs1 op.funct3 op.funct7 (imm.setWidth 8)
  have hopReg := fun (rd rs1 rs2 : Register) (op : RegOp) =>
    encodeRegister_eq rd rs1 rs2 op.funct3 op.funct7
  cases x with
  | addI rd rs1 imm => exact congrArg toLeBytes (hopImm rd rs1 .addi imm)
  | xorI rd rs1 imm => exact congrArg toLeBytes (hopImm rd rs1 .xori imm)
  | oriI rd rs1 imm => exact congrArg toLeBytes (hopImm rd rs1 .ori imm)
  | andiI rd rs1 imm => exact congrArg toLeBytes (hopImm rd rs1 .andi imm)
  | sltiI rd rs1 imm =>
    rw [toRv32i, ← himm32]
    exact congrArg toLeBytes (hopImm rd rs1 .slti (imm.setWidth 16))
  | sltiuI rd rs1 imm =>
    rw [toRv32i, ← himm32]
    exact congrArg toLeBytes (hopImm rd rs1 .sltiu (imm.setWidth 16))
  | slliI rd rs1 imm => exact congrArg toLeBytes (hshift rd rs1 .slli imm)
  | srliI rd rs1 imm => exact congrArg toLeBytes (hshift rd rs1 .srli imm)
  | sraiI rd rs1 imm => exact congrArg toLeBytes (hshift rd rs1 .srai imm)
  | add rd rs1 rs2 => exact congrArg toLeBytes (hopReg rd rs1 rs2 .add)
  | sub rd rs1 rs2 => exact congrArg toLeBytes (hopReg rd rs1 rs2 .sub)
  | xor rd rs1 rs2 => exact congrArg toLeBytes (hopReg rd rs1 rs2 .xor)
  | or rd rs1 rs2 => exact congrArg toLeBytes (hopReg rd rs1 rs2 .or)
  | and rd rs1 rs2 => exact congrArg toLeBytes (hopReg rd rs1 rs2 .and)
  | sll rd rs1 rs2 => exact congrArg toLeBytes (hopReg rd rs1 rs2 .sll)
  | srl rd rs1 rs2 => exact congrArg toLeBytes (hopReg rd rs1 rs2 .srl)
  | sra rd rs1 rs2 => exact congrArg toLeBytes (hopReg rd rs1 rs2 .sra)
  | slt rd rs1 rs2 => exact congrArg toLeBytes (hopReg rd rs1 rs2 .slt)
  | sltu rd rs1 rs2 => exact congrArg toLeBytes (hopReg rd rs1 rs2 .sltu)
  | lui rd imm => exact congrArg toLeBytes (encodeUpper_eq rd 0b0110111 imm)
  | auipc rd imm => exact congrArg toLeBytes (encodeUpper_eq rd 0b0010111 imm)
  | jal rd imm => exact encodeJal_eq rd imm
  | jalr rd rs1 imm => exact congrArg toLeBytes (encodeImmediate_eq rd rs1 0b000 0b1100111 imm)

section Line

def Instruction.isJump : Instruction → Bool
  | .jal _ _ | .jalr _ _ _ => true
  | _ => false

/-- The registers after instructions that are executed one after the other. -/
def line : U32 → Registers → List Instruction → Registers
  | _, registers, [] => registers
  | pc, registers, x :: xs => line (pc + 4) (execute registers 0 pc x).registers xs

/-- The instructions that a machine has executed. -/
def VM.instructions (vm : VM) : List Instruction := vm.trace.map fun step => step.instruction

theorem length_assembled (xs : List Instruction) : (xs.flatMap assemble).length = 4 * xs.length := by
  have hfour : ∀ x, (assemble x).length = 4 := fun x => by
    rw [assemble_eq]
    rfl
  induction xs with
  | nil => rfl
  | cons x xs ih =>
    rw [List.flatMap_cons, List.length_append, hfour, ih, List.length_cons]
    omega

/-- The word of an instruction lies behind the words before it. -/
theorem stored_assembled (before after : List Instruction) (x : Instruction) :
    Stored ((before ++ x :: after).flatMap assemble) (4 * before.length) (toRv32i x).encode := by
  intro k hk
  rw [List.flatMap_append, List.getElem?_append_right (by rw [length_assembled]; omega),
    length_assembled, Nat.add_sub_cancel_left, List.flatMap_cons, assemble_eq]
  obtain rfl | rfl | rfl | rfl : k = 0 ∨ k = 1 ∨ k = 2 ∨ k = 3 := by omega
  all_goals rfl

theorem isJump_toRv32i (x : Instruction) : (toRv32i x).isJump = x.isJump := by
  cases x <;> rfl

variable {before after : List Instruction}

/-- An instruction that does not jump is one step. -/
theorem step_assembled {x : Instruction} {vm : VM}
    (hprogram : vm.program = (before ++ x :: after).flatMap assemble)
    (hpc : vm.pc.toNat = 4 * before.length) (hlt : vm.pc.toNat + 4 < 2 ^ 32) (hx : x.InFormat)
    (hjump : x.isJump = false) : ∃ vm' step, vm.step = some vm' ∧ vm'.program = vm.program ∧
      vm'.pc = vm.pc + 4 ∧ vm'.registers = (execute vm.registers 0 vm.pc x).registers ∧
      vm'.trace = vm.trace ++ [step] ∧ step.state.pc = vm.pc ∧ step.instruction = x := by
  have hsame := (ofRv32i_toRv32i_iff x).mpr hx
  have hi : ¬ (toRv32i x).isJump := by rw [isJump_toRv32i, hjump]; exact Bool.false_ne_true
  have hfetch : fetch vm.program vm.pc = some (toRv32i x).encode :=
    fetch_of_stored (hprogram ▸ hpc ▸ stored_assembled before after x)
  refine ⟨vm.after (toRv32i x) (vm.pc + 4), _, ?_, rfl, rfl, ?_, rfl, rfl, hsame⟩
  · rw [step_of_fetch hfetch, next_of_not_isJump hi, if_pos hlt]
    rfl
  · rw [after_registers, ← hsame, execute_ofRv32i, hsame]

/-- Instructions that do not jump are executed in their order. -/
theorem steps_assembled (before : List Instruction) (vm : VM)
    (hprogram : vm.program = (before ++ after).flatMap assemble)
    (hpc : vm.pc.toNat = 4 * before.length) (hlt : vm.pc.toNat + 4 * after.length < 2 ^ 32)
    (hformat : ∀ x ∈ after, x.InFormat) (hjump : ∀ x ∈ after, x.isJump = false) :
    ∃ vm', Library.Iteration.iterate VM.step after.length vm = some vm' ∧ vm'.program = vm.program ∧
      vm'.instructions = vm.instructions ++ after ∧
      vm'.pcs = vm.pcs ++ (List.range after.length).map (fun k => vm.pc.toNat + 4 * k) ∧
      vm'.registers = line vm.pc vm.registers after ∧
      vm'.pc.toNat = vm.pc.toNat + 4 * after.length := by
  induction after generalizing before vm with
  | nil =>
    exact ⟨vm, rfl, rfl, (List.append_nil _).symm, (List.append_nil _).symm, rfl, rfl⟩
  | cons x after ih =>
    rw [List.length_cons] at hlt
    obtain ⟨mid, step, hstep, hsame, hnext, hregisters, htrace, hat, hinstr⟩ :=
      step_assembled hprogram hpc (by omega) (hformat x List.mem_cons_self)
        (hjump x List.mem_cons_self)
    have hmid : mid.pc.toNat = vm.pc.toNat + 4 := by
      rw [hnext, BitVec.toNat_add, show (4 : U32).toNat = 4 from rfl]
      exact Nat.mod_eq_of_lt (by omega)
    obtain ⟨vm', hsteps, hsame', hinstrs, hpcs, hregisters', hpc'⟩ :=
      ih (before ++ [x]) mid (by rw [hsame, hprogram, List.append_assoc]; rfl)
        (by rw [hmid, hpc, List.length_append]; rfl) (by omega)
        (fun y hy => hformat y (List.mem_cons_of_mem x hy))
        (fun y hy => hjump y (List.mem_cons_of_mem x hy))
    refine ⟨vm', ?_, hsame'.trans hsame, ?_, ?_, ?_, ?_⟩
    · rw [List.length_cons, Library.Iteration.iterate_succ_left, hstep]
      exact hsteps
    · rw [hinstrs, VM.instructions, htrace, List.map_append, List.map_singleton, hinstr,
        List.append_assoc]
      rfl
    · have hshift : ∀ k, vm.pc.toNat + 4 + 4 * k = vm.pc.toNat + 4 * (k + 1) := fun k => by omega
      rw [hpcs, VM.pcs, htrace, List.map_append, List.map_singleton, hat, List.append_assoc,
        List.length_cons, List.range_succ_eq_map, List.map_cons, List.map_map, hmid]
      simp only [hshift, Function.comp_def, Nat.succ_eq_add_one, List.singleton_append,
        Nat.mul_zero, Nat.add_zero, VM.pcs]
    · rw [hregisters', hregisters, hnext]
      rfl
    · rw [hpc', hmid, List.length_cons]
      omega

/-- A program without jumps ends after its last instruction: each instruction was executed once, in
the order of the program, and read back as it was written. -/
theorem run_assembled {xs : List Instruction} (hformat : ∀ x ∈ xs, x.InFormat)
    (hjump : ∀ x ∈ xs, x.isJump = false) (hlength : 4 * xs.length < 2 ^ 32) :
    ∃ vm, (VM.new (xs.flatMap assemble)).steps xs.length = some vm ∧
      VM.run (xs.length + 1) (VM.new (xs.flatMap assemble)) = some vm ∧
      vm.instructions = xs ∧ vm.pcs = (List.range xs.length).map (fun k => 4 * k) ∧
      vm.registers = line 0 (fun _ => 0) xs := by
  obtain ⟨vm, hsteps, hprogram, hinstrs, hpcs, hregisters, hpc⟩ :=
    steps_assembled [] (VM.new (xs.flatMap assemble)) rfl rfl ((Nat.zero_add _).trans_lt hlength)
      hformat hjump
  have hsteps := (steps_eq_iterate _ _).trans hsteps
  refine ⟨vm, hsteps, ?_, hinstrs, ?_, hregisters⟩
  · rw [run_of_steps hsteps, VM.run, if_neg]
    rw [hprogram, hpc.trans (Nat.zero_add _)]
    exact (length_assembled xs).not_gt
  · simpa [VM.pcs, VM.new] using hpcs

/-- `addi x1, x0, -1`, `lui x2, 0x12345`, `add x1, x1, x2`. -/
def threeInstructions : List Instruction := [.addI 1 0 (-1), .lui 2 0x12345, .add 1 1 2]

theorem threeInstructions_inFormat : ∀ x ∈ threeInstructions, x.InFormat := by
  simp [threeInstructions, Instruction.InFormat]

end Line

end Loquela.Vm
