import Loquela.Library.BitFields
import Loquela.Rv32i.Formats
import Loquela.Vm.Instruction

/-! # The decoder against the RV32I encodings

`VM::decode_instruction` recognises exactly the RV32I encodings of the supported instructions,
and reads every operand of the format correctly, including the scrambled J-type immediate.
-/

namespace Loquela.Vm
open Loquela.Library Loquela.Rv32i

/-- The interpreter's form of an RV32I instruction. -/
def ofRv32i : Instr → Instruction
  | .opImm .addi rd rs1 imm => .addI rd rs1 (imm.signExtend 16)
  | .opImm .slti rd rs1 imm => .sltiI rd rs1 (imm.signExtend 32)
  | .opImm .sltiu rd rs1 imm => .sltiuI rd rs1 (imm.signExtend 32)
  | .opImm .xori rd rs1 imm => .xorI rd rs1 (imm.signExtend 16)
  | .opImm .ori rd rs1 imm => .oriI rd rs1 (imm.signExtend 16)
  | .opImm .andi rd rs1 imm => .andiI rd rs1 (imm.signExtend 16)
  | .shiftImm .slli rd rs1 shamt => .slliI rd rs1 (shamt.setWidth 32)
  | .shiftImm .srli rd rs1 shamt => .srliI rd rs1 (shamt.setWidth 32)
  | .shiftImm .srai rd rs1 shamt => .sraiI rd rs1 (shamt.setWidth 32)
  | .opReg .add rd rs1 rs2 => .add rd rs1 rs2
  | .opReg .sub rd rs1 rs2 => .sub rd rs1 rs2
  | .opReg .sll rd rs1 rs2 => .sll rd rs1 rs2
  | .opReg .slt rd rs1 rs2 => .slt rd rs1 rs2
  | .opReg .sltu rd rs1 rs2 => .sltu rd rs1 rs2
  | .opReg .xor rd rs1 rs2 => .xor rd rs1 rs2
  | .opReg .srl rd rs1 rs2 => .srl rd rs1 rs2
  | .opReg .sra rd rs1 rs2 => .sra rd rs1 rs2
  | .opReg .or rd rs1 rs2 => .or rd rs1 rs2
  | .opReg .and rd rs1 rs2 => .and rd rs1 rs2
  | .lui rd imm => .lui rd (imm.setWidth 32)
  | .auipc rd imm => .auipc rd (imm.setWidth 32)
  | .jal rd offset => .jal rd ((offset ++ (0 : BitVec 1)).signExtend 32)
  | .jalr rd rs1 imm => .jalr rd rs1 (imm.signExtend 32)

section Extraction

variable (bytes : U32)

theorem opcode_eq : bytes &&& 0b1111111 = (bytes.extractLsb' 0 7).setWidth 32 :=
  BitFields.and_mask bytes 7

theorem funct3_eq : bytes >>> 12 &&& 0b111 = (bytes.extractLsb' 12 3).setWidth 32 :=
  BitFields.ushiftRight_and_mask bytes 12 3

theorem funct7_eq : bytes >>> 25 = (bytes.extractLsb' 25 7).setWidth 32 := by
  apply BitVec.eq_of_toNat_eq
  rw [BitVec.toNat_ushiftRight, Nat.shiftRight_eq_div_pow, BitVec.toNat_setWidth,
    BitFields.toNat_extractLsb']
  omega

theorem registerField_eq (k : Nat) : registerField bytes k = bytes.extractLsb' k 5 := by
  rw [registerField, show (0b11111 : U32) = BitVec.ofNat 32 (2 ^ 5 - 1) from rfl,
    BitFields.ushiftRight_and_mask, BitVec.setWidth_setWidth_of_le _ (by omega),
    BitVec.setWidth_eq]

theorem immI_eq : immI bytes = (bytes.extractLsb' 20 12).signExtend 32 :=
  BitFields.sshiftRight_eq_signExtend (m := 12) (n := 20) (by omega) bytes

theorem shamtField_eq : shamtField bytes = (bytes.extractLsb' 20 5).setWidth 32 :=
  BitFields.ushiftRight_and_mask bytes 20 5

theorem immU_eq : immU bytes = (bytes.extractLsb' 12 20).setWidth 32 := by
  have hext : bytes.sshiftRight 12 = (bytes.extractLsb' 12 20).signExtend 32 :=
    BitFields.sshiftRight_eq_signExtend (m := 20) (n := 12) (by omega) bytes
  rw [immU, hext, show (0xFFFFF : U32) = BitVec.ofNat 32 (2 ^ 20 - 1) from rfl,
    BitFields.and_mask, BitFields.extractLsb'_signExtend (by omega)]

theorem immJ_eq : immJ bytes = (offsetJ bytes ++ (0 : BitVec 1)).signExtend 32 := by
  have h20 : bytes >>> 31 &&& 1 = (bytes.extractLsb' 31 1).setWidth 32 :=
    BitFields.ushiftRight_and_mask bytes 31 1
  have h10 : bytes >>> 21 &&& 0x3FF = (bytes.extractLsb' 21 10).setWidth 32 :=
    BitFields.ushiftRight_and_mask bytes 21 10
  have h11 : bytes >>> 20 &&& 1 = (bytes.extractLsb' 20 1).setWidth 32 :=
    BitFields.ushiftRight_and_mask bytes 20 1
  have h19 : bytes >>> 12 &&& 0xFF = (bytes.extractLsb' 12 8).setWidth 32 :=
    BitFields.ushiftRight_and_mask bytes 12 8
  have hraw : (offsetJ bytes ++ (0 : BitVec 1)).setWidth 32 =
      (bytes >>> 31 &&& 1) <<< 20 ||| (bytes >>> 12 &&& 0xFF) <<< 12 |||
        (bytes >>> 20 &&& 1) <<< 11 ||| (bytes >>> 21 &&& 0x3FF) <<< 1 := by
    rw [h20, h10, h11, h19, offsetJ]
    simp only [BitFields.setWidth_append, BitVec.shiftLeft_or_distrib, ← BitVec.shiftLeft_add]
    simp
  have hext := BitFields.shiftLeft_sshiftRight (m := 21) (n := 11) (by omega)
    ((offsetJ bytes ++ (0 : BitVec 1)).setWidth 32)
  rw [hraw] at hext
  rw [immJ, hext, ← hraw, BitVec.setWidth_setWidth_of_le _ (by omega), BitVec.setWidth_eq]

end Extraction

/-- The decoder on a word whose fields are known. -/
theorem decodeInstruction_encode (i : Instr) : decodeInstruction i.encode = some (ofRv32i i) := by
  simp only [decodeInstruction, rdField, rs1Field, rs2Field, registerField_eq, opcode_eq,
    funct3_eq, funct7_eq, immI_eq, immU_eq, immJ_eq, shamtField_eq]
  cases i with
  | opImm op rd rs1 imm =>
    cases op <;> simp [Instr.encode, ImmOp.funct3, ofRv32i, BitFields.setWidth_signExtend]
  | shiftImm op rd rs1 shamt =>
    cases op <;> simp [Instr.encode, ShiftOp.funct3, ShiftOp.funct7, ofRv32i]
  | opReg op rd rs1 rs2 =>
    cases op <;> simp [Instr.encode, RegOp.funct3, RegOp.funct7, ofRv32i]
  | lui rd imm => simp [Instr.encode, ofRv32i]
  | auipc rd imm => simp [Instr.encode, ofRv32i]
  | jal rd offset => simp [Instr.encode, ofRv32i]
  | jalr rd rs1 imm => simp [Instr.encode, ofRv32i]

section Recognition

variable {bytes : U32}

theorem opcode_eq_iff (c : BitVec 7) :
    bytes &&& 0b1111111 = c.setWidth 32 ↔ bytes.extractLsb' 0 7 = c := by
  rw [opcode_eq, BitFields.setWidth_eq_setWidth_iff (by omega)]

theorem funct3_eq_iff (c : BitVec 3) :
    bytes >>> 12 &&& 0b111 = c.setWidth 32 ↔ bytes.extractLsb' 12 3 = c := by
  rw [funct3_eq, BitFields.setWidth_eq_setWidth_iff (by omega)]

theorem funct7_eq_iff (c : BitVec 7) :
    bytes >>> 25 = c.setWidth 32 ↔ bytes.extractLsb' 25 7 = c := by
  rw [funct7_eq, BitFields.setWidth_eq_setWidth_iff (by omega)]

private theorem exists_opImm (op : ImmOp)
    (h : bytes &&& 0b1111111 = 0b0010011 ∧ bytes >>> 12 &&& 0b111 = op.funct3.setWidth 32) :
    ∃ i : Instr, i.encode = bytes :=
  ⟨_, encode_opImm op ((opcode_eq_iff 0b0010011).mp h.1) ((funct3_eq_iff op.funct3).mp h.2)⟩

private theorem exists_shiftImm (op : ShiftOp)
    (h : bytes &&& 0b1111111 = 0b0010011 ∧ bytes >>> 12 &&& 0b111 = op.funct3.setWidth 32 ∧
      bytes >>> 25 = op.funct7.setWidth 32) :
    ∃ i : Instr, i.encode = bytes :=
  ⟨_, encode_shiftImm op ((opcode_eq_iff 0b0010011).mp h.1) ((funct3_eq_iff op.funct3).mp h.2.1)
    ((funct7_eq_iff op.funct7).mp h.2.2)⟩

private theorem exists_opReg (op : RegOp)
    (h : bytes &&& 0b1111111 = 0b0110011 ∧ bytes >>> 12 &&& 0b111 = op.funct3.setWidth 32 ∧
      bytes >>> 25 = op.funct7.setWidth 32) :
    ∃ i : Instr, i.encode = bytes :=
  ⟨_, encode_opReg op ((opcode_eq_iff 0b0110011).mp h.1) ((funct3_eq_iff op.funct3).mp h.2.1)
    ((funct7_eq_iff op.funct7).mp h.2.2)⟩

private theorem exists_jalr
    (h : bytes &&& 0b1111111 = 0b1100111 ∧ bytes >>> 12 &&& 0b111 = 0b000) :
    ∃ i : Instr, i.encode = bytes :=
  ⟨_, encode_jalr ((opcode_eq_iff 0b1100111).mp h.1) ((funct3_eq_iff 0b000).mp h.2)⟩

private theorem exists_upper (h : bytes &&& 0b1111111 = 0b0110111 ∨
    bytes &&& 0b1111111 = 0b0010111 ∨ bytes &&& 0b1111111 = 0b1101111) :
    ∃ i : Instr, i.encode = bytes := by
  rcases h with h | h | h
  · exact ⟨_, encode_lui ((opcode_eq_iff 0b0110111).mp h)⟩
  · exact ⟨_, encode_auipc ((opcode_eq_iff 0b0010111).mp h)⟩
  · exact ⟨_, encode_jal ((opcode_eq_iff 0b1101111).mp h)⟩

/-- What the decoder accepts is the encoding of an RV32I instruction. -/
theorem exists_encode {instruction : Instruction} (h : decodeInstruction bytes = some instruction) :
    ∃ i : Instr, i.encode = bytes ∧ ofRv32i i = instruction := by
  have hword : ∃ i : Instr, i.encode = bytes := by
    by_contra hn
    rw [show decodeInstruction bytes = none from ?_] at h
    · cases h
    dsimp only [decodeInstruction]
    refine (if_neg fun c => hn (exists_opImm .addi c)).trans ?_
    refine (if_neg fun c => hn (exists_opImm .xori c)).trans ?_
    refine (if_neg fun c => hn (exists_opImm .ori c)).trans ?_
    refine (if_neg fun c => hn (exists_opImm .andi c)).trans ?_
    refine (if_neg fun c => hn (exists_shiftImm .slli c)).trans ?_
    refine (if_neg fun c => hn (exists_shiftImm .srli c)).trans ?_
    refine (if_neg fun c => hn (exists_shiftImm .srai c)).trans ?_
    refine (if_neg fun c => hn (exists_opReg .add c)).trans ?_
    refine (if_neg fun c => hn (exists_opReg .sub c)).trans ?_
    refine (if_neg fun c => hn (exists_opReg .xor c)).trans ?_
    refine (if_neg fun c => hn (exists_opReg .or c)).trans ?_
    refine (if_neg fun c => hn (exists_opReg .and c)).trans ?_
    refine (if_neg fun c => hn (exists_opReg .sll c)).trans ?_
    refine (if_neg fun c => hn (exists_opReg .srl c)).trans ?_
    refine (if_neg fun c => hn (exists_opReg .sra c)).trans ?_
    refine (if_neg fun c => hn (exists_opReg .slt c)).trans ?_
    refine (if_neg fun c => hn (exists_opReg .sltu c)).trans ?_
    refine (if_neg fun c => hn (exists_opImm .slti c)).trans ?_
    refine (if_neg fun c => hn (exists_opImm .sltiu c)).trans ?_
    refine (if_neg fun c => hn (exists_upper (.inl c))).trans ?_
    refine (if_neg fun c => hn (exists_upper (.inr (.inl c)))).trans ?_
    refine (if_neg fun c => hn (exists_upper (.inr (.inr c)))).trans ?_
    exact if_neg fun c => hn (exists_jalr c)
  obtain ⟨i, rfl⟩ := hword
  rw [decodeInstruction_encode] at h
  exact ⟨i, rfl, Option.some.inj h⟩

theorem decodeInstruction_eq_some_iff (instruction : Instruction) :
    decodeInstruction bytes = some instruction ↔
      ∃ i : Instr, i.encode = bytes ∧ ofRv32i i = instruction := by
  constructor
  · exact exists_encode
  · rintro ⟨i, rfl, rfl⟩
    exact decodeInstruction_encode i

end Recognition

end Loquela.Vm
