import Loquela.Library.BitFields
import Loquela.Rv32i.Spec

/-! # Reading the instruction formats

Every field of a format is found at its place in the encoded word, and every word is the
encoding, in each format, of the fields read from it.
-/

namespace Loquela.Rv32i
open Loquela.Library

/-- Bits 20 to 1 of the J-type offset, put back in order. -/
def offsetJ (word : Word) : BitVec 20 :=
  word.extractLsb' 31 1 ++ word.extractLsb' 12 8 ++ word.extractLsb' 20 1 ++
    word.extractLsb' 21 10

section RType

variable (funct7 : BitVec 7) (rs2 rs1 : Reg) (funct3 : BitVec 3) (rd : Reg) (opcode : BitVec 7)

@[simp] theorem rType_opcode :
    (rType funct7 rs2 rs1 funct3 rd opcode).extractLsb' 0 7 = opcode := by
  simp (disch := omega) only [rType, BitVec.extractLsb'_append_eq_of_add_le,
    BitVec.extractLsb'_eq_self]

@[simp] theorem rType_rd : (rType funct7 rs2 rs1 funct3 rd opcode).extractLsb' 7 5 = rd := by
  simp (disch := omega) only [rType, BitVec.extractLsb'_append_eq_of_le,
    BitVec.extractLsb'_append_eq_of_add_le, Nat.reduceSub, BitVec.extractLsb'_eq_self]

@[simp] theorem rType_funct3 :
    (rType funct7 rs2 rs1 funct3 rd opcode).extractLsb' 12 3 = funct3 := by
  simp (disch := omega) only [rType, BitVec.extractLsb'_append_eq_of_le,
    BitVec.extractLsb'_append_eq_of_add_le, Nat.reduceSub, BitVec.extractLsb'_eq_self]

@[simp] theorem rType_rs1 : (rType funct7 rs2 rs1 funct3 rd opcode).extractLsb' 15 5 = rs1 := by
  simp (disch := omega) only [rType, BitVec.extractLsb'_append_eq_of_le,
    BitVec.extractLsb'_append_eq_of_add_le, Nat.reduceSub, BitVec.extractLsb'_eq_self]

@[simp] theorem rType_rs2 : (rType funct7 rs2 rs1 funct3 rd opcode).extractLsb' 20 5 = rs2 := by
  simp (disch := omega) only [rType, BitVec.extractLsb'_append_eq_of_le,
    BitVec.extractLsb'_append_eq_of_add_le, Nat.reduceSub, BitVec.extractLsb'_eq_self]

@[simp] theorem rType_funct7 :
    (rType funct7 rs2 rs1 funct3 rd opcode).extractLsb' 25 7 = funct7 := by
  simp (disch := omega) only [rType, BitVec.extractLsb'_append_eq_of_le, Nat.reduceSub,
    BitVec.extractLsb'_eq_self]

end RType

section IType

variable (imm : BitVec 12) (rs1 : Reg) (funct3 : BitVec 3) (rd : Reg) (opcode : BitVec 7)

@[simp] theorem iType_opcode : (iType imm rs1 funct3 rd opcode).extractLsb' 0 7 = opcode := by
  simp (disch := omega) only [iType, BitVec.extractLsb'_append_eq_of_add_le,
    BitVec.extractLsb'_eq_self]

@[simp] theorem iType_rd : (iType imm rs1 funct3 rd opcode).extractLsb' 7 5 = rd := by
  simp (disch := omega) only [iType, BitVec.extractLsb'_append_eq_of_le,
    BitVec.extractLsb'_append_eq_of_add_le, Nat.reduceSub, BitVec.extractLsb'_eq_self]

@[simp] theorem iType_funct3 : (iType imm rs1 funct3 rd opcode).extractLsb' 12 3 = funct3 := by
  simp (disch := omega) only [iType, BitVec.extractLsb'_append_eq_of_le,
    BitVec.extractLsb'_append_eq_of_add_le, Nat.reduceSub, BitVec.extractLsb'_eq_self]

@[simp] theorem iType_rs1 : (iType imm rs1 funct3 rd opcode).extractLsb' 15 5 = rs1 := by
  simp (disch := omega) only [iType, BitVec.extractLsb'_append_eq_of_le,
    BitVec.extractLsb'_append_eq_of_add_le, Nat.reduceSub, BitVec.extractLsb'_eq_self]

@[simp] theorem iType_imm : (iType imm rs1 funct3 rd opcode).extractLsb' 20 12 = imm := by
  simp (disch := omega) only [iType, BitVec.extractLsb'_append_eq_of_le, Nat.reduceSub,
    BitVec.extractLsb'_eq_self]

end IType

section UpperFormats

variable (imm : BitVec 20) (rd : Reg) (opcode : BitVec 7)

@[simp] theorem uType_opcode : (uType imm rd opcode).extractLsb' 0 7 = opcode := by
  simp (disch := omega) only [uType, BitVec.extractLsb'_append_eq_of_add_le,
    BitVec.extractLsb'_eq_self]

@[simp] theorem uType_rd : (uType imm rd opcode).extractLsb' 7 5 = rd := by
  simp (disch := omega) only [uType, BitVec.extractLsb'_append_eq_of_le,
    BitVec.extractLsb'_append_eq_of_add_le, Nat.reduceSub, BitVec.extractLsb'_eq_self]

@[simp] theorem uType_imm : (uType imm rd opcode).extractLsb' 12 20 = imm := by
  simp (disch := omega) only [uType, BitVec.extractLsb'_append_eq_of_le, Nat.reduceSub,
    BitVec.extractLsb'_eq_self]

@[simp] theorem jType_opcode : (jType imm rd opcode).extractLsb' 0 7 = opcode := by
  simp (disch := omega) only [jType, BitVec.extractLsb'_append_eq_of_add_le,
    BitVec.extractLsb'_eq_self]

@[simp] theorem jType_rd : (jType imm rd opcode).extractLsb' 7 5 = rd := by
  simp (disch := omega) only [jType, BitVec.extractLsb'_append_eq_of_le,
    BitVec.extractLsb'_append_eq_of_add_le, Nat.reduceSub, BitVec.extractLsb'_eq_self]

@[simp] theorem offsetJ_jType : offsetJ (jType imm rd opcode) = imm := by
  simp (disch := omega) only [offsetJ, jType, BitVec.extractLsb'_append_eq_of_le,
    BitVec.extractLsb'_append_eq_of_add_le]
  apply BitVec.eq_of_toNat_eq
  simp only [BitFields.toNat_append, BitFields.toNat_extractLsb']
  omega

end UpperFormats

section Reassembly

variable (word : Word)

theorem rType_extract : rType (word.extractLsb' 25 7) (word.extractLsb' 20 5)
    (word.extractLsb' 15 5) (word.extractLsb' 12 3) (word.extractLsb' 7 5)
    (word.extractLsb' 0 7) = word := by
  apply BitVec.eq_of_toNat_eq
  simp only [rType, BitFields.toNat_append, BitFields.toNat_extractLsb']
  omega

theorem iType_extract : iType (word.extractLsb' 20 12) (word.extractLsb' 15 5)
    (word.extractLsb' 12 3) (word.extractLsb' 7 5) (word.extractLsb' 0 7) = word := by
  apply BitVec.eq_of_toNat_eq
  simp only [iType, BitFields.toNat_append, BitFields.toNat_extractLsb']
  omega

theorem uType_extract : uType (word.extractLsb' 12 20) (word.extractLsb' 7 5)
    (word.extractLsb' 0 7) = word := by
  apply BitVec.eq_of_toNat_eq
  simp only [uType, BitFields.toNat_append, BitFields.toNat_extractLsb']
  omega

/-- The offset in the order of the word. -/
theorem offsetJ_parts : (offsetJ word).extractLsb' 19 1 = word.extractLsb' 31 1 ∧
    (offsetJ word).extractLsb' 0 10 = word.extractLsb' 21 10 ∧
    (offsetJ word).extractLsb' 10 1 = word.extractLsb' 20 1 ∧
    (offsetJ word).extractLsb' 11 8 = word.extractLsb' 12 8 := by
  refine ⟨?_, ?_, ?_, ?_⟩ <;> simp (disch := omega) only [offsetJ,
    BitVec.extractLsb'_append_eq_of_le, BitVec.extractLsb'_append_eq_of_add_le, Nat.reduceSub,
    BitVec.extractLsb'_eq_self]

theorem jType_extract : jType (offsetJ word) (word.extractLsb' 7 5)
    (word.extractLsb' 0 7) = word := by
  obtain ⟨h20, h10, h11, h19⟩ := offsetJ_parts word
  apply BitVec.eq_of_toNat_eq
  simp only [jType, h20, h10, h11, h19, BitFields.toNat_append, BitFields.toNat_extractLsb']
  omega

variable {word}

theorem encode_opImm (op : ImmOp) (hopcode : word.extractLsb' 0 7 = 0b0010011)
    (hfunct3 : word.extractLsb' 12 3 = op.funct3) :
    (Instr.opImm op (word.extractLsb' 7 5) (word.extractLsb' 15 5)
      (word.extractLsb' 20 12)).encode = word := by
  rw [Instr.encode, ← hopcode, ← hfunct3, iType_extract]

theorem encode_shiftImm (op : ShiftOp) (hopcode : word.extractLsb' 0 7 = 0b0010011)
    (hfunct3 : word.extractLsb' 12 3 = op.funct3) (hfunct7 : word.extractLsb' 25 7 = op.funct7) :
    (Instr.shiftImm op (word.extractLsb' 7 5) (word.extractLsb' 15 5)
      (word.extractLsb' 20 5)).encode = word := by
  rw [Instr.encode, ← hopcode, ← hfunct3, ← hfunct7, rType_extract]

theorem encode_opReg (op : RegOp) (hopcode : word.extractLsb' 0 7 = 0b0110011)
    (hfunct3 : word.extractLsb' 12 3 = op.funct3) (hfunct7 : word.extractLsb' 25 7 = op.funct7) :
    (Instr.opReg op (word.extractLsb' 7 5) (word.extractLsb' 15 5)
      (word.extractLsb' 20 5)).encode = word := by
  rw [Instr.encode, ← hopcode, ← hfunct3, ← hfunct7, rType_extract]

theorem encode_lui (hopcode : word.extractLsb' 0 7 = 0b0110111) :
    (Instr.lui (word.extractLsb' 7 5) (word.extractLsb' 12 20)).encode = word := by
  rw [Instr.encode, ← hopcode, uType_extract]

theorem encode_auipc (hopcode : word.extractLsb' 0 7 = 0b0010111) :
    (Instr.auipc (word.extractLsb' 7 5) (word.extractLsb' 12 20)).encode = word := by
  rw [Instr.encode, ← hopcode, uType_extract]

theorem encode_jal (hopcode : word.extractLsb' 0 7 = 0b1101111) :
    (Instr.jal (word.extractLsb' 7 5) (offsetJ word)).encode = word := by
  rw [Instr.encode, ← hopcode, jType_extract]

theorem encode_jalr (hopcode : word.extractLsb' 0 7 = 0b1100111)
    (hfunct3 : word.extractLsb' 12 3 = 0b000) :
    (Instr.jalr (word.extractLsb' 7 5) (word.extractLsb' 15 5)
      (word.extractLsb' 20 12)).encode = word := by
  rw [Instr.encode, ← hopcode, ← hfunct3, iType_extract]

end Reassembly

theorem ImmOp.funct3_injective : Function.Injective ImmOp.funct3 := by
  intro a b h
  cases a <;> cases b <;> first | rfl | cases h

theorem ShiftOp.eq_of_funct {a b : ShiftOp} (h3 : a.funct3 = b.funct3)
    (h7 : a.funct7 = b.funct7) : a = b := by
  cases a <;> cases b <;>
    first | rfl | exact absurd h3 (by decide) | exact absurd h7 (by decide)

theorem RegOp.eq_of_funct {a b : RegOp} (h3 : a.funct3 = b.funct3)
    (h7 : a.funct7 = b.funct7) : a = b := by
  cases a <;> cases b <;>
    first | rfl | exact absurd h3 (by decide) | exact absurd h7 (by decide)

theorem ImmOp.funct3_ne_shift (a : ImmOp) (b : ShiftOp) : a.funct3 ≠ b.funct3 := by
  cases a <;> cases b <;> intro h <;> cases h

/-- Two instructions with one encoding are equal: the opcode separates the formats up to the
two that share `0b0010011`, and those are separated by `funct3`. -/
theorem encode_injective : Function.Injective Instr.encode := by
  intro i j h
  have hopcode := congrArg (BitVec.extractLsb' 0 7) h
  have hfunct3 := congrArg (BitVec.extractLsb' 12 3) h
  have hfunct7 := congrArg (BitVec.extractLsb' 25 7) h
  have hrd := congrArg (BitVec.extractLsb' 7 5) h
  have hrs1 := congrArg (BitVec.extractLsb' 15 5) h
  have hrs2 := congrArg (BitVec.extractLsb' 20 5) h
  have himm := congrArg (BitVec.extractLsb' 20 12) h
  have hupper := congrArg (BitVec.extractLsb' 12 20) h
  have hoffset := congrArg offsetJ h
  clear h
  cases i <;> cases j <;> simp only [Instr.encode, rType_opcode, iType_opcode, uType_opcode,
    jType_opcode] at hopcode <;> try cases hopcode
  case opImm.opImm =>
    simp only [Instr.encode, iType_funct3, iType_rd, iType_rs1, iType_imm] at hfunct3 hrd hrs1 himm
    rw [ImmOp.funct3_injective hfunct3, hrd, hrs1, himm]
  case opImm.shiftImm =>
    simp only [Instr.encode, iType_funct3, rType_funct3] at hfunct3
    exact absurd hfunct3 (ImmOp.funct3_ne_shift _ _)
  case shiftImm.opImm =>
    simp only [Instr.encode, iType_funct3, rType_funct3] at hfunct3
    exact absurd hfunct3.symm (ImmOp.funct3_ne_shift _ _)
  case shiftImm.shiftImm =>
    simp only [Instr.encode, rType_funct3, rType_funct7, rType_rd, rType_rs1, rType_rs2]
      at hfunct3 hfunct7 hrd hrs1 hrs2
    rw [ShiftOp.eq_of_funct hfunct3 hfunct7, hrd, hrs1, hrs2]
  case opReg.opReg =>
    simp only [Instr.encode, rType_funct3, rType_funct7, rType_rd, rType_rs1, rType_rs2]
      at hfunct3 hfunct7 hrd hrs1 hrs2
    rw [RegOp.eq_of_funct hfunct3 hfunct7, hrd, hrs1, hrs2]
  case lui.lui =>
    simp only [Instr.encode, uType_rd, uType_imm] at hrd hupper
    rw [hrd, hupper]
  case auipc.auipc =>
    simp only [Instr.encode, uType_rd, uType_imm] at hrd hupper
    rw [hrd, hupper]
  case jal.jal =>
    simp only [Instr.encode, jType_rd, offsetJ_jType] at hrd hoffset
    rw [hrd, hoffset]
  case jalr.jalr =>
    simp only [Instr.encode, iType_rd, iType_rs1, iType_imm] at hrd hrs1 himm
    rw [hrd, hrs1, himm]

end Loquela.Rv32i
