import Mathlib.Data.BitVec
import Loquela.Library.Numerals

/-! # Instructions and their decoding

The 23 instructions the interpreter supports and `VM::decode_instruction`, the chain of
opcode tests that recognises them. Register fields are five-bit, as the decoder masks them;
immediates keep the width of the source's fields.
-/

namespace Loquela.Vm

abbrev Byte := BitVec 8
abbrev U32 := BitVec 32
abbrev Register := BitVec 5
abbrev Registers := Register → U32

inductive Instruction where
  | addI (rd rs1 : Register) (imm : BitVec 16)
  | xorI (rd rs1 : Register) (imm : BitVec 16)
  | oriI (rd rs1 : Register) (imm : BitVec 16)
  | andiI (rd rs1 : Register) (imm : BitVec 16)
  | slliI (rd rs1 : Register) (imm : U32)
  | srliI (rd rs1 : Register) (imm : U32)
  | sraiI (rd rs1 : Register) (imm : U32)
  | add (rd rs1 rs2 : Register)
  | sub (rd rs1 rs2 : Register)
  | xor (rd rs1 rs2 : Register)
  | or (rd rs1 rs2 : Register)
  | and (rd rs1 rs2 : Register)
  | sll (rd rs1 rs2 : Register)
  | srl (rd rs1 rs2 : Register)
  | sra (rd rs1 rs2 : Register)
  | slt (rd rs1 rs2 : Register)
  | sltu (rd rs1 rs2 : Register)
  | sltiI (rd rs1 : Register) (imm : U32)
  | sltiuI (rd rs1 : Register) (imm : U32)
  | lui (rd : Register) (imm : U32)
  | auipc (rd : Register) (imm : U32)
  | jal (rd : Register) (imm : U32)
  | jalr (rd rs1 : Register) (imm : U32)
  deriving DecidableEq, Repr

section Fields

variable (bytes : U32)

/-- `((bytes >> k) & 0b11111) as u8`. -/
def registerField (k : Nat) : Register := (bytes >>> k &&& 0b11111).setWidth 5

def rdField : Register := registerField bytes 7

def rs1Field : Register := registerField bytes 15

def rs2Field : Register := registerField bytes 20

/-- `(bytes as i32) >> 20`, the sign-extended I-type immediate. -/
def immI : U32 := bytes.sshiftRight 20

/-- `((bytes >> 20) & 0x1F) as i32`. -/
def shamtField : U32 := bytes >>> 20 &&& 0x1F

/-- `((bytes as i32) >> 12) & 0xF_FFFF`, the raw upper twenty bits, not yet shifted. -/
def immU : U32 := bytes.sshiftRight 12 &&& 0xFFFFF

/-- The J-type immediate, its bits scrambled across the word and sign-extended from bit 20. -/
def immJ : U32 :=
  let imm20 := bytes >>> 31 &&& 1
  let imm10_1 := bytes >>> 21 &&& 0x3FF
  let imm11 := bytes >>> 20 &&& 1
  let imm19_12 := bytes >>> 12 &&& 0xFF
  let immRaw := imm20 <<< 20 ||| imm19_12 <<< 12 ||| imm11 <<< 11 ||| imm10_1 <<< 1
  (immRaw <<< 11).sshiftRight 11

end Fields

/-- `VM::decode_instruction`; `none` is its `unimplemented!` panic. -/
def decodeInstruction (bytes : U32) : Option Instruction :=
  let opcode := bytes &&& 0b1111111
  let funct3 := bytes >>> 12 &&& 0b111
  let funct7 := bytes >>> 25
  let rd := rdField bytes
  let rs1 := rs1Field bytes
  let rs2 := rs2Field bytes
  let imm16 := (immI bytes).setWidth 16
  if opcode = 0b0010011 ∧ funct3 = 0b000 then some (.addI rd rs1 imm16)
  else if opcode = 0b0010011 ∧ funct3 = 0b100 then some (.xorI rd rs1 imm16)
  else if opcode = 0b0010011 ∧ funct3 = 0b110 then some (.oriI rd rs1 imm16)
  else if opcode = 0b0010011 ∧ funct3 = 0b111 then some (.andiI rd rs1 imm16)
  else if opcode = 0b0010011 ∧ funct3 = 0b001 ∧ funct7 = 0b0000000 then
    some (.slliI rd rs1 (shamtField bytes))
  else if opcode = 0b0010011 ∧ funct3 = 0b101 ∧ funct7 = 0b0000000 then
    some (.srliI rd rs1 (shamtField bytes))
  else if opcode = 0b0010011 ∧ funct3 = 0b101 ∧ funct7 = 0b0100000 then
    some (.sraiI rd rs1 (shamtField bytes))
  else if opcode = 0b0110011 ∧ funct3 = 0b000 ∧ funct7 = 0b0000000 then some (.add rd rs1 rs2)
  else if opcode = 0b0110011 ∧ funct3 = 0b000 ∧ funct7 = 0b0100000 then some (.sub rd rs1 rs2)
  else if opcode = 0b0110011 ∧ funct3 = 0b100 ∧ funct7 = 0b0000000 then some (.xor rd rs1 rs2)
  else if opcode = 0b0110011 ∧ funct3 = 0b110 ∧ funct7 = 0b0000000 then some (.or rd rs1 rs2)
  else if opcode = 0b0110011 ∧ funct3 = 0b111 ∧ funct7 = 0b0000000 then some (.and rd rs1 rs2)
  else if opcode = 0b0110011 ∧ funct3 = 0b001 ∧ funct7 = 0b0000000 then some (.sll rd rs1 rs2)
  else if opcode = 0b0110011 ∧ funct3 = 0b101 ∧ funct7 = 0b0000000 then some (.srl rd rs1 rs2)
  else if opcode = 0b0110011 ∧ funct3 = 0b101 ∧ funct7 = 0b0100000 then some (.sra rd rs1 rs2)
  else if opcode = 0b0110011 ∧ funct3 = 0b010 ∧ funct7 = 0b0000000 then some (.slt rd rs1 rs2)
  else if opcode = 0b0110011 ∧ funct3 = 0b011 ∧ funct7 = 0b0000000 then some (.sltu rd rs1 rs2)
  else if opcode = 0b0010011 ∧ funct3 = 0b010 then some (.sltiI rd rs1 (immI bytes))
  else if opcode = 0b0010011 ∧ funct3 = 0b011 then some (.sltiuI rd rs1 (immI bytes))
  else if opcode = 0b0110111 then some (.lui rd (immU bytes))
  else if opcode = 0b0010111 then some (.auipc rd (immU bytes))
  else if opcode = 0b1101111 then some (.jal rd (immJ bytes))
  else if opcode = 0b1100111 ∧ funct3 = 0b000 then some (.jalr rd rs1 (immI bytes))
  else none

end Loquela.Vm
