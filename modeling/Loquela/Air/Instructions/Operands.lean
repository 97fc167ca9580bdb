import Loquela.Air.Instructions.Ports
import Loquela.Vm.Instruction

/-! # Decoded instructions on the buses

How the kind and the operands of an interpreter instruction are numbered in the circuits:
immediates are the unsigned fields of the instruction word, upper ones are cut in two, and the
offset of `JAL` is regrouped.
-/

namespace Loquela.Air
open Vm (Instruction U32)

/-- The AIR an instruction belongs to. -/
def instructionId : Instruction → InstructionId
  | .addI _ _ _ => .addi
  | .xorI _ _ _ => .xori
  | .oriI _ _ _ => .ori
  | .andiI _ _ _ => .andi
  | .slliI _ _ _ => .slli
  | .srliI _ _ _ => .srli
  | .sraiI _ _ _ => .srai
  | .add _ _ _ => .add
  | .sub _ _ _ => .sub
  | .xor _ _ _ => .xor
  | .or _ _ _ => .or
  | .and _ _ _ => .and
  | .sll _ _ _ => .sll
  | .srl _ _ _ => .srl
  | .sra _ _ _ => .sra
  | .slt _ _ _ => .slt
  | .sltu _ _ _ => .sltu
  | .sltiI _ _ _ => .slti
  | .sltiuI _ _ _ => .sltiu
  | .lui _ _ => .lui
  | .auipc _ _ => .auipc
  | .jal _ _ => .jal
  | .jalr _ _ _ => .jalr

/-- The bits 10 to 1, 11 and 20 of a J-type offset. -/
def jalHigh12 (imm : U32) : ℕ :=
  imm.toNat / 2 % 2 ^ 10 + imm.toNat / 2 ^ 11 % 2 * 2 ^ 10 + imm.toNat / 2 ^ 20 % 2 * 2 ^ 11

/-- The decoded operands in the order of the decode buses. -/
def operands : Instruction → List ℕ
  | .addI rd rs1 imm | .xorI rd rs1 imm | .oriI rd rs1 imm | .andiI rd rs1 imm =>
    [rd.toNat, rs1.toNat, imm.toNat % 2 ^ 12]
  | .slliI rd rs1 imm | .srliI rd rs1 imm | .sraiI rd rs1 imm =>
    [rd.toNat, rs1.toNat, imm.toNat % 2 ^ 5]
  | .add rd rs1 rs2 | .sub rd rs1 rs2 | .xor rd rs1 rs2 | .or rd rs1 rs2 | .and rd rs1 rs2
  | .sll rd rs1 rs2 | .srl rd rs1 rs2 | .sra rd rs1 rs2 | .slt rd rs1 rs2 | .sltu rd rs1 rs2 =>
    [rd.toNat, rs1.toNat, rs2.toNat]
  | .sltiI rd rs1 imm | .sltiuI rd rs1 imm | .jalr rd rs1 imm =>
    [rd.toNat, rs1.toNat, imm.toNat % 2 ^ 12]
  | .lui rd imm | .auipc rd imm => [rd.toNat, imm.toNat / 2 ^ 8 % 2 ^ 12, imm.toNat % 2 ^ 8]
  | .jal rd imm => [rd.toNat, jalHigh12 imm, imm.toNat / 2 ^ 12 % 2 ^ 8]

/-- The bus a kind is decoded on. -/
def InstructionId.decodeBus : InstructionId → BusName
  | .lui | .auipc => .decodeU
  | .jal => .decodeJ
  | _ => .decode

end Loquela.Air
