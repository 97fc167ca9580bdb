import Mathlib.Data.BitVec
import Mathlib.Logic.Function.Basic
import Mathlib.Tactic.SplitIfs
import Loquela.Library.Numerals

/-! # RV32I integer and jump instructions

The computational and unconditional-jump part of the RV32I base instruction set: its four
instruction formats, the encodings and the meaning of each instruction as a transformation of
the register file and the program counter. Misaligned-target traps are left out.
-/

namespace Loquela.Rv32i

abbrev Word := BitVec 32
abbrev Reg := BitVec 5

inductive ImmOp where
  | addi | slti | sltiu | xori | ori | andi
  deriving DecidableEq

inductive ShiftOp where
  | slli | srli | srai
  deriving DecidableEq

inductive RegOp where
  | add | sub | sll | slt | sltu | xor | srl | sra | or | and
  deriving DecidableEq

/-- An instruction with its operands; `jal` holds bits 20 to 1 of its offset. -/
inductive Instr where
  | opImm (op : ImmOp) (rd rs1 : Reg) (imm : BitVec 12)
  | shiftImm (op : ShiftOp) (rd rs1 : Reg) (shamt : BitVec 5)
  | opReg (op : RegOp) (rd rs1 rs2 : Reg)
  | lui (rd : Reg) (imm : BitVec 20)
  | auipc (rd : Reg) (imm : BitVec 20)
  | jal (rd : Reg) (offset : BitVec 20)
  | jalr (rd rs1 : Reg) (imm : BitVec 12)
  deriving DecidableEq

def rType (funct7 : BitVec 7) (rs2 rs1 : Reg) (funct3 : BitVec 3) (rd : Reg)
    (opcode : BitVec 7) : Word :=
  funct7 ++ rs2 ++ rs1 ++ funct3 ++ rd ++ opcode

def iType (imm : BitVec 12) (rs1 : Reg) (funct3 : BitVec 3) (rd : Reg) (opcode : BitVec 7) : Word :=
  imm ++ rs1 ++ funct3 ++ rd ++ opcode

def uType (imm : BitVec 20) (rd : Reg) (opcode : BitVec 7) : Word := imm ++ rd ++ opcode

/-- The offset bits appear in the order 20, 10 to 1, 11, 19 to 12. -/
def jType (offset : BitVec 20) (rd : Reg) (opcode : BitVec 7) : Word :=
  offset.extractLsb' 19 1 ++ offset.extractLsb' 0 10 ++ offset.extractLsb' 10 1 ++
    offset.extractLsb' 11 8 ++ rd ++ opcode

def ImmOp.funct3 : ImmOp → BitVec 3
  | .addi => 0b000 | .slti => 0b010 | .sltiu => 0b011
  | .xori => 0b100 | .ori => 0b110 | .andi => 0b111

def ShiftOp.funct3 : ShiftOp → BitVec 3
  | .slli => 0b001 | .srli => 0b101 | .srai => 0b101

def ShiftOp.funct7 : ShiftOp → BitVec 7
  | .slli => 0b0000000 | .srli => 0b0000000 | .srai => 0b0100000

def RegOp.funct3 : RegOp → BitVec 3
  | .add => 0b000 | .sub => 0b000 | .sll => 0b001 | .slt => 0b010 | .sltu => 0b011
  | .xor => 0b100 | .srl => 0b101 | .sra => 0b101 | .or => 0b110 | .and => 0b111

def RegOp.funct7 : RegOp → BitVec 7
  | .sub => 0b0100000 | .sra => 0b0100000 | _ => 0b0000000

def Instr.encode : Instr → Word
  | .opImm op rd rs1 imm => iType imm rs1 op.funct3 rd 0b0010011
  | .shiftImm op rd rs1 shamt => rType op.funct7 shamt rs1 op.funct3 rd 0b0010011
  | .opReg op rd rs1 rs2 => rType op.funct7 rs2 rs1 op.funct3 rd 0b0110011
  | .lui rd imm => uType imm rd 0b0110111
  | .auipc rd imm => uType imm rd 0b0010111
  | .jal rd offset => jType offset rd 0b1101111
  | .jalr rd rs1 imm => iType imm rs1 0b000 rd 0b1100111

def bit (b : Bool) : Word := if b then 1 else 0

def ImmOp.eval (imm x : Word) : ImmOp → Word
  | .addi => x + imm
  | .slti => bit (x.toInt < imm.toInt)
  | .sltiu => bit (x.toNat < imm.toNat)
  | .xori => x ^^^ imm
  | .ori => x ||| imm
  | .andi => x &&& imm

def ShiftOp.eval (shamt : Nat) (x : Word) : ShiftOp → Word
  | .slli => x <<< shamt
  | .srli => x >>> shamt
  | .srai => x.sshiftRight shamt

def RegOp.eval (x y : Word) : RegOp → Word
  | .add => x + y
  | .sub => x - y
  | .sll => x <<< (y.toNat % 32)
  | .slt => bit (x.toInt < y.toInt)
  | .sltu => bit (x.toNat < y.toNat)
  | .xor => x ^^^ y
  | .srl => x >>> (y.toNat % 32)
  | .sra => x.sshiftRight (y.toNat % 32)
  | .or => x ||| y
  | .and => x &&& y

def Instr.rd : Instr → Reg
  | .opImm _ rd _ _ => rd
  | .shiftImm _ rd _ _ => rd
  | .opReg _ rd _ _ => rd
  | .lui rd _ => rd
  | .auipc rd _ => rd
  | .jal rd _ => rd
  | .jalr rd _ _ => rd

def Instr.isJump : Instr → Bool
  | .jal _ _ => true
  | .jalr _ _ _ => true
  | _ => false

/-- The registers the instruction reads, in operand order. -/
def Instr.sources : Instr → List Reg
  | .opImm _ _ rs1 _ => [rs1]
  | .shiftImm _ _ rs1 _ => [rs1]
  | .opReg _ _ rs1 rs2 => [rs1, rs2]
  | .jalr _ rs1 _ => [rs1]
  | _ => []

/-- The value computed for `rd` when reading register `r` gives `x r`. -/
def Instr.result (pc : Word) (x : Reg → Word) : Instr → Word
  | .opImm op _ rs1 imm => op.eval (imm.signExtend 32) (x rs1)
  | .shiftImm op _ rs1 shamt => op.eval shamt.toNat (x rs1)
  | .opReg op _ rs1 rs2 => op.eval (x rs1) (x rs2)
  | .lui _ imm => imm ++ (0 : BitVec 12)
  | .auipc _ imm => pc + (imm ++ (0 : BitVec 12))
  | .jal _ _ => pc + 4
  | .jalr _ _ _ => pc + 4

/-- The next program counter; `jalr` clears bit 0 of its target. -/
def Instr.nextPc (pc : Word) (x : Reg → Word) : Instr → Word
  | .jal _ offset => pc + (offset ++ (0 : BitVec 1)).signExtend 32
  | .jalr _ rs1 imm => (x rs1 + imm.signExtend 32) &&& ~~~1
  | _ => pc + 4

/-- Register `x0` is hard-wired: whatever is stored, a read of it gives 0. -/
def visible (x : Reg → Word) : Reg → Word := fun r => if r = 0 then 0 else x r

/-- The architectural state after the instruction: a write to `x0` has no effect. -/
def Instr.exec (pc : Word) (x : Reg → Word) (i : Instr) : (Reg → Word) × Word :=
  (if i.rd = 0 then x else Function.update x i.rd (i.result pc (visible x)),
    i.nextPc pc (visible x))

theorem visible_eq {x : Reg → Word} (h : x 0 = 0) : visible x = x := by
  funext r
  rw [visible]
  split_ifs with hr
  · rw [hr, h]
  · rfl

/-- `word` lies in memory at `addr`, least significant byte first. -/
def Stored (memory : List (BitVec 8)) (addr : Nat) (word : Word) : Prop :=
  ∀ k < 4, memory[addr + k]? = some (word.extractLsb' (8 * k) 8)

end Loquela.Rv32i
