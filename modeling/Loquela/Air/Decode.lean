import Loquela.Air.Instructions.Ports

/-! # DecodeAir

Each row splits one instruction word into bits, checks the opcode and function bits of the kind
its one-hot flags select, and offers the decoded fields on one of three buses.
-/

namespace Loquela.Air
open Library.Bits (bit pack)

variable {F : Type*} [Field F]

namespace InstructionId

def all : List InstructionId :=
  [addi, xori, ori, andi, add, sub, xor, or, and, sll, srl, sra, slli, srli, srai, slt, sltu,
    slti, sltiu, lui, auipc, jal, jalr]

theorem mem_all (k : InstructionId) : k ∈ all := by
  cases k <;> simp [all]

instance : Fintype InstructionId := ⟨⟨all, by decide⟩, mem_all⟩

/-- The kinds with the opcode of register-immediate operations. -/
def opImmediate : List InstructionId := [addi, xori, ori, andi, slli, srli, srai, slti, sltiu]

def rType : List InstructionId := [add, sub, xor, or, and, sll, srl, sra, slt, sltu]

/-- The kinds whose fourth decoded field is the immediate. -/
def iType : List InstructionId := [addi, xori, ori, andi, slti, sltiu, jalr]

def shiftImm : List InstructionId := [slli, srli, srai]

def uType : List InstructionId := [lui, auipc]

def opcodes : List (List InstructionId × ℕ) :=
  [(opImmediate, 0b0010011), (rType, 0b0110011), ([jal], 0b1101111), ([jalr], 0b1100111),
    ([lui], 0b0110111), ([auipc], 0b0010111)]

/-- The `funct3` checked for a kind, if any. -/
def funct3 : InstructionId → Option ℕ
  | addi => some 0b000 | xori => some 0b100 | ori => some 0b110 | andi => some 0b111
  | add => some 0b000 | sub => some 0b000 | xor => some 0b100 | or => some 0b110
  | and => some 0b111 | sll => some 0b001 | srl => some 0b101 | sra => some 0b101
  | slli => some 0b001 | srli => some 0b101 | srai => some 0b101
  | slt => some 0b010 | sltu => some 0b011 | slti => some 0b010 | sltiu => some 0b011
  | jalr => some 0b000
  | lui | auipc | jal => none

/-- The `funct7` checked for a kind, if any. -/
def funct7 : InstructionId → Option ℕ
  | sub | sra | srai => some 0b0100000
  | add | xor | or | and | sll | srl | slli | srli | slt | sltu => some 0b0000000
  | _ => none

end InstructionId

/-- `instrType k` is the flag `is_k`. -/
structure DecodeColumns (F : Type*) where
  pc : Limbs F
  instruction : Limbs F
  decompositions : Fin 4 → Fin 8 → F
  instrType : InstructionId → F
  instrTypePacked : F
  rd : F
  rs1 : F
  imm : F
  rs2 : F
  immLow8 : F
  mult : F

namespace DecodeColumns

variable (c : DecodeColumns F)

/-- The sum of the flags of some kinds. -/
def anyOf (kinds : List InstructionId) : F := (kinds.map c.instrType).sum

/-- `pack_bits`: recombine the bits at the given `(byte, bit)` places. -/
def packBits (places : List (Fin 4 × Fin 8)) : F :=
  pack (places.map fun p => c.decompositions p.1 p.2)

def evalFlags : Prop := (∀ k, AssertBool (c.instrType k)) ∧ c.anyOf InstructionId.all = 1

def evalBits : Prop :=
  ∀ i, (∀ k, AssertBool (c.decompositions i k)) ∧
    c.instruction i = pack (List.ofFn (c.decompositions i))

def evalOpcode : Prop :=
  ∀ g ∈ InstructionId.opcodes, ∀ i : Fin 7,
    c.anyOf g.1 * (c.decompositions 0 i.castSucc - bit (g.2.testBit i)) = 0

/-- `funct3` is bits 4 to 6 of byte 1. -/
def evalFunct3 : Prop :=
  ∀ k, ∀ f ∈ InstructionId.funct3 k, ∀ i : Fin 3,
    c.instrType k * (c.decompositions 1 (i.natAdd 4 |>.castSucc) - bit (f.testBit i)) = 0

/-- `funct7` is bits 1 to 7 of byte 3. -/
def evalFunct7 : Prop :=
  ∀ k, ∀ f ∈ InstructionId.funct7 k, ∀ i : Fin 7,
    c.instrType k * (c.decompositions 3 i.succ - bit (f.testBit i)) = 0

def evalFields : Prop :=
  c.anyOf [.lui, .auipc, .jal] * (c.immLow8 -
      c.packBits [(1, 4), (1, 5), (1, 6), (1, 7), (2, 0), (2, 1), (2, 2), (2, 3)]) = 0 ∧
    c.immLow8 * (1 - c.anyOf [.lui, .auipc, .jal]) = 0 ∧
    c.rd = c.packBits [(0, 7), (1, 0), (1, 1), (1, 2), (1, 3)] ∧
    c.rs1 = c.packBits [(1, 7), (2, 0), (2, 1), (2, 2), (2, 3)] ∧
    c.imm = c.packBits [(2, 4), (2, 5), (2, 6), (2, 7), (3, 0), (3, 1), (3, 2), (3, 3), (3, 4),
      (3, 5), (3, 6), (3, 7)] ∧
    c.rs2 = c.packBits [(2, 4), (2, 5), (2, 6), (2, 7), (3, 0)] ∧
    c.instrTypePacked = (InstructionId.all.map fun k => c.instrType k * (k.code : F)).sum

def eval : Prop :=
  c.evalFlags ∧ c.evalBits ∧ c.evalOpcode ∧ c.evalFunct3 ∧ c.evalFunct7 ∧ c.evalFields

def field4 : F :=
  c.anyOf InstructionId.iType * c.imm +
    (c.anyOf InstructionId.rType + c.anyOf InstructionId.shiftImm) * c.rs2 +
    c.anyOf InstructionId.uType * c.imm

section Decidable

variable [DecidableEq F]

instance : Decidable c.evalFlags := inferInstanceAs (Decidable ((∀ _ : InstructionId, _) ∧ _))

instance : Decidable c.evalBits := inferInstanceAs (Decidable (∀ _ : Fin 4, (∀ _ : Fin 8, _) ∧ _))

instance : Decidable c.evalOpcode :=
  inferInstanceAs (Decidable (∀ g ∈ InstructionId.opcodes, ∀ _ : Fin 7, _))

instance : Decidable c.evalFunct3 :=
  inferInstanceAs (Decidable (∀ k, ∀ f ∈ InstructionId.funct3 k, ∀ _ : Fin 3, _))

instance : Decidable c.evalFunct7 :=
  inferInstanceAs (Decidable (∀ k, ∀ f ∈ InstructionId.funct7 k, ∀ _ : Fin 7, _))

instance : Decidable c.evalFields :=
  inferInstanceAs (Decidable (_ ∧ _ ∧ _ ∧ _ ∧ _ ∧ _ ∧ _))

instance : Decidable c.eval := inferInstanceAs (Decidable (_ ∧ _ ∧ _ ∧ _ ∧ _ ∧ _))

end Decidable

/-- The immediate bits in the order JAL takes them: offset bits 10 to 1, then 11, then 20. -/
def immJalForm : F :=
  c.packBits [(2, 5), (2, 6), (2, 7), (3, 0), (3, 1), (3, 2), (3, 3), (3, 4), (3, 5), (3, 6),
    (2, 4), (3, 7)]

/-- Fetch the four bytes of the word from ROM (the pc is taken to be aligned, so the offset
cannot carry), then offer the decoded instruction `mult` times. -/
def lookups : List (Interaction F) :=
  (List.ofFn fun i : Fin 4 =>
      send .program [c.pc 0 + ((i : ℕ) : F), c.pc 1, c.pc 2, c.pc 3, c.instruction i] 1) ++
    [receive .decode (List.ofFn c.pc ++ [c.instrTypePacked, c.rd, c.rs1, c.field4])
        (c.mult * (1 - c.anyOf InstructionId.uType - c.instrType .jal)),
      receive .decodeU [c.instrTypePacked, c.rd, c.imm, c.immLow8]
        (c.mult * c.anyOf InstructionId.uType),
      receive .decodeJ [c.instrTypePacked, c.rd, c.immJalForm, c.immLow8]
        (c.mult * c.instrType .jal)]

end DecodeColumns

end Loquela.Air
