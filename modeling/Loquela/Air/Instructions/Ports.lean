import Loquela.Air.Bus

/-! # What an instruction row puts on the buses

All 23 instruction AIRs have one shape: a real row consumes an execution state, looks up its
decoded instruction, performs its memory operations, sends its range and table checks and
produces the next execution state. The column groups and constraints that several of them
share are stated here once.
-/

namespace Loquela.Air

/-- The numbering of the instructions on the decode buses. -/
inductive InstructionId where
  | addi | xori | ori | andi
  | add | sub | xor | or | and
  | sll | srl | sra | slli | srli | srai
  | slt | sltu | slti | sltiu
  | lui | auipc | jal | jalr
  deriving DecidableEq, Repr

def InstructionId.code : InstructionId → ℕ
  | .addi => 0 | .xori => 1 | .ori => 2 | .andi => 3
  | .add => 4 | .sub => 5 | .xor => 6 | .or => 7 | .and => 8
  | .sll => 9 | .srl => 10 | .sra => 11 | .slli => 12 | .srli => 13 | .srai => 14
  | .slt => 15 | .sltu => 16 | .slti => 17 | .sltiu => 18
  | .lui => 19 | .auipc => 20 | .jal => 21 | .jalr => 22

/-- A tuple sent to one of the range or operation tables. -/
abbrev Check (F : Type*) := BusName × List F

variable {F : Type*} [Field F]

/-- The bus side of one row. Every multiplicity is `isDummy` (1 on real rows, 0 on padding),
except that JAL gates its memory operation further. -/
structure RowPorts (F : Type*) where
  id : InstructionId
  pc : Limbs F
  timestamp : F
  nextPc : Limbs F
  ticks : ℕ
  decodeBus : BusName
  operands : List F
  memory : List (MemoryTuple F)
  memoryMultiplicity : F
  checks : List (Check F)
  isDummy : F

/-- The decoded instruction the row looks up; only the tuples of the `decode` bus carry the pc. -/
def RowPorts.decode (io : RowPorts F) : List F :=
  (if io.decodeBus = .decode then List.ofFn io.pc else []) ++ (io.id.code : F) :: io.operands

def RowPorts.lookups (io : RowPorts F) : List (Interaction F) :=
  [receive .trace (traceTuple io.pc io.timestamp) io.isDummy,
    send io.decodeBus io.decode io.isDummy] ++
  io.memory.map (fun op => send .memory op.toList io.memoryMultiplicity) ++
  io.checks.map (fun c => send c.1 c.2 io.isDummy) ++
  [send .trace (traceTuple io.nextPc (io.timestamp + io.ticks)) io.isDummy]

def byteChecks (x : Limbs F) : List (Check F) := List.ofFn fun i => (.bytes, [x i])

def tripleChecks (bus : BusName) (x y z : Limbs F) : List (Check F) :=
  List.ofFn fun i => (bus, [x i, y i, z i])

def shiftChecks (bus : BusName) (x : Limbs F) (bitShamt : F) (shifted carry : Limbs F) :
    List (Check F) :=
  List.ofFn fun i => (bus, [x i, bitShamt, shifted i, carry i])

def readTuple (timestamp r : F) (value : Limbs F) : MemoryTuple F :=
  ⟨timestamp, 0, registerAddress r, value, value⟩

def writeTuple (timestamp r : F) (old new : Limbs F) : MemoryTuple F :=
  ⟨timestamp, 0, registerAddress r, old, new⟩

/-- Columns of every R-type AIR. -/
structure RegisterColumns (F : Type*) where
  pc : Limbs F
  timestamp : F
  rd : F
  rs1 : F
  rs2 : F
  oldRdValue : Limbs F
  nextPc : Limbs F
  nextPcCarries : Fin 3 → F
  isDummy : F

def RegisterColumns.eval (c : RegisterColumns F) : Prop :=
  AssertBool c.isDummy ∧ u32PlusFour c.pc c.nextPc c.nextPcCarries

instance RegisterColumns.decidableEval [DecidableEq F] (c : RegisterColumns F) : Decidable c.eval :=
  inferInstanceAs (Decidable (_ ∧ _))

/-- Read `rs1`, read `rs2`, write `rd`. -/
def RegisterColumns.ports (c : RegisterColumns F) (id : InstructionId)
    (rs1Value rs2Value rdValue : Limbs F) (checks : List (Check F)) : RowPorts F where
  id := id
  pc := c.pc
  timestamp := c.timestamp
  nextPc := c.nextPc
  ticks := 3
  decodeBus := .decode
  operands := [c.rd, c.rs1, c.rs2]
  memory := [readTuple c.timestamp c.rs1 rs1Value, readTuple (c.timestamp + 1) c.rs2 rs2Value,
    writeTuple (c.timestamp + 2) c.rd c.oldRdValue rdValue]
  memoryMultiplicity := c.isDummy
  checks := checks
  isDummy := c.isDummy

/-- Columns of every I-type AIR that falls through to `pc + 4`; `imm` is the unsigned immediate
from the decode bus, the shift amount for shifts. -/
structure ImmediateColumns (F : Type*) where
  pc : Limbs F
  timestamp : F
  rd : F
  rs1 : F
  imm : F
  oldRdValue : Limbs F
  nextPc : Limbs F
  nextPcCarries : Fin 3 → F
  isDummy : F

def ImmediateColumns.eval (c : ImmediateColumns F) : Prop :=
  AssertBool c.isDummy ∧ u32PlusFour c.pc c.nextPc c.nextPcCarries

instance ImmediateColumns.decidableEval [DecidableEq F] (c : ImmediateColumns F) :
    Decidable c.eval :=
  inferInstanceAs (Decidable (_ ∧ _))

/-- Read `rs1`, write `rd`. -/
def ImmediateColumns.ports (c : ImmediateColumns F) (id : InstructionId)
    (rs1Value rdValue : Limbs F) (checks : List (Check F)) : RowPorts F where
  id := id
  pc := c.pc
  timestamp := c.timestamp
  nextPc := c.nextPc
  ticks := 2
  decodeBus := .decode
  operands := [c.rd, c.rs1, c.imm]
  memory := [readTuple c.timestamp c.rs1 rs1Value,
    writeTuple (c.timestamp + 1) c.rd c.oldRdValue rdValue]
  memoryMultiplicity := c.isDummy
  checks := checks
  isDummy := c.isDummy

/-- Columns for a sign-extended immediate: the bits of its high nibble and its four bytes. -/
structure SignExtension (F : Type*) where
  immHighBits : Fin 4 → F
  immSeBytes : Limbs F

def SignExtension.highNibble (s : SignExtension F) : F :=
  s.immHighBits 0 + s.immHighBits 1 * 2 + s.immHighBits 2 * 4 + s.immHighBits 3 * 8

def SignExtension.eval (s : SignExtension F) (imm : F) : Prop :=
  (∀ i, AssertBool (s.immHighBits i)) ∧
    imm = s.immSeBytes 0 + s.highNibble * 256 ∧
    s.immSeBytes 1 = s.highNibble + s.immHighBits 3 * 0xF0 ∧
    s.immSeBytes 2 = s.immHighBits 3 * 0xFF ∧
    s.immSeBytes 3 = s.immHighBits 3 * 0xFF

instance SignExtension.decidableEval [DecidableEq F] (s : SignExtension F) (imm : F) :
    Decidable (s.eval imm) :=
  inferInstanceAs (Decidable (_ ∧ _))

end Loquela.Air
