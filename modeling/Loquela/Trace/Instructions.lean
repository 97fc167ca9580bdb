import Loquela.Air.Instructions.Operands
import Loquela.Air.Instructions.Row
import Loquela.Trace.Memory

/-! # Building the instruction traces

Each of the 23 builders picks the steps of its own kind out of the interpreter's trace, fills one
row per step from the logged memory operations and pads the table with rows that are off the
buses.
-/

namespace Loquela.Trace
open Air
open Vm (ExecutionStep Instruction MemoryOperation Register U32)

/-- A step of an R-type kind. -/
structure RegisterStep where
  pc : U32
  timestamp : ℕ
  rd : Register
  rs1 : Register
  rs2 : Register
  rs1Value : U32
  rs2Value : U32
  oldRdValue : U32
  rdNewValue : U32

def registerStep (step : ExecutionStep) (rd rs1 rs2 : Register) : Option RegisterStep :=
  match step.memoryOps with
  | [.read _ _ timestamp rs1Value, .read _ _ _ rs2Value, .write _ _ _ oldValue newValue] =>
    some ⟨step.state.pc, timestamp, rd, rs1, rs2, rs1Value, rs2Value, oldValue, newValue⟩
  | _ => none

/-- A step of a kind with one source register. -/
structure ImmediateStep where
  pc : U32
  timestamp : ℕ
  rd : Register
  rs1 : Register
  rs1Value : U32
  oldRdValue : U32
  rdNewValue : U32

def immediateStep (step : ExecutionStep) (rd rs1 : Register) : Option ImmediateStep :=
  match step.memoryOps with
  | [.read _ _ timestamp value, .write _ _ _ oldValue newValue] =>
    some ⟨step.state.pc, timestamp, rd, rs1, value, oldValue, newValue⟩
  | _ => none

/-- A step that only writes. -/
structure WriteStep where
  pc : U32
  timestamp : ℕ
  rd : Register
  oldRdValue : U32
  rdVal : U32

def upperStep (step : ExecutionStep) (rd : Register) : Option WriteStep :=
  match step.memoryOps with
  | [.write _ _ timestamp oldValue newValue] =>
    some ⟨step.state.pc, timestamp, rd, oldValue, newValue⟩
  | _ => none

/-- `JAL` to `x0` logs nothing: its timestamp is the running one, its write `pc + 4` over 0. -/
def jalStep (entryTimestamp : ℕ) (step : ExecutionStep) (rd : Register) : Option WriteStep :=
  match step.memoryOps with
  | [.write _ _ timestamp oldValue newValue] =>
    some ⟨step.state.pc, timestamp, rd, oldValue, newValue⟩
  | [] => if rd = 0 then some ⟨step.state.pc, entryTimestamp, rd, 0, step.state.pc + 4⟩ else none
  | _ => none

/-- The timestamps a step consumes: one per memory operation, and one for a `JAL` to `x0`. -/
def consumed (step : ExecutionStep) : ℕ :=
  match step.memoryOps, step.instruction with
  | [], .jal rd _ => if rd = 0 then 1 else 0
  | ops, _ => ops.length

/-- Every step with the running timestamp before it. -/
def withEntryTimestamps : ℕ → List ExecutionStep → List (ℕ × ExecutionStep)
  | _, [] => []
  | runningTs, step :: steps =>
    (runningTs, step) :: withEntryTimestamps (runningTs + consumed step) steps

variable {F : Type*} [Field F]

def registerColumns (s : RegisterStep) : RegisterColumns F where
  pc := u32ToLimbs s.pc
  timestamp := s.timestamp
  rd := s.rd.toNat
  rs1 := s.rs1.toNat
  rs2 := s.rs2.toNat
  oldRdValue := u32ToLimbs s.oldRdValue
  nextPc := u32ToLimbs (s.pc + 4)
  nextPcCarries := ofNats (pcPlus4Carries s.pc)
  isDummy := 1

def registerPadding : RegisterColumns F where
  pc := 0
  timestamp := 0
  rd := 0
  rs1 := 0
  rs2 := 0
  oldRdValue := 0
  nextPc := ![4, 0, 0, 0]
  nextPcCarries := 0
  isDummy := 0

/-- `imm` is the unsigned immediate, or the shift amount. -/
def immediateColumns (s : ImmediateStep) (imm : ℕ) : ImmediateColumns F where
  pc := u32ToLimbs s.pc
  timestamp := s.timestamp
  rd := s.rd.toNat
  rs1 := s.rs1.toNat
  imm := imm
  oldRdValue := u32ToLimbs s.oldRdValue
  nextPc := u32ToLimbs (s.pc + 4)
  nextPcCarries := ofNats (pcPlus4Carries s.pc)
  isDummy := 1

def immediatePadding : ImmediateColumns F where
  pc := 0
  timestamp := 0
  rd := 0
  rs1 := 0
  imm := 0
  oldRdValue := 0
  nextPc := ![4, 0, 0, 0]
  nextPcCarries := 0
  isDummy := 0

/-- Bits 8 to 11 of the unsigned immediate and the bytes of the sign-extended one. -/
def signExtension (immU12 : ℕ) (immSe : U32) : SignExtension F where
  immHighBits := ofNats fun i => (immU12 >>> 8 &&& 0xF) >>> (i : ℕ) &&& 1
  immSeBytes := u32ToLimbs immSe

def signExtensionPadding : SignExtension F := ⟨0, 0⟩

/-- The unsigned 12 bits of an immediate kept as `i16`. -/
def immU12 (imm : BitVec 16) : ℕ := (imm &&& 0xFFF).toNat

/-- The unsigned 12 bits of an immediate kept as `i32`. -/
def immU12' (imm : U32) : ℕ := (imm &&& 0xFFF).toNat

def upperColumns (s : WriteStep) (imm : U32) : UpperColumns F where
  pc := u32ToLimbs s.pc
  timestamp := s.timestamp
  rd := s.rd.toNat
  immLow8 := (imm &&& 0xFF).toNat
  immHigh12 := (imm >>> 8 &&& 0xFFF).toNat
  rdVal := u32ToLimbs s.rdVal
  oldRdValue := u32ToLimbs s.oldRdValue
  nextPc := u32ToLimbs (s.pc + 4)
  nextPcCarries := ofNats (pcPlus4Carries s.pc)
  isDummy := 1

def upperPadding : UpperColumns F where
  pc := 0
  timestamp := 0
  rd := 0
  immLow8 := 0
  immHigh12 := 0
  rdVal := 0
  oldRdValue := 0
  nextPc := ![4, 0, 0, 0]
  nextPcCarries := 0
  isDummy := 0

def addRow (s : RegisterStep) : AddColumns F :=
  { registerColumns s with
    rs1Value := u32ToLimbs s.rs1Value
    rs2Value := u32ToLimbs s.rs2Value
    rdNewValue := u32ToLimbs s.rdNewValue
    addCarries := ofNats (u32AddCarries s.rs1Value s.rs2Value) }

def addPadding : AddColumns F :=
  { registerPadding with rs1Value := 0, rs2Value := 0, rdNewValue := 0, addCarries := 0 }

def subRow (s : RegisterStep) : SubColumns F :=
  { registerColumns s with
    rs1Value := u32ToLimbs s.rs1Value
    rs2Value := u32ToLimbs s.rs2Value
    rdNewValue := u32ToLimbs s.rdNewValue
    subBorrows := ofNats (u32SubBorrows s.rs1Value s.rs2Value) }

def subPadding : SubColumns F :=
  { registerPadding with rs1Value := 0, rs2Value := 0, rdNewValue := 0, subBorrows := 0 }

def bitwiseRow (s : RegisterStep) : BitwiseColumns F :=
  { registerColumns s with
    rs1Value := u32ToLimbs s.rs1Value
    rs2Value := u32ToLimbs s.rs2Value
    rdNewValue := u32ToLimbs s.rdNewValue }

def bitwisePadding : BitwiseColumns F :=
  { registerPadding with rs1Value := 0, rs2Value := 0, rdNewValue := 0 }

def addiRow (s : ImmediateStep) (imm : BitVec 16) : AddiColumns F :=
  { immediateColumns s (immU12 imm), signExtension (immU12 imm) (imm.signExtend 32) with
    rs1Value := u32ToLimbs s.rs1Value
    rdNewValue := u32ToLimbs s.rdNewValue
    addCarries := ofNats (u32AddCarries s.rs1Value (imm.signExtend 32)) }

def addiPadding : AddiColumns F :=
  { immediatePadding, signExtensionPadding with rs1Value := 0, rdNewValue := 0, addCarries := 0 }

def bitwiseImmRow (s : ImmediateStep) (imm : BitVec 16) : BitwiseImmColumns F :=
  { immediateColumns s (immU12 imm), signExtension (immU12 imm) (imm.signExtend 32) with
    rs1Value := u32ToLimbs s.rs1Value
    rdNewValue := u32ToLimbs s.rdNewValue }

def bitwiseImmPadding : BitwiseImmColumns F :=
  { immediatePadding, signExtensionPadding with rs1Value := 0, rdNewValue := 0 }

def sllShifted (byteVal bitShamt : ℕ) : ℕ := byteVal <<< bitShamt &&& 0xFF

def sllCarry (byteVal bitShamt : ℕ) : ℕ := if bitShamt = 0 then 0 else byteVal >>> (8 - bitShamt)

def srlShifted (byteVal bitShamt : ℕ) : ℕ := byteVal >>> bitShamt

def srlCarry (byteVal bitShamt : ℕ) : ℕ :=
  if bitShamt = 0 then 0 else byteVal <<< (8 - bitShamt) &&& 0xFF

/-- `shifted` and `carry` are the two results of the within-byte stage. -/
def shiftStages (rs1Value rdValue : U32) (shamt : ℕ) (shifted carry : ℕ → ℕ → ℕ) :
    ShiftStages F where
  rs1Bytes := u32ToLimbs rs1Value
  rdBytes := u32ToLimbs rdValue
  bitShamt := (shamt % 8 : ℕ)
  byteShamt := (shamt / 8 : ℕ)
  isBs := fun k => if shamt / 8 = k then 1 else 0
  shiftedBytes := ofNats fun i => shifted (leBytes rs1Value i) (shamt % 8)
  carryBytes := ofNats fun i => carry (leBytes rs1Value i) (shamt % 8)

def shiftStagesPadding : ShiftStages F where
  rs1Bytes := 0
  rdBytes := 0
  bitShamt := 0
  byteShamt := 0
  isBs := ![1, 0, 0, 0]
  shiftedBytes := 0
  carryBytes := 0

def signFill (rs1Value : U32) (bitShamt : ℕ) : SignFill F where
  signBit := (rs1Value >>> 31 &&& 1).toNat
  fillByte := ((rs1Value >>> 31 &&& 1).toNat * 255 : ℕ)
  rs1Byte3Low7 := (leBytes rs1Value 3 &&& 0x7F : ℕ)
  srlFfShifted := srlShifted 0xFF bitShamt
  srlFfCarry := srlCarry 0xFF bitShamt

def signFillPadding : SignFill F := ⟨0, 0, 0, 0, 0⟩

/-- The shift amount of an R-type shift. -/
def registerShamt (s : RegisterStep) : ℕ := (s.rs2Value &&& 0x1F).toNat

def shiftRow (s : RegisterStep) (shifted carry : ℕ → ℕ → ℕ) : ShiftColumns F :=
  { registerColumns s,
    shiftStages s.rs1Value s.rdNewValue (registerShamt s) shifted carry with
    rs2Value := u32ToLimbs s.rs2Value
    rs2ShamtHigh := ((s.rs2Value &&& 0xFF) >>> 5).toNat }

def shiftPadding : ShiftColumns F :=
  { registerPadding, shiftStagesPadding with rs2Value := 0, rs2ShamtHigh := 0 }

def sllRow (s : RegisterStep) : ShiftColumns F := shiftRow s sllShifted sllCarry

def srlRow (s : RegisterStep) : ShiftColumns F := shiftRow s srlShifted srlCarry

def sraRow (s : RegisterStep) : SraColumns F :=
  { shiftRow s srlShifted srlCarry, signFill s.rs1Value (registerShamt s % 8) with }

def sraPadding : SraColumns F := { shiftPadding, signFillPadding with }

/-- The shift amount of an immediate shift. -/
def immediateShamt (imm : U32) : ℕ := (imm &&& 0x1F).toNat

def shiftImmRow (s : ImmediateStep) (imm : U32) (shifted carry : ℕ → ℕ → ℕ) :
    ShiftImmColumns F :=
  { immediateColumns s (immediateShamt imm),
    shiftStages s.rs1Value s.rdNewValue (immediateShamt imm) shifted carry with }

def shiftImmPadding : ShiftImmColumns F := { immediatePadding, shiftStagesPadding with }

def slliRow (s : ImmediateStep) (imm : U32) : ShiftImmColumns F :=
  shiftImmRow s imm sllShifted sllCarry

def srliRow (s : ImmediateStep) (imm : U32) : ShiftImmColumns F :=
  shiftImmRow s imm srlShifted srlCarry

def sraiRow (s : ImmediateStep) (imm : U32) : SraiColumns F :=
  { shiftImmRow s imm srlShifted srlCarry, signFill s.rs1Value (immediateShamt imm % 8) with }

def sraiPadding : SraiColumns F := { shiftImmPadding, signFillPadding with }

def comparison (x y : U32) (lt : Bool) : Comparison F where
  rs1Bytes := u32ToLimbs x
  diffBytes := ofNats (u32SubDiff x y)
  borrow := ofNats (u32SubBorrows x y)
  ltResult := if lt then 1 else 0

def comparisonPadding : Comparison F := ⟨0, 0, 0, 0⟩

/-- The sign and the remaining seven bits of the high byte. -/
def signBit (v : U32) : ℕ := (v >>> 31).toNat

def byte3Low7 (v : U32) : ℕ := (v >>> 24 &&& 0xFF &&& 0x7F).toNat

def sltRow (s : RegisterStep) : SltColumns F :=
  { registerColumns s, comparison s.rs1Value s.rs2Value (s.rs1Value.slt s.rs2Value) with
    rs2Bytes := u32ToLimbs s.rs2Value
    signRs1 := signBit s.rs1Value
    signRs2 := signBit s.rs2Value
    rs1Byte3Low7 := byte3Low7 s.rs1Value
    rs2Byte3Low7 := byte3Low7 s.rs2Value }

def sltPadding : SltColumns F :=
  { registerPadding, comparisonPadding with
    rs2Bytes := 0, signRs1 := 0, signRs2 := 0, rs1Byte3Low7 := 0, rs2Byte3Low7 := 0 }

def sltuRow (s : RegisterStep) : SltuColumns F :=
  { registerColumns s, comparison s.rs1Value s.rs2Value (s.rs1Value < s.rs2Value) with
    rs2Bytes := u32ToLimbs s.rs2Value }

def sltuPadding : SltuColumns F := { registerPadding, comparisonPadding with rs2Bytes := 0 }

def sltiRow (s : ImmediateStep) (imm : U32) : SltiColumns F :=
  { immediateColumns s (immU12' imm), signExtension (immU12' imm) imm,
    comparison s.rs1Value imm (s.rs1Value.slt imm) with
    signRs1 := signBit s.rs1Value
    rs1Byte3Low7 := byte3Low7 s.rs1Value }

def sltiPadding : SltiColumns F :=
  { immediatePadding, signExtensionPadding, comparisonPadding with
    signRs1 := 0, rs1Byte3Low7 := 0 }

def sltiuRow (s : ImmediateStep) (imm : U32) : SltiuColumns F :=
  { immediateColumns s (immU12' imm), signExtension (immU12' imm) imm,
    comparison s.rs1Value imm (s.rs1Value < imm) with }

def sltiuPadding : SltiuColumns F :=
  { immediatePadding, signExtensionPadding, comparisonPadding with }

def luiRow (s : WriteStep) (imm : U32) : LuiColumns F := upperColumns s imm

def auipcRow (s : WriteStep) (imm : U32) : AuipcColumns F :=
  { upperColumns s imm with
    immU := u32ToLimbs (imm <<< 12)
    addCarries := ofNats (u32AddCarries s.pc (imm <<< 12)) }

def auipcPadding : AuipcColumns F := { upperPadding with immU := 0, addCarries := 0 }

/-- Offset bits 10 to 1, then 11, then 20, as the builder reassembles them. -/
def jalImmHigh12 (imm : U32) : U32 :=
  (imm >>> 1 &&& 0x3FF) ||| (imm >>> 11 &&& 1) <<< 10 ||| (imm >>> 20 &&& 1) <<< 11

def jalImmLo8 (imm : U32) : U32 := imm >>> 12 &&& 0xFF

def jalRow (s : WriteStep) (imm : U32) : JalColumns F where
  pc := u32ToLimbs s.pc
  timestamp := s.timestamp
  rd := s.rd.toNat
  immHigh12 := (jalImmHigh12 imm).toNat
  immLo8 := (jalImmLo8 imm).toNat
  immHigh12Bits := ofNats fun i => (jalImmHigh12 imm >>> (i : ℕ) &&& 1).toNat
  immLo8Bits := ofNats fun i => (jalImmLo8 imm >>> (i : ℕ) &&& 1).toNat
  immJ := u32ToLimbs imm
  jmpCarries := ofNats (u32AddCarries s.pc imm)
  rdVal := u32ToLimbs s.rdVal
  rdValCarries := ofNats (pcPlus4Carries s.pc)
  oldRdValue := u32ToLimbs s.oldRdValue
  nextPc := u32ToLimbs (s.pc + imm)
  rdIsZero := if s.rd = 0 then 1 else 0
  rdInv := if s.rd = 0 then 0 else (s.rd.toNat : F)⁻¹
  isDummy := 1

def jalPadding : JalColumns F where
  pc := 0
  timestamp := 0
  rd := 0
  immHigh12 := 0
  immLo8 := 0
  immHigh12Bits := 0
  immLo8Bits := 0
  immJ := 0
  jmpCarries := 0
  rdVal := ![4, 0, 0, 0]
  rdValCarries := 0
  oldRdValue := 0
  nextPc := 0
  rdIsZero := 1
  rdInv := 0
  isDummy := 0

def jalrRow (s : ImmediateStep) (imm : U32) : JalrColumns F :=
  { signExtension (immU12' imm) imm with
    pc := u32ToLimbs s.pc
    timestamp := s.timestamp
    rd := s.rd.toNat
    rs1 := s.rs1.toNat
    imm := immU12' imm
    rs1Value := u32ToLimbs s.rs1Value
    oldRdValue := u32ToLimbs s.oldRdValue
    rdVal := u32ToLimbs s.rdNewValue
    rdValCarries := ofNats (pcPlus4Carries s.pc)
    sum := u32ToLimbs (s.rs1Value + imm)
    sumCarries := ofNats (u32AddCarries s.rs1Value imm)
    sumLsb := (s.rs1Value + imm &&& 1).toNat
    nextPc := u32ToLimbs ((s.rs1Value + imm) &&& ~~~1)
    isDummy := 1 }

def jalrPadding : JalrColumns F :=
  { signExtensionPadding with
    pc := 0
    timestamp := 0
    rd := 0
    rs1 := 0
    imm := 0
    rs1Value := 0
    oldRdValue := 0
    rdVal := ![4, 0, 0, 0]
    rdValCarries := 0
    sum := 0
    sumCarries := 0
    sumLsb := 0
    nextPc := 0
    isDummy := 0 }

/-- The row of a step, in the table of its kind. -/
def fillRow (entryTimestamp : ℕ) (step : ExecutionStep) : Option (InstrRow F) :=
  match step.instruction with
  | .addI rd rs1 imm => (immediateStep step rd rs1).map fun s => .addi (addiRow s imm)
  | .xorI rd rs1 imm => (immediateStep step rd rs1).map fun s => .xori (bitwiseImmRow s imm)
  | .oriI rd rs1 imm => (immediateStep step rd rs1).map fun s => .ori (bitwiseImmRow s imm)
  | .andiI rd rs1 imm => (immediateStep step rd rs1).map fun s => .andi (bitwiseImmRow s imm)
  | .slliI rd rs1 imm => (immediateStep step rd rs1).map fun s => .slli (slliRow s imm)
  | .srliI rd rs1 imm => (immediateStep step rd rs1).map fun s => .srli (srliRow s imm)
  | .sraiI rd rs1 imm => (immediateStep step rd rs1).map fun s => .srai (sraiRow s imm)
  | .add rd rs1 rs2 => (registerStep step rd rs1 rs2).map fun s => .add (addRow s)
  | .sub rd rs1 rs2 => (registerStep step rd rs1 rs2).map fun s => .sub (subRow s)
  | .xor rd rs1 rs2 => (registerStep step rd rs1 rs2).map fun s => .xor (bitwiseRow s)
  | .or rd rs1 rs2 => (registerStep step rd rs1 rs2).map fun s => .or (bitwiseRow s)
  | .and rd rs1 rs2 => (registerStep step rd rs1 rs2).map fun s => .and (bitwiseRow s)
  | .sll rd rs1 rs2 => (registerStep step rd rs1 rs2).map fun s => .sll (sllRow s)
  | .srl rd rs1 rs2 => (registerStep step rd rs1 rs2).map fun s => .srl (srlRow s)
  | .sra rd rs1 rs2 => (registerStep step rd rs1 rs2).map fun s => .sra (sraRow s)
  | .slt rd rs1 rs2 => (registerStep step rd rs1 rs2).map fun s => .slt (sltRow s)
  | .sltu rd rs1 rs2 => (registerStep step rd rs1 rs2).map fun s => .sltu (sltuRow s)
  | .sltiI rd rs1 imm => (immediateStep step rd rs1).map fun s => .slti (sltiRow s imm)
  | .sltiuI rd rs1 imm => (immediateStep step rd rs1).map fun s => .sltiu (sltiuRow s imm)
  | .lui rd imm => (upperStep step rd).map fun s => .lui (luiRow s imm)
  | .auipc rd imm => (upperStep step rd).map fun s => .auipc (auipcRow s imm)
  | .jal rd imm => (jalStep entryTimestamp step rd).map fun s => .jal (jalRow s imm)
  | .jalr rd rs1 imm => (immediateStep step rd rs1).map fun s => .jalr (jalrRow s imm)

def paddingRow : InstructionId → InstrRow F
  | .addi => .addi addiPadding
  | .xori => .xori bitwiseImmPadding
  | .ori => .ori bitwiseImmPadding
  | .andi => .andi bitwiseImmPadding
  | .add => .add addPadding
  | .sub => .sub subPadding
  | .xor => .xor bitwisePadding
  | .or => .or bitwisePadding
  | .and => .and bitwisePadding
  | .sll => .sll shiftPadding
  | .srl => .srl shiftPadding
  | .sra => .sra sraPadding
  | .slli => .slli shiftImmPadding
  | .srli => .srli shiftImmPadding
  | .srai => .srai sraiPadding
  | .slt => .slt sltPadding
  | .sltu => .sltu sltuPadding
  | .slti => .slti sltiPadding
  | .sltiu => .sltiu sltiuPadding
  | .lui => .lui upperPadding
  | .auipc => .auipc auipcPadding
  | .jal => .jal jalPadding
  | .jalr => .jalr jalrPadding

/-- The rows of the steps of kind `id`. -/
def extractRows (id : InstructionId) (steps : List ExecutionStep) : List (InstrRow F) :=
  (withEntryTimestamps 0 steps).filterMap fun entry =>
    if instructionId entry.2.instruction = id then fillRow entry.1 entry.2 else none

/-- `build_trace` of kind `id`; `none` is its assertion that there is a row. -/
def buildTrace (id : InstructionId) (steps : List ExecutionStep) : Option (List (InstrRow F)) :=
  let rows := extractRows id steps
  if rows.isEmpty then none
  else some (rows ++ List.replicate (height rows.length - rows.length) (paddingRow id))

/-- `has_k`. -/
def hasKind (id : InstructionId) (steps : List ExecutionStep) : Bool :=
  steps.any fun step => instructionId step.instruction = id

end Loquela.Trace
