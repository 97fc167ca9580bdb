import Loquela.Trace.Pipeline

/-! # Layout of the trace matrices

The columns of every AIR as the vector of field elements its row is stored as, in the order of the
fields of its column struct, and the widths the AIRs report.
-/

namespace Loquela.Trace
open Air

variable {F : Type}

section Instructions

def limbs {n : ℕ} (x : Fin n → F) : List F := List.ofFn x

def addColumns (c : AddColumns F) : List F :=
  [limbs c.pc, [c.timestamp, c.rd, c.rs1, c.rs2], limbs c.rs1Value, limbs c.rs2Value,
    limbs c.oldRdValue, limbs c.rdNewValue, limbs c.addCarries, limbs c.nextPc,
    limbs c.nextPcCarries, [c.isDummy]].flatten

def subColumns (c : SubColumns F) : List F :=
  [limbs c.pc, [c.timestamp, c.rd, c.rs1, c.rs2], limbs c.rs1Value, limbs c.rs2Value,
    limbs c.oldRdValue, limbs c.rdNewValue, limbs c.subBorrows, limbs c.nextPc,
    limbs c.nextPcCarries, [c.isDummy]].flatten

/-- `XorColumns`, `OrColumns` and `AndColumns`. -/
def bitwiseColumns (c : BitwiseColumns F) : List F :=
  [limbs c.pc, [c.timestamp, c.rd, c.rs1, c.rs2], limbs c.rs1Value, limbs c.rs2Value,
    limbs c.oldRdValue, limbs c.rdNewValue, limbs c.nextPc, limbs c.nextPcCarries,
    [c.isDummy]].flatten

def addiColumns (c : AddiColumns F) : List F :=
  [limbs c.pc, [c.timestamp, c.rd, c.rs1, c.imm], limbs c.immHighBits, limbs c.immSeBytes,
    limbs c.rs1Value, limbs c.oldRdValue, limbs c.rdNewValue, limbs c.addCarries, limbs c.nextPc,
    limbs c.nextPcCarries, [c.isDummy]].flatten

/-- `XoriColumns`, `OriColumns` and `AndiColumns`. -/
def bitwiseImmColumns (c : BitwiseImmColumns F) : List F :=
  [limbs c.pc, [c.timestamp, c.rd, c.rs1, c.imm], limbs c.immHighBits, limbs c.immSeBytes,
    limbs c.rs1Value, limbs c.oldRdValue, limbs c.rdNewValue, limbs c.nextPc,
    limbs c.nextPcCarries, [c.isDummy]].flatten

/-- `SllColumns` and `SrlColumns`, up to the columns of the sign that `SraColumns` has next. -/
def shiftColumns (c : ShiftColumns F) (sign : List F) : List F :=
  [limbs c.pc, [c.timestamp, c.rd, c.rs1, c.rs2], limbs c.rs1Bytes, limbs c.rs2Value,
    limbs c.oldRdValue, limbs c.rdBytes, [c.bitShamt, c.byteShamt, c.rs2ShamtHigh], limbs c.isBs,
    limbs c.shiftedBytes, limbs c.carryBytes, sign, limbs c.nextPc, limbs c.nextPcCarries,
    [c.isDummy]].flatten

/-- `SlliColumns` and `SrliColumns`, up to the columns of the sign that `SraiColumns` has next. -/
def shiftImmColumns (c : ShiftImmColumns F) (sign : List F) : List F :=
  [limbs c.pc, [c.timestamp, c.rd, c.rs1, c.imm], limbs c.rs1Bytes, limbs c.oldRdValue,
    limbs c.rdBytes, [c.bitShamt, c.byteShamt], limbs c.isBs, limbs c.shiftedBytes,
    limbs c.carryBytes, sign, limbs c.nextPc, limbs c.nextPcCarries, [c.isDummy]].flatten

def signColumns (s : SignFill F) : List F :=
  [s.signBit, s.fillByte, s.rs1Byte3Low7, s.srlFfShifted, s.srlFfCarry]

def sltColumns (c : SltColumns F) : List F :=
  [limbs c.pc, [c.timestamp, c.rd, c.rs1, c.rs2], limbs c.rs1Bytes, limbs c.rs2Bytes,
    limbs c.oldRdValue, limbs c.diffBytes, limbs c.borrow,
    [c.signRs1, c.signRs2, c.rs1Byte3Low7, c.rs2Byte3Low7, c.ltResult], limbs c.nextPc,
    limbs c.nextPcCarries, [c.isDummy]].flatten

def sltuColumns (c : SltuColumns F) : List F :=
  [limbs c.pc, [c.timestamp, c.rd, c.rs1, c.rs2], limbs c.rs1Bytes, limbs c.rs2Bytes,
    limbs c.oldRdValue, limbs c.diffBytes, limbs c.borrow, [c.ltResult], limbs c.nextPc,
    limbs c.nextPcCarries, [c.isDummy]].flatten

def sltiColumns (c : SltiColumns F) : List F :=
  [limbs c.pc, [c.timestamp, c.rd, c.rs1, c.imm], limbs c.immHighBits, limbs c.immSeBytes,
    limbs c.rs1Bytes, limbs c.oldRdValue, limbs c.diffBytes, limbs c.borrow,
    [c.signRs1, c.rs1Byte3Low7, c.ltResult], limbs c.nextPc, limbs c.nextPcCarries,
    [c.isDummy]].flatten

def sltiuColumns (c : SltiuColumns F) : List F :=
  [limbs c.pc, [c.timestamp, c.rd, c.rs1, c.imm], limbs c.immHighBits, limbs c.immSeBytes,
    limbs c.rs1Bytes, limbs c.oldRdValue, limbs c.diffBytes, limbs c.borrow, [c.ltResult],
    limbs c.nextPc, limbs c.nextPcCarries, [c.isDummy]].flatten

def luiColumns (c : LuiColumns F) : List F :=
  [limbs c.pc, [c.timestamp, c.rd, c.immLow8, c.immHigh12], limbs c.rdVal, limbs c.oldRdValue,
    limbs c.nextPc, limbs c.nextPcCarries, [c.isDummy]].flatten

def auipcColumns (c : AuipcColumns F) : List F :=
  [limbs c.pc, [c.timestamp, c.rd, c.immLow8, c.immHigh12], limbs c.immU, limbs c.rdVal,
    limbs c.addCarries, limbs c.oldRdValue, limbs c.nextPc, limbs c.nextPcCarries,
    [c.isDummy]].flatten

def jalColumns (c : JalColumns F) : List F :=
  [limbs c.pc, [c.timestamp, c.rd, c.immHigh12, c.immLo8], limbs c.immHigh12Bits,
    limbs c.immLo8Bits, limbs c.immJ, limbs c.jmpCarries, limbs c.rdVal, limbs c.rdValCarries,
    limbs c.oldRdValue, limbs c.nextPc, [c.rdIsZero, c.rdInv, c.isDummy]].flatten

def jalrColumns (c : JalrColumns F) : List F :=
  [limbs c.pc, [c.timestamp, c.rd, c.rs1, c.imm], limbs c.immHighBits, limbs c.immSeBytes,
    limbs c.rs1Value, limbs c.oldRdValue, limbs c.rdVal, limbs c.rdValCarries, limbs c.sum,
    limbs c.sumCarries, [c.sumLsb], limbs c.nextPc, [c.isDummy]].flatten

def instrColumns : InstrRow F → List F
  | .addi c => addiColumns c
  | .xori c | .ori c | .andi c => bitwiseImmColumns c
  | .add c => addColumns c
  | .sub c => subColumns c
  | .xor c | .or c | .and c => bitwiseColumns c
  | .sll c | .srl c => shiftColumns c []
  | .sra c => shiftColumns c.toShiftColumns (signColumns c.toSignFill)
  | .slli c | .srli c => shiftImmColumns c []
  | .srai c => shiftImmColumns c.toShiftImmColumns (signColumns c.toSignFill)
  | .slt c => sltColumns c
  | .sltu c => sltuColumns c
  | .slti c => sltiColumns c
  | .sltiu c => sltiuColumns c
  | .lui c => luiColumns c
  | .auipc c => auipcColumns c
  | .jal c => jalColumns c
  | .jalr c => jalrColumns c

/-- `NUM_ADDI_COLS` and so on. -/
def instrWidth : InstructionId → ℕ
  | .addi => 40
  | .xori | .ori | .andi => 36
  | .add | .sub => 36
  | .xor | .or | .and => 32
  | .sll | .srl => 47
  | .sra => 52
  | .slli | .srli => 42
  | .srai => 47
  | .slt => 41
  | .sltu => 37
  | .slti => 43
  | .sltiu => 41
  | .lui => 24
  | .auipc => 32
  | .jal => 54
  | .jalr => 45

theorem length_shiftColumns (c : ShiftColumns F) (sign : List F) :
    (shiftColumns c sign).length = 47 + sign.length := by
  simp [shiftColumns, limbs]
  omega

theorem length_shiftImmColumns (c : ShiftImmColumns F) (sign : List F) :
    (shiftImmColumns c sign).length = 42 + sign.length := by
  simp [shiftImmColumns, limbs]
  omega

/-- A row is as wide as its AIR says. -/
theorem length_instrColumns [Field F] (r : InstrRow F) : (instrColumns r).length = instrWidth r.id := by
  cases r with
  | sll c => exact length_shiftColumns c []
  | srl c => exact length_shiftColumns c []
  | sra c => exact length_shiftColumns c.toShiftColumns (signColumns c.toSignFill)
  | slli c => exact length_shiftImmColumns c []
  | srli c => exact length_shiftImmColumns c []
  | srai c => exact length_shiftImmColumns c.toShiftImmColumns (signColumns c.toSignFill)
  | _ =>
    simp [instrColumns, addiColumns, bitwiseImmColumns, addColumns, subColumns, bitwiseColumns,
      sltColumns, sltuColumns, sltiColumns, sltiuColumns, luiColumns, auipcColumns, jalColumns,
      jalrColumns, limbs]
    rfl

end Instructions

section Tables

def boundaryColumns (c : BoundaryColumns F) : List F := limbs c.pc ++ [c.timestamp]

/-- The flags of `Instruction` are in the order of the numbering. -/
def decodeColumns (c : DecodeColumns F) : List F :=
  [limbs c.pc, limbs c.instruction, (limbs c.decompositions).flatMap limbs,
    InstructionId.all.map c.instrType,
    [c.instrTypePacked, c.rd, c.rs1, c.imm, c.rs2, c.immLow8, c.mult]].flatten

def memoryColumns (c : MemoryColumns F) : List F :=
  [[c.memoryType], limbs c.address, [c.timestamp], limbs c.read, limbs c.write,
    [c.isMemoryTypeEqual, c.isTimestampEqual, c.isAddressEqual, c.isPadding]].flatten

def programColumns (c : ProgramColumns F) : List F :=
  [limbs c.address, [c.value, c.mult], limbs c.incCarries, [c.isReal]].flatten

def programHashColumns (c : ProgramHashColumns F) : List F :=
  [limbs c.state, limbs c.bytes, [c.baseAddr], limbs c.isActive, [c.flag, c.cumActive],
    limbs c.permIn, limbs c.permOut].flatten

def u32LessThanColumns (c : U32LessThanColumns F) : List F :=
  [limbs c.x, limbs c.y, limbs c.inverses, limbs c.isEquals, [c.isEqual], limbs c.multLts,
    [c.mult]].flatten

def timestampLessThanColumns (c : TimestampLessThanColumns F) : List F :=
  [[c.x, c.y], limbs c.xBits, limbs c.yBits, limbs c.vBits, [c.diffInv, c.isEqual, c.mult]].flatten

@[simp] theorem length_limbs {n : ℕ} (x : Fin n → F) : (limbs x).length = n := List.length_ofFn

@[simp] theorem length_boundaryColumns (c : BoundaryColumns F) : (boundaryColumns c).length = 5 := by
  simp [boundaryColumns]

@[simp] theorem length_decodeColumns (c : DecodeColumns F) : (decodeColumns c).length = 70 := by
  have hflags : InstructionId.all.length = 23 := rfl
  simp [decodeColumns, limbs, hflags, List.ofFn_succ]

@[simp] theorem length_memoryColumns (c : MemoryColumns F) : (memoryColumns c).length = 18 := by
  simp [memoryColumns]

@[simp] theorem length_programColumns (c : ProgramColumns F) : (programColumns c).length = 11 := by
  simp [programColumns]

@[simp] theorem length_programHashColumns (c : ProgramHashColumns F) :
    (programHashColumns c).length = 99 := by
  simp [programHashColumns]

@[simp] theorem length_u32LessThanColumns (c : U32LessThanColumns F) :
    (u32LessThanColumns c).length = 22 := by
  simp [u32LessThanColumns]

@[simp] theorem length_timestampLessThanColumns (c : TimestampLessThanColumns F) :
    (timestampLessThanColumns c).length = 78 := by
  simp [timestampLessThanColumns]

end Tables

/-- The upstream layout of the permutation chip: a number of columns, `NUM_MAIN_COLS`, and their
values in a row. -/
structure ChipLayout (F : Type) where
  numMainCols : ℕ
  columns : Poseidon2Columns F → Fin numMainCols → F

/-- The rows of a matrix. -/
def RowMajorMatrix.rows (L : ChipLayout F) : RowMajorMatrix F → List (List F)
  | .boundaries rows => (limbs rows).map boundaryColumns
  | .decode rows => rows.map decodeColumns
  | .memory rows => rows.map memoryColumns
  | .program rows => rows.map programColumns
  | .programHash rows => rows.map programHashColumns
  | .poseidon2Chip rows => rows.map fun c => limbs (L.columns c)
  | .u32Lt rows => rows.map u32LessThanColumns
  | .timestampLt rows => rows.map timestampLessThanColumns
  | .multiplicities column => column.map fun mult => [mult]
  | .bytesLt rows => rows.map fun c => [c.1, c.2]
  | .instr rows => rows.map instrColumns

/-- `BaseAir::width`. -/
def LoquelAir.width (L : ChipLayout F) : LoquelAir → ℕ
  | .boundaries => 5
  | .decode => 70
  | .memory => 18
  | .program => 11
  | .bytes | .and | .or | .xor | .orPrim | .andPrim | .byteSll | .byteSrl => 1
  | .u32Lt => 22
  | .timestampLt => 78
  | .bytesLt => 2
  | .instr id => instrWidth id
  | .programHash => 99
  | .poseidon2Chip _ => L.numMainCols

section Preprocessed

variable [Field F]

/-- The preprocessed columns of a lookup table are its rows. -/
def preprocessedRows (t : Table) : List (List F) := t.rows.map fun row => row.map Nat.cast

/-- The table behind a lookup AIR, one of the seven. -/
def LoquelAir.table : LoquelAir → Option Table
  | .bytes => some bytesAir
  | .and | .andPrim => some andAir
  | .or | .orPrim => some orAir
  | .xor => some xorAir
  | .bytesLt => some lessThanAir
  | .byteSll => some byteShiftLeftAir
  | .byteSrl => some byteShiftRightAir
  | _ => none

/-- `BaseAir::preprocessed_trace`. -/
def LoquelAir.preprocessedTrace : LoquelAir → Option (List (List F))
  | .boundaries => some [[1, 0], [0, 0], [0, 0], [0, 1]]
  | .poseidon2Chip numRealRows => some ((List.range (height (numRealRows + 1))).map fun i =>
      [if i < numRealRows then 1 else 0])
  | air => air.table.map preprocessedRows

/-- The interactions of a lookup AIR, row by row: the tuple is preprocessed, and the first column
of the main trace is its multiplicity. -/
def LoquelAir.tableInteractions (air : LoquelAir) (main : List (List F)) : List (Interaction F) :=
  air.table.elim [] fun t =>
    List.zipWith (fun tuple row => receive t.bus tuple (row.headD 0)) (preprocessedRows t) main

end Preprocessed

/-- `BaseAir::num_public_values`. -/
def LoquelAir.numPublicValues : LoquelAir → ℕ
  | .programHash => 8 + 1
  | _ => 0

end Loquela.Trace
