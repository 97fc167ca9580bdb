import Loquela.Library.Checked
import Loquela.Trace.Generate

/-! # The trace pipeline

`generate_traces` and `into_vecs` with everything that can panic on the way: assertions, unwrapped
options, indices and bounded additions. The tables are those of the builders; a panic is the error
of the computation.
-/

namespace Loquela.Trace
open Air Library.Checked
open Vm (Byte ExecutionStep Instruction MemoryOperation U32 VM)

/-- Where the pipeline panics, with the message of the source where it has one. -/
inductive Panic where
  /-- "VM execution failed" -/
  | vmExecutionFailed
  /-- "no steps" -/
  | noSteps
  /-- "decode trace requires at least one step" -/
  | decodeRequiresStep
  /-- "no ADD steps found in trace", and so on for every kind -/
  | noStepsFound (id : InstructionId)
  /-- "memory trace must have at least one operation" -/
  | memoryRequiresOperation
  /-- `n_bytes > 0`, "program must be non-empty" -/
  | emptyProgram
  /-- "XorAir requires exactly 65536 multiplicities", and so on for every table -/
  | multiplicities (bus : BusName)
  /-- "LessThanAir: multiplicities length exceeds NUM_VALID_PAIRS" -/
  | exceedsValidPairs
  /-- "x must fit in 24 bits", "y must fit in 24 bits" -/
  | timestampTooWide
  /-- The number of public values is not `PROGRAM_HASH_NUM_PV`. -/
  | publicValues
  /-- "expected ProgramHash followed by Poseidon2Chip at the tail of the AIR list" -/
  | tooFewAirs
  /-- "ProgramHash must be the penultimate AIR (chip is last)" -/
  | programHashNotPenultimate
  /-- "Poseidon2Chip must be the last AIR" -/
  | poseidon2ChipNotLast
  /-- `inverse` of zero, `unwrap` of the `try_inverse` of zero -/
  | inverseOfZero
  | indexOutOfBounds
  | overflow
  deriving DecidableEq, Repr

section Builders

variable {F : Type} [Field F] [DecidableEq F]

/-- The order in which `generate_traces` builds the tables of the kinds. -/
def buildOrder : List InstructionId :=
  [.add, .addi, .sub, .andi, .ori, .xori, .xor, .or, .and, .sll, .srl, .sra, .slli, .srli, .srai,
    .slt, .sltu, .slti, .sltiu, .lui, .auipc, .jal, .jalr]

/-- The `running_ts` of `extract_jal_steps`, a `u32`; the other kinds keep none. -/
def runningTs (id : InstructionId) (steps : List ExecutionStep) : Except Panic ℕ :=
  if id = .jal then (steps.map consumed).foldlM (addBelow (2 ^ 32) .overflow) 0 else .ok 0

/-- The steps of kind `id` that get a row. -/
def extractSteps (F : Type) [Field F] (id : InstructionId) (steps : List ExecutionStep) :
    List ExecutionStep :=
  ((withEntryTimestamps 0 steps).filter fun entry =>
    instructionId entry.2.instruction = id &&
      (fillRow entry.1 entry.2 : Option (InstrRow F)).isSome).map Prod.snd

/-- What can fail in `fill_row`: `step.pc + 4`, which the jumps do without, and the inverse of
`rd`. -/
def fillRowChecks (F : Type) [Field F] [DecidableEq F] (step : ExecutionStep) :
    Except Panic Unit :=
  match step.instruction with
  | .jal rd _ => require (rd = 0 ∨ (rd.toNat : F) ≠ 0) .inverseOfZero
  | .jalr _ _ _ => .ok ()
  | _ => require (step.state.pc.toNat + 4 < 2 ^ 32) .overflow

/-- `build_trace` of kind `id`, when a step of the kind occurs. -/
def buildInstrTrace (steps : List ExecutionStep) (id : InstructionId) :
    Except Panic (Option (List (InstrRow F))) := do
  if hasKind id steps then
    let _ ← runningTs id steps
    let rows ← expect (.noStepsFound id) (buildTrace id steps)
    forM (extractSteps F id steps) (fillRowChecks F)
    return some rows
  else return none

def buildDecodeTrace (steps : List ExecutionStep) : Except Panic (List (DecodeColumns F)) :=
  expect .decodeRequiresStep (buildDecode steps)

def buildMemoryTrace (ops : List MemoryOperation) : Except Panic (List (MemoryColumns F)) := do
  let rows ← expect .memoryRequiresOperation (buildMemory ops)
  inBounds .indexOutOfBounds (height ops.length) (List.range ops.length)
  return rows

/-- The indices at which `program::trace::build_trace` bumps its counters. -/
def fetchIndices (numRows : ℕ) (steps : List ExecutionStep) : List ℕ :=
  (steps.flatMap fun step => (List.range 4).map (step.state.pc.toNat + ·)).filter (· < numRows) ++
    List.range (min 4 numRows)

def buildProgramTrace (program : List Byte) (steps : List ExecutionStep) :
    Except Panic (List (ProgramColumns F)) := do
  let rows ← expect .emptyProgram
    (buildProgram program steps (height steps.length - steps.length))
  inBounds .indexOutOfBounds (height program.length) (fetchIndices (height program.length) steps)
  return rows

/-- Counting into a vector of `size` zeros, and the assertion of the table that there is one
counter for each of its rows. -/
def buildLookup (t : Table) (size : ℕ) (indices : List ℕ) : Except Panic (List F) := do
  let mults ← counts .indexOutOfBounds size indices
  require (mults.length = t.rows.length) (.multiplicities t.bus)
  return mults

/-- A table that is built under a condition. -/
def buildOptional (condition : Bool) (t : Table) (size : ℕ) (indices : List ℕ) :
    Except Panic (Option (List F)) :=
  if condition then some <$> buildLookup t size indices else pure none

/-- The keys `(lo, hi)` of `bytes_lt_mults_map`, as often as they are counted. -/
def bytesLtPairs (ops : List MemoryOperation) : List (ℕ × ℕ) :=
  (neighbours ops).filterMap fun pair =>
    (highestDifference pair.1.address pair.2.address).map fun i =>
      (min (leBytes pair.1.address i) (leBytes pair.2.address i),
        max (leBytes pair.1.address i) (leBytes pair.2.address i))

/-- The `bytes_lt_mults` of `memory_lookup_entries`; a row is computed from `hi - 1`. -/
def bytesLtMults (ops : List MemoryOperation) : Except Panic (List F) := do
  forM (bytesLtPairs ops) fun pair => require (1 ≤ pair.2) .overflow
  counts .indexOutOfBounds (256 * 255 / 2) (bytesLtEntries ops)

/-- The multiplicities in the first of two columns, padded with zero rows. -/
def buildBytesLt (mults : List F) : Except Panic (List (F × F)) := do
  require (mults.length ≤ 256 * 255 / 2) .exceedsValidPairs
  inBounds .indexOutOfBounds (2 ^ 15 * 2) ((List.range mults.length).map (· * 2))
  return (List.range (2 ^ 15)).map fun i => (mults.getD i 0, 0)

/-- Every pair of different bytes has its difference inverted. -/
def buildU32LtTrace (entries : List (U32 × U32)) : Except Panic (List (U32LessThanColumns F)) := do
  forM entries fun entry => forM (List.finRange 4) fun i =>
    require (leBytes entry.1 i = leBytes entry.2 i ∨
      (leBytes entry.2 i : F) - (leBytes entry.1 i : F) ≠ 0) .inverseOfZero
  return buildU32Lt entries

/-- The width of the timestamps, the `u32` arithmetic of `x + 2^24 - y`, the inverse of `x - y`. -/
def timestampLtChecks (F : Type) [Field F] [DecidableEq F] (entry : ℕ × ℕ) :
    Except Panic Unit := do
  require (entry.1 < 1 <<< 24) .timestampTooWide
  require (entry.2 < 1 <<< 24) .timestampTooWide
  let sum ← addBelow (2 ^ 32) .overflow entry.1 (1 <<< 24)
  let _ ← subtract .overflow sum entry.2
  require (entry.1 = entry.2 ∨ (entry.1 : F) - (entry.2 : F) ≠ 0) .inverseOfZero

def buildTimestampLtTrace (entries : List (ℕ × ℕ)) :
    Except Panic (List (TimestampLessThanColumns F)) := do
  forM entries (timestampLtChecks F)
  return buildTimestampLt entries

/-- `cum_active` is a `u32`, counted up by one for every byte of the program. -/
def buildProgramHashTrace (P : Poseidon2 F) (program : List Byte) :
    Except Panic (List (ProgramHashColumns F)) := do
  let rows ← expect .emptyProgram (buildProgramHash P program)
  let _ ← ((List.range rows.length).map (activeCount program)).foldlM
    (addBelow (2 ^ 32) .overflow) 0
  inBounds .indexOutOfBounds rows.length (List.range (numRealRows program)).reverse
  return rows

/-- The digest, then the length, with the check of their number. -/
def buildPublicValues (P : Poseidon2 F) (program : List Byte) : Except Panic (List F) := do
  let values := List.ofFn (publicValues P program).digest ++ [(publicValues P program).length]
  require (values.length = 8 + 1) .publicValues
  return values

end Builders

/-- The AIRs of a proof; the chip is sized by its number of real rows. -/
inductive LoquelAir where
  | boundaries | decode | memory | program | bytes | and | or | xor | u32Lt | timestampLt | bytesLt
  | orPrim | andPrim | byteSll | byteSrl
  | instr (id : InstructionId)
  | programHash
  | poseidon2Chip (numRealRows : ℕ)
  deriving DecidableEq

def LoquelAir.isPoseidon2Chip : LoquelAir → Bool
  | .poseidon2Chip _ => true
  | _ => false

/-- What `generate_traces` returns; a lookup table is its column of multiplicities. The tables of
the instructions are there for the kinds that occur. -/
structure AllTraces (F : Type) where
  airs : List LoquelAir
  boundaries : BoundaryTrace F
  decode : List (DecodeColumns F)
  memory : List (MemoryColumns F)
  program : List (ProgramColumns F)
  programHash : List (ProgramHashColumns F)
  programHashPublicValues : List F
  poseidon2Chip : List (Poseidon2Columns F)
  poseidon2ChipNumRealRows : ℕ
  bytes : List F
  and : List F
  or : List F
  xor : List F
  u32Lt : List (U32LessThanColumns F)
  timestampLt : List (TimestampLessThanColumns F)
  bytesLt : List (F × F)
  orPrim : List F
  andPrim : Option (List F)
  byteSll : Option (List F)
  byteSrl : Option (List F)
  instr : InstructionId → Option (List (InstrRow F))

/-- A conditional `push`. -/
def pushIf {α : Type} (condition : Bool) (a : α) : List α := if condition then [a] else []

/-- The AIR list of `generate_traces`. -/
def buildAirs (steps : List ExecutionStep) (numRealRows : ℕ) : List LoquelAir :=
  let has := fun id => hasKind id steps
  List.flatten [
    [.boundaries, .decode, .memory, .program, .bytes, .and, .or, .xor, .u32Lt, .timestampLt,
      .bytesLt, .orPrim],
    pushIf (has .add) (.instr .add),
    pushIf (has .addi) (.instr .addi),
    pushIf (has .andi) (.instr .andi),
    pushIf (has .ori) (.instr .ori),
    pushIf (has .sub) (.instr .sub),
    pushIf (has .xori) (.instr .xori),
    pushIf (has .xor) (.instr .xor),
    pushIf (has .or) (.instr .or),
    (if has .and then [.instr .and, .andPrim] else []),
    pushIf (has .sll) (.instr .sll),
    pushIf (has .sll || has .slli) .byteSll,
    pushIf (has .srl) (.instr .srl),
    pushIf (has .srl || has .sra || has .srli || has .srai) .byteSrl,
    pushIf (has .sra) (.instr .sra),
    pushIf (has .slli) (.instr .slli),
    pushIf (has .srli) (.instr .srli),
    pushIf (has .srai) (.instr .srai),
    pushIf (has .slt) (.instr .slt),
    pushIf (has .sltu) (.instr .sltu),
    pushIf (has .slti) (.instr .slti),
    pushIf (has .sltiu) (.instr .sltiu),
    pushIf (has .lui) (.instr .lui),
    pushIf (has .auipc) (.instr .auipc),
    pushIf (has .jal) (.instr .jal),
    pushIf (has .jalr) (.instr .jalr),
    [.programHash, .poseidon2Chip numRealRows]]

section Generate

variable {F : Type} [Field F] [DecidableEq F]

/-- `generate_traces` after the run. -/
def buildAllTraces (P : Poseidon2 F) (program : List Byte) (vm : VM) :
    Except Panic (AllTraces F) := do
  let steps := vm.trace
  let ops := vm.getMemoryOps
  let has := fun id => hasKind id steps
  let _ ← expect .noSteps steps.getLast?
  let decode ← buildDecodeTrace steps
  let instr ← tabulate buildOrder (buildInstrTrace steps)
  let memory ← buildMemoryTrace ops
  let programTrace ← buildProgramTrace program steps
  let lessThanMults ← bytesLtMults ops
  let bytes ← buildLookup bytesAir 256 (bytesEntries program steps)
  let xor ← buildLookup xorAir (256 * 256) (steps.flatMap xorEntries)
  let or ← buildLookup orAir (256 * 256) (steps.flatMap oriEntries)
  let and ← buildLookup andAir (256 * 256) (steps.flatMap andiEntries)
  let orPrim ← buildLookup orAir (256 * 256) (steps.flatMap orEntries)
  let andPrim ← buildOptional (has .and) andAir (256 * 256) (steps.flatMap andEntries)
  let byteSll ← buildOptional (has .sll || has .slli) byteShiftLeftAir (256 * 8)
    (steps.flatMap byteSllEntries)
  let byteSrl ← buildOptional (has .srl || has .sra || has .srli || has .srai) byteShiftRightAir
    (256 * 8) (steps.flatMap byteSrlEntries)
  let u32Lt ← buildU32LtTrace (u32LtEntries ops)
  let timestampLt ← buildTimestampLtTrace (timestampLtEntries ops)
  let bytesLt ← buildBytesLt lessThanMults
  let programHash ← buildProgramHashTrace P program
  let programHashPublicValues ← buildPublicValues P program
  let inputs := permInputs P program
  return {
    airs := buildAirs steps inputs.length
    boundaries := buildBoundaries vm.pc vm.timestamp
    decode := decode
    memory := memory
    program := programTrace
    programHash := programHash
    programHashPublicValues := programHashPublicValues
    poseidon2Chip := buildPoseidon2Chip P inputs
    poseidon2ChipNumRealRows := inputs.length
    bytes := bytes
    and := and
    or := or
    xor := xor
    u32Lt := u32Lt
    timestampLt := timestampLt
    bytesLt := bytesLt
    orPrim := orPrim
    andPrim := andPrim
    byteSll := byteSll
    byteSrl := byteSrl
    instr := instr }

/-- `generate_traces`, the run of the interpreter given fuel. -/
def generateAllTraces (P : Poseidon2 F) (fuel : ℕ) (program : List Byte) :
    Except Panic (AllTraces F) := do
  let vm ← expect .vmExecutionFailed ((VM.new program).run fuel)
  buildAllTraces P program vm

end Generate

/-- A trace matrix, with the layout of its rows. -/
inductive RowMajorMatrix (F : Type) where
  | boundaries (rows : BoundaryTrace F)
  | decode (rows : List (DecodeColumns F))
  | memory (rows : List (MemoryColumns F))
  | program (rows : List (ProgramColumns F))
  | programHash (rows : List (ProgramHashColumns F))
  | poseidon2Chip (rows : List (Poseidon2Columns F))
  | u32Lt (rows : List (U32LessThanColumns F))
  | timestampLt (rows : List (TimestampLessThanColumns F))
  | multiplicities (column : List F)
  | bytesLt (rows : List (F × F))
  | instr (rows : List (InstrRow F))

namespace AllTraces

variable {F : Type} (t : AllTraces F)

/-- The `traces` of `into_vecs`. -/
def traces : List (RowMajorMatrix F) :=
  let instr := fun id => ((t.instr id).map RowMajorMatrix.instr).toList
  let lookup := fun column : Option (List F) => (column.map RowMajorMatrix.multiplicities).toList
  List.flatten [
    [.boundaries t.boundaries, .decode t.decode, .memory t.memory, .program t.program,
      .multiplicities t.bytes, .multiplicities t.and, .multiplicities t.or, .multiplicities t.xor,
      .u32Lt t.u32Lt, .timestampLt t.timestampLt, .bytesLt t.bytesLt, .multiplicities t.orPrim],
    instr .add, instr .addi, instr .andi, instr .ori, instr .sub, instr .xori, instr .xor,
    instr .or, instr .and, lookup t.andPrim, instr .sll, lookup t.byteSll, instr .srl,
    lookup t.byteSrl, instr .sra, instr .slli, instr .srli, instr .srai, instr .slt, instr .sltu,
    instr .slti, instr .sltiu, instr .lui, instr .auipc, instr .jal, instr .jalr,
    [.programHash t.programHash, .poseidon2Chip t.poseidon2Chip]]

/-- `into_vecs`: the AIRs, their traces and their public values. -/
def intoVecs : Except Panic (List LoquelAir × List (RowMajorMatrix F) × List (List F)) := do
  let programHashIdx ← subtract .tooFewAirs t.airs.length 2
  require (t.airs[programHashIdx]? = some .programHash) .programHashNotPenultimate
  require (t.airs.getLast?.any LoquelAir.isPoseidon2Chip) .poseidon2ChipNotLast
  inBounds .indexOutOfBounds t.airs.length [programHashIdx]
  return (t.airs, t.traces,
    (List.replicate t.airs.length []).set programHashIdx t.programHashPublicValues)

end AllTraces

/-- `generate_traces` followed by `into_vecs`. -/
def pipeline {F : Type} [Field F] [DecidableEq F] (P : Poseidon2 F) (fuel : ℕ)
    (program : List Byte) :
    Except Panic (List LoquelAir × List (RowMajorMatrix F) × List (List F)) := do
  let traces ← generateAllTraces P fuel program
  traces.intoVecs

end Loquela.Trace
