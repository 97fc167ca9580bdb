import Loquela.Air.TraceSet
import Loquela.Trace.Instructions
import Loquela.Trace.Tables

/-! # The prover's traces

`generate_traces` runs the interpreter and builds every table from its trace. The multiplicities
of the lookup tables are counted by a separate match over the kinds of instruction and the shapes
of their logged operations.
-/

namespace Loquela.Trace
open Air
open Vm (Byte ExecutionStep Instruction MemoryOperation U32 VM)

def leByteList (v : U32) : List ℕ := List.ofFn (leBytes v)

/-- `((v >> 24) & 0x7F) as u8`. -/
def low7 (v : U32) : ℕ := (v >>> 24 &&& 0x7F).toNat

/-- `((rs2 & 0xFF) >> 5) as u8`. -/
def shamtHigh (rs2 : U32) : ℕ := ((rs2 &&& 0xFF) >>> 5).toNat

/-- The words a step pushes to `byte_checked_vals` and the bytes it pushes to
`byte_checked_singles`. -/
def byteChecked (step : ExecutionStep) : List U32 × List ℕ :=
  match step.memoryOps, step.instruction with
  | [.read _ _ _ rs1, .write _ _ _ _ rd], .addI _ _ _ => ([rs1, rd], [])
  | [.read _ _ _ rs1, .read _ _ _ rs2, .write _ _ _ _ rd], .add _ _ _ => ([rs1, rs2, rd], [])
  | [.read _ _ _ rs1, .read _ _ _ rs2, .write _ _ _ _ rd], .sub _ _ _ => ([rs1, rs2, rd], [])
  | [.read _ _ _ rs1, .read _ _ _ rs2, .write _ _ _ _ _], .xor _ _ _ => ([rs1, rs2], [])
  | [.read _ _ _ _, .read _ _ _ rs2, .write _ _ _ _ rd], .sll _ _ _ => ([rs2, rd], [shamtHigh rs2])
  | [.read _ _ _ _, .read _ _ _ rs2, .write _ _ _ _ rd], .srl _ _ _ => ([rs2, rd], [shamtHigh rs2])
  | [.read _ _ _ rs1, .read _ _ _ rs2, .write _ _ _ _ rd], .sra _ _ _ =>
    ([rs2, rd], [shamtHigh rs2, low7 rs1])
  | [.read _ _ _ _, .write _ _ _ _ rd], .slliI _ _ _ => ([rd], [])
  | [.read _ _ _ _, .write _ _ _ _ rd], .srliI _ _ _ => ([rd], [])
  | [.read _ _ _ rs1, .write _ _ _ _ rd], .sraiI _ _ _ => ([rd], [low7 rs1])
  | [.read _ _ _ rs1, .read _ _ _ rs2, .write _ _ _ _ _], .sltu _ _ _ =>
    ([rs1, rs2, rs1 - rs2], [])
  | [.read _ _ _ rs1, .read _ _ _ rs2, .write _ _ _ _ _], .slt _ _ _ =>
    ([rs1, rs2, rs1 - rs2], [low7 rs1, low7 rs2])
  | [.read _ _ _ rs1, .write _ _ _ _ _], .sltiuI _ _ imm => ([rs1, rs1 - imm], [])
  | [.read _ _ _ rs1, .write _ _ _ _ _], .sltiI _ _ imm => ([rs1, rs1 - imm], [low7 rs1])
  | [.write _ _ _ _ rd], .lui _ _ => ([rd], [])
  | [.write _ _ _ _ rd], .auipc _ imm =>
    ([step.state.pc, rd],
      [leBytes (imm <<< 12) 1, leBytes (imm <<< 12) 2, leBytes (imm <<< 12) 3])
  | _, .jal _ _ => ([step.state.pc, step.state.pc + 4], [])
  | [.read _ _ _ rs1, .write _ _ _ _ rd], .jalr _ _ _ => ([rs1, rd], [])
  | _, _ => ([], [])

/-- The entries of the `bytes` table: the bytes of the checked words, the single bytes, and the
program, whose bytes the hash table sends. -/
def bytesEntries (program : List Byte) (steps : List ExecutionStep) : List ℕ :=
  (steps.flatMap fun step => (byteChecked step).1).flatMap leByteList ++
    steps.flatMap (fun step => (byteChecked step).2) ++ program.map BitVec.toNat

/-- Row `x * 256 + y` of the bitwise tables, for the bytes of two words. -/
def tripleRows (x y : U32) : List ℕ := List.ofFn fun i => leBytes x i * 256 + leBytes y i

/-- XORI and XOR steps count in one table; ORI and OR, and ANDI and AND, in tables of their own. -/
def xorEntries (step : ExecutionStep) : List ℕ :=
  match step.instruction, step.memoryOps with
  | .xorI _ _ imm, [.read _ _ _ rs1, .write _ _ _ _ _] => tripleRows rs1 (imm.signExtend 32)
  | .xor _ _ _, [.read _ _ _ rs1, .read _ _ _ rs2, .write _ _ _ _ _] => tripleRows rs1 rs2
  | _, _ => []

def oriEntries (step : ExecutionStep) : List ℕ :=
  match step.instruction, step.memoryOps with
  | .oriI _ _ imm, [.read _ _ _ rs1, .write _ _ _ _ _] => tripleRows rs1 (imm.signExtend 32)
  | _, _ => []

def andiEntries (step : ExecutionStep) : List ℕ :=
  match step.instruction, step.memoryOps with
  | .andiI _ _ imm, [.read _ _ _ rs1, .write _ _ _ _ _] => tripleRows rs1 (imm.signExtend 32)
  | _, _ => []

def orEntries (step : ExecutionStep) : List ℕ :=
  match step.instruction, step.memoryOps with
  | .or _ _ _, [.read _ _ _ rs1, .read _ _ _ rs2, .write _ _ _ _ _] => tripleRows rs1 rs2
  | _, _ => []

def andEntries (step : ExecutionStep) : List ℕ :=
  match step.instruction, step.memoryOps with
  | .and _ _ _, [.read _ _ _ rs1, .read _ _ _ rs2, .write _ _ _ _ _] => tripleRows rs1 rs2
  | _, _ => []

/-- Row `byte * 8 + bit_shamt` of the shift tables, for the bytes of a word. -/
def shiftRows (x : U32) (bitShamt : ℕ) : List ℕ := List.ofFn fun i => leBytes x i * 8 + bitShamt

def byteSllEntries (step : ExecutionStep) : List ℕ :=
  match step.instruction, step.memoryOps with
  | .sll _ _ _, .read _ _ _ rs1 :: .read _ _ _ rs2 :: _ =>
    shiftRows rs1 ((rs2 &&& 0x1F).toNat % 8)
  | .slliI _ _ imm, .read _ _ _ rs1 :: _ => shiftRows rs1 ((imm &&& 0x1F).toNat % 8)
  | _, _ => []

/-- The arithmetic shifts also look up `0xFF`. -/
def byteSrlEntries (step : ExecutionStep) : List ℕ :=
  match step.instruction, step.memoryOps with
  | .srl _ _ _, .read _ _ _ rs1 :: .read _ _ _ rs2 :: _ =>
    shiftRows rs1 ((rs2 &&& 0x1F).toNat % 8)
  | .sra _ _ _, .read _ _ _ rs1 :: .read _ _ _ rs2 :: _ =>
    shiftRows rs1 ((rs2 &&& 0x1F).toNat % 8) ++ [0xFF * 8 + (rs2 &&& 0x1F).toNat % 8]
  | .srliI _ _ imm, .read _ _ _ rs1 :: _ => shiftRows rs1 ((imm &&& 0x1F).toNat % 8)
  | .sraiI _ _ imm, .read _ _ _ rs1 :: _ =>
    shiftRows rs1 ((imm &&& 0x1F).toNat % 8) ++ [0xFF * 8 + (imm &&& 0x1F).toNat % 8]
  | _, _ => []

section Generate

variable {F : Type*} [Field F] [DecidableEq F]

/-- The tables of the kinds that occur. -/
def instructionTraces (steps : List ExecutionStep) : Option (List (List (InstrRow F))) :=
  InstructionId.all.mapM fun id => if hasKind id steps then buildTrace id steps else some []

/-- `generate_traces` after the run; `none` is a failed assertion of one of the builders. -/
def buildTraces (P : Poseidon2 F) (program : List Byte) (vm : VM) : Option (TraceSet F) := do
  let steps := vm.trace
  let ops := vm.getMemoryOps
  let decode ← buildDecode steps
  let rows ← instructionTraces steps
  let memory ← buildMemory ops
  let numDecodePadding := height steps.length - steps.length
  let programTrace ← buildProgram program steps numDecodePadding
  let programHash ← buildProgramHash P program
  return {
    rows := rows.flatten
    boundaries := buildBoundaries vm.pc vm.timestamp
    decode := decode
    memory := memory
    program := programTrace
    programHash := programHash
    programHashPublicValues := publicValues P program
    poseidon2Chip := buildPoseidon2Chip P (permInputs P program)
    u32Lt := buildU32Lt (u32LtEntries ops)
    timestampLt := buildTimestampLt (timestampLtEntries ops)
    bytes := tableMults (bytesEntries program steps)
    and := tableMults (steps.flatMap andiEntries)
    or := tableMults (steps.flatMap oriEntries)
    xor := tableMults (steps.flatMap xorEntries)
    bytesLt := tableMults (bytesLtEntries ops)
    orPrim := tableMults (steps.flatMap orEntries)
    andPrim := if hasKind .and steps then some (tableMults (steps.flatMap andEntries)) else none
    byteSll := if hasKind .sll steps || hasKind .slli steps then
      some (tableMults (steps.flatMap byteSllEntries)) else none
    byteSrl := if hasKind .srl steps || hasKind .sra steps || hasKind .srli steps ||
        hasKind .srai steps then
      some (tableMults (steps.flatMap byteSrlEntries)) else none }

/-- `generate_traces`, the run of the interpreter given fuel. -/
def generateTraces (P : Poseidon2 F) (fuel : ℕ) (program : List Byte) : Option (TraceSet F) :=
  ((VM.new program).run fuel).bind (buildTraces P program)

end Generate

end Loquela.Trace
