import Loquela.Air.Decode
import Loquela.Air.Program
import Loquela.Air.ProgramHash
import Loquela.Trace.Memory

/-! # Building the decode, program and hash tables -/

namespace Loquela.Trace
open Air
open Vm (Byte ExecutionStep U32)

variable {F : Type*} [Field F]

/-- The opcode, and the function fields where they are tested. -/
def wordMatches (word : U32) (opcode : U32) (funct3 funct7 : Option U32) : Bool :=
  word &&& 0x7F = opcode && funct3.all (fun f => word >>> 12 &&& 0x7 = f) &&
    funct7.all fun f => word >>> 25 = f

/-- `is_k` as `fill_row` tests it. -/
def isKind (word : U32) : InstructionId → Bool
  | .addi => wordMatches word 0b0010011 (some 0b000) none
  | .xori => wordMatches word 0b0010011 (some 0b100) none
  | .ori => wordMatches word 0b0010011 (some 0b110) none
  | .andi => wordMatches word 0b0010011 (some 0b111) none
  | .add => wordMatches word 0b0110011 (some 0b000) (some 0b0000000)
  | .sub => wordMatches word 0b0110011 (some 0b000) (some 0b0100000)
  | .xor => wordMatches word 0b0110011 (some 0b100) (some 0b0000000)
  | .or => wordMatches word 0b0110011 (some 0b110) (some 0b0000000)
  | .and => wordMatches word 0b0110011 (some 0b111) (some 0b0000000)
  | .sll => wordMatches word 0b0110011 (some 0b001) (some 0b0000000)
  | .srl => wordMatches word 0b0110011 (some 0b101) (some 0b0000000)
  | .sra => wordMatches word 0b0110011 (some 0b101) (some 0b0100000)
  | .slli => wordMatches word 0b0010011 (some 0b001) (some 0b0000000)
  | .srli => wordMatches word 0b0010011 (some 0b101) (some 0b0000000)
  | .srai => wordMatches word 0b0010011 (some 0b101) (some 0b0100000)
  | .slt => wordMatches word 0b0110011 (some 0b010) (some 0b0000000)
  | .sltu => wordMatches word 0b0110011 (some 0b011) (some 0b0000000)
  | .slti => wordMatches word 0b0010011 (some 0b010) none
  | .sltiu => wordMatches word 0b0010011 (some 0b011) none
  | .lui => wordMatches word 0b0110111 none none
  | .auipc => wordMatches word 0b0010111 none none
  | .jal => wordMatches word 0b1101111 none none
  | .jalr => wordMatches word 0b1100111 (some 0b000) none

/-- The chain of tests for `instr_type_packed`, which falls through to `ADDI`. -/
def packedKind (word : U32) : InstructionId :=
  (InstructionId.all.tail.find? (isKind word)).getD .addi

/-- `fill_row`, with the multiplicity the caller leaves in the row. -/
def decodeRow (pc word : U32) (mult : F) : DecodeColumns F where
  pc := u32ToLimbs pc
  instruction := ofNats fun i => (word >>> (8 * (i : ℕ)) &&& 0xFF).toNat
  decompositions := fun i =>
    ofNats fun j => ((word >>> (8 * (i : ℕ)) &&& 0xFF) >>> (j : ℕ) &&& 1).toNat
  instrType := fun k => fromBool (isKind word k)
  instrTypePacked := (packedKind word).code
  rd := (word >>> 7 &&& 0x1F).toNat
  rs1 := (word >>> 15 &&& 0x1F).toNat
  imm := (word >>> 20 &&& 0xFFF).toNat
  rs2 := (word >>> 20 &&& 0x1F).toNat
  immLow8 := if isKind word .lui || isKind word .auipc || isKind word .jal then
    (word >>> 12 &&& 0xFF).toNat else 0
  mult := mult

/-- One row per step; padding rows repeat the word of the first step with multiplicity 0.
`none` is the assertion that there is a step. -/
def buildDecode (steps : List ExecutionStep) : Option (List (DecodeColumns F)) :=
  steps.head?.map fun first =>
    steps.map (fun step => decodeRow step.state.pc step.instructionWord 1) ++
      List.replicate (height steps.length - steps.length) (decodeRow 0 first.instructionWord 0)

/-- `boundaries::air::build_trace`: only row 3 is filled. -/
def buildBoundaries (finalPc : U32) (finalTimestamp : ℕ) : BoundaryTrace F := fun i =>
  if i = 3 then ⟨u32ToLimbs finalPc, finalTimestamp⟩ else ⟨0, 0⟩

/-- How often address `addr` is fetched: by every step with a pc in reach, and by the padding
rows of the decode table. -/
def fetchCount (numRows : ℕ) (steps : List ExecutionStep) (numDecodePadding addr : ℕ) : ℕ :=
  ((steps.flatMap fun step => (List.range 4).map (step.state.pc.toNat + ·)).filter
      (· < numRows)).count addr + if addr < 4 then numDecodePadding else 0

/-- `none` is the assertion that the program is not empty. -/
def buildProgram (program : List Byte) (steps : List ExecutionStep) (numDecodePadding : ℕ) :
    Option (List (ProgramColumns F)) :=
  let numRows := height program.length
  if program.isEmpty then none
  else some ((List.range numRows).map fun i =>
    { address := u32ToLimbs (BitVec.ofNat 32 i)
      value := match program[i]? with
        | some byte => (byte.toNat : F)
        | none => 0
      mult := fetchCount numRows steps numDecodePadding i
      incCarries := ofNats (incCarries (BitVec.ofNat 32 i))
      isReal := if i < program.length then 1 else 0 })

/-- `num_real_rows`. -/
def numRealRows (program : List Byte) : ℕ := (program.length + 23) / 24

/-- The second pass, from the bottom up: the permutation input and output of every real row. -/
def spongePass (P : Poseidon2 F) (program : List Byte) : List (SpongeState F × SpongeState F) :=
  (List.range (numRealRows program)).foldr (fun row below =>
    let acc := (below.head?.map (·.2)).getD 0
    let permIn := absorb acc (chunk program (row * 24))
    (permIn, P.permute permIn) :: below) []

/-- The number of program bytes in a row. -/
def activeCount (program : List Byte) (row : ℕ) : ℕ :=
  (List.range 24).countP fun i => row * 24 + i < program.length

def hashRow (P : Poseidon2 F) (program : List Byte) (row : ℕ) : ProgramHashColumns F where
  state := ((spongePass P program)[row]?.map (·.2)).getD 0
  bytes := if row < numRealRows program then chunk program (row * 24) else 0
  baseAddr := (row * 24 : ℕ)
  isActive := fun i =>
    if row < numRealRows program ∧ row * 24 + i < program.length then 1 else 0
  flag := if row < numRealRows program then 1 else 0
  cumActive := (((List.range (row + 1)).map (activeCount program)).sum : ℕ)
  permIn := ((spongePass P program)[row]?.map (·.1)).getD 0
  permOut := ((spongePass P program)[row]?.map (·.2)).getD 0

/-- `program_hash::trace::build_trace`: real rows, then at least one padding row. `none` is the
assertion that the program is not empty. -/
def buildProgramHash (P : Poseidon2 F) (program : List Byte) :
    Option (List (ProgramHashColumns F)) :=
  if program.isEmpty then none
  else some ((List.range (height (numRealRows program + 1))).map (hashRow P program))

/-- `perm_inputs`. -/
def permInputs (P : Poseidon2 F) (program : List Byte) : List (SpongeState F) :=
  (spongePass P program).map (·.1)

/-- `poseidon2_chip::trace::build_trace`: padding rows permute zero. -/
def buildPoseidon2Chip (P : Poseidon2 F) (inputs : List (SpongeState F)) :
    List (Poseidon2Columns F) :=
  inputs.map (fun input => ⟨input, P.permute input, true⟩) ++
    List.replicate (height (inputs.length + 1) - inputs.length) ⟨0, P.permute 0, false⟩

/-- The digest and the length, as committed in the public values. -/
def publicValues (P : Poseidon2 F) (program : List Byte) : PublicValues F where
  digest := (computeProgramDigest P program).1
  length := (computeProgramDigest P program).2.toNat

end Loquela.Trace
