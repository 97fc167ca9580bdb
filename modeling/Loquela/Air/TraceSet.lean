import Loquela.Air.Decode
import Loquela.Air.Instructions.Row
import Loquela.Air.Memory
import Loquela.Air.Program
import Loquela.Air.ProgramHash

/-! # Trace sets

All tables a proof commits to. They are accepted when every AIR's constraints hold and every
bus balances, with fewer interactions than the characteristic of the field.
-/

namespace Loquela.Air
open Library

/-- The traces of one proof; the rows of the 23 instruction AIRs are in one list, since their
constraints look at single rows. Every table but `rows` is present once, except that the tables
of some operations are there only when needed, or twice. -/
structure TraceSet (F : Type*) where
  rows : List (InstrRow F)
  boundaries : BoundaryTrace F
  decode : List (DecodeColumns F)
  memory : List (MemoryColumns F)
  program : List (ProgramColumns F)
  programHash : List (ProgramHashColumns F)
  programHashPublicValues : PublicValues F
  poseidon2Chip : List (Poseidon2Columns F)
  u32Lt : List (U32LessThanColumns F)
  timestampLt : List (TimestampLessThanColumns F)
  bytes : ℕ → F
  and : ℕ → F
  or : ℕ → F
  xor : ℕ → F
  bytesLt : ℕ → F
  orPrim : ℕ → F
  andPrim : Option (ℕ → F)
  byteSll : Option (ℕ → F)
  byteSrl : Option (ℕ → F)

variable {F : Type*} [Field F]

/-- A table that may be absent. -/
def Table.optionalLookups (t : Table) (mult : Option (ℕ → F)) : List (Interaction F) :=
  mult.elim [] t.lookups

namespace TraceSet

def tableLookups (T : TraceSet F) : List (Interaction F) :=
  bytesAir.lookups T.bytes ++ andAir.lookups T.and ++ orAir.lookups T.or ++
    xorAir.lookups T.xor ++ lessThanAir.lookups T.bytesLt ++ orAir.lookups T.orPrim ++
    andAir.optionalLookups T.andPrim ++ byteShiftLeftAir.optionalLookups T.byteSll ++
    byteShiftRightAir.optionalLookups T.byteSrl

def lookups (T : TraceSet F) : List (Interaction F) :=
  T.rows.flatMap InstrRow.lookups ++ boundariesLookups T.boundaries ++
    T.decode.flatMap DecodeColumns.lookups ++ memoryLookups T.memory ++
    programLookups T.program ++ programHashLookups T.programHash ++
    T.poseidon2Chip.flatMap Poseidon2Columns.lookups ++
    T.u32Lt.flatMap U32LessThanColumns.lookups ++
    T.timestampLt.flatMap TimestampLessThanColumns.lookups ++ T.tableLookups

/-- All constraints; the lookup tables have none. -/
structure Eval (P : Poseidon2 F) (T : TraceSet F) : Prop where
  rows : ∀ r ∈ T.rows, r.eval
  boundaries : boundariesEval T.boundaries
  decode : ∀ c ∈ T.decode, c.eval
  memory : memoryEval T.memory
  program : programEval T.program
  programHash : programHashEval T.programHash T.programHashPublicValues
  poseidon2Chip : ∀ c ∈ T.poseidon2Chip, c.eval P
  u32Lt : ∀ c ∈ T.u32Lt, c.eval
  timestampLt : ∀ c ∈ T.timestampLt, c.eval

/-- What a verified proof is assumed to establish about the committed traces. -/
structure Accepted [DecidableEq F] (P : Poseidon2 F) (T : TraceSet F) : Prop where
  eval : T.Eval P
  balanced : Bus.Balanced T.lookups
  interactions : T.lookups.length < modulus

end TraceSet

end Loquela.Air
