import Loquela.Air.Limbs
import Loquela.Air.Memory
import Loquela.Vm.Machine
import Mathlib.Data.Nat.Log
import Mathlib.Data.Prod.Lex

/-! # Building the memory argument

The memory table lists the logged operations sorted by cell and time. The comparison tables and
the multiplicities of the byte pairs are derived from the same sorted list.
-/

namespace Loquela.Trace
open Air
open Vm (MemoryOperation MemoryType U32)

/-- The height of a table: the next power of two, at least 4. -/
def height (n : ℕ) : ℕ := max (2 ^ Nat.clog 2 n) 4

/-- The multiplicity column of a table: one increment per entry, at the entry's row. -/
def tableMults {F : Type*} [AddMonoidWithOne F] (indices : List ℕ) : ℕ → F :=
  indices.foldl (fun mults i => Function.update mults i (mults i + 1)) 0

/-- A logged operation with the value it found and the value it left. -/
structure MemoryOp where
  memoryType : MemoryType
  address : U32
  timestamp : ℕ
  read : U32
  write : U32

/-- `From<&MemoryOperation>`. -/
def MemoryOp.ofOperation : MemoryOperation → MemoryOp
  | .read memoryType address timestamp value => ⟨memoryType, address, timestamp, value, value⟩
  | .write memoryType address timestamp oldValue newValue =>
    ⟨memoryType, address, timestamp, oldValue, newValue⟩

/-- `memory_type as u8`. -/
def memoryTypeCode : MemoryType → ℕ
  | .register => 0
  | .ram => 1

def MemoryOp.key (op : MemoryOp) : ℕ ×ₗ ℕ ×ₗ ℕ :=
  toLex (memoryTypeCode op.memoryType, toLex (op.address.toNat, op.timestamp))

/-- `sort_by_key` on type, address and timestamp. -/
def sortOps (ops : List MemoryOperation) : List MemoryOp :=
  (ops.map MemoryOp.ofOperation).mergeSort fun a b => a.key ≤ b.key

variable {F : Type*} [Field F]

def fromBool (b : Bool) : F := if b then 1 else 0

def MemoryOp.tuple (op : MemoryOp) : MemoryTuple F where
  timestamp := op.timestamp
  memoryType := (memoryTypeCode op.memoryType : ℕ)
  address := u32ToLimbs op.address
  read := u32ToLimbs op.read
  write := u32ToLimbs op.write

/-- The columns of the rows before their flags, with `is_padding`. -/
def memoryRows (ops : List MemoryOperation) : List (MemoryTuple F × F) :=
  let sorted := sortOps ops
  sorted.map (fun op => (op.tuple, 0)) ++
    List.replicate (height sorted.length - sorted.length) (⟨0, 0, 0, 0, 0⟩, 1)

/-- The equality flags of every adjacent pair of rows; those of the last row stay zero. -/
def fillFlags [DecidableEq F] : List (MemoryTuple F × F) → List (MemoryColumns F)
  | [] => []
  | [(row, isPadding)] => [⟨row, 0, 0, 0, isPadding⟩]
  | (row, isPadding) :: (next, nextPadding) :: rows =>
    ⟨row, fromBool (row.memoryType = next.memoryType), fromBool (row.timestamp = next.timestamp),
      fromBool (row.address = next.address), isPadding⟩ :: fillFlags ((next, nextPadding) :: rows)

/-- `memory::trace::build_trace`; `none` is its assertion that there is an operation. -/
def buildMemory [DecidableEq F] (ops : List MemoryOperation) : Option (List (MemoryColumns F)) :=
  if ops.isEmpty then none else some (fillFlags (memoryRows ops))

/-- The adjacent operations of one memory type, which `memory_lookup_entries` loops over. -/
def neighbours (ops : List MemoryOperation) : List (MemoryOp × MemoryOp) :=
  ((sortOps ops).zip (sortOps ops).tail).filter fun pair => pair.1.memoryType = pair.2.memoryType

def u32LtEntries (ops : List MemoryOperation) : List (U32 × U32) :=
  (neighbours ops).map fun pair => (pair.1.address, pair.2.address)

def timestampLtEntries (ops : List MemoryOperation) : List (ℕ × ℕ) :=
  ((neighbours ops).filter fun pair => pair.1.address = pair.2.address).map fun pair =>
    (pair.1.timestamp, pair.2.timestamp)

/-- The highest byte in which two words differ. -/
def highestDifference (x y : U32) : Option (Fin 4) :=
  [3, 2, 1, 0].find? fun i => leBytes x i ≠ leBytes y i

/-- The row of a pair of bytes in the table of pairs `x < y`. -/
def bytesLtRow (x y : ℕ) : ℕ := max x y * (max x y - 1) / 2 + min x y

def bytesLtEntries (ops : List MemoryOperation) : List ℕ :=
  (neighbours ops).filterMap fun pair =>
    (highestDifference pair.1.address pair.2.address).map fun i =>
      bytesLtRow (leBytes pair.1.address i) (leBytes pair.2.address i)

def u32LessThanRow (x y : U32) (mult : F) : U32LessThanColumns F where
  x := u32ToLimbs x
  y := u32ToLimbs y
  inverses := fun i =>
    if leBytes x i = leBytes y i then 0 else -((leBytes y i : F) - (leBytes x i : F))⁻¹
  isEquals := fun i => fromBool (leBytes x i = leBytes y i)
  isEqual := fromBool (x = y)
  multLts := fun i => fromBool (highestDifference x y = some i)
  mult := mult

def u32LessThanPadding : U32LessThanColumns F where
  x := 0
  y := 0
  inverses := 0
  isEquals := 1
  isEqual := 1
  multLts := 0
  mult := 0

def buildU32Lt (entries : List (U32 × U32)) : List (U32LessThanColumns F) :=
  entries.map (fun entry => u32LessThanRow entry.1 entry.2 1) ++
    List.replicate (height entries.length - entries.length) u32LessThanPadding

/-- `u32_less_than_lookup::build_trace`, each pair with its own multiplicity. -/
def buildU32LtWith (entries : List (U32 × U32 × F)) : List (U32LessThanColumns F) :=
  entries.map (fun entry => u32LessThanRow entry.1 entry.2.1 entry.2.2) ++
    List.replicate (height entries.length - entries.length) u32LessThanPadding

/-- The memory argument counts every pair once. -/
theorem buildU32Lt_eq (entries : List (U32 × U32)) :
    buildU32Lt (F := F) entries = buildU32LtWith (entries.map fun entry => (entry.1, entry.2, 1)) := by
  rw [buildU32Lt, buildU32LtWith, List.map_map, List.length_map]
  rfl

/-- `v_bits` decomposes `x + 2^24 - y`. -/
def timestampLessThanRow (x y : ℕ) (mult : F) : TimestampLessThanColumns F where
  x := x
  y := y
  xBits := ofNats fun i => x >>> (i : ℕ) &&& 1
  yBits := ofNats fun i => y >>> (i : ℕ) &&& 1
  vBits := ofNats fun i => (x + (1 <<< 24) - y) >>> (i : ℕ) &&& 1
  diffInv := if x = y then 0 else -((x : F) - (y : F))⁻¹
  isEqual := fromBool (x = y)
  mult := mult

def timestampLessThanPadding : TimestampLessThanColumns F where
  x := 0
  y := 0
  xBits := 0
  yBits := 0
  vBits := fun i => if i = 24 then 1 else 0
  diffInv := 0
  isEqual := 1
  mult := 0

def buildTimestampLt (entries : List (ℕ × ℕ)) : List (TimestampLessThanColumns F) :=
  entries.map (fun entry => timestampLessThanRow entry.1 entry.2 1) ++
    List.replicate (height entries.length - entries.length) timestampLessThanPadding

end Loquela.Trace
