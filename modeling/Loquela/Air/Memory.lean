import Loquela.Air.Tables

/-! # The memory argument

`MemoryAir` holds the operations of the memory bus in an order the prover chooses. Each
transition is checked by the equality flags of its first row, and the order is checked by two
comparison AIRs over the `u32_lt` and `timestamp_lt` buses.
-/

namespace Loquela.Air
open Library.Bits (pack)

variable {F : Type*} [Field F]

structure MemoryColumns (F : Type*) extends MemoryTuple F where
  isMemoryTypeEqual : F
  isTimestampEqual : F
  isAddressEqual : F
  isPadding : F

namespace MemoryColumns

def evalRow (c : MemoryColumns F) : Prop :=
  AssertBool c.isPadding ∧ AssertBool c.isMemoryTypeEqual

def evalFirst (c : MemoryColumns F) : Prop := ∀ i, c.read i = 0

def evalTransition (c next : MemoryColumns F) : Prop :=
  c.isPadding * (next.isPadding - 1) = 0 ∧
    c.isMemoryTypeEqual * (next.memoryType - c.memoryType) = 0 ∧
    (1 - c.isMemoryTypeEqual) *
      ((c.memoryType + next.memoryType - 1) * (c.memoryType + next.memoryType - 2)) = 0 ∧
    c.memoryType * (next.memoryType - 1) = 0 ∧
    ∀ i, (1 - c.isAddressEqual) * next.read i = 0 ∧
      c.isAddressEqual * (next.read i - c.write i) = 0

instance [DecidableEq F] (c : MemoryColumns F) : Decidable c.evalRow :=
  inferInstanceAs (Decidable (_ ∧ _))

instance [DecidableEq F] (c : MemoryColumns F) : Decidable c.evalFirst :=
  inferInstanceAs (Decidable (∀ _ : Fin 4, _))

instance [DecidableEq F] (c next : MemoryColumns F) : Decidable (c.evalTransition next) :=
  inferInstanceAs (Decidable (_ ∧ _))

/-- The comparisons of one row with the next are gated by `1 - next.is_padding`. -/
def lookups (c next : MemoryColumns F) : List (Interaction F) :=
  [send .u32Lt (List.ofFn c.address ++ List.ofFn next.address ++ [c.isAddressEqual])
      (c.isMemoryTypeEqual * (1 - next.isPadding)),
    send .timestampLt [c.timestamp, next.timestamp, c.isTimestampEqual]
      (c.isAddressEqual * (1 - next.isPadding)),
    receive .memory c.toMemoryTuple.toList (1 - c.isPadding)]

end MemoryColumns

def memoryEval (rows : List (MemoryColumns F)) : Prop :=
  (∀ c ∈ rows, c.evalRow) ∧ (∀ c ∈ rows.head?, c.evalFirst) ∧
    rows.IsChain MemoryColumns.evalTransition

instance [DecidableEq F] (rows : List (MemoryColumns F)) : Decidable (memoryEval rows) :=
  inferInstanceAs (Decidable (_ ∧ _))

/-- On the last row the next row is the first one. -/
def memoryLookups (rows : List (MemoryColumns F)) : List (Interaction F) :=
  (rows.zip (rows.rotate 1)).flatMap fun pair => pair.1.lookups pair.2

structure U32LessThanColumns (F : Type*) where
  x : Limbs F
  y : Limbs F
  inverses : Limbs F
  isEquals : Limbs F
  isEqual : F
  multLts : Limbs F
  mult : F

namespace U32LessThanColumns

/-- `already_seen` when the loop over the limbs, from 3 down to 0, reaches each of them. -/
def alreadySeen (c : U32LessThanColumns F) : Limbs F :=
  ![c.multLts 3 + c.multLts 2 + c.multLts 1, c.multLts 3 + c.multLts 2, c.multLts 3, 0]

def multSum (c : U32LessThanColumns F) : F :=
  c.multLts 0 + c.multLts 1 + c.multLts 2 + c.multLts 3

def eval (c : U32LessThanColumns F) : Prop :=
  (∀ i, c.inverses i * (c.y i - c.x i) + 1 = c.isEquals i ∧
      (c.y i - c.x i) * c.isEquals i = 0) ∧
    (∀ i, AssertBool (c.multLts i)) ∧ AssertBool c.multSum ∧
    (∀ i, c.alreadySeen i * c.multLts i = 0 ∧
      (1 - c.alreadySeen i) * (c.multLts i - (1 - c.isEquals i)) = 0) ∧
    c.isEqual = 1 - c.multSum

instance [DecidableEq F] (c : U32LessThanColumns F) : Decidable c.eval :=
  inferInstanceAs (Decidable (_ ∧ _))

def lookups (c : U32LessThanColumns F) : List (Interaction F) :=
  (List.ofFn fun i => send .bytesLt [c.x i, c.y i] (c.multLts i)) ++
    [receive .u32Lt (List.ofFn c.x ++ List.ofFn c.y ++ [c.isEqual]) c.mult]

end U32LessThanColumns

structure TimestampLessThanColumns (F : Type*) where
  x : F
  y : F
  xBits : Fin 24 → F
  yBits : Fin 24 → F
  vBits : Fin 25 → F
  diffInv : F
  isEqual : F
  mult : F

namespace TimestampLessThanColumns

/-- `v_bits` decomposes `x + 2^24 - y`; its top bit is not constrained any further. -/
def eval (c : TimestampLessThanColumns F) : Prop :=
  ((∀ i, AssertBool (c.xBits i)) ∧ c.x = pack (List.ofFn c.xBits)) ∧
    ((∀ i, AssertBool (c.yBits i)) ∧ c.y = pack (List.ofFn c.yBits)) ∧
    ((∀ i, AssertBool (c.vBits i)) ∧ c.x + 2 ^ 24 - c.y = pack (List.ofFn c.vBits)) ∧
    c.diffInv * (c.x - c.y) + 1 = c.isEqual ∧ (c.x - c.y) * c.isEqual = 0

instance [DecidableEq F] (c : TimestampLessThanColumns F) : Decidable c.eval :=
  inferInstanceAs (Decidable (_ ∧ _))

def lookups (c : TimestampLessThanColumns F) : List (Interaction F) :=
  [receive .timestampLt [c.x, c.y, c.isEqual] c.mult]

end TimestampLessThanColumns

end Loquela.Air
