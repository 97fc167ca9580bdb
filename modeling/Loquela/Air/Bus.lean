import Loquela.Field
import Loquela.Library.Bits
import Loquela.Library.Bus

/-! # Circuit vocabulary

The global buses, the constraint primitives of the AIR builder, four-limb words and the tuple
every memory operation puts on the memory bus.
-/

namespace Loquela.Air
open Library

inductive BusName where
  | trace
  | decode
  | decodeU
  | decodeJ
  | program
  | programImage
  | memory
  | bytes
  | bytesXor
  | bytesOr
  | bytesAnd
  | byteSll
  | byteSrl
  | u32Lt
  | timestampLt
  | bytesLt
  | poseidon2Perm
  deriving DecidableEq, Repr

abbrev Interaction (F : Type*) := Bus.Interaction BusName F

/-- A 32-bit word as four byte limbs, least significant first. -/
abbrev Limbs (F : Type*) := Fin 4 → F

variable {F : Type*}

def send (bus : BusName) (values : List F) (multiplicity : F) : Interaction F :=
  ⟨bus, .send, values, multiplicity⟩

def receive (bus : BusName) (values : List F) (multiplicity : F) : Interaction F :=
  ⟨bus, .receive, values, multiplicity⟩

section Field

variable [Field F]

/-- `assert_bool`. -/
def AssertBool (x : F) : Prop := x * (x - 1) = 0

instance [DecidableEq F] (x : F) : Decidable (AssertBool x) :=
  inferInstanceAs (Decidable (_ = _))

theorem assertBool_iff {x : F} : AssertBool x ↔ x = 0 ∨ x = 1 := by
  rw [AssertBool, mul_eq_zero, sub_eq_zero]

/-- The limbs of a register index: it fits in the low byte. -/
def registerAddress (r : F) : Limbs F := ![r, 0, 0, 0]

/-- A word holding one bit. -/
def bitLimbs (b : F) : Limbs F := ![b, 0, 0, 0]

/-- `address[0] + 2^8 * address[1] + 2^16 * address[2] + 2^24 * address[3]`. -/
def packed (x : Limbs F) : F := x 0 + x 1 * 2 ^ 8 + x 2 * 2 ^ 16 + x 3 * 2 ^ 24

end Field

/-- One operation on the memory bus:
`(timestamp, memory_type, addr[0..4], read[0..4], write[0..4])`. -/
structure MemoryTuple (F : Type*) where
  timestamp : F
  memoryType : F
  address : Limbs F
  read : Limbs F
  write : Limbs F
  deriving DecidableEq

def MemoryTuple.toList (op : MemoryTuple F) : List F :=
  op.timestamp :: op.memoryType ::
    (List.ofFn op.address ++ List.ofFn op.read ++ List.ofFn op.write)

theorem MemoryTuple.toList_injective : Function.Injective (toList (F := F)) := by
  intro a b h
  simp only [toList, List.cons.injEq] at h
  obtain ⟨htime, htype, hrest⟩ := h
  have hread := List.append_inj hrest (by simp)
  have haddress := List.append_inj hread.1 (by simp)
  cases a
  cases b
  simp only at htime htype hread haddress
  rw [htime, htype, List.ofFn_injective haddress.1, List.ofFn_injective haddress.2,
    List.ofFn_injective hread.2]

/-- The execution state on the trace bus: `(pc[0..4], timestamp)`. -/
def traceTuple (pc : Limbs F) (timestamp : F) : List F := List.ofFn pc ++ [timestamp]

theorem traceTuple_inj {pc pc' : Limbs F} {timestamp timestamp' : F} :
    traceTuple pc timestamp = traceTuple pc' timestamp' ↔ pc = pc' ∧ timestamp = timestamp' := by
  constructor
  · intro h
    obtain ⟨hpc, htime⟩ := List.append_inj h (by simp)
    exact ⟨List.ofFn_injective hpc, List.singleton_inj.mp htime⟩
  · rintro ⟨rfl, rfl⟩
    rfl

section Words

variable [Field F]

/-- The carry or borrow into each limb, from those out of the limbs below. -/
def carryIn (first : F) (carries : Limbs F) : Limbs F := ![first, carries 0, carries 1, carries 2]

/-- `u32_add`: `sum = x + y` limb by limb, with boolean carries. -/
def u32Add (x y sum carries : Limbs F) : Prop :=
  ∀ i, AssertBool (carries i) ∧ sum i + carries i * 256 = x i + y i + carryIn 0 carries i

/-- `u32_plus_four`: `y = x + 4` limb by limb; there is no carry out of the top limb. -/
def u32PlusFour (x y : Limbs F) (carries : Fin 3 → F) : Prop :=
  (∀ i, AssertBool (carries i)) ∧
    y 0 + carries 0 * 256 = x 0 + 4 ∧ y 1 + carries 1 * 256 = x 1 + carries 0 ∧
    y 2 + carries 2 * 256 = x 2 + carries 1 ∧ y 3 = x 3 + carries 2

/-- `u32_sub`: `diff = x - y` limb by limb, with boolean borrows. -/
def u32Sub (x y diff borrows : Limbs F) : Prop :=
  ∀ i, AssertBool (borrows i) ∧ x i + borrows i * 256 = y i + carryIn 0 borrows i + diff i

/-- `u32_inc`: `y = x + 1` limb by limb, with boolean carries. -/
def u32Inc (x y carries : Limbs F) : Prop :=
  ∀ i, AssertBool (carries i) ∧ y i + carries i * 256 = x i + carryIn 1 carries i

variable [DecidableEq F] (x y c : Limbs F)

instance (c : Fin 3 → F) : Decidable (u32PlusFour x y c) :=
  inferInstanceAs (Decidable ((∀ _ : Fin 3, _) ∧ _ ∧ _ ∧ _ ∧ _))

instance (z : Limbs F) : Decidable (u32Add x y z c) :=
  inferInstanceAs (Decidable (∀ _ : Fin 4, _ ∧ _))

instance (z : Limbs F) : Decidable (u32Sub x y z c) :=
  inferInstanceAs (Decidable (∀ _ : Fin 4, _ ∧ _))

instance : Decidable (u32Inc x y c) := inferInstanceAs (Decidable (∀ _ : Fin 4, _ ∧ _))

end Words

end Loquela.Air
