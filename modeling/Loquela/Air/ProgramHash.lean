import Loquela.Air.Bus
import Loquela.Vm.Instruction

/-! # The program hash

A Poseidon2 sponge over the program bytes, 24 to a row. The chain runs bottom-up: every real row
absorbs its chunk into the state of the row below it, and the digest is read off row 0. The
permutation is checked by a separate chip over the `poseidon2_perm` bus.
-/

namespace Loquela.Air
open Vm (Byte U32)

variable {F : Type*} [Field F]

abbrev SpongeState (F : Type*) := Fin 16 → F

/-- The linear layers and round constants of the upstream permutation. -/
structure Poseidon2 (F : Type*) where
  externalLinearLayer : SpongeState F → SpongeState F
  internalLinearLayer : SpongeState F → SpongeState F
  rcExternalInitial : Fin 4 → SpongeState F
  rcInternal : Fin 14 → F
  rcExternalFinal : Fin 4 → SpongeState F

namespace Poseidon2

variable (P : Poseidon2 F)

/-- One full round: constants, fifth powers, external layer. -/
def fullRound (state rc : SpongeState F) : SpongeState F :=
  P.externalLinearLayer fun i => (state i + rc i) ^ 5

/-- One partial round: only lane 0 gets a constant and a fifth power. -/
def partialRound (state : SpongeState F) (rc : F) : SpongeState F :=
  P.internalLinearLayer (Function.update state 0 ((state 0 + rc) ^ 5))

/-- `permute_in_host`. -/
def permute (state : SpongeState F) : SpongeState F :=
  let initial := (List.ofFn P.rcExternalInitial).foldl P.fullRound (P.externalLinearLayer state)
  let middle := (List.ofFn P.rcInternal).foldl P.partialRound initial
  (List.ofFn P.rcExternalFinal).foldl P.fullRound middle

end Poseidon2

structure ProgramHashColumns (F : Type*) where
  state : SpongeState F
  bytes : Fin 24 → F
  baseAddr : F
  isActive : Fin 24 → F
  flag : F
  cumActive : F
  permIn : SpongeState F
  permOut : SpongeState F

structure PublicValues (F : Type*) where
  digest : Fin 8 → F
  length : F

/-- The rate lanes come first in the state. -/
theorem rate_le : 8 ≤ 16 := by decide

theorem low_lt (g : Fin 8) : 3 * (g : ℕ) < 24 := by omega

theorem middle_lt (g : Fin 8) : 3 * (g : ℕ) + 1 < 24 := by omega

theorem high_lt (g : Fin 8) : 3 * (g : ℕ) + 2 < 24 := by omega

/-- Three bytes packed into rate lane `g`. -/
def packedLane (bytes : Fin 24 → F) (g : Fin 8) : F :=
  bytes ⟨3 * g, low_lt g⟩ + bytes ⟨3 * g + 1, middle_lt g⟩ * 2 ^ 8 +
    bytes ⟨3 * g + 2, high_lt g⟩ * 2 ^ 16

/-- A state with a chunk added to its first eight lanes. -/
def absorb (state : SpongeState F) (bytes : Fin 24 → F) : SpongeState F := fun i =>
  if h : (i : ℕ) < 8 then state i + packedLane bytes ⟨i, h⟩ else state i

namespace ProgramHashColumns

def rowSum (c : ProgramHashColumns F) : F := ∑ i, c.isActive i

/-- Selectors, padding pins, and the absorption of the row's chunk into the state of the next
row, which on the last row is the first one. -/
def evalRow (c next : ProgramHashColumns F) : Prop :=
  AssertBool c.flag ∧ (∀ i, AssertBool (c.isActive i)) ∧
    (∀ i : Fin 23, c.isActive i.succ * (1 - c.isActive i.castSucc) = 0) ∧
    (∀ i, (1 - c.flag) * c.isActive i = 0) ∧
    c.isActive 0 = c.flag ∧
    (∀ i, (1 - c.isActive i) * c.bytes i = 0) ∧
    (∀ i, (1 - c.flag) * c.state i = 0) ∧
    (∀ i, c.flag * (c.permIn i - absorb next.state c.bytes i) = 0) ∧
    ∀ i, c.flag * (c.state i - c.permOut i) = 0

def evalTransition (c next : ProgramHashColumns F) : Prop :=
  next.flag * (1 - c.flag) = 0 ∧ c.flag * next.flag * (1 - c.isActive 23) = 0 ∧
    next.baseAddr = c.baseAddr + 24 ∧ next.cumActive = c.cumActive + next.rowSum

def evalFirst (c : ProgramHashColumns F) (pub : PublicValues F) : Prop :=
  c.baseAddr = 0 ∧ c.cumActive = c.rowSum ∧
    ∀ i : Fin 8, c.state (i.castLE rate_le) = pub.digest i

def evalLast (c : ProgramHashColumns F) (pub : PublicValues F) : Prop :=
  c.flag = 0 ∧ c.cumActive = pub.length

def lookups (c : ProgramHashColumns F) : List (Interaction F) :=
  (List.ofFn fun i : Fin 24 =>
      send .programImage [c.baseAddr + ((i : ℕ) : F), c.bytes i] (c.isActive i)) ++
    (List.ofFn fun i => send .bytes [c.bytes i] (c.isActive i)) ++
    [send .poseidon2Perm (List.ofFn c.permIn ++ List.ofFn c.permOut) c.flag]

end ProgramHashColumns

def programHashEval (rows : List (ProgramHashColumns F)) (pub : PublicValues F) : Prop :=
  (∀ pair ∈ rows.zip (rows.rotate 1), pair.1.evalRow pair.2) ∧
    (∀ c ∈ rows.head?, c.evalFirst pub) ∧ (∀ c ∈ rows.getLast?, c.evalLast pub) ∧
    rows.IsChain ProgramHashColumns.evalTransition

def programHashLookups (rows : List (ProgramHashColumns F)) : List (Interaction F) :=
  rows.flatMap ProgramHashColumns.lookups

/-- What a row of the chip exposes; the rounds between input and output are the upstream AIR's.
`isReal` is a preprocessed selector. -/
structure Poseidon2Columns (F : Type*) where
  input : SpongeState F
  output : SpongeState F
  isReal : Bool

/-- The upstream AIR enforces that the output is the permutation of the input. -/
def Poseidon2Columns.eval (P : Poseidon2 F) (c : Poseidon2Columns F) : Prop :=
  c.output = P.permute c.input

def Poseidon2Columns.lookups (c : Poseidon2Columns F) : List (Interaction F) :=
  [receive .poseidon2Perm (List.ofFn c.input ++ List.ofFn c.output) (if c.isReal then 1 else 0)]

/-- The bytes of a chunk as field elements, zero past the end of the program. -/
def chunk (program : List Byte) (base : ℕ) (i : Fin 24) : F :=
  match program[base + i]? with
  | some byte => (byte.toNat : F)
  | none => 0

/-- The sponge of `compute_program_digest`: chunks are absorbed from the tail of the program to
its head. -/
def Poseidon2.sponge (P : Poseidon2 F) (program : List Byte) : SpongeState F :=
  (List.range ((program.length + 23) / 24)).reverse.foldl
    (fun state row => P.permute (absorb state (chunk program (row * 24)))) 0

def computeProgramDigest (P : Poseidon2 F) (program : List Byte) : (Fin 8 → F) × U32 :=
  (fun i => P.sponge program (i.castLE rate_le), BitVec.ofNat 32 program.length)

end Loquela.Air
