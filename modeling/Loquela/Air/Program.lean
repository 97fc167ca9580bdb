import Loquela.Air.Bus

/-! # Execution boundaries and the program ROM -/

namespace Loquela.Air

variable {F : Type*} [Field F]

structure BoundaryColumns (F : Type*) where
  pc : Limbs F
  timestamp : F

/-- The four rows of the table with its preprocessed columns `is_first` and `is_last`. -/
abbrev BoundaryTrace (F : Type*) := Fin 4 → BoundaryColumns F

def isFirst (i : Fin 4) : F := if i = 0 then 1 else 0

def isLast (i : Fin 4) : F := if i = 3 then 1 else 0

def boundariesEval (t : BoundaryTrace F) : Prop :=
  ∀ i, (∀ k, isFirst i * (t i).pc k = 0) ∧ isFirst i * (t i).timestamp = 0

instance [DecidableEq F] (t : BoundaryTrace F) : Decidable (boundariesEval t) :=
  inferInstanceAs (Decidable (∀ _ : Fin 4, _))

/-- Send the initial state with the constant zeros, receive the final state. -/
def boundariesLookups (t : BoundaryTrace F) : List (Interaction F) :=
  (List.ofFn fun i => [send .trace (traceTuple 0 0) (isFirst i),
    receive .trace (traceTuple (t i).pc (t i).timestamp) (isLast i)]).flatten

structure ProgramColumns (F : Type*) where
  address : Limbs F
  value : F
  mult : F
  incCarries : Limbs F
  isReal : F

namespace ProgramColumns

def evalRow (c : ProgramColumns F) : Prop :=
  c.incCarries 3 = 0 ∧ c.address 3 = 0 ∧ AssertBool c.isReal ∧ c.mult * (1 - c.isReal) = 0

def evalFirst (c : ProgramColumns F) : Prop := ∀ i, c.address i = 0

def evalTransition (c next : ProgramColumns F) : Prop :=
  u32Inc c.address next.address c.incCarries ∧ (1 - c.isReal) * next.isReal = 0

def lookups (c : ProgramColumns F) : List (Interaction F) :=
  [receive .program (List.ofFn c.address ++ [c.value]) c.mult,
    receive .programImage [packed c.address, c.value] c.isReal]

end ProgramColumns

def programEval (rows : List (ProgramColumns F)) : Prop :=
  (∀ c ∈ rows, c.evalRow) ∧ (∀ c ∈ rows.head?, c.evalFirst) ∧
    rows.IsChain ProgramColumns.evalTransition

section Decidable

variable [DecidableEq F]

instance (c : ProgramColumns F) : Decidable c.evalRow :=
  inferInstanceAs (Decidable (_ ∧ _ ∧ _ ∧ _))

instance (c : ProgramColumns F) : Decidable c.evalFirst :=
  inferInstanceAs (Decidable (∀ _ : Fin 4, _))

instance (c next : ProgramColumns F) : Decidable (c.evalTransition next) :=
  inferInstanceAs (Decidable (_ ∧ _))

instance (rows : List (ProgramColumns F)) : Decidable (programEval rows) :=
  inferInstanceAs (Decidable (_ ∧ (∀ c ∈ rows.head?, _) ∧ _))

end Decidable

def programLookups (rows : List (ProgramColumns F)) : List (Interaction F) :=
  rows.flatMap ProgramColumns.lookups

end Loquela.Air
