import Loquela.Air.Instructions.Ports

/-! # Arithmetic and bitwise instruction AIRs -/

namespace Loquela.Air

variable {F : Type*} [Field F]

structure AddColumns (F : Type*) extends RegisterColumns F where
  rs1Value : Limbs F
  rs2Value : Limbs F
  rdNewValue : Limbs F
  addCarries : Limbs F

def AddColumns.eval (c : AddColumns F) : Prop :=
  c.toRegisterColumns.eval ∧ u32Add c.rs1Value c.rs2Value c.rdNewValue c.addCarries

instance AddColumns.decidableEval [DecidableEq F] (c : AddColumns F) : Decidable c.eval :=
  inferInstanceAs (Decidable (_ ∧ _))

def AddColumns.ports (c : AddColumns F) : RowPorts F :=
  c.toRegisterColumns.ports .add c.rs1Value c.rs2Value c.rdNewValue
    (byteChecks c.rs1Value ++ byteChecks c.rs2Value ++ byteChecks c.rdNewValue)

structure SubColumns (F : Type*) extends RegisterColumns F where
  rs1Value : Limbs F
  rs2Value : Limbs F
  rdNewValue : Limbs F
  subBorrows : Limbs F

def SubColumns.eval (c : SubColumns F) : Prop :=
  c.toRegisterColumns.eval ∧ u32Sub c.rs1Value c.rs2Value c.rdNewValue c.subBorrows

instance SubColumns.decidableEval [DecidableEq F] (c : SubColumns F) : Decidable c.eval :=
  inferInstanceAs (Decidable (_ ∧ _))

def SubColumns.ports (c : SubColumns F) : RowPorts F :=
  c.toRegisterColumns.ports .sub c.rs1Value c.rs2Value c.rdNewValue
    (byteChecks c.rs1Value ++ byteChecks c.rs2Value ++ byteChecks c.rdNewValue)

/-- Columns of the three R-type bitwise AIRs, which only differ in their table. -/
structure BitwiseColumns (F : Type*) extends RegisterColumns F where
  rs1Value : Limbs F
  rs2Value : Limbs F
  rdNewValue : Limbs F

def BitwiseColumns.eval (c : BitwiseColumns F) : Prop := c.toRegisterColumns.eval

instance BitwiseColumns.decidableEval [DecidableEq F] (c : BitwiseColumns F) : Decidable c.eval :=
  RegisterColumns.decidableEval c.toRegisterColumns

def BitwiseColumns.ports (c : BitwiseColumns F) (id : InstructionId) (checks : List (Check F)) :
    RowPorts F :=
  c.toRegisterColumns.ports id c.rs1Value c.rs2Value c.rdNewValue checks

/-- XOR sends range checks for its operands on top of the table lookups. -/
def xorPorts (c : BitwiseColumns F) : RowPorts F :=
  c.ports .xor (tripleChecks .bytesXor c.rs1Value c.rs2Value c.rdNewValue ++
    byteChecks c.rs1Value ++ byteChecks c.rs2Value)

def orPorts (c : BitwiseColumns F) : RowPorts F :=
  c.ports .or (tripleChecks .bytesOr c.rs1Value c.rs2Value c.rdNewValue)

def andPorts (c : BitwiseColumns F) : RowPorts F :=
  c.ports .and (tripleChecks .bytesAnd c.rs1Value c.rs2Value c.rdNewValue)

structure AddiColumns (F : Type*) extends ImmediateColumns F, SignExtension F where
  rs1Value : Limbs F
  rdNewValue : Limbs F
  addCarries : Limbs F

def AddiColumns.eval (c : AddiColumns F) : Prop :=
  c.toImmediateColumns.eval ∧ c.toSignExtension.eval c.imm ∧
    u32Add c.rs1Value c.immSeBytes c.rdNewValue c.addCarries

instance AddiColumns.decidableEval [DecidableEq F] (c : AddiColumns F) : Decidable c.eval :=
  inferInstanceAs (Decidable (_ ∧ _ ∧ _))

def AddiColumns.ports (c : AddiColumns F) : RowPorts F :=
  c.toImmediateColumns.ports .addi c.rs1Value c.rdNewValue
    (byteChecks c.rs1Value ++ byteChecks c.rdNewValue)

/-- Columns of the three I-type bitwise AIRs, which only differ in their table. -/
structure BitwiseImmColumns (F : Type*) extends ImmediateColumns F, SignExtension F where
  rs1Value : Limbs F
  rdNewValue : Limbs F

def BitwiseImmColumns.eval (c : BitwiseImmColumns F) : Prop :=
  c.toImmediateColumns.eval ∧ c.toSignExtension.eval c.imm

instance BitwiseImmColumns.decidableEval [DecidableEq F] (c : BitwiseImmColumns F) :
    Decidable c.eval :=
  inferInstanceAs (Decidable (_ ∧ _))

def BitwiseImmColumns.ports (c : BitwiseImmColumns F) (id : InstructionId) (bus : BusName) :
    RowPorts F :=
  c.toImmediateColumns.ports id c.rs1Value c.rdNewValue
    (tripleChecks bus c.rs1Value c.immSeBytes c.rdNewValue)

def xoriPorts (c : BitwiseImmColumns F) : RowPorts F := c.ports .xori .bytesXor

def oriPorts (c : BitwiseImmColumns F) : RowPorts F := c.ports .ori .bytesOr

def andiPorts (c : BitwiseImmColumns F) : RowPorts F := c.ports .andi .bytesAnd

end Loquela.Air
