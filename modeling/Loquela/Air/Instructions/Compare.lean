import Loquela.Air.Instructions.Ports

/-! # Comparison instruction AIRs

`SLT`, `SLTU` and their immediate forms subtract limb by limb; the last borrow is the unsigned
comparison, and the signed one corrects it by the two sign bits.
-/

namespace Loquela.Air

variable {F : Type*} [Field F]

/-- `a XOR b` on bits. -/
def xorBit (a b : F) : F := a + b - a * b * 2

/-- The columns of the borrow chain. -/
structure Comparison (F : Type*) where
  rs1Bytes : Limbs F
  diffBytes : Limbs F
  borrow : Limbs F
  ltResult : F

def Comparison.eval (s : Comparison F) (right : Limbs F) : Prop :=
  AssertBool s.ltResult ∧ u32Sub s.rs1Bytes right s.diffBytes s.borrow

instance Comparison.decidableEval [DecidableEq F] (s : Comparison F) (right : Limbs F) :
    Decidable (s.eval right) :=
  inferInstanceAs (Decidable (_ ∧ _))

/-- A sign bit split off the top byte of an operand; the rest is only checked to be a byte. -/
def splitSign (topByte sign low7 : F) : Prop :=
  AssertBool sign ∧ topByte = sign * 128 + low7

instance decidableSplitSign [DecidableEq F] (topByte sign low7 : F) :
    Decidable (splitSign topByte sign low7) :=
  inferInstanceAs (Decidable (_ ∧ _))

structure SltColumns (F : Type*) extends RegisterColumns F, Comparison F where
  rs2Bytes : Limbs F
  signRs1 : F
  signRs2 : F
  rs1Byte3Low7 : F
  rs2Byte3Low7 : F

def SltColumns.eval (c : SltColumns F) : Prop :=
  c.toRegisterColumns.eval ∧ c.toComparison.eval c.rs2Bytes ∧
    splitSign (c.rs1Bytes 3) c.signRs1 c.rs1Byte3Low7 ∧
    splitSign (c.rs2Bytes 3) c.signRs2 c.rs2Byte3Low7 ∧
    c.ltResult = xorBit (c.borrow 3) (xorBit c.signRs1 c.signRs2)

instance SltColumns.decidableEval [DecidableEq F] (c : SltColumns F) : Decidable c.eval :=
  inferInstanceAs (Decidable (_ ∧ _ ∧ _ ∧ _ ∧ _))

def SltColumns.ports (c : SltColumns F) : RowPorts F :=
  c.toRegisterColumns.ports .slt c.rs1Bytes c.rs2Bytes (bitLimbs c.ltResult)
    (byteChecks c.rs1Bytes ++ byteChecks c.rs2Bytes ++ byteChecks c.diffBytes ++
      [(.bytes, [c.rs1Byte3Low7]), (.bytes, [c.rs2Byte3Low7])])

structure SltuColumns (F : Type*) extends RegisterColumns F, Comparison F where
  rs2Bytes : Limbs F

def SltuColumns.eval (c : SltuColumns F) : Prop :=
  c.toRegisterColumns.eval ∧ c.toComparison.eval c.rs2Bytes ∧ c.ltResult = c.borrow 3

instance SltuColumns.decidableEval [DecidableEq F] (c : SltuColumns F) : Decidable c.eval :=
  inferInstanceAs (Decidable (_ ∧ _ ∧ _))

def SltuColumns.ports (c : SltuColumns F) : RowPorts F :=
  c.toRegisterColumns.ports .sltu c.rs1Bytes c.rs2Bytes (bitLimbs c.ltResult)
    (byteChecks c.rs1Bytes ++ byteChecks c.rs2Bytes ++ byteChecks c.diffBytes)

structure SltiColumns (F : Type*) extends ImmediateColumns F, SignExtension F, Comparison F where
  signRs1 : F
  rs1Byte3Low7 : F

/-- The sign of the immediate is its own top bit. -/
def SltiColumns.eval (c : SltiColumns F) : Prop :=
  c.toImmediateColumns.eval ∧ c.toSignExtension.eval c.imm ∧ c.toComparison.eval c.immSeBytes ∧
    splitSign (c.rs1Bytes 3) c.signRs1 c.rs1Byte3Low7 ∧
    c.ltResult = xorBit (c.borrow 3) (xorBit c.signRs1 (c.immHighBits 3))

instance SltiColumns.decidableEval [DecidableEq F] (c : SltiColumns F) : Decidable c.eval :=
  inferInstanceAs (Decidable (_ ∧ _ ∧ _ ∧ _ ∧ _))

def SltiColumns.ports (c : SltiColumns F) : RowPorts F :=
  c.toImmediateColumns.ports .slti c.rs1Bytes (bitLimbs c.ltResult)
    (byteChecks c.rs1Bytes ++ byteChecks c.diffBytes ++ [(.bytes, [c.rs1Byte3Low7])])

structure SltiuColumns (F : Type*) extends ImmediateColumns F, SignExtension F, Comparison F

def SltiuColumns.eval (c : SltiuColumns F) : Prop :=
  c.toImmediateColumns.eval ∧ c.toSignExtension.eval c.imm ∧ c.toComparison.eval c.immSeBytes ∧
    c.ltResult = c.borrow 3

instance SltiuColumns.decidableEval [DecidableEq F] (c : SltiuColumns F) : Decidable c.eval :=
  inferInstanceAs (Decidable (_ ∧ _ ∧ _ ∧ _))

def SltiuColumns.ports (c : SltiuColumns F) : RowPorts F :=
  c.toImmediateColumns.ports .sltiu c.rs1Bytes (bitLimbs c.ltResult)
    (byteChecks c.rs1Bytes ++ byteChecks c.diffBytes)

end Loquela.Air
