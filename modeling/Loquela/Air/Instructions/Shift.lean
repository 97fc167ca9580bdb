import Loquela.Air.Instructions.Ports

/-! # Shift instruction AIRs

A shift by `8 * byte_shamt + bit_shamt` is done in two stages: a table shifts each byte within
itself and gives the bits it passes on to its neighbour, and one-hot selectors then move whole
bytes. Right shifts fill vacated bytes with `fill`, which is 0 for the logical ones.
-/

namespace Loquela.Air

variable {F : Type*} [Field F]

/-- The columns every shift AIR has for the two stages; `isBs k` selects `byte_shamt = k`. -/
structure ShiftStages (F : Type*) where
  rs1Bytes : Limbs F
  rdBytes : Limbs F
  bitShamt : F
  byteShamt : F
  isBs : Fin 4 → F
  shiftedBytes : Limbs F
  carryBytes : Limbs F

def ShiftStages.selectors (s : ShiftStages F) : Prop :=
  (∀ i, AssertBool (s.isBs i)) ∧ s.isBs 0 + s.isBs 1 + s.isBs 2 + s.isBs 3 = 1 ∧
    s.byteShamt = s.isBs 1 + s.isBs 2 * 2 + s.isBs 3 * 3

instance ShiftStages.decidableSelectors [DecidableEq F] (s : ShiftStages F) :
    Decidable s.selectors :=
  inferInstanceAs (Decidable ((∀ _ : Fin 4, _) ∧ _ ∧ _))

/-- Carries flow into the next higher byte, bytes move up, low bytes are cleared. -/
def ShiftStages.left (s : ShiftStages F) : Prop :=
  let inter0 := s.shiftedBytes 0
  let inter1 := s.shiftedBytes 1 + s.carryBytes 0
  let inter2 := s.shiftedBytes 2 + s.carryBytes 1
  let inter3 := s.shiftedBytes 3 + s.carryBytes 2
  s.rdBytes 0 = s.isBs 0 * inter0 ∧
    s.rdBytes 1 = s.isBs 0 * inter1 + s.isBs 1 * inter0 ∧
    s.rdBytes 2 = s.isBs 0 * inter2 + s.isBs 1 * inter1 + s.isBs 2 * inter0 ∧
    s.rdBytes 3 = s.isBs 0 * inter3 + s.isBs 1 * inter2 + s.isBs 2 * inter1 + s.isBs 3 * inter0

instance ShiftStages.decidableLeft [DecidableEq F] (s : ShiftStages F) : Decidable s.left :=
  inferInstanceAs (Decidable (_ ∧ _ ∧ _ ∧ _))

/-- Carries flow into the next lower byte, bytes move down, high bytes become `fill`;
`topCarry` is what the within-byte stage shifts into the top byte. -/
def ShiftStages.right (s : ShiftStages F) (topCarry fill : F) : Prop :=
  let inter0 := s.shiftedBytes 0 + s.carryBytes 1
  let inter1 := s.shiftedBytes 1 + s.carryBytes 2
  let inter2 := s.shiftedBytes 2 + s.carryBytes 3
  let inter3 := s.shiftedBytes 3 + topCarry
  s.rdBytes 3 = s.isBs 0 * inter3 + (s.isBs 1 + s.isBs 2 + s.isBs 3) * fill ∧
    s.rdBytes 2 = s.isBs 0 * inter2 + s.isBs 1 * inter3 + (s.isBs 2 + s.isBs 3) * fill ∧
    s.rdBytes 1 = s.isBs 0 * inter1 + s.isBs 1 * inter2 + s.isBs 2 * inter3 + s.isBs 3 * fill ∧
    s.rdBytes 0 = s.isBs 0 * inter0 + s.isBs 1 * inter1 + s.isBs 2 * inter2 + s.isBs 3 * inter3

instance ShiftStages.decidableRight [DecidableEq F] (s : ShiftStages F) (topCarry fill : F) :
    Decidable (s.right topCarry fill) := inferInstanceAs (Decidable (_ ∧ _ ∧ _ ∧ _))

/-- The lookups of the within-byte stage. -/
def ShiftStages.checks (s : ShiftStages F) (bus : BusName) : List (Check F) :=
  shiftChecks bus s.rs1Bytes s.bitShamt s.shiftedBytes s.carryBytes

/-- Sign handling of the arithmetic right shifts. -/
structure SignFill (F : Type*) where
  signBit : F
  fillByte : F
  rs1Byte3Low7 : F
  srlFfShifted : F
  srlFfCarry : F

def SignFill.eval (g : SignFill F) (topByte : F) : Prop :=
  AssertBool g.signBit ∧ g.fillByte = g.signBit * 255 ∧
    topByte = g.signBit * 128 + g.rs1Byte3Low7

instance SignFill.decidableEval [DecidableEq F] (g : SignFill F) (topByte : F) :
    Decidable (g.eval topByte) :=
  inferInstanceAs (Decidable (_ ∧ _ ∧ _))

/-- The `byte_srl` lookup of `0xFF`, whose carry is the mask of the sign-extended bits. -/
def SignFill.check (g : SignFill F) (bitShamt : F) : Check F :=
  (.byteSrl, [0xFF, bitShamt, g.srlFfShifted, g.srlFfCarry])

structure ShiftColumns (F : Type*) extends RegisterColumns F, ShiftStages F where
  rs2Value : Limbs F
  rs2ShamtHigh : F

/-- The shift amount is the low five bits of `rs2`. -/
def ShiftColumns.shamt (c : ShiftColumns F) : Prop :=
  c.rs2Value 0 = c.bitShamt + c.byteShamt * 8 + c.rs2ShamtHigh * 32

instance ShiftColumns.decidableShamt [DecidableEq F] (c : ShiftColumns F) : Decidable c.shamt :=
  inferInstanceAs (Decidable (_ = _))

def ShiftColumns.ports (c : ShiftColumns F) (id : InstructionId) (checks : List (Check F)) :
    RowPorts F :=
  c.toRegisterColumns.ports id c.rs1Bytes c.rs2Value c.rdBytes checks

def sllEval (c : ShiftColumns F) : Prop :=
  c.toRegisterColumns.eval ∧ c.toShiftStages.selectors ∧ c.shamt ∧ c.toShiftStages.left

instance decidableSllEval [DecidableEq F] (c : ShiftColumns F) : Decidable (sllEval c) :=
  inferInstanceAs (Decidable (_ ∧ _ ∧ _ ∧ _))

def sllPorts (c : ShiftColumns F) : RowPorts F :=
  c.ports .sll (c.toShiftStages.checks .byteSll ++ byteChecks c.rs2Value ++
    [(.bytes, [c.rs2ShamtHigh])] ++ byteChecks c.rdBytes)

def srlEval (c : ShiftColumns F) : Prop :=
  c.toRegisterColumns.eval ∧ c.toShiftStages.selectors ∧ c.shamt ∧ c.toShiftStages.right 0 0

instance decidableSrlEval [DecidableEq F] (c : ShiftColumns F) : Decidable (srlEval c) :=
  inferInstanceAs (Decidable (_ ∧ _ ∧ _ ∧ _))

def srlPorts (c : ShiftColumns F) : RowPorts F :=
  c.ports .srl (c.toShiftStages.checks .byteSrl ++ byteChecks c.rs2Value ++
    [(.bytes, [c.rs2ShamtHigh])] ++ byteChecks c.rdBytes)

structure SraColumns (F : Type*) extends ShiftColumns F, SignFill F

def SraColumns.eval (c : SraColumns F) : Prop :=
  c.toRegisterColumns.eval ∧ c.toShiftStages.selectors ∧ c.shamt ∧
    c.toSignFill.eval (c.rs1Bytes 3) ∧
    c.toShiftStages.right (c.signBit * c.srlFfCarry) c.fillByte

instance SraColumns.decidableEval [DecidableEq F] (c : SraColumns F) : Decidable c.eval :=
  inferInstanceAs (Decidable (_ ∧ _ ∧ _ ∧ _ ∧ _))

def SraColumns.ports (c : SraColumns F) : RowPorts F :=
  c.toShiftColumns.ports .sra (c.toShiftStages.checks .byteSrl ++
    [c.toSignFill.check c.bitShamt] ++ byteChecks c.rs2Value ++ [(.bytes, [c.rs2ShamtHigh])] ++
    byteChecks c.rdBytes ++ [(.bytes, [c.rs1Byte3Low7])])

structure ShiftImmColumns (F : Type*) extends ImmediateColumns F, ShiftStages F

/-- The shift amount is the immediate of the decode bus. -/
def ShiftImmColumns.shamt (c : ShiftImmColumns F) : Prop :=
  c.imm = c.bitShamt + c.byteShamt * 8

instance ShiftImmColumns.decidableShamt [DecidableEq F] (c : ShiftImmColumns F) :
    Decidable c.shamt :=
  inferInstanceAs (Decidable (_ = _))

def ShiftImmColumns.ports (c : ShiftImmColumns F) (id : InstructionId)
    (checks : List (Check F)) : RowPorts F :=
  c.toImmediateColumns.ports id c.rs1Bytes c.rdBytes checks

def slliEval (c : ShiftImmColumns F) : Prop :=
  c.toImmediateColumns.eval ∧ c.toShiftStages.selectors ∧ c.shamt ∧ c.toShiftStages.left

instance decidableSlliEval [DecidableEq F] (c : ShiftImmColumns F) : Decidable (slliEval c) :=
  inferInstanceAs (Decidable (_ ∧ _ ∧ _ ∧ _))

def slliPorts (c : ShiftImmColumns F) : RowPorts F :=
  c.ports .slli (c.toShiftStages.checks .byteSll ++ byteChecks c.rdBytes)

def srliEval (c : ShiftImmColumns F) : Prop :=
  c.toImmediateColumns.eval ∧ c.toShiftStages.selectors ∧ c.shamt ∧ c.toShiftStages.right 0 0

instance decidableSrliEval [DecidableEq F] (c : ShiftImmColumns F) : Decidable (srliEval c) :=
  inferInstanceAs (Decidable (_ ∧ _ ∧ _ ∧ _))

def srliPorts (c : ShiftImmColumns F) : RowPorts F :=
  c.ports .srli (c.toShiftStages.checks .byteSrl ++ byteChecks c.rdBytes)

structure SraiColumns (F : Type*) extends ShiftImmColumns F, SignFill F

def SraiColumns.eval (c : SraiColumns F) : Prop :=
  c.toImmediateColumns.eval ∧ c.toShiftStages.selectors ∧ c.shamt ∧
    c.toSignFill.eval (c.rs1Bytes 3) ∧
    c.toShiftStages.right (c.signBit * c.srlFfCarry) c.fillByte

instance SraiColumns.decidableEval [DecidableEq F] (c : SraiColumns F) : Decidable c.eval :=
  inferInstanceAs (Decidable (_ ∧ _ ∧ _ ∧ _ ∧ _))

def SraiColumns.ports (c : SraiColumns F) : RowPorts F :=
  c.toShiftImmColumns.ports .srai (c.toShiftStages.checks .byteSrl ++
    [c.toSignFill.check c.bitShamt] ++ byteChecks c.rdBytes ++ [(.bytes, [c.rs1Byte3Low7])])

end Loquela.Air
