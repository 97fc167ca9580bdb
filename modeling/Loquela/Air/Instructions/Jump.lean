import Loquela.Air.Instructions.Ports

/-! # Upper-immediate and jump instruction AIRs -/

namespace Loquela.Air
open Library.Bits (pack)

variable {F : Type*} [Field F]

/-- The columns LUI and AUIPC share; the raw immediate is `imm_low8 + imm_high12 * 2^8`. -/
structure UpperColumns (F : Type*) where
  pc : Limbs F
  timestamp : F
  rd : F
  immLow8 : F
  immHigh12 : F
  rdVal : Limbs F
  oldRdValue : Limbs F
  nextPc : Limbs F
  nextPcCarries : Fin 3 → F
  isDummy : F

def UpperColumns.eval (c : UpperColumns F) : Prop :=
  AssertBool c.isDummy ∧ u32PlusFour c.pc c.nextPc c.nextPcCarries

/-- The bytes of the raw immediate shifted left by 12: byte 0 is clear, the others carry it
scaled by 16. -/
def UpperColumns.shiftedImm (c : UpperColumns F) (bytes : Limbs F) : Prop :=
  bytes 0 = 0 ∧
    (c.immLow8 + c.immHigh12 * 256) * 16 = bytes 1 + bytes 2 * 256 + bytes 3 * 65536

/-- Write `rd`. -/
def UpperColumns.ports (c : UpperColumns F) (id : InstructionId) (checks : List (Check F)) :
    RowPorts F where
  id := id
  pc := c.pc
  timestamp := c.timestamp
  nextPc := c.nextPc
  ticks := 1
  decodeBus := .decodeU
  operands := [c.rd, c.immHigh12, c.immLow8]
  memory := [writeTuple c.timestamp c.rd c.oldRdValue c.rdVal]
  memoryMultiplicity := c.isDummy
  checks := checks
  isDummy := c.isDummy

abbrev LuiColumns := UpperColumns

def luiEval (c : LuiColumns F) : Prop := c.eval ∧ c.shiftedImm c.rdVal

instance decidableLuiEval [DecidableEq F] (c : LuiColumns F) : Decidable (luiEval c) :=
  inferInstanceAs (Decidable ((_ ∧ _) ∧ _ ∧ _))

def luiPorts (c : LuiColumns F) : RowPorts F := c.ports .lui (byteChecks c.rdVal)

structure AuipcColumns (F : Type*) extends UpperColumns F where
  immU : Limbs F
  addCarries : Limbs F

def AuipcColumns.eval (c : AuipcColumns F) : Prop :=
  c.toUpperColumns.eval ∧ c.toUpperColumns.shiftedImm c.immU ∧
    u32Add c.pc c.immU c.rdVal c.addCarries

instance AuipcColumns.decidableEval [DecidableEq F] (c : AuipcColumns F) : Decidable c.eval :=
  inferInstanceAs (Decidable ((_ ∧ _) ∧ (_ ∧ _) ∧ _))

/-- Byte 0 of `imm_u` is constrained to zero and has no lookup. -/
def AuipcColumns.ports (c : AuipcColumns F) : RowPorts F :=
  c.toUpperColumns.ports .auipc (byteChecks c.pc ++
    [(.bytes, [c.immU 1]), (.bytes, [c.immU 2]), (.bytes, [c.immU 3])] ++ byteChecks c.rdVal)

structure JalColumns (F : Type*) where
  pc : Limbs F
  timestamp : F
  rd : F
  immHigh12 : F
  immLo8 : F
  immHigh12Bits : Fin 12 → F
  immLo8Bits : Fin 8 → F
  immJ : Limbs F
  jmpCarries : Limbs F
  rdVal : Limbs F
  rdValCarries : Fin 3 → F
  oldRdValue : Limbs F
  nextPc : Limbs F
  rdIsZero : F
  rdInv : F
  isDummy : F

def JalColumns.immBits (c : JalColumns F) : Prop :=
  ((∀ i, AssertBool (c.immHigh12Bits i)) ∧ c.immHigh12 = pack (List.ofFn c.immHigh12Bits)) ∧
    (∀ i, AssertBool (c.immLo8Bits i)) ∧ c.immLo8 = pack (List.ofFn c.immLo8Bits)

/-- The bytes of the sign-extended J immediate: bits 10:1, bit 11 and bit 20 are in
`imm_high12`, bits 19:12 in `imm_lo8`. -/
def JalColumns.immBytes (c : JalColumns F) : Prop :=
  let h := c.immHigh12Bits
  let l := c.immLo8Bits
  c.immJ 0 = h 0 * 2 + h 1 * 4 + h 2 * 8 + h 3 * 16 + h 4 * 32 + h 5 * 64 + h 6 * 128 ∧
    c.immJ 1 = h 7 + h 8 * 2 + h 9 * 4 + h 10 * 8 + l 0 * 16 + l 1 * 32 + l 2 * 64 + l 3 * 128 ∧
    c.immJ 2 = l 4 + l 5 * 2 + l 6 * 4 + l 7 * 8 + h 11 * 0xF0 ∧
    c.immJ 3 = h 11 * 0xFF

/-- The is-zero gadget on `rd`, with a witness inverse. -/
def JalColumns.rdZero (c : JalColumns F) : Prop :=
  AssertBool c.rdIsZero ∧ c.rd * c.rdIsZero = 0 ∧ c.rd * c.rdInv + c.rdIsZero = 1

def JalColumns.eval (c : JalColumns F) : Prop :=
  AssertBool c.isDummy ∧ c.immBits ∧ c.immBytes ∧ u32Add c.pc c.immJ c.nextPc c.jmpCarries ∧
    u32PlusFour c.pc c.rdVal c.rdValCarries ∧ c.rdZero

instance JalColumns.decidableEval [DecidableEq F] (c : JalColumns F) : Decidable c.eval :=
  inferInstanceAs (Decidable (_ ∧ ((_ ∧ _) ∧ _ ∧ _) ∧ (_ ∧ _ ∧ _ ∧ _) ∧ _ ∧ _ ∧ _ ∧ _ ∧ _))

/-- Write `rd` unless it is `x0`. -/
def JalColumns.ports (c : JalColumns F) : RowPorts F where
  id := .jal
  pc := c.pc
  timestamp := c.timestamp
  nextPc := c.nextPc
  ticks := 1
  decodeBus := .decodeJ
  operands := [c.rd, c.immHigh12, c.immLo8]
  memory := [writeTuple c.timestamp c.rd c.oldRdValue c.rdVal]
  memoryMultiplicity := c.isDummy * (1 - c.rdIsZero)
  checks := byteChecks c.pc ++ byteChecks c.rdVal
  isDummy := c.isDummy

structure JalrColumns (F : Type*) extends SignExtension F where
  pc : Limbs F
  timestamp : F
  rd : F
  rs1 : F
  imm : F
  rs1Value : Limbs F
  oldRdValue : Limbs F
  rdVal : Limbs F
  rdValCarries : Fin 3 → F
  sum : Limbs F
  sumCarries : Limbs F
  sumLsb : F
  nextPc : Limbs F
  isDummy : F

/-- `next_pc` is `sum` with `sum_lsb` taken off its low byte; `sum_lsb` itself is only boolean. -/
def JalrColumns.target (c : JalrColumns F) : Prop :=
  AssertBool c.sumLsb ∧ c.sum 0 = c.nextPc 0 + c.sumLsb ∧
    c.nextPc 1 = c.sum 1 ∧ c.nextPc 2 = c.sum 2 ∧ c.nextPc 3 = c.sum 3

instance JalrColumns.decidableTarget [DecidableEq F] (c : JalrColumns F) : Decidable c.target :=
  inferInstanceAs (Decidable (_ ∧ _))

def JalrColumns.eval (c : JalrColumns F) : Prop :=
  AssertBool c.isDummy ∧ u32PlusFour c.pc c.rdVal c.rdValCarries ∧
    c.toSignExtension.eval c.imm ∧ u32Add c.rs1Value c.immSeBytes c.sum c.sumCarries ∧ c.target

instance JalrColumns.decidableEval [DecidableEq F] (c : JalrColumns F) : Decidable c.eval :=
  inferInstanceAs (Decidable (_ ∧ _ ∧ _ ∧ _ ∧ _))

/-- Read `rs1`, write `rd`, also when it is `x0`. Neither `sum` nor `next_pc` has lookups. -/
def JalrColumns.ports (c : JalrColumns F) : RowPorts F where
  id := .jalr
  pc := c.pc
  timestamp := c.timestamp
  nextPc := c.nextPc
  ticks := 2
  decodeBus := .decode
  operands := [c.rd, c.rs1, c.imm]
  memory := [readTuple c.timestamp c.rs1 c.rs1Value,
    writeTuple (c.timestamp + 1) c.rd c.oldRdValue c.rdVal]
  memoryMultiplicity := c.isDummy
  checks := byteChecks c.rs1Value ++ byteChecks c.rdVal
  isDummy := c.isDummy

end Loquela.Air
