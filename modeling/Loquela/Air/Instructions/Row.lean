import Loquela.Air.Instructions.Arithmetic
import Loquela.Air.Instructions.Compare
import Loquela.Air.Instructions.Jump
import Loquela.Air.Instructions.Shift

/-! # Rows of the 23 instruction AIRs -/

namespace Loquela.Air

variable {F : Type*} [Field F]

/-- One row of one of the instruction AIRs. -/
inductive InstrRow (F : Type*) where
  | addi (c : AddiColumns F)
  | xori (c : BitwiseImmColumns F)
  | ori (c : BitwiseImmColumns F)
  | andi (c : BitwiseImmColumns F)
  | add (c : AddColumns F)
  | sub (c : SubColumns F)
  | xor (c : BitwiseColumns F)
  | or (c : BitwiseColumns F)
  | and (c : BitwiseColumns F)
  | sll (c : ShiftColumns F)
  | srl (c : ShiftColumns F)
  | sra (c : SraColumns F)
  | slli (c : ShiftImmColumns F)
  | srli (c : ShiftImmColumns F)
  | srai (c : SraiColumns F)
  | slt (c : SltColumns F)
  | sltu (c : SltuColumns F)
  | slti (c : SltiColumns F)
  | sltiu (c : SltiuColumns F)
  | lui (c : LuiColumns F)
  | auipc (c : AuipcColumns F)
  | jal (c : JalColumns F)
  | jalr (c : JalrColumns F)

/-- The constraints of the row's AIR. -/
def InstrRow.eval : InstrRow F → Prop
  | .addi c => c.eval
  | .xori c => c.eval
  | .ori c => c.eval
  | .andi c => c.eval
  | .add c => c.eval
  | .sub c => c.eval
  | .xor c => c.eval
  | .or c => c.eval
  | .and c => c.eval
  | .sll c => sllEval c
  | .srl c => srlEval c
  | .sra c => c.eval
  | .slli c => slliEval c
  | .srli c => srliEval c
  | .srai c => c.eval
  | .slt c => c.eval
  | .sltu c => c.eval
  | .slti c => c.eval
  | .sltiu c => c.eval
  | .lui c => luiEval c
  | .auipc c => c.eval
  | .jal c => c.eval
  | .jalr c => c.eval

instance InstrRow.decidableEval [DecidableEq F] : (r : InstrRow F) → Decidable r.eval
  | .addi c => AddiColumns.decidableEval c
  | .xori c | .ori c | .andi c => BitwiseImmColumns.decidableEval c
  | .add c => AddColumns.decidableEval c
  | .sub c => SubColumns.decidableEval c
  | .xor c | .or c | .and c => BitwiseColumns.decidableEval c
  | .sll c => decidableSllEval c
  | .srl c => decidableSrlEval c
  | .sra c => SraColumns.decidableEval c
  | .slli c => decidableSlliEval c
  | .srli c => decidableSrliEval c
  | .srai c => SraiColumns.decidableEval c
  | .slt c => SltColumns.decidableEval c
  | .sltu c => SltuColumns.decidableEval c
  | .slti c => SltiColumns.decidableEval c
  | .sltiu c => SltiuColumns.decidableEval c
  | .lui c => decidableLuiEval c
  | .auipc c => AuipcColumns.decidableEval c
  | .jal c => JalColumns.decidableEval c
  | .jalr c => JalrColumns.decidableEval c

def InstrRow.ports : InstrRow F → RowPorts F
  | .addi c => c.ports
  | .xori c => xoriPorts c
  | .ori c => oriPorts c
  | .andi c => andiPorts c
  | .add c => c.ports
  | .sub c => c.ports
  | .xor c => xorPorts c
  | .or c => orPorts c
  | .and c => andPorts c
  | .sll c => sllPorts c
  | .srl c => srlPorts c
  | .sra c => c.ports
  | .slli c => slliPorts c
  | .srli c => srliPorts c
  | .srai c => c.ports
  | .slt c => c.ports
  | .sltu c => c.ports
  | .slti c => c.ports
  | .sltiu c => c.ports
  | .lui c => luiPorts c
  | .auipc c => c.ports
  | .jal c => c.ports
  | .jalr c => c.ports

def InstrRow.lookups (r : InstrRow F) : List (Interaction F) := r.ports.lookups

/-- The AIR the row belongs to. -/
def InstrRow.id (r : InstrRow F) : InstructionId := r.ports.id

def InstrRow.isDummy (r : InstrRow F) : F := r.ports.isDummy

/-- Every instruction AIR asserts that `is_dummy` is boolean. -/
theorem InstrRow.isDummy_of_eval {r : InstrRow F} (h : r.eval) :
    r.isDummy = 0 ∨ r.isDummy = 1 := by
  rw [← assertBool_iff]
  cases r with
  | xor c => exact h.1
  | or c => exact h.1
  | and c => exact h.1
  | jal c => exact h.1
  | jalr c => exact h.1
  | _ => exact h.1.1

end Loquela.Air
