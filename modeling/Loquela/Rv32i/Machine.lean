import Loquela.Library.Iteration
import Loquela.Rv32i.Formats

/-! # The RV32I machine

The architecture as a machine of its own: the instruction stored at `pc` is executed, and `x0` is
hard-wired to 0. There is no step where no supported instruction is stored.
-/

namespace Loquela.Rv32i
open Loquela.Library.Iteration

/-- The register file and `pc`. -/
abbrev State := (Reg → Word) × Word

def reset : State := (fun _ => 0, 0)

def Step (memory : List (BitVec 8)) (s t : State) : Prop :=
  ∃ i : Instr, Stored memory s.2.toNat i.encode ∧ t = i.exec s.2 s.1

/-- The states the machine is in `n` steps after reset. -/
def Reaches (memory : List (BitVec 8)) (n : ℕ) (s : State) : Prop := follow (Step memory) n reset s

variable {memory : List (BitVec 8)}

/-- One word lies at an address. -/
theorem stored_unique {addr : ℕ} {v w : Word} (hv : Stored memory addr v)
    (hw : Stored memory addr w) : v = w := by
  apply BitVec.eq_of_getLsbD_eq
  intro j hj
  have hbyte : v.extractLsb' (8 * (j / 8)) 8 = w.extractLsb' (8 * (j / 8)) 8 :=
    Option.some.inj ((hv (j / 8) (by omega)).symm.trans (hw (j / 8) (by omega)))
  have hbit := congrArg (fun b => b.getLsbD (j % 8)) hbyte
  simp only [BitVec.getLsbD_extractLsb', Nat.mod_lt j (show 8 > 0 by omega), decide_true,
    Bool.true_and, Nat.div_add_mod] at hbit
  exact hbit

/-- The instruction that is executed. -/
theorem step_iff_of_stored {i : Instr} {s t : State} (h : Stored memory s.2.toNat i.encode) :
    Step memory s t ↔ t = i.exec s.2 s.1 := by
  constructor
  · rintro ⟨j, hj, rfl⟩
    rw [encode_injective (stored_unique hj h)]
  · rintro rfl
    exact ⟨i, h, rfl⟩

theorem exec_x0 (i : Instr) (pc : Word) (x : Reg → Word) : (i.exec pc x).1 0 = x 0 := by
  rw [Instr.exec]
  split_ifs with hrd
  · rfl
  · exact Function.update_of_ne (Ne.symm hrd) _ _

theorem reaches_x0 {n : ℕ} {s : State} (h : Reaches memory n s) : s.1 0 = 0 := by
  refine follow_induction (J := fun s : State => s.1 0 = 0) ?_ rfl h
  rintro s t hs ⟨i, -, rfl⟩
  exact (exec_x0 i s.2 s.1).trans hs

end Loquela.Rv32i
