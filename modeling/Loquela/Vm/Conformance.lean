import Loquela.Vm.Semantics

/-! # The interpreter conforms to RV32I

Away from `rd = x0`, one `VM::step` on an encoded RV32I instruction is the architectural step
the base instruction set prescribes, for every register aliasing and every operand value.
-/

namespace Loquela.Vm
open Loquela.Rv32i

/-- One step from any state with `x0 = 0` produces the prescribed register file and `pc`, and
touches no register but `rd`. Results are functions of the old register file, so a source
register equal to `rd` is read before it is overwritten. -/
theorem step_conforms (vm : VM) (i : Instr) (hrd : i.rd ≠ 0) (hx0 : vm.registers 0 = 0)
    (hlength : vm.program.length < 2 ^ 31) (hword : Stored vm.program vm.pc.toNat i.encode) :
    ∃ vm', vm.step = some vm' ∧ (vm'.registers, vm'.pc) = i.exec vm.pc vm.registers ∧
      ∀ r, r ≠ i.rd → vm'.registers r = vm.registers r := by
  have hpc : vm.pc.toNat + 4 < 2 ^ 32 := by
    have hlast := (List.getElem?_eq_some_iff.mp (hword 3 (by omega))).1
    omega
  have hnext : vm.next i = some (i.nextPc vm.pc vm.registers) := by
    by_cases hj : i.isJump
    · exact next_of_isJump hj
    · rw [next_of_not_isJump hj, if_pos hpc, nextPc_of_not_isJump hj]
  refine ⟨vm.after i (i.nextPc vm.pc vm.registers),
    step_eq_some_iff.mpr ⟨i, _, fetch_of_stored hword, hnext, rfl⟩, ?_, ?_⟩
  · simp only [Instr.exec, visible_eq hx0, after_registers, after_pc, hrd, and_false, if_false]
  · intro r hr
    simp only [after_registers, hrd, and_false, if_false, Function.update_of_ne hr]

/-- `addi x1, x0, -1` at address 0. -/
theorem step_conforms_addi :
    ∃ vm', (VM.new [0x93, 0x00, 0xF0, 0xFF]).step = some vm' ∧
      (vm'.registers, vm'.pc) = (Instr.opImm .addi 1 0 (-1)).exec 0 (fun _ => 0) ∧
      ∀ r, r ≠ 1 → vm'.registers r = 0 :=
  step_conforms (VM.new [0x93, 0x00, 0xF0, 0xFF]) (.opImm .addi 1 0 (-1)) (by decide) rfl
    (by decide) (by unfold Stored; decide)

end Loquela.Vm
