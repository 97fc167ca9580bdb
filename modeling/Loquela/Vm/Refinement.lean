import Loquela.Rv32i.Machine
import Loquela.Vm.Runs
import Loquela.Vm.ZeroRegister

/-! # Runs of the interpreter are runs of the RV32I machine

The interpreter keeps `x0` in its register file like any other register. It runs in step with the
architecture exactly as long as no instruction but a jump leaves a nonzero result there, and it
gets stuck where the architecture has no step.
-/

namespace Loquela.Vm
open Loquela.Library.Iteration Loquela.Rv32i

/-- What the architecture knows of a machine. -/
def VM.state (vm : VM) : State := (vm.registers, vm.pc)

/-- Where no step can overflow `pc`, the interpreter is stuck only where nothing is stored. -/
theorem next_of_stored {vm : VM} {i : Instr} (hlength : vm.program.length < 2 ^ 32)
    (hword : Stored vm.program vm.pc.toNat i.encode) :
    vm.next i = some (i.nextPc vm.pc vm.registers) := by
  by_cases hj : i.isJump
  · exact next_of_isJump hj
  · have hlast := (List.getElem?_eq_some_iff.mp (hword 3 (by omega))).1
    rw [next_of_not_isJump hj, if_pos (by omega), nextPc_of_not_isJump hj]

/-- A step that leaves `x0` alone, or leaves a 0 there, is the step of the architecture. -/
theorem state_after {vm : VM} {i : Instr} (hfetch : fetch vm.program vm.pc = some i.encode)
    (hx0 : vm.registers 0 = 0) (hw : ¬ WritesZeroRegister vm) :
    (vm.after i (i.nextPc vm.pc vm.registers)).state = i.exec vm.pc vm.registers := by
  rw [VM.state, Instr.exec, visible_eq hx0, after_registers, after_pc]
  congr 1
  by_cases hrd : i.rd = 0
  · rw [if_pos hrd]
    split_ifs with hjump
    · rfl
    · have hresult : i.result vm.pc vm.registers = 0 := by
        by_contra hne
        have hj : ¬ i.isJump := fun hj => hjump ⟨hj, hrd⟩
        exact hw ⟨i, hfetch, hrd, hj, by rwa [visible_eq hx0]⟩
      rw [hrd, hresult, ← hx0, Function.update_eq_self]
  · rw [if_neg hrd, if_neg fun hjump => hrd hjump.2]

theorem step_state_iff {vm : VM} (hlength : vm.program.length < 2 ^ 32) (hx0 : vm.registers 0 = 0)
    (hw : ¬ WritesZeroRegister vm) (s : State) :
    Step vm.program vm.state s ↔ ∃ vm', vm.step = some vm' ∧ vm'.state = s := by
  constructor
  · rintro ⟨i, hword, rfl⟩
    have hfetch := fetch_of_stored hword
    exact ⟨_, step_eq_some_iff.mpr ⟨i, _, hfetch, next_of_stored hlength hword, rfl⟩,
      state_after hfetch hx0 hw⟩
  · rintro ⟨vm', hstep, rfl⟩
    obtain ⟨i, next, hfetch, hnext, rfl⟩ := step_eq_some_iff.mp hstep
    rw [next_eq_some hnext, step_iff_of_stored (stored_of_fetch hfetch)]
    exact state_after hfetch hx0 hw

section Runs

variable {program : List Byte} {n : Nat}

/-- No step among the first `n` leaves a nonzero result in `x0`. -/
def Clean (program : List Byte) (n : Nat) : Prop :=
  ∀ m < n, ∀ vm, (VM.new program).steps m = some vm → vm.step ≠ none → ¬ WritesZeroRegister vm

theorem not_writesZeroRegister_of_stuck {vm : VM} (hlength : vm.program.length < 2 ^ 32)
    (h : vm.step = none) : ¬ WritesZeroRegister vm := by
  rintro ⟨i, hfetch, -⟩
  rw [step_of_fetch hfetch, next_of_stored hlength (stored_of_fetch hfetch)] at h
  cases h

theorem Clean.registers_zero (h : Clean program n) {m : Nat} (hm : m ≤ n) {vm : VM}
    (hvm : (VM.new program).steps m = some vm) : ZeroRegister vm := by
  induction m generalizing vm with
  | zero => exact Option.some.inj hvm ▸ new_zeroRegister program
  | succ m ih =>
    obtain ⟨mid, hmid, hstep⟩ := Option.bind_eq_some_iff.mp hvm
    have hw := h m (by omega) mid hmid (by rw [hstep]; exact Option.some_ne_none vm)
    obtain ⟨i, next, hfetch, -, rfl⟩ := step_eq_some_iff.mp hstep
    exact (zeroRegister_after next hfetch (ih (by omega) hmid)).mpr hw

/-- A clean run is a run of the architecture. -/
theorem Clean.reaches_iff (h : Clean program n) (hlength : program.length < 2 ^ 32) {m : Nat}
    (hm : m ≤ n) (s : State) :
    Reaches program m s ↔ ∃ vm, (VM.new program).steps m = some vm ∧ vm.state = s := by
  simp only [steps_eq_iterate]
  refine @follow_iff_iterate VM State _ VM.step VM.state (VM.new program) m (fun k hk vm hvm => ?_) s
  rw [← steps_eq_iterate] at hvm
  have hsame := program_of_steps hvm
  have hlength : vm.program.length < 2 ^ 32 := hsame ▸ hlength
  have hx0 := (h.registers_zero (by omega) hvm).1
  have hw : ¬ WritesZeroRegister vm := by
    by_cases hstuck : vm.step = none
    · exact not_writesZeroRegister_of_stuck hlength hstuck
    · exact h k (by omega) vm hvm hstuck
  rw [← hsame]
  exact step_state_iff hlength hx0 hw

/-- The architecture never sees what the interpreter leaves in `x0`. -/
theorem clean_of_reaches (h : ∀ m ≤ n, ∀ s, Reaches program m s ↔
    ∃ vm, (VM.new program).steps m = some vm ∧ vm.state = s) : Clean program n := by
  rintro m hm vm hvm hstep ⟨i, hfetch, hrd, hj, hresult⟩
  have hx0 : vm.registers 0 = 0 := reaches_x0 ((h m hm.le vm.state).mpr ⟨vm, hvm, rfl⟩)
  obtain ⟨vm', hvm'⟩ := Option.ne_none_iff_exists'.mp hstep
  have hrun : (VM.new program).steps (m + 1) = some vm' := by rw [VM.steps, hvm]; exact hvm'
  have hx0' : vm'.registers 0 = 0 := reaches_x0 ((h (m + 1) hm vm'.state).mpr ⟨vm', hrun, rfl⟩)
  rw [step_of_fetch hfetch, Option.map_eq_some_iff] at hvm'
  obtain ⟨next, -, rfl⟩ := hvm'
  rw [after_registers, if_neg fun hjump => hj hjump.1, hrd, Function.update_self] at hx0'
  rw [visible_eq hx0] at hresult
  exact hresult hx0'

/-- Over a whole run the interpreter is in the states of the RV32I machine, and stuck when that
is, exactly as long as no executed instruction but a jump leaves a nonzero result in `x0`. -/
theorem refines_rv32i_iff (program : List Byte) (hlength : program.length < 2 ^ 32) (n : Nat) :
    (∀ m ≤ n, ∀ s, Reaches program m s ↔
      ∃ vm, (VM.new program).steps m = some vm ∧ vm.state = s) ↔ Clean program n :=
  ⟨clean_of_reaches, fun h _ hm s => h.reaches_iff hlength hm s⟩

/-- `writesX0` leaves the architecture with its first step. -/
theorem refines_rv32i_iff_writesX0 : (∀ m ≤ 1, ∀ s, Reaches writesX0 m s ↔
    ∃ vm, (VM.new writesX0).steps m = some vm ∧ vm.state = s) ↔ Clean writesX0 1 :=
  refines_rv32i_iff writesX0 (by decide) 1

end Runs

end Loquela.Vm
