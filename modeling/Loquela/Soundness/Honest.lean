import Loquela.Soundness.EndToEnd
import Loquela.Vm.Assembler

/-! # Honest trace sets are sound

The traces built for the first steps of a run, whether or not it has ended there, simulate these
steps, and leave the columns that the constraints do not determine as intended. What the soundness
theorems say of every prover they say of this one.
-/

namespace Loquela.Soundness
open Air Completeness Library.Path Trace
open Rv32i hiding bit
open Vm (Byte MemoryOperation VM)

/-- The traces built for the first `n` steps of a run, whether or not the run ends there, simulate
these steps under the public values of the program. They are accepted, with every column as
intended, exactly when no step is a `JALR` to `x0` and the padding of the memory table continues
it. -/
theorem honest_sound_iff (P : Poseidon2 Felt) (program : List Byte) (n : ℕ) (vm : VM)
    (h : ProvableRun program n vm) :
    ∃ t, buildAllTraces P program vm = .ok t ∧
      (toTraceSet t).programHashPublicValues = publicValues P program ∧
      (∃ chain, chain.length = n ∧ Simulates (toTraceSet t) program chain vm) ∧
      (Sound P (toTraceSet t) ↔ (∀ step ∈ vm.trace, ¬ ReturnsToZero step) ∧
        (height vm.getMemoryOps.length ≠ vm.getMemoryOps.length →
          PaddingFits (vm.getMemoryOps.map MemoryOperation.access))) := by
  obtain ⟨xs, t, hrun, hlength, ht, hT⟩ := h.exists_built P
  refine ⟨t, ht, hT.publicValues, ⟨_, ?_, simulates_of_built h hrun hlength hT⟩, ?_⟩
  · rw [List.length_map, hlength]
  · rw [← eval_iff h hrun hT]
    exact ⟨fun hsound => hsound.accepted.eval, sound_of_built h hrun hlength hT⟩

/-- One step of a program of three. -/
theorem honest_sound_iff_shiftsAndMasks : ∃ vm t, (VM.new shiftsAndMasks).steps 1 = some vm ∧
    buildAllTraces ⟨id, id, 0, 0, 0⟩ shiftsAndMasks vm = .ok t ∧
      Sound ⟨id, id, 0, 0, 0⟩ (toTraceSet t) := by
  obtain ⟨vm, h, hreturns, hfits⟩ := provableRun_firstStep
  obtain ⟨t, ht, -, -, hiff⟩ := honest_sound_iff ⟨id, id, 0, 0, 0⟩ shiftsAndMasks 1 vm h
  exact ⟨vm, t, h.steps, ht, hiff.mpr ⟨hreturns, fun _ => hfits⟩⟩

section Assembled

variable {program : List Byte} {vm : VM} {xs : List Vm.Instruction}

/-- What does not jump logs the write of its result. -/
theorem write_mem {xs : List Executed} (hrun : RunOf program xs vm) {x : Executed} (hx : x ∈ xs)
    (hjump : ¬ x.instr.isJump) :
    Vm.writeRegister x.registers x.instr.rd (x.timestamp + x.instr.sources.length)
      (x.instr.result x.pc x.registers) ∈ vm.getMemoryOps := by
  have hlogged : Vm.loggedWrite x.pc x.registers x.instr = some (x.instr.result x.pc x.registers) := by
    cases hi : x.instr with
    | jal rd offset => exact absurd rfl (hi ▸ hjump)
    | jalr rd rs1 imm => exact absurd rfl (hi ▸ hjump)
    | _ => rfl
  rw [VM.getMemoryOps, hrun.trace, List.flatMap_map]
  refine List.mem_flatMap.mpr ⟨x, hx, ?_⟩
  show _ ∈ Vm.loggedOps x.pc x.timestamp x.registers x.instr
  rw [Vm.loggedOps, hlogged]
  exact List.mem_append_right _ (List.mem_singleton_self _)

/-- A write to a register other than `x0` keeps the padding of the memory table in order. -/
theorem paddingFits_of_write {xs : List Executed} (hrun : RunOf program xs vm) {x : Executed}
    (hx : x ∈ xs) (hjump : ¬ x.instr.isJump) (hrd : x.instr.rd ≠ 0) :
    PaddingFits (vm.getMemoryOps.map MemoryOperation.access) := by
  intro access haccess
  obtain ⟨o, ho, rfl⟩ := List.mem_map.mp haccess
  constructor
  · have htype := register_of_mem hrun o ho
    cases o <;> exact htype
  · intro hzero
    have haddress : x.instr.rd.setWidth 32 = (0 : BitVec 5).setWidth 32 :=
      hzero _ (List.mem_map_of_mem (write_mem hrun hx hjump))
    exact absurd ((Library.BitFields.setWidth_eq_setWidth_iff (by omega) _ _).mp haddress) hrd

/-- For every program of fewer than `2 ^ 22` instructions that does not jump and writes some register
other than `x0`, the traces are built, accepted and sound, and simulate its instructions in their
order. -/
theorem assembled_sound (P : Poseidon2 Felt) (xs : List Vm.Instruction)
    (hformat : ∀ x ∈ xs, x.InFormat) (hjump : ∀ x ∈ xs, x.isJump = false)
    (hwrites : ∃ x ∈ xs, (Vm.toRv32i x).rd ≠ 0) (hlength : xs.length < 2 ^ 22) :
    ∃ t chain vm, generateAllTraces P (xs.length + 1) (xs.flatMap Vm.assemble) = .ok t ∧
      Sound P (toTraceSet t) ∧ Simulates (toTraceSet t) (xs.flatMap Vm.assemble) chain vm ∧
      vm.instructions = xs ∧ vm.pcs = (List.range xs.length).map (fun k => 4 * k) ∧
      vm.registers = Vm.line 0 (fun _ => 0) xs := by
  obtain ⟨vm, hsteps, hrun, hinstrs, hpcs, hregisters⟩ :=
    Vm.run_assembled hformat hjump (by omega)
  obtain ⟨ys, hruns, hcount, -⟩ := exists_runOf_steps hsteps
  have hnoJump : ∀ step ∈ vm.trace, step.instruction.isJump = false := fun step hstep =>
    hjump _ (hinstrs ▸ List.mem_map_of_mem hstep)
  -- the instruction that writes, among the executed ones
  obtain ⟨x, hx, hrd⟩ := hwrites
  obtain ⟨y, hy, hyx⟩ : ∃ y ∈ ys, Vm.ofRv32i y.instr = x := by
    rw [← hinstrs, VM.instructions, hruns.trace, List.map_map] at hx
    exact List.mem_map.mp hx
  have hyJump : ¬ y.instr.isJump := by
    rw [← Vm.toRv32i_ofRv32i y.instr, Vm.isJump_toRv32i, hyx, hjump x (hinstrs ▸ hx)]
    exact Bool.false_ne_true
  have hfits := paddingFits_of_write hruns hy hyJump (by rwa [← Vm.toRv32i_ofRv32i y.instr, hyx])
  have hprovable : ProvableRun (xs.flatMap Vm.assemble) xs.length vm := by
    refine ⟨hsteps, ?_, ?_, ?_, ?_⟩
    · rw [Vm.length_assembled]
      omega
    · intro step hstep
      have hmem : step.state.pc.toNat ∈ vm.pcs := List.mem_map_of_mem hstep
      rw [hpcs] at hmem
      obtain ⟨k, -, hk⟩ := List.mem_map.mp hmem
      omega
    · exact List.ne_nil_of_mem (write_mem hruns hy hyJump)
    · have htime := (Vm.timestamp_bounds hsteps).2
      exact htime.trans_lt ((Nat.zero_add _).trans_lt (by omega))
  obtain ⟨t, ht, -, hsound, chain, hsimulates⟩ := exists_sound P hprovable (by
    rintro step hstep ⟨rs1, imm, hjalr⟩
    exact absurd (hnoJump step hstep) (by simp [hjalr, Vm.Instruction.isJump])) fun _ => hfits
  exact ⟨t, chain, vm, (generateAllTraces_eq hrun).trans ht, hsound, hsimulates, hinstrs, hpcs,
    hregisters⟩

theorem assembled_sound_threeInstructions : ∃ t chain vm,
    generateAllTraces ⟨id, id, 0, 0, 0⟩ 4 (Vm.threeInstructions.flatMap Vm.assemble) = .ok t ∧
      Sound ⟨id, id, 0, 0, 0⟩ (toTraceSet t) ∧
      Simulates (toTraceSet t) (Vm.threeInstructions.flatMap Vm.assemble) chain vm ∧
      vm.instructions = Vm.threeInstructions ∧ vm.pcs = [0, 4, 8] ∧
      vm.registers = Vm.line 0 (fun _ => 0) Vm.threeInstructions :=
  assembled_sound ⟨id, id, 0, 0, 0⟩ Vm.threeInstructions Vm.threeInstructions_inFormat (by decide)
    ⟨.addI 1 0 (-1), List.mem_cons_self, by decide⟩ (by decide)

end Assembled

end Loquela.Soundness
