import Loquela.Library.Iteration
import Loquela.Vm.FetchSafety
import Mathlib.Data.Finite.Prod

/-! # Runs of the interpreter

`VM::run` is a loop around `VM::step`, and a step looks at nothing but the program, `pc` and the
register file. So a run goes on for ever exactly if it comes back to a `pc` with the same
registers, and one that only jumps forwards ends.
-/

namespace Loquela.Vm
open Loquela.Library.Iteration Loquela.Rv32i

theorem steps_eq_iterate (vm : VM) (n : Nat) : vm.steps n = iterate VM.step n vm := by
  induction n with
  | zero => rfl
  | succ n ih =>
    rw [VM.steps, ih]
    rfl

theorem run_eq_loop (vm : VM) (fuel : Nat) :
    vm.run fuel = loop VM.step (fun vm => vm.pc.toNat < vm.program.length) fuel vm := by
  induction fuel generalizing vm with
  | zero => rfl
  | succ fuel ih =>
    rw [VM.run, loop]
    congr 2
    exact funext ih

theorem program_of_steps {program : List Byte} {n : Nat} {vm : VM}
    (h : (VM.new program).steps n = some vm) : vm.program = program :=
  steps_induction (P := fun vm => vm.program = program) h rfl fun _ _ _ hvm _ _ => hvm

theorem pc_lt_of_step {vm : VM} (h : vm.step ≠ none) : vm.pc.toNat < vm.program.length := by
  obtain ⟨vm', hstep⟩ := Option.ne_none_iff_exists'.mp h
  obtain ⟨i, next, hfetch, -, -⟩ := step_eq_some_iff.mp hstep
  exact fetch_lt hfetch

/-- A run takes up the loop where its steps end. -/
theorem run_of_steps {vm vm' : VM} {n : Nat} (h : vm.steps n = some vm') (fuel : Nat) :
    vm.run (n + fuel) = vm'.run fuel := by
  rw [run_eq_loop, run_eq_loop]
  exact loop_add (fun _ => pc_lt_of_step) (steps_eq_iterate vm n ▸ h) fuel

section Endless

/-- All that a step looks at besides the program. -/
def VM.view (vm : VM) : U32 × Registers := (vm.pc, vm.registers)

instance finite_view : Finite (U32 × Registers) := by
  have hfinite : ∀ w, Finite (BitVec w) := fun w => Finite.of_injective BitVec.toFin
    fun _ _ h => BitVec.toFin_inj.mp h
  have := hfinite 32
  have := hfinite 5
  exact inferInstanceAs (Finite (BitVec 32 × (BitVec 5 → BitVec 32)))

theorem step_program {vm vm' : VM} (h : vm.step = some vm') : vm'.program = vm.program := by
  obtain ⟨i, next, -, -, rfl⟩ := step_eq_some_iff.mp h
  rfl

/-- Machines with the same program, `pc` and registers step alike. -/
theorem step_view {vm vm' : VM} (hprogram : vm.program = vm'.program) (h : vm.view = vm'.view) :
    vm.step.map VM.view = vm'.step.map VM.view := by
  obtain ⟨hpc, hregisters⟩ := Prod.ext_iff.mp h
  have hpc : vm.pc = vm'.pc := hpc
  have hregisters : vm.registers = vm'.registers := hregisters
  cases hfetch : fetch vm.program vm.pc with
  | none =>
    have hfetch' := hfetch
    rw [hprogram, hpc] at hfetch'
    rw [VM.step, VM.step, hfetch, hfetch']
    rfl
  | some word =>
    cases hdecode : decodeInstruction word with
    | none =>
      have hfetch' := hfetch
      rw [hprogram, hpc] at hfetch'
      rw [VM.step, VM.step, hfetch, hfetch']
      simp only [Option.bind_eq_bind, Option.bind_some, hdecode, Option.bind_none]
    | some instruction =>
      obtain ⟨i, rfl, -⟩ := exists_encode hdecode
      have hnext : vm.next i = vm'.next i := by rw [VM.next, VM.next, hpc, hregisters]
      have hafter : ∀ next, (vm.after i next).view = (vm'.after i next).view := by
        intro next
        simp only [VM.view, after_pc, after_registers, hpc, hregisters]
      rw [step_of_fetch hfetch, step_of_fetch (hprogram ▸ hpc ▸ hfetch), hnext, Option.map_map,
        Option.map_map]
      exact congrArg (fun f => (vm'.next i).map f) (funext hafter)

/-- `VM::run` never returns exactly if some step panics while `pc` is in the program, or the
machine comes back to a `pc` with the registers it had there before. -/
theorem run_eq_none_iff (program : List Byte) :
    (∀ fuel, VM.run fuel (VM.new program) = none) ↔
      (∃ n vm, (VM.new program).steps n = some vm ∧ vm.pc.toNat < program.length ∧
        vm.step = none) ∨
      ∃ i j, i < j ∧ ∃ u v, (VM.new program).steps i = some u ∧
        (VM.new program).steps j = some v ∧ u.pc = v.pc ∧ u.registers = v.registers := by
  have hloop := @loop_eq_none_iff VM VM.step (fun vm => vm.pc.toNat < vm.program.length) _
    (VM.new program) fun _ => pc_lt_of_step
  have hendless : (∀ n, iterate VM.step n (VM.new program) ≠ none) ↔ ∃ i j, i < j ∧ ∃ u v,
      iterate VM.step i (VM.new program) = some u ∧ iterate VM.step j (VM.new program) = some v ∧
        u.view = v.view :=
    iterate_ne_none_iff (I := fun vm : VM => vm.program = program)
      (fun _ _ hvm hstep => (step_program hstep).trans hvm)
      (fun _ _ hvm hvm' => step_view (hvm.trans hvm'.symm)) rfl
  simp only [run_eq_loop, hloop, hendless, steps_eq_iterate]
  rw [or_comm]
  apply or_congr
  · refine exists_congr fun n => exists_congr fun vm => and_congr_right fun hvm => ?_
    rw [← steps_eq_iterate] at hvm
    rw [program_of_steps hvm]
  · simp only [VM.view, Prod.mk.injEq]

end Endless

section Time

/-- `JAL` with `rd = x0`, the one instruction that logs nothing. -/
def Instruction.isSilent : Instruction → Bool
  | .jal rd _ => rd = 0
  | _ => false

/-- A step logs as many operations as it takes ticks, or takes its one tick in silence. -/
theorem length_loggedOps (pc : U32) (timestamp : Nat) (registers : Registers) (i : Instr) :
    (loggedOps pc timestamp registers i).length + (if (ofRv32i i).isSilent then 1 else 0) =
      i.sources.length + 1 := by
  rw [loggedOps, List.length_append, List.length_mapIdx]
  cases i with
  | jal rd offset =>
    by_cases hrd : rd = 0#5 <;> simp [loggedWrite, ofRv32i, Instruction.isSilent, hrd]
  | opImm op => cases op <;> rfl
  | shiftImm op => cases op <;> rfl
  | opReg op => cases op <;> rfl
  | _ => rfl

theorem length_sources_le (i : Instr) : i.sources.length ≤ 2 := by
  cases i <;> simp [Instr.sources]

def silentSteps (vm : VM) : Nat := vm.trace.countP fun step => step.instruction.isSilent

theorem length_trace_of_steps {program : List Byte} {n : Nat} {vm : VM}
    (h : (VM.new program).steps n = some vm) : vm.trace.length = n := by
  induction n generalizing vm with
  | zero =>
    obtain rfl := Option.some.inj h
    rfl
  | succ n ih =>
    obtain ⟨mid, hmid, hstep⟩ := Option.bind_eq_some_iff.mp h
    obtain ⟨i, next, -, -, rfl⟩ := step_eq_some_iff.mp hstep
    rw [VM.after, List.length_append, ih hmid]
    rfl

/-- The clock shows the logged operations and the silent jumps. -/
theorem timestamp_eq_of_steps {program : List Byte} {n : Nat} {vm : VM}
    (h : (VM.new program).steps n = some vm) :
    vm.timestamp = vm.getMemoryOps.length + silentSteps vm := by
  apply steps_induction h (P := fun vm => vm.timestamp = vm.getMemoryOps.length + silentSteps vm) rfl
  intro vm i next htime _ _
  have hops := length_loggedOps vm.pc vm.timestamp vm.registers i
  have hsilent : silentSteps (vm.after i next) =
      silentSteps vm + if (ofRv32i i).isSilent then 1 else 0 := by
    simp [silentSteps, VM.after, List.countP_append, List.countP_singleton]
  rw [after_timestamp, after_getMemoryOps, List.length_append, hsilent]
  omega

/-- Every step takes between one tick and three. -/
theorem timestamp_bounds {n : Nat} {vm vm' : VM} (h : vm.steps n = some vm') :
    vm.timestamp + n ≤ vm'.timestamp ∧ vm'.timestamp ≤ vm.timestamp + 3 * n := by
  induction n generalizing vm' with
  | zero =>
    obtain rfl := Option.some.inj h
    exact ⟨le_rfl, le_rfl⟩
  | succ n ih =>
    obtain ⟨mid, hmid, hstep⟩ := Option.bind_eq_some_iff.mp h
    obtain ⟨i, next, -, -, rfl⟩ := step_eq_some_iff.mp hstep
    obtain ⟨hle, hge⟩ := ih hmid
    have hsources := length_sources_le i
    rw [after_timestamp]
    omega

/-- After `n` steps the clock shows the logged operations and the silent jumps, so between `n`
and `3 * n`. The clock of the source is a `u32`; here it is not bounded, which makes no difference
for the runs whose timestamp stays below `2 ^ 32`. -/
theorem timestamp_of_steps (program : List Byte) (n : Nat) (vm : VM)
    (h : (VM.new program).steps n = some vm) :
    vm.trace.length = n ∧ vm.timestamp = vm.getMemoryOps.length + silentSteps vm ∧
      n ≤ vm.timestamp ∧ vm.timestamp ≤ 3 * n := by
  obtain ⟨hle, hge⟩ := timestamp_bounds h
  exact ⟨length_trace_of_steps h, timestamp_eq_of_steps h, (Nat.le_add_left n _).trans hle,
    hge.trans (Nat.zero_add _).le⟩

/-- `addi x1, x0, 1`, which logs a read and a write, and `jal x0, 4`, which logs nothing. -/
theorem timestamp_of_steps_addJal : ∃ vm,
    (VM.new [0x93, 0x00, 0x10, 0x00, 0x6F, 0x00, 0x40, 0x00]).steps 2 = some vm ∧
      vm.trace.length = 2 ∧ vm.timestamp = vm.getMemoryOps.length + silentSteps vm ∧
        2 ≤ vm.timestamp ∧ vm.timestamp ≤ 3 * 2 := by
  have hsteps : (VM.new [0x93, 0x00, 0x10, 0x00, 0x6F, 0x00, 0x40, 0x00]).steps 2 = some _ := rfl
  exact ⟨_, hsteps, timestamp_of_steps [0x93, 0x00, 0x10, 0x00, 0x6F, 0x00, 0x40, 0x00] 2 _ hsteps⟩

end Time

section Forward

/-- `JAL` with a positive offset of whole words, or no jump at all. -/
def Instruction.Forward : Instruction → Prop
  | .jal _ imm => 0 < imm.toInt ∧ imm.toInt % 4 = 0
  | .jalr _ _ _ => False
  | _ => True

/-- Whole words, each of them a supported instruction that goes forwards. -/
def ForwardProgram (program : List Byte) : Prop :=
  program.length % 4 = 0 ∧ ∀ a, a % 4 = 0 → a < program.length → ∃ word instruction,
    Stored program a word ∧ decodeInstruction word = some instruction ∧ instruction.Forward

def VM.pcs (vm : VM) : List Nat := vm.trace.map fun step => step.state.pc.toNat

/-- At a word boundary, past all that was executed. -/
structure MovesForward (program : List Byte) (vm : VM) : Prop where
  same : vm.program = program
  aligned : vm.pc.toNat % 4 = 0
  increasing : vm.pcs.Pairwise (· < ·)
  past : ∀ pc ∈ vm.pcs, pc < vm.pc.toNat

theorem after_pcs (vm : VM) (i : Instr) (next : U32) :
    (vm.after i next).pcs = vm.pcs ++ [vm.pc.toNat] := by
  simp [VM.pcs, VM.after]

/-- A `JAL` offset is below `2 ^ 20`, so a forward jump does not wrap. -/
theorem toNat_jal_target {pc : U32} {offset : BitVec 20} (hpc : pc.toNat + 2 ^ 20 < 2 ^ 32)
    (h : 0 < ((offset ++ (0 : BitVec 1)).signExtend 32).toInt) :
    (pc + (offset ++ (0 : BitVec 1)).signExtend 32).toNat =
      pc.toNat + ((offset ++ (0 : BitVec 1)).signExtend 32).toInt.toNat := by
  have hlt := (offset ++ (0 : BitVec 1)).toInt_lt
  rw [← BitVec.toInt_signExtend_of_le (v := 32) (by omega)] at hlt
  have hvalue := BitVec.toInt_eq_toNat_cond ((offset ++ (0 : BitVec 1)).signExtend 32)
  rw [BitVec.toNat_add]
  split_ifs at hvalue <;> omega

/-- A forward step goes on to a later word. -/
theorem next_of_forward (vm : VM) {i : Instr} (hi : (ofRv32i i).Forward)
    (hpc : vm.pc.toNat + 2 ^ 20 < 2 ^ 32) : ∃ next, vm.next i = some next ∧
      ∃ k, next.toNat = vm.pc.toNat + 4 * (k + 1) := by
  by_cases hj : i.isJump
  · cases i with
    | jal rd offset =>
      obtain ⟨hpositive, hwords⟩ := hi
      refine ⟨_, next_of_isJump hj, ?_⟩
      refine ⟨((offset ++ (0 : BitVec 1)).signExtend 32).toInt.toNat / 4 - 1, ?_⟩
      rw [Instr.nextPc, toNat_jal_target hpc hpositive]
      omega
    | jalr rd rs1 imm => exact hi.elim
    | _ => cases hj
  · refine ⟨vm.pc + 4, ?_, 0, ?_⟩
    · rw [next_of_not_isJump hj, if_pos (by omega)]
    · rw [BitVec.toNat_add, show (4 : U32).toNat = 4 from rfl]
      omega

theorem step_forward {program : List Byte} (hprogram : ForwardProgram program)
    (hlength : program.length + 2 ^ 20 ≤ 2 ^ 32) {vm : VM} (h : MovesForward program vm)
    (hpc : vm.pc.toNat < vm.program.length) : ∃ vm', vm.step = some vm' ∧
      MovesForward program vm' ∧ (program.length - vm'.pc.toNat) / 4 <
        (program.length - vm.pc.toNat) / 4 := by
  rw [h.same] at hpc
  obtain ⟨word, instruction, hword, hdecode, hforward⟩ := hprogram.2 _ h.aligned hpc
  obtain ⟨i, rfl, rfl⟩ := exists_encode hdecode
  obtain ⟨next, hnext, k, hk⟩ := next_of_forward vm hforward (by omega)
  have hfetch : fetch vm.program vm.pc = some i.encode := h.same ▸ fetch_of_stored hword
  have haligned := h.aligned
  have hwords := hprogram.1
  refine ⟨vm.after i next, step_eq_some_iff.mpr ⟨i, next, hfetch, hnext, rfl⟩, ?_, ?_⟩
  · refine ⟨h.same, by rw [after_pc]; omega, ?_, ?_⟩
    · rw [after_pcs, List.pairwise_append]
      refine ⟨h.increasing, List.pairwise_singleton _ _, fun pc hmem pc' hmem' => ?_⟩
      rw [List.mem_singleton.mp hmem']
      exact h.past pc hmem
    · intro pc hmem
      rw [after_pcs, List.mem_append, List.mem_singleton] at hmem
      rw [after_pc, hk]
      rcases hmem with hmem | rfl
      · have := h.past pc hmem
        omega
      · omega
  · rw [after_pc]
    omega

/-- A program that only goes forwards ends, after executing each of its words at most once and in
the order of their addresses. -/
theorem run_of_forward (program : List Byte) (hprogram : ForwardProgram program)
    (hlength : program.length + 2 ^ 20 ≤ 2 ^ 32) : ∃ n ≤ program.length / 4, ∃ vm,
      (VM.new program).steps n = some vm ∧
        VM.run (program.length / 4 + 1) (VM.new program) = some vm ∧
        program.length ≤ vm.pc.toNat ∧ vm.pcs.Pairwise (· < ·) := by
  have hnew : MovesForward program (VM.new program) := ⟨rfl, rfl, .nil, by simp [VM.pcs, VM.new]⟩
  obtain ⟨n, hn, vm, hsteps, hloop, hvm, hend⟩ := @exists_loop_of_measure VM VM.step
    (fun vm => vm.pc.toNat < vm.program.length) _ _ _ (fun vm => (program.length - vm.pc.toNat) / 4)
    (fun vm h hpc => step_forward hprogram hlength h hpc) hnew
  refine ⟨n, hn, vm, ?_, ?_, ?_, hvm.increasing⟩
  · rw [steps_eq_iterate, hsteps]
  · rw [run_eq_loop]
    exact hloop
  · rw [hvm.same] at hend
    exact not_lt.mp hend

/-- `jal x0, 8`, a word that is jumped over, then `addi x1, x0, 1`. -/
def skipsOne : List Byte := [0x6F, 0x00, 0x80, 0x00, 0x13, 0, 0, 0, 0x93, 0x00, 0x10, 0x00]

theorem forwardProgram_skipsOne : ForwardProgram skipsOne := by
  refine ⟨rfl, fun a ha hlt => ?_⟩
  have hlt : a < 12 := hlt
  obtain rfl | rfl | rfl : a = 0 ∨ a = 4 ∨ a = 8 := by omega
  · exact ⟨0x0080006F, .jal 0 8, by unfold Stored; decide, by decide, by decide, by decide⟩
  · exact ⟨0x00000013, .addI 0 0 0, by unfold Stored; decide, by decide, trivial⟩
  · exact ⟨0x00100093, .addI 1 0 1, by unfold Stored; decide, by decide, trivial⟩

theorem run_of_forward_skipsOne : ∃ n ≤ 3, ∃ vm, (VM.new skipsOne).steps n = some vm ∧
    VM.run 4 (VM.new skipsOne) = some vm ∧ 12 ≤ vm.pc.toNat ∧ vm.pcs.Pairwise (· < ·) :=
  run_of_forward skipsOne forwardProgram_skipsOne (by decide)

end Forward

end Loquela.Vm
