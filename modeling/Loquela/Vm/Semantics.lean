import Loquela.Vm.Encoding
import Loquela.Vm.Machine

/-! # One step of the interpreter

The 23 arms of `VM::step` seen through the RV32I instruction they execute: the register file,
the jump target and the logged accesses are each one expression in the instruction. Every
later result about runs goes through `step_eq_some_iff` and these expressions.
-/

namespace Loquela.Vm
open Loquela.Library Loquela.Rv32i

/-- The value an instruction logs as written to `rd`, if it logs a write at all. -/
def loggedWrite (pc : U32) (registers : Registers) : Instr → Option U32
  | .jal rd _ => if rd = 0 then none else some (pc + 4)
  | .jalr rd _ _ => some (if rd = 0 then 0 else pc + 4)
  | i => some (i.result pc registers)

/-- The reads of the operands, then the write of `rd`, at consecutive timestamps. -/
def loggedOps (pc : U32) (timestamp : Nat) (registers : Registers) (i : Instr) :
    List MemoryOperation :=
  i.sources.mapIdx (fun k r => readRegister registers r (timestamp + k)) ++
    ((loggedWrite pc registers i).map
      (writeRegister registers i.rd (timestamp + i.sources.length))).toList

/-- A jump that names a register logs its link and nothing else. -/
theorem loggedOps_jal (pc : U32) (timestamp : Nat) (registers : Registers) {rd : Register}
    (hrd : rd ≠ 0) (offset : BitVec 20) : loggedOps pc timestamp registers (.jal rd offset) =
      [writeRegister registers rd timestamp (pc + 4)] := by
  have hwrite : loggedWrite pc registers (.jal rd offset) = some (pc + 4) := if_neg hrd
  rw [loggedOps, hwrite]
  rfl

section Execute

variable (registers : Registers) (timestamp : Nat) (pc : U32)

private theorem and_31 (n : Nat) : n &&& 31 = n % 32 := Nat.and_two_pow_sub_one_eq_mod n 5

theorem execute_opImm (op : ImmOp) (rd rs1 : Register) (imm : BitVec 12) :
    execute registers timestamp pc (ofRv32i (.opImm op rd rs1 imm)) =
      immediateArm registers timestamp rd rs1 (fun x => op.eval (imm.signExtend 32) x) := by
  cases op <;>
    simp [ofRv32i, execute, ImmOp.eval, bit, BitFields.signExtend_signExtend, BitVec.slt,
      BitVec.lt_def]

theorem execute_shiftImm (op : ShiftOp) (rd rs1 : Register) (shamt : BitVec 5) :
    execute registers timestamp pc (ofRv32i (.shiftImm op rd rs1 shamt)) =
      immediateArm registers timestamp rd rs1 (fun x => op.eval shamt.toNat x) := by
  have hmask : (shamt.setWidth 32 &&& 0x1F).toNat = shamt.toNat := by
    rw [BitVec.toNat_and, BitVec.toNat_setWidth, show (0x1F : U32).toNat = 31 from rfl, and_31]
    omega
  cases op <;> simp only [ofRv32i, execute, ShiftOp.eval, BitVec.shiftLeft_eq',
    BitVec.ushiftRight_eq', BitVec.sshiftRight', hmask]

theorem execute_opReg (op : RegOp) (rd rs1 rs2 : Register) :
    execute registers timestamp pc (ofRv32i (.opReg op rd rs1 rs2)) =
      registerArm registers timestamp rd rs1 rs2 (fun x y => op.eval x y) := by
  cases op <;> simp [ofRv32i, execute, RegOp.eval, bit, BitVec.slt, BitVec.lt_def, and_31]

theorem immU_shiftLeft (imm : BitVec 20) : imm.setWidth 32 <<< 12 = imm ++ (0 : BitVec 12) := by
  have h := BitFields.setWidth_append (w := 32) imm (0 : BitVec 12)
  simpa using h.symm

/-- Everything an arm does, in terms of the instruction. -/
theorem execute_ofRv32i (i : Instr) :
    execute registers timestamp pc (ofRv32i i) =
      { registers := if i.isJump ∧ i.rd = 0 then registers
          else Function.update registers i.rd (i.result pc registers)
        memoryOps := loggedOps pc timestamp registers i
        timestamp := timestamp + i.sources.length + 1
        jump := if i.isJump then some (i.nextPc pc registers) else none } := by
  cases i with
  | opImm op rd rs1 imm => rw [execute_opImm]; rfl
  | shiftImm op rd rs1 shamt => rw [execute_shiftImm]; rfl
  | opReg op rd rs1 rs2 => rw [execute_opReg]; rfl
  | lui rd imm => rw [ofRv32i, execute, immU_shiftLeft]; rfl
  | auipc rd imm => rw [ofRv32i, execute, immU_shiftLeft]; rfl
  | jal rd offset =>
    by_cases hrd : rd = 0#5 <;>
      simp [ofRv32i, execute, jalArm, hrd, Instr.isJump, Instr.rd, Instr.result, Instr.nextPc,
        loggedOps, loggedWrite, Instr.sources]
  | jalr rd rs1 imm =>
    by_cases hrd : rd = 0#5 <;>
      simp [ofRv32i, execute, jalrArm, hrd, Instr.isJump, Instr.rd, Instr.result, Instr.nextPc,
        loggedOps, loggedWrite, Instr.sources]

end Execute

/-- The machine after executing `i` and moving on to `next`. -/
def VM.after (vm : VM) (i : Instr) (next : U32) : VM where
  program := vm.program
  pc := next
  timestamp := vm.timestamp + i.sources.length + 1
  trace := vm.trace ++ [{
    state := {
      pc := vm.pc
      registers := if i.isJump ∧ i.rd = 0 then vm.registers
        else Function.update vm.registers i.rd (i.result vm.pc vm.registers) }
    instructionWord := i.encode
    instruction := ofRv32i i
    memoryOps := loggedOps vm.pc vm.timestamp vm.registers i }]

section After

variable (vm : VM) (i : Instr) (next : U32)

@[simp] theorem after_program : (vm.after i next).program = vm.program := rfl

@[simp] theorem after_pc : (vm.after i next).pc = next := rfl

@[simp] theorem after_timestamp :
    (vm.after i next).timestamp = vm.timestamp + i.sources.length + 1 := rfl

@[simp] theorem after_registers : (vm.after i next).registers =
    if i.isJump ∧ i.rd = 0 then vm.registers
    else Function.update vm.registers i.rd (i.result vm.pc vm.registers) := by
  simp [VM.registers, VM.after]

@[simp] theorem after_getMemoryOps : (vm.after i next).getMemoryOps =
    vm.getMemoryOps ++ loggedOps vm.pc vm.timestamp vm.registers i := by
  simp [VM.getMemoryOps, VM.after]

end After

/-- The next program counter of a machine that executes `i`; `none` when `pc + 4` overflows. -/
def VM.next (vm : VM) (i : Instr) : Option U32 :=
  nextPc vm.pc (if i.isJump then some (i.nextPc vm.pc vm.registers) else none)

theorem next_of_isJump {vm : VM} {i : Instr} (h : i.isJump) :
    vm.next i = some (i.nextPc vm.pc vm.registers) := by
  rw [VM.next, if_pos h]
  rfl

theorem nextPc_of_not_isJump {i : Instr} (h : ¬ i.isJump) (pc : U32) (x : Registers) :
    i.nextPc pc x = pc + 4 := by
  cases i with
  | jal => exact absurd rfl h
  | jalr => exact absurd rfl h
  | _ => rfl

theorem next_of_not_isJump {vm : VM} {i : Instr} (h : ¬ i.isJump) :
    vm.next i = if vm.pc.toNat + 4 < 2 ^ 32 then some (vm.pc + 4) else none := by
  rw [VM.next, if_neg h]
  rfl

theorem next_eq_some {vm : VM} {i : Instr} {next : U32} (h : vm.next i = some next) :
    next = i.nextPc vm.pc vm.registers := by
  by_cases hj : i.isJump
  · rw [next_of_isJump hj] at h
    exact (Option.some.inj h).symm
  · rw [next_of_not_isJump hj] at h
    split_ifs at h
    rw [nextPc_of_not_isJump hj]
    exact (Option.some.inj h).symm

theorem step_of_fetch {vm : VM} {i : Instr} (h : fetch vm.program vm.pc = some i.encode) :
    vm.step = (vm.next i).map (vm.after i) := by
  rw [VM.step, h]
  simp only [Option.bind_eq_bind, Option.bind_some, decodeInstruction_encode, execute_ofRv32i]
  cases hnext : vm.next i with
  | none => rw [VM.next] at hnext; rw [hnext]; rfl
  | some next => rw [VM.next] at hnext; rw [hnext]; rfl

/-- A step succeeds exactly when an RV32I word is fetched and the next `pc` does not overflow. -/
theorem step_eq_some_iff {vm vm' : VM} :
    vm.step = some vm' ↔ ∃ (i : Instr) (next : U32),
      fetch vm.program vm.pc = some i.encode ∧ vm.next i = some next ∧ vm' = vm.after i next := by
  constructor
  · intro h
    obtain ⟨bytes, hfetch, h'⟩ := Option.bind_eq_some_iff.mp h
    obtain ⟨instruction, hdecode, -⟩ := Option.bind_eq_some_iff.mp h'
    obtain ⟨i, rfl, rfl⟩ := exists_encode hdecode
    rw [step_of_fetch hfetch, Option.map_eq_some_iff] at h
    obtain ⟨next, hnext, rfl⟩ := h
    exact ⟨i, next, hfetch, hnext, rfl⟩
  · rintro ⟨i, next, hfetch, hnext, rfl⟩
    rw [step_of_fetch hfetch, hnext, Option.map_some]

/-- What every step preserves holds after any number of steps. -/
theorem steps_induction {P : VM → Prop} {vm vm' : VM} {n : Nat} (h : vm.steps n = some vm')
    (init : P vm)
    (step : ∀ (vm : VM) (i : Instr) (next : U32), P vm → fetch vm.program vm.pc = some i.encode →
      vm.next i = some next → P (vm.after i next)) : P vm' := by
  induction n generalizing vm' with
  | zero => exact Option.some.inj h ▸ init
  | succ n ih =>
    obtain ⟨mid, hmid, hlast⟩ := Option.bind_eq_some_iff.mp h
    obtain ⟨i, next, hfetch, hnext, rfl⟩ := step_eq_some_iff.mp hlast
    exact step mid i next (ih hmid) hfetch hnext

/-- The four bytes of a stored word are fetched as that word. -/
theorem fetch_of_stored {program : List Byte} {pc : U32} {word : U32}
    (h : Stored program pc.toNat word) : fetch program pc = some word := by
  have h0 := h 0 (by omega)
  have h1 := h 1 (by omega)
  have h2 := h 2 (by omega)
  have h3 := h 3 (by omega)
  rw [Nat.add_zero] at h0
  rw [fetch, h0, h1, h2, h3]
  simp only [Option.bind_eq_bind, Option.bind_some, Option.pure_def, Option.some.injEq]
  apply BitVec.eq_of_toNat_eq
  simp only [BitFields.toNat_append, BitFields.toNat_extractLsb']
  omega

theorem stored_of_fetch {program : List Byte} {pc word : U32}
    (h : fetch program pc = some word) : Stored program pc.toNat word := by
  obtain ⟨b0, h0, h⟩ := Option.bind_eq_some_iff.mp h
  obtain ⟨b1, h1, h⟩ := Option.bind_eq_some_iff.mp h
  obtain ⟨b2, h2, h⟩ := Option.bind_eq_some_iff.mp h
  obtain ⟨b3, h3, h⟩ := Option.bind_eq_some_iff.mp h
  obtain rfl := Option.some.inj h
  have hbytes : (b3 ++ b2 ++ b1 ++ b0).toNat = b0.toNat + 2 ^ 8 * b1.toNat + 2 ^ 16 * b2.toNat +
      2 ^ 24 * b3.toNat := by
    simp only [BitFields.toNat_append]
    omega
  have hbyte : ∀ (k : Nat) (b : Byte), (b3 ++ b2 ++ b1 ++ b0).toNat / 2 ^ (8 * k) % 2 ^ 8 =
      b.toNat → (b3 ++ b2 ++ b1 ++ b0).extractLsb' (8 * k) 8 = b := by
    intro k b h
    apply BitVec.eq_of_toNat_eq
    rw [BitFields.toNat_extractLsb', h]
  have := b0.isLt
  have := b1.isLt
  have := b2.isLt
  have := b3.isLt
  intro k hk
  obtain rfl | rfl | rfl | rfl : k = 0 ∨ k = 1 ∨ k = 2 ∨ k = 3 := by omega
  · rw [hbyte 0 b0 (by omega)]
    exact h0
  · rw [hbyte 1 b1 (by omega)]
    exact h1
  · rw [hbyte 2 b2 (by omega)]
    exact h2
  · rw [hbyte 3 b3 (by omega)]
    exact h3

theorem even_of_getLsbD {x : U32} (h : x.getLsbD 0 = false) : x.toNat % 2 = 0 := by
  rw [← BitVec.testBit_toNat, Nat.testBit_zero, decide_eq_false_iff_not] at h
  omega

/-- Instructions lie at even addresses: branch offsets are even and `jalr` clears bit 0. -/
theorem pc_even {program : List Byte} {n : Nat} {vm : VM}
    (h : (VM.new program).steps n = some vm) : vm.pc.toNat % 2 = 0 := by
  apply steps_induction h (P := fun vm => vm.pc.toNat % 2 = 0) rfl
  intro vm i next hpc _ hnext
  rw [after_pc, next_eq_some hnext]
  cases i with
  | jal rd offset =>
    have hoffset : ((offset ++ (0 : BitVec 1)).signExtend 32).toNat % 2 = 0 := by
      apply even_of_getLsbD
      rw [BitVec.getLsbD_signExtend, if_pos (by decide), BitVec.getLsbD_append]
      rfl
    rw [Instr.nextPc, BitVec.toNat_add]
    omega
  | jalr rd rs1 imm =>
    apply even_of_getLsbD
    rw [Instr.nextPc, BitVec.getLsbD_and]
    exact Bool.and_false _
  | _ =>
    rw [nextPc_of_not_isJump (by simp [Instr.isJump]), BitVec.toNat_add,
      show (4 : U32).toNat = 4 from rfl]
    omega

end Loquela.Vm
