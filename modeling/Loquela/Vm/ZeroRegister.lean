import Loquela.Vm.Semantics

/-! # Register `x0` in the interpreter

Only the `Jal` and `Jalr` arms of `VM::step` treat `rd = x0` apart. The register stays zero
along a run exactly as long as no other instruction writes a nonzero result to it.
-/

namespace Loquela.Vm
open Loquela.Rv32i

/-- `x0` holds 0 and every logged read of it reports 0. -/
def ZeroRegister (vm : VM) : Prop :=
  vm.registers 0 = 0 ∧
    ∀ (timestamp : Nat) (value : U32), .read .register 0 timestamp value ∈ vm.getMemoryOps →
      value = 0

/-- The next instruction names `rd = x0`, is no jump and computes a nonzero result. -/
def WritesZeroRegister (vm : VM) : Prop :=
  ∃ i : Instr, fetch vm.program vm.pc = some i.encode ∧ i.rd = 0 ∧ ¬ i.isJump ∧
    i.result vm.pc (visible vm.registers) ≠ 0

theorem new_zeroRegister (program : List Byte) : ZeroRegister (VM.new program) := by
  refine ⟨rfl, ?_⟩
  intro timestamp value h
  simp [VM.getMemoryOps, VM.new] at h

theorem read_mem_loggedOps {pc : U32} {timestamp : Nat} {registers : Registers} {i : Instr}
    {address : U32} {time : Nat} {value : U32}
    (h : .read .register address time value ∈ loggedOps pc timestamp registers i) :
    ∃ r : Register, address = r.setWidth 32 ∧ value = registers r := by
  rw [loggedOps, List.mem_append] at h
  rcases h with h | h
  · obtain ⟨k, hk, hop⟩ := List.mem_mapIdx.mp h
    cases hop
    exact ⟨_, rfl, rfl⟩
  · simp [writeRegister] at h

theorem register_eq_zero {r : Register} (h : (0 : U32) = r.setWidth 32) : r = 0 := by
  have := congrArg (BitVec.setWidth 5) h
  simpa using this.symm

/-- One step keeps `x0` zero unless it writes a nonzero result to it. -/
theorem zeroRegister_after {vm : VM} {i : Instr} (next : U32)
    (hfetch : fetch vm.program vm.pc = some i.encode) (hz : ZeroRegister vm) :
    ZeroRegister (vm.after i next) ↔ ¬ WritesZeroRegister vm := by
  obtain ⟨hx0, hreads⟩ := hz
  constructor
  · rintro ⟨hx0', -⟩ ⟨j, hfetch', hrd, hj, hresult⟩
    obtain rfl : i = j := encode_injective (Option.some.inj (hfetch.symm.trans hfetch'))
    rw [visible_eq hx0] at hresult
    rw [after_registers, if_neg (fun h => hj h.1), hrd, Function.update_self] at hx0'
    exact hresult hx0'
  · intro hw
    refine ⟨?_, ?_⟩
    · rw [after_registers]
      split_ifs with hjump
      · exact hx0
      by_cases hrd : i.rd = 0
      · have hj : ¬ i.isJump := fun h => hjump ⟨h, hrd⟩
        rw [hrd, Function.update_self]
        by_contra hresult
        exact hw ⟨i, hfetch, hrd, hj, by rwa [visible_eq hx0]⟩
      · rwa [Function.update_of_ne (Ne.symm hrd)]
    · intro timestamp value hmem
      rw [after_getMemoryOps, List.mem_append] at hmem
      rcases hmem with hmem | hmem
      · exact hreads timestamp value hmem
      · obtain ⟨r, haddress, rfl⟩ := read_mem_loggedOps hmem
        rwa [register_eq_zero haddress]

/-- Along a run `x0` is zero, and is always read as zero, exactly as long as no executed step
other than a jump writes a nonzero result to it. -/
theorem zeroRegister_iff (program : List Byte) (n : Nat) :
    (∀ m ≤ n, ∀ vm, (VM.new program).steps m = some vm → ZeroRegister vm) ↔
      ∀ m < n, ∀ vm, (VM.new program).steps m = some vm → vm.step ≠ none →
        ¬ WritesZeroRegister vm := by
  constructor
  · intro h m hm vm hvm hstep
    obtain ⟨vm', hvm'⟩ := Option.ne_none_iff_exists'.mp hstep
    have hrun : (VM.new program).steps (m + 1) = some vm' := by rw [VM.steps, hvm]; exact hvm'
    obtain ⟨i, next, hfetch, -, rfl⟩ := step_eq_some_iff.mp hvm'
    exact (zeroRegister_after next hfetch (h m (by omega) vm hvm)).mp (h (m + 1) hm _ hrun)
  · intro h m
    induction m with
    | zero =>
      intro _ vm hvm
      exact Option.some.inj hvm ▸ new_zeroRegister program
    | succ m ih =>
      intro hm vm hvm
      obtain ⟨mid, hmid, hstep⟩ := Option.bind_eq_some_iff.mp hvm
      have hw := h m (by omega) mid hmid (by rw [hstep]; exact Option.some_ne_none vm)
      obtain ⟨i, next, hfetch, -, rfl⟩ := step_eq_some_iff.mp hstep
      exact (zeroRegister_after next hfetch (ih (by omega) mid hmid)).mpr hw

/-- `addi x0, x0, 5` then `addi x1, x0, 0`: the write to `x0` is kept and read back. -/
def writesX0 : List Byte := [0x13, 0x00, 0x50, 0x00, 0x93, 0x00, 0x00, 0x00]

theorem zeroRegister_violated :
    ¬ ∀ (program : List Byte) (n : Nat) (vm : VM), (VM.new program).steps n = some vm →
      ZeroRegister vm := by
  intro h
  have h2 := (h writesX0 2 _ rfl).2 2 5
  revert h2
  decide

end Loquela.Vm
