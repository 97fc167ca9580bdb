import Loquela.Vm.Semantics

/-! # Fetching inside the program

`VM::run` tests `pc < program.len()` and then reads four bytes. Nothing aligns a jump target, so
the fetch stays inside a word-aligned program exactly as long as no executed jump lands inside it
off a word boundary.
-/

namespace Loquela.Vm
open Loquela.Rv32i

/-- Whole words, each of them a supported instruction. -/
def WordAligned (program : List Byte) : Prop :=
  program.length % 4 = 0 ∧ ∀ a, a % 4 = 0 → a < program.length →
    ∃ word instruction, Stored program a word ∧ decodeInstruction word = some instruction

/-- The loop stops, or the next word is read at a word boundary inside the program and decodes. -/
def FetchSafe (vm : VM) : Prop :=
  vm.program.length ≤ vm.pc.toNat ∨
    vm.pc.toNat % 4 = 0 ∧ vm.pc.toNat + 4 ≤ vm.program.length ∧
      ∃ word instruction, fetch vm.program vm.pc = some word ∧
        decodeInstruction word = some instruction

/-- A jump of the next instruction leaves the program or lands on a word boundary. -/
def JumpAligned (vm : VM) : Prop :=
  ∀ i : Instr, fetch vm.program vm.pc = some i.encode → i.isJump →
    (i.nextPc vm.pc vm.registers).toNat < vm.program.length →
      (i.nextPc vm.pc vm.registers).toNat % 4 = 0

/-- In a word-aligned program only the alignment of `pc` is in question. -/
theorem fetchSafe_of_aligned {vm : VM} (hprogram : WordAligned vm.program)
    (h : vm.pc.toNat < vm.program.length → vm.pc.toNat % 4 = 0) : FetchSafe vm := by
  by_cases hpc : vm.pc.toNat < vm.program.length
  · have haligned := h hpc
    have hlength := hprogram.1
    obtain ⟨word, instruction, hword, hdecode⟩ := hprogram.2 _ haligned hpc
    exact .inr ⟨haligned, by omega, word, instruction, fetch_of_stored hword, hdecode⟩
  · exact .inl (not_lt.mp hpc)

theorem FetchSafe.aligned {vm : VM} (h : FetchSafe vm) (hpc : vm.pc.toNat < vm.program.length) :
    vm.pc.toNat % 4 = 0 := by
  rcases h with hstop | ⟨haligned, -⟩
  · omega
  · exact haligned

theorem fetch_lt {program : List Byte} {pc word : U32} (h : fetch program pc = some word) :
    pc.toNat < program.length := by
  obtain ⟨b, hb, -⟩ := Option.bind_eq_some_iff.mp h
  exact (List.getElem?_eq_some_iff.mp hb).1

/-- One step keeps the fetch safe unless it jumps into the program off a word boundary. -/
theorem fetchSafe_after {vm : VM} {i : Instr} {next : U32} (hprogram : WordAligned vm.program)
    (hfetch : fetch vm.program vm.pc = some i.encode) (hnext : vm.next i = some next)
    (hsafe : FetchSafe vm) : FetchSafe (vm.after i next) ↔ JumpAligned vm := by
  have htarget := next_eq_some hnext
  constructor
  · intro h j hfetch' hj hlt
    obtain rfl : i = j := encode_injective (Option.some.inj (hfetch.symm.trans hfetch'))
    rw [← htarget] at hlt ⊢
    exact h.aligned hlt
  · intro h
    apply fetchSafe_of_aligned (by rwa [after_program])
    rw [after_pc, after_program]
    intro hlt
    by_cases hj : i.isJump
    · rw [htarget] at hlt ⊢
      exact h i hfetch hj hlt
    · have haligned := hsafe.aligned (fetch_lt hfetch)
      rw [next_of_not_isJump hj] at hnext
      split_ifs at hnext with hpc
      obtain rfl := Option.some.inj hnext
      rw [BitVec.toNat_add, show (4 : U32).toNat = 4 from rfl]
      omega

/-- Along a run of a word-aligned program every fetch is safe exactly as long as every executed
jump leaves the program or lands on a word boundary. -/
theorem fetchSafe_iff (program : List Byte) (hprogram : WordAligned program) (n : Nat) :
    (∀ m ≤ n, ∀ vm, (VM.new program).steps m = some vm → FetchSafe vm) ↔
      ∀ m < n, ∀ vm, (VM.new program).steps m = some vm → vm.step ≠ none → JumpAligned vm := by
  have hsame : ∀ {m : Nat} {vm : VM}, (VM.new program).steps m = some vm → vm.program = program :=
    fun h => steps_induction (P := fun vm => vm.program = program) h rfl fun _ _ _ hvm _ _ => hvm
  constructor
  · intro h m hm vm hvm hstep
    obtain ⟨vm', hvm'⟩ := Option.ne_none_iff_exists'.mp hstep
    have hrun : (VM.new program).steps (m + 1) = some vm' := by rw [VM.steps, hvm]; exact hvm'
    obtain ⟨i, next, hfetch, hnext, rfl⟩ := step_eq_some_iff.mp hvm'
    exact (fetchSafe_after ((hsame hvm).symm ▸ hprogram) hfetch hnext (h m (by omega) vm hvm)).mp
      (h (m + 1) hm _ hrun)
  · intro h m
    induction m with
    | zero =>
      intro _ vm hvm
      obtain rfl := Option.some.inj hvm
      exact fetchSafe_of_aligned hprogram fun _ => rfl
    | succ m ih =>
      intro hm vm hvm
      obtain ⟨mid, hmid, hstep⟩ := Option.bind_eq_some_iff.mp hvm
      have hjump := h m (by omega) mid hmid (by rw [hstep]; exact Option.some_ne_none vm)
      obtain ⟨i, next, hfetch, hnext, rfl⟩ := step_eq_some_iff.mp hstep
      exact (fetchSafe_after ((hsame hmid).symm ▸ hprogram) hfetch hnext
        (ih (by omega) mid hmid)).mpr hjump

/-- `jal x0, 6` then `addi x0, x0, 0`. -/
def jumpsOffWord : List Byte := [0x6F, 0x00, 0x60, 0x00, 0x13, 0x00, 0x00, 0x00]

theorem wordAligned_jumpsOffWord : WordAligned jumpsOffWord := by
  refine ⟨rfl, fun a ha hlt => ?_⟩
  have hlt : a < 8 := hlt
  obtain rfl | rfl : a = 0 ∨ a = 4 := by omega
  · exact ⟨0x0060006F, .jal 0 6, by unfold Stored; decide, by decide⟩
  · exact ⟨0x00000013, .addI 0 0 0, by unfold Stored; decide, by decide⟩

theorem fetchSafe_iff_two_steps :
    (∀ m ≤ 2, ∀ vm, (VM.new jumpsOffWord).steps m = some vm → FetchSafe vm) ↔
      ∀ m < 2, ∀ vm, (VM.new jumpsOffWord).steps m = some vm → vm.step ≠ none → JumpAligned vm :=
  fetchSafe_iff jumpsOffWord wordAligned_jumpsOffWord 2

/-- After the jump two of the four bytes to be read lie past the end. -/
theorem fetchSafe_violated :
    ¬ ∀ program, WordAligned program → ∀ (n : Nat) (vm : VM),
      (VM.new program).steps n = some vm → FetchSafe vm := by
  intro h
  rcases h jumpsOffWord wordAligned_jumpsOffWord 1 _ rfl with hstop | ⟨haligned, -⟩
  · exact absurd hstop (by decide)
  · exact absurd haligned (by decide)

end Loquela.Vm
