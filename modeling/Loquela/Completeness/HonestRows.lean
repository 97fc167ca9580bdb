import Loquela.Completeness.Fetch
import Loquela.Completeness.Witnesses

/-! # Honest rows

The row that a builder fills for a step of the interpreter satisfies the constraints of its AIR,
and what it sends to the range and operation tables is in them. Padding rows satisfy the
constraints and stay off the buses.
-/

namespace Loquela.Completeness
open Air Library Soundness Trace
open Rv32i hiding bit
open Library.Bits (bit)
open Vm (Byte U32 VM ofRv32i)

section Register

variable {s : RegisterStep} (hpc : s.pc.toNat + 4 < 2 ^ 32)
include hpc

theorem registerColumns_eval : (registerColumns s : RegisterColumns Felt).eval :=
  ⟨assertBool_iff.mpr (.inr rfl), u32PlusFour_limbs s.pc hpc⟩

theorem addRow_eval (hrd : s.rdNewValue = s.rs1Value + s.rs2Value) :
    (Trace.addRow s : AddColumns Felt).eval := by
  refine ⟨registerColumns_eval hpc, ?_⟩
  show u32Add _ _ (u32ToLimbs s.rdNewValue) _
  rw [hrd]
  exact u32Add_limbs _ _

theorem subRow_eval (hrd : s.rdNewValue = s.rs1Value - s.rs2Value) :
    (Trace.subRow s : SubColumns Felt).eval := by
  refine ⟨registerColumns_eval hpc, ?_⟩
  show u32Sub _ _ (u32ToLimbs s.rdNewValue) _
  rw [hrd]
  exact u32Sub_limbs _ _

theorem bitwiseRow_eval : (bitwiseRow s : BitwiseColumns Felt).eval := registerColumns_eval hpc

theorem sltRow_eval : (sltRow s : SltColumns Felt).eval := by
  refine ⟨registerColumns_eval hpc, comparison_eval _ _ _, splitSign_word _, splitSign_word _, ?_⟩
  have hresult := slt_eq_xorBit s.rs1Value s.rs2Value
  rw [← comparison_borrow (F := Felt) s.rs1Value s.rs2Value (s.rs1Value.slt s.rs2Value),
    Bits.bit_eq_natCast s.rs1Value.msb, Bits.bit_eq_natCast s.rs2Value.msb, ← signBit_eq,
    ← signBit_eq] at hresult
  exact hresult

theorem sltuRow_eval : (Trace.sltuRow s : SltuColumns Felt).eval := by
  refine ⟨registerColumns_eval hpc, comparison_eval _ _ _, ?_⟩
  have hborrow := comparison_borrow (F := Felt) s.rs1Value s.rs2Value (s.rs1Value < s.rs2Value)
  exact (hborrow.trans rfl).symm

omit hpc in
/-- The low byte of `rs2` is split into the shift amount and the rest. -/
theorem shiftRow_shamt (shifted carry : ℕ → ℕ → ℕ) :
    (shiftRow s shifted carry : ShiftColumns Felt).shamt := by
  show ((leBytes s.rs2Value 0 : ℕ) : Felt) = ((registerShamt s % 8 : ℕ) : Felt) +
    ((registerShamt s / 8 : ℕ) : Felt) * 8 + (shamtHigh s.rs2Value : ℕ) * 32
  rw [registerShamt_eq]
  exact mod_cast congrArg (Nat.cast (R := Felt)) (shamt_parts s.rs2Value)

omit hpc in
theorem registerShamt_lt : registerShamt s < 32 := by
  rw [registerShamt_eq]
  exact Nat.mod_lt _ (by norm_num)

theorem sllRow_eval (hrd : s.rdNewValue = s.rs1Value <<< (s.rs2Value.toNat % 32)) :
    sllEval (sllRow s : ShiftColumns Felt) := by
  refine ⟨registerColumns_eval hpc, selectors_shiftStages registerShamt_lt _ _ _ _,
    shiftRow_shamt _ _, ?_⟩
  show (shiftStages s.rs1Value s.rdNewValue _ _ _ : ShiftStages Felt).left
  rw [hrd, ← registerShamt_eq]
  exact left_shiftStages registerShamt_lt _

theorem srlRow_eval (hrd : s.rdNewValue = s.rs1Value >>> (s.rs2Value.toNat % 32)) :
    srlEval (srlRow s : ShiftColumns Felt) := by
  refine ⟨registerColumns_eval hpc, selectors_shiftStages registerShamt_lt _ _ _ _,
    shiftRow_shamt _ _, ?_⟩
  show (shiftStages s.rs1Value s.rdNewValue _ _ _ : ShiftStages Felt).right 0 0
  rw [hrd, ← registerShamt_eq]
  exact logical_right registerShamt_lt _

theorem sraRow_eval (hrd : s.rdNewValue = s.rs1Value.sshiftRight (s.rs2Value.toNat % 32)) :
    (sraRow s : SraColumns Felt).eval := by
  refine ⟨registerColumns_eval hpc, selectors_shiftStages registerShamt_lt _ _ _ _,
    shiftRow_shamt _ _, signFill_eval _ _, ?_⟩
  show (shiftStages s.rs1Value s.rdNewValue _ _ _ : ShiftStages Felt).right _ _
  rw [hrd, ← registerShamt_eq]
  exact signFill_right registerShamt_lt _

end Register

section Immediate

variable {s : ImmediateStep} (hpc : s.pc.toNat + 4 < 2 ^ 32) {imm : BitVec 12}
include hpc

theorem immediateColumns_eval (n : ℕ) : (immediateColumns s n : ImmediateColumns Felt).eval :=
  ⟨assertBool_iff.mpr (.inr rfl), u32PlusFour_limbs s.pc hpc⟩

omit hpc in
/-- The immediate kept as `i16`. -/
theorem signExtension_16 :
    (signExtension (immU12 (imm.signExtend 16)) ((imm.signExtend 16).signExtend 32) :
      SignExtension Felt).eval (immU12 (imm.signExtend 16) : Felt) := by
  rw [immU12_signExtend, signExtend_imm]
  exact signExtension_eval imm

omit hpc in
/-- The immediate kept as `i32`. -/
theorem signExtension_32 :
    (signExtension (immU12' (imm.signExtend 32)) (imm.signExtend 32) : SignExtension Felt).eval
      (immU12' (imm.signExtend 32) : Felt) := by
  rw [immU12'_signExtend]
  exact signExtension_eval imm

theorem addiRow_eval (hrd : s.rdNewValue = s.rs1Value + imm.signExtend 32) :
    (addiRow s (imm.signExtend 16) : AddiColumns Felt).eval := by
  refine ⟨immediateColumns_eval hpc _, signExtension_16, ?_⟩
  show u32Add _ (u32ToLimbs ((imm.signExtend 16).signExtend 32)) (u32ToLimbs s.rdNewValue)
    (ofNats (u32AddCarries _ ((imm.signExtend 16).signExtend 32)))
  rw [hrd, signExtend_imm]
  exact u32Add_limbs _ _

theorem bitwiseImmRow_eval : (bitwiseImmRow s (imm.signExtend 16) : BitwiseImmColumns Felt).eval :=
  ⟨immediateColumns_eval hpc _, signExtension_16⟩

theorem sltiRow_eval : (sltiRow s (imm.signExtend 32) : SltiColumns Felt).eval := by
  refine ⟨immediateColumns_eval hpc _, signExtension_32, comparison_eval _ _ _,
    splitSign_word _, ?_⟩
  have hresult := slt_eq_xorBit s.rs1Value (imm.signExtend 32)
  have hsign : (imm.signExtend 32).msb = imm.msb := by
    rw [← extend_msb, msb_extend]
  rw [← comparison_borrow (F := Felt) s.rs1Value _ (s.rs1Value.slt (imm.signExtend 32)), hsign,
    Bits.bit_eq_natCast s.rs1Value.msb, ← signBit_eq, ← immHighBits_top imm (imm.signExtend 32),
    ← immU12'_signExtend] at hresult
  exact hresult

theorem sltiuRow_eval : (sltiuRow s (imm.signExtend 32) : SltiuColumns Felt).eval := by
  refine ⟨immediateColumns_eval hpc _, signExtension_32, comparison_eval _ _ _, ?_⟩
  have hborrow := comparison_borrow (F := Felt) s.rs1Value (imm.signExtend 32)
    (s.rs1Value < imm.signExtend 32)
  exact (hborrow.trans rfl).symm

variable {shamt : BitVec 5}

omit hpc in
theorem immediateShamt_lt : immediateShamt (shamt.setWidth 32) < 32 := by
  rw [immediateShamt_eq]
  exact shamt.isLt

omit hpc in
theorem shiftImmRow_shamt (shifted carry : ℕ → ℕ → ℕ) :
    (shiftImmRow s (shamt.setWidth 32) shifted carry : ShiftImmColumns Felt).shamt := by
  have hparts : immediateShamt (shamt.setWidth 32) = immediateShamt (shamt.setWidth 32) % 8 +
      immediateShamt (shamt.setWidth 32) / 8 * 8 := by omega
  show ((_ : ℕ) : Felt) = ((_ : ℕ) : Felt) + ((_ : ℕ) : Felt) * 8
  exact mod_cast congrArg (Nat.cast (R := Felt)) hparts

theorem slliRow_eval (hrd : s.rdNewValue = s.rs1Value <<< shamt.toNat) :
    slliEval (slliRow s (shamt.setWidth 32) : ShiftImmColumns Felt) := by
  refine ⟨immediateColumns_eval hpc _, selectors_shiftStages immediateShamt_lt _ _ _ _,
    shiftImmRow_shamt _ _, ?_⟩
  show (shiftStages s.rs1Value s.rdNewValue _ _ _ : ShiftStages Felt).left
  rw [hrd, ← immediateShamt_eq]
  exact left_shiftStages immediateShamt_lt _

theorem srliRow_eval (hrd : s.rdNewValue = s.rs1Value >>> shamt.toNat) :
    srliEval (srliRow s (shamt.setWidth 32) : ShiftImmColumns Felt) := by
  refine ⟨immediateColumns_eval hpc _, selectors_shiftStages immediateShamt_lt _ _ _ _,
    shiftImmRow_shamt _ _, ?_⟩
  show (shiftStages s.rs1Value s.rdNewValue _ _ _ : ShiftStages Felt).right 0 0
  rw [hrd, ← immediateShamt_eq]
  exact logical_right immediateShamt_lt _

theorem sraiRow_eval (hrd : s.rdNewValue = s.rs1Value.sshiftRight shamt.toNat) :
    (sraiRow s (shamt.setWidth 32) : SraiColumns Felt).eval := by
  refine ⟨immediateColumns_eval hpc _, selectors_shiftStages immediateShamt_lt _ _ _ _,
    shiftImmRow_shamt _ _, signFill_eval _ _, ?_⟩
  show (shiftStages s.rs1Value s.rdNewValue _ _ _ : ShiftStages Felt).right _ _
  rw [hrd, ← immediateShamt_eq]
  exact signFill_right immediateShamt_lt _

theorem jalrRow_eval (hrd : s.rdNewValue = s.pc + 4) :
    (jalrRow s (imm.signExtend 32) : JalrColumns Felt).eval := by
  refine ⟨assertBool_iff.mpr (.inr rfl), ?_, signExtension_32, u32Add_limbs _ _,
    jalrRow_target _ _⟩
  show u32PlusFour (u32ToLimbs s.pc) (u32ToLimbs s.rdNewValue) _
  rw [hrd]
  exact u32PlusFour_limbs s.pc hpc

end Immediate

section Write

variable {s : WriteStep} (hpc : s.pc.toNat + 4 < 2 ^ 32)
include hpc

theorem upperColumns_eval (imm : U32) : (upperColumns s imm : UpperColumns Felt).eval :=
  ⟨assertBool_iff.mpr (.inr rfl), u32PlusFour_limbs s.pc hpc⟩

theorem luiRow_eval {imm : BitVec 20} (hrd : s.rdVal = imm ++ (0 : BitVec 12)) :
    luiEval (luiRow s (imm.setWidth 32) : LuiColumns Felt) := by
  refine ⟨upperColumns_eval hpc _, ?_⟩
  show UpperColumns.shiftedImm _ (u32ToLimbs s.rdVal)
  rw [hrd]
  exact upperColumns_shiftedImm s imm

theorem auipcRow_eval {imm : BitVec 20} (hrd : s.rdVal = s.pc + (imm ++ (0 : BitVec 12))) :
    (auipcRow s (imm.setWidth 32) : AuipcColumns Felt).eval := by
  refine ⟨upperColumns_eval hpc _, ?_, ?_⟩
  · show UpperColumns.shiftedImm _ (u32ToLimbs (imm.setWidth 32 <<< 12))
    rw [Vm.immU_shiftLeft]
    exact upperColumns_shiftedImm s imm
  · show u32Add _ _ (u32ToLimbs s.rdVal) _
    rw [hrd, ← Vm.immU_shiftLeft]
    exact u32Add_limbs _ _

theorem jalRow_eval {offset : BitVec 20} (hrd : s.rdVal = s.pc + 4) :
    (jalRow s ((offset ++ (0 : BitVec 1)).signExtend 32) : JalColumns Felt).eval := by
  obtain ⟨hbits, hbytes⟩ := jalRow_imm (F := Felt) s offset
  refine ⟨assertBool_iff.mpr (.inr rfl), hbits, hbytes, u32Add_limbs _ _, ?_, jalRow_rdZero _ _⟩
  show u32PlusFour (u32ToLimbs s.pc) (u32ToLimbs s.rdVal) _
  rw [hrd]
  exact u32PlusFour_limbs s.pc hpc

end Write

/-- A step satisfies its AIR, unless it is a `JALR` that logs 0 instead of its return address. -/
theorem row_eval (x : Executed) (hpc : x.pc.toNat + 4 < 2 ^ 32)
    (h : ∀ rs1 imm, x.instr ≠ .jalr 0 rs1 imm) : (x.row : InstrRow Felt).eval := by
  obtain ⟨pc, timestamp, registers, i⟩ := x
  cases i with
  | opImm op rd rs1 imm =>
    cases op
    case addi => exact addiRow_eval hpc rfl
    case slti => exact sltiRow_eval hpc
    case sltiu => exact sltiuRow_eval hpc
    all_goals exact bitwiseImmRow_eval hpc
  | shiftImm op rd rs1 shamt =>
    cases op
    case slli => exact slliRow_eval hpc rfl
    case srli => exact srliRow_eval hpc rfl
    case srai => exact sraiRow_eval hpc rfl
  | opReg op rd rs1 rs2 =>
    cases op
    case add => exact addRow_eval hpc rfl
    case sub => exact subRow_eval hpc rfl
    case sll => exact sllRow_eval hpc rfl
    case slt => exact sltRow_eval hpc
    case sltu => exact sltuRow_eval hpc
    case srl => exact srlRow_eval hpc rfl
    case sra => exact sraRow_eval hpc rfl
    all_goals exact bitwiseRow_eval hpc
  | lui rd imm => exact luiRow_eval hpc rfl
  | auipc rd imm => exact auipcRow_eval hpc rfl
  | jal rd offset => exact jalRow_eval hpc rfl
  | jalr rd rs1 imm =>
    apply jalrRow_eval hpc
    have hrd : rd ≠ 0 := by
      rintro rfl
      exact h rs1 imm rfl
    exact if_neg hrd

theorem mem_checksOn {bus : BusName} {checks : List (Check Felt)} {c : Check Felt}
    (hc : c ∈ checks) (hbus : c.1 = bus) : c.2 ∈ checksOn bus checks :=
  List.mem_map.mpr ⟨c, List.mem_filter.mpr ⟨hc, decide_eq_true hbus⟩, rfl⟩

theorem row_sendsBytes (x : Executed) : SendsBytes (x.row : InstrRow Felt).ports.checks := by
  intro c hc hbus
  rw [row_checks] at hc
  have hcount := count_bytes x c.2
  have hmem : c.2 ∈ (stepBytes x).map fun b : ℕ => [(b : Felt)] := by
    rw [← List.count_pos_iff, ← hcount]
    exact List.count_pos_iff.mpr (mem_checksOn hc hbus)
  obtain ⟨b, hb, heq⟩ := List.mem_map.mp hmem
  refine ⟨b, ?_, heq.symm⟩
  rcases List.mem_append.mp hb with hb | hb
  · obtain ⟨v, -, hb⟩ := List.mem_flatMap.mp hb
    obtain ⟨i, rfl⟩ := List.mem_ofFn.mp hb
    exact leBytes_lt v i
  · exact byteChecked_lt x.step b hb

/-- Tuples counted by their index are rows of the table. -/
theorem sendsRows_of_checksOn {t : Table} {checks : List (Check Felt)} {indices : List ℕ}
    (h : checksOn t.bus checks = indices.map t.rowAt) (hlt : ∀ i ∈ indices, i < t.rows.length) :
    SendsRows t checks := by
  intro c hc hbus
  have hmem := mem_checksOn hc hbus
  rw [h] at hmem
  obtain ⟨i, hi, heq⟩ := List.mem_map.mp hmem
  have hi := hlt i hi
  exact ⟨t.rows[i], List.getElem_mem hi,
    heq.symm.trans (Table.rowAt_eq (List.getElem?_eq_getElem hi))⟩

def operationTables : List Table := [xorAir, orAir, andAir, byteShiftLeftAir, byteShiftRightAir]

theorem row_sendsRows (x : Executed) :
    ∀ t ∈ operationTables, SendsRows t (x.row : InstrRow Felt).ports.checks := by
  rw [row_checks]
  simp only [operationTables, List.forall_mem_cons, List.not_mem_nil, false_implies, implies_true,
    and_true]
  refine ⟨?_, ?_, ?_, ?_, ?_⟩
  · exact sendsRows_of_checksOn (checksOn_xor x) (xorEntries_lt x.step)
  · exact sendsRows_of_checksOn (checksOn_or x)
      (List.forall_mem_append.mpr ⟨oriEntries_lt x.step, orEntries_lt x.step⟩)
  · exact sendsRows_of_checksOn (checksOn_and x)
      (List.forall_mem_append.mpr ⟨andiEntries_lt x.step, andEntries_lt x.step⟩)
  · exact sendsRows_of_checksOn (checksOn_byteSll x) (byteSllEntries_lt x.step)
  · exact sendsRows_of_checksOn (checksOn_byteSrl x) (byteSrlEntries_lt x.step)

theorem paddingRow_eval (id : InstructionId) : (paddingRow id : InstrRow Felt).eval := by
  cases id <;> decide

theorem paddingRow_lookups (id : InstructionId) :
    ∀ x ∈ (paddingRow id : InstrRow Felt).lookups, x.multiplicity = 0 := by
  have hdummy := paddingRow_isDummy (F := Felt) id
  have hmemory : (paddingRow id : InstrRow Felt).ports.memoryMultiplicity = 0 := by
    cases id <;> decide
  intro x hx
  rcases mem_lookups.mp hx with rfl | rfl | ⟨op, -, rfl⟩ | ⟨c, -, rfl⟩ | rfl
  · exact hdummy
  · exact hdummy
  · exact hmemory
  · exact hdummy
  · exact hdummy

/-- A row that its circuit and the preprocessed tables accept. -/
structure Honest (r : InstrRow Felt) : Prop where
  eval : r.eval
  bytes : SendsBytes r.ports.checks
  operations : ∀ t ∈ operationTables, SendsRows t r.ports.checks

/-- The row of every step but a `JALR` to `x0` is accepted, and so is the padding, which sends and
receives nothing. -/
theorem honest_rows (program : List Byte) (n : ℕ) (vm : VM) (hsize : program.length < 2 ^ 24)
    (h : (VM.new program).steps n = some vm) :
    (∀ entry ∈ withEntryTimestamps 0 vm.trace,
      (∀ rs1 imm, entry.2.instruction ≠ .jalr 0 rs1 imm) →
        ∃ row : InstrRow Felt, fillRow entry.1 entry.2 = some row ∧
          row.id = instructionId entry.2.instruction ∧ Honest row) ∧
    ∀ id, (paddingRow id : InstrRow Felt).id = id ∧ (paddingRow id : InstrRow Felt).eval ∧
      ∀ x ∈ (paddingRow id : InstrRow Felt).lookups, x.multiplicity = 0 := by
  obtain ⟨xs, hrun⟩ := exists_runOf h
  refine ⟨?_, fun id => ⟨paddingRow_id id, paddingRow_eval id, paddingRow_lookups id⟩⟩
  rw [hrun.trace, withEntryTimestamps_of_leads hrun.leads]
  intro entry hentry hjalr
  obtain ⟨x, hx, rfl⟩ := List.mem_map.mp hentry
  have hpc := address_lt (hrun.fetched x hx) x.pc.toNat (List.mem_ofFn.mpr ⟨0, rfl⟩)
  refine ⟨x.row, fillRow_step x, (row_ports x).id, row_eval x (by omega) ?_, row_sendsBytes x,
    row_sendsRows x⟩
  intro rs1 imm heq
  apply hjalr rs1 (imm.signExtend 32)
  show ofRv32i x.instr = _
  rw [heq]
  rfl

theorem honest_rows_shiftsAndMasks : ∃ vm, (VM.new shiftsAndMasks).steps 3 = some vm ∧
    ∀ entry ∈ withEntryTimestamps 0 vm.trace, ∃ row : InstrRow Felt,
      fillRow entry.1 entry.2 = some row ∧ row.id = instructionId entry.2.instruction ∧
        Honest row := by
  have hrun : (VM.new shiftsAndMasks).steps 3 = some _ := rfl
  refine ⟨_, hrun, fun entry hentry => ?_⟩
  apply (honest_rows shiftsAndMasks 3 _ (by decide) hrun).1 entry hentry
  intro rs1 imm heq
  rcases hentry with _ | ⟨_, _ | ⟨_, _ | ⟨_, ⟨⟩⟩⟩⟩ <;> cases heq

end Loquela.Completeness
