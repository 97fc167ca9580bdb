import Loquela.Completeness.AddressComparison
import Loquela.Completeness.Fetch
import Loquela.Completeness.HashBuses
import Loquela.Completeness.MemoryTrace
import Loquela.Completeness.Pipeline
import Loquela.Completeness.RowBuses
import Loquela.Vm.FetchSafety

/-! # Completeness of the prover

The traces of a completed run satisfy all constraints and balance all buses, unless a step
returned through `jalr x0` or the padding of the memory table does not continue its last row.
-/

namespace Loquela.Completeness
open Air Library.Bus Library.Checked Soundness Trace
open Rv32i hiding bit
open Vm (Byte ExecutionStep MemoryOperation ofRv32i U32 VM)

section Timestamps

theorem timestampLessThanPadding_eval :
    (timestampLessThanPadding : TimestampLessThanColumns Felt).eval := by
  decide

theorem timestampBits {n x : ℕ} (hx : x < 2 ^ n) :
    (∀ i, AssertBool ((ofNats fun i : Fin n => x >>> (i : ℕ) &&& 1 : Fin n → Felt) i)) ∧
      (x : Felt) = Library.Bits.pack (List.ofFn (ofNats fun i : Fin n => x >>> (i : ℕ) &&& 1)) := by
  have hvalue : (BitVec.ofNat n x).toNat = x := by rw [BitVec.toNat_ofNat, Nat.mod_eq_of_lt hx]
  obtain ⟨-, hbool, hpack⟩ := pack_ofNats (F := Felt) (x := BitVec.ofNat n x)
    (f := fun i => x >>> (i : ℕ) &&& 1) fun i => by
      rw [hvalue, Nat.shiftRight_eq_div_pow, Nat.and_one_is_mod]
  rw [hvalue] at hpack
  exact ⟨hbool, hpack⟩

theorem timestampLessThanRow_eval {x y : ℕ} (hx : x < 2 ^ 24) (hy : y < 2 ^ 24) (m : Felt) :
    (timestampLessThanRow x y m).eval := by
  have hv : x + (1 <<< 24) - y < 2 ^ 25 := by
    rw [Nat.shiftLeft_eq, one_mul]
    omega
  have hdifference : ((x + (1 <<< 24) - y : ℕ) : Felt) = (x : Felt) + 2 ^ 24 - (y : Felt) := by
    rw [Nat.shiftLeft_eq, one_mul, Nat.cast_sub (by omega), Nat.cast_add, Nat.cast_pow,
      Nat.cast_ofNat]
  have hbits := timestampBits hv
  rw [hdifference] at hbits
  refine ⟨timestampBits hx, timestampBits hy, hbits, ?_⟩
  by_cases h : x = y
  · simp [timestampLessThanRow, h, fromBool]
  · have hne : (x : Felt) - y ≠ 0 :=
      natCast_sub_ne_zero (hx.trans (by norm_num)) (hy.trans (by norm_num)) h
    simp [timestampLessThanRow, h, fromBool, hne]

end Timestamps

/-- A `JALR` to `x0`, which logs 0 where its circuit asks for the return address. -/
def ReturnsToZero (step : ExecutionStep) : Prop := ∃ rs1 imm, step.instruction = .jalr 0 rs1 imm

section Rows

variable {program : List Byte} {xs : List Executed} {vm : VM}

theorem returnsToZero_iff {x : Executed} :
    ReturnsToZero x.step ↔ ∃ rs1 imm, x.instr = .jalr 0 rs1 imm := by
  constructor
  · rintro ⟨rs1, imm, h⟩
    obtain ⟨pc, timestamp, registers, i⟩ := x
    cases i with
    | jalr rd rs1' imm' =>
      obtain ⟨rfl, rfl, -⟩ := Vm.Instruction.jalr.inj h
      exact ⟨rs1', imm', rfl⟩
    | opImm op => cases op <;> cases h
    | shiftImm op => cases op <;> cases h
    | opReg op => cases op <;> cases h
    | _ => cases h
  · rintro ⟨rs1, imm, h⟩
    refine ⟨rs1, imm.signExtend 32, ?_⟩
    show ofRv32i x.instr = _
    rw [h]
    rfl

theorem not_row_eval {x : Executed} (h : ReturnsToZero x.step) :
    ¬ (x.row : InstrRow Felt).eval := by
  obtain ⟨rs1, imm, h⟩ := returnsToZero_iff.mp h
  obtain ⟨pc, timestamp, registers, i⟩ := x
  obtain rfl : i = .jalr 0 rs1 imm := h
  rintro ⟨-, hplus, -⟩
  have hnat : packedNat (u32ToLimbs 0) = packedNat (u32ToLimbs pc) + 4 :=
    u32PlusFour_nat hplus (bytes_u32ToLimbs pc) (bytes_u32ToLimbs 0)
  rw [packedNat_u32ToLimbs, packedNat_u32ToLimbs] at hnat
  cases hnat

/-- The instruction tables satisfy their constraints exactly when no step is a `JALR` to `x0`. -/
theorem rows_eval_iff (hrun : RunOf program xs vm) (hlength : program.length < 2 ^ 24) :
    (∀ r ∈ (kindTables (F := Felt) xs).flatten, r.eval) ↔
      ∀ step ∈ vm.trace, ¬ ReturnsToZero step := by
  rw [hrun.trace, List.forall_mem_map]
  constructor
  · intro heval x hx hreturns
    apply not_row_eval hreturns (heval _ ((kindTables_perm xs).mem_iff.mpr _))
    exact List.mem_append_left _ (List.mem_map_of_mem hx)
  · intro hno r hr
    rcases List.mem_append.mp ((kindTables_perm xs).mem_iff.mp hr) with hr | hr
    · obtain ⟨x, hx, rfl⟩ := List.mem_map.mp hr
      have hpc := address_lt (hrun.fetched x hx) x.pc.toNat (List.mem_ofFn.mpr ⟨0, rfl⟩)
      apply row_eval x (by omega)
      intro rs1 imm heq
      exact hno x hx (returnsToZero_iff.mpr ⟨rs1, imm, heq⟩)
    · obtain ⟨id, rfl⟩ := eq_paddingRow hr
      exact paddingRow_eval id

end Rows

section Log

variable {program : List Byte} {n : ℕ} {vm : VM}

theorem inStep_of_trace (h : (VM.new program).steps n = some vm)
    (hno : ∀ step ∈ vm.trace, ¬ ReturnsToZero step) : Vm.InStep vm := by
  revert hno
  apply Vm.steps_induction h
    (P := fun vm => (∀ step ∈ vm.trace, ¬ ReturnsToZero step) → Vm.InStep vm)
  · exact fun _ => ⟨trivial, fun _ => rfl⟩
  · intro vm i next ih hfetch _ hno
    have hlast : ¬ ReturnsToZero (executing vm i).step :=
      hno _ (List.mem_append_right _ (List.mem_singleton.mpr rfl))
    apply Vm.inStep_after next hfetch (ih fun step hstep => hno step (List.mem_append_left _ hstep))
    rintro ⟨-, rs1, imm, hdrop⟩
    have hi := encode_injective (Option.some.inj (hfetch.symm.trans hdrop))
    exact hlast (returnsToZero_iff.mpr ⟨rs1, imm, hi⟩)

/-- The log is consistent, at increasing times. -/
theorem validLog_of_trace (h : (VM.new program).steps n = some vm)
    (hno : ∀ step ∈ vm.trace, ¬ ReturnsToZero step) (hops : vm.getMemoryOps ≠ [])
    (htime : vm.timestamp < 2 ^ 24) : ValidLog vm.getMemoryOps := by
  obtain ⟨hsorted, hbound⟩ := Vm.log_increasing h
  constructor
  · exact hops
  · apply List.pairwise_map.mpr
    exact (List.pairwise_map.mp hsorted).imp ne_of_lt
  · intro o ho
    exact (hbound _ (List.mem_map_of_mem ho)).trans htime
  · exact (Library.Replay.coherent_iff_consistent hsorted).mp (inStep_of_trace h hno).1

end Log

section Tables

variable {P : Poseidon2 Felt} {program : List Byte} {xs : List Executed} {n : ℕ} {vm : VM}
  {T : TraceSet Felt}

theorem boundariesEval_build (pc : U32) (timestamp : ℕ) :
    boundariesEval (buildBoundaries (F := Felt) pc timestamp) := by
  intro i
  by_cases hi : i = 0
  · subst hi
    exact ⟨fun k => mul_zero _, mul_zero _⟩
  · have hfirst : isFirst (F := Felt) i = 0 := if_neg hi
    rw [hfirst]
    exact ⟨fun k => zero_mul _, zero_mul _⟩

theorem timestampLt_eval {entries : List (ℕ × ℕ)}
    (h : ∀ entry ∈ entries, entry.1 < 2 ^ 24 ∧ entry.2 < 2 ^ 24) :
    ∀ c ∈ buildTimestampLt (F := Felt) entries, c.eval := by
  intro c hc
  rcases List.mem_append.mp hc with hc | hc
  · obtain ⟨entry, hentry, rfl⟩ := List.mem_map.mp hc
    exact timestampLessThanRow_eval (h entry hentry).1 (h entry hentry).2 1
  · rw [List.eq_of_mem_replicate hc]
    exact timestampLessThanPadding_eval

/-- A consistent log on registers only is refused for its padding alone. -/
theorem memoryEval_iff_padding {ops : List MemoryOperation} (h : ValidLog ops)
    (hregister : ∀ o ∈ ops, (MemoryOp.ofOperation o).memoryType = .register) :
    memoryEval (fillFlags (memoryRows (F := Felt) ops)) ↔
      (height ops.length ≠ ops.length → PaddingFits (ops.map MemoryOperation.access)) := by
  rw [memoryEval_iff h]
  constructor
  · exact paddingFits_of_chain h
  · apply memoryRows_continue h
    intro q hq hseam
    obtain ⟨h₁, h₂⟩ := List.of_mem_zip hq
    obtain ⟨o₁, ho₁, heq₁⟩ := mem_sortOps.mp h₁
    obtain ⟨o₂, ho₂, heq₂⟩ := mem_sortOps.mp (List.mem_of_mem_tail h₂)
    apply hseam.2
    rw [← heq₁, ← heq₂, hregister o₁ ho₁, hregister o₂ ho₂]

theorem visits_of_aligned (haligned : ∀ step ∈ vm.trace, step.state.pc.toNat % 4 = 0) {pc : U32}
    (hpc : pc.toNat % 256 = 254) : visits vm pc = 0 := by
  apply List.count_eq_zero_of_not_mem
  intro hmem
  obtain ⟨step, hstep, rfl⟩ := List.mem_map.mp hmem
  have := haligned step hstep
  omega

/-- What the prover assumes of a run, apart from the two conditions. -/
structure ProvableRun (program : List Byte) (n : ℕ) (vm : VM) : Prop where
  steps : (VM.new program).steps n = some vm
  length : program.length < 2 ^ 24
  aligned : ∀ step ∈ vm.trace, step.state.pc.toNat % 4 = 0
  ops : vm.getMemoryOps ≠ []
  timestamp : vm.timestamp < 2 ^ 24

/-- The traces of such a run are built, and are the tables of its steps. -/
theorem ProvableRun.exists_built (P : Poseidon2 Felt) (h : ProvableRun program n vm) :
    ∃ xs t, RunOf program xs vm ∧ xs.length = n ∧ buildAllTraces P program vm = .ok t ∧
      Built P program xs vm (toTraceSet t) := by
  obtain ⟨xs, hrun, hlength, -⟩ := exists_runOf_steps h.steps
  obtain ⟨t, ht⟩ := buildAllTraces_ok P h.steps (h.length.trans (by norm_num)) h.timestamp h.ops
  exact ⟨xs, t, hrun, hlength, ht, built_of_buildAllTraces hrun h.ops ht⟩

/-- The whole run logs eight operations, which fill the memory table. -/
theorem provableRun_shiftsAndMasks : ∃ vm, ProvableRun shiftsAndMasks 3 vm ∧
    (∀ step ∈ vm.trace, ¬ ReturnsToZero step) ∧
      height vm.getMemoryOps.length = vm.getMemoryOps.length := by
  have hsteps : (VM.new shiftsAndMasks).steps 3 = some _ := rfl
  refine ⟨_, ⟨hsteps, by decide, by decide, by decide, by decide⟩, ?_, by decide⟩
  rintro step hstep ⟨rs1, imm, hjalr⟩
  rcases hstep with _ | ⟨_, _ | ⟨_, _ | ⟨_, ⟨⟩⟩⟩⟩ <;> cases hjalr

/-- Its first step leaves room in the memory table. -/
theorem provableRun_firstStep : ∃ vm, ProvableRun shiftsAndMasks 1 vm ∧
    (∀ step ∈ vm.trace, ¬ ReturnsToZero step) ∧
      PaddingFits (vm.getMemoryOps.map MemoryOperation.access) := by
  have hsteps : (VM.new shiftsAndMasks).steps 1 = some _ := rfl
  refine ⟨_, ⟨hsteps, by decide, by decide, by decide, by decide⟩, ?_, ?_⟩
  · rintro step hstep ⟨rs1, imm, hjalr⟩
    rcases hstep with _ | ⟨_, ⟨⟩⟩
    cases hjalr
  · intro x hx
    refine ⟨?_, fun hzero => absurd (hzero _ (.tail _ (.head _))) (by decide)⟩
    rcases hx with _ | ⟨_, _ | ⟨_, ⟨⟩⟩⟩ <;> rfl

variable (h : ProvableRun program n vm) (hrun : RunOf program xs vm) (hT : Built P program xs vm T)
include h hrun hT

theorem eval_iff : T.Eval P ↔ (∀ step ∈ vm.trace, ¬ ReturnsToZero step) ∧
    (height vm.getMemoryOps.length ≠ vm.getMemoryOps.length →
      PaddingFits (vm.getMemoryOps.map MemoryOperation.access)) := by
  have hmemory := fun hno => memoryEval_iff_padding
    (validLog_of_trace h.steps hno h.ops h.timestamp) (register_of_mem hrun)
  rw [← rows_eval_iff hrun h.length, ← hT.rows]
  constructor
  · intro heval
    have hrows := heval.rows
    have hno := (rows_eval_iff hrun h.length).mp (hT.rows ▸ hrows)
    exact ⟨hrows, (hmemory hno).mp (hT.memory ▸ heval.memory)⟩
  · rintro ⟨hrows, hpadding⟩
    have hno := (rows_eval_iff hrun h.length).mp (hT.rows ▸ hrows)
    constructor
    · exact hrows
    · rw [hT.boundaries]
      exact boundariesEval_build _ _
    · exact decode_eval hrun hT.decode
    · rw [hT.memory]
      exact (hmemory hno).mpr hpadding
    · obtain ⟨-, -, -, hfetched⟩ := fetchPcs_of_steps h.steps (trace_ne_nil hT.decode)
      exact programEval_buildProgram h.length hfetched hT.rom
    · rw [hT.publicValues]
      exact hash_eval hT.programHash h.length
    · rw [hT.poseidon2Chip]
      exact chip_eval P _
    · rw [hT.u32Lt, buildU32Lt_eq]
      exact buildU32LtWith_eval _
    · rw [hT.timestampLt]
      exact timestampLt_eval (timestampLtEntries_lt h.steps h.timestamp)

theorem net_program (values : List Felt) : net (T.decode.flatMap DecodeColumns.lookups) .program
    values + net (programLookups T.program) .program values = 0 := by
  obtain ⟨-, -, heven, hfetched⟩ := fetchPcs_of_steps h.steps (trace_ne_nil hT.decode)
  have hagree := agree_of_dvd_visits hrun hT.decode hT.rom hfetched heven
    (fun pc hpc => (visits_of_aligned h.aligned hpc) ▸ dvd_zero modulus) values
  have hreceived : received (T.decode.flatMap DecodeColumns.lookups) .program values = 0 := by
    apply received_eq_zero
    intro x hx hbus
    obtain ⟨d, -, hx⟩ := List.mem_flatMap.mp hx
    rcases decode_mem_lookups.mp hx with ⟨k, rfl⟩ | rfl | rfl | rfl
    · nofun
    all_goals cases hbus
  have hsent : sent (programLookups T.program) .program values = 0 := by
    apply sent_eq_zero
    intro x hx _
    obtain ⟨c, -, rfl | rfl⟩ := program_mem_lookups.mp hx <;> nofun
  rw [net_eq_sub, net_eq_sub, hreceived, hsent, hagree]
  ring

/-- The traces of a run balance whatever its steps are. -/
theorem balanced : Balanced T.lookups := by
  have hlog : ∀ op ∈ sortOps vm.getMemoryOps,
      op.memoryType = .register ∧ op.timestamp < modulus := by
    intro op hop
    obtain ⟨o, ho, rfl⟩ := mem_sortOps.mp hop
    refine ⟨register_of_mem hrun o ho, ?_⟩
    exact (timestamp_of_mem h.steps o ho).trans (h.timestamp.trans (by norm_num))
  have hoperation : ∀ {bus}, bus ∈ tableBuses → bus ∉ hashBuses → ∀ values,
      net (T.rows.flatMap InstrRow.lookups) bus values + net T.tableLookups bus values = 0 := by
    intro bus hbus hhash values
    have hnet := net_tableBuses hrun hT hbus values
    rwa [net_append, net_append, net_hash_of_notMem hhash, add_zero] at hnet
  have hcomparison := net_comparisons hT hlog
  simp only [net_append] at hcomparison
  intro bus values
  rw [net_traceSet]
  cases bus with
  | trace =>
    rw [hT.rows, hT.boundaries]
    exact net_trace hrun values
  | decode | decodeU | decodeJ =>
    rw [hT.rows]
    exact net_decode (by decide) values hrun hT.decode
  | program => exact net_program h hrun hT values
  | programImage =>
    exact net_image hT.programHash h.length (rom_boolean hT.rom)
      (selected_rom (h.length.trans (by norm_num)) hT.rom) values
  | memory =>
    rw [hT.rows, hT.memory]
    exact net_memory hrun values
  | bytes =>
    have hnet := net_tableBuses hrun hT (.head _) values
    rwa [net_append, net_append] at hnet
  | bytesXor | bytesOr | bytesAnd | byteSll | byteSrl =>
    exact hoperation (by decide) (by decide) values
  | u32Lt =>
    have hnet := hcomparison .u32Lt (by decide) values
    rwa [net_of_notMem (timestampLt_bus T.timestampLt) (by decide) values,
      net_of_notMem (tables_bus T) (by decide) values, add_zero, add_zero] at hnet
  | timestampLt =>
    have hnet := hcomparison .timestampLt (by decide) values
    rwa [net_of_notMem (u32Lt_bus T.u32Lt) (by decide) values,
      net_of_notMem (tables_bus T) (by decide) values, add_zero, add_zero] at hnet
  | bytesLt =>
    have hnet := hcomparison .bytesLt (by decide) values
    rwa [net_of_notMem (memory_bus T.memory) (by decide) values,
      net_of_notMem (timestampLt_bus T.timestampLt) (by decide) values, zero_add, zero_add] at hnet
  | poseidon2Perm =>
    rw [hT.poseidon2Chip]
    exact net_poseidon2Perm hT.programHash h.length values

end Tables

theorem generateAllTraces_eq {P : Poseidon2 Felt} {fuel : ℕ} {program : List Byte} {vm : VM}
    (hrun : (VM.new program).run fuel = some vm) :
    generateAllTraces P fuel program = buildAllTraces P program vm := by
  rw [generateAllTraces, expect_eq_ok.mpr hrun]
  rfl

/-- The traces generated for a completed run with aligned steps and a memory operation satisfy all
constraints and balance all buses exactly when no step is a `JALR` to `x0` and, unless the log fills
the memory table, the padding rows continue it. -/
theorem prover_complete_iff (P : Poseidon2 Felt) (fuel : ℕ) (program : List Byte) (vm : VM)
    (hlength : program.length < 2 ^ 24) (hrun : (VM.new program).run fuel = some vm)
    (haligned : ∀ step ∈ vm.trace, step.state.pc.toNat % 4 = 0) (hops : vm.getMemoryOps ≠ [])
    (htime : vm.timestamp < 2 ^ 24) :
    ∃ t, generateAllTraces P fuel program = .ok t ∧
      ((toTraceSet t).Eval P ∧ Balanced (toTraceSet t).lookups ↔
        (∀ step ∈ vm.trace, ∀ rs1 imm, step.instruction ≠ .jalr 0 rs1 imm) ∧
          (height vm.getMemoryOps.length ≠ vm.getMemoryOps.length →
            PaddingFits (vm.getMemoryOps.map MemoryOperation.access))) := by
  obtain ⟨n, hn⟩ := steps_of_run hrun
  have h : ProvableRun program n vm := ⟨hn, hlength, haligned, hops, htime⟩
  obtain ⟨xs, t, hxs, -, ht, hT⟩ := h.exists_built P
  have hreturns : (∀ step ∈ vm.trace, ∀ rs1 imm, step.instruction ≠ .jalr 0 rs1 imm) ↔
      ∀ step ∈ vm.trace, ¬ ReturnsToZero step := by
    simp only [ReturnsToZero, not_exists]
  refine ⟨t, (generateAllTraces_eq hrun).trans ht, ?_⟩
  rw [hreturns, ← eval_iff h hxs hT]
  exact and_iff_left (balanced h hxs hT)

theorem prover_complete_iff_shiftsAndMasks : ∃ vm t, (VM.new shiftsAndMasks).run 4 = some vm ∧
    generateAllTraces ⟨id, id, 0, 0, 0⟩ 4 shiftsAndMasks = .ok t ∧
    (toTraceSet t).Eval ⟨id, id, 0, 0, 0⟩ ∧ Balanced (toTraceSet (F := Felt) t).lookups := by
  have hrun : (VM.new shiftsAndMasks).run 4 = some _ := rfl
  obtain ⟨t, ht, hiff⟩ := prover_complete_iff ⟨id, id, 0, 0, 0⟩ 4 shiftsAndMasks _ (by decide) hrun
    (by decide) (by decide) (by decide)
  refine ⟨_, t, hrun, ht, hiff.mpr ⟨?_, fun hpadded => absurd (by decide) hpadded⟩⟩
  intro step hstep rs1 imm heq
  rcases hstep with _ | ⟨_, _ | ⟨_, _ | ⟨_, ⟨⟩⟩⟩⟩ <;> cases heq

/-- `jalr x0, x0, 4`, a return past the end. -/
def returnsToEnd : List Byte := [0x67, 0x00, 0x40, 0x00]

theorem wordAligned_returnsToEnd : Vm.WordAligned returnsToEnd := by
  refine ⟨rfl, fun a ha hlt => ?_⟩
  have hlt : a < 4 := hlt
  obtain rfl : a = 0 := by omega
  exact ⟨0x00400067, .jalr 0 0 4, by unfold Rv32i.Stored; decide, by decide⟩

/-- A return through `x0` is executed and cannot be proved. -/
theorem prover_incomplete : ¬ ∀ (P : Poseidon2 Felt) (fuel : ℕ) (program : List Byte) (vm : VM),
    program ≠ [] → Vm.WordAligned program → program.length < 2 ^ 24 →
    (VM.new program).run fuel = some vm → (∀ step ∈ vm.trace, step.state.pc.toNat % 4 = 0) →
    vm.getMemoryOps ≠ [] → vm.timestamp < 2 ^ 24 →
      ∃ t, generateAllTraces P fuel program = .ok t ∧
        (toTraceSet t).Eval P ∧ Balanced (toTraceSet t).lookups := by
  intro hcomplete
  have hrun : (VM.new returnsToEnd).run 2 = some _ := rfl
  obtain ⟨n, hn⟩ := steps_of_run hrun
  obtain ⟨xs, hxs⟩ := exists_runOf hn
  obtain ⟨t, ht, heval, -⟩ := hcomplete ⟨id, id, 0, 0, 0⟩ 2 returnsToEnd _ (by decide)
    wordAligned_returnsToEnd (by decide) hrun (by decide) (by decide) (by decide)
  have hT := built_of_buildAllTraces hxs (by decide) (generateAllTraces_eq hrun ▸ ht)
  have h : ProvableRun returnsToEnd n _ :=
    ⟨hn, by decide, by decide, by decide, by decide⟩
  have hno := ((eval_iff h hxs hT).mp heval).1
  exact hno _ (.head _) ⟨0, 4, rfl⟩

end Loquela.Completeness
