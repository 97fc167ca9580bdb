import Loquela.Soundness.Steps

/-! # Chains of rows and runs of the interpreter

The buses put the real rows of an accepted trace set in one chain, bind each of them to the
program in ROM and let it read what was written last. Where the prover has filled in the columns
left to it as intended, the chain is a run of the interpreter.
-/

namespace Loquela.Soundness
open Air Completeness Library Library.Bus Library.Path Library.Replay Trace
open Rv32i hiding bit
open Vm (Byte loggedOps ofRv32i VM)

section Sound

variable {P : Poseidon2 Felt} {T : TraceSet Felt}

/-- The operations of an accepted trace set, in the order of its chain, are coherent. -/
theorem coherent_of_accepted (h : T.Accepted P) (hcompared : (memoryTables T).Compared)
    (hwords : ∀ r ∈ realRows T.rows, ∃ wd, OperandsOf wd r) {chain : List (InstrRow Felt)}
    (hperm : (realRows T.rows).Perm chain) {final : ExecutionState Felt}
    (hpath : IsPath consumed produced 0 chain final)
    (hlt : (chain.map fun r => r.ports.ticks).sum < modulus) :
    Coherent (fun _ => 0) ((chain.flatMap rowOps).map access) := by
  obtain ⟨hsorted, -⟩ := chain_times (n := 0) hpath Nat.cast_zero.symm (by omega)
  have hops : ((realRows T.rows).flatMap rowOps).Perm (chain.flatMap rowOps) :=
    hperm.flatMap_right rowOps
  have hdistinct : (((realRows T.rows).flatMap rowOps).map fun op => op.timestamp).Nodup := by
    have hne : ∀ op op' : MemoryTuple Felt, (access op).time < (access op').time →
        op.timestamp ≠ op'.timestamp := fun _ _ hlt heq => hlt.ne (congrArg ZMod.val heq)
    rw [(hops.map _).nodup_iff]
    exact List.pairwise_map.mpr ((List.pairwise_map.mp hsorted).imp (hne _ _))
  have hbytes : ∀ op ∈ (realRows T.rows).flatMap rowOps, ∀ i, (op.address i).val < 256 := by
    intro op hop i
    obtain ⟨r, hr, hop⟩ := List.mem_flatMap.mp hop
    obtain ⟨wd, hoperands⟩ := hwords r hr
    have hop : op ∈ r.ports.memory := by
      rw [rowOps] at hop
      split_ifs at hop
      · exact hop
      · cases hop
    obtain ⟨reg, haddress⟩ := memory_addresses hoperands op hop
    rw [haddress, ← register_limbs]
    exact bytes_u32ToLimbs _ i
  have hconsistent := consistent_of_accepts (memoryTables_accepts h) hbytes hdistinct hcompared
  exact (coherent_iff_consistent hsorted).mpr ((consistent_perm (hops.map access)).mp hconsistent)

/-- The prover has filled in the columns that the constraints leave to it as intended: those of
single rows, the carries of the next pcs, and the decode rows of `LUI`, `AUIPC` and `JAL`. -/
structure Intended (T : TraceSet Felt) : Prop where
  opens : ∀ r ∈ realRows T.rows, OpenColumns r
  carried : ∀ r ∈ realRows T.rows, (nextPcSum r).Carried
  bound : ∀ r ∈ realRows T.rows, r.ports.decodeBus ≠ .decode →
    Bound (bindingTables T) r ∧ packedNat r.ports.pc < modulus

/-- The real rows, in the order of the trace bus, are the first steps of a run of `B`, and the
boundaries receive the state after them. -/
structure Simulates (T : TraceSet Felt) (B : List Byte) (chain : List (InstrRow Felt)) (vm : VM) :
    Prop where
  rows : (realRows T.rows).Perm chain
  path : IsPath consumed produced 0 chain (finalState T.boundaries)
  steps : (VM.new B).steps chain.length = some vm
  records : List.Forall₂ Records chain vm.trace
  final : finalState T.boundaries = machineState vm
  timestamp : vm.timestamp < modulus
  run : ∀ fuel, VM.run (chain.length + fuel) (VM.new B) = VM.run fuel vm

/-- Every real row of an intended trace set is ready to be a step of the program. -/
theorem runs_of_intended (h : T.Accepted P) {B : List Byte} (hrom : Holding T.program B)
    (hT : Intended T) {r : InstrRow Felt} (hr : r ∈ realRows T.rows) : Runs B r where
  eval := real_eval h hr
  isDummy := real_isDummy hr
  bytes := sendsBytes_of_accepted h hr
  rows := fun _ ht => sendsRows_of_accepted h hr ht
  opens := hT.opens r hr
  carried := hT.carried r hr
  fetched := by
    intro pc hpc
    obtain ⟨wd, hoperands, hencode, hholds⟩ := exists_instrOf
      ((executes_iff_of_accepted h hr).mpr fun hbus => (hT.bound r hr hbus).1)
    have hlt : pc.toNat < 2147483647 := by
      rw [← packedNat_u32ToLimbs, ← hpc]
      by_cases hbus : r.ports.decodeBus = .decode
      · exact packedNat_lt_of_decode h hr hbus (hpc ▸ bytes_u32ToLimbs pc)
      · exact (hT.bound r hr hbus).2
    rw [hpc] at hholds
    refine ⟨wd, hoperands, ?_, by omega⟩
    rw [hencode]
    exact Vm.fetch_of_stored
      (stored_of_romHolds h.eval.program (program_length_lt h) hrom hlt hholds)

theorem simulates_of_intended (h : T.Accepted P) {B : List Byte} (hrom : Holding T.program B)
    (hT : Intended T) (hcompared : (memoryTables T).Compared) :
    ∃ chain vm, Simulates T B chain vm := by
  have hnet : ∀ values, net (T.rows.flatMap InstrRow.lookups ++ boundariesLookups T.boundaries)
      .trace values = 0 := by
    intro values
    rw [net_append]
    exact (net_traceSet T .trace values).symm.trans (h.balanced .trace values)
  obtain ⟨chain, hperm, hpath, -⟩ := exists_chain
    (fun r hr => InstrRow.isDummy_of_eval (h.eval.rows r hr)) hnet (length_realRows_lt h)
  have hticks : (chain.map fun r => r.ports.ticks).sum < modulus := by
    rw [← (hperm.map _).sum_eq]
    exact sum_ticks_lt (length_realRows_lt h)
  have hoperands : ∀ r ∈ realRows T.rows, ∃ wd, OperandsOf wd r := by
    intro r hr
    obtain ⟨wd, hoperands, -⟩ := exists_instrOf
      ((executes_iff_of_accepted h hr).mpr fun hbus => (hT.bound r hr hbus).1)
    exact ⟨wd, hoperands⟩
  have hcoherent := coherent_of_accepted h hcompared hoperands hperm hpath hticks
  have hruns : ∀ r ∈ chain, Runs B r := fun r hr =>
    runs_of_intended h hrom hT (hperm.mem_iff.mpr hr)
  have hstart : (0 : ExecutionState Felt) = machineState (VM.new B) :=
    Prod.ext u32ToLimbs_zero.symm Nat.cast_zero.symm
  have hzero : Holds (fun _ => 0) (VM.new B).registers := fun _ => u32ToLimbs_zero.symm
  obtain ⟨vm, steps, hsteps, htrace, hrecords, hfinal, htime, hrun⟩ :=
    run_of_chain hruns rfl (hstart ▸ hpath) hzero hcoherent
  refine ⟨chain, vm, hperm, hpath, hsteps, ?_, hfinal, ?_, hrun⟩
  · rw [htrace]
    exact hrecords
  · rw [htime]
    simpa [VM.new] using hticks

/-- The converse for single rows: a row that records a step was filled in as intended. -/
theorem intended_of_simulates (h : T.Accepted P) {B : List Byte} (hrom : Holding T.program B)
    {chain : List (InstrRow Felt)} {vm : VM} (hsimulates : Simulates T B chain vm) :
    Intended T := by
  obtain ⟨xs, hrun, -⟩ := exists_runOf_steps hsimulates.steps
  have hrecords := hsimulates.records
  rw [hrun.trace, List.forall₂_map_right_iff] at hrecords
  have hsteps : ∀ r ∈ realRows T.rows, ∃ x ∈ xs, Matches r x := fun r hr =>
    matches_of_leads hrecords hsimulates.path hrun.leads (congrArg Prod.fst hsimulates.final) r
      (hsimulates.rows.mem_iff.mp hr)
  have hlt : ∀ x ∈ xs, x.pc.toNat + 3 < 2147483647 := by
    intro x hx
    have hstored := Vm.stored_of_fetch (hrun.fetched x hx) 3 (by omega)
    have hlength := (length_le_of_holding hrom).trans_lt (program_length_lt h)
    exact (List.getElem?_eq_some_iff.mp hstored).1.trans hlength
  constructor
  · intro r hr
    obtain ⟨x, hx, hmatches⟩ := hsteps r hr
    have hover : x.pc.toNat + 4 < 2 ^ 32 := by
      have hpc := hlt x hx
      omega
    have hops : rowOps r = (loggedOps x.pc x.timestamp x.registers x.instr).map opTuple :=
      hmatches.records.memory
    have hnext := hmatches.nextPc
    rw [hmatches.instr] at hops hnext
    exact openColumns_of_step hmatches.operandsOf (real_eval h hr) (real_isDummy hr)
      (sendsBytes_of_accepted h hr) (fun _ ht => sendsRows_of_accepted h hr ht)
      hmatches.records.pc hover hops hnext
  · intro r hr
    obtain ⟨x, -, hmatches⟩ := hsteps r hr
    apply (nextPc_bytes_iff (real_eval h hr)).mp
    rw [hmatches.nextPc]
    exact bytes_u32ToLimbs _
  · intro r hr hbus
    obtain ⟨x, hx, hmatches⟩ := hsteps r hr
    have hpc : r.ports.pc = u32ToLimbs x.pc := hmatches.records.pc
    have hholds := romHolds_of_stored h.eval.program hrom
      (Vm.stored_of_fetch (hrun.fetched x hx))
    constructor
    · exact (executes_iff_of_accepted h hr).mp ⟨x.instr.encode, ofRv32i x.instr, hpc ▸ hholds,
        Vm.decodeInstruction_encode x.instr, hmatches.records.id, hmatches.records.operands⟩ hbus
    · have hlt := hlt x hx
      rw [hpc, packedNat_u32ToLimbs]
      exact (Nat.le_add_right _ 3).trans_lt hlt

end Sound

end Loquela.Soundness
