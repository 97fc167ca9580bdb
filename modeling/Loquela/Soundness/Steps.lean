import Loquela.Completeness.Run
import Loquela.Soundness.RowMemory
import Loquela.Vm.FetchSafety

/-! # Chains of rows as runs of the interpreter

A row whose word is in the program and whose reads find the register file is one step of the
interpreter. The rows of a chain are then consecutive steps, and conversely what they record
fixes the pcs between them.
-/

namespace Loquela.Soundness
open Air Completeness Library Library.Path Library.Replay Trace
open Rv32i hiding bit
open Vm (Byte ExecutionStep fetch ofRv32i U32 VM)

section Fetch

variable {program : List (ProgramColumns Felt)} {B : List Byte} {pc wd : U32}

/-- The ROM holds the program. -/
def Holding (program : List (ProgramColumns Felt)) (B : List Byte) : Prop :=
  romBytes program = B.map fun b => (b.toNat : Felt)

/-- A word the ROM holds at a pc below the modulus is a word of the program. -/
theorem stored_of_romHolds (heval : programEval program) (hheight : program.length < modulus)
    (hrom : Holding program B) (hpc : pc.toNat < modulus)
    (h : RomHolds program (u32ToLimbs pc) (u32ToLimbs wd)) : Stored B pc.toNat wd := by
  intro k hk
  obtain ⟨c, hc, hreal, hvalue⟩ := h.getElem? hheight ⟨k, hk⟩
  rw [packed_u32ToLimbs, ZMod.val_natCast_of_lt hpc] at hc
  have hbyte := (getElem?_romBytes heval).mpr ⟨c, hc, hreal, hvalue⟩
  rw [hrom, List.getElem?_map, Option.map_eq_some_iff] at hbyte
  obtain ⟨b, hb, heq⟩ := hbyte
  rw [hb, Option.some.injEq]
  apply BitVec.eq_of_toNat_eq
  have hlt := leBytes_lt wd ⟨k, hk⟩
  have hb := b.isLt
  exact nat_eq_of_cast (by omega) (hlt.trans (by norm_num)) heq

theorem length_le_of_holding (h : Holding program B) : B.length ≤ program.length := by
  have hlength := congrArg List.length h
  rw [List.length_map, romBytes, List.length_map] at hlength
  exact hlength ▸ List.length_filter_le _ _

/-- A word of the program is held by the ROM. -/
theorem romHolds_of_stored (heval : programEval program) (hrom : Holding program B)
    (h : Stored B pc.toNat wd) : RomHolds program (u32ToLimbs pc) (u32ToLimbs wd) := by
  refine ⟨pc.toNat, (packed_u32ToLimbs pc).symm, fun k => (getElem?_romBytes heval).mp ?_⟩
  rw [hrom, List.getElem?_map, h k k.isLt]
  rfl

/-- The instruction a row executes, from the word in ROM at its pc. -/
theorem exists_instrOf {r : InstrRow Felt} (h : Executes program r) :
    ∃ wd, OperandsOf wd r ∧ (instrOf wd r.ports.id).encode = wd ∧
      RomHolds program r.ports.pc (u32ToLimbs wd) := by
  obtain ⟨wd, instruction, hrom, hdecode, hid, hoperands⟩ := h
  obtain ⟨i, rfl, rfl⟩ := Vm.exists_encode hdecode
  have hencode : (instrOf i.encode r.ports.id).encode = i.encode := by
    rw [hid]
    exact encode_instrOf (fieldsOf_encode i)
  refine ⟨i.encode, ?_, hencode, hrom⟩
  rw [OperandsOf, encode_injective hencode]
  exact hoperands

end Fetch

/-- A row records a step of the interpreter: the pc it starts from, the instruction, and the
registers read and written. -/
structure Records (r : InstrRow Felt) (step : ExecutionStep) : Prop where
  pc : r.ports.pc = u32ToLimbs step.state.pc
  id : r.ports.id = instructionId step.instruction
  operands : r.ports.operands = (operands step.instruction).map fun n : ℕ => (n : Felt)
  memory : rowOps r = step.memoryOps.map opTuple

/-- What a row has to satisfy to be a step of a run of `B`. -/
structure Runs (B : List Byte) (r : InstrRow Felt) : Prop where
  eval : r.eval
  isDummy : r.ports.isDummy = 1
  bytes : SendsBytes r.ports.checks
  rows : ∀ t ∈ fixedTables, SendsRows t r.ports.checks
  opens : OpenColumns r
  carried : (nextPcSum r).Carried
  fetched : ∀ pc, r.ports.pc = u32ToLimbs pc → ∃ wd, OperandsOf wd r ∧
    fetch B pc = some (instrOf wd r.ports.id).encode ∧ pc.toNat + 4 < 2 ^ 32

/-- The state of a machine on the trace bus. -/
def machineState (vm : VM) : ExecutionState Felt := (u32ToLimbs vm.pc, (vm.timestamp : Felt))

theorem ticks_eq (r : InstrRow Felt) (wd : U32) :
    r.ports.ticks = (instrOf wd r.ports.id).sources.length + 1 := by
  cases r <;> rfl

/-- A row with its open columns filled in does not drop a return. -/
theorem instrOf_ne_jalr {r : InstrRow Felt} {wd : U32} (hoperands : OperandsOf wd r)
    (hopen : OpenColumns r) (rs1 : Reg) (imm : BitVec 12) :
    instrOf wd r.ports.id ≠ .jalr 0 rs1 imm := by
  intro hjalr
  cases r with
  | jalr c =>
    obtain ⟨hrd, -, -⟩ := Instr.jalr.inj hjalr
    rw [OperandsOf, operands_instrOf] at hoperands
    apply hopen.1
    rw [(List.cons.inj hoperands).1, hrd]
    rfl
  | _ => cases hjalr

section Chain

variable {B : List Byte} {vm : VM} {m : Felt × Limbs Felt → Limbs Felt}

/-- One row is one step. -/
theorem step_of_row {r : InstrRow Felt} (h : Runs B r) (hprogram : vm.program = B)
    (hstate : consumed r = machineState vm) (hm : Holds m vm.registers)
    (hcoherent : Coherent m ((rowOps r).map access)) :
    ∃ vm' step, vm.step = some vm' ∧ vm'.program = B ∧ vm'.trace = vm.trace ++ [step] ∧
      Records r step ∧ produced r = machineState vm' ∧
      vm'.timestamp = vm.timestamp + r.ports.ticks ∧
      Holds (replay m ((rowOps r).map access)) vm'.registers := by
  have hpc : r.ports.pc = u32ToLimbs vm.pc := congrArg Prod.fst hstate
  have htime : r.ports.timestamp = (vm.timestamp : Felt) := congrArg Prod.snd hstate
  obtain ⟨wd, hoperands, hfetch, hover⟩ := h.fetched vm.pc hpc
  have hnext : Bytes r.ports.nextPc := (nextPc_bytes_iff h.eval).mpr h.carried
  have hops := rowOps_eq hoperands h.eval h.isDummy h.bytes h.rows hpc htime h.opens hm hover
    hcoherent
  have htarget := nextPc_eq hoperands h.eval h.isDummy h.bytes hpc h.opens hm hover hcoherent hnext
  generalize hi : instrOf wd r.ports.id = i at hfetch hops htarget
  have hvm : vm.next i = some (i.nextPc vm.pc vm.registers) := by
    by_cases hj : i.isJump
    · exact Vm.next_of_isJump hj
    · rw [Vm.next_of_not_isJump hj, if_pos hover, Vm.nextPc_of_not_isJump hj]
  have hticks : r.ports.ticks = i.sources.length + 1 := hi ▸ ticks_eq r wd
  refine ⟨vm.after i (i.nextPc vm.pc vm.registers), _, ?_, hprogram, rfl, ?_, ?_, ?_, ?_⟩
  · rw [Vm.step_of_fetch (hprogram ▸ hfetch), hvm]
    rfl
  · exact ⟨hpc, hi ▸ (instructionId_instrOf wd _).symm, hi ▸ hoperands, hops⟩
  · refine Prod.ext htarget ?_
    show r.ports.timestamp + (r.ports.ticks : Felt) = _
    rw [htime, hticks, ← Nat.cast_add]
    rfl
  · rw [hticks]
    rfl
  · rw [hops]
    exact holds_after _ hm fun rs1 imm => hi ▸ instrOf_ne_jalr hoperands h.opens rs1 imm

/-- A chain of rows is a run. -/
theorem run_of_chain {rows : List (InstrRow Felt)} {final : ExecutionState Felt}
    (hrows : ∀ r ∈ rows, Runs B r) (hprogram : vm.program = B)
    (hpath : IsPath consumed produced (machineState vm) rows final) (hm : Holds m vm.registers)
    (hcoherent : Coherent m ((rows.flatMap rowOps).map access)) :
    ∃ vm' steps, vm.steps rows.length = some vm' ∧ vm'.trace = vm.trace ++ steps ∧
      List.Forall₂ Records rows steps ∧ final = machineState vm' ∧
      vm'.timestamp = vm.timestamp + (rows.map fun r => r.ports.ticks).sum ∧
      ∀ fuel, VM.run (rows.length + fuel) vm = VM.run fuel vm' := by
  induction rows generalizing vm m with
  | nil =>
    refine ⟨vm, [], rfl, (List.append_nil _).symm, .nil, (isPath_nil.mp hpath).symm, rfl, ?_⟩
    intro fuel
    rw [List.length_nil, Nat.zero_add]
  | cons r rows ih =>
    obtain ⟨hstate, hpath⟩ := hpath
    rw [List.flatMap_cons, List.map_append, coherent_append] at hcoherent
    obtain ⟨mid, step, hstep, hsame, htrace, hrecords, hproduced, hticks, hmid⟩ :=
      step_of_row (hrows r List.mem_cons_self) hprogram hstate hm hcoherent.1
    rw [hproduced] at hpath
    obtain ⟨vm', steps, hsteps, htrace', hrecords', hfinal, hticks', hrun⟩ :=
      ih (fun r' hr' => hrows r' (List.mem_cons_of_mem r hr')) hsame hpath hmid hcoherent.2
    refine ⟨vm', step :: steps, ?_, ?_, .cons hrecords hrecords', hfinal, ?_, ?_⟩
    · rw [List.length_cons, steps_succ_left, hstep]
      exact hsteps
    · rw [htrace', htrace, List.append_assoc, List.singleton_append]
    · rw [hticks', hticks, List.map_cons, List.sum_cons, Nat.add_assoc]
    · intro fuel
      have hlt : vm.pc.toNat < vm.program.length := by
        obtain ⟨i, next, hfetch, -⟩ := Vm.step_eq_some_iff.mp hstep
        exact Vm.fetch_lt hfetch
      rw [List.length_cons, Nat.succ_add, VM.run, if_pos hlt, hstep]
      exact hrun fuel

end Chain

/-- A row records an executed step and hands on the pc after it. -/
structure Matches (r : InstrRow Felt) (x : Executed) : Prop where
  records : Records r x.step
  nextPc : r.ports.nextPc = u32ToLimbs (x.instr.nextPc x.pc x.registers)

/-- What a row records fixes the instruction, from its word. -/
theorem Matches.instr {r : InstrRow Felt} {x : Executed} (h : Matches r x) :
    x.instr = instrOf x.instr.encode r.ports.id := by
  rw [h.records.id]
  exact (encode_injective (encode_instrOf (fieldsOf_encode x.instr))).symm

theorem Matches.operandsOf {r : InstrRow Felt} {x : Executed} (h : Matches r x) :
    OperandsOf x.instr.encode r := by
  rw [OperandsOf, ← h.instr]
  exact h.records.operands

/-- A chain starts from the pc of the run that it records. -/
theorem head_pc {rows : List (InstrRow Felt)} {xs : List Executed} {s final : ExecutionState Felt}
    {start finish : U32 × ℕ} (h : List.Forall₂ (fun r x => Records r x.step) rows xs)
    (hpath : IsPath consumed produced s rows final) (hleads : Leads start xs finish)
    (hfinal : final.1 = u32ToLimbs finish.1) : s.1 = u32ToLimbs start.1 := by
  cases h with
  | nil => rw [isPath_nil.mp hpath, (hleads : start = finish), hfinal]
  | cons hrecords _ =>
    rw [← hpath.1, ← hleads.1]
    exact hrecords.pc

/-- Every row of a chain that records a run matches one of its steps. -/
theorem matches_of_leads {rows : List (InstrRow Felt)} {xs : List Executed}
    {s final : ExecutionState Felt} {start finish : U32 × ℕ}
    (h : List.Forall₂ (fun r x => Records r x.step) rows xs)
    (hpath : IsPath consumed produced s rows final) (hleads : Leads start xs finish)
    (hfinal : final.1 = u32ToLimbs finish.1) : ∀ r ∈ rows, ∃ x ∈ xs, Matches r x := by
  induction h generalizing s start with
  | nil => simp
  | @cons r x rows xs hrecords hrest ih =>
    obtain ⟨-, hpath⟩ := hpath
    obtain ⟨-, hleads⟩ := hleads
    intro r' hr'
    rcases List.mem_cons.mp hr' with rfl | hr'
    · exact ⟨x, List.mem_cons_self, hrecords, head_pc hrest hpath hleads hfinal⟩
    · obtain ⟨x', hx', hmatches⟩ := ih hpath hleads r' hr'
      exact ⟨x', List.mem_cons_of_mem x hx', hmatches⟩

/-- The operations of a chain come in order of time. -/
theorem chain_times {rows : List (InstrRow Felt)} {s final : ExecutionState Felt} {n : ℕ}
    (hpath : IsPath consumed produced s rows final) (hs : s.2 = (n : Felt))
    (hlt : n + (rows.map fun r => r.ports.ticks).sum ≤ modulus) :
    (((rows.flatMap rowOps).map access).Pairwise fun x y => x.time < y.time) ∧
      ∀ x ∈ (rows.flatMap rowOps).map access, n ≤ x.time := by
  induction rows generalizing s n with
  | nil => exact ⟨.nil, by simp⟩
  | cons r rows ih =>
    obtain ⟨rfl, hpath⟩ := hpath
    rw [List.map_cons, List.sum_cons] at hlt
    have htime : (produced r).2 = ((n + r.ports.ticks : ℕ) : Felt) := by
      rw [Nat.cast_add, ← hs]
      rfl
    obtain ⟨hsorted, hbound⟩ := rowOps_times hs (by omega)
    obtain ⟨hsorted', hbound'⟩ := ih hpath htime (by omega)
    rw [List.flatMap_cons, List.map_append]
    refine ⟨List.pairwise_append.mpr ⟨hsorted, hsorted', fun x hx y hy => ?_⟩, fun x hx => ?_⟩
    · exact (hbound x hx).2.trans_le (hbound' y hy)
    · rcases List.mem_append.mp hx with hx | hx
      · exact (hbound x hx).1
      · exact (Nat.le_add_right n _).trans (hbound' x hx)

end Loquela.Soundness
