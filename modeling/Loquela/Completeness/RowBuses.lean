import Loquela.Completeness.Decoding
import Loquela.Completeness.HonestRows
import Loquela.Soundness.Buses

/-! # The buses of the instruction tables

On the trace, decode and memory buses the instruction tables of a run add up, step by step, to
what the boundaries, the decode table and the memory table exchange with them.
-/

namespace Loquela.Completeness
open Air Library.Bus Soundness Trace
open Rv32i hiding bit
open Vm (Byte MemoryOperation ofRv32i U32 VM)

section Weights

variable (b bus : BusName) (v values : List Felt) (m : Felt)

theorem send_weight : (send b v m).weight bus values = if b = bus ∧ v = values then m else 0 := rfl

theorem receive_weight :
    (receive b v m).weight bus values = if b = bus ∧ v = values then -m else 0 := rfl

end Weights

section Ports

variable {io : RowPorts Felt} {bus : BusName} (h : Regular io) (values : List Felt)

theorem net_memory_of_ne (io : RowPorts Felt) (hbus : bus ≠ .memory) :
    net (io.memory.map fun op => send .memory op.toList io.memoryMultiplicity) bus values = 0 :=
  net_of_forall_bus_ne (memory_bus_ne io bus hbus _)

include h

theorem net_checks_of_notMem (hbus : bus ∉ tableBuses) :
    net (io.checks.map fun c => send c.1 c.2 io.isDummy) bus values = 0 :=
  net_of_forall_bus_ne (checks_bus_ne h.checks bus hbus _)

theorem net_ports_trace : net io.lookups .trace values =
    (if traceTuple io.nextPc (io.timestamp + io.ticks) = values then io.isDummy else 0) -
      if traceTuple io.pc io.timestamp = values then io.isDummy else 0 := by
  have hmemory := net_memory_of_ne values io (by decide : BusName.trace ≠ .memory)
  have hchecks := net_checks_of_notMem h values (by decide : BusName.trace ∉ tableBuses)
  have hdecode := decodeBus_ne h .trace (by decide)
  simp only [RowPorts.lookups, net_append, net_cons, net_nil, hmemory, hchecks, send_weight,
    receive_weight, hdecode, true_and, false_and, if_false, add_zero]
  split_ifs <;> ring

theorem net_ports_decode (hbus : bus ∈ decodeBuses) : net io.lookups bus values =
    if io.decodeBus = bus ∧ io.decode = values then io.isDummy else 0 := by
  have hdisjoint : ∀ bus ∈ decodeBuses, bus ≠ .memory ∧ bus ∉ tableBuses := by decide
  have htrace : BusName.trace ≠ bus := (ne_of_mem_of_not_mem hbus (by decide)).symm
  have hmemory := net_memory_of_ne values io (hdisjoint bus hbus).1
  have hchecks := net_checks_of_notMem h values (hdisjoint bus hbus).2
  simp only [RowPorts.lookups, net_append, net_cons, net_nil, hmemory, hchecks, send_weight,
    receive_weight, htrace, false_and, if_false, add_zero, zero_add]

theorem net_ports_memory : net io.lookups .memory values =
    ((io.memory.map MemoryTuple.toList).count values : Felt) * io.memoryMultiplicity := by
  have hchecks := net_checks_of_notMem h values (by decide : BusName.memory ∉ tableBuses)
  have hdecode := decodeBus_ne h .memory (by decide)
  have hmemory : net (io.memory.map fun op => send .memory op.toList io.memoryMultiplicity) .memory
      values = ((io.memory.map MemoryTuple.toList).count values : Felt) * io.memoryMultiplicity := by
    rw [net, List.map_map, ← sum_ite_eq_count]
    simp only [Function.comp_def, send_weight, true_and]
  simp only [RowPorts.lookups, net_append, net_cons, net_nil, hmemory, hchecks, send_weight,
    receive_weight, hdecode, reduceCtorEq, false_and, if_false, add_zero, zero_add]

end Ports

/-- Padding exchanges nothing, so the tables add up the rows of the steps. -/
theorem net_rows {bus : BusName} (values : List Felt) (xs : List Executed) :
    net ((kindTables xs).flatten.flatMap InstrRow.lookups) bus values =
      (xs.map fun x => net (x.row : InstrRow Felt).lookups bus values).sum := by
  have hpadding : ((padding xs).map fun r : InstrRow Felt => net r.lookups bus values).sum = 0 := by
    apply List.sum_eq_zero
    intro w hw
    obtain ⟨r, hr, rfl⟩ := List.mem_map.mp hw
    obtain ⟨id, rfl⟩ := eq_paddingRow hr
    exact net_of_forall_multiplicity (paddingRow_lookups id)
  rw [net_flatMap, ((kindTables_perm xs).map _).sum_eq, List.map_append, List.sum_append, hpadding,
    add_zero, List.map_map]
  rfl

/-- The share of an execution state in a tuple of the trace bus. -/
def stateWeight (values : List Felt) (s : U32 × ℕ) : Felt :=
  if stateTuple s = values then 1 else 0

theorem net_row_trace (values : List Felt) (x : Executed) :
    net (x.row : InstrRow Felt).lookups .trace values =
      stateWeight values x.exit - stateWeight values x.entry := by
  have hports := row_ports (F := Felt) x
  rw [InstrRow.lookups, net_ports_trace (regular _), hports.isDummy, hports.pc, hports.timestamp,
    hports.nextPc, hports.ticks, ← Nat.cast_add]
  rfl

/-- Along a run the states in between cancel. -/
theorem sum_states {start finish : U32 × ℕ} {xs : List Executed} (h : Leads start xs finish)
    (values : List Felt) :
    (xs.map fun x => net (x.row : InstrRow Felt).lookups .trace values).sum =
      stateWeight values finish - stateWeight values start := by
  induction xs generalizing start with
  | nil =>
    obtain rfl : start = finish := h
    exact (sub_self _).symm
  | cons x xs ih =>
    obtain ⟨rfl, h⟩ := h
    rw [List.map_cons, List.sum_cons, net_row_trace, ih h]
    ring

theorem net_boundaries (pc : U32) (timestamp : ℕ) (values : List Felt) :
    net (boundariesLookups (buildBoundaries pc timestamp)) .trace values =
      stateWeight values (0, 0) - stateWeight values (pc, timestamp) := by
  have hzero : stateTuple (F := Felt) (0, 0) = traceTuple 0 0 := by
    rw [stateTuple, u32ToLimbs_zero, Nat.cast_zero]
  have hlast : stateTuple (F := Felt) (pc, timestamp) =
      traceTuple (u32ToLimbs pc) (timestamp : Felt) :=
    rfl
  rw [stateWeight, stateWeight, hzero, hlast]
  simp [boundariesLookups, List.ofFn_succ, isFirst, isLast, buildBoundaries, send_weight,
    receive_weight]
  split_ifs <;> ring

variable {program : List Byte} {xs : List Executed} {vm : VM}

theorem net_trace (hrun : RunOf program xs vm) (values : List Felt) :
    net ((kindTables xs).flatten.flatMap InstrRow.lookups) .trace values +
      net (boundariesLookups (buildBoundaries vm.pc vm.timestamp)) .trace values = 0 := by
  rw [net_rows, sum_states hrun.leads, net_boundaries]
  ring

section Decode

/-- The decode table holds the words of the steps, and pads with the first of them. -/
theorem exists_buildDecode {decode : List (DecodeColumns Felt)} (hrun : RunOf program xs vm)
    (hdecode : buildDecode vm.trace = some decode) : ∃ first : Instr,
      decode = (xs.map fun x => decodeRow x.pc x.instr.encode 1) ++
        List.replicate (height xs.length - xs.length) (decodeRow 0 first.encode 0) := by
  rw [buildDecode, hrun.trace, List.head?_map, Option.map_map, List.map_map,
    List.length_map] at hdecode
  obtain ⟨x, -, rfl⟩ := Option.map_eq_some_iff.mp hdecode
  exact ⟨x.instr, rfl⟩

theorem decode_eval {decode : List (DecodeColumns Felt)} (hrun : RunOf program xs vm)
    (hdecode : buildDecode vm.trace = some decode) : ∀ c ∈ decode, c.eval := by
  have hrow : ∀ (i : Instr) pc mult, (decodeRow pc i.encode mult : DecodeColumns Felt).eval := by
    intro i pc mult
    have hsome : (Vm.decodeInstruction i.encode).isSome := by
      rw [Vm.decodeInstruction_encode]
      rfl
    exact (eval_decodeRow hsome pc mult).2
  obtain ⟨first, rfl⟩ := exists_buildDecode hrun hdecode
  intro c hc
  rcases List.mem_append.mp hc with hc | hc
  · obtain ⟨x, -, rfl⟩ := List.mem_map.mp hc
    exact hrow _ _ _
  · rw [List.eq_of_mem_replicate hc]
    exact hrow _ _ _

variable {bus : BusName} (hbus : bus ∈ decodeBuses) (values : List Felt)
include hbus

theorem net_decodeRow (i : Instr) (pc : U32) (mult : Felt) :
    net (decodeRow pc i.encode mult).lookups bus values =
      if bus = (instructionId (ofRv32i i)).decodeBus ∧
        decodeTuple (u32ToLimbs pc) (ofRv32i i) = values then -mult else 0 := by
  have hfields := fieldsOf_encode i
  have hdecodes := (rowOf_decodeRow (F := Felt) hfields pc mult).decodes hfields
  have hi := hdecodes.decode
  rw [Vm.decodeInstruction_encode] at hi
  rw [net_of_decodes hdecodes hbus, ← Option.some.inj hi]
  rfl

/-- The decode row of a step offers what its row looks up. -/
theorem net_step_decode (x : Executed) :
    net (x.row : InstrRow Felt).lookups bus values +
      net (decodeRow x.pc x.instr.encode 1).lookups bus values = 0 := by
  have hports := row_ports (F := Felt) x
  rw [InstrRow.lookups, net_ports_decode (regular _) values hbus, row_decode, hports.decodeBus,
    hports.isDummy, net_decodeRow hbus]
  by_cases h : bus = (instructionId (ofRv32i x.instr)).decodeBus ∧
      decodeTuple (u32ToLimbs x.pc) (ofRv32i x.instr) = values
  · rw [if_pos ⟨h.1.symm, h.2⟩, if_pos h, add_neg_cancel]
  · rw [if_neg fun h' => h ⟨h'.1.symm, h'.2⟩, if_neg h, add_zero]

/-- The padding of the decode table offers nothing. -/
theorem net_decode {decode : List (DecodeColumns Felt)} (hrun : RunOf program xs vm)
    (hdecode : buildDecode vm.trace = some decode) :
    net ((kindTables xs).flatten.flatMap InstrRow.lookups) bus values +
      net (decode.flatMap DecodeColumns.lookups) bus values = 0 := by
  obtain ⟨first, rfl⟩ := exists_buildDecode hrun hdecode
  rw [net_rows, net_flatMap, List.map_append, List.sum_append, List.map_replicate,
    net_decodeRow hbus, neg_zero, ite_self, List.sum_replicate, smul_zero, add_zero, List.map_map,
    ← List.sum_map_add]
  apply List.sum_eq_zero
  intro w hw
  obtain ⟨y, -, rfl⟩ := List.mem_map.mp hw
  exact net_step_decode hbus values y

end Decode

section Memory

/-- An operation as it goes over the memory bus. -/
def operationTuple (o : MemoryOperation) : List Felt := (MemoryOp.ofOperation o).tuple.toList

theorem register_limbs (r : Vm.Register) :
    (u32ToLimbs (r.setWidth 32) : Limbs Felt) = registerAddress (r.toNat : Felt) := by
  have hr := r.isLt
  have hdigits : leBytes (r.setWidth 32) = ![r.toNat, 0, 0, 0] := by
    apply leBytes_of_digits
    · intro i
      fin_cases i <;> simp
      omega
    · simp
      omega
  funext i
  rw [u32ToLimbs_apply, hdigits]
  fin_cases i <;> simp [registerAddress]

section Operations

variable (registers : Vm.Registers) (rd rs1 rs2 : Vm.Register) (timestamp : ℕ) (value : U32)

theorem operationTuple_read : operationTuple (Vm.readRegister registers rs1 timestamp) =
    (readTuple (timestamp : Felt) rs1.toNat (u32ToLimbs (registers rs1))).toList := by
  rw [readTuple, ← register_limbs, ← Nat.cast_zero]
  rfl

theorem operationTuple_write :
    operationTuple (Vm.writeRegister registers rd timestamp value) =
      (writeTuple (timestamp : Felt) rd.toNat (u32ToLimbs (registers rd))
        (u32ToLimbs value)).toList := by
  rw [writeTuple, ← register_limbs, ← Nat.cast_zero]
  rfl

variable {limbs : Limbs Felt} (h : limbs = u32ToLimbs value)
include h

theorem immediate_tuples :
    [readTuple (timestamp : Felt) rs1.toNat (u32ToLimbs (registers rs1)),
      writeTuple (timestamp + 1) rd.toNat (u32ToLimbs (registers rd)) limbs].map
        MemoryTuple.toList =
    [Vm.readRegister registers rs1 timestamp,
      Vm.writeRegister registers rd (timestamp + 1) value].map operationTuple := by
  simp only [h, List.map_cons, List.map_nil, operationTuple_read, operationTuple_write,
    Nat.cast_succ]

theorem register_tuples :
    [readTuple (timestamp : Felt) rs1.toNat (u32ToLimbs (registers rs1)),
      readTuple (timestamp + 1) rs2.toNat (u32ToLimbs (registers rs2)),
      writeTuple (timestamp + 2) rd.toNat (u32ToLimbs (registers rd)) limbs].map
        MemoryTuple.toList =
    [Vm.readRegister registers rs1 timestamp, Vm.readRegister registers rs2 (timestamp + 1),
      Vm.writeRegister registers rd (timestamp + 2) value].map operationTuple := by
  simp only [h, List.map_cons, List.map_nil, operationTuple_read, operationTuple_write,
    Nat.cast_add, Nat.cast_one, Nat.cast_ofNat]

end Operations

/-- The result of a comparison is one bit. -/
theorem bitLimbs_ite (b : Bool) :
    bitLimbs (if b then (1 : Felt) else 0) = u32ToLimbs (Rv32i.bit b) := by
  funext i
  cases b <;> fin_cases i <;> rfl

/-- A row performs the operations of its step; a `JAL` to `x0` performs none. -/
theorem row_memory (x : Executed) :
    (x.row : InstrRow Felt).ports.memoryMultiplicity = 1 ∧
        (x.row : InstrRow Felt).ports.memory.map MemoryTuple.toList =
          x.step.memoryOps.map operationTuple ∨
      (x.row : InstrRow Felt).ports.memoryMultiplicity = 0 ∧ x.step.memoryOps = [] := by
  obtain ⟨pc, timestamp, registers, i⟩ := x
  cases i with
  | opImm op rd rs1 imm =>
    have htuples := fun value => @immediate_tuples registers rd rs1 timestamp value
    left
    cases op with
    | slti => exact ⟨rfl, htuples _ (bitLimbs_ite _)⟩
    | sltiu => exact ⟨rfl, htuples _ (bitLimbs_ite _)⟩
    | _ => exact ⟨rfl, htuples _ rfl⟩
  | shiftImm op rd rs1 shamt =>
    cases op <;> exact .inl ⟨rfl, immediate_tuples registers rd rs1 timestamp _ rfl⟩
  | opReg op rd rs1 rs2 =>
    have htuples := fun value => @register_tuples registers rd rs1 rs2 timestamp value
    left
    cases op with
    | slt => exact ⟨rfl, htuples _ (bitLimbs_ite _)⟩
    | sltu => exact ⟨rfl, htuples _ (bitLimbs_ite _)⟩
    | _ => exact ⟨rfl, htuples _ rfl⟩
  | lui rd imm =>
    exact .inl ⟨rfl, congrArg (fun t => [t]) (operationTuple_write registers rd timestamp _).symm⟩
  | auipc rd imm =>
    exact .inl ⟨rfl, congrArg (fun t => [t]) (operationTuple_write registers rd timestamp _).symm⟩
  | jalr rd rs1 imm => exact .inl ⟨rfl, immediate_tuples registers rd rs1 timestamp _ rfl⟩
  | jal rd offset =>
    by_cases hrd : rd = 0#5
    · subst hrd
      refine .inr ⟨?_, rfl⟩
      show (1 : Felt) * (1 - 1) = 0
      rw [sub_self, mul_zero]
    · have hops := Vm.loggedOps_jal pc timestamp registers hrd offset
      refine .inl ⟨?_, ?_⟩
      · show (1 : Felt) * (1 - if rd = 0#5 then 1 else 0) = 1
        rw [if_neg hrd, sub_zero, mul_one]
      · show _ = (Vm.loggedOps pc timestamp registers (.jal rd offset)).map operationTuple
        rw [hops, List.map_singleton, operationTuple_write]
        simp [Executed.row, InstrRow.ports, JalColumns.ports, jalRow, Executed.writeStep, hrd,
          Instr.result]

theorem net_row_memory (values : List Felt) (x : Executed) :
    net (x.row : InstrRow Felt).lookups .memory values =
      ((x.step.memoryOps.map operationTuple).count values : Felt) := by
  rw [InstrRow.lookups, net_ports_memory (regular _)]
  rcases row_memory x with ⟨hone, htuples⟩ | ⟨hzero, hnone⟩
  · rw [hone, htuples, mul_one]
  · rw [hzero, hnone, mul_zero]
    rfl

theorem net_rows_memory (hrun : RunOf program xs vm) (values : List Felt) :
    net ((kindTables xs).flatten.flatMap InstrRow.lookups) .memory values =
      ((vm.getMemoryOps.map operationTuple).count values : Felt) := by
  rw [net_rows, VM.getMemoryOps, hrun.trace, List.flatMap_map, List.map_flatMap, List.count_flatMap,
    Nat.cast_list_sum, List.map_map]
  congr 1
  apply List.map_congr_left
  intro x _
  exact net_row_memory values x

theorem fillFlags_rows (base : List (MemoryTuple Felt × Felt)) :
    (fillFlags base).map (fun c => (c.toMemoryTuple, c.isPadding)) = base := by
  induction base with
  | nil => rfl
  | cons row base ih =>
    cases base with
    | nil => rfl
    | cons next base => exact congrArg (row :: ·) ih

theorem net_memoryLookups (rows : List (MemoryColumns Felt)) (values : List Felt) :
    net (memoryLookups rows) .memory values = (rows.map fun c =>
      if c.toMemoryTuple.toList = values then -(1 - c.isPadding) else 0).sum := by
  have hrow : ∀ c next : MemoryColumns Felt, net (c.lookups next) .memory values =
      if c.toMemoryTuple.toList = values then -(1 - c.isPadding) else 0 := by
    intro c next
    simp only [MemoryColumns.lookups, net_cons, net_nil, send_weight, receive_weight, reduceCtorEq,
      false_and, true_and, if_false, zero_add, add_zero]
  have hfirst : (rows.zip (rows.rotate 1)).map Prod.fst = rows :=
    List.map_fst_zip (List.length_rotate rows 1).ge
  rw [memoryLookups, net_flatMap]
  conv_rhs => rw [← hfirst, List.map_map]
  congr 1
  apply List.map_congr_left
  intro pair _
  exact hrow pair.1 pair.2

/-- The memory table receives every operation once; its padding receives nothing. -/
theorem net_memory_table (ops : List MemoryOperation) (values : List Felt) :
    net (memoryLookups (fillFlags (memoryRows ops))) .memory values =
      -((ops.map operationTuple).count values : Felt) := by
  have hsum : ((memoryRows (F := Felt) ops).map fun row =>
      if row.1.toList = values then -(1 - row.2) else 0).sum =
        (((sortOps ops).map fun op => op.tuple.toList).count values : Felt) * -1 := by
    rw [memoryRows, List.map_append, List.sum_append, List.map_map, List.map_replicate, sub_self,
      neg_zero, ite_self, List.sum_replicate, smul_zero, add_zero, ← sum_ite_eq_count]
    simp only [Function.comp_def, sub_zero]
  have hperm : ((sortOps ops).map fun op => op.tuple.toList).Perm (ops.map operationTuple) := by
    apply ((List.mergeSort_perm _ _).map _).trans
    rw [List.map_map]
    rfl
  rw [← fillFlags_rows (memoryRows ops), List.map_map, mul_neg_one] at hsum
  rw [net_memoryLookups, ← hperm.count_eq]
  exact hsum

theorem net_memory (hrun : RunOf program xs vm) (values : List Felt) :
    net ((kindTables xs).flatten.flatMap InstrRow.lookups) .memory values +
      net (memoryLookups (fillFlags (memoryRows vm.getMemoryOps))) .memory values = 0 := by
  rw [net_rows_memory hrun, net_memory_table, add_neg_cancel]

end Memory

end Loquela.Completeness
