import Loquela.Soundness.Rows

/-! # The memory operations of the rows

The operations of a row are on registers, one in every time step it takes. Replaying those of a
step leaves the register file after it in memory, and the memory table of an accepted trace set
is about the operations of its real rows.
-/

namespace Loquela.Soundness
open Air Completeness Library Library.Bus Library.Replay Trace
open Rv32i hiding bit
open Vm (loggedOps U32 VM Registers)

/-- One operation for every time step. -/
theorem memory_timestamps (r : InstrRow Felt) : r.ports.memory.map MemoryTuple.timestamp =
    (List.range r.ports.ticks).map fun k : ℕ => r.ports.timestamp + (k : Felt) := by
  have hone : ∀ t : Felt, [t] = (List.range 1).map fun k : ℕ => t + (k : Felt) := by
    intro t
    simp
  have htwo : ∀ t : Felt, [t, t + 1] = (List.range 2).map fun k : ℕ => t + (k : Felt) := by
    intro t
    simp [List.range_succ]
  have hthree : ∀ t : Felt, [t, t + 1, t + 2] =
      (List.range 3).map fun k : ℕ => t + (k : Felt) := by
    intro t
    simp [List.range_succ]
  cases r with
  | lui c | auipc c | jal c => exact hone _
  | add c | sub c | xor c | or c | and c | sll c | srl c | sra c | slt c | sltu c =>
    exact hthree _
  | _ => exact htwo _

/-- The operations of a row come at increasing times while it lasts. -/
theorem rowOps_times {r : InstrRow Felt} {n : ℕ} (htime : r.ports.timestamp = (n : Felt))
    (hlt : n + r.ports.ticks ≤ modulus) :
    (((rowOps r).map access).Pairwise fun x y => x.time < y.time) ∧
      ∀ x ∈ (rowOps r).map access, n ≤ x.time ∧ x.time < n + r.ports.ticks := by
  have htimes : (r.ports.memory.map access).map Access.time =
      (List.range r.ports.ticks).map fun k => n + k := by
    have hval : ∀ k ∈ List.range r.ports.ticks, (r.ports.timestamp + (k : Felt)).val = n + k := by
      intro k hk
      rw [List.mem_range] at hk
      rw [htime, ← Nat.cast_add, ZMod.val_natCast_of_lt (by omega)]
    have hmap := congrArg (List.map ZMod.val) (memory_timestamps r)
    rw [List.map_map, List.map_map] at hmap
    rw [← List.map_congr_left hval, List.map_map]
    exact hmap
  rw [rowOps]
  split_ifs
  · constructor
    · rw [← List.pairwise_map, htimes, List.pairwise_map]
      exact List.pairwise_lt_range.imp fun h => Nat.add_lt_add_left h n
    · intro x hx
      have hmem := List.mem_map_of_mem (f := Access.time) hx
      rw [htimes] at hmem
      obtain ⟨k, hk, heq⟩ := List.mem_map.mp hmem
      rw [List.mem_range] at hk
      omega
  · exact ⟨.nil, by simp⟩

/-- A row accesses registers only. -/
theorem memory_addresses {wd : U32} {r : InstrRow Felt} (hoperands : OperandsOf wd r) :
    ∀ op ∈ r.ports.memory, ∃ reg : Reg, op.address = registerAddress (reg.toNat : Felt) := by
  have hfields : ∀ {d s₁ : Felt} {rest : List Felt} {n₁ n₂ : ℕ} {ns : List ℕ},
      d :: s₁ :: rest = (n₁ :: n₂ :: ns).map (fun n : ℕ => (n : Felt)) →
        d = n₁ ∧ s₁ = n₂ ∧ rest = ns.map fun n : ℕ => (n : Felt) :=
    fun h => ⟨(List.cons.inj h).1, (List.cons.inj (List.cons.inj h).2).1,
      (List.cons.inj (List.cons.inj h).2).2⟩
  rw [OperandsOf, operands_instrOf] at hoperands
  intro op hop
  cases r with
  | lui c | auipc c | jal c =>
    rw [List.mem_singleton.mp hop]
    exact ⟨_, congrArg registerAddress (hfields hoperands).1⟩
  | add c | sub c | xor c | or c | and c | sll c | srl c | sra c | slt c | sltu c =>
    obtain ⟨hrd, hrs1, hrs2⟩ := hfields hoperands
    rcases List.mem_cons.mp hop with rfl | hop
    · exact ⟨_, congrArg registerAddress hrs1⟩
    · rcases List.mem_cons.mp hop with rfl | hop
      · exact ⟨_, congrArg registerAddress (List.cons.inj hrs2).1⟩
      · rw [List.mem_singleton.mp hop]
        exact ⟨_, congrArg registerAddress hrd⟩
  | _ =>
    obtain ⟨hrd, hrs1, -⟩ := hfields hoperands
    rcases List.mem_cons.mp hop with rfl | hop
    · exact ⟨_, congrArg registerAddress hrs1⟩
    · rw [List.mem_singleton.mp hop]
      exact ⟨_, congrArg registerAddress hrd⟩

theorem cell_injective : Function.Injective cell := by
  intro r s h
  have hlimb := congrFun (congrArg Prod.snd h) 0
  have hr := r.isLt
  have hs := s.isLt
  exact BitVec.eq_of_toNat_eq (nat_eq_of_cast (by omega) (by omega) hlimb)

section Replay

variable {m : Felt × Limbs Felt → Limbs Felt}

theorem holds_update {x : Registers} (hm : Holds m x) (rd : Reg) (v : U32) :
    Holds (Function.update m (cell rd) (u32ToLimbs v)) (Function.update x rd v) := by
  intro r
  by_cases hr : r = rd
  · rw [hr, Function.update_self, Function.update_self]
  · rw [Function.update_of_ne (cell_injective.ne hr), Function.update_of_ne hr, hm r]

/-- The operations of a step leave the register file after it in memory, unless it is a jump that
logs a write to `x0` which it does not perform. -/
theorem holds_after {vm : VM} {i : Instr} (next : U32) (hm : Holds m vm.registers)
    (hjalr : ∀ rs1 imm, i ≠ .jalr 0 rs1 imm) :
    Holds (replay m (((loggedOps vm.pc vm.timestamp vm.registers i).map opTuple).map access))
      (vm.after i next).registers := by
  have hreads : ∀ y ∈ ((i.sources.mapIdx fun k r =>
      Vm.readRegister vm.registers r (vm.timestamp + k)).map opTuple).map access,
        y.read = m y.address ∧ y.write = m y.address := by
    intro y hy
    obtain ⟨op, hop, rfl⟩ := List.mem_map.mp hy
    obtain ⟨o, ho, rfl⟩ := List.mem_map.mp hop
    obtain ⟨k, hk, rfl⟩ := List.mem_mapIdx.mp ho
    rw [opTuple_read]
    exact ⟨(hm _).symm, (hm _).symm⟩
  rw [loggedOps, List.map_append, List.map_append, replay_append, (coherent_reads hreads).2,
    Vm.after_registers]
  by_cases hjump : i.isJump ∧ i.rd = 0
  · rw [if_pos hjump]
    cases i with
    | jal rd offset =>
      obtain rfl : rd = 0 := hjump.2
      exact hm
    | jalr rd rs1 imm =>
      obtain rfl : rd = 0 := hjump.2
      exact absurd rfl (hjalr rs1 imm)
    | _ => cases hjump.1
  · rw [if_neg hjump, Vm.loggedWrite_of_not_jump hjump]
    have hwrite := holds_update hm i.rd (i.result vm.pc vm.registers)
    simp only [Option.map_some, Option.toList_some, List.map_cons, List.map_nil, opTuple_write,
      replay_cons, replay_nil]
    exact hwrite

end Replay

section Tables

variable {P : Poseidon2 Felt} {T : TraceSet Felt}

/-- Operations are gated by `is_dummy`, those of `JAL` also by its is-zero flag. -/
theorem multiplicity_boolean {r : InstrRow Felt} (h : r.eval) :
    (r.ports.memoryMultiplicity = 0 ∨ r.ports.memoryMultiplicity = 1) ∧
      (r.ports.memoryMultiplicity = 1 → r.ports.isDummy = 1) := by
  have hdummy := InstrRow.isDummy_of_eval h
  by_cases hjal : r.ports.id = .jal
  · cases r with
    | jal c =>
      have hdummy : c.isDummy = 0 ∨ c.isDummy = 1 := hdummy
      have hmult : (InstrRow.jal c).ports.memoryMultiplicity = c.isDummy * (1 - c.rdIsZero) := rfl
      have hone : (InstrRow.jal c).ports.isDummy = c.isDummy := rfl
      rw [hmult, hone]
      rcases hdummy with hzero | hone
      · rw [hzero, zero_mul]
        exact ⟨.inl rfl, fun h => absurd h zero_ne_one⟩
      · rw [hone, one_mul]
        rcases assertBool_iff.mp h.2.2.2.2.2.1 with hflag | hflag <;> simp [hflag]
    | _ => cases hjal
  · rw [multiplicity_eq_isDummy_of_ne hjal]
    exact ⟨hdummy, id⟩

/-- What a row puts on the memory bus is one send for each of its operations. -/
theorem net_rowOps {r : InstrRow Felt} (h : r.eval) (values : List Felt) :
    net r.lookups .memory values = net (memorySends (rowOps r)) .memory values := by
  rw [InstrRow.lookups, net_ports_memory (regular r), rowOps]
  rcases (multiplicity_boolean h).1 with hzero | hone
  · rw [hzero, mul_zero, if_neg zero_ne_one]
    rfl
  · rw [hone, mul_one, if_pos rfl, memorySends, net, List.map_map,
      ← mul_one ((List.count values (r.ports.memory.map MemoryTuple.toList) : ℕ) : Felt),
      ← sum_ite_eq_count]
    simp only [Function.comp_def, send_weight, true_and]

/-- Padding rows have no operations. -/
theorem flatMap_rowOps {rows : List (InstrRow Felt)} (heval : ∀ r ∈ rows, r.eval) :
    rows.flatMap rowOps = (realRows rows).flatMap rowOps := by
  induction rows with
  | nil => rfl
  | cons r rows ih =>
    have ih := ih fun r' hr' => heval r' (List.mem_cons_of_mem r hr')
    rw [List.flatMap_cons, ih]
    by_cases hreal : r.isDummy = 1
    · simp [realRows, hreal]
    · have hnone : rowOps r = [] := by
        rw [rowOps, if_neg]
        exact fun hone => hreal ((multiplicity_boolean (heval r List.mem_cons_self)).2 hone)
      simp [realRows, hreal, hnone]

theorem net_rowsOps {rows : List (InstrRow Felt)} (heval : ∀ r ∈ rows, r.eval) (values : List Felt) :
    net (rows.flatMap InstrRow.lookups) .memory values =
      net (memorySends ((realRows rows).flatMap rowOps)) .memory values := by
  rw [← flatMap_rowOps heval, memorySends, List.map_flatMap, net_flatMap, net_flatMap]
  congr 1
  exact List.map_congr_left fun r hr => net_rowOps (heval r hr) values

/-- A row has an interaction for each operation and at least three more. -/
theorem length_lookups_ge (r : InstrRow Felt) : (rowOps r).length + 3 ≤ r.lookups.length := by
  have hops : (rowOps r).length ≤ r.ports.memory.length := by
    rw [rowOps]
    split_ifs <;> simp
  simp only [InstrRow.lookups, RowPorts.lookups, List.length_append, List.length_cons,
    List.length_nil, List.length_map]
  omega

theorem length_rows_ge (rows : List (InstrRow Felt)) :
    (rows.flatMap rowOps).length + 3 * rows.length ≤ (rows.flatMap InstrRow.lookups).length := by
  induction rows with
  | nil => simp
  | cons r rows ih =>
    have hrow := length_lookups_ge r
    simp only [List.flatMap_cons, List.length_append, List.length_cons]
    omega

theorem length_realRows_lt (h : T.Accepted P) : 3 * (realRows T.rows).length + 1 < modulus := by
  have hrows := length_rows_ge T.rows
  have hreal : (realRows T.rows).length ≤ T.rows.length := List.length_filter_le _ _
  have htable : (bytesAir.lookups T.bytes).length = 256 := by
    rw [Table.length_lookups, bytesAir, List.length_map, List.length_range]
  have hlt := h.interactions
  simp only [TraceSet.lookups, TraceSet.tableLookups, List.length_append, htable] at hlt
  omega

/-- The tables of the memory argument. -/
def memoryTables (T : TraceSet Felt) : MemoryTables Felt :=
  ⟨T.memory, T.u32Lt, T.timestampLt, T.bytesLt⟩

/-- The memory argument of an accepted trace set is about the operations of its real rows. -/
theorem memoryTables_accepts (h : T.Accepted P) :
    (memoryTables T).Accepts ((realRows T.rows).flatMap rowOps) := by
  refine ⟨⟨h.eval.memory, h.eval.u32Lt, h.eval.timestampLt⟩, ?_, ?_⟩
  · intro bus hbus values
    have hnet := (net_traceSet T bus values).symm.trans (h.balanced bus values)
    have hmemory (hne : bus ∉ [.u32Lt, .timestampLt, .memory]) :=
      net_of_notMem (memory_bus T.memory) hne values
    have hu32Lt (hne : bus ∉ [.bytesLt, .u32Lt]) := net_of_notMem (u32Lt_bus T.u32Lt) hne values
    have htimestampLt (hne : bus ∉ [.timestampLt]) :=
      net_of_notMem (timestampLt_bus T.timestampLt) hne values
    have htable (hne : lessThanAir.bus ≠ bus) := net_table_of_ne hne T.bytesLt values
    have hsends (hne : bus ≠ .memory) :=
      net_memorySends_of_ne hne ((realRows T.rows).flatMap rowOps) values
    simp only [MemoryTables.lookups, memoryTables, net_append]
    simp only [List.mem_cons, List.not_mem_nil, or_false] at hbus
    rcases hbus with rfl | rfl | rfl | rfl
    · rw [hu32Lt (by decide), htimestampLt (by decide), htable (by decide), ← net_rowsOps h.eval.rows]
      simpa using hnet
    · rw [hsends (by decide), hu32Lt (by decide), htable (by decide)]
      simpa using hnet
    · rw [hsends (by decide), htimestampLt (by decide), htable (by decide)]
      simpa using hnet
    · rw [hsends (by decide), htimestampLt (by decide), hmemory (by decide)]
      simpa [net_tableLookups] using hnet
  · have hlt := h.interactions
    have hrows := length_rows_ge T.rows
    rw [flatMap_rowOps h.eval.rows] at hrows
    have htable : (lessThanAir.lookups T.bytesLt).length ≤ T.tableLookups.length := by
      simp only [TraceSet.tableLookups, List.length_append]
      omega
    simp only [TraceSet.lookups, List.length_append] at hlt
    simp only [MemoryTables.lookups, memoryTables, memorySends, List.length_append, List.length_map]
    omega

end Tables

end Loquela.Soundness
