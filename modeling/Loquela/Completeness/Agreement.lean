import Loquela.Completeness.Chain
import Loquela.Completeness.Comparisons

/-! # Agreement of the lookup tables

The tables that `generate_traces` builds receive on every lookup bus what the other tables send,
and those that are built only for some kinds of instruction are there when they are needed.
-/

namespace Loquela.Completeness
open Air Library.Bus Soundness Trace
open Vm (Byte VM)

section Log

variable {program : List Byte} {xs : List Executed} {vm : VM} {n : ℕ}

/-- The interpreter only accesses registers. -/
theorem register_of_mem (h : RunOf program xs vm) :
    ∀ o ∈ vm.getMemoryOps, (MemoryOp.ofOperation o).memoryType = .register := by
  intro o ho
  rw [VM.getMemoryOps, h.trace, List.flatMap_map] at ho
  obtain ⟨x, -, ho⟩ := List.mem_flatMap.mp ho
  rcases List.mem_append.mp ho with ho | ho
  · obtain ⟨k, hk, rfl⟩ := List.mem_mapIdx.mp ho
    rfl
  · obtain ⟨value, -, rfl⟩ := Option.map_eq_some_iff.mp (Option.mem_toList.mp ho)
    rfl

theorem timestamp_of_mem (h : (VM.new program).steps n = some vm) :
    ∀ o ∈ vm.getMemoryOps, (MemoryOp.ofOperation o).timestamp < vm.timestamp := by
  intro o ho
  have htime := (Vm.log_increasing h).2 o.access (List.mem_map_of_mem ho)
  cases o <;> exact htime

end Log

section Present

variable {F : Type*} [Field F]

theorem paddingRow_id (id : InstructionId) : (paddingRow id : InstrRow F).id = id := by
  cases id <;> rfl

/-- A kind has a table only if a step of that kind is executed. -/
theorem exists_step_of_mem {xs : List Executed} {r : InstrRow F}
    (hr : r ∈ (kindTables xs).flatten) : ∃ x ∈ xs, x.kind = r.id := by
  obtain ⟨table, htable, hr⟩ := List.mem_flatten.mp hr
  obtain ⟨id, -, rfl⟩ := List.mem_map.mp htable
  rcases List.mem_append.mp hr with hr | hr
  · obtain ⟨x, hx, rfl⟩ := List.mem_map.mp hr
    exact ⟨x, (List.mem_filter.mp hx).1, (row_ports x).id.symm⟩
  · rw [kindPadding] at hr
    split_ifs at hr with hnone
    · exact absurd hr List.not_mem_nil
    · obtain ⟨x, hx⟩ := List.exists_mem_of_length_pos (Nat.pos_of_ne_zero hnone)
      obtain ⟨hx, hkind⟩ := List.mem_filter.mp hx
      rw [List.eq_of_mem_replicate hr, paddingRow_id]
      exact ⟨x, hx, of_decide_eq_true hkind⟩

/-- Checks of bytes, and of the operation of a kind. -/
def LooksUp (id : InstructionId) (checks : List (Check F)) : Prop :=
  ∀ c ∈ checks, c.1 = .bytes ∨ opBus id = some c.1

omit [Field F] in
@[simp] theorem looksUp_append (id : InstructionId) (l₁ l₂ : List (Check F)) :
    LooksUp id (l₁ ++ l₂) ↔ LooksUp id l₁ ∧ LooksUp id l₂ := List.forall_mem_append

omit [Field F] in
@[simp] theorem looksUp_byteChecks (id : InstructionId) (x : Limbs F) :
    LooksUp id (byteChecks x) := by
  simp [LooksUp, byteChecks]

omit [Field F] in
@[simp] theorem looksUp_nil (id : InstructionId) : LooksUp id ([] : List (Check F)) := nofun

omit [Field F] in
@[simp] theorem looksUp_cons (id : InstructionId) (c : Check F) (l : List (Check F)) :
    LooksUp id (c :: l) ↔ (c.1 = .bytes ∨ opBus id = some c.1) ∧ LooksUp id l :=
  List.forall_mem_cons

omit [Field F] in
@[simp] theorem looksUp_tripleChecks (id : InstructionId) (bus : BusName) (x y z : Limbs F) :
    LooksUp id (tripleChecks bus x y z) ↔ bus = .bytes ∨ opBus id = some bus := by
  simp [LooksUp, tripleChecks]

omit [Field F] in
@[simp] theorem looksUp_shiftChecks (id : InstructionId) (bus : BusName) (x : Limbs F) (k : F)
    (y z : Limbs F) :
    LooksUp id (shiftChecks bus x k y z) ↔ bus = .bytes ∨ opBus id = some bus := by
  simp [LooksUp, shiftChecks]

theorem looksUp (r : InstrRow F) : LooksUp r.id r.ports.checks := by
  cases r <;> simp [InstrRow.id, InstrRow.ports, RegisterColumns.ports, ImmediateColumns.ports,
    UpperColumns.ports, AddiColumns.ports, BitwiseImmColumns.ports, xoriPorts, oriPorts, andiPorts,
    AddColumns.ports, SubColumns.ports, BitwiseColumns.ports, xorPorts, orPorts, andPorts,
    ShiftColumns.ports, sllPorts, srlPorts, SraColumns.ports, ShiftImmColumns.ports, slliPorts,
    srliPorts, SraiColumns.ports, SltColumns.ports, SltuColumns.ports, SltiColumns.ports,
    SltiuColumns.ports, luiPorts, AuipcColumns.ports, JalColumns.ports, JalrColumns.ports,
    ShiftStages.checks, SignFill.check, opBus]

/-- Only rows of the kinds of an operation table send to it. -/
theorem exists_step_of_send {xs : List Executed} {x : Air.Interaction F}
    (hx : x ∈ (kindTables xs).flatten.flatMap InstrRow.lookups) (hbus : x.bus ∈ tableBuses)
    (hbytes : x.bus ≠ .bytes) : ∃ y ∈ xs, opBus y.kind = some x.bus := by
  obtain ⟨r, hr, hx⟩ := List.mem_flatMap.mp hx
  obtain ⟨y, hy, hkind⟩ := exists_step_of_mem hr
  refine ⟨y, hy, ?_⟩
  rw [hkind]
  rcases mem_lookups.mp hx with rfl | rfl | ⟨op, -, rfl⟩ | ⟨c, hc, rfl⟩ | rfl
  · exact absurd hbus (by decide : BusName.trace ∉ tableBuses)
  · have hdisjoint : ∀ bus ∈ decodeBuses, bus ∉ tableBuses := by decide
    exact absurd hbus (hdisjoint _ (regular r).decodeBus)
  · exact absurd hbus (by decide : BusName.memory ∉ tableBuses)
  · exact (looksUp r c hc).resolve_left hbytes
  · exact absurd hbus (by decide : BusName.trace ∉ tableBuses)

end Present

/-- The lookup tables receive what the other tables send, and those that may be absent are present
whenever something is sent to them. -/
structure TablesAgree (T : TraceSet Felt) : Prop where
  operations : ∀ bus ∈ tableBuses, ∀ values, received T.tableLookups bus values =
    sent (T.rows.flatMap InstrRow.lookups ++ programHashLookups T.programHash) bus values
  comparisons : ∀ bus ∈ [BusName.u32Lt, .timestampLt, .bytesLt], ∀ values,
    received (T.u32Lt.flatMap U32LessThanColumns.lookups ++
        T.timestampLt.flatMap TimestampLessThanColumns.lookups ++ T.tableLookups) bus values =
      sent (memoryLookups T.memory ++ T.u32Lt.flatMap U32LessThanColumns.lookups) bus values
  andPrim : (∃ r ∈ T.rows, r.id = .and) → T.andPrim.isSome
  byteSll : (∃ x ∈ T.rows.flatMap InstrRow.lookups, x.bus = .byteSll) → T.byteSll.isSome
  byteSrl : (∃ x ∈ T.rows.flatMap InstrRow.lookups, x.bus = .byteSrl) → T.byteSrl.isSome

section Agree

variable {P : Poseidon2 Felt} {program : List Byte} {xs : List Executed} {vm : VM}
  {T : TraceSet Felt} {n : ℕ}

theorem tables_only_receive (T : TraceSet Felt) :
    ∀ x ∈ T.tableLookups, x.direction ≠ .send := by
  have htable : ∀ (t : Table) (mult : ℕ → Felt), ∀ x ∈ t.lookups mult, x.direction ≠ .send := by
    intro t mult x hx
    obtain ⟨row, -, -, hdirection, -⟩ := Table.mem_lookups hx
    rw [hdirection]
    nofun
  have hoptional : ∀ (t : Table) (mult : Option (ℕ → Felt)), ∀ x ∈ t.optionalLookups mult,
      x.direction ≠ .send := by
    intro t mult
    cases mult with
    | none => nofun
    | some mult => exact htable t mult
  simp only [TraceSet.tableLookups, List.forall_mem_append]
  exact ⟨⟨⟨⟨⟨⟨⟨⟨htable _ _, htable _ _⟩, htable _ _⟩, htable _ _⟩, htable _ _⟩, htable _ _⟩,
    hoptional _ _⟩, hoptional _ _⟩, hoptional _ _⟩

theorem operations_agree (hrun : RunOf program xs vm) (hT : Built P program xs vm T) :
    ∀ bus ∈ tableBuses, ∀ values, received T.tableLookups bus values =
      sent (T.rows.flatMap InstrRow.lookups ++ programHashLookups T.programHash) bus values := by
  intro bus hbus values
  have hagree := received_eq_sent (net_tableBuses hrun hT hbus values)
  rwa [sent_append_left, received_append_right] at hagree
  · intro x hx hxbus
    rcases List.mem_append.mp hx with hx | hx
    · apply rows_only_send _ x hx hxbus
      rintro rfl
      exact absurd hbus (by decide)
    · rw [(hash_only_sends hx).1]
      nofun
  · intro x hx _
    exact tables_only_receive T x hx

/-- The tables of the memory argument balance among themselves. -/
theorem net_comparisons (hT : Built P program xs vm T)
    (hops : ∀ op ∈ sortOps vm.getMemoryOps, op.memoryType = .register ∧ op.timestamp < modulus) :
    ∀ bus ∈ [BusName.u32Lt, .timestampLt, .bytesLt], ∀ values,
      net (memoryLookups T.memory ++ T.u32Lt.flatMap U32LessThanColumns.lookups ++
        (T.timestampLt.flatMap TimestampLessThanColumns.lookups ++ T.tableLookups)) bus values =
          0 := by
  intro bus hbus values
  have hbuilt : net (builtTables vm.getMemoryOps).lookups bus values = 0 := by
    simp only [List.mem_cons, List.not_mem_nil, or_false] at hbus
    rcases hbus with rfl | rfl | rfl
    · exact net_u32Lt values
    · exact net_timestampLt hops values
    · exact net_bytesLt _ values
  have htables : net T.tableLookups bus values = net (lessThanAir.lookups T.bytesLt) bus values := by
    rw [net_tableLookups]
    simp only [List.mem_cons, List.not_mem_nil, or_false] at hbus
    rcases hbus with rfl | rfl | rfl
    · have hbus : lessThanAir.bus ≠ .u32Lt := nofun
      exact (net_table_of_ne hbus T.bytesLt values).symm
    · have hbus : lessThanAir.bus ≠ .timestampLt := nofun
      exact (net_table_of_ne hbus T.bytesLt values).symm
    · rfl
  rw [← hbuilt, builtTables, MemoryTables.lookups, ← hT.memory, ← hT.u32Lt, ← hT.timestampLt,
    ← hT.bytesLt]
  simp only [net_append, htables]
  ring

theorem comparisons_agree (hT : Built P program xs vm T)
    (hops : ∀ op ∈ sortOps vm.getMemoryOps, op.memoryType = .register ∧ op.timestamp < modulus) :
    ∀ bus ∈ [BusName.u32Lt, .timestampLt, .bytesLt], ∀ values,
      received (T.u32Lt.flatMap U32LessThanColumns.lookups ++
          T.timestampLt.flatMap TimestampLessThanColumns.lookups ++ T.tableLookups) bus values =
        sent (memoryLookups T.memory ++ T.u32Lt.flatMap U32LessThanColumns.lookups) bus values := by
  intro bus hbus values
  have hagree := received_eq_sent (net_comparisons hT hops bus hbus values)
  rw [sent_append_left, List.append_assoc, received_append_right, ← List.append_assoc] at hagree
  · exact hagree
  · intro x hx hxbus
    rcases mem_memoryLookups hx with ⟨h, -⟩ | ⟨-, h⟩
    · rw [h]
      nofun
    · rw [← hxbus, h] at hbus
      exact absurd hbus (by decide)
  · intro x hx _
    rcases List.mem_append.mp hx with hx | hx
    · rw [(mem_timestampLtLookups hx).1]
      nofun
    · exact tables_only_receive T x hx

theorem andPrim_present (hrun : RunOf program xs vm) (hT : Built P program xs vm T)
    (hsend : ∃ r ∈ T.rows, r.id = .and) : T.andPrim.isSome := by
  obtain ⟨r, hr, hid⟩ := hsend
  rw [hT.rows] at hr
  obtain ⟨x, hx, hkind⟩ := exists_step_of_mem hr
  have hand : hasKind .and vm.trace := by
    rw [hrun.trace]
    exact hasKind_iff.mpr ⟨x, hx, hkind.trans hid⟩
  rw [hT.andPrim, if_pos hand]
  rfl

theorem byteSll_present (hrun : RunOf program xs vm) (hT : Built P program xs vm T)
    (hsend : ∃ x ∈ T.rows.flatMap InstrRow.lookups, x.bus = .byteSll) : T.byteSll.isSome := by
  obtain ⟨x, hx, hbus⟩ := hsend
  rw [hT.rows] at hx
  obtain ⟨y, hy, hkind⟩ := exists_step_of_send hx (hbus ▸ by decide) (hbus ▸ nofun)
  have hshift : y.kind = .sll ∨ y.kind = .slli := by
    rw [hbus] at hkind
    revert hkind
    cases y.kind <;> simp [opBus]
  have htable : hasKind .sll vm.trace || hasKind .slli vm.trace := by
    rw [hrun.trace, Bool.or_eq_true, hasKind_iff, hasKind_iff]
    exact hshift.imp (fun h => ⟨y, hy, h⟩) fun h => ⟨y, hy, h⟩
  rw [hT.byteSll, if_pos htable]
  rfl

theorem byteSrl_present (hrun : RunOf program xs vm) (hT : Built P program xs vm T)
    (hsend : ∃ x ∈ T.rows.flatMap InstrRow.lookups, x.bus = .byteSrl) : T.byteSrl.isSome := by
  obtain ⟨x, hx, hbus⟩ := hsend
  rw [hT.rows] at hx
  obtain ⟨y, hy, hkind⟩ := exists_step_of_send hx (hbus ▸ by decide) (hbus ▸ nofun)
  have hshift : ((y.kind = .srl ∨ y.kind = .sra) ∨ y.kind = .srli) ∨ y.kind = .srai := by
    rw [hbus] at hkind
    revert hkind
    cases y.kind <;> simp [opBus]
  have htable : hasKind .srl vm.trace || hasKind .sra vm.trace || hasKind .srli vm.trace ||
      hasKind .srai vm.trace := by
    simp only [hrun.trace, Bool.or_eq_true, hasKind_iff]
    apply hshift.imp _ fun h => ⟨y, hy, h⟩
    apply Or.imp _ fun h => ⟨y, hy, h⟩
    exact Or.imp (fun h => ⟨y, hy, h⟩) fun h => ⟨y, hy, h⟩
  rw [hT.byteSrl, if_pos htable]
  rfl

end Agree

/-- The tables that `generate_traces` builds for a completed run agree with what is sent to them. -/
theorem tables_agree (P : Poseidon2 Felt) (program : List Byte) (fuel : ℕ) (vm : VM)
    (hrun : (VM.new program).run fuel = some vm) (hops : vm.getMemoryOps ≠ [])
    (htime : vm.timestamp < 2 ^ 24) :
    ∃ T, generateTraces P fuel program = some T ∧ TablesAgree T := by
  obtain ⟨n, hn⟩ := steps_of_run hrun
  obtain ⟨xs, hxs⟩ := exists_runOf hn
  obtain ⟨T, hgenerate, hT⟩ := exists_built P hxs hops
  have hlog : ∀ op ∈ sortOps vm.getMemoryOps,
      op.memoryType = .register ∧ op.timestamp < modulus := by
    intro op hop
    obtain ⟨o, ho, rfl⟩ := mem_sortOps.mp hop
    refine ⟨register_of_mem hxs o ho, ?_⟩
    calc (MemoryOp.ofOperation o).timestamp < vm.timestamp := timestamp_of_mem hn o ho
      _ < 2 ^ 24 := htime
      _ ≤ modulus := by norm_num
  refine ⟨T, ?_, ⟨operations_agree hxs hT, comparisons_agree hT hlog, andPrim_present hxs hT,
    byteSll_present hxs hT, byteSrl_present hxs hT⟩⟩
  rw [generateTraces, hrun]
  exact hgenerate

/-- `addi x1, x0, 5`, then `sll x2, x1, x1` and `and x3, x1, x2`. -/
def shiftsAndMasks : List Byte :=
  [0x93, 0x00, 0x50, 0x00, 0x33, 0x91, 0x10, 0x00, 0xB3, 0xF1, 0x20, 0x00]

theorem tables_agree_shiftsAndMasks :
    ∃ T, generateTraces ⟨id, id, 0, 0, 0⟩ 4 shiftsAndMasks = some T ∧ TablesAgree T := by
  have hrun : (VM.new shiftsAndMasks).run 4 = some _ := rfl
  exact tables_agree _ shiftsAndMasks 4 _ hrun (by decide) (by decide)

end Loquela.Completeness
