import Loquela.Soundness.Fetch
import Loquela.Soundness.ProgramHash

/-! # The buses of a trace set

Which buses each table talks on, and with that, between which tables each bus is balanced.
-/

namespace Loquela.Soundness
open Air Library Library.Bus

variable {F : Type*} [Field F]

section Tables

theorem rows_bus (rows : List (InstrRow F)) : ∀ x ∈ rows.flatMap InstrRow.lookups,
    x.bus ∈ .trace :: .memory :: (decodeBuses ++ tableBuses) := by
  intro x hx
  obtain ⟨r, -, hx⟩ := List.mem_flatMap.mp hx
  exact bus_mem (regular r) hx

theorem boundaries_bus (t : BoundaryTrace F) :
    ∀ x ∈ boundariesLookups t, x.bus ∈ [BusName.trace] := by
  simp [boundariesLookups, List.ofFn_succ, send, receive]

theorem decode_bus (decode : List (DecodeColumns F)) :
    ∀ x ∈ decode.flatMap DecodeColumns.lookups, x.bus ∈ .program :: decodeBuses := by
  intro x hx
  obtain ⟨d, -, hx⟩ := List.mem_flatMap.mp hx
  rcases decode_mem_lookups.mp hx with ⟨k, rfl⟩ | rfl | rfl | rfl
  · exact .head _
  · exact .tail _ (.head _)
  · exact .tail _ (.tail _ (.head _))
  · exact .tail _ (.tail _ (.tail _ (.head _)))

theorem memory_bus (memory : List (MemoryColumns F)) :
    ∀ x ∈ memoryLookups memory, x.bus ∈ [BusName.u32Lt, .timestampLt, .memory] := by
  intro x hx
  obtain ⟨pair, -, hx⟩ := List.mem_flatMap.mp hx
  simp only [MemoryColumns.lookups, List.mem_cons, List.not_mem_nil, or_false] at hx
  rcases hx with rfl | rfl | rfl
  · exact .head _
  · exact .tail _ (.head _)
  · exact .tail _ (.tail _ (.head _))

theorem program_bus (program : List (ProgramColumns F)) :
    ∀ x ∈ programLookups program, x.bus ∈ [BusName.program, .programImage] := by
  intro x hx
  obtain ⟨c, -, rfl | rfl⟩ := program_mem_lookups.mp hx
  · exact .head _
  · exact .tail _ (.head _)

theorem hash_bus (hash : List (ProgramHashColumns F)) :
    ∀ x ∈ programHashLookups hash, x.bus ∈ hashBuses := by
  intro x hx
  obtain ⟨c, -, ⟨i, rfl⟩ | ⟨i, rfl⟩ | rfl⟩ := hash_mem_lookups.mp hx
  · exact .head _
  · exact .tail _ (.head _)
  · exact .tail _ (.tail _ (.head _))

theorem chip_bus (chip : List (Poseidon2Columns F)) :
    ∀ x ∈ chip.flatMap Poseidon2Columns.lookups, x.bus ∈ [BusName.poseidon2Perm] := by
  intro x hx
  obtain ⟨c, -, hx⟩ := List.mem_flatMap.mp hx
  rw [List.mem_singleton.mp hx]
  exact .head _

omit [Field F] in
theorem u32Lt_bus (rows : List (U32LessThanColumns F)) :
    ∀ x ∈ rows.flatMap U32LessThanColumns.lookups, x.bus ∈ [BusName.bytesLt, .u32Lt] := by
  intro x hx
  obtain ⟨c, -, hx⟩ := List.mem_flatMap.mp hx
  rcases List.mem_append.mp hx with hx | hx
  · obtain ⟨i, rfl⟩ := List.mem_ofFn.mp hx
    exact .head _
  · rw [List.mem_singleton.mp hx]
    exact .tail _ (.head _)

omit [Field F] in
theorem timestampLt_bus (rows : List (TimestampLessThanColumns F)) :
    ∀ x ∈ rows.flatMap TimestampLessThanColumns.lookups, x.bus ∈ [BusName.timestampLt] := by
  intro x hx
  obtain ⟨c, -, hx⟩ := List.mem_flatMap.mp hx
  rw [List.mem_singleton.mp hx]
  exact .head _

theorem tables_bus (T : TraceSet F) : ∀ x ∈ T.tableLookups, x.bus ∈ .bytesLt :: tableBuses := by
  have htable : ∀ {t : Table} (mult : ℕ → F), t.bus ∈ .bytesLt :: tableBuses →
      ∀ x ∈ t.lookups mult, x.bus ∈ .bytesLt :: tableBuses := by
    intro t mult ht x hx
    obtain ⟨row, -, hbus, -⟩ := Table.mem_lookups hx
    rwa [hbus]
  have hoptional : ∀ {t : Table} (mult : Option (ℕ → F)), t.bus ∈ .bytesLt :: tableBuses →
      ∀ x ∈ t.optionalLookups mult, x.bus ∈ .bytesLt :: tableBuses := by
    intro t mult ht
    cases mult with
    | none => nofun
    | some mult => exact htable mult ht
  simp only [TraceSet.tableLookups, List.forall_mem_append]
  exact ⟨⟨⟨⟨⟨⟨⟨⟨htable _ (by decide), htable _ (by decide)⟩, htable _ (by decide)⟩,
    htable _ (by decide)⟩, htable _ (by decide)⟩, htable _ (by decide)⟩,
    hoptional _ (by decide)⟩, hoptional _ (by decide)⟩, hoptional _ (by decide)⟩

end Tables

section Net

variable [DecidableEq F] (T : TraceSet F)

/-- The tables that exchange tuples on each bus. -/
theorem net_traceSet (bus : BusName) (values : List F) : net T.lookups bus values =
    match bus with
    | .trace => net (T.rows.flatMap InstrRow.lookups) .trace values +
        net (boundariesLookups T.boundaries) .trace values
    | .decode | .decodeU | .decodeJ => net (T.rows.flatMap InstrRow.lookups) bus values +
        net (T.decode.flatMap DecodeColumns.lookups) bus values
    | .program => net (T.decode.flatMap DecodeColumns.lookups) .program values +
        net (programLookups T.program) .program values
    | .programImage => net (programLookups T.program) .programImage values +
        net (programHashLookups T.programHash) .programImage values
    | .memory => net (T.rows.flatMap InstrRow.lookups) .memory values +
        net (memoryLookups T.memory) .memory values
    | .bytes => net (T.rows.flatMap InstrRow.lookups) .bytes values +
        net (programHashLookups T.programHash) .bytes values + net T.tableLookups .bytes values
    | .bytesXor | .bytesOr | .bytesAnd | .byteSll | .byteSrl =>
        net (T.rows.flatMap InstrRow.lookups) bus values + net T.tableLookups bus values
    | .u32Lt => net (memoryLookups T.memory) .u32Lt values +
        net (T.u32Lt.flatMap U32LessThanColumns.lookups) .u32Lt values
    | .timestampLt => net (memoryLookups T.memory) .timestampLt values +
        net (T.timestampLt.flatMap TimestampLessThanColumns.lookups) .timestampLt values
    | .bytesLt => net (T.u32Lt.flatMap U32LessThanColumns.lookups) .bytesLt values +
        net T.tableLookups .bytesLt values
    | .poseidon2Perm => net (programHashLookups T.programHash) .poseidon2Perm values +
        net (T.poseidon2Chip.flatMap Poseidon2Columns.lookups) .poseidon2Perm values := by
  have hrows (h : bus ∉ .trace :: .memory :: (decodeBuses ++ tableBuses)) :=
    net_of_notMem (rows_bus T.rows) h values
  have hboundaries (h : bus ∉ [.trace]) := net_of_notMem (boundaries_bus T.boundaries) h values
  have hdecode (h : bus ∉ .program :: decodeBuses) := net_of_notMem (decode_bus T.decode) h values
  have hmemory (h : bus ∉ [.u32Lt, .timestampLt, .memory]) :=
    net_of_notMem (memory_bus T.memory) h values
  have hprogram (h : bus ∉ [.program, .programImage]) :=
    net_of_notMem (program_bus T.program) h values
  have hhash (h : bus ∉ hashBuses) := net_of_notMem (hash_bus T.programHash) h values
  have hchip (h : bus ∉ [.poseidon2Perm]) := net_of_notMem (chip_bus T.poseidon2Chip) h values
  have hu32Lt (h : bus ∉ [.bytesLt, .u32Lt]) := net_of_notMem (u32Lt_bus T.u32Lt) h values
  have htimestampLt (h : bus ∉ [.timestampLt]) :=
    net_of_notMem (timestampLt_bus T.timestampLt) h values
  have htables (h : bus ∉ .bytesLt :: tableBuses) := net_of_notMem (tables_bus T) h values
  simp only [TraceSet.lookups, net_append]
  cases bus <;> simp [decodeBuses, tableBuses, hashBuses] at * <;>
    simp only [*, add_zero, zero_add]

end Net

end Loquela.Soundness
