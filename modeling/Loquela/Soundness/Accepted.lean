import Loquela.Completeness.RowBuses
import Loquela.Soundness.Binding
import Loquela.Soundness.Memory

/-! # Tables of an accepted trace set

What one table of an accepted trace set may take from the others: the lookups of the real rows
are rows of the fixed tables, the binding of rows to the ROM, and the memory argument.
-/

namespace Loquela.Soundness
open Air Completeness Library Library.Bus Library.Replay

variable {P : Poseidon2 Felt} {T : TraceSet Felt}

theorem real_eval (h : T.Accepted P) {r : InstrRow Felt} (hr : r ∈ realRows T.rows) : r.eval :=
  h.eval.rows r (List.mem_filter.mp hr).1

theorem real_isDummy {r : InstrRow Felt} (hr : r ∈ realRows T.rows) : r.ports.isDummy = 1 :=
  of_decide_eq_true (List.mem_filter.mp hr).2

section Lookups

/-- The fixed tables, each on a bus of its own. -/
def fixedTables : List Table :=
  [bytesAir, andAir, orAir, xorAir, lessThanAir, byteShiftLeftAir, byteShiftRightAir]

theorem fixedTables_bus {t t' : Table} (ht : t ∈ fixedTables) (ht' : t' ∈ fixedTables)
    (hbus : t.bus = t'.bus) : t = t' := by
  have hnodup : (fixedTables.map Table.bus).Nodup := by decide
  exact List.inj_on_of_nodup_map hnodup ht ht' hbus

/-- What the tables receive on the bus of a table are rows of it. -/
theorem row_of_tableLookups {t : Table} (ht : t ∈ fixedTables) {x : Interaction Felt}
    (hx : x ∈ T.tableLookups) (hbus : x.bus = t.bus) :
    x.direction = .receive ∧ ∃ row ∈ t.rows, x.values = row.map Nat.cast := by
  have htable : ∀ {t' : Table} {mult : ℕ → Felt}, t' ∈ fixedTables → x ∈ t'.lookups mult →
      x.direction = .receive ∧ ∃ row ∈ t.rows, x.values = row.map Nat.cast := by
    intro t' mult ht' hx
    obtain ⟨row, hrow, hxbus, hreceive, hvalues⟩ := Table.mem_lookups hx
    obtain rfl := fixedTables_bus ht ht' (hbus.symm.trans hxbus)
    exact ⟨hreceive, row, hrow, hvalues⟩
  have hoptional : ∀ {t' : Table} {mult : Option (ℕ → Felt)}, t' ∈ fixedTables →
      x ∈ t'.optionalLookups mult →
        x.direction = .receive ∧ ∃ row ∈ t.rows, x.values = row.map Nat.cast := by
    intro t' mult ht' hx
    cases mult with
    | none => cases hx
    | some mult => exact htable ht' hx
  simp only [TraceSet.tableLookups, List.mem_append] at hx
  rcases hx with (((((((hx | hx) | hx) | hx) | hx) | hx) | hx) | hx) | hx
  · exact htable (by simp [fixedTables]) hx
  · exact htable (by simp [fixedTables]) hx
  · exact htable (by simp [fixedTables]) hx
  · exact htable (by simp [fixedTables]) hx
  · exact htable (by simp [fixedTables]) hx
  · exact htable (by simp [fixedTables]) hx
  · exact hoptional (by simp [fixedTables]) hx
  · exact hoptional (by simp [fixedTables]) hx
  · exact hoptional (by simp [fixedTables]) hx

/-- Who talks on the buses of the tables. -/
theorem mem_tableBuses {x : Interaction Felt} (hx : x ∈ T.lookups) (hbus : x.bus ∈ tableBuses) :
    (∃ r ∈ T.rows, x ∈ r.lookups) ∨ x ∈ programHashLookups T.programHash ∨
      x ∈ T.tableLookups := by
  have hnone : ∀ {l : List (Interaction Felt)} {buses : List BusName},
      (∀ x ∈ l, x.bus ∈ buses) → (∀ bus ∈ tableBuses, bus ∉ buses) → x ∉ l :=
    fun h hdisjoint hmem => hdisjoint _ hbus (h x hmem)
  have hboundaries := hnone (boundaries_bus T.boundaries) (by decide)
  have hdecode := hnone (decode_bus T.decode) (by decide)
  have hmemory := hnone (memory_bus T.memory) (by decide)
  have hprogram := hnone (program_bus T.program) (by decide)
  have hchip := hnone (chip_bus T.poseidon2Chip) (by decide)
  have hu32Lt := hnone (u32Lt_bus T.u32Lt) (by decide)
  have htimestampLt := hnone (timestampLt_bus T.timestampLt) (by decide)
  simp only [TraceSet.lookups, List.mem_append, hboundaries, hdecode, hmemory, hprogram, hchip,
    hu32Lt, htimestampLt, or_false] at hx
  rcases hx with (hx | hx) | hx
  · exact .inl (List.mem_flatMap.mp hx)
  · exact .inr (.inl hx)
  · exact .inr (.inr hx)

/-- A real row looks up rows of the tables only. -/
theorem sendsRows_of_accepted (h : T.Accepted P) {r : InstrRow Felt} (hr : r ∈ realRows T.rows)
    {t : Table} (ht : t ∈ fixedTables) : SendsRows t r.ports.checks := by
  intro c hc hcbus
  have hbus : t.bus ∈ tableBuses := hcbus ▸ (regular r).checks c hc
  have hboolean : ∀ x ∈ T.lookups, x.bus = t.bus → x.direction = .send → x.values = c.2 →
      x.multiplicity = 0 ∨ x.multiplicity = 1 := by
    intro x hx hxbus hsend _
    rcases mem_tableBuses hx (hxbus ▸ hbus) with ⟨r', hr', hx⟩ | hx | hx
    · rw [multiplicity_eq_isDummy hx (hxbus ▸ ne_of_mem_of_not_mem hbus (by decide))]
      exact InstrRow.isDummy_of_eval (h.eval.rows r' hr')
    · exact hash_boolean (fun _ hc => Prefix.exists_next_of_zip_rotate h.eval.programHash.1 hc) hx
    · exact absurd (hsend.symm.trans (row_of_tableLookups ht hx hxbus).1) (by decide)
  have hsent : c.2 ∈ selected .send t.bus T.lookups := by
    refine mem_selected.mpr ⟨send c.1 c.2 r.ports.isDummy, ?_, hcbus, rfl, real_isDummy hr, rfl⟩
    simp only [TraceSet.lookups, List.append_assoc]
    apply List.mem_append_left
    refine List.mem_flatMap.mpr ⟨r, (List.mem_filter.mp hr).1, ?_⟩
    exact mem_lookups.mpr (.inr (.inr (.inr (.inl ⟨c, hc, rfl⟩))))
  obtain ⟨x, hx, hxbus, hreceive, hvalues, -⟩ := exists_receive (p := modulus) hboolean
    ((length_selected_le _).trans_lt h.interactions) (h.balanced t.bus c.2) hsent
  rw [← hvalues]
  rcases mem_tableBuses hx (hxbus ▸ hbus) with ⟨r', -, hx⟩ | hx | hx
  · have htrace := bus_eq_trace_of_receive hx hreceive
    exact absurd (hxbus.symm.trans htrace) (ne_of_mem_of_not_mem hbus (by decide))
  · exact absurd (hreceive.symm.trans (hash_direction hx)) (by decide)
  · exact (row_of_tableLookups ht hx hxbus).2

/-- In particular its range checks are met. -/
theorem sendsBytes_of_accepted (h : T.Accepted P) {r : InstrRow Felt}
    (hr : r ∈ realRows T.rows) : SendsBytes r.ports.checks := by
  intro c hc hbus
  have ht : bytesAir ∈ fixedTables := .head _
  obtain ⟨row, hrow, hvalues⟩ := sendsRows_of_accepted h hr ht c hc hbus
  obtain ⟨b, hb, rfl⟩ := mem_bytesAir.mp hrow
  exact ⟨b, hb, hvalues⟩

end Lookups

section Binding

/-- The instruction rows with the tables they are decoded by. -/
def bindingTables (T : TraceSet Felt) : BindingTables Felt := ⟨T.rows, T.decode, T.program⟩

theorem bindingTables_eval (h : T.Accepted P) : (bindingTables T).Eval :=
  ⟨h.eval.rows, h.eval.decode, h.eval.program⟩

theorem bindingTables_length (h : T.Accepted P) : (bindingTables T).lookups.length < modulus := by
  have hlength := h.interactions
  simp only [TraceSet.lookups, List.length_append] at hlength
  simp only [BindingTables.lookups, bindingTables, List.length_append]
  omega

theorem bindingTables_balanced (h : T.Accepted P) : ∀ bus ∈ bindingBuses, ∀ values,
    net (bindingTables T).lookups bus values = 0 := by
  intro bus hbus values
  have hnet := (net_traceSet T bus values).symm.trans (h.balanced bus values)
  have hrows : net (T.rows.flatMap InstrRow.lookups) .program values = 0 :=
    net_of_notMem (rows_bus T.rows) (by decide) values
  have hrom : ∀ {bus}, bus ∉ [BusName.program, .programImage] →
      net (programLookups T.program) bus values = 0 :=
    fun hbus => net_of_notMem (program_bus T.program) hbus values
  simp only [BindingTables.lookups, bindingTables, net_append]
  simp only [bindingBuses, decodeBuses, List.mem_cons, List.not_mem_nil, or_false] at hbus
  rcases hbus with rfl | rfl | rfl | rfl
  · rw [hrows, zero_add]
    exact hnet
  · rw [hrom (by decide), add_zero]
    exact hnet
  · rw [hrom (by decide), add_zero]
    exact hnet
  · rw [hrom (by decide), add_zero]
    exact hnet

theorem program_length_lt (h : T.Accepted P) : T.program.length < modulus := by
  have hlookups := (bindingTables T).length_lookups
  have hlt := bindingTables_length h
  simp only [bindingTables] at hlookups hlt
  omega

theorem decode_length_lt (h : T.Accepted P) : 4 * T.decode.length < modulus := by
  have hlookups := (bindingTables T).length_lookups
  have hlt := bindingTables_length h
  simp only [bindingTables] at hlookups hlt
  omega

/-- A row executes the ROM at its pc if the row that serves it was decoded there. -/
theorem executes_iff_of_accepted (h : T.Accepted P) {r : InstrRow Felt}
    (hr : r ∈ realRows T.rows) : Executes T.program r ↔
      (r.ports.decodeBus ≠ .decode → Bound (bindingTables T) r) :=
  executes_iff (T := bindingTables T) (bindingTables_eval h) (bindingTables_length h)
    (bindingTables_balanced h) hr

/-- A row that is decoded with its pc lies in the first `2 ^ 24` bytes. -/
theorem packedNat_lt_of_decode (h : T.Accepted P) {r : InstrRow Felt} (hr : r ∈ realRows T.rows)
    (hbus : r.ports.decodeBus = .decode) (hpc : Bytes r.ports.pc) :
    packedNat r.ports.pc < modulus := by
  have heval := bindingTables_eval h
  obtain ⟨d, hd, hserve⟩ := (bindingTables T).served heval (bindingTables_length h)
    (bindingTables_balanced h) hr
  obtain ⟨_, _, hdecodes⟩ := decode_row_sound (heval.2.1 d hd)
  have hnet : ∀ values, net (fetchLookups T.decode T.program) .program values = 0 := by
    intro values
    rw [fetchLookups, net_append]
    exact (net_traceSet T .program values).symm.trans (h.balanced .program values)
  have htop := pc_top h.eval.program hnet (decode_length_lt h) hd
  rw [← (hdecodes.kind_eq hserve).2.2 hbus] at htop
  have h0 := hpc 0
  have h1 := hpc 1
  have h2 := hpc 2
  show packedNat r.ports.pc < 2147483647
  rw [packedNat, htop, ZMod.val_zero]
  omega

end Binding

end Loquela.Soundness
