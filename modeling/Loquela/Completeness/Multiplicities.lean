import Loquela.Completeness.Checks
import Loquela.Completeness.Traces
import Loquela.Soundness.ProgramHash

/-! # The multiplicities of the lookup tables

Every range and operation table built by `generate_traces` receives each tuple exactly as often
as the instruction tables and the program hash send it.
-/

namespace Loquela.Completeness
open Air Library Library.Bus Soundness Trace
open Rv32i hiding bit
open Vm (Byte ExecutionStep U32 VM)

variable {F : Type*} [Field F]

theorem tableMults_eq_count (indices : List ℕ) (i : ℕ) :
    tableMults indices i = (indices.count i : F) := by
  have hfold : ∀ (l : List ℕ) (m : ℕ → F),
      l.foldl (fun mults i => Function.update mults i (mults i + 1)) m i = m i + (l.count i : F) := by
    intro l
    induction l with
    | nil => simp
    | cons a l ih =>
      intro m
      rw [List.foldl_cons, ih, List.count_cons]
      by_cases ha : a = i
      · subst ha
        simp only [Function.update_self, beq_self_eq_true, if_true, Nat.cast_add, Nat.cast_one]
        ring
      · simp [ha, Ne.symm ha]
  rw [tableMults, hfold, Pi.zero_apply, zero_add]

variable [DecidableEq F]

section Tables

variable {t : Table} {bus : BusName}

theorem net_table_of_ne (h : t.bus ≠ bus) (mult : ℕ → F) (v : List F) :
    net (t.lookups mult) bus v = 0 := by
  apply net_of_forall_bus_ne
  intro x hx
  obtain ⟨row, -, hbus, -⟩ := Table.mem_lookups hx
  rwa [hbus]

/-- A table that counts its entries receives their rows. -/
theorem net_table {indices : List ℕ} (h : ∀ i ∈ indices, i < t.rows.length) (v : List F) :
    net (t.lookups (tableMults indices)) t.bus v = -((indices.map t.rowAt).count v : F) := by
  have hrows : t.lookups (tableMults (F := F) indices) =
      (t.rows.map (List.map Nat.cast)).mapIdx fun i row =>
        ⟨t.bus, .receive, row, (indices.count i : F)⟩ := by
    apply List.ext_getElem
    · simp
    · intro i hi hi'
      simp only [Table.lookups, List.getElem_mapIdx, List.getElem_map, tableMults_eq_count]
      rfl
  rw [hrows, net_counted _ _ (by simpa using h)]
  congr 3
  apply List.map_congr_left
  intro i hi
  rw [Table.rowAt, List.getD_eq_getElem?_getD, List.getD_eq_getElem?_getD, List.getElem?_map,
    List.getElem?_eq_getElem (h i hi)]
  rfl

end Tables

section Entries

theorem lt_of_getElem? {α : Type*} {l : List α} {i : ℕ} {a : α} (h : l[i]? = some a) :
    i < l.length := (List.getElem?_eq_some_iff.mp h).1

theorem tripleRows_lt {t : Table} {op : ℕ → ℕ → ℕ} (ht : t.rows = bitwiseRows op) (x y : U32) :
    ∀ i ∈ tripleRows x y, i < t.rows.length := by
  intro i hi
  obtain ⟨k, rfl⟩ := List.mem_ofFn.mp hi
  rw [ht]
  exact lt_of_getElem? (bitwiseRows_getElem? (leBytes_lt x k) (leBytes_lt y k))

theorem xorEntries_lt (step : ExecutionStep) : ∀ i ∈ xorEntries step, i < xorAir.rows.length := by
  unfold xorEntries
  split
  · exact tripleRows_lt rfl _ _
  · exact tripleRows_lt rfl _ _
  · nofun

theorem oriEntries_lt (step : ExecutionStep) : ∀ i ∈ oriEntries step, i < orAir.rows.length := by
  unfold oriEntries
  split
  · exact tripleRows_lt rfl _ _
  · nofun

theorem orEntries_lt (step : ExecutionStep) : ∀ i ∈ orEntries step, i < orAir.rows.length := by
  unfold orEntries
  split
  · exact tripleRows_lt rfl _ _
  · nofun

theorem andiEntries_lt (step : ExecutionStep) : ∀ i ∈ andiEntries step, i < andAir.rows.length := by
  unfold andiEntries
  split
  · exact tripleRows_lt rfl _ _
  · nofun

theorem andEntries_lt (step : ExecutionStep) : ∀ i ∈ andEntries step, i < andAir.rows.length := by
  unfold andEntries
  split
  · exact tripleRows_lt rfl _ _
  · nofun

theorem byteSllEntries_lt (step : ExecutionStep) :
    ∀ i ∈ byteSllEntries step, i < byteShiftLeftAir.rows.length := by
  have hrows : ∀ (x : U32) (n : ℕ), ∀ i ∈ shiftRows x (n % 8), i < byteShiftLeftAir.rows.length := by
    intro x n i hi
    obtain ⟨k, rfl⟩ := List.mem_ofFn.mp hi
    exact lt_of_getElem? (byteShiftLeftAir_getElem? (leBytes_lt x k) (mod_8_lt n))
  unfold byteSllEntries
  split
  · exact hrows _ _
  · exact hrows _ _
  · nofun

theorem byteSrlEntries_lt (step : ExecutionStep) :
    ∀ i ∈ byteSrlEntries step, i < byteShiftRightAir.rows.length := by
  have hrows : ∀ (x : U32) (n : ℕ), ∀ i ∈ shiftRows x (n % 8),
      i < byteShiftRightAir.rows.length := by
    intro x n i hi
    obtain ⟨k, rfl⟩ := List.mem_ofFn.mp hi
    exact lt_of_getElem? (byteShiftRightAir_getElem? (leBytes_lt x k) (mod_8_lt n))
  have hmask : ∀ n, 0xFF * 8 + n % 8 < byteShiftRightAir.rows.length := by
    intro n
    exact lt_of_getElem? (byteShiftRightAir_getElem? (x := 0xFF) (by norm_num) (mod_8_lt n))
  have hfill : ∀ (x : U32) (n : ℕ), ∀ i ∈ shiftRows x (n % 8) ++ [0xFF * 8 + n % 8],
      i < byteShiftRightAir.rows.length := by
    intro x n
    exact List.forall_mem_append.mpr ⟨hrows x n, List.forall_mem_singleton.mpr (hmask n)⟩
  unfold byteSrlEntries
  split
  · exact hrows _ _
  · exact hfill _ _
  · exact hrows _ _
  · exact hfill _ _
  · nofun

theorem bytesAir_getElem? {b : ℕ} (hb : b < 256) : bytesAir.rows[b]? = some [b] := by
  simp [bytesAir, hb]

theorem low7_lt (v : U32) : low7 v < 256 := by
  rw [low7_eq]
  exact Nat.and_lt_two_pow _ (by norm_num : 0x7F < 2 ^ 8)

theorem shamtHigh_lt (v : U32) : shamtHigh v < 256 := by
  rw [shamtHigh, BitVec.toNat_ushiftRight, BitVec.toNat_and]
  exact (Nat.shiftRight_le _ _).trans_lt (Nat.and_lt_two_pow _ (by decide : _ < 2 ^ 8))

theorem byteChecked_lt (step : ExecutionStep) : ∀ b ∈ (byteChecked step).2, b < 256 := by
  unfold byteChecked
  split <;> simp [low7_lt, shamtHigh_lt, leBytes_lt]

theorem bytesEntries_lt (program : List Byte) (steps : List ExecutionStep) :
    ∀ b ∈ bytesEntries program steps, b < bytesAir.rows.length := by
  intro b hb
  apply lt_of_getElem? (bytesAir_getElem? _)
  rcases List.mem_append.mp hb with hb | hb
  · rcases List.mem_append.mp hb with hb | hb
    · obtain ⟨v, -, hb⟩ := List.mem_flatMap.mp hb
      obtain ⟨i, rfl⟩ := List.mem_ofFn.mp hb
      exact leBytes_lt v i
    · obtain ⟨step, -, hb⟩ := List.mem_flatMap.mp hb
      exact byteChecked_lt step b hb
  · obtain ⟨byte, -, rfl⟩ := List.mem_map.mp hb
    exact byte.isLt

end Entries

section Rows

variable {bus : BusName}

theorem selected_checks {io : RowPorts F} (h : Regular io) (hbus : bus ∈ tableBuses) :
    selected .send bus io.lookups = if io.isDummy = 1 then checksOn bus io.checks else [] := by
  have htrace : BusName.trace ≠ bus := by rintro rfl; exact absurd hbus (by decide)
  have hmemory := memory_bus_ne io bus (by rintro rfl; exact absurd hbus (by decide))
    io.memoryMultiplicity
  have hdecode := decodeBus_ne h bus fun hmem => absurd hbus (by
    revert hmem
    cases bus <;> decide)
  rw [RowPorts.lookups]
  simp only [selected_append, selected_cons, selected_nil, receive_selected, send_selected,
    selected_eq_nil hmemory, htrace, hdecode, false_and, if_false, List.append_nil,
    List.nil_append]
  rw [checksOn]
  generalize io.checks = checks
  induction checks with
  | nil => simp
  | cons c l ih =>
    rw [List.map_cons, selected_cons, ih, send_selected]
    by_cases hc : c.1 = bus <;> by_cases hd : io.isDummy = 1 <;> simp [hc, hd]

/-- The instruction tables send what the steps check. -/
theorem selected_kindTables (xs : List Executed) (hbus : bus ∈ tableBuses) :
    (selected .send bus ((kindTables xs).flatten.flatMap InstrRow.lookups)).Perm
      (xs.flatMap fun x => checksOn bus (x.checks : List (Check F))) := by
  rw [selected_flatMap]
  apply ((kindTables_perm xs).flatMap_right _).trans
  have hpadding : (padding xs).flatMap
      (fun r : InstrRow F => selected .send bus r.lookups) = [] := by
    apply List.flatMap_eq_nil_iff.mpr
    intro r hr
    obtain ⟨id, rfl⟩ := eq_paddingRow hr
    rw [InstrRow.lookups, selected_checks (regular _) hbus, paddingRow_isDummy]
    exact if_neg zero_ne_one
  rw [List.flatMap_append, hpadding, List.append_nil, List.flatMap_map]
  apply List.Perm.of_eq
  apply List.flatMap_congr
  intro x _
  rw [InstrRow.lookups, selected_checks (regular _) hbus, if_pos (row_ports x).isDummy, row_checks]

omit [DecidableEq F] in
theorem isDummy_of_mem {xs : List Executed} {r : InstrRow F} (hr : r ∈ (kindTables xs).flatten) :
    r.ports.isDummy = 0 ∨ r.ports.isDummy = 1 := by
  rcases List.mem_append.mp ((kindTables_perm xs).mem_iff.mp hr) with hr | hr
  · obtain ⟨x, -, rfl⟩ := List.mem_map.mp hr
    exact .inr (row_ports x).isDummy
  · obtain ⟨id, rfl⟩ := eq_paddingRow hr
    exact .inl (paddingRow_isDummy id)

omit [DecidableEq F] in
theorem rows_only_send {rows : List (InstrRow F)} (hbus : bus ≠ .trace) :
    ∀ x ∈ rows.flatMap InstrRow.lookups, x.bus = bus → x.direction ≠ .receive := by
  rintro x hx rfl hreceive
  obtain ⟨r, -, hx⟩ := List.mem_flatMap.mp hx
  exact hbus (bus_eq_trace_of_receive hx hreceive)

theorem net_kindTables (xs : List Executed) (hbus : bus ∈ tableBuses) (v : List F) :
    net ((kindTables xs).flatten.flatMap InstrRow.lookups) bus v =
      ((xs.flatMap fun x => checksOn bus (x.checks : List (Check F))).count v : F) := by
  have htrace : bus ≠ .trace := by rintro rfl; exact absurd hbus (by decide)
  have hmemory : bus ≠ .memory := by rintro rfl; exact absurd hbus (by decide)
  rw [net_eq_sent, (selected_kindTables xs hbus).count_eq]
  · rintro x hx rfl - -
    obtain ⟨r, hr, hx⟩ := List.mem_flatMap.mp hx
    rw [multiplicity_eq_isDummy hx hmemory]
    exact isDummy_of_mem hr
  · intro x hx hb hreceive
    exact absurd hreceive (rows_only_send htrace x hx hb)

end Rows

section ProgramHash

theorem filterMap_range_getElem? {α : Type*} (l : List α) (n : ℕ) :
    (List.range n).filterMap (fun i => l[i]?) = l.take n := by
  induction n with
  | zero => rfl
  | succ n ih =>
    rw [List.range_succ, List.filterMap_append, ih, List.take_add_one]
    cases h : l[n]? <;> simp [h]

theorem flatMap_chunks {α : Type*} (l : List α) (k n : ℕ) :
    ((List.range n).flatMap fun row => (l.drop (row * k)).take k) = l.take (n * k) := by
  induction n with
  | zero => simp
  | succ n ih =>
    rw [List.range_succ, List.flatMap_append, ih, List.flatMap_singleton, Nat.succ_mul,
      List.take_add]

/-- A row whose active slots are those inside the program absorbs its chunk of the program. -/
theorem absorbed_of_chunk {c : ProgramHashColumns F} {program : List Byte} {base : ℕ}
    (hactive : ∀ i : Fin 24, c.isActive i = if base + i < program.length then 1 else 0)
    (hbytes : c.bytes = chunk program base) :
    absorbed c = ((program.drop base).take 24).map fun b => (b.toNat : F) := by
  have hslot : ∀ i : Fin 24, (if c.isActive i = 1 then some (c.bytes i) else none) =
      (program.drop base)[(i : ℕ)]?.map fun b => (b.toNat : F) := by
    intro i
    rw [List.getElem?_drop, hactive, hbytes]
    by_cases hi : base + i < program.length
    · simp [chunk, hi]
    · simp [hi]
  rw [absorbed, activeSlots, ← List.filterMap_eq_map, List.filterMap_filter]
  simp only [decide_eq_true_eq, Function.comp_apply, hslot]
  rw [← filterMap_range_getElem?, ← List.map_coe_finRange_eq_range, List.filterMap_map,
    List.map_filterMap]
  rfl

/-- Inside the real rows, being active is being inside the program. -/
theorem real_of_active {program : List Byte} {row i : ℕ} (hi : row * 24 + i < program.length)
    (hslot : i < 24) : row < numRealRows program := by
  rw [numRealRows]
  omega

theorem absorbed_hashRow (P : Poseidon2 F) (program : List Byte) (row : ℕ) :
    absorbed (hashRow P program row) =
      ((program.drop (row * 24)).take 24).map fun b => (b.toNat : F) := by
  apply absorbed_of_chunk
  · intro i
    exact if_congr (and_iff_right_of_imp fun hi => real_of_active hi i.isLt) rfl rfl
  · funext i
    show (if row < numRealRows program then chunk program (row * 24) else 0) i = _
    split_ifs with hreal
    · rfl
    · rw [chunk, List.getElem?_eq_none]
      · rfl
      · rw [numRealRows] at hreal
        omega

variable {P : Poseidon2 F} {program : List Byte} {hash : List (ProgramHashColumns F)}

omit [DecidableEq F] in
theorem buildProgramHash_eq (h : buildProgramHash P program = some hash) :
    hash = (List.range (height (numRealRows program + 1))).map (hashRow P program) := by
  rw [buildProgramHash] at h
  split_ifs at h
  exact (Option.some.inj h).symm

omit [DecidableEq F] in
theorem hash_only_sends {x : Interaction F} (hx : x ∈ programHashLookups hash) :
    x.direction = .send ∧ x.bus ∈ hashBuses := by
  obtain ⟨c, -, hx⟩ := List.mem_flatMap.mp hx
  simp only [ProgramHashColumns.lookups, List.mem_append, List.mem_ofFn, List.mem_singleton] at hx
  rcases hx with (⟨i, rfl⟩ | ⟨i, rfl⟩) | rfl
  · exact ⟨rfl, .head _⟩
  · exact ⟨rfl, .tail _ (.head _)⟩
  · exact ⟨rfl, .tail _ (.tail _ (.head _))⟩

omit [DecidableEq F] in
theorem hash_boolean (h : buildProgramHash P program = some hash) :
    ∀ x ∈ programHashLookups hash, x.multiplicity = 0 ∨ x.multiplicity = 1 := by
  rw [buildProgramHash_eq h]
  intro x hx
  obtain ⟨c, hc, hx⟩ := List.mem_flatMap.mp hx
  obtain ⟨row, -, rfl⟩ := List.mem_map.mp hc
  simp only [ProgramHashColumns.lookups, List.mem_append, List.mem_ofFn, List.mem_singleton] at hx
  rcases hx with (⟨i, rfl⟩ | ⟨i, rfl⟩) | rfl
  · exact (ite_eq_or_eq _ _ _).symm
  · exact (ite_eq_or_eq _ _ _).symm
  · exact (ite_eq_or_eq _ _ _).symm

/-- The hash table sends every byte of the program to the range table. -/
theorem selected_hash_bytes (h : buildProgramHash P program = some hash) :
    selected .send .bytes (programHashLookups hash) = program.map fun b => [(b.toNat : F)] := by
  have hall : program.length ≤ height (numRealRows program + 1) * 24 := by
    have := le_height (numRealRows program + 1)
    rw [numRealRows] at this ⊢
    omega
  rw [buildProgramHash_eq h, programHashLookups, List.flatMap_map, selected_flatMap]
  simp only [selected_bytes, absorbed_hashRow, List.map_map]
  rw [← List.map_flatMap, flatMap_chunks, List.take_of_length_le hall]
  rfl

theorem net_hash_bytes (h : buildProgramHash P program = some hash) (v : List F) :
    net (programHashLookups hash) .bytes v =
      ((program.map fun b => [(b.toNat : F)]).count v : F) := by
  rw [net_eq_sent, selected_hash_bytes h]
  · intro x hx _ _ _
    exact hash_boolean h x hx
  · intro x hx _ hreceive
    rw [(hash_only_sends hx).1] at hreceive
    cases hreceive

theorem net_hash_of_notMem {bus : BusName} (hbus : bus ∉ hashBuses) (v : List F) :
    net (programHashLookups hash) bus v = 0 := by
  apply net_of_forall_bus_ne
  intro x hx
  exact ne_of_mem_of_not_mem (hash_only_sends hx).2 hbus

end ProgramHash

section Optional

variable {t : Table} {bus : BusName}

theorem net_optional_of_ne (h : t.bus ≠ bus) (mult : Option (ℕ → F)) (v : List F) :
    net (t.optionalLookups mult) bus v = 0 := by
  cases mult with
  | none => rfl
  | some mult => exact net_table_of_ne h mult v

/-- An absent table is one that nothing is counted for. -/
theorem net_optional {indices : List ℕ} (h : ∀ i ∈ indices, i < t.rows.length) {has : Bool}
    (hnone : has = false → indices = []) (v : List F) :
    net (t.optionalLookups (if has then some (tableMults indices) else none)) t.bus v =
      -((indices.map t.rowAt).count v : F) := by
  cases has with
  | true => exact net_table h v
  | false =>
    rw [hnone rfl]
    simp [Table.optionalLookups]

/-- Each bus has its tables. -/
theorem net_tableLookups (T : TraceSet F) (bus : BusName) (v : List F) :
    net T.tableLookups bus v =
      match bus with
      | .bytes => net (bytesAir.lookups T.bytes) .bytes v
      | .bytesXor => net (xorAir.lookups T.xor) .bytesXor v
      | .bytesOr =>
        net (orAir.lookups T.or) .bytesOr v + net (orAir.lookups T.orPrim) .bytesOr v
      | .bytesAnd =>
        net (andAir.lookups T.and) .bytesAnd v + net (andAir.optionalLookups T.andPrim) .bytesAnd v
      | .byteSll => net (byteShiftLeftAir.optionalLookups T.byteSll) .byteSll v
      | .byteSrl => net (byteShiftRightAir.optionalLookups T.byteSrl) .byteSrl v
      | .bytesLt => net (lessThanAir.lookups T.bytesLt) .bytesLt v
      | _ => 0 := by
  have hbytes (hne : .bytes ≠ bus) := net_table_of_ne (t := bytesAir) hne T.bytes v
  have hxor (hne : .bytesXor ≠ bus) := net_table_of_ne (t := xorAir) hne T.xor v
  have hor (hne : .bytesOr ≠ bus) := net_table_of_ne (t := orAir) hne T.or v
  have horPrim (hne : .bytesOr ≠ bus) := net_table_of_ne (t := orAir) hne T.orPrim v
  have hand (hne : .bytesAnd ≠ bus) := net_table_of_ne (t := andAir) hne T.and v
  have handPrim (hne : .bytesAnd ≠ bus) := net_optional_of_ne (t := andAir) hne T.andPrim v
  have hsll (hne : .byteSll ≠ bus) := net_optional_of_ne (t := byteShiftLeftAir) hne T.byteSll v
  have hsrl (hne : .byteSrl ≠ bus) := net_optional_of_ne (t := byteShiftRightAir) hne T.byteSrl v
  have hlt (hne : .bytesLt ≠ bus) := net_table_of_ne (t := lessThanAir) hne T.bytesLt v
  simp only [TraceSet.tableLookups, net_append]
  cases bus <;> simp only [ne_eq, reduceCtorEq, not_false_eq_true, forall_const] at * <;>
    simp only [*, add_zero, zero_add]

end Optional

section Kinds

theorem hasKind_eq_false {xs : List Executed} {id : InstructionId} :
    hasKind id (xs.map Executed.step) = false ↔ ∀ x ∈ xs, x.kind ≠ id := by
  rw [← Bool.not_eq_true, hasKind_iff]
  push Not
  rfl

theorem andEntries_eq_nil {x : Executed} (h : x.kind ≠ .and) : andEntries x.step = [] := by
  obtain ⟨pc, timestamp, registers, i⟩ := x
  cases i with
  | opReg op rd rs1 rs2 =>
    cases op
    case and => exact absurd rfl h
    all_goals rfl
  | opImm op rd rs1 imm => cases op <;> rfl
  | shiftImm op rd rs1 shamt => cases op <;> rfl
  | _ => rfl

theorem byteSllEntries_eq_nil {x : Executed} (h : x.kind ≠ .sll) (h' : x.kind ≠ .slli) :
    byteSllEntries x.step = [] := by
  have hchecks : checksOn .byteSll (x.checks : List (Check ℚ)) = [] := by
    refine checksOn_eq_nil nofun ?_
    revert h h'
    cases x.kind <;> simp [opBus]
  exact List.map_eq_nil_iff.mp ((checksOn_byteSll x).symm.trans hchecks)

theorem byteSrlEntries_eq_nil {x : Executed}
    (h : ∀ id ∈ [InstructionId.srl, .sra, .srli, .srai], x.kind ≠ id) :
    byteSrlEntries x.step = [] := by
  have hchecks : checksOn .byteSrl (x.checks : List (Check ℚ)) = [] := by
    refine checksOn_eq_nil nofun ?_
    revert h
    cases x.kind <;> simp [opBus]
  exact List.map_eq_nil_iff.mp ((checksOn_byteSrl x).symm.trans hchecks)

end Kinds

section Agreement

variable {P : Poseidon2 F} {program : List Byte} {xs : List Executed} {vm : VM} {T : TraceSet F}

omit [DecidableEq F] in
/-- Entries counted step by step. -/
theorem map_entries {t : Table} {entries : ExecutionStep → List ℕ} :
    ((xs.map Executed.step).flatMap entries).map t.rowAt =
      xs.flatMap fun x => (entries x.step).map (t.rowAt (F := F)) := by
  rw [List.flatMap_map, List.map_flatMap]

theorem forall_entries {n : ℕ} {entries : ExecutionStep → List ℕ} {steps : List ExecutionStep}
    (h : ∀ step, ∀ i ∈ entries step, i < n) : ∀ i ∈ steps.flatMap entries, i < n := by
  intro i hi
  obtain ⟨step, -, hi⟩ := List.mem_flatMap.mp hi
  exact h step i hi

/-- The byte checks of the steps and the bytes of the program are what is counted. -/
theorem count_bytesEntries (program : List Byte) (xs : List Executed) (v : List F) :
    ((bytesEntries program (xs.map Executed.step)).map bytesAir.rowAt).count v =
      (xs.flatMap fun x => checksOn .bytes x.checks).count v +
        (program.map fun b => [(b.toNat : F)]).count v := by
  have hrow : ∀ b ∈ bytesEntries program (xs.map Executed.step),
      bytesAir.rowAt b = [(b : F)] := by
    intro b hb
    have hlt := bytesEntries_lt program _ b hb
    rw [bytesAir, List.length_map, List.length_range] at hlt
    exact Table.rowAt_eq (bytesAir_getElem? hlt)
  have hsteps : ((xs.map Executed.step).flatMap (fun step => (byteChecked step).1) |>.flatMap
      leByteList) ++ (xs.map Executed.step).flatMap (fun step => (byteChecked step).2) |>.Perm
        (xs.flatMap stepBytes) := by
    rw [List.flatMap_assoc, List.flatMap_map, List.flatMap_map]
    exact List.flatMap_append_perm _ _ _
  rw [List.map_congr_left hrow, bytesEntries, List.map_append, List.count_append,
    (hsteps.map _).count_eq, List.map_map, List.map_flatMap, List.count_flatMap,
    List.count_flatMap]
  congr 3
  funext x
  exact (count_bytes x v).symm

variable (hrun : RunOf program xs vm) (hT : Built P program xs vm T)
include hrun hT

theorem net_bytes (v : List F) : net (T.rows.flatMap InstrRow.lookups ++
    programHashLookups T.programHash ++ T.tableLookups) .bytes v = 0 := by
  have htable : net T.tableLookups .bytes v =
      -(((bytesEntries program vm.trace).map bytesAir.rowAt).count v : F) := by
    rw [net_tableLookups, hT.bytes]
    exact net_table (bytesEntries_lt program vm.trace) v
  rw [net_append, net_append, hT.rows, net_kindTables xs (.head _), net_hash_bytes hT.programHash,
    htable, hrun.trace, count_bytesEntries, Nat.cast_add]
  ring

omit hrun in
/-- On an operation bus only the instruction tables send. -/
theorem net_operation {bus : BusName} (hbus : bus ∈ tableBuses) (hhash : bus ∉ hashBuses)
    {entries : List (List F)} {v : List F}
    (hentries : (xs.flatMap fun x => checksOn bus x.checks).Perm entries)
    (htable : net T.tableLookups bus v = -(entries.count v : F)) :
    net (T.rows.flatMap InstrRow.lookups ++ programHashLookups T.programHash ++ T.tableLookups)
      bus v = 0 := by
  rw [net_append, net_append, hT.rows, net_kindTables xs hbus, net_hash_of_notMem hhash, htable,
    hentries.count_eq, add_zero, add_neg_cancel]

theorem net_bytesXor (v : List F) : net (T.rows.flatMap InstrRow.lookups ++
    programHashLookups T.programHash ++ T.tableLookups) .bytesXor v = 0 := by
  apply net_operation hT (by decide) (by decide)
  · exact .of_eq (List.flatMap_congr fun x _ => checksOn_xor x)
  · rw [net_tableLookups, hT.xor, ← map_entries, ← hrun.trace]
    exact net_table (forall_entries xorEntries_lt) v

/-- Both OR tables together receive what the two kinds send. -/
theorem net_bytesOr (v : List F) : net (T.rows.flatMap InstrRow.lookups ++
    programHashLookups T.programHash ++ T.tableLookups) .bytesOr v = 0 := by
  apply net_operation hT (by decide) (by decide)
  · simp only [checksOn_or, List.map_append]
    exact (List.flatMap_append_perm _ _ _).symm
  · rw [net_tableLookups, hT.or, hT.orPrim, ← map_entries, ← map_entries, ← hrun.trace]
    rw [List.count_append, Nat.cast_add, neg_add]
    apply congrArg₂ (· + ·)
    · exact net_table (forall_entries oriEntries_lt) v
    · exact net_table (forall_entries orEntries_lt) v

theorem net_bytesAnd (v : List F) : net (T.rows.flatMap InstrRow.lookups ++
    programHashLookups T.programHash ++ T.tableLookups) .bytesAnd v = 0 := by
  apply net_operation hT (by decide) (by decide)
  · simp only [checksOn_and, List.map_append]
    exact (List.flatMap_append_perm _ _ _).symm
  · rw [net_tableLookups, hT.and, hT.andPrim, ← map_entries, ← map_entries, ← hrun.trace]
    rw [List.count_append, Nat.cast_add, neg_add]
    apply congrArg₂ (· + ·)
    · exact net_table (forall_entries andiEntries_lt) v
    · apply net_optional (forall_entries andEntries_lt)
      rw [hrun.trace, hasKind_eq_false, List.flatMap_map]
      intro h
      exact List.flatMap_eq_nil_iff.mpr fun x hx => andEntries_eq_nil (h x hx)

theorem net_byteSll (v : List F) : net (T.rows.flatMap InstrRow.lookups ++
    programHashLookups T.programHash ++ T.tableLookups) .byteSll v = 0 := by
  apply net_operation hT (by decide) (by decide)
  · exact .of_eq (List.flatMap_congr fun x _ => checksOn_byteSll x)
  · rw [net_tableLookups, hT.byteSll, ← map_entries, ← hrun.trace]
    apply net_optional (forall_entries byteSllEntries_lt)
    rw [hrun.trace, Bool.or_eq_false_iff, hasKind_eq_false, hasKind_eq_false, List.flatMap_map]
    rintro ⟨hsll, hslli⟩
    exact List.flatMap_eq_nil_iff.mpr fun x hx => byteSllEntries_eq_nil (hsll x hx) (hslli x hx)

theorem net_byteSrl (v : List F) : net (T.rows.flatMap InstrRow.lookups ++
    programHashLookups T.programHash ++ T.tableLookups) .byteSrl v = 0 := by
  apply net_operation hT (by decide) (by decide)
  · exact .of_eq (List.flatMap_congr fun x _ => checksOn_byteSrl x)
  · rw [net_tableLookups, hT.byteSrl, ← map_entries, ← hrun.trace]
    apply net_optional (forall_entries byteSrlEntries_lt)
    rw [hrun.trace, Bool.or_eq_false_iff, Bool.or_eq_false_iff, Bool.or_eq_false_iff,
      hasKind_eq_false, hasKind_eq_false, hasKind_eq_false, hasKind_eq_false, List.flatMap_map]
    rintro ⟨⟨⟨hsrl, hsra⟩, hsrli⟩, hsrai⟩
    apply List.flatMap_eq_nil_iff.mpr
    intro x hx
    apply byteSrlEntries_eq_nil
    simp [hsrl x hx, hsra x hx, hsrli x hx, hsrai x hx]

/-- Every range and operation bus balances. -/
theorem net_tableBuses {bus : BusName} (hbus : bus ∈ tableBuses) (v : List F) :
    net (T.rows.flatMap InstrRow.lookups ++ programHashLookups T.programHash ++ T.tableLookups)
      bus v = 0 := by
  simp only [tableBuses, List.mem_cons, List.not_mem_nil, or_false] at hbus
  rcases hbus with rfl | rfl | rfl | rfl | rfl | rfl
  · exact net_bytes hrun hT v
  · exact net_bytesXor hrun hT v
  · exact net_bytesOr hrun hT v
  · exact net_bytesAnd hrun hT v
  · exact net_byteSll hrun hT v
  · exact net_byteSrl hrun hT v

end Agreement

end Loquela.Completeness
