import Loquela.Completeness.Heights

/-! # Preprocessed columns

The AIRs with preprocessed columns: the boundaries, the lookup tables and the permutation chip.
Their preprocessed traces are as high as the traces that are built for them, and together they give
the interactions of the trace set.
-/

namespace Loquela.Completeness
open Air Library.Checked Library.Slots Trace
open Rv32i hiding bit
open Vm (Byte VM)

section Tables

variable {F : Type} [Field F]

/-- The interactions of a table, row by row. -/
theorem lookups_eq_zipWith (table : Table) (main : List (List F))
    (hlength : main.length = table.rows.length) :
    table.lookups (multiplicityAt (main.map fun row => row.headD 0)) =
      List.zipWith (fun tuple row => receive table.bus tuple (row.headD 0))
        (preprocessedRows table) main := by
  apply List.ext_getElem
  · simp [preprocessedRows, hlength]
  · intro i hi hi'
    have hmain : i < main.length := by
      rw [hlength]
      simpa using hi
    simp [Table.lookups, preprocessedRows, multiplicityAt, List.getD_eq_getElem?_getD, hmain]

theorem length_of_column {table : Table} {size : ℕ} {indices : List ℕ} {column : List F}
    (h : buildLookup table size indices = .ok column) :
    (column.map fun mult => [mult]).length = table.rows.length := by
  obtain ⟨-, hrows, -⟩ := buildLookup_eq_ok.mp h
  rw [List.length_map, length_of_lookup h, hrows]

theorem lookups_multiplicities {table : Table} {size : ℕ} {indices : List ℕ} {column : List F}
    (h : buildLookup table size indices = .ok column) :
    table.lookups (multiplicityAt column) =
      List.zipWith (fun tuple row => receive table.bus tuple (row.headD 0))
        (preprocessedRows table) (column.map fun mult => [mult]) := by
  have hcolumn : (column.map fun mult => [mult]).map (fun row => row.headD 0) = column := by
    simp [Function.comp_def]
  rw [← lookups_eq_zipWith table _ (length_of_column h), hcolumn]

theorem tableInteractions_of {air : LoquelAir} {table : Table} (h : air.table = some table)
    (main : List (List F)) : air.tableInteractions main =
      List.zipWith (fun tuple row => receive table.bus tuple (row.headD 0))
        (preprocessedRows table) main := by
  rw [LoquelAir.tableInteractions, h, Option.elim_some]

variable {t : AllTraces F}

/-- What the matrix of an AIR, if there is one, gives to the interactions of the tables. -/
def slotInteractions (L : ChipLayout F) (t : AllTraces F) (air : LoquelAir) :
    List (Interaction F) :=
  (matrixOf t air).elim [] fun m => air.tableInteractions (m.rows L)

theorem slotInteractions_of_none {air : LoquelAir} (h : air.table = none) (L : ChipLayout F) :
    slotInteractions L t air = [] := by
  rw [slotInteractions]
  cases matrixOf t air with
  | none => rfl
  | some m => rw [Option.elim_some, LoquelAir.tableInteractions, h, Option.elim_none]

/-- A lookup table that is always there. -/
theorem slotInteractions_of_lookup {air : LoquelAir} {table : Table} {size : ℕ}
    {indices : List ℕ} {column : List F} (htable : air.table = some table)
    (hmatrix : matrixOf t air = some (.multiplicities column))
    (h : buildLookup table size indices = .ok column) (L : ChipLayout F) :
    slotInteractions L t air = table.lookups (multiplicityAt column) := by
  rw [slotInteractions, hmatrix, Option.elim_some, tableInteractions_of htable,
    lookups_multiplicities h, RowMajorMatrix.rows]

/-- A lookup table that may be absent. -/
theorem slotInteractions_of_optional {air : LoquelAir} {table : Table} {size : ℕ}
    {indices : List ℕ} {condition : Bool} {column : Option (List F)}
    (htable : air.table = some table) (hmatrix : matrixOf t air = column.map .multiplicities)
    (h : buildOptional condition table size indices = .ok column) (L : ChipLayout F) :
    slotInteractions L t air = table.optionalLookups (column.map multiplicityAt) := by
  cases column with
  | none => rw [slotInteractions, hmatrix]; rfl
  | some column => exact slotInteractions_of_lookup htable hmatrix (lookup_of_optional h) L

variable [DecidableEq F] {P : Poseidon2 F} {program : List Byte} {vm : VM}

theorem slotInteractions_bytesLt (h : Returned P program vm t) (L : ChipLayout F) :
    slotInteractions L t .bytesLt =
      lessThanAir.lookups (multiplicityAt (t.bytesLt.map Prod.fst)) := by
  obtain ⟨mults, -, hrows⟩ := bind_eq_ok.mp h.bytesLt
  have hcolumn : (t.bytesLt.map fun c => [c.1, c.2]).map (fun row => row.headD 0) =
      t.bytesLt.map Prod.fst := by
    rw [List.map_map]
    rfl
  have htable : LoquelAir.bytesLt.table = some lessThanAir := rfl
  rw [slotInteractions, matrixOf, Option.elim_some, tableInteractions_of htable,
    RowMajorMatrix.rows, ← lookups_eq_zipWith lessThanAir, hcolumn]
  rw [List.length_map, length_of_buildBytesLt hrows, lessThanAir_height]

/-- What is made of the lookup AIRs alone is made in their order. -/
theorem flatMap_slots {A : Type*} {f : LoquelAir → List A}
    (hnone : ∀ air : LoquelAir, air.table = none → f air = []) (n : ℕ) :
    (slots n).flatMap f = f .bytes ++ f .and ++ f .or ++ f .xor ++ f .bytesLt ++ f .orPrim ++
      f .andPrim ++ f .byteSll ++ f .byteSrl := by
  have hinstr : ∀ id, f (.instr id) = [] := fun id => hnone _ rfl
  simp only [slots, List.flatMap_cons, List.flatMap_nil, List.append_nil, List.nil_append,
    List.append_assoc, hinstr, hnone .boundaries rfl, hnone .decode rfl, hnone .memory rfl,
    hnone .program rfl, hnone .u32Lt rfl, hnone .timestampLt rfl, hnone .programHash rfl,
    hnone (.poseidon2Chip _) rfl]

/-- The tables of a trace set receive what the preprocessed and the main columns of the lookup
AIRs give, row by row. -/
theorem tableLookups_eq (L : ChipLayout F) (h : Returned P program vm t) :
    (toTraceSet t).tableLookups =
      (t.airs.zip t.traces).flatMap fun pair => pair.1.tableInteractions (pair.2.rows L) := by
  have hslots : (t.airs.zip t.traces).flatMap (fun pair => pair.1.tableInteractions (pair.2.rows L)) =
      (slots t.poseidon2ChipNumRealRows).flatMap (slotInteractions L t) := by
    rw [airs_eq_present h, traces_eq_held]
    exact flatMap_zip_present (matrixOf t) (fun air m => air.tableInteractions (m.rows L)) _
  have handPrim : slotInteractions L t .andPrim =
      andAir.optionalLookups (t.andPrim.map multiplicityAt) :=
    slotInteractions_of_optional rfl rfl h.andPrim L
  have hbyteSll : slotInteractions L t .byteSll =
      byteShiftLeftAir.optionalLookups (t.byteSll.map multiplicityAt) :=
    slotInteractions_of_optional rfl rfl h.byteSll L
  have hbyteSrl : slotInteractions L t .byteSrl =
      byteShiftRightAir.optionalLookups (t.byteSrl.map multiplicityAt) :=
    slotInteractions_of_optional rfl rfl h.byteSrl L
  rw [hslots, flatMap_slots fun air hair => slotInteractions_of_none hair L,
    slotInteractions_of_lookup rfl rfl h.bytes L, slotInteractions_of_lookup rfl rfl h.and L,
    slotInteractions_of_lookup rfl rfl h.or L, slotInteractions_of_lookup rfl rfl h.xor L,
    slotInteractions_bytesLt h L, slotInteractions_of_lookup rfl rfl h.orPrim L, handPrim,
    hbyteSll, hbyteSrl]
  rfl

end Tables

section Preprocessed

variable {F : Type} [Field F] {L : ChipLayout F} {t : AllTraces F}

theorem preprocessedTrace_of_table {air : LoquelAir} {table : Table} (h : air.table = some table) :
    air.preprocessedTrace = some (preprocessedRows (F := F) table) := by
  cases air with
  | boundaries => cases h
  | poseidon2Chip => cases h
  | _ => exact congrArg (Option.map preprocessedRows) h

variable [DecidableEq F] {P : Poseidon2 F} {program : List Byte} {vm : VM}

/-- The preprocessed column of the chip says which rows are real. -/
theorem preprocessedTrace_chip (h : Returned P program vm t) :
    (LoquelAir.poseidon2Chip t.poseidon2ChipNumRealRows).preprocessedTrace =
      some (t.poseidon2Chip.map fun c => [if c.isReal then (1 : F) else 0]) := by
  have hheight := le_height ((permInputs P program).length + 1)
  rw [← h.poseidon2Chip, ← h.numRealRows, LoquelAir.preprocessedTrace, buildPoseidon2Chip]
  congr 1
  apply List.ext_getElem
  · simp
    omega
  · intro i hi hi'
    by_cases hreal : i < (permInputs P program).length
    · simp [hreal]
    · simp [hreal, List.getElem_append]

/-- A lookup AIR has a row for each entry of its table. -/
theorem length_of_table (h : Returned P program vm t) {air : LoquelAir} {table : Table}
    {m : RowMajorMatrix F} (htable : air.table = some table) (hm : matrixOf t air = some m) :
    (m.rows L).length = table.rows.length := by
  cases air with
  | bytes =>
    obtain rfl := Option.some.inj hm
    exact Option.some.inj htable ▸ length_of_column h.bytes
  | and =>
    obtain rfl := Option.some.inj hm
    exact Option.some.inj htable ▸ length_of_column h.and
  | or =>
    obtain rfl := Option.some.inj hm
    exact Option.some.inj htable ▸ length_of_column h.or
  | xor =>
    obtain rfl := Option.some.inj hm
    exact Option.some.inj htable ▸ length_of_column h.xor
  | orPrim =>
    obtain rfl := Option.some.inj hm
    exact Option.some.inj htable ▸ length_of_column h.orPrim
  | andPrim =>
    obtain ⟨column, hcolumn, rfl⟩ := Option.map_eq_some_iff.mp hm
    exact Option.some.inj htable ▸ length_of_column (lookup_of_optional (hcolumn ▸ h.andPrim))
  | byteSll =>
    obtain ⟨column, hcolumn, rfl⟩ := Option.map_eq_some_iff.mp hm
    exact Option.some.inj htable ▸ length_of_column (lookup_of_optional (hcolumn ▸ h.byteSll))
  | byteSrl =>
    obtain ⟨column, hcolumn, rfl⟩ := Option.map_eq_some_iff.mp hm
    exact Option.some.inj htable ▸ length_of_column (lookup_of_optional (hcolumn ▸ h.byteSrl))
  | bytesLt =>
    obtain rfl := Option.some.inj hm
    obtain ⟨mults, -, hrows⟩ := bind_eq_ok.mp h.bytesLt
    have hlength := (length_of_buildBytesLt hrows).trans lessThanAir_height.symm
    exact Option.some.inj htable ▸ (List.length_map _).trans hlength
  | _ => cases htable

/-- Every preprocessed trace is as high as the main trace. -/
theorem length_preprocessedTrace (h : Returned P program vm t) {air : LoquelAir}
    {m : RowMajorMatrix F} {rows : List (List F)} (hm : matrixOf t air = some m)
    (hrows : air.preprocessedTrace = some rows) : rows.length = (m.rows L).length := by
  cases htable : air.table with
  | some table =>
    rw [preprocessedTrace_of_table htable] at hrows
    obtain rfl := Option.some.inj hrows
    rw [length_of_table h htable hm, preprocessedRows, List.length_map]
  | none =>
    cases air with
    | boundaries =>
      obtain rfl := Option.some.inj hm
      obtain rfl := Option.some.inj hrows
      rfl
    | poseidon2Chip numRealRows =>
      rw [matrixOf] at hm
      split_ifs at hm with hn
      obtain rfl := Option.some.inj hm
      rw [hn, preprocessedTrace_chip h] at hrows
      obtain rfl := Option.some.inj hrows
      rw [List.length_map, RowMajorMatrix.rows, List.length_map]
    | _ =>
      have hnone := congrArg (Option.map (preprocessedRows (F := F))) htable
      exact absurd (hnone.symm.trans hrows) (Option.some_ne_none rows).symm

theorem length_publicValues (h : Returned P program vm t) (air : LoquelAir) :
    (if air = .programHash then t.programHashPublicValues else []).length =
      air.numPublicValues := by
  have hvalues := h.publicValues
  simp only [buildPublicValues, bind_eq_ok, require_eq_ok, pure_eq_ok] at hvalues
  obtain ⟨-, hlength, hvalues⟩ := hvalues
  by_cases hair : air = .programHash
  · rw [if_pos hair, hair, ← hvalues]
    exact hlength
  · rw [if_neg hair]
    cases air <;> first | rfl | exact absurd rfl hair

/-- The preprocessed columns, the main columns and the public values fit together. -/
structure Preprocessed (L : ChipLayout F) (t : AllTraces F) : Prop where
  height : List.Forall₂ (fun (air : LoquelAir) (m : RowMajorMatrix F) => ∀ rows : List (List F),
    air.preprocessedTrace = some rows → rows.length = (m.rows L).length) t.airs t.traces
  tables : (toTraceSet t).tableLookups =
    (t.airs.zip t.traces).flatMap fun pair => pair.1.tableInteractions (pair.2.rows L)
  chip : (LoquelAir.poseidon2Chip t.poseidon2ChipNumRealRows).preprocessedTrace =
    some (t.poseidon2Chip.map fun c => [if c.isReal then (1 : F) else 0])
  boundaries : LoquelAir.boundaries.preprocessedTrace =
    some (List.ofFn fun i => [isFirst (F := F) i, isLast i])
  publicValues : ∃ traces pvs, t.intoVecs = .ok (t.airs, traces, pvs) ∧
    List.Forall₂ (fun (air : LoquelAir) values => values.length = air.numPublicValues) t.airs pvs

/-- Whenever trace generation returns, the preprocessed traces are as high as the matrices, their
columns are those that the interactions are made with, and every AIR gets as many public values as
it asks for. -/
theorem preprocessed_aligned (L : ChipLayout F) (P : Poseidon2 F) (fuel : ℕ) (program : List Byte)
    (t : AllTraces F) (h : generateAllTraces P fuel program = .ok t) : Preprocessed L t := by
  simp only [generateAllTraces, bind_eq_ok, expect_eq_ok] at h
  obtain ⟨vm, -, hbuild⟩ := h
  have hreturned := returned hbuild
  obtain ⟨out, hout⟩ := intoVecs_ok hbuild
  have hflat := hout
  simp only [AllTraces.intoVecs, bind_eq_ok, subtract_eq_ok, require_eq_ok, inBounds_eq_ok,
    pure_eq_ok] at hflat
  obtain ⟨k, -, _, hk, _, -, _, -, rfl⟩ := hflat
  constructor
  · rw [airs_eq_present hreturned, traces_eq_held]
    exact (forall₂_present (matrixOf t) _).imp fun air m hm rows hrows =>
      length_preprocessedTrace hreturned hm hrows
  · exact tableLookups_eq L hreturned
  · exact preprocessedTrace_chip hreturned
  · simp [LoquelAir.preprocessedTrace, isFirst, isLast, List.ofFn_succ]
  · refine ⟨_, _, hout, List.forall₂_iff_get.mpr ⟨?_, ?_⟩⟩
    · rw [List.length_set, List.length_replicate]
    · intro i hi hi'
      have hvalues := getElem?_set_replicate t.programHashPublicValues (nodup_airs hreturned) hk i
      rw [List.getElem?_eq_getElem hi, List.getElem?_eq_getElem hi', Option.map_some,
        Option.some.injEq] at hvalues
      rw [List.get_eq_getElem, List.get_eq_getElem, hvalues]
      exact length_publicValues hreturned _

theorem preprocessed_aligned_shiftsAndMasks : ∃ t,
    generateAllTraces (F := Felt) ⟨id, id, 0, 0, 0⟩ 4 shiftsAndMasks = .ok t ∧
      Preprocessed ⟨16, Poseidon2Columns.input⟩ t := by
  have hrun : (VM.new shiftsAndMasks).run 4 = some _ := rfl
  obtain ⟨n, hsteps⟩ := steps_of_run hrun
  obtain ⟨t, ht⟩ := buildAllTraces_ok ⟨id, id, 0, 0, 0⟩ hsteps (by decide) (by decide) nofun
  have hgenerate : generateAllTraces (F := Felt) ⟨id, id, 0, 0, 0⟩ 4 shiftsAndMasks = .ok t :=
    (generateAllTraces_eq hrun).trans ht
  exact ⟨t, hgenerate, preprocessed_aligned ⟨16, Poseidon2Columns.input⟩ ⟨id, id, 0, 0, 0⟩ 4
    shiftsAndMasks t hgenerate⟩

end Preprocessed

end Loquela.Completeness
