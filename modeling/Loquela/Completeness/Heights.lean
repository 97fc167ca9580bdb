import Loquela.Completeness.Alignment
import Loquela.Completeness.Prover
import Loquela.Vm.Runs

/-! # Heights of the traces

Every matrix is padded to the smallest power of two, at least 4, that holds its rows. Within the
bounds of the prover, `2^24` on the timestamps and on the length of the program, all tables together
have fewer interactions than the characteristic of the field, modulo which the buses count.
-/

namespace Loquela.Completeness
open Air Library.Checked Trace
open Rv32i hiding bit
open Vm (Byte ExecutionStep MemoryOperation VM)

section Padding

/-- The smallest power of two, at least 4, that holds `n` rows. -/
theorem height_spec (n : ℕ) :
    ∃ k, 2 ≤ k ∧ height n = 2 ^ k ∧ n ≤ 2 ^ k ∧ (k = 2 ∨ 2 ^ k < 2 * n) := by
  rcases le_or_gt (Nat.clog 2 n) 2 with hk | hk
  · have hle : 2 ^ Nat.clog 2 n ≤ 2 ^ 2 := Nat.pow_le_pow_right (by norm_num) hk
    have hn := Nat.le_pow_clog Nat.one_lt_two n
    exact ⟨2, le_rfl, max_eq_right hle, hn.trans hle, .inl rfl⟩
  · have hle : 2 ^ 2 ≤ 2 ^ Nat.clog 2 n := Nat.pow_le_pow_right (by norm_num) hk.le
    have hlt := Nat.pow_pred_clog_lt_self Nat.one_lt_two (x := n) (by
      by_contra hn
      rw [Nat.clog_of_right_le_one (by omega)] at hk
      omega)
    refine ⟨Nat.clog 2 n, hk.le, max_eq_left hle, Nat.le_pow_clog Nat.one_lt_two n, .inr ?_⟩
    rw [← Nat.succ_pred_eq_of_pos (by omega : 0 < Nat.clog 2 n), Nat.pow_succ]
    omega

theorem height_le_double (n : ℕ) : height n ≤ 2 * n + 4 := by
  obtain ⟨k, -, hheight, -, rfl | hlt⟩ := height_spec n <;> omega

theorem height_two_pow {k : ℕ} (hk : 2 ≤ k) : height (2 ^ k) = 2 ^ k := by
  rw [height, Nat.clog_pow 2 k Nat.one_lt_two]
  exact max_eq_left (Nat.pow_le_pow_right (n := 2) (by norm_num) hk)

/-- Rows padded to the height that their number asks for. -/
theorem length_padded {α : Type*} (rows : List α) (row : α) (n : ℕ) (hn : n = rows.length) :
    (rows ++ List.replicate (height n - n) row).length = height n := by
  have hle := le_height n
  rw [List.length_append, List.length_replicate, ← hn]
  omega

end Padding

section Tables

variable {F : Type*} [Field F]

theorem length_buildDecode {steps : List ExecutionStep} {rows : List (DecodeColumns F)}
    (h : buildDecode steps = some rows) : rows.length = height steps.length := by
  obtain ⟨first, -, rfl⟩ := Option.map_eq_some_iff.mp h
  exact length_padded _ _ _ (List.length_map _).symm

theorem length_buildProgram {program : List Byte} {steps : List ExecutionStep} {padding : ℕ}
    {rows : List (ProgramColumns F)} (h : buildProgram program steps padding = some rows) :
    rows.length = height program.length := by
  rw [buildProgram] at h
  split_ifs at h
  obtain rfl := Option.some.inj h
  rw [List.length_map, List.length_range]

theorem length_buildProgramHash {P : Poseidon2 F} {program : List Byte}
    {rows : List (ProgramHashColumns F)} (h : buildProgramHash P program = some rows) :
    rows.length = height (numRealRows program + 1) := by
  rw [buildProgramHash] at h
  split_ifs at h
  obtain rfl := Option.some.inj h
  rw [List.length_map, List.length_range]

theorem length_permInputs (P : Poseidon2 F) (program : List Byte) :
    (permInputs P program).length = numRealRows program := by
  rw [permInputs, List.length_map, ← spongePass_permute, Host.spongePass_eq_passes,
    Library.Sponge.length_passes, List.length_range]

theorem length_buildPoseidon2Chip (P : Poseidon2 F) (inputs : List (SpongeState F)) :
    (buildPoseidon2Chip P inputs).length = height (inputs.length + 1) := by
  have hle := le_height (inputs.length + 1)
  rw [buildPoseidon2Chip, List.length_append, List.length_map, List.length_replicate]
  omega

theorem length_buildU32Lt (entries : List (Vm.U32 × Vm.U32)) :
    (buildU32Lt (F := F) entries).length = height entries.length :=
  length_padded _ _ _ (List.length_map _).symm

theorem length_buildTimestampLt (entries : List (ℕ × ℕ)) :
    (buildTimestampLt (F := F) entries).length = height entries.length :=
  length_padded _ _ _ (List.length_map _).symm

theorem length_kindTable {id : InstructionId} {xs : List Executed} (h : ofKind id xs ≠ []) :
    (kindTable (F := F) id xs).length = height (ofKind id xs).length := by
  rw [kindTable, kindPadding, if_neg (by simpa using h)]
  exact length_padded _ _ _ (List.length_map _).symm

variable [DecidableEq F]

theorem length_fillFlags (base : List (MemoryTuple F × F)) :
    (fillFlags base).length = base.length := by
  induction base with
  | nil => rfl
  | cons row base ih =>
    cases base with
    | nil => rfl
    | cons next base => exact congrArg Nat.succ ih

theorem length_memoryRows (ops : List MemoryOperation) :
    (fillFlags (memoryRows (F := F) ops)).length = height ops.length := by
  rw [length_fillFlags, memoryRows, ← length_sortOps ops]
  exact length_padded _ _ _ (List.length_map _).symm

theorem length_buildMemory {ops : List MemoryOperation} {rows : List (MemoryColumns F)}
    (h : buildMemory ops = some rows) : rows.length = height ops.length := by
  rw [buildMemory] at h
  split_ifs at h
  rw [← Option.some.inj h, length_memoryRows]

end Tables

section Matrices

/-- The rows of an AIR's trace that are there before padding. -/
def filled (program : List Byte) (vm : VM) : LoquelAir → ℕ
  | .boundaries => 1
  | .decode => vm.trace.length
  | .memory => vm.getMemoryOps.length
  | .program => program.length
  | .bytes => bytesAir.rows.length
  | .and | .andPrim => andAir.rows.length
  | .or | .orPrim => orAir.rows.length
  | .xor => xorAir.rows.length
  | .u32Lt => (u32LtEntries vm.getMemoryOps).length
  | .timestampLt => (timestampLtEntries vm.getMemoryOps).length
  | .bytesLt => lessThanAir.rows.length
  | .byteSll => byteShiftLeftAir.rows.length
  | .byteSrl => byteShiftRightAir.rows.length
  | .instr id => vm.trace.countP fun step => instructionId step.instruction = id
  | .programHash | .poseidon2Chip _ => numRealRows program + 1

variable {F : Type} [Field F] {L : ChipLayout F} {P : Poseidon2 F} {program : List Byte} {vm : VM}
  {t : AllTraces F}

theorem length_multiplicities {table : Table} {size : ℕ} {indices : List ℕ} {column : List F}
    (h : buildLookup table size indices = .ok column) (hsize : height size = size) :
    ((RowMajorMatrix.multiplicities column).rows L).length = height table.rows.length := by
  obtain ⟨-, hrows, -⟩ := buildLookup_eq_ok.mp h
  rw [← hrows, hsize]
  exact (List.length_map _).trans (length_of_lookup h)

variable [DecidableEq F]

/-- The table of a kind has a row for every step of the kind. -/
theorem length_instr {xs : List Executed} (hrun : RunOf program xs vm) {id : InstructionId}
    {rows : List (InstrRow F)} (h : buildInstrTrace vm.trace id = .ok (some rows)) :
    rows.length = height (filled program vm (.instr id)) := by
  have hkind : hasKind id (xs.map Executed.step) := hrun.trace ▸ (isSome_instr h).symm
  have htable := buildTrace_of_leads (F := F) hrun.leads id
  rw [if_pos hkind, ← hrun.trace, buildTrace_of_some h] at htable
  obtain ⟨x, hx, hid⟩ := hasKind_iff.mp hkind
  have hne : ofKind id xs ≠ [] :=
    List.ne_nil_of_mem (List.mem_filter.mpr ⟨hx, decide_eq_true hid⟩)
  rw [Option.some.inj htable, length_kindTable hne, filled, hrun.trace, List.countP_map, ofKind,
    ← List.countP_eq_length_filter]
  rfl

theorem length_matrix {xs : List Executed} (hrun : RunOf program xs vm)
    (h : Returned P program vm t) {air : LoquelAir} {m : RowMajorMatrix F}
    (hm : matrixOf t air = some m) : (m.rows L).length = height (filled program vm air) := by
  have hmap : ∀ {A : Type} {rows : List A} {row : A → List F} {n : ℕ}, rows.length = height n →
      (rows.map row).length = height n := fun h => (List.length_map _).trans h
  have hbitwise : height (256 * 256) = 256 * 256 := height_two_pow (k := 16) (by norm_num)
  have hshift : height (256 * 8) = 256 * 8 := height_two_pow (k := 11) (by norm_num)
  cases air with
  | boundaries =>
    obtain rfl := Option.some.inj hm
    have hfour : height 1 = 4 := by norm_num [height]
    exact hmap ((length_limbs _).trans hfour.symm)
  | decode =>
    obtain rfl := Option.some.inj hm
    exact hmap (length_buildDecode (expect_eq_ok.mp h.decode))
  | memory =>
    obtain rfl := Option.some.inj hm
    exact hmap (length_buildMemory (of_buildMemoryTrace h.memory))
  | program =>
    obtain rfl := Option.some.inj hm
    exact hmap (length_buildProgram (of_buildProgramTrace h.rom))
  | bytes =>
    obtain rfl := Option.some.inj hm
    exact length_multiplicities h.bytes (height_two_pow (k := 8) (by norm_num))
  | and =>
    obtain rfl := Option.some.inj hm
    exact length_multiplicities h.and hbitwise
  | or =>
    obtain rfl := Option.some.inj hm
    exact length_multiplicities h.or hbitwise
  | xor =>
    obtain rfl := Option.some.inj hm
    exact length_multiplicities h.xor hbitwise
  | u32Lt =>
    obtain rfl := Option.some.inj hm
    have hrows := h.u32Lt
    simp only [buildU32LtTrace, bind_eq_ok, pure_eq_ok] at hrows
    obtain ⟨_, -, hrows⟩ := hrows
    exact hmap (hrows ▸ length_buildU32Lt _)
  | timestampLt =>
    obtain rfl := Option.some.inj hm
    have hrows := h.timestampLt
    simp only [buildTimestampLtTrace, bind_eq_ok, pure_eq_ok] at hrows
    obtain ⟨_, -, hrows⟩ := hrows
    exact hmap (hrows ▸ length_buildTimestampLt _)
  | bytesLt =>
    obtain rfl := Option.some.inj hm
    obtain ⟨mults, -, hrows⟩ := bind_eq_ok.mp h.bytesLt
    rw [filled, lessThanAir_height, height_two_pow (by norm_num)]
    exact (List.length_map _).trans (length_of_buildBytesLt hrows)
  | orPrim =>
    obtain rfl := Option.some.inj hm
    exact length_multiplicities h.orPrim hbitwise
  | andPrim =>
    obtain ⟨column, hcolumn, rfl⟩ := Option.map_eq_some_iff.mp hm
    exact length_multiplicities (lookup_of_optional (hcolumn ▸ h.andPrim)) hbitwise
  | byteSll =>
    obtain ⟨column, hcolumn, rfl⟩ := Option.map_eq_some_iff.mp hm
    exact length_multiplicities (lookup_of_optional (hcolumn ▸ h.byteSll)) hshift
  | byteSrl =>
    obtain ⟨column, hcolumn, rfl⟩ := Option.map_eq_some_iff.mp hm
    exact length_multiplicities (lookup_of_optional (hcolumn ▸ h.byteSrl)) hshift
  | instr id =>
    obtain ⟨rows, hrows, rfl⟩ := Option.map_eq_some_iff.mp hm
    exact hmap (length_instr hrun (hrows ▸ h.instr id))
  | programHash =>
    obtain rfl := Option.some.inj hm
    exact hmap (length_buildProgramHash (of_buildProgramHashTrace h.programHash))
  | poseidon2Chip numRealRows =>
    rw [matrixOf] at hm
    split_ifs at hm
    obtain rfl := Option.some.inj hm
    have hrows := length_buildPoseidon2Chip P (permInputs P program)
    rw [h.poseidon2Chip, length_permInputs] at hrows
    exact hmap hrows

/-- Whenever trace generation returns, every matrix has the smallest power of two, at least 4, that
holds its rows. -/
theorem matrix_heights (L : ChipLayout F) (P : Poseidon2 F) (fuel : ℕ) (program : List Byte)
    (t : AllTraces F) (h : generateAllTraces P fuel program = .ok t) :
    ∃ vm, (VM.new program).run fuel = some vm ∧ List.Forall₂ (fun air m =>
      ∃ k, 2 ≤ k ∧ (m.rows L).length = 2 ^ k ∧ filled program vm air ≤ 2 ^ k ∧
        (k = 2 ∨ 2 ^ k < 2 * filled program vm air)) t.airs t.traces := by
  simp only [generateAllTraces, bind_eq_ok, expect_eq_ok] at h
  obtain ⟨vm, hrun, hbuild⟩ := h
  obtain ⟨n, hsteps⟩ := steps_of_run hrun
  obtain ⟨xs, hxs⟩ := exists_runOf hsteps
  have hreturned := returned hbuild
  refine ⟨vm, hrun, ?_⟩
  rw [airs_eq_present hreturned, traces_eq_held]
  refine (Library.Slots.forall₂_present (matrixOf t) _).imp fun air m hm => ?_
  rw [length_matrix hxs hreturned hm]
  exact height_spec _

theorem matrix_heights_shiftsAndMasks : ∃ t vm,
    generateAllTraces (F := Felt) ⟨id, id, 0, 0, 0⟩ 4 shiftsAndMasks = .ok t ∧
      (VM.new shiftsAndMasks).run 4 = some vm ∧ List.Forall₂ (fun air m =>
        ∃ k, 2 ≤ k ∧ (m.rows ⟨16, Poseidon2Columns.input⟩).length = 2 ^ k ∧
          filled shiftsAndMasks vm air ≤ 2 ^ k ∧
            (k = 2 ∨ 2 ^ k < 2 * filled shiftsAndMasks vm air)) t.airs t.traces := by
  have hrun : (VM.new shiftsAndMasks).run 4 = some _ := rfl
  obtain ⟨n, hsteps⟩ := steps_of_run hrun
  obtain ⟨t, ht⟩ := buildAllTraces_ok ⟨id, id, 0, 0, 0⟩ hsteps (by decide) (by decide) nofun
  have hgenerate : generateAllTraces (F := Felt) ⟨id, id, 0, 0, 0⟩ 4 shiftsAndMasks = .ok t :=
    (generateAllTraces_eq hrun).trans ht
  obtain ⟨vm, hvm, hheights⟩ := matrix_heights ⟨16, Poseidon2Columns.input⟩ ⟨id, id, 0, 0, 0⟩ 4
    shiftsAndMasks t hgenerate
  exact ⟨t, vm, hgenerate, hvm, hheights⟩

end Matrices

section Interactions

/-- The padding of the instruction tables at most doubles them, up to four rows for each kind. -/
theorem length_padding_le (xs : List Executed) :
    (padding (F := Felt) xs).length ≤ xs.length + 92 := by
  have hkind : ∀ id, (kindPadding (F := Felt) id xs).length ≤ (ofKind id xs).length + 4 := by
    intro id
    have hheight := height_le_double (ofKind id xs).length
    rw [kindPadding]
    split_ifs
    · exact Nat.zero_le _
    · rw [List.length_replicate]
      omega
  have hgroups : (InstructionId.all.flatMap fun id => ofKind id xs).Perm xs :=
    Library.Bus.flatMap_filter_perm Executed.kind (by decide) fun x _ => x.kind.mem_all
  have hsum : (InstructionId.all.map fun id => (ofKind id xs).length).sum = xs.length := by
    rw [← hgroups.length_eq, List.length_flatMap]
  calc (padding (F := Felt) xs).length
      = (InstructionId.all.map fun id => (kindPadding (F := Felt) id xs).length).sum := by
        rw [padding, List.length_flatMap]
    _ ≤ (InstructionId.all.map fun id => (ofKind id xs).length + 4).sum :=
        List.sum_le_sum fun id _ => hkind id
    _ = xs.length + 92 := by
        rw [List.sum_map_add, hsum]
        rfl

theorem length_lookups_le (r : InstrRow Felt) : r.lookups.length ≤ 21 := by
  cases r <;> exact Nat.le_of_ble_eq_true rfl

theorem length_flatMap_le {A B : Type*} {f : A → List B} {k m : ℕ} {l : List A}
    (hf : ∀ a, (f a).length ≤ k) (hl : l.length ≤ m) : (l.flatMap f).length ≤ k * m := by
  rw [List.length_flatMap]
  have hsum := List.sum_le_card_nsmul (l.map fun a => (f a).length) k
    (List.forall_mem_map.mpr fun a _ => hf a)
  rw [List.length_map, smul_eq_mul, mul_comm] at hsum
  exact hsum.trans (Nat.mul_le_mul_left k hl)

/-- The tables within the bounds of the prover. -/
structure Heights (T : TraceSet Felt) : Prop where
  rows : T.rows.length ≤ 2 ^ 25 + 92
  decode : T.decode.length ≤ 2 ^ 24
  memory : T.memory.length ≤ 2 ^ 24
  program : T.program.length ≤ 2 ^ 24
  programHash : T.programHash.length ≤ 2 ^ 20
  poseidon2Chip : T.poseidon2Chip.length ≤ 2 ^ 20
  u32Lt : T.u32Lt.length ≤ 2 ^ 24
  timestampLt : T.timestampLt.length ≤ 2 ^ 24

variable {P : Poseidon2 Felt} {program : List Byte} {xs : List Executed} {n : ℕ} {vm : VM}
  {T : TraceSet Felt}

/-- A lookup table has a row for each pair of bytes, at most. -/
theorem length_table (air : LoquelAir) {table : Table} (h : air.table = some table) :
    table.rows.length ≤ 2 ^ 16 := by
  have hbitwise (op : ℕ → ℕ → ℕ) : (bitwiseRows op).length ≤ 2 ^ 16 :=
    (length_flatMap_range _ 256 256).trans_le (by norm_num)
  have hshift (f : ℕ → ℕ → List ℕ) : ((List.range 256).flatMap fun x =>
      (List.range 8).map (f x)).length ≤ 2 ^ 16 :=
    (length_flatMap_range _ 256 8).trans_le (by norm_num)
  cases air with
  | bytes =>
    obtain rfl := Option.some.inj h
    rw [bytesAir, List.length_map, List.length_range]
    norm_num
  | bytesLt =>
    obtain rfl := Option.some.inj h
    rw [lessThanAir_height]
    norm_num
  | and | or | xor | orPrim | andPrim => exact Option.some.inj h ▸ hbitwise _
  | byteSll | byteSrl => exact Option.some.inj h ▸ hshift _
  | _ => cases h

/-- No table has as many rows as there are timestamps. -/
theorem filled_lt (h : ProvableRun program n vm) (air : LoquelAir) :
    filled program vm air < 2 ^ 24 := by
  have htime := h.timestamp
  have hlength := h.length
  have htrace : vm.trace.length ≤ vm.timestamp := by
    rw [Vm.length_trace_of_steps h.steps]
    exact (Nat.le_add_left n _).trans (Vm.timestamp_bounds h.steps).1
  have hlogged : vm.getMemoryOps.length ≤ vm.timestamp := by
    rw [Vm.timestamp_eq_of_steps h.steps]
    exact Nat.le_add_right _ _
  have hneighbours : (neighbours vm.getMemoryOps).length ≤ vm.getMemoryOps.length := by
    have hsorted := length_sortOps vm.getMemoryOps
    have hle := List.length_filter_le (fun pair : MemoryOp × MemoryOp =>
      decide (pair.1.memoryType = pair.2.memoryType))
      ((sortOps vm.getMemoryOps).zip (sortOps vm.getMemoryOps).tail)
    rw [List.length_zip, hsorted] at hle
    exact hle.trans (min_le_left _ _)
  have htable : ∀ {table : Table}, air.table = some table → table.rows.length < 2 ^ 24 :=
    fun hair => (length_table air hair).trans_lt (by norm_num)
  cases air with
  | boundaries => exact Nat.one_lt_two_pow (by norm_num)
  | decode => exact htrace.trans_lt htime
  | memory => exact hlogged.trans_lt htime
  | program => exact hlength
  | u32Lt =>
    rw [filled, u32LtEntries, List.length_map]
    exact (hneighbours.trans hlogged).trans_lt htime
  | timestampLt =>
    have hle := List.length_filter_le (fun pair : MemoryOp × MemoryOp =>
      decide (pair.1.address = pair.2.address)) (neighbours vm.getMemoryOps)
    rw [filled, timestampLtEntries, List.length_map]
    exact ((hle.trans hneighbours).trans hlogged).trans_lt htime
  | instr id =>
    exact (List.countP_le_length.trans htrace).trans_lt htime
  | programHash | poseidon2Chip =>
    rw [filled, numRealRows]
    omega
  | _ => exact htable rfl

theorem heights_of_built (h : ProvableRun program n vm) (hrun : RunOf program xs vm)
    (hT : Built P program xs vm T) : Heights T := by
  have hlength := h.length
  have hsteps := filled_lt h .decode
  have hblocks : numRealRows program + 1 < 2 ^ 20 := by
    rw [numRealRows]
    omega
  constructor
  · have htrace : vm.trace.length = xs.length := by rw [hrun.trace, List.length_map]
    rw [filled, htrace] at hsteps
    rw [hT.rows, (kindTables_perm xs).length_eq, List.length_append, List.length_map]
    have hpadding := length_padding_le xs
    omega
  · rw [length_buildDecode hT.decode]
    exact height_le_of_lt hsteps (by norm_num)
  · rw [hT.memory, length_memoryRows]
    exact height_le_of_lt (filled_lt h .memory) (by norm_num)
  · rw [length_buildProgram hT.rom]
    exact height_le_of_lt hlength (by norm_num)
  · rw [length_buildProgramHash hT.programHash]
    exact height_le_of_lt hblocks (by norm_num)
  · rw [hT.poseidon2Chip, length_buildPoseidon2Chip, length_permInputs]
    exact height_le_of_lt hblocks (by norm_num)
  · rw [hT.u32Lt, length_buildU32Lt]
    exact height_le_of_lt (filled_lt h .u32Lt) (by norm_num)
  · rw [hT.timestampLt, length_buildTimestampLt]
    exact height_le_of_lt (filled_lt h .timestampLt) (by norm_num)

/-- At most nine tables receive. -/
theorem length_tableLookups_le (T : TraceSet Felt) : T.tableLookups.length ≤ 9 * 2 ^ 16 := by
  have hoptional : ∀ (t : Table) (mult : Option (ℕ → Felt)),
      (t.optionalLookups mult).length ≤ t.rows.length := by
    intro t mult
    cases mult with
    | none => exact Nat.zero_le _
    | some mult => exact (Table.length_lookups t).le
  have hbytes : bytesAir.rows.length ≤ 2 ^ 16 := length_table .bytes rfl
  have hand : andAir.rows.length ≤ 2 ^ 16 := length_table .and rfl
  have hor : orAir.rows.length ≤ 2 ^ 16 := length_table .or rfl
  have hxor : xorAir.rows.length ≤ 2 ^ 16 := length_table .xor rfl
  have hbytesLt : lessThanAir.rows.length ≤ 2 ^ 16 := length_table .bytesLt rfl
  have hsll : byteShiftLeftAir.rows.length ≤ 2 ^ 16 := length_table .byteSll rfl
  have hsrl : byteShiftRightAir.rows.length ≤ 2 ^ 16 := length_table .byteSrl rfl
  have handPrim := (hoptional andAir T.andPrim).trans hand
  have hbyteSll := (hoptional byteShiftLeftAir T.byteSll).trans hsll
  have hbyteSrl := (hoptional byteShiftRightAir T.byteSrl).trans hsrl
  simp only [TraceSet.tableLookups, List.length_append, Table.length_lookups]
  omega

/-- Tables within the bounds of the prover have fewer interactions than the field has elements. -/
theorem interactions_lt (h : Heights T) : T.lookups.length < modulus := by
  have hrows := length_flatMap_le length_lookups_le h.rows
  have hboundaries : (boundariesLookups T.boundaries).length = 8 := rfl
  have hdecode := length_flatMap_le (f := DecodeColumns.lookups) (k := 7)
    (fun c => Nat.le_of_ble_eq_true rfl) h.decode
  have hmemory : (memoryLookups T.memory).length ≤ 3 * 2 ^ 24 := by
    apply length_flatMap_le (fun c => Nat.le_of_ble_eq_true rfl)
    rw [List.length_zip]
    exact (min_le_left _ _).trans h.memory
  have hprogram := length_flatMap_le (f := ProgramColumns.lookups) (k := 2)
    (fun c => Nat.le_of_ble_eq_true rfl) h.program
  have hhash := length_flatMap_le (f := ProgramHashColumns.lookups) (k := 49)
    (fun c => Nat.le_of_ble_eq_true rfl) h.programHash
  have hchip := length_flatMap_le (f := Poseidon2Columns.lookups) (k := 1)
    (fun c => Nat.le_of_ble_eq_true rfl) h.poseidon2Chip
  have hu32Lt := length_flatMap_le (f := U32LessThanColumns.lookups) (k := 5)
    (fun c => Nat.le_of_ble_eq_true rfl) h.u32Lt
  have htimestampLt := length_flatMap_le (f := TimestampLessThanColumns.lookups) (k := 1)
    (fun c => Nat.le_of_ble_eq_true rfl) h.timestampLt
  have htables := length_tableLookups_le T
  have hmodulus : (2 ^ 31 - 2 ^ 27 : ℕ) < modulus := by norm_num
  simp only [TraceSet.lookups, List.length_append, programLookups, programHashLookups]
  omega

/-- The prover's tables and interactions stay within the field, for every run it can prove. -/
theorem traces_bounded (L : ChipLayout Felt) (P : Poseidon2 Felt) (program : List Byte) (n : ℕ)
    (vm : VM) (h : ProvableRun program n vm) : ∃ t, buildAllTraces P program vm = .ok t ∧
      (∀ m ∈ t.traces, (m.rows L).length ≤ 2 ^ 24) ∧
      (toTraceSet t).lookups.length < modulus := by
  obtain ⟨xs, t, hrun, -, ht, hT⟩ := h.exists_built P
  have hreturned := returned ht
  refine ⟨t, ht, ?_, interactions_lt (heights_of_built h hrun hT)⟩
  intro m hm
  rw [traces_eq_held] at hm
  obtain ⟨air, -, hair⟩ := List.mem_filterMap.mp hm
  rw [length_matrix hrun hreturned hair]
  exact height_le_of_lt (filled_lt h air) (by norm_num)

theorem traces_bounded_shiftsAndMasks : ∃ vm t, (VM.new shiftsAndMasks).steps 1 = some vm ∧
    buildAllTraces (F := Felt) ⟨id, id, 0, 0, 0⟩ shiftsAndMasks vm = .ok t ∧
      (∀ m ∈ t.traces, (m.rows ⟨16, Poseidon2Columns.input⟩).length ≤ 2 ^ 24) ∧
      (toTraceSet t).lookups.length < modulus := by
  obtain ⟨vm, h, -⟩ := provableRun_firstStep
  obtain ⟨t, ht, hbounds⟩ := traces_bounded ⟨16, Poseidon2Columns.input⟩ ⟨id, id, 0, 0, 0⟩
    shiftsAndMasks 1 vm h
  exact ⟨vm, t, h.steps, ht, hbounds⟩

end Interactions

end Loquela.Completeness
