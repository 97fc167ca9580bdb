import Loquela.Completeness.Agreement
import Loquela.Completeness.ProgramHash
import Loquela.Trace.Pipeline

/-! # The trace pipeline does not panic

What the pipeline returns are the traces of the builders, and it returns them for every completed
run with a memory operation.
-/

namespace Loquela.Completeness
open Air Library.Checked Trace
open Rv32i hiding bit
open Vm (Byte ExecutionStep MemoryOperation ofRv32i U32 VM)

section Returns

variable {F : Type} [Field F]

/-- A column of multiplicities, zero past its end. -/
def multiplicityAt (column : List F) (i : ℕ) : F := column.getD i 0

/-- The public values in the order of their list. -/
def publicValuesAt (values : List F) : PublicValues F :=
  ⟨fun i => values.getD i 0, values.getD 8 0⟩

/-- The tables of a proof. -/
def toTraceSet (t : AllTraces F) : TraceSet F where
  rows := InstructionId.all.flatMap fun id => (t.instr id).getD []
  boundaries := t.boundaries
  decode := t.decode
  memory := t.memory
  program := t.program
  programHash := t.programHash
  programHashPublicValues := publicValuesAt t.programHashPublicValues
  poseidon2Chip := t.poseidon2Chip
  u32Lt := t.u32Lt
  timestampLt := t.timestampLt
  bytes := multiplicityAt t.bytes
  and := multiplicityAt t.and
  or := multiplicityAt t.or
  xor := multiplicityAt t.xor
  bytesLt := multiplicityAt (t.bytesLt.map Prod.fst)
  orPrim := multiplicityAt t.orPrim
  andPrim := t.andPrim.map multiplicityAt
  byteSll := t.byteSll.map multiplicityAt
  byteSrl := t.byteSrl.map multiplicityAt

variable {t : Table} {size : ℕ} {indices : List ℕ} {column : List F}

theorem buildLookup_eq_ok : buildLookup t size indices = .ok column ↔
    (∀ i ∈ indices, i < size) ∧ size = t.rows.length ∧
      (List.range size).map (fun i => (indices.count i : F)) = column := by
  simp only [buildLookup, bind_eq_ok, counts_eq_ok, require_eq_ok, pure_eq_ok]
  constructor
  · rintro ⟨_, ⟨hindices, rfl⟩, _, hlength, rfl⟩
    exact ⟨hindices, by simpa using hlength, rfl⟩
  · rintro ⟨hindices, hlength, rfl⟩
    exact ⟨_, ⟨hindices, rfl⟩, ⟨⟩, by simpa using hlength, rfl⟩

/-- The counters are the multiplicities of the entries. -/
theorem multiplicityAt_counts (hindices : ∀ i ∈ indices, i < size) :
    multiplicityAt ((List.range size).map fun i => (indices.count i : F)) =
      tableMults indices := by
  funext i
  rw [tableMults_eq_count, multiplicityAt, List.getD_eq_getElem?_getD, List.getElem?_map]
  by_cases hi : i < size
  · rw [List.getElem?_range hi]
    rfl
  · have hnone : (List.range size)[i]? = none := List.getElem?_eq_none (by simpa using hi)
    have hcount : indices.count i = 0 := List.count_eq_zero.mpr fun hmem => hi (hindices i hmem)
    rw [hnone, hcount]
    exact Nat.cast_zero.symm

theorem multiplicityAt_of_buildLookup (h : buildLookup t size indices = .ok column) :
    multiplicityAt column = tableMults indices := by
  obtain ⟨hindices, -, rfl⟩ := buildLookup_eq_ok.mp h
  exact multiplicityAt_counts hindices

/-- Padding with zeros changes no multiplicity. -/
theorem multiplicityAt_padded {n : ℕ} (hlength : column.length ≤ n) :
    multiplicityAt ((List.range n).map fun i => column.getD i 0) = multiplicityAt column := by
  funext i
  rw [multiplicityAt, multiplicityAt, List.getD_eq_getElem?_getD, List.getElem?_map]
  by_cases hi : i < n
  · rw [List.getElem?_range hi]
    rfl
  · have hnone : (List.range n)[i]? = none := List.getElem?_eq_none (by simpa using hi)
    have hnone' : column[i]? = none := List.getElem?_eq_none (by omega)
    rw [hnone, List.getD_eq_getElem?_getD, hnone']
    rfl

theorem multiplicityAt_of_buildOptional {condition : Bool} {table : Option (List F)}
    (h : buildOptional condition t size indices = .ok table) :
    table.map multiplicityAt = if condition then some (tableMults indices) else none := by
  cases condition with
  | false =>
    rw [buildOptional, if_neg Bool.false_ne_true, pure_eq_ok] at h
    rw [← h]
    rfl
  | true =>
    rw [buildOptional, if_pos rfl, map_eq_pure_bind, bind_eq_ok] at h
    obtain ⟨column, hcolumn, htable⟩ := h
    rw [← pure_eq_ok.mp htable, if_pos rfl, Option.map_some, multiplicityAt_of_buildLookup hcolumn]

theorem multiplicityAt_of_buildBytesLt {ops : List MemoryOperation} {mults : List F}
    {rows : List (F × F)} (hmults : bytesLtMults ops = .ok mults)
    (hrows : buildBytesLt mults = .ok rows) :
    multiplicityAt (rows.map Prod.fst) = tableMults (bytesLtEntries ops) := by
  simp only [bytesLtMults, bind_eq_ok, counts_eq_ok] at hmults
  obtain ⟨_, -, hindices, hmults⟩ := hmults
  simp only [buildBytesLt, bind_eq_ok, require_eq_ok, pure_eq_ok] at hrows
  obtain ⟨_, hlength, _, -, rfl⟩ := hrows
  have hle : 256 * 255 / 2 ≤ 2 ^ 15 := by norm_num
  calc multiplicityAt (((List.range (2 ^ 15)).map fun i => (mults.getD i 0, (0 : F))).map Prod.fst)
      = multiplicityAt ((List.range (2 ^ 15)).map fun i => mults.getD i 0) := by
        rw [List.map_map, Function.comp_def]
    _ = multiplicityAt mults := multiplicityAt_padded (hlength.trans hle)
    _ = tableMults (bytesLtEntries ops) := by rw [← hmults, multiplicityAt_counts hindices]

theorem of_buildProgramTrace {program : List Byte} {steps : List ExecutionStep}
    {rows : List (ProgramColumns F)} (h : buildProgramTrace program steps = .ok rows) :
    buildProgram program steps (height steps.length - steps.length) = some rows := by
  simp only [buildProgramTrace, bind_eq_ok, expect_eq_ok, pure_eq_ok] at h
  obtain ⟨_, hrows, _, -, rfl⟩ := h
  exact hrows

theorem of_buildProgramHashTrace {P : Poseidon2 F} {program : List Byte}
    {rows : List (ProgramHashColumns F)} (h : buildProgramHashTrace P program = .ok rows) :
    buildProgramHash P program = some rows := by
  simp only [buildProgramHashTrace, bind_eq_ok, expect_eq_ok, pure_eq_ok] at h
  obtain ⟨_, hrows, _, -, _, -, rfl⟩ := h
  exact hrows

theorem of_buildPublicValues {P : Poseidon2 F} {program : List Byte} {values : List F}
    (h : buildPublicValues P program = .ok values) :
    publicValuesAt values = publicValues P program := by
  simp only [buildPublicValues, bind_eq_ok, pure_eq_ok] at h
  obtain ⟨_, -, rfl⟩ := h
  rw [publicValuesAt, PublicValues.mk.injEq]
  constructor
  · funext i
    fin_cases i <;> rfl
  · rfl

variable [DecidableEq F]

theorem mem_buildOrder (id : InstructionId) : id ∈ buildOrder := by
  cases id <;> decide

/-- The table of a kind, when there is one. -/
theorem buildTrace_of_buildInstrTrace {steps : List ExecutionStep} {id : InstructionId}
    {rows : Option (List (InstrRow F))} (h : buildInstrTrace steps id = .ok rows) :
    (if hasKind id steps then buildTrace id steps else some []) = some (rows.getD []) := by
  by_cases hkind : hasKind id steps
  · simp only [buildInstrTrace, hkind, if_true, bind_eq_ok, expect_eq_ok, pure_eq_ok] at h
    obtain ⟨_, -, table, htable, _, -, rfl⟩ := h
    rw [if_pos hkind, htable]
    rfl
  · rw [buildInstrTrace, if_neg hkind, pure_eq_ok] at h
    rw [if_neg hkind, ← h]
    rfl

theorem instructionTraces_of_tabulate {steps : List ExecutionStep}
    {instr : InstructionId → Option (List (InstrRow F))}
    (h : tabulate buildOrder (buildInstrTrace steps) = .ok instr) :
    instructionTraces steps = some (InstructionId.all.map fun id => (instr id).getD []) := by
  have hinstr := (tabulate_eq_ok mem_buildOrder).mp h
  rw [instructionTraces, funext fun id => buildTrace_of_buildInstrTrace (hinstr id)]
  exact List.mapM_pure

theorem of_buildMemoryTrace {ops : List MemoryOperation} {rows : List (MemoryColumns F)}
    (h : buildMemoryTrace ops = .ok rows) : buildMemory ops = some rows := by
  simp only [buildMemoryTrace, bind_eq_ok, expect_eq_ok, pure_eq_ok] at h
  obtain ⟨_, hrows, _, -, rfl⟩ := h
  exact hrows

/-- The pipeline returns the tables of the builders. -/
theorem buildTraces_of_buildAllTraces {P : Poseidon2 F} {program : List Byte} {vm : VM}
    {t : AllTraces F} (h : buildAllTraces P program vm = .ok t) :
    buildTraces P program vm = some (toTraceSet t) := by
  simp only [buildAllTraces, bind_eq_ok, pure_eq_ok] at h
  obtain ⟨_, -, decode, hdecode, instr, hinstr, memory, hmemory, rom, hrom, mults, hmults, bytes,
    hbytes, xor, hxor, or, hor, and, hand, orPrim, horPrim, andPrim, handPrim, byteSll, hbyteSll,
    byteSrl, hbyteSrl, u32Lt, hu32Lt, timestampLt, htimestampLt, bytesLt, hbytesLt, hash, hhash,
    values, hvalues, rfl⟩ := h
  have hrows := instructionTraces_of_tabulate hinstr
  simp only [buildU32LtTrace, bind_eq_ok, pure_eq_ok] at hu32Lt
  simp only [buildTimestampLtTrace, bind_eq_ok, pure_eq_ok] at htimestampLt
  obtain ⟨_, -, rfl⟩ := hu32Lt
  obtain ⟨_, -, rfl⟩ := htimestampLt
  simp only [buildTraces, expect_eq_ok.mp hdecode, hrows, of_buildMemoryTrace hmemory,
    of_buildProgramTrace hrom, of_buildProgramHashTrace hhash, Option.bind_eq_bind,
    Option.bind_some]
  simp only [toTraceSet, of_buildPublicValues hvalues, multiplicityAt_of_buildLookup hbytes,
    multiplicityAt_of_buildLookup hxor, multiplicityAt_of_buildLookup hor,
    multiplicityAt_of_buildLookup hand, multiplicityAt_of_buildLookup horPrim,
    multiplicityAt_of_buildOptional handPrim, multiplicityAt_of_buildOptional hbyteSll,
    multiplicityAt_of_buildOptional hbyteSrl, multiplicityAt_of_buildBytesLt hmults hbytesLt,
    List.flatMap_def]
  rfl

/-- For the log of a run, the tables that the other completeness results are about. -/
theorem built_of_buildAllTraces {P : Poseidon2 F} {program : List Byte} {xs : List Executed}
    {vm : VM} {t : AllTraces F} (hrun : RunOf program xs vm) (hops : vm.getMemoryOps ≠ [])
    (h : buildAllTraces P program vm = .ok t) : Built P program xs vm (toTraceSet t) := by
  obtain ⟨T, hT, hbuilt⟩ := exists_built P hrun hops
  rw [buildTraces_of_buildAllTraces h] at hT
  rw [Option.some.inj hT]
  exact hbuilt

end Returns

section Total

variable {program : List Byte} {xs : List Executed} {vm : VM} {n : ℕ}

/-- The timestamp of a run counts what its steps consume. -/
theorem sum_ticks {start finish : U32 × ℕ} (h : Leads start xs finish) :
    start.2 + (xs.map Executed.ticks).sum = finish.2 := by
  induction xs generalizing start with
  | nil => exact congrArg Prod.snd h
  | cons x xs ih =>
    obtain ⟨rfl, h⟩ := h
    rw [List.map_cons, List.sum_cons, ← add_assoc]
    exact ih h

theorem runningTs_ok (hrun : RunOf program xs vm) (htime : vm.timestamp < 2 ^ 32)
    (id : InstructionId) : ∃ ts, runningTs id vm.trace = .ok ts := by
  rw [runningTs]
  split_ifs
  · have hticks : vm.trace.map consumed = xs.map Executed.ticks := by
      rw [hrun.trace, List.map_map]
      exact List.map_congr_left fun x _ => consumed_step x
    have hsum : 0 + (vm.trace.map consumed).sum = vm.timestamp := by
      rw [hticks]
      exact sum_ticks hrun.leads
    exact ⟨_, (foldlM_addBelow (by norm_num)).mpr ⟨hsum.trans_lt htime, rfl⟩⟩
  · exact ⟨0, rfl⟩

theorem exists_of_mem_extractSteps (hrun : RunOf program xs vm) {id : InstructionId}
    {step : ExecutionStep} (h : step ∈ extractSteps Felt id vm.trace) :
    ∃ x ∈ xs, x.step = step := by
  obtain ⟨entry, hentry, rfl⟩ := List.mem_map.mp h
  have hmem := (List.mem_filter.mp hentry).1
  rw [hrun.trace, withEntryTimestamps_of_leads hrun.leads] at hmem
  obtain ⟨x, hx, rfl⟩ := List.mem_map.mp hmem
  exact ⟨x, hx, rfl⟩

theorem fillRowChecks_ok (x : Executed) (h : ¬ x.instr.isJump → x.pc.toNat + 4 < 2 ^ 32) :
    fillRowChecks Felt x.step = .ok () := by
  obtain ⟨pc, timestamp, registers, i⟩ := x
  cases i with
  | opImm op rd rs1 imm => cases op <;> exact require_eq_ok.mpr (h nofun)
  | shiftImm op rd rs1 shamt => cases op <;> exact require_eq_ok.mpr (h nofun)
  | opReg op rd rs1 rs2 => cases op <;> exact require_eq_ok.mpr (h nofun)
  | lui rd imm => exact require_eq_ok.mpr (h nofun)
  | auipc rd imm => exact require_eq_ok.mpr (h nofun)
  | jal rd offset =>
    apply require_eq_ok.mpr
    by_cases hrd : rd = 0
    · exact .inl hrd
    · have hlt : rd.toNat < modulus := rd.isLt.trans (by norm_num)
      exact .inr (natCast_ne_zero hlt fun hzero => hrd (BitVec.eq_of_toNat_eq hzero))
  | jalr rd rs1 imm => rfl

theorem buildInstrTrace_ok (hrun : RunOf program xs vm) (htime : vm.timestamp < 2 ^ 32)
    (id : InstructionId) :
    ∃ rows : Option (List (InstrRow Felt)), buildInstrTrace vm.trace id = .ok rows := by
  by_cases hkind : hasKind id vm.trace
  · obtain ⟨ts, hts⟩ := runningTs_ok hrun htime id
    have htable := buildTrace_of_leads (F := Felt) hrun.leads id
    rw [← hrun.trace, if_pos hkind] at htable
    have hchecks : forM (extractSteps Felt id vm.trace) (fillRowChecks Felt) = .ok () := by
      apply forM_eq_ok.mpr
      intro step hstep
      obtain ⟨x, hx, rfl⟩ := exists_of_mem_extractSteps hrun hstep
      exact fillRowChecks_ok x (hrun.inRange x hx)
    rw [buildInstrTrace, if_pos hkind]
    simp only [bind_eq_ok, expect_eq_ok, pure_eq_ok]
    exact ⟨_, ts, hts, _, htable, _, hchecks, rfl⟩
  · exact ⟨none, by rw [buildInstrTrace, if_neg hkind]; rfl⟩

theorem instrTraces_ok (hrun : RunOf program xs vm) (htime : vm.timestamp < 2 ^ 32) :
    ∃ instr : InstructionId → Option (List (InstrRow Felt)),
      tabulate buildOrder (buildInstrTrace vm.trace) = .ok instr := by
  choose instr hinstr using buildInstrTrace_ok hrun htime
  exact ⟨instr, (tabulate_eq_ok mem_buildOrder).mpr hinstr⟩

theorem buildDecodeTrace_ok {steps : List ExecutionStep} (h : steps ≠ []) :
    ∃ rows : List (DecodeColumns Felt), buildDecodeTrace steps = .ok rows :=
  ⟨_, expect_eq_ok.mpr (congrArg (Option.map _) (List.head?_eq_some_head h))⟩

theorem buildMemoryTrace_ok {ops : List MemoryOperation} (h : ops ≠ []) :
    ∃ rows : List (MemoryColumns Felt), buildMemoryTrace ops = .ok rows := by
  have hrows : buildMemory ops = some (fillFlags (memoryRows (F := Felt) ops)) :=
    if_neg (by simpa using h)
  simp only [buildMemoryTrace, bind_eq_ok, expect_eq_ok, pure_eq_ok, inBounds_eq_ok]
  refine ⟨_, _, hrows, ⟨⟩, fun i hi => ?_, rfl⟩
  exact (List.mem_range.mp hi).trans_le (le_height _)

theorem fetchIndices_lt (numRows : ℕ) (steps : List ExecutionStep) :
    ∀ i ∈ fetchIndices numRows steps, i < numRows := by
  intro i hi
  rcases List.mem_append.mp hi with hi | hi
  · exact of_decide_eq_true (List.mem_filter.mp hi).2
  · exact (List.mem_range.mp hi).trans_le (min_le_right _ _)

theorem buildProgramTrace_ok (hprogram : program ≠ []) (steps : List ExecutionStep) :
    ∃ rows : List (ProgramColumns Felt), buildProgramTrace program steps = .ok rows := by
  obtain ⟨rows, hrows⟩ : ∃ rows : List (ProgramColumns Felt), buildProgram program steps
      (height steps.length - steps.length) = some rows := ⟨_, if_neg (by simpa using hprogram)⟩
  simp only [buildProgramTrace, bind_eq_ok, expect_eq_ok, pure_eq_ok, inBounds_eq_ok]
  exact ⟨rows, rows, hrows, ⟨⟩, fetchIndices_lt _ _, rfl⟩

theorem buildProgramHashTrace_ok (P : Poseidon2 Felt) (hprogram : program ≠ [])
    (hlength : program.length < 2 ^ 32) :
    ∃ rows, buildProgramHashTrace P program = .ok rows := by
  obtain ⟨rows, hrows⟩ : ∃ rows, buildProgramHash P program = some rows :=
    ⟨_, if_neg (by simpa using hprogram)⟩
  have hheight : numRealRows program + 1 ≤ rows.length := by
    rw [buildProgramHash_eq hrows, List.length_map, List.length_range]
    exact le_height _
  simp only [buildProgramHashTrace, bind_eq_ok, expect_eq_ok, pure_eq_ok, inBounds_eq_ok]
  refine ⟨rows, rows, hrows, _, (foldlM_addBelow (by norm_num)).mpr ⟨?_, rfl⟩, ⟨⟩, ?_, rfl⟩
  · rw [sum_activeCount]
    omega
  · intro i hi
    have := List.mem_range.mp (List.mem_reverse.mp hi)
    omega

theorem buildPublicValues_ok (P : Poseidon2 Felt) (program : List Byte) :
    ∃ values, buildPublicValues P program = .ok values := by
  refine ⟨_, bind_eq_ok.mpr ⟨⟨⟩, require_eq_ok.mpr ?_, rfl⟩⟩
  simp

theorem buildLookup_ok {t : Table} {size : ℕ} {indices : List ℕ} (hsize : size = t.rows.length)
    (hindices : ∀ i ∈ indices, i < t.rows.length) :
    ∃ column : List Felt, buildLookup t size indices = .ok column :=
  ⟨_, buildLookup_eq_ok.mpr ⟨by rwa [hsize], hsize, rfl⟩⟩

theorem buildOptional_ok {t : Table} {size : ℕ} {indices : List ℕ} (hsize : size = t.rows.length)
    (hindices : ∀ i ∈ indices, i < t.rows.length) (condition : Bool) :
    ∃ column : Option (List Felt), buildOptional condition t size indices = .ok column := by
  obtain ⟨column, hcolumn⟩ := buildLookup_ok hsize hindices
  cases condition with
  | false => exact ⟨none, rfl⟩
  | true => exact ⟨some column, by rw [buildOptional, if_pos rfl, hcolumn]; rfl⟩

theorem bytesAir_height : bytesAir.rows.length = 256 := by
  rw [bytesAir, List.length_map, List.length_range]

theorem bitwiseRows_length (op : ℕ → ℕ → ℕ) : (bitwiseRows op).length = 256 * 256 :=
  length_flatMap_range _ 256 256

theorem byteShiftLeftAir_height : byteShiftLeftAir.rows.length = 256 * 8 :=
  length_flatMap_range _ 256 8

theorem byteShiftRightAir_height : byteShiftRightAir.rows.length = 256 * 8 :=
  length_flatMap_range _ 256 8

theorem flatMap_lt {entries : ExecutionStep → List ℕ} {size : ℕ}
    (h : ∀ step, ∀ i ∈ entries step, i < size) (steps : List ExecutionStep) :
    ∀ i ∈ steps.flatMap entries, i < size := by
  intro i hi
  obtain ⟨step, -, hi⟩ := List.mem_flatMap.mp hi
  exact h step i hi

theorem buildU32LtTrace_ok (entries : List (U32 × U32)) :
    ∃ rows : List (U32LessThanColumns Felt), buildU32LtTrace entries = .ok rows := by
  refine ⟨_, bind_eq_ok.mpr ⟨⟨⟩, ?_, rfl⟩⟩
  simp only [forM_eq_ok, require_eq_ok]
  intro entry _ i _
  by_cases h : leBytes entry.1 i = leBytes entry.2 i
  · exact .inl h
  · have hlt : ∀ v : U32, leBytes v i < modulus := fun v => (leBytes_lt v i).trans (by norm_num)
    exact .inr (natCast_sub_ne_zero (hlt _) (hlt _) (Ne.symm h))

theorem buildTimestampLtTrace_ok {entries : List (ℕ × ℕ)}
    (h : ∀ entry ∈ entries, entry.1 < 2 ^ 24 ∧ entry.2 < 2 ^ 24) :
    ∃ rows : List (TimestampLessThanColumns Felt), buildTimestampLtTrace entries = .ok rows := by
  refine ⟨_, bind_eq_ok.mpr ⟨⟨⟩, ?_, rfl⟩⟩
  rw [forM_eq_ok]
  intro entry hentry
  obtain ⟨hx, hy⟩ := h entry hentry
  simp only [timestampLtChecks, bind_eq_ok, require_eq_ok, addBelow_eq_ok, subtract_eq_ok]
  refine ⟨⟨⟩, hx, ⟨⟩, hy, _, ⟨?_, rfl⟩, _, ⟨?_, rfl⟩, ?_⟩
  · omega
  · omega
  · by_cases hne : entry.1 = entry.2
    · exact .inl hne
    · exact .inr (natCast_sub_ne_zero (hx.trans (by norm_num)) (hy.trans (by norm_num)) hne)

theorem timestampLtEntries_lt (hrun : (VM.new program).steps n = some vm)
    (htime : vm.timestamp < 2 ^ 24) :
    ∀ entry ∈ timestampLtEntries vm.getMemoryOps, entry.1 < 2 ^ 24 ∧ entry.2 < 2 ^ 24 := by
  have hops : ∀ op ∈ sortOps vm.getMemoryOps, op.timestamp < 2 ^ 24 := by
    intro op hop
    obtain ⟨o, ho, rfl⟩ := mem_sortOps.mp hop
    exact (timestamp_of_mem hrun o ho).trans htime
  intro entry hentry
  obtain ⟨pair, hpair, rfl⟩ := List.mem_map.mp hentry
  have hmem := (List.mem_filter.mp (List.mem_filter.mp hpair).1).1
  obtain ⟨h₁, h₂⟩ := List.of_mem_zip hmem
  exact ⟨hops _ h₁, hops _ (List.mem_of_mem_tail h₂)⟩

/-- Different bytes have a positive maximum. -/
theorem bytesLtPairs_pos (ops : List MemoryOperation) : ∀ pair ∈ bytesLtPairs ops, 1 ≤ pair.2 := by
  intro pair hpair
  obtain ⟨ends, -, hpair⟩ := List.mem_filterMap.mp hpair
  obtain ⟨i, hi, rfl⟩ := Option.map_eq_some_iff.mp hpair
  have hne := (highestDifference_some hi).1
  show 1 ≤ max (leBytes ends.1.address i) (leBytes ends.2.address i)
  omega

/-- The counted rows are those of valid pairs, not of the padding of the table. -/
theorem bytesLtEntries_lt (ops : List MemoryOperation) :
    ∀ i ∈ bytesLtEntries ops, i < 256 * 255 / 2 := by
  intro i hi
  rw [bytesLtEntries_eq] at hi
  obtain ⟨entry, hentry, hi⟩ := List.mem_filterMap.mp hi
  obtain ⟨k, hk, rfl⟩ := Option.map_eq_some_iff.mp hi
  have hlt := highestDifference_lt (u32LtEntries_le ops entry hentry) hk
  have hrow := lt_of_getElem? (lessThanPairs_getElem? hlt (leBytes_lt entry.2 k))
  rw [lessThanPairs_length] at hrow
  rwa [bytesLtRow, max_eq_right hlt.le, min_eq_left hlt.le]

theorem bytesLtMults_ok (ops : List MemoryOperation) :
    ∃ mults : List Felt, bytesLtMults ops = .ok mults ∧ mults.length = 256 * 255 / 2 := by
  refine ⟨_, bind_eq_ok.mpr ⟨⟨⟩, ?_, counts_eq_ok.mpr ⟨bytesLtEntries_lt ops, rfl⟩⟩, ?_⟩
  · simp only [forM_eq_ok, require_eq_ok]
    exact bytesLtPairs_pos ops
  · rw [List.length_map, List.length_range]

theorem buildBytesLt_ok {mults : List Felt} (h : mults.length = 256 * 255 / 2) :
    ∃ rows, buildBytesLt mults = .ok rows := by
  simp only [buildBytesLt, bind_eq_ok, require_eq_ok, inBounds_eq_ok, pure_eq_ok]
  refine ⟨_, ⟨⟩, h.le, ⟨⟩, fun i hi => ?_, rfl⟩
  obtain ⟨k, hk, rfl⟩ := List.mem_map.mp hi
  have := List.mem_range.mp hk
  omega

theorem buildAllTraces_ok (P : Poseidon2 Felt) (hsteps : (VM.new program).steps n = some vm)
    (hlength : program.length < 2 ^ 32) (htime : vm.timestamp < 2 ^ 24)
    (hops : vm.getMemoryOps ≠ []) :
    ∃ t, buildAllTraces P program vm = .ok t := by
  obtain ⟨xs, hrun⟩ := exists_runOf hsteps
  obtain ⟨htrace, hprogram⟩ := ne_nil_of_ops hrun hops
  obtain ⟨last, hlast⟩ : ∃ last, vm.trace.getLast? = some last :=
    ⟨_, List.getLast?_eq_some_getLast htrace⟩
  obtain ⟨decode, hdecode⟩ := buildDecodeTrace_ok htrace
  obtain ⟨instr, hinstr⟩ := instrTraces_ok hrun (htime.trans (by norm_num))
  obtain ⟨memory, hmemory⟩ := buildMemoryTrace_ok hops
  obtain ⟨rom, hrom⟩ := buildProgramTrace_ok hprogram vm.trace
  obtain ⟨mults, hmults, hmultsLength⟩ := bytesLtMults_ok vm.getMemoryOps
  obtain ⟨bytes, hbytes⟩ := buildLookup_ok bytesAir_height.symm
    (bytesEntries_lt program vm.trace)
  obtain ⟨xor, hxor⟩ := buildLookup_ok (t := xorAir) (bitwiseRows_length _).symm
    (flatMap_lt xorEntries_lt vm.trace)
  obtain ⟨or, hor⟩ := buildLookup_ok (t := orAir) (bitwiseRows_length _).symm
    (flatMap_lt oriEntries_lt vm.trace)
  obtain ⟨and, hand⟩ := buildLookup_ok (t := andAir) (bitwiseRows_length _).symm
    (flatMap_lt andiEntries_lt vm.trace)
  obtain ⟨orPrim, horPrim⟩ := buildLookup_ok (t := orAir) (bitwiseRows_length _).symm
    (flatMap_lt orEntries_lt vm.trace)
  obtain ⟨andPrim, handPrim⟩ := buildOptional_ok (t := andAir) (bitwiseRows_length _).symm
    (flatMap_lt andEntries_lt vm.trace) (hasKind .and vm.trace)
  obtain ⟨byteSll, hbyteSll⟩ := buildOptional_ok byteShiftLeftAir_height.symm
    (flatMap_lt byteSllEntries_lt vm.trace) (hasKind .sll vm.trace || hasKind .slli vm.trace)
  obtain ⟨byteSrl, hbyteSrl⟩ := buildOptional_ok byteShiftRightAir_height.symm
    (flatMap_lt byteSrlEntries_lt vm.trace) (hasKind .srl vm.trace || hasKind .sra vm.trace ||
      hasKind .srli vm.trace || hasKind .srai vm.trace)
  obtain ⟨u32Lt, hu32Lt⟩ := buildU32LtTrace_ok (u32LtEntries vm.getMemoryOps)
  obtain ⟨timestampLt, htimestampLt⟩ :=
    buildTimestampLtTrace_ok (timestampLtEntries_lt hsteps htime)
  obtain ⟨bytesLt, hbytesLt⟩ := buildBytesLt_ok hmultsLength
  obtain ⟨hash, hhash⟩ := buildProgramHashTrace_ok P hprogram hlength
  obtain ⟨values, hvalues⟩ := buildPublicValues_ok P program
  simp only [buildAllTraces, bind_eq_ok, pure_eq_ok, expect_eq_ok]
  exact ⟨_, last, hlast, decode, hdecode, instr, hinstr, memory, hmemory, rom,
    hrom, mults, hmults, bytes, hbytes, xor, hxor, or, hor, and, hand, orPrim, horPrim, andPrim,
    handPrim, byteSll, hbyteSll, byteSrl, hbyteSrl, u32Lt, hu32Lt, timestampLt, htimestampLt,
    bytesLt, hbytesLt, hash, hhash, values, hvalues, rfl⟩

end Total

section Flatten

variable {F : Type} [Field F] [DecidableEq F]

theorem flatten_eq_append {α : Type*} {ls : List (List α)} {last : List α}
    (h : last ∈ ls.getLast?) : ∃ front, ls.flatten = front ++ last := by
  obtain ⟨init, rfl⟩ := List.getLast?_eq_some_iff.mp h
  exact ⟨init.flatten, by simp⟩

/-- Whatever kinds occur, the hash and the chip come last. -/
theorem buildAirs_eq_append (steps : List ExecutionStep) (numRealRows : ℕ) :
    ∃ front, buildAirs steps numRealRows = front ++ [.programHash, .poseidon2Chip numRealRows] :=
  flatten_eq_append rfl

theorem airs_of_buildAllTraces {P : Poseidon2 F} {program : List Byte} {vm : VM} {t : AllTraces F}
    (h : buildAllTraces P program vm = .ok t) :
    t.airs = buildAirs vm.trace (permInputs P program).length := by
  simp only [buildAllTraces, bind_eq_ok, pure_eq_ok] at h
  obtain ⟨_, -, _, -, _, -, _, -, _, -, _, -, _, -, _, -, _, -, _, -, _, -, _, -, _, -, _, -, _, -,
    _, -, _, -, _, -, _, -, rfl⟩ := h
  rfl

theorem intoVecs_ok {P : Poseidon2 F} {program : List Byte} {vm : VM} {t : AllTraces F}
    (h : buildAllTraces P program vm = .ok t) : ∃ out, t.intoVecs = .ok out := by
  obtain ⟨front, hfront⟩ := buildAirs_eq_append vm.trace (permInputs P program).length
  rw [← airs_of_buildAllTraces h] at hfront
  simp only [AllTraces.intoVecs, bind_eq_ok, subtract_eq_ok, require_eq_ok, inBounds_eq_ok,
    pure_eq_ok]
  refine ⟨_, front.length, ⟨?_, ?_⟩, ⟨⟩, ?_, ⟨⟩, ?_, ⟨⟩, ?_, rfl⟩
  · simp [hfront]
  · simp [hfront]
  · simp [hfront]
  · simp [hfront, LoquelAir.isPoseidon2Chip]
  · simp [hfront]

end Flatten

section Jumps

variable {program : List Byte} {xs : List Executed} {vm : VM}

/-- Only a jump to `x0` logs no operation. -/
theorem memoryOps_eq_nil_iff (x : Executed) :
    x.step.memoryOps = [] ↔ ∃ imm, x.step.instruction = .jal 0 imm := by
  obtain ⟨pc, timestamp, registers, i⟩ := x
  cases i with
  | opImm op rd rs1 imm =>
    cases op <;> exact iff_of_false (List.cons_ne_nil _ _) (by rintro ⟨_, h⟩; cases h)
  | shiftImm op rd rs1 shamt =>
    cases op <;> exact iff_of_false (List.cons_ne_nil _ _) (by rintro ⟨_, h⟩; cases h)
  | opReg op rd rs1 rs2 =>
    cases op <;> exact iff_of_false (List.cons_ne_nil _ _) (by rintro ⟨_, h⟩; cases h)
  | lui rd imm => exact iff_of_false (List.cons_ne_nil _ _) (by rintro ⟨_, h⟩; cases h)
  | auipc rd imm => exact iff_of_false (List.cons_ne_nil _ _) (by rintro ⟨_, h⟩; cases h)
  | jal rd offset =>
    by_cases hrd : rd = 0#5
    · subst hrd
      exact ⟨fun _ => ⟨_, rfl⟩, fun _ => rfl⟩
    · simp [Executed.step, Vm.loggedOps, Vm.loggedWrite, Instr.sources, ofRv32i, hrd]
  | jalr rd rs1 imm => exact iff_of_false (List.cons_ne_nil _ _) (by rintro ⟨_, h⟩; cases h)

theorem getMemoryOps_eq_nil_iff (hrun : RunOf program xs vm) :
    vm.getMemoryOps = [] ↔ ∀ step ∈ vm.trace, ∃ imm, step.instruction = .jal 0 imm := by
  rw [VM.getMemoryOps, List.flatMap_eq_nil_iff, hrun.trace, List.forall_mem_map,
    List.forall_mem_map]
  exact forall₂_congr fun x _ => memoryOps_eq_nil_iff x

/-- Every table before the memory table is built, the memory table is refused. -/
theorem buildAllTraces_of_jumps (P : Poseidon2 Felt) (hrun : RunOf program xs vm)
    (htime : vm.timestamp < 2 ^ 24) (hne : vm.trace ≠ []) (hops : vm.getMemoryOps = []) :
    buildAllTraces P program vm = .error .memoryRequiresOperation := by
  obtain ⟨instr, hinstr⟩ := instrTraces_ok hrun (htime.trans (by norm_num))
  have hlast : expect Panic.noSteps vm.trace.getLast? = .ok _ :=
    expect_eq_ok.mpr (List.getLast?_eq_some_getLast hne)
  obtain ⟨decode, hdecode⟩ := buildDecodeTrace_ok hne
  have hmemory : buildMemoryTrace (F := Felt) [] = .error .memoryRequiresOperation := rfl
  rw [buildAllTraces, hlast, hdecode, hinstr, hops, hmemory]
  rfl

end Jumps

/-- A completed run has left the program behind. -/
theorem length_le_of_run {fuel : ℕ} {vm vm' : VM} (h : vm.run fuel = some vm') :
    vm'.program.length ≤ vm'.pc.toNat := by
  induction fuel generalizing vm with
  | zero => cases h
  | succ fuel ih =>
    rw [VM.run] at h
    split_ifs at h with hpc
    · obtain ⟨mid, -, hrun⟩ := Option.bind_eq_some_iff.mp h
      exact ih hrun
    · obtain rfl := Option.some.inj h
      exact Nat.le_of_not_lt hpc

/-- For a completed run of at least one step and less than `2 ^ 24` timestamps, trace generation
and flattening return unless every step was a jump to `x0`; the memory table then has no operation
and its builder panics. -/
theorem pipeline_total (P : Poseidon2 Felt) (fuel : ℕ) (program : List Byte) (vm : VM)
    (hrun : (VM.new program).run fuel = some vm) (hne : vm.trace ≠ [])
    (htime : vm.timestamp < 2 ^ 24) :
    ((∃ step ∈ vm.trace, ∀ imm, step.instruction ≠ .jal 0 imm) →
      ∃ out, pipeline P fuel program = .ok out) ∧
    ((∀ step ∈ vm.trace, ∃ imm, step.instruction = .jal 0 imm) →
      pipeline P fuel program = .error .memoryRequiresOperation) := by
  obtain ⟨n, hsteps⟩ := steps_of_run hrun
  obtain ⟨xs, hxs⟩ := exists_runOf hsteps
  have hlength : program.length < 2 ^ 32 := by
    have hle := length_le_of_run hrun
    rw [hxs.same] at hle
    exact hle.trans_lt vm.pc.isLt
  constructor
  · rintro ⟨step, hstep, hother⟩
    have hops : vm.getMemoryOps ≠ [] := by
      intro hnil
      obtain ⟨imm, himm⟩ := (getMemoryOps_eq_nil_iff hxs).mp hnil step hstep
      exact hother imm himm
    obtain ⟨t, ht⟩ := buildAllTraces_ok P hsteps hlength htime hops
    obtain ⟨out, hout⟩ := intoVecs_ok ht
    simp only [pipeline, generateAllTraces, bind_eq_ok, expect_eq_ok]
    exact ⟨out, t, ⟨vm, hrun, ht⟩, hout⟩
  · intro hjumps
    have hops := (getMemoryOps_eq_nil_iff hxs).mpr hjumps
    rw [pipeline, generateAllTraces, hrun]
    show (buildAllTraces P program vm >>= AllTraces.intoVecs) = _
    rw [buildAllTraces_of_jumps P hxs htime hne hops]
    rfl

/-- `jal x0, 4`, a program that runs and logs nothing. -/
def jumpsOut : List Byte := [0x6F, 0x00, 0x40, 0x00]

theorem pipeline_total_shiftsAndMasks :
    (∃ out, pipeline (F := Felt) ⟨id, id, 0, 0, 0⟩ 4 shiftsAndMasks = .ok out) ∧
      pipeline (F := Felt) ⟨id, id, 0, 0, 0⟩ 2 jumpsOut = .error .memoryRequiresOperation := by
  have hrun : (VM.new shiftsAndMasks).run 4 = some _ := rfl
  have hjumps : (VM.new jumpsOut).run 2 = some _ := rfl
  constructor
  · apply (pipeline_total _ 4 shiftsAndMasks _ hrun (List.cons_ne_nil _ _) (by decide)).1
    exact ⟨_, .head _, nofun⟩
  · apply (pipeline_total _ 2 jumpsOut _ hjumps (List.cons_ne_nil _ _) (by decide)).2
    exact List.forall_mem_singleton.mpr ⟨_, rfl⟩

/-- A completed run whose traces are not generated. -/
theorem pipeline_not_total : ¬ ∀ (P : Poseidon2 Felt) (fuel : ℕ) (program : List Byte) (vm : VM),
    (VM.new program).run fuel = some vm → vm.trace ≠ [] → vm.timestamp < 2 ^ 24 →
      ∃ out, pipeline P fuel program = .ok out := by
  intro h
  have hrun : (VM.new jumpsOut).run 2 = some _ := rfl
  obtain ⟨out, hout⟩ := h ⟨id, id, 0, 0, 0⟩ 2 jumpsOut _ hrun (List.cons_ne_nil _ _) (by decide)
  have hpanic : pipeline (F := Felt) ⟨id, id, 0, 0, 0⟩ 2 jumpsOut =
      .error .memoryRequiresOperation := rfl
  cases hpanic.symm.trans hout

end Loquela.Completeness
