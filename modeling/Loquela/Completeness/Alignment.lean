import Loquela.Completeness.Pipeline
import Loquela.Library.Slots
import Loquela.Trace.Layout

/-! # AIRs and traces stay in step

`generate_traces` pushes AIRs under flags and `into_vecs` pushes traces under options. Both follow
one order of slots, so whatever kinds occur the two lists match one by one, and every matrix is
the one its AIR's builder makes.
-/

namespace Loquela.Completeness
open Air Library.Checked Library.Slots Trace
open Vm (Byte ExecutionStep VM)

section Slots

variable {F : Type}

/-- The matrix a bundle holds for an AIR. -/
def matrixOf (t : AllTraces F) : LoquelAir → Option (RowMajorMatrix F)
  | .boundaries => some (.boundaries t.boundaries)
  | .decode => some (.decode t.decode)
  | .memory => some (.memory t.memory)
  | .program => some (.program t.program)
  | .bytes => some (.multiplicities t.bytes)
  | .and => some (.multiplicities t.and)
  | .or => some (.multiplicities t.or)
  | .xor => some (.multiplicities t.xor)
  | .u32Lt => some (.u32Lt t.u32Lt)
  | .timestampLt => some (.timestampLt t.timestampLt)
  | .bytesLt => some (.bytesLt t.bytesLt)
  | .orPrim => some (.multiplicities t.orPrim)
  | .andPrim => t.andPrim.map .multiplicities
  | .byteSll => t.byteSll.map .multiplicities
  | .byteSrl => t.byteSrl.map .multiplicities
  | .instr id => (t.instr id).map .instr
  | .programHash => some (.programHash t.programHash)
  | .poseidon2Chip numRealRows =>
    if numRealRows = t.poseidon2ChipNumRealRows then some (.poseidon2Chip t.poseidon2Chip) else none

/-- All AIRs a proof can have, in order. -/
def slots (numRealRows : ℕ) : List LoquelAir :=
  [.boundaries, .decode, .memory, .program, .bytes, .and, .or, .xor, .u32Lt, .timestampLt, .bytesLt,
    .orPrim, .instr .add, .instr .addi, .instr .andi, .instr .ori, .instr .sub, .instr .xori,
    .instr .xor, .instr .or, .instr .and, .andPrim, .instr .sll, .byteSll, .instr .srl, .byteSrl,
    .instr .sra, .instr .slli, .instr .srli, .instr .srai, .instr .slt, .instr .sltu, .instr .slti,
    .instr .sltiu, .instr .lui, .instr .auipc, .instr .jal, .instr .jalr, .programHash,
    .poseidon2Chip numRealRows]

theorem nodup_slots (numRealRows : ℕ) : (slots numRealRows).Nodup := by
  simp [slots]

theorem mem_slots_of_matrixOf {t : AllTraces F} {air : LoquelAir} (h : (matrixOf t air).isSome) :
    air ∈ slots t.poseidon2ChipNumRealRows := by
  cases air with
  | instr id => cases id <;> simp [slots]
  | poseidon2Chip n =>
    rw [matrixOf] at h
    split_ifs at h with hn
    · simp [slots, hn]
    · cases h
  | _ => simp [slots]

/-- `into_vecs` pushes what the slots hold. -/
theorem traces_eq_held (t : AllTraces F) :
    t.traces = held (matrixOf t) (slots t.poseidon2ChipNumRealRows) := by
  simp only [AllTraces.traces, slots, held_cons, held_nil, matrixOf, List.flatten_cons,
    List.flatten_nil, List.append_nil, Option.toList_some, List.cons_append, List.nil_append,
    if_true]

end Slots

section Builders

variable {F : Type} [Field F]

theorem isSome_optional {table : Table} {condition : Bool} {size : ℕ} {indices : List ℕ}
    {column : Option (List F)} (h : buildOptional condition table size indices = .ok column) :
    column.isSome = condition := by
  cases condition with
  | false =>
    rw [buildOptional, if_neg Bool.false_ne_true, pure_eq_ok] at h
    rw [← h]
    rfl
  | true =>
    rw [buildOptional, if_pos rfl, map_eq_pure_bind, bind_eq_ok] at h
    obtain ⟨_, -, hcolumn⟩ := h
    rw [← pure_eq_ok.mp hcolumn]
    rfl

theorem lookup_of_optional {table : Table} {condition : Bool} {size : ℕ} {indices : List ℕ}
    {column : List F} (h : buildOptional condition table size indices = .ok (some column)) :
    buildLookup table size indices = .ok column := by
  cases condition with
  | false =>
    rw [buildOptional, if_neg Bool.false_ne_true, pure_eq_ok] at h
    cases h
  | true =>
    rw [buildOptional, if_pos rfl, map_eq_pure_bind, bind_eq_ok] at h
    obtain ⟨_, hlookup, hcolumn⟩ := h
    rwa [Option.some.inj (pure_eq_ok.mp hcolumn)] at hlookup

variable [DecidableEq F]

/-- The trace an AIR's own builder makes from a run. -/
def traceFor (P : Poseidon2 F) (program : List Byte) (vm : VM) :
    LoquelAir → Except Panic (RowMajorMatrix F)
  | .boundaries => pure (.boundaries (buildBoundaries vm.pc vm.timestamp))
  | .decode => .decode <$> buildDecodeTrace vm.trace
  | .memory => .memory <$> buildMemoryTrace vm.getMemoryOps
  | .program => .program <$> buildProgramTrace program vm.trace
  | .bytes => .multiplicities <$> buildLookup bytesAir 256 (bytesEntries program vm.trace)
  | .and => .multiplicities <$> buildLookup andAir (256 * 256) (vm.trace.flatMap andiEntries)
  | .or => .multiplicities <$> buildLookup orAir (256 * 256) (vm.trace.flatMap oriEntries)
  | .xor => .multiplicities <$> buildLookup xorAir (256 * 256) (vm.trace.flatMap xorEntries)
  | .u32Lt => .u32Lt <$> buildU32LtTrace (u32LtEntries vm.getMemoryOps)
  | .timestampLt => .timestampLt <$> buildTimestampLtTrace (timestampLtEntries vm.getMemoryOps)
  | .bytesLt => .bytesLt <$> (bytesLtMults vm.getMemoryOps >>= buildBytesLt)
  | .orPrim => .multiplicities <$> buildLookup orAir (256 * 256) (vm.trace.flatMap orEntries)
  | .andPrim => .multiplicities <$> buildLookup andAir (256 * 256) (vm.trace.flatMap andEntries)
  | .byteSll =>
    .multiplicities <$> buildLookup byteShiftLeftAir (256 * 8) (vm.trace.flatMap byteSllEntries)
  | .byteSrl =>
    .multiplicities <$> buildLookup byteShiftRightAir (256 * 8) (vm.trace.flatMap byteSrlEntries)
  | .instr id => .instr <$> expect (.noStepsFound id) (buildTrace id vm.trace)
  | .programHash => .programHash <$> buildProgramHashTrace P program
  | .poseidon2Chip _ => pure (.poseidon2Chip (buildPoseidon2Chip P (permInputs P program)))

/-- The matrix is of the AIR's kind; a lookup table has one counter for each of its rows. -/
def Fits : LoquelAir → RowMajorMatrix F → Prop
  | .boundaries, .boundaries _ => True
  | .decode, .decode _ => True
  | .memory, .memory _ => True
  | .program, .program _ => True
  | .bytes, .multiplicities column => column.length = 256
  | .and, .multiplicities column => column.length = 256 * 256
  | .or, .multiplicities column => column.length = 256 * 256
  | .xor, .multiplicities column => column.length = 256 * 256
  | .u32Lt, .u32Lt _ => True
  | .timestampLt, .timestampLt _ => True
  | .bytesLt, .bytesLt rows => rows.length = 2 ^ 15
  | .orPrim, .multiplicities column => column.length = 256 * 256
  | .andPrim, .multiplicities column => column.length = 256 * 256
  | .byteSll, .multiplicities column => column.length = 256 * 8
  | .byteSrl, .multiplicities column => column.length = 256 * 8
  | .instr id, .instr rows => rows ≠ [] ∧ ∀ r ∈ rows, r.id = id
  | .programHash, .programHash _ => True
  | .poseidon2Chip numRealRows, .poseidon2Chip rows =>
    (rows.filter Poseidon2Columns.isReal).length = numRealRows
  | _, _ => False

/-- What `generate_traces` returns, table by table. -/
structure Returned (P : Poseidon2 F) (program : List Byte) (vm : VM) (t : AllTraces F) : Prop where
  airs : t.airs = buildAirs vm.trace (permInputs P program).length
  boundaries : buildBoundaries vm.pc vm.timestamp = t.boundaries
  decode : buildDecodeTrace vm.trace = .ok t.decode
  instr : ∀ id, buildInstrTrace vm.trace id = .ok (t.instr id)
  memory : buildMemoryTrace vm.getMemoryOps = .ok t.memory
  rom : buildProgramTrace program vm.trace = .ok t.program
  bytes : buildLookup bytesAir 256 (bytesEntries program vm.trace) = .ok t.bytes
  xor : buildLookup xorAir (256 * 256) (vm.trace.flatMap xorEntries) = .ok t.xor
  or : buildLookup orAir (256 * 256) (vm.trace.flatMap oriEntries) = .ok t.or
  and : buildLookup andAir (256 * 256) (vm.trace.flatMap andiEntries) = .ok t.and
  orPrim : buildLookup orAir (256 * 256) (vm.trace.flatMap orEntries) = .ok t.orPrim
  andPrim : buildOptional (hasKind .and vm.trace) andAir (256 * 256)
    (vm.trace.flatMap andEntries) = .ok t.andPrim
  byteSll : buildOptional (hasKind .sll vm.trace || hasKind .slli vm.trace) byteShiftLeftAir
    (256 * 8) (vm.trace.flatMap byteSllEntries) = .ok t.byteSll
  byteSrl : buildOptional (hasKind .srl vm.trace || hasKind .sra vm.trace ||
      hasKind .srli vm.trace || hasKind .srai vm.trace) byteShiftRightAir
    (256 * 8) (vm.trace.flatMap byteSrlEntries) = .ok t.byteSrl
  u32Lt : buildU32LtTrace (u32LtEntries vm.getMemoryOps) = .ok t.u32Lt
  timestampLt : buildTimestampLtTrace (timestampLtEntries vm.getMemoryOps) = .ok t.timestampLt
  bytesLt : (bytesLtMults vm.getMemoryOps >>= buildBytesLt) = .ok t.bytesLt
  programHash : buildProgramHashTrace P program = .ok t.programHash
  publicValues : buildPublicValues P program = .ok t.programHashPublicValues
  poseidon2Chip : buildPoseidon2Chip P (permInputs P program) = t.poseidon2Chip
  numRealRows : (permInputs P program).length = t.poseidon2ChipNumRealRows

theorem returned {P : Poseidon2 F} {program : List Byte} {vm : VM} {t : AllTraces F}
    (h : buildAllTraces P program vm = .ok t) : Returned P program vm t := by
  have hairs := airs_of_buildAllTraces h
  simp only [buildAllTraces, bind_eq_ok, pure_eq_ok] at h
  obtain ⟨_, -, decode, hdecode, instr, hinstr, memory, hmemory, rom, hrom, mults, hmults, bytes,
    hbytes, xor, hxor, or, hor, and, hand, orPrim, horPrim, andPrim, handPrim, byteSll, hbyteSll,
    byteSrl, hbyteSrl, u32Lt, hu32Lt, timestampLt, htimestampLt, bytesLt, hbytesLt, hash, hhash,
    values, hvalues, rfl⟩ := h
  have hinstr := (tabulate_eq_ok mem_buildOrder).mp hinstr
  exact ⟨hairs, rfl, hdecode, hinstr, hmemory, hrom, hbytes, hxor, hor, hand, horPrim, handPrim,
    hbyteSll, hbyteSrl, hu32Lt, htimestampLt, bind_eq_ok.mpr ⟨mults, hmults, hbytesLt⟩, hhash,
    hvalues, rfl, rfl⟩

theorem isSome_instr {steps : List ExecutionStep} {id : InstructionId}
    {rows : Option (List (InstrRow F))} (h : buildInstrTrace steps id = .ok rows) :
    rows.isSome = hasKind id steps := by
  by_cases hkind : hasKind id steps
  · simp only [buildInstrTrace, hkind, if_true, bind_eq_ok, pure_eq_ok] at h
    obtain ⟨_, -, _, -, _, -, rfl⟩ := h
    exact hkind.symm
  · rw [buildInstrTrace, if_neg hkind, pure_eq_ok] at h
    rw [← h, Bool.eq_false_of_not_eq_true hkind]
    rfl

theorem buildTrace_of_some {steps : List ExecutionStep} {id : InstructionId}
    {rows : List (InstrRow F)} (h : buildInstrTrace steps id = .ok (some rows)) :
    buildTrace id steps = some rows := by
  have hkind : hasKind id steps := (isSome_instr h).symm
  have htable := buildTrace_of_buildInstrTrace h
  rwa [if_pos hkind] at htable

variable {P : Poseidon2 F} {program : List Byte} {vm : VM} {t : AllTraces F}

/-- `generate_traces` pushes the slots that are filled. -/
theorem airs_eq_present (h : Returned P program vm t) :
    t.airs = present (matrixOf t) (slots t.poseidon2ChipNumRealRows) := by
  have hand : ∀ c : Bool, (if c then [LoquelAir.instr .and, .andPrim] else []) =
      pushIf c (.instr .and) ++ pushIf c .andPrim := by
    intro c
    cases c <;> rfl
  rw [h.airs, h.numRealRows]
  simp only [buildAirs, hand, slots, present_cons, present_nil, matrixOf, Option.isSome_map,
    Option.isSome_some, isSome_instr (h.instr _), isSome_optional h.andPrim,
    isSome_optional h.byteSll, isSome_optional h.byteSrl, if_true, pushIf, List.flatten_cons,
    List.flatten_nil, List.append_nil, List.append_assoc, List.cons_append, List.nil_append]

end Builders

section Rows

variable {F : Type} [Field F]

theorem fillRow_id {entryTimestamp : ℕ} {step : ExecutionStep} {row : InstrRow F}
    (h : fillRow entryTimestamp step = some row) : row.id = instructionId step.instruction := by
  cases hinstr : step.instruction <;> simp only [fillRow, hinstr] at h <;>
    obtain ⟨s, -, rfl⟩ := Option.map_eq_some_iff.mp h <;> rfl

/-- A table holds rows of its own kind only. -/
theorem id_of_buildTrace {id : InstructionId} {steps : List ExecutionStep}
    {rows : List (InstrRow F)} (h : buildTrace id steps = some rows) :
    rows ≠ [] ∧ ∀ r ∈ rows, r.id = id := by
  rw [buildTrace] at h
  split_ifs at h with hempty
  obtain rfl := Option.some.inj h
  constructor
  · intro hnil
    rw [List.isEmpty_iff] at hempty
    exact hempty (List.append_eq_nil_iff.mp hnil).1
  · intro r hr
    rcases List.mem_append.mp hr with hr | hr
    · obtain ⟨entry, -, hrow⟩ := List.mem_filterMap.mp hr
      split_ifs at hrow with hkind
      exact (fillRow_id hrow).trans hkind
    · rw [List.eq_of_mem_replicate hr]
      exact paddingRow_id id

theorem length_of_lookup {table : Table} {size : ℕ} {indices : List ℕ} {column : List F}
    (h : buildLookup table size indices = .ok column) : column.length = size := by
  obtain ⟨-, -, rfl⟩ := buildLookup_eq_ok.mp h
  rw [List.length_map, List.length_range]

theorem length_of_buildBytesLt {mults : List F} {rows : List (F × F)}
    (h : buildBytesLt mults = .ok rows) : rows.length = 2 ^ 15 := by
  simp only [buildBytesLt, bind_eq_ok, pure_eq_ok] at h
  obtain ⟨_, -, _, -, rfl⟩ := h
  rw [List.length_map, List.length_range]

theorem realRows_chip (P : Poseidon2 F) (inputs : List (SpongeState F)) :
    ((buildPoseidon2Chip P inputs).filter Poseidon2Columns.isReal).length = inputs.length := by
  have hpadding : ∀ n, (List.replicate n (⟨0, P.permute 0, false⟩ : Poseidon2Columns F)).filter
      Poseidon2Columns.isReal = [] := by
    intro n
    apply List.filter_eq_nil_iff.mpr
    intro c hc
    rw [List.eq_of_mem_replicate hc]
    exact Bool.false_ne_true
  rw [buildPoseidon2Chip, List.filter_append, hpadding, List.append_nil, List.filter_map]
  simp [Function.comp_def]

/-- Rows of one layout are of one length. -/
theorem length_of_mem_map {α F : Type} {rows : List α} {layout : α → List F} {width : ℕ}
    (h : ∀ c ∈ rows, (layout c).length = width) : ∀ row ∈ rows.map layout, row.length = width :=
  List.forall_mem_map.mpr h

/-- A matrix of the AIR's kind is as wide as the AIR. -/
theorem width_of_fits {L : ChipLayout F} {air : LoquelAir} {m : RowMajorMatrix F} (h : Fits air m) :
    ∀ row ∈ m.rows L, row.length = air.width L := by
  cases air with
  | instr id =>
    cases m with
    | instr rows =>
      apply length_of_mem_map
      intro c hc
      rw [length_instrColumns, h.2 c hc]
      rfl
    | _ => exact h.elim
  | _ =>
    cases m <;> first | exact h.elim | exact length_of_mem_map fun c _ => by simp [LoquelAir.width]

end Rows

section Alignment

variable {F : Type} [Field F] [DecidableEq F]

/-- A matrix is the trace of an AIR: the one the bundle holds for it, made by its builder, of its
kind and as wide as it says. -/
structure BuiltFor (L : ChipLayout F) (P : Poseidon2 F) (program : List Byte) (vm : VM)
    (t : AllTraces F) (air : LoquelAir) (m : RowMajorMatrix F) : Prop where
  matrix : matrixOf t air = some m
  trace : traceFor P program vm air = .ok m
  fits : Fits air m
  width : ∀ row ∈ m.rows L, row.length = air.width L

variable {L : ChipLayout F} {P : Poseidon2 F} {program : List Byte} {vm : VM} {t : AllTraces F}

theorem map_ok {α β : Type} {x : Except Panic α} {a : α} (h : x = .ok a) (f : α → β) :
    f <$> x = .ok (f a) := by
  rw [h]
  rfl

/-- A table of the bundle is the one its builder makes. -/
theorem trace_of_matrix (h : Returned P program vm t) {air : LoquelAir} {m : RowMajorMatrix F}
    (hm : matrixOf t air = some m) : traceFor P program vm air = .ok m ∧ Fits air m := by
  cases air with
  | boundaries =>
    obtain rfl := Option.some.inj hm
    exact ⟨congrArg (Except.ok ∘ RowMajorMatrix.boundaries) h.boundaries, trivial⟩
  | decode =>
    obtain rfl := Option.some.inj hm
    exact ⟨map_ok h.decode _, trivial⟩
  | memory =>
    obtain rfl := Option.some.inj hm
    exact ⟨map_ok h.memory _, trivial⟩
  | program =>
    obtain rfl := Option.some.inj hm
    exact ⟨map_ok h.rom _, trivial⟩
  | bytes =>
    obtain rfl := Option.some.inj hm
    exact ⟨map_ok h.bytes _, length_of_lookup h.bytes⟩
  | and =>
    obtain rfl := Option.some.inj hm
    exact ⟨map_ok h.and _, length_of_lookup h.and⟩
  | or =>
    obtain rfl := Option.some.inj hm
    exact ⟨map_ok h.or _, length_of_lookup h.or⟩
  | xor =>
    obtain rfl := Option.some.inj hm
    exact ⟨map_ok h.xor _, length_of_lookup h.xor⟩
  | u32Lt =>
    obtain rfl := Option.some.inj hm
    exact ⟨map_ok h.u32Lt _, trivial⟩
  | timestampLt =>
    obtain rfl := Option.some.inj hm
    exact ⟨map_ok h.timestampLt _, trivial⟩
  | bytesLt =>
    obtain rfl := Option.some.inj hm
    obtain ⟨mults, -, hrows⟩ := bind_eq_ok.mp h.bytesLt
    exact ⟨map_ok h.bytesLt _, length_of_buildBytesLt hrows⟩
  | orPrim =>
    obtain rfl := Option.some.inj hm
    exact ⟨map_ok h.orPrim _, length_of_lookup h.orPrim⟩
  | andPrim =>
    obtain ⟨column, hcolumn, rfl⟩ := Option.map_eq_some_iff.mp hm
    have hlookup := lookup_of_optional (hcolumn ▸ h.andPrim)
    exact ⟨map_ok hlookup _, length_of_lookup hlookup⟩
  | byteSll =>
    obtain ⟨column, hcolumn, rfl⟩ := Option.map_eq_some_iff.mp hm
    have hlookup := lookup_of_optional (hcolumn ▸ h.byteSll)
    exact ⟨map_ok hlookup _, length_of_lookup hlookup⟩
  | byteSrl =>
    obtain ⟨column, hcolumn, rfl⟩ := Option.map_eq_some_iff.mp hm
    have hlookup := lookup_of_optional (hcolumn ▸ h.byteSrl)
    exact ⟨map_ok hlookup _, length_of_lookup hlookup⟩
  | instr id =>
    obtain ⟨rows, hrows, rfl⟩ := Option.map_eq_some_iff.mp hm
    have htable := buildTrace_of_some (hrows ▸ h.instr id)
    exact ⟨map_ok (expect_eq_ok.mpr htable) _, id_of_buildTrace htable⟩
  | programHash =>
    obtain rfl := Option.some.inj hm
    exact ⟨map_ok h.programHash _, trivial⟩
  | poseidon2Chip numRealRows =>
    rw [matrixOf] at hm
    split_ifs at hm with hreal
    obtain rfl := Option.some.inj hm
    constructor
    · exact congrArg (Except.ok ∘ RowMajorMatrix.poseidon2Chip) h.poseidon2Chip
    · rw [hreal, ← h.numRealRows, ← h.poseidon2Chip]
      exact realRows_chip P _

theorem builtFor (h : Returned P program vm t) {air : LoquelAir} {m : RowMajorMatrix F}
    (hm : matrixOf t air = some m) : BuiltFor L P program vm t air m := by
  obtain ⟨htrace, hfits⟩ := trace_of_matrix h hm
  exact ⟨hm, htrace, hfits, width_of_fits hfits⟩

/-- The three lists of `into_vecs` in step. -/
structure Aligned (L : ChipLayout F) (P : Poseidon2 F) (program : List Byte) (vm : VM)
    (t : AllTraces F) (airs : List LoquelAir) (traces : List (RowMajorMatrix F))
    (pvs : List (List F)) : Prop where
  traces_length : traces.length = airs.length
  pvs_length : pvs.length = airs.length
  built : List.Forall₂ (BuiltFor L P program vm t) airs traces
  nodup : airs.Nodup
  instr : ∀ id, .instr id ∈ airs ↔ hasKind id vm.trace
  andPrim : .andPrim ∈ airs ↔ hasKind .and vm.trace
  byteSll : .byteSll ∈ airs ↔ hasKind .sll vm.trace ∨ hasKind .slli vm.trace
  byteSrl : .byteSrl ∈ airs ↔ hasKind .srl vm.trace ∨ hasKind .sra vm.trace ∨
    hasKind .srli vm.trace ∨ hasKind .srai vm.trace
  digest : buildPublicValues P program = .ok t.programHashPublicValues
  publicValues : ∀ i : ℕ, pvs[i]? = airs[i]?.map fun air =>
    if air = LoquelAir.programHash then t.programHashPublicValues else []
  hash : LoquelAir.programHash ∈ airs

theorem mem_airs (h : Returned P program vm t) (air : LoquelAir) :
    air ∈ t.airs ↔ (matrixOf t air).isSome := by
  rw [airs_eq_present h, mem_present]
  exact and_iff_right_of_imp mem_slots_of_matrixOf

theorem nodup_airs (h : Returned P program vm t) : t.airs.Nodup := by
  rw [airs_eq_present h]
  exact nodup_present _ (nodup_slots _)

theorem built_traces (h : Returned P program vm t) :
    List.Forall₂ (BuiltFor L P program vm t) t.airs t.traces := by
  rw [airs_eq_present h, traces_eq_held]
  exact (forall₂_present (matrixOf t) _).imp fun _ _ hm => builtFor h hm

/-- One entry of a list of empty vectors is set, at the place of one entry of another list. -/
theorem getElem?_set_replicate {A B : Type} [DecidableEq A] {l : List A} {a : A} {k : ℕ} (v : List B)
    (hnodup : l.Nodup) (ha : l[k]? = some a) (i : ℕ) :
    ((List.replicate l.length []).set k v)[i]? = l[i]?.map fun b => if b = a then v else [] := by
  obtain ⟨hk, rfl⟩ := List.getElem?_eq_some_iff.mp ha
  by_cases hi : i < l.length
  · rw [List.getElem?_set, List.getElem?_eq_getElem hi, List.length_replicate, Option.map_some]
    by_cases hki : k = i
    · subst hki
      simp [hk]
    · have hne : l[i] ≠ l[k] := fun h => hki ((hnodup.getElem_inj_iff.mp h).symm)
      simp [hki, hne, hi]
  · have hlength : ((List.replicate l.length []).set k v).length ≤ i := by
      rw [List.length_set, List.length_replicate]
      exact Nat.le_of_not_lt hi
    rw [List.getElem?_eq_none hlength, List.getElem?_eq_none (Nat.le_of_not_lt hi)]
    rfl

/-- Whenever trace generation returns, flattening returns AIRs, traces and public values in
step. -/
theorem airs_aligned (L : ChipLayout F) (P : Poseidon2 F) (fuel : ℕ) (program : List Byte)
    (t : AllTraces F) (h : generateAllTraces P fuel program = .ok t) :
    ∃ vm airs traces pvs, (VM.new program).run fuel = some vm ∧
      t.intoVecs = .ok (airs, traces, pvs) ∧ Aligned L P program vm t airs traces pvs := by
  simp only [generateAllTraces, bind_eq_ok, expect_eq_ok] at h
  obtain ⟨vm, hrun, hbuild⟩ := h
  have hreturned := returned hbuild
  obtain ⟨out, hout⟩ := intoVecs_ok hbuild
  have hflat := hout
  simp only [AllTraces.intoVecs, bind_eq_ok, subtract_eq_ok, require_eq_ok, inBounds_eq_ok,
    pure_eq_ok] at hflat
  obtain ⟨k, -, _, hk, _, -, _, -, rfl⟩ := hflat
  refine ⟨vm, _, _, _, hrun, hout, ?_⟩
  have hbuilt := built_traces (L := L) hreturned
  constructor
  · exact hbuilt.length_eq.symm
  · rw [List.length_set, List.length_replicate]
  · exact hbuilt
  · exact nodup_airs hreturned
  · intro id
    rw [mem_airs hreturned, matrixOf, Option.isSome_map, isSome_instr (hreturned.instr id)]
  · rw [mem_airs hreturned, matrixOf, Option.isSome_map, isSome_optional hreturned.andPrim]
  · rw [mem_airs hreturned, matrixOf, Option.isSome_map, isSome_optional hreturned.byteSll,
      Bool.or_eq_true]
  · rw [mem_airs hreturned, matrixOf, Option.isSome_map, isSome_optional hreturned.byteSrl]
    simp only [Bool.or_eq_true, or_assoc]
  · exact hreturned.publicValues
  · exact getElem?_set_replicate _ (nodup_airs hreturned) hk
  · exact List.mem_of_getElem? hk

/-- A program with shifts and masks, and a chip that shows its input in sixteen columns. -/
theorem airs_aligned_shiftsAndMasks :
    ∃ t vm airs traces pvs,
      generateAllTraces (F := Felt) ⟨id, id, 0, 0, 0⟩ 4 shiftsAndMasks = .ok t ∧
      (VM.new shiftsAndMasks).run 4 = some vm ∧ t.intoVecs = .ok (airs, traces, pvs) ∧
      Aligned ⟨16, Poseidon2Columns.input⟩ ⟨id, id, 0, 0, 0⟩ shiftsAndMasks vm t airs traces pvs := by
  have hrun : (VM.new shiftsAndMasks).run 4 = some _ := rfl
  obtain ⟨n, hsteps⟩ := steps_of_run hrun
  obtain ⟨t, ht⟩ := buildAllTraces_ok ⟨id, id, 0, 0, 0⟩ hsteps (by decide) (by decide) nofun
  have hgenerate : generateAllTraces (F := Felt) ⟨id, id, 0, 0, 0⟩ 4 shiftsAndMasks = .ok t := by
    rw [generateAllTraces, hrun]
    exact ht
  obtain ⟨vm, airs, traces, pvs, haligned⟩ := airs_aligned ⟨16, Poseidon2Columns.input⟩
    ⟨id, id, 0, 0, 0⟩ 4 shiftsAndMasks t hgenerate
  exact ⟨t, vm, airs, traces, pvs, hgenerate, haligned⟩

end Alignment

end Loquela.Completeness
