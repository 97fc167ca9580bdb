import Loquela.Completeness.Rows

/-! # The traces of a run

What `generate_traces` returns for a completed run with at least one memory operation.
-/

namespace Loquela.Completeness
open Air Trace
open Vm (Byte VM)

variable {F : Type*} [Field F] [DecidableEq F]

theorem le_height (n : ℕ) : n ≤ height n :=
  (Nat.le_pow_clog Nat.one_lt_two n).trans (le_max_left _ _)

/-- The tables of a run, and the builders the others come from. -/
structure Built (P : Poseidon2 F) (program : List Byte) (xs : List Executed) (vm : VM)
    (T : TraceSet F) : Prop where
  rows : T.rows = (kindTables xs).flatten
  boundaries : T.boundaries = buildBoundaries vm.pc vm.timestamp
  decode : buildDecode vm.trace = some T.decode
  memory : T.memory = fillFlags (memoryRows vm.getMemoryOps)
  rom :
    buildProgram program vm.trace (height vm.trace.length - vm.trace.length) = some T.program
  programHash : buildProgramHash P program = some T.programHash
  publicValues : T.programHashPublicValues = publicValues P program
  poseidon2Chip : T.poseidon2Chip = buildPoseidon2Chip P (permInputs P program)
  u32Lt : T.u32Lt = buildU32Lt (u32LtEntries vm.getMemoryOps)
  timestampLt : T.timestampLt = buildTimestampLt (timestampLtEntries vm.getMemoryOps)
  bytes : T.bytes = tableMults (bytesEntries program vm.trace)
  and : T.and = tableMults (vm.trace.flatMap andiEntries)
  or : T.or = tableMults (vm.trace.flatMap oriEntries)
  xor : T.xor = tableMults (vm.trace.flatMap xorEntries)
  bytesLt : T.bytesLt = tableMults (bytesLtEntries vm.getMemoryOps)
  orPrim : T.orPrim = tableMults (vm.trace.flatMap orEntries)
  andPrim : T.andPrim =
    if hasKind .and vm.trace then some (tableMults (vm.trace.flatMap andEntries)) else none
  byteSll : T.byteSll = if hasKind .sll vm.trace || hasKind .slli vm.trace then
    some (tableMults (vm.trace.flatMap byteSllEntries)) else none
  byteSrl : T.byteSrl = if hasKind .srl vm.trace || hasKind .sra vm.trace ||
      hasKind .srli vm.trace || hasKind .srai vm.trace then
    some (tableMults (vm.trace.flatMap byteSrlEntries)) else none

variable (P : Poseidon2 F) {program : List Byte} {xs : List Executed} {vm : VM}

theorem ne_nil_of_fetch {pc word : Vm.U32} (h : Vm.fetch program pc = some word) :
    program ≠ [] := by
  rintro rfl
  cases h

/-- A run with a memory operation has a step, and fetched it from the program. -/
theorem ne_nil_of_ops (hrun : RunOf program xs vm) (hops : vm.getMemoryOps ≠ []) :
    vm.trace ≠ [] ∧ program ≠ [] := by
  have htrace : vm.trace ≠ [] := by
    intro hnil
    apply hops
    rw [VM.getMemoryOps, hnil]
    rfl
  have hxs : xs ≠ [] := by
    rintro rfl
    exact htrace hrun.trace
  exact ⟨htrace, ne_nil_of_fetch (hrun.fetched _ (List.head_mem hxs))⟩

/-- No builder fails on a run with a memory operation. -/
theorem exists_built (hrun : RunOf program xs vm) (hops : vm.getMemoryOps ≠ []) :
    ∃ T, buildTraces P program vm = some T ∧ Built P program xs vm T := by
  obtain ⟨htrace, hprogram⟩ := ne_nil_of_ops hrun hops
  have hrows := instructionTraces_of_leads (F := F) hrun.leads
  rw [← hrun.trace] at hrows
  obtain ⟨decode, hdecode⟩ : ∃ decode : List (DecodeColumns F),
      buildDecode vm.trace = some decode :=
    ⟨_, congrArg (Option.map _) (List.head?_eq_some_head htrace)⟩
  have hmemory : buildMemory vm.getMemoryOps =
      some (fillFlags (memoryRows (F := F) vm.getMemoryOps)) :=
    if_neg (by simpa using hops)
  obtain ⟨rom, hrom⟩ : ∃ rom : List (ProgramColumns F), buildProgram program vm.trace
      (height vm.trace.length - vm.trace.length) = some rom :=
    ⟨_, if_neg (by simpa using hprogram)⟩
  obtain ⟨hash, hhash⟩ : ∃ hash, buildProgramHash P program = some hash :=
    ⟨_, if_neg (by simpa using hprogram)⟩
  refine ⟨?T, ?_, ?_⟩
  rotate_left
  · simp only [buildTraces, hdecode, hrows, hmemory, hrom, hhash, Option.bind_eq_bind,
      Option.bind_some]
    rfl
  · exact ⟨rfl, rfl, hdecode, rfl, hrom, hhash, rfl, rfl, rfl, rfl, rfl, rfl, rfl, rfl, rfl, rfl,
      rfl, rfl, rfl⟩

end Loquela.Completeness
