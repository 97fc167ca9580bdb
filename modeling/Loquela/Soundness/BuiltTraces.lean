import Loquela.Completeness.Heights
import Loquela.Soundness.Simulation

/-! # The traces of a run

The tables built for a run record it row by row: they simulate it, the memory comparisons are in
order, and the tables are accepted as soon as their constraints hold.
-/

namespace Loquela.Soundness
open Air Completeness Library.Path Trace
open Rv32i hiding bit
open Vm (Byte MemoryOperation VM)

section Rows

variable {program : List Byte} {n : ℕ} {vm vm' : VM}

/-- The row of a step records it. -/
theorem row_records (x : Executed) : Records x.row x.step where
  pc := (row_ports x).pc
  id := (row_ports x).id
  operands := row_operands x
  memory := by
    rw [rowOps]
    rcases row_memory x with ⟨hone, htuples⟩ | ⟨hzero, hnone⟩
    · rw [if_pos hone, tuples_eq htuples]
    · rw [if_neg (hzero ▸ zero_ne_one), hnone]
      rfl

/-- An execution state on the trace bus. -/
def stateOf (s : Vm.U32 × ℕ) : ExecutionState Felt := (u32ToLimbs s.1, (s.2 : Felt))

theorem isPath_rows {start finish : Vm.U32 × ℕ} {xs : List Executed} (h : Leads start xs finish) :
    IsPath consumed produced (stateOf start) (xs.map Executed.row) (stateOf finish) := by
  induction xs generalizing start with
  | nil =>
    obtain rfl : start = finish := h
    exact isPath_nil.mpr rfl
  | cons x xs ih =>
    obtain ⟨rfl, hrest⟩ := h
    have hproduced : produced x.row = stateOf x.exit := by
      rw [produced, (row_ports x).nextPc, (row_ports x).timestamp, (row_ports x).ticks,
        ← Nat.cast_add]
      rfl
    rw [List.map_cons, isPath_cons, hproduced]
    exact ⟨Prod.ext (row_ports x).pc (row_ports x).timestamp, ih hrest⟩

end Rows

section Honest

variable {P : Poseidon2 Felt} {program : List Byte} {xs : List Executed} {n : ℕ} {vm : VM}
  {T : TraceSet Felt}

/-- The ROM built for a program holds it. -/
theorem holding_buildProgram {steps : List Vm.ExecutionStep} {padding : ℕ}
    {rom : List (ProgramColumns Felt)} (h : buildProgram program steps padding = some rom) :
    Holding rom program := by
  rw [buildProgram] at h
  split_ifs at h
  obtain rfl := Option.some.inj h
  have hreal : ∀ i, decide ((if i < program.length then (1 : Felt) else 0) = 1) =
      decide (i < program.length) := by
    intro i
    split_ifs with hi <;> simp [hi]
  simp only [Holding, romBytes, List.filter_map, Function.comp_def, hreal, List.map_map]
  rw [filter_range_lt (le_height program.length)]
  apply List.ext_getElem
  · simp
  · intro i hi _
    have hi : i < program.length := by simpa using hi
    simp [List.getElem?_eq_getElem hi]

/-- The real rows of the traces of a run simulate it. -/
theorem simulates_of_built (h : ProvableRun program n vm) (hrun : RunOf program xs vm)
    (hlength : xs.length = n) (hT : Built P program xs vm T) :
    Simulates T program (xs.map Executed.row) vm where
  rows := by
    rw [hT.rows]
    exact realRows_kindTables xs
  path := by
    have hstart : stateOf (0, 0) = 0 := Prod.ext u32ToLimbs_zero Nat.cast_zero
    rw [hT.boundaries, ← hstart]
    exact isPath_rows hrun.leads
  steps := by
    rw [List.length_map, hlength]
    exact h.steps
  records := by
    rw [hrun.trace, List.forall₂_map_left_iff, List.forall₂_map_right_iff, List.forall₂_same]
    exact fun x _ => row_records x
  final := by
    rw [hT.boundaries]
    rfl
  timestamp := h.timestamp.trans (by norm_num)
  run := by
    rw [List.length_map, hlength]
    exact Vm.run_of_steps h.steps

/-- Where the types agree, the flags say so. -/
theorem fillFlags_types {base : List (MemoryTuple Felt × Felt)}
    (h : ∀ row ∈ base, row.1.memoryType = 0) :
    (fillFlags base).IsChain fun c _ => c.isMemoryTypeEqual = 1 := by
  induction base with
  | nil => exact List.isChain_nil
  | cons row base ih =>
    cases base with
    | nil => exact List.isChain_singleton _
    | cons next base =>
      have hrest := ih fun row' hrow' => h row' (List.mem_cons_of_mem row hrow')
      obtain ⟨head, rest, hrows, -⟩ := fillFlags_cons next base
      show (flagged row next :: fillFlags (next :: base)).IsChain _
      rw [hrows] at hrest ⊢
      refine List.isChain_cons_cons.mpr ⟨?_, hrest⟩
      show fromBool (row.1.memoryType = next.1.memoryType) = 1
      rw [h row List.mem_cons_self, h next (by simp), decide_eq_true rfl, fromBool, if_pos rfl]

/-- Comparisons of times are of earlier times with later ones. -/
theorem timestampLtEntries_le {ops : List MemoryOperation} :
    ∀ entry ∈ timestampLtEntries ops, entry.1 ≤ entry.2 := by
  intro entry hentry
  obtain ⟨pair, hpair, rfl⟩ := List.mem_map.mp hentry
  obtain ⟨hmem, haddress⟩ := List.mem_filter.mp hpair
  obtain ⟨hmem, htype⟩ := List.mem_filter.mp hmem
  have hkey := Library.Prefix.rel_of_mem_zip_tail sortOps_sorted pair hmem
  rw [MemoryOp.key, MemoryOp.key, of_decide_eq_true htype, of_decide_eq_true haddress,
    Prod.Lex.toLex_le_toLex, Prod.Lex.toLex_le_toLex] at hkey
  simpa using hkey

theorem timestampLessThanRow_top {x y : ℕ} (hle : x ≤ y) (hy : y < 2 ^ 24) (m : Felt) :
    (timestampLessThanRow x y m).x = (timestampLessThanRow x y m).y ∨
      (timestampLessThanRow x y m).vBits 24 = 0 := by
  rcases hle.eq_or_lt with rfl | hlt
  · exact .inl rfl
  · right
    have hv : (x + (1 <<< 24) - y) >>> 24 = 0 := by
      rw [Nat.shiftRight_eq_div_pow, Nat.shiftLeft_eq, one_mul]
      exact Nat.div_eq_of_lt (by omega)
    show (((x + (1 <<< 24) - y) >>> 24 &&& 1 : ℕ) : Felt) = 0
    rw [hv, Nat.zero_and, Nat.cast_zero]

theorem compared_of_built (h : ProvableRun program n vm) (hrun : RunOf program xs vm)
    (hT : Built P program xs vm T) : (memoryTables T).Compared := by
  constructor
  · show ∀ c ∈ T.timestampLt, _
    rw [hT.timestampLt]
    intro c hc hmult
    rcases List.mem_append.mp hc with hc | hc
    · obtain ⟨entry, hentry, rfl⟩ := List.mem_map.mp hc
      exact timestampLessThanRow_top (timestampLtEntries_le entry hentry)
        (timestampLtEntries_lt h.steps h.timestamp entry hentry).2 1
    · rw [List.eq_of_mem_replicate hc] at hmult
      exact absurd rfl hmult
  · show T.memory.IsChain _
    rw [hT.memory]
    refine (fillFlags_types fun row hrow => ?_).imp fun _ _ hflag _ => .inl hflag
    rcases List.mem_append.mp hrow with hrow | hrow
    · obtain ⟨op, hop, rfl⟩ := List.mem_map.mp hrow
      obtain ⟨o, ho, rfl⟩ := mem_sortOps.mp hop
      show ((memoryTypeCode (MemoryOp.ofOperation o).memoryType : ℕ) : Felt) = 0
      rw [register_of_mem hrun o ho]
      exact Nat.cast_zero
    · rw [List.eq_of_mem_replicate hrow]

/-- Built for a run, the traces are accepted when their constraints hold. -/
theorem accepted_of_built (h : ProvableRun program n vm) (hrun : RunOf program xs vm)
    (hT : Built P program xs vm T) (heval : T.Eval P) : T.Accepted P where
  eval := heval
  balanced := balanced h hrun hT
  interactions := interactions_lt (heights_of_built h hrun hT)

theorem programHash_ne_nil (hT : Built P program xs vm T) : T.programHash ≠ [] := by
  intro hnil
  have hheight := length_buildProgramHash hT.programHash
  have hle := le_height (numRealRows program + 1)
  rw [hnil, List.length_nil] at hheight
  omega

end Honest

end Loquela.Soundness
