import Loquela.Completeness.Rows
import Loquela.Soundness.Interactions
import Loquela.Vm.Log

/-! # The honest trace bus

The real rows of the instruction tables are the executed steps: each receives the execution state
before its step and sends the one after it.
-/

namespace Loquela.Completeness
open Air Library.Bus Soundness Trace
open Rv32i hiding bit
open Vm (Byte VM ofRv32i)

section Rows

variable {F : Type*} [Field F] (x : Executed)

variable [DecidableEq F]

/-- An execution state as it goes over the trace bus. -/
def stateTuple (s : Vm.U32 × ℕ) : List F := traceTuple (u32ToLimbs s.1) (s.2 : F)

theorem row_receives :
    selected .receive .trace (x.row : InstrRow F).lookups = [stateTuple x.entry] := by
  rw [InstrRow.lookups, selected_trace_receive (regular _), if_pos (row_ports x).isDummy,
    (row_ports x).pc, (row_ports x).timestamp]
  rfl

theorem row_sends :
    selected .send .trace (x.row : InstrRow F).lookups = [stateTuple x.exit] := by
  rw [InstrRow.lookups, selected_trace_send (regular _), if_pos (row_ports x).isDummy,
    (row_ports x).nextPc, (row_ports x).timestamp, (row_ports x).ticks, ← Nat.cast_add]
  rfl

end Rows

section Real

variable {F : Type*} [Field F] [DecidableEq F]

/-- The rows of the instruction tables that are not padding. -/
def realRows (tables : List (List (InstrRow F))) : List (InstrRow F) :=
  tables.flatten.filter fun r => r.isDummy = 1

/-- Every executed step has one real row, in the table of its kind. -/
theorem realRows_kindTables (xs : List Executed) :
    (realRows (kindTables (F := F) xs)).Perm (xs.map Executed.row) := by
  apply ((kindTables_perm xs).filter _).trans
  have hsteps : (xs.map (Executed.row (F := F))).filter (fun r => r.isDummy = 1) =
      xs.map Executed.row := by
    apply List.filter_eq_self.mpr
    intro r hr
    obtain ⟨x, -, rfl⟩ := List.mem_map.mp hr
    exact decide_eq_true (row_ports x).isDummy
  have hpadding : (padding (F := F) xs).filter (fun r => r.isDummy = 1) = [] := by
    apply List.filter_eq_nil_iff.mpr
    intro r hr hreal
    obtain ⟨id, rfl⟩ := eq_paddingRow hr
    exact zero_ne_one ((paddingRow_isDummy id).symm.trans (of_decide_eq_true hreal))
  rw [List.filter_append, hsteps, hpadding, List.append_nil]

theorem boundaries_receives (pc : Vm.U32) (timestamp : ℕ) :
    selected .receive .trace (boundariesLookups (F := F) (buildBoundaries pc timestamp)) =
      [stateTuple (pc, timestamp)] := by
  simp [boundariesLookups, List.ofFn_succ, isFirst, isLast, buildBoundaries, stateTuple]

end Real

/-- The rows are those of the steps of `program`: row `j` is of the kind of step `j`, receives the
execution state before that step and sends the state after it. -/
def StepRows {n : ℕ} (program : List Byte) (vm : VM) (rows : Fin n → InstrRow Felt) : Prop :=
  ∀ j : Fin n, ∃ before after step,
    (VM.new program).steps j = some before ∧ (VM.new program).steps (j + 1) = some after ∧
    vm.trace[(j : ℕ)]? = some step ∧ (rows j).id = instructionId step.instruction ∧
    selected .receive .trace (rows j).lookups =
      [traceTuple (u32ToLimbs before.pc) (before.timestamp : Felt)] ∧
    selected .send .trace (rows j).lookups =
      [traceTuple (u32ToLimbs after.pc) (after.timestamp : Felt)]

/-- The real rows of the tables built for a run are one row for each step, chained by the states
of the interpreter, and the boundaries receive the last of them. -/
theorem honest_trace_chain (program : List Byte) (n : ℕ) (vm : VM)
    (hrun : (VM.new program).steps n = some vm) :
    ∃ tables, instructionTraces (F := Felt) vm.trace = some tables ∧
      ∃ rows : Fin n → InstrRow Felt, (realRows tables).Perm (List.ofFn rows) ∧
        StepRows program vm rows ∧
        selected .receive .trace (boundariesLookups (buildBoundaries vm.pc vm.timestamp)) =
          [traceTuple (u32ToLimbs vm.pc) (vm.timestamp : Felt)] := by
  obtain ⟨xs, h, rfl, hsteps⟩ := exists_runOf_steps hrun
  refine ⟨kindTables xs, ?_, fun j => (xs.get j).row, ?_, fun j => ?_, boundaries_receives _ _⟩
  · rw [h.trace]
    exact instructionTraces_of_leads h.leads
  · apply (realRows_kindTables xs).trans
    apply List.Perm.of_eq
    conv_lhs => rw [← List.ofFn_get xs]
    exact List.map_ofFn
  · obtain ⟨before, after, hbefore, hafter, hentry, hexit⟩ := hsteps j j.isLt
    refine ⟨before, after, (xs.get j).step, hbefore, hafter, ?_, (row_ports _).id, ?_, ?_⟩
    · rw [h.trace]
      simp
    · rw [row_receives, List.get_eq_getElem, hentry]
      rfl
    · rw [row_sends, List.get_eq_getElem, hexit]
      rfl

/-- Also when the run ends with a `JAL` to `x0`. -/
theorem honest_trace_chain_jal : ∃ vm, (VM.new Vm.keepsLog).steps 2 = some vm ∧
    ∃ tables, instructionTraces (F := Felt) vm.trace = some tables ∧
      ∃ rows : Fin 2 → InstrRow Felt, (realRows tables).Perm (List.ofFn rows) ∧
        StepRows Vm.keepsLog vm rows ∧
        selected .receive .trace (boundariesLookups (buildBoundaries vm.pc vm.timestamp)) =
          [traceTuple (u32ToLimbs vm.pc) (vm.timestamp : Felt)] := by
  have hrun : (VM.new Vm.keepsLog).steps 2 = some _ := rfl
  exact ⟨_, hrun, honest_trace_chain Vm.keepsLog 2 _ hrun⟩

end Loquela.Completeness
