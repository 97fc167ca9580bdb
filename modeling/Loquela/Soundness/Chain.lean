import Loquela.Library.Path
import Loquela.Soundness.Interactions

/-! # The execution chain

The trace bus passes execution states from row to row. Every instruction advances the
timestamp by one to three, and the whole advance stays below the characteristic of the field,
so a balanced bus leaves no room for a second chain or a cycle.
-/

namespace Loquela.Soundness
open Air Library Library.Bus Library.Path

/-- A pc and a timestamp. -/
abbrev ExecutionState (F : Type*) := Limbs F × F

variable {F : Type*}

def stateTuple (s : ExecutionState F) : List F := traceTuple s.1 s.2

theorem stateTuple_injective : Function.Injective (stateTuple (F := F)) := by
  intro a b h
  obtain ⟨hpc, htime⟩ := traceTuple_inj.mp h
  exact Prod.ext hpc htime

variable [Field F]

def consumed (r : InstrRow F) : ExecutionState F := (r.ports.pc, r.ports.timestamp)

def produced (r : InstrRow F) : ExecutionState F :=
  (r.ports.nextPc, r.ports.timestamp + r.ports.ticks)

/-- The state `BoundariesAir` receives. -/
def finalState (t : BoundaryTrace F) : ExecutionState F := ((t 3).pc, (t 3).timestamp)

theorem boundaries_boolean (t : BoundaryTrace F) :
    ∀ x ∈ boundariesLookups t, x.multiplicity = 0 ∨ x.multiplicity = 1 := by
  simp [boundariesLookups, List.ofFn_succ, isFirst, isLast, send, receive]

variable [DecidableEq F]

/-- The rows that are not padding. -/
def realRows (rows : List (InstrRow F)) : List (InstrRow F) := rows.filter fun r => r.isDummy = 1

theorem selected_rows_send (rows : List (InstrRow F)) :
    selected .send .trace (rows.flatMap InstrRow.lookups) =
      ((realRows rows).map produced).map stateTuple := by
  induction rows with
  | nil => rfl
  | cons r rows ih =>
    rw [List.flatMap_cons, selected_append, ih, InstrRow.lookups, selected_trace_send (regular r)]
    by_cases h : r.ports.isDummy = 1
    · simp [realRows, InstrRow.isDummy, h, stateTuple, produced]
    · simp [realRows, InstrRow.isDummy, h]

theorem selected_rows_receive (rows : List (InstrRow F)) :
    selected .receive .trace (rows.flatMap InstrRow.lookups) =
      ((realRows rows).map consumed).map stateTuple := by
  induction rows with
  | nil => rfl
  | cons r rows ih =>
    rw [List.flatMap_cons, selected_append, ih, InstrRow.lookups,
      selected_trace_receive (regular r)]
    by_cases h : r.ports.isDummy = 1
    · simp [realRows, InstrRow.isDummy, h, stateTuple, consumed]
    · simp [realRows, InstrRow.isDummy, h]

theorem selected_boundaries_send (t : BoundaryTrace F) :
    selected .send .trace (boundariesLookups t) = [stateTuple 0] := by
  simp [boundariesLookups, List.ofFn_succ, isFirst, isLast, stateTuple]

theorem selected_boundaries_receive (t : BoundaryTrace F) :
    selected .receive .trace (boundariesLookups t) = [stateTuple (finalState t)] := by
  simp [boundariesLookups, List.ofFn_succ, isFirst, isLast, stateTuple, finalState]

omit [DecidableEq F] in
theorem rows_trace_boolean {rows : List (InstrRow F)}
    (hdummy : ∀ r ∈ rows, r.isDummy = 0 ∨ r.isDummy = 1) :
    ∀ x ∈ rows.flatMap InstrRow.lookups, x.bus = .trace →
      x.multiplicity = 0 ∨ x.multiplicity = 1 := by
  intro x hx hbus
  obtain ⟨r, hr, hx⟩ := List.mem_flatMap.mp hx
  rw [multiplicity_eq_isDummy hx (by simp [hbus])]
  exact hdummy r hr

/-- The states sent: those the real rows produce, and the initial one. -/
theorem selected_states_send (rows : List (InstrRow F)) (t : BoundaryTrace F) :
    selected .send .trace (rows.flatMap InstrRow.lookups ++ boundariesLookups t) =
      ((realRows rows).map produced ++ [0]).map stateTuple := by
  rw [selected_append, selected_rows_send, selected_boundaries_send, List.map_append]
  rfl

/-- The states received: those the real rows consume, and the final one. -/
theorem selected_states_receive (rows : List (InstrRow F)) (t : BoundaryTrace F) :
    selected .receive .trace (rows.flatMap InstrRow.lookups ++ boundariesLookups t) =
      ((realRows rows).map consumed ++ [finalState t]).map stateTuple := by
  rw [selected_append, selected_rows_receive, selected_boundaries_receive, List.map_append]
  rfl

omit [DecidableEq F] in
theorem trace_boolean {rows : List (InstrRow F)} (hdummy : ∀ r ∈ rows, r.isDummy = 0 ∨ r.isDummy = 1)
    (t : BoundaryTrace F) :
    ∀ x ∈ rows.flatMap InstrRow.lookups ++ boundariesLookups t, x.bus = .trace →
      x.multiplicity = 0 ∨ x.multiplicity = 1 := by
  intro x hx hbus
  rcases List.mem_append.mp hx with hx | hx
  · exact rows_trace_boolean hdummy x hx hbus
  · exact boundaries_boolean t x hx

variable [CharP F modulus]

/-- Balance of the trace bus, with fewer states than the characteristic, means that the states
sent are the states received. -/
theorem states_perm {rows : List (InstrRow F)} {t : BoundaryTrace F}
    (hdummy : ∀ r ∈ rows, r.isDummy = 0 ∨ r.isDummy = 1)
    (hnet : ∀ values, net (rows.flatMap InstrRow.lookups ++ boundariesLookups t) .trace values = 0)
    (hlength : (realRows rows).length + 1 < modulus) :
    (0 :: (realRows rows).map produced).Perm
      (finalState t :: (realRows rows).map consumed) := by
  have hsend := selected_states_send rows t
  have hreceive := selected_states_receive rows t
  have hperm := perm_of_balanced (p := modulus) (trace_boolean hdummy t)
    (by rw [hsend]; simpa using hlength) (by rw [hreceive]; simpa using hlength) hnet
  rw [hsend, hreceive] at hperm
  have hstates := (List.map_perm_map_iff stateTuple_injective).mp hperm
  exact (List.perm_append_singleton _ _).symm.trans
    (hstates.trans (List.perm_append_singleton _ _))

omit [DecidableEq F] [CharP F modulus] in
/-- The advance of the clock over few rows stays below the characteristic. -/
theorem sum_ticks_lt {rows : List (InstrRow F)} (hcount : 3 * rows.length + 1 < modulus) :
    (rows.map fun r => r.ports.ticks).sum < modulus := by
  have hle := List.sum_le_card_nsmul (rows.map fun r => r.ports.ticks) 3 (by
    intro k hk
    obtain ⟨r, -, rfl⟩ := List.mem_map.mp hk
    exact (regular r).ticks_le)
  rw [List.length_map, smul_eq_mul] at hle
  omega

/-- The real rows form one chain from the initial state to the boundary's final state. -/
theorem exists_chain {rows : List (InstrRow F)} {t : BoundaryTrace F}
    (hdummy : ∀ r ∈ rows, r.isDummy = 0 ∨ r.isDummy = 1)
    (hnet : ∀ values, net (rows.flatMap InstrRow.lookups ++ boundariesLookups t) .trace values = 0)
    (hcount : 3 * (realRows rows).length + 1 < modulus) :
    ∃ chain, (realRows rows).Perm chain ∧ IsPath consumed produced 0 chain (finalState t) ∧
      (chain.map fun r => r.ports.timestamp).Nodup := by
  have htick : ∀ r : InstrRow F, (produced r).2 = (consumed r).2 + r.ports.ticks := fun _ => rfl
  have hpos : ∀ r : InstrRow F, 0 < r.ports.ticks := fun r => (regular r).ticks_pos
  have hsum := sum_ticks_lt hcount
  have hperm := states_perm hdummy hnet (by omega)
  obtain ⟨chain, hchain, hpath⟩ := exists_path Prod.snd hperm (fun r _ => htick r)
    (fun r _ => hpos r) hsum
  refine ⟨chain, hchain, hpath, ?_⟩
  apply clock_nodup (fun r _ => htick r) (fun r _ => hpos r) _ hpath
  rwa [← (hchain.map _).sum_eq]

/-- For any mix of instruction rows whose `is_dummy` is boolean and any boundary trace that
satisfies its constraints: the boundary's first row is the initial state, and every real row
occurs once in one chain of states from it to the boundary's final state. -/
theorem single_execution_chain (rows : List (InstrRow Felt)) (t : BoundaryTrace Felt)
    (hdummy : ∀ r ∈ rows, r.isDummy = 0 ∨ r.isDummy = 1) (ht : boundariesEval t)
    (hnet : ∀ values, net (rows.flatMap InstrRow.lookups ++ boundariesLookups t) .trace values = 0)
    (hcount : 3 * (realRows rows).length + 1 < modulus) :
    ((t 0).pc = 0 ∧ (t 0).timestamp = 0) ∧
      ∃ chain, (realRows rows).Perm chain ∧
        IsPath consumed produced ((t 0).pc, (t 0).timestamp) chain ((t 3).pc, (t 3).timestamp) ∧
        (chain.map fun r => r.ports.timestamp).Nodup := by
  have hpc : (t 0).pc = 0 := by
    funext k
    simpa [isFirst] using (ht 0).1 k
  have htime : (t 0).timestamp = 0 := by simpa [isFirst] using (ht 0).2
  rw [hpc, htime]
  exact ⟨⟨rfl, rfl⟩, exists_chain hdummy hnet hcount⟩

/-- Two times `lui x1, 0`, in rows that are not in their order, with a padding row. -/
theorem single_execution_chain_twoSteps :
    let first : LuiColumns Felt := ⟨0, 0, 1, 0, 0, 0, 0, ![4, 0, 0, 0], 0, 1⟩
    let second : LuiColumns Felt := ⟨![4, 0, 0, 0], 1, 1, 0, 0, 0, 0, ![8, 0, 0, 0], 0, 1⟩
    let padding : LuiColumns Felt := ⟨0, 0, 0, 0, 0, 0, 0, ![4, 0, 0, 0], 0, 0⟩
    let t : BoundaryTrace Felt := ![⟨0, 0⟩, ⟨0, 0⟩, ⟨0, 0⟩, ⟨![8, 0, 0, 0], 2⟩]
    ((t 0).pc = 0 ∧ (t 0).timestamp = 0) ∧
      ∃ chain, (realRows [.lui second, .lui first, .lui padding]).Perm chain ∧
        IsPath consumed produced ((t 0).pc, (t 0).timestamp) chain ((t 3).pc, (t 3).timestamp) ∧
        (chain.map fun r => r.ports.timestamp).Nodup := by
  intro first second padding t
  apply single_execution_chain [.lui second, .lui first, .lui padding] t
  · decide
  · decide
  · apply net_eq_zero_of_perm
    · decide
    · decide
  · decide

end Loquela.Soundness
