import Loquela.Soundness.Mutation

/-! # Mutated boundaries and lookup tables

The tables that are not filled row by row: the four boundary rows, of which only the first and the
last are looked at, and the lookup tables, where the prover only chooses multiplicities. The other
tables settle both, up to how two copies of one table share what they receive.
-/

namespace Loquela.Soundness
open Air Completeness Library Library.Bus Trace

section Distinct

theorem nodup_flatMap_range {A : Type*} {f : ℕ → ℕ → A} {n : ℕ} {m : ℕ → ℕ}
    (hinj : ∀ x < n, ∀ y < m x, ∀ x' < n, ∀ y' < m x', f x y = f x' y' → x = x' ∧ y = y') :
    ((List.range n).flatMap fun x => (List.range (m x)).map (f x)).Nodup := by
  rw [List.nodup_flatMap]
  constructor
  · intro x hx
    have hx := List.mem_range.mp hx
    apply List.nodup_range.map_on
    intro y hy y' hy' heq
    exact (hinj x hx y (List.mem_range.mp hy) x hx y' (List.mem_range.mp hy') heq).2
  · apply List.nodup_range.pairwise_of_forall_ne
    intro x hx x' hx' hne a ha ha'
    obtain ⟨y, hy, rfl⟩ := List.mem_map.mp ha
    obtain ⟨y', hy', heq⟩ := List.mem_map.mp ha'
    exact hne (hinj x (List.mem_range.mp hx) y (List.mem_range.mp hy) x' (List.mem_range.mp hx') y'
      (List.mem_range.mp hy') heq.symm).1

/-- The rows of a table as tuples. -/
def castRows (rows : List (List ℕ)) : List (List Felt) := rows.map (List.map Nat.cast)

theorem nodup_bytesRows : (castRows bytesAir.rows).Nodup := by
  rw [castRows, bytesAir, List.map_map]
  apply List.nodup_range.map_on
  intro b hb b' hb' heq
  have hlarge : 256 < modulus := by norm_num
  exact natCast_inj_of_lt ((List.mem_range.mp hb).trans hlarge)
    ((List.mem_range.mp hb').trans hlarge) (List.cons.inj heq).1

/-- Rows that begin with a byte and another number. -/
theorem nodup_pairRows (m : ℕ) (hm : m < modulus) (rest : ℕ → ℕ → List ℕ) :
    (castRows ((List.range 256).flatMap fun x => (List.range m).map fun y =>
      x :: y :: rest x y)).Nodup := by
  rw [castRows, List.map_flatMap]
  simp only [List.map_map]
  apply nodup_flatMap_range
  intro x hx y hy x' hx' y' hy' heq
  have hlarge : 256 < modulus := by norm_num
  obtain ⟨hfirst, htail⟩ := List.cons.inj heq
  exact ⟨natCast_inj_of_lt (hx.trans hlarge) (hx'.trans hlarge) hfirst,
    natCast_inj_of_lt (hy.trans hm) (hy'.trans hm) (List.cons.inj htail).1⟩

theorem nodup_bitwiseRows (op : ℕ → ℕ → ℕ) : (castRows (bitwiseRows op)).Nodup :=
  nodup_pairRows 256 (by norm_num) fun x y => [op x y]

theorem nodup_byteSllRows : (castRows byteShiftLeftAir.rows).Nodup :=
  nodup_pairRows 8 (by norm_num) fun x k =>
    [(x <<< k) &&& 0xFF, if k = 0 then 0 else x >>> (8 - k)]

theorem nodup_byteSrlRows : (castRows byteShiftRightAir.rows).Nodup :=
  nodup_pairRows 8 (by norm_num) fun x k =>
    [x >>> k, if k = 0 then 0 else (x <<< (8 - k)) &&& 0xFF]

theorem nodup_lessThanPairs : (castRows (lessThanPairs 256)).Nodup := by
  rw [castRows, lessThanPairs, List.map_flatMap]
  simp only [List.map_map]
  apply nodup_flatMap_range
  intro y hy x hx y' hy' x' hx' heq
  have hlarge : 256 < modulus := by norm_num
  obtain ⟨hfirst, htail⟩ := List.cons.inj heq
  exact ⟨natCast_inj_of_lt (hy.trans hlarge) (hy'.trans hlarge) (List.cons.inj htail).1,
    natCast_inj_of_lt (by omega) (by omega) hfirst⟩

theorem zero_notMem_lessThanPairs : [0, 0] ∉ castRows (lessThanPairs 256) := by
  intro hmem
  obtain ⟨row, hrow, heq⟩ := List.mem_map.mp hmem
  obtain ⟨y, hy, hrow⟩ := List.mem_flatMap.mp hrow
  obtain ⟨x, hx, rfl⟩ := List.mem_map.mp hrow
  rw [List.mem_range] at hx hy
  have hlarge : 256 < modulus := by norm_num
  have hzero : ((y : ℕ) : Felt) = ((0 : ℕ) : Felt) := by
    rw [Nat.cast_zero]
    exact (List.cons.inj (List.cons.inj heq).2).1
  have := natCast_inj_of_lt (by omega) (by omega) hzero
  omega

end Distinct

section Tables

variable {t : Table}

theorem lookups_eq_mapIdx (t : Table) (m : ℕ → Felt) : t.lookups m =
    (castRows t.rows).mapIdx fun i row => ⟨t.bus, .receive, row, m i⟩ := by
  apply List.ext_getElem (by simp [castRows])
  intro i hi hi'
  simp only [Table.lookups, castRows, List.getElem_mapIdx, List.getElem_map]
  rfl

theorem net_table_eq_iff (hnodup : (castRows t.rows).Nodup) {n : ℕ} (hlength : t.rows.length = n)
    (m m' : ℕ → Felt) :
    (∀ values, net (t.lookups m') t.bus values = net (t.lookups m) t.bus values) ↔
      ∀ i < n, m' i = m i := by
  simp only [lookups_eq_mapIdx]
  rw [net_mapIdx_eq_iff hnodup, castRows, List.length_map, hlength]

theorem net_table_add (t : Table) (m m' : ℕ → Felt) (values : List Felt) :
    net (t.lookups fun i => m i + m' i) t.bus values =
      net (t.lookups m) t.bus values + net (t.lookups m') t.bus values := by
  rw [lookups_eq_mapIdx, lookups_eq_mapIdx, lookups_eq_mapIdx]
  exact net_mapIdx_add (castRows t.rows) m m' values

/-- An absent table receives nothing. -/
theorem net_optional_getD (t : Table) (m : Option (ℕ → Felt)) (bus : BusName)
    (values : List Felt) :
    net (t.optionalLookups m) bus values = net (t.lookups (m.getD 0)) bus values := by
  cases m with
  | none => exact (net_of_forall_multiplicity t.multiplicity_eq_zero).symm
  | some m => rfl

theorem net_lessThanAir_eq_iff (m m' : ℕ → Felt) :
    (∀ values, net (lessThanAir.lookups m') .bytesLt values =
      net (lessThanAir.lookups m) .bytesLt values) ↔
        (∀ i < 32640, m' i = m i) ∧
          ∑ i ∈ Finset.range 128, m' (i + 32640) = ∑ i ∈ Finset.range 128, m (i + 32640) := by
  have hrows : castRows lessThanAir.rows =
      castRows (lessThanPairs 256) ++ List.replicate 128 [0, 0] := by
    rw [castRows, lessThanAir, List.map_append, List.map_replicate]
    simp [castRows]
  have hlength : (castRows (lessThanPairs 256)).length = 32640 := by
    rw [castRows, List.length_map, lessThanPairs_length]
  simp only [lookups_eq_mapIdx, hrows]
  rw [← hlength]
  exact net_padded_eq_iff nodup_lessThanPairs zero_notMem_lessThanPairs

end Tables

section Boundaries

theorem net_boundariesLookups (b : BoundaryTrace Felt) (values : List Felt) :
    net (boundariesLookups b) .trace values = (if traceTuple 0 0 = values then 1 else 0) -
      if traceTuple (b 3).pc (b 3).timestamp = values then 1 else 0 := by
  simp [boundariesLookups, List.ofFn_succ, isFirst, isLast, send_weight, receive_weight]
  split_ifs <;> ring

theorem boundariesEval_iff {b : BoundaryTrace Felt} :
    boundariesEval b ↔ b 0 = ⟨0, 0⟩ := by
  constructor
  · intro h
    obtain ⟨hpc, htime⟩ := h 0
    cases hb : b 0
    rw [hb] at hpc htime
    rw [BoundaryColumns.mk.injEq]
    exact ⟨funext fun k => by simpa [isFirst] using hpc k, by simpa [isFirst] using htime⟩
  · intro h i
    by_cases hi : i = 0
    · rw [hi, h]
      simp
    · simp [isFirst, hi]

/-- The final state is what the boundaries receive. -/
theorem net_boundaries_eq_iff {b b' : BoundaryTrace Felt} :
    (∀ values, net (boundariesLookups b') .trace values = net (boundariesLookups b) .trace values) ↔
      b' 3 = b 3 := by
  constructor
  · intro h
    have hentry : ∀ values,
        (if traceTuple (b' 3).pc (b' 3).timestamp = values then (1 : Felt) else 0) =
          if traceTuple (b 3).pc (b 3).timestamp = values then 1 else 0 := by
      intro values
      have hvalues := h values
      rw [net_boundariesLookups, net_boundariesLookups] at hvalues
      exact sub_right_injective hvalues
    obtain ⟨hpc, htime⟩ := traceTuple_inj.mp ((eq_of_entry hentry).2 one_ne_zero)
    cases hb : b 3
    cases hb' : b' 3
    rw [hb, hb'] at hpc htime
    exact BoundaryColumns.mk.injEq _ _ _ _ ▸ ⟨hpc, htime⟩
  · intro h values
    rw [net_boundariesLookups, net_boundariesLookups, h]

end Boundaries

section Settled

/-- Two trace sets with the same rows, and with the same tables present. -/
structure SameRows (T T' : TraceSet Felt) : Prop where
  rows : T'.rows = T.rows
  decode : T'.decode = T.decode
  memory : T'.memory = T.memory
  program : T'.program = T.program
  programHash : T'.programHash = T.programHash
  publicValues : T'.programHashPublicValues = T.programHashPublicValues
  poseidon2Chip : T'.poseidon2Chip = T.poseidon2Chip
  u32Lt : T'.u32Lt = T.u32Lt
  timestampLt : T'.timestampLt = T.timestampLt
  andPrim : T'.andPrim.isSome = T.andPrim.isSome
  byteSll : T'.byteSll.isSome = T.byteSll.isSome
  byteSrl : T'.byteSrl.isSome = T.byteSrl.isSome

/-- Trace sets that agree in the final state and in what every table entry is received with. Two
tables with the same entries are received together, and so are the copies of an entry. -/
structure SameCounts (T T' : TraceSet Felt) : Prop where
  final : T'.boundaries 3 = T.boundaries 3
  bytes : ∀ i < 256, T'.bytes i = T.bytes i
  xor : ∀ i < 65536, T'.xor i = T.xor i
  or : ∀ i < 65536, T'.or i + T'.orPrim i = T.or i + T.orPrim i
  and : ∀ i < 65536, T'.and i + T'.andPrim.getD 0 i = T.and i + T.andPrim.getD 0 i
  byteSll : ∀ i < 2048, T'.byteSll.getD 0 i = T.byteSll.getD 0 i
  byteSrl : ∀ i < 2048, T'.byteSrl.getD 0 i = T.byteSrl.getD 0 i
  bytesLt : ∀ i < 32640, T'.bytesLt i = T.bytesLt i
  bytesLtPadding : ∑ i ∈ Finset.range 128, T'.bytesLt (i + 32640) =
    ∑ i ∈ Finset.range 128, T.bytesLt (i + 32640)

variable {P : Poseidon2 Felt} {T T' : TraceSet Felt}

/-- The interactions of the boundaries and the lookup tables, bus by bus. -/
theorem net_settled (T : TraceSet Felt) (bus : BusName) (values : List Felt) :
    net (boundariesLookups T.boundaries ++ T.tableLookups) bus values =
      match bus with
      | .trace => net (boundariesLookups T.boundaries) .trace values
      | .bytes => net (bytesAir.lookups T.bytes) .bytes values
      | .bytesXor => net (xorAir.lookups T.xor) .bytesXor values
      | .bytesOr => net (orAir.lookups fun i => T.or i + T.orPrim i) .bytesOr values
      | .bytesAnd => net (andAir.lookups fun i => T.and i + T.andPrim.getD 0 i) .bytesAnd values
      | .byteSll => net (byteShiftLeftAir.lookups (T.byteSll.getD 0)) .byteSll values
      | .byteSrl => net (byteShiftRightAir.lookups (T.byteSrl.getD 0)) .byteSrl values
      | .bytesLt => net (lessThanAir.lookups T.bytesLt) .bytesLt values
      | _ => 0 := by
  have hboundaries (hbus : bus ∉ [.trace]) := net_of_notMem (boundaries_bus T.boundaries) hbus values
  have hor := net_table_add orAir T.or T.orPrim values
  have hand := net_table_add andAir T.and (T.andPrim.getD 0) values
  rw [net_append, net_tableLookups]
  simp only [net_optional_getD]
  cases bus <;> simp only [List.mem_singleton, reduceCtorEq, not_false_eq_true, forall_const,
    not_true_eq_false, false_implies, add_zero] at hboundaries ⊢ <;>
    simp only [hboundaries, zero_add]
  · exact hor.symm
  · exact hand.symm

theorem net_settled_eq_iff : (∀ bus values,
    net (boundariesLookups T'.boundaries ++ T'.tableLookups) bus values =
      net (boundariesLookups T.boundaries ++ T.tableLookups) bus values) ↔ SameCounts T T' := by
  have hbitwise (op : ℕ → ℕ → ℕ) : (bitwiseRows op).length = 65536 := length_flatMap_range _ 256 256
  have hbytes := net_table_eq_iff (t := bytesAir) nodup_bytesRows
    (by rw [bytesAir, List.length_map, List.length_range]) T.bytes T'.bytes
  have hxor := net_table_eq_iff (t := xorAir) (nodup_bitwiseRows _) (hbitwise _) T.xor T'.xor
  have hor := net_table_eq_iff (t := orAir) (nodup_bitwiseRows _) (hbitwise _)
    (fun i => T.or i + T.orPrim i) fun i => T'.or i + T'.orPrim i
  have hand := net_table_eq_iff (t := andAir) (nodup_bitwiseRows _) (hbitwise _)
    (fun i => T.and i + T.andPrim.getD 0 i) fun i => T'.and i + T'.andPrim.getD 0 i
  have hsll := net_table_eq_iff nodup_byteSllRows (length_flatMap_range _ 256 8)
    (T.byteSll.getD 0) (T'.byteSll.getD 0)
  have hsrl := net_table_eq_iff nodup_byteSrlRows (length_flatMap_range _ 256 8)
    (T.byteSrl.getD 0) (T'.byteSrl.getD 0)
  have hlt := net_lessThanAir_eq_iff T.bytesLt T'.bytesLt
  constructor
  · intro h
    have hnet (bus values) :=
      (net_settled T' bus values).symm.trans ((h bus values).trans (net_settled T bus values))
    obtain ⟨hpairs, hpadding⟩ := hlt.mp (hnet .bytesLt)
    exact
      { final := net_boundaries_eq_iff.mp (hnet .trace)
        bytes := hbytes.mp (hnet .bytes)
        xor := hxor.mp (hnet .bytesXor)
        or := hor.mp (hnet .bytesOr)
        and := hand.mp (hnet .bytesAnd)
        byteSll := hsll.mp (hnet .byteSll)
        byteSrl := hsrl.mp (hnet .byteSrl)
        bytesLt := hpairs
        bytesLtPadding := hpadding }
  · intro h bus values
    rw [net_settled, net_settled]
    cases bus with
    | trace => exact net_boundaries_eq_iff.mpr h.final values
    | bytes => exact hbytes.mpr h.bytes values
    | bytesXor => exact hxor.mpr h.xor values
    | bytesOr => exact hor.mpr h.or values
    | bytesAnd => exact hand.mpr h.and values
    | byteSll => exact hsll.mpr h.byteSll values
    | byteSrl => exact hsrl.mpr h.byteSrl values
    | bytesLt => exact hlt.mpr ⟨h.bytesLt, h.bytesLtPadding⟩ values
    | _ => rfl

theorem net_of_sameRows (h : SameRows T T') (bus : BusName) (values : List Felt) :
    net T'.lookups bus values +
      net (boundariesLookups T.boundaries ++ T.tableLookups) bus values =
    net T.lookups bus values +
      net (boundariesLookups T'.boundaries ++ T'.tableLookups) bus values := by
  simp only [TraceSet.lookups, net_append, h.rows, h.decode, h.memory, h.program, h.programHash,
    h.poseidon2Chip, h.u32Lt, h.timestampLt]
  ring

theorem length_of_sameRows (h : SameRows T T') : T'.lookups.length = T.lookups.length := by
  have hoptional : ∀ (t : Table) {m m' : Option (ℕ → Felt)}, m'.isSome = m.isSome →
      (t.optionalLookups m').length = (t.optionalLookups m).length := by
    intro t m m' hsome
    cases m <;> cases m'
    · rfl
    · cases hsome
    · cases hsome
    · simp [Table.optionalLookups]
  have hboundaries : ∀ b : BoundaryTrace Felt, (boundariesLookups b).length = 8 := by
    simp [boundariesLookups]
  simp only [TraceSet.lookups, TraceSet.tableLookups, List.length_append, Table.length_lookups,
    hboundaries, hoptional _ h.andPrim, hoptional _ h.byteSll, hoptional _ h.byteSrl, h.rows,
    h.decode, h.memory, h.program, h.programHash, h.poseidon2Chip, h.u32Lt, h.timestampLt]

theorem eval_of_sameRows (h : SameRows T T') (heval : T.Eval P)
    (hboundaries : boundariesEval T'.boundaries) : T'.Eval P where
  rows := h.rows ▸ heval.rows
  boundaries := hboundaries
  decode := h.decode ▸ heval.decode
  memory := h.memory ▸ heval.memory
  program := h.program ▸ heval.program
  programHash := by
    rw [h.programHash, h.publicValues]
    exact heval.programHash
  poseidon2Chip := h.poseidon2Chip ▸ heval.poseidon2Chip
  u32Lt := h.u32Lt ▸ heval.u32Lt
  timestampLt := h.timestampLt ▸ heval.timestampLt

/-- Next to the rows of an accepted trace set, the boundaries and the multiplicities of all lookup
tables can be replaced exactly by those that begin at zero, end in the same state and receive every
table entry equally often, counting together the two OR tables, the two AND tables and the padding
rows of the table of ordered bytes. -/
theorem bookkeeping_pinned (P : Poseidon2 Felt) (T T' : TraceSet Felt) (h : T.Accepted P)
    (hrows : SameRows T T') :
    T'.Accepted P ↔ T'.boundaries 0 = ⟨0, 0⟩ ∧ SameCounts T T' := by
  rw [accepted_iff_net_eq h (net_of_sameRows hrows) (length_of_sameRows hrows), net_settled_eq_iff,
    ← boundariesEval_iff]
  exact and_congr_left fun _ => ⟨fun heval => heval.boundaries, eval_of_sameRows hrows h.eval⟩

/-- A LUI step whose first OR table receives everything once, and whose second takes it back. -/
theorem bookkeeping_pinned_lui :
    let T := carriedTraces ⟨id, id, 0, 0, 0⟩ 0
    let T' : TraceSet Felt := { T with or := fun _ => 1, orPrim := fun _ => -1 }
    T'.Accepted ⟨id, id, 0, 0, 0⟩ ↔ T'.boundaries 0 = ⟨0, 0⟩ ∧ SameCounts T T' :=
  bookkeeping_pinned ⟨id, id, 0, 0, 0⟩ (carriedTraces ⟨id, id, 0, 0, 0⟩ 0)
    { carriedTraces ⟨id, id, 0, 0, 0⟩ 0 with or := fun _ => 1, orPrim := fun _ => -1 }
    (carriedTraces_accepted _ (.inl rfl))
    ⟨rfl, rfl, rfl, rfl, rfl, rfl, rfl, rfl, rfl, rfl, rfl, rfl⟩

end Settled

end Loquela.Soundness
