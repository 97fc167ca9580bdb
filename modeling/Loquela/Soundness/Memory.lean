import Loquela.Library.OfflineMemory
import Loquela.Library.Prefix
import Loquela.Soundness.Comparison
import Loquela.Soundness.Words

/-! # The memory argument

The memory table receives exactly the operations sent, and its transitions are the checks of an
offline memory checker, provided that the comparison tables really compare.
-/

namespace Loquela.Soundness
open Air Library Library.Bus Library.Replay

/-- A memory operation as an access to the cell `(memory_type, address)`. -/
def access (op : MemoryTuple Felt) : Access (Felt × Limbs Felt) (Limbs Felt) :=
  ⟨(op.memoryType, op.address), op.timestamp.val, op.read, op.write⟩

/-- Cells are ordered with registers first, then by address. -/
def cellKey (cell : Felt × Limbs Felt) : ℕ :=
  (if cell.1 = 0 then 0 else 2 ^ 32) + packedNat cell.2

theorem packedNat_lt {x y : Limbs Felt} (hx : ∀ i, (x i).val < 256) (h : LimbsLt x y) :
    packedNat x < packedNat y := by
  obtain ⟨i, hlt, habove⟩ := h
  have habove : ∀ j, i < j → (x j).val = (y j).val := fun j hj => congrArg ZMod.val (habove j hj)
  have hx0 := hx 0
  have hx1 := hx 1
  have hx2 := hx 2
  rw [packedNat, packedNat]
  fin_cases i
  · have h1 := habove 1 (by decide)
    have h2 := habove 2 (by decide)
    have h3 := habove 3 (by decide)
    simp only [Fin.zero_eta, Fin.isValue] at hlt
    omega
  · have h2 := habove 2 (by decide)
    have h3 := habove 3 (by decide)
    simp only [Fin.mk_one, Fin.isValue] at hlt
    omega
  · have h3 := habove 3 (by decide)
    simp only [Fin.reduceFinMk, Fin.isValue] at hlt
    omega
  · simp only [Fin.reduceFinMk, Fin.isValue] at hlt
    omega

namespace MemoryTables

/-- The condition under which the comparisons of neighbours order the table: every used timestamp
comparison of different operands has the top bit of `v_bits` clear, and `is_memory_type_equal`
is only 0 where the type changes and the address is flagged as new. -/
structure Compared {F : Type*} [Field F] (t : MemoryTables F) : Prop where
  timestamps : ∀ c ∈ t.timestampLt, c.mult ≠ 0 → c.x = c.y ∨ c.vBits 24 = 0
  types : t.memory.IsChain fun c next => next.isPadding = 0 →
    c.isMemoryTypeEqual = 1 ∨ (c.memoryType ≠ next.memoryType ∧ c.isAddressEqual = 0)

/-- The rows that are not padding. -/
def realRows {F : Type*} [Field F] [DecidableEq F] (t : MemoryTables F) :
    List (MemoryColumns F) := t.memory.filter fun c => c.isPadding = 0

end MemoryTables

section Consistency

variable {t : MemoryTables Felt}

theorem neighbour_mem {k : ℕ} (hk : k + 1 < t.memory.length) :
    (t.memory[k], t.memory[k + 1]) ∈ t.neighbours := by
  apply List.mem_iff_getElem.mpr
  refine ⟨k, by simp [MemoryTables.neighbours]; omega, ?_⟩
  simp [MemoryTables.neighbours, List.getElem_rotate, Nat.mod_eq_of_lt hk]

theorem exists_index_of_neighbour {q : MemoryColumns Felt × MemoryColumns Felt}
    (hq : q ∈ t.neighbours) : ∃ j, ∃ hj : j < t.memory.length,
      q = (t.memory[j], t.memory.get ⟨(j + 1) % t.memory.length, Nat.mod_lt _ (by omega)⟩) := by
  obtain ⟨j, hj, rfl⟩ := List.mem_iff_getElem.mp hq
  have hjn : j < t.memory.length := by simpa [MemoryTables.neighbours] using hj
  exact ⟨j, hjn, by simp [MemoryTables.neighbours, List.getElem_rotate]⟩

/-- Padding is never followed by a real row. -/
theorem falling_real {rows : List (MemoryColumns Felt)} (heval : memoryEval rows) :
    Prefix.Falling (fun c : MemoryColumns Felt => decide (c.isPadding = 0)) rows := by
  apply heval.2.2.imp
  intro c next h hnext
  have hpadding := h.1
  rw [of_decide_eq_true hnext, zero_sub, mul_neg, mul_one, neg_eq_zero] at hpadding
  exact decide_eq_true hpadding

theorem real_of_next {rows : List (MemoryColumns Felt)} (heval : memoryEval rows) :
    rows.IsChain fun c next => next.isPadding = 0 → c.isPadding = 0 := by
  apply (falling_real heval).imp
  intro c next h hnext
  exact of_decide_eq_true (h (decide_eq_true hnext))

/-- Real rows are told apart by their timestamps. -/
theorem index_eq_of_timestamp (hnodup : (t.realRows.map fun c => c.timestamp).Nodup) {i j : ℕ}
    (hi : i < t.memory.length) (hj : j < t.memory.length) (hireal : t.memory[i].isPadding = 0)
    (hjreal : t.memory[j].isPadding = 0) (h : t.memory[i].timestamp = t.memory[j].timestamp) :
    i = j := by
  have hpairwise := List.pairwise_filter.mp (List.pairwise_map.mp hnodup)
  rw [List.pairwise_iff_getElem] at hpairwise
  rcases lt_trichotomy i j with hlt | heq | hlt
  · exact absurd h (hpairwise i j hi hj hlt (by simpa using hireal) (by simpa using hjreal))
  · exact heq
  · exact absurd h.symm (hpairwise j i hj hi hlt (by simpa using hjreal) (by simpa using hireal))

/-- Once the memory type is nonzero it is 1 for good. -/
theorem memoryType_eq_zero {c next : MemoryColumns Felt} (h : c.evalTransition next)
    (hflag : c.isMemoryTypeEqual = 0) (hne : c.memoryType ≠ next.memoryType) :
    c.memoryType = 0 ∧ next.memoryType ≠ 0 := by
  obtain ⟨-, -, hsum, hone, -⟩ := h
  have hzero : c.memoryType = 0 := by
    by_contra hc
    have hnext : next.memoryType = 1 :=
      sub_eq_zero.mp ((mul_eq_zero.mp hone).resolve_left hc)
    rw [hflag, hnext] at hsum
    have hc1 : c.memoryType = 1 := by
      have : c.memoryType * (c.memoryType - 1) = 0 := by linear_combination hsum
      exact sub_eq_zero.mp ((mul_eq_zero.mp this).resolve_left hc)
    exact hne (hc1.trans hnext.symm)
  exact ⟨hzero, fun hnext => hne (hzero.trans hnext.symm)⟩

variable (heval : t.Eval) (hlength : t.lookups.length < modulus)
  (hbytesLt : ∀ values, net t.lookups .bytesLt values = 0)
  (hu32Lt : ∀ values, net t.lookups .u32Lt values = 0)
  (htimestampLt : ∀ values, net t.lookups .timestampLt values = 0)
  (hcompared : t.Compared) (hnodup : (t.realRows.map fun c => c.timestamp).Nodup)
  (hbytes : ∀ c ∈ t.realRows, ∀ i, (c.address i).val < 256)

include heval hlength hbytesLt hu32Lt htimestampLt hcompared hnodup hbytes in
/-- What the transition constraints and the comparisons establish about two neighbours. -/
theorem follows_of_real {k : ℕ} (hk : k + 1 < t.memory.length)
    (hreal : t.memory[k + 1].isPadding = 0) :
    Follows cellKey 0 (access t.memory[k].toMemoryTuple)
      (access t.memory[k + 1].toMemoryTuple) := by
  have htransition := (List.isChain_iff_getElem.mp heval.memory.2.2) k hk
  obtain ⟨-, htypes, -, -, hvalues⟩ := htransition
  have hrealk := List.isChain_iff_getElem.mp (real_of_next heval.memory) k hk hreal
  have hmem : t.memory[k] ∈ t.realRows :=
    List.mem_filter.mpr ⟨List.getElem_mem _, by simpa using hrealk⟩
  have hmem' : t.memory[k + 1] ∈ t.realRows :=
    List.mem_filter.mpr ⟨List.getElem_mem _, by simpa using hreal⟩
  have hread_zero : t.memory[k].isAddressEqual = 0 → t.memory[k + 1].read = 0 := by
    intro hflag
    funext i
    simpa [hflag] using (hvalues i).1
  rcases (List.isChain_iff_getElem.mp hcompared.types) k hk hreal with hflag | ⟨hne, hflag⟩
  · have htype : t.memory[k + 1].memoryType = t.memory[k].memoryType := by
      rw [hflag, one_mul, sub_eq_zero] at htypes
      exact htypes
    rcases u32Lt_sound heval hlength hbytesLt hu32Lt (neighbour_mem hk) hflag hreal with
      ⟨hequal, haddress⟩ | ⟨hequal, hlt⟩
    · refine .inl ⟨?_, ?_, ?_⟩
      · exact Prod.ext htype haddress.symm
      · apply timestampLt_sound heval hlength htimestampLt hcompared.timestamps
          (neighbour_mem hk) hequal hreal
        · intro q hq hqreal hqtime
          obtain ⟨j, hj, rfl⟩ := exists_index_of_neighbour hq
          have hindex := index_eq_of_timestamp hnodup _ hk hqreal hreal hqtime
          have hjk : j = k := by
            by_cases hlast : j + 1 < t.memory.length
            · rw [Nat.mod_eq_of_lt hlast] at hindex
              omega
            · rw [show j + 1 = t.memory.length by omega, Nat.mod_self] at hindex
              omega
          subst hjk
          simp [Nat.mod_eq_of_lt hk]
        · intro h
          have := index_eq_of_timestamp hnodup (by omega) hk hrealk hreal h
          omega
      · funext i
        have := (hvalues i).2
        rw [hequal, one_mul, sub_eq_zero] at this
        exact this
    · refine .inr ⟨?_, hread_zero hequal⟩
      have := packedNat_lt (hbytes _ hmem) hlt
      simp only [cellKey, access, htype]
      exact Nat.add_lt_add_left this _
  · refine .inr ⟨?_, hread_zero hflag⟩
    have hflag0 : t.memory[k].isMemoryTypeEqual = 0 := by
      rcases assertBool_iff.mp (heval.memory.1 _ (List.getElem_mem _)).2 with h | h
      · exact h
      · rw [h, one_mul, sub_eq_zero] at htypes
        exact absurd htypes.symm hne
    obtain ⟨hzero, hnonzero⟩ := memoryType_eq_zero
      ((List.isChain_iff_getElem.mp heval.memory.2.2) k hk) hflag0 hne
    have := packedNat_lt_two_pow (hbytes _ hmem)
    simp only [cellKey, access, hzero, hnonzero, if_true, if_false]
    omega

include heval hlength hbytesLt hu32Lt htimestampLt hcompared hnodup hbytes in
/-- The operations in the memory table are consistent. -/
theorem memory_consistent :
    Consistent 0 (t.realRows.map fun c => access c.toMemoryTuple) := by
  have hfalling := falling_real heval.memory
  apply consistent_of_follows cellKey
  · intro x hx
    rw [List.head?_map, Option.mem_map] at hx
    obtain ⟨c, hc, rfl⟩ := hx
    funext i
    exact heval.memory.2.1 c (Prefix.head_of_filter hfalling hc) i
  · rw [List.isChain_map]
    apply Prefix.isChain_filter hfalling
    apply List.isChain_iff_getElem.mpr
    intro k hk hreal
    exact follows_of_real heval hlength hbytesLt hu32Lt htimestampLt hcompared hnodup hbytes hk
      (of_decide_eq_true hreal)

end Consistency

section Received

variable {F : Type*} [Field F] [DecidableEq F] {t : MemoryTables F}

theorem selected_memory_receive : selected .receive .memory t.lookups =
    t.realRows.map fun c => c.toMemoryTuple.toList := by
  have hpair : ∀ pair : MemoryColumns F × MemoryColumns F,
      selected .receive .memory (pair.1.lookups pair.2) =
        if pair.1.isPadding = 0 then [pair.1.toMemoryTuple.toList] else [] := by
    intro pair
    simp [MemoryColumns.lookups, sub_eq_self]
  have hmemory : selected .receive .memory (memoryLookups t.memory) =
      t.realRows.map fun c => c.toMemoryTuple.toList := by
    have hfst : (t.memory.zip (t.memory.rotate 1)).map Prod.fst = t.memory :=
      List.map_fst_zip (by simp)
    rw [memoryLookups, selected_flatMap, MemoryTables.realRows]
    simp only [hpair]
    conv_rhs => rw [← hfst]
    generalize t.memory.zip (t.memory.rotate 1) = pairs
    induction pairs with
    | nil => rfl
    | cons pair pairs ih =>
      rw [List.flatMap_cons, ih, List.map_cons]
      by_cases h : pair.1.isPadding = 0 <;> simp [h]
  rw [MemoryTables.selected_receive_memory, hmemory]

theorem selected_memory_send : selected .send .memory t.lookups = [] := by
  apply List.eq_nil_iff_forall_not_mem.mpr
  intro values h
  obtain ⟨x, hx, hbus, hdirection, -⟩ := mem_selected.mp h
  obtain ⟨pair, -, rfl⟩ := MemoryTables.memory_receive hx hbus
  cases hdirection

omit [DecidableEq F] in
theorem memory_boolean (heval : memoryEval t.memory) : ∀ x ∈ t.lookups, x.bus = .memory →
    x.multiplicity = 0 ∨ x.multiplicity = 1 := by
  intro x hx hbus
  obtain ⟨pair, hpair, rfl⟩ := MemoryTables.memory_receive hx hbus
  rcases assertBool_iff.mp (heval.1 pair.1 (List.of_mem_zip hpair).1).1 with h | h <;>
    simp [receive, h]

end Received

/-- One send for every operation. -/
def memorySends {F : Type*} [Field F] (ops : List (MemoryTuple F)) : List (Interaction F) :=
  ops.map fun op => send .memory op.toList 1

/-- The tables satisfy their constraints and balance against the operations sent. -/
structure MemoryTables.Accepts (t : MemoryTables Felt) (ops : List (MemoryTuple Felt)) : Prop where
  eval : t.Eval
  balanced : ∀ bus ∈ [BusName.memory, .timestampLt, .u32Lt, .bytesLt], ∀ values,
    net (memorySends ops ++ t.lookups) bus values = 0
  interactions : (memorySends ops ++ t.lookups).length < modulus

/-- Byte address limbs, and pairwise distinct timestamps below `2 ^ 24`. -/
structure WellTimed (ops : List (MemoryTuple Felt)) : Prop where
  bytes : ∀ op ∈ ops, ∀ i, (op.address i).val < 256
  distinct : (ops.map fun op => op.timestamp).Nodup
  bounded : ∀ op ∈ ops, op.timestamp.val < 2 ^ 24

theorem net_memorySends_of_ne {F : Type*} [Field F] [DecidableEq F] {bus : BusName}
    (h : bus ≠ .memory) (ops : List (MemoryTuple F)) (values : List F) :
    net (memorySends ops) bus values = 0 := by
  apply net_of_forall_bus_ne
  intro x hx
  obtain ⟨op, -, rfl⟩ := List.mem_map.mp hx
  exact h.symm

section Sends

variable {F : Type*} [Field F] [DecidableEq F]

theorem selected_memorySends_send (ops : List (MemoryTuple F)) :
    selected .send .memory (memorySends ops) = ops.map MemoryTuple.toList := by
  induction ops with
  | nil => rfl
  | cons op ops ih =>
    rw [memorySends, List.map_cons, selected_cons, ← memorySends, ih]
    simp

theorem selected_memorySends_receive (ops : List (MemoryTuple F)) :
    selected .receive .memory (memorySends ops) = [] := by
  induction ops with
  | nil => rfl
  | cons op ops ih =>
    rw [memorySends, List.map_cons, selected_cons, ← memorySends, ih]
    simp

end Sends

section Sound

variable {t : MemoryTables Felt} {ops : List (MemoryTuple Felt)}

/-- The memory table holds exactly the operations sent. -/
theorem ops_perm_realRows (h : t.Accepts ops) :
    ops.Perm (t.realRows.map fun c => c.toMemoryTuple) := by
  have hbool : ∀ x ∈ memorySends ops ++ t.lookups, x.bus = .memory →
      x.multiplicity = 0 ∨ x.multiplicity = 1 := by
    intro x hx hbus
    rcases List.mem_append.mp hx with hx | hx
    · obtain ⟨op, -, rfl⟩ := List.mem_map.mp hx
      exact .inr rfl
    · exact memory_boolean h.eval.memory x hx hbus
  have hperm := perm_of_balanced (p := modulus) hbool
    ((length_selected_le _).trans_lt h.interactions)
    ((length_selected_le _).trans_lt h.interactions) (h.balanced .memory (by decide))
  rw [selected_append, selected_append, selected_memorySends_send, selected_memorySends_receive,
    selected_memory_send, selected_memory_receive, List.append_nil, List.nil_append] at hperm
  apply (List.map_perm_map_iff MemoryTuple.toList_injective).mp
  rwa [List.map_map]

theorem net_lookups (h : t.Accepts ops) {bus : BusName}
    (hbus : bus ∈ [BusName.memory, .timestampLt, .u32Lt, .bytesLt]) (hne : bus ≠ .memory)
    (values : List Felt) : net t.lookups bus values = 0 := by
  have := h.balanced bus hbus values
  rwa [net_append, net_memorySends_of_ne hne, zero_add] at this

/-- The memory argument asks of the operations that their addresses are bytes and that no two
come at one time. -/
theorem consistent_of_accepts (haccepts : t.Accepts ops)
    (hbytes : ∀ op ∈ ops, ∀ i, (op.address i).val < 256)
    (hdistinct : (ops.map fun op => op.timestamp).Nodup) (hcompared : t.Compared) :
    Consistent 0 (ops.map access) := by
  have hperm := ops_perm_realRows haccepts
  have hlength : t.lookups.length < modulus := by
    have := haccepts.interactions
    rw [List.length_append] at this
    omega
  have hnodup : (t.realRows.map fun c => c.timestamp).Nodup := by
    have := (hperm.map fun op => op.timestamp).nodup_iff.mp hdistinct
    rwa [List.map_map] at this
  have hbytes : ∀ c ∈ t.realRows, ∀ i, (c.address i).val < 256 := by
    intro c hc
    exact hbytes _ (hperm.mem_iff.mpr (List.mem_map_of_mem hc))
  have hconsistent := memory_consistent haccepts.eval hlength
    (net_lookups haccepts (by decide) (by decide)) (net_lookups haccepts (by decide) (by decide))
    (net_lookups haccepts (by decide) (by decide)) hcompared hnodup hbytes
  have hrows := (hperm.map access).symm
  rw [List.map_map] at hrows
  exact (consistent_perm hrows).mp hconsistent

/-- When the comparisons order the table, every operation sent reads what the operation on the
same cell with the greatest smaller timestamp wrote, or 0 when there is none. -/
theorem memory_argument_sound (t : MemoryTables Felt) (ops : List (MemoryTuple Felt))
    (haccepts : t.Accepts ops) (hops : WellTimed ops) (hcompared : t.Compared) :
    Consistent 0 (ops.map access) :=
  consistent_of_accepts haccepts hops.bytes hops.distinct hcompared

end Sound

/-- Tables of four rows for two operations on one register, in the order given, with `compare`
as the comparison of their timestamps. -/
def twoRows (first second : MemoryTuple Felt) (compare : TimestampLessThanColumns Felt) :
    MemoryTables Felt where
  memory := [⟨first, 1, 0, 1, 0⟩, ⟨second, 1, 0, 0, 0⟩, ⟨⟨0, 0, 0, 0, 0⟩, 1, 0, 0, 1⟩,
    ⟨⟨0, 0, 0, 0, 0⟩, 0, 0, 0, 1⟩]
  u32Lt := ⟨first.address, second.address, 0, 1, 1, 0, 1⟩ ::
    List.replicate 3 ⟨0, 0, 0, 1, 1, 0, 0⟩
  timestampLt := compare :: List.replicate 3 ⟨0, 0, 0, 0, ![0, 0, 0, 0, 0, 0, 0, 0, 0, 0, 0, 0, 0,
    0, 0, 0, 0, 0, 0, 0, 0, 0, 0, 0, 1], 0, 1, 0⟩
  bytesLt := fun _ => 0

/-- For concrete tables balance is a matter of comparing lists. -/
theorem twoRows_accepts {first second : MemoryTuple Felt} {compare : TimestampLessThanColumns Felt}
    {ops : List (MemoryTuple Felt)}
    (hmemory : memoryEval (twoRows first second compare).memory)
    (hu32Lt : ∀ c ∈ (twoRows first second compare).u32Lt, c.eval) (hcompare : compare.eval)
    (hops : ops.length = 2)
    (hbalanced : ∀ bus ∈ [BusName.memory, .timestampLt, .u32Lt, .bytesLt],
      let l := memorySends ops ++ (memoryLookups (twoRows first second compare).memory ++
        (twoRows first second compare).u32Lt.flatMap U32LessThanColumns.lookups ++
        (twoRows first second compare).timestampLt.flatMap TimestampLessThanColumns.lookups)
      (∀ x ∈ l, x.bus = bus → x.multiplicity = 0 ∨ x.multiplicity = 1) ∧
        (selected .send bus l).Perm (selected .receive bus l)) :
    (twoRows first second compare).Accepts ops := by
  refine ⟨⟨hmemory, hu32Lt, ?_⟩, ?_, ?_⟩
  · intro c hc
    rcases List.mem_cons.mp hc with rfl | hc
    · exact hcompare
    · rw [List.eq_of_mem_replicate hc]
      decide
  · intro bus hbus values
    have hzero : net (lessThanAir.lookups (twoRows first second compare).bytesLt) bus values = 0 :=
      net_of_forall_multiplicity (Table.multiplicity_eq_zero lessThanAir)
    rw [MemoryTables.lookups, ← List.append_assoc, net_append, hzero, add_zero]
    exact net_eq_zero_of_perm (hbalanced bus hbus).1 (hbalanced bus hbus).2 values
  · have hrows : (memoryLookups (twoRows first second compare).memory).length = 12 := rfl
    have hwords : ((twoRows first second compare).u32Lt.flatMap
      U32LessThanColumns.lookups).length = 20 := rfl
    have htimes : ((twoRows first second compare).timestampLt.flatMap
      TimestampLessThanColumns.lookups).length = 4 := rfl
    rw [MemoryTables.lookups, List.length_append, List.length_append, List.length_append,
      List.length_append, memorySends, List.length_map, Table.length_lookups, lessThanAir_height,
      hops, hrows, hwords, htimes]
    norm_num

/-- The first write of register 1, at time 0. -/
def earlier : MemoryTuple Felt := ⟨0, 0, registerAddress 1, 0, bitLimbs 7⟩

theorem memory_argument_sound_twoRows :
    Consistent 0 ([earlier, ⟨1, 0, registerAddress 1, bitLimbs 7, bitLimbs 5⟩].map access) := by
  apply memory_argument_sound
    (twoRows earlier ⟨1, 0, registerAddress 1, bitLimbs 7, bitLimbs 5⟩ compareZeroOne)
  · apply twoRows_accepts
    · decide
    · decide
    · decide
    · rfl
    · decide
  · exact ⟨by decide, by decide, by decide⟩
  · exact ⟨by decide, by decide⟩

/-- The operation at time 1 may be listed before the one at time 0, which then reads a value
written later, while the later one reads 0 instead of what was written before it. -/
theorem memory_argument_unsound : ∃ (t : MemoryTables Felt) (ops : List (MemoryTuple Felt)),
    t.Accepts ops ∧ WellTimed ops ∧ ¬ Consistent 0 (ops.map access) := by
  refine ⟨twoRows ⟨1, 0, registerAddress 1, 0, bitLimbs 5⟩
    ⟨0, 0, registerAddress 1, bitLimbs 5, bitLimbs 7⟩ compareOneZero,
    [⟨0, 0, registerAddress 1, bitLimbs 5, bitLimbs 7⟩, ⟨1, 0, registerAddress 1, 0, bitLimbs 5⟩],
    ?_, ?_, ?_⟩
  · apply twoRows_accepts
    · decide
    · decide
    · decide
    · rfl
    · decide
  · exact ⟨by decide, by decide, by decide⟩
  · decide

end Loquela.Soundness
