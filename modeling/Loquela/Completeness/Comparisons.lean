import Loquela.Completeness.Multiplicities
import Loquela.Library.Prefix
import Loquela.Soundness.Comparison
import Loquela.Soundness.Words

/-! # The multiplicities of the comparison tables

The memory table compares every adjacent pair of its sorted operations, and the comparison tables
are built from the same pairs. They receive what the memory table sends, and the table of byte
pairs receives what the address comparisons send.
-/

namespace Loquela.Completeness
open Air Library Library.Bus Soundness Trace
open Library.Prefix (flatMap_zip_tail_append rel_of_mem_zip_tail)
open Vm (MemoryOperation U32)

section Flags

variable {F : Type*} [Field F]

/-- A row with the flags that compare it to the next one. -/
def flagged [DecidableEq F] (row next : MemoryTuple F × F) : MemoryColumns F :=
  ⟨row.1, fromBool (row.1.memoryType = next.1.memoryType),
    fromBool (row.1.timestamp = next.1.timestamp), fromBool (row.1.address = next.1.address), row.2⟩

theorem fromBool_boolean (b : Bool) : (fromBool b : F) = 0 ∨ (fromBool b : F) = 1 := by
  cases b
  · exact .inl rfl
  · exact .inr rfl

@[simp] theorem fromBool_eq_one (b : Bool) : (fromBool b : F) = 1 ↔ b := by
  cases b <;> simp [fromBool]

theorem lookups_congr (c next next' : MemoryColumns F)
    (htuple : next.toMemoryTuple = next'.toMemoryTuple) (hpadding : next.isPadding = next'.isPadding) :
    c.lookups next = c.lookups next' := by
  rw [MemoryColumns.lookups, htuple, hpadding]
  rfl

variable [DecidableEq F] {bus : BusName}

/-- What a row sends when it is compared to the next one. -/
def comparison (bus : BusName) (row next : MemoryTuple F × F) : List (List F) :=
  selected .send bus ((flagged row next).lookups (flagged next next))

/-- The last row has no flags and sends nothing. -/
theorem selected_unflagged (row : MemoryTuple F) (isPadding : F)
    (next : MemoryColumns F) :
    selected .send bus (MemoryColumns.lookups ⟨row, 0, 0, 0, isPadding⟩ next) = [] := by
  simp [MemoryColumns.lookups]

theorem fillFlags_cons (row : MemoryTuple F × F) (base : List (MemoryTuple F × F)) :
    ∃ head rest, fillFlags (row :: base) = head :: rest ∧
      head.toMemoryTuple = row.1 ∧ head.isPadding = row.2 := by
  cases base <;> exact ⟨_, _, rfl, rfl, rfl⟩

theorem selected_fillFlags (base : List (MemoryTuple F × F))
    (last : MemoryColumns F) :
    ((fillFlags base).zip ((fillFlags base).tail ++ [last])).flatMap
        (fun pair => selected .send bus (pair.1.lookups pair.2)) =
      (base.zip base.tail).flatMap fun pair => comparison bus pair.1 pair.2 := by
  induction base with
  | nil => rfl
  | cons row base ih =>
    cases base with
    | nil =>
      show selected .send bus (MemoryColumns.lookups ⟨row.1, 0, 0, 0, row.2⟩ last) ++ [] = []
      rw [selected_unflagged, List.append_nil]
    | cons next base =>
      obtain ⟨head, rest, hrows, htuple, hpadding⟩ := fillFlags_cons next base
      rw [hrows] at ih
      show (((flagged row next :: fillFlags (next :: base)).zip
        (fillFlags (next :: base) ++ [last])).flatMap _) = _
      rw [hrows, List.cons_append, List.zip_cons_cons, List.flatMap_cons]
      apply congrArg₂ (· ++ ·)
      · rw [lookups_congr (flagged row next) head (flagged next next) htuple hpadding]
        rfl
      · exact ih

/-- The memory table sends one comparison for every pair of adjacent rows. -/
theorem selected_memoryLookups (base : List (MemoryTuple F × F)) :
    selected .send bus (memoryLookups (fillFlags base)) =
      (base.zip base.tail).flatMap fun pair => comparison bus pair.1 pair.2 := by
  rw [memoryLookups, selected_flatMap]
  cases hrows : fillFlags base with
  | nil =>
    cases base with
    | nil => rfl
    | cons row base => cases base <;> cases hrows
  | cons first rows =>
    rw [List.rotate_cons_succ, List.rotate_zero, ← selected_fillFlags base first, hrows]
    rfl

end Flags

section Memory

theorem u32ToLimbs_inj {x y : U32} : (u32ToLimbs x : Limbs Felt) = u32ToLimbs y ↔ x = y := by
  constructor
  · intro h
    rw [← word_u32ToLimbs x, h, word_u32ToLimbs]
  · rintro rfl
    rfl

theorem memoryTypeCode_inj {a b : MemoryOp} :
    ((memoryTypeCode a.memoryType : ℕ) : Felt) = (memoryTypeCode b.memoryType : ℕ) ↔
      a.memoryType = b.memoryType := by
  cases a.memoryType <;> cases b.memoryType <;> simp [memoryTypeCode]

/-- A comparison of addresses, as both sides of the bus spell it. -/
def addressTuple (x y : U32) : List Felt :=
  List.ofFn (u32ToLimbs x) ++ List.ofFn (u32ToLimbs y) ++ [fromBool (x = y)]

/-- A comparison of timestamps. -/
def timestampTuple (x y : ℕ) : List Felt := [(x : Felt), (y : Felt), fromBool (x = y)]

theorem comparison_u32Lt (a b : MemoryOp) :
    comparison .u32Lt (a.tuple, 0) (b.tuple, 0) =
      if a.memoryType = b.memoryType then [addressTuple a.address b.address] else [] := by
  simp [comparison, flagged, MemoryColumns.lookups, MemoryOp.tuple, memoryTypeCode_inj,
    u32ToLimbs_inj, addressTuple]

theorem comparison_timestampLt {a b : MemoryOp} (ha : a.timestamp < modulus)
    (hb : b.timestamp < modulus) :
    comparison .timestampLt (a.tuple, 0) (b.tuple, 0) =
      if a.address = b.address then [timestampTuple a.timestamp b.timestamp] else [] := by
  have htime : (a.timestamp : Felt) = b.timestamp ↔ a.timestamp = b.timestamp :=
    ⟨natCast_inj_of_lt ha hb, congrArg _⟩
  simp [comparison, flagged, MemoryColumns.lookups, MemoryOp.tuple, u32ToLimbs_inj, htime,
    timestampTuple]

/-- Nothing is compared to a padding row. -/
theorem comparison_padding (bus : BusName) (row : MemoryTuple Felt × Felt)
    {next : MemoryTuple Felt × Felt} (h : next.2 = 1) : comparison bus row next = [] := by
  simp [comparison, flagged, MemoryColumns.lookups, h]

variable (ops : List MemoryOperation)

theorem selected_memoryRows (bus : BusName) :
    selected .send bus (memoryLookups (fillFlags (memoryRows (F := Felt) ops))) =
      ((sortOps ops).zip (sortOps ops).tail).flatMap fun pair =>
        comparison bus (pair.1.tuple, 0) (pair.2.tuple, 0) := by
  rw [selected_memoryLookups, memoryRows, flatMap_zip_tail_append]
  · rw [← List.map_tail, List.zip_map, List.flatMap_map]
    rfl
  · intro row next hnext
    rw [List.eq_of_mem_replicate hnext]
    exact comparison_padding bus row rfl

theorem flatMap_ite_singleton {A B : Type*} (p : A → Bool) (f : A → B) (l : List A) :
    (l.flatMap fun a => if p a then [f a] else []) = (l.filter p).map f := by
  induction l with
  | nil => rfl
  | cons a l ih => by_cases ha : p a <;> simp [ha, ih]

theorem sends_u32Lt : selected .send .u32Lt (memoryLookups (fillFlags (memoryRows ops))) =
    (u32LtEntries ops).map fun entry => addressTuple entry.1 entry.2 := by
  rw [selected_memoryRows, u32LtEntries, neighbours, List.map_map, Function.comp_def,
    ← flatMap_ite_singleton]
  simp only [comparison_u32Lt, decide_eq_true_eq]

variable {ops}

theorem mem_sortOps {op : MemoryOp} : op ∈ sortOps ops ↔ ∃ o ∈ ops, MemoryOp.ofOperation o = op := by
  rw [sortOps, List.mem_mergeSort, List.mem_map]

/-- The timestamps are compared wherever the addresses agree. -/
theorem sends_timestamps (hops : ∀ op ∈ sortOps ops, op.timestamp < modulus) :
    selected .send .timestampLt (memoryLookups (fillFlags (memoryRows ops))) =
      (((sortOps ops).zip (sortOps ops).tail).filter fun pair =>
        pair.1.address = pair.2.address).map fun pair =>
          timestampTuple pair.1.timestamp pair.2.timestamp := by
  rw [selected_memoryRows, ← flatMap_ite_singleton]
  apply List.flatMap_congr
  intro pair hpair
  obtain ⟨h₁, h₂⟩ := List.of_mem_zip hpair
  rw [comparison_timestampLt (hops _ h₁) (hops _ (List.mem_of_mem_tail h₂))]
  simp only [decide_eq_true_eq]

/-- They are counted only where the types agree as well. -/
theorem timestampLtEntries_eq (htype : ∀ pair ∈ (sortOps ops).zip (sortOps ops).tail,
    pair.1.address = pair.2.address → pair.1.memoryType = pair.2.memoryType) :
    timestampLtEntries ops = (((sortOps ops).zip (sortOps ops).tail).filter fun pair =>
      pair.1.address = pair.2.address).map fun pair => (pair.1.timestamp, pair.2.timestamp) := by
  rw [timestampLtEntries, neighbours, List.filter_filter]
  congr 1
  apply List.filter_congr
  intro pair hpair
  by_cases h : pair.1.address = pair.2.address
  · simp [h, htype pair hpair h]
  · simp [h]

/-- All operations of the interpreter are on registers. -/
theorem sends_timestampLt
    (hops : ∀ op ∈ sortOps ops, op.memoryType = .register ∧ op.timestamp < modulus) :
    selected .send .timestampLt (memoryLookups (fillFlags (memoryRows ops))) =
      (timestampLtEntries ops).map fun entry => timestampTuple entry.1 entry.2 := by
  rw [sends_timestamps fun op hop => (hops op hop).2, timestampLtEntries_eq, List.map_map]
  · rfl
  · intro pair hpair _
    obtain ⟨h₁, h₂⟩ := List.of_mem_zip hpair
    exact (hops _ h₁).1.trans (hops _ (List.mem_of_mem_tail h₂)).1.symm

theorem sortOps_sorted : (sortOps ops).Pairwise fun a b => a.key ≤ b.key := by
  apply List.Pairwise.imp of_decide_eq_true
  apply List.pairwise_mergeSort
  · intro a b c hab hbc
    exact decide_eq_true ((of_decide_eq_true hab).trans (of_decide_eq_true hbc))
  · intro a b
    simpa using le_total a.key b.key

/-- The addresses of one type are in order. -/
theorem neighbours_le : ∀ pair ∈ neighbours ops, pair.1.address.toNat ≤ pair.2.address.toNat := by
  intro pair hpair
  obtain ⟨hmem, htype⟩ := List.mem_filter.mp hpair
  have hkey := rel_of_mem_zip_tail sortOps_sorted pair hmem
  rw [MemoryOp.key, MemoryOp.key, of_decide_eq_true htype, Prod.Lex.toLex_le_toLex,
    Prod.Lex.toLex_le_toLex] at hkey
  omega

end Memory

section Receives

/-- The tuples that a comparison of addresses sends to the table of byte pairs. -/
def bytesTuples (x y : U32) : List (List Felt) :=
  (highestDifference x y).toList.map fun i => [(leBytes x i : Felt), (leBytes y i : Felt)]

theorem highestDifference_none {x y : U32} : highestDifference x y = none ↔ x = y := by
  constructor
  · intro h
    have hsame : leBytes x = leBytes y := by
      funext i
      have := List.find?_eq_none.mp h i (by fin_cases i <;> decide)
      simpa using this
    apply BitVec.eq_of_toNat_eq
    rw [toNat_eq_leBytes x, toNat_eq_leBytes y, hsame]
  · rintro rfl
    simp [highestDifference]

/-- Above the highest difference the bytes agree. -/
theorem highestDifference_some {x y : U32} {i : Fin 4} (h : highestDifference x y = some i) :
    leBytes x i ≠ leBytes y i ∧ ∀ j, i < j → leBytes x j = leBytes y j := by
  refine ⟨by simpa using List.find?_some h, ?_⟩
  obtain ⟨-, above, below, hlist, habove⟩ := List.find?_eq_some_iff_append.mp h
  have hsorted : ([3, 2, 1, 0] : List (Fin 4)).Pairwise (· > ·) := by decide
  rw [hlist, List.pairwise_append] at hsorted
  intro j hj
  have hmem : j ∈ above ++ i :: below := hlist ▸ (by fin_cases j <;> decide)
  rcases List.mem_append.mp hmem with hmem | hmem
  · simpa using habove j hmem
  · rcases List.mem_cons.mp hmem with rfl | hmem
    · exact absurd hj (lt_irrefl _)
    · exact absurd hj ((List.pairwise_cons.mp hsorted.2.1).1 j hmem).asymm

theorem highestDifference_lt {x y : U32} {i : Fin 4} (hle : x.toNat ≤ y.toNat)
    (h : highestDifference x y = some i) : leBytes x i < leBytes y i := by
  obtain ⟨hdiffer, habove⟩ := highestDifference_some h
  rw [toNat_eq_leBytes x, toNat_eq_leBytes y] at hle
  have hx := leBytes_lt x
  have hy := leBytes_lt y
  simp only [Fin.forall_fin_succ, Fin.succ_zero_eq_one, Fin.succ_one_eq_two, Fin.isValue,
    Fin.reduceSucc, IsEmpty.forall_iff, and_true] at hx hy
  fin_cases i
  · have h1 := habove 1 (by decide)
    have h2 := habove 2 (by decide)
    have h3 := habove 3 (by decide)
    simp only [Fin.zero_eta, Fin.isValue] at hdiffer ⊢
    omega
  · have h2 := habove 2 (by decide)
    have h3 := habove 3 (by decide)
    simp only [Fin.mk_one, Fin.isValue] at hdiffer ⊢
    omega
  · have h3 := habove 3 (by decide)
    simp only [Fin.reduceFinMk, Fin.isValue] at hdiffer ⊢
    omega
  · simp only [Fin.reduceFinMk, Fin.isValue] at hdiffer ⊢
    omega

theorem lessThanAir_getElem? {x y : ℕ} (hxy : x < y) (hy : y < 256) :
    lessThanAir.rows[bytesLtRow x y]? = some [x, y] := by
  have hpair := lessThanPairs_getElem? hxy hy
  rw [bytesLtRow, max_eq_right hxy.le, min_eq_left hxy.le, lessThanAir,
    List.getElem?_append_left (lt_of_getElem? hpair), hpair]

theorem u32LessThanRow_receives (x y : U32) :
    selected .receive .u32Lt (u32LessThanRow x y (1 : Felt)).lookups = [addressTuple x y] := by
  simp [U32LessThanColumns.lookups, u32LessThanRow, addressTuple, List.ofFn_succ]

theorem u32LessThanRow_sends (x y : U32) :
    selected .send .bytesLt (u32LessThanRow x y (1 : Felt)).lookups = bytesTuples x y := by
  rw [bytesTuples]
  cases h : highestDifference x y with
  | none => simp [U32LessThanColumns.lookups, u32LessThanRow, h, List.ofFn_succ]
  | some i =>
    fin_cases i <;> simp [U32LessThanColumns.lookups, u32LessThanRow, h, List.ofFn_succ]

theorem timestampLessThanRow_receives (x y : ℕ) :
    selected .receive .timestampLt (timestampLessThanRow x y (1 : Felt)).lookups =
      [timestampTuple x y] := by
  simp [TimestampLessThanColumns.lookups, timestampLessThanRow, timestampTuple]

theorem receives_u32Lt (entries : List (U32 × U32)) :
    selected .receive .u32Lt ((buildU32Lt (F := Felt) entries).flatMap U32LessThanColumns.lookups) =
      entries.map fun entry => addressTuple entry.1 entry.2 := by
  rw [buildU32Lt, selected_padded]
  · simp only [u32LessThanRow_receives]
    exact List.flatMap_pure_eq_map _ _
  · simp [U32LessThanColumns.lookups, u32LessThanPadding, List.ofFn_succ]

theorem sends_bytesLt (entries : List (U32 × U32)) :
    selected .send .bytesLt ((buildU32Lt (F := Felt) entries).flatMap U32LessThanColumns.lookups) =
      entries.flatMap fun entry => bytesTuples entry.1 entry.2 := by
  rw [buildU32Lt, selected_padded]
  · simp only [u32LessThanRow_sends]
  · simp [U32LessThanColumns.lookups, u32LessThanPadding, List.ofFn_succ]

theorem receives_timestampLt (entries : List (ℕ × ℕ)) :
    selected .receive .timestampLt
        ((buildTimestampLt (F := Felt) entries).flatMap TimestampLessThanColumns.lookups) =
      entries.map fun entry => timestampTuple entry.1 entry.2 := by
  rw [buildTimestampLt, selected_padded]
  · simp only [timestampLessThanRow_receives]
    exact List.flatMap_pure_eq_map _ _
  · simp [TimestampLessThanColumns.lookups, timestampLessThanPadding]

end Receives

section Balance

variable (ops : List MemoryOperation)

/-- The tables of the memory argument that are built for a log. -/
def builtTables : MemoryTables Felt where
  memory := fillFlags (memoryRows ops)
  u32Lt := buildU32Lt (u32LtEntries ops)
  timestampLt := buildTimestampLt (timestampLtEntries ops)
  bytesLt := tableMults (bytesLtEntries ops)

variable {ops}

theorem fillFlags_boolean {base : List (MemoryTuple Felt × Felt)}
    (h : ∀ row ∈ base, row.2 = 0 ∨ row.2 = 1) : ∀ c ∈ fillFlags base,
      (c.isMemoryTypeEqual = 0 ∨ c.isMemoryTypeEqual = 1) ∧
        (c.isAddressEqual = 0 ∨ c.isAddressEqual = 1) ∧ (c.isPadding = 0 ∨ c.isPadding = 1) := by
  induction base with
  | nil => nofun
  | cons row base ih =>
    have hrow := h row List.mem_cons_self
    cases base with
    | nil =>
      intro c hc
      rw [List.mem_singleton.mp hc]
      exact ⟨.inl rfl, .inl rfl, hrow⟩
    | cons next base =>
      intro c hc
      rcases List.mem_cons.mp hc with rfl | hc
      · exact ⟨fromBool_boolean _, fromBool_boolean _, hrow⟩
      · exact ih (fun row hrow => h row (List.mem_cons_of_mem _ hrow)) c hc

theorem memoryRows_boolean : ∀ row ∈ memoryRows (F := Felt) ops, row.2 = 0 ∨ row.2 = 1 := by
  intro row hrow
  rcases List.mem_append.mp hrow with hrow | hrow
  · obtain ⟨op, -, rfl⟩ := List.mem_map.mp hrow
    exact .inl rfl
  · rw [List.eq_of_mem_replicate hrow]
    exact .inr rfl

theorem buildU32Lt_boolean {entries : List (U32 × U32)} : ∀ c ∈ buildU32Lt (F := Felt) entries,
    (∀ i, c.multLts i = 0 ∨ c.multLts i = 1) ∧ (c.mult = 0 ∨ c.mult = 1) := by
  intro c hc
  rcases List.mem_append.mp hc with hc | hc
  · obtain ⟨entry, -, rfl⟩ := List.mem_map.mp hc
    exact ⟨fun i => fromBool_boolean _, .inr rfl⟩
  · rw [List.eq_of_mem_replicate hc]
    exact ⟨fun i => .inl rfl, .inl rfl⟩

theorem buildTimestampLt_boolean {entries : List (ℕ × ℕ)} :
    ∀ c ∈ buildTimestampLt (F := Felt) entries, c.mult = 0 ∨ c.mult = 1 := by
  intro c hc
  rcases List.mem_append.mp hc with hc | hc
  · obtain ⟨entry, -, rfl⟩ := List.mem_map.mp hc
    exact .inr rfl
  · rw [List.eq_of_mem_replicate hc]
    exact .inl rfl

/-- Only the table of byte pairs is received with other multiplicities. -/
theorem builtTables_boolean {x : Air.Interaction Felt} (hx : x ∈ (builtTables ops).lookups)
    (hbus : x.bus ≠ .memory) (htable : x.bus = .bytesLt → x.direction = .send) :
    x.multiplicity = 0 ∨ x.multiplicity = 1 := by
  rcases MemoryTables.interaction_cases hx with ⟨pair, hpair, rfl | rfl | rfl⟩ | ⟨c, hc, i, rfl⟩ |
    ⟨c, hc, rfl⟩ | ⟨c, hc, rfl⟩ | ⟨a, b, -, m, rfl⟩
  · have hrow := fillFlags_boolean memoryRows_boolean _ (List.of_mem_zip hpair).1
    have hnext := fillFlags_boolean memoryRows_boolean _
      (List.mem_rotate.mp (List.of_mem_zip hpair).2)
    rcases hrow.1 with h | h <;> rcases hnext.2.2 with h' | h' <;> simp [send, h, h']
  · have hrow := fillFlags_boolean memoryRows_boolean _ (List.of_mem_zip hpair).1
    have hnext := fillFlags_boolean memoryRows_boolean _
      (List.mem_rotate.mp (List.of_mem_zip hpair).2)
    rcases hrow.2.1 with h | h <;> rcases hnext.2.2 with h' | h' <;> simp [send, h, h']
  · exact absurd rfl hbus
  · exact (buildU32Lt_boolean c hc).1 i
  · exact (buildU32Lt_boolean c hc).2
  · exact buildTimestampLt_boolean c hc
  · cases htable rfl

theorem net_u32Lt (values : List Felt) : net (builtTables ops).lookups .u32Lt values = 0 := by
  apply net_eq_zero_of_perm
  · intro x hx hbus
    apply builtTables_boolean hx <;> rw [hbus] <;> nofun
  · rw [MemoryTables.selected_send _ (by decide), MemoryTables.selected_receive_u32Lt]
    exact List.Perm.of_eq ((sends_u32Lt ops).trans (receives_u32Lt _).symm)

theorem net_timestampLt
    (hops : ∀ op ∈ sortOps ops, op.memoryType = .register ∧ op.timestamp < modulus)
    (values : List Felt) : net (builtTables ops).lookups .timestampLt values = 0 := by
  apply net_eq_zero_of_perm
  · intro x hx hbus
    apply builtTables_boolean hx <;> rw [hbus] <;> nofun
  · rw [MemoryTables.selected_send _ (by decide), MemoryTables.selected_receive_timestampLt]
    exact List.Perm.of_eq ((sends_timestampLt hops).trans (receives_timestampLt _).symm)

end Balance

/-- The interactions of the address comparisons and of their byte table. -/
def comparisonLookups (rows : List (U32LessThanColumns Felt)) (mult : ℕ → Felt) :
    List (Air.Interaction Felt) :=
  rows.flatMap U32LessThanColumns.lookups ++ lessThanAir.lookups mult

/-- The rows of the byte table that comparisons of words ask for. -/
def bytesLtRows (entries : List (U32 × U32)) : List ℕ :=
  entries.filterMap fun entry => (highestDifference entry.1 entry.2).map fun i =>
    bytesLtRow (leBytes entry.1 i) (leBytes entry.2 i)

theorem bytesLtEntries_eq (ops : List MemoryOperation) :
    bytesLtEntries ops = bytesLtRows (u32LtEntries ops) := by
  rw [bytesLtEntries, bytesLtRows, u32LtEntries, List.filterMap_map]
  rfl

theorem u32LtEntries_le (ops : List MemoryOperation) :
    ∀ entry ∈ u32LtEntries ops, entry.1.toNat ≤ entry.2.toNat := by
  intro entry hentry
  rcases List.mem_map.mp hentry with ⟨pair, hpair, rfl⟩
  exact neighbours_le pair hpair

section Pairs

variable {entries : List (U32 × U32)} (hle : ∀ entry ∈ entries, entry.1.toNat ≤ entry.2.toNat)
include hle

/-- The rows of ordered words are those of the pairs the comparisons send. -/
theorem map_bytesLtRows : (bytesLtRows entries).map lessThanAir.rowAt =
    entries.flatMap fun entry => bytesTuples entry.1 entry.2 := by
  rw [bytesLtRows, List.filterMap_eq_flatMap_toList, List.map_flatMap]
  apply List.flatMap_congr
  intro entry hentry
  rw [bytesTuples]
  cases h : highestDifference entry.1 entry.2 with
  | none => rfl
  | some i =>
    have hlt := highestDifference_lt (hle entry hentry) h
    exact congrArg (fun tuple => [tuple])
      (Table.rowAt_eq (lessThanAir_getElem? hlt (leBytes_lt _ i)))

theorem bytesLtRows_lt : ∀ i ∈ bytesLtRows entries, i < lessThanAir.rows.length := by
  intro i hi
  obtain ⟨entry, hentry, hi⟩ := List.mem_filterMap.mp hi
  obtain ⟨k, hk, rfl⟩ := Option.map_eq_some_iff.mp hi
  have hlt := highestDifference_lt (hle entry hentry) hk
  exact lt_of_getElem? (lessThanAir_getElem? hlt (leBytes_lt _ k))

/-- The byte table receives what the comparisons of ordered words send. -/
theorem net_comparisonLookups (values : List Felt) :
    net (comparisonLookups (buildU32Lt entries) (tableMults (bytesLtRows entries))) .bytesLt values =
      0 := by
  have htable := net_table (bytesLtRows_lt hle) values
  rw [map_bytesLtRows hle] at htable
  rw [comparisonLookups, net_append, net_eq_sent]
  · rw [sends_bytesLt]
    exact (congrArg _ htable).trans (add_neg_cancel _)
  · intro x hx hbus _ _
    obtain ⟨c, hc, hx⟩ := List.mem_flatMap.mp hx
    rcases List.mem_append.mp hx with hx | hx
    · obtain ⟨i, rfl⟩ := List.mem_ofFn.mp hx
      exact (buildU32Lt_boolean c hc).1 i
    · rw [List.mem_singleton.mp hx] at hbus
      cases hbus
  · intro x hx hbus hreceive _
    -- On this bus the comparisons only send.
    rcases mem_u32LtLookups hx with ⟨h, -⟩ | ⟨-, h⟩
    · cases hreceive.symm.trans h
    · cases hbus.symm.trans h

end Pairs

theorem net_bytesLt (ops : List MemoryOperation) (values : List Felt) :
    net (builtTables ops).lookups .bytesLt values = 0 := by
  have hpairs := net_comparisonLookups (u32LtEntries_le ops) values
  rw [← bytesLtEntries_eq, comparisonLookups, net_append] at hpairs
  have hmemory : net (memoryLookups (builtTables ops).memory) .bytesLt values = 0 := by
    apply net_of_forall_bus_ne
    intro x hx hbus
    rcases mem_memoryLookups hx with ⟨-, h | h⟩ | ⟨-, h⟩ <;> cases hbus.symm.trans h
  have htimestamps : net ((builtTables ops).timestampLt.flatMap TimestampLessThanColumns.lookups)
      .bytesLt values = 0 := by
    apply net_of_forall_bus_ne
    intro x hx hbus
    cases hbus.symm.trans (mem_timestampLtLookups hx).2
  rw [MemoryTables.lookups, net_append, net_append, net_append, hmemory, htimestamps, zero_add,
    add_zero]
  exact hpairs

end Loquela.Completeness
