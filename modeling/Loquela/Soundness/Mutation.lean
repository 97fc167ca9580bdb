import Loquela.Soundness.Collision

/-! # Mutated rows

What becomes of an accepted trace set when an instruction row is changed and the rest is kept. The
buses pin down everything that a row shows to the other tables; inside a row, its constraints
decide.
-/

namespace Loquela.Soundness
open Air Completeness Library Library.Bus Trace
open Vm (Byte U32)

section Replaced

variable {P : Poseidon2 Felt} {T T' : TraceSet Felt} {old new : List (Interaction Felt)}
  (h : T.Accepted P) (hnet : ∀ bus values, net T'.lookups bus values + net old bus values =
    net T.lookups bus values + net new bus values)

include h hnet

/-- What replaces interactions of an accepted trace set weighs the same on every bus. -/
theorem net_eq_of_accepted (h' : T'.Accepted P) (bus : BusName) (values : List Felt) :
    net new bus values = net old bus values := by
  have hsum := hnet bus values
  rw [h.balanced, h'.balanced, zero_add, zero_add] at hsum
  exact hsum.symm

theorem accepted_of_net_eq (heval : T'.Eval P) (hlength : T'.lookups.length = T.lookups.length)
    (hsame : ∀ bus values, net new bus values = net old bus values) : T'.Accepted P := by
  refine ⟨heval, fun bus values => ?_, hlength ▸ h.interactions⟩
  have hsum := hnet bus values
  rw [hsame, h.balanced] at hsum
  linear_combination hsum

/-- Replacing interactions, as many as before, keeps the trace set accepted exactly if the
constraints still hold and nothing changes on any bus. -/
theorem accepted_iff_net_eq (hlength : T'.lookups.length = T.lookups.length) :
    T'.Accepted P ↔ T'.Eval P ∧ ∀ bus values, net new bus values = net old bus values :=
  ⟨fun h' => ⟨h'.eval, net_eq_of_accepted h hnet h'⟩,
    fun h' => accepted_of_net_eq h hnet h'.1 hlength h'.2⟩

end Replaced

theorem forall_mem_set {A : Type*} {p : A → Prop} {l : List A} {k : ℕ} {a b : A}
    (h : ∀ x ∈ l, p x) (ha : l[k]? = some a) : (∀ x ∈ l.set k b, p x) ↔ p b := by
  constructor
  · intro h'
    exact h' b (List.mem_set (List.getElem?_eq_some_iff.mp ha).1 b)
  · intro hb x hx
    rcases List.mem_or_eq_of_mem_set hx with hx | rfl
    · exact h x hx
    · exact hb

section Rows

/-- Two rows of one AIR that look the same to all other tables. -/
structure SamePorts (r r' : InstrRow Felt) : Prop where
  isDummy : r'.isDummy = r.isDummy
  id : r'.id = r.id
  pc : r'.ports.pc = r.ports.pc
  timestamp : r'.ports.timestamp = r.ports.timestamp
  nextPc : r'.ports.nextPc = r.ports.nextPc
  operands : r'.ports.operands = r.ports.operands
  ops : rowOps r' = rowOps r
  checks : r'.ports.checks.Perm r.ports.checks

variable {r r' : InstrRow Felt}

theorem decodeBus_eq (r : InstrRow Felt) : r.ports.decodeBus = r.id.decodeBus := by
  cases r <;> rfl

theorem ticks_of_id (h : r'.id = r.id) : r'.ports.ticks = r.ports.ticks := by
  rw [ticks_eq r' 0, ticks_eq r 0]
  exact congrArg (fun id => (instrOf 0 id).sources.length + 1) h

/-- What a row checks on the buses of the tables. -/
theorem net_ports_checks {io : RowPorts Felt} (h : Regular io) {bus : BusName}
    (hbus : bus ∈ tableBuses) (values : List Felt) :
    net io.lookups bus values = (io.checks.count (bus, values) : Felt) * io.isDummy := by
  have hmemory := net_memory_of_ne values io (ne_of_mem_of_not_mem hbus (by decide))
  have htrace : BusName.trace ≠ bus := (ne_of_mem_of_not_mem hbus (by decide)).symm
  have hdisjoint : ∀ bus ∈ tableBuses, bus ∉ decodeBuses := by decide
  have hdecode := decodeBus_ne h bus (hdisjoint bus hbus)
  have hchecks : net (io.checks.map fun c => send c.1 c.2 io.isDummy) bus values =
      (io.checks.count (bus, values) : Felt) * io.isDummy := by
    induction io.checks with
    | nil => simp
    | cons c l ih =>
      rw [List.map_cons, net_cons, ih, send_weight, List.count_cons, Nat.cast_add, add_mul, add_comm]
      congr 1
      by_cases hc : c = (bus, values)
      · subst hc
        simp
      · have hne : ¬ (c.1 = bus ∧ c.2 = values) := fun hand => hc (Prod.ext hand.1 hand.2)
        simp [hc, hne]
  simp only [RowPorts.lookups, net_append, net_cons, net_nil, hmemory, hchecks, send_weight,
    receive_weight, hdecode, htrace, false_and, if_false, add_zero, zero_add]

theorem net_memorySends (ops : List (MemoryTuple Felt)) (values : List Felt) :
    net (memorySends ops) .memory values = ((ops.map MemoryTuple.toList).count values : Felt) := by
  rw [memorySends, net, List.map_map, ← mul_one ((List.count values _ : ℕ) : Felt),
    ← sum_ite_eq_count]
  simp only [Function.comp_def, send_weight, true_and]

theorem net_ports_of_notMem {io : RowPorts Felt} (h : Regular io) {bus : BusName}
    (hbus : bus ∉ .trace :: .memory :: (decodeBuses ++ tableBuses)) (values : List Felt) :
    net io.lookups bus values = 0 :=
  net_of_notMem (fun _ hx => bus_mem h hx) hbus values

theorem memory_ne_nil (r : InstrRow Felt) : r.ports.memory ≠ [] := by
  intro hnil
  have htimes := congrArg List.length (memory_timestamps r)
  rw [hnil, List.map_nil, List.length_nil, List.length_map, List.length_range] at htimes
  exact (regular r).ticks_pos.ne htimes

theorem memory_timestamps_nodup (r : InstrRow Felt) :
    (r.ports.memory.map MemoryTuple.timestamp).Nodup := by
  rw [memory_timestamps]
  apply List.nodup_range.map_on
  intro j hj k hk heq
  have hticks := (regular r).ticks_le.trans_lt (by norm_num : 3 < modulus)
  rw [List.mem_range] at hj hk
  exact natCast_inj_of_lt (hj.trans hticks) (hk.trans hticks) (add_left_cancel heq)

/-- The operations of a row are told apart by their timestamps. -/
theorem ops_of_perm (hperm : (rowOps r').Perm (rowOps r)) (hid : r'.id = r.id)
    (htime : r'.ports.timestamp = r.ports.timestamp) : rowOps r' = rowOps r := by
  have htimes : r'.ports.memory.map MemoryTuple.timestamp =
      r.ports.memory.map MemoryTuple.timestamp := by
    rw [memory_timestamps, memory_timestamps, htime, ticks_of_id hid]
  rw [rowOps, rowOps] at hperm ⊢
  split_ifs at hperm ⊢
  · exact eq_of_perm_of_map_eq MemoryTuple.timestamp hperm htimes (memory_timestamps_nodup r')
  · exact absurd (List.perm_nil.mp hperm) (memory_ne_nil r')
  · exact absurd (List.nil_perm.mp hperm) (memory_ne_nil r)
  · rfl

section Determined

variable (hnet : ∀ bus values, net r'.lookups bus values = net r.lookups bus values)
  (hreal : r.ports.isDummy = 1)

include hnet hreal

/-- A real row is the only one of its states: what it takes in and what it sends on. -/
theorem states_of_net (heval' : r'.eval) : r'.ports.isDummy = 1 ∧
    traceTuple r'.ports.pc r'.ports.timestamp = traceTuple r.ports.pc r.ports.timestamp ∧
      traceTuple r'.ports.nextPc (r'.ports.timestamp + r'.ports.ticks) =
        traceTuple r.ports.nextPc (r.ports.timestamp + r.ports.ticks) := by
  have hne : traceTuple r.ports.nextPc (r.ports.timestamp + r.ports.ticks) ≠
      traceTuple r.ports.pc r.ports.timestamp := by
    intro heq
    have htime := (traceTuple_inj.mp heq).2
    have hticks := (regular r).ticks_le
    rw [add_eq_left] at htime
    exact natCast_ne_zero (hticks.trans_lt (by norm_num)) (regular r).ticks_pos.ne' htime
  have htrace : ∀ values, _ := fun values => hnet .trace values
  simp only [InstrRow.lookups, net_ports_trace (regular _), hreal] at htrace
  generalize traceTuple r.ports.nextPc (r.ports.timestamp + r.ports.ticks) = sent at *
  generalize traceTuple r.ports.pc r.ports.timestamp = taken at *
  generalize traceTuple r'.ports.nextPc (r'.ports.timestamp + r'.ports.ticks) = sent' at *
  generalize traceTuple r'.ports.pc r'.ports.timestamp = taken' at *
  have htaken := htrace taken
  have hsent := htrace sent
  rw [if_neg hne, if_pos rfl] at htaken
  rw [if_pos rfl, if_neg (Ne.symm hne)] at hsent
  rcases InstrRow.isDummy_of_eval heval' with hdummy | hdummy
  · rw [InstrRow.isDummy] at hdummy
    simp [hdummy] at hsent
  · rw [InstrRow.isDummy] at hdummy
    rw [hdummy] at htaken hsent
    have hsame : taken' = taken := by
      by_contra hother
      rw [if_neg hother] at htaken
      split_ifs at htaken
      · revert htaken
        decide
      · revert htaken
        decide
    refine ⟨hdummy, hsame, ?_⟩
    by_contra hother
    rw [if_neg hother, if_neg (hsame ▸ Ne.symm hne)] at hsent
    revert hsent
    decide

theorem decode_of_net (hdummy : r'.ports.isDummy = 1) :
    r'.ports.decodeBus = r.ports.decodeBus ∧ r'.ports.decode = r.ports.decode := by
  have hdecode := hnet r.ports.decodeBus r.ports.decode
  rw [InstrRow.lookups, InstrRow.lookups, net_ports_decode (regular _) _ (regular r).decodeBus,
    net_ports_decode (regular _) _ (regular r).decodeBus, hdummy, hreal,
    if_pos (And.intro rfl rfl)] at hdecode
  by_contra hother
  rw [if_neg hother] at hdecode
  exact zero_ne_one hdecode

omit hreal in
theorem ops_perm_of_net (heval : r.eval) (heval' : r'.eval) : (rowOps r').Perm (rowOps r) := by
  have hlength : ∀ r : InstrRow Felt, ((rowOps r).map MemoryTuple.toList).length < modulus := by
    intro r
    have hticks := congrArg List.length (memory_timestamps r)
    have hle := (regular r).ticks_le
    rw [List.length_map, List.length_map, List.length_range] at hticks
    have hlarge : 3 < modulus := by norm_num
    rw [List.length_map, rowOps]
    split_ifs
    · omega
    · exact Nat.zero_lt_of_lt hlarge
  apply (List.map_perm_map_iff MemoryTuple.toList_injective).mp
  apply perm_of_cast_count_eq (F := Felt) (hlength r') (hlength r)
  intro values
  have hmemory := hnet .memory values
  rw [net_rowOps heval, net_rowOps heval', net_memorySends, net_memorySends] at hmemory
  exact hmemory

theorem checks_perm_of_net (hdummy : r'.ports.isDummy = 1) (hcount : r.lookups.length < modulus)
    (hcount' : r'.lookups.length < modulus) : r'.ports.checks.Perm r.ports.checks := by
  have hlength : ∀ r : InstrRow Felt, r.ports.checks.length ≤ r.lookups.length := by
    intro r
    simp only [InstrRow.lookups, RowPorts.lookups, List.length_append, List.length_map]
    omega
  apply perm_of_cast_count_eq (F := Felt) ((hlength r').trans_lt hcount') ((hlength r).trans_lt hcount)
  rintro ⟨bus, values⟩
  by_cases hbus : bus ∈ tableBuses
  · have hchecks := hnet bus values
    rw [InstrRow.lookups, InstrRow.lookups, net_ports_checks (regular _) hbus,
      net_ports_checks (regular _) hbus, hdummy, hreal, mul_one, mul_one] at hchecks
    exact hchecks
  · have hnone : ∀ r : InstrRow Felt, r.ports.checks.count (bus, values) = 0 :=
      fun r => List.count_eq_zero.mpr fun hc => hbus ((regular r).checks _ hc)
    rw [hnone, hnone]

/-- Real rows that weigh the same on every bus have the same ports. -/
theorem samePorts_of_net (heval : r.eval) (heval' : r'.eval) (hcount : r.lookups.length < modulus)
    (hcount' : r'.lookups.length < modulus) : SamePorts r r' := by
  obtain ⟨hdummy, htaken, hsent⟩ := states_of_net hnet hreal heval'
  obtain ⟨hpc, htime⟩ := traceTuple_inj.mp htaken
  obtain ⟨hbus, hdecode⟩ := decode_of_net hnet hreal hdummy
  rw [RowPorts.decode, RowPorts.decode, hbus, hpc, List.append_cancel_left_eq,
    List.cons.injEq] at hdecode
  have hid : r'.id = r.id :=
    code_injective (natCast_inj_of_lt (code_lt _) (code_lt _) hdecode.1)
  exact
    { isDummy := hdummy.trans hreal.symm
      id := hid
      pc := hpc
      timestamp := htime
      nextPc := (traceTuple_inj.mp hsent).1
      operands := hdecode.2
      ops := ops_of_perm (ops_perm_of_net hnet heval heval') hid htime
      checks := checks_perm_of_net hnet hreal hdummy hcount hcount' }

end Determined

/-- Rows with the same ports weigh the same on every bus. -/
theorem SamePorts.net (h : SamePorts r r') (heval : r.eval) (heval' : r'.eval) (bus : BusName)
    (values : List Felt) : net r'.lookups bus values = net r.lookups bus values := by
  obtain ⟨hdummy, hid, hpc, htime, hnext, hoperands, hops, hchecks⟩ := h
  rw [InstrRow.isDummy, InstrRow.isDummy] at hdummy
  by_cases hdecode : bus ∈ decodeBuses
  · rw [InstrRow.lookups, InstrRow.lookups, net_ports_decode (regular _) _ hdecode,
      net_ports_decode (regular _) _ hdecode, decodeBus_eq, decodeBus_eq, RowPorts.decode,
      RowPorts.decode, decodeBus_eq, decodeBus_eq, hpc, hoperands, hdummy]
    rw [show r'.ports.id = r.ports.id from hid, hid]
  by_cases htable : bus ∈ tableBuses
  · rw [InstrRow.lookups, InstrRow.lookups, net_ports_checks (regular _) htable,
      net_ports_checks (regular _) htable, hchecks.count_eq, hdummy]
  by_cases htrace : bus = .trace
  · rw [htrace, InstrRow.lookups, InstrRow.lookups, net_ports_trace (regular _),
      net_ports_trace (regular _), hpc, htime, hnext, ticks_of_id hid, hdummy]
  by_cases hmemory : bus = .memory
  · rw [hmemory, net_rowOps heval, net_rowOps heval', hops]
  have hnone : bus ∉ .trace :: .memory :: (decodeBuses ++ tableBuses) := by
    simp [hdecode, htable, htrace, hmemory]
  rw [InstrRow.lookups, InstrRow.lookups, net_ports_of_notMem (regular _) hnone,
    net_ports_of_notMem (regular _) hnone]

/-- A padding row talks to no other table. -/
theorem net_of_padding (heval : r.eval) (hpadding : r.isDummy = 0) (bus : BusName)
    (values : List Felt) : net r.lookups bus values = 0 := by
  have hdummy : r.ports.isDummy = 0 := hpadding
  have hmemory : r.ports.memoryMultiplicity = 0 :=
    (multiplicity_boolean heval).1.resolve_right fun hone =>
      zero_ne_one (hdummy.symm.trans ((multiplicity_boolean heval).2 hone))
  apply net_of_forall_multiplicity
  intro x hx
  rcases mem_lookups.mp hx with rfl | rfl | ⟨op, -, rfl⟩ | ⟨c, -, rfl⟩ | rfl
  · exact hdummy
  · exact hdummy
  · exact hmemory
  · exact hdummy
  · exact hdummy

end Rows

section MutatedRow

variable {P : Poseidon2 Felt} {T : TraceSet Felt} {k : ℕ} {r r' : InstrRow Felt}

theorem net_set_rows (T : TraceSet Felt) (hr : T.rows[k]? = some r) (r' : InstrRow Felt)
    (bus : BusName) (values : List Felt) :
    net ({ T with rows := T.rows.set k r' } : TraceSet Felt).lookups bus values +
      net r.lookups bus values = net T.lookups bus values + net r'.lookups bus values := by
  have hset := net_flatMap_set bus values hr r' InstrRow.lookups
  simp only [TraceSet.lookups, TraceSet.tableLookups, net_append]
  linear_combination hset

theorem length_set_rows (T : TraceSet Felt) (hr : T.rows[k]? = some r) (r' : InstrRow Felt) :
    ({ T with rows := T.rows.set k r' } : TraceSet Felt).lookups.length + r.lookups.length =
      T.lookups.length + r'.lookups.length := by
  have hset := length_flatMap_set hr r' InstrRow.lookups
  simp only [TraceSet.lookups, TraceSet.tableLookups, List.length_append]
  omega

theorem length_row_le (hr : r ∈ T.rows) : r.lookups.length ≤ T.lookups.length := by
  have hrow : r.lookups.length ≤ (T.rows.flatMap InstrRow.lookups).length :=
    (List.sublist_flatten_of_mem (List.mem_map_of_mem hr)).length_le
  simp only [TraceSet.lookups, List.length_append]
  omega

/-- Rows of one AIR have equally many interactions. -/
theorem length_lookups_of_id (h : r'.id = r.id) : r'.lookups.length = r.lookups.length := by
  have hpadding : ∀ r : InstrRow Felt,
      r.lookups.length = (paddingRow r.id : InstrRow Felt).lookups.length := by
    intro r
    cases r <;> rfl
  rw [hpadding r', h, ← hpadding r]

theorem accepted_of_net_rows (h : T.Accepted P) (hr : T.rows[k]? = some r) (heval' : r'.eval)
    (hid : r'.id = r.id)
    (hsame : ∀ bus values, net r'.lookups bus values = net r.lookups bus values) :
    ({ T with rows := T.rows.set k r' } : TraceSet Felt).Accepted P := by
  apply accepted_of_net_eq h (net_set_rows T hr r') _ _ hsame
  · exact { h.eval with rows := (forall_mem_set h.eval.rows hr).mpr heval' }
  · have hlength := length_set_rows T hr r'
    rw [length_lookups_of_id hid] at hlength
    exact Nat.add_right_cancel hlength

/-- A real instruction row can be replaced exactly by the rows that meet the constraints and show
the same to the other tables: the same state before and after, the same instruction, the same
memory operations and the same checks. A padding row can be replaced exactly by the padding rows
of its AIR. -/
theorem instruction_row_pinned (P : Poseidon2 Felt) (T : TraceSet Felt) (k : ℕ)
    (r r' : InstrRow Felt) (h : T.Accepted P) (hr : T.rows[k]? = some r) :
    (r.isDummy = 1 → (({ T with rows := T.rows.set k r' } : TraceSet Felt).Accepted P ↔
      r'.eval ∧ SamePorts r r')) ∧
    (r.isDummy = 0 → r'.id = r.id → (({ T with rows := T.rows.set k r' } :
      TraceSet Felt).Accepted P ↔ r'.eval ∧ r'.isDummy = 0)) := by
  have hmem : r ∈ T.rows := List.mem_of_getElem? hr
  have heval := h.eval.rows r hmem
  have hmem' : r' ∈ T.rows.set k r' := List.mem_set (List.getElem?_eq_some_iff.mp hr).1 _
  refine ⟨fun hreal => ⟨fun h' => ?_, fun ⟨heval', hports⟩ => ?_⟩,
    fun hpadding hid => ⟨fun h' => ?_, fun ⟨heval', hpadding'⟩ => ?_⟩⟩
  · have heval' := h'.eval.rows r' hmem'
    have hnet := net_eq_of_accepted h (net_set_rows T hr r') h'
    exact ⟨heval', samePorts_of_net hnet hreal heval heval'
      ((length_row_le hmem).trans_lt h.interactions)
      ((length_row_le hmem').trans_lt h'.interactions)⟩
  · exact accepted_of_net_rows h hr heval' hports.id (hports.net heval heval')
  · have heval' := h'.eval.rows r' hmem'
    refine ⟨heval', (InstrRow.isDummy_of_eval heval').resolve_right fun hone => ?_⟩
    have hnet := net_eq_of_accepted h (net_set_rows T hr r') h'
    obtain ⟨hreal, -⟩ := states_of_net (fun bus values => (hnet bus values).symm) hone heval
    exact absurd (hpadding.symm.trans hreal) zero_ne_one
  · apply accepted_of_net_rows h hr heval' hid
    intro bus values
    rw [net_of_padding heval hpadding, net_of_padding heval' hpadding']

/-- The row of a LUI step, against one with a forged carry. -/
theorem instruction_row_pinned_lui :
    ((InstrRow.lui (carriedRow 0)).isDummy = 1 →
      (({ carriedTraces ⟨id, id, 0, 0, 0⟩ 0 with
          rows := (carriedRows 0).set 0 (.lui (carriedRow 1)) } : TraceSet Felt).Accepted
        ⟨id, id, 0, 0, 0⟩ ↔
      (InstrRow.lui (carriedRow 1)).eval ∧
        SamePorts (.lui (carriedRow 0)) (.lui (carriedRow 1)))) ∧
    ((InstrRow.lui (carriedRow 0)).isDummy = 0 → InstructionId.lui = .lui →
      (({ carriedTraces ⟨id, id, 0, 0, 0⟩ 0 with
          rows := (carriedRows 0).set 0 (.lui (carriedRow 1)) } : TraceSet Felt).Accepted
        ⟨id, id, 0, 0, 0⟩ ↔
      (InstrRow.lui (carriedRow 1)).eval ∧ (InstrRow.lui (carriedRow 1)).isDummy = 0)) :=
  instruction_row_pinned ⟨id, id, 0, 0, 0⟩ (carriedTraces ⟨id, id, 0, 0, 0⟩ 0) 0
    (.lui (carriedRow 0)) (.lui (carriedRow 1)) (carriedTraces_accepted _ (.inl rfl)) rfl

end MutatedRow

end Loquela.Soundness
