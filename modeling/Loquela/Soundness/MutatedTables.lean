import Loquela.Soundness.Mutation
import Loquela.Soundness.Residual
import Loquela.Soundness.RomAddress

/-! # Mutated tables

What becomes of an accepted trace set when a row of the decode table, the ROM or the memory table is
changed and the rest is kept. Here the constraints and the buses together leave almost no choice:
none in a decode row, and in the other two only columns that nothing reads.
-/

namespace Loquela.Soundness
open Air Completeness Library Library.Bus Trace
open Vm (Byte U32)

section Decode

variable {P : Poseidon2 Felt} {T : TraceSet Felt} {k : ℕ} {c c' : DecodeColumns Felt}

/-- The ROM bytes a row fetches. -/
def fetches (c : DecodeColumns Felt) : List (List Felt) := (List.finRange 4).map fun i : Fin 4 =>
  [c.pc 0 + ((i : ℕ) : Felt), c.pc 1, c.pc 2, c.pc 3, c.instruction i]

theorem net_fetches (c : DecodeColumns Felt) (values : List Felt) :
    net c.lookups .program values = ((fetches c).count values : Felt) := by
  have hsends : net ((List.finRange 4).map fun i : Fin 4 => send .program
      [c.pc 0 + ((i : ℕ) : Felt), c.pc 1, c.pc 2, c.pc 3, c.instruction i] 1) .program values =
        ((fetches c).count values : Felt) := by
    rw [net, List.map_map, fetches, ← mul_one ((List.count values _ : ℕ) : Felt),
      ← sum_ite_eq_count]
    simp only [Function.comp_def, send_weight, true_and]
  rw [DecodeColumns.lookups, List.ofFn_eq_map, net_append, hsends]
  simp [receive_weight]

theorem mem_fetches {values : List Felt} : values ∈ fetches c ↔
    ∃ i : Fin 4, [c.pc 0 + ((i : ℕ) : Felt), c.pc 1, c.pc 2, c.pc 3, c.instruction i] = values := by
  simp [fetches]

/-- Four consecutive addresses tell where they start. -/
theorem eq_of_fetches (h : (fetches c').Perm (fetches c)) :
    c'.pc = c.pc ∧ c'.instruction = c.instruction := by
  have hmem : ∀ i : Fin 4, ∃ j : Fin 4, c.pc 0 + ((j : ℕ) : Felt) = c'.pc 0 + ((i : ℕ) : Felt) ∧
      c.pc 1 = c'.pc 1 ∧ c.pc 2 = c'.pc 2 ∧ c.pc 3 = c'.pc 3 ∧
        c.instruction j = c'.instruction i := by
    intro i
    obtain ⟨j, hj⟩ := mem_fetches.mp (h.subset (mem_fetches.mpr ⟨i, rfl⟩))
    simp only [List.cons.injEq, and_true] at hj
    exact ⟨j, hj⟩
  obtain ⟨j, hfront, h1, h2, h3, -⟩ := hmem 0
  have hfront : c.pc 0 + ((j : ℕ) : Felt) = c'.pc 0 + ((0 : ℕ) : Felt) := hfront
  obtain ⟨i, hi⟩ := mem_fetches.mp (h.symm.subset (mem_fetches.mpr ⟨0, rfl⟩))
  have hback : c'.pc 0 + ((i : ℕ) : Felt) = c.pc 0 + ((0 : ℕ) : Felt) := (List.cons.inj hi).1
  have hsum : (((i : ℕ) + j : ℕ) : Felt) = ((0 : ℕ) : Felt) := by
    push_cast at hfront hback ⊢
    linear_combination hfront + hback
  have hlarge : 8 < modulus := by norm_num
  have hzero := natCast_inj_of_lt (by omega) (by omega) hsum
  have h0 : c'.pc 0 = c.pc 0 := by
    rw [show (i : ℕ) = 0 by omega] at hback
    exact add_right_cancel hback
  refine ⟨?_, ?_⟩
  · funext b
    fin_cases b
    · exact h0
    · exact h1.symm
    · exact h2.symm
    · exact h3.symm
  · funext i
    obtain ⟨j, hj, -, -, -, hvalue⟩ := hmem i
    rw [h0] at hj
    have hsame := natCast_inj_of_lt (by omega) (by omega) (add_left_cancel hj)
    rw [← hvalue, Fin.ext hsame]

theorem net_set_decode (T : TraceSet Felt) (hc : T.decode[k]? = some c) (c' : DecodeColumns Felt)
    (bus : BusName) (values : List Felt) :
    net ({ T with decode := T.decode.set k c' } : TraceSet Felt).lookups bus values +
      net c.lookups bus values = net T.lookups bus values + net c'.lookups bus values := by
  have hset := net_flatMap_set bus values hc c' DecodeColumns.lookups
  simp only [TraceSet.lookups, TraceSet.tableLookups, net_append]
  linear_combination hset

/-- No row of the decode table can be replaced by another one. -/
theorem decode_row_pinned (P : Poseidon2 Felt) (T : TraceSet Felt) (k : ℕ)
    (c c' : DecodeColumns Felt) (h : T.Accepted P) (hc : T.decode[k]? = some c) :
    ({ T with decode := T.decode.set k c' } : TraceSet Felt).Accepted P ↔ c' = c := by
  have hk : k < T.decode.length := (List.getElem?_eq_some_iff.mp hc).1
  constructor
  · intro h'
    have hnet := net_eq_of_accepted h (net_set_decode T hc c') h'
    have heval := h.eval.decode c (List.mem_of_getElem? hc)
    have heval' := h'.eval.decode c' (List.mem_set hk _)
    have hfour : ∀ c : DecodeColumns Felt, (fetches c).length < modulus := by
      intro c
      rw [fetches, List.length_map, List.length_finRange]
      norm_num
    obtain ⟨hpc, hbytes⟩ := eq_of_fetches (perm_of_cast_count_eq (F := Felt) (hfour c') (hfour c)
      fun values => by rw [← net_fetches, ← net_fetches, hnet])
    obtain ⟨wd, id, hfields, hrow⟩ := exists_rowOf heval
    obtain ⟨id', hfields', hrow'⟩ := exists_rowOf_word (hbytes.trans hrow.bytes) heval'
    obtain rfl := hfields.unique hfields'
    have hbus : (instructionId (Vm.ofRv32i (instrOf wd id))).decodeBus ∈ decodeBuses := by
      rw [instructionId_instrOf]
      cases id <;> decide
    have hmult := hnet (instructionId (Vm.ofRv32i (instrOf wd id))).decodeBus
      (decodeTuple c.pc (Vm.ofRv32i (instrOf wd id)))
    rw [net_of_decodes (hrow.decodes hfields) hbus, net_of_decodes (hrow'.decodes hfields) hbus,
      hpc, if_pos ⟨rfl, rfl⟩, if_pos ⟨rfl, rfl⟩] at hmult
    exact hrow'.ext hrow hpc (neg_injective hmult)
  · intro hsame
    have hset : T.decode.set k c' = T.decode := by
      rw [hsame, ← (List.getElem?_eq_some_iff.mp hc).2, List.set_getElem_self]
    rwa [hset]

/-- The decode row of a LUI step, used twice instead of once. -/
theorem decode_row_pinned_lui :
    let T := carriedTraces ⟨id, id, 0, 0, 0⟩ 0
    ({ T with decode := T.decode.set 0 (luiDecode 0 1 2) } : TraceSet Felt).Accepted
      ⟨id, id, 0, 0, 0⟩ ↔ luiDecode 0 1 2 = luiDecode 0 1 1 :=
  decode_row_pinned ⟨id, id, 0, 0, 0⟩ (carriedTraces ⟨id, id, 0, 0, 0⟩ 0) 0 (luiDecode 0 1 1)
    (luiDecode 0 1 2) (carriedTraces_accepted _ (.inl rfl)) rfl

end Decode

section Rom

variable {P : Poseidon2 Felt} {T : TraceSet Felt} {k : ℕ} {c c' : ProgramColumns Felt}

theorem net_romRow (c : ProgramColumns Felt) (bus : BusName) (values : List Felt) :
    net c.lookups bus values =
      (if .program = bus ∧ List.ofFn c.address ++ [c.value] = values then -c.mult else 0) +
        if .programImage = bus ∧ [packed c.address, c.value] = values then -c.isReal else 0 := by
  simp [ProgramColumns.lookups, receive_weight]

theorem net_set_program (T : TraceSet Felt) (hc : T.program[k]? = some c) (c' : ProgramColumns Felt)
    (bus : BusName) (values : List Felt) :
    net ({ T with program := T.program.set k c' } : TraceSet Felt).lookups bus values +
      net c.lookups bus values = net T.lookups bus values + net c'.lookups bus values := by
  have hset := net_flatMap_set bus values hc c' ProgramColumns.lookups
  simp only [TraceSet.lookups, TraceSet.tableLookups, programLookups, net_append]
  linear_combination hset

/-- An increment determines the limbs it ends in. -/
theorem u32Inc_target {x y y' carries : Limbs Felt} (h : u32Inc x y carries)
    (h' : u32Inc x y' carries) : y' = y := by
  funext i
  exact add_right_cancel ((h' i).2.trans (h i).2.symm)

/-- Between given words it determines its carries. -/
theorem u32Inc_carries_unique {x y carries carries' : Limbs Felt} (h : u32Inc x y carries)
    (h' : u32Inc x y carries') : carries' = carries := by
  have hstep : ∀ i, carryIn 1 carries' i = carryIn 1 carries i → carries' i = carries i := by
    intro i hin
    have hlimb := (h i).2
    have hlimb' := (h' i).2
    rw [hin, ← hlimb] at hlimb'
    exact mul_right_cancel₀ natCast_256_ne_zero (add_left_cancel hlimb')
  have h0 := hstep 0 rfl
  have h1 := hstep 1 h0
  have h2 := hstep 2 h1
  have h3 := hstep 3 h2
  funext i
  fin_cases i
  · exact h0
  · exact h1
  · exact h2
  · exact h3

/-- What is left open in a row of the ROM. -/
def RomRowAgrees (c c' : ProgramColumns Felt) (last : Prop) : Prop :=
  c'.address = c.address ∧ c'.isReal = c.isReal ∧ c'.mult = c.mult ∧
    (c.isReal = 1 → c'.value = c.value) ∧ c'.incCarries 3 = 0 ∧
      (¬ last → c'.incCarries = c.incCarries)

theorem romRow_of_net (hnet : ∀ bus values, net c'.lookups bus values = net c.lookups bus values) :
    c'.isReal = c.isReal ∧ c'.mult = c.mult ∧ (c.isReal = 1 → c'.value = c.value) := by
  have himage := eq_of_entry fun values => by
    simpa [net_romRow] using hnet .programImage values
  have hfetched := eq_of_entry fun values => by
    simpa [net_romRow] using hnet .program values
  refine ⟨neg_injective himage.1, neg_injective hfetched.1, fun hreal => ?_⟩
  have htuple := himage.2 (by rw [hreal]; exact neg_ne_zero.mpr one_ne_zero)
  exact (List.cons.inj (List.cons.inj htuple).2).1

theorem net_of_romRow (heval : c.evalRow) (haddress : c'.address = c.address)
    (hreal : c'.isReal = c.isReal) (hmult : c'.mult = c.mult)
    (hvalue : c.isReal = 1 → c'.value = c.value) (bus : BusName) (values : List Felt) :
    net c'.lookups bus values = net c.lookups bus values := by
  rw [net_romRow, net_romRow, haddress, hreal, hmult]
  rcases assertBool_iff.mp heval.2.2.1 with hzero | hone
  · have hnone : c.mult = 0 := by simpa [hzero] using heval.2.2.2
    simp [hzero, hnone]
  · rw [hvalue hone]

/-- The neighbours of a row fix its address and, but for the last row, its carries. -/
theorem romRow_of_eval (heval : programEval T.program)
    (heval' : programEval (T.program.set k c')) (hc : T.program[k]? = some c) :
    c'.address = c.address ∧ (k + 1 ≠ T.program.length → c'.incCarries = c.incCarries) := by
  obtain ⟨hk, hget⟩ := List.getElem?_eq_some_iff.mp hc
  have hset : (T.program.set k c')[k]? = some c' := List.getElem?_set_self hk
  have haddress : c'.address = c.address := by
    cases k with
    | zero =>
      funext i
      rw [heval.2.1 c (by rwa [List.head?_eq_getElem?]) i,
        heval'.2.1 c' (by rwa [List.head?_eq_getElem?]) i]
    | succ j =>
      have hstep := List.isChain_iff_getElem.mp heval.2.2 j hk
      have hstep' := List.isChain_iff_getElem.mp heval'.2.2 j (by simpa using hk)
      rw [hget] at hstep
      rw [List.getElem_set_self, List.getElem_set_ne (by omega)] at hstep'
      exact u32Inc_target hstep.1 hstep'.1
  refine ⟨haddress, fun hlast => ?_⟩
  have hnext : k + 1 < T.program.length := by omega
  have hstep := List.isChain_iff_getElem.mp heval.2.2 k hnext
  have hstep' := List.isChain_iff_getElem.mp heval'.2.2 k (by simpa using hnext)
  rw [hget] at hstep
  rw [List.getElem_set_self, List.getElem_set_ne (by omega)] at hstep'
  exact u32Inc_carries_unique hstep.1 (haddress ▸ hstep'.1)

theorem programEval_set (heval : programEval T.program) (hc : T.program[k]? = some c)
    (hagrees : RomRowAgrees c c' (k + 1 = T.program.length)) :
    programEval (T.program.set k c') := by
  obtain ⟨haddress, hreal, hmult, -, htop, hcarries⟩ := hagrees
  obtain ⟨hk, hget⟩ := List.getElem?_eq_some_iff.mp hc
  obtain ⟨hrows, hfirst, hchain⟩ := heval
  have hrow := hrows c (List.mem_of_getElem? hc)
  refine ⟨fun x hx => ?_, fun x hx => ?_, ?_⟩
  · rcases List.mem_or_eq_of_mem_set hx with hx | rfl
    · exact hrows x hx
    · refine ⟨htop, ?_, ?_, ?_⟩
      · rw [haddress]
        exact hrow.2.1
      · rw [hreal]
        exact hrow.2.2.1
      · rw [hreal, hmult]
        exact hrow.2.2.2
  · rw [List.head?_eq_getElem?, Option.mem_def] at hx
    by_cases hzero : k = 0
    · subst hzero
      rw [List.getElem?_set_self hk] at hx
      obtain rfl := Option.some.inj hx
      intro i
      rw [haddress]
      exact hfirst c (by rwa [List.head?_eq_getElem?]) i
    · rw [List.getElem?_set_ne hzero] at hx
      exact hfirst x (by rwa [List.head?_eq_getElem?])
  · apply List.isChain_iff_getElem.mpr
    intro j hj
    rw [List.length_set] at hj
    have hstep := List.isChain_iff_getElem.mp hchain j hj
    by_cases hthis : k = j
    · subst hthis
      rw [List.getElem_set_self, List.getElem_set_ne (by omega)]
      rw [hget] at hstep
      rw [ProgramColumns.evalTransition, haddress, hreal, hcarries (by omega)]
      exact hstep
    · rw [List.getElem_set_ne hthis]
      by_cases hnext : k = j + 1
      · subst hnext
        rw [List.getElem_set_self]
        rw [hget] at hstep
        rw [ProgramColumns.evalTransition, haddress, hreal]
        exact hstep
      · rw [List.getElem_set_ne hnext]
        exact hstep

/-- A row of the ROM can only be changed where nothing reads it: in the byte of a row that is not
real and in the carries of the last row. -/
theorem rom_row_pinned (P : Poseidon2 Felt) (T : TraceSet Felt) (k : ℕ)
    (c c' : ProgramColumns Felt) (h : T.Accepted P) (hc : T.program[k]? = some c) :
    ({ T with program := T.program.set k c' } : TraceSet Felt).Accepted P ↔
      RomRowAgrees c c' (k + 1 = T.program.length) := by
  have hk : k < T.program.length := (List.getElem?_eq_some_iff.mp hc).1
  have heval := h.eval.program.1 c (List.mem_of_getElem? hc)
  have hlength : ({ T with program := T.program.set k c' } : TraceSet Felt).lookups.length =
      T.lookups.length := by
    have hrows : ∀ rows : List (ProgramColumns Felt),
        (programLookups rows).length = 2 * rows.length := by
      intro rows
      simp [programLookups, ProgramColumns.lookups, mul_comm]
    simp only [TraceSet.lookups, TraceSet.tableLookups, List.length_append, hrows, List.length_set]
  rw [accepted_iff_net_eq h (net_set_program T hc c') hlength]
  constructor
  · rintro ⟨heval', hnet⟩
    obtain ⟨hreal, hmult, hvalue⟩ := romRow_of_net hnet
    obtain ⟨haddress, hcarries⟩ := romRow_of_eval h.eval.program heval'.program hc
    exact ⟨haddress, hreal, hmult, hvalue, (heval'.program.1 c' (List.mem_set hk _)).1, hcarries⟩
  · intro hagrees
    refine ⟨{ h.eval with program := programEval_set h.eval.program hc hagrees }, ?_⟩
    obtain ⟨haddress, hreal, hmult, hvalue, -⟩ := hagrees
    exact net_of_romRow heval haddress hreal hmult hvalue

/-- The first byte of the ROM of a LUI step, with its lowest bit flipped. -/
theorem rom_row_pinned_lui :
    let T := carriedTraces ⟨id, id, 0, 0, 0⟩ 0
    let c : ProgramColumns Felt := ⟨registerAddress 0, 0xb7, 4, 0, 1⟩
    ({ T with program := T.program.set 0 { c with value := 0xb6 } } : TraceSet Felt).Accepted
      ⟨id, id, 0, 0, 0⟩ ↔ RomRowAgrees c { c with value := 0xb6 } (0 + 1 = T.program.length) :=
  rom_row_pinned ⟨id, id, 0, 0, 0⟩ (carriedTraces ⟨id, id, 0, 0, 0⟩ 0) 0
    ⟨registerAddress 0, 0xb7, 4, 0, 1⟩ ⟨registerAddress 0, 0xb6, 4, 0, 1⟩
    (carriedTraces_accepted _ (.inl rfl)) rfl

end Rom

section Memory

variable {P : Poseidon2 Felt} {T : TraceSet Felt} {k : ℕ} {c c' next : MemoryColumns Felt}

/-- Both tables hold the operations of the same rows. -/
theorem tuple_of_accepted (h : T.Accepted P) (hc : T.memory[k]? = some c)
    (h' : ({ T with memory := T.memory.set k c' } : TraceSet Felt).Accepted P) :
    c'.isPadding = c.isPadding ∧ (c.isPadding = 0 → c'.toMemoryTuple = c.toMemoryTuple) := by
  obtain ⟨hk, hget⟩ := List.getElem?_eq_some_iff.mp hc
  have hboolean := assertBool_iff.mp (h.eval.memory.1 c (List.mem_of_getElem? hc)).1
  have hboolean' := assertBool_iff.mp (h'.eval.memory.1 c' (List.mem_set hk _)).1
  have hsplit : T.memory = T.memory.take k ++ c :: T.memory.drop (k + 1) := by
    rw [← hget, ← List.drop_eq_getElem_cons hk, List.take_append_drop]
  have hperm : (tableOps { T with memory := T.memory.set k c' }).Perm (tableOps T) :=
    (memoryOps_perm h').symm.trans (memoryOps_perm (T := T) h)
  simp only [tableOps, MemoryTables.realRows, memoryTables] at hperm
  rw [List.set_eq_take_append_cons_drop, if_pos hk] at hperm
  nth_rewrite 3 [hsplit] at hperm
  rw [List.filter_append, List.filter_append, List.map_append, List.map_append,
    List.perm_append_left_iff, List.filter_cons, List.filter_cons] at hperm
  rcases hboolean with hreal | hpadding <;> rcases hboolean' with hreal' | hpadding'
  · rw [if_pos (decide_eq_true hreal), if_pos (decide_eq_true hreal')] at hperm
    have hsame : [c'.toMemoryTuple].Perm [c.toMemoryTuple] :=
      (List.perm_append_right_iff _).mp hperm
    exact ⟨hreal'.trans hreal.symm, fun _ => List.singleton_perm_singleton.mp hsame⟩
  · rw [if_pos (decide_eq_true hreal), if_neg (by simp [hpadding'])] at hperm
    exact absurd hperm.length_eq (by simp)
  · rw [if_pos (decide_eq_true hreal'), if_neg (by simp [hpadding])] at hperm
    exact absurd hperm.length_eq (by simp)
  · exact ⟨hpadding'.trans hpadding.symm, fun hreal => absurd (hpadding.symm.trans hreal) one_ne_zero⟩

/-- The columns of a row that the row before it looks at. -/
def seenColumns (c : MemoryColumns Felt) : Limbs Felt × Felt × Felt :=
  (c.address, c.timestamp, c.isPadding)

theorem lookups_congr {x y : MemoryColumns Felt} (h : seenColumns x = seenColumns y)
    (c : MemoryColumns Felt) : c.lookups x = c.lookups y := by
  obtain ⟨haddress, hrest⟩ := Prod.mk.inj h
  obtain ⟨htime, hpadding⟩ := Prod.mk.inj hrest
  rw [MemoryColumns.lookups, MemoryColumns.lookups, haddress, htime, hpadding]

section Neighbours

variable {rows : List (MemoryColumns Felt)}

theorem getElem?_neighbours (hc : rows[k]? = some c) (hnext : rows[k + 1]? = some next) :
    (rows.zip (rows.rotate 1))[k]? = some (c, next) := by
  obtain ⟨hk', -⟩ := List.getElem?_eq_some_iff.mp hnext
  rw [List.getElem?_zip_eq_some]
  refine ⟨hc, ?_⟩
  rw [List.getElem?_rotate (by omega), Nat.mod_eq_of_lt hk']
  exact hnext

/-- Only the pair a row begins sees more of it than the row before it does. -/
theorem memoryLookups_set (hc : rows[k]? = some c) (hnext : rows[k + 1]? = some next)
    (hseen : seenColumns c' = seenColumns c) : memoryLookups (rows.set k c') =
      ((rows.zip (rows.rotate 1)).set k (c', next)).flatMap fun pair => pair.1.lookups pair.2 := by
  obtain ⟨hk', hget'⟩ := List.getElem?_eq_some_iff.mp hnext
  obtain ⟨hk, hget⟩ := List.getElem?_eq_some_iff.mp hc
  rw [memoryLookups, List.flatMap_def, List.flatMap_def]
  congr 1
  apply List.ext_getElem (by simp)
  intro j hj hj'
  have hjn : j < rows.length := by simpa using hj
  have hsame : ∀ (x : MemoryColumns Felt) (i : ℕ) (hi : i < (rows.set k c').length)
      (hi' : i < rows.length), x.lookups (rows.set k c')[i] = x.lookups rows[i] := by
    intro x i hi hi'
    rw [List.getElem_set]
    split_ifs with heq
    · subst heq
      rw [lookups_congr hseen, hget]
    · rfl
  have hmod : (j + 1) % (rows.set k c').length < rows.length := by
    rw [List.length_set]
    exact Nat.mod_lt _ (by omega)
  rw [List.getElem_map, List.getElem_map, List.getElem_zip, List.getElem_rotate, hsame _ _ _ hmod]
  simp only [List.length_set]
  by_cases hthis : k = j
  · subst hthis
    simp only [List.getElem_set_self, Nat.mod_eq_of_lt hk', hget']
  · rw [List.getElem_set_ne hthis, List.getElem_set_ne hthis, List.getElem_zip,
      List.getElem_rotate]

end Neighbours

theorem net_set_memory (T : TraceSet Felt) (hc : T.memory[k]? = some c)
    (hnext : T.memory[k + 1]? = some next) (hseen : seenColumns c' = seenColumns c) (bus : BusName)
    (values : List Felt) :
    net ({ T with memory := T.memory.set k c' } : TraceSet Felt).lookups bus values +
      net (c.lookups next) bus values =
        net T.lookups bus values + net (c'.lookups next) bus values := by
  have hset : net (memoryLookups (T.memory.set k c')) bus values + net (c.lookups next) bus values =
      net (memoryLookups T.memory) bus values + net (c'.lookups next) bus values := by
    rw [memoryLookups_set hc hnext hseen]
    exact net_flatMap_set bus values (getElem?_neighbours hc hnext) (c', next)
      fun pair => pair.1.lookups pair.2
  simp only [TraceSet.lookups, TraceSet.tableLookups, net_append]
  linear_combination hset

/-- The type flag of every real row is set, since all operations are on registers. -/
theorem typeFlag_of_accepted (h : T.Accepted P) (hc : T.memory[k]? = some c)
    (hnext : T.memory[k + 1]? = some next) (hreal : next.isPadding = 0) :
    c.isMemoryTypeEqual = 1 := by
  obtain ⟨hk, rfl⟩ := List.getElem?_eq_some_iff.mp hc
  obtain ⟨hk', rfl⟩ := List.getElem?_eq_some_iff.mp hnext
  have hrealk := List.isChain_iff_getElem.mp (real_of_next h.eval.memory) k hk' hreal
  obtain ⟨reg, hreg⟩ := tableOps_cell h (List.getElem_mem hk) hrealk
  obtain ⟨reg', hreg'⟩ := tableOps_cell h (List.getElem_mem hk') hreal
  exact flag_of_registers (List.isChain_iff_getElem.mp h.eval.memory.2.2 k hk')
    (h.eval.memory.1 _ (List.getElem_mem hk)).2 (congrArg Prod.fst hreg) (congrArg Prod.fst hreg')

theorem net_memoryRow (c next : MemoryColumns Felt) (bus : BusName) (values : List Felt) :
    net (c.lookups next) bus values =
      (if .u32Lt = bus ∧ List.ofFn c.address ++ List.ofFn next.address ++ [c.isAddressEqual] = values
        then c.isMemoryTypeEqual * (1 - next.isPadding) else 0) +
      ((if .timestampLt = bus ∧ [c.timestamp, next.timestamp, c.isTimestampEqual] = values
        then c.isAddressEqual * (1 - next.isPadding) else 0) +
      if .memory = bus ∧ c.toMemoryTuple.toList = values then -(1 - c.isPadding) else 0) := by
  simp only [MemoryColumns.lookups, net_cons, net_nil, send_weight, receive_weight, add_zero]

/-- The constraints do not look at the timestamp flag. -/
theorem memoryEval_iff_flags (rows : List (MemoryColumns Felt)) : memoryEval rows ↔
    memoryEval (rows.map fun c => { c with isTimestampEqual := 0 }) := by
  simp only [memoryEval, List.forall_mem_map, List.head?_map, List.isChain_map, Option.mem_map,
    forall_exists_index, and_imp, forall_apply_eq_imp_iff₂]
  rfl

theorem memoryEval_set {rows : List (MemoryColumns Felt)} (heval : memoryEval rows)
    (hc : rows[k]? = some c) (t : Felt) :
    memoryEval (rows.set k { c with isTimestampEqual := t }) := by
  obtain ⟨hk, rfl⟩ := List.getElem?_eq_some_iff.mp hc
  rw [memoryEval_iff_flags, List.map_set] at *
  have hsame : (rows.map fun c => ({ c with isTimestampEqual := 0 } : MemoryColumns Felt)).set k
      { rows[k] with isTimestampEqual := 0 } =
        rows.map fun c => { c with isTimestampEqual := 0 } := by
    apply List.ext_getElem (by simp)
    intro j hj hj'
    rw [List.getElem_set]
    split_ifs with heq
    · subst heq
      rw [List.getElem_map]
    · rfl
  rw [hsame]
  exact heval

section Mutated

variable (h : T.Accepted P) (hc : T.memory[k]? = some c) (hnext : T.memory[k + 1]? = some next)
  (hreal : next.isPadding = 0)

include h hc hnext hreal

theorem memoryRow_of_accepted
    (h' : ({ T with memory := T.memory.set k c' } : TraceSet Felt).Accepted P) :
    c' = { c with isTimestampEqual := c'.isTimestampEqual } ∧
      (c.isAddressEqual ≠ 0 → c'.isTimestampEqual = c.isTimestampEqual) := by
  obtain ⟨hk, hget⟩ := List.getElem?_eq_some_iff.mp hc
  obtain ⟨hk', hget'⟩ := List.getElem?_eq_some_iff.mp hnext
  have hrealk : c.isPadding = 0 := by
    rw [← hget]
    exact List.isChain_iff_getElem.mp (real_of_next h.eval.memory) k hk' (by rwa [hget'])
  obtain ⟨hpadding, htuple⟩ := tuple_of_accepted h hc h'
  have htuple := htuple hrealk
  have hseen : seenColumns c' = seenColumns c := by
    rw [seenColumns, seenColumns, htuple, hpadding]
  have hnet := net_eq_of_accepted h (net_set_memory T hc hnext hseen) h'
  have hc' : (T.memory.set k c')[k]? = some c' := List.getElem?_set_self hk
  have hnext' : (T.memory.set k c')[k + 1]? = some next := by
    rwa [List.getElem?_set_ne (by omega)]
  have htype := typeFlag_of_accepted h hc hnext hreal
  have htype' : c'.isMemoryTypeEqual = 1 := typeFlag_of_accepted h' hc' hnext' hreal
  have haddress : c'.isAddressEqual = c.isAddressEqual := by
    have hentry := eq_of_entry fun values => by
      simpa [net_memoryRow, htype, htype', hreal] using hnet .u32Lt values
    simpa [htuple] using hentry.2 one_ne_zero
  refine ⟨?_, fun hne => ?_⟩
  · cases c
    cases c'
    simp only at htuple hpadding htype htype' haddress
    rw [htuple, hpadding, htype, htype', haddress]
  · have hentry := eq_of_entry fun values => by
      simpa [net_memoryRow, hreal] using hnet .timestampLt values
    have hflags := (List.cons.inj (List.cons.inj (hentry.2 hne)).2).2
    exact List.singleton_inj.mp hflags

omit hreal in
theorem accepted_of_memoryRow {t : Felt} (ht : c.isAddressEqual ≠ 0 → t = c.isTimestampEqual) :
    ({ T with memory := T.memory.set k { c with isTimestampEqual := t } } :
      TraceSet Felt).Accepted P := by
  apply accepted_of_net_eq h (net_set_memory T hc hnext
    (rfl : seenColumns { c with isTimestampEqual := t } = seenColumns c))
  · exact { h.eval with memory := memoryEval_set h.eval.memory hc t }
  · have hlength : ∀ rows : List (MemoryColumns Felt),
        (memoryLookups rows).length = 3 * rows.length := by
      intro rows
      simp [memoryLookups, MemoryColumns.lookups, mul_comm]
    simp only [TraceSet.lookups, TraceSet.tableLookups, List.length_append, hlength,
      List.length_set]
  · intro bus values
    by_cases hzero : c.isAddressEqual = 0
    · rw [net_memoryRow, net_memoryRow]
      simp [hzero]
    · rw [ht hzero]

end Mutated

/-- In the memory table the operation of a real row is pinned down. In a row followed by a real one
all flags are, too, but for the timestamp flag where the address changes, which nothing reads. -/
theorem memory_row_pinned (P : Poseidon2 Felt) (T : TraceSet Felt) (k : ℕ)
    (c c' : MemoryColumns Felt) (h : T.Accepted P) (hc : T.memory[k]? = some c) :
    (({ T with memory := T.memory.set k c' } : TraceSet Felt).Accepted P →
      c'.isPadding = c.isPadding ∧ (c.isPadding = 0 → c'.toMemoryTuple = c.toMemoryTuple)) ∧
    ∀ next, T.memory[k + 1]? = some next → next.isPadding = 0 →
      (({ T with memory := T.memory.set k c' } : TraceSet Felt).Accepted P ↔
        c' = { c with isTimestampEqual := c'.isTimestampEqual } ∧
          (c.isAddressEqual ≠ 0 → c'.isTimestampEqual = c.isTimestampEqual)) := by
  refine ⟨tuple_of_accepted h hc, fun next hnext hreal => ⟨memoryRow_of_accepted h hc hnext hreal, ?_⟩⟩
  rintro ⟨hflags, ht⟩
  rw [hflags]
  exact accepted_of_memoryRow h hc hnext ht

/-- The write of a LUI step, with another byte in the register. -/
theorem memory_row_pinned_lui :
    let T := carriedTraces ⟨id, id, 0, 0, 0⟩ 0
    let c : MemoryColumns Felt := ⟨writeTuple 0 1 0 ![0, 16, 0, 0], 1, 1, 0, 0⟩
    let c' : MemoryColumns Felt := ⟨writeTuple 0 1 0 ![1, 16, 0, 0], 1, 1, 0, 0⟩
    (({ T with memory := T.memory.set 0 c' } : TraceSet Felt).Accepted ⟨id, id, 0, 0, 0⟩ →
      c'.isPadding = c.isPadding ∧ (c.isPadding = 0 → c'.toMemoryTuple = c.toMemoryTuple)) ∧
    ∀ next, T.memory[0 + 1]? = some next → next.isPadding = 0 →
      (({ T with memory := T.memory.set 0 c' } : TraceSet Felt).Accepted ⟨id, id, 0, 0, 0⟩ ↔
        c' = { c with isTimestampEqual := c'.isTimestampEqual } ∧
          (c.isAddressEqual ≠ 0 → c'.isTimestampEqual = c.isTimestampEqual)) :=
  memory_row_pinned ⟨id, id, 0, 0, 0⟩ (carriedTraces ⟨id, id, 0, 0, 0⟩ 0) 0
    ⟨writeTuple 0 1 0 ![0, 16, 0, 0], 1, 1, 0, 0⟩ ⟨writeTuple 0 1 0 ![1, 16, 0, 0], 1, 1, 0, 0⟩
    (carriedTraces_accepted _ (.inl rfl)) rfl

end Memory

end Loquela.Soundness
