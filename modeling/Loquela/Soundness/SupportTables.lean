import Loquela.Soundness.MutatedTables

/-! # Mutated support tables

The tables that only answer others: the two comparison tables, the boundaries and the lookup tables.
A comparison that is asked for leaves no choice but the inverse of a zero, and what a lookup table
is received with is settled by what the other tables send.
-/

namespace Loquela.Soundness
open Air Completeness Library Library.Bus Trace

section Words

variable {P : Poseidon2 Felt} {T : TraceSet Felt} {k : ℕ} {c c' : U32LessThanColumns Felt}

/-- The limbs a row sends to the byte table: the first that differ, if any. -/
def comparedLimbs (c : U32LessThanColumns Felt) : List (List Felt) :=
  ((List.finRange 4).filter fun i => c.multLts i = 1).map fun i => [c.x i, c.y i]

theorem length_comparedLimbs (h : c.eval) : (comparedLimbs c).length ≤ 1 := by
  have hsum : (((comparedLimbs c).length : ℕ) : Felt) = c.multSum := by
    rw [comparedLimbs, List.length_map, ← Bits.sum_eq_count fun i _ => assertBool_iff.mp (h.2.1 i)]
    simp only [List.finRange_succ, List.finRange_zero, List.map_cons, List.map_nil, List.sum_cons,
      List.sum_nil, U32LessThanColumns.multSum, Fin.isValue, Fin.succ_zero_eq_one]
    ring_nf
    rfl
  have hle : (comparedLimbs c).length ≤ 4 := by
    rw [comparedLimbs, List.length_map]
    exact (List.length_filter_le _ _).trans_eq (List.length_finRange)
  have hlarge : 4 < modulus := by norm_num
  rcases assertBool_iff.mp h.2.2.1 with hzero | hone
  · rw [hzero, ← Nat.cast_zero] at hsum
    have := natCast_inj_of_lt (by omega) (by omega) hsum
    omega
  · rw [hone, ← Nat.cast_one] at hsum
    exact (natCast_inj_of_lt (by omega) (by omega) hsum).le

theorem net_u32LessThan (h : c.eval) (bus : BusName) (values : List Felt) :
    net c.lookups bus values =
      (if .bytesLt = bus then ((comparedLimbs c).count values : Felt) else 0) +
        if .u32Lt = bus ∧ List.ofFn c.x ++ List.ofFn c.y ++ [c.isEqual] = values then -c.mult
          else 0 := by
  have hsends : ∀ l : List (Fin 4), net (l.map fun i => send .bytesLt [c.x i, c.y i] (c.multLts i))
      bus values = if .bytesLt = bus then
        (((l.filter fun i => c.multLts i = 1).map fun i => [c.x i, c.y i]).count values : Felt)
          else 0 := by
    intro l
    induction l with
    | nil => simp
    | cons i l ih =>
      rw [List.map_cons, net_cons, ih, send_weight]
      rcases assertBool_iff.mp (h.2.1 i) with hi | hi <;> by_cases hbus : .bytesLt = bus <;>
        by_cases hv : [c.x i, c.y i] = values <;> simp [hi, hbus, hv, add_comm]
  rw [U32LessThanColumns.lookups, List.ofFn_eq_map, net_append, hsends, net_cons, net_nil,
    receive_weight, add_zero]
  rfl

theorem u32LessThan_isEquals (h : c.eval) (i : Fin 4) :
    c.isEquals i = if c.x i = c.y i then 1 else 0 := by
  obtain ⟨hinv, hzero⟩ := h.1 i
  split_ifs with hxy
  · rw [← hinv, hxy, sub_self, mul_zero, zero_add]
  · exact (mul_eq_zero.mp hzero).resolve_left (sub_ne_zero.mpr (Ne.symm hxy))

/-- The words compared determine a row, but for the inverses of limbs that do not differ. -/
theorem u32LessThan_unique (h : c.eval) (h' : c'.eval) (hx : c'.x = c.x) (hy : c'.y = c.y)
    (hmult : c'.mult = c.mult) : c' = { c with inverses := c'.inverses } ∧
      ∀ i, c.x i ≠ c.y i → c'.inverses i = c.inverses i := by
  have hequals : c'.isEquals = c.isEquals := by
    funext i
    rw [u32LessThan_isEquals h, u32LessThan_isEquals h', hx, hy]
  have hstep : ∀ i, c'.alreadySeen i = c.alreadySeen i → c'.multLts i = c.multLts i := by
    intro i hseen
    obtain ⟨hone, hzero⟩ := h.2.2.2.1 i
    obtain ⟨hone', hzero'⟩ := h'.2.2.2.1 i
    rw [hseen, hequals] at hzero'
    rw [hseen] at hone'
    linear_combination hone' + hzero' - hone - hzero
  have h3 : c'.multLts 3 = c.multLts 3 := hstep 3 rfl
  have h2 : c'.multLts 2 = c.multLts 2 := hstep 2 h3
  have h1 : c'.multLts 1 = c.multLts 1 := hstep 1 (congrArg₂ (· + ·) h3 h2)
  have h0 : c'.multLts 0 = c.multLts 0 :=
    hstep 0 (congrArg₂ (· + ·) (congrArg₂ (· + ·) h3 h2) h1)
  have hlts : c'.multLts = c.multLts := by
    funext i
    fin_cases i
    · exact h0
    · exact h1
    · exact h2
    · exact h3
  have hequal : c'.isEqual = c.isEqual := by
    rw [h.2.2.2.2, h'.2.2.2.2, U32LessThanColumns.multSum, U32LessThanColumns.multSum, hlts]
  constructor
  · cases c
    cases c'
    simp only at hx hy hmult hequals hlts hequal
    rw [hx, hy, hmult, hequals, hlts, hequal]
  · intro i hne
    have hinv := (h.1 i).1
    have hinv' := (h'.1 i).1
    rw [hx, hy, hequals, ← hinv] at hinv'
    exact mul_right_cancel₀ (sub_ne_zero.mpr (Ne.symm hne)) (add_right_cancel hinv')

theorem u32LessThan_eval_of_inverses (h : c.eval) {inverses : Limbs Felt}
    (hinverses : ∀ i, c.x i ≠ c.y i → inverses i = c.inverses i) :
    ({ c with inverses := inverses } : U32LessThanColumns Felt).eval := by
  refine ⟨fun i => ⟨?_, (h.1 i).2⟩, h.2⟩
  by_cases hxy : c.x i = c.y i
  · rw [u32LessThan_isEquals h, if_pos hxy]
    simp [hxy]
  · rw [← (h.1 i).1]
    simp only [hinverses i hxy]

/-- What a row shows: the limbs it has compared, and, if it is asked for, the words. -/
theorem net_u32LessThan_eq_iff (h : c.eval) (h' : c'.eval) :
    (∀ bus values, net c'.lookups bus values = net c.lookups bus values) ↔
      c'.mult = c.mult ∧ (c.mult ≠ 0 → c'.x = c.x ∧ c'.y = c.y) ∧
        comparedLimbs c' = comparedLimbs c := by
  constructor
  · intro hnet
    have hentry := eq_of_entry fun values => by
      simpa only [net_u32LessThan h, net_u32LessThan h', reduceCtorEq, if_false, true_and, zero_add,
        List.append_assoc] using hnet .u32Lt values
    have hperm : (comparedLimbs c').Perm (comparedLimbs c) := by
      have hlarge : 1 < modulus := by norm_num
      apply perm_of_cast_count_eq (F := Felt) ((length_comparedLimbs h').trans_lt hlarge)
        ((length_comparedLimbs h).trans_lt hlarge)
      intro values
      simpa [net_u32LessThan h, net_u32LessThan h'] using hnet .bytesLt values
    refine ⟨neg_injective hentry.1, fun hne => ?_, ?_⟩
    · have htuple := hentry.2 (neg_ne_zero.mpr hne)
      obtain ⟨hx, hrest⟩ := List.append_inj htuple (by simp)
      obtain ⟨hy, -⟩ := List.append_inj hrest (by simp)
      exact ⟨List.ofFn_injective hx, List.ofFn_injective hy⟩
    · rcases Nat.le_one_iff_eq_zero_or_eq_one.mp (length_comparedLimbs h) with hzero | hone
      · rw [List.length_eq_zero_iff] at hzero
        rw [hzero] at hperm ⊢
        exact hperm.eq_nil
      · obtain ⟨limbs, hlimbs⟩ := List.length_eq_one_iff.mp hone
        rw [hlimbs] at hperm ⊢
        exact List.perm_singleton.mp hperm
  · rintro ⟨hmult, hwords, hlimbs⟩ bus values
    rw [net_u32LessThan h, net_u32LessThan h', hlimbs, hmult]
    by_cases hzero : c.mult = 0
    · simp [hzero]
    · obtain ⟨hx, hy⟩ := hwords hzero
      rw [(u32LessThan_unique h h' hx hy hmult).1]

theorem net_set_u32Lt (T : TraceSet Felt) (hc : T.u32Lt[k]? = some c) (c' : U32LessThanColumns Felt)
    (bus : BusName) (values : List Felt) :
    net ({ T with u32Lt := T.u32Lt.set k c' } : TraceSet Felt).lookups bus values +
      net c.lookups bus values = net T.lookups bus values + net c'.lookups bus values := by
  have hset := net_flatMap_set bus values hc c' U32LessThanColumns.lookups
  simp only [TraceSet.lookups, TraceSet.tableLookups, net_append]
  linear_combination hset

theorem accepted_set_u32Lt_iff (h : T.Accepted P) (hc : T.u32Lt[k]? = some c) :
    ({ T with u32Lt := T.u32Lt.set k c' } : TraceSet Felt).Accepted P ↔ c'.eval ∧
      c'.mult = c.mult ∧ (c.mult ≠ 0 → c'.x = c.x ∧ c'.y = c.y) ∧
        comparedLimbs c' = comparedLimbs c := by
  have hlength : ({ T with u32Lt := T.u32Lt.set k c' } : TraceSet Felt).lookups.length =
      T.lookups.length := by
    have hset := length_flatMap_set hc c' U32LessThanColumns.lookups
    simp only [TraceSet.lookups, TraceSet.tableLookups, List.length_append] at hset ⊢
    simp only [U32LessThanColumns.lookups, List.length_append, List.length_ofFn,
      List.length_singleton] at hset ⊢
    omega
  have heval := h.eval.u32Lt c (List.mem_of_getElem? hc)
  rw [accepted_iff_net_eq h (net_set_u32Lt T hc c') hlength]
  constructor
  · rintro ⟨hset, hnet⟩
    have heval' := (forall_mem_set h.eval.u32Lt hc).mp hset.u32Lt
    exact ⟨heval', (net_u32LessThan_eq_iff heval heval').mp hnet⟩
  · rintro ⟨heval', hshown⟩
    exact ⟨{ h.eval with u32Lt := (forall_mem_set h.eval.u32Lt hc).mpr heval' },
      (net_u32LessThan_eq_iff heval heval').mpr hshown⟩

end Words

section Timestamps

variable {P : Poseidon2 Felt} {T : TraceSet Felt} {k : ℕ} {c c' : TimestampLessThanColumns Felt}

/-- The timestamps compared determine a row, but for the inverse of a zero. -/
theorem timestampLessThan_unique (h : c.eval) (h' : c'.eval) (hx : c'.x = c.x) (hy : c'.y = c.y)
    (hmult : c'.mult = c.mult) : c' = { c with diffInv := c'.diffInv } ∧
      (c.x ≠ c.y → c'.diffInv = c.diffInv) := by
  have hequal : c'.isEqual = c.isEqual := by
    rw [timestampLessThan_isEqual h, timestampLessThan_isEqual h', hx, hy]
  obtain ⟨⟨hxb, hxpack⟩, ⟨hyb, hypack⟩, ⟨hvb, hvpack⟩, hinv, -⟩ := h
  obtain ⟨⟨hxb', hxpack'⟩, ⟨hyb', hypack'⟩, ⟨hvb', hvpack'⟩, hinv', -⟩ := h'
  have h24 : 2 ^ 24 ≤ modulus := by norm_num
  have h25 : 2 ^ 25 ≤ modulus := by norm_num
  have hxbits : c'.xBits = c.xBits :=
    Bits.pack_injective h24 (fun i => assertBool_iff.mp (hxb' i))
      (fun i => assertBool_iff.mp (hxb i)) (by rw [← hxpack, ← hxpack', hx])
  have hybits : c'.yBits = c.yBits :=
    Bits.pack_injective h24 (fun i => assertBool_iff.mp (hyb' i))
      (fun i => assertBool_iff.mp (hyb i)) (by rw [← hypack, ← hypack', hy])
  have hvbits : c'.vBits = c.vBits :=
    Bits.pack_injective h25 (fun i => assertBool_iff.mp (hvb' i))
      (fun i => assertBool_iff.mp (hvb i)) (by rw [← hvpack, ← hvpack', hx, hy])
  constructor
  · cases c
    cases c'
    simp only at hx hy hmult hxbits hybits hvbits hequal
    rw [hx, hy, hmult, hxbits, hybits, hvbits, hequal]
  · intro hne
    rw [hx, hy, hequal, ← hinv] at hinv'
    exact mul_right_cancel₀ (sub_ne_zero.mpr hne) (add_right_cancel hinv')

theorem timestampLessThan_eval_of_diffInv (h : c.eval) {diffInv : Felt}
    (hinv : c.x ≠ c.y → diffInv = c.diffInv) :
    ({ c with diffInv := diffInv } : TimestampLessThanColumns Felt).eval := by
  refine ⟨h.1, h.2.1, h.2.2.1, ?_, h.2.2.2.2⟩
  by_cases hxy : c.x = c.y
  · rw [timestampLessThan_isEqual h, if_pos hxy]
    simp [hxy]
  · rw [hinv hxy]
    exact h.2.2.2.1

theorem net_timestampLessThan (c : TimestampLessThanColumns Felt) (bus : BusName)
    (values : List Felt) : net c.lookups bus values =
      if .timestampLt = bus ∧ [c.x, c.y, c.isEqual] = values then -c.mult else 0 := by
  rw [TimestampLessThanColumns.lookups, net_cons, net_nil, receive_weight, add_zero]

theorem net_timestampLessThan_eq_iff (h : c.eval) (h' : c'.eval) :
    (∀ bus values, net c'.lookups bus values = net c.lookups bus values) ↔
      c'.mult = c.mult ∧ (c.mult ≠ 0 → c'.x = c.x ∧ c'.y = c.y) := by
  constructor
  · intro hnet
    have hentry := eq_of_entry fun values => by
      simpa only [net_timestampLessThan, true_and] using hnet .timestampLt values
    refine ⟨neg_injective hentry.1, fun hne => ?_⟩
    obtain ⟨hx, hrest⟩ := List.cons.inj (hentry.2 (neg_ne_zero.mpr hne))
    exact ⟨hx, (List.cons.inj hrest).1⟩
  · rintro ⟨hmult, hoperands⟩ bus values
    rw [net_timestampLessThan, net_timestampLessThan, hmult]
    by_cases hzero : c.mult = 0
    · simp [hzero]
    · obtain ⟨hx, hy⟩ := hoperands hzero
      rw [(timestampLessThan_unique h h' hx hy hmult).1]

theorem net_set_timestampLt (T : TraceSet Felt) (hc : T.timestampLt[k]? = some c)
    (c' : TimestampLessThanColumns Felt) (bus : BusName) (values : List Felt) :
    net ({ T with timestampLt := T.timestampLt.set k c' } : TraceSet Felt).lookups bus values +
      net c.lookups bus values = net T.lookups bus values + net c'.lookups bus values := by
  have hset := net_flatMap_set bus values hc c' TimestampLessThanColumns.lookups
  simp only [TraceSet.lookups, TraceSet.tableLookups, net_append]
  linear_combination hset

theorem accepted_set_timestampLt_iff (h : T.Accepted P) (hc : T.timestampLt[k]? = some c) :
    ({ T with timestampLt := T.timestampLt.set k c' } : TraceSet Felt).Accepted P ↔ c'.eval ∧
      c'.mult = c.mult ∧ (c.mult ≠ 0 → c'.x = c.x ∧ c'.y = c.y) := by
  have hlength : ({ T with timestampLt := T.timestampLt.set k c' } :
      TraceSet Felt).lookups.length = T.lookups.length := by
    have hset := length_flatMap_set hc c' TimestampLessThanColumns.lookups
    simp only [TraceSet.lookups, TraceSet.tableLookups, List.length_append] at hset ⊢
    simp only [TimestampLessThanColumns.lookups, List.length_singleton] at hset ⊢
    omega
  have heval := h.eval.timestampLt c (List.mem_of_getElem? hc)
  rw [accepted_iff_net_eq h (net_set_timestampLt T hc c') hlength]
  constructor
  · rintro ⟨hset, hnet⟩
    have heval' := (forall_mem_set h.eval.timestampLt hc).mp hset.timestampLt
    exact ⟨heval', (net_timestampLessThan_eq_iff heval heval').mp hnet⟩
  · rintro ⟨heval', hshown⟩
    exact ⟨{ h.eval with timestampLt := (forall_mem_set h.eval.timestampLt hc).mpr heval' },
      (net_timestampLessThan_eq_iff heval heval').mpr hshown⟩

end Timestamps

/-- A comparison that is asked for can only be changed in the inverses of limbs, or of timestamps,
that do not differ. Another row can be any that is not asked for, as long as it sends the same
limbs to the byte table. -/
theorem comparison_row_pinned (P : Poseidon2 Felt) (T : TraceSet Felt) (k : ℕ) (h : T.Accepted P) :
    (∀ c c', T.u32Lt[k]? = some c →
      (c.mult ≠ 0 → (({ T with u32Lt := T.u32Lt.set k c' } : TraceSet Felt).Accepted P ↔
        c' = { c with inverses := c'.inverses } ∧
          ∀ i, c.x i ≠ c.y i → c'.inverses i = c.inverses i)) ∧
      (c.mult = 0 → (({ T with u32Lt := T.u32Lt.set k c' } : TraceSet Felt).Accepted P ↔
        c'.eval ∧ c'.mult = 0 ∧ comparedLimbs c' = comparedLimbs c))) ∧
    ∀ c c', T.timestampLt[k]? = some c →
      (c.mult ≠ 0 → (({ T with timestampLt := T.timestampLt.set k c' } :
        TraceSet Felt).Accepted P ↔ c' = { c with diffInv := c'.diffInv } ∧
          (c.x ≠ c.y → c'.diffInv = c.diffInv))) ∧
      (c.mult = 0 → (({ T with timestampLt := T.timestampLt.set k c' } :
        TraceSet Felt).Accepted P ↔ c'.eval ∧ c'.mult = 0)) := by
  constructor
  · intro c c' hc
    have heval := h.eval.u32Lt c (List.mem_of_getElem? hc)
    rw [accepted_set_u32Lt_iff h hc]
    refine ⟨fun hne => ⟨?_, fun ⟨hrow, hinverses⟩ => ?_⟩, fun hzero => ?_⟩
    · rintro ⟨heval', hmult, hwords, -⟩
      obtain ⟨hx, hy⟩ := hwords hne
      exact u32LessThan_unique heval heval' hx hy hmult
    · rw [hrow]
      exact ⟨u32LessThan_eval_of_inverses heval hinverses, rfl, fun _ => ⟨rfl, rfl⟩, rfl⟩
    · simp [hzero]
  · intro c c' hc
    have heval := h.eval.timestampLt c (List.mem_of_getElem? hc)
    rw [accepted_set_timestampLt_iff h hc]
    refine ⟨fun hne => ⟨?_, fun ⟨hrow, hinv⟩ => ?_⟩, fun hzero => ?_⟩
    · rintro ⟨heval', hmult, hoperands⟩
      obtain ⟨hx, hy⟩ := hoperands hne
      exact timestampLessThan_unique heval heval' hx hy hmult
    · rw [hrow]
      exact ⟨timestampLessThan_eval_of_diffInv heval hinv, rfl, fun _ => ⟨rfl, rfl⟩⟩
    · simp [hzero]

/-- A padding row of the word comparisons of a LUI step, received once. -/
theorem comparison_row_pinned_lui :
    let T := carriedTraces ⟨id, id, 0, 0, 0⟩ 0
    let c : U32LessThanColumns Felt := { u32LessThanPadding with mult := 1 }
    ({ T with u32Lt := T.u32Lt.set 0 c } : TraceSet Felt).Accepted ⟨id, id, 0, 0, 0⟩ ↔
      c.eval ∧ c.mult = 0 ∧ comparedLimbs c = comparedLimbs u32LessThanPadding :=
  ((comparison_row_pinned ⟨id, id, 0, 0, 0⟩ (carriedTraces ⟨id, id, 0, 0, 0⟩ 0) 0
    (carriedTraces_accepted _ (.inl rfl))).1 u32LessThanPadding _ rfl).2 rfl

end Loquela.Soundness
