import Loquela.Completeness.Comparisons

/-! # Comparing addresses

`U32LessThanAir` against its byte table, on its own: whatever the multiplicities of the table, a
balanced `bytes_lt` bus makes every row an exact comparison, and the rows built for ordered words
satisfy the constraints and ask only for pairs the table holds.
-/

namespace Loquela.Completeness
open Air Library Library.Bus Soundness Trace
open Vm (U32)

/-- At the most significant limb where the words differ both limbs are bytes, in order. -/
def BytesPrecede (x y : Limbs Felt) : Prop :=
  ∃ i, (x i).val < (y i).val ∧ (y i).val < 256 ∧ ∀ j, i < j → x j = y j

theorem bytesPrecede_irrefl (x : Limbs Felt) : ¬ BytesPrecede x x := by
  rintro ⟨i, hlt, -⟩
  exact lt_irrefl _ hlt

theorem BytesPrecede.trans {x y z : Limbs Felt} (hxy : BytesPrecede x y) (hyz : BytesPrecede y z) :
    BytesPrecede x z := by
  obtain ⟨i, hi, hibyte, hiabove⟩ := hxy
  obtain ⟨j, hj, hjbyte, hjabove⟩ := hyz
  rcases lt_trichotomy i j with hij | rfl | hij
  · refine ⟨j, ?_, hjbyte, fun k hk => (hiabove k (hij.trans hk)).trans (hjabove k hk)⟩
    rwa [hiabove j hij]
  · exact ⟨i, hi.trans hj, hjbyte, fun k hk => (hiabove k hk).trans (hjabove k hk)⟩
  · refine ⟨i, ?_, ?_, fun k hk => (hiabove k hk).trans (hjabove k (hij.trans hk))⟩
    · rwa [← hjabove i hij]
    · rwa [← hjabove i hij]

instance : IsStrictOrder (Limbs Felt) BytesPrecede where
  irrefl := bytesPrecede_irrefl
  trans _ _ _ := BytesPrecede.trans

/-- The flag of a row tells an equal pair from one in order. -/
def ComparesWords (c : U32LessThanColumns Felt) : Prop :=
  c.isEqual = 1 ∧ c.x = c.y ∨ c.isEqual = 0 ∧ BytesPrecede c.x c.y

variable {rows : List (U32LessThanColumns Felt)} {mult : ℕ → Felt}

theorem comparesWords (heval : ∀ c ∈ rows, c.eval)
    (hsends : (selected .send .bytesLt (comparisonLookups rows mult)).length < modulus)
    (hnet : ∀ values, net (comparisonLookups rows mult) .bytesLt values = 0) :
    ∀ c ∈ rows, ComparesWords c := by
  have hlookups : (⟨[], rows, [], mult⟩ : MemoryTables Felt).lookups =
      comparisonLookups rows mult := by
    simp [MemoryTables.lookups, memoryLookups, comparisonLookups]
  intro c hc
  rcases u32LessThan_cases (heval c hc) with h | ⟨hflag, i, hi, hne, habove⟩
  · exact .inl h
  · rw [← hlookups] at hsends hnet
    obtain ⟨hlt, hbyte⟩ := bytesLt_sound heval hsends hnet hc hi hne
    exact .inr ⟨hflag, i, hlt, hbyte, habove⟩

theorem u32LessThanRow_eval (x y : U32) (m : Felt) : (u32LessThanRow x y m).eval := by
  have hflag : ∀ i, (u32LessThanRow x y m).isEquals i =
      if leBytes x i = leBytes y i then 1 else 0 := by
    intro i
    simp [u32LessThanRow, fromBool]
  refine ⟨fun i => ?_, fun i => assertBool_iff.mpr (fromBool_boolean _), ?_⟩
  · rw [hflag]
    by_cases hi : leBytes x i = leBytes y i
    · simp [u32LessThanRow, hi]
    · have hne : (leBytes y i : Felt) - leBytes x i ≠ 0 :=
        natCast_sub_ne_zero ((leBytes_lt y i).trans (by decide))
          ((leBytes_lt x i).trans (by decide)) (Ne.symm hi)
      simp [u32LessThanRow, hi, hne]
  · cases h : highestDifference x y with
    | none =>
      have hsame := highestDifference_none.mp h
      subst hsame
      refine ⟨?_, fun i => ⟨?_, ?_⟩, ?_⟩
      all_goals simp [U32LessThanColumns.multSum, u32LessThanRow, AssertBool, h, fromBool]
    | some i =>
      obtain ⟨hdiffer, habove⟩ := highestDifference_some h
      have hne : x ≠ y := by
        rintro rfl
        exact hdiffer rfl
      have hmult : (u32LessThanRow x y m).multLts = fun j => if j = i then 1 else 0 := by
        funext j
        simp [u32LessThanRow, h, fromBool, eq_comm]
      have hequal : (u32LessThanRow x y m).isEqual = 0 := by
        simp [u32LessThanRow, hne, fromBool]
      have hi : (u32LessThanRow x y m).isEquals i = 0 := by rw [hflag, if_neg hdiffer]
      have hj : ∀ j, i < j → (u32LessThanRow x y m).isEquals j = 1 := by
        intro j hij
        rw [hflag, if_pos (habove j hij)]
      have hsum : (u32LessThanRow x y m).multSum = 1 := by
        rw [U32LessThanColumns.multSum, hmult]
        fin_cases i <;> simp
      refine ⟨by rw [hsum]; simp [AssertBool], fun j => ?_, by rw [hequal, hsum, sub_self]⟩
      -- Above the difference nothing is seen yet, below it the selector is taken.
      rw [U32LessThanColumns.alreadySeen, hmult]
      rcases lt_trichotomy i j with hij | rfl | hij
      · rw [hj j hij]
        fin_cases i <;> fin_cases j <;> simp at hij ⊢
      · rw [hi]
        fin_cases i <;> simp
      · fin_cases i <;> fin_cases j <;> simp at hij ⊢

theorem u32LessThanPadding_eval : (u32LessThanPadding : U32LessThanColumns Felt).eval := by
  decide

theorem buildU32LtWith_eval (entries : List (U32 × U32 × Felt)) :
    ∀ c ∈ buildU32LtWith entries, c.eval := by
  intro c hc
  rcases List.mem_append.mp hc with hc | hc
  · rcases List.mem_map.mp hc with ⟨entry, -, rfl⟩
    exact u32LessThanRow_eval _ _ _
  · rw [List.eq_of_mem_replicate hc]
    exact u32LessThanPadding_eval

/-- Rows built for ordered words ask for pairs of the table, padding rows for none. -/
theorem buildU32LtWith_sends {entries : List (U32 × U32 × Felt)}
    (hle : ∀ entry ∈ entries, entry.1 ≤ entry.2.1) {x : Air.Interaction Felt}
    (hx : x ∈ (buildU32LtWith entries).flatMap U32LessThanColumns.lookups)
    (hbus : x.bus = .bytesLt) (hmult : x.multiplicity ≠ 0) :
    ∃ row ∈ lessThanAir.rows, x.values = row.map Nat.cast := by
  obtain ⟨c, hc, hx⟩ := List.mem_flatMap.mp hx
  rcases List.mem_append.mp hx with hx | hx
  · obtain ⟨i, rfl⟩ := List.mem_ofFn.mp hx
    rcases List.mem_append.mp hc with hc | hc
    · obtain ⟨entry, hentry, rfl⟩ := List.mem_map.mp hc
      have hi : highestDifference entry.1 entry.2.1 = some i := by
        by_contra hne
        apply hmult
        simp [send, u32LessThanRow, hne, fromBool]
      have hlt := highestDifference_lt (hle entry hentry) hi
      exact ⟨_, List.mem_of_getElem? (lessThanAir_getElem? hlt (leBytes_lt _ i)), rfl⟩
    · rw [List.eq_of_mem_replicate hc] at hmult
      exact absurd rfl hmult
  · rw [List.mem_singleton.mp hx] at hbus
    cases hbus

/-- The address comparison is exact: a balanced byte bus forces every row to compare its words,
strictly ordered unless equal, and ordered words are always accepted. -/
theorem addressComparison_exact (rows : List (U32LessThanColumns Felt)) (mult : ℕ → Felt)
    (entries : List (U32 × U32 × Felt)) (heval : ∀ c ∈ rows, c.eval)
    (hnet : ∀ values, net (comparisonLookups rows mult) .bytesLt values = 0)
    (hsends : (selected .send .bytesLt (comparisonLookups rows mult)).length < modulus)
    (hle : ∀ entry ∈ entries, entry.1 ≤ entry.2.1) :
    ((∀ c ∈ rows, ComparesWords c) ∧
      ∃ lt : Limbs Felt → Limbs Felt → Prop, IsStrictOrder (Limbs Felt) lt ∧
        ∀ c ∈ rows, c.isEqual = 0 → lt c.x c.y) ∧
      (∀ c ∈ buildU32LtWith entries, c.eval) ∧
        ∀ x ∈ (buildU32LtWith entries).flatMap U32LessThanColumns.lookups, x.bus = .bytesLt →
          x.multiplicity ≠ 0 → ∃ row ∈ lessThanAir.rows, x.values = row.map Nat.cast := by
  have hcompares := comparesWords heval hsends hnet
  refine ⟨⟨hcompares, BytesPrecede, inferInstance, ?_⟩, buildU32LtWith_eval entries,
    fun x hx => buildU32LtWith_sends hle hx⟩
  intro c hc hflag
  rcases hcompares c hc with ⟨hone, -⟩ | ⟨-, hlt⟩
  · exact absurd (hflag.symm.trans hone) zero_ne_one
  · exact hlt

theorem addressComparison_exact_one_two :
    ((∀ c ∈ buildU32Lt (F := Felt) [(1, 2)], ComparesWords c) ∧
      ∃ lt : Limbs Felt → Limbs Felt → Prop, IsStrictOrder (Limbs Felt) lt ∧
        ∀ c ∈ buildU32Lt (F := Felt) [(1, 2)], c.isEqual = 0 → lt c.x c.y) ∧
      (∀ c ∈ buildU32LtWith [((1 : U32), (2 : U32), (1 : Felt))], c.eval) ∧
        ∀ x ∈ (buildU32LtWith [((1 : U32), (2 : U32), (1 : Felt))]).flatMap
            U32LessThanColumns.lookups, x.bus = .bytesLt → x.multiplicity ≠ 0 →
          ∃ row ∈ lessThanAir.rows, x.values = row.map Nat.cast := by
  have hle : ∀ entry ∈ [((1 : U32), (2 : U32))], entry.1.toNat ≤ entry.2.toNat := by
    intro entry hentry
    rw [List.mem_singleton.mp hentry]
    exact Nat.le_succ 1
  have hsends : selected .send .bytesLt (comparisonLookups (buildU32Lt [(1, 2)])
      (tableMults (bytesLtRows [(1, 2)]))) = bytesTuples 1 2 := by
    rw [comparisonLookups, selected_append, selected_lessThan_eq_nil .send .bytesLt (by decide),
      sends_bytesLt, List.append_nil]
    rfl
  apply addressComparison_exact _ (tableMults (bytesLtRows [(1, 2)])) _ ?_
    (net_comparisonLookups hle) ?_ ?_
  · rw [buildU32Lt_eq]
    exact buildU32LtWith_eval _
  · rw [hsends]
    decide
  · intro entry hentry
    rw [List.mem_singleton.mp hentry]
    exact Nat.le_succ 1

end Loquela.Completeness
