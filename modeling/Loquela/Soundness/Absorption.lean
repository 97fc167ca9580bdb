import Loquela.Soundness.ProgramHash
import Loquela.Trace.ProgramHash

/-! # The absorbed lanes determine the program

A lane packs three bytes below the modulus, so it determines them, and the lanes of all rows with
the length determine the program. What an accepted hash table adds to the states of its real rows
are the lanes of the program made of its active bytes.
-/

namespace Loquela.Soundness
open Air Library Trace
open Vm (Byte)

section Lanes

/-- What `compute_program_digest` adds to rate lane `g` at a row. -/
def lane (program : List Byte) (row : ℕ) (g : Fin 8) : Felt :=
  Host.fromU32 (Host.packLane program (row * 24 + g * 3))

/-- Equal lanes pack equal bytes. -/
theorem byteAt_of_lane {P Q : List Byte} {row : ℕ} {g : Fin 8} (h : lane P row g = lane Q row g)
    (k : ℕ) (hk : k < 3) : Host.byteAt P (row * 24 + g * 3 + k) =
      Host.byteAt Q (row * 24 + g * 3 + k) := by
  have hp := Host.packLane_lt P (row * 24 + g * 3)
  have hq := Host.packLane_lt Q (row * 24 + g * 3)
  have hword := natCast_inj_of_lt (hp.trans (by norm_num)) (hq.trans (by norm_num)) h
  rw [Host.packLane_toNat, Host.packLane_toNat] at hword
  have hP0 := Host.byteAt_lt P (row * 24 + g * 3)
  have hP1 := Host.byteAt_lt P (row * 24 + g * 3 + 1)
  have hQ0 := Host.byteAt_lt Q (row * 24 + g * 3)
  have hQ1 := Host.byteAt_lt Q (row * 24 + g * 3 + 1)
  have hlow : Host.byteAt P (row * 24 + g * 3) = Host.byteAt Q (row * 24 + g * 3) := by omega
  interval_cases k
  · exact hlow
  · omega
  · omega

theorem eq_of_byteAt {P Q : List Byte} (hlength : P.length = Q.length)
    (h : ∀ i < P.length, Host.byteAt P i = Host.byteAt Q i) : P = Q := by
  apply List.ext_getElem hlength
  intro i hi hi'
  have hbyte := h i hi
  rw [Host.byteAt, Host.byteAt, List.getElem?_eq_getElem hi, List.getElem?_eq_getElem hi'] at hbyte
  exact BitVec.toNat_inj.mp hbyte

/-- Byte `i` is in lane `i % 24 / 3` of row `i / 24`. -/
theorem eq_of_lanes {P Q : List Byte} (hlength : P.length = Q.length)
    (h : ∀ row < numRealRows P, ∀ g, lane P row g = lane Q row g) : P = Q := by
  apply eq_of_byteAt hlength
  intro i hi
  have hrow : i / 24 < numRealRows P := by
    rw [numRealRows]
    omega
  have hbyte := byteAt_of_lane (h (i / 24) hrow ⟨i % 24 / 3, by omega⟩) (i % 3) (by omega)
  have hindex : i / 24 * 24 + i % 24 / 3 * 3 + i % 3 = i := by omega
  rwa [hindex] at hbyte

end Lanes

section Input

/-- What is added to the state at every row, the capacity lanes included. -/
def spongeInput (program : List Byte) : List (SpongeState Felt) :=
  (List.range (numRealRows program)).map (Host.absorbRow program 0)

theorem numRealRows_of_input {P Q : List Byte} (h : spongeInput P = spongeInput Q) :
    numRealRows P = numRealRows Q := by
  simpa [spongeInput] using congrArg List.length h

theorem lane_of_input {P Q : List Byte} (h : spongeInput P = spongeInput Q) {row : ℕ}
    (hrow : row < numRealRows P) (g : Fin 8) : lane P row g = lane Q row g := by
  have hrows := numRealRows_of_input h
  have hstate := congrArg (fun l => l[row]?) h
  simp only [spongeInput, List.getElem?_map, List.getElem?_range hrow,
    List.getElem?_range (hrows ▸ hrow), Option.map_some, Option.some.injEq] at hstate
  have hlane := congrFun hstate (g.castLE rate_le)
  have hrate : ((g.castLE rate_le : Fin 16) : ℕ) < 8 := g.isLt
  rw [Host.absorbRow, Host.absorbRow, if_pos hrate, if_pos hrate, Pi.zero_apply, zero_add,
    zero_add] at hlane
  exact hlane

/-- The number of rows leaves the length open by less than 24, and its residue fixes it. -/
theorem length_of_input {P Q : List Byte} (h : spongeInput P = spongeInput Q)
    (hlength : (P.length : Felt) = (Q.length : Felt)) : P.length = Q.length := by
  have hrows := numRealRows_of_input h
  have hmod := (ZMod.natCast_eq_natCast_iff' _ _ modulus).mp hlength
  rw [numRealRows, numRealRows] at hrows
  rw [modulus] at hmod
  omega

theorem eq_of_input {P Q : List Byte} (h : spongeInput P = spongeInput Q)
    (hlength : (P.length : Felt) = (Q.length : Felt)) : P = Q :=
  eq_of_lanes (length_of_input h hlength) fun _ hrow g => lane_of_input h hrow g

theorem spongeInput_step {program : List Byte} (h : program ≠ []) : spongeInput program =
    absorb 0 (chunk program 0) :: spongeInput (program.drop 24) := by
  rw [spongeInput, spongeInput, numRealRows, numRealRows, rows_drop h, List.range_succ_eq_map,
    List.map_cons, List.map_map]
  congr 1
  · rw [Host.absorbRow_eq, Nat.zero_mul]
  · apply List.map_congr_left
    intro row _
    rw [Function.comp_apply, Host.absorbRow_eq, Host.absorbRow_eq, ← chunk_drop]

end Input

section Table

/-- What goes into the permutation of every real row, less the state of the row below it. -/
def absorbedLanes (rows : List (ProgramHashColumns Felt)) : List (SpongeState Felt) :=
  ((rows.zip (rows.rotate 1)).filter fun q => q.1.flag = 1).map fun q => q.1.permIn - q.2.state

variable {c : ProgramHashColumns Felt} {rest rows : List (ProgramHashColumns Felt)}

theorem zip_rotate (c : ProgramHashColumns Felt) (rest : List (ProgramHashColumns Felt)) :
    (c :: rest).zip ((c :: rest).rotate 1) =
      (c :: rest).zip rest ++ [((c :: rest).getLast (List.cons_ne_nil _ _), c)] := by
  have hzip : ∀ (a b : ProgramHashColumns Felt) (l : List (ProgramHashColumns Felt)),
      (a :: l).zip (l ++ [b]) = (a :: l).zip l ++ [((a :: l).getLast (List.cons_ne_nil _ _), b)] := by
    intro a b l
    induction l generalizing a with
    | nil => rfl
    | cons a' l ih =>
      rw [List.cons_append, List.zip_cons_cons, ih, List.zip_cons_cons, List.getLast_cons_cons,
        List.cons_append]
  rw [List.rotate_cons_succ, List.rotate_zero]
  exact hzip c c rest

/-- The last row is padding, so no real row is followed by the first one. -/
theorem absorbedLanes_cons (h : Linked (c :: rest)) : absorbedLanes (c :: rest) =
    (((c :: rest).zip rest).filter fun q => q.1.flag = 1).map fun q => q.1.permIn - q.2.state := by
  have hlast := (h.last _ (List.getLast?_eq_some_getLast (List.cons_ne_nil c rest))).1
  rw [absorbedLanes, zip_rotate, List.filter_append,
    List.filter_cons_of_neg (by rw [decide_eq_true_eq, hlast]; exact zero_ne_one),
    List.filter_nil, List.append_nil]

/-- Where nothing is absorbed there are no real rows. -/
theorem flag_of_hashBytes (h : Linked (c :: rest)) (hnil : hashBytes (c :: rest) = []) :
    ∀ r ∈ c :: rest, r.flag ≠ 1 := by
  induction rest generalizing c with
  | nil =>
    intro r hr
    rw [List.mem_singleton.mp hr, (h.last c rfl).1]
    exact zero_ne_one
  | cons c' rest ih =>
    rw [hashBytes_cons, List.append_eq_nil_iff] at hnil
    intro r hr
    rcases List.mem_cons.mp hr with rfl | hr
    · intro hflag
      exact absorbed_ne_nil h.step.1 hflag hnil.1
    · exact ih h.tail hnil.2 r hr

theorem absorb_sub (state : SpongeState Felt) (bytes : Fin 24 → Felt) :
    absorb state bytes - state = absorb 0 bytes := by
  funext g
  rw [Pi.sub_apply, absorb, absorb, Pi.zero_apply]
  split_ifs
  · rw [add_sub_cancel_left, zero_add]
  · exact sub_self _

/-- From every row on, the real rows absorb the input of the bytes from there on. -/
theorem absorbed_eq_input (h : Linked (c :: rest)) {bytes : List Byte}
    (hbytes : hashBytes (c :: rest) = bytes.map fun b => (b.toNat : Felt)) :
    (((c :: rest).zip rest).filter fun q => q.1.flag = 1).map (fun q => q.1.permIn - q.2.state) =
      spongeInput bytes := by
  induction rest generalizing c bytes with
  | nil =>
    rw [hashBytes_eq_nil h (h.last c rfl).1] at hbytes
    rw [List.map_eq_nil_iff.mp hbytes.symm]
    rfl
  | cons c' rest ih =>
    obtain ⟨hrow, -⟩ := h.step
    rcases assertBool_iff.mp hrow.1 with hflag | hflag
    · have hnil := hashBytes_eq_nil h hflag
      have hnone : ((c :: c' :: rest).zip (c' :: rest)).filter (fun q => q.1.flag = 1) = [] := by
        apply List.filter_eq_nil_iff.mpr
        intro q hq
        rw [decide_eq_true_eq]
        exact flag_of_hashBytes h hnil q.1 (List.of_mem_zip hq).1
      rw [hnil] at hbytes
      rw [hnone, List.map_eq_nil_iff.mp hbytes.symm]
      rfl
    · obtain ⟨hne, hchunk, hbelow⟩ := head_chunk h hflag hbytes
      rw [List.zip_cons_cons, List.filter_cons_of_pos (by exact decide_eq_true hflag),
        List.map_cons, ih h.tail hbelow, spongeInput_step hne, permIn_eq hrow hflag, absorb_sub,
        hchunk]

/-- The active bytes of a table as a program. -/
theorem exists_program (hrange : ∀ c ∈ rows, ∀ i, c.isActive i = 1 → (c.bytes i).val < 256) :
    ∃ program : List Byte, hashBytes rows = program.map fun b => (b.toNat : Felt) := by
  have hmem : hashBytes rows ∈ Set.range (List.map fun b : Byte => (b.toNat : Felt)) := by
    rw [Set.range_list_map]
    intro v hv
    obtain ⟨c, hc, hv⟩ := List.mem_flatMap.mp hv
    obtain ⟨i, hi, rfl⟩ := List.mem_map.mp hv
    have hbyte := hrange c hc i (of_decide_eq_true (List.mem_filter.mp hi).2)
    refine ⟨BitVec.ofNat 8 (c.bytes i).val, ?_⟩
    show ((BitVec.ofNat 8 (c.bytes i).val).toNat : Felt) = c.bytes i
    rw [BitVec.toNat_ofNat, Nat.mod_eq_of_lt hbyte, ZMod.natCast_zmod_val]
  obtain ⟨program, hprogram⟩ := hmem
  exact ⟨program, hprogram.symm⟩

/-- The public length is the number of active bytes. -/
theorem publicLength_eq {pub : PublicValues Felt} (hrows : rows ≠ [])
    (h : programHashEval rows pub) : pub.length = ((hashBytes rows).length : Felt) := by
  obtain ⟨c, rest, rfl⟩ := List.exists_cons_of_ne_nil hrows
  have hlink := Linked.of_eval h
  obtain ⟨-, hfirst, hlast, -⟩ := h
  have hmem := List.getLast?_eq_some_getLast (List.cons_ne_nil c rest)
  have hsum := cumActive_last hlink hmem
  rw [(hlast _ hmem).2, (hfirst c rfl).2.1] at hsum
  linear_combination hsum

end Table

/-- The lanes of all rows with the length encode a program injectively, and what an accepted table
absorbs at its real rows is the encoding of its active bytes. -/
theorem canonical_absorption :
    (∀ P Q : List Byte, P.length = Q.length →
      (∀ row < numRealRows P, ∀ g, lane P row g = lane Q row g) → P = Q) ∧
    (∀ (rows : List (ProgramHashColumns Felt)) (pub : PublicValues Felt), rows ≠ [] →
      programHashEval rows pub →
      (∀ c ∈ rows, ∀ i, c.isActive i = 1 → (c.bytes i).val < 256) →
      ∃ program : List Byte, hashBytes rows = program.map (fun b => (b.toNat : Felt)) ∧
        absorbedLanes rows = spongeInput program ∧ pub.length = (program.length : Felt) ∧
        ∀ Q, absorbedLanes rows = spongeInput Q → pub.length = (Q.length : Felt) → Q = program) ∧
    Function.Injective fun program : List Byte => ((program.length : Felt), spongeInput program) := by
  have hinjective : Function.Injective fun program : List Byte =>
      ((program.length : Felt), spongeInput program) := by
    intro P Q h
    obtain ⟨hlength, hinput⟩ := Prod.mk.inj h
    exact eq_of_input hinput hlength
  refine ⟨fun P Q => eq_of_lanes, ?_, hinjective⟩
  intro rows pub hrows heval hrange
  obtain ⟨program, hprogram⟩ := exists_program hrange
  have hlanes : absorbedLanes rows = spongeInput program := by
    obtain ⟨c, rest, rfl⟩ := List.exists_cons_of_ne_nil hrows
    rw [absorbedLanes_cons (.of_eval heval)]
    exact absorbed_eq_input (.of_eval heval) hprogram
  have hlength : pub.length = (program.length : Felt) := by
    rw [publicLength_eq hrows heval, hprogram, List.length_map]
  refine ⟨program, hprogram, hlanes, hlength, ?_⟩
  intro Q hQ hQlength
  exact hinjective (Prod.ext (hQlength.symm.trans hlength) (hQ.symm.trans hlanes))

/-- The table over four bytes. -/
theorem canonical_absorption_addi :
    let T := addiTables ⟨id, id, 0, 0, 0⟩
    ∃ program : List Byte, hashBytes T.programHash = program.map (fun b => (b.toNat : Felt)) ∧
      absorbedLanes T.programHash = spongeInput program ∧
      T.publicValues.length = (program.length : Felt) ∧
      ∀ Q, absorbedLanes T.programHash = spongeInput Q →
        T.publicValues.length = (Q.length : Felt) → Q = program := by
  intro T
  apply canonical_absorption.2.1 T.programHash T.publicValues (List.cons_ne_nil _ _)
  · exact (addiTables_eval ⟨id, id, 0, 0, 0⟩).2.1
  · intro c hc i hactive
    rcases List.mem_cons.mp hc with rfl | hc
    · have hbytes : ∀ i : Fin 24, (chunk (F := Felt) addiBytes 0 i).val < 256 := by decide
      exact hbytes i
    · have hpadding : c.isActive i = 0 := by
        rcases List.mem_cons.mp hc with rfl | hc
        · rfl
        · rcases List.mem_cons.mp hc with rfl | hc
          · rfl
          · rw [List.mem_singleton.mp hc]
            rfl
      rw [hpadding] at hactive
      exact absurd hactive zero_ne_one

end Loquela.Soundness
