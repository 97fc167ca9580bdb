import Loquela.Soundness.Collision
import Loquela.Soundness.Execution

/-! # The program hash table is determined

The ROM leaves no choice in the program hash table: its rows are those `build_trace` fills in for
the program in ROM, up to the permutation columns of the padding rows, which nothing reads.
-/

namespace Loquela.Soundness
open Air Completeness Library Library.Bus Trace
open Vm (Byte)

variable {P : Poseidon2 Felt} {B : List Byte} {k : ℕ} {c next : ProgramHashColumns Felt}
  {rest : List (ProgramHashColumns Felt)}

/-- The byte columns of a row that absorbs row `k` of the program. -/
def Absorbs (B : List Byte) (k : ℕ) (c : ProgramHashColumns Felt) : Prop :=
  absorbed c = ((B.drop (k * 24)).take 24).map fun b => (b.toNat : Felt)

theorem absorbs_of_linked (h : Linked (c :: rest))
    (hbytes : hashBytes (c :: rest) = (B.drop (k * 24)).map fun b => (b.toNat : Felt)) :
    Absorbs B k c ∧ hashBytes rest = (B.drop ((k + 1) * 24)).map fun b => (b.toNat : Felt) := by
  have hnext : (B.drop ((k + 1) * 24)).map (fun b => (b.toNat : Felt)) =
      (hashBytes (c :: rest)).drop 24 := by
    rw [hbytes, ← List.map_drop, List.drop_drop, Nat.succ_mul]
  rw [Absorbs, hnext, List.map_take, ← hbytes, hashBytes_cons]
  rcases hashBytes_nil_or_full h with hnil | hfull
  · rw [hnil, List.append_nil, List.take_of_length_le length_absorbed_le,
      List.drop_eq_nil_of_le length_absorbed_le]
    exact ⟨rfl, rfl⟩
  · exact ⟨(List.take_left' hfull).symm, (List.drop_left' hfull).symm⟩

theorem length_of_absorbs (h : Absorbs B k c) : (absorbed c).length = min 24 (B.length - k * 24) := by
  rw [h, List.length_map, List.length_take, List.length_drop]

theorem isActive_of_absorbs (hrow : c.evalRow next) (h : Absorbs B k c) (i : Fin 24) :
    c.isActive i = if k * 24 + i < B.length then 1 else 0 := by
  have hactive := isActive_iff hrow i
  rw [length_of_absorbs h] at hactive
  have hi := i.isLt
  split_ifs with hlt
  · exact hactive.mpr (by omega)
  · exact (assertBool_iff.mp (hrow.2.1 i)).resolve_right fun hone => hlt (by
      have := hactive.mp hone
      omega)

theorem bytes_of_absorbs (hrow : c.evalRow next) (h : Absorbs B k c) :
    c.bytes = chunk B (k * 24) := by
  funext i
  rw [bytes_eq_getD hrow, h, List.getElem?_map, List.getElem?_take_of_lt i.isLt, List.getElem?_drop,
    chunk]
  cases B[k * 24 + (i : ℕ)]? <;> rfl

theorem flag_of_absorbs (hrow : c.evalRow next) (h : Absorbs B k c) :
    c.flag = if k < numRealRows B then 1 else 0 := by
  rw [← hrow.2.2.2.2.1, isActive_of_absorbs hrow h]
  apply if_congr _ rfl rfl
  rw [numRealRows]
  simp only [Fin.val_zero]
  omega

theorem real_of_flag (hrow : c.evalRow next) (h : Absorbs B k c) (hflag : c.flag = 1) :
    k < numRealRows B := by
  by_contra hpadding
  rw [flag_of_absorbs hrow h, if_neg hpadding] at hflag
  exact zero_ne_one hflag

theorem flag_of_real (hrow : c.evalRow next) (h : Absorbs B k c) (hreal : k < numRealRows B) :
    c.flag = 1 := by
  rw [flag_of_absorbs hrow h, if_pos hreal]

theorem state_of_flag (hrow : c.evalRow next) (h : Absorbs B k c) (hflag : c.flag = 0) :
    c.state = stateFrom P.permute B k := by
  have hpadding : numRealRows B ≤ k := by
    by_contra hreal
    exact zero_ne_one (hflag.symm.trans (flag_of_real hrow h (not_le.mp hreal)))
  rw [stateFrom_of_padding P.permute B hpadding]
  funext i
  simpa [hflag] using hrow.2.2.2.2.2.2.1 i

/-- The states run through the sponge from the bottom up. -/
theorem state_eq_stateFrom (h : Linked (c :: rest))
    (hperm : ∀ r ∈ c :: rest, r.flag = 1 → r.permOut = P.permute r.permIn)
    (hbytes : hashBytes (c :: rest) = (B.drop (k * 24)).map fun b => (b.toNat : Felt)) :
    c.state = stateFrom P.permute B k := by
  obtain ⟨habsorbs, hbelow⟩ := absorbs_of_linked h hbytes
  induction rest generalizing c k with
  | nil =>
    obtain ⟨next, hrow⟩ := h.evalRow
    exact state_of_flag hrow habsorbs (h.last c rfl).1
  | cons c' rest ih =>
    obtain ⟨hrow, -⟩ := h.step
    rcases assertBool_iff.mp hrow.1 with hflag | hflag
    · exact state_of_flag hrow habsorbs hflag
    · obtain ⟨habsorbs', hbelow'⟩ := absorbs_of_linked h.tail hbelow
      have ih := ih h.tail (fun r hr => hperm r (.tail _ hr)) hbelow habsorbs' hbelow'
      rw [stateFrom_of_real P.permute B (real_of_flag hrow habsorbs hflag), Host.absorbRow_eq,
        ← ih, ← bytes_of_absorbs hrow habsorbs, ← permIn_eq hrow hflag,
        state_eq_permOut hrow hflag]
      exact hperm c List.mem_cons_self hflag

/-- The row the prover fills in, with the permutation columns left open in padding. -/
def HashRowOf (P : Poseidon2 Felt) (B : List Byte) (k : ℕ) (c : ProgramHashColumns Felt) : Prop :=
  (k < numRealRows B → c = hashRow P B k) ∧
    (numRealRows B ≤ k → c = { hashRow P B k with permIn := c.permIn, permOut := c.permOut })

theorem hashRowOf (hlength : B.length < 2 ^ 32) (hk : k * 24 < 2 ^ 32) (hrow : c.evalRow next)
    (habsorbs : Absorbs B k c) (hstate : c.state = stateFrom P.permute B k)
    (hnext : k < numRealRows B → next.state = stateFrom P.permute B (k + 1))
    (hbase : c.baseAddr = ((k * 24 : ℕ) : Felt))
    (hcum : c.cumActive = ((min ((k + 1) * 24) B.length : ℕ) : Felt)) : HashRowOf P B k c := by
  have hopen : c = { hashRow P B k with permIn := c.permIn, permOut := c.permOut } := by
    rw [← hashRow_permute P hlength hk]
    obtain ⟨state, bytes, baseAddr, isActive, flag, cumActive, permIn, permOut⟩ := c
    rw [ProgramHashColumns.mk.injEq]
    refine ⟨?_, ?_, ?_, ?_, ?_, ?_, rfl, rfl⟩
    · exact hstate.trans (row_state P.permute B k).symm
    · exact (bytes_of_absorbs hrow habsorbs).trans (row_bytes P.permute B k).symm
    · exact hbase.trans (row_baseAddr P.permute B hk).symm
    · funext i
      exact (isActive_of_absorbs hrow habsorbs i).trans (row_isActive P.permute B k i).symm
    · exact (flag_of_absorbs hrow habsorbs).trans (row_flag P.permute B k).symm
    · exact hcum.trans (row_cumActive P.permute B k hlength).symm
  refine ⟨fun hreal => ?_, fun _ => hopen⟩
  have hflag := flag_of_real hrow habsorbs hreal
  have hin : c.permIn = (hashRow P B k).permIn := by
    rw [← hashRow_permute P hlength hk, row_permIn P.permute B hreal, permIn_eq hrow hflag,
      hnext hreal, bytes_of_absorbs hrow habsorbs]
  have hout : c.permOut = (hashRow P B k).permOut := by
    rw [← hashRow_permute P hlength hk, row_permOut, ← state_eq_permOut hrow hflag, hstate]
  rw [hopen, hin, hout]

/-- From a row on, the rows of the table are those of the program. -/
theorem hashRows_of_linked (h : Linked (c :: rest)) (hlength : B.length < 2 ^ 32)
    (hk : (k + rest.length) * 24 < 2 ^ 32)
    (hperm : ∀ r ∈ c :: rest, r.flag = 1 → r.permOut = P.permute r.permIn)
    (hbytes : hashBytes (c :: rest) = (B.drop (k * 24)).map fun b => (b.toNat : Felt))
    (hbase : c.baseAddr = ((k * 24 : ℕ) : Felt))
    (hcum : c.cumActive = ((min ((k + 1) * 24) B.length : ℕ) : Felt)) :
    ∀ j d, (c :: rest)[j]? = some d → HashRowOf P B (k + j) d := by
  obtain ⟨habsorbs, hbelow⟩ := absorbs_of_linked h hbytes
  have hstate := state_eq_stateFrom h hperm hbytes
  induction rest generalizing c k with
  | nil =>
    intro j d hd
    obtain ⟨next, hrow⟩ := h.evalRow
    cases j with
    | zero =>
      obtain rfl : c = d := Option.some.inj hd
      apply hashRowOf hlength (by omega) hrow habsorbs hstate _ hbase hcum
      intro hreal
      exact absurd ((h.last c rfl).1.symm.trans (flag_of_real hrow habsorbs hreal)) zero_ne_one
    | succ j => cases hd
  | cons c' rest ih =>
    obtain ⟨hrow, -, -, hbase', hcum'⟩ := h.step
    obtain ⟨habsorbs', hbelow'⟩ := absorbs_of_linked h.tail hbelow
    obtain ⟨next, hrow'⟩ := h.tail.evalRow
    have hperm' : ∀ r ∈ c' :: rest, r.flag = 1 → r.permOut = P.permute r.permIn :=
      fun r hr => hperm r (.tail _ hr)
    have hstate' := state_eq_stateFrom h.tail hperm' hbelow
    rw [List.length_cons] at hk
    intro j d hd
    cases j with
    | zero =>
      obtain rfl : c = d := Option.some.inj hd
      exact hashRowOf hlength (by omega) hrow habsorbs hstate (fun _ => hstate') hbase hcum
    | succ j =>
      have hsucc : k + (j + 1) = k + 1 + j := by omega
      rw [hsucc]
      refine ih h.tail (by omega) hperm' hbelow ?_ ?_ habsorbs' hbelow' hstate' j d hd
      · rw [hbase', hbase, Nat.succ_mul, Nat.cast_add, Nat.cast_ofNat]
      · rw [hcum', hcum, rowSum_eq hrow', length_of_absorbs habsorbs', ← Nat.cast_add]
        congr 1
        omega

theorem holding_unique {program : List (ProgramColumns Felt)} {B' : List Byte}
    (h : Holding program B) (h' : Holding program B') : B = B' := by
  have hinjective : Function.Injective fun b : Byte => (b.toNat : Felt) := by
    intro a b hab
    have hlarge : 2 ^ 8 < modulus := by norm_num
    have ha := a.isLt
    have hb := b.isLt
    exact BitVec.eq_of_toNat_eq (natCast_inj_of_lt (by omega) (by omega) hab)
  exact List.map_injective_iff.mpr hinjective (h.symm.trans h')

/-- The ROM of an accepted trace set determines the program hash table and the public values: the
rows are those `build_trace` computes for the program in ROM, whose digest and length are public. -/
theorem program_hash_pinned (P : Poseidon2 Felt) (T : TraceSet Felt) (B : List Byte)
    (h : T.Accepted P) (hne : T.programHash ≠ []) (hrom : Holding T.program B) :
    T.programHashPublicValues = publicValues P B ∧
      ∀ (k : ℕ) (c : ProgramHashColumns Felt), T.programHash[k]? = some c → HashRowOf P B k c := by
  have heval := hashTables_eval h
  have hcount := hashTables_length h
  have hbalanced := hashTables_balanced h
  have hheight := program_length_lt h
  have hbytes : hashBytes T.programHash = B.map fun b => (b.toNat : Felt) :=
    ((hashTables T).romBytes_eq heval hheight hcount hbalanced).symm.trans hrom
  have hperm : ∀ r ∈ T.programHash, r.flag = 1 → r.permOut = P.permute r.permIn :=
    (hashTables T).permOut_eq heval hcount hbalanced
  have hlength : B.length < modulus := (length_le_of_holding hrom).trans_lt hheight
  constructor
  · obtain ⟨B', hrom', -, hvalues⟩ := exists_program_of_accepted h hne
    rw [hvalues, holding_unique hrom' hrom]
  · obtain ⟨c, rest, hrows⟩ := List.exists_cons_of_ne_nil hne
    have hlink : Linked (c :: rest) := hrows ▸ .of_eval h.eval.programHash
    obtain ⟨hbase, hcum, -⟩ := h.eval.programHash.2.1 c (by rw [hrows]; rfl)
    rw [hrows] at hperm hbytes hcount ⊢
    obtain ⟨next, hrow⟩ := hlink.evalRow
    have hbytes : hashBytes (c :: rest) = (B.drop (0 * 24)).map fun b => (b.toNat : Felt) := hbytes
    obtain ⟨habsorbs, -⟩ := absorbs_of_linked hlink hbytes
    have hlarge : modulus < 2 ^ 32 := by norm_num
    rw [List.length_cons] at hcount
    intro k d hd
    rw [← Nat.zero_add k]
    apply hashRows_of_linked hlink (by omega) (by omega) hperm hbytes _ _ k d hd
    · rw [hbase, Nat.zero_mul, Nat.cast_zero]
    · rw [hcum, rowSum_eq hrow, length_of_absorbs habsorbs]
      rfl

/-- The hash table of a LUI step. -/
theorem program_hash_pinned_lui :
    let P : Poseidon2 Felt := ⟨id, id, 0, 0, 0⟩
    let T := carriedTraces P 0
    T.programHashPublicValues = publicValues P luiProgram ∧
      ∀ (k : ℕ) (c : ProgramHashColumns Felt), T.programHash[k]? = some c →
        HashRowOf P luiProgram k c :=
  program_hash_pinned ⟨id, id, 0, 0, 0⟩ (carriedTraces ⟨id, id, 0, 0, 0⟩ 0) luiProgram
    (carriedTraces_accepted _ (.inl rfl)) (List.cons_ne_nil _ _) (carriedTraces_holding 0)

end Loquela.Soundness
