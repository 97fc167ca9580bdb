import Loquela.Completeness.Multiplicities
import Loquela.Completeness.Fetch
import Loquela.Trace.ProgramHash

/-! # The program hash of a program is accepted

The table built for a program satisfies its constraints, whatever the permutation is, with the
digest and the length of the program as public values. Its `program_image` bus carries the bytes
of the program, each under its position, which is what the ROM receives.
-/

namespace Loquela.Completeness
open Air Library Library.Bus Soundness Trace
open Vm (Byte ExecutionStep U32)

section Counting

theorem countP_range_lt (m k : ℕ) : (List.range m).countP (· < k) = min m k := by
  induction m with
  | zero => simp
  | succ m ih =>
    rw [List.range_succ, List.countP_append, ih, List.countP_singleton]
    by_cases h : m < k
    · simp only [h, decide_true, if_true]
      omega
    · simp only [h, decide_false, Bool.false_eq_true, if_false]
      omega

theorem activeCount_eq (program : List Byte) (row : ℕ) :
    activeCount program row = min 24 (program.length - row * 24) := by
  rw [activeCount, ← countP_range_lt]
  apply List.countP_congr
  intro i _
  simp only [decide_eq_true_eq]
  omega

/-- The rows of the hash table count every byte of the program once. -/
theorem sum_activeCount (program : List Byte) (n : ℕ) :
    ((List.range n).map (activeCount program)).sum = min (n * 24) program.length := by
  induction n with
  | zero => simp
  | succ n ih =>
    rw [List.range_succ, List.map_append, List.sum_append, ih, List.map_singleton,
      List.sum_singleton, activeCount_eq]
    omega

/-- A loop that counts on a word. -/
theorem foldl_count {A : Type*} (p : A → Prop) [DecidablePred p] (l : List A) (acc : U32) :
    l.foldl (fun acc a => if p a then acc + 1 else acc) acc =
      acc + BitVec.ofNat 32 (l.countP fun a => p a) := by
  induction l generalizing acc with
  | nil => simp
  | cons a l ih =>
    rw [List.foldl_cons, ih, List.countP_cons, BitVec.ofNat_add]
    by_cases ha : p a
    · simp only [ha, if_true, decide_true]
      rw [BitVec.add_assoc, BitVec.add_comm 1]
      rfl
    · simp [ha]

theorem foldl_add_ofNat {A : Type*} (f : A → ℕ) (l : List A) (acc : U32) :
    l.foldl (fun acc a => acc + BitVec.ofNat 32 (f a)) acc =
      acc + BitVec.ofNat 32 (l.map f).sum := by
  induction l generalizing acc with
  | nil => simp
  | cons a l ih =>
    rw [List.foldl_cons, ih, List.map_cons, List.sum_cons, BitVec.ofNat_add, BitVec.add_assoc]

theorem cumActive_eq (program : List Byte) (r : ℕ) :
    Host.cumActive program r = BitVec.ofNat 32 (min ((r + 1) * 24) program.length) := by
  have hrow : ∀ (r : ℕ) (acc : U32), (List.range 24).foldl (fun acc i =>
      if r < numRealRows program ∧ r * 24 + i < program.length then acc + 1 else acc) acc =
        acc + BitVec.ofNat 32 (activeCount program r) := by
    intro r acc
    have hcount : (List.range 24).countP (fun i =>
        decide (r < numRealRows program ∧ r * 24 + i < program.length)) =
          activeCount program r := by
      apply List.countP_congr
      intro i hi
      rw [decide_eq_true_eq, decide_eq_true_eq]
      exact and_iff_right_of_imp fun hlt => real_of_active hlt (List.mem_range.mp hi)
    rw [foldl_count, hcount]
  rw [Host.cumActive]
  simp only [hrow]
  rw [foldl_add_ofNat, sum_activeCount]
  exact BitVec.zero_add _

end Counting

section Row

variable {F : Type*} [Field F] (permute : SpongeState F → SpongeState F) (program : List Byte)

/-- The state of the sponge over the bytes from a row on. -/
def stateFrom (r : ℕ) : SpongeState F :=
  Sponge.state (Host.absorbRow program) permute 0 ((List.range (numRealRows program)).drop r)

theorem stateFrom_of_real {r : ℕ} (hr : r < numRealRows program) : stateFrom permute program r =
    permute (Host.absorbRow program (stateFrom permute program (r + 1)) r) := by
  have hlength : r < (List.range (numRealRows program)).length := by rwa [List.length_range]
  rw [stateFrom, Sponge.state_drop hlength, List.getElem_range]
  rfl

theorem stateFrom_of_padding {r : ℕ} (hr : numRealRows program ≤ r) :
    stateFrom permute program r = 0 := by
  rw [stateFrom, List.drop_eq_nil_of_le]
  · rfl
  · rwa [List.length_range]

theorem sponge_eq_stateFrom : Host.sponge permute program = stateFrom permute program 0 :=
  Host.sponge_eq_state permute program

theorem row_state (r : ℕ) : (Host.row permute program r).state = stateFrom permute program r :=
  Sponge.getD_passes_snd _ _

theorem row_permOut (r : ℕ) : (Host.row permute program r).permOut = stateFrom permute program r :=
  Sponge.getD_passes_snd _ _

theorem row_permIn {r : ℕ} (hr : r < numRealRows program) : (Host.row permute program r).permIn =
    absorb (stateFrom permute program (r + 1)) (chunk program (r * 24)) := by
  have hlength : r < (List.range (numRealRows program)).length := by rwa [List.length_range]
  have hpass : (Sponge.passes (Host.absorbRow program) permute 0
      (List.range (numRealRows program))).2[r]? = some _ := Sponge.getElem?_passes hlength
  rw [← Host.absorbRow_eq]
  show ((Host.spongePass permute program).2[r]?.map Prod.fst).getD 0 = _
  rw [Host.spongePass_eq_passes, hpass, List.getElem_range]
  rfl

theorem row_bytes (r : ℕ) : (Host.row permute program r).bytes = chunk program (r * 24) := by
  funext i
  show (if r < numRealRows program then _ else 0) = _
  split_ifs with hr
  · rfl
  · rw [chunk, List.getElem?_eq_none]
    rw [numRealRows] at hr
    omega

theorem row_isActive (r : ℕ) (i : Fin 24) : (Host.row permute program r).isActive i =
    if r * 24 + i < program.length then 1 else 0 :=
  if_congr (and_iff_right_of_imp fun hi => real_of_active hi i.isLt) rfl rfl

theorem row_flag (r : ℕ) : (Host.row permute program r).flag =
    if r < numRealRows program then 1 else 0 := rfl

theorem row_baseAddr {r : ℕ} (hr : r * 24 < 2 ^ 32) :
    (Host.row permute program r).baseAddr = ((r * 24 : ℕ) : F) := by
  show ((BitVec.ofNat 32 (r * 24)).toNat : F) = _
  rw [BitVec.toNat_ofNat, Nat.mod_eq_of_lt hr]

theorem row_cumActive (r : ℕ) (hlength : program.length < 2 ^ 32) :
    (Host.row permute program r).cumActive = ((min ((r + 1) * 24) program.length : ℕ) : F) := by
  show ((Host.cumActive program r).toNat : F) = _
  rw [cumActive_eq, BitVec.toNat_ofNat, Nat.mod_eq_of_lt]
  omega

variable [DecidableEq F]

theorem absorbed_row (r : ℕ) : absorbed (Host.row permute program r) =
    ((program.drop (r * 24)).take 24).map fun b => (b.toNat : F) :=
  absorbed_of_chunk (row_isActive permute program r) (row_bytes permute program r)

end Row

section Constraints

variable {F : Type*} [Field F] (permute : SpongeState F → SpongeState F) (program : List Byte)

theorem row_evalRow {r : ℕ} {next : ProgramHashColumns F}
    (hnext : r < numRealRows program → next.state = stateFrom permute program (r + 1)) :
    (Host.row permute program r).evalRow next := by
  refine ⟨?_, ?_, ?_, ?_, ?_, ?_, ?_, ?_, ?_⟩
  · rw [assertBool_iff]
    exact (ite_eq_or_eq _ _ _).symm
  · intro i
    rw [assertBool_iff]
    exact (ite_eq_or_eq _ _ _).symm
  · intro i
    rw [row_isActive, row_isActive, Fin.val_succ, Fin.val_castSucc]
    split_ifs with hsucc hcast
    · rw [sub_self, mul_zero]
    · omega
    · rw [zero_mul]
    · rw [zero_mul]
  · intro i
    rw [row_isActive, row_flag]
    split_ifs with hreal _ hactive
    · rw [sub_self, zero_mul]
    · rw [mul_zero]
    · exact absurd (real_of_active hactive i.isLt) hreal
    · rw [mul_zero]
  · rw [row_isActive, row_flag]
    apply if_congr _ rfl rfl
    rw [numRealRows, Fin.val_zero]
    omega
  · intro i
    rw [row_isActive, row_bytes, chunk]
    split_ifs with hactive
    · rw [sub_self, zero_mul]
    · rw [List.getElem?_eq_none (Nat.le_of_not_lt hactive), mul_zero]
  · intro i
    rw [row_flag, row_state]
    split_ifs with hreal
    · rw [sub_self, zero_mul]
    · rw [stateFrom_of_padding permute program (Nat.le_of_not_lt hreal), Pi.zero_apply, mul_zero]
  · intro i
    rw [row_flag, row_bytes]
    split_ifs with hreal
    · rw [row_permIn permute program hreal, hnext hreal, sub_self, mul_zero]
    · rw [zero_mul]
  · intro i
    rw [row_state, row_permOut, sub_self, mul_zero]

variable {program}

/-- The number of rows is below `2 ^ 24` where the number of bytes is. -/
theorem height_le (hlength : program.length < 2 ^ 24) :
    height (numRealRows program + 1) ≤ 2 ^ 24 := by
  apply height_le_of_lt
  · rw [numRealRows]
    omega
  · norm_num

theorem row_evalTransition (hlength : program.length < 2 ^ 24) {r : ℕ} (hr : r + 1 < 2 ^ 24)
    [DecidableEq F] :
    (Host.row permute program r).evalTransition (Host.row permute program (r + 1)) := by
  refine ⟨?_, ?_, ?_, ?_⟩
  · rw [row_flag, row_flag]
    split_ifs with hnext hreal
    · rw [sub_self, mul_zero]
    · omega
    · rw [zero_mul]
    · rw [zero_mul]
  · rw [row_flag, row_flag, row_isActive]
    split_ifs with hreal hnext hfull
    · rw [sub_self, mul_zero]
    · rw [numRealRows] at hnext
      have : ((23 : Fin 24) : ℕ) = 23 := rfl
      omega
    all_goals simp
  · rw [row_baseAddr permute program (by omega), row_baseAddr permute program (by omega),
      Nat.succ_mul, Nat.cast_add, Nat.cast_ofNat]
  · have hrow := row_evalRow permute program (r := r + 1) fun _ => row_state permute program (r + 2)
    rw [rowSum_eq hrow, absorbed_row, row_cumActive permute program r (by omega),
      row_cumActive permute program (r + 1) (by omega), List.length_map, List.length_take,
      List.length_drop, ← Nat.cast_add]
    congr 1
    omega

/-- The table satisfies every constraint with the digest and the length of the program. -/
theorem programHashEval_rows [DecidableEq F] (hlength : program.length < 2 ^ 24) :
    programHashEval
      ((List.range (height (numRealRows program + 1))).map (Host.row permute program))
      (Host.publicValues permute program) := by
  have hrows := le_height (numRealRows program + 1)
  have hheight := height_le hlength
  refine ⟨?_, ?_, ?_, ?_⟩
  · intro q hq
    obtain ⟨r, hr, rfl⟩ := List.mem_iff_getElem.mp hq
    rw [List.getElem_zip, List.getElem_rotate]
    simp only [List.length_zip, List.length_rotate, List.length_map, List.length_range,
      min_self] at hr
    simp only [List.getElem_map, List.getElem_range, List.length_map, List.length_range]
    apply row_evalRow
    intro hreal
    rw [Nat.mod_eq_of_lt (by omega), row_state]
  · intro c hc
    rw [List.head?_map, List.head?_range, if_neg (by omega)] at hc
    obtain rfl := Option.some.inj hc
    refine ⟨?_, ?_, ?_⟩
    · rw [row_baseAddr permute program (by norm_num), Nat.zero_mul, Nat.cast_zero]
    · have hrow := row_evalRow permute program (r := 0) fun _ => row_state permute program 1
      rw [rowSum_eq hrow, absorbed_row, row_cumActive permute program 0 (by omega),
        List.length_map, List.length_take, List.length_drop]
      rfl
    · intro i
      rw [row_state, ← sponge_eq_stateFrom]
      rfl
  · intro c hc
    rw [List.getLast?_map, List.getLast?_range, if_neg (by omega)] at hc
    obtain rfl := Option.some.inj hc
    constructor
    · rw [row_flag, if_neg (by omega)]
    · rw [row_cumActive permute program _ (by omega)]
      show _ = (((BitVec.ofNat 32 program.length).toNat : ℕ) : F)
      rw [BitVec.toNat_ofNat, Nat.mod_eq_of_lt (by omega), min_eq_right]
      have : program.length ≤ numRealRows program * 24 := by
        rw [numRealRows]
        omega
      omega
  · rw [List.isChain_map, List.isChain_iff_getElem]
    intro r hr
    rw [List.length_range] at hr
    rw [List.getElem_range, List.getElem_range]
    exact row_evalTransition permute hlength (by omega)

end Constraints

section Table

variable {F : Type*} [Field F] (permute : SpongeState F → SpongeState F) {program : List Byte}

/-- A range splits at a bound below its end. -/
theorem filter_range_lt {k n : ℕ} (h : k ≤ n) : (List.range n).filter (· < k) = List.range k := by
  obtain ⟨m, rfl⟩ := Nat.exists_eq_add_of_le h
  have hin : (List.range k).filter (· < k) = List.range k :=
    List.filter_eq_self.mpr fun i hi => decide_eq_true (List.mem_range.mp hi)
  have hout : ((List.range m).map (k + ·)).filter (· < k) = [] := by
    apply List.filter_eq_nil_iff.mpr
    intro i hi
    obtain ⟨j, -, rfl⟩ := List.mem_map.mp hi
    simp
  rw [List.range_add, List.filter_append, hin, hout, List.append_nil]

theorem permInputs_eq [DecidableEq F] : (Host.spongePass permute program).2.map Prod.fst =
    (((List.range (height (numRealRows program + 1))).map (Host.row permute program)).filter
      fun c => c.flag = 1).map ProgramHashColumns.permIn := by
  have hreal : ∀ r, decide ((Host.row permute program r).flag = 1) =
      decide (r < numRealRows program) := by
    intro r
    rw [row_flag]
    split_ifs with h <;> simp [h]
  have hrows := le_height (numRealRows program + 1)
  have hlength : (Host.spongePass permute program).2.length = numRealRows program := by
    rw [Host.spongePass_eq_passes, Sponge.length_passes, List.length_range]
  rw [List.filter_map]
  simp only [Function.comp_def, hreal]
  rw [filter_range_lt (Nat.le_of_succ_le hrows), List.map_map]
  apply List.ext_getElem
  · simp [hlength]
  · intro r hr hr'
    rw [List.length_map] at hr
    simp [Host.row, hr]

theorem hashBytes_rows [DecidableEq F] :
    hashBytes ((List.range (height (numRealRows program + 1))).map (Host.row permute program)) =
      program.map fun b => (b.toNat : F) := by
  have hrows := le_height (numRealRows program + 1)
  have hall : program.length ≤ height (numRealRows program + 1) * 24 := by
    rw [numRealRows] at hrows ⊢
    omega
  rw [hashBytes, List.flatMap_map]
  simp only [absorbed_row]
  rw [← List.map_flatMap, flatMap_chunks, List.take_of_length_le hall]

/-- The table sends the bytes of the program under their positions. -/
theorem selected_rows [DecidableEq F] (hlength : program.length < 2 ^ 24) :
    selected .send .programImage (programHashLookups
      ((List.range (height (numRealRows program + 1))).map (Host.row permute program))) =
        program.mapIdx fun i b => [(i : F), (b.toNat : F)] := by
  rw [selected_hash_indexed (programHashEval_rows permute hlength), hashBytes_rows]
  apply List.ext_getElem
  · simp
  · intro i hi hi'
    simp only [List.getElem_mapIdx, List.getElem_map]

theorem packed_u32ToLimbs (v : U32) : packed (u32ToLimbs v) = (v.toNat : F) := by
  have hsum := congrArg (Nat.cast (R := F)) (toNat_eq_leBytes v)
  push_cast at hsum
  rw [hsum]
  norm_num [packed, u32ToLimbs, ofNats]

/-- The real rows of the ROM receive the bytes of the program under their positions. -/
theorem selected_rom [DecidableEq F] {steps : List ExecutionStep} {numDecodePadding : ℕ}
    {rom : List (ProgramColumns F)} (hlength : program.length < 2 ^ 32)
    (hrom : buildProgram program steps numDecodePadding = some rom) :
    selected .receive .programImage (programLookups rom) =
      program.mapIdx fun i b => [(i : F), (b.toNat : F)] := by
  rw [buildProgram] at hrom
  split_ifs at hrom
  obtain rfl := Option.some.inj hrom
  have hreal : ∀ i, decide ((if i < program.length then (1 : F) else 0) = 1) =
      decide (i < program.length) := by
    intro i
    split_ifs with h <;> simp [h]
  rw [selected_realRom, List.filter_map]
  simp only [Function.comp_def, hreal]
  rw [filter_range_lt (le_height _), List.map_map]
  apply List.ext_getElem
  · simp
  · intro i hi hi'
    have hi : i < program.length := by simpa using hi
    simp only [List.getElem_map, List.getElem_range, List.getElem_mapIdx, Function.comp_apply,
      packed_u32ToLimbs, BitVec.toNat_ofNat, Nat.mod_eq_of_lt (hi.trans hlength),
      List.getElem?_eq_getElem hi]

theorem rom_boolean {steps : List ExecutionStep} {numDecodePadding : ℕ}
    {rom : List (ProgramColumns F)} (hrom : buildProgram program steps numDecodePadding = some rom) :
    ∀ c ∈ rom, c.isReal = 0 ∨ c.isReal = 1 := by
  rw [buildProgram] at hrom
  split_ifs at hrom
  obtain rfl := Option.some.inj hrom
  intro c hc
  obtain ⟨i, -, rfl⟩ := List.mem_map.mp hc
  exact (ite_eq_or_eq _ _ _).symm

end Table

section Prover

variable {F : Type*} [Field F] (P : Poseidon2 F) {program : List Byte}

theorem computeProgramDigest_permute (program : List Byte) :
    Host.computeProgramDigest P.permute program = computeProgramDigest P program := by
  rw [Host.computeProgramDigest, Host.sponge, computeProgramDigest, Poseidon2.sponge]
  simp only [Host.absorbRow_eq]
  rfl

theorem spongePass_permute (program : List Byte) :
    (Host.spongePass P.permute program).2 = spongePass P program := by
  rw [Host.spongePass_eq_passes, spongePass]
  induction List.range (numRealRows program) with
  | nil => rfl
  | cons row rows ih =>
    have hacc : ((Sponge.passes (Host.absorbRow program) P.permute 0 rows).2[0]?.map
        Prod.snd).getD 0 = _ := Sponge.getD_passes_snd rows 0
    rw [List.drop_zero, ← List.head?_eq_getElem?] at hacc
    rw [Sponge.passes_cons, List.foldr_cons, ← ih, Sponge.state_cons, ← hacc, Host.absorbRow_eq]

theorem hashRow_permute (hlength : program.length < 2 ^ 32) {r : ℕ} (hr : r * 24 < 2 ^ 32) :
    Host.row P.permute program r = hashRow P program r := by
  have hcum : (Host.row P.permute program r).cumActive = (hashRow P program r).cumActive := by
    rw [row_cumActive P.permute program r hlength, ← sum_activeCount]
    rfl
  have hbytes : (Host.row P.permute program r).bytes = (hashRow P program r).bytes := by
    funext i
    show _ = (if r < numRealRows program then chunk program (r * 24) else 0) i
    rw [row_bytes]
    split_ifs with hreal
    · rfl
    · rw [chunk, List.getElem?_eq_none]
      · rfl
      · rw [numRealRows] at hreal
        omega
  rw [Host.row, hashRow, ProgramHashColumns.mk.injEq, spongePass_permute]
  exact ⟨rfl, hbytes, row_baseAddr P.permute program hr, rfl, rfl, hcum, rfl, rfl⟩

/-- At the permutation of the chip the host builds the tables of the prover. -/
theorem buildTrace_permute (hlength : program.length < 2 ^ 24) :
    Host.buildTrace P.permute program =
      (buildProgramHash P program).map fun main => ⟨main, permInputs P program⟩ := by
  rw [Host.buildTrace, buildProgramHash, permInputs, spongePass_permute]
  split_ifs
  · rfl
  · apply congrArg some
    congr 1
    apply List.map_congr_left
    intro r hr
    have := (List.mem_range.mp hr).trans_le (height_le hlength)
    exact hashRow_permute P (by omega) (by omega)

end Prover

/-- The digest and its table agree with each other, with the constraints and with the ROM. -/
structure HashComplete (permute : SpongeState Felt → SpongeState Felt) (program : List Byte)
    (trace : Host.ProgramHashTrace Felt) : Prop where
  eval : programHashEval trace.main (Host.publicValues permute program)
  length : (Host.computeProgramDigest (F := Felt) permute program).2.toNat = program.length
  digest : ∃ c ∈ trace.main.head?, ∀ i : Fin 8,
    c.state (i.castLE rate_le) = (Host.computeProgramDigest permute program).1 i
  permInputs : trace.permInputs =
    (trace.main.filter fun c => c.flag = 1).map ProgramHashColumns.permIn
  boolean : ∀ x ∈ programHashLookups trace.main, x.multiplicity = 0 ∨ x.multiplicity = 1
  sent : selected .send .programImage (programHashLookups trace.main) =
    program.mapIdx fun i b => [(i : Felt), (b.toNat : Felt)]
  once : (selected .send .programImage (programHashLookups trace.main)).Nodup
  /-- Whatever was executed, the ROM receives the same bytes under the same positions. -/
  received : ∀ (steps : List ExecutionStep) (numDecodePadding : ℕ),
    ∃ rom, buildProgram program steps numDecodePadding = some rom ∧
      (rom.filter fun c : ProgramColumns Felt => c.isReal = 1).map
          (fun c => [packed c.address, c.value]) =
        selected .send .programImage (programHashLookups trace.main) ∧
      ∀ values, net (programHashLookups trace.main ++ programLookups rom) .programImage values = 0

/-- Bytes sent as the ROM receives them balance. -/
theorem net_programImage {main : List (ProgramHashColumns Felt)}
    {rom : List (ProgramColumns Felt)}
    (hmain : ∀ x ∈ programHashLookups main, x.multiplicity = 0 ∨ x.multiplicity = 1)
    (hrom : ∀ c ∈ rom, c.isReal = 0 ∨ c.isReal = 1)
    (hsame : selected .send .programImage (programHashLookups main) =
      selected .receive .programImage (programLookups rom)) (values : List Felt) :
    net (programHashLookups main ++ programLookups rom) .programImage values = 0 := by
  have hreceived : selected .receive .programImage (programHashLookups main) = [] := by
    apply selected_eq_nil_of_direction
    intro x hx
    rw [hash_direction hx]
    nofun
  have hsent : selected .send .programImage (programLookups rom) = [] := by
    apply selected_eq_nil_of_direction
    intro x hx
    obtain ⟨c, -, rfl | rfl⟩ := program_mem_lookups.mp hx <;> nofun
  apply net_eq_zero_of_perm
  · intro x hx hbus
    rcases List.mem_append.mp hx with hx | hx
    · exact hmain x hx
    · obtain ⟨c, hc, rfl | rfl⟩ := program_mem_lookups.mp hx
      · cases hbus
      · exact hrom c hc
  · rw [selected_append, selected_append, hreceived, hsent, List.append_nil, List.nil_append, hsame]

theorem nodup_positions (program : List Byte) (hlength : program.length < modulus) :
    (program.mapIdx fun i b => [(i : Felt), (b.toNat : Felt)]).Nodup := by
  rw [List.nodup_iff_injective_getElem]
  intro i j hij
  obtain ⟨i, hi⟩ := i
  obtain ⟨j, hj⟩ := j
  rw [List.length_mapIdx] at hi hj
  simp only [List.getElem_mapIdx] at hij
  exact Fin.ext (natCast_inj_of_lt (hi.trans hlength) (hj.trans hlength) (List.cons.inj hij).1)

/-- For every permutation, the hash table of a program is a complete witness of its digest. -/
theorem program_hash_complete (permute : SpongeState Felt → SpongeState Felt)
    (program : List Byte) (hprogram : program ≠ []) (hlength : program.length < 2 ^ 24) :
    ∃ trace, Host.buildTrace permute program = some trace ∧ HashComplete permute program trace := by
  have hempty : ¬ program.isEmpty := by simpa using hprogram
  have heval := programHashEval_rows permute hlength
  have hsent := selected_rows permute hlength
  have hmodulus : program.length < modulus := hlength.trans (by norm_num)
  have hboolean : ∀ x ∈ programHashLookups
      ((List.range (height (numRealRows program + 1))).map (Host.row permute program)),
        x.multiplicity = 0 ∨ x.multiplicity = 1 :=
    fun _ hx => Soundness.hash_boolean
      (fun _ hc => Prefix.exists_next_of_zip_rotate heval.1 hc) hx
  refine ⟨_, if_neg hempty, ?_⟩
  constructor
  · exact heval
  · show (BitVec.ofNat 32 program.length).toNat = _
    rw [BitVec.toNat_ofNat, Nat.mod_eq_of_lt (by omega)]
  · have hfirst : Host.row permute program 0 ∈
        ((List.range (height (numRealRows program + 1))).map (Host.row permute program)).head? := by
      have := le_height (numRealRows program + 1)
      rw [List.head?_map, List.head?_range, if_neg (by omega)]
      rfl
    exact ⟨_, hfirst, (heval.2.1 _ hfirst).2.2⟩
  · exact permInputs_eq permute
  · exact hboolean
  · exact hsent
  · rw [hsent]
    exact nodup_positions program hmodulus
  · intro steps numDecodePadding
    obtain ⟨rom, hrom⟩ : ∃ rom, buildProgram (F := Felt) program steps numDecodePadding = some rom :=
      ⟨_, if_neg hempty⟩
    have hreceived := selected_rom (hmodulus.trans (by norm_num)) hrom
    refine ⟨rom, hrom, ?_, ?_⟩
    · rw [hsent, ← selected_realRom, hreceived]
    · exact net_programImage hboolean (rom_boolean hrom) (hsent.trans hreceived.symm)

/-- Bytes for two rows, with a permutation that moves every lane one place on. -/
theorem program_hash_complete_two_rows :
    let program : List Byte := (List.range 28).map (BitVec.ofNat 8)
    ∃ trace, Host.buildTrace (fun state : SpongeState Felt => fun i => state (i + 1)) program =
      some trace ∧ HashComplete (fun state => fun i => state (i + 1)) program trace := by
  intro program
  exact program_hash_complete _ program (by decide) (by decide)

end Loquela.Completeness
