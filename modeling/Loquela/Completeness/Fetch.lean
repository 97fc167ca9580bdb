import Loquela.Completeness.Agreement
import Loquela.Completeness.Decoding
import Loquela.Soundness.Fetch

/-! # The fetch table

For every executed step the decode table sends the addresses of four bytes, counting the low limb
of the pc on without a carry. The ROM receives each byte under its own address, as often as the
steps fetch it. The two agree exactly as long as no carry is missing.
-/

namespace Loquela.Completeness
open Air Library Library.Bus Soundness Trace
open Vm (Byte ExecutionStep U32 VM fetch)

section Tuples

variable {F : Type*} [Field F] {program : List Byte} {pc word : U32}

/-- What a decode row at `pc` sends. -/
def sentFetches (pc word : U32) : List (List F) :=
  List.ofFn fun k : Fin 4 => [(leBytes pc 0 : F) + ((k : ℕ) : F), leBytes pc 1, leBytes pc 2,
    leBytes pc 3, (leBytes word k : F)]

/-- What the ROM row at an address receives. -/
def romTuple (program : List Byte) (a : ℕ) : List F :=
  List.ofFn (u32ToLimbs (BitVec.ofNat 32 a)) ++
    [match program[a]? with
      | some byte => (byte.toNat : F)
      | none => 0]

/-- What the ROM receives for a step at `pc`. -/
def receivedFetches (program : List Byte) (pc : U32) : List (List F) :=
  List.ofFn fun k : Fin 4 => romTuple program (pc.toNat + k)

theorem romTuple_eq {a : ℕ} {b : Byte} (hb : program[a]? = some b) :
    (romTuple program a : List F) = [(leBytes (BitVec.ofNat 32 a) 0 : F),
      (leBytes (BitVec.ofNat 32 a) 1 : F), (leBytes (BitVec.ofNat 32 a) 2 : F),
      (leBytes (BitVec.ofNat 32 a) 3 : F), (b.toNat : F)] := by
  rw [romTuple, hb]
  rfl

/-- Without a carry out of the low limb the step sends what the ROM receives. -/
theorem sentFetches_eq (hfetch : fetch program pc = some word) (h : leBytes pc 0 + 3 < 256) :
    (sentFetches pc word : List (List F)) = receivedFetches program pc := by
  rw [sentFetches, receivedFetches]
  congr 1
  funext k
  have hdigits : leBytes (BitVec.ofNat 32 (pc.toNat + k)) =
      ![leBytes pc 0 + k, leBytes pc 1, leBytes pc 2, leBytes pc 3] := by
    have hpc := toNat_eq_leBytes pc
    have hbytes := leBytes_lt pc
    have h1 := hbytes 1
    have h2 := hbytes 2
    have h3 := hbytes 3
    apply leBytes_of_digits
    · simp only [Fin.forall_fin_succ, Fin.succ_zero_eq_one, Fin.succ_one_eq_two, Fin.isValue,
        Fin.reduceSucc, IsEmpty.forall_iff, and_true, Matrix.cons_val]
      omega
    · rw [BitVec.toNat_ofNat]
      simp only [Matrix.cons_val]
      omega
  rw [romTuple_eq (Vm.stored_of_fetch hfetch k k.isLt), hdigits, ← Nat.cast_add]
  rfl

end Tuples

/-- The pcs the decode table fetches at: those of the steps, then 0 on every padding row. -/
def fetchPcs (steps : List ExecutionStep) : List U32 :=
  steps.map (fun step => step.state.pc) ++
    List.replicate (height steps.length - steps.length) 0

/-- The four addresses of the word at `pc`. -/
def fetchAddresses (pc : U32) : List ℕ := List.ofFn fun k : Fin 4 => pc.toNat + (k : ℕ)

section Traces

variable {F : Type*} [Field F] {program : List Byte} {xs : List Executed} {vm : VM}

variable [DecidableEq F]

theorem selected_decodeRow (pc word : U32) (mult : F) :
    selected .send .program (decodeRow pc word mult).lookups = sentFetches pc word := by
  have hinstruction : (decodeRow pc word mult).instruction = u32ToLimbs word :=
    funext fun i => congrArg Nat.cast (toNat_field word (8 * i) 8)
  rw [DecodeColumns.lookups, selected_append, hinstruction]
  simp only [sentFetches, List.ofFn_succ, List.ofFn_zero]
  simp
  exact ⟨rfl, rfl, rfl, rfl⟩

theorem selected_buildDecode {decode : List (DecodeColumns F)} (hrun : RunOf program xs vm)
    (hdecode : buildDecode vm.trace = some decode) :
    selected .send .program (decode.flatMap DecodeColumns.lookups) =
      (fetchPcs vm.trace).flatMap fun pc => sentFetches pc ((fetch program pc).getD 0) := by
  obtain ⟨first, hfirst, rfl⟩ := Option.map_eq_some_iff.mp hdecode
  rw [selected_flatMap, List.flatMap_append, fetchPcs, List.flatMap_append]
  congr 1
  · rw [List.flatMap_map, List.flatMap_map, hrun.trace, List.flatMap_map, List.flatMap_map]
    apply List.flatMap_congr
    intro x hx
    rw [selected_decodeRow]
    show _ = sentFetches x.pc ((fetch program x.pc).getD 0)
    rw [hrun.fetched x hx]
    rfl
  · -- The padding rows repeat the first word, which is the word at address 0.
    have hword : fetch program 0 = some first.instructionWord := by
      rw [hrun.trace] at hfirst
      obtain ⟨x, rest, rfl⟩ : ∃ x rest, xs = x :: rest := by
        cases xs with
        | nil => cases hfirst
        | cons x rest => exact ⟨x, rest, rfl⟩
      obtain rfl := Option.some.inj hfirst
      have hpc : x.pc = 0 := congrArg Prod.fst hrun.leads.1
      exact hpc ▸ hrun.fetched x List.mem_cons_self
    simp only [List.flatMap_def, List.map_replicate, selected_decodeRow, hword]
    rfl

theorem sent_decode {decode : List (DecodeColumns F)} (hrun : RunOf program xs vm)
    (hdecode : buildDecode vm.trace = some decode) (v : List F) :
    sent (decode.flatMap DecodeColumns.lookups) .program v =
      (((fetchPcs vm.trace).flatMap fun pc =>
        sentFetches pc ((fetch program pc).getD 0)).count v : F) := by
  rw [← selected_buildDecode hrun hdecode, sent_eq_count]
  intro x hx hbus _
  obtain ⟨d, -, hx⟩ := List.mem_flatMap.mp hx
  rcases decode_mem_lookups.mp hx with ⟨k, rfl⟩ | rfl | rfl | rfl
  · exact .inr rfl
  all_goals cases hbus

/-- Row `a` of the ROM counts the fetches of address `a`. -/
theorem fetchCount_eq {numRows a : ℕ} (steps : List ExecutionStep) (ha : a < numRows) :
    fetchCount numRows steps (height steps.length - steps.length) a =
      ((fetchPcs steps).flatMap fetchAddresses).count a := by
  rw [fetchCount, List.count_filter (p := fun x => decide (x < numRows)) (decide_eq_true ha),
    fetchPcs, List.flatMap_append,
    List.count_append, List.flatMap_map]
  congr 1
  rw [List.count_flatMap, List.map_replicate, List.sum_replicate]
  have hfirst : fetchAddresses 0 = List.range 4 := rfl
  simp only [Function.comp_apply, hfirst, List.count_range]
  split_ifs with h <;> simp

/-- Every address of a fetched word is in the program. -/
theorem address_lt {pc word : U32} (hfetch : fetch program pc = some word) :
    ∀ a ∈ fetchAddresses pc, a < program.length := by
  intro a ha
  obtain ⟨k, rfl⟩ := (List.mem_ofFn' _ _).mp ha
  exact (List.getElem?_eq_some_iff.mp (Vm.stored_of_fetch hfetch k k.isLt)).1

theorem fetched_of_mem (hrun : RunOf program xs vm) (hxs : xs ≠ []) :
    ∀ pc ∈ fetchPcs vm.trace, ∃ word, fetch program pc = some word := by
  intro pc hpc
  rcases List.mem_append.mp hpc with hpc | hpc
  · rw [hrun.trace, List.map_map] at hpc
    obtain ⟨x, hx, rfl⟩ := List.mem_map.mp hpc
    exact ⟨_, hrun.fetched x hx⟩
  · obtain ⟨x, rest, rfl⟩ := List.exists_cons_of_ne_nil hxs
    have hfirst : x.pc = 0 := congrArg Prod.fst hrun.leads.1
    rw [List.eq_of_mem_replicate hpc, ← hfirst]
    exact ⟨_, hrun.fetched x List.mem_cons_self⟩

theorem net_programLookups (rom : List (ProgramColumns F)) (v : List F) :
    net (programLookups rom) .program v = net (rom.map fun c =>
      receive .program (List.ofFn c.address ++ [c.value]) c.mult) .program v := by
  induction rom with
  | nil => rfl
  | cons c rom ih =>
    rw [programLookups] at ih ⊢
    rw [List.flatMap_cons, net_append, ih, List.map_cons, net_cons]
    congr 1
    simp [ProgramColumns.lookups, Interaction.weight, receive]

theorem received_program {rom : List (ProgramColumns F)}
    (hfetched : ∀ pc ∈ fetchPcs vm.trace, ∃ word, fetch program pc = some word)
    (hrom : buildProgram program vm.trace (height vm.trace.length - vm.trace.length) = some rom)
    (v : List F) : received (programLookups rom) .program v =
      (((fetchPcs vm.trace).flatMap (receivedFetches program)).count v : F) := by
  have hsent : sent (programLookups rom) .program v = 0 := by
    apply sent_eq_zero
    intro x hx _
    obtain ⟨c, -, rfl | rfl⟩ := program_mem_lookups.mp hx <;> nofun
  have hindices : ∀ a ∈ (fetchPcs vm.trace).flatMap fetchAddresses,
      a < ((List.range (height program.length)).map (romTuple (F := F) program)).length := by
    intro a ha
    obtain ⟨pc, hpc, ha⟩ := List.mem_flatMap.mp ha
    obtain ⟨word, hfetch⟩ := hfetched pc hpc
    rw [List.length_map, List.length_range]
    exact (address_lt hfetch a ha).trans_le (le_height _)
  have hrows : (rom.map fun c => receive .program (List.ofFn c.address ++ [c.value]) c.mult) =
      ((List.range (height program.length)).map (romTuple (F := F) program)).mapIdx fun i row =>
        ⟨.program, .receive, row, (((fetchPcs vm.trace).flatMap fetchAddresses).count i : F)⟩ := by
    rw [buildProgram] at hrom
    split_ifs at hrom
    obtain rfl := Option.some.inj hrom
    apply List.ext_getElem (by simp)
    intro i hi hi'
    have hi : i < height program.length := by simpa using hi
    simp only [List.getElem_map, List.getElem_range, List.getElem_mapIdx, ← fetchCount_eq _ hi]
    rfl
  have htuples : ((fetchPcs vm.trace).flatMap fetchAddresses).map (fun i =>
      ((List.range (height program.length)).map (romTuple (F := F) program)).getD i []) =
      (fetchPcs vm.trace).flatMap (receivedFetches program) := by
    rw [List.map_flatMap]
    apply List.flatMap_congr
    intro pc hpc
    obtain ⟨word, hfetch⟩ := hfetched pc hpc
    rw [fetchAddresses, receivedFetches, List.map_ofFn]
    congr 1
    funext k
    have hk := (address_lt hfetch _ ((List.mem_ofFn' _ _).mpr ⟨k, rfl⟩)).trans_le (le_height _)
    simp [List.getD_eq_getElem?_getD, hk]
  have hnet := net_eq_sub (programLookups rom) .program v
  rw [hsent, zero_sub, net_programLookups, hrows, net_counted _ _ hindices, htuples] at hnet
  exact (neg_injective hnet).symm

theorem height_le_of_lt {n k : ℕ} (hn : n < 2 ^ k) (hk : 2 ≤ k) : height n ≤ 2 ^ k := by
  apply max_le
  · exact Nat.pow_le_pow_right (by norm_num) (Nat.clog_le_of_le_pow hn.le)
  · exact Nat.pow_le_pow_right (n := 2) (by norm_num) hk

/-- Below `2 ^ 24` the top limb of an address and the carry out of it are zero. -/
theorem top_limb {i : ℕ} (hi : i < 2 ^ 24) :
    leBytes (BitVec.ofNat 32 i) 3 = 0 ∧ incCarries (BitVec.ofNat 32 i) 3 = 0 := by
  have htop : leBytes (BitVec.ofNat 32 i) 3 = 0 := by
    rw [leBytes_eq, BitVec.toNat_ofNat]
    show i % 2 ^ 32 / 2 ^ 24 % 256 = 0
    omega
  obtain ⟨hlt, hsum⟩ := inc_digits (BitVec.ofNat 32 i)
  have hcarry := hlt 2
  have hsum := hsum 3
  simp only [Matrix.cons_val] at hsum
  exact ⟨htop, by omega⟩

theorem programEval_buildProgram {rom : List (ProgramColumns F)}
    (hlength : program.length < 2 ^ 24)
    (hfetched : ∀ pc ∈ fetchPcs vm.trace, ∃ word, fetch program pc = some word)
    (hrom : buildProgram program vm.trace (height vm.trace.length - vm.trace.length) = some rom) :
    programEval rom := by
  rw [buildProgram] at hrom
  split_ifs at hrom
  obtain rfl := Option.some.inj hrom
  have hheight := height_le_of_lt hlength (by norm_num)
  refine ⟨?_, ?_, ?_⟩
  · intro c hc
    obtain ⟨i, hi, rfl⟩ := List.mem_map.mp hc
    have hi := List.mem_range.mp hi
    obtain ⟨htop, hcarry⟩ := top_limb (hi.trans_le hheight)
    refine ⟨?_, ?_, ?_, ?_⟩
    · exact (congrArg Nat.cast hcarry).trans Nat.cast_zero
    · exact (congrArg Nat.cast htop).trans Nat.cast_zero
    · rw [assertBool_iff]
      exact (ite_eq_or_eq _ _ _).symm
    · show (fetchCount _ _ _ i : F) * (1 - if i < program.length then 1 else 0) = 0
      split_ifs with hreal
      · rw [sub_self, mul_zero]
      · rw [fetchCount_eq _ hi, List.count_eq_zero_of_not_mem, Nat.cast_zero, zero_mul]
        intro hmem
        obtain ⟨pc, hpc, hmem⟩ := List.mem_flatMap.mp hmem
        obtain ⟨word, hfetch⟩ := hfetched pc hpc
        exact hreal (address_lt hfetch i hmem)
  · intro c hc k
    rw [List.head?_map, List.head?_range] at hc
    split_ifs at hc
    · cases hc
    · obtain rfl := Option.some.inj hc
      exact congrFun (u32ToLimbs_zero (F := F)) k
  · rw [List.isChain_map]
    rw [List.isChain_iff_getElem]
    intro i hi
    simp only [List.getElem_range]
    constructor
    · have hnext : BitVec.ofNat 32 (i + 1) = BitVec.ofNat 32 i + 1 := BitVec.ofNat_add i 1
      rw [hnext]
      exact u32Inc_limbs (BitVec.ofNat 32 i)
    · show (1 - if i < program.length then (1 : F) else 0) *
        (if i + 1 < program.length then 1 else 0) = 0
      split_ifs with h h'
      · rw [sub_self, zero_mul]
      · rw [mul_zero]
      · omega
      · rw [mul_zero]

end Traces

/-- The ROM satisfies its constraints and receives what the decode table sends. -/
structure FetchAgreement (decode : List (DecodeColumns Felt)) (rom : List (ProgramColumns Felt)) :
    Prop where
  eval : programEval rom
  agree : ∀ values, sent (decode.flatMap DecodeColumns.lookups) .program values =
    received (programLookups rom) .program values

theorem count_fetches (f : U32 → List (List Felt)) (pcs : List U32) (v : List Felt) :
    ((pcs.flatMap f).count v : Felt) =
      ∑ pc ∈ pcs.toFinset, (pcs.count pc : Felt) * ((f pc).count v : Felt) := by
  rw [List.count_flatMap, Nat.cast_list_sum, List.map_map, Finset.sum_list_map_count]
  apply Finset.sum_congr rfl
  intro pc _
  rw [nsmul_eq_mul]
  rfl

/-- What a step at `pc` with low byte 254 sends for its third byte: the low limb is no byte. -/
def overflowTuple (pc word : U32) : List Felt :=
  [(256 : ℕ), leBytes pc 1, leBytes pc 2, leBytes pc 3, leBytes word 2]

theorem overflowTuple_notMem (program : List Byte) (pc pc' word : U32) :
    overflowTuple pc word ∉ receivedFetches program pc' := by
  intro hmem
  obtain ⟨k, hk⟩ := (List.mem_ofFn' _ _).mp hmem
  have hlow : (leBytes (BitVec.ofNat 32 (pc'.toNat + k)) 0 : Felt) = (256 : ℕ) :=
    (List.cons.inj hk).1
  have hlt := leBytes_lt (BitVec.ofNat 32 (pc'.toNat + k)) 0
  have heq := nat_eq_of_cast (by omega) (by norm_num) hlow
  omega

theorem sentFetches_nodup (pc word : U32) : (sentFetches pc word : List (List Felt)).Nodup := by
  apply List.nodup_ofFn.mpr
  intro k k' h
  have hlow := (List.cons.inj h).1
  rw [← Nat.cast_add, ← Nat.cast_add] at hlow
  have hlt := leBytes_lt pc 0
  have heq := nat_eq_of_cast (by omega) (by omega) hlow
  omega

/-- Only the step itself sends its overflowing tuple. -/
theorem count_overflowTuple {pc pc' word word' : U32} (hlow : pc.toNat % 256 = 254)
    (heven : pc'.toNat % 2 = 0) (hword : pc' = pc → word' = word) :
    (sentFetches pc' word').count (overflowTuple pc word) = if pc' = pc then 1 else 0 := by
  have hpc := toNat_eq_leBytes pc
  have hpc' := toNat_eq_leBytes pc'
  have hlt := leBytes_lt pc
  have hlt' := leBytes_lt pc'
  have hlt0 := hlt 0
  have hlt0' := hlt' 0
  split_ifs with heq
  · subst heq
    rw [hword rfl]
    apply List.count_eq_one_of_mem (sentFetches_nodup _ _)
    apply (List.mem_ofFn' _ _).mpr
    refine ⟨2, ?_⟩
    have hbyte : leBytes pc' 0 = 254 := by omega
    simp only [overflowTuple, hbyte, ← Nat.cast_add]
    rfl
  · apply List.count_eq_zero_of_not_mem
    intro hmem
    apply heq
    obtain ⟨k, hk⟩ := (List.mem_ofFn' _ _).mp hmem
    simp only [overflowTuple, List.cons.injEq, ← Nat.cast_add] at hk
    obtain ⟨h0, h1, h2, h3, -⟩ := hk
    have hbyte : ∀ i, (leBytes pc' i : Felt) = leBytes pc i → leBytes pc' i = leBytes pc i := by
      intro i
      have hi := hlt i
      have hi' := hlt' i
      exact nat_eq_of_cast (by omega) (by omega)
    have hk := k.isLt
    have h0 := nat_eq_of_cast (by omega) (by norm_num) h0
    have h1 := hbyte 1 h1
    have h2 := hbyte 2 h2
    have h3 := hbyte 3 h3
    apply BitVec.eq_of_toNat_eq
    omega

section Agree

/-- How often a run executes the instruction at `pc`. -/
def visits (vm : VM) (pc : U32) : ℕ := (vm.trace.map fun step => step.state.pc).count pc

theorem count_fetchPcs (vm : VM) {pc : U32} (hpc : pc.toNat % 256 = 254) :
    (fetchPcs vm.trace).count pc = visits vm pc := by
  have hpadding : pc ∉ List.replicate (height vm.trace.length - vm.trace.length) 0 := by
    intro hmem
    rw [List.eq_of_mem_replicate hmem] at hpc
    exact absurd hpc (by decide)
  rw [fetchPcs, List.count_append, List.count_eq_zero_of_not_mem hpadding, Nat.add_zero]
  rfl

/-- The pcs that are fetched at are even and hold a word. -/
theorem fetchPcs_of_steps {program : List Byte} {n : ℕ} {vm : VM}
    (h : (VM.new program).steps n = some vm) (hsteps : vm.trace ≠ []) :
    ∃ xs, RunOf program xs vm ∧ (∀ pc ∈ fetchPcs vm.trace, pc.toNat % 2 = 0) ∧
      ∀ pc ∈ fetchPcs vm.trace, ∃ word, fetch program pc = some word := by
  obtain ⟨xs, hrun, -, hmachines⟩ := exists_runOf_steps h
  refine ⟨xs, hrun, ?_, fetched_of_mem hrun ?_⟩
  · intro pc hpc
    rcases List.mem_append.mp hpc with hpc | hpc
    · rw [hrun.trace, List.map_map] at hpc
      obtain ⟨x, hx, rfl⟩ := List.mem_map.mp hpc
      obtain ⟨j, hj, rfl⟩ := List.getElem_of_mem hx
      obtain ⟨before, -, hbefore, -, hentry, -⟩ := hmachines j hj
      have hpc : xs[j].pc = before.pc := congrArg Prod.fst hentry
      show xs[j].pc.toNat % 2 = 0
      rw [hpc]
      exact Vm.pc_even hbefore
    · rw [List.eq_of_mem_replicate hpc]
      rfl
  · rintro rfl
    exact hsteps hrun.trace

variable {program : List Byte} {xs : List Executed} {vm : VM} {decode : List (DecodeColumns Felt)}
  {rom : List (ProgramColumns Felt)} (hrun : RunOf program xs vm)
  (hdecode : buildDecode vm.trace = some decode)
  (hrom : buildProgram program vm.trace (height vm.trace.length - vm.trace.length) = some rom)
  (hfetched : ∀ pc ∈ fetchPcs vm.trace, ∃ word, fetch program pc = some word)
  (heven : ∀ pc ∈ fetchPcs vm.trace, pc.toNat % 2 = 0)

include hrun hdecode hrom hfetched heven

/-- The overflowing tuples of a pc are sent and never received, so there is a multiple of `p` of
them. -/
theorem dvd_visits (hagree : FetchAgreement decode rom) {pc : U32} (hpc : pc.toNat % 256 = 254) :
    modulus ∣ visits vm pc := by
  have hsum := hagree.agree (overflowTuple pc ((fetch program pc).getD 0))
  rw [sent_decode hrun hdecode, received_program hfetched hrom, count_fetches,
    List.count_eq_zero_of_not_mem, Nat.cast_zero] at hsum
  · rw [← CharP.cast_eq_zero_iff Felt modulus, ← count_fetchPcs vm hpc, ← hsum,
      Finset.sum_eq_single pc]
    · by_cases hmem : pc ∈ fetchPcs vm.trace
      · rw [count_overflowTuple hpc (heven pc hmem) fun _ => rfl, if_pos rfl, Nat.cast_one, mul_one]
      · rw [List.count_eq_zero_of_not_mem hmem, Nat.cast_zero, zero_mul]
    · intro pc' hpc' hne
      rw [count_overflowTuple hpc (heven pc' (List.mem_toFinset.mp hpc')) fun h => absurd h hne,
        if_neg hne, Nat.cast_zero, mul_zero]
    · intro hmem
      rw [List.count_eq_zero_of_not_mem (fun h => hmem (List.mem_toFinset.mpr h)), Nat.cast_zero,
        zero_mul]
  · intro hmem
    obtain ⟨pc', -, hmem⟩ := List.mem_flatMap.mp hmem
    exact overflowTuple_notMem program pc pc' _ hmem

/-- At every other pc the step sends what the ROM receives. -/
theorem agree_of_dvd_visits (hvisits : ∀ pc : U32, pc.toNat % 256 = 254 → modulus ∣ visits vm pc)
    (values : List Felt) : sent (decode.flatMap DecodeColumns.lookups) .program values =
      received (programLookups rom) .program values := by
  rw [sent_decode hrun hdecode, received_program hfetched hrom, count_fetches, count_fetches]
  apply Finset.sum_congr rfl
  intro pc hmem
  have hmem := List.mem_toFinset.mp hmem
  by_cases hpc : pc.toNat % 256 = 254
  · have hzero := (CharP.cast_eq_zero_iff Felt modulus _).mpr (hvisits pc hpc)
    rw [count_fetchPcs vm hpc, hzero, zero_mul, zero_mul]
  · obtain ⟨word, hfetch⟩ := hfetched pc hmem
    have hbytes := toNat_eq_leBytes pc
    have hlt := leBytes_lt pc 0
    have heven := heven pc hmem
    rw [hfetch, Option.getD_some, sentFetches_eq hfetch (by omega)]

end Agree

theorem trace_ne_nil {vm : VM} {decode : List (DecodeColumns Felt)}
    (h : buildDecode vm.trace = some decode) : vm.trace ≠ [] := by
  intro hnil
  rw [hnil] at h
  cases h

/-- The ROM satisfies its constraints and receives every fetch exactly when each pc with low byte
254, where the third byte of the word is past a carry, is visited a multiple of `p` times: in a
run shorter than `p`, when there is no such visit. -/
theorem fetch_agreement_iff (program : List Byte) (fuel : ℕ) (vm : VM)
    (decode : List (DecodeColumns Felt)) (rom : List (ProgramColumns Felt))
    (hlength : program.length < 2 ^ 24) (hrun : (VM.new program).run fuel = some vm)
    (hdecode : buildDecode vm.trace = some decode)
    (hrom : buildProgram program vm.trace (height vm.trace.length - vm.trace.length) = some rom) :
    FetchAgreement decode rom ↔ ∀ pc : U32, pc.toNat % 256 = 254 → modulus ∣ visits vm pc := by
  obtain ⟨n, hn⟩ := steps_of_run hrun
  obtain ⟨xs, hxs, heven, hfetched⟩ := fetchPcs_of_steps hn (trace_ne_nil hdecode)
  constructor
  · intro hagree pc hpc
    exact dvd_visits hxs hdecode hrom hfetched heven hagree hpc
  · intro hvisits
    exact ⟨programEval_buildProgram hlength hfetched hrom,
      agree_of_dvd_visits hxs hdecode hrom hfetched heven hvisits⟩

theorem fetch_agreement_iff_shiftsAndMasks : ∃ vm decode rom,
    (VM.new shiftsAndMasks).run 4 = some vm ∧ buildDecode vm.trace = some decode ∧
    buildProgram shiftsAndMasks vm.trace (height vm.trace.length - vm.trace.length) = some rom ∧
    (FetchAgreement decode rom ↔ ∀ pc : U32, pc.toNat % 256 = 254 → modulus ∣ visits vm pc) := by
  have hrun : (VM.new shiftsAndMasks).run 4 = some _ := rfl
  exact ⟨_, _, _, hrun, rfl, rfl, fetch_agreement_iff _ 4 _ _ _ (by decide) hrun rfl rfl⟩

/-- `jal x0, 254`, then 250 zero bytes and `addi x0, x0, 0`. -/
def fetchesAcross : List Byte :=
  [0x6F, 0x00, 0xE0, 0x0F] ++ List.replicate 250 0 ++ [0x13, 0x00, 0x00, 0x00]

set_option maxRecDepth 4000 in
/-- The word at address 254 is fetched at the low limbs 254 to 257. -/
theorem fetch_agreement_violated :
    ¬ ∀ (program : List Byte) (fuel : ℕ) (vm : VM) (decode : List (DecodeColumns Felt))
      (rom : List (ProgramColumns Felt)), program.length < 2 ^ 24 →
      (VM.new program).run fuel = some vm → buildDecode vm.trace = some decode →
      buildProgram program vm.trace (height vm.trace.length - vm.trace.length) = some rom →
      FetchAgreement decode rom := by
  intro h
  have hrun : (VM.new fetchesAcross).run 3 = some _ := rfl
  obtain ⟨n, hn⟩ := steps_of_run hrun
  obtain ⟨xs, hxs, heven, hfetched⟩ := fetchPcs_of_steps hn (by simp)
  have hagree := h fetchesAcross 3 _ _ _ (by decide) hrun rfl rfl
  have hdvd : modulus ∣ visits _ 254 := dvd_visits hxs rfl rfl hfetched heven hagree rfl
  exact absurd hdvd (by decide)

end Loquela.Completeness
