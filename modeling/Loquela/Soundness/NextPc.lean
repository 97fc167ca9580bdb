import Loquela.Completeness.AddressComparison
import Loquela.Completeness.HashBuses
import Loquela.Soundness.Binding
import Loquela.Soundness.Buses

/-! # Program counters on the trace bus

`u32_add` and `u32_plus_four` take their operands to be bytes. No circuit checks the bytes of its
next pc, so a row hands on a normalised pc exactly when its carries, which are only boolean, are
those of its limb sums.
-/

namespace Loquela.Soundness
open Air Library Library.Bus

/-- The operands of a limb-wise addition with its carries, but without its result. -/
structure LimbSum (F : Type*) where
  left : Limbs F
  right : Limbs F
  carries : Limbs F

namespace LimbSum

variable {F : Type*} [Field F]

/-- What a limb of the result and the carry out of it have to make up. -/
def total (s : LimbSum F) : Limbs F := fun i => s.left i + s.right i + carryIn 0 s.carries i

/-- `x + 4`, without a carry out of the top limb. -/
def plusFour (x : Limbs F) (carries : Fin 3 → F) : LimbSum F :=
  ⟨x, ![4, 0, 0, 0], ![carries 0, carries 1, carries 2, 0]⟩

/-- The addition constrains its result to `y`. -/
def Adds (s : LimbSum F) (y : Limbs F) : Prop := u32Add s.left s.right y s.carries

theorem plusFour_adds {x y : Limbs F} {carries : Fin 3 → F} (h : u32PlusFour x y carries) :
    (plusFour x carries).Adds y := by
  obtain ⟨hbool, h0, h1, h2, h3⟩ := h
  intro i
  fin_cases i
  · exact ⟨hbool 0, h0.trans (add_zero _).symm⟩
  · exact ⟨hbool 1, h1.trans (congrArg (· + carries 0) (add_zero _).symm)⟩
  · exact ⟨hbool 2, h2.trans (congrArg (· + carries 1) (add_zero _).symm)⟩
  · have htop : AssertBool (0 : F) := assertBool_iff.mpr (.inl rfl)
    refine ⟨htop, ?_⟩
    show y 3 + 0 * 256 = x 3 + 0 + carries 2
    rw [zero_mul, add_zero, add_zero, h3]

/-- Every carry is the quotient of its limb sum by 256. -/
def Carried (s : LimbSum Felt) : Prop := ∀ i, (s.total i).val / 256 = (s.carries i).val

instance (s : LimbSum Felt) : Decidable s.Carried :=
  inferInstanceAs (Decidable (∀ _ : Fin 4, _))

/-- A limb is a byte exactly when the carry out of it is the quotient. -/
theorem limb_lt_iff {y c s : Felt} (hc : AssertBool c) (h : y + c * 256 = s) :
    y.val < 256 ↔ s.val / 256 = c.val := by
  rcases assertBool_iff.mp hc with rfl | rfl
  · rw [zero_mul, add_zero] at h
    rw [h, ZMod.val_zero]
    omega
  · have hone : (1 : Felt).val = 1 := rfl
    have h256 : (256 : Felt).val = 256 := rfl
    rw [one_mul] at h
    rw [hone]
    have hy := ZMod.val_lt y
    constructor
    · intro hlt
      rw [← h, ZMod.val_add, h256, Nat.mod_eq_of_lt (by show _ < 2147483647; omega)]
      omega
    · intro hquotient
      have hval : y.val = s.val - 256 := by
        rw [← eq_sub_iff_add_eq] at h
        rw [h, ZMod.val_sub (by rw [h256]; omega), h256]
      omega

theorem bytes_iff {s : LimbSum Felt} {y : Limbs Felt} (h : s.Adds y) : Bytes y ↔ s.Carried :=
  forall_congr' fun i => limb_lt_iff (h i).1 (h i).2

end LimbSum

section Rows

variable {F : Type*} [Field F]

/-- The addition that makes the next pc: `pc + 4`, `pc + imm_j`, or `rs1 + imm` with `sum_lsb`
taken off. -/
def nextPcSum : InstrRow F → LimbSum F
  | .addi c => .plusFour c.pc c.nextPcCarries
  | .xori c | .ori c | .andi c => .plusFour c.pc c.nextPcCarries
  | .add c => .plusFour c.pc c.nextPcCarries
  | .sub c => .plusFour c.pc c.nextPcCarries
  | .xor c | .or c | .and c => .plusFour c.pc c.nextPcCarries
  | .sll c | .srl c => .plusFour c.pc c.nextPcCarries
  | .sra c => .plusFour c.pc c.nextPcCarries
  | .slli c | .srli c => .plusFour c.pc c.nextPcCarries
  | .srai c => .plusFour c.pc c.nextPcCarries
  | .slt c => .plusFour c.pc c.nextPcCarries
  | .sltu c => .plusFour c.pc c.nextPcCarries
  | .slti c => .plusFour c.pc c.nextPcCarries
  | .sltiu c => .plusFour c.pc c.nextPcCarries
  | .lui c => .plusFour c.pc c.nextPcCarries
  | .auipc c => .plusFour c.pc c.nextPcCarries
  | .jal c => ⟨c.pc, c.immJ, c.jmpCarries⟩
  | .jalr c => ⟨c.rs1Value, c.immSeBytes - bitLimbs c.sumLsb, c.sumCarries⟩

theorem jalr_adds {c : JalrColumns F} (h : c.eval) : (nextPcSum (.jalr c)).Adds c.nextPc := by
  obtain ⟨-, -, -, hsum, -, h0, h1, h2, h3⟩ := h
  intro i
  obtain ⟨hbool, hlimb⟩ := hsum i
  refine ⟨hbool, ?_⟩
  show c.nextPc i + c.sumCarries i * 256 =
    c.rs1Value i + (c.immSeBytes i - bitLimbs c.sumLsb i) + carryIn 0 c.sumCarries i
  have htarget : c.nextPc i = c.sum i - bitLimbs c.sumLsb i := by
    fin_cases i
    · exact eq_sub_of_add_eq h0.symm
    · exact h1.trans (sub_zero _).symm
    · exact h2.trans (sub_zero _).symm
    · exact h3.trans (sub_zero _).symm
  rw [htarget]
  linear_combination hlimb

/-- The constraints of every AIR make the next pc the result of that addition. -/
theorem nextPc_adds {r : InstrRow F} (h : r.eval) : (nextPcSum r).Adds r.ports.nextPc := by
  cases r with
  | jal c => exact h.2.2.2.1
  | jalr c => exact jalr_adds h
  | xor c => exact LimbSum.plusFour_adds h.2
  | or c => exact LimbSum.plusFour_adds h.2
  | and c => exact LimbSum.plusFour_adds h.2
  | _ => exact LimbSum.plusFour_adds h.1.2

end Rows

theorem nextPc_bytes_iff {r : InstrRow Felt} (h : r.eval) :
    Bytes r.ports.nextPc ↔ (nextPcSum r).Carried :=
  LimbSum.bytes_iff (nextPc_adds h)

/-- Every tuple on the trace bus has a pc of byte limbs. -/
def NormalisedPcs (T : TraceSet Felt) : Prop :=
  ∀ x ∈ T.lookups, x.bus = .trace → x.multiplicity ≠ 0 →
    ∃ pc timestamp, x.values = traceTuple pc timestamp ∧ Bytes pc

section Traces

variable {P : Poseidon2 Felt} {T : TraceSet Felt}

/-- The states that rows and boundaries send or receive. -/
def traceStates (T : TraceSet Felt) : List (ExecutionState Felt) :=
  (realRows T.rows).map produced ++ [0] ++ ((realRows T.rows).map consumed ++ [finalState T.boundaries])

theorem mem_trace_iff {x : Interaction Felt} (hbus : x.bus = .trace) : x ∈ T.lookups ↔
    x ∈ T.rows.flatMap InstrRow.lookups ++ boundariesLookups T.boundaries := by
  have hnone : ∀ {l : List (Interaction Felt)} {buses : List BusName},
      (∀ x ∈ l, x.bus ∈ buses) → .trace ∉ buses → x ∉ l :=
    fun h htrace hx => htrace (hbus ▸ h x hx)
  have hdecode := hnone (decode_bus T.decode) (by decide)
  have hmemory := hnone (memory_bus T.memory) (by decide)
  have hprogram := hnone (program_bus T.program) (by decide)
  have hhash := hnone (hash_bus T.programHash) (by decide)
  have hchip := hnone (chip_bus T.poseidon2Chip) (by decide)
  have hu32Lt := hnone (u32Lt_bus T.u32Lt) (by decide)
  have htimestampLt := hnone (timestampLt_bus T.timestampLt) (by decide)
  have htables := hnone (tables_bus T) (by decide)
  simp only [TraceSet.lookups, List.mem_append, hdecode, hmemory, hprogram, hhash, hchip, hu32Lt,
    htimestampLt, htables, or_false]

theorem normalisedPcs_iff_states (hdummy : ∀ r ∈ T.rows, r.isDummy = 0 ∨ r.isDummy = 1) :
    NormalisedPcs T ↔ ∀ s ∈ traceStates T, Bytes s.1 := by
  have hsend := selected_states_send T.rows T.boundaries
  have hreceive := selected_states_receive T.rows T.boundaries
  constructor
  · intro h s hs
    obtain ⟨direction, hmem⟩ : ∃ direction, stateTuple s ∈ selected direction .trace
        (T.rows.flatMap InstrRow.lookups ++ boundariesLookups T.boundaries) := by
      rcases List.mem_append.mp hs with hs | hs
      · exact ⟨.send, hsend ▸ List.mem_map_of_mem hs⟩
      · exact ⟨.receive, hreceive ▸ List.mem_map_of_mem hs⟩
    obtain ⟨x, hx, hbus, -, hone, hvalues⟩ := mem_selected.mp hmem
    obtain ⟨pc, timestamp, htuple, hpc⟩ := h x ((mem_trace_iff hbus).mpr hx) hbus
      (by rw [hone]; exact one_ne_zero)
    rwa [(traceTuple_inj.mp (hvalues.symm.trans htuple)).1]
  · intro h x hx hbus hmult
    have hx := (mem_trace_iff hbus).mp hx
    have hone := (trace_boolean hdummy T.boundaries x hx hbus).resolve_left hmult
    obtain ⟨s, hs, hvalues⟩ : ∃ s ∈ traceStates T, stateTuple s = x.values := by
      have hmem := mem_selected.mpr ⟨x, hx, hbus, rfl, hone, rfl⟩
      cases hdirection : x.direction with
      | send =>
        rw [hdirection, hsend] at hmem
        obtain ⟨s, hs, hvalues⟩ := List.mem_map.mp hmem
        exact ⟨s, List.mem_append_left _ hs, hvalues⟩
      | receive =>
        rw [hdirection, hreceive] at hmem
        obtain ⟨s, hs, hvalues⟩ := List.mem_map.mp hmem
        exact ⟨s, List.mem_append_right _ hs, hvalues⟩
    exact ⟨s.1, s.2, hvalues.symm, h s hs⟩

/-- In an accepted trace set the states received are the states sent. -/
theorem accepted_states_perm (h : T.Accepted P) : (0 :: (realRows T.rows).map produced).Perm
    (finalState T.boundaries :: (realRows T.rows).map consumed) := by
  have hnet : ∀ values, net (T.rows.flatMap InstrRow.lookups ++ boundariesLookups T.boundaries)
      .trace values = 0 := by
    intro values
    rw [net_append]
    exact (net_traceSet T .trace values).symm.trans (h.balanced .trace values)
  have hlength : (realRows T.rows).length + 1 ≤ T.lookups.length := by
    have hle : (selected .send .trace (T.rows.flatMap InstrRow.lookups ++
      boundariesLookups T.boundaries)).length ≤ _ := length_selected_le _
    rw [selected_states_send] at hle
    simp only [List.length_map, List.length_append, List.length_singleton] at hle
    simp only [TraceSet.lookups, List.length_append]
    omega
  exact states_perm (fun r hr => InstrRow.isDummy_of_eval (h.eval.rows r hr)) hnet
    (hlength.trans_lt h.interactions)

/-- In an accepted trace set, all pcs on the trace bus are normalised exactly when every real row
carries in its next pc. -/
theorem normalised_pcs_iff (P : Poseidon2 Felt) (T : TraceSet Felt) (h : T.Accepted P) :
    NormalisedPcs T ↔ ∀ r ∈ realRows T.rows, (nextPcSum r).Carried := by
  have heval : ∀ r ∈ realRows T.rows, r.eval := fun r hr => h.eval.rows r (List.mem_filter.mp hr).1
  rw [normalisedPcs_iff_states fun r hr => InstrRow.isDummy_of_eval (h.eval.rows r hr)]
  constructor
  · intro hstates r hr
    apply (nextPc_bytes_iff (heval r hr)).mp
    exact hstates (produced r) (List.mem_append_left _ (List.mem_append_left _
      (List.mem_map_of_mem hr)))
  · intro hcarried
    have hsent : ∀ s ∈ 0 :: (realRows T.rows).map produced, Bytes s.1 := by
      intro s hs
      rcases List.mem_cons.mp hs with rfl | hs
      · have hzero : Bytes 0 := by decide
        exact hzero
      · obtain ⟨r, hr, rfl⟩ := List.mem_map.mp hs
        exact (nextPc_bytes_iff (heval r hr)).mpr (hcarried r hr)
    intro s hs
    apply hsent s
    rcases List.mem_append.mp hs with hs | hs
    · exact (List.perm_append_singleton _ _).subset hs
    · exact (accepted_states_perm h).symm.subset ((List.perm_append_singleton _ _).subset hs)

end Traces

section Lui

open Completeness Trace
open Vm (Byte)

/-- `lui x1, 1`. -/
def luiProgram : List Byte := [0xb7, 0x10, 0x00, 0x00]

/-- Its row at pc 0, with the carry out of the low limb of the pc left to the prover. -/
def carriedRow (carry : Felt) : LuiColumns Felt :=
  { luiRow 1 1 with
    nextPc := ![4 - carry * 256, carry, 0, 0]
    nextPcCarries := ![carry, 0, 0] }

def carriedRows (carry : Felt) : List (InstrRow Felt) :=
  .lui (carriedRow carry) :: List.replicate 3 (.lui (luiRow 0 0))

def carriedBoundaries (carry : Felt) : BoundaryTrace Felt :=
  ![⟨0, 0⟩, ⟨0, 0⟩, ⟨0, 0⟩, ⟨![4 - carry * 256, carry, 0, 0], 1⟩]

def stepDecode : List (DecodeColumns Felt) :=
  luiDecode 0 1 1 :: List.replicate 3 (luiDecode 0 1 0)

def stepMemory : List (MemoryColumns Felt) :=
  ⟨writeTuple 0 1 0 ![0, 16, 0, 0], 1, 1, 0, 0⟩ ::
    (List.replicate 2 ⟨⟨0, 0, 0, 0, 0⟩, 1, 1, 1, 1⟩ ++ [⟨⟨0, 0, 0, 0, 0⟩, 0, 0, 0, 1⟩])

def stepRom : List (ProgramColumns Felt) := List.ofFn fun i : Fin 4 =>
  ⟨registerAddress ((i : ℕ) : Felt), ![0xb7, 0x10, 0, 0] i, 4, 0, 1⟩

/-- The traces of that step, with all other tables as the honest prover fills them. -/
def carriedTraces (P : Poseidon2 Felt) (carry : Felt) : TraceSet Felt where
  rows := carriedRows carry
  boundaries := carriedBoundaries carry
  decode := stepDecode
  memory := stepMemory
  program := stepRom
  programHash := (List.range 4).map (hashRow P luiProgram)
  programHashPublicValues := publicValues P luiProgram
  poseidon2Chip := buildPoseidon2Chip P (permInputs P luiProgram)
  u32Lt := List.replicate 4 u32LessThanPadding
  timestampLt := List.replicate 4 timestampLessThanPadding
  bytes := tableMults [0, 16, 0, 0, 0xb7, 0x10, 0, 0]
  and := fun _ => 0
  or := fun _ => 0
  xor := fun _ => 0
  bytesLt := fun _ => 0
  orPrim := fun _ => 0
  andPrim := none
  byteSll := none
  byteSrl := none

variable (P : Poseidon2 Felt) {carry : Felt} (hcarry : carry = 0 ∨ carry = 1)

theorem luiProgram_hash :
    buildProgramHash P luiProgram = some ((List.range 4).map (hashRow P luiProgram)) := rfl

include hcarry in
theorem carriedTraces_eval : (carriedTraces P carry).Eval P where
  rows := by
    show ∀ r ∈ carriedRows carry, r.eval
    rcases hcarry with rfl | rfl <;> decide
  boundaries := by
    show boundariesEval (carriedBoundaries carry)
    rcases hcarry with rfl | rfl <;> decide
  decode := by
    show ∀ c ∈ stepDecode, c.eval
    decide
  memory := by
    show memoryEval stepMemory
    decide
  program := by
    show programEval stepRom
    decide
  programHash := hash_eval (luiProgram_hash P) (by decide)
  poseidon2Chip := chip_eval P _
  u32Lt := by
    intro c hc
    rw [List.eq_of_mem_replicate hc]
    exact u32LessThanPadding_eval
  timestampLt := by
    intro c hc
    rw [List.eq_of_mem_replicate hc]
    decide

/-- Only the byte table receives anything. -/
theorem net_carriedTables (carry : Felt) {bus : BusName} (hbus : bus ≠ .bytes) (values : List Felt) :
    net (carriedTraces P carry).tableLookups bus values = 0 := by
  have hzero (t : Table) (bus : BusName) (values : List Felt) :
      net (t.lookups fun _ => (0 : Felt)) bus values = 0 :=
    net_of_forall_multiplicity t.multiplicity_eq_zero
  have hnone (t : Table) (bus : BusName) (values : List Felt) :
      net (t.optionalLookups (F := Felt) none) bus values = 0 := rfl
  rw [net_tableLookups]
  cases bus <;> simp only [carriedTraces, hzero, hnone, add_zero]
  exact absurd rfl hbus

include hcarry in
theorem net_carriedRows_bytes (values : List Felt) :
    net (carriedRows carry |>.flatMap InstrRow.lookups) .bytes values =
      (([[0], [16], [0], [0]] : List (List Felt)).count values : Felt) := by
  have hselected : selected .send .bytes ((carriedRows carry).flatMap InstrRow.lookups) =
      [[0], [16], [0], [0]] := by
    rcases hcarry with rfl | rfl <;> decide
  rw [net_eq_sent, hselected]
  · intro x hx hbus _ _
    obtain ⟨r, hr, hx⟩ := List.mem_flatMap.mp hx
    rw [multiplicity_eq_isDummy hx (by rw [hbus]; nofun)]
    exact InstrRow.isDummy_of_eval ((carriedTraces_eval ⟨id, id, 0, 0, 0⟩ hcarry).rows r hr)
  · intro x hx hbus hreceive _
    obtain ⟨r, -, hx⟩ := List.mem_flatMap.mp hx
    exact absurd (hbus.symm.trans (bus_eq_trace_of_receive hx hreceive)) (by decide)

theorem net_carriedTables_bytes (carry : Felt) (values : List Felt) :
    net (carriedTraces P carry).tableLookups .bytes values =
      -((([[0], [16], [0], [0]] ++ luiProgram.map fun b => [(b.toNat : Felt)]) :
        List (List Felt)).count values : Felt) := by
  have hlt : ∀ b ∈ [0, 16, 0, 0, 0xb7, 0x10, 0, 0], b < 256 := by decide
  have hrows : [0, 16, 0, 0, 0xb7, 0x10, 0, 0].map bytesAir.rowAt =
      [[0], [16], [0], [0]] ++ luiProgram.map fun b => [(b.toNat : Felt)] :=
    List.map_congr_left fun b hb => Table.rowAt_eq (bytesAir_getElem? (hlt b hb))
  rw [net_tableLookups, ← hrows]
  apply net_table (t := bytesAir)
  simp [bytesAir]

/-- What the tables put on the buses that do not depend on the permutation. -/
def stepLookups (carry : Felt) : List (Interaction Felt) :=
  (carriedRows carry).flatMap InstrRow.lookups ++ boundariesLookups (carriedBoundaries carry) ++
    stepDecode.flatMap DecodeColumns.lookups ++ memoryLookups stepMemory ++ programLookups stepRom ++
    (List.replicate 4 u32LessThanPadding).flatMap U32LessThanColumns.lookups ++
    (List.replicate 4 timestampLessThanPadding).flatMap TimestampLessThanColumns.lookups

include hcarry in
theorem net_stepLookups {bus : BusName} (hbus : bus ∉ hashBuses) (values : List Felt) :
    net (stepLookups carry) bus values = 0 := by
  have hmem : ∀ x ∈ stepLookups carry, x.bus ∉ hashBuses →
      net (stepLookups carry) x.bus x.values = 0 := by
    rcases hcarry with rfl | rfl <;> decide +kernel
  apply net_eq_zero_of_forall_mem
  rintro x hx rfl
  exact hmem x hx hbus

include hcarry in
theorem carriedTraces_balanced : Balanced (carriedTraces P carry).lookups := by
  have hhash := luiProgram_hash P
  have hprogram : luiProgram.length < 2 ^ 24 := by decide
  intro bus values
  by_cases hbus : bus ∈ hashBuses
  · rw [net_traceSet]
    simp only [hashBuses, List.mem_cons, List.not_mem_nil, or_false] at hbus
    rcases hbus with rfl | rfl | rfl
    · have hreal : ∀ c ∈ stepRom, c.isReal = 0 ∨ c.isReal = 1 := by decide
      have hrom : selected .receive .programImage (programLookups stepRom) =
          luiProgram.mapIdx fun i b => [(i : Felt), (b.toNat : Felt)] := by decide
      exact net_image hhash hprogram hreal hrom values
    · have hrows := net_carriedRows_bytes hcarry values
      have hsent := net_hash_bytes hhash values
      have htables := net_carriedTables_bytes P carry values
      rw [List.count_append, Nat.cast_add] at htables
      exact (congrArg₂ (· + ·) (congrArg₂ (· + ·) hrows hsent) htables).trans (add_neg_cancel _)
    · exact net_poseidon2Perm hhash hprogram values
  · have hchip : bus ∉ [.poseidon2Perm] := by
      intro hmem
      exact hbus (List.mem_of_mem_tail (List.mem_of_mem_tail hmem))
    have hbytes : bus ≠ .bytes := ne_of_mem_of_not_mem (by decide) hbus |>.symm
    have hstep := net_stepLookups hcarry hbus values
    simp only [stepLookups, net_append] at hstep
    rw [TraceSet.lookups]
    simp only [net_append, net_of_notMem (hash_bus _) hbus, net_of_notMem (chip_bus _) hchip,
      net_carriedTables P carry hbytes, add_zero]
    exact hstep

theorem carriedTraces_length : (carriedTraces P carry).lookups.length < modulus := by
  have hstep : (stepLookups carry).length = 112 := rfl
  have hhash : (programHashLookups (carriedTraces P carry).programHash).length = 196 := rfl
  have hchip : ((carriedTraces P carry).poseidon2Chip.flatMap
    Poseidon2Columns.lookups).length = 4 := rfl
  have hbitwise (op : ℕ → ℕ → ℕ) : (bitwiseRows op).length = 256 * 256 :=
    length_flatMap_range _ 256 256
  have htables : (carriedTraces P carry).tableLookups.length = 256 + 4 * 65536 + 2 ^ 15 := by
    simp [TraceSet.tableLookups, carriedTraces, Table.optionalLookups, lessThanAir_height, andAir,
      orAir, xorAir, hbitwise, bytesAir]
  have hsplit : (carriedTraces P carry).lookups.length = (stepLookups carry).length +
      (programHashLookups (carriedTraces P carry).programHash).length +
      ((carriedTraces P carry).poseidon2Chip.flatMap Poseidon2Columns.lookups).length +
      (carriedTraces P carry).tableLookups.length := by
    simp only [TraceSet.lookups, stepLookups, carriedTraces, List.length_append]
    omega
  rw [hsplit, hstep, hhash, hchip, htables]
  norm_num

include hcarry in
theorem carriedTraces_accepted : (carriedTraces P carry).Accepted P :=
  ⟨carriedTraces_eval P hcarry, carriedTraces_balanced P hcarry, carriedTraces_length P⟩

/-- The honest step, for any permutation; here every layer is the identity. -/
theorem normalised_pcs_iff_lui :
    let T := carriedTraces ⟨id, id, 0, 0, 0⟩ 0
    NormalisedPcs T ↔ ∀ r ∈ realRows T.rows, (nextPcSum r).Carried :=
  normalised_pcs_iff ⟨id, id, 0, 0, 0⟩ (carriedTraces ⟨id, id, 0, 0, 0⟩ 0)
    (carriedTraces_accepted _ (.inl rfl))

/-- With the carry set the boundaries receive a pc whose low limb is `4 - 256`. -/
theorem normalised_pcs_fails : ¬ ∀ (P : Poseidon2 Felt) (T : TraceSet Felt), T.Accepted P →
    NormalisedPcs T := by
  intro h
  have hnormalised := h ⟨id, id, 0, 0, 0⟩ (carriedTraces ⟨id, id, 0, 0, 0⟩ 1)
    (carriedTraces_accepted _ (.inr rfl))
  have hdummy : ∀ r ∈ carriedRows 1, r.isDummy = 0 ∨ r.isDummy = 1 := by decide
  have hfinal : Bytes ![4 - 1 * 256, 1, 0, 0] :=
    (normalisedPcs_iff_states hdummy).mp hnormalised (finalState (carriedBoundaries 1))
      (List.mem_append_right _ (List.mem_append_right _ List.mem_cons_self))
  exact absurd (hfinal 0) (by decide)

end Lui

end Loquela.Soundness
