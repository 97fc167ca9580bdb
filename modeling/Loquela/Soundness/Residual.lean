import Loquela.Soundness.Execution
import Loquela.Soundness.Ordering

/-! # What every accepted trace set guarantees

Nothing is assumed here about the columns that the constraints leave to the prover. The real rows
still execute instructions of the program only, their operations are on the 32 registers and can be
put in an order in which every one finds what the one before it left, and every value on the memory
bus is a word.
-/

namespace Loquela.Soundness
open Air Completeness Library Library.Bus Library.Replay Trace
open Rv32i hiding bit
open Vm (Byte ofRv32i U32)

section Residual

variable {P : Poseidon2 Felt} {T : TraceSet Felt}

/-- The word of the decode row that serves a row is in the ROM. -/
theorem exists_served (h : T.Accepted P) {r : InstrRow Felt} (hr : r ∈ realRows T.rows) :
    ∃ (pc : Limbs Felt) (i : Instr), RomHolds T.program pc (u32ToLimbs i.encode) ∧
      r.ports.id = instructionId (ofRv32i i) ∧
      r.ports.operands = (operands (ofRv32i i)).map (fun n : ℕ => (n : Felt)) ∧
      (r.ports.decodeBus = .decode → r.ports.pc = pc) := by
  have heval := bindingTables_eval h
  have hlength := bindingTables_length h
  have hbalanced := bindingTables_balanced h
  obtain ⟨d, hd, hserve⟩ := (bindingTables T).served heval hlength hbalanced hr
  obtain ⟨word, instruction, hdecodes⟩ := decode_row_sound (heval.2.1 d hd)
  obtain ⟨hid, hoperands, hpc⟩ := hdecodes.kind_eq hserve
  obtain ⟨i, rfl, rfl⟩ := Vm.exists_encode hdecodes.decode
  refine ⟨d.pc, i, ?_, hid, hoperands, hpc⟩
  rw [← hdecodes.bytes]
  exact (bindingTables T).fetched heval hlength hbalanced hd

/-- A word held by the ROM is stored in the program. -/
theorem exists_stored {program : List (ProgramColumns Felt)} {B : List Byte} {pc : Limbs Felt}
    {wd : U32} (heval : programEval program) (hrom : Holding program B)
    (h : RomHolds program pc (u32ToLimbs wd)) : ∃ a : ℕ, (a : Felt) = packed pc ∧ Stored B a wd := by
  obtain ⟨a, ha, hbytes⟩ := h
  refine ⟨a, ha, fun k hk => ?_⟩
  obtain ⟨c, hc, hreal, hvalue⟩ := hbytes ⟨k, hk⟩
  have hbyte := (getElem?_romBytes heval).mpr ⟨c, hc, hreal, hvalue⟩
  rw [hrom, List.getElem?_map, Option.map_eq_some_iff] at hbyte
  obtain ⟨b, hb, heq⟩ := hbyte
  rw [hb, Option.some.injEq]
  apply BitVec.eq_of_toNat_eq
  have hlt := leBytes_lt wd ⟨k, hk⟩
  have hb := b.isLt
  exact nat_eq_of_cast (by omega) (hlt.trans (by norm_num)) heq

/-- Every real row executes an instruction of the program: one that is stored at some address, and
for the 20 kinds whose tuples carry it at the row's own pc. -/
theorem executes_stored_instruction (P : Poseidon2 Felt) (T : TraceSet Felt) (B : List Byte)
    (h : T.Accepted P) (hrom : Holding T.program B) : ∀ r ∈ realRows T.rows,
      ∃ (a : ℕ) (i : Instr), Stored B a i.encode ∧ r.ports.id = instructionId (ofRv32i i) ∧
        r.ports.operands = (operands (ofRv32i i)).map (fun n : ℕ => (n : Felt)) ∧
        (r.ports.decodeBus = .decode → packed r.ports.pc = (a : Felt)) := by
  intro r hr
  obtain ⟨pc, i, hholds, hid, hoperands, hpc⟩ := exists_served h hr
  obtain ⟨a, ha, hstored⟩ := exists_stored h.eval.program hrom hholds
  exact ⟨a, i, hstored, hid, hoperands, fun hbus => by rw [hpc hbus, ha]⟩

/-- The trace set with a forged carry. -/
theorem executes_stored_instruction_forged : ∃ (a : ℕ) (i : Instr),
    Stored luiProgram a i.encode ∧
      (InstrRow.lui (carriedRow 1)).ports.id = instructionId (ofRv32i i) ∧
      (InstrRow.lui (carriedRow 1)).ports.operands =
        (operands (ofRv32i i)).map (fun n : ℕ => (n : Felt)) ∧
      ((InstrRow.lui (carriedRow 1)).ports.decodeBus = .decode →
        packed (InstrRow.lui (carriedRow 1)).ports.pc = (a : Felt)) :=
  executes_stored_instruction ⟨id, id, 0, 0, 0⟩ (carriedTraces ⟨id, id, 0, 0, 0⟩ 1) luiProgram
    (carriedTraces_accepted _ (.inr rfl)) (carriedTraces_holding 1) _ List.mem_cons_self

theorem exists_operandsOf (h : T.Accepted P) {r : InstrRow Felt} (hr : r ∈ realRows T.rows) :
    ∃ wd, OperandsOf wd r := by
  obtain ⟨-, i, -, hid, hoperands, -⟩ := exists_served h hr
  have hinstr : instrOf i.encode r.ports.id = i := by
    apply encode_injective
    rw [hid]
    exact encode_instrOf (fieldsOf_encode i)
  refine ⟨i.encode, ?_⟩
  rw [OperandsOf, hinstr]
  exact hoperands

/-- The operations on the memory bus. -/
def memoryOps (T : TraceSet Felt) : List (MemoryTuple Felt) := (realRows T.rows).flatMap rowOps

/-- The operations in the order of the memory table. -/
def tableOps (T : TraceSet Felt) : List (MemoryTuple Felt) :=
  (memoryTables T).realRows.map fun c => c.toMemoryTuple

theorem memoryOps_perm (h : T.Accepted P) : (memoryOps T).Perm (tableOps T) :=
  ops_perm_realRows (memoryTables_accepts h)

theorem memory_type (r : InstrRow Felt) : ∀ op ∈ r.ports.memory, op.memoryType = 0 := by
  intro op hop
  cases r with
  | lui c | auipc c | jal c =>
    rw [List.mem_singleton.mp hop]
    rfl
  | add c | sub c | xor c | or c | and c | sll c | srl c | sra c | slt c | sltu c =>
    rcases List.mem_cons.mp hop with rfl | hop
    · rfl
    · rcases List.mem_cons.mp hop with rfl | hop
      · rfl
      · rw [List.mem_singleton.mp hop]
        rfl
  | _ =>
    rcases List.mem_cons.mp hop with rfl | hop
    · rfl
    · rw [List.mem_singleton.mp hop]
      rfl

theorem mem_memoryOps {op : MemoryTuple Felt} (hop : op ∈ memoryOps T) :
    ∃ r ∈ realRows T.rows, op ∈ r.ports.memory := by
  obtain ⟨r, hr, hop⟩ := List.mem_flatMap.mp hop
  rw [rowOps] at hop
  split_ifs at hop
  · exact ⟨r, hr, hop⟩
  · cases hop

/-- Every operation is on a register. -/
theorem memoryOps_cell (h : T.Accepted P) : ∀ op ∈ memoryOps T, ∃ reg : Reg,
    (op.memoryType, op.address) = cell reg := by
  intro op hop
  obtain ⟨r, hr, hop⟩ := mem_memoryOps hop
  obtain ⟨wd, hoperands⟩ := exists_operandsOf h hr
  obtain ⟨reg, haddress⟩ := memory_addresses hoperands op hop
  exact ⟨reg, Prod.ext (memory_type r op hop) haddress⟩

theorem tableOps_cell (h : T.Accepted P) {c : MemoryColumns Felt} (hc : c ∈ T.memory)
    (hreal : c.isPadding = 0) : ∃ reg : Reg, (c.memoryType, c.address) = cell reg := by
  have hmem : c ∈ (memoryTables T).realRows := List.mem_filter.mpr ⟨hc, decide_eq_true hreal⟩
  exact memoryOps_cell h c.toMemoryTuple
    ((memoryOps_perm h).mem_iff.mpr (List.mem_map_of_mem hmem))

theorem bytes_cell (reg : Reg) : Bytes (cell reg).2 := by
  show Bytes (registerAddress (reg.toNat : Felt))
  rw [← register_limbs]
  exact bytes_u32ToLimbs _

/-- Neighbours in the memory table. The type flag is set between registers, so the address flag
tells whether the cell goes on. -/
theorem continues_of_real (h : T.Accepted P) {k : ℕ} (hk : k + 1 < T.memory.length)
    (hreal : T.memory[k + 1].isPadding = 0) : Continues cellKey 0
      (access T.memory[k].toMemoryTuple) (access T.memory[k + 1].toMemoryTuple) := by
  have haccepts := memoryTables_accepts h
  have hrealk := List.isChain_iff_getElem.mp (real_of_next h.eval.memory) k hk hreal
  have htransition := List.isChain_iff_getElem.mp h.eval.memory.2.2 k hk
  obtain ⟨reg, hreg⟩ := tableOps_cell h (List.getElem_mem (by omega)) hrealk
  obtain ⟨reg', hreg'⟩ := tableOps_cell h (List.getElem_mem hk) hreal
  have htype : T.memory[k].memoryType = 0 := congrArg Prod.fst hreg
  have htype' : T.memory[k + 1].memoryType = 0 := congrArg Prod.fst hreg'
  have hflag := flag_of_registers htransition (h.eval.memory.1 _ (List.getElem_mem _)).2 htype htype'
  have hlength : (memoryTables T).lookups.length < modulus := by
    have hinteractions := haccepts.interactions
    rw [List.length_append] at hinteractions
    omega
  rcases u32Lt_sound haccepts.eval hlength (net_lookups haccepts (by decide) (by decide))
      (net_lookups haccepts (by decide) (by decide)) (neighbour_mem (t := memoryTables T) hk) hflag
      hreal with ⟨hequal, haddress⟩ | ⟨hequal, hlt⟩
  · exact .inl ⟨Prod.ext (htype'.trans htype.symm) haddress.symm, read_eq_write htransition hequal⟩
  · refine .inr ⟨?_, read_eq_zero htransition fun hone => ?_⟩
    · have haddress : T.memory[k].address = (cell reg).2 := congrArg Prod.snd hreg
      have hnat := packedNat_lt (haddress ▸ bytes_cell reg) hlt
      simp only [cellKey, access, htype, htype', if_true, zero_add]
      exact hnat
    · exact absurd (hequal.symm.trans hone) zero_ne_one

/-- In the order of the table the operations are coherent. -/
theorem coherent_tableOps (h : T.Accepted P) :
    Coherent (fun _ => 0) ((tableOps T).map access) := by
  have hfalling := falling_real h.eval.memory
  have hchain : ((tableOps T).map access).IsChain (Continues cellKey 0) := by
    rw [tableOps, List.map_map, List.isChain_map]
    apply Prefix.isChain_filter hfalling
    apply List.isChain_iff_getElem.mpr
    intro k hk hreal
    exact continues_of_real h hk (of_decide_eq_true hreal)
  have hhead : ∀ x ∈ ((tableOps T).map access).head?, x.read = 0 := by
    intro x hx
    rw [tableOps, List.map_map, List.head?_map, Option.mem_map] at hx
    obtain ⟨c, hc, rfl⟩ := hx
    funext i
    exact h.eval.memory.2.1 c (Prefix.head_of_filter hfalling hc) i
  cases hops : (tableOps T).map access with
  | nil => trivial
  | cons x l =>
    rw [hops] at hchain hhead
    exact coherent_of_continues hchain (hhead x rfl) fun _ _ => rfl

/-- The operations of the real rows are on the 32 registers, no two of them at one time, and they
can be put in an order in which each finds what the one before it on its register left, and 0 when
there is none. -/
theorem memory_serializable (P : Poseidon2 Felt) (T : TraceSet Felt) (h : T.Accepted P) :
    (∀ op ∈ memoryOps T, ∃ reg : Reg, (op.memoryType, op.address) = cell reg) ∧
      ((memoryOps T).map fun op => op.timestamp).Nodup ∧
      ∃ ops, (memoryOps T).Perm ops ∧ Coherent (fun _ => 0) (ops.map access) := by
  refine ⟨memoryOps_cell h, ?_, tableOps T, memoryOps_perm h, coherent_tableOps h⟩
  have hnet : ∀ values, net (T.rows.flatMap InstrRow.lookups ++ boundariesLookups T.boundaries)
      .trace values = 0 := by
    intro values
    rw [net_append]
    exact (net_traceSet T .trace values).symm.trans (h.balanced .trace values)
  obtain ⟨chain, hperm, hpath, -⟩ := exists_chain
    (fun r hr => InstrRow.isDummy_of_eval (h.eval.rows r hr)) hnet (length_realRows_lt h)
  have hticks := sum_ticks_lt (length_realRows_lt h)
  rw [(hperm.map _).sum_eq] at hticks
  obtain ⟨hsorted, -⟩ := chain_times (n := 0) hpath Nat.cast_zero.symm (by omega)
  have hne : ∀ op op' : MemoryTuple Felt, (access op).time < (access op').time →
      op.timestamp ≠ op'.timestamp := fun _ _ hlt heq => hlt.ne (congrArg ZMod.val heq)
  rw [memoryOps, ((hperm.flatMap_right rowOps).map _).nodup_iff]
  exact List.pairwise_map.mpr ((List.pairwise_map.mp hsorted).imp (hne _ _))

theorem memory_serializable_forged :
    (∀ op ∈ memoryOps (carriedTraces ⟨id, id, 0, 0, 0⟩ 1), ∃ reg : Reg,
        (op.memoryType, op.address) = cell reg) ∧
      ((memoryOps (carriedTraces ⟨id, id, 0, 0, 0⟩ 1)).map fun op => op.timestamp).Nodup ∧
      ∃ ops, (memoryOps (carriedTraces ⟨id, id, 0, 0, 0⟩ 1)).Perm ops ∧
        Coherent (fun _ => 0) (ops.map access) :=
  memory_serializable ⟨id, id, 0, 0, 0⟩ _ (carriedTraces_accepted _ (.inr rfl))

section Written

variable {timestamp timestamp' timestamp'' d s₁ s₂ : Felt} {a b old z : Limbs Felt}

theorem upper_written (hz : Bytes z) :
    ∀ op ∈ [writeTuple timestamp d old z], Bytes op.read → Bytes op.write := by
  intro op hop _
  rw [List.mem_singleton.mp hop]
  exact hz

theorem immediate_written (hz : Bytes z) : ∀ op ∈ [readTuple timestamp s₁ a,
    writeTuple timestamp' d old z], Bytes op.read → Bytes op.write := by
  intro op hop hread
  rcases List.mem_cons.mp hop with rfl | hop
  · exact hread
  · exact upper_written hz op hop hread

theorem register_written (hz : Bytes z) : ∀ op ∈ [readTuple timestamp s₁ a,
    readTuple timestamp' s₂ b, writeTuple timestamp'' d old z],
      Bytes op.read → Bytes op.write := by
  intro op hop hread
  rcases List.mem_cons.mp hop with rfl | hop
  · exact hread
  · exact immediate_written hz op hop hread

end Written

theorem bytes_bitLimbs {b : Felt} (h : AssertBool b) : Bytes (bitLimbs b) := by
  have hb := val_lt_two h
  intro i
  fin_cases i
  · exact hb.trans (by norm_num)
  all_goals exact (by decide : (0 : Felt).val < 256)

/-- What a row writes is a word, whatever the prover has put in its open columns: the circuits
check the range of each result or look it up in a table of bytes. -/
theorem bytes_written {r : InstrRow Felt} (heval : r.eval) (hbytes : SendsBytes r.ports.checks)
    (hrows : ∀ t ∈ fixedTables, SendsRows t r.ports.checks) :
    ∀ op ∈ r.ports.memory, Bytes op.read → Bytes op.write := by
  have hlast : ∀ {l : List (Check Felt)} {x : Limbs Felt}, SendsBytes (l ++ byteChecks x) → Bytes x :=
    fun h => (sendsBytes_byteChecks _).mp (sendsBytes_append.mp h).2
  have htriple : ∀ {t : Table} {op : ℕ → ℕ → ℕ} {f : U32 → U32 → U32} {x y z : Limbs Felt},
      t.rows = bitwiseRows op → (∀ x y i, leBytes (f x y) i = op (leBytes x i) (leBytes y i)) →
        SendsRows t (tripleChecks t.bus x y z) → Bytes z :=
    fun ht hf h => (bitwise_word ht hf h).2 ▸ bytes_u32ToLimbs _
  cases r with
  | addi c => exact immediate_written (hlast hbytes)
  | xori c =>
    exact immediate_written (htriple (t := xorAir) rfl leBytes_xor (hrows _ (by simp [fixedTables])))
  | ori c =>
    exact immediate_written (htriple (t := orAir) rfl leBytes_or (hrows _ (by simp [fixedTables])))
  | andi c =>
    exact immediate_written (htriple (t := andAir) rfl leBytes_and (hrows _ (by simp [fixedTables])))
  | add c => exact register_written (hlast hbytes)
  | sub c => exact register_written (hlast hbytes)
  | xor c =>
    have hxor := hrows xorAir (by simp [fixedTables])
    exact register_written (htriple (t := xorAir) rfl leBytes_xor
      (sendsRows_append.mp (sendsRows_append.mp hxor).1).1)
  | or c =>
    exact register_written (htriple (t := orAir) rfl leBytes_or (hrows _ (by simp [fixedTables])))
  | and c =>
    exact register_written (htriple (t := andAir) rfl leBytes_and (hrows _ (by simp [fixedTables])))
  | sll c => exact register_written (hlast hbytes)
  | srl c => exact register_written (hlast hbytes)
  | sra c => exact register_written (hlast (sendsBytes_append.mp hbytes).1)
  | slli c => exact immediate_written (hlast hbytes)
  | srli c => exact immediate_written (hlast hbytes)
  | srai c => exact immediate_written (hlast (sendsBytes_append.mp hbytes).1)
  | slt c => exact register_written (bytes_bitLimbs heval.2.1.1)
  | sltu c => exact register_written (bytes_bitLimbs heval.2.1.1)
  | slti c => exact immediate_written (bytes_bitLimbs heval.2.2.1.1)
  | sltiu c => exact immediate_written (bytes_bitLimbs heval.2.2.1.1)
  | lui c => exact upper_written ((sendsBytes_byteChecks _).mp hbytes)
  | auipc c => exact upper_written (hlast hbytes)
  | jal c => exact upper_written (hlast hbytes)
  | jalr c => exact immediate_written (hlast hbytes)

/-- Every value on the memory bus is the four bytes of a word. -/
theorem values_are_words (P : Poseidon2 Felt) (T : TraceSet Felt) (h : T.Accepted P) :
    ∀ op ∈ memoryOps T, ∃ v w : U32, op.read = u32ToLimbs v ∧ op.write = u32ToLimbs w := by
  have hpasses : ∀ x ∈ (tableOps T).map access, Bytes x.read → Bytes x.write := by
    intro x hx hread
    obtain ⟨op, hop, rfl⟩ := List.mem_map.mp hx
    obtain ⟨r, hr, hop⟩ := mem_memoryOps ((memoryOps_perm h).mem_iff.mpr hop)
    exact bytes_written (real_eval h hr) (sendsBytes_of_accepted h hr)
      (fun _ ht => sendsRows_of_accepted h hr ht) op hop hread
  have hzero : Bytes (0 : Limbs Felt) := u32ToLimbs_zero (F := Felt) ▸ bytes_u32ToLimbs 0
  intro op hop
  obtain ⟨hread, hwrite⟩ := coherent_forall (coherent_tableOps h) (fun _ => hzero) hpasses
    (access op) (List.mem_map_of_mem ((memoryOps_perm h).mem_iff.mp hop))
  exact ⟨word op.read, word op.write, (u32ToLimbs_word hread).symm, (u32ToLimbs_word hwrite).symm⟩

theorem values_are_words_forged : ∃ v w : U32, (0 : Limbs Felt) = u32ToLimbs v ∧
    (![0, 16, 0, 0] : Limbs Felt) = u32ToLimbs w :=
  values_are_words ⟨id, id, 0, 0, 0⟩ _ (carriedTraces_accepted _ (.inr rfl))
    (writeTuple 0 1 0 ![0, 16, 0, 0]) List.mem_cons_self

end Residual

end Loquela.Soundness
