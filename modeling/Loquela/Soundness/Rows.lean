import Loquela.Completeness.RowBuses
import Loquela.Soundness.Accepted
import Loquela.Soundness.Arithmetic
import Loquela.Soundness.Bitwise
import Loquela.Soundness.LogicalShift
import Loquela.Soundness.NextPc

/-! # Rows as steps of the interpreter

A real row whose open columns have their intended values logs the operations of the instruction
that it looks up, and hands on the pc of that instruction, provided that it reads the register
file.
-/

namespace Loquela.Soundness
open Air Completeness Library Library.Replay Trace
open Rv32i hiding bit
open Library.Bits (bit)
open Vm (loggedOps loggedWrite MemoryOperation ofRv32i Registers U32)

/-- The immediate of an I-type row. -/
def immediate (imm : Felt) : BitVec 12 := BitVec.ofNat 12 imm.val

/-- The columns that the constraints of some AIRs leave to the prover are such that the row
computes its instruction. -/
def OpenColumns : InstrRow Felt → Prop
  | .addi c => c.immHighBits 3 = bit (immediate c.imm).msb
  | .slt c => c.signRs1 = bit (word c.rs1Bytes).msb ↔ c.signRs2 = bit (word c.rs2Bytes).msb
  | .slti c => c.signRs1 = bit (word c.rs1Bytes).msb ↔
      c.immHighBits 3 = bit (immediate c.imm).msb ∨
        (word c.rs1Bytes).toInt < (immediate c.imm).toNat - 4096 ∨
        ((immediate c.imm).toNat : ℤ) ≤ (word c.rs1Bytes).toInt
  | .sltiu c => c.immHighBits 3 = bit (immediate c.imm).msb ∨
      (word c.rs1Bytes).toNat < (immediate c.imm).toNat ∨
        (immediate c.imm).toNat + 0xFFFFF000 ≤ (word c.rs1Bytes).toNat
  | .sra c => c.signBit = bit (word c.rs1Bytes).msb ∨ (word c.rs2Value).toNat % 32 = 0
  | .srai c => c.signBit = bit (word c.rs1Bytes).msb ∨ c.imm = 0
  | .jalr c => c.rd ≠ 0 ∧ c.immHighBits 3 = bit (immediate c.imm).msb ∧ Bytes c.sum ∧
      c.sumLsb = bit ((c.sum 0).val.testBit 0)
  | _ => True

/-- The operations a row puts on the memory bus. -/
def rowOps (r : InstrRow Felt) : List (MemoryTuple Felt) :=
  if r.ports.memoryMultiplicity = 1 then r.ports.memory else []

/-- An operation of the interpreter as a tuple. -/
def opTuple (o : MemoryOperation) : MemoryTuple Felt := (MemoryOp.ofOperation o).tuple

theorem tuples_eq {l : List (MemoryTuple Felt)} {ops : List MemoryOperation}
    (h : l.map MemoryTuple.toList = ops.map operationTuple) : l = ops.map opTuple := by
  apply List.map_injective_iff.mpr MemoryTuple.toList_injective
  rw [h, List.map_map]
  rfl

theorem opTuple_read (x : Registers) (r : Reg) (t : ℕ) :
    opTuple (Vm.readRegister x r t) = readTuple (t : Felt) r.toNat (u32ToLimbs (x r)) :=
  MemoryTuple.toList_injective (operationTuple_read x r t)

theorem opTuple_write (x : Registers) (r : Reg) (t : ℕ) (v : U32) :
    opTuple (Vm.writeRegister x r t v) =
      writeTuple (t : Felt) r.toNat (u32ToLimbs (x r)) (u32ToLimbs v) :=
  MemoryTuple.toList_injective (operationTuple_write x r t v)

/-- The cell of a register in the memory table. -/
def cell (r : Reg) : Felt × Limbs Felt := (0, registerAddress (r.toNat : Felt))

/-- The memory holds the register file. -/
def Holds (m : Felt × Limbs Felt → Limbs Felt) (x : Registers) : Prop :=
  ∀ r, m (cell r) = u32ToLimbs (x r)

section Operations

variable {m : Felt × Limbs Felt → Limbs Felt} {x : Registers} (hm : Holds m x)
  {rd rs1 rs2 : Reg} {timestamp : Felt} {a b old z : Limbs Felt}

include hm

theorem upper_ops (h : Coherent m ([writeTuple timestamp rd.toNat old z].map access)) :
    old = u32ToLimbs (x rd) := h.1.trans (hm rd)

theorem immediate_ops (h : Coherent m ([readTuple timestamp rs1.toNat a,
      writeTuple (timestamp + 1) rd.toNat old z].map access)) :
    a = u32ToLimbs (x rs1) ∧ old = u32ToLimbs (x rd) := by
  obtain ⟨ha, hrest⟩ := coherent_read rfl h
  exact ⟨ha.trans (hm rs1), upper_ops hm hrest⟩

theorem register_ops (h : Coherent m ([readTuple timestamp rs1.toNat a,
      readTuple (timestamp + 1) rs2.toNat b, writeTuple (timestamp + 2) rd.toNat old z].map access)) :
    a = u32ToLimbs (x rs1) ∧ b = u32ToLimbs (x rs2) ∧ old = u32ToLimbs (x rd) := by
  obtain ⟨ha, hrest⟩ := coherent_read rfl h
  obtain ⟨hb, hrest⟩ := coherent_read rfl hrest
  exact ⟨ha.trans (hm rs1), hb.trans (hm rs2), upper_ops hm hrest⟩

end Operations

section Shapes

variable {m : Felt × Limbs Felt → Limbs Felt} {x : Registers} {pc : U32} {t : ℕ} {rd rs1 rs2 : Reg}
  {i : Instr} {v : U32} {timestamp d s₁ s₂ : Felt} {a b old z : Limbs Felt}
  (hm : Holds m x) (htime : timestamp = (t : Felt))
include hm htime

/-- No source. -/
theorem upper_loggedOps {operands : List Felt} {ns : List ℕ}
    (hoperands : d :: operands = (rd.toNat :: ns).map fun n : ℕ => (n : Felt))
    (hcoherent : Coherent m ([writeTuple timestamp d old z].map access))
    (hlog : loggedOps pc t x i = [Vm.writeRegister x rd t v])
    (hz : operands = ns.map (fun n : ℕ => (n : Felt)) → z = u32ToLimbs v) :
    [writeTuple timestamp d old z] = (loggedOps pc t x i).map opTuple := by
  obtain ⟨rfl, hrest⟩ := List.cons.inj hoperands
  subst htime
  have hold := upper_ops hm hcoherent
  apply tuples_eq
  rw [hlog, hold, hz hrest, List.map_singleton, List.map_singleton, operationTuple_write]

/-- One source. -/
theorem immediate_loggedOps {imm : Felt} {n : ℕ}
    (hoperands : [d, s₁, imm] = [rd.toNat, rs1.toNat, n].map fun n : ℕ => (n : Felt))
    (hcoherent : Coherent m ([readTuple timestamp s₁ a,
      writeTuple (timestamp + 1) d old z].map access))
    (hlog : loggedOps pc t x i = [Vm.readRegister x rs1 t, Vm.writeRegister x rd (t + 1) v])
    (hz : a = u32ToLimbs (x rs1) → imm = n → z = u32ToLimbs v) :
    [readTuple timestamp s₁ a, writeTuple (timestamp + 1) d old z] =
      (loggedOps pc t x i).map opTuple := by
  obtain ⟨rfl, rfl, himm⟩ : d = rd.toNat ∧ s₁ = rs1.toNat ∧ imm = n := by simpa using hoperands
  subst htime
  obtain ⟨ha, hold⟩ := immediate_ops hm hcoherent
  apply tuples_eq
  rw [hlog, hold, ha]
  exact immediate_tuples x rd rs1 t _ (hz ha himm)

/-- Two sources. -/
theorem register_loggedOps
    (hoperands : [d, s₁, s₂] = [rd.toNat, rs1.toNat, rs2.toNat].map fun n : ℕ => (n : Felt))
    (hcoherent : Coherent m ([readTuple timestamp s₁ a, readTuple (timestamp + 1) s₂ b,
      writeTuple (timestamp + 2) d old z].map access))
    (hlog : loggedOps pc t x i = [Vm.readRegister x rs1 t, Vm.readRegister x rs2 (t + 1),
      Vm.writeRegister x rd (t + 2) v])
    (hz : a = u32ToLimbs (x rs1) → b = u32ToLimbs (x rs2) → z = u32ToLimbs v) :
    [readTuple timestamp s₁ a, readTuple (timestamp + 1) s₂ b,
      writeTuple (timestamp + 2) d old z] = (loggedOps pc t x i).map opTuple := by
  obtain ⟨rfl, rfl, rfl⟩ : d = rd.toNat ∧ s₁ = rs1.toNat ∧ s₂ = rs2.toNat := by
    simpa using hoperands
  subst htime
  obtain ⟨ha, hb, hold⟩ := register_ops hm hcoherent
  apply tuples_eq
  rw [hlog, hold, ha, hb]
  exact register_tuples x rd rs1 rs2 t _ (hz ha hb)

end Shapes

section Values

variable {x : Registers} {pc : U32} {t : ℕ} {rd rs1 rs2 : Reg} {i : Instr} {v : U32}
  {timestamp d s₁ s₂ : Felt} {a b old z : Limbs Felt}

/-- The values in the operations of a row with one source. -/
theorem immediate_values (h : [readTuple timestamp s₁ a, writeTuple (timestamp + 1) d old z] =
      (loggedOps pc t x i).map opTuple)
    (hlog : loggedOps pc t x i = [Vm.readRegister x rs1 t, Vm.writeRegister x rd (t + 1) v]) :
    a = u32ToLimbs (x rs1) ∧ z = u32ToLimbs v := by
  rw [hlog, List.map_cons, List.map_singleton, opTuple_read, opTuple_write] at h
  obtain ⟨hread, hwrite⟩ := List.cons.inj h
  exact ⟨congrArg MemoryTuple.read hread, congrArg MemoryTuple.write (List.cons.inj hwrite).1⟩

/-- The values in the operations of a row with two sources. -/
theorem register_values (h : [readTuple timestamp s₁ a, readTuple (timestamp + 1) s₂ b,
      writeTuple (timestamp + 2) d old z] = (loggedOps pc t x i).map opTuple)
    (hlog : loggedOps pc t x i = [Vm.readRegister x rs1 t, Vm.readRegister x rs2 (t + 1),
      Vm.writeRegister x rd (t + 2) v]) :
    a = u32ToLimbs (x rs1) ∧ b = u32ToLimbs (x rs2) ∧ z = u32ToLimbs v := by
  rw [hlog, List.map_cons, List.map_cons, List.map_singleton, opTuple_read, opTuple_read,
    opTuple_write] at h
  obtain ⟨hread, hrest⟩ := List.cons.inj h
  obtain ⟨hread', hwrite⟩ := List.cons.inj hrest
  exact ⟨congrArg MemoryTuple.read hread, congrArg MemoryTuple.read hread',
    congrArg MemoryTuple.write (List.cons.inj hwrite).1⟩

end Values

theorem upperImmediate_word (word : U32) :
    upperImmediate (word.extractLsb' 20 12) (word.extractLsb' 12 8) =
      word.extractLsb' 12 20 ++ (0 : BitVec 12) := by
  have hparts : word.extractLsb' 20 12 ++ word.extractLsb' 12 8 = word.extractLsb' 12 20 :=
    BitVec.extractLsb'_append_extractLsb'_eq_extractLsb' rfl
  rw [upperImmediate, hparts, Vm.immU_shiftLeft]

theorem jumpImmediate_word (word : U32) :
    jumpImmediate (word.extractLsb' 31 1 ++ (word.extractLsb' 20 1 ++ word.extractLsb' 21 10))
      (word.extractLsb' 12 8) = (offsetJ word ++ (0 : BitVec 1)).signExtend 32 := by
  obtain ⟨h20, h10, h11, h19⟩ := offsetJ_parts word
  rw [← jumpImmediate_offset, h20, h10, h11, h19]

theorem immediate_natCast (imm : BitVec 12) : immediate (imm.toNat : Felt) = imm := by
  have himm : imm.toNat < modulus := imm.isLt.trans (by norm_num)
  rw [immediate, ZMod.val_natCast_of_lt himm, BitVec.ofNat_toNat, BitVec.setWidth_eq]

theorem ite_eq_bit (p : Prop) [Decidable p] : (if p then (1 : U32) else 0) = Rv32i.bit p := by
  simp [Rv32i.bit]

theorem bitLimbs_decide (p : Prop) [Decidable p] :
    bitLimbs (if p then (1 : Felt) else 0) = u32ToLimbs (Rv32i.bit p) := by
  simp [← bitLimbs_ite]

theorem bitLimbs_injective : Function.Injective (bitLimbs (F := Felt)) :=
  fun _ _ h => congrFun h 0

/-- The operand columns are those of the instruction of the row's kind in `word`. -/
def OperandsOf (word : U32) (r : InstrRow Felt) : Prop :=
  r.ports.operands = (operands (ofRv32i (instrOf word r.ports.id))).map fun n : ℕ => (n : Felt)

section Kinds

variable {m : Felt × Limbs Felt → Limbs Felt} {x : Registers} {pc wd : U32} {t : ℕ}
  {r : InstrRow Felt} (hoperands : OperandsOf wd r) (heval : r.eval) (hdummy : r.ports.isDummy = 1)
  (hbytes : SendsBytes r.ports.checks) (hrows : ∀ t ∈ fixedTables, SendsRows t r.ports.checks)
  (hpc : r.ports.pc = u32ToLimbs pc) (htime : r.ports.timestamp = (t : Felt))

/-- Only `JAL` gates its operation. -/
theorem multiplicity_eq_isDummy_of_ne (h : r.ports.id ≠ .jal) :
    r.ports.memoryMultiplicity = r.ports.isDummy := by
  cases r <;> first | rfl | exact absurd rfl h

include hoperands heval hbytes hrows hpc htime in
/-- The operations of a row of any kind but `JAL` are those of its instruction. -/
theorem memory_eq_loggedOps (hjal : r.ports.id ≠ .jal) (hopen : OpenColumns r) (hm : Holds m x)
    (hover : pc.toNat + 4 < 2 ^ 32) (hcoherent : Coherent m (r.ports.memory.map access)) :
    r.ports.memory = (loggedOps pc t x (instrOf wd r.ports.id)).map opTuple := by
  rw [OperandsOf, operands_instrOf] at hoperands
  have himm := immediate_natCast (wd.extractLsb' 20 12)
  cases r with
  | addi c =>
    refine immediate_loggedOps (n := (wd.extractLsb' 20 12).toNat) hm htime hoperands hcoherent rfl
      fun ha hi => ?_
    rw [OpenColumns, hi, himm] at hopen
    rw [(addi_row_iff c _ heval hbytes hi).mpr hopen, ha, word_u32ToLimbs]
    rfl
  | xori c =>
    refine immediate_loggedOps hm htime hoperands hcoherent rfl fun ha hi => ?_
    rw [(bitwiseImm_row (t := xorAir) c heval hi rfl leBytes_xor (hrows _ (by simp [fixedTables]))).2,
      ha, word_u32ToLimbs]
    rfl
  | ori c =>
    refine immediate_loggedOps hm htime hoperands hcoherent rfl fun ha hi => ?_
    rw [(bitwiseImm_row (t := orAir) c heval hi rfl leBytes_or (hrows _ (by simp [fixedTables]))).2,
      ha, word_u32ToLimbs]
    rfl
  | andi c =>
    refine immediate_loggedOps hm htime hoperands hcoherent rfl fun ha hi => ?_
    rw [(bitwiseImm_row (t := andAir) c heval hi rfl leBytes_and (hrows _ (by simp [fixedTables]))).2,
      ha, word_u32ToLimbs]
    rfl
  | add c =>
    refine register_loggedOps hm htime hoperands hcoherent rfl fun ha hb => ?_
    rw [add_row c heval hbytes, ha, hb, word_u32ToLimbs, word_u32ToLimbs]
    rfl
  | sub c =>
    refine register_loggedOps hm htime hoperands hcoherent rfl fun ha hb => ?_
    rw [sub_row c heval hbytes, ha, hb, word_u32ToLimbs, word_u32ToLimbs]
    rfl
  | xor c =>
    refine register_loggedOps hm htime hoperands hcoherent rfl fun ha hb => ?_
    have h := (sendsRows_append.mp (sendsRows_append.mp (hrows xorAir (by simp [fixedTables]))).1).1
    rw [(bitwise_word (t := xorAir) rfl leBytes_xor h).2, ha, hb, word_u32ToLimbs, word_u32ToLimbs]
    rfl
  | or c =>
    refine register_loggedOps hm htime hoperands hcoherent rfl fun ha hb => ?_
    have h := hrows orAir (by simp [fixedTables])
    rw [(bitwise_word (t := orAir) rfl leBytes_or h).2, ha, hb, word_u32ToLimbs, word_u32ToLimbs]
    rfl
  | and c =>
    refine register_loggedOps hm htime hoperands hcoherent rfl fun ha hb => ?_
    have h := hrows andAir (by simp [fixedTables])
    rw [(bitwise_word (t := andAir) rfl leBytes_and h).2, ha, hb, word_u32ToLimbs, word_u32ToLimbs]
    rfl
  | sll c =>
    refine register_loggedOps hm htime hoperands hcoherent rfl fun ha hb => ?_
    rw [(sll_row heval hbytes (hrows _ (by simp [fixedTables]))).1, ha, hb, word_u32ToLimbs,
      word_u32ToLimbs]
    rfl
  | srl c =>
    refine register_loggedOps hm htime hoperands hcoherent rfl fun ha hb => ?_
    rw [(srl_row heval hbytes (hrows _ (by simp [fixedTables]))).1, ha, hb, word_u32ToLimbs,
      word_u32ToLimbs]
    rfl
  | sra c =>
    refine register_loggedOps hm htime hoperands hcoherent rfl fun ha hb => ?_
    rw [(sra_row_iff c heval hbytes (hrows byteShiftRightAir (by simp [fixedTables]))).mpr hopen,
      ha, hb, word_u32ToLimbs, word_u32ToLimbs]
    rfl
  | slli c =>
    refine immediate_loggedOps hm htime hoperands hcoherent rfl fun ha hi => ?_
    rw [(slli_row heval (hrows _ (by simp [fixedTables])) hi).1, ha, word_u32ToLimbs]
    rfl
  | srli c =>
    refine immediate_loggedOps hm htime hoperands hcoherent rfl fun ha hi => ?_
    rw [(srli_row heval (hrows _ (by simp [fixedTables])) hi).1, ha, word_u32ToLimbs]
    rfl
  | srai c =>
    refine immediate_loggedOps (n := (wd.extractLsb' 20 5).toNat) hm htime hoperands hcoherent rfl
      fun ha hi => ?_
    have hshamt : c.imm = 0 → (wd.extractLsb' 20 5).toNat = 0 := by
      intro hzero
      have hlt := (wd.extractLsb' 20 5).isLt
      rw [hi, ← Nat.cast_zero] at hzero
      exact nat_eq_of_cast (by omega) (by omega) hzero
    rw [(srai_row_iff c _ heval (hrows byteShiftRightAir (by simp [fixedTables])) hi).mpr
      (hopen.imp_right hshamt), ha, word_u32ToLimbs]
    rfl
  | slt c =>
    refine register_loggedOps hm htime hoperands hcoherent rfl fun ha hb => ?_
    rw [(slt_row_iff c heval hbytes).mpr hopen, ha, hb, word_u32ToLimbs, word_u32ToLimbs]
    exact bitLimbs_ite _
  | sltu c =>
    refine register_loggedOps hm htime hoperands hcoherent rfl fun ha hb => ?_
    rw [sltu_row c heval hbytes, ha, hb, word_u32ToLimbs, word_u32ToLimbs, ite_eq_bit]
    rfl
  | slti c =>
    refine immediate_loggedOps (n := (wd.extractLsb' 20 12).toNat) hm htime hoperands hcoherent rfl
      fun ha hi => ?_
    rw [OpenColumns, hi, himm] at hopen
    rw [(slti_row_iff c _ heval hbytes hi).mpr hopen, ha, word_u32ToLimbs]
    exact bitLimbs_ite _
  | sltiu c =>
    refine immediate_loggedOps (n := (wd.extractLsb' 20 12).toNat) hm htime hoperands hcoherent rfl
      fun ha hi => ?_
    rw [OpenColumns, hi, himm] at hopen
    rw [(sltiu_row_iff c _ heval hbytes hi).mpr hopen, ha, word_u32ToLimbs]
    exact bitLimbs_decide _
  | lui c =>
    refine upper_loggedOps hm htime hoperands hcoherent rfl fun hparts => ?_
    obtain ⟨hhigh, hlow⟩ : c.immHigh12 = ((wd.extractLsb' 20 12).toNat : Felt) ∧
        c.immLow8 = ((wd.extractLsb' 12 8).toNat : Felt) := by simpa using hparts
    rw [lui_row c heval hbytes hhigh hlow, upperImmediate_word]
    rfl
  | auipc c =>
    refine upper_loggedOps hm htime hoperands hcoherent rfl fun hparts => ?_
    obtain ⟨hhigh, hlow⟩ : c.immHigh12 = ((wd.extractLsb' 20 12).toNat : Felt) ∧
        c.immLow8 = ((wd.extractLsb' 12 8).toNat : Felt) := by simpa using hparts
    have hpc : c.pc = u32ToLimbs pc := hpc
    rw [auipc_row c heval hbytes hhigh hlow, hpc, word_u32ToLimbs, upperImmediate_word]
    rfl
  | jal c => exact absurd rfl hjal
  | jalr c =>
    refine immediate_loggedOps (n := (wd.extractLsb' 20 12).toNat) hm htime hoperands hcoherent rfl
      fun ha hi => ?_
    have hpc : c.pc = u32ToLimbs pc := hpc
    rw [OpenColumns, hi, himm] at hopen
    have hcorrect := (jalr_row_iff c _ heval (hpc ▸ bytes_u32ToLimbs pc)
      (by rwa [hpc, word_u32ToLimbs]) hbytes hi).mpr hopen
    have hrd : wd.extractLsb' 7 5 ≠ 0 := by
      intro hzero
      apply hopen.1
      rw [(List.cons.inj hoperands).1, hzero]
      rfl
    rw [hcorrect.rdVal, if_neg hopen.1, hpc, word_u32ToLimbs, if_neg hrd]

omit hoperands in
theorem jal_columns {c : JalColumns Felt} (h : OperandsOf wd (.jal c)) :
    c.rd = ((wd.extractLsb' 7 5).toNat : Felt) ∧
      c.immHigh12 = ((wd.extractLsb' 31 1 ++
        (wd.extractLsb' 20 1 ++ wd.extractLsb' 21 10)).toNat : Felt) ∧
      c.immLo8 = ((wd.extractLsb' 12 8).toNat : Felt) := by
  rw [OperandsOf, operands_instrOf] at h
  have hparts := (List.cons.inj h).2
  refine ⟨(List.cons.inj h).1, (List.cons.inj hparts).1.trans (congrArg Nat.cast ?_),
    (List.cons.inj (List.cons.inj hparts).2).1⟩
  rw [BitFields.toNat_append, BitFields.toNat_append]
  omega

/-- A destination is `x0` exactly where its column is zero. -/
theorem register_eq_zero_iff (rd : Reg) : (rd.toNat : Felt) = 0 ↔ rd = 0 := by
  have hlt := rd.isLt
  rw [← Nat.cast_zero, BitVec.toNat_eq]
  exact ⟨nat_eq_of_cast (by omega) (by omega), congrArg Nat.cast⟩

/-- A jump that names no register performs no operation. -/
theorem jal_multiplicity {c : JalColumns Felt} (h : c.rdZero) (hrd : c.rd = 0) :
    c.ports.memoryMultiplicity = 0 := by
  obtain ⟨-, -, hinv⟩ := h
  have hone : c.rdIsZero = 1 := by rwa [hrd, zero_mul, zero_add] at hinv
  show c.isDummy * (1 - c.rdIsZero) = 0
  rw [hone, sub_self, mul_zero]

include hdummy in
theorem jal_rowOps {c : JalColumns Felt} (hr : r = .jal c) (hoperands : OperandsOf wd (.jal c))
    (heval : c.eval) (hbytes : SendsBytes c.ports.checks) (hpc : c.pc = u32ToLimbs pc)
    (htime : c.timestamp = (t : Felt)) (hm : Holds m x)
    (hcoherent : Coherent m ((rowOps (.jal c)).map access)) :
    rowOps (.jal c) =
      (loggedOps pc t x (.jal (wd.extractLsb' 7 5) (offsetJ wd))).map opTuple := by
  obtain ⟨hrd, hhigh, hlow⟩ := jal_columns hoperands
  have hops : rowOps (.jal c) = if c.ports.memoryMultiplicity = 1 then c.ports.memory else [] := rfl
  by_cases hzero : wd.extractLsb' 7 5 = 0
  · rw [hops, jal_multiplicity heval.2.2.2.2.2 (by rw [hrd, hzero]; rfl), if_neg zero_ne_one, hzero]
    rfl
  · have hne : c.rd ≠ 0 := by rwa [hrd, ne_eq, register_eq_zero_iff]
    obtain ⟨hmult, hval, -⟩ := jal_row c hne heval hbytes hhigh hlow
    have hdummy : c.isDummy = 1 := by rwa [hr] at hdummy
    rw [hops, hmult, if_pos hdummy] at hcoherent ⊢
    refine upper_loggedOps hm htime hoperands hcoherent (Vm.loggedOps_jal pc t x hzero _) fun _ => ?_
    rw [hval, hpc, word_u32ToLimbs]

include hoperands heval hdummy hbytes hrows hpc htime in
/-- A row logs the operations of its instruction. -/
theorem rowOps_eq (hopen : OpenColumns r) (hm : Holds m x) (hover : pc.toNat + 4 < 2 ^ 32)
    (hcoherent : Coherent m ((rowOps r).map access)) :
    rowOps r = (loggedOps pc t x (instrOf wd r.ports.id)).map opTuple := by
  by_cases hjal : r.ports.id = .jal
  · cases r with
    | jal c => exact jal_rowOps hdummy rfl hoperands heval hbytes hpc htime hm hcoherent
    | _ => cases hjal
  · have hone := (multiplicity_eq_isDummy_of_ne hjal).trans hdummy
    rw [rowOps, if_pos hone] at hcoherent ⊢
    exact memory_eq_loggedOps hoperands heval hbytes hrows hpc htime hjal hopen hm hover hcoherent

include hoperands heval hdummy hbytes hpc in
/-- A row hands on the next pc of its instruction. -/
theorem nextPc_eq (hopen : OpenColumns r) (hm : Holds m x) (hover : pc.toNat + 4 < 2 ^ 32)
    (hcoherent : Coherent m ((rowOps r).map access)) (hnext : Bytes r.ports.nextPc) :
    r.ports.nextPc = u32ToLimbs ((instrOf wd r.ports.id).nextPc pc x) := by
  have hfour : ∀ carries, u32PlusFour r.ports.pc r.ports.nextPc carries →
      r.ports.nextPc = u32ToLimbs (pc + 4) := by
    intro carries h
    rw [u32PlusFour_word h (hpc ▸ bytes_u32ToLimbs pc) hnext, hpc, word_u32ToLimbs]
  cases r with
  | jal c =>
    obtain ⟨-, hhigh, hlow⟩ := jal_columns hoperands
    obtain ⟨-, hbits, himm, hadd, -⟩ := heval
    have hpc : c.pc = u32ToLimbs pc := hpc
    have hoffset := immJ_word hbits himm hhigh hlow
    show c.nextPc = _
    rw [u32Add_word hadd (hpc ▸ bytes_u32ToLimbs pc) (hoffset ▸ bytes_u32ToLimbs _) hnext, hpc,
      hoffset, word_u32ToLimbs, word_u32ToLimbs, jumpImmediate_word]
    rfl
  | jalr c =>
    rw [OperandsOf, operands_instrOf] at hoperands
    obtain ⟨hrd, hrest⟩ := List.cons.inj hoperands
    obtain ⟨hrs1, hrest⟩ := List.cons.inj hrest
    have hi : c.imm = ((wd.extractLsb' 20 12).toNat : Felt) := (List.cons.inj hrest).1
    have hpc : c.pc = u32ToLimbs pc := hpc
    rw [OpenColumns, hi, immediate_natCast] at hopen
    have htarget := ((jalr_row_iff c _ heval (hpc ▸ bytes_u32ToLimbs pc)
      (by rwa [hpc, word_u32ToLimbs]) hbytes hi).mpr hopen).nextPc
    have hone : (InstrRow.jalr c).ports.memoryMultiplicity = 1 := hdummy
    rw [rowOps, if_pos hone] at hcoherent
    have hcoherent : Coherent m ([readTuple c.timestamp c.rs1 c.rs1Value,
      writeTuple (c.timestamp + 1) c.rd c.oldRdValue c.rdVal].map access) := hcoherent
    rw [hrd, hrs1] at hcoherent
    rw [(immediate_ops hm hcoherent).1, word_u32ToLimbs] at htarget
    exact htarget
  | xor c => exact hfour _ heval.2
  | or c => exact hfour _ heval.2
  | and c => exact hfour _ heval.2
  | _ => exact hfour _ heval.1.2

include hoperands heval hdummy hbytes hrows hpc in
/-- A row that logs the operations of its instruction and hands on its next pc has its open
columns filled in. -/
theorem openColumns_of_step (hover : pc.toNat + 4 < 2 ^ 32)
    (hops : rowOps r = (loggedOps pc t x (instrOf wd r.ports.id)).map opTuple)
    (hnext : r.ports.nextPc = u32ToLimbs ((instrOf wd r.ports.id).nextPc pc x)) :
    OpenColumns r := by
  rw [OperandsOf, operands_instrOf] at hoperands
  have himm := immediate_natCast (wd.extractLsb' 20 12)
  have hthird : ∀ {a b c : Felt} {m n k : ℕ},
      [a, b, c] = [m, n, k].map (fun n : ℕ => (n : Felt)) → c = (k : Felt) :=
    fun h => (List.cons.inj (List.cons.inj (List.cons.inj h).2).2).1
  by_cases hjal : r.ports.id = .jal
  · cases r with
    | jal c => trivial
    | _ => cases hjal
  have hone := (multiplicity_eq_isDummy_of_ne hjal).trans hdummy
  rw [rowOps, if_pos hone] at hops
  cases r with
  | addi c =>
    have hi : c.imm = ((wd.extractLsb' 20 12).toNat : Felt) := hthird hoperands
    obtain ⟨ha, hz⟩ := immediate_values hops rfl
    rw [OpenColumns, hi, himm]
    apply (addi_row_iff c _ heval hbytes hi).mp
    rw [hz, ha, word_u32ToLimbs]
    rfl
  | slt c =>
    obtain ⟨ha, hb, hz⟩ := register_values hops rfl
    apply (slt_row_iff c heval hbytes).mp
    apply bitLimbs_injective
    rw [hz, ha, hb, word_u32ToLimbs, word_u32ToLimbs]
    exact (bitLimbs_ite _).symm
  | slti c =>
    have hi : c.imm = ((wd.extractLsb' 20 12).toNat : Felt) := hthird hoperands
    obtain ⟨ha, hz⟩ := immediate_values hops rfl
    rw [OpenColumns, hi, himm]
    apply (slti_row_iff c _ heval hbytes hi).mp
    apply bitLimbs_injective
    rw [hz, ha, word_u32ToLimbs]
    exact (bitLimbs_ite _).symm
  | sltiu c =>
    have hi : c.imm = ((wd.extractLsb' 20 12).toNat : Felt) := hthird hoperands
    obtain ⟨ha, hz⟩ := immediate_values hops rfl
    rw [OpenColumns, hi, himm]
    apply (sltiu_row_iff c _ heval hbytes hi).mp
    apply bitLimbs_injective
    rw [hz, ha, word_u32ToLimbs]
    exact (bitLimbs_decide _).symm
  | sra c =>
    obtain ⟨ha, hb, hz⟩ := register_values hops rfl
    apply (sra_row_iff c heval hbytes (hrows byteShiftRightAir (by simp [fixedTables]))).mp
    rw [hz, ha, hb, word_u32ToLimbs, word_u32ToLimbs]
    rfl
  | srai c =>
    have hi : c.imm = ((wd.extractLsb' 20 5).toNat : Felt) := hthird hoperands
    obtain ⟨ha, hz⟩ := immediate_values hops rfl
    refine ((srai_row_iff c _ heval (hrows byteShiftRightAir (by simp [fixedTables])) hi).mp
      ?_).imp_right fun hzero => ?_
    · rw [hz, ha, word_u32ToLimbs]
      rfl
    · rw [hi, hzero, Nat.cast_zero]
  | jalr c =>
    have hi : c.imm = ((wd.extractLsb' 20 12).toNat : Felt) := hthird hoperands
    have hrd : c.rd = ((wd.extractLsb' 7 5).toNat : Felt) := (List.cons.inj hoperands).1
    have hpc : c.pc = u32ToLimbs pc := hpc
    obtain ⟨ha, hz⟩ := immediate_values hops rfl
    rw [OpenColumns, hi, himm]
    refine (jalr_row_iff c _ heval (hpc ▸ bytes_u32ToLimbs pc)
      (by rwa [hpc, word_u32ToLimbs]) hbytes hi).mp ⟨?_, ?_⟩
    · rw [ha, word_u32ToLimbs]
      exact hnext
    · rw [hz, hpc, word_u32ToLimbs]
      exact congrArg u32ToLimbs (if_congr (hrd ▸ (register_eq_zero_iff _).symm) rfl rfl)
  | _ => trivial

end Kinds

end Loquela.Soundness
