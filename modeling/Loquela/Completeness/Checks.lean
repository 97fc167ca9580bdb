import Loquela.Completeness.Rows

/-! # The checks of a step

Step by step, the entries that `generate_traces` counts for the range and operation tables are the
tuples the step's row sends them.
-/

namespace Loquela.Completeness
open Air Library Trace
open Rv32i hiding bit
open Vm (ofRv32i Register U32)

variable {F : Type*}

/-- The tuples that a list of checks sends on a bus. -/
def checksOn (bus : BusName) (checks : List (Check F)) : List (List F) :=
  (checks.filter fun c => c.1 = bus).map (·.2)

section ChecksOn

variable {bus bus' : BusName}

@[simp] theorem checksOn_append (l₁ l₂ : List (Check F)) :
    checksOn bus (l₁ ++ l₂) = checksOn bus l₁ ++ checksOn bus l₂ := by
  rw [checksOn, List.filter_append, List.map_append]
  rfl

@[simp] theorem checksOn_nil : checksOn bus ([] : List (Check F)) = [] := rfl

theorem checksOn_singleton (tuple : List F) :
    checksOn bus [(bus', tuple)] = if bus' = bus then [tuple] else [] := by
  by_cases h : bus' = bus <;> simp [checksOn, h]

theorem checksOn_ofFn {n : ℕ} (f : Fin n → List F) :
    checksOn bus (List.ofFn fun i => ((bus', f i) : Check F)) =
      if bus' = bus then List.ofFn f else [] := by
  split_ifs with h
  · subst h
    rw [checksOn, List.filter_eq_self.mpr, List.map_ofFn]
    · rfl
    · intro c hc
      obtain ⟨i, rfl⟩ := List.mem_ofFn.mp hc
      simp
  · rw [checksOn, List.filter_eq_nil_iff.mpr, List.map_nil]
    intro c hc
    obtain ⟨i, rfl⟩ := List.mem_ofFn.mp hc
    simpa using h

end ChecksOn

section Words

variable [Field F]

def wordChecks (v : U32) : List (Check F) := byteChecks (u32ToLimbs v)

def byteCheck (b : ℕ) : List (Check F) := [(.bytes, [(b : F)])]

def bitwiseChecks (bus : BusName) (x y z : U32) : List (Check F) :=
  tripleChecks bus (u32ToLimbs x) (u32ToLimbs y) (u32ToLimbs z)

def sllChecks (x : U32) (k : ℕ) : List (Check F) :=
  shiftChecks .byteSll (u32ToLimbs x) k (ofNats fun i => sllShifted (leBytes x i) k)
    (ofNats fun i => sllCarry (leBytes x i) k)

def srlChecks (x : U32) (k : ℕ) : List (Check F) :=
  shiftChecks .byteSrl (u32ToLimbs x) k (ofNats fun i => srlShifted (leBytes x i) k)
    (ofNats fun i => srlCarry (leBytes x i) k)

/-- The lookup of `0xFF` by the arithmetic shifts. -/
def maskChecks (k : ℕ) : List (Check F) :=
  [(.byteSrl, [0xFF, (k : F), (srlShifted 0xFF k : ℕ), (srlCarry 0xFF k : ℕ)])]

theorem low7_eq (v : U32) : low7 v = leBytes v 3 &&& 0x7F := by
  rw [low7, BitVec.toNat_and, leBytes_eq, BitVec.toNat_ushiftRight, Nat.shiftRight_eq_div_pow]
  have h := v.isLt
  rw [Nat.mod_eq_of_lt]
  · rfl
  · show v.toNat / 2 ^ 24 < 256
    omega

theorem byte3Low7_eq (v : U32) : byte3Low7 v = low7 v := by
  rw [byte3Low7, low7, BitVec.and_assoc]
  rfl

/-- The checks of the row of a step, from its instruction. -/
def Executed.checks (x : Executed) : List (Check F) :=
  let value := x.registers
  let result := x.instr.result x.pc x.registers
  match x.instr with
  | .opImm .addi _ rs1 _ => wordChecks (value rs1) ++ wordChecks result
  | .opImm .slti _ rs1 imm =>
    wordChecks (value rs1) ++ wordChecks (value rs1 - imm.signExtend 32) ++
      byteCheck (low7 (value rs1))
  | .opImm .sltiu _ rs1 imm =>
    wordChecks (value rs1) ++ wordChecks (value rs1 - imm.signExtend 32)
  | .opImm .xori _ rs1 imm => bitwiseChecks .bytesXor (value rs1) (imm.signExtend 32) result
  | .opImm .ori _ rs1 imm => bitwiseChecks .bytesOr (value rs1) (imm.signExtend 32) result
  | .opImm .andi _ rs1 imm => bitwiseChecks .bytesAnd (value rs1) (imm.signExtend 32) result
  | .shiftImm .slli _ rs1 shamt => sllChecks (value rs1) (shamt.toNat % 8) ++ wordChecks result
  | .shiftImm .srli _ rs1 shamt => srlChecks (value rs1) (shamt.toNat % 8) ++ wordChecks result
  | .shiftImm .srai _ rs1 shamt =>
    srlChecks (value rs1) (shamt.toNat % 8) ++ maskChecks (shamt.toNat % 8) ++
      wordChecks result ++ byteCheck (low7 (value rs1))
  | .opReg .add _ rs1 rs2 | .opReg .sub _ rs1 rs2 =>
    wordChecks (value rs1) ++ wordChecks (value rs2) ++ wordChecks result
  | .opReg .xor _ rs1 rs2 =>
    bitwiseChecks .bytesXor (value rs1) (value rs2) result ++ wordChecks (value rs1) ++
      wordChecks (value rs2)
  | .opReg .or _ rs1 rs2 => bitwiseChecks .bytesOr (value rs1) (value rs2) result
  | .opReg .and _ rs1 rs2 => bitwiseChecks .bytesAnd (value rs1) (value rs2) result
  | .opReg .sll _ rs1 rs2 =>
    sllChecks (value rs1) ((value rs2 &&& 0x1F).toNat % 8) ++ wordChecks (value rs2) ++
      byteCheck (shamtHigh (value rs2)) ++ wordChecks result
  | .opReg .srl _ rs1 rs2 =>
    srlChecks (value rs1) ((value rs2 &&& 0x1F).toNat % 8) ++ wordChecks (value rs2) ++
      byteCheck (shamtHigh (value rs2)) ++ wordChecks result
  | .opReg .sra _ rs1 rs2 =>
    srlChecks (value rs1) ((value rs2 &&& 0x1F).toNat % 8) ++
      maskChecks ((value rs2 &&& 0x1F).toNat % 8) ++ wordChecks (value rs2) ++
      byteCheck (shamtHigh (value rs2)) ++ wordChecks result ++ byteCheck (low7 (value rs1))
  | .opReg .slt _ rs1 rs2 =>
    wordChecks (value rs1) ++ wordChecks (value rs2) ++ wordChecks (value rs1 - value rs2) ++
      (byteCheck (low7 (value rs1)) ++ byteCheck (low7 (value rs2)))
  | .opReg .sltu _ rs1 rs2 =>
    wordChecks (value rs1) ++ wordChecks (value rs2) ++ wordChecks (value rs1 - value rs2)
  | .lui _ _ => wordChecks result
  | .auipc _ imm =>
    let immU := imm.setWidth 32 <<< 12
    wordChecks x.pc ++ (byteCheck (leBytes immU 1) ++ (byteCheck (leBytes immU 2) ++
      byteCheck (leBytes immU 3))) ++ wordChecks result
  | .jal _ _ => wordChecks x.pc ++ wordChecks (x.pc + 4)
  | .jalr rd rs1 _ => wordChecks (value rs1) ++ wordChecks (if rd = 0 then 0 else x.pc + 4)

theorem immediateShamt_eq (shamt : BitVec 5) : immediateShamt (shamt.setWidth 32) = shamt.toNat := by
  rw [immediateShamt, BitVec.toNat_and, BitVec.toNat_setWidth,
    show (0x1F : U32).toNat = 2 ^ 5 - 1 from rfl, Nat.and_two_pow_sub_one_eq_mod]
  omega

theorem signExtend_imm (imm : BitVec 12) :
    (imm.signExtend 16).signExtend 32 = imm.signExtend 32 :=
  BitFields.signExtend_signExtend (by omega) (by omega) imm

theorem row_checks (x : Executed) : (x.row : InstrRow F).ports.checks = x.checks := by
  obtain ⟨pc, timestamp, registers, i⟩ := x
  cases i with
  | opImm op rd rs1 imm =>
    cases op
    case addi => rfl
    case slti =>
      show byteChecks _ ++ byteChecks (ofNats (u32SubDiff _ _)) ++
        [(.bytes, [(byte3Low7 _ : F)])] = _
      rw [u32SubDiff_eq, byte3Low7_eq]
      rfl
    case sltiu =>
      show byteChecks _ ++ byteChecks (ofNats (u32SubDiff _ _)) = _
      rw [u32SubDiff_eq]
      rfl
    all_goals
      show tripleChecks _ _ (u32ToLimbs ((imm.signExtend 16).signExtend 32)) _ = _
      rw [signExtend_imm]
      rfl
  | shiftImm op rd rs1 shamt =>
    have h := immediateShamt_eq shamt
    cases op
    case slli =>
      show sllChecks _ (immediateShamt _ % 8) ++ wordChecks _ = _
      rw [h]
      rfl
    case srli =>
      show srlChecks _ (immediateShamt _ % 8) ++ wordChecks _ = _
      rw [h]
      rfl
    case srai =>
      show srlChecks _ (immediateShamt _ % 8) ++ maskChecks (immediateShamt _ % 8) ++
        wordChecks _ ++ byteCheck (leBytes _ 3 &&& 0x7F) = _
      rw [h, ← low7_eq]
      rfl
  | opReg op rd rs1 rs2 =>
    cases op
    case slt =>
      show byteChecks _ ++ byteChecks _ ++ byteChecks (ofNats (u32SubDiff _ _)) ++
        [(.bytes, [(byte3Low7 _ : F)]), (.bytes, [(byte3Low7 _ : F)])] = _
      rw [u32SubDiff_eq, byte3Low7_eq, byte3Low7_eq]
      rfl
    case sltu =>
      show byteChecks _ ++ byteChecks _ ++ byteChecks (ofNats (u32SubDiff _ _)) = _
      rw [u32SubDiff_eq]
      rfl
    case sra =>
      show srlChecks _ _ ++ maskChecks _ ++ wordChecks _ ++ byteCheck _ ++ wordChecks _ ++
        byteCheck (leBytes _ 3 &&& 0x7F) = _
      rw [← low7_eq]
      rfl
    all_goals rfl
  | _ => rfl

section On

variable (bus : BusName)

@[simp] theorem checksOn_wordChecks (v : U32) : checksOn bus (wordChecks v : List (Check F)) =
    if .bytes = bus then (leByteList v).map fun b : ℕ => [(b : F)] else [] := by
  rw [wordChecks, byteChecks, checksOn_ofFn, leByteList, List.map_ofFn]
  rfl

@[simp] theorem checksOn_byteCheck (b : ℕ) :
    checksOn bus (byteCheck b : List (Check F)) = if .bytes = bus then [[(b : F)]] else [] :=
  checksOn_singleton _

theorem checksOn_bitwiseChecks_of_ne {bus bus' : BusName} (h : bus' ≠ bus) (x y z : U32) :
    checksOn bus (bitwiseChecks bus' x y z : List (Check F)) = [] := by
  rw [bitwiseChecks, tripleChecks, checksOn_ofFn, if_neg h]

/-- The triples of a word operation that acts on bytes are rows of its table. -/
theorem checksOn_bitwiseChecks {t : Table} {op : ℕ → ℕ → ℕ} (ht : t.rows = bitwiseRows op)
    {x y z : U32} (hz : ∀ i, leBytes z i = op (leBytes x i) (leBytes y i)) :
    checksOn t.bus (bitwiseChecks t.bus x y z) = (tripleRows x y).map (t.rowAt (F := F)) := by
  rw [bitwiseChecks, tripleChecks, checksOn_ofFn, if_pos rfl, tripleRows, List.map_ofFn]
  congr 1
  funext i
  have hrow : t.rows[leBytes x i * 256 + leBytes y i]? =
      some [leBytes x i, leBytes y i, leBytes z i] := by
    rw [ht, hz]
    exact bitwiseRows_getElem? (leBytes_lt x i) (leBytes_lt y i)
  rw [Function.comp_apply, Table.rowAt_eq hrow]
  rfl

theorem checksOn_sllChecks (x : U32) {k : ℕ} (hk : k < 8) :
    checksOn bus (sllChecks x k : List (Check F)) =
      if .byteSll = bus then (shiftRows x k).map byteShiftLeftAir.rowAt else [] := by
  rw [sllChecks, shiftChecks, checksOn_ofFn, shiftRows, List.map_ofFn]
  congr 2
  funext i
  rw [Function.comp_apply, Table.rowAt_eq (byteShiftLeftAir_getElem? (leBytes_lt x i) hk)]
  rfl

theorem checksOn_srlChecks (x : U32) {k : ℕ} (hk : k < 8) :
    checksOn bus (srlChecks x k : List (Check F)) =
      if .byteSrl = bus then (shiftRows x k).map byteShiftRightAir.rowAt else [] := by
  rw [srlChecks, shiftChecks, checksOn_ofFn, shiftRows, List.map_ofFn]
  congr 2
  funext i
  rw [Function.comp_apply, Table.rowAt_eq (byteShiftRightAir_getElem? (leBytes_lt x i) hk)]
  rfl

theorem checksOn_maskChecks {k : ℕ} (hk : k < 8) :
    checksOn bus (maskChecks k : List (Check F)) =
      if .byteSrl = bus then [byteShiftRightAir.rowAt (0xFF * 8 + k)] else [] := by
  rw [maskChecks, checksOn_singleton,
    Table.rowAt_eq (byteShiftRightAir_getElem? (x := 0xFF) (by norm_num) hk)]
  rfl

end On

theorem leBytes_xor (x y : U32) (i : Fin 4) :
    leBytes (x ^^^ y) i = leBytes x i ^^^ leBytes y i := by
  rw [leBytes, BitVec.extractLsb'_xor, BitVec.toNat_xor]
  rfl

theorem leBytes_or (x y : U32) (i : Fin 4) :
    leBytes (x ||| y) i = leBytes x i ||| leBytes y i := by
  rw [leBytes, BitVec.extractLsb'_or, BitVec.toNat_or]
  rfl

theorem leBytes_and (x y : U32) (i : Fin 4) :
    leBytes (x &&& y) i = leBytes x i &&& leBytes y i := by
  rw [leBytes, BitVec.extractLsb'_and, BitVec.toNat_and]
  rfl

theorem mod_8_lt (n : ℕ) : n % 8 < 8 := Nat.mod_lt n (by norm_num)

/-- The bytes counted for a step. -/
def stepBytes (x : Executed) : List ℕ :=
  (byteChecked x.step).1.flatMap leByteList ++ (byteChecked x.step).2

variable [DecidableEq F]

/-- The match over the kinds agrees with what the rows send to the range table. -/
theorem count_bytes (x : Executed) (v : List F) :
    (checksOn .bytes x.checks).count v = ((stepBytes x).map fun b : ℕ => [(b : F)]).count v := by
  rw [stepBytes]
  obtain ⟨pc, timestamp, registers, i⟩ := x
  cases i with
  | opImm op rd rs1 imm =>
    cases op <;> simp [Executed.checks, checksOn_bitwiseChecks_of_ne, byteChecked, Executed.step,
      ofRv32i, Vm.loggedOps, Vm.loggedWrite, Instr.sources, Vm.readRegister, Vm.writeRegister]
  | shiftImm op rd rs1 shamt =>
    cases op <;> simp [Executed.checks, checksOn_sllChecks, checksOn_srlChecks,
      checksOn_maskChecks, mod_8_lt, byteChecked, Executed.step, ofRv32i, Vm.loggedOps,
      Vm.loggedWrite, Instr.sources, Vm.readRegister, Vm.writeRegister]
  | opReg op rd rs1 rs2 =>
    -- The shifts check the two parts of the words in another order than they are counted.
    cases op <;> simp [Executed.checks, checksOn_bitwiseChecks_of_ne, checksOn_sllChecks,
      checksOn_srlChecks, checksOn_maskChecks, mod_8_lt, byteChecked, Executed.step, ofRv32i,
      Vm.loggedOps, Vm.loggedWrite, Instr.sources, Vm.readRegister, Vm.writeRegister,
      List.count_cons]
    all_goals omega
  | auipc rd imm =>
    simp [Executed.checks, byteChecked, Executed.step, ofRv32i, Vm.loggedOps, Vm.loggedWrite,
      Instr.sources, Vm.writeRegister, List.count_cons]
    omega
  | jal rd offset => simp [Executed.checks, byteChecked, Executed.step, ofRv32i]
  | _ => simp [Executed.checks, byteChecked, Executed.step, ofRv32i, Vm.loggedOps,
      Vm.loggedWrite, Instr.sources, Vm.readRegister, Vm.writeRegister]

omit [DecidableEq F]

/-- The operation table a kind looks its bytes up in. -/
def opBus : InstructionId → Option BusName
  | .xor | .xori => some .bytesXor
  | .or | .ori => some .bytesOr
  | .and | .andi => some .bytesAnd
  | .sll | .slli => some .byteSll
  | .srl | .sra | .srli | .srai => some .byteSrl
  | _ => none

theorem checksOn_eq_nil {x : Executed} {bus : BusName} (hbytes : .bytes ≠ bus)
    (h : opBus x.kind ≠ some bus) : checksOn bus (x.checks : List (Check F)) = [] := by
  obtain ⟨pc, timestamp, registers, i⟩ := x
  cases i with
  | opImm op rd rs1 imm =>
    cases op
    case xori | ori | andi => exact checksOn_bitwiseChecks_of_ne (fun heq => h (congrArg _ heq)) _ _ _
    all_goals simp [Executed.checks, hbytes]
  | shiftImm op rd rs1 shamt =>
    cases op
    case slli =>
      have hne : BusName.byteSll ≠ bus := fun heq => h (congrArg some heq)
      simp [Executed.checks, checksOn_sllChecks, mod_8_lt, hbytes, hne]
    all_goals
      have hne : BusName.byteSrl ≠ bus := fun heq => h (congrArg some heq)
      simp [Executed.checks, checksOn_srlChecks, checksOn_maskChecks, mod_8_lt, hbytes, hne]
  | opReg op rd rs1 rs2 =>
    cases op
    case xor =>
      have hne : BusName.bytesXor ≠ bus := fun heq => h (congrArg some heq)
      simp [Executed.checks, checksOn_bitwiseChecks_of_ne hne, hbytes]
    case or | and => exact checksOn_bitwiseChecks_of_ne (fun heq => h (congrArg _ heq)) _ _ _
    case sll =>
      have hne : BusName.byteSll ≠ bus := fun heq => h (congrArg some heq)
      simp [Executed.checks, checksOn_sllChecks, mod_8_lt, hbytes, hne]
    case srl | sra =>
      have hne : BusName.byteSrl ≠ bus := fun heq => h (congrArg some heq)
      simp [Executed.checks, checksOn_srlChecks, checksOn_maskChecks, mod_8_lt, hbytes, hne]
    all_goals simp [Executed.checks, hbytes]
  | _ => simp [Executed.checks, hbytes]

theorem checksOn_xor (x : Executed) : checksOn .bytesXor x.checks =
    (xorEntries x.step).map (xorAir.rowAt (F := F)) := by
  obtain ⟨pc, timestamp, registers, i⟩ := x
  cases i with
  | opImm op rd rs1 imm =>
    cases op
    case xori =>
      show _ = (tripleRows _ ((imm.signExtend 16).signExtend 32)).map xorAir.rowAt
      rw [signExtend_imm]
      exact checksOn_bitwiseChecks (t := xorAir) rfl (leBytes_xor _ _)
    all_goals exact checksOn_eq_nil nofun nofun
  | opReg op rd rs1 rs2 =>
    cases op
    case xor =>
      show checksOn .bytesXor (bitwiseChecks _ _ _ _ ++ _ ++ _) = _
      simp only [checksOn_append, checksOn_wordChecks, reduceCtorEq, if_false, List.append_nil]
      exact checksOn_bitwiseChecks (t := xorAir) rfl (leBytes_xor _ _)
    all_goals exact checksOn_eq_nil nofun nofun
  | shiftImm op rd rs1 shamt => cases op <;> exact checksOn_eq_nil nofun nofun
  | _ => exact checksOn_eq_nil nofun nofun

theorem checksOn_or (x : Executed) : checksOn .bytesOr x.checks =
    (oriEntries x.step ++ orEntries x.step).map (orAir.rowAt (F := F)) := by
  obtain ⟨pc, timestamp, registers, i⟩ := x
  cases i with
  | opImm op rd rs1 imm =>
    cases op
    case ori =>
      show _ = (tripleRows _ ((imm.signExtend 16).signExtend 32) ++ []).map orAir.rowAt
      rw [signExtend_imm, List.append_nil]
      exact checksOn_bitwiseChecks (t := orAir) rfl (leBytes_or _ _)
    all_goals exact checksOn_eq_nil nofun nofun
  | opReg op rd rs1 rs2 =>
    cases op
    case or => exact checksOn_bitwiseChecks (t := orAir) rfl (leBytes_or _ _)
    all_goals exact checksOn_eq_nil nofun nofun
  | shiftImm op rd rs1 shamt => cases op <;> exact checksOn_eq_nil nofun nofun
  | _ => exact checksOn_eq_nil nofun nofun

theorem checksOn_and (x : Executed) : checksOn .bytesAnd x.checks =
    (andiEntries x.step ++ andEntries x.step).map (andAir.rowAt (F := F)) := by
  obtain ⟨pc, timestamp, registers, i⟩ := x
  cases i with
  | opImm op rd rs1 imm =>
    cases op
    case andi =>
      show _ = (tripleRows _ ((imm.signExtend 16).signExtend 32) ++ []).map andAir.rowAt
      rw [signExtend_imm, List.append_nil]
      exact checksOn_bitwiseChecks (t := andAir) rfl (leBytes_and _ _)
    all_goals exact checksOn_eq_nil nofun nofun
  | opReg op rd rs1 rs2 =>
    cases op
    case and => exact checksOn_bitwiseChecks (t := andAir) rfl (leBytes_and _ _)
    all_goals exact checksOn_eq_nil nofun nofun
  | shiftImm op rd rs1 shamt => cases op <;> exact checksOn_eq_nil nofun nofun
  | _ => exact checksOn_eq_nil nofun nofun

theorem shamt_mask (shamt : BitVec 5) : (shamt.setWidth 32 &&& 0x1F : U32).toNat = shamt.toNat :=
  immediateShamt_eq shamt

theorem checksOn_byteSll (x : Executed) : checksOn .byteSll x.checks =
    (byteSllEntries x.step).map (byteShiftLeftAir.rowAt (F := F)) := by
  obtain ⟨pc, timestamp, registers, i⟩ := x
  cases i with
  | opImm op rd rs1 imm => cases op <;> exact checksOn_eq_nil nofun nofun
  | shiftImm op rd rs1 shamt =>
    cases op
    case slli =>
      show _ = (shiftRows _ ((shamt.setWidth 32 &&& 0x1F : U32).toNat % 8)).map _
      rw [shamt_mask]
      simp [Executed.checks, checksOn_sllChecks, mod_8_lt]
    all_goals exact checksOn_eq_nil nofun nofun
  | opReg op rd rs1 rs2 =>
    cases op
    case sll =>
      show _ = (shiftRows _ ((registers rs2 &&& 0x1F).toNat % 8)).map _
      simp [Executed.checks, checksOn_sllChecks, mod_8_lt]
    all_goals exact checksOn_eq_nil nofun nofun
  | _ => exact checksOn_eq_nil nofun nofun

theorem checksOn_byteSrl (x : Executed) : checksOn .byteSrl x.checks =
    (byteSrlEntries x.step).map (byteShiftRightAir.rowAt (F := F)) := by
  obtain ⟨pc, timestamp, registers, i⟩ := x
  cases i with
  | opImm op rd rs1 imm => cases op <;> exact checksOn_eq_nil nofun nofun
  | shiftImm op rd rs1 shamt =>
    cases op
    case slli => exact checksOn_eq_nil nofun nofun
    case srli =>
      show _ = (shiftRows _ ((shamt.setWidth 32 &&& 0x1F : U32).toNat % 8)).map _
      rw [shamt_mask]
      simp [Executed.checks, checksOn_srlChecks, mod_8_lt]
    case srai =>
      show _ = (shiftRows _ ((shamt.setWidth 32 &&& 0x1F : U32).toNat % 8) ++
        [0xFF * 8 + (shamt.setWidth 32 &&& 0x1F : U32).toNat % 8]).map _
      rw [shamt_mask]
      simp [Executed.checks, checksOn_srlChecks, checksOn_maskChecks, mod_8_lt]
  | opReg op rd rs1 rs2 =>
    cases op
    case srl =>
      show _ = (shiftRows _ ((registers rs2 &&& 0x1F).toNat % 8)).map _
      simp [Executed.checks, checksOn_srlChecks, mod_8_lt]
    case sra =>
      show _ = (shiftRows _ ((registers rs2 &&& 0x1F).toNat % 8) ++
        [0xFF * 8 + (registers rs2 &&& 0x1F).toNat % 8]).map _
      simp [Executed.checks, checksOn_srlChecks, checksOn_maskChecks, mod_8_lt]
    all_goals exact checksOn_eq_nil nofun nofun
  | _ => exact checksOn_eq_nil nofun nofun

end Words

end Loquela.Completeness
