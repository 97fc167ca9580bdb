import Loquela.Completeness.Run
import Loquela.Library.Multiplicity
import Loquela.Trace.Generate

/-! # The instruction tables of a run

Together the instruction tables hold one row for every executed step, and padding rows that are
off the buses.
-/

namespace Loquela.Completeness
open Air Library Trace
open Rv32i hiding bit
open Vm (ofRv32i Register U32)

variable {F : Type*} [Field F]

namespace Executed

variable (x : Executed)

def kind : InstructionId := instructionId (ofRv32i x.instr)

def registerStep (rd rs1 rs2 : Register) : RegisterStep where
  pc := x.pc
  timestamp := x.timestamp
  rd := rd
  rs1 := rs1
  rs2 := rs2
  rs1Value := x.registers rs1
  rs2Value := x.registers rs2
  oldRdValue := x.registers rd
  rdNewValue := x.instr.result x.pc x.registers

def immediateStep (rd rs1 : Register) (value : U32) : ImmediateStep where
  pc := x.pc
  timestamp := x.timestamp
  rd := rd
  rs1 := rs1
  rs1Value := x.registers rs1
  oldRdValue := x.registers rd
  rdNewValue := value

def writeStep (rd : Register) (old : U32) : WriteStep where
  pc := x.pc
  timestamp := x.timestamp
  rd := rd
  oldRdValue := old
  rdVal := x.instr.result x.pc x.registers

/-- The row of a step, in the table of its kind. -/
def row : InstrRow F :=
  let result := x.instr.result x.pc x.registers
  match x.instr with
  | .opImm .addi rd rs1 imm => .addi (addiRow (x.immediateStep rd rs1 result) (imm.signExtend 16))
  | .opImm .slti rd rs1 imm => .slti (sltiRow (x.immediateStep rd rs1 result) (imm.signExtend 32))
  | .opImm .sltiu rd rs1 imm =>
    .sltiu (sltiuRow (x.immediateStep rd rs1 result) (imm.signExtend 32))
  | .opImm .xori rd rs1 imm =>
    .xori (bitwiseImmRow (x.immediateStep rd rs1 result) (imm.signExtend 16))
  | .opImm .ori rd rs1 imm =>
    .ori (bitwiseImmRow (x.immediateStep rd rs1 result) (imm.signExtend 16))
  | .opImm .andi rd rs1 imm =>
    .andi (bitwiseImmRow (x.immediateStep rd rs1 result) (imm.signExtend 16))
  | .shiftImm .slli rd rs1 shamt =>
    .slli (slliRow (x.immediateStep rd rs1 result) (shamt.setWidth 32))
  | .shiftImm .srli rd rs1 shamt =>
    .srli (srliRow (x.immediateStep rd rs1 result) (shamt.setWidth 32))
  | .shiftImm .srai rd rs1 shamt =>
    .srai (sraiRow (x.immediateStep rd rs1 result) (shamt.setWidth 32))
  | .opReg .add rd rs1 rs2 => .add (addRow (x.registerStep rd rs1 rs2))
  | .opReg .sub rd rs1 rs2 => .sub (subRow (x.registerStep rd rs1 rs2))
  | .opReg .sll rd rs1 rs2 => .sll (sllRow (x.registerStep rd rs1 rs2))
  | .opReg .slt rd rs1 rs2 => .slt (sltRow (x.registerStep rd rs1 rs2))
  | .opReg .sltu rd rs1 rs2 => .sltu (sltuRow (x.registerStep rd rs1 rs2))
  | .opReg .xor rd rs1 rs2 => .xor (bitwiseRow (x.registerStep rd rs1 rs2))
  | .opReg .srl rd rs1 rs2 => .srl (srlRow (x.registerStep rd rs1 rs2))
  | .opReg .sra rd rs1 rs2 => .sra (sraRow (x.registerStep rd rs1 rs2))
  | .opReg .or rd rs1 rs2 => .or (bitwiseRow (x.registerStep rd rs1 rs2))
  | .opReg .and rd rs1 rs2 => .and (bitwiseRow (x.registerStep rd rs1 rs2))
  | .lui rd imm => .lui (luiRow (x.writeStep rd (x.registers rd)) (imm.setWidth 32))
  | .auipc rd imm => .auipc (auipcRow (x.writeStep rd (x.registers rd)) (imm.setWidth 32))
  | .jal rd offset =>
    .jal (jalRow (x.writeStep rd (if rd = 0 then 0 else x.registers rd))
      ((offset ++ (0 : BitVec 1)).signExtend 32))
  | .jalr rd rs1 imm =>
    .jalr (jalrRow (x.immediateStep rd rs1 (if rd = 0 then 0 else x.pc + 4)) (imm.signExtend 32))

end Executed

/-- The builders read the row of a step off what the interpreter recorded. -/
theorem fillRow_step (x : Executed) :
    fillRow x.timestamp x.step = some (x.row : InstrRow F) := by
  obtain ⟨pc, timestamp, registers, i⟩ := x
  cases i with
  | opImm op rd rs1 imm => cases op <;> rfl
  | shiftImm op rd rs1 shamt => cases op <;> rfl
  | opReg op rd rs1 rs2 => cases op <;> rfl
  | lui rd imm => rfl
  | auipc rd imm => rfl
  | jal rd offset =>
    by_cases hrd : rd = 0#5
    · subst hrd
      rfl
    · simp [fillRow, Executed.step, ofRv32i, jalStep, Vm.loggedOps, Vm.loggedWrite,
        Instr.sources, hrd, Executed.row, Executed.writeStep, Instr.rd, Instr.result,
        Vm.writeRegister]
  | jalr rd rs1 imm => rfl

/-- What a row exposes of its step, whatever its kind. -/
structure PortsOf (x : Executed) (io : RowPorts F) : Prop where
  id : io.id = x.kind
  pc : io.pc = u32ToLimbs x.pc
  timestamp : io.timestamp = x.timestamp
  nextPc : io.nextPc = u32ToLimbs (x.instr.nextPc x.pc x.registers)
  ticks : io.ticks = x.ticks
  decodeBus : io.decodeBus = x.kind.decodeBus
  isDummy : io.isDummy = 1

theorem row_ports (x : Executed) : PortsOf x (x.row : InstrRow F).ports := by
  obtain ⟨pc, timestamp, registers, i⟩ := x
  cases i with
  | opImm op rd rs1 imm => cases op <;> exact ⟨rfl, rfl, rfl, rfl, rfl, rfl, rfl⟩
  | shiftImm op rd rs1 shamt => cases op <;> exact ⟨rfl, rfl, rfl, rfl, rfl, rfl, rfl⟩
  | opReg op rd rs1 rs2 => cases op <;> exact ⟨rfl, rfl, rfl, rfl, rfl, rfl, rfl⟩
  | _ => exact ⟨rfl, rfl, rfl, rfl, rfl, rfl, rfl⟩

theorem paddingRow_isDummy (id : InstructionId) : (paddingRow id : InstrRow F).ports.isDummy = 0 := by
  cases id <;> rfl

theorem consumed_step (x : Executed) : consumed x.step = x.ticks := by
  obtain ⟨pc, timestamp, registers, i⟩ := x
  cases i with
  | jal rd offset =>
    by_cases hrd : rd = 0#5
    · subst hrd
      rfl
    · simp [consumed, Executed.step, ofRv32i, Vm.loggedOps, Vm.loggedWrite, Instr.sources, hrd,
        Executed.ticks]
  | _ => rfl

/-- The running timestamps of the JAL builder are those of the interpreter. -/
theorem withEntryTimestamps_of_leads {start finish : U32 × ℕ} {xs : List Executed}
    (h : Leads start xs finish) :
    withEntryTimestamps start.2 (xs.map Executed.step) =
      xs.map fun x => (x.timestamp, x.step) := by
  induction xs generalizing start with
  | nil => rfl
  | cons x xs ih =>
    obtain ⟨rfl, h⟩ := h
    rw [List.map_cons, List.map_cons, withEntryTimestamps, consumed_step]
    exact congrArg _ (ih h)

theorem extractRows_of_leads {finish : U32 × ℕ} {xs : List Executed} (h : Leads (0, 0) xs finish)
    (id : InstructionId) : extractRows id (xs.map Executed.step) =
      (xs.filter fun x => x.kind = id).map (Executed.row (F := F)) := by
  rw [extractRows, withEntryTimestamps_of_leads h, List.filterMap_map, ← List.filterMap_eq_map,
    List.filterMap_filter]
  congr 1
  funext x
  show (if x.kind = id then fillRow x.timestamp x.step else none) = _
  rw [fillRow_step]
  simp

theorem hasKind_iff {xs : List Executed} {id : InstructionId} :
    hasKind id (xs.map Executed.step) ↔ ∃ x ∈ xs, x.kind = id := by
  simp only [hasKind, List.any_map, List.any_eq_true, Function.comp_apply, decide_eq_true_eq]
  rfl

/-- The steps of one kind. -/
def ofKind (id : InstructionId) (xs : List Executed) : List Executed :=
  xs.filter fun x => x.kind = id

/-- The padding of the table of one kind, if there is one. -/
def kindPadding (id : InstructionId) (xs : List Executed) : List (InstrRow F) :=
  let n := (ofKind id xs).length
  if n = 0 then [] else List.replicate (height n - n) (paddingRow id)

def kindTable (id : InstructionId) (xs : List Executed) : List (InstrRow F) :=
  (ofKind id xs).map Executed.row ++ kindPadding id xs

theorem buildTrace_of_leads {finish : U32 × ℕ} {xs : List Executed} (h : Leads (0, 0) xs finish)
    (id : InstructionId) :
    (if hasKind id (xs.map Executed.step) then buildTrace id (xs.map Executed.step) else some []) =
      some (kindTable (F := F) id xs) := by
  by_cases hkind : hasKind id (xs.map Executed.step)
  · obtain ⟨x, hx, hid⟩ := hasKind_iff.mp hkind
    have hmem : x ∈ ofKind id xs := List.mem_filter.mpr ⟨hx, by simpa using hid⟩
    have hne := List.ne_nil_of_mem hmem
    rw [if_pos hkind, buildTrace, extractRows_of_leads h, kindTable, kindPadding, ← ofKind]
    simp [hne]
  · have hnil : ofKind id xs = [] := by
      apply List.filter_eq_nil_iff.mpr
      intro x hx hid
      exact hkind (hasKind_iff.mpr ⟨x, hx, by simpa using hid⟩)
    rw [if_neg hkind, kindTable, kindPadding, hnil]
    rfl

/-- All instruction tables. -/
def kindTables (xs : List Executed) : List (List (InstrRow F)) :=
  InstructionId.all.map fun id => kindTable id xs

def padding (xs : List Executed) : List (InstrRow F) :=
  InstructionId.all.flatMap fun id => kindPadding id xs

/-- The builders succeed on the trace of a run. -/
theorem instructionTraces_of_leads {finish : U32 × ℕ} {xs : List Executed}
    (h : Leads (0, 0) xs finish) :
    instructionTraces (xs.map Executed.step) = some (kindTables (F := F) xs) := by
  rw [instructionTraces, funext fun id => buildTrace_of_leads h id]
  exact List.mapM_pure

/-- Their tables hold one row for every step, and padding. -/
theorem kindTables_perm (xs : List Executed) :
    (kindTables (F := F) xs).flatten.Perm (xs.map Executed.row ++ padding xs) := by
  rw [kindTables, ← List.flatMap_def]
  apply (List.flatMap_append_perm _ _ _).symm.trans
  apply List.Perm.append_right
  have hnodup : InstructionId.all.Nodup := by decide
  have hgroups := Bus.flatMap_filter_perm Executed.kind hnodup (l := xs) fun x _ => x.kind.mem_all
  simpa only [List.map_flatMap, ofKind] using hgroups.map (Executed.row (F := F))

theorem eq_paddingRow {xs : List Executed} {r : InstrRow F} (hr : r ∈ padding xs) :
    ∃ id, r = paddingRow id := by
  obtain ⟨id, -, hr⟩ := List.mem_flatMap.mp hr
  refine ⟨id, ?_⟩
  rw [kindPadding] at hr
  split_ifs at hr
  · exact absurd hr List.not_mem_nil
  · exact List.eq_of_mem_replicate hr

end Loquela.Completeness
