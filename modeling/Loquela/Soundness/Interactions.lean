import Loquela.Air.TraceSet

/-! # What an instruction row contributes to each bus -/

namespace Loquela.Soundness
open Air Library Library.Bus

variable {F : Type*}

/-- The buses of the range and operation tables. -/
def tableBuses : List BusName := [.bytes, .bytesXor, .bytesOr, .bytesAnd, .byteSll, .byteSrl]

def decodeBuses : List BusName := [.decode, .decodeU, .decodeJ]

/-- All checks go to the tables. -/
def OnTables (checks : List (Check F)) : Prop := ∀ c ∈ checks, c.1 ∈ tableBuses

@[simp] theorem onTables_nil : OnTables ([] : List (Check F)) := by
  intro c h
  cases h

@[simp] theorem onTables_cons (c : Check F) (l : List (Check F)) :
    OnTables (c :: l) ↔ c.1 ∈ tableBuses ∧ OnTables l := List.forall_mem_cons

@[simp] theorem onTables_append (l₁ l₂ : List (Check F)) :
    OnTables (l₁ ++ l₂) ↔ OnTables l₁ ∧ OnTables l₂ := List.forall_mem_append

@[simp] theorem onTables_byteChecks (x : Limbs F) : OnTables (byteChecks x) := by
  simp [byteChecks, OnTables, tableBuses]

@[simp] theorem onTables_tripleChecks (bus : BusName) (x y z : Limbs F) :
    OnTables (tripleChecks bus x y z) ↔ bus ∈ tableBuses := by
  simp [tripleChecks, OnTables]

@[simp] theorem onTables_shiftChecks (bus : BusName) (x : Limbs F) (k : F) (y z : Limbs F) :
    OnTables (shiftChecks bus x k y z) ↔ bus ∈ tableBuses := by
  simp [shiftChecks, OnTables]

/-- What holds of the ports of every instruction AIR, whatever its columns. -/
structure Regular (io : RowPorts F) : Prop where
  decodeBus : io.decodeBus ∈ decodeBuses
  checks : OnTables io.checks
  ticks_pos : 0 < io.ticks
  ticks_le : io.ticks ≤ 3

section Rows

variable [Field F]

theorem registerPorts_regular (c : RegisterColumns F) (id : InstructionId) (x y z : Limbs F)
    {checks : List (Check F)} (h : OnTables checks) : Regular (c.ports id x y z checks) :=
  ⟨List.mem_cons_self, h, Nat.succ_pos 2, le_refl 3⟩

theorem immediatePorts_regular (c : ImmediateColumns F) (id : InstructionId) (x z : Limbs F)
    {checks : List (Check F)} (h : OnTables checks) : Regular (c.ports id x z checks) :=
  ⟨List.mem_cons_self, h, Nat.succ_pos 1, Nat.le_succ 2⟩

theorem upperPorts_regular (c : UpperColumns F) (id : InstructionId)
    {checks : List (Check F)} (h : OnTables checks) : Regular (c.ports id checks) :=
  ⟨.tail _ (.head _), h, Nat.succ_pos 0, Nat.le_add_right 1 2⟩

/-- Every kind of row consumes one to three time steps and only talks to the known buses. -/
theorem regular (r : InstrRow F) : Regular r.ports := by
  cases r with
  | addi c => exact immediatePorts_regular _ _ _ _ (by simp)
  | xori c => exact immediatePorts_regular _ _ _ _ (by simp [tableBuses])
  | ori c => exact immediatePorts_regular _ _ _ _ (by simp [tableBuses])
  | andi c => exact immediatePorts_regular _ _ _ _ (by simp [tableBuses])
  | add c => exact registerPorts_regular _ _ _ _ _ (by simp)
  | sub c => exact registerPorts_regular _ _ _ _ _ (by simp)
  | xor c => exact registerPorts_regular _ _ _ _ _ (by simp [tableBuses])
  | or c => exact registerPorts_regular _ _ _ _ _ (by simp [tableBuses])
  | and c => exact registerPorts_regular _ _ _ _ _ (by simp [tableBuses])
  | sll c => exact registerPorts_regular _ _ _ _ _ (by simp [tableBuses, ShiftStages.checks])
  | srl c => exact registerPorts_regular _ _ _ _ _ (by simp [tableBuses, ShiftStages.checks])
  | sra c =>
    exact registerPorts_regular _ _ _ _ _
      (by simp [tableBuses, ShiftStages.checks, SignFill.check])
  | slli c => exact immediatePorts_regular _ _ _ _ (by simp [tableBuses, ShiftStages.checks])
  | srli c => exact immediatePorts_regular _ _ _ _ (by simp [tableBuses, ShiftStages.checks])
  | srai c =>
    exact immediatePorts_regular _ _ _ _
      (by simp [tableBuses, ShiftStages.checks, SignFill.check])
  | slt c => exact registerPorts_regular _ _ _ _ _ (by simp [tableBuses])
  | sltu c => exact registerPorts_regular _ _ _ _ _ (by simp)
  | slti c => exact immediatePorts_regular _ _ _ _ (by simp [tableBuses])
  | sltiu c => exact immediatePorts_regular _ _ _ _ (by simp)
  | lui c => exact upperPorts_regular _ _ (by simp)
  | auipc c => exact upperPorts_regular _ _ (by simp [tableBuses])
  | jal c =>
    refine ⟨?_, ?_, Nat.succ_pos 0, ?_⟩
    · simp [InstrRow.ports, JalColumns.ports, decodeBuses]
    · simp [InstrRow.ports, JalColumns.ports]
    · simp [InstrRow.ports, JalColumns.ports]
  | jalr c =>
    refine ⟨?_, ?_, Nat.succ_pos 1, ?_⟩
    · simp [InstrRow.ports, JalrColumns.ports, decodeBuses]
    · simp [InstrRow.ports, JalrColumns.ports]
    · simp [InstrRow.ports, JalrColumns.ports]

end Rows

section Buses

variable {io : RowPorts F}

theorem checks_bus_ne (h : OnTables io.checks) (bus : BusName) (hbus : bus ∉ tableBuses) (m : F) :
    ∀ x ∈ io.checks.map fun c => send c.1 c.2 m, x.bus ≠ bus := by
  intro x hx
  obtain ⟨c, hc, rfl⟩ := List.mem_map.mp hx
  exact ne_of_mem_of_not_mem (h c hc) hbus

theorem memory_bus_ne (io : RowPorts F) (bus : BusName) (hbus : bus ≠ .memory) (m : F) :
    ∀ x ∈ io.memory.map fun op => send .memory op.toList m, x.bus ≠ bus := by
  intro x hx
  obtain ⟨op, -, rfl⟩ := List.mem_map.mp hx
  exact hbus.symm

theorem decodeBus_ne (h : Regular io) (bus : BusName) (hbus : bus ∉ decodeBuses) :
    io.decodeBus ≠ bus := ne_of_mem_of_not_mem h.decodeBus hbus

theorem mem_lookups [Field F] {x : Interaction F} :
    x ∈ io.lookups ↔ x = receive .trace (traceTuple io.pc io.timestamp) io.isDummy ∨
      x = send io.decodeBus io.decode io.isDummy ∨
      (∃ op ∈ io.memory, x = send .memory op.toList io.memoryMultiplicity) ∨
      (∃ c ∈ io.checks, x = send c.1 c.2 io.isDummy) ∨
      x = send .trace (traceTuple io.nextPc (io.timestamp + io.ticks)) io.isDummy := by
  simp [RowPorts.lookups, eq_comm]

/-- The buses instruction rows talk on. -/
theorem bus_mem [Field F] (h : Regular io) {x : Interaction F} (hx : x ∈ io.lookups) :
    x.bus ∈ .trace :: .memory :: (decodeBuses ++ tableBuses) := by
  rcases mem_lookups.mp hx with rfl | rfl | ⟨op, -, rfl⟩ | ⟨c, hc, rfl⟩ | rfl
  · exact .head _
  · exact .tail _ (.tail _ (List.mem_append_left _ h.decodeBus))
  · exact .tail _ (.head _)
  · exact .tail _ (.tail _ (List.mem_append_right _ (h.checks c hc)))
  · exact .head _

/-- Instruction rows only receive execution states. -/
theorem bus_eq_trace_of_receive [Field F] {x : Interaction F} (hx : x ∈ io.lookups)
    (hreceive : x.direction = .receive) : x.bus = .trace := by
  rcases mem_lookups.mp hx with rfl | rfl | ⟨op, -, rfl⟩ | ⟨c, -, rfl⟩ | rfl
  · rfl
  all_goals cases hreceive

/-- Outside the memory bus every multiplicity of a row is its `is_dummy` column. -/
theorem multiplicity_eq_isDummy [Field F] {x : Interaction F} (hx : x ∈ io.lookups)
    (hbus : x.bus ≠ .memory) : x.multiplicity = io.isDummy := by
  rcases mem_lookups.mp hx with rfl | rfl | ⟨op, -, rfl⟩ | ⟨c, -, rfl⟩ | rfl
  · rfl
  · rfl
  · exact absurd rfl hbus
  · rfl
  · rfl

end Buses

section Selected

variable [Field F] [DecidableEq F]

@[simp] theorem send_selected (b bus : BusName) (direction : Direction) (v : List F) (m : F) :
    (send b v m).selected direction bus =
      if b = bus ∧ direction = .send ∧ m = 1 then [v] else [] := by
  cases direction <;> simp [send, Interaction.selected]

@[simp] theorem receive_selected (b bus : BusName) (direction : Direction) (v : List F) (m : F) :
    (receive b v m).selected direction bus =
      if b = bus ∧ direction = .receive ∧ m = 1 then [v] else [] := by
  cases direction <;> simp [receive, Interaction.selected]

theorem selected_map_send {A : Type*} (l : List A) (b bus : BusName) (values : A → List F)
    (m : A → F) : selected .send bus (l.map fun a => send b (values a) (m a)) =
      if b = bus then (l.filter fun a => m a = 1).map values else [] := by
  induction l with
  | nil => simp
  | cons a l ih =>
    rw [List.map_cons, selected_cons, ih, send_selected]
    by_cases hbus : b = bus <;> by_cases hm : m a = 1 <;> simp [hbus, hm]

variable {io : RowPorts F}

/-- The state a real row sends on. -/
theorem selected_trace_send (h : Regular io) : selected .send .trace io.lookups =
    if io.isDummy = 1 then [traceTuple io.nextPc (io.timestamp + io.ticks)] else [] := by
  have hchecks := checks_bus_ne h.checks .trace (by decide) io.isDummy
  have hmemory := memory_bus_ne io .trace (by decide) io.memoryMultiplicity
  have hdecode := decodeBus_ne h .trace (by decide)
  simp [RowPorts.lookups, selected_eq_nil hchecks, selected_eq_nil hmemory, hdecode]

/-- The state a real row takes in. -/
theorem selected_trace_receive (h : Regular io) : selected .receive .trace io.lookups =
    if io.isDummy = 1 then [traceTuple io.pc io.timestamp] else [] := by
  have hchecks := checks_bus_ne h.checks .trace (by decide) io.isDummy
  have hmemory := memory_bus_ne io .trace (by decide) io.memoryMultiplicity
  simp [RowPorts.lookups, selected_eq_nil hchecks, selected_eq_nil hmemory]

end Selected

end Loquela.Soundness
