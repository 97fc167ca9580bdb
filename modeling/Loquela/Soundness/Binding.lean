import Loquela.Soundness.Chain
import Loquela.Soundness.Fetch

/-! # From instruction rows to the ROM

An instruction row looks up a decode row, and a decode row looks up four ROM rows. The tuples
of the `decode` bus carry the pc, so there the word comes from the row's own pc. Those of
`decode_u` and `decode_j` do not, and a row may be served by the decode row of another pc.
-/

namespace Loquela.Soundness
open Air Library Library.Bus
open Vm (Instruction U32 decodeInstruction)

variable {F : Type*} [Field F]

structure BindingTables (F : Type*) where
  rows : List (InstrRow F)
  decode : List (DecodeColumns F)
  program : List (ProgramColumns F)

namespace BindingTables

variable (T : BindingTables F)

def lookups : List (Interaction F) :=
  T.rows.flatMap InstrRow.lookups ++ T.decode.flatMap DecodeColumns.lookups ++
    programLookups T.program

def Eval : Prop :=
  (∀ r ∈ T.rows, r.eval) ∧ (∀ c ∈ T.decode, c.eval) ∧ programEval T.program

end BindingTables

/-- The buses between instruction rows, decode rows and ROM rows. -/
def bindingBuses : List BusName := .program :: decodeBuses

/-- The word in ROM at the row's pc decodes to the row's kind and operands. -/
def Executes (program : List (ProgramColumns F)) (r : InstrRow F) : Prop :=
  ∃ word instruction, RomHolds program r.ports.pc (u32ToLimbs word) ∧
    decodeInstruction word = some instruction ∧ r.ports.id = instructionId instruction ∧
    r.ports.operands = (operands instruction).map fun n : ℕ => (n : F)

/-- Decode row `d` offers the instruction that `r` looks up. -/
def Serves (d : DecodeColumns F) (r : InstrRow F) : Prop :=
  ∃ m ≠ 0, receive r.ports.decodeBus r.ports.decode m ∈ d.lookups

/-- The ROM bytes at the row's pc are the word of a decode row that serves it. -/
def Bound (T : BindingTables F) (r : InstrRow F) : Prop :=
  ∃ d ∈ T.decode, Serves d r ∧ RomHolds T.program r.ports.pc d.instruction

section Buses

/-- A row is served on the bus of its own kind, by tuples made of its kind and operands. -/
theorem Decodes.serves {d : DecodeColumns F} {word : U32} {instruction : Instruction}
    (h : Decodes d word instruction) {r : InstrRow F} (hserve : Serves d r) :
    r.ports.decodeBus = (instructionId instruction).decodeBus ∧
      r.ports.decode = (if r.ports.decodeBus = .decode then List.ofFn d.pc else []) ++
        ((instructionId instruction).code : F) ::
          (operands instruction).map fun n : ℕ => (n : F) := by
  obtain ⟨m, hm, hx⟩ := hserve
  have hhot := h.hot
  have hpacked := h.packed
  have hoffers := h.offers
  generalize instructionId instruction = id at hhot hpacked hoffers ⊢
  have hjal : d.instrType .jal = if id = .jal then 1 else 0 := by
    rw [hhot]
    exact if_congr eq_comm rfl rfl
  rw [decode_mem_lookups, hhot.anyOf (by decide), hjal, hpacked] at hx
  rcases hx with ⟨k, hx⟩ | hx | hx | hx
  · simp [send, receive] at hx
  all_goals
    simp only [receive, Interaction.mk.injEq, true_and] at hx
    obtain ⟨hbus, htuple, hmult⟩ := hx
    have hbus' : r.ports.decodeBus = id.decodeBus := by
      rw [hbus]
      rw [hmult] at hm
      revert hm
      cases id <;> simp [InstructionId.uType, InstructionId.decodeBus]
    refine ⟨hbus', ?_⟩
    rw [← hoffers, ← hbus', htuple, hbus]
    rfl

namespace BindingTables

variable {T : BindingTables F}

theorem mem_lookups {x : Interaction F} : x ∈ T.lookups ↔ (∃ r ∈ T.rows, x ∈ r.ports.lookups) ∨
    (∃ d ∈ T.decode, x ∈ d.lookups) ∨ x ∈ programLookups T.program := by
  simp [lookups, InstrRow.lookups]

/-- Every fetch and every lookup of a decoded instruction has multiplicity 0 or 1. -/
theorem boolean (h : T.Eval) {x : Interaction F} (hx : x ∈ T.lookups)
    (hbus : x.bus ∈ bindingBuses) (hsend : x.direction = .send) :
    x.multiplicity = 0 ∨ x.multiplicity = 1 := by
  rcases mem_lookups.mp hx with ⟨r, hr, hx⟩ | ⟨d, -, hx⟩ | hx
  · have hmemory : x.bus ≠ .memory := ne_of_mem_of_not_mem hbus (by decide)
    rw [multiplicity_eq_isDummy hx hmemory]
    exact InstrRow.isDummy_of_eval (h.1 r hr)
  · rcases decode_mem_lookups.mp hx with ⟨k, rfl⟩ | rfl | rfl | rfl
    · exact .inr rfl
    all_goals cases hsend
  · obtain ⟨c, -, rfl | rfl⟩ := program_mem_lookups.mp hx <;> cases hsend

variable [DecidableEq F] [CharP F modulus]

/-- Every real instruction row is served by a decode row. -/
theorem served (h : T.Eval) (hcount : T.lookups.length < modulus)
    (hbalanced : ∀ bus ∈ bindingBuses, ∀ values, net T.lookups bus values = 0) {r : InstrRow F}
    (hr : r ∈ realRows T.rows) : ∃ d ∈ T.decode, Serves d r := by
  obtain ⟨hmem, hreal⟩ := List.mem_filter.mp hr
  have hdummy : r.ports.isDummy = 1 := of_decide_eq_true hreal
  have hbus : r.ports.decodeBus ∈ bindingBuses := .tail _ (regular r).decodeBus
  have hsent : r.ports.decode ∈ selected .send r.ports.decodeBus T.lookups := by
    refine mem_selected.mpr ⟨send r.ports.decodeBus r.ports.decode r.ports.isDummy, ?_, rfl, rfl,
      hdummy, rfl⟩
    exact mem_lookups.mpr (.inl ⟨r, hmem, Soundness.mem_lookups.mpr (.inr (.inl rfl))⟩)
  obtain ⟨x, hx, hxbus, hdirection, hvalues, hmult⟩ := exists_receive (p := modulus)
    (fun x hx hxbus hsend _ => boolean h hx (by rwa [hxbus]) hsend)
    ((length_selected_le _).trans_lt hcount) (hbalanced _ hbus _) hsent
  rcases mem_lookups.mp hx with ⟨r', -, hx⟩ | ⟨d, hd, hx⟩ | hx
  · have htrace := bus_eq_trace_of_receive hx hdirection
    exact absurd (hxbus.symm.trans htrace) (decodeBus_ne (regular r) .trace (by decide))
  · refine ⟨d, hd, x.multiplicity, hmult, ?_⟩
    rw [receive, ← hxbus, ← hvalues, ← hdirection]
    exact hx
  · obtain ⟨c, -, rfl | rfl⟩ := program_mem_lookups.mp hx
    · exact absurd hxbus.symm (decodeBus_ne (regular r) .program (by decide))
    · exact absurd hxbus.symm (decodeBus_ne (regular r) .programImage (by decide))

omit [DecidableEq F] [CharP F modulus] in
theorem length_lookups : 7 * T.decode.length + 2 * T.program.length ≤ T.lookups.length := by
  have hdecode : (T.decode.flatMap DecodeColumns.lookups).length = 7 * T.decode.length := by
    simp [DecodeColumns.lookups, mul_comm]
  have hprogram : (programLookups T.program).length = 2 * T.program.length := by
    simp [programLookups, ProgramColumns.lookups, mul_comm]
  rw [lookups, List.length_append, List.length_append, hdecode, hprogram]
  omega

/-- Every decode row holds the four bytes at its pc. -/
theorem fetched (h : T.Eval) (hcount : T.lookups.length < modulus)
    (hbalanced : ∀ bus ∈ bindingBuses, ∀ values, net T.lookups bus values = 0)
    {d : DecodeColumns F} (hd : d ∈ T.decode) : RomHolds T.program d.pc d.instruction := by
  have hlength := T.length_lookups
  have hrows : ∀ values, net (T.rows.flatMap InstrRow.lookups) .program values = 0 := by
    intro values
    apply net_of_forall_bus_ne
    intro x hx hbus
    obtain ⟨r, -, hx⟩ := List.mem_flatMap.mp hx
    exact absurd (hbus ▸ bus_mem (regular r) hx) (by decide)
  apply Soundness.fetched h.2.2 _ (by omega) (by omega) hd
  intro values
  have hnet := hbalanced .program (by decide) values
  rwa [lookups, List.append_assoc, net_append, hrows, zero_add] at hnet

end BindingTables

end Buses

theorem upper_immediate_inj {imm imm' : BitVec 20}
    (hhigh : (imm.setWidth 32).toNat / 2 ^ 8 % 2 ^ 12 = (imm'.setWidth 32).toNat / 2 ^ 8 % 2 ^ 12)
    (hlow : (imm.setWidth 32).toNat % 2 ^ 8 = (imm'.setWidth 32).toNat % 2 ^ 8) : imm = imm' := by
  apply BitVec.eq_of_toNat_eq
  rw [BitVec.toNat_setWidth, BitVec.toNat_setWidth] at hhigh hlow
  omega

theorem jal_offset_inj {offset offset' : BitVec 20}
    (hhigh : jalHigh12 ((offset ++ (0 : BitVec 1)).signExtend 32) =
      jalHigh12 ((offset' ++ (0 : BitVec 1)).signExtend 32))
    (hlow : ((offset ++ (0 : BitVec 1)).signExtend 32).toNat / 2 ^ 12 % 2 ^ 8 =
      ((offset' ++ (0 : BitVec 1)).signExtend 32).toNat / 2 ^ 12 % 2 ^ 8) : offset = offset' := by
  apply BitVec.eq_of_toNat_eq
  have hbits := toNat_offset offset
  have hbits' := toNat_offset offset'
  rw [jalHigh12, jalHigh12] at hhigh
  generalize ((offset ++ (0 : BitVec 1)).signExtend 32).toNat = t at *
  generalize ((offset' ++ (0 : BitVec 1)).signExtend 32).toNat = t' at *
  have h1 : t / 2 % 2 ^ 10 = t' / 2 % 2 ^ 10 := by omega
  have h11 : t / 2 ^ 11 % 2 = t' / 2 ^ 11 % 2 := by omega
  have h20 : t / 2 ^ 20 % 2 = t' / 2 ^ 20 % 2 := by omega
  clear hhigh
  omega

/-- An instruction of `decode_u` or `decode_j` is determined by its kind and operands, and so is
its word. -/
theorem word_eq_of_operands {word word' : U32} {i i' : Instruction}
    (h : decodeInstruction word = some i) (h' : decodeInstruction word' = some i')
    (hid : instructionId i = instructionId i') (hbus : (instructionId i).decodeBus ≠ .decode)
    (hoperands : operands i = operands i') : word = word' := by
  obtain ⟨j, rfl, rfl⟩ := (Vm.decodeInstruction_eq_some_iff _).mp h
  obtain ⟨j', rfl, rfl⟩ := (Vm.decodeInstruction_eq_some_iff _).mp h'
  congr 1
  cases j with
  | opImm op | shiftImm op | opReg op => cases op <;> exact absurd rfl hbus
  | jalr => exact absurd rfl hbus
  | lui rd imm =>
    cases j' with
    | opImm op | shiftImm op | opReg op => cases op <;> cases hid
    | lui rd' imm' =>
      simp only [Vm.ofRv32i, operands, List.cons.injEq, and_true] at hoperands
      obtain ⟨hrd, hhigh, hlow⟩ := hoperands
      rw [BitVec.eq_of_toNat_eq hrd, upper_immediate_inj hhigh hlow]
    | _ => cases hid
  | auipc rd imm =>
    cases j' with
    | opImm op | shiftImm op | opReg op => cases op <;> cases hid
    | auipc rd' imm' =>
      simp only [Vm.ofRv32i, operands, List.cons.injEq, and_true] at hoperands
      obtain ⟨hrd, hhigh, hlow⟩ := hoperands
      rw [BitVec.eq_of_toNat_eq hrd, upper_immediate_inj hhigh hlow]
    | _ => cases hid
  | jal rd offset =>
    cases j' with
    | opImm op | shiftImm op | opReg op => cases op <;> cases hid
    | jal rd' offset' =>
      simp only [Vm.ofRv32i, operands, List.cons.injEq, and_true] at hoperands
      obtain ⟨hrd, hhigh, hlow⟩ := hoperands
      rw [BitVec.eq_of_toNat_eq hrd, jal_offset_inj hhigh hlow]
    | _ => cases hid

section Binding

variable [DecidableEq F] [CharP F modulus] {T : BindingTables F}

theorem code_injective : Function.Injective InstructionId.code := by
  intro a b h
  cases a <;> cases b <;> first | rfl | cases h

theorem code_lt (id : InstructionId) : id.code < modulus := by
  cases id <;> norm_num [InstructionId.code]

/-- Operands are at most 12 bits wide. -/
theorem operands_lt (instruction : Instruction) : ∀ n ∈ operands instruction, n < modulus := by
  intro n hn
  show n < 2147483647
  cases instruction <;>
    simp only [operands, jalHigh12, List.mem_cons, List.not_mem_nil, or_false] at hn <;> omega

omit [DecidableEq F] in
/-- What serves a row fixes its kind and operands. -/
theorem Decodes.kind_eq {d : DecodeColumns F} {word : U32} {instruction : Instruction}
    (h : Decodes d word instruction) {r : InstrRow F} (hserve : Serves d r) :
    r.ports.id = instructionId instruction ∧
      r.ports.operands = (Air.operands instruction).map (fun n : ℕ => (n : F)) ∧
      (r.ports.decodeBus = .decode → r.ports.pc = d.pc) := by
  obtain ⟨hbus, htuple⟩ := h.serves hserve
  have htail : ∀ l l' : List F, l ++ (r.ports.id.code : F) :: r.ports.operands =
      l' ++ ((instructionId instruction).code : F) ::
        (Air.operands instruction).map (fun n : ℕ => (n : F)) → l.length = l'.length →
      l = l' ∧ r.ports.id = instructionId instruction ∧
        r.ports.operands = (Air.operands instruction).map (fun n : ℕ => (n : F)) := by
    intro l l' heq hlength
    obtain ⟨hl, hcode, hoperands⟩ := by simpa using List.append_inj heq hlength
    exact ⟨hl, code_injective (natCast_inj_of_lt (code_lt _) (code_lt _) hcode), hoperands⟩
  rw [RowPorts.decode] at htuple
  obtain ⟨hpc, hid, hoperands⟩ := htail _ _ htuple (by split_ifs <;> simp)
  refine ⟨hid, hoperands, ?_⟩
  intro hdecode
  rw [if_pos hdecode, if_pos hdecode] at hpc
  exact List.ofFn_injective hpc

/-- Every real row of a kind that is decoded with its pc executes the instruction in ROM at its
pc. The others do exactly where the ROM holds the bytes of a decode row that serves them. -/
theorem executes_iff (h : T.Eval) (hcount : T.lookups.length < modulus)
    (hbalanced : ∀ bus ∈ bindingBuses, ∀ values, net T.lookups bus values = 0) {r : InstrRow F}
    (hr : r ∈ realRows T.rows) :
    Executes T.program r ↔ (r.ports.decodeBus ≠ .decode → Bound T r) := by
  obtain ⟨d, hd, hserve⟩ := T.served h hcount hbalanced hr
  constructor
  · rintro ⟨word, instruction, hrom, hdecode, hid, hoperands⟩ hbus
    obtain ⟨word', instruction', hdecodes⟩ := decode_row_sound (h.2.1 d hd)
    obtain ⟨hid', hoperands', -⟩ := hdecodes.kind_eq hserve
    have hsame := hid.symm.trans hid'
    have hword := word_eq_of_operands hdecode hdecodes.decode hsame
      (by rwa [hsame, ← (hdecodes.serves hserve).1])
      (map_natCast_inj (operands_lt _) (operands_lt _) (hoperands.symm.trans hoperands'))
    refine ⟨d, hd, hserve, ?_⟩
    rwa [hdecodes.bytes, ← hword]
  · intro hbound
    by_cases hbus : r.ports.decodeBus = .decode
    · obtain ⟨word, instruction, hdecodes⟩ := decode_row_sound (h.2.1 d hd)
      obtain ⟨hid, hoperands, hpc⟩ := hdecodes.kind_eq hserve
      refine ⟨word, instruction, ?_, hdecodes.decode, hid, hoperands⟩
      rw [hpc hbus, ← hdecodes.bytes]
      exact T.fetched h hcount hbalanced hd
    · obtain ⟨d', hd', hserve', hrom⟩ := hbound hbus
      obtain ⟨word, instruction, hdecodes⟩ := decode_row_sound (h.2.1 d' hd')
      obtain ⟨hid, hoperands, -⟩ := hdecodes.kind_eq hserve'
      refine ⟨word, instruction, ?_, hdecodes.decode, hid, hoperands⟩
      rwa [← hdecodes.bytes]

end Binding

/-- In tables that satisfy their constraints and balance, every real row executes the
instruction in ROM at its pc if and only if every real `LUI`, `AUIPC` and `JAL` row finds there
the bytes of a decode row that serves it. -/
theorem instruction_binding (T : BindingTables Felt) (heval : T.Eval)
    (hcount : T.lookups.length < modulus)
    (hbalanced : ∀ bus ∈ bindingBuses, ∀ values, net T.lookups bus values = 0) :
    (∀ r ∈ realRows T.rows, Executes T.program r) ↔
      ∀ r ∈ realRows T.rows, r.ports.decodeBus ≠ .decode → Bound T r :=
  forall₂_congr fun _ hr => executes_iff heval hcount hbalanced hr

section Lui

/-- A row of `lui x, x` at pc 0. -/
def luiRow (x isDummy : Felt) : LuiColumns Felt :=
  ⟨0, 0, x, x, 0, ![0, x * 16, 0, 0], 0, ![4, 0, 0, 0], 0, isDummy⟩

/-- One `lui x, x` at pc 0 that takes its instruction from the decode row of `pc`. -/
def luiTables (pc : Felt) (x : ℕ) (mult : Fin 8 → Felt) : BindingTables Felt where
  rows := .lui (luiRow x 1) :: List.replicate 3 (.lui (luiRow 0 0))
  decode := luiDecode pc x 1 :: List.replicate 3 (luiDecode pc x 0)
  program := luiRom mult

theorem luiTables_eval {pc : Felt} {x : ℕ} {mult : Fin 8 → Felt} (hrow : luiEval (luiRow x 1))
    (hdecode : (luiDecode pc x 1).eval) (hpadding : (luiDecode pc x 0).eval)
    (hprogram : programEval (luiRom mult)) : (luiTables pc x mult).Eval := by
  refine ⟨?_, ?_, hprogram⟩
  · intro r hr
    rcases List.mem_cons.mp hr with rfl | hr
    · exact hrow
    · rw [List.eq_of_mem_replicate hr]
      show luiEval _
      decide
  · intro d hd
    rcases List.mem_cons.mp hd with rfl | hd
    · exact hdecode
    · rwa [List.eq_of_mem_replicate hd]

theorem instruction_binding_lui :
    let T := luiTables 0 1 ![4, 4, 4, 4, 0, 0, 0, 0]
    (∀ r ∈ realRows T.rows, Executes T.program r) ↔
      ∀ r ∈ realRows T.rows, r.ports.decodeBus ≠ .decode → Bound T r := by
  intro T
  apply instruction_binding T
  · apply luiTables_eval
    · decide
    · decide
    · decide
    · decide
  · decide
  · intro bus hbus values
    apply net_eq_zero_of_forall_mem
    revert bus
    decide +kernel

/-- The only real row runs the second instruction of the ROM at pc 0. -/
theorem instruction_binding_fails : ∃ T : BindingTables Felt, T.Eval ∧
    T.lookups.length < modulus ∧ (∀ bus ∈ bindingBuses, ∀ values, net T.lookups bus values = 0) ∧
      ¬ ∀ r ∈ realRows T.rows, Executes T.program r := by
  have heval : (luiTables 4 2 ![0, 0, 0, 0, 4, 4, 4, 4]).Eval := by
    apply luiTables_eval
    · decide
    · decide
    · decide
    · decide
  have hcount : (luiTables 4 2 ![0, 0, 0, 0, 4, 4, 4, 4]).lookups.length < modulus := by decide
  have hbalanced : ∀ bus ∈ bindingBuses, ∀ values,
      net (luiTables 4 2 ![0, 0, 0, 0, 4, 4, 4, 4]).lookups bus values = 0 := by
    intro bus hbus values
    apply net_eq_zero_of_forall_mem
    revert bus
    decide +kernel
  refine ⟨_, heval, hcount, hbalanced, ?_⟩
  intro h
  have hreal : .lui (luiRow 2 1) ∈ realRows (luiTables 4 2 ![0, 0, 0, 0, 4, 4, 4, 4]).rows :=
    List.mem_filter.mpr ⟨List.mem_cons_self, by decide⟩
  obtain ⟨d, hd, -, a, ha, hbytes⟩ :=
    (executes_iff heval hcount hbalanced hreal).mp (h _ hreal) (by decide)
  obtain ⟨c, hc, -, hvalue⟩ := hbytes 0
  have hlt : a < 8 := (List.getElem?_eq_some_iff.mp hc).1
  have hzero : a = 0 := by
    apply natCast_inj_of_lt (F := Felt) (hlt.trans (by norm_num)) (by norm_num)
    rw [ha]
    decide
  subst hzero
  have hfirst : c.value = 0xb7 := by
    rw [← Option.some.inj hc]
    decide
  have hserved : d.instruction 0 = 0x37 := by
    rcases List.mem_cons.mp hd with rfl | hd
    · decide
    · rw [List.eq_of_mem_replicate hd]
      decide
  exact absurd (hfirst.symm.trans (hvalue.trans hserved)) (by decide)

end Lui

end Loquela.Soundness
