import Loquela.Completeness.Rows
import Loquela.Soundness.Decoding
import Loquela.Soundness.Interactions
import Loquela.Soundness.Words

/-! # The three decoders

The interpreter's chain of tests, the flags of `fill_row` and the constraints of `DecodeAir`
recognise the same words, and a row offers what the trace builder of its kind looks up.
-/

namespace Loquela.Completeness
open Air Library Library.Bus Soundness Trace
open Rv32i hiding bit
open Library.Bits (bit)
open Vm (Instruction U32 VM ExecutionStep decodeInstruction ofRv32i)

variable {F : Type*} [Field F]

section FillRow

variable {word : U32} {id : InstructionId}

theorem wordMatches_iff (opcode : BitVec 7) (funct3 : Option (BitVec 3))
    (funct7 : Option (BitVec 7)) :
    wordMatches word (opcode.setWidth 32) (funct3.map (BitVec.setWidth 32))
        (funct7.map (BitVec.setWidth 32)) ↔
      word.extractLsb' 0 7 = opcode ∧ (∀ f ∈ funct3, word.extractLsb' 12 3 = f) ∧
        ∀ f ∈ funct7, word.extractLsb' 25 7 = f := by
  rw [← Vm.opcode_eq_iff]
  simp only [wordMatches, Bool.and_eq_true, decide_eq_true_eq, Option.all_eq_true,
    Option.map_eq_some_iff, forall_exists_index, and_imp, forall_apply_eq_imp_iff₂, and_assoc,
    ← Vm.funct3_eq_iff, ← Vm.funct7_eq_iff, Option.mem_def]

theorem isKind_eq (word : U32) (k : InstructionId) : isKind word k =
    wordMatches word ((BitVec.ofNat 7 (opcodeOf k)).setWidth 32)
      ((k.funct3.map (BitVec.ofNat 3)).map (BitVec.setWidth 32))
      ((k.funct7.map (BitVec.ofNat 7)).map (BitVec.setWidth 32)) := by
  cases k <;> rfl

theorem isKind_iff (k : InstructionId) : isKind word k ↔ FieldsOf word k := by
  rw [isKind_eq, wordMatches_iff]
  constructor
  · rintro ⟨hop, h3, h7⟩
    exact ⟨hop, fun f hf => h3 _ (Option.mem_map_of_mem _ hf),
      fun f hf => h7 _ (Option.mem_map_of_mem _ hf)⟩
  · rintro ⟨hop, h3, h7⟩
    refine ⟨hop, ?_, ?_⟩
    · intro f hf
      obtain ⟨n, hn, rfl⟩ := Option.mem_map.mp hf
      exact h3 n hn
    · intro f hf
      obtain ⟨n, hn, rfl⟩ := Option.mem_map.mp hf
      exact h7 n hn

theorem isKind_eq_decide (h : FieldsOf word id) (k : InstructionId) :
    isKind word k = decide (k = id) := by
  rw [Bool.eq_iff_iff, isKind_iff, decide_eq_true_eq]
  constructor
  · exact fun hk => hk.unique h
  · rintro rfl
    exact h

/-- The chain of tests ends at the kind of the word, `ADDI` by falling through. -/
theorem packedKind_eq (h : FieldsOf word id) : packedKind word = id := by
  rw [packedKind, funext (isKind_eq_decide h)]
  cases id <;> rfl

theorem toNat_field (word : U32) (k n : ℕ) :
    (word >>> k &&& BitVec.ofNat 32 (2 ^ n - 1)).toNat = (word.extractLsb' k n).toNat := by
  rw [BitFields.toNat_ushiftRight_and_mask, BitFields.toNat_extractLsb']

theorem rowOf_decodeRow (h : FieldsOf word id) (pc : U32) (mult : F) :
    RowOf (decodeRow pc word mult) word id where
  bytes := by
    funext i
    exact congrArg Nat.cast (toNat_field word (8 * i) 8)
  bits := by
    intro b k
    have hk := k.isLt
    have hmask : (word >>> (8 * (b : ℕ)) &&& 0xFF).toNat = (word.extractLsb' (8 * b) 8).toNat :=
      toNat_field word (8 * b) 8
    have hbyte : (word >>> (8 * (b : ℕ)) &&& 0xFF).toNat.testBit k =
        word.toNat.testBit (8 * b + k) := by
      rw [hmask, BitVec.testBit_toNat, BitVec.getLsbD_extractLsb', decide_eq_true hk,
        Bool.true_and]
      rfl
    have hbit := toNat_field (word >>> (8 * (b : ℕ)) &&& 0xFF) k 1
    rw [BitFields.toNat_extractLsb', pow_one, ← Nat.toNat_testBit, hbyte] at hbit
    exact (congrArg Nat.cast hbit).trans (Bits.bit_eq_natCast _).symm
  hot := by
    intro k
    show fromBool (isKind word k) = _
    rw [isKind_eq_decide h]
    by_cases hk : k = id <;> simp [fromBool, hk]
  packed := congrArg (fun k : InstructionId => (k.code : F)) (packedKind_eq h)
  rd := congrArg Nat.cast (toNat_field word 7 5)
  rs1 := congrArg Nat.cast (toNat_field word 15 5)
  imm := congrArg Nat.cast (toNat_field word 20 12)
  rs2 := congrArg Nat.cast (toNat_field word 20 5)
  immLow8 := by
    show (if isKind word .lui || isKind word .auipc || isKind word .jal then
      ((word >>> 12 &&& 0xFF).toNat : F) else 0) = _
    have hmask : (word >>> 12 &&& 0xFF).toNat = (word.extractLsb' 12 8).toNat :=
      toNat_field word 12 8
    rw [isKind_eq_decide h, isKind_eq_decide h, isKind_eq_decide h, hmask]
    cases id <;> rfl

end FillRow

section Sends

theorem immU12_eq (imm : BitVec 16) : immU12 imm = imm.toNat % 2 ^ 12 :=
  BitFields.toNat_and_mask imm 12

theorem immU12'_eq (imm : U32) : immU12' imm = imm.toNat % 2 ^ 12 :=
  BitFields.toNat_and_mask imm 12

theorem immediateShamt_mod (imm : U32) : immediateShamt imm = imm.toNat % 2 ^ 5 :=
  BitFields.toNat_and_mask imm 5

/-- The builder of JAL reassembles the offset as the decode table does. -/
theorem jalImmHigh12_eq (imm : U32) : (jalImmHigh12 imm).toNat = jalHigh12 imm := by
  have hfields : jalImmHigh12 imm = (imm.extractLsb' 1 10).setWidth 32 |||
      (imm.extractLsb' 11 1).setWidth 32 <<< 10 ||| (imm.extractLsb' 20 1).setWidth 32 <<< 11 := by
    rw [← BitFields.ushiftRight_and_mask, ← BitFields.ushiftRight_and_mask,
      ← BitFields.ushiftRight_and_mask]
    rfl
  have happend : jalImmHigh12 imm =
      (imm.extractLsb' 20 1 ++ (imm.extractLsb' 11 1 ++ imm.extractLsb' 1 10)).setWidth 32 := by
    rw [hfields, BitFields.setWidth_append, BitFields.setWidth_append, BitVec.or_comm,
      BitVec.or_comm ((imm.extractLsb' 1 10).setWidth 32)]
  have hlt := (imm.extractLsb' 20 1 ++ (imm.extractLsb' 11 1 ++ imm.extractLsb' 1 10)).isLt
  rw [happend, BitVec.toNat_setWidth, Nat.mod_eq_of_lt (by omega), BitFields.toNat_append,
    BitFields.toNat_append, BitFields.toNat_extractLsb', BitFields.toNat_extractLsb',
    BitFields.toNat_extractLsb', jalHigh12]
  omega

theorem jalImmLo8_eq (imm : U32) : (jalImmLo8 imm).toNat = imm.toNat / 2 ^ 12 % 2 ^ 8 :=
  BitFields.toNat_ushiftRight_and_mask imm 12 8

/-- The row of a step looks up the kind and the operands of its instruction. -/
theorem row_operands (x : Executed) : (x.row : InstrRow F).ports.operands =
    (operands (ofRv32i x.instr)).map fun n : ℕ => (n : F) := by
  obtain ⟨pc, timestamp, registers, i⟩ := x
  cases i with
  | opImm op rd rs1 imm =>
    have himm := immU12_eq (imm.signExtend 16)
    have himm' := immU12'_eq (imm.signExtend 32)
    cases op
    case slti | sltiu => exact congrArg (fun n : ℕ => [(rd.toNat : F), rs1.toNat, n]) himm'
    all_goals exact congrArg (fun n : ℕ => [(rd.toNat : F), rs1.toNat, n]) himm
  | shiftImm op rd rs1 shamt =>
    have hshamt := immediateShamt_mod (shamt.setWidth 32)
    cases op <;> exact congrArg (fun n : ℕ => [(rd.toNat : F), rs1.toNat, n]) hshamt
  | opReg op rd rs1 rs2 => cases op <;> rfl
  | lui rd imm | auipc rd imm =>
    have hhigh : (imm.setWidth 32 >>> 8 &&& (0xFFF : U32)).toNat = _ :=
      BitFields.toNat_ushiftRight_and_mask (imm.setWidth 32) 8 12
    have hlow : (imm.setWidth 32 &&& (0xFF : U32)).toNat = _ :=
      BitFields.toNat_and_mask (imm.setWidth 32) 8
    exact congrArg₂ (fun m n : ℕ => [(rd.toNat : F), m, n]) hhigh hlow
  | jal rd offset =>
    have hhigh := jalImmHigh12_eq ((offset ++ (0 : BitVec 1)).signExtend 32)
    have hlow := jalImmLo8_eq ((offset ++ (0 : BitVec 1)).signExtend 32)
    exact congrArg₂ (fun m n : ℕ => [(rd.toNat : F), m, n]) hhigh hlow
  | jalr rd rs1 imm =>
    have himm := immU12'_eq (imm.signExtend 32)
    exact congrArg (fun n : ℕ => [(rd.toNat : F), rs1.toNat, n]) himm

end Sends

section Offers

/-- The tuple by which an instruction is looked up; on the bus `decode` it carries the pc. -/
def decodeTuple (pc : Limbs F) (i : Instruction) : List F :=
  (if (instructionId i).decodeBus = .decode then List.ofFn pc else []) ++
    ((instructionId i).code : F) :: (operands i).map fun n : ℕ => (n : F)

theorem row_decode (x : Executed) :
    (x.row : InstrRow F).ports.decode = decodeTuple (u32ToLimbs x.pc) (ofRv32i x.instr) := by
  rw [RowPorts.decode, (row_ports x).decodeBus, (row_ports x).id, row_operands, (row_ports x).pc]
  rfl

variable {c : DecodeColumns F} {word : U32} {i : Instruction}

/-- Which of the three tuples of a row is real. -/
def selector (c : DecodeColumns F) : BusName → F
  | .decode => 1 - c.anyOf InstructionId.uType - c.instrType .jal
  | .decodeU => c.anyOf InstructionId.uType
  | .decodeJ => c.instrType .jal
  | _ => 0

theorem selector_eq {id : InstructionId} (h : Hot c id) {bus : BusName} (hbus : bus ∈ decodeBuses) :
    selector c bus = if bus = id.decodeBus then 1 else 0 := by
  have hjal := h .jal
  have hu : c.anyOf InstructionId.uType = _ := h.anyOf (by decide)
  simp only [decodeBuses, List.mem_cons, List.not_mem_nil, or_false] at hbus
  rcases hbus with rfl | rfl | rfl <;> simp only [selector, hjal, hu] <;> cases id <;>
    simp [InstructionId.uType, InstructionId.decodeBus]

variable [DecidableEq F]

theorem net_decodeColumns (c : DecodeColumns F) {bus : BusName} (hbus : bus ∈ decodeBuses)
    (values : List F) : net c.lookups bus values =
      if (if bus = .decode then List.ofFn c.pc else []) ++ c.instrTypePacked :: offered c bus = values
        then -(c.mult * selector c bus) else 0 := by
  have hfetch : net (List.ofFn fun i : Fin 4 => send .program [c.pc 0 + ((i : ℕ) : F), c.pc 1,
      c.pc 2, c.pc 3, c.instruction i] 1) bus values = 0 := by
    apply net_of_forall_bus_ne
    intro x hx
    obtain ⟨k, rfl⟩ := List.mem_ofFn.mp hx
    have hprogram : BusName.program ∉ decodeBuses := by decide
    exact (ne_of_mem_of_not_mem hbus hprogram).symm
  rw [DecodeColumns.lookups, net_append, hfetch, zero_add]
  simp only [decodeBuses, List.mem_cons, List.not_mem_nil, or_false] at hbus
  rcases hbus with rfl | rfl | rfl <;>
    simp [Interaction.weight, Interaction.signed, receive, offered, selector]

/-- A row offers its instruction `mult` times on the bus of its kind, and nothing else. -/
theorem net_of_decodes (h : Decodes c word i) {bus : BusName} (hbus : bus ∈ decodeBuses)
    (values : List F) : net c.lookups bus values =
      if bus = (instructionId i).decodeBus ∧ decodeTuple c.pc i = values then -c.mult else 0 := by
  rw [net_decodeColumns c hbus, selector_eq h.hot hbus, h.packed]
  by_cases hkind : bus = (instructionId i).decodeBus
  · subst hkind
    rw [h.offers, if_pos rfl, mul_one, decodeTuple]
    simp only [true_and]
  · rw [if_neg hkind, mul_zero, neg_zero, ite_self, if_neg fun hand => hkind hand.1]

end Offers

/-- The interpreter's decoder, the constraints of `DecodeAir`, the row `fill_row` builds and the
rows of the instruction AIRs agree on a word. -/
structure DecodersAgree (word : U32) : Prop where
  accepts : (∃ c : DecodeColumns Felt, c.instruction = u32ToLimbs word ∧ c.eval) ↔
    (decodeInstruction word).isSome
  unique : ∀ c c' : DecodeColumns Felt, c.instruction = u32ToLimbs word → c.eval →
    c'.instruction = u32ToLimbs word → c'.eval → c.instrType = c'.instrType ∧ c.rd = c'.rd ∧
      c.rs1 = c'.rs1 ∧ c.imm = c'.imm ∧ c.rs2 = c'.rs2 ∧ c.immLow8 = c'.immLow8
  offers : ∀ (c : DecodeColumns Felt) (i : Instruction), c.instruction = u32ToLimbs word →
    c.eval → decodeInstruction word = some i → ∀ bus ∈ decodeBuses, ∀ values,
      net c.lookups bus values =
        if bus = (instructionId i).decodeBus ∧ decodeTuple c.pc i = values then -c.mult else 0
  sends : ∀ (vm vm' : VM) (step : ExecutionStep), vm.step = some vm' →
    vm'.trace = vm.trace ++ [step] → step.instructionWord = word →
      ∃ (i : Instruction) (r : InstrRow Felt), decodeInstruction word = some i ∧
        fillRow vm.timestamp step = some r ∧ r.ports.decodeBus = (instructionId i).decodeBus ∧
          r.ports.decode = decodeTuple (u32ToLimbs vm.pc) i
  fills : (decodeInstruction word).isSome → ∀ (pc : U32) (mult : Felt),
    (decodeRow pc word mult).instruction = u32ToLimbs word ∧ (decodeRow pc word mult).eval
  filled : ∀ (c : DecodeColumns Felt) (pc : U32), c.instruction = u32ToLimbs word → c.eval →
    c.pc = u32ToLimbs pc → c = decodeRow pc word c.mult

section Agreement

variable {word : U32} {c : DecodeColumns Felt}

theorem exists_rowOf_word (hbytes : c.instruction = u32ToLimbs word) (heval : c.eval) :
    ∃ id, FieldsOf word id ∧ RowOf c word id := by
  obtain ⟨word', id, hfields, hrow⟩ := exists_rowOf heval
  have hword : word' = word := by
    rw [← word_u32ToLimbs word', ← word_u32ToLimbs word, ← hrow.bytes, hbytes]
  exact ⟨id, hword ▸ hfields, hword ▸ hrow⟩

/-- Two rows for one word agree but for the pc and the multiplicity. -/
theorem exists_common_kind {c' : DecodeColumns Felt} (hbytes : c.instruction = u32ToLimbs word)
    (heval : c.eval) (hbytes' : c'.instruction = u32ToLimbs word) (heval' : c'.eval) :
    ∃ id, RowOf c word id ∧ RowOf c' word id := by
  obtain ⟨id, hfields, hrow⟩ := exists_rowOf_word hbytes heval
  obtain ⟨id', hfields', hrow'⟩ := exists_rowOf_word hbytes' heval'
  obtain rfl := hfields.unique hfields'
  exact ⟨id, hrow, hrow'⟩

theorem exists_fieldsOf (h : (decodeInstruction word).isSome) : ∃ id, FieldsOf word id := by
  obtain ⟨i, hi⟩ := Option.isSome_iff_exists.mp h
  obtain ⟨j, rfl, -⟩ := Vm.exists_encode hi
  exact ⟨_, fieldsOf_encode j⟩

theorem eval_decodeRow (h : (decodeInstruction word).isSome) (pc : U32) (mult : Felt) :
    (decodeRow pc word mult).instruction = u32ToLimbs word ∧ (decodeRow pc word mult).eval := by
  obtain ⟨id, hfields⟩ := exists_fieldsOf h
  have hrow := rowOf_decodeRow (F := Felt) hfields pc mult
  exact ⟨hrow.bytes, eval_of_rowOf hrow hfields⟩

/-- The three decoders agree on every word. -/
theorem decoder_agreement (word : U32) : DecodersAgree word where
  accepts := by
    constructor
    · rintro ⟨c, hbytes, heval⟩
      obtain ⟨id, hfields, hrow⟩ := exists_rowOf_word hbytes heval
      exact Option.isSome_iff_exists.mpr ⟨_, (hrow.decodes hfields).decode⟩
    · intro h
      exact ⟨decodeRow 0 word 0, eval_decodeRow h 0 0⟩
  unique c c' hbytes heval hbytes' heval' := by
    obtain ⟨id, hrow, hrow'⟩ := exists_common_kind hbytes heval hbytes' heval'
    exact ⟨funext fun k => (hrow.hot k).trans (hrow'.hot k).symm, hrow.rd.trans hrow'.rd.symm,
      hrow.rs1.trans hrow'.rs1.symm, hrow.imm.trans hrow'.imm.symm,
      hrow.rs2.trans hrow'.rs2.symm, hrow.immLow8.trans hrow'.immLow8.symm⟩
  offers c i hbytes heval hi bus hbus values := by
    obtain ⟨id, hfields, hrow⟩ := exists_rowOf_word hbytes heval
    have hdecodes := hrow.decodes hfields
    obtain rfl := Option.some.inj (hi.symm.trans hdecodes.decode)
    exact net_of_decodes hdecodes hbus values
  sends vm vm' step hstep htrace hword := by
    obtain ⟨i, next, -, -, rfl⟩ := Vm.step_eq_some_iff.mp hstep
    have hrecorded : (executing vm i).step = step :=
      List.singleton_inj.mp (List.append_cancel_left htrace)
    subst hrecorded
    refine ⟨ofRv32i i, (executing vm i).row, ?_, fillRow_step (executing vm i), ?_, ?_⟩
    · rw [← hword]
      exact Vm.decodeInstruction_encode i
    · exact (row_ports (executing vm i)).decodeBus
    · exact row_decode (executing vm i)
  fills h pc mult := eval_decodeRow h pc mult
  filled c pc hbytes heval hpc := by
    obtain ⟨id, hfields, hrow⟩ := exists_rowOf_word hbytes heval
    exact hrow.ext (rowOf_decodeRow hfields pc c.mult) hpc rfl

end Agreement

end Loquela.Completeness
