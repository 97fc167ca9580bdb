import Loquela.Air.Decode
import Loquela.Air.Instructions.Operands
import Loquela.Air.Limbs
import Loquela.Vm.Encoding

/-! # The decode table

A row of `DecodeAir` holds the bytes of an instruction word that the interpreter decodes, and
offers its kind and operands on the bus of that kind.
-/

namespace Loquela.Soundness
open Air Library
open Rv32i hiding bit
open Library.Bits (bit pack)
open Vm (Instruction U32 decodeInstruction ofRv32i)

variable {F : Type*} [Field F]

section Bits

variable {c : DecodeColumns F} {word : U32}

/-- The decompositions are the bits of `word`. -/
def HoldsBits (c : DecodeColumns F) (word : U32) : Prop :=
  ∀ (b : Fin 4) (k : Fin 8), c.decompositions b k = bit (word.toNat.testBit (8 * b + k))

theorem exists_word (h : c.evalBits) : ∃ word : U32, HoldsBits c word := by
  have hbool : ∀ i : Fin 32, c.decompositions ⟨i / 8, by omega⟩ ⟨i % 8, by omega⟩ = 0 ∨
      c.decompositions ⟨i / 8, by omega⟩ ⟨i % 8, by omega⟩ = 1 :=
    fun i => assertBool_iff.mp ((h _).1 _)
  obtain ⟨w, hw, hbits⟩ := Bits.exists_bits hbool
  refine ⟨BitVec.ofNat 32 w, ?_⟩
  intro b k
  have := hbits ⟨8 * b + k, by omega⟩
  rw [BitVec.toNat_ofNat, Nat.mod_eq_of_lt hw, ← this]
  congr 1
  · ext
    simp only
    omega
  · ext
    simp only
    omega

theorem pack_decompositions (hw : HoldsBits c word) (b : Fin 4) :
    pack (List.ofFn (c.decompositions b)) = u32ToLimbs word b := by
  rw [show c.decompositions b = fun k : Fin 8 => bit (word.toNat.testBit (8 * b + k)) from
    funext (hw b), Bits.pack_testBit, u32ToLimbs_apply, leBytes_eq]
  norm_num

theorem instruction_eq (h : c.evalBits) (hw : HoldsBits c word) :
    c.instruction = u32ToLimbs word := by
  funext b
  rw [(h b).2, pack_decompositions hw]

/-- Bits recombined from consecutive places are a field of the word. -/
theorem packBits_eq (hw : HoldsBits c word) (places : List (Fin 4 × Fin 8)) (k n : ℕ)
    (hplaces : places.map (fun p => 8 * (p.1 : ℕ) + p.2) = List.ofFn fun i : Fin n => k + i) :
    c.packBits places = ((word.extractLsb' k n).toNat : F) := by
  have hmap : places.map (fun p => c.decompositions p.1 p.2) =
      (places.map fun p => 8 * (p.1 : ℕ) + p.2).map fun i => bit (word.toNat.testBit i) := by
    rw [List.map_map]
    exact List.map_congr_left fun p _ => hw p.1 p.2
  rw [DecodeColumns.packBits, hmap, hplaces, List.map_ofFn, BitFields.toNat_extractLsb',
    ← Bits.pack_testBit]
  rfl

/-- A field whose bits are pinned to a constant is that constant. -/
theorem extract_eq_ofNat {k n f : ℕ}
    (h : ∀ i : Fin n, word.toNat.testBit (k + i) = f.testBit i) :
    word.extractLsb' k n = BitVec.ofNat n f := by
  apply BitVec.eq_of_getLsbD_eq
  intro i hi
  rw [BitVec.getLsbD_extractLsb', BitVec.getLsbD_ofNat]
  simpa [hi, BitVec.getLsbD] using h ⟨i, hi⟩

end Bits

/-- Flag `id` is set and no other. -/
def Hot (c : DecodeColumns F) (id : InstructionId) : Prop :=
  ∀ k, c.instrType k = if k = id then 1 else 0

section Flags

variable {c : DecodeColumns F} {id : InstructionId}

theorem exists_hot [DecidableEq F] [CharP F modulus] (h : c.evalFlags) : ∃ id, Hot c id := by
  obtain ⟨id, -, hid⟩ := Bits.exists_hot (p := modulus) (l := InstructionId.all)
    (fun k _ => assertBool_iff.mp (h.1 k)) (by decide) (by norm_num) h.2
  exact ⟨id, fun k => hid k k.mem_all⟩

theorem Hot.anyOf (h : Hot c id) {kinds : List InstructionId} (hkinds : kinds.Nodup) :
    c.anyOf kinds = if id ∈ kinds then 1 else 0 := Bits.sum_hot h hkinds

theorem Hot.self (h : Hot c id) : c.instrType id = 1 := by rw [h id, if_pos rfl]

theorem Hot.packed (h : Hot c id) :
    (InstructionId.all.map fun k => c.instrType k * (k.code : F)).sum = (id.code : F) := by
  rw [List.map_congr_left fun k _ => by rw [h k]]
  cases id <;> simp [InstructionId.all]

/-- The opcode of each kind. -/
def opcodeOf : InstructionId → ℕ
  | .jal => 0b1101111
  | .jalr => 0b1100111
  | .lui => 0b0110111
  | .auipc => 0b0010111
  | id => if id ∈ InstructionId.rType then 0b0110011 else 0b0010011

theorem exists_opcode (id : InstructionId) :
    ∃ g ∈ InstructionId.opcodes, g.1.Nodup ∧ id ∈ g.1 ∧ g.2 = opcodeOf id := by
  cases id <;> decide

variable {word : U32}

/-- The opcode and function fields of the word are those of the kind. -/
structure FieldsOf (word : U32) (id : InstructionId) : Prop where
  opcode : word.extractLsb' 0 7 = BitVec.ofNat 7 (opcodeOf id)
  funct3 : ∀ f ∈ id.funct3, word.extractLsb' 12 3 = BitVec.ofNat 3 f
  funct7 : ∀ f ∈ id.funct7, word.extractLsb' 25 7 = BitVec.ofNat 7 f

theorem opcode_place (i : Fin 7) : 8 * ((0 : Fin 4) : ℕ) + (i.castSucc : Fin 8) = 0 + i := by
  simp

theorem funct3_place (i : Fin 3) :
    8 * ((1 : Fin 4) : ℕ) + ((i.natAdd 4).castSucc : Fin 8) = 12 + i := by
  simp
  omega

theorem funct7_place (i : Fin 7) : 8 * ((3 : Fin 4) : ℕ) + (i.succ : Fin 8) = 25 + i := by
  simp
  omega

theorem opcode_sound (hid : Hot c id) (hw : HoldsBits c word) (h : c.evalOpcode) :
    word.extractLsb' 0 7 = BitVec.ofNat 7 (opcodeOf id) := by
  obtain ⟨g, hg, hnodup, hmem, hop⟩ := exists_opcode id
  apply extract_eq_ofNat
  intro i
  have := h g hg i
  rw [hid.anyOf hnodup, if_pos hmem, one_mul, sub_eq_zero, hw, hop, opcode_place] at this
  exact Bits.bit_injective this

theorem funct3_sound (hid : Hot c id) (hw : HoldsBits c word) (h : c.evalFunct3) {f : ℕ}
    (hf : id.funct3 = some f) : word.extractLsb' 12 3 = BitVec.ofNat 3 f := by
  apply extract_eq_ofNat
  intro i
  have := h id f hf i
  rw [hid.self, one_mul, sub_eq_zero, hw, funct3_place] at this
  exact Bits.bit_injective this

theorem funct7_sound (hid : Hot c id) (hw : HoldsBits c word) (h : c.evalFunct7) {f : ℕ}
    (hf : id.funct7 = some f) : word.extractLsb' 25 7 = BitVec.ofNat 7 f := by
  apply extract_eq_ofNat
  intro i
  have := h id f hf i
  rw [hid.self, one_mul, sub_eq_zero, hw, funct7_place] at this
  exact Bits.bit_injective this

theorem fieldsOf_of_eval (hid : Hot c id) (hw : HoldsBits c word) (h : c.eval) :
    FieldsOf word id where
  opcode := opcode_sound hid hw h.2.2.1
  funct3 _ := funct3_sound hid hw h.2.2.2.1
  funct7 _ := funct7_sound hid hw h.2.2.2.2.1

end Flags

/-- The instruction of a given kind that a word holds. -/
def instrOf (word : U32) : InstructionId → Instr
  | .addi => .opImm .addi (word.extractLsb' 7 5) (word.extractLsb' 15 5) (word.extractLsb' 20 12)
  | .xori => .opImm .xori (word.extractLsb' 7 5) (word.extractLsb' 15 5) (word.extractLsb' 20 12)
  | .ori => .opImm .ori (word.extractLsb' 7 5) (word.extractLsb' 15 5) (word.extractLsb' 20 12)
  | .andi => .opImm .andi (word.extractLsb' 7 5) (word.extractLsb' 15 5) (word.extractLsb' 20 12)
  | .slti => .opImm .slti (word.extractLsb' 7 5) (word.extractLsb' 15 5) (word.extractLsb' 20 12)
  | .sltiu => .opImm .sltiu (word.extractLsb' 7 5) (word.extractLsb' 15 5) (word.extractLsb' 20 12)
  | .slli => .shiftImm .slli (word.extractLsb' 7 5) (word.extractLsb' 15 5) (word.extractLsb' 20 5)
  | .srli => .shiftImm .srli (word.extractLsb' 7 5) (word.extractLsb' 15 5) (word.extractLsb' 20 5)
  | .srai => .shiftImm .srai (word.extractLsb' 7 5) (word.extractLsb' 15 5) (word.extractLsb' 20 5)
  | .add => .opReg .add (word.extractLsb' 7 5) (word.extractLsb' 15 5) (word.extractLsb' 20 5)
  | .sub => .opReg .sub (word.extractLsb' 7 5) (word.extractLsb' 15 5) (word.extractLsb' 20 5)
  | .xor => .opReg .xor (word.extractLsb' 7 5) (word.extractLsb' 15 5) (word.extractLsb' 20 5)
  | .or => .opReg .or (word.extractLsb' 7 5) (word.extractLsb' 15 5) (word.extractLsb' 20 5)
  | .and => .opReg .and (word.extractLsb' 7 5) (word.extractLsb' 15 5) (word.extractLsb' 20 5)
  | .sll => .opReg .sll (word.extractLsb' 7 5) (word.extractLsb' 15 5) (word.extractLsb' 20 5)
  | .srl => .opReg .srl (word.extractLsb' 7 5) (word.extractLsb' 15 5) (word.extractLsb' 20 5)
  | .sra => .opReg .sra (word.extractLsb' 7 5) (word.extractLsb' 15 5) (word.extractLsb' 20 5)
  | .slt => .opReg .slt (word.extractLsb' 7 5) (word.extractLsb' 15 5) (word.extractLsb' 20 5)
  | .sltu => .opReg .sltu (word.extractLsb' 7 5) (word.extractLsb' 15 5) (word.extractLsb' 20 5)
  | .lui => .lui (word.extractLsb' 7 5) (word.extractLsb' 12 20)
  | .auipc => .auipc (word.extractLsb' 7 5) (word.extractLsb' 12 20)
  | .jal => .jal (word.extractLsb' 7 5) (offsetJ word)
  | .jalr => .jalr (word.extractLsb' 7 5) (word.extractLsb' 15 5) (word.extractLsb' 20 12)

theorem instructionId_instrOf (word : U32) (id : InstructionId) :
    instructionId (ofRv32i (instrOf word id)) = id := by
  cases id <;> rfl

/-- The opcode and function fields make the word the encoding of that instruction. -/
theorem encode_instrOf {word : U32} {id : InstructionId} (h : FieldsOf word id) :
    (instrOf word id).encode = word := by
  obtain ⟨hop, h3, h7⟩ := h
  cases id with
  | addi => exact encode_opImm .addi hop (h3 _ rfl)
  | xori => exact encode_opImm .xori hop (h3 _ rfl)
  | ori => exact encode_opImm .ori hop (h3 _ rfl)
  | andi => exact encode_opImm .andi hop (h3 _ rfl)
  | slti => exact encode_opImm .slti hop (h3 _ rfl)
  | sltiu => exact encode_opImm .sltiu hop (h3 _ rfl)
  | slli => exact encode_shiftImm .slli hop (h3 _ rfl) (h7 _ rfl)
  | srli => exact encode_shiftImm .srli hop (h3 _ rfl) (h7 _ rfl)
  | srai => exact encode_shiftImm .srai hop (h3 _ rfl) (h7 _ rfl)
  | add => exact encode_opReg .add hop (h3 _ rfl) (h7 _ rfl)
  | sub => exact encode_opReg .sub hop (h3 _ rfl) (h7 _ rfl)
  | xor => exact encode_opReg .xor hop (h3 _ rfl) (h7 _ rfl)
  | or => exact encode_opReg .or hop (h3 _ rfl) (h7 _ rfl)
  | and => exact encode_opReg .and hop (h3 _ rfl) (h7 _ rfl)
  | sll => exact encode_opReg .sll hop (h3 _ rfl) (h7 _ rfl)
  | srl => exact encode_opReg .srl hop (h3 _ rfl) (h7 _ rfl)
  | sra => exact encode_opReg .sra hop (h3 _ rfl) (h7 _ rfl)
  | slt => exact encode_opReg .slt hop (h3 _ rfl) (h7 _ rfl)
  | sltu => exact encode_opReg .sltu hop (h3 _ rfl) (h7 _ rfl)
  | lui => exact encode_lui hop
  | auipc => exact encode_auipc hop
  | jal => exact encode_jal hop
  | jalr => exact encode_jalr hop (h3 _ rfl)

/-- The fields of an encoding. -/
theorem fieldsOf_encode (i : Instr) : FieldsOf i.encode (instructionId (ofRv32i i)) := by
  cases i with
  | opImm op rd rs1 imm =>
    cases op <;> constructor <;> simp [Instr.encode, ofRv32i, instructionId, opcodeOf,
      InstructionId.rType, InstructionId.funct3, InstructionId.funct7, ImmOp.funct3]
  | shiftImm op rd rs1 shamt =>
    cases op <;> constructor <;> simp [Instr.encode, ofRv32i, instructionId, opcodeOf,
      InstructionId.rType, InstructionId.funct3, InstructionId.funct7, ShiftOp.funct3,
      ShiftOp.funct7]
  | opReg op rd rs1 rs2 =>
    cases op <;> constructor <;> simp [Instr.encode, ofRv32i, instructionId, opcodeOf,
      InstructionId.rType, InstructionId.funct3, InstructionId.funct7, RegOp.funct3, RegOp.funct7]
  | _ =>
    constructor <;> simp [Instr.encode, ofRv32i, instructionId, opcodeOf, InstructionId.funct3,
      InstructionId.funct7]

theorem toNat_offset (offset : BitVec 20) :
    ((offset ++ (0 : BitVec 1)).signExtend 32).toNat % 2 ^ 21 = offset.toNat * 2 := by
  have := congrArg BitVec.toNat
    (BitFields.extractLsb'_signExtend (w := 32) (by omega) (offset ++ (0 : BitVec 1)))
  rw [BitFields.toNat_extractLsb', BitFields.toNat_append] at this
  simpa using this

/-- The operands of the instruction as numbers read from the word. -/
theorem operands_instrOf (word : U32) (id : InstructionId) :
    operands (ofRv32i (instrOf word id)) =
      match id.decodeBus with
      | .decodeU => [(word.extractLsb' 7 5).toNat, (word.extractLsb' 20 12).toNat,
          (word.extractLsb' 12 8).toNat]
      | .decodeJ => [(word.extractLsb' 7 5).toNat,
          (word.extractLsb' 21 10).toNat + (word.extractLsb' 20 1).toNat * 2 ^ 10 +
            (word.extractLsb' 31 1).toNat * 2 ^ 11,
          (word.extractLsb' 12 8).toNat]
      | _ => [(word.extractLsb' 7 5).toNat, (word.extractLsb' 15 5).toNat,
          if id ∈ InstructionId.iType then (word.extractLsb' 20 12).toNat
          else (word.extractLsb' 20 5).toNat] := by
  have himm : ∀ w, 12 ≤ w → ((word.extractLsb' 20 12).signExtend w).toNat % 2 ^ 12 =
      (word.extractLsb' 20 12).toNat := by
    intro w hw
    have := congrArg BitVec.toNat (BitFields.extractLsb'_signExtend hw (word.extractLsb' 20 12))
    rwa [BitFields.toNat_extractLsb', Nat.pow_zero, Nat.div_one] at this
  have hshamt : ((word.extractLsb' 20 5).setWidth 32).toNat % 2 ^ 5 =
      (word.extractLsb' 20 5).toNat := by
    rw [BitVec.toNat_setWidth]
    omega
  cases id with
  | lui | auipc =>
    simp only [instrOf, ofRv32i, operands, InstructionId.decodeBus, BitVec.toNat_setWidth,
      BitFields.toNat_extractLsb', List.cons.injEq, and_true, true_and]
    omega
  | jal =>
    have hoffset := toNat_offset (offsetJ word)
    simp only [instrOf, ofRv32i, operands, InstructionId.decodeBus, jalHigh12]
    generalize ((offsetJ word ++ (0 : BitVec 1)).signExtend 32).toNat = t at hoffset
    have h1 : t / 2 % 2 ^ 10 = (offsetJ word).toNat % 2 ^ 10 := by omega
    have h11 : t / 2 ^ 11 % 2 = (offsetJ word).toNat / 2 ^ 10 % 2 := by omega
    have h12 : t / 2 ^ 12 % 2 ^ 8 = (offsetJ word).toNat / 2 ^ 11 % 2 ^ 8 := by omega
    have h20 : t / 2 ^ 20 % 2 = (offsetJ word).toNat / 2 ^ 19 % 2 := by omega
    rw [h1, h11, h12, h20]
    have h31 := (word.extractLsb' 31 1).isLt
    have h19 := (word.extractLsb' 12 8).isLt
    have h20 := (word.extractLsb' 20 1).isLt
    have h30 := (word.extractLsb' 21 10).isLt
    simp only [offsetJ, BitFields.toNat_append, List.cons.injEq, and_true, true_and]
    constructor <;> omega
  | addi | xori | ori | andi | slti | sltiu | jalr =>
    simp only [instrOf, ofRv32i, operands, InstructionId.decodeBus, himm 16 (by norm_num),
      himm 32 (by norm_num)]
    rfl
  | slli | srli | srai =>
    simp only [instrOf, ofRv32i, operands, InstructionId.decodeBus, hshamt]
    rfl
  | add | sub | xor | or | and | sll | srl | sra | slt | sltu => rfl

/-- The operands of the tuple a row offers on each decode bus. -/
def offered (c : DecodeColumns F) : BusName → List F
  | .decodeU => [c.rd, c.imm, c.immLow8]
  | .decodeJ => [c.rd, c.immJalForm, c.immLow8]
  | _ => [c.rd, c.rs1, c.field4]

/-- The columns of a row for `word`, by kind; the pc and the multiplicity are free. -/
structure RowOf (c : DecodeColumns F) (word : U32) (id : InstructionId) : Prop where
  bytes : c.instruction = u32ToLimbs word
  bits : HoldsBits c word
  hot : Hot c id
  packed : c.instrTypePacked = (id.code : F)
  rd : c.rd = ((word.extractLsb' 7 5).toNat : F)
  rs1 : c.rs1 = ((word.extractLsb' 15 5).toNat : F)
  imm : c.imm = ((word.extractLsb' 20 12).toNat : F)
  rs2 : c.rs2 = ((word.extractLsb' 20 5).toNat : F)
  immLow8 : c.immLow8 =
    if id ∈ [InstructionId.lui, .auipc, .jal] then ((word.extractLsb' 12 8).toNat : F) else 0

/-- What the constraints of a row make it hold. -/
structure Decodes (c : DecodeColumns F) (word : U32) (instruction : Instruction) : Prop where
  decode : decodeInstruction word = some instruction
  bytes : c.instruction = u32ToLimbs word
  hot : Hot c (instructionId instruction)
  packed : c.instrTypePacked = ((instructionId instruction).code : F)
  offers : offered c (instructionId instruction).decodeBus =
    (operands instruction).map fun n : ℕ => (n : F)

section Fields

variable {c : DecodeColumns F} {id : InstructionId} {word : U32}

theorem immJalForm_eq (hw : HoldsBits c word) :
    c.immJalForm = ((word.extractLsb' 21 10).toNat : F) +
      ((word.extractLsb' 20 1).toNat : F) * 2 ^ 10 +
        ((word.extractLsb' 31 1).toNat : F) * 2 ^ 11 := by
  rw [← packBits_eq hw [(2, 5), (2, 6), (2, 7), (3, 0), (3, 1), (3, 2), (3, 3), (3, 4), (3, 5),
      (3, 6)] 21 10 (by decide), ← packBits_eq hw [(2, 4)] 20 1 (by decide),
    ← packBits_eq hw [(3, 7)] 31 1 (by decide), add_assoc]
  simp only [DecodeColumns.immJalForm, DecodeColumns.packBits, List.map_cons, List.map_nil,
    pack, Library.Bits.pack_cons]
  ring

theorem rowOf_of_eval (hid : Hot c id) (hw : HoldsBits c word) (h : c.eval) : RowOf c word id := by
  obtain ⟨hlow, hzero, hrd, hrs1, himm, hrs2, hpacked⟩ := h.2.2.2.2.2
  rw [packBits_eq hw _ 7 5 (by decide)] at hrd
  rw [packBits_eq hw _ 15 5 (by decide)] at hrs1
  rw [packBits_eq hw _ 20 12 (by decide)] at himm
  rw [packBits_eq hw _ 20 5 (by decide)] at hrs2
  refine ⟨instruction_eq h.2.1 hw, hw, hid, hpacked.trans hid.packed, hrd, hrs1, himm, hrs2, ?_⟩
  rw [hid.anyOf (by decide)] at hlow hzero
  rw [packBits_eq hw _ 12 8 (by decide)] at hlow
  split_ifs at hlow hzero ⊢
  · rwa [one_mul, sub_eq_zero] at hlow
  · rwa [sub_zero, mul_one] at hzero

/-- The bits of a field with a known value, as the circuit checks them. -/
theorem bit_eq_of_extract {n k f : ℕ} (h : word.extractLsb' k n = BitVec.ofNat n f) (i : Fin n) :
    word.toNat.testBit (k + i) = f.testBit i := by
  have hbit := congrArg (fun v => v.getLsbD i) h
  simpa [BitVec.getLsbD_extractLsb', BitVec.getLsbD] using hbit

theorem opcodes_nodup : ∀ g ∈ InstructionId.opcodes, g.1.Nodup := by decide

theorem opcodeOf_eq : ∀ g ∈ InstructionId.opcodes, ∀ id ∈ g.1, g.2 = opcodeOf id := by decide

theorem eval_of_rowOf (h : RowOf c word id) (hf : FieldsOf word id) : c.eval := by
  obtain ⟨hbytes, hw, hid, hpacked, hrd, hrs1, himm, hrs2, hlow⟩ := h
  refine ⟨⟨?_, ?_⟩, ?_, ?_, ?_, ?_, ?_, ?_, ?_, ?_, ?_, ?_, ?_⟩
  · intro k
    rw [hid k, assertBool_iff]
    split_ifs
    · exact .inr rfl
    · exact .inl rfl
  · rw [hid.anyOf (by decide), if_pos id.mem_all]
  · intro b
    constructor
    · intro k
      rw [hw, assertBool_iff]
      cases word.toNat.testBit (8 * b + k)
      · exact .inl rfl
      · exact .inr rfl
    · rw [hbytes, pack_decompositions hw]
  · intro g hg i
    rw [hid.anyOf (opcodes_nodup g hg), hw, opcode_place]
    split_ifs with hmem
    · rw [bit_eq_of_extract hf.opcode, opcodeOf_eq g hg id hmem, sub_self, mul_zero]
    · rw [zero_mul]
  · intro k f hk i
    rw [hid k, hw, funct3_place]
    split_ifs with hkind
    · rw [bit_eq_of_extract (hf.funct3 f (hkind ▸ hk)), sub_self, mul_zero]
    · rw [zero_mul]
  · intro k f hk i
    rw [hid k, hw, funct7_place]
    split_ifs with hkind
    · rw [bit_eq_of_extract (hf.funct7 f (hkind ▸ hk)), sub_self, mul_zero]
    · rw [zero_mul]
  · rw [hid.anyOf (by decide), packBits_eq hw _ 12 8 (by decide), hlow]
    split_ifs
    · rw [sub_self, mul_zero]
    · rw [zero_mul]
  · rw [hid.anyOf (by decide), hlow]
    split_ifs
    · rw [sub_self, mul_zero]
    · rw [zero_mul]
  · rw [hrd, packBits_eq hw _ 7 5 (by decide)]
  · rw [hrs1, packBits_eq hw _ 15 5 (by decide)]
  · rw [himm, packBits_eq hw _ 20 12 (by decide)]
  · rw [hrs2, packBits_eq hw _ 20 5 (by decide)]
  · rw [hpacked, hid.packed]

theorem offered_eq (h : RowOf c word id) : offered c id.decodeBus =
    (operands (ofRv32i (instrOf word id))).map fun n : ℕ => (n : F) := by
  obtain ⟨-, hw, hid, -, hrd, hrs1, himm, hrs2, hlow⟩ := h
  have hfield : c.field4 = if id ∈ InstructionId.iType ∨ id ∈ InstructionId.uType then
      ((word.extractLsb' 20 12).toNat : F)
      else if id = .jal then 0 else ((word.extractLsb' 20 5).toNat : F) := by
    rw [DecodeColumns.field4, hid.anyOf (by decide), hid.anyOf (by decide), hid.anyOf (by decide),
      hid.anyOf (by decide), himm, hrs2]
    cases id <;> simp [InstructionId.iType, InstructionId.uType, InstructionId.rType,
      InstructionId.shiftImm]
  rw [operands_instrOf]
  cases id with
  | lui | auipc =>
    simp [InstructionId.decodeBus, offered, hrd, himm, hlow]
  | jal =>
    rw [if_pos (by decide)] at hlow
    simp only [InstructionId.decodeBus, offered, immJalForm_eq hw, hrd, hlow, List.map_cons,
      List.map_nil, Nat.cast_add, Nat.cast_mul, Nat.cast_pow, Nat.cast_two]
  | addi | xori | ori | andi | slti | sltiu | jalr =>
    simp [InstructionId.decodeBus, offered, hrd, hrs1, hfield, InstructionId.iType]
  | slli | srli | srai | add | sub | xor | or | and | sll | srl | sra | slt | sltu =>
    simp [InstructionId.decodeBus, offered, hrd, hrs1, hfield, InstructionId.iType,
      InstructionId.uType]

/-- Such a row decodes its word as the interpreter does. -/
theorem RowOf.decodes (h : RowOf c word id) (hf : FieldsOf word id) :
    Decodes c word (ofRv32i (instrOf word id)) := by
  have hkind := instructionId_instrOf word id
  constructor
  · rw [← Vm.decodeInstruction_encode, encode_instrOf hf]
  · exact h.bytes
  · rw [hkind]
    exact h.hot
  · rw [hkind]
    exact h.packed
  · rw [hkind]
    exact offered_eq h

/-- A word has the fields of one kind at most. -/
theorem FieldsOf.unique {id' : InstructionId} (h : FieldsOf word id) (h' : FieldsOf word id') :
    id = id' := by
  have hdecode := Vm.decodeInstruction_encode (instrOf word id)
  have hdecode' := Vm.decodeInstruction_encode (instrOf word id')
  rw [encode_instrOf h] at hdecode
  rw [encode_instrOf h'] at hdecode'
  rw [← instructionId_instrOf word id, ← instructionId_instrOf word id',
    Option.some.inj (hdecode.symm.trans hdecode')]

/-- The pc and the multiplicity are all that is free in a row. -/
theorem RowOf.ext {c' : DecodeColumns F} (h : RowOf c word id) (h' : RowOf c' word id)
    (hpc : c.pc = c'.pc) (hmult : c.mult = c'.mult) : c = c' := by
  have hbits : c.decompositions = c'.decompositions :=
    funext fun b => funext fun k => (h.bits b k).trans (h'.bits b k).symm
  have hflags : c.instrType = c'.instrType := funext fun k => (h.hot k).trans (h'.hot k).symm
  have hbytes := h.bytes.trans h'.bytes.symm
  have hpacked := h.packed.trans h'.packed.symm
  have hrd := h.rd.trans h'.rd.symm
  have hrs1 := h.rs1.trans h'.rs1.symm
  have himm := h.imm.trans h'.imm.symm
  have hrs2 := h.rs2.trans h'.rs2.symm
  have hlow := h.immLow8.trans h'.immLow8.symm
  clear h h'
  cases c
  cases c'
  simp_all

/-- A row that satisfies the constraints is the row of a word with the fields of its kind. -/
theorem exists_rowOf [DecidableEq F] [CharP F modulus] (h : c.eval) :
    ∃ word id, FieldsOf word id ∧ RowOf c word id := by
  obtain ⟨id, hid⟩ := exists_hot h.1
  obtain ⟨word, hw⟩ := exists_word h.2.1
  exact ⟨word, id, fieldsOf_of_eval hid hw h, rowOf_of_eval hid hw h⟩

theorem decode_row_sound [DecidableEq F] [CharP F modulus] (h : c.eval) :
    ∃ word instruction, Decodes c word instruction := by
  obtain ⟨word, id, hf, hrow⟩ := exists_rowOf h
  exact ⟨word, _, hrow.decodes hf⟩

end Fields

end Loquela.Soundness
