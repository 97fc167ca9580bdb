import Loquela.Soundness.Decoding
import Loquela.Soundness.Rom

/-! # Fetching from the ROM

Every decode row sends its four bytes with multiplicity 1 and the low limb of its pc counted on
without a carry. Whatever the limbs are, the tuples met by a ROM row have the packed address of
that row, which is its index.
-/

namespace Loquela.Soundness
open Air Library Library.Bus

section Fetch

variable {F : Type*} [Field F]

theorem decode_mem_lookups {d : DecodeColumns F} {x : Interaction F} :
    x ∈ d.lookups ↔ (∃ k : Fin 4, x = send .program
        [d.pc 0 + ((k : ℕ) : F), d.pc 1, d.pc 2, d.pc 3, d.instruction k] 1) ∨
      x = receive .decode (List.ofFn d.pc ++ [d.instrTypePacked, d.rd, d.rs1, d.field4])
        (d.mult * (1 - d.anyOf InstructionId.uType - d.instrType .jal)) ∨
      x = receive .decodeU [d.instrTypePacked, d.rd, d.imm, d.immLow8]
        (d.mult * d.anyOf InstructionId.uType) ∨
      x = receive .decodeJ [d.instrTypePacked, d.rd, d.immJalForm, d.immLow8]
        (d.mult * d.instrType .jal) := by
  simp only [DecodeColumns.lookups, List.mem_append, List.mem_ofFn, List.mem_cons,
    List.not_mem_nil, or_false, eq_comm]

/-- The decode rows and the ROM, the only tables on the `program` bus. -/
def fetchLookups (decode : List (DecodeColumns F)) (program : List (ProgramColumns F)) :
    List (Interaction F) := decode.flatMap DecodeColumns.lookups ++ programLookups program

variable [DecidableEq F] {decode : List (DecodeColumns F)} {program : List (ProgramColumns F)}

/-- Four fetches for every decode row, real or padding. -/
theorem length_fetches :
    (selected .send .program (fetchLookups decode program)).length = 4 * decode.length := by
  have hrow : ∀ d : DecodeColumns F, (selected .send .program d.lookups).length = 4 := by
    intro d
    simp [DecodeColumns.lookups, List.ofFn_succ]
  have hrom : selected .send .program (programLookups program) = [] := by
    apply List.eq_nil_iff_forall_not_mem.mpr
    intro values h
    obtain ⟨x, hx, -, hdirection, -⟩ := mem_selected.mp h
    obtain ⟨c, -, rfl | rfl⟩ := program_mem_lookups.mp hx <;> cases hdirection
  rw [fetchLookups, selected_append, hrom, List.append_nil, selected_flatMap, List.length_flatMap]
  simp only [hrow, List.map_const', List.sum_replicate, smul_eq_mul]
  exact Nat.mul_comm _ _

variable [CharP F modulus] (heval : programEval program)
  (hnet : ∀ values, net (fetchLookups decode program) .program values = 0)
  (hfetches : 4 * decode.length < modulus)

include heval hnet hfetches in
/-- Each byte of a decode row is held by a real ROM row, whose address has three bytes. -/
theorem exists_rom_row {d : DecodeColumns F} (hd : d ∈ decode) (k : Fin 4) :
    ∃ (a : ℕ) (c : ProgramColumns F), program[a]? = some c ∧ c.isReal = 1 ∧
      c.value = d.instruction k ∧ (a : F) = packed d.pc + ((k : ℕ) : F) ∧ d.pc 3 = 0 := by
  have hsent : [d.pc 0 + ((k : ℕ) : F), d.pc 1, d.pc 2, d.pc 3, d.instruction k] ∈
      selected .send .program (fetchLookups decode program) := by
    refine mem_selected.mpr ⟨send .program _ 1, ?_, rfl, rfl, rfl, rfl⟩
    apply List.mem_append_left
    exact List.mem_flatMap.mpr ⟨d, hd, decode_mem_lookups.mpr (.inl ⟨k, rfl⟩)⟩
  have hbool : ∀ x ∈ fetchLookups decode program, x.bus = .program → x.direction = .send →
      x.multiplicity = 0 ∨ x.multiplicity = 1 := by
    intro x hx hbus hsend
    rcases List.mem_append.mp hx with hx | hx
    · obtain ⟨d', -, hx⟩ := List.mem_flatMap.mp hx
      rcases decode_mem_lookups.mp hx with ⟨k', rfl⟩ | rfl | rfl | rfl
      · exact .inr rfl
      all_goals cases hbus
    · obtain ⟨c, -, rfl | rfl⟩ := program_mem_lookups.mp hx <;> cases hsend
  obtain ⟨x, hx, hxbus, hdirection, hvalues, hmult⟩ := exists_receive (p := modulus)
    (fun x hx hbus hsend _ => hbool x hx hbus hsend) (length_fetches.trans_lt hfetches)
    (hnet _) hsent
  rcases List.mem_append.mp hx with hx | hx
  · obtain ⟨d', -, hx⟩ := List.mem_flatMap.mp hx
    rcases decode_mem_lookups.mp hx with ⟨k', rfl⟩ | rfl | rfl | rfl
    · cases hdirection
    all_goals cases hxbus
  · obtain ⟨c, hc, rfl | rfl⟩ := program_mem_lookups.mp hx
    · obtain ⟨a, ha⟩ := List.mem_iff_getElem?.mp hc
      have hrow := (heval.1 c hc).2.2.2
      have hreal := (mul_eq_zero.mp hrow).resolve_left hmult
      have htuple : List.ofFn c.address ++ [c.value] = [d.pc 0 + ((k : ℕ) : F), d.pc 1, d.pc 2,
        d.pc 3, d.instruction k] := hvalues
      simp only [List.ofFn_succ, List.ofFn_zero, List.cons_append, List.nil_append,
        List.cons.injEq, and_true] at htuple
      obtain ⟨h0, (h1 : c.address 1 = _), (h2 : c.address 2 = _), (h3 : c.address 3 = _),
        hvalue⟩ := htuple
      refine ⟨a, c, ha, (sub_eq_zero.mp hreal).symm, hvalue, ?_,
        h3 ▸ (heval.1 c hc).2.1⟩
      rw [← packed_address heval ha, packed, packed, ← h1, ← h2, ← h3]
      linear_combination h0
    · cases hxbus

include heval hnet hfetches in
/-- Every pc that is decoded has three bytes. -/
theorem pc_top {d : DecodeColumns F} (hd : d ∈ decode) : d.pc 3 = 0 := by
  obtain ⟨_, _, -, -, -, -, htop⟩ := exists_rom_row heval hnet hfetches hd 0
  exact htop

include heval hnet hfetches in
/-- Every decode row holds the four bytes at its pc. -/
theorem fetched (hheight : program.length < modulus) {d : DecodeColumns F} (hd : d ∈ decode) :
    RomHolds program d.pc d.instruction := by
  have hrow := exists_rom_row heval hnet hfetches hd
  have hheight : program.length < 2147483647 := hheight
  obtain ⟨a, c, ha, hreal, hvalue, hpc, -⟩ := hrow 0
  have hpc : (a : F) = packed d.pc := by simpa using hpc
  have hbytes : ∀ k (hk : k < 4), ∃ c, program[a + k]? = some c ∧ c.isReal = 1 ∧
      c.value = d.instruction ⟨k, hk⟩ := by
    intro k
    induction k with
    | zero => exact fun _ => ⟨c, ha, hreal, hvalue⟩
    | succ k ih =>
      intro hk
      obtain ⟨_, hprev, -⟩ := ih (by omega)
      obtain ⟨a', c', ha', hreal', hvalue', hpc', -⟩ := hrow ⟨k + 1, hk⟩
      have hlt := (List.getElem?_eq_some_iff.mp hprev).1
      have hlt' := (List.getElem?_eq_some_iff.mp ha').1
      -- The byte before is in the ROM, so the index does not leave the range of the field.
      have hindex : a' = a + (k + 1) := by
        apply natCast_inj_of_lt (F := F)
        · show a' < 2147483647
          omega
        · show a + (k + 1) < 2147483647
          omega
        · rw [hpc', ← hpc, ← Nat.cast_add]
      exact ⟨c', hindex ▸ ha', hreal', hvalue'⟩
  exact ⟨a, hpc, fun k => hbytes k k.isLt⟩

end Fetch

section Index

variable {program : List (ProgramColumns Felt)} {pc x : Limbs Felt}

/-- In a ROM shorter than the field the packed address is the index. -/
theorem RomHolds.getElem? (h : RomHolds program pc x) (hheight : program.length < modulus)
    (k : Fin 4) : ∃ c, program[(packed pc).val + k]? = some c ∧ c.isReal = 1 ∧ c.value = x k := by
  obtain ⟨a, ha, hbytes⟩ := h
  obtain ⟨_, hfirst, -⟩ := hbytes 0
  have hlt := (List.getElem?_eq_some_iff.mp hfirst).1
  have hlt : a < modulus := (Nat.le_add_right a _).trans_lt (hlt.trans hheight)
  rw [← ha, ZMod.val_natCast_of_lt hlt]
  exact hbytes k

/-- Every decode row, real or padding and whatever the limbs of its pc, holds the four real ROM
bytes from its packed pc on, so the packed pc determines the word. -/
theorem fetch_sound (program : List (ProgramColumns Felt)) (decode : List (DecodeColumns Felt))
    (heval : programEval program)
    (hbalanced : ∀ values, net (fetchLookups decode program) .program values = 0)
    (hheight : program.length < modulus) (hfetches : 4 * decode.length < modulus) :
    (∀ d ∈ decode, ∀ k : Fin 4, ∃ c, program[(packed d.pc).val + k]? = some c ∧ c.isReal = 1 ∧
      c.value = d.instruction k) ∧
    ∀ d ∈ decode, ∀ d' ∈ decode, packed d.pc = packed d'.pc → d.instruction = d'.instruction := by
  have hholds : ∀ d ∈ decode, RomHolds program d.pc d.instruction :=
    fun d hd => fetched heval hbalanced hfetches hheight hd
  constructor
  · exact fun d hd => (hholds d hd).getElem? hheight
  · intro d hd d' hd' hpc
    funext k
    obtain ⟨c, hc, -, hvalue⟩ := (hholds d hd).getElem? hheight k
    obtain ⟨c', hc', -, hvalue'⟩ := (hholds d' hd').getElem? hheight k
    rw [← hpc, hc] at hc'
    obtain rfl := Option.some.inj hc'
    exact hvalue.symm.trans hvalue'

end Index

/-- The decode row of `lui x, x` at some pc. -/
def luiDecode (pc : Felt) (x : ℕ) (mult : Felt) : DecodeColumns Felt where
  pc := registerAddress pc
  instruction := u32ToLimbs (Rv32i.Instr.lui x x).encode
  decompositions := fun b k => Bits.bit ((Rv32i.Instr.lui x x).encode.toNat.testBit (8 * b + k))
  instrType := fun k => if k = .lui then 1 else 0
  instrTypePacked := 19
  rd := x
  rs1 := 0
  imm := 0
  rs2 := 0
  immLow8 := x
  mult := mult

/-- The ROM of `lui x1, 1; lui x2, 2`. -/
def luiRom (mult : Fin 8 → Felt) : List (ProgramColumns Felt) :=
  List.ofFn fun i => ⟨registerAddress ((i : ℕ) : Felt),
    ![0xb7, 0x10, 0, 0, 0x37, 0x21, 0, 0] i, mult i, 0, 1⟩

theorem fetch_sound_lui :
    let program := luiRom ![4, 4, 4, 4, 0, 0, 0, 0]
    let decode := List.replicate 4 (luiDecode 0 1 1)
    (∀ d ∈ decode, ∀ k : Fin 4, ∃ c, program[(packed d.pc).val + k]? = some c ∧ c.isReal = 1 ∧
      c.value = d.instruction k) ∧
    ∀ d ∈ decode, ∀ d' ∈ decode, packed d.pc = packed d'.pc → d.instruction = d'.instruction := by
  apply fetch_sound
  · decide
  · intro values
    apply net_eq_zero_of_forall_mem
    decide +kernel
  · decide
  · decide

end Loquela.Soundness
