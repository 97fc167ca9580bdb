import Loquela.Soundness.Immediate

/-! # Bitwise rows

A row of a bitwise table holds three bytes, so its lookups check the ranges of both operands and
of the result. For the immediate forms they are what fixes the sign extension.
-/

namespace Loquela.Soundness
open Air Library
open Vm (U32)

theorem leBytes_xor (x y : U32) (i : Fin 4) : leBytes (x ^^^ y) i = leBytes x i ^^^ leBytes y i := by
  rw [leBytes, BitVec.extractLsb'_xor, BitVec.toNat_xor]
  rfl

theorem leBytes_or (x y : U32) (i : Fin 4) : leBytes (x ||| y) i = leBytes x i ||| leBytes y i := by
  rw [leBytes, BitVec.extractLsb'_or, BitVec.toNat_or]
  rfl

theorem leBytes_and (x y : U32) (i : Fin 4) : leBytes (x &&& y) i = leBytes x i &&& leBytes y i := by
  rw [leBytes, BitVec.extractLsb'_and, BitVec.toNat_and]
  rfl

section Lookups

variable {t : Table} {op : ℕ → ℕ → ℕ} {f : U32 → U32 → U32} {x y z : Limbs Felt}

/-- The lookups of four limbs check the operands and compute the result. -/
theorem sendsRows_tripleChecks (ht : t.rows = bitwiseRows op) :
    SendsRows t (tripleChecks t.bus x y z) ↔
      Bytes x ∧ Bytes y ∧ ∀ i, z i = (op (x i).val (y i).val : ℕ) := by
  constructor
  · intro hsends
    have hlimb : ∀ i, (x i).val < 256 ∧ (y i).val < 256 ∧ z i = (op (x i).val (y i).val : ℕ) := by
      intro i
      obtain ⟨row, hrow, heq⟩ := hsends _ (List.mem_ofFn.mpr ⟨i, rfl⟩) rfl
      rw [ht] at hrow
      rcases mem_bitwiseRows.mp hrow with ⟨a, ha, b, hb, rfl⟩
      simp only [List.map_cons, List.map_nil, List.cons.injEq, and_true] at heq
      obtain ⟨hx, hy, hz⟩ := heq
      rw [hx, hy, hz, val_natCast_of_lt ha, val_natCast_of_lt hb]
      exact ⟨ha, hb, rfl⟩
    exact ⟨fun i => (hlimb i).1, fun i => (hlimb i).2.1, fun i => (hlimb i).2.2⟩
  · rintro ⟨hx, hy, hz⟩ c hc -
    rcases List.mem_ofFn.mp hc with ⟨i, rfl⟩
    rw [ht]
    refine ⟨_, mem_bitwiseRows.mpr ⟨(x i).val, hx i, (y i).val, hy i, rfl⟩, ?_⟩
    simp [hz i]

theorem bitwise_word (ht : t.rows = bitwiseRows op)
    (hf : ∀ x y i, leBytes (f x y) i = op (leBytes x i) (leBytes y i))
    (hsends : SendsRows t (tripleChecks t.bus x y z)) :
    Bytes y ∧ z = u32ToLimbs (f (word x) (word y)) := by
  obtain ⟨hx, hy, hz⟩ := (sendsRows_tripleChecks ht).mp hsends
  refine ⟨hy, ?_⟩
  funext i
  rw [hz i, u32ToLimbs_apply, hf, ← u32ToLimbs_val, ← u32ToLimbs_val, u32ToLimbs_word hx,
    u32ToLimbs_word hy]

/-- The immediate bytes are range checked by the table, so they are the sign extension. -/
theorem bitwiseImm_row (c : BitwiseImmColumns Felt) {imm : BitVec 12} (heval : c.eval)
    (himm : c.imm = (imm.toNat : Felt)) (ht : t.rows = bitwiseRows op)
    (hf : ∀ x y i, leBytes (f x y) i = op (leBytes x i) (leBytes y i))
    (hsends : SendsRows t (tripleChecks t.bus c.rs1Value c.immSeBytes c.rdNewValue)) :
    c.immSeBytes = u32ToLimbs (imm.signExtend 32) ∧
      c.rdNewValue = u32ToLimbs (f (word c.rs1Value) (imm.signExtend 32)) := by
  obtain ⟨-, hext⟩ := heval
  rw [himm] at hext
  obtain ⟨hbytes, hrd⟩ := bitwise_word ht hf hsends
  have hse := immSeBytes_eq hext hbytes
  rw [hse, word_u32ToLimbs] at hrd
  exact ⟨hse, hrd⟩

end Lookups

/-- The six bitwise instructions write what they name; in the immediate forms no other sign
extension passes. -/
theorem bitwise_sound (c : BitwiseColumns Felt) (d : BitwiseImmColumns Felt) (imm : BitVec 12) :
    (c.eval → SendsRows xorAir (xorPorts c).checks →
      c.rdNewValue = u32ToLimbs (word c.rs1Value ^^^ word c.rs2Value)) ∧
    (c.eval → SendsRows orAir (orPorts c).checks →
      c.rdNewValue = u32ToLimbs (word c.rs1Value ||| word c.rs2Value)) ∧
    (c.eval → SendsRows andAir (andPorts c).checks →
      c.rdNewValue = u32ToLimbs (word c.rs1Value &&& word c.rs2Value)) ∧
    (d.eval → SendsRows xorAir (xoriPorts d).checks → d.imm = (imm.toNat : Felt) →
      d.immSeBytes = u32ToLimbs (imm.signExtend 32) ∧
        d.rdNewValue = u32ToLimbs (word d.rs1Value ^^^ imm.signExtend 32)) ∧
    (d.eval → SendsRows orAir (oriPorts d).checks → d.imm = (imm.toNat : Felt) →
      d.immSeBytes = u32ToLimbs (imm.signExtend 32) ∧
        d.rdNewValue = u32ToLimbs (word d.rs1Value ||| imm.signExtend 32)) ∧
    (d.eval → SendsRows andAir (andiPorts d).checks → d.imm = (imm.toNat : Felt) →
      d.immSeBytes = u32ToLimbs (imm.signExtend 32) ∧
        d.rdNewValue = u32ToLimbs (word d.rs1Value &&& imm.signExtend 32)) := by
  refine ⟨fun _ hsends => ?_, fun _ hsends => ?_, fun _ hsends => ?_, fun heval hsends himm => ?_,
    fun heval hsends himm => ?_, fun heval hsends himm => ?_⟩
  · rw [xorPorts, BitwiseColumns.ports, RegisterColumns.ports, sendsRows_append,
      sendsRows_append] at hsends
    exact (bitwise_word (t := xorAir) rfl leBytes_xor hsends.1.1).2
  · exact (bitwise_word (t := orAir) rfl leBytes_or hsends).2
  · exact (bitwise_word (t := andAir) rfl leBytes_and hsends).2
  · exact bitwiseImm_row (t := xorAir) d heval himm rfl leBytes_xor hsends
  · exact bitwiseImm_row (t := orAir) d heval himm rfl leBytes_or hsends
  · exact bitwiseImm_row (t := andAir) d heval himm rfl leBytes_and hsends

/-- `op x3, x1, x2` with `x` and `y` in the sources and `z` written. -/
def bitwiseRow (x y z : Limbs Felt) : BitwiseColumns Felt where
  pc := 0
  timestamp := 0
  rd := 3
  rs1 := 1
  rs2 := 2
  oldRdValue := 0
  nextPc := ![4, 0, 0, 0]
  nextPcCarries := 0
  isDummy := 1
  rs1Value := x
  rs2Value := y
  rdNewValue := z

/-- `op x3, x1, -2048` with `x` in the source and `z` written. -/
def bitwiseImmRow (x z : Limbs Felt) : BitwiseImmColumns Felt where
  pc := 0
  timestamp := 0
  rd := 3
  rs1 := 1
  imm := 0x800
  oldRdValue := 0
  nextPc := ![4, 0, 0, 0]
  nextPcCarries := 0
  isDummy := 1
  immHighBits := ![0, 0, 0, 1]
  immSeBytes := ![0, 0xF8, 0xFF, 0xFF]
  rs1Value := x
  rdNewValue := z

theorem bitwise_sound_rows :
    ((bitwiseRow ![12, 0, 0, 0] ![10, 0, 0, 0] ![6, 0, 0, 0]).rdNewValue = u32ToLimbs (12 ^^^ 10) ∧
      (bitwiseRow ![12, 0, 0, 0] ![10, 0, 0, 0] ![14, 0, 0, 0]).rdNewValue =
        u32ToLimbs (12 ||| 10) ∧
      (bitwiseRow ![12, 0, 0, 0] ![10, 0, 0, 0] ![8, 0, 0, 0]).rdNewValue =
        u32ToLimbs (12 &&& 10)) ∧
    ((bitwiseImmRow ![0, 0x18, 0, 0] ![0, 0xE0, 0xFF, 0xFF]).rdNewValue =
        u32ToLimbs (0x1800 ^^^ 0xFFFFF800) ∧
      (bitwiseImmRow ![0, 0x18, 0, 0] ![0, 0xF8, 0xFF, 0xFF]).rdNewValue =
        u32ToLimbs (0x1800 ||| 0xFFFFF800) ∧
      (bitwiseImmRow ![0, 0x18, 0, 0] ![0, 0x18, 0, 0]).rdNewValue =
        u32ToLimbs (0x1800 &&& 0xFFFFF800)) := by
  have hxor : SendsRows xorAir
      (xorPorts (bitwiseRow ![12, 0, 0, 0] ![10, 0, 0, 0] ![6, 0, 0, 0])).checks := by
    rw [xorPorts, BitwiseColumns.ports, RegisterColumns.ports, sendsRows_append, sendsRows_append]
    refine ⟨⟨(sendsRows_tripleChecks (t := xorAir) rfl).mpr (by decide), ?_⟩, ?_⟩
    · simp [SendsRows, byteChecks, xorAir]
    · simp [SendsRows, byteChecks, xorAir]
  have hsound := fun z z' => bitwise_sound (bitwiseRow ![12, 0, 0, 0] ![10, 0, 0, 0] z)
    (bitwiseImmRow ![0, 0x18, 0, 0] z') 0x800#12
  refine ⟨⟨?_, ?_, ?_⟩, ?_, ?_, ?_⟩
  · exact (hsound ![6, 0, 0, 0] 0).1 (by decide) hxor
  · exact (hsound ![14, 0, 0, 0] 0).2.1 (by decide)
      ((sendsRows_tripleChecks (t := orAir) rfl).mpr (by decide))
  · exact (hsound ![8, 0, 0, 0] 0).2.2.1 (by decide)
      ((sendsRows_tripleChecks (t := andAir) rfl).mpr (by decide))
  · exact ((hsound 0 ![0, 0xE0, 0xFF, 0xFF]).2.2.2.1 (by decide)
      ((sendsRows_tripleChecks (t := xorAir) rfl).mpr (by decide)) rfl).2
  · exact ((hsound 0 ![0, 0xF8, 0xFF, 0xFF]).2.2.2.2.1 (by decide)
      ((sendsRows_tripleChecks (t := orAir) rfl).mpr (by decide)) rfl).2
  · exact ((hsound 0 ![0, 0x18, 0, 0]).2.2.2.2.2 (by decide)
      ((sendsRows_tripleChecks (t := andAir) rfl).mpr (by decide)) rfl).2

end Loquela.Soundness
