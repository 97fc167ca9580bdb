import Loquela.Air.Tables
import Loquela.Soundness.Words

/-! # Arithmetic right shift rows

A shift by `8 * b + k` is one by `k` within and between the bytes, then one by `b` whole bytes.
Both stages are shifts of the number with copies of a sign above it; the sign is a column of the
prover's choice.
-/

namespace Loquela.Soundness
open Air Library
open Library.Bits (bit)
open Vm (U32)

/-- The number shifted right under a sign. -/
def shiftFill (sign : ℕ) (x n : ℕ) : ℕ := (x + sign * 2 ^ 32 * (2 ^ n - 1)) / 2 ^ n

/-- Two shifts in a row. -/
theorem shiftFill_shiftFill (sign x m n : ℕ) :
    shiftFill sign (shiftFill sign x m) n = shiftFill sign x (m + n) := by
  have hm := Nat.two_pow_pos m
  have hn := Nat.two_pow_pos n
  rw [shiftFill, shiftFill, shiftFill, ← Nat.add_mul_div_left _ _ hm, Nat.div_div_eq_div_mul,
    ← Nat.pow_add]
  congr 1
  have hsplit : 2 ^ (m + n) - 1 = (2 ^ m - 1) + 2 ^ m * (2 ^ n - 1) := by
    rw [Nat.pow_add, Nat.mul_sub]
    have : 2 ^ m * 1 ≤ 2 ^ m * 2 ^ n := Nat.mul_le_mul_left _ hn
    omega
  rw [hsplit]
  ring

/-- The arithmetic shift is the one under the sign of the word. -/
theorem toNat_sshiftRight (x : U32) {n : ℕ} (hn : n < 32) :
    (x.sshiftRight n).toNat = shiftFill x.msb.toNat x.toNat n := by
  have hx := x.isLt
  cases hmsb : x.msb with
  | false =>
    rw [BitVec.sshiftRight_eq_of_msb_false hmsb, BitVec.toNat_ushiftRight,
      Nat.shiftRight_eq_div_pow, shiftFill, Bool.toNat_false, Nat.zero_mul, Nat.zero_mul,
      Nat.add_zero]
  | true =>
    have hN := Nat.two_pow_pos n
    obtain ⟨M, hM⟩ : ∃ M, 2 ^ 32 = 2 ^ n * M := ⟨2 ^ (32 - n), by rw [← Nat.pow_add]; congr 1; omega⟩
    rw [BitVec.sshiftRight_eq_of_msb_true hmsb, BitVec.toNat_not, BitVec.toNat_ushiftRight,
      BitVec.toNat_not, Nat.shiftRight_eq_div_pow, shiftFill, Bool.toNat_true, Nat.one_mul]
    rw [hM] at hx ⊢
    rw [Nat.sub_sub _ 1 x.toNat, Nat.add_comm 1 x.toNat, Nat.mul_sub_div _ _ _ hx, Nat.mul_assoc,
      Nat.add_mul_div_left _ _ hN, Nat.mul_sub, Nat.mul_one, Nat.mul_comm M]
    have hq : x.toNat / 2 ^ n < M := by
      rwa [Nat.div_lt_iff_lt_mul hN, Nat.mul_comm]
    have hle : M ≤ 2 ^ n * M := Nat.le_mul_of_pos_left M hN
    generalize x.toNat / 2 ^ n = q at hq ⊢
    generalize 2 ^ n * M = P at hle ⊢
    omega

theorem shiftFill_lt_shiftFill (x : ℕ) {n : ℕ} (hn : n ≠ 0) :
    shiftFill 0 x n < shiftFill 1 x n := by
  have hN := Nat.two_pow_pos n
  have hcopies : 2 ^ n ≤ 1 * 2 ^ 32 * (2 ^ n - 1) := by
    have : 2 ^ 1 ≤ 2 ^ n := Nat.pow_le_pow_right Nat.two_pos (Nat.pos_of_ne_zero hn)
    omega
  have hzero : shiftFill 0 x n = x / 2 ^ n := by
    rw [shiftFill, Nat.zero_mul, Nat.zero_mul, Nat.add_zero]
  calc shiftFill 0 x n < x / 2 ^ n + 1 := hzero ▸ Nat.lt_succ_self _
    _ = (x + 2 ^ n) / 2 ^ n := (Nat.add_div_right x hN).symm
    _ ≤ shiftFill 1 x n := Nat.div_le_div_right (Nat.add_le_add_left hcopies x)

/-- The sign shows in every shift but the one by 0. -/
theorem shiftFill_sign_iff {x n : ℕ} {a b : Bool} :
    shiftFill a.toNat x n = shiftFill b.toNat x n ↔ a = b ∨ n = 0 := by
  by_cases hn : n = 0
  · simp [hn, shiftFill]
  · have hlt := shiftFill_lt_shiftFill x hn
    cases a <;> cases b <;> simp [hn, hlt.ne, hlt.ne']

/-- The bits a byte passes on to the byte below. -/
def passed (x k : ℕ) : ℕ := x * 2 ^ (8 - k) % 256

/-- Byte `i` after the first stage. -/
def inter (sign : ℕ) (x : Fin 4 → ℕ) (k : ℕ) : Fin 4 → ℕ :=
  ![x 0 / 2 ^ k + passed (x 1) k, x 1 / 2 ^ k + passed (x 2) k, x 2 / 2 ^ k + passed (x 3) k,
    x 3 / 2 ^ k + sign * passed 0xFF k]

def digits (x : Fin 4 → ℕ) : ℕ := x 0 + x 1 * 2 ^ 8 + x 2 * 2 ^ 16 + x 3 * 2 ^ 24

variable {sign k : ℕ} {x : Fin 4 → ℕ}

theorem inter_lt (hsign : sign < 2) (hx : ∀ i, x i < 256) (hk : k < 8) :
    ∀ i, inter sign x k i < 256 := by
  have h0 := hx 0
  have h1 := hx 1
  have h2 := hx 2
  have h3 := hx 3
  have hbyte : ∀ a b, a < 256 → b < 256 → a / 2 ^ k + passed b k < 256 := by
    intro a b ha hb
    simp only [passed]
    interval_cases k <;> omega
  have hsigned : ∀ a, a < 256 → a / 2 ^ k + sign * passed 0xFF k < 256 := by
    intro a ha
    interval_cases sign
    · have := Nat.div_le_self a (2 ^ k)
      omega
    · rw [Nat.one_mul]
      exact hbyte a 0xFF ha (by norm_num)
  intro i
  fin_cases i
  · exact hbyte _ _ h0 h1
  · exact hbyte _ _ h1 h2
  · exact hbyte _ _ h2 h3
  · exact hsigned _ h3

theorem digits_inter (hsign : sign < 2) (hx : ∀ i, x i < 256) (hk : k < 8) :
    digits (inter sign x k) = shiftFill sign (digits x) k := by
  have h0 := hx 0
  have h1 := hx 1
  have h2 := hx 2
  have h3 := hx 3
  simp only [digits, inter, shiftFill, passed, Matrix.cons_val]
  interval_cases sign <;> interval_cases k <;> omega

/-- Byte `i` after the second stage: the bytes move down by `b` and the vacated ones are
filled. -/
def moved (sign : ℕ) (y : Fin 4 → ℕ) (b : ℕ) (i : Fin 4) : ℕ :=
  if h : i + b < 4 then y ⟨i + b, h⟩ else sign * 255

theorem digits_moved (hsign : sign < 2) (hx : ∀ i, x i < 256) {b : ℕ} (hb : b < 4) :
    digits (moved sign x b) = shiftFill sign (digits x) (8 * b) := by
  have h0 := hx 0
  have h1 := hx 1
  have h2 := hx 2
  have h3 := hx 3
  simp only [digits, moved, shiftFill]
  interval_cases sign <;> interval_cases b <;> simp <;> omega

/-- What is sent on the `byte_srl` bus are rows of the shift table. -/
def SendsShifts (checks : List (Check Felt)) : Prop :=
  ∀ c ∈ checks, c.1 = .byteSrl → ∃ row ∈ byteShiftRightAir.rows, c.2 = row.map Nat.cast

/-- The carry of the shift table. -/
theorem carry_eq_passed (b k : ℕ) :
    (if k = 0 then 0 else b <<< (8 - k) &&& 0xFF) = passed b k := by
  rw [passed, Nat.shiftLeft_eq, show 0xFF = 2 ^ 8 - 1 from rfl, Nat.and_two_pow_sub_one_eq_mod]
  split_ifs with hzero
  · subst hzero
    simp
  · rfl

theorem shift_row {row : List ℕ} (h : row ∈ byteShiftRightAir.rows) :
    ∃ b < 256, ∃ k < 8, row = [b, k, b / 2 ^ k, passed b k] := by
  simp only [byteShiftRightAir, List.mem_flatMap, List.mem_map, List.mem_range] at h
  obtain ⟨b, hb, k, hk, rfl⟩ := h
  exact ⟨b, hb, k, hk, by rw [carry_eq_passed, Nat.shiftRight_eq_div_pow]⟩

/-- A lookup of the shift table reads off the two parts of a shifted byte. -/
theorem shift_check {checks : List (Check Felt)} (h : SendsShifts checks) {x bitShamt a c : Felt}
    (hmem : (.byteSrl, [x, bitShamt, a, c]) ∈ checks) : ∃ k < 8, bitShamt = (k : ℕ) ∧
      x.val < 256 ∧ a = (x.val / 2 ^ k : ℕ) ∧ c = (passed x.val k : ℕ) := by
  obtain ⟨row, hrow, heq⟩ := h _ hmem rfl
  obtain ⟨b, hb, k, hk, rfl⟩ := shift_row hrow
  simp only [List.map_cons, List.map_nil, List.cons.injEq, and_true] at heq
  obtain ⟨rfl, rfl, rfl, rfl⟩ := heq
  rw [val_natCast_of_lt hb]
  exact ⟨k, hk, rfl, hb, rfl, rfl⟩

variable {s : ShiftStages Felt} {g : SignFill Felt} {checks : List (Check Felt)}

/-- The selectors choose the number of bytes to move by. -/
theorem exists_byteShamt (h : s.selectors) :
    ∃ b < 4, s.byteShamt = (b : ℕ) ∧ ∀ i : Fin 4, s.isBs i = if (i : ℕ) = b then 1 else 0 := by
  obtain ⟨hbool, hsum, hshamt⟩ := h
  obtain ⟨a, -, hhot⟩ := Bits.exists_hot (p := modulus) (l := List.finRange 4)
    (fun i _ => assertBool_iff.mp (hbool i)) (by decide) (by norm_num)
    (by rw [← hsum]; simp [List.finRange_succ]; ring)
  have hhot : ∀ i, s.isBs i = if i = a then 1 else 0 := fun i => hhot i (List.mem_finRange i)
  refine ⟨a, a.isLt, ?_, fun i => ?_⟩
  · rw [hshamt, hhot, hhot, hhot]
    fin_cases a <;> simp
  · rw [hhot]
    exact if_congr Fin.ext_iff rfl rfl

theorem moved_lt {sign : ℕ} {y : Fin 4 → ℕ} (hsign : sign < 2) (hy : ∀ i, y i < 256) (b : ℕ)
    (i : Fin 4) : moved sign y b i < 256 := by
  rw [moved]
  split_ifs with h
  · exact hy _
  · omega

/-- The bytes of a row of a right shift, under a sign. -/
theorem right_eq {topCarry fill : Felt} (hbs : s.selectors) (hright : s.right topCarry fill)
    (hshifts : SendsShifts checks) (hstage : ∀ c ∈ s.checks .byteSrl, c ∈ checks) {k sign : ℕ}
    (hk : k < 8) (hbit : s.bitShamt = (k : ℕ)) (ht : sign < 2)
    (htop : topCarry = (sign * passed 0xFF k : ℕ)) (hfill : fill = (sign * 255 : ℕ)) :
    ∃ b < 4, s.byteShamt = (b : ℕ) ∧ (∀ i : Fin 4, s.isBs i = if (i : ℕ) = b then 1 else 0) ∧
      Bytes s.rs1Bytes ∧ Bytes s.rdBytes ∧
      packedNat s.rdBytes = shiftFill sign (packedNat s.rs1Bytes) (k + 8 * b) := by
  obtain ⟨b, hb, hbyte, hhot⟩ := exists_byteShamt hbs
  have hrow : ∀ i, (s.rs1Bytes i).val < 256 ∧ s.shiftedBytes i = ((s.rs1Bytes i).val / 2 ^ k : ℕ) ∧
      s.carryBytes i = (passed (s.rs1Bytes i).val k : ℕ) := by
    intro i
    obtain ⟨k', hk', hbit', hx, hs, hc⟩ := shift_check hshifts
      (hstage _ (List.mem_ofFn.mpr ⟨i, rfl⟩))
    obtain rfl : k' = k :=
      nat_eq_of_cast (by omega) (by omega) (hbit'.symm.trans hbit)
    exact ⟨hx, hs, hc⟩
  have hx : Bytes s.rs1Bytes := fun i => (hrow i).1
  let y := inter sign (fun i => (s.rs1Bytes i).val) k
  have hy : ∀ i, y i < 256 := inter_lt ht hx hk
  have hrd : ∀ i, s.rdBytes i = (moved sign y b i : ℕ) := by
    obtain ⟨e3, e2, e1, e0⟩ := hright
    simp only [(hrow _).2.1, (hrow _).2.2, hhot, hfill, htop] at e3 e2 e1 e0
    intro i
    fin_cases i
    · show s.rdBytes 0 = (moved sign y b 0 : ℕ)
      rw [e0]
      interval_cases b <;> simp [moved, y, inter]
    · show s.rdBytes 1 = (moved sign y b 1 : ℕ)
      rw [e1]
      interval_cases b <;> simp [moved, y, inter]
    · show s.rdBytes 2 = (moved sign y b 2 : ℕ)
      rw [e2]
      interval_cases b <;> simp [moved, y, inter]
    · show s.rdBytes 3 = (moved sign y b 3 : ℕ)
      rw [e3]
      interval_cases b <;> simp [moved, y, inter]
  have hval : ∀ i, (s.rdBytes i).val = moved sign y b i := fun i =>
    val_lt_of_eq_natCast (moved_lt ht hy b i) (hrd i)
  refine ⟨b, hb, hbyte, hhot, hx, fun i => ?_, ?_⟩
  · rw [hval]
    exact moved_lt ht hy b i
  · calc packedNat s.rdBytes = digits (moved sign y b) := by simp only [packedNat, digits, hval]
      _ = shiftFill sign (digits y) (8 * b) := digits_moved ht hy hb
      _ = shiftFill sign (shiftFill sign (packedNat s.rs1Bytes) k) (8 * b) :=
        congrArg (fun n => shiftFill sign n (8 * b)) (digits_inter ht hx hk)
      _ = shiftFill sign (packedNat s.rs1Bytes) (k + 8 * b) := shiftFill_shiftFill _ _ _ _

/-- The bytes of a row of an arithmetic shift, under the sign the prover chose. -/
theorem rdBytes_eq (hbs : s.selectors) (hg : g.eval (s.rs1Bytes 3))
    (hright : s.right (g.signBit * g.srlFfCarry) g.fillByte) (hshifts : SendsShifts checks)
    (hstage : ∀ c ∈ s.checks .byteSrl, c ∈ checks) (hmask : g.check s.bitShamt ∈ checks)
    {sign : Bool} (hsign : g.signBit = bit sign) :
    ∃ k < 8, ∃ b < 4, s.bitShamt = (k : ℕ) ∧ s.byteShamt = (b : ℕ) ∧ Bytes s.rs1Bytes ∧
      Bytes s.rdBytes ∧
      packedNat s.rdBytes = shiftFill sign.toNat (packedNat s.rs1Bytes) (k + 8 * b) := by
  obtain ⟨k, hk, hbit, -, -, hff⟩ := shift_check hshifts hmask
  have hff255 : (0xFF : Felt).val = 0xFF := val_natCast_of_lt (n := 0xFF) (by norm_num)
  have hfill : g.fillByte = (sign.toNat * 255 : ℕ) := by
    rw [hg.2.1, hsign, Bits.bit_eq_natCast]
    push_cast
    rfl
  have htop : g.signBit * g.srlFfCarry = (sign.toNat * passed 0xFF k : ℕ) := by
    rw [hsign, hff, hff255, Bits.bit_eq_natCast, Nat.cast_mul]
  have ht := Nat.lt_succ_of_le sign.toNat_le
  obtain ⟨b, hb, hbyte, -, hx, hrd, hvalue⟩ :=
    right_eq hbs hright hshifts hstage hk hbit ht htop hfill
  exact ⟨k, hk, b, hb, hbit, hbyte, hx, hrd, hvalue⟩

/-- Such a row shifts arithmetically exactly when the sign is right or there is nothing to
shift. -/
theorem rdBytes_iff (hbs : s.selectors) (hg : g.eval (s.rs1Bytes 3))
    (hright : s.right (g.signBit * g.srlFfCarry) g.fillByte) (hshifts : SendsShifts checks)
    (hstage : ∀ c ∈ s.checks .byteSrl, c ∈ checks) (hmask : g.check s.bitShamt ∈ checks)
    {n : ℕ} (hn : ∀ k b : ℕ, k < 8 → b < 4 → s.bitShamt = k → s.byteShamt = b → n = k + 8 * b) :
    s.rdBytes = u32ToLimbs ((word s.rs1Bytes).sshiftRight n) ↔
      g.signBit = bit (word s.rs1Bytes).msb ∨ n = 0 := by
  obtain ⟨sign, hsign⟩ : ∃ b : Bool, g.signBit = bit b := by
    rcases assertBool_iff.mp hg.1 with h | h
    · exact ⟨false, h⟩
    · exact ⟨true, h⟩
  obtain ⟨k, hk, b, hb, hbit, hbyte, hx, hrd, hvalue⟩ :=
    rdBytes_eq hbs hg hright hshifts hstage hmask hsign
  obtain rfl := hn k b hk hb hbit hbyte
  rw [eq_u32ToLimbs_iff hrd, ← BitVec.toNat_inj, toNat_word hrd, hvalue,
    toNat_sshiftRight _ (by omega), toNat_word hx, shiftFill_sign_iff, hsign,
    Bits.bit_injective.eq_iff]

section Amounts

variable {k b : ℕ} (hk : k < 8) (hb : b < 4)
include hk hb

/-- The byte checks make the split of the low byte of `rs2` unique. -/
theorem shamt_split {c : ShiftColumns Felt} (h : c.shamt) (hrs2 : Bytes c.rs2Value)
    (hhigh : c.rs2ShamtHigh.val < 256) (hbit : c.bitShamt = (k : ℕ)) (hbyte : c.byteShamt = (b : ℕ)) :
    (word c.rs2Value).toNat % 32 = k + 8 * b ∧
      c.rs2ShamtHigh.val = (word c.rs2Value).toNat % 256 / 32 := by
  have hlow : (c.rs2Value 0).val = k + b * 8 + c.rs2ShamtHigh.val * 32 := by
    have h0 := hrs2 0
    apply nat_eq_of_cast (by omega) (by omega)
    rw [ZMod.natCast_zmod_val, h, hbit, hbyte]
    push_cast
    rw [ZMod.natCast_zmod_val]
  have h0 := hrs2 0
  rw [toNat_word hrs2, packedNat]
  omega

theorem shamtImm_split {c : ShiftImmColumns Felt} {shamt : BitVec 5} (h : c.shamt)
    (himm : c.imm = (shamt.toNat : Felt)) (hbit : c.bitShamt = (k : ℕ))
    (hbyte : c.byteShamt = (b : ℕ)) : shamt.toNat = k + 8 * b := by
  have hlt := shamt.isLt
  rw [ShiftImmColumns.shamt, himm, hbit, hbyte] at h
  have := nat_eq_of_cast (a := shamt.toNat) (b := k + b * 8) (by omega) (by omega)
    (by rw [h]; push_cast; rfl)
  omega

end Amounts

theorem sra_row_iff (c : SraColumns Felt) (heval : c.eval) (hbytes : SendsBytes c.ports.checks)
    (hshifts : SendsShifts c.ports.checks) :
    c.rdBytes = u32ToLimbs ((word c.rs1Bytes).sshiftRight ((word c.rs2Value).toNat % 32)) ↔
      c.signBit = bit (word c.rs1Bytes).msb ∨ (word c.rs2Value).toNat % 32 = 0 := by
  obtain ⟨-, hbs, hshamt, hg, hright⟩ := heval
  have hchecks : c.ports.checks = c.toShiftStages.checks .byteSrl ++
      [c.toSignFill.check c.bitShamt] ++ byteChecks c.rs2Value ++ [(.bytes, [c.rs2ShamtHigh])] ++
      byteChecks c.rdBytes ++ [(.bytes, [c.rs1Byte3Low7])] := rfl
  rw [hchecks] at hbytes hshifts
  simp only [sendsBytes_append, sendsBytes_byteChecks, sendsBytes_byte] at hbytes
  obtain ⟨⟨⟨⟨-, hrs2⟩, hhigh⟩, -⟩, -⟩ := hbytes
  apply rdBytes_iff hbs hg hright hshifts
  · intro x hx
    simp [hx]
  · simp
  · intro k b hk hb hbit hbyte
    exact (shamt_split hk hb hshamt hrs2 hhigh hbit hbyte).1

theorem srai_row_iff (c : SraiColumns Felt) (shamt : BitVec 5) (heval : c.eval)
    (hshifts : SendsShifts c.ports.checks) (himm : c.imm = (shamt.toNat : Felt)) :
    c.rdBytes = u32ToLimbs ((word c.rs1Bytes).sshiftRight shamt.toNat) ↔
      c.signBit = bit (word c.rs1Bytes).msb ∨ shamt.toNat = 0 := by
  obtain ⟨-, hbs, hshamt, hg, hright⟩ := heval
  have hchecks : c.ports.checks = c.toShiftStages.checks .byteSrl ++
      [c.toSignFill.check c.bitShamt] ++ byteChecks c.rdBytes ++ [(.bytes, [c.rs1Byte3Low7])] := rfl
  rw [hchecks] at hshifts
  apply rdBytes_iff hbs hg hright hshifts
  · intro x hx
    simp [hx]
  · simp
  · intro k b hk hb hbit hbyte
    exact shamtImm_split hk hb hshamt himm hbit hbyte

/-- Both arithmetic shifts. -/
theorem arithmetic_shift_iff (c : SraColumns Felt) (d : SraiColumns Felt) (shamt : BitVec 5) :
    (c.eval → SendsBytes c.ports.checks → SendsShifts c.ports.checks →
      (c.rdBytes = u32ToLimbs ((word c.rs1Bytes).sshiftRight ((word c.rs2Value).toNat % 32)) ↔
        c.signBit = bit (word c.rs1Bytes).msb ∨ (word c.rs2Value).toNat % 32 = 0)) ∧
    (d.eval → SendsShifts d.ports.checks → d.imm = (shamt.toNat : Felt) →
      (d.rdBytes = u32ToLimbs ((word d.rs1Bytes).sshiftRight shamt.toNat) ↔
        d.signBit = bit (word d.rs1Bytes).msb ∨ shamt.toNat = 0)) :=
  ⟨sra_row_iff c, srai_row_iff d shamt⟩

/-- The stages of a shift of the least integer by 8, filled with `fill`. -/
def shiftMin (fill : Felt) : ShiftStages Felt where
  rs1Bytes := ![0, 0, 0, 0x80]
  rdBytes := ![0, 0, 0x80, fill]
  bitShamt := 0
  byteShamt := 1
  isBs := ![0, 1, 0, 0]
  shiftedBytes := ![0, 0, 0, 0x80]
  carryBytes := 0

/-- The sign of the least integer, split off its top byte as `sign * 128 + low7`. -/
def signMin (sign low7 : Felt) : SignFill Felt where
  signBit := sign
  fillByte := sign * 255
  rs1Byte3Low7 := low7
  srlFfShifted := 0xFF
  srlFfCarry := 0

/-- `sra x3, x1, x2` with the least integer in `x1` and 8 in `x2`. -/
def sraMin (sign low7 : Felt) : SraColumns Felt :=
  { shiftMin (sign * 255), signMin sign low7 with
    pc := 0
    timestamp := 0
    rd := 3
    rs1 := 1
    rs2 := 2
    oldRdValue := 0
    nextPc := ![4, 0, 0, 0]
    nextPcCarries := 0
    isDummy := 1
    rs2Value := ![8, 0, 0, 0]
    rs2ShamtHigh := 0 }

/-- `srai x3, x1, 8` with the least integer in `x1`. -/
def sraiMin (sign low7 : Felt) : SraiColumns Felt :=
  { shiftMin (sign * 255), signMin sign low7 with
    pc := 0
    timestamp := 0
    rd := 3
    rs1 := 1
    imm := 8
    oldRdValue := 0
    nextPc := ![4, 0, 0, 0]
    nextPcCarries := 0
    isDummy := 1 }

theorem mem_shift_rows {b k : ℕ} (hb : b < 256) (hk : k < 8) :
    [b, k, b >>> k, if k = 0 then 0 else (b <<< (8 - k)) &&& 0xFF] ∈ byteShiftRightAir.rows :=
  List.mem_of_getElem? (byteShiftRightAir_getElem? hb hk)

theorem shiftMin_sendsShifts (fill sign low7 : Felt) :
    SendsShifts ((shiftMin fill).checks .byteSrl ++ [(signMin sign low7).check 0]) := by
  have hzero := mem_shift_rows (b := 0) (k := 0) (by norm_num) (by norm_num)
  have htop := mem_shift_rows (b := 0x80) (k := 0) (by norm_num) (by norm_num)
  have hmask := mem_shift_rows (b := 0xFF) (k := 0) (by norm_num) (by norm_num)
  intro c hc _
  rcases List.mem_append.mp hc with hc | hc
  · obtain ⟨i, rfl⟩ := List.mem_ofFn.mp hc
    fin_cases i
    · exact ⟨_, hzero, by simp [shiftMin]⟩
    · exact ⟨_, hzero, by simp [shiftMin]⟩
    · exact ⟨_, hzero, by simp [shiftMin]⟩
    · exact ⟨_, htop, by simp [shiftMin]⟩
  · rw [List.mem_singleton.mp hc]
    exact ⟨_, hmask, by simp [signMin, SignFill.check]⟩

theorem sendsShifts_append {l₁ l₂ : List (Check Felt)} :
    SendsShifts (l₁ ++ l₂) ↔ SendsShifts l₁ ∧ SendsShifts l₂ := List.forall_mem_append

theorem shiftMin_sendsBytes (fill sign low7 : Felt) :
    SendsBytes ((shiftMin fill).checks .byteSrl ++ [(signMin sign low7).check 0]) := by
  apply sendsBytes_of_bus_ne
  intro c hc
  rcases List.mem_append.mp hc with hc | hc
  · obtain ⟨i, rfl⟩ := List.mem_ofFn.mp hc
    nofun
  · rw [List.mem_singleton.mp hc]
    nofun

/-- The byte checks of the result and of the split of the sign. -/
def writeChecksMin (sign low7 : Felt) : List (Check Felt) :=
  byteChecks ![0, 0, 0x80, sign * 255] ++ [(.bytes, [low7])]

theorem sendsBytes_writeMin {sign low7 : Felt} (hlow : low7.val < 256)
    (hfill : (sign * 255).val < 256) :
    SendsBytes (writeChecksMin sign low7) := by
  rw [writeChecksMin, sendsBytes_append, sendsBytes_byteChecks, sendsBytes_byte]
  refine ⟨fun i => ?_, hlow⟩
  fin_cases i
  · exact ZMod.val_zero.trans_lt (by norm_num)
  · exact ZMod.val_zero.trans_lt (by norm_num)
  · exact (val_natCast_of_lt (n := 0x80) (by norm_num)).trans_lt (by norm_num)
  · exact hfill

theorem sendsShifts_writeMin (sign low7 : Felt) : SendsShifts (writeChecksMin sign low7) := by
  apply sendsRows_of_bus_ne (t := byteShiftRightAir)
  simp [writeChecksMin, byteChecks, byteShiftRightAir]

theorem sraMin_sends (sign low7 : Felt) (hlow : low7.val < 256)
    (hfill : (sign * 255).val < 256) :
    SendsBytes (sraMin sign low7).ports.checks ∧ SendsShifts (sraMin sign low7).ports.checks := by
  have hchecks : (sraMin sign low7).ports.checks =
      ((shiftMin (sign * 255)).checks .byteSrl ++ [(signMin sign low7).check 0]) ++
        ((byteChecks ![8, 0, 0, 0] ++ [(.bytes, [0])]) ++ writeChecksMin sign low7) := by
    simp [SraColumns.ports, ShiftColumns.ports, RegisterColumns.ports, sraMin, shiftMin, signMin,
      writeChecksMin]
  have hbytes : SendsBytes (byteChecks ![8, 0, 0, 0] ++ [((.bytes, [0]) : Check Felt)]) := by
    rw [sendsBytes_append, sendsBytes_byteChecks, sendsBytes_byte]
    decide
  rw [hchecks]
  constructor
  · apply sendsBytes_append.mpr
    exact ⟨shiftMin_sendsBytes _ _ _,
      sendsBytes_append.mpr ⟨hbytes, sendsBytes_writeMin hlow hfill⟩⟩
  · apply sendsShifts_append.mpr
    refine ⟨shiftMin_sendsShifts _ _ _, sendsShifts_append.mpr
      ⟨sendsRows_of_bus_ne (t := byteShiftRightAir) ?_, sendsShifts_writeMin _ _⟩⟩
    simp [byteChecks, byteShiftRightAir]

theorem sraiMin_sends (sign low7 : Felt) (hlow : low7.val < 256)
    (hfill : (sign * 255).val < 256) :
    SendsBytes (sraiMin sign low7).ports.checks ∧ SendsShifts (sraiMin sign low7).ports.checks := by
  have hchecks : (sraiMin sign low7).ports.checks =
      ((shiftMin (sign * 255)).checks .byteSrl ++ [(signMin sign low7).check 0]) ++
        writeChecksMin sign low7 := by
    simp [SraiColumns.ports, ShiftImmColumns.ports, ImmediateColumns.ports, sraiMin, shiftMin,
      signMin, writeChecksMin]
  rw [hchecks]
  constructor
  · apply sendsBytes_append.mpr
    exact ⟨shiftMin_sendsBytes _ _ _, sendsBytes_writeMin hlow hfill⟩
  · apply sendsShifts_append.mpr
    exact ⟨shiftMin_sendsShifts _ _ _, sendsShifts_writeMin _ _⟩

theorem arithmetic_shift_min :
    (sraMin 1 0).rdBytes = u32ToLimbs ((word (sraMin 1 0).rs1Bytes).sshiftRight
      ((word (sraMin 1 0).rs2Value).toNat % 32)) ∧
    (sraiMin 1 0).rdBytes =
      u32ToLimbs ((word (sraiMin 1 0).rs1Bytes).sshiftRight (8#5).toNat) := by
  obtain ⟨hbytes, hshifts⟩ := sraMin_sends 1 0 (by decide) (by decide)
  have hiff := arithmetic_shift_iff (sraMin 1 0) (sraiMin 1 0) 8#5
  constructor
  · exact (hiff.1 (by decide) hbytes hshifts).mpr (.inl (by decide))
  · have hshifts := (sraiMin_sends 1 0 (by decide) (by decide)).2
    exact (hiff.2 (by decide) hshifts rfl).mpr (.inl (by decide))

/-- With 0 for the sign and the whole top byte for the rest, the least integer is shifted
logically. -/
theorem arithmetic_shift_unsound :
    (¬ ∀ c : SraColumns Felt, c.isDummy = 1 → c.eval → SendsBytes c.ports.checks →
      SendsShifts c.ports.checks → c.rdBytes =
        u32ToLimbs ((word c.rs1Bytes).sshiftRight ((word c.rs2Value).toNat % 32))) ∧
    ¬ ∀ (c : SraiColumns Felt) (shamt : BitVec 5), c.isDummy = 1 → c.eval →
      SendsBytes c.ports.checks → SendsShifts c.ports.checks → c.imm = (shamt.toNat : Felt) →
      c.rdBytes = u32ToLimbs ((word c.rs1Bytes).sshiftRight shamt.toNat) := by
  constructor
  · intro h
    obtain ⟨hbytes, hshifts⟩ := sraMin_sends 0 0x80 (by decide) (by decide)
    have hrd := h (sraMin 0 0x80) rfl (by decide) hbytes hshifts
    exact absurd (congrFun hrd 3) (by decide)
  · intro h
    obtain ⟨hbytes, hshifts⟩ := sraiMin_sends 0 0x80 (by decide) (by decide)
    have hrd := h (sraiMin 0 0x80) 8#5 rfl (by decide) hbytes hshifts rfl
    exact absurd (congrFun hrd 3) (by decide)

end Loquela.Soundness
