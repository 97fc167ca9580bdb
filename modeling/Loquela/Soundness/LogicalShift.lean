import Loquela.Soundness.Shift

/-! # Logical shift rows

The shift amount is split into bits, whole bytes and, for the register forms, the rest of the low
byte of `rs2`; the byte checks make the split unique. A left shift runs its two stages upwards,
the logical right shift is the one with a clear sign.
-/

namespace Loquela.Soundness
open Air Library
open Vm (U32)

section Left

/-- Byte `i` after the first stage of a left shift: its own bits and those passed up to it. -/
def interLeft (x : Fin 4 → ℕ) (k : ℕ) : Fin 4 → ℕ :=
  ![x 0 * 2 ^ k % 256, x 1 * 2 ^ k % 256 + x 0 * 2 ^ k / 256,
    x 2 * 2 ^ k % 256 + x 1 * 2 ^ k / 256, x 3 * 2 ^ k % 256 + x 2 * 2 ^ k / 256]

/-- Byte `i` after the second stage: the bytes move up by `b`, the vacated ones are clear. -/
def movedLeft (y : Fin 4 → ℕ) (b : ℕ) (i : Fin 4) : ℕ :=
  if b ≤ i then y ⟨i - b, by omega⟩ else 0

variable {x : Fin 4 → ℕ}

theorem interLeft_lt (hx : ∀ i, x i < 256) {k : ℕ} (hk : k < 8) : ∀ i, interLeft x k i < 256 := by
  have hbyte : ∀ a b, a < 256 → b < 256 → a * 2 ^ k % 256 + b * 2 ^ k / 256 < 256 := by
    intro a b ha hb
    interval_cases k <;> omega
  intro i
  fin_cases i
  · exact Nat.mod_lt _ (by norm_num)
  · exact hbyte _ _ (hx 1) (hx 0)
  · exact hbyte _ _ (hx 2) (hx 1)
  · exact hbyte _ _ (hx 3) (hx 2)

theorem digits_interLeft (hx : ∀ i, x i < 256) {k : ℕ} (hk : k < 8) :
    digits (interLeft x k) = digits x * 2 ^ k % 2 ^ 32 := by
  have h0 := hx 0
  have h1 := hx 1
  have h2 := hx 2
  have h3 := hx 3
  simp only [digits, interLeft, Matrix.cons_val]
  interval_cases k <;> omega

theorem digits_movedLeft (hx : ∀ i, x i < 256) {b : ℕ} (hb : b < 4) :
    digits (movedLeft x b) = digits x * 2 ^ (8 * b) % 2 ^ 32 := by
  have h0 := hx 0
  have h1 := hx 1
  have h2 := hx 2
  have h3 := hx 3
  simp only [digits, movedLeft]
  interval_cases b <;> simp <;> omega

theorem movedLeft_lt (hx : ∀ i, x i < 256) (b : ℕ) (i : Fin 4) : movedLeft x b i < 256 := by
  rw [movedLeft]
  split_ifs
  · exact hx _
  · norm_num

theorem shifted_eq_mod (b k : ℕ) : b <<< k &&& 0xFF = b * 2 ^ k % 256 := by
  rw [Nat.shiftLeft_eq, show 0xFF = 2 ^ 8 - 1 from rfl, Nat.and_two_pow_sub_one_eq_mod]

theorem carry_eq_div {b k : ℕ} (hb : b < 256) (hk : k < 8) :
    (if k = 0 then 0 else b >>> (8 - k)) = b * 2 ^ k / 256 := by
  rw [Nat.shiftRight_eq_div_pow]
  interval_cases k <;> simp <;> omega

theorem sll_row_of_table {row : List ℕ} (h : row ∈ byteShiftLeftAir.rows) :
    ∃ b < 256, ∃ k < 8, row = [b, k, b * 2 ^ k % 256, b * 2 ^ k / 256] := by
  simp only [byteShiftLeftAir, List.mem_flatMap, List.mem_map, List.mem_range] at h
  obtain ⟨b, hb, k, hk, rfl⟩ := h
  exact ⟨b, hb, k, hk, by rw [carry_eq_div hb hk, shifted_eq_mod]⟩

variable {s : ShiftStages Felt}

/-- The bytes of a row of a left shift. -/
theorem left_eq (hbs : s.selectors) (hleft : s.left)
    (hshifts : SendsRows byteShiftLeftAir (s.checks .byteSll)) :
    ∃ k < 8, ∃ b < 4, s.bitShamt = (k : ℕ) ∧ s.byteShamt = (b : ℕ) ∧
      (∀ i : Fin 4, s.isBs i = if (i : ℕ) = b then 1 else 0) ∧ Bytes s.rs1Bytes ∧
      Bytes s.rdBytes ∧ packedNat s.rdBytes = packedNat s.rs1Bytes * 2 ^ (k + 8 * b) % 2 ^ 32 := by
  obtain ⟨b, hb, hbyte, hhot⟩ := exists_byteShamt hbs
  have hrow : ∀ i, ∃ k < 8, s.bitShamt = (k : ℕ) ∧ (s.rs1Bytes i).val < 256 ∧
      s.shiftedBytes i = ((s.rs1Bytes i).val * 2 ^ k % 256 : ℕ) ∧
      s.carryBytes i = ((s.rs1Bytes i).val * 2 ^ k / 256 : ℕ) := by
    intro i
    obtain ⟨row, hrow, heq⟩ := hshifts _ (List.mem_ofFn.mpr ⟨i, rfl⟩) rfl
    rcases sll_row_of_table hrow with ⟨a, ha, k, hk, rfl⟩
    simp only [List.map_cons, List.map_nil, List.cons.injEq, and_true] at heq
    obtain ⟨hx, hk', hs, hc⟩ := heq
    rw [hx, val_natCast_of_lt ha]
    exact ⟨k, hk, hk', ha, hs, hc⟩
  obtain ⟨k, hk, hbit, -⟩ := hrow 0
  have hrow : ∀ i, (s.rs1Bytes i).val < 256 ∧
      s.shiftedBytes i = ((s.rs1Bytes i).val * 2 ^ k % 256 : ℕ) ∧
      s.carryBytes i = ((s.rs1Bytes i).val * 2 ^ k / 256 : ℕ) := by
    intro i
    obtain ⟨k', hk', hbit', h⟩ := hrow i
    obtain rfl : k' = k := nat_eq_of_cast (by omega) (by omega) (hbit'.symm.trans hbit)
    exact h
  have hx : Bytes s.rs1Bytes := fun i => (hrow i).1
  let y := interLeft (fun i => (s.rs1Bytes i).val) k
  have hy : ∀ i, y i < 256 := interLeft_lt hx hk
  have hrd : ∀ i, s.rdBytes i = (movedLeft y b i : ℕ) := by
    obtain ⟨e0, e1, e2, e3⟩ := hleft
    simp only [(hrow _).2.1, (hrow _).2.2, hhot] at e0 e1 e2 e3
    intro i
    fin_cases i
    · show s.rdBytes 0 = (movedLeft y b 0 : ℕ)
      rw [e0]
      interval_cases b <;> simp [movedLeft, y, interLeft]
    · show s.rdBytes 1 = (movedLeft y b 1 : ℕ)
      rw [e1]
      interval_cases b <;> simp [movedLeft, y, interLeft]
    · show s.rdBytes 2 = (movedLeft y b 2 : ℕ)
      rw [e2]
      interval_cases b <;> simp [movedLeft, y, interLeft]
    · show s.rdBytes 3 = (movedLeft y b 3 : ℕ)
      rw [e3]
      interval_cases b <;> simp [movedLeft, y, interLeft]
  have hval : ∀ i, (s.rdBytes i).val = movedLeft y b i := fun i =>
    val_lt_of_eq_natCast (movedLeft_lt hy b i) (hrd i)
  refine ⟨k, hk, b, hb, hbit, hbyte, hhot, hx, fun i => ?_, ?_⟩
  · rw [hval]
    exact movedLeft_lt hy b i
  · calc packedNat s.rdBytes = digits (movedLeft y b) := by simp only [packedNat, digits, hval]
      _ = digits y * 2 ^ (8 * b) % 2 ^ 32 := digits_movedLeft hy hb
      _ = packedNat s.rs1Bytes * 2 ^ k % 2 ^ 32 * 2 ^ (8 * b) % 2 ^ 32 :=
        congrArg (fun n => n * 2 ^ (8 * b) % 2 ^ 32) (digits_interLeft hx hk)
      _ = packedNat s.rs1Bytes * 2 ^ (k + 8 * b) % 2 ^ 32 := by
        rw [Nat.mod_mul_mod, Nat.pow_add, Nat.mul_assoc]

end Left

/-- The columns hold a shift by `n`: its low three bits, its high two, and their selector. -/
structure SplitsShamt (s : ShiftStages Felt) (n : ℕ) : Prop where
  bitShamt : s.bitShamt = ((n % 8 : ℕ) : Felt)
  byteShamt : s.byteShamt = ((n / 8 : ℕ) : Felt)
  isBs : ∀ i : Fin 4, s.isBs i = if (i : ℕ) = n / 8 then 1 else 0

theorem splitsShamt {s : ShiftStages Felt} {k b : ℕ} (hk : k < 8) (hbit : s.bitShamt = (k : ℕ))
    (hbyte : s.byteShamt = (b : ℕ)) (hhot : ∀ i : Fin 4, s.isBs i = if (i : ℕ) = b then 1 else 0) :
    SplitsShamt s (k + 8 * b) := by
  have hmod : (k + 8 * b) % 8 = k := by omega
  have hdiv : (k + 8 * b) / 8 = b := by omega
  exact ⟨by rw [hmod, hbit], by rw [hdiv, hbyte], by rwa [hdiv]⟩

section Rows

variable {s : ShiftStages Felt}

theorem left_word (hbs : s.selectors) (hleft : s.left)
    (hshifts : SendsRows byteShiftLeftAir (s.checks .byteSll)) :
    ∃ k < 8, ∃ b < 4, s.bitShamt = (k : ℕ) ∧ s.byteShamt = (b : ℕ) ∧ SplitsShamt s (k + 8 * b) ∧
      s.rdBytes = u32ToLimbs (word s.rs1Bytes <<< (k + 8 * b)) := by
  obtain ⟨k, hk, b, hb, hbit, hbyte, hhot, hx, hrd, hvalue⟩ := left_eq hbs hleft hshifts
  refine ⟨k, hk, b, hb, hbit, hbyte, splitsShamt hk hbit hbyte hhot, ?_⟩
  rw [eq_u32ToLimbs_iff hrd]
  apply BitVec.eq_of_toNat_eq
  rw [toNat_word hrd, hvalue, BitVec.toNat_shiftLeft, toNat_word hx, Nat.shiftLeft_eq]

/-- A logical shift is a right shift under a clear sign. -/
theorem right_word (hbs : s.selectors) (hright : s.right 0 0)
    (hshifts : SendsRows byteShiftRightAir (s.checks .byteSrl)) :
    ∃ k < 8, ∃ b < 4, s.bitShamt = (k : ℕ) ∧ s.byteShamt = (b : ℕ) ∧ SplitsShamt s (k + 8 * b) ∧
      s.rdBytes = u32ToLimbs (word s.rs1Bytes >>> (k + 8 * b)) := by
  obtain ⟨k, hk, hbit, -⟩ := shift_check hshifts (List.mem_ofFn.mpr ⟨0, rfl⟩)
  have htop : (0 : Felt) = (0 * passed 0xFF k : ℕ) := by simp
  have hfill : (0 : Felt) = (0 * 255 : ℕ) := by simp
  obtain ⟨b, hb, hbyte, hhot, hx, hrd, hvalue⟩ :=
    right_eq hbs hright hshifts (fun _ h => h) hk hbit Nat.two_pos htop hfill
  refine ⟨k, hk, b, hb, hbit, hbyte, splitsShamt hk hbit hbyte hhot, ?_⟩
  rw [eq_u32ToLimbs_iff hrd]
  apply BitVec.eq_of_toNat_eq
  rw [toNat_word hrd, hvalue, BitVec.toNat_ushiftRight, toNat_word hx, Nat.shiftRight_eq_div_pow,
    shiftFill, Nat.zero_mul, Nat.zero_mul, Nat.add_zero]

end Rows

section Register

variable {c : ShiftColumns Felt}

/-- The byte checks of a register row. -/
theorem shift_bytes (bus : BusName)
    (hbytes : SendsBytes (c.toShiftStages.checks bus ++ byteChecks c.rs2Value ++
      [(.bytes, [c.rs2ShamtHigh])] ++ byteChecks c.rdBytes)) :
    Bytes c.rs2Value ∧ c.rs2ShamtHigh.val < 256 := by
  simp only [sendsBytes_append, sendsBytes_byteChecks, sendsBytes_byte] at hbytes
  obtain ⟨⟨⟨-, hrs2⟩, hhigh⟩, -⟩ := hbytes
  exact ⟨hrs2, hhigh⟩

theorem sll_row (heval : sllEval c) (hbytes : SendsBytes (sllPorts c).checks)
    (hshifts : SendsRows byteShiftLeftAir (sllPorts c).checks) :
    c.rdBytes = u32ToLimbs (word c.rs1Bytes <<< ((word c.rs2Value).toNat % 32)) ∧
      SplitsShamt c.toShiftStages ((word c.rs2Value).toNat % 32) ∧
      c.rs2ShamtHigh.val = (word c.rs2Value).toNat % 256 / 32 := by
  obtain ⟨-, hbs, hshamt, hleft⟩ := heval
  obtain ⟨hrs2, hhigh⟩ := shift_bytes .byteSll hbytes
  have hstage := (sendsRows_append.mp (sendsRows_append.mp (sendsRows_append.mp hshifts).1).1).1
  obtain ⟨k, hk, b, hb, hbit, hbyte, hsplit, hrd⟩ := left_word hbs hleft hstage
  obtain ⟨hamount, hrest⟩ := shamt_split hk hb hshamt hrs2 hhigh hbit hbyte
  rw [hamount]
  exact ⟨hrd, hsplit, hrest⟩

theorem srl_row (heval : srlEval c) (hbytes : SendsBytes (srlPorts c).checks)
    (hshifts : SendsRows byteShiftRightAir (srlPorts c).checks) :
    c.rdBytes = u32ToLimbs (word c.rs1Bytes >>> ((word c.rs2Value).toNat % 32)) ∧
      SplitsShamt c.toShiftStages ((word c.rs2Value).toNat % 32) ∧
      c.rs2ShamtHigh.val = (word c.rs2Value).toNat % 256 / 32 := by
  obtain ⟨-, hbs, hshamt, hright⟩ := heval
  obtain ⟨hrs2, hhigh⟩ := shift_bytes .byteSrl hbytes
  have hstage := (sendsRows_append.mp (sendsRows_append.mp (sendsRows_append.mp hshifts).1).1).1
  obtain ⟨k, hk, b, hb, hbit, hbyte, hsplit, hrd⟩ := right_word hbs hright hstage
  obtain ⟨hamount, hrest⟩ := shamt_split hk hb hshamt hrs2 hhigh hbit hbyte
  rw [hamount]
  exact ⟨hrd, hsplit, hrest⟩

end Register

section Immediate

variable {c : ShiftImmColumns Felt} {shamt : BitVec 5}

theorem slli_row (heval : slliEval c) (hshifts : SendsRows byteShiftLeftAir (slliPorts c).checks)
    (himm : c.imm = (shamt.toNat : Felt)) :
    c.rdBytes = u32ToLimbs (word c.rs1Bytes <<< shamt.toNat) ∧
      SplitsShamt c.toShiftStages shamt.toNat := by
  obtain ⟨-, hbs, hshamt, hleft⟩ := heval
  obtain ⟨k, hk, b, hb, hbit, hbyte, hsplit, hrd⟩ :=
    left_word hbs hleft (sendsRows_append.mp hshifts).1
  rw [shamtImm_split hk hb hshamt himm hbit hbyte]
  exact ⟨hrd, hsplit⟩

theorem srli_row (heval : srliEval c) (hshifts : SendsRows byteShiftRightAir (srliPorts c).checks)
    (himm : c.imm = (shamt.toNat : Felt)) :
    c.rdBytes = u32ToLimbs (word c.rs1Bytes >>> shamt.toNat) ∧
      SplitsShamt c.toShiftStages shamt.toNat := by
  obtain ⟨-, hbs, hshamt, hright⟩ := heval
  obtain ⟨k, hk, b, hb, hbit, hbyte, hsplit, hrd⟩ :=
    right_word hbs hright (sendsRows_append.mp hshifts).1
  rw [shamtImm_split hk hb hshamt himm hbit hbyte]
  exact ⟨hrd, hsplit⟩

end Immediate

/-- The four logical shifts write the shifted word, and the columns of the shift amount are
determined by it and `rs2`. -/
theorem logical_shifts_sound (c : ShiftColumns Felt) (d : ShiftImmColumns Felt)
    (shamt : BitVec 5) :
    (sllEval c → SendsBytes (sllPorts c).checks →
      SendsRows byteShiftLeftAir (sllPorts c).checks →
        c.rdBytes = u32ToLimbs (word c.rs1Bytes <<< ((word c.rs2Value).toNat % 32)) ∧
          SplitsShamt c.toShiftStages ((word c.rs2Value).toNat % 32) ∧
          c.rs2ShamtHigh.val = (word c.rs2Value).toNat % 256 / 32) ∧
    (srlEval c → SendsBytes (srlPorts c).checks →
      SendsRows byteShiftRightAir (srlPorts c).checks →
        c.rdBytes = u32ToLimbs (word c.rs1Bytes >>> ((word c.rs2Value).toNat % 32)) ∧
          SplitsShamt c.toShiftStages ((word c.rs2Value).toNat % 32) ∧
          c.rs2ShamtHigh.val = (word c.rs2Value).toNat % 256 / 32) ∧
    (slliEval d → SendsRows byteShiftLeftAir (slliPorts d).checks → d.imm = (shamt.toNat : Felt) →
      d.rdBytes = u32ToLimbs (word d.rs1Bytes <<< shamt.toNat) ∧
        SplitsShamt d.toShiftStages shamt.toNat) ∧
    (srliEval d → SendsRows byteShiftRightAir (srliPorts d).checks → d.imm = (shamt.toNat : Felt) →
      d.rdBytes = u32ToLimbs (word d.rs1Bytes >>> shamt.toNat) ∧
        SplitsShamt d.toShiftStages shamt.toNat) :=
  ⟨sll_row, srl_row, slli_row, srli_row⟩

/-- The stages of a shift of `0x80000001` by 9. -/
def shiftNine (shifted carry rd : Limbs Felt) : ShiftStages Felt where
  rs1Bytes := ![1, 0, 0, 0x80]
  rdBytes := rd
  bitShamt := 1
  byteShamt := 1
  isBs := ![0, 1, 0, 0]
  shiftedBytes := shifted
  carryBytes := carry

def leftNine : ShiftStages Felt := shiftNine ![2, 0, 0, 0] ![0, 0, 0, 1] ![0, 2, 0, 0]

def rightNine : ShiftStages Felt := shiftNine ![0, 0, 0, 0x40] ![0x80, 0, 0, 0] ![0, 0, 0x40, 0]

/-- `sll x3, x1, x2` or `srl x3, x1, x2`, with 41 in `x2`. -/
def shiftNineRow (s : ShiftStages Felt) : ShiftColumns Felt :=
  { s with
    pc := 0
    timestamp := 0
    rd := 3
    rs1 := 1
    rs2 := 2
    oldRdValue := 0
    nextPc := ![4, 0, 0, 0]
    nextPcCarries := 0
    isDummy := 1
    rs2Value := ![41, 0, 0, 0]
    rs2ShamtHigh := 1 }

/-- `slli x3, x1, 9` or `srli x3, x1, 9`. -/
def shiftNineImmRow (s : ShiftStages Felt) : ShiftImmColumns Felt :=
  { s with
    pc := 0
    timestamp := 0
    rd := 3
    rs1 := 1
    imm := 9
    oldRdValue := 0
    nextPc := ![4, 0, 0, 0]
    nextPcCarries := 0
    isDummy := 1 }

theorem leftNine_sends : SendsRows byteShiftLeftAir (leftNine.checks .byteSll) := by
  have hrow : ∀ a < 256, [a, 1, (a <<< 1) &&& 0xFF, a >>> 7] ∈ byteShiftLeftAir.rows := fun a ha =>
    List.mem_of_getElem? (byteShiftLeftAir_getElem? ha (k := 1) (by norm_num))
  intro c hc _
  obtain ⟨i, rfl⟩ := List.mem_ofFn.mp hc
  fin_cases i
  · exact ⟨_, hrow 1 (by norm_num), by decide⟩
  · exact ⟨_, hrow 0 (by norm_num), by decide⟩
  · exact ⟨_, hrow 0 (by norm_num), by decide⟩
  · exact ⟨_, hrow 0x80 (by norm_num), by decide⟩

theorem rightNine_sends : SendsRows byteShiftRightAir (rightNine.checks .byteSrl) := by
  have hrow : ∀ a < 256, [a, 1, a >>> 1, (a <<< 7) &&& 0xFF] ∈ byteShiftRightAir.rows := fun a ha =>
    mem_shift_rows ha (k := 1) (by norm_num)
  intro c hc _
  obtain ⟨i, rfl⟩ := List.mem_ofFn.mp hc
  fin_cases i
  · exact ⟨_, hrow 1 (by norm_num), by decide⟩
  · exact ⟨_, hrow 0 (by norm_num), by decide⟩
  · exact ⟨_, hrow 0 (by norm_num), by decide⟩
  · exact ⟨_, hrow 0x80 (by norm_num), by decide⟩

/-- The checks of such a row, if those of its stage are in the table. -/
theorem shiftNine_sends (s : ShiftStages Felt) (t : Table) (hrd : Bytes s.rdBytes)
    (hbus : t.bus ≠ .bytes) (hstage : SendsRows t (s.checks t.bus)) :
    SendsBytes (s.checks t.bus ++ byteChecks ![41, 0, 0, 0] ++ [(.bytes, [1])] ++
        byteChecks s.rdBytes) ∧
      SendsRows t (s.checks t.bus ++ byteChecks ![41, 0, 0, 0] ++ [(.bytes, [1])] ++
        byteChecks s.rdBytes) := by
  have hchecks : ∀ x, ∀ c ∈ byteChecks (F := Felt) x, c.1 ≠ t.bus := by
    intro x c hc
    obtain ⟨i, rfl⟩ := List.mem_ofFn.mp hc
    exact hbus.symm
  have honTable : ∀ c ∈ s.checks t.bus, c.1 ≠ .bytes := by
    intro c hc
    obtain ⟨i, rfl⟩ := List.mem_ofFn.mp hc
    exact hbus
  simp only [sendsBytes_append, sendsRows_append, sendsBytes_byteChecks, sendsBytes_byte]
  refine ⟨⟨⟨⟨sendsBytes_of_bus_ne honTable, by decide⟩, by decide⟩, hrd⟩,
    ⟨⟨hstage, sendsRows_of_bus_ne (hchecks _)⟩, sendsRows_of_bus_ne ?_⟩,
    sendsRows_of_bus_ne (hchecks _)⟩
  intro c hc
  rw [List.mem_singleton.mp hc]
  exact hbus.symm

theorem shiftNineImm_sends (s : ShiftStages Felt) (t : Table) (hbus : t.bus ≠ .bytes)
    (hstage : SendsRows t (s.checks t.bus)) :
    SendsRows t (s.checks t.bus ++ byteChecks s.rdBytes) := by
  refine sendsRows_append.mpr ⟨hstage, sendsRows_of_bus_ne fun c hc => ?_⟩
  obtain ⟨i, rfl⟩ := List.mem_ofFn.mp hc
  exact hbus.symm

theorem logical_shifts_sound_nine :
    ((shiftNineRow leftNine).rdBytes = u32ToLimbs ((0x80000001 : U32) <<< 9) ∧
      (shiftNineRow rightNine).rdBytes = u32ToLimbs ((0x80000001 : U32) >>> 9)) ∧
    (shiftNineImmRow leftNine).rdBytes = u32ToLimbs ((0x80000001 : U32) <<< 9) ∧
      (shiftNineImmRow rightNine).rdBytes = u32ToLimbs ((0x80000001 : U32) >>> 9) := by
  have hleft := logical_shifts_sound (shiftNineRow leftNine) (shiftNineImmRow leftNine) 9
  have hright := logical_shifts_sound (shiftNineRow rightNine) (shiftNineImmRow rightNine) 9
  obtain ⟨hlb, hlr⟩ := shiftNine_sends leftNine byteShiftLeftAir (by decide) nofun leftNine_sends
  obtain ⟨hrb, hrr⟩ := shiftNine_sends rightNine byteShiftRightAir (by decide) nofun rightNine_sends
  refine ⟨⟨(hleft.1 (by decide) hlb hlr).1, (hright.2.1 (by decide) hrb hrr).1⟩,
    (hleft.2.2.1 (by decide) ?_ rfl).1, (hright.2.2.2 (by decide) ?_ rfl).1⟩
  · exact shiftNineImm_sends leftNine byteShiftLeftAir nofun leftNine_sends
  · exact shiftNineImm_sends rightNine byteShiftRightAir nofun rightNine_sends

end Loquela.Soundness
