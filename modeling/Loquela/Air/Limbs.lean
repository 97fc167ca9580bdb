import Loquela.Air.Bus
import Loquela.Library.BitFields
import Loquela.Vm.Instruction

/-! # Words as limbs

The bytes of a machine word, the carries and borrows the trace builders compute for byte-wise
arithmetic, and the constraints these witnesses satisfy.
-/

namespace Loquela.Air
open Library
open Vm (U32)

variable {F : Type*} [Field F]

/-- `to_le_bytes`, as numbers. -/
def leBytes (v : U32) (i : Fin 4) : ℕ := (v.extractLsb' (8 * i) 8).toNat

/-- Columns filled with `from_u64`. -/
def ofNats {n : ℕ} (f : Fin n → ℕ) : Fin n → F := fun i => (f i : F)

/-- `u32_to_limbs`. -/
def u32ToLimbs (v : U32) : Limbs F := ofNats (leBytes v)

/-- `pc_plus4_carries`: the carries of `pc + 4`, byte by byte. -/
def pcPlus4Carries (pc : U32) : Fin 3 → ℕ :=
  let c0 := (leBytes pc 0 + 4) >>> 8
  let c1 := (leBytes pc 1 + c0) >>> 8
  let c2 := (leBytes pc 2 + c1) >>> 8
  ![c0, c1, c2]

/-- `u32_add_carries`. -/
def u32AddCarries (x y : U32) : Fin 4 → ℕ :=
  let c0 := (leBytes x 0 + leBytes y 0) >>> 8
  let c1 := (leBytes x 1 + leBytes y 1 + c0) >>> 8
  let c2 := (leBytes x 2 + leBytes y 2 + c1) >>> 8
  let c3 := (leBytes x 3 + leBytes y 3 + c2) >>> 8
  ![c0, c1, c2, c3]

/-- `u32_sub_borrows`. -/
def u32SubBorrows (x y : U32) : Fin 4 → ℕ :=
  let b0 := if leBytes x 0 < leBytes y 0 then 1 else 0
  let b1 := if leBytes x 1 < leBytes y 1 + b0 then 1 else 0
  let b2 := if leBytes x 2 < leBytes y 2 + b1 then 1 else 0
  let b3 := if leBytes x 3 < leBytes y 3 + b2 then 1 else 0
  ![b0, b1, b2, b3]

/-- The difference bytes that the comparison builders compute along with the borrows. -/
def u32SubDiff (x y : U32) (i : Fin 4) : ℕ :=
  leBytes x i + u32SubBorrows x y i * 256 - leBytes y i -
    (![0, u32SubBorrows x y 0, u32SubBorrows x y 1, u32SubBorrows x y 2] : Fin 4 → ℕ) i

/-- `inc_carries`: the carries of `addr + 1`. -/
def incCarries (addr : U32) : Fin 4 → ℕ :=
  let c0 := (leBytes addr 0 + 1) >>> 8
  let c1 := (leBytes addr 1 + c0) >>> 8
  let c2 := (leBytes addr 2 + c1) >>> 8
  let c3 := (leBytes addr 3 + c2) >>> 8
  ![c0, c1, c2, c3]

section Bytes

variable (v : U32)

theorem leBytes_eq (i : Fin 4) : leBytes v i = v.toNat / 2 ^ (8 * (i : ℕ)) % 256 :=
  BitFields.toNat_extractLsb' v _ _

theorem leBytes_lt (i : Fin 4) : leBytes v i < 256 := (v.extractLsb' (8 * i) 8).isLt

theorem toNat_eq_leBytes :
    v.toNat = leBytes v 0 + leBytes v 1 * 256 + leBytes v 2 * 65536 + leBytes v 3 * 16777216 := by
  have h := v.isLt
  simp only [leBytes_eq, Fin.isValue, Fin.val_zero, Fin.val_one, Fin.val_two,
    show ((3 : Fin 4) : ℕ) = 3 from rfl]
  omega

/-- Base-256 digits are the bytes of the number. -/
theorem leBytes_of_digits {v : U32} {b : Fin 4 → ℕ} (hb : ∀ i, b i < 256)
    (hv : v.toNat = b 0 + b 1 * 256 + b 2 * 65536 + b 3 * 16777216) : leBytes v = b := by
  have h := toNat_eq_leBytes v
  rw [hv] at h
  have h0 := leBytes_lt v 0
  have h1 := leBytes_lt v 1
  have h2 := leBytes_lt v 2
  have h3 := leBytes_lt v 3
  have b0 := hb 0
  have b1 := hb 1
  have b2 := hb 2
  have b3 := hb 3
  have hdigits : leBytes v 0 = b 0 ∧ leBytes v 1 = b 1 ∧ leBytes v 2 = b 2 ∧ leBytes v 3 = b 3 := by
    omega
  funext i
  fin_cases i
  · exact hdigits.1
  · exact hdigits.2.1
  · exact hdigits.2.2.1
  · exact hdigits.2.2.2

omit v in
@[simp] theorem ofNats_apply {n : ℕ} (f : Fin n → ℕ) (i : Fin n) :
    (ofNats f : Fin n → F) i = (f i : F) := rfl

@[simp] theorem u32ToLimbs_apply (i : Fin 4) : (u32ToLimbs v : Limbs F) i = (leBytes v i : F) := rfl

@[simp] theorem u32ToLimbs_zero : (u32ToLimbs 0 : Limbs F) = 0 := by
  funext i
  simp [leBytes]

end Bytes

section Witness

theorem assertBool_natCast {n : ℕ} (h : n < 2) : AssertBool (n : F) := by
  rw [assertBool_iff]
  interval_cases n
  · exact .inl Nat.cast_zero
  · exact .inr Nat.cast_one

variable (x y : U32)

theorem add_digits : (∀ i, u32AddCarries x y i < 2) ∧
    ∀ i, leBytes (x + y) i + u32AddCarries x y i * 256 =
      leBytes x i + leBytes y i + (![0, u32AddCarries x y 0, u32AddCarries x y 1,
        u32AddCarries x y 2] : Fin 4 → ℕ) i := by
  have hsum := toNat_eq_leBytes (x + y)
  rw [BitVec.toNat_add, toNat_eq_leBytes x, toNat_eq_leBytes y] at hsum
  have hx := leBytes_lt x
  have hy := leBytes_lt y
  have hs := leBytes_lt (x + y)
  simp only [Fin.forall_fin_succ, Fin.succ_zero_eq_one, Fin.succ_one_eq_two, Fin.isValue,
    Fin.reduceSucc, IsEmpty.forall_iff, and_true] at hx hy hs ⊢
  simp only [u32AddCarries, Nat.shiftRight_eq_div_pow, Matrix.cons_val]
  omega

/-- One limb of a subtraction: the borrow makes up for what is missing. -/
theorem borrow_digit {a b c : ℕ} (ha : a < 256) (hb : b < 256) (hc : c < 2) :
    (if a < b + c then 1 else 0) < 2 ∧ b + c ≤ a + (if a < b + c then 1 else 0) * 256 ∧
      a + (if a < b + c then 1 else 0) * 256 < b + c + 256 := by
  split_ifs <;> omega

theorem u32SubBorrows_digits : ∀ i, u32SubBorrows x y i < 2 ∧ u32SubDiff x y i < 256 ∧
    leBytes x i + u32SubBorrows x y i * 256 = leBytes y i +
      (![0, u32SubBorrows x y 0, u32SubBorrows x y 1, u32SubBorrows x y 2] : Fin 4 → ℕ) i +
        u32SubDiff x y i := by
  have hlimb : ∀ i, u32SubBorrows x y i = if leBytes x i < leBytes y i +
      (![0, u32SubBorrows x y 0, u32SubBorrows x y 1, u32SubBorrows x y 2] : Fin 4 → ℕ) i
      then 1 else 0 := by
    intro i
    fin_cases i <;> rfl
  have hlt : ∀ i, u32SubBorrows x y i < 2 := by
    intro i
    rw [hlimb]
    split_ifs <;> omega
  have hin : ∀ i, (![0, u32SubBorrows x y 0, u32SubBorrows x y 1, u32SubBorrows x y 2] :
      Fin 4 → ℕ) i < 2 := by
    intro i
    fin_cases i
    · exact Nat.two_pos
    · exact hlt 0
    · exact hlt 1
    · exact hlt 2
  intro i
  have h := borrow_digit (leBytes_lt x i) (leBytes_lt y i) (hin i)
  rw [← hlimb i] at h
  rw [u32SubDiff]
  omega

theorem u32SubDiff_eq : u32SubDiff x y = leBytes (x - y) := by
  symm
  apply leBytes_of_digits (fun i => (u32SubBorrows_digits x y i).2.1)
  have h0 := u32SubBorrows_digits x y 0
  have h1 := u32SubBorrows_digits x y 1
  have h2 := u32SubBorrows_digits x y 2
  have h3 := u32SubBorrows_digits x y 3
  simp only [Matrix.cons_val] at h0 h1 h2 h3
  have hx := toNat_eq_leBytes x
  have hy := toNat_eq_leBytes y
  have hx' := x.isLt
  have hy' := y.isLt
  rw [BitVec.toNat_sub]
  omega

/-- The last borrow is the unsigned comparison. -/
theorem u32SubBorrows_last : u32SubBorrows x y 3 = if x < y then 1 else 0 := by
  have h0 := u32SubBorrows_digits x y 0
  have h1 := u32SubBorrows_digits x y 1
  have h2 := u32SubBorrows_digits x y 2
  have h3 := u32SubBorrows_digits x y 3
  simp only [Matrix.cons_val] at h0 h1 h2 h3
  have hx := toNat_eq_leBytes x
  have hy := toNat_eq_leBytes y
  split_ifs with h
  · rw [BitVec.lt_def] at h
    omega
  · rw [BitVec.lt_def] at h
    omega

theorem pcPlus4_digits (h : x.toNat + 4 < 2 ^ 32) : (∀ i, pcPlus4Carries x i < 2) ∧
    leBytes (x + 4) 0 + pcPlus4Carries x 0 * 256 = leBytes x 0 + 4 ∧
    leBytes (x + 4) 1 + pcPlus4Carries x 1 * 256 = leBytes x 1 + pcPlus4Carries x 0 ∧
    leBytes (x + 4) 2 + pcPlus4Carries x 2 * 256 = leBytes x 2 + pcPlus4Carries x 1 ∧
    leBytes (x + 4) 3 = leBytes x 3 + pcPlus4Carries x 2 := by
  have hsum := toNat_eq_leBytes (x + 4)
  have hval : (x + 4).toNat = x.toNat + 4 := by
    rw [BitVec.toNat_add]
    exact Nat.mod_eq_of_lt h
  rw [hval, toNat_eq_leBytes x] at hsum
  have hx := leBytes_lt x
  have hs := leBytes_lt (x + 4)
  simp only [Fin.forall_fin_succ, Fin.succ_zero_eq_one, Fin.succ_one_eq_two, Fin.isValue,
    Fin.reduceSucc, IsEmpty.forall_iff, and_true] at hx hs ⊢
  simp only [pcPlus4Carries, Nat.shiftRight_eq_div_pow, Matrix.cons_val]
  omega

theorem inc_digits : (∀ i, incCarries x i < 2) ∧
    ∀ i, leBytes (x + 1) i + incCarries x i * 256 =
      leBytes x i + (![1, incCarries x 0, incCarries x 1, incCarries x 2] : Fin 4 → ℕ) i := by
  have hsum := toNat_eq_leBytes (x + 1)
  rw [BitVec.toNat_add, toNat_eq_leBytes x, show (1 : U32).toNat = 1 from rfl] at hsum
  have hx := leBytes_lt x
  have hs := leBytes_lt (x + 1)
  simp only [Fin.forall_fin_succ, Fin.succ_zero_eq_one, Fin.succ_one_eq_two, Fin.isValue,
    Fin.reduceSucc, IsEmpty.forall_iff, and_true] at hx hs ⊢
  simp only [incCarries, Nat.shiftRight_eq_div_pow, Matrix.cons_val]
  omega

theorem carryIn_ofNats (first : ℕ) (c : Fin 4 → ℕ) (i : Fin 4) :
    carryIn (first : F) (ofNats c) i = ((![first, c 0, c 1, c 2] : Fin 4 → ℕ) i : F) := by
  fin_cases i <;> rfl

theorem u32Add_limbs : u32Add (u32ToLimbs x) (u32ToLimbs y) (u32ToLimbs (x + y))
    (ofNats (u32AddCarries x y) : Limbs F) := by
  obtain ⟨hlt, hsum⟩ := add_digits x y
  intro i
  refine ⟨assertBool_natCast (hlt i), ?_⟩
  have h := carryIn_ofNats (F := F) 0 (u32AddCarries x y) i
  rw [Nat.cast_zero] at h
  rw [h]
  simp only [u32ToLimbs_apply, ofNats_apply]
  exact mod_cast congrArg (Nat.cast (R := F)) (hsum i)

theorem u32Sub_limbs : u32Sub (u32ToLimbs x) (u32ToLimbs y) (u32ToLimbs (x - y))
    (ofNats (u32SubBorrows x y) : Limbs F) := by
  intro i
  obtain ⟨hlt, -, hdiff⟩ := u32SubBorrows_digits x y i
  refine ⟨assertBool_natCast hlt, ?_⟩
  have h := carryIn_ofNats (F := F) 0 (u32SubBorrows x y) i
  rw [Nat.cast_zero] at h
  rw [h, u32ToLimbs_apply _ i, u32ToLimbs_apply _ i, u32ToLimbs_apply _ i, ← u32SubDiff_eq]
  simp only [ofNats_apply]
  exact mod_cast congrArg (Nat.cast (R := F)) hdiff

theorem u32PlusFour_limbs (h : x.toNat + 4 < 2 ^ 32) :
    u32PlusFour (u32ToLimbs x) (u32ToLimbs (x + 4)) (ofNats (pcPlus4Carries x) : Fin 3 → F) := by
  obtain ⟨hlt, h0, h1, h2, h3⟩ := pcPlus4_digits x h
  refine ⟨fun i => assertBool_natCast (hlt i), ?_, ?_, ?_, ?_⟩ <;>
    simp only [u32ToLimbs_apply, ofNats_apply]
  · exact mod_cast congrArg (Nat.cast (R := F)) h0
  · exact mod_cast congrArg (Nat.cast (R := F)) h1
  · exact mod_cast congrArg (Nat.cast (R := F)) h2
  · exact mod_cast congrArg (Nat.cast (R := F)) h3

theorem u32Inc_limbs : u32Inc (u32ToLimbs x) (u32ToLimbs (x + 1))
    (ofNats (incCarries x) : Limbs F) := by
  obtain ⟨hlt, hsum⟩ := inc_digits x
  intro i
  refine ⟨assertBool_natCast (hlt i), ?_⟩
  have h := carryIn_ofNats (F := F) 1 (incCarries x) i
  rw [Nat.cast_one] at h
  rw [h]
  simp only [u32ToLimbs_apply, ofNats_apply]
  exact mod_cast congrArg (Nat.cast (R := F)) (hsum i)

end Witness

end Loquela.Air
