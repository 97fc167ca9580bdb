import Loquela.Air.Instructions.Row
import Loquela.Air.Limbs
import Loquela.Air.Tables

/-! # Words from limbs

Limb-wise arithmetic over the field, read back as arithmetic on machine words. With byte limbs and
boolean carries no limb equation wraps around the modulus, so each is one of natural numbers and
the four of them add up to one of words.
-/

namespace Loquela.Soundness
open Air Library
open Library.Bits (bit)
open Vm (U32)

def packedNat (x : Limbs Felt) : ℕ :=
  (x 0).val + (x 1).val * 2 ^ 8 + (x 2).val * 2 ^ 16 + (x 3).val * 2 ^ 24

/-- The word that four byte limbs hold. -/
def word (x : Limbs Felt) : U32 := BitVec.ofNat 32 (packedNat x)

/-- Every limb is a byte. -/
def Bytes (x : Limbs Felt) : Prop := ∀ i, (x i).val < 256

instance (x : Limbs Felt) : Decidable (Bytes x) := inferInstanceAs (Decidable (∀ _ : Fin 4, _))

section Limbs

variable {x y : Limbs Felt}

theorem packedNat_lt_two_pow (hx : ∀ i, (x i).val < 256) : packedNat x < 2 ^ 32 := by
  have h0 := hx 0
  have h1 := hx 1
  have h2 := hx 2
  have h3 := hx 3
  rw [packedNat]
  omega

theorem toNat_word (hx : Bytes x) : (word x).toNat = packedNat x := by
  rw [word, BitVec.toNat_ofNat, Nat.mod_eq_of_lt (packedNat_lt_two_pow hx)]

theorem val_natCast_of_lt {n : ℕ} (h : n < 256) : ((n : Felt)).val = n :=
  ZMod.val_natCast_of_lt (h.trans (by norm_num))

@[simp] theorem u32ToLimbs_val (v : U32) (i : Fin 4) :
    ((u32ToLimbs v : Limbs Felt) i).val = leBytes v i := val_natCast_of_lt (leBytes_lt v i)

theorem bytes_u32ToLimbs (v : U32) : Bytes (u32ToLimbs v) := by
  intro i
  rw [u32ToLimbs_val]
  exact leBytes_lt v i

theorem packedNat_u32ToLimbs (v : U32) : packedNat (u32ToLimbs v) = v.toNat := by
  simp only [packedNat, u32ToLimbs_val, toNat_eq_leBytes v]
  norm_num

@[simp] theorem word_u32ToLimbs (v : U32) : word (u32ToLimbs v) = v := by
  rw [word, packedNat_u32ToLimbs, BitVec.ofNat_toNat, BitVec.setWidth_eq]

/-- Byte limbs are the bytes of their word. -/
theorem u32ToLimbs_word (hx : Bytes x) : u32ToLimbs (word x) = x := by
  have hdigits : leBytes (word x) = fun i => (x i).val := by
    apply leBytes_of_digits hx
    rw [toNat_word hx]
    rfl
  funext i
  rw [u32ToLimbs_apply, hdigits, ZMod.natCast_zmod_val]

theorem eq_u32ToLimbs_iff (hx : Bytes x) (v : U32) : x = u32ToLimbs v ↔ word x = v := by
  constructor
  · rintro rfl
    exact word_u32ToLimbs v
  · rintro rfl
    exact (u32ToLimbs_word hx).symm

end Limbs

section Arithmetic

theorem val_lt_two {c : Felt} (h : AssertBool c) : c.val < 2 := by
  rcases assertBool_iff.mp h with rfl | rfl <;> decide

theorem val_lt_of_eq_natCast {a : Felt} {n : ℕ} (hn : n < 256) (h : a = n) : a.val = n := by
  rw [h, val_natCast_of_lt hn]

/-- An equation of small numbers in the field is one of numbers. -/
theorem nat_eq_of_cast {a b : ℕ} (ha : a < 2147483647) (hb : b < 2147483647)
    (h : (a : Felt) = b) : a = b := natCast_inj_of_lt ha hb h

theorem add_limb {s c x y d : Felt} (h : s + c * 256 = x + y + d) (hs : s.val < 256)
    (hc : c.val < 2) (hx : x.val < 256) (hy : y.val < 256) (hd : d.val < 2) :
    s.val + c.val * 256 = x.val + y.val + d.val := by
  apply nat_eq_of_cast (by omega) (by omega)
  push_cast
  simp only [ZMod.natCast_val, ZMod.cast_id', id_eq]
  exact h

theorem sub_limb {x b y d f : Felt} (h : x + b * 256 = y + d + f) (hx : x.val < 256)
    (hb : b.val < 2) (hy : y.val < 256) (hd : d.val < 2) (hf : f.val < 256) :
    x.val + b.val * 256 = y.val + d.val + f.val := by
  apply nat_eq_of_cast (by omega) (by omega)
  push_cast
  simp only [ZMod.natCast_val, ZMod.cast_id', id_eq]
  exact h

variable {x y s c : Limbs Felt}

/-- A sum of byte words: the last carry is the overflow. -/
theorem u32Add_nat (h : u32Add x y s c) (hx : Bytes x) (hy : Bytes y) (hs : Bytes s) :
    packedNat s + (c 3).val * 2 ^ 32 = packedNat x + packedNat y := by
  have hc := fun i => val_lt_two (h i).1
  have h0 := add_limb (h 0).2 (hs 0) (hc 0) (hx 0) (hy 0) (by simp [carryIn])
  have h1 := add_limb (h 1).2 (hs 1) (hc 1) (hx 1) (hy 1) (hc 0)
  have h2 := add_limb (h 2).2 (hs 2) (hc 2) (hx 2) (hy 2) (hc 1)
  have h3 := add_limb (h 3).2 (hs 3) (hc 3) (hx 3) (hy 3) (hc 2)
  simp only [carryIn, Matrix.cons_val, ZMod.val_zero] at h0 h1 h2 h3
  rw [packedNat, packedNat, packedNat]
  omega

/-- A difference of byte words: the last borrow is the comparison. -/
theorem u32Sub_nat {d b : Limbs Felt} (h : u32Sub x y d b) (hx : Bytes x) (hy : Bytes y)
    (hd : Bytes d) : packedNat x + (b 3).val * 2 ^ 32 = packedNat y + packedNat d := by
  have hb := fun i => val_lt_two (h i).1
  have h0 := sub_limb (h 0).2 (hx 0) (hb 0) (hy 0) (by simp [carryIn]) (hd 0)
  have h1 := sub_limb (h 1).2 (hx 1) (hb 1) (hy 1) (hb 0) (hd 1)
  have h2 := sub_limb (h 2).2 (hx 2) (hb 2) (hy 2) (hb 1) (hd 2)
  have h3 := sub_limb (h 3).2 (hx 3) (hb 3) (hy 3) (hb 2) (hd 3)
  simp only [carryIn, Matrix.cons_val, ZMod.val_zero] at h0 h1 h2 h3
  rw [packedNat, packedNat, packedNat]
  omega

/-- The next instruction address. -/
theorem u32PlusFour_nat {c : Fin 3 → Felt} (h : u32PlusFour x y c) (hx : Bytes x)
    (hy : Bytes y) : packedNat y = packedNat x + 4 := by
  obtain ⟨hbool, e0, e1, e2, e3⟩ := h
  have hc := fun i => val_lt_two (hbool i)
  have four : (4 : Felt).val = 4 := val_natCast_of_lt (n := 4) (by norm_num)
  have h0 := add_limb (d := 0) (by rw [e0, add_zero]) (hy 0) (hc 0) (hx 0)
    (by rw [four]; norm_num) (by decide)
  have h1 := add_limb (y := 0) (by rw [e1, add_zero]) (hy 1) (hc 1) (hx 1) (by decide) (hc 0)
  have h2 := add_limb (y := 0) (by rw [e2, add_zero]) (hy 2) (hc 2) (hx 2) (by decide) (hc 1)
  have h3 := add_limb (c := 0) (y := 0) (by rw [e3, add_zero, zero_mul, add_zero]) (hy 3)
    (by decide) (hx 3) (by decide) (hc 2)
  rw [ZMod.val_zero] at h0 h1 h2 h3
  rw [four] at h0
  rw [packedNat, packedNat]
  omega

theorem u32Add_word (h : u32Add x y s c) (hx : Bytes x) (hy : Bytes y) (hs : Bytes s) :
    s = u32ToLimbs (word x + word y) := by
  have hnat := u32Add_nat h hx hy hs
  have hlt := packedNat_lt_two_pow hs
  rw [eq_u32ToLimbs_iff hs]
  apply BitVec.eq_of_toNat_eq
  rw [BitVec.toNat_add, toNat_word hs, toNat_word hx, toNat_word hy]
  omega

theorem u32Sub_word (h : u32Sub x y s c) (hx : Bytes x) (hy : Bytes y) (hs : Bytes s) :
    s = u32ToLimbs (word x - word y) := by
  have hnat := u32Sub_nat h hx hy hs
  have hxlt := packedNat_lt_two_pow hx
  have hylt := packedNat_lt_two_pow hy
  have hlt := packedNat_lt_two_pow hs
  have hborrow := val_lt_two (h 3).1
  rw [eq_u32ToLimbs_iff hs]
  apply BitVec.eq_of_toNat_eq
  rw [BitVec.toNat_sub, toNat_word hs, toNat_word hx, toNat_word hy]
  omega

theorem u32PlusFour_word {c : Fin 3 → Felt} (h : u32PlusFour x y c) (hx : Bytes x) (hy : Bytes y) :
    y = u32ToLimbs (word x + 4) := by
  have hnat := u32PlusFour_nat h hx hy
  have hlt := packedNat_lt_two_pow hy
  rw [eq_u32ToLimbs_iff hy]
  apply BitVec.eq_of_toNat_eq
  rw [BitVec.toNat_add, toNat_word hy, toNat_word hx, show (4 : U32).toNat = 4 from rfl]
  omega

end Arithmetic

/-- What is sent on the `bytes` bus are bytes. -/
def SendsBytes (checks : List (Check Felt)) : Prop :=
  ∀ c ∈ checks, c.1 = .bytes → ∃ b < 256, c.2 = [((b : ℕ) : Felt)]

/-- What is sent to a table are rows of it. -/
def SendsRows (t : Table) (checks : List (Check Felt)) : Prop :=
  ∀ c ∈ checks, c.1 = t.bus → ∃ row ∈ t.rows, c.2 = row.map Nat.cast

section Checks

variable {l₁ l₂ : List (Check Felt)}

theorem sendsRows_append {t : Table} :
    SendsRows t (l₁ ++ l₂) ↔ SendsRows t l₁ ∧ SendsRows t l₂ := List.forall_mem_append

theorem sendsRows_of_bus_ne {t : Table} (h : ∀ c ∈ l₁, c.1 ≠ t.bus) : SendsRows t l₁ :=
  fun c hc hbus => absurd hbus (h c hc)

theorem sendsBytes_of_bus_ne (h : ∀ c ∈ l₁, c.1 ≠ .bytes) : SendsBytes l₁ :=
  fun c hc hbus => absurd hbus (h c hc)

@[simp] theorem sendsBytes_append :
    SendsBytes (l₁ ++ l₂) ↔ SendsBytes l₁ ∧ SendsBytes l₂ := List.forall_mem_append

@[simp] theorem sendsBytes_cons_cons (c d : Check Felt) :
    SendsBytes (c :: d :: l₁) ↔ SendsBytes [c] ∧ SendsBytes (d :: l₁) := by
  rw [← List.singleton_append, sendsBytes_append]

@[simp] theorem sendsBytes_byte (v : Felt) : SendsBytes [(.bytes, [v])] ↔ v.val < 256 := by
  constructor
  · intro h
    obtain ⟨b, hb, heq⟩ := h _ (List.mem_singleton.mpr rfl) rfl
    rw [List.singleton_inj.mp heq, val_natCast_of_lt hb]
    exact hb
  · intro h c hc _
    rw [List.mem_singleton.mp hc]
    exact ⟨v.val, h, by rw [ZMod.natCast_zmod_val]⟩

@[simp] theorem sendsBytes_byteChecks (x : Limbs Felt) :
    SendsBytes (byteChecks x) ↔ Bytes x := by
  constructor
  · intro h i
    have hmem : (.bytes, [x i]) ∈ byteChecks x := List.mem_ofFn.mpr ⟨i, rfl⟩
    apply (sendsBytes_byte (x i)).mp
    intro c hc
    rw [List.mem_singleton.mp hc]
    exact h _ hmem
  · intro h c hc _
    obtain ⟨i, rfl⟩ := List.mem_ofFn.mp hc
    exact ⟨(x i).val, h i, by rw [ZMod.natCast_zmod_val]⟩

end Checks

end Loquela.Soundness
