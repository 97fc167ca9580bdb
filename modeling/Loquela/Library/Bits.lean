import Mathlib.Algebra.BigOperators.Group.List.Basic
import Mathlib.Algebra.CharP.Basic
import Mathlib.Algebra.Field.Basic
import Mathlib.Data.Nat.Bitwise
import Mathlib.Tactic.Ring
import Loquela.Library.Numerals

/-! # Bits as field elements

A circuit splits a number into columns it asserts to be boolean and recombines them with powers
of two. Such columns are the bits of one natural number, and recombining a range of them gives
the corresponding field of that number.
-/

namespace Loquela.Library.Bits

variable {F : Type*} [Field F]

def bit (b : Bool) : F := if b then 1 else 0

@[simp] theorem bit_true : bit (F := F) true = 1 := rfl

@[simp] theorem bit_false : bit (F := F) false = 0 := rfl

theorem bit_injective : Function.Injective (bit (F := F)) := by
  intro a b h
  cases a <;> cases b <;> simp_all

theorem bit_eq_natCast (b : Bool) : bit (F := F) b = (b.toNat : F) := by
  cases b <;> simp

/-- Little-endian recombination. -/
def pack : List F → F
  | [] => 0
  | b :: bs => b + pack bs * 2

@[simp] theorem pack_nil : pack ([] : List F) = 0 := rfl

@[simp] theorem pack_cons (b : F) (bs : List F) : pack (b :: bs) = b + pack bs * 2 := rfl

/-- Recombining `n` bits of `x` from bit `k` on. -/
theorem pack_testBit (x k n : ℕ) :
    pack (List.ofFn fun i : Fin n => bit (F := F) (x.testBit (k + i))) =
      ((x / 2 ^ k % 2 ^ n : ℕ) : F) := by
  induction n generalizing k with
  | zero => simp [Nat.mod_one]
  | succ n ih =>
    have hshift : (List.ofFn fun i : Fin n => bit (F := F) (x.testBit (k + (i.succ : ℕ)))) =
        List.ofFn fun i : Fin n => bit (x.testBit (k + 1 + i)) := by
      congr 1
      funext i
      rw [Fin.val_succ, Nat.add_right_comm, Nat.add_assoc]
    have hsplit : x / 2 ^ k % 2 ^ (n + 1) =
        (x.testBit k).toNat + x / 2 ^ (k + 1) % 2 ^ n * 2 := by
      rw [Nat.toNat_testBit, Nat.pow_succ, Nat.mul_comm (2 ^ n) 2, Nat.mod_mul,
        Nat.div_div_eq_div_mul, ← Nat.pow_succ, Nat.mul_comm 2]
    rw [List.ofFn_succ, hshift, pack_cons, ih, hsplit, Fin.val_zero, Nat.add_zero,
      bit_eq_natCast, Nat.cast_add, Nat.cast_mul, Nat.cast_two]

theorem pack_bits {x n : ℕ} (h : x < 2 ^ n) :
    pack (List.ofFn fun i : Fin n => bit (F := F) (x.testBit i)) = (x : F) := by
  have := pack_testBit (F := F) x 0 n
  simp only [Nat.zero_add] at this
  rw [this, Nat.pow_zero, Nat.div_one, Nat.mod_eq_of_lt h]

/-- Boolean columns are the bits of a number. -/
theorem exists_bits {n : ℕ} {f : Fin n → F} (h : ∀ i, f i = 0 ∨ f i = 1) :
    ∃ x : ℕ, x < 2 ^ n ∧ ∀ i : Fin n, f i = bit (x.testBit i) := by
  classical
  refine ⟨Nat.ofBits fun i => decide (f i = 1), Nat.ofBits_lt_two_pow _, ?_⟩
  intro i
  rw [Nat.testBit_ofBits_lt _ _ i.isLt]
  rcases h i with h | h <;> simp [h]

theorem exists_pack {n : ℕ} {f : Fin n → F} (h : ∀ i, f i = 0 ∨ f i = 1) :
    ∃ x : ℕ, x < 2 ^ n ∧ pack (List.ofFn f) = (x : F) ∧ ∀ i : Fin n, f i = bit (x.testBit i) := by
  obtain ⟨x, hx, hf⟩ := exists_bits h
  refine ⟨x, hx, ?_, hf⟩
  rw [← pack_bits hx, funext hf]

/-- Below the characteristic a number has one decomposition into bits. -/
theorem pack_injective {p n : ℕ} [CharP F p] (hn : 2 ^ n ≤ p) {f g : Fin n → F}
    (hf : ∀ i, f i = 0 ∨ f i = 1) (hg : ∀ i, g i = 0 ∨ g i = 1)
    (h : pack (List.ofFn f) = pack (List.ofFn g)) : f = g := by
  obtain ⟨x, hx, hpack, hbits⟩ := exists_pack hf
  obtain ⟨y, hy, hpack', hbits'⟩ := exists_pack hg
  rw [hpack, hpack'] at h
  have hxy := CharP.natCast_injOn_Iio F p (hx.trans_le hn) (hy.trans_le hn) h
  funext i
  rw [hbits, hbits', hxy]

section OneHot

variable {K : Type*} [DecidableEq F] {f : K → F} {l : List K}

theorem sum_eq_count (h : ∀ k ∈ l, f k = 0 ∨ f k = 1) :
    (l.map f).sum = ((l.filter fun k => f k = 1).length : F) := by
  induction l with
  | nil => simp
  | cons a l ih =>
    have ih := ih fun k hk => h k (List.mem_cons_of_mem a hk)
    rw [List.map_cons, List.sum_cons, ih]
    rcases h a List.mem_cons_self with ha | ha
    · rw [List.filter_cons_of_neg (by simp [ha]), ha, zero_add]
    · rw [List.filter_cons_of_pos (by simp [ha]), ha, List.length_cons, Nat.cast_succ, add_comm]

/-- Boolean flags that sum to one are one-hot, below the characteristic. -/
theorem exists_hot {p : ℕ} [CharP F p] [DecidableEq K] (h : ∀ k ∈ l, f k = 0 ∨ f k = 1)
    (hlength : l.length < p) (hone : 1 < p) (hsum : (l.map f).sum = 1) :
    ∃ a ∈ l, ∀ k ∈ l, f k = if k = a then 1 else 0 := by
  rw [sum_eq_count h] at hsum
  have hcount : (l.filter fun k => f k = 1).length = 1 :=
    CharP.natCast_injOn_Iio F p ((List.length_filter_le _ _).trans_lt hlength) hone
      (hsum.trans Nat.cast_one.symm)
  obtain ⟨a, ha⟩ := List.length_eq_one_iff.mp hcount
  have hmem : ∀ k, (k ∈ l ∧ f k = 1) ↔ k = a := by
    intro k
    rw [← List.mem_singleton (b := a), ← ha, List.mem_filter, decide_eq_true_eq]
  refine ⟨a, ((hmem a).mpr rfl).1, ?_⟩
  intro k hk
  split_ifs with hka
  · exact ((hmem k).mpr hka).2
  · exact (h k hk).resolve_right fun hone => hka ((hmem k).mp ⟨hk, hone⟩)

omit [DecidableEq F] in
/-- The sum of one-hot flags over some kinds tells whether the hot one is among them. -/
theorem sum_hot [DecidableEq K] {a : K} (hf : ∀ k, f k = if k = a then 1 else 0)
    (hl : l.Nodup) : (l.map f).sum = if a ∈ l then 1 else 0 := by
  induction l with
  | nil => simp
  | cons b l ih =>
    have ⟨hb, hl⟩ := List.nodup_cons.mp hl
    rw [List.map_cons, List.sum_cons, ih hl, hf b]
    by_cases hba : b = a
    · subst hba
      simp [hb]
    · simp [hba, Ne.symm hba]

end OneHot

end Loquela.Library.Bits
