import Loquela.Air.Limbs
import Loquela.Soundness.Rom

/-! # Addresses of the program ROM

The carries of the address counter are booleans the prover chooses and its limbs are not range
checked. The addresses are canonical exactly when every carry is the one of a byte counter.
-/

namespace Loquela.Soundness
open Air
open Vm (U32)

section Counter

variable {F : Type*} [Field F] {x : U32} {y c : Limbs F}

theorem u32Inc_eq (h : u32Inc (u32ToLimbs x) y (ofNats (incCarries x))) :
    y = u32ToLimbs (x + 1) := by
  funext k
  have hk := (h k).2
  rw [← (u32Inc_limbs x k).2] at hk
  exact add_right_cancel hk

variable [CharP F modulus]

theorem natCast_256_ne_zero : (256 : F) ≠ 0 :=
  natCast_ne_zero (a := 256) (by decide) (by decide)

/-- The carries between two byte words are determined. -/
theorem u32Inc_carries (h : u32Inc (u32ToLimbs x) (u32ToLimbs (x + 1)) c) :
    c = ofNats (incCarries x) := by
  have hx := u32Inc_limbs (F := F) x
  have hlimb : ∀ k, carryIn 1 c k = carryIn 1 (ofNats (incCarries x)) k →
      c k = ofNats (incCarries x) k := by
    intro k hin
    have hk := (h k).2
    rw [hin, ← (hx k).2] at hk
    exact mul_right_cancel₀ natCast_256_ne_zero (add_left_cancel hk)
  have h0 := hlimb 0 rfl
  have h1 := hlimb 1 h0
  have h2 := hlimb 2 h1
  have h3 := hlimb 3 h2
  funext k
  fin_cases k
  · exact h0
  · exact h1
  · exact h2
  · exact h3

/-- A boolean that is set exactly at 256 is the carry out of the limb. -/
theorem carry_iff {a : ℕ} {c : F} (ha : a ≤ 256) (hc : AssertBool c) :
    (c = 1 ↔ (a : F) = 256) ↔ c = ((a >>> 8 : ℕ) : F) := by
  have hcast : (a : F) = 256 ↔ a = 256 := by
    constructor
    · intro h
      exact natCast_inj_of_lt (F := F) (ha.trans_lt (by decide)) (by decide) (mod_cast h)
    · rintro rfl
      rfl
  rw [hcast]
  rcases Nat.lt_or_eq_of_le ha with hlt | rfl
  · rw [Nat.shiftRight_eq_div_pow, Nat.div_eq_of_lt (by omega), Nat.cast_zero]
    rcases assertBool_iff.mp hc with rfl | rfl
    · simpa using hlt.ne
    · simpa using hlt.ne
  · rw [show 256 >>> 8 = 1 from rfl, Nat.cast_one]
    exact ⟨fun h => h.2 rfl, fun h => ⟨fun _ => rfl, fun _ => h⟩⟩

end Counter

/-- Each carry is set exactly when its limb and the carry into it make 256. -/
def NormalizedCarries (c : ProgramColumns Felt) : Prop :=
  ∀ k, c.incCarries k = 1 ↔ c.address k + carryIn 1 c.incCarries k = 256

theorem normalizedCarries_iff {c : ProgramColumns Felt} {x : U32} (haddress : c.address = u32ToLimbs x)
    (hbool : ∀ k, AssertBool (c.incCarries k)) :
    NormalizedCarries c ↔ c.incCarries = ofNats (incCarries x) := by
  have hx := leBytes_lt x
  have hin := (inc_digits x).1
  have hlimb : ∀ k (n : ℕ), n < 2 → carryIn 1 c.incCarries k = (n : Felt) →
      ((c.incCarries k = 1 ↔ c.address k + carryIn 1 c.incCarries k = 256) ↔
        c.incCarries k = (((leBytes x k + n) >>> 8 : ℕ) : Felt)) := by
    intro k n hn hcarry
    rw [hcarry, haddress, u32ToLimbs_apply, ← Nat.cast_add]
    exact carry_iff (by have := hx k; omega) (hbool k)
  constructor
  · intro h
    have h0 := (hlimb 0 1 (by decide) (by simp [carryIn])).mp (h 0)
    have h1 := (hlimb 1 _ (hin 0) h0).mp (h 1)
    have h2 := (hlimb 2 _ (hin 1) h1).mp (h 2)
    have h3 := (hlimb 3 _ (hin 2) h2).mp (h 3)
    funext k
    fin_cases k
    · exact h0
    · exact h1
    · exact h2
    · exact h3
  · intro h k
    have hc := congrFun h
    fin_cases k
    · exact (hlimb 0 1 (by decide) (by simp [carryIn])).mpr (hc 0)
    · exact (hlimb 1 _ (hin 0) (hc 0)).mpr (hc 1)
    · exact (hlimb 2 _ (hin 1) (hc 1)).mpr (hc 2)
    · exact (hlimb 3 _ (hin 2) (hc 2)).mpr (hc 3)

/-- What the address chain of the ROM is meant to give. -/
structure CanonicalAddresses (program : List (ProgramColumns Felt)) : Prop where
  bytes : ∀ i c, program[i]? = some c → c.address = u32ToLimbs (BitVec.ofNat 32 i)
  top : ∀ c ∈ program, c.address 3 = 0
  key : ∀ c ∈ program, (packed c.address).val < 2 ^ 24
  height : program.length ≤ 2 ^ 24
  distinct : (program.map fun c => packed c.address).Nodup

variable {program : List (ProgramColumns Felt)}

/-- Addresses that are the bytes of their row stay below 16 MiB: the top limb is pinned to zero. -/
theorem height_le (heval : programEval program)
    (hbytes : ∀ i c, program[i]? = some c → c.address = u32ToLimbs (BitVec.ofNat 32 i)) :
    program.length ≤ 2 ^ 24 := by
  by_contra hlong
  rw [not_le] at hlong
  have hrow := List.getElem?_eq_getElem hlong
  have htop := (heval.1 _ (List.getElem_mem hlong)).2.1
  rw [hbytes _ _ hrow] at htop
  exact absurd htop (by decide)

theorem canonicalAddresses_of_bytes (heval : programEval program)
    (hbytes : ∀ i c, program[i]? = some c → c.address = u32ToLimbs (BitVec.ofNat 32 i)) :
    CanonicalAddresses program := by
  have hheight := height_le heval hbytes
  have hkey : ∀ {i : ℕ} {c}, program[i]? = some c → i < 2 ^ 24 ∧ packed c.address = (i : Felt) := by
    intro i c hc
    exact ⟨(List.getElem?_eq_some_iff.mp hc).1.trans_le hheight, packed_address heval hc⟩
  refine ⟨hbytes, fun c hc => (heval.1 c hc).2.1, ?_, hheight, ?_⟩
  · intro c hc
    rcases List.mem_iff_getElem?.mp hc with ⟨i, hi⟩
    obtain ⟨hlt, heq⟩ := hkey hi
    rw [heq, ZMod.val_natCast_of_lt (hlt.trans (by decide))]
    exact hlt
  · rw [List.nodup_iff_injective_getElem]
    rintro ⟨i, hi⟩ ⟨j, hj⟩ hij
    simp only [List.getElem_map] at hij
    rw [List.length_map] at hi hj
    obtain ⟨hilt, hieq⟩ := hkey (List.getElem?_eq_getElem hi)
    obtain ⟨hjlt, hjeq⟩ := hkey (List.getElem?_eq_getElem hj)
    rw [hieq, hjeq] at hij
    exact Fin.ext (natCast_inj_of_lt (hilt.trans (by decide)) (hjlt.trans (by decide)) hij)

/-- One step of the counter, from a row that holds `x`. -/
theorem address_step {c next : ProgramColumns Felt} {x : U32} (hstep : c.evalTransition next)
    (haddress : c.address = u32ToLimbs x) :
    NormalizedCarries c ↔ next.address = u32ToLimbs (x + 1) := by
  have hinc := hstep.1
  rw [haddress] at hinc
  rw [normalizedCarries_iff haddress fun k => (hinc k).1]
  constructor
  · intro h
    rw [h] at hinc
    exact u32Inc_eq hinc
  · intro h
    rw [h] at hinc
    exact u32Inc_carries hinc

/-- The ROM addresses are canonical exactly when every row that has a successor carries as a byte
counter does. -/
theorem canonicalAddresses_iff (heval : programEval program) :
    CanonicalAddresses program ↔
      ∀ i c, program[i]? = some c → i + 1 < program.length → NormalizedCarries c := by
  have hstep : ∀ i c, program[i]? = some c → i + 1 < program.length →
      ∃ next, program[i + 1]? = some next ∧ c.evalTransition next := by
    intro i c hc hi
    obtain ⟨_, rfl⟩ := List.getElem?_eq_some_iff.mp hc
    exact ⟨_, List.getElem?_eq_getElem hi, List.isChain_iff_getElem.mp heval.2.2 i hi⟩
  have hsucc : ∀ i : ℕ, BitVec.ofNat 32 (i + 1) = BitVec.ofNat 32 i + 1 := by
    intro i
    exact BitVec.ofNat_add i 1
  constructor
  · intro h i c hc hi
    obtain ⟨next, hnext, htransition⟩ := hstep i c hc hi
    rw [address_step htransition (h.bytes i c hc), ← hsucc]
    exact h.bytes _ _ hnext
  · intro h
    apply canonicalAddresses_of_bytes heval
    intro i
    induction i with
    | zero =>
      intro c hc
      funext k
      rw [heval.2.1 c (by rwa [Option.mem_def, List.head?_eq_getElem?]) k]
      exact (congrFun u32ToLimbs_zero k).symm
    | succ i ih =>
      intro next hnext
      have hi := (List.getElem?_eq_some_iff.mp hnext).1
      have hc := List.getElem?_eq_getElem (Nat.lt_of_succ_lt hi)
      obtain ⟨next', hnext', htransition⟩ := hstep i _ hc hi
      rw [hnext] at hnext'
      cases hnext'
      rw [hsucc]
      exact (address_step htransition (ih _ hc)).mp (h i _ hc hi)

/-- Two rows of a ROM, the first at address 0 with the given carries. -/
def twoRowRom (carries next : Limbs Felt) : List (ProgramColumns Felt) :=
  [⟨0, 19, 1, carries, 1⟩, ⟨next, 0, 1, 0, 1⟩]

theorem canonicalAddresses_iff_two_rows :
    CanonicalAddresses (twoRowRom 0 ![1, 0, 0, 0]) ↔
      ∀ i c, (twoRowRom 0 ![1, 0, 0, 0])[i]? = some c →
        i + 1 < (twoRowRom 0 ![1, 0, 0, 0]).length → NormalizedCarries c :=
  canonicalAddresses_iff (by decide)

/-- A carry out of a limb that is not full leaves a negative limb behind. -/
theorem early_carry_not_canonical :
    programEval (twoRowRom ![1, 0, 0, 0] ![-255, 1, 0, 0]) ∧
      ¬ CanonicalAddresses (twoRowRom ![1, 0, 0, 0] ![-255, 1, 0, 0]) := by
  constructor
  · decide
  · intro h
    have hlimb := congrFun (h.bytes 1 _ rfl) 0
    exact absurd hlimb (by decide)

/-- The addresses of a counter that keeps everything in its low limb. -/
def uncarriedRom (height : ℕ) : List (ProgramColumns Felt) :=
  (List.range height).map fun i : ℕ => ⟨registerAddress (i : Felt), 0, 0, 0, 1⟩

theorem uncarriedRom_eval (height : ℕ) : programEval (uncarriedRom height) := by
  refine ⟨?_, ?_, ?_⟩
  · intro c hc
    rcases List.mem_map.mp hc with ⟨i, -, rfl⟩
    exact ⟨rfl, rfl, by simp [AssertBool], by simp⟩
  · intro c hc
    rw [Option.mem_def, List.head?_eq_getElem?, uncarriedRom, List.getElem?_map] at hc
    rcases Option.map_eq_some_iff.mp hc with ⟨i, hi, rfl⟩
    obtain ⟨-, rfl⟩ := List.getElem?_eq_some_iff.mp hi
    intro k
    fin_cases k <;> simp [registerAddress]
  · rw [List.isChain_iff_getElem]
    intro i hi
    simp only [uncarriedRom, List.getElem_map, List.getElem_range]
    refine ⟨fun k => ⟨by simp [AssertBool], ?_⟩, by simp⟩
    fin_cases k <;> simp [registerAddress, carryIn]

/-- No height is refused, and rows a field size apart share their key of the program image. -/
theorem uncarriedRom_collides {height i : ℕ} (hi : i + modulus < height) :
    programEval (uncarriedRom height) ∧ (uncarriedRom height).length = height ∧
      ∃ c c', (uncarriedRom height)[i]? = some c ∧ (uncarriedRom height)[i + modulus]? = some c' ∧
        packed c.address = packed c'.address := by
  have heval := uncarriedRom_eval height
  have hlength : (uncarriedRom height).length = height := by simp [uncarriedRom]
  have hc := List.getElem?_eq_getElem (l := uncarriedRom height) (by omega : i < _)
  have hc' := List.getElem?_eq_getElem (hi.trans_eq hlength.symm)
  refine ⟨heval, hlength, _, _, hc, hc', ?_⟩
  rw [packed_address heval hc, packed_address heval hc', Nat.cast_add, CharP.cast_eq_zero Felt modulus,
    add_zero]

end Loquela.Soundness
