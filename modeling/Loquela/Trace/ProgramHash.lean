import Loquela.Library.Sponge
import Loquela.Trace.Tables

/-! # The program hash on the host

`program_hash::trace` in its own words: lanes packed as words, a running count of the active
bytes, and a sponge over any permutation. At the permutation of the chip it builds the tables of
the prover.
-/

namespace Loquela.Trace.Host
open Air Library
open Vm (Byte U32)

variable {F : Type*} [Field F]

/-- `Mersenne31::from_u32`. -/
def fromU32 (x : U32) : F := (x.toNat : F)

/-- `pack_lane`: `b0 + 256*b1 + 65536*b2`, zero-extended past the end. -/
def packLane (program : List Byte) (start : ℕ) : U32 :=
  (List.range 3).foldl (fun acc k =>
    match program[start + k]? with
    | some byte => acc ||| byte.setWidth 32 <<< (8 * k)
    | none => acc) 0

/-- The chunk of a row added to the rate lanes of a state. -/
def absorbRow (program : List Byte) (state : SpongeState F) (row : ℕ) : SpongeState F := fun g =>
  if (g : ℕ) < 8 then state g + fromU32 (packLane program (row * 24 + g * 3)) else state g

variable (permute : SpongeState F → SpongeState F)

/-- The loop of `compute_program_digest`, program tail first. -/
def sponge (program : List Byte) : SpongeState F :=
  (List.range (numRealRows program)).reverse.foldl
    (fun state row => permute (absorbRow program state row)) 0

/-- `compute_program_digest`. -/
def computeProgramDigest (program : List Byte) : (Fin 8 → F) × U32 :=
  (fun i => sponge permute program (i.castLE rate_le), BitVec.ofNat 32 program.length)

/-- The public values derived from the digest. -/
def publicValues (program : List Byte) : PublicValues F where
  digest := (computeProgramDigest permute program).1
  length := fromU32 (computeProgramDigest permute program).2

/-- `cum_active` after a row of the first pass. -/
def cumActive (program : List Byte) (row : ℕ) : U32 :=
  (List.range (row + 1)).foldl (fun acc r => (List.range 24).foldl (fun acc i =>
    if r < numRealRows program ∧ r * 24 + i < program.length then acc + 1 else acc) acc) 0

/-- The second pass, from the bottom up: the final state, and the permutation input and output of
every real row. -/
def spongePass (program : List Byte) : SpongeState F × List (SpongeState F × SpongeState F) :=
  (List.range (numRealRows program)).foldr (fun row below =>
    let permIn := absorbRow program below.1 row
    let permOut := permute permIn
    (permOut, (permIn, permOut) :: below.2)) (0, [])

/-- A row after both passes; the second one leaves padding rows zero. -/
def row (program : List Byte) (r : ℕ) : ProgramHashColumns F where
  state := ((spongePass permute program).2[r]?.map Prod.snd).getD 0
  bytes := fun i =>
    if r < numRealRows program then
      match program[r * 24 + i]? with
      | some byte => (byte.toNat : F)
      | none => 0
    else 0
  baseAddr := fromU32 (BitVec.ofNat 32 (r * 24))
  isActive := fun i => if r < numRealRows program ∧ r * 24 + i < program.length then 1 else 0
  flag := if r < numRealRows program then 1 else 0
  cumActive := fromU32 (cumActive program r)
  permIn := ((spongePass permute program).2[r]?.map Prod.fst).getD 0
  permOut := ((spongePass permute program).2[r]?.map Prod.snd).getD 0

/-- `ProgramHashTrace`. -/
structure ProgramHashTrace (F : Type*) where
  main : List (ProgramHashColumns F)
  permInputs : List (SpongeState F)

/-- `program_hash::trace::build_trace`; `none` is the assertion that the program is not empty. -/
def buildTrace (program : List Byte) : Option (ProgramHashTrace F) :=
  if program.isEmpty then none
  else some
    { main := (List.range (height (numRealRows program + 1))).map (row permute program)
      permInputs := (spongePass permute program).2.map Prod.fst }

/-- The byte at a position, zero past the end. -/
def byteAt (program : List Byte) (i : ℕ) : ℕ := (program[i]?.map BitVec.toNat).getD 0

theorem byteAt_lt (program : List Byte) (i : ℕ) : byteAt program i < 256 := by
  rw [byteAt]
  cases program[i]? with
  | none => simp
  | some byte => exact byte.isLt

theorem chunk_eq_byteAt (program : List Byte) (base : ℕ) (i : Fin 24) :
    chunk program base i = (byteAt program (base + i) : F) := by
  rw [chunk, byteAt]
  cases program[base + (i : ℕ)]? <;> simp

theorem packLane_step (acc : U32) (program : List Byte) (i k : ℕ) (hk : k < 3)
    (hacc : acc.toNat < 2 ^ (8 * k)) :
    (match program[i]? with
      | some byte => acc ||| byte.setWidth 32 <<< (8 * k)
      | none => acc).toNat = acc.toNat + byteAt program i * 2 ^ (8 * k) := by
  rw [byteAt]
  cases program[i]? with
  | none => simp
  | some byte =>
    have hbyte := byte.isLt
    have hshift : byte.toNat * 2 ^ (8 * k) < 2 ^ 32 := by
      interval_cases k <;> omega
    have hpart : (byte.setWidth 32 <<< (8 * k)).toNat = byte.toNat * 2 ^ (8 * k) := by
      rw [BitVec.toNat_shiftLeft, BitVec.toNat_setWidth, Nat.shiftLeft_eq,
        Nat.mod_eq_of_lt (a := byte.toNat) (by omega), Nat.mod_eq_of_lt hshift]
    show (acc ||| byte.setWidth 32 <<< (8 * k)).toNat = _
    rw [BitVec.toNat_or, hpart, Nat.or_comm, ← Nat.shiftLeft_eq,
      ← Nat.shiftLeft_add_eq_or_of_lt hacc, Nat.shiftLeft_eq, Nat.add_comm]
    rfl

/-- The packed bytes do not overlap. -/
theorem packLane_toNat (program : List Byte) (start : ℕ) : (packLane program start).toNat =
    byteAt program start + byteAt program (start + 1) * 2 ^ 8 +
      byteAt program (start + 2) * 2 ^ 16 := by
  have h0 := packLane_step 0 program start 0 (by norm_num) (by decide)
  have hb0 := byteAt_lt program start
  have hb1 := byteAt_lt program (start + 1)
  rw [show (0 : U32).toNat = 0 from rfl, Nat.zero_add, Nat.mul_zero, Nat.pow_zero,
    Nat.mul_one] at h0
  have h1 := packLane_step _ program (start + 1) 1 (by norm_num) (h0.trans_lt (by omega))
  have h2 := packLane_step _ program (start + 2) 2 (by norm_num)
    (h1.trans_lt (by rw [h0]; omega))
  rw [h1, h0] at h2
  simpa [packLane, List.range_succ] using h2

theorem packLane_lt (program : List Byte) (start : ℕ) : (packLane program start).toNat < 2 ^ 24 := by
  have h0 := byteAt_lt program start
  have h1 := byteAt_lt program (start + 1)
  have h2 := byteAt_lt program (start + 2)
  rw [packLane_toNat]
  omega

/-- A packed lane is the lane the circuit recombines from the bytes of the row. -/
theorem fromU32_packLane (program : List Byte) (base : ℕ) (g : Fin 8) :
    fromU32 (packLane program (base + g * 3)) = (packedLane (chunk program base) g : F) := by
  rw [fromU32, packLane_toNat, packedLane]
  simp only [chunk_eq_byteAt, Nat.mul_comm 3, ← Nat.add_assoc]
  rw [Nat.cast_add, Nat.cast_add, Nat.cast_mul, Nat.cast_mul, Nat.cast_pow, Nat.cast_pow,
    Nat.cast_ofNat]

theorem absorbRow_eq (program : List Byte) (state : SpongeState F) (row : ℕ) :
    absorbRow program state row = absorb state (chunk program (row * 24)) := by
  funext g
  rw [absorbRow, absorb]
  split_ifs with hg
  · exact congrArg (state g + ·) (fromU32_packLane program (row * 24) ⟨g, hg⟩)
  · rfl

/-- The digest loop ends in the state over all real rows. -/
theorem sponge_eq_state (program : List Byte) : sponge permute program =
    Sponge.state (absorbRow program) permute 0 (List.range (numRealRows program)) :=
  Sponge.foldl_reverse_eq_state _

theorem spongePass_eq_passes (program : List Byte) : spongePass permute program =
    Sponge.passes (absorbRow program) permute 0 (List.range (numRealRows program)) := rfl

end Loquela.Trace.Host
