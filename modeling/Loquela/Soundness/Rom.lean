import Loquela.Library.Prefix
import Loquela.Soundness.Interactions

/-! # The program ROM

Row `i` of the ROM is at address `i`, and the real rows come first.
-/

namespace Loquela.Soundness
open Air Library Library.Bus Library.Prefix

variable {F : Type*} [Field F] {program : List (ProgramColumns F)}

theorem packed_u32Inc {x y carries : Limbs F} (h : u32Inc x y carries) (htop : carries 3 = 0) :
    packed y = packed x + 1 := by
  have h0 := (h 0).2
  have h1 := (h 1).2
  have h2 := (h 2).2
  have h3 := (h 3).2
  simp only [carryIn, Matrix.cons_val, htop] at h0 h1 h2 h3
  rw [packed, packed]
  linear_combination h0 + 2 ^ 8 * h1 + 2 ^ 16 * h2 + 2 ^ 24 * h3

/-- Row `i` of the ROM is at address `i`. -/
theorem packed_address (h : programEval program) :
    ∀ {i : ℕ} {c : ProgramColumns F}, program[i]? = some c → packed c.address = (i : F) := by
  intro i
  induction i with
  | zero =>
    intro c hc
    have hfirst := h.2.1 c (by rwa [Option.mem_def, List.head?_eq_getElem?])
    simp [packed, hfirst 0, hfirst 1, hfirst 2, hfirst 3]
  | succ i ih =>
    intro c hc
    obtain ⟨hi, rfl⟩ := List.getElem?_eq_some_iff.mp hc
    have hstep := List.isChain_iff_getElem.mp h.2.2 i hi
    have hrow := h.1 program[i] (List.getElem_mem _)
    rw [packed_u32Inc hstep.1 hrow.1, ih (List.getElem?_eq_getElem _), Nat.cast_succ]

/-- Real ROM rows hold the bytes `x` at the four addresses from `pc` on. -/
def RomHolds (program : List (ProgramColumns F)) (pc x : Limbs F) : Prop :=
  ∃ a : ℕ, (a : F) = packed pc ∧
    ∀ k : Fin 4, ∃ c, program[a + k]? = some c ∧ c.isReal = 1 ∧ c.value = x k

theorem program_mem_lookups {program : List (ProgramColumns F)} {x : Interaction F} :
    x ∈ programLookups program ↔ ∃ c ∈ program,
      x = receive .program (List.ofFn c.address ++ [c.value]) c.mult ∨
        x = receive .programImage [packed c.address, c.value] c.isReal := by
  simp [programLookups, ProgramColumns.lookups]

section Image

variable [DecidableEq F]

/-- The values of the real rows, in order. -/
def romBytes (program : List (ProgramColumns F)) : List F :=
  (program.filter fun c => c.isReal = 1).map ProgramColumns.value

theorem isReal_falling (h : programEval program) :
    Falling (fun c : ProgramColumns F => decide (c.isReal = 1)) program := by
  apply h.2.2.imp
  intro c next hstep hreal
  have hreal : next.isReal = 1 := of_decide_eq_true hreal
  have := hstep.2
  rw [hreal, mul_one, sub_eq_zero] at this
  exact decide_eq_true this.symm

/-- Byte `j` of the ROM is in its row `j`. -/
theorem getElem?_romBytes (h : programEval program) {j : ℕ} {v : F} :
    (romBytes program)[j]? = some v ↔ ∃ c, program[j]? = some c ∧ c.isReal = 1 ∧ c.value = v := by
  simp [romBytes, getElem?_filter (isReal_falling h), Option.filter_eq_some_iff, and_assoc]

theorem realRom_initial (h : programEval program) :
    (program.filter fun c => c.isReal = 1) <+: program := by
  rw [filter_eq_takeWhile (isReal_falling h)]
  exact List.takeWhile_prefix _

theorem selected_realRom : selected .receive .programImage (programLookups program) =
    (program.filter fun c => c.isReal = 1).map fun c => [packed c.address, c.value] := by
  induction program with
  | nil => rfl
  | cons c rest ih =>
    rw [programLookups] at ih ⊢
    rw [List.flatMap_cons, selected_append, ih]
    by_cases hreal : c.isReal = 1 <;> simp [ProgramColumns.lookups, hreal]

/-- The real bytes are received keyed by their positions. -/
theorem selected_romBytes (h : programEval program) :
    selected .receive .programImage (programLookups program) =
      (romBytes program).mapIdx fun j v => [(j : F), v] := by
  rw [selected_realRom, romBytes]
  apply List.ext_getElem
  · simp
  · intro j hj hj'
    have hj : j < (program.filter fun c => c.isReal = 1).length := by simpa using hj
    have hrow : program[j]? = some (program.filter fun c => c.isReal = 1)[j] := by
      rw [(realRom_initial h).getElem hj]
      exact List.getElem?_eq_getElem _
    simp [packed_address h hrow]

end Image

end Loquela.Soundness
