import Loquela.Soundness.BuiltTraces

/-! # Accepted trace sets are runs

Where the prover has filled in the columns left to it as intended, the chain of the real rows of an
accepted trace set is a run of the interpreter. With other carries it need not be one.
-/

namespace Loquela.Soundness
open Air Completeness Library Trace
open Vm (Byte VM)

/-- In an accepted trace set whose ROM holds `B`, with the columns of its real rows filled in as
intended and the comparisons of its memory table in order, the real rows along the trace bus are
the first steps of the interpreter on `B`. The columns of the rows are then always as intended. -/
theorem execution_sound (P : Poseidon2 Felt) (T : TraceSet Felt) (B : List Byte)
    (h : T.Accepted P) (hrom : Holding T.program B) :
    (Intended T → (memoryTables T).Compared → ∃ chain vm, Simulates T B chain vm) ∧
      ∀ chain vm, Simulates T B chain vm → Intended T :=
  ⟨simulates_of_intended h hrom, fun _ _ => intended_of_simulates h hrom⟩

/-- Three steps, with the tables that the prover fills for them. -/
theorem execution_sound_shiftsAndMasks : ∃ vm t, (VM.new shiftsAndMasks).steps 3 = some vm ∧
    buildAllTraces ⟨id, id, 0, 0, 0⟩ shiftsAndMasks vm = .ok t ∧
      ∃ chain vm', Simulates (toTraceSet t) shiftsAndMasks chain vm' := by
  obtain ⟨vm, h, hreturns, hfull⟩ := provableRun_shiftsAndMasks
  obtain ⟨xs, t, hrun, hlength, ht, hT⟩ := h.exists_built ⟨id, id, 0, 0, 0⟩
  have heval := (eval_iff h hrun hT).mpr ⟨hreturns, fun hpadded => absurd hfull hpadded⟩
  have haccepted := accepted_of_built h hrun hT heval
  have hholding := holding_buildProgram hT.rom
  have hsimulates := simulates_of_built h hrun hlength hT
  exact ⟨vm, t, h.steps, ht, (execution_sound _ (toTraceSet t) shiftsAndMasks haccepted hholding).1
    (intended_of_simulates haccepted hholding hsimulates) (compared_of_built h hrun hT)⟩

section Lui

theorem carriedTraces_holding {P : Poseidon2 Felt} (carry : Felt) :
    Holding (carriedTraces P carry).program luiProgram := by
  show romBytes stepRom = _
  decide

/-- With the carry set the boundaries receive a pc that no machine has. -/
theorem execution_sound_fails : ¬ ∀ (P : Poseidon2 Felt) (T : TraceSet Felt) (B : List Byte),
    T.Accepted P → Holding T.program B → ∃ chain vm, Simulates T B chain vm := by
  intro h
  obtain ⟨chain, vm, hsimulates⟩ := h ⟨id, id, 0, 0, 0⟩ (carriedTraces ⟨id, id, 0, 0, 0⟩ 1)
    luiProgram (carriedTraces_accepted _ (.inr rfl)) (carriedTraces_holding 1)
  have hpc : (![4 - 1 * 256, 1, 0, 0] : Limbs Felt) = u32ToLimbs vm.pc :=
    congrArg Prod.fst hsimulates.final
  have hbytes : Bytes ![4 - 1 * 256, 1, 0, 0] := hpc ▸ bytes_u32ToLimbs vm.pc
  exact absurd (hbytes 0) (by decide)

end Lui

end Loquela.Soundness
