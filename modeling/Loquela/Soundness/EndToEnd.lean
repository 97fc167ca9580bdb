import Loquela.Soundness.Collision
import Loquela.Soundness.Execution
import Loquela.Vm.Refinement

/-! # What a proof says about its public values

The public values of a sound trace set are those of a program, its real rows are the first steps of
that program, and where no step leaves a result in `x0` they are steps of the RV32I machine. Two
sound trace sets with the same public values either exhibit a collision or tell of one run, the
shorter one of a prefix of it.
-/

namespace Loquela.Soundness
open Air Completeness Library Library.Iteration Trace
open Rv32i hiding bit
open Vm (Byte Clean MemoryOperation VM)

/-- An accepted trace set that is filled in as intended. -/
structure Sound (P : Poseidon2 Felt) (T : TraceSet Felt) : Prop where
  accepted : T.Accepted P
  hashed : T.programHash ≠ []
  intended : Intended T
  compared : (memoryTables T).Compared

section Runs

variable {P : Poseidon2 Felt} {T : TraceSet Felt} {vm vm' : VM} {m n : ℕ}

/-- Machines of one run at one time are one machine. -/
theorem eq_of_timestamp (h : vm.steps m = some vm') (htime : vm.timestamp = vm'.timestamp) :
    vm = vm' := by
  obtain rfl : m = 0 := by
    have := (Vm.timestamp_bounds h).1
    omega
  exact Option.some.inj h

/-- Of two prefixes of a run one is a prefix of the other. -/
theorem steps_of_le {start : VM} (h : start.steps m = some vm) (h' : start.steps n = some vm')
    (hmn : m ≤ n) : vm.steps (n - m) = some vm' := by
  rw [Vm.steps_eq_iterate] at h h' ⊢
  obtain ⟨mid, hmid, hrest⟩ := exists_prefix h' hmn
  rwa [← Option.some.inj (hmid.symm.trans h)]

/-- The program of a sound trace set, which its public values are of, and its run. -/
theorem Sound.exists_simulates (h : Sound P T) : ∃ B chain vm, Holding T.program B ∧
    B.length < modulus ∧ T.programHashPublicValues = publicValues P B ∧
      Simulates T B chain vm := by
  obtain ⟨B, hrom, hlength, hvalues⟩ := exists_program_of_accepted h.accepted h.hashed
  obtain ⟨chain, vm, hsimulates⟩ := simulates_of_intended h.accepted hrom h.intended h.compared
  exact ⟨B, chain, vm, hrom, hlength, hvalues, hsimulates⟩

end Runs

section Built

variable {P : Poseidon2 Felt} {program : List Byte} {xs : List Executed} {n : ℕ} {vm : VM}
  {T : TraceSet Felt}

theorem sound_of_built (h : ProvableRun program n vm) (hrun : RunOf program xs vm)
    (hlength : xs.length = n) (hT : Built P program xs vm T) (heval : T.Eval P) : Sound P T :=
  have haccepted := accepted_of_built h hrun hT heval
  { accepted := haccepted
    hashed := programHash_ne_nil hT
    intended := intended_of_simulates haccepted (holding_buildProgram hT.rom)
      (simulates_of_built h hrun hlength hT)
    compared := compared_of_built h hrun hT }

/-- Without a return to `x0`, and with padding that continues the log, the traces of a run are
sound. -/
theorem exists_sound (P : Poseidon2 Felt) (h : ProvableRun program n vm)
    (hreturns : ∀ step ∈ vm.trace, ¬ ReturnsToZero step)
    (hfits : height vm.getMemoryOps.length ≠ vm.getMemoryOps.length →
      PaddingFits (vm.getMemoryOps.map MemoryOperation.access)) :
    ∃ t, buildAllTraces P program vm = .ok t ∧
      (toTraceSet t).programHashPublicValues = publicValues P program ∧
      Sound P (toTraceSet t) ∧ ∃ chain, Simulates (toTraceSet t) program chain vm := by
  obtain ⟨xs, t, hrun, hlength, ht, hT⟩ := h.exists_built P
  have heval := (eval_iff h hrun hT).mpr ⟨hreturns, hfits⟩
  exact ⟨t, ht, hT.publicValues, sound_of_built h hrun hlength hT heval, _,
    simulates_of_built h hrun hlength hT⟩

/-- The traces of one step and those of all three. -/
theorem exists_sound_shiftsAndMasks (P : Poseidon2 Felt) : ∃ vm vm' t t',
    (VM.new shiftsAndMasks).steps 1 = some vm ∧ (VM.new shiftsAndMasks).steps 3 = some vm' ∧
      buildAllTraces P shiftsAndMasks vm = .ok t ∧ buildAllTraces P shiftsAndMasks vm' = .ok t' ∧
      Sound P (toTraceSet t) ∧ Sound P (toTraceSet t') ∧
      (toTraceSet t).programHashPublicValues = (toTraceSet t').programHashPublicValues := by
  obtain ⟨vm, h, hreturns, hfits⟩ := provableRun_firstStep
  obtain ⟨vm', h', hreturns', hfull⟩ := provableRun_shiftsAndMasks
  obtain ⟨t, ht, hvalues, hsound, -⟩ := exists_sound P h hreturns fun _ => hfits
  obtain ⟨t', ht', hvalues', hsound', -⟩ :=
    exists_sound P h' hreturns' fun hpadded => absurd hfull hpadded
  exact ⟨vm, vm', t, t', h.steps, h'.steps, ht, ht', hsound, hsound',
    hvalues.trans hvalues'.symm⟩

end Built

/-- The public values of a sound trace set are those of a program, and its real rows the first steps
of that program: of the interpreter, and of the RV32I machine while no step but a jump leaves a
nonzero result in `x0`. -/
theorem sound_rv32i (P : Poseidon2 Felt) (T : TraceSet Felt) (h : Sound P T) :
    ∃ B chain vm, T.programHashPublicValues = publicValues P B ∧ Simulates T B chain vm ∧
      (Clean B chain.length → Reaches B chain.length vm.state) := by
  obtain ⟨B, chain, vm, -, hlength, hvalues, hsimulates⟩ := h.exists_simulates
  refine ⟨B, chain, vm, hvalues, hsimulates, fun hclean => ?_⟩
  have hword : B.length < 2 ^ 32 := hlength.trans (by norm_num)
  exact (hclean.reaches_iff hword le_rfl vm.state).mpr ⟨vm, hsimulates.steps, rfl⟩

/-- Three steps of a program. -/
theorem sound_rv32i_shiftsAndMasks : ∃ vm t B chain vm',
    (VM.new shiftsAndMasks).steps 3 = some vm ∧
      buildAllTraces ⟨id, id, 0, 0, 0⟩ shiftsAndMasks vm = .ok t ∧
      (toTraceSet t).programHashPublicValues = publicValues ⟨id, id, 0, 0, 0⟩ B ∧
      Simulates (toTraceSet t) B chain vm' ∧
        (Clean B chain.length → Reaches B chain.length vm'.state) := by
  obtain ⟨-, vm, -, t, -, hsteps, -, ht, -, hsound, -⟩ :=
    exists_sound_shiftsAndMasks ⟨id, id, 0, 0, 0⟩
  obtain ⟨B, chain, vm', hrun⟩ := sound_rv32i ⟨id, id, 0, 0, 0⟩ (toTraceSet t) hsound
  exact ⟨vm, t, B, chain, vm', hsteps, ht, hrun⟩

/-- Two sound trace sets with the same public values: either the permutation collides on their
programs, or they are of one program and one of the two recorded runs is a prefix of the other. If
they also end at the same time, they end in the same machine. -/
theorem public_values_bind_run (P : Poseidon2 Felt) (T T' : TraceSet Felt) (h : Sound P T)
    (h' : Sound P T') (hvalues : T.programHashPublicValues = T'.programHashPublicValues) :
    (∃ (B B' : List Byte) (row : ℕ) (p q p' q' : SpongeState Felt),
      Holding T.program B ∧ Holding T'.program B' ∧ B ≠ B' ∧
        (Host.spongePass P.permute B).2[row]? = some (p, p') ∧
        (Host.spongePass P.permute B').2[row]? = some (q, q') ∧
        Sponge.Collides P.permute digestLanes capacityLanes p q) ∨
    ∃ B chain chain' vm vm', Simulates T B chain vm ∧ Simulates T' B chain' vm' ∧
      (vm.steps (chain'.length - chain.length) = some vm' ∨
        vm'.steps (chain.length - chain'.length) = some vm) ∧
      ((finalState T.boundaries).2 = (finalState T'.boundaries).2 → vm = vm') := by
  obtain ⟨B, chain, vm, hrom, hlength, hpublic, hsimulates⟩ := h.exists_simulates
  obtain ⟨B', chain', vm', hrom', hlength', hpublic', hsimulates'⟩ := h'.exists_simulates
  have hsame : publicValues P B = publicValues P B' := hpublic.symm.trans (hvalues.trans hpublic')
  by_cases heq : B = B'
  · subst heq
    refine .inr ⟨B, chain, chain', vm, vm', hsimulates, hsimulates', ?_, fun htime => ?_⟩
    · rcases le_total chain.length chain'.length with hle | hle
      · exact .inl (steps_of_le hsimulates.steps hsimulates'.steps hle)
      · exact .inr (steps_of_le hsimulates'.steps hsimulates.steps hle)
    · have hfinal : ((vm.timestamp : ℕ) : Felt) = (vm'.timestamp : ℕ) :=
        (congrArg Prod.snd hsimulates.final).symm.trans
          (htime.trans (congrArg Prod.snd hsimulates'.final))
      have htime : vm.timestamp = vm'.timestamp :=
        natCast_inj_of_lt hsimulates.timestamp hsimulates'.timestamp hfinal
      rcases le_total chain.length chain'.length with hle | hle
      · exact eq_of_timestamp (steps_of_le hsimulates.steps hsimulates'.steps hle) htime
      · exact (eq_of_timestamp (steps_of_le hsimulates'.steps hsimulates.steps hle)
          htime.symm).symm
  · obtain ⟨row, p, q, p', q', hcollides⟩ :=
      collides_of_publicValues heq hlength hlength' hsame
    exact .inl ⟨B, B', row, p, q, p', q', hrom, hrom', heq, hcollides⟩

/-- The traces of one step against those of three. -/
theorem public_values_bind_run_shiftsAndMasks : ∃ vm vm' t t',
    (VM.new shiftsAndMasks).steps 1 = some vm ∧ (VM.new shiftsAndMasks).steps 3 = some vm' ∧
      buildAllTraces ⟨id, id, 0, 0, 0⟩ shiftsAndMasks vm = .ok t ∧
      buildAllTraces ⟨id, id, 0, 0, 0⟩ shiftsAndMasks vm' = .ok t' ∧
    ((∃ (B B' : List Byte) (row : ℕ) (p q p' q' : SpongeState Felt),
      Holding (toTraceSet t).program B ∧ Holding (toTraceSet t').program B' ∧ B ≠ B' ∧
        (Host.spongePass (Poseidon2.permute ⟨id, id, 0, 0, 0⟩) B).2[row]? = some (p, p') ∧
        (Host.spongePass (Poseidon2.permute ⟨id, id, 0, 0, 0⟩) B').2[row]? = some (q, q') ∧
        Sponge.Collides (Poseidon2.permute ⟨id, id, 0, 0, 0⟩) digestLanes capacityLanes p q) ∨
    ∃ B chain chain' vm vm', Simulates (toTraceSet t) B chain vm ∧
      Simulates (toTraceSet t') B chain' vm' ∧
      (vm.steps (chain'.length - chain.length) = some vm' ∨
        vm'.steps (chain.length - chain'.length) = some vm) ∧
      ((finalState (toTraceSet t).boundaries).2 = (finalState (toTraceSet t').boundaries).2 →
        vm = vm')) := by
  obtain ⟨vm, vm', t, t', hone, hthree, ht, ht', hsound, hsound', hvalues⟩ :=
    exists_sound_shiftsAndMasks ⟨id, id, 0, 0, 0⟩
  exact ⟨vm, vm', t, t', hone, hthree, ht, ht', public_values_bind_run ⟨id, id, 0, 0, 0⟩
    (toTraceSet t) (toTraceSet t') hsound hsound' hvalues⟩

end Loquela.Soundness
