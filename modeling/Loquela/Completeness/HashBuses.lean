import Loquela.Completeness.ProgramHash

/-! # The hash tables of the prover

The tables the prover builds for the program hash satisfy their constraints, and balance against
the ROM and against each other.
-/

namespace Loquela.Completeness
open Air Library.Bus Soundness Trace
open Vm (Byte)

variable {P : Poseidon2 Felt} {program : List Byte} {hash : List (ProgramHashColumns Felt)}

section Rows

variable (hhash : buildProgramHash P program = some hash) (hlength : program.length < 2 ^ 24)
include hhash hlength

/-- The rows of the prover are those of the host. -/
theorem hash_eq_rows : hash =
    (List.range (height (numRealRows program + 1))).map (Host.row P.permute program) := by
  have hhost := buildTrace_permute P hlength
  rw [Host.buildTrace, hhash] at hhost
  split_ifs at hhost with hempty
  · cases hhost
  · exact (congrArg Host.ProgramHashTrace.main (Option.some.inj hhost)).symm

theorem hash_eval : programHashEval hash (publicValues P program) := by
  have hpublic : publicValues P program = Host.publicValues P.permute program := by
    rw [publicValues, Host.publicValues, computeProgramDigest_permute]
    rfl
  rw [hash_eq_rows hhash hlength, hpublic]
  exact programHashEval_rows P.permute hlength

theorem selected_hash_image : selected .send .programImage (programHashLookups hash) =
    program.mapIdx fun i b => [(i : Felt), (b.toNat : Felt)] := by
  rw [hash_eq_rows hhash hlength]
  exact selected_rows P.permute hlength

/-- Every real row claims the permutation of its input. -/
theorem hash_permOut : ∀ c ∈ hash, c.flag = 1 → c.permOut = P.permute c.permIn := by
  rw [hash_eq_rows hhash hlength]
  intro c hc hflag
  obtain ⟨r, -, rfl⟩ := List.mem_map.mp hc
  have hreal : r < numRealRows program := by
    by_contra hpadding
    rw [row_flag, if_neg hpadding] at hflag
    exact zero_ne_one hflag
  rw [row_permOut, row_permIn P.permute program hreal, stateFrom_of_real P.permute program hreal,
    Host.absorbRow_eq]

theorem permInputs_hash : permInputs P program =
    (hash.filter fun c => c.flag = 1).map ProgramHashColumns.permIn := by
  rw [hash_eq_rows hhash hlength, ← permInputs_eq, spongePass_permute]
  rfl

/-- The real rows send their permutations to the chip. -/
theorem selected_hash_perm : selected .send .poseidon2Perm (programHashLookups hash) =
    (permInputs P program).map fun input => List.ofFn input ++ List.ofFn (P.permute input) := by
  have hrows : ∀ rows : List (ProgramHashColumns Felt),
      (∀ c ∈ rows, c.flag = 1 → c.permOut = P.permute c.permIn) →
      selected .send .poseidon2Perm (programHashLookups rows) =
        ((rows.filter fun c => c.flag = 1).map ProgramHashColumns.permIn).map fun input =>
          List.ofFn input ++ List.ofFn (P.permute input) := by
    intro rows h
    induction rows with
    | nil => rfl
    | cons c rows ih =>
      have ih := ih fun c hc => h c (.tail _ hc)
      rw [programHashLookups] at ih ⊢
      rw [List.flatMap_cons, selected_append, ih, selected_poseidon2Perm]
      by_cases hflag : c.flag = 1
      · rw [if_pos hflag, h c (.head _) hflag, List.filter_cons_of_pos (by simpa using hflag)]
        rfl
      · rw [if_neg hflag, List.filter_cons_of_neg (by simpa using hflag)]
        rfl
  rw [permInputs_hash hhash hlength]
  exact hrows hash (hash_permOut hhash hlength)

end Rows

section Chip

variable (P) (inputs : List (SpongeState Felt))

theorem chip_eval : ∀ c ∈ buildPoseidon2Chip P inputs, c.eval P := by
  intro c hc
  rcases List.mem_append.mp hc with hc | hc
  · obtain ⟨input, -, rfl⟩ := List.mem_map.mp hc
    rfl
  · rw [List.eq_of_mem_replicate hc]
    rfl

theorem chip_lookups {x : Air.Interaction Felt}
    (hx : x ∈ (buildPoseidon2Chip P inputs).flatMap Poseidon2Columns.lookups) :
    x.direction = .receive ∧ (x.multiplicity = 0 ∨ x.multiplicity = 1) := by
  obtain ⟨c, -, hx⟩ := List.mem_flatMap.mp hx
  rw [List.mem_singleton.mp hx]
  exact ⟨rfl, (ite_eq_or_eq _ _ _).symm⟩

theorem selected_chip : selected .receive .poseidon2Perm
    ((buildPoseidon2Chip P inputs).flatMap Poseidon2Columns.lookups) =
      inputs.map fun input => List.ofFn input ++ List.ofFn (P.permute input) := by
  have hblank : selected .receive .poseidon2Perm
      (Poseidon2Columns.lookups ⟨0, P.permute 0, false⟩) = [] := by
    simp [Poseidon2Columns.lookups]
  rw [buildPoseidon2Chip, selected_padded hblank, ← List.flatMap_singleton' (inputs.map _),
    List.flatMap_map]
  apply List.flatMap_congr
  intro input _
  simp [Poseidon2Columns.lookups]

end Chip

section Balance

variable (hhash : buildProgramHash P program = some hash) (hlength : program.length < 2 ^ 24)
include hhash hlength

/-- The chip receives the permutations of the hash rows. -/
theorem net_poseidon2Perm (values : List Felt) :
    net (programHashLookups hash) .poseidon2Perm values +
      net ((buildPoseidon2Chip P (permInputs P program)).flatMap Poseidon2Columns.lookups)
        .poseidon2Perm values = 0 := by
  have hreceived : selected .receive .poseidon2Perm (programHashLookups hash) = [] := by
    apply selected_eq_nil_of_direction
    intro x hx
    rw [hash_direction hx]
    nofun
  have hsent : selected .send .poseidon2Perm
      ((buildPoseidon2Chip P (permInputs P program)).flatMap Poseidon2Columns.lookups) = [] := by
    apply selected_eq_nil_of_direction
    intro x hx
    rw [(chip_lookups P _ hx).1]
    nofun
  rw [← net_append]
  apply net_eq_zero_of_perm
  · intro x hx _
    rcases List.mem_append.mp hx with hx | hx
    · exact Completeness.hash_boolean hhash x hx
    · exact (chip_lookups P _ hx).2
  · rw [selected_append, selected_append, hreceived, hsent, List.append_nil, List.nil_append,
      selected_hash_perm hhash hlength, selected_chip]

/-- A ROM with the bytes of the program receives them from the hash rows. -/
theorem net_image {rom : List (ProgramColumns Felt)}
    (hreal : ∀ c ∈ rom, c.isReal = 0 ∨ c.isReal = 1)
    (hrom : selected .receive .programImage (programLookups rom) =
      program.mapIdx fun i b => [(i : Felt), (b.toNat : Felt)]) (values : List Felt) :
    net (programLookups rom) .programImage values +
      net (programHashLookups hash) .programImage values = 0 := by
  rw [add_comm, ← net_append]
  apply net_programImage (Completeness.hash_boolean hhash) hreal
  rw [selected_hash_image hhash hlength, hrom]

end Balance

end Loquela.Completeness
