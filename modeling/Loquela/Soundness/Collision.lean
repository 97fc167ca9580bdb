import Loquela.Completeness.ProgramHash
import Loquela.Soundness.Absorption
import Loquela.Soundness.Steps

/-! # The public values bind the program

Two programs with the same public values make the sponge hit two inputs of the permutation whose
outputs agree in all digest lanes or in all capacity lanes. The ROM of an accepted trace set holds
one program, whose public values are those of the proof, so a proof can stand for two programs only
if it exhibits such a collision.
-/

namespace Loquela.Soundness
open Air Completeness Library Library.Bus Trace
open Vm (Byte)

section Permutation

/-- Fifth roots: 5 is prime to the order of the multiplicative group. -/
theorem fifth_root (x : Felt) : (x ^ 5) ^ 1717986917 = x := by
  rw [← pow_mul, show 5 * 1717986917 = (modulus - 1) * 4 + 1 by norm_num, pow_succ, pow_mul]
  by_cases hx : x = 0
  · rw [hx, mul_zero]
  · rw [ZMod.pow_card_sub_one_eq_one hx, one_pow, one_mul]

theorem pow_five_bijective : Function.Bijective fun x : Felt => x ^ 5 := by
  refine Function.bijective_iff_has_inverse.mpr ⟨fun x => x ^ 1717986917, fifth_root, fun x => ?_⟩
  show (x ^ 1717986917) ^ 5 = x
  rw [← pow_mul, mul_comm, pow_mul, fifth_root]

theorem sbox_bijective (rc : Felt) : Function.Bijective fun x : Felt => (x + rc) ^ 5 :=
  pow_five_bijective.comp (Equiv.addRight rc).bijective

variable (P : Poseidon2 Felt)

theorem fullRound_bijective (hexternal : Function.Bijective P.externalLinearLayer)
    (rc : SpongeState Felt) : Function.Bijective fun s => P.fullRound s rc :=
  hexternal.comp (Function.Bijective.piMap fun i => sbox_bijective (rc i))

theorem partialRound_bijective (hinternal : Function.Bijective P.internalLinearLayer) (rc : Felt) :
    Function.Bijective fun s => P.partialRound s rc := by
  have hlane : Function.Bijective fun s : SpongeState Felt =>
      Function.update s 0 ((s 0 + rc) ^ 5) := by
    have heq : (fun s : SpongeState Felt => Function.update s 0 ((s 0 + rc) ^ 5)) =
        Pi.map (Function.update (fun _ => id) 0 fun x : Felt => (x + rc) ^ 5) := by
      funext s i
      by_cases hi : i = 0
      · rw [hi, Function.update_self, Pi.map_apply, Function.update_self]
      · rw [Function.update_of_ne hi, Pi.map_apply, Function.update_of_ne hi, id]
    rw [heq]
    refine Function.Bijective.piMap fun i => ?_
    by_cases hi : i = 0
    · rw [hi, Function.update_self]
      exact sbox_bijective rc
    · rw [Function.update_of_ne hi]
      exact Function.bijective_id
  exact hinternal.comp hlane

theorem foldl_bijective {S A : Type*} {f : S → A → S}
    (hf : ∀ a, Function.Bijective fun s => f s a) (l : List A) :
    Function.Bijective fun s => l.foldl f s := by
  induction l with
  | nil => exact Function.bijective_id
  | cons a l ih => exact ih.comp (hf a)

/-- With S-boxes of degree 5 and invertible linear layers, `permute_in_host` is a permutation. -/
theorem permute_bijective (P : Poseidon2 Felt) (hexternal : Function.Bijective P.externalLinearLayer)
    (hinternal : Function.Bijective P.internalLinearLayer) : Function.Bijective P.permute := by
  have hinitial : Function.Bijective fun s => (List.ofFn P.rcExternalInitial).foldl P.fullRound s :=
    foldl_bijective (fullRound_bijective P hexternal) _
  have hmiddle : Function.Bijective fun s => (List.ofFn P.rcInternal).foldl P.partialRound s :=
    foldl_bijective (partialRound_bijective P hinternal) _
  have hfinal : Function.Bijective fun s => (List.ofFn P.rcExternalFinal).foldl P.fullRound s :=
    foldl_bijective (fullRound_bijective P hexternal) _
  have hpermute : P.permute = (fun s => (List.ofFn P.rcExternalFinal).foldl P.fullRound s) ∘
      (fun s => (List.ofFn P.rcInternal).foldl P.partialRound s) ∘
        (fun s => (List.ofFn P.rcExternalInitial).foldl P.fullRound s) ∘
          P.externalLinearLayer := by
    funext s
    simp only [Poseidon2.permute, Function.comp_apply]
  rw [hpermute]
  exact hfinal.comp (hmiddle.comp (hinitial.comp hexternal))

/-- An external layer: the sum of its column over the four chunks is added to every lane. -/
def columnSums (s : SpongeState Felt) : SpongeState Felt := fun i =>
  s i + ∑ k : Fin 4, s (finProdFinEquiv (k, Fin.modNat (m := 4) (n := 4) i))

theorem columnSums_bijective : Function.Bijective columnSums := by
  refine Finite.injective_iff_bijective.mp fun s t h => ?_
  have hlane : ∀ r k : Fin 4, s (finProdFinEquiv (k, r)) + ∑ j : Fin 4, s (finProdFinEquiv (j, r)) =
      t (finProdFinEquiv (k, r)) + ∑ j : Fin 4, t (finProdFinEquiv (j, r)) := by
    intro r k
    have hcolumn : Fin.modNat (finProdFinEquiv (k, r)) = r :=
      congrArg Prod.snd (finProdFinEquiv.symm_apply_apply (k, r))
    have hk := congrFun h (finProdFinEquiv (k, r))
    rwa [columnSums, columnSums, hcolumn] at hk
  funext i
  obtain ⟨⟨k, r⟩, rfl⟩ := (finProdFinEquiv (m := 4) (n := 4)).surjective i
  have hsum : 5 * ∑ j : Fin 4, s (finProdFinEquiv (j, r)) =
      5 * ∑ j : Fin 4, t (finProdFinEquiv (j, r)) := by
    have hcolumn := Finset.sum_congr (Eq.refl Finset.univ) fun j _ => hlane r j
    rw [Finset.sum_add_distrib, Finset.sum_add_distrib, Finset.sum_const, Finset.sum_const,
      Finset.card_univ, Fintype.card_fin, nsmul_eq_mul, nsmul_eq_mul] at hcolumn
    push_cast at hcolumn
    linear_combination hcolumn
  have hk := hlane r k
  rwa [mul_left_cancel₀ (by decide) hsum, add_left_inj] at hk

/-- An internal layer: to every lane, times its power of two, the sum of all lanes is added. -/
def diagonalSums (s : SpongeState Felt) : SpongeState Felt := fun i =>
  2 ^ (i : ℕ) * s i + ∑ j, s j

theorem diagonalSums_bijective : Function.Bijective diagonalSums := by
  refine Finite.injective_iff_bijective.mp fun s t h => ?_
  have hlane : ∀ i : Fin 16, 2 ^ (i : ℕ) * (s i - t i) = ∑ j, t j - ∑ j, s j := by
    intro i
    have hi : 2 ^ (i : ℕ) * s i + ∑ j, s j = 2 ^ (i : ℕ) * t i + ∑ j, t j := congrFun h i
    linear_combination hi
  have hscaled : ∀ i : Fin 16, 2 ^ 15 * (s i - t i) =
      2 ^ (15 - (i : ℕ)) * (∑ j, t j - ∑ j, s j) := by
    intro i
    rw [← hlane i, ← mul_assoc, pow_sub_mul_pow _ (by omega)]
  have hsum : (2 ^ 15 + (2 ^ 16 - 1)) * ∑ j, s j = (2 ^ 15 + (2 ^ 16 - 1)) * ∑ j, t j := by
    have hweights : ∑ i : Fin 16, (2 : Felt) ^ (15 - (i : ℕ)) = 2 ^ 16 - 1 := by decide
    have htotal := Finset.sum_congr (Eq.refl Finset.univ) fun i _ => hscaled i
    rw [← Finset.mul_sum, ← Finset.sum_mul, Finset.sum_sub_distrib, hweights] at htotal
    linear_combination htotal
  funext i
  have hi := hlane i
  rw [mul_left_cancel₀ (by decide) hsum, sub_self, mul_eq_zero, sub_eq_zero] at hi
  exact hi.resolve_left (pow_ne_zero _ (by decide))

/-- Layers of the kind the upstream permutation has. -/
theorem permute_bijective_sums : Function.Bijective
    (Poseidon2.permute ⟨columnSums, diagonalSums, fun _ _ => 1, fun _ => 1, fun _ _ => 1⟩) :=
  permute_bijective _ columnSums_bijective diagonalSums_bijective

end Permutation

section Sponge

/-- The lanes the digest is read from. -/
def digestLanes (s : SpongeState Felt) : Fin 8 → Felt := fun i => s (i.castLE rate_le)

/-- The lanes nothing is absorbed into. -/
def capacityLanes (s : SpongeState Felt) : Fin 8 → Felt := fun i => s (i.natAdd 8)

/-- The lanes of a row added to the rate lanes of a state. -/
def addLanes (s : SpongeState Felt) (lanes : Fin 8 → Felt) : SpongeState Felt := fun g =>
  if h : (g : ℕ) < 8 then s g + lanes ⟨g, h⟩ else s g

theorem capacityLanes_addLanes (s : SpongeState Felt) (lanes : Fin 8 → Felt) :
    capacityLanes (addLanes s lanes) = capacityLanes s := by
  funext i
  exact dif_neg (by simp)

theorem addLanes_injective (s : SpongeState Felt) : Function.Injective (addLanes s) := by
  intro l l' h
  funext g
  have hlane := congrFun h (g.castLE rate_le)
  have hg : ((g.castLE rate_le : Fin 16) : ℕ) < 8 := g.isLt
  rw [addLanes, addLanes, dif_pos hg, dif_pos hg] at hlane
  exact add_left_cancel hlane

theorem absorbRow_eq_addLanes (program : List Byte) (s : SpongeState Felt) (row : ℕ) :
    Host.absorbRow program s row = addLanes s (lane program row) := by
  funext g
  rw [Host.absorbRow, addLanes]
  split_ifs <;> rfl

/-- The lanes of all rows. -/
def lanes (program : List Byte) : List (Fin 8 → Felt) :=
  (List.range (numRealRows program)).map (lane program)

theorem spongePass_eq_lanes (permute : SpongeState Felt → SpongeState Felt) (program : List Byte) :
    Host.spongePass permute program = Sponge.passes addLanes permute 0 (lanes program) := by
  have habsorb : Host.absorbRow program = fun s row => addLanes s (lane program row) := by
    funext s row
    exact absorbRow_eq_addLanes program s row
  rw [lanes, Sponge.passes_map, Host.spongePass_eq_passes, habsorb]

theorem sponge_eq_lanes (permute : SpongeState Felt → SpongeState Felt) (program : List Byte) :
    Host.sponge permute program = Sponge.state addLanes permute 0 (lanes program) := by
  rw [← Sponge.passes_fst, ← spongePass_eq_lanes, Host.sponge_eq_state,
    Host.spongePass_eq_passes, Sponge.passes_fst]

theorem eq_of_lanes_eq {B B' : List Byte} (hlength : B.length = B'.length)
    (h : lanes B = lanes B') : B = B' := by
  apply eq_of_lanes hlength
  intro row hrow g
  have hrows : numRealRows B = numRealRows B' := by rw [numRealRows, numRealRows, hlength]
  have hrow' := congrArg (fun l => l[row]?) h
  simp only [lanes, List.getElem?_map, List.getElem?_range hrow,
    List.getElem?_range (hrows ▸ hrow), Option.map_some, Option.some.injEq] at hrow'
  exact congrFun hrow' g

/-- Two programs of one length and one digest collide in the passes of some row. -/
theorem collides_of_digest (permute : SpongeState Felt → SpongeState Felt) {B B' : List Byte}
    (hne : B ≠ B') (hlength : B.length = B'.length)
    (hdigest : (Host.computeProgramDigest permute B).1 = (Host.computeProgramDigest permute B').1) :
    ∃ (row : ℕ) (p q p' q' : SpongeState Felt),
      (Host.spongePass permute B).2[row]? = some (p, p') ∧
      (Host.spongePass permute B').2[row]? = some (q, q') ∧
      Sponge.Collides permute digestLanes capacityLanes p q := by
  have hdigest : digestLanes (Host.sponge permute B) = digestLanes (Host.sponge permute B') :=
    hdigest
  rw [sponge_eq_lanes, sponge_eq_lanes] at hdigest
  rw [spongePass_eq_lanes, spongePass_eq_lanes]
  apply Sponge.exists_collides capacityLanes_addLanes addLanes_injective _ _ (.inl hdigest)
  · rw [lanes, lanes, List.length_map, List.length_map, List.length_range, List.length_range,
      numRealRows, numRealRows, hlength]
  · exact fun h => hne (eq_of_lanes_eq hlength h)

/-- Different programs with the same public values collide: at some row of their sponges the
permutation has two inputs whose outputs agree in all digest lanes or in all capacity lanes. -/
theorem digest_collision (permute : SpongeState Felt → SpongeState Felt) (B B' : List Byte)
    (hB : B.length < modulus) (hB' : B'.length < modulus) (hne : B ≠ B')
    (h : (Host.publicValues permute B : PublicValues Felt) = Host.publicValues permute B') :
    ∃ (row : ℕ) (p q p' q' : SpongeState Felt),
      (Host.spongePass permute B).2[row]? = some (p, p') ∧
      (Host.spongePass permute B').2[row]? = some (q, q') ∧
      Sponge.Collides permute digestLanes capacityLanes p q := by
  have hlength := congrArg PublicValues.length h
  have hword : ∀ {n : ℕ}, n < modulus → (BitVec.ofNat 32 n).toNat = n := by
    intro n hn
    rw [BitVec.toNat_ofNat, Nat.mod_eq_of_lt (hn.trans (by norm_num))]
  simp only [Host.publicValues, Host.computeProgramDigest, Host.fromU32, hword hB, hword hB']
    at hlength
  exact collides_of_digest permute hne (natCast_inj_of_lt hB hB' hlength)
    (congrArg PublicValues.digest h)

/-- A permutation that forgets everything. -/
theorem digest_collision_forgetful : ∃ (row : ℕ) (p q p' q' : SpongeState Felt),
    (Host.spongePass (fun _ => 0) [0]).2[row]? = some (p, p') ∧
      (Host.spongePass (fun _ => 0) [1]).2[row]? = some (q, q') ∧
      Sponge.Collides (fun _ => 0) digestLanes capacityLanes p q :=
  digest_collision (fun _ => 0) [0] [1] (by decide) (by decide) (by decide) rfl

end Sponge

section TraceSets

variable {P : Poseidon2 Felt} {T : TraceSet Felt}

/-- The tables of the program hash. -/
def hashTables (T : TraceSet Felt) : HashTables Felt :=
  ⟨T.program, T.programHash, T.programHashPublicValues, T.poseidon2Chip, T.bytes, T.rows⟩

theorem hashTables_eval (h : T.Accepted P) : (hashTables T).Eval P :=
  ⟨h.eval.program, h.eval.programHash, h.eval.poseidon2Chip, h.eval.rows⟩

theorem hashTables_length (h : T.Accepted P) :
    24 * T.programHash.length + (T.rows.flatMap InstrRow.lookups).length < modulus := by
  have hhash : (programHashLookups T.programHash).length = 49 * T.programHash.length := by
    simp [programHashLookups, ProgramHashColumns.lookups, mul_comm]
  have hlength := h.interactions
  simp only [TraceSet.lookups, List.length_append, hhash] at hlength
  omega

theorem hashTables_balanced (h : T.Accepted P) : ∀ bus ∈ hashBuses, ∀ values,
    net (hashTables T).lookups bus values = 0 := by
  intro bus hbus values
  have hnet := (net_traceSet T bus values).symm.trans (h.balanced bus values)
  have hrows (hne : bus ∉ .trace :: .memory :: (decodeBuses ++ tableBuses)) :=
    net_of_notMem (rows_bus T.rows) hne values
  have hprogram (hne : bus ∉ [.program, .programImage]) :=
    net_of_notMem (program_bus T.program) hne values
  have hchip (hne : bus ∉ [.poseidon2Perm]) := net_of_notMem (chip_bus T.poseidon2Chip) hne values
  have hbytes (hne : bytesAir.bus ≠ bus) := net_table_of_ne hne T.bytes values
  simp only [HashTables.lookups, hashTables, net_append]
  simp only [hashBuses, List.mem_cons, List.not_mem_nil, or_false] at hbus
  rcases hbus with rfl | rfl | rfl
  · rw [hrows (by decide), hchip (by decide), hbytes (by decide), add_zero, add_zero, add_zero]
    exact hnet
  · simp only [net_tableLookups] at hnet
    rw [hprogram (by decide), hchip (by decide)]
    linear_combination hnet
  · rw [hrows (by decide), hprogram (by decide), hbytes (by decide), add_zero, add_zero, zero_add]
    exact hnet

theorem publicValues_ext {x y : PublicValues Felt} (hdigest : x.digest = y.digest)
    (hlength : x.length = y.length) : x = y := by
  cases x
  cases y
  cases hdigest
  cases hlength
  rfl

theorem publicValues_length {B : List Byte} (hB : B.length < modulus) :
    (publicValues P B).length = (B.length : Felt) := by
  rw [publicValues, computeProgramDigest, BitVec.toNat_ofNat,
    Nat.mod_eq_of_lt (hB.trans (by norm_num))]

theorem length_of_publicValues {B B' : List Byte} (hB : B.length < modulus)
    (hB' : B'.length < modulus) (h : publicValues P B = publicValues P B') :
    B.length = B'.length := by
  have hlength := congrArg PublicValues.length h
  rw [publicValues_length hB, publicValues_length hB'] at hlength
  exact natCast_inj_of_lt hB hB' hlength

/-- The ROM of an accepted trace set holds a program, and the public values are its own. -/
theorem exists_program_of_accepted (h : T.Accepted P) (hne : T.programHash ≠ []) :
    ∃ B : List Byte, Holding T.program B ∧ B.length < modulus ∧
      T.programHashPublicValues = publicValues P B := by
  have heval := hashTables_eval h
  have hcount := hashTables_length h
  have hbalanced := hashTables_balanced h
  have hheight := program_length_lt h
  have hrom : romBytes T.program = hashBytes T.programHash :=
    (hashTables T).romBytes_eq heval hheight hcount hbalanced
  have hrange : hashBytes T.programHash ∈
      Set.range (List.map fun b : Byte => (b.toNat : Felt)) := by
    rw [Set.range_list_map]
    intro v hv
    obtain ⟨b, rfl⟩ := (hashTables T).exists_byte heval hcount hbalanced v hv
    exact ⟨b, rfl⟩
  obtain ⟨B, hB⟩ := hrange
  have hholding : Holding T.program B := hrom.trans hB.symm
  have hlength : B.length < modulus := (length_le_of_holding hholding).trans_lt hheight
  refine ⟨B, hholding, hlength, ?_⟩
  have hlength' : T.programHashPublicValues.length = (publicValues P B).length := by
    rw [publicLength_eq hne h.eval.programHash, ← hB, List.length_map, publicValues_length hlength]
  have hdigest : T.programHashPublicValues.digest = (publicValues P B).digest := by
    obtain ⟨c, rest, hrows⟩ := List.exists_cons_of_ne_nil hne
    have hlink : Linked (c :: rest) := hrows ▸ .of_eval h.eval.programHash
    have hperm : ∀ r ∈ T.programHash, r.flag = 1 → r.permOut = P.permute r.permIn :=
      (hashTables T).permOut_eq heval hcount hbalanced
    have hfirst := h.eval.programHash.2.1
    rw [hrows] at hperm hfirst hB
    funext i
    rw [← (hfirst c rfl).2.2 i, state_eq_sponge hlink hperm hB.symm]
    rfl
  exact publicValues_ext hdigest hlength'

theorem collides_of_publicValues {B B' : List Byte} (hne : B ≠ B') (hB : B.length < modulus)
    (hB' : B'.length < modulus) (h : publicValues P B = publicValues P B') :
    ∃ (row : ℕ) (p q p' q' : SpongeState Felt),
      (Host.spongePass P.permute B).2[row]? = some (p, p') ∧
      (Host.spongePass P.permute B').2[row]? = some (q, q') ∧
      Sponge.Collides P.permute digestLanes capacityLanes p q := by
  apply collides_of_digest P.permute hne (length_of_publicValues hB hB' h)
  rw [computeProgramDigest_permute, computeProgramDigest_permute]
  exact congrArg PublicValues.digest h

/-- Two accepted trace sets with the same public values hold the same program in ROM, or the two
programs make the permutation collide. -/
theorem public_values_bind_rom (P : Poseidon2 Felt) (T T' : TraceSet Felt) (h : T.Accepted P)
    (h' : T'.Accepted P) (hne : T.programHash ≠ []) (hne' : T'.programHash ≠ [])
    (hvalues : T.programHashPublicValues = T'.programHashPublicValues) :
    ∃ B B' : List Byte, Holding T.program B ∧ Holding T'.program B' ∧
      (B = B' ∨ ∃ (row : ℕ) (p q p' q' : SpongeState Felt),
        (Host.spongePass P.permute B).2[row]? = some (p, p') ∧
        (Host.spongePass P.permute B').2[row]? = some (q, q') ∧
        Sponge.Collides P.permute digestLanes capacityLanes p q) := by
  obtain ⟨B, hB, hlength, hpublic⟩ := exists_program_of_accepted h hne
  obtain ⟨B', hB', hlength', hpublic'⟩ := exists_program_of_accepted h' hne'
  refine ⟨B, B', hB, hB', ?_⟩
  by_cases heq : B = B'
  · exact .inl heq
  · exact .inr (collides_of_publicValues heq hlength hlength'
      (hpublic.symm.trans (hvalues.trans hpublic')))

/-- The honest step and the one with the forged carry. -/
theorem public_values_bind_rom_lui : ∃ B B' : List Byte,
    Holding (carriedTraces ⟨id, id, 0, 0, 0⟩ 0).program B ∧
    Holding (carriedTraces ⟨id, id, 0, 0, 0⟩ 1).program B' ∧
      (B = B' ∨ ∃ (row : ℕ) (p q p' q' : SpongeState Felt),
        (Host.spongePass (Poseidon2.permute ⟨id, id, 0, 0, 0⟩) B).2[row]? = some (p, p') ∧
        (Host.spongePass (Poseidon2.permute ⟨id, id, 0, 0, 0⟩) B').2[row]? = some (q, q') ∧
        Sponge.Collides (Poseidon2.permute ⟨id, id, 0, 0, 0⟩) digestLanes capacityLanes p q) :=
  public_values_bind_rom ⟨id, id, 0, 0, 0⟩ (carriedTraces ⟨id, id, 0, 0, 0⟩ 0)
    (carriedTraces ⟨id, id, 0, 0, 0⟩ 1) (carriedTraces_accepted _ (.inl rfl))
    (carriedTraces_accepted _ (.inr rfl)) (List.cons_ne_nil _ _) (List.cons_ne_nil _ _) rfl

end TraceSets

end Loquela.Soundness
