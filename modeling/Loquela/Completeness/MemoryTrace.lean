import Loquela.Completeness.Comparisons
import Loquela.Library.OfflineMemory
import Loquela.Vm.Log

/-! # The memory table of a consistent log

The rows built from a consistent log satisfy the constraints, and the comparison tables receive
what they send, but for two seams: where the highest register address is also the lowest RAM
address, and between the last operation and the padding rows.
-/

namespace Loquela.Completeness
open Air Library Library.Bus Library.Replay Soundness Trace
open Library.Prefix
open Vm (MemoryOperation MemoryType U32)

def opAccess (op : MemoryOp) : Access (MemoryType × U32) U32 :=
  ⟨(op.memoryType, op.address), op.timestamp, op.read, op.write⟩

theorem opAccess_ofOperation (o : MemoryOperation) :
    opAccess (MemoryOp.ofOperation o) = o.access := by
  cases o <;> rfl

/-- Registers first, then by address. -/
def cellKey (cell : MemoryType × U32) : ℕ ×ₗ ℕ := toLex (memoryTypeCode cell.1, cell.2.toNat)

theorem memoryTypeCode_injective : Function.Injective memoryTypeCode := by
  intro a b h
  cases a <;> cases b <;> first | rfl | cases h

theorem key_le_iff {a b : MemoryOp} : a.key ≤ b.key ↔
    cellKey (opAccess a).address < cellKey (opAccess b).address ∨
      (opAccess a).address = (opAccess b).address ∧ a.timestamp ≤ b.timestamp := by
  simp only [MemoryOp.key, cellKey, opAccess, Prod.Lex.toLex_le_toLex, Prod.Lex.toLex_lt_toLex,
    Prod.mk.injEq, ← memoryTypeCode_injective.eq_iff, ← BitVec.toNat_inj]
  omega

/-- The operations are given in any order, at distinct times below `2 ^ 24`, and each reads what
the latest earlier operation on its cell left. -/
structure ValidLog (ops : List MemoryOperation) : Prop where
  nonempty : ops ≠ []
  distinct : (ops.map fun o => o.access.time).Nodup
  bounded : ∀ o ∈ ops, o.access.time < 2 ^ 24
  consistent : Consistent 0 (ops.map MemoryOperation.access)

section Sorted

variable {ops : List MemoryOperation}

theorem sortedLog_perm (ops : List MemoryOperation) :
    ((sortOps ops).map opAccess).Perm (ops.map MemoryOperation.access) := by
  apply ((List.mergeSort_perm _ _).map opAccess).trans
  rw [List.map_map]
  exact List.Perm.of_eq (List.map_congr_left fun o _ => opAccess_ofOperation o)

theorem length_sortOps (ops : List MemoryOperation) : (sortOps ops).length = ops.length := by
  rw [sortOps, List.length_mergeSort, List.length_map]

variable (h : ValidLog ops)
include h

theorem timestamps_nodup : ((sortOps ops).map MemoryOp.timestamp).Nodup := by
  have hperm := (sortedLog_perm ops).map Access.time
  rw [List.map_map, List.map_map] at hperm
  exact hperm.nodup_iff.mpr h.distinct

theorem sortedLog_before : ((sortOps ops).map opAccess).Pairwise (Before cellKey) := by
  rw [List.pairwise_map]
  have hdistinct := List.pairwise_map.mp (timestamps_nodup h)
  apply (sortOps_sorted.and hdistinct).imp
  rintro a b ⟨hkey, htime⟩
  rcases key_le_iff.mp hkey with hcell | ⟨hcell, hle⟩
  · exact .inl hcell
  · exact .inr ⟨hcell.symm, lt_of_le_of_ne hle htime⟩

/-- Neighbours continue a cell or open the next one. -/
theorem sortedLog_follows : (∀ op ∈ (sortOps ops).head?, op.read = 0) ∧
    (sortOps ops).IsChain fun a b => Follows cellKey 0 (opAccess a) (opAccess b) := by
  have hconsistent := (consistent_perm (sortedLog_perm ops)).mpr h.consistent
  obtain ⟨hhead, hchain⟩ := follows_of_consistent (sortedLog_before h) hconsistent
  constructor
  · intro op hop
    apply hhead (opAccess op)
    rw [List.head?_map]
    exact Option.mem_map_of_mem opAccess hop
  · exact (List.isChain_map opAccess).mp hchain

end Sorted

section Transitions

/-- A transition only looks at the operation of the next row and at whether it is padding. -/
theorem evalTransition_congr {F : Type*} [Field F] (c next next' : MemoryColumns F)
    (htuple : next.toMemoryTuple = next'.toMemoryTuple)
    (hpadding : next.isPadding = next'.isPadding) :
    c.evalTransition next ↔ c.evalTransition next' := by
  rw [MemoryColumns.evalTransition, htuple, hpadding]
  rfl

/-- The constraints between a row and the next one. -/
def Continues (row next : MemoryTuple Felt × Felt) : Prop :=
  (flagged row next).evalTransition (flagged next next)

theorem isChain_fillFlags {base : List (MemoryTuple Felt × Felt)} :
    (fillFlags base).IsChain MemoryColumns.evalTransition ↔ base.IsChain Continues := by
  induction base with
  | nil => exact ⟨fun _ => List.isChain_nil, fun _ => List.isChain_nil⟩
  | cons row base ih =>
    cases base with
    | nil => exact ⟨fun _ => List.isChain_singleton row, fun _ => List.isChain_singleton _⟩
    | cons next base =>
      obtain ⟨head, rest, hrows, htuple, hpadding⟩ := fillFlags_cons next base
      rw [hrows] at ih
      show (flagged row next :: fillFlags (next :: base)).IsChain _ ↔ _
      rw [hrows, List.isChain_cons_cons, List.isChain_cons_cons, ih,
        evalTransition_congr _ head (flagged next next) htuple hpadding]
      rfl

/-- The constraints on the types of two rows. -/
def TypesContinue (x y : Felt) : Prop :=
  fromBool (decide (x = y)) * (y - x) = 0 ∧
    (1 - fromBool (decide (x = y))) * ((x + y - 1) * (x + y - 2)) = 0 ∧ x * (y - 1) = 0

instance decidableTypesContinue (x y : Felt) : Decidable (TypesContinue x y) :=
  inferInstanceAs (Decidable (_ ∧ _ ∧ _))

/-- The constraints on the words of two rows. -/
def WordsContinue (row next : MemoryTuple Felt) : Prop :=
  ∀ i, (1 - fromBool (decide (row.address = next.address))) * next.read i = 0 ∧
    fromBool (decide (row.address = next.address)) * (next.read i - row.write i) = 0

theorem continues_iff {row next : MemoryTuple Felt × Felt} : Continues row next ↔
    row.2 * (next.2 - 1) = 0 ∧ TypesContinue row.1.memoryType next.1.memoryType ∧
      WordsContinue row.1 next.1 := by
  rw [TypesContinue, and_assoc, and_assoc]
  rfl

/-- Registers come first. -/
theorem typesContinue {a b : MemoryType} (h : memoryTypeCode a ≤ memoryTypeCode b) :
    TypesContinue (memoryTypeCode a : ℕ) (memoryTypeCode b : ℕ) := by
  revert h
  cases a <;> cases b <;> decide

theorem typesContinue_zero {a : MemoryType} :
    TypesContinue (memoryTypeCode a : ℕ) 0 ↔ a = .register := by
  cases a <;> decide

theorem wordsContinue_of_ne {row next : MemoryTuple Felt} (h : row.address ≠ next.address) :
    WordsContinue row next ↔ next.read = 0 := by
  rw [WordsContinue, decide_eq_false h, funext_iff]
  apply forall_congr'
  intro i
  simp [fromBool]

theorem wordsContinue_of_eq {row next : MemoryTuple Felt} (h : row.address = next.address) :
    WordsContinue row next ↔ next.read = row.write := by
  rw [WordsContinue, decide_eq_true h, funext_iff]
  apply forall_congr'
  intro i
  simp [fromBool, sub_eq_zero]

theorem code_le_of_follows {a b : MemoryOp}
    (h : Follows cellKey 0 (opAccess a) (opAccess b)) :
    memoryTypeCode a.memoryType ≤ memoryTypeCode b.memoryType := by
  have hkey := h.before.key_le
  rw [cellKey, cellKey, Prod.Lex.toLex_le_toLex] at hkey
  exact hkey.elim le_of_lt fun hkey => hkey.1.le

/-- Neighbours of a consistent log keep the constraints unless the type changes at one address. -/
theorem continues_of_follows {a b : MemoryOp} (h : Follows cellKey 0 (opAccess a) (opAccess b))
    (htype : a.address = b.address → a.memoryType = b.memoryType) :
    Continues (a.tuple, 0) (b.tuple, 0) := by
  apply continues_iff.mpr
  refine ⟨zero_mul _, typesContinue (code_le_of_follows h), ?_⟩
  rcases h with ⟨hcell, -, hread⟩ | ⟨hcell, hread⟩
  · have haddress : a.address = b.address := (congrArg Prod.snd hcell).symm
    exact (wordsContinue_of_eq (congrArg u32ToLimbs haddress)).mpr (congrArg u32ToLimbs hread)
  · have haddress : a.address ≠ b.address := by
      intro haddress
      rw [opAccess, opAccess, haddress, htype haddress] at hcell
      exact lt_irrefl _ hcell
    apply (wordsContinue_of_ne fun h => haddress (u32ToLimbs_inj.mp h)).mpr
    exact (congrArg u32ToLimbs hread).trans u32ToLimbs_zero

/-- The operation of a padding row. -/
abbrev blank : MemoryTuple Felt := ⟨0, 0, 0, 0, 0⟩

theorem blank_continues : Continues (blank, 1) (blank, 1) := by
  apply continues_iff.mpr
  exact ⟨by decide, by decide, (wordsContinue_of_eq rfl).mpr rfl⟩

/-- A padding row may follow a register, and at address 0 only what leaves 0. -/
theorem continues_blank {a : MemoryOp} : Continues (a.tuple, 0) (blank, 1) ↔
    a.memoryType = .register ∧ (a.address = 0 → a.write = 0) := by
  have hlimbs : ∀ x : U32, (0 : Limbs Felt) = u32ToLimbs x ↔ x = 0 := by
    intro x
    rw [← u32ToLimbs_zero, u32ToLimbs_inj, eq_comm]
  have hwords : WordsContinue a.tuple blank ↔ (a.address = 0 → a.write = 0) := by
    by_cases h : a.address = 0
    · rw [wordsContinue_of_eq ((hlimbs _).mpr h).symm, forall_prop_of_true h]
      exact hlimbs a.write
    · rw [wordsContinue_of_ne fun heq => h ((hlimbs _).mp heq.symm), forall_prop_of_false h]
      exact ⟨fun _ => trivial, fun _ => rfl⟩
  rw [continues_iff, hwords]
  constructor
  · rintro ⟨-, htype, hwrite⟩
    exact ⟨typesContinue_zero.mp htype, hwrite⟩
  · rintro ⟨hregister, hwrite⟩
    exact ⟨zero_mul _, typesContinue_zero.mpr hregister, hwrite⟩

end Transitions

/-- One address is both the highest of a register access and the lowest of a RAM access. -/
def TypesMeet (log : List (Access (MemoryType × U32) U32)) : Prop :=
  ∃ r ∈ log, ∃ m ∈ log, r.address.1 = .register ∧ m.address.1 = .ram ∧
    r.address.2 = m.address.2 ∧
    (∀ x ∈ log, x.address.1 = .register → x.address.2.toNat ≤ r.address.2.toNat) ∧
    ∀ x ∈ log, x.address.1 = .ram → m.address.2.toNat ≤ x.address.2.toNat

/-- All accesses are to registers, and if all are to register 0 the latest one leaves 0. -/
def PaddingFits (log : List (Access (MemoryType × U32) U32)) : Prop :=
  ∀ x ∈ log, x.address.1 = .register ∧
    ((∀ y ∈ log, y.address.2 = 0) → (∀ y ∈ log, y.time ≤ x.time) → x.write = 0)

/-- The type changes between two neighbours of the sorted log and the address does not. -/
def Seam (a b : MemoryOp) : Prop := a.address = b.address ∧ a.memoryType ≠ b.memoryType

section Seams

variable {ops : List MemoryOperation}

theorem mem_log_iff {x : Access (MemoryType × U32) U32} :
    x ∈ ops.map MemoryOperation.access ↔ ∃ op ∈ sortOps ops, opAccess op = x := by
  rw [← (sortedLog_perm ops).mem_iff, List.mem_map]

theorem forall_log_iff {P : Access (MemoryType × U32) U32 → Prop} :
    (∀ x ∈ ops.map MemoryOperation.access, P x) ↔ ∀ op ∈ sortOps ops, P (opAccess op) := by
  simp only [mem_log_iff, forall_exists_index, and_imp, forall_apply_eq_imp_iff₂]

theorem exists_log_iff {P : Access (MemoryType × U32) U32 → Prop} :
    (∃ x ∈ ops.map MemoryOperation.access, P x) ↔ ∃ op ∈ sortOps ops, P (opAccess op) := by
  simp only [mem_log_iff, exists_exists_and_eq_and]

theorem cell_le_iff {a b : MemoryOp} :
    cellKey (opAccess a).address ≤ cellKey (opAccess b).address ↔
      memoryTypeCode a.memoryType < memoryTypeCode b.memoryType ∨
        a.memoryType = b.memoryType ∧ a.address.toNat ≤ b.address.toNat := by
  simp only [cellKey, opAccess, Prod.Lex.toLex_le_toLex, memoryTypeCode_injective.eq_iff]

variable (h : ValidLog ops)
include h

/-- The last row of the sorted log is after all others. -/
theorem before_last {last : MemoryOp} (hlast : last ∈ (sortOps ops).getLast?) :
    ∀ op ∈ sortOps ops, op = last ∨ Before cellKey (opAccess op) (opAccess last) := by
  obtain ⟨init, hinit⟩ := List.getLast?_eq_some_iff.mp hlast
  have hbefore := List.pairwise_map.mp (sortedLog_before h)
  rw [hinit] at hbefore ⊢
  intro op hop
  rcases List.mem_append.mp hop with hop | hop
  · exact .inr ((List.pairwise_append.mp hbefore).2.2 op hop last (List.mem_singleton.mpr rfl))
  · exact .inl (List.mem_singleton.mp hop)

theorem cell_le_last {last : MemoryOp} (hlast : last ∈ (sortOps ops).getLast?) :
    ∀ op ∈ sortOps ops, cellKey (opAccess op).address ≤ cellKey (opAccess last).address := by
  intro op hop
  rcases before_last h hlast op hop with rfl | hbefore
  · exact le_refl _
  · exact hbefore.key_le

theorem paddingFits_iff {last : MemoryOp} (hlast : last ∈ (sortOps ops).getLast?) :
    PaddingFits (ops.map MemoryOperation.access) ↔
      last.memoryType = .register ∧ (last.address = 0 → last.write = 0) := by
  have hmem := List.mem_of_mem_getLast? hlast
  have hle := cell_le_last h hlast
  rw [PaddingFits, forall_log_iff]
  simp only [forall_log_iff]
  constructor
  · intro hfits
    refine ⟨(hfits last hmem).1, fun hzero => ?_⟩
    have hall : ∀ op ∈ sortOps ops, op.memoryType = last.memoryType ∧ op.address = 0 := by
      intro op hop
      have htype : op.memoryType = last.memoryType :=
        (hfits op hop).1.trans (hfits last hmem).1.symm
      rcases cell_le_iff.mp (hle op hop) with hlt | ⟨-, haddress⟩
      · rw [htype] at hlt
        exact absurd hlt (lt_irrefl _)
      · rw [hzero] at haddress
        exact ⟨htype, BitVec.eq_of_toNat_eq (Nat.le_zero.mp haddress)⟩
    apply (hfits last hmem).2 (fun op hop => (hall op hop).2)
    intro op hop
    rcases before_last h hlast op hop with rfl | hbefore
    · exact le_refl _
    · apply (hbefore.time_lt _).le
      rw [opAccess, opAccess, (hall op hop).1, (hall op hop).2, hzero]
  · rintro ⟨hregister, hwrite⟩ op hop
    have htype : op.memoryType = .register := by
      rcases cell_le_iff.mp (hle op hop) with hlt | ⟨htype, -⟩
      · rw [hregister] at hlt
        exact absurd hlt (Nat.not_lt_zero _)
      · exact htype.trans hregister
    refine ⟨htype, fun hzero hlatest => ?_⟩
    rcases before_last h hlast op hop with rfl | hbefore
    · exact hwrite (hzero op hop)
    · have haddress : last.address = op.address := (hzero last hmem).trans (hzero op hop).symm
      have hcell : (opAccess last).address = (opAccess op).address := by
        rw [opAccess, opAccess, hregister, htype, haddress]
      exact absurd (hbefore.time_lt hcell) (hlatest last hmem).not_gt

/-- Where the type changes, the last of the registers is followed by the first of the RAM. -/
theorem change_of_neighbours {a b : MemoryOp} (hq : (a, b) ∈ (sortOps ops).zip (sortOps ops).tail)
    (htype : a.memoryType ≠ b.memoryType) : a.memoryType = .register ∧ b.memoryType = .ram ∧
      (∀ op ∈ sortOps ops, op.memoryType = .register → op.address.toNat ≤ a.address.toNat) ∧
      ∀ op ∈ sortOps ops, op.memoryType = .ram → b.address.toNat ≤ op.address.toNat := by
  have hcells : (sortOps ops).Pairwise fun x y =>
      cellKey (opAccess x).address ≤ cellKey (opAccess y).address :=
    (List.pairwise_map.mp (sortedLog_before h)).imp Before.key_le
  have hsplit : ∀ op ∈ sortOps ops, cellKey (opAccess op).address ≤ cellKey (opAccess a).address ∨
      cellKey (opAccess b).address ≤ cellKey (opAccess op).address := by
    intro op hop
    rcases split_at_neighbours hcells hq op hop with (rfl | hle) | rfl | hle
    · exact .inl (le_refl _)
    · exact .inl hle
    · exact .inr (le_refl _)
    · exact .inr hle
  have hcode := cell_le_iff.mp (rel_of_mem_zip_tail hcells (a, b) hq)
  obtain ⟨ha, hb⟩ : a.memoryType = .register ∧ b.memoryType = .ram := by
    rcases hcode with hlt | ⟨heq, -⟩
    · revert hlt
      cases a.memoryType <;> cases b.memoryType <;> decide
    · exact absurd heq htype
  refine ⟨ha, hb, fun op hop hregister => ?_, fun op hop hram => ?_⟩
  · have hcases := hsplit op hop
    simp only [cell_le_iff, ha, hb, hregister, memoryTypeCode] at hcases
    simpa using hcases
  · have hcases := hsplit op hop
    simp only [cell_le_iff, ha, hb, hram, memoryTypeCode] at hcases
    simpa using hcases

/-- A seam is at the highest register address and the lowest RAM address. -/
theorem typesMeet_iff : TypesMeet (ops.map MemoryOperation.access) ↔
    ∃ q ∈ (sortOps ops).zip (sortOps ops).tail, Seam q.1 q.2 := by
  simp only [TypesMeet, exists_log_iff, forall_log_iff]
  constructor
  · rintro ⟨r, hr, m, hm, hregister, hram, haddress, hhighest, hlowest⟩
    have hne : r.memoryType ≠ m.memoryType := by
      rw [show r.memoryType = .register from hregister, show m.memoryType = .ram from hram]
      nofun
    obtain ⟨⟨a, b⟩, hq, htype⟩ := exists_change hr hm hne
    obtain ⟨ha, hb, hlast, hfirst⟩ := change_of_neighbours h hq htype
    obtain ⟨hamem, hbmem⟩ := List.of_mem_zip hq
    have hra := hlast r hr hregister
    have har := hhighest a hamem ha
    have hbm := hfirst m hm hram
    have hmb := hlowest b (List.mem_of_mem_tail hbmem) hb
    refine ⟨(a, b), hq, ?_, htype⟩
    have haddress : r.address = m.address := haddress
    apply BitVec.eq_of_toNat_eq
    calc a.address.toNat = r.address.toNat := le_antisymm har hra
      _ = m.address.toNat := by rw [haddress]
      _ = b.address.toNat := le_antisymm hmb hbm
  · rintro ⟨⟨a, b⟩, hq, haddress, htype⟩
    obtain ⟨ha, hb, hlast, hfirst⟩ := change_of_neighbours h hq htype
    obtain ⟨hamem, hbmem⟩ := List.of_mem_zip hq
    exact ⟨a, hamem, b, List.mem_of_mem_tail hbmem, ha, hb, haddress, hlast, hfirst⟩

end Seams

section Eval

variable {ops : List MemoryOperation} (h : ValidLog ops)
include h

theorem sortOps_ne_nil : sortOps ops ≠ [] := by
  intro hnil
  have hlength := length_sortOps ops
  rw [hnil, List.length_nil] at hlength
  exact h.nonempty (List.eq_nil_of_length_eq_zero hlength.symm)

/-- The other constraints hold in any case. -/
theorem memoryEval_iff :
    memoryEval (fillFlags (memoryRows (F := Felt) ops)) ↔ (memoryRows ops).IsChain Continues := by
  rw [memoryEval, isChain_fillFlags]
  constructor
  · exact fun heval => heval.2.2
  · refine fun hchain => ⟨fun c hc => ?_, fun c hc => ?_, hchain⟩
    · obtain ⟨htype, -, hpadding⟩ := fillFlags_boolean memoryRows_boolean c hc
      exact ⟨assertBool_iff.mpr hpadding, assertBool_iff.mpr htype⟩
    · obtain ⟨first, rest, hfirst⟩ := List.exists_cons_of_ne_nil (sortOps_ne_nil h)
      have hread : first.read = 0 := (sortedLog_follows h).1 first (by rw [hfirst]; rfl)
      obtain ⟨head, tail, hrows, htuple, -⟩ := fillFlags_cons (F := Felt) (first.tuple, 0)
        ((rest.map fun op => (op.tuple, 0)) ++
          List.replicate (height (sortOps ops).length - (sortOps ops).length) (blank, 1))
      have hhead : fillFlags (memoryRows (F := Felt) ops) = head :: tail := by
        rw [← hrows, memoryRows, hfirst]
        rfl
      rw [hhead] at hc
      obtain rfl := Option.some.inj hc
      intro i
      rw [htuple]
      show (u32ToLimbs first.read : Limbs Felt) i = 0
      rw [hread, u32ToLimbs_zero]
      rfl

theorem paddingFits_of_chain (hchain : (memoryRows ops).IsChain Continues)
    (hpadded : height ops.length ≠ ops.length) : PaddingFits (ops.map MemoryOperation.access) := by
  have hlast := List.getLast?_eq_some_getLast (sortOps_ne_nil h)
  rw [paddingFits_iff h hlast, ← continues_blank]
  apply (List.isChain_append.mp hchain).2.2
  · rw [List.getLast?_map, hlast]
    rfl
  · rw [List.head?_replicate, if_neg]
    · rfl
    · rw [length_sortOps]
      have := le_height ops.length
      omega

theorem memoryRows_continue (hseam : ∀ q ∈ (sortOps ops).zip (sortOps ops).tail, ¬ Seam q.1 q.2)
    (hpadding : height ops.length ≠ ops.length → PaddingFits (ops.map MemoryOperation.access)) :
    (memoryRows ops).IsChain Continues := by
  apply List.isChain_append.mpr
  refine ⟨?_, ?_, ?_⟩
  · rw [List.isChain_map, isChain_iff_zip_tail]
    intro q hq
    apply continues_of_follows (isChain_iff_zip_tail.mp (sortedLog_follows h).2 q hq)
    intro haddress
    by_contra htype
    exact hseam q hq ⟨haddress, htype⟩
  · apply List.isChain_replicate_of_rel
    exact blank_continues
  · intro row hrow next hnext
    have hlast := List.getLast?_eq_some_getLast (sortOps_ne_nil h)
    rw [List.getLast?_map, hlast] at hrow
    obtain rfl := Option.some.inj hrow
    rw [List.head?_replicate] at hnext
    split_ifs at hnext with hzero
    · cases hnext
    · obtain rfl := Option.some.inj hnext
      rw [length_sortOps] at hzero
      have hfits := hpadding fun heq => hzero (by omega)
      exact continues_blank.mpr ((paddingFits_iff h hlast).mp hfits)

end Eval

section Buses

variable {ops : List MemoryOperation}

theorem sent_memory (ops : List MemoryOperation) (bus : BusName) (hbus : bus ≠ .memory)
    (v : List Felt) : sent (memoryLookups (fillFlags (memoryRows ops))) bus v =
      ((selected .send bus (memoryLookups (fillFlags (memoryRows (F := Felt) ops)))).count v :
        Felt) := by
  apply sent_eq_count
  intro x hx hxbus hsend
  have hmem : x ∈ (builtTables ops).lookups := by
    rw [MemoryTables.lookups, List.append_assoc, List.append_assoc]
    exact List.mem_append_left _ hx
  exact builtTables_boolean hmem (by rwa [hxbus]) fun _ => hsend

theorem received_u32Lt (entries : List (U32 × U32)) (v : List Felt) :
    received ((buildU32Lt entries).flatMap U32LessThanColumns.lookups) .u32Lt v =
      ((entries.map fun entry => addressTuple entry.1 entry.2).count v : Felt) := by
  rw [← receives_u32Lt, received_eq_count]
  intro x hx hbus _
  obtain ⟨c, hc, hx⟩ := List.mem_flatMap.mp hx
  rcases List.mem_append.mp hx with hx | hx
  · obtain ⟨i, rfl⟩ := List.mem_ofFn.mp hx
    cases hbus
  · rw [List.mem_singleton.mp hx]
    exact (buildU32Lt_boolean c hc).2

theorem received_timestampLt (entries : List (ℕ × ℕ)) (v : List Felt) :
    received ((buildTimestampLt entries).flatMap TimestampLessThanColumns.lookups) .timestampLt v =
      ((entries.map fun entry => timestampTuple entry.1 entry.2).count v : Felt) := by
  rw [← receives_timestampLt, received_eq_count]
  intro x hx _ _
  obtain ⟨c, hc, hx⟩ := List.mem_flatMap.mp hx
  rw [List.mem_singleton.mp hx]
  exact buildTimestampLt_boolean c hc

theorem addresses_agree (ops : List MemoryOperation) (v : List Felt) :
    sent (memoryLookups (fillFlags (memoryRows ops))) .u32Lt v =
      received ((buildU32Lt (u32LtEntries ops)).flatMap U32LessThanColumns.lookups) .u32Lt v := by
  rw [sent_memory ops .u32Lt nofun, sends_u32Lt, received_u32Lt]

theorem bytes_agree (ops : List MemoryOperation) (v : List Felt) :
    sent ((buildU32Lt (u32LtEntries ops)).flatMap U32LessThanColumns.lookups) .bytesLt v =
      received (lessThanAir.lookups (tableMults (bytesLtEntries ops))) .bytesLt v := by
  have hagree := received_eq_sent (net_comparisonLookups (u32LtEntries_le ops) v)
  rw [comparisonLookups, sent_append_left, received_append_right, ← bytesLtEntries_eq] at hagree
  · exact hagree.symm
  · intro x hx hbus
    rcases mem_u32LtLookups hx with ⟨h, -⟩ | ⟨-, h⟩
    · rw [h]
      decide
    · cases hbus.symm.trans h
  · intro x hx _
    obtain ⟨row, -, -, hdirection, -⟩ := Table.mem_lookups hx
    rw [hdirection]
    decide

variable (h : ValidLog ops)
include h

theorem timestamp_lt_modulus : ∀ op ∈ sortOps ops, op.timestamp < modulus := by
  intro op hop
  obtain ⟨o, ho, rfl⟩ := mem_sortOps.mp hop
  have hlt := h.bounded o ho
  rw [← opAccess_ofOperation] at hlt
  exact hlt.trans (by norm_num)

theorem pair_timestamps {q : MemoryOp × MemoryOp}
    (hq : q ∈ (sortOps ops).zip (sortOps ops).tail) :
    (q.1 ∈ sortOps ops ∧ q.2 ∈ sortOps ops) ∧
      q.1.timestamp < modulus ∧ q.2.timestamp < modulus := by
  obtain ⟨h₁, h₂⟩ := List.of_mem_zip hq
  have h₂ := List.mem_of_mem_tail h₂
  exact ⟨⟨h₁, h₂⟩, timestamp_lt_modulus h _ h₁, timestamp_lt_modulus h _ h₂⟩

/-- A comparison of timestamps determines the operations compared. -/
theorem eq_of_timestampTuple {q q' : MemoryOp × MemoryOp}
    (hq : q ∈ (sortOps ops).zip (sortOps ops).tail)
    (hq' : q' ∈ (sortOps ops).zip (sortOps ops).tail)
    (heq : timestampTuple q.1.timestamp q.2.timestamp =
      timestampTuple q'.1.timestamp q'.2.timestamp) : q = q' := by
  obtain ⟨⟨h₁, h₂⟩, hlt₁, hlt₂⟩ := pair_timestamps h hq
  obtain ⟨⟨h₁', h₂'⟩, hlt₁', hlt₂'⟩ := pair_timestamps h hq'
  have hinj := List.inj_on_of_nodup_map (timestamps_nodup h)
  simp only [timestampTuple, List.cons.injEq] at heq
  have hfirst := natCast_inj_of_lt hlt₁ hlt₁' heq.1
  have hsecond := natCast_inj_of_lt hlt₂ hlt₂' heq.2.1
  exact Prod.ext (hinj h₁ h₁' hfirst) (hinj h₂ h₂' hsecond)

theorem comparedPairs_nodup : ((((sortOps ops).zip (sortOps ops).tail).filter fun pair =>
    pair.1.address = pair.2.address).map fun pair =>
      timestampTuple pair.1.timestamp pair.2.timestamp).Nodup := by
  have hsorted : (sortOps ops).Nodup := (timestamps_nodup h).of_map _
  have hpairs : ((sortOps ops).zip (sortOps ops).tail).Nodup := by
    apply List.Nodup.of_map Prod.snd
    rw [List.map_snd_zip (by rw [List.length_tail]; omega)]
    exact hsorted.sublist (List.tail_sublist _)
  apply (hpairs.filter _).map_on
  intro q hq q' hq' heq
  exact eq_of_timestampTuple h (List.mem_of_mem_filter hq) (List.mem_of_mem_filter hq') heq

/-- A seam is compared by the memory table and left out by the entries of the comparisons. -/
theorem timestamps_agree_iff :
    (∀ v : List Felt, sent (memoryLookups (fillFlags (memoryRows ops))) .timestampLt v =
      received ((buildTimestampLt (timestampLtEntries ops)).flatMap
        TimestampLessThanColumns.lookups) .timestampLt v) ↔
      ∀ q ∈ (sortOps ops).zip (sortOps ops).tail, ¬ Seam q.1 q.2 := by
  have hsent := sent_memory ops .timestampLt nofun
  simp only [hsent, sends_timestamps (timestamp_lt_modulus h), received_timestampLt]
  constructor
  · intro hagree q hq hseam
    have hmem : timestampTuple q.1.timestamp q.2.timestamp ∈
        (((sortOps ops).zip (sortOps ops).tail).filter fun pair =>
          pair.1.address = pair.2.address).map fun pair =>
            timestampTuple pair.1.timestamp pair.2.timestamp :=
      List.mem_map.mpr ⟨q, List.mem_filter.mpr ⟨hq, decide_eq_true hseam.1⟩, rfl⟩
    have hnone : timestampTuple q.1.timestamp q.2.timestamp ∉
        (timestampLtEntries ops).map fun entry => timestampTuple entry.1 entry.2 := by
      rw [timestampLtEntries, List.map_map]
      intro hentry
      obtain ⟨q', hq', heq⟩ := List.mem_map.mp hentry
      obtain ⟨hq', htype⟩ := List.mem_filter.mp (List.mem_of_mem_filter hq')
      have hsame := eq_of_timestampTuple h hq' hq heq
      exact hseam.2 (hsame ▸ of_decide_eq_true htype)
    have hcount := hagree (timestampTuple q.1.timestamp q.2.timestamp)
    rw [List.count_eq_one_of_mem (comparedPairs_nodup h) hmem, List.count_eq_zero_of_not_mem hnone,
      Nat.cast_one, Nat.cast_zero] at hcount
    exact one_ne_zero hcount
  · intro hseam v
    rw [timestampLtEntries_eq, List.map_map]
    · rfl
    · intro q hq haddress
      by_contra htype
      exact hseam q hq ⟨haddress, htype⟩

end Buses

/-- The memory table satisfies its constraints, and what the comparisons send is received. -/
structure MemoryComplete (ops : List MemoryOperation) (rows : List (MemoryColumns Felt)) :
    Prop where
  eval : memoryEval rows
  addresses : ∀ v, sent (memoryLookups rows) .u32Lt v =
    received ((buildU32Lt (u32LtEntries ops)).flatMap U32LessThanColumns.lookups) .u32Lt v
  timestamps : ∀ v, sent (memoryLookups rows) .timestampLt v =
    received ((buildTimestampLt (timestampLtEntries ops)).flatMap
      TimestampLessThanColumns.lookups) .timestampLt v
  bytes : ∀ v : List Felt,
    sent ((buildU32Lt (u32LtEntries ops)).flatMap U32LessThanColumns.lookups) .bytesLt v =
      received (lessThanAir.lookups (tableMults (bytesLtEntries ops))) .bytesLt v

theorem buildMemory_eq {ops : List MemoryOperation} (h : ValidLog ops) :
    buildMemory ops = some (fillFlags (memoryRows (F := Felt) ops)) :=
  if_neg (by simpa using h.nonempty)

/-- The memory argument is complete for a consistent log exactly when no address is both the
highest of the registers and the lowest of the RAM, and, unless the log fills the table, all
operations are on registers and those of a log on address 0 alone leave 0. -/
theorem memory_complete_iff (ops : List MemoryOperation) (h : ValidLog ops) :
    (∃ rows, buildMemory ops = some rows ∧ MemoryComplete ops rows) ↔
      ¬ TypesMeet (ops.map MemoryOperation.access) ∧
        (height ops.length ≠ ops.length → PaddingFits (ops.map MemoryOperation.access)) := by
  have hseam : ¬ TypesMeet (ops.map MemoryOperation.access) ↔
      ∀ q ∈ (sortOps ops).zip (sortOps ops).tail, ¬ Seam q.1 q.2 := by
    rw [typesMeet_iff h]
    push Not
    rfl
  rw [hseam, buildMemory_eq h]
  constructor
  · rintro ⟨rows, hrows, hcomplete⟩
    obtain rfl := Option.some.inj hrows
    exact ⟨(timestamps_agree_iff h).mp hcomplete.timestamps,
      paddingFits_of_chain h ((memoryEval_iff h).mp hcomplete.eval)⟩
  · rintro ⟨hseam, hpadding⟩
    exact ⟨_, rfl, (memoryEval_iff h).mpr (memoryRows_continue h hseam hpadding),
      addresses_agree ops, (timestamps_agree_iff h).mpr hseam, bytes_agree ops⟩

/-- Two cells of different types, each accessed twice and in no order; the log fills the table. -/
theorem memory_complete_iff_twoTypes :
    let ops := [MemoryOperation.read .ram 8 3 7, .write .register 1 2 5 6, .write .ram 8 1 0 7,
      .write .register 1 0 0 5]
    ∃ rows, buildMemory ops = some rows ∧ MemoryComplete ops rows := by
  intro ops
  refine (memory_complete_iff ops ⟨by decide, by decide, by decide, by decide⟩).mpr ⟨?_, ?_⟩
  · rw [TypesMeet]
    decide
  · exact fun hpadded => absurd (by decide) hpadded

/-- The log of `addi x0, x0, 5`. -/
def leavesInZero : List MemoryOperation :=
  [.read .register 0 0 0, .write .register 0 1 0 5]

theorem validLog_leavesInZero : ValidLog leavesInZero :=
  ⟨by decide, by decide, by decide, by decide⟩

/-- The padding row continues cell 0 and does not find the value left there. -/
theorem memory_incomplete : ¬ ∀ ops, ValidLog ops →
    ∃ rows, buildMemory ops = some rows ∧ MemoryComplete ops rows := by
  intro hcomplete
  have h := validLog_leavesInZero
  obtain ⟨rows, hrows, hcomplete⟩ := hcomplete leavesInZero h
  rw [buildMemory_eq h] at hrows
  obtain rfl := Option.some.inj hrows
  have hfits := paddingFits_of_chain h ((memoryEval_iff h).mp hcomplete.eval) (by decide)
  have hzero := (hfits ⟨(.register, 0), 1, 0, 5⟩ (by decide)).2 (by decide) (by decide)
  exact absurd hzero (by decide)

end Loquela.Completeness
