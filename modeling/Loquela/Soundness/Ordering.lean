import Loquela.Soundness.Memory

/-! # The order of the memory table

With comparisons that hold, the equality flags of `MemoryAir` decide whether its rows are sorted
by memory type, address and timestamp. The address flag is only looked up where the type flag is
set, so the flags are pinned between rows of one type, but not at the boundary between registers
and RAM, and the type flag itself is free between two RAM rows.
-/

namespace Loquela.Soundness
open Air Library Library.Replay

/-- The comparisons the memory table sends with nonzero multiplicity hold. -/
structure IdealComparisons (rows : List (MemoryColumns Felt)) : Prop where
  addresses : ∀ q ∈ memoryLookups rows, q.bus = .u32Lt → q.multiplicity ≠ 0 →
    ∃ (x y : Limbs Felt) (e : Felt), q.values = List.ofFn x ++ List.ofFn y ++ [e] ∧
      Bytes x ∧ Bytes y ∧ ((e = 1 ∧ x = y) ∨ (e = 0 ∧ packedNat x < packedNat y))
  timestamps : ∀ q ∈ memoryLookups rows, q.bus = .timestampLt → q.multiplicity ≠ 0 →
    ∃ x y : Felt, q.values = [x, y, 0] ∧ x.val < y.val

/-- The rows that are not padding. -/
def realMemoryRows (rows : List (MemoryColumns Felt)) : List (MemoryColumns Felt) :=
  rows.filter fun c => c.isPadding = 0

/-- The rows are listed by memory type, with one block for every cell. -/
structure MemoryOrdered (rows : List (MemoryColumns Felt)) : Prop where
  flags : rows.IsChain fun c next => c.isPadding = 0 → next.isPadding = 0 →
    (c.isMemoryTypeEqual = 1 ↔ c.memoryType = next.memoryType)
  types : (realMemoryRows rows).Pairwise fun c later => later.memoryType = 0 → c.memoryType = 0
  blocks : ∀ cell, OneBlock 0 ((realMemoryRows rows).map fun c => access c.toMemoryTuple) cell

/-- Between two RAM rows the type flag is set, and where RAM follows a register the address flag
is not set, unless the register is left with 0. -/
def FlagsPinned (rows : List (MemoryColumns Felt)) : Prop :=
  rows.IsChain fun c next => next.isPadding = 0 →
    (c.memoryType = 1 → c.isMemoryTypeEqual = 1) ∧
      (c.memoryType ≠ next.memoryType → c.isAddressEqual = 1 → c.write = 0)

instance (rows : List (MemoryColumns Felt)) : Decidable (FlagsPinned rows) :=
  inferInstanceAs (Decidable (List.IsChain _ _))

/-- Cells in the order of the table. -/
def cellOrder (cell : Felt × Limbs Felt) : ℕ ×ₗ ℕ := toLex (cell.1.val, packedNat cell.2)

section Transition

variable {rows : List (MemoryColumns Felt)}

/-- What the comparisons say of two neighbours. -/
theorem compared_of_ideal (hideal : IdealComparisons rows) :
    rows.IsChain fun c next => next.isPadding = 0 →
      (c.isMemoryTypeEqual = 1 → (c.isAddressEqual = 1 ∧ c.address = next.address) ∨
        (c.isAddressEqual = 0 ∧ packedNat c.address < packedNat next.address)) ∧
      (c.isAddressEqual = 1 → c.timestamp.val < next.timestamp.val) := by
  apply Prefix.isChain_of_zip_rotate
  rintro ⟨c, next⟩ hpair (hreal : next.isPadding = 0)
  have hmem : ∀ q ∈ c.lookups next, q ∈ memoryLookups rows :=
    fun q hq => List.mem_flatMap.mpr ⟨_, hpair, hq⟩
  constructor
  · intro (hflag : c.isMemoryTypeEqual = 1)
    obtain ⟨x, y, e, hvalues, -, -, h⟩ := hideal.addresses _
      (hmem _ List.mem_cons_self) rfl (by simp [send, hflag, hreal])
    have hsplit := List.append_inj hvalues (by simp)
    have hwords := List.append_inj hsplit.1 (by simp)
    obtain rfl := List.ofFn_injective hwords.1
    obtain rfl := List.ofFn_injective hwords.2
    obtain rfl := (List.cons.inj hsplit.2).1
    exact h
  · intro (hflag : c.isAddressEqual = 1)
    obtain ⟨x, y, hvalues, h⟩ := hideal.timestamps _
      (hmem _ (List.mem_cons_of_mem _ List.mem_cons_self)) rfl (by simp [send, hflag, hreal])
    have hx : c.timestamp = x := (List.cons.inj hvalues).1
    have hy : next.timestamp = y := (List.cons.inj (List.cons.inj hvalues).2).1
    rwa [hx, hy]

variable {c next : MemoryColumns Felt}

theorem memoryType_le (h : c.evalTransition next) (hnext : next.memoryType = 0) :
    c.memoryType = 0 := by
  have hone := h.2.2.2.1
  rw [hnext, zero_sub, mul_neg, mul_one, neg_eq_zero] at hone
  exact hone

/-- Two register rows need the type flag. -/
theorem flag_of_registers (h : c.evalTransition next) (hbool : AssertBool c.isMemoryTypeEqual)
    (hc : c.memoryType = 0) (hnext : next.memoryType = 0) : c.isMemoryTypeEqual = 1 := by
  rcases assertBool_iff.mp hbool with hflag | hflag
  · have hsum := h.2.2.1
    rw [hflag, hc, hnext] at hsum
    exact absurd hsum (by decide)
  · exact hflag

theorem read_eq_zero (h : c.evalTransition next) (hwrite : c.isAddressEqual = 1 → c.write = 0) :
    next.read = 0 := by
  funext i
  obtain ⟨hzero, heq⟩ := h.2.2.2.2 i
  by_cases hflag : c.isAddressEqual = 1
  · rw [hflag, one_mul, hwrite hflag, Pi.zero_apply, sub_zero] at heq
    exact heq
  · exact (mul_eq_zero.mp hzero).resolve_left fun h => hflag (sub_eq_zero.mp h).symm

theorem read_eq_write (h : c.evalTransition next) (hflag : c.isAddressEqual = 1) :
    next.read = c.write := by
  funext i
  have heq := (h.2.2.2.2 i).2
  rw [hflag, one_mul, sub_eq_zero] at heq
  exact heq

theorem flag_types (h : c.evalTransition next) (hflag : c.isMemoryTypeEqual = 1) :
    c.memoryType = next.memoryType := by
  have heq := h.2.1
  rw [hflag, one_mul, sub_eq_zero] at heq
  exact heq.symm

end Transition

section Order

variable {rows : List (MemoryColumns Felt)} (heval : memoryEval rows)
  (htypes : ∀ c ∈ rows, c.isPadding = 0 → c.memoryType = 0 ∨ c.memoryType = 1)

include heval htypes in
/-- With pinned flags, equal types set the type flag. -/
theorem flag_of_types (hpinned : FlagsPinned rows) {k : ℕ} (hk : k + 1 < rows.length)
    (hreal : rows[k + 1].isPadding = 0) (h : rows[k].memoryType = rows[k + 1].memoryType) :
    rows[k].isMemoryTypeEqual = 1 := by
  have htransition := List.isChain_iff_getElem.mp heval.2.2 k hk
  have hrealk := List.isChain_iff_getElem.mp (real_of_next heval) k hk hreal
  rcases htypes _ (List.getElem_mem _) hrealk with hc | hc
  · exact flag_of_registers htransition (heval.1 _ (List.getElem_mem _)).2 hc (h.symm.trans hc)
  · exact (List.isChain_iff_getElem.mp hpinned k hk hreal).1 hc

include heval htypes in
theorem follows_of_pinned (hideal : IdealComparisons rows) (hpinned : FlagsPinned rows) {k : ℕ}
    (hk : k + 1 < rows.length) (hreal : rows[k + 1].isPadding = 0) :
    Follows cellOrder 0 (access rows[k].toMemoryTuple) (access rows[k + 1].toMemoryTuple) := by
  have htransition := List.isChain_iff_getElem.mp heval.2.2 k hk
  obtain ⟨haddress, htime⟩ := List.isChain_iff_getElem.mp (compared_of_ideal hideal) k hk hreal
  by_cases htype : rows[k].memoryType = rows[k + 1].memoryType
  · rcases haddress (flag_of_types heval htypes hpinned hk hreal htype) with
      ⟨hflag, heq⟩ | ⟨hflag, hlt⟩
    · exact .inl ⟨Prod.ext htype.symm heq.symm, htime hflag, read_eq_write htransition hflag⟩
    · refine .inr ⟨Prod.Lex.toLex_lt_toLex.mpr (.inr ⟨congrArg ZMod.val htype, hlt⟩), ?_⟩
      apply read_eq_zero htransition
      intro h
      exact absurd (hflag.symm.trans h) zero_ne_one
  · have hnext : rows[k + 1].memoryType = 1 := by
      rcases htypes _ (List.getElem_mem hk) hreal with h | h
      · exact absurd ((memoryType_le htransition h).trans h.symm) htype
      · exact h
    have hrealk := List.isChain_iff_getElem.mp (real_of_next heval) k hk hreal
    have hc : rows[k].memoryType = 0 := by
      rcases htypes _ (List.getElem_mem (by omega)) hrealk with h | h
      · exact h
      · exact absurd (h.trans hnext.symm) htype
    refine .inr ⟨Prod.Lex.toLex_lt_toLex.mpr (.inl ?_), ?_⟩
    · simp only [access, hc, hnext]
      decide
    · exact read_eq_zero htransition
        ((List.isChain_iff_getElem.mp hpinned k hk hreal).2 htype)

include heval htypes in
theorem ordered_of_pinned (hideal : IdealComparisons rows) (hpinned : FlagsPinned rows) :
    MemoryOrdered rows where
  flags := by
    apply List.isChain_iff_getElem.mpr
    intro k hk _ hreal
    constructor
    · exact flag_types (List.isChain_iff_getElem.mp heval.2.2 k hk)
    · exact flag_of_types heval htypes hpinned hk hreal
  types := by
    have : IsTrans (MemoryColumns Felt) fun c later => later.memoryType = 0 → c.memoryType = 0 :=
      ⟨fun _ _ _ hxy hyz h => hxy (hyz h)⟩
    apply List.isChain_iff_pairwise.mp
    apply Prefix.isChain_filter (falling_real heval)
    exact heval.2.2.imp fun _ _ h _ => memoryType_le h
  blocks cell := by
    apply oneBlock_of_follows cellOrder
    · intro x hx _
      rw [List.head?_map, Option.mem_map] at hx
      obtain ⟨c, hc, rfl⟩ := hx
      funext i
      exact heval.2.1 c (Prefix.head_of_filter (falling_real heval) hc) i
    · rw [List.isChain_map]
      apply Prefix.isChain_filter (falling_real heval)
      apply List.isChain_iff_getElem.mpr
      intro k hk hreal
      exact follows_of_pinned heval htypes hideal hpinned hk (of_decide_eq_true hreal)

include heval in
theorem pinned_of_ordered (hordered : MemoryOrdered rows) : FlagsPinned rows := by
  apply List.isChain_iff_getElem.mpr
  intro k hk hreal
  have htransition := List.isChain_iff_getElem.mp heval.2.2 k hk
  have hrealk := List.isChain_iff_getElem.mp (real_of_next heval) k hk hreal
  constructor
  · intro hc
    apply (List.isChain_iff_getElem.mp hordered.flags k hk hrealk hreal).mpr
    have hone := htransition.2.2.2.1
    rw [hc, one_mul, sub_eq_zero] at hone
    exact hc.trans hone.symm
  · intro htype hflag
    -- The RAM row opens its cell, so it reads 0, and the flag makes that the write before it.
    have hopens := (hordered.blocks (access rows[k + 1].toMemoryTuple).address).opens
    rw [List.isChain_map] at hopens
    have hread := List.isChain_iff_getElem.mp
      (Prefix.isChain_of_filter (falling_real heval) hopens) k hk (decide_eq_true hreal)
      (fun h => htype (congrArg Prod.fst h)) rfl
    exact (read_eq_write htransition hflag).symm.trans hread

/-- With ideal comparisons the table is ordered exactly when its flags are pinned. -/
theorem memory_order_iff (rows : List (MemoryColumns Felt)) (heval : memoryEval rows)
    (hideal : IdealComparisons rows)
    (htypes : ∀ c ∈ rows, c.isPadding = 0 → c.memoryType = 0 ∨ c.memoryType = 1) :
    MemoryOrdered rows ↔ FlagsPinned rows :=
  ⟨pinned_of_ordered heval, ordered_of_pinned heval htypes hideal⟩

end Order

/-- A write of 7 to address 0 of RAM and a later read of it, with the flags between the two and
the value read left open. -/
def twoLoads (flag read : Felt) : List (MemoryColumns Felt) :=
  [⟨⟨0, 1, 0, 0, bitLimbs 7⟩, flag, 0, flag, 0⟩,
    ⟨⟨1, 1, 0, bitLimbs read, bitLimbs read⟩, 1, 0, 0, 0⟩,
    ⟨⟨0, 1, 0, 0, 0⟩, 1, 0, 0, 1⟩, ⟨⟨0, 1, 0, 0, 0⟩, 0, 0, 0, 1⟩]

theorem memory_order_twoLoads : MemoryOrdered (twoLoads 1 7) := by
  have hideal : IdealComparisons (twoLoads 1 7) := by
    have haddresses : ∀ q ∈ memoryLookups (twoLoads 1 7), q.bus = .u32Lt → q.multiplicity ≠ 0 →
        q.values = List.ofFn (0 : Limbs Felt) ++ List.ofFn (0 : Limbs Felt) ++ [1] := by decide
    have htimestamps : ∀ q ∈ memoryLookups (twoLoads 1 7), q.bus = .timestampLt →
        q.multiplicity ≠ 0 → q.values = [0, 1, 0] := by decide
    constructor
    · intro q hq hbus hmult
      exact ⟨0, 0, 1, haddresses q hq hbus hmult, by decide, by decide, .inl ⟨rfl, rfl⟩⟩
    · intro q hq hbus hmult
      exact ⟨0, 1, htimestamps q hq hbus hmult, by decide⟩
  exact (memory_order_iff (twoLoads 1 7) (by decide) hideal (by decide)).mpr (by decide)

/-- With the type flag off nothing is compared, and the read may find 0. -/
theorem memory_order_fails : ¬ ∀ rows : List (MemoryColumns Felt), memoryEval rows →
    IdealComparisons rows →
    (∀ c ∈ rows, c.isPadding = 0 → c.memoryType = 0 ∨ c.memoryType = 1) → MemoryOrdered rows := by
  intro h
  have hnone : ∀ q ∈ memoryLookups (twoLoads 0 0), q.bus ≠ .memory → q.multiplicity = 0 := by
    decide
  have hideal : IdealComparisons (twoLoads 0 0) := by
    constructor
    · intro q hq hbus hmult
      exact absurd (hnone q hq (hbus ▸ by decide)) hmult
    · intro q hq hbus hmult
      exact absurd (hnone q hq (hbus ▸ by decide)) hmult
  have hflags := (h (twoLoads 0 0) (by decide) hideal (by decide)).flags
  have hflag := (List.isChain_cons_cons.mp hflags).1 rfl rfl
  exact absurd (hflag.mpr rfl) (by decide)

end Loquela.Soundness
