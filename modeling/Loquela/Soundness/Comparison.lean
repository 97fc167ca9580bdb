import Loquela.Air.Memory
import Loquela.Soundness.Interactions

/-! # The comparison tables

What a comparison sent by the memory table establishes, from the constraints of the two
comparison AIRs and the balance of their buses. A row of `TimestampLessThanAir` with the top bit
of `v_bits` set accepts two timestamps in either order.
-/

namespace Loquela.Soundness
open Air Library Library.Bus
open Library.Bits (bit)

section Timestamps

variable {c : TimestampLessThanColumns Felt}

/-- Both operands have 24 bits, and `v_bits` is the number `x + 2^24 - y`. -/
theorem timestampLessThan_values (h : c.eval) : c.x.val < 2 ^ 24 ∧ c.y.val < 2 ^ 24 ∧
    c.vBits 24 = bit ((c.x.val + 2 ^ 24 - c.y.val).testBit 24) := by
  obtain ⟨⟨hxb, hx⟩, ⟨hyb, hy⟩, ⟨hvb, hv⟩, -, -⟩ := h
  obtain ⟨x, hx24, hxp, -⟩ := Bits.exists_pack fun i => assertBool_iff.mp (hxb i)
  obtain ⟨y, hy24, hyp, -⟩ := Bits.exists_pack fun i => assertBool_iff.mp (hyb i)
  obtain ⟨v, hv25, hvp, hbits⟩ := Bits.exists_pack fun i => assertBool_iff.mp (hvb i)
  rw [hxp] at hx
  rw [hyp] at hy
  rw [hvp, hx, hy] at hv
  have hxval : c.x.val = x := by
    rw [hx, ZMod.val_natCast_of_lt (hx24.trans (by norm_num))]
  have hyval : c.y.val = y := by
    rw [hy, ZMod.val_natCast_of_lt (hy24.trans (by norm_num))]
  have hvnat : x + 2 ^ 24 - y = v := by
    apply natCast_inj_of_lt (F := Felt)
    · exact (show x + 2 ^ 24 - y < 2147483647 by omega)
    · exact hv25.trans (by norm_num)
    · rw [← hv, Nat.cast_sub (by omega)]
      push_cast
      rfl
  rw [hxval, hyval, hvnat]
  exact ⟨hx24, hy24, hbits 24⟩

/-- With the top bit clear the operands are strictly ordered. -/
theorem timestampLessThan_lt (h : c.eval) (htop : c.vBits 24 = 0) : c.x.val < c.y.val := by
  obtain ⟨hx, hy, hbit⟩ := timestampLessThan_values h
  rw [htop, ← Bits.bit_false] at hbit
  have hfalse := Bits.bit_injective hbit
  by_contra hle
  have hge : 2 ^ 24 ≤ c.x.val + 2 ^ 24 - c.y.val := by omega
  have hlt : c.x.val + 2 ^ 24 - c.y.val < 2 ^ 25 := by omega
  rw [Nat.testBit_eq_decide_div_mod_eq] at hfalse
  have hdiv : (c.x.val + 2 ^ 24 - c.y.val) / 2 ^ 24 = 1 := by omega
  rw [hdiv] at hfalse
  simp at hfalse

/-- `is_equal` tells whether the operands are equal. -/
theorem timestampLessThan_isEqual (h : c.eval) : c.isEqual = if c.x = c.y then 1 else 0 := by
  obtain ⟨-, -, -, hinv, hzero⟩ := h
  split_ifs with hxy
  · rw [← hinv, hxy, sub_self, mul_zero, zero_add]
  · exact (mul_eq_zero.mp hzero).resolve_left (sub_ne_zero.mpr hxy)

/-- The tuple of the row compares two timestamps of 24 bits. -/
structure Compares (c : TimestampLessThanColumns Felt) : Prop where
  x_lt : c.x.val < 2 ^ 24
  y_lt : c.y.val < 2 ^ 24
  ordered : c.isEqual = 1 ∧ c.x = c.y ∨ c.isEqual = 0 ∧ c.x.val < c.y.val

/-- A row that satisfies the constraints compares its operands exactly when they are equal or the
top bit of `v_bits` is clear. -/
theorem timestampLessThan_compares_iff (c : TimestampLessThanColumns Felt) (h : c.eval) :
    Compares c ↔ c.x = c.y ∨ c.vBits 24 = 0 := by
  obtain ⟨hx, hy, hbit⟩ := timestampLessThan_values h
  have hequal := timestampLessThan_isEqual h
  constructor
  · rintro ⟨-, -, ⟨-, hxy⟩ | ⟨-, hlt⟩⟩
    · exact .inl hxy
    · right
      rw [hbit, Nat.testBit_lt_two_pow (by omega), Bits.bit_false]
  · intro hcond
    refine ⟨hx, hy, ?_⟩
    by_cases hxy : c.x = c.y
    · rw [if_pos hxy] at hequal
      exact .inl ⟨hequal, hxy⟩
    · rw [if_neg hxy] at hequal
      exact .inr ⟨hequal, timestampLessThan_lt h (hcond.resolve_left hxy)⟩

end Timestamps

/-- An honest comparison of the timestamps 0 and 1. -/
def compareZeroOne : TimestampLessThanColumns Felt where
  x := 0
  y := 1
  xBits := 0
  yBits := fun i => if i = 0 then 1 else 0
  vBits := fun i => if i = 24 then 0 else 1
  diffInv := 1
  isEqual := 0
  mult := 1

theorem timestampLessThan_compares_zero_one : Compares compareZeroOne :=
  (timestampLessThan_compares_iff compareZeroOne (by decide)).mpr (.inr rfl)

/-- A comparison of the timestamps 1 and 0 with the top bit of `v_bits` set. -/
def compareOneZero : TimestampLessThanColumns Felt where
  x := 1
  y := 0
  xBits := fun i => if i = 0 then 1 else 0
  yBits := 0
  vBits := fun i => if i = 0 ∨ i = 24 then 1 else 0
  diffInv := -1
  isEqual := 0
  mult := 1

theorem timestampLessThan_unsound :
    ¬ ∀ c : TimestampLessThanColumns Felt, c.eval → Compares c := by
  intro h
  obtain ⟨-, -, ⟨hequal, -⟩ | ⟨-, hlt⟩⟩ := h compareOneZero (by decide)
  · exact zero_ne_one hequal
  · exact absurd hlt (by decide)

/-- The first differing limb from the top decides. -/
def LimbsLt (x y : Limbs Felt) : Prop := ∃ i, (x i).val < (y i).val ∧ ∀ j, i < j → x j = y j

/-- What the constraints of `U32LessThanAir` say without the byte table: `is_equal` tells whether
the words are equal, else `mult_lts` selects the first differing limb from the top. -/
theorem u32LessThan_cases {F : Type*} [Field F] {c : U32LessThanColumns F} (h : c.eval) :
    (c.isEqual = 1 ∧ c.x = c.y) ∨
      (c.isEqual = 0 ∧ ∃ i, c.multLts i = 1 ∧ c.x i ≠ c.y i ∧ ∀ j, i < j → c.x j = c.y j) := by
  obtain ⟨hequal, -, -, hseen, hsum⟩ := h
  have hzero : ∀ i, c.x i = c.y i → c.isEquals i = 1 := by
    intro i hi
    have := (hequal i).1
    rw [hi, sub_self, mul_zero, zero_add] at this
    exact this.symm
  have hone : ∀ i, c.x i ≠ c.y i → c.isEquals i = 0 := by
    intro i hi
    exact (mul_eq_zero.mp (hequal i).2).resolve_left (sub_ne_zero.mpr (Ne.symm hi))
  have h3 := hseen 3
  have h2 := hseen 2
  have h1 := hseen 1
  have h0 := hseen 0
  simp only [U32LessThanColumns.alreadySeen, U32LessThanColumns.multSum, Fin.isValue,
    Matrix.cons_val] at h3 h2 h1 h0 hsum
  by_cases e3 : c.x 3 = c.y 3
  · have m3 : c.multLts 3 = 0 := by simpa [hzero 3 e3] using h3
    by_cases e2 : c.x 2 = c.y 2
    · have m2 : c.multLts 2 = 0 := by simpa [hzero 2 e2, m3] using h2
      by_cases e1 : c.x 1 = c.y 1
      · have m1 : c.multLts 1 = 0 := by simpa [hzero 1 e1, m3, m2] using h1
        by_cases e0 : c.x 0 = c.y 0
        · have m0 : c.multLts 0 = 0 := by simpa [hzero 0 e0, m3, m2, m1] using h0
          refine .inl ⟨by simpa [m3, m2, m1, m0] using hsum, ?_⟩
          funext i
          fin_cases i <;> assumption
        · have m0 : c.multLts 0 = 1 := by
            simpa [hone 0 e0, m3, m2, m1, sub_eq_zero] using h0
          refine .inr ⟨by simpa [m3, m2, m1, m0] using hsum, 0, m0, e0, ?_⟩
          intro j hj
          fin_cases j <;> first | assumption | exact absurd hj (by decide)
      · have m1 : c.multLts 1 = 1 := by simpa [hone 1 e1, m3, m2, sub_eq_zero] using h1
        have m0 : c.multLts 0 = 0 := by simpa [m3, m2, m1] using h0
        refine .inr ⟨by simpa [m3, m2, m1, m0] using hsum, 1, m1, e1, ?_⟩
        intro j hj
        fin_cases j <;> first | assumption | exact absurd hj (by decide)
    · have m2 : c.multLts 2 = 1 := by simpa [hone 2 e2, m3, sub_eq_zero] using h2
      have m1 : c.multLts 1 = 0 := by simpa [m3, m2] using h1
      have m0 : c.multLts 0 = 0 := by simpa [m3, m2, m1] using h0
      refine .inr ⟨by simpa [m3, m2, m1, m0] using hsum, 2, m2, e2, ?_⟩
      intro j hj
      fin_cases j <;> first | assumption | exact absurd hj (by decide)
  · have m3 : c.multLts 3 = 1 := by simpa [hone 3 e3, sub_eq_zero] using h3
    have m2 : c.multLts 2 = 0 := by simpa [m3] using h2
    have m1 : c.multLts 1 = 0 := by simpa [m3, m2] using h1
    have m0 : c.multLts 0 = 0 := by simpa [m3, m2, m1] using h0
    refine .inr ⟨by simpa [m3, m2, m1, m0] using hsum, 3, m3, e3, ?_⟩
    intro j hj
    exact absurd hj (by omega)

section Buses

variable {F : Type*}

theorem mem_u32LtLookups {rows : List (U32LessThanColumns F)} {x : Interaction F}
    (hx : x ∈ rows.flatMap U32LessThanColumns.lookups) :
    x.direction = .send ∧ x.bus = .bytesLt ∨ x.direction = .receive ∧ x.bus = .u32Lt := by
  obtain ⟨c, -, hx⟩ := List.mem_flatMap.mp hx
  rcases List.mem_append.mp hx with hx | hx
  · obtain ⟨i, rfl⟩ := List.mem_ofFn.mp hx
    exact .inl ⟨rfl, rfl⟩
  · rw [List.mem_singleton.mp hx]
    exact .inr ⟨rfl, rfl⟩

theorem mem_timestampLtLookups {rows : List (TimestampLessThanColumns F)}
    {x : Interaction F} (hx : x ∈ rows.flatMap TimestampLessThanColumns.lookups) :
    x.direction = .receive ∧ x.bus = .timestampLt := by
  obtain ⟨c, -, hx⟩ := List.mem_flatMap.mp hx
  rw [List.mem_singleton.mp hx]
  exact ⟨rfl, rfl⟩

variable [Field F]

theorem mem_memoryLookups {rows : List (MemoryColumns F)} {x : Interaction F}
    (hx : x ∈ memoryLookups rows) :
    x.direction = .send ∧ (x.bus = .u32Lt ∨ x.bus = .timestampLt) ∨
      x.direction = .receive ∧ x.bus = .memory := by
  obtain ⟨pair, -, hx⟩ := List.mem_flatMap.mp hx
  simp only [MemoryColumns.lookups, List.mem_cons, List.not_mem_nil, or_false] at hx
  rcases hx with rfl | rfl | rfl
  · exact .inl ⟨rfl, .inl rfl⟩
  · exact .inl ⟨rfl, .inr rfl⟩
  · exact .inr ⟨rfl, rfl⟩

section Selected

variable [DecidableEq F] (direction : Direction) (bus : BusName)

theorem selected_memory_eq_nil (hsend : direction = .send → bus ≠ .u32Lt ∧ bus ≠ .timestampLt)
    (hreceive : direction = .receive → bus ≠ .memory) (rows : List (MemoryColumns F)) :
    selected direction bus (memoryLookups rows) = [] := by
  apply selected_eq_nil_of_forall
  rintro x hx rfl rfl
  rcases mem_memoryLookups hx with ⟨h, h' | h'⟩ | ⟨h, h'⟩
  · exact (hsend h).1 h'
  · exact (hsend h).2 h'
  · exact hreceive h h'

theorem selected_u32Lt_eq_nil (hsend : direction = .send → bus ≠ .bytesLt)
    (hreceive : direction = .receive → bus ≠ .u32Lt) (rows : List (U32LessThanColumns F)) :
    selected direction bus (rows.flatMap U32LessThanColumns.lookups) = [] := by
  apply selected_eq_nil_of_forall
  rintro x hx rfl rfl
  rcases mem_u32LtLookups hx with ⟨h, h'⟩ | ⟨h, h'⟩
  · exact hsend h h'
  · exact hreceive h h'

theorem selected_timestampLt_eq_nil (hreceive : direction = .receive → bus ≠ .timestampLt)
    (rows : List (TimestampLessThanColumns F)) :
    selected direction bus (rows.flatMap TimestampLessThanColumns.lookups) = [] := by
  apply selected_eq_nil_of_forall
  rintro x hx rfl rfl
  obtain ⟨h, h'⟩ := mem_timestampLtLookups hx
  exact hreceive h h'

theorem selected_lessThan_eq_nil (hreceive : direction = .receive → bus ≠ .bytesLt)
    (mult : ℕ → F) : selected direction bus (lessThanAir.lookups mult) = [] := by
  apply selected_eq_nil_of_forall
  rintro x hx rfl rfl
  obtain ⟨row, -, hbus, hdirection, -⟩ := Table.mem_lookups hx
  exact hreceive hdirection hbus

end Selected

end Buses

/-- The traces that take part in the memory argument; `bytesLt` are the multiplicities of the
byte comparison table. -/
structure MemoryTables (F : Type*) where
  memory : List (MemoryColumns F)
  u32Lt : List (U32LessThanColumns F)
  timestampLt : List (TimestampLessThanColumns F)
  bytesLt : ℕ → F

namespace MemoryTables

variable {F : Type*} [Field F]

def lookups (t : MemoryTables F) : List (Interaction F) :=
  memoryLookups t.memory ++ t.u32Lt.flatMap U32LessThanColumns.lookups ++
    t.timestampLt.flatMap TimestampLessThanColumns.lookups ++ lessThanAir.lookups t.bytesLt

structure Eval (t : MemoryTables F) : Prop where
  memory : memoryEval t.memory
  u32Lt : ∀ c ∈ t.u32Lt, c.eval
  timestampLt : ∀ c ∈ t.timestampLt, c.eval

/-- The neighbours the memory AIR compares, the last row with the first one. -/
def neighbours (t : MemoryTables F) : List (MemoryColumns F × MemoryColumns F) :=
  t.memory.zip (t.memory.rotate 1)

variable {t : MemoryTables F} {x : Interaction F}

theorem mem_lookups : x ∈ t.lookups ↔
    (∃ pair ∈ t.neighbours, x ∈ pair.1.lookups pair.2) ∨ (∃ c ∈ t.u32Lt, x ∈ c.lookups) ∨
      (∃ c ∈ t.timestampLt, x ∈ c.lookups) ∨ x ∈ lessThanAir.lookups t.bytesLt := by
  simp [lookups, memoryLookups, neighbours]

/-- Who talks on which bus: the memory table compares neighbours, each comparison AIR answers
on one bus and the word comparison asks the byte table. -/
theorem interaction_cases (hx : x ∈ t.lookups) :
    (∃ pair ∈ t.neighbours,
      x = send .u32Lt (List.ofFn pair.1.address ++ List.ofFn pair.2.address ++
          [pair.1.isAddressEqual]) (pair.1.isMemoryTypeEqual * (1 - pair.2.isPadding)) ∨
        x = send .timestampLt [pair.1.timestamp, pair.2.timestamp, pair.1.isTimestampEqual]
          (pair.1.isAddressEqual * (1 - pair.2.isPadding)) ∨
        x = receive .memory pair.1.toMemoryTuple.toList (1 - pair.1.isPadding)) ∨
      (∃ c ∈ t.u32Lt, ∃ i, x = send .bytesLt [c.x i, c.y i] (c.multLts i)) ∨
      (∃ c ∈ t.u32Lt,
        x = receive .u32Lt (List.ofFn c.x ++ List.ofFn c.y ++ [c.isEqual]) c.mult) ∨
      (∃ c ∈ t.timestampLt, x = receive .timestampLt [c.x, c.y, c.isEqual] c.mult) ∨
      (∃ a b : ℕ, (a < b ∧ b < 256 ∨ a = 0 ∧ b = 0) ∧ ∃ m,
        x = receive .bytesLt [(a : F), (b : F)] m) := by
  rcases mem_lookups.mp hx with ⟨pair, hpair, hx⟩ | ⟨c, hc, hx⟩ | ⟨c, hc, hx⟩ | hx
  · simp only [MemoryColumns.lookups, List.mem_cons, List.not_mem_nil, or_false] at hx
    exact .inl ⟨pair, hpair, hx⟩
  · rcases List.mem_append.mp hx with hx | hx
    · obtain ⟨i, rfl⟩ := List.mem_ofFn.mp hx
      exact .inr (.inl ⟨c, hc, i, rfl⟩)
    · exact .inr (.inr (.inl ⟨c, hc, List.mem_singleton.mp hx⟩))
  · exact .inr (.inr (.inr (.inl ⟨c, hc, List.mem_singleton.mp hx⟩)))
  · obtain ⟨i, hi, rfl⟩ := List.mem_mapIdx.mp hx
    refine .inr (.inr (.inr (.inr ?_)))
    rcases mem_lessThanAir (List.getElem_mem hi) with ⟨a, b, hab, hb, hrow⟩ | hrow
    · exact ⟨a, b, .inl ⟨hab, hb⟩, t.bytesLt i, by rw [hrow]; rfl⟩
    · exact ⟨0, 0, .inr ⟨rfl, rfl⟩, t.bytesLt i, by rw [hrow]; rfl⟩

section Selected

variable [DecidableEq F] (t) {bus : BusName}

theorem selected_lookups (direction : Direction) : selected direction bus t.lookups =
    selected direction bus (memoryLookups t.memory) ++
      selected direction bus (t.u32Lt.flatMap U32LessThanColumns.lookups) ++
      selected direction bus (t.timestampLt.flatMap TimestampLessThanColumns.lookups) ++
      selected direction bus (lessThanAir.lookups t.bytesLt) := by
  rw [lookups, selected_append, selected_append, selected_append]

/-- Only the memory table asks the comparison tables. -/
theorem selected_send (hbus : bus ≠ .bytesLt) :
    selected .send bus t.lookups = selected .send bus (memoryLookups t.memory) := by
  rw [selected_lookups, selected_u32Lt_eq_nil .send bus (fun _ => hbus) nofun,
    selected_timestampLt_eq_nil .send bus nofun, selected_lessThan_eq_nil .send bus nofun,
    List.append_nil, List.append_nil, List.append_nil]

theorem selected_receive_memory :
    selected .receive .memory t.lookups = selected .receive .memory (memoryLookups t.memory) := by
  rw [selected_lookups, selected_u32Lt_eq_nil .receive .memory nofun nofun,
    selected_timestampLt_eq_nil .receive .memory nofun,
    selected_lessThan_eq_nil .receive .memory nofun, List.append_nil, List.append_nil,
    List.append_nil]

theorem selected_receive_u32Lt : selected .receive .u32Lt t.lookups =
    selected .receive .u32Lt (t.u32Lt.flatMap U32LessThanColumns.lookups) := by
  rw [selected_lookups, selected_memory_eq_nil .receive .u32Lt nofun nofun,
    selected_timestampLt_eq_nil .receive .u32Lt nofun,
    selected_lessThan_eq_nil .receive .u32Lt nofun, List.append_nil, List.append_nil,
    List.nil_append]

theorem selected_receive_timestampLt : selected .receive .timestampLt t.lookups =
    selected .receive .timestampLt
      (t.timestampLt.flatMap TimestampLessThanColumns.lookups) := by
  rw [selected_lookups, selected_memory_eq_nil .receive .timestampLt nofun nofun,
    selected_u32Lt_eq_nil .receive .timestampLt nofun nofun,
    selected_lessThan_eq_nil .receive .timestampLt nofun, List.append_nil, List.nil_append,
    List.nil_append]

end Selected

section Cases

variable (hx : x ∈ t.lookups)
include hx

theorem bytesLt_send (hbus : x.bus = .bytesLt) (hdirection : x.direction = .send) :
    ∃ c ∈ t.u32Lt, ∃ i, x = send .bytesLt [c.x i, c.y i] (c.multLts i) := by
  rcases interaction_cases hx with ⟨pair, -, rfl | rfl | rfl⟩ | h | ⟨c, -, rfl⟩ | ⟨c, -, rfl⟩ |
    ⟨a, b, -, m, rfl⟩
  case inr.inl => exact h
  all_goals first | (cases hbus; done) | cases hdirection

theorem bytesLt_receive (hbus : x.bus = .bytesLt) (hdirection : x.direction = .receive) :
    ∃ a b : ℕ, (a < b ∧ b < 256 ∨ a = 0 ∧ b = 0) ∧ ∃ m,
      x = receive .bytesLt [(a : F), (b : F)] m := by
  rcases interaction_cases hx with ⟨pair, -, rfl | rfl | rfl⟩ | ⟨c, -, i, rfl⟩ | ⟨c, -, rfl⟩ |
    ⟨c, -, rfl⟩ | h
  case inr.inr.inr.inr => exact h
  all_goals first | (cases hbus; done) | cases hdirection

theorem u32Lt_send (hbus : x.bus = .u32Lt) (hdirection : x.direction = .send) :
    ∃ pair ∈ t.neighbours, x = send .u32Lt (List.ofFn pair.1.address ++
      List.ofFn pair.2.address ++ [pair.1.isAddressEqual])
        (pair.1.isMemoryTypeEqual * (1 - pair.2.isPadding)) := by
  rcases interaction_cases hx with ⟨pair, hpair, h | rfl | rfl⟩ | ⟨c, -, i, rfl⟩ | ⟨c, -, rfl⟩ |
    ⟨c, -, rfl⟩ | ⟨a, b, -, m, rfl⟩
  case inl.inl => exact ⟨pair, hpair, h⟩
  all_goals first | (cases hbus; done) | cases hdirection

theorem u32Lt_receive (hbus : x.bus = .u32Lt) (hdirection : x.direction = .receive) :
    ∃ c ∈ t.u32Lt, x = receive .u32Lt (List.ofFn c.x ++ List.ofFn c.y ++ [c.isEqual]) c.mult := by
  rcases interaction_cases hx with ⟨pair, -, rfl | rfl | rfl⟩ | ⟨c, -, i, rfl⟩ | h | ⟨c, -, rfl⟩ |
    ⟨a, b, -, m, rfl⟩
  case inr.inr.inl => exact h
  all_goals first | (cases hbus; done) | cases hdirection

theorem timestampLt_send (hbus : x.bus = .timestampLt) (hdirection : x.direction = .send) :
    ∃ pair ∈ t.neighbours, x = send .timestampLt [pair.1.timestamp, pair.2.timestamp,
      pair.1.isTimestampEqual] (pair.1.isAddressEqual * (1 - pair.2.isPadding)) := by
  rcases interaction_cases hx with ⟨pair, hpair, rfl | h | rfl⟩ | ⟨c, -, i, rfl⟩ | ⟨c, -, rfl⟩ |
    ⟨c, -, rfl⟩ | ⟨a, b, -, m, rfl⟩
  case inl.inr.inl => exact ⟨pair, hpair, h⟩
  all_goals first | (cases hbus; done) | cases hdirection

theorem timestampLt_receive (hbus : x.bus = .timestampLt) (hdirection : x.direction = .receive) :
    ∃ c ∈ t.timestampLt, x = receive .timestampLt [c.x, c.y, c.isEqual] c.mult := by
  rcases interaction_cases hx with ⟨pair, -, rfl | rfl | rfl⟩ | ⟨c, -, i, rfl⟩ | ⟨c, -, rfl⟩ | h |
    ⟨a, b, -, m, rfl⟩
  case inr.inr.inr.inl => exact h
  all_goals first | (cases hbus; done) | cases hdirection

theorem memory_receive (hbus : x.bus = .memory) : ∃ pair ∈ t.neighbours,
    x = receive .memory pair.1.toMemoryTuple.toList (1 - pair.1.isPadding) := by
  rcases interaction_cases hx with ⟨pair, hpair, rfl | rfl | h⟩ | ⟨c, -, i, rfl⟩ | ⟨c, -, rfl⟩ |
    ⟨c, -, rfl⟩ | ⟨a, b, -, m, rfl⟩
  case inl.inr.inr => exact ⟨pair, hpair, h⟩
  all_goals cases hbus

end Cases

end MemoryTables

section Lookups

variable {t : MemoryTables Felt}

/-- Every byte comparison that is used holds. -/
theorem bytesLt_sound (heval : ∀ c ∈ t.u32Lt, c.eval)
    (hlength : (selected .send .bytesLt t.lookups).length < modulus)
    (hnet : ∀ values, net t.lookups .bytesLt values = 0) {c : U32LessThanColumns Felt}
    (hc : c ∈ t.u32Lt) {i : Fin 4} (hi : c.multLts i = 1) (hne : c.x i ≠ c.y i) :
    (c.x i).val < (c.y i).val ∧ (c.y i).val < 256 := by
  have hsent : [c.x i, c.y i] ∈ selected .send .bytesLt t.lookups := by
    apply mem_selected.mpr
    refine ⟨send .bytesLt [c.x i, c.y i] (c.multLts i), ?_, rfl, rfl, hi, rfl⟩
    apply MemoryTables.mem_lookups.mpr
    exact .inr (.inl ⟨c, hc, List.mem_append_left _ (List.mem_ofFn.mpr ⟨i, rfl⟩)⟩)
  have hbool : ∀ x ∈ t.lookups, x.bus = .bytesLt → x.direction = .send →
      x.values = [c.x i, c.y i] → x.multiplicity = 0 ∨ x.multiplicity = 1 := by
    intro x hx hbus hdirection _
    obtain ⟨d, hd, j, rfl⟩ := MemoryTables.bytesLt_send hx hbus hdirection
    exact assertBool_iff.mp ((heval d hd).2.1 j)
  obtain ⟨x, hx, hbus, hdirection, hvalues, -⟩ := exists_receive (p := modulus) hbool hlength
    (hnet _) hsent
  obtain ⟨a, b, hab, m, rfl⟩ := MemoryTables.bytesLt_receive hx hbus hdirection
  simp only [receive, List.cons.injEq, and_true] at hvalues
  rcases hab with ⟨hab, hb⟩ | ⟨rfl, rfl⟩
  · have hbp : b < modulus := hb.trans (by norm_num)
    rw [← hvalues.1, ← hvalues.2, ZMod.val_natCast_of_lt (hab.trans hbp),
      ZMod.val_natCast_of_lt hbp]
    exact ⟨hab, hb⟩
  · exact absurd (hvalues.1.symm.trans hvalues.2) hne

/-- Two addresses compared with multiplicity 1 are equal, or strictly ordered by their first
differing limb from the top, as the flag says. -/
theorem u32Lt_sound (heval : t.Eval) (hlength : t.lookups.length < modulus)
    (hbytes : ∀ values, net t.lookups .bytesLt values = 0)
    (hnet : ∀ values, net t.lookups .u32Lt values = 0)
    {pair : MemoryColumns Felt × MemoryColumns Felt} (hpair : pair ∈ t.neighbours)
    (htype : pair.1.isMemoryTypeEqual = 1) (hreal : pair.2.isPadding = 0) :
    (pair.1.isAddressEqual = 1 ∧ pair.1.address = pair.2.address) ∨
      (pair.1.isAddressEqual = 0 ∧ LimbsLt pair.1.address pair.2.address) := by
  have hsent : List.ofFn pair.1.address ++ List.ofFn pair.2.address ++ [pair.1.isAddressEqual] ∈
      selected .send .u32Lt t.lookups := by
    apply mem_selected.mpr
    refine ⟨send .u32Lt _ (pair.1.isMemoryTypeEqual * (1 - pair.2.isPadding)), ?_, rfl, rfl, ?_,
      rfl⟩
    · exact MemoryTables.mem_lookups.mpr (.inl ⟨pair, hpair, List.mem_cons_self⟩)
    · simp [send, htype, hreal]
  have hbool : ∀ x ∈ t.lookups, x.bus = .u32Lt → x.direction = .send → x.values =
      List.ofFn pair.1.address ++ List.ofFn pair.2.address ++ [pair.1.isAddressEqual] →
      x.multiplicity = 0 ∨ x.multiplicity = 1 := by
    intro x hx hbus hdirection _
    obtain ⟨q, hq, rfl⟩ := MemoryTables.u32Lt_send hx hbus hdirection
    have hrow := heval.memory.1 q.1 (List.of_mem_zip hq).1
    have hnext := heval.memory.1 q.2 (List.mem_rotate.mp (List.of_mem_zip hq).2)
    rcases assertBool_iff.mp hrow.2 with h | h <;>
      rcases assertBool_iff.mp hnext.1 with h' | h' <;> simp [send, h, h']
  obtain ⟨x, hx, hbus, hdirection, hvalues, -⟩ := exists_receive (p := modulus) hbool
    ((length_selected_le _).trans_lt hlength) (hnet _) hsent
  obtain ⟨d, hd, rfl⟩ := MemoryTables.u32Lt_receive hx hbus hdirection
  have hsplit := List.append_inj hvalues (by simp)
  have hwords := List.append_inj hsplit.1 (by simp)
  have hx := List.ofFn_injective hwords.1
  have hy := List.ofFn_injective hwords.2
  have hflag := List.singleton_inj.mp hsplit.2
  rw [← hx, ← hy, ← hflag]
  rcases u32LessThan_cases (heval.u32Lt d hd) with h | ⟨h, i, hi, hne, habove⟩
  · exact .inl h
  · have hsends : (selected .send .bytesLt t.lookups).length < modulus :=
      (length_selected_le _).trans_lt hlength
    exact .inr ⟨h, i, (bytesLt_sound heval.u32Lt hsends hbytes hd hi hne).1, habove⟩

/-- Two timestamps compared with multiplicity 1 are strictly ordered, unless they are equal or
the comparison row that answers has its top bit set. -/
theorem timestampLt_sound (heval : t.Eval) (hlength : t.lookups.length < modulus)
    (hnet : ∀ values, net t.lookups .timestampLt values = 0)
    (hcompared : ∀ c ∈ t.timestampLt, c.mult ≠ 0 → c.x = c.y ∨ c.vBits 24 = 0)
    {pair : MemoryColumns Felt × MemoryColumns Felt} (hpair : pair ∈ t.neighbours)
    (haddress : pair.1.isAddressEqual = 1) (hreal : pair.2.isPadding = 0)
    (hunique : ∀ q ∈ t.neighbours, q.2.isPadding = 0 → q.2.timestamp = pair.2.timestamp → q = pair)
    (hne : pair.1.timestamp ≠ pair.2.timestamp) :
    pair.1.timestamp.val < pair.2.timestamp.val := by
  have hsent : [pair.1.timestamp, pair.2.timestamp, pair.1.isTimestampEqual] ∈
      selected .send .timestampLt t.lookups := by
    apply mem_selected.mpr
    refine ⟨send .timestampLt _ (pair.1.isAddressEqual * (1 - pair.2.isPadding)), ?_, rfl, rfl, ?_,
      rfl⟩
    · exact MemoryTables.mem_lookups.mpr (.inl ⟨pair, hpair, .tail _ (.head _)⟩)
    · simp [send, haddress, hreal]
  -- Only this pair sends the tuple: another one, the wrap-around included, would have to end in
  -- the same row.
  have hbool : ∀ x ∈ t.lookups, x.bus = .timestampLt → x.direction = .send → x.values =
      [pair.1.timestamp, pair.2.timestamp, pair.1.isTimestampEqual] →
      x.multiplicity = 0 ∨ x.multiplicity = 1 := by
    intro x hx hbus hdirection hvalues
    obtain ⟨q, hq, rfl⟩ := MemoryTables.timestampLt_send hx hbus hdirection
    have hnext := heval.memory.1 q.2 (List.mem_rotate.mp (List.of_mem_zip hq).2)
    rcases assertBool_iff.mp hnext.1 with h | h
    · simp only [send, List.cons.injEq, and_true] at hvalues
      rw [hunique q hq h hvalues.2.1]
      exact .inr (by simp [send, haddress, hreal])
    · exact .inl (by simp [send, h])
  obtain ⟨x, hx, hbus, hdirection, hvalues, hmult⟩ := exists_receive (p := modulus) hbool
    ((length_selected_le _).trans_lt hlength) (hnet _) hsent
  obtain ⟨d, hd, rfl⟩ := MemoryTables.timestampLt_receive hx hbus hdirection
  simp only [receive, List.cons.injEq, and_true] at hvalues
  rw [← hvalues.1, ← hvalues.2.1] at hne ⊢
  exact timestampLessThan_lt (heval.timestampLt d hd)
    ((hcompared d hd hmult).resolve_left hne)

end Lookups

end Loquela.Soundness
