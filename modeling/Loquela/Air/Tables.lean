import Loquela.Air.Bus

/-! # Lookup tables

The preprocessed tables: every row is fixed, and the prover only chooses with what multiplicity
it is received.
-/

namespace Loquela.Air

structure Table where
  bus : BusName
  rows : List (List ℕ)

/-- Row `i` of the table, received with multiplicity `mult i`. -/
def Table.lookups {F : Type*} [Field F] (t : Table) (mult : ℕ → F) : List (Interaction F) :=
  t.rows.mapIdx fun i row => receive t.bus (row.map Nat.cast) (mult i)

def bytesAir : Table := ⟨.bytes, (List.range 256).map fun b => [b]⟩

/-- The three bitwise tables list their operand pairs in the same order. -/
def bitwiseRows (op : ℕ → ℕ → ℕ) : List (List ℕ) :=
  (List.range 256).flatMap fun x => (List.range 256).map fun y => [x, y, op x y]

def xorAir : Table := ⟨.bytesXor, bitwiseRows (· ^^^ ·)⟩

def orAir : Table := ⟨.bytesOr, bitwiseRows (· ||| ·)⟩

def andAir : Table := ⟨.bytesAnd, bitwiseRows (· &&& ·)⟩

def byteShiftLeftAir : Table where
  bus := .byteSll
  rows := (List.range 256).flatMap fun byteVal => (List.range 8).map fun bitShamt =>
    [byteVal, bitShamt, (byteVal <<< bitShamt) &&& 0xFF,
      if bitShamt = 0 then 0 else byteVal >>> (8 - bitShamt)]

def byteShiftRightAir : Table where
  bus := .byteSrl
  rows := (List.range 256).flatMap fun byteVal => (List.range 8).map fun bitShamt =>
    [byteVal, bitShamt, byteVal >>> bitShamt,
      if bitShamt = 0 then 0 else (byteVal <<< (8 - bitShamt)) &&& 0xFF]

/-- The pairs `x < y < n` ordered by `y`. -/
def lessThanPairs (n : ℕ) : List (List ℕ) :=
  (List.range n).flatMap fun y => (List.range y).map fun x => [x, y]

/-- The valid pairs, padded to `2 ^ 15` rows with the pair `(0, 0)`. -/
def lessThanAir : Table := ⟨.bytesLt, lessThanPairs 256 ++ List.replicate 128 [0, 0]⟩

section Lookups

variable {F : Type*} [Field F] {t : Table} {mult : ℕ → F} {x : Interaction F}

theorem Table.mem_lookups (h : x ∈ t.lookups mult) :
    ∃ row ∈ t.rows, x.bus = t.bus ∧ x.direction = .receive ∧ x.values = row.map Nat.cast := by
  obtain ⟨i, hi, rfl⟩ := List.mem_mapIdx.mp h
  exact ⟨t.rows[i], List.getElem_mem hi, rfl, rfl, rfl⟩

@[simp] theorem Table.length_lookups (t : Table) : (t.lookups mult).length = t.rows.length :=
  List.length_mapIdx

theorem lessThanPairs_length (n : ℕ) : (lessThanPairs n).length = n * (n - 1) / 2 := by
  induction n with
  | zero => rfl
  | succ n ih =>
    rw [lessThanPairs, List.range_succ, List.flatMap_append, List.length_append, ← lessThanPairs,
      ih, Nat.triangle_succ]
    simp

theorem lessThanAir_height : lessThanAir.rows.length = 2 ^ 15 := by
  rw [lessThanAir, List.length_append, lessThanPairs_length, List.length_replicate]
  norm_num

theorem Table.multiplicity_eq_zero (t : Table) :
    ∀ x ∈ t.lookups (fun _ => (0 : F)), x.multiplicity = 0 := by
  intro x hx
  obtain ⟨i, hi, rfl⟩ := List.mem_mapIdx.mp hx
  rfl

theorem mem_bytesAir {row : List ℕ} : row ∈ bytesAir.rows ↔ ∃ b < 256, row = [b] := by
  simp [bytesAir, eq_comm]

theorem mem_bitwiseRows {op : ℕ → ℕ → ℕ} {row : List ℕ} :
    row ∈ bitwiseRows op ↔ ∃ x < 256, ∃ y < 256, row = [x, y, op x y] := by
  simp [bitwiseRows, eq_comm]

theorem mem_lessThanAir {row : List ℕ} (h : row ∈ lessThanAir.rows) :
    (∃ x y, x < y ∧ y < 256 ∧ row = [x, y]) ∨ row = [0, 0] := by
  rcases List.mem_append.mp h with h | h
  · obtain ⟨y, hy, hrow⟩ := List.mem_flatMap.mp h
    obtain ⟨x, hx, rfl⟩ := List.mem_map.mp hrow
    exact .inl ⟨x, y, List.mem_range.mp hx, List.mem_range.mp hy, rfl⟩
  · exact .inr (List.eq_of_mem_replicate h)

end Lookups

/-- Row `i` of a table as a tuple. -/
def Table.rowAt {F : Type*} [Field F] (t : Table) (i : ℕ) : List F :=
  (t.rows.getD i []).map Nat.cast

theorem Table.rowAt_eq {F : Type*} [Field F] {t : Table} {i : ℕ} {row : List ℕ}
    (h : t.rows[i]? = some row) : t.rowAt i = row.map (Nat.cast (R := F)) := by
  rw [Table.rowAt, List.getD_eq_getElem?_getD, h, Option.getD_some]

theorem length_flatMap_range {α : Type*} (f : ℕ → ℕ → α) (n m : ℕ) :
    ((List.range n).flatMap fun x => (List.range m).map (f x)).length = n * m := by
  simp

theorem getElem?_flatMap_range {α : Type*} {f : ℕ → ℕ → α} {n m x y : ℕ} (hx : x < n) (hy : y < m) :
    ((List.range n).flatMap fun x => (List.range m).map (f x))[x * m + y]? = some (f x y) := by
  induction n with
  | zero => exact absurd hx (Nat.not_lt_zero x)
  | succ n ih =>
    rw [List.range_succ, List.flatMap_append]
    rcases Nat.lt_succ_iff_lt_or_eq.mp hx with hx | rfl
    · have hin : x * m + y < n * m :=
        calc x * m + y < (x + 1) * m := by rw [Nat.succ_mul]; omega
          _ ≤ n * m := Nat.mul_le_mul_right m hx
      rw [List.getElem?_append_left (by rwa [length_flatMap_range]), ih hx]
    · rw [List.getElem?_append_right (by rw [length_flatMap_range]; omega), length_flatMap_range,
        Nat.add_sub_cancel_left]
      simp [hy]

theorem bitwiseRows_getElem? {op : ℕ → ℕ → ℕ} {x y : ℕ} (hx : x < 256) (hy : y < 256) :
    (bitwiseRows op)[x * 256 + y]? = some [x, y, op x y] :=
  getElem?_flatMap_range hx hy

theorem byteShiftLeftAir_getElem? {x k : ℕ} (hx : x < 256) (hk : k < 8) :
    byteShiftLeftAir.rows[x * 8 + k]? =
      some [x, k, (x <<< k) &&& 0xFF, if k = 0 then 0 else x >>> (8 - k)] :=
  getElem?_flatMap_range hx hk

theorem byteShiftRightAir_getElem? {x k : ℕ} (hx : x < 256) (hk : k < 8) :
    byteShiftRightAir.rows[x * 8 + k]? =
      some [x, k, x >>> k, if k = 0 then 0 else (x <<< (8 - k)) &&& 0xFF] :=
  getElem?_flatMap_range hx hk

theorem lessThanPairs_getElem? {n x y : ℕ} (hxy : x < y) (hy : y < n) :
    (lessThanPairs n)[y * (y - 1) / 2 + x]? = some [x, y] := by
  induction n with
  | zero => exact absurd hy (Nat.not_lt_zero y)
  | succ n ih =>
    have hsplit : lessThanPairs (n + 1) = lessThanPairs n ++ (List.range n).map fun x => [x, n] := by
      rw [lessThanPairs, List.range_succ, List.flatMap_append, ← lessThanPairs]
      simp
    rw [hsplit]
    rcases Nat.lt_succ_iff_lt_or_eq.mp hy with hy | rfl
    · rw [List.getElem?_append_left, ih hy]
      exact (List.getElem?_eq_some_iff.mp (ih hy)).1
    · rw [List.getElem?_append_right (by rw [lessThanPairs_length]; omega), lessThanPairs_length,
        Nat.add_sub_cancel_left]
      simp [hxy]

end Loquela.Air
