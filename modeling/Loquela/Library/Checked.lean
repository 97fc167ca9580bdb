import Mathlib.Algebra.BigOperators.Group.List.Basic
import Mathlib.Data.List.Basic
import Mathlib.Data.Nat.Cast.Defs
import Mathlib.Logic.Function.Basic
import Loquela.Library.Numerals

/-! # Checked computations

Programs that can panic, as computations in `Except`: assertions, unwrapped options, bounded
arithmetic and tables of counters. Each operation has one lemma that says when it returns, and
what.
-/

namespace Loquela.Library.Checked

universe u

variable {ε : Type*} {α β ι : Type u}

/-- A sequence returns when both parts do. -/
@[simp] theorem bind_eq_ok {x : Except ε α} {f : α → Except ε β} {b : β} :
    x >>= f = .ok b ↔ ∃ a, x = .ok a ∧ f a = .ok b := by
  cases x with
  | error e => simp [bind, Except.bind]
  | ok a => simp [bind, Except.bind]

@[simp] theorem pure_eq_ok {a b : α} : (pure a : Except ε α) = .ok b ↔ a = b := by
  simp [pure, Except.pure]

/-- `assert!`. -/
def require (p : Prop) [Decidable p] (e : ε) : Except ε PUnit := if p then .ok ⟨⟩ else .error e

@[simp] theorem require_eq_ok {p : Prop} [Decidable p] {e : ε} {u : PUnit} :
    require p e = .ok u ↔ p := by
  by_cases hp : p <;> simp [require, hp]

/-- `expect`. -/
def expect (e : ε) : Option α → Except ε α
  | some a => .ok a
  | none => .error e

@[simp] theorem expect_eq_ok {e : ε} {o : Option α} {a : α} :
    expect e o = .ok a ↔ o = some a := by
  cases o <;> simp [expect]

/-- The same check for every element of a list. -/
theorem forM_eq_ok {f : β → Except ε PUnit} {l : List β} {u : PUnit} :
    forM l f = .ok u ↔ ∀ x ∈ l, f x = .ok ⟨⟩ := by
  induction l with
  | nil => simp
  | cons x l ih =>
    rw [List.forM_cons, bind_eq_ok, ih, List.forall_mem_cons]
    constructor
    · rintro ⟨_, hx, hl⟩
      exact ⟨hx, hl⟩
    · rintro ⟨hx, hl⟩
      exact ⟨_, hx, hl⟩

/-- Every index of a list is in bounds. -/
def inBounds (e : ε) (size : ℕ) (indices : List ℕ) : Except ε PUnit :=
  forM indices fun i => require (i < size) e

@[simp] theorem inBounds_eq_ok {e : ε} {size : ℕ} {indices : List ℕ} {u : PUnit} :
    inBounds e size indices = .ok u ↔ ∀ i ∈ indices, i < size := by
  simp [inBounds, forM_eq_ok]

/-- Addition of numbers below a bound. -/
def addBelow (bound : ℕ) (e : ε) (a b : ℕ) : Except ε ℕ :=
  if a + b < bound then .ok (a + b) else .error e

/-- Subtraction of natural numbers. -/
def subtract (e : ε) (a b : ℕ) : Except ε ℕ := if b ≤ a then .ok (a - b) else .error e

variable {e : ε} {bound a b c : ℕ}

@[simp] theorem addBelow_eq_ok : addBelow bound e a b = .ok c ↔ a + b < bound ∧ a + b = c := by
  by_cases h : a + b < bound <;> simp [addBelow, h]

@[simp] theorem subtract_eq_ok : subtract e a b = .ok c ↔ b ≤ a ∧ a - b = c := by
  by_cases h : b ≤ a <;> simp [subtract, h]

/-- A running sum stays below the bound when the whole sum does. -/
theorem foldlM_addBelow {l : List ℕ} (ha : a < bound) :
    l.foldlM (addBelow bound e) a = .ok c ↔ a + l.sum < bound ∧ a + l.sum = c := by
  induction l generalizing a with
  | nil => simp [ha]
  | cons b l ih =>
    rw [List.foldlM_cons, bind_eq_ok, List.sum_cons, ← add_assoc]
    constructor
    · rintro ⟨_, hab, hl⟩
      obtain ⟨hlt, rfl⟩ := addBelow_eq_ok.mp hab
      exact (ih hlt).mp hl
    · intro h
      have hlt : a + b < bound := by omega
      exact ⟨a + b, addBelow_eq_ok.mpr ⟨hlt, rfl⟩, (ih hlt).mpr h⟩

section Counters

variable [AddCommMonoidWithOne α] {indices : List ℕ} {size : ℕ}

/-- `counters[i] += 1`. -/
def bump (e : ε) (counters : List α) (i : ℕ) : Except ε (List α) :=
  if i < counters.length then .ok (counters.modify i (· + 1)) else .error e

/-- A vector of counters, bumped at every index of a list. -/
def counts (e : ε) (size : ℕ) (indices : List ℕ) : Except ε (List α) :=
  indices.foldlM (bump e) (List.replicate size 0)

theorem bump_eq_ok {counters counters' : List α} {i : ℕ} :
    bump e counters i = .ok counters' ↔
      i < counters.length ∧ counters.modify i (· + 1) = counters' := by
  by_cases h : i < counters.length <;> simp [bump, h]

theorem foldlM_bump {counters counters' : List α} :
    indices.foldlM (bump e) counters = .ok counters' ↔ (∀ i ∈ indices, i < counters.length) ∧
      counters.mapIdx (fun i count => count + (indices.count i : α)) = counters' := by
  induction indices generalizing counters with
  | nil =>
    have hsame :
        counters.mapIdx (fun i count => count + (([] : List ℕ).count i : α)) = counters := by
      apply List.ext_getElem
      · simp
      · intro i hi hi'
        simp
    rw [hsame]
    simp
  | cons i indices ih =>
    have hmodify : (counters.modify i (· + 1)).mapIdx
        (fun j count => count + (indices.count j : α)) =
          counters.mapIdx fun j count => count + ((i :: indices).count j : α) := by
      apply List.ext_getElem
      · simp
      · intro j hj hj'
        rw [List.getElem_mapIdx, List.getElem_mapIdx, List.getElem_modify, List.count_cons]
        by_cases hij : i = j
        · subst hij
          rw [if_pos rfl, if_pos (beq_self_eq_true i), Nat.cast_add, Nat.cast_one, add_assoc,
            add_comm 1]
        · simp [hij]
    rw [List.foldlM_cons, bind_eq_ok, List.forall_mem_cons]
    constructor
    · rintro ⟨_, hbump, hrest⟩
      obtain ⟨hi, rfl⟩ := bump_eq_ok.mp hbump
      obtain ⟨hindices, rfl⟩ := ih.mp hrest
      exact ⟨⟨hi, by simpa using hindices⟩, hmodify.symm⟩
    · rintro ⟨⟨hi, hindices⟩, rfl⟩
      exact ⟨_, bump_eq_ok.mpr ⟨hi, rfl⟩, ih.mpr ⟨by simpa using hindices, hmodify⟩⟩

/-- The counters hold how often their index occurs. -/
theorem counts_eq_ok {counters : List α} : counts e size indices = .ok counters ↔
    (∀ i ∈ indices, i < size) ∧
      (List.range size).map (fun i => (indices.count i : α)) = counters := by
  have hcounts : (List.replicate size (0 : α)).mapIdx
      (fun i count => count + (indices.count i : α)) =
        (List.range size).map fun i => (indices.count i : α) := by
    apply List.ext_getElem
    · simp
    · intro i hi hi'
      simp
  rw [counts, foldlM_bump, hcounts, List.length_replicate]

end Counters

section Tables

variable [DecidableEq ι]

/-- A table filled key by key. -/
def tabulate (keys : List ι) (f : ι → Except ε (Option β)) : Except ε (ι → Option β) :=
  keys.foldlM (fun table key => do return Function.update table key (← f key)) fun _ => none

theorem foldlM_update {keys : List ι} {f : ι → Except ε (Option β)} {table table' : ι → Option β} :
    keys.foldlM (fun table key => do return Function.update table key (← f key)) table =
        .ok table' ↔
      (∀ key ∈ keys, f key = .ok (table' key)) ∧ ∀ key ∉ keys, table' key = table key := by
  induction keys generalizing table with
  | nil => simp [List.foldlM_nil, funext_iff, eq_comm (a := table)]
  | cons k keys ih =>
    simp only [List.foldlM_cons, bind_eq_ok, pure_eq_ok, ih, List.mem_cons, forall_eq_or_imp,
      not_or, and_imp]
    constructor
    · rintro ⟨_, ⟨entry, hk, rfl⟩, hkeys, hother⟩
      refine ⟨⟨?_, hkeys⟩, fun key hne hkey => ?_⟩
      · by_cases hmem : k ∈ keys
        · exact hkeys k hmem
        · rw [hother k hmem, Function.update_self, hk]
      · rw [hother key hkey, Function.update_of_ne hne]
    · rintro ⟨⟨hk, hkeys⟩, hother⟩
      refine ⟨_, ⟨_, hk, rfl⟩, hkeys, fun key hkey => ?_⟩
      by_cases hne : key = k
      · subst hne
        rw [Function.update_self]
      · rw [hother key hne hkey, Function.update_of_ne hne]

/-- With every key in the list, the table holds every entry. -/
theorem tabulate_eq_ok {keys : List ι} (hkeys : ∀ key, key ∈ keys) {f : ι → Except ε (Option β)}
    {table : ι → Option β} :
    tabulate keys f = .ok table ↔ ∀ key, f key = .ok (table key) := by
  rw [tabulate, foldlM_update]
  constructor
  · rintro ⟨h, -⟩ key
    exact h key (hkeys key)
  · intro h
    exact ⟨fun key _ => h key, fun key hkey => absurd (hkeys key) hkey⟩

end Tables

end Loquela.Library.Checked
