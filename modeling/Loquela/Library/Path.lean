import Mathlib.Algebra.BigOperators.Group.List.Basic
import Mathlib.Algebra.CharP.Basic
import Mathlib.Data.List.Perm.Basic
import Mathlib.Tactic.Abel
import Loquela.Library.Numerals

/-! # Edge balance and single paths

Edges consume a token of their source and produce one of their target. When one extra token is
produced at `s` and one consumed at `t` and everything balances, the edges split into a path
from `s` to `t` and a balanced rest. A clock that every edge strictly advances, and that cannot
wrap around, leaves nothing over.
-/

namespace Loquela.Library.Path

variable {V E : Type*} (src dst : E → V)

/-- The edges lead from `s` to `t`, each starting where the previous one ends. -/
def IsPath : V → List E → V → Prop
  | s, [], t => s = t
  | s, e :: es, t => src e = s ∧ IsPath (dst e) es t

variable {src dst}

@[simp] theorem isPath_nil {s t : V} : IsPath src dst s [] t ↔ s = t := Iff.rfl

@[simp] theorem isPath_cons {s t : V} {e : E} {es : List E} :
    IsPath src dst s (e :: es) t ↔ src e = s ∧ IsPath src dst (dst e) es t := Iff.rfl

theorem isPath_append {s t : V} {l₁ l₂ : List E} :
    IsPath src dst s (l₁ ++ l₂) t ↔ ∃ u, IsPath src dst s l₁ u ∧ IsPath src dst u l₂ t := by
  induction l₁ generalizing s with
  | nil => simp
  | cons e es ih =>
    rw [List.cons_append, isPath_cons, ih]
    constructor
    · rintro ⟨he, u, h₁, h₂⟩
      exact ⟨u, ⟨he, h₁⟩, h₂⟩
    · rintro ⟨u, ⟨he, h₁⟩, h₂⟩
      exact ⟨he, u, h₁, h₂⟩

/-- Balanced tokens: a path from `s` to `t` and a balanced rest use every edge once. -/
theorem exists_path_and_rest [DecidableEq V] {edges : List E} {s t : V}
    (h : (s :: edges.map dst).Perm (t :: edges.map src)) :
    ∃ path rest, edges.Perm (path ++ rest) ∧ IsPath src dst s path t ∧
      (rest.map dst).Perm (rest.map src) := by
  induction hn : edges.length generalizing edges s with
  | zero =>
    obtain rfl := List.eq_nil_of_length_eq_zero hn
    refine ⟨[], [], List.Perm.refl _, ?_, List.Perm.refl _⟩
    simpa using h.subset List.mem_cons_self
  | succ n ih =>
    by_cases hst : s = t
    · subst hst
      exact ⟨[], edges, List.Perm.refl _, rfl, h.cons_inv⟩
    · -- `s` is not the final token, so some edge consumes it.
      have hs : s ∈ edges.map src := by
        rcases List.mem_cons.mp (h.subset List.mem_cons_self) with hs | hs
        · exact absurd hs hst
        · exact hs
      obtain ⟨e, he, rfl⟩ := List.mem_map.mp hs
      obtain ⟨l₁, l₂, rfl⟩ := List.append_of_mem he
      have hmiddle : (l₁ ++ e :: l₂).Perm (e :: (l₁ ++ l₂)) := List.perm_middle
      have hrest : (dst e :: (l₁ ++ l₂).map dst).Perm (t :: (l₁ ++ l₂).map src) := by
        apply List.Perm.cons_inv (a := src e)
        have hdst := (hmiddle.map dst).cons (src e)
        have hsrc := (hmiddle.map src).cons t
        exact (hdst.symm.trans (h.trans hsrc)).trans (List.Perm.swap _ _ _)
      have hlength : (l₁ ++ l₂).length = n := by
        have := hmiddle.length_eq
        rw [hn, List.length_cons] at this
        omega
      obtain ⟨path, rest, hperm, hpath, hbalanced⟩ := ih hrest hlength
      exact ⟨e :: path, rest, hmiddle.trans (hperm.cons e), ⟨rfl, hpath⟩, hbalanced⟩

section Clock

variable {F : Type*} [Ring F] {clock : V → F} {ticks : E → ℕ}

/-- The clock along a path is the sum of the ticks before it. -/
theorem clock_of_isPath {s t : V} {path : List E}
    (htick : ∀ e ∈ path, clock (dst e) = clock (src e) + ticks e)
    (h : IsPath src dst s path t) : clock t = clock s + ((path.map ticks).sum : ℕ) := by
  induction path generalizing s with
  | nil => simp [isPath_nil.mp h]
  | cons e es ih =>
    obtain ⟨rfl, hes⟩ := h
    rw [ih (fun f hf => htick f (List.mem_cons_of_mem e hf)) hes,
      htick e List.mem_cons_self, List.map_cons, List.sum_cons, Nat.cast_add, add_assoc]

theorem clock_sum_of_perm {rest : List E}
    (htick : ∀ e ∈ rest, clock (dst e) = clock (src e) + ticks e)
    (h : (rest.map dst).Perm (rest.map src)) : (((rest.map ticks).sum : ℕ) : F) = 0 := by
  have hsum : ((rest.map dst).map clock).sum = ((rest.map src).map clock).sum :=
    (h.map clock).sum_eq
  have hadd : ((rest.map dst).map clock).sum =
      ((rest.map src).map clock).sum + (((rest.map ticks).sum : ℕ) : F) := by
    clear hsum h
    induction rest with
    | nil => simp
    | cons e es ih =>
      have ih := ih fun f hf => htick f (List.mem_cons_of_mem e hf)
      simp only [List.map_cons, List.sum_cons, Nat.cast_add, ih, htick e List.mem_cons_self]
      abel
  rw [hadd] at hsum
  exact left_eq_add.mp hsum.symm

variable {p : ℕ} [CharP F p]

variable (clock) in
/-- Edges that strictly advance a clock of period `p`, by less than `p` in total, balance only
as one path. -/
theorem exists_path [DecidableEq V] {edges : List E} {s t : V}
    (h : (s :: edges.map dst).Perm (t :: edges.map src))
    (htick : ∀ e ∈ edges, clock (dst e) = clock (src e) + ticks e)
    (hpos : ∀ e ∈ edges, 0 < ticks e) (hsum : (edges.map ticks).sum < p) :
    ∃ path, edges.Perm path ∧ IsPath src dst s path t := by
  obtain ⟨path, rest, hperm, hpath, hbalanced⟩ := exists_path_and_rest h
  have hmem : ∀ e ∈ rest, e ∈ edges := fun e he =>
    hperm.symm.subset (List.mem_append_right _ he)
  have hzero := clock_sum_of_perm (fun e he => htick e (hmem e he)) hbalanced
  have hle : (rest.map ticks).sum ≤ (edges.map ticks).sum := by
    rw [(hperm.map ticks).sum_eq, List.map_append, List.sum_append]
    exact Nat.le_add_left _ _
  have hnone : (rest.map ticks).sum = 0 :=
    Nat.eq_zero_of_dvd_of_lt ((CharP.cast_eq_zero_iff F p _).mp hzero) (hle.trans_lt hsum)
  have hrest : rest = [] := by
    cases rest with
    | nil => rfl
    | cons e es =>
      rw [List.map_cons, List.sum_cons] at hnone
      have := hpos e (hmem e List.mem_cons_self)
      omega
  rw [hrest, List.append_nil] at hperm
  exact ⟨path, hperm, hpath⟩

/-- On such a path no two edges start at the same clock value. -/
theorem clock_nodup {s t : V} {path : List E}
    (htick : ∀ e ∈ path, clock (dst e) = clock (src e) + ticks e)
    (hpos : ∀ e ∈ path, 0 < ticks e) (hsum : (path.map ticks).sum < p)
    (h : IsPath src dst s path t) : (path.map fun e => clock (src e)).Nodup := by
  induction path generalizing s with
  | nil => exact List.nodup_nil
  | cons e es ih =>
    obtain ⟨rfl, hes⟩ := h
    rw [List.map_cons, List.sum_cons] at hsum
    rw [List.map_cons, List.nodup_cons]
    constructor
    · intro hmem
      obtain ⟨f, hf, hclock⟩ := List.mem_map.mp hmem
      obtain ⟨l₁, l₂, rfl⟩ := List.append_of_mem hf
      obtain ⟨u, hu, hrest⟩ := isPath_append.mp hes
      have hu' : src f = u := (isPath_cons.mp hrest).1
      have htick₁ : ∀ g ∈ l₁, clock (dst g) = clock (src g) + ticks g := fun g hg =>
        htick g (List.mem_cons_of_mem e (List.mem_append_left _ hg))
      have hlater := clock_of_isPath htick₁ hu
      rw [← hu', hclock, htick e List.mem_cons_self, add_assoc, ← Nat.cast_add] at hlater
      have hzero := (CharP.cast_eq_zero_iff F p _).mp (left_eq_add.mp hlater)
      rw [List.map_append, List.sum_append] at hsum
      have hlt : ticks e + (l₁.map ticks).sum < p := by omega
      have := Nat.eq_zero_of_dvd_of_lt hzero hlt
      have := hpos e List.mem_cons_self
      omega
    · exact ih (fun f hf => htick f (List.mem_cons_of_mem e hf))
        (fun f hf => hpos f (List.mem_cons_of_mem e hf)) (by omega) hes

end Clock

end Loquela.Library.Path
