import Mathlib.Data.Fintype.Pigeonhole
import Mathlib.Data.Option.Basic
import Mathlib.Order.Nat

/-! # Iterating a partial step

A machine that may get stuck is a partial step on its states. Its runs are the iterates of the
step, and a loop runs it while a test holds. What the steps can see of a state decides where a
loop can end: one that sees a state again never leaves.
-/

namespace Loquela.Library.Iteration

variable {S A : Type*}

/-- `n` steps in a row. -/
def iterate (step : S → Option S) : ℕ → S → Option S
  | 0, s => some s
  | n + 1, s => (iterate step n s).bind step

/-- The loop that steps while the test holds, given fuel. -/
def loop (step : S → Option S) (test : S → Prop) [DecidablePred test] : ℕ → S → Option S
  | 0, _ => none
  | fuel + 1, s => if test s then (step s).bind (loop step test fuel) else some s

section Iterates

variable {step : S → Option S} {s t : S} {m n : ℕ}

@[simp] theorem iterate_zero : iterate step 0 s = some s := rfl

theorem iterate_succ : iterate step (n + 1) s = (iterate step n s).bind step := rfl

theorem iterate_add (m n : ℕ) :
    iterate step (m + n) s = (iterate step m s).bind (iterate step n) := by
  induction n with
  | zero => exact (Option.bind_fun_some _).symm
  | succ n ih => rw [← Nat.add_assoc, iterate_succ, ih, Option.bind_assoc]; rfl

theorem iterate_succ_left : iterate step (n + 1) s = (step s).bind (iterate step n) := by
  rw [Nat.add_comm, iterate_add]
  rfl

/-- A run passes through the states of its prefixes. -/
theorem exists_prefix (h : iterate step n s = some t) (hm : m ≤ n) :
    ∃ u, iterate step m s = some u ∧ iterate step (n - m) u = some t := by
  rw [← Nat.add_sub_cancel' hm, iterate_add] at h
  exact Option.bind_eq_some_iff.mp h

/-- What every step preserves holds along a run. -/
theorem iterate_induction {I : S → Prop} (hstep : ∀ s t, I s → step s = some t → I t) (hs : I s)
    (h : iterate step n s = some t) : I t := by
  induction n generalizing t with
  | zero => exact Option.some.inj h ▸ hs
  | succ n ih =>
    obtain ⟨u, hu, hut⟩ := Option.bind_eq_some_iff.mp h
    exact hstep u t (ih hu) hut

end Iterates

section Loops

variable {step : S → Option S} {test : S → Prop} [DecidablePred test] {s t : S} {n fuel : ℕ}

/-- A loop ends in the first state of the run where the test fails. -/
theorem loop_eq_some_iff : loop step test fuel s = some t ↔ ∃ n < fuel,
    iterate step n s = some t ∧ ¬ test t ∧
      ∀ m < n, ∀ u, iterate step m s = some u → test u := by
  induction fuel generalizing s with
  | zero => simp [loop]
  | succ fuel ih =>
    rw [loop]
    split_ifs with hs
    · rw [Option.bind_eq_some_iff]
      constructor
      · rintro ⟨u, hu, hloop⟩
        obtain ⟨n, hn, ht, hfail, htest⟩ := ih.mp hloop
        refine ⟨n + 1, Nat.succ_lt_succ hn, by rw [iterate_succ_left, hu]; exact ht, hfail, ?_⟩
        intro m hm v hv
        cases m with
        | zero => exact Option.some.inj hv ▸ hs
        | succ m =>
          rw [iterate_succ_left, hu] at hv
          exact htest m (Nat.lt_of_succ_lt_succ hm) v hv
      · rintro ⟨n, hn, ht, hfail, htest⟩
        cases n with
        | zero => exact absurd (Option.some.inj ht ▸ hs) hfail
        | succ n =>
          rw [iterate_succ_left] at ht
          obtain ⟨u, hu, ht⟩ := Option.bind_eq_some_iff.mp ht
          refine ⟨u, hu, ih.mpr ⟨n, Nat.lt_of_succ_lt_succ hn, ht, hfail, ?_⟩⟩
          intro m hm v hv
          apply htest (m + 1) (Nat.succ_lt_succ hm) v
          rw [iterate_succ_left, hu]
          exact hv
    · constructor
      · intro h
        obtain rfl := Option.some.inj h
        exact ⟨0, Nat.succ_pos fuel, rfl, hs, fun m hm => absurd hm (Nat.not_lt_zero m)⟩
      · rintro ⟨n, -, ht, -, htest⟩
        cases n with
        | zero => exact ht
        | succ n => exact absurd (htest 0 (Nat.succ_pos n) s rfl) hs

/-- Where a step needs the test, a loop takes up where its first steps end. -/
theorem loop_add (hguard : ∀ s, step s ≠ none → test s) (h : iterate step n s = some t)
    (fuel : ℕ) : loop step test (n + fuel) s = loop step test fuel t := by
  induction n generalizing s with
  | zero =>
    obtain rfl := Option.some.inj h
    rw [Nat.zero_add]
  | succ n ih =>
    rw [iterate_succ_left] at h
    obtain ⟨u, hstep, hrest⟩ := Option.bind_eq_some_iff.mp h
    have htest := hguard s (by simp [hstep])
    rw [Nat.succ_add, loop, if_pos htest, hstep]
    exact ih hrest

/-- A loop whose test a step makes smaller ends, within as many steps as the measure says. -/
theorem exists_loop_of_measure {I : S → Prop} (measure : S → ℕ)
    (hstep : ∀ s, I s → test s → ∃ t, step s = some t ∧ I t ∧ measure t < measure s) (hs : I s) :
    ∃ n ≤ measure s, ∃ t, iterate step n s = some t ∧ loop step test (measure s + 1) s = some t ∧
      I t ∧ ¬ test t := by
  have hruns : ∀ k s, I s → measure s ≤ k → ∃ n ≤ measure s, ∃ t, iterate step n s = some t ∧
      I t ∧ ¬ test t ∧ ∀ m < n, ∀ u, iterate step m s = some u → test u := by
    intro k
    induction k with
    | zero =>
      intro s hs hk
      refine ⟨0, Nat.zero_le _, s, rfl, hs, ?_, fun m hm => absurd hm (Nat.not_lt_zero m)⟩
      intro htest
      obtain ⟨t, -, -, hlt⟩ := hstep s hs htest
      omega
    | succ k ih =>
      intro s hs hk
      by_cases htest : test s
      · obtain ⟨t, ht, hI, hlt⟩ := hstep s hs htest
        obtain ⟨n, hn, u, hu, hIu, hfail, hall⟩ := ih t hI (by omega)
        refine ⟨n + 1, by omega, u, by rw [iterate_succ_left, ht]; exact hu, hIu, hfail, ?_⟩
        intro m hm v hv
        cases m with
        | zero => exact Option.some.inj hv ▸ htest
        | succ m =>
          rw [iterate_succ_left, ht] at hv
          exact hall m (Nat.lt_of_succ_lt_succ hm) v hv
      · exact ⟨0, Nat.zero_le _, s, rfl, hs, htest, fun m hm => absurd hm (Nat.not_lt_zero m)⟩
  obtain ⟨n, hn, t, ht, hI, hfail, hall⟩ := hruns (measure s) s hs le_rfl
  exact ⟨n, hn, t, ht, loop_eq_some_iff.mpr ⟨n, by omega, ht, hfail, hall⟩, hI, hfail⟩

/-- When a step needs the test, a loop never ends exactly if the run goes on for ever or gets
stuck where the test holds. -/
theorem loop_eq_none_iff (hguard : ∀ s, step s ≠ none → test s) :
    (∀ fuel, loop step test fuel s = none) ↔ (∀ n, iterate step n s ≠ none) ∨
      ∃ n u, iterate step n s = some u ∧ test u ∧ step u = none := by
  constructor
  · intro hloop
    by_contra hneither
    obtain ⟨hends, hstuck⟩ := not_or.mp hneither
    obtain ⟨n, hn⟩ := not_forall_not.mp hends
    -- The last state of the run is stuck, so the loop leaves there.
    induction n with
    | zero => cases hn
    | succ n ih =>
      cases hu : iterate step n s with
      | none => exact ih hu
      | some u =>
        rw [iterate_succ, hu, Option.bind_some] at hn
        have hfail : ¬ test u := fun htest => hstuck ⟨n, u, hu, htest, hn⟩
        have hend := loop_eq_some_iff.mpr ⟨n, Nat.lt_succ_self n, hu, hfail, ?_⟩
        · exact absurd (hend.symm.trans (hloop _)) (Option.some_ne_none u)
        · intro m hm v hv
          obtain ⟨w, hw, hnext⟩ := exists_prefix hu (Nat.succ_le_of_lt hm)
          rw [iterate_succ, hv, Option.bind_some] at hw
          exact hguard v (by rw [hw]; exact Option.some_ne_none w)
  · intro h fuel
    by_contra hsome
    obtain ⟨t, ht⟩ := Option.ne_none_iff_exists'.mp hsome
    obtain ⟨n, -, hn, hfail, htest⟩ := loop_eq_some_iff.mp ht
    rcases h with hgoes | ⟨m, u, hu, hu', hstuck⟩
    · have hnext := hgoes (n + 1)
      rw [iterate_succ, hn, Option.bind_some] at hnext
      exact hfail (hguard t hnext)
    · rcases lt_trichotomy m n with hlt | rfl | hlt
      · obtain ⟨w, hw, -⟩ := exists_prefix hn (Nat.succ_le_of_lt hlt)
        rw [iterate_succ, hu, Option.bind_some, hstuck] at hw
        cases hw
      · exact hfail (Option.some.inj (hn.symm.trans hu) ▸ hu')
      · obtain ⟨w, hw, -⟩ := exists_prefix hu (Nat.succ_le_of_lt hlt)
        rw [iterate_succ, hn, Option.bind_some] at hw
        exact hfail (hguard t (by rw [hw]; exact Option.some_ne_none w))

end Loops

section Views

variable {step : S → Option S} {I : S → Prop} {view : S → A} {s : S}
  (hinvariant : ∀ s t, I s → step s = some t → I t)
  (hview : ∀ s t, I s → I t → view s = view t → (step s).map view = (step t).map view)
include hinvariant hview

/-- States that look alike have runs that look alike. -/
theorem iterate_view {t : S} (hs : I s) (ht : I t) (h : view s = view t) (n : ℕ) :
    (iterate step n s).map view = (iterate step n t).map view := by
  induction n with
  | zero => exact congrArg some h
  | succ n ih =>
    rw [iterate_succ, iterate_succ]
    cases hu : iterate step n s with
    | none =>
      rw [hu, Option.map_none, eq_comm, Option.map_eq_none_iff] at ih
      rw [ih]
    | some u =>
      rw [hu, Option.map_some, eq_comm, Option.map_eq_some_iff] at ih
      obtain ⟨v, hv, heq⟩ := ih
      rw [hv]
      exact hview u v (iterate_induction hinvariant hs hu) (iterate_induction hinvariant ht hv)
        heq.symm

/-- A run that sees a state again goes on for ever. -/
theorem iterate_ne_none_of_repeat (hs : I s) {i j : ℕ} (hij : i < j) {u v : S}
    (hu : iterate step i s = some u) (hv : iterate step j s = some v) (h : view u = view v) (n : ℕ) :
    iterate step n s ≠ none := by
  obtain ⟨w, hw, hcycle⟩ := exists_prefix hv hij.le
  obtain rfl : u = w := Option.some.inj (hu.symm.trans hw)
  have hIu := iterate_induction hinvariant hs hu
  have hIv := iterate_induction hinvariant hs hv
  -- Round the cycle: what is beyond its end looks like what is beyond its start.
  have hround : ∀ m, iterate step m u ≠ none := by
    intro m
    induction m using Nat.strongRecOn with
    | ind m ih =>
      by_cases hm : m ≤ j - i
      · obtain ⟨x, hx, -⟩ := exists_prefix hcycle hm
        rw [hx]
        exact Option.some_ne_none x
      · obtain ⟨k, rfl⟩ := Nat.exists_eq_add_of_le (Nat.le_of_not_le hm)
        rw [iterate_add, hcycle, Option.bind_some]
        intro hnone
        have hsame := iterate_view hinvariant hview hIu hIv h k
        rw [hnone, Option.map_none, Option.map_eq_none_iff] at hsame
        exact ih k (by omega) hsame
  rcases Nat.le_total n i with hn | hn
  · obtain ⟨x, hx, -⟩ := exists_prefix hu hn
    rw [hx]
    exact Option.some_ne_none x
  · obtain ⟨k, rfl⟩ := Nat.exists_eq_add_of_le hn
    rw [iterate_add, hu, Option.bind_some]
    exact hround k

/-- With finitely many views a run goes on for ever exactly if it sees a state again. -/
theorem iterate_ne_none_iff [Finite A] (hs : I s) : (∀ n, iterate step n s ≠ none) ↔
    ∃ i j, i < j ∧ ∃ u v, iterate step i s = some u ∧ iterate step j s = some v ∧
      view u = view v := by
  constructor
  · intro hgoes
    choose run hrun using fun n => Option.ne_none_iff_exists'.mp (hgoes n)
    obtain ⟨i, j, hne, heq⟩ := Finite.exists_ne_map_eq_of_infinite fun n => view (run n)
    rcases Nat.lt_or_gt_of_ne hne with hlt | hlt
    · exact ⟨i, j, hlt, run i, run j, hrun i, hrun j, heq⟩
    · exact ⟨j, i, hlt, run j, run i, hrun j, hrun i, heq.symm⟩
  · rintro ⟨i, j, hij, u, v, hu, hv, h⟩ n
    exact iterate_ne_none_of_repeat hinvariant hview hs hij hu hv h n

end Views

section Refinement

/-- `n` steps along a relation. -/
def follow (R : A → A → Prop) : ℕ → A → A → Prop
  | 0, a, b => a = b
  | n + 1, a, b => ∃ c, follow R n a c ∧ R c b

/-- What every step along the relation preserves holds after any number of them. -/
theorem follow_induction {R : A → A → Prop} {J : A → Prop} {a b : A} {n : ℕ}
    (hstep : ∀ a b, J a → R a b → J b) (ha : J a) (h : follow R n a b) : J b := by
  induction n generalizing b with
  | zero => exact h ▸ ha
  | succ n ih =>
    obtain ⟨c, hc, hcb⟩ := h
    exact hstep c b (ih hc) hcb

/-- A machine whose steps, seen through `abs`, are those along a relation runs along it. -/
theorem follow_iff_iterate {R : A → A → Prop} {step : S → Option S} {abs : S → A} {s : S} {n : ℕ}
    (hstep : ∀ m < n, ∀ t, iterate step m s = some t →
      ∀ b, R (abs t) b ↔ ∃ u, step t = some u ∧ abs u = b) :
    ∀ b, follow R n (abs s) b ↔ ∃ t, iterate step n s = some t ∧ abs t = b := by
  induction n with
  | zero =>
    intro b
    simp only [follow, iterate_zero, Option.some.injEq, exists_eq_left']
  | succ n ih =>
    intro b
    have hrun := ih fun m hm => hstep m (Nat.lt_succ_of_lt hm)
    constructor
    · rintro ⟨c, hc, hcb⟩
      obtain ⟨t, ht, rfl⟩ := (hrun c).mp hc
      obtain ⟨u, hu, rfl⟩ := (hstep n (Nat.lt_succ_self n) t ht b).mp hcb
      exact ⟨u, by rw [iterate_succ, ht, Option.bind_some, hu], rfl⟩
    · rintro ⟨u, hu, rfl⟩
      obtain ⟨t, ht, htu⟩ := Option.bind_eq_some_iff.mp hu
      exact ⟨abs t, (hrun _).mpr ⟨t, ht, rfl⟩,
        (hstep n (Nat.lt_succ_self n) t ht _).mpr ⟨u, htu, rfl⟩⟩

end Refinement

end Loquela.Library.Iteration
