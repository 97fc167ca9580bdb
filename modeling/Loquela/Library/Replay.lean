import Mathlib.Data.List.Induction
import Mathlib.Data.List.Nodup
import Mathlib.Data.List.Pairwise
import Mathlib.Logic.Function.Basic
import Mathlib.Order.Nat

/-! # Logs of memory accesses

An access to a cell finds a value and leaves one; a read leaves what it finds. A log is
consistent when every access finds what the latest earlier access to its cell left. For a log
in order of time this can be checked by replaying it.
-/

namespace Loquela.Library.Replay

structure Access (A V : Type*) where
  address : A
  time : Nat
  read : V
  write : V
  deriving DecidableEq

variable {A V : Type*}

/-- Among `log`, the access `x` finds what the access to its cell with the greatest smaller
time left, or `init` when there is none. -/
def ReadsLatest (init : V) (log : List (Access A V)) (x : Access A V) : Prop :=
  (∃ y ∈ log, y.address = x.address ∧ y.time < x.time ∧
      (∀ z ∈ log, z.address = x.address → z.time < x.time → z.time ≤ y.time) ∧
      x.read = y.write) ∨
    (∀ y ∈ log, y.address = x.address → x.time ≤ y.time) ∧ x.read = init

instance [DecidableEq A] [DecidableEq V] (init : V) (log : List (Access A V)) (x : Access A V) :
    Decidable (ReadsLatest init log x) := inferInstanceAs (Decidable (_ ∨ _))

def Consistent (init : V) (log : List (Access A V)) : Prop :=
  ∀ x ∈ log, ReadsLatest init log x

instance [DecidableEq A] [DecidableEq V] (init : V) (log : List (Access A V)) :
    Decidable (Consistent init log) := inferInstanceAs (Decidable (∀ x ∈ log, _))

section Replaying

variable [DecidableEq A]

/-- The memory after a log. -/
def replay (m : A → V) : List (Access A V) → A → V
  | [] => m
  | x :: xs => replay (Function.update m x.address x.write) xs

/-- Replaying the log from `m`, every access finds the current content of its cell. -/
def Coherent (m : A → V) : List (Access A V) → Prop
  | [] => True
  | x :: xs => x.read = m x.address ∧ Coherent (Function.update m x.address x.write) xs

@[simp] theorem replay_nil (m : A → V) : replay m [] = m := rfl

@[simp] theorem replay_cons (m : A → V) (x : Access A V) (xs : List (Access A V)) :
    replay m (x :: xs) = replay (Function.update m x.address x.write) xs := rfl

@[simp] theorem coherent_nil (m : A → V) : Coherent m [] := trivial

@[simp] theorem coherent_cons (m : A → V) (x : Access A V) (xs : List (Access A V)) :
    Coherent m (x :: xs) ↔
      x.read = m x.address ∧ Coherent (Function.update m x.address x.write) xs := Iff.rfl

theorem replay_append (m : A → V) (l₁ l₂ : List (Access A V)) :
    replay m (l₁ ++ l₂) = replay (replay m l₁) l₂ := by
  induction l₁ generalizing m with
  | nil => rfl
  | cons x xs ih => rw [List.cons_append, replay_cons, replay_cons, ih]

theorem coherent_append (m : A → V) (l₁ l₂ : List (Access A V)) :
    Coherent m (l₁ ++ l₂) ↔ Coherent m l₁ ∧ Coherent (replay m l₁) l₂ := by
  induction l₁ generalizing m with
  | nil => simp
  | cons x xs ih => rw [List.cons_append, coherent_cons, coherent_cons, ih, replay_cons, and_assoc]

theorem replay_of_forall_ne {m : A → V} {log : List (Access A V)} {a : A}
    (h : ∀ x ∈ log, x.address ≠ a) : replay m log a = m a := by
  induction log generalizing m with
  | nil => rfl
  | cons x xs ih =>
    rw [replay_cons, ih fun y hy => h y (List.mem_cons_of_mem x hy),
      Function.update_of_ne (h x List.mem_cons_self).symm]

/-- The first access to a cell finds its initial content. -/
theorem exists_first_read {m : A → V} {log : List (Access A V)} (hlog : Coherent m log) {a : A}
    (h : ∃ x ∈ log, x.address = a) : ∃ x ∈ log, x.address = a ∧ x.read = m a := by
  induction log generalizing m with
  | nil => simp at h
  | cons x xs ih =>
    obtain ⟨hread, hrest⟩ := hlog
    by_cases hx : x.address = a
    · exact ⟨x, List.mem_cons_self, hx, hx ▸ hread⟩
    · obtain ⟨y, hy, hya⟩ := h
      rcases List.mem_cons.mp hy with rfl | hy
      · exact absurd hya hx
      · obtain ⟨z, hz, hza, hzr⟩ := ih hrest ⟨y, hy, hya⟩
        refine ⟨z, List.mem_cons_of_mem x hz, hza, ?_⟩
        rwa [Function.update_of_ne (Ne.symm hx)] at hzr

/-- A log that finds and leaves the content of `m` everywhere is coherent and changes nothing. -/
theorem coherent_reads {m : A → V} {log : List (Access A V)}
    (h : ∀ x ∈ log, x.read = m x.address ∧ x.write = m x.address) :
    Coherent m log ∧ replay m log = m := by
  induction log with
  | nil => exact ⟨trivial, rfl⟩
  | cons x xs ih =>
    obtain ⟨hread, hwrite⟩ := h x List.mem_cons_self
    have hm : Function.update m x.address x.write = m := by rw [hwrite, Function.update_eq_self]
    obtain ⟨hcoherent, hreplay⟩ := ih fun y hy => h y (List.mem_cons_of_mem x hy)
    exact ⟨⟨hread, by rwa [hm]⟩, by rw [replay_cons, hm, hreplay]⟩

/-- A read at the head of a coherent log leaves the memory as it is. -/
theorem coherent_read {m : A → V} {x : Access A V} {xs : List (Access A V)}
    (hread : x.write = x.read) (h : Coherent m (x :: xs)) :
    x.read = m x.address ∧ Coherent m xs := by
  obtain ⟨hfound, hrest⟩ := h
  rw [hread, hfound, Function.update_eq_self] at hrest
  exact ⟨hfound, hrest⟩

/-- What the memory starts with and every access passes on holds of all values of a coherent
log. -/
theorem coherent_forall {Q : V → Prop} {m : A → V} {log : List (Access A V)}
    (hlog : Coherent m log) (hm : ∀ a, Q (m a)) (hwrite : ∀ x ∈ log, Q x.read → Q x.write) :
    ∀ x ∈ log, Q x.read ∧ Q x.write := by
  induction log generalizing m with
  | nil => exact List.forall_mem_nil _
  | cons x xs ih =>
    obtain ⟨hread, hrest⟩ := hlog
    have hx : Q x.read := hread ▸ hm x.address
    have hx' := hwrite x List.mem_cons_self hx
    rintro y (_ | ⟨_, hy⟩)
    · exact ⟨hx, hx'⟩
    · refine ih hrest (fun a => ?_) (fun z hz => hwrite z (List.mem_cons_of_mem x hz)) y hy
      by_cases ha : a = x.address
      · rw [ha, Function.update_self]
        exact hx'
      · rw [Function.update_of_ne ha]
        exact hm a

/-- A cell of a replayed log holds what its latest access left. -/
theorem replay_latest (init : V) {log : List (Access A V)}
    (hsorted : log.Pairwise fun x y => x.time < y.time) (a : A) :
    (∃ y ∈ log, y.address = a ∧ (∀ z ∈ log, z.address = a → z.time ≤ y.time) ∧
        replay (fun _ => init) log a = y.write) ∨
      (∀ y ∈ log, y.address ≠ a) ∧ replay (fun _ => init) log a = init := by
  induction log using List.reverseRecOn with
  | nil => exact .inr ⟨by simp, rfl⟩
  | append_singleton xs x ih =>
    obtain ⟨hxs, -, hlast⟩ := List.pairwise_append.mp hsorted
    have hlt : ∀ z ∈ xs, z.time < x.time := fun z hz => hlast z hz x (List.mem_singleton.mpr rfl)
    rw [replay_append, replay_cons, replay_nil]
    by_cases hx : x.address = a
    · refine .inl ⟨x, by simp, hx, ?_, by rw [hx, Function.update_self]⟩
      intro z hz _
      rcases List.mem_append.mp hz with hz | hz
      · exact (hlt z hz).le
      · exact (congrArg Access.time (List.mem_singleton.mp hz)).le
    · rw [Function.update_of_ne (Ne.symm hx)]
      rcases ih hxs with ⟨y, hy, hya, hmax, hval⟩ | ⟨hnone, hval⟩
      · refine .inl ⟨y, List.mem_append_left _ hy, hya, ?_, hval⟩
        intro z hz hza
        rcases List.mem_append.mp hz with hz | hz
        · exact hmax z hz hza
        · exact absurd (List.mem_singleton.mp hz ▸ hza) hx
      · refine .inr ⟨?_, hval⟩
        intro y hy
        rcases List.mem_append.mp hy with hy | hy
        · exact hnone y hy
        · exact List.mem_singleton.mp hy ▸ hx

end Replaying

theorem eq_of_time_eq {log : List (Access A V)}
    (hsorted : log.Pairwise fun x y => x.time < y.time) {x y : Access A V} (hx : x ∈ log)
    (hy : y ∈ log) (h : x.time = y.time) : x = y := by
  have hnodup : (log.map Access.time).Nodup :=
    List.pairwise_map.mpr (hsorted.imp fun h => h.ne)
  exact List.inj_on_of_nodup_map hnodup hx hy h

/-- A later access does not matter to an earlier one. -/
theorem readsLatest_append {init : V} {log : List (Access A V)} {x y : Access A V}
    (hxy : x.time < y.time) : ReadsLatest init (log ++ [y]) x ↔ ReadsLatest init log x := by
  have hmem : ∀ z ∈ log ++ [y], z.time < x.time → z ∈ log := by
    intro z hz hzx
    rcases List.mem_append.mp hz with hz | hz
    · exact hz
    · rw [List.mem_singleton.mp hz] at hzx
      exact absurd hxy hzx.not_gt
  constructor
  · rintro (⟨z, hz, hza, hzt, hmax, hread⟩ | ⟨hnone, hread⟩)
    · exact .inl ⟨z, hmem z hz hzt, hza, hzt, fun w hw => hmax w (List.mem_append_left _ hw), hread⟩
    · exact .inr ⟨fun w hw => hnone w (List.mem_append_left _ hw), hread⟩
  · rintro (⟨z, hz, hza, hzt, hmax, hread⟩ | ⟨hnone, hread⟩)
    · exact .inl ⟨z, List.mem_append_left _ hz, hza, hzt,
        fun w hw hwa hwt => hmax w (hmem w hw hwt) hwa hwt, hread⟩
    · refine .inr ⟨fun w hw hwa => ?_, hread⟩
      by_contra hwx
      exact hwx (hnone w (hmem w hw (not_le.mp hwx)) hwa)

section InOrder

variable [DecidableEq A]

/-- The last access of a log finds the latest value exactly when it finds the replayed one. -/
theorem readsLatest_last {init : V} {log : List (Access A V)} {x : Access A V}
    (hsorted : log.Pairwise fun x y => x.time < y.time) (hlt : ∀ z ∈ log, z.time < x.time) :
    ReadsLatest init (log ++ [x]) x ↔ x.read = replay (fun _ => init) log x.address := by
  have hmem : ∀ y ∈ log ++ [x], y.time < x.time → y ∈ log := by
    intro y hy hyx
    rcases List.mem_append.mp hy with hy | hy
    · exact hy
    · rw [List.mem_singleton.mp hy] at hyx
      exact absurd hyx (lt_irrefl _)
  rcases replay_latest init hsorted x.address with ⟨y, hy, hya, hmax, hval⟩ | ⟨hnone, hval⟩
  · rw [hval]
    constructor
    · rintro (⟨z, hz, hza, hzt, hzmax, hread⟩ | ⟨hnone, -⟩)
      · have hz' := hmem z hz hzt
        have hle := hzmax y (List.mem_append_left _ hy) hya (hlt y hy)
        rw [hread, eq_of_time_eq hsorted hz' hy (le_antisymm (hmax z hz' hza) hle)]
      · exact absurd (hnone y (List.mem_append_left _ hy) hya) (hlt y hy).not_ge
    · intro hread
      exact .inl ⟨y, List.mem_append_left _ hy, hya, hlt y hy,
        fun z hz hza hzt => hmax z (hmem z hz hzt) hza, hread⟩
  · rw [hval]
    constructor
    · rintro (⟨z, hz, hza, hzt, -⟩ | ⟨-, hread⟩)
      · exact absurd hza (hnone z (hmem z hz hzt))
      · exact hread
    · intro hread
      refine .inr ⟨fun y hy hya => ?_, hread⟩
      by_contra hyx
      exact hnone y (hmem y hy (not_le.mp hyx)) hya

/-- For a log in order of time, coherence under replay is consistency. -/
theorem coherent_iff_consistent {init : V} {log : List (Access A V)}
    (hsorted : log.Pairwise fun x y => x.time < y.time) :
    Coherent (fun _ => init) log ↔ Consistent init log := by
  induction log using List.reverseRecOn with
  | nil => simp [Consistent]
  | append_singleton xs x ih =>
    obtain ⟨hxs, -, hlast⟩ := List.pairwise_append.mp hsorted
    have hlt : ∀ z ∈ xs, z.time < x.time := fun z hz => hlast z hz x (List.mem_singleton.mpr rfl)
    rw [coherent_append, coherent_cons, ih hxs, ← readsLatest_last hxs hlt]
    constructor
    · rintro ⟨hlog, hx, -⟩ y hy
      rcases List.mem_append.mp hy with hy | hy
      · exact (readsLatest_append (hlt y hy)).mpr (hlog y hy)
      · rwa [List.mem_singleton.mp hy]
    · intro h
      refine ⟨fun y hy => ?_, h x (by simp), trivial⟩
      exact (readsLatest_append (hlt y hy)).mp (h y (List.mem_append_left _ hy))

end InOrder

end Loquela.Library.Replay
