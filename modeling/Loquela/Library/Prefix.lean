import Mathlib.Data.List.Chain
import Mathlib.Data.List.FinRange
import Mathlib.Data.List.Rotate
import Mathlib.Data.List.TakeWhile

/-! # Selected prefixes

A table marks its used rows by a selector that, once it is off, stays off. The selected rows are
then a prefix, and keep what holds between neighbours.
-/

namespace Loquela.Library.Prefix

variable {A : Type*} {p : A → Bool} {R : A → A → Prop} {l : List A}

/-- The selector never comes back. -/
def Falling (p : A → Bool) (l : List A) : Prop := l.IsChain fun a b => p b → p a

theorem Falling.tail {a : A} (h : Falling p (a :: l)) : Falling p l := List.IsChain.tail h

theorem filter_eq_nil_of_falling {a : A} (h : Falling p (a :: l)) (ha : ¬ p a) :
    l.filter p = [] := by
  induction l generalizing a with
  | nil => rfl
  | cons b l ih =>
    have hb : ¬ p b := fun hb => ha ((List.isChain_cons_cons.mp h).1 hb)
    rw [List.filter_cons_of_neg hb, ih h.tail hb]

theorem filter_eq_takeWhile (h : Falling p l) : l.filter p = l.takeWhile p := by
  induction l with
  | nil => rfl
  | cons a l ih =>
    by_cases ha : p a
    · rw [List.filter_cons_of_pos ha, List.takeWhile_cons_of_pos ha, ih h.tail]
    · rw [List.filter_cons_of_neg ha, List.takeWhile_cons_of_neg ha,
        filter_eq_nil_of_falling h ha]

theorem not_of_mem_dropWhile (h : Falling p l) {x : A} (hx : x ∈ l.dropWhile p) : ¬ p x := by
  have hsplit := congrArg (List.filter p) (List.takeWhile_append_dropWhile (p := p) (l := l))
  have htaken : (l.takeWhile p).filter p = l.takeWhile p :=
    List.filter_eq_self.mpr fun _ => List.mem_takeWhile_imp
  rw [List.filter_append, htaken, filter_eq_takeWhile h, List.append_right_eq_self] at hsplit
  exact List.filter_eq_nil_iff.mp hsplit x hx

/-- The selected entries keep their places. -/
theorem getElem?_filter (h : Falling p l) (j : ℕ) : (l.filter p)[j]? = l[j]?.filter p := by
  induction l generalizing j with
  | nil => rfl
  | cons a l ih =>
    by_cases ha : p a
    · rw [List.filter_cons_of_pos ha]
      cases j with
      | zero => exact (Option.filter_some_pos ha).symm
      | succ j => simpa using ih h.tail j
    · have hnone := filter_eq_nil_of_falling h ha
      rw [List.filter_cons_of_neg ha, hnone, List.getElem?_nil, eq_comm, Option.filter_eq_none_iff]
      intro b hb
      rcases List.mem_cons.mp (List.mem_of_getElem? hb) with rfl | hb
      · exact ha
      · exact List.filter_eq_nil_iff.mp hnone b hb

theorem head_of_filter (h : Falling p l) {x : A} (hx : x ∈ (l.filter p).head?) : x ∈ l.head? := by
  cases l with
  | nil => exact hx
  | cons a l =>
    by_cases ha : p a
    · rwa [List.filter_cons_of_pos ha] at hx
    · rw [List.filter_cons_of_neg ha, filter_eq_nil_of_falling h ha] at hx
      cases hx

theorem isChain_filter (h : Falling p l) (hR : l.IsChain fun a b => p b → R a b) :
    (l.filter p).IsChain R := by
  induction l with
  | nil => exact List.isChain_nil
  | cons a l ih =>
    have ih := ih h.tail hR.tail
    by_cases ha : p a
    · rw [List.filter_cons_of_pos ha]
      cases l with
      | nil => exact List.isChain_singleton a
      | cons b l =>
        by_cases hb : p b
        · rw [List.filter_cons_of_pos hb] at ih ⊢
          exact List.isChain_cons_cons.mpr ⟨(List.isChain_cons_cons.mp hR).1 hb, ih⟩
        · rw [List.filter_cons_of_neg hb, filter_eq_nil_of_falling h.tail hb]
          exact List.isChain_singleton a
    · rwa [List.filter_cons_of_neg ha]

theorem isChain_of_filter (h : Falling p l) (hR : (l.filter p).IsChain R) :
    l.IsChain fun a b => p b → R a b := by
  induction l with
  | nil => exact List.isChain_nil
  | cons a l ih =>
    by_cases ha : p a
    · rw [List.filter_cons_of_pos ha] at hR
      have ih := ih h.tail hR.tail
      cases l with
      | nil => exact List.isChain_singleton a
      | cons b l =>
        refine List.isChain_cons_cons.mpr ⟨fun hb => ?_, ih⟩
        rw [List.filter_cons_of_pos hb] at hR
        exact (List.isChain_cons_cons.mp hR).1
    · rw [List.filter_cons_of_neg ha] at hR
      have ih := ih h.tail hR
      cases l with
      | nil => exact List.isChain_singleton a
      | cons b l =>
        refine List.isChain_cons_cons.mpr ⟨fun hb => ?_, ih⟩
        exact absurd ((List.isChain_cons_cons.mp h).1 hb) ha

/-- Selected places numbered from zero keep their numbers. -/
theorem getElem_filter_finRange {n : ℕ} {p : Fin n → Bool} (h : Falling p (List.finRange n)) {j : ℕ}
    (hj : j < ((List.finRange n).filter p).length) :
    (((List.finRange n).filter p)[j] : ℕ) = j := by
  have hpre : (List.finRange n).filter p <+: List.finRange n := by
    rw [filter_eq_takeWhile h]
    exact List.takeWhile_prefix p
  rw [hpre.getElem hj, List.getElem_finRange]
  rfl

/-- In a table read cyclically every row but the last is followed by the next one. -/
theorem isChain_of_zip_rotate (h : ∀ q ∈ l.zip (l.rotate 1), R q.1 q.2) : l.IsChain R := by
  apply List.isChain_iff_getElem.mpr
  intro k hk
  apply h (l[k], l[k + 1])
  apply List.mem_iff_getElem.mpr
  refine ⟨k, by simp; omega, ?_⟩
  simp [List.getElem_rotate, Nat.mod_eq_of_lt hk]

theorem exists_next_of_zip_rotate (h : ∀ q ∈ l.zip (l.rotate 1), R q.1 q.2) {a : A} (ha : a ∈ l) :
    ∃ b, R a b := by
  obtain ⟨k, hk, rfl⟩ := List.mem_iff_getElem.mp ha
  have hrotate : k < (l.rotate 1).length := by simpa using hk
  refine ⟨(l.rotate 1)[k], h (l[k], (l.rotate 1)[k]) ?_⟩
  exact List.mem_iff_getElem.mpr ⟨k, by simpa using hk, by simp⟩

theorem isChain_iff_zip_tail : l.IsChain R ↔ ∀ q ∈ l.zip l.tail, R q.1 q.2 := by
  induction l with
  | nil => exact ⟨fun _ => nofun, fun _ => List.isChain_nil⟩
  | cons a l ih =>
    cases l with
    | nil => exact ⟨fun _ => nofun, fun _ => List.isChain_singleton a⟩
    | cons b l =>
      rw [List.isChain_cons_cons, ih]
      show _ ↔ ∀ q ∈ (a, b) :: (b :: l).zip l, R q.1 q.2
      rw [List.forall_mem_cons]
      rfl

theorem rel_of_mem_zip_tail (h : l.Pairwise R) : ∀ q ∈ l.zip l.tail, R q.1 q.2 :=
  isChain_iff_zip_tail.mp h.isChain

/-- Two neighbours split a sorted list. -/
theorem split_at_neighbours (h : l.Pairwise R) {q : A × A} (hq : q ∈ l.zip l.tail) :
    ∀ x ∈ l, (x = q.1 ∨ R x q.1) ∨ x = q.2 ∨ R q.2 x := by
  induction l with
  | nil => nofun
  | cons a l ih =>
    obtain ⟨ha, h⟩ := List.pairwise_cons.mp h
    cases l with
    | nil => cases hq
    | cons b l =>
      intro x hx
      rcases List.mem_cons.mp hq with rfl | hq
      · rcases List.mem_cons.mp hx with rfl | hx
        · exact .inl (.inl rfl)
        · rcases List.mem_cons.mp hx with rfl | hx
          · exact .inr (.inl rfl)
          · exact .inr (.inr ((List.pairwise_cons.mp h).1 x hx))
      · have hq : q ∈ (b :: l).zip l := hq
        have hmem : q.1 ∈ b :: l := (List.of_mem_zip hq).1
        rcases List.mem_cons.mp hx with rfl | hx
        · exact .inl (.inr (ha q.1 hmem))
        · exact ih h hq x hx

/-- What differs somewhere in a list differs between two neighbours. -/
theorem exists_change {B : Type*} {f : A → B} {a b : A} (ha : a ∈ l) (hb : b ∈ l) (hne : f a ≠ f b) :
    ∃ q ∈ l.zip l.tail, f q.1 ≠ f q.2 := by
  by_contra hsame
  push Not at hsame
  have hchain : l.IsChain fun x y => f x = f y := isChain_iff_zip_tail.mpr hsame
  have : IsTrans A fun x y => f x = f y := ⟨fun _ _ _ => Eq.trans⟩
  have : Std.Symm fun x y => f x = f y := ⟨fun _ _ => Eq.symm⟩
  have hall : ∀ ⦃x⦄, x ∈ l → ∀ ⦃y⦄, y ∈ l → f x = f y :=
    List.Pairwise.forall_of_forall (fun _ _ => rfl) hchain.pairwise
  exact hne (hall ha hb)

/-- What only depends on neighbours does not see padding at the end. -/
theorem flatMap_zip_tail_append {B : Type*} {f : A × A → List B} {padding : List A}
    (h : ∀ a, ∀ b ∈ padding, f (a, b) = []) :
    ((l ++ padding).zip (l ++ padding).tail).flatMap f = (l.zip l.tail).flatMap f := by
  induction l with
  | nil =>
    apply List.flatMap_eq_nil_iff.mpr
    intro q hq
    exact h q.1 q.2 (List.mem_of_mem_tail (List.of_mem_zip hq).2)
  | cons a l ih =>
    cases l with
    | nil =>
      cases padding with
      | nil => rfl
      | cons b padding =>
        rw [List.nil_append] at ih
        show f (a, b) ++ ((b :: padding).zip padding).flatMap f = []
        rw [h a b List.mem_cons_self]
        exact ih
    | cons b l => exact congrArg (f (a, b) ++ ·) ih

end Loquela.Library.Prefix
