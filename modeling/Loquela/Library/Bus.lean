import Mathlib.Algebra.BigOperators.Group.List.Lemmas
import Mathlib.Algebra.CharP.Basic
import Mathlib.Algebra.Field.Basic
import Mathlib.Data.List.Perm.Basic
import Mathlib.Tactic.Abel
import Loquela.Library.Numerals

/-! # Multiplicity-weighted buses

Tables exchange tuples of field elements over named buses: each interaction sends or receives
one tuple with a field-valued multiplicity. A collection is balanced when on every bus, for
every tuple, the sent multiplicities sum to the received ones. With fewer interactions than
the characteristic, balanced 0/1 multiplicities are equal multisets.
-/

namespace Loquela.Library.Bus

inductive Direction where
  | send
  | receive
  deriving DecidableEq

structure Interaction (B F : Type*) where
  bus : B
  direction : Direction
  values : List F
  multiplicity : F

section Net

variable {B F : Type*} [DecidableEq B] [DecidableEq F] [Ring F]

def Interaction.signed (x : Interaction B F) : F :=
  match x.direction with
  | .send => x.multiplicity
  | .receive => -x.multiplicity

/-- What one interaction adds to the balance of `values` on `bus`. -/
def Interaction.weight (x : Interaction B F) (bus : B) (values : List F) : F :=
  if x.bus = bus ∧ x.values = values then x.signed else 0

/-- Sent minus received multiplicities of `values` on `bus`. -/
def net (l : List (Interaction B F)) (bus : B) (values : List F) : F :=
  (l.map fun x => x.weight bus values).sum

def Balanced (l : List (Interaction B F)) : Prop :=
  ∀ bus values, net l bus values = 0

variable (bus : B) (values : List F)

@[simp] theorem net_nil : net ([] : List (Interaction B F)) bus values = 0 := rfl

@[simp] theorem net_cons (x : Interaction B F) (l : List (Interaction B F)) :
    net (x :: l) bus values = x.weight bus values + net l bus values := by
  rw [net, net, List.map_cons, List.sum_cons]

@[simp] theorem net_append (l₁ l₂ : List (Interaction B F)) :
    net (l₁ ++ l₂) bus values = net l₁ bus values + net l₂ bus values := by
  rw [net, net, net, List.map_append, List.sum_append]

theorem net_flatMap {A : Type*} (l : List A) (f : A → List (Interaction B F)) :
    net (l.flatMap f) bus values = (l.map fun a => net (f a) bus values).sum := by
  induction l with
  | nil => rfl
  | cons a l ih => rw [List.flatMap_cons, net_append, ih, List.map_cons, List.sum_cons]

omit [DecidableEq B] in
/-- A sum over the entries that carry one tuple counts them. -/
theorem sum_ite_eq_count {A : Type*} (l : List A) (f : A → List F) (m : F) :
    (l.map fun a => if f a = values then m else 0).sum = ((l.map f).count values : F) * m := by
  induction l with
  | nil => simp
  | cons a l ih =>
    rw [List.map_cons, List.sum_cons, ih, List.map_cons]
    by_cases h : f a = values
    · rw [if_pos h, h, List.count_cons_self, Nat.cast_succ, add_one_mul, add_comm]
    · rw [if_neg h, List.count_cons_of_ne h, zero_add]

omit [DecidableEq B] [DecidableEq F] [Ring F] in
/-- Replacing one row of a table moves the number of its interactions by that of the row. -/
theorem length_flatMap_set {A : Type*} {l : List A} {k : ℕ} {a : A} (ha : l[k]? = some a) (b : A)
    (f : A → List (Interaction B F)) :
    ((l.set k b).flatMap f).length + (f a).length = (l.flatMap f).length + (f b).length := by
  induction l generalizing k with
  | nil => cases ha
  | cons x l ih =>
    cases k with
    | zero =>
      obtain rfl : x = a := Option.some.inj ha
      simp only [List.set_cons_zero, List.flatMap_cons, List.length_append]
      omega
    | succ k =>
      have ih := ih ha
      simp only [List.set_cons_succ, List.flatMap_cons, List.length_append]
      omega

/-- Replacing one row of a table moves its balance by that of the row. -/
theorem net_flatMap_set {A : Type*} {l : List A} {k : ℕ} {a : A} (ha : l[k]? = some a) (b : A)
    (f : A → List (Interaction B F)) :
    net ((l.set k b).flatMap f) bus values + net (f a) bus values =
      net (l.flatMap f) bus values + net (f b) bus values := by
  induction l generalizing k with
  | nil => cases ha
  | cons x l ih =>
    cases k with
    | zero =>
      obtain rfl : x = a := Option.some.inj ha
      rw [List.set_cons_zero, List.flatMap_cons, List.flatMap_cons, net_append, net_append]
      abel
    | succ k =>
      rw [List.set_cons_succ, List.flatMap_cons, List.flatMap_cons, net_append, net_append,
        add_assoc, ih ha, add_assoc]

variable {bus values}

theorem weight_of_bus_ne {x : Interaction B F} (h : x.bus ≠ bus) : x.weight bus values = 0 :=
  if_neg fun hx => h hx.1

/-- A collection that does not touch a bus has no balance there. -/
theorem net_of_forall_bus_ne {l : List (Interaction B F)} (h : ∀ x ∈ l, x.bus ≠ bus) :
    net l bus values = 0 := by
  apply List.sum_eq_zero
  intro w hw
  obtain ⟨x, hx, rfl⟩ := List.mem_map.mp hw
  exact weight_of_bus_ne (h x hx)

theorem net_of_notMem {l : List (Interaction B F)} {buses : List B} (h : ∀ x ∈ l, x.bus ∈ buses)
    (hbus : bus ∉ buses) (values : List F) : net l bus values = 0 :=
  net_of_forall_bus_ne fun x hx => ne_of_mem_of_not_mem (h x hx) hbus

theorem net_of_forall_multiplicity {l : List (Interaction B F)}
    (h : ∀ x ∈ l, x.multiplicity = 0) : net l bus values = 0 := by
  apply List.sum_eq_zero
  intro w hw
  obtain ⟨x, hx, rfl⟩ := List.mem_map.mp hw
  rw [Interaction.weight, Interaction.signed, h x hx]
  cases x.direction <;> simp

/-- A nonzero balance comes from some interaction on that tuple. -/
theorem exists_of_net_ne_zero {l : List (Interaction B F)} (h : net l bus values ≠ 0) :
    ∃ x ∈ l, x.bus = bus ∧ x.values = values ∧ x.multiplicity ≠ 0 := by
  by_contra hnone
  apply h
  apply List.sum_eq_zero
  intro w hw
  obtain ⟨x, hx, rfl⟩ := List.mem_map.mp hw
  rw [Interaction.weight]
  split_ifs with hmatch
  · by_contra hne
    apply hnone
    refine ⟨x, hx, hmatch.1, hmatch.2, fun hzero => hne ?_⟩
    rw [Interaction.signed, hzero]
    cases x.direction <;> simp
  · rfl

/-- Only the tuples that occur have to be balanced. -/
theorem net_eq_zero_of_forall_mem {l : List (Interaction B F)}
    (h : ∀ x ∈ l, x.bus = bus → net l bus x.values = 0) : net l bus values = 0 := by
  by_contra hne
  obtain ⟨x, hx, hbus, hvalues, -⟩ := exists_of_net_ne_zero hne
  exact hne (hvalues ▸ h x hx hbus)

omit [DecidableEq B] in
/-- Two single entries that weigh the same on every tuple have one multiplicity, and one tuple if
it counts. -/
theorem eq_of_entry {m m' : F} {v v' : List F}
    (h : ∀ values, (if v' = values then m' else 0) = if v = values then m else 0) :
    m' = m ∧ (m ≠ 0 → v' = v) := by
  have hv := h v
  have hv' := h v'
  rw [if_pos rfl] at hv hv'
  by_cases hsame : v' = v
  · rw [if_pos hsame] at hv
    exact ⟨hv, fun _ => hsame⟩
  · rw [if_neg hsame] at hv
    rw [if_neg (Ne.symm hsame)] at hv'
    exact ⟨hv'.trans hv, fun hne => absurd hv.symm hne⟩

end Net

section Count

variable {B F : Type*} [DecidableEq B] [DecidableEq F] [Ring F]

/-- The tuples an interaction with multiplicity 1 puts on a bus in one direction. -/
def Interaction.selected (direction : Direction) (bus : B) (x : Interaction B F) : List (List F) :=
  if x.bus = bus ∧ x.direction = direction ∧ x.multiplicity = 1 then [x.values] else []

/-- Where all multiplicities are 0 or 1 the balance of a bus counts these tuples, and below the
characteristic it counts them exactly. -/
def selected (direction : Direction) (bus : B) (l : List (Interaction B F)) : List (List F) :=
  l.flatMap (Interaction.selected direction bus)

variable {direction : Direction} {bus : B}

@[simp] theorem selected_nil :
    selected direction bus ([] : List (Interaction B F)) = [] := rfl

@[simp] theorem selected_cons (x : Interaction B F) (l : List (Interaction B F)) :
    selected direction bus (x :: l) = x.selected direction bus ++ selected direction bus l := rfl

@[simp] theorem selected_append (l₁ l₂ : List (Interaction B F)) :
    selected direction bus (l₁ ++ l₂) = selected direction bus l₁ ++ selected direction bus l₂ :=
  List.flatMap_append

theorem selected_flatMap {A : Type*} (l : List A) (f : A → List (Interaction B F)) :
    selected direction bus (l.flatMap f) = l.flatMap fun a => selected direction bus (f a) :=
  List.flatMap_assoc

/-- Padding rows that select nothing leave the selection of a table to its other rows. -/
theorem selected_padded {A C : Type*} {f : C → List (Interaction B F)} {blank : C}
    (hblank : selected direction bus (f blank) = []) (l : List A) (row : A → C) (n : ℕ) :
    selected direction bus ((l.map row ++ List.replicate n blank).flatMap f) =
      l.flatMap fun a => selected direction bus (f (row a)) := by
  have hpadding : selected direction bus ((List.replicate n blank).flatMap f) = [] := by
    rw [selected_flatMap]
    apply List.flatMap_eq_nil_iff.mpr
    intro c hc
    rwa [List.eq_of_mem_replicate hc]
  rw [List.flatMap_append, selected_append, hpadding, List.append_nil, selected_flatMap,
    List.flatMap_map]

theorem selected_eq_nil_of_forall {l : List (Interaction B F)}
    (h : ∀ x ∈ l, x.direction = direction → x.bus ≠ bus) : selected direction bus l = [] := by
  apply List.flatMap_eq_nil_iff.mpr
  intro x hx
  exact if_neg fun hmatch => h x hx hmatch.2.1 hmatch.1

theorem selected_eq_nil {l : List (Interaction B F)} (h : ∀ x ∈ l, x.bus ≠ bus) :
    selected direction bus l = [] :=
  selected_eq_nil_of_forall fun x hx _ => h x hx

theorem selected_eq_nil_of_direction {l : List (Interaction B F)}
    (h : ∀ x ∈ l, x.direction ≠ direction) : selected direction bus l = [] :=
  selected_eq_nil_of_forall fun x hx hdirection => absurd hdirection (h x hx)

theorem mem_selected {l : List (Interaction B F)} {values : List F} :
    values ∈ selected direction bus l ↔ ∃ x ∈ l, x.bus = bus ∧ x.direction = direction ∧
      x.multiplicity = 1 ∧ x.values = values := by
  rw [selected, List.mem_flatMap]
  apply exists_congr
  intro x
  apply and_congr_right
  intro _
  rw [Interaction.selected]
  split_ifs with h
  · simp [h, eq_comm]
  · simp only [List.not_mem_nil, false_iff]
    rintro ⟨hbus, hdirection, hmult, -⟩
    exact h ⟨hbus, hdirection, hmult⟩

theorem length_selected_le (l : List (Interaction B F)) :
    (selected direction bus l).length ≤ l.length := by
  induction l with
  | nil => exact le_refl 0
  | cons x l ih =>
    have hx : (x.selected direction bus).length ≤ 1 := by
      rw [Interaction.selected]
      split_ifs
      · exact le_refl 1
      · exact Nat.zero_le 1
    rw [selected_cons, List.length_append, List.length_cons]
    omega

/-- The balance of 0/1 multiplicities counts the tuples sent and received. -/
theorem net_eq_count [Nontrivial F] {l : List (Interaction B F)}
    (hbool : ∀ x ∈ l, x.bus = bus → x.multiplicity = 0 ∨ x.multiplicity = 1) (values : List F) :
    net l bus values = ((selected .send bus l).count values : F) -
      ((selected .receive bus l).count values : F) := by
  induction l with
  | nil => simp
  | cons x l ih =>
    have ih := ih fun y hy => hbool y (List.mem_cons_of_mem x hy)
    rw [net_cons, ih, selected_cons, selected_cons, List.count_append, List.count_append,
      Nat.cast_add, Nat.cast_add]
    have hx : x.weight bus values = ((x.selected .send bus).count values : F) -
        ((x.selected .receive bus).count values : F) := by
      by_cases hbus : x.bus = bus
      · rcases hbool x List.mem_cons_self hbus with hm | hm <;>
          by_cases hv : x.values = values <;> cases hd : x.direction <;>
            simp [Interaction.weight, Interaction.selected, Interaction.signed, hbus, hm, hv, hd]
      · simp [Interaction.weight, Interaction.selected, hbus]
    rw [hx]
    abel

theorem net_eq_zero_of_perm [Nontrivial F] {l : List (Interaction B F)}
    (hbool : ∀ x ∈ l, x.bus = bus → x.multiplicity = 0 ∨ x.multiplicity = 1)
    (h : (selected .send bus l).Perm (selected .receive bus l)) (values : List F) :
    net l bus values = 0 := by
  rw [net_eq_count hbool, h.count_eq, sub_self]

variable {p : ℕ} [CharP F p] [Nontrivial F]

/-- Balanced 0/1 multiplicities, fewer than the characteristic, send and receive the same
tuples equally often. -/
theorem perm_of_balanced {l : List (Interaction B F)}
    (hbool : ∀ x ∈ l, x.bus = bus → x.multiplicity = 0 ∨ x.multiplicity = 1)
    (hsend : (selected .send bus l).length < p) (hreceive : (selected .receive bus l).length < p)
    (hnet : ∀ values, net l bus values = 0) :
    (selected .send bus l).Perm (selected .receive bus l) := by
  apply List.perm_iff_count.mpr
  intro values
  apply CharP.natCast_injOn_Iio F p
  · exact List.count_le_length.trans_lt hsend
  · exact List.count_le_length.trans_lt hreceive
  · exact sub_eq_zero.mp ((net_eq_count hbool values).symm.trans (hnet values))

omit [DecidableEq F] [Nontrivial F] in
/-- Lists whose entries are keyed by their position are told apart by their tuples. -/
theorem eq_of_perm_indexed {l l' : List F} (hlength : l.length < p)
    (h : (l.mapIdx fun j v => [(j : F), v]).Perm (l'.mapIdx fun j v => [(j : F), v])) :
    l = l' := by
  have hsame : l.length = l'.length := by simpa using h.length_eq
  apply List.ext_getElem hsame
  intro j hj hj'
  have hmem : [(j : F), l[j]] ∈ l'.mapIdx fun j v => [(j : F), v] :=
    h.subset (List.mem_mapIdx.mpr ⟨j, hj, rfl⟩)
  obtain ⟨k, hk, hkey⟩ := List.mem_mapIdx.mp hmem
  obtain ⟨hindex, hvalue⟩ := List.cons.inj hkey
  have : k = j := CharP.natCast_injOn_Iio F p ((hsame ▸ hk).trans hlength) (hj.trans hlength) hindex
  subst this
  exact (List.singleton_inj.mp hvalue).symm

/-- Where nothing is received the balance counts the sends. -/
theorem net_eq_sent {l : List (Interaction B F)} {values : List F}
    (hbool : ∀ x ∈ l, x.bus = bus → x.direction = .send → x.values = values →
      x.multiplicity = 0 ∨ x.multiplicity = 1)
    (hnone : ∀ x ∈ l, x.bus = bus → x.direction = .receive → x.values = values →
      x.multiplicity = 0) :
    net l bus values = ((selected .send bus l).count values : F) := by
  induction l with
  | nil => simp
  | cons x l ih =>
    have ih := ih (fun y hy => hbool y (List.mem_cons_of_mem x hy))
      fun y hy => hnone y (List.mem_cons_of_mem x hy)
    rw [net_cons, ih, selected_cons, List.count_append, Nat.cast_add]
    congr 1
    have hbool := hbool x List.mem_cons_self
    have hnone := hnone x List.mem_cons_self
    by_cases hbus : x.bus = bus
    · cases hd : x.direction with
      | send =>
        by_cases hv : x.values = values
        · rcases hbool hbus hd hv with hm | hm <;>
            simp [Interaction.weight, Interaction.selected, Interaction.signed, hbus, hd, hm, hv]
        · have hcount : (x.selected .send bus).count values = 0 := by
            rw [Interaction.selected]
            split_ifs
            · exact List.count_singleton.trans (if_neg (by simpa using hv))
            · rfl
          simp [Interaction.weight, hv, hcount]
      | receive =>
        by_cases hv : x.values = values
        · simp [Interaction.weight, Interaction.selected, Interaction.signed, hd,
            hnone hbus hd hv]
        · simp [Interaction.weight, Interaction.selected, hd, hv]
    · simp [Interaction.weight, Interaction.selected, hbus]

/-- The lookup rule: a tuple sent with 0/1 multiplicities is received somewhere, whatever the
receiving multiplicities are. -/
theorem exists_receive {l : List (Interaction B F)} {values : List F}
    (hbool : ∀ x ∈ l, x.bus = bus → x.direction = .send → x.values = values →
      x.multiplicity = 0 ∨ x.multiplicity = 1)
    (hlength : (selected .send bus l).length < p) (hnet : net l bus values = 0)
    (hsent : values ∈ selected .send bus l) :
    ∃ x ∈ l, x.bus = bus ∧ x.direction = .receive ∧ x.values = values ∧ x.multiplicity ≠ 0 := by
  by_contra hnone
  push Not at hnone
  have hcount := net_eq_sent hbool hnone
  rw [hnet] at hcount
  have hdvd := (CharP.cast_eq_zero_iff F p _).mp hcount.symm
  have hpos := List.count_pos_iff.mpr hsent
  have hlt := (List.count_le_length (a := values) (l := selected .send bus l)).trans_lt hlength
  exact absurd (Nat.le_of_dvd hpos hdvd) hlt.not_ge

end Count

end Loquela.Library.Bus
