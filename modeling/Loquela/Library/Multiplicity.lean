import Loquela.Library.Bus
import Mathlib.Algebra.BigOperators.Fin

/-! # Counted tables

A lookup table receives row `i` as often as `i` was counted. Then what it receives of a tuple is
the number of counted entries whose row is that tuple, whether or not the rows are distinct.
-/

namespace Loquela.Library.Bus

variable {B F : Type*} [DecidableEq B] [DecidableEq F] [Ring F]

section Directions

/-- The multiplicities with which a tuple is sent on a bus. -/
def sent (l : List (Interaction B F)) (bus : B) (values : List F) : F :=
  ((l.filter fun x => x.direction = .send ∧ x.bus = bus ∧ x.values = values).map
    Interaction.multiplicity).sum

/-- The multiplicities with which a tuple is received. -/
def received (l : List (Interaction B F)) (bus : B) (values : List F) : F :=
  ((l.filter fun x => x.direction = .receive ∧ x.bus = bus ∧ x.values = values).map
    Interaction.multiplicity).sum

variable {l : List (Interaction B F)} {bus : B}

theorem net_eq_sub (l : List (Interaction B F)) (bus : B) (values : List F) :
    net l bus values = sent l bus values - received l bus values := by
  induction l with
  | nil => simp [sent, received]
  | cons x l ih =>
    rw [net_cons, ih, sent, sent, received, received, List.filter_cons, List.filter_cons]
    by_cases h : x.bus = bus ∧ x.values = values <;> cases hd : x.direction <;>
      simp [Interaction.weight, Interaction.signed, h, hd]
    · abel
    · abel

theorem sent_eq_zero (h : ∀ x ∈ l, x.bus = bus → x.direction ≠ .send) (values : List F) :
    sent l bus values = 0 := by
  rw [sent, List.filter_eq_nil_iff.mpr]
  · rfl
  · intro x hx hmatch
    obtain ⟨hsend, hbus, -⟩ := of_decide_eq_true hmatch
    exact h x hx hbus hsend

theorem received_eq_zero (h : ∀ x ∈ l, x.bus = bus → x.direction ≠ .receive) (values : List F) :
    received l bus values = 0 := by
  rw [received, List.filter_eq_nil_iff.mpr]
  · rfl
  · intro x hx hmatch
    obtain ⟨hreceive, hbus, -⟩ := of_decide_eq_true hmatch
    exact h x hx hbus hreceive

/-- What only receives at the end of a collection adds nothing to what is sent. -/
theorem sent_append_left {l' : List (Interaction B F)}
    (h : ∀ x ∈ l', x.bus = bus → x.direction ≠ .send) (values : List F) :
    sent (l ++ l') bus values = sent l bus values := by
  rw [sent, List.filter_append, List.map_append, List.sum_append]
  exact (congrArg _ (sent_eq_zero h values)).trans (add_zero _)

/-- What only sends at the front of a collection adds nothing to what is received. -/
theorem received_append_right {l' : List (Interaction B F)}
    (h : ∀ x ∈ l, x.bus = bus → x.direction ≠ .receive) (values : List F) :
    received (l ++ l') bus values = received l' bus values := by
  rw [received, List.filter_append, List.map_append, List.sum_append]
  exact (congrArg (· + _) (received_eq_zero h values)).trans (zero_add _)

/-- Where multiplicities are 0 or 1 their sum counts the tuples. -/
theorem sum_multiplicity_eq_count [Nontrivial F]
    (direction : Direction) (h : ∀ x ∈ l, x.bus = bus → x.direction = direction →
      x.multiplicity = 0 ∨ x.multiplicity = 1) (values : List F) :
    ((l.filter fun x => x.direction = direction ∧ x.bus = bus ∧ x.values = values).map
      Interaction.multiplicity).sum = ((selected direction bus l).count values : F) := by
  induction l with
  | nil => simp
  | cons x l ih =>
    have ih := ih fun y hy => h y (List.mem_cons_of_mem x hy)
    have hx := h x List.mem_cons_self
    rw [selected_cons, List.count_append, Nat.cast_add, ← ih, List.filter_cons]
    by_cases hmatch : x.bus = bus ∧ x.direction = direction
    · rcases hx hmatch.1 hmatch.2 with hm | hm <;> by_cases hv : x.values = values <;>
        simp [Interaction.selected, hmatch, hv, hm]
    · have hdirection : x.bus = bus → x.direction ≠ direction := fun hb hd => hmatch ⟨hb, hd⟩
      by_cases hb : x.bus = bus <;> simp [Interaction.selected, hb, hdirection]

theorem sent_eq_count [Nontrivial F]
    (h : ∀ x ∈ l, x.bus = bus → x.direction = .send → x.multiplicity = 0 ∨ x.multiplicity = 1)
    (values : List F) : sent l bus values = ((selected .send bus l).count values : F) :=
  sum_multiplicity_eq_count .send h values

theorem received_eq_count [Nontrivial F]
    (h : ∀ x ∈ l, x.bus = bus → x.direction = .receive → x.multiplicity = 0 ∨ x.multiplicity = 1)
    (values : List F) : received l bus values = ((selected .receive bus l).count values : F) :=
  sum_multiplicity_eq_count .receive h values

theorem received_eq_sent {values : List F} (h : net l bus values = 0) :
    received l bus values = sent l bus values :=
  (sub_eq_zero.mp ((net_eq_sub l bus values).symm.trans h)).symm

end Directions

/-- Receiving the rows of a table. -/
theorem net_mapIdx (bus : B) (rows : List (List F)) (mult : ℕ → F) (values : List F) :
    net (rows.mapIdx fun i row => ⟨bus, .receive, row, mult i⟩) bus values =
      -∑ i : Fin rows.length, if rows[(i : ℕ)] = values then mult i else 0 := by
  have hrows : rows.mapIdx (fun i row => (⟨bus, .receive, row, mult i⟩ : Interaction B F)) =
      List.ofFn fun i : Fin rows.length => ⟨bus, .receive, rows[(i : ℕ)], mult i⟩ := by
    apply List.ext_getElem (by simp)
    intro i hi hi'
    simp
  rw [hrows, net, List.map_ofFn, List.sum_ofFn, ← Finset.sum_neg_distrib]
  apply Finset.sum_congr rfl
  intro i _
  by_cases h : rows[(i : ℕ)] = values <;>
    simp [Interaction.weight, Interaction.signed, h]

theorem sum_count (rows : List (List F)) {indices : List ℕ}
    (h : ∀ i ∈ indices, i < rows.length) (values : List F) :
    (∑ i : Fin rows.length, if rows[(i : ℕ)] = values then (indices.count (i : ℕ) : F) else 0) =
      ((indices.map fun i => rows.getD i []).count values : F) := by
  induction indices with
  | nil => simp
  | cons a indices ih =>
    have ha := h a List.mem_cons_self
    have ih := ih fun i hi => h i (List.mem_cons_of_mem a hi)
    have hsplit : ∀ i : Fin rows.length,
        (if rows[(i : ℕ)] = values then ((a :: indices).count (i : ℕ) : F) else 0) =
          (if rows[(i : ℕ)] = values then (indices.count (i : ℕ) : F) else 0) +
            if (⟨a, ha⟩ : Fin rows.length) = i then (if rows[a] = values then 1 else 0) else 0 := by
      intro i
      by_cases hi : (⟨a, ha⟩ : Fin rows.length) = i
      · subst hi
        by_cases hv : rows[a] = values <;> simp [hv]
      · have hne : a ≠ (i : ℕ) := fun heq => hi (Fin.ext heq)
        simp [hi, List.count_cons_of_ne hne]
    rw [Finset.sum_congr rfl fun i _ => hsplit i, Finset.sum_add_distrib, ih,
      Finset.sum_ite_eq, if_pos (Finset.mem_univ _), List.map_cons, List.count_cons, Nat.cast_add]
    congr 1
    rw [← List.getElem_eq_getD (h := ha)]
    by_cases hv : rows[a] = values <;> simp [hv]

/-- What a table receives that counts its entries. -/
theorem net_counted (bus : B) (rows : List (List F)) {indices : List ℕ}
    (h : ∀ i ∈ indices, i < rows.length) (values : List F) :
    net (rows.mapIdx fun i row => ⟨bus, .receive, row, (indices.count i : F)⟩) bus values =
      -((indices.map fun i => rows.getD i []).count values : F) := by
  rw [net_mapIdx bus rows (fun i => (indices.count i : F)), sum_count rows h]

section Distinct

variable {rows : List (List F)} {m m' : ℕ → F} {bus : B}

theorem net_mapIdx_of_notMem {values : List F} (h : values ∉ rows) :
    net (rows.mapIdx fun i row => ⟨bus, .receive, row, m i⟩) bus values = 0 := by
  rw [net_mapIdx, neg_eq_zero]
  apply Finset.sum_eq_zero
  intro i _
  exact if_neg fun heq : rows[(i : ℕ)] = values => h (heq ▸ List.getElem_mem i.isLt)

theorem net_mapIdx_getElem (hnodup : rows.Nodup) {i : ℕ} (hi : i < rows.length) :
    net (rows.mapIdx fun i row => ⟨bus, .receive, row, m i⟩) bus rows[i] = -m i := by
  rw [net_mapIdx, Finset.sum_eq_single (⟨i, hi⟩ : Fin rows.length)]
  · rw [if_pos rfl]
  · intro j _ hne
    exact if_neg fun heq => hne (Fin.ext ((hnodup.getElem_inj_iff).mp heq))
  · intro hnone
    exact absurd (Finset.mem_univ _) hnone

/-- Receiving a table twice, or once with the sum. -/
theorem net_mapIdx_add (rows : List (List F)) (m m' : ℕ → F) (values : List F) :
    net (rows.mapIdx fun i row => ⟨bus, .receive, row, m i + m' i⟩) bus values =
      net (rows.mapIdx fun i row => ⟨bus, .receive, row, m i⟩) bus values +
        net (rows.mapIdx fun i row => ⟨bus, .receive, row, m' i⟩) bus values := by
  rw [net_mapIdx bus rows fun i => m i + m' i, net_mapIdx, net_mapIdx, ← neg_add,
    ← Finset.sum_add_distrib]
  congr 1
  apply Finset.sum_congr rfl
  intro i _
  split_ifs
  · rfl
  · rw [add_zero]

/-- A table of distinct rows is received in one way only. -/
theorem net_mapIdx_eq_iff (hnodup : rows.Nodup) :
    (∀ values, net (rows.mapIdx fun i row => ⟨bus, .receive, row, m' i⟩) bus values =
      net (rows.mapIdx fun i row => ⟨bus, .receive, row, m i⟩) bus values) ↔
        ∀ i < rows.length, m' i = m i := by
  constructor
  · intro h i hi
    have hrow := h rows[i]
    rw [net_mapIdx_getElem hnodup hi, net_mapIdx_getElem hnodup hi] at hrow
    exact neg_injective hrow
  · intro h values
    by_cases hmem : values ∈ rows
    · obtain ⟨i, hi, rfl⟩ := List.getElem_of_mem hmem
      rw [net_mapIdx_getElem hnodup hi, net_mapIdx_getElem hnodup hi, h i hi]
    · rw [net_mapIdx_of_notMem hmem, net_mapIdx_of_notMem hmem]

theorem net_mapIdx_append (rows rows' : List (List F)) (m : ℕ → F) (values : List F) :
    net ((rows ++ rows').mapIdx fun i row => ⟨bus, .receive, row, m i⟩) bus values =
      net (rows.mapIdx fun i row => ⟨bus, .receive, row, m i⟩) bus values +
        net (rows'.mapIdx fun i row => ⟨bus, .receive, row, m (i + rows.length)⟩) bus values := by
  rw [List.mapIdx_append, net_append]

theorem net_mapIdx_replicate (n : ℕ) (row : List F) (m : ℕ → F) :
    net ((List.replicate n row).mapIdx fun i row => ⟨bus, .receive, row, m i⟩) bus row =
      -∑ i ∈ Finset.range n, m i := by
  induction n with
  | zero => simp
  | succ n ih =>
    rw [List.replicate_succ', net_mapIdx_append, ih, Finset.sum_range_succ, neg_add]
    congr 1
    simp [Interaction.weight, Interaction.signed]

/-- When it is padded with further copies of one row, only their total counts. -/
theorem net_padded_eq_iff (hnodup : rows.Nodup) {n : ℕ} {row : List F} (hrow : row ∉ rows) :
    (∀ values, net ((rows ++ List.replicate n row).mapIdx fun i row =>
        ⟨bus, .receive, row, m' i⟩) bus values =
      net ((rows ++ List.replicate n row).mapIdx fun i row => ⟨bus, .receive, row, m i⟩) bus
        values) ↔
      (∀ i < rows.length, m' i = m i) ∧
        ∑ i ∈ Finset.range n, m' (i + rows.length) = ∑ i ∈ Finset.range n, m (i + rows.length) := by
  have hother : ∀ (m : ℕ → F) (values : List F), values ≠ row →
      net ((List.replicate n row).mapIdx fun i row => ⟨bus, .receive, row, m i⟩) bus values = 0 :=
    fun m values hne => net_mapIdx_of_notMem fun hmem => hne (List.eq_of_mem_replicate hmem)
  simp only [net_mapIdx_append]
  constructor
  · intro h
    constructor
    · have hrows : ∀ values, net (rows.mapIdx fun i row => ⟨bus, .receive, row, m' i⟩) bus values =
          net (rows.mapIdx fun i row => ⟨bus, .receive, row, m i⟩) bus values := by
        intro values
        by_cases hmem : values ∈ rows
        · have hne : values ≠ row := fun heq => hrow (heq ▸ hmem)
          simpa only [hother _ values hne, add_zero] using h values
        · rw [net_mapIdx_of_notMem hmem, net_mapIdx_of_notMem hmem]
      exact (net_mapIdx_eq_iff hnodup).mp hrows
    · have htotal := h row
      rw [net_mapIdx_of_notMem hrow, net_mapIdx_of_notMem hrow, zero_add, zero_add,
        net_mapIdx_replicate n row fun i => m' (i + rows.length),
        net_mapIdx_replicate n row fun i => m (i + rows.length)] at htotal
      exact neg_injective htotal
  · rintro ⟨hrows, htotal⟩ values
    rw [(net_mapIdx_eq_iff hnodup).mpr hrows]
    congr 1
    by_cases heq : values = row
    · rw [heq, net_mapIdx_replicate n row fun i => m' (i + rows.length),
        net_mapIdx_replicate n row fun i => m (i + rows.length), htotal]
    · rw [hother (fun i => m' (i + rows.length)) values heq,
        hother (fun i => m (i + rows.length)) values heq]

end Distinct

theorem flatMap_single {A K : Type*} [DecidableEq K] {keys : List K} (hnodup : keys.Nodup)
    {k : K} (hk : k ∈ keys) (a : A) : (keys.flatMap fun j => if k = j then [a] else []) = [a] := by
  induction keys with
  | nil => exact absurd hk List.not_mem_nil
  | cons j keys ih =>
    obtain ⟨hj, hnodup⟩ := List.nodup_cons.mp hnodup
    rw [List.flatMap_cons]
    rcases List.mem_cons.mp hk with rfl | hk
    · have hrest : (keys.flatMap fun j => if k = j then [a] else []) = [] := by
        apply List.flatMap_eq_nil_iff.mpr
        intro j hj'
        exact if_neg fun heq : k = j => hj (heq ▸ hj')
      rw [hrest, if_pos rfl, List.append_nil]
    · rw [if_neg fun heq : k = j => hj (heq ▸ hk), List.nil_append, ih hnodup hk]

/-- Sorting a list into groups by a key keeps its entries. -/
theorem flatMap_filter_perm {A K : Type*} [DecidableEq K] (key : A → K) {keys : List K}
    (hnodup : keys.Nodup) {l : List A} (h : ∀ a ∈ l, key a ∈ keys) :
    (keys.flatMap fun k => l.filter fun a => key a = k).Perm l := by
  induction l with
  | nil => simp
  | cons a l ih =>
    have ih := ih fun b hb => h b (List.mem_cons_of_mem a hb)
    have hcons : ∀ k, ((a :: l).filter fun b => key b = k) =
        (if key a = k then [a] else []) ++ l.filter fun b => key b = k := by
      intro k
      by_cases hk : key a = k <;> simp [hk]
    simp only [hcons]
    apply (List.flatMap_append_perm keys _ _).symm.trans
    rw [flatMap_single hnodup (h a List.mem_cons_self)]
    exact ih.cons a

omit [DecidableEq F] in
/-- Below the characteristic equal counts make one list a rearrangement of the other. -/
theorem perm_of_cast_count_eq {A : Type*} [BEq A] [LawfulBEq A] {p : ℕ} [CharP F p]
    {l l' : List A} (hl : l.length < p) (hl' : l'.length < p)
    (h : ∀ a, (l.count a : F) = (l'.count a : F)) : l.Perm l' := by
  apply List.perm_iff_count.mpr
  intro a
  exact CharP.natCast_injOn_Iio F p (List.count_le_length.trans_lt hl)
    (List.count_le_length.trans_lt hl') (h a)

/-- A rearrangement that keeps the keys, all different, in place changes nothing. -/
theorem eq_of_perm_of_map_eq {A K : Type*} (key : A → K) {l l' : List A} (h : l.Perm l')
    (hkeys : l.map key = l'.map key) (hnodup : (l.map key).Nodup) : l = l' := by
  apply List.ext_getElem h.length_eq
  intro i hi hi'
  have hmem : l'[i] ∈ l := h.mem_iff.mpr (List.getElem_mem hi')
  have hkey : key l[i] = key l'[i] := by
    simpa [hi, hi'] using congrArg (fun keys => keys[i]?) hkeys
  exact List.inj_on_of_nodup_map hnodup (List.getElem_mem hi) hmem hkey

end Loquela.Library.Bus
