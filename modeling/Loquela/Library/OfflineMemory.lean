import Loquela.Library.Prefix
import Loquela.Library.Replay
import Mathlib.Data.List.Chain

/-! # Checking a log out of order

An offline checker sees the accesses in an order of its own and compares each with the one
before it only: either it continues the same cell later in time and finds what was left, or it
opens a cell above all earlier ones and finds the initial value. That is enough for the whole
log to be consistent.
-/

namespace Loquela.Library.Replay

variable {A V K : Type*} [LinearOrder K]

/-- What the checker establishes about two neighbours; `key` orders the cells. -/
def Follows (key : A → K) (init : V) (x y : Access A V) : Prop :=
  (y.address = x.address ∧ x.time < y.time ∧ y.read = x.write) ∨
    (key x.address < key y.address ∧ y.read = init)

/-- Cell by cell, and by time within a cell. -/
def Before (key : A → K) (x y : Access A V) : Prop :=
  key x.address < key y.address ∨ (y.address = x.address ∧ x.time < y.time)

variable {key : A → K} {init : V}

theorem Follows.before {x y : Access A V} (h : Follows key init x y) : Before key x y := by
  rcases h with ⟨haddress, htime, -⟩ | ⟨hkey, -⟩
  · exact .inr ⟨haddress, htime⟩
  · exact .inl hkey

theorem before_trans {x y z : Access A V} (hxy : Before key x y) (hyz : Before key y z) :
    Before key x z := by
  rcases hxy with hxy | ⟨hxy, htime⟩
  · rcases hyz with hyz | ⟨hyz, -⟩
    · exact .inl (hxy.trans hyz)
    · exact .inl (hyz ▸ hxy)
  · rcases hyz with hyz | ⟨hyz, htime'⟩
    · exact .inl (hxy ▸ hyz)
    · exact .inr ⟨hyz.trans hxy, htime.trans htime'⟩

theorem pairwise_before {log : List (Access A V)} (h : log.IsChain (Follows key init)) :
    log.Pairwise (Before key) := by
  have : IsTrans (Access A V) (Before key) := ⟨fun _ _ _ => before_trans⟩
  exact List.isChain_iff_pairwise.mp (h.imp fun _ _ => Follows.before)

/-- On one cell the checker's order is the order of time. -/
theorem Before.time_lt {x y : Access A V} (h : Before key x y) (ha : y.address = x.address) :
    x.time < y.time := by
  rcases h with h | h
  · rw [ha] at h
    exact absurd h (lt_irrefl _)
  · exact h.2

theorem Before.key_le {x y : Access A V} (h : Before key x y) :
    key x.address ≤ key y.address := by
  rcases h with h | h
  · exact h.le
  · rw [h.1]

/-- Consistency does not depend on the order of the log. -/
theorem consistent_perm {log log' : List (Access A V)} (h : log.Perm log') :
    Consistent init log ↔ Consistent init log' := by
  simp only [Consistent, ReadsLatest, h.mem_iff]

theorem consistent_of_follows (key : A → K) {log : List (Access A V)}
    (hhead : ∀ x ∈ log.head?, x.read = init) (hchain : log.IsChain (Follows key init)) :
    Consistent init log := by
  intro x hx
  obtain ⟨l₁, l₂, rfl⟩ := List.append_of_mem hx
  have hpairwise := pairwise_before hchain
  obtain ⟨hl₁, hxl₂, hbefore⟩ := List.pairwise_append.mp hpairwise
  -- The earlier accesses to the cell of `x` are those the checker saw before it.
  have hearlier : ∀ z ∈ l₁ ++ x :: l₂, z.address = x.address → z.time < x.time → z ∈ l₁ := by
    intro z hz ha ht
    rcases List.mem_append.mp hz with hz | hz
    · exact hz
    · rcases List.mem_cons.mp hz with rfl | hz
      · exact absurd ht (lt_irrefl _)
      · exact absurd (((List.pairwise_cons.mp hxl₂).1 z hz).time_lt ha) ht.not_gt
  rcases List.eq_nil_or_concat' l₁ with rfl | ⟨l, y, rfl⟩
  · refine .inr ⟨?_, hhead x rfl⟩
    intro z hz ha
    by_contra ht
    exact List.not_mem_nil (hearlier z hz ha (not_le.mp ht))
  · have hlast : ∀ z ∈ l ++ [y], z = y ∨ Before key z y := by
      intro z hz
      rcases List.mem_append.mp hz with hz | hz
      · exact .inr ((List.pairwise_append.mp hl₁).2.2 z hz y (List.mem_singleton.mpr rfl))
      · exact .inl (List.mem_singleton.mp hz)
    have hfollows : Follows key init y x := by
      rw [List.append_assoc, List.singleton_append] at hchain
      exact (List.isChain_append_cons_cons.mp hchain).2.1
    rcases hfollows with ⟨ha, ht, hread⟩ | ⟨hkey, hread⟩
    · refine .inl ⟨y, by simp, ha.symm, ht, ?_, hread⟩
      intro z hz hza hzt
      rcases hlast z (hearlier z hz hza hzt) with rfl | hzy
      · exact le_refl _
      · exact (hzy.time_lt (ha.symm.trans hza.symm)).le
    · refine .inr ⟨?_, hread⟩
      intro z hz hza
      by_contra ht
      rcases hlast z (hearlier z hz hza (not_le.mp ht)) with rfl | hzy
      · exact absurd hkey (hza ▸ lt_irrefl _)
      · exact absurd (hza ▸ hzy.key_le) hkey.not_ge

/-- A consistent log, cell by cell and by time within a cell, passes the checker. -/
theorem follows_of_consistent {log : List (Access A V)} (hbefore : log.Pairwise (Before key))
    (hconsistent : Consistent init log) :
    (∀ x ∈ log.head?, x.read = init) ∧ log.IsChain (Follows key init) := by
  constructor
  · intro x hx
    rcases log with _ | ⟨y, log⟩
    · cases hx
    · obtain rfl := Option.some.inj hx
      rcases hconsistent y List.mem_cons_self with ⟨z, hz, hza, hzt, -⟩ | ⟨-, hread⟩
      · rcases List.mem_cons.mp hz with rfl | hz
        · exact absurd hzt (lt_irrefl _)
        · have hlt := ((List.pairwise_cons.mp hbefore).1 z hz).time_lt hza
          exact absurd hlt hzt.not_gt
      · exact hread
  · apply List.isChain_iff_getElem.mpr
    intro i hi
    have hpair := List.pairwise_iff_getElem.mp hbefore
    have hstep := hpair i (i + 1) (by omega) hi (by omega)
    rcases hconsistent log[i + 1] (List.getElem_mem _) with
      ⟨z, hz, hza, hzt, hmax, hread⟩ | ⟨hnone, hread⟩
    · obtain ⟨k, hk, rfl⟩ := List.getElem_of_mem hz
      have hle : k ≤ i := by
        by_contra hlt
        rcases (by omega : k = i + 1 ∨ i + 1 < k) with rfl | hlt
        · exact lt_irrefl _ hzt
        · exact hzt.not_gt ((hpair (i + 1) k hi hk hlt).time_lt hza)
      rcases hle.eq_or_lt with rfl | hlt
      · exact .inl ⟨hza.symm, hzt, hread⟩
      · -- Everything between two accesses to a cell is on that cell.
        have hfirst := hpair k i hk (by omega) hlt
        have hsame : log[i].address = log[k].address := by
          rcases hfirst with hkey | ⟨haddress, -⟩
          · have := hkey.trans_le hstep.key_le
            rw [hza] at this
            exact absurd this (lt_irrefl _)
          · exact haddress
        have htime := hmax log[i] (List.getElem_mem _) (hsame.trans hza)
          (hstep.time_lt (hza.symm.trans hsame.symm))
        exact absurd (hfirst.time_lt hsame) htime.not_gt
    · rcases hstep with hkey | ⟨haddress, htime⟩
      · exact .inr ⟨hkey, hread⟩
      · exact absurd (hnone log[i] (List.getElem_mem _) haddress.symm) htime.not_ge

/-- The accesses to the cell `a` stand together in the log, in the order of time; the first of
them finds `init` and every other one what the access before it left. -/
def OneBlock (init : V) (log : List (Access A V)) (a : A) : Prop :=
  ∃ before block after, log = before ++ block ++ after ∧
    (∀ x ∈ before ++ after, x.address ≠ a) ∧ (∀ x ∈ block, x.address = a) ∧
    block.Pairwise (fun x y => x.time < y.time) ∧ block.IsChain (fun x y => y.read = x.write) ∧
    ∀ x ∈ block.head?, x.read = init

/-- Once the checker has left a cell it does not come back to it. -/
theorem falling_of_follows [DecidableEq A] {a : A} {x : Access A V} {l : List (Access A V)}
    (h : (x :: l).IsChain (Follows key init)) (hx : x.address = a) :
    Prefix.Falling (fun y : Access A V => decide (y.address = a)) (x :: l) := by
  obtain ⟨hbefore, hpairwise⟩ := List.pairwise_cons.mp (pairwise_before h)
  apply List.Pairwise.isChain
  apply List.pairwise_cons.mpr
  constructor
  · intro y _ _
    exact decide_eq_true hx
  · apply hpairwise.imp_of_mem
    intro y z hy _ hyz hz
    rcases hyz with hkey | ⟨haddress, -⟩
    · have hle := (hbefore y hy).key_le
      rw [hx, ← of_decide_eq_true hz] at hle
      exact absurd hkey hle.not_gt
    · exact decide_eq_true (haddress.symm.trans (of_decide_eq_true hz))

theorem oneBlock_of_follows (key : A → K) {log : List (Access A V)} {a : A}
    (hhead : ∀ x ∈ log.head?, x.address = a → x.read = init)
    (hchain : log.IsChain (Follows key init)) : OneBlock init log a := by
  classical
  induction log with
  | nil => exact ⟨[], [], [], rfl, by simp, by simp, List.Pairwise.nil, List.isChain_nil, by simp⟩
  | cons x l ih =>
    by_cases hx : x.address = a
    · set p : Access A V → Bool := fun y => decide (y.address = a)
      have hpx : p x := decide_eq_true hx
      have hblock : ∀ y ∈ (x :: l).takeWhile p, y.address = a :=
        fun y hy => of_decide_eq_true (List.mem_takeWhile_imp (p := p) hy)
      have hleft := List.IsChain.left_of_append
        ((List.takeWhile_append_dropWhile (p := p) (l := x :: l)).symm ▸ hchain)
      refine ⟨[], (x :: l).takeWhile p, (x :: l).dropWhile p, ?_, ?_, hblock, ?_, ?_, ?_⟩
      · rw [List.nil_append, List.takeWhile_append_dropWhile]
      · intro y hy
        exact fun h => Prefix.not_of_mem_dropWhile (falling_of_follows hchain hx) hy
          (decide_eq_true h)
      · apply (pairwise_before hleft).imp_of_mem
        intro y z hy hz h
        exact h.time_lt ((hblock z hz).trans (hblock y hy).symm)
      · apply hleft.imp_of_mem_imp
        intro y z hy hz h
        rcases h with ⟨-, -, hread⟩ | ⟨hkey, -⟩
        · exact hread
        · rw [hblock y hy, hblock z hz] at hkey
          exact absurd hkey (lt_irrefl _)
      · intro y hy
        rw [List.takeWhile_cons_of_pos hpx] at hy
        obtain rfl := Option.some_injective _ hy
        exact hhead x rfl hx
    · obtain ⟨before, block, after, rfl, hother, hrest⟩ := ih (by
        intro y hy hya
        cases l with
        | nil => cases hy
        | cons z l =>
          obtain rfl := Option.some_injective _ hy
          rcases (List.isChain_cons_cons.mp hchain).1 with ⟨haddress, -⟩ | ⟨-, hread⟩
          · exact absurd (haddress.symm.trans hya) hx
          · exact hread) hchain.tail
      refine ⟨x :: before, block, after, rfl, ?_, hrest⟩
      intro y hy
      rcases List.mem_cons.mp hy with rfl | hy
      · exact hx
      · exact hother y hy

/-- An access that comes after another cell opens its own. -/
theorem OneBlock.opens {log : List (Access A V)} {a : A} (h : OneBlock init log a) :
    log.IsChain fun x y => x.address ≠ a → y.address = a → y.read = init := by
  obtain ⟨before, block, after, rfl, hother, hsame, -, -, hhead⟩ := h
  have hbefore : ∀ y ∈ before, y.address ≠ a := fun y hy => hother y (List.mem_append_left _ hy)
  have hafter : ∀ y ∈ after, y.address ≠ a := fun y hy => hother y (List.mem_append_right _ hy)
  rw [List.append_assoc]
  apply List.IsChain.append
  · exact (List.pairwise_of_forall_mem_list fun _ _ y hy _ ha => absurd ha (hbefore y hy)).isChain
  · apply List.IsChain.append
    · exact (List.pairwise_of_forall_mem_list fun x hx _ _ ha _ => absurd (hsame x hx) ha).isChain
    · exact (List.pairwise_of_forall_mem_list fun _ _ y hy _ ha => absurd ha (hafter y hy)).isChain
    · intro _ _ y hy _ ha
      exact absurd ha (hafter y (List.mem_of_mem_head? hy))
  · intro x _ y hy _ ha
    cases block with
    | nil => exact absurd ha (hafter y (List.mem_of_mem_head? hy))
    | cons z block => exact hhead y hy

/-- What the checker establishes about two neighbours when it does not look at the time. -/
def Continues (key : A → K) (init : V) (x y : Access A V) : Prop :=
  (y.address = x.address ∧ y.read = x.write) ∨ (key x.address < key y.address ∧ y.read = init)

/-- The log is then coherent in the order of the checker. -/
theorem coherent_of_continues [DecidableEq A] {m : A → V} {x : Access A V} {l : List (Access A V)}
    (hchain : (x :: l).IsChain (Continues key init)) (hx : x.read = m x.address)
    (habove : ∀ a, key x.address < key a → m a = init) : Coherent m (x :: l) := by
  induction l generalizing x m with
  | nil => exact ⟨hx, trivial⟩
  | cons y l ih =>
    obtain ⟨hxy, hrest⟩ := List.isChain_cons_cons.mp hchain
    refine ⟨hx, ih hrest ?_ ?_⟩
    · rcases hxy with ⟨haddress, hread⟩ | ⟨hkey, hread⟩
      · rw [haddress, Function.update_self, hread]
      · rw [Function.update_of_ne fun h => hkey.ne (congrArg key h.symm), hread, habove _ hkey]
    · intro a ha
      have hlt : key x.address < key a := by
        rcases hxy with ⟨haddress, -⟩ | ⟨hkey, -⟩
        · rwa [haddress] at ha
        · exact hkey.trans ha
      rw [Function.update_of_ne fun h => hlt.ne (congrArg key h.symm), habove a hlt]

end Loquela.Library.Replay
