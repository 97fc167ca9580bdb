import Mathlib.Data.List.Basic

/-! # Sponges over a list of blocks

A sponge absorbs its blocks from the last one to the first, permuting after each. Its passes are
what goes into the permutation and what comes out of it, in the order of the blocks.
-/

namespace Loquela.Library.Sponge

variable {S A : Type*} (absorb : S → A → S) (permute : S → S) (init : S)

/-- The state after the blocks. -/
def state (blocks : List A) : S := blocks.foldr (fun block below => permute (absorb below block)) init

/-- The state, with the input and the output of the permutation for every block. -/
def passes (blocks : List A) : S × List (S × S) :=
  blocks.foldr (fun block below =>
    let input := absorb below.1 block
    let output := permute input
    (output, (input, output) :: below.2)) (init, [])

variable {absorb permute init}

@[simp] theorem state_nil : state absorb permute init ([] : List A) = init := rfl

@[simp] theorem state_cons (block : A) (blocks : List A) :
    state absorb permute init (block :: blocks) =
      permute (absorb (state absorb permute init blocks) block) := rfl

/-- A loop over the reversed blocks computes the state. -/
theorem foldl_reverse_eq_state (blocks : List A) :
    blocks.reverse.foldl (fun below block => permute (absorb below block)) init =
      state absorb permute init blocks := List.foldl_reverse

/-- The state from a block on comes from the state below it. -/
theorem state_drop {blocks : List A} {i : ℕ} (hi : i < blocks.length) :
    state absorb permute init (blocks.drop i) =
      permute (absorb (state absorb permute init (blocks.drop (i + 1))) blocks[i]) := by
  rw [List.drop_eq_getElem_cons hi, state_cons]

@[simp] theorem passes_fst (blocks : List A) :
    (passes absorb permute init blocks).1 = state absorb permute init blocks := by
  induction blocks with
  | nil => rfl
  | cons block blocks ih => exact congrArg (fun below => permute (absorb below block)) ih

theorem passes_cons (block : A) (blocks : List A) :
    (passes absorb permute init (block :: blocks)).2 =
      (absorb (state absorb permute init blocks) block,
        state absorb permute init (block :: blocks)) ::
          (passes absorb permute init blocks).2 := by
  rw [state_cons, ← passes_fst]
  rfl

@[simp] theorem length_passes (blocks : List A) :
    (passes absorb permute init blocks).2.length = blocks.length := by
  induction blocks with
  | nil => rfl
  | cons block blocks ih => rw [passes_cons, List.length_cons, ih, List.length_cons]

/-- The pass of a block starts from the state below it and ends in the state from it on. -/
theorem getElem?_passes {blocks : List A} {i : ℕ} (hi : i < blocks.length) :
    (passes absorb permute init blocks).2[i]? =
      some (absorb (state absorb permute init (blocks.drop (i + 1))) blocks[i],
        state absorb permute init (blocks.drop i)) := by
  induction blocks generalizing i with
  | nil => cases hi
  | cons block blocks ih =>
    rw [passes_cons]
    cases i with
    | zero => rfl
    | succ i => exact ih (Nat.lt_of_succ_lt_succ hi)

/-- What the passes leave at a position is the state from there on, which past the last block is
the initial one. -/
theorem getD_passes_snd (blocks : List A) (i : ℕ) :
    ((passes absorb permute init blocks).2[i]?.map Prod.snd).getD init =
      state absorb permute init (blocks.drop i) := by
  by_cases hi : i < blocks.length
  · rw [getElem?_passes hi]
    rfl
  · rw [List.getElem?_eq_none, List.drop_eq_nil_of_le (Nat.le_of_not_lt hi)]
    · rfl
    · rw [length_passes]
      exact Nat.le_of_not_lt hi

theorem passes_map {B : Type*} (f : B → A) (blocks : List B) :
    passes absorb permute init (blocks.map f) =
      passes (fun below block => absorb below (f block)) permute init blocks :=
  List.foldr_map

/-- Two inputs of the permutation whose outputs agree where the digest is read or where nothing
is absorbed. -/
structure Collides {D C : Type*} (permute : S → S) (out : S → D) (inner : S → C) (p q : S) :
    Prop where
  ne : p ≠ q
  agree : out (permute p) = out (permute q) ∨ inner (permute p) = inner (permute q)

/-- Different blocks, as many on both sides, that lead to one digest or to one inner state have
passes of one position that collide. -/
theorem exists_collides {D C : Type*} {out : S → D} {inner : S → C}
    (hinner : ∀ s block, inner (absorb s block) = inner s)
    (hinjective : ∀ s, Function.Injective (absorb s)) {xs ys : List A}
    (hlength : xs.length = ys.length) (hne : xs ≠ ys)
    (hagree : out (state absorb permute init xs) = out (state absorb permute init ys) ∨
      inner (state absorb permute init xs) = inner (state absorb permute init ys)) :
    ∃ (i : ℕ) (p q p' q' : S), (passes absorb permute init xs).2[i]? = some (p, p') ∧
      (passes absorb permute init ys).2[i]? = some (q, q') ∧ Collides permute out inner p q := by
  induction xs generalizing ys with
  | nil => exact absurd (List.length_eq_zero_iff.mp hlength.symm).symm hne
  | cons x xs ih =>
    cases ys with
    | nil => cases hlength
    | cons y ys =>
      by_cases hinput : absorb (state absorb permute init xs) x =
          absorb (state absorb permute init ys) y
      · -- One input on both sides: the difference lies further down.
        have hbelow : inner (state absorb permute init xs) =
            inner (state absorb permute init ys) := by
          rw [← hinner _ x, hinput, hinner]
        have hrest : xs ≠ ys := by
          rintro rfl
          exact hne (congrArg (· :: xs) (hinjective _ hinput))
        obtain ⟨i, p, q, p', q', hp, hq, hcollides⟩ :=
          ih (Nat.succ.inj hlength) hrest (.inr hbelow)
        refine ⟨i + 1, p, q, p', q', ?_, ?_, hcollides⟩
        · rwa [passes_cons, List.getElem?_cons_succ]
        · rwa [passes_cons, List.getElem?_cons_succ]
      · refine ⟨0, _, _, _, _, by rw [passes_cons]; rfl, by rw [passes_cons]; rfl, hinput, ?_⟩
        exact hagree

end Loquela.Library.Sponge
