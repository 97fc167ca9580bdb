import Mathlib.Data.List.Basic

/-! # Optional slots

Two lists are filled from one fixed order of slots: one with the slots that are present, the other
with their contents. They stay in step whatever slots are present.
-/

namespace Loquela.Library.Slots

variable {A B : Type*} (contents : A → Option B)

/-- The slots that are present. -/
def present (slots : List A) : List A := slots.filter fun a => (contents a).isSome

/-- What they hold. -/
def held (slots : List A) : List B := slots.filterMap contents

@[simp] theorem present_nil : present contents [] = [] := rfl

@[simp] theorem held_nil : held contents [] = [] := rfl

theorem present_cons (a : A) (slots : List A) : present contents (a :: slots) =
    (if (contents a).isSome then [a] else []) ++ present contents slots := by
  rw [present, List.filter_cons]
  split_ifs <;> rfl

theorem held_cons (a : A) (slots : List A) :
    held contents (a :: slots) = (contents a).toList ++ held contents slots := by
  rw [held, List.filterMap_cons]
  cases contents a <;> rfl

theorem mem_present {slots : List A} {a : A} :
    a ∈ present contents slots ↔ a ∈ slots ∧ (contents a).isSome := List.mem_filter

theorem nodup_present {slots : List A} (h : slots.Nodup) : (present contents slots).Nodup :=
  h.filter _

/-- Present slots and contents, one by one. -/
theorem forall₂_present (slots : List A) : List.Forall₂ (fun a b => contents a = some b)
    (present contents slots) (held contents slots) := by
  induction slots with
  | nil => exact .nil
  | cons a slots ih =>
    rw [present_cons, held_cons]
    cases h : contents a with
    | none => exact ih
    | some b => exact .cons h ih

/-- What is made of present slots and contents is made of the slots. -/
theorem flatMap_zip_present {C : Type*} (f : A → B → List C) (slots : List A) :
    ((present contents slots).zip (held contents slots)).flatMap (fun pair => f pair.1 pair.2) =
      slots.flatMap fun a => (contents a).elim [] (f a) := by
  induction slots with
  | nil => rfl
  | cons a slots ih =>
    rw [present_cons, held_cons, List.flatMap_cons, ← ih]
    cases contents a <;> rfl

end Loquela.Library.Slots
