import Mathlib.Data.List.Basic

/-!
# Lists that agree up to a bad element

`AgreesUntil bad l l'` says that `l` and `l'` are equal up to the first bad element of `l`, after which nothing is
said. It is how a backtracking search compares with its specification when the search may stop early: the list
of outcomes of the search agrees with the list of outcomes specified until the search goes wrong.
-/

namespace Tsuki.Lib

section

variable {α β : Type} {bad : α → Prop} {l l' k k' : List α}

/-- The lists agree up to the first bad element of the first one. -/
inductive AgreesUntil (bad : α → Prop) : List α → List α → Prop
  | nil : AgreesUntil bad [] []
  | bad {a : α} {l l' : List α} : bad a → AgreesUntil bad (a :: l) l'
  | cons {a : α} {l l' : List α} : AgreesUntil bad l l' → AgreesUntil bad (a :: l) (a :: l')

namespace AgreesUntil

theorem refl (l : List α) : AgreesUntil bad l l := by
  induction l with
  | nil => exact .nil
  | cons a l ih => exact .cons ih

theorem append (h : AgreesUntil bad l l') (h' : AgreesUntil bad k k') : AgreesUntil bad (l ++ k) (l' ++ k') := by
  induction h with
  | nil => exact h'
  | bad ha => exact .bad ha
  | cons _ ih => exact .cons ih

theorem flatMap {f g : β → List α} (xs : List β) (h : ∀ x ∈ xs, AgreesUntil bad (f x) (g x)) :
    AgreesUntil bad (xs.flatMap f) (xs.flatMap g) := by
  induction xs with
  | nil => exact .nil
  | cons x xs ih =>
    rw [List.flatMap_cons, List.flatMap_cons]
    exact (h x List.mem_cons_self).append (ih fun y hy => h y (List.mem_cons_of_mem x hy))

/-- Where every outcome becomes bad, nothing is left to compare. -/
theorem map_bad {f : α → α} (h : AgreesUntil bad l l') (hbad : ∀ a, bad a → bad (f a)) (hl' : ∀ a ∈ l', bad (f a)) :
    AgreesUntil bad (l.map f) [] := by
  cases h with
  | nil => exact .nil
  | bad ha => exact .bad (hbad _ ha)
  | cons _ => exact .bad (hl' _ List.mem_cons_self)

/-- The first element is bad, or both lists start with it. -/
theorem head? (h : AgreesUntil bad l l') : (∃ a, l.head? = some a ∧ bad a) ∨ l.head? = l'.head? := by
  cases h with
  | nil => exact .inr rfl
  | bad ha => exact .inl ⟨_, rfl, ha⟩
  | cons _ => exact .inr rfl

end AgreesUntil

end

end Tsuki.Lib
