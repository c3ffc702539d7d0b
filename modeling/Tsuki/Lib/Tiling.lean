import Mathlib.Algebra.BigOperators.Group.List.Basic
import Mathlib.Tactic.Ring

/-!
# Tilings

A list of items that lie in memory one behind the other, each with a length, from an address on.
-/

namespace Tsuki.Lib.Tiling

variable {α : Type} (len : α → Nat)

/-- The length of all items. -/
def total (l : List α) : Nat := (l.map len).sum

/-- The items with the addresses they start at. -/
def starts (a : Nat) : List α → List (Nat × α)
  | [] => []
  | x :: l => (a, x) :: starts (a + len x) l

@[simp] theorem total_nil : total len ([] : List α) = 0 := rfl

@[simp] theorem total_cons (x : α) (l : List α) : total len (x :: l) = len x + total len l := by
  simp [total]

@[simp] theorem total_append (l l' : List α) : total len (l ++ l') = total len l + total len l' := by
  simp [total]

@[simp] theorem starts_nil (a : Nat) : starts len a ([] : List α) = [] := rfl

@[simp] theorem starts_cons (a : Nat) (x : α) (l : List α) :
    starts len a (x :: l) = (a, x) :: starts len (a + len x) l := rfl

theorem starts_append (a : Nat) (l l' : List α) :
    starts len a (l ++ l') = starts len a l ++ starts len (a + total len l) l' := by
  induction l generalizing a with
  | nil => rfl
  | cons x l ih => rw [List.cons_append, starts_cons, starts_cons, ih, total_cons, Nat.add_assoc, List.cons_append]

variable {len}

theorem exists_of_mem_starts {a p : Nat} {x : α} {l : List α} (h : (p, x) ∈ starts len a l) :
    ∃ l₁ l₂, l = l₁ ++ x :: l₂ ∧ p = a + total len l₁ := by
  induction l generalizing a with
  | nil => cases h
  | cons y l ih =>
    rcases List.mem_cons.mp h with heq | h
    · cases heq
      exact ⟨[], l, rfl, rfl⟩
    · obtain ⟨l₁, l₂, rfl, rfl⟩ := ih h
      exact ⟨y :: l₁, l₂, rfl, by rw [total_cons, Nat.add_assoc]⟩

theorem mem_starts (a : Nat) (l₁ : List α) (x : α) (l₂ : List α) :
    (a + total len l₁, x) ∈ starts len a (l₁ ++ x :: l₂) := by
  rw [starts_append]
  exact List.mem_append_right _ List.mem_cons_self

theorem mem_of_mem_starts {a p : Nat} {x : α} {l : List α} (h : (p, x) ∈ starts len a l) : x ∈ l := by
  obtain ⟨l₁, l₂, rfl, -⟩ := exists_of_mem_starts h
  exact List.mem_append_right _ List.mem_cons_self

theorem bounds {a p : Nat} {x : α} {l : List α} (h : (p, x) ∈ starts len a l) :
    a ≤ p ∧ p + len x ≤ a + total len l := by
  obtain ⟨l₁, l₂, rfl, rfl⟩ := exists_of_mem_starts h
  rw [total_append, total_cons]
  omega

theorem pairwise_starts (a : Nat) (l : List α) : (starts len a l).Pairwise fun x y => x.1 + len x.2 ≤ y.1 := by
  induction l generalizing a with
  | nil => exact List.Pairwise.nil
  | cons x l ih => exact List.pairwise_cons.mpr ⟨fun y hy => (bounds hy).1, ih _⟩

end Tsuki.Lib.Tiling
