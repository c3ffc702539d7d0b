import Tsuki.Lib.Chains
import Mathlib.Data.List.Nodup
import Mathlib.Data.Finset.Range
import Mathlib.Data.Finset.Dedup

/-!
# Lists threaded through cells

A list whose cells each say which one comes next, or that none does; a cell may also hold no link at all. `Thread`
spells the list out. The second half is about walks that follow a partial function to its end, and what remains of
them when steps of the function are made longer.
-/

namespace Tsuki.Lib.Threads

open Chains

variable {ι : Type}

/-- The list that starts with `o` has the cells `l`. -/
def Thread (next : ι → Option (Option ι)) : Option ι → List ι → Prop
  | o, [] => o = none
  | o, x :: l => o = some x ∧ ∃ o', next x = some o' ∧ Thread next o' l

variable {next next' : ι → Option (Option ι)} {o : Option ι} {l m : List ι}

theorem Thread.nil_of_none (h : Thread next none l) : l = [] := by
  cases l with
  | nil => rfl
  | cons x l => exact nomatch h.1

theorem Thread.unique (h : Thread next o l) (h' : Thread next o m) : l = m := by
  induction l generalizing o m with
  | nil =>
    cases h
    exact h'.nil_of_none.symm
  | cons x l ih =>
    obtain ⟨rfl, o₁, hx, hl⟩ := h
    cases m with
    | nil => exact nomatch h'
    | cons y m =>
      obtain ⟨hy, o₂, hy', hm⟩ := h'
      cases hy
      rw [hx] at hy'
      cases hy'
      rw [ih hl hm]

theorem Thread.congr (heq : ∀ x ∈ l, next' x = next x) (h : Thread next o l) : Thread next' o l := by
  induction l generalizing o with
  | nil => exact h
  | cons x l ih =>
    obtain ⟨ho, o', hx, hl⟩ := h
    exact ⟨ho, o', by rw [heq x List.mem_cons_self, hx], ih (fun y hy => heq y (List.mem_cons_of_mem x hy)) hl⟩

theorem Thread.link (h : Thread next o l) {x : ι} (hx : x ∈ l) : ∃ o', next x = some o' := by
  induction l generalizing o with
  | nil => exact absurd hx List.not_mem_nil
  | cons y l ih =>
    obtain ⟨-, o', hy, hl⟩ := h
    rcases List.mem_cons.mp hx with rfl | hx
    · exact ⟨o', hy⟩
    · exact ih hl hx

/-- The last cell is linked to another list. -/
theorem Thread.append {z : ι} {o' : Option ι} (h : Thread next o (l ++ [z]))
    (hoff : ∀ x ∈ l, next' x = next x) (hz : next' z = some o') (hm : Thread next' o' m) :
    Thread next' o (l ++ z :: m) := by
  induction l generalizing o with
  | nil => exact ⟨h.1, o', hz, hm⟩
  | cons x l ih =>
    obtain ⟨ho, o₁, hx, hl⟩ := h
    exact ⟨ho, o₁, by rw [hoff x List.mem_cons_self, hx],
      ih hl (fun y hy => hoff y (List.mem_cons_of_mem x hy))⟩

/-- A list without repetition is no longer than there are cells. -/
theorem length_le_of_nodup {l : List Nat} {n : Nat} (h : l.Nodup) (hlt : ∀ x ∈ l, x < n) : l.length ≤ n := by
  rw [← List.toFinset_card_of_nodup h, ← Finset.card_range n]
  exact Finset.card_le_card fun x hx => Finset.mem_range.mpr (hlt x (List.mem_toFinset.mp hx))

/-! ## Walks to the end -/

variable {succ : ι → Option ι}

/-- The walk from `p` ends in `q`. -/
def Ends (succ : ι → Option ι) (p q : ι) : Prop := Reach succ p q ∧ succ q = none

/-- A step made longer leads where the walk comes anyway. -/
theorem ends_update [DecidableEq ι] {i j t : ι} (hi : succ i = some j) (ht : Reach succ j t) (p q : ι) :
    Ends (Function.update succ i (some t)) p q ↔ Ends succ p q := by
  have hnone : Function.update succ i (some t) q = none ↔ succ q = none := by
    by_cases hq : q = i
    · subst hq
      rw [Function.update_self, hi]
      exact iff_of_false (Option.some_ne_none t) (Option.some_ne_none j)
    · rw [Function.update_of_ne hq]
  constructor
  · rintro ⟨h, hq⟩
    refine ⟨?_, hnone.mp hq⟩
    clear hq hnone
    induction h with
    | refl => exact .refl
    | @tail x y _ hstep ih =>
      refine ih.trans ?_
      by_cases hx : x = i
      · subst hx
        rw [Function.update_self] at hstep
        cases hstep
        exact Reach.step hi ht
      · rw [Function.update_of_ne hx] at hstep
        exact Reach.step hstep .refl
  · rintro ⟨h, hq⟩
    -- from every cell the walk passes, so that the target of the long step is one of them
    have hall : ∀ x, Reach succ p x → Reach (Function.update succ i (some t)) x q := by
      induction h using Relation.ReflTransGen.head_induction_on with
      | refl =>
        intro x hx
        rcases hx.eq_or_step with rfl | ⟨y, hy, -⟩
        · exact .refl
        · rw [hq] at hy
          cases hy
      | @head a b hab _ ih =>
        intro x hx
        rcases hx.eq_or_step with rfl | ⟨y, hy, hyx⟩
        · by_cases ha : a = i
          · subst ha
            rw [hi] at hab
            cases hab
            exact Reach.step (Function.update_self ..) (ih t ht)
          · exact Reach.step (by rw [Function.update_of_ne ha, hab]) (ih b .refl)
        · rw [hab] at hy
          cases hy
          exact ih x hyx
    exact ⟨hall p .refl, hnone.mpr hq⟩

end Tsuki.Lib.Threads
