import Mathlib.Logic.Relation
import Mathlib.Logic.Function.Basic
import Mathlib.Order.Basic
import Mathlib.Data.Nat.Basic
import Mathlib.Data.Finset.Card

/-!
# Chains threaded through cells

Cells linked by a partial successor function, as the collision lists of a hash table are. `IsForest` says that no
cell has two predecessors and that no chain runs in a circle. A cell that is in no chain can be linked behind
another one (`insertAfter`), or take over the place of another one (`relocate`).
-/

namespace Tsuki.Lib.Chains

variable {ι : Type} (succ : ι → Option ι)

/-- No cell has two predecessors, and the chains end. -/
structure IsForest : Prop where
  inj : ∀ {x y z}, succ x = some z → succ y = some z → x = y
  acyclic : ∃ rank : ι → Nat, ∀ {x y}, succ x = some y → rank x < rank y

/-- The cell `f` is in no chain. -/
structure IsLoose (f : ι) : Prop where
  succ_eq : succ f = none
  no_pred : ∀ x, succ x ≠ some f

/-- The chain from `x` comes to `y`. -/
def Reach : ι → ι → Prop := Relation.ReflTransGen fun x y => succ x = some y

variable {succ}

theorem Reach.step {x y z : ι} (h : succ x = some y) (hz : Reach succ y z) : Reach succ x z :=
  Relation.ReflTransGen.head h hz

theorem Reach.rank_le {rank : ι → Nat} (hrank : ∀ {x y}, succ x = some y → rank x < rank y) {x y : ι}
    (h : Reach succ x y) : rank x ≤ rank y := by
  induction h with
  | refl => exact le_refl _
  | tail _ hstep ih => exact le_trans ih (Nat.le_of_lt (hrank hstep))

theorem Reach.eq_or_step {x y : ι} (h : Reach succ x y) : x = y ∨ ∃ z, succ x = some z ∧ Reach succ z y := by
  rcases Relation.ReflTransGen.cases_head h with h | ⟨z, hz, h⟩
  · exact .inl h
  · exact .inr ⟨z, hz, h⟩

theorem Reach.antisymm (hforest : IsForest succ) {x y : ι} (h : Reach succ x y) (h' : Reach succ y x) : x = y := by
  obtain ⟨rank, hrank⟩ := hforest.acyclic
  rcases h.eq_or_step with heq | ⟨z, hz, hzy⟩
  · exact heq
  · have h1 := hrank hz
    have h2 := hzy.rank_le hrank
    have h3 := h'.rank_le hrank
    omega

theorem IsForest.ne_of_succ (h : IsForest succ) {x y : ι} (hxy : succ x = some y) : x ≠ y := by
  obtain ⟨rank, hrank⟩ := h.acyclic
  intro heq
  have := hrank hxy
  rw [heq] at this
  exact Nat.lt_irrefl _ this

variable [DecidableEq ι]

/-- A walk along a chain ends before it has made a step for every cell. -/
theorem IsForest.fuel_induct (h : IsForest succ) (cells : Finset ι)
    (hcells : ∀ {x y}, succ x = some y → y ∈ cells) {P : Nat → ι → Prop}
    (hP : ∀ n x, (∀ y, succ x = some y → P n y) → P (n + 1) x) {x : ι} (hx : x ∈ cells) : P cells.card x := by
  obtain ⟨rank, hrank⟩ := h.acyclic
  -- `seen` are the cells the walk has left behind
  have key : ∀ (n : Nat) (seen : Finset ι) (x : ι), x ∈ cells → seen ⊆ cells → (∀ z ∈ seen, rank z < rank x) →
      cells.card ≤ seen.card + n → P n x := by
    intro n
    induction n with
    | zero =>
      intro seen x hx hsub hlt hcard
      have heq : seen = cells := Finset.eq_of_subset_of_card_le hsub hcard
      exact absurd (hlt x (heq ▸ hx)) (Nat.lt_irrefl _)
    | succ n ih =>
      intro seen x hx hsub hlt hcard
      refine hP n x fun y hy => ih (insert x seen) y (hcells hy) ?_ ?_ ?_
      · exact Finset.insert_subset hx hsub
      · intro z hz
        rcases Finset.mem_insert.mp hz with rfl | hz
        · exact hrank hy
        · exact Nat.lt_trans (hlt z hz) (hrank hy)
      · have hnot : x ∉ seen := fun hmem => Nat.lt_irrefl _ (hlt x hmem)
        rw [Finset.card_insert_of_notMem hnot]
        omega
  exact key cells.card ∅ x hx (Finset.empty_subset _) (by simp) (by simp)

/-! ## Linking a cell behind another one -/

/-- Link the cell `f` behind `m`. -/
def insertAfter (succ : ι → Option ι) (m f : ι) (x : ι) : Option ι :=
  if x = m then some f else if x = f then succ m else succ x

section

variable {m f : ι}

theorem insertAfter_inv {x y : ι} (h : insertAfter succ m f x = some y) :
    (x = m ∧ y = f) ∨ (x = f ∧ succ m = some y) ∨ (x ≠ m ∧ x ≠ f ∧ succ x = some y) := by
  unfold insertAfter at h
  split_ifs at h with h1 h2
  · exact .inl ⟨h1, (Option.some.inj h).symm⟩
  · exact .inr (.inl ⟨h2, h⟩)
  · exact .inr (.inr ⟨h1, h2, h⟩)

theorem reach_insertAfter_self : Reach (Chains.insertAfter succ m f) m f :=
  .step (if_pos rfl) .refl

variable (hm : m ≠ f) (hf : IsLoose succ f)
include hm hf

theorem IsForest.insertAfter (h : IsForest succ) : IsForest (insertAfter succ m f) where
  inj := by
    intro x y z hx hy
    rcases insertAfter_inv hx with ⟨hxm, hzx⟩ | ⟨hxf, hx'⟩ | ⟨hxm, hxf, hx'⟩ <;>
      rcases insertAfter_inv hy with ⟨hym, hzy⟩ | ⟨hyf, hy'⟩ | ⟨hym, hyf, hy'⟩
    · rw [hxm, hym]
    · exact absurd (hzx ▸ hy') (hf.no_pred _)
    · exact absurd (hzx ▸ hy') (hf.no_pred _)
    · exact absurd (hzy ▸ hx') (hf.no_pred _)
    · rw [hxf, hyf]
    · exact absurd (h.inj hx' hy').symm hym
    · exact absurd (hzy ▸ hx') (hf.no_pred _)
    · exact absurd (h.inj hx' hy') hxm
    · exact h.inj hx' hy'
  acyclic := by
    obtain ⟨rank, hrank⟩ := h.acyclic
    refine ⟨fun x => if x = f then 2 * rank m + 1 else 2 * rank x, fun {x y} hxy => ?_⟩
    dsimp only
    rcases insertAfter_inv hxy with ⟨hx, hy⟩ | ⟨hx, hy⟩ | ⟨-, hxf, hy⟩
    · rw [hx, hy, if_neg hm, if_pos rfl]
      omega
    · have hyf : y ≠ f := fun heq => hf.no_pred m (heq ▸ hy)
      have := hrank hy
      rw [if_pos hx, if_neg hyf]
      omega
    · have hyf : y ≠ f := fun heq => hf.no_pred x (heq ▸ hy)
      have := hrank hy
      rw [if_neg hxf, if_neg hyf]
      omega

theorem Reach.insertAfter {x y : ι} (h : Reach succ x y) : Reach (Chains.insertAfter succ m f) x y := by
  induction h with
  | refl => exact .refl
  | @tail y z _ hstep ih =>
    by_cases hy : y = m
    · subst hy
      have hyf : Reach (Chains.insertAfter succ y f) x f := ih.tail (if_pos rfl)
      refine hyf.tail ?_
      rw [Chains.insertAfter, if_neg (Ne.symm hm), if_pos rfl, hstep]
    · have hyf : y ≠ f := by
        rintro rfl
        rw [hf.succ_eq] at hstep
        cases hstep
      refine ih.tail ?_
      rw [Chains.insertAfter, if_neg hy, if_neg hyf, hstep]

theorem reach_insertAfter {y : ι} (h : Reach succ m y) (hy : m ≠ y) : Reach (Chains.insertAfter succ m f) f y := by
  rcases h.eq_or_step with heq | ⟨z, hz, hzy⟩
  · exact absurd heq hy
  · exact .step (by rw [Chains.insertAfter, if_neg (Ne.symm hm), if_pos rfl, hz]) (hzy.insertAfter hm hf)

end

/-! ## Taking over the place of a cell -/

/-- The cell `f` takes the place of `m`, which is in no chain any more. -/
def relocate (succ : ι → Option ι) (m f : ι) (x : ι) : Option ι :=
  if x = m then none else if x = f then succ m else if succ x = some m then some f else succ x

section

variable {m f : ι}

theorem relocate_inv {x y : ι} (h : relocate succ m f x = some y) :
    x ≠ m ∧ ((x = f ∧ succ m = some y) ∨ (x ≠ f ∧ succ x = some m ∧ y = f) ∨
      (x ≠ f ∧ succ x = some y ∧ y ≠ m)) := by
  unfold relocate at h
  split_ifs at h with h1 h2 h3
  · exact ⟨h1, .inl ⟨h2, h⟩⟩
  · exact ⟨h1, .inr (.inl ⟨h2, h3, (Option.some.inj h).symm⟩)⟩
  · exact ⟨h1, .inr (.inr ⟨h2, h, fun heq => h3 (heq ▸ h)⟩)⟩

variable (hf : IsLoose succ f)
include hf

theorem IsForest.relocate (h : IsForest succ) : IsForest (relocate succ m f) where
  inj := by
    intro x y z hx hy
    obtain ⟨hxm, ⟨hxf, hx'⟩ | ⟨hxf, hx', hzx⟩ | ⟨hxf, hx', hzx⟩⟩ := relocate_inv hx <;>
      obtain ⟨hym, ⟨hyf, hy'⟩ | ⟨hyf, hy', hzy⟩ | ⟨hyf, hy', hzy⟩⟩ := relocate_inv hy
    · rw [hxf, hyf]
    · exact absurd (hzy ▸ hx') (hf.no_pred _)
    · exact absurd (h.inj hx' hy').symm hym
    · exact absurd (hzx ▸ hy') (hf.no_pred _)
    · exact h.inj hx' hy'
    · exact absurd (hzx ▸ hy') (hf.no_pred _)
    · exact absurd (h.inj hx' hy') hxm
    · exact absurd (hzy ▸ hx') (hf.no_pred _)
    · exact h.inj hx' hy'
  acyclic := by
    obtain ⟨rank, hrank⟩ := h.acyclic
    refine ⟨fun x => if x = f then rank m else rank x, fun {x y} hxy => ?_⟩
    dsimp only
    obtain ⟨-, ⟨hxf, hy⟩ | ⟨hxf, hx, hy⟩ | ⟨hxf, hx, -⟩⟩ := relocate_inv hxy
    · have hyf : y ≠ f := fun heq => hf.no_pred m (heq ▸ hy)
      rw [if_pos hxf, if_neg hyf]
      exact hrank hy
    · rw [if_neg hxf, if_pos hy]
      exact hrank hx
    · have hyf : y ≠ f := fun heq => hf.no_pred x (heq ▸ hx)
      rw [if_neg hxf, if_neg hyf]
      exact hrank hx

/-- The chain of another cell comes to `f` where it came to `m`, and to all others as before. -/
theorem Reach.relocate (hm : m ≠ f) (hforest : IsForest succ) {x y : ι} (hx : x ≠ m) (h : Reach succ x y) :
    Reach (Chains.relocate succ m f) x (if y = m then f else y) := by
  induction h with
  | refl =>
    rw [if_neg hx]
    exact .refl
  | @tail y z hxy hstep ih =>
    by_cases hy : y = m
    · subst hy
      rw [if_pos rfl] at ih
      have hz : z ≠ y := (hforest.ne_of_succ hstep).symm
      rw [if_neg hz]
      refine ih.tail ?_
      rw [Chains.relocate, if_neg (Ne.symm hm), if_pos rfl, hstep]
    · have hyf : y ≠ f := by
        rintro rfl
        rw [hf.succ_eq] at hstep
        cases hstep
      rw [if_neg hy] at ih
      refine ih.tail ?_
      rw [Chains.relocate, if_neg hy, if_neg hyf, hstep]
      by_cases hz : z = m
      · subst hz
        rw [if_pos rfl, if_pos rfl]
      · rw [if_neg hz, if_neg (fun heq => hz (Option.some.inj heq))]

theorem reach_relocate (hm : m ≠ f) (hforest : IsForest succ) {y : ι} (hy : m ≠ y) (h : Reach succ m y) :
    Reach (Chains.relocate succ m f) f y := by
  rcases h.eq_or_step with heq | ⟨z, hz, hzy⟩
  · exact absurd heq hy
  · have hrest := hzy.relocate hf hm hforest (hforest.ne_of_succ hz).symm
    rw [if_neg (Ne.symm hy)] at hrest
    exact .step (by rw [Chains.relocate, if_neg (Ne.symm hm), if_pos rfl, hz]) hrest

end

end Tsuki.Lib.Chains
