import Tsuki.Lib.Chains

/-!
# Chained scatter tables

A hash table whose collision chains run through its own cells: each key has a home cell, and a cell that holds a key
is in the chain from the key's home. A home is taken by a key of its own as soon as some key has it as its home, so
a key that is found in the home of another one can be moved away without loss.
-/

namespace Tsuki.Lib.Chains

variable {ι K : Type} (home : K → ι) (key : ι → Option K) (succ : ι → Option ι)

/-- The cells hold the keys `key`, linked by `succ`. -/
structure IsScatter : Prop where
  forest : IsForest succ
  loose : ∀ {i}, key i = none → IsLoose succ i
  reach : ∀ {i k}, key i = some k → Reach succ (home k) i
  owner : ∀ {i k}, key i = some k → ∃ k', key (home k) = some k' ∧ home k' = home k

variable {home key succ} [DecidableEq ι]

/-- A key takes its home, whatever key that holds. -/
theorem IsScatter.overwrite (h : IsScatter home key succ) (k : K) :
    IsScatter home (Function.update key (home k) (some k)) succ where
  forest := h.forest
  loose := by
    intro i hi
    by_cases heq : i = home k
    · rw [heq, Function.update_self] at hi
      cases hi
    · rw [Function.update_of_ne heq] at hi
      exact h.loose hi
  reach := by
    intro i k₀ hi
    by_cases heq : i = home k
    · rw [heq, Function.update_self] at hi
      rw [heq, ← Option.some.inj hi]
      exact .refl
    · rw [Function.update_of_ne heq] at hi
      exact h.reach hi
  owner := by
    intro i k₀ hi
    by_cases hhome : home k₀ = home k
    · rw [hhome, Function.update_self]
      exact ⟨k, rfl, rfl⟩
    · have hi' : key i = some k₀ := by
        by_cases heq : i = home k
        · rw [heq, Function.update_self] at hi
          exact absurd (congrArg home (Option.some.inj hi).symm) hhome
        · rwa [Function.update_of_ne heq] at hi
      rw [Function.update_of_ne hhome]
      exact h.owner hi'

section

variable {f : ι} (hf : key f = none)
include hf

/-- A key goes to the free cell `f`, linked behind its home, whose key is at home there. -/
theorem IsScatter.link (h : IsScatter home key succ) {k k₁ : K} (hk : key (home k) = some k₁)
    (hk₁ : home k₁ = home k) :
    IsScatter home (Function.update key f (some k)) (insertAfter succ (home k) f) := by
  have hne : home k ≠ f := by
    rintro heq
    rw [heq, hf] at hk
    cases hk
  have hloose := h.loose hf
  refine ⟨h.forest.insertAfter hne hloose, ?_, ?_, ?_⟩
  · intro i hi
    by_cases heq : i = f
    · rw [heq, Function.update_self] at hi
      cases hi
    · rw [Function.update_of_ne heq] at hi
      have hi' := h.loose hi
      have him : i ≠ home k := by
        rintro rfl
        rw [hi] at hk
        cases hk
      refine ⟨?_, fun x hx => ?_⟩
      · rw [insertAfter, if_neg him, if_neg heq, hi'.succ_eq]
      · rcases insertAfter_inv hx with ⟨-, h1⟩ | ⟨-, h1⟩ | ⟨-, -, h1⟩
        · exact heq h1
        · exact hi'.no_pred _ h1
        · exact hi'.no_pred _ h1
  · intro i k₀ hi
    by_cases heq : i = f
    · rw [heq, Function.update_self] at hi
      rw [heq, ← Option.some.inj hi]
      exact reach_insertAfter_self
    · rw [Function.update_of_ne heq] at hi
      exact (h.reach hi).insertAfter hne hloose
  · intro i k₀ hi
    have howner : ∃ k', key (home k₀) = some k' ∧ home k' = home k₀ := by
      by_cases heq : i = f
      · rw [heq, Function.update_self] at hi
        rw [← Option.some.inj hi]
        exact ⟨k₁, hk, hk₁⟩
      · rw [Function.update_of_ne heq] at hi
        exact h.owner hi
    obtain ⟨k', hk', hhome⟩ := howner
    have hne' : home k₀ ≠ f := by
      rintro heq
      rw [heq, hf] at hk'
      cases hk'
    exact ⟨k', by rw [Function.update_of_ne hne', hk'], hhome⟩

/-- The key `k₁` is away from home in the home of `k`: it moves to the free cell `f`, and `k` takes the place. -/
theorem IsScatter.move (h : IsScatter home key succ) {k k₁ : K} (hk : key (home k) = some k₁)
    (hk₁ : home k₁ ≠ home k) :
    IsScatter home (Function.update (Function.update key f (some k₁)) (home k) (some k))
      (relocate succ (home k) f) := by
  have hne : home k ≠ f := by
    rintro heq
    rw [heq, hf] at hk
    cases hk
  have hloose := h.loose hf
  -- no key has the home of `k` as its home yet
  have haway : ∀ {i k₀}, key i = some k₀ → home k₀ ≠ home k := by
    intro i k₀ hi heq
    obtain ⟨k', hk', hhome⟩ := h.owner hi
    rw [heq, hk] at hk'
    rw [← Option.some.inj hk', heq] at hhome
    exact hk₁ hhome
  refine ⟨h.forest.relocate hloose, ?_, ?_, ?_⟩
  · intro i hi
    by_cases him : i = home k
    · rw [him, Function.update_self] at hi
      cases hi
    rw [Function.update_of_ne him] at hi
    by_cases hif : i = f
    · rw [hif, Function.update_self] at hi
      cases hi
    rw [Function.update_of_ne hif] at hi
    have hi' := h.loose hi
    refine ⟨?_, fun x hx => ?_⟩
    · rw [relocate, if_neg him, if_neg hif, hi'.succ_eq, if_neg (by simp)]
    · obtain ⟨-, ⟨-, h1⟩ | ⟨-, -, h1⟩ | ⟨-, h1, -⟩⟩ := relocate_inv hx
      · exact hi'.no_pred _ h1
      · exact hif h1
      · exact hi'.no_pred _ h1
  · intro i k₀ hi
    by_cases him : i = home k
    · rw [him, Function.update_self] at hi
      rw [him, ← Option.some.inj hi]
      exact .refl
    rw [Function.update_of_ne him] at hi
    by_cases hif : i = f
    · rw [hif, Function.update_self] at hi
      have hreach := (h.reach hk).relocate hloose hne h.forest (haway hk)
      rw [if_pos rfl] at hreach
      rw [hif, ← Option.some.inj hi]
      exact hreach
    rw [Function.update_of_ne hif] at hi
    have hreach := (h.reach hi).relocate hloose hne h.forest (haway hi)
    rwa [if_neg him] at hreach
  · intro i k₀ hi
    by_cases him : i = home k
    · rw [him, Function.update_self] at hi
      rw [← Option.some.inj hi, Function.update_self]
      exact ⟨k, rfl, rfl⟩
    rw [Function.update_of_ne him] at hi
    have hkey : ∃ j, key j = some k₀ := by
      by_cases hif : i = f
      · rw [hif, Function.update_self] at hi
        exact ⟨home k, hk.trans hi⟩
      · rw [Function.update_of_ne hif] at hi
        exact ⟨i, hi⟩
    obtain ⟨j, hj⟩ := hkey
    obtain ⟨k', hk', hhome⟩ := h.owner hj
    have hne' : home k₀ ≠ f := by
      rintro heq
      rw [heq, hf] at hk'
      cases hk'
    exact ⟨k', by rw [Function.update_of_ne (haway hj), Function.update_of_ne hne', hk'], hhome⟩

end

end Tsuki.Lib.Chains
