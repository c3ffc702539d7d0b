import Tsuki.Table.Sort

/-!
# `table.sort` sorts

The partition splits the indices at the pivot, and the two parts are sorted one after the other. The induction is on
the fuel, which bounds the length of the part: the partition leaves each part shorter. Whatever the comparison
answers, the elements only change places; that they end in order is shown beside it, where the comparison orders them
at all.
-/

namespace Tsuki.Sort

section

variable {V : Type} {cmp : Nat → V → V → Bool} {lt : V → V → Prop} {lo up : Nat} {s : St V}

theorem Sorted.congr {t t' : Nat → V} (h : Sorted lt lo up t) (heq : ∀ k, lo ≤ k → k ≤ up → t' k = t k) :
    Sorted lt lo up t' := by
  intro k hk hk'
  rw [heq k hk (by omega), heq (k + 1) (by omega) hk']
  exact h k hk hk'

/-- Both parts are sorted, in any order, each while the other is as it is. -/
theorem Split.sorted {t t₁ t' a a' b b' : Nat → V} {p : Nat} (h : Split cmp lt lo up t p t₁)
    (hall : Rearranged lo up t₁ t') (hp : t' p = t₁ p)
    (hleft : Rearranged lo (p - 1) a a' ∧ (Orders cmp lt → Sorted lt lo (p - 1) a'))
    (ha : ∀ k, lo ≤ k → k ≤ p - 1 → a k = t₁ k ∧ t' k = a' k)
    (hright : Rearranged (p + 1) up b b' ∧ (Orders cmp lt → Sorted lt (p + 1) up b'))
    (hb : ∀ k, p + 1 ≤ k → k ≤ up → b k = t₁ k ∧ t' k = b' k) :
    Rearranged lo up t t' ∧ (Orders cmp lt → Sorted lt lo up t') := by
  refine ⟨h.rearranged.trans hall, fun ho => ?_⟩
  have hsorted₁ := (hleft.2 ho).congr fun k hk hk' => (ha k hk hk').2
  have hsorted₂ := (hright.2 ho).congr fun k hk hk' => (hb k hk hk').2
  refine .glue h.bounds hsorted₁ hsorted₂ (fun k hk hk' => ?_) fun k hk hk' => ?_
  · rw [hp, (ha k hk hk').2]
    refine hleft.1.forall (P := fun v => ¬lt (t₁ p) v) (fun m hm hm' => ?_) hk hk'
    rw [(ha m hm hm').1]
    exact h.below ho m hm hm'
  · rw [hp, (hb k hk hk').2]
    refine hright.1.forall (P := fun v => ¬lt v (t₁ p)) (fun m hm hm' => ?_) hk hk'
    rw [(hb m hm hm').1]
    exact h.above ho m hm hm'

theorem ends_reroll {O : Prop} (rand : Nat → Nat) (l u n rnd : Nat) :
    Ends lo up O s (fun _ s' => s'.tab = s.tab) (reroll rand l u n rnd s) := by
  unfold reroll
  split_ifs
  · exact ⟨.of_eq rfl, rfl⟩
  · exact ends_pure rfl

/-- What `auxsort` does to the elements from `lo` to `up`. -/
theorem ends_auxsort (rand : Nat → Nat) {fuel : Nat} (rnd : Nat) (hlo : 1 ≤ lo) (hup : up < 2147483647)
    (hpos : 0 < fuel) (hfuel : up < fuel + lo) :
    Ends lo up (Orders cmp lt) s
      (fun _ s' => Rearranged lo up s.tab s'.tab ∧ (Orders cmp lt → Sorted lt lo up s'.tab))
      (auxsort cmp rand fuel lo up rnd s) := by
  induction fuel generalizing lo up rnd s with
  | zero => omega
  | succ fuel ih =>
    rw [auxsort, auxsortTurn]
    by_cases hlen : lo < up
    · rw [if_pos hlen]
      refine Ends.bind (ends_sortEnds hlen) fun _ s₁ h₁ => ?_
      by_cases hone : up - lo = 1
      · rw [if_pos hone]
        refine ends_pure ⟨h₁.1, fun ho k hk hk' => ?_⟩
        obtain rfl : k = lo := by omega
        rw [show k + 1 = up by omega]
        exact h₁.2 ho
      · rw [if_neg hone]
        refine (ends_pivotIndex hup (by omega) rnd).bind fun p s₂ hp => ?_
        obtain ⟨hp, h₂⟩ := hp
        refine Ends.bind (ends_sortPivot hp (by rw [h₂]; exact h₁.2)) fun _ s₃ h₃ => ?_
        rw [h₂] at h₃
        by_cases htwo : up - lo = 2
        · rw [if_pos htwo]
          refine ends_pure ⟨h₁.1.trans h₃.1, fun ho k hk hk' => ?_⟩
          obtain rfl | rfl : k = lo ∨ k = p := by omega
          · rw [show k + 1 = p by omega]
            exact (h₃.2 ho).1
          · rw [show k + 1 = up by omega]
            exact (h₃.2 ho).2
        · rw [if_neg htwo]
          refine (ends_partition hup hp (by omega) (by omega) h₃.2).bind fun q s₄ hsplit => ?_
          replace hsplit := hsplit.of_rearranged (h₁.1.trans h₃.1)
          obtain ⟨hq, hq'⟩ := hsplit.bounds
          rw [wsub_of_le (b := lo) (by omega) (by omega), wsub_of_le (a := up) (by omega) (by omega),
            wsub_of_le (b := 1) (by omega) (by omega), wadd_of_lt (by omega)]
          split_ifs with hside
          · refine ((ih rnd hlo (by omega) (by omega) (by omega)).mono (Nat.le_refl _) (by omega)
              fun _ _ h => h).bind fun _ s₅ h₅ => ?_
            refine (ends_reroll rand _ _ _ rnd).bind fun r s₆ h₆ => ?_
            refine (ih r (by omega) hup (by omega) (by omega)).mono (by omega) (Nat.le_refl _) fun _ s₇ h₇ => ?_
            rw [h₆] at h₇
            have hall := (h₅.1.mono (Nat.le_refl lo) (by omega)).trans (h₇.1.mono (by omega) (Nat.le_refl up))
            exact hsplit.sorted hall ((h₇.1.outside (by omega)).trans (h₅.1.outside (by omega))) h₅
              (fun k hk hk' => ⟨rfl, h₇.1.outside (by omega)⟩) h₇ fun k hk hk' => ⟨h₅.1.outside (by omega), rfl⟩
          · refine ((ih rnd (by omega) hup (by omega) (by omega)).mono (by omega) (Nat.le_refl _)
              fun _ _ h => h).bind fun _ s₅ h₅ => ?_
            refine (ends_reroll rand _ _ _ rnd).bind fun r s₆ h₆ => ?_
            refine (ih r hlo (by omega) (by omega) (by omega)).mono (Nat.le_refl _) (by omega) fun _ s₇ h₇ => ?_
            rw [h₆] at h₇
            have hall := (h₅.1.mono (by omega) (Nat.le_refl up)).trans (h₇.1.mono (Nat.le_refl lo) (by omega))
            exact hsplit.sorted hall ((h₇.1.outside (by omega)).trans (h₅.1.outside (by omega))) h₇
              (fun k hk hk' => ⟨h₅.1.outside (by omega), rfl⟩) h₅ fun k hk hk' => ⟨rfl, h₇.1.outside (by omega)⟩
    · rw [if_neg hlen]
      exact ends_pure ⟨.refl _ _ _, fun _ k hk hk' => by omega⟩

/-- `auxsort` ends for any answers of the comparison function, in a value or in the error for its order. It touches
indices from 1 to `n` only, and on success the elements only changed places. With a strict weak order it succeeds,
and no element is less than its predecessor. -/
theorem auxsort_sorts (cmp : Nat → V → V → Bool) (rand : Nat → Nat) {n : Nat} (hn : n < 2147483647) {fuel : Nat}
    (hfuel : n < fuel) (rnd : Nat) (s : St V) :
    ∃ r s', auxsort cmp rand fuel 1 n rnd s = (r, s') ∧ (r = .ok () ∨ r = .error .order) ∧ Touches 1 n s s' ∧
      (r = .ok () → Rearranged 1 n s.tab s'.tab) ∧
      ∀ lt : V → V → Prop, Orders cmp lt → r = .ok () ∧ Sorted lt 1 n s'.tab := by
  have hends (lt : V → V → Prop) := @ends_auxsort V cmp lt 1 n s rand fuel rnd (Nat.le_refl 1) hn (by omega) (by omega)
  generalize auxsort cmp rand fuel 1 n rnd s = out at hends
  obtain ⟨r, s'⟩ := out
  refine ⟨r, s', rfl, ?_⟩
  cases r with
  | ok u =>
    have h : Touches 1 n s s' ∧ Rearranged 1 n s.tab s'.tab ∧ _ := hends fun _ _ => False
    exact ⟨.inl rfl, h.1, fun _ => h.2.1, fun lt ho => ⟨rfl, (hends lt).2.2 ho⟩⟩
  | error e =>
    cases e with
    | order => exact ⟨.inr rfl, (hends fun _ _ => False).1, nofun, fun lt ho => absurd ho (hends lt).2⟩
    | tooBig | panic | fuel => exact (hends fun _ _ => False).elim

/-- `sort` calls `auxsort` for such numbers of elements only. -/
theorem sort_calls (cmp : Nat → V → V → Bool) (rand : Nat → Nat) (fuel : Nat) (n : Int64) :
    sort cmp rand fuel n = pure () ∨ sort cmp rand fuel n = fail .tooBig ∨
      ∃ m, 1 < m ∧ m < 2147483647 ∧ sort cmp rand fuel n = auxsort cmp rand fuel 1 m 0 := by
  unfold sort
  split_ifs with hone hbig
  · exact .inl rfl
  · exact .inr (.inl rfl)
  · rw [Int64.le_iff_toInt_le] at hone
    rw [ge_iff_le, Int64.le_iff_toInt_le] at hbig
    have h1 : (1 : Int64).toInt = 1 := rfl
    have h2 : (2147483647 : Int64).toInt = 2147483647 := rfl
    exact .inr (.inr ⟨n.toInt.toNat, by omega, by omega, rfl⟩)

end

/-- Six numbers, from the greatest to the least. -/
theorem auxsort_sorts_six :
    (6 < 2147483647 ∧ 6 < 7) ∧ ∃ r s', auxsort (fun _ a b => decide (a < b)) (fun _ => 0) 7 1 6 0
        ⟨fun i => 10 - i, 0, 0, []⟩ = (r, s') ∧ (r = .ok () ∨ r = .error .order) ∧
      Touches 1 6 ⟨fun i => 10 - i, 0, 0, []⟩ s' ∧ (r = .ok () → Rearranged 1 6 (fun i => 10 - i) s'.tab) ∧
      ∀ lt : Nat → Nat → Prop, Orders (fun _ a b => decide (a < b)) lt → r = .ok () ∧ Sorted lt 1 6 s'.tab :=
  ⟨by decide, auxsort_sorts _ _ (by decide) (by decide) 0 _⟩

end Tsuki.Sort
