import Mathlib.Logic.Equiv.Basic
import Mathlib.Order.RelClasses
import Mathlib.Tactic.Ring

/-!
# `table.sort`

`auxsort` is a quicksort on the indices `lo..=up` of a table, with 32-bit indices that wrap. The comparison function
is any: an answer may depend on the number of the call, and so may a random number.
-/

namespace Tsuki.Sort

/-! ## Runs -/

/-- The ends of a run that are no value; the model runs out of fuel where the code does not end. -/
inductive Fault
  | order | tooBig | panic | fuel
  deriving DecidableEq, Repr

/-- The table, the number of comparisons made and of random numbers drawn, and the indices read or written. -/
structure St (V : Type) where
  tab : Nat → V
  asked : Nat
  drawn : Nat
  touched : List Nat

/-- What changes the state and may fail. -/
def M (V α : Type) : Type := St V → Except Fault α × St V

instance (V : Type) : Monad (M V) where
  pure a s := (.ok a, s)
  bind m f s :=
    match m s with
    | (.ok a, s) => f a s
    | (.error e, s) => (.error e, s)

section

variable {V : Type}

/-- `Err`, or a panic. -/
def fail {α : Type} (e : Fault) : M V α := fun s => (.error e, s)

/-- `cx.thread().index(tab, i)`, of a table of plain values. -/
def index (i : Nat) : M V V := fun s => (.ok (s.tab i), { s with touched := i :: s.touched })

/-- `cx.thread().set(tab, i, v)`. -/
def put (i : Nat) (v : V) : M V Unit := fun s =>
  (.ok (), { s with tab := Function.update s.tab i v, touched := i :: s.touched })

def sortComp (cmp : Nat → V → V → Bool) (a b : V) : M V Bool := fun s =>
  (.ok (cmp s.asked a b), { s with asked := s.asked + 1 })

/-- `rand::random()`. -/
def random (rand : Nat → Nat) : M V Nat := fun s => (.ok (rand s.drawn), { s with drawn := s.drawn + 1 })

end

/-! ## The code -/

/-- `wrapping_add` of `u32`. -/
def wadd (a b : Nat) : Nat := (a + b) % 2 ^ 32

/-- `wrapping_sub` of `u32`. -/
def wsub (a b : Nat) : Nat := (a + 2 ^ 32 - b) % 2 ^ 32

section

variable {V : Type} (cmp : Nat → V → V → Bool) (rand : Nat → Nat)

/-- Two calls of `set`. -/
def set2 (i : Nat) (a : V) (j : Nat) (b : V) : M V Unit := do
  put i a
  put j b

/-- The first block of the loop: the ends. -/
def sortEnds (lo up : Nat) : M V Unit := do
  let a ← index up
  let b ← index lo
  let lt ← sortComp cmp a b
  if lt then set2 lo a up b else pure ()

def choosePivot (lo up rnd : Nat) : M V Nat :=
  if wsub up lo / 4 * 2 = 0 then fail .panic
  else pure (wadd (rnd % (wsub up lo / 4 * 2)) (wadd lo (wsub up lo / 4)))

/-- The index of the pivot. -/
def pivotIndex (lo up rnd : Nat) : M V Nat :=
  if up - lo < 100 ∨ rnd = 0 then pure (wadd lo up / 2) else choosePivot lo up rnd

/-- The median of three. -/
def sortPivot (lo p up : Nat) : M V Unit := do
  let a ← index p
  let b ← index lo
  let lt ← sortComp cmp a b
  if lt then set2 p b lo a
  else do
    let b ← index up
    let lt ← sortComp cmp b a
    if lt then set2 p b up a else pure ()

/-- The first inner loop of `partition`: the index, and what was read there. -/
def scanUp (a : V) (up : Nat) : Nat → Nat → M V (Nat × V)
  | 0, _ => fail .fuel
  | fuel + 1, i => do
    let b ← index (wadd i 1)
    let lt ← sortComp cmp b a
    if lt then
      if wadd i 1 = wsub up 1 then fail .order else scanUp a up fuel (wadd i 1)
    else pure (wadd i 1, b)

/-- The second inner loop. -/
def scanDown (a : V) (i : Nat) : Nat → Nat → M V (Nat × V)
  | 0, _ => fail .fuel
  | fuel + 1, j => do
    let c ← index (wsub j 1)
    let lt ← sortComp cmp a c
    if lt then
      if wsub j 1 < i then fail .order else scanDown a i fuel (wsub j 1)
    else pure (wsub j 1, c)

/-- The loop of `partition`. -/
def partitionLoop (a : V) (up : Nat) : Nat → Nat → Nat → M V Nat
  | 0, _, _ => fail .fuel
  | fuel + 1, i, j => do
    let (i, b) ← scanUp cmp a up (fuel + 1) i
    let (j, c) ← scanDown cmp a i (fuel + 1) j
    if j < i then do
      set2 (wsub up 1) b i a
      pure i
    else do
      set2 i c j b
      partitionLoop a up fuel i j

/-- `partition`, and the step before it, which puts the pivot at `up - 1`. -/
def partition (fuel lo up p : Nat) : M V Nat := do
  let a ← index p
  let b ← index (wsub up 1)
  set2 p b (wsub up 1) a
  partitionLoop cmp a up fuel lo (wsub up 1)

/-- The last statement of the loop: another random number if the parts were too different. -/
def reroll (lo up n rnd : Nat) : M V Nat := if wsub up lo / 128 > n then random rand else pure rnd

/-- A turn of the loop of `auxsort`. It ends in another call, for the indices that are left. -/
def auxsortTurn (fuel : Nat) (auxsort : Nat → Nat → Nat → M V Unit) (lo up rnd : Nat) : M V Unit :=
  if lo < up then do
    sortEnds cmp lo up
    if up - lo = 1 then pure ()
    else do
      let p ← pivotIndex lo up rnd
      sortPivot cmp lo p up
      if up - lo = 2 then pure ()
      else do
        let p ← partition cmp fuel lo up p
        if wsub p lo < wsub up p then do
          auxsort lo (wsub p 1) rnd
          let rnd ← reroll rand (wadd p 1) up (wsub p lo) rnd
          auxsort (wadd p 1) up rnd
        else do
          auxsort (wadd p 1) up rnd
          let rnd ← reroll rand lo (wsub p 1) (wsub up p) rnd
          auxsort lo (wsub p 1) rnd
  else pure ()

def auxsort : Nat → Nat → Nat → Nat → M V Unit
  | 0 => fun _ _ _ => fail .fuel
  | fuel + 1 => auxsortTurn cmp rand fuel (auxsort fuel)

/-- `sort` of `n` elements. -/
def sort (fuel : Nat) (n : Int64) : M V Unit :=
  if n ≤ 1 then pure ()
  else if n ≥ 2147483647 then fail .tooBig
  else auxsort cmp rand fuel 1 n.toInt.toNat 0

end

/-! ## What a run touches -/

section

variable {V : Type}

/-- Only indices from `lo` to `up` were read or written. -/
def Touches (lo up : Nat) (s s' : St V) : Prop :=
  ∃ l, s'.touched = l ++ s.touched ∧ ∀ i ∈ l, lo ≤ i ∧ i ≤ up

theorem Touches.of_eq {lo up : Nat} {s s' : St V} (h : s'.touched = s.touched) : Touches lo up s s' :=
  ⟨[], h, nofun⟩

theorem Touches.one {lo up i : Nat} {s s' : St V} (h : s'.touched = i :: s.touched) (hi : lo ≤ i ∧ i ≤ up) :
    Touches lo up s s' :=
  ⟨[i], h, fun k hk => by rw [List.mem_singleton.mp hk]; exact hi⟩

theorem Touches.trans {lo up : Nat} {s₁ s₂ s₃ : St V} (h₁ : Touches lo up s₁ s₂) (h₂ : Touches lo up s₂ s₃) :
    Touches lo up s₁ s₃ := by
  obtain ⟨l, hl, hin⟩ := h₁
  obtain ⟨m, hm, hin'⟩ := h₂
  refine ⟨m ++ l, by rw [hm, hl, List.append_assoc], fun i hi => ?_⟩
  exact (List.mem_append.mp hi).elim (hin' i) (hin i)

theorem Touches.mono {lo up lo' up' : Nat} {s s' : St V} (h : Touches lo' up' s s') (hlo : lo ≤ lo') (hup : up' ≤ up) :
    Touches lo up s s' := by
  obtain ⟨l, hl, hin⟩ := h
  exact ⟨l, hl, fun i hi => ⟨Nat.le_trans hlo (hin i hi).1, Nat.le_trans (hin i hi).2 hup⟩⟩

/-- The run from `s` touches indices from `lo` to `up` only, and ends in a value as it should be, or in the error for
the order; under `O`, it ends in a value. -/
def Ends {α : Type} (lo up : Nat) (O : Prop) (s : St V) (Q : α → St V → Prop) : Except Fault α × St V → Prop
  | (.ok a, s') => Touches lo up s s' ∧ Q a s'
  | (.error .order, s') => Touches lo up s s' ∧ ¬O
  | (.error _, _) => False

variable {α β : Type} {lo up : Nat} {O : Prop} {s : St V}

theorem Ends.bind {m : M V α} {f : α → M V β} {P : α → St V → Prop} {Q : β → St V → Prop}
    (hm : Ends lo up O s P (m s)) (hf : ∀ a s', P a s' → Ends lo up O s' Q (f a s')) :
    Ends lo up O s Q ((m >>= f) s) := by
  change Ends lo up O s Q (match m s with | (.ok a, s) => f a s | (.error e, s) => (.error e, s))
  generalize m s = r at hm
  obtain ⟨r, s₁⟩ := r
  cases r with
  | ok a =>
    obtain ⟨htouch, hp⟩ := hm
    have hfa := hf a s₁ hp
    change Ends lo up O s Q (f a s₁)
    generalize f a s₁ = r at hfa
    obtain ⟨r, s₂⟩ := r
    cases r with
    | ok b => exact ⟨htouch.trans hfa.1, hfa.2⟩
    | error e =>
      cases e with
      | order => exact ⟨htouch.trans hfa.1, hfa.2⟩
      | tooBig | panic | fuel => exact hfa
  | error e =>
    cases e with
    | order => exact hm
    | tooBig | panic | fuel => exact hm

theorem Ends.mono {r : Except Fault α × St V} {lo' up' : Nat} {P Q : α → St V → Prop} (h : Ends lo' up' O s P r)
    (hlo : lo ≤ lo') (hup : up' ≤ up) (hq : ∀ a s', P a s' → Q a s') : Ends lo up O s Q r := by
  obtain ⟨r, s'⟩ := r
  cases r with
  | ok a => exact ⟨h.1.mono hlo hup, hq a s' h.2⟩
  | error e =>
    cases e with
    | order => exact ⟨h.1.mono hlo hup, h.2⟩
    | tooBig | panic | fuel => exact h

theorem ends_pure {Q : α → St V → Prop} {a : α} (h : Q a s) : Ends lo up O s Q ((pure a : M V α) s) :=
  ⟨.of_eq rfl, h⟩

theorem ends_index {i : Nat} (hi : lo ≤ i ∧ i ≤ up) :
    Ends lo up O s (fun v s' => v = s.tab i ∧ s'.tab = s.tab) (index i s) :=
  ⟨.one rfl hi, rfl, rfl⟩

theorem ends_put {i : Nat} (hi : lo ≤ i ∧ i ≤ up) (v : V) :
    Ends lo up O s (fun _ s' => s'.tab = Function.update s.tab i v) (put i v s) :=
  ⟨.one rfl hi, rfl⟩

theorem ends_sortComp (cmp : Nat → V → V → Bool) (a b : V) :
    Ends lo up O s (fun r s' => (∃ k, r = cmp k a b) ∧ s'.tab = s.tab) (sortComp cmp a b s) :=
  ⟨.of_eq rfl, ⟨s.asked, rfl⟩, rfl⟩

end

/-! ## Orders and permutations -/

theorem wadd_of_lt {a b : Nat} (h : a + b < 2 ^ 32) : wadd a b = a + b := Nat.mod_eq_of_lt h

theorem wsub_of_le {a b : Nat} (hle : b ≤ a) (h : a < 2 ^ 32) : wsub a b = a - b := by
  unfold wsub
  omega

section

variable {V : Type} {cmp : Nat → V → V → Bool} {lt : V → V → Prop}

/-- The comparison function answers by a strict weak order. -/
structure Orders (cmp : Nat → V → V → Bool) (lt : V → V → Prop) : Prop where
  order : IsStrictWeakOrder V lt
  answers : ∀ k a b, cmp k a b = true ↔ lt a b

theorem Orders.irrefl (h : Orders cmp lt) (a : V) : ¬lt a a :=
  have := h.order
  irrefl_of lt a

theorem Orders.asymm (h : Orders cmp lt) {a b : V} (hab : lt a b) : ¬lt b a :=
  have := h.order
  asymm_of lt hab

/-- The elements from `lo` to `up` changed places. -/
def Rearranged (lo up : Nat) (t t' : Nat → V) : Prop :=
  ∃ σ : Equiv.Perm Nat, (∀ k, ¬(lo ≤ k ∧ k ≤ up) → σ k = k) ∧ t' = t ∘ σ

theorem Rearranged.refl (lo up : Nat) (t : Nat → V) : Rearranged lo up t t := ⟨.refl _, fun _ _ => rfl, rfl⟩

theorem Rearranged.trans {lo up : Nat} {t₁ t₂ t₃ : Nat → V} (h₁ : Rearranged lo up t₁ t₂)
    (h₂ : Rearranged lo up t₂ t₃) : Rearranged lo up t₁ t₃ := by
  obtain ⟨σ, hσ, rfl⟩ := h₁
  obtain ⟨τ, hτ, rfl⟩ := h₂
  exact ⟨τ.trans σ, fun k hk => by rw [Equiv.trans_apply, hτ k hk, hσ k hk], rfl⟩

theorem Rearranged.mono {lo up lo' up' : Nat} {t t' : Nat → V} (h : Rearranged lo' up' t t') (hlo : lo ≤ lo')
    (hup : up' ≤ up) : Rearranged lo up t t' := by
  obtain ⟨σ, hσ, ht⟩ := h
  exact ⟨σ, fun k hk => hσ k fun hin => hk ⟨Nat.le_trans hlo hin.1, Nat.le_trans hin.2 hup⟩, ht⟩

theorem Rearranged.swap {lo up i j : Nat} (hi : lo ≤ i ∧ i ≤ up) (hj : lo ≤ j ∧ j ≤ up) (t : Nat → V) :
    Rearranged lo up t (t ∘ Equiv.swap i j) := by
  refine ⟨Equiv.swap i j, fun k hk => Equiv.swap_apply_of_ne_of_ne ?_ ?_, rfl⟩
  · rintro rfl
    exact hk hi
  · rintro rfl
    exact hk hj

/-- Nothing else changed. -/
theorem Rearranged.outside {lo up : Nat} {t t' : Nat → V} (h : Rearranged lo up t t') {k : Nat}
    (hk : ¬(lo ≤ k ∧ k ≤ up)) : t' k = t k := by
  obtain ⟨σ, hσ, rfl⟩ := h
  exact congrArg t (hσ k hk)

theorem Rearranged.forall {lo up : Nat} {t t' : Nat → V} (h : Rearranged lo up t t') {P : V → Prop}
    (hP : ∀ k, lo ≤ k → k ≤ up → P (t k)) {k : Nat} (hlo : lo ≤ k) (hup : k ≤ up) : P (t' k) := by
  obtain ⟨σ, hσ, rfl⟩ := h
  by_cases hin : lo ≤ σ k ∧ σ k ≤ up
  · exact hP (σ k) hin.1 hin.2
  · have hfix : σ k = k := σ.injective (hσ (σ k) hin)
    rw [hfix] at hin
    exact absurd ⟨hlo, hup⟩ hin

/-- No element is less than its predecessor. -/
def Sorted (lt : V → V → Prop) (lo up : Nat) (t : Nat → V) : Prop := ∀ k, lo ≤ k → k < up → ¬lt (t (k + 1)) (t k)

/-- Two sorted parts, and an element between them. -/
theorem Sorted.glue {lo p up : Nat} {t : Nat → V} (hp : lo < p ∧ p < up) (hleft : Sorted lt lo (p - 1) t)
    (hright : Sorted lt (p + 1) up t) (hbelow : ∀ k, lo ≤ k → k ≤ p - 1 → ¬lt (t p) (t k))
    (habove : ∀ k, p + 1 ≤ k → k ≤ up → ¬lt (t k) (t p)) : Sorted lt lo up t := by
  intro k hlo hup
  rcases Nat.lt_trichotomy k p with hk | rfl | hk
  · by_cases hlast : k + 1 = p
    · rw [hlast]
      exact hbelow k hlo (by omega)
    · exact hleft k hlo (by omega)
  · exact habove (k + 1) (Nat.le_refl _) hup
  · exact hright k hk hup

variable {lo up : Nat} {s : St V}

theorem ends_set2 {O : Prop} {i j : Nat} (hi : lo ≤ i ∧ i ≤ up) (hj : lo ≤ j ∧ j ≤ up) {a b : V} (ha : a = s.tab j)
    (hb : b = s.tab i) : Ends lo up O s (fun _ s' => s'.tab = s.tab ∘ Equiv.swap i j) (set2 i a j b s) := by
  refine (ends_put hi a).bind fun _ s₁ h₁ => (ends_put hj b).mono (Nat.le_refl _) (Nat.le_refl _) fun _ s₂ h₂ => ?_
  rw [h₂, h₁, ha, hb]
  funext k
  rw [Function.comp_apply, Equiv.swap_apply_def]
  by_cases hkj : k = j
  · rw [hkj, Function.update_self]
    by_cases h : j = i
    · rw [if_pos h, h]
    · rw [if_neg h, if_pos rfl]
  · rw [Function.update_of_ne hkj, if_neg hkj]
    by_cases hki : k = i
    · rw [hki, Function.update_self, if_pos rfl]
    · rw [Function.update_of_ne hki, if_neg hki]

/-! ## The scans -/

theorem ends_scanUp {a : V} {fuel i : Nat} (hup : up < 2147483647) (hlo : lo ≤ i) (hi : i + 1 < up)
    (hfuel : up ≤ fuel + i + 1) (hpivot : s.tab (up - 1) = a) :
    Ends lo up (Orders cmp lt) s (fun p s' => s'.tab = s.tab ∧ i < p.1 ∧ p.1 < up ∧ p.2 = s.tab p.1 ∧
      (Orders cmp lt → (∀ k, i < k → k < p.1 → lt (s.tab k) a) ∧ ¬lt (s.tab p.1) a)) (scanUp cmp a up fuel i s) := by
  induction fuel generalizing i s with
  | zero => omega
  | succ fuel ih =>
    rw [scanUp, wadd_of_lt (by omega), wsub_of_le (by omega) (by omega)]
    refine (ends_index ⟨by omega, by omega⟩).bind fun b s₁ hb => ?_
    obtain ⟨rfl, h₁⟩ := hb
    refine (ends_sortComp cmp _ a).bind fun r s₂ hr => ?_
    obtain ⟨⟨q, rfl⟩, h₂⟩ := hr
    have htab : s₂.tab = s.tab := h₂.trans h₁
    split_ifs with hlt hend
    · -- the pivot would be less than itself
      refine ⟨.of_eq rfl, fun ho => ho.irrefl a ?_⟩
      have := (ho.answers q _ _).mp hlt
      rwa [hend, hpivot] at this
    · refine (ih (by omega) (by omega) (by omega) (by rw [htab]; exact hpivot)).mono (Nat.le_refl _) (Nat.le_refl _) ?_
      rintro ⟨i', b⟩ s₃ ⟨h₃, hi', hup', hb, ho⟩
      rw [htab] at h₃ hb ho
      refine ⟨h₃, by omega, hup', hb, fun hord => ⟨fun k hk hk' => ?_, (ho hord).2⟩⟩
      by_cases heq : k = i + 1
      · rw [heq]
        exact (hord.answers q _ _).mp hlt
      · exact (ho hord).1 k (by omega) hk'
    · refine ends_pure ⟨htab, Nat.lt_succ_self i, hi, rfl, fun hord => ⟨fun k hk hk' => by omega, fun h => ?_⟩⟩
      exact hlt ((hord.answers q _ _).mpr h)

theorem ends_scanDown {a : V} {fuel i j : Nat} (hup : up < 2147483647) (hi : lo < i) (hlo : lo < j) (hj : j ≤ up)
    (hfuel : j ≤ fuel + lo) (hbelow : Orders cmp lt → ∀ k, lo ≤ k → k < i → ¬lt a (s.tab k)) :
    Ends lo up (Orders cmp lt) s (fun p s' => s'.tab = s.tab ∧ lo ≤ p.1 ∧ p.1 < j ∧ p.2 = s.tab p.1 ∧
      (Orders cmp lt → (∀ k, p.1 < k → k < j → lt a (s.tab k)) ∧ ¬lt a (s.tab p.1))) (scanDown cmp a i fuel j s) := by
  induction fuel generalizing j s with
  | zero => omega
  | succ fuel ih =>
    rw [scanDown, wsub_of_le (by omega) (by omega)]
    refine (ends_index ⟨by omega, by omega⟩).bind fun c s₁ hc => ?_
    obtain ⟨rfl, h₁⟩ := hc
    refine (ends_sortComp cmp a _).bind fun r s₂ hr => ?_
    obtain ⟨⟨q, rfl⟩, h₂⟩ := hr
    have htab : s₂.tab = s.tab := h₂.trans h₁
    split_ifs with hlt hend
    · exact ⟨.of_eq rfl, fun ho => hbelow ho _ (by omega) hend ((ho.answers q _ _).mp hlt)⟩
    · refine (ih (by omega) (by omega) (by omega) (by rw [htab]; exact hbelow)).mono (Nat.le_refl _) (Nat.le_refl _) ?_
      rintro ⟨j', c⟩ s₃ ⟨h₃, hlo', hj', hc, ho⟩
      rw [htab] at h₃ hc ho
      refine ⟨h₃, hlo', by omega, hc, fun hord => ⟨fun k hk hk' => ?_, (ho hord).2⟩⟩
      by_cases heq : k = j - 1
      · rw [heq]
        exact (hord.answers q _ _).mp hlt
      · exact (ho hord).1 k hk (by omega)
    · refine ends_pure ⟨htab, by omega, by omega, rfl, fun hord => ⟨fun k hk hk' => by omega, fun h => ?_⟩⟩
      exact hlt ((hord.answers q _ _).mpr h)

/-! ## The partition -/

/-- The elements to the left of `i` are not greater than the pivot, those from `j` on are not less. -/
structure Parted (lt : V → V → Prop) (a : V) (lo up i j : Nat) (t : Nat → V) : Prop where
  below : ∀ k, lo ≤ k → k ≤ i → ¬lt a (t k)
  above : ∀ k, j ≤ k → k ≤ up → ¬lt (t k) a

/-- What `partition` returns: the pivot is at `p`, and parts the others. -/
structure Split (cmp : Nat → V → V → Bool) (lt : V → V → Prop) (lo up : Nat) (t : Nat → V) (p : Nat) (t' : Nat → V) :
    Prop where
  bounds : lo < p ∧ p < up
  rearranged : Rearranged lo up t t'
  below : Orders cmp lt → ∀ k, lo ≤ k → k ≤ p - 1 → ¬lt (t' p) (t' k)
  above : Orders cmp lt → ∀ k, p + 1 ≤ k → k ≤ up → ¬lt (t' k) (t' p)

theorem ends_partitionLoop {a : V} {fuel i j : Nat} (hup : up < 2147483647) (hi : lo ≤ i) (hij : i ≤ j) (hlo : lo < j)
    (hj : j < up) (hi' : i + 1 < up) (hfueli : up ≤ fuel + i) (hfuelj : j ≤ fuel + lo) (hpivot : s.tab (up - 1) = a)
    (hparted : Orders cmp lt → Parted lt a lo up i j s.tab) :
    Ends lo up (Orders cmp lt) s (fun p s' => Split cmp lt lo up s.tab p s'.tab)
      (partitionLoop cmp a up fuel i j s) := by
  induction fuel generalizing i j s with
  | zero => omega
  | succ fuel ih =>
    rw [partitionLoop]
    refine Ends.bind (ends_scanUp hup hi hi' (by omega) hpivot) ?_
    rintro ⟨i', b⟩ s₁ ⟨h₁, hii', hi'up, hb, hscan⟩
    dsimp only at hii' hi'up hb hscan ⊢
    have hbelow (ho : Orders cmp lt) (k : Nat) (hk : lo ≤ k) (hk' : k < i') : ¬lt a (s₁.tab k) := by
      rw [h₁]
      by_cases hki : k ≤ i
      · exact (hparted ho).below k hk hki
      · exact ho.asymm ((hscan ho).1 k (by omega) hk')
    refine (ends_scanDown hup (by omega) hlo (by omega) (by omega) hbelow).bind ?_
    rintro ⟨j', c⟩ s₂ ⟨h₂, hloj', hj'j, hc, hscan'⟩
    dsimp only at hloj' hj'j hc hscan' ⊢
    rw [h₁] at h₂ hc hscan' hbelow
    have habove (ho : Orders cmp lt) (k : Nat) (hk : j' < k) (hk' : k ≤ up) : ¬lt (s.tab k) a := by
      by_cases hkj : j ≤ k
      · exact (hparted ho).above k hkj hk'
      · exact ho.asymm ((hscan' ho).1 k hk (by omega))
    split_ifs with hcross
    · rw [wsub_of_le (by omega) (by omega)]
      refine (ends_set2 ⟨by omega, by omega⟩ ⟨by omega, by omega⟩ (by rw [h₂]; exact hb)
        (by rw [h₂]; exact hpivot.symm)).bind fun _ s₃ h₃ => ends_pure ?_
      have hp : s₃.tab i' = a := by rw [h₃, h₂, Function.comp_apply, Equiv.swap_apply_right, hpivot]
      have hlast : s₃.tab (up - 1) = s.tab i' := by rw [h₃, h₂, Function.comp_apply, Equiv.swap_apply_left]
      have hother {k : Nat} (hk : k ≠ up - 1) (hk' : k ≠ i') : s₃.tab k = s.tab k := by
        rw [h₃, h₂, Function.comp_apply, Equiv.swap_apply_of_ne_of_ne hk hk']
      refine ⟨⟨by omega, hi'up⟩, by rw [h₃, h₂]; exact .swap ⟨by omega, by omega⟩ ⟨by omega, by omega⟩ _, ?_, ?_⟩
      · intro ho k hk hk'
        rw [hp, hother (by omega) (by omega)]
        exact hbelow ho k hk (by omega)
      · intro ho k hk hk'
        rw [hp]
        by_cases hku : k = up - 1
        · rw [hku, hlast]
          exact (hscan ho).2
        · rw [hother hku (by omega)]
          exact habove ho k (by omega) hk'
    · refine (ends_set2 ⟨by omega, by omega⟩ ⟨by omega, by omega⟩ (by rw [h₂]; exact hc)
        (by rw [h₂]; exact hb)).bind fun _ s₃ h₃ => ?_
      rw [h₂] at h₃
      have hl : s₃.tab i' = s.tab j' := by rw [h₃, Function.comp_apply, Equiv.swap_apply_left]
      have hr : s₃.tab j' = s.tab i' := by rw [h₃, Function.comp_apply, Equiv.swap_apply_right]
      have hother {k : Nat} (hk : k ≠ i') (hk' : k ≠ j') : s₃.tab k = s.tab k := by
        rw [h₃, Function.comp_apply, Equiv.swap_apply_of_ne_of_ne hk hk']
      have hnext : Orders cmp lt → Parted lt a lo up i' j' s₃.tab := by
        refine fun ho => ⟨fun k hk hk' => ?_, fun k hk hk' => ?_⟩
        · by_cases hki : k = i'
          · rw [hki, hl]
            exact (hscan' ho).2
          · rw [hother hki (by omega)]
            exact hbelow ho k hk (by omega)
        · by_cases hkj : k = j'
          · rw [hkj, hr]
            exact (hscan ho).2
          · rw [hother (by omega) hkj]
            exact habove ho k (by omega) hk'
      refine (ih (by omega) (by omega) (by omega) (by omega) (by omega) (by omega) (by omega)
        (by rw [hother (by omega) (by omega)]; exact hpivot) hnext).mono (Nat.le_refl _) (Nat.le_refl _) ?_
      intro p s₄ hsplit
      refine ⟨hsplit.bounds, .trans ?_ hsplit.rearranged, hsplit.below, hsplit.above⟩
      rw [h₃]
      exact .swap ⟨by omega, by omega⟩ ⟨by omega, by omega⟩ _

theorem Split.of_rearranged {t₁ t₂ t₃ : Nat → V} {p : Nat} (h : Split cmp lt lo up t₂ p t₃)
    (hr : Rearranged lo up t₁ t₂) : Split cmp lt lo up t₁ p t₃ :=
  ⟨h.bounds, hr.trans h.rearranged, h.below, h.above⟩

theorem ends_partition {fuel p : Nat} (hup : up < 2147483647) (hp : lo < p ∧ p < up) (hlen : lo + 2 < up)
    (hfuel : up ≤ fuel + lo)
    (hmedian : Orders cmp lt → ¬lt (s.tab p) (s.tab lo) ∧ ¬lt (s.tab up) (s.tab p)) :
    Ends lo up (Orders cmp lt) s (fun p s' => Split cmp lt lo up s.tab p s'.tab) (partition cmp fuel lo up p s) := by
  rw [partition, wsub_of_le (by omega) (by omega)]
  refine (ends_index ⟨by omega, by omega⟩).bind fun a s₁ ha => ?_
  obtain ⟨rfl, h₁⟩ := ha
  refine (ends_index ⟨by omega, by omega⟩).bind fun b s₂ hb => ?_
  obtain ⟨rfl, h₂⟩ := hb
  rw [h₁] at h₂
  refine (ends_set2 ⟨by omega, by omega⟩ ⟨by omega, by omega⟩ (by rw [h₁, h₂]) (by rw [h₂])).bind fun _ s₃ h₃ => ?_
  rw [h₂] at h₃
  have hlast : s₃.tab (up - 1) = s.tab p := by rw [h₃, Function.comp_apply, Equiv.swap_apply_right]
  have hother {k : Nat} (hk : k ≠ p) (hk' : k ≠ up - 1) : s₃.tab k = s.tab k := by
    rw [h₃, Function.comp_apply, Equiv.swap_apply_of_ne_of_ne hk hk']
  have hparted : Orders cmp lt → Parted lt (s.tab p) lo up lo (up - 1) s₃.tab := by
    refine fun ho => ⟨fun k hk hk' => ?_, fun k hk hk' => ?_⟩
    · obtain rfl : k = lo := by omega
      rw [hother (by omega) (by omega)]
      exact (hmedian ho).1
    · by_cases hku : k = up - 1
      · rw [hku, hlast]
        exact ho.irrefl _
      · obtain rfl : k = up := by omega
        rw [hother (by omega) hku]
        exact (hmedian ho).2
  refine (ends_partitionLoop hup (Nat.le_refl lo) (by omega) (by omega) (by omega) (by omega) hfuel (by omega) hlast
    hparted).mono (Nat.le_refl _) (Nat.le_refl _) fun q s₄ hsplit => hsplit.of_rearranged ?_
  rw [h₃]
  exact .swap ⟨by omega, by omega⟩ ⟨by omega, by omega⟩ _

/-! ## The pivot -/

theorem ends_sortEnds (hlen : lo < up) :
    Ends lo up (Orders cmp lt) s (fun _ s' => Rearranged lo up s.tab s'.tab ∧
      (Orders cmp lt → ¬lt (s'.tab up) (s'.tab lo))) (sortEnds cmp lo up s) := by
  refine (ends_index ⟨by omega, by omega⟩).bind fun a s₁ ha => ?_
  obtain ⟨rfl, h₁⟩ := ha
  refine (ends_index ⟨by omega, by omega⟩).bind fun b s₂ hb => ?_
  obtain ⟨rfl, h₂⟩ := hb
  rw [h₁] at h₂ ⊢
  refine (ends_sortComp cmp _ _).bind fun r s₃ hr => ?_
  obtain ⟨⟨q, rfl⟩, h₃⟩ := hr
  rw [h₂] at h₃
  split_ifs with hlt
  · refine (ends_set2 ⟨by omega, by omega⟩ ⟨by omega, by omega⟩ (by rw [h₃]) (by rw [h₃])).mono (Nat.le_refl _)
      (Nat.le_refl _) fun _ s₄ h₄ => ?_
    rw [h₄, h₃]
    refine ⟨.swap ⟨by omega, by omega⟩ ⟨by omega, by omega⟩ _, fun ho => ?_⟩
    rw [Function.comp_apply, Function.comp_apply, Equiv.swap_apply_right, Equiv.swap_apply_left]
    exact ho.asymm ((ho.answers q _ _).mp hlt)
  · refine ends_pure ?_
    rw [h₃]
    exact ⟨.refl _ _ _, fun ho h => hlt ((ho.answers q _ _).mpr h)⟩

theorem ends_pivotIndex (hup : up < 2147483647) (hlen : lo + 1 < up) (rnd : Nat) :
    Ends lo up (Orders cmp lt) s (fun p s' => (lo < p ∧ p < up) ∧ s'.tab = s.tab) (pivotIndex lo up rnd s) := by
  unfold pivotIndex
  split_ifs with hsmall
  · rw [wadd_of_lt (by omega)]
    exact ends_pure ⟨by omega, rfl⟩
  · have hr4 : 25 ≤ (up - lo) / 4 := by omega
    have hlt := Nat.mod_lt rnd (show (up - lo) / 4 * 2 > 0 by omega)
    rw [choosePivot, wsub_of_le (by omega) (by omega), if_neg (by omega), wadd_of_lt (a := lo) (by omega),
      wadd_of_lt (by omega)]
    exact ends_pure ⟨by omega, rfl⟩

theorem ends_sortPivot {p : Nat} (hp : lo < p ∧ p < up) (hends : Orders cmp lt → ¬lt (s.tab up) (s.tab lo)) :
    Ends lo up (Orders cmp lt) s (fun _ s' => Rearranged lo up s.tab s'.tab ∧
      (Orders cmp lt → ¬lt (s'.tab p) (s'.tab lo) ∧ ¬lt (s'.tab up) (s'.tab p))) (sortPivot cmp lo p up s) := by
  refine (ends_index ⟨by omega, by omega⟩).bind fun a s₁ ha => ?_
  obtain ⟨rfl, h₁⟩ := ha
  refine (ends_index ⟨by omega, by omega⟩).bind fun b s₂ hb => ?_
  obtain ⟨rfl, h₂⟩ := hb
  rw [h₁] at h₂ ⊢
  refine (ends_sortComp cmp _ _).bind fun r s₃ hr => ?_
  obtain ⟨⟨q, rfl⟩, h₃⟩ := hr
  rw [h₂] at h₃
  split_ifs with hlt
  · refine (ends_set2 ⟨by omega, by omega⟩ ⟨by omega, by omega⟩ (by rw [h₃]) (by rw [h₃])).mono (Nat.le_refl _)
      (Nat.le_refl _) fun _ s₄ h₄ => ?_
    rw [h₄, h₃]
    refine ⟨.swap ⟨by omega, by omega⟩ ⟨by omega, by omega⟩ _, fun ho => ?_⟩
    simp only [Function.comp_apply, Equiv.swap_apply_right, Equiv.swap_apply_left]
    rw [Equiv.swap_apply_of_ne_of_ne (by omega) (by omega)]
    exact ⟨ho.asymm ((ho.answers q _ _).mp hlt), hends ho⟩
  · refine (ends_index ⟨by omega, by omega⟩).bind fun b s₄ hb => ?_
    obtain ⟨rfl, h₄⟩ := hb
    rw [h₃] at h₄ ⊢
    refine (ends_sortComp cmp _ _).bind fun r s₅ hr => ?_
    obtain ⟨⟨q', rfl⟩, h₅⟩ := hr
    rw [h₄] at h₅
    split_ifs with hlt'
    · refine (ends_set2 ⟨by omega, by omega⟩ ⟨by omega, by omega⟩ (by rw [h₅]) (by rw [h₅])).mono (Nat.le_refl _)
        (Nat.le_refl _) fun _ s₆ h₆ => ?_
      rw [h₆, h₅]
      refine ⟨.swap ⟨by omega, by omega⟩ ⟨by omega, by omega⟩ _, fun ho => ?_⟩
      simp only [Function.comp_apply, Equiv.swap_apply_right, Equiv.swap_apply_left]
      rw [Equiv.swap_apply_of_ne_of_ne (by omega) (by omega)]
      exact ⟨hends ho, ho.asymm ((ho.answers q' _ _).mp hlt')⟩
    · refine ends_pure ?_
      rw [h₅]
      exact ⟨.refl _ _ _, fun ho =>
        ⟨fun h => hlt ((ho.answers q _ _).mpr h), fun h => hlt' ((ho.answers q' _ _).mpr h)⟩⟩

end

end Tsuki.Sort
