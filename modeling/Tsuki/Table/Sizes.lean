import Tsuki.Table.Cells
import Mathlib.Algebra.BigOperators.Group.Finset.Piecewise

/-!
# Sizes

`luaH_realasize` finds the size of the array part behind a hint, the bit test of `luaH_getint` decides whether an
index is in it, and the sizes `rehash` computes have room for every pair.
-/

namespace Tsuki.Table

variable {V : Type}

/-! ## Bits -/

section

variable {n k : Nat} (hlow : 2 ^ k < 2 * n) (hhigh : n ≤ 2 ^ k)
include hlow

theorem pos_of_hint : 0 < n := by
  have := Nat.two_pow_pos k
  omega

/-- The numbers strictly between two powers of two have the same highest bit. -/
theorem testBit_of_hint {m j : Nat} (hk : k = j + 1) (h1 : n ≤ m + 1) (h2 : m < 2 ^ k) : m.testBit j = true := by
  subst hk
  rw [Nat.pow_succ] at hlow
  exact Nat.testBit_of_two_pow_le_and_two_pow_add_one_gt (by omega) h2

include hhigh

theorem and_pred_eq_zero_iff : n &&& (n - 1) = 0 ↔ n = 2 ^ k := by
  constructor
  · intro h
    by_contra hne
    obtain ⟨j, rfl⟩ : ∃ j, k = j + 1 := by
      refine Nat.exists_eq_succ_of_ne_zero ?_
      rintro rfl
      rw [Nat.pow_zero] at hlow hhigh hne
      omega
    have hbit : (n &&& (n - 1)).testBit j = Nat.testBit 0 j := by rw [h]
    rw [Nat.testBit_and, testBit_of_hint hlow rfl (by omega) (by omega),
      testBit_of_hint hlow rfl (by omega) (by omega), Nat.zero_testBit] at hbit
    cases hbit
  · rintro rfl
    apply Nat.eq_of_testBit_eq
    intro i
    rw [Nat.testBit_and, Nat.testBit_two_pow, Nat.testBit_two_pow_sub_one, Nat.zero_testBit]
    by_cases hi : k = i
    · simp [hi]
    · simp [hi]

/-- The test of `luaH_getint`: behind the hint `n` there are `2 ^ k` slots. -/
theorem and_neg_lt_iff (hk : k ≤ 63) {u : Nat} (hu : u < 2 ^ 64) (hnu : n ≤ u) :
    u &&& (2 ^ 64 - n) < n ↔ u < 2 ^ k := by
  have hpos := pos_of_hint hlow
  obtain ⟨m, rfl⟩ : ∃ m, n = m + 1 := ⟨n - 1, by omega⟩
  have hm : m < 2 ^ 64 := Nat.lt_of_lt_of_le (by omega) (Nat.pow_le_pow_right (by omega) (by omega : k ≤ 64))
  have hbit : ∀ i, (u &&& (2 ^ 64 - (m + 1))).testBit i = (u.testBit i && (decide (i < 64) && !m.testBit i)) := by
    intro i
    rw [Nat.testBit_and, Nat.testBit_two_pow_sub_succ hm]
  constructor
  · intro h
    by_contra hge
    obtain ⟨i, hi, hui⟩ := Nat.exists_ge_and_testBit_of_ge_two_pow (Nat.le_of_not_lt hge)
    have hi64 : i < 64 := by
      by_contra h64
      rw [Nat.testBit_lt_two_pow (Nat.lt_of_lt_of_le hu (Nat.pow_le_pow_right (by omega) (by omega)))] at hui
      cases hui
    have hmi : m.testBit i = false :=
      Nat.testBit_lt_two_pow (Nat.lt_of_lt_of_le (by omega) (Nat.pow_le_pow_right (by omega) hi))
    have hle : 2 ^ i ≤ u &&& (2 ^ 64 - (m + 1)) := by
      refine Nat.ge_two_pow_of_testBit ?_
      rw [hbit, hui, hmi, decide_eq_true hi64]
      rfl
    have := Nat.pow_le_pow_right (n := 2) (by omega) hi
    omega
  · intro h
    obtain ⟨j, rfl⟩ : ∃ j, k = j + 1 := by
      refine Nat.exists_eq_succ_of_ne_zero ?_
      rintro rfl
      rw [Nat.pow_zero] at h
      omega
    have hlt : u &&& (2 ^ 64 - (m + 1)) < 2 ^ j := by
      refine Nat.lt_pow_two_of_testBit _ fun i hi => ?_
      rw [hbit]
      rcases Nat.lt_or_eq_of_le hi with hi | rfl
      · rw [Nat.testBit_lt_two_pow (Nat.lt_of_lt_of_le h (Nat.pow_le_pow_right (by omega) hi))]
        rfl
      · rw [testBit_of_hint hlow rfl (le_refl _) (by omega)]
        simp
    rw [Nat.pow_succ] at hlow
    omega

end

/-- One step of the smearing: `s` has bit `i` where `n` has one of the `w` bits from `i` on. -/
theorem smear_step {n s w : Nat} (h : ∀ i, s.testBit i = true ↔ ∃ j < w, n.testBit (i + j) = true) (i : Nat) :
    (s ||| s >>> w).testBit i = true ↔ ∃ j < 2 * w, n.testBit (i + j) = true := by
  rw [Nat.testBit_or, Nat.testBit_shiftRight, Bool.or_eq_true, h, h]
  constructor
  · rintro (⟨j, hj, hb⟩ | ⟨j, hj, hb⟩)
    · exact ⟨j, by omega, hb⟩
    · exact ⟨w + j, by omega, by rwa [show i + (w + j) = w + i + j by omega]⟩
  · rintro ⟨j, hj, hb⟩
    by_cases hlt : j < w
    · exact .inl ⟨j, hlt, hb⟩
    · exact .inr ⟨j - w, by omega, by rwa [show w + i + (j - w) = i + j by omega]⟩

theorem smear_eq {n k s : Nat} (hk : k ≤ 31) (hlow : 2 ^ k < 2 * n) (hhigh : n < 2 ^ k)
    (h : ∀ i, s.testBit i = true ↔ ∃ j < 32, n.testBit (i + j) = true) : s = 2 ^ k - 1 := by
  obtain ⟨j, rfl⟩ : ∃ j, k = j + 1 := by
    refine Nat.exists_eq_succ_of_ne_zero ?_
    rintro rfl
    rw [Nat.pow_zero] at hlow hhigh
    omega
  apply Nat.eq_of_testBit_eq
  intro i
  rw [Nat.testBit_two_pow_sub_one, Bool.eq_iff_iff, h, decide_eq_true_eq]
  constructor
  · rintro ⟨d, -, hd⟩
    by_contra hge
    rw [Nat.testBit_lt_two_pow (Nat.lt_of_lt_of_le hhigh (Nat.pow_le_pow_right (by omega) (by omega)))] at hd
    cases hd
  · intro hi
    refine ⟨j - i, by omega, ?_⟩
    rw [show i + (j - i) = j by omega]
    exact testBit_of_hint hlow rfl (by omega) hhigh

theorem realasize_of_hint {t : Table V} {k : Nat} (hk : k ≤ 31) (hhint : t.hint = true)
    (hlow : 2 ^ k < 2 * t.alimit) (hhigh : t.alimit ≤ 2 ^ k) : realasize t = 2 ^ k := by
  rw [realasize]
  by_cases heq : t.alimit = 2 ^ k
  · rw [if_pos (.inr ((and_pred_eq_zero_iff hlow hhigh).mpr heq)), heq]
  rw [if_neg (by simp [hhint, and_pred_eq_zero_iff hlow hhigh, heq])]
  dsimp only
  have h1 : ∀ i, t.alimit.testBit i = true ↔ ∃ j < 1, t.alimit.testBit (i + j) = true := by simp
  have h32 := smear_step (smear_step (smear_step (smear_step (smear_step h1))))
  rw [smear_eq hk hlow (by omega) h32]
  have hpow : 2 ^ k ≤ 2 ^ 31 := Nat.pow_le_pow_right (by omega) hk
  have := Nat.two_pow_pos k
  omega

/-! ## Logarithms -/

theorem ceillog2Loop_eq (n l x : Nat) : ceillog2Loop n l x = l + Nat.clog 2 (x + 1) := by
  induction n generalizing l x with
  | zero => rfl
  | succ n ih =>
    rw [ceillog2Loop]
    split_ifs with h
    · rw [Nat.shiftRight_eq_div_pow, ih]
      have hclog : Nat.clog 2 (x + 1) = 8 + Nat.clog 2 (x / 2 ^ 8 + 1) := by
        apply eq_of_forall_ge_iff
        intro m
        rw [Nat.clog_le_iff_le_pow (by omega)]
        by_cases hm : 8 ≤ m
        · obtain ⟨c, rfl⟩ : ∃ c, m = 8 + c := ⟨m - 8, by omega⟩
          rw [Nat.add_le_add_iff_left, Nat.clog_le_iff_le_pow (by omega), Nat.succ_le_iff, Nat.succ_le_iff,
            Nat.div_lt_iff_lt_mul (by omega), Nat.pow_add, Nat.mul_comm]
        · have : 2 ^ m ≤ 2 ^ 7 := Nat.pow_le_pow_right (by omega) (by omega)
          omega
      omega
    · rfl

theorem ceillog2_le_iff {x m : Nat} (hx : 0 < x) : ceillog2 x ≤ m ↔ x ≤ 2 ^ m := by
  rw [ceillog2, ceillog2Loop_eq, Nat.zero_add, Nat.clog_le_iff_le_pow (by omega), Nat.sub_add_cancel hx]

theorem le_two_pow_ceillog2 (x : Nat) : x ≤ 2 ^ ceillog2 x := by
  rcases Nat.eq_zero_or_pos x with rfl | hx
  · exact Nat.zero_le _
  · exact (ceillog2_le_iff hx).mp (le_refl _)

/-! ## Counting keys -/

/-- The key is an index of an array part of `n` slots. -/
def Key.inArray (n : Nat) : Key → Bool
  | .int i => (i - 1).toUInt64.toNat < n
  | _ => false

/-- The filled slots among the first `n`. -/
def arrayCount (array : List (Option V)) (n : Nat) : Nat := (array.take n).countP (·.isSome)

/-- The pair of the node is one an array part of `n` slots could have. -/
def Node.inside (n : Nat) (nd : Node V) : Bool := nd.val.isSome && nd.key.passes (Key.inArray n)

/-- The pair of the node is none an array part of `n` slots could have. -/
def Node.outside (n : Nat) (nd : Node V) : Bool := nd.val.isSome && !nd.key.passes (Key.inArray n)

/-- The keys the counters have up to `2 ^ m`. -/
def upTo (nums : Nums) (m : Nat) : Nat := ∑ j ∈ Finset.range (m + 1), nums j

theorem upTo_update (nums : Nums) (l c m : Nat) :
    upTo (Function.update nums l (nums l + c)) m = upTo nums m + if l ≤ m then c else 0 := by
  unfold upTo
  have hterm : ∀ j, Function.update nums l (nums l + c) j = nums j + if j = l then c else 0 := by
    intro j
    by_cases hj : j = l
    · rw [hj, Function.update_self, if_pos rfl]
    · rw [Function.update_of_ne hj, if_neg hj, Nat.add_zero]
  simp only [hterm, Finset.sum_add_distrib, Finset.sum_ite_eq', Finset.mem_range, Nat.lt_succ_iff]

theorem arrayCount_add (array : List (Option V)) (a b : Nat) :
    arrayCount array (a + b) = arrayCount array a + ((array.drop a).take b).countP (·.isSome) := by
  rw [arrayCount, List.take_add, List.countP_append, arrayCount]

theorem arrayCount_le {array : List (Option V)} {a b : Nat} (h : a ≤ b) : arrayCount array a ≤ arrayCount array b := by
  obtain ⟨c, rfl⟩ := Nat.exists_eq_add_of_le h
  rw [arrayCount_add]
  exact Nat.le_add_right _ _

/-- The slices up to index `i` are counted; `lg` is the next. -/
theorem numusearrayLoop_spec (array : List (Option V)) (asize : Nat) (hsize : asize ≤ 2 ^ 31) :
    ∀ (n lg i : Nat) (nums : Nums) (ause : Nat), n + lg = 32 → i ≤ asize → i ≤ 2 ^ lg →
      2 ^ lg ≤ 2 * i ∨ i = asize ∨ lg = 0 → (lg = 0 → i = 0) →
        (∀ m, upTo nums m = arrayCount array (min (2 ^ m) i)) → ause = arrayCount array i →
      let r := numusearrayLoop array asize n lg (i + 1) nums ause
      (∀ m, upTo r.1 m = arrayCount array (min (2 ^ m) asize)) ∧ r.2 = arrayCount array asize := by
  intro n
  induction n with
  | zero =>
    intro lg i nums ause hn hi _ hlow _ hnums hause
    have heq : i = asize := by
      obtain rfl : lg = 32 := by omega
      norm_num at hlow hsize
      omega
    subst heq
    exact ⟨hnums, hause⟩
  | succ n ih =>
    intro lg i nums ause hn hi hhigh hlow hzero hnums hause
    unfold numusearrayLoop
    dsimp only
    generalize hlim : (if 2 ^ lg > asize then asize else 2 ^ lg) = lim
    have hlim' : lim = min (2 ^ lg) asize := by
      rw [← hlim]
      split_ifs <;> omega
    by_cases hstop : 2 ^ lg > asize ∧ i + 1 > lim
    · rw [if_pos hstop]
      obtain rfl : i = asize := by omega
      exact ⟨hnums, hause⟩
    · rw [if_neg hstop]
      have hle : i ≤ lim := by omega
      rw [show max (i + 1) (lim + 1) = lim + 1 by omega, Nat.add_sub_cancel, show lim + 1 - (i + 1) = lim - i by omega]
      have hcount : arrayCount array lim = arrayCount array i + ((array.drop i).take (lim - i)).countP (·.isSome) := by
        rw [← arrayCount_add, Nat.add_sub_cancel' hle]
      have hpow : 2 ^ (lg + 1) = 2 * 2 ^ lg := by rw [Nat.pow_succ, Nat.mul_comm]
      refine ih (lg + 1) lim _ _ (by omega) (by omega) (by omega) (by omega) (by omega) (fun m => ?_) (by omega)
      rw [upTo_update, hnums]
      by_cases hm : lg ≤ m
      · have := Nat.pow_le_pow_right (n := 2) (by omega) hm
        rw [if_pos hm, show min (2 ^ m) i = i by omega, show min (2 ^ m) lim = lim by omega, hcount]
      · have : 2 * 2 ^ m ≤ 2 ^ lg := by
          rw [← Nat.pow_succ']
          exact Nat.pow_le_pow_right (by omega) (by omega)
        rw [if_neg hm, Nat.add_zero]
        congr 1
        omega

theorem numusearray_spec {t : Table V} (hlen : t.array.length = t.alimit) (hsize : t.alimit ≤ 2 ^ 31) :
    (∀ m, upTo (numusearray t fun _ => 0).1 m = arrayCount t.array (2 ^ m)) ∧
      (numusearray t fun _ => 0).2 = arrayCount t.array t.alimit := by
  have h := numusearrayLoop_spec t.array t.alimit hsize 32 0 0 (fun _ => 0) 0 rfl (Nat.zero_le _) (Nat.zero_le _)
    (.inr (.inr rfl)) (fun _ => rfl) (fun m => by simp [upTo, arrayCount]) (by simp [arrayCount])
  refine ⟨fun m => ?_, h.2⟩
  rw [numusearray, h.1 m, arrayCount, arrayCount, ← hlen]
  congr 1
  rw [← List.take_take, List.take_length]

theorem arrayindex_eq (i : Int64) :
    arrayindex i = if (i - 1).toUInt64.toNat < 2 ^ 31 then (i - 1).toUInt64.toNat + 1 else 0 := by
  rw [arrayindex]
  split_ifs with h31
  · have hi : i.toUInt64 = (i - 1).toUInt64 + 1 := by
      rw [Int64.toUInt64_sub]
      exact (UInt64.sub_add_cancel _ _).symm
    rw [hi, UInt64.toNat_add]
    show ((i - 1).toUInt64.toNat + 1) % 2 ^ 64 = _
    omega
  · rfl

/-- The counters after one more key, and whether it is counted. -/
theorem countint_spec (i : Int64) (nums : Nums) :
    (∀ m, m ≤ 31 → upTo (countint i nums).1 m = upTo nums m + if (Key.int i).inArray (2 ^ m) then 1 else 0) ∧
      (countint i nums).2 = if (Key.int i).inArray (2 ^ 31) then 1 else 0 := by
  have hu := (i - 1).toUInt64.toNat_lt
  unfold countint
  by_cases h31 : (i - 1).toUInt64.toNat < 2 ^ 31
  · rw [show arrayindex i = (i - 1).toUInt64.toNat + 1 by rw [arrayindex_eq, if_pos h31]]
    dsimp only
    rw [if_pos (Nat.succ_ne_zero _)]
    refine ⟨fun m _ => ?_, ?_⟩
    · rw [upTo_update]
      simp only [ceillog2_le_iff (Nat.succ_pos _), Key.inArray, decide_eq_true_eq, Nat.succ_le_iff]
    · rw [Key.inArray, if_pos (decide_eq_true h31)]
  · rw [show arrayindex i = 0 from if_neg h31]
    dsimp only
    rw [if_neg (not_not.mpr rfl)]
    refine ⟨fun m hm => ?_, ?_⟩
    · have := Nat.pow_le_pow_right (n := 2) (by omega) hm
      rw [Key.inArray, if_neg (by rw [decide_eq_true_eq]; omega), Nat.add_zero]
    · rw [Key.inArray, if_neg (by rwa [decide_eq_true_eq])]

theorem countKey_spec (k : Key) (nums : Nums) :
    (∀ m, m ≤ 31 → upTo (countKey k nums).1 m = upTo nums m + if k.inArray (2 ^ m) then 1 else 0) ∧
      (countKey k nums).2 = if k.inArray (2 ^ 31) then 1 else 0 := by
  cases k with
  | int i => exact countint_spec i nums
  | _ => exact ⟨fun _ _ => rfl, rfl⟩

theorem numusehash_spec (node : List (Node V)) (nums : Nums) :
    let r := node.foldr countNode (nums, 0, 0)
    (∀ m, m ≤ 31 → upTo r.1 m = upTo nums m + node.countP (Node.inside (2 ^ m))) ∧
      r.2.1 = node.countP (Node.inside (2 ^ 31)) ∧ r.2.2 = node.countP (·.val.isSome) := by
  induction node with
  | nil => simp
  | cons nd node ih =>
    dsimp only at ih ⊢
    rw [List.foldr_cons]
    generalize node.foldr countNode (nums, 0, 0) = r at ih ⊢
    obtain ⟨nums', ause, totaluse⟩ := r
    obtain ⟨hnums, hause, htotal⟩ := ih
    dsimp only at hnums hause htotal
    simp only [List.countP_cons, countNode]
    by_cases hval : nd.val.isSome = true
    · rw [if_pos hval]
      cases hkey : nd.key with
      | live k =>
        have hin : ∀ m, Node.inside (2 ^ m) nd = k.inArray (2 ^ m) := by
          intro m
          rw [Node.inside, hval, hkey]
          rfl
        obtain ⟨h1, h2⟩ := countKey_spec k nums'
        refine ⟨fun m hm => ?_, ?_, ?_⟩
        · dsimp only
          rw [h1 m hm, hnums m hm, hin, Nat.add_assoc]
        · dsimp only
          rw [h2, hause, hin]
        · dsimp only
          rw [htotal, if_pos hval]
      | free | dead =>
        have hin : ∀ m, Node.inside (2 ^ m) nd = false := by
          intro m
          rw [Node.inside, hkey]
          exact Bool.and_false _
        refine ⟨fun m hm => ?_, ?_, ?_⟩
        · rw [hnums m hm, hin]
          simp
        · rw [hause, hin]
          simp
        · rw [htotal, if_pos hval]
    · rw [if_neg hval]
      have hin : ∀ m, Node.inside (2 ^ m) nd = false := by
        intro m
        rw [Node.inside, Bool.eq_false_iff.mpr hval, Bool.false_and]
      refine ⟨fun m hm => ?_, ?_, ?_⟩
      · rw [hnums m hm, hin]
        simp
      · rw [hause, hin]
        simp
      · rw [htotal, if_neg hval, Nat.add_zero]

/-- The result of `computesizes`: no array part, or `2 ^ m` slots and the keys counted for them. -/
theorem computesizesLoop_spec (nums : Nums) (pna : Nat) : ∀ (n i a na optimal : Nat), n + i = 32 →
    a = ∑ j ∈ Finset.range i, nums j →
    ((optimal, na) = (0, 0) ∨ ∃ m ≤ 31, (optimal, na) = (2 ^ m, upTo nums m)) →
    computesizesLoop nums pna n i a na optimal = (0, 0) ∨
      ∃ m ≤ 31, computesizesLoop nums pna n i a na optimal = (2 ^ m, upTo nums m) := by
  intro n
  induction n with
  | zero =>
    intro i a na optimal _ _ h
    exact h
  | succ n ih =>
    intro i a na optimal hi ha h
    have hsum : a + nums i = ∑ j ∈ Finset.range (i + 1), nums j := by rw [ha, Finset.sum_range_succ]
    unfold computesizesLoop
    split_ifs
    · exact ih _ _ _ _ (by omega) hsum (.inr ⟨i, by omega, by rw [hsum, upTo]⟩)
    · exact ih _ _ _ _ (by omega) hsum h
    · exact h

theorem computesizes_spec (nums : Nums) (pna : Nat) :
    computesizes nums pna = (0, 0) ∨ ∃ m ≤ 31, computesizes nums pna = (2 ^ m, upTo nums m) :=
  computesizesLoop_spec nums pna 32 0 0 0 0 rfl rfl (.inl rfl)

/-- What `rehash` counts: the keys in slices, those that can go to the array part, and all of them. -/
def rehashCounts (t : Table V) (ek : Key) : Nums × Nat × Nat :=
  let (nums, na) := numusearray t fun _ => 0
  let (nums', ause, uses) := numusehash t.hash nums
  let (nums'', c) := countKey ek nums'
  (nums'', na + ause + c, na + uses + 1)

theorem rehashSizes_eq (t : Table V) (ek : Key) :
    rehashSizes t ek = ((computesizes (rehashCounts t ek).1 (rehashCounts t ek).2.1).1,
      (rehashCounts t ek).2.2 - (computesizes (rehashCounts t ek).1 (rehashCounts t ek).2.1).2) := by
  unfold rehashSizes rehashCounts
  rcases numusearray t fun _ => 0 with ⟨nums, na⟩
  dsimp only

theorem rehashCounts_spec {t : Table V} (hlen : t.array.length = t.alimit) (hsize : t.alimit ≤ 2 ^ 31) (ek : Key) :
    (∀ m ≤ 31, upTo (rehashCounts t ek).1 m = arrayCount t.array (2 ^ m) +
      t.hash.node.countP (Node.inside (2 ^ m)) + if ek.inArray (2 ^ m) then 1 else 0) ∧
      (rehashCounts t ek).2.1 = upTo (rehashCounts t ek).1 31 ∧
      (rehashCounts t ek).2.2 = arrayCount t.array t.alimit + t.hash.node.countP (·.val.isSome) + 1 := by
  obtain ⟨harr, hna⟩ := numusearray_spec hlen hsize
  rcases hra : numusearray t (fun _ => 0) with ⟨nums₁, na₁⟩
  have hhash := numusehash_spec t.hash.node nums₁
  dsimp only at hhash
  obtain ⟨hnode, hause, huses⟩ := hhash
  rcases hrh : numusehash t.hash nums₁ with ⟨nums₂, ause, uses⟩
  rw [show t.hash.node.foldr countNode (nums₁, 0, 0) = (nums₂, ause, uses) from hrh] at hnode hause huses
  rw [hra] at harr hna
  dsimp only at harr hna hnode hause huses
  obtain ⟨hek, hc'⟩ := countKey_spec ek nums₂
  rcases hc : countKey ek nums₂ with ⟨nums₃, c⟩
  rw [hc] at hek hc'
  dsimp only at hek hc'
  have heq : rehashCounts t ek = (nums₃, na₁ + ause + c, na₁ + uses + 1) := by
    unfold rehashCounts
    rw [hra]
    dsimp only
    rw [hrh]
    dsimp only
    rw [hc]
  have hall : ∀ m ≤ 31, upTo nums₃ m = arrayCount t.array (2 ^ m) + t.hash.node.countP (Node.inside (2 ^ m)) +
      if ek.inArray (2 ^ m) then 1 else 0 := by
    intro m hm
    rw [hek m hm, hnode m hm, harr m]
  rw [heq]
  refine ⟨hall, ?_, by rw [hna, huses]⟩
  dsimp only
  rw [hall 31 (le_refl _), hna, hause, hc', ← hlen, arrayCount, arrayCount, List.take_length,
    List.take_of_length_le (by omega)]

theorem countP_inside_add_outside (node : List (Node V)) (n : Nat) :
    node.countP (·.val.isSome) = node.countP (Node.inside n) + node.countP (Node.outside n) := by
  rw [List.countP_eq_countP_filter_add _ _ (fun nd => nd.key.passes (Key.inArray n)), List.countP_filter,
    List.countP_filter]
  rfl

theorem inArray_zero (k : Key) : k.inArray 0 = false := by cases k <;> simp [Key.inArray]

theorem countP_inside_zero (node : List (Node V)) : node.countP (Node.inside 0) = 0 := by
  rw [List.countP_eq_zero]
  intro nd _
  have hpass : nd.key.passes (Key.inArray 0) = false := by
    cases nd.key with
    | live k => exact inArray_zero k
    | free | dead => rfl
  rw [Node.inside, hpass, Bool.and_false]
  exact Bool.false_ne_true

theorem arrayCount_le_length (array : List (Option V)) (n : Nat) : arrayCount array n ≤ arrayCount array array.length := by
  rcases Nat.le_total n array.length with h | h
  · exact arrayCount_le h
  · rw [arrayCount, arrayCount, List.take_length, List.take_of_length_le h]

/-- The sizes `rehash` asks for: an array part of at most `2 ^ 31` slots, and a hash part with room for the pairs that
do not fit into the array part, the new key included. -/
theorem rehashSizes_spec {t : Table V} (hlen : t.array.length = t.alimit) (hsize : t.alimit ≤ 2 ^ 31) (ek : Key) :
    (rehashSizes t ek).1 ≤ 2 ^ 31 ∧
      (rehashSizes t ek).2 = (arrayCount t.array t.alimit - arrayCount t.array (rehashSizes t ek).1) +
        t.hash.node.countP (Node.outside (rehashSizes t ek).1) + if ek.inArray (rehashSizes t ek).1 then 0 else 1 := by
  have hsizes := rehashSizes_eq t ek
  obtain ⟨hnums, -, htotal⟩ := rehashCounts_spec hlen hsize ek
  rcases hcounts : rehashCounts t ek with ⟨nums, pna, totaluse⟩
  rw [hcounts] at hsizes hnums htotal
  dsimp only at hsizes hnums htotal
  have hcounted : ∃ n ≤ 2 ^ 31, computesizes nums pna = (n, arrayCount t.array n +
      t.hash.node.countP (Node.inside n) + if ek.inArray n then 1 else 0) := by
    rcases computesizes_spec nums pna with h | ⟨m, hm, h⟩
    · refine ⟨0, Nat.zero_le _, ?_⟩
      rw [h, countP_inside_zero, inArray_zero]
      rfl
    · exact ⟨2 ^ m, Nat.pow_le_pow_right (by omega) hm, by rw [h, hnums m hm]⟩
  obtain ⟨n, hn, hcomp⟩ := hcounted
  rw [hsizes, hcomp]
  refine ⟨hn, ?_⟩
  have hsplit := countP_inside_add_outside t.hash.node n
  have hle := arrayCount_le_length t.array n
  rw [hlen] at hle
  dsimp only
  split <;> omega

end Tsuki.Table
