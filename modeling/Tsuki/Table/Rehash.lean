import Tsuki.Table.Run
import Mathlib.Algebra.Order.BigOperators.Group.Finset

/-!
# Rehash

The array part `rehash` asks for is the largest in which more than half of the slots are used, and the hash part has
room for all other pairs: the insertions `luaH_newkey` makes after it find a free node. The counts that `numusearray`
and `numusehash` make are the numbers of keys up to a power of two, and the loop of `computesizes` keeps the best
candidate so far. The insertion after it is compared with one that may not rehash: they agree, as the nodes that are
free are enough for the keys that are left.
-/

namespace Tsuki.Table

variable {V : Type} {hs : Hashes} {t : Table V} {ek : Key}

/-! ## Indices in use -/

open Classical in
/-- How many of the indices from 1 to `n` have a value, or are the extra key. -/
noncomputable def usedUpTo (t : Table V) (ek : Key) (n : Nat) : Nat :=
  ((Finset.range n).filter fun u => Filled t (u + 1) ∨ ek = .int (Int64.ofNat (u + 1))).card

/-- `n` is the largest power of two, up to `2 ^ 31`, with more than half of the indices in use, or 0. -/
structure Optimal (used : Nat → Nat) (n : Nat) : Prop where
  half : n = 0 ∨ (∃ m ≤ 31, n = 2 ^ m) ∧ n < 2 * used n
  largest : ∀ m ≤ 31, 2 ^ m < 2 * used (2 ^ m) → 2 ^ m ≤ n

theorem Optimal.le {used : Nat → Nat} {n : Nat} (h : Optimal used n) : n ≤ 2 ^ 31 := by
  rcases h.half with rfl | ⟨⟨m, hm, rfl⟩, -⟩
  · exact Nat.zero_le _
  · exact Nat.pow_le_pow_right (by omega) hm

open Classical in
theorem card_array (array : List (Option V)) (n : Nat) :
    ((Finset.range n).filter fun u => ∃ v, array[u]? = some (some v)).card = arrayCount array n := by
  induction n with
  | zero => rfl
  | succ n ih =>
    rw [Finset.range_add_one, Finset.filter_insert, arrayCount, List.take_add_one, List.countP_append, ← arrayCount]
    cases hget : array[n]? with
    | none =>
      rw [if_neg (by simp), ih]
      rfl
    | some x =>
      cases x with
      | none =>
        rw [if_neg (by simp), ih]
        rfl
      | some v =>
        rw [if_pos ⟨v, rfl⟩, Finset.card_insert_of_notMem (by simp), ih]
        rfl

theorem key_eq_of_pos {k : Key} {u : Nat} (hu : u < 2 ^ 63) (hpos : k.pos = some u) : k = .int (Int64.ofNat (u + 1)) :=
  pos_inj hpos (pos_ofNat hu)

open Classical in
theorem card_nodes (n : Nat) (hn : n ≤ 2 ^ 63) (l : List (Node V)) (hdiffer : KeysDiffer l) :
    ((Finset.range n).filter fun u => ∃ v, ListHolds l (.int (Int64.ofNat (u + 1))) v).card =
      l.countP (Node.inside n) := by
  induction l with
  | nil => simp [ListHolds]
  | cons nd l ih =>
    obtain ⟨hhead, hdiffer'⟩ := List.pairwise_cons.mp hdiffer
    have hcons : ∀ k v, ListHolds (nd :: l) k v ↔ (nd.key = .live k ∧ nd.val = some v) ∨ ListHolds l k v := by
      intro k v
      simp only [ListHolds, List.mem_cons, exists_eq_or_imp]
    rw [List.countP_cons, ← ih hdiffer']
    by_cases hin : Node.inside n nd = true
    · rw [if_pos hin]
      rw [Node.inside, Bool.and_eq_true] at hin
      obtain ⟨hval, hpass⟩ := hin
      obtain ⟨v, hv⟩ := Option.isSome_iff_exists.mp hval
      obtain ⟨k, hkey, hk⟩ : ∃ k, nd.key = .live k ∧ k.inArray n = true := by
        cases hkey : nd.key with
        | live k => exact ⟨k, rfl, by rw [hkey] at hpass; exact hpass⟩
        | free | dead => rw [hkey] at hpass; cases hpass
      obtain ⟨u, hpos, hu⟩ := inArray_iff.mp hk
      have hnot : u ∉ (Finset.range n).filter fun u => ∃ v, ListHolds l (.int (Int64.ofNat (u + 1))) v := by
        rw [Finset.mem_filter]
        rintro ⟨-, v', nd', hnd', hkey', -⟩
        rw [← key_eq_of_pos (by omega) hpos] at hkey'
        exact hhead nd' hnd' k hkey hkey'
      rw [← Finset.card_insert_of_notMem hnot]
      congr 1
      ext u'
      rw [Finset.mem_insert, Finset.mem_filter, Finset.mem_filter, Finset.mem_range]
      simp only [hcons, hkey, hv, NodeKey.live.injEq]
      constructor
      · rintro ⟨hu', v', ⟨heq, -⟩ | hl⟩
        · left
          rw [heq, pos_ofNat (by omega)] at hpos
          exact Option.some.inj hpos
        · exact .inr ⟨hu', v', hl⟩
      · rintro (rfl | ⟨hu', v', hl⟩)
        · exact ⟨hu, v, .inl ⟨key_eq_of_pos (by omega) hpos, rfl⟩⟩
        · exact ⟨hu', v', .inr hl⟩
    · rw [if_neg hin, Nat.add_zero]
      congr 1
      refine Finset.filter_congr fun u hu => exists_congr fun v => ?_
      rw [hcons]
      refine or_iff_right ?_
      rintro ⟨hkey, hval⟩
      refine hin ?_
      rw [Node.inside, hkey, hval]
      have hu' := Finset.mem_range.mp hu
      exact inArray_iff.mpr ⟨u, pos_ofNat (by omega), hu'⟩

open Classical in
theorem card_extra (n : Nat) (hn : n ≤ 2 ^ 63) (ek : Key) :
    ((Finset.range n).filter fun u => ek = .int (Int64.ofNat (u + 1))).card = if ek.inArray n then 1 else 0 := by
  by_cases hin : ek.inArray n = true
  · obtain ⟨u, hpos, hu⟩ := inArray_iff.mp hin
    rw [if_pos hin, Finset.card_eq_one]
    refine ⟨u, Finset.ext fun u' => ?_⟩
    rw [Finset.mem_filter, Finset.mem_range, Finset.mem_singleton]
    constructor
    · rintro ⟨hu', heq⟩
      rw [heq, pos_ofNat (by omega)] at hpos
      exact Option.some.inj hpos
    · rintro rfl
      exact ⟨hu, key_eq_of_pos (by omega) hpos⟩
  · rw [if_neg hin, Finset.card_eq_zero, Finset.filter_eq_empty_iff]
    intro u hu heq
    have hu' := Finset.mem_range.mp hu
    exact hin (inArray_iff.mpr ⟨u, by rw [heq, pos_ofNat (by omega)], hu'⟩)

/-- The counts of `rehash` are the indices in use. -/
theorem usedUpTo_eq (h : Inv hs t) (hnew : ∀ v, ¬Holds t ek v) {n : Nat} (hn : n ≤ 2 ^ 63) :
    usedUpTo t ek n = arrayCount t.array n + t.hash.node.countP (Node.inside n) + if ek.inArray n then 1 else 0 := by
  classical
  rw [← card_array, ← card_nodes n hn t.hash.node h.hash.content.keysDiffer, ← card_extra n hn ek, ← Finset.card_union_of_disjoint,
    ← Finset.card_union_of_disjoint, ← Finset.filter_or, ← Finset.filter_or, usedUpTo]
  · congr 1
    refine Finset.filter_congr fun u hu => or_congr_left ?_
    have hu' := Finset.mem_range.mp hu
    rw [← exists_or]
    refine exists_congr fun v => ?_
    rw [listHolds_iff, Holds, pos_ofNat (by omega)]
    simp
  · rw [← Finset.filter_or]
    refine Finset.disjoint_filter.mpr fun u hu hleft heq => ?_
    have hu' := Finset.mem_range.mp hu
    rcases hleft with ⟨v, hget⟩ | ⟨v, hl⟩
    · exact hnew v (.inl ⟨u, by rw [heq, pos_ofNat (by omega)], hget⟩)
    · exact hnew v (.inr (heq ▸ listHolds_iff.mp hl))
  · refine Finset.disjoint_filter.mpr fun u hu hget hl => ?_
    have hu' := Finset.mem_range.mp hu
    obtain ⟨v, hget⟩ := hget
    obtain ⟨v', hl⟩ := hl
    have hout := inArray_false_iff.mp (h.apart (listHolds_iff.mp hl).hasKey) u (pos_ofNat (by omega))
    rw [List.getElem?_eq_none hout] at hget
    cases hget

/-! ## How many pairs there are -/

/-- A table has no fewer keys than pairs in its parts. -/
theorem Represents.count_le {m : Map V} (h : Represents hs t m) :
    ∃ s : Finset Key, t.array.countP (·.isSome) + t.hash.node.countP (·.val.isSome) ≤ s.card ∧
      ∀ k ∈ s, (m k).isSome = true := by
  classical
  have harray := card_array t.array t.array.length
  have hnodes := card_array (t.hash.node.map Node.val) t.hash.node.length
  rw [arrayCount, List.take_length] at harray
  rw [arrayCount, ← List.length_map (f := Node.val), List.take_length, List.countP_map, List.length_map] at hnodes
  have hlive {i : Nat} {v : V} (hv : (t.hash.node.map Node.val)[i]? = some (some v)) :
      ∃ k, cell t.hash.node i = (.live k, some v) := by
    rw [List.getElem?_map, Option.map_eq_some_iff] at hv
    obtain ⟨nd, hnd, hval⟩ := hv
    have hcell := cell_of_get hnd
    by_contra hdead
    have hnone := h.inv.hash.content.empty (i := i) fun k hk => hdead ⟨k, Prod.ext hk (by rw [hcell, hval])⟩
    rw [hcell, hval] at hnone
    cases hnone
  let key (i : Nat) : Key := ((cell t.hash.node i).1.key?).getD .nil
  have hkey {i : Nat} {k : Key} {v : V} (hc : cell t.hash.node i = (.live k, some v)) : key i = k := by
    simp only [key, hc, NodeKey.key?, Option.getD_some]
  have hsize := h.inv.size
  refine ⟨(((Finset.range t.array.length).filter fun u => ∃ v, t.array[u]? = some (some v)).image fun u =>
    .int (Int64.ofNat (u + 1))) ∪ (((Finset.range t.hash.node.length).filter fun i =>
    ∃ v, (t.hash.node.map Node.val)[i]? = some (some v)).image key), ?_, fun k hk => ?_⟩
  · rw [Finset.card_union_of_disjoint, Finset.card_image_of_injOn, Finset.card_image_of_injOn, harray, hnodes]
    · exact Nat.le_refl _
    · intro i hi j hj heq
      obtain ⟨-, v, hv⟩ := Finset.mem_filter.mp hi
      obtain ⟨-, w, hw⟩ := Finset.mem_filter.mp hj
      obtain ⟨k, hk⟩ := hlive hv
      obtain ⟨k', hk'⟩ := hlive hw
      have heq : key i = key j := heq
      rw [hkey hk, hkey hk'] at heq
      exact h.inv.hash.content.inj (congrArg Prod.fst hk) (heq ▸ congrArg Prod.fst hk')
    · intro u hu u' hu' heq
      have hlt := Finset.mem_range.mp (Finset.mem_filter.mp hu).1
      have hlt' := Finset.mem_range.mp (Finset.mem_filter.mp hu').1
      have hpos := pos_ofNat (show u < 2 ^ 63 by omega)
      have heq : Key.int (Int64.ofNat (u + 1)) = .int (Int64.ofNat (u' + 1)) := heq
      rw [heq, pos_ofNat (show u' < 2 ^ 63 by omega)] at hpos
      exact (Option.some.inj hpos).symm
    · refine Finset.disjoint_left.mpr fun k hk hk' => ?_
      obtain ⟨u, hu, rfl⟩ := Finset.mem_image.mp hk
      obtain ⟨i, hi, heq⟩ := Finset.mem_image.mp hk'
      have hlt := Finset.mem_range.mp (Finset.mem_filter.mp hu).1
      obtain ⟨-, v, hv⟩ := Finset.mem_filter.mp hi
      obtain ⟨k, hk⟩ := hlive hv
      have hkk : k = .int (Int64.ofNat (u + 1)) := (hkey hk).symm.trans heq
      have hout := inArray_false_iff.mp (h.inv.apart ⟨i, congrArg Prod.fst hk⟩) u (by
        rw [hkk]
        exact pos_ofNat (by omega))
      omega
  · rcases Finset.mem_union.mp hk with hk | hk
    · obtain ⟨u, hu, rfl⟩ := Finset.mem_image.mp hk
      obtain ⟨hlt, v, hv⟩ := Finset.mem_filter.mp hu
      have hlt := Finset.mem_range.mp hlt
      rw [(h.holds _ v).mp (.inl ⟨u, pos_ofNat (by omega), hv⟩)]
      rfl
    · obtain ⟨i, hi, rfl⟩ := Finset.mem_image.mp hk
      obtain ⟨-, v, hv⟩ := Finset.mem_filter.mp hi
      obtain ⟨k, hk⟩ := hlive hv
      rw [hkey hk, (h.holds _ v).mp (.inr ⟨i, hk⟩)]
      rfl

/-- A table that overflows has as many pairs as the largest hash part has nodes. -/
theorem Represents.crowded {m : Map V} (h : Represents hs t m) {c : Key} {x : Option V} (hover : Overflows t c x) :
    ∃ s : Finset Key, 2 ^ 30 ≤ s.card ∧ ∀ k ∈ s, (m k).isSome = true := by
  obtain ⟨s, hs, hall⟩ := h.count_le
  refine ⟨s, ?_, hall⟩
  have hbig := hover.size
  obtain ⟨-, hsize⟩ := rehashSizes_spec (t := { t with alimit := t.array.length, hint := false }) rfl h.inv.size c
  generalize rehashSizes { t with alimit := t.array.length, hint := false } c = sizes at hbig hsize
  have harray : arrayCount t.array t.array.length = t.array.countP (·.isSome) := by rw [arrayCount, List.take_length]
  have hnodes : t.hash.node.countP (Node.outside sizes.1) ≤ t.hash.node.countP (·.val.isSome) := by
    refine List.countP_mono_left fun nd _ hnd => ?_
    exact (Bool.and_eq_true _ _ ▸ hnd).1
  dsimp only at hsize
  have hone : (if c.inArray sizes.1 then 0 else 1) ≤ 1 := by split_ifs <;> omega
  omega

/-! ## The array part -/

theorem upTo_mono {nums : Nums} {m m' : Nat} (h : m ≤ m') : upTo nums m ≤ upTo nums m' :=
  Finset.sum_le_sum_of_subset (Finset.range_mono (Nat.add_le_add_right h 1))

/-- Up to the round `i` the size is the largest with more than half of the keys. -/
theorem computesizesLoop_optimal (nums : Nums) : ∀ (n i a na optimal : Nat), n + i = 32 →
    a = ∑ j ∈ Finset.range i, nums j →
    ((optimal, na) = (0, 0) ∨ ∃ m < i, (optimal, na) = (2 ^ m, upTo nums m) ∧ 2 ^ m < 2 * upTo nums m) →
    (∀ m < i, 2 ^ m < 2 * upTo nums m → 2 ^ m ≤ optimal) →
    let r := computesizesLoop nums (upTo nums 31) n i a na optimal
    (r = (0, 0) ∨ ∃ m ≤ 31, r = (2 ^ m, upTo nums m) ∧ 2 ^ m < 2 * upTo nums m) ∧
      ∀ m ≤ 31, 2 ^ m < 2 * upTo nums m → 2 ^ m ≤ r.1 := by
  intro n
  induction n with
  | zero =>
    intro i a na optimal hi _ hsize hlargest
    exact ⟨hsize.imp_right fun ⟨m, hm, h⟩ => ⟨m, by omega, h⟩, fun m hm => hlargest m (by omega)⟩
  | succ n ih =>
    intro i a na optimal hi ha hsize hlargest
    have hsum : a + nums i = ∑ j ∈ Finset.range (i + 1), nums j := by rw [ha, Finset.sum_range_succ]
    have hupTo : a + nums i = upTo nums i := hsum
    have hhalf : upTo nums i > 2 ^ i / 2 ↔ 2 ^ i < 2 * upTo nums i := by
      rcases Nat.eq_zero_or_pos i with rfl | hpos
      · rw [Nat.pow_zero]
        omega
      · obtain ⟨j, rfl⟩ := Nat.exists_eq_succ_of_ne_zero (Nat.ne_of_gt hpos)
        rw [Nat.pow_succ]
        omega
    unfold computesizesLoop
    dsimp only
    by_cases hmore : upTo nums 31 > 2 ^ i / 2
    · rw [if_pos hmore, hupTo]
      by_cases hbig : upTo nums i > 2 ^ i / 2
      · rw [if_pos hbig]
        refine ih _ _ _ _ (by omega) (hupTo ▸ hsum) (.inr ⟨i, by omega, rfl, hhalf.mp hbig⟩) fun m hm _ => ?_
        exact Nat.pow_le_pow_right (by omega) (by omega)
      · rw [if_neg hbig]
        refine ih _ _ _ _ (by omega) (hupTo ▸ hsum) (hsize.imp_right fun ⟨m, hm, h⟩ => ⟨m, by omega, h⟩) fun m hm hlt => ?_
        rcases Nat.lt_succ_iff_lt_or_eq.mp hm with hlt' | rfl
        · exact hlargest m hlt' hlt
        · exact absurd (hhalf.mpr hlt) hbig
    · rw [if_neg hmore]
      refine ⟨hsize.imp_right fun ⟨m, hm, h⟩ => ⟨m, by omega, h⟩, fun m hm hlt => ?_⟩
      refine hlargest m ?_ hlt
      -- all keys together are no more than half of the round's size
      by_contra hge
      have hpow := Nat.pow_le_pow_right (n := 2) (by omega) (Nat.le_of_not_lt hge)
      have hle := @upTo_mono nums _ _ hm
      have hone : 0 < upTo nums m := Nat.pos_of_ne_zero (by rintro heq; rw [heq] at hlt; omega)
      omega

theorem computesizes_optimal (nums : Nums) :
    (computesizes nums (upTo nums 31) = (0, 0) ∨
      ∃ m ≤ 31, computesizes nums (upTo nums 31) = (2 ^ m, upTo nums m) ∧ 2 ^ m < 2 * upTo nums m) ∧
      ∀ m ≤ 31, 2 ^ m < 2 * upTo nums m → 2 ^ m ≤ (computesizes nums (upTo nums 31)).1 :=
  computesizesLoop_optimal nums 32 0 0 0 0 rfl rfl (.inl rfl) fun _ hm => absurd hm (Nat.not_lt_zero _)

/-- The array part is optimal, and the keys that go to it are the indices in use. -/
theorem rehash_computesizes (h : Inv hs t) (hfull : t.alimit = t.array.length) (hnew : ∀ v, ¬Holds t ek v) :
    ∃ n, Optimal (usedUpTo t ek) n ∧
      computesizes (rehashCounts t ek).1 (rehashCounts t ek).2.1 = (n, usedUpTo t ek n) := by
  obtain ⟨hcounts, hna, -⟩ := rehashCounts_spec hfull.symm (hfull ▸ h.size) ek
  have hused : ∀ m ≤ 31, upTo (rehashCounts t ek).1 m = usedUpTo t ek (2 ^ m) := by
    intro m hm
    have hpow := Nat.pow_le_pow_right (n := 2) (by omega) hm
    rw [hcounts m hm, usedUpTo_eq h hnew (by omega)]
  rw [hna]
  obtain ⟨hsize, hlargest⟩ := computesizes_optimal (rehashCounts t ek).1
  rcases hsize with hzero | ⟨m, hm, heq, hlt⟩
  · refine ⟨0, ⟨.inl rfl, fun m hm hlt => ?_⟩, hzero⟩
    have hle := hlargest m hm (hused m hm ▸ hlt)
    rwa [hzero] at hle
  · rw [hused m hm] at heq hlt
    refine ⟨2 ^ m, ⟨.inr ⟨⟨m, hm, rfl⟩, hlt⟩, fun m' hm' hlt' => ?_⟩, heq⟩
    have hle := hlargest m' hm' (hused m' hm' ▸ hlt')
    rwa [heq] at hle

/-! ## Depth -/

/-- `r'` is the result `r`, unless that is a panic. -/
def Agrees {α : Type} (r r' : Rust α) : Prop := r ≠ .error .panic → r' = r

theorem Agrees.refl {α : Type} (r : Rust α) : Agrees r r := fun _ => rfl

theorem Agrees.bind {α β : Type} {r r' : Rust α} {f f' : α → Rust β} (hr : Agrees r r')
    (hf : ∀ a, Agrees (f a) (f' a)) : Agrees (r >>= f) (r' >>= f') := by
  intro h
  cases r with
  | error e =>
    rw [hr fun heq => h (by rw [heq]; rfl)]
    rfl
  | ok a =>
    rw [hr fun heq => nomatch heq]
    exact hf a h

section

variable {ins ins' : Newkey V} (hins : ∀ t k v, Agrees (ins t k v) (ins' t k v))
include hins

theorem set_agrees (t : Table V) (k : Key) (v : Option V) : Agrees (set hs ins t k v) (set hs ins' t k v) := by
  refine .bind (.refl _) fun ⟨t', s⟩ => ?_
  cases s with
  | absent => exact hins t' k v
  | array | node => exact .refl _

theorem setint_agrees (t : Table V) (k : Int64) (v : Option V) : Agrees (setint ins t k v) (setint ins' t k v) := by
  refine .bind (.refl _) fun ⟨t', s⟩ => ?_
  cases s with
  | absent => exact .bind (hins t' (.int k) v) fun _ => .refl _
  | array | node => exact .refl _

theorem vanishLoop_agrees : ∀ (n i : Nat) (t : Table V), Agrees (vanishLoop ins n i t) (vanishLoop ins' n i t) := by
  intro n
  induction n with
  | zero => exact fun i t => .refl _
  | succ n ih =>
    intro i t
    refine .bind (.refl _) fun x => ?_
    cases x with
    | none => exact ih (i + 1) t
    | some v => exact .bind (setint_agrees hins t _ _) fun t' => ih (i + 1) t'

theorem reinsert_agrees : ∀ (l : List (Node V)) (t : Table V), Agrees (reinsert hs ins l t) (reinsert hs ins' l t) := by
  intro l
  induction l with
  | nil => exact fun t => .refl _
  | cons nd l ih =>
    intro t
    rw [reinsert, reinsert]
    split_ifs
    · cases nd.key with
      | live k => exact .bind (set_agrees hins t k nd.val) fun r => .bind (.refl _) fun t' => ih t'
      | free | dead => exact .refl _
    · exact ih t

theorem resize_agrees (t : Table V) (newasize nhsize : Nat) :
    Agrees (resize hs ins t newasize nhsize) (resize hs ins' t newasize nhsize) := by
  refine .bind (.refl _) fun new => .bind ?_ fun ⟨t', new'⟩ => reinsert_agrees hins _ _
  rw [shrink, shrink]
  split_ifs
  · exact .bind (vanishLoop_agrees hins _ _ _) fun t' => .refl _
  · exact .refl _

theorem newkeyWith_agrees (t : Table V) (k : Key) (v : Option V) :
    Agrees (newkeyWith hs ins t k v) (newkeyWith hs ins' t k v) := by
  rw [newkeyWith, newkeyWith]
  cases normalizeKey k with
  | error e => exact .refl _
  | ok c =>
    cases v with
    | none => exact .refl _
    | some v =>
      refine .bind (.refl _) fun ⟨h', placed⟩ => ?_
      cases placed with
      | true => exact .refl _
      | false => exact .bind (resize_agrees hins _ _ _) fun t' => set_agrees hins t' c (some v)

end

/-- `luaH_newkey` where it panics instead of a call of `rehash`. -/
def newkeyFree (hs : Hashes) : Newkey V := fun t key v =>
  match normalizeKey key with
  | .error e => .ok (t, .error e)
  | .ok key =>
    match v with
    | none => .ok (t, .ok ())
    | some v => do
      let (h, placed) ← insertNode hs t.hash key v
      if placed then .ok ({ t with hash := h }, .ok ()) else .error .panic

theorem newkeyFree_room : RoomIns (V := V) hs (newkeyFree hs) := by
  intro t k v hk hinv habs hroom
  unfold newkeyFree
  rw [show normalizeKey k = .ok k from hk]
  dsimp only
  rcases insertNode_spec hinv hk habs v with ⟨lf, -, -, hfull⟩ | ⟨h', heq, hplaced⟩
  · omega
  · rw [heq, Rust.ok_bind]
    exact ⟨h', rfl, hplaced⟩

theorem newkeyFree_agrees (d : Nat) (t : Table V) (k : Key) (v : Option V) :
    Agrees (newkeyFree hs t k v) (newkey hs (d + 1) t k v) := by
  rw [newkey_succ, newkeyFree, newkeyWith]
  cases normalizeKey k with
  | error e => exact .refl _
  | ok c =>
    cases v with
    | none => exact .refl _
    | some v =>
      refine .bind (.refl _) fun ⟨h', placed⟩ => ?_
      cases placed with
      | true => exact .refl _
      | false => exact fun hpanic => absurd rfl hpanic

theorem newkey_eq_once (h : Inv hs t) {k c : Key} (hc : canon k = some c) (habs : ¬HasKey (cell t.hash.node) c)
    (hout : c.inArray t.array.length = false) (v : Option V) (d : Nat) :
    newkey hs (d + 2) t k v = newkeyWith hs (newkeyFree hs) t k v := by
  refine newkeyWith_agrees (newkeyFree_agrees d) t k v ?_
  rcases newkeyWith_spec newkeyFree_room t k c v h hc habs hout with ⟨-, herr⟩ | ⟨t', heq, -⟩
  · rw [herr]
    simp
  · rw [heq]
    simp

/-! ## A full array part -/

/-- A table whose array part of `n` slots is full up to `k`. -/
def filled (n k : Nat) : Table Unit :=
  ⟨false, n, List.replicate k (some ()) ++ List.replicate (n - k) none, dummyNode Unit⟩

theorem resize_filled (ins : Newkey Unit) (n : Nat) : resize hs ins (new Unit) n 0 = .ok (filled n 0) := by
  rw [resize, show setlimittosize (new Unit) = new Unit from rfl]
  dsimp only
  rw [show setnodevector Unit 0 = .ok (dummyNode Unit) from rfl, Rust.ok_bind, shrink,
    if_neg (show ¬n < (new Unit).alimit from Nat.not_lt_zero n), Rust.ok_bind]
  dsimp only
  rw [show (new Unit).array = [] from rfl, List.take_nil, show (new Unit).alimit = 0 from rfl, filled]
  rfl

theorem setint_filled (ins : Newkey Unit) {n k : Nat} (hk : k < n) (hn : n ≤ 2 ^ 31) :
    setint ins (filled n k) (Int64.ofNat (k + 1)) (some ()) = .ok (filled n (k + 1)) := by
  have hu : (Int64.ofNat (k + 1) - 1).toUInt64.toNat = k :=
    Option.some.inj (pos_ofNat (show k < 2 ^ 63 by omega))
  have hget : getint (filled n k) (Int64.ofNat (k + 1)) = .ok (filled n k, .array k) := by
    rw [getint, hu]
    exact if_pos hk
  have hlen : k < (filled n k).array.length := by
    simp only [filled, List.length_append, List.length_replicate]
    omega
  rw [setint, hget, Rust.ok_bind]
  dsimp only
  rw [store, idx_of_lt hlen, Rust.ok_bind]
  simp only [filled]
  obtain ⟨j, hj⟩ : ∃ j, n - k = j + 1 := ⟨n - k - 1, by omega⟩
  rw [List.set_append_right _ _ (by simp), List.length_replicate, Nat.sub_self, hj, List.replicate_succ,
    List.set_cons_zero, List.replicate_succ', List.append_assoc, show n - (k + 1) = j by omega]
  rfl

theorem run_filled (hs : Hashes) (d : Nat) {n : Nat} (hn : n ≤ 2 ^ 31) : ∀ j k, k + j = n →
    (∃ rs, run hs d (filled n k) ((List.range' (k + 1) j).map fun i => .setint (Int64.ofNat i) (some ())) =
      .ok (filled n n, rs)) ∧
    AllFit hs d (filled n k) ((List.range' (k + 1) j).map fun i => .setint (Int64.ofNat i) (some ())) := by
  intro j
  induction j with
  | zero =>
    rintro k rfl
    exact ⟨⟨[], rfl⟩, trivial⟩
  | succ j ih =>
    intro k hk
    obtain ⟨⟨rs, hrun⟩, hfit⟩ := ih (k + 1) (by omega)
    have hexec : Op.exec hs d (filled n k) (.setint (Int64.ofNat (k + 1)) (some ())) = .ok (filled n (k + 1), .ok none) := by
      rw [Op.exec, setint_filled _ (by omega) hn]
      rfl
    rw [List.range'_succ, List.map_cons]
    refine ⟨⟨.ok none :: rs, ?_⟩, trivial, fun t' r heq => ?_⟩
    · rw [run, hexec, Rust.ok_bind]
      dsimp only
      rw [hrun, Rust.ok_bind]
    · rw [hexec, Except.ok.injEq, Prod.mk.injEq] at heq
      rw [← heq.1]
      exact hfit

theorem filled_reachable (hs : Hashes) (d : Nat) {n : Nat} (hn : n ≤ 2 ^ 31) : Reachable hs d (filled n n) := by
  obtain ⟨⟨rs, hrun⟩, hfit⟩ := run_filled hs d hn n 0 (Nat.zero_add n)
  have hexec : Op.exec hs d (new Unit) (.resize n 0) = .ok (filled n 0, .ok none) := by
    rw [Op.exec, resize_filled]
    rfl
  refine ⟨.resize n 0 :: (List.range' (0 + 1) n).map fun i => .setint (Int64.ofNat i) (some ()), .ok none :: rs,
    ⟨⟨hn, ?_⟩, fun t' r heq => ?_⟩, ?_⟩
  · rw [show (new Unit).array = [] from rfl, List.drop_nil]
    exact Nat.zero_le _
  · rw [hexec, Except.ok.injEq, Prod.mk.injEq] at heq
    rw [← heq.1]
    exact hfit
  · rw [run, hexec, Rust.ok_bind]
    dsimp only
    rw [hrun, Rust.ok_bind]

/-! ## Rehash -/

/-- On every table, and for every key a lookup does not find: `rehash` chooses the largest power of two, up to
`2 ^ 31`, with more than half of the indices in use; the keys it counts for the array part are these indices; and in the
hash part all other pairs and the new one find a free node, so that `luaH_newkey` is called with a full node vector, and
calls `rehash`, only once. -/
theorem rehash_optimal {d : Nat} (h : Reachable hs d t) {k c : Key} (hk : normalizeKey k = .ok c) {t₁ : Table V}
    (hget : get hs t k = .ok (t₁, .absent)) (v : V) :
    (∀ lf, ∃ n total, Optimal (usedUpTo t c) n ∧
      rehashCounts (setlimittosize { t with hash := { t.hash with lastfree := lf } }) c = total ∧
      computesizes total.1 total.2.1 = (n, usedUpTo t c n) ∧
      rehashSizes (setlimittosize { t with hash := { t.hash with lastfree := lf } }) c =
        (n, total.2.2 - usedUpTo t c n)) ∧
      (∀ d, newkey hs (d + 2) t k (some v) = newkeyWith hs (newkeyFree hs) t k (some v)) ∧
      (Overflows t c (some v) ∧ newkeyWith hs (newkeyFree hs) t k (some v) = .error (.msg "table overflow") ∨
        ∃ t', newkeyWith hs (newkeyFree hs) t k (some v) = .ok (t', .ok ()) ∧
          lookup hs t' k = .ok (some v) ∧ ∀ k', canon k' ≠ some c → lookup hs t' k' = lookup hs t k') := by
  obtain ⟨m, hm⟩ := h.represents
  have hc : canon k = some c := canon_eq_some.mpr hk
  obtain ⟨a, s, heq, -, hslot⟩ := get_spec hm.inv k
  rw [hget, Except.ok.injEq, Prod.mk.injEq] at heq
  obtain ⟨-, rfl⟩ := heq
  obtain ⟨habs, hout⟩ := hslot c hc
  refine ⟨fun lf => ?_, fun d => newkey_eq_once hm.inv hc habs hout (some v) d, ?_⟩
  · have hnew : ∀ v, ¬Holds (setlimittosize t) c v := by
      rintro v (⟨u, hu, hget'⟩ | hcell)
      · have hlt := inArray_false_iff.mp hout u hu
        rw [show (setlimittosize t).array = t.array from rfl, List.getElem?_eq_none hlt] at hget'
        cases hget'
      · exact habs hcell.hasKey
    obtain ⟨hsize, hinv⟩ := hm.inv.setlimittosize
    obtain ⟨n, hn, hcomp⟩ := rehash_computesizes hinv (by rw [hsize]) hnew
    refine ⟨n, rehashCounts (setlimittosize t) c, hn, rfl, hcomp, ?_⟩
    rw [show rehashSizes (setlimittosize { t with hash := { t.hash with lastfree := lf } }) c =
      rehashSizes (setlimittosize t) c from rfl, rehashSizes_eq, hcomp]
    rfl
  · rcases newkeyWith_spec newkeyFree_room t k c (some v) hm.inv hc habs hout with hover | ⟨t', heq, hinv, hupd⟩
    · exact .inl hover
    · have ht' := hm.update hinv hupd
      refine .inr ⟨t', heq, ?_, fun k' hk' => ?_⟩
      · rw [ht'.lookup_eq, hc, Option.bind_some, Function.update_self]
      · rw [ht'.lookup_eq, hm.lookup_eq]
        cases hk'' : canon k' with
        | none => rfl
        | some c' =>
          rw [Option.bind_some, Option.bind_some, Function.update_of_ne]
          rintro rfl
          exact hk' hk''

/-- The third key of an array part of two slots. -/
theorem rehash_optimal_third : ∃ n total, Optimal (usedUpTo (filled 2 2) (.int 3)) n ∧
    rehashSizes (setlimittosize (filled 2 2)) (.int 3) = (n, total - usedUpTo (filled 2 2) (.int 3) n) := by
  obtain ⟨n, total, hn, -, -, heq⟩ := (rehash_optimal (filled_reachable sameHash 0 (n := 2) (by decide)) (k := .int 3)
    rfl rfl ()).1 none
  exact ⟨n, total.2.2, hn, heq⟩

/-- With the array part full at its largest size, one more integer key would half fill the next power of two: `rehash`
stays at `2 ^ 31`. -/
theorem rehash_bounded : ∃ t : Table Unit, Reachable sameHash 0 t ∧
    get sameHash t (.int (Int64.ofNat (2 ^ 31 + 1))) = .ok (t, .absent) ∧
    (rehashSizes (setlimittosize t) (.int (Int64.ofNat (2 ^ 31 + 1)))).1 = 2 ^ 31 ∧
    2 ^ 32 < 2 * usedUpTo t (.int (Int64.ofNat (2 ^ 31 + 1))) (2 ^ 32) := by
  have hreach := filled_reachable sameHash 0 (n := 2 ^ 31) (le_refl _)
  obtain ⟨m, hm⟩ := hreach.represents
  have hpos : (Key.int (Int64.ofNat (2 ^ 31 + 1))).pos = some (2 ^ 31) := pos_ofNat (by omega)
  have hlen : (filled (2 ^ 31) (2 ^ 31)).array.length = 2 ^ 31 := by
    rw [← hm.inv.realasize_eq]
    rfl
  have hnew : ∀ v, ¬Holds (filled (2 ^ 31) (2 ^ 31)) (.int (Int64.ofNat (2 ^ 31 + 1))) v := by
    rintro v (⟨u, hu, hget⟩ | ⟨i, hi⟩)
    · rw [hpos] at hu
      rw [← Option.some.inj hu, List.getElem?_eq_none (Nat.le_of_eq hlen)] at hget
      cases hget
    · rw [show (filled (2 ^ 31) (2 ^ 31)).hash = dummyNode Unit from rfl, cell_of_fresh dummyNode_fresh] at hi
      cases hi
  have hcount : ∀ n, 2 ^ 31 ≤ n → arrayCount (filled (2 ^ 31) (2 ^ 31)).array n = 2 ^ 31 := by
    intro n hn
    rw [arrayCount, List.take_of_length_le (by omega), filled]
    dsimp only
    rw [Nat.sub_self, List.replicate_zero, List.append_nil, List.countP_replicate]
    rfl
  refine ⟨_, hreach, ?_, ?_, ?_⟩
  · have hu : (Int64.ofNat (2 ^ 31 + 1) - 1).toUInt64.toNat = 2 ^ 31 := Option.some.inj hpos
    rw [get_int, getint, hu]
    rfl
  · obtain ⟨hsize, hinv⟩ := hm.inv.setlimittosize
    obtain ⟨n, hn, hcomp⟩ := rehash_computesizes hinv (by rw [hsize]) hnew
    rw [rehashSizes_eq, hcomp]
    refine Nat.le_antisymm hn.le (hn.largest 31 (le_refl _) ?_)
    rw [usedUpTo_eq hinv hnew (by omega)]
    have heq := hcount (2 ^ 31) (le_refl _)
    rw [show (setlimittosize (filled (2 ^ 31) (2 ^ 31))).array = (filled (2 ^ 31) (2 ^ 31)).array from rfl, heq]
    omega
  · rw [usedUpTo_eq hm.inv hnew (by omega), hcount (2 ^ 32) (by omega),
      if_pos (inArray_iff.mpr ⟨2 ^ 31, hpos, by omega⟩)]
    omega

end Tsuki.Table
