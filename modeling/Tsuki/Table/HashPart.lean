import Tsuki.Table.Sizes

/-!
# The hash part

What the nodes of a hash part keep to, whatever is inserted: `HashPart.Inv`. Under it a search finds the node of a
key or that there is none, and `insertNode` adds one pair to those the part holds, unless no node is free.
-/

namespace Tsuki.Table

open Lib.Chains

variable {V : Type} (hs : Hashes)

/-! ## The invariant -/

/-- The links stay within the nodes. -/
def IsRanged (node : List (Node V)) : Prop :=
  ∀ (i : Nat) nd, node[i]? = some nd → nd.next ≠ 0 → 0 ≤ (i : Int) + nd.next ∧ i + nd.next < node.length

/-- A key that is alive comes before the nodes where it died. -/
def IsFirst (c : Nat → Cell V) (l : Nat → Option Nat) : Prop :=
  ∀ {i j k}, (c j).1 = .live k → (c i).1 = .dead k → Reach l j i

structure HashPart.Inv (h : HashPart V) : Prop where
  length_eq : h.node.length = 2 ^ h.lsizenode
  ranged : IsRanged h.node
  scatter : IsScatter (mainpositionTV hs h.lsizenode) (keyAt (cell h.node)) (succ h.node)
  content : IsContent (cell h.node)
  dummy : h.lastfree = none → h = dummyNode V
  taken : ∀ {lf}, h.lastfree = some lf → lf ≤ h.node.length ∧
    ∀ {i}, lf ≤ i → i < h.node.length → (cell h.node i).1 ≠ .free
  first : IsFirst (cell h.node) (succ h.node)
  small : h.lsizenode ≤ 30

/-- How many nodes are not free. -/
def used (c : Nat → Cell V) (n : Nat) : Nat := ((Finset.range n).filter fun i => (c i).1 ≠ .free).card

/-- How many nodes can be filled: none in the dummy part. -/
def HashPart.capacity (h : HashPart V) : Nat := if h.lastfree.isSome then h.node.length else 0

theorem used_le_succ {c c' : Nat → Cell V} {n j : Nat} (h : ∀ i, i ≠ j → (c' i).1 ≠ .free → (c i).1 ≠ .free) :
    used c' n ≤ used c n + 1 := by
  have hsub : ((Finset.range n).filter fun i => (c' i).1 ≠ .free) ⊆
      insert j ((Finset.range n).filter fun i => (c i).1 ≠ .free) := by
    intro i hi
    rw [Finset.mem_filter] at hi
    by_cases hij : i = j
    · exact Finset.mem_insert.mpr (.inl hij)
    · exact Finset.mem_insert_of_mem (Finset.mem_filter.mpr ⟨hi.1, h i hij hi.2⟩)
  exact (Finset.card_le_card hsub).trans (Finset.card_insert_le _ _)

theorem used_eq_of_full {c : Nat → Cell V} {n : Nat} (h : ∀ i, i < n → (c i).1 ≠ .free) : used c n = n := by
  rw [used, Finset.filter_true_of_mem (fun i hi => h i (Finset.mem_range.mp hi)), Finset.card_range]

/-! ## Fresh parts -/

section

variable {node : List (Node V)} (h : ∀ nd ∈ node, nd = ⟨.free, none, 0⟩)
include h

theorem cell_of_fresh (i : Nat) : cell node i = (.free, none) := by
  by_cases hi : i < node.length
  · rw [cell_of_get (List.getElem?_eq_getElem hi), h _ (List.getElem_mem hi)]
  · exact cell_of_le (by omega)

theorem succ_of_fresh (i : Nat) : succ node i = none := by
  by_cases hi : i < node.length
  · rw [succ_of_get (List.getElem?_eq_getElem hi), h _ (List.getElem_mem hi)]
    rfl
  · rw [succ, List.getElem?_eq_none (by omega)]

theorem isRanged_of_fresh : IsRanged node := by
  intro i nd hi hne
  exact absurd (congrArg Node.next (h nd (List.mem_of_getElem? hi))) hne

theorem isContent_of_fresh : IsContent (cell node) where
  empty := by
    intro i _
    rw [cell_of_fresh h]
  normal := by
    intro i k hi
    rw [cell_of_fresh h] at hi
    cases hi
  inj := by
    intro i j k hi _
    rw [cell_of_fresh h] at hi
    cases hi

theorem isFirst_of_fresh (l : Nat → Option Nat) : IsFirst (cell node) l := by
  intro i j k hj _
  rw [cell_of_fresh h] at hj
  cases hj

theorem isScatter_of_fresh (home : Key → Nat) : IsScatter home (keyAt (cell node)) (succ node) := by
  have hkey : ∀ i, keyAt (cell node) i = none := by
    intro i
    rw [keyAt_eq_none, cell_of_fresh h]
  have hsucc := succ_of_fresh h
  refine ⟨⟨?_, ⟨fun _ => 0, ?_⟩⟩, fun {i} _ => ⟨hsucc i, ?_⟩, ?_, ?_⟩
  · intro x y z hx _
    rw [hsucc] at hx
    cases hx
  · intro x y hx
    rw [hsucc] at hx
    cases hx
  · intro x hx
    rw [hsucc] at hx
    cases hx
  · intro i k hi
    rw [hkey] at hi
    cases hi
  · intro i k hi
    rw [hkey] at hi
    cases hi

theorem used_of_fresh (n : Nat) : used (cell node) n = 0 := by
  rw [used, Finset.card_eq_zero, Finset.filter_eq_empty_iff]
  intro i _ hi
  rw [cell_of_fresh h] at hi
  exact hi rfl

end

theorem dummyNode_fresh : ∀ nd ∈ (dummyNode V).node, nd = ⟨.free, none, 0⟩ := by
  intro nd hnd
  rwa [dummyNode, List.mem_singleton] at hnd

theorem dummyNode_inv : (dummyNode V).Inv hs where
  length_eq := rfl
  ranged := isRanged_of_fresh dummyNode_fresh
  scatter := isScatter_of_fresh dummyNode_fresh _
  content := isContent_of_fresh dummyNode_fresh
  dummy := fun _ => rfl
  taken := by
    intro lf h
    cases h
  first := isFirst_of_fresh dummyNode_fresh _
  small := Nat.zero_le _

/-- `setnodevector` overflows where it is asked for too much, or gives an empty part with room for `size` pairs. -/
theorem setnodevector_spec (size : Nat) :
    2 ^ 30 < size ∧ setnodevector V size = .error (.msg "table overflow") ∨ ∃ h, setnodevector V size = .ok h ∧ h.Inv hs ∧
      (∀ nd ∈ h.node, nd = ⟨.free, none, 0⟩) ∧
      h.capacity = if size = 0 then 0 else 2 ^ ceillog2 size := by
  unfold setnodevector
  by_cases hsize : size = 0
  · rw [if_pos hsize, if_pos hsize]
    exact .inr ⟨_, rfl, dummyNode_inv hs, dummyNode_fresh, rfl⟩
  · rw [if_neg hsize, if_neg hsize]
    dsimp only
    by_cases hbig : ceillog2 size > 30
    · rw [if_pos hbig]
      refine .inl ⟨?_, rfl⟩
      by_contra hle
      exact absurd ((ceillog2_le_iff (by omega)).mpr (Nat.not_lt.mp hle)) (by omega)
    rw [if_neg hbig]
    have hfresh : ∀ nd ∈ List.replicate (2 ^ ceillog2 size) (⟨.free, none, 0⟩ : Node V), nd = ⟨.free, none, 0⟩ :=
      fun nd hnd => List.eq_of_mem_replicate hnd
    refine .inr ⟨_, rfl, ⟨List.length_replicate, isRanged_of_fresh hfresh, isScatter_of_fresh hfresh _,
      isContent_of_fresh hfresh, (fun h => nomatch h), ?_, isFirst_of_fresh hfresh _, Nat.not_lt.mp hbig⟩, hfresh, ?_⟩
    · intro lf hlf
      rw [← Option.some.inj hlf]
      refine ⟨by rw [List.length_replicate], fun {i} hi hlt => ?_⟩
      rw [List.length_replicate] at hlt
      omega
    · simp [HashPart.capacity]

variable {hs}

/-! ## Rewriting a node -/

/-- A node may change its value, and its key may die. -/
theorem HashPart.Inv.rewrite {h : HashPart V} (hinv : h.Inv hs) {j : Nat} {nd : Node V} (nd' : Node V)
    (hnd : h.node[j]? = some nd) (hkey : nd'.key.key? = nd.key.key?) (hnext : nd'.next = nd.next)
    (hfree : nd.key ≠ .free) (hlive : ∀ k, nd'.key = .live k → nd.key = .live k)
    (hcontent : IsContent (Function.update (cell h.node) j (nd'.key, nd'.val))) :
    ({ h with node := h.node.set j nd' } : HashPart V).Inv hs ∧
      cell (h.node.set j nd') = Function.update (cell h.node) j (nd'.key, nd'.val) := by
  have hj : j < h.node.length := (List.getElem?_eq_some_iff.mp hnd).1
  have hcell := cell_set hj nd'
  have hsucc : succ (h.node.set j nd') = succ h.node := by
    rw [succ_set hj, hnext, ← succ_of_get hnd, Function.update_eq_self]
  have hkeys : keyAt (cell (h.node.set j nd')) = keyAt (cell h.node) := by
    rw [hcell, keyAt_update]
    dsimp only
    rw [hkey]
    have hself : nd.key.key? = keyAt (cell h.node) j := by
      rw [keyAt, Function.comp_apply, cell_of_get hnd]
      rfl
    rw [hself, Function.update_eq_self]
  have hback : ∀ {i k}, (cell (h.node.set j nd') i).1 = .live k → (cell h.node i).1 = .live k := by
    intro i k hi
    rw [hcell] at hi
    by_cases hij : i = j
    · rw [hij, Function.update_self] at hi
      rw [hij, cell_of_get hnd]
      exact hlive k hi
    · rwa [Function.update_of_ne hij] at hi
  refine ⟨⟨?_, ?_, ?_, ?_, ?_, ?_, ?_, hinv.small⟩, hcell⟩
  · dsimp only
    rw [List.length_set, hinv.length_eq]
  · intro i x hx hne
    dsimp only at hx ⊢
    rw [List.length_set]
    rw [List.getElem?_set] at hx
    split_ifs at hx with hij
    · rw [← Option.some.inj hx, hnext] at hne ⊢
      rw [← hij]
      exact hinv.ranged j nd hnd hne
    · exact hinv.ranged i x hx hne
  · dsimp only
    rw [hkeys, hsucc]
    exact hinv.scatter
  · dsimp only
    rw [hcell]
    exact hcontent
  · intro hlf
    have hdummy := hinv.dummy hlf
    have hmem := List.mem_of_getElem? hnd
    rw [hdummy] at hmem
    rw [dummyNode_fresh nd hmem] at hfree
    exact absurd rfl hfree
  · intro lf hlf
    obtain ⟨hle, hall⟩ := hinv.taken hlf
    dsimp only
    rw [List.length_set]
    refine ⟨hle, fun {i} h1 h2 => ?_⟩
    have hnone := hall h1 h2
    rw [Ne, ← keyAt_eq_none] at hnone ⊢
    rwa [hkeys]
  · intro b a k ha hb
    dsimp only at ha hb ⊢
    rw [hsucc]
    by_cases hbj : b = j
    · rw [hcell, hbj, Function.update_self] at hb
      rw [show nd'.key = .dead k from hb] at hkey
      cases hold : nd.key with
      | free => exact absurd hold hfree
      | dead k' =>
        rw [hold] at hkey
        obtain rfl : k = k' := Option.some.inj hkey
        exact hinv.first (hback ha) (by rw [hbj, cell_of_get hnd, hold])
      | live k' =>
        rw [hold] at hkey
        obtain rfl : k = k' := Option.some.inj hkey
        -- the key was alive at `j` only, where it is dead now
        have haj : a = j := hinv.content.inj (hback ha) (by rw [cell_of_get hnd, hold])
        rw [haj, hcell, Function.update_self] at ha
        rw [show nd'.key = .dead k from hb] at ha
        cases ha
    · rw [hcell, Function.update_of_ne hbj] at hb
      exact hinv.first (hback ha) hb

/-! ## Search -/

theorem HashPart.Inv.lt_of_succ {h : HashPart V} (hinv : h.Inv hs) {x y : Nat} (hxy : succ h.node x = some y) :
    y < h.node.length := by
  rw [succ] at hxy
  split at hxy
  · next nd hnd =>
    split_ifs at hxy with hne
    have hrange := hinv.ranged x nd hnd hne
    rw [← Option.some.inj hxy]
    omega
  · cases hxy

/-- Walking from a node on ends after at most as many steps as there are nodes. -/
theorem HashPart.Inv.fuel_induct {h : HashPart V} (hinv : h.Inv hs) {P : Nat → Nat → Prop}
    (hP : ∀ n x, (∀ y, succ h.node x = some y → P n y) → P (n + 1) x) {x : Nat} (hx : x < h.node.length) :
    P h.node.length x := by
  have := hinv.scatter.forest.fuel_induct (Finset.range h.node.length)
    (fun hxy => Finset.mem_range.mpr (hinv.lt_of_succ hxy)) hP (Finset.mem_range.mpr hx)
  rwa [Finset.card_range] at this

/-- The slot a search for the key comes to: the node that has it, or none where no node has it. -/
def Found (c : Nat → Cell V) (k : Option Key) : Slot → Prop
  | .absent => ∀ k', k = some k' → ¬HasKey c k'
  | .array _ => False
  | .node j => ∃ k', k = some k' ∧ (c j).1 = .live k'

theorem chainLoop_spec {h : HashPart V} (hinv : h.Inv hs) (test : Key → Bool) {i : Nat} (hi : i < h.node.length) :
    ∃ s, chainLoop h.node test h.node.length i = .ok s ∧
      ((∃ j, s = .node j ∧ (cell h.node j).1.passes test = true) ∨
        (s = .absent ∧ ∀ j, Reach (succ h.node) i j → (cell h.node j).1.passes test = false)) := by
  revert hi
  by_cases hlt : i < h.node.length
  · refine hinv.fuel_induct (P := fun n i => i < h.node.length → ∃ s, chainLoop h.node test n i = .ok s ∧
      ((∃ j, s = .node j ∧ (cell h.node j).1.passes test = true) ∨
        (s = .absent ∧ ∀ j, Reach (succ h.node) i j → (cell h.node j).1.passes test = false))) ?_ hlt
    intro n x ih hx
    obtain ⟨nd, hnd⟩ := exists_get hx
    have hcell := cell_of_get hnd
    have hsucc := succ_of_get hnd
    rw [chainLoop, idx_of_get hnd, Rust.ok_bind]
    by_cases htest : nd.key.passes test = true
    · rw [if_pos htest]
      exact ⟨_, rfl, .inl ⟨x, rfl, by rw [hcell]; exact htest⟩⟩
    rw [if_neg htest]
    have hfail : (cell h.node x).1.passes test = false := by
      rw [hcell]
      exact Bool.eq_false_iff.mpr htest
    by_cases hnext : nd.next = 0
    · rw [if_pos hnext] at hsucc ⊢
      refine ⟨_, rfl, .inr ⟨rfl, fun j hj => ?_⟩⟩
      rcases hj.eq_or_step with rfl | ⟨z, hz, -⟩
      · exact hfail
      · rw [hsucc] at hz
        cases hz
    · rw [if_neg hnext] at hsucc ⊢
      obtain ⟨s, hs', h1 | ⟨h1, h2⟩⟩ := ih _ hsucc (hinv.lt_of_succ hsucc)
      · exact ⟨s, hs', .inl h1⟩
      · refine ⟨s, hs', .inr ⟨h1, fun j hj => ?_⟩⟩
        rcases hj.eq_or_step with rfl | ⟨z, hz, hzj⟩
        · exact hfail
        · rw [hsucc] at hz
          rw [← Option.some.inj hz] at hzj
          exact h2 j hzj
  · exact fun hi => absurd hi hlt

/-- A search from the main position finds the key, the test being equality on the keys of nodes. -/
theorem searchFrom_spec {h : HashPart V} (hinv : h.Inv hs) {test : Key → Bool} {k : Option Key} {i : Nat}
    (hi : i < h.node.length) (htest : ∀ k', Normal k' → (test k' = true ↔ k = some k'))
    (hstart : ∀ k', k = some k' → mainpositionTV hs h.lsizenode k' = i) :
    ∃ s, searchFrom h test i = .ok s ∧ Found (cell h.node) k s := by
  obtain ⟨s, hs', ⟨j, rfl, hj⟩ | ⟨rfl, habs⟩⟩ := chainLoop_spec hinv test hi
  · refine ⟨_, hs', ?_⟩
    cases hkey : (cell h.node j).1 with
    | live k' =>
      rw [hkey] at hj
      exact ⟨k', (htest k' (hinv.content.normal hkey)).mp hj, hkey⟩
    | free | dead =>
      rw [hkey] at hj
      cases hj
  · refine ⟨_, hs', fun k' hk ⟨j, hj⟩ => ?_⟩
    have hreach := hinv.scatter.reach (keyAt_of_live hj)
    rw [hstart k' hk] at hreach
    have hfalse := habs j hreach
    rw [hj, NodeKey.passes, (htest k' (hinv.content.normal hj)).mpr hk] at hfalse
    cases hfalse

theorem searchint_spec {h : HashPart V} (hinv : h.Inv hs) (i : Int64) :
    ∃ s, searchint h i = .ok s ∧ Found (cell h.node) (some (.int i)) s := by
  refine searchFrom_spec hinv ?_ (fun k' _ => ?_) (fun k' hk => ?_)
  · rw [hinv.length_eq]
    exact mod_hashmod_lt _ _
  · rw [decide_eq_true_eq, Option.some.injEq, eq_comm]
  · rw [← Option.some.inj hk]
    rfl

theorem getgeneric_spec {h : HashPart V} (hinv : h.Inv hs) {k : Key} (hk : Normal k) :
    ∃ s, getgeneric hs h k = .ok s ∧ Found (cell h.node) (some k) s := by
  refine searchFrom_spec hinv ?_ (fun k' _ => ?_) (fun k' hk => ?_)
  · rw [hinv.length_eq]
    exact mainpositionTV_lt hs _ _
  · rw [equalkey_iff hk, Option.some.injEq, eq_comm]
  · rw [Option.some.inj hk]

theorem getgeneric_nan {h : HashPart V} (hinv : h.Inv hs) {f : F64} (hnan : f.isNaN = true) :
    ∃ s, getgeneric hs h (.float f) = .ok s ∧ Found (cell h.node) none s := by
  refine searchFrom_spec hinv ?_ (fun k' _ => ?_) (fun k' hk => ?_)
  · rw [hinv.length_eq]
    exact mainpositionTV_lt hs _ _
  · cases k' with
    | float g => simp [equalkey, F64.beq_of_isNaN hnan]
    | _ => simp [equalkey]
  · cases hk

theorem getshortstr_spec {h : HashPart V} (hinv : h.Inv hs) (p : Nat) :
    ∃ s, getshortstr hs h p = .ok s ∧ Found (cell h.node) (some (.shortStr p)) s := by
  refine searchFrom_spec hinv ?_ (fun k' _ => ?_) (fun k' hk => ?_)
  · rw [hinv.length_eq]
    exact hashpow2_lt _ _
  · rw [decide_eq_true_eq, Option.some.injEq, eq_comm]
  · rw [← Option.some.inj hk]
    rfl

theorem getid_spec {h : HashPart V} (hinv : h.Inv hs) (id : Nat) :
    ∃ s, getid hs h id = .ok s ∧ Found (cell h.node) (some (.rustId id)) s := by
  refine searchFrom_spec hinv ?_ (fun k' _ => ?_) (fun k' hk => ?_)
  · rw [hinv.length_eq]
    exact hashpow2_lt _ _
  · rw [decide_eq_true_eq, Option.some.injEq, eq_comm]
  · rw [← Option.some.inj hk]
    rfl

/-- The loop of `luaH_newkey` finds the node before `mp`. -/
theorem findPrevious_spec {h : HashPart V} (hinv : h.Inv hs) {i mp : Nat} (hi : i < h.node.length)
    (hreach : Reach (succ h.node) i mp) (hne : i ≠ mp) :
    ∃ prev, findPrevious h.node mp h.node.length i = .ok prev ∧ succ h.node prev = some mp := by
  revert hi hreach hne
  by_cases hlt : i < h.node.length
  · refine hinv.fuel_induct (P := fun n i => i < h.node.length → Reach (succ h.node) i mp → i ≠ mp →
      ∃ prev, findPrevious h.node mp n i = .ok prev ∧ succ h.node prev = some mp) ?_ hlt
    intro n x ih hx hreach hne
    obtain ⟨nd, hnd⟩ := exists_get hx
    rcases hreach.eq_or_step with heq | ⟨z, hz, hzmp⟩
    · exact absurd heq hne
    have hsucc := succ_of_get hnd
    have hnext : nd.next ≠ 0 := by
      intro h0
      rw [if_pos h0, hz] at hsucc
      cases hsucc
    rw [if_neg hnext] at hsucc
    have hrange := hinv.ranged x nd hnd hnext
    rw [findPrevious, idx_of_get hnd, Rust.ok_bind]
    by_cases hmp : (x + nd.next : Int) = mp
    · rw [if_pos hmp]
      refine ⟨x, rfl, ?_⟩
      rw [hsucc, hmp]
      rfl
    · rw [if_neg hmp]
      have hzeq : z = (x + nd.next).toNat := by
        rw [hz] at hsucc
        exact Option.some.inj hsucc
      refine ih _ hsucc (by omega) (hzeq ▸ hzmp) (by omega)
  · exact fun hi => absurd hi hlt

end Tsuki.Table
