import Tsuki.Table.Legacy
import Tsuki.Lib.Scatter

/-!
# Nodes as cells

Main positions are nodes of the part, and normal keys are compared by equality. A node list is read as its cells, the
keys and values, and its links: a change of one node is an update of both.
-/

namespace Tsuki.Table

open Lib.Chains

variable {V : Type} (hs : Hashes)

/-! ## Main positions and keys -/

theorem hashmod_pos (n : Nat) : 0 < hashmod n := Nat.lt_of_lt_of_le Nat.one_pos Nat.right_le_or

theorem mod_hashmod_lt (x n : Nat) : x % hashmod n < 2 ^ n := by
  have hpos : 0 < 2 ^ n := Nat.two_pow_pos n
  rcases Nat.eq_zero_or_pos n with rfl | hn
  · rw [show hashmod 0 = 1 from rfl, Nat.mod_one]
    exact hpos
  · have hodd : hashmod n = 2 ^ n - 1 := by
      obtain ⟨m, rfl⟩ : ∃ m, n = m + 1 := ⟨n - 1, by omega⟩
      have hdouble : 2 ^ (m + 1) - 1 = 2 * (2 ^ m - 1) + 1 := by
        have := Nat.two_pow_pos m
        rw [Nat.pow_succ]
        omega
      rw [hashmod, hdouble]
      apply Nat.eq_of_testBit_eq
      intro i
      rw [Nat.testBit_or]
      cases i with
      | zero => simp
      | succ i => rw [Nat.testBit_succ 1]; simp
    have := Nat.mod_lt x (hashmod_pos n)
    omega

theorem hashpow2_lt (n h : Nat) : hashpow2 n h < 2 ^ n :=
  Nat.lt_of_le_of_lt Nat.and_le_right (Nat.sub_lt (Nat.two_pow_pos n) Nat.one_pos)

theorem mainpositionTV_lt (n : Nat) (k : Key) : mainpositionTV hs n k < 2 ^ n := by
  cases k with
  | nil => exact Nat.two_pow_pos n
  | int | float | fp | object => exact mod_hashmod_lt _ n
  | boolean | shortStr | longStr | rustId => exact hashpow2_lt n _

/-- The key a lookup of `k` looks for; no pair has a nil or NaN key. -/
def canon (k : Key) : Option Key := (normalizeKey k).toOption

theorem canon_eq_some {k c : Key} : canon k = some c ↔ normalizeKey k = .ok c := by
  rw [canon]
  cases normalizeKey k <;> simp [Except.toOption]

/-- `normalizeKey` leaves the keys of the nodes as they are. -/
def Normal (k : Key) : Prop := normalizeKey k = .ok k

theorem normal_int (i : Int64) : Normal (.int i) := rfl

theorem normal_of_normalizeKey {k c : Key} (h : normalizeKey k = .ok c) : Normal c := by
  cases k with
  | nil => cases h
  | float f =>
    rw [normalizeKey] at h
    split at h
    · rw [← Except.ok.inj h]
      exact normal_int _
    · next hf =>
      split_ifs at h with hnan
      rw [← Except.ok.inj h, Normal, normalizeKey, hf]
      simp [hnan]
  | boolean | int | shortStr | longStr | fp | rustId | object =>
    rw [← Except.ok.inj h]
    rfl

theorem Normal.float {f : F64} (h : Normal (.float f)) : f.flttointegerEq = none ∧ f.isNaN = false := by
  rw [Normal, normalizeKey] at h
  split at h
  · cases h
  · next hf =>
    split_ifs at h with hnan
    exact ⟨hf, Bool.eq_false_iff.mpr hnan⟩

theorem equalkey_iff {k k' : Key} (h : Normal k) : equalkey k k' = true ↔ k' = k := by
  cases k with
  | nil => cases h
  | float f =>
    cases k' with
    | float g =>
      obtain ⟨hf, hnan⟩ := h.float
      rw [Key.float.injEq, ← F64.beq_iff hf hnan]
      rfl
    | _ => simp [equalkey]
  | _ => cases k' <;> grind [equalkey]

/-! ## Nodes as cells -/

/-- The key a node has, or had before it died. -/
def NodeKey.key? : NodeKey → Option Key
  | .free => none
  | .dead k => some k
  | .live k => some k

/-- Key and value of a node. -/
abbrev Cell (V : Type) := NodeKey × Option V

/-- Key and value of node `i`. -/
def cell (node : List (Node V)) (i : Nat) : Cell V :=
  match node[i]? with
  | some nd => (nd.key, nd.val)
  | none => (.free, none)

/-- The node behind node `i`. -/
def succ (node : List (Node V)) (i : Nat) : Option Nat :=
  match node[i]? with
  | some nd => if nd.next = 0 then none else some (i + nd.next).toNat
  | none => none

/-- The keys of the cells. -/
def keyAt (c : Nat → Cell V) : Nat → Option Key := (NodeKey.key? ∘ Prod.fst) ∘ c

theorem keyAt_update (c : Nat → Cell V) (j : Nat) (p : Cell V) :
    keyAt (Function.update c j p) = Function.update (keyAt c) j p.1.key? := by
  funext i
  by_cases h : i = j
  · rw [h, Function.update_self, keyAt, Function.comp_apply, Function.update_self]
    rfl
  · rw [Function.update_of_ne h, keyAt, Function.comp_apply, Function.update_of_ne h]
    rfl

theorem keyAt_eq_none {c : Nat → Cell V} {i : Nat} : keyAt c i = none ↔ (c i).1 = .free := by
  rw [keyAt, Function.comp_apply, Function.comp_apply]
  cases (c i).1 <;> simp [NodeKey.key?]

theorem keyAt_of_live {c : Nat → Cell V} {i : Nat} {k : Key} (h : (c i).1 = .live k) : keyAt c i = some k := by
  rw [keyAt, Function.comp_apply, Function.comp_apply, h]
  rfl

theorem keyAt_of_dead {c : Nat → Cell V} {i : Nat} {k : Key} (h : (c i).1 = .dead k) : keyAt c i = some k := by
  rw [keyAt, Function.comp_apply, Function.comp_apply, h]
  rfl

section

variable {node : List (Node V)} {i j : Nat} {nd : Node V}

theorem cell_of_get (h : node[i]? = some nd) : cell node i = (nd.key, nd.val) := by rw [cell, h]

theorem succ_of_get (h : node[i]? = some nd) :
    succ node i = if nd.next = 0 then none else some (i + nd.next).toNat := by rw [succ, h]

theorem cell_of_le (h : node.length ≤ i) : cell node i = (.free, none) := by
  rw [cell, List.getElem?_eq_none h]

theorem lt_of_live {k : Key} (h : (cell node i).1 = .live k) : i < node.length := by
  by_contra hge
  rw [cell_of_le (by omega)] at h
  cases h

theorem exists_get (h : i < node.length) : ∃ nd, node[i]? = some nd := ⟨_, List.getElem?_eq_getElem h⟩

theorem idx_of_get (h : node[i]? = some nd) : idx node i = .ok nd := by rw [idx, h]

theorem cell_set (h : j < node.length) (nd : Node V) :
    cell (node.set j nd) = Function.update (cell node) j (nd.key, nd.val) := by
  funext i
  by_cases hij : i = j
  · rw [hij, Function.update_self]
    exact cell_of_get (by rw [List.getElem?_set_self h])
  · rw [Function.update_of_ne hij, cell, cell, List.getElem?_set_ne (Ne.symm hij)]

theorem succ_set (h : j < node.length) (nd : Node V) :
    succ (node.set j nd) =
      Function.update (succ node) j (if nd.next = 0 then none else some (j + nd.next).toNat) := by
  funext i
  by_cases hij : i = j
  · rw [hij, Function.update_self]
    exact succ_of_get (by rw [List.getElem?_set_self h])
  · rw [Function.update_of_ne hij, succ, succ, List.getElem?_set_ne (Ne.symm hij)]

end

/-! ## What the cells hold -/

/-- Some cell has the key. -/
def HasKey (c : Nat → Cell V) (k : Key) : Prop := ∃ i, (c i).1 = .live k

/-- Some cell has the pair. -/
def CellHolds (c : Nat → Cell V) (k : Key) (v : V) : Prop := ∃ i, c i = (.live k, some v)

/-- Only keys that are alive have values, all keys are normal, and none is there twice. -/
structure IsContent (c : Nat → Cell V) : Prop where
  empty : ∀ {i}, (∀ k, (c i).1 ≠ .live k) → (c i).2 = none
  normal : ∀ {i k}, (c i).1 = .live k → Normal k
  inj : ∀ {i j k}, (c i).1 = .live k → (c j).1 = .live k → i = j

section

variable {c : Nat → Cell V} {j : Nat} {k : Key} {v : V}

theorem CellHolds.hasKey (h : CellHolds c k v) : HasKey c k := by
  obtain ⟨i, hi⟩ := h
  exact ⟨i, by rw [hi]⟩

/-- A pair goes to the cell `j`. -/
theorem IsContent.put (h : IsContent c) (hk : Normal k) (habs : ¬HasKey c k) :
    IsContent (Function.update c j (.live k, some v)) where
  empty := by
    intro i hi
    by_cases hij : i = j
    · rw [hij, Function.update_self] at hi
      exact absurd rfl (hi k)
    · rw [Function.update_of_ne hij] at hi ⊢
      exact h.empty hi
  normal := by
    intro i k' hi
    by_cases hij : i = j
    · rw [hij, Function.update_self] at hi
      rwa [← NodeKey.live.inj hi]
    · rw [Function.update_of_ne hij] at hi
      exact h.normal hi
  inj := by
    intro i i' k' hi hi'
    by_cases hij : i = j <;> by_cases hij' : i' = j
    · rw [hij, hij']
    · rw [hij, Function.update_self] at hi
      rw [Function.update_of_ne hij', ← NodeKey.live.inj hi] at hi'
      exact absurd ⟨i', hi'⟩ habs
    · rw [hij', Function.update_self] at hi'
      rw [Function.update_of_ne hij, ← NodeKey.live.inj hi'] at hi
      exact absurd ⟨i, hi⟩ habs
    · rw [Function.update_of_ne hij] at hi
      rw [Function.update_of_ne hij'] at hi'
      exact h.inj hi hi'

/-- The cell `j` gets another value for its key. -/
theorem IsContent.assign (h : IsContent c) (hj : (c j).1 = .live k) (x : Option V) :
    IsContent (Function.update c j (.live k, x)) where
  empty := by
    intro i hi
    by_cases hij : i = j
    · rw [hij, Function.update_self] at hi
      exact absurd rfl (hi k)
    · rw [Function.update_of_ne hij] at hi ⊢
      exact h.empty hi
  normal := by
    intro i k' hi
    by_cases hij : i = j
    · rw [hij, Function.update_self] at hi
      rw [← NodeKey.live.inj hi]
      exact h.normal hj
    · rw [Function.update_of_ne hij] at hi
      exact h.normal hi
  inj := by
    have hback : ∀ {i k'}, (Function.update c j (.live k, x) i).1 = .live k' → (c i).1 = .live k' := by
      intro i k' hi
      by_cases hij : i = j
      · rw [hij, Function.update_self] at hi
        rw [hij, hj]
        exact hi
      · rwa [Function.update_of_ne hij] at hi
    intro i i' k' hi hi'
    exact h.inj (hback hi) (hback hi')

theorem hasKey_assign (hj : (c j).1 = .live k) {x : Option V} {k' : Key} :
    HasKey (Function.update c j (.live k, x)) k' ↔ HasKey c k' := by
  have hfst : ∀ i, (Function.update c j (.live k, x) i).1 = (c i).1 := by
    intro i
    by_cases hij : i = j
    · rw [hij, Function.update_self, hj]
    · rw [Function.update_of_ne hij]
  simp only [HasKey, hfst]

theorem holds_assign (h : IsContent c) (hj : (c j).1 = .live k) {x : Option V} {k' : Key} {v' : V} :
    CellHolds (Function.update c j (.live k, x)) k' v' ↔ (k' = k ∧ x = some v') ∨ (k' ≠ k ∧ CellHolds c k' v') := by
  constructor
  · rintro ⟨i, hi⟩
    by_cases hij : i = j
    · rw [hij, Function.update_self, Prod.mk.injEq] at hi
      exact .inl ⟨(NodeKey.live.inj hi.1).symm, hi.2⟩
    · rw [Function.update_of_ne hij] at hi
      refine .inr ⟨?_, i, hi⟩
      rintro rfl
      exact hij (h.inj (by rw [hi]) hj)
  · rintro (⟨rfl, rfl⟩ | ⟨hne, i, hi⟩)
    · exact ⟨j, Function.update_self ..⟩
    · have hij : i ≠ j := by
        rintro rfl
        rw [hi] at hj
        exact hne (NodeKey.live.inj hj)
      exact ⟨i, by rw [Function.update_of_ne hij, hi]⟩

theorem IsContent.kill (h : IsContent c) : IsContent (Function.update c j (.dead k, none)) where
  empty := by
    intro i hi
    by_cases hij : i = j
    · rw [hij, Function.update_self]
    · rw [Function.update_of_ne hij] at hi ⊢
      exact h.empty hi
  normal := by
    intro i k' hi
    by_cases hij : i = j
    · rw [hij, Function.update_self] at hi
      cases hi
    · rw [Function.update_of_ne hij] at hi
      exact h.normal hi
  inj := by
    have hback : ∀ {i k'}, (Function.update c j (.dead k, none) i).1 = .live k' → (c i).1 = .live k' := by
      intro i k' hi
      by_cases hij : i = j
      · rw [hij, Function.update_self] at hi
        cases hi
      · rwa [Function.update_of_ne hij] at hi
    intro i i' k' hi hi'
    exact h.inj (hback hi) (hback hi')

theorem hasKey_kill {k' : Key} (h : HasKey (Function.update c j (.dead k, none)) k') : HasKey c k' := by
  obtain ⟨i, hi⟩ := h
  by_cases hij : i = j
  · rw [hij, Function.update_self] at hi
    cases hi
  · rw [Function.update_of_ne hij] at hi
    exact ⟨i, hi⟩

theorem holds_kill (hj : c j = (.live k, none)) {k' : Key} {v' : V} :
    CellHolds (Function.update c j (.dead k, none)) k' v' ↔ CellHolds c k' v' := by
  constructor
  · rintro ⟨i, hi⟩
    by_cases hij : i = j
    · rw [hij, Function.update_self] at hi
      cases hi
    · rw [Function.update_of_ne hij] at hi
      exact ⟨i, hi⟩
  · rintro ⟨i, hi⟩
    have hij : i ≠ j := by
      rintro rfl
      rw [hi] at hj
      cases hj
    exact ⟨i, by rw [Function.update_of_ne hij, hi]⟩

theorem hasKey_put {k' : Key} (h : HasKey (Function.update c j (.live k, some v)) k') : k' = k ∨ HasKey c k' := by
  obtain ⟨i, hi⟩ := h
  by_cases hij : i = j
  · rw [hij, Function.update_self] at hi
    exact .inl (NodeKey.live.inj hi).symm
  · rw [Function.update_of_ne hij] at hi
    exact .inr ⟨i, hi⟩

theorem holds_put (hj : (c j).2 = none) {k' : Key} {v' : V} :
    CellHolds (Function.update c j (.live k, some v)) k' v' ↔ (k' = k ∧ v' = v) ∨ CellHolds c k' v' := by
  constructor
  · rintro ⟨i, hi⟩
    by_cases hij : i = j
    · rw [hij, Function.update_self, Prod.mk.injEq] at hi
      exact .inl ⟨(NodeKey.live.inj hi.1).symm, (Option.some.inj hi.2).symm⟩
    · rw [Function.update_of_ne hij] at hi
      exact .inr ⟨i, hi⟩
  · rintro (⟨rfl, rfl⟩ | ⟨i, hi⟩)
    · exact ⟨j, Function.update_self ..⟩
    · have hij : i ≠ j := by
        rintro rfl
        rw [hi] at hj
        cases hj
      exact ⟨i, by rw [Function.update_of_ne hij, hi]⟩

variable {m f : Nat}

/-- The cell `f` takes over what `m` has. -/
def moved (c : Nat → Cell V) (m f : Nat) : Nat → Cell V :=
  Function.update (Function.update c f (c m)) m (.free, none)

theorem moved_inv {i : Nat} (h : (moved c m f i).1 ≠ .free) :
    (i = f ∧ moved c m f i = c m) ∨ (i ≠ f ∧ i ≠ m ∧ moved c m f i = c i) := by
  by_cases him : i = m
  · rw [moved, him, Function.update_self] at h
    exact absurd rfl h
  by_cases hif : i = f
  · exact .inl ⟨hif, by rw [moved, Function.update_of_ne him, hif, Function.update_self]⟩
  · exact .inr ⟨hif, him, by rw [moved, Function.update_of_ne him, Function.update_of_ne hif]⟩

theorem IsContent.moved (h : IsContent c) : IsContent (moved c m f) where
  empty := by
    intro i hi
    by_cases him : i = m
    · rw [Table.moved, him, Function.update_self]
    rw [Table.moved, Function.update_of_ne him] at hi ⊢
    by_cases hif : i = f
    · rw [hif, Function.update_self] at hi ⊢
      exact h.empty hi
    · rw [Function.update_of_ne hif] at hi ⊢
      exact h.empty hi
  normal := by
    intro i k hi
    rcases moved_inv (by rw [hi]; simp) with ⟨-, heq⟩ | ⟨-, -, heq⟩ <;> rw [heq] at hi <;> exact h.normal hi
  inj := by
    intro i i' k hi hi'
    rcases moved_inv (by rw [hi]; simp) with ⟨hif, heq⟩ | ⟨hif, him, heq⟩ <;>
      rcases moved_inv (by rw [hi']; simp) with ⟨hif', heq'⟩ | ⟨hif', him', heq'⟩ <;>
      rw [heq] at hi <;> rw [heq'] at hi'
    · rw [hif, hif']
    · exact absurd (h.inj hi hi').symm him'
    · exact absurd (h.inj hi hi') him
    · exact h.inj hi hi'

theorem hasKey_moved {k : Key} (h : HasKey (moved c m f) k) : HasKey c k := by
  obtain ⟨i, hi⟩ := h
  rcases moved_inv (by rw [hi]; simp) with ⟨-, heq⟩ | ⟨-, -, heq⟩ <;> rw [heq] at hi
  exacts [⟨m, hi⟩, ⟨i, hi⟩]

theorem holds_moved (hne : m ≠ f) (hf : (c f).1 = .free) {k : Key} {v : V} :
    CellHolds (moved c m f) k v ↔ CellHolds c k v := by
  constructor
  · rintro ⟨i, hi⟩
    rcases moved_inv (by rw [hi]; simp) with ⟨-, heq⟩ | ⟨-, -, heq⟩ <;> rw [heq] at hi
    exacts [⟨m, hi⟩, ⟨i, hi⟩]
  · rintro ⟨i, hi⟩
    have hif : i ≠ f := by
      rintro rfl
      rw [hi] at hf
      cases hf
    by_cases him : i = m
    · exact ⟨f, by rw [moved, Function.update_of_ne hne.symm, Function.update_self, ← him, hi]⟩
    · exact ⟨i, by rw [moved, Function.update_of_ne him, Function.update_of_ne hif, hi]⟩

end

end Tsuki.Table
