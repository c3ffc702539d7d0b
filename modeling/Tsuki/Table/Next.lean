import Tsuki.Table.Run

/-!
# Traversals

`next_raw` finds the position of the last key again, even if its node is dead by now, and goes on from there. As long
as no key is inserted the positions of the keys do not change: a traversal goes over them in order. The keys at the
positions are one list that does not change under quiet operations, apart from keys that die in place. A traversal has
gone over a prefix of it (`Visited`), and one call adds the next key that is still there.
-/

namespace Tsuki.Table

open Lib.Chains

/-! ## `next_raw` -/

/-- `struct KeyMissing`. -/
inductive KeyMissing
  | keyMissing
  deriving DecidableEq, Repr

section

variable {V : Type} (hs : Hashes)

/-- `equalkey` where dead keys count. The source compares the pointers; a key here stands for its object, a long string
for its bytes, since a traversal passes the very object back. -/
def equalkeyDeadok (key : Key) : NodeKey → Bool
  | .free => false
  | .dead k => key.collectable && key = k
  | .live k => equalkey key k

/-- The loop of `getgeneric` where dead keys count. -/
def deadokLoop (node : List (Node V)) (key : Key) : Nat → Nat → Rust (Option Nat)
  | 0, _ => .error .panic
  | n + 1, i => do
    let nd ← idx node i
    if equalkeyDeadok key nd.key then .ok (some i)
    else if nd.next = 0 then .ok none
    else deadokLoop node key n (i + nd.next).toNat

/-- `arrayindex`, where the key is an integer. -/
def Key.index : Key → Nat
  | .int k => arrayindex k
  | _ => 0

def findindex (t : Table V) (key : Key) (asize : Nat) : Rust (Except KeyMissing Nat) :=
  if key = .nil then .ok (.ok 0)
  else if 0 < key.index ∧ key.index ≤ asize then .ok (.ok key.index)
  else (deadokLoop t.hash.node key t.hash.node.length (mainpositionTV hs t.hash.lsizenode key)).map fun
    | none => .error .keyMissing
    | some n => .ok (n + 1 + asize)

/-- The loops of `next_raw`: the first of `n` slots from `i` on that has something. -/
def firstFrom {α : Type} (look : Nat → Rust (Option α)) : Nat → Nat → Rust (Option α)
  | 0, _ => .ok none
  | n + 1, i => do
    let x ← look i
    if x.isSome then .ok x else firstFrom look n (i + 1)

/-- The entry of the slot `i` of the array part. -/
def lookArray (t : Table V) (i : Nat) : Rust (Option (Key × V)) :=
  (idx t.array i).map fun x => x.map fun v => (.int (Int64.ofNat (i + 1)), v)

/-- The entry of the node `i`. -/
def lookNode (t : Table V) (i : Nat) : Rust (Option (Key × V)) := do
  let nd ← idx t.hash.node i
  match nd.val with
  | none => .ok none
  | some v =>
    match nd.key with
    | .live k => .ok (some (k, v))
    | _ => .error .panic

/-- `next_raw` from the index `i` on. -/
def nextFrom (t : Table V) (i : Nat) : Rust (Option (Key × V)) := do
  let asize := realasize t
  let x ← firstFrom (lookArray t) (asize - i) i
  if x.isSome then .ok x else firstFrom (lookNode t) (2 ^ t.hash.lsizenode - (i - asize)) (i - asize)

def next_raw (t : Table V) (key : Key) : Rust (Except KeyMissing (Option (Key × V))) := do
  let i ← findindex hs t key (realasize t)
  match i with
  | .error e => .ok (.error e)
  | .ok i => (nextFrom t i).map .ok

end

/-! ## Positions -/

section

variable {V : Type}

/-- The key at a position: first those of the array part, then those of the nodes. -/
def keyAtPos (t : Table V) (i : Nat) : Option Key :=
  if i < t.array.length then some (.int (Int64.ofNat (i + 1)))
  else
    match (cell t.hash.node (i - t.array.length)).1 with
    | .live k => some k
    | _ => none

/-- How many positions there are. -/
def positions (t : Table V) : Nat := t.array.length + t.hash.node.length

/-- The value at a position. -/
def valueAt (t : Table V) (i : Nat) : Option V :=
  if i < t.array.length then (t.array[i]?).join else (cell t.hash.node (i - t.array.length)).2

/-- The entry at a position. -/
def entryAt (t : Table V) (i : Nat) : Option (Key × V) :=
  (keyAtPos t i).bind fun k => (valueAt t i).map fun v => (k, v)

variable {hs : Hashes} {t : Table V} {i j : Nat} {k : Key} {v : V}

theorem keyAtPos_array (h : i < t.array.length) : keyAtPos t i = some (.int (Int64.ofNat (i + 1))) := if_pos h

theorem keyAtPos_node (h : t.array.length ≤ i) :
    keyAtPos t i = some k ↔ (cell t.hash.node (i - t.array.length)).1 = .live k := by
  rw [keyAtPos, if_neg (Nat.not_lt.mpr h)]
  cases (cell t.hash.node (i - t.array.length)).1 <;> simp

theorem pos_of_keyAtPos (h : Inv hs t) (hi : i < t.array.length) (hk : keyAtPos t i = some k) : k.pos = some i := by
  have hsize := h.size
  rw [keyAtPos_array hi] at hk
  rw [← Option.some.inj hk]
  exact pos_ofNat (by omega)

theorem normal_of_keyAtPos (h : Inv hs t) (hk : keyAtPos t i = some k) : Normal k := by
  by_cases hi : i < t.array.length
  · exact normal_of_pos (pos_of_keyAtPos h hi hk)
  · exact h.hash.content.normal ((keyAtPos_node (Nat.le_of_not_lt hi)).mp hk)

theorem keyAtPos_inj (h : Inv hs t) (hi : keyAtPos t i = some k) (hj : keyAtPos t j = some k) : i = j := by
  have hapart : ∀ {i j}, i < t.array.length → t.array.length ≤ j → keyAtPos t i = some k → keyAtPos t j ≠ some k := by
    intro i j hlt hle hi hj
    have hout := inArray_false_iff.mp (h.apart ⟨_, (keyAtPos_node hle).mp hj⟩) i (pos_of_keyAtPos h hlt hi)
    exact absurd hlt (Nat.not_lt.mpr hout)
  by_cases hilt : i < t.array.length <;> by_cases hjlt : j < t.array.length
  · have heq := pos_of_keyAtPos h hilt hi
    rw [pos_of_keyAtPos h hjlt hj] at heq
    exact (Option.some.inj heq).symm
  · exact absurd hj (hapart hilt (Nat.le_of_not_lt hjlt) hi)
  · exact absurd hi (hapart hjlt (Nat.le_of_not_lt hilt) hj)
  · have heq := h.hash.content.inj ((keyAtPos_node (Nat.le_of_not_lt hilt)).mp hi)
      ((keyAtPos_node (Nat.le_of_not_lt hjlt)).mp hj)
    omega

theorem lt_positions (hk : keyAtPos t i = some k) : i < positions t := by
  rw [positions]
  by_cases hi : i < t.array.length
  · omega
  · have hlt := lt_of_live ((keyAtPos_node (Nat.le_of_not_lt hi)).mp hk)
    omega

theorem entryAt_eq_some : entryAt t i = some (k, v) ↔ keyAtPos t i = some k ∧ valueAt t i = some v := by
  rw [entryAt, Option.bind_eq_some_iff]
  constructor
  · rintro ⟨k', hk, hv⟩
    obtain ⟨v', hv', heq⟩ := Option.map_eq_some_iff.mp hv
    rw [Prod.mk.injEq] at heq
    exact ⟨heq.1 ▸ hk, heq.2 ▸ hv'⟩
  · rintro ⟨hk, hv⟩
    exact ⟨k, hk, by rw [hv]; rfl⟩

/-- The table holds what stands at its positions. -/
theorem holds_iff_entryAt (h : Inv hs t) : Holds t k v ↔ ∃ i, entryAt t i = some (k, v) := by
  simp only [entryAt_eq_some]
  constructor
  · rintro (⟨u, hu, hget⟩ | ⟨j, hj⟩)
    · have hlt := (List.getElem?_eq_some_iff.mp hget).1
      have hsize := h.size
      refine ⟨u, ?_, ?_⟩
      · rw [keyAtPos_array hlt, pos_inj hu (pos_ofNat (by omega))]
      · rw [valueAt, if_pos hlt, hget]
        rfl
    · refine ⟨t.array.length + j, (keyAtPos_node (by omega)).mpr ?_, ?_⟩
      · rw [Nat.add_sub_cancel_left, hj]
      · rw [valueAt, if_neg (by omega), Nat.add_sub_cancel_left, hj]
  · rintro ⟨i, hk, hv⟩
    by_cases hi : i < t.array.length
    · refine .inl ⟨i, pos_of_keyAtPos h hi hk, ?_⟩
      rw [valueAt, if_pos hi, Option.join_eq_some_iff] at hv
      exact hv
    · rw [valueAt, if_neg hi] at hv
      exact .inr ⟨_, Prod.ext ((keyAtPos_node (Nat.le_of_not_lt hi)).mp hk) hv⟩

/-! ## The next entry -/

/-- The loop comes to the first of the positions that has something. -/
theorem firstFrom_spec {α : Type} {look : Nat → Rust (Option α)} {g : Nat → Option α} : ∀ (n i : Nat),
    (∀ m, i ≤ m → m < i + n → look m = .ok (g m)) →
    ∃ x, firstFrom look n i = .ok x ∧ ((x = none ∧ ∀ m, i ≤ m → m < i + n → g m = none) ∨
      ∃ j, i ≤ j ∧ j < i + n ∧ x = g j ∧ (g j).isSome = true ∧ ∀ m, i ≤ m → m < j → g m = none) := by
  intro n
  induction n with
  | zero =>
    intro i _
    exact ⟨none, rfl, .inl ⟨rfl, fun m h1 h2 => absurd h2 (by omega)⟩⟩
  | succ n ih =>
    intro i hlook
    rw [firstFrom, hlook i (le_refl _) (by omega), Rust.ok_bind]
    cases hg : g i with
    | some a => exact ⟨some a, rfl, .inr ⟨i, le_refl _, by omega, hg.symm, by rw [hg]; rfl, fun m h1 h2 => by omega⟩⟩
    | none =>
      rw [if_neg (by simp)]
      have hskip : ∀ {b m}, i ≤ m → (∀ m, i + 1 ≤ m → m < b → g m = none) → m < b → g m = none := by
        intro b m h1 hnone h2
        rcases Nat.eq_or_lt_of_le h1 with rfl | hlt
        exacts [hg, hnone m hlt h2]
      obtain ⟨x, heq, ⟨rfl, hnone⟩ | ⟨j, h1, h2, hx, hsome, hnone⟩⟩ := ih (i + 1) fun m h1 h2 =>
        hlook m (by omega) (by omega)
      · exact ⟨none, heq, .inl ⟨rfl, fun m h1 h2 => hskip h1 hnone (by omega)⟩⟩
      · exact ⟨x, heq, .inr ⟨j, by omega, by omega, hx, hsome, fun m h1 h2 => hskip h1 hnone h2⟩⟩

theorem lookArray_spec {m : Nat} (hm : m < t.array.length) : lookArray t m = .ok (entryAt t m) := by
  rw [lookArray, idx_of_lt hm, entryAt, keyAtPos_array hm, valueAt, if_pos hm, List.getElem?_eq_getElem hm]
  rfl

theorem lookNode_spec (h : Inv hs t) {m : Nat} (hm : m < t.hash.node.length) :
    lookNode t m = .ok (entryAt t (t.array.length + m)) := by
  obtain ⟨nd, hnd⟩ := exists_get hm
  have hcell := cell_of_get hnd
  have hle : ¬t.array.length + m < t.array.length := by omega
  rw [lookNode, idx_of_get hnd, Rust.ok_bind, entryAt, keyAtPos, valueAt, if_neg hle, if_neg hle,
    Nat.add_sub_cancel_left, hcell]
  cases hkey : nd.key with
  | live k => cases nd.val <;> rfl
  | free | dead =>
    have hnone := h.hash.content.empty (i := m) fun k => by rw [hcell, hkey]; simp
    rw [hcell] at hnone
    rw [show nd.val = none from hnone]
    rfl

theorem entryAt_of_le (hi : positions t ≤ i) : entryAt t i = none := by
  rw [entryAt, Option.bind_eq_none_iff]
  intro k hk
  have := lt_positions hk
  omega

/-- From a position on, the first entry is the next. -/
theorem nextFrom_spec (h : Inv hs t) (i : Nat) :
    ∃ x, nextFrom t i = .ok x ∧ ((x = none ∧ ∀ m, i ≤ m → entryAt t m = none) ∨
      ∃ j, i ≤ j ∧ x = entryAt t j ∧ (entryAt t j).isSome = true ∧ ∀ m, i ≤ m → m < j → entryAt t m = none) := by
  have hlength := h.hash.length_eq
  rw [nextFrom, h.realasize_eq]
  obtain ⟨x, heq, hx⟩ := @firstFrom_spec _ (lookArray t) (entryAt t) (t.array.length - i) i
    fun m h1 h2 => lookArray_spec (by omega)
  rw [heq, Rust.ok_bind]
  rcases hx with ⟨rfl, hnone⟩ | ⟨j, h1, h2, rfl, hsome, hnone⟩
  · rw [if_neg (by simp)]
    obtain ⟨y, heq', hy⟩ := @firstFrom_spec _ (lookNode t) (fun m => entryAt t (t.array.length + m))
      (2 ^ t.hash.lsizenode - (i - t.array.length)) (i - t.array.length)
      fun m h1 h2 => lookNode_spec h (by omega)
    rcases hy with ⟨rfl, hnone'⟩ | ⟨j, h1, h2, rfl, hsome, hnone'⟩
    · refine ⟨none, heq', .inl ⟨rfl, fun m hm => ?_⟩⟩
      rcases Nat.lt_or_ge m t.array.length with hlt | hge
      · exact hnone m hm (by omega)
      rcases Nat.lt_or_ge m (positions t) with hlt | hout
      · rw [positions, hlength] at hlt
        have hentry := hnone' (m - t.array.length) (by omega) (by omega)
        rwa [Nat.add_sub_cancel' hge] at hentry
      · exact entryAt_of_le hout
    · refine ⟨_, heq', .inr ⟨t.array.length + j, by omega, rfl, hsome, fun m hm hlt => ?_⟩⟩
      rcases Nat.lt_or_ge m t.array.length with hlt' | hge
      · exact hnone m hm (by omega)
      · have hentry := hnone' (m - t.array.length) (by omega) (by omega)
        rwa [Nat.add_sub_cancel' hge] at hentry
  · rw [if_pos hsome]
    exact ⟨_, rfl, .inr ⟨j, h1, rfl, hsome, hnone⟩⟩

/-! ## Positions that stay -/

/-- Sizes, links and keys of `t'` are those of `t`, but keys may have died. -/
structure Frozen (t t' : Table V) : Prop where
  array_eq : t'.array.length = t.array.length
  lsizenode_eq : t'.hash.lsizenode = t.hash.lsizenode
  length_eq : t'.hash.node.length = t.hash.node.length
  succ_eq : succ t'.hash.node = succ t.hash.node
  key : ∀ j, (cell t'.hash.node j).1 = (cell t.hash.node j).1 ∨
    ∃ k, k.collectable = true ∧ (cell t.hash.node j).1 = .live k ∧ (cell t'.hash.node j).1 = .dead k

theorem Frozen.refl (t : Table V) : Frozen t t := ⟨rfl, rfl, rfl, rfl, fun _ => .inl rfl⟩

theorem Frozen.trans {t t' t'' : Table V} (h : Frozen t t') (h' : Frozen t' t'') : Frozen t t'' where
  array_eq := h'.array_eq.trans h.array_eq
  lsizenode_eq := h'.lsizenode_eq.trans h.lsizenode_eq
  length_eq := h'.length_eq.trans h.length_eq
  succ_eq := h'.succ_eq.trans h.succ_eq
  key := by
    intro j
    rcases h'.key j with heq | ⟨k, hc, hlive, hdead⟩
    · rw [heq]
      exact h.key j
    · rcases h.key j with heq | ⟨k', -, -, hdead'⟩
      · exact .inr ⟨k, hc, heq ▸ hlive, hdead⟩
      · rw [hlive] at hdead'
        cases hdead'

/-- No key comes to life. -/
theorem Frozen.live {t t' : Table V} (h : Frozen t t') (hj : (cell t'.hash.node j).1 = .live k) :
    (cell t.hash.node j).1 = .live k := by
  rcases h.key j with heq | ⟨k', -, -, hdead⟩
  · rw [← heq, hj]
  · rw [hj] at hdead
    cases hdead

theorem Frozen.keyAtPos {t t' : Table V} (h : Frozen t t') (hk : keyAtPos t' i = some k) : keyAtPos t i = some k := by
  by_cases hi : i < t'.array.length
  · rw [keyAtPos_array hi] at hk
    rw [keyAtPos_array (h.array_eq ▸ hi), hk]
  · have hlive := (keyAtPos_node (Nat.le_of_not_lt hi)).mp hk
    rw [h.array_eq] at hlive hi
    exact (keyAtPos_node (Nat.le_of_not_lt hi)).mpr (h.live hlive)

theorem frozen_set {nd nd' : Node V} (hnd : t.hash.node[j]? = some nd) (hnext : nd'.next = nd.next)
    (hkey : nd'.key = nd.key ∨ ∃ k, k.collectable = true ∧ nd.key = .live k ∧ nd'.key = .dead k) :
    Frozen t { t with hash := { t.hash with node := t.hash.node.set j nd' } } := by
  have hj := (List.getElem?_eq_some_iff.mp hnd).1
  refine ⟨rfl, rfl, List.length_set, ?_, fun x => ?_⟩
  · dsimp only
    rw [succ_set hj, hnext, ← succ_of_get hnd, Function.update_eq_self]
  · dsimp only
    rw [cell_set hj]
    by_cases hx : x = j
    · rw [hx, Function.update_self, cell_of_get hnd]
      exact hkey
    · rw [Function.update_of_ne hx]
      exact .inl rfl

theorem store_frozen {t' : Table V} {s : Slot} {x : Option V} (h : store t s x = .ok t') : Frozen t t' := by
  cases s with
  | absent => cases h
  | array u =>
    rw [store, idx] at h
    split at h
    · cases h
      exact ⟨List.length_set, rfl, rfl, rfl, fun _ => .inl rfl⟩
    · cases h
  | node j =>
    rw [store, idx] at h
    split at h
    · next nd hnd =>
      cases h
      exact frozen_set hnd rfl (.inl rfl)
    · cases h

theorem clearKey_frozen (t : Table V) (i : Nat) : Frozen t (clearKey t i) := by
  unfold clearKey
  split
  · next k next hnd =>
    split_ifs with hc
    · exact frozen_set hnd rfl (.inr ⟨k, hc, rfl, rfl⟩)
    · exact .refl t
  · exact .refl t

/-- The search that counts dead keys comes to the node `j`, if no node before it has the key. -/
theorem deadokLoop_spec {h : HashPart V} (hinv : h.Inv hs) (hi : i < h.node.length) (hreach : Reach (succ h.node) i j)
    (hj : equalkeyDeadok k (cell h.node j).1 = true)
    (hfirst : ∀ x, Reach (succ h.node) x j → equalkeyDeadok k (cell h.node x).1 = true → x = j) :
    deadokLoop h.node k h.node.length i = .ok (some j) := by
  revert hi hreach
  by_cases hlt : i < h.node.length
  · refine hinv.fuel_induct (P := fun n i => i < h.node.length → Reach (succ h.node) i j →
      deadokLoop h.node k n i = .ok (some j)) ?_ hlt
    intro n x ih hx hreach
    obtain ⟨nd, hnd⟩ := exists_get hx
    have hcell := cell_of_get hnd
    rw [deadokLoop, idx_of_get hnd, Rust.ok_bind]
    by_cases heq : x = j
    · rw [heq] at hcell
      rw [hcell] at hj
      rw [if_pos hj, heq]
    · have hfail : ¬equalkeyDeadok k nd.key = true := by
        intro htest
        exact heq (hfirst x hreach (by rw [hcell]; exact htest))
      obtain ⟨z, hz, hzj⟩ := hreach.eq_or_step.resolve_left heq
      have hsucc := succ_of_get hnd
      have hnext : nd.next ≠ 0 := by
        intro h0
        rw [if_pos h0, hz] at hsucc
        cases hsucc
      rw [if_neg hnext, hz] at hsucc
      rw [if_neg hfail, if_neg hnext, ← Option.some.inj hsucc]
      exact ih z hz (hinv.lt_of_succ hz) hzj
  · exact fun hi => absurd hi hlt

/-- The position of a key that was alive at the start is found, even if the key has died since. -/
theorem findindex_spec {t₀ : Table V} (h₀ : Inv hs t₀) (h : Inv hs t) (hfrozen : Frozen t₀ t)
    (hk : keyAtPos t₀ i = some k) : findindex hs t k (realasize t) = .ok (.ok (i + 1)) := by
  have hnormal := normal_of_keyAtPos h₀ hk
  have hsize := h₀.size
  have hnil : k ≠ .nil := by
    rintro rfl
    cases hnormal
  rw [findindex, h.realasize_eq, hfrozen.array_eq, if_neg hnil]
  by_cases hi : i < t₀.array.length
  · have hpos := pos_of_keyAtPos h₀ hi hk
    rw [keyAtPos_array hi] at hk
    obtain rfl := Option.some.inj hk
    have hindex : (Key.int (Int64.ofNat (i + 1))).index = i + 1 := by
      have hu : (Int64.ofNat (i + 1) - 1).toUInt64.toNat = i := Option.some.inj hpos
      rw [Key.index, arrayindex_eq, hu, if_pos (by omega)]
    rw [hindex, if_pos (by omega)]
  · have hlive := (keyAtPos_node (Nat.le_of_not_lt hi)).mp hk
    generalize hj : i - t₀.array.length = j at hlive
    have hout : ¬(0 < k.index ∧ k.index ≤ t₀.array.length) := by
      cases k with
      | int x =>
        rw [Key.index, arrayindex_eq]
        have hle := inArray_false_iff.mp (h₀.apart ⟨j, hlive⟩) _ rfl
        split_ifs <;> omega
      | _ => exact fun hpos => absurd hpos.1 (Nat.lt_irrefl 0)
    rw [if_neg hout]
    have hdead : (cell t.hash.node j).1 = .live k ∨ (k.collectable = true ∧ (cell t.hash.node j).1 = .dead k) := by
      rcases hfrozen.key j with heq | ⟨k', hc, hlive', hdead⟩
      · exact .inl (heq.trans hlive)
      · obtain rfl := NodeKey.live.inj (hlive.symm.trans hlive')
        exact .inr ⟨hc, hdead⟩
    have hkeyAt : keyAt (cell t.hash.node) j = some k := by
      rcases hdead with hlive | ⟨-, hdead⟩
      exacts [keyAt_of_live hlive, keyAt_of_dead hdead]
    have hloop := deadokLoop_spec (k := k) h.hash (i := mainpositionTV hs t.hash.lsizenode k) (j := j)
      (by rw [h.hash.length_eq]; exact mainpositionTV_lt hs _ _) (h.hash.scatter.reach hkeyAt) ?_ ?_
    · rw [hloop]
      show Except.ok (Except.ok (j + 1 + t₀.array.length)) = _
      rw [show j + 1 + t₀.array.length = i + 1 by omega]
    · rcases hdead with hlive | ⟨hc, hdead⟩
      · rw [hlive]
        exact (equalkey_iff hnormal).mpr rfl
      · rw [hdead, equalkeyDeadok, hc]
        simp
    · intro x hreach hx
      -- the node was the only one where the key was alive, and dead nodes of the key come later
      cases hcell : (cell t.hash.node x).1 with
      | free =>
        rw [hcell] at hx
        cases hx
      | live k' =>
        rw [hcell] at hx
        obtain rfl := (equalkey_iff hnormal).mp hx
        exact h₀.hash.content.inj (hfrozen.live hcell) hlive
      | dead k' =>
        rw [hcell, equalkeyDeadok, Bool.and_eq_true, decide_eq_true_eq] at hx
        obtain rfl := hx.2
        rcases hfrozen.key x with heq | ⟨k', -, hlive', hdead'⟩
        · rw [hcell] at heq
          have hback := h₀.hash.first hlive heq.symm
          rw [hfrozen.succ_eq] at hreach
          exact hreach.antisymm h₀.hash.scatter.forest hback
        · rw [hcell] at hdead'
          obtain rfl := NodeKey.dead.inj hdead'
          exact h₀.hash.content.inj hlive' hlive

end

/-! ## Traversals -/

section

variable {V : Type} (hs : Hashes) (d : Nat)

/-- An operation that inserts no key: what it writes to has a slot. -/
def Op.Quiet (t : Table V) : Op V → Prop
  | .set k _ => ∀ t' s, Table.get hs t k = .ok (t', s) → s ≠ .absent
  | .setint i _ => ∀ t' s, Table.getint t i = .ok (t', s) → s ≠ .absent
  | .resize .. => False
  | _ => True

/-- A traversal of the table `t₀`: it is at `t` now, the last key is the one given, and those before have been returned.
All tables on the way have the property `P`. -/
inductive Traversal (P : Table V → Prop) (t₀ : Table V) : Table V → Key → List Key → Prop
  | start : P t₀ → Traversal P t₀ t₀ .nil []
  | write {t t' : Table V} {last : Key} {seen : List Key} {op : Op V} {r : Result V} : 
      Traversal P t₀ t last seen → op.Quiet hs t → op.exec hs d t = .ok (t', r) → P t' → Traversal P t₀ t' last seen
  | next {t : Table V} {last : Key} {seen : List Key} {k : Key} {v : V} :
      Traversal P t₀ t last seen → next_raw hs t last = .ok (.ok (some (k, v))) → Traversal P t₀ t k (seen ++ [k])

end

section

variable {V : Type} {hs : Hashes} {d : Nat} {P : Table V → Prop} {t₀ t : Table V} {last : Key} {seen : List Key}

theorem exec_frozen (h : Inv hs t) {op : Op V} (hq : op.Quiet hs t) {t' : Table V} {r : Result V}
    (hexec : op.exec hs d t = .ok (t', r)) : Frozen t t' := by
  have hlimit : ∀ a, Frozen t { t with alimit := a } := fun a => ⟨rfl, rfl, rfl, rfl, fun _ => .inl rfl⟩
  cases op with
  | get k =>
    obtain ⟨a, s, hget, hinv, hslot⟩ := get_spec h k
    obtain ⟨x, hload, -⟩ := load_spec hinv (show SlotOf { t with alimit := a } _ s from hslot)
    rw [Op.exec, hget, Rust.ok_bind] at hexec
    dsimp only at hexec
    rw [hload, Rust.ok_bind] at hexec
    cases hexec
    exact hlimit a
  | getint i =>
    obtain ⟨a, s, hget, hinv, hslot⟩ := getint_spec h i
    obtain ⟨x, hload, -⟩ := load_spec hinv (show SlotOf { t with alimit := a } _ s from hslot)
    rw [Op.exec, hget, Rust.ok_bind] at hexec
    dsimp only at hexec
    rw [hload, Rust.ok_bind] at hexec
    cases hexec
    exact hlimit a
  | set k x =>
    obtain ⟨a, s, hget, -, -⟩ := get_spec h k
    rw [Op.exec, Table.set, hget, Rust.ok_bind] at hexec
    dsimp only at hexec
    rw [finishset_of_ne _ (hq _ _ hget)] at hexec
    cases hst : store { t with alimit := a } s x with
    | error e =>
      rw [hst] at hexec
      cases hexec
    | ok t₁ =>
      rw [hst] at hexec
      cases hexec
      exact (hlimit a).trans (store_frozen hst)
  | setint i x =>
    obtain ⟨a, s, hget, -, -⟩ := getint_spec h i
    have hset : setint (newkey hs (d + 2)) t i x = store { t with alimit := a } s x := by
      rw [setint, hget, Rust.ok_bind]
      cases s with
      | absent => exact absurd rfl (hq _ _ hget)
      | array | node => rfl
    rw [Op.exec, hset] at hexec
    cases hst : store { t with alimit := a } s x with
    | error e =>
      rw [hst] at hexec
      cases hexec
    | ok t₁ =>
      rw [hst] at hexec
      cases hexec
      exact (hlimit a).trans (store_frozen hst)
  | resize => exact hq.elim
  | getn =>
    obtain ⟨t₁, n, heq, ⟨-, harr, hhash⟩, -⟩ := getn_spec h
    rw [Op.exec, heq, Rust.ok_bind] at hexec
    cases hexec
    exact ⟨by rw [harr], by rw [hhash], by rw [hhash], by rw [hhash], fun _ => .inl (by rw [hhash])⟩
  | clearKey i =>
    cases hexec
    exact clearKey_frozen t i

theorem Op.Quiet.fits {op : Op V} (hq : op.Quiet hs t) : op.Fits t := by
  cases op with
  | resize => exact hq.elim
  | _ => trivial

theorem Traversal.holds (h : Traversal hs d P t₀ t last seen) : P t := by
  induction h with
  | start hp => exact hp
  | write _ _ _ hp => exact hp
  | next _ _ ih => exact ih

/-- Where a traversal is: all positions below `b` are done, and the keys that were returned are those of positions below
`b`, in order. -/
structure Visited (hs : Hashes) (P : Table V → Prop) (t₀ t : Table V) (last : Key) (seen : List Key) (b : Nat) : Prop where
  represents : ∃ m, Represents hs t m
  frozen : Frozen t₀ t
  last_eq : (last = .nil ∧ b = 0) ∨ ∃ i, b = i + 1 ∧ keyAtPos t₀ i = some last
  order : ∃ is : List Nat, is.Pairwise (· < ·) ∧ (∀ i ∈ is, i < b) ∧ seen.map some = is.map (keyAtPos t₀)
  covered : ∀ k c, canon k = some c → (∀ t, P t → ∃ v, lookup hs t k = .ok (some v)) →
    ∀ m < b, keyAtPos t₀ m = some c → c ∈ seen

theorem Represents.holds_of_lookup {m : Map V} (h : Represents hs t m) {k : Key} {v : V}
    (hv : lookup hs t k = .ok (some v)) : ∃ c, canon k = some c ∧ Holds t c v := by
  rw [h.lookup_eq, Except.ok.injEq] at hv
  obtain ⟨c, hc, hm⟩ := Option.bind_eq_some_iff.mp hv
  exact ⟨c, hc, (h.holds c v).mpr hm⟩

theorem Visited.next_raw_eq {b : Nat} (h₀ : Inv hs t₀) (h : Visited hs P t₀ t last seen b) :
    next_raw hs t last = (nextFrom t b).map .ok := by
  obtain ⟨m, hm⟩ := h.represents
  have hfind : findindex hs t last (realasize t) = .ok (.ok b) := by
    rcases h.last_eq with ⟨rfl, rfl⟩ | ⟨i, rfl, hi⟩
    · rfl
    · exact findindex_spec h₀ hm.inv h.frozen hi
  rw [next_raw, hfind, Rust.ok_bind]

/-- The call goes to the first entry that is not done. -/
theorem Visited.next {b : Nat} (h₀ : Inv hs t₀) (h : Visited hs P t₀ t last seen b) (hp : P t) {k : Key} {v : V}
    (hnext : next_raw hs t last = .ok (.ok (some (k, v)))) : ∃ b', Visited hs P t₀ t k (seen ++ [k]) b' := by
  obtain ⟨m, hm⟩ := h.represents
  rw [h.next_raw_eq h₀] at hnext
  obtain ⟨x, heq, ⟨rfl, -⟩ | ⟨j, hle, rfl, -, hskip⟩⟩ := nextFrom_spec hm.inv b
  · rw [heq] at hnext
    cases hnext
  rw [heq] at hnext
  have hentry : entryAt t j = some (k, v) := Except.ok.inj (Except.ok.inj hnext)
  have hkey := h.frozen.keyAtPos (entryAt_eq_some.mp hentry).1
  obtain ⟨is, hpair, hlt, hmap⟩ := h.order
  refine ⟨j + 1, h.represents, h.frozen, .inr ⟨j, rfl, hkey⟩, ⟨is ++ [j], ?_, ?_, ?_⟩, ?_⟩
  · rw [List.pairwise_append]
    refine ⟨hpair, List.pairwise_singleton _ j, fun i hi i' hi' => ?_⟩
    rw [List.mem_singleton.mp hi']
    exact Nat.lt_of_lt_of_le (hlt i hi) hle
  · intro i hi
    rcases List.mem_append.mp hi with hi | hi
    · have := hlt i hi
      omega
    · rw [List.mem_singleton.mp hi]
      omega
  · rw [List.map_append, List.map_append, hmap, List.map_singleton, List.map_singleton, hkey]
  · intro k' c hc hheld i hi hk'
    rcases Nat.lt_or_ge i b with hib | hib
    · exact List.mem_append_left _ (h.covered k' c hc hheld i hib hk')
    rcases Nat.lt_succ_iff_lt_or_eq.mp hi with hij | rfl
    · -- a position with a value is not passed over
      obtain ⟨v', hv'⟩ := hheld t hp
      obtain ⟨c', hc', hhold⟩ := hm.holds_of_lookup hv'
      obtain rfl := Option.some.inj (hc.symm.trans hc')
      obtain ⟨i', hi'⟩ := (holds_iff_entryAt hm.inv).mp hhold
      have heq' := keyAtPos_inj h₀ (h.frozen.keyAtPos (entryAt_eq_some.mp hi').1) hk'
      rw [heq', hskip i hib hij] at hi'
      cases hi'
    · rw [hkey] at hk'
      rw [← Option.some.inj hk']
      exact List.mem_append_right _ (List.mem_singleton.mpr rfl)

theorem Traversal.visited (h₀ : Reachable hs d t₀) (h : Traversal hs d P t₀ t last seen) :
    ∃ b, Visited hs P t₀ t last seen b := by
  obtain ⟨m₀, hm₀⟩ := h₀.represents
  induction h with
  | start hp =>
    exact ⟨0, ⟨m₀, hm₀⟩, .refl t₀, .inl ⟨rfl, rfl⟩, ⟨[], .nil, (fun i hi => nomatch hi), rfl⟩,
      fun k c _ _ m hm => absurd hm (Nat.not_lt_zero m)⟩
  | write htr hq hexec hp ih =>
    obtain ⟨b, hb⟩ := ih
    obtain ⟨m, hm⟩ := hb.represents
    have hfrozen := hb.frozen.trans (exec_frozen hm.inv hq hexec)
    rcases hm.exec (d := d) hq.fits with ⟨-, herr⟩ | ⟨t'', heq, ht''⟩
    · rw [hexec] at herr
      cases herr
    · rw [hexec, Except.ok.injEq, Prod.mk.injEq] at heq
      exact ⟨b, ⟨_, heq.1 ▸ ht''⟩, hfrozen, hb.last_eq, hb.order, hb.covered⟩
  | next htr hnext ih =>
    obtain ⟨b, hb⟩ := ih
    exact hb.next hm₀.inv htr.holds hnext

theorem Visited.nodup {b : Nat} (h₀ : Inv hs t₀) (h : Visited hs P t₀ t last seen b) :
    seen.Nodup ∧ seen.length ≤ positions t₀ := by
  obtain ⟨is, hpair, -, hmap⟩ := h.order
  have hnodup : is.Nodup := hpair.imp Nat.ne_of_lt
  have hkey : ∀ i ∈ is, ∃ k, keyAtPos t₀ i = some k := by
    intro i hi
    have hmem : keyAtPos t₀ i ∈ seen.map some := hmap ▸ List.mem_map_of_mem hi
    obtain ⟨k, -, hk⟩ := List.mem_map.mp hmem
    exact ⟨k, hk.symm⟩
  constructor
  · refine List.Nodup.of_map some ?_
    rw [hmap]
    refine List.Nodup.map_on (fun i hi j _ heq => ?_) hnodup
    obtain ⟨k, hk⟩ := hkey i hi
    exact keyAtPos_inj h₀ hk (heq ▸ hk)
  · have hlen := congrArg List.length hmap
    rw [List.length_map, List.length_map] at hlen
    have hsub : is ⊆ List.range (positions t₀) := by
      intro i hi
      obtain ⟨k, hk⟩ := hkey i hi
      exact List.mem_range.mpr (lt_positions hk)
    have hle := (hnodup.subperm hsub).length_le
    rw [List.length_range] at hle
    omega

/-- In every traversal of a table that inserts no key, each call of `next_raw` succeeds, with an entry the table has;
no key is returned twice, and there are no more calls than positions. At the end each key that has had a value all the
time has been returned. -/
theorem traversal_complete (h₀ : Reachable hs d t₀) (h : Traversal hs d P t₀ t last seen) :
    (∃ x, next_raw hs t last = .ok (.ok x) ∧ ∀ k v, x = some (k, v) → lookup hs t k = .ok (some v)) ∧
      seen.Nodup ∧ seen.length ≤ positions t₀ ∧
      ∀ k, (∀ t, P t → ∃ v, lookup hs t k = .ok (some v)) → next_raw hs t last = .ok (.ok none) →
        ∃ c, canon k = some c ∧ seen.count c = 1 := by
  obtain ⟨m₀, hm₀⟩ := h₀.represents
  obtain ⟨b, hb⟩ := h.visited h₀
  obtain ⟨m, hm⟩ := hb.represents
  obtain ⟨hnodup, hlen⟩ := hb.nodup hm₀.inv
  obtain ⟨x, heq, hx⟩ := nextFrom_spec hm.inv b
  have hnext : next_raw hs t last = .ok (.ok x) := by
    rw [hb.next_raw_eq hm₀.inv, heq]
    rfl
  refine ⟨⟨x, hnext, fun k v hkv => ?_⟩, hnodup, hlen, fun k hheld hend => ?_⟩
  · rcases hx with ⟨rfl, -⟩ | ⟨j, -, rfl, -, -⟩
    · cases hkv
    · have hhold := (holds_iff_entryAt hm.inv).mpr ⟨j, hkv⟩
      rw [hm.lookup_eq, canon_eq_some.mpr (hhold.normal hm.inv), Option.bind_some, (hm.holds k v).mp hhold]
  · obtain ⟨v, hv⟩ := hheld t h.holds
    obtain ⟨c, hc, hhold⟩ := hm.holds_of_lookup hv
    obtain ⟨i, hi⟩ := (holds_iff_entryAt hm.inv).mp hhold
    refine ⟨c, hc, List.count_eq_one_of_mem hnodup (hb.covered k c hc hheld i ?_ ?_)⟩
    · rw [hnext] at hend
      obtain rfl : x = none := Except.ok.inj (Except.ok.inj hend)
      rcases hx with ⟨-, hnone⟩ | ⟨j, -, heq', hsome, -⟩
      · by_contra hge
        rw [hnone i (Nat.le_of_not_lt hge)] at hi
        cases hi
      · rw [← heq'] at hsome
        cases hsome
    · exact hb.frozen.keyAtPos (entryAt_eq_some.mp hi).1

end

/-- A table with an array part, and two strings that collide. -/
def collided : Table Nat :=
  ⟨false, 1, [some 5], ⟨1, [⟨.live (.shortStr 1), some 6, 1⟩, ⟨.live (.shortStr 2), some 7, 0⟩], some 1⟩⟩

theorem collided_reachable : Reachable sameHash 0 collided :=
  ⟨[.resize 1 2, .setint 1 (some 5), .set (.shortStr 1) (some 6), .set (.shortStr 2) (some 7)], _,
    ⟨⟨by decide, Nat.zero_le _⟩, fun _ _ _ => ⟨trivial, fun _ _ _ => ⟨trivial, fun _ _ _ => ⟨trivial, fun _ _ _ => trivial⟩⟩⟩⟩,
    rfl⟩

/-- The table after the first of the strings has been removed, with the key it leaves. -/
def removed (key : NodeKey) : Table Nat :=
  ⟨false, 1, [some 5], ⟨1, [⟨key, none, 1⟩, ⟨.live (.shortStr 2), some 7, 0⟩], some 1⟩⟩

/-- The string is removed after it has been returned, and its node dies before the next call. -/
theorem traversal_complete_dead :
    (∃ x, next_raw sameHash (removed (.dead (.shortStr 1))) (.shortStr 1) = .ok (.ok x)) ∧
      [Key.int 1, .shortStr 1, .shortStr 2].Nodup ∧
      next_raw sameHash (removed (.dead (.shortStr 1))) (.shortStr 2) = .ok (.ok none) ∧
      ∃ c, canon (.shortStr 2) = some c ∧ [Key.int 1, .shortStr 1, .shortStr 2].count c = 1 := by
  have h₂ : Traversal sameHash 0 (fun t => ∃ v, lookup sameHash t (.shortStr 2) = .ok (some v)) collided collided
      (.shortStr 1) [.int 1, .shortStr 1] := .next (v := 6) (.next (v := 5) (.start ⟨7, rfl⟩) rfl) rfl
  have hset : Op.Quiet sameHash collided (.set (.shortStr 1) none) := fun t' s h => by cases h; nofun
  have h₃ : Traversal sameHash 0 (fun t => ∃ v, lookup sameHash t (.shortStr 2) = .ok (some v)) collided
      (removed (.live (.shortStr 1))) (.shortStr 1) [.int 1, .shortStr 1] := h₂.write hset rfl ⟨7, rfl⟩
  have hclear : Op.Quiet sameHash (removed (.live (.shortStr 1))) (.clearKey 0) := trivial
  have h₄ : Traversal sameHash 0 (fun t => ∃ v, lookup sameHash t (.shortStr 2) = .ok (some v)) collided
      (removed (.dead (.shortStr 1))) (.shortStr 1) [.int 1, .shortStr 1] := h₃.write hclear rfl ⟨7, rfl⟩
  have h₅ : Traversal sameHash 0 (fun t => ∃ v, lookup sameHash t (.shortStr 2) = .ok (some v)) collided
      (removed (.dead (.shortStr 1))) (.shortStr 2) [.int 1, .shortStr 1, .shortStr 2] := h₄.next (v := 7) rfl
  obtain ⟨⟨x, hx, -⟩, -⟩ := traversal_complete collided_reachable h₄
  obtain ⟨-, hnodup, -, hall⟩ := traversal_complete collided_reachable h₅
  exact ⟨⟨x, hx⟩, hnodup, rfl, hall (.shortStr 2) (fun _ h => h) rfl⟩

end Tsuki.Table
