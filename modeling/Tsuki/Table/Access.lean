import Tsuki.Table.Insert
import Tsuki.Table.Sizes

/-!
# Lookups and stores

The invariant of a table, the pairs it holds, and the specification of the operations that neither insert nor move a
pair: a lookup finds the slot of the key, and a store changes the value of that key and no other.
-/

namespace Tsuki.Table

variable {V : Type} {hs : Hashes}

/-! ## Tables -/

/-- The array part ends at `alimit`, or at the next power of two where `alimit` is a hint; no integer key in its range
is in the hash part. -/
structure Inv (hs : Hashes) (t : Table V) : Prop where
  hash : t.hash.Inv hs
  size : t.array.length ≤ 2 ^ 31
  limit : (t.hint = false ∧ t.alimit = t.array.length) ∨
    (t.hint = true ∧ ∃ k, t.array.length = 2 ^ k ∧ 2 ^ k < 2 * t.alimit ∧ t.alimit ≤ 2 ^ k)
  apart : ∀ {k}, HasKey (cell t.hash.node) k → k.inArray t.array.length = false

/-- The position of a key in the array part. -/
def Key.pos : Key → Option Nat
  | .int i => some (i - 1).toUInt64.toNat
  | _ => none

/-- The table holds the pair. -/
def Holds (t : Table V) (k : Key) (v : V) : Prop :=
  (∃ u, k.pos = some u ∧ t.array[u]? = some (some v)) ∨ CellHolds (cell t.hash.node) k v

/-- `t'` is `t` with the value `x` for `k`. -/
def Updates (t t' : Table V) (k : Key) (x : Option V) : Prop :=
  ∀ k' v', Holds t' k' v' ↔ (k' = k ∧ x = some v') ∨ (k' ≠ k ∧ Holds t k' v')

theorem new_inv : Inv hs (new V) := by
  refine ⟨dummyNode_inv hs, Nat.zero_le _, .inl ⟨rfl, rfl⟩, ?_⟩
  rintro k ⟨i, hi⟩
  rw [show (new V).hash.node = (dummyNode V).node from rfl, cell_of_fresh dummyNode_fresh] at hi
  cases hi

theorem not_holds_new (k : Key) (v : V) : ¬Holds (new V) k v := by
  rintro (⟨u, -, hu⟩ | ⟨i, hi⟩)
  · cases hu
  · rw [show (new V).hash.node = (dummyNode V).node from rfl, cell_of_fresh dummyNode_fresh] at hi
    cases hi

/-! ## Positions -/

theorem inArray_iff {k : Key} {n : Nat} : k.inArray n = true ↔ ∃ u, k.pos = some u ∧ u < n := by
  cases k <;> simp [Key.inArray, Key.pos]

theorem inArray_false_iff {k : Key} {n : Nat} : k.inArray n = false ↔ ∀ u, k.pos = some u → n ≤ u := by
  cases k <;> simp [Key.inArray, Key.pos]

theorem pos_inj {k k' : Key} {u : Nat} (h : k.pos = some u) (h' : k'.pos = some u) : k = k' := by
  cases k with
  | int i =>
    cases k' with
    | int j =>
      simp only [Key.pos, Option.some.injEq] at h h'
      have hsub : i - 1 = j - 1 := congrArg Int64.ofUInt64 (UInt64.toNat_inj.mp (h.trans h'.symm))
      rw [← Int64.sub_add_cancel i 1, hsub, Int64.sub_add_cancel]
    | _ => cases h'
  | _ => cases h

theorem pos_lt {k : Key} {u : Nat} (h : k.pos = some u) : u < 2 ^ 64 := by
  cases k with
  | int i =>
    rw [← Option.some.inj h]
    exact UInt64.toNat_lt _
  | _ => cases h

theorem normal_of_pos {k : Key} {u : Nat} (h : k.pos = some u) : Normal k := by
  cases k with
  | int i => rfl
  | _ => cases h

theorem pos_ofNat {u : Nat} (hu : u < 2 ^ 63) : (Key.int (Int64.ofNat (u + 1))).pos = some u := by
  have hsub : Int64.ofNat (u + 1) - 1 = Int64.ofNat u := by
    rw [Int64.ofNat_add]
    exact Int64.add_sub_cancel _ _
  rw [Key.pos, hsub, Option.some.injEq]
  show (UInt64.ofNat u).toNat = u
  rw [UInt64.toNat_ofNat']
  omega

/-! ## The size of the array part -/

theorem Inv.realasize_eq {t : Table V} (h : Inv hs t) : realasize t = t.array.length := by
  rcases h.limit with ⟨hhint, hlen⟩ | ⟨hhint, k, hlen, hlow, hhigh⟩
  · rw [realasize, if_pos (.inl hhint), hlen]
  · have hk : k ≤ 31 := (Nat.pow_le_pow_iff_right (by omega)).mp (hlen ▸ h.size)
    rw [realasize_of_hint hk hhint hlow hhigh, hlen]

theorem Inv.alimit_le {t : Table V} (h : Inv hs t) : t.alimit ≤ t.array.length := by
  rcases h.limit with ⟨-, hlen⟩ | ⟨-, k, hlen, -, hhigh⟩ <;> omega

theorem Inv.setlimittosize {t : Table V} (h : Inv hs t) :
    setlimittosize t = { t with alimit := t.array.length, hint := false } ∧ Inv hs (setlimittosize t) := by
  have heq : Table.setlimittosize t = { t with alimit := t.array.length, hint := false } := by
    rw [Table.setlimittosize, h.realasize_eq]
  refine ⟨heq, ?_⟩
  rw [heq]
  exact ⟨h.hash, h.size, .inl ⟨rfl, rfl⟩, h.apart⟩

/-! ## Lookups -/

/-- The slot of the key `c`, or that the table has none for it. -/
def SlotOf (t : Table V) (c : Option Key) : Slot → Prop
  | .absent => ∀ k, c = some k → ¬HasKey (cell t.hash.node) k ∧ k.inArray t.array.length = false
  | .array u => u < t.array.length ∧ ∃ k, c = some k ∧ k.pos = some u
  | .node j => ∃ k, c = some k ∧ (cell t.hash.node j).1 = .live k

/-- A search in the hash part, for a key that is not in the range of the array part. -/
theorem Found.slotOf {t : Table V} {c : Option Key} {s : Slot} (h : Found (cell t.hash.node) c s)
    (hc : ∀ k, c = some k → k.inArray t.array.length = false) : SlotOf t c s := by
  cases s with
  | absent => exact fun k hk => ⟨h k hk, hc k hk⟩
  | array => exact h.elim
  | node j => exact h

theorem getint_spec {t : Table V} (h : Inv hs t) (i : Int64) :
    ∃ a s, getint t i = .ok ({ t with alimit := a }, s) ∧ Inv hs { t with alimit := a } ∧
      SlotOf t (some (.int i)) s := by
  have hpos : (Key.int i).pos = some (i - 1).toUInt64.toNat := rfl
  have hu := pos_lt hpos
  unfold getint
  dsimp only
  generalize (i - 1).toUInt64.toNat = u at hpos hu
  by_cases hlt : u < t.alimit
  · rw [if_pos hlt]
    exact ⟨t.alimit, _, rfl, h, Nat.lt_of_lt_of_le hlt h.alimit_le, _, rfl, hpos⟩
  rw [if_neg hlt]
  by_cases hbit : t.hint ∧ u &&& (2 ^ 64 - t.alimit) < t.alimit
  · rw [if_pos hbit]
    obtain ⟨hhint, k, hlen, hlow, hhigh⟩ : t.hint = true ∧ ∃ k, t.array.length = 2 ^ k ∧
        2 ^ k < 2 * t.alimit ∧ t.alimit ≤ 2 ^ k := by
      rcases h.limit with ⟨hhint, -⟩ | hlimit
      · rw [hhint] at hbit
        exact absurd hbit.1 Bool.false_ne_true
      · exact hlimit
    have hsize := h.size
    have hk : k ≤ 31 := (Nat.pow_le_pow_iff_right (by omega)).mp (hlen ▸ hsize)
    have huk : u < 2 ^ k := (and_neg_lt_iff hlow hhigh (by omega) hu (by omega)).mp hbit.2
    refine ⟨_, _, rfl, ⟨h.hash, h.size, .inr ⟨hhint, k, hlen, ?_, ?_⟩, h.apart⟩, by omega, _, rfl, hpos⟩ <;>
      (dsimp only; omega)
  · rw [if_neg hbit]
    obtain ⟨s, hsearch, hfound⟩ := searchint_spec h.hash i
    rw [hsearch]
    refine ⟨t.alimit, s, rfl, h, hfound.slotOf fun k hk => ?_⟩
    rw [← Option.some.inj hk, inArray_false_iff]
    intro u' hu'
    rw [hpos] at hu'
    rw [← Option.some.inj hu']
    rcases h.limit with ⟨-, hlen⟩ | ⟨hhint, m, hlen, hlow, hhigh⟩
    · omega
    · have hm : m ≤ 31 := (Nat.pow_le_pow_iff_right (by omega)).mp (hlen ▸ h.size)
      by_contra hlt'
      exact hbit ⟨hhint, (and_neg_lt_iff hlow hhigh (by omega) hu (by omega)).mpr (by omega)⟩

theorem get_float (t : Table V) (f : F64) :
    get hs t (.float f) =
      match f.flttointegerEq with
      | some i => getint t i
      | none => (getgeneric hs t.hash (.float f)).map fun s => (t, s) := rfl

theorem searched_spec {t : Table V} (h : Inv hs t) {r : Rust Slot} {c : Option Key}
    (hr : ∃ s, r = .ok s ∧ Found (cell t.hash.node) c s) (hc : ∀ k, c = some k → k.inArray t.array.length = false) :
    ∃ a s, r.map (fun s => (t, s)) = .ok ({ t with alimit := a }, s) ∧ Inv hs { t with alimit := a } ∧ SlotOf t c s := by
  obtain ⟨s, rfl, hfound⟩ := hr
  exact ⟨t.alimit, s, rfl, h, hfound.slotOf hc⟩

/-- A lookup finds the slot of the key, normalized. -/
theorem get_spec {t : Table V} (h : Inv hs t) (k : Key) :
    ∃ a s, get hs t k = .ok ({ t with alimit := a }, s) ∧ Inv hs { t with alimit := a } ∧ SlotOf t (canon k) s := by
  have hout : ∀ {c : Key}, c.inArray t.array.length = false → ∀ k, some c = some k → k.inArray t.array.length = false :=
    fun hc k hk => by rwa [← Option.some.inj hk]
  cases k with
  | nil => exact ⟨t.alimit, _, rfl, h, fun k hk => by cases hk⟩
  | int i => exact getint_spec h i
  | float f =>
    rw [get_float, canon, normalizeKey]
    cases hf : f.flttointegerEq with
    | some i => exact getint_spec h i
    | none =>
      by_cases hnan : f.isNaN = true
      · dsimp only
        rw [if_pos hnan]
        exact searched_spec h (getgeneric_nan h.hash hnan) fun k hk => by cases hk
      · have hnormal : Normal (.float f) := by rw [Normal, normalizeKey, hf]; simp [hnan]
        dsimp only
        rw [if_neg hnan]
        exact searched_spec h (getgeneric_spec h.hash hnormal) (hout rfl)
  | shortStr p => exact searched_spec h (getshortstr_spec h.hash p) (hout rfl)
  | rustId id => exact searched_spec h (getid_spec h.hash id) (hout rfl)
  | boolean b => exact searched_spec h (getgeneric_spec h.hash (k := .boolean b) rfl) (hout rfl)
  | longStr b => exact searched_spec h (getgeneric_spec h.hash (k := .longStr b) rfl) (hout rfl)
  | fp a p => exact searched_spec h (getgeneric_spec h.hash (k := .fp a p) rfl) (hout rfl)
  | object a p => exact searched_spec h (getgeneric_spec h.hash (k := .object a p) rfl) (hout rfl)

theorem Holds.normal {t : Table V} (h : Inv hs t) {k : Key} {v : V} (hk : Holds t k v) : Normal k := by
  rcases hk with ⟨u, hu, -⟩ | hcell
  · exact normal_of_pos hu
  · obtain ⟨i, hi⟩ := hcell.hasKey
    exact h.hash.content.normal hi

/-- What stands in the slot is what the table holds for the key. -/
theorem load_spec {t : Table V} (h : Inv hs t) {c : Option Key} {s : Slot} (hslot : SlotOf t c s) :
    ∃ x, load t s = .ok x ∧ ∀ v, x = some v ↔ ∃ k, c = some k ∧ Holds t k v := by
  cases s with
  | absent =>
    refine ⟨none, rfl, fun v => ⟨fun hv => (nomatch hv), ?_⟩⟩
    rintro ⟨k, hk, ⟨u, hu, hget⟩ | hcell⟩
    · have hout := inArray_false_iff.mp (hslot k hk).2 u hu
      rw [List.getElem?_eq_none hout] at hget
      cases hget
    · exact absurd hcell.hasKey (hslot k hk).1
  | array u =>
    obtain ⟨hlt, k, rfl, hpos⟩ := hslot
    refine ⟨t.array[u], idx_of_lt hlt, fun v => ⟨fun hv => ⟨k, rfl, .inl ⟨u, hpos, ?_⟩⟩, ?_⟩⟩
    · rw [List.getElem?_eq_getElem hlt, hv]
    · rintro ⟨k', hk', ⟨u', hu', hget⟩ | hcell⟩
      · rw [← Option.some.inj hk', hpos] at hu'
        rw [← Option.some.inj hu', List.getElem?_eq_getElem hlt] at hget
        exact Option.some.inj hget
      · have hout := h.apart hcell.hasKey
        rw [← Option.some.inj hk', inArray_false_iff] at hout
        exact absurd hlt (Nat.not_lt.mpr (hout u hpos))
  | node j =>
    obtain ⟨k, rfl, hkey⟩ := hslot
    obtain ⟨nd, hnd⟩ := exists_get (lt_of_live hkey)
    have hcell := cell_of_get hnd
    refine ⟨nd.val, by rw [load, idx_of_get hnd]; rfl, fun v => ⟨fun hv => ⟨k, rfl, .inr ⟨j, ?_⟩⟩, ?_⟩⟩
    · rw [hcell, hv, ← hkey, hcell]
    · rintro ⟨k', hk', ⟨u, hu, hget⟩ | ⟨i, hi⟩⟩
      · have hout := h.apart ⟨j, hkey⟩
        rw [Option.some.inj hk', inArray_false_iff] at hout
        rw [List.getElem?_eq_none (hout u hu)] at hget
        cases hget
      · rw [← Option.some.inj hk'] at hi
        have hij : i = j := h.hash.content.inj (by rw [hi]) hkey
        rw [hij, hcell] at hi
        exact congrArg Prod.snd hi

/-! ## Stores -/

/-- A change of the table that leaves its sizes as they are. -/
structure SameShape (t t' : Table V) : Prop where
  length_eq : t'.array.length = t.array.length
  alimit_eq : t'.alimit = t.alimit
  hint_eq : t'.hint = t.hint
  capacity_eq : t'.hash.capacity = t.hash.capacity

/-- A store to a slot changes the value of its key. -/
theorem store_spec {t : Table V} (h : Inv hs t) {k : Key} {s : Slot} (hslot : SlotOf t (some k) s)
    (hs' : s ≠ .absent) (x : Option V) :
    ∃ t', store t s x = .ok t' ∧ Inv hs t' ∧ Updates t t' k x ∧ SameShape t t' ∧ t'.hash.used = t.hash.used ∧
      ∀ {k'}, HasKey (cell t'.hash.node) k' → HasKey (cell t.hash.node) k' := by
  cases s with
  | absent => exact absurd rfl hs'
  | array u =>
    obtain ⟨hlt, k', hk', hpos⟩ := hslot
    rw [← Option.some.inj hk'] at hpos
    rw [store, idx_of_lt hlt, Rust.ok_bind]
    refine ⟨_, rfl, ⟨h.hash, ?_, ?_, ?_⟩, fun k' v' => ?_, ⟨List.length_set, rfl, rfl, rfl⟩, rfl, id⟩
    · dsimp only
      rw [List.length_set]
      exact h.size
    · dsimp only
      rw [List.length_set]
      exact h.limit
    · dsimp only
      rw [List.length_set]
      exact h.apart
    · by_cases hkk : k' = k
      · rw [hkk]
        constructor
        · rintro (⟨u', hu', hget⟩ | hcell)
          · rw [hpos] at hu'
            dsimp only at hget
            rw [← Option.some.inj hu', List.getElem?_set_self hlt] at hget
            exact .inl ⟨rfl, Option.some.inj hget⟩
          · exact absurd hlt (Nat.not_lt.mpr (inArray_false_iff.mp (h.apart hcell.hasKey) u hpos))
        · rintro (⟨-, rfl⟩ | ⟨hne, -⟩)
          · exact .inl ⟨u, hpos, List.getElem?_set_self hlt⟩
          · exact absurd rfl hne
      · have hsame : Holds { t with array := t.array.set u x } k' v' ↔ Holds t k' v' := by
          refine or_congr (exists_congr fun u' => and_congr_right fun hu' => ?_) Iff.rfl
          have hne : u ≠ u' := fun heq => hkk (pos_inj hu' (heq ▸ hpos))
          dsimp only
          rw [List.getElem?_set_ne hne]
        rw [hsame]
        exact ⟨fun hold => .inr ⟨hkk, hold⟩, fun hold => hold.resolve_left (fun hn => hkk hn.1) |>.2⟩
  | node j =>
    obtain ⟨k', hk', hkey⟩ := hslot
    rw [← Option.some.inj hk'] at hkey
    obtain ⟨⟨key, val, next⟩, hnd⟩ := exists_get (lt_of_live hkey)
    obtain rfl : key = .live k := by rwa [cell_of_get hnd] at hkey
    rw [store, idx_of_get hnd, Rust.ok_bind]
    have hcontent := h.hash.content.assign hkey x
    obtain ⟨hinv', hcell⟩ := h.hash.rewrite ⟨.live k, x, next⟩ hnd rfl rfl (by simp) (fun _ => id) hcontent
    refine ⟨_, rfl, ⟨hinv', h.size, h.limit, ?_⟩, fun k' v' => ?_, ⟨rfl, rfl, rfl, ?_⟩, ?_, ?_⟩
    · dsimp only
      rw [hcell]
      exact fun hk' => h.apart ((hasKey_assign hkey).mp hk')
    · simp only [Holds, hcell, holds_assign h.hash.content hkey]
      have hout := h.apart ⟨j, hkey⟩
      constructor
      · rintro (⟨u, hu, hget⟩ | hleft | ⟨hne, hold⟩)
        · refine .inr ⟨?_, .inl ⟨u, hu, hget⟩⟩
          rintro rfl
          rw [List.getElem?_eq_none (inArray_false_iff.mp hout u hu)] at hget
          cases hget
        · exact .inl hleft
        · exact .inr ⟨hne, .inr hold⟩
      · rintro (hleft | ⟨hne, harr | hold⟩)
        · exact .inr (.inl hleft)
        · exact .inl harr
        · exact .inr (.inr ⟨hne, hold⟩)
    · simp only [HashPart.capacity, List.length_set]
    · have hfst : ∀ i, (Function.update (cell t.hash.node) j (.live k, x) i).1 = (cell t.hash.node i).1 := by
        intro i
        by_cases hij : i = j
        · rw [hij, Function.update_self, hkey]
        · rw [Function.update_of_ne hij]
      simp only [HashPart.used, used, hcell, hfst, List.length_set]
    · dsimp only
      rw [hcell]
      exact fun hk' => (hasKey_assign hkey).mp hk'

/-- The collector kills keys that have no value, and no pair is lost. -/
theorem clearKey_spec {t : Table V} (h : Inv hs t) (i : Nat) :
    Inv hs (clearKey t i) ∧ ∀ k v, Holds (clearKey t i) k v ↔ Holds t k v := by
  unfold clearKey
  split
  · next k next hnd =>
    split_ifs
    · have hcelli : cell t.hash.node i = (.live k, none) := cell_of_get hnd
      obtain ⟨hinv', hcell⟩ := h.hash.rewrite ⟨.dead k, none, next⟩ hnd rfl rfl (by simp)
        (fun _ hk => nomatch hk) h.hash.content.kill
      refine ⟨⟨hinv', h.size, h.limit, ?_⟩, fun k' v' => ?_⟩
      · dsimp only
        rw [hcell]
        exact fun hk' => h.apart (hasKey_kill hk')
      · simp only [Holds, hcell, holds_kill hcelli]
    · exact ⟨h, fun _ _ => Iff.rfl⟩
  · exact ⟨h, fun _ _ => Iff.rfl⟩

end Tsuki.Table
