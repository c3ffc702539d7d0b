import Tsuki.Table.Run

/-!
# The length of a table

The border `luaH_getn` finds, in terms of what lookups find, and what the hint it leaves still tells: the size of the
array part, and which integers are indices of it. The two binary searches keep a filled slot at their left and an
empty one at their right. The lookup of the slots is that of the map the table stands for, and the hint is a bound
inside the array part, so it changes no lookup.
-/

namespace Tsuki.Table

variable {V : Type} {hs : Hashes} {d : Nat} {t : Table V}

/-- The slot of an index of the array part is the slot of the array part. -/
theorem getint_array (h : Inv hs t) {u : Nat} (hu : u < t.array.length) :
    ∃ t', getint t (Int64.ofNat (u + 1)) = .ok (t', .array u) := by
  have hsize := h.size
  have hpos : (Key.int (Int64.ofNat (u + 1))).pos = some u := pos_ofNat (by omega)
  have hin : ∀ {n}, (Key.int (Int64.ofNat (u + 1))).inArray n = false → n ≤ u :=
    fun hout => inArray_false_iff.mp hout u hpos
  obtain ⟨a, s, hget, -, hslot⟩ := getint_spec h (Int64.ofNat (u + 1))
  cases s with
  | absent => exact absurd hu (Nat.not_lt.mpr (hin (hslot _ rfl).2))
  | array u' =>
    obtain ⟨-, k, hk, hpos'⟩ := hslot
    rw [← Option.some.inj hk, hpos] at hpos'
    obtain rfl := Option.some.inj hpos'
    exact ⟨_, hget⟩
  | node j =>
    obtain ⟨k, hk, hkey⟩ := hslot
    rw [← Option.some.inj hk] at hkey
    exact absurd hu (Nat.not_lt.mpr (hin (h.apart ⟨j, hkey⟩)))

/-- An index `luaH_getint` finds in the array part is inside. -/
theorem lt_of_getint_array (h : Inv hs t) {i : Int64} {t' : Table V} {u : Nat} (hget : getint t i = .ok (t', .array u)) :
    u < t.array.length := by
  obtain ⟨a, s, heq, -, hslot⟩ := getint_spec h i
  rw [hget, Except.ok.injEq, Prod.mk.injEq] at heq
  obtain ⟨-, rfl⟩ := heq
  exact hslot.1

theorem Represents.filled_iff {m : Map V} (h : Represents hs t m) (n : Nat) :
    Filled t n ↔ ∃ v, lookup hs t (.int (Int64.ofNat n)) = .ok (some v) := by
  refine exists_congr fun v => ?_
  rw [h.lookup_eq, h.holds, show canon (.int (Int64.ofNat n)) = some (.int (Int64.ofNat n)) from rfl, Option.bind_some,
    Except.ok.injEq]

theorem Represents.not_filled_iff {m : Map V} (h : Represents hs t m) (n : Nat) :
    ¬Filled t n ↔ lookup hs t (.int (Int64.ofNat n)) = .ok none := by
  rw [h.filled_iff, h.lookup_eq]
  cases (canon (.int (Int64.ofNat n))).bind m <;> simp

/-- On every table `luaH_getn` comes to an end with a border. All entries stay where they are, the size of the array part
does not change, and `luaH_getint` finds each slot of it and none beyond. -/
theorem getn_border (h : Reachable hs d t) :
    ∃ t' n, getn t = .ok (t', n) ∧ n ≤ 2 ^ 63 - 1 ∧
      (n = 0 ∨ ∃ v, lookup hs t (.int (Int64.ofNat n)) = .ok (some v)) ∧
      (lookup hs t (.int (Int64.ofNat (n + 1))) = .ok none ∨ n = 2 ^ 63 - 1) ∧
      t'.array = t.array ∧ t'.hash = t.hash ∧ (∀ k, lookup hs t' k = lookup hs t k) ∧
      realasize t' = realasize t ∧ realasize t' = t'.array.length ∧
      (∀ u < t'.array.length, ∃ t'', getint t' (Int64.ofNat (u + 1)) = .ok (t'', .array u)) ∧
      ∀ i t'' u, getint t' i = .ok (t'', .array u) → u < t'.array.length := by
  obtain ⟨m, hm⟩ := h.represents
  obtain ⟨t', n, heq, ht', hn⟩ := getn_spec hm.inv
  have hm' := hm.of_holds ht'.1 ht'.holds
  refine ⟨t', n, heq, hn.le, hn.filled.imp_right (hm.filled_iff n).mp, hn.empty.imp_left (hm.not_filled_iff _).mp,
    ht'.2.1, ht'.2.2, fun k => ?_, ?_, ht'.1.realasize_eq, fun u hu => getint_array ht'.1 hu, fun i t'' u =>
    lt_of_getint_array ht'.1⟩
  · rw [hm.lookup_eq, hm'.lookup_eq]
  · rw [ht'.1.realasize_eq, hm.inv.realasize_eq, ht'.2.1]

/-- Four slots, of which the second is nil again. -/
theorem getn_border_hint : ∃ t : Table Nat,
    (∃ rs, run sameHash 0 (new Nat) [.resize 4 0, .setint 1 (some 5), .setint 3 (some 7), .getn] = .ok (t, rs)) ∧
      t.alimit = 3 ∧ ∃ t' n, getn t = .ok (t', n) ∧ (n = 0 ∨ ∃ v, lookup sameHash t (.int (Int64.ofNat n)) = .ok (some v)) ∧
      (lookup sameHash t (.int (Int64.ofNat (n + 1))) = .ok none ∨ n = 2 ^ 63 - 1) := by
  refine ⟨_, ⟨_, rfl⟩, rfl, ?_⟩
  obtain ⟨t', n, heq, -, hn, hempty, -⟩ := @getn_border Nat sameHash 0 _ ⟨[.resize 4 0, .setint 1 (some 5),
    .setint 3 (some 7), .getn], _, ⟨⟨by decide, Nat.zero_le _⟩, fun _ _ _ => ⟨trivial, fun _ _ _ => ⟨trivial, fun _ _ _ =>
      ⟨trivial, fun _ _ _ => trivial⟩⟩⟩⟩, rfl⟩
  exact ⟨t', n, heq, hn, hempty⟩

end Tsuki.Table
