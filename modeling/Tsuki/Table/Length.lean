import Tsuki.Table.Access

/-!
# The length operator

`luaH_getn` finds a border: an index with a value, or 0, and none behind it. It moves the hint and changes nothing
else. Both binary searches keep a filled slot below and an empty one above.
-/

namespace Tsuki.Table

variable {V : Type} {hs : Hashes}

/-! ## The array part -/

/-- The slot below `i` is filled, if there is one. -/
def FilledBelow (array : List (Option V)) (i : Nat) : Prop := i = 0 ∨ ∃ v, array[i - 1]? = some (some v)

theorem binsearch_spec (array : List (Option V)) (i j : Nat) (hij : i < j) (hlen : j ≤ array.length)
    (hi : FilledBelow array i) (hj : array[j - 1]? = some none) :
    ∃ b, binsearch array i j = .ok b ∧ i ≤ b ∧ b < j ∧ FilledBelow array b ∧ array[b]? = some none := by
  generalize hd : j - i = d
  induction d using Nat.strongRecOn generalizing i j with
  | ind d ih =>
    rw [binsearch]
    by_cases hlt : 1 < j - i
    · rw [if_pos hlt]
      have hm : (i + j) / 2 - 1 < array.length := by omega
      rw [idx_of_lt hm, Rust.ok_bind]
      have hget := List.getElem?_eq_getElem hm
      cases hx : array[(i + j) / 2 - 1] with
      | none =>
        rw [if_pos (by simp)]
        obtain ⟨b, heq, h1, h2, hb⟩ := ih _ (by omega) i ((i + j) / 2) (by omega) (by omega) hi (by rw [hget, hx]) rfl
        exact ⟨b, heq, h1, by omega, hb⟩
      | some v =>
        rw [if_neg (by simp)]
        obtain ⟨b, heq, h1, h2, hb⟩ := ih _ (by omega) ((i + j) / 2) j (by omega) hlen (.inr ⟨v, by rw [hget, hx]⟩) hj rfl
        exact ⟨b, heq, by omega, h2, hb⟩
    · rw [if_neg hlt]
      exact ⟨i, rfl, le_refl _, hij, hi, by rwa [show j - 1 = i by omega] at hj⟩

/-! ## Borders -/

/-- `t'` is `t` with another hint. -/
def Hinted (hs : Hashes) (t t' : Table V) : Prop := Inv hs t' ∧ t'.array = t.array ∧ t'.hash = t.hash

theorem Hinted.refl {t : Table V} (h : Inv hs t) : Hinted hs t t := ⟨h, rfl, rfl⟩

theorem Hinted.trans {t t' t'' : Table V} (h : Hinted hs t t') (h' : Hinted hs t' t'') : Hinted hs t t'' :=
  ⟨h'.1, h'.2.1.trans h.2.1, h'.2.2.trans h.2.2⟩

theorem Hinted.holds {t t' : Table V} (h : Hinted hs t t') (k : Key) (v : V) : Holds t' k v ↔ Holds t k v := by
  rw [Holds, h.2.1, h.2.2]
  rfl

/-- The table has a value for the index. -/
def Filled (t : Table V) (n : Nat) : Prop := ∃ v, Holds t (.int (Int64.ofNat n)) v

theorem Hinted.filled {t t' : Table V} (h : Hinted hs t t') (n : Nat) : Filled t' n ↔ Filled t n :=
  exists_congr fun v => h.holds _ v

theorem filled_of_not_nil {t : Table V} {n : Nat} (h : false = true ↔ ¬ Filled t n) : Filled t n :=
  Classical.not_not.mp fun hnot => Bool.false_ne_true (h.mpr hnot)

/-- There is a value at `n`, if it is not 0, and none behind it, if it is not the largest integer. -/
structure Border (t : Table V) (n : Nat) : Prop where
  le : n ≤ 2 ^ 63 - 1
  filled : n = 0 ∨ Filled t n
  empty : ¬Filled t (n + 1) ∨ n = 2 ^ 63 - 1

theorem Hinted.border {t t' : Table V} (h : Hinted hs t t') {n : Nat} (hn : Border t' n) : Border t n :=
  ⟨hn.le, hn.filled.imp_right (h.filled n).mp, hn.empty.imp_left (mt (h.filled (n + 1)).mpr)⟩

/-- In the range of the array part the slots decide. -/
theorem filled_array {t : Table V} (h : Inv hs t) {u : Nat} (hu : u < t.array.length) :
    Filled t (u + 1) ↔ ∃ v, t.array[u]? = some (some v) := by
  have hpos : (Key.int (Int64.ofNat (u + 1))).pos = some u := pos_ofNat (Nat.lt_of_lt_of_le hu (by have := h.size; omega))
  constructor
  · rintro ⟨v, ⟨u', hu', hget⟩ | hcell⟩
    · rw [hpos] at hu'
      exact ⟨v, Option.some.inj hu' ▸ hget⟩
    · exact absurd hu (Nat.not_lt.mpr (inArray_false_iff.mp (h.apart hcell.hasKey) u hpos))
  · rintro ⟨v, hget⟩
    exact ⟨v, .inl ⟨u, hpos, hget⟩⟩

theorem not_filled_array {t : Table V} (h : Inv hs t) {u : Nat} (hget : t.array[u]? = some none) : ¬Filled t (u + 1) := by
  intro hfilled
  obtain ⟨v, hv⟩ := (filled_array h (List.getElem?_eq_some_iff.mp hget).1).mp hfilled
  rw [hget] at hv
  cases hv

theorem FilledBelow.filled {t : Table V} (h : Inv hs t) {n : Nat} (hn : n ≤ t.array.length)
    (hbelow : FilledBelow t.array n) : n = 0 ∨ Filled t n := by
  rcases Nat.eq_zero_or_pos n with hzero | hpos
  · exact .inl hzero
  · obtain ⟨u, rfl⟩ := Nat.exists_eq_succ_of_ne_zero (Nat.ne_of_gt hpos)
    refine .inr ((filled_array h hn).mpr (hbelow.resolve_left (Nat.succ_ne_zero u)))

theorem border_array {t : Table V} (h : Inv hs t) {n : Nat} (hbelow : FilledBelow t.array n)
    (hget : t.array[n]? = some none) : Border t n := by
  have hlt := (List.getElem?_eq_some_iff.mp hget).1
  exact ⟨by have := h.size; omega, hbelow.filled h (by omega), .inl (not_filled_array h hget)⟩

/-- The array part is full at its end, and the dummy part has nothing. -/
theorem border_dummy {t : Table V} (h : Inv hs t) (hdummy : t.hash.lastfree = none)
    (hbelow : FilledBelow t.array t.array.length) : Border t t.array.length := by
  have hsize := h.size
  refine ⟨by omega, hbelow.filled h (le_refl _), .inl ?_⟩
  rintro ⟨v, ⟨u, hu, hget⟩ | ⟨i, hi⟩⟩
  · rw [pos_ofNat (show t.array.length < 2 ^ 63 by omega)] at hu
    rw [← Option.some.inj hu, List.getElem?_eq_none (le_refl _)] at hget
    cases hget
  · rw [h.hash.dummy hdummy, cell_of_fresh dummyNode_fresh] at hi
    cases hi

/-! ## The hash part -/

theorem isNilAt_spec {t : Table V} (h : Inv hs t) (j : Nat) :
    ∃ t' empty, isNilAt t j = .ok (t', empty) ∧ Hinted hs t t' ∧ (empty = true ↔ ¬Filled t j) := by
  obtain ⟨a, s, hget, hinv, hslot⟩ := getint_spec h (Int64.ofNat j)
  obtain ⟨x, hload, hx⟩ := load_spec hinv (show SlotOf { t with alimit := a } _ s from hslot)
  refine ⟨{ t with alimit := a }, x.isNone, ?_, ⟨hinv, rfl, rfl⟩, ?_⟩
  · rw [isNilAt, hget, Rust.ok_bind]
    dsimp only
    rw [hload, Rust.ok_bind]
  · rw [Option.isNone_iff_eq_none, Option.eq_none_iff_forall_ne_some, Filled, not_exists]
    refine forall_congr' fun v => not_congr ?_
    rw [hx]
    simp [Holds]

/-- What the first loop ends with: a filled index, and an empty one above it or that it is the largest integer. -/
def Bracket (t : Table V) (i : Nat) : Option Nat → Prop
  | some j => Filled t i ∧ i < j ∧ j ≤ 2 ^ 63 - 1 ∧ ¬Filled t j
  | none => Filled t i ∧ i = 2 ^ 63 - 1

theorem Hinted.bracket {t t' : Table V} (h : Hinted hs t t') {i : Nat} {bound : Option Nat}
    (hb : Bracket t' i bound) : Bracket t i bound := by
  cases bound with
  | none => exact ⟨(h.filled i).mp hb.1, hb.2⟩
  | some j => exact ⟨(h.filled i).mp hb.1, hb.2.1, hb.2.2.1, mt (h.filled j).mpr hb.2.2.2⟩

theorem hashSearchUp_spec (n : Nat) {t : Table V} (h : Inv hs t) {i : Nat} (hi : i < 2 ^ 63) (hn : 2 ^ 63 ≤ i * 2 ^ n)
    (hfilled : Filled t i) :
    ∃ t' i' bound, hashSearchUp n t i = .ok (t', i', bound) ∧ Hinted hs t t' ∧ Bracket t i' bound := by
  induction n generalizing t i with
  | zero => omega
  | succ n ih =>
    have hpos : 0 < i := Nat.pos_of_ne_zero (by rintro rfl; omega)
    rw [hashSearchUp]
    split_ifs with hle
    · obtain ⟨t', empty, heq, ht', hempty⟩ := isNilAt_spec h (i * 2)
      rw [heq, Rust.ok_bind]
      cases empty with
      | true => exact ⟨t', i, _, rfl, ht', hfilled, by omega, by omega, hempty.mp rfl⟩
      | false =>
        have hfilled' : Filled t (i * 2) := filled_of_not_nil hempty
        obtain ⟨t'', i', bound, heq', ht'', hb⟩ := ih (t := t') ht'.1 (i := i * 2) (by omega)
          (by rwa [Nat.mul_assoc, ← Nat.pow_succ']) ((ht'.filled _).mpr hfilled')
        exact ⟨t'', i', bound, heq', ht'.trans ht'', ht'.bracket hb⟩
    · obtain ⟨t', empty, heq, ht', hempty⟩ := isNilAt_spec h (2 ^ 63 - 1)
      rw [heq, Rust.ok_bind]
      cases empty with
      | true =>
        have hne : i ≠ 2 ^ 63 - 1 := fun heq => hempty.mp rfl (heq ▸ hfilled)
        exact ⟨t', i, _, rfl, ht', hfilled, by omega, le_refl _, hempty.mp rfl⟩
      | false =>
        exact ⟨t', _, _, rfl, ht', filled_of_not_nil hempty, rfl⟩

theorem hashSearchBetween_spec {t : Table V} (h : Inv hs t) {i j : Nat} (hb : Bracket t i (some j)) :
    ∃ t' n, hashSearchBetween t i j = .ok (t', n) ∧ Hinted hs t t' ∧ Border t n := by
  generalize hd : j - i = d
  induction d using Nat.strongRecOn generalizing t i j with
  | ind d ih =>
    obtain ⟨hi, hij, hj, hempty⟩ := hb
    rw [hashSearchBetween]
    split_ifs with hlt
    · obtain ⟨t', empty, heq, ht', hm⟩ := isNilAt_spec h ((i + j) / 2)
      rw [heq, Rust.ok_bind]
      cases empty with
      | true =>
        obtain ⟨t'', n, heq', ht'', hn⟩ := ih _ (by omega) ht'.1 (i := i) (j := (i + j) / 2)
          ⟨(ht'.filled i).mpr hi, by omega, by omega, mt (ht'.filled _).mp (hm.mp rfl)⟩ rfl
        exact ⟨t'', n, heq', ht'.trans ht'', ht'.border hn⟩
      | false =>
        have hmid : Filled t ((i + j) / 2) := filled_of_not_nil hm
        obtain ⟨t'', n, heq', ht'', hn⟩ := ih _ (by omega) ht'.1 (i := (i + j) / 2) (j := j)
          ⟨(ht'.filled _).mpr hmid, by omega, hj, mt (ht'.filled j).mp hempty⟩ rfl
        exact ⟨t'', n, heq', ht'.trans ht'', ht'.border hn⟩
    · obtain rfl : j = i + 1 := by omega
      exact ⟨t, i, rfl, .refl h, by omega, .inr hi, .inl hempty⟩

theorem getnHash_spec {t : Table V} (h : Inv hs t) {limit : Nat} (hlimit : limit = t.array.length)
    (hbelow : FilledBelow t.array limit) :
    ∃ t' n, getnHash t limit = .ok (t', n) ∧ Hinted hs t t' ∧ Border t n := by
  have hsize := h.size
  have hfilled := hbelow.filled h (by omega)
  rw [getnHash]
  split_ifs with hdummy
  · exact ⟨t, limit, rfl, .refl h, hlimit ▸ border_dummy h hdummy (hlimit ▸ hbelow)⟩
  obtain ⟨t', empty, heq, ht', hempty⟩ := isNilAt_spec h (limit + 1)
  rw [heq, Rust.ok_bind]
  cases empty with
  | true => exact ⟨t', limit, rfl, ht', by omega, hfilled, .inl (hempty.mp rfl)⟩
  | false =>
    have hnext : Filled t (limit + 1) := filled_of_not_nil hempty
    have hstart : Filled t (if limit = 0 then 1 else limit) := by
      split_ifs with hzero
      · rwa [hzero] at hnext
      · exact hfilled.resolve_left hzero
    dsimp only
    rw [if_neg Bool.false_ne_true, hash_search]
    obtain ⟨t₁, i, bound, heq₁, ht₁, hb⟩ := hashSearchUp_spec 64 ht'.1 (i := if limit = 0 then 1 else limit)
      (by split <;> omega) (by split <;> omega) ((ht'.filled _).mpr hstart)
    have ht := ht'.trans ht₁
    rw [heq₁, Rust.ok_bind]
    cases bound with
    | none =>
      obtain ⟨hi, hmax⟩ := ht'.bracket hb
      exact ⟨t₁, i, rfl, ht, by omega, .inr hi, .inr hmax⟩
    | some j =>
      have hb₁ : Bracket t₁ i (some j) := ⟨(ht₁.filled i).mpr hb.1, hb.2.1, hb.2.2.1, mt (ht₁.filled j).mp hb.2.2.2⟩
      obtain ⟨t₂, n, heq₂, ht₂, hn⟩ := hashSearchBetween_spec ht₁.1 hb₁
      exact ⟨t₂, n, heq₂, ht.trans ht₂, ht.border hn⟩

/-! ## `luaH_getn` -/

/-- The array part of a table whose limit may become a hint is a power of two, or empty. -/
theorem ispow2realasize_spec {t : Table V} (h : Inv hs t) (hpow : ispow2realasize t = true) (hpos : 0 < t.alimit) :
    ∃ k, t.array.length = 2 ^ k ∧ t.alimit ≤ 2 ^ k ∧ 2 ^ k < 2 * t.alimit := by
  rcases h.limit with ⟨hhint, hlen⟩ | ⟨-, k, hlen, hlow, hhigh⟩
  · rw [ispow2realasize, hhint, Bool.false_or, decide_eq_true_eq] at hpow
    -- the power of two above the limit
    have hexists : ∃ k, 2 ^ k < 2 * t.alimit ∧ t.alimit ≤ 2 ^ k := by
      refine ⟨Nat.clog 2 t.alimit, ?_, Nat.le_pow_clog (by omega) _⟩
      rcases Nat.eq_or_lt_of_le hpos with h1 | h1
      · rw [← h1]
        decide
      · have hlt := Nat.pow_pred_clog_lt_self (b := 2) (by omega) h1
        have hclog := Nat.clog_pos (b := 2) (by omega) h1
        rw [Nat.pred_eq_sub_one] at hlt
        have hdouble : 2 ^ Nat.clog 2 t.alimit = 2 * 2 ^ (Nat.clog 2 t.alimit - 1) := by
          rw [← Nat.pow_succ', Nat.succ_eq_add_one, Nat.sub_add_cancel hclog]
        omega
    obtain ⟨k, hlow, hhigh⟩ := hexists
    have heq := (and_pred_eq_zero_iff hlow hhigh).mp hpow
    exact ⟨k, by omega, hhigh, hlow⟩
  · exact ⟨k, hlen, hhigh, hlow⟩

/-- A new hint for an array part whose size is a power of two. -/
theorem hinted_of_lt {t : Table V} (h : Inv hs t) {k a : Nat} (hlen : t.array.length = 2 ^ k) (hlow : 2 ^ k < 2 * a)
    (hhigh : a ≤ 2 ^ k) : Hinted hs t { t with alimit := a, hint := true } :=
  ⟨⟨h.hash, h.size, .inr ⟨rfl, k, hlen, hlow, hhigh⟩, h.apart⟩, rfl, rfl⟩

theorem getnBelow_spec {t : Table V} (h : Inv hs t) (hpos : 0 < t.alimit) (hlast : t.array[t.alimit - 1]? = some none) :
    ∃ t' n, getnBelow t = .ok (t', n) ∧ Hinted hs t t' ∧ Border t n := by
  have hle := h.alimit_le
  have hsearch : ∃ t' n, (do
      let boundary ← binsearch t.array 0 t.alimit
      if ispow2realasize t ∧ boundary > realasize t / 2 then
        .ok ({ t with alimit := boundary, hint := true }, boundary)
      else .ok (t, boundary) : Rust (Table V × Nat)) = .ok (t', n) ∧ Hinted hs t t' ∧ Border t n := by
    obtain ⟨b, heq, -, hlt, hbelow, hempty⟩ := binsearch_spec t.array 0 t.alimit hpos hle (.inl rfl) hlast
    have hborder := border_array h hbelow hempty
    rw [heq, Rust.ok_bind]
    split_ifs with hbig
    · obtain ⟨k, hlen, hhigh, hlow⟩ := ispow2realasize_spec h hbig.1 hpos
      have hhalf := hbig.2
      rw [h.realasize_eq, hlen] at hhalf
      exact ⟨_, _, rfl, hinted_of_lt h hlen (by omega) (by omega), hborder⟩
    · exact ⟨t, b, rfl, .refl h, hborder⟩
  rw [getnBelow]
  dsimp only
  by_cases htwo : 2 ≤ t.alimit
  · have hlt : t.alimit - 2 < t.array.length := by omega
    have hborder : t.array[t.alimit - 2].isSome = true → Border t (t.alimit - 1) := by
      intro hsome
      obtain ⟨v, hv⟩ := Option.isSome_iff_exists.mp hsome
      refine border_array h (.inr ⟨v, ?_⟩) hlast
      rw [show t.alimit - 1 - 1 = t.alimit - 2 by omega, List.getElem?_eq_getElem hlt, hv]
    rw [if_pos htwo, idx_of_lt hlt, Rust.ok_bind]
    split_ifs with hsome hpow
    · obtain ⟨k, hlen, hhigh, hlow⟩ := ispow2realasize_spec h hpow.1 hpos
      refine ⟨_, _, rfl, hinted_of_lt h hlen ?_ (by omega), hborder hsome.2⟩
      -- otherwise the new limit is a power of two
      by_contra hge
      obtain ⟨m, rfl⟩ : ∃ m, k = m + 1 := by
        refine Nat.exists_eq_succ_of_ne_zero ?_
        rintro rfl
        rw [Nat.pow_zero] at hhigh
        omega
      rw [Nat.pow_succ] at hge hlow hhigh
      have hzero := (and_pred_eq_zero_iff (n := t.alimit - 1) (k := m) (by omega) (by omega)).mpr (by omega)
      exact hpow.2 hzero
    · exact ⟨t, _, rfl, .refl h, hborder hsome.2⟩
    · exact hsearch
  · rw [if_neg htwo, Rust.ok_bind, if_neg (fun hand => htwo hand.1)]
    exact hsearch

theorem getnBehind_spec {t : Table V} (h : Inv hs t) (hlast : FilledBelow t.array t.alimit)
    (hbehind : ¬(t.hint = false ∨ t.alimit &&& (t.alimit - 1) = 0)) :
    ∃ t' n, getnBehind t = .ok (t', n) ∧ Hinted hs t t' ∧ Border t n := by
  obtain ⟨hhint, hpow⟩ := not_or.mp hbehind
  obtain ⟨k, hlen, hlow, hhigh⟩ : ∃ k, t.array.length = 2 ^ k ∧ 2 ^ k < 2 * t.alimit ∧ t.alimit ≤ 2 ^ k := by
    rcases h.limit with ⟨hhint', -⟩ | ⟨-, hlimit⟩
    · exact absurd hhint' hhint
    · exact hlimit
  have hlt : t.alimit < t.array.length := by
    rcases Nat.lt_or_eq_of_le hhigh with hlt | heq
    · omega
    · exact absurd ((and_pred_eq_zero_iff hlow hhigh).mpr heq) hpow
  have hsize := h.size
  rw [getnBehind]
  dsimp only
  rw [idx_of_lt hlt, Rust.ok_bind]
  split_ifs with hnone
  · refine ⟨t, _, rfl, .refl h, border_array h hlast ?_⟩
    rw [List.getElem?_eq_getElem hlt, Option.isNone_iff_eq_none.mp hnone]
  rw [h.realasize_eq, idx_of_lt (show t.array.length - 1 < t.array.length by omega), Rust.ok_bind]
  cases hx : t.array[t.array.length - 1] with
  | none =>
    rw [if_pos (by simp)]
    obtain ⟨b, heq, hge, hb, hbelow, hempty⟩ := binsearch_spec t.array t.alimit t.array.length hlt (le_refl _) hlast
      (by rw [List.getElem?_eq_getElem (by omega), hx])
    rw [heq, Rust.ok_bind]
    have hset : ({ t with alimit := b } : Table V) = { t with alimit := b, hint := true } := by
      rw [← (Bool.not_eq_false _).mp hhint]
    rw [hset]
    exact ⟨_, _, rfl, hinted_of_lt h hlen (by omega) (by omega), border_array h hbelow hempty⟩
  | some v =>
    rw [if_neg (by simp)]
    refine getnHash_spec h rfl (.inr ⟨v, ?_⟩)
    rw [List.getElem?_eq_getElem (by omega), hx]

/-- `luaH_getn` comes to an end with a border, and changes nothing but the hint. -/
theorem getn_spec {t : Table V} (h : Inv hs t) :
    ∃ t' n, getn t = .ok (t', n) ∧ Hinted hs t t' ∧ Border t n := by
  have hle := h.alimit_le
  have hrest : FilledBelow t.array t.alimit → ∃ t' n,
      (if ¬(t.hint = false ∨ t.alimit &&& (t.alimit - 1) = 0) then getnBehind t else getnHash t t.alimit) =
        .ok (t', n) ∧ Hinted hs t t' ∧ Border t n := by
    intro hlast
    split_ifs with hbehind
    · refine getnHash_spec h ?_ hlast
      rw [← h.realasize_eq, realasize, if_pos hbehind]
    · exact getnBehind_spec h hlast hbehind
  rw [getn]
  dsimp only
  by_cases hpos : 0 < t.alimit
  · have hlt : t.alimit - 1 < t.array.length := by omega
    rw [if_pos hpos, idx_of_lt hlt, Rust.ok_bind]
    cases hlast : t.array[t.alimit - 1] with
    | none =>
      rw [if_pos ⟨hpos, rfl⟩]
      exact getnBelow_spec h hpos (by rw [List.getElem?_eq_getElem hlt, hlast])
    | some v =>
      rw [if_neg (by simp)]
      exact hrest (.inr ⟨v, by rw [List.getElem?_eq_getElem hlt, hlast]⟩)
  · rw [if_neg hpos, Rust.ok_bind, if_neg (fun hand => hpos hand.1)]
    exact hrest (.inl (by omega))

end Tsuki.Table
