import Tsuki.Table.Access

/-!
# Insertion and resizing

`luaH_newkey` adds a pair, if need be after `rehash`. The parts `rehash` asks for have room for all pairs, so the
insertions it makes find a free node and do not come to `rehash` again.
-/

namespace Tsuki.Table

variable {V : Type} {hs : Hashes}

/-! ## Writes -/

/-- A write gives the table a new key that has no room in either part, and `rehash` asks for more nodes than a hash part
can have. -/
structure Overflows (t : Table V) (c : Key) (x : Option V) : Prop where
  stores : x.isSome = true
  absent : ¬HasKey (cell t.hash.node) c
  outside : c.inArray t.array.length = false
  full : t.hash.capacity ≤ t.hash.used
  size : 2 ^ 30 < (rehashSizes { t with alimit := t.array.length, hint := false } c).2

theorem Overflows.of_alimit {t : Table V} {a : Nat} {c : Key} {x : Option V}
    (h : Overflows { t with alimit := a } c x) :
    Overflows t c x :=
  ⟨h.stores, h.absent, h.outside, h.full, h.size⟩

/-- The call ends with `P`, or the hash part would be too large. -/
def Done (full : Prop) (r : Rust (Table V × Except TableError Unit)) (P : Table V → Prop) : Prop :=
  full ∧ r = .error (.msg "table overflow") ∨ ∃ t', r = .ok (t', .ok ()) ∧ P t'

theorem Done.imp {full full' : Prop} {r : Rust (Table V × Except TableError Unit)} {P Q : Table V → Prop}
    (h : Done full r P) (hfull : full → full') (hpq : ∀ t', P t' → Q t') : Done full' r Q :=
  Or.imp (And.imp_left hfull) (fun ⟨t', hr, hp⟩ => ⟨t', hr, hpq t' hp⟩) h

theorem finishset_of_ne (ins : Newkey V) {t : Table V} {k : Key} {s : Slot} {x : Option V} (h : s ≠ .absent) :
    finishset ins t k s x = (store t s x).map fun t => (t, .ok ()) := by
  cases s with
  | absent => exact absurd rfl h
  | array | node => rfl

/-- A write stores to the slot the key has, or inserts the key. -/
theorem set_spec {full : Prop} {ins : Newkey V} {t : Table V} (h : Inv hs t) {k c : Key} (hc : canon k = some c)
    (x : Option V) {P : Table V → Prop}
    (hstore : ∀ a t', Inv hs t' → Updates t t' c x → SameShape { t with alimit := a } t' →
      t'.hash.used = t.hash.used → P t')
    (hins : ∀ a, Inv hs { t with alimit := a } → ¬HasKey (cell t.hash.node) c → c.inArray t.array.length = false →
      Done full (ins { t with alimit := a } k x) P) :
    Done full (set hs ins t k x) P := by
  obtain ⟨a, s, hget, hinv, hslot⟩ := get_spec h k
  rw [set, hget, Rust.ok_bind]
  have hslot' : SlotOf { t with alimit := a } (some c) s := hc ▸ hslot
  by_cases hs' : s = .absent
  · obtain rfl := hs'
    obtain ⟨habs, hout⟩ := hslot' c rfl
    exact hins a hinv habs hout
  · obtain ⟨t', hst, hinv', hupd, hshape, hused, -⟩ := store_spec hinv hslot' hs' x
    refine .inr ⟨t', ?_, hstore a t' hinv' hupd hshape hused⟩
    dsimp only
    rw [finishset_of_ne ins hs', hst]
    rfl

/-- An insertion where a node is free. -/
def RoomIns (hs : Hashes) (ins : Newkey V) : Prop :=
  ∀ (t : Table V) (k : Key) (v : V), Normal k → t.hash.Inv hs → ¬HasKey (cell t.hash.node) k →
    t.hash.used < t.hash.capacity →
    ∃ h', ins t k (some v) = .ok ({ t with hash := h' }, .ok ()) ∧ Placed hs t.hash h' k v

theorem newkey_room (d : Nat) : RoomIns (V := V) hs (newkey hs (d + 1)) := by
  intro t k v hk hinv habs hroom
  unfold newkey
  dsimp only
  rw [show normalizeKey k = .ok k from hk]
  dsimp only
  rcases insertNode_spec hinv hk habs v with ⟨lf, -, -, hfull⟩ | ⟨h', heq, hplaced⟩
  · omega
  · rw [heq, Rust.ok_bind]
    exact ⟨h', rfl, hplaced⟩

/-- The pair is added to the hash part of a table. -/
theorem Placed.table {t : Table V} (h : Inv hs t) {k : Key} {v : V} {h' : HashPart V}
    (hplaced : Placed hs t.hash h' k v) (habs : ¬HasKey (cell t.hash.node) k)
    (hout : k.inArray t.array.length = false) :
    Inv hs { t with hash := h' } ∧ Updates t { t with hash := h' } k (some v) := by
  refine ⟨⟨hplaced.inv, h.size, h.limit, fun {k'} hk' => ?_⟩, fun k' v' => ?_⟩
  · rcases hplaced.hasKey hk' with rfl | hold
    exacts [hout, h.apart hold]
  · have hnot : ¬Holds t k v' := by
      rintro (⟨u, hu, hget⟩ | hcell)
      · rw [List.getElem?_eq_none (inArray_false_iff.mp hout u hu)] at hget
        cases hget
      · exact habs hcell.hasKey
    have hsplit : Holds { t with hash := h' } k' v' ↔ (k' = k ∧ v' = v) ∨ Holds t k' v' := by
      simp only [Holds, hplaced.holds]
      exact or_left_comm
    rw [hsplit, Option.some.injEq, eq_comm (a := v)]
    by_cases hkk : k' = k
    · subst hkk
      simp [hnot]
    · simp [hkk]

/-! ## The vanishing slice -/

/-- The slots from `i` on go to the hash part, which has room for them. -/
theorem vanishLoop_spec {ins : Newkey V} (hins : RoomIns hs ins) : ∀ (n i : Nat) (t : Table V),
    i + n = t.array.length → t.array.length ≤ 2 ^ 31 → t.hint = false → t.alimit ≤ i → t.hash.Inv hs →
    (∀ {k}, HasKey (cell t.hash.node) k → ∃ u, k.pos = some u ∧ u < i ∧ t.alimit ≤ u) →
    t.hash.used + (t.array.drop i).countP (·.isSome) ≤ t.hash.capacity →
    ∃ h', vanishLoop ins n i t = .ok { t with hash := h' } ∧ h'.Inv hs ∧ h'.capacity = t.hash.capacity ∧
      h'.used ≤ t.hash.used + (t.array.drop i).countP (·.isSome) ∧
      (∀ {k}, HasKey (cell h'.node) k → ∃ u, k.pos = some u ∧ t.alimit ≤ u) ∧
      ∀ {k v}, CellHolds (cell h'.node) k v ↔
        CellHolds (cell t.hash.node) k v ∨ ∃ u, i ≤ u ∧ k.pos = some u ∧ t.array[u]? = some (some v) := by
  intro n
  induction n with
  | zero =>
    intro i t hlen _ _ _ hinv hkeys _
    refine ⟨t.hash, rfl, hinv, rfl, Nat.le_add_right _ _, ?_, ?_⟩
    · intro k hk
      obtain ⟨u, hu, -, hle⟩ := hkeys hk
      exact ⟨u, hu, hle⟩
    · intro k v
      refine ⟨.inl, fun hor => hor.resolve_right ?_⟩
      rintro ⟨u, hiu, -, hget⟩
      rw [List.getElem?_eq_none (by omega)] at hget
      cases hget
  | succ n ih =>
    intro i t hlen hsize hhint hlimit hinv hkeys hroom
    have hi : i < t.array.length := by omega
    have hdrop : t.array.drop i = t.array[i] :: t.array.drop (i + 1) := List.drop_eq_getElem_cons hi
    rw [hdrop, List.countP_cons] at hroom ⊢
    rw [vanishLoop, idx_of_lt hi, Rust.ok_bind]
    cases hx : t.array[i] with
    | none =>
      rw [hx] at hroom
      rw [if_neg (by simp)]
      simp only [Option.isSome_none, Bool.false_eq_true, if_false, Nat.add_zero] at hroom ⊢
      obtain ⟨h', heq, hinv', hcap, hused, hkeys', hholds⟩ := ih (i + 1) t (by omega) hsize hhint (by omega) hinv
        (fun hk => by obtain ⟨u, hu, hlt, hle⟩ := hkeys hk; exact ⟨u, hu, by omega, hle⟩) hroom
      refine ⟨h', heq, hinv', hcap, hused, hkeys', fun {k v} => ?_⟩
      rw [hholds]
      refine or_congr_right ⟨?_, ?_⟩
      · rintro ⟨u, hiu, hrest⟩
        exact ⟨u, by omega, hrest⟩
      · rintro ⟨u, hiu, hpos, hget⟩
        refine ⟨u, ?_, hpos, hget⟩
        rcases Nat.lt_or_eq_of_le hiu with hlt | rfl
        · exact hlt
        · rw [List.getElem?_eq_getElem hi, hx] at hget
          cases hget
    | some v =>
      rw [hx] at hroom
      rw [if_pos (by simp)]
      simp only [Option.isSome_some, if_true] at hroom ⊢
      generalize hkey : Int64.ofNat (i + 1) = key
      have hpos : (Key.int key).pos = some i := by
        rw [← hkey]
        exact pos_ofNat (by omega)
      have habs : ¬HasKey (cell t.hash.node) (.int key) := by
        intro hk
        obtain ⟨u, hu, hlt, -⟩ := hkeys hk
        rw [hpos] at hu
        have := Option.some.inj hu
        omega
      -- the key is not in the range of the shrunken array part, and not in the hash part
      have hget : getint t key = .ok (t, .absent) := by
        obtain ⟨s, hsearch, hfound⟩ := searchint_spec hinv key
        have hs' : s = .absent := by
          cases s with
          | absent => rfl
          | array => exact hfound.elim
          | node j =>
            obtain ⟨k', hk', hj⟩ := hfound
            rw [← Option.some.inj hk'] at hj
            exact absurd ⟨j, hj⟩ habs
        have hu : (key - 1).toUInt64.toNat = i := Option.some.inj hpos
        rw [getint, hu, hsearch, hs']
        simp [hhint, Nat.not_lt.mpr hlimit, Except.map]
      obtain ⟨h₁, hins₁, hplaced⟩ := hins t (.int key) v (normal_int key) hinv habs (by omega)
      have hset : setint ins t key (some v) = .ok { t with hash := h₁ } := by
        rw [setint, hget, Rust.ok_bind]
        dsimp only
        rw [hins₁]
        rfl
      rw [hset, Rust.ok_bind]
      have hused₁ := hplaced.used_le
      have hcap₁ := hplaced.capacity_eq
      have hkeys₁ : ∀ {k}, HasKey (cell h₁.node) k → ∃ u, k.pos = some u ∧ u < i + 1 ∧ t.alimit ≤ u := by
        intro k hk
        rcases hplaced.hasKey hk with rfl | hold
        · exact ⟨i, hpos, by omega, hlimit⟩
        · obtain ⟨u, hu, hlt, hle⟩ := hkeys hold
          exact ⟨u, hu, by omega, hle⟩
      obtain ⟨h', heq, hinv', hcap, hused, hkeys', hholds⟩ := ih (i + 1) { t with hash := h₁ } (by dsimp only; omega)
        hsize hhint (by dsimp only; omega) hplaced.inv hkeys₁ (by dsimp only; omega)
      refine ⟨h', heq, hinv', hcap.trans hcap₁, ?_, hkeys', fun {k w} => ?_⟩
      · dsimp only at hused
        omega
      · rw [hholds]
        dsimp only
        rw [hplaced.holds]
        constructor
        · rintro ((⟨rfl, rfl⟩ | hold) | ⟨u, hiu, hrest⟩)
          · exact .inr ⟨i, le_refl _, hpos, by rw [List.getElem?_eq_getElem hi, hx]⟩
          · exact .inl hold
          · exact .inr ⟨u, by omega, hrest⟩
        · rintro (hold | ⟨u, hiu, hpos', hget'⟩)
          · exact .inl (.inr hold)
          · rcases Nat.lt_or_eq_of_le hiu with hlt | rfl
            · exact .inr ⟨u, hlt, hpos', hget'⟩
            · rw [List.getElem?_eq_getElem hi, hx] at hget'
              exact .inl (.inl ⟨pos_inj hpos' hpos, (Option.some.inj (Option.some.inj hget')).symm⟩)

/-! ## Reinsertion -/

/-- A node of the list has the pair. -/
def ListHolds (l : List (Node V)) (k : Key) (v : V) : Prop := ∃ nd ∈ l, nd.key = .live k ∧ nd.val = some v

theorem listHolds_iff {node : List (Node V)} {k : Key} {v : V} : ListHolds node k v ↔ CellHolds (cell node) k v := by
  constructor
  · rintro ⟨nd, hnd, hkey, hval⟩
    obtain ⟨i, hi⟩ := List.mem_iff_getElem?.mp hnd
    exact ⟨i, by rw [cell_of_get hi, hkey, hval]⟩
  · rintro ⟨i, hi⟩
    obtain ⟨nd, hnd⟩ := exists_get (lt_of_live (show (cell node i).1 = .live k by rw [hi]))
    rw [cell_of_get hnd, Prod.mk.injEq] at hi
    exact ⟨nd, List.mem_of_getElem? hnd, hi.1, hi.2⟩

/-- No two nodes of the list have the same key. -/
def KeysDiffer (l : List (Node V)) : Prop := l.Pairwise fun nd nd' => ∀ k, nd.key = .live k → nd'.key ≠ .live k

theorem IsContent.keysDiffer {node : List (Node V)} (h : IsContent (cell node)) : KeysDiffer node := by
  rw [KeysDiffer, List.pairwise_iff_getElem]
  intro i j hi hj hij k hki hkj
  have hcelli := cell_of_get (List.getElem?_eq_getElem hi)
  have hcellj := cell_of_get (List.getElem?_eq_getElem hj)
  have heq : i = j := h.inj (k := k) (by rw [hcelli, hki]) (by rw [hcellj, hkj])
  omega

/-- `reinsert` adds the pairs of the nodes, where each write keeps to `good` for the nodes still to come. -/
theorem reinsert_spec {full : Prop} {ins : Newkey V} (good : List (Node V) → Table V → Prop)
    (hskip : ∀ nd l t, nd.val = none → good (nd :: l) t → good l t)
    (hset : ∀ nd k v l t, nd.key = .live k → nd.val = some v → Normal k → Inv hs t → good (nd :: l) t →
      Done full (set hs ins t k (some v)) fun t' => Inv hs t' ∧ Updates t t' k (some v) ∧ good l t') :
    ∀ (l : List (Node V)) (t : Table V),
      (∀ nd ∈ l, ∀ v, nd.val = some v → ∃ k, nd.key = .live k ∧ Normal k) → KeysDiffer l →
      (∀ k v v', ListHolds l k v → ¬Holds t k v') → Inv hs t → good l t →
      full ∧ reinsert hs ins l t = .error (.msg "table overflow") ∨ ∃ t', reinsert hs ins l t = .ok t' ∧ Inv hs t' ∧
        good [] t' ∧ ∀ k v, Holds t' k v ↔ ListHolds l k v ∨ Holds t k v := by
  intro l
  induction l with
  | nil =>
    intro t _ _ _ hinv hgood
    refine .inr ⟨t, rfl, hinv, hgood, fun k v => ?_⟩
    simp [ListHolds]
  | cons nd l ih =>
    intro t hlive hdiffer hfresh hinv hgood
    have hlive' : ∀ nd' ∈ l, ∀ v, nd'.val = some v → ∃ k, nd'.key = .live k ∧ Normal k :=
      fun nd' hnd' => hlive nd' (List.mem_cons_of_mem _ hnd')
    obtain ⟨hhead, hdiffer'⟩ := List.pairwise_cons.mp hdiffer
    have hcons : ∀ k v, ListHolds (nd :: l) k v ↔ (nd.key = .live k ∧ nd.val = some v) ∨ ListHolds l k v := by
      intro k v
      simp only [ListHolds, List.mem_cons, exists_eq_or_imp]
    cases hval : nd.val with
    | none =>
      rw [reinsert, hval, if_neg (by simp)]
      have hskip' : ∀ k v, ListHolds (nd :: l) k v ↔ ListHolds l k v := by
        intro k v
        rw [hcons, hval]
        simp
      simp only [hskip'] at hfresh ⊢
      exact ih t hlive' hdiffer' hfresh hinv (hskip nd l t hval hgood)
    | some v =>
      obtain ⟨k, hkey, hk⟩ := hlive nd (List.mem_cons_self ..) v hval
      rw [reinsert, hval, if_pos (by simp), hkey]
      dsimp only
      rcases hset nd k v l t hkey hval hk hinv hgood with ⟨hfull, herr⟩ | ⟨t₁, hset₁, hinv₁, hupd, hgood₁⟩
      · rw [herr]
        exact .inl ⟨hfull, rfl⟩
      rw [hset₁]
      rw [Rust.ok_bind, unwrapOk, Rust.ok_bind]
      have hne : ∀ k' w, ListHolds l k' w → k' ≠ k := by
        rintro k' w ⟨nd', hnd', hkey', -⟩ rfl
        exact hhead nd' hnd' k' hkey hkey'
      have hfresh₁ : ∀ k' w w', ListHolds l k' w → ¬Holds t₁ k' w' := by
        intro k' w w' hl hold
        rcases (hupd k' w').mp hold with ⟨heq, -⟩ | ⟨-, hold⟩
        · exact hne k' w hl heq
        · exact hfresh k' w w' ((hcons k' w).mpr (.inr hl)) hold
      rcases ih t₁ hlive' hdiffer' hfresh₁ hinv₁ hgood₁ with herr | ⟨t', heq, hinv', hgood', hholds⟩
      · exact .inl herr
      refine .inr ⟨t', heq, hinv', hgood', fun k' w => ?_⟩
      rw [hholds, hcons, hupd, hkey, hval, NodeKey.live.injEq, eq_comm (a := k)]
      by_cases hkk : k' = k
      · have hnot : ¬Holds t k' w := hfresh k' v w ((hcons k' v).mpr (.inl ⟨by rw [hkey, hkk], hval⟩))
        simp only [hkk, true_and, ne_eq, not_true_eq_false, false_and, or_false] at hnot ⊢
        rw [or_comm]
        simp [hnot]
      · simp [hkk]

/-! ## Resizing -/

/-- The room `luaH_resize` makes in the hash part for the size. -/
def roomFor (nhsize : Nat) : Nat := if nhsize = 0 then 0 else 2 ^ ceillog2 nhsize

theorem le_roomFor (n : Nat) : n ≤ roomFor n := by
  unfold roomFor
  split_ifs with h
  · omega
  · exact le_two_pow_ceillog2 n

theorem countP_drop (array : List (Option V)) (n : Nat) :
    (array.drop n).countP (·.isSome) = arrayCount array array.length - arrayCount array n := by
  have hsplit := @List.countP_append _ (fun x : Option V => x.isSome) (array.take n) (array.drop n)
  rw [List.take_append_drop] at hsplit
  rw [arrayCount, arrayCount, List.take_length]
  omega

/-- The slots behind `newasize` go to the new hash part, which has room for them. -/
theorem shrink_spec {ins : Newkey V} (hins : RoomIns hs ins) {t : Table V} (hhint : t.hint = false)
    (hlimit : t.alimit = t.array.length) (hsize : t.array.length ≤ 2 ^ 31) {new : HashPart V} (hnew : new.Inv hs)
    (hfresh : ∀ nd ∈ new.node, nd = ⟨.free, none, 0⟩) (newasize : Nat)
    (hroom : (t.array.drop newasize).countP (·.isSome) ≤ new.capacity) :
    ∃ h', shrink ins t new newasize t.array.length = .ok (t, h') ∧ h'.Inv hs ∧ h'.capacity = new.capacity ∧
      h'.used ≤ (t.array.drop newasize).countP (·.isSome) ∧
      (∀ {k}, HasKey (cell h'.node) k → ∃ u, k.pos = some u ∧ newasize ≤ u) ∧
      ∀ {k v}, CellHolds (cell h'.node) k v ↔ ∃ u, newasize ≤ u ∧ k.pos = some u ∧ t.array[u]? = some (some v) := by
  have hused : new.used = 0 := used_of_fresh hfresh _
  have hnokey : ∀ k, ¬HasKey (cell new.node) k := by
    rintro k ⟨i, hi⟩
    rw [cell_of_fresh hfresh] at hi
    cases hi
  have hnone : ∀ {k v}, ¬CellHolds (cell new.node) k v := fun {k v} hk => hnokey k hk.hasKey
  unfold shrink
  by_cases hlt : newasize < t.array.length
  · rw [if_pos hlt]
    obtain ⟨h', heq, hinv', hcap, hused', hkeys, hholds⟩ := vanishLoop_spec hins (t.array.length - newasize) newasize
      { t with alimit := newasize, hash := new } (by dsimp only; omega) hsize hhint (le_refl _) hnew
      (fun {k} hk => absurd hk (hnokey k)) (by dsimp only; omega)
    rw [heq, Rust.ok_bind]
    refine ⟨h', ?_, hinv', hcap, ?_, hkeys, ?_⟩
    · dsimp only
      rw [← hlimit]
    · dsimp only at hused'
      omega
    · intro k v
      rw [hholds]
      exact or_iff_right hnone
  · rw [if_neg hlt]
    refine ⟨new, rfl, hnew, rfl, by omega, fun {k} hk => absurd hk (hnokey k), fun {k v} => ?_⟩
    refine iff_of_false hnone ?_
    rintro ⟨u, hu, -, hget⟩
    rw [List.getElem?_eq_none (by omega)] at hget
    cases hget

theorem getElem?_resized (array : List (Option V)) (n u : Nat) (v : V) :
    (array.take (min array.length n) ++ List.replicate (n - array.length) none)[u]? = some (some v) ↔
      u < n ∧ array[u]? = some (some v) := by
  by_cases hu : u < (array.take (min array.length n)).length
  · rw [List.getElem?_append_left hu, List.getElem?_take]
    rw [List.length_take] at hu
    rw [if_pos (by omega), and_iff_right (by omega)]
  · rw [List.getElem?_append_right (by omega)]
    rw [List.length_take] at hu
    refine iff_of_false (fun hget => ?_) ?_
    · have := List.eq_of_mem_replicate (List.mem_of_getElem? hget)
      cases this
    · rintro ⟨hlt, hget⟩
      rw [List.getElem?_eq_none (by omega)] at hget
      cases hget

/-- `luaH_resize` keeps all pairs, where the new hash part has room for the slots that vanish and each write of
`reinsert` keeps to `good`. -/
theorem resize_spec {full : Prop} {ins : Newkey V} (hins : RoomIns hs ins) {t : Table V} (h : Inv hs t)
    {newasize nhsize : Nat}
    (hsize : newasize ≤ 2 ^ 31)
    (hroom : (t.array.drop newasize).countP (·.isSome) ≤ roomFor nhsize)
    (good : List (Node V) → Table V → Prop)
    (hskip : ∀ nd l t, nd.val = none → good (nd :: l) t → good l t)
    (hset : ∀ nd k v l t, nd.key = .live k → nd.val = some v → Normal k → Inv hs t → good (nd :: l) t →
      Done full (set hs ins t k (some v)) fun t' => Inv hs t' ∧ Updates t t' k (some v) ∧ good l t')
    (hgood : ∀ t', Inv hs t' → t'.array.length = newasize → t'.hash.capacity = roomFor nhsize →
      t'.hash.used ≤ (t.array.drop newasize).countP (·.isSome) → (∀ k v, Holds t' k v → Holds t k v) →
      good t.hash.node t') :
    (full ∨ 2 ^ 30 < nhsize) ∧ resize hs ins t newasize nhsize = .error (.msg "table overflow") ∨
      ∃ t', resize hs ins t newasize nhsize = .ok t' ∧ Inv hs t' ∧ good [] t' ∧ ∀ k v, Holds t' k v ↔ Holds t k v := by
  obtain ⟨heq, -⟩ := h.setlimittosize
  rw [resize, heq]
  dsimp only
  rcases setnodevector_spec (V := V) hs nhsize with ⟨hbig, herr⟩ | ⟨new, hnew, hinv, hfresh, hcap⟩
  · rw [herr]
    exact .inl ⟨.inr hbig, rfl⟩
  rw [hnew, Rust.ok_bind]
  rw [← roomFor] at hcap
  obtain ⟨h', hshrink, hinv', hcap', hused, hkeys, hholds⟩ := shrink_spec hins
    (t := { t with alimit := t.array.length, hint := false }) rfl rfl h.size hinv hfresh newasize (hcap ▸ hroom)
  dsimp only at hshrink
  rw [hshrink, Rust.ok_bind]
  dsimp only at hused hholds ⊢
  have hlen : (t.array.take (min t.array.length newasize) ++
      List.replicate (newasize - t.array.length) none).length = newasize := by
    rw [List.length_append, List.length_take, List.length_replicate]
    omega
  generalize harr : t.array.take (min t.array.length newasize) ++ List.replicate (newasize - t.array.length) none =
    array at hlen
  have hinv₁ : Inv hs (⟨false, newasize, array, h'⟩ : Table V) := by
    refine ⟨hinv', by dsimp only; omega, .inl ⟨rfl, hlen.symm⟩, fun {k} hk => ?_⟩
    obtain ⟨u, hu, hle⟩ := hkeys hk
    rw [inArray_false_iff]
    intro u' hu'
    rw [hu] at hu'
    rw [← Option.some.inj hu']
    exact hlen.trans_le hle
  have hholds₁ : ∀ k v, Holds (⟨false, newasize, array, h'⟩ : Table V) k v ↔
      ∃ u, k.pos = some u ∧ t.array[u]? = some (some v) := by
    intro k v
    simp only [Holds, ← harr, getElem?_resized, hholds]
    constructor
    · rintro (⟨u, hu, -, hget⟩ | ⟨u, -, hu, hget⟩)
      · exact ⟨u, hu, hget⟩
      · exact ⟨u, hu, hget⟩
    · rintro ⟨u, hu, hget⟩
      rcases Nat.lt_or_ge u newasize with hlt | hge
      · exact .inl ⟨u, hu, hlt, hget⟩
      · exact .inr ⟨u, hge, hu, hget⟩
  have hlive : ∀ nd ∈ t.hash.node, ∀ v, nd.val = some v → ∃ k, nd.key = .live k ∧ Normal k := by
    intro nd hnd v hval
    obtain ⟨i, hi⟩ := List.mem_iff_getElem?.mp hnd
    have hcell := cell_of_get hi
    cases hkey : nd.key with
    | live k => exact ⟨k, rfl, h.hash.content.normal (by rw [hcell, hkey])⟩
    | free | dead =>
      have hnone := h.hash.content.empty (i := i) fun k => by rw [hcell, hkey]; simp
      rw [hcell] at hnone
      rw [show nd.val = none from hnone] at hval
      cases hval
  have hother : ∀ k v v', ListHolds t.hash.node k v → ¬Holds (⟨false, newasize, array, h'⟩ : Table V) k v' := by
    intro k v v' hl hold
    obtain ⟨u, hu, hget⟩ := (hholds₁ k v').mp hold
    have hout := inArray_false_iff.mp (h.apart (listHolds_iff.mp hl).hasKey) u hu
    rw [List.getElem?_eq_none hout] at hget
    cases hget
  rcases reinsert_spec good hskip hset t.hash.node _ hlive h.hash.content.keysDiffer hother hinv₁
    (hgood _ hinv₁ hlen (hcap'.trans hcap) hused fun k v hv => .inl ((hholds₁ k v).mp hv)) with
    ⟨hfull, herr⟩ | ⟨t', heq', hinv₂, hgood₂, hholds₂⟩
  · exact .inl ⟨.inl hfull, herr⟩
  · refine .inr ⟨t', heq', hinv₂, hgood₂, fun k v => ?_⟩
    rw [hholds₂, hholds₁, listHolds_iff, or_comm]
    rfl

/-! ## Insertion -/

/-- An insertion of a key the table does not have. -/
def Inserts (hs : Hashes) (ins : Newkey V) : Prop :=
  ∀ (t : Table V) (k c : Key) (x : Option V), Inv hs t → canon k = some c → ¬HasKey (cell t.hash.node) c →
    c.inArray t.array.length = false →
    Done (Overflows t c x) (ins t k x) fun t' => Inv hs t' ∧ Updates t t' c x

/-- Nothing changes where nil is written to a key the table does not have. -/
theorem updates_none {t : Table V} {c : Key} (habs : ¬HasKey (cell t.hash.node) c)
    (hout : c.inArray t.array.length = false) : Updates t t c none := by
  intro k' v'
  by_cases hkk : k' = c
  · subst hkk
    refine iff_of_false ?_ (by simp)
    rintro (⟨u, hu, hget⟩ | hcell)
    · rw [List.getElem?_eq_none (inArray_false_iff.mp hout u hu)] at hget
      cases hget
    · exact habs hcell.hasKey
  · simp [hkk]

/-- What the writes of `reinsert` keep to after `rehash`: there is room for the pairs still to come that are outside the
array part, and for the new key if it is outside, too. -/
def Roomy (ek : Key) (n cap : Nat) (l : List (Node V)) (t : Table V) : Prop :=
  t.array.length = n ∧ t.hash.capacity = cap ∧
    t.hash.used + l.countP (Node.outside n) + (if ek.inArray n then 0 else 1) ≤ cap

theorem roomy_set {ins : Newkey V} (hins : RoomIns hs ins) {ek : Key} {n cap : Nat} {nd : Node V} {k : Key} {v : V}
    {l : List (Node V)} {t : Table V} (hkey : nd.key = .live k) (hval : nd.val = some v) (hk : Normal k)
    (h : Inv hs t) (hroomy : Roomy ek n cap (nd :: l) t) :
    Done False (set hs ins t k (some v)) fun t' => Inv hs t' ∧ Updates t t' k (some v) ∧ Roomy ek n cap l t' := by
  obtain ⟨hn, hcap, hroom⟩ := hroomy
  rw [List.countP_cons] at hroom
  refine set_spec h (canon_eq_some.mpr hk) (some v) ?_ ?_
  · intro a t' hinv' hupd hshape hused
    refine ⟨hinv', hupd, hshape.length_eq.trans hn, hshape.capacity_eq.trans hcap, ?_⟩
    omega
  · intro a hinv habs hout
    have houtside : Node.outside n nd = true := by
      rw [Node.outside, hval, hkey, ← hn]
      simp [NodeKey.passes, hout]
    rw [if_pos houtside] at hroom
    obtain ⟨h', heq, hplaced⟩ := hins { t with alimit := a } k v hk hinv.hash habs (by dsimp only; omega)
    obtain ⟨hinv', hupd⟩ := hplaced.table hinv habs hout
    have hused := hplaced.used_le
    have hcap' := hplaced.capacity_eq
    refine .inr ⟨_, heq, hinv', hupd, hn, hcap'.trans hcap, ?_⟩
    dsimp only at hused ⊢
    omega

/-- After `rehash` the table holds the same pairs, and there is room for the new key, unless the hash part would be too
large. -/
theorem rehash_spec {ins : Newkey V} (hins : RoomIns hs ins) {t : Table V} (h : Inv hs t) (ek : Key) :
    2 ^ 30 < (rehashSizes (setlimittosize t) ek).2 ∧ rehash hs ins t ek = .error (.msg "table overflow") ∨
      ∃ t' n cap, rehash hs ins t ek = .ok t' ∧ Inv hs t' ∧
        Roomy ek n cap [] t' ∧ ∀ k v, Holds t' k v ↔ Holds t k v := by
  obtain ⟨heq, hinv⟩ := h.setlimittosize
  obtain ⟨hn, hnh⟩ := rehashSizes_spec (t := setlimittosize t) (by rw [heq]) (by rw [heq]; exact h.size) ek
  have hdrop := countP_drop t.array (rehashSizes (setlimittosize t) ek).1
  have hroom := le_roomFor (rehashSizes (setlimittosize t) ek).2
  rw [rehash]
  generalize rehashSizes (setlimittosize t) ek = sizes at *
  obtain ⟨n, nh⟩ := sizes
  dsimp only at *
  have harr : (setlimittosize t).array = t.array := by rw [heq]
  have hnode : (setlimittosize t).hash = t.hash := by rw [heq]
  have halimit : (setlimittosize t).alimit = t.array.length := by rw [heq]
  rw [harr, hnode, halimit] at hnh
  have hskip : ∀ (nd : Node V) l t', nd.val = none → Roomy ek n (roomFor nh) (nd :: l) t' →
      Roomy ek n (roomFor nh) l t' := by
    intro nd l t' _ hroomy
    refine ⟨hroomy.1, hroomy.2.1, ?_⟩
    have hle := hroomy.2.2
    rw [List.countP_cons] at hle
    omega
  have hstart : ∀ t', Inv hs t' → t'.array.length = n → t'.hash.capacity = roomFor nh →
      t'.hash.used ≤ ((setlimittosize t).array.drop n).countP (·.isSome) →
      (∀ k v, Holds t' k v → Holds (setlimittosize t) k v) →
      Roomy ek n (roomFor nh) (setlimittosize t).hash.node t' := by
    intro t' _ hlen hcap hused _
    refine ⟨hlen, hcap, ?_⟩
    rw [harr] at hused
    rw [hnode]
    omega
  rcases resize_spec hins hinv hn (by rw [harr]; omega) (Roomy ek n (roomFor nh)) hskip
    (fun nd k v l t' hkey hval hk hinv' hroomy => roomy_set hins hkey hval hk hinv' hroomy) hstart with
    ⟨hbig, herr⟩ | ⟨t', heq', hinv', hroomy, hholds⟩
  · exact .inl ⟨hbig.resolve_left id, herr⟩
  · refine .inr ⟨t', n, roomFor nh, heq', hinv', hroomy, fun k v => ?_⟩
    rw [hholds, heq]
    rfl

/-- `luaH_newkey`, where `ins` is what it calls through `rehash`. -/
def newkeyWith (hs : Hashes) (ins : Newkey V) : Newkey V := fun t key v =>
  match normalizeKey key with
  | .error e => .ok (t, .error e)
  | .ok key =>
    match v with
    | none => .ok (t, .ok ())
    | some v => do
      let (h, placed) ← insertNode hs t.hash key v
      let t := { t with hash := h }
      if placed then .ok (t, .ok ())
      else
        let t ← rehash hs ins t key
        set hs ins t key (some v)

theorem newkey_succ (d : Nat) : newkey (V := V) hs (d + 1) = newkeyWith hs (newkey hs d) := rfl

/-- `luaH_newkey` adds the pair, whatever has to move, if only its own calls find a free node. -/
theorem newkeyWith_spec {ins : Newkey V} (hins : RoomIns hs ins) : Inserts hs (newkeyWith hs ins) := by
  intro t k c x h hc habs hout
  unfold newkeyWith
  dsimp only
  rw [canon_eq_some.mp hc]
  dsimp only
  have hk : Normal c := normal_of_normalizeKey (canon_eq_some.mp hc)
  cases x with
  | none => exact .inr ⟨t, rfl, h, updates_none habs hout⟩
  | some v =>
    dsimp only
    rcases insertNode_spec h.hash hk habs v with ⟨lf, heq, hinv', hfull⟩ | ⟨h', heq, hplaced⟩
    · rw [heq, Rust.ok_bind]
      dsimp only
      rw [if_neg Bool.false_ne_true]
      have h₁ : Inv hs { t with hash := { t.hash with lastfree := lf } } := ⟨hinv', h.size, h.limit, h.apart⟩
      rcases rehash_spec hins h₁ c with ⟨hbig, herr⟩ | ⟨t₁, n, cap, hre, hinv₁, ⟨hn, hcap, hroom⟩, hholds⟩
      · rw [herr]
        rw [h₁.setlimittosize.1] at hbig
        exact .inl ⟨⟨rfl, habs, hout, hfull, hbig⟩, rfl⟩
      rw [hre, Rust.ok_bind]
      rw [List.countP_nil] at hroom
      have hupd : ∀ {t'}, Updates t₁ t' c (some v) → Updates t t' c (some v) := by
        intro t' hu k' v'
        rw [hu k' v', hholds]
        rfl
      refine set_spec hinv₁ (canon_eq_some.mpr hk) (some v) ?_ ?_
      · intro a t' hinv₂ hu _ _
        exact ⟨hinv₂, hupd hu⟩
      · intro a hinv₂ habs₁ hout₁
        rw [hn] at hout₁
        rw [hout₁, if_neg Bool.false_ne_true] at hroom
        obtain ⟨h', heq', hplaced⟩ := hins { t₁ with alimit := a } c v hk hinv₂.hash habs₁ (by dsimp only; omega)
        obtain ⟨hinv₃, hu⟩ := hplaced.table hinv₂ habs₁ (by dsimp only; rw [hn, hout₁])
        exact .inr ⟨_, heq', hinv₃, hupd hu⟩
    · rw [heq, Rust.ok_bind]
      obtain ⟨hinv', hupd⟩ := hplaced.table h habs hout
      exact .inr ⟨_, rfl, hinv', hupd⟩

theorem newkey_spec (d : Nat) : Inserts (V := V) hs (newkey hs (d + 2)) := newkeyWith_spec (newkey_room d)

end Tsuki.Table
