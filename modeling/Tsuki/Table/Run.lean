import Tsuki.Table.Length
import Tsuki.Table.Resize

/-!
# A table is a finite map

The operations on a table do to it what they do to a map from normalized keys to values, in every run from a new
table. `luaH_resize` takes part where the slots it cuts off find room in the new hash part; a second theorem shows
that pairs are lost otherwise.
-/

namespace Tsuki.Table

variable {V : Type}

/-! ## The map -/

/-- What a table stands for: the value of each normalized key. -/
abbrev Map (V : Type) := Key → Option V

/-- The operations on a table. -/
inductive Op (V : Type)
  | get (k : Key)
  | getint (i : Int64)
  | set (k : Key) (x : Option V)
  | setint (i : Int64) (x : Option V)
  | resize (newasize nhsize : Nat)
  | getn
  | clearKey (i : Nat)

/-- The result of an operation: a value, or the rejection of a key. -/
abbrev Result (V : Type) := Except TableError (Option V)

/-- The operation on the map. -/
def Op.onMap (m : Map V) : Op V → Map V × Result V
  | .get k => (m, .ok ((canon k).bind m))
  | .getint i => (m, .ok (m (.int i)))
  | .set k x =>
    match normalizeKey k with
    | .ok c => (Function.update m c x, .ok none)
    | .error e => (m, .error e)
  | .setint i x => (Function.update m (.int i) x, .ok none)
  | .resize .. | .getn | .clearKey _ => (m, .ok none)

/-- The operations on the map, one after the other. -/
def runMap (m : Map V) : List (Op V) → Map V × List (Result V)
  | [] => (m, [])
  | op :: ops => ((runMap (op.onMap m).1 ops).1, (op.onMap m).2 :: (runMap (op.onMap m).1 ops).2)

section

variable (hs : Hashes) (d : Nat)

/-- `*luaH_get(t, k)`. -/
def lookup (t : Table V) (k : Key) : Rust (Option V) := do
  let (t, s) ← get hs t k
  load t s

/-- The operation on the table; `luaH_newkey` calls itself to a depth of two at most. -/
def Op.exec (t : Table V) : Op V → Rust (Table V × Result V)
  | .get k => do
    let (t, s) ← Table.get hs t k
    let x ← load t s
    .ok (t, .ok x)
  | .getint i => do
    let (t, s) ← Table.getint t i
    let x ← load t s
    .ok (t, .ok x)
  | .set k x => do
    let (t, r) ← Table.set hs (newkey hs (d + 2)) t k x
    .ok (t, r.map fun _ => none)
  | .setint i x => do
    let t ← Table.setint (newkey hs (d + 2)) t i x
    .ok (t, .ok none)
  | .resize newasize nhsize => do
    let t ← Table.resize hs (newkey hs (d + 2)) t newasize nhsize
    .ok (t, .ok none)
  | .getn => do
    let (t, _) ← Table.getn t
    .ok (t, .ok none)
  | .clearKey i => .ok (Table.clearKey t i, .ok none)

/-- The operations on the table, one after the other. -/
def run (t : Table V) : List (Op V) → Rust (Table V × List (Result V))
  | [] => .ok (t, [])
  | op :: ops => do
    let (t, r) ← op.exec hs d t
    let (t, rs) ← run t ops
    .ok (t, r :: rs)

/-- A call of `luaH_resize` is in order where the array part becomes no larger than `rehash` counts, and the slots it
cuts off have room in the new hash part. -/
def Op.Fits (t : Table V) : Op V → Prop
  | .resize newasize nhsize => newasize ≤ 2 ^ 31 ∧ (t.array.drop newasize).countP (·.isSome) ≤ roomFor nhsize
  | _ => True

/-- A hash part would be too large: `luaH_resize` is asked for it, or a write is, to the table or to one that
`luaH_resize` builds of its pairs. -/
def Op.Overflows (t : Table V) : Op V → Prop
  | .set k x => ∃ c, canon k = some c ∧ Table.Overflows t c x
  | .setint i x => Table.Overflows t (.int i) x
  | .resize _ nhsize => 2 ^ 30 < nhsize ∨
      ∃ t' c v, Inv hs t' ∧ (∀ k w, Holds t' k w → Holds t k w) ∧ Holds t c v ∧ Table.Overflows t' c (some v)
  | _ => False

/-- The run comes to an operation where a hash part would be too large. -/
def RunOverflows (t : Table V) : List (Op V) → Prop
  | [] => False
  | op :: ops => op.Overflows hs t ∨ ∃ t' r, op.exec hs d t = .ok (t', r) ∧ RunOverflows t' ops

/-- All calls of `luaH_resize` in the run are in order. -/
def AllFit (t : Table V) : List (Op V) → Prop
  | [] => True
  | op :: ops => op.Fits t ∧ ∀ t' r, op.exec hs d t = .ok (t', r) → AllFit t' ops

end

/-! ## One operation -/

variable {hs : Hashes} {d : Nat}

/-- The table stands for the map. -/
structure Represents (hs : Hashes) (t : Table V) (m : Map V) : Prop where
  inv : Inv hs t
  holds : ∀ k v, Holds t k v ↔ m k = some v

theorem new_represents : Represents hs (new V) fun _ => none :=
  ⟨new_inv, fun k v => iff_of_false (not_holds_new k v) (by simp)⟩

section

variable {t : Table V} {m : Map V} (h : Represents hs t m)
include h

theorem Represents.update {t' : Table V} (hinv : Inv hs t') {k : Key} {x : Option V} (hupd : Updates t t' k x) :
    Represents hs t' (Function.update m k x) := by
  refine ⟨hinv, fun k' v' => ?_⟩
  rw [hupd]
  by_cases hkk : k' = k
  · rw [hkk, Function.update_self]
    simp
  · rw [Function.update_of_ne hkk, h.holds]
    simp [hkk]

theorem Represents.of_holds {t' : Table V} (hinv : Inv hs t') (hholds : ∀ k v, Holds t' k v ↔ Holds t k v) :
    Represents hs t' m :=
  ⟨hinv, fun k v => (hholds k v).trans (h.holds k v)⟩

/-- What stands in the slot of a key. -/
theorem Represents.load {a : Nat} {s : Slot} {c : Option Key} (hinv : Inv hs { t with alimit := a })
    (hslot : SlotOf t c s) : load { t with alimit := a } s = .ok (c.bind m) := by
  obtain ⟨x, hload, hx⟩ := load_spec hinv (show SlotOf { t with alimit := a } c s from hslot)
  rw [hload]
  congr 1
  apply Option.ext
  intro v
  rw [hx, Option.bind_eq_some_iff]
  exact exists_congr fun k => and_congr_right fun _ => h.holds k v

theorem Represents.lookup_eq (k : Key) : lookup hs t k = .ok ((canon k).bind m) := by
  obtain ⟨a, s, hget, hinv, hslot⟩ := get_spec h.inv k
  rw [lookup, hget, Rust.ok_bind]
  exact h.load hinv hslot

/-- A write under a key that is none changes nothing. -/
theorem Represents.set_rejects {k : Key} {e : TableError} (hk : normalizeKey k = .error e) (x : Option V) :
    set hs (newkey hs (d + 2)) t k x = .ok (t, .error e) := by
  have hget : get hs t k = .ok (t, .absent) := by
    cases k with
    | nil => rfl
    | float f =>
      rw [normalizeKey] at hk
      rw [get_float]
      cases hf : f.flttointegerEq with
      | some i =>
        rw [hf] at hk
        cases hk
      | none =>
        rw [hf] at hk
        dsimp only at hk ⊢
        split_ifs at hk with hnan
        obtain ⟨s, hsearch, hfound⟩ := getgeneric_nan h.inv.hash hnan
        rw [hsearch]
        cases s with
        | absent => rfl
        | array => exact hfound.elim
        | node j =>
          obtain ⟨k', hk', -⟩ := hfound
          cases hk'
    | _ => cases hk
  rw [set, hget, Rust.ok_bind]
  dsimp only
  rw [finishset]
  unfold newkey
  dsimp only
  rw [hk]

/-- A write under a key. -/
theorem Represents.set {k c : Key} (hk : normalizeKey k = .ok c) (x : Option V) :
    Done (Overflows t c x) (Table.set hs (newkey hs (d + 2)) t k x) fun t' =>
      Represents hs t' (Function.update m c x) := by
  refine set_spec h.inv (canon_eq_some.mpr hk) x ?_ ?_
  · intro a t' hinv hupd _ _
    exact h.update hinv hupd
  · intro a hinv habs hout
    refine (newkey_spec d _ k c x hinv (canon_eq_some.mpr hk) habs hout).imp Overflows.of_alimit ?_
    rintro t' ⟨hinv', hupd⟩
    exact h.update hinv' hupd

theorem setint_eq (ins : Newkey V) (i : Int64) (x : Option V) :
    setint ins t i x = Table.set hs ins t (.int i) x >>= unwrapOk := by
  obtain ⟨a, s, hget, hinv, hslot⟩ := getint_spec h.inv i
  rw [setint, Table.set, show get hs t (.int i) = getint t i from rfl, hget, Rust.ok_bind, Rust.ok_bind]
  dsimp only
  by_cases hs' : s = .absent
  · rw [hs']
    rfl
  · obtain ⟨t', hst, -⟩ := store_spec hinv (show SlotOf { t with alimit := a } _ s from hslot) hs' x
    rw [finishset_of_ne ins hs', hst]
    cases s with
    | absent => exact absurd rfl hs'
    | array | node => exact hst

theorem Represents.resize {newasize nhsize : Nat} (hfits : (Op.resize (V := V) newasize nhsize).Fits t) :
    (Op.resize newasize nhsize).Overflows hs t ∧
        Table.resize hs (newkey hs (d + 2)) t newasize nhsize = .error (.msg "table overflow") ∨
      ∃ t', Table.resize hs (newkey hs (d + 2)) t newasize nhsize = .ok t' ∧ Represents hs t' m := by
  -- the nodes still to come are those of the table, and it has all pairs that were moved
  let good (l : List (Node V)) (t' : Table V) : Prop :=
    (∀ k v, ListHolds l k v → Holds t k v) ∧ ∀ k w, Holds t' k w → Holds t k w
  have htail {nd : Node V} {l : List (Node V)} {k : Key} {v : V} (hl : ListHolds l k v) : ListHolds (nd :: l) k v :=
    ⟨hl.choose, List.mem_cons_of_mem _ hl.choose_spec.1, hl.choose_spec.2⟩
  have hset : ∀ (nd : Node V) k v (l : List (Node V)) t', nd.key = .live k → nd.val = some v → Normal k →
      Inv hs t' → good (nd :: l) t' → Done (∃ t' c v, Inv hs t' ∧ (∀ k w, Holds t' k w → Holds t k w) ∧ Holds t c v ∧
        Overflows t' c (some v)) (Table.set hs (newkey hs (d + 2)) t' k (some v)) fun t'' =>
        Inv hs t'' ∧ Updates t' t'' k (some v) ∧ good l t'' := by
    intro nd k v l t' hkey hval hk hinv hgood
    have hkv : Holds t k v := hgood.1 k v ⟨nd, List.mem_cons_self, hkey, hval⟩
    have hnext {t'' : Table V} (hupd : Updates t' t'' k (some v)) : good l t'' := by
      refine ⟨fun k w hl => hgood.1 k w (htail hl), fun k' w hw => ?_⟩
      rcases (hupd k' w).mp hw with ⟨rfl, heq⟩ | ⟨-, hold⟩
      · rwa [← Option.some.inj heq]
      · exact hgood.2 k' w hold
    refine set_spec hinv (canon_eq_some.mpr hk) (some v) ?_ ?_
    · intro a t'' hinv' hupd _ _
      exact ⟨hinv', hupd, hnext hupd⟩
    · intro a hinv' habs hout
      exact (newkey_spec d _ k k (some v) hinv' (canon_eq_some.mpr hk) habs hout).imp
        (fun hover => ⟨t', k, v, hinv, hgood.2, hkv, hover.of_alimit⟩) fun t'' hn => ⟨hn.1, hn.2, hnext hn.2⟩
  rcases resize_spec (newkey_room (d + 1)) h.inv hfits.1 hfits.2 good
    (fun nd l t' _ hgood => ⟨fun k w hl => hgood.1 k w (htail hl), hgood.2⟩) hset
    (fun t' _ _ _ _ hsub => ⟨fun k v => Or.inr ∘ listHolds_iff.mp, hsub⟩) with ⟨hover, herr⟩ | ⟨t', heq, hinv, -, hholds⟩
  · exact .inl ⟨hover.symm, herr⟩
  · exact .inr ⟨t', heq, h.of_holds hinv hholds⟩

/-- Each operation does to the table what it does to the map. -/
theorem Represents.exec {op : Op V} (hfits : op.Fits t) :
    op.Overflows hs t ∧ op.exec hs d t = .error (.msg "table overflow") ∨
      ∃ t', op.exec hs d t = .ok (t', (op.onMap m).2) ∧ Represents hs t' (op.onMap m).1 := by
  cases op with
  | get k =>
    obtain ⟨a, s, hget, hinv, hslot⟩ := get_spec h.inv k
    rw [Op.exec, hget, Rust.ok_bind]
    dsimp only
    rw [h.load hinv hslot, Rust.ok_bind]
    exact .inr ⟨_, rfl, h.of_holds hinv fun _ _ => Iff.rfl⟩
  | getint i =>
    obtain ⟨a, s, hget, hinv, hslot⟩ := getint_spec h.inv i
    rw [Op.exec, hget, Rust.ok_bind]
    dsimp only
    rw [h.load hinv hslot, Rust.ok_bind]
    exact .inr ⟨_, rfl, h.of_holds hinv fun _ _ => Iff.rfl⟩
  | set k x =>
    rw [Op.exec, Op.onMap]
    cases hk : normalizeKey k with
    | error e =>
      rw [h.set_rejects hk, Rust.ok_bind]
      exact .inr ⟨t, rfl, h⟩
    | ok c =>
      rcases h.set hk x with ⟨hover, herr⟩ | ⟨t', heq, ht'⟩
      · rw [herr]
        exact .inl ⟨⟨c, canon_eq_some.mpr hk, hover⟩, rfl⟩
      · rw [heq, Rust.ok_bind]
        exact .inr ⟨t', rfl, ht'⟩
  | setint i x =>
    rw [Op.exec, Op.onMap, setint_eq h]
    rcases h.set (k := .int i) (c := .int i) (normal_int i) x with ⟨hover, herr⟩ | ⟨t', heq, ht'⟩
    · rw [herr]
      exact .inl ⟨hover, rfl⟩
    · rw [heq, Rust.ok_bind, unwrapOk, Rust.ok_bind]
      exact .inr ⟨t', rfl, ht'⟩
  | resize newasize nhsize =>
    rw [Op.exec]
    rcases h.resize hfits with ⟨hover, herr⟩ | ⟨t', heq, ht'⟩
    · rw [herr]
      exact .inl ⟨hover, rfl⟩
    · rw [heq, Rust.ok_bind]
      exact .inr ⟨t', rfl, ht'⟩
  | getn =>
    obtain ⟨t', n, heq, ht', -⟩ := getn_spec h.inv
    rw [Op.exec, heq, Rust.ok_bind]
    exact .inr ⟨t', rfl, h.of_holds ht'.1 ht'.holds⟩
  | clearKey i =>
    obtain ⟨hinv, hholds⟩ := clearKey_spec h.inv i
    exact .inr ⟨_, rfl, h.of_holds hinv hholds⟩

end

/-! ## Runs -/

theorem run_represents (ops : List (Op V)) : ∀ {t : Table V} {m : Map V}, Represents hs t m → AllFit hs d t ops →
    RunOverflows hs d t ops ∧ run hs d t ops = .error (.msg "table overflow") ∨
      ∃ t', run hs d t ops = .ok (t', (runMap m ops).2) ∧ Represents hs t' (runMap m ops).1 := by
  induction ops with
  | nil =>
    intro t m h _
    exact .inr ⟨t, rfl, h⟩
  | cons op ops ih =>
    intro t m h hfit
    rw [run]
    rcases h.exec hfit.1 with ⟨hover, herr⟩ | ⟨t', heq, ht'⟩
    · rw [herr]
      exact .inl ⟨.inl hover, rfl⟩
    rw [heq, Rust.ok_bind]
    dsimp only
    rcases ih ht' (hfit.2 t' _ heq) with ⟨hover, herr⟩ | ⟨t'', heq', ht''⟩
    · rw [herr]
      exact .inl ⟨.inr ⟨t', _, heq, hover⟩, rfl⟩
    rw [heq', Rust.ok_bind]
    exact .inr ⟨t'', rfl, ht''⟩

/-- Some run from a new table ends with the table. -/
def Reachable (hs : Hashes) (d : Nat) (t : Table V) : Prop :=
  ∃ ops rs, AllFit hs d (new V) ops ∧ run hs d (new V) ops = .ok (t, rs)

theorem Reachable.represents {t : Table V} (h : Reachable hs d t) : ∃ m, Represents hs t m := by
  obtain ⟨ops, rs, hfit, hrun⟩ := h
  rcases run_represents ops new_represents hfit with ⟨-, herr⟩ | ⟨t', heq, ht'⟩
  · rw [hrun] at herr
    cases herr
  · rw [hrun, Except.ok.injEq, Prod.mk.injEq] at heq
    exact ⟨_, heq.1 ▸ ht'⟩

/-- The pair is in the slot. -/
def StoredAt (t : Table V) (k : Key) (v : V) : Slot → Prop
  | .absent => False
  | .array u => k.pos = some u ∧ t.array[u]? = some (some v)
  | .node j => cell t.hash.node j = (.live k, some v)

theorem Inv.holds_iff {t : Table V} (h : Inv hs t) (k : Key) (v : V) : Holds t k v ↔ ∃! s, StoredAt t k v s := by
  constructor
  · rintro (⟨u, hpos, hget⟩ | ⟨j, hj⟩)
    · refine ⟨.array u, ⟨hpos, hget⟩, fun s hs' => ?_⟩
      cases s with
      | absent => exact hs'.elim
      | array u' =>
        have heq := hs'.1
        rw [hpos] at heq
        rw [Option.some.inj heq]
      | node j =>
        have hout := inArray_false_iff.mp (h.apart ⟨j, congrArg Prod.fst hs'⟩) u hpos
        rw [List.getElem?_eq_none hout] at hget
        cases hget
    · refine ⟨.node j, hj, fun s hs' => ?_⟩
      cases s with
      | absent => exact hs'.elim
      | array u =>
        have hout := inArray_false_iff.mp (h.apart ⟨j, congrArg Prod.fst hj⟩) u hs'.1
        have hget := hs'.2
        rw [List.getElem?_eq_none hout] at hget
        cases hget
      | node j' => rw [h.hash.content.inj (congrArg Prod.fst hs') (congrArg Prod.fst hj)]
  · rintro ⟨s, hs', -⟩
    cases s with
    | absent => exact hs'.elim
    | array u => exact .inl ⟨u, hs'⟩
    | node j => exact .inr ⟨j, hs'⟩

/-- In every run from a new table, where it does not end because a hash part of more than `2 ^ 30` nodes is asked for, each
operation gives the result it gives on the map. In the end each lookup finds what the map has, each pair is in one slot, and a write
under nil or NaN is rejected with the table as it was. -/
theorem run_eq_runMap (hs : Hashes) (d : Nat) (ops : List (Op V)) (hfit : AllFit hs d (new V) ops) :
    RunOverflows hs d (new V) ops ∧ run hs d (new V) ops = .error (.msg "table overflow") ∨
      ∃ t, run hs d (new V) ops = .ok (t, (runMap (fun _ => none) ops).2) ∧
        (∀ k, lookup hs t k = .ok ((canon k).bind (runMap (fun _ => none) ops).1)) ∧
        (∀ k v, (runMap (fun _ => none) ops).1 k = some v ↔ ∃! s, StoredAt t k v s) ∧
        ∀ k e x, normalizeKey k = .error e → set hs (newkey hs (d + 2)) t k x = .ok (t, .error e) := by
  rcases run_represents ops new_represents hfit with hover | ⟨t, heq, ht⟩
  · exact .inl hover
  · refine .inr ⟨t, heq, ht.lookup_eq, fun k v => ?_, fun k e x hk => ht.set_rejects hk x⟩
    rw [← ht.holds, ht.inv.holds_iff]

/-- Hashes that all collide. -/
def sameHash : Hashes := ⟨fun _ => 0, fun _ => 0, fun _ => 0, fun _ => 0⟩

/-- Two strings that collide, and a float that is the integer 1. -/
theorem run_collisions : ∃ t, run sameHash 0 (new Nat) [.resize 1 2, .set (.shortStr 1) (some 5),
      .set (.shortStr 2) (some 6), .set (.float ⟨0x3FF0000000000000⟩) (some 7), .set (.shortStr 1) none, .getn,
      .getint 1] = .ok (t, [.ok none, .ok none, .ok none, .ok none, .ok none, .ok none, .ok (some 7)]) ∧
    lookup sameHash t (.shortStr 1) = .ok none ∧ lookup sameHash t (.shortStr 2) = .ok (some 6) := by
  rcases run_eq_runMap sameHash 0 [.resize 1 2, .set (.shortStr 1) (some 5), .set (.shortStr 2) (some 6),
    .set (.float ⟨0x3FF0000000000000⟩) (some 7), .set (.shortStr 1) none, .getn, .getint 1]
    ⟨⟨by decide, Nat.zero_le _⟩, fun _ _ _ => ⟨trivial, fun _ _ _ => ⟨trivial, fun _ _ _ => ⟨trivial, fun _ _ _ =>
      ⟨trivial, fun _ _ _ => ⟨trivial, fun _ _ _ => ⟨trivial, fun _ _ _ => trivial⟩⟩⟩⟩⟩⟩⟩ with ⟨-, herr⟩ | ⟨t, heq, hall, -⟩
  · have hok : ∃ r, run sameHash 0 (new Nat) [.resize 1 2, .set (.shortStr 1) (some 5), .set (.shortStr 2) (some 6),
        .set (.float ⟨0x3FF0000000000000⟩) (some 7), .set (.shortStr 1) none, .getn, .getint 1] = .ok r := ⟨_, rfl⟩
    obtain ⟨r, hr⟩ := hok
    rw [hr] at herr
    cases herr
  · exact ⟨t, heq, hall (.shortStr 1), hall (.shortStr 2)⟩

/-- `luaH_resize` loses the pair of a slot it cuts off, where it gives the hash part no room for it. -/
theorem run_resize_loses : ∃ t, run sameHash 0 (new Nat) [.resize 1 0, .setint 1 (some 7), .resize 0 0, .getint 1] =
      .ok (t, [.ok none, .ok none, .ok none, .ok none]) ∧
    (runMap (fun _ => none) [.resize 1 0, .setint 1 (some 7), .resize 0 0, .getint 1]).2 =
      [.ok none, .ok none, .ok none, .ok (some 7)] :=
  ⟨_, rfl, rfl⟩

end Tsuki.Table
