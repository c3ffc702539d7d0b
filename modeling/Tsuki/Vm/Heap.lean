import Tsuki.Table.Run

/-!
# Objects and metatables

The objects an access can come to: tables, userdata with or without a property table, and the metatables of
both and of the basic types. `Graph` is what they are to the language, maps and links between them; `Heap.Rep`
says that a heap stands for a graph, whatever hints and caches its tables carry.
-/

namespace Tsuki.Vm

open Table (Key Slot Hashes Map FpKind)

/-- A value other than nil. -/
inductive Value
  | boolean (b : Bool)
  | int (i : Int64)
  | float (f : F64)
  | str (p : Nat)
  | table (a : Nat)
  | userdata (u : Nat)
  | fp (kind : FpKind) (p : Nat)
  | closure (p : Nat)
  | thread (p : Nat)
  deriving DecidableEq

/-- The type of a value, the low four bits of `tt_`. -/
def tag : Option Value → Nat
  | none => 0
  | some (.boolean _) => 1
  | some (.fp ..) => 2
  | some (.int _) | some (.float _) => 3
  | some (.str _) => 4
  | some (.table _) => 5
  | some (.closure _) => 6
  | some (.userdata _) => 7
  | some (.thread _) => 8

/-- A metamethod that is called. -/
def Value.isFunction (v : Value) : Bool := tag (some v) = 2 || tag (some v) = 6

/-- The value is an object of the collector. -/
def Value.collectable : Value → Bool
  | .boolean _ | .int _ | .float _ | .fp .. => false
  | _ => true

/-- The events of `TMS` that have a bit in `flags`. -/
inductive Event
  | index
  | newindex
  | gc
  | mode
  | len
  | eq
  deriving DecidableEq

/-- `struct UserData`. -/
structure UserData where
  props : Option Nat
  mt : Option Nat

/-- The parts of `struct Table` beside its array and hash part; `absent` is the bit of `flags` that says that the
table has no entry for the event. -/
structure TableObj where
  tbl : Table Value
  metatable : Option Nat
  absent : Event → Bool

/-- The color bits of `Object::marked`. -/
structure Mark where
  white : Bool
  black : Bool
  deriving DecidableEq

/-- All objects; `event` has the names of the events. -/
structure Heap where
  tables : Nat → TableObj
  udata : Nat → UserData
  typeMt : Nat → Option Nat
  event : Event → Nat
  marked : Value → Mark
  grayagain : List Value

/-- What the objects are to the language. -/
structure Graph where
  entries : Nat → Map Value
  metatable : Nat → Option Nat
  udata : Nat → UserData
  typeMt : Nat → Option Nat
  event : Event → Nat

variable (hs : Hashes)

/-! ## Operations on the heap -/

/-- The heap with the parts of table `a` replaced. -/
def Heap.setTbl (h : Heap) (a : Nat) (t : Table Value) : Heap :=
  { h with tables := Function.update h.tables a { h.tables a with tbl := t } }

def Heap.metatable (h : Heap) (o : Option Value) : Option Nat :=
  match o with
  | some (.table a) => (h.tables a).metatable
  | some (.userdata u) => (h.udata u).mt
  | o => h.typeMt (tag o)

/-- `*luaH_get(a, key)`. -/
def Heap.get (h : Heap) (a : Nat) (key : Key) : Rust (Heap × Slot × Option Value) := do
  let (t, s) ← Table.get hs (h.tables a).tbl key
  let x ← Table.load t s
  .ok (h.setTbl a t, s, x)

/-- `*luaH_getshortstr(mt, ename)`. -/
def Heap.eventOf (h : Heap) (mt : Nat) (e : Event) : Rust (Option Value) := do
  let s ← Table.getshortstr hs (h.tables mt).tbl.hash (h.event e)
  Table.load (h.tables mt).tbl s

/-- `luaT_gettm`, which remembers that the entry is missing. -/
def Heap.gettm (h : Heap) (mt : Nat) (e : Event) : Rust (Heap × Option Value) := do
  let tm ← h.eventOf hs mt e
  match tm with
  | none =>
    let t := h.tables mt
    .ok ({ h with tables := Function.update h.tables mt { t with absent := Function.update t.absent e true } }, none)
  | some tm => .ok (h, some tm)

/-- The event of a metatable that may be null, through the cache. -/
def Heap.fasttm (h : Heap) (mt : Option Nat) (e : Event) : Rust (Heap × Option Value) :=
  match mt with
  | none => .ok (h, none)
  | some mt => if (h.tables mt).absent e then .ok (h, none) else h.gettm hs mt e

/-- `luaT_gettmbyobj`. -/
def Heap.gettmbyobj (h : Heap) (o : Option Value) (e : Event) : Rust (Option Value) :=
  match h.metatable o with
  | none => .ok none
  | some mt => h.eventOf hs mt e

/-! ## The graph of a heap -/

/-- The metatable of a value. -/
def Graph.meta (G : Graph) (o : Option Value) : Option Nat :=
  match o with
  | some (.table a) => G.metatable a
  | some (.userdata u) => (G.udata u).mt
  | o => G.typeMt (tag o)

/-- The entry of table `a` for a key, which need not be normalized. -/
def Graph.entry (G : Graph) (a : Nat) (key : Key) : Option Value := (Table.canon key).bind (G.entries a)

/-- The metamethod of a value. -/
def Graph.tm (G : Graph) (o : Option Value) (e : Event) : Option Value :=
  (G.meta o).bind fun mt => G.entry mt (.shortStr (G.event e))

/-- The chain of metamethods for an event has `n` more values, up to one without the metamethod or with a function. -/
def Graph.ChainEnds (G : Graph) (e : Event) : Nat → Option Value → Prop
  | 0, t => ∀ f, G.tm t e = some f → f.isFunction = true
  | n + 1, t => ∃ f, G.tm t e = some f ∧ f.isFunction = false ∧ Graph.ChainEnds G e n (some f)

/-- The heap stands for the graph. -/
structure Heap.Rep (h : Heap) (G : Graph) : Prop where
  entries : ∀ a, Table.Represents hs (h.tables a).tbl (G.entries a)
  metatable : ∀ a, (h.tables a).metatable = G.metatable a
  absent : ∀ a e, (h.tables a).absent e = true → G.entry a (.shortStr (G.event e)) = none
  udata : h.udata = G.udata
  typeMt : h.typeMt = G.typeMt
  event : h.event = G.event

/-- The same colors. -/
structure SameMarks (h h' : Heap) : Prop where
  marked : h'.marked = h.marked
  grayagain : h'.grayagain = h.grayagain

theorem SameMarks.refl (h : Heap) : SameMarks h h := ⟨rfl, rfl⟩

theorem SameMarks.trans {h h' h'' : Heap} (h1 : SameMarks h h') (h2 : SameMarks h' h'') : SameMarks h h'' :=
  ⟨h2.marked.trans h1.marked, h2.grayagain.trans h1.grayagain⟩

section

variable {hs} {h : Heap} {G : Graph} (hrep : h.Rep hs G)
include hrep

theorem Heap.Rep.metatable_eq (o : Option Value) : h.metatable o = G.meta o := by
  unfold Heap.metatable Graph.meta
  split
  · exact hrep.metatable _
  · rw [hrep.udata]
  · rw [hrep.typeMt]

/-- The heap still stands for the graph if one of its tables is replaced by another for the same map. -/
theorem Heap.Rep.setTbl {a : Nat} {t : Table Value} (ht : Table.Represents hs t (G.entries a)) :
    (h.setTbl a t).Rep hs G := by
  refine ⟨fun b => ?_, fun b => ?_, fun b e => ?_, hrep.udata, hrep.typeMt, hrep.event⟩
  · by_cases hb : b = a
    · subst hb
      simpa [Heap.setTbl] using ht
    · simpa [Heap.setTbl, Function.update_of_ne hb] using hrep.entries b
  · by_cases hb : b = a
    · subst hb
      simpa [Heap.setTbl] using hrep.metatable b
    · simpa [Heap.setTbl, Function.update_of_ne hb] using hrep.metatable b
  · by_cases hb : b = a
    · subst hb
      simpa [Heap.setTbl] using hrep.absent b e
    · simpa [Heap.setTbl, Function.update_of_ne hb] using hrep.absent b e

/-- A lookup gives the entry, and a slot that holds for the table as it is then. -/
theorem Heap.Rep.get (a : Nat) (key : Key) :
    ∃ h' s, h.get hs a key = .ok (h', s, G.entry a key) ∧ h'.Rep hs G ∧ SameMarks h h' ∧
      Table.SlotOf (h'.tables a).tbl (Table.canon key) s := by
  obtain ⟨n, s, hget, hinv, hslot⟩ := Table.get_spec (hrep.entries a).inv key
  have hload := (hrep.entries a).load hinv hslot
  refine ⟨h.setTbl a { (h.tables a).tbl with alimit := n }, s, ?_, ?_, ⟨rfl, rfl⟩, ?_⟩
  · rw [Heap.get, hget, Rust.ok_bind]
    dsimp only
    rw [hload, Rust.ok_bind]
    rfl
  · exact hrep.setTbl ((hrep.entries a).of_holds hinv fun _ _ => Iff.rfl)
  · simp only [Heap.setTbl, Function.update_self]
    exact hslot

theorem Heap.Rep.eventOf (mt : Nat) (e : Event) :
    h.eventOf hs mt e = .ok (G.entry mt (.shortStr (G.event e))) := by
  obtain ⟨n, s, hget, hinv, hslot⟩ := Table.get_spec (hrep.entries mt).inv (.shortStr (h.event e))
  have hload := (hrep.entries mt).load hinv hslot
  rw [Heap.eventOf]
  rw [Table.get_shortStr] at hget
  cases hsearch : Table.getshortstr hs (h.tables mt).tbl.hash (h.event e) with
  | error f =>
    rw [hsearch] at hget
    exact nomatch hget
  | ok s' =>
    rw [hsearch] at hget
    obtain ⟨ht, rfl⟩ := Prod.mk.inj (Except.ok.inj hget)
    rw [← ht] at hload
    rw [Rust.ok_bind, Graph.entry, ← hrep.event]
    exact hload

theorem Heap.Rep.gettm (mt : Nat) (e : Event) :
    ∃ h', h.gettm hs mt e = .ok (h', G.entry mt (.shortStr (G.event e))) ∧ h'.Rep hs G ∧ SameMarks h h' ∧
      ∀ a, (h'.tables a).tbl = (h.tables a).tbl := by
  rw [Heap.gettm, hrep.eventOf mt e, Rust.ok_bind]
  cases htm : G.entry mt (.shortStr (G.event e)) with
  | some tm => exact ⟨h, rfl, hrep, .refl h, fun _ => rfl⟩
  | none =>
    refine ⟨_, rfl, ⟨fun b => ?_, fun b => ?_, fun b e' => ?_, hrep.udata, hrep.typeMt, hrep.event⟩, ⟨rfl, rfl⟩,
      fun b => ?_⟩
    · by_cases hb : b = mt
      · subst hb
        simpa using hrep.entries b
      · simpa [Function.update_of_ne hb] using hrep.entries b
    · by_cases hb : b = mt
      · subst hb
        simpa using hrep.metatable b
      · simpa [Function.update_of_ne hb] using hrep.metatable b
    · by_cases hb : b = mt
      · subst hb
        by_cases he : e' = e
        · subst he
          exact fun _ => htm
        · simpa [Function.update_of_ne he] using hrep.absent b e'
      · simpa [Function.update_of_ne hb] using hrep.absent b e'
    · by_cases hb : b = mt
      · subst hb
        simp
      · simp [Function.update_of_ne hb]

/-- The cache does not change what a metatable has for an event. -/
theorem Heap.Rep.fasttm (mt : Option Nat) (e : Event) :
    ∃ h', h.fasttm hs mt e = .ok (h', mt.bind fun mt => G.entry mt (.shortStr (G.event e))) ∧ h'.Rep hs G ∧
      SameMarks h h' ∧ ∀ a, (h'.tables a).tbl = (h.tables a).tbl := by
  cases mt with
  | none => exact ⟨h, rfl, hrep, .refl h, fun _ => rfl⟩
  | some mt =>
    rw [Heap.fasttm]
    by_cases habs : (h.tables mt).absent e = true
    · refine ⟨h, ?_, hrep, .refl h, fun _ => rfl⟩
      rw [if_pos habs, Option.bind_some, hrep.absent mt e habs]
    · rw [if_neg habs]
      exact hrep.gettm mt e

theorem Heap.Rep.gettmbyobj (o : Option Value) (e : Event) : h.gettmbyobj hs o e = .ok (G.tm o e) := by
  rw [Heap.gettmbyobj, hrep.metatable_eq, Graph.tm]
  cases G.meta o with
  | none => rfl
  | some mt => exact hrep.eventOf mt e

end

/-! ## A table with one entry -/

/-- An empty table with room for one entry. -/
def roomForOne : Table Value := ⟨false, 0, [], ⟨0, [⟨.free, none, 0⟩], some 1⟩⟩

theorem roomForOne_represents : Table.Represents Table.sameHash roomForOne fun _ => none := by
  have hfresh : ∀ nd ∈ roomForOne.hash.node, nd = ⟨.free, none, 0⟩ := Table.dummyNode_fresh
  have hkey : ∀ k, ¬Table.HasKey (Table.cell roomForOne.hash.node) k := by
    rintro k ⟨i, hi⟩
    rw [Table.cell_of_fresh hfresh] at hi
    cases hi
  have hpart : roomForOne.hash.Inv Table.sameHash := by
    refine ⟨rfl, Table.isRanged_of_fresh hfresh, Table.isScatter_of_fresh hfresh _, Table.isContent_of_fresh hfresh,
      (fun h => nomatch h), ?_, Table.isFirst_of_fresh hfresh _, Nat.zero_le _⟩
    intro lf hlf
    rw [← Option.some.inj hlf]
    exact ⟨Nat.le_refl _, fun {i} hi hlt => absurd hlt (Nat.not_lt.mpr hi)⟩
  refine ⟨⟨hpart, Nat.zero_le _, .inl ⟨rfl, rfl⟩, fun h => absurd h (hkey _)⟩, fun k v => ?_⟩
  refine iff_of_false ?_ (fun h => nomatch h)
  rintro (⟨u, -, hu⟩ | hcell)
  · cases hu
  · exact hkey k hcell.hasKey

/-- A table with one entry, under a string. -/
def oneEntry (p : Nat) (v : Value) : Table Value := ⟨false, 0, [], ⟨0, [⟨.live (.shortStr p), some v, 0⟩], some 1⟩⟩

theorem oneEntry_represents {p : Nat} {v : Value}
    (hset : Table.set Table.sameHash (Table.newkey Table.sameHash 2) roomForOne (.shortStr p) (some v) =
      .ok (oneEntry p v, .ok ())) :
    Table.Represents Table.sameHash (oneEntry p v) (Function.update (fun _ => none) (.shortStr p) (some v)) := by
  rcases roomForOne_represents.set (d := 0) (k := .shortStr p) rfl (some v) with ⟨-, herr⟩ | ⟨t', heq, ht⟩
  · rw [hset] at herr
    cases herr
  · rw [hset] at heq
    obtain ⟨rfl, -⟩ := Prod.mk.inj (Except.ok.inj heq)
    exact ht

end Tsuki.Vm
