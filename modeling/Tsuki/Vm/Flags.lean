import Tsuki.Vm.NewIndex

/-!
# The cache of missing metamethods

`Table::flags` has a bit for each of the first events, which says that the table has no entry for it. A write to a slot
that has a value does not clear the bits, all others do: in every run the bits that are set are right. Bit 7 of the byte
belongs to the array part.
-/

namespace Tsuki.Vm

open Table (Key Slot Hashes Map TableError)

/-! ## The byte -/

/-- The number of the event in `TMS`. -/
def Event.number : Event → Nat
  | .index => 0
  | .newindex => 1
  | .gc => 2
  | .mode => 3
  | .len => 4
  | .eq => 5

/-- The byte that has bit `i`, if `b`. -/
def bit (b : Bool) (i : Nat) : BitVec 8 := if b then 1#8 <<< i else 0#8

/-- The byte with these bits. -/
def byteOf (index newindex gc mode len eq hint : Bool) : BitVec 8 :=
  bit index 0 ||| bit newindex 1 ||| bit gc 2 ||| bit mode 3 ||| bit len 4 ||| bit eq 5 ||| bit hint 7

def TableObj.flags (t : TableObj) : BitVec 8 :=
  byteOf (t.absent .index) (t.absent .newindex) (t.absent .gc) (t.absent .mode) (t.absent .len) (t.absent .eq) t.tbl.hint

def TableObj.new : TableObj := ⟨Table.new Value, none, fun _ => true⟩

theorem TableObj.new_flags : TableObj.new.flags = ~~~(BitVec.allOnes 8 <<< (Event.eq.number + 1)) := by decide

theorem TableObj.flags_event (t : TableObj) (e : Event) :
    t.flags &&& 1#8 <<< e.number ≠ 0 ↔ t.absent e = true := by
  have hall : ∀ a b c d e f g : Bool, ∀ i < 6, byteOf a b c d e f g &&& 1#8 <<< i ≠ 0 ↔ [a, b, c, d, e, f][i]? = some true := by
    decide
  cases e with
  | index => simpa [TableObj.flags, Event.number] using hall _ _ _ _ _ _ _ 0 (by decide)
  | newindex => simpa [TableObj.flags, Event.number] using hall _ _ _ _ _ _ _ 1 (by decide)
  | gc => simpa [TableObj.flags, Event.number] using hall _ _ _ _ _ _ _ 2 (by decide)
  | mode => simpa [TableObj.flags, Event.number] using hall _ _ _ _ _ _ _ 3 (by decide)
  | len => simpa [TableObj.flags, Event.number] using hall _ _ _ _ _ _ _ 4 (by decide)
  | eq => simpa [TableObj.flags, Event.number] using hall _ _ _ _ _ _ _ 5 (by decide)

/-- The test of `luaH_realasize` and `luaH_getint`. -/
theorem TableObj.flags_hint (t : TableObj) : t.flags &&& 1#8 <<< 7 ≠ 0 ↔ t.tbl.hint = true := by
  have hall : ∀ a b c d e f g : Bool, byteOf a b c d e f g &&& 1#8 <<< 7 ≠ 0 ↔ g = true := by decide
  exact hall ..

/-- `luaT_gettm` sets the bit of the event. -/
theorem TableObj.flags_remember (t : TableObj) (e : Event) :
    { t with absent := Function.update t.absent e true }.flags = t.flags ||| 1#8 <<< e.number := by
  have hall : ∀ a b c d e f g : Bool, byteOf true b c d e f g = byteOf a b c d e f g ||| 1#8 <<< 0 ∧
      byteOf a true c d e f g = byteOf a b c d e f g ||| 1#8 <<< 1 ∧
      byteOf a b true d e f g = byteOf a b c d e f g ||| 1#8 <<< 2 ∧
      byteOf a b c true e f g = byteOf a b c d e f g ||| 1#8 <<< 3 ∧
      byteOf a b c d true f g = byteOf a b c d e f g ||| 1#8 <<< 4 ∧
      byteOf a b c d e true g = byteOf a b c d e f g ||| 1#8 <<< 5 := by decide
  obtain ⟨h0, h1, h2, h3, h4, h5⟩ := hall (t.absent .index) (t.absent .newindex) (t.absent .gc) (t.absent .mode)
    (t.absent .len) (t.absent .eq) t.tbl.hint
  cases e
  exacts [h0, h1, h2, h3, h4, h5]

/-- `invalidateTMcache` keeps the bits above those of the events. -/
theorem TableObj.flags_clear (t : TableObj) :
    { t with absent := fun _ => false }.flags = t.flags &&& BitVec.allOnes 8 <<< (Event.eq.number + 1) := by
  have hall : ∀ a b c d e f g : Bool, byteOf false false false false false false g =
      byteOf a b c d e f g &&& BitVec.allOnes 8 <<< 6 := by decide
  exact hall ..

/-- `luaH_getn` sets bit 7, and `setlimittosize` clears it. -/
theorem TableObj.flags_setHint (t : TableObj) (b : Bool) :
    { t with tbl := { t.tbl with hint := b } }.flags =
      if b then t.flags ||| 1#8 <<< 7 else t.flags &&& ~~~(1#8 <<< 7) := by
  have hall : ∀ a b c d e f g : Bool, byteOf a b c d e f true = byteOf a b c d e f g ||| 1#8 <<< 7 ∧
      byteOf a b c d e f false = byteOf a b c d e f g &&& ~~~(1#8 <<< 7) := by decide
  obtain ⟨hset, hclear⟩ := hall (t.absent .index) (t.absent .newindex) (t.absent .gc) (t.absent .mode)
    (t.absent .len) (t.absent .eq) t.tbl.hint
  cases b
  exacts [hclear, hset]

/-! ## Operations -/

section

variable (hs : Hashes) (d : Nat)

def Heap.setSlotUnchecked (h : Heap) (a : Nat) (s : Slot) (key : Key) (v : Option Value) : Rust (Heap × SetResult) := do
  let (t', r) ← Table.finishset (Table.newkey hs (d + 2)) (h.tables a).tbl key s v
  match r with
  | .error e => .ok (h.setTbl a t', .keyError e)
  | .ok () => .ok (((h.setTbl a t').clearFlags a).barrier a v, .done)

/-- `Table::set_unchecked`, which `Table::set`, the setters for string keys and `rawset` come to. -/
def Heap.setUnchecked (h : Heap) (a : Nat) (key : Key) (v : Option Value) : Rust (Heap × SetResult) := do
  let (t', r) ← Table.set hs (Table.newkey hs (d + 2)) (h.tables a).tbl key v
  match r with
  | .error e => .ok (h.setTbl a t', .keyError e)
  | .ok () => .ok (((h.setTbl a t').clearFlags a).barrier a v, .done)

/-- What may happen to the tables, among it all writes. -/
inductive HeapOp
  | new (a : Nat)
  | vmSet (op : SetOp) (t v : Option Value)
  | threadSet (t : Option Value) (key : Key) (v : Option Value)
  | setUnchecked (a : Nat) (key : Key) (v : Option Value)
  | setSlotUnchecked (a : Nat) (key : Key) (v : Option Value)
  | get (a : Nat) (key : Key)
  | getn (a : Nat)
  | resize (a newasize nhsize : Nat)
  | gettm (mt : Nat) (e : Event)
  | fasttm (mt : Nat) (e : Event)
  | setMetatable (a : Nat) (mt : Option Nat)
  | setlist (a u : Nat) (v : Option Value)
  | clearSlot (a : Nat) (s : Slot)
  | clearKey (a i : Nat)

/-- The heap after the operation. `OP_SETLIST` stores to the array part; of `set_metatable` and
`remove_metatable` there is the link, but not the color. -/
def HeapOp.exec (h : Heap) : HeapOp → Rust Heap
  | .new a => .ok { h with tables := Function.update h.tables a TableObj.new }
  | .vmSet op t v => (Vm.vmSet hs d op h t v).map Prod.fst
  | .threadSet t key v => (Vm.threadSet hs d h t key v).map Prod.fst
  | .setUnchecked a key v => (h.setUnchecked hs d a key v).map Prod.fst
  | .setSlotUnchecked a key v => do
    let (h, s, _) ← h.get hs a key
    (h.setSlotUnchecked hs d a s key v).map Prod.fst
  | .get a key => (h.get hs a key).map Prod.fst
  | .getn a => (Table.getn (h.tables a).tbl).map fun r => h.setTbl a r.1
  | .resize a newasize nhsize =>
    (Table.resize hs (Table.newkey hs (d + 2)) (h.tables a).tbl newasize nhsize).map (h.setTbl a)
  | .gettm mt e => (h.gettm hs mt e).map Prod.fst
  | .fasttm mt e => (h.fasttm hs (some mt) e).map Prod.fst
  | .setMetatable a mt => do
    let (h, gc) ← h.fasttm hs mt .gc
    if gc.isSome then .ok h
    else .ok { h with tables := Function.update h.tables a { h.tables a with metatable := mt } }
  | .setlist a u v => (Table.store (h.tables a).tbl (.array u) v).map fun t => (h.setTbl a t).barrier a v
  | .clearSlot a s => (Table.store (h.tables a).tbl s none).map (h.setTbl a)
  | .clearKey a i => .ok (h.setTbl a (Table.clearKey (h.tables a).tbl i))

/-- The operations, one after the other. -/
def Heap.run (h : Heap) : List HeapOp → Rust Heap
  | [] => .ok h
  | op :: ops => do
    let h ← op.exec hs d h
    h.run ops

/-- A call of `luaH_resize` is in order. -/
def HeapOp.Fits (h : Heap) : HeapOp → Prop
  | .resize a newasize nhsize => (Table.Op.resize newasize nhsize).Fits (h.tables a).tbl
  | _ => True

/-- All calls of `luaH_resize` in the run are in order. -/
def Heap.AllFit (h : Heap) : List HeapOp → Prop
  | [] => True
  | op :: ops => op.Fits h ∧ ∀ h', op.exec hs d h = .ok h' → h'.AllFit ops

end

/-! ## Writes -/

section

variable {hs : Hashes} {d : Nat} {h : Heap} {G : Graph} {key : Key} {v : Option Value}

/-- Where the call ends, the heap stands for some graph. -/
def Kept {α : Type} (hs : Hashes) (r : Rust (Heap × α)) : Prop := ∀ h' x, r = .ok (h', x) → ∃ G, h'.Rep hs G

theorem Obeys.kept {e : Effect} {r : Rust (Heap × SetResult)} (hob : Obeys G hs h key v e r) : Kept hs r := by
  intro h' x hr
  have call : ∀ {y : SetResult}, (∃ h', r = .ok (h', y) ∧ h'.Rep hs G ∧ SameMarks h h') → ∃ G, h'.Rep hs G := by
    rintro y ⟨h₁, hr₁, hrep, -⟩
    rw [hr, Except.ok.injEq, Prod.mk.injEq] at hr₁
    exact ⟨G, hr₁.1 ▸ hrep⟩
  cases e with
  | write a =>
    rw [Obeys] at hob
    cases hk : Table.normalizeKey key with
    | error e =>
      rw [hk] at hob
      exact call hob
    | ok c =>
      rw [hk] at hob
      rcases hob with ⟨-, hover⟩ | ⟨h₁, hr₁, hrep, -⟩
      · rw [hr] at hover
        cases hover
      · rw [hr, Except.ok.injEq, Prod.mk.injEq] at hr₁
        exact ⟨_, hr₁.1 ▸ hrep⟩
  | call | typeError | loop => exact call hob

theorem setVia_kept (hrep : h.Rep hs G) (t : Option Value) (f : Value)
    {next : Heap → Option Value → Option (Nat × Slot) → Rust (Heap × SetResult)}
    (hnext : ∀ {h' slot}, h'.Rep hs G → SlotFor h' key (some f) slot → Kept hs (next h' (some f) slot)) :
    Kept hs (setVia hs key v next h t f) := by
  unfold setVia
  by_cases hfun : f.isFunction = true
  · rw [if_pos hfun]
    rintro h' x hr
    cases hr
    exact ⟨G, hrep⟩
  · rw [if_neg hfun]
    split
    · rename_i a
      obtain ⟨h₁, s, hget, hrep₁, -, hslot⟩ := hrep.get a key
      rw [hget, Rust.ok_bind]
      dsimp only
      cases hx : G.entry a key with
      | some x => exact (hrep₁.storeTo_obeys hslot (by rw [hx]; rfl) v).kept
      | none => exact hnext hrep₁ ⟨s, rfl, hslot⟩
    · rename_i hnt
      refine hnext hrep ?_
      unfold SlotFor
      split
      · rename_i b hb
        exact absurd (Option.some.inj hb) (hnt b)
      · rfl

/-- A run of `luaV_finishset`, even if the chain does not end. -/
theorem finishset_kept (n : Nat) {h : Heap} {t : Option Value} {slot : Option (Nat × Slot)} (hrep : h.Rep hs G)
    (hslot : SlotFor h key t slot) : Kept hs (finishset hs d key v n h t slot) := by
  induction n generalizing h t slot with
  | zero =>
    rintro h' x hr
    cases hr
    exact ⟨G, hrep⟩
  | succ n ih =>
    by_cases ht : ∃ a, t = some (.table a)
    · obtain ⟨a, rfl⟩ := ht
      obtain ⟨s, rfl, hs'⟩ := hslot
      obtain ⟨h₁, htm, hrep₁, -, htbl⟩ := hrep.fasttm (h.tables a).metatable .newindex
      rw [finishset]
      dsimp only
      rw [htm, Rust.ok_bind]
      cases (h.tables a).metatable.bind fun mt => G.entry mt (.shortStr (G.event .newindex)) with
      | none => exact (hrep₁.finishset_obeys (by rw [htbl]; exact hs') v).kept
      | some f => exact setVia_kept hrep₁ _ f fun hrep' hslot' => ih hrep' hslot'
    · have hslot' : slot = none := by
        unfold SlotFor at hslot
        split at hslot
        · exact absurd ⟨_, rfl⟩ ht
        · exact hslot
      subst hslot'
      rw [finishset, hrep.gettmbyobj, Rust.ok_bind]
      cases G.tm t .newindex with
      | none =>
        rintro h' x hr
        cases hr
        exact ⟨G, hrep⟩
      | some f => exact setVia_kept hrep t f fun hrep' hslot' => ih hrep' hslot'

theorem lookedUp_kept (hrep : h.Rep hs G) {a : Nat} {s : Slot}
    (hslot : Table.SlotOf (h.tables a).tbl (Table.canon key) s) (v : Option Value) :
    Kept hs (match G.entry a key with
      | some _ => h.storeTo a s v
      | none => finishset hs d key v 2000 h (some (.table a)) (some (a, s))) := by
  cases hx : G.entry a key with
  | some x => exact (hrep.storeTo_obeys hslot (by rw [hx]; rfl) v).kept
  | none => exact finishset_kept 2000 hrep ⟨s, rfl, hslot⟩

theorem slotFor_none {t : Option Value} (ht : ∀ a, t ≠ some (.table a)) : SlotFor h key t none := by
  unfold SlotFor
  split
  · exact absurd rfl (ht _)
  · rfl

theorem vmSet_kept (hrep : h.Rep hs G) (op : SetOp) (t v : Option Value) : Kept hs (vmSet hs d op h t v) := by
  unfold vmSet
  split
  · rename_i a
    obtain ⟨n, s, hget, hinv, hslot⟩ := Table.get_spec (hrep.entries a).inv op.key
    rw [op.lookup_eq, hget, Rust.ok_bind]
    dsimp only
    rw [(hrep.entries a).load hinv hslot, Rust.ok_bind]
    have hrep' : (h.setTbl a { (h.tables a).tbl with alimit := n }).Rep hs G :=
      hrep.setTbl ((hrep.entries a).of_holds hinv fun _ _ => Iff.rfl)
    refine lookedUp_kept hrep' ?_ v
    simp only [Heap.setTbl, Function.update_self]
    exact hslot
  · rename_i hnt
    exact finishset_kept 2000 hrep (slotFor_none fun a ha => hnt a ha)

theorem threadSet_kept (hrep : h.Rep hs G) (t : Option Value) (key : Key) (v : Option Value) :
    Kept hs (threadSet hs d h t key v) := by
  unfold threadSet
  split
  · rename_i a
    obtain ⟨h', s, hget, hrep', -, hslot⟩ := hrep.get a key
    rw [hget, Rust.ok_bind]
    exact lookedUp_kept hrep' hslot v
  · rename_i hnt
    exact finishset_kept 2000 hrep (slotFor_none fun a ha => hnt a ha)

theorem Heap.setTbl_setTbl (h : Heap) (a : Nat) (t t' : Table Value) : (h.setTbl a t).setTbl a t' = h.setTbl a t' := by
  simp only [Heap.setTbl, Function.update_self, Function.update_idem]

/-- `luaH_set` is a lookup and a write to the slot. -/
theorem setUnchecked_kept (hrep : h.Rep hs G) (a : Nat) (key : Key) (v : Option Value) :
    Kept hs (h.setUnchecked hs d a key v) := by
  obtain ⟨n, s, hget, hinv, hslot⟩ := Table.get_spec (hrep.entries a).inv key
  have hrep' : (h.setTbl a { (h.tables a).tbl with alimit := n }).Rep hs G :=
    hrep.setTbl ((hrep.entries a).of_holds hinv fun _ _ => Iff.rfl)
  have heq : h.setUnchecked hs d a key v =
      (h.setTbl a { (h.tables a).tbl with alimit := n }).setSlotUnchecked hs d a s key v := by
    rw [Heap.setUnchecked, Table.set, hget, Rust.ok_bind, Heap.setSlotUnchecked]
    simp only [Heap.setTbl_setTbl]
    rw [show ((h.setTbl a { (h.tables a).tbl with alimit := n }).tables a).tbl = { (h.tables a).tbl with alimit := n } by
      simp only [Heap.setTbl, Function.update_self]]
  rw [heq]
  refine (hrep'.finishset_obeys ?_ v).kept
  simp only [Heap.setTbl, Function.update_self]
  exact hslot

/-! ## The collector -/

theorem Heap.Rep.erase (hrep : h.Rep hs G) {a : Nat} {c : Key} {t : Table Value}
    (ht : Table.Represents hs t (Function.update (G.entries a) c none)) : (h.setTbl a t).Rep hs (G.assign a c none) := by
  refine hrep.assign ht fun e he => ?_
  show (G.assign a c none).entries a (.shortStr (G.event e)) = none
  simp only [Graph.assign, Function.update_self]
  by_cases hc : Key.shortStr (G.event e) = c
  · rw [hc, Function.update_self]
  · rw [Function.update_of_ne hc]
    exact hrep.absent a e he

theorem array_lt {t t' : Table Value} {u : Nat} {v : Option Value} (hstore : Table.store t (.array u) v = .ok t') :
    u < t.array.length := by
  by_contra hge
  rw [Table.store, idx, List.getElem?_eq_none (Nat.le_of_not_lt hge)] at hstore
  cases hstore

theorem setlist_kept (hrep : h.Rep hs G) {a u : Nat} {t : Table Value}
    (hstore : Table.store (h.tables a).tbl (.array u) v = .ok t) : ∃ G, ((h.setTbl a t).barrier a v).Rep hs G := by
  have hinv := (hrep.entries a).inv
  have hlt := array_lt hstore
  have hsize := hinv.size
  have hslot : Table.SlotOf (h.tables a).tbl (some (.int (Int64.ofNat (u + 1)))) (.array u) :=
    ⟨hlt, _, rfl, Table.pos_ofNat (by omega)⟩
  obtain ⟨t', heq, hinv', hupd, -⟩ := Table.store_spec hinv hslot (by simp) v
  rw [hstore] at heq
  obtain rfl := Except.ok.inj heq
  have hrep' : (h.setTbl a t).Rep hs (G.assign a (.int (Int64.ofNat (u + 1))) v) := by
    refine hrep.assign ((hrep.entries a).update hinv' hupd) fun e he => ?_
    show (G.assign a (.int (Int64.ofNat (u + 1))) v).entries a (.shortStr (G.event e)) = none
    simp only [Graph.assign, Function.update_self]
    rw [Function.update_of_ne (show Key.shortStr (G.event e) ≠ .int (Int64.ofNat (u + 1)) from (by simp))]
    exact hrep.absent a e he
  exact ⟨_, hrep'.barrier a v⟩

theorem clearSlot_kept (hrep : h.Rep hs G) {a : Nat} {s : Slot} {t : Table Value}
    (hstore : Table.store (h.tables a).tbl s none = .ok t) : ∃ G, (h.setTbl a t).Rep hs G := by
  have hinv := (hrep.entries a).inv
  have hslotOf : ∀ {c}, Table.SlotOf (h.tables a).tbl (some c) s → ∃ G, (h.setTbl a t).Rep hs G := by
    intro c hslot
    have hs' : s ≠ .absent := by
      rintro rfl
      cases hstore
    obtain ⟨t', heq, hinv', hupd, -⟩ := Table.store_spec hinv hslot hs' none
    rw [hstore] at heq
    obtain rfl := Except.ok.inj heq
    exact ⟨_, hrep.erase ((hrep.entries a).update hinv' hupd)⟩
  cases s with
  | absent => cases hstore
  | array u =>
    have hlt := array_lt hstore
    have hsize := hinv.size
    exact hslotOf ⟨hlt, _, rfl, Table.pos_ofNat (by omega)⟩
  | node j =>
    cases hnd : (h.tables a).tbl.hash.node[j]? with
    | none =>
      rw [Table.store, idx, hnd] at hstore
      cases hstore
    | some nd =>
      have hcell := Table.cell_of_get hnd
      cases hkey : nd.key with
      | live k => exact hslotOf ⟨k, rfl, by rw [hcell, hkey]⟩
      | free | dead =>
        -- a node whose key is not alive has no value to lose
        have hnone := hinv.hash.content.empty (i := j) fun k => by rw [hcell, hkey]; simp
        rw [hcell] at hnone
        have hsame : (h.tables a).tbl.hash.node.set j { nd with val := none } = (h.tables a).tbl.hash.node := by
          obtain ⟨hlt, hget⟩ := List.getElem?_eq_some_iff.mp hnd
          rw [show ({ nd with val := none } : Table.Node Value) = nd by rw [← show nd.val = none from hnone], ← hget]
          exact List.set_getElem_self hlt
        rw [Table.store, idx, hnd] at hstore
        have heq := Except.ok.inj hstore
        rw [hsame] at heq
        rw [← heq]
        exact ⟨G, hrep.setTbl (hrep.entries a)⟩

/-! ## Runs -/

theorem new_rep (hrep : h.Rep hs G) (a : Nat) :
    ∃ G, ({ h with tables := Function.update h.tables a TableObj.new } : Heap).Rep hs G := by
  refine ⟨{ G with entries := Function.update G.entries a fun _ => none, metatable := Function.update G.metatable a none },
    fun b => ?_, fun b => ?_, fun b e => ?_, hrep.udata, hrep.typeMt, hrep.event⟩
  · by_cases hb : b = a
    · subst hb
      simpa [TableObj.new] using Table.new_represents
    · simpa [Function.update_of_ne hb] using hrep.entries b
  · by_cases hb : b = a
    · subst hb
      simp [TableObj.new]
    · simpa [Function.update_of_ne hb] using hrep.metatable b
  · by_cases hb : b = a
    · subst hb
      intro _
      simp [Graph.entry]
    · intro he
      have hnone := hrep.absent b e (by simpa [Function.update_of_ne hb] using he)
      simpa [Graph.entry, Function.update_of_ne hb] using hnone

theorem Rust.map_eq_ok {α β : Type} {f : α → β} {r : Rust α} {y : β} (h : r.map f = .ok y) :
    ∃ x, r = .ok x ∧ f x = y := by
  cases r with
  | error e => cases h
  | ok x => exact ⟨x, rfl, Except.ok.inj h⟩

theorem HeapOp.exec_rep (hrep : h.Rep hs G) {op : HeapOp} (hfits : op.Fits h) {h' : Heap}
    (hexec : op.exec hs d h = .ok h') : ∃ G, h'.Rep hs G := by
  have kept : ∀ {α : Type} {r : Rust (Heap × α)}, Kept hs r → r.map Prod.fst = .ok h' → ∃ G, h'.Rep hs G := by
    intro α r hkept hr
    obtain ⟨⟨h₁, x⟩, rfl, rfl⟩ := Rust.map_eq_ok hr
    exact hkept h₁ x rfl
  cases op with
  | new a =>
    cases hexec
    exact new_rep hrep a
  | vmSet op t v => exact kept (vmSet_kept hrep op t v) hexec
  | threadSet t key v => exact kept (threadSet_kept hrep t key v) hexec
  | setUnchecked a key v => exact kept (setUnchecked_kept hrep a key v) hexec
  | setSlotUnchecked a key v =>
    obtain ⟨h₁, s, hget, hrep₁, -, hslot⟩ := hrep.get a key
    rw [HeapOp.exec, hget, Rust.ok_bind] at hexec
    exact kept (hrep₁.finishset_obeys hslot v).kept hexec
  | get a key =>
    obtain ⟨h₁, s, hget, hrep₁, -, -⟩ := hrep.get a key
    rw [HeapOp.exec, hget] at hexec
    cases hexec
    exact ⟨G, hrep₁⟩
  | getn a =>
    obtain ⟨t, n, heq, ht, -⟩ := Table.getn_spec (hrep.entries a).inv
    rw [HeapOp.exec, heq] at hexec
    cases hexec
    exact ⟨G, hrep.setTbl ((hrep.entries a).of_holds ht.1 ht.holds)⟩
  | resize a newasize nhsize =>
    obtain ⟨t, heq, rfl⟩ := Rust.map_eq_ok hexec
    rcases (hrep.entries a).resize (d := d) hfits with ⟨-, herr⟩ | ⟨t', heq', ht'⟩
    · rw [heq] at herr
      cases herr
    · rw [heq] at heq'
      obtain rfl := Except.ok.inj heq'
      exact ⟨G, hrep.setTbl ht'⟩
  | gettm mt e =>
    obtain ⟨h₁, heq, hrep₁, -⟩ := hrep.gettm mt e
    rw [HeapOp.exec, heq] at hexec
    cases hexec
    exact ⟨G, hrep₁⟩
  | fasttm mt e =>
    obtain ⟨h₁, heq, hrep₁, -⟩ := hrep.fasttm (some mt) e
    rw [HeapOp.exec, heq] at hexec
    cases hexec
    exact ⟨G, hrep₁⟩
  | setMetatable a mt =>
    obtain ⟨h₁, heq, hrep₁, -⟩ := hrep.fasttm mt .gc
    rw [HeapOp.exec, heq, Rust.ok_bind] at hexec
    dsimp only at hexec
    split_ifs at hexec
    · cases hexec
      exact ⟨G, hrep₁⟩
    · cases hexec
      refine ⟨{ G with metatable := Function.update G.metatable a mt }, fun b => ?_, fun b => ?_, fun b e => ?_,
        hrep₁.udata, hrep₁.typeMt, hrep₁.event⟩
      · by_cases hb : b = a
        · subst hb
          simpa using hrep₁.entries b
        · simpa [Function.update_of_ne hb] using hrep₁.entries b
      · by_cases hb : b = a
        · subst hb
          simp
        · simpa [Function.update_of_ne hb] using hrep₁.metatable b
      · by_cases hb : b = a
        · subst hb
          simpa [Graph.entry] using hrep₁.absent b e
        · simpa [Graph.entry, Function.update_of_ne hb] using hrep₁.absent b e
  | setlist a u v =>
    obtain ⟨t, heq, rfl⟩ := Rust.map_eq_ok hexec
    exact setlist_kept hrep heq
  | clearSlot a s =>
    obtain ⟨t, heq, rfl⟩ := Rust.map_eq_ok hexec
    exact clearSlot_kept hrep heq
  | clearKey a i =>
    cases hexec
    obtain ⟨hinv, hholds⟩ := Table.clearKey_spec (hrep.entries a).inv i
    exact ⟨G, hrep.setTbl ((hrep.entries a).of_holds hinv hholds)⟩

theorem Heap.run_rep (ops : List HeapOp) : ∀ {h : Heap} {G : Graph}, h.Rep hs G → h.AllFit hs d ops → ∀ {h' : Heap},
    h.run hs d ops = .ok h' → ∃ G, h'.Rep hs G := by
  induction ops with
  | nil =>
    intro h G hrep _ h' hrun
    cases hrun
    exact ⟨G, hrep⟩
  | cons op ops ih =>
    intro h G hrep hfit h' hrun
    cases hexec : op.exec hs d h with
    | error e =>
      rw [Heap.run, hexec] at hrun
      cases hrun
    | ok h₁ =>
      rw [Heap.run, hexec, Rust.ok_bind] at hrun
      obtain ⟨G₁, hrep₁⟩ := HeapOp.exec_rep hrep hfit.1 hexec
      exact ih hrep₁ (hfit.2 h₁ hexec) hrun

/-- In every run from a heap of new tables: where the bit of an event is set, a raw lookup of its name gives nil, and a
lookup that trusts the bit finds what the raw lookup finds. To set or clear these bits leaves bit 7, and the table, as
they are. -/
theorem flags_sound (h₀ : Heap) (hnew : ∀ a, h₀.tables a = TableObj.new) (ops : List HeapOp) (hfit : h₀.AllFit hs d ops)
    (hrun : h₀.run hs d ops = .ok h) (a : Nat) (e : Event) :
    ((h.tables a).flags &&& 1#8 <<< e.number ≠ 0 → h.eventOf hs a e = .ok none) ∧
      (∃ h' tm, h.fasttm hs (some a) e = .ok (h', tm) ∧ h.eventOf hs a e = .ok tm ∧
        (h'.tables a).tbl = (h.tables a).tbl ∧
        ((h'.tables a).flags &&& 1#8 <<< 7 ≠ 0 ↔ (h.tables a).flags &&& 1#8 <<< 7 ≠ 0)) ∧
      ((h.clearFlags a).tables a).tbl = (h.tables a).tbl ∧
      ((h.clearFlags a).tables a).flags = (h.tables a).flags &&& BitVec.allOnes 8 <<< (Event.eq.number + 1) ∧
      (((h.clearFlags a).tables a).flags &&& 1#8 <<< 7 ≠ 0 ↔ (h.tables a).flags &&& 1#8 <<< 7 ≠ 0) := by
  have hrep₀ : h₀.Rep hs ⟨fun _ _ => none, fun _ => none, h₀.udata, h₀.typeMt, h₀.event⟩ := by
    refine ⟨fun b => ?_, fun b => ?_, fun b e _ => rfl, rfl, rfl, rfl⟩
    · rw [hnew]
      exact Table.new_represents
    · rw [hnew]
      rfl
  obtain ⟨G, hrep⟩ := Heap.run_rep ops hrep₀ hfit hrun
  obtain ⟨h', htm, hrep', -, htbl⟩ := hrep.fasttm (some a) e
  have hevent := hrep.eventOf a e
  have hclear : ((h.clearFlags a).tables a) = { h.tables a with absent := fun _ => false } :=
    Function.update_self ..
  refine ⟨fun hbit => ?_, ⟨h', _, htm, hevent, htbl a, ?_⟩, by rw [hclear], ?_, ?_⟩
  · rw [hevent, hrep.absent a e ((TableObj.flags_event _ e).mp hbit)]
  · rw [TableObj.flags_hint, TableObj.flags_hint, htbl]
  · rw [hclear, TableObj.flags_clear]
  · rw [hclear, TableObj.flags_hint, TableObj.flags_hint]

end

/-- A heap of new tables. -/
def newHeap : Heap where
  tables _ := TableObj.new
  udata _ := ⟨none, none⟩
  typeMt _ := none
  event e := 100 + e.number
  marked _ := ⟨true, false⟩
  grayagain := []

/-- Table 1 becomes the metatable of table 0, its `__index` is missed, set and removed again. -/
def cacheOps : List HeapOp :=
  [.setMetatable 0 (some 1), .fasttm 1 .index, .setUnchecked 1 (.shortStr 100) (some (.int 5)), .fasttm 1 .index,
    .threadSet (some (.table 1)) (.shortStr 100) none, .fasttm 1 .newindex]

theorem flags_sound_cache : ∃ h, newHeap.run Table.sameHash 0 cacheOps = .ok h ∧
    (h.tables 1).flags = 1#8 <<< Event.newindex.number ∧ h.eventOf Table.sameHash 1 .newindex = .ok none ∧
    ∃ h' tm, h.fasttm Table.sameHash (some 1) .index = .ok (h', tm) ∧ h.eventOf Table.sameHash 1 .index = .ok tm := by
  have hfit : newHeap.AllFit Table.sameHash 0 cacheOps :=
    ⟨trivial, fun _ _ => ⟨trivial, fun _ _ => ⟨trivial, fun _ _ => ⟨trivial, fun _ _ => ⟨trivial, fun _ _ =>
      ⟨trivial, fun _ _ => trivial⟩⟩⟩⟩⟩⟩
  have hrun : ∃ h, newHeap.run Table.sameHash 0 cacheOps = .ok h := ⟨_, rfl⟩
  obtain ⟨h, hrun⟩ := hrun
  have hsound := flags_sound newHeap (fun _ => rfl) cacheOps hfit hrun
  have hflags : (h.tables 1).flags = 1#8 <<< Event.newindex.number := by
    cases hrun
    rfl
  obtain ⟨h', tm, htm, hevent, -⟩ := (hsound 1 .index).2.1
  exact ⟨h, hrun, hflags, (hsound 1 .newindex).1 (by rw [hflags]; decide), h', tm, htm, hevent⟩

end Tsuki.Vm
