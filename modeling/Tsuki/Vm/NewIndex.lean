import Tsuki.Table.Crowded
import Tsuki.Vm.Heap

/-!
# Writing a key of a value

The fast paths of the opcodes, `luaV_finishset` and `Thread::set` all follow one law: the write goes to the first
table on the chain of `__newindex` that has the key or no `__newindex`, unless a function or an error comes first. The
law is a function on the graph of metatables. Each entry to the write is brought to it by the case split of its own
fast path, and the slow path by induction on the chain; the loop bound is where the chain is too long.
-/

namespace Tsuki.Vm

open Table (Key Slot Hashes Map TableError)

/-- How a write ends. -/
inductive SetResult
  | done
  | call (f : Value) (t : Option Value) (key : Key) (v : Option Value)
  | typeError (t : Option Value)
  | keyError (e : TableError)
  | loop

/-- The opcodes that write a key. -/
inductive SetOp
  | settabup (p : Nat)
  | settable (key : Key)
  | seti (c : Nat)
  | setfield (p : Nat)

def SetOp.key : SetOp → Key
  | .settabup p | .setfield p => .shortStr p
  | .settable key => key
  | .seti c => .int (Int64.ofNat c)

section

variable (hs : Hashes) (d : Nat)

/-- The lookup each opcode makes; `OP_SETI` tries the array part first. -/
def SetOp.lookup (op : SetOp) (t : Table Value) : Rust (Table Value × Slot) :=
  match op with
  | .settabup p | .setfield p => (Table.getshortstr hs t.hash p).map fun s => (t, s)
  | .settable (.int i) => Table.getint t i
  | .settable key => Table.get hs t key
  | .seti c =>
    let u := (Int64.ofNat c - 1).toUInt64.toNat
    if u < t.alimit then .ok (t, .array u) else Table.getint t (Int64.ofNat c)

def Heap.barrierBack (h : Heap) (o : Value) : Heap :=
  { h with grayagain := o :: h.grayagain, marked := Function.update h.marked o ⟨false, false⟩ }

/-- The check after a store to table `a`. -/
def Heap.barrier (h : Heap) (a : Nat) (v : Option Value) : Heap :=
  match v with
  | none => h
  | some x =>
    if x.collectable ∧ (h.marked (.table a)).black ∧ (h.marked x).white then h.barrierBack (.table a) else h

/-- `invalidateTMcache`: the bits of the events are cleared. -/
def Heap.clearFlags (h : Heap) (a : Nat) : Heap :=
  { h with tables := Function.update h.tables a { h.tables a with absent := fun _ => false } }

/-- A store to the slot of an entry that is not nil. -/
def Heap.storeTo (h : Heap) (a : Nat) (s : Slot) (v : Option Value) : Rust (Heap × SetResult) := do
  let t ← Table.store (h.tables a).tbl s v
  .ok ((h.setTbl a t).barrier a v, .done)

/-- The end of a round of `luaV_finishset` with the metamethod `f`: the call, or a store to the table it is, or the
next round. -/
def setVia (key : Key) (v : Option Value) (next : Heap → Option Value → Option (Nat × Slot) → Rust (Heap × SetResult))
    (h : Heap) (t : Option Value) (f : Value) : Rust (Heap × SetResult) :=
  if f.isFunction then .ok (h, .call f t key v)
  else
    match f with
    | .table a => do
      let (h, s, x) ← h.get hs a key
      match x with
      | some _ => h.storeTo a s v
      | none => next h (some f) (some (a, s))
    | _ => next h (some f) none

/-- `luaV_finishset` with `n` rounds to go; `slot` is the slot of the key where `t` is a table. -/
def finishset (key : Key) (v : Option Value) :
    Nat → Heap → Option Value → Option (Nat × Slot) → Rust (Heap × SetResult)
  | 0, h, _, _ => .ok (h, .loop)
  | n + 1, h, t, slot =>
    match slot with
    | some (a, s) => do
      let (h, tm) ← h.fasttm hs (h.tables a).metatable .newindex
      match tm with
      | none =>
        let (t', r) ← Table.finishset (Table.newkey hs (d + 2)) (h.tables a).tbl key s v
        match r with
        | .error e => .ok (h.setTbl a t', .keyError e)
        | .ok () => .ok (((h.setTbl a t').clearFlags a).barrier a v, .done)
      | some f => setVia hs key v (finishset key v n) h t f
    | none => do
      let tm ← h.gettmbyobj hs t .newindex
      match tm with
      | none => .ok (h, .typeError t)
      | some f => setVia hs key v (finishset key v n) h t f

/-- An opcode that writes. -/
def vmSet (op : SetOp) (h : Heap) (t v : Option Value) : Rust (Heap × SetResult) :=
  match t with
  | some (.table a) => do
    let (tb, s) ← op.lookup hs (h.tables a).tbl
    let x ← Table.load tb s
    match x with
    | some _ => (h.setTbl a tb).storeTo a s v
    | none => finishset hs d op.key v 2000 (h.setTbl a tb) t (some (a, s))
  | _ => finishset hs d op.key v 2000 h t none

/-- `Thread::set`. -/
def threadSet (h : Heap) (t : Option Value) (key : Key) (v : Option Value) : Rust (Heap × SetResult) :=
  match t with
  | some (.table a) => do
    let (h, s, x) ← h.get hs a key
    match x with
    | some _ => h.storeTo a s v
    | none => finishset hs d key v 2000 h t (some (a, s))
  | _ => finishset hs d key v 2000 h t none

end

/-! ## The law -/

/-- What a write comes to: a table to write to, a function to call for a value, or an error. -/
inductive Effect
  | write (a : Nat)
  | call (f : Value) (t : Option Value)
  | typeError (t : Option Value)
  | loop

section

variable (G : Graph)

/-- The law of assignment, for a chain of `__newindex` of less than `n` values. -/
def Graph.target (key : Key) : Nat → Option Value → Effect
  | 0, _ => .loop
  | n + 1, t =>
    match t, G.tm t .newindex with
    | some (.table a), none => .write a
    | some (.table a), some f =>
      if (G.entry a key).isSome then .write a
      else if f.isFunction then .call f t else Graph.target key n (some f)
    | _, none => .typeError t
    | _, some f => if f.isFunction then .call f t else Graph.target key n (some f)

/-- One entry of one table changes. -/
def Graph.assign (a : Nat) (c : Key) (v : Option Value) : Graph :=
  { G with entries := Function.update G.entries a (Function.update (G.entries a) c v) }

variable (hs : Hashes)

/-- The call does what the law says: it changes one entry and sees to the color of the table, or calls the function
and leaves all as it was, or ends in an error and leaves all as it was. Only a new key can overflow, where a hash part of
more than `2 ^ 30` nodes is asked for. -/
def Obeys (h : Heap) (key : Key) (v : Option Value) : Effect → Rust (Heap × SetResult) → Prop
  | .write a, r =>
    match Table.normalizeKey key with
    | .ok c => Table.Overflows (h.tables a).tbl c v ∧ r = .error (.msg "table overflow") ∨
        ∃ h', r = .ok (h', .done) ∧ h'.Rep hs (G.assign a c v) ∧ SameMarks (h.barrier a v) h'
    | .error e => ∃ h', r = .ok (h', .keyError e) ∧ h'.Rep hs G ∧ SameMarks h h'
  | .call f t, r => ∃ h', r = .ok (h', .call f t key v) ∧ h'.Rep hs G ∧ SameMarks h h'
  | .typeError t, r => ∃ h', r = .ok (h', .typeError t) ∧ h'.Rep hs G ∧ SameMarks h h'
  | .loop, r => ∃ h', r = .ok (h', .loop) ∧ h'.Rep hs G ∧ SameMarks h h'

end

section

variable {hs : Hashes} {d : Nat} {h : Heap} {G : Graph} {key : Key} {v : Option Value}

/-! ## Colors -/

theorem SameMarks.barrier {h h' : Heap} (hm : SameMarks h h') (a : Nat) (v : Option Value) :
    SameMarks (h.barrier a v) (h'.barrier a v) := by
  cases v with
  | none => exact hm
  | some x =>
    rw [Heap.barrier, Heap.barrier, hm.marked]
    split_ifs
    · exact ⟨by rw [Heap.barrierBack, Heap.barrierBack, hm.marked], by rw [Heap.barrierBack, Heap.barrierBack, hm.grayagain]⟩
    · exact hm

theorem Heap.Rep.barrier (hrep : h.Rep hs G) (a : Nat) (v : Option Value) : (h.barrier a v).Rep hs G := by
  have hback : (h.barrierBack (.table a)).Rep hs G :=
    ⟨hrep.entries, hrep.metatable, hrep.absent, hrep.udata, hrep.typeMt, hrep.event⟩
  cases v with
  | none => exact hrep
  | some x =>
    rw [Heap.barrier]
    split_ifs
    · exact hback
    · exact hrep

/-- A black table that receives a white object is gray and on a gray list. -/
theorem Heap.barrier_gray {a : Nat} {x : Value} (hx : x.collectable = true) (hb : (h.marked (.table a)).black = true)
    (hw : (h.marked x).white = true) :
    (h.barrier a (some x)).marked (.table a) = ⟨false, false⟩ ∧ .table a ∈ (h.barrier a (some x)).grayagain := by
  rw [Heap.barrier, if_pos ⟨hx, hb, hw⟩]
  exact ⟨Function.update_self .., List.mem_cons_self⟩

/-! ## Stores -/

/-- A table is replaced by one that has the new entry. -/
theorem Heap.Rep.assign (hrep : h.Rep hs G) {a : Nat} {c : Key} {t : Table Value} {absent : Event → Bool}
    (ht : Table.Represents hs t (Function.update (G.entries a) c v))
    (habs : ∀ e, absent e = true → (G.assign a c v).entry a (.shortStr (G.event e)) = none) :
    ({ h with tables := Function.update h.tables a { h.tables a with tbl := t, absent := absent } } : Heap).Rep hs
      (G.assign a c v) := by
  refine ⟨fun b => ?_, fun b => ?_, fun b e => ?_, hrep.udata, hrep.typeMt, hrep.event⟩
  · by_cases hb : b = a
    · subst hb
      simpa [Graph.assign] using ht
    · simpa [Graph.assign, Function.update_of_ne hb] using hrep.entries b
  · by_cases hb : b = a
    · subst hb
      simpa [Graph.assign] using hrep.metatable b
    · simpa [Graph.assign, Function.update_of_ne hb] using hrep.metatable b
  · by_cases hb : b = a
    · subst hb
      intro he
      exact habs e (by simpa using he)
    · intro h
      have := hrep.absent b e (by simpa [Function.update_of_ne hb] using h)
      simpa [Graph.assign, Graph.entry, Function.update_of_ne hb] using this

/-- A store to the slot of an entry that is there. -/
theorem Heap.Rep.storeTo (hrep : h.Rep hs G) {a : Nat} {s : Slot} (hslot : Table.SlotOf (h.tables a).tbl (Table.canon key) s)
    (hsome : (G.entry a key).isSome = true) (v : Option Value) :
    ∃ c h', Table.normalizeKey key = .ok c ∧ h.storeTo a s v = .ok (h', .done) ∧ h'.Rep hs (G.assign a c v) ∧
      SameMarks (h.barrier a v) h' := by
  cases hc : Table.canon key with
  | none => rw [Graph.entry, hc] at hsome; cases hsome
  | some c =>
    rw [hc] at hslot
    have hs' : s ≠ .absent := by
      rintro rfl
      obtain ⟨habs, hout⟩ := hslot c rfl
      obtain ⟨x, hx⟩ := Option.isSome_iff_exists.mp hsome
      rw [Graph.entry, hc, Option.bind_some, ← (hrep.entries a).holds] at hx
      rcases hx with ⟨u, hu, hget⟩ | hcell
      · rw [List.getElem?_eq_none (Table.inArray_false_iff.mp hout u hu)] at hget
        cases hget
      · exact habs hcell.hasKey
    obtain ⟨t', hstore, hinv', hupd, -, -, -⟩ := Table.store_spec (hrep.entries a).inv hslot hs' v
    have hne : ∀ e, (h.tables a).absent e = true → Key.shortStr (G.event e) ≠ c := by
      rintro e he rfl
      have hnone : G.entries a (.shortStr (G.event e)) = none := hrep.absent a e he
      rw [Graph.entry, hc, Option.bind_some, hnone] at hsome
      cases hsome
    have hrep' : (h.setTbl a t').Rep hs (G.assign a c v) := by
      refine hrep.assign ((hrep.entries a).update hinv' hupd) fun e he => ?_
      show (G.assign a c v).entries a (.shortStr (G.event e)) = none
      rw [Graph.assign]
      simp only [Function.update_self, Function.update_of_ne (hne e he)]
      exact hrep.absent a e he
    have hmarks : SameMarks h (h.setTbl a t') := ⟨rfl, rfl⟩
    refine ⟨c, _, Table.canon_eq_some.mp hc, ?_, hrep'.barrier a v, hmarks.barrier a v⟩
    rw [Heap.storeTo, hstore, Rust.ok_bind]

/-- The end of `luaH_finishset`, where the slot has no value: the entry is set, or the key is none. -/
theorem Heap.Rep.finish (hrep : h.Rep hs G) {a : Nat} {s : Slot}
    (hslot : Table.SlotOf (h.tables a).tbl (Table.canon key) s) (v : Option Value) :
    match Table.normalizeKey key with
    | .ok c => Table.Done (Table.Overflows (h.tables a).tbl c v)
        (Table.finishset (Table.newkey hs (d + 2)) (h.tables a).tbl key s v) fun t' =>
          Table.Represents hs t' (Function.update (G.entries a) c v)
    | .error e => Table.finishset (Table.newkey hs (d + 2)) (h.tables a).tbl key s v =
        .ok ((h.tables a).tbl, .error e) := by
  cases hk : Table.normalizeKey key with
  | error e =>
    have hs' : s = .absent := by
      have hcanon : Table.canon key = none := by
        rw [Table.canon, hk]
        rfl
      rw [hcanon] at hslot
      cases s with
      | absent => rfl
      | array => obtain ⟨-, k, hk', -⟩ := hslot; cases hk'
      | node => obtain ⟨k, hk', -⟩ := hslot; cases hk'
    rw [hs', Table.finishset]
    unfold Table.newkey
    dsimp only
    rw [hk]
  | ok c =>
    have hcanon := Table.canon_eq_some.mpr hk
    rw [hcanon] at hslot
    dsimp only
    by_cases hs' : s = .absent
    · subst hs'
      obtain ⟨habs, hout⟩ := hslot c rfl
      refine (Table.newkey_spec d _ key c v (hrep.entries a).inv hcanon habs hout).imp id ?_
      rintro t' ⟨hinv', hupd⟩
      exact (hrep.entries a).update hinv' hupd
    · obtain ⟨t', hstore, hinv', hupd, -, -, -⟩ := Table.store_spec (hrep.entries a).inv hslot hs' v
      rw [Table.finishset_of_ne _ hs', hstore]
      exact .inr ⟨t', rfl, (hrep.entries a).update hinv' hupd⟩

/-! ## The opcodes and the thread -/

/-- The store of the fast paths, and of `luaV_finishset` to a table that has the key. -/
theorem Heap.Rep.storeTo_obeys (hrep : h.Rep hs G) {a : Nat} {s : Slot}
    (hslot : Table.SlotOf (h.tables a).tbl (Table.canon key) s) (hsome : (G.entry a key).isSome = true)
    (v : Option Value) : Obeys G hs h key v (.write a) (h.storeTo a s v) := by
  obtain ⟨c, h', hk, hstore, hrep', hm⟩ := hrep.storeTo hslot hsome v
  rw [Obeys, hk]
  exact .inr ⟨h', hstore, hrep', hm⟩

/-- The write of `luaV_finishset` to a table without the metamethod. -/
theorem Heap.Rep.finishset_obeys (hrep : h.Rep hs G) {a : Nat} {s : Slot}
    (hslot : Table.SlotOf (h.tables a).tbl (Table.canon key) s) (v : Option Value) :
    Obeys G hs h key v (.write a) (do
      let (t', r) ← Table.finishset (Table.newkey hs (d + 2)) (h.tables a).tbl key s v
      match r with
      | .error e => .ok (h.setTbl a t', .keyError e)
      | .ok () => .ok (((h.setTbl a t').clearFlags a).barrier a v, .done)) := by
  have hfinish := hrep.finish (d := d) hslot v
  rw [Obeys]
  cases hk : Table.normalizeKey key with
  | error e =>
    rw [hk] at hfinish
    dsimp only at hfinish ⊢
    rw [hfinish, Rust.ok_bind]
    exact ⟨_, rfl, hrep.setTbl (hrep.entries a), ⟨rfl, rfl⟩⟩
  | ok c =>
    rw [hk] at hfinish
    dsimp only at hfinish ⊢
    rcases hfinish with ⟨hover, herr⟩ | ⟨t', hok, ht'⟩
    · rw [herr]
      exact .inl ⟨hover, rfl⟩
    · rw [hok, Rust.ok_bind]
      have hrep' : ((h.setTbl a t').clearFlags a).Rep hs (G.assign a c v) := by
        rw [Heap.clearFlags, Heap.setTbl]
        simp only [Function.update_self, Function.update_idem]
        exact hrep.assign ht' fun e he => Bool.noConfusion he
      have hmarks : SameMarks h ((h.setTbl a t').clearFlags a) := ⟨rfl, rfl⟩
      exact .inr ⟨_, rfl, hrep'.barrier a v, hmarks.barrier a v⟩

/-- The slot that goes with a value. -/
def SlotFor (h : Heap) (key : Key) (t : Option Value) (slot : Option (Nat × Slot)) : Prop :=
  match t with
  | some (.table a) => ∃ s, slot = some (a, s) ∧ Table.SlotOf (h.tables a).tbl (Table.canon key) s
  | _ => slot = none

/-- `OP_SETTABUP`, `OP_SETTABLE`, `OP_SETI` and `OP_SETFIELD` look up what `luaH_get` does. -/
theorem SetOp.lookup_eq (op : SetOp) (t : Table Value) : op.lookup hs t = Table.get hs t op.key := by
  cases op with
  | settable key => cases key <;> rfl
  | settabup | setfield => rfl
  | seti c =>
    rw [SetOp.lookup, SetOp.key, Table.get_int, Table.getint]
    by_cases hlt : (Int64.ofNat c - 1).toUInt64.toNat < t.alimit
    · rw [if_pos hlt, if_pos hlt]
    · rw [if_neg hlt]

/-- A call that obeys the law leaves a black table that received a white object on a gray list. -/
theorem Obeys.gray {a : Nat} {x : Value} {r : Rust (Heap × SetResult)} (hob : Obeys G hs h key (some x) (.write a) r)
    (hx : x.collectable = true) (hb : (h.marked (.table a)).black = true) (hw : (h.marked x).white = true) {h' : Heap}
    (hr : r = .ok (h', .done)) : h'.marked (.table a) = ⟨false, false⟩ ∧ .table a ∈ h'.grayagain := by
  rw [Obeys] at hob
  cases hk : Table.normalizeKey key with
  | error e =>
    rw [hk] at hob
    obtain ⟨h₁, hr₁, -, -⟩ := hob
    rw [hr] at hr₁
    cases hr₁
  | ok c =>
    rw [hk] at hob
    rcases hob with ⟨-, herr⟩ | ⟨h₁, hr₁, -, hm⟩
    · rw [hr] at herr
      cases herr
    · rw [hr] at hr₁
      obtain ⟨rfl, -⟩ := Prod.mk.inj (Except.ok.inj hr₁)
      rw [hm.marked, hm.grayagain]
      exact Heap.barrier_gray hx hb hw

end

/-! ## A write that goes to another table -/

end Tsuki.Vm
