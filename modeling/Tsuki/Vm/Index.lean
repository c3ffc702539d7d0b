import Tsuki.Vm.Heap

/-!
# Reading a key of a value

The fast paths of the opcodes, `luaV_finishget` and `Thread::index`, against one recursive law: the entry of the
value itself, else what its `__index` leads to. The law holds of `Thread::index` always. The opcodes tell
`luaV_finishget` that properties were tried, and it takes that to be said of the first userdata it meets, which
may be one that nobody looked at.
-/

namespace Tsuki.Vm

open Table (Key Slot Hashes Map)

/-- How a read ends: with a value, with the call of a metamethod, or with an error. -/
inductive GetResult
  | value (v : Option Value)
  | call (f : Value) (t : Option Value) (key : Key)
  | typeError (t : Option Value)
  | loop
  deriving DecidableEq

/-- The opcodes that read a key. -/
inductive GetOp
  | gettabup (p : Nat)
  | gettable (key : Key)
  | geti (c : Nat)
  | getfield (p : Nat)
  | self (p : Nat)
  | selfLong (s : Bytes)

def GetOp.key : GetOp → Key
  | .gettabup p | .getfield p | .self p => .shortStr p
  | .gettable key => key
  | .geti c => .int (Int64.ofNat c)
  | .selfLong s => .longStr s

section

variable (hs : Hashes)

/-- The lookup each opcode makes in a table. -/
def GetOp.lookup (op : GetOp) (t : Table Value) : Rust (Table Value × Slot) :=
  match op with
  | .gettabup p | .getfield p | .self p => (Table.getshortstr hs t.hash p).map fun s => (t, s)
  | .gettable (.int i) => Table.getint t i
  | .gettable key => Table.get hs t key
  | .geti c => Table.getint t (Int64.ofNat c)
  | .selfLong s => (Table.getgeneric hs t.hash (.longStr s)).map fun s => (t, s)

/-- The lookup of the opcode, and what is in the slot. -/
def GetOp.fetch (op : GetOp) (h : Heap) (a : Nat) : Rust (Heap × Option Value) := do
  let (t, s) ← op.lookup hs (h.tables a).tbl
  let x ← Table.load t s
  .ok (h.setTbl a t, x)

/-- The fast path of the opcodes. -/
def GetOp.fast (op : GetOp) (h : Heap) (tab : Option Value) : Rust (Heap × Option Value) :=
  match tab with
  | some (.table a) => op.fetch hs h a
  | some (.userdata u) =>
    match (h.udata u).props with
    | none => .ok (h, none)
    | some p => op.fetch hs h p
  | _ => .ok (h, none)

/-- The first part of a round of `luaV_finishget`: a property, or the metatable to ask, which may be null, or that
the type of the value has to be asked. -/
inductive Probe
  | found (v : Value)
  | metatable (mt : Option Nat)
  | byType

/-- "Check type" of `luaV_finishget`. -/
def probe (h : Heap) (t : Option Value) (key : Key) (propsTried : Bool) : Rust (Heap × Bool × Probe) :=
  match t with
  | some (.table a) => .ok (h, propsTried, .metatable (h.tables a).metatable)
  | some (.userdata u) =>
    match (h.udata u).props with
    | none => .ok (h, propsTried, .byType)
    | some p =>
      if propsTried then .ok (h, false, .metatable (h.udata u).mt)
      else do
        let (h, _, v) ← h.get hs p key
        match v with
        | some v => .ok (h, false, .found v)
        | none => .ok (h, false, .metatable (h.udata u).mt)
  | _ => .ok (h, propsTried, .byType)

/-- "Get __index" of `luaV_finishget`: the metamethod, or how the call ends without one. -/
def metaIndex (h : Heap) (t : Option Value) : Probe → Rust (Heap × Except GetResult Value)
  | .found v => .ok (h, .error (.value (some v)))
  | .metatable mt => do
    let (h, tm) ← h.fasttm hs mt .index
    match tm with
    | some f => .ok (h, .ok f)
    | none => .ok (h, .error (.value none))
  | .byType => do
    let tm ← h.gettmbyobj hs t .index
    match tm with
    | some f => .ok (h, .ok f)
    | none => .ok (h, .error (.typeError t))

/-- `luaV_finishget` with `n` rounds to go. -/
def finishget (key : Key) : Nat → Heap → Option Value → Bool → Rust (Heap × GetResult)
  | 0, h, _, _ => .ok (h, .loop)
  | n + 1, h, t, propsTried => do
    let (h, propsTried, p) ← probe hs h t key propsTried
    let (h, r) ← metaIndex hs h t p
    match r with
    | .error r => .ok (h, r)
    | .ok f =>
      if f.isFunction then .ok (h, .call f t key)
      else
        match f with
        | .table a => do
          let (h, _, v) ← h.get hs a key
          match v with
          | some v => .ok (h, .value (some v))
          | none => finishget key n h (some f) propsTried
        | _ => finishget key n h (some f) propsTried

/-- An opcode that reads. -/
def vmGet (op : GetOp) (h : Heap) (tab : Option Value) : Rust (Heap × GetResult) := do
  let (h, v) ← op.fast hs h tab
  match v with
  | some v => .ok (h, .value (some v))
  | none => finishget hs op.key 2000 h tab true

/-- `Thread::index`. -/
def threadIndex (h : Heap) (t : Option Value) (key : Key) : Rust (Heap × GetResult) :=
  match t with
  | some (.table a) => do
    let (h, _, v) ← h.get hs a key
    match v with
    | some v => .ok (h, .value (some v))
    | none => finishget hs key 2000 h t false
  | _ => finishget hs key 2000 h t false

end

/-! ## The law -/

section

variable (G : Graph) (key : Key)

/-- The property table of a value. -/
def Graph.props (t : Option Value) : Option Nat :=
  match t with
  | some (.userdata u) => (G.udata u).props
  | _ => none

/-- The value of the key in the value itself: an entry, or a property. -/
def Graph.own (t : Option Value) : Option Value :=
  match t with
  | some (.table a) => G.entry a key
  | t => (G.props t).bind fun p => G.entry p key

/-- A value that has no such key, rather than no keys. -/
def Graph.indexable (t : Option Value) : Bool := tag t = 5 || (G.props t).isSome

/-- The law of indexing, for a chain of `__index` of less than `n` values: the own value, else what `__index` leads
to, else nil or an error. -/
def Graph.index : Nat → Option Value → GetResult
  | 0, _ => .loop
  | n + 1, t =>
    match G.own key t with
    | some v => .value (some v)
    | none =>
      match G.tm t .index with
      | none => if G.indexable t then .value none else .typeError t
      | some f => if f.isFunction then .call f t key else Graph.index n (some f)

/-- The law behind the own value. -/
def Graph.behind (n : Nat) (t : Option Value) : GetResult :=
  match G.tm t .index with
  | none => if G.indexable t then .value none else .typeError t
  | some f => if f.isFunction then .call f t key else G.index key n (some f)

/-- The first userdata with a property table that the law comes to from `t` on, and the values left behind it. -/
def Graph.firstProps : Nat → Option Value → Option (Nat × Option Value)
  | 0, _ => none
  | n + 1, t =>
    if (G.props t).isSome then some (n, t)
    else if (G.own key t).isSome then none
    else
      match G.tm t .index with
      | none => none
      | some f => if f.isFunction then none else Graph.firstProps n (some f)

/-- The property that the opcodes leave out makes no difference: the value itself has the key or a property table, or
the first userdata with a property table on the chain does not have the property, or it is there again behind. -/
def Graph.Seen (t : Option Value) : Prop :=
  (G.own key t).isSome ∨ (G.props t).isSome ∨
    ∀ n u v, G.firstProps key 2000 t = some (n, u) → G.own key u = some v → G.behind key n u = .value (some v)

/-- The law with the first property left out. -/
def Graph.indexVm : Nat → Option Value → GetResult
  | 0, _ => .loop
  | n + 1, t =>
    if (G.props t).isSome then G.behind key n t
    else
      match G.own key t with
      | some v => .value (some v)
      | none =>
        match G.tm t .index with
        | none => if G.indexable t then .value none else .typeError t
        | some f => if f.isFunction then .call f t key else Graph.indexVm n (some f)

variable {G key}

theorem Graph.index_succ (n : Nat) (t : Option Value) :
    G.index key (n + 1) t = match G.own key t with
      | some v => .value (some v)
      | none => G.behind key n t := rfl

/-- What the opcodes see is the law up to the first userdata with properties, and the law behind that one. -/
theorem Graph.indexVm_eq (n : Nat) (t : Option Value) :
    match G.firstProps key n t with
    | none => G.indexVm key n t = G.index key n t
    | some (m, u) => G.indexVm key n t = G.behind key m u ∧ G.index key n t = G.index key (m + 1) u := by
  induction n generalizing t with
  | zero => rfl
  | succ n ih =>
    rw [Graph.firstProps, Graph.indexVm, Graph.index_succ]
    by_cases hprops : (G.props t).isSome
    · rw [if_pos hprops, if_pos hprops]
      exact ⟨rfl, rfl⟩
    · rw [if_neg hprops, if_neg hprops]
      cases hown : G.own key t with
      | some v => rfl
      | none =>
        rw [if_neg (by simp)]
        dsimp only
        rw [Graph.behind]
        cases hf : G.tm t .index with
        | none => rfl
        | some f =>
          dsimp only
          by_cases hfun : f.isFunction = true
          · simp only [if_pos hfun]
          · simp only [if_neg hfun]
            exact ih (some f)

theorem Graph.own_of_props_none {t : Option Value} (h : G.props t = none) (ht : tag t ≠ 5) : G.own key t = none := by
  unfold Graph.own
  split
  · exact absurd rfl ht
  · rw [h]
    rfl

/-- One round of either law; `tried` says which is followed, and it is followed on where there was no property to
leave out. -/
theorem indexes_eq (n : Nat) (t : Option Value) (tried : Bool) (hown : tag t = 5 → G.own key t = none) :
    (if tried then G.indexVm key (n + 1) t else G.index key (n + 1) t) =
      if tried = false ∧ (G.own key t).isSome then .value (G.own key t)
      else match G.tm t .index with
        | none => if G.indexable t then .value none else .typeError t
        | some f =>
          if f.isFunction then .call f t key
          else if tried && (G.props t).isNone then G.indexVm key n (some f) else G.index key n (some f) := by
  cases tried with
  | false =>
    rw [if_neg Bool.false_ne_true, Graph.index]
    cases hv : G.own key t with
    | some v => simp
    | none => simp
  | true =>
    have hno : ¬(true = false ∧ (G.own key t).isSome = true) := fun h => Bool.noConfusion h.1
    rw [if_pos rfl, Graph.indexVm, if_neg hno]
    cases hp : G.props t with
    | some p => simp [Graph.behind]
    | none =>
      have hnone : G.own key t = none := by
        by_cases ht : tag t = 5
        · exact hown ht
        · exact Graph.own_of_props_none hp ht
      simp [hnone]

end

/-! ## The opcodes and the thread -/

section

variable {hs : Hashes} {h : Heap} {G : Graph} {key : Key}

theorem GetOp.lookup_eq (op : GetOp) (t : Table Value) : op.lookup hs t = Table.get hs t op.key := by
  cases op with
  | gettable key => cases key <;> rfl
  | _ => rfl

theorem GetOp.fetch_spec (hrep : h.Rep hs G) (op : GetOp) (a : Nat) :
    ∃ h', op.fetch hs h a = .ok (h', G.entry a op.key) ∧ h'.Rep hs G ∧ SameMarks h h' := by
  obtain ⟨n, s, hget, hinv, hslot⟩ := Table.get_spec (hrep.entries a).inv op.key
  refine ⟨h.setTbl a { (h.tables a).tbl with alimit := n }, ?_, ?_, ⟨rfl, rfl⟩⟩
  · rw [GetOp.fetch, op.lookup_eq, hget, Rust.ok_bind]
    dsimp only
    rw [(hrep.entries a).load hinv hslot, Rust.ok_bind]
    rfl
  · exact hrep.setTbl ((hrep.entries a).of_holds hinv fun _ _ => Iff.rfl)

theorem GetOp.fast_spec (hrep : h.Rep hs G) (op : GetOp) (t : Option Value) :
    ∃ h', op.fast hs h t = .ok (h', G.own op.key t) ∧ h'.Rep hs G ∧ SameMarks h h' := by
  unfold GetOp.fast Graph.own Graph.props
  split
  · exact op.fetch_spec hrep _
  · rename_i u
    rw [hrep.udata]
    dsimp only
    cases hp : (G.udata u).props with
    | none => exact ⟨h, rfl, hrep, .refl h⟩
    | some p => exact op.fetch_spec hrep p
  · rename_i hnt hnu
    refine ⟨h, ?_, hrep, .refl h⟩
    split
    · exact absurd rfl (hnt _)
    · split
      · exact absurd rfl (hnu _)
      · rfl

/-- What "Check type" and "Get __index" find together, where the property table of `t` is looked at or has been. -/
theorem metaIndex_spec (hrep : h.Rep hs G) (t : Option Value) (key : Key) (tried : Bool)
    (hown : tag t = 5 → G.own key t = none) :
    ∃ h' h'' p r, probe hs h t key tried = .ok (h', tried && (G.props t).isNone, p) ∧
      metaIndex hs h' t p = .ok (h'', r) ∧ h''.Rep hs G ∧
      r = (if tried = false ∧ (G.own key t).isSome then .error (.value (G.own key t))
        else match G.tm t .index with
          | some f => .ok f
          | none => if G.indexable t then .error (.value none) else .error (.typeError t)) := by
  have fast : ∀ {h : Heap} {mt : Option Nat}, h.Rep hs G → mt = G.meta t →
      ∃ h', metaIndex hs h t (.metatable mt) =
        .ok (h', match G.tm t .index with | some f => .ok f | none => .error (.value none)) ∧ h'.Rep hs G := by
    intro h mt hrep hmt
    obtain ⟨h', hf, hrep', -, -⟩ := hrep.fasttm mt .index
    refine ⟨h', ?_, hrep'⟩
    rw [metaIndex, hf, Rust.ok_bind, Graph.tm, hmt]
    dsimp only
    cases (G.meta t).bind fun mt => G.entry mt (.shortStr (G.event .index)) <;> rfl
  have slow : (G.props t).isNone → tag t ≠ 5 → ∃ r, metaIndex hs h t .byType = .ok (h, r) ∧
      r = match G.tm t .index with
        | some f => .ok f
        | none => if G.indexable t then .error (.value none) else .error (.typeError t) := by
    intro hp ht
    rw [metaIndex, hrep.gettmbyobj, Rust.ok_bind]
    have hidx : G.indexable t = false := by
      rw [Graph.indexable, Option.isNone_iff_eq_none.mp hp]
      simp [ht]
    cases G.tm t .index with
    | some f => exact ⟨_, rfl, rfl⟩
    | none => exact ⟨_, rfl, by simp [hidx]⟩
  by_cases ht : tag t = 5
  · obtain ⟨a, rfl⟩ : ∃ a, t = some (.table a) := by
      cases t with
      | none => cases ht
      | some v => cases v <;> first | exact ⟨_, rfl⟩ | cases ht
    obtain ⟨h', hm, hrep'⟩ := fast hrep (show (h.tables a).metatable = _ from hrep.metatable a)
    refine ⟨h, h', .metatable (h.tables a).metatable, _, ?_, hm, hrep', ?_⟩
    · rw [probe]
      simp [Graph.props]
    · rw [hown rfl, if_neg (by simp)]
      rfl
  · cases hp : G.props t with
    | none =>
      obtain ⟨r, hm, hr⟩ := slow (by rw [hp]; rfl) ht
      refine ⟨h, h, .byType, r, ?_, hm, hrep, ?_⟩
      · unfold probe
        split
        · exact absurd rfl ht
        · rename_i u
          rw [hrep.udata]
          rw [Graph.props] at hp
          rw [hp]
          simp
        · simp
      · rw [Graph.own_of_props_none hp ht, if_neg (by simp)]
        exact hr
    | some p =>
      obtain ⟨u, rfl⟩ : ∃ u, t = some (.userdata u) := by
        unfold Graph.props at hp
        split at hp
        · exact ⟨_, rfl⟩
        · cases hp
      have hidx : G.indexable (some (.userdata u)) = true := by
        rw [Graph.indexable, hp]
        rfl
      have howneq : G.own key (some (.userdata u)) = G.entry p key := by
        show (G.props _).bind _ = _
        rw [hp]
        rfl
      rw [Graph.props] at hp
      have hmt : (h.udata u).mt = G.meta (some (.userdata u)) := by rw [hrep.udata]; rfl
      rw [howneq]
      rw [probe, hrep.udata, hp]
      dsimp only
      cases tried with
      | true =>
        obtain ⟨h', hm, hrep'⟩ := fast hrep hmt
        rw [hrep.udata] at hm
        refine ⟨h, h', _, _, rfl, hm, hrep', ?_⟩
        rw [if_neg (by simp)]
        simp [hidx]
      | false =>
        obtain ⟨h₁, s, hget, hrep₁, -, -⟩ := hrep.get p key
        rw [if_neg Bool.false_ne_true, hget, Rust.ok_bind]
        dsimp only
        cases hv : G.entry p key with
        | some v => exact ⟨h₁, h₁, .found v, _, rfl, rfl, hrep₁, by simp⟩
        | none =>
          have hmt₁ : (h₁.udata u).mt = G.meta (some (.userdata u)) := by rw [hrep₁.udata]; rfl
          obtain ⟨h', hm, hrep'⟩ := fast hrep₁ hmt₁
          refine ⟨h₁, h', _, _, rfl, hm, hrep', ?_⟩
          rw [if_neg (by simp)]
          simp [hidx]

/-- `luaV_finishget` follows the law, with the first property left out where it was told that properties were
tried. -/
theorem finishget_spec (m : Nat) : ∀ {n : Nat} {h : Heap} {t : Option Value} (tried : Bool), h.Rep hs G →
    G.ChainEnds .index m t → m < n → (tag t = 5 → G.own key t = none) →
    ∃ h', finishget hs key n h t tried = .ok (h', if tried then G.indexVm key n t else G.index key n t) ∧
      h'.Rep hs G := by
  induction m with
  | zero =>
    intro n h t tried hrep hchain hn hown
    obtain ⟨n, rfl⟩ : ∃ k, n = k + 1 := ⟨n - 1, by omega⟩
    obtain ⟨h₁, h₂, p, r, hprobe, hmeta, hrep₂, hr⟩ := metaIndex_spec hrep t key tried hown
    rw [finishget, hprobe, Rust.ok_bind]
    dsimp only
    rw [hmeta, Rust.ok_bind]
    dsimp only
    refine ⟨h₂, ?_, hrep₂⟩
    rw [indexes_eq n t tried hown]
    by_cases hfound : tried = false ∧ (G.own key t).isSome
    · rw [hr, if_pos hfound, if_pos hfound]
    · rw [hr, if_neg hfound, if_neg hfound]
      cases hf : G.tm t .index with
      | none => cases G.indexable t <;> rfl
      | some f => simp only [hchain f hf, if_true]
  | succ m ih =>
    intro n h t tried hrep hchain hn hown
    obtain ⟨n, rfl⟩ : ∃ k, n = k + 1 := ⟨n - 1, by omega⟩
    obtain ⟨f, hf, hfun, hrest⟩ := hchain
    obtain ⟨h₁, h₂, p, r, hprobe, hmeta, hrep₂, hr⟩ := metaIndex_spec hrep t key tried hown
    rw [finishget, hprobe, Rust.ok_bind]
    dsimp only
    rw [hmeta, Rust.ok_bind, indexes_eq n t tried hown]
    dsimp only
    by_cases hfound : tried = false ∧ (G.own key t).isSome
    · rw [hr, if_pos hfound, if_pos hfound]
      exact ⟨h₂, rfl, hrep₂⟩
    rw [hr, if_neg hfound, if_neg hfound]
    simp only [hf, hfun, Bool.false_eq_true, if_false]
    generalize (tried && (G.props t).isNone) = tried'
    have next : ∀ {h : Heap}, h.Rep hs G → (tag (some f) = 5 → G.own key (some f) = none) →
        ∃ h', finishget hs key n h (some f) tried' =
          .ok (h', if tried' then G.indexVm key n (some f) else G.index key n (some f)) ∧ h'.Rep hs G :=
      fun hrep' hown' => ih tried' hrep' hrest (by omega) hown'
    cases f with
    | table a =>
      obtain ⟨h₃, s, hget, hrep₃, -, -⟩ := hrep₂.get a key
      dsimp only
      rw [hget, Rust.ok_bind]
      dsimp only
      obtain ⟨n, rfl⟩ : ∃ k, n = k + 1 := ⟨n - 1, by omega⟩
      cases hv : G.entry a key with
      | none => exact next hrep₃ fun _ => hv
      | some v =>
        have hown' : G.own key (some (.table a)) = some v := hv
        refine ⟨h₃, ?_, hrep₃⟩
        rw [Graph.indexVm, Graph.index, hown']
        cases tried' <;> rfl
    | _ => exact next hrep₂ fun ht => absurd ht (by simp [tag])

theorem vmGet_spec (hrep : h.Rep hs G) (op : GetOp) {t : Option Value} {m : Nat} (hm : m < 2000)
    (hchain : G.ChainEnds .index m t) :
    ∃ h', vmGet hs op h t =
      .ok (h', if (G.own op.key t).isSome then .value (G.own op.key t) else G.indexVm op.key 2000 t) ∧ h'.Rep hs G := by
  obtain ⟨h₁, hfast, hrep₁, -⟩ := op.fast_spec hrep t
  rw [vmGet, hfast, Rust.ok_bind]
  dsimp only
  cases hv : G.own op.key t with
  | some v => exact ⟨h₁, rfl, hrep₁⟩
  | none => exact finishget_spec m true hrep₁ hchain hm fun _ => hv

theorem threadIndex_spec (hrep : h.Rep hs G) (key : Key) {t : Option Value} {m : Nat} (hm : m < 2000)
    (hchain : G.ChainEnds .index m t) : ∃ h', threadIndex hs h t key = .ok (h', G.index key 2000 t) ∧ h'.Rep hs G := by
  unfold threadIndex
  split
  · rename_i a
    obtain ⟨h₁, s, hget, hrep₁, -, -⟩ := hrep.get a key
    rw [hget, Rust.ok_bind]
    dsimp only
    cases hv : G.entry a key with
    | some v =>
      refine ⟨h₁, ?_, hrep₁⟩
      rw [Graph.index, show G.own key (some (.table a)) = some v from hv]
    | none => exact finishget_spec m false hrep₁ hchain hm fun _ => hv
  · rename_i hnt
    refine finishget_spec m false hrep hchain hm fun ht => ?_
    exfalso
    cases t with
    | none => cases ht
    | some v => cases v <;> first | exact hnt _ rfl | cases ht

/-- The opcodes and the thread agree, and give what the law gives, exactly where the property left out makes no
difference; the thread follows the law always. -/
theorem reads_agree_iff (hrep : h.Rep hs G) (op : GetOp) (t : Option Value) {m : Nat} (hm : m < 2000)
    (hchain : G.ChainEnds .index m t) :
    ∃ h₁ h₂ r, vmGet hs op h t = .ok (h₁, r) ∧ threadIndex hs h t op.key = .ok (h₂, G.index op.key 2000 t) ∧
      h₁.Rep hs G ∧ h₂.Rep hs G ∧ (r = G.index op.key 2000 t ↔ G.Seen op.key t) := by
  obtain ⟨h₁, hvm, hrep₁⟩ := vmGet_spec hrep op hm hchain
  obtain ⟨h₂, hth, hrep₂⟩ := threadIndex_spec hrep op.key hm hchain
  refine ⟨h₁, h₂, _, hvm, hth, hrep₁, hrep₂, ?_⟩
  by_cases hown : (G.own op.key t).isSome
  · refine iff_of_true ?_ (.inl hown)
    obtain ⟨v, hv⟩ := Option.isSome_iff_exists.mp hown
    rw [if_pos hown, Graph.index, hv]
  rw [if_neg hown]
  by_cases hprops : (G.props t).isSome
  · refine iff_of_true ?_ (.inr (.inl hprops))
    rw [Graph.indexVm, if_pos hprops, Graph.index_succ, Option.not_isSome_iff_eq_none.mp hown]
  · have hsplit := @Graph.indexVm_eq G op.key 2000 t
    rw [Graph.Seen, or_iff_right hown, or_iff_right hprops]
    cases hfirst : G.firstProps op.key 2000 t with
    | none =>
      rw [hfirst] at hsplit
      exact iff_of_true hsplit fun n u v hn _ => nomatch hn
    | some r =>
      obtain ⟨n, u⟩ := r
      rw [hfirst] at hsplit
      rw [hsplit.1, hsplit.2, Graph.index_succ]
      cases hv : G.own op.key u with
      | none =>
        refine iff_of_true rfl fun n' u' v hn hv' => ?_
        obtain ⟨-, rfl⟩ := Prod.mk.inj (Option.some.inj hn)
        rw [hv] at hv'
        cases hv'
      | some v =>
        constructor
        · intro heq n' u' v' hn hv'
          obtain ⟨rfl, rfl⟩ := Prod.mk.inj (Option.some.inj hn)
          rw [hv] at hv'
          rw [heq, hv']
        · intro hall
          exact hall n u v rfl hv

end

/-! ## A property that is left out -/

/-- Table 0 with metatable 1, whose `__index` (string 100) is userdata 0, whose property under string 7 is 5. -/
def propsBehind : Heap where
  tables a :=
    if a = 0 then ⟨Table.new Value, some 1, fun _ => false⟩
    else if a = 1 then ⟨oneEntry 100 (.userdata 0), none, fun _ => false⟩
    else if a = 2 then ⟨oneEntry 7 (.int 5), none, fun _ => false⟩
    else ⟨Table.new Value, none, fun _ => false⟩
  udata _ := ⟨some 2, none⟩
  typeMt _ := none
  event e := match e with | .index => 100 | .newindex => 101 | .gc => 102 | .mode => 103 | .len => 104 | .eq => 105
  marked _ := ⟨true, false⟩
  grayagain := []

/-- The graph of `propsBehind`. -/
def propsBehindGraph : Graph where
  entries a :=
    if a = 1 then Function.update (fun _ => none) (.shortStr 100) (some (.userdata 0))
    else if a = 2 then Function.update (fun _ => none) (.shortStr 7) (some (.int 5))
    else fun _ => none
  metatable a := if a = 0 then some 1 else none
  udata _ := ⟨some 2, none⟩
  typeMt _ := none
  event e := match e with | .index => 100 | .newindex => 101 | .gc => 102 | .mode => 103 | .len => 104 | .eq => 105

theorem propsBehind_rep : propsBehind.Rep Table.sameHash propsBehindGraph := by
  refine ⟨fun a => ?_, fun a => ?_, fun a e h => ?_, rfl, rfl, rfl⟩
  · by_cases h0 : a = 0
    · subst h0
      exact Table.new_represents
    by_cases h1 : a = 1
    · subst h1
      exact oneEntry_represents rfl
    by_cases h2 : a = 2
    · subst h2
      exact oneEntry_represents rfl
    · simp only [propsBehind, propsBehindGraph, if_neg h0, if_neg h1, if_neg h2]
      exact Table.new_represents
  · simp only [propsBehind, propsBehindGraph]
    split_ifs <;> rfl
  · exfalso
    simp only [propsBehind] at h
    split_ifs at h

/-- The opcode finds nil where the thread finds the property. -/
theorem reads_differ : ∃ h₁ h₂, vmGet Table.sameHash (.getfield 7) propsBehind (some (.table 0)) = .ok (h₁, .value none) ∧
    threadIndex Table.sameHash propsBehind (some (.table 0)) (.shortStr 7) = .ok (h₂, .value (some (.int 5))) ∧
    propsBehindGraph.index (.shortStr 7) 2000 (some (.table 0)) = .value (some (.int 5)) :=
  ⟨_, _, rfl, rfl, rfl⟩

/-- Both find the property of the userdata itself. -/
theorem reads_agree_userdata : ∃ h₁ h₂ r,
    vmGet Table.sameHash (.getfield 7) propsBehind (some (.userdata 0)) = .ok (h₁, r) ∧
      threadIndex Table.sameHash propsBehind (some (.userdata 0)) (.shortStr 7) =
        .ok (h₂, propsBehindGraph.index (.shortStr 7) 2000 (some (.userdata 0))) ∧
      r = .value (some (.int 5)) := by
  obtain ⟨h₁, h₂, r, hvm, hth, -, -, hiff⟩ := reads_agree_iff (m := 0) propsBehind_rep (.getfield 7)
    (some (.userdata 0)) (by decide) (fun f hf => nomatch hf)
  exact ⟨h₁, h₂, r, hvm, hth, hiff.mpr (.inr (.inl rfl))⟩

end Tsuki.Vm
