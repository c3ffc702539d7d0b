import Tsuki.Gc.Collector
import Mathlib.Data.List.Nodup

/-!
# What is reachable through weak tables

The meaning of strong tables, tables with weak values, ephemeron tables and tables weak in both, on a graph of objects.
-/

namespace Tsuki.Collector

/-- What an object refers to. -/
def Val.refs : Val → List Nat
  | .obj o => [o]
  | _ => []

/-- The entries of a table: a node without a value is none. -/
def Table.entries (t : Table) : List Node := t.node.filter fun n => n.val ≠ .nil

/-- What an object refers to strongly. -/
def Body.strong : Body → List Nat
  | .str | .rustId | .sweepMark => []
  | .upVal _ v => v.refs
  | .userData props mt => props.toList ++ mt.toList
  | .table t => t.metatable.toList ++
      match t.weakKeys, t.weakVals with
      | true, true => []
      | true, false => t.array.flatMap Val.refs
      | false, true => t.entries.flatMap fun n => n.key.refs
      | false, false => t.array.flatMap Val.refs ++ t.entries.flatMap fun n => n.key.refs ++ n.val.refs
  | .luaFn p upvals => p.toList ++ upvals.flatMap Option.toList
  | .rustFn upvalue => upvalue.flatMap Val.refs
  | .proto k upvalues p locvars => k.flatMap Val.refs ++ (upvalues.flatMap Option.toList ++
      (p.flatMap Option.toList ++ locvars.flatMap Option.toList))
  | .thread none _ => []
  | .thread (some slots) openupval => slots.flatMap Val.refs ++ openupval
  | .collection items => items.flatMap Val.refs

/-- All that an object refers to. -/
def Body.refs : Body → List Nat
  | .table t => t.metatable.toList ++ (t.array.flatMap Val.refs ++ t.entries.flatMap fun n => n.key.refs ++ n.val.refs)
  | b => b.strong

/-- The contents without the keys of removed entries. -/
def Body.view : Body → Body
  | .table t => .table { t with node := t.entries }
  | b => b

/-- The contents of the objects. -/
abbrev Graph := Nat → Option Body

variable (b : Graph)

/-- A value that is present: not an object, or a string, or an object that is reached. -/
def Present (R : Nat → Prop) (v : Val) : Prop := ∀ o ∈ v.refs, b o = some .str ∨ R o

/-- What is reachable: the value of an entry of an ephemeron table is only if its key is. -/
inductive Reach (roots : List Nat) : Nat → Prop
  | root {o : Nat} : o ∈ roots → Reach roots o
  | strong {o x : Nat} {c : Body} : Reach roots o → b o = some c → x ∈ c.strong → Reach roots x
  | valueOfPresent {o x : Nat} {t : Table} {n : Node} : Reach roots o → b o = some (.table t) → t.weakKeys = true →
      t.weakVals = false → n ∈ t.entries → (∀ k ∈ n.key.refs, b k = some .str) → x ∈ n.val.refs → Reach roots x
  | valueOfKey {o x k : Nat} {t : Table} {n : Node} : Reach roots o → b o = some (.table t) → t.weakKeys = true →
      t.weakVals = false → n ∈ t.entries → n.key = .obj k → Reach roots k → x ∈ n.val.refs → Reach roots x

/-- A string that a table that is reached shows: as a weak value, as the key of an ephemeron, or as the key of an entry of
a table weak in both where the value is present. -/
def Shown (R : Nat → Prop) (s : Nat) : Prop :=
  b s = some .str ∧ ∃ o t, R o ∧ b o = some (.table t) ∧
    ((t.weakVals = true ∧ ∃ v ∈ t.array ++ t.entries.map Node.val, s ∈ v.refs) ∨
      (t.weakKeys = true ∧ ∃ n ∈ t.entries, s ∈ n.key.refs ∧ (t.weakVals = true → Present b R n.val)))

/-- What is left of a table: the weak values that are not present are cleared, and the entries with a weak key that is
not. -/
structure Kept (R : Nat → Prop) (t t' : Table) : Prop where
  weakKeys : t'.weakKeys = t.weakKeys
  weakVals : t'.weakVals = t.weakVals
  metatable : t'.metatable = t.metatable
  array : ∃ p : Val → Bool, (∀ v, p v = true ↔ (t.weakVals = true → Present b R v)) ∧
    t'.array = t.array.map fun v => if p v then v else Val.nil
  entries : ∃ p : Node → Bool, (∀ n, p n = true ↔ (t.weakVals = true → Present b R n.val) ∧
    (t.weakKeys = true → Present b R n.key)) ∧ t'.entries = t.entries.filter p

/-- An object that can be marked. -/
def Markable (o : Nat) : Prop := ∃ c, b o = some c ∧ c ≠ .sweepMark

/-- A graph of objects: all that is referred to exists, and has the type that is meant. -/
structure WellFormed : Prop where
  refs : ∀ {o c x}, b o = some c → x ∈ c.refs → Markable b x
  upVal : ∀ {o i x}, b o = some (.upVal i (.obj x)) → ∀ i v, b x ≠ some (.upVal i v)
  userData : ∀ {o props mt x}, b o = some (.userData props mt) → x ∈ props.toList ++ mt.toList → ∃ t, b x = some (.table t)
  openupval : ∀ {o stack us u}, b o = some (.thread stack us) → u ∈ us → ∃ i v, b u = some (.upVal i v)

theorem strong_subset_refs {c : Body} {x : Nat} (h : x ∈ c.strong) : x ∈ c.refs := by
  cases c with
  | table t =>
    rw [Body.strong] at h
    rw [Body.refs]
    rcases List.mem_append.mp h with h | h
    · exact List.mem_append_left _ h
    · apply List.mem_append_right
      split at h
      · cases h
      · exact List.mem_append_left _ h
      · apply List.mem_append_right
        obtain ⟨n, hn, hx⟩ := List.mem_flatMap.mp h
        exact List.mem_flatMap.mpr ⟨n, hn, List.mem_append_left _ hx⟩
      · exact h
  | _ => exact h

/-! ## Clearing of keys -/

theorem Node.clearEmpty_of_ne {n : Node} (h : n.val ≠ .nil) : n.clearEmpty = n := if_neg h

theorem Node.clearEmpty_val (n : Node) : n.clearEmpty.val = n.val := by
  unfold Node.clearEmpty
  split <;> rfl

/-- The entries do not change where the keys of empty nodes are cleared. -/
theorem entries_clearEmpty (t : Table) :
    Table.entries { t with node := t.node.map Node.clearEmpty } = t.entries := by
  unfold Table.entries
  induction t.node with
  | nil => rfl
  | cons n ns ih =>
    dsimp only at ih ⊢
    rw [List.map_cons, List.filter_cons, List.filter_cons, Node.clearEmpty_val, ih]
    by_cases hn : n.val = .nil
    · rw [if_neg (by simp [hn]), if_neg (by simp [hn])]
    · rw [if_pos (by simp [hn]), if_pos (by simp [hn]), Node.clearEmpty_of_ne hn]

theorem view_setNode {t t₀ : Table} (h : (Body.table t).view = (Body.table t₀).view) :
    (Body.table { t with node := t.node.map Node.clearEmpty }).view = (Body.table t₀).view := by
  rw [← h]
  unfold Body.view
  dsimp only
  rw [entries_clearEmpty]

theorem view_table {t : Table} {c : Body} (h : c.view = (Body.table t).view) :
    ∃ t', c = .table t' ∧ t'.entries = t.entries ∧ t'.weakKeys = t.weakKeys ∧ t'.weakVals = t.weakVals ∧
      t'.metatable = t.metatable ∧ t'.array = t.array := by
  cases c with
  | table t' =>
    have h : ({ t' with node := t'.entries } : Table) = { t with node := t.entries } := Body.table.inj h
    have hnode := congrArg Table.node h
    have hkeys := congrArg Table.weakKeys h
    have hvals := congrArg Table.weakVals h
    have hmt := congrArg Table.metatable h
    have harray := congrArg Table.array h
    exact ⟨t', rfl, hnode, hkeys, hvals, hmt, harray⟩
  | _ => exact nomatch h

theorem view_other {c c' : Body} (h : c.view = c'.view) (hc : ∀ t, c' ≠ .table t) : c = c' := by
  cases c' with
  | table t => exact absurd rfl (hc t)
  | _ =>
    cases c with
    | table t => exact nomatch h
    | _ => exact h

end Tsuki.Collector
