import Tsuki.Lib.BackLinks
import Mathlib.Data.List.Basic
import Mathlib.Tactic.Ring

/-!
# Strong references

`Ref` and the two lists of objects that have some: `refs`, and `marked_refs`, where the list is while a cycle marks.
The rest of a cycle is only what it can do to an object with references: give it a color or free it.
-/

namespace Tsuki.Refs

open Lib.BackLinks (Links lastCell)

/-- The lists of objects with strong references. -/
inductive Head
  | refs
  | markedRefs
  deriving DecidableEq

/-- What `refn` points to: a head, or the `refp` of an object. -/
abbrev Cell := Lib.BackLinks.Cell Head Nat

/-- The white and the black bit of `marked`; gray and black are the same here. -/
inductive Color
  | white (w : Bool)
  | marked
  deriving DecidableEq

/-- The parts of `Object` that matter for its references. -/
structure Object where
  refs : Nat
  refn : Option Cell
  refp : Option Nat
  color : Color
  deriving DecidableEq

/-- `Gc::state`: 8, 0, 1 and 3. -/
inductive State
  | idle
  | mark
  | atomic
  | sweep
  deriving DecidableEq

/-- An object that is not allocated is none; `count` is how many ever were. -/
structure Gc where
  state : State
  currentwhite : Bool
  refs : Option Nat
  markedRefs : Option Nat
  object : Nat → Option Object
  count : Nat

/-- How an operation fails: the panic of `too_many_refs`, an access through a pointer that is null or to an object that
is free, a count below zero, a list without an end, or no memory. -/
inductive Stop
  | tooManyRefs
  | stale
  | underflow
  | endless
  | memory
  deriving DecidableEq

@[simp] theorem Stop.ok_bind {α β : Type} (a : α) (f : α → Except Stop β) : ((Except.ok a : Except Stop α) >>= f) = f a :=
  rfl

def new : Gc := ⟨.idle, false, none, none, fun _ => none, 0⟩

/-- The white of the last cycle is dead. -/
def Gc.isDead (g : Gc) (h : Object) : Prop := h.color = .white !g.currentwhite

instance (g : Gc) (h : Object) : Decidable (g.isDead h) := inferInstanceAs (Decidable (_ = _))

/-! ## Memory -/

def Gc.load (g : Gc) (o : Nat) : Except Stop Object :=
  match g.object o with
  | some h => .ok h
  | none => .error .stale

def Gc.modify (g : Gc) (o : Nat) (f : Object → Object) : Except Stop Gc :=
  match g.object o with
  | some h => .ok { g with object := Function.update g.object o (some (f h)) }
  | none => .error .stale

/-- `*n = p`. -/
def Gc.write (g : Gc) (n : Cell) (p : Option Nat) : Except Stop Gc :=
  match n with
  | .head .refs => .ok { g with refs := p }
  | .head .markedRefs => .ok { g with markedRefs := p }
  | .link o => g.modify o fun h => { h with refp := p }

/-- `if !p.is_null() { (*p).refn.set(n) }`. -/
def Gc.setRefn (g : Gc) (p : Option Nat) (n : Cell) : Except Stop Gc :=
  match p with
  | none => .ok g
  | some p => g.modify p fun h => { h with refn := some n }

/-! ## References -/

def usizeMax : Nat := 2 ^ 64 - 1

def Gc.alloc (g : Gc) : Gc :=
  { g with object := Function.update g.object g.count (some ⟨0, none, none, .white g.currentwhite⟩), count := g.count + 1 }

/-- `Ref::clone` and `Ref::increment_strong_count`. -/
def Gc.incrementStrongCount (g : Gc) (o : Nat) : Except Stop Gc := do
  let h ← g.load o
  if h.refs + 1 ≤ usizeMax then g.modify o fun h => { h with refs := h.refs + 1 } else .error .tooManyRefs

/-- `Ref::new`. -/
def Gc.newRef (g : Gc) (o : Nat) : Except Stop Gc := do
  let h ← g.load o
  if h.refs = 0 then
    let p := g.refs
    let g ← g.modify o fun h => { h with refs := 1, refn := some (.head .refs), refp := p }
    let g ← g.setRefn p (.link o)
    .ok { g with refs := some o }
  else g.incrementStrongCount o

def Gc.unref (g : Gc) (o : Nat) : Except Stop Gc := do
  let h ← g.load o
  if h.refs = 0 then .error .underflow
  else
    let g ← g.modify o fun h => { h with refs := h.refs - 1 }
    if h.refs - 1 ≠ 0 then .ok g
    else
      let g ← g.modify o fun h => { h with refn := none, refp := none }
      match h.refn with
      | none => .error .stale
      | some n => do
        let g ← g.write n h.refp
        g.setRefn h.refp n

/-! ## A cycle -/

/-- What a step finds: whether it goes on to the next state, the objects it marks on its way through the graph, and
the objects it sweeps. -/
structure Round where
  next : Bool
  marks : Nat → Bool
  sweeps : Nat → Bool

/-- The objects on the way get a color. -/
def Gc.visit (g : Gc) (marks : Nat → Bool) : Gc :=
  { g with object := fun o => (g.object o).map fun h => if marks o then { h with color := .marked } else h }

/-- "Mark strong references", from `o` on, for at most `n` objects. -/
def Gc.markRefs : Nat → Gc → Option Nat → Except Stop Gc
  | _, g, none => .ok g
  | 0, _, some _ => .error .endless
  | n + 1, g, some o => do
    let h ← g.load o
    let g ← g.modify o fun h => { h with color := .marked }
    Gc.markRefs n g h.refp

/-- "Mark object with strong references", from `o` on, up to the last one, which is linked to `m`. -/
def Gc.finishRefs (m : Option Nat) : Nat → Gc → Nat → Except Stop Gc
  | 0, _, _ => .error .endless
  | n + 1, g, o => do
    let h ← g.load o
    let g ← g.modify o fun h => { h with color := .marked }
    match h.refp with
    | some p => Gc.finishRefs m n g p
    | none => do
      let g ← g.modify o fun h => { h with refp := m }
      g.setRefn m (.link o)

/-- The start of a cycle. -/
def Gc.start (g : Gc) : Except Stop Gc :=
  let o := g.refs
  let g := { g with refs := none }
  match o with
  | none => .ok g
  | some o => do
    let g ← { g with markedRefs := some o }.modify o fun h => { h with refn := some (.head .markedRefs) }
    g.markRefs g.count (some o)

/-- The first part of `finish_marking`. -/
def Gc.finishMarking (g : Gc) : Except Stop Gc :=
  let m := g.markedRefs
  let g := { g with markedRefs := none }
  match g.refs with
  | none => { g with refs := m }.setRefn m (.head .refs)
  | some o => g.finishRefs m g.count o

/-- `sweep`: a dead object is freed, another one is white again. -/
def Gc.sweep (g : Gc) (sweeps : Nat → Bool) : Gc :=
  { g with
    object := fun o => (g.object o).bind fun h =>
      if sweeps o then if g.isDead h then none else some { h with color := .white g.currentwhite } else some h }

def Gc.step (g : Gc) (r : Round) : Except Stop Gc :=
  match g.state with
  | .idle =>
    if r.next then do
      let g ← g.start
      .ok { g.visit r.marks with state := .mark }
    else .ok g
  | .mark => if r.next then .ok { g with state := .atomic } else .ok (g.visit r.marks)
  | .atomic => do
    let g ← g.finishMarking
    let g := g.visit r.marks
    .ok { g with state := .sweep, currentwhite := !g.currentwhite }
  | .sweep => if r.next then .ok { g with state := .idle } else .ok (g.sweep r.sweeps)

/-- `Gc::barrier` for a value `v` that the object `o` has received. -/
def Gc.barrier (g : Gc) (o v : Nat) : Except Stop Gc :=
  match g.state with
  | .mark | .atomic => g.modify v fun h => { h with color := .marked }
  | .idle | .sweep => g.modify o fun h => { h with color := .white g.currentwhite }

def Gc.barrierBack (g : Gc) (o : Nat) : Except Stop Gc := g.modify o fun h => { h with color := .marked }

def Gc.resurrect (g : Gc) (o : Nat) : Except Stop Gc :=
  g.modify o fun h => if g.isDead h then { h with color := .white g.currentwhite } else h

/-! ## Programs -/

/-- An operation of the program or a step of the collector. -/
inductive Act
  | alloc
  | newRef (o : Nat)
  | clone (o : Nat)
  | drop (o : Nat)
  | barrier (o v : Nat)
  | barrierBack (o : Nat)
  | resurrect (o : Nat)
  | step (r : Round)

/-- The collector, and how many `Ref`s of each object there are. -/
structure World where
  gc : Gc
  handles : Nat → Nat

/-- What a program can do: take a reference to an object that it can reach, which is not dead, copy or drop a `Ref`
that there is, and change the color of what is not free. -/
def World.Allows (w : World) : Act → Prop
  | .newRef o => ∃ h, w.gc.object o = some h ∧ ¬w.gc.isDead h
  | .clone o | .drop o => 0 < w.handles o
  | .barrier o v => (w.gc.object o).isSome ∧ (w.gc.object v).isSome
  | .barrierBack o | .resurrect o => (w.gc.object o).isSome
  | .alloc | .step _ => True

def World.exec (w : World) : Act → Except Stop World
  | .alloc => .ok { w with gc := w.gc.alloc }
  | .newRef o => do
    let g ← w.gc.newRef o
    .ok ⟨g, Function.update w.handles o (w.handles o + 1)⟩
  | .clone o => do
    let g ← w.gc.incrementStrongCount o
    .ok ⟨g, Function.update w.handles o (w.handles o + 1)⟩
  | .drop o => do
    let g ← w.gc.unref o
    .ok ⟨g, Function.update w.handles o (w.handles o - 1)⟩
  | .barrier o v => do
    let g ← w.gc.barrier o v
    .ok { w with gc := g }
  | .barrierBack o => do
    let g ← w.gc.barrierBack o
    .ok { w with gc := g }
  | .resurrect o => do
    let g ← w.gc.resurrect o
    .ok { w with gc := g }
  | .step r => do
    let g ← w.gc.step r
    .ok { w with gc := g }

/-- The worlds that programs come to. -/
inductive World.Reached : World → Prop
  | new : Reached ⟨new, fun _ => 0⟩
  | exec {w w' : World} {a : Act} : Reached w → w.Allows a → w.exec a = .ok w' → Reached w'

end Tsuki.Refs
