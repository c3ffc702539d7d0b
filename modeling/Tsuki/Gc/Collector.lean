import Mathlib.Data.List.Basic
import Mathlib.Logic.Function.Basic

/-!
# The collector

`Gc`, with the marking of every type of object, weak tables among them, the sweep and the account of objects, `debt`.
A run that would stop goes on here, with all that would have stopped it kept.
-/

namespace Tsuki.Collector

/-- A value: nil, one that is not collectable, an object, or the key of an entry that was removed. -/
inductive Val
  | nil
  | prim
  | obj (o : Nat)
  | dead
  deriving DecidableEq

structure Node where
  key : Val
  val : Val
  deriving DecidableEq

/-- The parts of `Table` that hold values, and the mode that its metatable gives it. -/
structure Table where
  weakKeys : Bool
  weakVals : Bool
  metatable : Option Nat
  array : List Val
  node : List Node
  deriving DecidableEq

/-- What an object holds. The value of an upvalue is the one it points to; a thread holds the slots of its stack below
the top, if it has one, and its open upvalues. -/
inductive Body
  | str
  | rustId
  | upVal (isOpen : Bool) (v : Val)
  | userData (props mt : Option Nat)
  | table (t : Table)
  | luaFn (p : Option Nat) (upvals : List (Option Nat))
  | rustFn (upvalue : List Val)
  | proto (k : List Val) (upvalues p locvars : List (Option Nat))
  | thread (stack : Option (List Val)) (openupval : List Nat)
  | collection (items : List Val)
  | sweepMark
  deriving DecidableEq

/-- The white and the black bit of `marked`. -/
inductive Color
  | white (w : Bool)
  | gray
  | black
  deriving DecidableEq

def Color.isWhite : Color → Bool
  | .white _ => true
  | _ => false

structure Object where
  body : Body
  color : Color
  deriving DecidableEq

/-- The lists of objects linked by `gclist`. -/
inductive GcList
  | gray
  | grayagain
  | weak
  | ephemeron
  | allweak
  deriving DecidableEq

/-- `Gc::state`: 8, 0, 1, 2 and 3. -/
inductive State
  | idle
  | propagate
  | atomic
  | finish
  | sweep
  deriving DecidableEq

/-- What would stop a run: a subtraction that underflows, a pointer to an object that is free, an arm that is
unreachable, or a loop without an end. -/
inductive Stop
  | underflow
  | stale
  | unreachable
  | endless
  deriving DecidableEq

/-- `Gc`. The list of all objects is `all`, up to where the sweep is, and then `sweep`, where it is not null. An object
that is not allocated is none; `count` is how many ever were. -/
structure Gc where
  state : State
  currentwhite : Bool
  all : List Nat
  list : GcList → List Nat
  twups : List Nat
  sweep : Option (List Nat)
  sweepMark : Option Nat
  refs : List Nat
  markedRefs : List Nat
  refCount : Nat → Nat
  root : Option Nat
  debt : Nat
  survivors : Nat
  object : Nat → Option Object
  count : Nat
  stops : List Stop

def new : Gc where
  state := .idle
  currentwhite := false
  all := []
  list _ := []
  twups := []
  sweep := none
  sweepMark := none
  refs := []
  markedRefs := []
  refCount _ := 0
  root := none
  debt := 0
  survivors := 0
  object _ := none
  count := 0
  stops := []

variable (g : Gc)

def Gc.fail (s : Stop) : Gc := { g with stops := s :: g.stops }

/-- `debt.strict_sub(1)`. -/
def Gc.charge : Gc := if g.debt = 0 then g.fail .underflow else { g with debt := g.debt - 1 }

def Gc.paint (o : Nat) (c : Color) : Gc :=
  { g with object := Function.update g.object o ((g.object o).map fun h => { h with color := c }) }

def Gc.setBody (o : Nat) (b : Body) : Gc :=
  { g with object := Function.update g.object o ((g.object o).map fun h => { h with body := b }) }

def Gc.setList (l : GcList) (os : List Nat) : Gc := { g with list := Function.update g.list l os }

/-- `linkgclist_`. -/
def Gc.link (o : Nat) (l : GcList) : Gc := (g.setList l (o :: g.list l)).paint o .gray

@[simp] theorem Gc.object_paint_self (o : Nat) (c : Color) :
    (g.paint o c).object o = (g.object o).map fun h => { h with color := c } := Function.update_self ..

theorem Gc.object_paint_of_ne {o x : Nat} (c : Color) (h : x ≠ o) : (g.paint o c).object x = g.object x :=
  Function.update_of_ne h ..

@[simp] theorem Gc.object_setBody_self (o : Nat) (b : Body) :
    (g.setBody o b).object o = (g.object o).map fun h => { h with body := b } := Function.update_self ..

theorem Gc.object_setBody_of_ne {o x : Nat} (b : Body) (h : x ≠ o) : (g.setBody o b).object x = g.object x :=
  Function.update_of_ne h ..

/-- What is done where an object is white. -/
def Gc.visitWith (mark : Gc → Nat → Gc) (o : Nat) : Gc :=
  match g.object o with
  | none => g.fail .stale
  | some h => if h.color.isWhite then mark g o else g

def Gc.optWith (mark : Gc → Nat → Gc) : Option Nat → Gc
  | none => g
  | some o => g.visitWith mark o

/-! ## Marking -/

/-- `mark` of a table, where the type of the pointer says that it is one. -/
def Gc.markTable (o : Nat) : Gc :=
  match (g.object o).map Object.body with
  | some (.table _) => g.link o .gray
  | _ => g.fail .unreachable

/-- `mark` of what a value can be. -/
def Gc.markValue (o : Nat) : Gc :=
  match (g.object o).map Object.body with
  | none => g.fail .stale
  | some .str | some .rustId => (g.paint o .black).charge
  | some (.userData props mt) =>
    let g := g.optWith Gc.markTable props
    let g := g.optWith Gc.markTable mt
    (g.paint o .black).charge
  | some (.upVal _ _) | some .sweepMark => g.fail .unreachable
  | _ => g.link o .gray

def Gc.mark (o : Nat) : Gc :=
  match (g.object o).map Object.body with
  | some (.upVal isOpen v) =>
    let g := (g.paint o (if isOpen then .gray else .black)).charge
    match v with
    | .obj v => g.visitWith Gc.markValue v
    | _ => g
  | _ => g.markValue o

/-- `if (*o).marked.is_white() { self.mark(o) }`. -/
def Gc.visit (o : Nat) : Gc := g.visitWith Gc.mark o

def Gc.visitOpt (p : Option Nat) : Gc := g.optWith Gc.mark p

def Gc.visitVal : Val → Gc
  | .obj o => g.visit o
  | _ => g

def Gc.isCleared : Val → Gc × Bool
  | .obj o =>
    match g.object o with
    | none => (g.fail .stale, false)
    | some h => if h.body = .str then (g.visit o, false) else (g, h.color.isWhite)
  | _ => (g, false)

def Val.clearKey : Val → Val
  | .obj _ => .dead
  | k => k

/-- The key of an entry without a value is cleared. -/
def Node.clearEmpty (n : Node) : Node := if n.val = .nil then { n with key := n.key.clearKey } else n

def Gc.setNode (o : Nat) (t : Table) (node : List Node) : Gc := g.setBody o (.table { t with node := node })

/-- The second loop of `mark_strong_table`. -/
def strongNode (g : Gc) (n : Node) : Gc := if n.val = .nil then g else (g.visitVal n.key).visitVal n.val

def Gc.markStrongTable (o : Nat) (t : Table) : Gc :=
  let g := t.array.foldl Gc.visitVal g
  let g := t.node.foldl strongNode g
  g.setNode o t (t.node.map Node.clearEmpty)

/-- The loop of `mark_weak_value`. -/
def weakNode (s : Gc × Bool) (n : Node) : Gc × Bool :=
  if n.val = .nil then s
  else
    let g := s.1.visitVal n.key
    if s.2 then (g, true) else g.isCleared n.val

def Gc.markWeakValue (o : Nat) (t : Table) : Gc :=
  let (g, hasclears) := t.node.foldl weakNode (g, !t.array.isEmpty)
  let g := g.setNode o t (t.node.map Node.clearEmpty)
  if g.state = .finish ∧ hasclears then g.link o .weak else g.link o .grayagain

def Gc.isWhiteVal : Val → Bool
  | .obj o => (g.object o).any fun h => h.color.isWhite
  | _ => false

/-- What the loops of `mark_ephemeron` keep. -/
structure Flags where
  marked : Bool
  hasclears : Bool
  hasww : Bool

/-- The first loop of `mark_ephemeron`. -/
def ephemeronSlot (s : Gc × Bool) (v : Val) : Gc × Bool := (s.1.visitVal v, s.2 || s.1.isWhiteVal v)

/-- The second loop of `mark_ephemeron`. -/
def ephemeronNode (s : Gc × Flags) (n : Node) : Gc × Flags :=
  if n.val = .nil then s
  else
    let (g, c) := s.1.isCleared n.key
    if c then (g, { s.2 with hasclears := true, hasww := s.2.hasww || g.isWhiteVal n.val })
    else (g.visitVal n.val, { s.2 with marked := s.2.marked || g.isWhiteVal n.val })

/-- Where `mark_ephemeron` links the table. -/
def Gc.linkEphemeron (o : Nat) (fl : Flags) : Gc :=
  if g.state = .propagate then g.link o .grayagain
  else if fl.hasww then g.link o .ephemeron
  else if fl.hasclears then g.link o .allweak
  else g

def Gc.markEphemeron (o : Nat) (t : Table) (inv : Bool) : Gc × Bool :=
  let s := t.array.foldl ephemeronSlot (g, false)
  let s := (if inv then t.node.reverse else t.node).foldl ephemeronNode (s.1, ⟨s.2, false, false⟩)
  ((s.1.setNode o t (t.node.map Node.clearEmpty)).linkEphemeron o s.2, s.2.marked)

/-- `mark_table`. -/
def Gc.markTableBody (o : Nat) (t : Table) : Gc :=
  let g := g.visitOpt t.metatable
  match t.weakKeys, t.weakVals with
  | true, true => g.link o .allweak
  | true, false => (g.markEphemeron o t false).1
  | false, true => g.markWeakValue o t
  | false, false => g.markStrongTable o t

def Gc.markThread (o : Nat) (stack : Option (List Val)) (openupval : List Nat) : Gc :=
  if g.state = .propagate then g.link o .grayagain
  else
    match stack with
    | none => g
    | some slots =>
      let g := openupval.foldl Gc.visit (slots.foldl Gc.visitVal g)
      if o ∉ g.twups ∧ openupval ≠ [] then { g with twups := o :: g.twups } else g

/-- The arms of `mark_one_gray`. -/
def Gc.markBody (o : Nat) : Body → Gc
  | .table t => g.markTableBody o t
  | .luaFn p upvals => upvals.foldl Gc.visitOpt (g.visitOpt p)
  | .rustFn upvalue => upvalue.foldl Gc.visitVal g
  | .proto k upvalues p locvars =>
    locvars.foldl Gc.visitOpt (p.foldl Gc.visitOpt (upvalues.foldl Gc.visitOpt (k.foldl Gc.visitVal g)))
  | .thread stack openupval => g.markThread o stack openupval
  | .collection items => items.foldl Gc.visitVal g
  | _ => g.fail .unreachable

/-- `mark_one_gray` of the first object of the list. -/
def Gc.markOneGray (o : Nat) (gray : List Nat) : Gc :=
  let g := (g.paint o .black).setList .gray gray
  match g.object o with
  | none => g.fail .stale
  | some h => g.markBody o h.body

/-- `mark_all_gray`, with as many objects as are not marked or in the list. -/
def Gc.markAllGrayFor : Nat → Gc → Gc
  | k, g =>
    match k, g.list .gray with
    | _, [] => g
    | 0, _ => g.fail .endless
    | k + 1, o :: gray => Gc.markAllGrayFor k (g.markOneGray o gray)

def Gc.markAllGray : Gc := Gc.markAllGrayFor (g.count + (g.list .gray).length) g

/-- The loop of `remark_upvalues` over the open upvalues of a thread. -/
def Gc.remarkUpvalue (uv : Nat) : Gc :=
  match g.object uv with
  | some ⟨.upVal _ v, c⟩ => if c.isWhite then g else g.visitVal v
  | some _ => g.fail .unreachable
  | none => g.fail .stale

/-- The loop of `remark_upvalues`. -/
def Gc.remarkThread (th : Nat) : Gc :=
  match g.object th with
  | some ⟨.thread _ openupval, c⟩ =>
    if ¬c.isWhite ∧ openupval ≠ [] then { g with twups := g.twups ++ [th] } else openupval.foldl Gc.remarkUpvalue g
  | some _ => g.fail .unreachable
  | none => g.fail .stale

def Gc.remarkUpvalues : Gc := g.twups.foldl Gc.remarkThread { g with twups := [] }

/-! ## Weak tables -/

/-- The inner loop of `converge_ephemerons`. -/
def convergeList (dir : Bool) (s : Gc × Bool) (w : Nat) : Gc × Bool :=
  match s.1.object w with
  | some ⟨.table t, _⟩ =>
    let (g, marked) := (s.1.paint w .black).markEphemeron w t dir
    if marked then (g.markAllGray, true) else (g, s.2)
  | some _ => (s.1.fail .unreachable, s.2)
  | none => (s.1.fail .stale, s.2)

/-- `converge_ephemerons`, with as many rounds as there are objects to mark. -/
def Gc.convergeFor : Nat → Bool → Gc → Gc
  | 0, _, g => g.fail .endless
  | k + 1, dir, g =>
    let (g', changed) := (g.list .ephemeron).foldl (convergeList dir) (g.setList .ephemeron [], false)
    if changed then Gc.convergeFor k (!dir) g' else g'

def Gc.convergeEphemerons : Gc := Gc.convergeFor (g.count + 1) false g

/-- A value that is cleared, and what is left of it. -/
def clearSlot (s : Gc × List Val) (v : Val) : Gc × List Val :=
  let (g, c) := s.1.isCleared v
  (g, s.2 ++ [if c then .nil else v])

def clearNodeByValue (s : Gc × List Node) (n : Node) : Gc × List Node :=
  let (g, c) := s.1.isCleared n.val
  (g, s.2 ++ [(if c then { n with val := .nil } else n).clearEmpty])

def clearNodeByKey (s : Gc × List Node) (n : Node) : Gc × List Node :=
  let (g, c) := s.1.isCleared n.key
  (g, s.2 ++ [(if c then { n with val := .nil } else n).clearEmpty])

/-- The loop of `clear_by_keys`. -/
def Gc.clearByKey (o : Nat) : Gc :=
  match g.object o with
  | some ⟨.table t, _⟩ =>
    let (g, node) := t.node.foldl clearNodeByKey (g, [])
    g.setNode o t node
  | some _ => g.fail .unreachable
  | none => g.fail .stale

/-- The loop of `clear_by_values`. -/
def Gc.clearByValue (o : Nat) : Gc :=
  match g.object o with
  | some ⟨.table t, _⟩ =>
    let (g, array) := t.array.foldl clearSlot (g, [])
    let (g, node) := t.node.foldl clearNodeByValue (g, [])
    g.setBody o (.table { t with array := array, node := node })
  | some _ => g.fail .unreachable
  | none => g.fail .stale

def Gc.clearByKeys (l : List Nat) : Gc := l.foldl Gc.clearByKey g

/-- `clear_by_values`; `f` is what was the list before. -/
def Gc.clearByValues (l f : List Nat) : Gc := (l.take (l.length - f.length)).foldl Gc.clearByValue g

def Gc.finishMarking : Gc :=
  let grayagain := g.list .grayagain
  let g := g.setList .grayagain []
  let g := { g.refs.foldl Gc.visit g with refs := g.refs ++ g.markedRefs, markedRefs := [] }
  let g := g.markAllGray
  let g := g.remarkUpvalues
  let g := g.markAllGray
  let g := (g.setList .gray grayagain).markAllGray
  let g := g.convergeEphemerons
  let g := g.clearByValues (g.list .weak) []
  let g := g.clearByValues (g.list .allweak) []
  let ow := g.list .weak
  let oa := g.list .allweak
  let g := g.markAllGray
  let g := g.convergeEphemerons
  let g := g.clearByKeys (g.list .ephemeron)
  let g := g.clearByKeys (g.list .allweak)
  let g := g.clearByValues (g.list .weak) ow
  g.clearByValues (g.list .allweak) oa

end Tsuki.Collector
