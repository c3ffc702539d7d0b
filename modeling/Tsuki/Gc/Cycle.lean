import Tsuki.Gc.Collector

/-!
# Cycles of the collector

`Gc::step`, and what programs do between the steps: allocations, writes with their barriers, strong references.
-/

namespace Tsuki.Collector

variable (g : Gc)

/-! ## Programs -/

/-- A new object of `Gc::alloc`, which is the first of all. -/
def Gc.alloc (b : Body) : Gc :=
  { g with
    object := Function.update g.object g.count (some ⟨b, .white g.currentwhite⟩)
    all := g.count :: g.all
    debt := g.debt + 1
    count := g.count + 1 }

def Gc.isDead (c : Color) : Bool := c = .white !g.currentwhite

def Gc.resurrect (o : Nat) : Gc :=
  match g.object o with
  | none => g.fail .stale
  | some h => if g.isDead h.color then g.paint o (.white g.currentwhite) else g

def Gc.barrier (o v : Nat) : Gc :=
  match g.state with
  | .idle | .sweep => g.paint o (.white g.currentwhite)
  | _ => g.mark v

def Gc.barrierBack (o : Nat) : Gc := g.link o .grayagain

/-- The objects are black and white, as every caller of a barrier makes sure. -/
def Gc.needsBarrier (o v : Nat) : Bool :=
  (g.object o).any (fun h => h.color = .black) && (g.object v).any fun h => h.color.isWhite

/-- What a program does. An object can be written only by one of its type; `close` is the part of `luaF_closeupval` that
marks; `ref` and `unref` are `Ref::new` and the drop of a `Ref`. -/
inductive Mut
  | alloc (b : Body)
  | write (o : Nat) (b : Body)
  | close (uv : Nat)
  | barrier (o v : Nat)
  | barrierBack (o v : Nat)
  | resurrect (o : Nat)
  | ref (o : Nat)
  | unref (o : Nat)
  | setTwups (th : Nat)
  | setRoot (o : Nat)

def Gc.mutate (g : Gc) : Mut → Gc
  | .alloc b => if b = .sweepMark then g else g.alloc b
  | .write o b => if b = .sweepMark ∨ (g.object o).any (fun h => h.body = .sweepMark) then g else g.setBody o b
  | .close uv =>
    match g.object uv with
    | none => g.fail .stale
    | some h => if h.color.isWhite then g else g.paint uv .black
  | .barrier o v => if g.needsBarrier o v then g.barrier o v else g
  | .barrierBack o v => if g.needsBarrier o v then g.barrierBack o else g
  | .resurrect o => g.resurrect o
  | .ref o =>
    { g with
      refs := if g.refCount o = 0 then o :: g.refs else g.refs
      refCount := Function.update g.refCount o (g.refCount o + 1) }
  | .unref o =>
    { g with
      refs := if g.refCount o = 1 then g.refs.erase o else g.refs
      markedRefs := if g.refCount o = 1 then g.markedRefs.erase o else g.markedRefs
      refCount := Function.update g.refCount o (g.refCount o - 1) }
  | .setTwups th => { g with twups := th :: g.twups }
  | .setRoot o => { g with root := some o }

/-! ## The sweep -/

/-- `dealloc`; a sweep mark is kept for the next cycle instead, in the place of the one that was kept before. -/
def Gc.release (o : Nat) : Gc :=
  if (g.object o).any (fun h => h.body = .sweepMark) then
    match g.sweepMark with
    | none => { g with sweepMark := some o }
    | some m => { g with sweepMark := some o, object := Function.update g.object m none }
  else { g with object := Function.update g.object o none }

/-- `free`, with what the destructor of the object does. -/
def Gc.free (o : Nat) (drop : List Mut) : Gc := (drop.foldl Gc.mutate g).release o

/-- The loop of `sweep`: at most `k` objects more, and `freed` of them can be freed. -/
def Gc.sweepFor (drops : Nat → List Mut) : Nat → Nat → Gc → List Nat → Gc × List Nat
  | 0, _, g, rest => (g, rest)
  | _ + 1, _, g, [] => (g, [])
  | k + 1, freed, g, o :: rest =>
    match g.object o with
    | none => (g.fail .stale, [])
    | some h =>
      if g.isDead h.color then
        let g := (Gc.free { g with sweep := some rest } o (drops o)).charge
        if freed ≤ 1 then (g, rest) else Gc.sweepFor drops k (freed - 1) g rest
      else
        let g := g.paint o (.white g.currentwhite)
        let g := { g with survivors := g.survivors + 1, all := g.all ++ [o], sweep := some rest }
        Gc.sweepFor drops k freed g rest

/-! ## Steps -/

/-- `sweep_mark` put at the head of the list, or a new one. -/
def Gc.placeMark : Gc :=
  match g.sweepMark with
  | none => g.alloc .sweepMark
  | some m =>
    { (g.paint m (.white g.currentwhite)) with sweepMark := none, all := m :: g.all, debt := g.debt + 1 }

/-- "Reset lists", "Mark root" and "Mark strong references". -/
def Gc.startCycle : Gc :=
  let g := { g with list := fun _ => [] }
  let g := g.visitOpt g.root
  let refs := g.refs
  let g := if refs = [] then g else refs.foldl Gc.visit { g with refs := [], markedRefs := refs }
  { g with state := .propagate }

/-- "Insert sweep mark to the head", and the sweep from behind it on. -/
def Gc.insertMark : Gc :=
  let g := { g with currentwhite := !g.currentwhite }
  let rest := g.all
  let g := Gc.placeMark g
  -- the list is cut behind the mark, which is its head
  { g with all := g.all.take 1, sweep := some rest, survivors := 0, state := .sweep }

/-- `step`; `drops` is what the destructors of the objects do that it frees. -/
def Gc.step (drops : Nat → List Mut) : Gc :=
  match g.state with
  | .idle =>
    if g.debt < g.survivors then g.fail .underflow
    else if g.debt - g.survivors < g.survivors * 20 / 100 then g
    else g.startCycle
  | .propagate =>
    match g.list .gray with
    | [] => { g with state := .atomic }
    | o :: gray => (g.markOneGray o gray).charge
  | .atomic => (Gc.finishMarking { g with state := .finish }).insertMark
  | .sweep =>
    match g.sweep with
    | none => { g with debt := g.debt + g.survivors, state := .idle }
    | some rest =>
      let (g, rest) := Gc.sweepFor drops 100 2 g rest
      { g with sweep := if rest = [] then none else some rest }
  | .finish => g.fail .unreachable

/-- What a program and the collector do. -/
inductive Op
  | run (m : Mut)
  | step (drops : Nat → List Mut)

end Tsuki.Collector
