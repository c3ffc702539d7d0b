import Tsuki.Lib.BackLinks

/-!
# Open upvalues

The stack of a thread lies at an address that changes when the stack is reallocated. An upvalue is open as long as it
points to a slot; the open upvalues of a thread are in a list, each with a link back to the cell that points to it.
Addresses count stack values.
-/

namespace Tsuki.Func

open Lib.BackLinks (Links)

/-- A slot: a value, and the distance to the to-be-closed variable before. -/
structure StackValue (V : Type) where
  val : V
  tbcdelta : Nat

/-- What `v` of an upvalue points to: a slot, or the value inside of the upvalue. -/
inductive Place
  | slot (addr : Nat)
  | value
  deriving DecidableEq

/-- `UpVal`; while it is open, its links are where its value goes. -/
structure UpVal (V : Type) where
  v : Place
  value : V

/-- What `openupval` and the upvalues point to. -/
abbrev Cell := Lib.BackLinks.Cell Unit Nat

/-- `Thread`; `size` is the distance of `stack_last`, `count` is how many upvalues there ever were. -/
structure Thread (V : Type) where
  stack : Nat
  size : Nat
  top : Nat
  tbclist : Nat
  mem : Nat → StackValue V
  links : Links Unit Nat
  upval : Nat → Option (UpVal V)
  count : Nat

variable {V : Type}

namespace Thread

/-- `Thread::new`, with the stack at an address, where the memory is `fresh` before. -/
def new (nil : V) (stack : Nat) (fresh : Nat → StackValue V) : Thread V where
  stack := stack
  size := 2 * 20
  top := stack + 1
  tbclist := stack
  mem a := { fresh a with val := nil }
  links := ⟨fun _ => none, fun _ => none⟩
  upval _ := none
  count := 0

variable (th : Thread V)

/-- The slot an open upvalue points to. -/
def addr (u : Nat) : Option Nat :=
  match th.upval u with
  | some ⟨.slot a, _⟩ => some a
  | _ => none

def newupval (nil : V) (level : Nat) (prev : Cell) : Thread V × Nat :=
  ({ th with
      links := th.links.push prev th.count
      upval := Function.update th.upval th.count (some ⟨.slot level, nil⟩)
      count := th.count + 1 }, th.count)

/-- The loop of `luaF_findupval`: the upvalue of the slot, or the cell a new one belongs into. There is no result where
the list does not end within the fuel. -/
def findLoop (level : Nat) : Nat → Cell → Option (Nat ⊕ Cell)
  | 0, _ => none
  | fuel + 1, pp =>
    match th.links.next pp with
    | none => some (.inr pp)
    | some p => do
      let a ← th.addr p
      if level ≤ a then if a = level then some (.inl p) else findLoop level fuel (.link p) else some (.inr pp)

/-- `luaF_findupval`. -/
def findupval (nil : V) (level : Nat) : Option (Thread V × Nat) :=
  (th.findLoop level (th.count + 1) (.head ())).map fun
    | .inl p => (th, p)
    | .inr pp => th.newupval nil level pp

/-- `luaF_unlinkupval`. -/
def unlinkupval (u : Nat) : Option (Thread V) :=
  (th.links.back u).map fun n => { th with links := th.links.unlink u n }

/-- `luaF_closeupval`. -/
def closeupval (level : Nat) : Nat → Thread V → Option (Thread V)
  | 0, _ => none
  | fuel + 1, th =>
    match th.links.next (.head ()) with
    | none => some th
    | some u => do
      let a ← th.addr u
      if level ≤ a then do
        let th' ← th.unlinkupval u
        closeupval level fuel { th' with upval := Function.update th'.upval u (some ⟨.value, (th.mem a).val⟩) }
      else some th

/-- The part of `Gc::free` for an upvalue. -/
def freeupval (u : Nat) : Option (Thread V) := do
  let uv ← th.upval u
  let th' ← (if uv.v = .value then some th else th.unlinkupval u)
  some { th' with upval := Function.update th'.upval u none }

/-- The loops of `relstack` and `correctstack`. -/
def relocate (f : Nat → Nat) : Nat → Cell → Thread V → Option (Thread V)
  | 0, _, _ => none
  | fuel + 1, up, th =>
    match th.links.next up with
    | none => some th
    | some u =>
      match th.upval u with
      | some ⟨.slot a, w⟩ =>
        relocate f fuel (.link u) { th with upval := Function.update th.upval u (some ⟨.slot (f a), w⟩) }
      | _ => none

def relstack : Option (Thread V) :=
  relocate (· - th.stack) (th.count + 1) (.head ())
    { th with top := th.top - th.stack, tbclist := th.tbclist - th.stack }

def correctstack : Option (Thread V) :=
  relocate (th.stack + ·) (th.count + 1) (.head ())
    { th with top := th.stack + th.top, tbclist := th.stack + th.tbclist }

/-- `realloc` to the address `new`, where the memory is `fresh` before; the new space is filled with nil. -/
def moved (nil : V) (new newsize : Nat) (fresh : Nat → StackValue V) (a : Nat) : StackValue V :=
  if new ≤ a ∧ a < new + (min th.size newsize + 5) then th.mem (th.stack + (a - new))
  else if new ≤ a ∧ a < new + (newsize + 5) then { fresh a with val := nil }
  else fresh a

/-- `luaD_reallocstack`. -/
def reallocstack (nil : V) (new newsize : Nat) (fresh : Nat → StackValue V) : Option (Thread V) := do
  let th' ← th.relstack
  let th' ← { th' with stack := new, mem := th.moved nil new newsize fresh }.correctstack
  some { th' with size := newsize }

/-- A value written to an address. -/
def store (a : Nat) (v : V) : Thread V :=
  { th with mem := Function.update th.mem a { th.mem a with val := v } }

/-- The value an upvalue stands for. -/
def getUpval (u : Nat) : Option V :=
  (th.upval u).map fun uv =>
    match uv.v with
    | .slot a => (th.mem a).val
    | .value => uv.value

/-- A value written through an upvalue. -/
def setUpval (u : Nat) (v : V) : Option (Thread V) :=
  (th.upval u).map fun uv =>
    match uv.v with
    | .slot a => th.store a v
    | .value => { th with upval := Function.update th.upval u (some { uv with value := v }) }

end Thread

/-- The operations; slots are numbered from the start of the stack. -/
inductive Op (V : Type)
  | find (k : Nat)
  | close (k : Nat)
  | free (u : Nat)
  | realloc (new newsize : Nat) (fresh : Nat → StackValue V)
  | setSlot (k : Nat) (v : V)
  | setUpval (u : Nat) (v : V)

/-- One operation, and the upvalue it returns. -/
def Thread.step (nil : V) (th : Thread V) : Op V → Option (Thread V × Option Nat)
  | .find k => (th.findupval nil (th.stack + k)).map fun r => (r.1, some r.2)
  | .close k => (closeupval (th.stack + k) (th.count + 1) th).map fun th => (th, none)
  | .free u => (th.freeupval u).map fun th => (th, none)
  | .realloc new newsize fresh => (th.reallocstack nil new newsize fresh).map fun th => (th, none)
  | .setSlot k v => some (th.store (th.stack + k) v, none)
  | .setUpval u v => (th.setUpval u v).map fun th => (th, none)

/-- A run of operations, and the upvalues returned. -/
def Thread.run (nil : V) (th : Thread V) : List (Op V) → Option (Thread V × List (Option Nat))
  | [] => some (th, [])
  | op :: ops => do
    let (th, r) ← th.step nil op
    let (th, rs) ← th.run nil ops
    some (th, r :: rs)

end Tsuki.Func
