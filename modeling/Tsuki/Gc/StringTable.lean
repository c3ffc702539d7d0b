import Tsuki.Gc.Refs
import Tsuki.Rust

/-!
# The string table

`StringTable` and what creates and frees strings. A cycle of the collector is what it can do to a string: mark it, and
sweep it once the whites have changed places.
-/

namespace Tsuki.Strings

open Refs (State Color Stop)

def shortLen : Nat := 40

def luaSHash (str : Bytes) (seed : UInt32) : UInt32 :=
  str.reverse.foldl (fun h b => h ^^^ ((h <<< 5) + (h >>> 2) + b.toUInt32)) (seed ^^^ UInt32.ofNat str.length)

/-- `struct Str`. -/
structure Str where
  bytes : Bytes
  hash : UInt32
  hnext : Option Nat
  color : Color

def Str.isShort (s : Str) : Bool := s.bytes.length ≤ shortLen

/-- The string table and the strings; `hash` has `size` entries, and `count` is how many strings ever were. -/
structure Lua where
  hash : Nat → Option Nat
  nuse : Nat
  size : Nat
  seed : UInt32
  state : State
  currentwhite : Bool
  str : Nat → Option Str
  count : Nat

def new (seed : UInt32) : Lua := ⟨fun _ => none, 0, 128, seed, .idle, false, fun _ => none, 0⟩

variable (g : Lua)

def Lua.isDead (s : Str) : Prop := s.color = .white !g.currentwhite

instance (s : Str) : Decidable (g.isDead s) := inferInstanceAs (Decidable (_ = _))

/-! ## Memory -/

def Lua.load (o : Nat) : Except Stop Str :=
  match g.str o with
  | some s => .ok s
  | none => .error .stale

def Lua.modify (o : Nat) (f : Str → Str) : Except Stop Lua :=
  match g.str o with
  | some s => .ok { g with str := Function.update g.str o (some (f s)) }
  | none => .error .stale

/-- A cell of the table, or `hnext` of a string. -/
abbrev Cell := Lib.BackLinks.Cell Nat Nat

def Lua.read (c : Cell) : Except Stop (Option Nat) :=
  match c with
  | .head i => .ok (g.hash i)
  | .link o => do
    let s ← g.load o
    .ok s.hnext

def Lua.write (c : Cell) (p : Option Nat) : Except Stop Lua :=
  match c with
  | .head i => .ok { g with hash := Function.update g.hash i p }
  | .link o => g.modify o fun s => { s with hnext := p }

/-! ## The table -/

def entry (size : Nat) (h : UInt32) : Nat := h.toNat &&& (size - 1)

/-- The search of `insert` from `p` on, for at most `n` strings. -/
def Lua.find (str : Bytes) : Nat → Option Nat → Except Stop (Option Nat)
  | _, none => .ok none
  | 0, some _ => .error .endless
  | n + 1, some p => do
    let s ← g.load p
    if s.bytes = str then .ok (some p) else Lua.find str n s.hnext

/-- "Rehash all items", the list of one entry from `p` on. -/
def Lua.rehashList (nsize : Nat) : Nat → Lua → Option Nat → Except Stop Lua
  | _, g, none => .ok g
  | 0, _, some _ => .error .endless
  | n + 1, g, some p => do
    let s ← g.load p
    let h := entry nsize s.hash
    let g ← g.write (.link p) (g.hash h)
    let g ← g.write (.head h) (some p)
    Lua.rehashList nsize n g s.hnext

/-- "Rehash all items", the entries from `i` on, `k` of them. -/
def Lua.rehashFrom (nsize : Nat) : Nat → Nat → Lua → Except Stop Lua
  | 0, _, g => .ok g
  | k + 1, i, g => do
    let p := g.hash i
    let g ← g.write (.head i) none
    let g ← g.rehashList nsize g.count p
    Lua.rehashFrom nsize k (i + 1) g

def Lua.rehash (osize nsize : Nat) : Except Stop Lua :=
  Lua.rehashFrom nsize osize 0
    { g with hash := fun i => if osize ≤ i ∧ i < nsize then none else g.hash i }

def Lua.resize (nsize : Nat) : Except Stop Lua := do
  let osize := g.size
  let g ← if nsize < osize then g.rehash osize nsize else .ok g
  if isizeMax < nsize * 8 then .error .memory
  else
    let g := { g with size := nsize }
    if nsize > osize then g.rehash osize nsize else .ok g

/-- `StringTable::insert`: the string that is there, or the entry for a new one. -/
def Lua.insert (h : UInt32) (str : Bytes) : Except Stop (Lua × Except Nat Nat) := do
  let e := entry g.size h
  let found ← g.find str g.count (g.hash e)
  match found with
  | some s => .ok (g, .ok s)
  | none => do
    let g ← if g.nuse ≥ g.size then g.resize (g.size * 2) else .ok g
    .ok ({ g with nuse := g.nuse + 1 }, .error (entry g.size h))

/-- The walk of `remove` to the cell that points to `s`, from the cell `e` on. -/
def Lua.seek (s : Nat) : Nat → Cell → Except Stop Cell
  | 0, _ => .error .endless
  | n + 1, e => do
    let p ← g.read e
    match p with
    | none => .error .stale
    | some p => if p = s then .ok e else Lua.seek s n (.link p)

def Lua.remove (s : Nat) : Except Stop Lua := do
  let str ← g.load s
  let e ← g.seek s (g.count + 1) (.head (entry g.size str.hash))
  let g ← g.write e str.hnext
  if g.nuse = 0 then .error .underflow else .ok { g with nuse := g.nuse - 1 }

/-! ## Strings -/

/-- `Str::alloc` and what is written to the string at once. -/
def Lua.alloc (s : Str) : Lua :=
  { g with str := Function.update g.str g.count (some s), count := g.count + 1 }

def Lua.resurrect (o : Nat) : Except Stop Lua :=
  g.modify o fun s => if g.isDead s then { s with color := .white g.currentwhite } else s

/-- `Str::new`. -/
def Lua.newStr (str : Bytes) : Except Stop (Lua × Nat) :=
  if str.length > shortLen then .ok (g.alloc ⟨str, g.seed, none, .white g.currentwhite⟩, g.count)
  else do
    let h := luaSHash str g.seed
    let (g, r) ← g.insert h str
    match r with
    | .ok v => do
      let g ← g.resurrect v
      .ok (g, v)
    | .error e =>
      let v := g.count
      let g := g.alloc ⟨str, h, g.hash e, .white g.currentwhite⟩
      .ok ({ g with hash := Function.update g.hash e (some v) }, v)

/-- `Gc::free` of a string, with `Str::drop`. -/
def Lua.free (o : Nat) : Except Stop Lua := do
  let s ← g.load o
  let g ← if s.isShort then g.remove o else .ok g
  .ok { g with str := Function.update g.str o none }

/-! ## Programs -/

/-- The creation of a string or a part of a step of the collector: it marks a string, sweeps one, or goes to its next
state. -/
inductive Act
  | newStr (str : Bytes)
  | mark (o : Nat)
  | sweep (o : Nat)
  | next

/-- The collector marks and sweeps what is there, in the states for it. -/
def Lua.Allows : Act → Prop
  | .newStr _ | .next => True
  | .mark o => (g.str o).isSome ∧ (g.state = .mark ∨ g.state = .atomic)
  | .sweep o => (g.str o).isSome ∧ g.state = .sweep

/-- The state after an action, and the string that was created or found. -/
def Lua.exec : Act → Except Stop (Lua × Option Nat)
  | .newStr str => do
    let (g, v) ← g.newStr str
    .ok (g, some v)
  | .mark o => do
    let g ← g.modify o fun s => { s with color := .marked }
    .ok (g, none)
  | .sweep o => do
    let s ← g.load o
    let g ← if g.isDead s then g.free o else g.modify o fun s => { s with color := .white g.currentwhite }
    .ok (g, none)
  | .next =>
    match g.state with
    | .idle => .ok ({ g with state := .mark }, none)
    | .mark => .ok ({ g with state := .atomic }, none)
    | .atomic => .ok ({ g with state := .sweep, currentwhite := !g.currentwhite }, none)
    | .sweep => .ok ({ g with state := .idle }, none)

/-- The states that a program comes to. -/
inductive Lua.Reached : Lua → Prop
  | new (seed : UInt32) : Reached (new seed)
  | exec {g g' : Lua} {a : Act} {v : Option Nat} : Reached g → g.Allows a → g.exec a = .ok (g', v) → Reached g'

/-- The states that a program comes to before the collector goes to its next state. -/
inductive Lua.Within : Lua → Lua → Prop
  | refl (g : Lua) : Within g g
  | exec {g g' g'' : Lua} {a : Act} {v : Option Nat} : Within g g' → a ≠ .next → g'.Allows a → g'.exec a = .ok (g'', v) →
      Within g g''

end Tsuki.Strings
