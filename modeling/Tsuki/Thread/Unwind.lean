import Mathlib.Data.List.Basic
import Mathlib.Logic.Function.Basic

/-!
# Calls that fail

What a function does to the call infos, the open upvalues and the variables to close, and how `luaD_call` unwinds it. A
function is a tree of what it does next; it ends, or fails anywhere.
-/

namespace Tsuki.Unwind

variable {E H V : Type}

/-- What a function does, in registers of its frame, where `top` is the top at that point: `closeTo` is `OP_CLOSE`,
`call` a call whose errors pass through the frame, and `pcall` a call through `luaD_call`, by a metamethod or by a Rust
function, whose error the caller passes on or handles. -/
inductive Act (E H V : Type)
  | done (top : Nat)
  | fail (e : E) (top : Nat)
  | write (i : Nat) (v : V) (next : Act E H V)
  /-- a write through an upvalue, or an explicit one, to any slot -/
  | poke (slot : Nat) (v : V) (next : Act E H V)
  | heap (h : H) (next : Act E H V)
  | capture (i : Nat) (next : Act E H V)
  | tbc (i : Nat) (next : Act E H V)
  | closeTo (i top : Nat) (next : Act E H V)
  | call (i : Nat) (body next : Act E H V)
  | pcall (i : Nat) (body : Act E H V) (next : Option E → Act E H V)

/-- The thread: the slots of the functions that run, the top, the open upvalues and the variables to close,
both from the highest slot down, and the slots that were written from outside of their frame. -/
structure Thread (H V : Type) where
  ci : List Nat
  top : Nat
  openupval : List Nat
  tbclist : List Nat
  slots : Nat → V
  poked : List Nat
  heap : H

/-- The place of a new upvalue in `luaF_findupval`. -/
def findupval (slot : Nat) : List Nat → List Nat
  | [] => [slot]
  | u :: l => if slot < u then u :: findupval slot l else if u = slot then u :: l else slot :: u :: l

/-- A call of `__close`: the variable, its value and the error of the method. -/
structure Closed (E V : Type) where
  slot : Nat
  value : V
  error : Option E

/-- The result of a part of a run: the thread, an error, and the methods that it called. -/
abbrev Result (E H V : Type) := Option (Thread H V × Option E × List (Closed E V))

/-- A part of a run: a function with its base, `luaF_close` and its loop,
`luaD_closeprotected`, and `luaD_call`. -/
inductive Job (E H V : Type)
  | act (base : Nat) (a : Act E H V)
  | close (level : Nat)
  | closeLoop (level : Nat)
  | closeprotected (level : Nat) (ci : List Nat) (status : Option E)
  | call (func : Nat) (body : Act E H V)

variable (nil : V) (tm : H → V → V × Act E H V)

/-- A run of a number of steps, where `tm` is the `__close` metamethod of a value, with what it does. The frame does not
write the register of a variable to close; the top, and a call, are above the variables of the frame. -/
def run : Nat → Job E H V → Thread H V → Result E H V
  | 0, _, _ => none
  | n + 1, .act base a, th =>
    match a with
    | .done k =>
      if ∀ t ∈ th.tbclist, t < base + k then
        match run n (.close base) { th with top := base + k } with
        | some (th, none, _) => some ({ th with ci := th.ci.tail }, none, [])
        | r => r
      else none
    | .fail e k =>
      if ∀ t ∈ th.tbclist, t < base + k then some ({ th with top := base + k }, some e, []) else none
    | .write i v next =>
      if base + i ∉ th.tbclist then
        run n (.act base next) { th with slots := Function.update th.slots (base + i) v }
      else none
    | .poke slot v next =>
      run n (.act base next) { th with slots := Function.update th.slots slot v, poked := slot :: th.poked }
    | .heap h next => run n (.act base next) { th with heap := h }
    | .capture i next => run n (.act base next) { th with openupval := findupval (base + i) th.openupval }
    | .tbc i next =>
      if ∀ t ∈ th.tbclist, t < base + i then
        run n (.act base next) { th with tbclist := (base + i) :: th.tbclist }
      else none
    | .closeTo i k next =>
      if i ≤ k ∧ ∀ t ∈ th.tbclist, t < base + k then
        match run n (.close (base + i)) { th with top := base + k } with
        | some (th, none, _) => run n (.act base next) th
        | r => r
      else none
    | .call i body next =>
      if (∀ t ∈ th.tbclist, t < base + i) ∧ ∀ u ∈ th.openupval, u < base + i then
        match run n (.act (base + i + 1) body) { th with ci := (base + i) :: th.ci } with
        | some (th, none, _) => run n (.act base next) th
        | r => r
      else none
    | .pcall i body next =>
      if (∀ t ∈ th.tbclist, t < base + i) ∧ ∀ u ∈ th.openupval, u < base + i then
        match run n (.call (base + i) body) th with
        | some (th, e, _) => run n (.act base (next e)) th
        | none => none
      else none
  | n + 1, .close level, th =>
    run n (.closeLoop level) { th with openupval := th.openupval.dropWhile fun u => level ≤ u }
  | n + 1, .closeLoop level, th =>
    match th.tbclist with
    | [] => some (th, none, [])
    | t :: l =>
      if level ≤ t then
        let value := th.slots t
        let (f, body) := tm th.heap value
        let top := th.top
        let slots := Function.update (Function.update (Function.update th.slots top f) (top + 1) value) (top + 2) nil
        match run n (.call top body) { th with tbclist := l, slots := slots, top := top + 3 } with
        | some (th, some e, _) => some (th, some e, [⟨t, value, some e⟩])
        | some (th, none, _) =>
          match run n (.closeLoop level) { th with top := top } with
          | some (th, e, cs) => some (th, e, ⟨t, value, none⟩ :: cs)
          | none => none
        | none => none
      else some (th, none, [])
  | n + 1, .closeprotected level ci status, th =>
    match run n (.close level) th with
    | some (th, none, cs) => some (th, status, cs)
    | some (th, some e, cs) =>
      match run n (.closeprotected level ci (some e)) { th with ci := ci } with
      | some (th, r, cs') => some (th, r, cs ++ cs')
      | none => none
    | none => none
  | n + 1, .call func body, th =>
    match run n (.act (func + 1) body) { th with ci := func :: th.ci } with
    | some (th', none, _) => some ({ th' with top := func }, none, [])
    | some (th', some e, _) =>
      match run n (.closeprotected func th.ci (some e)) { th' with ci := th.ci } with
      | some (th', r, cs) => some ({ th' with top := func }, r, cs)
      | none => none
    | none => none

end Tsuki.Unwind
