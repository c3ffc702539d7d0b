import Tsuki.Thread.Stack

/-!
# The context of a Rust function

A Rust function gets its arguments on the stack and pushes its results above them, while a counter says how many of the
values on top are results. The stack is a block of memory that moves; a pointer into it is an address.
-/

namespace Tsuki.Results

open Coroutine (Arity adjust put slice moveresults)

variable {V : Type}

/-- `CallInfo`: the slot of the function, the limit of the slots and the number of results that the caller wants. -/
structure CallInfo where
  func : Nat
  top : Nat
  nresults : Arity

/-- The memory of a thread. The block of the stack is at the address `stack` and has `size` slots below `stack_last`, and
five more; `top` is an address. -/
structure Thread (V : Type) where
  stack : Nat
  size : Nat
  top : Nat
  mem : Nat → V
  ci : CallInfo
  previous : List CallInfo

/-- What the allocator answers: where the new block is, and what is in the memory besides it. -/
structure Block (V : Type) where
  addr : Nat
  rest : Nat → V

/-! ## The size of the stack -/

/-- `luaD_reallocstack`: the slots of the old block are copied as far as they fit, and the others are nil. -/
def Thread.luaD_reallocstack (nil : V) (th : Thread V) (newsize : Nat) (b : Block V) : Thread V :=
  { th with
    stack := b.addr
    size := newsize
    top := b.addr + (th.top - th.stack)
    mem := fun a =>
      if b.addr ≤ a ∧ a < b.addr + (newsize + 5) then
        if a - b.addr < th.size + 5 then th.mem (th.stack + (a - b.addr)) else nil
      else b.rest a }

/-- `luaD_growstack`, none for a stack overflow. -/
def Thread.luaD_growstack (nil : V) (th : Thread V) (n : Nat) (b : Block V) : Option (Thread V) :=
  if 1000000 < th.size then none
  else if n < 1000000 then
    let needed := th.top - th.stack + n
    let newsize := max (min (2 * th.size) 1000000) needed
    if newsize ≤ 1000000 then some (th.luaD_reallocstack nil newsize b) else none
  else none

def stackinuse (cis : List CallInfo) : Nat :=
  max ((cis.map CallInfo.top).foldr max 0 + 1) 20

/-- `luaD_shrinkstack`, where the frames of a callee are on top of those of the thread. -/
def Thread.luaD_shrinkstack (nil : V) (th : Thread V) (callee : List CallInfo) (b : Block V) : Thread V :=
  let inuse := stackinuse (callee ++ th.ci :: th.previous)
  let limit := if 1000000 / 3 < inuse then 1000000 else inuse * 3
  if inuse ≤ 1000000 ∧ limit < th.size then
    th.luaD_reallocstack nil (if 1000000 / 2 < inuse then 1000000 else inuse * 2) b
  else th

def Thread.lua_checkstack (nil : V) (th : Thread V) (need reserve : Nat) (b : Block V) : Option (Thread V) :=
  if th.top + need ≤ th.stack + th.ci.top then some th
  else
    let n := max need reserve
    let grown := if th.stack + th.size - th.top ≤ n then th.luaD_growstack nil n b else some th
    grown.map fun th => { th with ci := { th.ci with top := th.top + n - th.stack } }

/-- `top.write`, `top.add(1)` -/
def Thread.push (th : Thread V) (v : V) : Thread V :=
  { th with mem := Function.update th.mem th.top v, top := th.top + 1 }

def Thread.pushAll (th : Thread V) : List V → Thread V
  | [] => th
  | v :: vs => (th.push v).pushAll vs

/-- `gc.step()`: the collector may shrink the stack. -/
def Thread.gcStep (nil : V) (th : Thread V) : Option (Block V) → Thread V
  | none => th
  | some b => th.luaD_shrinkstack nil [] b

/-! ## Calls -/

/-- How a callee moves the stack. -/
inductive Move (V : Type)
  | grow (more : Nat) (b : Block V)
  | shrink (callee : List CallInfo) (b : Block V)

/-- What a callee does: it moves the stack, and from the slot of its function on it leaves values and its results, or it
fails. It has made room for what it leaves. -/
structure Callee (V : Type) where
  moves : List (Move V)
  room : Block V
  left : List V
  results : Option (List V)

def Thread.move (nil : V) (th : Thread V) : Move V → Thread V
  | .grow more b => th.luaD_reallocstack nil (th.size + more) b
  | .shrink callee b => th.luaD_shrinkstack nil callee b

/-- The slots that the callee uses. -/
def Callee.leaves (r : Callee V) : List V := r.left ++ r.results.getD []

/-- The call of a callee at a slot, up to its return. -/
def Thread.invoke (nil : V) (th : Thread V) (func : Nat) (r : Callee V) : Thread V :=
  let th := r.moves.foldl (Thread.move nil) th
  let th := if th.size < func + r.leaves.length then
    th.luaD_reallocstack nil (func + r.leaves.length) r.room else th
  { th with mem := put th.mem (th.stack + func) r.leaves, top := th.stack + func + r.leaves.length }

/-- `luaD_call`: whether the call returned. The slot of the function is kept, not its address. -/
def Thread.luaD_call (nil : V) (th : Thread V) (func : Nat) (nresults : Arity) (r : Callee V) : Thread V × Bool :=
  let oldTop := func - th.stack
  let th := th.invoke nil oldTop r
  match r.results with
  | none => ({ th with top := th.stack + oldTop }, false)
  | some vs =>
    let (mem, top) := moveresults nil th.mem th.top (th.stack + oldTop) vs.length nresults
    let l := top - th.stack
    let limit := if nresults = none ∧ th.ci.top < l then l else th.ci.top
    ({ th with mem := mem, top := top, ci := { th.ci with top := limit } }, true)

/-- What an operation answers: values, a stack overflow, or another error. -/
inductive Answer (V : Type)
  | ok (vs : List V)
  | overflow
  | error

/-- `luaT_callTM` (no result) and `luaT_callTMres` (one): the metamethod and its operands go on the extra stack. -/
def Thread.callTM (nil : V) (th : Thread V) (vs : List V) (wanted : Nat) (r : Callee V) : Thread V × Answer V :=
  let func := th.top
  match (th.pushAll vs).luaD_call nil func (some wanted) r with
  | (th, false) => (th, .error)
  | (th, true) =>
    let th := { th with top := th.top - wanted }
    (th, .ok (slice th.mem th.top wanted))

/-- An operation on values: it has its result or error at once, or it calls a metamethod with operands. -/
inductive Nested (V : Type)
  | value (vs : List V)
  | error
  | tm (f : V) (operands : List V) (wanted : Nat) (r : Callee V)

def Thread.nested (nil : V) (th : Thread V) : Nested V → Thread V × Answer V
  | .value vs => (th, .ok vs)
  | .error => (th, .error)
  | .tm f operands wanted r => th.callTM nil (f :: operands) wanted r

def Thread.call (nil : V) (th : Thread V) (n : Arity) (f : V) (args : List V) (r : Callee V) (b : Block V) :
    Thread V × Answer V :=
  let ot := th.top - th.stack
  match th.lua_checkstack nil (1 + args.length) 0 b with
  | none => (th, .overflow)
  | some th =>
    let th := (th.push f).pushAll args
    match th.luaD_call nil (th.top - (args.length + 1)) n r with
    | (th, false) => (th, .error)
    | (th, true) =>
      match n with
      | none =>
        let v := th.top - (th.stack + ot)
        ({ th with top := th.stack + ot }, .ok (slice th.mem (th.stack + ot) v))
      | some 0 => (th, .ok [])
      | some v => ({ th with top := th.top - v }, .ok (slice th.mem (th.top - v) v))

/-! ## `Context` -/

/-- `Args` or `Ret` -/
inductive Variant
  | args
  | ret
  deriving DecidableEq

/-- `Context`: the counter of results, and the payload: the number of arguments, or of values below the results. -/
structure Context (V : Type) where
  th : Thread V
  ret : Nat
  payload : Nat
  variant : Variant

/-- What a function does with its context. -/
inductive Op (V : Type)
  /-- `push`, `push_unchecked`, `push_str`, `push_bytes`, `push_from_table` and `push_from_str_key` -/
  | push (v : V) (b : Block V) (gc : Option (Block V))
  /-- `push_next`: the next pair, if there is one, unless the key is not found -/
  | pushNext (pair : Option (Option (V × V))) (b : Block V)
  /-- `push_add`, `push_sub`, `push_rem`, `push_pow` and `push_neg` -/
  | pushArith (r : Nested V) (b : Block V)
  /-- operations that push nothing: index, set, length, comparisons -/
  | nested (r : Nested V)
  | call (n : Arity) (f : V) (args : List V) (r : Callee V) (b : Block V)
  | reserve (additional : Nat) (b : Block V)
  /-- creation of objects -/
  | gc (b : Option (Block V))
  | arg (n : Nat)
  | into
  | intoResults (i : Int)
  | forward (f : Int) (r : Callee V)
  | insert (i : Nat) (v : V) (b : Block V)
  | pop
  | truncate (len : Nat)

/-- A stack index, where a negative one counts from the top. -/
def index (i : Int) (top : Nat) : Option Nat :=
  if i = 0 then none
  else if 0 < i then some i.toNat
  else
    match top - i.natAbs with
    | 0 => none
    | v => some v

/-- The loop of `insert`: `n` slots from `src` on move up by one. -/
def shift (s : Nat → V) (src : Nat) : Nat → Nat → V
  | 0 => s
  | n + 1 => shift (Function.update s (src + 1 + n) (s (src + n))) src n

/-- The slots of the frame, with that of the function. -/
def Context.depth (c : Context V) : Nat := c.th.top - (c.th.stack + c.th.ci.func)

/-- `push` after the value is known. -/
def Context.append (nil : V) (c : Context V) (v : V) (b : Block V) : Context V × Answer V :=
  match c.th.lua_checkstack nil 1 5 b with
  | none => (c, .overflow)
  | some th => ({ c with th := th.push v, ret := c.ret + 1 }, .ok [])

def Context.forward (nil : V) (c : Context V) (f : Int) (r : Callee V) : Option (Context V × Answer V) :=
  match index f c.depth with
  | none => none
  | some f =>
    if f ≥ c.depth then none
    else
      let rem := f - 1
      match c.th.luaD_call nil (c.th.stack + (c.th.ci.func + f)) none r with
      | (th, false) => some (⟨th, 0, rem, .ret⟩, .error)
      | (th, true) => some (⟨th, th.top - (th.stack + (th.ci.func + rem + 1)), rem, .ret⟩, .ok [])

def Context.intoResults (c : Context V) (i : Int) : Option (Context V × Answer V) :=
  match index i c.depth with
  | none => none
  | some off => if off ≤ c.depth then some (⟨c.th, c.depth - off, off - 1, .ret⟩, .ok []) else none

def Context.insert (nil : V) (c : Context V) (i : Nat) (v : V) (b : Block V) : Option (Context V × Answer V) :=
  if i = 0 then none
  else if i ≤ c.payload then none
  else
    match c.th.lua_checkstack nil 1 5 b with
    | none => some (c, .overflow)
    | some th =>
      let top := th.top - (th.stack + th.ci.func)
      if top < i then none
      else
        let src := th.stack + (th.ci.func + i)
        let mem := Function.update (shift th.mem src (top - i)) src v
        some ({ c with th := { th with mem := mem, top := th.top + 1 }, ret := c.ret + 1 }, .ok [])

/-- One operation; none is a panic, or what the variant does not have. -/
def Context.step (nil : V) (c : Context V) : Op V → Option (Context V × Answer V)
  | .push v b gc =>
    match c.append nil v b with
    | (c, .ok vs) => some ({ c with th := c.th.gcStep nil gc }, .ok vs)
    | (c, a) => some (c, a)
  | .pushNext pair b =>
    match c.th.lua_checkstack nil 2 5 b with
    | none => some (c, .overflow)
    | some th =>
      match pair with
      | none => some ({ c with th := th }, .error)
      | some none => some ({ c with th := th }, .ok [])
      | some (some (k, v)) => some ({ c with th := (th.push k).push v, ret := c.ret + 2 }, .ok [k, v])
  | .pushArith r b =>
    match c.th.nested nil r with
    | (th, .ok vs) => some (Context.append nil { c with th := th } (vs.headD nil) b)
    | (th, a) => some ({ c with th := th }, a)
  | .nested r =>
    let (th, a) := c.th.nested nil r
    some ({ c with th := th }, a)
  | .call n f args r b =>
    let (th, a) := c.th.call nil n f args r b
    some ({ c with th := th }, a)
  | .reserve additional b =>
    match c.th.lua_checkstack nil additional 0 b with
    | none => some (c, .overflow)
    | some th => some ({ c with th := th }, .ok [])
  | .gc b => some ({ c with th := c.th.gcStep nil b }, .ok [])
  | .arg n =>
    if n = 0 ∨ c.variant = .ret then none
    else some (c, .ok (if n > c.payload then [] else [c.th.mem (c.th.stack + (c.th.ci.func + n))]))
  | .into => if c.variant = .args then some ({ c with variant := .ret }, .ok []) else none
  | .intoResults i => c.intoResults i
  | .forward f r => c.forward nil f r
  | .insert i v b => if c.variant = .ret then c.insert nil i v b else none
  | .pop =>
    if c.variant = .ret ∧ 0 < c.ret then
      some ({ c with th := { c.th with top := c.th.top - 1 }, ret := c.ret - 1 }, .ok [])
    else none
  | .truncate len =>
    if c.variant = .ret then
      if len ≤ c.ret then
        some ({ c with th := { c.th with top := c.th.top - (c.ret - len) }, ret := len }, .ok [])
      else some (c, .ok [])
    else none

/-- A run, with the answers. -/
def Context.run (nil : V) (c : Context V) : List (Op V) → Option (Context V × List (Answer V))
  | [] => some (c, [])
  | op :: ops =>
    match c.step nil op with
    | none => none
    | some (c, a) =>
      match c.run nil ops with
      | none => none
      | some (c, as) => some (c, a :: as)

/-- `call_fp` up to the call of the function, which is at the slot `fo`. -/
def Thread.enter (nil : V) (th : Thread V) (fo : Nat) (nresults : Arity) (b : Block V) : Option (Context V) :=
  let grown := if th.stack + th.size < th.top then th.luaD_growstack nil 20 b else some th
  grown.map fun th =>
    let top := th.top - th.stack
    ⟨{ th with ci := ⟨fo, top, nresults⟩, previous := th.ci :: th.previous }, 0, top - fo - 1, .args⟩

/-- `luaD_poscall` with the results of the context. -/
def Context.poscall (nil : V) (c : Context V) : Thread V :=
  let th := c.th
  let (mem, top) := moveresults nil th.mem th.top (th.stack + th.ci.func) c.ret th.ci.nresults
  { th with mem := mem, top := top, ci := th.previous.headD th.ci, previous := th.previous.tail }

end Tsuki.Results
