import Tsuki.Thread.Stack

/-!
# Calls, tail calls and returns

Where a call puts the arguments and a return the results. Slots are numbered from the start of the stack, as the code
saves and restores its pointers when the stack moves. What a function does between calls is a parameter: the values it
leaves in its registers for the next call or return, and what it does to the variables that are shared through upvalues,
chosen from all it has seen. An open upvalue is the slot of a variable in a frame, so a return or tail call that gives up
the slots of the frame closes it first.
-/

namespace Tsuki.Calls

open Coroutine (Arity adjust put slice copy moveresults)

variable {σ V : Type}

/-! ## Functions -/

/-- What calls leave behind: the heap, and the variables that functions share. -/
structure World (σ V : Type) where
  heap : σ
  vars : Nat → V
  nvars : Nat

/-- What a function does to shared variables: `OP_SETUPVAL`, a value for a register that a closure captures, and
`OP_CLOSE`. -/
inductive Act (V : Type)
  | setupval (u : Nat) (v : V)
  | capture (r : Nat) (v : V)
  | close (r : Nat)

/-- The captured registers are below. -/
def Act.bound (k : Nat) : Act V → Nat
  | .setupval _ _ => k
  | .capture r _ => max k (r + 1)
  | .close r => min k r

def bound (k : Nat) (as : List (Act V)) : Nat := as.foldl Act.bound k

/-- What `Proto` says of the frame, and whether the function has variables to close. -/
structure Proto where
  numparams : Nat
  is_vararg : Bool
  maxstacksize : Nat
  needclose : Bool

/-- What a Lua function with captured registers below `k` does up to the next call or return, with the heap it leaves.
A function and its arguments are above the captured registers. Values of a return are in registers, or up to the top if
`opened`; the variables to close are pairs of a method and an object. -/
inductive Code (σ V : Type) (p : Proto) : Nat → Type
  | ret {k : Nat} (acts : List (Act V)) (heap : σ) (ra : Nat) (vs : List V) (opened : Bool) (closing : List (V × V))
    (fits : opened = true ∨ ra + vs.length ≤ p.maxstacksize)
    (close : p.needclose = true ∨ closing = [] ∧ bound k acts = 0) : Code σ V p k
  | call {k : Nat} (acts : List (Act V)) (heap : σ) (ra : Nat) (f : V) (args : List V) (wanted : Arity)
    (above : bound k acts ≤ ra) (next : World σ V → List V → List V → Code σ V p (bound k acts)) : Code σ V p k
  | tailcall {k : Nat} (acts : List (Act V)) (heap : σ) (ra : Nat) (f : V) (args : List V) (above : bound k acts ≤ ra)
    (close : p.needclose = true ∨ bound k acts = 0) : Code σ V p k

/-- What a Rust function does: its results are on top of the values it leaves. -/
inductive RustCode (σ V : Type)
  | ret (heap : σ) (left vs : List V)
  | call (heap : σ) (ra : Nat) (f : V) (args : List V) (wanted : Arity) (next : World σ V → List V → RustCode σ V)

/-- A value that is called: a Lua function, with what it does for its parameters and extra arguments, a Rust function,
or a value with a `__call` metamethod or without. -/
inductive Kind (σ V : Type)
  | lua (p : Proto) (body : World σ V → List V → List V → Code σ V p 0)
  | rust (body : World σ V → List V → RustCode σ V)
  | other (tm : Option V)

/-! ## Results -/

inductive Fail
  | overflow
  | error
  | panic

/-- How a call ends, none if it needs more steps. -/
abbrev Out (α : Type) := Option (Except Fail α)

def Out.bind {α β : Type} (x : Out α) (f : α → Out β) : Out β :=
  match x with
  | none => none
  | some (.error e) => some (.error e)
  | some (.ok a) => f a

/-! ## The stack -/

/-- `UpVal`: the slot of a variable, or its value. -/
inductive UpVal (V : Type)
  | opened (slot : Nat)
  | closed (v : V)

/-- The slots, the top, `stack_last` and the upvalues. -/
structure State (σ V : Type) where
  heap : σ
  slots : Nat → V
  top : Nat
  size : Nat
  upvals : Nat → UpVal V
  nupvals : Nat
  size_le : size ≤ 1000000

def UpVal.get (slots : Nat → V) : UpVal V → V
  | .opened s => slots s
  | .closed v => v

def State.world (st : State σ V) : World σ V := ⟨st.heap, fun u => (st.upvals u).get st.slots, st.nupvals⟩

structure CallInfo where
  func : Nat
  top : Nat
  nresults : Arity
  nextraargs : Nat

def State.luaD_growstack (st : State σ V) (n : Nat) : Out (State σ V) :=
  if 1000000 < st.size then some (.error .overflow)
  else if n < 1000000 then
    let needed := st.top + n
    let newsize := max (min (2 * st.size) 1000000) needed
    if h : newsize ≤ 1000000 then some (.ok { st with size := newsize, size_le := h }) else some (.error .overflow)
  else some (.error .overflow)

/-- `luaD_growstack` where `p`. -/
def State.growIf (st : State σ V) (p : Bool) (n : Nat) : Out (State σ V) :=
  if p then st.luaD_growstack n else some (.ok st)

def UpVal.isAt (level : Nat) : UpVal V → Bool
  | .opened s => s = level
  | .closed _ => false

/-- There is an open upvalue of the slot. -/
def State.captured (st : State σ V) (level : Nat) : Bool := (List.range st.nupvals).any fun u => (st.upvals u).isAt level

def State.luaF_findupval (st : State σ V) (level : Nat) : State σ V :=
  if st.captured level then st
  else { st with upvals := Function.update st.upvals st.nupvals (.opened level), nupvals := st.nupvals + 1 }

def State.luaF_closeupval (st : State σ V) (level : Nat) : State σ V :=
  { st with
    upvals := fun u =>
      match st.upvals u with
      | .opened s => if level ≤ s then .closed (st.slots s) else .opened s
      | uv => uv }

def State.act (st : State σ V) (base : Nat) : Act V → State σ V
  | .setupval u v =>
    match st.upvals u with
    | .opened s => { st with slots := Function.update st.slots s v }
    | .closed _ => { st with upvals := Function.update st.upvals u (.closed v) }
  | .capture r v => ({ st with slots := Function.update st.slots (base + r) v } : State σ V).luaF_findupval (base + r)
  | .close r => st.luaF_closeupval (base + r)

def State.acts (st : State σ V) (base : Nat) (as : List (Act V)) : State σ V := as.foldl (fun st a => st.act base a) st

/-- The instructions that leave values from slot `i` on, which grow the stack where it has no room for them. A register
that is captured has the value of its variable. -/
def State.eval (st : State σ V) (heap : σ) (i : Nat) (vs : List V) : Out (State σ V) :=
  (st.growIf (st.size < i + vs.length) (i + vs.length - st.top)).bind fun st =>
    some (.ok { st with heap := heap, slots := fun j => if st.captured j then st.slots j else put st.slots i vs j })

/-- The values from slot `i` on, up to the top. -/
def State.open (st : State σ V) (heap : σ) (i : Nat) (vs : List V) : Out (State σ V) :=
  (st.eval heap i vs).bind fun st => some (.ok { st with top := i + vs.length })

/-- The loop of `tryfuncTM`. -/
def shift (s : Nat → V) (func : Nat) : Nat → Nat → V
  | 0 => s
  | n + 1 => shift (Function.update s (func + n + 1) (s (func + n))) func n

/-- `tryfuncTM`, for a metamethod. -/
def State.tryfuncTM (st : State σ V) (func : Nat) (tm : V) : Out (State σ V) :=
  (st.growIf (st.size ≤ st.top + 1) 1).bind fun st =>
    some (.ok { st with
      slots := Function.update (shift st.slots func (st.top - func)) func tm
      top := st.top + 1 })

variable (nil : V)

def State.setup_lua_ci (st : State σ V) (func : Nat) (nresults : Arity) (p : Proto) : Out (State σ V × CallInfo) :=
  let narg := st.top - func - 1
  (st.growIf (st.size ≤ st.top + p.maxstacksize) p.maxstacksize).bind fun st =>
    let missing := p.numparams - narg
    some (.ok ({ st with slots := put st.slots st.top (List.replicate missing nil), top := st.top + missing },
      ⟨func, func + 1 + p.maxstacksize, nresults, 0⟩))

def State.setup_tailcall_ci (st : State σ V) (ci : CallInfo) (func narg1 delta : Nat) (p : Proto) :
    Out (State σ V × CallInfo) :=
  let room : Out (State σ V) :=
    if (st.size : Int) - st.top ≤ p.maxstacksize - delta then
      if p.maxstacksize < delta then some (.error .panic) else st.luaD_growstack (p.maxstacksize - delta)
    else some (.ok st)
  room.bind fun st =>
    let func' := ci.func - delta
    let missing := p.numparams + 1 - narg1
    some (.ok ({ st with
        slots := put (copy st.slots func' func narg1) (func' + narg1) (List.replicate missing nil)
        top := func' + narg1 + missing },
      { ci with func := func', top := func' + 1 + p.maxstacksize }))

/-- The loop of `luaT_adjustvarargs`: the function and its parameters are copied to the top. -/
def copyParams (s : Nat → V) (func top : Nat) : Nat → Nat → V
  | 0 => Function.update s top (s func)
  | n + 1 =>
    let s := copyParams s func top n
    Function.update (Function.update s (top + n + 1) (s (func + n + 1))) (func + n + 1) nil

def State.luaT_adjustvarargs (st : State σ V) (ci : CallInfo) (p : Proto) : Out (State σ V × CallInfo) :=
  let actual := st.top - ci.func - 1
  (st.growIf (st.size ≤ st.top + (p.maxstacksize + 1)) (p.maxstacksize + 1)).bind fun st =>
    some (.ok ({ st with
        slots := copyParams nil st.slots ci.func st.top p.numparams
        top := st.top + 1 + p.numparams },
      { ci with
        func := ci.func + actual + 1
        top := ci.top + (actual + 1)
        nextraargs := actual - p.numparams }))

/-- The start of a Lua function: `OP_VARARGPREP` if it has extra arguments. -/
def State.prepare (st : State σ V) (ci : CallInfo) (p : Proto) : Out (State σ V × CallInfo) :=
  if p.is_vararg then st.luaT_adjustvarargs nil ci p else some (.ok (st, ci))

/-- `luaT_getvarargs` -/
def State.varargs (st : State σ V) (ci : CallInfo) (p : Proto) : List V :=
  if p.is_vararg then slice st.slots (ci.func - ci.nextraargs) ci.nextraargs else []

/-- `luaD_poscall` -/
def State.poscall (st : State σ V) (ci : CallInfo) (nres : Nat) : State σ V :=
  let (slots, top) := moveresults nil st.slots st.top ci.func nres ci.nresults
  { st with slots := slots, top := top }

/-- `delta` of the tail calls and returns of a function. -/
def CallInfo.delta (ci : CallInfo) (p : Proto) : Nat := if p.is_vararg then ci.nextraargs + (p.numparams + 1) else 0

/-- `OP_RETURN0` -/
def State.return0 (st : State σ V) (ci : CallInfo) : State σ V :=
  let missing := ci.nresults.getD 0
  { st with slots := put st.slots ci.func (List.replicate missing nil), top := ci.func + missing }

/-- `OP_RETURN1` -/
def State.return1 (st : State σ V) (ci : CallInfo) (ra : Nat) : State σ V :=
  if ci.nresults = some 0 then { st with top := ci.func }
  else
    let missing := ci.nresults.getD 0 - 1
    let slots := Function.update st.slots ci.func (st.slots (ci.func + 1 + ra))
    { st with slots := put slots (ci.func + 1) (List.replicate missing nil), top := ci.func + 1 + missing }

/-! ## Calls -/

/-- Calls and tail calls of a value, with fewer steps. -/
structure Machine (σ V : Type) where
  call : State σ V → Nat → Arity → Out (State σ V)
  tail : State σ V → CallInfo → Nat → Nat → Nat → Out (State σ V)

/-- `luaF_close`, after `luaF_closeupval`: a method is called on top of the frame, and leaves nothing. -/
def closeAll (m : Machine σ V) : List (V × V) → State σ V → Out (State σ V)
  | [], st => some (.ok st)
  | (tm, obj) :: l, st =>
    let func := st.top
    (m.call { st with slots := put st.slots func [tm, obj, nil], top := func + 3 } func (some 0)).bind fun st =>
      closeAll m l st

/-- `OP_RETURN`, where `C` and `k` are those of the function. -/
def State.ret (m : Machine σ V) (st : State σ V) (ci : CallInfo) (p : Proto) (ra n : Nat) (closing : List (V × V)) :
    Out (State σ V) :=
  let closed :=
    if p.needclose then
      closeAll nil m closing (({ st with top := max st.top ci.top } : State σ V).luaF_closeupval (ci.func + 1))
    else some (.ok st)
  closed.bind fun st =>
    let top := ci.func + 1 + ra + n
    some (.ok ({ st with top := top }.poscall nil { ci with func := ci.func - ci.delta p } n))

/-- The results of a call: as many as wanted, or up to the top. -/
def State.results (st : State σ V) (func : Nat) : List V := slice st.slots func (st.top - func)

/-- A Lua function, from one call to the next. `luaK_ret` and `luaK_finish` choose the instruction for a return. -/
def runLua (m : Machine σ V) (p : Proto) (ci : CallInfo) : {k : Nat} → Code σ V p k → State σ V → Out (State σ V)
  | _, .ret acts heap ra vs opened closing _ _, st =>
    let base := ci.func + 1
    let st := st.acts base acts
    let done := if opened then st.open heap (base + ra) vs else st.eval heap (base + ra) vs
    done.bind fun st =>
      if opened = false ∧ p.needclose = false ∧ p.is_vararg = false ∧ vs.length = 0 then some (.ok (st.return0 nil ci))
      else if opened = false ∧ p.needclose = false ∧ p.is_vararg = false ∧ vs.length = 1 then
        some (.ok (st.return1 nil ci ra))
      else st.ret nil m ci p ra vs.length closing
  | _, .call acts heap ra f args wanted _ next, st =>
    let func := ci.func + 1 + ra
    ((st.acts (ci.func + 1) acts).open heap func (f :: args)).bind fun st =>
      (m.call st func wanted).bind fun st =>
        runLua m p ci (next st.world (st.results func) (st.varargs ci p)) st
  | _, .tailcall acts heap ra f args _ _, st =>
    let func := ci.func + 1 + ra
    ((st.acts (ci.func + 1) acts).open heap func (f :: args)).bind fun st =>
      let st := if p.needclose then st.luaF_closeupval (ci.func + 1) else st
      m.tail st ci func (args.length + 1) (ci.delta p)

/-- A Rust function, with the number of its results. -/
def runRust (m : Machine σ V) (func : Nat) : RustCode σ V → State σ V → Out (State σ V × Nat)
  | .ret heap left vs, st => (st.open heap (func + 1) (left ++ vs)).bind fun st => some (.ok (st, vs.length))
  | .call heap ra f args wanted next, st =>
    (st.open heap (func + 1 + ra) (f :: args)).bind fun st =>
      (m.call st (func + 1 + ra) wanted).bind fun st =>
        runRust m func (next st.world (st.results (func + 1 + ra))) st

def call_fp (m : Machine σ V) (st : State σ V) (func : Nat) (nresults : Arity)
    (body : World σ V → List V → RustCode σ V) : Out (State σ V × Nat) :=
  (st.growIf (st.size < st.top) 20).bind fun st =>
    let ci : CallInfo := ⟨func, st.top, nresults, 0⟩
    (runRust m func (body st.world (slice st.slots (func + 1) (st.top - func - 1))) st).bind fun (st, n) =>
      some (.ok (st.poscall nil ci n, n))

/-- A Lua function after its frame is set up. -/
def enter (m : Machine σ V) (p : Proto) (body : World σ V → List V → List V → Code σ V p 0) (st : State σ V)
    (ci : CallInfo) : Out (State σ V) :=
  (st.prepare nil ci p).bind fun (st, ci) =>
    runLua nil m p ci (body st.world (slice st.slots (ci.func + 1) p.numparams) (st.varargs ci p)) st

variable (kind : σ → V → Kind σ V)

/-- `luaD_precall`, and the interpreter up to the return of the call. -/
def precall (m : Machine σ V) (st : State σ V) (func : Nat) (nresults : Arity) : Out (State σ V) :=
  match kind st.heap (st.slots func) with
  | .other none => some (.error .error)
  | .other (some tm) => (st.tryfuncTM func tm).bind fun st => m.call st func nresults
  | .rust body => (call_fp nil m st func nresults body).bind fun (st, _) => some (.ok st)
  | .lua p body => (st.setup_lua_ci nil func nresults p).bind fun (st, ci) => enter nil m p body st ci

/-- `luaD_pretailcall`, and `OP_TAILCALL` or the interpreter up to the return of the frame. -/
def pretailcall (m : Machine σ V) (st : State σ V) (ci : CallInfo) (func narg1 delta : Nat) : Out (State σ V) :=
  match kind st.heap (st.slots func) with
  | .other none => some (.error .error)
  | .other (some tm) => (st.tryfuncTM func tm).bind fun st => m.tail st ci func (narg1 + 1) delta
  | .rust body =>
    (call_fp nil m st func none body).bind fun (st, n) =>
      some (.ok (st.poscall nil { ci with func := ci.func - delta } n))
  | .lua p body => (st.setup_tailcall_ci nil ci func narg1 delta p).bind fun (st, ci) => enter nil m p body st ci

/-- Calls of `n` steps. -/
def machine : Nat → Machine σ V
  | 0 => ⟨fun _ _ _ => none, fun _ _ _ _ _ => none⟩
  | n + 1 => ⟨precall nil kind (machine n), pretailcall nil kind (machine n)⟩

/-! ## What calls mean -/

/-- The variables of the captured registers of a function. -/
abbrev Env := Nat → Option Nat

def World.act (w : World σ V) (env : Env) : Act V → Env × World σ V
  | .setupval u v => (env, { w with vars := Function.update w.vars u v })
  | .capture r v =>
    match env r with
    | some u => (env, { w with vars := Function.update w.vars u v })
    | none =>
      (Function.update env r (some w.nvars),
        { w with vars := Function.update w.vars w.nvars v, nvars := w.nvars + 1 })
  | .close r => (fun r' => if r' < r then env r' else none, w)

def World.acts (w : World σ V) (env : Env) (as : List (Act V)) : Env × World σ V :=
  as.foldl (fun x a => x.2.act x.1 a) (env, w)

/-- The values of a return: those of captured registers are the values of the variables. -/
def World.values (w : World σ V) (env : Env) (ra : Nat) (vs : List V) : List V :=
  vs.mapIdx fun j v =>
    match env (ra + j) with
    | some u => w.vars u
    | none => v

/-- A call of a value with arguments, and its results. -/
abbrev Apply (σ V : Type) := World σ V → V → List V → Out (World σ V × List V)

def closing (call : Apply σ V) : List (V × V) → World σ V → Out (World σ V)
  | [], w => some (.ok w)
  | (tm, obj) :: l, w => (call w tm [obj, nil]).bind fun (w, _) => closing call l w

/-- A Lua function: a tail call is a call whose results are all returned. -/
def evalLua (call : Apply σ V) (p : Proto) (extra : List V) : {k : Nat} → Code σ V p k → Env → World σ V →
    Out (World σ V × List V)
  | _, .ret acts heap ra vs _ l _ _, env, w =>
    let (env, w) := w.acts env acts
    (closing nil call l { w with heap := heap }).bind fun w' => some (.ok (w', w.values env ra vs))
  | _, .call acts heap _ f args wanted _ next, env, w =>
    let (env, w) := w.acts env acts
    (call { w with heap := heap } f args).bind fun (w, rs) =>
      evalLua call p extra (next w (adjust nil wanted rs) extra) env w
  | _, .tailcall acts heap _ f args _ _, env, w => call { (w.acts env acts).2 with heap := heap } f args

def evalRust (call : Apply σ V) : RustCode σ V → World σ V → Out (World σ V × List V)
  | .ret heap _ vs, w => some (.ok ({ w with heap := heap }, vs))
  | .call heap _ f args wanted next, w =>
    (call { w with heap := heap } f args).bind fun (w, rs) => evalRust call (next w (adjust nil wanted rs)) w

/-- A call of a value: the parameters are the first arguments, and a value with `__call` is the first argument of its
metamethod. -/
def apply : Nat → Apply σ V
  | 0, _, _, _ => none
  | n + 1, w, f, args =>
    match kind w.heap f with
    | .other none => some (.error .error)
    | .other (some tm) => apply n w tm (f :: args)
    | .rust body => evalRust nil (apply n) (body w args) w
    | .lua p body =>
      let extra := if p.is_vararg then args.drop p.numparams else []
      evalLua nil (apply n) p extra (body w (adjust nil (some p.numparams) args) extra) (fun _ => none) w

/-! ## The slots that calls need -/

/-- The slots below which a call stays, for a function at a slot whose frame begins at another. -/
abbrev Needs (σ V : Type) := Nat → Nat → World σ V → V → List V → Nat

/-- What is needed after a call. -/
def afterCall {α : Type} (x : Out α) (f : α → Nat) : Nat :=
  match x with
  | some (.ok a) => f a
  | _ => 0

def needsClosing (call : Apply σ V) (needs : Needs σ V) (pos : Nat) : List (V × V) → World σ V → Nat
  | [], _ => 0
  | (tm, obj) :: l, w =>
    max (needs pos pos w tm [obj, nil]) (afterCall (call w tm [obj, nil]) fun (w, _) => needsClosing call needs pos l w)

/-- A Lua function whose frame begins at the slot `fn`, with its registers above `func` and the top at `top`. -/
def needsLua (call : Apply σ V) (needs : Needs σ V) (p : Proto) (extra : List V) (fn func : Nat) :
    {k : Nat} → Code σ V p k → Nat → Env → World σ V → Nat
  | _, .ret acts heap ra vs opened l _ _, top, env, w =>
    let (_, w) := w.acts env acts
    let last := func + 1 + ra + vs.length
    let pos := max (if opened then last else top) (func + 1 + p.maxstacksize)
    max last (needsClosing nil call needs pos l { w with heap := heap })
  | _, .call acts heap ra f args wanted _ next, _, env, w =>
    let (env, w) := w.acts env acts
    let pos := func + 1 + ra
    max (pos + (args.length + 1)) (max (needs pos pos { w with heap := heap } f args)
      (afterCall (call { w with heap := heap } f args) fun (w, rs) =>
        max (pos + (adjust nil wanted rs).length) (needsLua call needs p extra fn func
          (next w (adjust nil wanted rs) extra) (pos + (adjust nil wanted rs).length) env w)))
  | _, .tailcall acts heap ra f args _ _, _, env, w =>
    let pos := func + 1 + ra
    max (pos + (args.length + 1)) (needs pos fn { (w.acts env acts).2 with heap := heap } f args)

def needsRust (call : Apply σ V) (needs : Needs σ V) (func : Nat) : RustCode σ V → World σ V → Nat
  | .ret _ left vs, _ => func + 1 + (left ++ vs).length
  | .call heap ra f args wanted next, w =>
    let pos := func + 1 + ra
    max (pos + (args.length + 1)) (max (needs pos pos { w with heap := heap } f args)
      (afterCall (call { w with heap := heap } f args) fun (w, rs) =>
        max (pos + (adjust nil wanted rs).length) (needsRust call needs func (next w (adjust nil wanted rs)) w)))

def needs : Nat → Needs σ V
  | 0, _, _, _, _, _ => 0
  | n + 1, pos, fn, w, f, args =>
    match kind w.heap f with
    | .other none => 0
    | .other (some tm) => max (pos + args.length + 2) (needs n pos fn w tm (f :: args))
    | .rust body => max (pos + args.length + 21) (needsRust nil (apply nil kind n) (needs n) pos (body w args) w)
    | .lua p body =>
      let extra := if p.is_vararg then args.drop p.numparams else []
      let top := fn + 1 + args.length + (p.numparams - args.length)
      max (pos + args.length + 2 * p.numparams + p.maxstacksize + 2)
        (needsLua nil (apply nil kind n) (needs n) p extra fn (if p.is_vararg then top else fn)
          (body w (adjust nil (some p.numparams) args) extra) (if p.is_vararg then top + 1 + p.numparams else top)
          (fun _ => none) w)

end Tsuki.Calls
