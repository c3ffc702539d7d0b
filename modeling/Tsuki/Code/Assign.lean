import Tsuki.Thread.Stack

/-!
# Multiple assignments

The targets are parsed from left to right and assigned from right to left. A target may keep the register of a local
variable, or the number of an upvalue, for its table or key; where a later target assigns to that variable, its old
value is kept in a register of its own.
-/

namespace Tsuki.Assign

open Coroutine (adjust put)

variable {H V : Type}

/-- The variables and the heap: the registers of a frame, the upvalues and everything else. -/
structure Env (H V : Type) where
  regs : Nat → V
  ups : Nat → V
  heap : H

/-- An expression that is evaluated by code of its own, which may change all variables. -/
abbrev Eval (H V α : Type) := Env H V → Env H V × α

/-! ## The source -/

/-- The table of a target: a local variable, an upvalue, or another expression. -/
inductive Operand (H V : Type)
  | loc (r : Nat)
  | upval (u : Nat)
  | temp (e : Eval H V V)

/-- The key of a target: a constant string or small integer, a local variable, or another expression, whose value may be
in a register already (`VNONRELOC`). -/
inductive KeyOperand (H V : Type)
  | str (k : V)
  | int (k : V)
  | loc (r : Nat)
  | temp (nonreloc : Bool) (e : Eval H V V)

inductive Target (H V : Type)
  | loc (r : Nat)
  | upval (u : Nat)
  | index (t : Operand H V) (k : KeyOperand H V)

/-- An expression of the right side: a constant, a local variable, another single value, or a call or vararg. -/
inductive Exp (H V : Type)
  | const (v : V)
  | loc (r : Nat)
  | temp (nonreloc : Bool) (e : Eval H V V)
  | multi (nonreloc : Bool) (e : Eval H V (List V))

/-! ## Code -/

/-- The source of a store: a register or a constant. -/
inductive Src (V : Type)
  | reg (r : Nat)
  | const (v : V)

/-- The code of an expression leaves its value in `dst` and keeps the temporary registers below `free`. -/
inductive Instr (H V : Type)
  | eval (dst free : Nat) (e : Eval H V V)
  | evalOpen (dst free n : Nat) (e : Eval H V (List V))
  | load (dst : Nat) (v : V)
  | loadnil (dst n : Nat)
  | move (dst src : Nat)
  | getupval (dst u : Nat)
  | setupval (src u : Nat)
  | settabup (u : Nat) (k : V) (src : Src V)
  | settable (t k : Nat) (src : Src V)
  /-- `OP_SETI` and `OP_SETFIELD` -/
  | setfield (t : Nat) (k : V) (src : Src V)

/-- The expression of a target: `VLOCAL`, `VUPVAL`, `VINDEXED`, `VINDEXUP`, `VINDEXI` and `VINDEXSTR`. -/
inductive Var (V : Type)
  | loc (ridx : Nat)
  | upval (info : Nat)
  | indexed (t idx : Nat)
  | indexup (t : Nat) (k : V)
  | indexi (t : Nat) (k : V)
  | indexstr (t : Nat) (k : V)

/-- `FuncState`. The limits of a function are not here: where one is exceeded there is no code. -/
structure FuncState (H V : Type) where
  code : List (Instr H V)
  freereg : Nat

def FuncState.emit (fs : FuncState H V) (i : Instr H V) : FuncState H V := { fs with code := fs.code ++ [i] }

/-- `luaK_reserveregs` -/
def FuncState.reserve (fs : FuncState H V) (n : Nat) : FuncState H V := { fs with freereg := fs.freereg + n }

/-- The value of an expression in the next register. -/
def FuncState.eval (fs : FuncState H V) (e : Eval H V V) : FuncState H V :=
  (fs.emit (.eval fs.freereg fs.freereg e)).reserve 1

/-- `luaK_indexed`, for a table in a register. -/
def indexedReg (fs : FuncState H V) (t : Nat) : KeyOperand H V → FuncState H V × Var V
  | .str k => (fs, .indexstr t k)
  | .int k => (fs, .indexi t k)
  | .loc r => (fs, .indexed t r)
  | .temp _ e => (fs.eval e, .indexed t fs.freereg)

/-- `luaK_indexed`, for a table in an upvalue. It is put in a register after the key, if that has code. -/
def indexedUp (fs : FuncState H V) (u : Nat) : KeyOperand H V → FuncState H V × Var V
  | .str k => (fs, .indexup u k)
  | .int k => ((fs.emit (.getupval fs.freereg u)).reserve 1, .indexi fs.freereg k)
  | .loc r => ((fs.emit (.getupval fs.freereg u)).reserve 1, .indexed fs.freereg r)
  | .temp nonreloc e =>
    let f := fs.freereg
    let (k, t) := if nonreloc then (f, f + 1) else (f + 1, f)
    (((fs.emit (.eval k f e)).emit (.getupval t u)).reserve 2, .indexed t k)

/-- `suffixedexp`, for a target. -/
def suffixedexp (fs : FuncState H V) : Target H V → FuncState H V × Var V
  | .loc r => (fs, .loc r)
  | .upval u => (fs, .upval u)
  | .index (.loc r) k => indexedReg fs r k
  | .index (.upval u) k => indexedUp fs u k
  | .index (.temp e) k => indexedReg (fs.eval e) fs.freereg k

/-- The loop of `check_conflict`, for one target before. -/
def redirect (extra : Nat) (v : Var V) : Var V → Bool × Var V
  | .indexup t k =>
    match v with
    | .upval info => if t = info then (true, .indexstr extra k) else (false, .indexup t k)
    | _ => (false, .indexup t k)
  | .indexed t idx =>
    match v with
    | .loc ridx =>
      (t = ridx || idx = ridx, .indexed (if t = ridx then extra else t) (if idx = ridx then extra else idx))
    | _ => (false, .indexed t idx)
  | .indexi t k =>
    match v with
    | .loc ridx => (t = ridx, .indexi (if t = ridx then extra else t) k)
    | _ => (false, .indexi t k)
  | .indexstr t k =>
    match v with
    | .loc ridx => (t = ridx, .indexstr (if t = ridx then extra else t) k)
    | _ => (false, .indexstr t k)
  | lh => (false, lh)

def check_conflict (fs : FuncState H V) (lh : List (Var V)) (v : Var V) : FuncState H V × List (Var V) :=
  let extra := fs.freereg
  let conflict := lh.any fun w => (redirect extra v w).1
  let lh := lh.map fun w => (redirect extra v w).2
  if conflict then
    match v with
    | .loc ridx => ((fs.emit (.move extra ridx)).reserve 1, lh)
    | .upval info => ((fs.emit (.getupval extra info)).reserve 1, lh)
    | _ => (fs, lh)
  else (fs, lh)

/-- A target after those before it, which are the last first. -/
def target (fs : FuncState H V) (lh : List (Var V)) (t : Target H V) : FuncState H V × List (Var V) :=
  let (fs, v) := suffixedexp fs t
  let (fs, lh) :=
    match v with
    | .loc _ => check_conflict fs lh v
    | .upval _ => check_conflict fs lh v
    | _ => (fs, lh)
  (fs, v :: lh)

/-- `restassign`, down to the last target. -/
def targets (fs : FuncState H V) (lh : List (Var V)) : List (Target H V) → FuncState H V × List (Var V)
  | [] => (fs, lh)
  | t :: ts =>
    let (fs, lh) := target fs lh t
    targets fs lh ts

/-- The value of the expression where one is wanted. -/
def first (nil : V) (e : Eval H V (List V)) : Eval H V V := fun s => ((e s).1, (e s).2.headD nil)

variable (nil : V)

/-- `luaK_exp2nextreg` -/
def exp2nextreg (fs : FuncState H V) : Exp H V → FuncState H V
  | .const v => (fs.emit (.load fs.freereg v)).reserve 1
  | .loc r => (fs.emit (.move fs.freereg r)).reserve 1
  | .temp _ e => fs.eval e
  | .multi _ e => fs.eval (first nil e)

/-- `explist`, up to the last expression. -/
def explist (fs : FuncState H V) (l : List (Exp H V)) : FuncState H V := l.foldl (exp2nextreg nil) fs

/-- `adjust_assign`, where `last` is the last of the expressions. -/
def adjust_assign (fs : FuncState H V) (nvars nexps : Nat) (last : Exp H V) : FuncState H V :=
  let needed : Int := nvars - nexps
  let fs :=
    match last with
    | .multi _ e => (fs.emit (.evalOpen fs.freereg fs.freereg (needed + 1).toNat e)).reserve 1
    | e =>
      let fs := exp2nextreg nil fs e
      if needed > 0 then fs.emit (.loadnil fs.freereg needed.toNat) else fs
  { fs with freereg := (fs.freereg + needed).toNat }

/-- `luaK_storevar`, of a register or constant to an upvalue or a table. -/
def storeIndexed (fs : FuncState H V) (src : Src V) : Var V → FuncState H V
  | .indexed t idx => fs.emit (.settable t idx src)
  | .indexup t k => fs.emit (.settabup t k src)
  | .indexi t k => fs.emit (.setfield t k src)
  | .indexstr t k => fs.emit (.setfield t k src)
  | _ => fs

/-- `luaK_storevar`, of the last temporary register, which is freed. -/
def storeTop (fs : FuncState H V) (v : Var V) : FuncState H V :=
  let r := fs.freereg - 1
  let fs :=
    match v with
    | .loc ridx => fs.emit (.move ridx r)
    | .upval info => fs.emit (.setupval r info)
    | v => storeIndexed fs (.reg r) v
  { fs with freereg := r }

/-- `luaK_storevar`, of the last expression. -/
def storevar (fs : FuncState H V) (v : Var V) : Exp H V → FuncState H V
  | .const c =>
    match v with
    | .loc ridx => fs.emit (.load ridx c)
    | .upval info => (fs.emit (.load fs.freereg c)).emit (.setupval fs.freereg info)
    | v => storeIndexed fs (.const c) v
  | .loc r =>
    match v with
    | .loc ridx => fs.emit (.move ridx r)
    | .upval info => fs.emit (.setupval r info)
    | v => storeIndexed fs (.reg r) v
  | .temp nonreloc e =>
    match nonreloc, v with
    | false, .loc ridx => fs.emit (.eval ridx fs.freereg e)
    | _, v => storeTop (fs.eval e) v
  | .multi nonreloc e =>
    match nonreloc, v with
    | false, .loc ridx => fs.emit (.eval ridx fs.freereg (first nil e))
    | _, v => storeTop (fs.eval (first nil e)) v

/-- `restassign`, for a statement with the targets `t :: ts` and the expressions `es ++ [last]`: down to the last
target, through the expressions, and back with a store at each level. -/
def restassign (fs : FuncState H V) (t : Target H V) (ts : List (Target H V)) (es : List (Exp H V)) (last : Exp H V) :
    FuncState H V :=
  let (fs, lh) := targets fs [] (t :: ts)
  let fs := explist nil fs es
  let nvars := lh.length
  let nexps := es.length + 1
  if nexps ≠ nvars then lh.foldl storeTop (adjust_assign nil fs nvars nexps last)
  else
    match lh with
    | [] => fs
    | v :: lh => lh.foldl storeTop (storevar nil fs v last)

/-! ## Execution -/

/-- The variables of the function, which has `nact` active ones. -/
def Env.view (nact : Nat) (s : Env H V) : Env H V := { s with regs := fun i => if i < nact then s.regs i else nil }

section

variable (nact : Nat) (store : V → V → V → Env H V → Env H V)

def Src.val (s : Env H V) : Src V → V
  | .reg r => s.regs r
  | .const v => v

/-- The registers after an expression: it keeps the temporaries. -/
def after (s s' : Env H V) (dst free : Nat) (vs : List V) : Env H V :=
  { s' with regs := put (fun i => if nact ≤ i ∧ i < free then s.regs i else s'.regs i) dst vs }

/-- A store to a table: its `__newindex` function may change the variables, and the temporaries stay. -/
def Env.settable (s : Env H V) (t k v : V) : Env H V :=
  let s' := store t k v (s.view nil nact)
  { s' with regs := fun i => if nact ≤ i then s.regs i else s'.regs i }

/-- One instruction, where `store` is what a store to a table does. -/
def step (s : Env H V) : Instr H V → Env H V
  | .eval dst free e =>
    let r := e (s.view nil nact)
    after nact s r.1 dst free [r.2]
  | .evalOpen dst free n e =>
    let r := e (s.view nil nact)
    after nact s r.1 dst free (adjust nil (some n) r.2)
  | .load dst v => { s with regs := Function.update s.regs dst v }
  | .loadnil dst n => { s with regs := put s.regs dst (List.replicate n nil) }
  | .move dst src => { s with regs := Function.update s.regs dst (s.regs src) }
  | .getupval dst u => { s with regs := Function.update s.regs dst (s.ups u) }
  | .setupval src u => { s with ups := Function.update s.ups u (s.regs src) }
  | .settabup u k src => s.settable nil nact store (s.ups u) k (src.val s)
  | .settable t k src => s.settable nil nact store (s.regs t) (s.regs k) (src.val s)
  | .setfield t k src => s.settable nil nact store (s.regs t) k (src.val s)

def exec (s : Env H V) (code : List (Instr H V)) : Env H V := code.foldl (step nil nact store) s

end

end Tsuki.Assign
