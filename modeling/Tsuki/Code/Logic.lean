import Tsuki.Code.JumpsRun
import Mathlib.Logic.Relation

/-!
# The code of `not`, `and` and `or`

The operands are booleans, constants, local variables, comparisons, closures and other expressions of one instruction,
but no `nil`, which may be joined to an `OP_LOADNIL` before it. A condition jumps where its value is known, and a value
that may be the result of the whole expression is tested by `OP_TESTSET` with no register yet. An expression has three
variables of the generator: its lists `t` and `f`, and the jump of a `VJMP`.
-/

namespace Tsuki.Logic

open Jumps

/-! ## Instruction words -/

/-- An instruction with the fields A and B. -/
def word (op a b : Nat) : Nat := op + a * 128 + b * 65536

def opcode (w : Nat) : Nat := w % 128

def fieldA (w : Nat) : Nat := w / 128 % 256

def fieldB (w : Nat) : Nat := w / 65536 % 256

/-- The field A is written. -/
def setA (w a : Nat) : Nat := w - fieldA w * 128 + a * 128

/-- The bit `k`. -/
def fieldK (w : Nat) : Bool := decide (w / 32768 % 2 = 1)

def clearK (w : Nat) : Nat := if fieldK w then w - 32768 else w

/-- The bit `k` is flipped. -/
def flipK (w : Nat) : Nat := if fieldK w then w - 32768 else w + 32768

/-- The instructions that load a constant, with the field Bx. -/
inductive KOp
  | loadi | loadf | loadk
  deriving DecidableEq, Repr

def KOp.opcode : KOp → Nat
  | .loadi => 1
  | .loadf => 2
  | .loadk => 3

def KOp.word (op : KOp) (a bx : Nat) : Nat := op.opcode + a * 128 + bx * 32768

/-- An instruction that computes a value for a register, which is not chosen yet: an access to an upvalue or a table, an
operation or a closure. -/
structure Load where
  word : Nat
  fieldA : fieldA word = 0
  opcode : 9 ≤ opcode word ∧ opcode word ≠ 51

/-! ## What the instructions do -/

inductive Value (α : Type)
  | nil
  | bool (b : Bool)
  | other (a : α)
  deriving DecidableEq, Repr

/-- `!l_isfalse(v)` -/
def Value.truthy {α : Type} : Value α → Bool
  | .nil => false
  | .bool b => b
  | .other _ => true

/-- The local variables, and all that is outside of the frame. -/
structure Vars (α σ : Type) where
  locals : Nat → Value α
  heap : σ

/-- The constants, and what an operand or a comparison does, which may change all variables. -/
structure Lang (α σ : Type) where
  const : KOp → Nat → α
  load : Nat → Vars α σ → Value α × Vars α σ
  compare : Nat → Vars α σ → Bool × Vars α σ

/-- The registers of a frame: those of the local variables, and the temporary ones above them. -/
structure State (α σ : Type) where
  vars : Vars α σ
  temps : Nat → Value α

section

variable {α σ : Type} (lang : Lang α σ) (nact : Nat)

def State.get (s : State α σ) (r : Nat) : Value α := if r < nact then s.vars.locals r else s.temps r

def State.set (s : State α σ) (r : Nat) (v : Value α) : State α σ :=
  if r < nact then { s with vars := { s.vars with locals := Function.update s.vars.locals r v } }
  else { s with temps := Function.update s.temps r v }

/-- What `OP_NOT` or an operand computes. -/
def valueOf (w : Nat) (s : State α σ) : Value α × Vars α σ :=
  if opcode w = 51 then (.bool !(s.get nact (fieldB w)).truthy, s.vars) else lang.load (setA w 0) s.vars

/-- Whether the jump behind a comparison is taken. -/
def taken (w : Nat) (x : Vars α σ) : Bool × Vars α σ :=
  ((lang.compare (clearK w) x).1 == fieldK w, (lang.compare (clearK w) x).2)

/-- `OP_MOVE`, `OP_LOADI`, `OP_LOADF`, `OP_LOADK`, `OP_LOADFALSE`, `OP_LOADNIL`, and what computes a value. -/
def exec (w : Nat) (s : State α σ) : State α σ :=
  match opcode w with
  | 0 => s.set nact (fieldA w) (s.get nact (fieldB w))
  | 1 => s.set nact (fieldA w) (.other (lang.const .loadi (w / 32768)))
  | 2 => s.set nact (fieldA w) (.other (lang.const .loadf (w / 32768)))
  | 3 => s.set nact (fieldA w) (.other (lang.const .loadk (w / 32768)))
  | 5 => s.set nact (fieldA w) (.bool false)
  | 8 => (List.range (fieldB w + 1)).foldl (fun s i => s.set nact (fieldA w + i) .nil) s
  | _ => { s with vars := (valueOf lang nact w s).2 }.set nact (fieldA w) (valueOf lang nact w s).1

/-- One instruction. A test that does not skip the jump behind it takes it. -/
def step (code : Code) : Nat × State α σ → Option (Nat × State α σ)
  | (pc, s) =>
    match code[pc]? with
    | some (.jmp sJ) => some (((pc : Int) + 1 + sJ).toNat, s)
    | some (.test a k) => some (if (s.get nact a).truthy = k then pc + 1 else pc + 2, s)
    | some (.testset a b k) =>
      if (s.get nact b).truthy = k then some (pc + 1, s.set nact a (s.get nact b)) else some (pc + 2, s)
    | some (.compare w) =>
      some (if (taken lang w s.vars).1 then pc + 1 else pc + 2, { s with vars := (taken lang w s.vars).2 })
    | some (.lfalseskip a) => some (pc + 2, s.set nact a (.bool false))
    | some (.loadtrue a) => some (pc + 1, s.set nact a (.bool true))
    | some (.other w) => some (pc + 1, exec lang nact w s)
    | _ => none

/-- The code runs from one state to another. -/
def Reaches (code : Code) : Nat × State α σ → Nat × State α σ → Prop :=
  Relation.ReflTransGen fun x y => step lang nact code x = some y

end

/-! ## Expressions -/

/-- `andor true` is `and`, `andor false` is `or`. -/
inductive Exp (nact : Nat)
  | false_ | true_
  | const (op : KOp) (bx : Nat)
  | local_ (r : Fin nact)
  | load (l : Load)
  | closure (l : Load)
  | compare (w : Nat)
  | not_ (e : Exp nact)
  | andor (and : Bool) (a b : Exp nact)

/-- The value of an expression. -/
def Exp.eval {α σ : Type} (lang : Lang α σ) {nact : Nat} : Exp nact → Vars α σ → Value α × Vars α σ
  | .false_, x => (.bool false, x)
  | .true_, x => (.bool true, x)
  | .const op bx, x => (.other (lang.const op bx), x)
  | .local_ r, x => (x.locals r, x)
  | .load l, x | .closure l, x => lang.load l.word x
  | .compare w, x => (.bool (taken lang w x).1, (taken lang w x).2)
  | .not_ e, x => (.bool !(e.eval lang x).1.truthy, (e.eval lang x).2)
  | .andor b e e', x => if (e.eval lang x).1.truthy = b then e'.eval lang (e.eval lang x).2 else e.eval lang x

/-! ## The code generator -/

structure FuncState where
  gen : Gen
  freereg : Nat

/-- The kinds of `expdesc` that are left by `luaK_dischargevars`. -/
inductive Kind
  | nil | false_ | true_
  | k (op : KOp) (bx : Nat)
  | nonreloc (r : Nat)
  | reloc (pc : Nat)
  | jmp
  deriving DecidableEq, Repr

/-- The error of `luaK_checkstack`. -/
def tooMany : Fault := .msg "function or expression needs too many registers"

abbrev FuncState.code (fs : FuncState) : Code := fs.gen.code

def FuncState.op (fs : FuncState) (op : Op) : Rust FuncState := do
  let gen ← fs.gen.step op
  .ok { fs with gen := gen }

/-- `luaK_code` -/
def FuncState.emit (fs : FuncState) (w : Nat) : Rust FuncState := fs.op (.emit (.other w))

/-- `luaK_reserveregs` of one register. -/
def FuncState.reserve (fs : FuncState) : Rust FuncState :=
  if fs.freereg + 1 < 255 then .ok { fs with freereg := fs.freereg + 1 } else .error tooMany

section

variable (nact : Nat)

def FuncState.freeexp (fs : FuncState) : Kind → FuncState
  | .nonreloc r => if nact ≤ r then { fs with freereg := fs.freereg - 1 } else fs
  | _ => fs

/-- `discharge2reg`. That a nil may be joined to an `OP_LOADNIL` before it is left out. -/
def FuncState.discharge2reg (fs : FuncState) (k : Kind) (reg : Nat) : Rust FuncState :=
  match k with
  | .nil => fs.emit (word 8 reg 0)
  | .false_ => fs.emit (word 5 reg 0)
  | .true_ => fs.op (.emit (.loadtrue reg))
  | .k op bx => fs.emit (op.word reg bx)
  | .reloc pc =>
    match fs.code[pc]? with
    | some (.other w) => fs.op (.change pc (.other (setA w reg)))
    | _ => .error .panic
  | .nonreloc r => if reg ≠ r then fs.emit (word 0 reg r) else .ok fs
  | .jmp => .ok fs

/-- `discharge2anyreg`, with the register. -/
def FuncState.discharge2anyreg (fs : FuncState) (k : Kind) : Rust (FuncState × Nat) :=
  match k with
  | .nonreloc r => .ok (fs, r)
  | k => do
    let fs ← fs.reserve
    let fs ← fs.discharge2reg k (fs.freereg - 1)
    .ok (fs, fs.freereg - 1)

/-- The jump of `jumponcond` where there is no `OP_NOT`. -/
def FuncState.jumpOnValue (fs : FuncState) (v : Nat) (k : Kind) (cond : Bool) : Rust FuncState := do
  let (fs, r) ← fs.discharge2anyreg k
  (fs.freeexp nact (.nonreloc r)).op (.condjump (.testset noReg r cond) (v + 2))

def FuncState.jumponcond (fs : FuncState) (v : Nat) (k : Kind) (cond : Bool) : Rust FuncState :=
  match k with
  | .reloc pc =>
    match fs.code[pc]? with
    | some (.other w) =>
      if opcode w = 51 then do
        let fs ← fs.op .removelast
        fs.op (.condjump (.test (fieldB w) !cond) (v + 2))
      else fs.jumpOnValue nact v k cond
    | _ => .error .panic
  | k => fs.jumpOnValue nact v k cond

def FuncState.negatecondition (fs : FuncState) (v : Nat) : Rust FuncState :=
  match fs.gen.vars (v + 2) with
  | none => .error .panic
  | some info =>
    match fs.code[getjumpcontrol fs.code info]? with
    | some (.compare w) => fs.op (.change (getjumpcontrol fs.code info) (.compare (flipK w)))
    | _ => .error .panic

/-- The list of an expression, `t` or `f`. -/
def list (v : Nat) (b : Bool) : Nat := if b then v else v + 1

/-- The jump of `luaK_goiftrue` or `luaK_goiffalse`. -/
def FuncState.jumpUnless (fs : FuncState) (v : Nat) (b : Bool) (k : Kind) : Rust FuncState :=
  match b, k with
  | true, .jmp => fs.negatecondition v
  | false, .jmp => .ok fs
  | true, .true_ | true, .k .. | false, .nil | false, .false_ => .ok fs
  | b, k => fs.jumponcond nact v k !b

/-- `luaK_goiftrue` and `luaK_goiffalse`: the code goes on if the value is like `b`. -/
def FuncState.goif (fs : FuncState) (v : Nat) (b : Bool) (k : Kind) : Rust FuncState := do
  let fs ← fs.jumpUnless nact v b k
  let fs ← fs.op (.concat (list v !b) (v + 2))
  fs.op (.patchtohere (list v b))

def luaK_goiftrue (fs : FuncState) (v : Nat) (k : Kind) : Rust FuncState := fs.goif nact v true k

def luaK_goiffalse (fs : FuncState) (v : Nat) (k : Kind) : Rust FuncState := fs.goif nact v false k

/-- `codenot`, but for the lists. -/
def FuncState.negate (fs : FuncState) (v : Nat) (k : Kind) : Rust (FuncState × Kind) :=
  match k with
  | .nil | .false_ => .ok (fs, .true_)
  | .true_ | .k .. => .ok (fs, .false_)
  | .jmp => do
    let fs ← fs.negatecondition v
    .ok (fs, .jmp)
  | k => do
    let (fs, r) ← fs.discharge2anyreg k
    let fs := fs.freeexp nact (.nonreloc r)
    let pc := fs.code.length
    let fs ← fs.emit (word 51 0 r)
    .ok (fs, .reloc pc)

def codenot (fs : FuncState) (v : Nat) (k : Kind) : Rust (FuncState × Kind) := do
  let (fs, k) ← fs.negate nact v k
  let fs ← fs.op (.swap v (v + 1))
  let fs ← fs.op (.removevalues (v + 1))
  let fs ← fs.op (.removevalues v)
  .ok (fs, k)

/-- `*e1 = *e2` for the lists. -/
def FuncState.move (fs : FuncState) (v w : Nat) : Rust FuncState := do
  let fs ← fs.op (.swap v w)
  let fs ← fs.op (.swap (v + 1) (w + 1))
  fs.op (.swap (v + 2) (w + 2))

def FuncState.exp2reg (fs : FuncState) (v : Nat) (k : Kind) (reg : Nat) : Rust FuncState := do
  let fs ← fs.discharge2reg k reg
  fs.op (.exp2reg v (v + 1) (v + 2) reg)

def luaK_exp2nextreg (fs : FuncState) (v : Nat) (k : Kind) : Rust FuncState := do
  let fs ← (fs.freeexp nact k).reserve
  fs.exp2reg v k (fs.freereg - 1)

/-- An expression, as `luaK_dischargevars` leaves it, with `luaK_prefix`, `luaK_infix` and `luaK_posfix`. A closure is
put into the next register at once. -/
def compile : Exp nact → Nat → FuncState → Rust (FuncState × Kind)
  | .false_, _, fs => .ok (fs, .false_)
  | .true_, _, fs => .ok (fs, .true_)
  | .const op bx, _, fs => .ok (fs, .k op bx)
  | .local_ r, _, fs => .ok (fs, .nonreloc r)
  | .load l, _, fs => do
    let pc := fs.code.length
    let fs ← fs.emit l.word
    .ok (fs, .reloc pc)
  | .closure l, v, fs => do
    let pc := fs.code.length
    let fs ← fs.emit l.word
    let fs ← luaK_exp2nextreg nact fs v (.reloc pc)
    .ok (fs, .nonreloc (fs.freereg - 1))
  | .compare w, v, fs => do
    let fs ← fs.op (.condjump (.compare w) (v + 2))
    .ok (fs, .jmp)
  | .not_ e, v, fs => do
    let (fs, k) ← compile e v fs
    codenot nact fs v k
  | .andor b e e', v, fs => do
    let (fs, k) ← compile e v fs
    let fs ← if b then luaK_goiftrue nact fs v k else luaK_goiffalse nact fs v k
    let (fs, k) ← compile e' (v + 3) fs
    let fs ← fs.op (.concat (list (v + 3) !b) (list v !b))
    let fs ← fs.move v (v + 3)
    .ok (fs, k)

/-- `subexpr` and `luaK_exp2nextreg`. -/
def expToNextReg (fs : FuncState) (v : Nat) (e : Exp nact) : Rust FuncState := do
  let (fs, k) ← compile nact e v fs
  luaK_exp2nextreg nact fs v k

end

end Tsuki.Logic
