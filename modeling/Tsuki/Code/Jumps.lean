import Tsuki.Rust
import Tsuki.Lib.Threads
import Mathlib.Tactic.SplitIfs

/-!
# Jump lists

The jumps whose target is not known yet are threaded through the code: the offset of one leads to the next, and the
last one holds `NO_JUMP`. A list is the `pc` of its first jump, or none for `NO_JUMP`. What the source does with code it
must not be called on, say a link read from an instruction that is no jump, is a panic here.
-/

namespace Tsuki.Jumps

/-- The opcodes that leave a function. -/
inductive RetOp
  | tailcall | return_ | return0 | return1
  deriving DecidableEq, Repr

/-- An instruction with its operands; `w` stands for the word of one whose operands do not matter here. -/
inductive Instr
  /-- `OP_JMP` -/
  | jmp (sJ : Int)
  /-- `OP_TESTSET` -/
  | testset (a b : Nat) (k : Bool)
  /-- `OP_TEST` -/
  | test (a : Nat) (k : Bool)
  /-- `OP_EQ` to `OP_GEI`, which are the other tests. -/
  | compare (w : Nat)
  | lfalseskip (a : Nat)
  | loadtrue (a : Nat)
  | ret (op : RetOp) (a b c : Nat) (k : Bool)
  | other (w : Nat)
  deriving DecidableEq, Repr

abbrev Code := List Instr

/-- `OP_JMP` -/
def Instr.isJmp : Instr → Bool
  | .jmp _ => true
  | _ => false

def Instr.testTMode : Instr → Bool
  | .testset .. | .test .. | .compare _ => true
  | _ => false

def noReg : Nat := 255

def offsetSJ : Int := 16777215

def maxargSJ : Int := 33554431

/-- The target is in reach of a jump from `pc`. -/
def Fits (pc : Nat) (dest : Int) : Prop := -offsetSJ ≤ dest - (pc + 1) ∧ dest - (pc + 1) ≤ maxargSJ - offsetSJ

instance (pc : Nat) (dest : Int) : Decidable (Fits pc dest) := inferInstanceAs (Decidable (_ ∧ _))

/-- `luaX_syntaxerror` of `fixjump`. -/
def tooLong : Fault := .msg "control structure too long"

def getjump (code : Code) (pc : Nat) : Rust (Option Nat) :=
  match code[pc]? with
  | some (.jmp offset) =>
    if offset = -1 then .ok none
    else if 0 ≤ (pc : Int) + 1 + offset then .ok (some ((pc : Int) + 1 + offset).toNat)
    else .error .panic
  | _ => .error .panic

def fixjump (code : Code) (pc : Nat) (dest : Int) : Rust Code :=
  match code[pc]? with
  | some (.jmp _) => if Fits pc dest then .ok (code.set pc (.jmp (dest - (pc + 1)))) else .error tooLong
  | _ => .error .panic

/-- The loop of `luaK_concat`, which looks for the last jump of a list; a list of more jumps than there are
instructions never ends. -/
def lastjump (code : Code) : Nat → Nat → Rust Nat
  | 0, _ => .error .panic
  | n + 1, list => do
    match ← getjump code list with
    | none => .ok list
    | some next => lastjump code n next

/-- `luaK_concat`: the code, and the new `l1`. -/
def luaK_concat (code : Code) (l1 l2 : Option Nat) : Rust (Code × Option Nat) :=
  match l2, l1 with
  | none, _ => .ok (code, l1)
  | some l2, none => .ok (code, some l2)
  | some l2, some l1 => do
    let list ← lastjump code code.length l1
    let code ← fixjump code list l2
    .ok (code, some l1)

def luaK_jump (code : Code) : Code × Nat := (code ++ [.jmp (-1)], code.length)

def getjumpcontrol (code : Code) (pc : Nat) : Nat :=
  if 1 ≤ pc ∧ code[pc - 1]?.any Instr.testTMode then pc - 1 else pc

/-- `patchtestreg`, and whether the jump gives a value. -/
def patchtestreg (code : Code) (node reg : Nat) : Code × Bool :=
  let i := getjumpcontrol code node
  match code[i]? with
  | some (.testset _ b k) => (code.set i (if reg ≠ noReg ∧ reg ≠ b then .testset reg b k else .test b k), true)
  | _ => (code, false)

def removevalues : Nat → Code → Option Nat → Rust Code
  | _, code, none => .ok code
  | 0, _, some _ => .error .panic
  | n + 1, code, some list => do
    let code := (patchtestreg code list noReg).1
    let next ← getjump code list
    removevalues n code next

def patchlistaux (vtarget : Int) (reg : Nat) (dtarget : Int) : Nat → Code → Option Nat → Rust Code
  | _, code, none => .ok code
  | 0, _, some _ => .error .panic
  | n + 1, code, some list => do
    let next ← getjump code list
    let patched := patchtestreg code list reg
    let code ← fixjump patched.1 list (if patched.2 then vtarget else dtarget)
    patchlistaux vtarget reg dtarget n code next

def luaK_patchlist (code : Code) (list : Option Nat) (target : Nat) : Rust Code :=
  patchlistaux target noReg target code.length code list

def luaK_patchtohere (code : Code) (list : Option Nat) : Rust Code := luaK_patchlist code list code.length

def need_value (code : Code) : Nat → Option Nat → Rust Bool
  | _, none => .ok false
  | 0, some _ => .error .panic
  | n + 1, some list =>
    match code[getjumpcontrol code list]? with
    | some (.testset ..) => do
      let next ← getjump code list
      need_value code n next
    | _ => .ok true

/-- The instructions `exp2reg` loads a boolean with, and their places; `vjmp` tells that the expression is a jump. -/
def loadbools (code : Code) (vjmp : Bool) (reg : Nat) : Rust (Code × Int × Int) := do
  let (code, fj) := if vjmp then (code, none) else (fun j => (j.1, some j.2)) (luaK_jump code)
  let pf := code.length
  let code := code ++ [.lfalseskip reg]
  let pt := code.length
  let code := code ++ [.loadtrue reg]
  let code ← luaK_patchtohere code fj
  .ok (code, pf, pt)

/-- The condition in `exp2reg`: a list has a jump that gives no value. -/
def needValues (code : Code) (t f : Option Nat) : Rust Bool := do
  match ← need_value code code.length t with
  | true => .ok true
  | false => need_value code code.length f

/-- `p_f` and `p_t` of `exp2reg`, with the code. -/
def valuePlaces (code : Code) (need vjmp : Bool) (reg : Nat) : Rust (Code × Int × Int) :=
  if need then loadbools code vjmp reg else .ok (code, -1, -1)

/-- `exp2reg` after `discharge2reg`: the lists `t` and `f`, and the jump where the expression is one. -/
def exp2reg (code : Code) (t f vjmp : Option Nat) (reg : Nat) : Rust Code := do
  let (code, t) ← luaK_concat code t vjmp
  if t ≠ f then
    let need ← needValues code t f
    let (code, pf, pt) ← valuePlaces code need vjmp.isSome reg
    let final := code.length
    let code ← patchlistaux final reg pf code.length code f
    patchlistaux final reg pt code.length code t
  else .ok code

end Tsuki.Jumps
