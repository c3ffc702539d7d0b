import Mathlib.Data.List.Forall2

/-!
# The state of the parser

The part of `LexState`, `Dyndata`, `FuncState`, `BlockCnt` and `Proto` that scopes, labels and jumps read or
write, and the few functions of `lcode.rs` they call. A name is the pointer to an interned string; all that
interning promises is that two names are the same pointer when they are the same text, so `Name` is any type
with decidable equality.
-/

namespace Tsuki.Parser

/-- `Vardesc::vd::kind`, 0 to 3 in the source. -/
inductive VarKind
  | regular
  | const
  | toclose
  | ctc
  deriving DecidableEq, Repr

/-- `struct Vardesc`. -/
structure Vardesc (Name : Type) where
  name : Name
  kind : VarKind
  ridx : Nat
  deriving DecidableEq, Repr

/-- `struct Upvaldesc`. -/
structure Upvaldesc (Name : Type) where
  name : Name
  instack : Bool
  idx : Nat
  kind : VarKind
  deriving DecidableEq, Repr

/-- `struct BlockCnt`; the field `previous` is the rest of the list the block is the head of. -/
structure BlockCnt where
  firstlabel : Nat
  firstgoto : Nat
  nactvar : Nat
  upval : Bool
  isloop : Bool
  insidetbc : Bool
  deriving DecidableEq, Repr

/-- `struct Labeldesc`. -/
structure Labeldesc (Name : Type) where
  name : Name
  pc : Nat
  line : Nat
  nactvar : Nat
  close : Bool
  deriving DecidableEq, Repr

/-- The opcodes that leave a function. -/
inductive RetOp
  | return0
  | return1
  | return
  | tailcall
  deriving DecidableEq, Repr

/-- An instruction, as far as jumps and closes go. `tmode` of any other instruction is the bit of `opmodes`
that marks a test. -/
inductive Instr
  | jmp (sj : Int)
  | close (a : Nat)
  | tbc (a : Nat)
  | testset (a b : Nat) (k : Bool)
  | test (a : Nat) (k : Bool)
  | ret (op : RetOp) (a b c : Nat) (k : Bool)
  | closure (bx : Nat)
  | varargprep (a : Nat)
  | other (tmode : Bool) (word : Nat)
  deriving DecidableEq, Repr

/-- `struct Proto`. -/
structure Proto (Name : Type) where
  linedefined : Nat
  numparams : Nat
  isVararg : Bool
  upvalues : List (Upvaldesc Name)
  code : List Instr
  p : List (Proto Name)

/-- `struct FuncState`; `nups`, `pc` and `np` are the lengths of lists of `f`, the field `prev` is the rest of
the list the state is the head of. -/
structure FuncState (Name : Type) where
  f : Proto Name
  bl : List BlockCnt
  firstlocal : Nat
  firstlabel : Nat
  ndebugvars : Nat
  nactvar : Nat
  needclose : Bool

/-- `Dyndata::actvar`. Slots from `n` on hold what was left there. -/
structure Actvar (Name : Type) where
  arr : Nat → Vardesc Name
  n : Nat

/-- `struct LexState` with its `Dyndata`, the function being compiled and those around it. -/
structure LexState (Name : Type) where
  envn : Name
  breakn : Name
  actvar : Actvar Name
  gt : List (Labeldesc Name)
  label : List (Labeldesc Name)
  fs : FuncState Name
  prev : List (FuncState Name)

/-- `enum ParseError`. -/
inductive ParseError (Name : Type)
  | itemLimit (name : String) (limit : Nat)
  | tooMany (what : String) (limit line : Nat)
  | controlStructureTooLong
  | jumpsIntoScope (goto : Name) (line : Nat) (varname : Name)
  | labelAlreadyDefined (name : Name) (line : Nat)
  | breakOutsideLoop (line : Nat)
  | noVisibleLabel (name : Name) (line : Nat)
  deriving DecidableEq, Repr

/-- The text of an error, without the token it is near. -/
def ParseError.text {Name : Type} (str : Name → String) : ParseError Name → String
  | .itemLimit name limit => s!"too many {name} (limit is {limit})"
  | .tooMany what limit line =>
    let where_ := if line = 0 then "main function" else s!"function at line {line}"
    s!"too many {what} (limit is {limit}) in {where_}"
  | .controlStructureTooLong => "control structure too long"
  | .jumpsIntoScope goto line varname =>
    s!"<goto {str goto}> at line {line} jumps into the scope of local '{str varname}'"
  | .labelAlreadyDefined name line => s!"label '{str name}' already defined on line {line}"
  | .breakOutsideLoop line => s!"break outside loop at line {line}"
  | .noVisibleLabel name line => s!"no visible label '{str name}' for <goto> at line {line}"

abbrev Parse (Name α : Type) := Except (ParseError Name) α

section

variable {Name : Type}

/-- `luaM_growaux_` for an array that only grows through it: it fails when its `limit` entries are taken. -/
def growaux (nelems limit : Nat) (name : String) : Parse Name Unit :=
  if nelems < limit then .ok () else .error (.itemLimit name limit)

/-- `checklimit` with `errorlimit`. -/
def checklimit (fs : FuncState Name) (v l : Nat) (what : String) : Parse Name Unit :=
  if v > l then .error (.tooMany what l fs.f.linedefined) else .ok ()

/-! ## Emitting and patching code -/

/-- `luaK_code`: the function with the instruction added, and its position. -/
def code (fs : FuncState Name) (i : Instr) : Parse Name (FuncState Name × Nat) := do
  growaux fs.f.code.length 2147483647 "opcodes"
  .ok ({ fs with f := { fs.f with code := fs.f.code ++ [i] } }, fs.f.code.length)

/-- `luaK_jump`: a jump to nowhere yet. -/
def jump (fs : FuncState Name) : Parse Name (FuncState Name × Nat) := code fs (.jmp (-1))

/-- `luaK_getlabel`. -/
def getlabel (fs : FuncState Name) : Nat := fs.f.code.length

/-- `getjump`: the next jump of the list threaded through the code. -/
def getjump (ins : List Instr) (pc : Nat) : Option Nat :=
  match ins[pc]? with
  | some (.jmp sj) => if sj = -1 then none else some (pc + 1 + sj).toNat
  | _ => none

/-- `fixjump`, with the bounds of a 25-bit `sJ`. -/
def fixjump (ins : List Instr) (pc dest : Nat) : Parse Name (List Instr) :=
  let offset : Int := dest - (pc + 1)
  if -16777215 ≤ offset ∧ offset ≤ 16777216 then .ok (ins.set pc (.jmp offset)) else .error .controlStructureTooLong

/-- The bit `T` of `opmodes`. -/
def Instr.testTMode : Instr → Bool
  | .testset .. | .test .. => true
  | .other tmode _ => tmode
  | _ => false

def getjumpcontrol (ins : List Instr) (pc : Nat) : Nat :=
  match ins[pc - 1]? with
  | some i => if 1 ≤ pc ∧ i.testTMode then pc - 1 else pc
  | none => pc

def noReg : Nat := 255

/-- `patchtestreg`: the code with the test changed, `none` where the jump is not controlled by a `TESTSET`. -/
def patchtestreg (ins : List Instr) (node reg : Nat) : Option (List Instr) :=
  let i := getjumpcontrol ins node
  match ins[i]? with
  | some (.testset _ b k) =>
    if reg ≠ noReg ∧ reg ≠ b then some (ins.set i (.testset reg b k)) else some (ins.set i (.test b k))
  | _ => none

/-- The loop of `patchlistaux`; a list has at most one jump for each instruction. -/
def patchlistaux (vtarget reg dtarget : Nat) : Nat → List Instr → Option Nat → Parse Name (List Instr)
  | 0, ins, _ => .ok ins
  | _ + 1, ins, none => .ok ins
  | k + 1, ins, some list =>
    let next := getjump ins list
    match patchtestreg ins list reg with
    | some ins => do patchlistaux vtarget reg dtarget k (← fixjump ins list vtarget) next
    | none => do patchlistaux vtarget reg dtarget k (← fixjump ins list dtarget) next

/-- `luaK_patchlist`. -/
def patchlist (fs : FuncState Name) (list target : Nat) : Parse Name (FuncState Name) := do
  let c ← patchlistaux target noReg target fs.f.code.length fs.f.code (some list)
  .ok { fs with f := { fs.f with code := c } }

/-- `luaK_patchtohere`. -/
def patchtohere (fs : FuncState Name) (list : Nat) : Parse Name (FuncState Name) := patchlist fs list (getlabel fs)

/-- `luaK_ret`; `none` stands for `LUA_MULTRET`. -/
def ret (fs : FuncState Name) (first : Nat) (nret : Option Nat) : Parse Name (FuncState Name) := do
  let op := match nret with
    | some 0 => RetOp.return0
    | some 1 => RetOp.return1
    | _ => RetOp.return
  let (fs, _) ← code fs (.ret op first (match nret with | some n => n + 1 | none => 0) 0 false)
  .ok fs

/-- `finaltarget`: at most `k` jumps are followed. -/
def finaltarget (ins : List Instr) : Nat → Int → Int
  | 0, i => i
  | k + 1, i =>
    match ins[i.toNat]? with
    | some (.jmp sj) => finaltarget ins k (i + sj + 1)
    | _ => i

/-- What `luaK_finish` does to an instruction that leaves the function. -/
def finishRet (fs : FuncState Name) (op : RetOp) (a b c : Nat) (k : Bool) : Instr :=
  let op' := if (op = .return0 ∨ op = .return1) ∧ (fs.needclose ∨ fs.f.isVararg) then .return else op
  if op' = .return ∨ op' = .tailcall then
    .ret op' a b (if fs.f.isVararg then fs.f.numparams + 1 else c) (k || fs.needclose)
  else .ret op' a b c k

/-- The loop of `luaK_finish`, with `k` instructions to go. -/
def finishFrom (fs : FuncState Name) : Nat → List Instr → Parse Name (List Instr)
  | 0, ins => .ok ins
  | k + 1, ins =>
    let i := fs.f.code.length - (k + 1)
    match ins[i]? with
    | some (.ret op a b d kk) => finishFrom fs k (ins.set i (finishRet fs op a b d kk))
    | some (.jmp _) => do finishFrom fs k (← fixjump ins i (finaltarget ins 100 i).toNat)
    | _ => finishFrom fs k ins

/-- `luaK_finish`. -/
def finish (fs : FuncState Name) : Parse Name (FuncState Name) := do
  let c ← finishFrom fs fs.f.code.length fs.f.code
  .ok { fs with f := { fs.f with code := c } }

end

end Tsuki.Parser
