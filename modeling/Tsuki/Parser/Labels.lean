import Tsuki.Parser.Vars

/-!
# Blocks, labels and gotos

From `solvegoto` to `close_func`, and the statements that jump. The pending gotos of all open functions are in
one list, and so are the labels; a block remembers where its own begin.
-/

namespace Tsuki.Parser

variable {Name : Type} [DecidableEq Name]

/-- Room for one more label or goto, and `newlabelentry`. -/
def newlabelentry (fs : FuncState Name) (l : List (Labeldesc Name)) (name : Name) (line pc : Nat) :
    Parse Name (List (Labeldesc Name)) := do
  growaux l.length 32767 "labels/gotos"
  .ok (l ++ [⟨name, pc, line, fs.nactvar, false⟩])

def newgotoentry (ls : LexState Name) (name : Name) (line pc : Nat) : Parse Name (LexState Name) := do
  let gt ← newlabelentry ls.fs ls.gt name line pc
  .ok { ls with gt := gt }

/-- `findlabel`, among the labels of the function from `firstlabel` on. -/
def findlabel (ls : LexState Name) (name : Name) : Option (Labeldesc Name) :=
  (ls.label.drop ls.fs.firstlabel).find? (·.name = name)

/-- `solvegoto` for entry `g`; the loop that moves the later entries down is `eraseIdx`. -/
def solvegoto (ls : LexState Name) (g : Nat) (gt label : Labeldesc Name) : Parse Name (LexState Name) := do
  if gt.nactvar < label.nactvar then
    .error (.jumpsIntoScope gt.name gt.line (getlocalvardesc ls.actvar ls.fs gt.nactvar).name)
  else
    let fs ← patchlist ls.fs gt.pc label.pc
    .ok { ls with fs := fs, gt := ls.gt.eraseIdx g }

/-- The loop of `solvegotos` from entry `i` on, with `k` entries to go. -/
def solvegotosFrom (lb : Labeldesc Name) : Nat → Nat → LexState Name → Parse Name (LexState Name × Bool)
  | 0, _, ls => .ok (ls, false)
  | k + 1, i, ls =>
    match ls.gt[i]? with
    | none => .ok (ls, false)
    | some gt =>
      if gt.name = lb.name then do
        let ls ← solvegoto ls i gt lb
        let (ls, needsclose) ← solvegotosFrom lb k i ls
        .ok (ls, gt.close || needsclose)
      else solvegotosFrom lb k (i + 1) ls

/-- The innermost block of the function. -/
def FuncState.block (fs : FuncState Name) : BlockCnt := fs.bl.headD ⟨0, 0, 0, false, false, false⟩

def solvegotos (ls : LexState Name) (lb : Labeldesc Name) : Parse Name (LexState Name × Bool) :=
  solvegotosFrom lb (ls.gt.length - ls.fs.block.firstgoto) ls.fs.block.firstgoto ls

/-- `createlabel`: whether it had to emit a close. -/
def createlabel (ls : LexState Name) (name : Name) (line : Nat) (last : Bool) :
    Parse Name (LexState Name × Bool) := do
  growaux ls.label.length 32767 "labels/gotos"
  let nactvar := if last then ls.fs.block.nactvar else ls.fs.nactvar
  let lb : Labeldesc Name := ⟨name, getlabel ls.fs, line, nactvar, false⟩
  let (ls, needsclose) ← solvegotos { ls with label := ls.label ++ [lb] } lb
  if needsclose then
    let (fs, _) ← code ls.fs (.close (nvarstack ls))
    .ok ({ ls with fs := fs }, true)
  else .ok (ls, false)

/-- What `movegotosout` does to a pending goto of the block. -/
def moveGoto (av : Actvar Name) (fs : FuncState Name) (bl : BlockCnt) (gt : Labeldesc Name) : Labeldesc Name :=
  { gt with
    close := gt.close || (decide (reglevel av fs gt.nactvar > reglevel av fs bl.nactvar) && bl.upval)
    nactvar := bl.nactvar }

def movegotosout (ls : LexState Name) (bl : BlockCnt) : LexState Name :=
  { ls with
    gt := ls.gt.take bl.firstgoto ++ (ls.gt.drop bl.firstgoto).map (moveGoto ls.actvar ls.fs bl) }

def enterblock (ls : LexState Name) (isloop : Bool) : LexState Name :=
  let bl : BlockCnt :=
    { firstlabel := ls.label.length
      firstgoto := ls.gt.length
      nactvar := ls.fs.nactvar
      upval := false
      isloop := isloop
      insidetbc := ls.fs.bl.head?.any (·.insidetbc) }
  { ls with fs := { ls.fs with bl := bl :: ls.fs.bl } }

def undefgoto (ls : LexState Name) (gt : Labeldesc Name) : ParseError Name :=
  if gt.name = ls.breakn then .breakOutsideLoop gt.line else .noVisibleLabel gt.name gt.line

def leaveblock (ls : LexState Name) : Parse Name (LexState Name) := do
  let bl := ls.fs.block
  let previous := ls.fs.bl.tail
  let stklevel := reglevel ls.actvar ls.fs bl.nactvar
  let ls := removevars ls bl.nactvar
  let (ls, hasclose) ← if bl.isloop then createlabel ls ls.breakn 0 false else .ok (ls, false)
  let ls ← if !hasclose && !previous.isEmpty && ls.fs.block.upval then do
      let (fs, _) ← code ls.fs (.close stklevel)
      .ok { ls with fs := fs }
    else .ok ls
  let ls := { ls with label := ls.label.take bl.firstlabel, fs := { ls.fs with bl := previous } }
  if !previous.isEmpty then .ok (movegotosout ls bl)
  else
    match ls.gt[bl.firstgoto]? with
    | some gt => .error (undefgoto ls gt)
    | none => .ok ls

/-- `open_func` for a function that begins on line `line`, with the `FuncState` of the caller. -/
def openfunc (ls : LexState Name) (line : Nat) (prev : List (FuncState Name)) : LexState Name :=
  let fs : FuncState Name :=
    { f := ⟨line, 0, false, [], [], []⟩
      bl := []
      firstlocal := ls.actvar.n
      firstlabel := ls.label.length
      ndebugvars := 0
      nactvar := 0
      needclose := false }
  enterblock { ls with fs := fs, prev := prev } false

/-- `close_func`, before the function around it is current again. -/
def closefunc (ls : LexState Name) : Parse Name (LexState Name) := do
  let fs ← ret ls.fs (nvarstack ls) (some 0)
  let ls ← leaveblock { ls with fs := fs }
  let fs ← finish ls.fs
  .ok { ls with fs := fs }

/-! ## Statements that jump -/

def gotostat (ls : LexState Name) (name : Name) (line : Nat) : Parse Name (LexState Name) :=
  match findlabel ls name with
  | none => do
    let (fs, pc) ← jump ls.fs
    newgotoentry { ls with fs := fs } name line pc
  | some lb => do
    let lblevel := reglevel ls.actvar ls.fs lb.nactvar
    let fs ← if nvarstack ls > lblevel then do
        let (fs, _) ← code ls.fs (.close lblevel)
        .ok fs
      else .ok ls.fs
    let (fs, pc) ← jump fs
    let fs ← patchlist fs pc lb.pc
    .ok { ls with fs := fs }

def breakstat (ls : LexState Name) (line : Nat) : Parse Name (LexState Name) := do
  let (fs, pc) ← jump ls.fs
  newgotoentry { ls with fs := fs } ls.breakn line pc

def checkrepeated (ls : LexState Name) (name : Name) : Parse Name Unit :=
  match findlabel ls name with
  | some lb => .error (.labelAlreadyDefined name lb.line)
  | none => .ok ()

/-- The end of `labelstat`; `last` is `block_follow(ls, 0)`. -/
def labelstat (ls : LexState Name) (name : Name) (line : Nat) (last : Bool) : Parse Name (LexState Name) := do
  checkrepeated ls name
  let (ls, _) ← createlabel ls name line last
  .ok ls

/-- The end of `repeatstat` after its condition. The jumps of the condition itself and their way back to the
start of the loop are left to the code generator; `exit` is the jump around the close. -/
def repeatexit (ls : LexState Name) : Parse Name (LexState Name) := do
  let bl2 := ls.fs.block
  let upval := bl2.upval
  let ls ← leaveblock ls
  if upval then
    let (fs, exit) ← jump ls.fs
    let (fs, _) ← code fs (.close (reglevel ls.actvar fs bl2.nactvar))
    let (fs, _) ← jump fs
    let fs ← patchtohere fs exit
    .ok { ls with fs := fs }
  else .ok ls

/-- `checktoclose` for the variable `level`. -/
def checktoclose (ls : LexState Name) (level : Nat) : Parse Name (LexState Name) := do
  let fs := marktobeclosed ls.fs
  let (fs, _) ← code fs (.tbc (reglevel ls.actvar fs level))
  .ok { ls with fs := fs }

/-- The end of `localstat`, with `nvars` variables declared and the expressions compiled: `isconst` where the
last variable turns out to be a compile-time constant, `toclose` the place of the variable to close. -/
def localend (ls : LexState Name) (nvars : Nat) (isconst : Bool) (toclose : Option Nat) :
    Parse Name (LexState Name) := do
  let level := toclose.map (ls.fs.nactvar + ·)
  let ls ← if isconst then do
      let var := ls.actvar.arr (ls.actvar.n - 1)
      let ls := { ls with actvar := ls.actvar.set (ls.actvar.n - 1) { var with kind := .ctc } }
      let ls ← adjustlocalvars ls (nvars - 1)
      .ok { ls with fs := { ls.fs with nactvar := ls.fs.nactvar + 1 } }
    else adjustlocalvars ls nvars
  match level with
  | some level => checktoclose ls level
  | none => .ok ls

/-- The end of `parlist`. -/
def parlistend (ls : LexState Name) (nparams : Nat) (isvararg : Bool) : Parse Name (LexState Name) := do
  let ls ← adjustlocalvars ls nparams
  let fs := { ls.fs with f := { ls.fs.f with numparams := ls.fs.nactvar } }
  if isvararg then
    let (fs, _) ← code { fs with f := { fs.f with isVararg := true } } (.varargprep fs.nactvar)
    .ok { ls with fs := fs }
  else .ok { ls with fs := fs }

/-- The start of `body`, with `addprototype` and `open_func`. -/
def bodystart (ls : LexState Name) (line : Nat) : Parse Name (LexState Name) := do
  growaux ls.fs.f.p.length 131071 "functions"
  .ok (openfunc ls line (ls.fs :: ls.prev))

/-- The end of `body`: `codeclosure` in the function around this one, then `close_func`, and that function is
current again, with the new prototype. -/
def bodyend (ls : LexState Name) : Parse Name (LexState Name) :=
  match ls.prev with
  | [] => closefunc ls
  | outer :: prev => do
    let (outer, _) ← code outer (.closure outer.f.p.length)
    let ls ← closefunc { ls with prev := outer :: prev }
    .ok { ls with fs := { outer with f := { outer.f with p := outer.f.p ++ [ls.fs.f] } }, prev := prev }

/-- `mainfunc` up to its statements, in a fresh `LexState`. -/
def mainfunc (envn breakn : Name) : Parse Name (LexState Name) := do
  let av : Actvar Name := ⟨fun _ => ⟨envn, .regular, 0⟩, 0⟩
  let fs : FuncState Name := ⟨⟨0, 0, false, [], [], []⟩, [], 0, 0, 0, 0, false⟩
  let ls := openfunc ⟨envn, breakn, av, [], [], fs, []⟩ 0 []
  let (fs, _) ← code { ls.fs with f := { ls.fs.f with isVararg := true } } (.varargprep 0)
  let env : Upvaldesc Name := ⟨envn, true, 0, .regular⟩
  .ok { ls with fs := { fs with f := { fs.f with upvalues := [env] } } }

end Tsuki.Parser
