import Tsuki.Parser.State

/-!
# Local variables and upvalues

From `new_localvar` to `singlevar`. The function being compiled is the head of the list a function recurses
over, the functions around it are the tail. Registers, indices and counters are natural numbers: the limits of
200 locals and 255 upvalues keep those of the source below 256.
-/

namespace Tsuki.Parser

/-- The kinds of `expdesc` that name resolution makes. -/
inductive Expdesc
  | void
  | local (ridx vidx : Nat)
  | upval (info : Nat)
  | const (info : Nat)
  deriving DecidableEq, Repr

/-- What `singlevar` leaves: a variable, or the field `key` of the table in variable `t`. -/
inductive VarExp (Name : Type)
  | var (e : Expdesc)
  | indexed (t : Expdesc) (key : Name)
  deriving DecidableEq, Repr

variable {Name : Type} [DecidableEq Name]

/-- The array with slot `i` written. -/
def Actvar.set (av : Actvar Name) (i : Nat) (vd : Vardesc Name) : Actvar Name :=
  { av with arr := fun j => if j = i then vd else av.arr j }

def getlocalvardesc (av : Actvar Name) (fs : FuncState Name) (vidx : Nat) : Vardesc Name :=
  av.arr (fs.firstlocal + vidx)

def reglevel (av : Actvar Name) (fs : FuncState Name) : Nat → Nat
  | 0 => 0
  | nvar + 1 =>
    let vd := getlocalvardesc av fs nvar
    if vd.kind ≠ .ctc then vd.ridx + 1 else reglevel av fs nvar

/-- `luaY_nvarstack`. -/
def nvarstack (ls : LexState Name) : Nat := reglevel ls.actvar ls.fs ls.fs.nactvar

/-- `new_localvar`, with the attribute the caller stores next. -/
def newLocalvar (ls : LexState Name) (name : Name) (kind : VarKind) : Parse Name (LexState Name) := do
  checklimit ls.fs (ls.actvar.n + 1 - ls.fs.firstlocal) 200 "local variables"
  growaux (ls.actvar.n + 1) 32767 "local variables"
  let av := ls.actvar.set ls.actvar.n { ls.actvar.arr ls.actvar.n with name := name, kind := kind }
  .ok { ls with actvar := { av with n := ls.actvar.n + 1 } }

/-- `registerlocalvar`, which only counts here. -/
def registerlocalvar (fs : FuncState Name) : Parse Name (FuncState Name) := do
  growaux fs.ndebugvars 32767 "local variables"
  .ok { fs with ndebugvars := fs.ndebugvars + 1 }

/-- The loop of `adjustlocalvars`, with the register the next variable gets. -/
def adjustFrom : Nat → Nat → LexState Name → Parse Name (LexState Name)
  | 0, _, ls => .ok ls
  | k + 1, reg, ls => do
    let vd := getlocalvardesc ls.actvar ls.fs ls.fs.nactvar
    let av := ls.actvar.set (ls.fs.firstlocal + ls.fs.nactvar) { vd with ridx := reg }
    let fs ← registerlocalvar { ls.fs with nactvar := ls.fs.nactvar + 1 }
    adjustFrom k (reg + 1) { ls with actvar := av, fs := fs }

def adjustlocalvars (ls : LexState Name) (nvars : Nat) : Parse Name (LexState Name) :=
  adjustFrom nvars (nvarstack ls) ls

def removevars (ls : LexState Name) (tolevel : Nat) : LexState Name :=
  { ls with
    actvar := { ls.actvar with n := ls.actvar.n - (ls.fs.nactvar - tolevel) }
    fs := { ls.fs with nactvar := tolevel } }

def searchupvalue (fs : FuncState Name) (name : Name) : Option Nat :=
  fs.f.upvalues.findIdx? (·.name = name)

/-- `newupvalue` with `allocupvalue`; `prev` is the enclosing function. -/
def newupvalue (av : Actvar Name) (fs prev : FuncState Name) (name : Name) (v : Expdesc) :
    Parse Name (FuncState Name × Nat) := do
  checklimit fs (fs.f.upvalues.length + 1) 255 "upvalues"
  growaux fs.f.upvalues.length 255 "upvalues"
  let up : Upvaldesc Name := match v with
    | .local ridx vidx => ⟨name, true, ridx, (getlocalvardesc av prev vidx).kind⟩
    | .upval info => ⟨name, false, info, ((prev.f.upvalues[info]?).map (·.kind)).getD .regular⟩
    | .void => ⟨name, false, 0, .regular⟩
    | .const info => ⟨name, false, info, .regular⟩
  .ok ({ fs with f := { fs.f with upvalues := fs.f.upvalues ++ [up] } }, fs.f.upvalues.length)

/-- The loop of `searchvar` over the active variables below `i`. -/
def searchvar (av : Actvar Name) (fs : FuncState Name) (n : Name) : Nat → Option Expdesc
  | 0 => none
  | i + 1 =>
    let vd := getlocalvardesc av fs i
    if n = vd.name then
      if vd.kind = .ctc then some (.const (fs.firstlocal + i)) else some (.local vd.ridx i)
    else searchvar av fs n i

/-- The loop of `markupval` over the blocks of a function; the outermost block has no variable outside it, so
the loop ends before the list does. -/
def markBlocks (level : Nat) : List BlockCnt → List BlockCnt
  | [] => []
  | bl :: rest => if bl.nactvar > level then bl :: markBlocks level rest else { bl with upval := true } :: rest

def markupval (fs : FuncState Name) (level : Nat) : FuncState Name :=
  { fs with bl := markBlocks level fs.bl, needclose := true }

def marktobeclosed (fs : FuncState Name) : FuncState Name :=
  match fs.bl with
  | [] => { fs with needclose := true }
  | bl :: rest => { fs with bl := { bl with upval := true, insidetbc := true } :: rest, needclose := true }

/-- `singlevaraux` in the function at the head of the list, `base` where it is the one being compiled. -/
def singlevaraux (av : Actvar Name) (n : Name) :
    List (FuncState Name) → Bool → Parse Name (List (FuncState Name) × Expdesc)
  | [], _ => .ok ([], .void)
  | fs :: prev, base =>
    match searchvar av fs n fs.nactvar with
    | some (.local ridx vidx) =>
      .ok ((if base then fs else markupval fs vidx) :: prev, .local ridx vidx)
    | some v => .ok (fs :: prev, v)
    | none =>
      match searchupvalue fs n with
      | some idx => .ok (fs :: prev, .upval idx)
      | none => do
        let (prev', v) ← singlevaraux av n prev false
        match prev', v with
        | p :: _, .local .. | p :: _, .upval _ =>
          let (fs', idx) ← newupvalue av fs p n v
          .ok (fs' :: prev', .upval idx)
        | _, _ => .ok (fs :: prev', v)

/-- The parser with the chain of functions replaced. -/
def LexState.withChain (ls : LexState Name) : List (FuncState Name) → LexState Name
  | [] => ls
  | fs :: prev => { ls with fs := fs, prev := prev }

/-- `singlevar` for the name `varname`. -/
def singlevar (ls : LexState Name) (varname : Name) : Parse Name (LexState Name × VarExp Name) := do
  let (chain, var) ← singlevaraux ls.actvar varname (ls.fs :: ls.prev) true
  let ls := ls.withChain chain
  if var = .void then
    let (chain, env) ← singlevaraux ls.actvar ls.envn (ls.fs :: ls.prev) true
    .ok (ls.withChain chain, .indexed env varname)
  else .ok (ls, .var var)

end Tsuki.Parser
