import Tsuki.Parser.Labels

/-!
# Lexical scopes

What the parser does, as far as scopes, labels and gotos go, is a sequence of calls; an `Event` is one of them
and `run` makes them one after the other. The other side is lexical scoping as the language defines it: a
stack of functions, in each a stack of blocks, in each the declarations made so far. A name means the
innermost declaration of that name.
-/

namespace Tsuki.Parser

/-- The calls a statement or an expression makes. -/
inductive Event (Name : Type)
  | newLocal (name : Name) (kind : VarKind)
  | adjust (nvars : Nat)
  | localEnd (nvars : Nat) (isconst : Bool) (toclose : Option Nat)
  | markTbc
  | parlistEnd (nparams : Nat) (isvararg : Bool)
  | name (n : Name)
  | emit (i : Instr)
  | enter (isloop : Bool)
  | leave
  | repeatExit
  | goto (name : Name) (line : Nat)
  | brk (line : Nat)
  | label (name : Name) (line : Nat) (last : Bool)
  | body (line : Nat)
  | bodyEnd

variable {Name : Type} [DecidableEq Name]

/-- One call. -/
def step (ls : LexState Name) : Event Name → Parse Name (LexState Name)
  | .newLocal name kind => newLocalvar ls name kind
  | .adjust nvars => adjustlocalvars ls nvars
  | .localEnd nvars isconst toclose => localend ls nvars isconst toclose
  | .markTbc => .ok { ls with fs := marktobeclosed ls.fs }
  | .parlistEnd nparams isvararg => parlistend ls nparams isvararg
  | .name n => (singlevar ls n).map Prod.fst
  | .emit i => (code ls.fs i).map fun r => { ls with fs := r.1 }
  | .enter isloop => .ok (enterblock ls isloop)
  | .leave => leaveblock ls
  | .repeatExit => repeatexit ls
  | .goto name line => gotostat ls name line
  | .brk line => breakstat ls line
  | .label name line last => labelstat ls name line last
  | .body line => bodystart ls line
  | .bodyEnd => bodyend ls

/-- The calls one after the other. -/
def run (ls : LexState Name) : List (Event Name) → Parse Name (LexState Name)
  | [] => .ok ls
  | e :: es => do run (← step ls e) es

/-! ## Scopes -/

/-- A declaration; `captured` once a function inside its own refers to it. -/
structure Decl (Name : Type) where
  name : Name
  kind : VarKind
  captured : Bool
  deriving DecidableEq, Repr

/-- The declarations of an open function: those not in force yet, the oldest first, and those of each open
block, the innermost block and in it the latest declaration first. -/
structure Scope (Name : Type) where
  pending : List (Decl Name)
  blocks : List (List (Decl Name))

/-- The declarations in force in a function, the latest first. -/
def Scope.decls (sc : Scope Name) : List (Decl Name) := sc.blocks.flatten

/-- The registers that declarations take: one each, but none for a compile-time constant. -/
def regs (ds : List (Decl Name)) : Nat := ds.countP (·.kind ≠ .ctc)

/-- The latest declaration of a name, with those older than it. -/
def find (n : Name) : List (Decl Name) → Option (Decl Name × List (Decl Name))
  | [] => none
  | d :: ds => if d.name = n then some (d, ds) else find n ds

/-- The innermost declaration of a name: how many functions out it is, the declaration, and the older ones of
its function. -/
def resolve (n : Name) : List (Scope Name) → Option (Nat × Decl Name × List (Decl Name))
  | [] => none
  | sc :: scs =>
    match find n sc.decls with
    | some (d, older) => some (0, d, older)
    | none => (resolve n scs).map fun r => (r.1 + 1, r.2)

/-- The latest declaration of `n` is captured, unless it is a compile-time constant. -/
def capture (n : Name) : List (Decl Name) → List (Decl Name)
  | [] => []
  | d :: ds =>
    if d.name = n then (if d.kind = .ctc then d else { d with captured := true }) :: ds else d :: capture n ds

/-- The same in the blocks of a function. -/
def captureBlocks (n : Name) : List (List (Decl Name)) → List (List (Decl Name))
  | [] => []
  | b :: bs => if (find n b).isSome then capture n b :: bs else b :: captureBlocks n bs

/-- An occurrence of `n` in a function inside these captures the innermost declaration. -/
def captureOuter (n : Name) : List (Scope Name) → List (Scope Name)
  | [] => []
  | sc :: scs =>
    if (find n sc.decls).isSome then { sc with blocks := captureBlocks n sc.blocks } :: scs
    else sc :: captureOuter n scs

/-- An occurrence of `n` in the first function. -/
def occur (n : Name) : List (Scope Name) → List (Scope Name)
  | [] => []
  | sc :: scs => if (find n sc.decls).isSome then sc :: scs else sc :: captureOuter n scs

/-- The first `m` pending declarations come into force. -/
def Scope.activate (sc : Scope Name) (m : Nat) : Scope Name :=
  { pending := sc.pending.drop m
    blocks := match sc.blocks with
      | [] => []
      | b :: bs => ((sc.pending.take m).reverse ++ b) :: bs }

/-- The last pending declaration is a compile-time constant. -/
def Scope.foldLast (sc : Scope Name) : Scope Name :=
  { sc with pending := sc.pending.modify (sc.pending.length - 1) ({ · with kind := .ctc }) }

/-- What an event does to the scopes, where the parser can make it: no variable comes into force that is not
declared, a block or function that ends is open and has no declaration pending, and the main function stays
open. -/
def scopeStep (envn : Name) (scs : List (Scope Name)) (e : Event Name) : Option (List (Scope Name)) :=
  match scs with
  | [] => none
  | sc :: scs =>
    match e with
    | .newLocal name kind =>
      if kind = .ctc then none else some ({ sc with pending := sc.pending ++ [⟨name, kind, false⟩] } :: scs)
    | .adjust nvars => if nvars ≤ sc.pending.length then some (sc.activate nvars :: scs) else none
    | .localEnd nvars isconst toclose =>
      if nvars = sc.pending.length ∧ 0 < nvars ∧ ∀ t ∈ toclose, t < nvars then
        some ((if isconst then sc.foldLast else sc).activate nvars :: scs)
      else none
    | .parlistEnd nparams _ =>
      if nparams ≤ sc.pending.length then some (sc.activate nparams :: scs) else none
    | .name n =>
      if resolve n (sc :: scs) = none ∧ n ≠ envn then some (occur envn (sc :: scs))
      else some (occur n (sc :: scs))
    | .enter _ => some ({ sc with blocks := [] :: sc.blocks } :: scs)
    | .leave | .repeatExit =>
      match sc.pending, sc.blocks with
      | [], _ :: b :: bs => some (⟨[], b :: bs⟩ :: scs)
      | _, _ => none
    | .body _ => some (⟨[], [[]]⟩ :: sc :: scs)
    | .bodyEnd =>
      match sc.pending, sc.blocks, scs with
      | [], [_], outer :: scs => some (outer :: scs)
      | _, _, _ => none
    | .markTbc | .emit _ | .goto .. | .brk _ | .label .. => some (sc :: scs)

/-- The scopes after a sequence of events. -/
def scopeRun (envn : Name) (scs : List (Scope Name)) : List (Event Name) → Option (List (Scope Name))
  | [] => some scs
  | e :: es => (scopeStep envn scs e).bind (scopeRun envn · es)

end Tsuki.Parser
