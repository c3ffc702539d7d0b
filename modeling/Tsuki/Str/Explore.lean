import Tsuki.Str.Match
import Mathlib.Data.List.Basic

/-!
# What the matcher tries, in order

`explore` lists the outcomes of the alternatives of a match in the order the matcher tries them: a match of the
whole pattern, an error, or a hazard, which is a place where the source indexes past the end of the subject,
converts a negative length or overflows a counter. The matcher stops at the first outcome (`match0_eq`).
-/

namespace Tsuki.Str

/-- The places where the matcher panics. -/
inductive Hazard
  /-- `%b` with the subject exhausted. -/
  | balance
  /-- `%b` with more than `i32::MAX` open delimiters. -/
  | nesting
  /-- `%f` with the subject exhausted and the previous character outside the set. -/
  | frontier
  /-- A back reference to a position capture. -/
  | reference
  deriving DecidableEq, Repr

/-- The outcome of one alternative. `zero` says that a `+` item took no character in it. -/
inductive Event
  | found (off : Nat) (cap : Captures) (zero : Bool)
  | fault (text : String)
  | hazard (h : Hazard)
  deriving DecidableEq, Repr

/-- The alternatives of a call, in the order they are tried. -/
abbrev Explorer := Captures → Nat → Bytes → List Event

/-- The result of a call with captures `cap`, given its alternatives. -/
def firstOutcome (cap : Captures) : List Event → Rust (Option Nat × Captures)
  | [] => .ok (none, cap)
  | .found off cap _ :: _ => .ok (some off, cap)
  | .fault text :: _ => .error (.msg text)
  | .hazard _ :: _ => .error .panic

/-- The alternative is one in which a `+` item takes no character. -/
def Event.zeroPlus : Event → Event
  | .found off cap _ => .found off cap true
  | e => e

/-- The alternative is no match. -/
def Event.stops : Event → Prop
  | .found .. => False
  | _ => True

/-- The single-character item at the start of `p`, of length `ep`, matches `c`. -/
def itemTest (p : Bytes) (ep : Nat) (c : UInt8) : Bool := singlematch [c] 0 p ep matches .ok true

/-- How many characters in a row from `off` on match the item at the start of `p`. -/
def hits (src : Bytes) (off : Nat) (p : Bytes) (ep : Nat) : Nat :=
  ((src.drop off).takeWhile (itemTest p ep)).length

/-- The character before `off`, and 0 at the start. -/
def previous (src : Bytes) (off : Nat) : UInt8 := if off = 0 then 0 else src.getD (off - 1) 0

/-- The set at the start of `p`, of length `ep`, has the character `c`. -/
def setTest (p : Bytes) (ep : Nat) (c : UInt8) : Bool := matchbracketclass c p (ep - 1) matches .ok true

section

variable (src : Bytes)

/-- The alternatives of `start_capture`. -/
def exploreStart (rec : Explorer) (cap : Captures) (off : Nat) (p : Bytes) (what : Int) : List Event :=
  if cap.length ≥ 32 then [.fault "too many captures"] else rec (cap ++ [⟨off, what⟩]) off p

/-- The alternatives of `end_capture`. -/
def exploreEnd (rec : Explorer) (cap : Captures) (off : Nat) (p : Bytes) : List Event :=
  match captureToClose cap with
  | .ok l => rec (cap.modify l fun c => ⟨c.off, (off - c.off : Nat)⟩) off p
  | .error _ => [.fault "invalid pattern capture"]

/-- Where the matcher goes on after `%b`; `none` where it gives up. -/
def exploreBalance (off : Nat) (p : Bytes) : Event ⊕ Option Nat :=
  match p with
  | [] => .inl (.fault "malformed pattern (missing arguments to '%b')")
  | first :: rest =>
    match src[off]? with
    | none => .inl (.hazard .balance)
    | some c =>
      if c ≠ first then .inr none
      else
        match balanceLoop src first rest.head? off 1 with
        | .ok r => .inr r
        | .error _ => .inl (.hazard .nesting)

/-- Whether the matcher goes on after the set of `%f`. -/
def exploreFrontier (off : Nat) (p : Bytes) (ep : Nat) : Event ⊕ Bool :=
  if setTest p ep (previous src off) then .inr false
  else
    match src[off]? with
    | none => .inl (.hazard .frontier)
    | some c => .inr (setTest p ep c)

/-- Where the matcher goes on after a back reference. -/
def exploreReference (cap : Captures) (off : Nat) (l : UInt8) : Event ⊕ Option Nat :=
  match checkCapture cap l with
  | .error _ => .inl (.fault ("invalid capture index %" ++ toString ((l.toNat : Int) - 49 + 1)))
  | .ok i =>
    match cap[i]? with
    | none => .inr none
    | some c =>
      if c.len < 0 then .inl (.hazard .reference)
      else if (src.drop off).take c.len.toNat = (src.drop c.off).take c.len.toNat then
        .inr (some (off + c.len.toNat))
      else .inr none

/-- The alternatives for a single-character item of length `ep` and its quantifier; `loop` goes on in the same
call of `match_0`, `rec` is a call of its own. -/
def exploreSingle (rec : Explorer) (loop : Nat → Bytes → List Event) (cap : Captures) (off : Nat) (p : Bytes)
    (ep : Nat) : List Event :=
  let m := hits src off p ep
  let q := p[ep]?
  let rest := p.drop (ep + 1)
  if q = some (byte '?') then (if 0 < m then rec cap (off + 1) rest else []) ++ loop off rest
  else if q = some (byte '+') then
    if 0 < m then
      (List.range m).reverse.flatMap (fun i => rec cap (off + (i + 1)) rest) ++
        (rec cap off rest).map Event.zeroPlus
    else []
  else if q = some (byte '*') then
    if 0 < m then (List.range (m + 1)).reverse.flatMap fun i => rec cap (off + i) rest else loop off rest
  else if q = some (byte '-') then
    if 0 < m then (List.range (m + 1)).flatMap fun i => rec cap (off + i) rest else loop off rest
  else if 0 < m then loop (off + 1) (p.drop ep)
  else []

/-- The alternatives for a single-character item at the start of `p`. -/
def exploreItem (rec : Explorer) (loop : Nat → Bytes → List Event) (cap : Captures) (off : Nat) (p : Bytes) :
    List Event :=
  match classend p with
  | .error (.msg text) => [.fault text]
  | .error _ => []
  | .ok ep => exploreSingle src rec loop cap off p ep

end

section

variable (src : Bytes)

/-- The alternatives of the loop of `match_0`, `n` bounding the length of the pattern. -/
def exploreLoop (rec : Explorer) (cap : Captures) : Nat → Nat → Bytes → List Event
  | _, off, [] => [.found off cap false]
  | 0, _, _ => []
  | n + 1, off, first :: rest =>
    if first = byte '(' then
      if rest.head? = some (byte ')') then exploreStart rec cap off rest.tail (-2)
      else exploreStart rec cap off rest (-1)
    else if first = byte ')' then exploreEnd rec cap off rest
    else if first = byte '$' ∧ rest = [] then if off = src.length then [.found off cap false] else []
    else if first = byte '%' then
      match rest with
      | [] => exploreItem src rec (exploreLoop rec cap n) cap off (first :: rest)
      | c :: args =>
        if c = byte 'b' then
          match exploreBalance src off args with
          | .inl e => [e]
          | .inr none => []
          | .inr (some v) => exploreLoop rec cap n v (args.drop 2)
        else if c = byte 'f' then
          if args.head? ≠ some (byte '[') then [.fault "missing '[' after '%f' in pattern"]
          else
            match classend args with
            | .error (.msg text) => [.fault text]
            | .error _ => []
            | .ok ep =>
              match exploreFrontier src off args ep with
              | .inl e => [e]
              | .inr false => []
              | .inr true => exploreLoop rec cap n off (args.drop ep)
        else if isAsciiDigit c then
          match exploreReference src cap off c with
          | .inl e => [e]
          | .inr none => []
          | .inr (some v) => exploreLoop rec cap n v args
        else exploreItem src rec (exploreLoop rec cap n) cap off (first :: rest)
    else exploreItem src rec (exploreLoop rec cap n) cap off (first :: rest)

@[simp] theorem exploreLoop_nil (rec : Explorer) (cap : Captures) (n off : Nat) :
    exploreLoop src rec cap n off [] = [.found off cap false] := by
  cases n <;> rfl

/-- The alternatives of `match_0` with `matchdepth` levels left. -/
def explore : Nat → Explorer
  | 0 => fun _ _ _ => [.fault "pattern too complex"]
  | d + 1 => fun cap off p => exploreLoop src (explore d) cap p.length off p

end

end Tsuki.Str
