import Tsuki.Str.Match

/-!
# Lua patterns

The syntax of patterns and what a pattern means, independent of the matcher. A pattern is a list of items;
`denote` lists its matches from an offset in order of priority: `*`, `+` and `?` take as many characters as they
can first, `-` as few as it can. The character before the subject and the one after it are 0.
-/

namespace Tsuki.Str.Pattern

/-! ## Syntax -/

inductive SetItem
  | one (c : UInt8)
  | range (lo hi : UInt8)
  | cls (c : UInt8)
  deriving DecidableEq, Repr

/-- An item that matches one character; `cls c` is `%c`. -/
inductive Single
  | any
  | lit (c : UInt8)
  | cls (c : UInt8)
  | set (neg : Bool) (items : List SetItem)
  deriving DecidableEq, Repr

inductive Quant
  | once
  | star
  | plus
  | minus
  | opt
  deriving DecidableEq, Repr

inductive Item
  | single (s : Single) (q : Quant)
  | openCap
  | posCap
  | closeCap
  | back (k : Nat)
  | balance (x y : UInt8)
  | frontier (neg : Bool) (items : List SetItem)
  | endAnchor
  deriving DecidableEq, Repr

/-! ## Parsing -/

def isLetter (c : UInt8) : Bool := 65 ≤ c && c ≤ 90 || 97 ≤ c && c ≤ 122

def isDigit (c : UInt8) : Bool := 48 ≤ c && c ≤ 57

/-- The lower-case class letters. -/
def classLetters : Bytes := ['a', 'c', 'd', 'g', 'l', 'p', 's', 'u', 'w', 'x'].map byte

/-- `%c` has a meaning: `c` is a class letter in either case, or neither a letter nor a digit. -/
def escapable (c : UInt8) : Bool :=
  !(isLetter c || isDigit c) || c ∈ classLetters || c + 32 ∈ classLetters

/-- The first item of a set and what follows it. A range does not end in an escape. -/
def parseSetItem : Bytes → Option (SetItem × Bytes)
  | [] => none
  | c :: p =>
    if c = byte '%' then
      match p with
      | [] => none
      | d :: p => if escapable d then some (.cls d, p) else none
    else
      match p with
      | d :: hi :: q =>
        if d = byte '-' ∧ hi ≠ byte ']' then
          if hi = byte '%' then none else some (.range c hi, q)
        else some (.one c, p)
      | _ => some (.one c, p)

/-- The items of a set and what follows its closing bracket, `n` bounding the length. A closing bracket that comes
first is a character of the set. -/
def parseSet : Nat → Bytes → Option (List SetItem × Bytes)
  | 0, _ => none
  | n + 1, p =>
    match parseSetItem p with
    | none => none
    | some (it, p) =>
      if p.head? = some (byte ']') then some ([it], p.tail)
      else (parseSet n p).map fun (items, rest) => (it :: items, rest)

/-- A set, `p` after its opening bracket. -/
def parseBracket (p : Bytes) : Option (Bool × List SetItem × Bytes) :=
  if p.head? = some (byte '^') then (parseSet p.length p.tail).map fun r => (true, r)
  else (parseSet p.length p).map fun r => (false, r)

/-- A single-character item and the quantifier after it. -/
def quantified (s : Single) (p : Bytes) : Item × Bytes :=
  if p.head? = some (byte '?') then (.single s .opt, p.tail)
  else if p.head? = some (byte '+') then (.single s .plus, p.tail)
  else if p.head? = some (byte '*') then (.single s .star, p.tail)
  else if p.head? = some (byte '-') then (.single s .minus, p.tail)
  else (.single s .once, p)

/-- The item after `%`. -/
def parseEscape : Bytes → Option (Item × Bytes)
  | [] => none
  | c :: p =>
    if c = byte 'b' then
      match p with
      | x :: y :: p => some (.balance x y, p)
      | _ => none
    else if c = byte 'f' then
      if p.head? = some (byte '[') then
        (parseBracket p.tail).map fun (neg, items, rest) => (.frontier neg items, rest)
      else none
    else if isDigit c then if c = byte '0' then none else some (.back (c.toNat - 49), p)
    else if escapable c then some (quantified (.cls c) p)
    else none

/-- The first item of a pattern and what follows it. -/
def parseItem : Bytes → Option (Item × Bytes)
  | [] => none
  | c :: p =>
    if c = byte '(' then if p.head? = some (byte ')') then some (.posCap, p.tail) else some (.openCap, p)
    else if c = byte ')' then some (.closeCap, p)
    else if c = byte '$' ∧ p = [] then some (.endAnchor, [])
    else if c = byte '%' then parseEscape p
    else if c = byte '[' then
      (parseBracket p).map fun (neg, items, rest) => quantified (.set neg items) rest
    else if c = byte '.' then some (quantified .any p)
    else some (quantified (.lit c) p)

/-- The items of a pattern, `n` bounding its length. -/
def parseItems : Nat → Bytes → Option (List Item)
  | 0, p => if p = [] then some [] else none
  | n + 1, p =>
    if p = [] then some []
    else
      match parseItem p with
      | none => none
      | some (it, rest) => (parseItems n rest).map (it :: ·)

/-- A pattern, without the anchor `^`. -/
def parse (p : Bytes) : Option (List Item) := parseItems p.length p

/-! ## Captures -/

inductive Capture
  | opened (start : Nat)
  | closed (start stop : Nat)
  | position (off : Nat)
  deriving DecidableEq, Repr

inductive Kind
  | opened
  | closed
  | position
  deriving DecidableEq, Repr

def Capture.kind : Capture → Kind
  | .opened _ => .opened
  | .closed _ _ => .closed
  | .position _ => .position

def Capture.close (off : Nat) : Capture → Option Capture
  | .opened start => some (.closed start off)
  | _ => none

/-- Close the last open capture. -/
def closeLast (off : Nat) : List Capture → Option (List Capture)
  | [] => none
  | c :: cs =>
    match closeLast off cs with
    | some cs' => some (c :: cs')
    | none => (c.close off).map (· :: cs)

def closeKind : List Kind → Option (List Kind)
  | [] => none
  | c :: cs =>
    match closeKind cs with
    | some cs' => some (c :: cs')
    | none => if c = .opened then some (.closed :: cs) else none

/-- The captures of a pattern are well formed: at most 32, every one closed once, in nested order, and referred to
only after that. -/
def wellFormed : List Kind → List Item → Bool
  | ks, [] => .opened ∉ ks
  | ks, .openCap :: items => ks.length < 32 && wellFormed (ks ++ [.opened]) items
  | ks, .posCap :: items => ks.length < 32 && wellFormed (ks ++ [.position]) items
  | ks, .closeCap :: items =>
    match closeKind ks with
    | none => false
    | some ks => wellFormed ks items
  | ks, .back k :: items => (ks[k]?.any (· ≠ .opened)) && wellFormed ks items
  | ks, _ :: items => wellFormed ks items

/-! ## Meaning -/

/-- The class `%c`: an upper-case letter is the complement of the lower-case one, and a character that is no class
letter stands for itself. -/
def escapeTest (cl c : UInt8) : Bool :=
  if cl ∈ classLetters then lower cl
  else if cl + 32 ∈ classLetters then !lower (cl + 32)
  else cl = c
where
  lower (cl : UInt8) : Bool :=
    if cl = byte 'a' then isLetter c
    else if cl = byte 'c' then c < 32 || c = 127
    else if cl = byte 'd' then isDigit c
    else if cl = byte 'g' then 32 < c && c < 127
    else if cl = byte 'l' then 97 ≤ c && c ≤ 122
    else if cl = byte 'p' then 32 < c && c < 127 && !(isLetter c || isDigit c)
    else if cl = byte 's' then c = 32 || 9 ≤ c && c ≤ 13
    else if cl = byte 'u' then 65 ≤ c && c ≤ 90
    else if cl = byte 'w' then isLetter c || isDigit c
    else isDigit c || 65 ≤ c && c ≤ 70 || 97 ≤ c && c ≤ 102

def SetItem.test (c : UInt8) : SetItem → Bool
  | .one d => d = c
  | .range lo hi => lo ≤ c && c ≤ hi
  | .cls d => escapeTest d c

def setMember (neg : Bool) (items : List SetItem) (c : UInt8) : Bool := items.any (·.test c) != neg

def Single.test (c : UInt8) : Single → Bool
  | .any => true
  | .lit d => d = c
  | .cls d => escapeTest d c
  | .set neg items => setMember neg items c

/-- How far behind the opening delimiter its balanced partner ends, `n` delimiters being open. -/
def closing (x y : UInt8) : Nat → Bytes → Option Nat
  | _, [] => none
  | n, c :: s =>
    if c = y then if n = 1 then some 1 else (closing x y (n - 1) s).map (· + 1)
    else if c = x then (closing x y (n + 1) s).map (· + 1)
    else (closing x y n s).map (· + 1)

section

variable (src : Bytes)

/-- How many characters in a row from `off` on match the item. -/
def run (s : Single) (off : Nat) : Nat := ((src.drop off).takeWhile fun c => s.test c).length

/-- The character at `off`; 0 at the end. -/
def charAt (off : Nat) : UInt8 := src.getD off 0

/-- The character before `off`; 0 at the start. -/
def charBefore (off : Nat) : UInt8 := if off = 0 then 0 else src.getD (off - 1) 0

/-- The end of the string that starts with `x` at `off` and is balanced in `x` and `y`. -/
def balanced (x y : UInt8) (off : Nat) : Option Nat :=
  if src[off]? = some x then (closing x y 1 (src.drop (off + 1))).map (off + 1 + ·) else none

/-- The captured characters, from `off` on again; the end of them. -/
def repeated (c : Option Capture) (off : Nat) : Option Nat :=
  match c with
  | some (.closed start stop) =>
    if (src.drop off).take (stop - start) = (src.drop start).take (stop - start) then some (off + (stop - start))
    else none
  | _ => none

/-- The matches of a pattern from `off` on, with the captures made before: the ends and the captures, in order of
priority. -/
def denote : List Item → Nat → List Capture → List (Nat × List Capture)
  | [], off, cap => [(off, cap)]
  | .single s q :: items, off, cap =>
    let m := run src s off
    match q with
    | .once => if 0 < m then denote items (off + 1) cap else []
    | .opt => (if 0 < m then denote items (off + 1) cap else []) ++ denote items off cap
    | .star => (List.range (m + 1)).reverse.flatMap fun i => denote items (off + i) cap
    | .plus => (List.range m).reverse.flatMap fun i => denote items (off + (i + 1)) cap
    | .minus => (List.range (m + 1)).flatMap fun i => denote items (off + i) cap
  | .openCap :: items, off, cap => denote items off (cap ++ [.opened off])
  | .posCap :: items, off, cap => denote items off (cap ++ [.position off])
  | .closeCap :: items, off, cap =>
    match closeLast off cap with
    | some cap => denote items off cap
    | none => []
  | .back k :: items, off, cap =>
    match repeated src cap[k]? off with
    | some off => denote items off cap
    | none => []
  | .balance x y :: items, off, cap =>
    match balanced src x y off with
    | some off => denote items off cap
    | none => []
  | .frontier neg set :: items, off, cap =>
    if setMember neg set (charBefore src off) = false ∧ setMember neg set (charAt src off) then
      denote items off cap
    else []
  | .endAnchor :: items, off, cap => if off = src.length then denote items off cap else []

end

end Tsuki.Str.Pattern
