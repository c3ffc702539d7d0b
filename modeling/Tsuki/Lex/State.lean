import Tsuki.Rust
import Tsuki.Lib.Utf8
import Mathlib.Data.List.TakeWhile

/-!
# The lexer state

`ls.current` and what `ls.z` still holds are one list: its head is the current byte, and the end of input
is the empty list. Reading on past the end of input would leave the source, so it is a stop of its own.
-/

namespace Tsuki.Lex

/-- The text `lexerror` puts next to its reason. -/
inductive Near
  /-- `<eof>`. -/
  | eos
  /-- What the token buffer holds, up to its first NUL. -/
  | token (text : Bytes)
  /-- Nothing: the token is 0. -/
  | none
  deriving DecidableEq, Repr

/-- How the lexer stops without a token. -/
inductive Stop
  /-- `ParseError::Source`. -/
  | error (reason : String) (near : Near) (line : Nat)
  /-- `linenumber` overflows. -/
  | panic
  /-- A read past the end of the source. -/
  | overread
  /-- The step bound of a loop ran out. -/
  | fuel
  deriving DecidableEq, Repr

/-- `LexState`: the fields that reading a token uses. -/
@[ext]
structure LexState where
  /-- The current byte and the bytes after it. -/
  src : Bytes
  linenumber : Nat
  buf : Bytes
  deriving DecidableEq, Repr

/-- The largest `linenumber`. -/
def maxLine : Nat := 2 ^ 31 - 1

def lisdigit (b : UInt8) : Bool := 48 ≤ b.toNat && b.toNat ≤ 57

def lisxdigit (b : UInt8) : Bool :=
  lisdigit b || (65 ≤ b.toNat && b.toNat ≤ 70) || (97 ≤ b.toNat && b.toNat ≤ 102)

/-- `lisspace`: a vertical tab is no white space. -/
def lisspace (b : UInt8) : Bool := b = 9 || b = 10 || b = 12 || b = 13 || b = 32

/-- `currIsNewline`. -/
def isNewline (b : UInt8) : Bool := b = 10 || b = 13

/-- `luaO_hexavalue`. -/
def hexavalue (b : UInt8) : Nat :=
  if lisdigit b then b.toNat - 48 else (b.toNat ||| (65 ^^^ 97)) - 97 + 10

namespace LexState

def next (ls : LexState) : Except Stop LexState :=
  match ls.src with
  | [] => .error .overread
  | _ :: s => .ok { ls with src := s }

def save (ls : LexState) (b : UInt8) : LexState := { ls with buf := ls.buf ++ [b] }

/-- `save` of the current byte, then `next`. -/
def saveNext (ls : LexState) : Except Stop LexState :=
  match ls.src with
  | [] => .error .overread
  | b :: s => .ok { ls with src := s, buf := ls.buf ++ [b] }

/-- `buf.truncate(buf.len() - n)`. -/
def truncate (ls : LexState) (n : Nat) : LexState := { ls with buf := ls.buf.take (ls.buf.length - n) }

/-- `lexerror` for a string token: the buffer gets a NUL and is quoted up to its first one. -/
def tokenError {α : Type} (ls : LexState) (reason : String) : Except Stop α :=
  .error (.error reason (.token ((ls.save 0).buf.takeWhile (· ≠ 0))) ls.linenumber)

/-- The last step of `inclinenumber`. -/
def countLine (ls : LexState) : Except Stop LexState :=
  if ls.linenumber + 1 ≤ maxLine then .ok { ls with linenumber := ls.linenumber + 1 } else .error .panic

/-- `inclinenumber`: skips `\n`, `\r`, `\n\r` or `\r\n`. -/
def inclinenumber (ls : LexState) : Except Stop LexState :=
  match ls.src with
  | [] => .error .overread
  | [_] => { ls with src := [] }.countLine
  | a :: b :: s => if isNewline b ∧ b ≠ a then { ls with src := s }.countLine else { ls with src := b :: s }.countLine

end LexState

/-- The line breaks of a text: two different line-break bytes in a row are one. -/
def lineBreaks : Bytes → Nat
  | [] => 0
  | [a] => if isNewline a then 1 else 0
  | a :: b :: s =>
    if isNewline a then if isNewline b ∧ b ≠ a then lineBreaks s + 1 else lineBreaks (b :: s) + 1
    else lineBreaks (b :: s)

theorem lineBreaks_cons_of_not {a : UInt8} (ha : isNewline a = false) (s : Bytes) :
    lineBreaks (a :: s) = lineBreaks s := by
  cases s with
  | nil => simp [lineBreaks, ha]
  | cons b s => rw [lineBreaks, if_neg (by simp [ha])]

/-- What `inclinenumber` skips. -/
def newlineLength : Bytes → Nat
  | [] => 0
  | [_] => 1
  | a :: b :: _ => if isNewline b ∧ b ≠ a then 2 else 1

theorem LexState.countLine_eq_ok {ls ls' : LexState} :
    ls.countLine = .ok ls' ↔
      ls.linenumber + 1 ≤ maxLine ∧ ls' = { ls with linenumber := ls.linenumber + 1 } := by
  unfold countLine
  split_ifs with h
  · simp [h, eq_comm]
  · simp [h]

theorem LexState.inclinenumber_eq (a : UInt8) (s : Bytes) (n : Nat) (buf : Bytes) :
    LexState.inclinenumber ⟨a :: s, n, buf⟩ =
      LexState.countLine ⟨(a :: s).drop (newlineLength (a :: s)), n, buf⟩ := by
  cases s with
  | nil => rfl
  | cons b s =>
    simp only [LexState.inclinenumber, newlineLength]
    split_ifs <;> rfl

end Tsuki.Lex
