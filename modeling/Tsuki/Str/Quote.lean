import Tsuki.Lex.Numeral
import Tsuki.Lex.StringLiteral

/-!
# `string.format` with `%q`

The writer of `%q`, and the lexer as its reader: a quoted string goes to `read_string`, a number with an
optional minus sign to `read_numeral`. `Display` and `FromStr` of `f64` are parameters.
-/

namespace Tsuki.Str

open Tsuki.Lex

/-- A Lua value that `%q` takes, nil and the booleans left out. -/
inductive Value
  | str (s : Bytes)
  | int (i : Int64)
  | float (f : F64)
  deriving DecidableEq, Repr

/-- `{}` of a number that is not negative. -/
def decimal (n : Nat) : Bytes :=
  if n < 10 then [.ofNat (48 + n)] else decimal (n / 10) ++ [.ofNat (48 + n % 10)]

/-- `{:03}` of a number that is not negative. -/
def decimal3 (n : Nat) : Bytes := List.replicate (3 - (decimal n).length) 48 ++ decimal n

/-- `{}` of an `i64`. -/
def displayInt (i : Int64) : Bytes :=
  if i.toInt < 0 then 45 :: decimal i.toInt.natAbs else decimal i.toInt.natAbs

/-- `char::is_ascii_control`. -/
def isControl (b : UInt8) : Bool := b.toNat < 32 || b.toNat = 127

/-- The loop over the characters of a string. The characters it rewrites are single bytes, and the bytes of
any other are copied, so that it may as well go over the bytes. -/
def quoteChars : Bytes → Bytes
  | [] => []
  | b :: s =>
    if b = 34 ∨ b = 92 ∨ b = 10 then 92 :: b :: quoteChars s
    else if isControl b then
      92 :: (if s.head?.any lisdigit then decimal3 b.toNat else decimal b.toNat) ++ quoteChars s
    else b :: quoteChars s

namespace F64Text

/-- `1e9999`. -/
def huge : Bytes := [49, 101, 57, 57, 57, 57]

end F64Text

open F64Text

/-- The `'q'` branch of `format`; the argument is the `n`-th. -/
def formatQ (display : F64 → Bytes) (n : Nat) : Value → Rust Bytes
  | .str s =>
    if Utf8.valid s then .ok (34 :: quoteChars s ++ [34])
    else .error (.arg n "specifier '%q' requires UTF-8 string")
  | .int i =>
    -- `{:#x}` of `i64::MIN`
    if i = Int64.minValue then .ok ([48, 120, 56] ++ List.replicate 15 48) else .ok (displayInt i)
  | .float f =>
    if f.bits = 0x7FF0000000000000 then .ok huge
    else if f.bits = 0xFFF0000000000000 then .ok (45 :: huge)
    else if f.isNaN then .ok [40, 48, 47, 48, 41]
    else .ok (display f)

/-- Unary minus. -/
def minus : Number → Number
  | .int i => .int (-i)
  | .float f => .float f.neg

theorem digits_append (base : Nat) (value : UInt8 → Nat) (r : Nat) (s t : Bytes) :
    digits base value r (s ++ t) = digits base value (digits base value r s) t := List.foldl_append

theorem decDigit_ofNat {d : Nat} (hd : d < 10) : lisdigit (.ofNat (48 + d)) = true ∧
    decDigit (.ofNat (48 + d)) = d := by
  have hn : (UInt8.ofNat (48 + d)).toNat = 48 + d := by rw [UInt8.toNat_ofNat']; omega
  simp only [lisdigit, decDigit, hn, Bool.and_eq_true, decide_eq_true_eq]
  omega

/-- The decimal text of a number consists of digits and has its value. -/
theorem decimal_spec (n : Nat) : decimal n ≠ [] ∧ (∀ b ∈ decimal n, lisdigit b = true) ∧
    digits 10 decDigit 0 (decimal n) = n := by
  induction n using Nat.strongRecOn with
  | ind n ih =>
    rw [decimal]
    split_ifs with h
    · obtain ⟨hd, hv⟩ := decDigit_ofNat h
      exact ⟨List.cons_ne_nil _ _, by simpa using hd, by simpa [digits] using hv⟩
    · obtain ⟨-, hall, hval⟩ := ih (n / 10) (by omega)
      obtain ⟨hd, hv⟩ := decDigit_ofNat (Nat.mod_lt n (by decide))
      refine ⟨by simp, ?_, ?_⟩
      · intro b hb
        rcases List.mem_append.mp hb with hb | hb
        · exact hall b hb
        · rw [List.mem_singleton.mp hb]
          exact hd
      · rw [digits_append, hval]
        simp only [digits, List.foldl_cons, List.foldl_nil, hv]
        omega

end Tsuki.Str
