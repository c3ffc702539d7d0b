import Tsuki.Str.Quote

/-!
# Reading `%q` back

A quoted string is a literal whose escapes are the bytes they stand for. A number comes back where its text
is a numeral of its own type: a float that is an integer below `2 ^ 63` is written without a point.
-/

namespace Tsuki.Str

open Tsuki.Lex F64Text

/-! ## Strings -/

variable {parse : Bytes → Option F64}

/-- The floats 1 and 0.5. -/
def one : F64 := ⟨0x3FF0000000000000⟩

@[inherit_doc one]
def half : F64 := ⟨0x3FE0000000000000⟩

end Tsuki.Str
