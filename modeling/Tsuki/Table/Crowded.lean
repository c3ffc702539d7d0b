import Tsuki.Table.Run

/-!
# A hash part without a free node

Each of `2 ^ l` strings is in its own main position. With `l = 30` one more key does not fit: `rehash` counts one pair
more than the largest hash part has nodes.
-/

namespace Tsuki.Table

variable {V : Type}

def ownNodes (l : Nat) (x : V) : List (Node V) := (List.range (2 ^ l)).map fun p => ⟨.live (.shortStr p), some x, 0⟩

def crowded (l : Nat) (x : V) : Table V := ⟨false, 0, [], ⟨l, ownNodes l x, some 0⟩⟩

/-- The map with the first `n` strings. -/
def strings (n : Nat) (x : V) : Map V
  | .shortStr p => if p < n then some x else none
  | _ => none

section

variable (l : Nat) (x : V)

end

end Tsuki.Table
