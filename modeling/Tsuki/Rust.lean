import Mathlib.Data.Nat.Basic
import Mathlib.Tactic.Ring

/-!
# Results of Rust calls

A modelled call ends in a value, in an error that Lua code can catch, or in a panic. Errors carry the
text the source gives them; an argument error also carries the number of the argument.
-/

namespace Tsuki

/-- How a call that returns no value ends. -/
inductive Fault
  /-- `Arg::error`: the text, for argument `n`. -/
  | arg (n : Nat) (msg : String)
  /-- `Arg::type_error`: argument `n` is missing or is not of the expected type. -/
  | argType (n : Nat) (expect : String)
  /-- Any other error. -/
  | msg (text : String)
  /-- The thread unwinds: an index out of range, a failed conversion, an arithmetic overflow. -/
  | panic
  deriving DecidableEq, Repr

/-- The result of a Rust call. -/
abbrev Rust := Except Fault

/-- The bytes of a Rust slice. -/
abbrev Bytes := List UInt8

/-- `isize::MAX`, the largest size of an allocation. -/
def isizeMax : Nat := 2 ^ 63 - 1

/-- `xs[i]`. -/
def idx {α : Type} (xs : List α) (i : Nat) : Rust α :=
  match xs[i]? with
  | some x => .ok x
  | none => .error .panic

theorem idx_of_lt {α : Type} {xs : List α} {i : Nat} (h : i < xs.length) : idx xs i = .ok xs[i] := by
  rw [idx, List.getElem?_eq_getElem h]

/-- A Lua string: no allocation is larger than `isize::MAX` bytes. -/
structure LStr where
  bytes : Bytes
  length_le : bytes.length ≤ isizeMax

namespace Rust

/-- The call panics. -/
def Panics {α : Type} (r : Rust α) : Prop := r = .error .panic

/-- `i64` arithmetic: a result out of range is an overflow. -/
def i64 (z : Int) : Rust Int64 :=
  if -2 ^ 63 ≤ z ∧ z < 2 ^ 63 then .ok (Int64.ofInt z) else .error .panic

/-- `usize` arithmetic. -/
def usize (n : Nat) : Rust Nat := if n < 2 ^ 64 then .ok n else .error .panic

theorem usize_of_lt {n : Nat} (h : n < 2 ^ 64) : usize n = .ok n := if_pos h

theorem usize_eq_ok {n m : Nat} (h : usize n = .ok m) : n < 2 ^ 64 ∧ m = n := by
  unfold usize at h
  split at h
  · rename_i hn
    exact ⟨hn, (Except.ok.inj h).symm⟩
  · cases h

/-- A difference of `usize`. -/
def usub (a b : Nat) : Rust Nat := if b ≤ a then .ok (a - b) else .error .panic

/-- `a << k` of a `u64`. -/
def shl (a : UInt64) (k : Nat) : Rust UInt64 := if k < 64 then .ok (a <<< UInt64.ofNat k) else .error .panic

/-- `u64::try_from(z).unwrap()` of an `i64`. -/
def u64OfI64 (z : Int64) : Rust Nat :=
  if 0 ≤ z.toInt then .ok z.toInt.toNat else .error .panic

/-- `NonZero::new(r).unwrap()`. -/
def nonZero (r : Nat) : Rust Nat := if r = 0 then .error .panic else .ok r

/-- `Box<str>` and `Vec<u8>` of a string: the allocation panics above `isize::MAX` bytes. -/
def alloc (b : Bytes) : Rust LStr :=
  if h : b.length ≤ isizeMax then .ok ⟨b, h⟩ else .error .panic

theorem alloc_of_le {b : Bytes} (h : b.length ≤ isizeMax) : alloc b = .ok ⟨b, h⟩ := dif_pos h

theorem alloc_eq_ok {b : Bytes} {s : LStr} (h : alloc b = .ok s) : s.bytes = b := by
  unfold alloc at h
  split at h
  · rw [← Except.ok.inj h]
  · cases h

theorem bind_eq_ok {ε α β : Type} {x : Except ε α} {f : α → Except ε β} {b : β} :
    x >>= f = .ok b ↔ ∃ a, x = .ok a ∧ f a = .ok b := by
  cases x with
  | error e => simp [bind, Except.bind]
  | ok a => simp [bind, Except.bind]

@[simp] theorem ok_bind {α β : Type} (a : α) (f : α → Rust β) :
    ((Except.ok a : Rust α) >>= f) = f a := rfl

@[simp] theorem error_bind {α β : Type} (e : Fault) (f : α → Rust β) :
    ((Except.error e : Rust α) >>= f) = .error e := rfl

end Rust

theorem ofInt_congr {a b : Int} (h : a % 2 ^ 64 = b % 2 ^ 64) : Int64.ofInt a = Int64.ofInt b := by
  have hsize : Int64.size = 2 ^ 64 := rfl
  rw [← Int64.toInt_inj, Int64.toInt_ofInt, Int64.toInt_ofInt, hsize, ← Int.emod_bmod a, ← Int.emod_bmod b]
  exact congrArg (Int.bmod · (2 ^ 64)) h

end Tsuki
