import Tsuki.Rust
import Mathlib.Algebra.Order.Ring.Int

/-!
# 64-bit floats

A float is its bit pattern: a sign, 11 bits of exponent and 52 bits of fraction. Its value, where it has one, is an
integer times a power of two.
-/

namespace Tsuki

/-- An `f64`. -/
structure F64 where
  bits : UInt64
  deriving DecidableEq, Repr

namespace F64

variable (f : F64)

def negative : Bool := 2 ^ 63 ≤ f.bits.toNat

def exponent : Nat := f.bits.toNat / 2 ^ 52 % 2 ^ 11

def fraction : Nat := f.bits.toNat % 2 ^ 52

def isNaN : Bool := f.exponent = 2047 && f.fraction ≠ 0

def isZero : Bool := f.exponent = 0 && f.fraction = 0

/-- `==` of floats: a NaN is equal to nothing, and the two zeros are equal. -/
def beq (g : F64) : Bool := !f.isNaN && !g.isNaN && (f.bits = g.bits || f.isZero && g.isZero)

/-- The absolute value is `mantissa * 2 ^ (scale - 1075)`. -/
def mantissa : Nat := if f.exponent = 0 then f.fraction else 2 ^ 52 + f.fraction

def scale : Nat := max f.exponent 1

/-- The value of a float that is an integer: one that is equal to its floor and is no infinity. -/
def integer? : Option Int :=
  if f.exponent = 2047 then none
  else
    let sign : Int := if f.negative then -1 else 1
    if 1075 ≤ f.scale then some (sign * (f.mantissa * 2 ^ (f.scale - 1075) : Nat))
    else if f.mantissa % 2 ^ (1075 - f.scale) = 0 then some (sign * (f.mantissa / 2 ^ (1075 - f.scale) : Nat))
    else none

/-- `luaV_flttointeger(f, F2Ieq)`: the float as an `i64`, if it is one. -/
def flttointegerEq : Option Int64 :=
  f.integer?.bind fun z => if -2 ^ 63 ≤ z ∧ z < 2 ^ 63 then some (Int64.ofInt z) else none

variable {f}

theorem flttointegerEq_of_isZero (h : f.isZero = true) : f.flttointegerEq = some 0 := by
  rw [isZero, Bool.and_eq_true, decide_eq_true_eq, decide_eq_true_eq] at h
  have hm : f.mantissa = 0 := by rw [mantissa, if_pos h.1, h.2]
  have hi : f.integer? = some 0 := by
    have hs : f.scale = 1 := by simp [scale, h.1]
    rw [integer?, if_neg (by omega), if_neg (by omega), hm, Nat.zero_mod, if_pos rfl, Nat.zero_div]
    simp
  rw [flttointegerEq, hi]
  rfl

/-- Floats that are no integers are equal where they are the same float. -/
theorem beq_iff {g : F64} (hf : f.flttointegerEq = none) (hnan : f.isNaN = false) :
    f.beq g = true ↔ g = f := by
  have hzero : f.isZero = false := by
    cases hz : f.isZero with
    | false => rfl
    | true =>
      rw [flttointegerEq_of_isZero hz] at hf
      cases hf
  rw [beq, hnan, hzero]
  constructor
  · intro h
    simp only [Bool.not_false, Bool.true_and, Bool.false_and, Bool.or_false, Bool.and_eq_true,
      decide_eq_true_eq] at h
    show F64.mk g.bits = F64.mk f.bits
    rw [h.2]
  · rintro rfl
    simp [hnan]

theorem beq_of_isNaN {g : F64} (h : f.isNaN = true) : f.beq g = false := by simp [beq, h]

end F64

end Tsuki
