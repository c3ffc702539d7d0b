import Mathlib.Data.Nat.Basic
import Mathlib.Tactic.Common
import Mathlib.Tactic.Ring

/-!
# Layouts

`core::alloc::Layout`: sizes and alignments, with their arithmetic. The largest size of an allocation is `max`.
-/

namespace Tsuki.Lib

/-- `n` rounded up to a multiple of `a`. -/
def roundUp (n a : Nat) : Nat := (n + a - 1) / a * a

theorem dvd_roundUp (n a : Nat) : a ∣ roundUp n a := Nat.dvd_mul_left a _

theorem roundUp_of_dvd {n a : Nat} (ha : 0 < a) (h : a ∣ n) : roundUp n a = n := by
  obtain ⟨k, rfl⟩ := h
  unfold roundUp
  rw [Nat.add_sub_assoc ha, Nat.mul_add_div ha, Nat.div_eq_of_lt (by omega), Nat.add_zero, Nat.mul_comm]

theorem roundUp_eq_iff {n a : Nat} (ha : 0 < a) : roundUp n a = n ↔ a ∣ n :=
  ⟨fun h => h ▸ dvd_roundUp n a, roundUp_of_dvd ha⟩

/-- A power of two. -/
def PowerOfTwo (a : Nat) : Prop := a = 2 ^ a.log2

instance (a : Nat) : Decidable (PowerOfTwo a) := inferInstanceAs (Decidable (a = 2 ^ a.log2))

theorem PowerOfTwo.pos {a : Nat} (h : PowerOfTwo a) : 0 < a := by
  rw [h]
  exact Nat.two_pow_pos _

/-- The size rounded up to the alignment is no larger than an allocation can be. -/
@[ext]
structure Layout (maxSize : Nat) where
  size : Nat
  align : Nat
  align_pow : PowerOfTwo align
  size_le : roundUp size align ≤ maxSize
  deriving DecidableEq

namespace Layout

variable {maxSize : Nat}

def fromSizeAlign (size align : Nat) : Option (Layout maxSize) :=
  if h : PowerOfTwo align ∧ roundUp size align ≤ maxSize then some ⟨size, align, h.1, h.2⟩ else none

def padToAlign (l : Layout maxSize) : Layout maxSize where
  size := roundUp l.size l.align
  align := l.align
  align_pow := l.align_pow
  size_le := by
    rw [roundUp_of_dvd l.align_pow.pos (dvd_roundUp _ _)]
    exact l.size_le

/-- `extend`: the layout of both, and the offset of the second. -/
def extend (l next : Layout maxSize) : Option (Layout maxSize × Nat) :=
  let offset := roundUp l.size next.align
  (fromSizeAlign (offset + next.size) (max l.align next.align)).map fun l => (l, offset)

theorem fromSizeAlign_eq_some {size align : Nat} {l : Layout maxSize} (h : fromSizeAlign size align = some l) :
    l.size = size ∧ l.align = align := by
  unfold fromSizeAlign at h
  split at h
  · obtain rfl := Option.some.inj h
    exact ⟨rfl, rfl⟩
  · cases h

theorem extend_eq_some {l next l' : Layout maxSize} {offset : Nat} (h : l.extend next = some (l', offset)) :
    l'.size = roundUp l.size next.align + next.size ∧ l'.align = max l.align next.align := by
  obtain ⟨l₁, hl₁, heq⟩ := Option.map_eq_some_iff.mp h
  obtain ⟨rfl, -⟩ := Prod.mk.inj heq
  exact fromSizeAlign_eq_some hl₁

theorem padToAlign_eq_iff (l : Layout maxSize) : l.padToAlign = l ↔ l.align ∣ l.size := by
  rw [← roundUp_eq_iff l.align_pow.pos, Layout.ext_iff]
  exact ⟨And.left, fun h => ⟨h, rfl⟩⟩

end Layout

end Tsuki.Lib
