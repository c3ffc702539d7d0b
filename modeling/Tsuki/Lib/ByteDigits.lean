import Mathlib.Data.Nat.Digits.Lemmas
import Mathlib.Tactic.Ring

/-!
# Fixed-width byte digits

`leBytes width n` are the `width` low bytes of `n`, least significant first; `Nat.ofDigits 256` reads them
back. The last section relates reading to the word-level idioms: shifting and or-ing bytes into a 64-bit
word, and sign extension by `(r ^ mask) - mask`.
-/

namespace ByteDigits

/-- The `width` low bytes of `n`, least significant first. -/
def leBytes (width n : Nat) : List UInt8 := (List.range width).map fun i => UInt8.ofNat (n / 256 ^ i)

/-- The number with the given bytes, least significant first. -/
def ofBytes (l : List UInt8) : Nat := Nat.ofDigits 256 (l.map UInt8.toNat)

@[simp] theorem length_leBytes (w n : Nat) : (leBytes w n).length = w := by simp [leBytes]

@[simp] theorem leBytes_zero (n : Nat) : leBytes 0 n = [] := rfl

@[simp] theorem ofBytes_nil : ofBytes [] = 0 := rfl

@[simp] theorem ofBytes_cons (b : UInt8) (l : List UInt8) :
    ofBytes (b :: l) = b.toNat + 256 * ofBytes l := by
  simp [ofBytes, Nat.ofDigits_cons]

theorem leBytes_add (v w n : Nat) : leBytes (v + w) n = leBytes v n ++ leBytes w (n / 256 ^ v) := by
  simp only [leBytes, List.range_add, List.map_append, List.map_map]
  congr 1
  apply List.map_congr_left
  intro i _
  simp only [Function.comp, Nat.div_div_eq_div_mul, pow_add]

theorem leBytes_succ (w n : Nat) : leBytes (w + 1) n = UInt8.ofNat n :: leBytes w (n / 256) := by
  rw [Nat.add_comm, leBytes_add]
  simp [leBytes]

theorem take_leBytes {v w : Nat} (h : v ≤ w) (n : Nat) : (leBytes w n).take v = leBytes v n := by
  obtain ⟨k, rfl⟩ := Nat.exists_eq_add_of_le h
  rw [leBytes_add, List.take_append_of_le_length (by simp)]
  exact List.take_of_length_le (by simp)

theorem ofBytes_leBytes (w n : Nat) : ofBytes (leBytes w n) = n % 256 ^ w := by
  induction w generalizing n with
  | zero => simp [Nat.mod_one]
  | succ w ih =>
    rw [leBytes_succ, ofBytes_cons, ih, UInt8.toNat_ofNat', pow_succ' 256 w, Nat.mod_mul]

theorem ofBytes_lt (l : List UInt8) : ofBytes l < 256 ^ l.length := by
  induction l with
  | nil => simp
  | cons b l ih =>
    have hb := b.toNat_lt
    rw [ofBytes_cons, List.length_cons, pow_succ]
    omega

/-! ## Words -/

/-- Shifting the bytes into a word from the most significant one on reads the number. -/
theorem toNat_foldr_shift_or (l : List UInt8) (h : l.length ≤ 8) :
    (l.foldr (fun b (r : UInt64) => (r <<< 8) ||| b.toUInt64) 0).toNat = ofBytes l := by
  induction l with
  | nil => simp
  | cons b l ih =>
    have hlen : l.length ≤ 7 := Nat.le_of_succ_le_succ h
    have hb := b.toNat_lt
    have hl : ofBytes l < 2 ^ 56 := by
      refine (ofBytes_lt l).trans_le ?_
      calc 256 ^ l.length ≤ 256 ^ 7 := Nat.pow_le_pow_right (by norm_num) hlen
        _ = 2 ^ 56 := by norm_num
    rw [List.foldr_cons, UInt64.toNat_or, UInt64.toNat_shiftLeft, ih (by omega), ofBytes_cons,
      UInt8.toNat_toUInt64]
    have hshift : ofBytes l <<< ((8 : UInt64).toNat % 64) % 2 ^ 64 = ofBytes l <<< 8 := by
      rw [show (8 : UInt64).toNat % 64 = 8 from rfl, Nat.shiftLeft_eq, Nat.mod_eq_of_lt]
      omega
    rw [hshift, ← Nat.shiftLeft_add_eq_or_of_lt hb, Nat.shiftLeft_eq]
    ring

/-- Flipping the sign bit of a `k + 1`-bit number adds or subtracts it. -/
theorem xor_two_pow (k r : Nat) (h : r < 2 ^ (k + 1)) :
    r ^^^ 2 ^ k = if r < 2 ^ k then r + 2 ^ k else r - 2 ^ k := by
  have hlow : ∀ {a : Nat}, a < 2 ^ k → a ^^^ 2 ^ k = a + 2 ^ k := by
    intro a ha
    rw [Nat.add_comm, ← Nat.one_mul (2 ^ k), ← Nat.shiftLeft_eq, Nat.shiftLeft_add_eq_or_of_lt ha]
    apply Nat.eq_of_testBit_eq
    intro i
    rw [Nat.testBit_xor, Nat.testBit_or, Nat.one_shiftLeft, Nat.testBit_two_pow]
    by_cases hi : k = i
    · subst hi
      simp [Nat.testBit_lt_two_pow ha]
    · simp [hi]
  split
  · exact hlow ‹_›
  · have hr : r - 2 ^ k < 2 ^ k := by
      rw [pow_succ] at h
      omega
    have := hlow hr
    rw [Nat.sub_add_cancel (by omega)] at this
    calc r ^^^ 2 ^ k = ((r - 2 ^ k) ^^^ 2 ^ k) ^^^ 2 ^ k := by rw [this]
      _ = r - 2 ^ k := by rw [Nat.xor_assoc, Nat.xor_self, Nat.xor_zero]

end ByteDigits
