import Mathlib.Data.Nat.Basic
import Mathlib.Tactic.SplitIfs
import Mathlib.Tactic.Ring

/-!
# UTF-8

Which byte strings are UTF-8, and the extended encoding that writes any number below `2 ^ 31`. A valid
prefix can be cut off; the encoding of a number that is no Unicode scalar value can begin no valid text.
-/

namespace Tsuki.Utf8

/-- A continuation byte. -/
def Tail (b : UInt8) : Prop := 0x80 ≤ b.toNat ∧ b.toNat ≤ 0xBF

/-- The first byte of a two-byte character. -/
def Lead2 (a : UInt8) : Prop := 0xC2 ≤ a.toNat ∧ a.toNat ≤ 0xDF

/-- The first two bytes of a three-byte character: neither overlong nor a surrogate. -/
def Lead3 (a b : UInt8) : Prop :=
  (a.toNat = 0xE0 ∧ 0xA0 ≤ b.toNat ∧ b.toNat ≤ 0xBF) ∨ (a.toNat = 0xED ∧ 0x80 ≤ b.toNat ∧ b.toNat ≤ 0x9F) ∨
    (0xE1 ≤ a.toNat ∧ a.toNat ≤ 0xEF ∧ a.toNat ≠ 0xED ∧ Tail b)

/-- The first two bytes of a four-byte character: neither overlong nor above U+10FFFF. -/
def Lead4 (a b : UInt8) : Prop :=
  (a.toNat = 0xF0 ∧ 0x90 ≤ b.toNat ∧ b.toNat ≤ 0xBF) ∨ (a.toNat = 0xF4 ∧ 0x80 ≤ b.toNat ∧ b.toNat ≤ 0x8F) ∨
    (0xF1 ≤ a.toNat ∧ a.toNat ≤ 0xF3 ∧ Tail b)

instance (b : UInt8) : Decidable (Tail b) := inferInstanceAs (Decidable (_ ∧ _))

instance (a : UInt8) : Decidable (Lead2 a) := inferInstanceAs (Decidable (_ ∧ _))

instance (a b : UInt8) : Decidable (Lead3 a b) := inferInstanceAs (Decidable (_ ∨ _ ∨ _))

instance (a b : UInt8) : Decidable (Lead4 a b) := inferInstanceAs (Decidable (_ ∨ _ ∨ _))

/-- The bytes are UTF-8. -/
def valid : List UInt8 → Bool
  | [] => true
  | a :: s =>
    if a.toNat < 0x80 then valid s
    else match s with
      | [] => false
      | b :: s =>
        if Lead2 a then decide (Tail b) && valid s
        else match s with
          | [] => false
          | c :: s =>
            if Lead3 a b then decide (Tail c) && valid s
            else match s with
              | [] => false
              | d :: s => decide (Lead4 a b) && decide (Tail c) && decide (Tail d) && valid s

example : valid [] = true := by rw [valid.eq_def]

theorem valid_one {a : UInt8} (ha : a.toNat < 0x80) (s : List UInt8) : valid (a :: s) = valid s := by
  rw [valid.eq_def]
  exact if_pos ha

theorem valid_two {a : UInt8} (ha : ¬ a.toNat < 0x80) (h : Lead2 a) (b : UInt8) (s : List UInt8) :
    valid (a :: b :: s) = (decide (Tail b) && valid s) := by
  rw [valid.eq_def]
  simp only [if_neg ha, if_pos h]

theorem valid_three {a b : UInt8} (ha : ¬ a.toNat < 0x80) (h2 : ¬ Lead2 a) (h : Lead3 a b) (c : UInt8)
    (s : List UInt8) : valid (a :: b :: c :: s) = (decide (Tail c) && valid s) := by
  rw [valid.eq_def]
  simp only [if_neg ha, if_neg h2, if_pos h]

theorem valid_four {a b : UInt8} (ha : ¬ a.toNat < 0x80) (h2 : ¬ Lead2 a) (h3 : ¬ Lead3 a b) (c d : UInt8)
    (s : List UInt8) :
    valid (a :: b :: c :: d :: s) = (decide (Lead4 a b) && decide (Tail c) && decide (Tail d) && valid s) := by
  rw [valid.eq_def]
  simp only [if_neg ha, if_neg h2, if_neg h3]

/-- A valid prefix does not matter for what follows it. -/
theorem valid_append {s : List UInt8} (hs : valid s = true) (t : List UInt8) : valid (s ++ t) = valid t := by
  fun_induction valid s with
  | case1 => rfl
  | case2 a s ha ih =>
    rw [List.cons_append, valid_one ha]
    exact ih hs
  | case3 | case5 | case7 => simp at hs
  | case4 a ha b s hab ih =>
    rw [Bool.and_eq_true] at hs
    rw [List.cons_append, List.cons_append, valid_two ha hab, hs.1, Bool.true_and]
    exact ih hs.2
  | case6 a ha b hab c s h3 ih =>
    rw [Bool.and_eq_true] at hs
    rw [List.cons_append, List.cons_append, List.cons_append, valid_three ha hab h3, hs.1, Bool.true_and]
    exact ih hs.2
  | case8 a ha b hab c h3 d s ih =>
    rw [Bool.and_eq_true] at hs
    rw [List.cons_append, List.cons_append, List.cons_append, List.cons_append, valid_four ha hab h3, hs.1,
      Bool.true_and]
    exact ih hs.2

/-- Two bytes that begin no character make everything that starts with them invalid. -/
theorem valid_of_no_lead {a b : UInt8} (ha : 0x80 ≤ a.toNat) (h2 : ¬ Lead2 a) (h3 : ¬ Lead3 a b)
    (h4 : ¬ Lead4 a b) (t : List UInt8) : valid (a :: b :: t) = false := by
  rw [valid.eq_def]
  simp only [if_neg (Nat.not_lt.mpr ha), if_neg h2]
  cases t with
  | nil => rfl
  | cons x t =>
    simp only [if_neg h3]
    cases t with
    | nil => rfl
    | cons y t => simp [h4]

/-- A byte below 128 splits a text in two that are UTF-8 by themselves. -/
theorem valid_split {b : UInt8} (hb : b.toNat < 0x80) (seg s : List UInt8) :
    valid (seg ++ b :: s) = (valid seg && valid s) := by
  have htail : ¬ Tail b := by unfold Tail; omega
  fun_induction valid seg with
  | case1 => rw [List.nil_append, valid_one hb, Bool.true_and]
  | case2 a t ha ih => rw [List.cons_append, valid_one ha, ih]
  | case3 a ha =>
    by_cases h2 : Lead2 a
    · rw [List.cons_append, List.nil_append, valid_two ha h2, decide_eq_false htail, Bool.false_and]
    · refine valid_of_no_lead (Nat.not_lt.mp ha) h2 ?_ ?_ s
      · unfold Lead3 Tail; omega
      · unfold Lead4 Tail; omega
  | case4 a ha c t h2 ih =>
    rw [List.cons_append, List.cons_append, valid_two ha h2, ih, Bool.and_assoc]
  | case5 a ha c h2 =>
    by_cases h3 : Lead3 a c
    · rw [List.cons_append, List.cons_append, List.nil_append, valid_three ha h2 h3,
        decide_eq_false htail, Bool.false_and]
    · by_cases h4 : Lead4 a c
      · rw [List.cons_append, List.cons_append, List.nil_append]
        cases s with
        | nil => rw [valid.eq_def]; simp only [if_neg ha, if_neg h2, if_neg h3]; rfl
        | cons d s => rw [valid_four ha h2 h3, decide_eq_false htail, Bool.and_false, Bool.false_and,
            Bool.false_and, Bool.false_and]
      · exact valid_of_no_lead (Nat.not_lt.mp ha) h2 h3 h4 (b :: s)
  | case6 a ha c h2 d t h3 ih =>
    rw [List.cons_append, List.cons_append, List.cons_append, valid_three ha h2 h3, ih, Bool.and_assoc]
  | case7 a ha c h2 d h3 =>
    rw [List.cons_append, List.cons_append, List.cons_append, List.nil_append, valid_four ha h2 h3,
      decide_eq_false htail, Bool.and_false, Bool.false_and]
  | case8 a ha c h2 d h3 e t ih =>
    rw [List.cons_append, List.cons_append, List.cons_append, List.cons_append, valid_four ha h2 h3, ih,
      ← Bool.and_assoc]

theorem valid_of_ascii {s : List UInt8} (hs : ∀ b ∈ s, b.toNat < 0x80) : valid s = true := by
  induction s with
  | nil => rfl
  | cons b s ih =>
    rw [valid_one (hs b List.mem_cons_self)]
    exact ih fun c hc => hs c (List.mem_cons_of_mem _ hc)

/-- What follows a text in bytes below 128 does not matter for it. -/
theorem valid_append_ascii (seg : List UInt8) {s : List UInt8} (hs : ∀ b ∈ s, b.toNat < 0x80) :
    valid (seg ++ s) = valid seg := by
  cases s with
  | nil => rw [List.append_nil]
  | cons b s =>
    rw [valid_split (hs b List.mem_cons_self), valid_of_ascii fun c hc => hs c (List.mem_cons_of_mem _ hc),
      Bool.and_true]

/-- The continuation byte with the lowest six bits of `x`. -/
def tail (x : Nat) : UInt8 := .ofNat (0x80 + x % 64)

/-- The extended UTF-8 encoding of a number below `2 ^ 31`: one to six bytes. -/
def encode (x : Nat) : List UInt8 :=
  if x < 0x80 then [.ofNat x]
  else if x < 0x800 then [.ofNat (0xC0 + x / 2 ^ 6), tail x]
  else if x < 0x10000 then [.ofNat (0xE0 + x / 2 ^ 12), tail (x / 2 ^ 6), tail x]
  else if x < 0x200000 then [.ofNat (0xF0 + x / 2 ^ 18), tail (x / 2 ^ 12), tail (x / 2 ^ 6), tail x]
  else if x < 0x4000000 then
    [.ofNat (0xF8 + x / 2 ^ 24), tail (x / 2 ^ 18), tail (x / 2 ^ 12), tail (x / 2 ^ 6), tail x]
  else
    [.ofNat (0xFC + x / 2 ^ 30), tail (x / 2 ^ 24), tail (x / 2 ^ 18), tail (x / 2 ^ 12), tail (x / 2 ^ 6),
      tail x]

/-- A Unicode scalar value: no surrogate, at most U+10FFFF. -/
def Scalar (x : Nat) : Prop := x < 0xD800 ∨ (0xE000 ≤ x ∧ x < 0x110000)

instance (x : Nat) : Decidable (Scalar x) := inferInstanceAs (Decidable (_ ∨ _))

theorem toNat_tail (x : Nat) : (tail x).toNat = 0x80 + x % 64 := by
  rw [tail, UInt8.toNat_ofNat']
  omega

theorem Tail.of_tail (x : Nat) : Tail (tail x) := by
  rw [Tail, toNat_tail]
  omega

theorem valid_encode {x : Nat} (h : Scalar x) : valid (encode x) = true := by
  unfold Scalar at h
  unfold encode
  split_ifs with h1 h2 h3 h4
  · exact valid_one (by rw [UInt8.toNat_ofNat']; omega) []
  · have hn : (UInt8.ofNat (0xC0 + x / 2 ^ 6)).toNat = 0xC0 + x / 2 ^ 6 := by
      rw [UInt8.toNat_ofNat']; omega
    rw [valid_two (by omega) (by unfold Lead2; omega), decide_eq_true (Tail.of_tail x)]
    rfl
  · have hn : (UInt8.ofNat (0xE0 + x / 2 ^ 12)).toNat = 0xE0 + x / 2 ^ 12 := by
      rw [UInt8.toNat_ofNat']; omega
    have hn2 := toNat_tail (x / 2 ^ 6)
    rw [valid_three (by omega) (by unfold Lead2; omega) (by unfold Lead3 Tail; omega),
      decide_eq_true (Tail.of_tail x)]
    rfl
  · have hn : (UInt8.ofNat (0xF0 + x / 2 ^ 18)).toNat = 0xF0 + x / 2 ^ 18 := by
      rw [UInt8.toNat_ofNat']; omega
    have hn2 := toNat_tail (x / 2 ^ 12)
    have hl : Lead4 (.ofNat (0xF0 + x / 2 ^ 18)) (tail (x / 2 ^ 12)) := by unfold Lead4 Tail; omega
    rw [valid_four (by omega) (by unfold Lead2; omega) (by unfold Lead3 Tail; omega), decide_eq_true hl,
      decide_eq_true (Tail.of_tail _), decide_eq_true (Tail.of_tail x)]
    rfl
  · omega
  · omega

/-- The encoding of any other value begins no valid text. -/
theorem valid_encode_append {x : Nat} (h : ¬ Scalar x) (hx : x < 2 ^ 31) (t : List UInt8) :
    valid (encode x ++ t) = false := by
  unfold Scalar at h
  unfold encode
  split_ifs with h1 h2 h3 h4 h5
  · omega
  · omega
  · have hn : (UInt8.ofNat (0xE0 + x / 2 ^ 12)).toNat = 0xE0 + x / 2 ^ 12 := by
      rw [UInt8.toNat_ofNat']; omega
    have hn2 := toNat_tail (x / 2 ^ 6)
    apply valid_of_no_lead <;> simp only [Lead2, Lead3, Lead4, Tail, hn, hn2] <;> omega
  · have hn : (UInt8.ofNat (0xF0 + x / 2 ^ 18)).toNat = 0xF0 + x / 2 ^ 18 := by
      rw [UInt8.toNat_ofNat']; omega
    have hn2 := toNat_tail (x / 2 ^ 12)
    apply valid_of_no_lead <;> simp only [Lead2, Lead3, Lead4, Tail, hn, hn2] <;> omega
  · have hn : (UInt8.ofNat (0xF8 + x / 2 ^ 24)).toNat = 0xF8 + x / 2 ^ 24 := by
      rw [UInt8.toNat_ofNat']; omega
    apply valid_of_no_lead <;> simp only [Lead2, Lead3, Lead4, Tail, hn] <;> omega
  · have hn : (UInt8.ofNat (0xFC + x / 2 ^ 30)).toNat = 0xFC + x / 2 ^ 30 := by
      rw [UInt8.toNat_ofNat']; omega
    apply valid_of_no_lead <;> simp only [Lead2, Lead3, Lead4, Tail, hn] <;> omega

end Tsuki.Utf8
