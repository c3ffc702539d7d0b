import Mathlib.Algebra.Order.Field.Power
import Mathlib.Data.Int.Log
import Mathlib.Data.Rat.Floor
import Mathlib.Order.WithBot
import Mathlib.Tactic.Linarith
import Mathlib.Tactic.Positivity
import Tsuki.F64

/-!
# The values of floats

A float stands for a rational number, an infinity, or nothing at all; the two zeros stand for one number. The
operations round their exact result to the nearest float, ties to even. Where the result is a float itself, rounding
leaves it alone.
-/

namespace Tsuki

/-- What an `f64` stands for. -/
inductive Val
  | nan | negInf | fin (q : ℚ) | posInf
  deriving DecidableEq

namespace Val

/-- `<` of floats. -/
def lt : Val → Val → Bool
  | .fin a, .fin b => a < b
  | .negInf, .fin _ | .negInf, .posInf | .fin _, .posInf => true
  | _, _ => false

/-- `<=` of floats. -/
def le : Val → Val → Bool
  | .fin a, .fin b => a ≤ b
  | .negInf, .negInf | .negInf, .fin _ | .negInf, .posInf | .fin _, .posInf | .posInf, .posInf => true
  | _, _ => false

/-- `==` of floats. -/
def eq : Val → Val → Bool
  | .fin a, .fin b => a = b
  | .negInf, .negInf | .posInf, .posInf => true
  | _, _ => false

def floor : Val → Val
  | .fin q => .fin ⌊q⌋
  | v => v

/-! ## Rounding -/

/-- The nearest integer, ties to even. -/
def roundHalfEven (x : ℚ) : ℤ :=
  if x - ⌊x⌋ < 1 / 2 then ⌊x⌋
  else if 1 / 2 < x - ⌊x⌋ then ⌊x⌋ + 1
  else if ⌊x⌋ % 2 = 0 then ⌊x⌋
  else ⌊x⌋ + 1

/-- The exponent of the last place of a float next to `q`. -/
def place (q : ℚ) : ℤ := max (Int.log 2 |q| - 52) (-1074)

/-- `q` rounded to that place. -/
def nearest (q : ℚ) : ℚ := roundHalfEven (q / 2 ^ place q) * 2 ^ place q

/-- The float next to `q`. -/
def round (q : ℚ) : Val :=
  if 2 ^ 1024 ≤ nearest q then .posInf else if nearest q ≤ -2 ^ 1024 then .negInf else .fin (nearest q)

/-- `v + 1.0`. -/
def addOne : Val → Val
  | .fin q => round (q + 1)
  | v => v

/-- `i as f64`. -/
def ofI64 (i : Int64) : Val := round i.toInt

/-- `v as i64`: towards zero, and to the nearest bound outside the range. -/
def asI64 : Val → Int64
  | .nan => 0
  | .negInf => Int64.minValue
  | .posInf => Int64.maxValue
  | .fin q => .ofInt (max (-2 ^ 63) (min (2 ^ 63 - 1) (if q < 0 then ⌈q⌉ else ⌊q⌋)))

/-- The numbers that are floats. -/
def Representable (q : ℚ) : Prop := ∃ m e : ℤ, |m| < 2 ^ 53 ∧ -1074 ≤ e ∧ q = m * 2 ^ e ∧ |q| < 2 ^ 1024

theorem roundHalfEven_intCast (z : ℤ) : roundHalfEven z = z := by simp [roundHalfEven]

theorem place_le {m e : ℤ} (hm0 : m ≠ 0) (hm : |m| < 2 ^ 53) (he : -1074 ≤ e) : place (m * 2 ^ e) ≤ e := by
  have hmq : (m : ℚ) ≠ 0 := Int.cast_ne_zero.mpr hm0
  have hpos : 0 < |(m : ℚ) * 2 ^ e| := abs_pos.mpr (mul_ne_zero hmq (by positivity))
  have hlt : Int.log 2 |(m : ℚ) * 2 ^ e| < 53 + e := by
    have hcast : |(m : ℚ)| < 2 ^ 53 := by exact_mod_cast hm
    rw [← Int.lt_zpow_iff_log_lt (by decide) hpos, abs_mul, abs_of_pos (by positivity : (0 : ℚ) < 2 ^ e),
      Nat.cast_ofNat, zpow_add₀ (by norm_num)]
    exact mul_lt_mul_of_pos_right hcast (by positivity)
  exact max_le (by omega) he

theorem nearest_zero : nearest 0 = 0 := by simp [nearest, roundHalfEven]

theorem nearest_of_representable {q : ℚ} (h : Representable q) : nearest q = q := by
  obtain ⟨m, e, hm, he, rfl, -⟩ := h
  rcases eq_or_ne m 0 with rfl | hm0
  · simpa using nearest_zero
  · have hplace := place_le hm0 hm he
    obtain ⟨d, hd⟩ := Int.eq_ofNat_of_zero_le (sub_nonneg.mpr hplace)
    have hpow : (2 : ℚ) ^ e = 2 ^ d * 2 ^ place (m * 2 ^ e) := by
      conv_lhs => rw [← Int.sub_add_cancel e (place (m * 2 ^ e)), hd, zpow_add₀ (by norm_num), zpow_natCast]
    have hquot : (m : ℚ) * 2 ^ e / 2 ^ place (m * 2 ^ e) = ((m * 2 ^ d : ℤ) : ℚ) := by
      rw [div_eq_iff (by positivity), Int.cast_mul, Int.cast_pow, Int.cast_ofNat, mul_assoc, ← hpow]
    rw [nearest, hquot, roundHalfEven_intCast, ← hquot, div_mul_cancel₀ _ (by positivity)]

theorem round_of_representable {q : ℚ} (h : Representable q) : round q = .fin q := by
  obtain ⟨hlow, hhigh⟩ := abs_lt.mp h.choose_spec.choose_spec.2.2.2
  rw [round, nearest_of_representable h, if_neg (not_le.mpr hhigh), if_neg (not_le.mpr hlow)]

theorem representable_of_abs_le {z : ℤ} (h : |z| ≤ 2 ^ 53) : Representable z := by
  have hbound : |(z : ℚ)| < 2 ^ 1024 := by
    have hle : |(z : ℚ)| ≤ 2 ^ 53 := by exact_mod_cast h
    exact hle.trans_lt (pow_lt_pow_right₀ (by norm_num) (by norm_num))
  rcases lt_or_eq_of_le h with hlt | heq
  · exact ⟨z, 0, hlt, by norm_num, by simp, hbound⟩
  · rcases abs_eq (by norm_num) |>.mp heq with rfl | rfl
    · exact ⟨2 ^ 52, 1, by norm_num, by norm_num, by norm_num, hbound⟩
    · exact ⟨-2 ^ 52, 1, by norm_num, by norm_num, by norm_num, hbound⟩

theorem ofI64_of_abs_le {i : Int64} (h : |i.toInt| ≤ 2 ^ 53) : ofI64 i = .fin i.toInt :=
  round_of_representable (representable_of_abs_le h)

end Val

namespace F64

variable (f : F64)

/-- The mantissa with the sign of the float. -/
def significand : ℤ := if f.negative then -f.mantissa else f.mantissa

/-- What a float stands for. -/
def val : Val :=
  if f.exponent = 2047 then if f.fraction ≠ 0 then .nan else if f.negative then .negInf else .posInf
  else .fin (f.significand * 2 ^ ((f.scale : ℤ) - 1075))

variable {f}

theorem mantissa_lt : f.mantissa < 2 ^ 53 := by
  have := Nat.mod_lt f.bits.toNat (show 0 < 2 ^ 52 by decide)
  unfold mantissa fraction
  split_ifs <;> omega

theorem abs_significand_lt : |f.significand| < 2 ^ 53 := by
  have := mantissa_lt (f := f)
  rw [significand, abs_lt]
  split_ifs <;> omega

theorem scale_le (h : f.exponent ≠ 2047) : f.scale ≤ 2046 := by
  have : f.exponent < 2 ^ 11 := Nat.mod_lt _ (by decide)
  unfold scale
  omega

theorem val_eq_fin {q : ℚ} (h : f.val = .fin q) :
    f.exponent ≠ 2047 ∧ q = f.significand * 2 ^ ((f.scale : ℤ) - 1075) := by
  unfold val at h
  by_cases hexp : f.exponent = 2047
  · rw [if_pos hexp] at h
    split_ifs at h
  · rw [if_neg hexp] at h
    exact ⟨hexp, (Val.fin.inj h).symm⟩

theorem abs_lt_pow {q : ℚ} (h : f.val = .fin q) {k : ℤ} (hk : (f.scale : ℤ) - 1075 ≤ k) : |q| < 2 ^ (53 + k) := by
  obtain ⟨-, rfl⟩ := val_eq_fin h
  have hs : |(f.significand : ℚ)| < 2 ^ 53 := by exact_mod_cast abs_significand_lt
  rw [abs_mul, abs_of_pos (by positivity : (0 : ℚ) < 2 ^ ((f.scale : ℤ) - 1075)), zpow_add₀ (by norm_num)]
  have hpow : (2 : ℚ) ^ ((f.scale : ℤ) - 1075) ≤ 2 ^ k := zpow_le_zpow_right₀ (by norm_num) hk
  exact mul_lt_mul hs hpow (by positivity) (by positivity)

theorem representable_val {q : ℚ} (h : f.val = .fin q) : Val.Representable q := by
  obtain ⟨hexp, hq⟩ := val_eq_fin h
  have hscale := scale_le hexp
  have hone : 1 ≤ f.scale := le_max_right _ _
  refine ⟨f.significand, f.scale - 1075, abs_significand_lt, by omega, hq, ?_⟩
  exact (abs_lt_pow h (k := 971) (by omega)).trans_eq (by norm_num)

theorem sign_val {q : ℚ} (h : f.val = .fin q) : if f.negative then q ≤ 0 else 0 ≤ q := by
  obtain ⟨-, rfl⟩ := val_eq_fin h
  have hm : (0 : ℚ) ≤ f.mantissa := Nat.cast_nonneg _
  have hpow : (0 : ℚ) ≤ 2 ^ ((f.scale : ℤ) - 1075) := by positivity
  rw [significand]
  split_ifs
  · rw [Int.cast_neg, Int.cast_natCast, neg_mul]
    exact neg_nonpos.mpr (mul_nonneg hm hpow)
  · rw [Int.cast_natCast]
    exact mul_nonneg hm hpow

/-- A float with a fraction is small enough that its neighbours are floats. -/
theorem abs_lt_of_fraction {q : ℚ} (h : f.val = .fin q) (hfrac : (⌊q⌋ : ℚ) ≠ q) : |q| < 2 ^ 52 := by
  refine (abs_lt_pow h (k := -1) ?_).trans_eq (by norm_num)
  by_contra hbig
  obtain ⟨-, rfl⟩ := val_eq_fin h
  obtain ⟨d, hd⟩ := Int.eq_ofNat_of_zero_le (show (0 : ℤ) ≤ f.scale - 1075 by omega)
  apply hfrac
  rw [hd, zpow_natCast, show (f.significand : ℚ) * 2 ^ d = ((f.significand * 2 ^ d : ℤ) : ℚ) by push_cast; rfl,
    Int.floor_intCast]

/-! ## The bits of a value -/

variable {g : F64}

/-- The bits of a float are its sign, its exponent and its fraction. -/
theorem toNat_bits : f.bits.toNat = f.negative.toNat * 2 ^ 63 + f.exponent * 2 ^ 52 + f.fraction := by
  have hlt := f.bits.toNat_lt
  have hneg : f.negative.toNat = f.bits.toNat / 2 ^ 63 := by
    rw [negative]
    by_cases h : 2 ^ 63 ≤ f.bits.toNat
    · rw [decide_eq_true h]
      simp
      omega
    · rw [decide_eq_false h]
      simp
      omega
  rw [hneg, exponent, fraction]
  omega

theorem le_mantissa (h : 1 < f.scale) : 2 ^ 52 ≤ f.mantissa := by
  have hexp : f.exponent ≠ 0 := fun he => by rw [scale, he] at h; omega
  rw [mantissa, if_neg hexp]
  omega

theorem scale_le_of_eq (h : f.mantissa * 2 ^ f.scale = g.mantissa * 2 ^ g.scale) : g.scale ≤ f.scale := by
  by_contra hlt
  have hg := le_mantissa (f := g) (lt_of_le_of_lt (le_max_right _ _) (not_le.mp hlt))
  have hf := mantissa_lt (f := f)
  obtain ⟨d, hd⟩ := Nat.exists_eq_add_of_lt (not_le.mp hlt)
  rw [hd, show f.scale + d + 1 = d + 1 + f.scale by omega, pow_add, ← mul_assoc] at h
  have hmul := Nat.eq_of_mul_eq_mul_right (by positivity) h
  have hpow : 2 ≤ 2 ^ (d + 1) := Nat.le_self_pow (by omega) 2
  have := Nat.mul_le_mul hg hpow
  omega

theorem significand_mul : (f.significand : ℚ) * 2 ^ ((f.scale : ℤ) - 1075) =
    (if f.negative then -(f.mantissa * 2 ^ f.scale : ℚ) else f.mantissa * 2 ^ f.scale) * 2 ^ (-1075 : ℤ) := by
  rw [significand, sub_eq_add_neg, zpow_add₀ (by norm_num), zpow_natCast]
  generalize (2 : ℚ) ^ (-1075 : ℤ) = b
  split_ifs <;> push_cast <;> ring

/-- A finite float is known by its sign and its value. -/
theorem eq_of_val (hneg : f.negative = g.negative) {q : ℚ} (hf : f.val = .fin q) (hg : g.val = .fin q) : f = g := by
  obtain ⟨hef, hqf⟩ := val_eq_fin hf
  obtain ⟨heg, hqg⟩ := val_eq_fin hg
  have hmul : f.mantissa * 2 ^ f.scale = g.mantissa * 2 ^ g.scale := by
    have heq := hqf.symm.trans hqg
    rw [significand_mul, significand_mul, hneg] at heq
    have hcancel : (f.mantissa * 2 ^ f.scale : ℚ) = g.mantissa * 2 ^ g.scale := by
      split_ifs at heq with h
      · exact neg_injective (mul_right_cancel₀ (by positivity) heq)
      · exact mul_right_cancel₀ (by positivity) heq
    exact_mod_cast hcancel
  have hscale := le_antisymm (scale_le_of_eq hmul.symm) (scale_le_of_eq hmul)
  have hmantissa : f.mantissa = g.mantissa := by
    rw [hscale] at hmul
    exact Nat.eq_of_mul_eq_mul_right (by positivity) hmul
  have hlt (h : F64) : h.fraction < 2 ^ 52 := Nat.mod_lt _ (by decide)
  have hflt := hlt f
  have hglt := hlt g
  have hbits : f.exponent = g.exponent ∧ f.fraction = g.fraction := by
    unfold scale at hscale
    unfold mantissa at hmantissa
    split_ifs at hmantissa <;> omega
  obtain ⟨fb⟩ := f
  obtain ⟨gb⟩ := g
  refine congrArg mk (UInt64.toNat_inj.mp ?_)
  have h1 := toNat_bits (f := ⟨fb⟩)
  have h2 := toNat_bits (f := ⟨gb⟩)
  rw [hneg, hbits.1, hbits.2, ← h2] at h1
  exact h1

end F64

/-! ## Floats as integers -/

inductive F2Imod
  | eq | floor | ceil
  deriving DecidableEq

/-- The end of `luaV_flttointeger`: the conversion of a float in range. -/
def Val.inRange (f : Val) : Option Int64 :=
  if (Val.fin (-2 ^ 63)).le f && f.lt (.fin (2 ^ 63)) then some f.asI64 else none

def luaV_flttointeger (n : F64) (mode : F2Imod) : Option Int64 :=
  let f := n.val.floor
  if n.val.eq f then f.inRange
  else match mode with
    | .eq => none
    | .ceil => f.addOne.inRange
    | .floor => f.inRange

/-- A number as an `i64`, if it fits. -/
def fits (z : ℤ) : Option Int64 := if -2 ^ 63 ≤ z ∧ z < 2 ^ 63 then some (.ofInt z) else none

theorem inRange_intCast (z : ℤ) : (Val.fin z).inRange = fits z := by
  have hlow : ((-2 ^ 63 : ℚ) ≤ z) ↔ -2 ^ 63 ≤ z := by exact_mod_cast Iff.rfl
  have hhigh : ((z : ℚ) < 2 ^ 63) ↔ z < 2 ^ 63 := by exact_mod_cast Iff.rfl
  have htrunc : (if (z : ℚ) < 0 then ⌈(z : ℚ)⌉ else ⌊(z : ℚ)⌋) = z := by simp
  simp only [Val.inRange, Val.le, Val.lt, Bool.and_eq_true, decide_eq_true_eq, hlow, hhigh, fits]
  by_cases h : -2 ^ 63 ≤ z ∧ z < 2 ^ 63
  · rw [if_pos h, if_pos h, Val.asI64, htrunc, min_eq_right (by omega), max_eq_right h.1]
  · rw [if_neg h, if_neg h]

/-- A float is rounded up by adding one to its floor. -/
theorem addOne_floor {n : F64} {q : ℚ} (h : n.val = .fin q) (hfrac : (⌊q⌋ : ℚ) ≠ q) :
    (Val.fin ⌊q⌋).addOne = .fin ⌈q⌉ := by
  have hceil : ⌈q⌉ = ⌊q⌋ + 1 := by
    rw [Int.ceil_eq_iff]
    have hle := Int.floor_le q
    have hlt := Int.lt_floor_add_one q
    push_cast
    exact ⟨by linarith [lt_of_le_of_ne hle hfrac], hlt.le⟩
  obtain ⟨hlow, hhigh⟩ := abs_lt.mp (F64.abs_lt_of_fraction h hfrac)
  have hlowz : (-2 ^ 52 : ℤ) ≤ ⌊q⌋ := Int.le_floor.mpr (by push_cast; exact hlow.le)
  have hhighz : ⌊q⌋ < (2 ^ 52 : ℤ) := Int.floor_lt.mpr (by push_cast; exact hhigh)
  rw [Val.addOne, hceil, show (⌊q⌋ : ℚ) + 1 = ((⌊q⌋ + 1 : ℤ) : ℚ) by push_cast; rfl]
  exact Val.round_of_representable (Val.representable_of_abs_le (abs_le.mpr ⟨by omega, by omega⟩))

/-- The three ways to make an integer of a float. -/
theorem luaV_flttointeger_eq (n : F64) (mode : F2Imod) : luaV_flttointeger n mode = match n.val with
    | .fin q => match mode with
      | .eq => if (⌊q⌋ : ℚ) = q then fits ⌊q⌋ else none
      | .floor => fits ⌊q⌋
      | .ceil => fits ⌈q⌉
    | _ => none := by
  unfold luaV_flttointeger
  cases h : n.val with
  | nan | negInf | posInf => cases mode <;> rfl
  | fin q =>
    simp only [Val.floor, Val.eq, decide_eq_true_eq]
    by_cases hfrac : q = ⌊q⌋
    · have hceil : ⌈q⌉ = ⌊q⌋ := by
        conv_lhs => rw [hfrac]
        exact Int.ceil_intCast _
      rw [if_pos hfrac, inRange_intCast]
      cases mode with
      | eq => exact (if_pos hfrac.symm).symm
      | floor => rfl
      | ceil => rw [hceil]
    · rw [if_neg hfrac]
      cases mode with
      | eq => exact (if_neg fun hq => hfrac hq.symm).symm
      | floor => exact inRange_intCast _
      | ceil =>
        change ((Val.fin ⌊q⌋).addOne).inRange = fits ⌈q⌉
        rw [addOne_floor h fun hq => hfrac hq.symm]
        exact inRange_intCast _

end Tsuki
