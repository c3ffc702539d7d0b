import Mathlib.Order.Defs.Unbundled
import Tsuki.F64.Value
import Tsuki.Lex.Numeral
import Tsuki.Vm.Arith

/-!
# Comparison of numbers

An integer is compared with a float as floats where its conversion is exact, else as integers, with the float rounded
to the side that keeps the answer. Both numbers have an exact value in the rationals with two infinities, or none for
a NaN. Each comparison is shown to be that of the exact values, by the range in which the conversion is exact; the
laws of an order come from there.
-/

namespace Tsuki.Compare

open Tsuki.Lex (Number)

/-- The guard of the four comparisons: the integers that are floats. -/
def exactRange (i : Int64) : Bool := ((1 : UInt64) <<< 53) + i.toUInt64 ≤ (2 : UInt64) * ((1 : UInt64) <<< 53)

def LTintfloat (i : Int64) (f : F64) : Bool :=
  if exactRange i then (Val.ofI64 i).lt f.val
  else match luaV_flttointeger f .ceil with
    | some fi => i < fi
    | none => (Val.fin 0).lt f.val

def LEintfloat (i : Int64) (f : F64) : Bool :=
  if exactRange i then (Val.ofI64 i).le f.val
  else match luaV_flttointeger f .floor with
    | some fi => i ≤ fi
    | none => (Val.fin 0).lt f.val

def LTfloatint (f : F64) (i : Int64) : Bool :=
  if exactRange i then f.val.lt (Val.ofI64 i)
  else match luaV_flttointeger f .floor with
    | some fi => fi < i
    | none => f.val.lt (.fin 0)

def LEfloatint (f : F64) (i : Int64) : Bool :=
  if exactRange i then f.val.le (Val.ofI64 i)
  else match luaV_flttointeger f .ceil with
    | some fi => fi ≤ i
    | none => f.val.lt (.fin 0)

def LTnum : Number → Number → Bool
  | .int li, .int ri => li < ri
  | .int li, .float rf => LTintfloat li rf
  | .float lf, .float rf => lf.val.lt rf.val
  | .float lf, .int ri => LTfloatint lf ri

def LEnum : Number → Number → Bool
  | .int li, .int ri => li ≤ ri
  | .int li, .float rf => LEintfloat li rf
  | .float lf, .float rf => lf.val.le rf.val
  | .float lf, .int ri => LEfloatint lf ri

/-- `luaV_tointegerns` of a number. -/
def luaV_tointegerns (mode : F2Imod) : Number → Option Int64
  | .float n => luaV_flttointeger n mode
  | .int i => some i

def eqNum (t1 t2 : Number) : Bool :=
  match luaV_tointegerns .eq t1, luaV_tointegerns .eq t2 with
  | some i1, some i2 => i1 = i2
  | _, _ => false

/-- `luaV_equalobj` of two numbers: only different subtypes need a conversion. -/
def luaV_equalobj : Number → Number → Bool
  | .int i1, .int i2 => i1 = i2
  | .float n1, .float n2 => n1.val.eq n2.val
  | t1, t2 => eqNum t1 t2

/-! ## The numbers -/

/-- Rational numbers with two infinities. -/
abbrev Ext := WithBot (WithTop ℚ)

/-- The exact number; a NaN is none. -/
def exact : Val → Option Ext
  | .nan => none
  | .negInf => some ⊥
  | .fin q => some ((q : WithTop ℚ) : Ext)
  | .posInf => some ((⊤ : WithTop ℚ) : Ext)

/-- What a number stands for. -/
def num : Number → Val
  | .int i => .fin i.toInt
  | .float f => f.val

theorem lt_iff (a b : Val) : a.lt b = true ↔ ∃ x y, exact a = some x ∧ exact b = some y ∧ x < y := by
  have htop (q : ℚ) : ((q : WithTop ℚ) : Ext) < ⊤ := WithBot.coe_lt_coe.mpr (WithTop.coe_lt_top q)
  cases a <;> cases b <;> simp [Val.lt, exact, htop]

theorem le_iff (a b : Val) : a.le b = true ↔ ∃ x y, exact a = some x ∧ exact b = some y ∧ x ≤ y := by
  cases a <;> cases b <;> simp [Val.le, exact]

theorem eq_iff (a b : Val) : a.eq b = true ↔ ∃ x y, exact a = some x ∧ exact b = some y ∧ x = y := by
  cases a <;> cases b <;> simp [Val.eq, exact, eq_comm]

/-! ## The four mixed comparisons -/

theorem exactRange_iff (i : Int64) : exactRange i = true ↔ |i.toInt| ≤ 2 ^ 53 := by
  have hi := Arith.toInt_bounds i
  have hu := Arith.toNat_toUInt64 i
  have hpow : ((1 : UInt64) <<< 53).toNat = 2 ^ 53 := by decide
  have hdouble : ((2 : UInt64) * ((1 : UInt64) <<< 53)).toNat = 2 ^ 54 := by decide
  rw [exactRange, decide_eq_true_eq, UInt64.le_iff_toNat_le, UInt64.toNat_add, hpow, hdouble, abs_le]
  omega

theorem fits_cases (z : ℤ) : (fits z = none ∧ (z < -2 ^ 63 ∨ 2 ^ 63 ≤ z)) ∨ ∃ v, fits z = some v ∧ v.toInt = z := by
  unfold fits
  split_ifs with h
  · exact .inr ⟨_, rfl, Int64.toInt_ofInt_of_le h.1 h.2⟩
  · exact .inl ⟨rfl, by omega⟩

/-- An integer is below a number if it is below the number rounded up. -/
theorem LTintfloat_eq (i : Int64) (f : F64) : LTintfloat i f = (Val.fin i.toInt).lt f.val := by
  have hi := Arith.toInt_bounds i
  unfold LTintfloat
  split_ifs with hexact
  · rw [Val.ofI64_of_abs_le ((exactRange_iff i).mp hexact)]
  · rw [luaV_flttointeger_eq]
    cases f.val with
    | nan | negInf | posInf => rfl
    | fin q =>
      have hlt : (i.toInt : ℚ) < q ↔ i.toInt < ⌈q⌉ := Int.lt_ceil.symm
      rcases fits_cases ⌈q⌉ with ⟨hnone, hout⟩ | ⟨v, hsome, hv⟩
      · have hpos : 0 < q ↔ 0 < ⌈q⌉ := Int.ceil_pos.symm
        simp only [hnone, Val.lt, hlt, hpos, decide_eq_decide]
        omega
      · simp only [hsome, Val.lt, hlt, Int64.lt_iff_toInt_lt, hv]

theorem LEintfloat_eq (i : Int64) (f : F64) : LEintfloat i f = (Val.fin i.toInt).le f.val := by
  have hi := Arith.toInt_bounds i
  unfold LEintfloat
  split_ifs with hexact
  · rw [Val.ofI64_of_abs_le ((exactRange_iff i).mp hexact)]
  · rw [luaV_flttointeger_eq]
    cases f.val with
    | nan | negInf | posInf => rfl
    | fin q =>
      have hle : (i.toInt : ℚ) ≤ q ↔ i.toInt ≤ ⌊q⌋ := Int.le_floor.symm
      rcases fits_cases ⌊q⌋ with ⟨hnone, hout⟩ | ⟨v, hsome, hv⟩
      · have hlow : 0 < q → 0 ≤ ⌊q⌋ := fun h => Int.floor_nonneg.mpr h.le
        have hhigh : 0 < ⌊q⌋ → 0 < q := fun h => lt_of_lt_of_le (by exact_mod_cast h) (Int.floor_le q)
        simp only [hnone, Val.lt, Val.le, hle, decide_eq_decide]
        exact ⟨fun h => by have := hlow h; omega, fun h => hhigh (by omega)⟩
      · simp only [hsome, Val.le, hle, Int64.le_iff_toInt_le, hv]

theorem LTfloatint_eq (f : F64) (i : Int64) : LTfloatint f i = f.val.lt (.fin i.toInt) := by
  have hi := Arith.toInt_bounds i
  unfold LTfloatint
  split_ifs with hexact
  · rw [Val.ofI64_of_abs_le ((exactRange_iff i).mp hexact)]
  · rw [luaV_flttointeger_eq]
    cases f.val with
    | nan | negInf | posInf => rfl
    | fin q =>
      have hlt : q < i.toInt ↔ ⌊q⌋ < i.toInt := Int.floor_lt.symm
      rcases fits_cases ⌊q⌋ with ⟨hnone, hout⟩ | ⟨v, hsome, hv⟩
      · have hneg : q < 0 ↔ ⌊q⌋ < 0 := by simpa using (Int.floor_lt (a := q) (z := 0)).symm
        simp only [hnone, Val.lt, hlt, hneg, decide_eq_decide]
        omega
      · simp only [hsome, Val.lt, hlt, Int64.lt_iff_toInt_lt, hv]

theorem LEfloatint_eq (f : F64) (i : Int64) : LEfloatint f i = f.val.le (.fin i.toInt) := by
  have hi := Arith.toInt_bounds i
  unfold LEfloatint
  split_ifs with hexact
  · rw [Val.ofI64_of_abs_le ((exactRange_iff i).mp hexact)]
  · rw [luaV_flttointeger_eq]
    cases f.val with
    | nan | negInf | posInf => rfl
    | fin q =>
      have hle : q ≤ i.toInt ↔ ⌈q⌉ ≤ i.toInt := Int.ceil_le.symm
      rcases fits_cases ⌈q⌉ with ⟨hnone, hout⟩ | ⟨v, hsome, hv⟩
      · have hlow : q < 0 → ⌈q⌉ ≤ 0 := fun h => Int.ceil_le.mpr (by exact_mod_cast h.le)
        have hhigh : ⌈q⌉ < 0 → q < 0 := fun h => lt_of_le_of_lt (Int.le_ceil q) (by exact_mod_cast h)
        simp only [hnone, Val.lt, Val.le, hle, decide_eq_decide]
        exact ⟨fun h => by have := hlow h; omega, fun h => hhigh (by omega)⟩
      · simp only [hsome, Val.le, hle, Int64.le_iff_toInt_le, hv]

theorem LTnum_eq (a b : Number) : LTnum a b = (num a).lt (num b) := by
  cases a <;> cases b
  · simp [LTnum, num, Val.lt, Int64.lt_iff_toInt_lt]
  · exact LTintfloat_eq _ _
  · exact LTfloatint_eq _ _
  · rfl

theorem LEnum_eq (a b : Number) : LEnum a b = (num a).le (num b) := by
  cases a <;> cases b
  · simp [LEnum, num, Val.le, Int64.le_iff_toInt_le]
  · exact LEintfloat_eq _ _
  · exact LEfloatint_eq _ _
  · rfl

theorem eq_fin_iff (v : Val) (q : ℚ) : v.eq (.fin q) = true ↔ v = .fin q := by
  cases v <;> simp [Val.eq]

theorem eq_symm (a b : Val) : a.eq b = b.eq a := by
  cases a <;> cases b <;> simp [Val.eq, eq_comm]

theorem flttointeger_eq_some {f : F64} {i : Int64} :
    luaV_flttointeger f .eq = some i ↔ f.val = .fin i.toInt := by
  have hi := Arith.toInt_bounds i
  rw [luaV_flttointeger_eq]
  cases f.val with
  | nan | negInf | posInf => simp
  | fin q =>
    change (if (⌊q⌋ : ℚ) = q then fits ⌊q⌋ else none) = some i ↔ _
    rw [Val.fin.injEq]
    constructor
    · intro h
      split_ifs at h with hq
      rcases fits_cases ⌊q⌋ with ⟨hnone, -⟩ | ⟨v, hsome, hv⟩
      · rw [hnone] at h
        cases h
      · rw [← hq, ← hv, Option.some.inj (hsome.symm.trans h)]
    · rintro rfl
      rw [Int.floor_intCast, if_pos rfl, fits, if_pos hi, Int64.ofInt_toInt]

theorem eqNum_int_float (i : Int64) (f : F64) : eqNum (.int i) (.float f) = f.val.eq (.fin i.toInt) := by
  rw [Bool.eq_iff_iff, eq_fin_iff, ← flttointeger_eq_some, eqNum, luaV_tointegerns, luaV_tointegerns]
  cases luaV_flttointeger f .eq with
  | none => simp
  | some j => simp [eq_comm]

theorem eqNum_comm (a b : Number) : eqNum a b = eqNum b a := by
  unfold eqNum
  cases luaV_tointegerns .eq a <;> cases luaV_tointegerns .eq b <;> simp [eq_comm]

theorem luaV_equalobj_eq (a b : Number) : luaV_equalobj a b = (num a).eq (num b) := by
  cases a with
  | int i =>
    cases b with
    | int j => simp [luaV_equalobj, num, Val.eq, ← Int64.toInt_inj]
    | float f => exact (eqNum_int_float i f).trans (eq_symm _ _)
  | float f =>
    cases b with
    | int j => exact (eqNum_comm _ _).trans (eqNum_int_float j f)
    | float g => rfl

/-! ## The order of the numbers -/

/-- A number that is no NaN. -/
abbrev Ordered := {a : Number // exact (num a) ≠ none}

/-- The exact number. -/
def Ordered.ext (a : Ordered) : Ext := (exact (num a)).get (Option.ne_none_iff_isSome.mp a.2)

theorem Ordered.exact_eq (a : Ordered) : exact (num a.1) = some a.ext := (Option.some_get _).symm

theorem Ordered.lt_iff (a b : Ordered) : LTnum a b = true ↔ a.ext < b.ext := by
  rw [LTnum_eq, Compare.lt_iff, a.exact_eq, b.exact_eq]
  simp

theorem Ordered.le_iff (a b : Ordered) : LEnum a b = true ↔ a.ext ≤ b.ext := by
  rw [LEnum_eq, Compare.le_iff, a.exact_eq, b.exact_eq]
  simp

theorem Ordered.eq_iff (a b : Ordered) : luaV_equalobj a b = true ↔ a.ext = b.ext := by
  rw [luaV_equalobj_eq, Compare.eq_iff, a.exact_eq, b.exact_eq]
  simp [eq_comm]

/-- The comparisons are those of the exact numbers, and a NaN compares with nothing; `<` is a strict weak order of
the other numbers, with `<=` and equality to match. -/
theorem comparison_exact :
    (∀ a b, (LTnum a b = true ↔ ∃ x y, exact (num a) = some x ∧ exact (num b) = some y ∧ x < y) ∧
      (LEnum a b = true ↔ ∃ x y, exact (num a) = some x ∧ exact (num b) = some y ∧ x ≤ y) ∧
      (luaV_equalobj a b = true ↔ ∃ x y, exact (num a) = some x ∧ exact (num b) = some y ∧ x = y)) ∧
    IsStrictWeakOrder Ordered (fun a b => LTnum a b = true) ∧
    ∀ a b : Ordered, LEnum a b = !LTnum b a ∧ luaV_equalobj a b = (!LTnum a b && !LTnum b a) := by
  refine ⟨fun a b => ?_, ?_, fun a b => ?_⟩
  · rw [LTnum_eq, LEnum_eq, luaV_equalobj_eq]
    exact ⟨lt_iff _ _, le_iff _ _, eq_iff _ _⟩
  · exact {
      irrefl := fun a h => lt_irrefl _ ((a.lt_iff a).mp h)
      trans := fun a b c hab hbc => (a.lt_iff c).mpr (((a.lt_iff b).mp hab).trans ((b.lt_iff c).mp hbc))
      incomp_trans := by
        intro a b c
        simp only [Ordered.lt_iff, not_lt]
        rintro ⟨hba, hab⟩ ⟨hcb, hbc⟩
        exact ⟨hcb.trans hba, hab.trans hbc⟩ }
  · constructor
    · rw [Bool.eq_iff_iff, a.le_iff, Bool.not_eq_true', Bool.eq_false_iff, ne_eq, b.lt_iff, not_lt]
    · rw [Bool.eq_iff_iff, a.eq_iff, Bool.and_eq_true, Bool.not_eq_true', Bool.not_eq_true', Bool.eq_false_iff,
        Bool.eq_false_iff, ne_eq, ne_eq, a.lt_iff, b.lt_iff, not_lt, not_lt, and_comm]
      exact le_antisymm_iff

end Tsuki.Compare
