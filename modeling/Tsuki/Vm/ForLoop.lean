import Tsuki.Vm.Compare

/-!
# The integer `for` loop

`forprep` computes the number of iterations beforehand and keeps it in place of the limit; `OP_FORLOOP` counts it
down. A limit that is a float is rounded, and one out of the range of `i64` is clipped. The loop is a map over a range
once the number of iterations is known. The clipped limit has the same integers on its near side as the limit itself,
so the count is that of the multiples of the step up to it.
-/

namespace Tsuki.ForLoop

open Tsuki.Lex (Number)
open Tsuki.Arith (resultI64)
open Tsuki.Compare (luaV_tointegerns num exact Ext)

/-- The four registers of a loop over integers: the index, the count of the iterations left, the step, and the
variable that the body sees. -/
structure ForRegs where
  idx : Int64
  count : Int64
  step : Int64
  control : Int64

/-- `luaV_tonumber_` of a number. -/
def luaV_tonumber : Number → Val
  | .float n => n.val
  | .int i => .ofI64 i

/-- The limit that `forlimit` stores, unless the loop does not run because the limit is out of range. -/
def clip (lim : Number) (step : Int64) : Option Int64 :=
  match luaV_tointegerns (if step < 0 then .ceil else .floor) lim with
  | some v => some v
  | none =>
    if (Val.fin 0).lt (luaV_tonumber lim) then
      if step < 0 then none else some Int64.maxValue
    else if step > 0 then none
    else some Int64.minValue

/-- `forlimit`: the limit, unless the loop does not run. -/
def forlimit (init : Int64) (lim : Number) (step : Int64) : Option Int64 :=
  (clip lim step).filter fun p => !(if step > 0 then decide (init > p) else decide (init < p))

variable (checks : Bool)

/-- `/` of `u64`. -/
def divU64 (a b : UInt64) : Rust UInt64 := if b = 0 then .error .panic else .ok (a / b)

/-- The number of iterations behind the first. -/
def iterations (init limit step : Int64) : Rust UInt64 :=
  if step > 0 then
    if step ≠ 1 then divU64 (limit.toUInt64 - init.toUInt64) step.toUInt64
    else .ok (limit.toUInt64 - init.toUInt64)
  else do
    let next ← resultI64 checks (step.toInt + 1)
    let neg ← resultI64 checks (-next.toInt)
    divU64 (init.toUInt64 - limit.toUInt64) (neg.toUInt64 + 1)

/-- `forprep` of an integer loop: the registers, unless the loop does not run. -/
def forprep (init : Int64) (limit : Number) (step : Int64) : Rust (Option ForRegs) :=
  if step = 0 then .error (.msg "'for' step is zero")
  else match forlimit init limit step with
    | none => .ok none
    | some p => do return some ⟨init, (← iterations checks init p step).toInt64, step, init⟩

/-- `OP_FORLOOP`: the registers for the next iteration, if there is one. -/
def forloop (r : ForRegs) : Option ForRegs :=
  if r.count.toUInt64 > 0 then
    let idx := (r.idx.toUInt64 + r.step.toUInt64).toInt64
    some ⟨idx, (r.count.toUInt64 - 1).toInt64, r.step, idx⟩
  else none

/-- The values of the variable in the iterations; `body` is what the body leaves in it. -/
def iterate (body : Int64 → Int64) : Nat → ForRegs → Option (List Int64)
  | 0, _ => none
  | fuel + 1, r =>
    match forloop { r with control := body r.control } with
    | none => some [r.control]
    | some r' => (iterate body fuel r').map (r.control :: ·)

/-- The whole loop. -/
def visits (body : Int64 → Int64) (fuel : Nat) (init : Int64) (limit : Number) (step : Int64) :
    Rust (Option (List Int64)) := do
  match ← forprep checks init limit step with
  | none => return some []
  | some r => return iterate body fuel r

/-! ## The limit -/

/-- The integers that fit. -/
def IsI64 (x : ℤ) : Prop := -2 ^ 63 ≤ x ∧ x < 2 ^ 63

theorem isI64 (i : Int64) : IsI64 i.toInt := ⟨i.le_toInt, i.toInt_lt⟩

/-- An integer among the numbers. -/
def ofInt (x : ℤ) : Ext := (((x : ℚ) : WithTop ℚ) : Ext)

/-- Not beyond the limit, in the direction of the step. -/
def Within (step : ℤ) (limit : Ext) (x : ℤ) : Prop := if 0 < step then ofInt x ≤ limit else limit ≤ ofInt x

theorem ofInt_le_iff {x : ℤ} {q : ℚ} : ofInt x ≤ ((q : WithTop ℚ) : Ext) ↔ (x : ℚ) ≤ q := by simp [ofInt]

theorem le_ofInt_iff {x : ℤ} {q : ℚ} : ((q : WithTop ℚ) : Ext) ≤ ofInt x ↔ q ≤ x := by simp [ofInt]

theorem step_pos {step : Int64} : 0 < step.toInt ↔ step > 0 := by
  rw [gt_iff_lt, Int64.lt_iff_toInt_lt]
  rfl

theorem step_neg {step : Int64} : step.toInt < 0 ↔ step < 0 := by
  rw [Int64.lt_iff_toInt_lt]
  rfl

/-- Rounding the limit down, and clipping it, keeps the integers up to it. -/
theorem clip_up {lim : Number} {step : Int64} (hstep : 0 < step.toInt) {y : Ext} (hy : exact (num lim) = some y)
    {x : ℤ} (hx : IsI64 x) : (∃ p, clip lim step = some p ∧ x ≤ p.toInt) ↔ ofInt x ≤ y := by
  obtain ⟨hlow, hhigh⟩ := hx
  have hpos := step_pos.mp hstep
  have hneg : ¬step < 0 := fun h => absurd (step_neg.mpr h) (by omega)
  cases lim with
  | int i =>
    cases hy
    rw [ofInt_le_iff]
    simp [clip, luaV_tointegerns]
  | float f =>
    unfold clip
    rw [if_neg hneg, luaV_tointegerns, luaV_flttointeger_eq, luaV_tonumber]
    simp only [num] at hy
    cases hv : f.val with
    | nan => rw [hv] at hy; cases hy
    | negInf =>
      rw [hv] at hy
      cases hy
      simp [Val.lt, hpos, ofInt]
    | posInf =>
      rw [hv] at hy
      cases hy
      have hmax : Int64.maxValue.toInt = 2 ^ 63 - 1 := rfl
      simp [Val.lt, hneg, hmax]
      omega
    | fin q =>
      rw [hv] at hy
      cases hy
      rw [ofInt_le_iff, ← Int.le_floor]
      rcases Compare.fits_cases ⌊q⌋ with ⟨hnone, hout⟩ | ⟨v, hsome, hv⟩
      · have hzero : 0 < q → 0 ≤ ⌊q⌋ := fun h => Int.floor_nonneg.mpr h.le
        have hzero' : 0 < ⌊q⌋ → 0 < q := fun h => lt_of_lt_of_le (by exact_mod_cast h) (Int.floor_le q)
        have hmax : Int64.maxValue.toInt = 2 ^ 63 - 1 := rfl
        simp only [hnone, Val.lt, decide_eq_true_eq, hneg, hpos, if_true, if_false]
        split_ifs with h
        · have := hzero h
          simp only [Option.some.injEq, exists_eq_left', hmax]
          omega
        · have := mt hzero' h
          simp only [false_and, exists_false, false_iff]
          omega
      · simp only [hsome, Option.some.injEq, exists_eq_left', hv]

/-- Rounding the limit up, and clipping it, keeps the integers down to it. -/
theorem clip_down {lim : Number} {step : Int64} (hstep : step.toInt < 0) {y : Ext} (hy : exact (num lim) = some y)
    {x : ℤ} (hx : IsI64 x) : (∃ p, clip lim step = some p ∧ p.toInt ≤ x) ↔ y ≤ ofInt x := by
  obtain ⟨hlow, hhigh⟩ := hx
  have hneg := step_neg.mp hstep
  have hpos : ¬step > 0 := fun h => absurd (step_pos.mpr h) (by omega)
  cases lim with
  | int i =>
    cases hy
    rw [le_ofInt_iff]
    simp [clip, luaV_tointegerns]
  | float f =>
    unfold clip
    rw [if_pos hneg, luaV_tointegerns, luaV_flttointeger_eq, luaV_tonumber]
    simp only [num] at hy
    cases hv : f.val with
    | nan => rw [hv] at hy; cases hy
    | negInf =>
      rw [hv] at hy
      cases hy
      have hmin : Int64.minValue.toInt = -2 ^ 63 := rfl
      simp [Val.lt, hpos, hmin]
      omega
    | posInf =>
      rw [hv] at hy
      cases hy
      have htop : ofInt x < ((⊤ : WithTop ℚ) : Ext) := WithBot.coe_lt_coe.mpr (WithTop.coe_lt_top _)
      rw [← not_lt, iff_not_comm]
      simp [Val.lt, hneg, -WithBot.coe_top, htop]
    | fin q =>
      rw [hv] at hy
      cases hy
      rw [le_ofInt_iff, ← Int.ceil_le]
      rcases Compare.fits_cases ⌈q⌉ with ⟨hnone, hout⟩ | ⟨v, hsome, hv⟩
      · have hzero : 0 < q → 0 < ⌈q⌉ := fun h => Int.ceil_pos.mpr h
        have hzero' : 0 < ⌈q⌉ → 0 < q := fun h => Int.ceil_pos.mp h
        have hmin : Int64.minValue.toInt = -2 ^ 63 := rfl
        simp only [hnone, Val.lt, decide_eq_true_eq, hneg, hpos, if_true, if_false]
        split_ifs with h
        · have := hzero h
          simp only [false_and, exists_false, false_iff]
          omega
        · have := mt hzero' h
          simp only [Option.some.injEq, exists_eq_left', hmin]
          omega
      · simp only [hsome, Option.some.injEq, exists_eq_left', hv]

/-! ## The iterations -/

theorem toInt_add_step {i s : Int64} (h : IsI64 (i.toInt + s.toInt)) :
    (i.toUInt64 + s.toUInt64).toInt64.toInt = i.toInt + s.toInt := by
  rw [Arith.add_eq, Int64.toInt_ofInt_of_le h.1 h.2]

theorem range_succ_map (x s : ℤ) (c : Nat) : (List.range (c + 2)).map (fun k : Nat => x + k * s) =
    x :: (List.range (c + 1)).map fun k : Nat => x + s + k * s := by
  rw [List.range_succ_eq_map, List.map_cons, List.map_map]
  simp only [Nat.cast_zero, zero_mul, add_zero, List.cons.injEq, true_and]
  refine List.map_congr_left fun k _ => ?_
  simp only [Function.comp, Nat.succ_eq_add_one]
  push_cast
  ring

/-- The count is counted down to zero, and the index moves on by the step. -/
theorem iterate_eq (body : Int64 → Int64) {c fuel : Nat} (hfuel : c < fuel) {r : ForRegs}
    (hc : r.count.toUInt64.toNat = c) (hr : r.control = r.idx)
    (hfit : ∀ k : Nat, k ≤ c → IsI64 (r.idx.toInt + k * r.step.toInt)) :
    ∃ vs, iterate body fuel r = some vs ∧
      vs.map Int64.toInt = (List.range (c + 1)).map fun k : Nat => r.idx.toInt + k * r.step.toInt := by
  induction c generalizing fuel r with
  | zero =>
    obtain ⟨fuel, rfl⟩ : ∃ k, fuel = k + 1 := ⟨fuel - 1, by omega⟩
    have hzero : ¬r.count.toUInt64 > 0 := by
      rw [gt_iff_lt, UInt64.lt_iff_toNat_lt, hc]
      exact Nat.lt_irrefl 0
    refine ⟨[r.control], ?_, ?_⟩
    · rw [iterate, forloop, if_neg hzero]
    · simp [hr]
  | succ c ih =>
    obtain ⟨fuel, rfl⟩ : ∃ k, fuel = k + 1 := ⟨fuel - 1, by omega⟩
    have hpos : r.count.toUInt64 > 0 := by
      rw [gt_iff_lt, UInt64.lt_iff_toNat_lt, hc]
      exact Nat.succ_pos c
    have hnext := hfit 1 (by omega)
    rw [Nat.cast_one, one_mul] at hnext
    have hidx := toInt_add_step hnext
    have hcount : (r.count.toUInt64 - 1).toNat = c := by
      have hone : (1 : UInt64) ≤ r.count.toUInt64 := UInt64.le_iff_toNat_le.mpr (hc ▸ Nat.succ_pos c)
      rw [UInt64.toNat_sub_of_le _ _ hone, hc]
      rfl
    have hrest (k : Nat) (hk : k ≤ c) :
        IsI64 ((r.idx.toUInt64 + r.step.toUInt64).toInt64.toInt + k * r.step.toInt) := by
      have hfar := hfit (k + 1) (by omega)
      rw [Nat.cast_succ] at hfar
      rw [hidx]
      convert hfar using 1
      ring
    obtain ⟨vs, hvs, hmap⟩ := @ih fuel (by omega) ⟨(r.idx.toUInt64 + r.step.toUInt64).toInt64,
      (r.count.toUInt64 - 1).toInt64, r.step, (r.idx.toUInt64 + r.step.toUInt64).toInt64⟩ hcount rfl hrest
    refine ⟨r.control :: vs, ?_, ?_⟩
    · rw [iterate, forloop, if_pos hpos]
      exact congrArg (Option.map (r.control :: ·)) hvs
    · rw [List.map_cons, hmap, hidx, hr, range_succ_map]

theorem toNat_sub_eq {a b : Int64} (h : b.toInt ≤ a.toInt) :
    ((a.toUInt64 - b.toUInt64).toNat : ℤ) = a.toInt - b.toInt := by
  have ha := Arith.toNat_toUInt64 a
  have hb := Arith.toNat_toUInt64 b
  obtain ⟨ha1, ha2⟩ := isI64 a
  obtain ⟨hb1, hb2⟩ := isI64 b
  rw [UInt64.toNat_sub]
  omega

theorem toNat_step {step : Int64} (h : 0 ≤ step.toInt) : step.toUInt64.toNat = step.toInt.natAbs := by
  have hu := Arith.toNat_toUInt64 step
  have := isI64 step
  unfold IsI64 at this
  omega

theorem divU64_eq {a b : UInt64} (h : b.toNat ≠ 0) : divU64 a b = .ok (a / b) :=
  if_neg fun hb => h (by rw [hb]; rfl)

/-- The number of iterations behind the first is the distance to the limit in steps. -/
theorem iterations_eq {init p step : Int64} (hstep : step.toInt ≠ 0)
    (hle : if 0 < step.toInt then init.toInt ≤ p.toInt else p.toInt ≤ init.toInt) :
    ∃ c, iterations checks init p step = .ok c ∧
      c.toNat = (p.toInt - init.toInt).natAbs / step.toInt.natAbs := by
  obtain ⟨hs1, hs2⟩ := isI64 step
  unfold iterations
  by_cases hpos : 0 < step.toInt
  · rw [if_pos hpos] at hle
    have hdist := toNat_sub_eq hle
    have hu := toNat_step hpos.le
    rw [if_pos (step_pos.mp hpos)]
    split_ifs with hone
    · refine ⟨_, divU64_eq (by omega), ?_⟩
      rw [UInt64.toNat_div, hu]
      congr 1
      omega
    · rw [not_not] at hone
      have h1 : step.toInt.natAbs = 1 := by rw [hone]; rfl
      refine ⟨_, rfl, ?_⟩
      rw [h1, Nat.div_one]
      omega
  · rw [if_neg hpos] at hle
    have hdist := toNat_sub_eq hle
    have hnext : (Int64.ofInt (step.toInt + 1)).toInt = step.toInt + 1 :=
      Int64.toInt_ofInt_of_le (by omega) (by omega)
    have hneg : (Int64.ofInt (-(step.toInt + 1))).toInt = -(step.toInt + 1) :=
      Int64.toInt_ofInt_of_le (by omega) (by omega)
    have hu := @toNat_step (Int64.ofInt (-(step.toInt + 1))) (by omega)
    have hdiv : ((Int64.ofInt (-(step.toInt + 1))).toUInt64 + 1).toNat = step.toInt.natAbs := by
      have hone : (1 : UInt64).toNat = 1 := rfl
      rw [UInt64.toNat_add, hu, hone, hneg]
      omega
    rw [if_neg (mt step_pos.mpr hpos), Arith.resultI64_of_fits (by omega), Rust.ok_bind, hnext,
      Arith.resultI64_of_fits (by omega), Rust.ok_bind]
    refine ⟨_, divU64_eq (by omega), ?_⟩
    rw [UInt64.toNat_div, hdiv]
    congr 1
    omega

/-- The limit that is stored: an integer of the loop is not beyond the limit if it is not beyond that. -/
theorem forlimit_spec (init : Int64) {limit : Number} {step : Int64} (hstep : step.toInt ≠ 0) {y : Ext}
    (hy : exact (num limit) = some y) :
    (forlimit init limit step = none ∧ ¬Within step.toInt y init.toInt) ∨
    ∃ p, forlimit init limit step = some p ∧
      (if 0 < step.toInt then init.toInt ≤ p.toInt else p.toInt ≤ init.toInt) ∧
      ∀ x, IsI64 x → (Within step.toInt y x ↔ if 0 < step.toInt then x ≤ p.toInt else p.toInt ≤ x) := by
  have hclip {x : ℤ} (hx : IsI64 x) : Within step.toInt y x ↔
      ∃ p, clip limit step = some p ∧ if 0 < step.toInt then x ≤ p.toInt else p.toInt ≤ x := by
    unfold Within
    split_ifs with hpos
    · exact (clip_up hpos hy hx).symm
    · exact (clip_down (by omega) hy hx).symm
  unfold forlimit
  cases hp : clip limit step with
  | none => exact .inl ⟨rfl, by simp [hclip (isI64 init), hp]⟩
  | some p =>
    have hspec (x : ℤ) (hx : IsI64 x) :
        Within step.toInt y x ↔ if 0 < step.toInt then x ≤ p.toInt else p.toInt ≤ x := by
      rw [hclip hx, hp]
      simp
    have htest : (!(if step > 0 then decide (init > p) else decide (init < p))) = true ↔
        if 0 < step.toInt then init.toInt ≤ p.toInt else p.toInt ≤ init.toInt := by
      by_cases hs : 0 < step.toInt
      · rw [if_pos (step_pos.mp hs), if_pos hs]
        simp [Int64.lt_iff_toInt_lt]
      · rw [if_neg (mt step_pos.mpr hs), if_neg hs]
        simp [Int64.lt_iff_toInt_lt]
    by_cases hin : if 0 < step.toInt then init.toInt ≤ p.toInt else p.toInt ≤ init.toInt
    · exact .inr ⟨p, Option.filter_some_pos (htest.mpr hin), hin, hspec⟩
    · exact .inl ⟨Option.filter_some_neg (Bool.eq_false_iff.mpr (mt htest.mp hin)), mt (hspec _ (isI64 init)).mp hin⟩

/-- What comes before a number within the limit is within it. -/
theorem Within.of_later {s : ℤ} {y : Ext} {x : ℤ} {k : ℕ} (h : Within s y (x + k * s)) : Within s y x := by
  have hmono {a b : ℤ} (hab : a ≤ b) : ofInt a ≤ ofInt b := by
    simp only [ofInt, WithBot.coe_le_coe, WithTop.coe_le_coe]
    exact_mod_cast hab
  unfold Within at h ⊢
  split_ifs at h ⊢ with hs
  · exact (hmono (by have := mul_nonneg (Int.natCast_nonneg k) hs.le; omega)).trans h
  · exact h.trans (hmono (by have := mul_nonpos_of_nonneg_of_nonpos (Int.natCast_nonneg k) (not_lt.mp hs); omega))

/-- The loop visits the terms of the progression, in unbounded integers, that fit an `i64` and are not beyond the
limit. -/
theorem for_visits (init : Int64) (limit : Number) (step : Int64) :
    (step = 0 → forprep checks init limit step = .error (.msg "'for' step is zero")) ∧
    (step ≠ 0 → ∀ y, exact (num limit) = some y → ∃ n : ℕ,
      (∀ k : ℕ, k < n ↔
        IsI64 (init.toInt + k * step.toInt) ∧ Within step.toInt y (init.toInt + k * step.toInt)) ∧
      ∀ (body : Int64 → Int64) (fuel : ℕ), n ≤ fuel →
        ∃ vs, visits checks body fuel init limit step = .ok (some vs) ∧
          vs.map Int64.toInt = (List.range n).map fun k : ℕ => init.toInt + k * step.toInt) := by
  refine ⟨fun h => if_pos h, fun hzero y hy => ?_⟩
  have hstep : step.toInt ≠ 0 := fun h => hzero (Arith.eq_iff_toInt.mpr h)
  rcases forlimit_spec init hstep hy with ⟨hnone, hout⟩ | ⟨p, hsome, hin, hspec⟩
  · refine ⟨0, fun k => ⟨nofun, fun h => absurd h.2.of_later hout⟩, fun body fuel _ => ⟨[], ?_, rfl⟩⟩
    rw [visits, forprep, if_neg hzero, hnone]
    rfl
  · obtain ⟨c, hc, hcount⟩ := iterations_eq checks hstep hin
    have hterm (k : ℕ) : k < c.toNat + 1 ↔
        if 0 < step.toInt then init.toInt + k * step.toInt ≤ p.toInt
        else p.toInt ≤ init.toInt + k * step.toInt := by
      have hpos : 0 < step.toInt.natAbs := Int.natAbs_pos.mpr hstep
      rw [Nat.lt_succ_iff, hcount, Nat.le_div_iff_mul_le hpos]
      zify
      split_ifs at hin ⊢ with hs
      · rw [abs_of_nonneg (by omega : 0 ≤ p.toInt - init.toInt), abs_of_pos hs]
        omega
      · rw [abs_of_nonpos (by omega : p.toInt - init.toInt ≤ 0), abs_of_nonpos (by omega : step.toInt ≤ 0),
          mul_neg]
        omega
    have hfit {k : ℕ} (hk : k < c.toNat + 1) : IsI64 (init.toInt + k * step.toInt) := by
      have hbound := (hterm k).mp hk
      obtain ⟨hi1, hi2⟩ := isI64 init
      obtain ⟨hp1, hp2⟩ := isI64 p
      split_ifs at hbound with hs
      · have := mul_nonneg (Int.natCast_nonneg k) hs.le
        exact ⟨by omega, by omega⟩
      · have := mul_nonpos_of_nonneg_of_nonpos (Int.natCast_nonneg k) (not_lt.mp hs)
        exact ⟨by omega, by omega⟩
    refine ⟨c.toNat + 1, fun k => ⟨fun hk => ⟨hfit hk, (hspec _ (hfit hk)).mpr ((hterm k).mp hk)⟩, ?_⟩, ?_⟩
    · rintro ⟨hk, hwithin⟩
      exact (hterm k).mpr ((hspec _ hk).mp hwithin)
    · intro body fuel hfuel
      obtain ⟨vs, hvs, hmap⟩ := iterate_eq body (Nat.lt_of_succ_le hfuel)
        (r := ⟨init, c.toInt64, step, init⟩) rfl rfl fun k hk => hfit (Nat.lt_succ_of_le hk)
      refine ⟨vs, ?_, hmap⟩
      simp only [visits, forprep, if_neg hzero, hsome, hc]
      exact congrArg Except.ok hvs

/-- Up to infinity the loop still ends, at the last `i64`. -/
theorem visits_to_infinity :
    visits false id 1 Int64.maxValue (.float ⟨0x7FF0000000000000⟩) 1 = .ok (some [Int64.maxValue]) ∧
    exact (num (.float ⟨0x7FF0000000000000⟩)) = some ⊤ ∧ Within 1 ⊤ (Int64.maxValue.toInt + 1 * 1) := by
  refine ⟨by decide, by decide, ?_⟩
  rw [Within, if_pos (by decide)]
  exact le_top

end Tsuki.ForLoop
