import Tsuki.Rust

/-!
# Integer arithmetic

Every operator is written out several times: in the opcodes on registers, with a constant, with an immediate operand,
and in `intarith`. Arithmetic that Rust checks panics on overflow if `checks` is set, else it wraps around; a division
that overflows panics in any case. Each form is shown to compute one meaning: an integer of 64 bits as the code of a
residue, with division and shifts by their laws on integers. What the forms add is the operand that they read, and the
check that may panic.
-/

namespace Tsuki.Arith

/-- `Ops`, without the two operators that always work on floats. -/
inductive Ops
  | add | sub | mul | mod | intDiv | and | or | xor | shl | shr | neg | not
  deriving DecidableEq, Repr

inductive ArithError
  | modZero | divZero
  deriving DecidableEq, Repr

/-! ## Arithmetic of Rust -/

variable (checks : Bool)

/-- `*` of `u64`. -/
def mulU64 (a b : UInt64) : Rust UInt64 :=
  if checks ∧ 2 ^ 64 ≤ a.toNat * b.toNat then .error .panic else .ok (a * b)

/-- A result of `+` or `-` of `i64`. -/
def resultI64 (z : Int) : Rust Int64 :=
  if checks ∧ ¬(-2 ^ 63 ≤ z ∧ z < 2 ^ 63) then .error .panic else .ok (.ofInt z)

/-- `/` of `i64`. -/
def divI64 (m n : Int64) : Rust Int64 :=
  if n = 0 ∨ m = Int64.minValue ∧ n = -1 then .error .panic else .ok (m / n)

/-- `%` of `i64`. -/
def remI64 (m n : Int64) : Rust Int64 :=
  if n = 0 ∨ m = Int64.minValue ∧ n = -1 then .error .panic else .ok (m % n)

/-- `<<` of `u64`. -/
def shlU64 (x y : UInt64) : Rust UInt64 := if checks ∧ 64 ≤ y.toNat then .error .panic else .ok (x <<< y)

/-- `>>` of `u64`. -/
def shrU64 (x y : UInt64) : Rust UInt64 := if checks ∧ 64 ≤ y.toNat then .error .panic else .ok (x >>> y)

/-! ## The functions -/

/-- Whether the quotient was rounded up. -/
def roundedUp (m n : Int64) : Rust Bool :=
  if m ^^^ n < 0 then do return (← remI64 m n) ≠ 0 else .ok false

def luaV_idiv (m n : Int64) : Rust (Option Int64) :=
  if n.toUInt64 + 1 ≤ 1 then
    if n = 0 then .ok none else .ok (some (0 - m.toUInt64).toInt64)
  else do
    let q ← divI64 m n
    if ← roundedUp m n then return some (← resultI64 checks (q.toInt - 1)) else return some q

def luaV_mod (m n : Int64) : Rust (Option Int64) :=
  if n.toUInt64 + 1 ≤ 1 then
    if n = 0 then .ok none else .ok (some 0)
  else do
    let r ← remI64 m n
    if r ≠ 0 ∧ r ^^^ n < 0 then return some (← resultI64 checks (r.toInt + n.toInt)) else return some r

def luaV_shiftl (x y : Int64) : Rust Int64 :=
  if y < 0 then
    if y ≤ -64 then .ok 0 else do return (← shrU64 checks x.toUInt64 (← resultI64 checks (-y.toInt)).toUInt64).toInt64
  else if y ≥ 64 then .ok 0
  else do return (← shlU64 checks x.toUInt64 y.toUInt64).toInt64

/-- The error in place of a missing result. -/
def orError (e : ArithError) (r : Rust (Option Int64)) : Rust (Except ArithError Int64) :=
  r.map fun v => match v with
    | some v => .ok v
    | none => .error e

/-- A result that is always there. -/
def value (r : Rust Int64) : Rust (Except ArithError Int64) := r.map .ok

def intarith (op : Ops) (v1 v2 : Int64) : Rust (Except ArithError Int64) :=
  match op with
  | .add => .ok (.ok (v1.toUInt64 + v2.toUInt64).toInt64)
  | .sub => .ok (.ok (v1.toUInt64 - v2.toUInt64).toInt64)
  | .mul => .ok (.ok (v1.toUInt64 * v2.toUInt64).toInt64)
  | .mod => orError .modZero (luaV_mod checks v1 v2)
  | .intDiv => orError .divZero (luaV_idiv checks v1 v2)
  | .and => .ok (.ok (v1.toUInt64 &&& v2.toUInt64).toInt64)
  | .or => .ok (.ok (v1.toUInt64 ||| v2.toUInt64).toInt64)
  | .xor => .ok (.ok (v1.toUInt64 ^^^ v2.toUInt64).toInt64)
  | .shl => value (luaV_shiftl checks v1 v2)
  | .shr => value (luaV_shiftl checks v1 (0 - v2.toUInt64).toInt64)
  | .neg => .ok (.ok (0 - v1.toUInt64).toInt64)
  | .not => .ok (.ok (~~~(0 : UInt64) ^^^ v1.toUInt64).toInt64)

/-- `luaO_rawarith` of two integers. -/
def luaO_rawarith (op : Ops) (v1 v2 : Int64) : Rust (Except ArithError Int64) := intarith checks op v1 v2

/-- What computes on integers: the opcodes and `luaO_rawarith`. An immediate operand is the argument `C`. -/
inductive Form
  | add | sub | mul | mod | idiv | band | bor | bxor | shl | shr | unm | bnot
  | addK | subK | mulK | modK | idivK | bandK | borK | bxorK
  | addI (c : UInt8) | shrI (c : UInt8) | shlI (c : UInt8)
  | rawarith (op : Ops)
  deriving DecidableEq, Repr

/-- An immediate operand: `C` with its offset. -/
def imm (c : UInt8) : Int := c.toNat - 127

/-- The integer branch of each opcode; `i2` is what its second operand holds, if it has one. -/
def Form.run (i1 i2 : Int64) : Form → Rust (Except ArithError Int64)
  | .add | .addK => .ok (.ok (i1.toUInt64 + i2.toUInt64).toInt64)
  | .sub | .subK => .ok (.ok (i1.toUInt64 - i2.toUInt64).toInt64)
  | .mul => .ok (.ok (i1.toUInt64 * i2.toUInt64).toInt64)
  | .mulK => value (do return (← mulU64 checks i1.toUInt64 i2.toUInt64).toInt64)
  | .mod | .modK => orError .modZero (luaV_mod checks i1 i2)
  | .idiv | .idivK => orError .divZero (luaV_idiv checks i1 i2)
  | .band | .bandK => .ok (.ok (i1.toUInt64 &&& i2.toUInt64).toInt64)
  | .bor | .borK => .ok (.ok (i1.toUInt64 ||| i2.toUInt64).toInt64)
  | .bxor | .bxorK => .ok (.ok (i1.toUInt64 ^^^ i2.toUInt64).toInt64)
  | .shl => value (luaV_shiftl checks i1 i2)
  | .shr => value (luaV_shiftl checks i1 (0 - i2.toUInt64).toInt64)
  | .unm => .ok (.ok (0 - i1.toUInt64).toInt64)
  | .bnot => .ok (.ok (~~~(0 : UInt64) ^^^ i1.toUInt64).toInt64)
  | .addI c => .ok (.ok (i1.toUInt64 + (Int64.ofInt (imm c)).toUInt64).toInt64)
  | .shrI c => value (luaV_shiftl checks i1 (.ofInt (-imm c)))
  | .shlI c => value (luaV_shiftl checks (.ofInt (imm c)) i1)
  | .rawarith op => luaO_rawarith checks op i1 i2

/-! ## What the operators mean -/

/-- The operator of a form. -/
def Form.op : Form → Ops
  | .add | .addK | .addI _ => .add
  | .sub | .subK => .sub
  | .mul | .mulK => .mul
  | .mod | .modK => .mod
  | .idiv | .idivK => .intDiv
  | .band | .bandK => .and
  | .bor | .borK => .or
  | .bxor | .bxorK => .xor
  | .shl | .shlI _ => .shl
  | .shr | .shrI _ => .shr
  | .unm => .neg
  | .bnot => .not
  | .rawarith op => op

/-- The operands of a form, an immediate one in its place. -/
def Form.operands (i1 i2 : Int64) : Form → Int64 × Int64
  | .addI c | .shrI c => (i1, .ofInt (imm c))
  | .shlI c => (.ofInt (imm c), i1)
  | _ => (i1, i2)

/-- A shift to the left by any number of bits, to the right if it is negative, that fills with zeros. -/
def shift (x : Int64) (k : Int) : Int64 :=
  .ofNat (if 0 ≤ k then x.toUInt64.toNat * 2 ^ k.toNat else x.toUInt64.toNat / 2 ^ (-k).toNat)

/-- The value of an operator: numbers modulo `2 ^ 64`, division and remainder rounded down. -/
def meaning (op : Ops) (a b : Int64) : Except ArithError Int64 :=
  match op with
  | .add => .ok (.ofInt (a.toInt + b.toInt))
  | .sub => .ok (.ofInt (a.toInt - b.toInt))
  | .mul => .ok (.ofInt (a.toInt * b.toInt))
  | .mod => if b = 0 then .error .modZero else .ok (.ofInt (a.toInt.fmod b.toInt))
  | .intDiv => if b = 0 then .error .divZero else .ok (.ofInt (a.toInt.fdiv b.toInt))
  | .and => .ok (a &&& b)
  | .or => .ok (a ||| b)
  | .xor => .ok (a ^^^ b)
  | .shl => .ok (shift a b.toInt)
  | .shr => .ok (shift a (-b.toInt))
  | .neg => .ok (.ofInt (-a.toInt))
  | .not => .ok (~~~a)

/-! ## Division -/

theorem toNat_toUInt64 (a : Int64) : (a.toUInt64.toNat : Int) = a.toInt % 2 ^ 64 := by
  have hlt := a.toBitVec.isLt
  have h : a.toInt = if 2 * a.toBitVec.toNat < 2 ^ 64 then (a.toBitVec.toNat : Int)
      else (a.toBitVec.toNat : Int) - (2 ^ 64 : Nat) := BitVec.toInt_eq_toNat_cond a.toBitVec
  change (a.toBitVec.toNat : Int) = _
  split_ifs at h <;> omega

theorem toInt_bounds (a : Int64) : -2 ^ 63 ≤ a.toInt ∧ a.toInt < 2 ^ 63 := ⟨a.le_toInt, a.toInt_lt⟩

theorem eq_iff_toInt {a b : Int64} : a = b ↔ a.toInt = b.toInt := Int64.toInt_inj.symm

theorem special_iff (n : Int64) : n.toUInt64 + 1 ≤ 1 ↔ n = 0 ∨ n = -1 := by
  have h := toNat_toUInt64 n
  have hb := toInt_bounds n
  have hone : (1 : UInt64).toNat = 1 := rfl
  have hzero : (0 : Int64).toInt = 0 := rfl
  have hminus : (-1 : Int64).toInt = -1 := rfl
  rw [UInt64.le_iff_toNat_le, UInt64.toNat_add, hone, eq_iff_toInt, eq_iff_toInt, hzero, hminus]
  omega

theorem xor_neg_iff (m n : Int64) : m ^^^ n < 0 ↔ (m.toInt < 0 ↔ 0 ≤ n.toInt) := by
  have hneg (a : Int64) : a < 0 ↔ a.toBitVec.msb = true := by
    rw [Int64.lt_iff_toInt_lt, BitVec.msb_eq_toInt, decide_eq_true_eq]
    rfl
  have hm := hneg m
  have hn := hneg n
  rw [Int64.lt_iff_toInt_lt] at hm hn
  rw [hneg, Int64.toBitVec_xor, BitVec.msb_xor, bne_iff_ne, ne_eq, Bool.eq_iff_iff, ← hm, ← hn]
  change ¬(m.toInt < 0 ↔ n.toInt < 0) ↔ _
  omega

/-- Division that rounds to zero and the one that rounds down differ where the signs do. -/
theorem fdiv_eq (a b : Int) (hb : b ≠ 0) :
    a.fdiv b = if (a < 0 ↔ 0 ≤ b) ∧ a.tmod b ≠ 0 then a.tdiv b - 1 else a.tdiv b := by
  have h1 := Int.emod_nonneg a hb
  have h2 := Int.emod_lt a hb
  rw [Int.fdiv_eq_ediv, Int.tdiv_eq_ediv, Int.tmod_eq_emod]
  simp only [Int.dvd_iff_emod_eq_zero]
  rcases Int.lt_or_lt_of_ne hb with hb | hb
  · have hsign : b.sign = -1 := Int.sign_eq_neg_one_of_neg hb
    have habs : (b.natAbs : Int) = -b := by omega
    rw [hsign]
    split_ifs <;> omega
  · have hsign : b.sign = 1 := Int.sign_eq_one_of_pos hb
    have habs : (b.natAbs : Int) = b := by omega
    rw [hsign]
    split_ifs <;> omega

theorem fmod_eq (a b : Int) (hb : b ≠ 0) :
    a.fmod b = if a.tmod b ≠ 0 ∧ (a.tmod b < 0 ↔ 0 ≤ b) then a.tmod b + b else a.tmod b := by
  have h1 := Int.emod_nonneg a hb
  have h2 := Int.emod_lt a hb
  rw [Int.tmod_eq_emod, Int.fmod_eq_emod]
  simp only [Int.dvd_iff_emod_eq_zero]
  have habs : (b.natAbs : Int) = b ∨ (b.natAbs : Int) = -b := by omega
  split_ifs <;> omega

variable {checks : Bool}

theorem resultI64_of_fits {z : Int} (h : -2 ^ 63 ≤ z ∧ z < 2 ^ 63) : resultI64 checks z = .ok (.ofInt z) :=
  if_neg fun hz => hz.2 h

theorem not_overflow {m n : Int64} (h : ¬(n = 0 ∨ n = -1)) : ¬(n = 0 ∨ m = Int64.minValue ∧ n = -1) :=
  fun hn => h (hn.imp_right And.right)

theorem toInt64_zero_sub (m : Int64) : (0 - m.toUInt64).toInt64 = -m := by
  rw [UInt64.zero_sub]
  rfl

/-- There is room below a quotient that is not exact. -/
theorem tdiv_sub_one_fits {a b : Int} (ha : -2 ^ 63 ≤ a ∧ a < 2 ^ 63) (hinexact : a.tmod b ≠ 0) (hb : b ≠ 0) :
    -2 ^ 63 ≤ a.tdiv b - 1 ∧ a.tdiv b - 1 < 2 ^ 63 := by
  have hb2 : 2 ≤ b.natAbs := by
    by_contra hlt
    obtain rfl | rfl : b = 1 ∨ b = -1 := by omega
    · exact hinexact (Int.tmod_one a)
    · exact hinexact (by rw [Int.tmod_neg, Int.tmod_one])
  have hle : (a.tdiv b).natAbs ≤ a.natAbs / 2 := by
    rw [Int.natAbs_tdiv]
    exact Nat.div_le_div_left hb2 (by decide)
  omega

theorem luaV_idiv_eq (m n : Int64) :
    luaV_idiv checks m n = .ok (if n = 0 then none else some (.ofInt (m.toInt.fdiv n.toInt))) := by
  unfold luaV_idiv
  by_cases hs : n = 0 ∨ n = -1
  · rw [if_pos ((special_iff n).mpr hs)]
    rcases hs with rfl | rfl
    · rfl
    · have hdiv : m.toInt.fdiv (-1) = -m.toInt := by
        rw [Int.fdiv_eq_ediv]
        simp
      rw [if_neg (by decide), if_neg (by decide), show (-1 : Int64).toInt = -1 from rfl, hdiv, Int64.ofInt_neg,
        Int64.ofInt_toInt, toInt64_zero_sub]
  · have hzero : n ≠ 0 := fun h => hs (.inl h)
    have hn : n.toInt ≠ 0 := fun h => hzero (eq_iff_toInt.mpr h)
    have hq : (m / n).toInt = m.toInt.tdiv n.toInt := Int64.toInt_div_of_ne_right m n fun h => hs (.inr h)
    have hr : m % n ≠ 0 ↔ m.toInt.tmod n.toInt ≠ 0 := by
      rw [ne_eq, eq_iff_toInt, Int64.toInt_mod]
      rfl
    rw [if_neg (mt (special_iff n).mp hs), if_neg hzero, fdiv_eq _ _ hn, divI64, if_neg (not_overflow hs)]
    simp only [Rust.ok_bind, roundedUp, remI64, if_neg (not_overflow hs), xor_neg_iff]
    by_cases hsign : m.toInt < 0 ↔ 0 ≤ n.toInt
    · by_cases hexact : m.toInt.tmod n.toInt ≠ 0
      · have hfits := tdiv_sub_one_fits (toInt_bounds m) hexact hn
        rw [if_pos hsign, if_pos ⟨hsign, hexact⟩, hq]
        simp only [Rust.ok_bind, pure, Except.pure, resultI64_of_fits hfits]
        rw [if_pos (decide_eq_true (hr.mpr hexact))]
      · rw [if_pos hsign, if_neg fun h => hexact h.2, ← hq, Int64.ofInt_toInt]
        simp only [Rust.ok_bind, pure, Except.pure, mt hr.mp hexact]
        rfl
    · rw [if_neg hsign, if_neg fun h => hsign h.1, ← hq, Int64.ofInt_toInt]
      rfl

/-- The remainder of `luaV_mod` has the sign of the divisor. -/
theorem luaV_mod_eq (m n : Int64) :
    luaV_mod checks m n = .ok (if n = 0 then none else some (.ofInt (m.toInt.fmod n.toInt))) := by
  unfold luaV_mod
  by_cases hs : n = 0 ∨ n = -1
  · rw [if_pos ((special_iff n).mpr hs)]
    rcases hs with rfl | rfl
    · rfl
    · have hmod : m.toInt.fmod (-1) = 0 := by
        rw [Int.fmod_eq_emod]
        simp
      rw [if_neg (by decide), if_neg (by decide), show (-1 : Int64).toInt = -1 from rfl, hmod]
      rfl
  · have hzero : n ≠ 0 := fun h => hs (.inl h)
    have hn : n.toInt ≠ 0 := fun h => hzero (eq_iff_toInt.mpr h)
    have hr : (m % n).toInt = m.toInt.tmod n.toInt := Int64.toInt_mod m n
    have hne : m % n ≠ 0 ↔ m.toInt.tmod n.toInt ≠ 0 := by
      rw [ne_eq, eq_iff_toInt, hr]
      rfl
    have hb := toInt_bounds (m % n)
    have hnb := toInt_bounds n
    rw [if_neg (mt (special_iff n).mp hs), if_neg hzero, fmod_eq _ _ hn, remI64, if_neg (not_overflow hs)]
    simp only [Rust.ok_bind, xor_neg_iff, hr, hne]
    by_cases hsign : m.toInt.tmod n.toInt ≠ 0 ∧ (m.toInt.tmod n.toInt < 0 ↔ 0 ≤ n.toInt)
    · rw [if_pos hsign, if_pos hsign, resultI64_of_fits (by omega)]
      rfl
    · rw [if_neg hsign, if_neg hsign, ← hr, Int64.ofInt_toInt]
      rfl

/-! ## Shifts -/

theorem toInt64_eq (u : UInt64) : u.toInt64 = .ofNat u.toNat := by
  conv_lhs => rw [← UInt64.ofNat_toNat (x := u)]
  rfl

theorem ofNat_congr {a b : Nat} (h : a % 2 ^ 64 = b % 2 ^ 64) : Int64.ofNat a = .ofNat b :=
  ofInt_congr (a := a) (b := b) (by omega)

theorem toNat_count {z : Int} (h : 0 ≤ z) (hlt : z < 64) : (Int64.ofInt z).toUInt64.toNat = z.toNat := by
  have hu := toNat_toUInt64 (.ofInt z)
  rw [Int64.toInt_ofInt_of_le (by omega) (by omega)] at hu
  omega

theorem shift_far (x : Int64) {k : Int} (h : k ≤ -64 ∨ 64 ≤ k) : shift x k = 0 := by
  have hlt := x.toUInt64.toNat_lt
  unfold shift
  rcases h with h | h
  · have hpow : 2 ^ 64 ≤ 2 ^ (-k).toNat := Nat.pow_le_pow_right (by decide) (by omega)
    rw [if_neg (by omega), Nat.div_eq_of_lt (by omega)]
    rfl
  · have hdvd : 2 ^ 64 ∣ x.toUInt64.toNat * 2 ^ k.toNat := Dvd.dvd.mul_left (Nat.pow_dvd_pow 2 (by omega)) _
    rw [if_pos (by omega)]
    refine ofNat_congr (b := 0) ?_
    omega

theorem luaV_shiftl_eq (x y : Int64) : luaV_shiftl checks x y = .ok (shift x y.toInt) := by
  have hb := toInt_bounds y
  unfold luaV_shiftl
  simp only [ge_iff_le, Int64.lt_iff_toInt_lt, Int64.le_iff_toInt_le, show (0 : Int64).toInt = 0 from rfl,
    show (-64 : Int64).toInt = -64 from rfl, show (64 : Int64).toInt = 64 from rfl]
  by_cases hfar : y.toInt ≤ -64 ∨ 64 ≤ y.toInt
  · rw [shift_far x hfar]
    split_ifs <;> first | rfl | omega
  unfold shift
  by_cases hneg : y.toInt < 0
  · have hcount := toNat_count (z := -y.toInt) (by omega) (by omega)
    rw [if_pos hneg, if_neg (by omega), if_neg (by omega), resultI64_of_fits (by omega)]
    simp only [Rust.ok_bind, shrU64, hcount]
    rw [if_neg (by omega)]
    simp only [Rust.ok_bind, pure, Except.pure, toInt64_eq, UInt64.toNat_shiftRight, hcount]
    rw [Nat.mod_eq_of_lt (by omega), Nat.shiftRight_eq_div_pow]
  · have hcount : y.toUInt64.toNat = y.toInt.toNat := by
      have := toNat_count (z := y.toInt) (by omega) (by omega)
      rwa [Int64.ofInt_toInt] at this
    rw [if_neg hneg, if_neg (by omega), if_pos (by omega), shlU64, hcount, if_neg (by omega)]
    simp only [Rust.ok_bind, pure, Except.pure, toInt64_eq, UInt64.toNat_shiftLeft, hcount]
    rw [Nat.mod_eq_of_lt (show y.toInt.toNat < 64 by omega), Nat.shiftLeft_eq]
    exact congrArg Except.ok (ofNat_congr (Nat.mod_mod ..))

/-- A shift to the right is one to the left by the negated count, the minimum included. -/
theorem shift_neg (x y : Int64) : shift x (-y).toInt = shift x (-y.toInt) := by
  have hb := toInt_bounds y
  by_cases hmin : y.toInt = -2 ^ 63
  · have hy : y = Int64.minValue := eq_iff_toInt.mpr hmin
    rw [shift_far x (k := (-y).toInt) (.inl (by rw [hy]; decide)), shift_far x (.inr (by omega))]
  · have hneg : (-y).toInt = -y.toInt := by
      conv_lhs => rw [← Int64.ofInt_toInt y, ← Int64.ofInt_neg]
      exact Int64.toInt_ofInt_of_le (by omega) (by omega)
    rw [hneg]

/-! ## The forms agree -/

theorem ok_congr {v w : Int64} (h : v = w) : (.ok (.ok v) : Rust (Except ArithError Int64)) = .ok (.ok w) := h ▸ rfl

theorem add_eq (a b : Int64) : (a.toUInt64 + b.toUInt64).toInt64 = .ofInt (a.toInt + b.toInt) := by
  rw [Int64.ofInt_add, Int64.ofInt_toInt, Int64.ofInt_toInt]
  rfl

theorem sub_eq (a b : Int64) : (a.toUInt64 - b.toUInt64).toInt64 = .ofInt (a.toInt - b.toInt) := by
  rw [Int64.ofInt_sub, Int64.ofInt_toInt, Int64.ofInt_toInt]
  rfl

theorem mul_eq (a b : Int64) : (a.toUInt64 * b.toUInt64).toInt64 = .ofInt (a.toInt * b.toInt) := by
  rw [Int64.ofInt_mul, Int64.ofInt_toInt, Int64.ofInt_toInt]
  rfl

theorem neg_eq (a : Int64) : (0 - a.toUInt64).toInt64 = .ofInt (-a.toInt) := by
  rw [Int64.ofInt_neg, Int64.ofInt_toInt, toInt64_zero_sub]

theorem not_eq (a : Int64) : (~~~(0 : UInt64) ^^^ a.toUInt64).toInt64 = ~~~a := by
  rw [← Int64.toBitVec_inj]
  change ~~~(0#64) ^^^ a.toBitVec = ~~~a.toBitVec
  rw [BitVec.not_zero, BitVec.allOnes_xor]

theorem intDiv_eq (m n : Int64) : orError .divZero (luaV_idiv checks m n) = .ok (meaning .intDiv m n) := by
  rw [luaV_idiv_eq, meaning]
  split_ifs <;> rfl

theorem mod_eq (m n : Int64) : orError .modZero (luaV_mod checks m n) = .ok (meaning .mod m n) := by
  rw [luaV_mod_eq, meaning]
  split_ifs <;> rfl

theorem shl_eq (m n : Int64) : value (luaV_shiftl checks m n) = .ok (meaning .shl m n) := by
  rw [luaV_shiftl_eq]
  rfl

theorem shr_eq (m n : Int64) : value (luaV_shiftl checks m (0 - n.toUInt64).toInt64) = .ok (meaning .shr m n) := by
  rw [luaV_shiftl_eq, toInt64_zero_sub, shift_neg]
  rfl

variable (checks) in
/-- `intarith` computes the value of the operator. -/
theorem intarith_eq (op : Ops) (a b : Int64) : intarith checks op a b = .ok (meaning op a b) := by
  cases op with
  | add => exact ok_congr (add_eq a b)
  | sub => exact ok_congr (sub_eq a b)
  | mul => exact ok_congr (mul_eq a b)
  | mod => exact mod_eq a b
  | intDiv => exact intDiv_eq a b
  | and | or | xor => rfl
  | shl => exact shl_eq a b
  | shr => exact shr_eq a b
  | neg => exact ok_congr (neg_eq a)
  | not => exact ok_congr (not_eq a)

variable (checks) in
/-- A form that is no multiplication with a constant is `intarith` on its operands. -/
theorem run_eq (f : Form) (a b : Int64) (h : f ≠ .mulK) :
    f.run checks a b = .ok (meaning f.op (f.operands a b).1 (f.operands a b).2) := by
  cases f with
  | mulK => exact absurd rfl h
  | rawarith op => exact intarith_eq checks op a b
  | add | addK => exact intarith_eq checks .add a b
  | sub | subK => exact intarith_eq checks .sub a b
  | mul => exact intarith_eq checks .mul a b
  | mod | modK => exact intarith_eq checks .mod a b
  | idiv | idivK => exact intarith_eq checks .intDiv a b
  | band | bandK => exact intarith_eq checks .and a b
  | bor | borK => exact intarith_eq checks .or a b
  | bxor | bxorK => exact intarith_eq checks .xor a b
  | shl => exact intarith_eq checks .shl a b
  | shr => exact intarith_eq checks .shr a b
  | unm => exact intarith_eq checks .neg a b
  | bnot => exact intarith_eq checks .not a b
  | addI c => exact intarith_eq checks .add a (.ofInt (imm c))
  | shlI c => exact intarith_eq checks .shl (.ofInt (imm c)) a
  | shrI c =>
    have hneg : Int64.ofInt (-imm c) = (0 - (Int64.ofInt (imm c)).toUInt64).toInt64 := by
      rw [toInt64_zero_sub, Int64.ofInt_neg]
    rw [Form.run, hneg]
    exact intarith_eq checks .shr a (.ofInt (imm c))

/-- The multiplication with a constant is not the wrapping one. -/
theorem run_mulK (a b : Int64) : Form.run checks a b .mulK =
    if checks ∧ 2 ^ 64 ≤ a.toUInt64.toNat * b.toUInt64.toNat then .error .panic else .ok (meaning .mul a b) := by
  rw [Form.run, mulU64]
  split_ifs
  · rfl
  · exact ok_congr (mul_eq a b)

/-- What `//` and `%` give together. -/
structure Divides (a b q r : Int64) : Prop where
  div : meaning .intDiv a b = .ok q
  rem : meaning .mod a b = .ok r
  law : a = q * b + r
  pos : 0 < b → 0 ≤ r ∧ r < b
  neg : b < 0 → b < r ∧ r ≤ 0

theorem divides_of_ne_zero (a : Int64) {b : Int64} (hb : b ≠ 0) : ∃ q r, Divides a b q r := by
  have hne : b.toInt ≠ 0 := fun h => hb (eq_iff_toInt.mpr h)
  have h1 := Int.emod_nonneg a.toInt hne
  have h2 := Int.emod_lt a.toInt hne
  have hbound := toInt_bounds b
  have hmod := Int.fmod_eq_emod (a := a.toInt) (b := b.toInt)
  have hdvd := Int.dvd_iff_emod_eq_zero (a := b.toInt) (b := a.toInt)
  have hpos : 0 < b.toInt → 0 ≤ a.toInt.fmod b.toInt ∧ a.toInt.fmod b.toInt < b.toInt := by
    intro h
    rw [if_pos (.inl h.le)] at hmod
    omega
  have hneg : b.toInt < 0 → b.toInt < a.toInt.fmod b.toInt ∧ a.toInt.fmod b.toInt ≤ 0 := by
    intro h
    split_ifs at hmod <;> omega
  have hr : (Int64.ofInt (a.toInt.fmod b.toInt)).toInt = a.toInt.fmod b.toInt := by
    rcases Int.lt_or_lt_of_ne hne with h | h
    · exact Int64.toInt_ofInt_of_le (by have := hneg h; omega) (by have := hneg h; omega)
    · exact Int64.toInt_ofInt_of_le (by have := hpos h; omega) (by have := hpos h; omega)
  have hzero : (0 : Int64).toInt = 0 := rfl
  refine ⟨_, _, if_neg hb, if_neg hb, ?_, ?_, ?_⟩
  · conv_rhs => rw [← Int64.ofInt_toInt b]
    rw [Int64.toInt_ofInt_of_le b.le_toInt b.toInt_lt, ← Int64.ofInt_mul, ← Int64.ofInt_add, Int.mul_comm,
      Int.mul_fdiv_add_fmod, Int64.ofInt_toInt]
  · rw [Int64.lt_iff_toInt_lt, Int64.le_iff_toInt_le, Int64.lt_iff_toInt_lt, hr, hzero]
    exact hpos
  · rw [Int64.lt_iff_toInt_lt, Int64.le_iff_toInt_le, Int64.lt_iff_toInt_lt, hr, hzero]
    exact hneg

/-- All forms of all operators compute the same, except that the multiplication with a constant panics where the
product of the operands, read as `u64`, overflows and overflow checks are on. -/
theorem arith_agrees_iff (checks : Bool) (f : Form) (a b : Int64) :
    (f.run checks a b = .ok (meaning f.op (f.operands a b).1 (f.operands a b).2) ↔
      ¬(checks ∧ f = .mulK ∧ 2 ^ 64 ≤ a.toUInt64.toNat * b.toUInt64.toNat)) ∧
    (b ≠ 0 → ∃ q r, Divides a b q r) ∧
    (b = 0 → meaning .intDiv a b = .error .divZero ∧ meaning .mod a b = .error .modZero) := by
  refine ⟨?_, divides_of_ne_zero a, fun hb => ⟨if_pos hb, if_pos hb⟩⟩
  by_cases hf : f = .mulK
  · subst hf
    rw [run_mulK]
    split_ifs with h
    · exact ⟨nofun, fun hn => absurd ⟨h.1, rfl, h.2⟩ hn⟩
    · exact ⟨fun _ hn => h ⟨hn.1, hn.2.2⟩, fun _ => rfl⟩
  · exact ⟨fun _ hn => hf hn.2.1, fun _ => run_eq checks f a b hf⟩

/-- `-1 * 2` with overflow checks. -/
theorem mulK_panics : Form.run true (-1) 2 .mulK = .error .panic ∧ Form.run true (-1) 2 .mul = .ok (.ok (-2)) := by
  decide

end Tsuki.Arith
