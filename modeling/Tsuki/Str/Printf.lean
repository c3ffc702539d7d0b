import Tsuki.Str.Format

/-!
# Integer conversions and `printf`

What C prints for a conversion of a 64-bit integer, and where `string.format` prints the same: everywhere but for a
sign on no digits, and for zeros that do not count a space or `0x` in front of them.
-/

namespace Tsuki.Format

open Tsuki.Str (decimal decimal_spec)

/-! ## `printf` -/

/-- The integer conversions. -/
inductive IntConv
  | d | o | x | upperX
  deriving DecidableEq, Repr

/-- The characters of a conversion. -/
def IntConv.Char (v : IntConv) (ch : Char) : Prop :=
  match v with
  | .d => ch = 'd' ∨ ch = 'i'
  | .o => ch = 'o'
  | .x => ch = 'x'
  | .upperX => ch = 'X'

/-- What stands before the digits: a sign, or the mark of the base. -/
def lead (s : Spec) (v : IntConv) (n : Int64) : Bytes :=
  match v with
  | .d =>
    if n < 0 then [45]
    else match s.sign with
      | .always => [43]
      | .spaceIfPositive => [32]
      | .negative => []
  | .o => []
  | .x => if s.alt ∧ n ≠ 0 then [48, 120] else []
  | .upperX => if s.alt ∧ n ≠ 0 then [48, 88] else []

/-- The digits of the value. -/
def magnitude (v : IntConv) (n : Int64) : Bytes :=
  match v with
  | .d => decimal n.toInt.natAbs
  | .o => radix 8 false n.toUInt64
  | .x => radix 16 false n.toUInt64
  | .upperX => radix 16 true n.toUInt64

/-- The precision is the least number of digits, one if there is none; zero with precision zero has no digits. -/
def withPrecision (s : Spec) (v : IntConv) (n : Int64) : Bytes :=
  if s.precision = some 0 ∧ n = 0 then [] else padZero (s.precision.getD 1) (magnitude v n)

/-- The alternate form of an octal number begins with a zero. -/
def withZero (s : Spec) (v : IntConv) (n : Int64) : Bytes :=
  if v = .o ∧ s.alt ∧ (withPrecision s v n).head? ≠ some 48 then 48 :: withPrecision s v n else withPrecision s v n

/-- Padding to the width, by zeros if there is the flag for it, and neither `-` nor a precision. -/
def printf (s : Spec) (v : IntConv) (n : Int64) : Bytes :=
  if s.lz ∧ ¬s.left ∧ s.precision = none then
    lead s v n ++ padZero (s.width.getD 0 - (lead s v n).length) (withZero s v n)
  else applyWidth s (lead s v n ++ withZero s v n)

/-- The flags that a conversion accepts. -/
def Accepted (s : Spec) (v : IntConv) : Prop :=
  match v with
  | .d => s.alt = false
  | .o | .x | .upperX => s.sign = .negative

/-- Where `format` prints something else. -/
inductive Differs (s : Spec) (n : Int64) : IntConv → Prop
  /-- The sign of no digits is missing. -/
  | plus : s.precision = some 0 → n = 0 → s.sign = .always → Differs s n .d
  | space : s.precision = some 0 → n = 0 → s.sign = .spaceIfPositive → s.width.getD 0 = 0 → Differs s n .d
  /-- The zeros do not count the space. -/
  | zeros : s.precision = none → s.lz = true → s.left = false → s.sign = .spaceIfPositive → 0 ≤ n →
      (magnitude .d n).length < s.width.getD 0 → Differs s n .d
  /-- The zeros do not count `0x`. -/
  | mark {v : IntConv} : v = .x ∨ v = .upperX → s.precision = none → s.lz = true → s.left = false → s.alt = true →
      n ≠ 0 → (magnitude v n).length < s.width.getD 0 → Differs s n v

/-! ## Padding -/

theorem length_padZero (w : Nat) (ds : Bytes) : (padZero w ds).length = max w ds.length := by
  rw [padZero, List.length_append, List.length_replicate]
  omega

theorem padZero_of_le {w : Nat} {ds : Bytes} (h : w ≤ ds.length) : padZero w ds = ds := by
  rw [padZero, Nat.sub_eq_zero_of_le h]
  rfl

theorem applyWidth_of_le {s : Spec} {buf : Bytes} (h : s.width.getD 0 ≤ buf.length) : applyWidth s buf = buf := by
  rw [applyWidth, Nat.sub_eq_zero_of_le h]
  split_ifs <;> simp

theorem magnitude_ne_nil (v : IntConv) (n : Int64) : magnitude v n ≠ [] := by
  have hradix (k : Nat) (h1 : 2 ≤ k) (h2 : k ≤ 36) (u : Bool) : radix k u n.toUInt64 ≠ [] :=
    (Base.writeNat_spec h1 h2 u n.toUInt64.toNat).1.1
  cases v with
  | d => exact (decimal_spec _).1
  | o => exact hradix 8 (by decide) (by decide) false
  | x => exact hradix 16 (by decide) (by decide) false
  | upperX => exact hradix 16 (by decide) (by decide) true

theorem one_le_magnitude (v : IntConv) (n : Int64) : 1 ≤ (magnitude v n).length :=
  List.length_pos_iff.mpr (magnitude_ne_nil v n)

theorem zeroWidth_eq (s : Spec) : s.zeroWidth = if s.lz ∧ ¬s.left then s.width.getD 0 else 0 := by
  unfold Spec.zeroWidth
  split_ifs <;> simp_all

/-- What a branch writes, before the width is applied. -/
def branch (s : Spec) (v : IntConv) (n : Int64) : Rust Bytes :=
  match v with
  | .d => .ok (convertSigned s n)
  | .o => convertOctal s n.toUInt64
  | .x => .ok (convertHex false s n.toUInt64)
  | .upperX => .ok (convertHex true s n.toUInt64)

theorem convert_eq_branch (ff : FloatFmt) (k : Nat) {s : Spec} {v : IntConv} (hch : v.Char s.ch) (hok : Accepted s v)
    (fmt : List Char) {arg : Arg} {n : Int64} (harg : arg.toInt = .ok n) :
    convert ff k s fmt arg = branch s v n := by
  unfold convert
  rw [harg]
  cases v with
  | d =>
    have hc : s.ch ≠ 'c' := by rintro hc; rcases hch with h | h <;> rw [h] at hc <;> cases hc
    rw [if_neg fun h => hc h.1, if_pos ⟨hch, by simp [show s.alt = false from hok]⟩]
    rfl
  | o =>
    have h : s.ch = 'o' := hch
    have hsign : s.sign = .negative := hok
    simp [h, hsign, liftArg, branch]
  | x =>
    have h : s.ch = 'x' := hch
    have hsign : s.sign = .negative := hok
    simp [h, hsign, liftArg, branch]
    rfl
  | upperX =>
    have h : s.ch = 'X' := hch
    have hsign : s.sign = .negative := hok
    simp [h, hsign, liftArg, branch]
    rfl

/-! ## The pieces of the code and of `printf` -/

theorem toUInt64_eq_zero (n : Int64) : n.toUInt64 = 0 ↔ n = 0 :=
  ⟨fun h => congrArg UInt64.toInt64 h, fun h => by rw [h]; rfl⟩

/-- With a precision, the digits are those of `printf`. -/
theorem convertDigits_some {s : Spec} {p : Nat} (h : s.precision = some p) (v : IntConv) (n : Int64) :
    convertDigits s n.toUInt64 (magnitude v n) = withPrecision s v n := by
  simp only [convertDigits, withPrecision, h, toUInt64_eq_zero, Option.some.injEq, Option.getD_some]

theorem convertDigits_none {s : Spec} (h : s.precision = none) (v : IntConv) (n : Int64) :
    convertDigits s n.toUInt64 (magnitude v n) = padZero s.zeroWidth (magnitude v n) := by
  simp only [convertDigits, h]

theorem convertDigits_ne_nil {s : Spec} {n : UInt64} {ds : Bytes} (hz : ¬(s.precision = some 0 ∧ n = 0))
    (hds : ds ≠ []) : convertDigits s n ds ≠ [] := by
  have hpad (w : Nat) : padZero w ds ≠ [] := fun h => hds (List.append_eq_nil_iff.mp h).2
  unfold convertDigits
  split
  · rename_i p hp
    rw [if_neg fun h => hz ⟨by rw [hp, h.1], h.2⟩]
    exact hpad p
  · exact hpad _

theorem withPrecision_none {s : Spec} (h : s.precision = none) (v : IntConv) (n : Int64) :
    withPrecision s v n = magnitude v n := by
  rw [withPrecision, if_neg (by simp [h]), h]
  exact padZero_of_le (one_le_magnitude v n)

/-- Zeros fill the width: the flag for it is set, and nothing else forbids it. -/
def Zeros (s : Spec) : Prop := s.lz = true ∧ s.left = false ∧ s.precision = none

theorem printf_zeros {s : Spec} (h : Zeros s) (v : IntConv) (n : Int64) :
    printf s v n = lead s v n ++ padZero (s.width.getD 0 - (lead s v n).length) (withZero s v n) :=
  if_pos ⟨h.1, by simp [h.2.1], h.2.2⟩

theorem printf_spaces {s : Spec} (h : ¬Zeros s) (v : IntConv) (n : Int64) :
    printf s v n = applyWidth s (lead s v n ++ withZero s v n) :=
  if_neg fun hz => h ⟨hz.1, by simpa using hz.2.1, hz.2.2⟩

theorem zeroWidth_zeros {s : Spec} (h : Zeros s) : s.zeroWidth = s.width.getD 0 := by
  rw [zeroWidth_eq, if_pos ⟨h.1, by simp [h.2.1]⟩]

theorem zeroWidth_spaces {s : Spec} (h : ¬Zeros s) (hp : s.precision = none) : s.zeroWidth = 0 := by
  rw [zeroWidth_eq, if_neg fun hz => h ⟨hz.1, by simpa using hz.2, hp⟩]

theorem applyWidth_padZero (s : Spec) (l ds : Bytes) :
    applyWidth s (l ++ padZero (s.width.getD 0 - l.length) ds) = l ++ padZero (s.width.getD 0 - l.length) ds := by
  refine applyWidth_of_le ?_
  rw [List.length_append, length_padZero]
  omega

/-- Where the zeros alone fill the width, there are too many of them. -/
theorem applyWidth_padZero_iff {s : Spec} {l : Bytes} (ds : Bytes) (hl : l ≠ []) :
    applyWidth s (l ++ padZero (s.width.getD 0) ds) = l ++ padZero (s.width.getD 0 - l.length) ds ↔
      ¬ds.length < s.width.getD 0 := by
  have hpos := List.length_pos_iff.mpr hl
  rw [applyWidth_of_le (by rw [List.length_append, length_padZero]; omega)]
  by_cases h : ds.length < s.width.getD 0
  · refine iff_of_false (fun heq => ?_) (fun hnot => hnot h)
    have := congrArg List.length heq
    simp only [List.length_append, length_padZero] at this
    omega
  · rw [padZero_of_le (by omega), padZero_of_le (by omega)]
    exact iff_of_true rfl h

/-! ## Signed conversions -/

/-- The sign and the digits of the code, with a precision. -/
theorem convertSigned_some {s : Spec} {p : Nat} (h : s.precision = some p) {n : Int64} (hz : ¬(p = 0 ∧ n = 0)) :
    convertSigned s n = lead s .d n ++ withPrecision s .d n := by
  have hdigits : withPrecision s .d n = padZero p (decimal n.toInt.natAbs) := by
    rw [withPrecision, if_neg (by rw [h]; simpa using hz), h]
    rfl
  rw [hdigits]
  simp only [convertSigned, h, if_neg hz, lead]
  by_cases hn : n < 0
  · have hge : ¬n ≥ 0 := by rw [ge_iff_le, Int64.not_le]; exact hn
    cases s.sign <;> simp [hn, hge]
  · have hge : n ≥ 0 := by rw [ge_iff_le, ← Int64.not_lt]; exact hn
    cases s.sign <;> simp [hn, hge]

/-- And without one; zeros count the sign, but not the space. -/
theorem convertSigned_none {s : Spec} (h : s.precision = none) (n : Int64) :
    convertSigned s n = lead s .d n ++ padZero
      (if s.sign = .spaceIfPositive ∧ 0 ≤ n then s.zeroWidth else s.zeroWidth - (lead s .d n).length)
      (decimal n.toInt.natAbs) := by
  simp only [convertSigned, h, lead, padSigned]
  by_cases hn : n < 0
  · have hge : ¬0 ≤ n := by rw [Int64.not_le]; exact hn
    cases s.sign <;> simp [hn, hge]
  · have hge : 0 ≤ n := by rw [← Int64.not_lt]; exact hn
    cases s.sign <;> simp [hn, hge]

/-- With a precision, only the sign of no digits can be missing. -/
theorem differs_some {s : Spec} {p : Nat} (h : s.precision = some p) (n : Int64) :
    Differs s n .d ↔ p = 0 ∧ n = 0 ∧ (s.sign = .always ∨ s.sign = .spaceIfPositive ∧ s.width.getD 0 = 0) := by
  constructor
  · rintro (⟨hp, hn, hs⟩ | ⟨hp, hn, hs, hw⟩ | hp | ⟨hv, -⟩)
    · exact ⟨Option.some.inj (h.symm.trans hp), hn, .inl hs⟩
    · exact ⟨Option.some.inj (h.symm.trans hp), hn, .inr ⟨hs, hw⟩⟩
    · rw [h] at hp
      cases hp
    · rcases hv with hv | hv <;> cases hv
  · rintro ⟨rfl, hn, hs | ⟨hs, hw⟩⟩
    · exact .plus h hn hs
    · exact .space h hn hs hw

theorem differs_none {s : Spec} (h : s.precision = none) (n : Int64) :
    Differs s n .d ↔
      Zeros s ∧ s.sign = .spaceIfPositive ∧ 0 ≤ n ∧ (magnitude .d n).length < s.width.getD 0 := by
  constructor
  · rintro (⟨hp, -⟩ | ⟨hp, -⟩ | ⟨hp, hlz, hleft, hs, hn, hw⟩ | ⟨hv, -⟩)
    · rw [h] at hp
      cases hp
    · rw [h] at hp
      cases hp
    · exact ⟨⟨hlz, hleft, hp⟩, hs, hn, hw⟩
    · rcases hv with hv | hv <;> cases hv
  · rintro ⟨⟨hlz, hleft, hp⟩, hs, hn, hw⟩
    exact .zeros hp hlz hleft hs hn hw

theorem no_digits (s : Spec) :
    applyWidth s [] = applyWidth s (lead s .d 0) ↔
      ¬(s.sign = .always ∨ s.sign = .spaceIfPositive ∧ s.width.getD 0 = 0) := by
  cases hsign : s.sign with
  | negative => simp [lead, hsign]
  | always =>
    have hmem : (43 : UInt8) ∈ applyWidth s (lead s .d 0) := by
      unfold applyWidth
      split_ifs <;> simp [lead, hsign]
    have hnot : (43 : UInt8) ∉ applyWidth s [] := by
      unfold applyWidth
      split_ifs <;> simp
    exact iff_of_false (fun h => hnot (h ▸ hmem)) (by simp)
  | spaceIfPositive =>
    have hlead : lead s .d 0 = [32] := by simp [lead, hsign]
    rw [hlead]
    cases hw : s.width.getD 0 with
    | zero => simp [applyWidth, hw]
    | succ w =>
      refine iff_of_true ?_ (by simp)
      have happend : List.replicate (w + 1) (32 : UInt8) = List.replicate w 32 ++ [32] := List.replicate_succ'
      simp only [applyWidth, hw]
      split_ifs
      · rfl
      · rw [List.append_nil]
        exact happend

theorem signed_printf (s : Spec) (n : Int64) :
    applyWidth s (convertSigned s n) = printf s .d n ↔ ¬Differs s n .d := by
  have hwithZero : withZero s .d n = withPrecision s .d n := if_neg fun h => IntConv.noConfusion h.1
  cases hp : s.precision with
  | some p =>
    have hspaces : ¬Zeros s := fun h => by rw [h.2.2] at hp; cases hp
    rw [printf_spaces hspaces, hwithZero, differs_some hp]
    by_cases hz : p = 0 ∧ n = 0
    · obtain ⟨rfl, rfl⟩ := hz
      have hnil : convertSigned s 0 = [] := by simp [convertSigned, hp]
      have hnone : withPrecision s .d 0 = [] := by simp [withPrecision, hp]
      rw [hnil, hnone, List.append_nil, no_digits]
      simp
    · rw [convertSigned_some hp hz]
      exact iff_of_true rfl fun h => hz ⟨h.1, h.2.1⟩
  | none =>
    rw [convertSigned_none hp, differs_none hp]
    by_cases hzeros : Zeros s
    · rw [printf_zeros hzeros, hwithZero, withPrecision_none hp, zeroWidth_zeros hzeros]
      by_cases hspace : s.sign = .spaceIfPositive ∧ 0 ≤ n
      · have hlead : lead s .d n = [32] := by rw [lead, if_neg (Int64.not_lt.mpr hspace.2), hspace.1]
        rw [if_pos hspace]
        refine (applyWidth_padZero_iff (magnitude .d n) (by rw [hlead]; exact nofun)).trans (not_congr ?_)
        exact ⟨fun h => ⟨hzeros, hspace.1, hspace.2, h⟩, fun h => h.2.2.2⟩
      · rw [if_neg hspace]
        exact iff_of_true (applyWidth_padZero s _ _) fun h => hspace ⟨h.2.1, h.2.2.1⟩
    · rw [printf_spaces hzeros, hwithZero, withPrecision_none hp, zeroWidth_spaces hzeros hp]
      refine iff_of_true ?_ fun h => hzeros h.1
      split_ifs <;> simp [padZero, magnitude]

/-! ## Unsigned conversions -/

/-- The zero in front of an octal number. -/
def octal (alt : Bool) (ds : Bytes) : Bytes := if alt ∧ ds.head? ≠ some 48 then 48 :: ds else ds

theorem withZero_o (s : Spec) (n : Int64) : withZero s .o n = octal s.alt (withPrecision s .o n) := by
  simp [withZero, octal]

/-- It makes no difference whether it is put before the zeros or behind them. -/
theorem padZero_octal (w : Nat) (alt : Bool) (ds : Bytes) : padZero w (octal alt ds) = octal alt (padZero w ds) := by
  by_cases hw : w ≤ ds.length
  · have hle : ds.length ≤ (octal alt ds).length := by
      unfold octal
      split_ifs <;> simp
    rw [padZero_of_le hw, padZero_of_le (Nat.le_trans hw hle)]
  · obtain ⟨m, hm⟩ : ∃ m, w - ds.length = m + 1 := ⟨w - ds.length - 1, by omega⟩
    have hzeros : octal alt (padZero w ds) = padZero w ds :=
      if_neg fun h => h.2 (by rw [padZero, hm]; rfl)
    rw [hzeros]
    unfold octal
    split_ifs
    · rw [padZero, padZero, List.length_cons, hm, show w - (ds.length + 1) = m by omega, List.replicate_succ',
        List.append_assoc]
      rfl
    · rfl

theorem convertOctal_eq (s : Spec) (n : Int64) :
    convertOctal s n.toUInt64 = .ok (octal s.alt (convertDigits s n.toUInt64 (magnitude .o n))) := by
  have hradix : radix 8 false n.toUInt64 = magnitude .o n := rfl
  unfold convertOctal
  rw [hradix]
  cases halt : s.alt with
  | false => simp [octal]
  | true =>
    by_cases hz : s.precision = some 0 ∧ n.toUInt64 = 0
    · have hnil : convertDigits s n.toUInt64 (magnitude .o n) = [] := by simp [convertDigits, hz.1, hz.2]
      rw [hnil]
      simp [hz, octal, idx]
      rfl
    · obtain ⟨b, ds, hds⟩ := List.exists_cons_of_ne_nil (convertDigits_ne_nil hz (magnitude_ne_nil .o n))
      rw [hds]
      by_cases hb : b = 48 <;> simp [octal, idx, hb, hz] <;> rfl

theorem octal_printf (s : Spec) (n : Int64) :
    ∃ buf, convertOctal s n.toUInt64 = .ok buf ∧ applyWidth s buf = printf s .o n := by
  refine ⟨_, convertOctal_eq s n, ?_⟩
  cases hp : s.precision with
  | some p =>
    have hspaces : ¬Zeros s := fun h => by rw [h.2.2] at hp; cases hp
    rw [printf_spaces hspaces, withZero_o, convertDigits_some hp]
    rfl
  | none =>
    rw [convertDigits_none hp]
    by_cases hzeros : Zeros s
    · rw [printf_zeros hzeros, withZero_o, withPrecision_none hp, zeroWidth_zeros hzeros, ← padZero_octal]
      exact applyWidth_padZero s [] _
    · rw [printf_spaces hzeros, withZero_o, withPrecision_none hp, zeroWidth_spaces hzeros hp,
        padZero_of_le (Nat.zero_le _)]
      rfl

theorem differs_hex {s : Spec} {v : IntConv} (hv : v = .x ∨ v = .upperX) (n : Int64) :
    Differs s n v ↔ Zeros s ∧ s.alt = true ∧ n ≠ 0 ∧ (magnitude v n).length < s.width.getD 0 := by
  constructor
  · rintro (⟨-⟩ | ⟨-⟩ | ⟨-⟩ | ⟨-, hp, hlz, hleft, halt, hn, hw⟩)
    · rcases hv with hv | hv <;> cases hv
    · rcases hv with hv | hv <;> cases hv
    · rcases hv with hv | hv <;> cases hv
    · exact ⟨⟨hlz, hleft, hp⟩, halt, hn, hw⟩
  · rintro ⟨⟨hlz, hleft, hp⟩, halt, hn, hw⟩
    exact .mark hv hp hlz hleft halt hn hw

theorem hex_printf (s : Spec) {v : IntConv} {upper : Bool}
    (hv : v = .x ∧ upper = false ∨ v = .upperX ∧ upper = true) (n : Int64) :
    applyWidth s (convertHex upper s n.toUInt64) = printf s v n ↔ ¬Differs s n v := by
  have hv' : v = .x ∨ v = .upperX := hv.imp And.left And.left
  have hconv : convertHex upper s n.toUInt64 = lead s v n ++ convertDigits s n.toUInt64 (magnitude v n) := by
    have hzero := toUInt64_eq_zero n
    rcases hv with ⟨rfl, rfl⟩ | ⟨rfl, rfl⟩ <;> simp [convertHex, lead, magnitude, hzero, and_comm]
  have hwithZero : withZero s v n = withPrecision s v n := by
    refine if_neg fun h => ?_
    rcases hv' with rfl | rfl <;> cases h.1
  rw [hconv, differs_hex hv']
  cases hp : s.precision with
  | some p =>
    have hspaces : ¬Zeros s := fun h => by rw [h.2.2] at hp; cases hp
    rw [printf_spaces hspaces, hwithZero, convertDigits_some hp]
    exact iff_of_true rfl fun h => hspaces h.1
  | none =>
    rw [convertDigits_none hp]
    by_cases hzeros : Zeros s
    · rw [printf_zeros hzeros, hwithZero, withPrecision_none hp, zeroWidth_zeros hzeros]
      by_cases hmark : s.alt = true ∧ n ≠ 0
      · have hlead : lead s v n ≠ [] := by
          rcases hv' with rfl | rfl <;> rw [lead, if_pos hmark] <;> exact nofun
        refine (applyWidth_padZero_iff (magnitude v n) hlead).trans (not_congr ?_)
        exact ⟨fun h => ⟨hzeros, hmark.1, hmark.2, h⟩, fun h => h.2.2.2⟩
      · have hlead : lead s v n = [] := by
          rcases hv' with rfl | rfl <;> rw [lead, if_neg hmark]
        rw [hlead]
        exact iff_of_true (applyWidth_padZero s [] _) fun h => hmark ⟨h.2.1, h.2.2.1⟩
    · rw [printf_spaces hzeros, hwithZero, withPrecision_none hp, zeroWidth_spaces hzeros hp]
      exact iff_of_true (by simp [padZero]) fun h => hzeros h.1

/-! ## All conversions -/

/-- The text of a conversion is that of `printf`, where the two do not differ. -/
theorem branch_printf {s : Spec} {v : IntConv} (n : Int64) :
    ∃ buf, branch s v n = .ok buf ∧ (applyWidth s buf = printf s v n ↔ ¬Differs s n v) := by
  cases v with
  | d => exact ⟨_, rfl, signed_printf s n⟩
  | o =>
    obtain ⟨buf, hbuf, heq⟩ := octal_printf s n
    refine ⟨buf, hbuf, iff_of_true heq fun h => ?_⟩
    cases h with
    | mark hv => rcases hv with hv | hv <;> cases hv
  | x => exact ⟨_, rfl, hex_printf s (.inl ⟨rfl, rfl⟩) n⟩
  | upperX => exact ⟨_, rfl, hex_printf s (.inr ⟨rfl, rfl⟩) n⟩

end Tsuki.Format
