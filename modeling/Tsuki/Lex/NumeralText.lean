import Tsuki.F64.Value
import Tsuki.Lex.NumeralForm
import Tsuki.Str.QuoteRoundTrip

/-!
# Numerals and their values

`luaO_str2num` chains a parser of integers with that of `core`, and drops what is not finite. `core` is assumed to
round correctly, at the text it is given. The grammar of the manual and the one of `core` are compared on the trimmed
text. The text that a number is written as is then one of that grammar, and its value rounds to the number it came
from.
-/

namespace Tsuki.Lex

/-! ## Decimal numerals -/

/-- Digits with a point or without. -/
def Point (ds fs pt : Bytes) : Prop := (pt = ds ∧ fs = [] ∧ ds ≠ []) ∨ (pt = ds ++ 46 :: fs ∧ (ds ≠ [] ∨ fs ≠ []))

/-- An exponent, or none. -/
def Exponent (x : ℤ) (ex : Bytes) : Prop :=
  (ex = [] ∧ x = 0) ∨ ∃ e, (e = 101 ∨ e = 69) ∧ ∃ neg, ∃ sign ∈ signs neg, ∃ es, Digits lisdigit es ∧
    ex = e :: (sign ++ es) ∧ x = signed neg (digits 10 decDigit 0 es)

/-- A decimal numeral without its sign, and its value. -/
def Decimal (body : Bytes) (v : ℚ) : Prop :=
  ∃ ds fs pt ex x, (∀ b ∈ ds, lisdigit b = true) ∧ (∀ b ∈ fs, lisdigit b = true) ∧ Point ds fs pt ∧ Exponent x ex ∧
    body = pt ++ ex ∧ v = digits 10 decDigit 0 (ds ++ fs) * 10 ^ (x - fs.length)

/-- A signed rational. -/
def signedRat (neg : Bool) (v : ℚ) : ℚ := if neg then -v else v

/-- What `core` documents of the parser of `f64` at one text: a decimal numeral is rounded to the nearest float, and
nothing else is read as a finite one. -/
structure ParseAt (parse : Bytes → Option F64) (t : Bytes) : Prop where
  number : ∀ neg, ∀ sign ∈ signs neg, ∀ body v, Decimal body v → t = sign ++ body →
    ∃ f, parse t = some f ∧ f.negative = neg ∧ f.val = Val.round (signedRat neg v)
  only : ∀ f, parse t = some f → f.isFinite = true →
    ∃ neg, ∃ sign ∈ signs neg, ∃ body v, Decimal body v ∧ t = sign ++ body

/-! ## What a text means -/

/-- The text is a numeral for the integer: a decimal one whose value fits, or a hexadecimal one. -/
def IntText (s : Bytes) (i : Int64) : Prop :=
  (∃ neg ds, Digits lisdigit ds ∧ Framed lisspace neg ds s ∧ digits 10 decDigit 0 ds < 2 ^ 63 + neg.toNat ∧
    i = Int64.ofInt (signed neg (digits 10 decDigit 0 ds))) ∨
  ∃ neg hs body, HexBody hs body ∧ Framed lisspace neg body s ∧ i = Int64.ofInt (signed neg (digits 16 hexDigit 0 hs))

/-- The number that a text stands for: an integer, the float nearest to any other decimal numeral, or none. -/
def Meant (s : Bytes) : Option Number → Prop
  | some (.int i) => IntText s i
  | some (.float f) => (∀ i, ¬IntText s i) ∧ ∃ neg body v, Decimal body v ∧ Framed lisspace neg body s ∧
      f.negative = neg ∧ f.val = Val.round (signedRat neg v)
  | none => (∀ i, ¬IntText s i) ∧ ∀ neg body v, Decimal body v → ¬Framed lisspace neg body s

/-- A decimal numeral, not of an integer that fits, whose nearest float is an infinity. -/
def Overflows (s : Bytes) : Prop :=
  (∀ i, ¬IntText s i) ∧ ∃ neg body v, Decimal body v ∧ Framed lisspace neg body s ∧
    ∀ q, Val.round (signedRat neg v) ≠ .fin q

/-! ## White space -/

theorem isAsciiSpace_eq : isAsciiSpace = lisspace := rfl

/-- White space around a text without any is cut off. -/
theorem trimAscii_append {before t after : Bytes} (hbefore : ∀ b ∈ before, lisspace b = true)
    (hafter : ∀ b ∈ after, lisspace b = true) (hne : t ≠ []) (ht : ∀ b ∈ t, lisspace b = false) :
    trimAscii (before ++ (t ++ after)) = t := by
  have hhead {u w : Bytes} (hu : u ≠ []) (hall : ∀ b ∈ u, lisspace b = false) (b : UInt8)
      (hb : (u ++ w).head? = some b) : lisspace b = false := by
    obtain ⟨c, u, rfl⟩ := List.exists_cons_of_ne_nil hu
    cases hb
    exact hall b List.mem_cons_self
  have hrev : t.reverse ≠ [] := mt List.reverse_eq_nil_iff.mp hne
  have hback : (after.reverse ++ t.reverse).dropWhile lisspace = t.reverse := by
    have := hhead (w := []) hrev fun b hb => ht b (List.mem_reverse.mp hb)
    rw [List.append_nil] at this
    exact dropWhile_append (fun b hb => hafter b (List.mem_reverse.mp hb)) this
  rw [trimAscii, isAsciiSpace_eq, dropWhile_append hbefore (hhead hne ht), List.reverse_append, hback,
    List.reverse_reverse]

theorem trimAscii_spec (s : Bytes) : ∃ before after, (∀ b ∈ before, lisspace b = true) ∧
    (∀ b ∈ after, lisspace b = true) ∧ s = before ++ (trimAscii s ++ after) := by
  refine ⟨s.takeWhile lisspace, ((s.dropWhile lisspace).reverse.takeWhile lisspace).reverse,
    fun b hb => List.mem_takeWhile_imp hb, fun b hb => List.mem_takeWhile_imp (List.mem_reverse.mp hb), ?_⟩
  rw [trimAscii, isAsciiSpace_eq, ← List.reverse_append, List.takeWhile_append_dropWhile, List.reverse_reverse,
    List.takeWhile_append_dropWhile]

/-! ## The bytes of a numeral -/

/-- A byte of a decimal numeral: a digit, a point, a sign or the mark of an exponent. -/
def Numeric (b : UInt8) : Prop := lisdigit b = true ∨ b = 46 ∨ b = 43 ∨ b = 45 ∨ b = 101 ∨ b = 69

theorem Numeric.space {b : UInt8} (h : Numeric b) : lisspace b = false ∧ b.toNat < 0x80 := by
  rcases h with h | rfl | rfl | rfl | rfl | rfl
  · refine ⟨lisspace_of_digit h, ?_⟩
    simp only [lisdigit, Bool.and_eq_true, decide_eq_true_eq] at h
    omega
  all_goals decide

theorem numeric_sign {neg : Bool} {sign : Bytes} (h : sign ∈ signs neg) {b : UInt8} (hb : b ∈ sign) : Numeric b := by
  cases neg <;> simp only [signs, Bool.false_eq_true, if_true, if_false, List.mem_cons, List.not_mem_nil,
    or_false] at h
  · rcases h with rfl | rfl
    · cases hb
    · exact .inr (.inr (.inl (List.mem_singleton.mp hb)))
  · subst h
    exact .inr (.inr (.inr (.inl (List.mem_singleton.mp hb))))

theorem Decimal.numeric {body : Bytes} {v : ℚ} (h : Decimal body v) : body ≠ [] ∧ ∀ b ∈ body, Numeric b := by
  obtain ⟨ds, fs, pt, ex, x, hds, hfs, hpt, hex, rfl, -⟩ := h
  have hpoint : pt ≠ [] ∧ ∀ b ∈ pt, Numeric b := by
    rcases hpt with ⟨rfl, -, hne⟩ | ⟨rfl, -⟩
    · exact ⟨hne, fun b hb => .inl (hds b hb)⟩
    · refine ⟨by simp, fun b hb => ?_⟩
      rcases List.mem_append.mp hb with hb | hb
      · exact .inl (hds b hb)
      · rcases List.mem_cons.mp hb with rfl | hb
        · exact .inr (.inl rfl)
        · exact .inl (hfs b hb)
  refine ⟨fun hnil => hpoint.1 (List.append_eq_nil_iff.mp hnil).1, fun b hb => ?_⟩
  rcases List.mem_append.mp hb with hb | hb
  · exact hpoint.2 b hb
  · rcases hex with ⟨rfl, -⟩ | ⟨e, he, neg, sign, hsign, es, hes, rfl, -⟩
    · cases hb
    · rcases List.mem_cons.mp hb with rfl | hb
      · exact he.elim (fun h => .inr (.inr (.inr (.inr (.inl h))))) fun h => .inr (.inr (.inr (.inr (.inr h))))
      · rcases List.mem_append.mp hb with hb | hb
        · exact numeric_sign hsign hb
        · exact .inl (hes.2 b hb)

/-- The text between white space is the numeral with its sign. -/
theorem framed_iff_trim {neg : Bool} {body s : Bytes} {v : ℚ} (h : Decimal body v) :
    Framed lisspace neg body s ↔ ∃ sign ∈ signs neg, trimAscii s = sign ++ body := by
  obtain ⟨hne, hnum⟩ := h.numeric
  constructor
  · rintro ⟨before, after, sign, hsign, hbefore, hafter, rfl⟩
    refine ⟨sign, hsign, ?_⟩
    rw [← List.append_assoc sign]
    refine trimAscii_append hbefore hafter (fun hnil => hne (List.append_eq_nil_iff.mp hnil).2) fun b hb => ?_
    rcases List.mem_append.mp hb with hb | hb
    · exact (numeric_sign hsign hb).space.1
    · exact (hnum b hb).space.1
  · rintro ⟨sign, hsign, htrim⟩
    obtain ⟨before, after, hbefore, hafter, heq⟩ := trimAscii_spec s
    exact ⟨before, after, sign, hsign, hbefore, hafter, by rw [← List.append_assoc sign, ← htrim]; exact heq⟩

theorem valid_trim {neg : Bool} {body s sign : Bytes} {v : ℚ} (h : Decimal body v) (hsign : sign ∈ signs neg)
    (htrim : trimAscii s = sign ++ body) : Utf8.valid (trimAscii s) = true := by
  rw [htrim]
  refine Utf8.valid_of_ascii fun b hb => ?_
  rcases List.mem_append.mp hb with hb | hb
  · exact (numeric_sign hsign hb).space.2
  · exact (h.numeric.2 b hb).space.2

theorem isFinite_iff {f : F64} : f.isFinite = true ↔ ∃ q, f.val = .fin q := by
  rw [F64.isFinite, decide_eq_true_eq, F64.val]
  split_ifs with h <;> simp [h]

variable {parse : Bytes → Option F64}

/-- `l_str2d` reads the decimal numerals whose nearest float is finite. -/
theorem lStr2d_eq_some {s : Bytes} (h : ParseAt parse (trimAscii s)) {f : F64} : lStr2d parse s = some f ↔
    f.isFinite = true ∧ ∃ neg body v, Decimal body v ∧ Framed lisspace neg body s ∧ parse (trimAscii s) = some f ∧
      f.negative = neg ∧ f.val = Val.round (signedRat neg v) := by
  unfold lStr2d
  constructor
  · intro hf
    split_ifs at hf with hvalid
    obtain ⟨hparse, hfin⟩ := Option.filter_eq_some_iff.mp hf
    obtain ⟨neg, sign, hsign, body, v, hbody, htrim⟩ := h.only f hparse hfin
    obtain ⟨g, hg, hneg, hval⟩ := h.number neg sign hsign body v hbody htrim
    obtain rfl := Option.some.inj (hparse.symm.trans hg)
    exact ⟨hfin, neg, body, v, hbody, (framed_iff_trim hbody).mpr ⟨sign, hsign, htrim⟩, hparse, hneg, hval⟩
  · rintro ⟨hfin, neg, body, v, hbody, hframed, hparse, -⟩
    obtain ⟨sign, hsign, htrim⟩ := (framed_iff_trim hbody).mp hframed
    rw [if_pos (valid_trim hbody hsign htrim), hparse, Option.filter_some, if_pos hfin]

theorem lStr2int_none {s : Bytes} : lStr2int s = none ↔ ∀ i, ¬IntText s i := by
  simp only [IntText, ← lStr2int_eq_some]
  rw [Option.eq_none_iff_forall_ne_some]

/-- `luaO_str2num` reads every text as it is meant, unless the numeral overflows. -/
theorem meant_iff {s : Bytes} (h : ParseAt parse (trimAscii s)) :
    Meant s (luaO_str2num parse s) ↔ ¬Overflows s := by
  unfold luaO_str2num
  cases hint : lStr2int s with
  | some i =>
    have hi : IntText s i := lStr2int_eq_some.mp hint
    exact ⟨fun _ hover => hover.1 i hi, fun _ => hi⟩
  | none =>
    have hnone := lStr2int_none.mp hint
    cases hfloat : lStr2d parse s with
    | some f =>
      obtain ⟨hfin, neg, body, v, hbody, hframed, hparse, hneg, hval⟩ := (lStr2d_eq_some h).mp hfloat
      refine ⟨?_, fun _ => ⟨hnone, neg, body, v, hbody, hframed, hneg, hval⟩⟩
      rintro - ⟨-, neg', body', v', hbody', hframed', hinf⟩
      -- Whatever way the text is read, it is the one float that the parser returns.
      obtain ⟨sign, hsign, htrim⟩ := (framed_iff_trim hbody').mp hframed'
      obtain ⟨g, hg, -, hgval⟩ := h.number neg' sign hsign body' v' hbody' htrim
      obtain rfl := Option.some.inj (hparse.symm.trans hg)
      obtain ⟨q, hq⟩ := isFinite_iff.mp hfin
      exact hinf q (hgval.symm.trans hq)
    | none =>
      constructor
      · rintro ⟨-, hno⟩ ⟨-, neg, body, v, hbody, hframed, -⟩
        exact hno neg body v hbody hframed
      · refine fun hover => ⟨hnone, fun neg body v hbody hframed => hover ⟨hnone, neg, body, v, hbody, hframed, ?_⟩⟩
        intro q hq
        obtain ⟨sign, hsign, htrim⟩ := (framed_iff_trim hbody).mp hframed
        obtain ⟨f, hf, hneg, hval⟩ := h.number neg sign hsign body v hbody htrim
        have hfin : f.isFinite = true := isFinite_iff.mpr ⟨q, hval.trans hq⟩
        rw [(lStr2d_eq_some h).mpr ⟨hfin, neg, body, v, hbody, hframed, hf, hneg, hval⟩] at hfloat
        cases hfloat

/-! ## Printing and reading back -/

open Tsuki.Str (decimal decimal_spec displayInt)

theorem str2num_displayInt (parse : Bytes → Option F64) (i : Int64) :
    luaO_str2num parse (displayInt i) = some (.int i) := by
  obtain ⟨hne, hds, hval⟩ := decimal_spec i.toInt.natAbs
  obtain ⟨hlow, hhigh⟩ : -2 ^ 63 ≤ i.toInt ∧ i.toInt < 2 ^ 63 := ⟨i.le_toInt, i.toInt_lt⟩
  have hint : lStr2int (displayInt i) = some i := by
    refine lStr2int_eq_some.mpr (.inl ⟨decide (i.toInt < 0), _, ⟨hne, hds⟩, ?_, ?_, ?_⟩)
    · refine ⟨[], [], if i.toInt < 0 then [45] else [], ?_, nofun, nofun, ?_⟩
      · split_ifs <;> simp [signs, *]
      · rw [List.append_nil, displayInt]
        split_ifs <;> rfl
    · rw [hval]
      by_cases h : i.toInt < 0
      · rw [decide_eq_true h, Bool.toNat_true]
        omega
      · rw [decide_eq_false h, Bool.toNat_false]
        omega
    · rw [hval, signed]
      conv_lhs => rw [← Int64.ofInt_toInt i]
      congr 1
      split_ifs with h <;> simp only [decide_eq_true_eq] at h <;> omega
  rw [luaO_str2num, hint]

/-- Whether `fract` is zero. -/
def fractIsZero (f : F64) : Bool :=
  match f.val with
  | .fin q => (⌊q⌋ : ℚ) = q
  | _ => false

/-- `Float::fmt`: `fixed` is `{:.1}` of an `f64`, `display` is `{}`. -/
def floatFmt (fixed display : F64 → Bytes) (f : F64) : Bytes := if fractIsZero f then fixed f else display f

/-- The sign that a float is printed with. -/
def signText (f : F64) : Bytes := if f.negative then [45] else []

/-- What `core` documents of `Display` at one float: `{:.1}` of a whole number is exact, and `{}` of another one is a
numeral with a point whose nearest float is the float. -/
structure DisplayAt (fixed display : F64 → Bytes) (f : F64) : Prop where
  whole : ∀ z : ℤ, f.val = .fin z → fixed f = signText f ++ (decimal z.natAbs ++ [46, 48])
  other : ∀ q, f.val = .fin q → (⌊q⌋ : ℚ) ≠ q → ∃ ds fs, ds ≠ [] ∧ (∀ b ∈ ds, lisdigit b = true) ∧
    (∀ b ∈ fs, lisdigit b = true) ∧ display f = signText f ++ (ds ++ 46 :: fs) ∧
    Val.round (signedRat f.negative (digits 10 decDigit 0 (ds ++ fs) * 10 ^ (-fs.length : ℤ))) = f.val

theorem signText_mem (f : F64) : signText f ∈ signs f.negative := by
  unfold signText signs
  split_ifs <;> simp

theorem decimal_of_point {ds fs : Bytes} (hne : ds ≠ []) (hds : ∀ b ∈ ds, lisdigit b = true)
    (hfs : ∀ b ∈ fs, lisdigit b = true) :
    Decimal (ds ++ 46 :: fs) (digits 10 decDigit 0 (ds ++ fs) * 10 ^ (-fs.length : ℤ)) :=
  ⟨ds, fs, _, [], 0, hds, hfs, .inr ⟨rfl, .inl hne⟩, .inl ⟨rfl, rfl⟩, (List.append_nil _).symm, by rw [zero_sub]⟩

theorem IntText.no_point {s : Bytes} {i : Int64} (h : IntText s i) : 46 ∉ s := by
  have hframe {neg : Bool} {body : Bytes} (hbody : 46 ∉ body) (hframed : Framed lisspace neg body s) : 46 ∉ s := by
    obtain ⟨before, after, sign, hsign, hbefore, hafter, rfl⟩ := hframed
    simp only [List.mem_append, not_or]
    refine ⟨fun h => absurd (hbefore 46 h) (by decide), fun h => ?_, hbody, fun h => absurd (hafter 46 h) (by decide)⟩
    cases neg <;> simp [signs] at hsign
    · rcases hsign with rfl | rfl <;> simp at h
    · subst hsign
      simp at h
  rcases h with ⟨neg, ds, hds, hframed, -⟩ | ⟨neg, hs, body, ⟨x, hx, hhs, rfl⟩, hframed, -⟩
  · exact hframe (fun h => absurd (hds.2 46 h) (by decide)) hframed
  · refine hframe (fun h => ?_) hframed
    rcases List.mem_cons.mp h with h | h
    · cases h
    · rcases List.mem_cons.mp h with rfl | h
      · rcases hx with h | h <;> cases h
      · exact absurd (hhs.2 46 h) (by decide)

/-- A float is read back from a numeral with a point that rounds to it. -/
theorem str2num_point {f : F64} {q : ℚ} (hq : f.val = .fin q) {ds fs : Bytes} (hne : ds ≠ [])
    (hds : ∀ b ∈ ds, lisdigit b = true) (hfs : ∀ b ∈ fs, lisdigit b = true)
    (hround : Val.round (signedRat f.negative (digits 10 decDigit 0 (ds ++ fs) * 10 ^ (-fs.length : ℤ))) = f.val)
    (h : ParseAt parse (signText f ++ (ds ++ 46 :: fs))) :
    luaO_str2num parse (signText f ++ (ds ++ 46 :: fs)) = some (.float f) := by
  have hbody := decimal_of_point hne hds hfs
  have hsign := signText_mem f
  have hframed : Framed lisspace f.negative (ds ++ 46 :: fs) (signText f ++ (ds ++ 46 :: fs)) :=
    ⟨[], [], signText f, hsign, nofun, nofun, by rw [List.append_nil, List.nil_append]⟩
  have htrim : trimAscii (signText f ++ (ds ++ 46 :: fs)) = signText f ++ (ds ++ 46 :: fs) := by
    have hspace : ∀ b ∈ signText f ++ (ds ++ 46 :: fs), lisspace b = false := by
      intro b hb
      rcases List.mem_append.mp hb with hb | hb
      · exact (numeric_sign hsign hb).space.1
      · exact (hbody.numeric.2 b hb).space.1
    simpa using @trimAscii_append [] _ [] nofun nofun (by simp) hspace
  obtain ⟨g, hg, hneg, hval⟩ := h.number _ _ hsign _ _ hbody rfl
  obtain rfl : g = f := F64.eq_of_val hneg (hval.trans (hround.trans hq)) hq
  have hd : lStr2d parse (signText g ++ (ds ++ 46 :: fs)) = some g := by
    refine (lStr2d_eq_some (by rw [htrim]; exact h)).mpr ⟨isFinite_iff.mpr ⟨q, hq⟩, _, _, _, hbody, hframed, ?_⟩
    rw [htrim]
    exact ⟨hg, rfl, hround.symm⟩
  have hpoint : 46 ∈ signText g ++ (ds ++ 46 :: fs) := by simp
  rw [luaO_str2num, lStr2int_none.mpr fun i hi => hi.no_point hpoint, hd]

/-- Every finite float is read back from its text. -/
theorem str2num_floatFmt {fixed display : F64 → Bytes} {f : F64} (hfin : f.isFinite = true)
    (hdisplay : DisplayAt fixed display f) (h : ParseAt parse (floatFmt fixed display f)) :
    luaO_str2num parse (floatFmt fixed display f) = some (.float f) := by
  obtain ⟨q, hq⟩ := isFinite_iff.mp hfin
  have hfract : fractIsZero f = decide ((⌊q⌋ : ℚ) = q) := by rw [fractIsZero, hq]
  unfold floatFmt at h ⊢
  rw [hfract] at h ⊢
  by_cases hz : (⌊q⌋ : ℚ) = q
  · obtain ⟨hne, hds, hval⟩ := decimal_spec ⌊q⌋.natAbs
    rw [if_pos (decide_eq_true hz), hdisplay.whole ⌊q⌋ (by rw [hq, hz])] at h ⊢
    have hone : digits 10 decDigit 0 (decimal ⌊q⌋.natAbs ++ [48]) = 10 * ⌊q⌋.natAbs := by
      rw [Tsuki.Str.digits_append, hval]
      rfl
    have hvalue : signedRat f.negative ((digits 10 decDigit 0 (decimal ⌊q⌋.natAbs ++ [48]) : ℕ) * 10 ^ (-1 : ℤ)) = q := by
      have hsign := F64.sign_val hq
      have habs : (((10 * ⌊q⌋.natAbs : ℕ) : ℚ)) * 10 ^ (-1 : ℤ) = |q| := by
        rw [Nat.cast_mul, Nat.cast_natAbs, Int.cast_abs, hz]
        norm_num
        ring
      rw [hone, habs, signedRat]
      split_ifs at hsign ⊢
      · rw [abs_of_nonpos hsign, neg_neg]
      · rw [abs_of_nonneg hsign]
    have hzero : ∀ b ∈ ([48] : Bytes), lisdigit b = true := by
      intro b hb
      rw [List.mem_singleton.mp hb]
      decide
    refine str2num_point hq hne hds hzero ?_ h
    rw [hq, ← Val.round_of_representable (F64.representable_val hq)]
    exact congrArg Val.round hvalue
  · obtain ⟨ds, fs, hne, hds, hfs, htext, hround⟩ := hdisplay.other q hq hz
    rw [if_neg (by simpa using hz), htext] at h ⊢
    exact str2num_point hq hne hds hfs hround h

/-- Numerals are read as they are meant unless they overflow, and printed numbers are read back. -/
theorem numerals_read (parse : Bytes → Option F64) :
    (∀ s, ParseAt parse (trimAscii s) → (Meant s (luaO_str2num parse s) ↔ ¬Overflows s)) ∧
    (∀ i : Int64, luaO_str2num parse (displayInt i) = some (.int i)) ∧
    ∀ fixed display f, f.isFinite = true → DisplayAt fixed display f →
      ParseAt parse (floatFmt fixed display f) → luaO_str2num parse (floatFmt fixed display f) = some (.float f) :=
  ⟨fun _ h => meant_iff h, str2num_displayInt parse, fun _ _ _ hfin hdisplay h => str2num_floatFmt hfin hdisplay h⟩

/-- One half. -/
def half : F64 := ⟨0x3FE0000000000000⟩

/-- A parser that knows one text. -/
def parseHalf (t : Bytes) : Option F64 := if t = [48, 46, 53] then some half else none

theorem val_half : half.val = .fin (1 / 2) := by
  have hexp : half.exponent = 1022 := by decide
  have hsig : half.significand = 2 ^ 52 := by decide
  have hscale : half.scale = 1022 := by decide
  rw [F64.val, if_neg (by rw [hexp]; decide), hsig, hscale]
  norm_num

theorem decimal_half {v : ℚ} (h : Decimal [48, 46, 53] v) : v = 1 / 2 := by
  obtain ⟨ds, fs, pt, ex, x, hds, hfs, hpt, hex, heq, rfl⟩ := h
  have hdigit : lisdigit 46 = false := by decide
  rcases hex with ⟨rfl, rfl⟩ | ⟨e, he, neg, sign, hsign, es, hes, rfl, -⟩
  · rw [List.append_nil] at heq
    subst heq
    rcases hpt with ⟨rfl, -, -⟩ | ⟨hpt, -⟩
    · exact absurd (hds 46 (by simp)) (by rw [hdigit]; exact Bool.false_ne_true)
    · rcases ds with _ | ⟨d, _ | ⟨d', ds⟩⟩
      · cases (List.cons.inj hpt).1
      · obtain ⟨rfl, htail⟩ := List.cons.inj hpt
        obtain ⟨-, rfl⟩ := List.cons.inj htail
        have hval : digits 10 decDigit 0 ([48] ++ [53]) = 5 := by decide
        rw [hval]
        norm_num
      · obtain ⟨-, htail⟩ := List.cons.inj hpt
        obtain ⟨rfl, -⟩ := List.cons.inj htail
        exact absurd (hds 46 (by simp)) (by rw [hdigit]; exact Bool.false_ne_true)
  · have hmem : e ∈ ([48, 46, 53] : Bytes) := by rw [heq]; simp
    rcases he with rfl | rfl <;> exact absurd hmem (by decide)

/-- `0.5`. -/
theorem numerals_read_half : (Meant [48, 46, 53] (luaO_str2num parseHalf [48, 46, 53]) ↔ ¬Overflows [48, 46, 53]) ∧
    luaO_str2num parseHalf (floatFmt (fun _ => []) (fun _ => [48, 46, 53]) half) = some (.float half) := by
  have hround : Val.round (1 / 2) = .fin (1 / 2) := Val.round_of_representable (F64.representable_val val_half)
  have hparse : ParseAt parseHalf [48, 46, 53] := by
    have hone : ([48, 46, 53] : Bytes) = [] ++ [48, 46, 53] := rfl
    have hbody : Decimal [48, 46, 53] (digits 10 decDigit 0 ([48] ++ [53]) * 10 ^ (-1 : ℤ)) :=
      @decimal_of_point [48] [53] (by decide) (by simp [lisdigit]) (by simp [lisdigit])
    refine ⟨?_, fun _ _ _ => ⟨false, [], by simp [signs], _, _, hbody, hone⟩⟩
    intro neg sign hsign body v hv htext
    cases neg with
    | false =>
      rcases List.mem_cons.mp (show sign ∈ [[], [43]] from hsign) with rfl | hsign
      · obtain rfl : body = [48, 46, 53] := htext.symm
        refine ⟨half, rfl, by decide, ?_⟩
        rw [decimal_half hv, val_half]
        exact hround.symm
      · rw [List.mem_singleton.mp hsign] at htext
        cases htext
    | true =>
      rw [List.mem_singleton.mp (show sign ∈ [[45]] from hsign)] at htext
      cases htext
  have hdisplay : DisplayAt (fun _ => []) (fun _ => [48, 46, 53]) half := by
    refine ⟨fun z hz => ?_, fun q hq _ => ⟨[48], [53], by decide, by simp [lisdigit], by simp [lisdigit], by decide, ?_⟩⟩
    · have hval := Val.fin.inj (val_half.symm.trans hz)
      have : (1 : ℤ) = 2 * z := by
        have : (1 : ℚ) = 2 * z := by rw [← hval]; norm_num
        exact_mod_cast this
      omega
    · have hval : digits 10 decDigit 0 ([48] ++ [53]) = 5 := by decide
      have hneg : half.negative = false := by decide
      rw [hval, hneg, val_half, ← hround]
      congr 1
      norm_num [signedRat]
  have hfmt : floatFmt (fun _ => []) (fun _ => [48, 46, 53]) half = [48, 46, 53] := by
    have hfract : fractIsZero half = false := by
      rw [fractIsZero, val_half]
      norm_num
    rw [floatFmt, hfract]
    rfl
  exact ⟨(numerals_read parseHalf).1 [48, 46, 53] hparse,
    (numerals_read parseHalf).2.2 _ _ half (by decide) hdisplay (by rw [hfmt]; exact hparse)⟩

/-- `1e999` is a decimal numeral, and is not read. -/
theorem overflow_not_read :
    ¬Meant [49, 101, 57, 57, 57] (luaO_str2num (fun _ => some ⟨0x7FF0000000000000⟩) [49, 101, 57, 57, 57]) := by
  have hnone : luaO_str2num (fun _ => some ⟨0x7FF0000000000000⟩) [49, 101, 57, 57, 57] = none := by decide
  rw [hnone]
  rintro ⟨-, hno⟩
  have hbody : Decimal [49, 101, 57, 57, 57] (digits 10 decDigit 0 ([49] ++ []) * 10 ^ ((999 : ℤ) - 0)) := by
    refine ⟨[49], [], [49], [101, 57, 57, 57], 999, by simp [lisdigit], nofun, .inl ⟨rfl, rfl, by decide⟩, ?_, rfl, rfl⟩
    exact .inr ⟨101, .inl rfl, false, [], by simp [signs], [57, 57, 57], ⟨by decide, by simp [lisdigit]⟩, rfl, by decide⟩
  exact hno false _ _ hbody ⟨[], [], [], by simp [signs], nofun, nofun, rfl⟩

end Tsuki.Lex
