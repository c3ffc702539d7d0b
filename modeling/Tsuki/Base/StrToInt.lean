import Mathlib.Data.Nat.Digits.Lemmas
import Tsuki.Lex.NumeralForm

/-!
# `tonumber` with a base

`b_str2int` reads a number in any base up to 36: white space, a sign, digits, white space. Its loop accumulates in a
`u64` that wraps around. The words that it accepts are described by their parts (`bStr2int_eq_some`), each part by
what its loop leaves of the text; the digits are then the sum of their places modulo `2 ^ 64`, and the numeral that
`writeInt` writes is one whose parts are known.
-/

namespace Tsuki.Base

open Tsuki.Lex (lisdigit lisspace digits decDigit signs signed Framed Digits framed_iff)

/-- The closure `is_space` of `b_str2int`. -/
def isSpace (b : UInt8) : Bool := b = 32 || b = 12 || b = 10 || b = 13 || b = 9 || b = 11

def isAsciiAlphanumeric (b : UInt8) : Bool :=
  lisdigit b || (65 ≤ b.toNat && b.toNat ≤ 90) || (97 ≤ b.toNat && b.toNat ≤ 122)

def toAsciiUppercase (b : UInt8) : UInt8 := if 97 ≤ b.toNat && b.toNat ≤ 122 then b - 32 else b

/-- `digit` in the loop of `b_str2int`. -/
def digit (b : UInt8) : UInt8 := if lisdigit b then b - 48 else toAsciiUppercase b - 65 + 10

/-- The initial spaces. -/
def skipSpaces : Bytes → Option (UInt8 × Bytes)
  | [] => none
  | b :: s => if isSpace b then skipSpaces s else some (b, s)

/-- The next byte, behind a sign. -/
def afterSign (neg : Bool) : Bytes → Option (Bool × UInt8 × Bytes)
  | [] => none
  | b :: s => some (neg, b, s)

/-- The sign. -/
def readSign (b : UInt8) (s : Bytes) : Option (Bool × UInt8 × Bytes) :=
  if b = 45 then afterSign true s else if b = 43 then afterSign false s else some (false, b, s)

/-- The spaces behind the digits: whether nothing follows them. -/
def onlySpaces (b : UInt8) : Bytes → Bool
  | [] => isSpace b
  | c :: s => isSpace b && onlySpaces c s

/-- The loop of `b_str2int`. -/
def digitLoop (base : UInt8) (n : UInt64) (b : UInt8) : Bytes → Option UInt64
  | [] => if digit b ≥ base then none else some (n * base.toUInt64 + (digit b).toUInt64)
  | c :: s =>
    if digit b ≥ base then none
    else if isAsciiAlphanumeric c then digitLoop base (n * base.toUInt64 + (digit b).toUInt64) c s
    else if onlySpaces c s then some (n * base.toUInt64 + (digit b).toUInt64)
    else none

def bStr2int (s : Bytes) (base : UInt8) : Option Int64 := do
  let (b, s) ← skipSpaces s
  let (neg, b, s) ← readSign b s
  if !isAsciiAlphanumeric b then none
  else
    let n ← digitLoop base 0 b s
    return (if neg then 0 - n else n).toInt64

/-! ## Positional notation -/

/-- What a digit or a letter, in either case, stands for; 36 for other bytes. -/
def digitValue (b : UInt8) : Nat :=
  if 48 ≤ b.toNat ∧ b.toNat ≤ 57 then b.toNat - 48
  else if 65 ≤ b.toNat ∧ b.toNat ≤ 90 then b.toNat - 55
  else if 97 ≤ b.toNat ∧ b.toNat ≤ 122 then b.toNat - 87
  else 36

/-- A digit of the base. -/
def isDigit (base : Nat) (b : UInt8) : Bool := digitValue b < base

/-- The value of digits, the most significant one first. -/
def positional (base : Nat) (ds : Bytes) : Nat := Nat.ofDigits base (ds.map digitValue).reverse

/-- The digit or letter for a value. -/
def digitByte (upper : Bool) (d : Nat) : UInt8 := .ofNat (if d < 10 then 48 + d else if upper then 55 + d else 87 + d)

/-- A number written in the base, with letters in either case. -/
def writeNat (base : Nat) (upper : Bool) (n : Nat) : Bytes :=
  if n = 0 then [48] else ((Nat.digits base n).map (digitByte upper)).reverse

/-- An integer written in the base. -/
def writeInt (base : Nat) (upper : Bool) (i : Int64) : Bytes :=
  if i.toInt < 0 then 45 :: writeNat base upper i.toInt.natAbs else writeNat base upper i.toInt.natAbs

/-! ## The parts of `b_str2int` -/

theorem isAsciiAlphanumeric_iff {b : UInt8} : isAsciiAlphanumeric b = true ↔ digitValue b < 36 := by
  simp only [isAsciiAlphanumeric, lisdigit, Bool.or_eq_true, Bool.and_eq_true, decide_eq_true_eq, digitValue]
  split_ifs <;> omega

theorem toNat_digit {b : UInt8} (hb : isAsciiAlphanumeric b = true) : (digit b).toNat = digitValue b := by
  have h32 : (32 : UInt8).toNat = 32 := rfl
  simp only [isAsciiAlphanumeric, lisdigit, Bool.or_eq_true, Bool.and_eq_true, decide_eq_true_eq] at hb
  simp only [digit, lisdigit, toAsciiUppercase, digitValue, Bool.and_eq_true, decide_eq_true_eq]
  split_ifs <;> simp [UInt8.toNat_sub, UInt8.toNat_add] <;> omega

theorem isSpace_iff {b : UInt8} : isSpace b = true ↔ (9 ≤ b.toNat ∧ b.toNat ≤ 13) ∨ b.toNat = 32 := by
  simp only [isSpace, Bool.or_eq_true, decide_eq_true_eq, ← UInt8.toNat_inj]
  simp
  omega

theorem digitValue_of_isSpace {b : UInt8} (hb : isSpace b = true) : digitValue b = 36 := by
  rw [isSpace_iff] at hb
  unfold digitValue
  split_ifs <;> omega

theorem skipSpaces_eq (s : Bytes) : skipSpaces s = match s.dropWhile isSpace with
    | [] => none
    | b :: s => some (b, s) := by
  induction s with
  | nil => rfl
  | cons b s ih =>
    rw [skipSpaces, List.dropWhile_cons]
    split_ifs
    · exact ih
    · rfl

theorem onlySpaces_iff {b : UInt8} {s : Bytes} : onlySpaces b s = true ↔ ∀ c ∈ b :: s, isSpace c = true := by
  induction s generalizing b with
  | nil => simp [onlySpaces]
  | cons c s ih => rw [onlySpaces, Bool.and_eq_true, ih, List.forall_mem_cons (a := b)]

theorem push_digit {base b : UInt8} (hb : isAsciiAlphanumeric b = true) {n : UInt64} {r : Nat}
    (hn : n = .ofNat r) : n * base.toUInt64 + (digit b).toUInt64 = .ofNat (base.toNat * r + digitValue b) := by
  have htoNat (c : UInt8) : c.toUInt64 = .ofNat c.toNat := by
    rw [← UInt64.toNat_inj, UInt8.toNat_toUInt64, UInt64.toNat_ofNat', Nat.mod_eq_of_lt]
    exact c.toNat_lt.trans (by decide)
  rw [hn, htoNat, htoNat, toNat_digit hb, ← UInt64.ofNat_mul, ← UInt64.ofNat_add, Nat.mul_comm]

theorem isDigit_iff {base b : UInt8} (hb : isAsciiAlphanumeric b = true) :
    isDigit base.toNat b = true ↔ ¬digit b ≥ base := by
  rw [isDigit, decide_eq_true_eq, ← toNat_digit hb, ge_iff_le, UInt8.not_le, UInt8.lt_iff_toNat_lt]

theorem isAsciiAlphanumeric_of_isDigit {base : Nat} (hbase : base ≤ 36) {b : UInt8} (hb : isDigit base b = true) :
    isAsciiAlphanumeric b = true := by
  rw [isDigit, decide_eq_true_eq] at hb
  exact isAsciiAlphanumeric_iff.mpr (by omega)

theorem not_isAsciiAlphanumeric_of_isSpace {b : UInt8} (hb : isSpace b = true) :
    ¬isAsciiAlphanumeric b = true := by
  rw [isAsciiAlphanumeric_iff, digitValue_of_isSpace hb]
  exact Nat.lt_irrefl 36

theorem Digits.cons_inv {p : UInt8 → Bool} {ds s after : Bytes} {b : UInt8} (h : Digits p ds)
    (heq : b :: s = ds ++ after) :
    ∃ es, ds = b :: es ∧ p b = true ∧ (∀ e ∈ es, p e = true) ∧ s = es ++ after := by
  obtain ⟨d, es, rfl⟩ := List.exists_cons_of_ne_nil h.1
  obtain ⟨rfl, htail⟩ := List.cons.inj heq
  exact ⟨es, rfl, h.2 b List.mem_cons_self, fun e he => h.2 e (List.mem_cons_of_mem _ he), htail⟩

theorem Digits.single {p : UInt8 → Bool} {b : UInt8} (h : p b = true) : Digits p [b] :=
  ⟨List.cons_ne_nil _ _, fun _ hd => List.mem_singleton.mp hd ▸ h⟩

/-- The loop ends with the digits, if only spaces follow. -/
theorem digitLoop_eq_some {base b : UInt8} (hbase : base.toNat ≤ 36) (hb : isAsciiAlphanumeric b = true)
    {s : Bytes} {n m : UInt64} {r : Nat} (hn : n = .ofNat r) : digitLoop base n b s = some m ↔
      ∃ ds after, Digits (isDigit base.toNat) ds ∧ (∀ c ∈ after, isSpace c = true) ∧ b :: s = ds ++ after ∧
        m = .ofNat (digits base.toNat digitValue r ds) := by
  induction s generalizing b n r with
  | nil =>
    rw [digitLoop, push_digit hb hn]
    split_ifs with hge
    · refine ⟨nofun, ?_⟩
      rintro ⟨ds, after, hds, -, heq, -⟩
      obtain ⟨es, rfl, hd, -, -⟩ := Digits.cons_inv hds heq
      exact absurd hge ((isDigit_iff hb).mp hd)
    · rw [Option.some.injEq]
      constructor
      · rintro rfl
        exact ⟨[b], [], Digits.single ((isDigit_iff hb).mpr hge), nofun, rfl, rfl⟩
      · rintro ⟨ds, after, hds, -, heq, rfl⟩
        obtain ⟨es, rfl, -, -, htail⟩ := Digits.cons_inv hds heq
        obtain ⟨rfl, rfl⟩ := List.append_eq_nil_iff.mp htail.symm
        rfl
  | cons c s ih =>
    rw [digitLoop, push_digit hb hn]
    split_ifs with hge hc hspace
    · refine ⟨nofun, ?_⟩
      rintro ⟨ds, after, hds, -, heq, -⟩
      obtain ⟨es, rfl, hd, -, -⟩ := Digits.cons_inv hds heq
      exact absurd hge ((isDigit_iff hb).mp hd)
    · have hrest := ih (r := base.toNat * r + digitValue b) hc rfl
      refine hrest.trans ⟨?_, ?_⟩
      · rintro ⟨ds, after, hds, hafter, heq, rfl⟩
        refine ⟨b :: ds, after, ⟨List.cons_ne_nil _ _, ?_⟩, hafter, by rw [heq]; rfl, rfl⟩
        exact List.forall_mem_cons.mpr ⟨(isDigit_iff hb).mpr hge, hds.2⟩
      · rintro ⟨ds, after, hds, hafter, heq, rfl⟩
        obtain ⟨es, rfl, -, hes, htail⟩ := Digits.cons_inv hds heq
        refine ⟨es, after, ⟨?_, hes⟩, hafter, htail, rfl⟩
        rintro rfl
        have hspace : isSpace c = true := hafter c ((show c :: s = after from htail) ▸ List.mem_cons_self)
        exact not_isAsciiAlphanumeric_of_isSpace hspace hc
    · rw [onlySpaces_iff] at hspace
      rw [Option.some.injEq]
      constructor
      · rintro rfl
        exact ⟨[b], c :: s, Digits.single ((isDigit_iff hb).mpr hge), hspace, rfl, rfl⟩
      · rintro ⟨ds, after, hds, -, heq, rfl⟩
        obtain ⟨es, rfl, -, hes, htail⟩ := Digits.cons_inv hds heq
        cases es with
        | nil => rfl
        | cons e es =>
          have he := hes e List.mem_cons_self
          rw [← (List.cons.inj htail).1] at he
          exact absurd (isAsciiAlphanumeric_of_isDigit hbase he) hc
    · refine ⟨nofun, ?_⟩
      rintro ⟨ds, after, hds, hafter, heq, -⟩
      obtain ⟨es, rfl, -, hes, htail⟩ := Digits.cons_inv hds heq
      cases es with
      | nil =>
        rw [onlySpaces_iff, show c :: s = after from htail] at hspace
        exact absurd hafter hspace
      | cons e es =>
        have he := hes e List.mem_cons_self
        rw [← (List.cons.inj htail).1] at he
        exact absurd (isAsciiAlphanumeric_of_isDigit hbase he) hc

theorem readSign_eq_some {b c : UInt8} {s t : Bytes} {neg : Bool} (hc : isAsciiAlphanumeric c = true) :
    readSign b s = some (neg, c, t) ↔ ∃ sign ∈ signs neg, b :: s = sign ++ c :: t := by
  have hplus : c ≠ 43 := fun h => by rw [h] at hc; cases hc
  have hminus : c ≠ 45 := fun h => by rw [h] at hc; cases hc
  unfold readSign
  split_ifs with h45 h43
  · subst h45
    cases s <;> cases neg <;> simp [afterSign, signs, hminus.symm]
  · subst h43
    cases s <;> cases neg <;> simp [afterSign, signs, hplus.symm]
  · cases neg <;> simp [signs, h45, h43]

theorem digits_eq_positional (base : Nat) (ds : Bytes) : digits base digitValue 0 ds = positional base ds := by
  rw [positional, Nat.ofDigits_eq_foldr, List.foldr_reverse, digits, List.foldl_map]
  simp only [Nat.cast_id, Nat.add_comm]

theorem toInt64_signed (neg : Bool) (n : Nat) :
    (if neg then 0 - UInt64.ofNat n else UInt64.ofNat n).toInt64 = Int64.ofInt (signed neg n) := by
  cases neg with
  | false => rfl
  | true =>
    rw [if_pos rfl, UInt64.zero_sub, signed, if_pos rfl, Int64.ofInt_neg]
    rfl

/-- `b_str2int` reads the sign and the digits behind the spaces. -/
theorem bStr2int_eq_some {base : UInt8} (hbase : base.toNat ≤ 36) {s : Bytes} {v : Int64} :
    bStr2int s base = some v ↔ ∃ neg ds, Digits (isDigit base.toNat) ds ∧ Framed isSpace neg ds s ∧
      v = Int64.ofInt (signed neg (positional base.toNat ds)) := by
  have hspace {d : UInt8} (hd : isDigit base.toNat d = true) : isSpace d = false :=
    Bool.eq_false_iff.mpr fun h =>
      not_isAsciiAlphanumeric_of_isSpace h (isAsciiAlphanumeric_of_isDigit hbase hd)
  constructor
  · intro h
    rw [bStr2int, skipSpaces_eq] at h
    rcases hrest : s.dropWhile isSpace with _ | ⟨b, t⟩
    · rw [hrest] at h
      cases h
    rw [hrest] at h
    obtain ⟨⟨neg, c, u⟩, hsign, h⟩ := Option.bind_eq_some_iff.mp (show (readSign b t).bind _ = some v from h)
    replace h : (if (!isAsciiAlphanumeric c) = true then none
      else (digitLoop base 0 c u).bind fun n => some (if neg then 0 - n else n).toInt64) = some v := h
    rcases hc : isAsciiAlphanumeric c with _ | _
    · rw [hc] at h
      cases h
    rw [hc, Bool.not_true, if_neg Bool.false_ne_true] at h
    obtain ⟨n, hloop, hv⟩ := Option.bind_eq_some_iff.mp h
    obtain ⟨sign, hmem, hb⟩ := (readSign_eq_some hc).mp hsign
    obtain ⟨ds, after, hds, hafter, hu, rfl⟩ := (digitLoop_eq_some hbase hc (r := 0) rfl).mp hloop
    obtain ⟨es, rfl, hd, -, -⟩ := Digits.cons_inv hds hu
    refine ⟨neg, _, hds, (framed_iff rfl rfl (hspace hd) neg es s).mpr ⟨after, sign, hmem, hafter, ?_⟩, ?_⟩
    · rw [hrest, hb, hu]
    · rw [← digits_eq_positional, ← toInt64_signed]
      exact (Option.some.inj hv).symm
  · rintro ⟨neg, ds, hds, hframed, rfl⟩
    obtain ⟨d, es, rfl⟩ := List.exists_cons_of_ne_nil hds.1
    have hd := hds.2 d List.mem_cons_self
    have hc := isAsciiAlphanumeric_of_isDigit hbase hd
    obtain ⟨after, sign, hmem, hafter, hrest⟩ := (framed_iff rfl rfl (hspace hd) neg es s).mp hframed
    obtain ⟨b, t, hb⟩ : ∃ b t, s.dropWhile isSpace = b :: t := by
      rw [hrest]
      exact List.exists_cons_of_ne_nil (by simp)
    have hsign := (readSign_eq_some hc).mpr ⟨sign, hmem, hb.symm.trans hrest⟩
    have hloop : digitLoop base 0 d (es ++ after) = _ :=
      (digitLoop_eq_some hbase hc (r := 0) rfl).mpr ⟨d :: es, after, hds, hafter, rfl, rfl⟩
    rw [bStr2int, skipSpaces_eq, hb]
    change (readSign b t).bind _ = _
    rw [hsign, Option.bind_some]
    change (if (!isAsciiAlphanumeric d) = true then none
      else (digitLoop base 0 d (es ++ after)).bind fun n => some (if neg then 0 - n else n).toInt64) = _
    rw [hc, Bool.not_true, if_neg Bool.false_ne_true, hloop, Option.bind_some, digits_eq_positional,
      toInt64_signed]

/-! ## Writing and reading back -/

theorem digitValue_digitByte (upper : Bool) {d : Nat} (hd : d < 36) : digitValue (digitByte upper d) = d := by
  have htoNat : (digitByte upper d).toNat = if d < 10 then 48 + d else if upper then 55 + d else 87 + d := by
    rw [digitByte, UInt8.toNat_ofNat', Nat.mod_eq_of_lt]
    split_ifs <;> omega
  rw [digitValue, htoNat]
  split_ifs <;> omega

theorem writeNat_spec {base : Nat} (hlow : 2 ≤ base) (hhigh : base ≤ 36) (upper : Bool) (n : Nat) :
    Digits (isDigit base) (writeNat base upper n) ∧ positional base (writeNat base upper n) = n := by
  unfold writeNat
  split_ifs with h
  · refine ⟨Digits.single ?_, h.symm⟩
    simpa [isDigit, digitValue] using by omega
  · have hlt {d : Nat} (hd : d ∈ Nat.digits base n) : d < base := Nat.digits_lt_base hlow hd
    refine ⟨⟨?_, ?_⟩, ?_⟩
    · rw [ne_eq, List.reverse_eq_nil_iff, List.map_eq_nil_iff, Nat.digits_eq_nil_iff_eq_zero]
      exact h
    · intro b hb
      obtain ⟨d, hd, rfl⟩ := List.mem_map.mp (List.mem_reverse.mp hb)
      rw [isDigit, digitValue_digitByte upper ((hlt hd).trans_le hhigh)]
      exact decide_eq_true (hlt hd)
    · have hmap : ((Nat.digits base n).map (digitByte upper)).map digitValue = Nat.digits base n := by
        rw [List.map_map]
        refine (List.map_congr_left fun d hd => ?_).trans (List.map_id _)
        exact digitValue_digitByte upper ((hlt hd).trans_le hhigh)
      rw [positional, List.map_reverse, List.reverse_reverse, hmap, Nat.ofDigits_digits]

theorem bStr2int_writeInt {base : UInt8} (hlow : 2 ≤ base.toNat) (hhigh : base.toNat ≤ 36) (upper : Bool)
    (i : Int64) : bStr2int (writeInt base.toNat upper i) base = some i := by
  obtain ⟨hds, hvalue⟩ := writeNat_spec hlow hhigh upper i.toInt.natAbs
  refine (bStr2int_eq_some hhigh).mpr ⟨decide (i.toInt < 0), writeNat base.toNat upper i.toInt.natAbs, hds, ?_, ?_⟩
  · refine ⟨[], [], if i.toInt < 0 then [45] else [], ?_, nofun, nofun, ?_⟩
    · split_ifs <;> simp [signs, *]
    · rw [List.append_nil, writeInt]
      split_ifs <;> rfl
  · rw [hvalue, signed]
    conv_lhs => rw [← Int64.ofInt_toInt i]
    congr 1
    split_ifs with h <;> simp only [decide_eq_true_eq] at h <;> omega

/-- The text begins, behind white space and a sign, with the mark of a hexadecimal numeral. -/
def HexMarked (s : Bytes) : Prop :=
  ∃ neg, ∃ sign ∈ signs neg, ∃ x, (x = 120 ∨ x = 88) ∧ ∃ t, s.dropWhile lisspace = sign ++ 48 :: x :: t

theorem isSpace_of_lisspace {b : UInt8} (h : lisspace b = true) : isSpace b = true := by
  simp only [lisspace, Bool.or_eq_true, decide_eq_true_eq] at h
  rcases h with (((rfl | rfl) | rfl) | rfl) | rfl <;> decide

theorem isDigit_of_lisdigit {b : UInt8} (h : lisdigit b = true) :
    isDigit 10 b = true ∧ digitValue b = decDigit b := by
  simp only [lisdigit, Bool.and_eq_true, decide_eq_true_eq] at h
  have hvalue : digitValue b = b.toNat - 48 := if_pos h
  exact ⟨decide_eq_true (by omega), hvalue⟩

theorem digits_congr (base : Nat) {value value' : UInt8 → Nat} {ds : Bytes} (h : ∀ d ∈ ds, value d = value' d)
    (r : Nat) : digits base value r ds = digits base value' r ds := by
  induction ds generalizing r with
  | nil => rfl
  | cons d ds ih =>
    change digits base value (base * r + value d) ds = digits base value' (base * r + value' d) ds
    rw [h d List.mem_cons_self]
    exact ih (fun e he => h e (List.mem_cons_of_mem _ he)) _

/-- On decimal integers base 10 agrees with `l_str2int`. -/
theorem bStr2int_decimal {s : Bytes} (hs : ¬HexMarked s) {i : Int64} (h : Lex.lStr2int s = some i) :
    bStr2int s 10 = some i := by
  rcases Lex.lStr2int_eq_some.mp h with ⟨neg, ds, hds, hframed, -, rfl⟩ | ⟨neg, hs', body, ⟨x, hx, -, rfl⟩, hframed, -⟩
  · refine (bStr2int_eq_some (show (10 : UInt8).toNat ≤ 36 by decide)).mpr ⟨neg, ds, ⟨hds.1, ?_⟩, ?_, ?_⟩
    · exact fun d hd => (isDigit_of_lisdigit (hds.2 d hd)).1
    · obtain ⟨before, after, sign, hsign, hbefore, hafter, heq⟩ := hframed
      exact ⟨before, after, sign, hsign, fun b hb => isSpace_of_lisspace (hbefore b hb),
        fun b hb => isSpace_of_lisspace (hafter b hb), heq⟩
    · rw [← digits_eq_positional]
      exact congrArg (fun n => Int64.ofInt (signed neg n))
        (digits_congr 10 (fun d hd => (isDigit_of_lisdigit (hds.2 d hd)).2.symm) 0)
  · obtain ⟨after, sign, hsign, -, heq⟩ := (framed_iff rfl rfl rfl neg _ s).mp hframed
    exact absurd ⟨neg, sign, hsign, x, hx, hs' ++ after, heq⟩ hs

/-- `b_str2int` inverts positional notation in every base that `tonumber` lets through. -/
theorem tonumber_base_inverts (base : UInt8) (hlow : 2 ≤ base.toNat) (hhigh : base.toNat ≤ 36) :
    (∀ s v, bStr2int s base = some v ↔ ∃ neg ds, Digits (isDigit base.toNat) ds ∧ Framed isSpace neg ds s ∧
      v = Int64.ofInt (signed neg (positional base.toNat ds))) ∧
    (∀ upper i, bStr2int (writeInt base.toNat upper i) base = some i) ∧
    ∀ (parse : Bytes → Option F64) (s : Bytes) (i : Int64), base = 10 → ¬HexMarked s →
      Lex.luaO_str2num parse s = some (.int i) → bStr2int s base = some i := by
  refine ⟨fun s v => bStr2int_eq_some hhigh, bStr2int_writeInt hlow hhigh, ?_⟩
  rintro parse s i rfl hs h
  apply bStr2int_decimal hs
  unfold Lex.luaO_str2num at h
  cases hint : Lex.lStr2int s with
  | some j =>
    rw [hint] at h
    cases h
    rfl
  | none =>
    rw [hint] at h
    cases hfloat : Lex.lStr2d parse s <;> rw [hfloat] at h <;> cases h

/-- The minimum in base 36, written in capital letters. -/
theorem tonumber_base_inverts_min :
    bStr2int [45, 49, 89, 50, 80, 48, 73, 74, 51, 50, 69, 56, 69, 56] 36 = some Int64.minValue := by
  have hwrite : writeInt 36 true Int64.minValue = [45, 49, 89, 50, 80, 48, 73, 74, 51, 50, 69, 56, 69, 56] := by
    decide
  rw [← hwrite]
  exact (tonumber_base_inverts 36 (by decide) (by decide)).2.1 true Int64.minValue

end Tsuki.Base
