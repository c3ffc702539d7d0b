import Tsuki.F64
import Tsuki.Lex.ReadString

/-!
# Reading a number

`read_numeral` saves everything that looks like a number and leaves it to `luaO_str2num` to say what it is:
an integer if `l_str2int` takes it, else a float. `str::parse::<f64>` is a parameter.
-/

namespace Tsuki

namespace F64

/-- Neither infinite nor a NaN. -/
def isFinite (f : F64) : Bool := f.exponent ≠ 2047

/-- `-f`: the sign bit is flipped. -/
def neg (f : F64) : F64 := ⟨f.bits + 0x8000000000000000⟩

/-- `|f|`. -/
def abs (f : F64) : F64 := if f.negative then f.neg else f

theorem toNat_neg (f : F64) : f.neg.bits.toNat = (f.bits.toNat + 2 ^ 63) % 2 ^ 64 := by
  have htop : (0x8000000000000000 : UInt64).toNat = 2 ^ 63 := by decide
  rw [neg, UInt64.toNat_add, htop]

theorem neg_neg (f : F64) : f.neg.neg = f := by
  have hlt := f.bits.toNat_lt
  have h : f.neg.neg.bits.toNat = f.bits.toNat := by
    rw [toNat_neg, toNat_neg]
    omega
  obtain ⟨bits⟩ := f
  exact congrArg mk (UInt64.toNat_inj.mp h)

end F64

namespace Lex

inductive Number
  | int (i : Int64)
  | float (f : F64)
  deriving DecidableEq, Repr

def lislalpha (b : UInt8) : Bool :=
  (65 ≤ b.toNat && b.toNat ≤ 90) || b = 95 || (97 ≤ b.toNat && b.toNat ≤ 122)

/-- The digits of a hexadecimal numeral: the value wraps around. -/
def hexLoop : Nat → Bool → Bytes → Nat × Bool × Bytes
  | a, empty, [] => (a, empty, [])
  | a, empty, b :: s =>
    if lisxdigit b then hexLoop ((a * 16 + hexavalue b) % 2 ^ 64) false s else (a, empty, b :: s)

/-- The digits of a decimal numeral: no value where it does not fit an `i64`. -/
def decLoop (neg : Bool) : Nat → Bool → Bytes → Option (Nat × Bool × Bytes)
  | a, empty, [] => some (a, empty, [])
  | a, empty, b :: s =>
    if lisdigit b then
      let d := b.toNat - 48
      if a ≥ 0x7fffffffffffffff / 10 ∧
          (a > 0x7fffffffffffffff / 10 ∨ d > 0x7fffffffffffffff % 10 + neg.toNat) then none
      else decLoop neg (a * 10 + d) false s
    else some (a, empty, b :: s)

/-- The end of `l_str2int`: only white space may follow the digits. -/
def finishInt (neg : Bool) : Nat × Bool × Bytes → Option Int64
  | (a, empty, s) =>
    if empty then none
    else if s.dropWhile lisspace ≠ [] then none
    else some (Int64.ofNat (if neg then (2 ^ 64 - a) % 2 ^ 64 else a))

/-- `l_str2int`, its sign read. -/
def strDigits (neg : Bool) (s : Bytes) : Option Int64 :=
  match s with
  | 48 :: 120 :: s | 48 :: 88 :: s => finishInt neg (hexLoop 0 true s)
  | s => (decLoop neg 0 true s).bind (finishInt neg)

def lStr2int (s : Bytes) : Option Int64 :=
  match s.dropWhile lisspace with
  | 45 :: s => strDigits true s
  | 43 :: s => strDigits false s
  | s => strDigits false s

/-- `u8::is_ascii_whitespace`. -/
def isAsciiSpace (b : UInt8) : Bool := b = 9 || b = 10 || b = 12 || b = 13 || b = 32

def trimAscii (s : Bytes) : Bytes :=
  ((s.dropWhile isAsciiSpace).reverse.dropWhile isAsciiSpace).reverse

variable (parse : Bytes → Option F64)

def lStr2d (s : Bytes) : Option F64 :=
  if Utf8.valid (trimAscii s) then (parse (trimAscii s)).filter F64.isFinite else none

def luaO_str2num (s : Bytes) : Option Number :=
  match lStr2int s with
  | some i => some (.int i)
  | none =>
    match lStr2d parse s with
    | some n => some (.float n)
    | none => none

def checkNext2 (ls : LexState) (set : UInt8 × UInt8) : Except Stop (Bool × LexState) :=
  if ls.current fun b => b = set.1 || b = set.2 then do return (true, ← ls.saveNext) else .ok (false, ls)

/-- The loop of `read_numeral`. -/
def readNumeralLoop (expo : UInt8 × UInt8) : Nat → LexState → Except Stop LexState
  | 0, _ => .error .fuel
  | fuel + 1, ls => do
    let (e, ls) ← checkNext2 ls expo
    if e then
      let (_, ls) ← checkNext2 ls (45, 43)
      readNumeralLoop expo fuel ls
    else if ls.current fun b => lisxdigit b || b = 46 then
      readNumeralLoop expo fuel (← ls.saveNext)
    else return ls

/-- The test for `0x` in `read_numeral`: whether the first digit was a zero. -/
def checkHex (zero : Bool) (ls : LexState) : Except Stop (Bool × LexState) :=
  if zero then checkNext2 ls (120, 88) else .ok (false, ls)

/-- A letter right behind the number is part of it, so that the number is malformed. -/
def saveAlpha (ls : LexState) : Except Stop LexState :=
  if ls.current lislalpha then ls.saveNext else .ok ls

/-- The conversion at the end of `read_numeral`. -/
def endNumeral (ls : LexState) : Except Stop (Number × LexState) :=
  match luaO_str2num parse ((ls.save 0).buf.takeWhile (· ≠ 0)) with
  | some v => .ok (v, ls.save 0)
  | none => (ls.save 0).tokenError "malformed number"

def readNumeral (ls : LexState) : Except Stop (Number × LexState) := do
  let zero := ls.current (· = 48)
  let ls ← ls.saveNext
  let (hex, ls) ← checkHex zero ls
  let ls ← readNumeralLoop (if hex then (80, 112) else (69, 101)) (ls.src.length + 1) ls
  let ls ← saveAlpha ls
  endNumeral parse ls

/-! ## Numerals of digits and a point -/

/-- A byte of a plain numeral. -/
def Plain (b : UInt8) : Prop := lisdigit b = true ∨ b = 46

theorem Plain.toNat {b : UInt8} (h : Plain b) : 46 ≤ b.toNat ∧ b.toNat ≤ 57 := by
  rcases h with h | rfl
  · simp only [lisdigit, Bool.and_eq_true, decide_eq_true_eq] at h
    omega
  · decide

theorem decDigit_lt {b : UInt8} (hb : lisdigit b = true) : decDigit b < 10 := by
  simp only [lisdigit, Bool.and_eq_true, decide_eq_true_eq] at hb
  unfold decDigit
  omega

/-- Digits that fit are read to their end; the loop gives up on others. The slack for the minimum is one. -/
theorem decLoop_append (neg : Bool) {ds : Bytes} (hds : ∀ b ∈ ds, lisdigit b = true) {s : Bytes}
    (hs : ∀ b, s.head? = some b → lisdigit b = false) (a : Nat) (empty : Bool) (ha : a < 2 ^ 63 + neg.toNat) :
    decLoop neg a empty (ds ++ s) = if digits 10 decDigit a ds < 2 ^ 63 + neg.toNat
      then some (digits 10 decDigit a ds, empty && ds.isEmpty, s) else none := by
  have hneg : neg.toNat ≤ 1 := Bool.toNat_le neg
  induction ds generalizing a empty with
  | nil =>
    rw [if_pos (show digits 10 decDigit a [] < 2 ^ 63 + neg.toNat from ha)]
    cases s with
    | nil => simp [decLoop, digits]
    | cons b s => simp [decLoop, digits, hs b rfl]
  | cons d ds ih =>
    have hd := hds d List.mem_cons_self
    have hmono := le_digits (k := 10) (by decide) decDigit ds (10 * a + decDigit d)
    have hval : digits 10 decDigit a (d :: ds) = digits 10 decDigit (10 * a + decDigit d) ds := rfl
    have hdlt := decDigit_lt hd
    rw [List.cons_append, decLoop, if_pos hd, hval]
    change (if a ≥ 0x7fffffffffffffff / 10 ∧
      (a > 0x7fffffffffffffff / 10 ∨ decDigit d > 0x7fffffffffffffff % 10 + neg.toNat) then none
      else decLoop neg (a * 10 + decDigit d) false (ds ++ s)) = _
    split_ifs with hover hfit hfit
    · omega
    · rfl
    · rw [ih (fun b hb => hds b (List.mem_cons_of_mem _ hb)) _ _ (by omega), Nat.mul_comm a, if_pos hfit]
      simp
    · rw [ih (fun b hb => hds b (List.mem_cons_of_mem _ hb)) _ _ (by omega), Nat.mul_comm a, if_neg hfit]

theorem lisspace_of_digit {b : UInt8} (hb : lisdigit b = true) : lisspace b = false := by
  simp only [lisdigit, Bool.and_eq_true, decide_eq_true_eq] at hb
  simp only [lisspace, Bool.or_eq_false_iff, decide_eq_false_iff_not]
  refine ⟨⟨⟨⟨?_, ?_⟩, ?_⟩, ?_⟩, ?_⟩ <;> exact fun h => absurd hb (by rw [h]; decide)

/-- Behind a digit there is no mark of a hexadecimal numeral. -/
theorem strDigits_digits (neg : Bool) {ds : Bytes} (hne : ds ≠ []) (hds : ∀ b ∈ ds, lisdigit b = true) {s : Bytes}
    (hs : ∀ b, s.head? = some b → lisdigit b = false ∧ b ≠ 120 ∧ b ≠ 88) :
    strDigits neg (ds ++ s) = (decLoop neg 0 true (ds ++ s)).bind (finishInt neg) := by
  obtain ⟨d, ds, rfl⟩ := List.exists_cons_of_ne_nil hne
  have hsecond : ∀ b, (ds ++ s).head? = some b → b ≠ 120 ∧ b ≠ 88 := by
    intro b hb
    cases ds with
    | nil => exact (hs b hb).2
    | cons c ds =>
      have hc : c = b := Option.some.inj hb
      have hd := hds c (by simp)
      rw [hc] at hd
      exact ⟨fun h => absurd hd (by rw [h]; decide), fun h => absurd hd (by rw [h]; decide)⟩
  unfold strDigits
  split
  · rename_i heq
    exact absurd rfl (hsecond 120 (congrArg List.head? (List.cons.inj heq).2)).1
  · rename_i heq
    exact absurd rfl (hsecond 88 (congrArg List.head? (List.cons.inj heq).2)).2
  · rfl

/-- `l_str2int` of digits with no letter `x` behind them: a number that does not fit is no integer. -/
theorem lStr2int_digits {ds : Bytes} (hne : ds ≠ []) (hds : ∀ b ∈ ds, lisdigit b = true) {s : Bytes}
    (hs : ∀ b, s.head? = some b → lisdigit b = false ∧ b ≠ 120 ∧ b ≠ 88) :
    lStr2int (ds ++ s) = if digits 10 decDigit 0 ds < 2 ^ 63
      then finishInt false (digits 10 decDigit 0 ds, false, s) else none := by
  have hloop := decLoop_append false hds (fun b hb => (hs b hb).1) 0 true (by decide)
  have hmark := strDigits_digits false hne hds hs
  obtain ⟨d, ds, rfl⟩ := List.exists_cons_of_ne_nil hne
  have hd := hds d List.mem_cons_self
  have hspace : (d :: ds ++ s).dropWhile lisspace = d :: ds ++ s := by
    rw [List.cons_append, List.dropWhile_cons_of_neg (by rw [lisspace_of_digit hd]; exact Bool.false_ne_true)]
  unfold lStr2int
  rw [hspace]
  split
  · rename_i heq
    rw [(List.cons.inj heq).1] at hd
    cases hd
  · rename_i heq
    rw [(List.cons.inj heq).1] at hd
    cases hd
  · rw [hmark, hloop, Bool.toNat_false, Nat.add_zero]
    split_ifs <;> rfl

end Lex

end Tsuki
