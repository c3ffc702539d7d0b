import Tsuki.Base.StrToInt
import Tsuki.F64.Value
import Tsuki.Lib.Utf8
import Tsuki.Str.Quote

/-!
# `string.format`

A conversion is scanned character by character: flags, a width and a precision of two digits at most, and the
specifier. `len` counts the characters, and is used as the number of bytes of the conversion for an error message.
The text of a float and of a pointer is left to parameters.
-/

namespace Tsuki.Format

open Tsuki.Str (Value decimal formatQ)

/-- `enum Sign`. -/
inductive Sign
  | negative | spaceIfPositive | always
  deriving DecidableEq, Repr

/-- The flags of a conversion. -/
structure Flags where
  left : Bool
  sign : Sign
  alt : Bool
  lz : Bool
  deriving DecidableEq, Repr

/-- A scanned conversion; `len` is the counter. -/
structure Spec extends Flags where
  width : Option Nat
  precision : Option Nat
  ch : Char
  len : Nat
  deriving DecidableEq, Repr

/-! ## The scanner -/

/-- The error for a conversion that the format ends in; `start` is what follows the percent sign. -/
def incomplete (start : List Char) : Fault := .msg ("invalid conversion '%" ++ String.ofList start ++ "' to 'format'")

/-- The scanner: the current character, how many were read, and the rest. -/
structure Cursor where
  ch : Char
  len : Nat
  rest : List Char

/-- `iter.next()` in a conversion. -/
def Cursor.next (start : List Char) (c : Cursor) : Rust Cursor :=
  match c.rest with
  | [] => .error (incomplete start)
  | ch :: rest => .ok ⟨ch, c.len + 1, rest⟩

/-- What a flag does; none for a character that is no flag. -/
def Flags.set (f : Flags) (ch : Char) : Option Flags :=
  match ch with
  | '-' => some { f with left := true }
  | '+' => some { f with sign := .always }
  | ' ' => some { f with sign := if f.sign = .negative then .spaceIfPositive else f.sign }
  | '#' => some { f with alt := true }
  | '0' => some { f with lz := true }
  | _ => none

/-- The loop over the flags. -/
def scanFlags (start : List Char) (f : Flags) (ch : Char) (len : Nat) : List Char → Rust (Flags × Cursor)
  | [] =>
    match f.set ch with
    | none => .ok (f, ⟨ch, len, []⟩)
    | some _ => .error (incomplete start)
  | c :: rest =>
    match f.set ch with
    | none => .ok (f, ⟨ch, len, c :: rest⟩)
    | some f => scanFlags start f c (len + 1) rest

/-- A result of `u8` arithmetic. -/
def u8 (n : Nat) : Rust Nat := if n < 256 then .ok n else .error .panic

/-- `(ch as u8) - b'0'`. -/
def digitOf (ch : Char) : Nat := ch.toNat - 48

/-- The second digit of a number, if there is one. -/
def scanDigit (start : List Char) (v : Nat) (c : Cursor) : Rust (Nat × Cursor) :=
  if c.ch.isDigit then do
    let v ← u8 (v * 10)
    let v ← u8 (v + digitOf c.ch)
    return (v, ← c.next start)
  else .ok (v, c)

/-- The width. Its first digit is no zero, which is a flag. -/
def scanWidth (start : List Char) (c : Cursor) : Rust (Option Nat × Cursor) :=
  if c.ch.isDigit then do
    let v := digitOf c.ch
    let c ← c.next start
    let (v, c) ← scanDigit start v c
    return (some (← Rust.nonZero v), c)
  else .ok (none, c)

/-- The precision. -/
def scanPrecision (start : List Char) (c : Cursor) : Rust (Option Nat × Cursor) :=
  if c.ch = '.' then do
    let c ← c.next start
    if c.ch.isDigit then do
      let p := digitOf c.ch
      let c ← c.next start
      let (p, c) ← scanDigit start p c
      return (some p, c)
    else return (some 0, c)
  else .ok (none, c)

/-- No flag. -/
def Flags.new : Flags := ⟨false, .negative, false, false⟩

/-- A conversion whose first character was read. -/
def scanSpec (start : List Char) (ch : Char) (rest : List Char) : Rust (Spec × List Char) := do
  let (f, c) ← scanFlags start .new ch 1 rest
  let (width, c) ← scanWidth start c
  let (precision, c) ← scanPrecision start c
  return (⟨f, width, precision, c.ch, c.len⟩, c.rest)

/-- What stands behind a percent sign: another one, or a conversion. -/
def scan : List Char → Rust (Option Spec × List Char)
  | [] => .error (.msg "invalid conversion '%' to 'format'")
  | '%' :: rest => .ok (none, rest)
  | ch :: rest => (scanSpec (ch :: rest) ch rest).map fun p => (some p.1, p.2)

/-! ## The conversions -/

/-- What `%q` finds: a string or a number, nil or a boolean, or something else. -/
inductive Literal
  | value (v : Value)
  | display
  | none

/-- What the conversions ask of an argument; an error is a text. `asPtr` is the text of a pointer that is not null. -/
structure Arg where
  toInt : Except String Int64
  toFloat : Except String F64
  display : Except String Bytes
  asPtr : Option Bytes
  literal : Literal

/-- The texts of a float: `{:+0w$.p$}` with or without the plus, and `{}`. -/
structure FloatFmt where
  fixed (plus : Bool) (width precision : Nat) (f : F64) : Bytes
  display (f : F64) : Bytes

/-- The error of an argument. -/
def liftArg {α : Type} (n : Nat) : Except String α → Rust α
  | .ok a => .ok a
  | .error e => .error (.arg n e)

/-- `{:01$}` of digits. -/
def padZero (w : Nat) (ds : Bytes) : Bytes := List.replicate (w - ds.length) 48 ++ ds

/-- `{:01$}` and, with `plus`, `{:+01$}` of an `i64`: the sign counts. -/
def padSigned (plus : Bool) (w : Nat) (n : Int64) : Bytes :=
  if n < 0 then 45 :: padZero (w - 1) (decimal n.toInt.natAbs)
  else if plus then 43 :: padZero (w - 1) (decimal n.toInt.natAbs)
  else padZero w (decimal n.toInt.natAbs)

/-- `{:o}`, `{:x}` and `{:X}`. -/
def radix (k : Nat) (upper : Bool) (n : UInt64) : Bytes := Base.writeNat k upper n.toNat

/-- The width for zeros. -/
def Spec.zeroWidth (s : Spec) : Nat := if s.left ∨ s.width.getD 0 = 0 ∨ ¬s.lz then 0 else s.width.getD 0

/-- The `'d'` and `'i'` branch. -/
def convertSigned (s : Spec) (n : Int64) : Bytes :=
  match s.precision with
  | some p =>
    if p = 0 ∧ n = 0 then []
    else match s.sign with
      | .always => (if n ≥ 0 then 43 else 45) :: padZero p (decimal n.toInt.natAbs)
      | .spaceIfPositive => (if n ≥ 0 then 32 else 45) :: padZero p (decimal n.toInt.natAbs)
      | .negative => (if n < 0 then [45] else []) ++ padZero p (decimal n.toInt.natAbs)
  | none =>
    match s.sign with
    | .always => padSigned true s.zeroWidth n
    | .spaceIfPositive => if n ≥ 0 then 32 :: padSigned false s.zeroWidth n else padSigned false s.zeroWidth n
    | .negative => padSigned false s.zeroWidth n

/-- The digits of the branches of unsigned numbers. -/
def convertDigits (s : Spec) (n : UInt64) (ds : Bytes) : Bytes :=
  match s.precision with
  | some p => if p = 0 ∧ n = 0 then [] else padZero p ds
  | none => padZero s.zeroWidth ds

/-- The `'u'` branch. -/
def convertUnsigned (s : Spec) (n : UInt64) : Bytes := convertDigits s n (decimal n.toNat)

/-- The `'o'` branch: `buf[0]` is looked at if the alternate form is asked for. -/
def convertOctal (s : Spec) (n : UInt64) : Rust Bytes :=
  let buf := if s.precision = some 0 ∧ n = 0 ∧ s.alt then [48] else convertDigits s n (radix 8 false n)
  if s.alt then do
    let b ← idx buf 0
    if b ≠ 48 then return 48 :: buf else return buf
  else .ok buf

/-- The `'x'` and `'X'` branches. -/
def convertHex (upper : Bool) (s : Spec) (n : UInt64) : Bytes :=
  (if n ≠ 0 ∧ s.alt then [48, if upper then 88 else 120] else []) ++ convertDigits s n (radix 16 upper n)

/-- The `'f'` branch. -/
def convertFloat (ff : FloatFmt) (s : Spec) (f : F64) : Bytes :=
  match s.sign with
  | .always => ff.fixed true s.zeroWidth (s.precision.getD 6) f
  | .spaceIfPositive =>
    (if (Val.fin 0).le f.val then [32] else []) ++ ff.fixed false s.zeroWidth (s.precision.getD 6) f
  | .negative => ff.fixed false s.zeroWidth (s.precision.getD 6) f

/-- The `'q'` branch. -/
def convertQ (ff : FloatFmt) (n : Nat) (s : Spec) (arg : Arg) : Rust Bytes :=
  if s.len ≠ 1 then .error (.msg "specifier '%q' cannot have modifiers")
  else match arg.literal with
    | .value v => formatQ ff.display n v
    | .display => liftArg n arg.display
    | .none => .error (.arg n "value has no literal form")

/-- The `'s'` branch. -/
def convertStr (n : Nat) (s : Spec) (arg : Arg) : Rust Bytes := do
  let v ← liftArg n arg.display
  if s.len = 1 then .ok v
  else if 0 ∈ v then .error (.arg n "string contains zeros")
  else match s.precision with
    | some p => .ok (v.take (min p v.length))
    | none => .ok v

/-- The match on the specifier; the argument is the `n`-th, and `fmt` the conversion. -/
def convert (ff : FloatFmt) (n : Nat) (s : Spec) (fmt : List Char) (arg : Arg) : Rust Bytes :=
  if s.ch = 'c' ∧ s.sign = .negative ∧ ¬s.alt ∧ ¬s.lz ∧ s.precision = none then
    (liftArg n arg.toInt).map fun i => [i.toUInt64.toUInt8]
  else if (s.ch = 'd' ∨ s.ch = 'i') ∧ ¬s.alt then (liftArg n arg.toInt).map (convertSigned s)
  else if s.ch = 'u' ∧ s.sign = .negative ∧ ¬s.alt then
    (liftArg n arg.toInt).map fun i => convertUnsigned s i.toUInt64
  else if s.ch = 'o' ∧ s.sign = .negative then liftArg n arg.toInt >>= fun i => convertOctal s i.toUInt64
  else if s.ch = 'x' ∧ s.sign = .negative then (liftArg n arg.toInt).map fun i => convertHex false s i.toUInt64
  else if s.ch = 'X' ∧ s.sign = .negative then (liftArg n arg.toInt).map fun i => convertHex true s i.toUInt64
  else if s.ch = 'f' then (liftArg n arg.toFloat).map (convertFloat ff s)
  else if s.ch = 'p' ∧ s.sign = .negative ∧ ¬s.alt ∧ ¬s.lz ∧ s.precision = none then
    .ok (arg.asPtr.getD [40, 110, 117, 108, 108, 41])
  else if s.ch = 'q' then convertQ ff n s arg
  else if s.ch = 's' ∧ s.sign = .negative ∧ ¬s.alt ∧ ¬s.lz then convertStr n s arg
  else .error (.msg ("invalid conversion '%" ++ String.ofList fmt ++ "' to 'format'"))

/-- The width. -/
def applyWidth (s : Spec) (buf : Bytes) : Bytes :=
  let spaces := List.replicate (s.width.getD 0 - buf.length) 32
  if s.left then buf ++ spaces else spaces ++ buf

/-- `&start[..len]`: the index is a number of bytes, and has to be the end of a character. -/
def sliceTo : List Char → Nat → Rust (List Char)
  | _, 0 => .ok []
  | [], _ + 1 => .error .panic
  | c :: cs, len + 1 =>
    if c.utf8Size ≤ len + 1 then (sliceTo cs (len + 1 - c.utf8Size)).map (c :: ·) else .error .panic

/-- One conversion: the text for it. -/
def convertOne (ff : FloatFmt) (n : Nat) (iter : List Char) (s : Spec) (arg : Arg) : Rust Bytes := do
  let fmt ← sliceTo iter s.len
  return applyWidth s (← convert ff n s fmt arg)

/-! ## What the scanner reads -/

/-- The call does not panic, and a value it returns is as it should be. -/
def Safe {α : Type} (P : α → Prop) : Rust α → Prop
  | .ok a => P a
  | .error e => e ≠ .panic

theorem Safe.bind {α β : Type} {P : α → Prop} {Q : β → Prop} {x : Rust α} {f : α → Rust β} (hx : Safe P x)
    (hf : ∀ a, P a → Safe Q (f a)) : Safe Q (x >>= f) := by
  cases x with
  | ok a => exact hf a hx
  | error e => exact hx

theorem Safe.map {α β : Type} {P : α → Prop} {Q : β → Prop} {x : Rust α} {f : α → β} (hx : Safe P x)
    (hf : ∀ a, P a → Q (f a)) : Safe Q (x.map f) := by
  cases x with
  | ok a => exact hf a hx
  | error e => exact hx

/-- An ASCII character. -/
def IsAscii (c : Char) : Prop := c.utf8Size = 1

theorem isAscii_of_lt {c : Char} (h : c.toNat < 128) : IsAscii c := by
  rw [IsAscii, Char.utf8Size_eq_one_iff, UInt32.le_iff_toNat_le]
  exact Nat.le_of_lt_succ h

theorem isAscii_of_isDigit {c : Char} (h : c.isDigit = true) : IsAscii c ∧ 48 ≤ c.toNat ∧ c.toNat ≤ 57 := by
  simp only [Char.isDigit, Bool.and_eq_true, decide_eq_true_eq, UInt32.le_iff_toNat_le] at h
  exact ⟨isAscii_of_lt (Nat.lt_of_le_of_lt h.2 (by decide)), h⟩

theorem isAscii_of_set {f g : Flags} {c : Char} (h : f.set c = some g) : IsAscii c := by
  unfold Flags.set at h
  split at h <;> first | exact isAscii_of_lt (by decide) | cases h

/-- The characters up to the current one were counted, and those before it are ASCII. -/
def Cursor.At (start : List Char) (c : Cursor) : Prop :=
  ∃ mods : List Char, start = mods ++ c.ch :: c.rest ∧ c.len = mods.length + 1 ∧ ∀ m ∈ mods, IsAscii m

theorem Cursor.At.next {start : List Char} {c : Cursor} (h : c.At start) (hch : IsAscii c.ch) :
    Safe (Cursor.At start) (c.next start) := by
  obtain ⟨mods, hstart, hlen, hmods⟩ := h
  obtain ⟨ch, len, rest⟩ := c
  cases rest with
  | nil => exact nofun
  | cons d rest =>
    refine ⟨mods ++ [ch], by rw [hstart]; simp, ?_, fun m hm => ?_⟩
    · rw [List.length_append, List.length_singleton, ← hlen]
    · rcases List.mem_append.mp hm with hm | hm
      · exact hmods m hm
      · exact List.mem_singleton.mp hm ▸ hch

theorem scanFlags_safe {start : List Char} (f : Flags) {ch : Char} {len : Nat} {rest : List Char}
    (h : (Cursor.mk ch len rest).At start) :
    Safe (fun p => p.2.At start ∧ p.1.set p.2.ch = none) (scanFlags start f ch len rest) := by
  induction rest generalizing f ch len with
  | nil =>
    unfold scanFlags
    split
    · exact ⟨h, by assumption⟩
    · exact nofun
  | cons c rest ih =>
    unfold scanFlags
    split
    · exact ⟨h, by assumption⟩
    · rename_i g hset
      exact ih g (h.next (isAscii_of_set hset))

theorem scanDigit_safe {start : List Char} {v : Nat} {c : Cursor} (h : c.At start) (hv : v ≤ 9) :
    Safe (fun p => p.2.At start ∧ v ≤ p.1) (scanDigit start v c) := by
  unfold scanDigit
  split_ifs with hdigit
  · obtain ⟨hascii, hlow, hhigh⟩ := isAscii_of_isDigit hdigit
    have hd : digitOf c.ch ≤ 9 := by unfold digitOf; omega
    rw [u8, if_pos (by omega), Rust.ok_bind, u8, if_pos (by omega), Rust.ok_bind]
    exact (h.next hascii).bind fun c' hc' => ⟨hc', by omega⟩
  · exact ⟨h, le_refl v⟩

theorem scanWidth_safe {start : List Char} {f : Flags} {c : Cursor} (h : c.At start) (hset : f.set c.ch = none) :
    Safe (fun p => p.2.At start) (scanWidth start c) := by
  unfold scanWidth
  split_ifs with hdigit
  · obtain ⟨hascii, hlow, hhigh⟩ := isAscii_of_isDigit hdigit
    have hzero : c.ch ≠ '0' := fun hc => by rw [hc] at hset; cases hset
    have hne : c.ch.toNat ≠ 48 := fun hn => hzero (Char.toNat_inj.mp hn)
    have hv : 1 ≤ digitOf c.ch ∧ digitOf c.ch ≤ 9 := by unfold digitOf; omega
    refine (h.next hascii).bind fun c' hc' => (scanDigit_safe hc' hv.2).bind ?_
    rintro ⟨v, c''⟩ ⟨hc'', hle⟩
    have hpos : Rust.nonZero v = .ok v := if_neg (by simp only at hle; omega)
    simp only [hpos]
    exact hc''
  · exact h

theorem scanPrecision_safe {start : List Char} {c : Cursor} (h : c.At start) :
    Safe (fun p => p.2.At start) (scanPrecision start c) := by
  unfold scanPrecision
  split_ifs with hpoint
  · refine (h.next (by rw [hpoint]; exact isAscii_of_lt (by decide))).bind fun c' hc' => ?_
    split_ifs with hdigit
    · obtain ⟨hascii, hlow, hhigh⟩ := isAscii_of_isDigit hdigit
      have hv : digitOf c'.ch ≤ 9 := by unfold digitOf; omega
      exact (hc'.next hascii).bind fun c'' hc'' => (scanDigit_safe hc'' hv).bind fun p hp => hp.1
    · exact hc'
  · exact h

/-- What was read of a conversion: the counter is its number of characters, and all but the last are ASCII. -/
def Scanned (start : List Char) (s : Spec) (rest : List Char) : Prop :=
  ∃ mods : List Char, start = mods ++ s.ch :: rest ∧ s.len = mods.length + 1 ∧ ∀ m ∈ mods, IsAscii m

theorem scan_safe (iter : List Char) :
    Safe (fun p => p.2.length < iter.length ∧ ∀ s, p.1 = some s → Scanned iter s p.2) (scan iter) := by
  unfold scan
  split
  · exact nofun
  · exact ⟨Nat.lt_succ_self _, nofun⟩
  · rename_i ch rest _
    have hspec : Safe (fun p => Scanned (ch :: rest) p.1 p.2) (scanSpec (ch :: rest) ch rest) := by
      refine (scanFlags_safe .new ⟨[], rfl, rfl, nofun⟩).bind fun p hp => ?_
      refine (scanWidth_safe hp.1 hp.2).bind fun q hq => ?_
      exact (scanPrecision_safe hq).bind fun r hr => hr
    refine hspec.map fun p hp => ⟨?_, fun s hs => Option.some.inj hs ▸ hp⟩
    obtain ⟨mods, hstart, -, -⟩ := hp
    have := congrArg List.length hstart
    simp only [List.length_cons, List.length_append] at this ⊢
    omega

theorem length_of_scan {iter rest : List Char} {o : Option Spec} (h : scan iter = .ok (o, rest)) :
    rest.length < iter.length := by
  have := scan_safe iter
  rw [h] at this
  exact this.1

/-! ## The loop -/

/-- The loop of `format`: `n` is the number of the last argument used, and `args` are those after it. -/
def formatLoop (ff : FloatFmt) (n : Nat) (res : Bytes) (args : List Arg) (fmt : List Char) : Rust Bytes :=
  match fmt with
  | [] => .ok res
  | ch :: iter =>
    if ch ≠ '%' then formatLoop ff n (res ++ Utf8.encode ch.toNat) args iter
    else match hscan : scan iter with
      | .error e => .error e
      | .ok (none, rest) => formatLoop ff n (res ++ [37]) args rest
      | .ok (some s, rest) =>
        match args with
        | [] => .error (.arg (n + 1) "no value")
        | arg :: args => do
          let buf ← convertOne ff (n + 1) iter s arg
          formatLoop ff (n + 1) (res ++ buf) args rest
termination_by fmt.length
decreasing_by
  · simp
  · have := length_of_scan hscan
    simp only [List.length_cons]
    omega
  · have := length_of_scan hscan
    simp only [List.length_cons]
    omega

/-- `format`, of a UTF-8 string. -/
def format (ff : FloatFmt) (fmt : String) (args : List Arg) : Rust Bytes := formatLoop ff 1 [] args fmt.toList

end Tsuki.Format
