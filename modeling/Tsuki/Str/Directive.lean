import Tsuki.Str.FormatSafe
import Tsuki.Str.Printf

/-!
# Conversion specifications

The text of a conversion as C reads it: any flags, a width and a precision of two digits, and a specifier. The scanner
reads the same. A specification is a syntax tree with a text. The scanner goes over its parts in order, with one lemma
for each, and the formatter puts out for the scanned parts what `printf` pads and signs.
-/

namespace Tsuki.Format

open Tsuki.Str (decimal)

/-! ## Texts -/

/-- The characters that are flags. -/
def IsFlag (c : Char) : Prop := c = '-' ∨ c = '+' ∨ c = ' ' ∨ c = '#' ∨ c = '0'

/-- The value of decimal digits. -/
def number (ds : List Char) : Nat := ds.foldl (fun v c => v * 10 + digitOf c) 0

/-- The parts of a conversion specification, behind the percent sign. -/
structure Directive where
  flags : List Char
  width : List Char
  precision : Option (List Char)
  ch : Char

/-- The text of a precision. -/
def precisionText : Option (List Char) → List Char
  | none => []
  | some ds => '.' :: ds

def Directive.text (d : Directive) : List Char := d.flags ++ (d.width ++ (precisionText d.precision ++ [d.ch]))

/-- Any flags, also more than once, a width and a precision from 0 to 99, and a specifier for an integer. -/
structure Directive.WellFormed (d : Directive) (v : IntConv) : Prop where
  flags : ∀ c ∈ d.flags, IsFlag c
  width : ∀ c ∈ d.width, c.isDigit = true
  width_head : d.width.head? ≠ some '0'
  width_length : d.width.length ≤ 2
  precision : ∀ ds, d.precision = some ds → ds.length ≤ 2 ∧ ∀ c ∈ ds, c.isDigit = true
  char : v.Char d.ch

/-- The flags of C: a plus overrides a space. -/
def flagsOf (fs : List Char) : Flags where
  left := '-' ∈ fs
  sign := if '+' ∈ fs then .always else if ' ' ∈ fs then .spaceIfPositive else .negative
  alt := '#' ∈ fs
  lz := '0' ∈ fs

/-- What the text means; a precision without digits is zero. -/
def Directive.spec (d : Directive) : Spec :=
  ⟨flagsOf d.flags, if d.width = [] then none else some (number d.width), d.precision.map number, d.ch, d.text.length⟩

theorem exists_cons (xs : List Char) (x : Char) (tail : List Char) : ∃ c rest, xs ++ x :: tail = c :: rest :=
  List.exists_cons_of_ne_nil (by simp)

/-! ## Flags -/

theorem set_eq_none_iff (f : Flags) (c : Char) : f.set c = none ↔ ¬IsFlag c := by
  unfold Flags.set IsFlag
  split <;> simp_all

/-- A flag that is added. -/
def Flags.add (f : Flags) (c : Char) : Flags := (f.set c).getD f

theorem set_eq_some {f : Flags} {c : Char} (h : IsFlag c) : f.set c = some (f.add c) := by
  cases hset : f.set c with
  | none => exact absurd h ((set_eq_none_iff f c).mp hset)
  | some g => rw [Flags.add, hset, Option.getD_some]

theorem scanFlags_text (start : List Char) {fs : List Char} (hfs : ∀ c ∈ fs, IsFlag c) {x : Char} (hx : ¬IsFlag x)
    {tail : List Char} (f : Flags) (len : Nat) {c : Char} {rest : List Char} (h : c :: rest = fs ++ x :: tail) :
    scanFlags start f c len rest = .ok (fs.foldl Flags.add f, ⟨x, len + fs.length, tail⟩) := by
  induction fs generalizing f len c rest with
  | nil =>
    obtain ⟨rfl, rfl⟩ := List.cons_eq_cons.mp h
    have hset := (set_eq_none_iff f c).mpr hx
    cases rest <;> rw [scanFlags, hset] <;> rfl
  | cons a fs ih =>
    obtain ⟨rfl, rfl⟩ := List.cons_eq_cons.mp h
    change scanFlags start f c len (fs ++ x :: tail) = _
    obtain ⟨d, rest', hrest⟩ := exists_cons fs x tail
    rw [hrest, scanFlags, set_eq_some (hfs c List.mem_cons_self)]
    refine (ih (fun b hb => hfs b (List.mem_cons_of_mem _ hb)) _ _ hrest.symm).trans ?_
    rw [List.length_cons, List.foldl_cons, Nat.add_right_comm, Nat.add_assoc]

theorem foldl_add {fs : List Char} (hfs : ∀ c ∈ fs, IsFlag c) (f : Flags) :
    fs.foldl Flags.add f =
      ⟨f.left || '-' ∈ fs,
        if '+' ∈ fs ∨ f.sign = .always then .always
        else if ' ' ∈ fs ∨ f.sign = .spaceIfPositive then .spaceIfPositive else .negative,
        f.alt || '#' ∈ fs, f.lz || '0' ∈ fs⟩ := by
  induction fs generalizing f with
  | nil => obtain ⟨left, sign, alt, lz⟩ := f; cases sign <;> simp
  | cons c fs ih =>
    rw [List.foldl_cons, ih fun b hb => hfs b (List.mem_cons_of_mem _ hb)]
    obtain ⟨left, sign, alt, lz⟩ := f
    rcases hfs c List.mem_cons_self with rfl | rfl | rfl | rfl | rfl <;>
      cases sign <;> simp [Flags.add, Flags.set]

theorem foldl_add_new {fs : List Char} (hfs : ∀ c ∈ fs, IsFlag c) : fs.foldl Flags.add .new = flagsOf fs := by
  rw [foldl_add hfs]
  simp [Flags.new, flagsOf]

/-! ## Numbers -/

theorem digitOf_le {c : Char} (h : c.isDigit = true) : digitOf c ≤ 9 := by
  have := (isAscii_of_isDigit h).2
  unfold digitOf
  omega

theorem u8_of_lt {n : Nat} (h : n < 256) : u8 n = .ok n := if_pos h

/-- A width is not zero, for it does not begin with a zero. -/
theorem number_ne_zero {a : Char} (ha : a.isDigit = true) {ds : List Char} (hhead : (a :: ds).head? ≠ some '0')
    (hlen : ds.length ≤ 1) : number (a :: ds) ≠ 0 := by
  have hne : a.toNat ≠ 48 := fun h => hhead (congrArg some (Char.toNat_inj.mp h))
  have hlow := (isAscii_of_isDigit ha).2.1
  have hpos : digitOf a ≠ 0 := by
    unfold digitOf
    omega
  cases ds with
  | nil => simpa [number] using hpos
  | cons b ds =>
    obtain rfl : ds = [] := List.eq_nil_of_length_eq_zero (by simpa using hlen)
    simp [number, hpos]

theorem scanDigit_text (start : List Char) {a : Char} (ha : a.isDigit = true) {ds : List Char}
    (hlen : ds.length ≤ 1) (hds : ∀ c ∈ ds, c.isDigit = true) {x : Char} (hx : ¬x.isDigit = true) {tail : List Char}
    (len : Nat) {c : Char} {rest : List Char} (h : c :: rest = ds ++ x :: tail) :
    scanDigit start (digitOf a) ⟨c, len, rest⟩ = .ok (number (a :: ds), ⟨x, len + ds.length, tail⟩) := by
  cases ds with
  | nil =>
    obtain ⟨rfl, rfl⟩ := List.cons_eq_cons.mp h
    rw [scanDigit, if_neg hx]
    simp [number]
  | cons b ds =>
    obtain rfl : ds = [] := List.eq_nil_of_length_eq_zero (by simpa using hlen)
    obtain ⟨rfl, rfl⟩ := List.cons_eq_cons.mp h
    have hc := hds c List.mem_cons_self
    have hale := digitOf_le ha
    have hcle := digitOf_le hc
    rw [scanDigit, if_pos hc, u8_of_lt (by omega), Rust.ok_bind, u8_of_lt (by dsimp only; omega), Rust.ok_bind]
    simp [number, Cursor.next]

theorem scanWidth_text (start : List Char) {ws : List Char} (hws : ∀ c ∈ ws, c.isDigit = true)
    (hhead : ws.head? ≠ some '0') (hlen : ws.length ≤ 2) {x : Char} (hx : ¬x.isDigit = true) {tail : List Char}
    (len : Nat) {c : Char} {rest : List Char} (h : c :: rest = ws ++ x :: tail) :
    scanWidth start ⟨c, len, rest⟩ =
      .ok (if ws = [] then none else some (number ws), ⟨x, len + ws.length, tail⟩) := by
  cases ws with
  | nil =>
    obtain ⟨rfl, rfl⟩ := List.cons_eq_cons.mp h
    exact if_neg hx
  | cons a ws =>
    obtain ⟨rfl, rfl⟩ := List.cons_eq_cons.mp h
    have hc := hws c List.mem_cons_self
    obtain ⟨d, rest', hrest⟩ := exists_cons ws x tail
    have hdigit := scanDigit_text start hc (by simpa using hlen) (fun b hb => hws b (List.mem_cons_of_mem _ hb)) hx
      (len + 1) hrest.symm
    have hpos := number_ne_zero hc hhead (by simpa using hlen)
    have hnonZero : Rust.nonZero (number (c :: ws)) = .ok (number (c :: ws)) := if_neg hpos
    have hnext : Cursor.next start ⟨c, len, ws ++ x :: tail⟩ = .ok ⟨d, len + 1, rest'⟩ := by rw [hrest]; rfl
    change scanWidth start ⟨c, len, ws ++ x :: tail⟩ = _
    rw [scanWidth, if_pos hc]
    simp only [hnext, Rust.ok_bind, hdigit, hnonZero]
    rw [if_neg (List.cons_ne_nil _ _), List.length_cons, Nat.add_right_comm, Nat.add_assoc]
    rfl

theorem scanPrecision_text (start : List Char) {p : Option (List Char)}
    (hp : ∀ ds, p = some ds → ds.length ≤ 2 ∧ ∀ c ∈ ds, c.isDigit = true) {x : Char}
    (hx : ¬x.isDigit = true ∧ x ≠ '.') {tail : List Char} (len : Nat) {c : Char} {rest : List Char}
    (h : c :: rest = precisionText p ++ x :: tail) :
    scanPrecision start ⟨c, len, rest⟩ = .ok (p.map number, ⟨x, len + (precisionText p).length, tail⟩) := by
  cases p with
  | none =>
    obtain ⟨rfl, rfl⟩ := List.cons_eq_cons.mp h
    exact if_neg hx.2
  | some ds =>
    obtain ⟨hlen, hds⟩ := hp ds rfl
    obtain ⟨rfl, rfl⟩ := List.cons_eq_cons.mp h
    change scanPrecision start ⟨'.', len, ds ++ x :: tail⟩ = _
    rw [scanPrecision, if_pos rfl]
    cases ds with
    | nil =>
      change (if x.isDigit = true then _ else _ : Rust (Option Nat × Cursor)) = _
      rw [if_neg hx.1]
      rfl
    | cons a ds =>
      have ha := hds a List.mem_cons_self
      obtain ⟨d, rest', hrest⟩ := exists_cons ds x tail
      have hdigit := scanDigit_text start ha (by simpa using hlen) (fun b hb => hds b (List.mem_cons_of_mem _ hb)) hx.1
        (len + 1 + 1) hrest.symm
      have hpoint : Cursor.next start ⟨'.', len, a :: ds ++ x :: tail⟩ = .ok ⟨a, len + 1, ds ++ x :: tail⟩ := rfl
      have hnext : Cursor.next start ⟨a, len + 1, ds ++ x :: tail⟩ = .ok ⟨d, len + 1 + 1, rest'⟩ := by
        rw [hrest]
        rfl
      simp only [hpoint, Rust.ok_bind, if_pos ha, hnext, hdigit]
      have hcount : len + 1 + 1 + ds.length = len + (ds.length + 1 + 1) := by omega
      rw [precisionText, List.length_cons, List.length_cons, hcount]
      rfl

/-! ## Conversion specifications -/

/-- A specifier is no flag, no digit and no point. -/
theorem char_ne {v : IntConv} {c : Char} (h : v.Char c) : ¬IsFlag c ∧ ¬c.isDigit = true ∧ c ≠ '.' ∧ c ≠ '%' := by
  have hlit : c = 'd' ∨ c = 'i' ∨ c = 'o' ∨ c = 'x' ∨ c = 'X' := by
    cases v with
    | d => exact h.elim .inl (.inr ∘ .inl)
    | o => exact .inr (.inr (.inl h))
    | x => exact .inr (.inr (.inr (.inl h)))
    | upperX => exact .inr (.inr (.inr (.inr h)))
  unfold IsFlag
  rcases hlit with rfl | rfl | rfl | rfl | rfl <;> decide

theorem isAscii_of_char {v : IntConv} {c : Char} (h : v.Char c) : IsAscii c := by
  refine isAscii_of_lt ?_
  cases v with
  | d => rcases h with rfl | rfl <;> decide
  | o | x | upperX => rw [show c = _ from h]; decide

theorem scan_cons {c : Char} (h : c ≠ '%') (rest : List Char) :
    scan (c :: rest) = (scanSpec (c :: rest) c rest).map fun p => (some p.1, p.2) := by
  unfold scan
  split
  · contradiction
  · rename_i heq
    exact absurd (List.cons_eq_cons.mp heq).1 h
  · rename_i heq
    obtain ⟨rfl, rfl⟩ := List.cons_eq_cons.mp heq
    rfl

/-- The scanner reads a conversion specification as C does. -/
theorem scan_text {d : Directive} {v : IntConv} (h : d.WellFormed v) (rest : List Char) :
    scan (d.text ++ rest) = .ok (some d.spec, rest) := by
  obtain ⟨hflag, hdigit, hpoint, hpercent⟩ := char_ne h.char
  -- what follows the width, what follows the flags, and the whole
  obtain ⟨x₂, t₂, h₂⟩ := exists_cons (precisionText d.precision) d.ch rest
  obtain ⟨x₁, t₁, h₁⟩ := exists_cons d.width x₂ t₂
  obtain ⟨c, t, h₀⟩ := exists_cons d.flags x₁ t₁
  have htext : d.text ++ rest = c :: t := by
    rw [← h₀, ← h₁, ← h₂]
    simp [Directive.text]
  have hx₂ : ¬x₂.isDigit = true ∧ ¬IsFlag x₂ ∧ x₂ ≠ '%' := by
    cases hp : d.precision with
    | none =>
      rw [hp] at h₂
      exact (List.cons_eq_cons.mp h₂).1 ▸ ⟨hdigit, hflag, hpercent⟩
    | some ds =>
      rw [hp] at h₂
      exact (List.cons_eq_cons.mp h₂).1 ▸ by unfold IsFlag; decide
  have hx₁ : ¬IsFlag x₁ ∧ x₁ ≠ '%' := by
    cases hw : d.width with
    | nil =>
      rw [hw] at h₁
      exact (List.cons_eq_cons.mp h₁).1 ▸ hx₂.2
    | cons a ws =>
      rw [hw] at h₁
      obtain rfl := (List.cons_eq_cons.mp h₁).1
      have ha := h.width a (by rw [hw]; exact List.mem_cons_self)
      have hzero : a ≠ '0' := fun hz => h.width_head (by rw [hw, hz]; rfl)
      constructor
      · rintro (rfl | rfl | rfl | rfl | rfl)
        all_goals first | exact hzero rfl | exact absurd ha (by decide)
      · rintro rfl
        exact absurd ha (by decide)
  have hc : c ≠ '%' := by
    cases hf : d.flags with
    | nil =>
      rw [hf] at h₀
      exact (List.cons_eq_cons.mp h₀).1 ▸ hx₁.2
    | cons a fs =>
      rw [hf] at h₀
      obtain rfl := (List.cons_eq_cons.mp h₀).1
      rcases h.flags a (by rw [hf]; exact List.mem_cons_self) with rfl | rfl | rfl | rfl | rfl <;> decide
  rw [htext, scan_cons hc, scanSpec, scanFlags_text _ h.flags hx₁.1 _ _ h₀.symm, Rust.ok_bind]
  simp only [foldl_add_new h.flags]
  rw [scanWidth_text _ h.width h.width_head h.width_length hx₂.1 _ h₁.symm, Rust.ok_bind]
  simp only
  rw [scanPrecision_text _ h.precision ⟨hdigit, hpoint⟩ _ h₂.symm, Rust.ok_bind]
  have hcount : 1 + d.flags.length + d.width.length + (precisionText d.precision).length = d.text.length := by
    simp only [Directive.text, List.length_append, List.length_singleton]
    omega
  simp only [hcount]
  rfl

/-- A conversion appends what its branch writes, padded to the width. -/
theorem formatLoop_text (ff : FloatFmt) (k : Nat) (res : Bytes) {d : Directive} {v : IntConv} (h : d.WellFormed v)
    (hok : Accepted d.spec v) {arg : Arg} {n : Int64} (harg : arg.toInt = .ok n) {buf : Bytes}
    (hbuf : branch d.spec v n = .ok buf) (args : List Arg) (rest : List Char) :
    formatLoop ff k res (arg :: args) ('%' :: (d.text ++ rest)) =
      formatLoop ff (k + 1) (res ++ applyWidth d.spec buf) args rest := by
  have hscan := scan_text h rest
  have hscanned : Scanned (d.text ++ rest) d.spec rest := by
    have := scan_safe (d.text ++ rest)
    rw [hscan] at this
    exact this.2 _ rfl
  obtain ⟨fmt, hfmt⟩ := (sliceTo_scanned hscanned).1 (isAscii_of_char h.char)
  have hone : convertOne ff (k + 1) (d.text ++ rest) d.spec arg = .ok (applyWidth d.spec buf) := by
    rw [convertOne, hfmt, Rust.ok_bind, convert_eq_branch ff (k + 1) h.char hok fmt harg, hbuf]
    rfl
  rw [formatLoop, if_neg (fun hne => hne rfl)]
  split
  · rename_i e he
    rw [hscan] at he
    cases he
  · rename_i rest' he
    rw [hscan] at he
    cases he
  · rename_i s rest' he
    rw [hscan] at he
    obtain ⟨hs, rfl⟩ := Prod.mk.inj (Except.ok.inj he)
    obtain rfl := Option.some.inj hs
    simp only [hone, Rust.ok_bind]

/-- The text of an integer conversion is what C prints, but for a sign of no digits that is missing, and for zeros
that do not count the space or `0x` in front of them. -/
theorem integer_printf (ff : FloatFmt) (k : Nat) (res : Bytes) {d : Directive} {v : IntConv} (h : d.WellFormed v)
    (hok : Accepted d.spec v) {arg : Arg} {n : Int64} (harg : arg.toInt = .ok n) (args : List Arg)
    (rest : List Char) :
    ∃ t, formatLoop ff k res (arg :: args) ('%' :: (d.text ++ rest)) = formatLoop ff (k + 1) (res ++ t) args rest ∧
      (t = printf d.spec v n ↔ ¬Differs d.spec n v) := by
  obtain ⟨buf, hbuf, hiff⟩ := branch_printf (s := d.spec) (v := v) n
  exact ⟨applyWidth d.spec buf, formatLoop_text ff k res h hok harg hbuf args rest, hiff⟩

/-- `% 05d`: zeros, and a space for the sign. -/
def spaceZeros : Directive := ⟨[' ', '0'], ['5'], none, 'd'⟩

theorem spaceZeros_wellFormed : spaceZeros.WellFormed .d where
  flags c hc := by
    rcases List.mem_cons.mp hc with rfl | hc
    · exact .inr (.inr (.inl rfl))
    · exact .inr (.inr (.inr (.inr (List.mem_singleton.mp hc))))
  width c hc := by rw [List.mem_singleton.mp hc]; decide
  width_head := by decide
  width_length := by decide
  precision := nofun
  char := .inl rfl

/-- A negative number is printed as it should be. -/
theorem integer_printf_minus_seven :
    (spaceZeros.WellFormed .d ∧ Accepted spaceZeros.spec .d) ∧
      ∃ t, formatLoop ⟨fun _ _ _ _ => [], fun _ => []⟩ 1 [] [⟨.ok (-7), .error "", .error "", none, .none⟩]
          ('%' :: (spaceZeros.text ++ [])) =
        formatLoop ⟨fun _ _ _ _ => [], fun _ => []⟩ 2 ([] ++ t) [] [] ∧
      (t = printf spaceZeros.spec .d (-7) ↔ ¬Differs spaceZeros.spec (-7) .d) :=
  ⟨⟨spaceZeros_wellFormed, rfl⟩, integer_printf _ 1 [] spaceZeros_wellFormed rfl rfl [] []⟩

/-- `string.format("% 05d", 42)` is `" 00042"`, and C prints `" 0042"`. -/
theorem space_not_counted :
    format ⟨fun _ _ _ _ => [], fun _ => []⟩ "% 05d" [⟨.ok 42, .error "", .error "", none, .none⟩] =
        .ok [32, 48, 48, 48, 52, 50] ∧
      printf spaceZeros.spec .d 42 = [32, 48, 48, 52, 50] ∧ '%' :: spaceZeros.text = "% 05d".toList ∧
      spaceZeros.WellFormed .d ∧ Accepted spaceZeros.spec .d := by
  have hdecimal : decimal (42 : Int64).toInt.natAbs = [52, 50] := by
    rw [show (42 : Int64).toInt.natAbs = 42 by decide, decimal, if_neg (by decide), decimal, if_pos (by decide)]
    rfl
  have hbranch : branch spaceZeros.spec .d 42 = .ok [32, 48, 48, 48, 52, 50] := by
    rw [branch, convertSigned_none rfl, hdecimal]
    decide
  refine ⟨?_, ?_, by decide, spaceZeros_wellFormed, rfl⟩
  · have htext : "% 05d".toList = '%' :: (spaceZeros.text ++ []) := by decide
    rw [format, htext, formatLoop_text _ 1 [] spaceZeros_wellFormed rfl rfl hbranch, formatLoop]
    decide
  · rw [printf_zeros ⟨rfl, rfl, rfl⟩, withZero, if_neg (fun h => IntConv.noConfusion h.1), withPrecision_none rfl,
      magnitude, hdecimal]
    decide

end Tsuki.Format
