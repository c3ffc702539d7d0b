import Tsuki.Lex.ReadString

/-!
# Quoted string literals

What the manual says about a quoted literal, and when `read_string` does that. The text between two escapes is checked
on its own; `read_string` does so too, except that what `\u` wrote stays in the text it checks next. The literal is
cut at its escapes. For each escape, one lemma gives the bytes that `read_string` appends, and the loop puts the parts
together by induction on the text that is left.
-/

namespace Tsuki.Lex

/-- An escape sequence, by what it stands for. -/
inductive Esc
  /-- One letter, `\xXX` or `\ddd`. -/
  | byte (b : UInt8)
  /-- A backslash and a line break. -/
  | newline
  /-- `\z` and the white space after it, with so many line breaks. -/
  | skip (lines : Nat)
  /-- `\u{XXX}`. -/
  | utf8 (x : Nat)
  deriving DecidableEq, Repr

namespace Esc

/-- The bytes an escape stands for. -/
def bytes : Esc → Bytes
  | byte b => [b]
  | newline => [10]
  | skip _ => []
  | utf8 x => Utf8.encode x

/-- The line breaks in an escape. -/
def lines : Esc → Nat
  | newline => 1
  | skip k => k
  | _ => 0

end Esc

/-- The escape sequence a text begins with, the backslash left out, and what follows it. -/
def escape : Bytes → Option (Esc × Bytes)
  | [] => none
  | b :: s =>
    if b = 120 then
      match s with
      | x :: y :: s =>
        if lisxdigit x && lisxdigit y then some (.byte (.ofNat (16 * hexDigit x + hexDigit y)), s) else none
      | _ => none
    else if b = 117 then
      match s with
      | 123 :: d :: t =>
        let x := digits 16 hexDigit 0 ((d :: t).takeWhile lisxdigit)
        match t.dropWhile lisxdigit with
        | 125 :: rest => if lisxdigit d && decide (x < 2 ^ 31) then some (.utf8 x, rest) else none
        | _ => none
      | _ => none
    else if isNewline b then some (.newline, (b :: s).drop (newlineLength (b :: s)))
    else if b = 122 then some (.skip (lineBreaks (s.takeWhile lisspace)), s.dropWhile lisspace)
    else if lisdigit b then
      let ds := ((b :: s).takeWhile lisdigit).take 3
      if digits 10 decDigit 0 ds ≤ 255 then some (.byte (.ofNat (digits 10 decDigit 0 ds)), (b :: s).drop ds.length)
      else none
    else (oneLetter b).map fun c => (.byte c, s)

/-- A part of a literal: a byte of its text, or an escape. -/
inductive Piece
  | char (b : UInt8)
  | esc (e : Esc)
  deriving DecidableEq, Repr

/-- The parts of a literal up to the closing quote `del`, and what follows the quote. -/
inductive Literal (del : UInt8) : Bytes → List Piece → Bytes → Prop
  | close {s : Bytes} : Literal del (del :: s) [] s
  | char {b : UInt8} {s : Bytes} {ps : List Piece} {rest : Bytes} (hdel : b ≠ del) (hesc : b ≠ 92)
      (hline : isNewline b = false) (h : Literal del s ps rest) : Literal del (b :: s) (.char b :: ps) rest
  | esc {s mid : Bytes} {e : Esc} {ps : List Piece} {rest : Bytes} (he : escape s = some (e, mid))
      (h : Literal del mid ps rest) : Literal del (92 :: s) (.esc e :: ps) rest

/-- The string a literal stands for. -/
def value : List Piece → Bytes
  | [] => []
  | .char b :: ps => b :: value ps
  | .esc e :: ps => e.bytes ++ value ps

/-- The line breaks in a literal. -/
def lines : List Piece → Nat
  | [] => 0
  | .char _ :: ps => lines ps
  | .esc e :: ps => e.lines + lines ps

/-- The texts between the escapes, the first of them after `seg`. -/
def texts : Bytes → List Piece → List Bytes
  | seg, [] => [seg]
  | seg, .char b :: ps => texts (seg ++ [b]) ps
  | seg, .esc _ :: ps => seg :: texts [] ps

/-- A literal as the manual has it: every text outside the escapes is UTF-8. -/
def WellFormed (del : UInt8) (src : Bytes) (ps : List Piece) (rest : Bytes) : Prop :=
  Literal del src ps rest ∧ ∀ t ∈ texts [] ps, Utf8.valid t = true

/-- The two quotes. -/
inductive Quote
  | single
  | double
  deriving DecidableEq, Repr

/-- The byte of a quote. -/
def Quote.byte : Quote → UInt8
  | single => 39
  | double => 34

theorem Quote.byte_ne (q : Quote) : q.byte ≠ 92 ∧ isNewline q.byte = false := by
  cases q <;> decide

theorem Literal.unique {del : UInt8} (hq : del ≠ 92) {src : Bytes} {ps ps' : List Piece} {rest rest' : Bytes}
    (h : Literal del src ps rest) (h' : Literal del src ps' rest') : ps = ps' ∧ rest = rest' := by
  induction h generalizing ps' rest' with
  | close =>
    cases h' with
    | close => exact ⟨rfl, rfl⟩
    | char hdel => exact absurd rfl hdel
    | esc => exact absurd rfl hq
  | char hdel hesc _ _ ih =>
    cases h' with
    | close => exact absurd rfl hdel
    | char _ _ _ h =>
      obtain ⟨rfl, rfl⟩ := ih h
      exact ⟨rfl, rfl⟩
    | esc => exact absurd rfl hesc
  | esc he _ ih =>
    cases h' with
    | close => exact absurd rfl hq
    | char _ hesc => exact absurd rfl hesc
    | esc he' h =>
      cases he.symm.trans he'
      obtain ⟨rfl, rfl⟩ := ih h
      exact ⟨rfl, rfl⟩

/-! ## What `read_string` accepts -/

/-- Where the next check starts after an escape that ends at `len`. -/
def Esc.off (e : Esc) (off len : Nat) : Nat :=
  match e with
  | byte _ | newline => len
  | skip _ | utf8 _ => off

theorem oneLetter_not_digit {b b' : UInt8} (h : oneLetter b = some b') : lisdigit b = false := by
  unfold oneLetter at h
  split_ifs at h with h1 h2 h3 h4 h5 h6 h7 h8
  all_goals first
    | (subst_vars; rfl)
    | (rcases h8 with rfl | rfl | rfl <;> rfl)

/-- The code and the manual agree on the escape that `b` begins. -/
def ReadsEscape (b : UInt8) (s : Bytes) : Prop :=
  ∀ {pre : Bytes} {n off off' : Nat} {ls' : LexState}, n ≤ maxLine →
    (readEscape ⟨b :: s, n, pre ++ [92]⟩ off = .ok (ls', off') ↔
      ∃ e mid, escape (b :: s) = some (e, mid) ∧ n + e.lines ≤ maxLine ∧
        ls' = ⟨mid, n + e.lines, pre ++ e.bytes⟩ ∧ off' = e.off off (pre ++ e.bytes).length)

theorem readsEscape_hex (s : Bytes) : ReadsEscape 120 s := by
  intro pre n off off' ls' hn
  have hone : oneLetter 120 = none := rfl
  simp only [readEscape, hone, escape, if_true, Rust.bind_eq_ok, pure_eq_ok, Prod.exists, readhexaesc_eq_ok,
    next_eq_ok]
  constructor
  · rintro ⟨_, _, ⟨_, x, y, t, hs, hxd, hyd, rfl, rfl⟩, _, ⟨_, _, ht, rfl⟩, h⟩
    obtain ⟨rfl, rfl⟩ := List.cons.inj hs
    obtain ⟨rfl, rfl⟩ := List.cons.inj ht
    rw [replace_append, hexavalue_eq hxd, hexavalue_eq hyd] at h
    obtain ⟨rfl, rfl⟩ := Prod.mk.inj h
    exact ⟨_, _, if_pos (by rw [hxd, hyd]; rfl), hn, rfl, rfl⟩
  · rintro ⟨e, mid, hs, -, rfl, rfl⟩
    rcases s with _ | ⟨x, _ | ⟨y, s⟩⟩
    · cases hs
    · cases hs
    · simp only [Option.ite_none_right_eq_some, Bool.and_eq_true] at hs
      obtain ⟨⟨hxd, hyd⟩, hs⟩ := hs
      cases hs
      refine ⟨_, _, ⟨120, x, y, mid, rfl, hxd, hyd, rfl, rfl⟩, _, ⟨y, mid, rfl, rfl⟩, ?_⟩
      rw [replace_append, hexavalue_eq hxd, hexavalue_eq hyd]
      rfl

theorem readsEscape_utf8 (s : Bytes) : ReadsEscape 117 s := by
  intro pre n off off' ls' hn
  have hone : oneLetter 117 = none := rfl
  simp only [readEscape, hone, escape, show ¬ (117 : UInt8) = 120 by decide, if_false, if_true, Rust.bind_eq_ok,
    pure_eq_ok, utf8esc, Prod.exists, readutf8esc_eq_ok, Prod.mk.injEq]
  constructor
  · rintro ⟨_, ⟨r, _, ⟨d, t, rest, rfl, hd, ht, rfl, hlt, rfl⟩, rfl⟩, rfl, rfl⟩
    refine ⟨.utf8 (digits 16 hexDigit 0 ((d :: t).takeWhile lisxdigit)), rest, ?_, hn, ?_, rfl⟩
    · simp only [ht, hd, Bool.true_and, decide_eq_true_eq]
      exact if_pos hlt
    · rw [luaO_utf8esc_eq hlt]
      rfl
  · rintro ⟨e, mid, hs, -, rfl, rfl⟩
    split at hs
    · rename_i d t
      split at hs
      · rename_i rest ht
        simp only [Option.ite_none_right_eq_some, Bool.and_eq_true, decide_eq_true_eq] at hs
        obtain ⟨⟨hd, hlt⟩, hs⟩ := hs
        cases hs
        refine ⟨_, ⟨_, _, ⟨d, t, mid, rfl, hd, ht, rfl, hlt, rfl⟩, rfl⟩, ?_, rfl⟩
        rw [luaO_utf8esc_eq hlt]
        rfl
      · cases hs
    · cases hs

theorem readsEscape_newline {b : UInt8} (hnl : isNewline b = true) (s : Bytes) : ReadsEscape b s := by
  have hx : ¬ b = 120 := fun h => absurd hnl (by rw [h]; decide)
  have hu : ¬ b = 117 := fun h => absurd hnl (by rw [h]; decide)
  intro pre n off off' ls' hn
  have hone : oneLetter b = none := by
    simp only [isNewline, Bool.or_eq_true, decide_eq_true_eq] at hnl
    rcases hnl with rfl | rfl <;> rfl
  simp only [readEscape, hone, escape, hx, hu, hnl, if_false, if_true, Rust.bind_eq_ok, pure_eq_ok,
    LexState.inclinenumber_eq, LexState.countLine_eq_ok]
  constructor
  · rintro ⟨_, ⟨hle, rfl⟩, h⟩
    rw [replace_append] at h
    obtain ⟨rfl, rfl⟩ := Prod.mk.inj h
    exact ⟨.newline, _, rfl, hle, rfl, rfl⟩
  · rintro ⟨e, mid, hs, hle, rfl, rfl⟩
    cases hs
    refine ⟨_, ⟨hle, rfl⟩, ?_⟩
    rw [replace_append]
    rfl

theorem readsEscape_skip (s : Bytes) : ReadsEscape 122 s := by
  have hx : ¬ (122 : UInt8) = 120 := by decide
  have hu : ¬ (122 : UInt8) = 117 := by decide
  have hnl : ¬ isNewline 122 = true := by decide
  intro pre n off off' ls' hn
  have hone : oneLetter 122 = none := rfl
  simp only [readEscape, hone, escape, hx, hu, hnl, if_false, if_true, Rust.bind_eq_ok, pure_eq_ok, Bool.false_eq_true]
  rw [truncate_append _ n pre (List.length_singleton (a := 92))]
  simp only [LexState.next, Except.ok.injEq, exists_eq_left', skipSpace_eq_ok (Nat.lt_succ_self _) hn]
  constructor
  · rintro ⟨_, ⟨hle, rfl⟩, h⟩
    obtain ⟨rfl, rfl⟩ := Prod.mk.inj h
    exact ⟨.skip _, _, rfl, hle, by simp [Esc.bytes, Esc.lines], rfl⟩
  · rintro ⟨e, mid, hs, hle, rfl, rfl⟩
    cases hs
    exact ⟨_, ⟨hle, rfl⟩, by simp [Esc.bytes, Esc.lines, Esc.off]⟩

section Other

variable {b : UInt8} (hx : ¬ b = 120) (hu : ¬ b = 117) (hnl : ¬ isNewline b = true) (hz : ¬ b = 122)
include hx hu hnl hz

theorem readsEscape_letter {c : UInt8} (hone : oneLetter b = some c) (s : Bytes) : ReadsEscape b s := by
  intro pre n off off' ls' hn
  have hd := oneLetter_not_digit hone
  simp only [readEscape, hone, escape, hx, hu, hnl, hz, hd, if_false, Rust.bind_eq_ok, pure_eq_ok, next_eq_ok,
    Option.map_some, Bool.false_eq_true]
  constructor
  · rintro ⟨_, ⟨_, _, hs, rfl⟩, h⟩
    obtain ⟨rfl, rfl⟩ := List.cons.inj hs
    rw [replace_append] at h
    obtain ⟨rfl, rfl⟩ := Prod.mk.inj h
    exact ⟨.byte c, s, rfl, hn, by simp [Esc.bytes, Esc.lines], by simp [Esc.bytes, Esc.off]⟩
  · rintro ⟨e, mid, hs, -, rfl, rfl⟩
    cases hs
    refine ⟨_, ⟨b, s, rfl, rfl⟩, ?_⟩
    rw [replace_append]
    simp [Esc.bytes, Esc.lines, Esc.off]

theorem readsEscape_decimal (hone : oneLetter b = none) (s : Bytes) : ReadsEscape b s := by
  intro pre n off off' ls' hn
  simp only [readEscape, hone, escape, hx, hu, hnl, hz, Bool.false_eq_true, if_false, Rust.bind_eq_ok, pure_eq_ok,
    esccheck_eq_ok, Option.map_none, exists_const, Prod.exists, readdecesc_eq_ok, Option.ite_none_right_eq_some]
  constructor
  · rintro ⟨hd, _, _, ⟨rfl, hle, rfl⟩, h⟩
    rw [replace_append] at h
    obtain ⟨rfl, rfl⟩ := Prod.mk.inj h
    exact ⟨.byte _, _, ⟨hd, hle, rfl⟩, hn, rfl, rfl⟩
  · rintro ⟨e, mid, hs, -, rfl, rfl⟩
    obtain ⟨hd, hle, hs⟩ := hs
    cases hs
    refine ⟨hd, _, _, ⟨rfl, hle, rfl⟩, ?_⟩
    rw [replace_append]
    rfl

end Other

theorem readEscape_eq_ok (b : UInt8) (s : Bytes) : ReadsEscape b s := by
  by_cases hx : b = 120
  · exact hx ▸ readsEscape_hex s
  by_cases hu : b = 117
  · exact hu ▸ readsEscape_utf8 s
  by_cases hnl : isNewline b = true
  · exact readsEscape_newline hnl s
  by_cases hz : b = 122
  · exact hz ▸ readsEscape_skip s
  cases hone : oneLetter b with
  | some c => exact readsEscape_letter hx hu hnl hz hone s
  | none => exact readsEscape_decimal hx hu hnl hz hone s

/-- An escape ends inside the text, and the value of `\u` is below `2 ^ 31`. -/
theorem escape_bound {s mid : Bytes} {e : Esc} (h : escape s = some (e, mid)) :
    mid.length ≤ s.length ∧ ∀ x, e = .utf8 x → x < 2 ^ 31 := by
  unfold escape at h
  split at h
  · cases h
  split_ifs at h with hx hu hnl hz hd
  · split at h
    · split_ifs at h
      cases h
      exact ⟨by simp; omega, nofun⟩
    · cases h
  · split at h
    · rename_i d t
      split at h
      · rename_i rest ht
        simp only [Option.ite_none_right_eq_some, Bool.and_eq_true, decide_eq_true_eq] at h
        obtain ⟨⟨-, hlt⟩, h⟩ := h
        cases h
        have hlen := (List.dropWhile_sublist lisxdigit (l := t)).length_le
        rw [ht] at hlen
        refine ⟨by simp at hlen ⊢; omega, fun x hx => ?_⟩
        cases hx
        exact hlt
      · cases h
    · cases h
  · cases h
    exact ⟨by rw [List.length_drop]; omega, nofun⟩
  · cases h
    exact ⟨Nat.le_succ_of_le (List.dropWhile_sublist lisspace).length_le, nofun⟩
  · simp only [Option.ite_none_right_eq_some] at h
    obtain ⟨-, h⟩ := h
    cases h
    exact ⟨by rw [List.length_drop]; omega, nofun⟩
  · obtain ⟨c, -, h⟩ := Option.map_eq_some_iff.mp h
    cases h
    exact ⟨Nat.le_succ _, nofun⟩

theorem Literal.utf8_lt {del : UInt8} {src : Bytes} {ps : List Piece} {rest : Bytes}
    (h : Literal del src ps rest) : ∀ x, .esc (.utf8 x) ∈ ps → x < 2 ^ 31 := by
  induction h with
  | close => exact fun _ hx => (nomatch hx)
  | char _ _ _ _ ih => exact fun x hx => ih x (by simpa using hx)
  | esc he _ ih =>
    intro x hx
    rcases List.mem_cons.mp hx with hx | hx
    · exact (escape_bound he).2 x (Piece.esc.inj hx).symm
    · exact ih x hx

/-- What the next check covers after an escape that followed `seg`. -/
def Esc.carry (e : Esc) (seg : Bytes) : Bytes :=
  match e with
  | byte _ | newline => []
  | skip _ => seg
  | utf8 x => seg ++ Utf8.encode x

/-- The checks of `read_string` over the parts of a literal, the first of them from `seg` on. -/
def checks : Bytes → List Piece → Bool
  | seg, [] => Utf8.valid seg
  | seg, .char b :: ps => checks (seg ++ [b]) ps
  | seg, .esc e :: ps => Utf8.valid seg && checks (e.carry seg) ps

theorem Esc.drop_off (e : Esc) {buf : Bytes} {off : Nat} (hoff : off ≤ buf.length) :
    (buf ++ e.bytes).drop (e.off off (buf ++ e.bytes).length) = e.carry (buf.drop off) := by
  cases e with
  | byte | newline => exact List.drop_length
  | skip => simp [bytes, Esc.off, carry]
  | utf8 x => simp [bytes, Esc.off, carry, List.drop_append_of_le_length hoff]

theorem Esc.off_le (e : Esc) {buf : Bytes} {off : Nat} (hoff : off ≤ buf.length) :
    e.off off (buf ++ e.bytes).length ≤ (buf ++ e.bytes).length := by
  cases e with
  | byte | newline => exact Nat.le_refl _
  | skip | utf8 => exact Nat.le_trans hoff (by simp)

theorem checkUtf8_eq_ok {ls : LexState} {off : Nat} {u : Unit} :
    checkUtf8 ls off = .ok u ↔ Utf8.valid (ls.buf.drop off) = true := by
  unfold checkUtf8
  split_ifs with h
  · exact ⟨fun _ => h, fun _ => rfl⟩
  · exact ⟨fun h' => (nomatch h'), fun h' => absurd h' h⟩

/-- The loop ends at the closing quote of a literal whose checks pass; the buffer then holds its value. -/
theorem readStringLoop_eq_ok {del : UInt8} (hq : del ≠ 92) {fuel : Nat} {src : Bytes} {n : Nat} {buf : Bytes} {off : Nat}
    {ls' : LexState} (hfuel : src.length < fuel) (hn : n ≤ maxLine) (hoff : off ≤ buf.length) :
    (∃ off', readStringLoop fuel del ⟨src, n, buf⟩ off = .ok (ls', off') ∧
        Utf8.valid (ls'.buf.drop off') = true) ↔
      ∃ ps rest, Literal del src ps rest ∧ checks (buf.drop off) ps = true ∧ n + lines ps ≤ maxLine ∧
        ls' = ⟨del :: rest, n + lines ps, buf ++ value ps⟩ := by
  induction fuel generalizing src n buf off with
  | zero => omega
  | succ fuel ih =>
    rw [readStringLoop]
    cases src with
    | nil => exact ⟨fun ⟨_, h, _⟩ => (nomatch h), fun ⟨_, _, h, _⟩ => (nomatch h)⟩
    | cons b s =>
      have hlen : s.length < fuel := by simpa using hfuel
      by_cases hdel : b = del
      · subst hdel
        simp only [if_true, Except.ok.injEq, Prod.mk.injEq]
        constructor
        · rintro ⟨_, ⟨rfl, rfl⟩, hv⟩
          exact ⟨[], s, .close, hv, hn, by simp [lines, value]⟩
        · rintro ⟨ps, rest, hlit, hv, -, rfl⟩
          obtain ⟨rfl, rfl⟩ := hlit.unique hq .close
          exact ⟨off, ⟨by simp [lines, value], rfl⟩, by simpa [value, checks] using hv⟩
      by_cases hnl : isNewline b = true
      · simp only [if_neg hdel, if_pos hnl, LexState.tokenError]
        refine ⟨fun ⟨_, h, _⟩ => (nomatch h), fun ⟨_, _, hlit, _⟩ => ?_⟩
        cases hlit with
        | close => exact absurd rfl hdel
        | char _ _ hline => exact absurd hnl (Bool.eq_false_iff.mp hline)
        | esc => exact absurd hnl (by decide)
      by_cases hesc : b = 92
      · subst hesc
        simp only [if_neg hdel, if_neg hnl, if_true, Rust.bind_eq_ok, checkUtf8_eq_ok, Prod.exists, LexState.saveNext,
          Except.ok.injEq, exists_eq_left', exists_const]
        cases s with
        | nil =>
          constructor
          · rintro ⟨_, ⟨-, _, _, h, h'⟩, -⟩
            cases h
            cases fuel with
            | zero => cases h'
            | succ => cases h'
          · rintro ⟨_, _, hlit, _⟩
            cases hlit with
            | close => exact absurd rfl hdel
            | char _ hesc => exact absurd rfl hesc
            | esc he => cases he
        | cons c s =>
          simp only [readEscape_eq_ok c s hn]
          constructor
          · rintro ⟨off', ⟨hv, _, _, ⟨e, mid, he, hle, rfl, rfl⟩, h⟩, hv'⟩
            have hmid : mid.length < fuel := Nat.lt_of_le_of_lt (escape_bound he).1 hlen
            obtain ⟨ps, rest, hlit, hc, hl, rfl⟩ := (ih hmid hle (e.off_le hoff)).mp ⟨off', h, hv'⟩
            rw [e.drop_off hoff] at hc
            refine ⟨.esc e :: ps, rest, .esc he hlit, ?_, by simp only [lines]; omega, ?_⟩
            · rw [checks, hv, hc]
              rfl
            · simp only [lines, value, List.append_assoc, Nat.add_assoc]
          · rintro ⟨ps, rest, hlit, hc, hl, rfl⟩
            cases hlit with
            | close => exact absurd rfl hdel
            | char _ hesc => exact absurd rfl hesc
            | @esc _ mid e ps _ he hlit =>
              rw [checks, Bool.and_eq_true] at hc
              rw [lines] at hl
              have hmid : mid.length < fuel := Nat.lt_of_le_of_lt (escape_bound he).1 hlen
              have hle : n + e.lines ≤ maxLine := by omega
              obtain ⟨off', h, hv'⟩ := (ih hmid hle (e.off_le hoff)).mpr
                ⟨ps, rest, hlit, (e.drop_off hoff).symm ▸ hc.2, by omega,
                  by simp only [lines, value, List.append_assoc, Nat.add_assoc]⟩
              exact ⟨off', ⟨hc.1, _, _, ⟨e, mid, he, hle, rfl, rfl⟩, h⟩, hv'⟩
      · simp only [if_neg hdel, if_neg hnl, if_neg hesc, Rust.bind_eq_ok, LexState.saveNext, Except.ok.injEq,
          exists_eq_left']
        have hoff' : off ≤ (buf ++ [b]).length := Nat.le_trans hoff (by simp)
        rw [ih hlen hn hoff', List.drop_append_of_le_length hoff]
        constructor
        · rintro ⟨ps, rest, hlit, hc, hl, rfl⟩
          exact ⟨.char b :: ps, rest, .char hdel hesc (Bool.eq_false_iff.mpr hnl) hlit, hc, hl,
            by simp [lines, value]⟩
        · rintro ⟨ps, rest, hlit, hc, hl, rfl⟩
          cases hlit with
          | close => exact absurd rfl hdel
          | char _ _ _ hlit => exact ⟨_, rest, hlit, hc, hl, by simp [lines, value]⟩
          | esc => exact absurd rfl hesc

/-- The state in which `llex` calls `read_string`: the quote is the current byte and the buffer is empty. -/
def LexState.atQuote (q : Quote) (src : Bytes) (line : Nat) : LexState := ⟨q.byte :: src, line, []⟩

/-- `read_string` accepts the literals whose checks pass, and returns their values. -/
theorem readString_eq_ok {q : Quote} {src : Bytes} {line : Nat} (hline : line ≤ maxLine) {v rest : Bytes} :
    (∃ ls, readString q.byte (.atQuote q src line) = .ok (v, ls) ∧ ls.src = rest) ↔
      ∃ ps, Literal q.byte src ps rest ∧ checks [] ps = true ∧ line + lines ps ≤ maxLine ∧ v = value ps := by
  simp only [readString, LexState.atQuote, Rust.bind_eq_ok, saveNext_eq_ok, Prod.exists, checkUtf8_eq_ok,
    exists_const, pure_eq_ok, Prod.mk.injEq, List.nil_append]
  constructor
  · rintro ⟨ls, ⟨_, ⟨_, _, hsrc, rfl⟩, ls1, off', h, hv, _, ⟨b, s, hs, rfl⟩, rfl, rfl⟩, rfl⟩
    obtain ⟨rfl, rfl⟩ := List.cons.inj hsrc
    obtain ⟨ps, rest, hlit, hc, hl, rfl⟩ :=
      (readStringLoop_eq_ok q.byte_ne.1 (Nat.lt_succ_self _) hline (by simp)).mp ⟨off', h, hv⟩
    obtain ⟨rfl, rfl⟩ := List.cons.inj hs
    exact ⟨ps, hlit, hc, hl, by simp⟩
  · rintro ⟨ps, hlit, hc, hl, rfl⟩
    obtain ⟨off', h, hv⟩ :=
      (readStringLoop_eq_ok q.byte_ne.1 (Nat.lt_succ_self src.length) hline (by simp)).mpr
        ⟨ps, rest, hlit, show checks ([q.byte].drop 1) ps = true from hc, hl, rfl⟩
    exact ⟨_, ⟨_, ⟨q.byte, src, rfl, rfl⟩, _, off', h, hv, _, ⟨q.byte, rest, rfl, rfl⟩, by simp, rfl⟩, rfl⟩

/-- Dead text: nothing after it makes it UTF-8. -/
def Dead (seg : Bytes) : Prop := ∀ t, Utf8.valid (seg ++ t) = false

theorem Dead.checks {seg : Bytes} (h : Dead seg) (ps : List Piece) : checks seg ps = false := by
  have hseg : Utf8.valid seg = false := by simpa using h []
  induction ps generalizing seg with
  | nil => exact hseg
  | cons p ps ih =>
    cases p with
    | char b =>
      have hb : Dead (seg ++ [b]) := fun t => by rw [List.append_assoc]; exact h _
      exact ih hb (by simpa using hb [])
    | esc e => rw [Lex.checks, hseg, Bool.false_and]

/-- An escape whose value is no scalar value fails the next check. -/
theorem checks_of_not_scalar {ps : List Piece} {x : Nat} (hx : .esc (.utf8 x) ∈ ps) (hs : ¬ Utf8.Scalar x)
    (hlt : x < 2 ^ 31) (seg : Bytes) : checks seg ps = false := by
  induction ps generalizing seg with
  | nil => cases hx
  | cons p ps ih =>
    rcases List.mem_cons.mp hx with rfl | hmem
    · rw [checks]
      cases hv : Utf8.valid seg with
      | false => rfl
      | true =>
        have hdead : Dead (seg ++ Utf8.encode x) := fun t => by
          rw [List.append_assoc, Utf8.valid_append hv]
          exact Utf8.valid_encode_append hs hlt t
        rw [Bool.true_and]
        exact hdead.checks ps
    · cases p with
      | char b => exact ih hmem _
      | esc e => rw [checks, ih hmem, Bool.and_false]

/-- Without such an escape the checks are the ones of the manual, `p` being what earlier escapes left. -/
theorem checks_eq {ps : List Piece} (hs : ∀ x, .esc (.utf8 x) ∈ ps → Utf8.Scalar x) {p : Bytes}
    (hpre : Utf8.valid p = true) (seg : Bytes) :
    checks (p ++ seg) ps = true ↔ ∀ t ∈ texts seg ps, Utf8.valid t = true := by
  induction ps generalizing p seg with
  | nil => simp [checks, texts, Utf8.valid_append hpre]
  | cons piece ps ih =>
    have hs' : ∀ x, .esc (.utf8 x) ∈ ps → Utf8.Scalar x := fun x hx => hs x (List.mem_cons_of_mem _ hx)
    cases piece with
    | char b =>
      rw [checks, List.append_assoc]
      exact ih hs' hpre _
    | esc e =>
      rw [checks, texts, Bool.and_eq_true, Utf8.valid_append hpre, List.forall_mem_cons]
      refine and_congr_right fun hseg => ?_
      have hall : Utf8.valid (p ++ seg) = true := by rw [Utf8.valid_append hpre, hseg]
      have hcarry : Utf8.valid (e.carry (p ++ seg)) = true := by
        cases e with
        | byte | newline => rfl
        | skip => exact hall
        | utf8 x =>
          rw [Esc.carry, Utf8.valid_append hall]
          exact Utf8.valid_encode (hs x List.mem_cons_self)
      simpa using ih hs' hcarry []

/-! ## How reading a string stops -/

/-- A stop of the program: an error for its user, or the panic of a line number that overflows. -/
def Stop.Proper : Stop → Prop
  | .error .. | .panic => True
  | .overread | .fuel => False

/-- A call stops properly or returns. -/
def Stops {α : Type} (r : Except Stop α) : Prop := ∀ e, r = .error e → e.Proper

theorem Stops.ok {α : Type} (a : α) : Stops (.ok a) := nofun

theorem Stops.bind {α β : Type} {x : Except Stop α} {f : α → Except Stop β} (hx : Stops x)
    (hf : ∀ a, x = .ok a → Stops (f a)) : Stops (x >>= f) := by
  cases x with
  | error e => exact fun _ h => hx _ (by cases h; rfl)
  | ok a => exact hf a rfl

theorem stops_tokenError {α : Type} (ls : LexState) (reason : String) :
    Stops (ls.tokenError reason : Except Stop α) := by
  rintro e ⟨⟩
  trivial

theorem stops_saveNext {ls : LexState} (h : ls.src ≠ []) : Stops ls.saveNext := by
  obtain ⟨b, s, hs⟩ := List.exists_cons_of_ne_nil h
  simp only [LexState.saveNext, hs]
  exact .ok _

theorem stops_next {ls : LexState} (h : ls.src ≠ []) : Stops ls.next := by
  obtain ⟨b, s, hs⟩ := List.exists_cons_of_ne_nil h
  simp only [LexState.next, hs]
  exact .ok _

theorem stops_countLine (ls : LexState) : Stops ls.countLine := by
  unfold LexState.countLine
  split_ifs
  · exact .ok _
  · rintro e ⟨⟩
    trivial

theorem stops_inclinenumber {ls : LexState} (h : ls.src ≠ []) : Stops ls.inclinenumber := by
  obtain ⟨_ | ⟨b, s⟩, n, buf⟩ := ls
  · exact absurd rfl h
  · rw [LexState.inclinenumber_eq]
    exact stops_countLine _

theorem stops_esccheck (ls : LexState) (c : Bool) (msg : String) : Stops (esccheck ls c msg) := by
  unfold esccheck
  split_ifs with hc hs
  · exact .ok _
  · exact stops_tokenError _ _
  · exact (stops_saveNext hs).bind fun _ _ => stops_tokenError _ _

theorem stops_checkUtf8 (ls : LexState) (off : Nat) : Stops (checkUtf8 ls off) := by
  unfold checkUtf8
  split_ifs
  · exact .ok _
  · exact stops_tokenError _ _

theorem ne_nil_of_current {ls : LexState} {p : UInt8 → Bool} (h : ls.current p = true) : ls.src ≠ [] := by
  intro hs
  rw [LexState.current, hs] at h
  cases h

theorem stops_gethexa {ls : LexState} (h : ls.src ≠ []) : Stops (gethexa ls) :=
  (stops_saveNext h).bind fun _ _ => (stops_esccheck _ _ _).bind fun _ _ => .ok _

theorem stops_readhexaesc {ls : LexState} (h : ls.src ≠ []) : Stops (readhexaesc ls) := by
  refine (stops_gethexa h).bind fun r hr => (stops_gethexa ?_).bind fun _ _ => .ok _
  obtain ⟨_, _, _, -, -, -, hls⟩ := gethexa_eq_ok.mp (show gethexa _ = .ok (r.1, r.2) from hr)
  rw [hls]
  exact List.cons_ne_nil _ _

theorem stops_readutf8escLoop {fuel : Nat} {a : UInt8} {s : Bytes} (hfuel : s.length < fuel) (n : Nat)
    (buf : Bytes) (r i : Nat) : Stops (readutf8escLoop fuel ⟨a :: s, n, buf⟩ r i) := by
  induction s generalizing fuel a buf r i with
  | nil =>
    obtain ⟨fuel, rfl⟩ : ∃ k, fuel = k + 1 := ⟨fuel - 1, by simp at hfuel; omega⟩
    exact .ok _
  | cons b s ih =>
    obtain ⟨fuel, rfl⟩ : ∃ k, fuel = k + 1 := ⟨fuel - 1, by simp at hfuel; omega⟩
    rw [readutf8escLoop]
    refine (stops_saveNext (List.cons_ne_nil a _)).bind ?_
    rintro _ ⟨⟩
    split_ifs
    · exact (stops_esccheck _ _ _).bind fun _ _ => ih (by simpa using hfuel) _ _ _
    · exact .ok _

theorem stops_readutf8esc {ls : LexState} (h : ls.src ≠ []) : Stops (readutf8esc ls) := by
  refine (stops_saveNext h).bind fun ls1 _ => (stops_esccheck _ _ _).bind fun _ h123 => ?_
  have hne := ne_nil_of_current (esccheck_eq_ok.mp h123)
  refine (stops_gethexa hne).bind fun r hr => ?_
  obtain ⟨_, d, s, -, -, -, hls⟩ := gethexa_eq_ok.mp (show gethexa _ = .ok (r.1, r.2) from hr)
  refine .bind ?_ fun x _ => (stops_esccheck _ _ _).bind fun _ h125 =>
    (stops_next (ne_nil_of_current (esccheck_eq_ok.mp h125))).bind fun _ _ => .ok _
  rw [hls]
  exact stops_readutf8escLoop (by simp) _ _ _ _

theorem stops_readdecesc (ls : LexState) : Stops (readdecesc ls) := by
  obtain ⟨s, n, buf⟩ := ls
  rw [readdecesc, readdecescLoop_eq]
  exact (stops_esccheck _ _ _).bind fun _ _ => .ok _

theorem stops_skipSpace {fuel : Nat} {ls : LexState} (hfuel : ls.src.length < fuel) :
    Stops (skipSpace fuel ls) := by
  induction fuel generalizing ls with
  | zero => omega
  | succ fuel ih =>
    rw [skipSpace]
    split_ifs with hsp hnl
    · refine (stops_inclinenumber (ne_nil_of_current hsp)).bind fun ls' h => ih ?_
      obtain ⟨_ | ⟨b, s⟩, n, buf⟩ := ls
      · cases h
      · rw [LexState.inclinenumber_eq, LexState.countLine_eq_ok] at h
        have hpos := one_le_newlineLength b s
        rw [h.2, List.length_drop]
        simp only [List.length_cons] at hfuel ⊢
        omega
    · refine (stops_next (ne_nil_of_current hsp)).bind fun ls' h => ih ?_
      obtain ⟨b, s, hs, rfl⟩ := next_eq_ok.mp h
      rw [hs] at hfuel
      simpa using hfuel
    · exact .ok _

theorem stops_readEscape (ls : LexState) (off : Nat) : Stops (readEscape ls off) := by
  unfold readEscape
  split
  · exact .ok _
  · rename_i b s hs
    have hne : ls.src ≠ [] := by rw [hs]; exact List.cons_ne_nil b s
    split
    · exact (stops_next hne).bind fun _ _ => .ok _
    split_ifs
    · refine (stops_readhexaesc hne).bind fun r hr => (stops_next ?_).bind fun _ _ => .ok _
      obtain ⟨_, _, _, _, -, -, -, -, hls⟩ := readhexaesc_eq_ok.mp (show readhexaesc _ = .ok (r.1, r.2) from hr)
      rw [hls]
      exact List.cons_ne_nil _ _
    · exact ((stops_readutf8esc hne).bind fun _ _ => .ok _).bind fun _ _ => .ok _
    · exact (stops_inclinenumber hne).bind fun _ _ => .ok _
    · refine (stops_next (show (ls.truncate 1).src ≠ [] from hne)).bind fun _ _ => ?_
      exact (stops_skipSpace (Nat.lt_succ_self _)).bind fun _ _ => .ok _
    · exact (stops_esccheck _ _ _).bind fun _ _ => (stops_readdecesc _).bind fun _ _ => .ok _

theorem stops_readStringLoop {fuel : Nat} {del : UInt8} {src : Bytes} {n : Nat} {buf : Bytes} {off : Nat}
    (hfuel : src.length < fuel) (hn : n ≤ maxLine) : Stops (readStringLoop fuel del ⟨src, n, buf⟩ off) := by
  induction fuel generalizing src n buf off with
  | zero => omega
  | succ fuel ih =>
    rw [readStringLoop]
    cases src with
    | nil =>
      rintro e ⟨⟩
      trivial
    | cons b s =>
      have hlen : s.length < fuel := by simpa using hfuel
      simp only
      split_ifs with hdel hnl hesc
      · exact .ok _
      · exact stops_tokenError _ _
      · refine (stops_checkUtf8 _ _).bind fun _ _ => (stops_saveNext (List.cons_ne_nil b s)).bind ?_
        rintro _ ⟨⟩
        refine (stops_readEscape _ _).bind fun r hr => ?_
        subst hesc
        cases s with
        | nil =>
          cases hr
          exact ih (by simpa using hlen) hn
        | cons b' s =>
          obtain ⟨e, mid, he, hle, hls, -⟩ := (readEscape_eq_ok b' s hn).mp hr
          obtain ⟨ls, off'⟩ := r
          obtain rfl : ls = _ := hls
          exact ih (Nat.lt_of_le_of_lt (escape_bound he).1 hlen) hle
      · refine (stops_saveNext (List.cons_ne_nil b s)).bind ?_
        rintro _ ⟨⟩
        exact ih hlen hn

/-- `read_string` never reads past the end of the source, and its loops end: a text that it does not accept is
an error for the user, or has too many line breaks. -/
theorem readString_stops (q : Quote) (src : Bytes) (line : Fin (2 ^ 31)) :
    Stops (readString q.byte (.atQuote q src line)) := by
  have hline : (line : Nat) ≤ maxLine := Nat.le_of_lt_succ line.isLt
  refine (stops_saveNext (List.cons_ne_nil _ src)).bind ?_
  rintro _ ⟨⟩
  refine (stops_readStringLoop (Nat.lt_succ_self _) hline).bind fun r hr => ?_
  refine (stops_checkUtf8 _ _).bind fun _ hv => (stops_saveNext ?_).bind fun _ _ => .ok _
  obtain ⟨_, _, -, -, -, hls⟩ := (readStringLoop_eq_ok q.byte_ne.1 (Nat.lt_succ_self _) hline (by simp)).mp
    ⟨r.2, hr, checkUtf8_eq_ok.mp hv⟩
  rw [hls]
  exact List.cons_ne_nil _ _

/-! ## What the manual says -/

/-- `read_string` does on this text what the manual says: it accepts the well-formed literals, up to their
closing quotes, and returns their values. -/
def DecodesPerManual (q : Quote) (src : Bytes) (line : Nat) : Prop :=
  ∀ v rest, (∃ ls, readString q.byte (.atQuote q src line) = .ok (v, ls) ∧ ls.src = rest) ↔
    ∃ ps, WellFormed q.byte src ps rest ∧ v = value ps

/-- The well-formed literals that `read_string` refuses: a `\u` escape has a value that is no Unicode scalar
value, or the line number overflows. -/
def Refused (line : Nat) (ps : List Piece) : Prop :=
  (∃ x, .esc (.utf8 x) ∈ ps ∧ ¬ Utf8.Scalar x) ∨ maxLine < line + lines ps

/-- Quoted literals are decoded per the manual exactly where the text is no well-formed literal that has a
`\u` escape of a surrogate or of a value above U+10FFFF, or more line breaks than can be counted. -/
theorem readString_decodes (q : Quote) (src : Bytes) (line : Fin (2 ^ 31)) :
    DecodesPerManual q src line ↔ ¬ ∃ ps rest, WellFormed q.byte src ps rest ∧ Refused line ps := by
  have hline : (line : Nat) ≤ maxLine := Nat.le_of_lt_succ line.isLt
  constructor
  · rintro h ⟨ps, rest, hwf, hrefused⟩
    obtain ⟨ls, hread⟩ := (h (value ps) rest).mpr ⟨ps, hwf, rfl⟩
    obtain ⟨ps', hlit, hc, hl, -⟩ := (readString_eq_ok hline).mp ⟨ls, hread⟩
    obtain ⟨rfl, -⟩ := hwf.1.unique q.byte_ne.1 hlit
    rcases hrefused with ⟨x, hx, hs⟩ | hover
    · rw [checks_of_not_scalar hx hs (hlit.utf8_lt x hx)] at hc
      cases hc
    · omega
  · intro h v rest
    rw [readString_eq_ok hline]
    constructor
    · rintro ⟨ps, hlit, hc, hl, rfl⟩
      have hs : ∀ x, .esc (.utf8 x) ∈ ps → Utf8.Scalar x := by
        intro x hx
        by_contra hs
        rw [checks_of_not_scalar hx hs (hlit.utf8_lt x hx)] at hc
        cases hc
      exact ⟨ps, ⟨hlit, (checks_eq hs (p := []) rfl []).mp hc⟩, rfl⟩
    · rintro ⟨ps, hwf, rfl⟩
      have hrefused : ¬ Refused line ps := fun hr => h ⟨ps, rest, hwf, hr⟩
      have hs : ∀ x, .esc (.utf8 x) ∈ ps → Utf8.Scalar x := by
        intro x hx
        by_contra hs
        exact hrefused (.inl ⟨x, hx, hs⟩)
      exact ⟨ps, hwf.1, (checks_eq hs (p := []) rfl []).mpr hwf.2,
        Nat.not_lt.mp fun hover => hrefused (.inr hover), rfl⟩

/-- The bytes of `\u{D800}"`: a literal of one escape, which the manual accepts. -/
def surrogate : Bytes := [92, 117, 123, 68, 56, 48, 48, 125, 34]

/-- `"\u{D800}"` is refused. -/
theorem surrogate_refused : ¬ DecodesPerManual .double surrogate 1 := by
  have hescape : escape [117, 123, 68, 56, 48, 48, 125, 34] = some (.utf8 0xD800, [34]) := by decide
  have hlit : Literal 34 surrogate [.esc (.utf8 0xD800)] [] := .esc hescape .close
  have hwf : WellFormed 34 surrogate [.esc (.utf8 0xD800)] [] := ⟨hlit, by decide⟩
  have hread : readString 34 (.atQuote .double surrogate 1) =
      .error (.error "non-UTF-8 string" (.token [34, 0xED, 0xA0, 0x80]) 1) := by decide
  intro h
  obtain ⟨ls, h, -⟩ := (h _ []).mpr ⟨_, hwf, rfl⟩
  exact absurd (hread.symm.trans h) nofun

end Tsuki.Lex
