import Tsuki.Lex.Llex
import Tsuki.Lex.NumeralForm
import Mathlib.Tactic.Ring

/-!
# Token streams

A source whose lexemes stand apart is read as their tokens, whatever white space and comments stand between them. The
induction is on the lexemes: `llex` takes the gap and the first one, and what is behind them is again such a source. A
lookahead takes the same step earlier, and the token is kept until it is asked for.
-/

namespace Tsuki.Lex

/-- The end of input or white space is next. -/
def Spaced (rest : Bytes) : Prop := ∀ b, rest.head? = some b → lisspace b = true

/-- The symbols with their tokens. -/
def symbols : List (Bytes × Nat) :=
  [([43], 43), ([45], 45), ([42], 42), ([47], 47), ([37], 37), ([94], 94), ([35], 35), ([38], 38), ([126], 126),
    ([124], 124), ([60], 60), ([62], 62), ([61], 61), ([40], 40), ([41], 41), ([123], 123), ([125], 125), ([91], 91),
    ([93], 93), ([59], 59), ([58], 58), ([44], 44), ([46], 46), ([47, 47], TK_IDIV), ([46, 46], TK_CONCAT),
    ([46, 46, 46], TK_DOTS), ([61, 61], TK_EQ), ([62, 61], TK_GE), ([60, 61], TK_LE), ([126, 61], TK_NE),
    ([60, 60], TK_SHL), ([62, 62], TK_SHR), ([58, 58], TK_DBCOLON)]

/-- A lexeme in front of a rest: its token and its line breaks. -/
inductive Lexeme : Bytes → Token → Bytes → Nat → Prop
  | word {b : UInt8} {s : Bytes} (rest : Bytes) : lislalpha b = true → (∀ c ∈ s, lislalnum c = true) →
      Lexeme (b :: (s ++ rest)) (wordToken (b :: s)) rest 0
  | decimal {ds : Bytes} (rest : Bytes) : ds ≠ [] → (∀ d ∈ ds, lisdigit d = true) → digits 10 decDigit 0 ds < 2 ^ 63 →
      Lexeme (ds ++ rest) ⟨TK_INT, .i (.ofNat (digits 10 decDigit 0 ds))⟩ rest 0
  | string (q : Quote) {src rest : Bytes} {ps : List Piece} : Literal q.byte src ps rest → checks [] ps = true →
      Lexeme (q.byte :: src) ⟨TK_STRING, .ts (value ps)⟩ rest (lines ps)
  | long (level : Nat) {src text rest : Bytes} : splitClosing level src = some (text, rest) →
      Utf8.valid (unixLines (dropFirstLine text)) = true →
      Lexeme (91 :: (List.replicate level 61 ++ 91 :: src)) ⟨TK_STRING, .ts (unixLines (dropFirstLine text))⟩ rest
        (lineBreaks text)
  | symbol {text : Bytes} {token : Nat} (rest : Bytes) : (text, token) ∈ symbols →
      Lexeme (text ++ rest) (.plain token) rest 0

theorem Spaced.current {rest : Bytes} (h : Spaced rest) {p : UInt8 → Bool} (hp : ∀ b, lisspace b = true → p b = false)
    (n : Nat) (buf : Bytes) : LexState.current ⟨rest, n, buf⟩ p = false := by
  cases rest with
  | nil => rfl
  | cons b rest => exact hp b (h b rfl)

theorem lisspace_cases {b : UInt8} (h : lisspace b = true) : b = 9 ∨ b = 10 ∨ b = 12 ∨ b = 13 ∨ b = 32 := by
  simp only [lisspace, Bool.or_eq_true, decide_eq_true_eq] at h
  rcases h with (((rfl | rfl) | rfl) | rfl) | rfl <;> simp

theorem lislalnum_of_lisspace {b : UInt8} (h : lisspace b = true) : lislalnum b = false := by
  rcases lisspace_cases h with rfl | rfl | rfl | rfl | rfl <;> rfl

theorem ne_of_lisspace {c : UInt8} (hc : lisspace c = false) (b : UInt8) (h : lisspace b = true) :
    decide (b = c) = false :=
  decide_eq_false fun heq => by rw [heq, hc] at h; cases h

section

variable (parse : Bytes → Option F64) {rest : Bytes} {line : Nat}

theorem nameLoop_eq {s : Bytes} (hs : ∀ c ∈ s, lislalnum c = true) (hrest : Spaced rest) {fuel : Nat}
    (hfuel : s.length < fuel) (n : Nat) (buf : Bytes) :
    nameLoop fuel ⟨s ++ rest, n, buf⟩ = .ok ⟨rest, n, buf ++ s⟩ := by
  induction s generalizing fuel buf with
  | nil =>
    obtain ⟨fuel, rfl⟩ : ∃ k, fuel = k + 1 := ⟨fuel - 1, by simp at hfuel; omega⟩
    rw [nameLoop, List.nil_append, hrest.current (fun _ => lislalnum_of_lisspace), List.append_nil]
    rfl
  | cons c s ih =>
    obtain ⟨fuel, rfl⟩ : ∃ k, fuel = k + 1 := ⟨fuel - 1, by simp at hfuel; omega⟩
    have hcur : LexState.current ⟨c :: s ++ rest, n, buf⟩ lislalnum = true := hs c List.mem_cons_self
    rw [nameLoop, if_pos hcur]
    simp only [List.cons_append, LexState.saveNext, Stop.ok_bind]
    rw [ih (fun c hc => hs c (List.mem_cons_of_mem _ hc)) (by simpa using hfuel), List.append_assoc]
    rfl

theorem name_eq {b : UInt8} {s : Bytes} (hs : ∀ c ∈ s, lislalnum c = true) (hrest : Spaced rest) :
    name ⟨b :: (s ++ rest), line, []⟩ = .ok (wordToken (b :: s), ⟨rest, line, b :: s⟩) := by
  simp only [name, LexState.saveNext, Stop.ok_bind, List.nil_append]
  rw [nameLoop_eq hs hrest (by rw [List.length_append]; omega)]
  rfl

/-- Digits with white space behind them are read as a numeral. -/
theorem readNumeralLoop_digits {s : Bytes} (hs : ∀ d ∈ s, lisdigit d = true) (hrest : Spaced rest) {fuel : Nat}
    (hfuel : s.length < fuel) (n : Nat) (buf : Bytes) :
    readNumeralLoop (69, 101) fuel ⟨s ++ rest, n, buf⟩ = .ok ⟨rest, n, buf ++ s⟩ := by
  induction s generalizing fuel buf with
  | nil =>
    obtain ⟨fuel, rfl⟩ : ∃ k, fuel = k + 1 := ⟨fuel - 1, by simp at hfuel; omega⟩
    have hexpo := hrest.current (p := fun b => b = 69 || b = 101) (fun b hb => by
      rcases lisspace_cases hb with rfl | rfl | rfl | rfl | rfl <;> rfl) n buf
    have hcur := hrest.current (p := fun b => lisxdigit b || b = 46) (fun b hb => by
      rcases lisspace_cases hb with rfl | rfl | rfl | rfl | rfl <;> rfl) n buf
    rw [readNumeralLoop, checkNext2, List.nil_append, hexpo]
    simp only [Bool.false_eq_true, if_false, Stop.ok_bind, hcur, List.append_nil]
    rfl
  | cons d s ih =>
    obtain ⟨fuel, rfl⟩ : ∃ k, fuel = k + 1 := ⟨fuel - 1, by simp at hfuel; omega⟩
    have hd := hs d List.mem_cons_self
    have hplain : Plain d := .inl hd
    have hle := hplain.toNat
    have hexpo : LexState.current ⟨d :: s ++ rest, n, buf⟩ (fun b => b = (69 : UInt8) || b = 101) = false := by
      simp only [LexState.current, List.cons_append, List.head?_cons, Option.any_some, Bool.or_eq_false_iff,
        decide_eq_false_iff_not]
      exact ⟨fun h => absurd hle (by rw [h]; decide), fun h => absurd hle (by rw [h]; decide)⟩
    have hcur : LexState.current ⟨d :: s ++ rest, n, buf⟩ (fun b => lisxdigit b || b = 46) = true := by
      simp [LexState.current, lisxdigit, hd]
    rw [readNumeralLoop, checkNext2, hexpo]
    simp only [Bool.false_eq_true, if_false, Stop.ok_bind, hcur, if_true]
    simp only [List.cons_append, LexState.saveNext, Stop.ok_bind]
    rw [ih (fun c hc => hs c (List.mem_cons_of_mem _ hc)) (by simpa using hfuel), List.append_assoc]
    rfl

theorem numeral_digits {ds : Bytes} (hne : ds ≠ []) (hds : ∀ d ∈ ds, lisdigit d = true)
    (hfits : digits 10 decDigit 0 ds < 2 ^ 63) (hrest : Spaced rest) :
    numeral parse ⟨ds ++ rest, line, []⟩ =
      .ok (⟨TK_INT, .i (.ofNat (digits 10 decDigit 0 ds))⟩, ⟨rest, line, ds ++ [0]⟩) := by
  have hvalue : luaO_str2num parse ds = some (.int (.ofNat (digits 10 decDigit 0 ds))) := by
    have h := lStr2int_digits hne hds (s := []) (fun b hb => by cases hb)
    rw [List.append_nil, if_pos hfits] at h
    rw [luaO_str2num, h]
    rfl
  have hzero : ∀ d ∈ ds, decide (d ≠ 0) = true := by
    intro d hd
    have hle := (show Plain d from .inl (hds d hd)).toNat
    rw [decide_eq_true_eq]
    exact fun h => absurd hle (by rw [h]; decide)
  have hbuf : (ds ++ [0]).takeWhile (fun c => decide (c ≠ 0)) = ds := by
    rw [List.takeWhile_append_of_pos hzero]
    simp
  obtain ⟨d, ds, rfl⟩ := List.exists_cons_of_ne_nil hne
  have hds' : ∀ c ∈ ds, lisdigit c = true := fun c hc => hds c (List.mem_cons_of_mem _ hc)
  have hhex (zero : Bool) : checkHex zero ⟨ds ++ rest, line, [d]⟩ = .ok (false, ⟨ds ++ rest, line, [d]⟩) := by
    cases zero with
    | false => rfl
    | true =>
      refine (if_pos rfl).trans (if_neg ?_)
      cases ds with
      | nil =>
        rw [List.nil_append, hrest.current fun b hb => ?_]
        · exact Bool.false_ne_true
        · rcases lisspace_cases hb with rfl | rfl | rfl | rfl | rfl <;> rfl
      | cons c ds =>
        have hle := (show Plain c from .inl (hds' c List.mem_cons_self)).toNat
        simp only [LexState.current, List.cons_append, List.head?_cons, Option.any_some, Bool.or_eq_true,
          decide_eq_true_eq]
        rintro (rfl | rfl) <;> exact absurd hle (by decide)
  have halpha : saveAlpha ⟨rest, line, [d] ++ ds⟩ = .ok ⟨rest, line, [d] ++ ds⟩ :=
    if_neg (by
      rw [hrest.current fun b hb => ?_]
      · exact Bool.false_ne_true
      · rcases lisspace_cases hb with rfl | rfl | rfl | rfl | rfl <;> rfl)
  have hend : endNumeral parse ⟨rest, line, [d] ++ ds⟩ =
      .ok (.int (.ofNat (digits 10 decDigit 0 (d :: ds))), ⟨rest, line, d :: ds ++ [0]⟩) := by
    rw [endNumeral, LexState.save, List.singleton_append, hbuf, hvalue]
  simp only [numeral, readNumeral, List.cons_append, LexState.saveNext, Stop.ok_bind, List.nil_append, hhex,
    Bool.false_eq_true, if_false]
  rw [readNumeralLoop_digits hds' hrest (by rw [List.length_append]; omega), Stop.ok_bind, halpha, Stop.ok_bind, hend]
  rfl

theorem checkNext1_self (c : UInt8) (s buf : Bytes) :
    checkNext1 ⟨c :: s, line, buf⟩ c = .ok (true, ⟨s, line, buf⟩) := by
  have hcur : LexState.current ⟨c :: s, line, buf⟩ (fun b => decide (b = c)) = true := decide_eq_true rfl
  rw [checkNext1, if_pos hcur]
  rfl

theorem checkNext1_spaced (line : Nat) (hrest : Spaced rest) {c : UInt8} (hc : lisspace c = false) (buf : Bytes) :
    checkNext1 ⟨rest, line, buf⟩ c = .ok (false, ⟨rest, line, buf⟩) :=
  if_neg (by rw [hrest.current (ne_of_lisspace hc)]; exact Bool.false_ne_true)

theorem checkNext1_other (line : Nat) {b c : UInt8} (hne : b ≠ c) (s buf : Bytes) :
    checkNext1 ⟨b :: s, line, buf⟩ c = .ok (false, ⟨b :: s, line, buf⟩) :=
  if_neg (by simpa [LexState.current] using hne)

theorem bracket_spaced (hrest : Spaced rest) :
    bracket ⟨91 :: rest, line, []⟩ = .ok (.plain 91, ⟨rest, line, [91]⟩) := by
  have hhead : rest.dropWhile (· = 61) = rest ∧ rest.takeWhile (· = 61) = [] := by
    cases rest with
    | nil => exact ⟨rfl, rfl⟩
    | cons b rest =>
      have := ne_of_lisspace (c := 61) rfl b (hrest b rfl)
      simp [this]
  have hopen : rest.head? ≠ some 91 := by
    intro hb
    have := hrest 91 hb
    cases this
  rw [bracket, skipSep_eq, hhead.1, hhead.2, if_neg hopen]
  rfl

theorem first_symbol_map (line : Nat) {text : Bytes} {token : Nat} (h : (text, token) ∈ symbols) (hrest : Spaced rest) :
    (first parse ⟨text ++ rest, line, []⟩).map (fun r => (r.1, r.2.src, r.2.linenumber)) =
      .ok (.plain token, rest, line) := by
  have hdigit (buf : Bytes) : LexState.current ⟨rest, line, buf⟩ lisdigit = false :=
    hrest.current (fun b hb => (lisdigit_of_lisspace hb).1) line buf
  have hspaced (c : UInt8) (hc : lisspace c = false) (buf : Bytes) := checkNext1_spaced line hrest hc buf
  have hequal := hspaced 61 rfl
  have hdot := hspaced 46 rfl
  have hslash := hspaced 47 rfl
  have hcolon := hspaced 58 rfl
  have hless := hspaced 60 rfl
  have hmore := hspaced 62 rfl
  have hless' := checkNext1_other line (show (60 : UInt8) ≠ 61 by decide)
  have hmore' := checkNext1_other line (show (62 : UInt8) ≠ 61 by decide)
  simp only [symbols, List.mem_cons, List.not_mem_nil, or_false, Prod.mk.injEq] at h
  rcases h with h | h | h | h | h | h | h | h | h | h | h | h | h | h | h | h | h | h | h | h | h | h | h | h | h | h |
    h | h | h | h | h | h | h
  all_goals
    obtain ⟨rfl, rfl⟩ := h
    simp +decide only [first, scan, pair, angle, dot, List.cons_append, List.nil_append, LexState.next,
      LexState.saveNext, Stop.ok_bind, checkNext1_self, hequal, hdot, hslash, hcolon, hless, hmore, hless', hmore',
      hdigit, bracket_spaced hrest, if_true, if_false, Bool.false_eq_true]
    rfl

theorem first_symbol {text : Bytes} {token : Nat} (h : (text, token) ∈ symbols) (hrest : Spaced rest) :
    ∃ buf, first parse ⟨text ++ rest, line, []⟩ = .ok (.plain token, ⟨rest, line, buf⟩) := by
  have hmap := first_symbol_map parse line h hrest
  cases hfirst : first parse ⟨text ++ rest, line, []⟩ with
  | error e =>
    rw [hfirst] at hmap
    cases hmap
  | ok r =>
    rw [hfirst] at hmap
    obtain ⟨htoken, hsrc⟩ := Prod.mk.inj (Except.ok.inj hmap)
    obtain ⟨rfl, rfl⟩ := Prod.mk.inj hsrc
    exact ⟨r.2.buf, congrArg Except.ok (Prod.ext htoken rfl)⟩

theorem readString_literal {q : Quote} {src : Bytes} {ps : List Piece} (hlit : Literal q.byte src ps rest)
    (hchecks : checks [] ps = true) (hline : line + lines ps ≤ maxLine) :
    ∃ buf, readString q.byte ⟨q.byte :: src, line, []⟩ = .ok (value ps, ⟨rest, line + lines ps, buf⟩) := by
  obtain ⟨off', h, hv⟩ :=
    (readStringLoop_eq_ok q.byte_ne.1 (Nat.lt_succ_self src.length) (show line ≤ maxLine by omega) (by simp)).mpr
      ⟨ps, rest, hlit, show checks ([q.byte].drop 1) ps = true from hchecks, hline, rfl⟩
  simp only [readString, Rust.bind_eq_ok, saveNext_eq_ok, Prod.exists, checkUtf8_eq_ok, exists_const, pure_eq_ok,
    Prod.mk.injEq, List.nil_append]
  exact ⟨_, _, ⟨q.byte, src, rfl, rfl⟩, _, off', h, hv, _, ⟨q.byte, rest, rfl, rfl⟩, by simp, rfl⟩

/-- A lexeme is read as its token. -/
theorem Lexeme.reads {src : Bytes} {t : Token} {k : Nat} (h : Lexeme src t rest k) (hrest : Spaced rest)
    (hline : line + k ≤ maxLine) : ∃ buf, first parse ⟨src, line, []⟩ = .ok (t, ⟨rest, line + k, buf⟩) := by
  cases h with
  | @word b s _ hb hs =>
    have hscan : first parse ⟨b :: (s ++ rest), line, []⟩ = name ⟨b :: (s ++ rest), line, []⟩ := by
      have hne (c : UInt8) (hc : lislalpha c = false) : b ≠ c := fun heq => by rw [heq, hc] at hb; cases hb
      have hdigit : lisdigit b = false := by
        simp only [lislalpha, lisdigit, Bool.or_eq_true, Bool.and_eq_true, decide_eq_true_eq] at hb ⊢
        rw [Bool.and_eq_false_iff, decide_eq_false_iff_not, decide_eq_false_iff_not]
        rcases hb with (hb | rfl) | hb
        · omega
        · decide
        · omega
      simp only [first, scan, hne 45 rfl, hne 91 rfl, hne 61 rfl, hne 60 rfl, hne 62 rfl, hne 47 rfl, hne 126 rfl,
        hne 58 rfl, hne 34 rfl, hne 39 rfl, hne 46 rfl, hdigit, hb, if_true, if_false, or_self, Bool.false_eq_true]
    exact ⟨_, hscan.trans (name_eq hs hrest)⟩
  | @decimal ds _ hne hds hfits =>
    refine ⟨ds ++ [0], ?_⟩
    rw [← numeral_digits parse hne hds hfits hrest]
    obtain ⟨d, ds, rfl⟩ := List.exists_cons_of_ne_nil hne
    have hd := hds d List.mem_cons_self
    have hne (c : UInt8) (hc : lisdigit c = false) : d ≠ c := fun heq => by rw [heq, hc] at hd; cases hd
    simp only [first, scan, List.cons_append, hne 45 rfl, hne 91 rfl, hne 61 rfl, hne 60 rfl, hne 62 rfl, hne 47 rfl,
      hne 126 rfl, hne 58 rfl, hne 34 rfl, hne 39 rfl, hne 46 rfl, hd, if_true, if_false, or_self]
    rfl
  | @string q src _ ps hlit hchecks =>
    obtain ⟨buf, hread⟩ := readString_literal hlit hchecks hline
    refine ⟨buf, ?_⟩
    cases q <;> simp +decide only [first, scan, Quote.byte, if_true, if_false] at hread ⊢ <;> rw [hread] <;> rfl
  | @long level src text _ hsplit hv =>
    obtain ⟨ls, hread, rfl, hlines⟩ : ∃ ls, readLongString "string" (level + 2) (.atBracket level src line) =
        .ok (unixLines (dropFirstLine text), ls) ∧ ls.src = rest ∧ ls.linenumber = line + lineBreaks text :=
      (readLongString_eq_ok (show line ≤ maxLine by omega)).mpr ⟨text, hsplit, hv, hline, rfl, rfl⟩
    refine ⟨ls.buf, ?_⟩
    have hbracket : first parse ⟨91 :: (List.replicate level 61 ++ 91 :: src), line, []⟩ =
        bracket ⟨91 :: (List.replicate level 61 ++ 91 :: src), line, []⟩ := rfl
    rw [hbracket, bracket, skipSep_eq, (takeWhile_level level src).1, (takeWhile_level level src).2,
      if_pos (show (91 :: src).head? = some 91 from rfl), List.length_replicate, Stop.ok_bind]
    simp only [Nat.le_add_left, if_true, List.nil_append]
    rw [← LexState.atBracket, hread, ← hlines]
    rfl
  | symbol _ h => exact first_symbol parse h hrest

end

theorem Literal.length_lt {del : UInt8} {src rest : Bytes} {ps : List Piece} (h : Literal del src ps rest) :
    rest.length < src.length := by
  induction h with
  | close => exact Nat.lt_succ_self _
  | char _ _ _ _ ih => exact Nat.lt_succ_of_lt ih
  | esc he _ ih =>
    have := (escape_bound he).1
    rw [List.length_cons]
    omega

theorem symbols_spec : ∀ p ∈ symbols, p.2 ≠ TK_EOS ∧ p.1 ≠ [] ∧ p.1.head?.all (!lisspace ·) = true ∧
    (p.1.head? = some 45 → p.1 = [45]) := by decide

theorem Lexeme.starts {src rest : Bytes} {t : Token} {k : Nat} (h : Lexeme src t rest k) (hrest : Spaced rest) :
    Starts src ∧ rest.length < src.length ∧ t.token ≠ TK_EOS := by
  have key {b : UInt8} {s : Bytes} (hb : lisspace b = false) (hminus : b = 45 → s.head? ≠ some 45) :
      Starts (b :: s) := by
    refine ⟨fun c hc => ?_, fun u hu => ?_⟩
    · obtain rfl := Option.some.inj hc
      simp only [lisspace, isNewline, isBlank, Bool.or_eq_false_iff] at hb ⊢
      simp [hb]
    · obtain ⟨rfl, rfl⟩ := List.cons.inj hu
      exact hminus rfl rfl
  have hne {b c : UInt8} {p : UInt8 → Bool} (hb : p b = true) (hc : p c = false) : b ≠ c := fun heq => by
    rw [heq, hc] at hb
    cases hb
  have hshorter {text : Bytes} (htext : text ≠ []) : rest.length < (text ++ rest).length := by
    rw [List.length_append]
    exact Nat.lt_add_of_pos_left (List.length_pos_iff.mpr htext)
  cases h with
  | @word b s _ hb hs =>
    have hb' : lislalnum b = true := by rw [lislalnum, hb, Bool.true_or]
    refine ⟨key ?_ fun h => absurd h (hne hb rfl), hshorter (List.cons_ne_nil b s), ?_⟩
    · by_contra hspace
      rw [lislalnum_of_lisspace (Bool.eq_true_of_not_eq_false hspace)] at hb'
      cases hb'
    · unfold wordToken
      split
      · rename_i i hi
        have := (List.idxOf?_eq_some_iff.mp hi).1
        simp only [List.length_map, reserved, List.length_cons, List.length_nil] at this
        simp only [TK_EOS]
        omega
      · exact (show TK_NAME ≠ TK_EOS by decide)
  | @decimal ds _ hds hdigit _ =>
    obtain ⟨d, ds, rfl⟩ := List.exists_cons_of_ne_nil hds
    have hd := hdigit d List.mem_cons_self
    exact ⟨key (lisspace_of_digit hd) fun h => absurd h (hne hd rfl), hshorter hds,
      show TK_INT ≠ TK_EOS by decide⟩
  | @string q src _ ps hlit _ =>
    refine ⟨?_, Nat.lt_succ_of_lt hlit.length_lt, show TK_STRING ≠ TK_EOS by decide⟩
    cases q <;> exact key rfl fun h => absurd h (by decide)
  | @long level src text _ hsplit _ =>
    refine ⟨key rfl fun h => absurd h (by decide), ?_, show TK_STRING ≠ TK_EOS by decide⟩
    rw [(splitClosing_first hsplit).1]
    simp only [List.length_cons, List.length_append]
    omega
  | @symbol text token _ hmem =>
    obtain ⟨htoken, hne, hhead, hminus⟩ := symbols_spec _ hmem
    obtain ⟨b, s, rfl⟩ := List.exists_cons_of_ne_nil hne
    refine ⟨key (by simpa using hhead) fun h => ?_, hshorter hne, htoken⟩
    rw [h] at hminus
    rw [(List.cons.inj (hminus rfl)).2]
    intro hhead
    have := hrest 45 hhead
    cases this

/-- A source of lexemes: white space is behind each, and any white space and comments before. -/
inductive Program : Bytes → List Token → Nat → Prop
  | nil {src : Bytes} {n : Nat} : Gap src [] n → Program src [] n
  | cons {src mid rest : Bytes} {t : Token} {ts : List Token} {n k m : Nat} : Gap src mid n → Lexeme mid t rest k →
      Spaced rest → Program rest ts m → Program src (t :: ts) (n + k + m)

theorem Gap.length_le {src rest : Bytes} {n : Nat} (h : Gap src rest n) : rest.length ≤ src.length := by
  induction h with
  | nil => exact Nat.le_refl _
  | blank _ _ ih => exact Nat.le_succ_of_le ih
  | @newline b src _ _ _ _ ih =>
    rw [List.length_drop] at ih
    omega
  | comment hc _ ih =>
    have := hc.length_le
    simp only [List.length_cons]
    omega

section

variable (parse : Bytes → Option F64)

/-- The tokens up to the end of the source, and the last line. -/
def tokens : Nat → LexState → Except Stop (List Token × Nat)
  | 0, _ => .error .fuel
  | fuel + 1, ls => do
    let (t, ls) ← llex parse ls
    if t.token = TK_EOS then return ([], ls.linenumber)
    else
      let (ts, line) ← tokens fuel ls
      return (t :: ts, line)

theorem starts_nil : Starts [] := ⟨fun b hb => (by cases hb), fun s hs => (by cases hs)⟩

/-- A program is what is left to read, and its lines can be counted. -/
def Left (ls : LexState) (ts : List Token) : Prop := ∃ n, Program ls.src ts n ∧ ls.linenumber + n ≤ maxLine

/-- A call of `llex` reads the first token that is left; behind the last one it reads the end of the source, again and
again. -/
theorem llex_left {ls : LexState} {ts : List Token} (h : Left ls ts) : ∃ t ls', llex parse ls = .ok (t, ls') ∧
    (ts = [] ∧ t = .plain TK_EOS ∧ Left ls' [] ∨ ∃ ts', ts = t :: ts' ∧ t.token ≠ TK_EOS ∧ Left ls' ts') := by
  obtain ⟨n, hprog, hline⟩ := h
  cases hprog with
  | nil hgap =>
    exact ⟨.plain TK_EOS, ⟨[], ls.linenumber + n, []⟩,
      (llexLoop_eq_ok parse (Nat.lt_succ_self _) (show ls.linenumber ≤ maxLine by omega)).mpr
        ⟨[], n, hgap, starts_nil, hline, rfl⟩, .inl ⟨rfl, rfl, 0, .nil (.nil []), hline⟩⟩
  | @cons _ mid rest t ts n k m hgap hlex hrest hprog =>
    obtain ⟨hstarts, -, hne⟩ := hlex.starts hrest
    obtain ⟨buf, hfirst⟩ := hlex.reads parse hrest (show ls.linenumber + n + k ≤ maxLine by omega)
    exact ⟨t, ⟨rest, ls.linenumber + n + k, buf⟩,
      (llexLoop_eq_ok parse (Nat.lt_succ_self _) (show ls.linenumber ≤ maxLine by omega)).mpr
        ⟨mid, n, hgap, hstarts, by omega, hfirst⟩, .inr ⟨ts, rfl, hne, m, hprog, by simp only; omega⟩⟩

/-- A program is read as its tokens, and `linenumber` counts every line break of it. -/
theorem tokens_program {src : Bytes} {ts : List Token} {n : Nat} (h : Program src ts n) {fuel line : Nat}
    (hfuel : src.length < fuel) (hline : line + n ≤ maxLine) (buf : Bytes) :
    tokens parse fuel ⟨src, line, buf⟩ = .ok (ts, line + n) := by
  induction h generalizing fuel line buf with
  | @nil src n hgap =>
    obtain ⟨fuel, rfl⟩ : ∃ k, fuel = k + 1 := ⟨fuel - 1, by omega⟩
    have hlex : llex parse ⟨src, line, buf⟩ = .ok (.plain TK_EOS, ⟨[], line + n, []⟩) :=
      (llexLoop_eq_ok parse (Nat.lt_succ_self _) (show line ≤ maxLine by omega)).mpr
        ⟨[], n, hgap, starts_nil, hline, rfl⟩
    rw [tokens, hlex]
    rfl
  | @cons src mid rest t ts n k m hgap hlex hrest _ ih =>
    obtain ⟨fuel, rfl⟩ : ∃ k, fuel = k + 1 := ⟨fuel - 1, by omega⟩
    obtain ⟨hstarts, hlen, hne⟩ := hlex.starts hrest
    obtain ⟨buf', hfirst⟩ := hlex.reads parse hrest (show line + n + k ≤ maxLine by omega)
    have hcall : llex parse ⟨src, line, buf⟩ = .ok (t, ⟨rest, line + n + k, buf'⟩) :=
      (llexLoop_eq_ok parse (Nat.lt_succ_self _) (show line ≤ maxLine by omega)).mpr
        ⟨mid, n, hgap, hstarts, by omega, hfirst⟩
    have hgaplen := hgap.length_le
    have hnext := ih (show rest.length < fuel by omega) (show line + n + k + m ≤ maxLine by omega) buf'
    rw [tokens, hcall, Stop.ok_bind]
    simp only [hne, if_false]
    rw [hnext, Stop.ok_bind]
    simp only [Nat.add_assoc]
    rfl

/-- `x + --h`, and `2` on the next line. -/
theorem program_sum : Program [120, 32, 43, 32, 45, 45, 104, 10, 50]
    [wordToken [120], .plain 43, ⟨TK_INT, .i (.ofNat 2)⟩] 1 := by
  have hspace (s : Bytes) : Spaced (32 :: s) := fun b hb => Option.some.inj hb ▸ rfl
  have hshort : Comment [104, 10, 50] [10, 50] 0 := @Comment.short [104] [10, 50]
    (fun level s h => absurd (List.cons.inj h).1 (by decide)) (List.forall_mem_singleton.mpr rfl)
    (fun b hb => Option.some.inj hb ▸ rfl) (by decide)
  have hnumber : Lexeme [50] ⟨TK_INT, .i (.ofNat 2)⟩ [] 0 :=
    @Lexeme.decimal [50] [] (by decide) (List.forall_mem_singleton.mpr rfl) (by decide)
  have htwo : Program [32, 45, 45, 104, 10, 50] [⟨TK_INT, .i (.ofNat 2)⟩] 1 :=
    .cons (.blank rfl (.comment hshort (.newline rfl (.nil [50])))) hnumber (fun b hb => by cases hb)
      (.nil (.nil []))
  have hplus : Program [32, 43, 32, 45, 45, 104, 10, 50] [.plain 43, ⟨TK_INT, .i (.ofNat 2)⟩] 1 :=
    .cons (.blank rfl (.nil _)) (@Lexeme.symbol [43] 43 [32, 45, 45, 104, 10, 50] (by decide)) (hspace _) htwo
  have hword : Lexeme [120, 32, 43, 32, 45, 45, 104, 10, 50] (wordToken [120]) [32, 43, 32, 45, 45, 104, 10, 50] 0 :=
    @Lexeme.word 120 [] [32, 43, 32, 45, 45, 104, 10, 50] rfl (by simp)
  exact .cons (.nil _) hword (hspace _) hplus

theorem tokens_program_sum : tokens (fun _ => none) 10 ⟨[120, 32, 43, 32, 45, 45, 104, 10, 50], 1, []⟩ =
    .ok ([wordToken [120], .plain 43, ⟨TK_INT, .i (.ofNat 2)⟩], 2) :=
  tokens_program _ program_sum (by decide) (by decide) []

/-- The part of the lexer state that holds tokens. -/
structure Scanner where
  ls : LexState
  lastline : Nat
  t : Token
  lookahead : Token

def luaX_setinput (src : Bytes) : Scanner := ⟨⟨src, 1, []⟩, 1, .plain 0, .plain TK_EOS⟩

def luaX_next (sc : Scanner) : Except Stop Scanner :=
  let sc := { sc with lastline := sc.ls.linenumber }
  if sc.lookahead.token ≠ TK_EOS then
    .ok { sc with t := sc.lookahead, lookahead := { sc.lookahead with token := TK_EOS } }
  else do
    let (t, ls) ← llex parse sc.ls
    return { sc with t, ls }

def luaX_lookahead (sc : Scanner) : Except Stop Scanner := do
  let (lookahead, ls) ← llex parse sc.ls
  return { sc with lookahead, ls }

/-- Calls of the parser with the tokens that `luaX_next` returns. It looks ahead by one token at most. -/
inductive Calls : Scanner → List Token → Scanner → Prop
  | nil (sc : Scanner) : Calls sc [] sc
  | next {sc sc' sc'' : Scanner} {ts : List Token} : luaX_next parse sc = .ok sc' → Calls sc' ts sc'' →
      Calls sc (sc'.t :: ts) sc''
  | lookahead {sc sc' sc'' : Scanner} {ts : List Token} : sc.lookahead.token = TK_EOS →
      luaX_lookahead parse sc = .ok sc' → Calls sc' ts sc'' → Calls sc ts sc''

/-- The tokens that `luaX_next` still has to return. -/
def Scanner.Ahead (sc : Scanner) (ts : List Token) : Prop :=
  sc.lookahead.token = TK_EOS ∧ Left sc.ls ts ∨
    sc.lookahead.token ≠ TK_EOS ∧ ∃ ts', ts = sc.lookahead :: ts' ∧ Left sc.ls ts'

theorem Scanner.Ahead.next {sc : Scanner} {ts : List Token} (h : sc.Ahead ts) : ∃ sc', luaX_next parse sc = .ok sc' ∧
    (ts = [] ∧ sc'.t = .plain TK_EOS ∧ sc'.Ahead [] ∨ ∃ ts', ts = sc'.t :: ts' ∧ sc'.Ahead ts') := by
  rcases h with ⟨heos, hleft⟩ | ⟨hne, ts', rfl, hleft⟩
  · obtain ⟨t, ls', hlex, hcase⟩ := llex_left parse hleft
    refine ⟨_, by simp only [luaX_next, heos, ne_eq, not_true_eq_false, if_false, hlex, Stop.ok_bind]; rfl, ?_⟩
    rcases hcase with ⟨rfl, rfl, hleft'⟩ | ⟨ts', rfl, -, hleft'⟩
    · exact .inl ⟨rfl, rfl, .inl ⟨heos, hleft'⟩⟩
    · exact .inr ⟨ts', rfl, .inl ⟨heos, hleft'⟩⟩
  · exact ⟨_, if_pos hne, .inr ⟨ts', rfl, .inl ⟨rfl, hleft⟩⟩⟩

theorem Scanner.Ahead.lookahead {sc : Scanner} {ts : List Token} (h : sc.Ahead ts)
    (heos : sc.lookahead.token = TK_EOS) : ∃ sc', luaX_lookahead parse sc = .ok sc' ∧ sc'.Ahead ts := by
  rcases h with ⟨-, hleft⟩ | ⟨hne, -⟩
  · obtain ⟨t, ls', hlex, hcase⟩ := llex_left parse hleft
    refine ⟨_, by simp only [luaX_lookahead, hlex, Stop.ok_bind]; rfl, ?_⟩
    rcases hcase with ⟨rfl, rfl, hleft'⟩ | ⟨ts', rfl, hne, hleft'⟩
    · exact .inl ⟨rfl, hleft'⟩
    · exact .inr ⟨hne, ts', rfl, hleft'⟩
  · exact absurd heos hne

theorem Calls.ahead {sc sc' : Scanner} {us ts : List Token} (h : Calls parse sc us sc') (hts : sc.Ahead ts) :
    us <+: ts ++ List.replicate us.length (.plain TK_EOS) ∧ sc'.Ahead (ts.drop us.length) := by
  induction h generalizing ts with
  | nil sc => exact ⟨List.nil_prefix, hts⟩
  | @next sc sc₁ _ us hnext _ ih =>
    obtain ⟨sc₂, hnext', hcase⟩ := hts.next parse
    obtain rfl := Except.ok.inj (hnext.symm.trans hnext')
    rcases hcase with ⟨rfl, ht, hnil⟩ | ⟨ts', rfl, hts'⟩
    · obtain ⟨hpre, hend⟩ := ih hnil
      rw [List.drop_nil] at hend
      rw [ht, List.nil_append, List.length_cons, List.replicate_succ, List.drop_nil]
      exact ⟨(List.prefix_cons_inj _).mpr hpre, hend⟩
    · obtain ⟨hpre, hend⟩ := ih hts'
      rw [List.cons_append, List.length_cons, List.drop_succ_cons]
      refine ⟨(List.prefix_cons_inj _).mpr (hpre.trans ?_), hend⟩
      refine (List.prefix_append_right_inj _).mpr ?_
      rw [List.replicate_succ']
      exact List.prefix_append _ _
  | lookahead heos hlook _ ih =>
    obtain ⟨sc₂, hlook', hts'⟩ := hts.lookahead parse heos
    obtain rfl := Except.ok.inj (hlook.symm.trans hlook')
    exact ih hts'

/-- However the parser looks ahead, `luaX_next` returns the tokens of the program one after the other, then the end of
the source; and neither call ever fails. -/
theorem luaX_next_program {src : Bytes} {ts : List Token} {n : Nat} (h : Program src ts n) (hline : 1 + n ≤ maxLine)
    {us : List Token} {sc : Scanner} (hcalls : Calls parse (luaX_setinput src) us sc) :
    us <+: ts ++ List.replicate us.length (.plain TK_EOS) ∧ (∃ sc', luaX_next parse sc = .ok sc') ∧
      (sc.lookahead.token = TK_EOS → ∃ sc', luaX_lookahead parse sc = .ok sc') := by
  obtain ⟨hpre, hend⟩ := hcalls.ahead parse (show (luaX_setinput src).Ahead ts from .inl ⟨rfl, n, h, hline⟩)
  obtain ⟨sc', hnext, -⟩ := hend.next parse
  refine ⟨hpre, ⟨sc', hnext⟩, fun heos => ?_⟩
  obtain ⟨sc'', hlook, -⟩ := hend.lookahead parse heos
  exact ⟨sc'', hlook⟩

theorem luaX_next_program_sum : ∃ sc, Calls (fun _ => none) (luaX_setinput [120, 32, 43, 32, 45, 45, 104, 10, 50])
      [wordToken [120]] sc ∧
    [wordToken [120]] <+: [wordToken [120], .plain 43, ⟨TK_INT, .i (.ofNat 2)⟩] ++ List.replicate 1 (.plain TK_EOS) ∧
      (∃ sc', luaX_next (fun _ => none) sc = .ok sc') ∧
      (sc.lookahead.token = TK_EOS → ∃ sc', luaX_lookahead (fun _ => none) sc = .ok sc') := by
  obtain ⟨sc₁, sc₂, hnext, ht, heos, hlook⟩ : ∃ sc₁ sc₂,
      luaX_next (fun _ => none) (luaX_setinput [120, 32, 43, 32, 45, 45, 104, 10, 50]) = .ok sc₁ ∧
        sc₁.t = wordToken [120] ∧ sc₁.lookahead.token = TK_EOS ∧ luaX_lookahead (fun _ => none) sc₁ = .ok sc₂ :=
    ⟨_, _, rfl, rfl, rfl, rfl⟩
  have hcalls := Calls.next hnext (.lookahead heos hlook (.nil sc₂))
  rw [ht] at hcalls
  exact ⟨_, hcalls, luaX_next_program _ program_sum (by decide) hcalls⟩

end

end Tsuki.Lex
