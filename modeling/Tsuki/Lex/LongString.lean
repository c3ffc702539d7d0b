import Tsuki.Lex.StringLiteral

/-!
# Long brackets

`skip_sep` recognises the level of a bracket by consuming it, and `read_long_string` takes every bracket that
is not of its own level as text. So it stops at the first closing bracket of its level.
-/

namespace Tsuki.Lex

/-- The loop of `skip_sep`. -/
def skipSepLoop : Nat → LexState → Nat → Except Stop (Nat × LexState)
  | 0, _, _ => .error .fuel
  | fuel + 1, ls, count =>
    if ls.current (· = 61) then do skipSepLoop fuel (← ls.saveNext) (count + 1) else .ok (count, ls)

/-- `skip_sep`: 2 and more for a bracket, 1 for a lone bracket byte, 0 for anything else. -/
def skipSep (ls : LexState) : Except Stop (Nat × LexState) := do
  let s := ls.src.head?
  let ls ← ls.saveNext
  let (count, ls) ← skipSepLoop (ls.src.length + 1) ls 0
  return (if ls.src.head? = s then count + 2 else if count = 0 then 1 else 0, ls)

/-- `from_utf8` of the buffer from `off` on, in a long bracket: the error names no token. -/
def checkLine (ls : LexState) (off : Nat) : Except Stop Unit :=
  if Utf8.valid (ls.buf.drop off) then .ok () else .error (.error "non-UTF-8 string" .none ls.linenumber)

/-- The end of `read_long_string`, or nothing for a bracket of another level. -/
def closeLong (sep off k : Nat) (ls : LexState) : Except Stop (Option LexState) :=
  if k = sep then do
    let ls ← ls.saveNext
    checkLine ls off
    return some ls
  else return none

/-- The loop of `read_long_string`. -/
def readLongLoop (sep : Nat) (unfinished : String) : Nat → LexState → Nat → Except Stop LexState
  | 0, _, _ => .error .fuel
  | fuel + 1, ls, off =>
    match ls.src with
    | [] => .error (.error unfinished .eos ls.linenumber)
    | b :: _ =>
      if b = 93 then do
        let (k, ls) ← skipSep ls
        match ← closeLong sep off k ls with
        | some ls => return ls
        | none => readLongLoop sep unfinished fuel ls off
      else if isNewline b then do
        checkLine ls off
        let ls ← (ls.save 10).inclinenumber
        readLongLoop sep unfinished fuel ls ls.buf.length
      else do readLongLoop sep unfinished fuel (← ls.saveNext) off

/-- The line break right behind the opening bracket. -/
def skipFirstLine (ls : LexState) : Except Stop LexState :=
  if ls.current isNewline then ls.inclinenumber else .ok ls

/-- `read_long_string`: `ty` is what its error calls the text. -/
def readLongString (ty : String) (sep : Nat) (ls : LexState) : Except Stop (Bytes × LexState) := do
  let line := ls.linenumber
  let ls ← ls.saveNext
  let ls ← skipFirstLine ls
  let ls ← readLongLoop sep s!"unfinished long {ty} (starting at line {line})" (ls.src.length + 1) ls sep
  return ((ls.buf.drop sep).take (ls.buf.length - 2 * sep), ls)

/-! ## The first closing bracket -/

/-- The closing bracket of a level. -/
def closing (level : Nat) : Bytes := 93 :: List.replicate level 61 ++ [93]

/-- A text cut at its first closing bracket of a level. -/
def splitClosing (level : Nat) : Bytes → Option (Bytes × Bytes)
  | [] => none
  | b :: s =>
    if (closing level).isPrefixOf (b :: s) then some ([], (b :: s).drop (level + 2))
    else (splitClosing level s).map fun r => (b :: r.1, r.2)

/-- A text with its line breaks written as `\n`. -/
def unixLines : Bytes → Bytes
  | [] => []
  | [a] => if isNewline a then [10] else [a]
  | a :: b :: s =>
    if isNewline a then if isNewline b ∧ b ≠ a then 10 :: unixLines s else 10 :: unixLines (b :: s)
    else a :: unixLines (b :: s)

/-- The cut is at a closing bracket, and none begins before it. -/
theorem splitClosing_first {level : Nat} {src text rest : Bytes} (h : splitClosing level src = some (text, rest)) :
    src = text ++ closing level ++ rest ∧ ∀ i < text.length, ¬ closing level <+: src.drop i := by
  induction src generalizing text with
  | nil => cases h
  | cons b s ih =>
    rw [splitClosing] at h
    split_ifs at h with hclose
    · obtain ⟨rfl, rfl⟩ := Prod.mk.inj (Option.some.inj h)
      obtain ⟨t, ht⟩ := List.isPrefixOf_iff_prefix.mp hclose
      have hlen : (closing level).length = level + 2 := by simp [closing]
      refine ⟨?_, fun i hi => absurd hi (Nat.not_lt_zero i)⟩
      rw [← ht, ← hlen, List.drop_left, List.nil_append]
    · obtain ⟨⟨text', rest'⟩, hs, heq⟩ := Option.map_eq_some_iff.mp h
      obtain ⟨rfl, rfl⟩ := Prod.mk.inj heq
      obtain ⟨heq, hfirst⟩ := ih hs
      refine ⟨by rw [List.cons_append, List.cons_append, ← heq], fun i hi => ?_⟩
      cases i with
      | zero => exact fun hpre => hclose (List.isPrefixOf_iff_prefix.mpr hpre)
      | succ i => exact hfirst i (Nat.lt_of_succ_lt_succ hi)

theorem skipSepLoop_eq {fuel : Nat} {s : Bytes} (hfuel : s.length < fuel) (n : Nat) (buf : Bytes) (count : Nat) :
    skipSepLoop fuel ⟨s, n, buf⟩ count = .ok (count + (s.takeWhile (· = 61)).length,
      ⟨s.dropWhile (· = 61), n, buf ++ s.takeWhile (· = 61)⟩) := by
  induction s generalizing fuel buf count with
  | nil =>
    obtain ⟨fuel, rfl⟩ : ∃ k, fuel = k + 1 := ⟨fuel - 1, by simp at hfuel; omega⟩
    simp [skipSepLoop, LexState.current]
  | cons b s ih =>
    obtain ⟨fuel, rfl⟩ : ∃ k, fuel = k + 1 := ⟨fuel - 1, by simp at hfuel; omega⟩
    by_cases hb : b = 61
    · subst hb
      have hcur : LexState.current ⟨61 :: s, n, buf⟩ (fun b => b = (61 : UInt8)) = true := rfl
      rw [skipSepLoop, if_pos hcur]
      simp only [LexState.saveNext, bind, Except.bind]
      rw [ih (by simpa using hfuel)]
      simp [Nat.add_assoc, Nat.add_comm 1]
    · simp [skipSepLoop, LexState.current, hb]

theorem skipSep_eq (b : UInt8) (s : Bytes) (n : Nat) (buf : Bytes) :
    skipSep ⟨b :: s, n, buf⟩ = .ok (if (s.dropWhile (· = 61)).head? = some b
      then (s.takeWhile (· = 61)).length + 2 else if (s.takeWhile (· = 61)).length = 0 then 1 else 0,
        ⟨s.dropWhile (· = 61), n, buf ++ b :: s.takeWhile (· = 61)⟩) := by
  simp only [skipSep, LexState.saveNext, bind, Except.bind]
  rw [skipSepLoop_eq (Nat.lt_succ_self _)]
  simp [pure, Except.pure]

theorem closing_isPrefixOf (level : Nat) (s : Bytes) : (closing level).isPrefixOf (93 :: s) = true ↔
    (s.takeWhile (· = 61)).length = level ∧ (s.dropWhile (· = 61)).head? = some 93 := by
  have hcons : (closing level).isPrefixOf (93 :: s) = (List.replicate level (61 : UInt8) ++ [93]).isPrefixOf s := by
    simp [closing]
  rw [hcons]
  clear hcons
  induction level generalizing s with
  | zero =>
    cases s with
    | nil => simp
    | cons b s =>
      by_cases hb : b = 61
      · subst hb
        simp
      · simp [hb, eq_comm (a := (93 : UInt8))]
  | succ level ih =>
    cases s with
    | nil => simp
    | cons b s =>
      by_cases hb : b = 61
      · subst hb
        simpa [List.replicate_succ] using ih s
      · simp [List.replicate_succ, hb, Ne.symm hb]

/-- The bytes that `skip_sep` consumes in vain are text. -/
theorem splitClosing_eqs (level : Nat) (s : Bytes) : splitClosing level s =
    (splitClosing level (s.dropWhile (· = 61))).map fun r => (s.takeWhile (· = 61) ++ r.1, r.2) := by
  induction s with
  | nil => rfl
  | cons b s ih =>
    by_cases hb : b = 61
    · subst hb
      have hnot : (closing level).isPrefixOf (61 :: s) = false := by simp [closing, List.isPrefixOf]
      rw [splitClosing, if_neg (by rw [hnot]; exact Bool.false_ne_true), ih]
      simp [Function.comp_def]
    · simp [hb]

theorem unixLines_cons_of_not {a : UInt8} (ha : isNewline a = false) (s : Bytes) :
    unixLines (a :: s) = a :: unixLines s := by
  cases s with
  | nil => simp [unixLines, ha]
  | cons b s => rw [unixLines, if_neg (by simp [ha])]

/-- The first line break of a text, in both of its readings. -/
theorem newline_cons {a : UInt8} (ha : isNewline a = true) (s : Bytes) :
    unixLines (a :: s) = 10 :: unixLines ((a :: s).drop (newlineLength (a :: s))) ∧
      lineBreaks (a :: s) = lineBreaks ((a :: s).drop (newlineLength (a :: s))) + 1 := by
  cases s with
  | nil => simp [unixLines, lineBreaks, newlineLength, ha]
  | cons b s =>
    rw [unixLines, lineBreaks, newlineLength, if_pos ha, if_pos ha]
    split_ifs <;> exact ⟨rfl, rfl⟩

theorem not_closing_of_ne (level : Nat) {b : UInt8} (hb : b ≠ 93) (s : Bytes) :
    ¬ (closing level).isPrefixOf (b :: s) = true := by
  simp [closing, List.isPrefixOf, Ne.symm hb]

/-- What `splitClosing` cuts off begins like the text, unless it is empty. -/
theorem splitClosing_cons {level : Nat} {b : UInt8} {s text rest : Bytes}
    (h : splitClosing level (b :: s) = some (text, rest)) :
    (text = [] ∧ b = 93) ∨ ∃ text', text = b :: text' ∧ splitClosing level s = some (text', rest) := by
  rw [splitClosing] at h
  split_ifs at h with hclose
  · obtain ⟨rfl, -⟩ := Prod.mk.inj (Option.some.inj h)
    refine .inl ⟨rfl, ?_⟩
    by_contra hb
    exact not_closing_of_ne level hb s hclose
  · obtain ⟨⟨text', rest'⟩, hs, heq⟩ := Option.map_eq_some_iff.mp h
    obtain ⟨rfl, rfl⟩ := Prod.mk.inj heq
    exact .inr ⟨text', rfl, hs⟩

theorem splitClosing_of_ne (level : Nat) {b : UInt8} (hb : b ≠ 93) (s : Bytes) :
    splitClosing level (b :: s) = (splitClosing level s).map fun r => (b :: r.1, r.2) := by
  rw [splitClosing, if_neg (not_closing_of_ne level hb s)]

/-- The text of a long bracket ends before a line break only if that one is not half of another. -/
theorem newlineLength_text {level : Nat} {a : UInt8} {s text rest : Bytes}
    (h : splitClosing level s = some (text, rest)) :
    newlineLength (a :: text) = newlineLength (a :: s) := by
  cases s with
  | nil => cases h
  | cons b s =>
    rcases splitClosing_cons h with ⟨rfl, rfl⟩ | ⟨text', rfl, -⟩
    · have hnot : ¬ (isNewline 93 = true ∧ 93 ≠ a) := fun h => absurd h.1 (by decide)
      rw [newlineLength, newlineLength, if_neg hnot]
    · rfl

theorem splitClosing_newline (level : Nat) {a : UInt8} (ha : isNewline a = true) (s : Bytes) :
    splitClosing level (a :: s) = (splitClosing level ((a :: s).drop (newlineLength (a :: s)))).map fun r =>
      ((a :: s).take (newlineLength (a :: s)) ++ r.1, r.2) := by
  have hne : ∀ {b : UInt8}, isNewline b = true → b ≠ 93 := fun hb h => absurd hb (by rw [h]; decide)
  rw [splitClosing_of_ne level (hne ha)]
  cases s with
  | nil => rfl
  | cons b s =>
    rw [newlineLength]
    split_ifs with hb
    · rw [splitClosing_of_ne level (hne hb.1), Option.map_map]
      rfl
    · rfl

theorem newline_text {level : Nat} {a : UInt8} (ha : isNewline a = true) {s text rest : Bytes}
    (h : splitClosing level ((a :: s).drop (newlineLength (a :: s))) = some (text, rest)) :
    unixLines ((a :: s).take (newlineLength (a :: s)) ++ text) = 10 :: unixLines text ∧
      lineBreaks ((a :: s).take (newlineLength (a :: s)) ++ text) = lineBreaks text + 1 ∧
      ((a :: s).take (newlineLength (a :: s)) ++ text).drop
        (newlineLength ((a :: s).take (newlineLength (a :: s)) ++ text)) = text := by
  have hlen : newlineLength ((a :: s).take (newlineLength (a :: s)) ++ text) = newlineLength (a :: s) := by
    cases s with
    | nil => cases h
    | cons b s =>
      rw [newlineLength] at h ⊢
      split_ifs at h ⊢ with hb
      · exact if_pos hb
      · exact (newlineLength_text (s := b :: s) h).trans (if_neg hb)
  obtain ⟨k, hk⟩ : ∃ k, newlineLength (a :: s) = k + 1 :=
    ⟨newlineLength (a :: s) - 1, by have := one_le_newlineLength a s; omega⟩
  have hcons : (a :: s).take (newlineLength (a :: s)) ++ text = a :: (s.take k ++ text) := by
    rw [hk]
    rfl
  have hdrop : ((a :: s).take (newlineLength (a :: s)) ++ text).drop (newlineLength (a :: s)) = text := by
    refine List.drop_left' ?_
    cases s with
    | nil => rfl
    | cons b s =>
      rw [newlineLength]
      split_ifs <;> rfl
  obtain ⟨hu, hl⟩ := newline_cons ha (s.take k ++ text)
  rw [← hcons, hlen, hdrop] at hu hl
  exact ⟨hu, hl, by rw [hlen, hdrop]⟩

theorem checkLine_eq_ok {ls : LexState} {off : Nat} {u : Unit} :
    checkLine ls off = .ok u ↔ Utf8.valid (ls.buf.drop off) = true := by
  unfold checkLine
  split_ifs with h
  · exact ⟨fun _ => h, fun _ => rfl⟩
  · exact ⟨fun h' => (nomatch h'), fun h' => absurd h' h⟩

theorem closeLong_eq_ok {sep off k : Nat} {ls : LexState} {r : Option LexState} :
    closeLong sep off k ls = .ok r ↔ (k = sep ∧ ∃ b s, ls.src = b :: s ∧
      Utf8.valid ((ls.buf ++ [b]).drop off) = true ∧ r = some ⟨s, ls.linenumber, ls.buf ++ [b]⟩) ∨
        k ≠ sep ∧ r = none := by
  unfold closeLong
  split_ifs with h
  · simp only [Rust.bind_eq_ok, saveNext_eq_ok, checkLine_eq_ok, pure_eq_ok, exists_const, h, true_and, ne_eq,
      not_true_eq_false, false_and, or_false]
    constructor
    · rintro ⟨_, ⟨b, s, hs, rfl⟩, hv, rfl⟩
      exact ⟨b, s, hs, hv, rfl⟩
    · rintro ⟨b, s, hs, hv, rfl⟩
      exact ⟨_, ⟨b, s, hs, rfl⟩, hv, rfl⟩
  · simp [h, pure_eq_ok]

theorem toNat_closing (level : Nat) : ∀ b ∈ closing level, b.toNat < 0x80 := by
  intro b hb
  simp only [closing, List.cons_append, List.mem_cons, List.mem_append, List.mem_replicate] at hb
  rcases hb with rfl | ⟨-, rfl⟩ | rfl | hb
  · decide
  · decide
  · decide
  · cases hb

theorem unixLines_append {s : Bytes} (hs : ∀ b ∈ s, isNewline b = false) (t : Bytes) :
    unixLines (s ++ t) = s ++ unixLines t ∧ lineBreaks (s ++ t) = lineBreaks t := by
  induction s with
  | nil => exact ⟨rfl, rfl⟩
  | cons b s ih =>
    obtain ⟨hu, hl⟩ := ih fun c hc => hs c (List.mem_cons_of_mem _ hc)
    have hb := hs b List.mem_cons_self
    rw [List.cons_append, unixLines_cons_of_not hb, lineBreaks_cons_of_not hb, hu, hl]
    exact ⟨rfl, rfl⟩

/-- The loop ends at the first closing bracket of its level, the text in the buffer. -/
theorem readLongLoop_eq_ok {level fuel : Nat} {src : Bytes} {n : Nat} {buf : Bytes} {off : Nat} {msg : String}
    {ls' : LexState} (hfuel : src.length < fuel) (hn : n ≤ maxLine) (hoff : off ≤ buf.length) :
    readLongLoop (level + 2) msg fuel ⟨src, n, buf⟩ off = .ok ls' ↔
      ∃ text rest, splitClosing level src = some (text, rest) ∧
        Utf8.valid (buf.drop off ++ unixLines text) = true ∧ n + lineBreaks text ≤ maxLine ∧
        ls' = ⟨rest, n + lineBreaks text, buf ++ unixLines text ++ closing level⟩ := by
  induction fuel generalizing src n buf off with
  | zero => omega
  | succ fuel ih =>
    rw [readLongLoop]
    cases src with
    | nil => exact ⟨fun h => (nomatch h), fun ⟨_, _, h, _⟩ => (nomatch h)⟩
    | cons b s =>
      have hlen : s.length < fuel := by simpa using hfuel
      by_cases hbr : b = 93
      · subst hbr
        have heqs : ∀ c ∈ s.takeWhile (· = 61), c = 61 := fun c hc => by simpa using List.mem_takeWhile_imp hc
        have hs : s = s.takeWhile (· = 61) ++ s.dropWhile (· = 61) := List.takeWhile_append_dropWhile.symm
        simp only [if_true, Rust.bind_eq_ok, skipSep_eq, Except.ok.injEq, exists_eq_left']
        by_cases hclose : (closing level).isPrefixOf (93 :: s) = true
        · obtain ⟨hm, ht⟩ := (closing_isPrefixOf level s).mp hclose
          obtain ⟨rest0, hrest⟩ : ∃ rest0, s.dropWhile (· = 61) = 93 :: rest0 := by
            cases hd : s.dropWhile (· = 61) with
            | nil => rw [hd] at ht; cases ht
            | cons c t => rw [hd] at ht; exact ⟨t, by rw [Option.some.inj ht]⟩
          have hrep : s.takeWhile (· = 61) = List.replicate level 61 := List.eq_replicate_iff.mpr ⟨hm, heqs⟩
          have hrest' : (93 :: s).drop (level + 2) = rest0 := by
            rw [List.drop_succ_cons, hs, hrep, hrest, List.drop_append]
            simp
          have hbuf : buf ++ 93 :: s.takeWhile (· = 61) ++ [93] = buf ++ closing level := by
            rw [hrep, closing]
            simp
          have hvalid : Utf8.valid ((buf ++ closing level).drop off) = Utf8.valid (buf.drop off) := by
            rw [List.drop_append_of_le_length hoff, Utf8.valid_append_ascii _ (toNat_closing level)]
          rw [if_pos ht, hm, splitClosing, if_pos hclose, hrest', hrest]
          constructor
          · rintro ⟨r, hr, h⟩
            rcases closeLong_eq_ok.mp hr with ⟨-, c, t, hsrc, hv, rfl⟩ | ⟨hne, -⟩
            · obtain ⟨rfl, rfl⟩ := List.cons.inj hsrc
              simp only [pure_eq_ok] at h
              rw [hbuf, hvalid] at hv
              exact ⟨[], rest0, rfl, by simpa [unixLines] using hv, hn, by rw [h, hbuf]; simp [unixLines, lineBreaks]⟩
            · exact absurd rfl hne
          · rintro ⟨text, rest, heq, hv, -, rfl⟩
            obtain ⟨rfl, rfl⟩ := Prod.mk.inj (Option.some.inj heq)
            refine ⟨_, closeLong_eq_ok.mpr (.inl ⟨rfl, 93, rest0, rfl, ?_, rfl⟩), ?_⟩
            · rw [hbuf, hvalid]
              simpa [unixLines] using hv
            · rw [hbuf]
              simp [unixLines, lineBreaks, pure_eq_ok]
        · have hk : (if (s.dropWhile (· = 61)).head? = some 93 then (s.takeWhile (· = 61)).length + 2
              else if (s.takeWhile (· = 61)).length = 0 then 1 else 0) ≠ level + 2 := by
            split_ifs with ht
            · exact fun h => hclose ((closing_isPrefixOf level s).mpr ⟨by omega, ht⟩)
            · omega
            · omega
          have hrest : (s.dropWhile (· = 61)).length < fuel :=
            Nat.lt_of_le_of_lt (List.dropWhile_sublist (fun b => decide (b = (61 : UInt8)))).length_le hlen
          have hnot : ∀ c ∈ 93 :: s.takeWhile (· = 61), isNewline c = false := by
            intro c hc
            rcases List.mem_cons.mp hc with rfl | hc
            · rfl
            · rw [heqs c hc]
              rfl
          have hoff' : off ≤ (buf ++ 93 :: s.takeWhile (· = 61)).length := Nat.le_trans hoff (by simp)
          have hclosed : ∀ ls r, closeLong (level + 2) off _ ls = .ok r ↔ r = none := fun ls r =>
            closeLong_eq_ok.trans ⟨fun h => h.elim (fun h => absurd h.1 hk) (·.2), fun h => .inr ⟨hk, h⟩⟩
          simp only [hclosed, exists_eq_left]
          rw [ih hrest hn hoff', List.drop_append_of_le_length hoff, splitClosing, if_neg hclose,
            splitClosing_eqs level s, Option.map_map]
          constructor
          · rintro ⟨text, rest, hs, hv, hl, rfl⟩
            obtain ⟨hu, hb⟩ := unixLines_append hnot text
            refine ⟨93 :: s.takeWhile (· = 61) ++ text, rest, by rw [hs]; rfl, ?_, by rwa [hb], ?_⟩
            · rw [hu, ← List.append_assoc]
              exact hv
            · rw [hu, hb]
              simp
          · rintro ⟨_, rest, hs, hv, hl, rfl⟩
            obtain ⟨⟨text, rest'⟩, hs', heq⟩ := Option.map_eq_some_iff.mp hs
            obtain ⟨rfl, rfl⟩ := Prod.mk.inj heq
            obtain ⟨hu, hb⟩ := unixLines_append hnot text
            refine ⟨text, rest', hs', ?_, by rwa [← hb], ?_⟩
            · rw [List.append_assoc, ← hu]
              exact hv
            · rw [List.cons_append] at hu hb
              dsimp only
              rw [hu, hb]
              simp
      by_cases hnl : isNewline b = true
      · have hmid : ((b :: s).drop (newlineLength (b :: s))).length < fuel := by
          have := one_le_newlineLength b s
          rw [List.length_drop, List.length_cons]
          omega
        simp only [if_neg hbr, if_pos hnl, Rust.bind_eq_ok, checkLine_eq_ok, LexState.save,
          LexState.inclinenumber_eq, LexState.countLine_eq_ok, exists_const]
        rw [splitClosing_newline level hnl]
        constructor
        · rintro ⟨hv, _, ⟨hle, rfl⟩, h⟩
          obtain ⟨text, rest, hs, hv', hl, rfl⟩ := (ih hmid hle (Nat.le_refl _)).mp h
          obtain ⟨hu, hb, -⟩ := newline_text hnl hs
          refine ⟨(b :: s).take (newlineLength (b :: s)) ++ text, rest, by rw [hs]; rfl, ?_, ?_, ?_⟩
          · rw [List.drop_length] at hv'
            rw [hu, Utf8.valid_split (by decide), hv, Bool.true_and]
            exact hv'
          · omega
          · rw [hu, hb]
            simp [Nat.add_assoc, Nat.add_comm 1]
        · rintro ⟨_, rest, hs, hv, hl, rfl⟩
          obtain ⟨⟨text, rest'⟩, hs', heq⟩ := Option.map_eq_some_iff.mp hs
          obtain ⟨rfl, rfl⟩ := Prod.mk.inj heq
          obtain ⟨hu, hb, -⟩ := newline_text hnl hs'
          rw [hu, Utf8.valid_split (by decide), Bool.and_eq_true] at hv
          rw [hb] at hl
          refine ⟨hv.1, _, ⟨by omega, rfl⟩, (ih hmid (by omega) (Nat.le_refl _)).mpr
            ⟨text, rest', hs', by rw [List.drop_length]; exact hv.2, by omega, ?_⟩⟩
          dsimp only
          rw [hu, hb]
          simp [Nat.add_assoc, Nat.add_comm 1]
      · simp only [if_neg hbr, if_neg hnl, Rust.bind_eq_ok, LexState.saveNext, Except.ok.injEq, exists_eq_left']
        have hoff' : off ≤ (buf ++ [b]).length := Nat.le_trans hoff (by simp)
        rw [ih hlen hn hoff', List.drop_append_of_le_length hoff, splitClosing_of_ne level hbr]
        constructor
        · rintro ⟨text, rest, hs, hv, hl, rfl⟩
          refine ⟨b :: text, rest, by rw [hs]; rfl, ?_, ?_, ?_⟩
          · rw [unixLines_cons_of_not (Bool.eq_false_iff.mpr hnl)]
            simpa using hv
          · rwa [lineBreaks_cons_of_not (Bool.eq_false_iff.mpr hnl)]
          · rw [unixLines_cons_of_not (Bool.eq_false_iff.mpr hnl), lineBreaks_cons_of_not (Bool.eq_false_iff.mpr hnl)]
            simp
        · rintro ⟨_, rest, hs, hv, hl, rfl⟩
          obtain ⟨⟨text, rest'⟩, hs', heq⟩ := Option.map_eq_some_iff.mp hs
          obtain ⟨rfl, rfl⟩ := Prod.mk.inj heq
          rw [unixLines_cons_of_not (Bool.eq_false_iff.mpr hnl)] at hv
          rw [lineBreaks_cons_of_not (Bool.eq_false_iff.mpr hnl)] at hl
          refine ⟨text, rest', hs', by simpa using hv, hl, ?_⟩
          rw [unixLines_cons_of_not (Bool.eq_false_iff.mpr hnl), lineBreaks_cons_of_not (Bool.eq_false_iff.mpr hnl)]
          simp

/-- The text of a long bracket without a line break right behind the opening bracket. -/
def dropFirstLine (text : Bytes) : Bytes :=
  if text.head?.any isNewline then text.drop (newlineLength text) else text

/-- The state in which `llex` calls `read_long_string`: `skip_sep` has read the opening bracket up to its second
byte. -/
def LexState.atBracket (level : Nat) (src : Bytes) (line : Nat) : LexState :=
  ⟨91 :: src, line, 91 :: List.replicate level 61⟩

/-- `read_long_string` ends at the first closing bracket of the level of the opening one. It returns the text
before it, the first line break dropped and every other written as `\n`, provided that the text is UTF-8 and
its line breaks can be counted. -/
theorem readLongString_eq_ok {ty : String} {level : Nat} {src : Bytes} {line : Nat} (hline : line ≤ maxLine)
    {v rest : Bytes} {line' : Nat} :
    (∃ ls, readLongString ty (level + 2) (.atBracket level src line) = .ok (v, ls) ∧ ls.src = rest ∧
        ls.linenumber = line') ↔
      ∃ text, splitClosing level src = some (text, rest) ∧ Utf8.valid (unixLines (dropFirstLine text)) = true ∧
        line + lineBreaks text ≤ maxLine ∧ line' = line + lineBreaks text ∧
        v = unixLines (dropFirstLine text) := by
  have hopen : (91 :: List.replicate level 61 ++ [91] : Bytes).length = level + 2 := by simp
  have hvalue : ∀ x : Bytes, ((91 :: List.replicate level 61 ++ [91] ++ x ++ closing level : Bytes).drop
      (level + 2)).take ((91 :: List.replicate level 61 ++ [91] ++ x ++ closing level : Bytes).length -
        2 * (level + 2)) = x := by
    intro x
    have hlen : (91 :: List.replicate level 61 ++ [91] ++ x ++ closing level : Bytes).length -
        2 * (level + 2) = x.length := by
      rw [List.length_append, List.length_append, hopen]
      simp [closing]
      omega
    rw [hlen, List.append_assoc, ← hopen, List.drop_left, List.take_left]
  have hdrop : (91 :: List.replicate level 61 ++ [91] : Bytes).drop (level + 2) = [] := by
    rw [← hopen, List.drop_length]
  simp only [readLongString, LexState.atBracket, Rust.bind_eq_ok, LexState.saveNext, Except.ok.injEq,
    exists_eq_left', pure_eq_ok, Prod.mk.injEq]
  by_cases hnl : src.head?.any isNewline = true
  · cases src with
    | nil => cases hnl
    | cons a s =>
      have ha : isNewline a = true := hnl
      have hskip : ∀ buf, skipFirstLine ⟨a :: s, line, buf⟩ = LexState.inclinenumber ⟨a :: s, line, buf⟩ :=
        fun _ => if_pos ha
      have hfirst : ∀ {text rest : Bytes},
          splitClosing level ((a :: s).drop (newlineLength (a :: s))) = some (text, rest) →
          dropFirstLine ((a :: s).take (newlineLength (a :: s)) ++ text) = text := by
        intro text rest h
        have hhead : ((a :: s).take (newlineLength (a :: s)) ++ text).head?.any isNewline = true := by
          obtain ⟨k, hk⟩ : ∃ k, newlineLength (a :: s) = k + 1 :=
            ⟨newlineLength (a :: s) - 1, by have := one_le_newlineLength a s; omega⟩
          rw [hk]
          exact ha
        exact (if_pos hhead).trans (newline_text ha h).2.2
      simp only [hskip, LexState.inclinenumber_eq, LexState.countLine_eq_ok, splitClosing_newline level ha]
      constructor
      · rintro ⟨_, ⟨_, ⟨hle, rfl⟩, _, hloop, rfl, rfl⟩, rfl, rfl⟩
        obtain ⟨text, rest, hs, hv, hl, rfl⟩ :=
          (readLongLoop_eq_ok (Nat.lt_succ_self _) hle (Nat.le_of_eq hopen.symm)).mp hloop
        obtain ⟨-, hb, -⟩ := newline_text ha hs
        refine ⟨(a :: s).take (newlineLength (a :: s)) ++ text, by rw [hs]; rfl, ?_, by omega, by dsimp only; omega, ?_⟩
        · rw [hfirst hs]
          rw [hdrop] at hv
          exact hv
        · rw [hfirst hs, hvalue]
      · rintro ⟨_, hs, hv, hl, rfl, rfl⟩
        obtain ⟨⟨text, rest'⟩, hs', heq⟩ := Option.map_eq_some_iff.mp hs
        obtain ⟨rfl, rfl⟩ := Prod.mk.inj heq
        obtain ⟨-, hb, -⟩ := newline_text ha hs'
        dsimp only at hv hl ⊢
        rw [hfirst hs'] at hv ⊢
        have hle : line + 1 ≤ maxLine := by omega
        refine ⟨_, ⟨_, ⟨hle, rfl⟩, _, (readLongLoop_eq_ok (Nat.lt_succ_self _) hle (Nat.le_of_eq hopen.symm)).mpr
          ⟨text, rest', hs', by rw [hdrop]; exact hv, by omega, rfl⟩, (hvalue _).symm, rfl⟩, rfl, ?_⟩
        dsimp only
        omega
  · have hskip : ∀ buf, skipFirstLine ⟨src, line, buf⟩ = .ok ⟨src, line, buf⟩ := fun _ => if_neg hnl
    have hfirst : ∀ {text rest : Bytes}, splitClosing level src = some (text, rest) → dropFirstLine text = text := by
      intro text rest h
      cases src with
      | nil => cases h
      | cons a s =>
        rcases splitClosing_cons h with ⟨rfl, -⟩ | ⟨text', rfl, -⟩
        · rfl
        · exact if_neg hnl
    simp only [hskip, Except.ok.injEq, exists_eq_left']
    constructor
    · rintro ⟨_, ⟨_, hloop, rfl, rfl⟩, rfl, rfl⟩
      obtain ⟨text, rest, hs, hv, hl, rfl⟩ :=
        (readLongLoop_eq_ok (Nat.lt_succ_self _) hline (Nat.le_of_eq hopen.symm)).mp hloop
      refine ⟨text, hs, ?_, hl, rfl, ?_⟩
      · rw [hfirst hs]
        rw [hdrop] at hv
        exact hv
      · rw [hfirst hs, hvalue]
    · rintro ⟨text, hs, hv, hl, rfl, rfl⟩
      rw [hfirst hs] at hv ⊢
      exact ⟨_, ⟨_, (readLongLoop_eq_ok (Nat.lt_succ_self _) hline (Nat.le_of_eq hopen.symm)).mpr
        ⟨text, rest, hs, by rw [hdrop]; exact hv, hl, rfl⟩, (hvalue _).symm, rfl⟩, rfl, rfl⟩

end Tsuki.Lex
