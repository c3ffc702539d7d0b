import Tsuki.Lex.Numeral
import Tsuki.Lex.LongString

/-!
# `llex`

A call of `llex` skips white space and comments and reads one token. What it skips is a `Gap`, and it skips all of it.
Each turn of the loop takes a part of the gap, or the token; the induction is on the text that is left. In the other
direction a text with a gap in front of a token is read in the same turns, because what may follow a gap is never a
part of it.
-/

namespace Tsuki.Lex

def TK_STRING : Nat := 292
def TK_NAME : Nat := 291
def TK_INT : Nat := 290
def TK_FLT : Nat := 289
def TK_EOS : Nat := 288
def TK_DBCOLON : Nat := 287
def TK_SHR : Nat := 286
def TK_SHL : Nat := 285
def TK_NE : Nat := 284
def TK_LE : Nat := 283
def TK_GE : Nat := 282
def TK_EQ : Nat := 281
def TK_DOTS : Nat := 280
def TK_CONCAT : Nat := 279
def TK_IDIV : Nat := 278

inductive SemInfo
  | r (f : F64)
  | i (i : Int64)
  | ts (s : Bytes)
  deriving DecidableEq, Repr

@[ext]
structure Token where
  token : Nat
  seminfo : SemInfo
  deriving DecidableEq, Repr

/-- A token without a value. -/
def Token.plain (token : Nat) : Token := ⟨token, .i 0⟩

/-- The texts of the reserved words, the first ones of `luaX_tokens`: the number of the first one is 256. -/
def reserved : List (List Char) :=
  [['a', 'n', 'd'], ['b', 'r', 'e', 'a', 'k'], ['d', 'o'], ['e', 'l', 's', 'e'], ['e', 'l', 's', 'e', 'i', 'f'],
    ['e', 'n', 'd'], ['f', 'a', 'l', 's', 'e'], ['f', 'o', 'r'], ['f', 'u', 'n', 'c', 't', 'i', 'o', 'n'],
    ['g', 'o', 't', 'o'], ['i', 'f'], ['i', 'n'], ['l', 'o', 'c', 'a', 'l'], ['n', 'i', 'l'], ['n', 'o', 't'],
    ['o', 'r'], ['r', 'e', 'p', 'e', 'a', 't'], ['r', 'e', 't', 'u', 'r', 'n'], ['t', 'h', 'e', 'n'],
    ['t', 'r', 'u', 'e'], ['u', 'n', 't', 'i', 'l'], ['w', 'h', 'i', 'l', 'e']]

/-- The token of a word: the table of `Lua::tokens` has the reserved words. -/
def wordToken (s : Bytes) : Token :=
  match (reserved.map fun w => w.map fun c => UInt8.ofNat c.toNat).idxOf? s with
  | some i => ⟨256 + i, .ts s⟩
  | none => ⟨TK_NAME, .ts s⟩

/-- The token of a numeral. -/
def numberToken : Number → Token
  | .int i => ⟨TK_INT, .i i⟩
  | .float f => ⟨TK_FLT, .r f⟩

/-- White space that is no line break. -/
def isBlank (b : UInt8) : Bool := b = 32 || b = 12 || b = 9

def lislalnum (b : UInt8) : Bool := lislalpha b || lisdigit b

def checkNext1 (ls : LexState) (c : UInt8) : Except Stop (Bool × LexState) :=
  if ls.current (· = c) then do return (true, ← ls.next) else .ok (false, ls)

/-- A token of one byte, or of two if the second is `c`. -/
def pair (c : UInt8) (both single : Nat) (ls : LexState) : Except Stop (Token × LexState) := do
  let ls ← ls.next
  let (two, ls) ← checkNext1 ls c
  return (.plain (if two then both else single), ls)

/-- `<` and `>`: the second byte may be `=`, or the same one again. -/
def angle (c : UInt8) (eq twice : Nat) (ls : LexState) : Except Stop (Token × LexState) := do
  let ls ← ls.next
  let (two, ls) ← checkNext1 ls 61
  if two then return (.plain eq, ls)
  else
    let (two, ls) ← checkNext1 ls c
    return (.plain (if two then twice else c.toNat), ls)

/-- The rest of a line. -/
def lineLoop : Nat → LexState → Except Stop LexState
  | 0, _ => .error .fuel
  | fuel + 1, ls =>
    match ls.src with
    | [] => .ok ls
    | b :: _ => if isNewline b then .ok ls else do lineLoop fuel (← ls.saveNext)

/-- A short comment: the buffer is drained, and the error names no token. -/
def shortComment (ls : LexState) : Except Stop LexState := do
  let ls ← lineLoop (ls.src.length + 1) ls
  if Utf8.valid ls.buf then return { ls with buf := [] }
  else .error (.error "non-UTF-8 string" .none ls.linenumber)

/-- What is behind `--`. -/
def skipComment (ls : LexState) : Except Stop LexState :=
  if ls.current (· = 91) then do
    let (sep, ls) ← skipSep ls
    if 2 ≤ sep then
      let (_, ls) ← readLongString "comment" sep ls
      return { ls with buf := [] }
    else shortComment { ls with buf := [] }
  else shortComment ls

/-- A bracket, or a long string. -/
def bracket (ls : LexState) : Except Stop (Token × LexState) := do
  let (sep, ls) ← skipSep ls
  if 2 ≤ sep then
    let (s, ls) ← readLongString "string" sep ls
    return (⟨TK_STRING, .ts s⟩, ls)
  else if sep = 0 then ls.tokenError "invalid long string delimiter"
  else return (.plain 91, ls)

/-- The letters and digits of a name. -/
def nameLoop : Nat → LexState → Except Stop LexState
  | 0, _ => .error .fuel
  | fuel + 1, ls => if ls.current lislalnum then do nameLoop fuel (← ls.saveNext) else .ok ls

/-- A name or a reserved word. -/
def name (ls : LexState) : Except Stop (Token × LexState) := do
  let ls ← ls.saveNext
  let ls ← nameLoop (ls.src.length + 1) ls
  return (wordToken ls.buf, ls)

section

variable (parse : Bytes → Option F64)

def numeral (ls : LexState) : Except Stop (Token × LexState) := do
  let (v, ls) ← readNumeral parse ls
  return (numberToken v, ls)

/-- `.`, `..`, `...` or a numeral. -/
def dot (ls : LexState) : Except Stop (Token × LexState) := do
  let ls ← ls.saveNext
  let (two, ls) ← checkNext1 ls 46
  if two then
    let (three, ls) ← checkNext1 ls 46
    return (.plain (if three then TK_DOTS else TK_CONCAT), ls)
  else if ls.current lisdigit then numeral parse ls
  else return (.plain 46, ls)

/-- The token that starts with the byte `b`, which starts no white space and no comment. -/
def scan (b : UInt8) (ls : LexState) : Except Stop (Token × LexState) :=
  if b = 91 then bracket ls
  else if b = 61 then pair 61 TK_EQ 61 ls
  else if b = 60 then angle 60 TK_LE TK_SHL ls
  else if b = 62 then angle 62 TK_GE TK_SHR ls
  else if b = 47 then pair 47 TK_IDIV 47 ls
  else if b = 126 then pair 61 TK_NE 126 ls
  else if b = 58 then pair 58 TK_DBCOLON 58 ls
  else if b = 34 ∨ b = 39 then do
    let (ts, ls) ← readString b ls
    return (⟨TK_STRING, .ts ts⟩, ls)
  else if b = 46 then dot parse ls
  else if lisdigit b then numeral parse ls
  else if lislalpha b then name ls
  else do return (.plain b.toNat, ← ls.next)

/-- The loop of `llex`. -/
def llexLoop : Nat → LexState → Except Stop (Token × LexState)
  | 0, _ => .error .fuel
  | fuel + 1, ls =>
    match ls.src with
    | [] => .ok (.plain TK_EOS, ls)
    | b :: _ =>
      if isNewline b then do llexLoop fuel (← ls.inclinenumber)
      else if isBlank b then do llexLoop fuel (← ls.next)
      else if b = 45 then do
        let ls ← ls.next
        if ls.current (· = 45) then
          let ls ← ls.next
          let ls ← skipComment ls
          llexLoop fuel ls
        else return (.plain 45, ls)
      else scan parse b ls

def llex (ls : LexState) : Except Stop (Token × LexState) := llexLoop parse (ls.src.length + 1) { ls with buf := [] }

end

/-! ## What is skipped -/

/-- The text behind `--` with its end and its line breaks: a long comment, or the rest of the line. -/
inductive Comment : Bytes → Bytes → Nat → Prop
  | long (level : Nat) {src text rest : Bytes} : splitClosing level src = some (text, rest) →
      Utf8.valid (unixLines (dropFirstLine text)) = true →
      Comment (91 :: (List.replicate level 61 ++ 91 :: src)) rest (lineBreaks text)
  | short {text rest : Bytes} : (∀ level s, text ++ rest ≠ 91 :: (List.replicate level 61 ++ 91 :: s)) →
      (∀ b ∈ text, isNewline b = false) → (∀ b, rest.head? = some b → isNewline b = true) →
      Utf8.valid text = true → Comment (text ++ rest) rest 0

/-- White space and comments in front of a rest, with their line breaks. -/
inductive Gap : Bytes → Bytes → Nat → Prop
  | nil (rest : Bytes) : Gap rest rest 0
  | blank {b : UInt8} {src rest : Bytes} {n : Nat} : isBlank b = true → Gap src rest n → Gap (b :: src) rest n
  | newline {b : UInt8} {src rest : Bytes} {n : Nat} : isNewline b = true →
      Gap ((b :: src).drop (newlineLength (b :: src))) rest n → Gap (b :: src) rest (n + 1)
  | comment {src mid rest : Bytes} {k n : Nat} : Comment src mid k → Gap mid rest n →
      Gap (45 :: 45 :: src) rest (k + n)

/-- No white space and no comment is in front. -/
def Starts (src : Bytes) : Prop :=
  (∀ b, src.head? = some b → isNewline b = false ∧ isBlank b = false) ∧ ∀ s, src ≠ 45 :: 45 :: s

theorem Stop.ok_bind {α β : Type} (a : α) (f : α → Except Stop β) : ((Except.ok a : Except Stop α) >>= f) = f a := rfl

theorem lineLoop_eq {fuel : Nat} {s : Bytes} (hfuel : s.length < fuel) (n : Nat) (buf : Bytes) :
    lineLoop fuel ⟨s, n, buf⟩ = .ok ⟨s.dropWhile (!isNewline ·), n, buf ++ s.takeWhile (!isNewline ·)⟩ := by
  induction s generalizing fuel buf with
  | nil =>
    obtain ⟨fuel, rfl⟩ : ∃ k, fuel = k + 1 := ⟨fuel - 1, by simp at hfuel; omega⟩
    simp [lineLoop]
  | cons b s ih =>
    obtain ⟨fuel, rfl⟩ : ∃ k, fuel = k + 1 := ⟨fuel - 1, by simp at hfuel; omega⟩
    by_cases hb : isNewline b = true
    · simp [lineLoop, hb]
    · simp only [lineLoop, hb, Bool.false_eq_true, if_false, LexState.saveNext, bind, Except.bind]
      rw [ih (by simpa using hfuel)]
      simp [hb]

theorem shortComment_eq_ok {s : Bytes} {n : Nat} {ls' : LexState} : shortComment ⟨s, n, []⟩ = .ok ls' ↔
    Utf8.valid (s.takeWhile (!isNewline ·)) = true ∧ ls' = ⟨s.dropWhile (!isNewline ·), n, []⟩ := by
  simp only [shortComment, lineLoop_eq (Nat.lt_succ_self _), bind, Except.bind, List.nil_append]
  split_ifs with hv
  · simp [pure_eq_ok, hv]
  · simp [hv]

theorem takeWhile_level (level : Nat) (s : Bytes) :
    (List.replicate level (61 : UInt8) ++ 91 :: s).takeWhile (· = 61) = List.replicate level 61 ∧
      (List.replicate level (61 : UInt8) ++ 91 :: s).dropWhile (· = 61) = 91 :: s := by
  have hall : ∀ b ∈ List.replicate level (61 : UInt8), decide (b = 61) = true := by
    intro b hb
    simp [List.eq_of_mem_replicate hb]
  rw [List.takeWhile_append_of_pos hall, List.dropWhile_append_of_pos hall]
  simp

theorem level_inj {level level' : Nat} {s s' : Bytes}
    (h : List.replicate level (61 : UInt8) ++ 91 :: s = List.replicate level' 61 ++ 91 :: s') :
    level = level' ∧ s = s' := by
  have htake := congrArg (List.takeWhile (· = (61 : UInt8))) h
  have hdrop := congrArg (List.dropWhile (· = (61 : UInt8))) h
  rw [(takeWhile_level level s).1, (takeWhile_level level' s').1] at htake
  rw [(takeWhile_level level s).2, (takeWhile_level level' s').2] at hdrop
  exact ⟨by simpa using congrArg List.length htake, (List.cons.inj hdrop).2⟩

theorem takeWhile_eqs (s : Bytes) : ∃ level t, s = List.replicate level 61 ++ t ∧ t = s.dropWhile (· = 61) ∧
    List.replicate level 61 = s.takeWhile (· = 61) := by
  refine ⟨(s.takeWhile (· = 61)).length, s.dropWhile (· = 61), ?_, rfl, ?_⟩
  · rw [← List.eq_replicate_of_mem fun b hb => by simpa using List.mem_takeWhile_imp hb,
      List.takeWhile_append_dropWhile]
  · rw [← List.eq_replicate_of_mem fun b hb => by simpa using List.mem_takeWhile_imp hb]

/-- A short comment goes up to the first line break. -/
theorem comment_short {src rest : Bytes} {k : Nat}
    (hopen : ∀ level s, src ≠ 91 :: (List.replicate level 61 ++ 91 :: s)) :
    Comment src rest k ↔ Utf8.valid (src.takeWhile (!isNewline ·)) = true ∧ rest = src.dropWhile (!isNewline ·) ∧
      k = 0 := by
  constructor
  · intro h
    cases h with
    | long level _ _ => exact absurd rfl (hopen level _)
    | @short text _ hopen htext hrest hv =>
      have hall : ∀ b ∈ text, (!isNewline b) = true := fun b hb => by rw [htext b hb]; rfl
      rw [List.takeWhile_append_of_pos hall, List.dropWhile_append_of_pos hall]
      cases rest with
      | nil => simpa using hv
      | cons b rest =>
        have hb := hrest b rfl
        simp [hb, hv]
  · rintro ⟨hv, rfl, rfl⟩
    have h := @Comment.short (src.takeWhile (!isNewline ·)) (src.dropWhile (!isNewline ·))
    rw [List.takeWhile_append_dropWhile] at h
    refine h hopen (fun b hb => ?_) (fun b hb => ?_) hv
    · simpa using List.mem_takeWhile_imp hb
    · have := List.head?_dropWhile_not (fun b => !isNewline b) src
      rw [hb] at this
      simpa using this

/-- A comment is skipped as a whole, if its text is UTF-8 and its line breaks can be counted. -/
theorem skipComment_eq_ok {src : Bytes} {line : Nat} (hline : line ≤ maxLine) {ls' : LexState} :
    skipComment ⟨src, line, []⟩ = .ok ls' ↔
      ∃ rest k, Comment src rest k ∧ line + k ≤ maxLine ∧ ls' = ⟨rest, line + k, []⟩ := by
  have hshort {src' : Bytes} (hopen : ∀ level s, src ≠ 91 :: (List.replicate level 61 ++ 91 :: s))
      (htake : Utf8.valid (src'.takeWhile (!isNewline ·)) = Utf8.valid (src.takeWhile (!isNewline ·)))
      (hdrop : src'.dropWhile (!isNewline ·) = src.dropWhile (!isNewline ·)) :
      shortComment ⟨src', line, []⟩ = .ok ls' ↔
        ∃ rest k, Comment src rest k ∧ line + k ≤ maxLine ∧ ls' = ⟨rest, line + k, []⟩ := by
    rw [shortComment_eq_ok, htake, hdrop]
    simp only [comment_short hopen]
    constructor
    · rintro ⟨hv, rfl⟩
      exact ⟨_, 0, ⟨hv, rfl, rfl⟩, hline, rfl⟩
    · rintro ⟨rest, k, ⟨hv, rfl, rfl⟩, -, rfl⟩
      exact ⟨hv, rfl⟩
  by_cases hhead : src.head? = some 91
  · obtain ⟨s, rfl⟩ : ∃ s, src = 91 :: s := by
      cases src with
      | nil => cases hhead
      | cons b s => exact ⟨s, by rw [Option.some.inj hhead]⟩
    obtain ⟨level, t, hs, ht, heqs⟩ := takeWhile_eqs s
    have hcur : LexState.current ⟨91 :: s, line, []⟩ (fun b => b = (91 : UInt8)) = true := rfl
    rw [skipComment, if_pos hcur, skipSep_eq, ← ht, ← heqs, List.length_replicate, List.nil_append]
    simp only [Stop.ok_bind]
    by_cases hopen : t.head? = some 91
    · obtain ⟨u, rfl⟩ : ∃ u, t = 91 :: u := by
        cases t with
        | nil => cases hopen
        | cons b u => exact ⟨u, by rw [Option.some.inj hopen]⟩
      rw [if_pos hopen, if_pos (Nat.le_add_left 2 level), hs]
      constructor
      · intro h
        obtain ⟨⟨v, ls⟩, hread, hls⟩ := Rust.bind_eq_ok.mp h
        obtain ⟨text, hsplit, hv, hle, hlines, -⟩ := (readLongString_eq_ok hline).mp ⟨ls, hread, rfl, rfl⟩
        exact ⟨ls.src, lineBreaks text, .long level hsplit hv, hle, by rw [pure_eq_ok.mp hls, hlines]⟩
      · rintro ⟨rest, k, hc, hle, rfl⟩
        generalize hsrc : (91 : UInt8) :: (List.replicate level 61 ++ 91 :: u) = src at hc
        cases hc with
        | long level' hsplit hv =>
          obtain ⟨rfl, rfl⟩ := level_inj (List.cons.inj hsrc).2
          obtain ⟨ls, hread, rfl, hlines⟩ := (readLongString_eq_ok hline).mpr ⟨_, hsplit, hv, hle, rfl, rfl⟩
          exact Rust.bind_eq_ok.mpr ⟨_, hread, by rw [← hlines]; rfl⟩
        | short hno _ _ _ => exact absurd hsrc.symm (hno level u)
    · have hno : ∀ level' u, 91 :: s ≠ 91 :: (List.replicate level' 61 ++ 91 :: u) := by
        intro level' u heq
        have := congrArg (List.dropWhile (· = (61 : UInt8))) (List.cons.inj heq).2
        rw [(takeWhile_level level' u).2, ← ht] at this
        rw [this] at hopen
        exact hopen rfl
      have hall : ∀ b ∈ (91 :: List.replicate level 61 : Bytes), b.toNat < 0x80 ∧ (!isNewline b) = true := by
        intro b hb
        rcases List.mem_cons.mp hb with rfl | hb
        · decide
        · rw [List.eq_of_mem_replicate hb]
          decide
      have hsplit : 91 :: s = (91 :: List.replicate level 61 : Bytes) ++ t := by rw [hs, List.cons_append]
      have hsep : ¬2 ≤ (if t.head? = some 91 then level + 2 else if level = 0 then 1 else 0) := by
        rw [if_neg hopen]
        split_ifs <;> omega
      rw [if_neg hsep]
      refine hshort hno ?_ ?_
      · rw [hsplit, List.takeWhile_append_of_pos fun b hb => (hall b hb).2,
          Utf8.valid_append (Utf8.valid_of_ascii fun b hb => (hall b hb).1)]
      · rw [hsplit, List.dropWhile_append_of_pos fun b hb => (hall b hb).2]
  · have hcur : LexState.current ⟨src, line, []⟩ (fun b => b = (91 : UInt8)) = false := by
      cases src with
      | nil => rfl
      | cons b s => simpa [LexState.current] using hhead
    rw [skipComment, hcur]
    exact hshort (fun level s heq => hhead (by rw [heq]; rfl)) rfl rfl

theorem Comment.length_le {src rest : Bytes} {k : Nat} (h : Comment src rest k) : rest.length ≤ src.length := by
  cases h with
  | long level hsplit _ =>
    rw [(splitClosing_first hsplit).1]
    simp only [List.length_cons, List.length_append]
    omega
  | short _ _ _ _ => simp

/-- What is skipped before a token is one thing, by its first bytes. -/
theorem gap_newline {b : UInt8} {src rest : Bytes} {n : Nat} (hb : isNewline b = true) (hrest : Starts rest) :
    Gap (b :: src) rest n ↔ ∃ k, n = k + 1 ∧ Gap ((b :: src).drop (newlineLength (b :: src))) rest k := by
  constructor
  · intro h
    cases h with
    | nil => exact absurd hb (by rw [(hrest.1 b rfl).1]; exact Bool.false_ne_true)
    | blank hblank _ =>
      simp only [isBlank, isNewline, Bool.or_eq_true, decide_eq_true_eq] at hb hblank
      rcases hb with rfl | rfl <;> simp at hblank
    | newline _ h => exact ⟨_, rfl, h⟩
    | comment => exact absurd hb (by decide)
  · rintro ⟨k, rfl, h⟩
    exact .newline hb h

theorem gap_blank {b : UInt8} {src rest : Bytes} {n : Nat} (hb : isBlank b = true) (hrest : Starts rest) :
    Gap (b :: src) rest n ↔ Gap src rest n := by
  constructor
  · intro h
    cases h with
    | nil => exact absurd hb (by rw [(hrest.1 b rfl).2]; exact Bool.false_ne_true)
    | blank _ h => exact h
    | newline hnl _ =>
      simp only [isBlank, isNewline, Bool.or_eq_true, decide_eq_true_eq] at hb hnl
      rcases hnl with rfl | rfl <;> simp at hb
    | comment => exact absurd hb (by decide)
  · exact .blank hb

theorem gap_comment {src rest : Bytes} {n : Nat} (hrest : Starts rest) :
    Gap (45 :: 45 :: src) rest n ↔ ∃ mid k i, Comment src mid k ∧ Gap mid rest i ∧ n = k + i := by
  constructor
  · intro h
    cases h with
    | nil => exact absurd rfl (hrest.2 src)
    | blank hb _ => exact absurd hb (by decide)
    | newline hb _ => exact absurd hb (by decide)
    | comment hc h => exact ⟨_, _, _, hc, h, rfl⟩
  · rintro ⟨mid, k, i, hc, h, rfl⟩
    exact .comment hc h

theorem gap_starts {src rest : Bytes} {n : Nat} (hsrc : Starts src) : Gap src rest n ↔ rest = src ∧ n = 0 := by
  constructor
  · intro h
    cases h with
    | nil => exact ⟨rfl, rfl⟩
    | blank hb _ => exact absurd hb (by rw [(hsrc.1 _ rfl).2]; exact Bool.false_ne_true)
    | newline hb _ => exact absurd hb (by rw [(hsrc.1 _ rfl).1]; exact Bool.false_ne_true)
    | comment => exact absurd rfl (hsrc.2 _)
  · rintro ⟨rfl, rfl⟩
    exact .nil _

section

variable (parse : Bytes → Option F64)

/-- The token in front, where no white space and no comment is. -/
def first (ls : LexState) : Except Stop (Token × LexState) :=
  match ls.src with
  | [] => .ok (.plain TK_EOS, ls)
  | b :: _ => if b = 45 then do return (.plain 45, ← ls.next) else scan parse b ls

/-- One call of the loop reads the token in front. -/
theorem llexLoop_first {src : Bytes} (hsrc : Starts src) (fuel line : Nat) :
    llexLoop parse (fuel + 1) ⟨src, line, []⟩ = first parse ⟨src, line, []⟩ := by
  cases src with
  | nil => rfl
  | cons b s =>
    obtain ⟨hnl, hblank⟩ := hsrc.1 b rfl
    simp only [llexLoop, first, hnl, hblank, Bool.false_eq_true, if_false]
    split_ifs with hb
    · have hcur : LexState.current ⟨s, line, []⟩ (fun b => b = (45 : UInt8)) = false := by
        cases s with
        | nil => rfl
        | cons c s =>
          refine decide_eq_false fun hc => hsrc.2 s ?_
          rw [hb, hc]
      simp only [LexState.next, Stop.ok_bind, hcur, Bool.false_eq_true, if_false]
    · rfl

theorem llexLoop_eq_ok {fuel line : Nat} {src : Bytes} (hfuel : src.length < fuel) (hline : line ≤ maxLine)
    {r : Token × LexState} : llexLoop parse fuel ⟨src, line, []⟩ = .ok r ↔
      ∃ rest n, Gap src rest n ∧ Starts rest ∧ line + n ≤ maxLine ∧ first parse ⟨rest, line + n, []⟩ = .ok r := by
  induction fuel generalizing src line with
  | zero => exact absurd hfuel (Nat.not_lt_zero _)
  | succ fuel ih =>
    by_cases hsrc : Starts src
    · rw [llexLoop_first parse hsrc]
      constructor
      · exact fun h => ⟨src, 0, .nil src, hsrc, hline, h⟩
      · rintro ⟨rest, n, hgap, -, -, h⟩
        obtain ⟨rfl, rfl⟩ := (gap_starts hsrc).mp hgap
        exact h
    · cases src with
      | nil => exact absurd ⟨fun b hb => (by cases hb), fun s hs => (by cases hs)⟩ hsrc
      | cons b s =>
        have hs : s.length < fuel := Nat.lt_of_succ_lt_succ hfuel
        by_cases hnl : isNewline b = true
        · have hdrop : ((b :: s).drop (newlineLength (b :: s))).length < fuel := by
            have := one_le_newlineLength b s
            rw [List.length_drop, List.length_cons]
            omega
          simp only [llexLoop, hnl, if_true, LexState.inclinenumber_eq, LexState.countLine]
          by_cases hfits : line + 1 ≤ maxLine
          · rw [if_pos hfits, Stop.ok_bind, ih hdrop hfits]
            constructor
            · rintro ⟨rest, n, hgap, hrest, hle, h⟩
              exact ⟨rest, n + 1, (gap_newline hnl hrest).mpr ⟨n, rfl, hgap⟩, hrest, by omega, by
                rwa [Nat.add_comm n, ← Nat.add_assoc]⟩
            · rintro ⟨rest, n, hgap, hrest, hle, h⟩
              obtain ⟨k, rfl, hgap'⟩ := (gap_newline hnl hrest).mp hgap
              exact ⟨rest, k, hgap', hrest, by omega, by rwa [Nat.add_assoc, Nat.add_comm 1]⟩
          · rw [if_neg hfits]
            refine iff_of_false (fun h => by cases h) ?_
            rintro ⟨rest, n, hgap, hrest, hle, -⟩
            obtain ⟨k, rfl, -⟩ := (gap_newline hnl hrest).mp hgap
            omega
        · by_cases hblank : isBlank b = true
          · simp only [llexLoop, hnl, Bool.false_eq_true, if_false, hblank, if_true, LexState.next, Stop.ok_bind]
            rw [ih hs hline]
            refine exists_congr fun rest => exists_congr fun n => ?_
            constructor
            · rintro ⟨hgap, hrest, h⟩
              exact ⟨(gap_blank hblank hrest).mpr hgap, hrest, h⟩
            · rintro ⟨hgap, hrest, h⟩
              exact ⟨(gap_blank hblank hrest).mp hgap, hrest, h⟩
          · obtain ⟨t, rfl, rfl⟩ : ∃ t, b = 45 ∧ s = 45 :: t := by
              by_contra hno
              refine hsrc ⟨fun c hc => ?_, fun t ht => hno ⟨t, List.cons.inj ht⟩⟩
              rw [← Option.some.inj hc]
              exact ⟨Bool.eq_false_iff.mpr hnl, Bool.eq_false_iff.mpr hblank⟩
            have hcur : LexState.current ⟨45 :: t, line, []⟩ (fun b => b = (45 : UInt8)) = true := rfl
            simp only [llexLoop, hnl, hblank, Bool.false_eq_true, if_false, if_true, LexState.next, Stop.ok_bind, hcur]
            rw [Rust.bind_eq_ok]
            constructor
            · rintro ⟨ls, hskip, h⟩
              obtain ⟨mid, k, hc, hle, rfl⟩ := (skipComment_eq_ok hline).mp hskip
              have := hc.length_le
              obtain ⟨rest, n, hgap, hrest, hle', h⟩ := (ih (by rw [List.length_cons] at hs; omega) hle).mp h
              exact ⟨rest, k + n, (gap_comment hrest).mpr ⟨mid, k, n, hc, hgap, rfl⟩, hrest, by omega, by
                rwa [← Nat.add_assoc]⟩
            · rintro ⟨rest, n, hgap, hrest, hle, h⟩
              obtain ⟨mid, k, i, hc, hgap', rfl⟩ := (gap_comment hrest).mp hgap
              have := hc.length_le
              exact ⟨_, (skipComment_eq_ok hline).mpr ⟨mid, k, hc, by omega, rfl⟩,
                (ih (by rw [List.length_cons] at hs; omega) (by omega)).mpr
                  ⟨rest, i, hgap', hrest, by omega, by rwa [Nat.add_assoc]⟩⟩

/-- `llex` skips white space and comments, all of them and nothing else, and reads the token behind them. -/
theorem llex_eq_ok {line : Nat} (hline : line ≤ maxLine) {src buf : Bytes} {r : Token × LexState} :
    llex parse ⟨src, line, buf⟩ = .ok r ↔
      ∃ rest n, Gap src rest n ∧ Starts rest ∧ line + n ≤ maxLine ∧ first parse ⟨rest, line + n, []⟩ = .ok r :=
  llexLoop_eq_ok parse (Nat.lt_succ_self _) hline

/-- `--h` and a line break before `x`. -/
theorem llex_eq_ok_comment : llex (fun _ => none) ⟨[45, 45, 104, 10, 120], 1, []⟩ =
    .ok (⟨TK_NAME, .ts [120]⟩, ⟨[], 2, [120]⟩) := by
  have hshort : Comment [104, 10, 120] [10, 120] 0 := @Comment.short [104] [10, 120]
    (fun level s h => absurd (List.cons.inj h).1 (by decide)) (List.forall_mem_singleton.mpr rfl)
    (fun b hb => Option.some.inj hb ▸ rfl) (by decide)
  exact (llex_eq_ok _ (by decide)).mpr ⟨[120], 1, .comment hshort (.newline rfl (.nil [120])),
    ⟨fun b hb => Option.some.inj hb ▸ ⟨rfl, rfl⟩, fun s hs => absurd (List.cons.inj hs).1 (by decide)⟩,
    by decide, by decide⟩

end

end Tsuki.Lex
