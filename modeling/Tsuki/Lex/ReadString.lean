import Tsuki.Lex.State

/-!
# Reading a quoted string

`read_string` decodes escapes in the token buffer: the bytes of an escape are saved, read, cut off again
and replaced by its value. `off` is where the next check for UTF-8 starts.
-/

namespace Tsuki.Lex

/-- Whether the current byte is there and passes the test. -/
def LexState.current (ls : LexState) (p : UInt8 → Bool) : Bool := ls.src.head?.any p

/-- `esccheck`: the error text includes the current byte. -/
def esccheck (ls : LexState) (c : Bool) (msg : String) : Except Stop Unit :=
  if c then .ok ()
  else if ls.src = [] then ls.tokenError msg
  else do (← ls.saveNext).tokenError msg

def gethexa (ls : LexState) : Except Stop (Nat × LexState) := do
  let ls ← ls.saveNext
  esccheck ls (ls.current lisxdigit) "hexadecimal digit expected"
  return (hexavalue (ls.src.headD 0), ls)

def readhexaesc (ls : LexState) : Except Stop (Nat × LexState) := do
  let (r, ls) ← gethexa ls
  let (d, ls) ← gethexa ls
  return ((r <<< 4) + d, ls.truncate 2)

/-- The loop of `readutf8esc`: `r` is the value so far and `i` the number of bytes saved. -/
def readutf8escLoop : Nat → LexState → Nat → Nat → Except Stop (Nat × Nat × LexState)
  | 0, _, _, _ => .error .fuel
  | fuel + 1, ls, r, i => do
    let ls ← ls.saveNext
    if ls.current lisxdigit then
      esccheck ls (decide (r ≤ 0x7fffffff >>> 4)) "UTF-8 value too large"
      readutf8escLoop fuel ls ((r <<< 4) + hexavalue (ls.src.headD 0)) (i + 1)
    else return (r, i, ls)

def readutf8esc (ls : LexState) : Except Stop (Nat × LexState) := do
  let ls ← ls.saveNext
  esccheck ls (ls.current (· = 123)) "missing '\x7b'"
  let (r, ls) ← gethexa ls
  let (r, i, ls) ← readutf8escLoop ls.src.length ls r 4
  esccheck ls (ls.current (· = 125)) "missing '\x7d'"
  let ls ← ls.next
  return (r, ls.truncate i)

/-- The loop of `luaO_utf8esc`: `buff` is filled from its end. The first argument is the room left in it. -/
def luaO_utf8escLoop : Nat → Nat → Nat → Bytes → Bytes
  | 0, _, _, out => out
  | room + 1, x, mfb, out =>
    let out := .ofNat (0x80 ||| (x &&& 0x3f)) :: out
    let x := x >>> 6
    let mfb := mfb >>> 1
    if x > mfb then luaO_utf8escLoop room x mfb out
    else .ofNat (((2 ^ 32 - 1 - mfb) <<< 1) % 2 ^ 32 ||| x) :: out

/-- `luaO_utf8esc`: the bytes it leaves at the end of `buff`. -/
def luaO_utf8esc (x : Nat) : Bytes :=
  if x < 0x80 then [.ofNat x] else luaO_utf8escLoop 8 x 0x3f []

def utf8esc (ls : LexState) : Except Stop LexState := do
  let (r, ls) ← readutf8esc ls
  return { ls with buf := ls.buf ++ luaO_utf8esc r }

/-- The loop of `readdecesc`: the first argument is `3 - i`. -/
def readdecescLoop : Nat → LexState → Nat → Nat → Except Stop (Nat × Nat × LexState)
  | 0, ls, r, i => .ok (r, i, ls)
  | k + 1, ls, r, i =>
    if ls.current lisdigit then do
      let r := 10 * r + (ls.src.headD 0).toNat - 48
      let ls ← ls.saveNext
      readdecescLoop k ls r (i + 1)
    else .ok (r, i, ls)

def readdecesc (ls : LexState) : Except Stop (Nat × LexState) := do
  let (r, i, ls) ← readdecescLoop 3 ls 0 0
  esccheck ls (decide (r ≤ 255)) "decimal escape too large"
  return (r, ls.truncate i)

/-- The loop after `\z`. -/
def skipSpace : Nat → LexState → Except Stop LexState
  | 0, _ => .error .fuel
  | fuel + 1, ls =>
    if ls.current lisspace then do
      let ls ← if ls.current isNewline then ls.inclinenumber else ls.next
      skipSpace fuel ls
    else .ok ls

/-- The escapes of one letter: the byte that replaces them. -/
def oneLetter (b : UInt8) : Option UInt8 :=
  if b = 97 then some 7 else if b = 98 then some 8 else if b = 102 then some 12 else if b = 110 then some 10
  else if b = 114 then some 13 else if b = 116 then some 9 else if b = 118 then some 11
  else if b = 92 ∨ b = 34 ∨ b = 39 then some b else none

/-- The end of an escape: the backslash is replaced and the next check starts behind the new byte. -/
def replace (ls : LexState) (c : Nat) : LexState × Nat :=
  let ls := (ls.truncate 1).save (.ofNat c)
  (ls, ls.buf.length)

/-- The escape sequences of `read_string`; the backslash is saved and skipped. -/
def readEscape (ls : LexState) (off : Nat) : Except Stop (LexState × Nat) :=
  match ls.src with
  -- The loop of `read_string` reports the end of input.
  | [] => .ok (ls, off)
  | b :: _ =>
    match oneLetter b with
    | some c => do return replace (← ls.next) c.toNat
    | none =>
      if b = 120 then do
        let (r, ls) ← readhexaesc ls
        return replace (← ls.next) r
      -- No update of `off` here: what `\u` saved is part of the next check.
      else if b = 117 then do return (← utf8esc ls, off)
      else if isNewline b then do return replace (← ls.inclinenumber) 10
      else if b = 122 then do
        let ls ← (ls.truncate 1).next
        return (← skipSpace (ls.src.length + 1) ls, off)
      else do
        esccheck ls (lisdigit b) "invalid escape sequence"
        let (r, ls) ← readdecesc ls
        return replace ls r

/-- `from_utf8` of the buffer from `off` on. -/
def checkUtf8 (ls : LexState) (off : Nat) : Except Stop Unit :=
  if Utf8.valid (ls.buf.drop off) then .ok () else ls.tokenError "non-UTF-8 string"

/-- The loop of `read_string`, up to the closing quote. -/
def readStringLoop : Nat → UInt8 → LexState → Nat → Except Stop (LexState × Nat)
  | 0, _, _, _ => .error .fuel
  | fuel + 1, del, ls, off =>
    match ls.src with
    | [] => .error (.error "unfinished string" .eos ls.linenumber)
    | b :: _ =>
      if b = del then .ok (ls, off)
      else if isNewline b then ls.tokenError "unfinished string"
      else if b = 92 then do
        checkUtf8 ls off
        let (ls, off) ← readEscape (← ls.saveNext) off
        readStringLoop fuel del ls off
      else do readStringLoop fuel del (← ls.saveNext) off

/-- `read_string`: the string and the state after the closing quote. -/
def readString (del : UInt8) (ls : LexState) : Except Stop (Bytes × LexState) := do
  let ls ← ls.saveNext
  let (ls, off) ← readStringLoop (ls.src.length + 1) del ls 1
  checkUtf8 ls off
  let ls ← ls.saveNext
  return ((ls.buf.take (ls.buf.length - 1)).drop 1, ls)

/-! ## What the parts return -/

theorem pure_eq_ok {α : Type} {a b : α} : (pure a : Except Stop α) = .ok b ↔ b = a :=
  ⟨fun h => (Except.ok.inj h).symm, fun h => by rw [h]; rfl⟩

theorem esccheck_eq_ok {ls : LexState} {c : Bool} {msg : String} {u : Unit} :
    esccheck ls c msg = .ok u ↔ c = true := by
  unfold esccheck
  split_ifs with hc hs
  · exact ⟨fun _ => hc, fun _ => rfl⟩
  · exact ⟨fun h => (nomatch h), fun h => absurd h hc⟩
  · refine ⟨fun h => ?_, fun h => absurd h hc⟩
    obtain ⟨_, _, h⟩ := Rust.bind_eq_ok.mp h
    cases h

theorem saveNext_eq_ok {ls ls' : LexState} :
    ls.saveNext = .ok ls' ↔ ∃ b s, ls.src = b :: s ∧ ls' = ⟨s, ls.linenumber, ls.buf ++ [b]⟩ := by
  obtain ⟨_ | ⟨b, s⟩, n, buf⟩ := ls <;> simp [LexState.saveNext, eq_comm]

theorem next_eq_ok {ls ls' : LexState} :
    ls.next = .ok ls' ↔ ∃ b s, ls.src = b :: s ∧ ls' = ⟨s, ls.linenumber, ls.buf⟩ := by
  obtain ⟨_ | ⟨b, s⟩, n, buf⟩ := ls <;> simp [LexState.next, eq_comm]

theorem truncate_append (s : Bytes) (n : Nat) (buf : Bytes) {t : Bytes} {k : Nat} (hk : t.length = k) :
    (LexState.mk s n (buf ++ t)).truncate k = ⟨s, n, buf⟩ := by
  simp [LexState.truncate, ← hk]

theorem replace_append (s : Bytes) (n : Nat) (buf : Bytes) (b : UInt8) (c : Nat) :
    replace ⟨s, n, buf ++ [b]⟩ c = (⟨s, n, buf ++ [.ofNat c]⟩, (buf ++ [UInt8.ofNat c]).length) := by
  rw [replace, truncate_append s n buf (List.length_singleton (a := b))]
  rfl

theorem gethexa_eq_ok {ls ls' : LexState} {d : Nat} :
    gethexa ls = .ok (d, ls') ↔ ∃ a b s, ls.src = a :: b :: s ∧ lisxdigit b = true ∧ d = hexavalue b ∧
      ls' = ⟨b :: s, ls.linenumber, ls.buf ++ [a]⟩ := by
  unfold gethexa
  simp only [Rust.bind_eq_ok, saveNext_eq_ok, esccheck_eq_ok, pure_eq_ok, Prod.mk.injEq]
  constructor
  · rintro ⟨_, ⟨a, s, hs, rfl⟩, _, hd, rfl, rfl⟩
    cases s with
    | nil => cases hd
    | cons b s => exact ⟨a, b, s, hs, hd, rfl, rfl⟩
  · rintro ⟨a, b, s, hs, hd, rfl, rfl⟩
    exact ⟨_, ⟨a, b :: s, hs, rfl⟩, (), hd, rfl, rfl⟩

theorem readhexaesc_eq_ok {ls ls' : LexState} {r : Nat} :
    readhexaesc ls = .ok (r, ls') ↔ ∃ a b d s, ls.src = a :: b :: d :: s ∧ lisxdigit b = true ∧
      lisxdigit d = true ∧ r = 16 * hexavalue b + hexavalue d ∧ ls' = ⟨d :: s, ls.linenumber, ls.buf⟩ := by
  unfold readhexaesc
  simp only [Rust.bind_eq_ok, pure_eq_ok, Prod.exists, gethexa_eq_ok, Prod.mk.injEq]
  constructor
  · rintro ⟨_, _, ⟨a, b, s, hs, hb, rfl, rfl⟩, _, _, ⟨b', d, s', hs', hd, rfl, rfl⟩, rfl, rfl⟩
    obtain ⟨rfl, rfl⟩ := List.cons.inj hs'
    refine ⟨a, b, d, s', hs, hb, hd, ?_, ?_⟩
    · rw [Nat.shiftLeft_eq, Nat.mul_comm]
    · exact List.append_assoc ls.buf [a] [b] ▸ truncate_append _ _ ls.buf rfl
  · rintro ⟨a, b, d, s, hs, hb, hd, rfl, rfl⟩
    refine ⟨_, _, ⟨a, b, d :: s, hs, hb, rfl, rfl⟩, _, _, ⟨b, d, s, rfl, hd, rfl, rfl⟩, ?_, ?_⟩
    · rw [Nat.shiftLeft_eq, Nat.mul_comm]
    · exact (List.append_assoc ls.buf [a] [b] ▸ truncate_append _ _ ls.buf rfl).symm

/-- The value of a hexadecimal digit. -/
def hexDigit (b : UInt8) : Nat :=
  if b.toNat ≤ 57 then b.toNat - 48 else if b.toNat ≤ 70 then b.toNat - 55 else b.toNat - 87

theorem hexavalue_eq {b : UInt8} (hb : lisxdigit b = true) : hexavalue b = hexDigit b := by
  have hletter : ∀ k < 6, ((65 + k) ||| (65 ^^^ 97)) = 97 + k ∧ ((97 + k) ||| (65 ^^^ 97)) = 97 + k := by decide
  simp only [lisxdigit, Bool.or_eq_true, Bool.and_eq_true, decide_eq_true_eq, or_assoc] at hb
  unfold hexavalue hexDigit
  split_ifs with hd h57 h70 h57 h70
  · rfl
  · simp [lisdigit] at hd; omega
  · simp [lisdigit] at hd; omega
  · simp [lisdigit] at hd hb; omega
  · have hb := hb.resolve_left hd
    obtain ⟨k, hk⟩ : ∃ k, b.toNat = 65 + k := ⟨b.toNat - 65, by omega⟩
    rw [hk, (hletter k (by omega)).1]
    omega
  · have hb := hb.resolve_left hd
    obtain ⟨k, hk⟩ : ∃ k, b.toNat = 97 + k := ⟨b.toNat - 97, by omega⟩
    rw [hk, (hletter k (by omega)).2]
    omega

theorem hexDigit_lt {b : UInt8} (hb : lisxdigit b = true) : hexDigit b < 16 := by
  simp only [lisxdigit, lisdigit, Bool.or_eq_true, Bool.and_eq_true, decide_eq_true_eq] at hb
  unfold hexDigit
  split_ifs <;> omega

/-- The value of digits in base `base`, after `r`. -/
def digits (base : Nat) (value : UInt8 → Nat) : Nat → Bytes → Nat :=
  List.foldl fun r b => base * r + value b

theorem le_digits {k : Nat} (hbase : 0 < k) (value : UInt8 → Nat) (ds : Bytes) (r : Nat) :
    r ≤ digits k value r ds := by
  induction ds generalizing r with
  | nil => exact Nat.le_refl r
  | cons d ds ih =>
    calc r ≤ k * r := Nat.le_mul_of_pos_left r hbase
      _ ≤ k * r + value d := Nat.le_add_right ..
      _ ≤ digits k value r (d :: ds) := ih _

/-- The loop reads all the digits there are; it refuses a value of `2 ^ 31` and more. -/
theorem readutf8escLoop_eq_ok {fuel : Nat} {a : UInt8} {s : Bytes} {n : Nat} {buf : Bytes} {r i r' i' : Nat}
    {ls' : LexState} (hfuel : s.length < fuel) (hr : r < 2 ^ 31) :
    readutf8escLoop fuel ⟨a :: s, n, buf⟩ r i = .ok (r', i', ls') ↔
      r' = digits 16 hexDigit r (s.takeWhile lisxdigit) ∧ r' < 2 ^ 31 ∧
        i' = i + (s.takeWhile lisxdigit).length ∧
        ls' = ⟨s.dropWhile lisxdigit, n, buf ++ a :: s.takeWhile lisxdigit⟩ := by
  induction s generalizing fuel a buf r i with
  | nil =>
    obtain ⟨fuel, rfl⟩ : ∃ k, fuel = k + 1 := ⟨fuel - 1, by simp at hfuel; omega⟩
    simp only [readutf8escLoop, LexState.saveNext, LexState.current, bind, Except.bind, List.head?_nil,
      Option.any_none, Bool.false_eq_true, if_false, pure_eq_ok, Prod.mk.injEq, List.takeWhile_nil,
      List.dropWhile_nil, List.length_nil, digits, List.foldl_nil]
    constructor
    · rintro ⟨rfl, rfl, rfl⟩
      exact ⟨rfl, hr, rfl, rfl⟩
    · rintro ⟨rfl, -, rfl, rfl⟩
      exact ⟨rfl, rfl, rfl⟩
  | cons b s ih =>
    obtain ⟨fuel, rfl⟩ : ∃ k, fuel = k + 1 := ⟨fuel - 1, by simp at hfuel; omega⟩
    have hsave : LexState.saveNext ⟨a :: b :: s, n, buf⟩ = .ok ⟨b :: s, n, buf ++ [a]⟩ := rfl
    by_cases hb : lisxdigit b = true
    · rw [List.takeWhile_cons_of_pos hb, List.dropWhile_cons_of_pos hb]
      simp only [readutf8escLoop, hsave, LexState.current, Rust.bind_eq_ok, Except.ok.injEq, exists_eq_left',
        List.head?_cons, Option.any_some, hb, if_true, esccheck_eq_ok, decide_eq_true_eq, exists_const,
        List.headD_cons]
      have hlen : s.length < fuel := by simpa using hfuel
      have hshift : (r <<< 4) + hexavalue b = 16 * r + hexDigit b := by
        rw [Nat.shiftLeft_eq, Nat.mul_comm, hexavalue_eq hb]
      have hbuf : buf ++ [a] ++ b :: s.takeWhile lisxdigit = buf ++ a :: b :: s.takeWhile lisxdigit := by simp
      have hval : digits 16 hexDigit r (b :: s.takeWhile lisxdigit) =
        digits 16 hexDigit (16 * r + hexDigit b) (s.takeWhile lisxdigit) := rfl
      have hmono := le_digits (k := 16) (by decide) hexDigit (s.takeWhile lisxdigit) (16 * r + hexDigit b)
      rw [hval, hshift, List.length_cons]
      have hd := hexDigit_lt hb
      constructor
      · rintro ⟨hle, h⟩
        rw [ih hlen (by simp at hle; omega)] at h
        obtain ⟨hr', hlt, rfl, rfl⟩ := h
        exact ⟨hr', hlt, by omega, by rw [hbuf]⟩
      · rintro ⟨hr', hlt, rfl, rfl⟩
        have hle : r ≤ 0x7fffffff >>> 4 := by simp; omega
        refine ⟨hle, (ih hlen (by simp at hle; omega)).mpr ⟨hr', hlt, by omega, by rw [hbuf]⟩⟩
    · rw [List.takeWhile_cons_of_neg hb, List.dropWhile_cons_of_neg hb]
      simp only [readutf8escLoop, hsave, LexState.current, Rust.bind_eq_ok, Except.ok.injEq, exists_eq_left',
        List.head?_cons, Option.any_some, hb, Bool.false_eq_true, if_false, pure_eq_ok, Prod.mk.injEq,
        List.length_nil, digits, List.foldl_nil]
      constructor
      · rintro ⟨rfl, rfl, rfl⟩
        exact ⟨rfl, hr, rfl, rfl⟩
      · rintro ⟨rfl, -, rfl, rfl⟩
        exact ⟨rfl, rfl, rfl⟩

/-- `\u` between its braces: at least one digit, and a value below `2 ^ 31`. -/
theorem readutf8esc_eq_ok {a : UInt8} {s pre : Bytes} {n r : Nat} {b : UInt8} {ls' : LexState} :
    readutf8esc ⟨a :: s, n, pre ++ [b]⟩ = .ok (r, ls') ↔ ∃ d t rest, s = 123 :: d :: t ∧ lisxdigit d = true ∧
      t.dropWhile lisxdigit = 125 :: rest ∧ r = digits 16 hexDigit 0 ((d :: t).takeWhile lisxdigit) ∧
      r < 2 ^ 31 ∧ ls' = ⟨rest, n, pre⟩ := by
  have hval : ∀ {d : UInt8} (t : Bytes), lisxdigit d = true →
      digits 16 hexDigit 0 ((d :: t).takeWhile lisxdigit) =
        digits 16 hexDigit (hexDigit d) (t.takeWhile lisxdigit) := by
    intro d t hd
    rw [List.takeWhile_cons_of_pos hd]
    simp [digits]
  have hbuf : ∀ (d : UInt8) (rest t : Bytes), (LexState.mk rest n (pre ++ [b] ++ [a] ++ [123] ++ d :: t)).truncate
      (4 + t.length) = ⟨rest, n, pre⟩ := by
    intro d rest t
    have := truncate_append (t := b :: a :: 123 :: d :: t) (k := 4 + t.length) rest n pre (by simp; omega)
    simpa using this
  unfold readutf8esc
  simp only [Rust.bind_eq_ok, saveNext_eq_ok, esccheck_eq_ok, pure_eq_ok, Prod.exists, gethexa_eq_ok, next_eq_ok,
    Prod.mk.injEq]
  constructor
  · rintro ⟨_, ⟨_, _, hs, rfl⟩, -, h123, _, _, ⟨c, d, t, rfl, hd, rfl, rfl⟩, r', i, ls1, hloop, -, h125, _,
      ⟨e, rest, hrest, rfl⟩, rfl, rfl⟩
    obtain ⟨rfl, rfl⟩ := List.cons.inj hs
    have hc : c = 123 := by simpa [LexState.current] using h123
    subst hc
    have hlt : hexavalue d < 2 ^ 31 := by have := hexDigit_lt hd; rw [hexavalue_eq hd]; omega
    rw [readutf8escLoop_eq_ok (by simp) hlt] at hloop
    obtain ⟨rfl, hlt', rfl, rfl⟩ := hloop
    simp only [LexState.current] at h125 hrest
    rw [hrest] at h125
    have he : e = 125 := by simpa using h125
    subst he
    refine ⟨d, t, rest, rfl, hd, hrest, ?_, hlt', ?_⟩
    · rw [hval t hd, hexavalue_eq hd]
    · exact hbuf d rest _
  · rintro ⟨d, t, rest, rfl, hd, hrest, rfl, hlt, rfl⟩
    have hlt' : hexavalue d < 2 ^ 31 := by have := hexDigit_lt hd; rw [hexavalue_eq hd]; omega
    refine ⟨_, ⟨a, _, rfl, rfl⟩, (), rfl, _, _, ⟨123, d, t, rfl, hd, rfl, rfl⟩, _, _, _,
      (readutf8escLoop_eq_ok (by simp) hlt').mpr ⟨rfl, ?_, rfl, rfl⟩, (), ?_, _, ⟨125, rest, hrest, rfl⟩, ?_, ?_⟩
    · rwa [hexavalue_eq hd, ← hval t hd]
    · rw [LexState.current, hrest]
      rfl
    · rw [hval t hd, hexavalue_eq hd]
    · exact (hbuf d rest _).symm

/-- The value of a decimal digit. -/
def decDigit (b : UInt8) : Nat := b.toNat - 48

/-- The loop reads the digits there are, but no more than three. -/
theorem readdecescLoop_eq (k : Nat) (s : Bytes) (n : Nat) (buf : Bytes) (r i : Nat) :
    readdecescLoop k ⟨s, n, buf⟩ r i =
      .ok (digits 10 decDigit r ((s.takeWhile lisdigit).take k), i + ((s.takeWhile lisdigit).take k).length,
        ⟨s.drop ((s.takeWhile lisdigit).take k).length, n, buf ++ (s.takeWhile lisdigit).take k⟩) := by
  induction k generalizing s buf r i with
  | zero => simp [readdecescLoop, digits]
  | succ k ih =>
    cases s with
    | nil => simp [readdecescLoop, LexState.current, digits]
    | cons b s =>
      by_cases hb : lisdigit b = true
      · have hval : 10 * r + b.toNat - 48 = 10 * r + decDigit b := by
          simp only [lisdigit, Bool.and_eq_true, decide_eq_true_eq] at hb
          unfold decDigit
          omega
        have hcur : LexState.current ⟨b :: s, n, buf⟩ lisdigit = true := hb
        rw [readdecescLoop, if_pos hcur]
        simp only [LexState.saveNext, bind, Except.bind, List.headD_cons, hval]
        rw [ih, List.takeWhile_cons_of_pos hb, List.take_succ_cons, List.length_cons, List.drop_succ_cons,
          List.append_assoc, Nat.add_assoc, Nat.add_comm 1]
        rfl
      · have hcur : ¬ LexState.current ⟨b :: s, n, buf⟩ lisdigit = true := hb
        rw [readdecescLoop, if_neg hcur, List.takeWhile_cons_of_neg hb]
        simp [digits]

theorem readdecesc_eq_ok {s buf : Bytes} {n r : Nat} {ls' : LexState} :
    readdecesc ⟨s, n, buf⟩ = .ok (r, ls') ↔
      r = digits 10 decDigit 0 ((s.takeWhile lisdigit).take 3) ∧ r ≤ 255 ∧
        ls' = ⟨s.drop ((s.takeWhile lisdigit).take 3).length, n, buf⟩ := by
  rw [readdecesc, readdecescLoop_eq]
  simp only [Rust.bind_eq_ok, Except.ok.injEq, exists_eq_left', esccheck_eq_ok, pure_eq_ok, Prod.mk.injEq,
    decide_eq_true_eq, exists_const]
  rw [Nat.zero_add, truncate_append _ n buf rfl]
  constructor
  · rintro ⟨hle, rfl, rfl⟩
    exact ⟨rfl, hle, rfl⟩
  · rintro ⟨rfl, hle, rfl⟩
    exact ⟨hle, rfl, rfl⟩

theorem lisspace_of_isNewline {b : UInt8} (hb : isNewline b = true) : lisspace b = true := by
  simp only [isNewline, Bool.or_eq_true, decide_eq_true_eq] at hb
  rcases hb with rfl | rfl <;> rfl

theorem one_le_newlineLength (a : UInt8) (s : Bytes) : 1 ≤ newlineLength (a :: s) := by
  cases s with
  | nil => exact Nat.le_refl 1
  | cons b s =>
    rw [newlineLength]
    split_ifs <;> omega

/-- A line break of two bytes is white space as a whole. -/
theorem takeWhile_newline {a : UInt8} (ha : isNewline a = true) (s : Bytes) :
    lineBreaks ((a :: s).takeWhile lisspace) =
        lineBreaks (((a :: s).drop (newlineLength (a :: s))).takeWhile lisspace) + 1 ∧
      (a :: s).dropWhile lisspace = ((a :: s).drop (newlineLength (a :: s))).dropWhile lisspace := by
  have hsa := lisspace_of_isNewline ha
  rw [List.takeWhile_cons_of_pos hsa, List.dropWhile_cons_of_pos hsa]
  cases s with
  | nil => simp [newlineLength, lineBreaks, ha]
  | cons b s =>
    rw [newlineLength]
    split_ifs with hb
    · have hsb := lisspace_of_isNewline hb.1
      rw [List.takeWhile_cons_of_pos hsb, List.dropWhile_cons_of_pos hsb, lineBreaks, if_pos ha, if_pos hb]
      exact ⟨rfl, rfl⟩
    · refine ⟨?_, rfl⟩
      by_cases hsb : lisspace b = true
      · rw [List.takeWhile_cons_of_pos hsb, lineBreaks, if_pos ha, if_neg hb]
        simp [List.takeWhile_cons_of_pos hsb]
      · simp [List.takeWhile_cons_of_neg hsb, lineBreaks, ha]

theorem skipSpace_eq_ok {fuel : Nat} {s : Bytes} {n : Nat} {buf : Bytes} {ls' : LexState}
    (hfuel : s.length < fuel) (hn : n ≤ maxLine) :
    skipSpace fuel ⟨s, n, buf⟩ = .ok ls' ↔ n + lineBreaks (s.takeWhile lisspace) ≤ maxLine ∧
      ls' = ⟨s.dropWhile lisspace, n + lineBreaks (s.takeWhile lisspace), buf⟩ := by
  induction fuel generalizing s n with
  | zero => omega
  | succ fuel ih =>
    cases s with
    | nil => simp [skipSpace, LexState.current, lineBreaks, hn, eq_comm]
    | cons a s =>
      have hlen : s.length < fuel := by simpa using hfuel
      by_cases hsa : lisspace a = true
      · have hcur : LexState.current ⟨a :: s, n, buf⟩ lisspace = true := hsa
        rw [skipSpace, if_pos hcur]
        by_cases ha : isNewline a = true
        · have hnl : LexState.current ⟨a :: s, n, buf⟩ isNewline = true := ha
          obtain ⟨hlines, hdrop⟩ := takeWhile_newline ha s
          have hpos := one_le_newlineLength a s
          have hlen' : ((a :: s).drop (newlineLength (a :: s))).length < fuel := by
            rw [List.length_drop, List.length_cons]
            omega
          rw [if_pos hnl, LexState.inclinenumber_eq, hlines, hdrop]
          simp only [Rust.bind_eq_ok, LexState.countLine_eq_ok]
          constructor
          · rintro ⟨_, ⟨hle, rfl⟩, h⟩
            obtain ⟨hle', rfl⟩ := (ih hlen' hle).mp h
            exact ⟨by omega, by rw [Nat.add_assoc, Nat.add_comm 1]⟩
          · rintro ⟨hle, rfl⟩
            refine ⟨_, ⟨by omega, rfl⟩, (ih hlen' (by omega)).mpr ⟨by omega, ?_⟩⟩
            rw [Nat.add_assoc, Nat.add_comm 1]
        · have hnl : ¬ LexState.current ⟨a :: s, n, buf⟩ isNewline = true := ha
          rw [if_neg hnl, List.takeWhile_cons_of_pos hsa, List.dropWhile_cons_of_pos hsa,
            lineBreaks_cons_of_not (Bool.eq_false_iff.mpr ha)]
          exact ih hlen hn
      · have hcur : ¬ LexState.current ⟨a :: s, n, buf⟩ lisspace = true := hsa
        rw [skipSpace, if_neg hcur, List.takeWhile_cons_of_neg hsa, List.dropWhile_cons_of_neg hsa]
        simp [lineBreaks, hn, eq_comm]

theorem luaO_utf8escLoop_succ (room x mfb : Nat) (out : Bytes) :
    luaO_utf8escLoop (room + 1) x mfb out =
      if x / 2 ^ 6 > mfb / 2 then luaO_utf8escLoop room (x / 2 ^ 6) (mfb / 2) (Utf8.tail x :: out)
      else .ofNat (((2 ^ 32 - 1 - mfb / 2) <<< 1) % 2 ^ 32 ||| (x / 2 ^ 6)) :: Utf8.tail x :: out := by
  have hor : ∀ y < 64, 0x80 ||| y = 0x80 + y := by decide
  have htail : UInt8.ofNat (0x80 ||| (x &&& 0x3f)) = Utf8.tail x := by
    rw [Utf8.tail, show (0x3f : Nat) = 2 ^ 6 - 1 from rfl, Nat.and_two_pow_sub_one_eq_mod,
      hor _ (Nat.mod_lt _ (by decide))]
  rw [luaO_utf8escLoop, htail, Nat.shiftRight_eq_div_pow, Nat.shiftRight_eq_div_pow, Nat.pow_one]

/-- The lead byte: `k` ones, a zero and the highest bits of the value. -/
theorem lead_byte : (∀ y < 32, UInt8.ofNat (((2 ^ 32 - 1 - 31) <<< 1) % 2 ^ 32 ||| y) = .ofNat (0xC0 + y)) ∧
    (∀ y < 16, UInt8.ofNat (((2 ^ 32 - 1 - 15) <<< 1) % 2 ^ 32 ||| y) = .ofNat (0xE0 + y)) ∧
    (∀ y < 8, UInt8.ofNat (((2 ^ 32 - 1 - 7) <<< 1) % 2 ^ 32 ||| y) = .ofNat (0xF0 + y)) ∧
    (∀ y < 4, UInt8.ofNat (((2 ^ 32 - 1 - 3) <<< 1) % 2 ^ 32 ||| y) = .ofNat (0xF8 + y)) ∧
    ∀ y < 2, UInt8.ofNat (((2 ^ 32 - 1 - 1) <<< 1) % 2 ^ 32 ||| y) = .ofNat (0xFC + y) := by
  decide

theorem luaO_utf8esc_eq {x : Nat} (hx : x < 2 ^ 31) : luaO_utf8esc x = Utf8.encode x := by
  obtain ⟨h2, h3, h4, h5, h6⟩ := lead_byte
  have d2 : x / 2 ^ 6 / 2 ^ 6 = x / 2 ^ 12 := by omega
  have d3 : x / 2 ^ 12 / 2 ^ 6 = x / 2 ^ 18 := by omega
  have d4 : x / 2 ^ 18 / 2 ^ 6 = x / 2 ^ 24 := by omega
  have d5 : x / 2 ^ 24 / 2 ^ 6 = x / 2 ^ 30 := by omega
  unfold luaO_utf8esc Utf8.encode
  split_ifs with h80 h800 h10000 h200000 h4000000
  · rfl
  · rw [luaO_utf8escLoop_succ, if_neg (by omega), h2 _ (by omega)]
  · rw [luaO_utf8escLoop_succ, if_pos (by omega), luaO_utf8escLoop_succ, d2, if_neg (by omega), h3 _ (by omega)]
  · rw [luaO_utf8escLoop_succ, if_pos (by omega), luaO_utf8escLoop_succ, d2, if_pos (by omega),
      luaO_utf8escLoop_succ, d3, if_neg (by omega), h4 _ (by omega)]
  · rw [luaO_utf8escLoop_succ, if_pos (by omega), luaO_utf8escLoop_succ, d2, if_pos (by omega),
      luaO_utf8escLoop_succ, d3, if_pos (by omega), luaO_utf8escLoop_succ, d4, if_neg (by omega),
      h5 _ (by omega)]
  · rw [luaO_utf8escLoop_succ, if_pos (by omega), luaO_utf8escLoop_succ, d2, if_pos (by omega),
      luaO_utf8escLoop_succ, d3, if_pos (by omega), luaO_utf8escLoop_succ, d4, if_pos (by omega),
      luaO_utf8escLoop_succ, d5, if_neg (by omega), h6 _ (by omega)]

end Tsuki.Lex
