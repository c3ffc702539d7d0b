import Tsuki.Rust

/-!
# The pattern matcher

`MatchState` as a state-passing program: the subject is fixed, the captures go through every call, and the
field `matchdepth` is the first argument of `match0`. Every index and slice of the source is checked, so that
a run that would panic in the source returns `Fault.panic` here.
-/

namespace Tsuki.Str

/-- The byte literal `b'c'`. -/
def byte (c : Char) : UInt8 := UInt8.ofNat c.toNat

/-- `&xs[i..]`. -/
def sliceFrom (xs : Bytes) (i : Nat) : Rust Bytes :=
  if i ≤ xs.length then .ok (xs.drop i) else .error .panic

/-- `&xs[..n]`. -/
def sliceTo (xs : Bytes) (n : Nat) : Rust Bytes :=
  if n ≤ xs.length then .ok (xs.take n) else .error .panic

/-- `struct MatchCapture`: `len` is -1 while the capture is open and -2 for a position capture. -/
structure MatchCapture where
  off : Nat
  len : Int
  deriving DecidableEq, Repr

abbrev Captures := List MatchCapture

/-! ## Character classes -/

def isAsciiUppercase (c : UInt8) : Bool := 65 ≤ c ∧ c ≤ 90

def isAsciiLowercase (c : UInt8) : Bool := 97 ≤ c ∧ c ≤ 122

def isAsciiDigit (c : UInt8) : Bool := 48 ≤ c ∧ c ≤ 57

def toAsciiLowercase (c : UInt8) : UInt8 := if isAsciiUppercase c then c + 32 else c

/-- The test of the class letter `cl`, in either case; `none` where `cl` is no class letter. -/
def classTest (cl c : UInt8) : Option Bool :=
  let l := toAsciiLowercase cl
  if l = byte 'a' then some (isAsciiUppercase c || isAsciiLowercase c)
  else if l = byte 'c' then some (c < 32 || c = 127)
  else if l = byte 'd' then some (isAsciiDigit c)
  else if l = byte 'g' then some (33 ≤ c && c ≤ 126)
  else if l = byte 'l' then some (isAsciiLowercase c)
  else if l = byte 'p' then
    some (33 ≤ c && c ≤ 47 || 58 ≤ c && c ≤ 64 || 91 ≤ c && c ≤ 96 || 123 ≤ c && c ≤ 126)
  else if l = byte 's' then some (c = 0x20 || c = 0x0c || c = 0x0a || c = 0x0d || c = 0x09 || c = 0x0b)
  else if l = byte 'u' then some (isAsciiUppercase c)
  else if l = byte 'w' then some (isAsciiUppercase c || isAsciiLowercase c || isAsciiDigit c)
  else if l = byte 'x' then some (isAsciiDigit c || 65 ≤ c && c ≤ 70 || 97 ≤ c && c ≤ 102)
  else none

def matchClass (c cl : UInt8) : Bool :=
  match classTest cl c with
  | none => cl = c
  | some res => if isAsciiLowercase cl then res else !res

/-- The loop of `classend` over a set, `p` after the opening bracket. -/
def setEnd (o : Nat) : Bytes → Rust Nat
  | [] => .error (.msg "malformed pattern (missing ']')")
  | c :: p =>
    if c = byte '%' ∧ p ≠ [] then
      if p.tail.head? ≠ some (byte ']') then setEnd (o + 2) p.tail else .ok (o + 3)
    else if p.head? ≠ some (byte ']') then setEnd (o + 1) p
    else .ok (o + 2)
termination_by p => p.length

/-- `classend`: the length of the single-character item `p` starts with. -/
def classend : Bytes → Rust Nat
  | [] => .ok 1
  | c :: p =>
    if c = byte '%' then
      if p = [] then .error (.msg "malformed pattern (ends with '%')") else .ok 2
    else if c = byte '[' then
      if p.head? = some (byte '^') then setEnd 2 p.tail else setEnd 1 p
    else .ok 1

/-- The loop of `matchbracketclass`, at index `i` before its increment. -/
def bracketLoop (c : UInt8) (p : Bytes) (ec : Nat) (sig : Bool) (i : Nat) : Rust Bool :=
  if i + 1 ≥ ec then .ok (sig == false)
  else do
    let x ← idx p (i + 1)
    if x = byte '%' then
      let cl ← idx p (i + 2)
      if matchClass c cl then .ok sig else bracketLoop c p ec sig (i + 2)
    else
      let y ← idx p (i + 2)
      if y = byte '-' ∧ i + 3 < ec then
        let hi ← idx p (i + 3)
        if x ≤ c ∧ c ≤ hi then .ok sig else bracketLoop c p ec sig (i + 3)
      else if x = c then .ok sig
      else bracketLoop c p ec sig (i + 1)
termination_by ec - i

/-- `matchbracketclass`; `ec` is the index of the closing bracket. -/
def matchbracketclass (c : UInt8) (p : Bytes) (ec : Nat) : Rust Bool := do
  let x ← idx p 1
  if x = byte '^' then bracketLoop c p ec false 1 else bracketLoop c p ec true 0

section

variable (src : Bytes)

def singlematch (off : Nat) (p : Bytes) (ep : Nat) : Rust Bool :=
  match src[off]? with
  | none => .ok false
  | some c =>
    if p.head? = some (byte '.') then .ok true
    else if p.head? = some (byte '%') then (idx p 1).map (matchClass c)
    else if p.head? = some (byte '[') then matchbracketclass c p (ep - 1)
    else (idx p 0).map (· = c)

theorem lt_of_singlematch {src : Bytes} {off ep : Nat} {p : Bytes}
    (h : singlematch src off p ep = .ok true) : off < src.length := by
  by_contra hge
  rw [singlematch, List.getElem?_eq_none (by omega)] at h
  cases h

/-! ## Balanced strings, frontiers and back references -/

/-- The loop of `matchbalance`; `cont` is an `i32`. -/
def balanceLoop (first : UInt8) (e : Option UInt8) (off cont : Nat) : Rust (Option Nat) :=
  if _h : off + 1 < src.length then
    if some (src.getD (off + 1) 0) = e then
      if cont - 1 = 0 then .ok (some (off + 2)) else balanceLoop first e (off + 1) (cont - 1)
    else if src.getD (off + 1) 0 = first then
      if cont + 1 > 2147483647 then .error .panic else balanceLoop first e (off + 1) (cont + 1)
    else balanceLoop first e (off + 1) cont
  else .ok none
termination_by src.length - off

/-- `matchbalance`; `p` follows `%b`. -/
def matchbalance (off : Nat) (p : Bytes) : Rust (Option Nat) :=
  match p with
  | [] => .error (.msg "malformed pattern (missing arguments to '%b')")
  | first :: rest => do
    let c ← idx src off
    if c ≠ first then .ok none else balanceLoop src first rest.head? off 1

/-- The variable `previous` of `%f`. -/
def frontierPrevious (off : Nat) : Rust UInt8 := if off = 0 then .ok 0 else idx src (off - 1)

/-- The test of `%f`; `p` starts at the set and `ep` is its length. -/
def frontier (off : Nat) (p : Bytes) (ep : Nat) : Rust Bool := do
  let previous ← frontierPrevious src off
  if ← matchbracketclass previous p (ep - 1) then .ok false
  else
    let c ← idx src off
    matchbracketclass c p (ep - 1)

/-- `check_capture`; `l` is the digit. -/
def checkCapture (cap : Captures) (l : UInt8) : Rust Nat :=
  let i : Int := l.toNat - (byte '1').toNat
  if i < 0 ∨ (cap[i.toNat]?.all fun c => c.len = -1) then
    .error (.msg ("invalid capture index %" ++ toString (i + 1)))
  else .ok i.toNat

def matchCapture (cap : Captures) (off : Nat) (l : UInt8) : Rust (Option Nat) := do
  let l ← checkCapture cap l
  let c ← idx cap l
  if c.len < 0 then .error .panic
  else
    let len := c.len.toNat
    let s ← sliceFrom src c.off
    let c ← sliceTo s len
    let s ← sliceFrom src off
    if len ≤ s.length then
      if s.take len = c then .ok (some (off + len)) else .ok none
    else .ok none

/-! ## The matcher -/

/-- A recursive call of `match_0`: the captures, the offset and the rest of the pattern. -/
abbrev Matcher := Captures → Nat → Bytes → Rust (Option Nat × Captures)

def startCapture (rec : Matcher) (cap : Captures) (off : Nat) (p : Bytes) (what : Int) :
    Rust (Option Nat × Captures) :=
  if cap.length ≥ 32 then .error (.msg "too many captures")
  else do
    let (res, cap) ← rec (cap ++ [⟨off, what⟩]) off p
    .ok (res, if res = none then cap.dropLast else cap)

/-- `capture_to_close`: the last capture that is still open. -/
def captureToClose (cap : Captures) : Rust Nat :=
  match cap.reverse.findIdx? (·.len = -1) with
  | some i => .ok (cap.length - 1 - i)
  | none => .error (.msg "invalid pattern capture")

def endCapture (rec : Matcher) (cap : Captures) (off : Nat) (p : Bytes) : Rust (Option Nat × Captures) := do
  let l ← captureToClose cap
  let c ← idx cap l
  if off < c.off then .error .panic
  else
    let (res, cap) ← rec (cap.set l ⟨c.off, (off - c.off : Nat)⟩) off p
    if res = none then
      let c ← idx cap l
      .ok (res, cap.set l ⟨c.off, -1⟩)
    else .ok (res, cap)

/-- The first loop of `max_expand`: how often the item matches from `off` on. -/
def countLoop (off : Nat) (p : Bytes) (ep i : Nat) : Rust Nat :=
  match _h : singlematch src (off + i) p ep with
  | .ok true => countLoop off p ep (i + 1)
  | .ok false => .ok i
  | .error e => .error e
termination_by src.length - (off + i)
decreasing_by
  have := lt_of_singlematch _h
  omega

/-- The second loop of `max_expand`, from `i` repetitions down to none. -/
def maxLoop (rec : Matcher) (off : Nat) (p : Bytes) (cap : Captures) : Nat → Rust (Option Nat × Captures)
  | 0 => rec cap off p
  | i + 1 => do
    let (res, cap) ← rec cap (off + (i + 1)) p
    match res with
    | some v => .ok (some v, cap)
    | none => maxLoop rec off p cap i

def maxExpand (rec : Matcher) (cap : Captures) (off : Nat) (p : Bytes) (ep : Nat) :
    Rust (Option Nat × Captures) := do
  let i ← countLoop src off p ep 0
  let rest ← sliceFrom p (ep + 1)
  maxLoop rec off rest cap i

/-- `min_expand`, `rest` being the pattern after the item. -/
def minLoop (rec : Matcher) (p : Bytes) (ep : Nat) (rest : Bytes) (cap : Captures) (off : Nat) :
    Rust (Option Nat × Captures) :=
  match rec cap off rest with
  | .error e => .error e
  | .ok (some v, cap) => .ok (some v, cap)
  | .ok (none, cap) =>
    match _h : singlematch src off p ep with
    | .ok true => minLoop rec p ep rest cap (off + 1)
    | .ok false => .ok (none, cap)
    | .error e => .error e
termination_by src.length - off
decreasing_by
  have := lt_of_singlematch _h
  omega

def minExpand (rec : Matcher) (cap : Captures) (off : Nat) (p : Bytes) (ep : Nat) :
    Rust (Option Nat × Captures) := do
  let rest ← sliceFrom p (ep + 1)
  minLoop src rec p ep rest cap off

/-- One turn of the loop of `match_0`: it goes on at another offset and pattern, or leaves with a result. -/
inductive Turn
  | next (cap : Captures) (off : Nat) (p : Bytes)
  | done (res : Option Nat) (cap : Captures)

/-- The turn that leaves the loop with the result of a call. -/
def Turn.leave (r : Rust (Option Nat × Captures)) : Rust Turn := r.map fun (res, cap) => .done res cap

/-- The turn for a single-character item and its quantifier. The source enters `max_expand` for `+` at `off`,
not at `off + 1`. -/
def singleTurn (rec : Matcher) (cap : Captures) (off : Nat) (p : Bytes) : Rust Turn := do
  let ep ← classend p
  let q := p[ep]?
  if ← singlematch src off p ep then
    if q = some (byte '?') then
      let rest ← sliceFrom p (ep + 1)
      let (res, cap) ← rec cap (off + 1) rest
      match res with
      | some v => .ok (.done (some v) cap)
      | none => .ok (.next cap off rest)
    else if q = some (byte '+') then Turn.leave (maxExpand src rec cap off p ep)
    else if q = some (byte '*') then Turn.leave (maxExpand src rec cap off p ep)
    else if q = some (byte '-') then Turn.leave (minExpand src rec cap off p ep)
    else
      let rest ← sliceFrom p ep
      .ok (.next cap (off + 1) rest)
  else if q = some (byte '*') ∨ q = some (byte '?') ∨ q = some (byte '-') then
    let rest ← sliceFrom p (ep + 1)
    .ok (.next cap off rest)
  else .ok (.done none cap)

/-- The turn for `%b`, `p` after it; the rest of the pattern starts behind its two arguments. -/
def balanceTurn (cap : Captures) (off : Nat) (p : Bytes) : Rust Turn := do
  match ← matchbalance src off p with
  | some v =>
    let rest ← sliceFrom p 2
    .ok (.next cap v rest)
  | none => .ok (.done none cap)

/-- The turn for `%f`, `p` after it. -/
def frontierTurn (cap : Captures) (off : Nat) (p : Bytes) : Rust Turn :=
  if p.head? ≠ some (byte '[') then .error (.msg "missing '[' after '%f' in pattern")
  else do
    let ep ← classend p
    if ← frontier src off p ep then
      let rest ← sliceFrom p ep
      .ok (.next cap off rest)
    else .ok (.done none cap)

/-- The turn for a back reference, `p` after its digit `l`. -/
def referenceTurn (cap : Captures) (off : Nat) (l : UInt8) (p : Bytes) : Rust Turn := do
  match ← matchCapture src cap off l with
  | some v => .ok (.next cap v p)
  | none => .ok (.done none cap)

/-- One turn of the loop of `match_0`. -/
def matchTurn (rec : Matcher) (cap : Captures) (off : Nat) (p : Bytes) : Rust Turn :=
  match p with
  | [] => .ok (.done (some off) cap)
  | first :: rest =>
    if first = byte '(' then
      if rest.head? = some (byte ')') then Turn.leave (startCapture rec cap off rest.tail (-2))
      else Turn.leave (startCapture rec cap off rest (-1))
    else if first = byte ')' then Turn.leave (endCapture rec cap off rest)
    else if first = byte '$' ∧ rest = [] then
      .ok (.done (if off = src.length then some off else none) cap)
    else if first = byte '%' then
      match rest with
      | [] => singleTurn src rec cap off p
      | c :: rest =>
        if c = byte 'b' then balanceTurn src cap off rest
        else if c = byte 'f' then frontierTurn src cap off rest
        else if isAsciiDigit c then referenceTurn src cap off c rest
        else singleTurn src rec cap off p
    else singleTurn src rec cap off p

end

/-! ### The loop consumes the pattern -/

theorem sliceFrom_eq_ok {xs ys : Bytes} {i : Nat} (h : sliceFrom xs i = .ok ys) :
    i ≤ xs.length ∧ ys = xs.drop i := by
  unfold sliceFrom at h
  split at h
  · exact ⟨‹_›, (Except.ok.inj h).symm⟩
  · cases h

theorem le_setEnd {o n : Nat} {p : Bytes} (h : setEnd o p = .ok n) : o + 2 ≤ n := by
  induction o, p using setEnd.induct with
  | case1 => simp [setEnd] at h
  | case2 o c p hc hne ih =>
    rw [setEnd, if_pos hc, if_pos hne] at h
    have := ih h
    omega
  | case3 o c p hc hne =>
    rw [setEnd, if_pos hc, if_neg hne] at h
    cases h
    omega
  | case4 o c p hc hne ih =>
    rw [setEnd, if_neg hc, if_pos hne] at h
    have := ih h
    omega
  | case5 o c p hc hne =>
    rw [setEnd, if_neg hc, if_neg hne] at h
    cases h
    omega

theorem one_le_classend {p : Bytes} {ep : Nat} (h : classend p = .ok ep) : 1 ≤ ep := by
  unfold classend at h
  split at h
  · cases h
    omega
  · split_ifs at h <;> first
      | (cases h; omega)
      | exact le_trans (by omega) (le_setEnd h)

section

variable {src : Bytes} {rec : Matcher} {cap cap' : Captures} {off off' : Nat} {p p' : Bytes}

theorem leave_ne_next {r : Rust (Option Nat × Captures)} : Turn.leave r ≠ .ok (.next cap' off' p') := by
  cases r <;> simp [Turn.leave, Except.map]

theorem singleTurn_next (h : singleTurn src rec cap off p = .ok (.next cap' off' p')) (hp : p ≠ []) :
    p'.length < p.length := by
  obtain ⟨ep, hep, h⟩ := Rust.bind_eq_ok.mp h
  obtain ⟨m, -, h⟩ := Rust.bind_eq_ok.mp h
  have hlen := List.length_pos_iff.mpr hp
  have h1 := one_le_classend hep
  have hdrop : ∀ {k : Nat} {q : Bytes}, 1 ≤ k → sliceFrom p k = .ok q → q.length < p.length := by
    intro k q hk hq
    rw [(sliceFrom_eq_ok hq).2, List.length_drop]
    omega
  dsimp only at h
  split_ifs at h
  · obtain ⟨rest, hrest, h⟩ := Rust.bind_eq_ok.mp h
    obtain ⟨⟨res, cap₁⟩, -, h⟩ := Rust.bind_eq_ok.mp h
    dsimp only at h
    split at h
    · cases h
    · cases h
      exact hdrop (by omega) hrest
  · exact absurd h leave_ne_next
  · exact absurd h leave_ne_next
  · exact absurd h leave_ne_next
  · obtain ⟨rest, hrest, h⟩ := Rust.bind_eq_ok.mp h
    cases h
    exact hdrop h1 hrest
  · obtain ⟨rest, hrest, h⟩ := Rust.bind_eq_ok.mp h
    cases h
    exact hdrop (by omega) hrest
  · cases h

theorem matchTurn_next (h : matchTurn src rec cap off p = .ok (.next cap' off' p')) :
    p'.length < p.length := by
  unfold matchTurn at h
  split at h
  · cases h
  · rename_i first rest
    split_ifs at h
    · exact absurd h leave_ne_next
    · exact absurd h leave_ne_next
    · exact absurd h leave_ne_next
    · cases h
    · cases h
    · rcases rest with _ | ⟨c, rest⟩
      · exact singleTurn_next h (by simp)
      · dsimp only at h
        have hle : ∀ {k : Nat} {q : Bytes}, sliceFrom rest k = .ok q → q.length ≤ rest.length := by
          intro k q hq
          rw [(sliceFrom_eq_ok hq).2, List.length_drop]
          omega
        have hlen : ∀ {q : Bytes}, q.length ≤ rest.length → q.length < (first :: c :: rest).length := by
          intro q hq
          simp only [List.length_cons]
          omega
        split_ifs at h
        · obtain ⟨v, -, h⟩ := Rust.bind_eq_ok.mp h
          split at h
          · obtain ⟨q, hq, h⟩ := Rust.bind_eq_ok.mp h
            cases h
            exact hlen (hle hq)
          · cases h
        · unfold frontierTurn at h
          split_ifs at h
          obtain ⟨ep, -, h⟩ := Rust.bind_eq_ok.mp h
          obtain ⟨m, -, h⟩ := Rust.bind_eq_ok.mp h
          split_ifs at h
          · obtain ⟨q, hq, h⟩ := Rust.bind_eq_ok.mp h
            cases h
            exact hlen (hle hq)
          · cases h
        · obtain ⟨v, -, h⟩ := Rust.bind_eq_ok.mp h
          split at h
          · cases h
            exact hlen (le_refl _)
          · cases h
        · exact singleTurn_next h (by simp)
    · exact singleTurn_next h (by simp)

end

section

variable (src : Bytes)

/-- The loop of `match_0`. -/
def matchLoop (rec : Matcher) (cap : Captures) (off : Nat) (p : Bytes) : Rust (Option Nat × Captures) :=
  match _h : matchTurn src rec cap off p with
  | .error e => .error e
  | .ok (.done res cap) => .ok (res, cap)
  | .ok (.next cap off p) => matchLoop rec cap off p
termination_by p.length
decreasing_by exact matchTurn_next _h

/-- `match_0` with `matchdepth` levels left. -/
def match0 : Nat → Matcher
  | 0 => fun _ _ _ => .error (.msg "pattern too complex")
  | d + 1 => matchLoop src (match0 d)

end

end Tsuki.Str
