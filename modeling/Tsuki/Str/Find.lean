import Tsuki.Str.Pack
import Tsuki.Str.MatchBounds

/-!
# `string.find`, `string.match` and `string.gsub`

The functions around the matcher, with their arguments converted: the subject, the pattern, the position and the
replacement string. The values pushed are the result. The stack of the thread, whose exhaustion is an error the
functions return, is left out.
-/

namespace Tsuki.Str

/-- `&xs[i..j]`. -/
def sliceRange (xs : Bytes) (i j : Nat) : Rust Bytes :=
  if i ≤ j ∧ j ≤ xs.length then .ok ((xs.drop i).take (j - i)) else .error .panic

def unwrap {α : Type} : Option α → Rust α
  | some a => .ok a
  | none => .error .panic

/-- Where `p` first occurs in `s`. -/
def firstOccurrence (s p : Bytes) : Option Nat := (List.range (s.length + 1)).find? fun i => p.isPrefixOf (s.drop i)

/-- `memchr::memmem`, whose `find` gives the first occurrence. -/
structure Memmem where
  find : Bytes → Bytes → Option Nat
  find_eq : ∀ s p, find s p = firstOccurrence s p

/-- A search from the start. -/
def Memmem.naive : Memmem := ⟨firstOccurrence, fun _ _ => rfl⟩

def nospecials (p : Bytes) : Bool :=
  !p.any fun b => b ∈ ['^', '$', '*', '+', '?', '.', '(', '[', '%', '-'].map byte

/-- The variable `anchor`. -/
def anchored (p : Bytes) : Bool := p.head? = some (byte '^')

/-- The pattern the matcher gets: `&p[1..]` where it is anchored. -/
def unanchored (p : Bytes) : Bytes := if anchored p then p.tail else p

/-! ## Captures -/

/-- `enum CaptureValue`. -/
inductive CaptureValue
  | num (v : Nat)
  | str (s : Bytes)
  deriving DecidableEq, Repr

def CaptureValue.toLua : CaptureValue → LuaValue
  | .num v => .int (Int64.ofNat v)
  | .str s => .str s

section

variable (src : Bytes)

/-- `get_onecapture`; `usize` has 64 bits. -/
def getOnecapture (cap : Captures) (i : Nat) (off e : Option Nat) : Rust CaptureValue :=
  match cap[i]? with
  | none =>
    if i = 0 then do
      let off ← unwrap off
      let e ← unwrap e
      (sliceRange src off e).map .str
    else .error (.msg ("invalid capture index %" ++ toString ((i + 1) % 2 ^ 64)))
  | some c =>
    if c.len = -1 then .error (.msg "unfinished capture")
    else if c.len = -2 then .ok (.num (c.off + 1))
    else if c.len < 0 then .error .panic
    else (sliceRange src c.off (c.off + c.len.toNat)).map .str

/-- The captures `push_captures` and `captures_to_values` go through. -/
def nlevels (cap : Captures) (off : Option Nat) : Nat := if cap = [] ∧ off.isSome then 1 else cap.length

/-- `push_captures`, from capture `i` on, `n` being left. -/
def pushCaptures (cap : Captures) (off e : Option Nat) : Nat → Nat → Rust (List LuaValue)
  | 0, _ => .ok []
  | n + 1, i => do
    let v ← getOnecapture src cap i off e
    let vs ← pushCaptures cap off e n (i + 1)
    .ok (v.toLua :: vs)

/-! ## `string.find` and `string.match` -/

/-- The loop of `str_find_aux`. -/
def findLoop (p : Bytes) (anchor find : Bool) (init : Nat) : Rust (List LuaValue) :=
  match match0 src 200 [] init p with
  | .error e => .error e
  | .ok (some res, cap) =>
    if find then (pushCaptures src cap none none (nlevels cap none) 0).map fun vs =>
      .int (Int64.ofNat (init + 1)) :: .int (Int64.ofNat res) :: vs
    else pushCaptures src cap (some init) (some res) (nlevels cap (some init)) 0
  | .ok (none, _) =>
    if init < src.length ∧ anchor = false then findLoop p anchor find (init + 1) else .ok [.nil]
termination_by src.length - init

end

section

variable (memmem : Memmem)

/-- `str_find_aux`; `plain` is the fourth argument. -/
def strFindAux (s p : LStr) (init : Option Int64) (plain find : Bool) : Rust (List LuaValue) := do
  let start ← posrelatI (init.getD 1) (Int64.ofNat s.bytes.length)
  let init := start - 1
  if init > s.bytes.length then .ok [.nil]
  else if find ∧ (plain ∨ nospecials p.bytes) then
    match memmem.find (s.bytes.drop init) p.bytes with
    | some i =>
      .ok [.int (Int64.ofNat (init + i + 1)), .int (Int64.ofNat (init + i + p.bytes.length))]
    | none => .ok [.nil]
  else findLoop s.bytes (unanchored p.bytes) (anchored p.bytes) find init

def find (s p : LStr) (init : Option Int64) (plain : Bool) : Rust (List LuaValue) :=
  strFindAux memmem s p init plain true

def «match» (s p : LStr) (init : Option Int64) : Rust (List LuaValue) := strFindAux memmem s p init false false

end

/-! ## `string.gsub` -/

section

variable (src : Bytes)

/-- The capture a digit names: `v.checked_sub(b'1').map(usize::from).unwrap_or(usize::MAX)`. -/
def digitIndex (c : UInt8) : Nat := if c < byte '1' then 2 ^ 64 - 1 else c.toNat - (byte '1').toNat

/-- What `add_s` writes for the character after `%`. -/
def addEscape (cap : Captures) (off e : Nat) (c : Option UInt8) : Rust Bytes :=
  match c with
  | none => sliceRange src off e
  | some c =>
    if c = byte '%' then .ok [byte '%']
    else if isAsciiDigit c then do
      match ← getOnecapture src cap (digitIndex c) (some off) (some e) with
      | .num v => .ok ((toString v).toUTF8.toList)
      | .str s => .ok s
    else .error (.msg "invalid use of '%' in replacement string")

/-- `add_s`: the replacement `tr` of the match from `off` to `e`. -/
def addS (cap : Captures) (off e : Nat) (tr : Bytes) : Rust Bytes :=
  match _h : tr.idxOf? (byte '%') with
  | none => .ok tr
  | some p => do
    let s ← addEscape src cap off e tr[p + 1]?
    if p + 2 ≤ tr.length then
      let rest ← addS cap off e (tr.drop (p + 2))
      .ok (tr.take p ++ s ++ rest)
    else .error .panic
termination_by tr.length

/-- `enum Replacement`: what a table has for a key, and what a function returns for the captures, is a text or nothing;
nothing is `nil` and `false`. -/
inductive Replacement
  | str (tr : Bytes)
  | table (get : CaptureValue → Rust (Option Bytes))
  | fn (call : List LuaValue → Rust (Option Bytes))

/-- The end of `add_value`: the match stays where there is nothing. -/
def orKeep (off e : Nat) : Option Bytes → Rust (Bool × Bytes)
  | none => (sliceRange src off e).map fun s => (false, s)
  | some s => .ok (true, s)

/-- `add_value`: whether there is a replacement, and what is appended. -/
def addValue (r : Replacement) (cap : Captures) (off e : Nat) : Rust (Bool × Bytes) :=
  match r with
  | .str tr => (addS src cap off e tr).map fun s => (true, s)
  | .table get => do
    let key ← getOnecapture src cap 0 (some off) (some e)
    orKeep src off e (← get key)
  | .fn call => do
    let args ← pushCaptures src cap (some off) (some e) (nlevels cap (some off)) 0
    orKeep src off e (← call args)

/-- The variables of the loop of `gsub`; `off` stays inside the subject. -/
structure GsubState where
  n : Int
  changed : Bool
  b : Bytes
  off : Nat
  off_le : off ≤ src.length
  lastmatch : Nat

/-- One turn of the loop of `gsub`: it goes on or breaks. -/
inductive GsubTurn
  | next (st : GsubState src)
  | stop (st : GsubState src)

variable {src}

/-- The turn goes on unless the pattern is anchored. -/
def GsubTurn.unless (anchor : Bool) (st : GsubState src) : GsubTurn src := if anchor then .stop st else .next st

/-- The turn without a replacement: it copies a character. -/
def gsubCopy (anchor : Bool) (st : GsubState src) : GsubTurn src :=
  if h : st.off < src.length then .unless anchor { st with b := st.b ++ [src[st.off]], off := st.off + 1, off_le := h }
  else .stop st

/-- One turn of the loop of `gsub`. -/
def valueTurn (p : Bytes) (r : Replacement) (anchor : Bool) (st : GsubState src) : Rust (GsubTurn src) :=
  match h : match0 src 200 [] st.off p with
  | .error e => .error e
  | .ok (none, _) => .ok (gsubCopy anchor st)
  | .ok (some e, cap) =>
    if e ≠ st.lastmatch then do
      let (changed, s) ← addValue src r cap st.off e
      .ok (.unless anchor
        ⟨st.n + 1, st.changed || changed, st.b ++ s, e, (match0_within ⟨st.off_le, by simp⟩ h).2.off_le, e⟩)
    else .ok (gsubCopy anchor st)

/-- The turn, with a replacement string. -/
def gsubTurn (p tr : Bytes) (anchor : Bool) (st : GsubState src) : Rust (GsubTurn src) :=
  valueTurn p (.str tr) anchor st

/-- What is left to do: a turn moves `off` on, or replaces an empty match where the last one did not end. -/
def GsubState.left (st : GsubState src) : Nat := 2 * (src.length - st.off) + if st.lastmatch = st.off then 0 else 1

theorem gsubCopy_next {anchor : Bool} {st st' : GsubState src} (h : gsubCopy anchor st = .next st') :
    st'.left < st.left := by
  unfold gsubCopy GsubTurn.unless at h
  split_ifs at h
  cases h
  simp only [GsubState.left]
  split_ifs <;> omega

theorem valueTurn_next {p : Bytes} {r : Replacement} {anchor : Bool} {st st' : GsubState src}
    (h : valueTurn p r anchor st = .ok (.next st')) : st'.left < st.left := by
  unfold valueTurn at h
  split at h
  · cases h
  · exact gsubCopy_next (Except.ok.inj h)
  · rename_i e cap hm
    split_ifs at h with he
    · obtain ⟨s, -, h⟩ := Rust.bind_eq_ok.mp h
      unfold GsubTurn.unless at h
      split_ifs at h
      · cases h
      obtain ⟨hle, hin⟩ := match0_within ⟨st.off_le, by simp⟩ hm
      have := hin.off_le
      cases h
      simp only [GsubState.left]
      split_ifs <;> omega
    · exact gsubCopy_next (Except.ok.inj h)

/-- The loop of `gsub`. -/
def valueLoop (p : Bytes) (r : Replacement) (anchor : Bool) (maxS : Int) (st : GsubState src) : Rust (GsubState src) :=
  if st.n < maxS then
    match _h : valueTurn p r anchor st with
    | .error e => .error e
    | .ok (.stop st) => .ok st
    | .ok (.next st) => valueLoop p r anchor maxS st
  else .ok st
termination_by st.left
decreasing_by exact valueTurn_next _h

/-- The loop, with a replacement string. -/
def gsubLoop (p tr : Bytes) (anchor : Bool) (maxS : Int) (st : GsubState src) : Rust (GsubState src) :=
  valueLoop p (.str tr) anchor maxS st

variable (src)

/-- The loop of `gsub` starts at the start of the subject; `lastmatch` is `usize::MAX`. -/
def GsubState.start : GsubState src := ⟨0, false, [], 0, Nat.zero_le _, 2 ^ 64 - 1⟩

end

/-- `string.gsub`; `maxS` is the fourth argument. -/
def gsubValue (src p : LStr) (r : Replacement) (maxS : Option Int64) : Rust (List LuaValue) := do
  let maxS := (maxS.getD (Int64.ofNat (src.bytes.length + 1))).toInt
  let st ← valueLoop (unanchored p.bytes) r (anchored p.bytes) maxS (.start src.bytes)
  .ok [.str (if st.changed then st.b ++ src.bytes.drop st.off else src.bytes), .int (Int64.ofInt st.n)]

/-- `string.gsub` with a replacement string. -/
def gsub (src p tr : LStr) (maxS : Option Int64) : Rust (List LuaValue) := gsubValue src p (.str tr.bytes) maxS

end Tsuki.Str
