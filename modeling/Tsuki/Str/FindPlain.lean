import Tsuki.Str.MatchRefine
import Tsuki.Str.FindSafe

/-!
# Plain search, and the positions of the string functions

A pattern of plain bytes is looked for by `memmem::find`, not by the matcher; here the two are shown to find the same
place. The positions the string functions take are integers of any sign, and `posrelatI` and `getendpos` make indices
of them: position `k` of a string is byte `k` counted from 1, and a negative one counts from the end.
-/

namespace Tsuki.Str

/-! ## Positions -/

/-- The position an argument names in a string of `len` bytes; it need not lie inside. -/
def position (len : Nat) (pos : Int64) : Int := if 0 ≤ pos.toInt then pos.toInt else len + pos.toInt + 1

/-- The bytes of `s` whose positions lie between `a` and `b`. -/
def between (s : Bytes) (a b : Int) : Bytes :=
  ((s.zipIdx 1).filter fun c => decide (a ≤ c.2 ∧ (c.2 : Int) ≤ b)).map (·.1)

def getendpos (pos len : Int64) : Rust Nat :=
  if pos > len then Rust.u64OfI64 len
  else if pos ≥ 0 then .ok pos.toInt.toNat
  else do
    let neg ← Rust.i64 (-len.toInt)
    if pos < neg then .ok 0
    else do
      let sum ← Rust.i64 (len.toInt + pos.toInt)
      let sum ← Rust.i64 (sum.toInt + 1)
      Rust.u64OfI64 sum

def sub (s : LStr) (start : Int64) (stop : Option Int64) : Rust LuaValue := do
  let len := Int64.ofNat s.bytes.length
  let start ← posrelatI start len
  let stop ← getendpos (stop.getD (-1)) len
  if start ≤ stop then
    let tail ← sliceFrom s.bytes (start - 1)
    let s ← sliceTo tail (stop - start + 1)
    .ok (.str s)
  else .ok (.str [])

/-- `string.byte`; `reserve` tells for how many values the stack has room. -/
def stringByte (reserve : Nat → Bool) (s : LStr) (pi pose : Option Int64) : Rust (List LuaValue) := do
  let pi := pi.getD 1
  let l := Int64.ofNat s.bytes.length
  let posi ← posrelatI pi l
  let pose ← getendpos (pose.getD pi) l
  if posi > pose then .ok []
  else
    let n := pose - posi + 1
    if reserve n then (List.range n).mapM fun i => (idx s.bytes (posi - 1 + i)).map fun b => .int (Int64.ofNat b.toNat)
    else .error (.msg "string slice too long")

theorem i64_eq {z : Int} (hlo : -2 ^ 63 ≤ z) (hhi : z < 2 ^ 63) : ∃ w : Int64, Rust.i64 z = .ok w ∧ w.toInt = z :=
  ⟨_, if_pos ⟨hlo, hhi⟩, Int64.toInt_ofInt_of_le hlo hhi⟩

theorem u64OfI64_eq {z : Int64} (h : 0 ≤ z.toInt) : Rust.u64OfI64 z = .ok z.toInt.toNat := if_pos h

/-- A position below `-len` lies before the start by more than one. -/
theorem lt_neg_iff {len : Nat} {pos neg : Int64} (hneg : neg.toInt = -(len : Int)) :
    pos < neg ↔ (len : Int) + pos.toInt < 0 := by
  rw [Int64.lt_iff_toInt_lt, hneg]
  omega

section

variable {len : Nat} (hlen : len ≤ isizeMax)
include hlen

theorem toInt_ofNat_length : (Int64.ofNat len).toInt = len :=
  Int64.toInt_ofNat_of_lt (by rw [isizeMax] at hlen; omega)

theorem length_lt : (len : Int) < 2 ^ 63 := by
  rw [isizeMax] at hlen
  omega

theorem fromEnd_eq {pos : Int64} (hneg : pos.toInt < 0) (hlow : 0 ≤ (len : Int) + pos.toInt) :
    ∃ sum sum' : Int64, Rust.i64 ((len : Int) + pos.toInt) = .ok sum ∧ Rust.i64 (sum.toInt + 1) = .ok sum' ∧
      Rust.u64OfI64 sum' = .ok ((len : Int) + pos.toInt + 1).toNat := by
  have hmax := length_lt hlen
  obtain ⟨sum, hsum, hsumv⟩ := i64_eq (z := len + pos.toInt) (by omega) (by omega)
  obtain ⟨sum', hsum', hsumv'⟩ := i64_eq (z := sum.toInt + 1) (by omega) (by omega)
  refine ⟨sum, sum', hsum, hsum', ?_⟩
  rw [u64OfI64_eq (by omega), hsumv', hsumv]

theorem posrelatI_eq (pos : Int64) :
    posrelatI pos (Int64.ofNat len) = .ok (max 1 (position len pos)).toNat := by
  have hmax := length_lt hlen
  have hpos : pos > 0 ↔ 0 < pos.toInt := Int64.lt_iff_toInt_lt
  have hnz : ∀ {r n : Nat}, 0 < r → r = n → Rust.nonZero r = .ok n := by
    intro r n hr hn
    rw [← hn]
    exact if_neg (Nat.ne_of_gt hr)
  obtain ⟨neg, hneg, hnegv⟩ := i64_eq (z := -(len : Int)) (by omega) (by omega)
  rw [posrelatI, toInt_ofNat_length hlen, hneg]
  by_cases h0 : 0 < pos.toInt
  · rw [if_pos (hpos.mpr h0), position, if_pos (by omega)]
    exact hnz (by omega) (by omega)
  rw [if_neg (fun h => h0 (hpos.mp h))]
  by_cases hzero : pos = 0
  · subst hzero
    rfl
  have hlt : pos.toInt < 0 := by
    have : pos.toInt ≠ 0 := fun h => hzero (Int64.toInt.inj h)
    omega
  rw [if_neg hzero, Rust.ok_bind, position, if_neg (Int.not_le.mpr hlt)]
  by_cases hlow : (len : Int) + pos.toInt < 0
  · rw [if_pos ((lt_neg_iff hnegv).mpr hlow)]
    exact hnz Nat.one_pos (by omega)
  · obtain ⟨sum, sum', hsum, hsum', hr⟩ := fromEnd_eq hlen hlt (by omega)
    rw [if_neg (fun h => hlow ((lt_neg_iff hnegv).mp h)), hsum, Rust.ok_bind, hsum', Rust.ok_bind, hr]
    exact hnz (by omega) (by omega)

theorem getendpos_eq (pos : Int64) :
    getendpos pos (Int64.ofNat len) = .ok (min (len : Int) (max 0 (position len pos))).toNat := by
  have hmax := length_lt hlen
  have hl := toInt_ofNat_length hlen
  have hgt : pos > Int64.ofNat len ↔ (len : Int) < pos.toInt := by rw [gt_iff_lt, Int64.lt_iff_toInt_lt, hl]
  have hge : pos ≥ 0 ↔ 0 ≤ pos.toInt := Int64.le_iff_toInt_le
  obtain ⟨neg, hneg, hnegv⟩ := i64_eq (z := -(len : Int)) (by omega) (by omega)
  rw [getendpos, hl, hneg]
  by_cases hpast : (len : Int) < pos.toInt
  · rw [if_pos (hgt.mpr hpast), u64OfI64_eq (by omega), hl, position, if_pos (by omega)]
    exact congrArg Except.ok (by omega)
  rw [if_neg (fun h => hpast (hgt.mp h))]
  by_cases h0 : 0 ≤ pos.toInt
  · rw [if_pos (hge.mpr h0), position, if_pos h0]
    exact congrArg Except.ok (by omega)
  rw [if_neg (fun h => h0 (hge.mp h)), Rust.ok_bind, position, if_neg h0]
  by_cases hlow : (len : Int) + pos.toInt < 0
  · rw [if_pos ((lt_neg_iff hnegv).mpr hlow)]
    exact congrArg Except.ok (by omega)
  · obtain ⟨sum, sum', hsum, hsum', hr⟩ := fromEnd_eq hlen (Int.not_le.mp h0) (by omega)
    rw [if_neg (fun h => hlow ((lt_neg_iff hnegv).mp h)), hsum, Rust.ok_bind, hsum', Rust.ok_bind, hr]
    exact congrArg Except.ok (by omega)

end

theorem filter_zipIdx (s : Bytes) (n a b : Nat) :
    ((s.zipIdx n).filter fun c => decide (a ≤ c.2 ∧ c.2 < b)).map (·.1) = (s.drop (a - n)).take (b - max a n) := by
  induction s generalizing n with
  | nil => simp
  | cons x s ih =>
    rw [List.zipIdx_cons, List.filter_cons]
    rcases Nat.lt_or_ge n a with hlow | hlow
    · rw [if_neg (by simp [hlow]), ih, show a - n = a - (n + 1) + 1 by omega, List.drop_succ_cons]
      congr 1
      omega
    rw [show a - n = 0 by omega, List.drop_zero, max_eq_right hlow]
    rcases Nat.lt_or_ge n b with hhigh | hhigh
    · rw [if_pos (by simp [hlow, hhigh]), List.map_cons, ih, show b - n = b - (n + 1) + 1 by omega,
        List.take_succ_cons, show a - (n + 1) = 0 by omega, List.drop_zero, max_eq_right (by omega)]
    · rw [if_neg (by simp [hhigh]), ih, show b - n = 0 by omega, show b - max a (n + 1) = 0 by omega, List.take_zero,
        List.take_zero]

/-- A range of positions, clipped to the string, is cut out by index. -/
theorem between_eq (s : Bytes) (a b : Int) :
    between s a b =
      (s.drop ((max 1 a).toNat - 1)).take ((min (s.length : Int) (max 0 b)).toNat + 1 - (max 1 a).toNat) := by
  have hclip : ∀ c ∈ s.zipIdx 1, decide (a ≤ c.2 ∧ (c.2 : Int) ≤ b) =
      decide ((max 1 a).toNat ≤ c.2 ∧ c.2 < (min (s.length : Int) (max 0 b)).toNat + 1) := by
    intro c hc
    have hlo := List.le_snd_of_mem_zipIdx hc
    have hhi := List.snd_lt_of_mem_zipIdx hc
    rw [decide_eq_decide]
    omega
  have hone : max (max 1 a).toNat 1 = (max 1 a).toNat := by omega
  rw [between, List.filter_congr hclip, filter_zipIdx, hone]

/-- `string.sub` never panics, and gives the bytes between the two positions. -/
theorem sub_eq (s : LStr) (start : Int64) (stop : Option Int64) :
    sub s start stop = .ok (.str (between s.bytes (position s.bytes.length start)
      (position s.bytes.length (stop.getD (-1))))) := by
  rw [sub, posrelatI_eq s.length_le, Rust.ok_bind, getendpos_eq s.length_le, Rust.ok_bind, between_eq]
  generalize hi : (max 1 (position s.bytes.length start)).toNat = i
  generalize hj : (min (s.bytes.length : Int) (max 0 (position s.bytes.length (stop.getD (-1))))).toNat = j
  by_cases hle : i ≤ j
  · rw [if_pos hle, sliceFrom, if_pos (by omega), Rust.ok_bind, sliceTo, if_pos (by rw [List.length_drop]; omega),
      Rust.ok_bind, show j - i + 1 = j + 1 - i by omega]
  · rw [if_neg hle, show j + 1 - i = 0 by omega, List.take_zero]

/-- The reads of `string.byte`, one after the other. -/
theorem mapM_idx {s : Bytes} {o n : Nat} (h : o + n ≤ s.length) :
    ((List.range n).mapM fun i => (idx s (o + i)).map fun b => LuaValue.int (Int64.ofNat b.toNat)) =
      .ok (((s.drop o).take n).map fun b => .int (Int64.ofNat b.toNat)) := by
  induction n with
  | zero => rfl
  | succ n ih =>
    have hlt : o + n < s.length := by omega
    rw [List.range_succ, List.mapM_append, ih (by omega), List.take_add_one, List.map_append, List.getElem?_drop,
      List.getElem?_eq_getElem hlt]
    simp [idx_of_lt hlt, bind, Except.bind, pure, Except.pure, Except.map]

/-- `string.byte` never panics, and gives the bytes between the two positions where the stack has room for them. -/
theorem stringByte_eq (reserve : Nat → Bool) (s : LStr) (pi pose : Option Int64) :
    let bytes := between s.bytes (position s.bytes.length (pi.getD 1))
      (position s.bytes.length (pose.getD (pi.getD 1)))
    stringByte reserve s pi pose =
      if bytes = [] ∨ reserve bytes.length then .ok (bytes.map fun b => .int (Int64.ofNat b.toNat))
      else .error (.msg "string slice too long") := by
  intro bytes
  have hbytes := between_eq s.bytes (position s.bytes.length (pi.getD 1))
    (position s.bytes.length (pose.getD (pi.getD 1)))
  rw [stringByte]
  dsimp only
  rw [posrelatI_eq s.length_le, Rust.ok_bind, getendpos_eq s.length_le, Rust.ok_bind]
  generalize hi : (max 1 (position s.bytes.length (pi.getD 1))).toNat = i at hbytes ⊢
  generalize hj : (min (s.bytes.length : Int) (max 0 (position s.bytes.length (pose.getD (pi.getD 1))))).toNat = j
    at hbytes ⊢
  have hlen : bytes.length = j + 1 - i := by
    rw [show bytes.length = _ from congrArg List.length hbytes, List.length_take, List.length_drop]
    omega
  by_cases hle : i > j
  · have hnil : bytes = [] := List.length_eq_zero_iff.mp (by omega)
    rw [if_pos hle, if_pos (.inl hnil), hnil, List.map_nil]
  · have hne : bytes ≠ [] := fun h => by
      rw [h, List.length_nil] at hlen
      omega
    rw [if_neg hle, hlen, show j - i + 1 = j + 1 - i by omega]
    by_cases hroom : reserve (j + 1 - i)
    · rw [if_pos hroom, if_pos (.inr hroom), mapM_idx (by omega)]
      exact congrArg (fun b => Except.ok (List.map _ b)) hbytes.symm
    · rw [if_neg hroom, if_neg (fun h => h.elim hne hroom)]

/-! ## Plain search -/

/-- A byte the matcher takes for itself and for nothing else. -/
def Ordinary (b : UInt8) : Prop :=
  b ∉ ['^', '$', '*', '+', '?', '.', '(', '[', '%', '-'].map byte ∧ b ≠ byte ')'

/-- `string.find` without the shortcut of `str_find_aux`: the loop over `match_0` from the same position. -/
def findByMatch (s p : LStr) (init : Option Int64) : Rust (List LuaValue) := do
  let start ← posrelatI (init.getD 1) (Int64.ofNat s.bytes.length)
  let init := start - 1
  if init > s.bytes.length then .ok [.nil]
  else findLoop s.bytes (unanchored p.bytes) (anchored p.bytes) true init

theorem ordinary_of_nospecials {p : Bytes} (hp : nospecials p) (hparen : byte ')' ∉ p) : ∀ b ∈ p, Ordinary b := by
  intro b hb
  simp only [nospecials, Bool.not_eq_true', List.any_eq_false, decide_eq_true_eq] at hp
  exact ⟨hp b hb, fun h => hparen (h ▸ hb)⟩

theorem Ordinary.ne {b : UInt8} (h : Ordinary b) {c : Char} (hc : c ∈ ['^', '$', '*', '+', '?', '.', '(', '[', '%', '-']) :
    b ≠ byte c := fun he => h.1 (he ▸ List.mem_map_of_mem hc)

theorem not_anchored {p : Bytes} (hp : ∀ b ∈ p, Ordinary b) : anchored p = false := by
  rcases p with _ | ⟨c, p⟩
  · rfl
  · rw [anchored, List.head?_cons, decide_eq_false_iff_not, Option.some_inj]
    exact (hp c (by simp)).ne (by simp)

section

variable {src : Bytes} {rec : Matcher} {cap : Captures} {off : Nat}

theorem singlematch_ordinary {c : UInt8} (hc : Ordinary c) (p : Bytes) (off ep : Nat) :
    singlematch src off (c :: p) ep = .ok (decide (src[off]? = some c)) := by
  unfold singlematch
  cases hs : src[off]? with
  | none => rfl
  | some b =>
    have hdot : ¬(c :: p).head? = some (byte '.') := fun h => hc.ne (by simp) (Option.some.inj h)
    have hesc : ¬(c :: p).head? = some (byte '%') := fun h => hc.ne (by simp) (Option.some.inj h)
    have hset : ¬(c :: p).head? = some (byte '[') := fun h => hc.ne (by simp) (Option.some.inj h)
    dsimp only
    rw [if_neg hdot, if_neg hesc, if_neg hset]
    refine congrArg Except.ok (decide_eq_decide.mpr ?_)
    rw [Option.some_inj]
    exact eq_comm

/-- A plain byte without a quantifier after it is one turn of the loop. -/
theorem matchTurn_ordinary {c : UInt8} {p : Bytes} (hp : ∀ b ∈ c :: p, Ordinary b) :
    matchTurn src rec cap off (c :: p) =
      .ok (if src[off]? = some c then .next cap (off + 1) p else .done none cap) := by
  have hc : Ordinary c := hp c (by simp)
  have hq : ∀ q ∈ ['^', '$', '*', '+', '?', '.', '(', '[', '%', '-'], ¬p[0]? = some (byte q) :=
    fun q hq h => (hp _ (List.mem_cons_of_mem _ (List.mem_of_getElem? h))).ne hq rfl
  have hend : classend (c :: p) = .ok 1 := by
    rw [classend, if_neg (hc.ne (by simp)), if_neg (hc.ne (by simp))]
  have hsingle : matchTurn src rec cap off (c :: p) = singleTurn src rec cap off (c :: p) := by
    unfold matchTurn
    dsimp only
    rw [if_neg (hc.ne (by simp)), if_neg hc.2, if_neg (fun h => hc.ne (by simp) h.1),
      if_neg (hc.ne (by simp))]
  rw [hsingle, singleTurn, hend, Rust.ok_bind, singlematch_ordinary hc, Rust.ok_bind]
  dsimp only
  rw [List.getElem?_cons_succ]
  by_cases hs : src[off]? = some c
  · rw [decide_eq_true hs, if_pos rfl, if_pos hs, if_neg (hq _ (by simp)), if_neg (hq _ (by simp)),
      if_neg (hq _ (by simp)), if_neg (hq _ (by simp)), sliceFrom_of_le (by simp), Rust.ok_bind, List.drop_one,
      List.tail_cons]
  · rw [decide_eq_false hs, if_neg (by simp), if_neg hs,
      if_neg (fun h => h.elim (hq _ (by simp)) fun h => h.elim (hq _ (by simp)) (hq _ (by simp)))]

/-- On a plain pattern the matcher compares bytes. -/
theorem matchLoop_ordinary {p : Bytes} (hp : ∀ b ∈ p, Ordinary b) (off : Nat) :
    matchLoop src rec cap off p =
      .ok (if p.isPrefixOf (src.drop off) then some (off + p.length) else none, cap) := by
  induction p generalizing off with
  | nil => rw [matchLoop_of_done rfl, List.isPrefixOf_nil_left, if_pos rfl, List.length_nil, Nat.add_zero]
  | cons c p ih =>
    have hturn : matchTurn src rec cap off (c :: p) =
        .ok (if src[off]? = some c then .next cap (off + 1) p else .done none cap) := matchTurn_ordinary hp
    by_cases hs : src[off]? = some c
    · obtain ⟨hlt, hc⟩ := List.getElem?_eq_some_iff.mp hs
      rw [if_pos hs] at hturn
      rw [matchLoop_of_next hturn, ih (fun b hb => hp b (List.mem_cons_of_mem _ hb)), List.drop_eq_getElem_cons hlt,
        List.isPrefixOf_cons_cons, hc, beq_self_eq_true, Bool.true_and, List.length_cons, Nat.add_right_comm,
        Nat.add_assoc]
    · rw [if_neg hs] at hturn
      have hfalse : (c :: p).isPrefixOf (src.drop off) = false := by
        rw [← Bool.not_eq_true, List.isPrefixOf_iff_prefix]
        rintro ⟨rest, h⟩
        refine hs ?_
        rw [← Nat.add_zero off, ← List.getElem?_drop, ← h]
        rfl
      rw [matchLoop_of_done hturn, hfalse, if_neg (by simp)]

end

/-- The first place a pattern occurs at is the start, or lies in the rest. -/
theorem firstOccurrence_cons (x : UInt8) (s p : Bytes) :
    firstOccurrence (x :: s) p = if p.isPrefixOf (x :: s) then some 0 else (firstOccurrence s p).map (· + 1) := by
  rw [firstOccurrence, List.length_cons, List.range_succ_eq_map, List.find?_cons, List.drop_zero]
  cases hx : p.isPrefixOf (x :: s) with
  | true => rfl
  | false =>
    rw [List.find?_map, if_neg (by simp)]
    rfl

/-- The loop over `match_0` stops at the first place a plain pattern occurs at. -/
theorem findLoop_plain {s p : Bytes} (hp : ∀ b ∈ p, Ordinary b) {init : Nat} (h : init ≤ s.length) :
    findLoop s p false true init = .ok (match firstOccurrence (s.drop init) p with
      | some i => [.int (Int64.ofNat (init + i + 1)), .int (Int64.ofNat (init + i + p.length))]
      | none => [.nil]) := by
  obtain ⟨n, hn⟩ : ∃ n, s.length - init = n := ⟨_, rfl⟩
  induction n generalizing init with
  | zero =>
    obtain rfl : init = s.length := by omega
    rw [findLoop, match0, matchLoop_ordinary hp, List.drop_length]
    rcases p with _ | ⟨c, p⟩
    · rfl
    · rw [List.isPrefixOf_cons_nil]
      simp [firstOccurrence]
  | succ n ih =>
    have hlt : init < s.length := by omega
    rw [findLoop, match0, matchLoop_ordinary hp, List.drop_eq_getElem_cons hlt, firstOccurrence_cons]
    by_cases hx : p.isPrefixOf (s[init] :: s.drop (init + 1))
    · rw [if_pos hx, if_pos hx]
      rfl
    · rw [if_neg hx, if_neg hx]
      dsimp only
      rw [if_pos ⟨hlt, rfl⟩, ih (by omega) (by omega)]
      cases firstOccurrence (s.drop (init + 1)) p with
      | none => rfl
      | some i =>
        dsimp only [Option.map_some]
        rw [Nat.add_right_comm init 1 i, ← Nat.add_assoc]

/-! ## The shortcut and the positions together -/

/-- Where a plain pattern is searched without the matcher, the matcher finds the same; the positions the string
functions take never panic, and denote bytes counted from 1, or from the end, clipped to the string. -/
theorem plain_search_and_positions :
    (∀ (memmem : Memmem) (s p : LStr) (init : Option Int64) (plain : Bool), nospecials p.bytes → byte ')' ∉ p.bytes →
      find memmem s p init plain = findByMatch s p init ∧
      find memmem s p init plain = .ok (
        let init := (max 1 (position s.bytes.length (init.getD 1))).toNat - 1
        if init > s.bytes.length then [.nil]
        else match firstOccurrence (s.bytes.drop init) p.bytes with
          | some i => [.int (Int64.ofNat (init + i + 1)), .int (Int64.ofNat (init + i + p.bytes.length))]
          | none => [.nil])) ∧
    (∀ (s : LStr) (pos : Int64),
      posrelatI pos (Int64.ofNat s.bytes.length) = .ok (max 1 (position s.bytes.length pos)).toNat ∧
      getendpos pos (Int64.ofNat s.bytes.length) =
        .ok (min (s.bytes.length : Int) (max 0 (position s.bytes.length pos))).toNat) ∧
    (∀ (s : LStr) (start : Int64) (stop : Option Int64),
      sub s start stop = .ok (.str (between s.bytes (position s.bytes.length start)
        (position s.bytes.length (stop.getD (-1)))))) ∧
    (∀ (reserve : Nat → Bool) (s : LStr) (pi pose : Option Int64),
      let bytes := between s.bytes (position s.bytes.length (pi.getD 1))
        (position s.bytes.length (pose.getD (pi.getD 1)))
      stringByte reserve s pi pose =
        if bytes = [] ∨ reserve bytes.length then .ok (bytes.map fun b => .int (Int64.ofNat b.toNat))
        else .error (.msg "string slice too long")) ∧
    ∀ (tgt : Target) (cv : Conv) (fmt : List Char) (data : LStr) (init : Option Int64),
      let pos := (max 1 (position data.bytes.length (init.getD 1))).toNat - 1
      unpack tgt cv fmt data init =
        if pos > data.bytes.length then .error (.arg 3 "initial position out of string")
        else unpackLoop tgt cv data.bytes ⟨.new tgt, fmt.takeWhile (· ≠ '\x00'), pos, []⟩ := by
  refine ⟨?_, fun s pos => ⟨posrelatI_eq s.length_le pos, getendpos_eq s.length_le pos⟩, sub_eq, stringByte_eq,
    ?_⟩
  · intro memmem s p init plain hp hparen
    have hplain := ordinary_of_nospecials hp hparen
    have hshort : find memmem s p init plain = .ok (
        let init := (max 1 (position s.bytes.length (init.getD 1))).toNat - 1
        if init > s.bytes.length then [.nil]
        else match firstOccurrence (s.bytes.drop init) p.bytes with
          | some i => [.int (Int64.ofNat (init + i + 1)), .int (Int64.ofNat (init + i + p.bytes.length))]
          | none => [.nil]) := by
      rw [find, strFindAux, posrelatI_eq s.length_le, Rust.ok_bind]
      dsimp only
      generalize (max 1 (position s.bytes.length (init.getD 1))).toNat - 1 = o
      by_cases hfar : o > s.bytes.length
      · rw [if_pos hfar, if_pos hfar]
      · rw [if_neg hfar, if_neg hfar, if_pos ⟨rfl, .inr hp⟩, memmem.find_eq]
        cases firstOccurrence (s.bytes.drop o) p.bytes <;> rfl
    refine ⟨?_, hshort⟩
    rw [hshort, findByMatch, posrelatI_eq s.length_le, Rust.ok_bind]
    dsimp only
    generalize (max 1 (position s.bytes.length (init.getD 1))).toNat - 1 = o
    by_cases hfar : o > s.bytes.length
    · rw [if_pos hfar, if_pos hfar]
    · rw [if_neg hfar, if_neg hfar, unanchored, not_anchored hplain, if_neg (by simp),
        findLoop_plain hplain (Nat.le_of_not_lt hfar)]
  · intro tgt cv fmt data init pos
    rw [unpack, posrelatI_eq data.length_le, Rust.ok_bind]

/-- `("abcab"):find("b", -2)`. -/
theorem plain_search_and_positions_abcab :
    find .naive ⟨[97, 98, 99, 97, 98], by decide⟩ ⟨[98], by decide⟩ (some (-2)) false =
      findByMatch ⟨[97, 98, 99, 97, 98], by decide⟩ ⟨[98], by decide⟩ (some (-2)) ∧
    find .naive ⟨[97, 98, 99, 97, 98], by decide⟩ ⟨[98], by decide⟩ (some (-2)) false = .ok [.int 5, .int 5] := by
  obtain ⟨h1, h2⟩ := plain_search_and_positions.1 .naive ⟨[97, 98, 99, 97, 98], by decide⟩ ⟨[98], by decide⟩
    (some (-2)) false (by decide) (by decide)
  exact ⟨h1, h2.trans (by decide)⟩

end Tsuki.Str
