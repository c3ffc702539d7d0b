import Tsuki.Str.Find

/-!
# Where the pattern functions panic

`string.find` and `string.match` panic exactly when the first outcome of their search is a hazard; `string.gsub`
panics exactly when its loop comes to a state in which the match is one, or in which the replacement ends in a
single percent sign (`find_panics_iff`, `match_panics_iff`, `gsub_panics_iff`). Every other index, slice and
conversion is in range.
-/

namespace Tsuki.Str

/-! ## Captures -/

theorem sliceRange_of_le {xs : Bytes} {i j : Nat} (h : i ≤ j) (hj : j ≤ xs.length) :
    sliceRange xs i j = .ok ((xs.drop i).take (j - i)) := if_pos ⟨h, hj⟩

/-- The capture `i` has a value: it is there and closed, or there are none and it is the whole match. -/
def hasCapture (cap : Captures) (i : Nat) : Bool :=
  match cap[i]? with
  | some c => c.len ≠ -1
  | none => i = 0

section

variable {src : Bytes} {cap : Captures} {off stop : Nat}

theorem getOnecapture_spec (h : InSubject src cap stop) (hoff : off ≤ stop) (i : Nat) :
    (hasCapture cap i = true ∧ ∃ v, getOnecapture src cap i (some off) (some stop) = .ok v) ∨
      (hasCapture cap i = false ∧ ∃ text, getOnecapture src cap i (some off) (some stop) = .error (.msg text)) := by
  rw [getOnecapture, hasCapture]
  cases hc : cap[i]? with
  | none =>
    by_cases hi : i = 0
    · refine .inl ⟨decide_eq_true hi, ?_⟩
      dsimp only
      rw [if_pos hi, unwrap, Rust.ok_bind, unwrap, Rust.ok_bind, sliceRange_of_le hoff h.off_le]
      exact ⟨_, rfl⟩
    · exact .inr ⟨decide_eq_false hi, _, if_neg hi⟩
  | some c =>
    dsimp only
    obtain ⟨-, hlen⟩ := h.cap_le c (List.mem_of_getElem? hc)
    have := h.off_le
    by_cases h1 : c.len = -1
    · exact .inr ⟨by simp [h1], _, if_pos h1⟩
    rw [if_neg h1]
    refine .inl ⟨by simp [h1], ?_⟩
    by_cases h2 : c.len = -2
    · exact ⟨_, if_pos h2⟩
    · rw [if_neg h2, if_neg (by omega), sliceRange_of_le (by omega) (by omega)]
      exact ⟨_, rfl⟩

theorem getOnecapture_none {i : Nat} (h : i < cap.length) (off : Nat) :
    getOnecapture src cap i none none = getOnecapture src cap i (some off) (some stop) := by
  rw [getOnecapture, getOnecapture, List.getElem?_eq_getElem h]

theorem pushCaptures_ne_panic {o e : Option Nat} (n i : Nat)
    (h : ∀ k < i + n, getOnecapture src cap k o e ≠ .error .panic) :
    pushCaptures src cap o e n i ≠ .error .panic := by
  induction n generalizing i with
  | zero => simp [pushCaptures]
  | succ n ih =>
    have hv := h i (by omega)
    have hvs := ih (i + 1) fun k hk => h k (by omega)
    rw [pushCaptures]
    cases hg : getOnecapture src cap i o e with
    | error f => simpa [hg] using hv
    | ok v =>
      rw [Rust.ok_bind]
      cases hp : pushCaptures src cap o e n (i + 1) with
      | error f => simpa [hp] using hvs
      | ok vs => simp

theorem getOnecapture_ne_panic (h : InSubject src cap stop) (hoff : off ≤ stop) (i : Nat) :
    getOnecapture src cap i (some off) (some stop) ≠ .error .panic := by
  rcases getOnecapture_spec h hoff i with ⟨-, v, hv⟩ | ⟨-, text, ht⟩
  · simp [hv]
  · simp [ht]

theorem pushCaptures_some_ne_panic (h : InSubject src cap stop) (hoff : off ≤ stop) (n : Nat) :
    pushCaptures src cap (some off) (some stop) n 0 ≠ .error .panic :=
  pushCaptures_ne_panic n 0 fun k _ => getOnecapture_ne_panic h hoff k

theorem pushCaptures_none_ne_panic (h : InSubject src cap stop) :
    pushCaptures src cap none none (nlevels cap none) 0 ≠ .error .panic := by
  refine pushCaptures_ne_panic _ 0 fun k hk => ?_
  have hlt : k < cap.length := by simpa [nlevels] using hk
  rw [getOnecapture_none hlt stop]
  exact getOnecapture_ne_panic h (le_refl _) k

end

/-! ## The search -/

/-- The outcomes of a search from `init` on, in order. -/
def searchEvents (src p : Bytes) (anchor : Bool) (init : Nat) : List Event :=
  (List.range' init (if anchor then 1 else src.length + 1 - init)).flatMap fun off => explore src 200 [] off p

section

variable {src : Bytes} {p : Bytes} {anchor : Bool} {init : Nat}

theorem searchEvents_of_end (h : ¬(init < src.length ∧ anchor = false)) (hinit : init ≤ src.length) :
    searchEvents src p anchor init = explore src 200 [] init p := by
  have hone : (if anchor then 1 else src.length + 1 - init) = 1 := by
    split_ifs with ha
    · rfl
    · have : ¬init < src.length := fun hlt => h ⟨hlt, by simpa using ha⟩
      omega
  rw [searchEvents, hone, List.range'_one, List.flatMap_singleton]

theorem searchEvents_succ (h : init < src.length) :
    searchEvents src p false init = explore src 200 [] init p ++ searchEvents src p false (init + 1) := by
  have hlen : src.length + 1 - init = (src.length + 1 - (init + 1)) + 1 := by omega
  rw [searchEvents, if_neg Bool.false_ne_true, hlen, List.range'_succ, List.flatMap_cons, searchEvents,
    if_neg Bool.false_ne_true]

theorem findLoop_panics_iff (find : Bool) (hinit : init ≤ src.length) :
    findLoop src p anchor find init = .error .panic ↔
      ∃ z, (searchEvents src p anchor init).head? = some (.hazard z) := by
  induction hk : src.length - init using Nat.strong_induction_on generalizing init with
  | _ k ih =>
    have hin : InSubject src [] init := ⟨hinit, by simp⟩
    have hmatch := match0_eq src 200 [] init p hin
    have hall := explore_within src 200 [] init p hin
    rw [findLoop, hmatch]
    cases hl : explore src 200 [] init p with
    | nil =>
      dsimp only [firstOutcome]
      by_cases hgo : init < src.length ∧ anchor = false
      · obtain ⟨hlt, rfl⟩ := hgo
        rw [if_pos ⟨hlt, rfl⟩, searchEvents_succ hlt, hl, List.nil_append]
        exact ih _ (by omega) hlt rfl
      · rw [if_neg hgo, searchEvents_of_end hgo hinit, hl]
        simp
    | cons e l =>
      have hhead : (searchEvents src p anchor init).head? = some e := by
        by_cases hgo : init < src.length ∧ anchor = false
        · rw [hgo.2, searchEvents_succ hgo.1, hl]
          rfl
        · rw [searchEvents_of_end hgo hinit, hl]
          rfl
      rw [hhead]
      rw [hl] at hall
      cases e with
      | hazard z => simp [firstOutcome]
      | fault text => simp [firstOutcome]
      | found stop cap zero =>
        obtain ⟨hle, hcap⟩ := hall _ List.mem_cons_self
        have hsome := pushCaptures_some_ne_panic hcap hle (nlevels cap (some init))
        have hnone := pushCaptures_none_ne_panic hcap
        have hfound : (if find then (pushCaptures src cap none none (nlevels cap none) 0).map fun vs =>
              .int (Int64.ofNat (init + 1)) :: .int (Int64.ofNat stop) :: vs
            else pushCaptures src cap (some init) (some stop) (nlevels cap (some init)) 0) ≠ .error .panic := by
          split_ifs
          · cases hp : pushCaptures src cap none none (nlevels cap none) 0 with
            | error f => simpa [hp, Except.map] using hnone
            | ok vs => simp [Except.map]
          · exact hsome
        exact iff_of_false hfound (by simp)

end

theorem posrelatI_eq_ok (pos : Int64) {len : Nat} (hlen : len ≤ isizeMax) :
    ∃ r, 1 ≤ r ∧ posrelatI pos (Int64.ofNat len) = .ok r := by
  have hlen' : (Int64.ofNat len).toInt = len := Int64.toInt_ofNat_of_lt (by rw [isizeMax] at hlen; omega)
  have hmax : (len : Int) < 2 ^ 63 := by
    rw [isizeMax] at hlen
    omega
  have hi64 : ∀ {z : Int}, -2 ^ 63 ≤ z → z < 2 ^ 63 → ∃ w : Int64, Rust.i64 z = .ok w ∧ w.toInt = z :=
    fun h1 h2 => ⟨_, if_pos ⟨h1, h2⟩, Int64.toInt_ofInt_of_le h1 h2⟩
  have hnz : ∀ {r : Nat}, 1 ≤ r → ∃ r', 1 ≤ r' ∧ Rust.nonZero r = .ok r' :=
    fun h => ⟨_, h, if_neg (by omega)⟩
  rw [posrelatI]
  by_cases hpos : pos > 0
  · rw [if_pos hpos]
    have : 0 < pos.toInt := Int64.lt_iff_toInt_lt.mp hpos
    exact hnz (by omega)
  rw [if_neg hpos]
  by_cases hzero : pos = 0
  · rw [if_pos hzero]
    exact hnz (le_refl 1)
  rw [if_neg hzero, hlen']
  obtain ⟨neg, hneg, hnegv⟩ := hi64 (z := -len) (by omega) (by omega)
  rw [hneg, Rust.ok_bind]
  by_cases hlow : pos < neg
  · rw [if_pos hlow]
    exact hnz (le_refl 1)
  have hge : -(len : Int) ≤ pos.toInt := by
    rw [Int64.lt_iff_toInt_lt, hnegv] at hlow
    omega
  have hlt : pos.toInt < 0 := by
    have h1 : ¬0 < pos.toInt := fun h => hpos (Int64.lt_iff_toInt_lt.mpr h)
    have h2 : pos.toInt ≠ 0 := fun h => hzero (Int64.toInt.inj h)
    omega
  obtain ⟨sum, hsum, hsumv⟩ := hi64 (z := len + pos.toInt) (by omega) (by omega)
  obtain ⟨sum', hsum', hsumv'⟩ := hi64 (z := sum.toInt + 1) (by omega) (by omega)
  rw [if_neg hlow, hsum, Rust.ok_bind, hsum', Rust.ok_bind, Rust.u64OfI64, if_pos (by omega)]
  exact hnz (by omega)

/-- The first outcome of the search from the initial position is no hazard. -/
def SearchSafe (s p : Bytes) (init : Option Int64) : Prop :=
  ∀ start, posrelatI (init.getD 1) (Int64.ofNat s.length) = .ok start → start - 1 ≤ s.length →
    ∀ z, (searchEvents s (unanchored p) (anchored p) (start - 1)).head? ≠ some (.hazard z)

theorem strFindAux_panics_iff (memmem : Memmem) (s p : LStr) (init : Option Int64) (plain find : Bool) :
    strFindAux memmem s p init plain find = .error .panic ↔
      ¬(find ∧ (plain ∨ nospecials p.bytes)) ∧ ¬SearchSafe s.bytes p.bytes init := by
  obtain ⟨start, -, hstart⟩ := posrelatI_eq_ok (init.getD 1) s.length_le
  have hsafe : SearchSafe s.bytes p.bytes init ↔ (start - 1 ≤ s.bytes.length →
      ∀ z, (searchEvents s.bytes (unanchored p.bytes) (anchored p.bytes) (start - 1)).head? ≠ some (.hazard z)) := by
    refine ⟨fun h => h start hstart, fun h start' hstart' => ?_⟩
    rw [hstart] at hstart'
    exact Except.ok.inj hstart' ▸ h
  rw [strFindAux, hstart, Rust.ok_bind, hsafe]
  dsimp only
  by_cases hfar : start - 1 > s.bytes.length
  · rw [if_pos hfar]
    exact iff_of_false (by simp) (fun h => h.2 fun hle => absurd hle (by omega))
  rw [if_neg hfar]
  by_cases hplain : find ∧ (plain ∨ nospecials p.bytes)
  · rw [if_pos hplain]
    refine iff_of_false ?_ (fun h => h.1 hplain)
    cases memmem.find (s.bytes.drop (start - 1)) p.bytes <;> simp
  rw [if_neg hplain]
  have hle := Nat.le_of_not_lt hfar
  have hloop : ∀ b q, findLoop s.bytes q b find (start - 1) = .error .panic ↔
      ∃ z, (searchEvents s.bytes q b (start - 1)).head? = some (.hazard z) := fun b q => findLoop_panics_iff find hle
  rw [hloop]
  refine ⟨fun ⟨z, hz⟩ => ⟨hplain, fun h => h hle z hz⟩, fun ⟨_, h⟩ => ?_⟩
  by_contra hnone
  exact h fun _ z hz => hnone ⟨z, hz⟩

/-! ## The replacement -/

/-- Reading the replacement ends in a percent sign with nothing behind it, every escape before being in order. -/
def dangling (cap : Captures) : Bytes → Bool
  | [] => false
  | [c] => c = byte '%'
  | c :: d :: tr =>
    if c = byte '%' then (d = byte '%' || isAsciiDigit d && hasCapture cap (digitIndex d)) && dangling cap tr
    else dangling cap (d :: tr)

section

variable {src : Bytes} {cap : Captures} {off stop : Nat}

theorem dangling_cons_of_ne {c : UInt8} (h : c ≠ byte '%') (tr : Bytes) :
    dangling cap (c :: tr) = dangling cap tr := by
  rcases tr with _ | ⟨d, tr⟩
  · simp [dangling, h]
  · rw [dangling, if_neg h]

theorem dangling_append {xs : Bytes} (h : byte '%' ∉ xs) (ys : Bytes) :
    dangling cap (xs ++ ys) = dangling cap ys := by
  induction xs with
  | nil => rfl
  | cons x xs ih =>
    rw [List.mem_cons, not_or] at h
    rw [List.cons_append, dangling_cons_of_ne (Ne.symm h.1), ih h.2]

theorem addEscape_spec (h : InSubject src cap stop) (hoff : off ≤ stop) (d : UInt8) :
    ((d = byte '%' || isAsciiDigit d && hasCapture cap (digitIndex d)) = true ∧ ∃ s, addEscape src cap off stop (some d) = .ok s) ∨
      ((d = byte '%' || isAsciiDigit d && hasCapture cap (digitIndex d)) = false ∧
        ∃ text, addEscape src cap off stop (some d) = .error (.msg text)) := by
  rw [addEscape]
  by_cases hesc : d = byte '%'
  · rw [if_pos hesc]
    exact .inl ⟨by simp [hesc], _, rfl⟩
  rw [if_neg hesc]
  by_cases hdigit : isAsciiDigit d = true
  · rw [if_pos hdigit]
    rcases getOnecapture_spec h hoff (digitIndex d) with ⟨hhas, v, hv⟩ | ⟨hhas, text, ht⟩
    · refine .inl ⟨by simp [hdigit, hhas], ?_⟩
      rw [hv, Rust.ok_bind]
      cases v <;> exact ⟨_, rfl⟩
    · exact .inr ⟨by simp [hesc, hhas], text, by rw [ht]; rfl⟩
  · rw [if_neg hdigit]
    exact .inr ⟨by simp [hesc, hdigit], _, rfl⟩

theorem addS_panics_iff (h : InSubject src cap stop) (hoff : off ≤ stop) (tr : Bytes) :
    addS src cap off stop tr = .error .panic ↔ dangling cap tr := by
  induction hk : tr.length using Nat.strong_induction_on generalizing tr with
  | _ k ih =>
    rw [addS]
    split
    · rename_i hnone
      rw [List.idxOf?_eq_none_iff] at hnone
      rw [← List.append_nil tr, dangling_append hnone]
      simp [dangling]
    · rename_i p hp
      obtain ⟨hlt, hget, hbefore⟩ := List.idxOf?_eq_some_iff.mp hp
      have hnot : byte '%' ∉ tr.take p := by
        intro hmem
        obtain ⟨j, hj, heq⟩ := List.mem_take_iff_getElem.mp hmem
        exact hbefore j (by omega) heq
      have hsplit : tr = tr.take p ++ byte '%' :: tr.drop (p + 1) := by
        rw [← hget, ← List.drop_eq_getElem_cons hlt, List.take_append_drop]
      have hdangling : dangling cap tr = dangling cap (byte '%' :: tr.drop (p + 1)) := by
        conv_lhs => rw [hsplit]
        exact dangling_append hnot _
      rw [hdangling]
      by_cases hend : p + 1 < tr.length
      · have hd : tr[p + 1]? = some tr[p + 1] := List.getElem?_eq_getElem hend
        rw [hd, List.drop_eq_getElem_cons hend, dangling, if_pos rfl]
        rcases addEscape_spec h hoff tr[p + 1] with ⟨hok, s, hs⟩ | ⟨hbad, text, ht⟩
        · rw [hs, Rust.ok_bind, if_pos (by omega), hok, Bool.true_and]
          have hrest := ih _ (by rw [List.length_drop]; omega) (tr.drop (p + 2)) rfl
          rw [← hrest]
          cases addS src cap off stop (tr.drop (p + 2)) with
          | error f => exact Iff.rfl
          | ok rest => simp
        · rw [ht, hbad]
          simp
      · have hnil : tr.drop (p + 1) = [] := List.drop_eq_nil_of_le (by omega)
        rw [List.getElem?_eq_none (by omega), hnil, addEscape, sliceRange_of_le hoff h.off_le, Rust.ok_bind,
          if_neg (by omega)]
        simp [dangling]

end

/-! ## `string.gsub` -/

section

variable {src : Bytes}

/-- The states the loop of `gsub` comes to. -/
inductive GsubVisits (p tr : Bytes) (anchor : Bool) (maxS : Int) : GsubState src → GsubState src → Prop
  | refl (st : GsubState src) : GsubVisits p tr anchor maxS st st
  | step {st st' st'' : GsubState src} : st.n < maxS → gsubTurn p tr anchor st = .ok (.next st') →
      GsubVisits p tr anchor maxS st' st'' → GsubVisits p tr anchor maxS st st''

/-- The turn meets a hazard, or a match to replace by a replacement that ends in a single percent sign. -/
def GsubState.bad (p tr : Bytes) (st : GsubState src) : Bool :=
  match (explore src 200 [] st.off p).head? with
  | some (.hazard _) => true
  | some (.found stop cap _) => stop ≠ st.lastmatch && dangling cap tr
  | _ => false

variable {p tr : Bytes} {anchor : Bool}

theorem gsubTurn_panics_iff (anchor : Bool) (st : GsubState src) :
    gsubTurn p tr anchor st = .error .panic ↔ st.bad p tr := by
  have hin : InSubject src [] st.off := ⟨st.off_le, by simp⟩
  have hmatch := match0_eq src 200 [] st.off p hin
  have hall := explore_within src 200 [] st.off p hin
  rw [GsubState.bad]
  generalize explore src 200 [] st.off p = l at hmatch hall
  unfold gsubTurn valueTurn
  split
  · rename_i e hm
    rw [hmatch] at hm
    rcases l with _ | ⟨_ | _ | _, l⟩ <;> cases hm <;> simp
  · rename_i cap hm
    rw [hmatch] at hm
    rcases l with _ | ⟨_ | _ | _, l⟩ <;> cases hm
    simp
  · rename_i stop cap hm
    rw [hmatch] at hm
    rcases l with _ | ⟨_ | _ | _, l⟩ <;> cases hm
    obtain ⟨hle, hcap⟩ := hall _ List.mem_cons_self
    dsimp only [List.head?_cons]
    by_cases hlast : stop = st.lastmatch
    · rw [if_neg (not_not.mpr hlast)]
      simp [hlast]
    · rw [if_pos hlast, decide_eq_true hlast, Bool.true_and, ← addS_panics_iff hcap hle]
      cases hadd : addS src cap st.off stop tr <;> simp [addValue, hadd, Except.map]

/-- The loop comes to a bad state from `st`. -/
def GsubState.reachesBad (p tr : Bytes) (anchor : Bool) (maxS : Int) (st : GsubState src) : Prop :=
  ∃ st', GsubVisits p tr anchor maxS st st' ∧ st'.n < maxS ∧ st'.bad p tr

theorem reachesBad_iff {maxS : Int} {st : GsubState src} (hn : st.n < maxS) :
    st.reachesBad p tr anchor maxS ↔
      st.bad p tr ∨ ∃ st', gsubTurn p tr anchor st = .ok (.next st') ∧ st'.reachesBad p tr anchor maxS := by
  constructor
  · rintro ⟨st'', hvis, hn', hbad⟩
    cases hvis with
    | refl => exact .inl hbad
    | step _ hturn hvis => exact .inr ⟨_, hturn, st'', hvis, hn', hbad⟩
  · rintro (hbad | ⟨st', hturn, st'', hvis, hn', hbad⟩)
    · exact ⟨st, .refl st, hn, hbad⟩
    · exact ⟨st'', .step hn hturn hvis, hn', hbad⟩

theorem gsubLoop_panics_iff (maxS : Int) (st : GsubState src) :
    gsubLoop p tr anchor maxS st = .error .panic ↔ st.reachesBad p tr anchor maxS := by
  induction hk : st.left using Nat.strong_induction_on generalizing st with
  | _ k ih =>
    rw [gsubLoop, valueLoop]
    by_cases hn : st.n < maxS
    · rw [if_pos hn, reachesBad_iff hn, ← gsubTurn_panics_iff anchor, gsubTurn]
      split <;> rename_i hturn <;> rw [hturn]
      · simp
      · simp
      · have hlt := valueTurn_next hturn
        have hrec := ih _ (hk ▸ hlt) _ rfl
        rw [gsubLoop] at hrec
        rw [hrec]
        simp
    · rw [if_neg hn]
      refine iff_of_false (by simp) ?_
      rintro ⟨st', hvis, hn', -⟩
      cases hvis with
      | refl => exact hn hn'
      | step hn'' => exact hn hn''

end

theorem gsub_panics_iff (src p tr : LStr) (maxS : Option Int64) :
    gsub src p tr maxS = .error .panic ↔
      (GsubState.start src.bytes).reachesBad (unanchored p.bytes) tr.bytes (anchored p.bytes)
        (maxS.getD (Int64.ofNat (src.bytes.length + 1))).toInt := by
  rw [gsub, gsubValue, ← gsubLoop_panics_iff, gsubLoop]
  cases valueLoop (unanchored p.bytes) (.str tr.bytes) (anchored p.bytes)
    (maxS.getD (Int64.ofNat (src.bytes.length + 1))).toInt (.start src.bytes) <;> simp

/-- The pattern functions never panic but where the first outcome of a search is a hazard, or where the
replacement of a match ends in a single percent sign. -/
theorem pattern_panics_iff (memmem : Memmem) (s p tr : LStr) (init : Option Int64) (plain : Bool)
    (maxS : Option Int64) :
    (¬(find memmem s p init plain).Panics ↔ plain ∨ nospecials p.bytes ∨ SearchSafe s.bytes p.bytes init) ∧
    (¬(«match» memmem s p init).Panics ↔ SearchSafe s.bytes p.bytes init) ∧
    (¬(gsub s p tr maxS).Panics ↔
      ∀ st, GsubVisits (unanchored p.bytes) tr.bytes (anchored p.bytes)
          (maxS.getD (Int64.ofNat (s.bytes.length + 1))).toInt (.start s.bytes) st →
        st.n < (maxS.getD (Int64.ofNat (s.bytes.length + 1))).toInt →
          st.bad (unanchored p.bytes) tr.bytes = false) := by
  refine ⟨?_, ?_, ?_⟩
  · rw [Rust.Panics, find, strFindAux_panics_iff]
    simp only [true_and, not_and, not_not, or_iff_not_imp_left]
    tauto
  · rw [Rust.Panics, «match», strFindAux_panics_iff]
    simp
  · rw [Rust.Panics, gsub_panics_iff]
    simp [GsubState.reachesBad]

/-- `%bxy` tried at the end of the subject, a back reference to a position capture, and a replacement that is a
single percent sign. -/
theorem pattern_panics :
    (find .naive ⟨[], Nat.zero_le _⟩ ⟨['%', 'b', 'x', 'y'].map byte, by simp [isizeMax]⟩ none false).Panics ∧
    («match» .naive ⟨[], Nat.zero_le _⟩ ⟨['(', ')', '%', '1'].map byte, by simp [isizeMax]⟩ none).Panics ∧
    (gsub ⟨['a'].map byte, by simp [isizeMax]⟩ ⟨['a'].map byte, by simp [isizeMax]⟩ ⟨['%'].map byte, by simp [isizeMax]⟩ none).Panics := by
  refine ⟨(strFindAux_panics_iff ..).mpr ⟨by decide, fun h => ?_⟩,
    (strFindAux_panics_iff ..).mpr ⟨by decide, fun h => ?_⟩, (gsub_panics_iff ..).mpr ⟨_, .refl _, by decide, by decide⟩⟩
  · exact h 1 rfl (by decide) .balance (by decide)
  · exact h 1 rfl (by decide) .reference (by decide)

end Tsuki.Str
