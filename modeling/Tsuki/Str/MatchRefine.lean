import Tsuki.Str.Explore

/-!
# The matcher stops at its first outcome

`match0_eq`: from a state in which the offset and the captures lie inside the subject, `match_0` returns the
first outcome `explore` lists, and puts the captures back when there is none. Every index of the source that is
not a hazard is in range: the bounds come from `classend` for the pattern and from the invariant for the
subject.
-/

namespace Tsuki.Str

/-! ## Indices -/

theorem sliceFrom_of_le {xs : Bytes} {i : Nat} (h : i ≤ xs.length) : sliceFrom xs i = .ok (xs.drop i) := if_pos h

theorem setEnd_le {o n : Nat} {p : Bytes} (h : setEnd o p = .ok n) : n ≤ o + p.length := by
  induction o, p using setEnd.induct with
  | case1 => simp [setEnd] at h
  | case2 o c p hc hne ih =>
    rw [setEnd, if_pos hc, if_pos hne] at h
    have := ih h
    have := List.length_pos_iff.mpr hc.2
    simp only [List.length_tail, List.length_cons] at *
    omega
  | case3 o c p hc hne =>
    rw [setEnd, if_pos hc, if_neg hne] at h
    rw [not_not] at hne
    have hpos := List.length_pos_iff.mpr (List.ne_nil_of_mem (List.mem_of_mem_head? hne))
    simp only [List.length_tail, List.length_cons] at *
    cases h
    omega
  | case4 o c p hc hne ih =>
    rw [setEnd, if_neg hc, if_pos hne] at h
    have := ih h
    rw [List.length_cons]
    omega
  | case5 o c p hc hne =>
    rw [setEnd, if_neg hc, if_neg hne] at h
    rw [not_not] at hne
    have hpos := List.length_pos_iff.mpr (List.ne_nil_of_mem (List.mem_of_mem_head? hne))
    cases h
    rw [List.length_cons]
    omega

/-- An item lies inside the pattern; a set has at least its brackets and one character. -/
theorem classend_le {c : UInt8} {p : Bytes} {ep : Nat} (h : classend (c :: p) = .ok ep) :
    ep ≤ p.length + 1 ∧ (c = byte '[' → 3 ≤ ep) ∧ (c = byte '%' → ep = 2) := by
  have hne : byte '[' ≠ byte '%' := by decide
  simp only [classend] at h
  split_ifs at h with h1 h2 h3 h4
  · cases h
    have := List.length_pos_iff.mpr h2
    exact ⟨by omega, fun hc => absurd (hc.symm.trans h1) hne, fun _ => rfl⟩
  · have hge := le_setEnd h
    have hle := setEnd_le h
    have hpos := List.length_pos_iff.mpr (List.ne_nil_of_mem (List.mem_of_mem_head? h4))
    rw [List.length_tail] at hle
    exact ⟨by omega, fun _ => by omega, fun hc => absurd hc h1⟩
  · have hge := le_setEnd h
    have hle := setEnd_le h
    exact ⟨by omega, fun _ => hge, fun hc => absurd hc h1⟩
  · cases h
    exact ⟨by omega, fun hc => absurd hc h3, fun hc => absurd hc h1⟩

theorem bracketLoop_ok (c : UInt8) {p : Bytes} {ec : Nat} (hec : ec < p.length) (sig : Bool) (i : Nat) :
    ∃ b, bracketLoop c p ec sig i = .ok b := by
  induction hk : ec - i using Nat.strong_induction_on generalizing i with
  | _ k ih =>
    rw [bracketLoop]
    split_ifs with hi
    · exact ⟨_, rfl⟩
    · rw [idx_of_lt (by omega), Rust.ok_bind, idx_of_lt (by omega)]
      split_ifs with h1
      · rw [Rust.ok_bind]
        split_ifs
        · exact ⟨_, rfl⟩
        · exact ih _ (by omega) _ rfl
      all_goals
        rw [Rust.ok_bind]
        split_ifs with h2
        · rw [idx_of_lt (by omega), Rust.ok_bind]
          split_ifs
          · exact ⟨_, rfl⟩
          · exact ih _ (by omega) _ rfl
        · first
            | exact ⟨_, rfl⟩
            | exact ih _ (by omega) _ rfl

theorem matchbracketclass_eq {c : UInt8} {p : Bytes} {ep : Nat} (h3 : 3 ≤ ep) (hep : ep ≤ p.length) :
    matchbracketclass c p (ep - 1) = .ok (setTest p ep c) := by
  have hok : ∃ b, matchbracketclass c p (ep - 1) = .ok b := by
    rw [matchbracketclass, idx_of_lt (by omega), Rust.ok_bind]
    split_ifs <;> exact bracketLoop_ok c (by omega) _ _
  obtain ⟨b, hb⟩ := hok
  rw [setTest, hb]
  cases b <;> rfl

theorem singlematch_eq (src : Bytes) (off : Nat) {p : Bytes} {ep : Nat} (hp : p ≠ [])
    (hep : classend p = .ok ep) : singlematch src off p ep = .ok (src[off]?.any (itemTest p ep)) := by
  obtain ⟨c, p, rfl⟩ := List.exists_cons_of_ne_nil hp
  obtain ⟨hle, hset, hesc⟩ := classend_le hep
  have hok : ∀ x, ∃ b, singlematch [x] 0 (c :: p) ep = .ok b ∧
      ∀ (src : Bytes) (off : Nat), src[off]? = some x → singlematch src off (c :: p) ep = .ok b := by
    intro x
    have hsame : ∀ (src : Bytes) (off : Nat), src[off]? = some x →
        singlematch src off (c :: p) ep = singlematch [x] 0 (c :: p) ep := by
      intro src off hx
      rw [singlematch, singlematch, hx]
      rfl
    have hb : ∃ b, singlematch [x] 0 (c :: p) ep = .ok b := by
      simp only [singlematch, List.getElem?_cons_zero, List.head?_cons, Option.some.injEq]
      split_ifs with h1 h2 h3
      · exact ⟨_, rfl⟩
      · rw [idx_of_lt (by rw [List.length_cons]; have := hesc h2; omega)]
        exact ⟨_, rfl⟩
      · rw [matchbracketclass_eq (hset h3) (by rw [List.length_cons]; exact hle)]
        exact ⟨_, rfl⟩
      · exact ⟨_, rfl⟩
    obtain ⟨b, hb⟩ := hb
    exact ⟨b, hb, fun src off hx => (hsame src off hx).trans hb⟩
  cases hx : src[off]? with
  | none => rw [singlematch, hx]; rfl
  | some x =>
    obtain ⟨b, hb, hsame⟩ := hok x
    rw [hsame src off hx, Option.any_some, itemTest, hb]
    cases b <;> rfl

/-! ## Repetitions -/

theorem hits_eq_zero {src : Bytes} {off : Nat} {p : Bytes} {ep : Nat}
    (h : src[off]?.any (itemTest p ep) = false) : hits src off p ep = 0 := by
  rw [hits]
  cases hx : src[off]? with
  | none =>
    rw [List.drop_eq_nil_of_le (List.getElem?_eq_none_iff.mp hx)]
    rfl
  | some x =>
    obtain ⟨hlt, rfl⟩ := List.getElem?_eq_some_iff.mp hx
    rw [hx, Option.any_some] at h
    rw [List.drop_eq_getElem_cons hlt, List.takeWhile_cons_of_neg (by simp [h])]
    rfl

theorem hits_eq_succ {src : Bytes} {off : Nat} {p : Bytes} {ep : Nat}
    (h : src[off]?.any (itemTest p ep) = true) :
    off < src.length ∧ hits src off p ep = hits src (off + 1) p ep + 1 := by
  cases hx : src[off]? with
  | none => rw [hx] at h; cases h
  | some x =>
    obtain ⟨hlt, rfl⟩ := List.getElem?_eq_some_iff.mp hx
    rw [hx, Option.any_some] at h
    rw [hits, List.drop_eq_getElem_cons hlt, List.takeWhile_cons_of_pos h]
    exact ⟨hlt, rfl⟩

theorem hits_pos_iff {src : Bytes} {off : Nat} {p : Bytes} {ep : Nat} :
    0 < hits src off p ep ↔ src[off]?.any (itemTest p ep) = true := by
  cases h : src[off]?.any (itemTest p ep) with
  | true => rw [(hits_eq_succ h).2]; simp
  | false => rw [hits_eq_zero h]; simp

theorem off_add_hits_le {src : Bytes} {off : Nat} {p : Bytes} {ep : Nat} (hoff : off ≤ src.length) :
    off + hits src off p ep ≤ src.length := by
  have := (List.takeWhile_prefix (itemTest p ep) (l := src.drop off)).length_le
  rw [List.length_drop] at this
  rw [hits]
  omega

theorem countLoop_eq (src : Bytes) (off : Nat) {p : Bytes} {ep : Nat} (hp : p ≠ [])
    (hep : classend p = .ok ep) (i : Nat) :
    countLoop src off p ep i = .ok (i + hits src (off + i) p ep) := by
  induction hk : src.length - (off + i) using Nat.strong_induction_on generalizing i with
  | _ k ih =>
    rw [countLoop]
    have hsm := singlematch_eq src (off + i) hp hep
    split <;> rename_i hs <;> rw [hsm] at hs
    · obtain ⟨hlt, hsucc⟩ := hits_eq_succ (Except.ok.inj hs)
      rw [ih _ (by omega) (i + 1) rfl, hsucc, ← Nat.add_assoc off i 1]
      congr 1
      omega
    · rw [hits_eq_zero (Except.ok.inj hs), Nat.add_zero]
    · cases hs

/-! ## The invariant -/

/-- The offset and the captures lie inside the subject, the captures before the offset. -/
structure InSubject (src : Bytes) (cap : Captures) (off : Nat) : Prop where
  off_le : off ≤ src.length
  cap_le : ∀ c ∈ cap, c.off ≤ off ∧ (c.len = -1 ∨ c.len = -2 ∨ 0 ≤ c.len ∧ c.off + c.len.toNat ≤ off)

/-- From a state in the subject, a matcher returns the first of the explored outcomes. -/
def Refines (src : Bytes) (m : Matcher) (ex : Explorer) : Prop :=
  ∀ cap off p, InSubject src cap off → m cap off p = firstOutcome cap (ex cap off p)

section

variable {src : Bytes} {cap : Captures} {off : Nat}

theorem InSubject.mono (h : InSubject src cap off) {off' : Nat} (hle : off ≤ off') (hlen : off' ≤ src.length) :
    InSubject src cap off' := by
  refine ⟨hlen, fun c hc => ?_⟩
  obtain ⟨h1, h2⟩ := h.cap_le c hc
  exact ⟨h1.trans hle, h2.imp_right fun h => h.imp_right fun h => ⟨h.1, h.2.trans hle⟩⟩

theorem InSubject.push (h : InSubject src cap off) {what : Int} (hw : what = -1 ∨ what = -2) :
    InSubject src (cap ++ [⟨off, what⟩]) off := by
  refine ⟨h.off_le, fun c hc => ?_⟩
  rcases List.mem_append.mp hc with hc | hc
  · exact h.cap_le c hc
  · rw [List.mem_singleton] at hc
    subst hc
    exact ⟨le_refl _, hw.imp_right Or.inl⟩

theorem InSubject.close (h : InSubject src cap off) (l : Nat) :
    InSubject src (cap.modify l fun c => ⟨c.off, (off - c.off : Nat)⟩) off := by
  refine ⟨h.off_le, fun c hc => ?_⟩
  obtain ⟨i, hi⟩ := List.mem_iff_getElem?.mp hc
  rw [List.getElem?_modify] at hi
  obtain ⟨c', hc', rfl⟩ := Option.map_eq_some_iff.mp hi
  have hle := (h.cap_le c' (List.mem_of_getElem? hc')).1
  split_ifs
  · exact ⟨hle, .inr (.inr ⟨Int.natCast_nonneg _, by simp only [Int.toNat_natCast]; omega⟩)⟩
  · exact h.cap_le c' (List.mem_of_getElem? hc')

end

/-! ## Outcomes -/

section

variable {cap : Captures} {l l' : List Event}

/-- A call followed by another one where it found nothing. -/
theorem firstOutcome_append {k : Captures → Rust (Option Nat × Captures)} (hk : k cap = firstOutcome cap l') :
    (firstOutcome cap l >>= fun r => match r with
      | (some v, c) => .ok (some v, c)
      | (none, c) => k c) = firstOutcome cap (l ++ l') := by
  rcases l with _ | ⟨e, l⟩
  · exact hk
  · cases e <;> rfl

theorem firstOutcome_append_zeroPlus :
    firstOutcome cap (l ++ l'.map Event.zeroPlus) = firstOutcome cap (l ++ l') := by
  rcases l with _ | ⟨e, l⟩
  · rcases l' with _ | ⟨e, l'⟩
    · rfl
    · cases e <;> rfl
  · cases e <;> rfl

end

section

variable {src : Bytes} {rec : Matcher} {ex : Explorer} (href : Refines src rec ex) {cap : Captures} {off : Nat}
  {p : Bytes}
include href

theorem maxLoop_eq (i : Nat) (h : InSubject src cap off) (hi : off + i ≤ src.length) :
    maxLoop rec off p cap i =
      firstOutcome cap ((List.range (i + 1)).reverse.flatMap fun j => ex cap (off + j) p) := by
  induction i with
  | zero => simpa [maxLoop] using href cap off p h
  | succ i ih =>
    rw [maxLoop, href cap _ p (h.mono (by omega) hi), List.range_succ, List.reverse_append]
    simp only [List.reverse_cons, List.reverse_nil, List.nil_append, List.cons_append, List.flatMap_cons]
    rw [← firstOutcome_append (k := fun c => maxLoop rec off p c i) (ih (by omega))]
    congr 1
    funext r
    obtain ⟨_ | v, c⟩ := r <;> rfl

theorem minLoop_eq {ep : Nat} (hp : p ≠ []) (hep : classend p = .ok ep) (rest : Bytes)
    (h : InSubject src cap off) :
    minLoop src rec p ep rest cap off =
      firstOutcome cap ((List.range (hits src off p ep + 1)).flatMap fun j => ex cap (off + j) rest) := by
  induction hk : src.length - off using Nat.strong_induction_on generalizing off with
  | _ k ih =>
    have hsm := singlematch_eq src off hp hep
    have hunfold : ∀ r, rec cap off rest = r → minLoop src rec p ep rest cap off = (r >>= fun r => match r with
          | (some v, c) => .ok (some v, c)
          | (none, c) =>
            if src[off]?.any (itemTest p ep) then minLoop src rec p ep rest c (off + 1) else .ok (none, c)) := by
      rintro (e | ⟨_ | v, c⟩) hr <;> rw [minLoop, hr]
      · rfl
      · rw [Rust.ok_bind]
        dsimp only
        split <;> rename_i hs <;> rw [hsm] at hs
        · rw [if_pos (Except.ok.inj hs)]
        · rw [if_neg (by rw [Except.ok.inj hs]; simp)]
        · cases hs
      · rfl
    rw [hunfold _ (href cap off rest h)]
    by_cases hs : src[off]?.any (itemTest p ep) = true
    · obtain ⟨hlt, hsucc⟩ := hits_eq_succ hs
      have hrec := ih _ (by omega) (h.mono (Nat.le_succ off) hlt) rfl
      rw [hsucc, List.range_succ_eq_map, List.flatMap_cons, List.flatMap_map]
      refine firstOutcome_append ?_
      rw [if_pos hs, hrec]
      congr 2
      funext j
      rw [Nat.succ_eq_add_one, Nat.add_assoc, Nat.add_comm 1 j]
    · rw [hits_eq_zero (by simpa using hs), show List.range (0 + 1) = [0] from rfl, List.flatMap_cons,
        List.flatMap_nil]
      refine firstOutcome_append ?_
      rw [if_neg hs]
      rfl

theorem maxExpand_eq {ep : Nat} (hp : p ≠ []) (hep : classend p = .ok ep) (hlen : ep + 1 ≤ p.length)
    (h : InSubject src cap off) :
    maxExpand src rec cap off p ep = firstOutcome cap
      ((List.range (hits src off p ep + 1)).reverse.flatMap fun j => ex cap (off + j) (p.drop (ep + 1))) := by
  rw [maxExpand, countLoop_eq src off hp hep, Rust.ok_bind, sliceFrom_of_le hlen, Rust.ok_bind, Nat.zero_add,
    Nat.add_zero off, maxLoop_eq href _ h (off_add_hits_le h.off_le)]

theorem startCapture_eq {what : Int} (hw : what = -1 ∨ what = -2) (h : InSubject src cap off) :
    startCapture rec cap off p what = firstOutcome cap (exploreStart ex cap off p what) := by
  rw [startCapture, exploreStart]
  split_ifs
  · rfl
  · rw [href _ off p (h.push hw)]
    generalize ex (cap ++ [⟨off, what⟩]) off p = l
    rcases l with _ | ⟨e, l⟩
    · simp [firstOutcome]
    · cases e <;> rfl

end

/-- The capture `end_capture` closes is the last open one. -/
theorem captureToClose_spec {cap : Captures} {l : Nat} (h : captureToClose cap = .ok l) :
    ∃ c, cap[l]? = some c ∧ c.len = -1 := by
  unfold captureToClose at h
  split at h
  · rename_i i hi
    cases h
    obtain ⟨hlt, hget, -⟩ := List.findIdx?_eq_some_iff_getElem.mp hi
    rw [List.length_reverse] at hlt
    rw [List.getElem_reverse] at hget
    exact ⟨_, List.getElem?_eq_getElem _, of_decide_eq_true hget⟩
  · cases h

theorem captureToClose_error {cap : Captures} {e : Fault} (h : captureToClose cap = .error e) :
    e = .msg "invalid pattern capture" := by
  unfold captureToClose at h
  split at h
  · cases h
  · exact (Except.error.inj h).symm

section

variable {src : Bytes} {rec : Matcher} {ex : Explorer} (href : Refines src rec ex) {cap : Captures} {off : Nat}
  {p : Bytes}
include href

theorem endCapture_eq (h : InSubject src cap off) :
    endCapture rec cap off p = firstOutcome cap (exploreEnd ex cap off p) := by
  rw [endCapture, exploreEnd]
  cases hl : captureToClose cap with
  | error e =>
    rw [captureToClose_error hl]
    rfl
  | ok l =>
    obtain ⟨c, hc, hlen⟩ := captureToClose_spec hl
    obtain ⟨hlt, rfl⟩ := List.getElem?_eq_some_iff.mp hc
    have hle := (h.cap_le _ (List.getElem_mem hlt)).1
    have hset : cap.set l ⟨cap[l].off, (off - cap[l].off : Nat)⟩ =
        cap.modify l fun c => ⟨c.off, (off - c.off : Nat)⟩ := by
      rw [List.modify_eq_set_getElem?, hc]
      rfl
    rw [Rust.ok_bind, idx_of_lt hlt, Rust.ok_bind, if_neg (by omega), hset, href _ off p (h.close l)]
    dsimp only
    rcases ex (cap.modify l fun c => ⟨c.off, (off - c.off : Nat)⟩) off p with _ | ⟨e, l'⟩
    · have hlt' : l < (cap.modify l fun c => ⟨c.off, (off - c.off : Nat)⟩).length := by
        rwa [List.length_modify]
      rw [firstOutcome, Rust.ok_bind, if_pos rfl, idx_of_lt hlt', Rust.ok_bind, firstOutcome,
        List.getElem_modify_eq, ← hset, List.set_set, ← hlen, List.set_getElem_self]
    · cases e <;> rfl

end

/-! ## Balanced strings, frontiers and back references -/

section

variable {src : Bytes} {off : Nat}

theorem balanceLoop_spec {first : UInt8} {e : Option UInt8} {cont v : Nat}
    (h : balanceLoop src first e off cont = .ok (some v)) : off ≤ v ∧ v ≤ src.length ∧ e ≠ none := by
  induction off, cont using balanceLoop.induct src first e with
  | case1 off cont hlt he hc =>
    rw [balanceLoop, dif_pos hlt, if_pos he, if_pos hc] at h
    cases h
    exact ⟨by omega, hlt, he ▸ Option.some_ne_none _⟩
  | case2 off cont hlt he hc ih =>
    rw [balanceLoop, dif_pos hlt, if_pos he, if_neg hc] at h
    obtain ⟨h1, h2⟩ := ih h
    exact ⟨by omega, h2⟩
  | case3 off cont hlt he hf hc =>
    rw [balanceLoop, dif_pos hlt, if_neg he, if_pos hf, if_pos hc] at h
    cases h
  | case4 off cont hlt he hf hc ih =>
    rw [balanceLoop, dif_pos hlt, if_neg he, if_pos hf, if_neg hc] at h
    obtain ⟨h1, h2⟩ := ih h
    exact ⟨by omega, h2⟩
  | case5 off cont hlt he hf ih =>
    rw [balanceLoop, dif_pos hlt, if_neg he, if_neg hf] at h
    obtain ⟨h1, h2⟩ := ih h
    exact ⟨by omega, h2⟩
  | case6 off cont hlt =>
    rw [balanceLoop, dif_neg hlt] at h
    cases h

theorem balanceLoop_error {first : UInt8} {e : Option UInt8} {cont : Nat} {f : Fault}
    (h : balanceLoop src first e off cont = .error f) : f = .panic := by
  induction off, cont using balanceLoop.induct src first e with
  | case1 off cont hlt he hc =>
    rw [balanceLoop, dif_pos hlt, if_pos he, if_pos hc] at h
    cases h
  | case2 off cont hlt he hc ih =>
    rw [balanceLoop, dif_pos hlt, if_pos he, if_neg hc] at h
    exact ih h
  | case3 off cont hlt he hf hc =>
    rw [balanceLoop, dif_pos hlt, if_neg he, if_pos hf, if_pos hc] at h
    exact (Except.error.inj h).symm
  | case4 off cont hlt he hf hc ih =>
    rw [balanceLoop, dif_pos hlt, if_neg he, if_pos hf, if_neg hc] at h
    exact ih h
  | case5 off cont hlt he hf ih =>
    rw [balanceLoop, dif_pos hlt, if_neg he, if_neg hf] at h
    exact ih h
  | case6 off cont hlt =>
    rw [balanceLoop, dif_neg hlt] at h
    cases h

theorem exploreBalance_stops {p : Bytes} {e : Event} (h : exploreBalance src off p = .inl e) :
    e.stops := by
  unfold exploreBalance at h
  split at h
  · cases h
    trivial
  · split at h
    · cases h
      trivial
    · split_ifs at h
      split at h <;> cases h
      trivial

theorem exploreFrontier_stops {p : Bytes} {ep : Nat} {e : Event} (h : exploreFrontier src off p ep = .inl e) :
    e.stops := by
  unfold exploreFrontier at h
  split_ifs at h
  split at h <;> cases h
  trivial

theorem exploreReference_stops {cap : Captures} {l : UInt8} {e : Event}
    (h : exploreReference src cap off l = .inl e) : e.stops := by
  unfold exploreReference at h
  split at h
  · cases h
    trivial
  · split at h
    · cases h
    · split_ifs at h
      cases h
      trivial

/-- The outcome of a test that may end the match with an event. -/
def testOutcome {α : Type} : Event ⊕ α → Rust α
  | .inl (.fault text) => .error (.msg text)
  | .inl _ => .error .panic
  | .inr a => .ok a

theorem matchbalance_eq (p : Bytes) : matchbalance src off p = testOutcome (exploreBalance src off p) := by
  rcases p with _ | ⟨first, rest⟩
  · rfl
  · simp only [matchbalance, exploreBalance, idx]
    cases src[off]? with
    | none => rfl
    | some c =>
      rw [Rust.ok_bind]
      dsimp only
      split_ifs with hc
      · rfl
      · cases hb : balanceLoop src first rest.head? off 1 with
        | error f => rw [balanceLoop_error hb]; rfl
        | ok r => rfl

theorem exploreBalance_spec {p : Bytes} {v : Nat} (h : exploreBalance src off p = .inr (some v)) :
    off ≤ v ∧ v ≤ src.length ∧ 2 ≤ p.length := by
  rcases p with _ | ⟨first, rest⟩
  · cases h
  · simp only [exploreBalance] at h
    split at h
    · cases h
    · split_ifs at h
      · cases h
      split at h
      · rename_i hb
        cases h
        obtain ⟨h1, h2, h3⟩ := balanceLoop_spec hb
        rcases rest with _ | ⟨e, rest⟩
        · exact absurd rfl h3
        · exact ⟨h1, h2, by simp⟩
      · cases h

theorem frontier_eq {p : Bytes} {ep : Nat} (hoff : off ≤ src.length) (h3 : 3 ≤ ep) (hep : ep ≤ p.length) :
    frontier src off p ep = testOutcome (exploreFrontier src off p ep) := by
  have hprev : frontierPrevious src off = .ok (previous src off) := by
    rw [frontierPrevious, previous]
    split_ifs with h0
    · rfl
    · rw [idx_of_lt (by omega), List.getD_eq_getElem?_getD, List.getElem?_eq_getElem (by omega)]
      rfl
  rw [frontier, hprev, Rust.ok_bind, matchbracketclass_eq h3 hep, Rust.ok_bind, exploreFrontier]
  split_ifs
  · rfl
  · rw [idx]
    cases src[off]? with
    | none => rfl
    | some c =>
      rw [Rust.ok_bind, matchbracketclass_eq h3 hep]
      rfl

theorem checkCapture_spec {cap : Captures} {l : UInt8} {i : Nat} (h : checkCapture cap l = .ok i) :
    ∃ c, cap[i]? = some c ∧ c.len ≠ -1 := by
  simp only [checkCapture] at h
  split_ifs at h with hbad
  cases h
  rw [not_or] at hbad
  revert hbad
  cases cap[((l.toNat : Int) - (byte '1').toNat).toNat]? with
  | none => intro hbad; exact absurd rfl hbad.2
  | some c => intro hbad; exact ⟨c, rfl, by simpa using hbad.2⟩

theorem checkCapture_error {cap : Captures} {l : UInt8} {e : Fault} (h : checkCapture cap l = .error e) :
    e = .msg ("invalid capture index %" ++ toString ((l.toNat : Int) - 49 + 1)) := by
  simp only [checkCapture] at h
  split_ifs at h
  exact (Except.error.inj h).symm

theorem matchCapture_eq {cap : Captures} (h : InSubject src cap off) (l : UInt8) :
    matchCapture src cap off l = testOutcome (exploreReference src cap off l) := by
  rw [matchCapture, exploreReference]
  cases hl : checkCapture cap l with
  | error e =>
    rw [checkCapture_error hl]
    rfl
  | ok i =>
    obtain ⟨c, hc, hopen⟩ := checkCapture_spec hl
    obtain ⟨h1, h2⟩ := h.cap_le c (List.mem_of_getElem? hc)
    have hoff := h.off_le
    have hslice : ∀ {k : Nat}, k ≤ off → sliceFrom src k = .ok (src.drop k) := fun hk => sliceFrom_of_le (by omega)
    have hidx : idx cap i = .ok c := by rw [idx, hc]
    rw [Rust.ok_bind, hidx, Rust.ok_bind]
    simp only [hc]
    by_cases hneg : c.len < 0
    · rw [if_pos hneg, if_pos hneg]
      rfl
    · have hlen : c.off + c.len.toNat ≤ off := by omega
      have hto : sliceTo (src.drop c.off) c.len.toNat = .ok ((src.drop c.off).take c.len.toNat) :=
        if_pos (by rw [List.length_drop]; omega)
      rw [if_neg hneg, if_neg hneg, hslice h1, Rust.ok_bind, hto, Rust.ok_bind, hslice (le_refl _), Rust.ok_bind]
      split_ifs with hfit heq heq
      · rfl
      · rfl
      · have := congrArg List.length heq
        simp only [List.length_take, List.length_drop] at this hfit
        omega
      · rfl

end

theorem exploreReference_spec {cap : Captures} {l : UInt8} {v : Nat} (h : InSubject src cap off)
    (hr : exploreReference src cap off l = .inr (some v)) : off ≤ v ∧ v ≤ src.length := by
  unfold exploreReference at hr
  split at hr
  · cases hr
  split at hr
  · cases hr
  rename_i c hc
  split_ifs at hr with hneg heq
  rotate_left
  · cases hr
  cases hr
  obtain ⟨-, h2⟩ := h.cap_le c (List.mem_of_getElem? hc)
  have := h.off_le
  have := congrArg List.length heq
  simp only [List.length_take, List.length_drop] at this
  omega

/-! ## The loop -/

section

variable {src : Bytes} {rec : Matcher} {cap cap' : Captures} {off off' : Nat} {p p' : Bytes}

theorem matchLoop_of_error {e : Fault} (h : matchTurn src rec cap off p = .error e) :
    matchLoop src rec cap off p = .error e := by
  rw [matchLoop]
  split <;> rename_i h' <;> rw [h] at h' <;> cases h'
  rfl

theorem matchLoop_of_done {res : Option Nat} (h : matchTurn src rec cap off p = .ok (.done res cap')) :
    matchLoop src rec cap off p = .ok (res, cap') := by
  rw [matchLoop]
  split <;> rename_i h' <;> rw [h] at h' <;> cases h'
  rfl

theorem matchLoop_of_next (h : matchTurn src rec cap off p = .ok (.next cap' off' p')) :
    matchLoop src rec cap off p = matchLoop src rec cap' off' p' := by
  rw [matchLoop]
  split <;> rename_i h' <;> rw [h] at h' <;> cases h'
  rfl

theorem matchLoop_of_leave {r : Rust (Option Nat × Captures)}
    (h : matchTurn src rec cap off p = Turn.leave r) : matchLoop src rec cap off p = r := by
  rcases r with e | ⟨res, cap'⟩
  · exact matchLoop_of_error h
  · exact matchLoop_of_done h

theorem matchLoop_of_stop {α : Type} {e : Event} {go : α → Rust Turn}
    (h : matchTurn src rec cap off p = testOutcome (.inl e) >>= go) (he : e.stops) :
    matchLoop src rec cap off p = firstOutcome cap [e] := by
  cases e with
  | found => cases he
  | fault => exact matchLoop_of_error h
  | hazard => exact matchLoop_of_error h

theorem classend_error {e : Fault} (h : classend p = .error e) : ∃ text, e = .msg text := by
  have hset : ∀ {o : Nat} {p : Bytes}, setEnd o p = .error e → ∃ text, e = .msg text := by
    intro o p h
    induction o, p using setEnd.induct with
    | case1 => exact ⟨_, (Except.error.inj (by rwa [setEnd] at h)).symm⟩
    | case2 o c p hc hne ih => exact ih (by rwa [setEnd, if_pos hc, if_pos hne] at h)
    | case3 o c p hc hne => rw [setEnd, if_pos hc, if_neg hne] at h; cases h
    | case4 o c p hc hne ih => exact ih (by rwa [setEnd, if_neg hc, if_pos hne] at h)
    | case5 o c p hc hne => rw [setEnd, if_neg hc, if_neg hne] at h; cases h
  rcases p with _ | ⟨c, p⟩
  · cases h
  · simp only [classend] at h
    split_ifs at h
    · exact ⟨_, (Except.error.inj h).symm⟩
    · exact hset h
    · exact hset h

end

section

variable {src : Bytes} {rec : Matcher} {ex : Explorer} (href : Refines src rec ex) {cap : Captures} {off : Nat}
  {p q : Bytes} {loop : Nat → Bytes → List Event}
include href

/-- The turn for a single-character item, the rest of the loop being as explored. -/
theorem matchLoop_single (hp : p ≠ []) (hturn : matchTurn src rec cap off p = singleTurn src rec cap off p)
    (hloop : ∀ off' p', p'.length < p.length → InSubject src cap off' →
      matchLoop src rec cap off' p' = firstOutcome cap (loop off' p'))
    (h : InSubject src cap off) :
    matchLoop src rec cap off p = firstOutcome cap (exploreItem src ex loop cap off p) := by
  rw [exploreItem]
  cases hep : classend p with
  | error e =>
    obtain ⟨text, rfl⟩ := classend_error hep
    exact matchLoop_of_error (by rw [hturn, singleTurn, hep]; rfl)
  | ok ep =>
    have h1 := one_le_classend hep
    have hlen : ep ≤ p.length := by
      obtain ⟨c, q, rfl⟩ := List.exists_cons_of_ne_nil hp
      exact (classend_le hep).1
    have hq : ∀ {c : UInt8}, p[ep]? = some c → ep + 1 ≤ p.length := fun hc =>
      (List.getElem?_eq_some_iff.mp hc).1
    have hdrop : ∀ {k : Nat}, 1 ≤ k → (p.drop k).length < p.length := by
      intro k hk
      have := List.length_pos_iff.mpr hp
      rw [List.length_drop]
      omega
    rw [singleTurn, hep, Rust.ok_bind, singlematch_eq src off hp hep, Rust.ok_bind] at hturn
    dsimp only at hturn ⊢
    rw [exploreSingle]
    by_cases hm : src[off]?.any (itemTest p ep) = true
    · have hpos := hits_pos_iff.mpr hm
      have hlt := (hits_eq_succ hm).1
      simp only [if_pos hm] at hturn
      simp only [if_pos hpos]
      have hmax : ep + 1 ≤ p.length → maxExpand src rec cap off p ep = firstOutcome cap
          ((List.range (hits src off p ep + 1)).reverse.flatMap fun j => ex cap (off + j) (p.drop (ep + 1))) :=
        fun hle => maxExpand_eq href hp hep hle h
      split_ifs at hturn ⊢ with h2 h3 h4 h5
      · rw [sliceFrom_of_le (hq h2), Rust.ok_bind, href cap _ _ (h.mono (Nat.le_succ off) hlt)] at hturn
        rw [← firstOutcome_append (k := fun c => matchLoop src rec c off (p.drop (ep + 1)))
          (hloop _ _ (hdrop (by omega)) h)]
        generalize firstOutcome cap (ex cap (off + 1) (p.drop (ep + 1))) = r at hturn ⊢
        rcases r with e | ⟨_ | v, c⟩
        · exact matchLoop_of_error hturn
        · exact matchLoop_of_next hturn
        · exact matchLoop_of_done hturn
      · -- the source tries `off` itself last, as it does for `*`
        rw [matchLoop_of_leave hturn, hmax (hq h3), firstOutcome_append_zeroPlus, List.range_succ_eq_map]
        simp only [List.reverse_cons, List.flatMap_append, ← List.map_reverse, List.flatMap_map]
        simp
      · rw [matchLoop_of_leave hturn, hmax (hq h4)]
      · rw [matchLoop_of_leave hturn, minExpand, sliceFrom_of_le (hq h5), Rust.ok_bind,
          minLoop_eq href hp hep _ h]
      · rw [sliceFrom_of_le hlen, Rust.ok_bind] at hturn
        rw [matchLoop_of_next hturn, hloop _ _ (hdrop h1) (h.mono (Nat.le_succ off) hlt)]
    · have hzero : ¬ 0 < hits src off p ep := fun hpos => hm (hits_pos_iff.mp hpos)
      simp only [if_neg hm] at hturn
      simp only [if_neg hzero]
      have hskip : (p[ep]? = some (byte '*') ∨ p[ep]? = some (byte '?') ∨ p[ep]? = some (byte '-')) →
          matchLoop src rec cap off p = firstOutcome cap (loop off (p.drop (ep + 1))) := by
        intro hquant
        have hle : ep + 1 ≤ p.length := by
          rcases hquant with hq' | hq' | hq' <;> exact hq hq'
        rw [if_pos hquant, sliceFrom_of_le hle, Rust.ok_bind] at hturn
        rw [matchLoop_of_next hturn, hloop _ _ (hdrop (by omega)) h]
      split_ifs with h2 h3 h4 h5
      · exact hskip (.inr (.inl h2))
      · rw [if_neg (by rw [h3]; decide)] at hturn
        exact matchLoop_of_done hturn
      · exact hskip (.inl h4)
      · exact hskip (.inr (.inr h5))
      · rw [if_neg (by rintro (hq' | hq' | hq') <;> contradiction)] at hturn
        exact matchLoop_of_done hturn

omit href

theorem matchLoop_balance (hturn : matchTurn src rec cap off p = balanceTurn src cap off q)
    (hloop : ∀ off' k, InSubject src cap off' →
      matchLoop src rec cap off' (q.drop k) = firstOutcome cap (loop off' (q.drop k)))
    (h : InSubject src cap off) :
    matchLoop src rec cap off p = firstOutcome cap
      (match exploreBalance src off q with
        | .inl e => [e]
        | .inr none => []
        | .inr (some v) => loop v (q.drop 2)) := by
  rw [balanceTurn, matchbalance_eq] at hturn
  cases hb : exploreBalance src off q with
  | inl e =>
    rw [hb] at hturn
    exact matchLoop_of_stop hturn (exploreBalance_stops hb)
  | inr r =>
    rw [hb, testOutcome, Rust.ok_bind] at hturn
    rcases r with _ | v
    · exact matchLoop_of_done hturn
    · obtain ⟨h1, h2, h3⟩ := exploreBalance_spec hb
      dsimp only at hturn
      rw [sliceFrom_of_le h3, Rust.ok_bind] at hturn
      rw [matchLoop_of_next hturn, hloop _ _ (h.mono h1 h2)]

theorem matchLoop_frontier (hturn : matchTurn src rec cap off p = frontierTurn src cap off q)
    (hloop : ∀ off' k, InSubject src cap off' →
      matchLoop src rec cap off' (q.drop k) = firstOutcome cap (loop off' (q.drop k)))
    (h : InSubject src cap off) :
    matchLoop src rec cap off p = firstOutcome cap
      (if q.head? ≠ some (byte '[') then [.fault "missing '[' after '%f' in pattern"]
      else
        match classend q with
        | .error (.msg text) => [.fault text]
        | .error _ => []
        | .ok ep =>
          match exploreFrontier src off q ep with
          | .inl e => [e]
          | .inr false => []
          | .inr true => loop off (q.drop ep)) := by
  rw [frontierTurn] at hturn
  by_cases hset : q.head? ≠ some (byte '[')
  · rw [if_pos hset] at hturn ⊢
    exact matchLoop_of_error hturn
  rw [if_neg hset] at hturn ⊢
  rw [not_not] at hset
  obtain ⟨q, rfl⟩ : ∃ q', q = byte '[' :: q' := by
    rcases q with _ | ⟨c, q⟩
    · cases hset
    · exact ⟨q, by rw [Option.some.inj hset]⟩
  cases hep : classend (byte '[' :: q) with
  | error e =>
    obtain ⟨text, rfl⟩ := classend_error hep
    exact matchLoop_of_error (by rw [hturn, hep]; rfl)
  | ok ep =>
    obtain ⟨hle, h3, -⟩ := classend_le hep
    rw [← List.length_cons] at hle
    rw [hep, Rust.ok_bind, frontier_eq h.off_le (h3 rfl) hle] at hturn
    dsimp only
    cases hf : exploreFrontier src off (byte '[' :: q) ep with
    | inl e =>
      rw [hf] at hturn
      exact matchLoop_of_stop hturn (exploreFrontier_stops hf)
    | inr r =>
      rw [hf, testOutcome, Rust.ok_bind] at hturn
      rcases r with _ | _
      · exact matchLoop_of_done hturn
      · rw [if_pos rfl, sliceFrom_of_le hle, Rust.ok_bind] at hturn
        rw [matchLoop_of_next hturn, hloop _ _ h]

theorem matchLoop_reference {l : UInt8} (hturn : matchTurn src rec cap off p = referenceTurn src cap off l q)
    (hloop : ∀ off' k, InSubject src cap off' →
      matchLoop src rec cap off' (q.drop k) = firstOutcome cap (loop off' (q.drop k)))
    (h : InSubject src cap off) :
    matchLoop src rec cap off p = firstOutcome cap
      (match exploreReference src cap off l with
        | .inl e => [e]
        | .inr none => []
        | .inr (some v) => loop v q) := by
  rw [referenceTurn, matchCapture_eq h] at hturn
  cases hr : exploreReference src cap off l with
  | inl e =>
    rw [hr] at hturn
    exact matchLoop_of_stop hturn (exploreReference_stops hr)
  | inr r =>
    rw [hr, testOutcome, Rust.ok_bind] at hturn
    rcases r with _ | v
    · exact matchLoop_of_done hturn
    · obtain ⟨h1, h2⟩ := exploreReference_spec h hr
      rw [matchLoop_of_next hturn]
      exact hloop v 0 (h.mono h1 h2)

end

section

variable {src : Bytes} {rec : Matcher} {ex : Explorer} (href : Refines src rec ex) {cap : Captures} {off : Nat}
  {p : Bytes}
include href

/-- The loop of `match_0` stops at the first outcome explored. -/
theorem matchLoop_eq (n : Nat) (hn : p.length ≤ n) (h : InSubject src cap off) :
    matchLoop src rec cap off p = firstOutcome cap (exploreLoop src ex cap n off p) := by
  induction n generalizing off p with
  | zero =>
    rw [List.length_eq_zero_iff.mp (Nat.le_zero.mp hn), exploreLoop_nil]
    exact matchLoop_of_done rfl
  | succ n ih =>
    rcases p with _ | ⟨first, rest⟩
    · rw [exploreLoop_nil]
      exact matchLoop_of_done rfl
    have hloop : ∀ off' p', p'.length < (first :: rest).length → InSubject src cap off' →
        matchLoop src rec cap off' p' = firstOutcome cap (exploreLoop src ex cap n off' p') :=
      fun off' p' hp' h' => ih (by rw [List.length_cons] at hn hp'; omega) h'
    have hsingle : matchTurn src rec cap off (first :: rest) = singleTurn src rec cap off (first :: rest) →
        matchLoop src rec cap off (first :: rest) =
          firstOutcome cap (exploreItem src ex (exploreLoop src ex cap n) cap off (first :: rest)) :=
      fun hturn => matchLoop_single href (List.cons_ne_nil _ _) hturn hloop h
    generalize hturn : matchTurn src rec cap off (first :: rest) = turn at hsingle
    have hturn' := hturn
    unfold matchTurn at hturn'
    unfold exploreLoop
    dsimp only at hturn' ⊢
    split_ifs at hturn' ⊢ with h1 h2 h3 h4 h5 h6
    · rw [matchLoop_of_leave (hturn.trans hturn'.symm), startCapture_eq href (.inr rfl) h]
    · rw [matchLoop_of_leave (hturn.trans hturn'.symm), startCapture_eq href (.inl rfl) h]
    · rw [matchLoop_of_leave (hturn.trans hturn'.symm), endCapture_eq href h]
    · exact matchLoop_of_done (hturn.trans hturn'.symm)
    · exact matchLoop_of_done (hturn.trans hturn'.symm)
    · rcases rest with _ | ⟨c, args⟩
      · exact hsingle hturn'.symm
      have hargs : ∀ off' k, InSubject src cap off' → matchLoop src rec cap off' (args.drop k) =
          firstOutcome cap (exploreLoop src ex cap n off' (args.drop k)) := by
        refine fun off' k h' => hloop off' _ ?_ h'
        rw [List.length_drop, List.length_cons, List.length_cons]
        omega
      dsimp only at hturn' ⊢
      by_cases hb : c = byte 'b'
      · rw [if_pos hb] at hturn' ⊢
        exact matchLoop_balance (hturn.trans hturn'.symm) hargs h
      rw [if_neg hb] at hturn' ⊢
      by_cases hf : c = byte 'f'
      · rw [if_pos hf] at hturn' ⊢
        exact matchLoop_frontier (hturn.trans hturn'.symm) hargs h
      rw [if_neg hf] at hturn' ⊢
      by_cases hd : isAsciiDigit c = true
      · rw [if_pos hd] at hturn' ⊢
        exact matchLoop_reference (hturn.trans hturn'.symm) hargs h
      · rw [if_neg hd] at hturn' ⊢
        exact hsingle hturn'.symm
    · exact hsingle hturn'.symm

end

/-- `match_0` stops at the first outcome explored. -/
theorem match0_eq (src : Bytes) (d : Nat) : Refines src (match0 src d) (explore src d) := by
  induction d with
  | zero => exact fun cap off p _ => rfl
  | succ d ih => exact fun cap off p h => matchLoop_eq ih _ (le_refl _) h

end Tsuki.Str
