import Tsuki.Str.FindSafe

/-!
# `string.gsub` as a fold

The matches are found from left to right, each from the end of the last one on; the text is put together of what is
between them and of their replacements. The loop of `gsub` does the same, a character at a time. A turn of the loop
either finds the next match or copies one byte, and copies add up to the text in between: the loop is a fold over
matches by induction on what is left of the subject. The replacement is then compared with its expansion; where the
two differ, an escape of it slipped.
-/

namespace Tsuki.Str

/-! ## Captures -/

/-- A match has no more captures than the matcher has room for. -/
def Event.Few : Event → Prop
  | .found _ cap _ => cap.length ≤ 32
  | _ => True

/-- All matches an explorer lists do. -/
def Sparse (ex : Explorer) : Prop := ∀ cap off p, cap.length ≤ 32 → ∀ e ∈ ex cap off p, e.Few

theorem few_of_stops {e : Event} (h : e.stops) : e.Few := by
  cases e with
  | found => cases h
  | fault => trivial
  | hazard => trivial

theorem Event.Few.zeroPlus {e : Event} (h : e.Few) : e.zeroPlus.Few := by
  cases e with
  | found => exact h
  | fault => trivial
  | hazard => trivial

section

variable {src : Bytes} {ex : Explorer} {cap : Captures} {e : Event}

theorem exploreSingle_few (hex : Sparse ex) {loop : Nat → Bytes → List Event} {off ep : Nat} {p : Bytes}
    (hloop : ∀ off p, ∀ e ∈ loop off p, e.Few) (h : cap.length ≤ 32)
    (he : e ∈ exploreSingle src ex loop cap off p ep) : e.Few := by
  simp only [exploreSingle] at he
  split_ifs at he with h1 hm h2 hm h3 hm h4 hm hm
  · exact (List.mem_append.mp he).elim (hex _ _ _ h e) (hloop _ _ e)
  · exact hloop _ _ e he
  · rcases List.mem_append.mp he with he | he
    · obtain ⟨i, -, he⟩ := List.mem_flatMap.mp he
      exact hex _ _ _ h e he
    · obtain ⟨e', he', rfl⟩ := List.mem_map.mp he
      exact (hex _ _ _ h e' he').zeroPlus
  · cases he
  · obtain ⟨i, -, he⟩ := List.mem_flatMap.mp he
    exact hex _ _ _ h e he
  · exact hloop _ _ e he
  · obtain ⟨i, -, he⟩ := List.mem_flatMap.mp he
    exact hex _ _ _ h e he
  · exact hloop _ _ e he
  · exact hloop _ _ e he
  · cases he

theorem exploreItem_few (hex : Sparse ex) {loop : Nat → Bytes → List Event} {off : Nat} {p : Bytes}
    (hloop : ∀ off p, ∀ e ∈ loop off p, e.Few) (h : cap.length ≤ 32)
    (he : e ∈ exploreItem src ex loop cap off p) : e.Few := by
  unfold exploreItem at he
  split at he
  · exact List.mem_singleton.mp he ▸ trivial
  · cases he
  · exact exploreSingle_few hex hloop h he

theorem exploreStart_few (hex : Sparse ex) {off : Nat} {p : Bytes} {what : Int}
    (he : e ∈ exploreStart ex cap off p what) : e.Few := by
  unfold exploreStart at he
  split_ifs at he with hfull
  · exact List.mem_singleton.mp he ▸ trivial
  · exact hex _ _ _ (by rw [List.length_append, List.length_singleton]; omega) e he

theorem exploreEnd_few (hex : Sparse ex) {off : Nat} {p : Bytes} (h : cap.length ≤ 32)
    (he : e ∈ exploreEnd ex cap off p) : e.Few := by
  unfold exploreEnd at he
  split at he
  · exact hex _ _ _ (by rw [List.length_modify]; exact h) e he
  · exact List.mem_singleton.mp he ▸ trivial

theorem exploreLoop_few (hex : Sparse ex) (n : Nat) {off : Nat} {p : Bytes} (h : cap.length ≤ 32)
    (he : e ∈ exploreLoop src ex cap n off p) : e.Few := by
  induction n generalizing off p e with
  | zero =>
    rcases p with _ | ⟨first, rest⟩
    · rw [exploreLoop_nil] at he
      exact List.mem_singleton.mp he ▸ h
    · cases he
  | succ n ih =>
    have hitem : ∀ {p}, e ∈ exploreItem src ex (exploreLoop src ex cap n) cap off p → e.Few :=
      exploreItem_few hex (fun off p e he => ih he) h
    have hstop : ∀ {e'}, e'.stops → e ∈ [e'] → e.Few :=
      fun hs he => List.mem_singleton.mp he ▸ few_of_stops hs
    have hfault : ∀ {text}, e ∈ [Event.fault text] → e.Few := hstop trivial
    rcases p with _ | ⟨first, rest⟩
    · rw [exploreLoop_nil] at he
      exact List.mem_singleton.mp he ▸ h
    unfold exploreLoop at he
    split_ifs at he with h1 h2 h3 h4 h5 h6
    · exact exploreStart_few hex he
    · exact exploreStart_few hex he
    · exact exploreEnd_few hex h he
    · exact List.mem_singleton.mp he ▸ h
    · cases he
    · rcases rest with _ | ⟨c, args⟩
      · exact hitem he
      dsimp only at he
      split_ifs at he with hb hf hset hd
      · cases hbal : exploreBalance src off args with
        | inl e' =>
          rw [hbal] at he
          exact hstop (exploreBalance_stops hbal) he
        | inr r =>
          rw [hbal] at he
          rcases r with _ | v
          · cases he
          · exact ih he
      · exact hfault he
      · split at he
        · exact hfault he
        · cases he
        · split at he
          · rename_i hfr
            exact hstop (exploreFrontier_stops hfr) he
          · cases he
          · exact ih he
      · cases href : exploreReference src cap off c with
        | inl e' =>
          rw [href] at he
          exact hstop (exploreReference_stops href) he
        | inr r =>
          rw [href] at he
          rcases r with _ | v
          · cases he
          · exact ih he
      · exact hitem he
    · exact hitem he

end

theorem explore_few (src : Bytes) (d : Nat) : Sparse (explore src d) := by
  induction d with
  | zero =>
    intro cap off p _ e he
    rw [explore] at he
    exact List.mem_singleton.mp he ▸ trivial
  | succ d ih => exact fun cap off p h e he => exploreLoop_few ih _ h he

theorem match0_few {src : Bytes} {off stop : Nat} {p : Bytes} {cap : Captures} (hoff : off ≤ src.length)
    (hm : match0 src 200 [] off p = .ok (some stop, cap)) : cap.length ≤ 32 := by
  rw [match0_eq src 200 [] off p ⟨hoff, by simp⟩] at hm
  have hall := explore_few src 200 [] off p (Nat.zero_le _)
  generalize explore src 200 [] off p = l at hm hall
  rcases l with _ | ⟨_ | _ | _, l⟩ <;> cases hm
  exact hall _ List.mem_cons_self

/-- A match: where it starts and ends, and its captures. -/
structure Hit where
  start : Nat
  stop : Nat
  cap : Captures

section

variable (src p : Bytes) (anchor : Bool)

/-- The first match from `off` on that does not end where the last one did. An anchored pattern is tried once. -/
def nextHit (last : Option Nat) (off : Nat) : Rust (Option Hit) :=
  match match0 src 200 [] off p with
  | .error e => .error e
  | .ok (none, _) => if off < src.length ∧ anchor = false then nextHit last (off + 1) else .ok none
  | .ok (some stop, cap) =>
    if some stop ≠ last then .ok (some ⟨off, stop, cap⟩)
    else if off < src.length ∧ anchor = false then nextHit last (off + 1) else .ok none
termination_by src.length - off

/-- The text from `off` on with the first `k` matches replaced, and their number. -/
def foldHits (rep : Hit → Rust Bytes) : Nat → Option Nat → Nat → Rust (Bytes × Nat)
  | 0, _, off => .ok (src.drop off, 0)
  | k + 1, last, off =>
    match nextHit src p anchor last off with
    | .error e => .error e
    | .ok none => .ok (src.drop off, 0)
    | .ok (some m) => do
      let s ← rep m
      let tail ← (if anchor then .ok (src.drop m.stop, 0) else foldHits rep k (some m.stop) m.stop)
      .ok ((src.drop off).take (m.start - off) ++ s ++ tail.1, tail.2 + 1)

end

section

variable {src p : Bytes} {anchor : Bool} {last : Option Nat} {off : Nat}

theorem nextHit_start {m : Hit} (h : nextHit src p anchor last off = .ok (some m)) : off ≤ m.start := by
  fun_induction nextHit src p anchor last off with
  | case1 => cases h
  | case2 off cap hm hgo ih => exact Nat.le_trans (Nat.le_succ off) (ih h)
  | case3 => cases h
  | case4 off stop cap hm hne =>
    cases h
    exact le_refl _
  | case5 off stop cap hm hne hgo ih => exact Nat.le_trans (Nat.le_succ off) (ih h)
  | case6 => cases h

theorem foldHits_skip (rep : Hit → Rust Bytes) (k : Nat) (hoff : off < src.length)
    (hskip : nextHit src p anchor last off = nextHit src p anchor last (off + 1)) :
    foldHits src p anchor rep (k + 1) last off =
      (foldHits src p anchor rep (k + 1) last (off + 1)).map fun x => (src[off] :: x.1, x.2) := by
  have hdrop : src.drop off = src[off] :: src.drop (off + 1) := List.drop_eq_getElem_cons hoff
  rw [foldHits, foldHits, hskip]
  cases hnext : nextHit src p anchor last (off + 1) with
  | error e => rfl
  | ok o =>
    cases o with
    | none => rw [hdrop]; rfl
    | some m =>
      have hstart := nextHit_start hnext
      dsimp only
      cases rep m with
      | error e => rfl
      | ok s =>
        rw [Rust.ok_bind, Rust.ok_bind]
        generalize (if anchor = true then Except.ok (src.drop m.stop, 0)
          else foldHits src p anchor rep k (some m.stop) m.stop : Rust (Bytes × Nat)) = tail
        cases tail with
        | error e => rfl
        | ok tail =>
          rw [Rust.ok_bind, Rust.ok_bind, hdrop, show m.start - off = m.start - (off + 1) + 1 by omega,
            List.take_succ_cons]
          rfl

/-! ## Turns of the loop -/

variable {r : Replacement}

theorem valueTurn_none {st : GsubState src} {cap : Captures} (hm : match0 src 200 [] st.off p = .ok (none, cap)) :
    valueTurn p r anchor st = .ok (gsubCopy anchor st) := by
  unfold valueTurn
  split <;> rename_i h <;> cases hm.symm.trans h
  rfl

theorem valueTurn_error {st : GsubState src} {e : Fault} (hm : match0 src 200 [] st.off p = .error e) :
    valueTurn p r anchor st = .error e := by
  unfold valueTurn
  split <;> rename_i h <;> cases hm.symm.trans h
  rfl

theorem valueTurn_some {st : GsubState src} {stop : Nat} {cap : Captures}
    (hm : match0 src 200 [] st.off p = .ok (some stop, cap)) :
    ∃ hle : stop ≤ src.length, valueTurn p r anchor st =
      if stop ≠ st.lastmatch then (do
        let x ← addValue src r cap st.off stop
        .ok (.unless anchor ⟨st.n + 1, st.changed || x.1, st.b ++ x.2, stop, hle, stop⟩))
      else .ok (gsubCopy anchor st) := by
  refine ⟨(match0_within ⟨st.off_le, by simp⟩ hm).2.off_le, ?_⟩
  unfold valueTurn
  split <;> rename_i h <;> rw [hm] at h <;> cases h
  rfl

/-- What `add_value` puts in the place of a match. -/
def replacement (src : Bytes) (r : Replacement) (m : Hit) : Rust Bytes :=
  (addValue src r m.cap m.start m.stop).map Prod.snd

/-- Where nothing was replaced, the buffer is what was passed. -/
def GsubState.Kept (st : GsubState src) : Prop := st.changed = false → st.b = src.take st.off

/-- The loop ends with the text of the fold behind its buffer. -/
def Folds (st : GsubState src) (x : Rust (Bytes × Nat)) (y : Rust (GsubState src)) : Prop :=
  match x with
  | .error e => y = .error e
  | .ok (t, n) =>
    ∃ st', y = .ok st' ∧ st'.b ++ src.drop st'.off = st.b ++ t ∧ st'.n = st.n + n ∧ (st.Kept → st'.Kept)

theorem Kept.copy {st : GsubState src} (h : st.Kept) (hoff : st.off < src.length) :
    GsubState.Kept { st with b := st.b ++ [src[st.off]], off := st.off + 1, off_le := hoff } := by
  intro hchanged
  change st.b ++ [src[st.off]] = src.take (st.off + 1)
  rw [h hchanged, List.take_succ_eq_append_getElem hoff]

theorem addValue_kept {st : GsubState src} {stop : Nat} {cap : Captures} {s : Bytes}
    (h : addValue src r cap st.off stop = .ok (false, s)) (hle : st.off ≤ stop) (hstop : stop ≤ src.length) :
    s = (src.drop st.off).take (stop - st.off) := by
  have hkeep {o : Option Bytes} (ho : orKeep src st.off stop o = .ok (false, s)) :
      s = (src.drop st.off).take (stop - st.off) := by
    cases o with
    | none =>
      rw [orKeep, sliceRange_of_le hle hstop] at ho
      cases ho
      rfl
    | some t => cases ho
  cases r with
  | str tr =>
    rw [addValue] at h
    cases hadd : addS src cap st.off stop tr <;> rw [hadd] at h <;> cases h
  | table get =>
    obtain ⟨key, -, h⟩ := Rust.bind_eq_ok.mp h
    obtain ⟨o, -, h⟩ := Rust.bind_eq_ok.mp h
    exact hkeep h
  | fn call =>
    obtain ⟨args, -, h⟩ := Rust.bind_eq_ok.mp h
    obtain ⟨o, -, h⟩ := Rust.bind_eq_ok.mp h
    exact hkeep h

variable {maxS : Int} {st st' : GsubState src}

theorem valueLoop_error {e : Fault} (hn : st.n < maxS) (hturn : valueTurn p r anchor st = .error e) :
    valueLoop p r anchor maxS st = .error e := by
  rw [valueLoop, if_pos hn]
  split <;> rename_i h <;> rw [hturn] at h <;> cases h
  rfl

theorem valueLoop_stop (hn : st.n < maxS) (hturn : valueTurn p r anchor st = .ok (.stop st')) :
    valueLoop p r anchor maxS st = .ok st' := by
  rw [valueLoop, if_pos hn]
  split <;> rename_i h <;> rw [hturn] at h <;> cases h
  rfl

theorem valueLoop_next (hn : st.n < maxS) (hturn : valueTurn p r anchor st = .ok (.next st')) :
    valueLoop p r anchor maxS st = valueLoop p r anchor maxS st' := by
  rw [valueLoop, if_pos hn]
  split <;> rename_i h <;> rw [hturn] at h <;> cases h
  rfl

theorem folds_copy {last : Option Nat} {j : Nat} (hn : st.n < maxS)
    (hnext : nextHit src p anchor last st.off =
      if st.off < src.length ∧ anchor = false then nextHit src p anchor last (st.off + 1) else .ok none)
    (hturn : valueTurn p r anchor st = .ok (gsubCopy anchor st))
    (ih : ∀ hoff : st.off < src.length, anchor = false →
      Folds { st with b := st.b ++ [src[st.off]], off := st.off + 1, off_le := hoff }
        (foldHits src p anchor (replacement src r) (j + 1) last (st.off + 1))
        (valueLoop p r anchor maxS { st with b := st.b ++ [src[st.off]], off := st.off + 1, off_le := hoff })) :
    Folds st (foldHits src p anchor (replacement src r) (j + 1) last st.off) (valueLoop p r anchor maxS st) := by
  by_cases hoff : st.off < src.length
  · have hdrop : src.drop st.off = src[st.off] :: src.drop (st.off + 1) := List.drop_eq_getElem_cons hoff
    cases anchor with
    | false =>
      rw [if_pos ⟨hoff, rfl⟩] at hnext
      rw [gsubCopy, dif_pos hoff] at hturn
      rw [valueLoop_next hn hturn, foldHits_skip _ j hoff hnext]
      have hfolds := ih hoff rfl
      generalize foldHits src p false (replacement src r) (j + 1) last (st.off + 1) = x at hfolds
      cases x with
      | error e => exact hfolds
      | ok x =>
        obtain ⟨st', hst', hb, hn', hkept⟩ := hfolds
        refine ⟨st', hst', ?_, hn', fun h => hkept (Kept.copy h hoff)⟩
        rw [hb, List.append_assoc]
        rfl
    | true =>
      rw [if_neg (by simp)] at hnext
      rw [gsubCopy, dif_pos hoff] at hturn
      rw [valueLoop_stop hn hturn, foldHits, hnext]
      refine ⟨_, rfl, ?_, by simp, fun h => Kept.copy h hoff⟩
      rw [hdrop, List.append_assoc]
      rfl
  · rw [if_neg (fun h => hoff h.1)] at hnext
    rw [gsubCopy, dif_neg hoff] at hturn
    rw [valueLoop_stop hn hturn, foldHits, hnext]
    exact ⟨st, rfl, rfl, by simp, id⟩

theorem folds_hit {last : Option Nat} {j stop : Nat} {cap : Captures} (hn : st.n < maxS)
    (hnext : nextHit src p anchor last st.off = .ok (some ⟨st.off, stop, cap⟩))
    (hbefore : st.off ≤ stop) (hle : stop ≤ src.length)
    (hturn : valueTurn p r anchor st = do
      let x ← addValue src r cap st.off stop
      .ok (.unless anchor ⟨st.n + 1, st.changed || x.1, st.b ++ x.2, stop, hle, stop⟩))
    (ih : ∀ c s, anchor = false →
      valueTurn p r anchor st = .ok (.next ⟨st.n + 1, st.changed || c, st.b ++ s, stop, hle, stop⟩) →
      Folds ⟨st.n + 1, st.changed || c, st.b ++ s, stop, hle, stop⟩
        (foldHits src p anchor (replacement src r) j (some stop) stop)
        (valueLoop p r anchor maxS ⟨st.n + 1, st.changed || c, st.b ++ s, stop, hle, stop⟩)) :
    Folds st (foldHits src p anchor (replacement src r) (j + 1) last st.off) (valueLoop p r anchor maxS st) := by
  rw [foldHits, hnext]
  dsimp only
  cases hadd : addValue src r cap st.off stop with
  | error e =>
    have hrep : replacement src r ⟨st.off, stop, cap⟩ = .error e := by rw [replacement, hadd]; rfl
    rw [hrep, Rust.error_bind]
    rw [hadd, Rust.error_bind] at hturn
    exact valueLoop_error hn hturn
  | ok x =>
    obtain ⟨c, s⟩ := x
    have hrep : replacement src r ⟨st.off, stop, cap⟩ = .ok s := by rw [replacement, hadd]; rfl
    rw [hrep, Rust.ok_bind]
    rw [hadd, Rust.ok_bind] at hturn
    have hkept (h : st.Kept) : GsubState.Kept ⟨st.n + 1, st.changed || c, st.b ++ s, stop, hle, stop⟩ := by
      intro hchanged
      obtain ⟨hst, rfl⟩ := Bool.or_eq_false_iff.mp hchanged
      change st.b ++ s = src.take stop
      rw [h hst, addValue_kept hadd hbefore hle, ← List.take_add, Nat.add_sub_cancel' hbefore]
    cases anchor with
    | true =>
      rw [valueLoop_stop hn hturn, if_pos rfl, Rust.ok_bind]
      refine ⟨_, rfl, ?_, by simp, hkept⟩
      simp
    | false =>
      have hstep : valueTurn p r false st =
          .ok (.next ⟨st.n + 1, st.changed || c, st.b ++ s, stop, hle, stop⟩) := hturn
      have hfolds := ih c s rfl hstep
      rw [valueLoop_next hn hstep, if_neg (by simp)]
      generalize foldHits src p false (replacement src r) j (some stop) stop = x at hfolds
      cases x with
      | error e => exact hfolds
      | ok x =>
        obtain ⟨st', hst', hb, hn', hkept'⟩ := hfolds
        rw [Rust.ok_bind]
        refine ⟨st', hst', ?_, ?_, fun h => hkept' (hkept h)⟩
        · rw [hb]
          simp
        · rw [hn']
          push_cast
          ring

theorem valueLoop_folds (maxS : Int) (st : GsubState src) {last : Option Nat}
    (hlast : ∀ e, e ≤ src.length → (some e = last ↔ e = st.lastmatch)) :
    Folds st (foldHits src p anchor (replacement src r) (maxS - st.n).toNat last st.off)
      (valueLoop p r anchor maxS st) := by
  induction hk : st.left using Nat.strong_induction_on generalizing st last with
  | _ k ih =>
    by_cases hn : st.n < maxS
    · obtain ⟨j, hj⟩ : ∃ j, (maxS - st.n).toNat = j + 1 := ⟨(maxS - st.n).toNat - 1, by omega⟩
      rw [hj]
      have hcopy (hoff : st.off < src.length) (hanchor : anchor = false)
          (hturn : valueTurn p r anchor st = .ok (gsubCopy anchor st)) :
          Folds { st with b := st.b ++ [src[st.off]], off := st.off + 1, off_le := hoff }
            (foldHits src p anchor (replacement src r) (j + 1) last (st.off + 1))
            (valueLoop p r anchor maxS { st with b := st.b ++ [src[st.off]], off := st.off + 1, off_le := hoff }) := by
        rw [← hj]
        subst hanchor
        rw [gsubCopy, dif_pos hoff] at hturn
        have hnext : valueTurn p r false st = .ok (.next { st with
            b := st.b ++ [src[st.off]], off := st.off + 1, off_le := hoff }) := hturn
        exact ih _ (hk ▸ valueTurn_next hnext) _ hlast rfl
      cases hm : match0 src 200 [] st.off p with
      | error e =>
        have hnext : nextHit src p anchor last st.off = .error e := by rw [nextHit, hm]
        rw [foldHits, hnext]
        exact valueLoop_error hn (valueTurn_error hm)
      | ok x =>
        obtain ⟨o, cap⟩ := x
        cases o with
        | none =>
          have hturn : valueTurn p r anchor st = .ok (gsubCopy anchor st) := valueTurn_none hm
          refine folds_copy hn ?_ hturn fun hoff hanchor => hcopy hoff hanchor hturn
          conv_lhs => rw [nextHit, hm]
        | some stop =>
          obtain ⟨hle, hturn⟩ := @valueTurn_some src p anchor r st stop cap hm
          by_cases hsame : stop = st.lastmatch
          · rw [if_neg (not_not.mpr hsame)] at hturn
            refine folds_copy hn ?_ hturn fun hoff hanchor => hcopy hoff hanchor hturn
            conv_lhs => rw [nextHit, hm]
            dsimp only
            rw [if_neg (not_not.mpr ((hlast stop hle).mpr hsame))]
          · rw [if_pos hsame] at hturn
            have hnext : nextHit src p anchor last st.off = .ok (some ⟨st.off, stop, cap⟩) := by
              rw [nextHit, hm]
              exact if_pos fun h => hsame ((hlast stop hle).mp h)
            have hbefore := (match0_within ⟨st.off_le, by simp⟩ hm).1
            refine folds_hit hn hnext hbefore hle hturn fun c s hanchor hstep => ?_
            subst hanchor
            have hfolds := @ih _ (hk ▸ valueTurn_next hstep)
              ⟨st.n + 1, st.changed || c, st.b ++ s, stop, hle, stop⟩ (some stop)
              (fun e _ => by rw [Option.some.injEq]) rfl
            rw [show (maxS - (st.n + 1)).toNat = j by omega] at hfolds
            exact hfolds
    · rw [show (maxS - st.n).toNat = 0 by omega, valueLoop, if_neg hn]
      exact ⟨st, rfl, rfl, by simp, id⟩

end

/-! ## The replacement string -/

section

variable (src : Bytes) (cap : Captures) (off stop : Nat)

/-- What an escape stands for. -/
def expandEscape (d : UInt8) : Rust Bytes :=
  if d = byte '%' then .ok [byte '%']
  else if d = byte '0' then sliceRange src off stop
  else if isAsciiDigit d then do
    match ← getOnecapture src cap (d.toNat - (byte '1').toNat) (some off) (some stop) with
    | .num v => .ok ((toString v).toUTF8.toList)
    | .str s => .ok s
  else .error (.msg "invalid use of '%' in replacement string")

/-- What a replacement string stands for. -/
def expand : Bytes → Rust Bytes
  | [] => .ok []
  | [c] => if c = byte '%' then .error (.msg "invalid use of '%' in replacement string") else .ok [c]
  | c :: d :: tr =>
    if c = byte '%' then expandEscape src cap off stop d >>= fun s => (expand tr).map (s ++ ·)
    else (expand (d :: tr)).map (c :: ·)

end

/-- The escape is a percent sign, or a capture that there is. -/
def escapes (cap : Captures) (d : UInt8) : Bool := d = byte '%' || isAsciiDigit d && hasCapture cap (digitIndex d)

/-- All escapes are in order. -/
def sound (cap : Captures) : Bytes → Bool
  | [] => true
  | [c] => c ≠ byte '%'
  | c :: d :: tr => if c = byte '%' then (d = byte '0' || escapes cap d) && sound cap tr else sound cap (d :: tr)

/-- The replacement has `%0`, and otherwise no bad escape; or it ends in a single percent sign, and every escape before
is in order. -/
def slips (cap : Captures) : Bytes → Bool
  | [] => false
  | [c] => c = byte '%'
  | c :: d :: tr =>
    if c = byte '%' then if d = byte '0' then sound cap tr else escapes cap d && slips cap tr
    else slips cap (d :: tr)

/-- The same text, or an error on both sides. -/
def Same : Rust Bytes → Rust Bytes → Prop
  | .ok s, .ok t => s = t
  | .error e, .error f => e = .panic ↔ f = .panic
  | _, _ => False

theorem Same.map_iff {f : Bytes → Bytes} (hf : Function.Injective f) {x y : Rust Bytes} :
    Same (x.map f) (y.map f) ↔ Same x y := by
  cases x <;> cases y <;> first | exact Iff.rfl | exact hf.eq_iff

section

variable {src : Bytes} {cap : Captures} {off stop : Nat}

theorem addS_of_none {tr : Bytes} (h : tr.idxOf? (byte '%') = none) : addS src cap off stop tr = .ok tr := by
  rw [addS]
  split
  · rfl
  · rename_i h'
    cases h.symm.trans h'

theorem addS_of_some {tr : Bytes} {q : Nat} (h : tr.idxOf? (byte '%') = some q) : addS src cap off stop tr =
    addEscape src cap off stop tr[q + 1]? >>= fun s =>
      if q + 2 ≤ tr.length then addS src cap off stop (tr.drop (q + 2)) >>= fun rest => .ok (tr.take q ++ s ++ rest)
      else .error .panic := by
  conv_lhs => rw [addS]
  split
  · rename_i h'
    cases h.symm.trans h'
  · rename_i q' h'
    cases h.symm.trans h'
    rfl

theorem addS_cons {c : UInt8} (hc : c ≠ byte '%') (tr : Bytes) :
    addS src cap off stop (c :: tr) = (addS src cap off stop tr).map (c :: ·) := by
  cases hp : tr.idxOf? (byte '%') with
  | none =>
    have hnone : (c :: tr).idxOf? (byte '%') = none := by simp [List.idxOf?_cons, hc, hp]
    rw [addS_of_none hp, addS_of_none hnone]
    rfl
  | some q =>
    have hsome : (c :: tr).idxOf? (byte '%') = some (q + 1) := by simp [List.idxOf?_cons, hc, hp]
    rw [addS_of_some hp, addS_of_some hsome, List.getElem?_cons_succ]
    cases addEscape src cap off stop tr[q + 1]? with
    | error e => rfl
    | ok s =>
      rw [Rust.ok_bind, Rust.ok_bind]
      by_cases hlen : q + 2 ≤ tr.length
      · rw [if_pos hlen, if_pos (by rw [List.length_cons]; omega), List.drop_succ_cons, List.take_succ_cons]
        cases addS src cap off stop (tr.drop (q + 2)) <;> rfl
      · rw [if_neg hlen, if_neg (by rw [List.length_cons]; omega)]
        rfl

theorem addS_escape (d : UInt8) (tr : Bytes) : addS src cap off stop (byte '%' :: d :: tr) =
    addEscape src cap off stop (some d) >>= fun s => (addS src cap off stop tr).map (s ++ ·) := by
  have hzero : (byte '%' :: d :: tr).idxOf? (byte '%') = some 0 := by simp [List.idxOf?_cons]
  rw [addS_of_some hzero, List.getElem?_cons_succ, List.getElem?_cons_zero]
  cases addEscape src cap off stop (some d) with
  | error e => rfl
  | ok s =>
    rw [Rust.ok_bind, Rust.ok_bind, if_pos (by simp)]
    change (addS src cap off stop tr >>= _) = _
    cases addS src cap off stop tr <;> rfl

theorem addS_single (h : InSubject src cap stop) (hoff : off ≤ stop) :
    addS src cap off stop [byte '%'] = .error .panic := by
  have hzero : [byte '%'].idxOf? (byte '%') = some 0 := by simp [List.idxOf?_cons]
  rw [addS_of_some hzero, List.getElem?_eq_none (by simp), addEscape, sliceRange_of_le hoff h.off_le, Rust.ok_bind,
    if_neg (by simp)]

theorem addEscape_eq {d : UInt8} (hd : d ≠ byte '0') :
    addEscape src cap off stop (some d) = expandEscape src cap off stop d := by
  unfold addEscape expandEscape
  by_cases hpercent : d = byte '%'
  · rw [if_pos hpercent]
    exact if_pos hpercent
  · rw [if_neg hpercent, if_neg hd]
    dsimp only
    rw [if_neg hpercent]
    by_cases hdigit : isAsciiDigit d = true
    · rw [if_pos hdigit, if_pos hdigit]
      have hindex : digitIndex d = d.toNat - (byte '1').toNat := by
        refine if_neg fun hlt => hd ?_
        rw [isAsciiDigit, decide_eq_true_eq] at hdigit
        have h1 : (48 : UInt8).toNat ≤ d.toNat := UInt8.le_iff_toNat_le.mp hdigit.1
        have h2 : d.toNat < (byte '1').toNat := UInt8.lt_iff_toNat_lt.mp hlt
        have h3 : (byte '1').toNat = 49 := rfl
        have h4 : (48 : UInt8).toNat = 48 := rfl
        have h5 : (byte '0').toNat = 48 := rfl
        exact UInt8.toNat_inj.mp (by omega)
      generalize digitIndex d = i at hindex ⊢
      subst hindex
      rfl
    · rw [if_neg hdigit, if_neg hdigit]

theorem addEscape_zero (hcap : cap.length ≤ 32) :
    ∃ text, addEscape src cap off stop (some (byte '0')) = .error (.msg text) := by
  have hindex : digitIndex (byte '0') = 2 ^ 64 - 1 := by decide
  have hnone : cap[2 ^ 64 - 1]? = none := List.getElem?_eq_none (by omega)
  have hget : getOnecapture src cap (2 ^ 64 - 1) (some off) (some stop) =
      .error (.msg ("invalid capture index %" ++ toString ((2 ^ 64 - 1 + 1) % 2 ^ 64))) := by
    rw [getOnecapture, hnone]
    exact if_neg (by decide)
  have hdigit : isAsciiDigit (byte '0') = true := by decide
  have hpercent : byte '0' ≠ byte '%' := by decide
  unfold addEscape
  dsimp only
  rw [if_neg hpercent, if_pos hdigit, hindex, hget, Rust.error_bind]
  exact ⟨_, rfl⟩

theorem addEscape_escapes (h : InSubject src cap stop) (hoff : off ≤ stop) (d : UInt8) :
    (escapes cap d = true ∧ ∃ s, addEscape src cap off stop (some d) = .ok s) ∨
      (escapes cap d = false ∧ ∃ text, addEscape src cap off stop (some d) = .error (.msg text)) :=
  addEscape_spec h hoff d

theorem expandEscape_zero (h : InSubject src cap stop) (hoff : off ≤ stop) :
    ∃ s, expandEscape src cap off stop (byte '0') = .ok s := by
  have hpercent : byte '0' ≠ byte '%' := by decide
  rw [expandEscape, if_neg hpercent, if_pos rfl, sliceRange_of_le hoff h.off_le]
  exact ⟨_, rfl⟩

theorem expand_spec (h : InSubject src cap stop) (hoff : off ≤ stop) (tr : Bytes) :
    (sound cap tr = true ∧ ∃ t, expand src cap off stop tr = .ok t) ∨
      (sound cap tr = false ∧ ∃ text, expand src cap off stop tr = .error (.msg text)) := by
  induction tr using sound.induct with
  | case1 => exact .inl ⟨rfl, [], rfl⟩
  | case2 c =>
    rw [sound, expand]
    by_cases hc : c = byte '%'
    · exact .inr ⟨by simp [hc], _, if_pos hc⟩
    · exact .inl ⟨by simp [hc], _, if_neg hc⟩
  | case3 d tr ih =>
    rw [sound, if_pos rfl, expand, if_pos rfl]
    have hescape : ((d = byte '0' || escapes cap d) = true ∧ ∃ s, expandEscape src cap off stop d = .ok s) ∨
        ((d = byte '0' || escapes cap d) = false ∧
          ∃ text, expandEscape src cap off stop d = .error (.msg text)) := by
      by_cases hd : d = byte '0'
      · exact .inl ⟨by simp [hd], by rw [hd]; exact expandEscape_zero h hoff⟩
      · rw [← addEscape_eq hd, decide_eq_false hd, Bool.false_or]
        exact addEscape_escapes h hoff d
    rcases hescape with ⟨hok, s, hs⟩ | ⟨hbad, text, ht⟩
    · rw [hs, hok, Rust.ok_bind, Bool.true_and]
      rcases ih with ⟨hsound, t, ht⟩ | ⟨hsound, text, ht⟩
      · exact .inl ⟨hsound, s ++ t, by rw [ht]; rfl⟩
      · exact .inr ⟨hsound, text, by rw [ht]; rfl⟩
    · rw [ht, hbad, Rust.error_bind, Bool.false_and]
      exact .inr ⟨rfl, text, rfl⟩
  | case4 c d tr hc ih =>
    rw [sound, if_neg hc, expand, if_neg hc]
    rcases ih with ⟨hsound, t, ht⟩ | ⟨hsound, text, ht⟩
    · exact .inl ⟨hsound, c :: t, by rw [ht]; rfl⟩
    · exact .inr ⟨hsound, text, by rw [ht]; rfl⟩

/-- `add_s` expands a replacement that does not slip. -/
theorem addS_same_iff (h : InSubject src cap stop) (hoff : off ≤ stop) (hcap : cap.length ≤ 32) (tr : Bytes) :
    Same (addS src cap off stop tr) (expand src cap off stop tr) ↔ slips cap tr = false := by
  induction tr using slips.induct with
  | case1 =>
    rw [addS_of_none rfl]
    exact iff_of_true rfl rfl
  | case2 c =>
    rw [slips, expand]
    by_cases hc : c = byte '%'
    · rw [hc, addS_single h hoff, if_pos rfl]
      exact iff_of_false (fun hsame => Fault.noConfusion (hsame.mp rfl)) (by simp)
    · rw [addS_cons hc, addS_of_none rfl, if_neg hc, decide_eq_false hc]
      exact iff_of_true rfl rfl
  | case3 tr =>
    obtain ⟨text, htext⟩ : ∃ text, addEscape src cap off stop (some (byte '0')) = .error (.msg text) :=
      addEscape_zero hcap
    obtain ⟨s, hs⟩ := expandEscape_zero h hoff
    rw [addS_escape, htext, Rust.error_bind, expand, if_pos rfl, hs, Rust.ok_bind, slips, if_pos rfl, if_pos rfl]
    rcases expand_spec h hoff tr with ⟨hsound, t, ht⟩ | ⟨hsound, text', ht⟩
    · rw [ht, hsound]
      exact iff_of_false id (by simp)
    · rw [ht, hsound]
      exact iff_of_true ⟨nofun, nofun⟩ rfl
  | case4 d tr hd ih =>
    rw [addS_escape, addEscape_eq hd, expand, if_pos rfl, slips, if_pos rfl, if_neg hd, ← addEscape_eq hd]
    rcases addEscape_escapes h hoff d with ⟨hok, s, hs⟩ | ⟨hbad, text, ht⟩
    · rw [hs, hok, Rust.ok_bind, Rust.ok_bind, Bool.true_and, Same.map_iff (List.append_right_injective s)]
      exact ih
    · rw [ht, hbad, Rust.error_bind, Rust.error_bind, Bool.false_and]
      exact iff_of_true Iff.rfl rfl
  | case5 c d tr hc ih =>
    rw [addS_cons hc, expand, if_neg hc, slips, if_neg hc, Same.map_iff List.cons_injective]
    exact ih

end

/-! ## `gsub` -/

section

variable (src p : Bytes) (anchor : Bool) (rep : Hit → Rust Bytes)

/-- The matches that are replaced, among the first `k` from `off` on. -/
inductive Replaces : Nat → Option Nat → Nat → Hit → Prop
  | here {k : Nat} {last : Option Nat} {off : Nat} {m : Hit} : nextHit src p anchor last off = .ok (some m) →
      Replaces (k + 1) last off m
  | later {k : Nat} {last : Option Nat} {off : Nat} {m m' : Hit} {s : Bytes} :
      nextHit src p anchor last off = .ok (some m) → rep m = .ok s → anchor = false →
      Replaces k (some m.stop) m.stop m' → Replaces (k + 1) last off m'

variable {src p anchor rep}

theorem nextHit_spec {last : Option Nat} {off : Nat} {m : Hit} (hoff : off ≤ src.length)
    (h : nextHit src p anchor last off = .ok (some m)) :
    m.start ≤ m.stop ∧ InSubject src m.cap m.stop ∧ m.cap.length ≤ 32 := by
  fun_induction nextHit src p anchor last off with
  | case1 => cases h
  | case2 off cap hm hgo ih => exact ih hgo.1 h
  | case3 => cases h
  | case4 off stop cap hm hne =>
    cases h
    obtain ⟨hle, hin⟩ := match0_within ⟨hoff, by simp⟩ hm
    exact ⟨hle, hin, match0_few hoff hm⟩
  | case5 off stop cap hm hne hgo ih => exact ih hgo.1 h
  | case6 => cases h

theorem Replaces.spec {k : Nat} {last : Option Nat} {off : Nat} {m : Hit} (hoff : off ≤ src.length)
    (h : Replaces src p anchor rep k last off m) :
    m.start ≤ m.stop ∧ InSubject src m.cap m.stop ∧ m.cap.length ≤ 32 := by
  induction h with
  | here hnext => exact nextHit_spec hoff hnext
  | later hnext _ _ _ ih => exact ih (nextHit_spec hoff hnext).2.1.off_le

end

/-! ## What a replacement stands for -/

/-- The text a replacement stands for at a match. A table or a function that has nothing for the captures keeps it. -/
def stands (src : Bytes) (r : Replacement) (m : Hit) : Rust Bytes :=
  match r with
  | .str tr => expand src m.cap m.start m.stop tr
  | .table get => do
    let key ← getOnecapture src m.cap 0 (some m.start) (some m.stop)
    (get key).map fun o => o.getD ((src.drop m.start).take (m.stop - m.start))
  | .fn call => do
    let args ← pushCaptures src m.cap (some m.start) (some m.stop) (nlevels m.cap (some m.start)) 0
    (call args).map fun o => o.getD ((src.drop m.start).take (m.stop - m.start))

/-- Only a replacement string can slip. -/
def Replacement.slips (r : Replacement) (cap : Captures) : Bool :=
  match r with
  | .str tr => Str.slips cap tr
  | .table _ => false
  | .fn _ => false

theorem Same.rfl (x : Rust Bytes) : Same x x := by
  cases x with
  | ok s => exact Eq.refl s
  | error e => exact Iff.rfl

theorem orKeep_snd {src : Bytes} {off stop : Nat} (hoff : off ≤ stop) (hstop : stop ≤ src.length)
    (o : Option Bytes) : (orKeep src off stop o).map Prod.snd = .ok (o.getD ((src.drop off).take (stop - off))) := by
  cases o with
  | none =>
    rw [orKeep, sliceRange_of_le hoff hstop]
    rfl
  | some s => rfl

theorem replacement_same_iff {src : Bytes} {m : Hit} (h : InSubject src m.cap m.stop) (hle : m.start ≤ m.stop)
    (hcap : m.cap.length ≤ 32) (r : Replacement) :
    Same (replacement src r m) (stands src r m) ↔ r.slips m.cap = false := by
  cases r with
  | str tr =>
    have hstr : replacement src (.str tr) m = addS src m.cap m.start m.stop tr := by
      rw [replacement, addValue]
      cases addS src m.cap m.start m.stop tr <;> rfl
    rw [hstr]
    exact addS_same_iff h hle hcap tr
  | table get =>
    have hsame : replacement src (.table get) m = stands src (.table get) m := by
      rw [replacement, addValue, stands]
      cases getOnecapture src m.cap 0 (some m.start) (some m.stop) with
      | error e => rfl
      | ok key =>
        rw [Rust.ok_bind, Rust.ok_bind]
        cases get key with
        | error e => rfl
        | ok o => exact orKeep_snd hle h.off_le o
    rw [hsame]
    exact iff_of_true (.rfl _) rfl
  | fn call =>
    have hsame : replacement src (.fn call) m = stands src (.fn call) m := by
      rw [replacement, addValue, stands]
      cases pushCaptures src m.cap (some m.start) (some m.stop) (nlevels m.cap (some m.start)) 0 with
      | error e => rfl
      | ok args =>
        rw [Rust.ok_bind, Rust.ok_bind]
        cases call args with
        | error e => rfl
        | ok o => exact orKeep_snd hle h.off_le o
    rw [hsame]
    exact iff_of_true (.rfl _) rfl

/-! ## The whole function -/

/-- The limit of `gsub`: the fourth argument. -/
def limit (src : LStr) (maxS : Option Int64) : Nat :=
  (maxS.getD (Int64.ofNat (src.bytes.length + 1))).toInt.toNat

/-- `gsub` returns the text of the fold and the number of matches. -/
theorem gsubValue_folds (src p : LStr) (r : Replacement) (maxS : Option Int64) : gsubValue src p r maxS =
    (foldHits src.bytes (unanchored p.bytes) (anchored p.bytes) (replacement src.bytes r) (limit src maxS) none 0).map
      fun x => [.str x.1, .int (Int64.ofNat x.2)] := by
  have hmax := src.length_le
  rw [isizeMax] at hmax
  have hfolds := @valueLoop_folds src.bytes (unanchored p.bytes) (anchored p.bytes) r
    (maxS.getD (Int64.ofNat (src.bytes.length + 1))).toInt (.start src.bytes) none fun e he => by
      refine iff_of_false nofun fun h => ?_
      have : e = 2 ^ 64 - 1 := h
      omega
  have hlimit : ((maxS.getD (Int64.ofNat (src.bytes.length + 1))).toInt - (GsubState.start src.bytes).n).toNat =
      limit src maxS := by rw [limit]; congr 1; exact Int.sub_zero _
  rw [hlimit] at hfolds
  change Folds _ (foldHits src.bytes _ _ _ (limit src maxS) none 0) _ at hfolds
  rw [gsubValue]
  generalize foldHits src.bytes (unanchored p.bytes) (anchored p.bytes) (replacement src.bytes r) (limit src maxS) none
    0 = x at hfolds
  cases x with
  | error e =>
    have herror : valueLoop (unanchored p.bytes) r (anchored p.bytes)
      (maxS.getD (Int64.ofNat (src.bytes.length + 1))).toInt (.start src.bytes) = .error e := hfolds
    rw [herror]
    rfl
  | ok x =>
    obtain ⟨st, hst, hb, hn, hkept⟩ := hfolds
    have htext : (if st.changed then st.b ++ src.bytes.drop st.off else src.bytes) = x.1 := by
      have hb' : st.b ++ src.bytes.drop st.off = x.1 := hb
      cases hchanged : st.changed with
      | true => exact hb'
      | false => rw [← hb', hkept (fun _ => rfl) hchanged, List.take_append_drop]; rfl
    have hcount : Int64.ofInt st.n = Int64.ofNat x.2 := by
      have hn' : st.n = 0 + (x.2 : Int) := hn
      rw [hn', Int.zero_add]
      rfl
    rw [hst, Rust.ok_bind, htext, hcount]
    rfl

/-- `gsub` is the fold of its matches; and each match that is replaced gets what the replacement stands for, exactly if
a replacement string slips for none of them. -/
theorem gsub_folds_iff (src p : LStr) (r : Replacement) (maxS : Option Int64) :
    (gsubValue src p r maxS =
        (foldHits src.bytes (unanchored p.bytes) (anchored p.bytes) (replacement src.bytes r) (limit src maxS) none
          0).map (fun x => [.str x.1, .int (Int64.ofNat x.2)]) ∧
      ∀ m, Replaces src.bytes (unanchored p.bytes) (anchored p.bytes) (replacement src.bytes r) (limit src maxS) none
          0 m →
        Same (replacement src.bytes r m) (stands src.bytes r m)) ↔
    ∀ m, Replaces src.bytes (unanchored p.bytes) (anchored p.bytes) (replacement src.bytes r) (limit src maxS) none
      0 m → r.slips m.cap = false := by
  rw [and_iff_right (gsubValue_folds src p r maxS)]
  refine forall_congr' fun m => forall_congr' fun hm => ?_
  obtain ⟨hle, hin, hcap⟩ := hm.spec (Nat.zero_le _)
  exact replacement_same_iff hin hle hcap r

/-- `string.gsub("a", "a", "%0")` is an error, where `%0` stands for the match. -/
theorem gsub_percent_zero :
    gsub ⟨['a'].map byte, by simp [isizeMax]⟩ ⟨['a'].map byte, by simp [isizeMax]⟩
        ⟨['%', '0'].map byte, by simp [isizeMax]⟩ none = .error (.msg "invalid capture index %0") ∧
      ∃ m, Replaces (['a'].map byte) (['a'].map byte) false
          (replacement (['a'].map byte) (.str (['%', '0'].map byte)))
          (limit ⟨['a'].map byte, by simp [isizeMax]⟩ none) none 0 m ∧
        stands (['a'].map byte) (.str (['%', '0'].map byte)) m = .ok (['a'].map byte) := by
  have hm : match0 (['a'].map byte) 200 [] 0 (['a'].map byte) = .ok (some 1, []) := by
    rw [match0_eq _ _ _ _ _ ⟨Nat.zero_le _, by simp⟩]
    decide
  have hnext : nextHit (['a'].map byte) (['a'].map byte) false none 0 = .ok (some ⟨0, 1, []⟩) := by
    rw [nextHit, hm]
    rfl
  have hlimit : limit ⟨['a'].map byte, by simp [isizeMax]⟩ none = 2 := by decide
  have hadd : addS (['a'].map byte) [] 0 1 (['%', '0'].map byte) = .error (.msg "invalid capture index %0") := by
    have hescape : addEscape (['a'].map byte) [] 0 1 (some (byte '0')) =
        .error (.msg "invalid capture index %0") := by decide
    have hrest := @addS_escape (['a'].map byte) [] 0 1 (byte '0') []
    rw [hescape] at hrest
    exact hrest
  have hfold : foldHits (['a'].map byte) (['a'].map byte) false
      (replacement (['a'].map byte) (.str (['%', '0'].map byte))) 2 none 0 =
      .error (.msg "invalid capture index %0") := by
    rw [foldHits, hnext]
    dsimp only
    rw [replacement, addValue, hadd]
    rfl
  refine ⟨?_, ⟨0, 1, []⟩, .here hnext, by decide⟩
  rw [gsub, gsubValue_folds, hlimit]
  exact congrArg _ hfold

end Tsuki.Str
