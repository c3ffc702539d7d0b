import Tsuki.Lib.AgreesUntil
import Tsuki.Str.PatternItem

/-!
# The matcher and the meaning of patterns

For a well-formed pattern the alternatives the matcher tries are the matches the pattern denotes, in the same order,
up to the first alternative that goes wrong: a `+` item that takes no character, an index past the end of the
subject, or the limit of `matchdepth`.
-/

namespace Tsuki.Str.Pattern

open Tsuki.Lib

/-! ## Captures -/

/-- The capture as the source stores it. -/
def Capture.encode : Capture → MatchCapture
  | .opened start => ⟨start, -1⟩
  | .closed start stop => ⟨start, (stop - start : Nat)⟩
  | .position off => ⟨off, -2⟩

def encode (cap : List Capture) : Captures := cap.map Capture.encode

def kinds (cap : List Capture) : List Kind := cap.map Capture.kind

@[simp] theorem encode_cons (c : Capture) (cap : List Capture) : encode (c :: cap) = c.encode :: encode cap := rfl

@[simp] theorem encode_append (cap cap' : List Capture) : encode (cap ++ cap') = encode cap ++ encode cap' :=
  List.map_append

@[simp] theorem length_encode (cap : List Capture) : (encode cap).length = cap.length := List.length_map _

@[simp] theorem kinds_cons (c : Capture) (cap : List Capture) : kinds (c :: cap) = c.kind :: kinds cap := rfl

@[simp] theorem kinds_append (cap cap' : List Capture) : kinds (cap ++ cap') = kinds cap ++ kinds cap' :=
  List.map_append

@[simp] theorem length_kinds (cap : List Capture) : (kinds cap).length = cap.length := List.length_map _

theorem captureToClose_cons (c : MatchCapture) (cs : Captures) :
    captureToClose (c :: cs) =
      match captureToClose cs with
      | .ok l => .ok (l + 1)
      | .error e => if c.len = -1 then .ok 0 else .error e := by
  rw [captureToClose, captureToClose, List.reverse_cons, List.findIdx?_append]
  cases h : cs.reverse.findIdx? (·.len = -1) with
  | some i =>
    have hlt := (List.findIdx?_eq_some_iff_getElem.mp h).1
    rw [List.length_reverse] at hlt
    simp only [Option.some_or, List.length_cons, Except.ok.injEq]
    omega
  | none =>
    by_cases hc : c.len = -1
    · simp [hc]
    · simp [hc]

theorem closeKind_kinds (off : Nat) (cap : List Capture) : closeKind (kinds cap) = (closeLast off cap).map kinds := by
  induction cap with
  | nil => rfl
  | cons c cs ih =>
    rw [kinds_cons, closeKind, closeLast, ih]
    rcases closeLast off cs with _ | cs'
    · cases c <;> rfl
    · rfl

/-- Closing the last open capture is what `end_capture` does. -/
theorem captureToClose_encode (off : Nat) (cap : List Capture) :
    match closeLast off cap with
    | some cap' => ∃ l, captureToClose (encode cap) = .ok l ∧
        (encode cap).modify l (fun c => ⟨c.off, (off - c.off : Nat)⟩) = encode cap'
    | none => ∃ e, captureToClose (encode cap) = .error e := by
  induction cap with
  | nil => exact ⟨_, rfl⟩
  | cons c cs ih =>
    rw [encode_cons, closeLast, captureToClose_cons]
    generalize closeLast off cs = r at ih
    rcases r with _ | cs'
    · obtain ⟨e, he⟩ := ih
      rw [he]
      cases c with
      | opened start => exact ⟨0, rfl, rfl⟩
      | closed start stop => exact ⟨e, if_neg (by simp only [Capture.encode]; omega)⟩
      | position off => exact ⟨e, rfl⟩
    · obtain ⟨l, hl, hmod⟩ := ih
      exact ⟨l + 1, by rw [hl], by rw [List.modify_succ_cons, hmod, encode_cons]⟩

/-! ## Outcomes -/

/-- A match as an outcome of the matcher. -/
def event (m : Nat × List Capture) : Event := .found m.1 (encode m.2) false

/-- The outcomes that are no match of the pattern. -/
def Defect : Event → Prop
  | .found _ _ zero => zero = true
  | .fault text => text = "pattern too complex"
  | .hazard _ => True

section

variable (src : Bytes) (items : List Item) (cap : List Capture)

/-- The explored outcomes agree with the matches of the items behind `cap`, from every offset. -/
def Agrees (ex : Nat → List Event) : Prop :=
  ∀ off, AgreesUntil Defect (ex off) ((denote src items off cap).map event)

end

section

variable {src : Bytes} {items : List Item} {cap : List Capture}

theorem defect_zeroPlus (e : Event) (h : Defect e) : Defect e.zeroPlus := by
  cases e with
  | found => exact rfl
  | fault => exact h
  | hazard => exact h

theorem hits_eq_run {p : Bytes} {s : Single} {k : Nat} (h : SingleSpec p s k) (off : Nat) :
    hits src off p k = run src s off := by
  rw [hits, run]
  congr 2
  funext c
  exact h.test_eq c

/-- The alternatives for a single-character item and its quantifier. -/
theorem exploreItem_agrees {ex : Explorer} {loop : Nat → Bytes → List Event} {p rest : Bytes} {s : Single} {k : Nat}
    {it : Item} (hs : SingleSpec p s k) (hq : quantified s (p.drop k) = (it, rest))
    (hex : Agrees src items cap fun off => ex (encode cap) off rest)
    (hloop : Agrees src items cap fun off => loop off rest) :
    Agrees src (it :: items) cap fun off => exploreItem src ex loop (encode cap) off p := by
  intro off
  have hhead : (p.drop k).head? = p[k]? := by rw [List.head?_drop]
  have htail : (p.drop k).tail = p.drop (k + 1) := by rw [List.tail_drop]
  simp only [exploreItem, hs.classend_eq, exploreSingle, hits_eq_run hs off]
  simp only [quantified, hhead, htail] at hq
  split_ifs at hq with h1 h2 h3 h4
  all_goals
    cases hq
    simp only [denote]
  · rw [if_pos h1, List.map_append]
    refine .append ?_ (hloop off)
    split_ifs
    · exact hex _
    · exact .nil
  · rw [if_neg h1, if_pos h2]
    split_ifs with hm
    · have hzero : AgreesUntil Defect ((ex (encode cap) off (p.drop (k + 1))).map Event.zeroPlus) [] := by
        refine (hex off).map_bad defect_zeroPlus fun e he => ?_
        obtain ⟨m, -, rfl⟩ := List.mem_map.mp he
        rfl
      simpa only [List.append_nil, List.map_flatMap] using
        AgreesUntil.append (AgreesUntil.flatMap _ fun i _ => hex (off + (i + 1))) hzero
    · rw [Nat.eq_zero_of_not_pos hm]
      exact .nil
  · rw [if_neg h1, if_neg h2, if_pos h3]
    split_ifs with hm
    · rw [List.map_flatMap]
      exact .flatMap _ fun i _ => hex _
    · rw [Nat.eq_zero_of_not_pos hm]
      simpa using hloop off
  · rw [if_neg h1, if_neg h2, if_neg h3, if_pos h4]
    split_ifs with hm
    · rw [List.map_flatMap]
      exact .flatMap _ fun i _ => hex _
    · rw [Nat.eq_zero_of_not_pos hm]
      simpa using hloop off
  · rw [if_neg h1, if_neg h2, if_neg h3, if_neg h4]
    split_ifs
    · exact hloop _
    · exact .nil

end

/-! ### Balanced strings, frontiers and back references -/

section

variable {src : Bytes} {off : Nat}

theorem balanceLoop_eq_closing {x y : UInt8} {r : Option Nat} {n : Nat} (hn : 1 ≤ n)
    (h : balanceLoop src x (some y) off n = .ok r) :
    r = (closing x y n (src.drop (off + 1))).map (off + 1 + ·) := by
  have hcons : ∀ {off : Nat}, off + 1 < src.length →
      src.drop (off + 1) = src.getD (off + 1) 0 :: src.drop (off + 1 + 1) := by
    intro off hlt
    rw [List.getD_eq_getElem?_getD, List.getElem?_eq_getElem hlt, Option.getD_some, List.drop_eq_getElem_cons hlt]
  have hmap : ∀ (o : Option Nat) (off : Nat), (o.map (· + 1)).map (off + 1 + ·) = o.map (off + 1 + 1 + ·) := by
    intro o off
    rw [Option.map_map]
    congr 1
    funext k
    simp only [Function.comp_apply]
    omega
  induction off, n using balanceLoop.induct src x (some y) with
  | case1 off n hlt hy hc =>
    rw [balanceLoop, dif_pos hlt, if_pos hy, if_pos hc] at h
    rw [hcons hlt, closing, if_pos (Option.some.inj hy), if_pos (by omega)]
    exact (Except.ok.inj h).symm
  | case2 off n hlt hy hc ih =>
    rw [balanceLoop, dif_pos hlt, if_pos hy, if_neg hc] at h
    rw [hcons hlt, closing, if_pos (Option.some.inj hy), if_neg (by omega), hmap]
    exact ih (by omega) h
  | case3 off n hlt hy hx hc =>
    rw [balanceLoop, dif_pos hlt, if_neg hy, if_pos hx, if_pos hc] at h
    cases h
  | case4 off n hlt hy hx hc ih =>
    rw [balanceLoop, dif_pos hlt, if_neg hy, if_pos hx, if_neg hc] at h
    rw [hcons hlt, closing, if_neg (fun heq => hy (congrArg some heq)), if_pos hx, hmap]
    exact ih (by omega) h
  | case5 off n hlt hy hx ih =>
    rw [balanceLoop, dif_pos hlt, if_neg hy, if_neg hx] at h
    rw [hcons hlt, closing, if_neg (fun heq => hy (congrArg some heq)), if_neg hx, hmap]
    exact ih hn h
  | case6 off n hlt =>
    rw [balanceLoop, dif_neg hlt] at h
    rw [List.drop_eq_nil_of_le (by omega), closing]
    exact (Except.ok.inj h).symm

variable (src off)

/-- A test of the matcher ends the match with a hazard or gives what the item means. -/
def TestAgrees {α : Type} (t : Event ⊕ α) (a : α) : Prop := (∃ h, t = .inl (.hazard h)) ∨ t = .inr a

theorem exploreBalance_agrees (x y : UInt8) (p : Bytes) :
    TestAgrees (exploreBalance src off (x :: y :: p)) (balanced src x y off) := by
  simp only [exploreBalance, balanced]
  cases hc : src[off]? with
  | none => exact .inl ⟨_, rfl⟩
  | some c =>
    dsimp only
    by_cases hx : c = x
    · rw [if_neg (not_not.mpr hx), if_pos (by rw [hx])]
      cases hb : balanceLoop src x (y :: p).head? off 1 with
      | error e => exact .inl ⟨_, rfl⟩
      | ok r => exact .inr (congrArg _ (balanceLoop_eq_closing (le_refl 1) hb))
    · rw [if_pos hx, if_neg (fun heq => hx (Option.some.inj heq))]
      exact .inr rfl

theorem exploreReference_agrees {cap : List Capture} {c : UInt8} (hc : isDigit c) (h0 : c ≠ byte '0')
    (hk : ((kinds cap)[c.toNat - 49]?.any (· ≠ .opened)) = true) :
    TestAgrees (exploreReference src (encode cap) off c) (repeated src cap[c.toNat - 49]? off) := by
  have hdigit : 49 ≤ c.toNat := by
    simp only [isDigit, Bool.and_eq_true, decide_eq_true_eq, UInt8.le_iff_toNat_le] at hc
    have hne : c.toNat ≠ 48 := fun heq => h0 (UInt8.toNat_inj.mp (by rw [heq]; rfl))
    have : (48 : UInt8).toNat = 48 := rfl
    omega
  have hindex : ((c.toNat : Int) - (byte '1').toNat).toNat = c.toNat - 49 := by
    rw [show (byte '1').toNat = 49 from rfl]
    omega
  rw [kinds, List.getElem?_map] at hk
  cases hcp : cap[c.toNat - 49]? with
  | none => rw [hcp] at hk; cases hk
  | some cp =>
    have hcap : (encode cap)[c.toNat - 49]? = some cp.encode := by rw [encode, List.getElem?_map, hcp]; rfl
    have hclosed : ¬cp.encode.len = -1 := by
      rw [hcp] at hk
      cases cp with
      | opened => cases hk
      | closed start stop => simp only [Capture.encode]; omega
      | position => simp only [Capture.encode]; omega
    have hcheck : checkCapture (encode cap) c = .ok (c.toNat - 49) := by
      have h1 : (byte '1').toNat = 49 := rfl
      simp only [checkCapture, hindex, hcap]
      rw [if_neg]
      rintro (hneg | hopen)
      · omega
      · exact hclosed (by simpa using hopen)
    simp only [exploreReference, hcheck, hcap]
    cases cp with
    | opened start => exact absurd rfl hclosed
    | closed start stop =>
      rw [if_neg (by simp only [Capture.encode]; omega), repeated]
      show TestAgrees (if (src.drop off).take (stop - start) = (src.drop start).take (stop - start) then
        .inr (some (off + (stop - start))) else .inr none) _
      by_cases heq : (src.drop off).take (stop - start) = (src.drop start).take (stop - start)
      · rw [if_pos heq, if_pos heq]
        exact .inr rfl
      · rw [if_neg heq, if_neg heq]
        exact .inr rfl
    | position start => exact .inl ⟨_, rfl⟩

theorem exploreFrontier_agrees {p : Bytes} {neg : Bool} {set : List SetItem} {ep : Nat}
    (htest : ∀ c, setTest p ep c = setMember neg set c) :
    TestAgrees (exploreFrontier src off p ep)
      (decide (setMember neg set (charBefore src off) = false ∧ setMember neg set (charAt src off))) := by
  rw [exploreFrontier, htest, show previous src off = charBefore src off from rfl, charAt,
    List.getD_eq_getElem?_getD]
  cases hb : setMember neg set (charBefore src off) with
  | true => exact .inr (by simp)
  | false =>
    cases src[off]? with
    | none => exact .inl ⟨_, rfl⟩
    | some c => exact .inr (by simp [htest])

end

/-! ## The matcher -/

theorem one_le_of_singleSpec {p : Bytes} {s : Single} {k : Nat} (h : SingleSpec p s k) : 1 ≤ k :=
  one_le_classend h.classend_eq

theorem quantified_spec {s : Single} {p q : Bytes} {it : Item} (h : quantified s p = (it, q)) :
    q.length ≤ p.length ∧ ∃ quant, it = .single s quant := by
  unfold quantified at h
  split_ifs at h
  all_goals
    cases h
    exact ⟨by simp, _, rfl⟩

/-- Called with a well-formed pattern, the explorer lists what the pattern denotes, up to a defect. -/
def Follows (src : Bytes) (ex : Explorer) : Prop :=
  ∀ (n : Nat) (p : Bytes) (items : List Item) (cap : List Capture), parseItems n p = some items →
    wellFormed (kinds cap) items → Agrees src items cap fun off => ex (encode cap) off p

section

variable {src : Bytes} {ex : Explorer} {cap : List Capture} {items : List Item} {it : Item} {n N off : Nat}
  {c : UInt8} {p q : Bytes}

theorem exploreStart_agrees (hex : Follows src ex) (hq : parseItems n q = some items) {new : Capture} {what : Int}
    (hnew : new.encode = ⟨off, what⟩) (hwf : cap.length < 32) (hwf' : wellFormed (kinds (cap ++ [new])) items) :
    AgreesUntil Defect (exploreStart ex (encode cap) off q what)
      ((denote src items off (cap ++ [new])).map event) := by
  have hencode : encode cap ++ [⟨off, what⟩] = encode (cap ++ [new]) := by
    rw [encode_append, encode_cons, hnew]
    rfl
  rw [exploreStart, if_neg (by rw [length_encode]; omega), hencode]
  exact hex n q items _ hq hwf' off

theorem exploreEnd_agrees (hex : Follows src ex) (hq : parseItems n q = some items)
    (hwf : wellFormed (kinds cap) (.closeCap :: items)) :
    AgreesUntil Defect (exploreEnd ex (encode cap) off q) ((denote src (.closeCap :: items) off cap).map event) := by
  have hclose := captureToClose_encode off cap
  rw [wellFormed, closeKind_kinds off] at hwf
  rw [exploreEnd, denote]
  cases hcap : closeLast off cap with
  | none => rw [hcap] at hwf; cases hwf
  | some cap' =>
    rw [hcap] at hclose hwf
    obtain ⟨l, hl, hmod⟩ := hclose
    simp only [hl, hmod]
    exact hex n q items cap' hq hwf off

theorem parseItems_nil (h : parseItems n [] = some items) : items = [] := by
  rcases n with _ | n <;>
    · rw [parseItems, if_pos rfl] at h
      exact (Option.some.inj h).symm

theorem exploreLoop_agrees (hex : Follows src ex) (N : Nat) (hlen : p.length ≤ N) (hp : parseItems n p = some items)
    (hwf : wellFormed (kinds cap) items) :
    Agrees src items cap fun off => exploreLoop src ex (encode cap) N off p := by
  have hnil : ∀ {N : Nat} {n : Nat} {items : List Item} {cap : List Capture}, parseItems n [] = some items →
      Agrees src items cap fun off => exploreLoop src ex (encode cap) N off [] := by
    intro N n items cap hp off
    show AgreesUntil Defect (exploreLoop src ex (encode cap) N off []) _
    rw [parseItems_nil hp, exploreLoop_nil]
    exact .refl _
  induction N generalizing n p items cap with
  | zero =>
    rw [List.length_eq_zero_iff.mp (Nat.le_zero.mp hlen)] at hp ⊢
    exact hnil hp
  | succ N ih =>
    rcases p with _ | ⟨c, p⟩
    · exact hnil hp
    rcases n with _ | n
    · cases hp
    rw [parseItems, if_neg (List.cons_ne_nil _ _)] at hp
    cases hit : parseItem (c :: p) with
    | none => rw [hit] at hp; cases hp
    | some r =>
      obtain ⟨it, q⟩ := r
      rw [hit] at hp
      obtain ⟨items, hq, rfl⟩ := Option.map_eq_some_iff.mp hp
      rw [List.length_cons] at hlen
      have hsingle : ∀ {s k}, SingleSpec (c :: p) s k → quantified s ((c :: p).drop k) = (it, q) →
          Agrees src (it :: items) cap fun off =>
            exploreItem src ex (exploreLoop src ex (encode cap) N) (encode cap) off (c :: p) := by
        intro s k hs hquant
        obtain ⟨hle, quant, rfl⟩ := quantified_spec hquant
        have h1 := one_le_of_singleSpec hs
        rw [List.length_drop, List.length_cons] at hle
        exact exploreItem_agrees hs hquant (hex _ _ _ _ hq hwf) (ih (by omega) hq hwf)
      intro off
      unfold exploreLoop
      dsimp only
      simp only [parseItem] at hit
      have h1 : byte '(' ≠ byte ')' := by decide
      by_cases hopen : c = byte '('
      · rw [if_pos hopen] at hit ⊢
        by_cases hpos : p.head? = some (byte ')')
        · rw [if_pos hpos] at hit ⊢
          cases hit
          rw [wellFormed, Bool.and_eq_true, decide_eq_true_eq, length_kinds] at hwf
          exact exploreStart_agrees hex hq rfl hwf.1 (by rw [kinds_append]; exact hwf.2)
        · rw [if_neg hpos] at hit ⊢
          cases hit
          rw [wellFormed, Bool.and_eq_true, decide_eq_true_eq, length_kinds] at hwf
          exact exploreStart_agrees hex hq rfl hwf.1 (by rw [kinds_append]; exact hwf.2)
      rw [if_neg hopen] at hit ⊢
      by_cases hclose : c = byte ')'
      · rw [if_pos hclose] at hit ⊢
        cases hit
        exact exploreEnd_agrees hex hq hwf
      rw [if_neg hclose] at hit ⊢
      by_cases hend : c = byte '$' ∧ p = []
      · rw [if_pos hend] at hit ⊢
        cases hit
        rw [parseItems_nil hq, denote]
        split_ifs
        · exact .refl _
        · exact .nil
      rw [if_neg hend] at hit ⊢
      by_cases hesc : c = byte '%'
      · rw [if_pos hesc] at hit ⊢
        subst hesc
        rcases p with _ | ⟨c, p⟩
        · cases hit
        simp only [parseEscape] at hit
        dsimp only
        by_cases hbal : c = byte 'b'
        · rw [if_pos hbal] at hit ⊢
          rcases p with _ | ⟨x, _ | ⟨y, p⟩⟩
          · cases hit
          · cases hit
          cases hit
          have hgo := ih (by simp only [List.length_cons] at hlen; omega) hq hwf
          rw [denote]
          rcases exploreBalance_agrees src off x y q with ⟨z, hz⟩ | hz <;> rw [hz]
          · exact .bad trivial
          · cases balanced src x y off with
            | none => exact .nil
            | some v => exact hgo v
        rw [if_neg hbal] at hit ⊢
        by_cases hfront : c = byte 'f'
        · rw [if_pos hfront] at hit ⊢
          split_ifs at hit with hset
          obtain ⟨⟨neg, set, rest⟩, hbr, hr⟩ := Option.map_eq_some_iff.mp hit
          cases hr
          obtain ⟨p, rfl⟩ : ∃ p', p = byte '[' :: p' := by
            rcases p with _ | ⟨x, p⟩
            · cases hset
            · exact ⟨p, by rw [Option.some.inj hset]⟩
          rw [List.tail_cons] at hbr
          obtain ⟨ep, hep, hdrop, -, htest⟩ := parseBracket_spec hbr
          have htest' : ∀ x, setTest (byte '[' :: p) ep x = setMember neg set x := by
            intro x
            rw [setTest, htest]
            cases setMember neg set x <;> rfl
          have hle : rest.length ≤ N := by
            have := one_le_classend hep
            rw [← hdrop, List.length_drop]
            simp only [List.length_cons] at hlen ⊢
            omega
          have hgo := ih hle hq hwf
          rw [if_neg (not_not.mpr hset), hep, denote]
          dsimp only
          rcases exploreFrontier_agrees src off htest' with ⟨z, hz⟩ | hz <;> rw [hz]
          · exact .bad trivial
          · rw [hdrop]
            split_ifs with hin
            · rw [decide_eq_true hin]
              exact hgo off
            · rw [decide_eq_false hin]
              exact .nil
        rw [if_neg hfront] at hit ⊢
        rw [digit_eq]
        by_cases hdigit : isDigit c = true
        · rw [if_pos hdigit] at hit ⊢
          split_ifs at hit with h0
          cases hit
          rw [wellFormed, Bool.and_eq_true] at hwf
          have hgo := ih (by simp only [List.length_cons] at hlen; omega) hq hwf.2
          rw [denote]
          rcases exploreReference_agrees src off hdigit h0 hwf.1 with ⟨z, hz⟩ | hz <;> rw [hz]
          · exact .bad trivial
          · cases repeated src cap[c.toNat - 49]? off with
            | none => exact .nil
            | some v => exact hgo v
        · rw [if_neg hdigit] at hit ⊢
          split_ifs at hit
          exact hsingle clsSpec (Option.some.inj hit) off
      rw [if_neg hesc] at hit ⊢
      by_cases hset : c = byte '['
      · rw [if_pos hset] at hit
        subst hset
        obtain ⟨⟨neg, set, rest⟩, hbr, hquant⟩ := Option.map_eq_some_iff.mp hit
        obtain ⟨k, hs, hdrop⟩ := setSpec hbr
        exact hsingle hs (by rw [hdrop]; exact hquant) off
      rw [if_neg hset] at hit
      by_cases hany : c = byte '.'
      · rw [if_pos hany] at hit
        subst hany
        exact hsingle anySpec (Option.some.inj hit) off
      · rw [if_neg hany] at hit
        exact hsingle (litSpec hany hesc hset) (Option.some.inj hit) off

end

/-- At every depth the matcher tries the matches the pattern denotes, in order, up to a defect. -/
theorem explore_follows (src : Bytes) (d : Nat) : Follows src (explore src d) := by
  induction d with
  | zero => exact fun n p items cap _ _ off => .bad rfl
  | succ d ih => exact fun n p items cap hp hwf => exploreLoop_agrees ih p.length (le_refl _) hp hwf

/-- What `match_0` has to return at `off`: the end and the captures of the first match. -/
def reference (src : Bytes) (items : List Item) (off : Nat) : Option Nat × Captures :=
  match (denote src items off []).head? with
  | some (stop, cap) => (some stop, encode cap)
  | none => (none, [])

/-- The alternative panics. -/
def Event.panics : Event → Bool
  | .hazard _ => true
  | _ => false

/-- The alternative neither panics nor has a `+` item that takes no character. -/
def Event.clean : Event → Bool
  | .found _ _ zero => !zero
  | .fault _ => true
  | .hazard _ => false

/-- The first alternative that is not abandoned is clean, or all of them are abandoned. -/
def firstClean (src : Bytes) (p : Bytes) (off : Nat) : Bool := (explore src 200 [] off p).head?.all Event.clean

/-- The first alternative that is not abandoned panics. -/
def firstPanics (src : Bytes) (p : Bytes) (off : Nat) : Bool := (explore src 200 [] off p).head?.any Event.panics

theorem reference_of_head? {src : Bytes} {items : List Item} {off stop : Nat} {cap : Captures} {zero : Bool}
    {l : List Event}
    (h : (Event.found stop cap zero :: l).head? = ((denote src items off []).map event).head?) :
    reference src items off = (some stop, cap) := by
  rw [List.head?_cons, List.head?_map] at h
  obtain ⟨m, hm, he⟩ := Option.map_eq_some_iff.mp h.symm
  cases he
  rw [reference, hm]

/-- `match_0` returns the first match of a well-formed pattern where the first alternative it does not abandon is clean,
and does not where that one panics. -/
theorem match0_eq_reference {src p : Bytes} {items : List Item} {off : Nat} (hp : parse p = some items)
    (hwf : wellFormed [] items) (hoff : off ≤ src.length)
    (hdepth : match0 src 200 [] off p ≠ .error (.msg "pattern too complex")) :
    (firstClean src p off → match0 src 200 [] off p = .ok (reference src items off)) ∧
      (firstPanics src p off → match0 src 200 [] off p ≠ .ok (reference src items off)) := by
  have hmatch : match0 src 200 [] off p = firstOutcome [] (explore src 200 [] off p) :=
    match0_eq src 200 [] off p ⟨hoff, by simp⟩
  have hagree : AgreesUntil Defect (explore src 200 [] off p) ((denote src items off []).map event) :=
    explore_follows src 200 p.length p items [] hp hwf off
  have hfirst := hagree.head?
  rw [hmatch] at hdepth ⊢
  rw [firstClean, firstPanics]
  generalize explore src 200 [] off p = l at hdepth hfirst ⊢
  rcases l with _ | ⟨e, l⟩
  · obtain ⟨e, he, -⟩ | hfirst := hfirst
    · cases he
    · have hnone : (denote src items off []).head? = none := by simpa using hfirst
      simp [firstOutcome, reference, hnone]
  · cases e with
    | hazard z => simp [firstOutcome, Event.clean]
    | fault text =>
      obtain ⟨e, he, hbad⟩ | hfirst := hfirst
      · cases he
        exact absurd (by rw [firstOutcome, hbad]) hdepth
      · rw [List.head?_cons, List.head?_map] at hfirst
        obtain ⟨m, -, he⟩ := Option.map_eq_some_iff.mp hfirst.symm
        cases he
    | found stop cap zero =>
      cases zero with
      | true => simp [Event.clean, Event.panics]
      | false =>
        obtain ⟨e, he, hbad⟩ | hfirst := hfirst
        · cases he
          cases hbad
        · simp [firstOutcome, Event.panics, reference_of_head? hfirst]

/-- `a+b` matches all of `aab`. -/
theorem match0_eq_reference_aab :
    match0 (['a', 'a', 'b'].map byte) 200 [] 0 (['a', '+', 'b'].map byte) = .ok (some 3, []) := by
  have hparse : parse (['a', '+', 'b'].map byte) =
      some [.single (.lit (byte 'a')) .plus, .single (.lit (byte 'b')) .once] := by decide
  have hdepth : match0 (['a', 'a', 'b'].map byte) 200 [] 0 (['a', '+', 'b'].map byte) ≠
      .error (.msg "pattern too complex") := by
    rw [match0_eq _ 200 [] 0 _ ⟨by decide, by simp⟩]
    decide
  exact (match0_eq_reference hparse (by decide) (by decide) hdepth).1 (by decide)

-- `a?a+ab` matches all of `aab`, though in the first alternative `a+` takes no character
example : ¬firstClean (['a', 'a', 'b'].map byte) (['a', '?', 'a', '+', 'a', 'b'].map byte) 0 ∧
    ∃ items, parse (['a', '?', 'a', '+', 'a', 'b'].map byte) = some items ∧
      reference (['a', 'a', 'b'].map byte) items 0 = (some 3, []) ∧
      match0 (['a', 'a', 'b'].map byte) 200 [] 0 (['a', '?', 'a', '+', 'a', 'b'].map byte) = .ok (some 3, []) := by
  refine ⟨by decide, _, rfl, by decide, ?_⟩
  rw [match0_eq _ 200 [] 0 _ ⟨by decide, by simp⟩]
  decide

/-- The source lets `a+` match nothing: `a+ab` matches `ab`, where the pattern has no match. -/
theorem match0_plus_empty : ∃ items, parse (['a', '+', 'a', 'b'].map byte) = some items ∧ wellFormed [] items ∧
    denote (['a', 'b'].map byte) items 0 [] = [] ∧
    match0 (['a', 'b'].map byte) 200 [] 0 (['a', '+', 'a', 'b'].map byte) = .ok (some 2, []) := by
  refine ⟨_, rfl, by decide, by decide, ?_⟩
  rw [match0_eq _ 200 [] 0 _ ⟨by decide, by simp⟩]
  decide

end Tsuki.Str.Pattern
