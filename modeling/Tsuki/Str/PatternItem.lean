import Tsuki.Str.Pattern
import Tsuki.Str.MatchRefine

/-!
# The items of a pattern in the matcher

The source finds the end of an item with `classend` and tests a character against its bytes. For the items of a
parsed pattern both agree with the syntax: `classend` stops where the parser does, and the test is the one the
item means.
-/

namespace Tsuki.Str.Pattern

/-! ## Classes -/

theorem printable_eq (c : UInt8) :
    (decide (33 ≤ c) && decide (c ≤ 126)) = (decide (32 < c) && decide (c < 127)) := by
  rw [Bool.eq_iff_iff]
  simp [UInt8.le_iff_toNat_le, UInt8.lt_iff_toNat_lt]
  omega

theorem punctuation_eq (c : UInt8) :
    (decide (33 ≤ c) && decide (c ≤ 47) || decide (58 ≤ c) && decide (c ≤ 64) ||
      decide (91 ≤ c) && decide (c ≤ 96) || decide (123 ≤ c) && decide (c ≤ 126)) =
      (decide (32 < c) && decide (c < 127) && !(isLetter c || isDigit c)) := by
  rw [Bool.eq_iff_iff]
  simp [isLetter, isDigit, UInt8.le_iff_toNat_le, UInt8.lt_iff_toNat_lt]
  omega

theorem space_eq (c : UInt8) :
    (decide (c = 32) || decide (c = 12) || decide (c = 10) || decide (c = 13) || decide (c = 9) ||
      decide (c = 11)) = (decide (c = 32) || decide (9 ≤ c) && decide (c ≤ 13)) := by
  rw [Bool.eq_iff_iff]
  simp [← UInt8.toNat_inj, UInt8.le_iff_toNat_le]
  omega

theorem letter_eq (c : UInt8) : (isAsciiUppercase c || isAsciiLowercase c) = isLetter c := by
  simp [isAsciiUppercase, isAsciiLowercase, isLetter]

theorem digit_eq (c : UInt8) : isAsciiDigit c = isDigit c := by
  simp [isAsciiDigit, isDigit]

theorem classTest_eq (cl c : UInt8) :
    classTest cl c = if toAsciiLowercase cl ∈ classLetters then some (escapeTest.lower c (toAsciiLowercase cl))
      else none := by
  have hmem : ∀ l, l ∈ classLetters ↔ l = byte 'a' ∨ l = byte 'c' ∨ l = byte 'd' ∨ l = byte 'g' ∨ l = byte 'l' ∨
      l = byte 'p' ∨ l = byte 's' ∨ l = byte 'u' ∨ l = byte 'w' ∨ l = byte 'x' := by
    simp [classLetters]
  rw [classTest, punctuation_eq, space_eq, printable_eq, letter_eq, digit_eq]
  generalize toAsciiLowercase cl = l
  by_cases hl : l ∈ classLetters
  · rw [if_pos hl, escapeTest.lower]
    rcases (hmem l).mp hl with rfl | rfl | rfl | rfl | rfl | rfl | rfl | rfl | rfl | rfl
    all_goals simp [byte, isAsciiLowercase, isAsciiUppercase]
  · rw [if_neg hl]
    simp only [hmem, not_or] at hl
    simp [hl]

theorem matchClass_eq (c cl : UInt8) : matchClass c cl = escapeTest cl c := by
  have hlower : ∀ l ∈ classLetters, isAsciiLowercase l = true ∧ toAsciiLowercase l = l := by decide +kernel
  have hupper : ∀ l ∈ classLetters, isAsciiLowercase (l - 32) = false ∧ toAsciiLowercase (l - 32) = l := by
    decide +kernel
  rw [matchClass, classTest_eq, escapeTest]
  by_cases hl : cl ∈ classLetters
  · obtain ⟨h1, h2⟩ := hlower cl hl
    rw [h2, if_pos hl, if_pos hl, h1]
    rfl
  rw [if_neg hl]
  by_cases hu : cl + 32 ∈ classLetters
  · obtain ⟨h1, h2⟩ := hupper (cl + 32) hu
    rw [UInt8.add_sub_cancel] at h1 h2
    rw [h2, if_pos hu, if_pos hu, h1]
    rfl
  have hnone : toAsciiLowercase cl ∉ classLetters := by
    rw [toAsciiLowercase]
    split_ifs <;> assumption
  rw [if_neg hu, if_neg hnone]

/-! ## Sets -/

theorem idx_append {α : Type} {pre xs : List α} {i : Nat} (hpre : pre.length = i) (j : Nat) :
    idx (pre ++ xs) (i + j) = idx xs j := by
  rw [idx, idx, List.getElem?_append_right (by omega), ← hpre, Nat.add_sub_cancel_left]

/-- What one item of a set does in `classend` and in `matchbracketclass`; `ec` is the index of the closing bracket. -/
structure SetItemSpec (p q : Bytes) (it : SetItem) (k : Nat) : Prop where
  drop_eq : p.drop k = q
  one_le : 1 ≤ k
  le_length : k ≤ p.length
  eq_one : p.head? = some (byte '-') → p.tail.head? = some (byte ']') → k = 1
  setEnd_eq (o : Nat) : setEnd o p = if q.head? = some (byte ']') then .ok (o + k + 1) else setEnd (o + k) q
  loop_eq (c : UInt8) (pre : Bytes) (i ec : Nat) (sig : Bool) : pre.length = i + 1 → ec < pre.length + p.length →
    pre.length + k ≤ ec → (q.head? = some (byte '-') → q.tail.head? = some (byte ']') → ec ≤ pre.length + k + 1) →
    bracketLoop c (pre ++ p) ec sig i =
      if it.test c then .ok sig else bracketLoop c (pre ++ p) ec sig (i + k)

section

variable {c : UInt8} {p q : Bytes}

theorem escape_spec (d : UInt8) : SetItemSpec (byte '%' :: d :: p) p (.cls d) 2 where
  drop_eq := rfl
  one_le := by omega
  le_length := by simp
  eq_one h := absurd (Option.some.inj h) (by decide)
  setEnd_eq o := by
    rw [setEnd, if_pos ⟨rfl, by simp⟩, List.tail_cons]
    by_cases hq : p.head? = some (byte ']')
    · rw [if_neg (by simp [hq]), if_pos hq]
    · rw [if_pos hq, if_neg hq]
  loop_eq ch pre i ec sig hpre _ hle _ := by
    have hx : idx (pre ++ byte '%' :: d :: p) (i + 1) = .ok (byte '%') := idx_append hpre 0
    have hd : idx (pre ++ byte '%' :: d :: p) (i + 2) = .ok d := idx_append hpre 1
    rw [bracketLoop, if_neg (by omega), hx, Rust.ok_bind, if_pos rfl, hd, Rust.ok_bind, matchClass_eq]
    rfl

theorem range_spec {hi : UInt8} (hc : c ≠ byte '%') (h1 : hi ≠ byte ']') (h2 : hi ≠ byte '%') :
    SetItemSpec (c :: byte '-' :: hi :: q) q (.range c hi) 3 where
  drop_eq := rfl
  one_le := by omega
  le_length := by simp
  eq_one _ h := absurd (Option.some.inj h) (by decide)
  setEnd_eq o := by
    have hdash : ¬(byte '-' = byte '%' ∧ hi :: q ≠ []) := by
      rintro ⟨h, -⟩
      exact absurd h (by decide)
    have hopen : (byte '-' :: hi :: q).head? ≠ some (byte ']') := fun h => absurd (Option.some.inj h) (by decide)
    rw [setEnd, if_neg (fun h => hc h.1), if_pos hopen, setEnd, if_neg hdash,
      if_pos (by simpa using h1), setEnd, if_neg (fun h => h2 h.1)]
    by_cases hq : q.head? = some (byte ']')
    · rw [if_neg (by simp [hq]), if_pos hq]
    · rw [if_pos hq, if_neg hq]
  loop_eq ch pre i ec sig hpre _ hle _ := by
    have hx : idx (pre ++ c :: byte '-' :: hi :: q) (i + 1) = .ok c := idx_append hpre 0
    have hy : idx (pre ++ c :: byte '-' :: hi :: q) (i + 2) = .ok (byte '-') := idx_append hpre 1
    have hz : idx (pre ++ c :: byte '-' :: hi :: q) (i + 3) = .ok hi := idx_append hpre 2
    rw [bracketLoop, if_neg (by omega), hx, Rust.ok_bind, if_neg hc, hy, Rust.ok_bind,
      if_pos ⟨rfl, by omega⟩, hz, Rust.ok_bind]
    simp [SetItem.test]

theorem one_spec (hc : c ≠ byte '%') (hp : p.head? = some (byte '-') → p.tail ≠ [] → p.tail.head? = some (byte ']')) :
    SetItemSpec (c :: p) p (.one c) 1 where
  drop_eq := rfl
  one_le := le_refl _
  le_length := by simp
  eq_one _ _ := rfl
  setEnd_eq o := by
    rw [setEnd, if_neg (fun h => hc h.1)]
    by_cases hq : p.head? = some (byte ']')
    · rw [if_neg (by simp [hq]), if_pos hq]
    · rw [if_pos hq, if_neg hq]
  loop_eq ch pre i ec sig hpre hlt hle hclose := by
    rcases p with _ | ⟨d, p⟩
    · simp only [List.length_cons, List.length_nil] at hlt
      omega
    have hx : idx (pre ++ c :: d :: p) (i + 1) = .ok c := idx_append hpre 0
    have hy : idx (pre ++ c :: d :: p) (i + 2) = .ok d := idx_append hpre 1
    have hlit : ¬(d = byte '-' ∧ i + 3 < ec) := by
      rintro ⟨rfl, h3⟩
      rcases p with _ | ⟨hi, p⟩
      · simp only [List.length_cons, List.length_nil] at hlt
        omega
      · have := hclose rfl (hp rfl (List.cons_ne_nil _ _))
        omega
    rw [bracketLoop, if_neg (by omega), hx, Rust.ok_bind, if_neg hc, hy, Rust.ok_bind, if_neg hlit]
    simp [SetItem.test]

theorem parseSetItem_spec {it : SetItem} (h : parseSetItem p = some (it, q)) : ∃ k, SetItemSpec p q it k := by
  rcases p with _ | ⟨c, p⟩
  · cases h
  simp only [parseSetItem] at h
  by_cases hc : c = byte '%'
  · subst hc
    rw [if_pos rfl] at h
    rcases p with _ | ⟨d, p⟩
    · cases h
    dsimp only at h
    split_ifs at h
    cases h
    exact ⟨2, escape_spec d⟩
  rw [if_neg hc] at h
  rcases p with _ | ⟨d, _ | ⟨hi, p⟩⟩
  · cases h
    exact ⟨1, one_spec hc (by simp)⟩
  · cases h
    exact ⟨1, one_spec hc (by simp)⟩
  · dsimp only at h
    split_ifs at h with hrange hesc
    · cases h
      obtain ⟨rfl, h1⟩ := hrange
      exact ⟨3, range_spec hc h1 hesc⟩
    · cases h
      refine ⟨1, one_spec hc fun hd _ => ?_⟩
      by_contra hhi
      exact hrange ⟨Option.some.inj hd, fun heq => hhi (by rw [heq]; rfl)⟩

end

/-- A set as the source reads it, `k` bytes before its closing bracket: `classend` finds the bracket, and
`matchbracketclass` tests for the items. -/
structure SetSpec (p rest : Bytes) (items : List SetItem) (k : Nat) : Prop where
  drop_eq : p.drop (k + 1) = rest
  lt_length : k < p.length
  eq_one : p.head? = some (byte '-') → p.tail.head? = some (byte ']') → k = 1
  setEnd_eq (o : Nat) : setEnd o p = .ok (o + k + 1)
  loop_eq (c : UInt8) (pre : Bytes) (i : Nat) (sig : Bool) : pre.length = i + 1 →
    bracketLoop c (pre ++ p) (pre.length + k) sig i = .ok (if items.any (·.test c) then sig else !sig)

section

variable {p q rest : Bytes} {it : SetItem} {items : List SetItem} {k : Nat}

theorem SetSpec.last (h : SetItemSpec p q it k) (hq : q.head? = some (byte ']')) : SetSpec p q.tail [it] k where
  drop_eq := by rw [← h.drop_eq, List.tail_drop]
  lt_length := by
    have hne := List.ne_nil_of_mem (List.mem_of_mem_head? hq)
    rw [← h.drop_eq, ne_eq, List.drop_eq_nil_iff] at hne
    omega
  eq_one := h.eq_one
  setEnd_eq o := by rw [h.setEnd_eq, if_pos hq]
  loop_eq c pre i sig hpre := by
    have hne := List.ne_nil_of_mem (List.mem_of_mem_head? hq)
    rw [← h.drop_eq, ne_eq, List.drop_eq_nil_iff] at hne
    have hend : bracketLoop c (pre ++ p) (pre.length + k) sig (i + k) = .ok !sig := by
      rw [bracketLoop, if_pos (by omega)]
      cases sig <;> rfl
    rw [h.loop_eq c pre i _ sig hpre (by omega) (le_refl _) (fun hd => absurd (hq.symm.trans hd) (by decide)), hend,
      List.any_cons, List.any_nil, Bool.or_false]
    cases it.test c <;> rfl

theorem SetSpec.cons (h : SetItemSpec p q it k) (hq : q.head? ≠ some (byte ']')) {m : Nat}
    (hs : SetSpec q rest items m) : SetSpec p rest (it :: items) (k + m) where
  drop_eq := by rw [← hs.drop_eq, ← h.drop_eq, List.drop_drop, Nat.add_assoc]
  lt_length := by
    have := hs.lt_length
    rw [← h.drop_eq, List.length_drop] at this
    omega
  eq_one hd hb := by
    refine absurd ?_ hq
    rw [← h.drop_eq, h.eq_one hd hb, List.drop_one, hb]
  setEnd_eq o := by rw [h.setEnd_eq, if_neg hq, hs.setEnd_eq, ← Nat.add_assoc o k m]
  loop_eq c pre i sig hpre := by
    have hlt := hs.lt_length
    rw [← h.drop_eq, List.length_drop] at hlt
    have hclose : q.head? = some (byte '-') → q.tail.head? = some (byte ']') →
        pre.length + (k + m) ≤ pre.length + k + 1 := by
      intro hd hb
      rw [hs.eq_one hd hb]
      omega
    have hsplit : pre ++ p = (pre ++ p.take k) ++ q := by
      rw [← h.drop_eq, List.append_assoc, List.take_append_drop]
    have hle := h.le_length
    have hlen : (pre ++ p.take k).length = pre.length + k := by
      rw [List.length_append, List.length_take, Nat.min_eq_left hle]
    rw [h.loop_eq c pre i _ sig hpre (by omega) (by omega) hclose, ← Nat.add_assoc, hsplit, ← hlen,
      hs.loop_eq c _ (i + k) sig (by omega), List.any_cons]
    cases it.test c <;> simp

theorem parseSet_spec {n : Nat} (h : parseSet n p = some (items, rest)) : ∃ k, SetSpec p rest items k := by
  induction n generalizing p items with
  | zero => cases h
  | succ n ih =>
    rw [parseSet] at h
    cases hit : parseSetItem p with
    | none => rw [hit] at h; cases h
    | some r =>
      obtain ⟨it, q⟩ := r
      obtain ⟨k, hspec⟩ := parseSetItem_spec hit
      rw [hit] at h
      dsimp only at h
      split_ifs at h with hq
      · cases h
        exact ⟨k, .last hspec hq⟩
      · obtain ⟨⟨items, rest⟩, hset, hr⟩ := Option.map_eq_some_iff.mp h
        cases hr
        obtain ⟨m, hs⟩ := ih hset
        exact ⟨k + m, .cons hspec hq hs⟩

end

/-- A set at the start of `p`, with its brackets, as the source reads it. -/
theorem parseBracket_spec {p rest : Bytes} {neg : Bool} {items : List SetItem}
    (h : parseBracket p = some (neg, items, rest)) :
    ∃ k, classend (byte '[' :: p) = .ok k ∧ (byte '[' :: p).drop k = rest ∧ k ≤ p.length + 1 ∧
      ∀ c, matchbracketclass c (byte '[' :: p) (k - 1) = .ok (setMember neg items c) := by
  have hne : byte '[' ≠ byte '%' := by decide
  rw [parseBracket] at h
  split_ifs at h with hneg
  · obtain ⟨r, hset, hr⟩ := Option.map_eq_some_iff.mp h
    cases hr
    obtain ⟨k, hs⟩ := parseSet_spec hset
    obtain ⟨p, rfl⟩ : ∃ q, p = byte '^' :: q := by
      rcases p with _ | ⟨c, p⟩
      · cases hneg
      · exact ⟨p, by rw [Option.some.inj hneg]⟩
    refine ⟨2 + k + 1, ?_, ?_, ?_, fun c => ?_⟩
    · rw [classend, if_neg hne, if_pos rfl, if_pos hneg, hs.setEnd_eq]
    · rw [← hs.drop_eq, Nat.add_assoc, Nat.add_comm 2]
      rfl
    · have := hs.lt_length
      simp only [List.tail_cons, List.length_cons] at this ⊢
      omega
    · have hloop := hs.loop_eq c [byte '[', byte '^'] 1 false rfl
      have hx : idx (byte '[' :: byte '^' :: p) 1 = .ok (byte '^') := rfl
      rw [matchbracketclass, hx, Rust.ok_bind, if_pos rfl]
      refine hloop.trans ?_
      rw [setMember]
      cases items.any (·.test c) <;> rfl
  · obtain ⟨r, hset, hr⟩ := Option.map_eq_some_iff.mp h
    cases hr
    obtain ⟨k, hs⟩ := parseSet_spec hset
    refine ⟨1 + k + 1, ?_, ?_, ?_, fun c => ?_⟩
    · rw [classend, if_neg hne, if_pos rfl, if_neg hneg, hs.setEnd_eq]
    · rw [← hs.drop_eq, Nat.add_assoc, Nat.add_comm 1]
      rfl
    · have := hs.lt_length
      omega
    · have hloop := hs.loop_eq c [byte '['] 0 true rfl
      obtain ⟨x, p, rfl⟩ := List.exists_cons_of_length_pos (Nat.zero_lt_of_lt hs.lt_length)
      have hx : idx (byte '[' :: x :: p) 1 = .ok x := rfl
      have hne' : x ≠ byte '^' := fun h => hneg (by rw [h]; rfl)
      rw [matchbracketclass, hx, Rust.ok_bind, if_neg hne']
      refine hloop.trans ?_
      rw [setMember]
      cases items.any (·.test c) <;> rfl

/-! ## Single-character items -/

/-- The item at the start of `p`, of length `k`, as the source reads it. -/
structure SingleSpec (p : Bytes) (s : Single) (k : Nat) : Prop where
  classend_eq : classend p = .ok k
  le_length : k ≤ p.length
  test_eq (c : UInt8) : itemTest p k c = s.test c

section

variable {p : Bytes}

theorem anySpec : SingleSpec (byte '.' :: p) .any 1 := ⟨rfl, by simp, fun _ => rfl⟩

theorem litSpec {c : UInt8} (h1 : c ≠ byte '.') (h2 : c ≠ byte '%') (h3 : c ≠ byte '[') :
    SingleSpec (c :: p) (.lit c) 1 where
  classend_eq := by rw [classend, if_neg h2, if_neg h3]
  le_length := by simp
  test_eq x := by
    have hidx : idx (c :: p) 0 = .ok c := rfl
    simp only [itemTest, singlematch, List.getElem?_cons_zero, List.head?_cons, Option.some.injEq, h1, h2, h3,
      if_false, hidx, Except.map, Single.test]
    by_cases hx : c = x <;> simp [hx]

theorem clsSpec {c : UInt8} : SingleSpec (byte '%' :: c :: p) (.cls c) 2 where
  classend_eq := by rw [classend, if_pos rfl, if_neg (List.cons_ne_nil _ _)]
  le_length := by simp
  test_eq x := by
    have hne : byte '%' ≠ byte '.' := by decide
    have hidx : idx (byte '%' :: c :: p) 1 = .ok c := rfl
    simp only [itemTest, singlematch, List.getElem?_cons_zero, List.head?_cons, Option.some.injEq, hne, if_false,
      if_true, hidx, Except.map, Single.test, matchClass_eq]
    cases escapeTest c x <;> rfl

theorem setSpec {rest : Bytes} {neg : Bool} {items : List SetItem} (h : parseBracket p = some (neg, items, rest)) :
    ∃ k, SingleSpec (byte '[' :: p) (.set neg items) k ∧ (byte '[' :: p).drop k = rest := by
  obtain ⟨k, hend, hdrop, hle, htest⟩ := parseBracket_spec h
  refine ⟨k, ⟨hend, by rwa [List.length_cons], fun c => ?_⟩, hdrop⟩
  have h1 : byte '[' ≠ byte '.' := by decide
  have h2 : byte '[' ≠ byte '%' := by decide
  simp only [itemTest, singlematch, List.getElem?_cons_zero, List.head?_cons, Option.some.injEq, h1, h2, if_false,
    if_true, htest, Single.test]
  cases setMember neg items c <;> rfl

end

end Tsuki.Str.Pattern
