import Tsuki.Lex.Numeral

/-!
# The form of an integer numeral

A numeral stands between white space, behind a sign. The digits are read off by the loops of `l_str2int`
exactly where the text has this form.
-/

namespace Tsuki.Lex

/-- The ways to write a sign. -/
def signs (neg : Bool) : List Bytes := if neg then [[45]] else [[], [43]]

/-- A signed number. -/
def signed (neg : Bool) (n : Nat) : Int := if neg then -n else n

/-- `body` with a sign, between white space. -/
def Framed (space : UInt8 → Bool) (neg : Bool) (body s : Bytes) : Prop :=
  ∃ before after, ∃ sign ∈ signs neg, (∀ b ∈ before, space b = true) ∧ (∀ b ∈ after, space b = true) ∧
    s = before ++ (sign ++ (body ++ after))

/-- Not empty, and of such digits only. -/
def Digits (digit : UInt8 → Bool) (ds : Bytes) : Prop := ds ≠ [] ∧ ∀ d ∈ ds, digit d = true

theorem dropWhile_eq_nil {p : UInt8 → Bool} {s : Bytes} : s.dropWhile p = [] ↔ ∀ b ∈ s, p b = true :=
  List.dropWhile_eq_nil_iff

/-- White space before a text that does not begin with white space. -/
theorem dropWhile_append {space : UInt8 → Bool} {before s : Bytes} (h : ∀ b ∈ before, space b = true)
    (hs : ∀ b, s.head? = some b → space b = false) : (before ++ s).dropWhile space = s := by
  rw [List.dropWhile_append_of_pos h]
  cases s with
  | nil => rfl
  | cons b s => rw [List.dropWhile_cons_of_neg (by rw [hs b rfl]; exact Bool.false_ne_true)]

/-- What is left behind the white space is the sign, the body and white space. -/
theorem framed_iff {space : UInt8 → Bool} (hplus : space 43 = false) (hminus : space 45 = false) {b : UInt8}
    (hb : space b = false) (neg : Bool) (t s : Bytes) : Framed space neg (b :: t) s ↔
      ∃ after, ∃ sign ∈ signs neg, (∀ b ∈ after, space b = true) ∧
        s.dropWhile space = sign ++ (b :: t ++ after) := by
  constructor
  · rintro ⟨before, after, sign, hsign, hbefore, hafter, rfl⟩
    refine ⟨after, sign, hsign, hafter, dropWhile_append hbefore ?_⟩
    cases neg <;> simp only [signs, Bool.false_eq_true, if_true, if_false, List.mem_cons, List.not_mem_nil,
      or_false] at hsign
    · rcases hsign with rfl | rfl
      · rintro c ⟨⟩
        exact hb
      · rintro c ⟨⟩
        exact hplus
    · subst hsign
      rintro c ⟨⟩
      exact hminus
  · rintro ⟨after, sign, hsign, hafter, h⟩
    refine ⟨s.takeWhile space, after, sign, hsign, ?_, hafter, ?_⟩
    · exact fun c hc => List.mem_takeWhile_imp hc
    · rw [← h, List.takeWhile_append_dropWhile]

/-! ## `l_str2int` -/

theorem ofInt_signed_congr (neg : Bool) {a b : Nat} (h : a % 2 ^ 64 = b % 2 ^ 64) :
    Int64.ofInt (signed neg a) = Int64.ofInt (signed neg b) := by
  apply ofInt_congr
  cases neg <;> simp only [signed, Bool.false_eq_true, if_true, if_false] <;> omega

theorem finish_value (neg : Bool) {a : Nat} (ha : a ≤ 2 ^ 64) :
    Int64.ofNat (if neg then (2 ^ 64 - a) % 2 ^ 64 else a) = Int64.ofInt (signed neg a) := by
  cases neg with
  | false => rfl
  | true =>
    refine ofInt_congr (a := ((2 ^ 64 - a) % 2 ^ 64 : Nat)) ?_
    rw [signed, if_pos rfl]
    omega

theorem finishInt_eq_some {neg empty : Bool} {a : Nat} {s : Bytes} {v : Int64} (ha : a ≤ 2 ^ 64) :
    finishInt neg (a, empty, s) = some v ↔
      empty = false ∧ (∀ b ∈ s, lisspace b = true) ∧ v = Int64.ofInt (signed neg a) := by
  simp only [finishInt]
  rw [finish_value neg ha]
  cases empty with
  | true => simp
  | false =>
    rw [if_neg Bool.false_ne_true]
    split_ifs with h
    · rw [ne_eq, dropWhile_eq_nil] at h
      simp [h]
    · rw [not_not, dropWhile_eq_nil] at h
      rw [Option.some.injEq]
      exact ⟨fun hv => ⟨rfl, h, hv.symm⟩, fun hv => hv.2.2.symm⟩

theorem hexLoop_append {hs : Bytes} (hhs : ∀ b ∈ hs, lisxdigit b = true) {s : Bytes}
    (hs' : ∀ b, s.head? = some b → lisxdigit b = false) (a n : Nat) (empty : Bool) (hn : n = a % 2 ^ 64) :
    hexLoop n empty (hs ++ s) = (digits 16 hexDigit a hs % 2 ^ 64, empty && hs.isEmpty, s) := by
  induction hs generalizing a n empty with
  | nil =>
    cases s with
    | nil => simp [hexLoop, digits, hn]
    | cons b s => simp [hexLoop, digits, hs' b rfl, hn]
  | cons d hs ih =>
    have hd := hhs d List.mem_cons_self
    have hval : digits 16 hexDigit a (d :: hs) = digits 16 hexDigit (16 * a + hexDigit d) hs := rfl
    rw [List.cons_append, hexLoop, if_pos hd, hval]
    rw [ih (fun b hb => hhs b (List.mem_cons_of_mem _ hb)) (16 * a + hexDigit d)]
    · simp
    · rw [hn, hexavalue_eq hd]
      omega

theorem lisxdigit_of_lisspace {b : UInt8} (h : lisspace b = true) : lisxdigit b = false := by
  simp only [lisspace, Bool.or_eq_true, decide_eq_true_eq] at h
  rcases h with (((rfl | rfl) | rfl) | rfl) | rfl <;> decide

theorem lisdigit_of_lisspace {b : UInt8} (h : lisspace b = true) : lisdigit b = false ∧ b ≠ 120 ∧ b ≠ 88 := by
  simp only [lisspace, Bool.or_eq_true, decide_eq_true_eq] at h
  rcases h with (((rfl | rfl) | rfl) | rfl) | rfl <;> decide

theorem head_dropWhile {p : UInt8 → Bool} {s : Bytes} {b : UInt8} (h : (s.dropWhile p).head? = some b) :
    p b = false := by
  have := List.head?_dropWhile_not p s
  rw [h] at this
  simpa using this

theorem head_space {s : Bytes} (h : ∀ b ∈ s, lisspace b = true) {b : UInt8} (hb : s.head? = some b) :
    lisspace b = true := h b (List.mem_of_head? hb)

theorem hexLoop_eq_some {neg : Bool} {s : Bytes} {v : Int64} : finishInt neg (hexLoop 0 true s) = some v ↔
    ∃ hs after, Digits lisxdigit hs ∧ (∀ b ∈ after, lisspace b = true) ∧ s = hs ++ after ∧
      v = Int64.ofInt (signed neg (digits 16 hexDigit 0 hs)) := by
  have hmod (n : Nat) : n % 2 ^ 64 ≤ 2 ^ 64 := (Nat.mod_lt n (by decide)).le
  constructor
  · intro h
    have hloop := hexLoop_append (fun b => List.mem_takeWhile_imp (l := s)) (s := s.dropWhile lisxdigit)
      (fun b => head_dropWhile) 0 0 true rfl
    rw [List.takeWhile_append_dropWhile] at hloop
    rw [hloop, finishInt_eq_some (hmod _), ofInt_signed_congr neg (Nat.mod_mod ..), Bool.true_and, List.isEmpty_eq_false_iff] at h
    exact ⟨_, _, ⟨h.1, fun b => List.mem_takeWhile_imp⟩, h.2.1, List.takeWhile_append_dropWhile.symm, h.2.2⟩
  · rintro ⟨hs, after, ⟨hne, hhs⟩, hafter, rfl, rfl⟩
    rw [hexLoop_append hhs (fun b hb => lisxdigit_of_lisspace (head_space hafter hb)) 0 0 true rfl,
      finishInt_eq_some (hmod _), ofInt_signed_congr neg (Nat.mod_mod ..)]
    exact ⟨by simpa using hne, hafter, rfl⟩

theorem decLoop_eq_some {neg : Bool} {s : Bytes} {v : Int64} :
    (decLoop neg 0 true s).bind (finishInt neg) = some v ↔
    ∃ ds after, Digits lisdigit ds ∧ (∀ b ∈ after, lisspace b = true) ∧ s = ds ++ after ∧
      digits 10 decDigit 0 ds < 2 ^ 63 + neg.toNat ∧
      v = Int64.ofInt (signed neg (digits 10 decDigit 0 ds)) := by
  have hneg : neg.toNat ≤ 1 := Bool.toNat_le neg
  constructor
  · intro h
    have hloop := decLoop_append neg (fun b => List.mem_takeWhile_imp (l := s)) (s := s.dropWhile lisdigit)
      (fun b => head_dropWhile) 0 true (by omega)
    rw [List.takeWhile_append_dropWhile] at hloop
    rw [hloop] at h
    split_ifs at h with hfit
    · rw [Option.bind_some, finishInt_eq_some (by omega), Bool.true_and, List.isEmpty_eq_false_iff] at h
      exact ⟨_, _, ⟨h.1, fun b => List.mem_takeWhile_imp⟩, h.2.1, List.takeWhile_append_dropWhile.symm, hfit, h.2.2⟩
    · cases h
  · rintro ⟨ds, after, ⟨hne, hds⟩, hafter, rfl, hfit, rfl⟩
    rw [decLoop_append neg hds (fun b hb => (lisdigit_of_lisspace (head_space hafter hb)).1) 0 true (by omega),
      if_pos hfit, Option.bind_some, finishInt_eq_some (by omega)]
    exact ⟨by simpa using hne, hafter, rfl⟩

/-- A hexadecimal numeral without its sign. -/
def HexBody (hs body : Bytes) : Prop := ∃ x, (x = 120 ∨ x = 88) ∧ Digits lisxdigit hs ∧ body = 48 :: x :: hs

theorem strDigits_eq_some {neg : Bool} {s : Bytes} {v : Int64} : strDigits neg s = some v ↔
    (∃ ds after, Digits lisdigit ds ∧ (∀ b ∈ after, lisspace b = true) ∧ s = ds ++ after ∧
      digits 10 decDigit 0 ds < 2 ^ 63 + neg.toNat ∧ v = Int64.ofInt (signed neg (digits 10 decDigit 0 ds))) ∨
    ∃ hs body after, HexBody hs body ∧ (∀ b ∈ after, lisspace b = true) ∧ s = body ++ after ∧
      v = Int64.ofInt (signed neg (digits 16 hexDigit 0 hs)) := by
  constructor
  · intro h
    unfold strDigits at h
    split at h
    · obtain ⟨hs, after, hhs, hafter, rfl, rfl⟩ := hexLoop_eq_some.mp h
      exact .inr ⟨hs, _, after, ⟨120, .inl rfl, hhs, rfl⟩, hafter, rfl, rfl⟩
    · obtain ⟨hs, after, hhs, hafter, rfl, rfl⟩ := hexLoop_eq_some.mp h
      exact .inr ⟨hs, _, after, ⟨88, .inr rfl, hhs, rfl⟩, hafter, rfl, rfl⟩
    · exact .inl (decLoop_eq_some.mp h)
  · rintro (⟨ds, after, hds, hafter, rfl, hv⟩ | ⟨hs, body, after, ⟨x, hx, hhs, rfl⟩, hafter, rfl, hv⟩)
    · rw [strDigits_digits neg hds.1 hds.2 fun b hb => lisdigit_of_lisspace (head_space hafter hb)]
      exact decLoop_eq_some.mpr ⟨ds, after, hds, hafter, rfl, hv⟩
    · have hloop := hexLoop_eq_some.mpr ⟨hs, after, hhs, hafter, rfl, hv⟩
      rcases hx with rfl | rfl <;> exact hloop

theorem head_of_strDigits {neg : Bool} {u : Bytes} {v : Int64} (h : strDigits neg u = some v) :
    ∃ b t, u = b :: t ∧ lisdigit b = true := by
  rcases strDigits_eq_some.mp h with ⟨ds, after, ⟨hne, hds⟩, -, rfl, -⟩ | ⟨hs, body, after, ⟨x, -, -, rfl⟩, -, rfl, -⟩
  · obtain ⟨d, ds, rfl⟩ := List.exists_cons_of_ne_nil hne
    exact ⟨d, ds ++ after, rfl, hds d List.mem_cons_self⟩
  · exact ⟨48, _, rfl, by decide⟩

/-- `l_str2int` reads the sign and the digits behind the white space. -/
theorem lStr2int_eq_strDigits {s : Bytes} {v : Int64} : lStr2int s = some v ↔
    ∃ neg u, ∃ sign ∈ signs neg, s.dropWhile lisspace = sign ++ u ∧ strDigits neg u = some v := by
  constructor
  · intro h
    unfold lStr2int at h
    split at h
    · rename_i heq
      exact ⟨true, _, [45], List.mem_singleton_self _, heq, h⟩
    · rename_i heq
      exact ⟨false, _, [43], by simp [signs], heq, h⟩
    · exact ⟨false, _, [], by simp [signs], rfl, h⟩
  · rintro ⟨neg, u, sign, hsign, hs, h⟩
    obtain ⟨b, t, rfl, hb⟩ := head_of_strDigits h
    unfold lStr2int
    rw [hs]
    cases neg <;> simp only [signs, Bool.false_eq_true, if_true, if_false, List.mem_cons, List.not_mem_nil,
      or_false] at hsign
    · rcases hsign with rfl | rfl
      · rw [List.nil_append]
        split
        · rename_i heq
          rw [(List.cons.inj heq).1] at hb
          cases hb
        · rename_i heq
          rw [(List.cons.inj heq).1] at hb
          cases hb
        · exact h
      · exact h
    · subst hsign
      exact h

/-- `l_str2int` takes the decimal numerals whose value fits, and all hexadecimal ones. -/
theorem lStr2int_eq_some {s : Bytes} {v : Int64} : lStr2int s = some v ↔
    (∃ neg ds, Digits lisdigit ds ∧ Framed lisspace neg ds s ∧ digits 10 decDigit 0 ds < 2 ^ 63 + neg.toNat ∧
      v = Int64.ofInt (signed neg (digits 10 decDigit 0 ds))) ∨
    ∃ neg hs body, HexBody hs body ∧ Framed lisspace neg body s ∧
      v = Int64.ofInt (signed neg (digits 16 hexDigit 0 hs)) := by
  rw [lStr2int_eq_strDigits]
  constructor
  · rintro ⟨neg, u, sign, hsign, hs, h⟩
    rcases strDigits_eq_some.mp h with ⟨ds, after, hds, hafter, rfl, hv⟩ | ⟨hs', body, after, hbody, hafter, rfl, hv⟩
    · obtain ⟨d, ds, rfl⟩ := List.exists_cons_of_ne_nil hds.1
      have hd := lisspace_of_digit (hds.2 d List.mem_cons_self)
      exact .inl ⟨neg, _, hds, (framed_iff rfl rfl hd neg ds s).mpr ⟨after, sign, hsign, hafter, hs⟩, hv⟩
    · refine .inr ⟨neg, hs', body, hbody, ?_, hv⟩
      obtain ⟨x, -, -, rfl⟩ := hbody
      exact (framed_iff rfl rfl rfl neg _ s).mpr ⟨after, sign, hsign, hafter, hs⟩
  · rintro (⟨neg, ds, hds, hframed, hv⟩ | ⟨neg, hs, body, hbody, hframed, hv⟩)
    · obtain ⟨d, ds, rfl⟩ := List.exists_cons_of_ne_nil hds.1
      have hd := lisspace_of_digit (hds.2 d List.mem_cons_self)
      obtain ⟨after, sign, hsign, hafter, hs⟩ := (framed_iff rfl rfl hd neg ds s).mp hframed
      exact ⟨neg, _, sign, hsign, hs, strDigits_eq_some.mpr (.inl ⟨_, after, hds, hafter, rfl, hv⟩)⟩
    · obtain ⟨x, hx, hhs, rfl⟩ := hbody
      obtain ⟨after, sign, hsign, hafter, hs'⟩ := (framed_iff rfl rfl rfl neg _ s).mp hframed
      exact ⟨neg, _, sign, hsign, hs', strDigits_eq_some.mpr
        (.inr ⟨hs, _, after, ⟨x, hx, hhs, rfl⟩, hafter, rfl, hv⟩)⟩

end Tsuki.Lex
