import Tsuki.Str.Format

/-!
# Where `string.format` panics

The scanner counts characters, and all of them but the specifier are ASCII. Only the slice for the error message can
panic, where the specifier is longer than a byte. The conversions before it are safe whatever their arguments are. So
a run panics exactly if the first specification that cannot be scanned is reached with values for all those before it;
`Trips` is that condition, and the induction follows the format.
-/

namespace Tsuki.Format

/-- The slice of a conversion ends at a character unless the specifier is not ASCII. -/
theorem sliceTo_scanned {iter rest : List Char} {s : Spec} (h : Scanned iter s rest) :
    (IsAscii s.ch → ∃ fmt, sliceTo iter s.len = .ok fmt) ∧ (¬IsAscii s.ch → sliceTo iter s.len = .error .panic) := by
  obtain ⟨mods, rfl, hlen, hmods⟩ := h
  rw [hlen]
  clear hlen
  induction mods with
  | nil =>
    rw [List.nil_append, List.length_nil, sliceTo]
    constructor
    · intro hch
      rw [if_pos (le_of_eq hch), show 0 + 1 - s.ch.utf8Size = 0 by rw [hch], sliceTo]
      exact ⟨_, rfl⟩
    · intro hch
      have hpos := s.ch.utf8Size_pos
      rw [IsAscii] at hch
      rw [if_neg (by omega)]
  | cons m mods ih =>
    have hm : m.utf8Size = 1 := hmods m List.mem_cons_self
    obtain ⟨hok, hpanic⟩ := ih fun c hc => hmods c (List.mem_cons_of_mem _ hc)
    rw [List.cons_append, List.length_cons, sliceTo, hm, if_pos (by omega), Nat.add_sub_cancel]
    constructor
    · intro hch
      obtain ⟨fmt, hfmt⟩ := hok hch
      exact ⟨m :: fmt, by rw [hfmt]; rfl⟩
    · intro hch
      rw [hpanic hch]
      rfl

theorem liftArg_safe {α : Type} (n : Nat) (r : Except String α) : Safe (fun _ => True) (liftArg n r) := by
  cases r with
  | ok a => trivial
  | error e => exact nofun

theorem convertOctal_safe (s : Spec) (n : UInt64) : Safe (fun _ => True) (convertOctal s n) := by
  have hradix : radix 8 false n ≠ [] := (Base.writeNat_spec (by decide) (by decide) false n.toNat).1.1
  have hpad (w : Nat) : padZero w (radix 8 false n) ≠ [] := fun h => hradix (List.append_eq_nil_iff.mp h).2
  unfold convertOctal
  by_cases halt : s.alt = true
  · have hne : (if s.precision = some 0 ∧ n = 0 ∧ s.alt then [48] else convertDigits s n (radix 8 false n)) ≠ [] := by
      split_ifs with h
      · exact List.cons_ne_nil _ _
      · unfold convertDigits
        split
        · rename_i p hp
          rw [if_neg fun hzero => h ⟨by rw [hp, hzero.1], hzero.2, halt⟩]
          exact hpad p
        · exact hpad _
    obtain ⟨b, t, hbuf⟩ := List.exists_cons_of_ne_nil hne
    simp only [hbuf, if_pos halt]
    change Safe _ (if b ≠ 48 then _ else _)
    split_ifs <;> trivial
  · rw [if_neg halt]
    trivial

theorem formatQ_safe (display : F64 → Bytes) (n : Nat) (v : Str.Value) :
    Safe (fun _ => True) (Str.formatQ display n v) := by
  unfold Str.formatQ
  cases v with
  | str s =>
    dsimp only
    split_ifs
    · trivial
    · exact nofun
  | int i => dsimp only; split_ifs <;> trivial
  | float f => dsimp only; split_ifs <;> trivial

theorem convertQ_safe (ff : FloatFmt) (n : Nat) (s : Spec) (arg : Arg) :
    Safe (fun _ => True) (convertQ ff n s arg) := by
  unfold convertQ
  split_ifs
  · exact nofun
  · cases arg.literal with
    | value v => exact formatQ_safe _ n v
    | display => exact liftArg_safe n arg.display
    | none => exact nofun

theorem convertStr_safe (n : Nat) (s : Spec) (arg : Arg) : Safe (fun _ => True) (convertStr n s arg) := by
  refine (liftArg_safe n arg.display).bind fun v _ => ?_
  split_ifs
  · trivial
  · exact nofun
  · cases s.precision <;> trivial

theorem convert_safe (ff : FloatFmt) (n : Nat) (s : Spec) (fmt : List Char) (arg : Arg) :
    Safe (fun _ => True) (convert ff n s fmt arg) := by
  have hint {β : Type} (f : Int64 → β) : Safe (fun _ => True) ((liftArg n arg.toInt).map f) :=
    (liftArg_safe n arg.toInt).map fun _ _ => trivial
  unfold convert
  split_ifs
  · exact hint _
  · exact hint _
  · exact hint _
  · exact (liftArg_safe n arg.toInt).bind fun i _ => convertOctal_safe s i.toUInt64
  · exact hint _
  · exact hint _
  · exact (liftArg_safe n arg.toFloat).map fun _ _ => trivial
  · trivial
  · exact convertQ_safe ff n s arg
  · exact convertStr_safe n s arg
  · exact nofun

/-- A conversion panics where its specifier is not ASCII. -/
theorem convertOne_panics_iff (ff : FloatFmt) (n : Nat) {iter rest : List Char} {s : Spec} (h : Scanned iter s rest)
    (arg : Arg) : convertOne ff n iter s arg = .error .panic ↔ ¬IsAscii s.ch := by
  obtain ⟨hok, hpanic⟩ := sliceTo_scanned h
  constructor
  · intro hone hch
    obtain ⟨fmt, hfmt⟩ := hok hch
    have hsafe := convert_safe ff n s fmt arg
    rw [convertOne, hfmt, Rust.ok_bind] at hone
    cases hconv : convert ff n s fmt arg with
    | ok buf => rw [hconv] at hone; cases hone
    | error e =>
      rw [hconv] at hone hsafe
      exact hsafe (Except.error.inj hone)
  · intro hch
    rw [convertOne, hpanic hch]
    rfl

/-- The loop gets to a percent sign, with `iter` behind it and the arguments `rest` left: all conversions before it
succeed. -/
inductive Reaches (ff : FloatFmt) : Nat → List Arg → List Char → List Arg → List Char → Prop
  | here (n : Nat) (args : List Arg) (iter : List Char) : Reaches ff n args ('%' :: iter) args iter
  | char {n : Nat} {args left : List Arg} {ch : Char} {fmt iter : List Char} :
      ch ≠ '%' → Reaches ff n args fmt left iter → Reaches ff n args (ch :: fmt) left iter
  | percent {n : Nat} {args left : List Arg} {fmt rest iter : List Char} :
      scan fmt = .ok (none, rest) → Reaches ff n args rest left iter → Reaches ff n args ('%' :: fmt) left iter
  | conversion {n : Nat} {arg : Arg} {args left : List Arg} {fmt rest iter : List Char} {s : Spec} {buf : Bytes} :
      scan fmt = .ok (some s, rest) → convertOne ff (n + 1) fmt s arg = .ok buf →
      Reaches ff (n + 1) args rest left iter → Reaches ff n (arg :: args) ('%' :: fmt) left iter

/-- A conversion that is reached with an argument left, and whose specifier is not ASCII. -/
def Trips (ff : FloatFmt) (n : Nat) (args : List Arg) (fmt : List Char) : Prop :=
  ∃ arg left iter s rest, Reaches ff n args fmt (arg :: left) iter ∧ scan iter = .ok (some s, rest) ∧ ¬IsAscii s.ch

theorem scan_ne_panic (iter : List Char) : scan iter ≠ .error .panic := by
  have h := scan_safe iter
  intro hpanic
  rw [hpanic] at h
  exact h rfl

theorem scanned_of_scan {iter rest : List Char} {s : Spec} (h : scan iter = .ok (some s, rest)) :
    Scanned iter s rest := by
  have hsafe := scan_safe iter
  rw [h] at hsafe
  exact hsafe.2 s rfl

theorem trips_char {ff : FloatFmt} {n : Nat} {args : List Arg} {ch : Char} (hch : ch ≠ '%') (fmt : List Char) :
    Trips ff n args (ch :: fmt) ↔ Trips ff n args fmt := by
  constructor
  · rintro ⟨arg, left, iter, s, rest, hreach, htrip⟩
    cases hreach with
    | here => exact absurd rfl hch
    | char _ hreach => exact ⟨arg, left, iter, s, rest, hreach, htrip⟩
    | percent => exact absurd rfl hch
    | conversion => exact absurd rfl hch
  · rintro ⟨arg, left, iter, s, rest, hreach, htrip⟩
    exact ⟨arg, left, iter, s, rest, .char hch hreach, htrip⟩

theorem not_trips_error {ff : FloatFmt} {n : Nat} {args : List Arg} {fmt : List Char} {e : Fault}
    (h : scan fmt = .error e) : ¬Trips ff n args ('%' :: fmt) := by
  rintro ⟨arg, left, iter, s, rest, hreach, hscan, -⟩
  cases hreach with
  | here => rw [h] at hscan; cases hscan
  | char hne => exact hne rfl
  | percent hpercent => rw [h] at hpercent; cases hpercent
  | conversion hconv => rw [h] at hconv; cases hconv

theorem trips_percent {ff : FloatFmt} {n : Nat} {args : List Arg} {fmt rest : List Char}
    (h : scan fmt = .ok (none, rest)) : Trips ff n args ('%' :: fmt) ↔ Trips ff n args rest := by
  constructor
  · rintro ⟨arg, left, iter, s, rest', hreach, hscan, hch⟩
    cases hreach with
    | here => rw [h] at hscan; cases hscan
    | char hne => exact absurd rfl hne
    | percent hpercent hreach =>
      rw [h] at hpercent
      cases hpercent
      exact ⟨arg, left, iter, s, rest', hreach, hscan, hch⟩
    | conversion hconv => rw [h] at hconv; cases hconv
  · rintro ⟨arg, left, iter, s, rest', hreach, htrip⟩
    exact ⟨arg, left, iter, s, rest', .percent h hreach, htrip⟩

theorem not_trips_no_value {ff : FloatFmt} {n : Nat} {fmt rest : List Char} {s : Spec}
    (h : scan fmt = .ok (some s, rest)) : ¬Trips ff n [] ('%' :: fmt) := by
  rintro ⟨arg, left, iter, s, rest, hreach, -⟩
  cases hreach with
  | char hne => exact hne rfl
  | percent hpercent => rw [h] at hpercent; cases hpercent

/-- A conversion trips itself, or it succeeds and a later one trips. -/
theorem trips_conversion {ff : FloatFmt} {n : Nat} {arg : Arg} {args : List Arg} {fmt rest : List Char} {s : Spec}
    (h : scan fmt = .ok (some s, rest)) : Trips ff n (arg :: args) ('%' :: fmt) ↔
      ¬IsAscii s.ch ∨ ∃ buf, convertOne ff (n + 1) fmt s arg = .ok buf ∧ Trips ff (n + 1) args rest := by
  constructor
  · rintro ⟨arg', left, iter, s', rest', hreach, hscan, hch⟩
    cases hreach with
    | here =>
      rw [h] at hscan
      cases hscan
      exact .inl hch
    | char hne => exact absurd rfl hne
    | percent hpercent => rw [h] at hpercent; cases hpercent
    | conversion hconv hbuf hreach =>
      rw [h] at hconv
      cases hconv
      exact .inr ⟨_, hbuf, arg', left, iter, s', rest', hreach, hscan, hch⟩
  · rintro (hch | ⟨buf, hbuf, arg', left, iter, s', rest', hreach, htrip⟩)
    · exact ⟨arg, args, fmt, s, rest, .here n _ fmt, h, hch⟩
    · exact ⟨arg', left, iter, s', rest', .conversion h hbuf hreach, htrip⟩

theorem formatLoop_panics_iff (ff : FloatFmt) (n : Nat) (res : Bytes) (args : List Arg) (fmt : List Char) :
    formatLoop ff n res args fmt = .error .panic ↔ Trips ff n args fmt := by
  fun_induction formatLoop ff n res args fmt with
  | case1 n res args =>
    refine ⟨nofun, ?_⟩
    rintro ⟨_, _, _, _, _, hreach, -⟩
    cases hreach
  | case2 n res args ch iter hch ih => exact ih.trans (trips_char hch iter).symm
  | case3 n res args ch iter hch e hscan =>
    obtain rfl : ch = '%' := not_not.mp hch
    have he : e ≠ .panic := fun he => scan_ne_panic iter (he ▸ hscan)
    exact ⟨fun h => absurd (Except.error.inj h) he, fun h => absurd h (not_trips_error hscan)⟩
  | case4 n res args ch iter hch rest hscan ih =>
    obtain rfl : ch = '%' := not_not.mp hch
    exact ih.trans (trips_percent hscan).symm
  | case5 n res ch iter hch s rest hscan =>
    obtain rfl : ch = '%' := not_not.mp hch
    exact ⟨nofun, fun h => absurd h (not_trips_no_value hscan)⟩
  | case6 n res ch iter hch s rest hscan arg args ih =>
    obtain rfl : ch = '%' := not_not.mp hch
    have hone := convertOne_panics_iff ff (n + 1) (scanned_of_scan hscan) arg
    rw [trips_conversion hscan]
    cases hconv : convertOne ff (n + 1) iter s arg with
    | ok buf =>
      rw [Rust.ok_bind, ih buf]
      rw [hconv] at hone
      constructor
      · exact fun h => .inr ⟨buf, rfl, h⟩
      · rintro (hch | ⟨buf', -, h⟩)
        · cases hone.mpr hch
        · exact h
    | error e =>
      rw [hconv] at hone
      rw [Rust.error_bind, hone]
      refine ⟨.inl, ?_⟩
      rintro (h | ⟨buf, hbuf, -⟩)
      · exact h
      · cases hbuf

/-- `format` ends in a value or an error exactly if no conversion is reached, with an argument left for it, whose
specifier is not ASCII. -/
theorem format_safe_iff (ff : FloatFmt) (fmt : String) (args : List Arg) :
    format ff fmt args ≠ .error .panic ↔ ∀ arg left iter s rest,
      Reaches ff 1 args fmt.toList (arg :: left) iter → scan iter = .ok (some s, rest) → IsAscii s.ch := by
  rw [ne_eq, format, formatLoop_panics_iff, Trips]
  simp only [not_exists, not_and, not_not]

/-- `string.format("%é", 1)`. -/
theorem format_panics : format ⟨fun _ _ _ _ => [], fun _ => []⟩ "%é" [⟨.ok 1, .error "", .error "", none, .none⟩] =
    .error .panic := by
  have hscan : scan ['é'] = .ok (some ⟨.new, none, none, 'é', 1⟩, []) := by decide
  refine (formatLoop_panics_iff _ _ _ _ _).mpr ⟨_, [], ['é'], _, [], .here 1 _ _, hscan, ?_⟩
  rw [IsAscii]
  decide

end Tsuki.Format
