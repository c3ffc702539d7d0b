import Tsuki.Str.FindSafe
import Tsuki.Str.PackRoundTrip

/-!
# Where `string.unpack` leaves its data

Every option that reads is checked against the data; padding is not. The position may get past the end of the data,
and is returned if only padding follows. An option that reads leaves the position inside the data, so only padding
goes past its end. The loop is followed to its end from the last point inside the data, and a panic is a position that
is too large for a `usize`.
-/

namespace Tsuki.Str

/-! ## Options -/

/-- The options that read nothing. -/
def Pack.isPad : Pack → Bool
  | .padding _ | .padAlign | .nop => true
  | _ => false

/-- The size of an option that the format gives. -/
def Pack.extent : Pack → Nat
  | .signed v | .unsigned v | .char v | .padding v => v
  | .float => 4
  | .double | .number => 8
  | .str v => v.getD 0
  | .padAlign | .nop => 0

theorem getnumLoop_le {a : Nat} (ha : a ≤ 2147483647) (fmt : List Char) : (getnumLoop a fmt).1 ≤ 2147483647 := by
  induction fmt generalizing a with
  | nil => exact ha
  | cons c fmt ih =>
    rw [getnumLoop]
    split_ifs with h
    · have hdigit : c.toNat ≤ 57 := by
        have := h.1
        simp only [Char.isDigit, Bool.and_eq_true, decide_eq_true_eq, UInt32.le_iff_toNat_le] at this
        exact this.2
      have hzero : '0'.toNat = 48 := rfl
      exact ih (by omega)
    · exact ha

theorem getnum_le {fmt rest : List Char} {v : Nat} (h : getnum fmt = (some v, rest)) : v ≤ 2147483647 := by
  cases fmt with
  | nil => cases h
  | cons c fmt =>
    rw [getnum] at h
    split_ifs at h with hdigit
    · have hle : c.toNat ≤ 57 := by
        simp only [Char.isDigit, Bool.and_eq_true, decide_eq_true_eq, UInt32.le_iff_toNat_le] at hdigit
        exact hdigit.2
      have hzero : '0'.toNat = 48 := rfl
      obtain ⟨hv, -⟩ := Prod.mk.inj h
      rw [← Option.some.inj hv]
      exact getnumLoop_le (by omega) fmt
    · cases h

theorem getoption_char {tgt : Target} {h h' : Header} {c : Char} {fmt rest : List Char} {v : Nat}
    (hok : getoption tgt h c fmt = .ok (.char v, h', rest)) : v ≤ 2147483647 := by
  unfold getoption at hok
  split at hok
  case h_13 | h_14 | h_15 | h_24 =>
    exfalso
    generalize getnumlimit fmt _ = r at hok
    cases r <;> cases hok
  case h_16 =>
    split at hok
    · rename_i hnum
      cases hok
      exact getnum_le hnum
    · cases hok
  all_goals cases hok

theorem getoption_ne_panic (tgt : Target) (h : Header) (c : Char) (fmt : List Char) :
    getoption tgt h c fmt ≠ .error .panic := by
  have hlimit (df : Nat) : getnumlimit fmt df ≠ .error .panic := by
    unfold getnumlimit
    dsimp only
    split_ifs <;> exact nofun
  have hmap {β : Type} (df : Nat) (f : Nat × List Char → β) : (getnumlimit fmt df).map f ≠ .error .panic := by
    intro heq
    cases hl : getnumlimit fmt df with
    | ok p => rw [hl] at heq; cases heq
    | error e =>
      rw [hl] at heq
      exact hlimit df (hl.trans (congrArg Except.error (Except.error.inj heq)))
  unfold getoption
  split
  case h_16 => split <;> exact nofun
  all_goals first | exact hmap _ _ | exact nofun

/-- Padding is no larger than the alignment, and there is none in front of `c`. -/
theorem ntoalignOf_le {h : Header} {opt : Pack} {align total n : Nat} (hn : ntoalignOf h opt align total = .ok n) :
    n ≤ align ∧ ∀ v, opt = .char v → n = 0 := by
  unfold ntoalignOf at hn
  split_ifs at hn with hsmall hbig
  · cases hn
    exact ⟨Nat.zero_le _, fun _ _ => rfl⟩
  all_goals
    refine ⟨?_, fun v hv => absurd (.inr (by rw [hv])) hsmall⟩
    dsimp only at hn
    split_ifs at hn
    rw [← Except.ok.inj hn]
    exact Nat.le_trans Nat.and_le_right (by omega)

theorem alignOf_le {tgt : Target} {h h' : Header} {c : Char} {opt : Pack} {fmt rest : List Char} {align : Nat}
    (hc : opt.Ok c) (hok : alignOf tgt h opt fmt = .ok (align, h', rest)) : align ≤ 16 ∨ ∃ v, opt = .char v := by
  have hsize {o : Pack} {d : Char} (ho : o.Ok d) : o.align ≤ 16 ∨ ∃ v, o = .char v := by
    cases o with
    | char v => exact .inr ⟨v, rfl⟩
    | str v =>
      cases v with
      | some v => exact .inl ho.2.1
      | none => exact .inl (Nat.zero_le _)
    | signed v | unsigned v => exact .inl ho.2
    | padding v => exact .inl (Nat.le_trans (Nat.le_of_eq ho) (by decide))
    | float | double | number | padAlign | nop => exact .inl (by decide)
  unfold alignOf at hok
  split at hok
  · cases hok
  · obtain ⟨⟨next, h₁, fmt₁⟩, hnext, hok⟩ := Rust.bind_eq_ok.mp hok
    dsimp only at hok
    split at hok
    · rename_i v hv
      cases hok
      have hn := (getoption_spec hnext).1
      refine .inl ?_
      cases next with
      | char v => cases hv
      | padAlign | nop => cases hv
      | str v =>
        cases v with
        | some v =>
          rw [Pack.alignOfNext] at hv
          split_ifs at hv
          cases hv
          exact hn.2.1
        | none => cases hv
      | signed v | unsigned v =>
        rw [Pack.alignOfNext] at hv
        split_ifs at hv
        cases hv
        exact hn.2
      | padding v =>
        rw [Pack.alignOfNext] at hv
        split_ifs at hv
        cases hv
        exact Nat.le_trans (Nat.le_of_eq hn) (by decide)
      | float | double | number =>
        cases hv
        decide
    · cases hok
  · cases hok
    exact hsize hc

theorem alignOf_ne_panic (tgt : Target) (h : Header) (opt : Pack) (fmt : List Char) :
    alignOf tgt h opt fmt ≠ .error .panic := by
  unfold alignOf
  split
  · exact nofun
  · rename_i c fmt
    cases hnext : getoption tgt h c fmt with
    | error e =>
      exact fun hpanic => getoption_ne_panic tgt h c fmt (hnext.trans (congrArg Except.error (Except.error.inj hpanic)))
    | ok p =>
      rw [Rust.ok_bind]
      dsimp only
      split <;> exact nofun
  · exact nofun

theorem ntoalignOf_ne_panic (h : Header) (opt : Pack) (align total : Nat) :
    ntoalignOf h opt align total ≠ .error .panic := by
  unfold ntoalignOf
  dsimp only
  split_ifs <;> exact nofun

/-- An option that the format gives, its padding and its size. -/
theorem getdetails_bounds {tgt : Target} {h h' : Header} {total : Nat} {c : Char} {fmt rest : List Char} {opt : Pack}
    {ntoalign : Nat} (hok : getdetails tgt h total c fmt = .ok (opt, ntoalign, h', rest)) :
    ntoalign ≤ 16 ∧ opt.extent ≤ 2147483647 := by
  obtain ⟨⟨opt₁, h₁, fmt₁⟩, hopt, hok⟩ := Rust.bind_eq_ok.mp hok
  obtain ⟨⟨align, h₂, fmt₂⟩, hal, hok⟩ := Rust.bind_eq_ok.mp hok
  obtain ⟨n, hn, hok⟩ := Rust.bind_eq_ok.mp hok
  cases hok
  have hc := (getoption_spec hopt).1
  constructor
  · obtain ⟨hle, hzero⟩ := ntoalignOf_le hn
    rcases alignOf_le hc hal with halign | ⟨v, rfl⟩
    · exact Nat.le_trans hle halign
    · rw [hzero v rfl]
      exact Nat.zero_le _
  · cases opt with
    | char v => exact getoption_char hopt
    | str v => 
      cases v with
      | some v => exact Nat.le_trans hc.2.1 (by decide)
      | none => exact Nat.zero_le _
    | signed v | unsigned v => exact Nat.le_trans hc.2 (by decide)
    | padding v => exact Nat.le_trans (Nat.le_of_eq hc) (by decide)
    | float | double | number | padAlign | nop => decide

theorem getdetails_ne_panic (tgt : Target) (h : Header) (total : Nat) (c : Char) (fmt : List Char) :
    getdetails tgt h total c fmt ≠ .error .panic := by
  have hbind {α β : Type} {m : Rust α} {f : α → Rust β} (hm : m ≠ .error .panic) (hf : ∀ a, f a ≠ .error .panic) :
      m >>= f ≠ .error .panic := by
    cases m with
    | ok a => exact hf a
    | error e => exact fun he => hm (congrArg Except.error (Except.error.inj he))
  unfold getdetails
  refine hbind (getoption_ne_panic tgt h c fmt) fun p => ?_
  refine hbind (alignOf_ne_panic tgt p.2.1 p.1 p.2.2) fun q => ?_
  refine hbind (ntoalignOf_ne_panic q.2.1 p.1 q.1 total) fun n => ?_
  exact nofun

/-! ## Steps -/

section

variable {tgt : Target} {cv : Conv} {data : Bytes} {h : Header} {pos : Nat} {opt : Pack}

theorem unpackOption_pad (hpad : opt.isPad = true) : unpackOption tgt cv data h pos opt = .ok (opt.extent, []) := by
  cases opt <;> first | rfl | cases hpad

theorem getRange_ok {pos size : Nat} {v : Bytes} (h : getRange data pos size = .ok v) :
    pos + size ≤ data.length ∧ v.length = size := by
  unfold getRange at h
  obtain ⟨stop, hstop, h⟩ := Rust.bind_eq_ok.mp h
  unfold Rust.usize at hstop
  split_ifs at hstop
  obtain rfl := Except.ok.inj hstop
  split_ifs at h with hle
  refine ⟨hle, ?_⟩
  rw [← Except.ok.inj h, List.length_take, List.length_drop]
  omega

theorem getRange_panics_iff {pos size : Nat} : getRange data pos size = .error .panic ↔ 2 ^ 64 ≤ pos + size := by
  unfold getRange Rust.usize
  by_cases hfit : pos + size < 2 ^ 64
  · rw [if_pos hfit, Rust.ok_bind]
    refine iff_of_false ?_ (by omega)
    split_ifs <;> exact nofun
  · rw [if_neg hfit]
    exact iff_of_true rfl (by omega)

theorem unpackint_ne_panic {str : Bytes} (h1 : 1 ≤ str.length) (islittle issigned : Bool) :
    unpackint str islittle issigned ≠ .error .panic := by
  rw [unpackint_eq h1]
  unfold intValue
  dsimp only
  split_ifs <;> exact nofun

theorem argError_ne_panic {α : Type} {n : Nat} {r : Rust α} (h : r ≠ .error .panic) : argError n r ≠ .error .panic := by
  unfold argError
  split
  · exact nofun
  · exact h

theorem getTail_ok {len : Nat} {v : Bytes} (h : getTail data pos len = .ok v) : pos + len ≤ data.length := by
  unfold getTail at h
  split_ifs at h with hle
  omega

theorem unpackOption_read (hpad : opt.isPad = false) {size : Nat} {vs : List LuaValue}
    (hok : unpackOption tgt cv data h pos opt = .ok (size, vs)) : pos + size ≤ data.length := by
  cases opt with
  | signed v | unsigned v =>
    obtain ⟨w, hw, hok⟩ := Rust.bind_eq_ok.mp hok
    obtain ⟨res, -, hok⟩ := Rust.bind_eq_ok.mp hok
    obtain ⟨rfl, -⟩ := Prod.mk.inj (Except.ok.inj hok)
    exact (getRange_ok hw).1
  | float | double | number =>
    obtain ⟨w, hw, hok⟩ := Rust.bind_eq_ok.mp hok
    cases hok
    exact (getRange_ok hw).1
  | char v =>
    obtain ⟨w, hw, hok⟩ := Rust.bind_eq_ok.mp hok
    cases hok
    exact (getRange_ok hw).1
  | str v =>
    cases v with
    | some v =>
      obtain ⟨w, -, hok⟩ := Rust.bind_eq_ok.mp hok
      obtain ⟨len, -, hok⟩ := Rust.bind_eq_ok.mp hok
      obtain ⟨start, hstart, hok⟩ := Rust.bind_eq_ok.mp hok
      obtain ⟨x, hx, hok⟩ := Rust.bind_eq_ok.mp hok
      obtain ⟨total, htotal, hok⟩ := Rust.bind_eq_ok.mp hok
      cases hok
      have htail := getTail_ok hx
      rw [(Rust.usize_eq_ok hstart).2] at htail
      rw [(Rust.usize_eq_ok htotal).2, ← Nat.add_assoc]
      exact htail
    | none =>
      rw [unpackOption] at hok
      split_ifs at hok with hle
      split at hok
      · rename_i i hi
        cases hok
        have hlt : i < (data.drop pos).length := (List.findIdx?_eq_some_iff_findIdx_eq.mp hi).1
        rw [List.length_drop] at hlt
        omega
      · cases hok
  | padding v | padAlign | nop => cases hpad

/-- Reading panics only where the end of the range is no `usize`. -/
theorem unpackOption_panics_iff {c : Char} (hc : opt.Ok c) (hpad : opt.isPad = false) (hpos : pos < 2 ^ 64)
    (hdata : data.length ≤ isizeMax) :
    unpackOption tgt cv data h pos opt = .error .panic ↔ 2 ^ 64 ≤ pos + opt.extent := by
  have hread {α : Type} {size : Nat} {f : Bytes → Rust α}
      (hf : ∀ v, pos + size ≤ data.length → v.length = size → f v ≠ .error .panic) :
      (getRange data pos size >>= f) = .error .panic ↔ 2 ^ 64 ≤ pos + size := by
    cases hr : getRange data pos size with
    | error e =>
      rw [Rust.error_bind, ← @getRange_panics_iff data, hr]
      exact ⟨fun h => congrArg Except.error (Except.error.inj h), fun h => congrArg Except.error (Except.error.inj h)⟩
    | ok v =>
      obtain ⟨hle, hlen⟩ := getRange_ok hr
      rw [isizeMax] at hdata
      exact iff_of_false (hf v hle hlen) (by omega)
  have hint {β : Type} {size : Nat} {v : Bytes} (h1 : 1 ≤ size) (hv : v.length = size) (l s : Bool) (g : Int64 → β) :
      (argError 2 (unpackint v l s) >>= fun res => .ok (g res)) ≠ .error .panic := by
    have hne := argError_ne_panic (n := 2) (unpackint_ne_panic (h1.trans_eq hv.symm) l s)
    cases hr : argError 2 (unpackint v l s) with
    | ok res => simp
    | error e => exact fun he => hne (hr.trans (congrArg Except.error (Except.error.inj he)))
  cases opt with
  | signed v | unsigned v => exact hread fun w _ hw => hint hc.1 hw _ _ _
  | float | double | number => exact hread fun w _ hw => (by simp)
  | char v => exact hread fun w _ hw => (by simp)
  | str v =>
    cases v with
    | some v =>
      refine hread fun w hle hw => ?_
      have hne := argError_ne_panic (n := 2) (unpackint_ne_panic (hc.1.trans_eq hw.symm) h.islittle false)
      rw [isizeMax] at hdata
      cases hr : argError 2 (unpackint w h.islittle false) with
      | error e => exact fun he => hne (hr.trans (congrArg Except.error (Except.error.inj he)))
      | ok len =>
        rw [Rust.ok_bind]
        dsimp only
        rw [Rust.usize_of_lt (by omega), Rust.ok_bind]
        cases ht : getTail data (pos + v) len.toUInt64.toNat with
        | error e =>
          unfold getTail at ht
          split_ifs at ht
          rw [← Except.error.inj ht]
          simp
        | ok x =>
          have htail := getTail_ok ht
          rw [Rust.ok_bind, Rust.usize_of_lt (by omega)]
          simp
    | none =>
      refine iff_of_false ?_ (Nat.not_le.mpr hpos)
      rw [unpackOption]
      split_ifs
      · split <;> simp
      · simp
  | padding v | padAlign | nop => cases hpad

theorem unpackStep_pad {st : UnpackState} {first : Char} {fmt rest : List Char} {h' : Header} {ntoalign : Nat}
    (hdet : getdetails tgt st.h st.pos first fmt = .ok (opt, ntoalign, h', rest)) (hpad : opt.isPad = true)
    (hfit : st.pos + ntoalign + opt.extent < 2 ^ 64) :
    unpackStep tgt cv data st first fmt = .ok ⟨h', rest, st.pos + ntoalign + opt.extent, st.out⟩ := by
  unfold unpackStep
  rw [hdet, Rust.ok_bind]
  dsimp only
  rw [Rust.usize_of_lt (by omega), Rust.ok_bind, unpackOption_pad hpad, Rust.ok_bind]
  dsimp only
  rw [Rust.usize_of_lt hfit, Rust.ok_bind, List.append_nil]

/-- A step panics only where a position is no `usize`. -/
theorem unpackStep_panics_iff {st : UnpackState} {first : Char} {fmt rest : List Char} {h' : Header} {ntoalign : Nat}
    (hdata : data.length ≤ isizeMax) (hdet : getdetails tgt st.h st.pos first fmt = .ok (opt, ntoalign, h', rest)) :
    unpackStep tgt cv data st first fmt = .error .panic ↔ 2 ^ 64 ≤ st.pos + ntoalign + opt.extent := by
  by_cases hstart : st.pos + ntoalign < 2 ^ 64
  · cases hpad : opt.isPad with
    | true =>
      by_cases hfit : st.pos + ntoalign + opt.extent < 2 ^ 64
      · rw [unpackStep_pad hdet hpad hfit]
        exact iff_of_false nofun (by omega)
      · refine iff_of_true ?_ (by omega)
        unfold unpackStep
        rw [hdet, Rust.ok_bind]
        dsimp only
        rw [Rust.usize_of_lt hstart, Rust.ok_bind, unpackOption_pad hpad, Rust.ok_bind]
        dsimp only
        rw [Rust.usize, if_neg hfit]
        rfl
    | false =>
      rw [← unpackOption_panics_iff (getdetails_spec hdet).1 hpad hstart hdata]
      unfold unpackStep
      rw [hdet, Rust.ok_bind]
      dsimp only
      rw [Rust.usize_of_lt hstart, Rust.ok_bind]
      cases hopt : unpackOption tgt cv data h' (st.pos + ntoalign) opt with
      | error e =>
        rw [Rust.error_bind]
        exact ⟨fun h => congrArg Except.error (Except.error.inj h),
          fun h => congrArg Except.error (Except.error.inj h)⟩
      | ok p =>
        have hread := unpackOption_read hpad hopt
        rw [isizeMax] at hdata
        rw [Rust.ok_bind, Rust.usize_of_lt (by omega), Rust.ok_bind]
        exact iff_of_false nofun nofun
  · refine iff_of_true ?_ (by omega)
    unfold unpackStep
    rw [hdet, Rust.ok_bind]
    dsimp only
    rw [Rust.usize, if_neg hstart]
    rfl

theorem unpackStep_pad_or {st : UnpackState} {first : Char} {fmt rest : List Char} {h' : Header} {ntoalign : Nat}
    (hdata : data.length ≤ isizeMax) (hdet : getdetails tgt st.h st.pos first fmt = .ok (opt, ntoalign, h', rest))
    (hpad : opt.isPad = true) :
    unpackStep tgt cv data st first fmt = .ok ⟨h', rest, st.pos + ntoalign + opt.extent, st.out⟩ ∨
      unpackStep tgt cv data st first fmt = .error .panic := by
  by_cases hfit : st.pos + ntoalign + opt.extent < 2 ^ 64
  · exact .inl (unpackStep_pad hdet hpad hfit)
  · exact .inr ((unpackStep_panics_iff hdata hdet).mpr (by omega))

/-- A step that pushes a value read it inside the data. -/
theorem unpackStep_read {st st' : UnpackState} {first : Char} {fmt : List Char}
    (hstep : unpackStep tgt cv data st first fmt = .ok st') (hout : st'.out ≠ st.out) : st'.pos ≤ data.length := by
  obtain ⟨⟨opt, ntoalign, h₁, rest⟩, -, hstep⟩ := Rust.bind_eq_ok.mp hstep
  obtain ⟨pos, -, hstep⟩ := Rust.bind_eq_ok.mp hstep
  obtain ⟨⟨size, vs⟩, hopt, hstep⟩ := Rust.bind_eq_ok.mp hstep
  obtain ⟨stop, hstop, hstep⟩ := Rust.bind_eq_ok.mp hstep
  obtain rfl := Except.ok.inj hstep
  cases hpad : opt.isPad with
  | true =>
    rw [unpackOption_pad hpad] at hopt
    obtain ⟨-, rfl⟩ := Prod.mk.inj (Except.ok.inj hopt)
    exact absurd (List.append_nil _) hout
  | false =>
    rw [(Rust.usize_eq_ok hstop).2]
    exact unpackOption_read hpad hopt

end

/-! ## Runs -/

section

variable (tgt : Target) (cv : Conv) (data : Bytes)

/-- The states the loop of `unpack` goes through. -/
inductive UnpackReaches : UnpackState → UnpackState → Prop
  | refl (st : UnpackState) : UnpackReaches st st
  | step {st st₁ st₂ : UnpackState} {first : Char} {fmt : List Char} : st.fmt = first :: fmt →
      unpackStep tgt cv data st first fmt = .ok st₁ → UnpackReaches st₁ st₂ → UnpackReaches st st₂

/-- Only padding is left of the format, and it goes past the end of the data; or a position gets too large for a
`usize` there. -/
inductive Unread (len : Nat) : Header → Nat → List Char → Prop
  | done {h : Header} {pos : Nat} : len < pos → Unread len h pos []
  | pad {h h' : Header} {pos ntoalign : Nat} {opt : Pack} {first : Char} {fmt rest : List Char} :
      getdetails tgt h pos first fmt = .ok (opt, ntoalign, h', rest) → opt.isPad = true →
      Unread len h' (pos + ntoalign + opt.extent) rest → Unread len h pos (first :: fmt)
  | overflow {h h' : Header} {pos ntoalign : Nat} {opt : Pack} {first : Char} {fmt rest : List Char} : len < pos →
      getdetails tgt h pos first fmt = .ok (opt, ntoalign, h', rest) → 2 ^ 64 ≤ pos + ntoalign + opt.extent →
      Unread len h pos (first :: fmt)

/-- A state inside the data is reached from which padding goes past its end. -/
def Trips (st : UnpackState) : Prop :=
  ∃ st', UnpackReaches tgt cv data st st' ∧ st'.pos ≤ data.length ∧ Unread tgt data.length st'.h st'.pos st'.fmt

/-- An error, or values and a position between 1 and the one after the last byte. -/
def Lands : Rust (List LuaValue) → Prop
  | .ok vs => ∃ vals q, vs = vals ++ [.int (Int64.ofNat q)] ∧ 1 ≤ q ∧ q ≤ data.length + 1
  | .error e => e ≠ .panic

/-- Values are read inside the data: the position behind a value is not past its end. -/
def ReadsInside (st : UnpackState) : Prop :=
  ∀ st₁ st₂ first fmt, UnpackReaches tgt cv data st st₁ → st₁.fmt = first :: fmt →
    unpackStep tgt cv data st₁ first fmt = .ok st₂ → st₂.out ≠ st₁.out → st₂.pos ≤ data.length

variable {tgt cv data}

theorem readsInside (st : UnpackState) : ReadsInside tgt cv data st :=
  fun _ _ _ _ _ _ hstep hout => unpackStep_read hstep hout

theorem unpackStep_past {st st' : UnpackState} {first : Char} {fmt : List Char}
    (hstep : unpackStep tgt cv data st first fmt = .ok st') (hpast : data.length < st'.pos) :
    ∃ opt ntoalign, getdetails tgt st.h st.pos first fmt = .ok (opt, ntoalign, st'.h, st'.fmt) ∧ opt.isPad = true ∧
      st'.pos = st.pos + ntoalign + opt.extent := by
  obtain ⟨⟨opt, ntoalign, h₁, rest⟩, hdet, hstep⟩ := Rust.bind_eq_ok.mp hstep
  obtain ⟨pos, hpos, hstep⟩ := Rust.bind_eq_ok.mp hstep
  obtain ⟨⟨size, vs⟩, hopt, hstep⟩ := Rust.bind_eq_ok.mp hstep
  obtain ⟨stop, hstop, hstep⟩ := Rust.bind_eq_ok.mp hstep
  obtain rfl := Except.ok.inj hstep
  have hend := (Rust.usize_eq_ok hstop).2
  cases hpad : opt.isPad with
  | true =>
    rw [unpackOption_pad hpad] at hopt
    obtain ⟨rfl, -⟩ := Prod.mk.inj (Except.ok.inj hopt)
    exact ⟨opt, ntoalign, hdet, hpad, hend.trans (congrArg (· + _) (Rust.usize_eq_ok hpos).2)⟩
  | false =>
    have hread := unpackOption_read hpad hopt
    exact absurd (hend.trans_le hread) (Nat.not_le.mpr hpast)

/-- The last state inside the data comes before such a state, if there is one. -/
theorem Unread.inside {st st' : UnpackState} (hreach : UnpackReaches tgt cv data st st')
    (hun : Unread tgt data.length st'.h st'.pos st'.fmt) :
    (data.length < st.pos ∧ Unread tgt data.length st.h st.pos st.fmt) ∨ Trips tgt cv data st := by
  have place {st : UnpackState} (hun : Unread tgt data.length st.h st.pos st.fmt) :
      (data.length < st.pos ∧ Unread tgt data.length st.h st.pos st.fmt) ∨ Trips tgt cv data st :=
    (Nat.lt_or_ge data.length st.pos).imp (⟨·, hun⟩) fun hle => ⟨st, .refl st, hle, hun⟩
  induction hreach with
  | refl => exact place hun
  | step hfmt hstep _ ih =>
    rcases ih hun with ⟨hpast, hun₁⟩ | ⟨st₂, hreach₂, hle, hun₂⟩
    · obtain ⟨opt, ntoalign, hdet, hpad, hpos⟩ := unpackStep_past hstep hpast
      rw [hpos] at hun₁
      exact place (hfmt ▸ .pad hdet hpad hun₁)
    · exact .inr ⟨st₂, .step hfmt hstep hreach₂, hle, hun₂⟩

theorem trips_iff {st : UnpackState} (hpos : st.pos ≤ data.length) : Trips tgt cv data st ↔
    ∃ st', UnpackReaches tgt cv data st st' ∧ Unread tgt data.length st'.h st'.pos st'.fmt :=
  ⟨fun ⟨st', hreach, _, hun⟩ => ⟨st', hreach, hun⟩, fun ⟨_, hreach, hun⟩ =>
    (Unread.inside hreach hun).resolve_left fun h => Nat.not_le.mpr h.1 hpos⟩

theorem lands_nil (hdata : data.length ≤ isizeMax) (out : List LuaValue) (pos : Nat) :
    Lands data ((Rust.usize (pos + 1)).map fun pos => out ++ [.int (Int64.ofNat pos)]) ↔ pos ≤ data.length := by
  rw [isizeMax] at hdata
  unfold Rust.usize
  split_ifs with hfit
  · constructor
    · rintro ⟨vals, q, hvs, h1, hq⟩
      have hpos : Int64.ofNat (pos + 1) = Int64.ofNat q :=
        LuaValue.int.inj (List.cons_eq_cons.mp (List.append_inj' hvs rfl).2).1
      have hnat := congrArg (fun i : Int64 => i.toBitVec.toNat) hpos
      simp only [Int64.toBitVec_ofNat', BitVec.toNat_ofNat] at hnat
      rw [Nat.mod_eq_of_lt hfit, Nat.mod_eq_of_lt (by omega)] at hnat
      omega
    · exact fun hle => ⟨out, pos + 1, rfl, by omega, by omega⟩
  · exact iff_of_false (fun h => h rfl) (by omega)

/-- The loop lands exactly if no such state is reached. -/
theorem unpackLoop_lands_iff (hdata : data.length ≤ isizeMax) (st : UnpackState) :
    Lands data (unpackLoop tgt cv data st) ↔
      ¬∃ st', UnpackReaches tgt cv data st st' ∧ Unread tgt data.length st'.h st'.pos st'.fmt := by
  fun_induction unpackLoop tgt cv data st with
  | case1 st hfmt =>
    rw [lands_nil hdata]
    constructor
    · rintro hle ⟨st', hreach, hun⟩
      cases hreach with
      | refl =>
        rw [hfmt] at hun
        cases hun with
        | done hlt => omega
      | step hfmt' => exact List.cons_ne_nil _ _ (hfmt'.symm.trans hfmt)
    · intro hno
      by_contra hlt
      exact hno ⟨st, .refl st, by rw [hfmt]; exact .done (by omega)⟩
  | case2 st first fmt hfmt e hstep =>
    constructor
    · rintro hne ⟨st', hreach, hun⟩
      refine hne ?_
      cases hreach with
      | refl =>
        rw [hfmt] at hun
        cases hun with
        | pad hdet hpad =>
          rcases unpackStep_pad_or hdata hdet hpad with hpadded | hpanic
          · cases hstep.symm.trans hpadded
          · exact Except.error.inj (hstep.symm.trans hpanic)
        | overflow _ hdet hover =>
          exact Except.error.inj (hstep.symm.trans ((unpackStep_panics_iff hdata hdet).mpr hover))
      | step hfmt' hstep' =>
        obtain ⟨rfl, rfl⟩ := List.cons_eq_cons.mp (hfmt'.symm.trans hfmt)
        cases hstep.symm.trans hstep'
    · rintro hno rfl
      cases hdet : getdetails tgt st.h st.pos first fmt with
      | error e =>
        rw [unpackStep, hdet, Rust.error_bind] at hstep
        exact getdetails_ne_panic _ _ _ _ _ (hdet.trans (congrArg Except.error (Except.error.inj hstep)))
      | ok p =>
        obtain ⟨opt, ntoalign, h', rest⟩ := p
        have hover := (unpackStep_panics_iff hdata hdet).mp hstep
        obtain ⟨hpadding, hextent⟩ := getdetails_bounds hdet
        have hlen := hdata
        rw [isizeMax] at hlen
        exact hno ⟨st, .refl st, by rw [hfmt]; exact .overflow (by omega) hdet hover⟩
  | case3 st first fmt hfmt st' hstep ih =>
    rw [ih]
    refine not_congr ⟨?_, ?_⟩
    · rintro ⟨st₂, hreach, hun⟩
      exact ⟨st₂, .step hfmt hstep hreach, hun⟩
    rintro ⟨st₂, hreach, hun⟩
    cases hreach with
    | refl =>
      rw [hfmt] at hun
      cases hun with
      | pad hdet hpad hun =>
        rcases unpackStep_pad_or hdata hdet hpad with hpadded | hpanic
        · obtain rfl := Except.ok.inj (hstep.symm.trans hpadded)
          exact ⟨_, .refl _, hun⟩
        · cases hstep.symm.trans hpanic
      | overflow _ hdet hover => cases hstep.symm.trans ((unpackStep_panics_iff hdata hdet).mpr hover)
    | step hfmt' hstep' hreach =>
      obtain ⟨rfl, rfl⟩ := List.cons_eq_cons.mp (hfmt'.symm.trans hfmt)
      obtain rfl := Except.ok.inj (hstep.symm.trans hstep')
      exact ⟨st₂, hreach, hun⟩

end

/-- The state `unpack` starts its loop in. -/
def UnpackState.init (tgt : Target) (fmt : List Char) (pos : Nat) : UnpackState :=
  ⟨.new tgt, fmt.takeWhile (· ≠ '\x00'), pos, []⟩

/-- `unpack` stays inside its data exactly if it reaches no point inside of it from which only padding is left of the
format, and goes past the end of the data. It panics only where a position behind the data gets too large for a `usize`. -/
theorem unpack_safe_iff (tgt : Target) (cv : Conv) (fmt : List Char) (data : LStr) (init : Option Int64) :
    (Lands data.bytes (unpack tgt cv fmt data init) ∧
      ∀ pos, ReadsInside tgt cv data.bytes (.init tgt fmt pos)) ↔
    ∀ start, posrelatI (init.getD 1) (Int64.ofNat data.bytes.length) = .ok start →
      start - 1 ≤ data.bytes.length → ¬Trips tgt cv data.bytes (.init tgt fmt (start - 1)) := by
  obtain ⟨start, -, hstart⟩ := posrelatI_eq_ok (init.getD 1) data.length_le
  have hinside (pos : Nat) := @readsInside tgt cv data.bytes (.init tgt fmt pos)
  rw [and_iff_left hinside, unpack, hstart, Rust.ok_bind]
  by_cases hfar : start - 1 > data.bytes.length
  · rw [if_pos hfar]
    refine iff_of_true (by simp [Lands]) fun start' hstart' hle => ?_
    cases hstart'
    omega
  · rw [if_neg hfar]
    have hpos : (UnpackState.init tgt fmt (start - 1)).pos ≤ data.bytes.length := Nat.le_of_not_lt hfar
    refine (unpackLoop_lands_iff data.length_le _).trans (Iff.trans (not_congr (trips_iff hpos).symm) ?_)
    refine ⟨fun hno start' hstart' _ => ?_, fun h => ?_⟩
    · cases hstart'
      exact hno
    · exact h start rfl (by omega)

/-- `string.unpack("x", "")` returns 2, the position behind one byte of padding that is not there. -/
theorem unpack_past_end :
    unpack lp64 oneConv ['x'] ⟨[], by decide⟩ none = .ok [.int 2] ∧
      ¬Lands [] (unpack lp64 oneConv ['x'] ⟨[], by decide⟩ none) := by
  have hun : unpack lp64 oneConv ['x'] ⟨[], by decide⟩ none = .ok [.int 2] := by
    rw [unpack, show posrelatI ((none : Option Int64).getD 1) _ = .ok 1 from rfl, Rust.ok_bind, if_neg (by decide),
      unpackLoop_step ⟨⟨true, 1⟩, [], 1, []⟩ rfl (by decide), unpackLoop_nil rfl]
    rfl
  refine ⟨hun, ?_⟩
  rw [hun]
  rintro ⟨vals, q, hvs, h1, hq⟩
  obtain rfl : q = 1 := Nat.le_antisymm hq h1
  have heq : [] ++ [LuaValue.int 2] = vals ++ [.int (Int64.ofNat 1)] := hvs
  have hint := LuaValue.int.inj (List.cons_eq_cons.mp (List.append_inj' heq rfl).2).1
  exact absurd hint (by decide)

end Tsuki.Str
