import Tsuki.Str.PackInt

/-!
# `string.unpack` undoes `string.pack`

A run of `pack` is followed step by step by a run of `unpack` over the packed bytes: both read the same
options, at the same offsets, with the same header (`packStep_sim`). Only the fill of `packint` for negative
integers of more than 8 bytes can spoil the bytes already in the buffer, so the results are about runs in
which it does not (`FillStep`).
-/

namespace Tsuki.Str

open ByteDigits

/-! ## What a format asks for -/

/-- The options of a format, in order; `X` is one option, the one it aligns to is none. -/
def readOptions (tgt : Target) (h : Header) (fmt : List Char) : Rust (List Pack) :=
  match fmt with
  | [] => .ok []
  | c :: fmt =>
    match _hopt : getoption tgt h c fmt with
    | .error e => .error e
    | .ok (opt, h, rest) =>
      match _hal : alignOf tgt h opt rest with
      | .error e => .error e
      | .ok (_, h, rest) => (readOptions tgt h rest).map (opt :: ·)
termination_by fmt.length
decreasing_by
  have h₁ := (getoption_spec _hopt).2.length_le
  have h₂ := (alignOf_suffix _hal).length_le
  simp only [List.length_cons]
  omega

theorem readOptions_nil {tgt : Target} {h : Header} : readOptions tgt h [] = .ok [] := by
  rw [readOptions]

theorem readOptions_cons {tgt : Target} {h h₁ h₂ : Header} {c : Char} {fmt fmt₁ fmt₂ : List Char}
    {opt : Pack} {align : Nat} {opts : List Pack} (hopt : getoption tgt h c fmt = .ok (opt, h₁, fmt₁))
    (hal : alignOf tgt h₁ opt fmt₁ = .ok (align, h₂, fmt₂)) (hrest : readOptions tgt h₂ fmt₂ = .ok opts) :
    readOptions tgt h (c :: fmt) = .ok (opt :: opts) := by
  rw [readOptions]
  split
  · simp_all
  · rename_i heq
    rw [hopt] at heq
    cases heq
    split
    · simp_all
    · rename_i heq
      rw [hal] at heq
      cases heq
      rw [hrest]
      rfl

/-- The integer an argument is converted to. -/
def asInt (cv : Conv) : LuaValue → Int64
  | .int i => i
  | v => (cv.tointeger v).getD 0

/-- The float an argument is converted to. -/
def asFloat (cv : Conv) : LuaValue → UInt64
  | .float f => f
  | v => (cv.tonumber v).getD 0

/-- The string an argument is converted to. -/
def asStr (cv : Conv) : LuaValue → Bytes
  | .str s => s
  | v => cv.convertStr v

/-- The value an option packs for an argument: the argument in the type of the option, a fixed-size string
with zeros to its size. -/
def convert (cv : Conv) (v : LuaValue) : Pack → Option LuaValue
  | .signed _ | .unsigned _ => some (.int (asInt cv v))
  | .float => some (.float (cv.ofFloat (cv.toFloat (asFloat cv v))))
  | .double | .number => some (.float (asFloat cv v))
  | .char size => some (.str (asStr cv v ++ List.replicate (size - (asStr cv v).length) 0))
  | .str _ => some (.str (asStr cv v))
  | .padding _ | .padAlign | .nop => none

/-- The values of a list of options: every option that packs a value takes the next argument. -/
def packedValues (cv : Conv) : List Pack → List LuaValue → Option (List LuaValue)
  | [], _ => some []
  | opt :: opts, args =>
    match opt with
    | .padding _ | .padAlign | .nop => packedValues cv opts args
    | opt =>
      match args with
      | [] => none
      | v :: args => (packedValues cv opts args).map ((convert cv v opt).toList ++ ·)

theorem packedValues_take {cv : Conv} {opt : Pack} {opts : List Pack} {v x : LuaValue}
    {args tail : List LuaValue} (hx : convert cv v opt = some x)
    (htail : packedValues cv opts args = some tail) :
    packedValues cv (opt :: opts) (v :: args) = some (x :: tail) := by
  cases opt <;> cases hx <;> simp [packedValues, convert, htail]

/-! ## Arguments -/

section Args

variable {cv : Conv} {args : List LuaValue} {n : Nat}

theorem toInt_eq_ok {i : Int64} (h : toInt cv args n = .ok i) :
    ∃ v, args[n - 2]? = some v ∧ asInt cv v = i := by
  unfold toInt at h
  split at h
  · cases h
  · rename_i j heq
    cases h
    exact ⟨_, heq, rfl⟩
  · rename_i v hv heq
    refine ⟨v, heq, ?_⟩
    split at h
    · rename_i j hj
      cases h
      unfold asInt
      split
      · exact absurd rfl (hv _)
      · rw [hj, Option.getD_some]
    · split at h <;> cases h

theorem toFloat_eq_ok {f : UInt64} (h : toFloat cv args n = .ok f) :
    ∃ v, args[n - 2]? = some v ∧ asFloat cv v = f := by
  unfold toFloat at h
  split at h
  · cases h
  · rename_i j heq
    cases h
    exact ⟨_, heq, rfl⟩
  · rename_i v hv heq
    refine ⟨v, heq, ?_⟩
    split at h
    · rename_i j hj
      cases h
      unfold asFloat
      split
      · exact absurd rfl (hv _)
      · rw [hj, Option.getD_some]
    · cases h

theorem toStr_eq_ok {s : Bytes} (h : toStr cv args n = .ok s) :
    ∃ v, args[n - 2]? = some v ∧ asStr cv v = s := by
  unfold toStr at h
  split at h <;> cases h <;> exact ⟨_, ‹_›, rfl⟩

end Args

/-! ## One option -/

theorem getRange_of_prefix {b v data : Bytes} (h : b ++ v <+: data) (hmax : data.length ≤ isizeMax) :
    getRange data b.length v.length = .ok v := by
  obtain ⟨t, rfl⟩ := h
  simp only [isizeMax, List.length_append] at hmax
  rw [getRange, Rust.usize_of_lt (by omega), Rust.ok_bind, if_pos (by simp), List.append_assoc, List.drop_left,
    List.take_left]

theorem getTail_of_prefix {b v data : Bytes} (h : b ++ v <+: data) : getTail data b.length v.length = .ok v := by
  obtain ⟨t, rfl⟩ := h
  rw [getTail, if_pos ⟨by simp, by simp only [List.length_append]; omega⟩, List.append_assoc, List.drop_left,
    List.take_left]

theorem fromBytes_extend (tgt : Target) (width : Nat) {n : Nat} (little : Bool) (hn : n < 256 ^ width) (b : Bytes) :
    ∃ v, extendWithEndian tgt b width n little = b ++ v ∧ v.length = width ∧
      fromBytes tgt v little = n := by
  refine ⟨_, rfl, ?_, ?_⟩
  · split <;> split <;> simp
  · cases htgt : tgt.littleEndian <;> cases little <;>
      simp [fromBytes, htgt, ofBytes_leBytes, Nat.mod_eq_of_lt hn]

theorem idxOf_zero {s t : Bytes} (h : 0 ∉ s) : (s ++ 0 :: t).idxOf? 0 = some s.length := by
  induction s with
  | nil => simp [List.idxOf?_cons]
  | cons x s ih =>
    rw [List.mem_cons, not_or] at h
    simp [List.idxOf?_cons, Ne.symm h.1, ih h.2]

/-- What an option of `pack` appends, and that `unpack` reads it off any data that starts with the buffer. -/
structure OptionSim (tgt : Target) (cv : Conv) (h : Header) (b : Bytes) (opt : Pack) (size : Nat)
    (b' : Bytes) (vals : List LuaValue) : Prop where
  isPrefix : b <+: b'
  length_eq : b'.length = b.length + size
  unpack_eq : ∀ data, b' <+: data → data.length ≤ isizeMax →
    unpackOption tgt cv data h b.length opt = .ok (size, vals)

section Option

variable {tgt : Target} {cv : Conv} {args : List LuaValue} {h : Header} {next size next' : Nat}
  {b b' : Bytes} {opt : Pack} {c : Char}

/-- An option whose bytes `unpack` reads with one `getRange`. -/
theorem optionSim_of_range {bytes : Bytes} {f : Bytes → Rust (Nat × List LuaValue)} {vals : List LuaValue}
    (hlen : bytes.length = size) (hb : b' = b ++ bytes)
    (hun : ∀ data, unpackOption tgt cv data h b.length opt = getRange data b.length size >>= f)
    (hf : f bytes = .ok (size, vals)) : OptionSim tgt cv h b opt size b' vals := by
  subst hb hlen
  refine ⟨List.prefix_append _ _, by simp, fun data hdata hmax => ?_⟩
  rw [hun, getRange_of_prefix hdata hmax, Rust.ok_bind, hf]

theorem int64_of_length {s : Bytes} {size : Nat} (hfit : size ≥ 8 ∨ s.length < 2 ^ (size * 8))
    (hs : s.length < 2 ^ 64) : Fits size false (UInt64.ofNat s.length).toInt64 := by
  intro h8
  rw [if_neg (by simp), UInt64.toUInt64_toInt64, UInt64.toNat_ofNat', Nat.mod_eq_of_lt hs]
  omega

theorem drop_eq_cons {v : LuaValue} {k : Nat} (hv : args[k]? = some v) :
    args.drop k = v :: args.drop (k + 1) := by
  obtain ⟨hlt, rfl⟩ := List.getElem?_eq_some_iff.mp hv
  exact List.drop_eq_getElem_cons hlt

/-- An option that packs a value takes the next argument. -/
theorem packedValues_next {v x : LuaValue} (hnext : 2 ≤ next) (hv : args[next - 2]? = some v)
    (hx : convert cv v opt = some x) (opts : List Pack) (tail : List LuaValue)
    (htail : packedValues cv opts (args.drop (next - 1)) = some tail) :
    packedValues cv (opt :: opts) (args.drop (next - 2)) = some ([x] ++ tail) := by
  rw [drop_eq_cons hv, show next - 2 + 1 = next - 1 by omega]
  exact packedValues_take hx htail

theorem optionSim_int (signed : Bool) {n : Int64} (hsize : 1 ≤ size) (hfit : Fits size signed n)
    (hfill : FillOk b n.toUInt64 size (signed && decide (n < 0)))
    (hun : ∀ data, unpackOption tgt cv data h b.length opt = getRange data b.length size >>= fun v =>
      argError 2 (unpackint v h.islittle signed) >>= fun res => .ok (size, [.int res])) :
    OptionSim tgt cv h b opt size (packint b n.toUInt64 h.islittle size (signed && decide (n < 0))) [.int n] := by
  refine optionSim_of_range (by simp) (packint_eq h.islittle hsize hfill) hun ?_
  rw [unpackint_ordered h.islittle hsize hfit]
  rfl

theorem optionSim_float {f : Nat → UInt64} {n : Nat} (hn : n < 256 ^ size)
    (hun : ∀ data, unpackOption tgt cv data h b.length opt = getRange data b.length size >>= fun v =>
      .ok (size, [.float (f (fromBytes tgt v h.islittle))])) :
    OptionSim tgt cv h b opt size (extendWithEndian tgt b size n h.islittle) [.float (f n)] := by
  obtain ⟨bytes, hb, hlen, hfrom⟩ := fromBytes_extend tgt size h.islittle hn b
  exact optionSim_of_range hlen hb hun (by rw [hfrom])

theorem optionSim_str {s : Bytes} {sz : Nat} (hsz : 1 ≤ sz) (hfit : sz ≥ 8 ∨ s.length < 2 ^ (sz * 8))
    (hmax : (packint b (.ofNat s.length) h.islittle sz false ++ s).length ≤ isizeMax) :
    OptionSim tgt cv h b (.str (some sz)) (sz + s.length) (packint b (.ofNat s.length) h.islittle sz false ++ s)
      [.str s] := by
  have hb := packint_eq (b := b) (n := .ofNat s.length) h.islittle hsz (fillOk_of_nonneg _ _ _)
  rw [hb] at hmax ⊢
  have hlen : s.length < 2 ^ 64 := by
    simp only [List.length_append, isizeMax] at hmax
    omega
  have hread := unpackint_ordered h.islittle hsz (int64_of_length hfit hlen)
  rw [Bool.false_and, UInt64.toUInt64_toInt64] at hread
  refine ⟨?_, by simp, fun data hdata hdmax => ?_⟩
  · rw [List.append_assoc]
    exact List.prefix_append _ _
  · have hhead := getRange_of_prefix ((List.prefix_append _ _).trans hdata) hdmax
    have hbody := getTail_of_prefix hdata
    simp only [length_ordered, length_intBytes, List.length_append] at hhead hbody
    simp only [List.length_append, length_ordered, length_intBytes, isizeMax] at hmax
    have hstart : Rust.usize (b.length + sz) = .ok (b.length + sz) := Rust.usize_of_lt (by omega)
    have hsize : Rust.usize (sz + s.length) = .ok (sz + s.length) := Rust.usize_of_lt (by omega)
    simp only [unpackOption, hhead, Rust.ok_bind, hread, argError, UInt64.toUInt64_toInt64,
      UInt64.toNat_ofNat', Nat.mod_eq_of_lt hlen, hstart, hbody, hsize]

theorem optionSim_zstr {s : Bytes} (hzero : 0 ∉ s) :
    OptionSim tgt cv h b (.str none) (s.length + 1) (b ++ s ++ [0]) [.str s] := by
  refine ⟨?_, by simp, fun data hdata _ => ?_⟩
  · rw [List.append_assoc]
    exact List.prefix_append _ _
  · obtain ⟨t, rfl⟩ := hdata
    simp only [unpackOption, List.append_assoc, List.drop_left, List.singleton_append,
      idxOf_zero hzero, List.take_left, List.length_append]
    rw [if_pos (by omega)]

/-- One option of `pack`: what it appends is what `unpack` reads, and its value is the next argument. -/
theorem packOption_sim (hc : opt.Ok c) (hok : packOption tgt cv args h next b opt = .ok (size, next', b'))
    (hnext : 2 ≤ next) (hmax : b'.length ≤ isizeMax)
    (hfill : ∀ sz n, opt = .signed sz → toInt cv args next = .ok n →
      FillOk b n.toUInt64 sz (decide (n < 0))) :
    1 ≤ next' ∧ ∃ vals, OptionSim tgt cv h b opt size b' vals ∧
      ∀ opts tail, packedValues cv opts (args.drop (next' - 1)) = some tail →
        packedValues cv (opt :: opts) (args.drop (next - 2)) = some (vals ++ tail) := by
  cases opt with
  | signed sz =>
    obtain ⟨n, hn, hok⟩ := Rust.bind_eq_ok.mp hok
    dsimp only at hok
    split at hok
    · cases hok
    · rename_i hrange
      cases hok
      obtain ⟨v, hv, rfl⟩ := toInt_eq_ok hn
      have hfit : Fits size true (asInt cv v) := by
        intro h8
        rw [if_pos rfl]
        by_contra hno
        exact hrange ⟨h8, hno⟩
      exact ⟨by omega, [.int (asInt cv v)], optionSim_int true hc.1 hfit (hfill _ _ rfl hn) (fun data => rfl),
        packedValues_next hnext hv rfl⟩
  | unsigned sz =>
    obtain ⟨n, hn, hok⟩ := Rust.bind_eq_ok.mp hok
    split at hok
    · cases hok
    · rename_i hrange
      cases hok
      obtain ⟨v, hv, rfl⟩ := toInt_eq_ok hn
      have hfit : Fits size false (asInt cv v) := by
        intro h8
        rw [if_neg (by simp)]
        by_contra hno
        exact hrange ⟨h8, hno⟩
      exact ⟨by omega, [.int (asInt cv v)],
        optionSim_int false hc.1 hfit (fillOk_of_nonneg _ _ _) (fun data => rfl), packedValues_next hnext hv rfl⟩
  | float =>
    obtain ⟨f, hf, hok⟩ := Rust.bind_eq_ok.mp hok
    cases hok
    obtain ⟨v, hv, rfl⟩ := toFloat_eq_ok hf
    exact ⟨by omega, [.float (cv.ofFloat (.ofNat (cv.toFloat (asFloat cv v)).toNat))],
      @optionSim_float tgt cv h 4 b _ (fun n => cv.ofFloat (.ofNat n)) _ (cv.toFloat (asFloat cv v)).toNat_lt
        fun data => rfl,
      packedValues_next hnext hv (by rw [UInt32.ofNat_toNat, convert])⟩
  | double | number =>
    obtain ⟨f, hf, hok⟩ := Rust.bind_eq_ok.mp hok
    cases hok
    obtain ⟨v, hv, rfl⟩ := toFloat_eq_ok hf
    exact ⟨by omega, [.float (.ofNat (asFloat cv v).toNat)],
      @optionSim_float tgt cv h 8 b _ UInt64.ofNat _ (asFloat cv v).toNat_lt fun data => rfl,
      packedValues_next hnext hv (by rw [UInt64.ofNat_toNat, convert])⟩
  | char sz =>
    obtain ⟨s, hs, hok⟩ := Rust.bind_eq_ok.mp hok
    split at hok
    · cases hok
    · cases hok
      obtain ⟨v, hv, rfl⟩ := toStr_eq_ok hs
      refine ⟨by omega, [.str (asStr cv v ++ List.replicate (size - (asStr cv v).length) 0)],
        optionSim_of_range ?_ (List.append_assoc _ _ _) (fun data => rfl) rfl, packedValues_next hnext hv rfl⟩
      simp
      omega
  | str o =>
    cases o with
    | some sz =>
      obtain ⟨s, hs, hok⟩ := Rust.bind_eq_ok.mp hok
      split at hok
      · cases hok
      · rename_i hfit
        cases hok
        obtain ⟨v, hv, rfl⟩ := toStr_eq_ok hs
        exact ⟨by omega, [.str (asStr cv v)], optionSim_str hc.1 (not_not.mp hfit) hmax,
          packedValues_next hnext hv rfl⟩
    | none =>
      obtain ⟨s, hs, hok⟩ := Rust.bind_eq_ok.mp hok
      split at hok
      · cases hok
      · rename_i hzero
        cases hok
        obtain ⟨v, hv, rfl⟩ := toStr_eq_ok hs
        exact ⟨by omega, [.str (asStr cv v)], optionSim_zstr hzero, packedValues_next hnext hv rfl⟩
  | padding sz =>
    cases hok
    exact ⟨by omega, [], ⟨List.prefix_append _ _, by simp, fun _ _ _ => rfl⟩, fun opts tail htail => htail⟩
  | padAlign =>
    cases hok
    exact ⟨by omega, [], ⟨List.prefix_rfl, rfl, fun _ _ _ => rfl⟩, fun opts tail htail => htail⟩
  | nop =>
    cases hok
    exact ⟨by omega, [], ⟨List.prefix_rfl, rfl, fun _ _ _ => rfl⟩, fun opts tail htail => htail⟩

end Option

/-! ## Runs -/

section Run

variable (tgt : Target) (cv : Conv) (args : List LuaValue)

/-- The states the loop of `pack` goes through from `st`. -/
inductive PackReaches (st : PackState) : PackState → Prop
  | refl : PackReaches st st
  | step {st₁ st₂ : PackState} {first : Char} {fmt : List Char} (h : PackReaches st st₁)
      (hfmt : st₁.fmt = first :: fmt) (hstep : packStep tgt cv args st₁ first fmt = .ok st₂) :
      PackReaches st st₂

/-- A run of the loop of `pack` that returns `b`. -/
inductive PackRun : PackState → Bytes → Prop
  | done {st : PackState} (hfmt : st.fmt = []) : PackRun st st.b
  | step {st st' : PackState} {first : Char} {fmt : List Char} {b : Bytes} (hfmt : st.fmt = first :: fmt)
      (hstep : packStep tgt cv args st first fmt = .ok st') (h : PackRun st' b) : PackRun st b

/-- The option the loop is at does not spoil the buffer: when it is a negative integer of more than 8 bytes,
the fill of `packint` finds only `0xFF` bytes below the part it is meant for. -/
def FillStep (st : PackState) : Prop :=
  ∀ first fmt size ntoalign h rest n, st.fmt = first :: fmt →
    getdetails tgt st.h st.totalsize first fmt = .ok (.signed size, ntoalign, h, rest) →
    toInt cv args (st.next + 1) = .ok n →
    FillOk (st.b ++ List.replicate ntoalign 0) n.toUInt64 size (decide (n < 0))

variable {tgt cv args}

theorem packRun_of_packLoop {st : PackState} {b : Bytes} (h : packLoop tgt cv args st = .ok b) :
    PackRun tgt cv args st b := by
  induction st using packLoop.induct tgt cv args with
  | case1 st hfmt =>
    rw [packLoop_nil hfmt] at h
    cases h
    exact .done hfmt
  | case2 st first fmt hfmt e hstep =>
    rw [packLoop_cons hfmt, hstep] at h
    cases h
  | case3 st first fmt hfmt st' hstep ih =>
    rw [packLoop_cons hfmt, hstep] at h
    exact .step hfmt hstep (ih h)

theorem le_length_packOption {h : Header} {next size next' : Nat} {b b' : Bytes} {opt : Pack}
    (hok : packOption tgt cv args h next b opt = .ok (size, next', b')) : b.length ≤ b'.length := by
  cases opt with
  | padding | padAlign | nop => cases hok; simp
  | float | double | number =>
    obtain ⟨f, -, hok⟩ := Rust.bind_eq_ok.mp hok
    cases hok
    simp [extendWithEndian]
  | signed | unsigned | char =>
    obtain ⟨n, -, hok⟩ := Rust.bind_eq_ok.mp hok
    try dsimp only at hok
    split at hok <;> cases hok
    first | exact le_length_packint _ _ _ _ _ | simp
  | str o =>
    cases o <;> obtain ⟨s, -, hok⟩ := Rust.bind_eq_ok.mp hok <;> split at hok <;> cases hok
    · simp
    · rw [List.length_append]
      exact (le_length_packint _ _ _ _ _).trans (Nat.le_add_right _ _)

theorem PackRun.length_le {st : PackState} {b : Bytes} (hrun : PackRun tgt cv args st b) :
    st.b.length ≤ b.length := by
  induction hrun with
  | done => exact le_refl _
  | step _ hstep _ ih =>
    refine le_trans ?_ ih
    obtain ⟨⟨opt, ntoalign, h, rest⟩, -, hstep⟩ := Rust.bind_eq_ok.mp hstep
    obtain ⟨⟨size, next, b⟩, hopt, hstep⟩ := Rust.bind_eq_ok.mp hstep
    cases hstep
    have := le_length_packOption hopt
    rw [List.length_append] at this
    exact (Nat.le_add_right _ _).trans this

theorem PackRun.of_reaches {st st' : PackState} {b : Bytes} (hrun : PackRun tgt cv args st b)
    (hreach : PackReaches tgt cv args st st') : PackRun tgt cv args st' b := by
  induction hreach with
  | refl => exact hrun
  | step hreach hfmt hstep ih =>
    cases ih with
    | done hfmt' => simp_all
    | step hfmt' hstep' h =>
      rw [hfmt] at hfmt'
      cases hfmt'
      rw [hstep] at hstep'
      cases hstep'
      exact h

theorem PackReaches.trans {st st₁ st₂ : PackState} (h₁ : PackReaches tgt cv args st st₁)
    (h₂ : PackReaches tgt cv args st₁ st₂) : PackReaches tgt cv args st st₂ := by
  induction h₂ with
  | refl => exact h₁
  | step _ hfmt hstep ih => exact .step ih hfmt hstep

/-- The loop of `pack` counts the bytes of its buffer. -/
def PackState.Ok (st : PackState) : Prop := st.totalsize = st.b.length ∧ 1 ≤ st.next

/-- What one turn of the loop of `pack` says about the other two loops at the same place of the format. -/
structure StepSim (tgt : Target) (cv : Conv) (args : List LuaValue) (st st' : PackState) (first : Char)
    (fmt : List Char) (opt : Pack) (vals : List LuaValue) : Prop where
  ok : st'.Ok
  isPrefix : st.b <+: st'.b
  suffix : st'.fmt <:+ fmt
  unpackStep_eq : ∀ data fmt₀ out, st'.b <+: data → data.length ≤ isizeMax →
    unpackStep tgt cv data ⟨st.h, fmt₀, st.b.length, out⟩ first fmt =
      .ok ⟨st'.h, st'.fmt, st'.b.length, out ++ vals⟩
  sizeStep_eq : ∀ fmt₀, first ≠ 's' → first ≠ 'z' → st'.b.length ≤ 2147483647 →
    sizeStep tgt ⟨st.h, fmt₀, st.b.length⟩ first fmt = .ok ⟨st'.h, st'.fmt, st'.b.length⟩
  readOptions_eq : ∀ opts, readOptions tgt st'.h st'.fmt = .ok opts →
    readOptions tgt st.h (first :: fmt) = .ok (opt :: opts)
  packedValues_eq : ∀ opts tail, packedValues cv opts (args.drop (st'.next - 1)) = some tail →
    packedValues cv (opt :: opts) (args.drop (st.next - 1)) = some (vals ++ tail)

/-- An option that is not a string has its size in the format. -/
theorem sizeOption_eq {h : Header} {next size next' : Nat} {b b' : Bytes} {opt : Pack} {c : Char}
    (hc : opt.Ok c) (hs : c ≠ 's') (hz : c ≠ 'z')
    (hok : packOption tgt cv args h next b opt = .ok (size, next', b')) : sizeOption opt = .ok size := by
  cases opt with
  | str o => cases o with
    | some _ => exact absurd hc.2.2 hs
    | none => exact absurd hc hz
  | padding | padAlign | nop => cases hok; rfl
  | float | double | number =>
    obtain ⟨f, -, hok⟩ := Rust.bind_eq_ok.mp hok
    cases hok
    rfl
  | signed | unsigned | char =>
    obtain ⟨n, -, hok⟩ := Rust.bind_eq_ok.mp hok
    try dsimp only at hok
    split at hok <;> cases hok
    rfl

theorem packStep_sim {st st' : PackState} {first : Char} {fmt : List Char}
    (hfmt : st.fmt = first :: fmt) (hstep : packStep tgt cv args st first fmt = .ok st') (hst : st.Ok)
    (hmax : st'.b.length ≤ isizeMax) (hfill : FillStep tgt cv args st) :
    ∃ opt vals, StepSim tgt cv args st st' first fmt opt vals := by
  obtain ⟨⟨opt, ntoalign, h, rest⟩, hdet, hstep⟩ := Rust.bind_eq_ok.mp hstep
  have hdet := argError_eq_ok.mp hdet
  obtain ⟨⟨size, next, b⟩, hopt, hstep⟩ := Rust.bind_eq_ok.mp hstep
  cases hstep
  obtain ⟨htotal, hnext⟩ := hst
  obtain ⟨hc, hsuf⟩ := getdetails_spec hdet
  dsimp only at hmax hopt
  obtain ⟨hnext', vals, hsim, hvals⟩ := packOption_sim hc hopt (by omega) hmax fun sz n ho hn => by
    subst ho
    exact hfill _ _ _ _ _ _ _ hfmt hdet hn
  have hlen := hsim.length_eq
  rw [List.length_append, List.length_replicate] at hlen
  have hun := hsim.unpack_eq
  rw [List.length_append, List.length_replicate] at hun
  rw [htotal] at hdet
  refine ⟨opt, vals, ⟨by dsimp only; omega, hnext'⟩, (List.prefix_append _ _).trans hsim.isPrefix, hsuf, ?_, ?_, ?_,
    ?_⟩
  · intro data fmt₀ out hdata hdmax
    simp only [isizeMax] at hmax
    have hstart : Rust.usize (st.b.length + ntoalign) = .ok (st.b.length + ntoalign) := Rust.usize_of_lt (by omega)
    have hstop : Rust.usize (st.b.length + ntoalign + size) = .ok (st.b.length + ntoalign + size) :=
      Rust.usize_of_lt (by omega)
    simp only [unpackStep, hdet, Rust.ok_bind, hstart, hun data hdata hdmax, hstop, hlen]
  · intro fmt₀ hs hz hmax
    have hsize := sizeOption_eq hc hs hz hopt
    dsimp only at hmax
    simp only [sizeStep, hdet, argError, Rust.ok_bind, hsize]
    rw [if_neg (by omega), Nat.mod_eq_of_lt (by omega), hlen]
    congr 2
    omega
  · intro opts hrest
    obtain ⟨⟨opt₁, h₁, fmt₁⟩, hgo, hdet⟩ := Rust.bind_eq_ok.mp hdet
    obtain ⟨⟨align, h₂, fmt₂⟩, hal, hdet⟩ := Rust.bind_eq_ok.mp hdet
    obtain ⟨n, -, hdet⟩ := Rust.bind_eq_ok.mp hdet
    cases hdet
    exact readOptions_cons hgo hal hrest
  · intro opts tail htail
    exact hvals opts tail htail

/-- A run of `pack` and the runs of the other two functions over the rest of the format. -/
theorem PackRun.sim {st : PackState} {b : Bytes} (hrun : PackRun tgt cv args st b) (hst : st.Ok)
    (hmax : b.length ≤ isizeMax) (hfill : ∀ st', PackReaches tgt cv args st st' → FillStep tgt cv args st') :
    st.b <+: b ∧
      (∃ opts vals, readOptions tgt st.h st.fmt = .ok opts ∧
        packedValues cv opts (args.drop (st.next - 1)) = some vals ∧
        ∀ out, unpackLoop tgt cv b ⟨st.h, st.fmt, st.b.length, out⟩ =
          .ok (out ++ vals ++ [.int (Int64.ofNat (b.length + 1))])) ∧
      ('s' ∉ st.fmt → 'z' ∉ st.fmt → b.length ≤ 2147483647 →
        sizeLoop tgt ⟨st.h, st.fmt, st.b.length⟩ = .ok b.length) := by
  induction hrun with
  | @done st hfmt =>
    refine ⟨List.prefix_rfl, ⟨[], [], by rw [hfmt, readOptions_nil], rfl, fun out => ?_⟩, fun _ _ _ => ?_⟩
    · simp only [isizeMax] at hmax
      rw [unpackLoop_nil hfmt, List.append_nil, Rust.usize_of_lt (by dsimp only; omega)]
      rfl
    · rw [sizeLoop_nil hfmt]
  | @step st st' first fmt b hfmt hstep hrun ih =>
    have hlen := hrun.length_le
    obtain ⟨opt, vals, hsim⟩ := packStep_sim hfmt hstep hst (hlen.trans hmax) (hfill _ .refl)
    obtain ⟨hpre, ⟨opts, tail, hopts, htail, hun⟩, hsize⟩ := ih hsim.ok hmax
      fun st₂ h => hfill _ ((PackReaches.refl.step hfmt hstep).trans h)
    refine ⟨hsim.isPrefix.trans hpre, ⟨opt :: opts, vals ++ tail, ?_, hsim.packedValues_eq _ _ htail,
      fun out => ?_⟩, fun hs hz hb => ?_⟩
    · rw [hfmt]
      exact hsim.readOptions_eq _ hopts
    · rw [unpackLoop_step _ hfmt (hsim.unpackStep_eq _ _ _ hpre hmax), hun, List.append_assoc out]
    · rw [hfmt, List.mem_cons, not_or] at hs hz
      rw [sizeLoop_step _ hfmt
        (hsim.sizeStep_eq _ (Ne.symm hs.1) (Ne.symm hz.1) (hpre.length_le.trans hb))]
      exact hsize (fun h => hs.2 (hsim.suffix.subset h)) (fun h => hz.2 (hsim.suffix.subset h)) hb

theorem PackRun.ok_of_reaches {st st' : PackState} {b : Bytes} (hrun : PackRun tgt cv args st b) (hst : st.Ok)
    (hmax : b.length ≤ isizeMax) (hfill : ∀ st', PackReaches tgt cv args st st' → FillStep tgt cv args st')
    (hreach : PackReaches tgt cv args st st') : st'.Ok := by
  induction hreach with
  | refl => exact hst
  | step hreach hfmt hstep ih =>
    have hlen := (hrun.of_reaches (hreach.step hfmt hstep)).length_le
    obtain ⟨opt, vals, hsim⟩ := packStep_sim hfmt hstep ih (hlen.trans hmax) (hfill _ hreach)
    exact hsim.ok

end Run

/-! ## The round trip -/

theorem reaches_of_pack {tgt : Target} {cv : Conv} {args : List LuaValue} {fmt : List Char} {packed : LStr}
    (hpack : pack tgt cv args fmt = .ok packed) : PackRun tgt cv args (.init tgt fmt) packed.bytes := by
  obtain ⟨b, hloop, halloc⟩ := Rust.bind_eq_ok.mp hpack
  rw [Rust.alloc_eq_ok halloc]
  exact packRun_of_packLoop hloop

/-- `unpack` of what `pack` returned gives the packed values in order and the position after the last byte;
no option alters a byte that is already in the buffer; `packsize` gives the length where it is a number the
format determines and that fits a `c_int`. -/
theorem unpack_pack (tgt : Target) (cv : Conv) (args : List LuaValue) (fmt : List Char) (packed : LStr)
    (hpack : pack tgt cv args fmt = .ok packed)
    (hfill : ∀ st, PackReaches tgt cv args (.init tgt fmt) st → FillStep tgt cv args st) :
    (∃ opts vals, readOptions tgt (.new tgt) (fmt.takeWhile (· ≠ '\x00')) = .ok opts ∧
      packedValues cv opts args = some vals ∧
      unpack tgt cv fmt packed (some 1) =
        .ok (vals ++ [.int (Int64.ofNat (packed.bytes.length + 1))])) ∧
    (∀ st, PackReaches tgt cv args (.init tgt fmt) st → st.b <+: packed.bytes) ∧
    ('s' ∉ fmt → 'z' ∉ fmt → packed.bytes.length ≤ 2147483647 →
      packsize tgt fmt = .ok (Int64.ofNat packed.bytes.length)) := by
  have hrun := reaches_of_pack hpack
  obtain ⟨-, ⟨opts, vals, hopts, hvals, hun⟩, hsize⟩ := hrun.sim ⟨rfl, le_refl _⟩ packed.length_le hfill
  have hsub : ∀ {c}, c ∉ fmt → c ∉ (PackState.init tgt fmt).fmt := fun hc h =>
    hc ((List.takeWhile_prefix _).subset h)
  refine ⟨⟨opts, vals, hopts, hvals, ?_⟩, ?_, fun hs hz hb => ?_⟩
  · rw [unpack, show posrelatI ((some 1).getD 1) (Int64.ofNat packed.bytes.length) = .ok 1 from rfl, Rust.ok_bind,
      if_neg (by omega)]
    exact hun []
  · intro st hreach
    exact ((hrun.of_reaches hreach).sim (hrun.ok_of_reaches ⟨rfl, le_refl _⟩ packed.length_le hfill hreach)
      packed.length_le fun st' h => hfill st' (hreach.trans h)).1
  · have hloop : sizeLoop tgt ⟨.new tgt, fmt.takeWhile (· ≠ '\x00'), 0⟩ = .ok packed.bytes.length :=
      hsize (hsub hs) (hsub hz) hb
    rw [packsize, hloop]
    rfl

/-! ### Concrete runs -/

/-- An LP64 little-endian target. -/
def lp64 : Target := ⟨true, 8, .inr rfl⟩

/-- Conversions that know one numeral, `"1"`. -/
def oneConv : Conv where
  tointeger v := if v = .str [49] then some 1 else none
  tonumber _ := none
  convertStr _ := []
  toFloat _ := 0
  ofFloat _ := 0

theorem packStep_char {tgt : Target} {cv : Conv} {args : List LuaValue} {st : PackState} {first : Char}
    {fmt rest : List Char} {h : Header} {size : Nat}
    (hdet : getdetails tgt st.h st.totalsize first fmt = .ok (.char size, 0, h, rest))
    (harg : toStr cv args (st.next + 1) = .ok []) :
    packStep tgt cv args st first fmt =
      .ok ⟨h, rest, st.next + 1, st.totalsize + size, st.b ++ List.replicate size 0⟩ := by
  simp [packStep, hdet, argError, packOption, harg]

/-- A numeral given for an integer comes back as the integer. A negative 16-byte integer after another one
spoils the other. `packsize` rejects a total above the largest `c_int`. -/
theorem unpack_pack_fails :
    (∃ packed, pack lp64 oneConv [.str [49]] ['b'] = .ok packed ∧
      unpack lp64 oneConv ['b'] packed (some 1) = .ok [.int 1, .int 2]) ∧
    (∃ packed, pack lp64 oneConv [.int 1, .int (-1)] "i16i16".toList = .ok packed ∧
      unpack lp64 oneConv "i16i16".toList packed (some 1) =
        .error (.arg 2 "16-byte integer does not fit into Lua Integer")) ∧
    (∃ packed, pack lp64 oneConv [.str [], .str []] "c2147483639c9".toList = .ok packed ∧
      packsize lp64 "c2147483639c9".toList = .error (.arg 1 "format result too large")) := by
  refine ⟨⟨⟨[1], by decide⟩, ?_, ?_⟩, ⟨⟨1 :: List.replicate 7 0 ++ List.replicate 24 255, by decide⟩, ?_, ?_⟩,
    ⟨⟨List.replicate 2147483639 0 ++ List.replicate 9 0, by
      rw [List.length_append, List.length_replicate, List.length_replicate, isizeMax]; norm_num⟩, ?_, ?_⟩⟩
  · rw [pack, packLoop_step ⟨⟨true, 1⟩, [], 2, 1, [1]⟩ rfl (by decide), packLoop_nil rfl]
    rfl
  · rw [unpack, show posrelatI ((some 1).getD 1) _ = .ok 1 from rfl, Rust.ok_bind, if_neg (by decide),
      unpackLoop_step ⟨⟨true, 1⟩, [], 1, [.int 1]⟩ rfl (by decide), unpackLoop_nil rfl]
    rfl
  · rw [pack, packLoop_step ⟨⟨true, 1⟩, "i16".toList, 2, 16, 1 :: List.replicate 15 0⟩ rfl (by decide),
      packLoop_step ⟨⟨true, 1⟩, [], 3, 32, 1 :: List.replicate 7 0 ++ List.replicate 24 255⟩ rfl (by decide),
      packLoop_nil rfl]
    rfl
  · have hstep : unpackStep lp64 oneConv (1 :: List.replicate 7 0 ++ List.replicate 24 255)
        ⟨⟨true, 1⟩, "i16i16".toList, 0, []⟩ 'i' "16i16".toList =
          .error (.arg 2 "16-byte integer does not fit into Lua Integer") := by decide
    rw [unpack, show posrelatI ((some 1).getD 1) _ = .ok 1 from rfl, Rust.ok_bind, if_neg (by decide)]
    exact unpackLoop_error (rfl : _ = 'i' :: "16i16".toList) hstep
  · have hinit : PackState.init lp64 "c2147483639c9".toList =
        ⟨⟨true, 1⟩, 'c' :: "2147483639c9".toList, 1, 0, []⟩ := by decide
    have hdet : getdetails lp64 ⟨true, 1⟩ 0 'c' "2147483639c9".toList =
        .ok (.char 2147483639, 0, ⟨true, 1⟩, ['c', '9']) := by decide
    have hdet' : getdetails lp64 ⟨true, 1⟩ (0 + 2147483639) 'c' ['9'] =
        .ok (.char 9, 0, ⟨true, 1⟩, []) := by decide
    rw [pack, hinit, packLoop_step _ rfl (packStep_char hdet rfl),
      packLoop_step _ rfl (packStep_char hdet' rfl), packLoop_nil rfl, Rust.ok_bind]
    exact Rust.alloc_of_le _
  · have hinit : (⟨.new lp64, "c2147483639c9".toList.takeWhile (· ≠ '\x00'), 0⟩ : SizeState) =
        ⟨⟨true, 1⟩, 'c' :: "2147483639c9".toList, 0⟩ := by decide
    have hstep : sizeStep lp64 ⟨⟨true, 1⟩, ['c', '9'], 2147483639⟩ 'c' ['9'] =
        .error (.arg 1 "format result too large") := by decide
    rw [packsize, hinit, sizeLoop_step ⟨⟨true, 1⟩, ['c', '9'], 2147483639⟩ rfl (by decide),
      sizeLoop_cons rfl, hstep, Rust.error_bind, Rust.error_bind]

/-- A run with a step of the loop: it is there, or goes on from the next state. -/
theorem PackReaches.of_step {tgt : Target} {cv : Conv} {args : List LuaValue} {st st' st₁ : PackState} {first : Char}
    {fmt : List Char} (h : PackReaches tgt cv args st st₁) (hfmt : st.fmt = first :: fmt)
    (hstep : packStep tgt cv args st first fmt = .ok st') : st₁ = st ∨ PackReaches tgt cv args st' st₁ := by
  induction h with
  | refl => exact .inl rfl
  | step h hfmt' hstep' ih =>
    rcases ih with rfl | hreach
    · cases hfmt.symm.trans hfmt'
      cases Except.ok.inj (hstep.symm.trans hstep')
      exact .inr .refl
    · exact .inr (hreach.step hfmt' hstep')

theorem PackReaches.of_nil {tgt : Target} {cv : Conv} {args : List LuaValue} {st st₁ : PackState}
    (h : PackReaches tgt cv args st st₁) (hfmt : st.fmt = []) : st₁ = st := by
  induction h with
  | refl => rfl
  | step h hfmt' _ ih =>
    rw [ih, hfmt] at hfmt'
    cases hfmt'

/-- A negative 16-byte integer at the start of the buffer, and then a number and a string in the other order of bytes,
come back. -/
theorem unpack_pack_mixed :
    (∃ opts vals, readOptions lp64 (.new lp64) ("i16>i2s1".toList.takeWhile (· ≠ '\x00')) = .ok opts ∧
      packedValues oneConv opts [.int (-1), .int 258, .str [104, 105]] = some vals ∧
      unpack lp64 oneConv "i16>i2s1".toList ⟨List.replicate 16 255 ++ [1, 2, 2, 104, 105], by decide⟩ (some 1) =
        .ok (vals ++ [.int (Int64.ofNat 22)])) ∧
    (∀ st, PackReaches lp64 oneConv [.int (-1), .int 258, .str [104, 105]] (.init lp64 "i16>i2s1".toList) st →
      st.b <+: List.replicate 16 255 ++ [1, 2, 2, 104, 105]) ∧
    ('s' ∉ "i16>i2s1".toList → 'z' ∉ "i16>i2s1".toList → 21 ≤ 2147483647 →
      packsize lp64 "i16>i2s1".toList = .ok (Int64.ofNat 21)) := by
  let args : List LuaValue := [.int (-1), .int 258, .str [104, 105]]
  let long : Bytes := List.replicate 16 255
  have hlong : packStep lp64 oneConv args (.init lp64 "i16>i2s1".toList) 'i' "16>i2s1".toList =
      .ok ⟨⟨true, 1⟩, ">i2s1".toList, 2, 16, long⟩ := by decide
  have horder : packStep lp64 oneConv args ⟨⟨true, 1⟩, ">i2s1".toList, 2, 16, long⟩ '>' "i2s1".toList =
      .ok ⟨⟨false, 1⟩, "i2s1".toList, 2, 16, long⟩ := by decide
  have hshort : packStep lp64 oneConv args ⟨⟨false, 1⟩, "i2s1".toList, 2, 16, long⟩ 'i' "2s1".toList =
      .ok ⟨⟨false, 1⟩, "s1".toList, 3, 18, long ++ [1, 2]⟩ := by decide
  have hstring : packStep lp64 oneConv args ⟨⟨false, 1⟩, "s1".toList, 3, 18, long ++ [1, 2]⟩ 's' "1".toList =
      .ok ⟨⟨false, 1⟩, [], 4, 21, long ++ [1, 2, 2, 104, 105]⟩ := by decide
  refine unpack_pack lp64 oneConv args "i16>i2s1".toList ⟨long ++ [1, 2, 2, 104, 105], by decide⟩ ?_ ?_
  · rw [pack, packLoop_step _ rfl hlong, packLoop_step _ rfl horder, packLoop_step _ rfl hshort,
      packLoop_step _ rfl hstring, packLoop_nil rfl]
    rfl
  · intro st h first fmt size ntoalign hd rest n hfmt hdet hn
    rcases h.of_step rfl hlong with rfl | h
    · cases hfmt
      have : getdetails lp64 ⟨true, 1⟩ 0 'i' "16>i2s1".toList = .ok (.signed 16, 0, ⟨true, 1⟩, ">i2s1".toList) := by
        decide
      cases this.symm.trans hdet
      exact fillOk_nil _ _ _
    rcases h.of_step rfl horder with rfl | h
    · cases hfmt
      have : getdetails lp64 ⟨true, 1⟩ 16 '>' "i2s1".toList = .ok (.nop, 0, ⟨false, 1⟩, "i2s1".toList) := by decide
      cases this.symm.trans hdet
    rcases h.of_step rfl hshort with rfl | h
    · cases hn
      exact fillOk_of_nonneg _ _ _
    rcases h.of_step rfl hstring with rfl | h
    · cases hfmt
      have : getdetails lp64 ⟨false, 1⟩ 18 's' "1".toList = .ok (.str (some 1), 0, ⟨false, 1⟩, []) := by decide
      cases this.symm.trans hdet
    · rw [h.of_nil rfl] at hfmt
      cases hfmt

end Tsuki.Str
