import Tsuki.Rust
import Tsuki.Lib.ByteDigits

/-!
# `string.pack`, `string.packsize` and `string.unpack`

The three functions read one format language through `Header::getdetails`. A format is the list of
characters of a UTF-8 string; reading it consumes a prefix, so every reader returns what is left.

The native byte order and the size of `c_long` belong to the target. The conversions of an argument that
is not already of the wanted type (`luaV_tointeger`, `luaV_tonumber_`, `convert_str`) and the two float
casts are parameters: nothing proved here depends on them.
-/

namespace Tsuki.Str

open ByteDigits

/-- The compilation target: `cfg!(target_endian = "little")` and the size of `c_long`. -/
structure Target where
  littleEndian : Bool
  sizeofLong : Nat
  sizeofLong_eq : sizeofLong = 4 ∨ sizeofLong = 8

/-- The values the functions take and return; a float is its bit pattern. -/
inductive LuaValue
  | nil
  | boolean (b : Bool)
  | int (n : Int64)
  | float (bits : UInt64)
  | str (s : Bytes)
  | other
  deriving DecidableEq, Repr

/-- The conversions of arguments and the float casts. -/
structure Conv where
  /-- `luaV_tointeger(raw, F2Ieq)` of a value that is not an integer. -/
  tointeger : LuaValue → Option Int64
  /-- `luaV_tonumber_` of a value that is not a float. -/
  tonumber : LuaValue → Option UInt64
  /-- The text of a number. -/
  convertStr : LuaValue → Bytes
  /-- `f as c_float`. -/
  toFloat : UInt64 → UInt32
  /-- The double of a `c_float`. -/
  ofFloat : UInt32 → UInt64

/-! ## Arguments -/

section Args

variable (cv : Conv) (args : List LuaValue)

/-- `Arg::to_int`. Argument 1 is the format and `args` are the arguments after it. -/
def toInt (n : Nat) : Rust Int64 :=
  match args[n - 2]? with
  | none => .error (.argType n "number")
  | some (.int i) => .ok i
  | some v =>
    match cv.tointeger v with
    | some i => .ok i
    | none =>
      match v with
      | .float _ => .error (.arg n "number has no integer representation")
      | _ => .error (.argType n "number")

def toFloat (n : Nat) : Rust UInt64 :=
  match args[n - 2]? with
  | none => .error (.argType n "number")
  | some (.float f) => .ok f
  | some v =>
    match cv.tonumber v with
    | some f => .ok f
    | none => .error (.argType n "number")

def toStr (n : Nat) : Rust Bytes :=
  match args[n - 2]? with
  | none => .error (.argType n "string")
  | some (.str s) => .ok s
  | some (.int i) => .ok (cv.convertStr (.int i))
  | some (.float f) => .ok (cv.convertStr (.float f))
  | some _ => .error (.argType n "string")

end Args

/-! ## The format language -/

/-- `struct Header`. -/
structure Header where
  islittle : Bool
  maxalign : Nat
  deriving DecidableEq, Repr

/-- `enum Pack`. -/
inductive Pack
  | signed (size : Nat)
  | unsigned (size : Nat)
  | float
  | double
  | number
  | char (size : Nat)
  | str (size : Option Nat)
  | padding (size : Nat)
  | padAlign
  | nop
  deriving DecidableEq, Repr

/-- The digits `Header::getnum` adds to `a`; it stops before a digit that could overflow a `c_int`. -/
def getnumLoop (a : Nat) : List Char → Nat × List Char
  | [] => (a, [])
  | c :: fmt =>
    if c.isDigit ∧ a ≤ (2147483647 - 9) / 10 then getnumLoop (a * 10 + (c.toNat - '0'.toNat)) fmt
    else (a, c :: fmt)

def getnum : List Char → Option Nat × List Char
  | [] => (none, [])
  | c :: fmt =>
    if c.isDigit then
      let (a, rest) := getnumLoop (c.toNat - '0'.toNat) fmt
      (some a, rest)
    else (none, c :: fmt)

def getnumlimit (fmt : List Char) (df : Nat) : Rust (Nat × List Char) :=
  let (num, rest) := getnum fmt
  let sz := num.getD df
  if sz > 16 ∨ sz ≤ 0 then .error (.msg ("integral size (" ++ toString sz ++ ") out of limits [1,16]"))
  else .ok (sz, rest)

/-- `Header::getoption`: the option, the header after it, and the rest of the format. -/
def getoption (tgt : Target) (h : Header) (opt : Char) (fmt : List Char) :
    Rust (Pack × Header × List Char) :=
  match opt with
  | 'b' => .ok (.signed 1, h, fmt)
  | 'B' => .ok (.unsigned 1, h, fmt)
  | 'h' => .ok (.signed 2, h, fmt)
  | 'H' => .ok (.unsigned 2, h, fmt)
  | 'l' => .ok (.signed tgt.sizeofLong, h, fmt)
  | 'L' => .ok (.unsigned tgt.sizeofLong, h, fmt)
  | 'j' => .ok (.signed 8, h, fmt)
  | 'J' => .ok (.unsigned 8, h, fmt)
  | 'T' => .ok (.unsigned 8, h, fmt)
  | 'f' => .ok (.float, h, fmt)
  | 'n' => .ok (.number, h, fmt)
  | 'd' => .ok (.double, h, fmt)
  | 'i' => (getnumlimit fmt 4).map fun (v, rest) => (.signed v, h, rest)
  | 'I' => (getnumlimit fmt 4).map fun (v, rest) => (.unsigned v, h, rest)
  | 's' => (getnumlimit fmt 8).map fun (v, rest) => (.str (some v), h, rest)
  | 'c' =>
    match getnum fmt with
    | (some v, rest) => .ok (.char v, h, rest)
    | (none, _) => .error (.msg "missing size for format option 'c'")
  | 'z' => .ok (.str none, h, fmt)
  | 'x' => .ok (.padding 1, h, fmt)
  | 'X' => .ok (.padAlign, h, fmt)
  | ' ' => .ok (.nop, h, fmt)
  | '<' => .ok (.nop, { h with islittle := true }, fmt)
  | '>' => .ok (.nop, { h with islittle := false }, fmt)
  | '=' => .ok (.nop, { h with islittle := tgt.littleEndian }, fmt)
  | '!' => (getnumlimit fmt 8).map fun (v, rest) => (.nop, { h with maxalign := v }, rest)
  | _ => .error (.msg ("invalid format option '" ++ opt.toString ++ "'"))

/-- The alignment of an option that is not `X`. -/
def Pack.align : Pack → Nat
  | .signed v | .unsigned v | .char v | .padding v => v
  | .float => 4
  | .double | .number => 8
  | .str v => v.getD 0
  | .padAlign | .nop => 0

/-- The alignment option `X` takes from the option after it; `none` where that option has none. -/
def Pack.alignOfNext : Pack → Option Nat
  | .signed v | .unsigned v | .str (some v) | .padding v => if v ≠ 0 then some v else none
  | .float => some 4
  | .double | .number => some 8
  | .char _ | .str none | .padAlign | .nop => none

/-- The padding before an option of alignment `align` at offset `totalsize`. -/
def ntoalignOf (h : Header) (opt : Pack) (align totalsize : Nat) : Rust Nat :=
  if align ≤ 1 ∨ opt matches .char _ then .ok 0
  else
    let align := if align > h.maxalign then h.maxalign else align
    if align &&& (align - 1) ≠ 0 then .error (.msg "format asks for alignment not power of 2")
    else .ok ((align - (totalsize &&& (align - 1))) &&& (align - 1))

/-- The alignment `Header::getdetails` starts from. Option `X` reads it off the option after it, whose own
effect on the header stays. -/
def alignOf (tgt : Target) (h : Header) (opt : Pack) (fmt : List Char) :
    Rust (Nat × Header × List Char) :=
  match opt, fmt with
  | .padAlign, [] => .error (.msg "invalid next option for option 'X'")
  | .padAlign, c :: fmt =>
    getoption tgt h c fmt >>= fun (next, h, fmt) =>
      match next.alignOfNext with
      | some v => .ok (v, h, fmt)
      | none => .error (.msg "invalid next option for option 'X'")
  | opt, fmt => .ok (opt.align, h, fmt)

/-- `Header::getdetails`: the option that starts with `first`, its padding at offset `totalsize`, the
header after it, and the rest of the format. -/
def getdetails (tgt : Target) (h : Header) (totalsize : Nat) (first : Char) (fmt : List Char) :
    Rust (Pack × Nat × Header × List Char) := do
  let (opt, h, fmt) ← getoption tgt h first fmt
  let (align, h, fmt) ← alignOf tgt h opt fmt
  let ntoalign ← ntoalignOf h opt align totalsize
  .ok (opt, ntoalign, h, fmt)

def Header.new (tgt : Target) : Header := ⟨tgt.littleEndian, 1⟩

/-! ### Reading consumes the format -/

theorem getnumLoop_suffix (a : Nat) (fmt : List Char) : (getnumLoop a fmt).2 <:+ fmt := by
  induction fmt generalizing a with
  | nil => exact List.suffix_rfl
  | cons c fmt ih =>
    rw [getnumLoop]
    split
    · exact (ih _).trans (List.suffix_cons c fmt)
    · exact List.suffix_rfl

theorem getnum_suffix (fmt : List Char) : (getnum fmt).2 <:+ fmt := by
  cases fmt with
  | nil => exact List.suffix_rfl
  | cons c fmt =>
    rw [getnum]
    split
    · exact (getnumLoop_suffix _ _).trans (List.suffix_cons c fmt)
    · exact List.suffix_rfl

theorem getnumlimit_eq_ok {fmt : List Char} {df v : Nat} {rest : List Char}
    (h : getnumlimit fmt df = .ok (v, rest)) : 1 ≤ v ∧ v ≤ 16 ∧ rest <:+ fmt := by
  have hsuf := getnum_suffix fmt
  unfold getnumlimit at h
  revert h hsuf
  generalize getnum fmt = p
  intro h hsuf
  simp only at h
  split at h
  · cases h
  · cases h
    exact ⟨by omega, by omega, hsuf⟩

/-- The sizes an option can have, and the characters a string option starts with. -/
def Pack.Ok (c : Char) : Pack → Prop
  | .signed v | .unsigned v => 1 ≤ v ∧ v ≤ 16
  | .str (some v) => 1 ≤ v ∧ v ≤ 16 ∧ c = 's'
  | .str none => c = 'z'
  | .padding v => v = 1
  | _ => True

theorem getoption_spec {tgt : Target} {h h' : Header} {c : Char} {fmt rest : List Char} {opt : Pack}
    (hok : getoption tgt h c fmt = .ok (opt, h', rest)) : opt.Ok c ∧ rest <:+ fmt := by
  have hlong := tgt.sizeofLong_eq
  have hmap : ∀ {β : Type} {df : Nat} {f : Nat × List Char → β} {r : β},
      (getnumlimit fmt df).map f = .ok r →
        ∃ v rest, 1 ≤ v ∧ v ≤ 16 ∧ rest <:+ fmt ∧ f (v, rest) = r := by
    intro β df f r hr
    cases hg : getnumlimit fmt df with
    | error e => rw [hg] at hr; cases hr
    | ok p =>
      rw [hg] at hr
      have hg : getnumlimit fmt df = .ok (p.1, p.2) := hg
      obtain ⟨h1, h2, h3⟩ := getnumlimit_eq_ok hg
      exact ⟨p.1, p.2, h1, h2, h3, Except.ok.inj hr⟩
  have hsuf := getnum_suffix fmt
  unfold getoption at hok
  split at hok
  case h_13 | h_14 | h_15 | h_24 =>
    obtain ⟨v, r, h1, h2, h3, h4⟩ := hmap hok
    cases h4
    first
      | exact ⟨⟨h1, h2⟩, h3⟩
      | exact ⟨⟨h1, h2, rfl⟩, h3⟩
      | exact ⟨trivial, h3⟩
  case h_16 =>
    split at hok
    · rename_i heq
      cases hok
      rw [heq] at hsuf
      exact ⟨trivial, hsuf⟩
    · cases hok
  all_goals first
    | (cases hok; exact ⟨by simp only [Pack.Ok] <;> omega, List.suffix_rfl⟩)
    | cases hok

theorem alignOf_suffix {tgt : Target} {h h' : Header} {opt : Pack} {fmt rest : List Char} {align : Nat}
    (hok : alignOf tgt h opt fmt = .ok (align, h', rest)) : rest <:+ fmt := by
  unfold alignOf at hok
  split at hok
  · cases hok
  · rename_i c fmt₀
    obtain ⟨⟨next, h₁, fmt₁⟩, hnext, hok⟩ := Rust.bind_eq_ok.mp hok
    have hsuf := (getoption_spec hnext).2
    dsimp only at hok
    split at hok
    · cases hok
      exact hsuf.trans (List.suffix_cons c fmt₀)
    · cases hok
  · cases hok
    exact List.suffix_rfl

theorem getdetails_spec {tgt : Target} {h h' : Header} {total : Nat} {c : Char} {fmt rest : List Char}
    {opt : Pack} {ntoalign : Nat} (hok : getdetails tgt h total c fmt = .ok (opt, ntoalign, h', rest)) :
    opt.Ok c ∧ rest <:+ fmt := by
  obtain ⟨⟨opt₁, h₁, fmt₁⟩, hopt, hok⟩ := Rust.bind_eq_ok.mp hok
  obtain ⟨⟨align, h₂, fmt₂⟩, hal, hok⟩ := Rust.bind_eq_ok.mp hok
  obtain ⟨n, -, hok⟩ := Rust.bind_eq_ok.mp hok
  cases hok
  obtain ⟨hopt, hsuf⟩ := getoption_spec hopt
  exact ⟨hopt, (alignOf_suffix hal).trans hsuf⟩

/-! ## Integers -/

/-- The bytes `packint` pushes after the first. -/
def packintLoop (b : Bytes) (n : UInt64) : Nat → Bytes
  | 0 => b
  | i + 1 => packintLoop (b ++ [((n >>> 8) &&& 0xFF).toUInt8]) (n >>> 8) i

/-- `packint`. The fill for a negative integer starts at byte 8 of the whole buffer. -/
def packint (b : Bytes) (n : UInt64) (little : Bool) (size : Nat) (neg : Bool) : Bytes :=
  let o := b.length
  let b := packintLoop (b ++ [(n &&& 0xFF).toUInt8]) n (size - 1)
  let b := if neg ∧ size > 8 then b.take 8 ++ List.replicate (b.length - 8) 0xFF else b
  if little then b else b.take o ++ (b.drop o).reverse

/-- `str[if islittle { i } else { size - 1 - i }]`. -/
def byteAt (str : Bytes) (islittle : Bool) (i : Nat) : Rust UInt8 :=
  if islittle then idx str i else Rust.usub str.length 1 >>= fun k => Rust.usub k i >>= idx str

/-- The loop that reads the word. -/
def readWord (str : Bytes) (islittle : Bool) (res : UInt64) : List Nat → Rust UInt64
  | [] => .ok res
  | i :: is => do
    let b ← byteAt str islittle i
    readWord str islittle ((res <<< 8) ||| b.toUInt64) is

/-- The loop over the bytes above the word. -/
def checkFill (str : Bytes) (islittle : Bool) (mask : UInt8) : List Nat → Rust Unit
  | [] => .ok ()
  | i :: is => do
    let b ← byteAt str islittle i
    if b ≠ mask then .error (.msg (toString str.length ++ "-byte integer does not fit into Lua Integer"))
    else checkFill str islittle mask is

def unpackint (str : Bytes) (islittle issigned : Bool) : Rust Int64 := do
  let size := str.length
  let limit := if size ≤ 8 then size else 8
  let res ← readWord str islittle 0 (List.range limit).reverse
  if size < 8 then
    if issigned then do
      let k ← Rust.usub (size * 8) 1
      let mask ← Rust.shl 1 k
      return ((res ^^^ mask) - mask).toInt64
    else return res.toInt64
  else do
    let mask : UInt8 := if !issigned ∨ 0 ≤ res.toInt64 then 0 else 0xFF
    checkFill str islittle mask (List.range' limit (size - limit))
    return res.toInt64

/-- `extend_with_endian` of the native bytes of a word: the native order cancels. -/
def extendWithEndian (tgt : Target) (b : Bytes) (width n : Nat) (islittle : Bool) : Bytes :=
  let ne := if tgt.littleEndian then leBytes width n else (leBytes width n).reverse
  b ++ if islittle = tgt.littleEndian then ne else ne.reverse

/-- `from_ne_bytes`, after the reversal `unpack` does for the other byte order. -/
def fromBytes (tgt : Target) (data : Bytes) (islittle : Bool) : Nat :=
  let data := if islittle = tgt.littleEndian then data else data.reverse
  let le := if tgt.littleEndian then data else data.reverse
  ofBytes le

/-- `map_err(|e| arg.error(e))`. -/
def argError {α : Type} (n : Nat) : Rust α → Rust α
  | .error (.msg text) => .error (.arg n text)
  | r => r

/-! ## `string.pack` -/

/-- The variables of the loop of `pack`; `fmt` is what is left of the format. -/
structure PackState where
  h : Header
  fmt : List Char
  next : Nat
  totalsize : Nat
  b : Bytes
  deriving DecidableEq, Repr

section Pack

variable (tgt : Target) (cv : Conv) (args : List LuaValue)

/-- The body of `match opt` in `pack`: the size to add, the index of the last argument used, the buffer. -/
def packOption (h : Header) (next : Nat) (b : Bytes) : Pack → Rust (Nat × Nat × Bytes)
  | .signed size => do
    let n ← toInt cv args next
    let lim : Int := 2 ^ (size * 8 - 1)
    if size < 8 ∧ ¬(-lim ≤ n.toInt ∧ n.toInt < lim) then .error (.arg next "integer overflow")
    else .ok (size, next, packint b n.toUInt64 h.islittle size (n < 0))
  | .unsigned size => do
    let n ← toInt cv args next
    if size < 8 ∧ ¬n.toUInt64.toNat < 2 ^ (size * 8) then .error (.arg next "unsigned overflow")
    else .ok (size, next, packint b n.toUInt64 h.islittle size false)
  | .float => do
    let f ← toFloat cv args next
    .ok (4, next, extendWithEndian tgt b 4 (cv.toFloat f).toNat h.islittle)
  | .double => do
    let f ← toFloat cv args next
    .ok (8, next, extendWithEndian tgt b 8 f.toNat h.islittle)
  | .number => do
    let f ← toFloat cv args next
    .ok (8, next, extendWithEndian tgt b 8 f.toNat h.islittle)
  | .char size => do
    let s ← toStr cv args next
    if s.length > size then .error (.arg next "string longer than given size")
    else .ok (size, next, b ++ s ++ List.replicate (size - s.length) 0)
  | .str (some size) => do
    let s ← toStr cv args next
    if ¬(size ≥ 8 ∨ s.length < 2 ^ (size * 8)) then
      .error (.arg next "string length does not fit in given size")
    else .ok (size + s.length, next, packint b (.ofNat s.length) h.islittle size false ++ s)
  | .str none => do
    let s ← toStr cv args next
    if 0 ∈ s then .error (.arg next "string contains zeros")
    else .ok (s.length + 1, next, b ++ s ++ [0])
  | .padding size => .ok (size, next - 1, b ++ List.replicate size 0)
  | .padAlign | .nop => .ok (0, next - 1, b)

/-- One turn of the loop of `pack`, `first` taken off the format. -/
def packStep (st : PackState) (first : Char) (fmt : List Char) : Rust PackState := do
  let (opt, ntoalign, h, fmt) ← argError 1 (getdetails tgt st.h st.totalsize first fmt)
  let b := st.b ++ List.replicate ntoalign 0
  let next := st.next + 1
  let totalsize := st.totalsize + ntoalign
  let (size, next, b) ← packOption tgt cv args h next b opt
  .ok { h, fmt, next, totalsize := totalsize + size, b }

theorem argError_eq_ok {α : Type} {n : Nat} {r : Rust α} {a : α} : argError n r = .ok a ↔ r = .ok a := by
  unfold argError
  split <;> simp

variable {tgt cv args} in
theorem packStep_length {st st' : PackState} {first : Char} {fmt : List Char}
    (h : packStep tgt cv args st first fmt = .ok st') : st'.fmt.length ≤ fmt.length := by
  obtain ⟨⟨opt, ntoalign, h₁, rest⟩, hdet, h⟩ := Rust.bind_eq_ok.mp h
  obtain ⟨⟨size, next, b⟩, -, h⟩ := Rust.bind_eq_ok.mp h
  cases h
  exact (getdetails_spec (argError_eq_ok.mp hdet)).2.length_le

/-- The loop of `pack`. -/
def packLoop (st : PackState) : Rust Bytes :=
  match _hfmt : st.fmt with
  | [] => .ok st.b
  | first :: fmt =>
    match _hstep : packStep tgt cv args st first fmt with
    | .error e => .error e
    | .ok st' => packLoop st'
termination_by st.fmt.length
decreasing_by
  have := packStep_length _hstep
  simp only [_hfmt, List.length_cons]
  omega

section

variable {tgt cv args}

theorem packLoop_nil {st : PackState} (hfmt : st.fmt = []) : packLoop tgt cv args st = .ok st.b := by
  rw [packLoop]
  split
  · rfl
  · simp_all

theorem packLoop_cons {st : PackState} {first : Char} {fmt : List Char} (hfmt : st.fmt = first :: fmt) :
    packLoop tgt cv args st = packStep tgt cv args st first fmt >>= packLoop tgt cv args := by
  rw [packLoop]
  split
  · simp_all
  · rename_i hfmt'
    rw [hfmt] at hfmt'
    cases hfmt'
    split <;> rename_i hstep <;> rw [hstep] <;> rfl

theorem packLoop_step {st : PackState} (st' : PackState) {first : Char} {fmt : List Char}
    (hfmt : st.fmt = first :: fmt) (hstep : packStep tgt cv args st first fmt = .ok st') :
    packLoop tgt cv args st = packLoop tgt cv args st' := by
  rw [packLoop_cons hfmt, hstep, Rust.ok_bind]

end

/-- The state `pack` starts its loop in. -/
def PackState.init (fmt : List Char) : PackState :=
  ⟨.new tgt, fmt.takeWhile (· ≠ '\x00'), 1, 0, []⟩

/-- `pack`: the format is argument 1, `args` are the others. -/
def pack (fmt : List Char) : Rust LStr := do
  let b ← packLoop tgt cv args (.init tgt fmt)
  Rust.alloc b

end Pack

/-! ## `string.packsize` -/

/-- The variables of the loop of `packsize`. -/
structure SizeState where
  h : Header
  fmt : List Char
  totalsize : Nat
  deriving DecidableEq, Repr

/-- The size `packsize` counts for an option. -/
def sizeOption : Pack → Rust Nat
  | .signed v | .unsigned v | .char v | .padding v => .ok v
  | .float => .ok 4
  | .double | .number => .ok 8
  | .str _ => .error (.arg 1 "variable-length format")
  | .padAlign | .nop => .ok 0

section Packsize

variable (tgt : Target)

/-- One turn of the loop of `packsize`; the sums wrap in `usize`. -/
def sizeStep (st : SizeState) (first : Char) (fmt : List Char) : Rust SizeState := do
  let (opt, ntoalign, h, fmt) ← argError 1 (getdetails tgt st.h st.totalsize first fmt)
  let size ← sizeOption opt
  let size := size + ntoalign
  if st.totalsize > (2147483647 + 2 ^ 64 - size) % 2 ^ 64 then .error (.arg 1 "format result too large")
  else .ok { h, fmt, totalsize := (st.totalsize + size) % 2 ^ 64 }

variable {tgt} in
theorem sizeStep_length {st st' : SizeState} {first : Char} {fmt : List Char}
    (h : sizeStep tgt st first fmt = .ok st') : st'.fmt.length ≤ fmt.length := by
  obtain ⟨⟨opt, ntoalign, h₁, rest⟩, hdet, h⟩ := Rust.bind_eq_ok.mp h
  obtain ⟨size, -, h⟩ := Rust.bind_eq_ok.mp h
  dsimp only at h
  split at h
  · cases h
  · cases h
    exact (getdetails_spec (argError_eq_ok.mp hdet)).2.length_le

/-- The loop of `packsize`. -/
def sizeLoop (st : SizeState) : Rust Nat :=
  match _hfmt : st.fmt with
  | [] => .ok st.totalsize
  | first :: fmt =>
    match _hstep : sizeStep tgt st first fmt with
    | .error e => .error e
    | .ok st' => sizeLoop st'
termination_by st.fmt.length
decreasing_by
  have := sizeStep_length _hstep
  simp only [_hfmt, List.length_cons]
  omega

section

variable {tgt}

theorem sizeLoop_nil {st : SizeState} (hfmt : st.fmt = []) : sizeLoop tgt st = .ok st.totalsize := by
  rw [sizeLoop]
  split
  · rfl
  · simp_all

theorem sizeLoop_cons {st : SizeState} {first : Char} {fmt : List Char} (hfmt : st.fmt = first :: fmt) :
    sizeLoop tgt st = sizeStep tgt st first fmt >>= sizeLoop tgt := by
  rw [sizeLoop]
  split
  · simp_all
  · rename_i hfmt'
    rw [hfmt] at hfmt'
    cases hfmt'
    split <;> rename_i hstep <;> rw [hstep] <;> rfl

theorem sizeLoop_step {st : SizeState} (st' : SizeState) {first : Char} {fmt : List Char}
    (hfmt : st.fmt = first :: fmt) (hstep : sizeStep tgt st first fmt = .ok st') :
    sizeLoop tgt st = sizeLoop tgt st' := by
  rw [sizeLoop_cons hfmt, hstep, Rust.ok_bind]

end

def packsize (fmt : List Char) : Rust Int64 := do
  let totalsize ← sizeLoop tgt ⟨.new tgt, fmt.takeWhile (· ≠ '\x00'), 0⟩
  .ok (Int64.ofNat totalsize)

end Packsize

/-! ## `string.unpack` -/

def posrelatI (pos len : Int64) : Rust Nat := do
  let r ←
    if pos > 0 then .ok pos.toInt.toNat
    else if pos = 0 then .ok 1
    else do
      let neg ← Rust.i64 (-len.toInt)
      if pos < neg then .ok 1
      else do
        let sum ← Rust.i64 (len.toInt + pos.toInt)
        let sum ← Rust.i64 (sum.toInt + 1)
        Rust.u64OfI64 sum
  Rust.nonZero r

/-- The variables of the loop of `unpack`; `out` are the values pushed so far. -/
structure UnpackState where
  h : Header
  fmt : List Char
  pos : Nat
  out : List LuaValue
  deriving DecidableEq, Repr

/-- `data.get(pos..)` and `v.get(..len)`, with the error of a missing range. -/
def getTail (data : Bytes) (pos len : Nat) : Rust Bytes :=
  if pos ≤ data.length ∧ len ≤ data.length - pos then .ok ((data.drop pos).take len)
  else .error (.arg 2 "data string too short")

/-- `data.get(pos..(pos + size))`. -/
def getRange (data : Bytes) (pos size : Nat) : Rust Bytes := do
  let stop ← Rust.usize (pos + size)
  if stop ≤ data.length then .ok ((data.drop pos).take size)
  else .error (.arg 2 "data string too short")

section Unpack

variable (tgt : Target) (cv : Conv) (data : Bytes)

/-- The body of `match opt` in `unpack`: the size to skip and the value pushed. -/
def unpackOption (h : Header) (pos : Nat) : Pack → Rust (Nat × List LuaValue)
  | .signed size => do
    let v ← getRange data pos size
    let res ← argError 2 (unpackint v h.islittle true)
    .ok (size, [.int res])
  | .unsigned size => do
    let v ← getRange data pos size
    let res ← argError 2 (unpackint v h.islittle false)
    .ok (size, [.int res])
  | .float => do
    let v ← getRange data pos 4
    .ok (4, [.float (cv.ofFloat (.ofNat (fromBytes tgt v h.islittle)))])
  | .number => do
    let v ← getRange data pos 8
    .ok (8, [.float (.ofNat (fromBytes tgt v h.islittle))])
  | .double => do
    let v ← getRange data pos 8
    .ok (8, [.float (.ofNat (fromBytes tgt v h.islittle))])
  | .char size => do
    let v ← getRange data pos size
    .ok (size, [.str v])
  | .str (some size) => do
    let v ← getRange data pos size
    let len ← argError 2 (unpackint v h.islittle false)
    let len := len.toUInt64.toNat
    let start ← Rust.usize (pos + size)
    let v ← getTail data start len
    let size ← Rust.usize (size + len)
    .ok (size, [.str v])
  | .str none =>
    if pos ≤ data.length then
      match (data.drop pos).idxOf? 0 with
      | some i => .ok (i + 1, [.str ((data.drop pos).take i)])
      | none => .error (.arg 2 "unfinished string for format 'z'")
    else .error (.arg 2 "data string too short")
  | .padding size => .ok (size, [])
  | .padAlign | .nop => .ok (0, [])

/-- One turn of the loop of `unpack`. -/
def unpackStep (st : UnpackState) (first : Char) (fmt : List Char) : Rust UnpackState := do
  let (opt, ntoalign, h, fmt) ← getdetails tgt st.h st.pos first fmt
  let pos ← Rust.usize (st.pos + ntoalign)
  let (size, vs) ← unpackOption tgt cv data h pos opt
  let pos ← Rust.usize (pos + size)
  .ok { h, fmt, pos, out := st.out ++ vs }

variable {tgt cv data} in
theorem unpackStep_length {st st' : UnpackState} {first : Char} {fmt : List Char}
    (h : unpackStep tgt cv data st first fmt = .ok st') : st'.fmt.length ≤ fmt.length := by
  obtain ⟨⟨opt, ntoalign, h₁, rest⟩, hdet, h⟩ := Rust.bind_eq_ok.mp h
  obtain ⟨pos, -, h⟩ := Rust.bind_eq_ok.mp h
  obtain ⟨⟨size, vs⟩, -, h⟩ := Rust.bind_eq_ok.mp h
  obtain ⟨pos', -, h⟩ := Rust.bind_eq_ok.mp h
  cases h
  exact (getdetails_spec hdet).2.length_le

/-- The loop of `unpack`. -/
def unpackLoop (st : UnpackState) : Rust (List LuaValue) :=
  match _hfmt : st.fmt with
  | [] => (Rust.usize (st.pos + 1)).map fun pos => st.out ++ [.int (Int64.ofNat pos)]
  | first :: fmt =>
    match _hstep : unpackStep tgt cv data st first fmt with
    | .error e => .error e
    | .ok st' => unpackLoop st'
termination_by st.fmt.length
decreasing_by
  have := unpackStep_length _hstep
  simp only [_hfmt, List.length_cons]
  omega

section

variable {tgt cv data}

theorem unpackLoop_nil {st : UnpackState} (hfmt : st.fmt = []) :
    unpackLoop tgt cv data st = (Rust.usize (st.pos + 1)).map fun pos => st.out ++ [.int (Int64.ofNat pos)] := by
  rw [unpackLoop]
  split
  · rfl
  · simp_all

theorem unpackLoop_cons {st : UnpackState} {first : Char} {fmt : List Char} (hfmt : st.fmt = first :: fmt) :
    unpackLoop tgt cv data st = unpackStep tgt cv data st first fmt >>= unpackLoop tgt cv data := by
  rw [unpackLoop]
  split
  · simp_all
  · rename_i hfmt'
    rw [hfmt] at hfmt'
    cases hfmt'
    split <;> rename_i hstep <;> rw [hstep] <;> rfl

theorem unpackLoop_error {st : UnpackState} {e : Fault} {first : Char} {fmt : List Char}
    (hfmt : st.fmt = first :: fmt) (hstep : unpackStep tgt cv data st first fmt = .error e) :
    unpackLoop tgt cv data st = .error e := by
  rw [unpackLoop_cons hfmt, hstep, Rust.error_bind]

theorem unpackLoop_step {st : UnpackState} (st' : UnpackState) {first : Char} {fmt : List Char}
    (hfmt : st.fmt = first :: fmt) (hstep : unpackStep tgt cv data st first fmt = .ok st') :
    unpackLoop tgt cv data st = unpackLoop tgt cv data st' := by
  rw [unpackLoop_cons hfmt, hstep, Rust.ok_bind]

end

end Unpack

/-- `unpack`: the format, the data string and the initial position. -/
def unpack (tgt : Target) (cv : Conv) (fmt : List Char) (data : LStr) (init : Option Int64) :
    Rust (List LuaValue) := do
  let ld := data.bytes.length
  let pos ← posrelatI (init.getD 1) (Int64.ofNat ld)
  if pos - 1 > ld then .error (.arg 3 "initial position out of string")
  else unpackLoop tgt cv data.bytes ⟨.new tgt, fmt.takeWhile (· ≠ '\x00'), pos - 1, []⟩

end Tsuki.Str
