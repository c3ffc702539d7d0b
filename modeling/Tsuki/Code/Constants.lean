import Tsuki.F64.Value
import Tsuki.Lex.Numeral
import Tsuki.Table.Run

/-!
# Constants of functions

All functions of a chunk and the scanner share one table: under a key of the constant it has the index that the
constant got last, in whichever function, and under a scanned string the string. `addk` looks there for an index, and
takes it only where the constant of the function is the one asked for.
-/

namespace Tsuki.Constants

open Table (Key Map canon normalizeKey)

/-! ## Keys of floats -/

/-- `x / g`, to the nearest, ties to even. -/
def halfEven (x g : Nat) : Nat :=
  if 2 * (x % g) < g ∨ 2 * (x % g) = g ∧ x / g % 2 = 0 then x / g else x / g + 1

/-- `r + r * 2^-52` for an `r` of at least 1: its mantissa grows by itself, divided by `2 ^ 52` and rounded. The product
is exact; from `2 ^ 53` on the mantissa counts twos. -/
def stretch (r : F64) : F64 :=
  let x := r.mantissa * (2 ^ 52 + 1)
  let grow := if x < 2 ^ 105 then halfEven x (2 ^ 52) - r.mantissa
    else 2 ^ 53 - r.mantissa + (halfEven x (2 ^ 53) - 2 ^ 52)
  ⟨r.bits + UInt64.ofNat grow⟩

/-- `ldexp(1.0, -nbm + 1)`, that is `2 ^ -52`. -/
def q : F64 := ⟨0x3CB0000000000000⟩

/-- The key of a float constant. -/
def numberKey (r : F64) : F64 :=
  match r.flttointegerEq with
  | some ik => if ik = 0 then q else stretch r
  | none => r

/-! ## `addk` -/

/-- `FuncState` with its prototype: the constants up to `nk`, and the room there is; functions are numbered. -/
structure Func where
  id : Nat
  k : List Key
  sizek : Nat

/-- What the table has under a key: an index, or a scanned string. -/
inductive Entry
  | index (k : Nat)
  | str

/-- The functions that are open, the innermost first, and those that are finished. -/
structure Chunk where
  h : Map Entry
  opened : List Func
  finished : List Func
  count : Nat

/-- `luaV_equalobj` without a thread, on values of one type. A key says of a string what the source compares. -/
def luaV_equalobj : Key → Key → Bool
  | .float m, .float n => m.beq n
  | a, b => a = b

/-- `MAXARG_Ax`, the largest number of constants. -/
def maxConstants : Nat := 2 ^ 25 - 1

/-- `luaM_growaux_`: the new room. -/
def growaux (nelems size : Nat) : Rust Nat :=
  if nelems + 1 ≤ size then .ok size
  else if maxConstants / 2 ≤ size then
    if maxConstants ≤ size then .error (.msg "too many constants (limit is 33554431)") else .ok maxConstants
  else .ok (max (size * 2) 4)

/-- The entry of the key is the index of this constant. -/
def known (h : Map Entry) (k : List Key) (key v : Key) : Option Nat :=
  match (canon key).bind h with
  | some (.index i) => if (k[i]?).any fun c => luaV_equalobj c v then some i else none
  | _ => none

/-- `luaH_finishset(..).unwrap()` -/
def finishset (h : Map Entry) (key : Key) (x : Entry) : Rust (Map Entry) :=
  match normalizeKey key with
  | .ok c => .ok (Function.update h c (some x))
  | .error _ => .error .panic

/-- `addk`: the index of the constant. -/
def addk (h : Map Entry) (fs : Func) (key v : Key) : Rust (Map Entry × Func × Nat) :=
  match known h fs.k key v with
  | some i => .ok (h, fs, i)
  | none => do
    let h ← finishset h key (.index fs.k.length)
    let sizek ← growaux fs.k.length fs.sizek
    .ok (h, { fs with k := fs.k ++ [v], sizek := sizek }, fs.k.length)

/-- A string: a short one is the object, a long one its content. -/
inductive Str
  | short (p : Nat)
  | long (s : Bytes)

def Str.key : Str → Key
  | .short p => .shortStr p
  | .long s => .longStr s

/-- `stringK`, `luaK_intK`, `luaK_numberK`, `boolT`, `boolF` and `nilK`. -/
inductive Request
  | string (s : Str)
  | int (n : Int64)
  | number (r : F64)
  | true
  | false
  | nil

/-- The constant that is asked for. -/
def Request.value : Request → Key
  | .string s => s.key
  | .int n => .int n
  | .number r => .float r
  | .true => .boolean Bool.true
  | .false => .boolean Bool.false
  | .nil => .nil

/-- The key it is looked for under; the table is its own key for nil. -/
def Request.key (self : Nat) : Request → Key
  | .number r => .float (numberKey r)
  | .nil => .object 5 self
  | r => r.value

/-- What the parser does. -/
inductive Op
  /-- `open_func` -/
  | openFunc
  /-- `close_func` -/
  | closeFunc
  /-- `luaX_newstring` -/
  | scan (s : Str)
  | request (r : Request)

/-- One operation, and for a request the function and the index. -/
def Chunk.step (self : Nat) (c : Chunk) : Op → Rust (Chunk × Option (Nat × Nat))
  | .openFunc => .ok ({ c with opened := ⟨c.count, [], 0⟩ :: c.opened, count := c.count + 1 }, none)
  | .closeFunc =>
    match c.opened with
    | [] => .error .panic
    | fs :: rest =>
      .ok ({ c with opened := rest, finished := { fs with sizek := fs.k.length } :: c.finished }, none)
  | .scan s =>
    match c.h s.key with
    | some _ => .ok (c, none)
    | none => .ok ({ c with h := Function.update c.h s.key (some .str) }, none)
  | .request r =>
    match c.opened with
    | [] => .error .panic
    | fs :: rest => do
      let (h, fs', i) ← addk c.h fs (r.key self) r.value
      .ok ({ c with h := h, opened := fs' :: rest }, some (fs.id, i))

/-- A run, with every request, its function and the index it got. -/
def Chunk.run (self : Nat) (c : Chunk) : List Op → Rust (Chunk × List (Request × Nat × Nat))
  | [] => .ok (c, [])
  | op :: ops => do
    let (c, a) ← c.step self op
    let (c, log) ← c.run self ops
    .ok (c, match op, a with
      | .request r, some (f, i) => (r, f, i) :: log
      | _, _ => log)

/-- A new chunk: the table is empty. -/
def Chunk.new : Chunk := ⟨fun _ => none, [], [], 0⟩

/-! ## Floats of a program -/

/-- The guard of `constfolding`. -/
def folds (n : F64) : Bool := !(n.isNaN || n.isZero)

/-- Floats come from the lexer, which reads no sign and keeps what is finite, and from folding. -/
inductive Source : F64 → Prop
  | lexed {r : F64} : r.isFinite = Bool.true → r.negative = Bool.false → Source r
  | folded {r : F64} : folds r = Bool.true → Source r

def Request.Sourced : Request → Prop
  | .number r => Source r
  | _ => True

/-- No NaN, and no negative zero. -/
def Plain (r : F64) : Prop := r.isNaN = Bool.false ∧ (r.isZero = Bool.true → r.negative = Bool.false)

theorem Source.plain {r : F64} (h : Source r) : Plain r := by
  cases h with
  | lexed hfin hpos =>
    refine ⟨?_, fun _ => hpos⟩
    have hexp : r.exponent ≠ 2047 := of_decide_eq_true hfin
    simp [F64.isNaN, hexp]
  | folded h =>
    simp only [folds, Bool.not_eq_eq_eq_not, Bool.not_true, Bool.or_eq_false_iff] at h
    refine ⟨h.1, fun hz => ?_⟩
    rw [h.2] at hz
    cases hz

/-- Floats of a program are equal where they are the same float. -/
theorem Plain.eq_of_beq {f g : F64} (hf : Plain f) (hg : Plain g) (h : f.beq g = Bool.true) : f = g := by
  rw [F64.beq, Bool.and_eq_true, Bool.or_eq_true, decide_eq_true_eq] at h
  rcases h.2 with heq | hz
  · exact congrArg F64.mk heq
  · have hzero {r : F64} (hr : Plain r) (hz : r.isZero = Bool.true) : r.bits.toNat = 0 := by
      have hneg := hr.2 hz
      rw [F64.isZero, Bool.and_eq_true, decide_eq_true_eq, decide_eq_true_eq] at hz
      rw [F64.toNat_bits, hneg, hz.1, hz.2]
      rfl
    obtain ⟨hzf, hzg⟩ := Bool.and_eq_true_iff.mp hz
    exact congrArg F64.mk (UInt64.toNat_inj.mp ((hzero hf hzf).trans (hzero hg hzg).symm))

/-! ## The keys are accepted -/

theorem halfEven_le (x g : Nat) : halfEven x g ≤ x / g + 1 := by
  unfold halfEven
  split_ifs <;> omega

theorem exponent_le {r : F64} {ik : Int64} (h : r.flttointegerEq = some ik) : r.exponent ≤ 2045 := by
  obtain ⟨z, hz, hfit⟩ := Option.bind_eq_some_iff.mp h
  split_ifs at hfit with hbound
  by_contra hlarge
  have hscale : r.scale = r.exponent := by
    rw [F64.scale]
    omega
  -- the value would be beyond `2 ^ 63`
  have hbig : 2 ^ 52 * 2 ^ 12 ≤ r.mantissa * 2 ^ (r.scale - 1075) :=
    Nat.mul_le_mul (F64.le_mantissa (by omega)) (Nat.pow_le_pow_right (by decide) (by omega))
  rw [F64.integer?] at hz
  by_cases hexp : r.exponent = 2047
  · rw [if_pos hexp] at hz
    cases hz
  · rw [if_neg hexp] at hz
    dsimp only at hz
    rw [if_pos (by omega)] at hz
    have hz := Option.some.inj hz
    split_ifs at hz <;> omega

theorem stretch_isNaN {r : F64} {ik : Int64} (h : r.flttointegerEq = some ik) : (stretch r).isNaN = Bool.false := by
  have hexp := exponent_le h
  have hmantissa := r.mantissa_lt
  have hbits := r.toNat_bits
  have hfraction : r.fraction < 2 ^ 52 := Nat.mod_lt _ (by decide)
  have hneg := Bool.toNat_le r.negative
  obtain ⟨grow, hgrow, heq⟩ : ∃ grow, grow ≤ 2 ^ 52 ∧ stretch r = ⟨r.bits + UInt64.ofNat grow⟩ := by
    refine ⟨_, ?_, rfl⟩
    have h₁ := halfEven_le (r.mantissa * (2 ^ 52 + 1)) (2 ^ 52)
    have h₂ := halfEven_le (r.mantissa * (2 ^ 52 + 1)) (2 ^ 53)
    split_ifs <;> omega
  have hsum : (stretch r).bits.toNat = r.bits.toNat + grow := by
    rw [heq, UInt64.toNat_add, UInt64.toNat_ofNat']
    omega
  have hexp' : (stretch r).exponent ≠ 2047 := by
    rw [F64.exponent, hsum, hbits]
    omega
  simp [F64.isNaN, hexp']

theorem numberKey_isNaN {r : F64} (h : r.isNaN = Bool.false) : (numberKey r).isNaN = Bool.false := by
  unfold numberKey
  split
  · rename_i ik hik
    split_ifs
    · decide
    · exact stretch_isNaN hik
  · exact h

theorem normalizeKey_key (self : Nat) {r : Request} (h : r.Sourced) : ∃ c, normalizeKey (r.key self) = .ok c := by
  cases r with
  | string s => cases s <;> exact ⟨_, rfl⟩
  | int n => exact ⟨_, rfl⟩
  | number r =>
    have hnan := numberKey_isNaN (Source.plain h).1
    show ∃ c, normalizeKey (.float (numberKey r)) = .ok c
    rw [normalizeKey]
    cases (numberKey r).flttointegerEq with
    | some i => exact ⟨_, rfl⟩
    | none => exact ⟨_, if_neg (by rw [hnan]; exact Bool.false_ne_true)⟩
  | true => exact ⟨_, rfl⟩
  | false => exact ⟨_, rfl⟩
  | nil => exact ⟨_, rfl⟩

/-! ## `addk` -/

/-- A constant is no float but one of a program. -/
def Constant : Key → Prop
  | .float r => Plain r
  | _ => True

theorem Request.constant {r : Request} (h : r.Sourced) : Constant r.value := by
  cases r with
  | number r => exact Source.plain h
  | string s => cases s <;> trivial
  | _ => trivial

theorem eq_of_equalobj {a b : Key} (ha : Constant a) (hb : Constant b) (h : luaV_equalobj a b = Bool.true) : a = b := by
  unfold luaV_equalobj at h
  split at h
  · rw [Plain.eq_of_beq ha hb h]
  · exact of_decide_eq_true h

/-- The constants of a function are those of a program, and there is room for them. -/
def Func.Good (f : Func) : Prop := f.k.length ≤ f.sizek ∧ ∀ c ∈ f.k, Constant c

/-- The index is that of the constant, and the others stay. -/
theorem addk_spec {h h' : Map Entry} {fs fs' : Func} {key v : Key} {i : Nat} (hfs : fs.Good) (hv : Constant v)
    (hadd : addk h fs key v = .ok (h', fs', i)) :
    fs'.Good ∧ fs'.id = fs.id ∧ fs.k <+: fs'.k ∧ fs'.k[i]? = some v := by
  rw [addk] at hadd
  split at hadd
  · rename_i j hj
    cases hadd
    refine ⟨hfs, rfl, List.prefix_rfl, ?_⟩
    unfold known at hj
    split at hj
    · rename_i k _
      split_ifs at hj with hany
      cases hj
      cases hk : fs.k[i]? with
      | none => simp [hk] at hany
      | some c =>
        rw [hk, Option.any_some] at hany
        rw [eq_of_equalobj (hfs.2 c (List.mem_of_getElem? hk)) hv hany]
    · cases hj
  · obtain ⟨h₁, -, hadd⟩ := Rust.bind_eq_ok.mp hadd
    obtain ⟨sizek, hsize, hadd⟩ := Rust.bind_eq_ok.mp hadd
    cases hadd
    have hroom : fs.k.length + 1 ≤ sizek := by
      unfold growaux at hsize
      have hle := hfs.1
      have hmax : maxConstants = 33554431 := rfl
      split_ifs at hsize <;> cases hsize <;> omega
    refine ⟨⟨by simpa using hroom, fun c hc => ?_⟩, rfl, List.prefix_append .., by simp⟩
    rcases List.mem_append.mp hc with hc | hc
    · exact hfs.2 c hc
    · rw [List.mem_singleton.mp hc]
      exact hv

/-- `addk` fails only where there are too many constants. -/
theorem addk_safe {h : Map Entry} {fs : Func} {key v : Key} (hkey : ∃ c, normalizeKey key = .ok c) :
    addk h fs key v ≠ .error .panic := by
  obtain ⟨c, hc⟩ := hkey
  rw [addk]
  split
  · nofun
  · rw [finishset, hc, Rust.ok_bind]
    unfold growaux
    split_ifs <;> nofun

/-! ## Runs -/

/-- All functions of the chunk. -/
def Chunk.all (c : Chunk) : List Func := c.opened ++ c.finished

/-- The functions have constants of a program, and numbers of their own. -/
structure Chunk.Good (c : Chunk) : Prop where
  good : ∀ f ∈ c.all, f.Good
  fresh : ∀ f ∈ c.all, f.id < c.count
  nodup : (c.all.map Func.id).Nodup

/-- The functions keep the constants they have. -/
def Chunk.Keeps (c c' : Chunk) : Prop := ∀ f ∈ c.all, ∃ g ∈ c'.all, g.id = f.id ∧ f.k <+: g.k

theorem Chunk.Keeps.rfl (c : Chunk) : c.Keeps c := fun f hf => ⟨f, hf, Eq.refl _, List.prefix_rfl⟩

theorem Chunk.Keeps.trans {c c' c'' : Chunk} (h : c.Keeps c') (h' : c'.Keeps c'') : c.Keeps c'' := by
  intro f hf
  obtain ⟨g, hg, hid, hk⟩ := h f hf
  obtain ⟨g', hg', hid', hk'⟩ := h' g hg
  exact ⟨g', hg', hid'.trans hid, hk.trans hk'⟩

/-- The function has the constant of the request at the index. -/
def Chunk.Answers (c : Chunk) (r : Request) (f i : Nat) : Prop :=
  ∃ g ∈ c.all, g.id = f ∧ g.k[i]? = some r.value ∧ i < g.sizek

theorem Chunk.Good.answers {c : Chunk} (h : c.Good) {r : Request} {i : Nat} {g : Func} (hg : g ∈ c.all)
    (hk : g.k[i]? = some r.value) : c.Answers r g.id i := by
  obtain ⟨hlt, -⟩ := List.getElem?_eq_some_iff.mp hk
  exact ⟨g, hg, Eq.refl _, hk, Nat.lt_of_lt_of_le hlt (h.good g hg).1⟩

theorem Chunk.Answers.keep {c c' : Chunk} {r : Request} {f i : Nat} (h : c.Answers r f i) (hk : c.Keeps c')
    (hgood : c'.Good) : c'.Answers r f i := by
  obtain ⟨g, hg, rfl, hi, -⟩ := h
  obtain ⟨g', hg', hid, hpre⟩ := hk g hg
  rw [← hid]
  refine hgood.answers hg' ?_
  obtain ⟨t, ht⟩ := hpre
  obtain ⟨hlt, -⟩ := List.getElem?_eq_some_iff.mp hi
  rw [← ht, List.getElem?_append_left hlt]
  exact hi

/-- The parser requests constants of a program. -/
def Op.Sourced : Op → Prop
  | .request r => r.Sourced
  | _ => True

theorem Chunk.Good.step {self : Nat} {c c' : Chunk} {op : Op} {a : Option (Nat × Nat)} (h : c.Good) (hop : op.Sourced)
    (hstep : c.step self op = .ok (c', a)) :
    c'.Good ∧ c.Keeps c' ∧ ∀ r f i, op = .request r → a = some (f, i) → c'.Answers r f i := by
  obtain ⟨map, opened, finished, count⟩ := c
  cases op with
  | openFunc =>
    cases hstep
    refine ⟨⟨fun f hf => ?_, fun f hf => ?_, ?_⟩,
      fun f hf => ⟨f, List.mem_cons_of_mem _ hf, Eq.refl _, List.prefix_rfl⟩, nofun⟩
    · rcases List.mem_cons.mp hf with rfl | hf
      · exact ⟨Nat.le_refl 0, nofun⟩
      · exact h.good f hf
    · rcases List.mem_cons.mp hf with rfl | hf
      · exact Nat.lt_succ_self count
      · exact Nat.lt_succ_of_lt (h.fresh f hf)
    · refine List.nodup_cons.mpr ⟨fun hin => ?_, h.nodup⟩
      obtain ⟨f, hf, hid⟩ := List.mem_map.mp hin
      have hlt : f.id < count := h.fresh f hf
      have heq : f.id = count := hid
      omega
  | closeFunc =>
    cases opened with
    | nil => cases hstep
    | cons fs rest =>
      cases hstep
      have hperm : List.Perm ((rest ++ { fs with sizek := fs.k.length } :: finished).map Func.id)
          ((fs :: rest ++ finished).map Func.id) := List.perm_middle.map Func.id
      refine ⟨⟨fun f hf => ?_, fun f hf => ?_, hperm.nodup_iff.mpr h.nodup⟩, fun f hf => ?_, nofun⟩
      · rcases List.mem_append.mp hf with hf | hf
        · exact h.good f (List.mem_cons_of_mem _ (List.mem_append_left _ hf))
        · rcases List.mem_cons.mp hf with rfl | hf
          · exact ⟨Nat.le_refl _, (h.good fs List.mem_cons_self).2⟩
          · exact h.good f (List.mem_cons_of_mem _ (List.mem_append_right _ hf))
      · rcases List.mem_append.mp hf with hf | hf
        · exact h.fresh f (List.mem_cons_of_mem _ (List.mem_append_left _ hf))
        · rcases List.mem_cons.mp hf with rfl | hf
          · exact h.fresh fs List.mem_cons_self
          · exact h.fresh f (List.mem_cons_of_mem _ (List.mem_append_right _ hf))
      · rcases List.mem_cons.mp hf with rfl | hf
        · exact ⟨_, List.mem_append_right _ List.mem_cons_self, Eq.refl _, List.prefix_rfl⟩
        · refine ⟨f, ?_, Eq.refl _, List.prefix_rfl⟩
          rcases List.mem_append.mp hf with hf | hf
          · exact List.mem_append_left _ hf
          · exact List.mem_append_right _ (List.mem_cons_of_mem _ hf)
  | scan s =>
    rw [Chunk.step] at hstep
    dsimp only at hstep
    split at hstep <;> cases hstep
    · exact ⟨h, .rfl _, nofun⟩
    · exact ⟨⟨h.good, h.fresh, h.nodup⟩, .rfl _, nofun⟩
  | request r =>
    cases opened with
    | nil => cases hstep
    | cons fs rest =>
      obtain ⟨⟨map', fs', i⟩, hadd, hstep⟩ := Rust.bind_eq_ok.mp hstep
      cases hstep
      obtain ⟨hgood, hid, hpre, hi⟩ := addk_spec (h.good fs List.mem_cons_self) (Request.constant hop) hadd
      have hnodup : ((fs' :: rest ++ finished).map Func.id).Nodup := by
        have := h.nodup
        show (fs'.id :: (rest ++ finished).map Func.id).Nodup
        rw [hid]
        exact this
      have hall : Chunk.Good ⟨map', fs' :: rest, finished, count⟩ := by
        refine ⟨fun f hf => ?_, fun f hf => ?_, hnodup⟩
        · rcases List.mem_cons.mp hf with rfl | hf
          · exact hgood
          · exact h.good f (List.mem_cons_of_mem _ hf)
        · rcases List.mem_cons.mp hf with rfl | hf
          · rw [hid]
            exact h.fresh fs List.mem_cons_self
          · exact h.fresh f (List.mem_cons_of_mem _ hf)
      refine ⟨hall, fun f hf => ?_, fun r' f j hr ha => ?_⟩
      · rcases List.mem_cons.mp hf with rfl | hf
        · exact ⟨fs', List.mem_cons_self, hid, hpre⟩
        · exact ⟨f, List.mem_cons_of_mem _ hf, Eq.refl _, List.prefix_rfl⟩
      · cases hr
        cases ha
        rw [← hid]
        exact hall.answers List.mem_cons_self hi

theorem Chunk.Good.run {self : Nat} {ops : List Op} : ∀ {c c' : Chunk} {log : List (Request × Nat × Nat)},
    c.Good → (∀ op ∈ ops, op.Sourced) → c.run self ops = .ok (c', log) →
    c'.Good ∧ c.Keeps c' ∧ ∀ r f i, (r, f, i) ∈ log → c'.Answers r f i := by
  induction ops with
  | nil =>
    intro c c' log h _ hrun
    cases hrun
    exact ⟨h, .rfl _, nofun⟩
  | cons op ops ih =>
    intro c c' log h hops hrun
    obtain ⟨⟨c₁, a⟩, hstep, hrun⟩ := Rust.bind_eq_ok.mp hrun
    obtain ⟨⟨c₂, log₂⟩, hrest, hrun⟩ := Rust.bind_eq_ok.mp hrun
    cases hrun
    obtain ⟨h₁, hkeep₁, hanswer⟩ := h.step (hops op List.mem_cons_self) hstep
    obtain ⟨h₂, hkeep₂, hlog⟩ := ih h₁ (fun o ho => hops o (List.mem_cons_of_mem op ho)) hrest
    refine ⟨h₂, hkeep₁.trans hkeep₂, fun r f i hin => ?_⟩
    split at hin
    · rcases List.mem_cons.mp hin with heq | hin
      · cases heq
        exact (hanswer _ _ _ (Eq.refl _) (Eq.refl _)).keep hkeep₂ h₂
      · exact hlog r f i hin
    · exact hlog r f i hin

/-- Functions are closed that were opened, and constants requested while a function is open. -/
def Nested : Nat → List Op → Prop
  | _, [] => True
  | n, .openFunc :: ops => Nested (n + 1) ops
  | n, .closeFunc :: ops => 0 < n ∧ Nested (n - 1) ops
  | n, .scan _ :: ops => Nested n ops
  | n, .request _ :: ops => 0 < n ∧ Nested n ops

theorem run_safe {self : Nat} {ops : List Op} : ∀ {c : Chunk}, Nested c.opened.length ops →
    (∀ op ∈ ops, op.Sourced) → c.run self ops ≠ .error .panic := by
  induction ops with
  | nil => exact fun _ _ => nofun
  | cons op ops ih =>
    intro c hn hops
    obtain ⟨map, opened, finished, count⟩ := c
    have hrest : ∀ o ∈ ops, o.Sourced := fun o ho => hops o (List.mem_cons_of_mem op ho)
    have hgo {c' : Chunk} {a : Option (Nat × Nat)}
        (hstep : Chunk.step self ⟨map, opened, finished, count⟩ op = .ok (c', a))
        (hn' : Nested c'.opened.length ops) :
        Chunk.run self ⟨map, opened, finished, count⟩ (op :: ops) ≠ .error .panic := by
      rw [Chunk.run, hstep, Rust.ok_bind]
      dsimp only
      cases hrun : c'.run self ops with
      | error e => exact fun heq => ih hn' hrest (hrun.trans (congrArg _ (Except.error.inj heq)))
      | ok x => nofun
    cases op with
    | openFunc => exact hgo (Eq.refl _) hn
    | closeFunc =>
      cases opened with
      | nil => exact absurd hn.1 (Nat.lt_irrefl 0)
      | cons fs rest => exact hgo (Eq.refl _) hn.2
    | scan s =>
      cases hs : map s.key with
      | none =>
        have hstep : Chunk.step self ⟨map, opened, finished, count⟩ (.scan s) =
            .ok (⟨Function.update map s.key (some .str), opened, finished, count⟩, none) := by
          rw [Chunk.step]
          dsimp only
          rw [hs]
        exact hgo hstep hn
      | some e =>
        have hstep : Chunk.step self ⟨map, opened, finished, count⟩ (.scan s) =
            .ok (⟨map, opened, finished, count⟩, none) := by
          rw [Chunk.step]
          dsimp only
          rw [hs]
        exact hgo hstep hn
    | request r =>
      cases opened with
      | nil => exact absurd hn.1 (Nat.lt_irrefl 0)
      | cons fs rest =>
        cases hadd : addk map fs (r.key self) r.value with
        | error e =>
          rw [Chunk.run, Chunk.step]
          dsimp only
          rw [hadd, Rust.error_bind, Rust.error_bind]
          intro heq
          exact addk_safe (normalizeKey_key self (hops _ List.mem_cons_self))
            (hadd.trans (congrArg _ (Except.error.inj heq)))
        | ok x =>
          obtain ⟨map', fs', i⟩ := x
          have hstep : Chunk.step self ⟨map, fs :: rest, finished, count⟩ (.request r) =
              .ok (⟨map', fs' :: rest, finished, count⟩, some (fs.id, i)) := by
            rw [Chunk.step]
            dsimp only
            rw [hadd, Rust.ok_bind]
          exact hgo hstep hn.2

/-- Constants are never confused. The insertion into the table never fails; and in every state that a run comes to, each
request has got the index of its own constant in its own function, of which there is one, with room for the index. So
requests that got one index of one function asked for one constant. -/
theorem constants_exact (self : Nat) (ops : List Op) (hn : Nested 0 ops) (hops : ∀ op ∈ ops, op.Sourced) :
    Chunk.new.run self ops ≠ .error .panic ∧ ∀ c log, Chunk.new.run self ops = .ok (c, log) →
      (c.all.map Func.id).Nodup ∧ (∀ r f i, (r, f, i) ∈ log → c.Answers r f i) ∧
        ∀ r r' f i, (r, f, i) ∈ log → (r', f, i) ∈ log → r.value = r'.value := by
  refine ⟨run_safe hn hops, fun c log hrun => ?_⟩
  have hnew : Chunk.new.Good :=
    ⟨fun f h => absurd h List.not_mem_nil, fun f h => absurd h List.not_mem_nil, List.nodup_nil⟩
  obtain ⟨hgood, -, hlog⟩ := hnew.run hops hrun
  refine ⟨hgood.nodup, hlog, fun r r' f i h h' => ?_⟩
  obtain ⟨g, hg, rfl, hi, -⟩ := hlog r f i h
  obtain ⟨g', hg', hid, hi', -⟩ := hlog r' _ i h'
  rw [List.inj_on_of_nodup_map hgood.nodup hg' hg hid] at hi'
  exact Option.some.inj (hi.symm.trans hi')

/-- The integer 1 and the float 1 are two constants, and an inner function has its own. -/
theorem constants_exact_one : ∃ c log, Chunk.new.run 0
      [.openFunc, .request (.int 1), .request (.number ⟨0x3FF0000000000000⟩), .openFunc, .request (.int 1)] =
        .ok (c, log) ∧ ∀ r f i, (r, f, i) ∈ log → c.Answers r f i := by
  have hsource : Source ⟨0x3FF0000000000000⟩ := .lexed (by decide) (by decide)
  have hexact := constants_exact 0
    [.openFunc, .request (.int 1), .request (.number ⟨0x3FF0000000000000⟩), .openFunc, .request (.int 1)]
    ⟨by decide, by decide, by decide, trivial⟩ (by simpa [Op.Sourced, Request.Sourced] using hsource)
  exact ⟨_, _, Eq.refl _, (hexact.2 _ _ (Eq.refl _)).2.1⟩

end Tsuki.Constants
