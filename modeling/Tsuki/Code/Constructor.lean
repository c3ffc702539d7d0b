import Tsuki.Table.Run
import Tsuki.Thread.Stack

/-!
# Table constructors

The parser keeps positional items in registers and stores them in batches of fifty, while fields with a name or a key
are stored at once. The number of the items stored before is split over two instructions, and the instruction for the
table is written anew at the end, when the sizes are known.
-/

namespace Tsuki.Constructor

open Table (Key Hashes TableError)

variable {V : Type}

/-! ## Instructions -/

/-- An instruction with the fields A, B, C and k. -/
def codeABCk (o a b c k : Nat) : Nat := o ||| a <<< 7 ||| b <<< 16 ||| c <<< 24 ||| k <<< 15

/-- `OP_EXTRAARG` -/
def extraarg (a : Nat) : Nat := 82 ||| a <<< 7

def getA (i : Nat) : Nat := i >>> 7 &&& (2 ^ 8 - 1)
def getB (i : Nat) : Nat := i >>> 16 &&& (2 ^ 8 - 1)
def getC (i : Nat) : Nat := i >>> 24 &&& (2 ^ 8 - 1)
def getK (i : Nat) : Nat := i >>> 15 &&& (2 ^ 1 - 1)
def getAx (i : Nat) : Nat := i >>> 7 &&& (2 ^ 25 - 1)

/-- The code of a constructor. Expressions are what they leave: `eval` a value in a register, `evalOpen` values from a
register up to the top, and `store` is the code of a key and a value with the store to the table in a register. -/
inductive Instr (V : Type)
  /-- `OP_NEWTABLE`, and the instruction behind it -/
  | newtable (i e : Nat)
  /-- `OP_SETLIST`, and the `OP_EXTRAARG` behind it -/
  | setlist (i : Nat) (e : Option Nat)
  | eval (reg : Nat) (x : Option V)
  | evalOpen (reg : Nat) (xs : List (Option V))
  | store (reg : Nat) (k : Key) (x : Option V)

/-! ## The parser -/

/-- A positional expression, with the number of its instructions: one value, or a call or vararg with many. -/
inductive Exp (V : Type)
  | one (words : Nat) (x : Option V)
  | multi (words : Nat) (xs : List (Option V))

/-- The value where one is wanted. -/
def Exp.first : Exp V → Option V
  | .one _ x => x
  | .multi _ xs => xs.headD none

def Exp.words : Exp V → Nat
  | .one w _ => w
  | .multi w _ => w

/-- A field: an item, or a key and a value whose code takes `words` instructions and the store. -/
inductive Field (V : Type)
  | item (e : Exp V)
  | record (words : Nat) (k : Key) (x : Option V)

/-- `FuncState`, with the number `pc` of instructions. -/
structure FuncState (V : Type) where
  code : List (Instr V)
  pc : Nat
  freereg : Nat
  maxstacksize : Nat

/-- `ConsControl`; the counters are of the type `c_int`. -/
structure ConsControl (V : Type) where
  v : Option (Exp V)
  t : Nat
  nh : Int
  na : Int
  tostore : Int

/-- Arithmetic of `c_int`. -/
def cint (z : Int) : Rust Int := if -2 ^ 31 ≤ z ∧ z < 2 ^ 31 then .ok z else .error .panic

/-- `luaK_code`, for an instruction or the instructions of an expression. -/
def FuncState.emit (fs : FuncState V) (i : Instr V) (words : Nat) : Rust (FuncState V) :=
  if fs.pc + words ≤ 2147483647 then .ok { fs with code := fs.code ++ [i], pc := fs.pc + words }
  else .error (.msg "too many opcodes (limit is 2147483647)")

/-- `luaK_reserveregs`, of one register. -/
def FuncState.reserve (fs : FuncState V) : Rust (FuncState V) :=
  let newstack := fs.freereg + 1
  if newstack > fs.maxstacksize then
    if newstack ≥ 255 then .error (.msg "function or expression needs too many registers")
    else .ok { fs with freereg := newstack, maxstacksize := newstack }
  else .ok { fs with freereg := newstack }

/-- `luaK_exp2nextreg` -/
def FuncState.exp2nextreg (fs : FuncState V) (e : Exp V) : Rust (FuncState V) := do
  let reg := fs.freereg
  let fs ← fs.reserve
  fs.emit (.eval reg e.first) e.words

/-- `luaK_setreturns`, with all results. -/
def FuncState.setreturns (fs : FuncState V) (words : Nat) (xs : List (Option V)) : Rust (FuncState V) := do
  let reg := fs.freereg
  let fs ← fs.reserve
  fs.emit (.evalOpen reg xs) words

/-- `luaK_setlist` -/
def FuncState.setlist (fs : FuncState V) (base : Nat) (nelems tostore : Int) : Rust (FuncState V) := do
  let tostore := if tostore = -1 then 0 else tostore
  let fs ←
    if nelems ≤ 255 then fs.emit (.setlist (codeABCk 78 base tostore.toNat nelems.toNat 0) none) 1
    else
      let extra := nelems / 256
      fs.emit (.setlist (codeABCk 78 base tostore.toNat (nelems % 256).toNat 1) (some (extraarg extra.toNat))) 2
  .ok { fs with freereg := base + 1 }

def closelistfield (fs : FuncState V) (cc : ConsControl V) : Rust (FuncState V × ConsControl V) :=
  match cc.v with
  | none => .ok (fs, cc)
  | some e => do
    let fs ← fs.exp2nextreg e
    if cc.tostore = 50 then
      let fs ← fs.setlist cc.t cc.na cc.tostore
      let na ← cint (cc.na + cc.tostore)
      .ok (fs, { cc with v := none, na := na, tostore := 0 })
    else .ok (fs, { cc with v := none })

/-- `listfield` or `recfield` -/
def field (fs : FuncState V) (cc : ConsControl V) : Field V → Rust (FuncState V × ConsControl V)
  | .item e => do
    let tostore ← cint (cc.tostore + 1)
    .ok (fs, { cc with v := some e, tostore := tostore })
  | .record words k x => do
    let nh ← cint (cc.nh + 1)
    let fs ← fs.emit (.store cc.t k x) (words + 1)
    .ok (fs, { cc with nh := nh })

/-- The loop of `constructor`. -/
def fields (fs : FuncState V) (cc : ConsControl V) : List (Field V) → Rust (FuncState V × ConsControl V)
  | [] => .ok (fs, cc)
  | f :: l => do
    let (fs, cc) ← closelistfield fs cc
    let (fs, cc) ← field fs cc f
    fields fs cc l

def lastlistfield (fs : FuncState V) (cc : ConsControl V) : Rust (FuncState V × ConsControl V) :=
  if cc.tostore = 0 then .ok (fs, cc)
  else
    match cc.v with
    | some (.multi words xs) => do
      let fs ← fs.setreturns words xs
      let fs ← fs.setlist cc.t cc.na (-1)
      let na ← cint (cc.na - 1)
      let na ← cint (na + cc.tostore)
      .ok (fs, { cc with na := na })
    | some (.one words x) => do
      let fs ← fs.exp2nextreg (.one words x)
      let fs ← fs.setlist cc.t cc.na cc.tostore
      let na ← cint (cc.na + cc.tostore)
      .ok (fs, { cc with na := na })
    | none => do
      let fs ← fs.setlist cc.t cc.na cc.tostore
      let na ← cint (cc.na + cc.tostore)
      .ok (fs, { cc with na := na })

/-- `luaK_settablesize` -/
def settablesize (code : List (Instr V)) (pc ra : Nat) (asize hsize : Int) : List (Instr V) :=
  let rb := if hsize ≠ 0 then Table.ceillog2 hsize.toNat + 1 else 0
  let extra := asize / 256
  let rc := asize % 256
  let k := if extra > 0 then 1 else 0
  code.set pc (.newtable (codeABCk 19 ra rb rc.toNat k) (extraarg extra.toNat))

def constructor (fs : FuncState V) (l : List (Field V)) : Rust (FuncState V × ConsControl V) := do
  let pc := fs.code.length
  let fs ← fs.emit (.newtable (codeABCk 19 0 0 0 0) 0) 2
  let t := fs.freereg
  let fs ← fs.reserve
  let (fs, cc) ← fields fs ⟨none, t, 0, 0, 0⟩ l
  let (fs, cc) ← lastlistfield fs cc
  .ok ({ fs with code := settablesize fs.code pc t cc.na cc.nh }, cc)

/-! ## The interpreter -/

/-- The frame: its registers, the top, and the register with the new table. -/
structure State (V : Type) where
  regs : Nat → Option V
  top : Nat
  tab : Option (Nat × Table V)

section

variable (hs : Hashes) (d memory : Nat)

/-- `luaH_resize`, where no memory is there for an array part with more than `memory` slots. -/
def luaH_resize (t : Table V) (nasize nhsize : Nat) : Rust (Table V) :=
  if memory < nasize then .error (.msg "memory allocation failed")
  else Table.resize hs (Table.newkey hs (d + 2)) t nasize nhsize

def luaH_resizearray (t : Table V) (nasize : Nat) : Rust (Table V) :=
  luaH_resize hs d memory t nasize (if t.hash.lastfree.isNone then 0 else 2 ^ t.hash.lsizenode)

/-- `OP_NEWTABLE` -/
def newtable (i e : Nat) : Rust (Table V) :=
  let b := getB i
  let b := if b > 0 then 2 ^ (b - 1) else b
  let c := getC i + (if getK i ≠ 0 then getAx e * 256 else 0)
  if b ≠ 0 ∨ c ≠ 0 then luaH_resize hs d memory (Table.new V) c b else .ok (Table.new V)

/-- The loop of `OP_SETLIST`: the registers up to `ra + n` go to the slots up to `last`. -/
def setlistLoop (regs : Nat → Option V) (ra : Nat) : Nat → Nat → Table V → Rust (Table V)
  | 0, _, t => .ok t
  | n + 1, last, t => do
    let t ← Table.store t (.array (last - 1)) (regs (ra + (n + 1)))
    setlistLoop regs ra n (last - 1) t

/-- The array part has slots up to `last`. -/
def growarray (t : Table V) (last : Nat) : Rust (Table V) :=
  if last > Table.realasize t then luaH_resizearray hs d memory t last else .ok t

/-- `OP_SETLIST` -/
def setlist (i : Nat) (e : Option Nat) (st : State V) (t : Table V) : Rust (Table V) := do
  let ra := getA i
  let n := getB i
  let n := if n = 0 then st.top - ra - 1 else n
  let last := (getC i + n) % 2 ^ 32
  let last := if getK i ≠ 0 then (last + getAx (e.getD 0) * 256) % 2 ^ 32 else last
  let t ← growarray hs d memory t last
  setlistLoop st.regs ra n last t

/-- One instruction, or the rejection of a key. -/
def step (st : State V) : Instr V → Rust (Except TableError (State V))
  | .newtable i e => do
    let t ← newtable hs d memory i e
    .ok (.ok { st with tab := some (getA i, t) })
  | .setlist i e =>
    match st.tab with
    | some (r, t) =>
      if r = getA i then do
        let t ← setlist hs d memory i e st t
        .ok (.ok { st with tab := some (r, t) })
      else .error .panic
    | none => .error .panic
  | .eval reg x => .ok (.ok { st with regs := Function.update st.regs reg x })
  | .evalOpen reg xs =>
    if 1000000 < reg + xs.length then .error (.msg "stack overflow")
    else .ok (.ok { st with regs := Coroutine.put st.regs reg xs, top := reg + xs.length })
  | .store reg k x =>
    match st.tab with
    | some (r, t) =>
      if r = reg then do
        let (t, res) ← Table.set hs (Table.newkey hs (d + 2)) t k x
        match res with
        | .error e => .ok (.error e)
        | .ok _ => .ok (.ok { st with tab := some (r, t) })
      else .error .panic
    | none => .error .panic

/-- The code of a constructor, up to the first key that is rejected. -/
def exec (st : State V) : List (Instr V) → Rust (Except TableError (State V))
  | [] => .ok (.ok st)
  | i :: is => do
    match ← step hs d memory st i with
    | .error e => .ok (.error e)
    | .ok st => exec st is

end

end Tsuki.Constructor
