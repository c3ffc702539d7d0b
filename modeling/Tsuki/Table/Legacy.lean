import Tsuki.F64
import Mathlib.Data.Nat.Log

/-!
# Lua tables

The array part, the hash part with its collision chains, and the operations on them. A value is `none` where the
source has nil or an empty slot. The hash functions are parameters: strings carry their hash, and a pointer is its
address. A long string key is its content, and the key of a Rust type is the type, which is all the source
compares. Operations that can fail to find a node run into `Fault.panic`.
-/

namespace Tsuki

namespace Table

/-! ## Keys -/

inductive FpKind
  | fp
  | yieldFp
  | asyncFp
  deriving DecidableEq, Repr

/-- A value that can be a key. -/
inductive Key
  | nil
  | boolean (b : Bool)
  | int (i : Int64)
  | float (f : F64)
  | shortStr (p : Nat)
  | longStr (s : Bytes)
  | fp (kind : FpKind) (p : Nat)
  | rustId (id : Nat)
  | object (tag p : Nat)
  deriving DecidableEq

/-- The key is an object of the collector. -/
def Key.collectable : Key → Bool
  | .shortStr _ | .longStr _ | .rustId _ | .object .. => true
  | _ => false

inductive TableError
  | nilKey
  | nanKey
  deriving DecidableEq, Repr

/-- The hashes: of the short string object `p`, of the content of a long string, `l_hashfloat` and the hash of a
type. -/
structure Hashes where
  short : Nat → Nat
  long : Bytes → Nat
  float : F64 → Nat
  rustId : Nat → Nat

/-- The key of a node: nil, dead, or a value. A dead key keeps its pointer. -/
inductive NodeKey
  | free
  | dead (k : Key)
  | live (k : Key)
  deriving DecidableEq

/-- `struct Node`; `next` is relative, and 0 at the end of a chain. -/
structure Node (V : Type) where
  key : NodeKey
  val : Option V
  next : Int

/-- The hash part; `lastfree` is null in the dummy part. -/
structure HashPart (V : Type) where
  lsizenode : Nat
  node : List (Node V)
  lastfree : Option Nat

end Table

/-- `struct Table`; `hint` is bit 7 of `flags`. -/
structure Table (V : Type) where
  hint : Bool
  alimit : Nat
  array : List (Option V)
  hash : Table.HashPart V

namespace Table

/-- The position of a value in a table, or that there is none. -/
inductive Slot
  | absent
  | array (i : Nat)
  | node (i : Nat)
  deriving DecidableEq, Repr

/-- The part all empty tables share. -/
def dummyNode (V : Type) : HashPart V := ⟨0, [⟨.free, none, 0⟩], none⟩

def new (V : Type) : Table V := ⟨false, 0, [], dummyNode V⟩

section

variable {V : Type} (hs : Hashes)

/-! ## Main positions -/

/-- `((1 << lsizenode) - 1) | 1`. -/
def hashmod (lsizenode : Nat) : Nat := (2 ^ lsizenode - 1) ||| 1

def hashint (lsizenode : Nat) (i : Int64) : Nat := i.toUInt64.toNat % hashmod lsizenode

/-- The low 32 bits of a pointer, modulo the size. -/
def hashpointer (lsizenode p : Nat) : Nat := p % 2 ^ 32 % hashmod lsizenode

/-- `hash & ((1 << lsizenode) - 1)`. -/
def hashpow2 (lsizenode h : Nat) : Nat := h &&& (2 ^ lsizenode - 1)

def mainpositionTV (lsizenode : Nat) : Key → Nat
  | .int i => hashint lsizenode i
  | .float f => hs.float f % hashmod lsizenode
  | .shortStr p => hashpow2 lsizenode (hs.short p)
  | .longStr s => hashpow2 lsizenode (hs.long s)
  | .boolean b => hashpow2 lsizenode (if b then 1 else 0)
  | .fp _ p => hashpointer lsizenode p
  | .rustId id => hashpow2 lsizenode (hs.rustId id)
  | .object _ p => hashpointer lsizenode p
  | .nil => 0

/-! ## Lookups -/

/-- `equalkey`, dead keys being equal to nothing. -/
def equalkey : Key → Key → Bool
  | .nil, .nil => true
  | .boolean a, .boolean b => a = b
  | .int i, .int j => i = j
  | .float f, .float g => f.beq g
  | .shortStr p, .shortStr q => p = q
  | .longStr s, .longStr u => s = u
  | .fp a p, .fp b q => a = b && p = q
  | .rustId a, .rustId b => a = b
  | .object a p, .object b q => a = b && p = q
  | _, _ => false

/-- The node has a key that passes the test. -/
def NodeKey.passes (test : Key → Bool) : NodeKey → Bool
  | .live k => test k
  | _ => false

/-- The loop over a chain all lookups have; a chain is no longer than the part. -/
def chainLoop (node : List (Node V)) (test : Key → Bool) : Nat → Nat → Rust Slot
  | 0, _ => .error .panic
  | n + 1, i => do
    let nd ← idx node i
    if nd.key.passes test then .ok (.node i)
    else if nd.next = 0 then .ok .absent
    else chainLoop node test n (i + nd.next).toNat

def searchFrom (h : HashPart V) (test : Key → Bool) (i : Nat) : Rust Slot := chainLoop h.node test h.node.length i

def getgeneric (h : HashPart V) (key : Key) : Rust Slot :=
  searchFrom h (equalkey key) (mainpositionTV hs h.lsizenode key)

/-- `luaH_searchint`. -/
def searchint (h : HashPart V) (key : Int64) : Rust Slot := searchFrom h (· = .int key) (hashint h.lsizenode key)

/-- `luaH_getshortstr`. -/
def getshortstr (h : HashPart V) (p : Nat) : Rust Slot :=
  searchFrom h (· = .shortStr p) (hashpow2 h.lsizenode (hs.short p))

/-- `luaH_getid`. -/
def getid (h : HashPart V) (id : Nat) : Rust Slot :=
  searchFrom h (· = .rustId id) (hashpow2 h.lsizenode (hs.rustId id))

/-- `luaH_getint`; `2 ^ 64 - alimit` is `!(alimit - 1)` in 64 bits. -/
def getint (t : Table V) (key : Int64) : Rust (Table V × Slot) :=
  let u := (key - 1).toUInt64.toNat
  if u < t.alimit then .ok (t, .array u)
  else if t.hint ∧ u &&& (2 ^ 64 - t.alimit) < t.alimit then .ok ({ t with alimit := (u + 1) % 2 ^ 32 }, .array u)
  else (searchint t.hash key).map fun s => (t, s)

/-- `luaH_get`, with `luaH_getstr`. -/
def get (t : Table V) (k : Key) : Rust (Table V × Slot) :=
  match k with
  | .int i => getint t i
  | .float f =>
    match f.flttointegerEq with
    | some i => getint t i
    | none => (getgeneric hs t.hash k).map fun s => (t, s)
  | .shortStr p => (getshortstr hs t.hash p).map fun s => (t, s)
  | .nil => .ok (t, .absent)
  | .rustId id => (getid hs t.hash id).map fun s => (t, s)
  | k => (getgeneric hs t.hash k).map fun s => (t, s)

theorem get_int (t : Table V) (i : Int64) : get hs t (.int i) = getint t i := rfl

theorem get_shortStr (t : Table V) (p : Nat) : get hs t (.shortStr p) = (getshortstr hs t.hash p).map fun s => (t, s) :=
  rfl

/-- `*slot`. -/
def load (t : Table V) : Slot → Rust (Option V)
  | .absent => .ok none
  | .array i => idx t.array i
  | .node i => (idx t.hash.node i).map Node.val

/-- `*slot = value`. -/
def store (t : Table V) (s : Slot) (v : Option V) : Rust (Table V) :=
  match s with
  | .absent => .error .panic
  | .array i => do
    let _ ← idx t.array i
    .ok { t with array := t.array.set i v }
  | .node i => do
    let nd ← idx t.hash.node i
    .ok { t with hash := { t.hash with node := t.hash.node.set i { nd with val := v } } }

/-! ## Sizes -/

/-- `luaH_realasize`. -/
def realasize (t : Table V) : Nat :=
  if t.hint = false ∨ t.alimit &&& (t.alimit - 1) = 0 then t.alimit
  else
    let size := t.alimit
    let size := size ||| size >>> 1
    let size := size ||| size >>> 2
    let size := size ||| size >>> 4
    let size := size ||| size >>> 8
    let size := size ||| size >>> 16
    (size + 1) % 2 ^ 32

def setlimittosize (t : Table V) : Table V := { t with alimit := realasize t, hint := false }

/-- The loop of `luaO_ceillog2`, which makes at most three rounds for 32 bits; entry `x` of its table is the logarithm
of `x + 1`, rounded up. -/
def ceillog2Loop : Nat → Nat → Nat → Nat
  | 0, l, x => l + Nat.clog 2 (x + 1)
  | n + 1, l, x => if 256 ≤ x then ceillog2Loop n (l + 8) (x >>> 8) else l + Nat.clog 2 (x + 1)

/-- `luaO_ceillog2`. -/
def ceillog2 (x : Nat) : Nat := ceillog2Loop 3 0 (x - 1)

/-- `arrayindex`: the key as an index of an array part, and 0 if it is none. -/
def arrayindex (k : Int64) : Nat := if (k - 1).toUInt64.toNat < 2 ^ 31 then k.toUInt64.toNat else 0

/-- `setnodevector`; its panic has a text, which tells it from all others. -/
def setnodevector (V : Type) (size : Nat) : Rust (HashPart V) :=
  if size = 0 then .ok (dummyNode V)
  else
    let lsize := ceillog2 size
    if lsize > 30 then .error (.msg "table overflow")
    else .ok ⟨lsize, List.replicate (2 ^ lsize) ⟨.free, none, 0⟩, some (2 ^ lsize)⟩

/-! ### Counting keys -/

/-- The counters `nums`: entry `i` counts the keys above `2 ^ (i - 1)` and up to `2 ^ i`. -/
abbrev Nums := Nat → Nat

def countint (key : Int64) (nums : Nums) : Nums × Nat :=
  let k := arrayindex key
  if k ≠ 0 then (Function.update nums (ceillog2 k) (nums (ceillog2 k) + 1), 1) else (nums, 0)

/-- `countint`, where the key is an integer. -/
def countKey (key : Key) (nums : Nums) : Nums × Nat :=
  match key with
  | .int i => countint i nums
  | _ => (nums, 0)

/-- The loop of `numusearray`: the slices from `lg` on, `i` being the next index. -/
def numusearrayLoop (array : List (Option V)) (asize : Nat) : Nat → Nat → Nat → Nums → Nat → Nums × Nat
  | 0, _, _, nums, ause => (nums, ause)
  | n + 1, lg, i, nums, ause =>
    let lim := if 2 ^ lg > asize then asize else 2 ^ lg
    if 2 ^ lg > asize ∧ i > lim then (nums, ause)
    else
      let lc := ((array.drop (i - 1)).take (lim + 1 - i)).countP (·.isSome)
      numusearrayLoop array asize n (lg + 1) (max i (lim + 1)) (Function.update nums lg (nums lg + lc)) (ause + lc)

def numusearray (t : Table V) (nums : Nums) : Nums × Nat := numusearrayLoop t.array t.alimit 32 0 1 nums 0

/-- The counts of `numusehash` after one more node: the counters, `ause` and `totaluse`. -/
def countNode (nd : Node V) (r : Nums × Nat × Nat) : Nums × Nat × Nat :=
  let (nums, ause, totaluse) := r
  if nd.val.isSome then
    match nd.key with
    | .live k =>
      let (nums, c) := countKey k nums
      (nums, ause + c, totaluse + 1)
    | _ => (nums, ause, totaluse + 1)
  else r

/-- `numusehash`, from the last node down. -/
def numusehash (h : HashPart V) (nums : Nums) : Nums × Nat × Nat := h.node.foldr countNode (nums, 0, 0)

/-- The loop of `computesizes`; the result is the size and how many keys go to the array part. -/
def computesizesLoop (nums : Nums) (pna : Nat) : Nat → Nat → Nat → Nat → Nat → Nat × Nat
  | 0, _, _, na, optimal => (optimal, na)
  | n + 1, i, a, na, optimal =>
    if pna > 2 ^ i / 2 then
      if a + nums i > 2 ^ i / 2 then computesizesLoop nums pna n (i + 1) (a + nums i) (a + nums i) (2 ^ i)
      else computesizesLoop nums pna n (i + 1) (a + nums i) na optimal
    else (optimal, na)

def computesizes (nums : Nums) (pna : Nat) : Nat × Nat := computesizesLoop nums pna 32 0 0 0 0

/-! ## Insertion -/

/-- `getfreepos`: the loop from `lastfree` down. -/
def freeposLoop (node : List (Node V)) : Nat → Nat × Option Nat
  | 0 => (0, none)
  | n + 1 => if (node[n]?.map Node.key) = some .free then (n, some n) else freeposLoop node n

def getfreepos (h : HashPart V) : HashPart V × Option Nat :=
  match h.lastfree with
  | none => (h, none)
  | some lf => ({ h with lastfree := some (freeposLoop h.node lf).1 }, (freeposLoop h.node lf).2)

def mainpositionfromnode (lsizenode : Nat) (nd : Node V) : Rust Nat :=
  match nd.key with
  | .live k => .ok (mainpositionTV hs lsizenode k)
  | _ => .error .panic

/-- The node before `mp` in the chain from `i`. -/
def findPrevious (node : List (Node V)) (mp : Nat) : Nat → Nat → Rust Nat
  | 0, _ => .error .panic
  | n + 1, i => do
    let nd ← idx node i
    if (i + nd.next : Int) = mp then .ok i else findPrevious node mp n (i + nd.next).toNat

/-- Write the pair to the node `i`. -/
def writeNode (node : List (Node V)) (i : Nat) (key : Key) (v : V) : Rust (List (Node V)) := do
  let nd ← idx node i
  .ok (node.set i { nd with key := .live key, val := some v })

/-- The node `mp`, which is in the way, moves to the free node `f`; `othern` is the main position of its key. -/
def moveColliding (node : List (Node V)) (mp f othern : Nat) : Rust (List (Node V)) := do
  let prev ← findPrevious node mp node.length othern
  let p ← idx node prev
  let node := node.set prev { p with next := (f : Int) - prev }
  let m ← idx node mp
  let next := if m.next ≠ 0 then m.next + ((mp : Int) - f) else m.next
  let node := node.set f { m with next := next }
  .ok (node.set mp { m with val := none, next := 0 })

/-- The free node `f` is linked behind `mp`. -/
def linkFree (node : List (Node V)) (mp f : Nat) : Rust (List (Node V)) := do
  let m ← idx node mp
  let fd ← idx node f
  let next := if m.next ≠ 0 then (mp + m.next) - (f : Int) else fd.next
  let node := node.set f { fd with next := next }
  .ok (node.set mp { m with next := (f : Int) - mp })

/-- The part of `luaH_newkey` that finds a node for the pair: whether there is one. -/
def insertNode (h : HashPart V) (key : Key) (v : V) : Rust (HashPart V × Bool) := do
  let mp := mainpositionTV hs h.lsizenode key
  let m ← idx h.node mp
  if m.val.isSome ∨ h.lastfree = none then
    match getfreepos h with
    | (h, none) => .ok (h, false)
    | (h, some f) => do
      let othern ← mainpositionfromnode hs h.lsizenode m
      if othern ≠ mp then
        let node ← moveColliding h.node mp f othern
        let node ← writeNode node mp key v
        .ok ({ h with node := node }, true)
      else
        let node ← linkFree h.node mp f
        let node ← writeNode node f key v
        .ok ({ h with node := node }, true)
  else
    let node ← writeNode h.node mp key v
    .ok ({ h with node := node }, true)

/-- The key `luaH_newkey` inserts. -/
def normalizeKey : Key → Except TableError Key
  | .nil => .error .nilKey
  | .float f =>
    match f.flttointegerEq with
    | some i => .ok (.int i)
    | none => if f.isNaN then .error .nanKey else .ok (.float f)
  | k => .ok k

/-- The type of `luaH_newkey`. -/
abbrev Newkey (V : Type) := Table V → Key → Option V → Rust (Table V × Except TableError Unit)

section

variable (ins : Newkey V)

/-- `luaH_finishset`. -/
def finishset (t : Table V) (key : Key) (slot : Slot) (v : Option V) : Rust (Table V × Except TableError Unit) :=
  match slot with
  | .absent => ins t key v
  | slot => (store t slot v).map fun t => (t, .ok ())

/-- `luaH_set`. -/
def set (t : Table V) (key : Key) (v : Option V) : Rust (Table V × Except TableError Unit) := do
  let (t, slot) ← get hs t key
  finishset ins t key slot v

/-- `Result::unwrap`. -/
def unwrapOk (r : Table V × Except TableError Unit) : Rust (Table V) :=
  match r.2 with
  | .ok () => .ok r.1
  | .error _ => .error .panic

/-- `luaH_setint`. -/
def setint (t : Table V) (key : Int64) (v : Option V) : Rust (Table V) := do
  let (t, slot) ← getint t key
  match slot with
  | .absent => do
    let r ← ins t (.int key) v
    unwrapOk r
  | slot => store t slot v

/-! ## Resizing -/

/-- The loop of `luaH_resize` over the vanishing slice, from index `i` on. -/
def vanishLoop : Nat → Nat → Table V → Rust (Table V)
  | 0, _, t => .ok t
  | n + 1, i, t => do
    let x ← idx t.array i
    if x.isSome then
      let t ← setint ins t (Int64.ofNat (i + 1)) x
      vanishLoop n (i + 1) t
    else vanishLoop n (i + 1) t

def reinsert : List (Node V) → Table V → Rust (Table V)
  | [], t => .ok t
  | nd :: node, t =>
    if nd.val.isSome then
      match nd.key with
      | .live k => do
        let r ← set hs ins t k nd.val
        let t ← unwrapOk r
        reinsert node t
      | _ => .error .panic
    else reinsert node t

/-- The array part shrinks: its slots from `newasize` on go to the new hash part, which the table has for the
time being. -/
def shrink (t : Table V) (new : HashPart V) (newasize oldasize : Nat) : Rust (Table V × HashPart V) :=
  if newasize < oldasize then do
    let t' ← vanishLoop ins (oldasize - newasize) newasize { t with alimit := newasize, hash := new }
    .ok ({ t' with alimit := oldasize, hash := t.hash }, t'.hash)
  else .ok (t, new)

/-- `luaH_resize`. -/
def resize (t : Table V) (newasize nhsize : Nat) : Rust (Table V) := do
  let t := setlimittosize t
  let oldasize := t.alimit
  let new ← setnodevector V nhsize
  let (t, new) ← shrink ins t new newasize oldasize
  let array := t.array.take (min oldasize newasize) ++ List.replicate (newasize - oldasize) none
  reinsert hs ins t.hash.node { t with array := array, alimit := newasize, hash := new }

/-- The sizes `rehash` computes for the table with the key `ek` in addition. The source counts `totaluse` in a `c_int`,
which only a table with `2 ^ 31` entries overflows, and casts it to a `c_uint`. -/
def rehashSizes (t : Table V) (ek : Key) : Nat × Nat :=
  let (nums, na) := numusearray t fun _ => 0
  let totaluse := na
  let (nums, ause, uses) := numusehash t.hash nums
  let na := na + ause
  let totaluse := totaluse + uses
  let (nums, c) := countKey ek nums
  let na := na + c
  let totaluse := totaluse + 1
  let (asize, na) := computesizes nums na
  (asize, totaluse - na)

def rehash (t : Table V) (ek : Key) : Rust (Table V) :=
  let t := setlimittosize t
  resize hs ins t (rehashSizes t ek).1 (rehashSizes t ek).2

end

/-- `luaH_newkey`; it calls itself through `rehash`, `d` bounding the depth. -/
def newkey : Nat → Newkey V
  | 0 => fun _ _ _ => .error .panic
  | d + 1 => fun t key v =>
    match normalizeKey key with
    | .error e => .ok (t, .error e)
    | .ok key =>
      match v with
      | none => .ok (t, .ok ())
      | some v => do
        let (h, placed) ← insertNode hs t.hash key v
        let t := { t with hash := h }
        if placed then .ok (t, .ok ())
        else
          let t ← rehash hs (newkey d) t key
          set hs (newkey d) t key (some v)

/-! ## Length -/

def ispow2realasize (t : Table V) : Bool := t.hint || t.alimit &&& (t.alimit - 1) = 0

def binsearch (array : List (Option V)) (i j : Nat) : Rust Nat :=
  if 1 < j - i then do
    let x ← idx array ((i + j) / 2 - 1)
    if x.isNone then binsearch array i ((i + j) / 2) else binsearch array ((i + j) / 2) j
  else .ok i
termination_by j - i

/-- The value `luaH_getint` finds for `j` is nil. -/
def isNilAt (t : Table V) (j : Nat) : Rust (Table V × Bool) := do
  let (t, slot) ← getint t (Int64.ofNat j)
  let x ← load t slot
  .ok (t, x.isNone)

/-- The first loop of `hash_search`, which makes less than 64 rounds: the last index that is not nil, and the nil index
it stops at, if it does not come to the largest integer. -/
def hashSearchUp : Nat → Table V → Nat → Rust (Table V × Nat × Option Nat)
  | 0, _, _ => .error .panic
  | n + 1, t, i =>
    if i ≤ (2 ^ 63 - 1) / 2 then do
      let (t, empty) ← isNilAt t (i * 2)
      if empty then .ok (t, i, some (i * 2)) else hashSearchUp n t (i * 2)
    else do
      let (t, empty) ← isNilAt t (2 ^ 63 - 1)
      if empty then .ok (t, i, some (2 ^ 63 - 1)) else .ok (t, 2 ^ 63 - 1, none)

/-- The second loop of `hash_search`. -/
def hashSearchBetween (t : Table V) (i j : Nat) : Rust (Table V × Nat) :=
  if 1 < j - i then do
    let (t, empty) ← isNilAt t ((i + j) / 2)
    if empty then hashSearchBetween t i ((i + j) / 2) else hashSearchBetween t ((i + j) / 2) j
  else .ok (t, i)
termination_by j - i

def hash_search (t : Table V) (j : Nat) : Rust (Table V × Nat) := do
  let (t, i, bound) ← hashSearchUp 64 t (if j = 0 then 1 else j)
  match bound with
  | some j => hashSearchBetween t i j
  | none => .ok (t, i)

/-- The end of `luaH_getn`: the array part is full up to `limit`. -/
def getnHash (t : Table V) (limit : Nat) : Rust (Table V × Nat) :=
  if t.hash.lastfree = none then .ok (t, limit)
  else do
    let (t, empty) ← isNilAt t (limit + 1)
    if empty then .ok (t, limit) else hash_search t limit

/-- `luaH_getn` where the last slot is empty. -/
def getnBelow (t : Table V) : Rust (Table V × Nat) := do
  let limit := t.alimit
  let before ← if 2 ≤ limit then idx t.array (limit - 2) else .ok none
  if 2 ≤ limit ∧ before.isSome then
    if ispow2realasize t ∧ (limit - 1) &&& (limit - 2) ≠ 0 then
      .ok ({ t with alimit := limit - 1, hint := true }, limit - 1)
    else .ok (t, limit - 1)
  else do
    let boundary ← binsearch t.array 0 limit
    if ispow2realasize t ∧ boundary > realasize t / 2 then
      .ok ({ t with alimit := boundary, hint := true }, boundary)
    else .ok (t, boundary)

/-- `luaH_getn` where there are slots behind the limit. -/
def getnBehind (t : Table V) : Rust (Table V × Nat) := do
  let limit := t.alimit
  let x ← idx t.array limit
  if x.isNone then .ok (t, limit)
  else do
    let limit := realasize t
    let x ← idx t.array (limit - 1)
    if x.isNone then do
      let boundary ← binsearch t.array t.alimit limit
      .ok ({ t with alimit := boundary }, boundary)
    else getnHash t limit

/-- `luaH_getn`. -/
def getn (t : Table V) : Rust (Table V × Nat) := do
  let limit := t.alimit
  let last ← if 0 < limit then idx t.array (limit - 1) else .ok none
  if 0 < limit ∧ last.isNone then getnBelow t
  else if ¬(t.hint = false ∨ t.alimit &&& (t.alimit - 1) = 0) then getnBehind t
  else getnHash t limit

/-! ## The collector -/

/-- The collector comes to the node `i`: `clear_key`, if its value is empty. -/
def clearKey (t : Table V) (i : Nat) : Table V :=
  match t.hash.node[i]? with
  | some ⟨.live k, none, next⟩ =>
    if k.collectable then { t with hash := { t.hash with node := t.hash.node.set i ⟨.dead k, none, next⟩ } } else t
  | _ => t

end

end Table

end Tsuki
