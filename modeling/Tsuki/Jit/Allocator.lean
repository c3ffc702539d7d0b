import Tsuki.Lib.Layout
import Mathlib.Data.List.Sort

/-!
# The memory of compiled functions

`CodeAllocator` cuts mappings of executable pages into blocks. Behind each block is its header, and behind that some
waste; the headers of a mapping are a doubly linked list. A block that is not active is in the set of its pool, which
is that of its alignment. A header that something is written over is gone.
-/

namespace Tsuki.Jit

/-- How a call ends that does not return a block. -/
inductive Fault
  /-- A failed assertion, `unwrap` or index. -/
  | panic
  /-- A header is read where there is none. -/
  | wild
  /-- An `unwrap` of what the system refuses. -/
  | refused
  /-- The step bound of a loop ran out. -/
  | fuel
  deriving DecidableEq, Repr

@[simp] theorem Fault.ok_bind {α β : Type} (a : α) (f : α → Except Fault β) :
    ((Except.ok a : Except Fault α) >>= f) = f a := rfl

/-- What the system answers in a call, if it is asked. -/
structure System where
  /-- `allocate_pages`: the address of new pages. -/
  pages : Option Nat
  /-- `set_writable`. -/
  writable : Bool
  /-- `clear_writable`. -/
  executable : Bool
  /-- `free_pages`. -/
  unmapped : Bool
  deriving DecidableEq, Repr

/-- The `unwrap` of an answer. -/
def granted (answer : Bool) : Except Fault Unit := if answer then .ok () else .error .refused

theorem granted_bind {α : Type} (answer : Bool) (f : Unit → Except Fault α) :
    granted answer >>= f = if answer then f () else .error .refused := by
  cases answer <;> rfl

@[ext]
structure BlockMeta where
  /-- The address of the mapping and its length. -/
  pages : Nat × Nat
  prev : Option Nat
  next : Option Nat
  size : Nat
  waste : Nat
  active : Bool
  pool : Nat
  deriving DecidableEq, Repr

/-- `size_of::<BlockMeta>()`, of a packed structure. -/
def metaSize : Nat := 50

/-- The headers in memory. -/
abbrev Memory := Nat → Option BlockMeta

namespace Memory

def load (mem : Memory) (a : Nat) : Except Fault BlockMeta :=
  match mem a with
  | some m => .ok m
  | none => .error .wild

/-- A header is written, and those are gone that it lies over. -/
def write (mem : Memory) (a : Nat) (m : BlockMeta) : Memory := fun x =>
  if x = a then some m else if x < a + metaSize ∧ a < x + metaSize then none else mem x

/-- The fields of a header are written. -/
def modify (mem : Memory) (a : Nat) (f : BlockMeta → BlockMeta) : Except Fault Memory :=
  match mem a with
  | some m => .ok (Function.update mem a (some (f m)))
  | none => .error .wild

/-- `(*p).next = v`, unless `p` is null. -/
def setNext (mem : Memory) (p v : Option Nat) : Except Fault Memory :=
  match p with
  | some a => mem.modify a fun m => { m with next := v }
  | none => .ok mem

/-- `(*p).prev = v`, unless `p` is null. -/
def setPrev (mem : Memory) (p v : Option Nat) : Except Fault Memory :=
  match p with
  | some a => mem.modify a fun m => { m with prev := v }
  | none => .ok mem

/-- What is written to bytes leaves no header there. -/
def clear (mem : Memory) (a n : Nat) : Memory := fun x => if x < a + n ∧ a < x + metaSize then none else mem x

end Memory

/-- A block in a pool: its size and its address. -/
abbrev Block := Nat × Nat

/-- The order of `BTreeSet<(NonZero<usize>, *mut u8)>`. -/
def Before (b c : Block) : Prop := b.1 < c.1 ∨ b.1 = c.1 ∧ b.2 ≤ c.2

instance (b c : Block) : Decidable (Before b c) := inferInstanceAs (Decidable (_ ∨ _))

/-- `CodeAllocator`, with the headers; `free` is empty from pool number `pools` on. -/
structure CodeAllocator where
  free : Nat → List Block
  pools : Nat
  pageSize : Nat
  mem : Memory

namespace CodeAllocator

def new (pageSize : Nat) : CodeAllocator := ⟨fun _ => [], 0, pageSize, fun _ => none⟩

/-- `assert!(free.remove(..))`. -/
def remove (al : CodeAllocator) (pool : Nat) (b : Block) : Except Fault CodeAllocator :=
  if b ∈ al.free pool then .ok { al with free := Function.update al.free pool ((al.free pool).erase b) }
  else .error .panic

/-- `assert!(free.insert(..))`. -/
def insert (al : CodeAllocator) (pool : Nat) (b : Block) : Except Fault CodeAllocator :=
  if b ∈ al.free pool then .error .panic
  else .ok { al with free := Function.update al.free pool ((al.free pool).orderedInsert Before b) }

/-- `checked_add` with `unwrap`. -/
def add (x y : Nat) : Except Fault Nat := if x + y < 2 ^ 64 then .ok (x + y) else .error .panic

/-- `align_offset` from an address on, which is that of the next multiple. -/
def alignUp (a align : Nat) : Nat := Lib.roundUp a align

/-- The block at `lb` of size `bs` is taken for `size` bytes, and cut if enough is left behind them. -/
def take (al : CodeAllocator) (size align pool bs lb : Nat) : Except Fault CodeAllocator := do
  let b ← al.mem.load (lb + bs)
  let al ← al.remove pool (bs, lb)
  if bs - size = 0 then
    let mem ← al.mem.modify (lb + bs) fun m => { m with active := true }
    .ok { al with mem }
  else
    let lm := lb + size
    let le := lm + metaSize
    let rb := alignUp le align
    let mem ← al.mem.setNext b.prev (some lm)
    let mem := mem.write lm { b with size }
    let limit := lb + bs + metaSize + b.waste
    let rm := limit - metaSize
    if rb < rm then
      let mem ← mem.modify lm fun m => { m with next := some rm, active := true, waste := rb - le }
      let mem ← mem.setPrev b.next (some rm)
      let mem := mem.write rm { b with prev := some lm, size := rm - rb, waste := 0 }
      { al with mem }.insert pool (rm - rb, rb)
    else
      let mem ← mem.setPrev b.next (some lm)
      let mem ← mem.modify lm fun m => { m with active := true, waste := limit - le }
      .ok { al with mem }

/-- New pages at `lb`, with the block at their start, and another one if enough is left. -/
def map (al : CodeAllocator) (size align pool len lb : Nat) : Except Fault CodeAllocator := do
  let limit := lb + len
  let lm := lb + size
  let le := lm + metaSize
  let rb := alignUp le align
  let rm := limit - metaSize
  if rb < rm then
    let mem := al.mem.write rm ⟨(lb, len), some lm, none, rm - rb, 0, false, pool⟩
    let al ← { al with mem }.insert pool (rm - rb, rb)
    .ok { al with mem := al.mem.write lm ⟨(lb, len), none, some rm, size, rb - le, true, pool⟩ }
  else
    .ok { al with mem := al.mem.write lm ⟨(lb, len), none, none, size, limit - le, true, pool⟩ }

/-- `allocate`: the address of the block, and none where the system has no pages. -/
def allocate (al : CodeAllocator) (size align : Nat) (sys : System) : Except Fault (Option Nat × CodeAllocator) :=
  if ¬Lib.PowerOfTwo align ∨ al.pageSize < align then .error .panic
  else
    let pool := align.log2
    let al := { al with pools := max al.pools (pool + 1) }
    match (al.free pool).find? fun b => size ≤ b.1 with
    | some b => do
      let _ ← al.mem.load (b.2 + b.1)
      let _ ← granted sys.writable
      let al ← al.take size align pool b.1 b.2
      .ok (some b.2, al)
    | none =>
      let len := Lib.roundUp (size + metaSize) (al.pageSize * 64)
      if len < 2 ^ 64 then
        match sys.pages with
        | some lb => do
          let al ← al.map size align pool len lb
          .ok (some lb, al)
        | none => .ok (none, al)
      else .error .panic

/-- Inactive blocks before are joined: the allocator, the size and the first block that is not joined. -/
def joinPrev (pool : Nat) : Nat → CodeAllocator → Nat → Option Nat → Except Fault (CodeAllocator × Nat × Option Nat)
  | 0, _, _, _ => .error .fuel
  | _ + 1, al, size, none => .ok (al, size, none)
  | n + 1, al, size, some pm => do
    let b ← al.mem.load pm
    if b.active then .ok (al, size, some pm)
    else
      let al ← al.remove pool (b.size, pm - b.size)
      let size ← add size b.size
      let size ← add size metaSize
      let size ← add size b.waste
      joinPrev pool n al size b.prev

/-- Inactive blocks behind are joined. -/
def joinNext (pool : Nat) : Nat → CodeAllocator → Nat → Option Nat → Except Fault (CodeAllocator × Nat × Option Nat)
  | 0, _, _, _ => .error .fuel
  | _ + 1, al, size, none => .ok (al, size, none)
  | n + 1, al, size, some nm => do
    let b ← al.mem.load nm
    if b.active then .ok (al, size, some nm)
    else
      let al ← al.remove pool (b.size, nm - b.size)
      let size ← add size b.size
      let size ← add size metaSize
      let size ← add size b.waste
      joinNext pool n al size b.next

/-- `deallocate` for the block of `size` bytes at `ptr`. A mapping has fewer headers than bytes. -/
def deallocate (al : CodeAllocator) (ptr size : Nat) (sys : System) : Except Fault CodeAllocator := do
  let mm := ptr + size
  let m ← al.mem.load mm
  let _ ← granted sys.writable
  if al.pools ≤ m.pool then .error .panic
  else
    let (al, size, pm) ← joinPrev m.pool (m.pages.2 + 1) al m.size m.prev
    let lb := mm - size
    let (al, size, nm) ← joinNext m.pool (m.pages.2 + 1) al size m.next
    let size ← add size m.waste
    if pm = none ∧ nm = none then
      let _ ← granted sys.unmapped
      .ok { al with mem := al.mem.clear m.pages.1 m.pages.2 }
    else
      let lm := lb + size
      let mem := al.mem.write lm { m with active := false, prev := pm, next := nm, size, waste := 0 }
      let al ← { al with mem }.insert m.pool (size, lb)
      let mem ← al.mem.setNext pm (some lm)
      let mem ← mem.setPrev nm (some lm)
      let _ ← granted sys.executable
      .ok { al with mem }

end CodeAllocator

end Tsuki.Jit
