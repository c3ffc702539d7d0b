import Tsuki.Lib.Layout
import Tsuki.Rust

/-!
# Layouts of objects

The layout that the constructor of each type of object passes to `Gc::alloc`, and the one that `Gc::free` passes to
`dealloc`, worked out from what is in the header. Both layouts are functions of the sizes and alignments of the types
involved. They are compared kind by kind, and where they differ the condition names the payload: one that is rounded
up, or whose size is kept in fewer bits than it has.
-/

namespace Tsuki.Alloc

open Lib

abbrev Layout := Lib.Layout isizeMax

/-- The layouts that the compiler chose for the types of objects, where `contents` and `upvalue` are the offsets of the
last fields of `Str` and `CClosure`. -/
structure Types where
  object : Layout
  str : Layout
  contents : Nat
  userData : Layout
  cClosure : Layout
  upvalue : Nat
  unsafeValue : Nat
  luaFn : Layout
  upVal : Layout
  table : Layout
  thread : Layout
  proto : Layout
  rustId : Layout

/-- What is created. -/
inductive Kind
  /-- `Str::alloc`, of `l` bytes. -/
  | str (l : Nat)
  /-- `UserData::new` of a value with a layout. -/
  | userData (value : Layout)
  /-- `luaF_newCclosure`. -/
  | rustFn (nupvals : Int)
  /-- `luaF_newLclosure`. -/
  | luaFn
  /-- `luaF_initupvals` and `newupval`. -/
  | upVal
  | table
  | thread
  | proto
  | rustId
  /-- The sweep mark of `Gc::step`. -/
  | sweepMark
  /-- `BTreeMap::new`, of a type with a layout. -/
  | collection (self : Layout)

/-- A block with what `Gc::free` finds in it: the type, the length of a string, the number of upvalues, the layout of what
`ptr` points to. -/
structure Block where
  layout : Layout
  tt : Nat
  len : Nat
  nupvalues : Nat
  value : Option Layout

variable (types : Types)

/-- A type that has a layout of its own. -/
def alloc (tt : Nat) (layout : Layout) : Block := ⟨layout, tt, 0, 0, none⟩

/-- `Str::alloc`. -/
def strAlloc (l : Nat) : Option Block := do
  let size := types.contents + l + 1
  let layout ← Layout.fromSizeAlign size types.str.align
  some { alloc 4 layout.padToAlign with len := l }

/-- `UserData::new`. -/
def userDataNew (value : Layout) : Option Block := do
  let (layout, _) ← types.userData.extend value
  some { alloc 7 layout.padToAlign with value := some value }

/-- `u8::try_from`. -/
def u8TryFrom (n : Int) : Option Nat := if 0 ≤ n ∧ n ≤ 255 then some n.toNat else none

/-- `luaF_newCclosure`. -/
def newCclosure (nupvals : Int) : Option Block := do
  let nupvals ← u8TryFrom nupvals
  let size := types.upvalue + types.unsafeValue * nupvals
  let layout ← Layout.fromSizeAlign size types.cClosure.align
  some { alloc (6 ||| 2 <<< 4) layout.padToAlign with nupvalues := nupvals }

/-- The constructors; none where they panic. -/
def create : Kind → Option Block
  | .str l => strAlloc types l
  | .userData value => userDataNew types value
  | .rustFn nupvals => newCclosure types nupvals
  | .luaFn => some (alloc 6 types.luaFn)
  | .upVal => some (alloc 9 types.upVal)
  | .table => some (alloc 5 types.table)
  | .thread => some (alloc 8 types.thread)
  | .proto => some (alloc 10 types.proto)
  | .rustId => some (alloc 14 types.rustId)
  | .sweepMark => some (alloc 15 types.object)
  | .collection self => some { alloc (14 ||| 1 <<< 4) self with value := some self }

/-- `Gc::free`: the layout passed to `dealloc`, which for a sweep mark is that of the sweep mark kept before. -/
def free (o : Block) : Option Layout :=
  match o.tt with
  | 10 => some types.proto
  | 9 => some types.upVal
  | 6 => some types.luaFn
  | 38 => do
    let size := types.upvalue + types.unsafeValue * o.nupvalues
    let layout ← Layout.fromSizeAlign size types.cClosure.align
    some layout.padToAlign
  | 5 => some types.table
  | 8 => some types.thread
  | 7 => do
    let layout ← o.value
    let (layout, _) ← types.userData.extend layout
    some layout
  | 4 => do
    let size := types.contents + o.len + 1
    let layout ← Layout.fromSizeAlign size types.str.align
    some layout.padToAlign
  | 0x0E => some types.rustId
  | 0x1E => o.value
  | 0x0F => some types.object
  | _ => none

/-- Where the value of a userdata ends, which is the end of the block but for the padding. -/
def userDataEnd (value : Layout) : Nat := roundUp types.userData.size value.align + value.size

/-- Every object is freed with the layout that it was allocated with, but for a userdata whose value does not end at a
multiple of the alignment. -/
theorem free_layout_iff {kind : Kind} {o : Block} (h : create types kind = some o) :
    free types o = some o.layout ↔
      ∀ value, kind = .userData value → max types.userData.align value.align ∣ userDataEnd types value := by
  cases kind with
  | luaFn | upVal | table | thread | proto | rustId | sweepMark | collection _ =>
    obtain rfl := Option.some.inj h
    exact ⟨fun _ _ => nofun, fun _ => rfl⟩
  | str l =>
    obtain ⟨layout, hlayout, ho⟩ := Option.bind_eq_some_iff.mp h
    obtain rfl := Option.some.inj ho
    refine ⟨fun _ _ => nofun, fun _ => ?_⟩
    exact Option.bind_eq_some_iff.mpr ⟨layout, hlayout, rfl⟩
  | rustFn nupvals =>
    obtain ⟨n, -, h⟩ := Option.bind_eq_some_iff.mp h
    obtain ⟨layout, hlayout, ho⟩ := Option.bind_eq_some_iff.mp h
    obtain rfl := Option.some.inj ho
    refine ⟨fun _ _ => nofun, fun _ => ?_⟩
    exact Option.bind_eq_some_iff.mpr ⟨layout, hlayout, rfl⟩
  | userData value =>
    obtain ⟨⟨layout, offset⟩, hlayout, ho⟩ := Option.bind_eq_some_iff.mp h
    obtain rfl := Option.some.inj ho
    obtain ⟨hsize, halign⟩ := Layout.extend_eq_some hlayout
    have hfree : free types { alloc 7 layout.padToAlign with value := some value } = some layout :=
      Option.bind_eq_some_iff.mpr ⟨(layout, offset), hlayout, rfl⟩
    have hiff : layout.padToAlign = layout ↔ max types.userData.align value.align ∣ userDataEnd types value := by
      rw [Layout.padToAlign_eq_iff, hsize, halign]
      rfl
    rw [hfree, Option.some.injEq, eq_comm]
    refine hiff.trans ⟨fun hdvd value' heq => ?_, fun hall => hall value rfl⟩
    obtain rfl := Kind.userData.inj heq
    exact hdvd

/-- The layouts of a target with pointers of 8 bytes. -/
def types64 : Types where
  object := ⟨56, 8, by decide, by decide⟩
  str := ⟨96, 8, by decide, by decide⟩
  contents := 88
  userData := ⟨104, 8, by decide, by decide⟩
  cClosure := ⟨88, 8, by decide, by decide⟩
  upvalue := 72
  unsafeValue := 16
  luaFn := ⟨80, 8, by decide, by decide⟩
  upVal := ⟨80, 8, by decide, by decide⟩
  table := ⟨112, 8, by decide, by decide⟩
  thread := ⟨224, 8, by decide, by decide⟩
  proto := ⟨160, 8, by decide, by decide⟩
  rustId := ⟨72, 8, by decide, by decide⟩

/-- The layout of a `u8`. -/
def u8 : Layout := ⟨1, 1, by decide, by decide⟩

theorem free_layout_iff_u8 : ∃ o, create types64 (.userData u8) = some o ∧ (free types64 o = some o.layout ↔
    ∀ value, Kind.userData u8 = .userData value →
      max types64.userData.align value.align ∣ userDataEnd types64 value) :=
  ⟨_, rfl, @free_layout_iff types64 (.userData u8) _ rfl⟩

/-- A userdata over a `u8` is allocated with 112 bytes and freed with 105. -/
theorem free_layout_differs : ∃ o l, create types64 (.userData u8) = some o ∧ free types64 o = some l ∧
    o.layout.size = 112 ∧ l.size = 105 ∧ l ≠ o.layout := by
  refine ⟨_, _, rfl, rfl, rfl, rfl, fun h => ?_⟩
  have hsize := congrArg Layout.size h
  exact absurd hsize (by decide)

end Tsuki.Alloc
