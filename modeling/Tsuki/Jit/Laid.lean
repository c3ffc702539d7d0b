import Tsuki.Jit.Allocator
import Tsuki.Lib.Tiling
import Mathlib.Tactic.SplitIfs

/-!
# The headers of a mapping

A mapping is a list of segments: a block, its header and its waste. `Laid` says that the headers of the segments are in
memory, linked in both directions; a stretch of segments can be replaced by another one of the same length.
-/

namespace Tsuki.Jit

open Lib.Tiling

/-- A block with its header and the waste behind it. -/
@[ext]
structure Seg where
  size : Nat
  waste : Nat
  active : Bool
  deriving DecidableEq, Repr

def Seg.len (s : Seg) : Nat := s.size + metaSize + s.waste

theorem metaSize_pos : 0 < metaSize := by decide

namespace Memory

variable {mem : Memory} {a x : Nat} {m : BlockMeta}

theorem write_self (mem : Memory) (a : Nat) (m : BlockMeta) : mem.write a m a = some m := if_pos rfl

theorem write_of_apart (h : x + metaSize ≤ a ∨ a + metaSize ≤ x) : mem.write a m x = mem x := by
  have := metaSize_pos
  rw [write, if_neg (by omega), if_neg (by omega)]

theorem modify_spec (mem : Memory) (a : Nat) (f : BlockMeta → BlockMeta) (h : (mem a).isSome) :
    ∃ mem', mem.modify a f = .ok mem' ∧ ∀ x, mem' x = if x = a then (mem x).map f else mem x := by
  obtain ⟨m, hm⟩ := Option.isSome_iff_exists.mp h
  refine ⟨Function.update mem a (some (f m)), by rw [modify, hm], fun x => ?_⟩
  by_cases hx : x = a
  · subst hx
    rw [Function.update_self, if_pos rfl, hm]
    rfl
  · rw [Function.update_of_ne hx, if_neg hx]

theorem setNext_spec (mem : Memory) {p : Option Nat} (v : Option Nat) (h : ∀ y, p = some y → (mem y).isSome) :
    ∃ mem', mem.setNext p v = .ok mem' ∧
      ∀ x, mem' x = if some x = p then (mem x).map fun m => { m with next := v } else mem x := by
  cases p with
  | none => exact ⟨mem, rfl, fun x => (if_neg (by simp)).symm⟩
  | some y =>
    obtain ⟨mem', hmem, heq⟩ := modify_spec mem y _ (h y rfl)
    refine ⟨mem', hmem, fun x => (heq x).trans ?_⟩
    simp only [Option.some.injEq]

theorem setPrev_spec (mem : Memory) {p : Option Nat} (v : Option Nat) (h : ∀ y, p = some y → (mem y).isSome) :
    ∃ mem', mem.setPrev p v = .ok mem' ∧
      ∀ x, mem' x = if some x = p then (mem x).map fun m => { m with prev := v } else mem x := by
  cases p with
  | none => exact ⟨mem, rfl, fun x => (if_neg (by simp)).symm⟩
  | some y =>
    obtain ⟨mem', hmem, heq⟩ := modify_spec mem y _ (h y rfl)
    refine ⟨mem', hmem, fun x => (heq x).trans ?_⟩
    simp only [Option.some.injEq]

end Memory

/-- The first header, or the one behind the segments. -/
def headHdr (next : Option Nat) (a : Nat) : List Seg → Option Nat
  | [] => next
  | s :: _ => some (a + s.size)

/-- The last header, or the one before the segments. -/
def lastHdr (prev : Option Nat) (a : Nat) : List Seg → Option Nat
  | [] => prev
  | s :: l => lastHdr (some (a + s.size)) (a + s.len) l

/-- The headers of segments from `a` on, between the headers `prev` and `next`. -/
def Laid (mem : Memory) (pages : Nat × Nat) (pool : Nat) (next : Option Nat) : Option Nat → Nat → List Seg → Prop
  | _, _, [] => True
  | prev, a, s :: l =>
    mem (a + s.size) = some ⟨pages, prev, headHdr next (a + s.len) l, s.size, s.waste, s.active, pool⟩ ∧
      Laid mem pages pool next (some (a + s.size)) (a + s.len) l

/-- The blocks that are active, or those that are not. -/
def blocksOf (act : Bool) (a : Nat) (l : List Seg) : List Block :=
  ((starts Seg.len a l).filter fun x => x.2.active = act).map fun x => (x.2.size, x.1)

section

variable {mem mem' : Memory} {pages : Nat × Nat} {pool a : Nat} {next prev : Option Nat} {l l' : List Seg}

theorem headHdr_append : headHdr next a (l ++ l') = headHdr (headHdr next (a + total Seg.len l) l') a l := by
  cases l <;> rfl

theorem lastHdr_append : lastHdr prev a (l ++ l') = lastHdr (lastHdr prev a l) (a + total Seg.len l) l' := by
  induction l generalizing prev a with
  | nil => rfl
  | cons s l ih => rw [List.cons_append, lastHdr, lastHdr, ih, total_cons, Nat.add_assoc]

theorem laid_append : Laid mem pages pool next prev a (l ++ l') ↔
    Laid mem pages pool (headHdr next (a + total Seg.len l) l') prev a l ∧
      Laid mem pages pool next (lastHdr prev a l) (a + total Seg.len l) l' := by
  induction l generalizing prev a with
  | nil => simp [Laid, lastHdr]
  | cons s l ih =>
    rw [List.cons_append, Laid, Laid, ih, headHdr_append, lastHdr, total_cons, ← Nat.add_assoc, and_assoc]

theorem Laid.congr (h : Laid mem pages pool next prev a l)
    (hmem : ∀ x, a ≤ x → x + metaSize ≤ a + total Seg.len l → mem' x = mem x) :
    Laid mem' pages pool next prev a l := by
  induction l generalizing prev a with
  | nil => trivial
  | cons s l ih =>
    rw [total_cons, Seg.len] at hmem
    refine ⟨(hmem _ (by omega) (by omega)).trans h.1, ih h.2 fun x hx hx' => hmem x ?_ ?_⟩
    · rw [Seg.len] at hx
      omega
    · rw [Seg.len] at hx'
      omega

/-- The last header is the one before, or among those of the segments. -/
theorem lastHdr_eq {y : Nat} (h : lastHdr prev a l = some y) :
    l = [] ∧ prev = some y ∨ a ≤ y ∧ y + metaSize ≤ a + total Seg.len l := by
  induction l generalizing prev a with
  | nil => exact .inl ⟨rfl, h⟩
  | cons s l ih =>
    refine .inr ?_
    rw [total_cons, Seg.len]
    rcases ih h with ⟨rfl, heq⟩ | ⟨hle, hlt⟩
    · obtain rfl := Option.some.inj heq
      rw [total_nil]
      omega
    · rw [Seg.len] at hle hlt
      omega

theorem headHdr_eq {y : Nat} (h : headHdr next a l = some y) :
    l = [] ∧ next = some y ∨ a ≤ y ∧ y + metaSize ≤ a + total Seg.len l := by
  cases l with
  | nil => exact .inl ⟨rfl, h⟩
  | cons s l =>
    obtain rfl := Option.some.inj h
    rw [total_cons, Seg.len]
    exact .inr (by omega)

theorem Laid.last_isSome (h : Laid mem pages pool next none a l) {y : Nat} (hy : lastHdr none a l = some y) :
    (mem y).isSome := by
  rcases List.eq_nil_or_concat' l with rfl | ⟨l, s, rfl⟩
  · cases hy
  · rw [lastHdr_append] at hy
    obtain rfl := Option.some.inj hy
    rw [(laid_append.mp h).2.1]
    rfl

theorem Laid.head_isSome (h : Laid mem pages pool none prev a l) {y : Nat} (hy : headHdr none a l = some y) :
    (mem y).isSome := by
  cases l with
  | nil => cases hy
  | cons s l =>
    obtain rfl := Option.some.inj hy
    rw [h.1]
    rfl

theorem Laid.setNext (h : Laid mem pages pool next prev a l) {next' : Option Nat}
    (hmem : ∀ x, a ≤ x → x + metaSize ≤ a + total Seg.len l → mem' x =
      if some x = lastHdr prev a l then (mem x).map fun m => { m with next := next' } else mem x) :
    Laid mem' pages pool next' prev a l := by
  induction l generalizing prev a with
  | nil => trivial
  | cons s l ih =>
    obtain ⟨hs, hl⟩ := h
    rw [total_cons, Seg.len, lastHdr, Seg.len] at hmem
    have hhead := hmem (a + s.size) (by omega) (by omega)
    refine ⟨?_, ih hl fun x hx hx' => hmem x ?_ ?_⟩
    · cases l with
      | nil =>
        rw [lastHdr, if_pos rfl, hs] at hhead
        exact hhead
      | cons t l =>
        rw [if_neg, hs] at hhead
        · exact hhead
        · intro heq
          rcases lastHdr_eq heq.symm with ⟨hnil, -⟩ | ⟨hle, -⟩
          · cases hnil
          · have := metaSize_pos
            omega
    · rw [Seg.len] at hx
      omega
    · rw [Seg.len] at hx'
      omega

theorem Laid.setPrev (h : Laid mem pages pool next prev a l) {prev' : Option Nat}
    (hmem : ∀ x, a ≤ x → x + metaSize ≤ a + total Seg.len l → mem' x =
      if some x = headHdr next a l then (mem x).map fun m => { m with prev := prev' } else mem x) :
    Laid mem' pages pool next prev' a l := by
  cases l with
  | nil => trivial
  | cons s l =>
    obtain ⟨hs, hl⟩ := h
    rw [total_cons, Seg.len] at hmem
    refine ⟨?_, hl.congr fun x hx hx' => ?_⟩
    · rw [hmem _ (by omega) (by omega), headHdr, if_pos rfl, hs]
      rfl
    · rw [Seg.len] at hx hx'
      have := metaSize_pos
      rw [hmem x (by omega) (by omega), headHdr, if_neg]
      intro heq
      have := Option.some.inj heq
      omega

/-- A stretch of segments is replaced by one of the same length, and the headers around are linked to the new ones. -/
theorem Laid.replace {pre mid mid' post : List Seg} (h : Laid mem pages pool none none a (pre ++ (mid ++ post)))
    (hlen : total Seg.len mid' = total Seg.len mid)
    (hpre : ∀ x, a ≤ x → x + metaSize ≤ a + total Seg.len pre → mem' x = if some x = lastHdr none a pre then
      (mem x).map fun m => { m with
        next := headHdr (headHdr none (a + total Seg.len pre + total Seg.len mid) post) (a + total Seg.len pre) mid' }
      else mem x)
    (hpost : ∀ x, a + total Seg.len pre + total Seg.len mid ≤ x → mem' x =
      if some x = headHdr none (a + total Seg.len pre + total Seg.len mid) post then (mem x).map fun m => { m with
        prev := lastHdr (lastHdr none a pre) (a + total Seg.len pre) mid' }
      else mem x)
    (hmid : Laid mem' pages pool (headHdr none (a + total Seg.len pre + total Seg.len mid) post) (lastHdr none a pre)
      (a + total Seg.len pre) mid') :
    Laid mem' pages pool none none a (pre ++ (mid' ++ post)) := by
  obtain ⟨h₁, h₂⟩ := laid_append.mp h
  obtain ⟨-, h₃⟩ := laid_append.mp h₂
  refine laid_append.mpr ⟨?_, laid_append.mpr ⟨?_, ?_⟩⟩
  · rw [headHdr_append, hlen]
    exact h₁.setNext hpre
  · rw [hlen]
    exact hmid
  · rw [hlen]
    exact h₃.setPrev fun x hx _ => hpost x hx

theorem blocksOf_append (act : Bool) (a : Nat) (l l' : List Seg) :
    blocksOf act a (l ++ l') = blocksOf act a l ++ blocksOf act (a + total Seg.len l) l' := by
  rw [blocksOf, starts_append, List.filter_append, List.map_append]
  rfl

theorem blocksOf_cons (act : Bool) (a : Nat) (s : Seg) (l : List Seg) :
    blocksOf act a (s :: l) = (if s.active = act then [(s.size, a)] else []) ++ blocksOf act (a + s.len) l := by
  rw [blocksOf, starts_cons, List.filter_cons]
  by_cases hs : s.active = act
  · simp [hs, blocksOf]
  · simp [hs, blocksOf]

theorem mem_blocksOf {act : Bool} {b : Block} : b ∈ blocksOf act a l ↔
    ∃ s, (b.2, s) ∈ starts Seg.len a l ∧ s.active = act ∧ s.size = b.1 := by
  simp only [blocksOf, List.mem_map, List.mem_filter, decide_eq_true_eq]
  constructor
  · rintro ⟨x, ⟨hx, hact⟩, rfl⟩
    exact ⟨x.2, hx, hact, rfl⟩
  · rintro ⟨s, hs, hact, hsize⟩
    exact ⟨(b.2, s), ⟨hs, hact⟩, Prod.ext hsize rfl⟩

theorem blocksOf_bounds {act : Bool} {b : Block} (h : b ∈ blocksOf act a l) :
    a ≤ b.2 ∧ b.2 + b.1 + metaSize ≤ a + total Seg.len l := by
  obtain ⟨s, hs, -, hsize⟩ := mem_blocksOf.mp h
  obtain ⟨hle, hlt⟩ := bounds hs
  rw [Seg.len] at hlt
  omega

end

end Tsuki.Jit
