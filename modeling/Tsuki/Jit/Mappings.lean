import Tsuki.Jit.Laid
import Mathlib.Data.List.Chain

/-!
# Mappings

What the allocator stands for: mappings that do not overlap, each tiled by segments. An inactive block has no waste, two
of them are not neighbours, and a mapping has an active one. The pools are sorted lists of the inactive blocks.
-/

namespace Tsuki.Jit

open Lib.Tiling

/-- A mapping: where it is, and the alignment of its blocks, as a power of two. -/
structure Mapping where
  base : Nat
  size : Nat
  pool : Nat
  segs : List Seg

/-- One of two neighbours is active. -/
abbrev Apart (s t : Seg) : Prop := s.active = true ∨ t.active = true

/-- The segments tile the mapping. -/
structure Mapping.Tiled (m : Mapping) : Prop where
  total : total Seg.len m.segs = m.size
  aligned : ∀ x ∈ starts Seg.len m.base m.segs, 2 ^ m.pool ∣ x.1
  pos : ∀ s ∈ m.segs, 0 < s.size
  waste : ∀ s ∈ m.segs, s.active = false → s.waste = 0
  apart : m.segs.IsChain Apart
  used : ∃ s ∈ m.segs, s.active = true
  fits : m.size < 2 ^ 64

/-- The blocks of the mappings with the pool. -/
def freeOf (pool : Nat) (ms : List Mapping) : List Block :=
  (ms.filter fun m => m.pool = pool).flatMap fun m => blocksOf false m.base m.segs

/-- The mappings do not overlap. -/
def Disjoint (m n : Mapping) : Prop := m.base + m.size ≤ n.base ∨ n.base + n.size ≤ m.base

/-- The allocator has these mappings. -/
structure Represents (al : CodeAllocator) (ms : List Mapping) : Prop where
  tiled : ∀ m ∈ ms, m.Tiled
  laid : ∀ m ∈ ms, Laid al.mem (m.base, m.size) m.pool none none m.base m.segs
  disjoint : ms.Pairwise Disjoint
  pools : ∀ m ∈ ms, m.pool < al.pools
  free : ∀ pool, (al.free pool).Perm (freeOf pool ms)
  sorted : ∀ pool, (al.free pool).Pairwise Before

theorem Disjoint.symm {m n : Mapping} (h : Disjoint m n) : Disjoint n m := Or.symm h

theorem freeOf_append (pool : Nat) (ms ns : List Mapping) :
    freeOf pool (ms ++ ns) = freeOf pool ms ++ freeOf pool ns := by
  rw [freeOf, List.filter_append, List.flatMap_append]
  rfl

theorem freeOf_cons_self (m : Mapping) (ms : List Mapping) :
    freeOf m.pool (m :: ms) = blocksOf false m.base m.segs ++ freeOf m.pool ms := by
  simp [freeOf]

theorem freeOf_cons_ne {m : Mapping} {pool : Nat} (h : m.pool ≠ pool) (ms : List Mapping) :
    freeOf pool (m :: ms) = freeOf pool ms := by
  simp [freeOf, h]

theorem mem_freeOf {pool : Nat} {ms : List Mapping} {b : Block} :
    b ∈ freeOf pool ms ↔ ∃ m ∈ ms, m.pool = pool ∧ b ∈ blocksOf false m.base m.segs := by
  simp only [freeOf, List.mem_flatMap, List.mem_filter, decide_eq_true_eq, and_assoc]

instance : Std.Total Before := ⟨fun b c => by unfold Before; omega⟩

instance : IsTrans Block Before := ⟨fun b c d h h' => by unfold Before at *; omega⟩

section

variable {al al' : CodeAllocator} {ms ms' : List Mapping} {m : Mapping} {pool : Nat} {b : Block}

theorem CodeAllocator.remove_eq (h : b ∈ al.free pool) :
    al.remove pool b = .ok { al with free := Function.update al.free pool ((al.free pool).erase b) } := if_pos h

theorem CodeAllocator.insert_eq (al : CodeAllocator) (pool : Nat) (b : Block) (h : b ∉ al.free pool) :
    al.insert pool b =
      .ok { al with free := Function.update al.free pool ((al.free pool).orderedInsert Before b) } := if_neg h

theorem Represents.mem_free (h : Represents al ms) : b ∈ al.free pool ↔
    ∃ m ∈ ms, m.pool = pool ∧ b ∈ blocksOf false m.base m.segs := by
  rw [(h.free pool).mem_iff, mem_freeOf]

theorem Represents.disjoint_of_mem (h : Represents al (ms ++ m :: ms')) {n : Mapping} (hn : n ∈ ms ++ ms') :
    Disjoint m n := by
  obtain ⟨-, h₂, h₃⟩ := List.pairwise_append.mp h.disjoint
  rcases List.mem_append.mp hn with hn | hn
  · exact (h₃ n hn m List.mem_cons_self).symm
  · exact (List.pairwise_cons.mp h₂).1 n hn

/-- The segments of one mapping are replaced. -/
theorem Represents.replace (h : Represents al (ms ++ m :: ms')) {segs : List Seg}
    (htiled : Mapping.Tiled { m with segs })
    (hlaid : Laid al'.mem (m.base, m.size) m.pool none none m.base segs)
    (hout : ∀ x, x + metaSize ≤ m.base ∨ m.base + m.size ≤ x → al'.mem x = al.mem x)
    (hpools : al.pools ≤ al'.pools) (hother : ∀ pool, pool ≠ m.pool → al'.free pool = al.free pool)
    (hfree : (al'.free m.pool).Perm (freeOf m.pool ms ++ (blocksOf false m.base segs ++ freeOf m.pool ms')))
    (hsorted : (al'.free m.pool).Pairwise Before) : Represents al' (ms ++ { m with segs } :: ms') := by
  have hmem : ∀ n ∈ ms ++ { m with segs } :: ms', n = { m with segs } ∨ n ∈ ms ++ ms' := by
    intro n hn
    rcases List.mem_append.mp hn with hn | hn
    · exact .inr (List.mem_append_left _ hn)
    · exact (List.mem_cons.mp hn).imp_right (List.mem_append_right _)
  have hold : ∀ n ∈ ms ++ ms', n ∈ ms ++ m :: ms' := fun n hn =>
    (List.mem_append.mp hn).elim (List.mem_append_left _) fun hn => List.mem_append_right _ (List.mem_cons_of_mem _ hn)
  have hself : m ∈ ms ++ m :: ms' := List.mem_append_right _ List.mem_cons_self
  refine ⟨fun n hn => ?_, fun n hn => ?_, ?_, fun n hn => ?_, fun pool => ?_, fun pool => ?_⟩
  · rcases hmem n hn with rfl | hn
    · exact htiled
    · exact h.tiled n (hold n hn)
  · rcases hmem n hn with rfl | hn
    · exact hlaid
    · refine (h.laid n (hold n hn)).congr fun x hx hx' => hout x ?_
      rw [(h.tiled n (hold n hn)).total] at hx'
      have := metaSize_pos
      rcases h.disjoint_of_mem hn with hd | hd
      · exact .inr (by omega)
      · exact .inl (by omega)
  · obtain ⟨h₁, h₂, h₃⟩ := List.pairwise_append.mp h.disjoint
    obtain ⟨h₄, h₅⟩ := List.pairwise_cons.mp h₂
    refine List.pairwise_append.mpr ⟨h₁, List.pairwise_cons.mpr ⟨h₄, h₅⟩, fun x hx y hy => ?_⟩
    rcases List.mem_cons.mp hy with rfl | hy
    · exact h₃ x hx m List.mem_cons_self
    · exact h₃ x hx y (List.mem_cons_of_mem _ hy)
  · rcases hmem n hn with rfl | hn
    · exact Nat.lt_of_lt_of_le (h.pools m hself) hpools
    · exact Nat.lt_of_lt_of_le (h.pools n (hold n hn)) hpools
  · by_cases hpool : pool = m.pool
    · subst hpool
      rw [freeOf_append, freeOf_cons_self (m := { m with segs })]
      exact hfree
    · rw [hother pool hpool, freeOf_append, freeOf_cons_ne (m := { m with segs }) (Ne.symm hpool)]
      have := h.free pool
      rwa [freeOf_append, freeOf_cons_ne (Ne.symm hpool)] at this
  · by_cases hpool : pool = m.pool
    · subst hpool
      exact hsorted
    · rw [hother pool hpool]
      exact h.sorted pool

/-- No address inside of a mapping is that of an inactive block of another one. -/
theorem Represents.notMem_free (h : Represents al (ms ++ m :: ms')) (hle : m.base ≤ b.2) (hlt : b.2 < m.base + m.size)
    (hb : b ∉ blocksOf false m.base m.segs) : b ∉ al.free pool := by
  rw [h.mem_free]
  rintro ⟨n, hn, -, hmem⟩
  have hn : n = m ∨ n ∈ ms ++ ms' := by
    rcases List.mem_append.mp hn with hn | hn
    · exact .inr (List.mem_append_left _ hn)
    · exact (List.mem_cons.mp hn).imp_right (List.mem_append_right _)
  rcases hn with rfl | hn
  · exact hb hmem
  · obtain ⟨hle', hlt'⟩ := blocksOf_bounds hmem
    have hold : n ∈ ms ++ m :: ms' := (List.mem_append.mp hn).elim (List.mem_append_left _) fun hn =>
      List.mem_append_right _ (List.mem_cons_of_mem _ hn)
    rw [(h.tiled n hold).total] at hlt'
    have := metaSize_pos
    rcases h.disjoint_of_mem hn with hd | hd <;> omega

end

end Tsuki.Jit
