import Tsuki.Jit.Deallocate

/-!
# Runs of the allocator

Blocks are allocated, filled with code and given back, in any order, and the system gives pages or refuses them.

The invariant is that some list of mappings represents the allocator and has the blocks of the caller in use
(`World.Inv`). A call changes one mapping of the list, adds one or drops one, and what it does to the blocks in use is a
permutation, so that the invariant is kept by each call (`World.Inv.step`) and holds in every run (`Run.inv`); the
results are read off the list.
-/

namespace Tsuki.Jit

open Lib.Tiling

/-- A call. -/
inductive Op
  | allocate (size align : Nat) (sys : System)
  /-- Code is written to a block. -/
  | fill (b : Block)
  | deallocate (b : Block) (sys : System)
  deriving DecidableEq, Repr

/-- The allocator, with the blocks in use. -/
structure World where
  al : CodeAllocator
  live : List Block

namespace World

def step (w : World) : Op → Except Fault World
  | .allocate size align sys => do
    let (lb, al) ← w.al.allocate size align sys
    .ok ⟨al, lb.toList.map (size, ·) ++ w.live⟩
  | .fill b => .ok { w with al := { w.al with mem := w.al.mem.clear b.2 b.1 } }
  | .deallocate b sys => do
    let al ← w.al.deallocate b.2 b.1 sys
    .ok ⟨al, w.live.erase b⟩

/-- The bytes of a mapping for `size` bytes. -/
def pagesLen (w : World) (size : Nat) : Nat := Lib.roundUp (size + metaSize) (w.al.pageSize * 64)

/-- The system does not give pages that are mapped. -/
def Fresh (w : World) (lb len : Nat) : Prop :=
  ∀ a b, w.al.mem a = some b → lb + len ≤ b.pages.1 ∨ b.pages.1 + b.pages.2 ≤ lb

/-- What the caller and the system answer for. -/
def Allowed (w : World) : Op → Prop
  | .allocate size align sys => 0 < size ∧ Lib.PowerOfTwo align ∧ align ≤ w.al.pageSize ∧
      w.pagesLen size < 2 ^ 64 ∧ ∀ lb, sys.pages = some lb → w.al.pageSize ∣ lb ∧ w.Fresh lb (w.pagesLen size)
  | .fill b => b ∈ w.live
  | .deallocate b _ => b ∈ w.live

end World

/-- The system refuses to change what a mapping allows, or to take it back. -/
def Op.Refused : Op → Prop
  | .allocate _ _ sys => sys.writable = false
  | .fill _ => False
  | .deallocate _ sys => sys.writable = false ∨ sys.executable = false ∨ sys.unmapped = false

/-- The worlds that calls lead to. -/
inductive Run (pageSize : Nat) : World → Prop
  | new : Run pageSize ⟨.new pageSize, []⟩
  | step {w w' : World} {op : Op} : Run pageSize w → w.Allowed op → w.step op = .ok w' → Run pageSize w'

/-- The mappings are tiled, and the blocks in use are those of the caller. -/
structure World.Inv (w : World) : Prop where
  page : Lib.PowerOfTwo w.al.pageSize
  represents : ∃ ms, Represents w.al ms ∧ (liveOf ms).Perm w.live

section

variable {al : CodeAllocator} {ms : List Mapping} {m n : Mapping}

/-- The header of a block. -/
theorem Represents.header (h : Represents al ms) (hm : m ∈ ms) {p : Nat} {s : Seg}
    (hs : (p, s) ∈ starts Seg.len m.base m.segs) :
    ∃ b, al.mem (p + s.size) = some b ∧ b.pages = (m.base, m.size) ∧ b.size = s.size ∧ b.active = s.active := by
  obtain ⟨pre, post, hsegs, rfl⟩ := exists_of_mem_starts hs
  have hlaid := h.laid m hm
  rw [hsegs] at hlaid
  exact ⟨_, (laid_append.mp hlaid).2.1, rfl, rfl, rfl⟩

theorem Represents.fresh (h : Represents al ms) {lb len : Nat} (hfresh : ∀ a b, al.mem a = some b →
    lb + len ≤ b.pages.1 ∨ b.pages.1 + b.pages.2 ≤ lb) (hm : m ∈ ms) :
    lb + len ≤ m.base ∨ m.base + m.size ≤ lb := by
  obtain ⟨s, hs, -⟩ := (h.tiled m hm).used
  obtain ⟨pre, post, hsegs⟩ := List.append_of_mem hs
  obtain ⟨b, hb, hpages, -⟩ := h.header hm (hsegs ▸ mem_starts m.base pre s post)
  have := hfresh _ b hb
  rwa [hpages] at this

instance : Std.Symm Disjoint := ⟨fun _ _ => Disjoint.symm⟩

instance : Std.Symm fun x y : Nat × Seg => x.1 + x.2.len ≤ y.1 ∨ y.1 + y.2.len ≤ x.1 := ⟨fun _ _ => Or.symm⟩

/-- Two blocks are the same one, or share nothing. -/
theorem Represents.separate (h : Represents al ms) (hm : m ∈ ms) (hn : n ∈ ms) {x y : Nat × Seg}
    (hx : x ∈ starts Seg.len m.base m.segs) (hy : y ∈ starts Seg.len n.base n.segs) :
    m = n ∧ x = y ∨ x.1 + x.2.len ≤ y.1 ∨ y.1 + y.2.len ≤ x.1 := by
  by_cases hmn : m = n
  · subst hmn
    by_cases hxy : x = y
    · exact .inl ⟨rfl, hxy⟩
    · refine .inr ?_
      have hpair : (starts Seg.len m.base m.segs).Pairwise fun x y => x.1 + x.2.len ≤ y.1 ∨ y.1 + y.2.len ≤ x.1 :=
        (pairwise_starts m.base m.segs).imp .inl
      exact hpair.forall hx hy hxy
  · refine .inr ?_
    have hx := bounds hx
    have hy := bounds hy
    rw [(h.tiled m hm).total] at hx
    rw [(h.tiled n hn).total] at hy
    rcases h.disjoint.forall hm hn hmn with hd | hd
    · exact .inl (by omega)
    · exact .inr (by omega)

/-- What happens between the headers does not matter. -/
theorem Laid.congr_headers {mem mem' : Memory} {pages : Nat × Nat} {pool a : Nat} {next prev : Option Nat}
    {l : List Seg} (h : Laid mem pages pool next prev a l)
    (hmem : ∀ x ∈ starts Seg.len a l, mem' (x.1 + x.2.size) = mem (x.1 + x.2.size)) :
    Laid mem' pages pool next prev a l := by
  induction l generalizing prev a with
  | nil => trivial
  | cons s l ih =>
    exact ⟨(hmem (a, s) List.mem_cons_self).trans h.1, ih h.2 fun x hx => hmem x (List.mem_cons_of_mem _ hx)⟩

/-- Code in a block in use leaves the headers alone. -/
theorem Represents.fill (h : Represents al ms) {b : Block} (hb : b ∈ liveOf ms) :
    Represents { al with mem := al.mem.clear b.2 b.1 } ms := by
  refine ⟨h.tiled, fun m hm => (h.laid m hm).congr_headers fun x hx => ?_, h.disjoint, h.pools, h.free, h.sorted⟩
  obtain ⟨n, hn, hblock⟩ := List.mem_flatMap.mp hb
  obtain ⟨s, hs, -, hsize⟩ := mem_blocksOf.mp hblock
  have hmeta := metaSize_pos
  refine if_neg fun hover => ?_
  rcases h.separate hm hn hx hs with ⟨-, rfl⟩ | hd | hd
  · simp only at hover
    omega
  · rw [Seg.len] at hd
    simp only at hd
    omega
  · simp only [Seg.len] at hd
    omega

end

theorem pow_dvd_pow_of_le {a b : Nat} (ha : Lib.PowerOfTwo a) (hb : Lib.PowerOfTwo b) (h : a ≤ b) : a ∣ b := by
  rw [ha, hb]
  refine Nat.pow_dvd_pow 2 ?_
  rw [ha, hb] at h
  exact (Nat.pow_le_pow_iff_right (by decide)).mp h

/-- A call that is allowed returns, unless the system refuses what it must not. -/
theorem World.Inv.step {w : World} (h : w.Inv) {op : Op} (hop : w.Allowed op) :
    (∃ w', w.step op = .ok w' ∧ w'.Inv) ∨ w.step op = .error .refused ∧ op.Refused := by
  obtain ⟨hpage, ms, hrep, hlive⟩ := h
  cases op with
  | allocate size align sys =>
    obtain ⟨hpos, halign, hle, hlen, hpages⟩ := hop
    have hdvd := pow_dvd_pow_of_le halign hpage hle
    rcases CodeAllocator.allocate_spec hrep hpos halign hle hlen fun lb hlb =>
        ⟨hdvd.trans (hpages lb hlb).1, fun m hm => hrep.fresh (hpages lb hlb).2 hm⟩ with
      ⟨lb, al', ms', hal, heq, hrep', hperm, -⟩ | ⟨-, hal, hrep'⟩ | ⟨hsys, hal⟩
    · refine .inl ⟨⟨al', (size, lb) :: w.live⟩, ?_, heq ▸ hpage, ms', hrep', hperm.trans (hlive.cons _)⟩
      simp only [World.step, hal, Fault.ok_bind]
      rfl
    · refine .inl ⟨⟨{ w.al with pools := max w.al.pools (align.log2 + 1) }, w.live⟩, ?_, hpage, ms, hrep', hlive⟩
      simp only [World.step, hal, Fault.ok_bind]
      rfl
    · refine .inr ⟨?_, hsys⟩
      simp only [World.step, hal]
      rfl
  | fill b => exact .inl ⟨_, rfl, hpage, ms, hrep.fill (hlive.mem_iff.mpr hop), hlive⟩
  | deallocate b sys =>
    obtain ⟨al', ns, back, hback, hal, heq, hrep', hperm⟩ :=
      CodeAllocator.deallocate_spec hrep (hlive.mem_iff.mpr hop)
    by_cases hsys : (sys.writable && back sys) = true
    · refine .inl ⟨⟨al', w.live.erase b⟩, ?_, heq ▸ hpage, ns, hrep', ?_⟩
      · simp only [World.step, hal, if_pos hsys, Fault.ok_bind]
      · exact (List.cons_perm_iff_perm_erase.mp (hperm.symm.trans hlive)).2
    · refine .inr ⟨?_, ?_⟩
      · simp only [World.step, hal, if_neg hsys]
        rfl
      · rw [Bool.and_eq_true, not_and_or, Bool.not_eq_true, Bool.not_eq_true] at hsys
        rcases hsys with hsys | hsys
        · exact .inl hsys
        · rcases List.mem_pair.mp hback with rfl | rfl
          · exact .inr (.inr hsys)
          · exact .inr (.inl hsys)

theorem Run.inv {pageSize : Nat} (hpage : Lib.PowerOfTwo pageSize) {w : World} (h : Run pageSize w) : w.Inv := by
  induction h with
  | new =>
    refine ⟨hpage, [], ⟨by simp, by simp, .nil, by simp, fun _ => .refl _, fun _ => .nil⟩, .refl _⟩
  | step _ hop heq ih =>
    rcases ih.step hop with ⟨w', hw', hinv⟩ | ⟨hrefused, -⟩
    · rw [heq] at hw'
      exact Except.ok.inj hw' ▸ hinv
    · rw [heq] at hrefused
      cases hrefused

/-- A system that has no pages, and refuses nothing. -/
def noPages : System := ⟨none, true, true, true⟩

/-- A call of a fresh allocator, with pages at 65536. -/
theorem allowed_first : World.Allowed ⟨.new 4096, []⟩ (.allocate 100 16 { noPages with pages := some 65536 }) := by
  refine ⟨by decide, by decide, by decide, by decide, fun lb hlb => ?_⟩
  obtain rfl := Option.some.inj hlb
  exact ⟨by decide, fun a b hb => by cases hb⟩

/-- The world after a call that returns. -/
def World.next (w : World) (op : Op) : World := (w.step op).toOption.getD w

theorem World.step_next {w : World} {op : Op} (h : (w.step op).isOk = true) : w.step op = .ok (w.next op) := by
  rw [World.next]
  cases hstep : w.step op with
  | ok w' => rfl
  | error e =>
    rw [hstep] at h
    cases h

/-- A block of a fresh allocator is in use. -/
def firstWorld : World := World.next ⟨.new 4096, []⟩ (.allocate 100 16 { noPages with pages := some 65536 })

/-- A second block comes from what is left of the first mapping. -/
def secondWorld : World := firstWorld.next (.allocate 50 16 noPages)

/-- The second block is given back. -/
def thirdWorld : World := secondWorld.next (.deallocate (50, 65696) noPages)

theorem worlds_eq : ((World.mk (.new 4096) []).step (.allocate 100 16 { noPages with pages := some 65536 })).isOk = true ∧
    firstWorld.live = [(100, 65536)] ∧ firstWorld.al.free 4 = [(261934, 65696)] ∧ firstWorld.al.pageSize = 4096 ∧
    (firstWorld.al.allocate 50 16 noPages).toOption.map (·.1) = some (some 65696) ∧
    (firstWorld.step (.allocate 50 16 noPages)).isOk = true ∧ secondWorld.live = [(50, 65696), (100, 65536)] ∧
    secondWorld.al.free 4 = [(261822, 65808)] ∧ thirdWorld.live = [(100, 65536)] ∧
    thirdWorld.al.free 4 = [(261934, 65696)] := by
  decide +kernel

theorem run_first : Run 4096 firstWorld := .step .new allowed_first (World.step_next worlds_eq.1)

theorem firstWorld_live : firstWorld.live = [(100, 65536)] := worlds_eq.2.1

theorem firstWorld_free : firstWorld.al.free 4 = [(261934, 65696)] := worlds_eq.2.2.1

theorem allowed_second : firstWorld.Allowed (.allocate 50 16 noPages) := by
  have hpage := worlds_eq.2.2.2.1
  refine ⟨by decide, by decide, ?_, ?_, fun lb hlb => nomatch hlb⟩
  · rw [hpage]
    decide
  · rw [World.pagesLen, hpage]
    decide

theorem run_second : Run 4096 secondWorld :=
  .step run_first allowed_second (World.step_next worlds_eq.2.2.2.2.2.1)

theorem secondWorld_live : secondWorld.live = [(50, 65696), (100, 65536)] := worlds_eq.2.2.2.2.2.2.1

theorem secondWorld_free : secondWorld.al.free 4 = [(261822, 65808)] := worlds_eq.2.2.2.2.2.2.2.1

/-- After any calls, each mapping is tiled by its blocks, headers and waste, its headers are in memory as one list that
is linked in both directions, mappings do not overlap, and a pool has exactly the inactive blocks of its mappings; a mapping has a
block in use, no two inactive blocks in a row, and the blocks in use are those of the caller. -/
theorem allocator_tiled {pageSize : Nat} (hpage : Lib.PowerOfTwo pageSize) {w : World} (h : Run pageSize w) :
    ∃ ms, Represents w.al ms ∧ (liveOf ms).Perm w.live := (h.inv hpage).represents

theorem allocator_tiled_second : secondWorld.live = [(50, 65696), (100, 65536)] ∧
    ∃ ms, Represents secondWorld.al ms ∧ (liveOf ms).Perm secondWorld.live :=
  ⟨secondWorld_live, allocator_tiled (by decide) run_second⟩

/-- Two blocks with their headers share no byte. -/
def BlocksApart (b c : Block) : Prop := b.2 + b.1 + metaSize ≤ c.2 ∨ c.2 + c.1 + metaSize ≤ b.2

theorem BlocksApart.symm {b c : Block} (h : BlocksApart b c) : BlocksApart c b := Or.symm h

section

variable {al : CodeAllocator} {ms : List Mapping}

theorem Represents.live_free (h : Represents al ms) {b c : Block} (hb : b ∈ liveOf ms) {pool : Nat}
    (hc : c ∈ al.free pool) : BlocksApart b c := by
  obtain ⟨m, hm, hb⟩ := List.mem_flatMap.mp hb
  obtain ⟨n, hn, -, hc⟩ := h.mem_free.mp hc
  obtain ⟨s, hs, hact, hsize⟩ := mem_blocksOf.mp hb
  obtain ⟨t, ht, hact', hsize'⟩ := mem_blocksOf.mp hc
  rcases h.separate hm hn hs ht with ⟨-, heq⟩ | hd | hd
  · rw [(Prod.mk.inj heq).2, hact'] at hact
    cases hact
  · rw [Seg.len] at hd
    exact .inl (by simp only at hd; omega)
  · rw [Seg.len] at hd
    exact .inr (by simp only at hd; omega)

theorem Represents.live_pairwise (h : Represents al ms) : (liveOf ms).Pairwise BlocksApart := by
  refine List.pairwise_flatMap.mpr ⟨fun m _ => ?_, h.disjoint.imp_of_mem fun {m n} hm hn hd b hb c hc => ?_⟩
  · refine List.pairwise_map.mpr (((pairwise_starts m.base m.segs).filter _).imp fun {x y} hxy => .inl ?_)
    rw [Seg.len] at hxy
    simp only
    omega
  · have hb := blocksOf_bounds hb
    have hc := blocksOf_bounds hc
    rw [(h.tiled m hm).total] at hb
    rw [(h.tiled n hn).total] at hc
    unfold BlocksApart
    rcases hd with hd | hd <;> omega

end

/-- After any calls, the blocks in use share no byte with each other, with inactive blocks or with the headers of any of
them, and each has its header behind it. -/
theorem allocator_live_apart {pageSize : Nat} (hpage : Lib.PowerOfTwo pageSize) {w : World} (h : Run pageSize w) :
    w.live.Pairwise BlocksApart ∧ (∀ b ∈ w.live, ∀ pool, ∀ c ∈ w.al.free pool, BlocksApart b c) ∧
      ∀ b ∈ w.live, ∃ hdr, w.al.mem (b.2 + b.1) = some hdr ∧ hdr.size = b.1 ∧ hdr.active = true ∧
        hdr.pages.1 ≤ b.2 ∧ b.2 + b.1 + metaSize ≤ hdr.pages.1 + hdr.pages.2 := by
  obtain ⟨-, ms, hrep, hlive⟩ := h.inv hpage
  refine ⟨(hlive.pairwise_iff BlocksApart.symm).mp hrep.live_pairwise,
    fun b hb pool c hc => hrep.live_free (hlive.mem_iff.mpr hb) hc, fun b hb => ?_⟩
  obtain ⟨m, hm, hb⟩ := List.mem_flatMap.mp (hlive.mem_iff.mpr hb)
  obtain ⟨s, hs, hact, hsize⟩ := mem_blocksOf.mp hb
  obtain ⟨hdr, hmem, hpages, hhdr, hactive⟩ := hrep.header hm hs
  have hbound := blocksOf_bounds hb
  rw [(hrep.tiled m hm).total] at hbound
  rw [hsize] at hmem hhdr
  exact ⟨hdr, hmem, hhdr, hactive.trans hact, by rw [hpages]; exact hbound⟩

theorem allocator_live_apart_second : secondWorld.live = [(50, 65696), (100, 65536)] ∧
    secondWorld.al.free 4 = [(261822, 65808)] ∧ secondWorld.live.Pairwise BlocksApart ∧
    (∀ b ∈ secondWorld.live, ∀ pool, ∀ c ∈ secondWorld.al.free pool, BlocksApart b c) ∧
      ∀ b ∈ secondWorld.live, ∃ hdr, secondWorld.al.mem (b.2 + b.1) = some hdr ∧ hdr.size = b.1 ∧ hdr.active = true ∧
        hdr.pages.1 ≤ b.2 ∧ b.2 + b.1 + metaSize ≤ hdr.pages.1 + hdr.pages.2 :=
  ⟨secondWorld_live, secondWorld_free, allocator_live_apart (by decide) run_second⟩

section

variable {al : CodeAllocator} {ms : List Mapping} {b : Block} {pool : Nat}

/-- The neighbours of an inactive block are in use, and linked to it. -/
theorem Represents.neighbours (h : Represents al ms) (hb : b ∈ al.free pool) :
    ∃ hdr, al.mem (b.2 + b.1) = some hdr ∧ hdr.size = b.1 ∧ hdr.active = false ∧ hdr.pool = pool ∧ hdr.waste = 0 ∧
      (∀ y, hdr.next = some y → ∃ n, al.mem y = some n ∧ n.active = true ∧ n.prev = some (b.2 + b.1)) ∧
      ∀ y, hdr.prev = some y → ∃ n, al.mem y = some n ∧ n.active = true ∧ n.next = some (b.2 + b.1) := by
  obtain ⟨m, hm, hpool, hb⟩ := h.mem_free.mp hb
  obtain ⟨s, hs, hact, hsize⟩ := mem_blocksOf.mp hb
  obtain ⟨pre, post, hsegs, hlb⟩ := exists_of_mem_starts hs
  have hlaid := h.laid m hm
  have hapart := (h.tiled m hm).apart
  have hwaste := (h.tiled m hm).waste s (mem_of_mem_starts hs) hact
  rw [hsegs] at hlaid hapart
  obtain ⟨hpre, hmid, hpost⟩ := laid_append.mp hlaid
  obtain ⟨-, hbehind, hbefore⟩ := List.isChain_append.mp hapart
  rw [← hlb, hsize] at hmid
  refine ⟨_, hmid, rfl, hact, hpool, hwaste, fun y hy => ?_, fun y hy => ?_⟩
  · cases post with
    | nil => cases hy
    | cons t post =>
      obtain rfl := Option.some.inj hy
      rw [← hlb, hsize] at hpost
      refine ⟨_, hpost.1, ?_, rfl⟩
      rcases (List.isChain_cons_cons.mp hbehind).1 with hu | hu
      · rw [hact] at hu
        cases hu
      · exact hu
  · rcases List.eq_nil_or_concat' pre with rfl | ⟨pre, t, rfl⟩
    · cases hy
    · rw [lastHdr_append] at hy
      obtain rfl := Option.some.inj hy
      obtain ⟨-, ht, -⟩ := laid_append.mp hpre
      refine ⟨_, ht, ?_, ?_⟩
      · rcases hbefore t (by simp) s rfl with hu | hu
        · exact hu
        · rw [hact] at hu
          cases hu
      · simp only [headHdr]
        rw [← hlb, hsize]

/-- A mapping with an inactive block has one in use. -/
theorem Represents.used_of_free (h : Represents al ms) (hb : b ∈ al.free pool) :
    ∃ hdr, al.mem (b.2 + b.1) = some hdr ∧
      ∃ c ∈ liveOf ms, hdr.pages.1 ≤ c.2 ∧ c.2 + c.1 + metaSize ≤ hdr.pages.1 + hdr.pages.2 := by
  obtain ⟨m, hm, -, hb⟩ := h.mem_free.mp hb
  obtain ⟨s, hs, -, hsize⟩ := mem_blocksOf.mp hb
  obtain ⟨hdr, hmem, hpages, -⟩ := h.header hm hs
  obtain ⟨t, ht, hact⟩ := (h.tiled m hm).used
  obtain ⟨pre, post, hsegs⟩ := List.append_of_mem ht
  have hc : (t.size, m.base + total Seg.len pre) ∈ blocksOf true m.base m.segs :=
    mem_blocksOf.mpr ⟨t, hsegs ▸ mem_starts m.base pre t post, hact, rfl⟩
  have hbound := blocksOf_bounds hc
  rw [(h.tiled m hm).total] at hbound
  rw [hsize] at hmem
  exact ⟨hdr, hmem, _, List.mem_flatMap.mpr ⟨m, hm, hc⟩, by rw [hpages]; exact hbound⟩

end

/-- After any calls, an inactive block is linked with blocks in use only, so that no two of them could be joined; and a
mapping with an inactive block has a block in use, so that one without is given back. -/
theorem allocator_joined {pageSize : Nat} (hpage : Lib.PowerOfTwo pageSize) {w : World} (h : Run pageSize w)
    {pool : Nat} {b : Block} (hb : b ∈ w.al.free pool) :
    ∃ hdr, w.al.mem (b.2 + b.1) = some hdr ∧ hdr.size = b.1 ∧ hdr.active = false ∧ hdr.pool = pool ∧ hdr.waste = 0 ∧
      (∀ y, hdr.next = some y → ∃ n, w.al.mem y = some n ∧ n.active = true ∧ n.prev = some (b.2 + b.1)) ∧
      (∀ y, hdr.prev = some y → ∃ n, w.al.mem y = some n ∧ n.active = true ∧ n.next = some (b.2 + b.1)) ∧
      ∃ c ∈ w.live, hdr.pages.1 ≤ c.2 ∧ c.2 + c.1 + metaSize ≤ hdr.pages.1 + hdr.pages.2 := by
  obtain ⟨-, ms, hrep, hlive⟩ := h.inv hpage
  obtain ⟨hdr, hmem, hsize, hact, hpool, hwaste, hnext, hprev⟩ := hrep.neighbours hb
  obtain ⟨hdr', hmem', c, hc, hbound⟩ := hrep.used_of_free hb
  obtain rfl := Option.some.inj (hmem.symm.trans hmem')
  exact ⟨hdr, hmem, hsize, hact, hpool, hwaste, hnext, hprev, c, hlive.mem_iff.mp hc, hbound⟩

theorem allocator_joined_second : (261822, 65808) ∈ secondWorld.al.free 4 ∧ ∃ hdr, secondWorld.al.mem 327630 = some hdr ∧
    hdr.size = 261822 ∧ hdr.active = false ∧ hdr.pool = 4 ∧ hdr.waste = 0 ∧
    (∀ y, hdr.next = some y → ∃ n, secondWorld.al.mem y = some n ∧ n.active = true ∧ n.prev = some 327630) ∧
    (∀ y, hdr.prev = some y → ∃ n, secondWorld.al.mem y = some n ∧ n.active = true ∧ n.next = some 327630) ∧
    ∃ c ∈ secondWorld.live, hdr.pages.1 ≤ c.2 ∧ c.2 + c.1 + metaSize ≤ hdr.pages.1 + hdr.pages.2 := by
  have hmem : (261822, 65808) ∈ secondWorld.al.free 4 := by simp [secondWorld_free]
  have hjoined := allocator_joined (by decide) run_second hmem
  simp only [Nat.reduceAdd] at hjoined
  exact ⟨hmem, hjoined⟩

section

variable {al : CodeAllocator} {ms : List Mapping} {size align : Nat} {sys : System}

/-- The first block of a pool that is large enough is the smallest one. -/
theorem Represents.find_spec (h : Represents al ms) {pool : Nat} {b c : Block}
    (hfind : (al.free pool).find? (fun b => decide (size ≤ b.1)) = some b) (hc : c ∈ al.free pool)
    (hsize : size ≤ c.1) : Before b c := by
  obtain ⟨-, l, l', hlist, hnot⟩ := List.find?_eq_some_iff_append.mp hfind
  have hsorted := h.sorted pool
  rw [hlist] at hc hsorted
  rcases List.mem_append.mp hc with hc | hc
  · have := hnot c hc
    simp [hsize] at this
  · rcases List.mem_cons.mp hc with rfl | hc
    · exact .inr ⟨rfl, Nat.le_refl _⟩
    · exact (List.pairwise_cons.mp (List.pairwise_append.mp hsorted).2.1).1 c hc

/-- A block comes from the smallest one in the pool that is large enough, if there is one, and then new pages are not
asked for. -/
theorem CodeAllocator.allocate_fit (h : Represents al ms) (hpos : 0 < size) (halign : Lib.PowerOfTwo align)
    (hle : align ≤ al.pageSize) {c : Block} (hc : c ∈ al.free align.log2) (hsize : size ≤ c.1) :
    ∃ b ∈ al.free align.log2, size ≤ b.1 ∧ (∀ d ∈ al.free align.log2, size ≤ d.1 → Before b d) ∧
      ∃ al', ∀ sys, al.allocate size align sys = if sys.writable then .ok (some b.2, al') else .error .refused := by
  have hguard : ¬(¬Lib.PowerOfTwo align ∨ al.pageSize < align) := by
    rintro (hnot | hlt)
    · exact hnot halign
    · omega
  have hgrown : Represents { al with pools := max al.pools (align.log2 + 1) } ms :=
    ⟨h.tiled, h.laid, h.disjoint, fun m hm => Nat.lt_of_lt_of_le (h.pools m hm) (Nat.le_max_left _ _), h.free, h.sorted⟩
  cases hfind : (al.free align.log2).find? fun b => decide (size ≤ b.1) with
  | none =>
    have := List.find?_eq_none.mp hfind c hc
    simp [hsize] at this
  | some b =>
    have hb := List.mem_of_find?_eq_some hfind
    have hfits : size ≤ b.1 := by simpa using List.find?_some hfind
    obtain ⟨hdr, hload⟩ := load_free h hb
    obtain ⟨al', -, htake, -⟩ := take_spec hgrown hb hpos hfits
    rw [show 2 ^ align.log2 = align from halign.symm] at htake
    refine ⟨b, hb, hfits, fun d hd hd' => h.find_spec hfind hd hd', al', fun sys => ?_⟩
    simp only [allocate, hguard, if_false, hfind, hload, Fault.ok_bind, granted_bind, htake]

end

/-- After any calls, a block that is asked for and given is aligned and shares no byte with those in use, and where its
pool has a block that is large enough, it comes from the smallest such block, and the system is not asked for pages. -/
theorem allocator_fit {pageSize : Nat} (hpage : Lib.PowerOfTwo pageSize) {w : World} (h : Run pageSize w)
    {size align : Nat} {sys : System} (hop : w.Allowed (.allocate size align sys)) {lb : Nat} {al : CodeAllocator}
    (halloc : w.al.allocate size align sys = .ok (some lb, al)) :
    w.step (.allocate size align sys) = .ok ⟨al, (size, lb) :: w.live⟩ ∧ align ∣ lb ∧
      (∀ b ∈ w.live, BlocksApart (size, lb) b) ∧
      ∀ c ∈ w.al.free align.log2, size ≤ c.1 → (∃ k, (k, lb) ∈ w.al.free align.log2 ∧ size ≤ k ∧
        ∀ d ∈ w.al.free align.log2, size ≤ d.1 → Before (k, lb) d) ∧
        w.al.allocate size align { sys with pages := none } = .ok (some lb, al) := by
  obtain ⟨hpow, ms, hrep, hlive⟩ := h.inv hpage
  have hstep : w.step (.allocate size align sys) = .ok ⟨al, (size, lb) :: w.live⟩ := by
    simp only [World.step, halloc, Fault.ok_bind]
    rfl
  obtain ⟨-, ns, hrep', hlive'⟩ := (Run.step h hop hstep).inv hpage
  have hpair := (hlive'.pairwise_iff BlocksApart.symm).mp hrep'.live_pairwise
  obtain ⟨hpos, halign, hle, hlen, hpages⟩ := hop
  refine ⟨hstep, ?_, (List.pairwise_cons.mp hpair).1, fun c hc hsize => ?_⟩
  · rcases CodeAllocator.allocate_spec hrep hpos halign hle hlen fun lb hlb =>
        ⟨(pow_dvd_pow_of_le halign hpow hle).trans (hpages lb hlb).1, fun m hm => hrep.fresh (hpages lb hlb).2 hm⟩ with
      ⟨lb', al', ms', hal, -, -, -, hdvd⟩ | ⟨-, hal, -⟩ | ⟨-, hal⟩
    · rw [halloc] at hal
      cases hal
      exact hdvd
    · rw [halloc] at hal
      cases hal
    · rw [halloc] at hal
      cases hal
  · obtain ⟨b, hb, hfits, hbest, al', heq⟩ := CodeAllocator.allocate_fit hrep hpos halign hle hc hsize
    have hsys := heq sys
    rw [halloc] at hsys
    split_ifs at hsys with hwritable
    cases hsys
    exact ⟨⟨b.1, hb, hfits, hbest⟩, (heq _).trans (if_pos hwritable)⟩

/-- The second block is cut from what is left of the first mapping, while the first one is in use. -/
theorem allocator_fit_second : ∃ al : CodeAllocator, firstWorld.live = [(100, 65536)] ∧
    firstWorld.al.free 4 = [(261934, 65696)] ∧ firstWorld.al.allocate 50 16 noPages = .ok (some 65696, al) ∧
    firstWorld.step (.allocate 50 16 noPages) = .ok ⟨al, [(50, 65696), (100, 65536)]⟩ ∧ 16 ∣ 65696 ∧
    BlocksApart (50, 65696) (100, 65536) ∧ ∃ k, (k, 65696) ∈ firstWorld.al.free 4 ∧ 50 ≤ k ∧
      ∀ d ∈ firstWorld.al.free 4, 50 ≤ d.1 → Before (k, 65696) d := by
  obtain ⟨al, halloc⟩ : ∃ al, firstWorld.al.allocate 50 16 noPages = .ok (some 65696, al) := by
    have hblock : (firstWorld.al.allocate 50 16 noPages).toOption.map (·.1) = some (some 65696) := worlds_eq.2.2.2.2.1
    cases h : firstWorld.al.allocate 50 16 noPages with
    | error e =>
      rw [h] at hblock
      cases hblock
    | ok r =>
      rw [h] at hblock
      exact ⟨r.2, congrArg Except.ok (Prod.ext (Option.some.inj hblock) rfl)⟩
  obtain ⟨hstep, hdvd, hapart, hfit⟩ := allocator_fit (by decide) run_first allowed_second halloc
  rw [firstWorld_live] at hstep hapart
  have hfit := hfit (261934, 65696) (by rw [show Nat.log2 16 = 4 by decide, firstWorld_free]; simp) (by decide)
  exact ⟨al, firstWorld_live, firstWorld_free, halloc, hstep, hdvd, hapart _ List.mem_cons_self, hfit.1⟩

end Tsuki.Jit
