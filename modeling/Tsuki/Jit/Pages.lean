import Tsuki.Jit.Allocate

/-!
# New pages

A new mapping starts with the block that is asked for, and the rest of it is an inactive block or the waste.
-/

namespace Tsuki.Jit

open Lib.Tiling

section

variable {al al' : CodeAllocator} {ms : List Mapping} {n : Mapping}

/-- A mapping is added. -/
theorem Represents.cons (h : Represents al ms) (htiled : n.Tiled)
    (hlaid : Laid al'.mem (n.base, n.size) n.pool none none n.base n.segs)
    (hout : ∀ x, x + metaSize ≤ n.base ∨ n.base + n.size ≤ x → al'.mem x = al.mem x)
    (hdisjoint : ∀ m ∈ ms, Disjoint n m) (hpools : al'.pools = al.pools) (hpool : n.pool < al.pools)
    (hother : ∀ pool, pool ≠ n.pool → al'.free pool = al.free pool)
    (hfree : (al'.free n.pool).Perm (blocksOf false n.base n.segs ++ al.free n.pool))
    (hsorted : (al'.free n.pool).Pairwise Before) : Represents al' (n :: ms) := by
  have hmeta := metaSize_pos
  refine ⟨fun m hm => ?_, fun m hm => ?_, List.pairwise_cons.mpr ⟨hdisjoint, h.disjoint⟩, fun m hm => ?_,
    fun pool => ?_, fun pool => ?_⟩
  · rcases List.mem_cons.mp hm with rfl | hm
    · exact htiled
    · exact h.tiled m hm
  · rcases List.mem_cons.mp hm with rfl | hm
    · exact hlaid
    · refine (h.laid m hm).congr fun x hx hx' => hout x ?_
      rw [(h.tiled m hm).total] at hx'
      rcases hdisjoint m hm with hd | hd
      · exact .inr (by omega)
      · exact .inl (by omega)
  · rw [hpools]
    rcases List.mem_cons.mp hm with rfl | hm
    · exact hpool
    · exact h.pools m hm
  · by_cases heq : pool = n.pool
    · subst heq
      rw [freeOf_cons_self]
      exact hfree.trans ((h.free _).append_left _)
    · rw [hother pool heq, freeOf_cons_ne (Ne.symm heq)]
      exact h.free pool
  · by_cases heq : pool = n.pool
    · subst heq
      exact hsorted
    · rw [hother pool heq]
      exact h.sorted pool

end

namespace CodeAllocator

variable {al : CodeAllocator} {ms : List Mapping} {len lb : Nat}

theorem map_spec (h : Represents al ms) (size pool : Nat) (hpool : pool < al.pools) (hpos : 0 < size)
    (hlen : size + metaSize ≤ len)
    (hfits : len < 2 ^ 64) (haligned : 2 ^ pool ∣ lb)
    (hdisjoint : ∀ m ∈ ms, lb + len ≤ m.base ∨ m.base + m.size ≤ lb) :
    ∃ al' segs, al.map size (2 ^ pool) pool len lb = .ok al' ∧ al'.pageSize = al.pageSize ∧
      Represents al' (⟨lb, len, pool, segs⟩ :: ms) ∧ blocksOf true lb segs = [(size, lb)] := by
  have hmeta := metaSize_pos
  have hrb := le_alignUp (lb + size + metaSize) (Nat.two_pow_pos pool)
  have hrbdvd := dvd_alignUp (lb + size + metaSize) (2 ^ pool)
  generalize hrbeq : alignUp (lb + size + metaSize) (2 ^ pool) = rb at hrb hrbdvd
  by_cases hfit : rb < lb + len - metaSize
  · have hnot : (lb + len - metaSize - rb, rb) ∉ al.free pool := by
      intro hmem
      obtain ⟨m, hm, -, hblock⟩ := h.mem_free.mp hmem
      have hbound := blocksOf_bounds hblock
      rw [(h.tiled m hm).total] at hbound
      rcases hdisjoint m hm with hd | hd <;> omega
    have hfst : lb + Seg.len ⟨size, rb - (lb + size + metaSize), true⟩ = rb := by
      simp only [Seg.len]
      omega
    have hrm : rb + (lb + len - metaSize - rb) = lb + len - metaSize := by omega
    have hinsert := insert_eq { al with
      mem := al.mem.write (lb + len - metaSize)
        ⟨(lb, len), some (lb + size), none, lb + len - metaSize - rb, 0, false, pool⟩ } _ _ hnot
    refine ⟨{ al with
      free := Function.update al.free pool ((al.free pool).orderedInsert Before (lb + len - metaSize - rb, rb))
      mem := (al.mem.write (lb + len - metaSize)
        ⟨(lb, len), some (lb + size), none, lb + len - metaSize - rb, 0, false, pool⟩).write (lb + size)
          ⟨(lb, len), none, some (lb + len - metaSize), size, rb - (lb + size + metaSize), true, pool⟩ },
      [⟨size, rb - (lb + size + metaSize), true⟩, ⟨lb + len - metaSize - rb, 0, false⟩], ?_, rfl, ?_,
      blocksOf_active _ _ (by simp)⟩
    · simp only [map, hrbeq, hfit, if_true, hinsert, Fault.ok_bind]
    · refine h.cons ⟨?_, fun x hx => ?_, ?_, by simp, ?_, ⟨⟨size, _, true⟩, List.mem_cons_self, rfl⟩, hfits⟩
        ⟨?_, ?_, trivial⟩ (fun x hx => ?_) hdisjoint rfl hpool (fun p hp => Function.update_of_ne hp _ _) ?_ ?_
      · simp only [total_cons, total_nil, Seg.len]
        omega
      · simp only [starts_cons, starts_nil, List.mem_cons, List.not_mem_nil, or_false] at hx
        rcases hx with rfl | rfl
        · exact haligned
        · rwa [hfst]
      · simp only [List.mem_cons, List.not_mem_nil, or_false, forall_eq_or_imp, forall_eq]
        omega
      · exact List.isChain_cons_cons.mpr ⟨.inl rfl, .singleton _⟩
      · simp only [Memory.write_self, hfst, headHdr, hrm]
      · refine (Memory.write_of_apart (.inr ?_)).trans ?_
        · simp only [hfst, hrm]
          omega
        · simp only [hfst, hrm, Memory.write_self, headHdr]
      · simp only at hx
        refine (Memory.write_of_apart ?_).trans (Memory.write_of_apart ?_) <;> omega
      · have hnew : blocksOf false lb [⟨size, rb - (lb + size + metaSize), true⟩,
            ⟨lb + len - metaSize - rb, 0, false⟩] = [(lb + len - metaSize - rb, rb)] := by
          rw [blocksOf_cons, blocksOf_cons, hfst]
          rfl
        simp only [hnew, Function.update_self]
        exact List.perm_orderedInsert _ _ _
      · simp only [Function.update_self]
        exact (h.sorted pool).orderedInsert _ _
  · refine ⟨{ al with
        mem := al.mem.write (lb + size)
          ⟨(lb, len), none, none, size, lb + len - (lb + size + metaSize), true, pool⟩ },
      [⟨size, lb + len - (lb + size + metaSize), true⟩], ?_, rfl, ?_, blocksOf_active _ _ (by simp)⟩
    · simp only [map, hrbeq, hfit, if_false]
    · refine h.cons ⟨?_, by simpa using haligned, by simpa using hpos, by simp, .singleton _,
        ⟨⟨size, _, true⟩, List.mem_cons_self, rfl⟩, hfits⟩ ⟨Memory.write_self _ _ _, trivial⟩
        (fun x hx => Memory.write_of_apart ?_) hdisjoint rfl hpool (fun p hp => rfl) ?_ (h.sorted pool)
      · simp only [total_cons, total_nil, Seg.len]
        omega
      · simp only at hx
        omega
      · simp [blocksOf]

end CodeAllocator

/-- The blocks that are in use. -/
def liveOf (ms : List Mapping) : List Block := ms.flatMap fun m => blocksOf true m.base m.segs

theorem liveOf_replace (ms ms' : List Mapping) (m : Mapping) {pre mid mid' post : List Seg}
    (hsegs : m.segs = pre ++ (mid ++ post)) (hlen : total Seg.len mid' = total Seg.len mid) :
    ∃ l l', liveOf (ms ++ m :: ms') = l ++ (blocksOf true (m.base + total Seg.len pre) mid ++ l') ∧
      liveOf (ms ++ { m with segs := pre ++ (mid' ++ post) } :: ms') =
        l ++ (blocksOf true (m.base + total Seg.len pre) mid' ++ l') := by
  refine ⟨liveOf ms ++ blocksOf true m.base pre,
    blocksOf true (m.base + total Seg.len pre + total Seg.len mid) post ++ liveOf ms', ?_, ?_⟩
  · simp only [liveOf, List.flatMap_append, List.flatMap_cons, hsegs, blocksOf_append, List.append_assoc]
  · simp only [liveOf, List.flatMap_append, List.flatMap_cons, blocksOf_append, List.append_assoc, hlen]

namespace CodeAllocator

variable {al : CodeAllocator} {ms : List Mapping} {size align : Nat} {sys : System}

theorem take_spec (h : Represents al ms) {pool : Nat} {b : Block} (hb : b ∈ al.free pool) (hpos : 0 < size)
    (hle : size ≤ b.1) : ∃ al' ms', al.take size (2 ^ pool) pool b.1 b.2 = .ok al' ∧ al'.pageSize = al.pageSize ∧
      Represents al' ms' ∧ (liveOf ms').Perm ((size, b.2) :: liveOf ms) ∧ 2 ^ pool ∣ b.2 := by
  obtain ⟨m, hm, rfl, hblock⟩ := h.mem_free.mp hb
  obtain ⟨l, l', rfl⟩ := List.append_of_mem hm
  obtain ⟨s, hs, hact, hsize⟩ := mem_blocksOf.mp hblock
  have haligned := (h.tiled m hm).aligned _ hs
  obtain ⟨pre, post, hsegs, hlb⟩ := exists_of_mem_starts hs
  have hlive : blocksOf true (m.base + total Seg.len pre) [s] = [] := by simp [blocksOf, hact]
  have key {mid : List Seg} (hlen : total Seg.len mid = total Seg.len [s])
      (hmid : blocksOf true (m.base + total Seg.len pre) mid = [(size, b.2)]) :
      (liveOf (l ++ { m with segs := pre ++ (mid ++ post) } :: l')).Perm ((size, b.2) :: liveOf (l ++ m :: l')) := by
    obtain ⟨k, k', hold, hnew⟩ := liveOf_replace l l' m (show m.segs = pre ++ ([s] ++ post) from hsegs) hlen
    rw [hold, hnew, hlive, hmid]
    exact List.perm_middle
  rw [← hsize] at hle ⊢
  rcases Nat.lt_or_eq_of_le hle with hlt | rfl
  · obtain ⟨al', mid, htake, hpage, hrep, hlen, hmid⟩ := take_cut h hsegs hact hlb hpos hlt
    exact ⟨al', _, htake, hpage, hrep, key hlen (hlb ▸ hmid), haligned⟩
  · obtain ⟨al', htake, hpage, hrep⟩ := take_exact h hsegs hact hlb
    refine ⟨al', _, htake, hpage, hrep, key rfl ?_, haligned⟩
    rw [← hlb]
    simp [blocksOf]

/-- The header of an inactive block is in memory. -/
theorem load_free (h : Represents al ms) {pool : Nat} {b : Block} (hb : b ∈ al.free pool) :
    ∃ hdr, al.mem.load (b.2 + b.1) = .ok hdr := by
  obtain ⟨m, hm, -, hblock⟩ := h.mem_free.mp hb
  obtain ⟨l, l', rfl⟩ := List.append_of_mem hm
  obtain ⟨s, hs, -, hsize⟩ := mem_blocksOf.mp hblock
  obtain ⟨pre, post, hsegs, hlb⟩ := exists_of_mem_starts hs
  rw [hlb, ← hsize]
  exact ⟨_, load_header h hsegs⟩

/-- A block that is allocated is new, and only the system can refuse: where it has no pages, the pools have grown, and
where it does not make the pages of an inactive block writable, the call panics. -/
theorem allocate_spec (h : Represents al ms) (hpos : 0 < size) (halign : Lib.PowerOfTwo align)
    (hle : align ≤ al.pageSize) (hlen : Lib.roundUp (size + metaSize) (al.pageSize * 64) < 2 ^ 64)
    (hpages : ∀ lb, sys.pages = some lb → align ∣ lb ∧
      ∀ m ∈ ms, lb + Lib.roundUp (size + metaSize) (al.pageSize * 64) ≤ m.base ∨ m.base + m.size ≤ lb) :
    (∃ lb al' ms', al.allocate size align sys = .ok (some lb, al') ∧ al'.pageSize = al.pageSize ∧ Represents al' ms' ∧
      (liveOf ms').Perm ((size, lb) :: liveOf ms) ∧ align ∣ lb) ∨
    (sys.pages = none ∧ al.allocate size align sys = .ok (none, { al with pools := max al.pools (align.log2 + 1) }) ∧
      Represents { al with pools := max al.pools (align.log2 + 1) } ms) ∨
    sys.writable = false ∧ al.allocate size align sys = .error .refused := by
  have hpow : 2 ^ align.log2 = align := halign.symm
  have hguard : ¬(¬Lib.PowerOfTwo align ∨ al.pageSize < align) := by
    rintro (hnot | hlt)
    · exact hnot halign
    · omega
  have hgrown : Represents { al with pools := max al.pools (align.log2 + 1) } ms :=
    ⟨h.tiled, h.laid, h.disjoint, fun m hm => Nat.lt_of_lt_of_le (h.pools m hm) (Nat.le_max_left _ _), h.free, h.sorted⟩
  cases hfind : (al.free align.log2).find? fun b => decide (size ≤ b.1) with
  | some b =>
    have hsize : size ≤ b.1 := by simpa using List.find?_some hfind
    have hmem := List.mem_of_find?_eq_some hfind
    obtain ⟨hdr, hload⟩ := load_free h hmem
    obtain ⟨al', ms', htake, hpage, hrep, hperm, hdvd⟩ := take_spec hgrown hmem hpos hsize
    rw [hpow] at htake hdvd
    cases hsys : sys.writable with
    | false =>
      refine .inr (.inr ⟨rfl, ?_⟩)
      simp only [allocate, hguard, if_false, hfind, hload, Fault.ok_bind, granted_bind, hsys]
      rfl
    | true =>
      refine .inl ⟨b.2, al', ms', ?_, hpage, hrep, hperm, hdvd⟩
      simp only [allocate, hguard, if_false, hfind, hload, Fault.ok_bind, granted_bind, hsys, if_true, htake]
  | none =>
    cases hsys : sys.pages with
    | none =>
      refine .inr (.inl ⟨rfl, ?_, hgrown⟩)
      simp only [allocate, hguard, if_false, hfind, hlen, if_true, hsys]
    | some lb =>
      obtain ⟨hdvd, hdisjoint⟩ := hpages lb hsys
      have hle' : size + metaSize ≤ Lib.roundUp (size + metaSize) (al.pageSize * 64) :=
        le_alignUp _ (by have := halign.pos; omega)
      obtain ⟨al', segs, hmap, hpage, hrep, hlive⟩ := map_spec hgrown size align.log2
        (Nat.lt_of_lt_of_le (Nat.lt_succ_self _) (Nat.le_max_right _ _)) hpos hle' hlen (hpow.symm ▸ hdvd) hdisjoint
      rw [hpow] at hmap
      refine .inl ⟨lb, al', _, ?_, hpage, hrep, ?_, hdvd⟩
      · simp only [allocate, hguard, if_false, hfind, hlen, if_true, hsys, hmap, Fault.ok_bind]
      · simp only [liveOf, List.flatMap_cons, hlive]
        exact List.Perm.refl _

end CodeAllocator

end Tsuki.Jit
