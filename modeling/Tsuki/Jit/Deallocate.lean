import Tsuki.Jit.Pages

/-!
# `deallocate`

The inactive blocks around the block are joined with it. The last block in use of a mapping takes the mapping with it.
-/

namespace Tsuki.Jit

open Lib.Tiling

/-- Blocks are removed from one pool. -/
structure Joined (al al' : CodeAllocator) (pool : Nat) : Prop where
  mem : al'.mem = al.mem
  pools : al'.pools = al.pools
  pageSize : al'.pageSize = al.pageSize
  other : ∀ p, p ≠ pool → al'.free p = al.free p
  sub : ∀ b ∈ al'.free pool, b ∈ al.free pool
  sorted : (al.free pool).Pairwise Before → (al'.free pool).Pairwise Before

theorem Joined.refl (al : CodeAllocator) (pool : Nat) : Joined al al pool :=
  ⟨rfl, rfl, rfl, fun _ _ => rfl, fun _ h => h, id⟩

theorem Joined.trans {al al' al'' : CodeAllocator} {pool : Nat} (h : Joined al al' pool) (h' : Joined al' al'' pool) :
    Joined al al'' pool :=
  ⟨h'.mem.trans h.mem, h'.pools.trans h.pools, h'.pageSize.trans h.pageSize,
    fun p hp => (h'.other p hp).trans (h.other p hp), fun b hb => h.sub b (h'.sub b hb),
    fun hs => h'.sorted (h.sorted hs)⟩

namespace CodeAllocator

variable {al : CodeAllocator} {pool a size n : Nat} {pages : Nat × Nat} {next prev : Option Nat}

theorem remove_spec {b : Block} {x y : List Block} (h : (al.free pool).Perm (x ++ b :: y)) :
    ∃ al', al.remove pool b = .ok al' ∧ Joined al al' pool ∧ (al'.free pool).Perm (x ++ y) := by
  obtain ⟨hmem, hperm⟩ := perm_erase_mid h
  refine ⟨_, remove_eq hmem,
    ⟨rfl, rfl, rfl, fun p hp => Function.update_of_ne hp _ _, fun c hc => ?_, fun hs => ?_⟩, ?_⟩
  · simp only [Function.update_self] at hc
    exact List.mem_of_mem_erase hc
  · simp only [Function.update_self]
    exact hs.erase _
  · simp only [Function.update_self]
    exact hperm

theorem add_eq {x y : Nat} (h : x + y < 2 ^ 64) : add x y = .ok (x + y) := if_pos h

theorem joinPrev_active {pre : List Seg} (hlaid : Laid al.mem pages pool next none a pre)
    (hlast : ∀ u ∈ pre.getLast?, u.active = true) :
    al.joinPrev pool (n + 1) size (lastHdr none a pre) = .ok (al, size, lastHdr none a pre) := by
  rcases List.eq_nil_or_concat' pre with rfl | ⟨pre, u, rfl⟩
  · rfl
  · have hact : u.active = true := hlast u (by simp)
    rw [lastHdr_append, lastHdr, lastHdr]
    obtain ⟨-, hu, -⟩ := laid_append.mp hlaid
    simp only [joinPrev, Memory.load, hu, Fault.ok_bind, hact, if_true]

theorem joinNext_active {post : List Seg} (hlaid : Laid al.mem pages pool none prev a post)
    (hhead : ∀ u ∈ post.head?, u.active = true) :
    al.joinNext pool (n + 1) size (headHdr none a post) = .ok (al, size, headHdr none a post) := by
  cases post with
  | nil => rfl
  | cons u post =>
    have hact : u.active = true := hhead u rfl
    simp only [headHdr, joinNext, Memory.load, hlaid.1, Fault.ok_bind, hact, if_true]

/-- Before the block, one inactive block is joined at most. -/
theorem joinPrev_spec (size n : Nat) {pre : List Seg} {l : List Block} (hlaid : Laid al.mem pages pool next none a pre)
    (hperm : (al.free pool).Perm (blocksOf false a pre ++ l)) (hapart : pre.IsChain Apart)
    (hsize : size + total Seg.len pre < 2 ^ 64) :
    ∃ al' pre₁ gone, pre = pre₁ ++ gone ∧ Joined al al' pool ∧ (al'.free pool).Perm (blocksOf false a pre₁ ++ l) ∧
      (∀ t ∈ gone, t.active = false) ∧ (∀ u ∈ pre₁.getLast?, u.active = true) ∧
      al.joinPrev pool (n + 2) size (lastHdr none a pre) =
        .ok (al', size + total Seg.len gone, lastHdr none a pre₁) := by
  by_cases hlast : ∀ u ∈ pre.getLast?, u.active = true
  · exact ⟨al, pre, [], (List.append_nil _).symm, .refl _ _, hperm, by simp, hlast, joinPrev_active hlaid hlast⟩
  · rcases List.eq_nil_or_concat' pre with rfl | ⟨pre, t, rfl⟩
    · exact absurd (by simp) hlast
    · have hact : t.active = false := by simpa using hlast
      obtain ⟨hpre, ht, -⟩ := laid_append.mp hlaid
      rw [blocksOf_append, blocksOf_cons, if_pos hact, List.append_assoc] at hperm
      obtain ⟨al', hremove, hjoined, hperm'⟩ := remove_spec hperm
      have hlast' : ∀ u ∈ pre.getLast?, u.active = true := by
        intro u hu
        rcases (List.isChain_append.mp hapart).2.2 u hu t rfl with hu | hu
        · exact hu
        · rw [hact] at hu
          cases hu
      rw [total_append, total_cons, total_nil, Nat.add_zero, Seg.len] at hsize
      have hstart : a + total Seg.len pre + t.size - t.size = a + total Seg.len pre := by omega
      refine ⟨al', pre, [t], rfl, hjoined, hperm', by simpa using hact, hlast', ?_⟩
      rw [lastHdr_append, lastHdr, lastHdr, joinPrev, Memory.load, ht]
      simp only [Fault.ok_bind, hact, hstart, hremove, add_eq (show size + t.size < 2 ^ 64 by omega),
        add_eq (show size + t.size + metaSize < 2 ^ 64 by omega),
        add_eq (show size + t.size + metaSize + t.waste < 2 ^ 64 by omega)]
      rw [if_neg (by simp), joinPrev_active (hjoined.mem ▸ hpre) hlast', total_cons, total_nil, Nat.add_zero, Seg.len]
      simp only [Nat.add_assoc]

/-- Behind the block, one inactive block is joined at most. -/
theorem joinNext_spec (size n : Nat) {post : List Seg} {l l' : List Block}
    (hlaid : Laid al.mem pages pool none prev a post)
    (hperm : (al.free pool).Perm (l ++ (blocksOf false a post ++ l'))) (hapart : post.IsChain Apart)
    (hsize : size + total Seg.len post < 2 ^ 64) :
    ∃ al' gone post₁, post = gone ++ post₁ ∧ Joined al al' pool ∧
      (al'.free pool).Perm (l ++ (blocksOf false (a + total Seg.len gone) post₁ ++ l')) ∧
      (∀ t ∈ gone, t.active = false) ∧ (∀ u ∈ post₁.head?, u.active = true) ∧
      al.joinNext pool (n + 2) size (headHdr none a post) =
        .ok (al', size + total Seg.len gone, headHdr none (a + total Seg.len gone) post₁) := by
  by_cases hhead : ∀ u ∈ post.head?, u.active = true
  · exact ⟨al, [], post, rfl, .refl _ _, hperm, by simp, hhead, joinNext_active hlaid hhead⟩
  · cases post with
    | nil => exact absurd (by simp) hhead
    | cons t post =>
      have hact : t.active = false := by simpa using hhead
      obtain ⟨ht, hpost⟩ := hlaid
      rw [blocksOf_cons, if_pos hact, List.append_assoc] at hperm
      obtain ⟨al', hremove, hjoined, hperm'⟩ := remove_spec hperm
      have hhead' : ∀ u ∈ post.head?, u.active = true := by
        intro u hu
        rcases (List.isChain_cons.mp hapart).1 u hu with hu | hu
        · rw [hact] at hu
          cases hu
        · exact hu
      rw [total_cons, Seg.len] at hsize
      have hstart : a + t.size - t.size = a := by omega
      have hlen : total Seg.len [t] = t.len := by simp
      refine ⟨al', [t], post, rfl, hjoined, ?_, by simpa using hact, hhead', ?_⟩
      · rw [hlen]
        exact hperm'
      · rw [headHdr, joinNext, Memory.load, ht, hlen]
        simp only [Fault.ok_bind, hact, hstart, hremove, add_eq (show size + t.size < 2 ^ 64 by omega),
          add_eq (show size + t.size + metaSize < 2 ^ 64 by omega),
          add_eq (show size + t.size + metaSize + t.waste < 2 ^ 64 by omega)]
        rw [if_neg (by simp), joinNext_active (hjoined.mem ▸ hpost) hhead']
        simp only [Seg.len, Nat.add_assoc]

end CodeAllocator

theorem lastHdr_eq_none {a : Nat} {l : List Seg} : lastHdr none a l = none ↔ l = [] := by
  rcases List.eq_nil_or_concat' l with rfl | ⟨l, s, rfl⟩
  · exact iff_of_true rfl rfl
  · rw [lastHdr_append, lastHdr, lastHdr]
    simp

theorem headHdr_eq_none {a : Nat} {l : List Seg} : headHdr none a l = none ↔ l = [] := by
  cases l <;> simp [headHdr]

section

variable {al al' : CodeAllocator} {ms ms' : List Mapping} {m : Mapping}

theorem Represents.unmap (h : Represents al (ms ++ m :: ms')) (hmem : al'.mem = al.mem.clear m.base m.size)
    (hpools : al'.pools = al.pools) (hother : ∀ pool, pool ≠ m.pool → al'.free pool = al.free pool)
    (hfree : (al'.free m.pool).Perm (freeOf m.pool ms ++ freeOf m.pool ms'))
    (hsorted : (al'.free m.pool).Pairwise Before) : Represents al' (ms ++ ms') := by
  have hold : ∀ n ∈ ms ++ ms', n ∈ ms ++ m :: ms' := fun n hn =>
    (List.mem_append.mp hn).elim (List.mem_append_left _) fun hn => List.mem_append_right _ (List.mem_cons_of_mem _ hn)
  have hmeta := metaSize_pos
  refine ⟨fun n hn => h.tiled n (hold n hn), fun n hn => ?_, ?_, fun n hn => hpools ▸ h.pools n (hold n hn),
    fun pool => ?_, fun pool => ?_⟩
  · refine (h.laid n (hold n hn)).congr fun x hx hx' => ?_
    rw [(h.tiled n (hold n hn)).total] at hx'
    rw [hmem, Memory.clear, if_neg]
    rcases h.disjoint_of_mem hn with hd | hd <;> omega
  · obtain ⟨h₁, h₂, h₃⟩ := List.pairwise_append.mp h.disjoint
    exact List.pairwise_append.mpr ⟨h₁, (List.pairwise_cons.mp h₂).2, fun x hx y hy =>
      h₃ x hx y (List.mem_cons_of_mem _ hy)⟩
  · by_cases hpool : pool = m.pool
    · subst hpool
      rw [freeOf_append]
      exact hfree
    · have := h.free pool
      rw [freeOf_append, freeOf_cons_ne (Ne.symm hpool), ← freeOf_append] at this
      rwa [hother pool hpool]
  · by_cases hpool : pool = m.pool
    · subst hpool
      exact hsorted
    · rw [hother pool hpool]
      exact h.sorted pool

variable {pre gone gone' post : List Seg} {s : Seg}

theorem perm_joined (b : Block) (x y z w : List Block) :
    (b :: (x ++ y ++ (z ++ w))).Perm (y ++ (x ++ ([b] ++ z) ++ w)) := by
  refine List.perm_iff_count.mpr fun c => ?_
  simp only [List.count_append, List.count_cons, List.count_nil]
  omega

/-- No inactive block is as large as the one that is made of all of them. -/
theorem notMem_joined (h : Represents al (ms ++ m :: ms')) (hsegs : m.segs = pre ++ (gone ++ ([s] ++ gone') ++ post))
    (hs : s.active = true) {k : Nat} (hk : k + metaSize = total Seg.len (gone ++ ([s] ++ gone'))) (pool : Nat) :
    (k, m.base + total Seg.len pre) ∉ al.free pool := by
  have htotal := (h.tiled m (List.mem_append_right _ List.mem_cons_self)).total
  have hmeta := metaSize_pos
  rw [hsegs, total_append, total_append] at htotal
  have hone : total Seg.len [s] = s.len := by simp
  have hlen : metaSize ≤ s.len := by
    unfold Seg.len
    omega
  have hmid : total Seg.len (gone ++ ([s] ++ gone')) = total Seg.len gone + (s.len + total Seg.len gone') := by simp
  refine h.notMem_free (by simp only; omega) (by simp only; omega) fun hb => ?_
  rw [hsegs, blocksOf_append, blocksOf_append, blocksOf_append, blocksOf_append] at hb
  simp only [List.mem_append] at hb
  rcases hb with hb | (hb | hb | hb) | hb
  · have := blocksOf_bounds hb
    simp only at this
    omega
  · have := blocksOf_bounds hb
    simp only at this
    omega
  · obtain ⟨t, ht, hact, -⟩ := mem_blocksOf.mp hb
    rw [List.mem_singleton.mp (mem_of_mem_starts ht), hs] at hact
    cases hact
  · have := (blocksOf_bounds hb).1
    simp only [hone] at this
    omega
  · have := (blocksOf_bounds hb).1
    simp only at this
    omega

/-- The joined block has its header behind it, and the headers around are linked to it. -/
theorem Represents.join (h : Represents al (ms ++ m :: ms')) (hsegs : m.segs = pre ++ (gone ++ ([s] ++ gone') ++ post))
    (hs : s.active = true) {k : Nat} (hk : k + metaSize = total Seg.len (gone ++ ([s] ++ gone')))
    (hjoined : Joined al al' m.pool)
    (hperm : (al'.free m.pool).Perm (blocksOf false m.base pre ++ freeOf m.pool ms ++
      (blocksOf false (m.base + total Seg.len pre + total Seg.len (gone ++ ([s] ++ gone'))) post ++ freeOf m.pool ms')))
    (hlast : ∀ u ∈ pre.getLast?, u.active = true) (hhead : ∀ u ∈ post.head?, u.active = true)
    (hused : ¬(pre = [] ∧ post = [])) {hdr : BlockMeta} (hhdr : hdr = ⟨(m.base, m.size), lastHdr none m.base pre,
      headHdr none (m.base + total Seg.len pre + total Seg.len (gone ++ ([s] ++ gone'))) post, k, 0, false, m.pool⟩) :
    ∃ mem mem' al'', (al'.mem.write (m.base + total Seg.len pre + k) hdr).setNext (lastHdr none m.base pre)
        (some (m.base + total Seg.len pre + k)) = .ok mem ∧
      mem.setPrev (headHdr none (m.base + total Seg.len pre + total Seg.len (gone ++ ([s] ++ gone'))) post)
        (some (m.base + total Seg.len pre + k)) = .ok mem' ∧
      ({ al' with mem := al'.mem.write (m.base + total Seg.len pre + k) hdr } : CodeAllocator).insert m.pool
        (k, m.base + total Seg.len pre) = .ok al'' ∧ al''.mem = al'.mem.write (m.base + total Seg.len pre + k) hdr ∧
      al''.pageSize = al.pageSize ∧
      Represents { al'' with mem := mem' } (ms ++ { m with segs := pre ++ ([⟨k, 0, false⟩] ++ post) } :: ms') := by
  have htiled := h.tiled m (List.mem_append_right _ List.mem_cons_self)
  have hlaid := h.laid m (List.mem_append_right _ List.mem_cons_self)
  have htotal : m.base + total Seg.len (pre ++ (gone ++ ([s] ++ gone') ++ post)) = m.base + m.size := by
    rw [← htiled.total, hsegs]
  have hnot := notMem_joined h hsegs hs hk m.pool
  have haligned : 2 ^ m.pool ∣ m.base + total Seg.len pre := by
    have hold := htiled.aligned
    rw [hsegs, starts_append, starts_append] at hold
    cases hmid : gone ++ ([s] ++ gone') with
    | nil => simp at hmid
    | cons t l =>
      rw [hmid, starts_cons] at hold
      exact hold (m.base + total Seg.len pre, t) (List.mem_append_right _ (List.mem_append_left _ List.mem_cons_self))
  have hpos : 0 < k := by
    have := htiled.pos s (by simp [hsegs])
    have hmid : total Seg.len (gone ++ ([s] ++ gone')) = total Seg.len gone + (s.len + total Seg.len gone') := by simp
    rw [hmid, Seg.len] at hk
    omega
  generalize gone ++ ([s] ++ gone') = mid at *
  rw [hsegs] at hlaid
  have hpost := (laid_append.mp (laid_append.mp hlaid).2).2
  have hmeta := metaSize_pos
  have hlen : total Seg.len [(⟨k, 0, false⟩ : Seg)] = total Seg.len mid := by
    simp only [total_cons, total_nil, Seg.len]
    omega
  have hbelow (y : Nat) (hy : lastHdr none m.base pre = some y) : y + metaSize ≤ m.base + total Seg.len pre := by
    rcases lastHdr_eq hy with ⟨-, hnone⟩ | ⟨-, hle⟩
    · cases hnone
    · exact hle
  have habove (y : Nat) (hy : headHdr none (m.base + total Seg.len pre + total Seg.len mid) post = some y) :
      m.base + total Seg.len pre + total Seg.len mid ≤ y := by
    rcases headHdr_eq hy with ⟨-, hnone⟩ | ⟨hle, -⟩
    · cases hnone
    · exact hle
  have hkeep (x : Nat) (hx : x + metaSize ≤ m.base + total Seg.len pre + k ∨
      m.base + total Seg.len pre + k + metaSize ≤ x) :
      al'.mem.write (m.base + total Seg.len pre + k) hdr x = al.mem x := by
    rw [Memory.write_of_apart hx, hjoined.mem]
  obtain ⟨mem, hmem, heq⟩ := Memory.setNext_spec (al'.mem.write (m.base + total Seg.len pre + k) hdr)
    (some (m.base + total Seg.len pre + k)) fun y hy => by
      rw [hkeep y (.inl (by have := hbelow y hy; omega))]
      exact (laid_append.mp hlaid).1.last_isSome hy
  have hbehind (x : Nat) (hx : m.base + total Seg.len pre + total Seg.len mid ≤ x) : mem x = al.mem x :=
    (heq x).trans (if_neg fun hlast => absurd (hbelow x hlast.symm) (by omega)) |>.trans (hkeep x (.inr (by omega)))
  obtain ⟨mem', hmem', heq'⟩ := Memory.setPrev_spec mem (some (m.base + total Seg.len pre + k))
    fun y hy => by
      rw [hbehind y (habove y hy)]
      exact hpost.head_isSome hy
  have hbefore' (x : Nat) (hx : x + metaSize ≤ m.base + total Seg.len pre) := (heq' x).trans
    (if_neg fun hhead => absurd (habove x hhead.symm) (by omega)) |>.trans (heq x) |>.trans (by
      rw [hkeep x (.inl (by omega))])
  have hbehind' (x : Nat) (hx : m.base + total Seg.len pre + total Seg.len mid ≤ x) := (heq' x).trans (by
    rw [hbehind x hx])
  have hself : mem' (m.base + total Seg.len pre + k) = some hdr := (heq' _).trans
    (if_neg fun hhead => absurd (habove _ hhead.symm) (by omega)) |>.trans (heq _) |>.trans
    (if_neg fun hlast => absurd (hbelow _ hlast.symm) (by omega)) |>.trans (Memory.write_self _ _ _)
  have hinsert := CodeAllocator.insert_eq { al' with mem := al'.mem.write (m.base + total Seg.len pre + k) hdr }
    m.pool (k, m.base + total Seg.len pre) fun hb => hnot (hjoined.sub _ hb)
  refine ⟨mem, mem', _, hmem, hmem', hinsert, rfl, hjoined.pageSize, h.replace (htiled.replace hsegs hlen
    (by simpa using haligned) (by simpa using hpos) (by simp) ?_ ?_) (hlaid.replace hlen (fun x _ hx => hbefore' x hx)
    hbehind' ⟨?_, trivial⟩) (fun x hx => apart_of_relink hbefore' hbehind' (by rwa [htotal])) hjoined.pools.ge
    (fun pool hpool => (Function.update_of_ne hpool _ _).trans (hjoined.other pool hpool)) ?_ ?_⟩
  · have hold := htiled.apart
    rw [hsegs] at hold
    obtain ⟨h₁, h₂, -⟩ := List.isChain_append.mp hold
    refine List.isChain_append.mpr ⟨h₁, ?_, fun x hx _ _ => .inl (hlast x hx)⟩
    exact List.isChain_cons.mpr ⟨fun y hy => .inr (hhead y hy), (List.isChain_append.mp h₂).2.1⟩
  · rcases List.eq_nil_or_concat' pre with rfl | ⟨pre, u, rfl⟩
    · cases post with
      | nil => exact absurd ⟨rfl, rfl⟩ hused
      | cons u post => exact ⟨u, by simp, hhead u rfl⟩
    · exact ⟨u, by simp, hlast u (by simp)⟩
  · exact hself.trans (congrArg some hhdr)
  · have hnew : blocksOf false (m.base + total Seg.len pre) [(⟨k, 0, false⟩ : Seg)] =
        [(k, m.base + total Seg.len pre)] := by simp [blocksOf]
    simp only [Function.update_self]
    rw [blocksOf_append, blocksOf_append, hlen, hnew]
    exact (List.perm_orderedInsert _ _ _).trans ((hperm.cons _).trans (perm_joined _ _ _ _ _))
  · simp only [Function.update_self]
    exact (hjoined.sorted (h.sorted m.pool)).orderedInsert _ _

end

namespace CodeAllocator

variable {al : CodeAllocator} {ms ms' : List Mapping} {m : Mapping}

theorem blocksOf_inactive (a : Nat) {l : List Seg} (h : ∀ t ∈ l, t.active = false) : blocksOf true a l = [] := by
  refine List.eq_nil_iff_forall_not_mem.mpr fun b hb => ?_
  obtain ⟨t, ht, hact, -⟩ := mem_blocksOf.mp hb
  rw [h t (mem_of_mem_starts ht)] at hact
  cases hact

/-- The blocks of a mapping around a block in use. -/
theorem free_around (h : Represents al (ms ++ m :: ms')) {pre post : List Seg} {s : Seg}
    (hsegs : m.segs = pre ++ ([s] ++ post)) (hs : s.active = true) :
    (al.free m.pool).Perm (blocksOf false m.base pre ++ (freeOf m.pool ms ++
      (blocksOf false (m.base + total Seg.len pre + s.len) post ++ freeOf m.pool ms'))) := by
  have hperm := h.free m.pool
  have hnone : blocksOf false (m.base + total Seg.len pre) [s] = [] := by simp [blocksOf, hs]
  have hone : total Seg.len [s] = s.len := by simp
  rw [freeOf_append, freeOf_cons_self, hsegs, blocksOf_append, blocksOf_append, hnone, hone, List.nil_append,
    List.append_assoc] at hperm
  exact hperm.trans (List.perm_append_comm_assoc _ _ _)

/-- A block in use is given back: it is joined, or its mapping goes. -/
theorem deallocate_mapping (h : Represents al (ms ++ m :: ms')) {pre post : List Seg} {s : Seg}
    (hsegs : m.segs = pre ++ ([s] ++ post)) (hs : s.active = true) :
    ∃ al' ns, ∃ back ∈ [System.unmapped, System.executable],
      (∀ sys, al.deallocate (m.base + total Seg.len pre) s.size sys =
        if sys.writable && back sys then .ok al' else .error .refused) ∧
      al'.pageSize = al.pageSize ∧ Represents al' ns ∧
      (liveOf (ms ++ m :: ms')).Perm ((s.size, m.base + total Seg.len pre) :: liveOf ns) := by
  have hself : m ∈ ms ++ m :: ms' := List.mem_append_right _ List.mem_cons_self
  have htiled := h.tiled m hself
  have hlaid := h.laid m hself
  have hload := load_header h hsegs
  have hpools := h.pools m hself
  have hperm := free_around h hsegs hs
  have hapart := htiled.apart
  have htotal := htiled.total
  have hfits := htiled.fits
  have hmeta := metaSize_pos
  rw [hsegs] at hlaid hapart htotal
  rw [total_append, total_append, total_cons, total_nil, Nat.add_zero] at htotal
  obtain ⟨hpre, -, hpost⟩ := laid_append.mp hlaid
  obtain ⟨hapre, hapost, -⟩ := List.isChain_append.mp hapart
  have hslen : s.len = s.size + metaSize + s.waste := rfl
  obtain ⟨n, hn⟩ : ∃ n, m.size + 1 = n + 2 := ⟨m.size - 1, by omega⟩
  obtain ⟨al₁, pre₁, gone, rfl, hjoined₁, hperm₁, hgone, hlast, hprev⟩ :=
    joinPrev_spec s.size n hpre hperm hapre (by omega)
  rw [total_append] at htotal hload hpost hperm₁ ⊢
  rw [← List.append_assoc] at hperm₁
  have hpost₁ : Laid al₁.mem (m.base, m.size) m.pool none
      (some (m.base + (total Seg.len pre₁ + total Seg.len gone) + s.size))
      (m.base + (total Seg.len pre₁ + total Seg.len gone) + s.len) post := by
    rw [hjoined₁.mem]
    exact hpost
  obtain ⟨al₂, gone', post₁, rfl, hjoined₂, hperm₂, hgone', hhead, hnext⟩ :=
    joinNext_spec (s.size + total Seg.len gone) n hpost₁ hperm₁ hapost.tail (by omega)
  rw [total_append] at htotal
  have hlb : m.base + (total Seg.len pre₁ + total Seg.len gone) + s.size - (s.size + total Seg.len gone) =
      m.base + total Seg.len pre₁ := by omega
  have hone : total Seg.len [s] = s.len := by simp
  have hmid : total Seg.len (gone ++ ([s] ++ gone')) = total Seg.len gone + s.len + total Seg.len gone' := by
    rw [total_append, total_append, hone, Nat.add_assoc]
  have hk : s.size + total Seg.len gone + total Seg.len gone' + s.waste + metaSize =
      total Seg.len (gone ++ ([s] ++ gone')) := by omega
  have hsegs' : m.segs = pre₁ ++ (gone ++ ([s] ++ gone') ++ post₁) := by
    rw [hsegs]
    simp only [List.append_assoc]
  have hbehind : m.base + (total Seg.len pre₁ + total Seg.len gone) + total Seg.len [s] + total Seg.len gone' =
      m.base + total Seg.len pre₁ + total Seg.len (gone ++ ([s] ++ gone')) := by omega
  have hjoined := hjoined₁.trans hjoined₂
  have hsum : s.size + total Seg.len gone + total Seg.len gone' + s.waste < 2 ^ 64 := by omega
  rw [hone] at hbehind
  rw [hbehind] at hnext hperm₂
  have hlive : blocksOf true (m.base + total Seg.len pre₁) (gone ++ ([s] ++ gone')) =
      [(s.size, m.base + (total Seg.len pre₁ + total Seg.len gone))] := by
    rw [blocksOf_append, blocksOf_append, blocksOf_inactive _ hgone, blocksOf_inactive _ hgone', List.nil_append,
      List.append_nil, Nat.add_assoc]
    simp [blocksOf, hs]
  have hlm : m.base + (total Seg.len pre₁ + total Seg.len gone) + s.size = m.base + total Seg.len pre₁ +
      total Seg.len gone + s.size := by omega
  by_cases hend : pre₁ = [] ∧ post₁ = []
  · obtain ⟨rfl, rfl⟩ := hend
    refine ⟨{ al₂ with mem := al₂.mem.clear m.base m.size }, ms ++ ms', _, List.mem_cons_self, fun sys => ?_,
      hjoined.pageSize,
      h.unmap (congrArg (Memory.clear · m.base m.size) hjoined.mem) hjoined.pools hjoined.other
        (by simpa [blocksOf] using hperm₂) (hjoined.sorted (h.sorted m.pool)), ?_⟩
    · have hnone : lastHdr none m.base ([] : List Seg) = none ∧ headHdr none (m.base + total Seg.len ([] : List Seg) +
          total Seg.len (gone ++ ([s] ++ gone'))) [] = none := ⟨rfl, rfl⟩
      simp only [deallocate, hload, Fault.ok_bind, granted_bind, if_neg (Nat.not_le.mpr hpools), hn, hprev, hlb,
        hnext, add_eq hsum, if_pos hnone]
      cases sys.writable <;> rfl
    · simp only [liveOf, List.flatMap_append, List.flatMap_cons, hsegs', List.nil_append, List.append_nil]
      rw [show m.base = m.base + total Seg.len [] by simp, hlive]
      exact List.perm_middle
  · obtain ⟨mem, mem', al₃, hmem, hmem', hinsert, heq, hpage, hrep⟩ := h.join hsegs' hs hk hjoined hperm₂ hlast hhead
      hend rfl
    refine ⟨{ al₃ with mem := mem' }, _, _, List.mem_cons_of_mem _ List.mem_cons_self, fun sys => ?_, hpage, hrep, ?_⟩
    · have hnone : ¬(lastHdr none m.base pre₁ = none ∧ headHdr none (m.base + total Seg.len pre₁ +
          total Seg.len (gone ++ ([s] ++ gone'))) post₁ = none) := by
        rw [lastHdr_eq_none, headHdr_eq_none]
        exact hend
      simp only [deallocate, hload, Fault.ok_bind, granted_bind, if_neg (Nat.not_le.mpr hpools), hn, hprev, hlb,
        hnext, add_eq hsum, if_neg hnone, hinsert, heq, hmem, hmem']
      cases sys.writable <;> rfl
    · have hlen : total Seg.len [(⟨s.size + total Seg.len gone + total Seg.len gone' + s.waste, 0, false⟩ : Seg)] =
          total Seg.len (gone ++ ([s] ++ gone')) := by
        rw [total_cons, total_nil, ← hk]
        rfl
      obtain ⟨l, l', hold, hnew⟩ := liveOf_replace ms ms' m hsegs' hlen
      rw [hold, hnew, hlive, blocksOf_inactive _ (by simp)]
      exact List.perm_middle

/-- A block in use is given back, unless the system refuses. -/
theorem deallocate_spec (h : Represents al ms) {b : Block} (hb : b ∈ liveOf ms) :
    ∃ al' ns, ∃ back ∈ [System.unmapped, System.executable],
      (∀ sys, al.deallocate b.2 b.1 sys = if sys.writable && back sys then .ok al' else .error .refused) ∧
      al'.pageSize = al.pageSize ∧ Represents al' ns ∧ (liveOf ms).Perm (b :: liveOf ns) := by
  obtain ⟨m, hm, hblock⟩ := List.mem_flatMap.mp hb
  obtain ⟨l, l', rfl⟩ := List.append_of_mem hm
  obtain ⟨s, hs, hact, hsize⟩ := mem_blocksOf.mp hblock
  obtain ⟨pre, post, hsegs, hlb⟩ := exists_of_mem_starts hs
  have heq : b = (s.size, m.base + total Seg.len pre) := Prod.ext hsize.symm hlb
  rw [heq]
  exact deallocate_mapping h hsegs hact

end CodeAllocator

end Tsuki.Jit
