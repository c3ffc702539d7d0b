import Tsuki.Jit.Mappings

/-!
# `allocate`

A block is cut off the smallest inactive block that is large enough, or off new pages.
-/

namespace Tsuki.Jit

open Lib.Tiling

theorem perm_erase_mid {l x y : List Block} {b : Block} (h : l.Perm (x ++ b :: y)) :
    b ∈ l ∧ (l.erase b).Perm (x ++ y) := by
  obtain ⟨hmem, hperm⟩ := List.cons_perm_iff_perm_erase.mp (List.perm_middle.symm.trans h.symm)
  exact ⟨hmem, hperm.symm⟩

theorem perm_insert_mid {l x y : List Block} (b : Block) (h : l.Perm (x ++ y)) :
    (l.orderedInsert Before b).Perm (x ++ b :: y) :=
  (List.perm_orderedInsert Before b l).trans ((h.cons b).trans List.perm_middle.symm)

/-- A stretch of the segments is replaced by one of the same length. -/
theorem Mapping.Tiled.replace {m : Mapping} (h : m.Tiled) {pre mid mid' post : List Seg}
    (hsegs : m.segs = pre ++ (mid ++ post)) (hlen : Lib.Tiling.total Seg.len mid' = Lib.Tiling.total Seg.len mid)
    (haligned : ∀ x ∈ starts Seg.len (m.base + Lib.Tiling.total Seg.len pre) mid', 2 ^ m.pool ∣ x.1)
    (hpos : ∀ s ∈ mid', 0 < s.size) (hwaste : ∀ s ∈ mid', s.active = false → s.waste = 0)
    (hapart : (pre ++ (mid' ++ post)).IsChain Apart) (hused : ∃ s ∈ pre ++ (mid' ++ post), s.active = true) :
    Mapping.Tiled { m with segs := pre ++ (mid' ++ post) } := by
  have hold := h.aligned
  rw [hsegs, starts_append, starts_append] at hold
  refine ⟨?_, fun x hx => ?_, fun s hs => ?_, fun s hs => ?_, hapart, hused, h.fits⟩
  · have := h.total
    rw [hsegs, total_append, total_append] at this
    rw [total_append, total_append, hlen]
    exact this
  · have hx : x ∈ starts Seg.len m.base (pre ++ (mid' ++ post)) := hx
    rw [starts_append, starts_append, hlen] at hx
    rcases List.mem_append.mp hx with hx | hx
    · exact hold x (List.mem_append_left _ hx)
    · rcases List.mem_append.mp hx with hx | hx
      · exact haligned x hx
      · exact hold x (List.mem_append_right _ (List.mem_append_right _ hx))
  · rcases List.mem_append.mp hs with hs | hs
    · exact h.pos s (hsegs ▸ List.mem_append_left _ hs)
    · rcases List.mem_append.mp hs with hs | hs
      · exact hpos s hs
      · exact h.pos s (hsegs ▸ List.mem_append_right _ (List.mem_append_right _ hs))
  · rcases List.mem_append.mp hs with hs | hs
    · exact h.waste s (hsegs ▸ List.mem_append_left _ hs)
    · rcases List.mem_append.mp hs with hs | hs
      · exact hwaste s hs
      · exact h.waste s (hsegs ▸ List.mem_append_right _ (List.mem_append_right _ hs))

/-- An active segment can stand in the place of an inactive one, with an inactive one behind it. -/
theorem apart_replace {pre post mid : List Seg} {s t : Seg} (h : (pre ++ s :: post).IsChain Apart)
    (hs : s.active = false) (ht : t.active = true) (hmid : mid = [] ∨ ∃ r, mid = [r]) :
    (pre ++ (t :: mid ++ post)).IsChain Apart := by
  obtain ⟨h₁, h₂, -⟩ := List.isChain_append.mp h
  have hpost : ∀ y ∈ post.head?, y.active = true := by
    intro y hy
    cases post with
    | nil => cases hy
    | cons z post =>
      obtain rfl := Option.some.inj hy
      rcases (List.isChain_cons_cons.mp h₂).1 with hact | hact
      · rw [hs] at hact
        cases hact
      · exact hact
  have htail : (mid ++ post).IsChain Apart := by
    rcases hmid with rfl | ⟨r, rfl⟩
    · exact h₂.tail
    · refine List.isChain_append.mpr ⟨.singleton r, h₂.tail, fun x _ y hy => .inr (hpost y hy)⟩
  refine List.isChain_append.mpr ⟨h₁, ?_, fun x _ y hy => .inr ?_⟩
  · rw [List.cons_append]
    exact List.isChain_cons.mpr ⟨fun _ _ => .inl ht, htail⟩
  · obtain rfl := Option.some.inj hy
    exact ht

section

variable {al al' : CodeAllocator} {ms ms' : List Mapping} {m : Mapping} {pre mid mid' post : List Seg}

/-- The header before is linked to one that is written behind it. -/
theorem link_before {mem : Memory} {pages : Nat × Nat} {pool a : Nat} {rest : List Seg}
    (h : Laid mem pages pool none none a (pre ++ rest)) {lm : Nat} (hlm : a + total Seg.len pre ≤ lm) (v : Option Nat)
    (hdr : BlockMeta) : ∃ mem', mem.setNext (lastHdr none a pre) v = .ok mem' ∧
      (∀ x, x + metaSize ≤ a + total Seg.len pre → mem'.write lm hdr x = if some x = lastHdr none a pre then
        (mem x).map fun m => { m with next := v } else mem x) ∧
      ∀ x, lm + metaSize ≤ x → mem'.write lm hdr x = mem x := by
  obtain ⟨mem', hmem, heq⟩ := Memory.setNext_spec mem v fun y hy => (laid_append.mp h).1.last_isSome hy
  refine ⟨mem', hmem, fun x hx => ?_, fun x hx => ?_⟩
  · rw [Memory.write_of_apart (.inl (by omega)), heq]
  · rw [Memory.write_of_apart (.inr hx), heq, if_neg]
    intro hlast
    have := metaSize_pos
    rcases lastHdr_eq hlast.symm with ⟨-, hnone⟩ | ⟨-, hle⟩
    · cases hnone
    · omega

/-- What is written before and behind a stretch of the segments leaves other mappings alone. -/
theorem apart_of_relink {mem mem' : Memory} {a : Nat} {next' prev' : Option Nat}
    (hpre : ∀ x, x + metaSize ≤ a + total Seg.len pre → mem' x = if some x = lastHdr none a pre then
      (mem x).map fun m => { m with next := next' } else mem x)
    (hpost : ∀ x, a + total Seg.len pre + total Seg.len mid ≤ x → mem' x =
      if some x = headHdr none (a + total Seg.len pre + total Seg.len mid) post then
        (mem x).map fun m => { m with prev := prev' } else mem x)
    {x : Nat} (hx : x + metaSize ≤ a ∨ a + total Seg.len (pre ++ (mid ++ post)) ≤ x) : mem' x = mem x := by
  have hpos := metaSize_pos
  rw [total_append, total_append] at hx
  rcases hx with hx | hx
  · rw [hpre x (by omega), if_neg]
    intro heq
    rcases lastHdr_eq heq.symm with ⟨-, hnone⟩ | ⟨hle, -⟩
    · cases hnone
    · omega
  · rw [hpost x (by omega), if_neg]
    intro heq
    rcases headHdr_eq heq.symm with ⟨-, hnone⟩ | ⟨-, hle⟩
    · cases hnone
    · omega

/-- A stretch of the segments of one mapping is replaced. -/
theorem Represents.relink (h : Represents al (ms ++ m :: ms')) (hsegs : m.segs = pre ++ (mid ++ post))
    (hlen : total Seg.len mid' = total Seg.len mid)
    (haligned : ∀ x ∈ starts Seg.len (m.base + total Seg.len pre) mid', 2 ^ m.pool ∣ x.1)
    (hpos : ∀ s ∈ mid', 0 < s.size) (hwaste : ∀ s ∈ mid', s.active = false → s.waste = 0)
    (hapart : (pre ++ (mid' ++ post)).IsChain Apart) (hused : ∃ s ∈ pre ++ (mid' ++ post), s.active = true)
    (hlaid : Laid al'.mem (m.base, m.size) m.pool none none m.base (pre ++ (mid' ++ post)))
    (hout : ∀ x, x + metaSize ≤ m.base ∨ m.base + m.size ≤ x → al'.mem x = al.mem x)
    (hpools : al'.pools = al.pools) (hother : ∀ pool, pool ≠ m.pool → al'.free pool = al.free pool)
    (hfree : ∀ l l', (al.free m.pool).Perm (l ++ (blocksOf false (m.base + total Seg.len pre) mid ++ l')) →
      (al'.free m.pool).Perm (l ++ (blocksOf false (m.base + total Seg.len pre) mid' ++ l')))
    (hsorted : (al'.free m.pool).Pairwise Before) :
    Represents al' (ms ++ { m with segs := pre ++ (mid' ++ post) } :: ms') := by
  have htiled := h.tiled m (List.mem_append_right _ List.mem_cons_self)
  refine h.replace (htiled.replace hsegs hlen haligned hpos hwaste hapart hused) hlaid hout hpools.ge hother ?_ hsorted
  have hold := h.free m.pool
  rw [freeOf_append, freeOf_cons_self, hsegs, blocksOf_append, blocksOf_append, List.append_assoc, List.append_assoc,
    ← List.append_assoc] at hold
  rw [blocksOf_append, blocksOf_append, hlen, List.append_assoc, List.append_assoc, ← List.append_assoc]
  exact hfree _ _ hold

end

namespace CodeAllocator

variable {al : CodeAllocator} {ms ms' : List Mapping} {m : Mapping} {pre post : List Seg} {s : Seg} {size lb : Nat}

theorem le_alignUp (a : Nat) {align : Nat} (h : 0 < align) : a ≤ alignUp a align := by
  have hdiv := Nat.div_add_mod (a + align - 1) align
  have hlt := Nat.mod_lt (a + align - 1) h
  rw [Nat.mul_comm] at hdiv
  unfold alignUp Lib.roundUp
  omega

theorem dvd_alignUp (a align : Nat) : align ∣ alignUp a align := Lib.dvd_roundUp _ _

theorem load_header (h : Represents al (ms ++ m :: ms')) (hsegs : m.segs = pre ++ ([s] ++ post)) :
    al.mem.load (m.base + total Seg.len pre + s.size) = .ok ⟨(m.base, m.size), lastHdr none m.base pre,
      headHdr none (m.base + total Seg.len pre + s.len) post, s.size, s.waste, s.active, m.pool⟩ := by
  have hlaid := h.laid m (List.mem_append_right _ List.mem_cons_self)
  rw [hsegs, laid_append] at hlaid
  rw [Memory.load, hlaid.2.1]
  rfl

theorem blocksOf_inactive_one (a : Nat) (hs : s.active = false) : blocksOf false a [s] = [(s.size, a)] := by
  simp [blocksOf, hs]

theorem inactive_len (h : Represents al (ms ++ m :: ms')) (hsegs : m.segs = pre ++ ([s] ++ post))
    (hs : s.active = false) : total Seg.len [s] = s.size + metaSize := by
  have hwaste := (h.tiled m (List.mem_append_right _ List.mem_cons_self)).waste s (by simp [hsegs]) hs
  rw [total_cons, total_nil, Seg.len, hwaste]
  rfl

theorem inactive_mem_free (h : Represents al (ms ++ m :: ms')) (hsegs : m.segs = pre ++ ([s] ++ post))
    (hs : s.active = false) : (s.size, m.base + total Seg.len pre) ∈ al.free m.pool := by
  refine h.mem_free.mpr ⟨m, List.mem_append_right _ List.mem_cons_self, rfl, ?_⟩
  rw [hsegs, blocksOf_append, blocksOf_append, blocksOf_inactive_one _ hs]
  simp

theorem take_exact (h : Represents al (ms ++ m :: ms')) (hsegs : m.segs = pre ++ ([s] ++ post))
    (hs : s.active = false) (hlb : lb = m.base + total Seg.len pre) :
    ∃ al', al.take s.size (2 ^ m.pool) m.pool s.size lb = .ok al' ∧ al'.pageSize = al.pageSize ∧
      Represents al' (ms ++ { m with segs := pre ++ ([{ s with active := true }] ++ post) } :: ms') := by
  subst hlb
  have hself : m ∈ ms ++ m :: ms' := List.mem_append_right _ List.mem_cons_self
  have htiled := h.tiled m hself
  have hlaid := h.laid m hself
  have hload := load_header h hsegs
  have hblock := blocksOf_inactive_one (m.base + total Seg.len pre) hs
  have hfree := inactive_mem_free h hsegs hs
  rw [hsegs] at hlaid
  have hlaid' := hlaid
  rw [laid_append, laid_append] at hlaid'
  obtain ⟨hpre, ⟨hmid, -⟩, hpost⟩ := hlaid'
  obtain ⟨mem, hmem, heq⟩ := Memory.modify_spec al.mem (m.base + total Seg.len pre + s.size)
    (fun m => { m with active := true }) (by rw [hmid]; rfl)
  have hother : ∀ x, x ≠ m.base + total Seg.len pre + s.size → mem x = al.mem x := fun x hx => (heq x).trans (if_neg hx)
  have hbase : m.base + total Seg.len pre + s.size + metaSize ≤ m.base + m.size := by
    have := htiled.total
    rw [hsegs, total_append, total_append, total_cons, Seg.len] at this
    omega
  have hpos := metaSize_pos
  refine ⟨{ al with free := Function.update al.free m.pool ((al.free m.pool).erase
    (s.size, m.base + total Seg.len pre)), mem := mem }, ?_, rfl, ?_⟩
  · simp only [take, hload, Fault.ok_bind, remove_eq hfree, Nat.sub_self, if_pos, hmem]
  · refine h.relink hsegs rfl (fun x hx => ?_) (fun t ht => ?_) (fun t ht hact => ?_) ?_ ?_ ?_ (fun x hx => hother x ?_)
      rfl (fun pool hpool => Function.update_of_ne hpool _ _) (fun l l' hperm => ?_) ?_
    · have := htiled.aligned (m.base + total Seg.len pre, s) (hsegs ▸ mem_starts _ _ _ _)
      rw [starts_cons, starts_nil, List.mem_singleton] at hx
      rwa [hx]
    · rw [List.mem_singleton] at ht
      rw [ht]
      exact htiled.pos s (by simp [hsegs])
    · rw [List.mem_singleton] at ht
      rw [ht] at hact
      cases hact
    · exact apart_replace (hsegs ▸ htiled.apart) hs rfl (.inl rfl)
    · exact ⟨{ s with active := true }, by simp, rfl⟩
    · refine laid_append.mpr ⟨hpre.congr fun x hx hx' => hother x (by omega), laid_append.mpr ⟨⟨?_, trivial⟩, ?_⟩⟩
      · refine (heq _).trans ?_
        rw [if_pos rfl, hmid]
        rfl
      · refine Laid.congr hpost fun x hx _ => hother x ?_
        simp only [total_cons, total_nil, Seg.len] at hx
        omega
    · omega
    · rw [hblock] at hperm
      rw [show blocksOf false (m.base + total Seg.len pre) [{ s with active := true }] = [] by simp [blocksOf],
        List.nil_append]
      simp only [Function.update_self]
      exact (perm_erase_mid hperm).2
    · simp only [Function.update_self]
      exact (h.sorted m.pool).erase _

theorem blocksOf_active (a w : Nat) {l : List Seg} (h : ∀ t ∈ l, t.active = false) :
    blocksOf true a (⟨size, w, true⟩ :: l) = [(size, a)] := by
  have hnil : ∀ a, blocksOf true a l = [] := by
    intro a
    refine List.eq_nil_iff_forall_not_mem.mpr fun b hb => ?_
    obtain ⟨t, ht, hact, -⟩ := mem_blocksOf.mp hb
    rw [h t (mem_of_mem_starts ht)] at hact
    cases hact
  rw [blocksOf_cons, hnil, if_pos rfl, List.append_nil]

/-- No inactive block starts inside of an inactive segment. -/
theorem notMem_of_inside (h : Represents al (ms ++ m :: ms')) (hsegs : m.segs = pre ++ ([s] ++ post)) {b : Block}
    {pool : Nat} (hlt : m.base + total Seg.len pre < b.2) (hlt' : b.2 < m.base + total Seg.len pre + s.len) :
    b ∉ al.free pool := by
  have htotal := (h.tiled m (List.mem_append_right _ List.mem_cons_self)).total
  rw [hsegs, total_append, total_append, total_cons, total_nil, Nat.add_zero] at htotal
  have hmeta := metaSize_pos
  refine h.notMem_free (by omega) (by omega) fun hb => ?_
  rw [hsegs, blocksOf_append, blocksOf_append] at hb
  rcases List.mem_append.mp hb with hb | hb
  · have := blocksOf_bounds hb
    omega
  · rcases List.mem_append.mp hb with hb | hb
    · obtain ⟨t, ht, -⟩ := mem_blocksOf.mp hb
      rw [starts_cons, starts_nil, List.mem_singleton] at ht
      have := congrArg Prod.fst ht
      simp only at this
      omega
    · have := (blocksOf_bounds hb).1
      rw [total_cons, total_nil, Nat.add_zero] at this
      omega

/-- The header of the block that is cut is moved behind the first part, and linked with the one before it. -/
theorem cut_links (h : Represents al (ms ++ m :: ms')) (hsegs : m.segs = pre ++ ([s] ++ post))
    (hs : s.active = false) (hlt : size < s.size) : ∃ mem mem₁,
      al.mem.load (m.base + total Seg.len pre + s.size) = .ok ⟨(m.base, m.size), lastHdr none m.base pre,
        headHdr none (m.base + total Seg.len pre + total Seg.len [s]) post, s.size, 0, false, m.pool⟩ ∧
      al.mem.setNext (lastHdr none m.base pre) (some (m.base + total Seg.len pre + size)) = .ok mem ∧
      mem.write (m.base + total Seg.len pre + size) ⟨(m.base, m.size), lastHdr none m.base pre,
        headHdr none (m.base + total Seg.len pre + total Seg.len [s]) post, size, 0, false, m.pool⟩ = mem₁ ∧
      mem₁ (m.base + total Seg.len pre + size) = some ⟨(m.base, m.size), lastHdr none m.base pre,
        headHdr none (m.base + total Seg.len pre + total Seg.len [s]) post, size, 0, false, m.pool⟩ ∧
      (∀ x, x + metaSize ≤ m.base + total Seg.len pre → mem₁ x = if some x = lastHdr none m.base pre then
        (al.mem x).map fun b => { b with next := some (m.base + total Seg.len pre + size) } else al.mem x) ∧
      (∀ x, m.base + total Seg.len pre + size + metaSize ≤ x → mem₁ x = al.mem x) ∧
      ∀ y, headHdr none (m.base + total Seg.len pre + total Seg.len [s]) post = some y →
        m.base + total Seg.len pre + total Seg.len [s] ≤ y ∧ (mem₁ y).isSome := by
  have hself : m ∈ ms ++ m :: ms' := List.mem_append_right _ List.mem_cons_self
  have hlaid := h.laid m hself
  have hload := load_header h hsegs
  have hwaste := (h.tiled m hself).waste s (by simp [hsegs]) hs
  have hlen := inactive_len h hsegs hs
  rw [hsegs] at hlaid
  have hpost := (laid_append.mp (laid_append.mp hlaid).2).2
  rw [hs, hwaste] at hload
  obtain ⟨mem, hmem, hbefore, hbehind⟩ := link_before hlaid
    (show m.base + total Seg.len pre ≤ m.base + total Seg.len pre + size by omega)
    (some (m.base + total Seg.len pre + size)) ⟨(m.base, m.size), lastHdr none m.base pre,
      headHdr none (m.base + total Seg.len pre + total Seg.len [s]) post, size, 0, false, m.pool⟩
  refine ⟨mem, _, ?_, hmem, rfl, Memory.write_self _ _ _, hbefore, hbehind, fun y hy => ?_⟩
  · rw [hload]
    simp
  · rcases headHdr_eq hy with ⟨-, hnone⟩ | ⟨hle, -⟩
    · cases hnone
    · rw [hbehind y (by omega)]
      exact ⟨hle, hpost.head_isSome hy⟩

theorem take_split (h : Represents al (ms ++ m :: ms')) (hsegs : m.segs = pre ++ ([s] ++ post))
    (hs : s.active = false) (hpos : 0 < size) (hlt : size < s.size)
    (hfit : alignUp (m.base + total Seg.len pre + size + metaSize) (2 ^ m.pool) < m.base + total Seg.len pre + s.size) :
    ∃ al' mid, al.take size (2 ^ m.pool) m.pool s.size (m.base + total Seg.len pre) = .ok al' ∧
      al'.pageSize = al.pageSize ∧ Represents al' (ms ++ { m with segs := pre ++ (mid ++ post) } :: ms') ∧
      total Seg.len mid = total Seg.len [s] ∧
      blocksOf true (m.base + total Seg.len pre) mid = [(size, m.base + total Seg.len pre)] := by
  have hself : m ∈ ms ++ m :: ms' := List.mem_append_right _ List.mem_cons_self
  have htiled := h.tiled m hself
  have hlaid := h.laid m hself
  have hblock := blocksOf_inactive_one (m.base + total Seg.len pre) hs
  have hfree := inactive_mem_free h hsegs hs
  have hlen := inactive_len h hsegs hs
  have hone : total Seg.len [s] = s.len := by simp
  have haligned : 2 ^ m.pool ∣ m.base + total Seg.len pre :=
    htiled.aligned (m.base + total Seg.len pre, s) (hsegs ▸ mem_starts _ _ _ _)
  have hapart {t : Seg} {mid : List Seg} (ht : t.active = true) (hmid : mid = [] ∨ ∃ r, mid = [r]) :
      (pre ++ (t :: mid ++ post)).IsChain Apart := apart_replace (hsegs ▸ htiled.apart) hs ht hmid
  have htotal : m.base + total Seg.len (pre ++ ([s] ++ post)) = m.base + m.size := by rw [← htiled.total, hsegs]
  have hmeta := metaSize_pos
  have hskip : s.size - size ≠ 0 := by omega
  obtain ⟨mem, mem₁, hload, hmem, hmem₁, hlm, hbefore, hbehind, hsome⟩ := cut_links h hsegs hs hlt
  have hrb := le_alignUp (m.base + total Seg.len pre + size + metaSize) (Nat.two_pow_pos m.pool)
  have hrbdvd := dvd_alignUp (m.base + total Seg.len pre + size + metaSize) (2 ^ m.pool)
  have hnot (n : Nat) (hn : m.base + total Seg.len pre < n) (hn' : n < m.base + total Seg.len pre + s.size) (k : Nat) :
      (k, n) ∉ (al.free m.pool).erase (s.size, m.base + total Seg.len pre) := fun hmem =>
    notMem_of_inside h hsegs hn (by rw [hone] at hlen; simp only; omega) (List.mem_of_mem_erase hmem)
  rw [hsegs] at hlaid
  generalize hrbeq : alignUp (m.base + total Seg.len pre + size + metaSize) (2 ^ m.pool) = rb at hrb hrbdvd hfit
  generalize herase : (al.free m.pool).erase (s.size, m.base + total Seg.len pre) = rest at hnot
  obtain ⟨mem₂, hmem₂, heq₂⟩ := Memory.modify_spec mem₁ (m.base + total Seg.len pre + size)
    (fun b => { b with
      next := some (m.base + total Seg.len pre + s.size), active := true
      waste := rb - (m.base + total Seg.len pre + size + metaSize) }) (by rw [hlm]; rfl)
  obtain ⟨mem₃, hmem₃, heq₃⟩ := Memory.setPrev_spec mem₂ (some (m.base + total Seg.len pre + s.size))
    fun y hy => (by rw [heq₂, if_neg (by have := (hsome y hy).1; omega)]; exact (hsome y hy).2)
  obtain ⟨mem₄, hmem₄⟩ : ∃ x, x = mem₃.write (m.base + total Seg.len pre + s.size) ⟨(m.base, m.size),
    some (m.base + total Seg.len pre + size), headHdr none (m.base + total Seg.len pre + total Seg.len [s]) post,
    m.base + total Seg.len pre + s.size - rb, 0, false, m.pool⟩ := ⟨_, rfl⟩
  have hinsert : ({ al with free := Function.update al.free m.pool rest, mem := mem₄ } : CodeAllocator).insert m.pool
      (m.base + total Seg.len pre + s.size - rb, rb) = .ok { al with
        free := Function.update (Function.update al.free m.pool rest) m.pool
          (rest.orderedInsert Before (m.base + total Seg.len pre + s.size - rb, rb))
        mem := mem₄ } := by
    rw [insert_eq]
    · simp only [Function.update_self]
    · simp only [Function.update_self]
      exact hnot rb (by omega) hfit _
  have hmid : total Seg.len [(⟨size, rb - (m.base + total Seg.len pre + size + metaSize), true⟩ : Seg),
      ⟨m.base + total Seg.len pre + s.size - rb, 0, false⟩] = total Seg.len [s] := by
    rw [total_cons, total_cons, total_nil, Seg.len, Seg.len, hlen]
    simp only
    omega
  have hfst : m.base + total Seg.len pre +
      Seg.len ⟨size, rb - (m.base + total Seg.len pre + size + metaSize), true⟩ = rb := by
    simp only [Seg.len]
    omega
  have hrm : rb + (m.base + total Seg.len pre + s.size - rb) = m.base + total Seg.len pre + s.size := by omega
  have hlast (p : Option Nat) : lastHdr p (m.base + total Seg.len pre)
      [⟨size, rb - (m.base + total Seg.len pre + size + metaSize), true⟩,
        ⟨m.base + total Seg.len pre + s.size - rb, 0, false⟩] = some (m.base + total Seg.len pre + s.size) := by
    rw [lastHdr, lastHdr, lastHdr, hfst, hrm]
  have hlm₂ : mem₂ (m.base + total Seg.len pre + size) = some ⟨(m.base, m.size), lastHdr none m.base pre,
      some (m.base + total Seg.len pre + s.size), size, rb - (m.base + total Seg.len pre + size + metaSize), true,
      m.pool⟩ := by
    rw [heq₂, if_pos rfl, hlm]
    rfl
  have hlm₄ : mem₄ (m.base + total Seg.len pre + size) = mem₂ (m.base + total Seg.len pre + size) := by
    rw [hmem₄, Memory.write_of_apart (.inl (by omega)), heq₃, if_neg]
    exact fun heq => absurd (hsome _ heq.symm).1 (by omega)
  have hbefore' (x : Nat) (hx : x + metaSize ≤ m.base + total Seg.len pre) := (congrFun hmem₄ x).trans
    (Memory.write_of_apart (.inl (by omega))) |>.trans (heq₃ x) |>.trans
      (if_neg fun heq => absurd (hsome x heq.symm).1 (by omega)) |>.trans (heq₂ x) |>.trans (if_neg (by omega))
      |>.trans (hbefore x hx)
  have hkeep (x : Nat) (hx : m.base + total Seg.len pre + total Seg.len [s] ≤ x) : mem₂ x = al.mem x :=
    (heq₂ x).trans (if_neg (by omega)) |>.trans (hbehind x (by omega))
  have hbehind' (x : Nat) (hx : m.base + total Seg.len pre + total Seg.len [s] ≤ x) := (congrFun hmem₄ x).trans
    (Memory.write_of_apart (.inr (by omega))) |>.trans (heq₃ x) |>.trans (by rw [hkeep x hx])
  refine ⟨{ al with
    free := Function.update (Function.update al.free m.pool rest) m.pool
      (rest.orderedInsert Before (m.base + total Seg.len pre + s.size - rb, rb))
    mem := mem₄ }, [⟨size, rb - (m.base + total Seg.len pre + size + metaSize), true⟩,
    ⟨m.base + total Seg.len pre + s.size - rb, 0, false⟩], ?_, rfl, ?_, hmid, blocksOf_active _ _ (by simp)⟩
  · simp only [take, hload, Fault.ok_bind, remove_eq hfree, hskip, if_false, hmem, hrbeq, Nat.add_zero,
      Nat.add_sub_cancel, hfit, if_true, hmem₁, hmem₂, hmem₃, ← hmem₄, herase]
    exact hinsert
  · refine h.relink hsegs hmid ?_ ?_ (by simp) (hapart rfl (.inr ⟨_, rfl⟩)) ⟨⟨size, _, true⟩, List.mem_append_right _
      List.mem_cons_self, rfl⟩ (hlaid.replace hmid (fun x _ hx => hbefore' x hx)
      (fun x hx => by rw [hlast]; exact hbehind' x hx) ⟨?_, ?_, trivial⟩)
      (fun x hx => apart_of_relink hbefore' hbehind' (by rwa [htotal])) rfl
      (fun pool hpool => ?_) (fun l l' hperm => ?_) ?_
    · intro x hx
      simp only [starts_cons, starts_nil, List.mem_cons, List.not_mem_nil, or_false] at hx
      rcases hx with rfl | rfl
      · exact haligned
      · rwa [hfst]
    · simp only [List.mem_cons, List.not_mem_nil, or_false, forall_eq_or_imp, forall_eq]
      omega
    · refine (hlm₄.trans hlm₂).trans ?_
      simp only [headHdr, hfst, hrm]
    · simp only [hfst, hrm, headHdr, hmem₄, Memory.write_self]
    · exact (Function.update_of_ne hpool _ _).trans (Function.update_of_ne hpool _ _)
    · have hnew : blocksOf false (m.base + total Seg.len pre)
          [⟨size, rb - (m.base + total Seg.len pre + size + metaSize), true⟩,
            ⟨m.base + total Seg.len pre + s.size - rb, 0, false⟩] =
          [(m.base + total Seg.len pre + s.size - rb, rb)] := by
        rw [blocksOf_cons, blocksOf_cons, hfst]
        rfl
      rw [hblock] at hperm
      rw [hnew]
      simp only [Function.update_self]
      exact perm_insert_mid _ (herase ▸ (perm_erase_mid hperm).2)
    · simp only [Function.update_self]
      exact (herase ▸ (h.sorted m.pool).erase _).orderedInsert _ _

/-- The whole block is taken, and what is left of it is its waste. -/
theorem take_whole (h : Represents al (ms ++ m :: ms')) (hsegs : m.segs = pre ++ ([s] ++ post))
    (hs : s.active = false) (hpos : 0 < size) (hlt : size < s.size)
    (hfit : ¬alignUp (m.base + total Seg.len pre + size + metaSize) (2 ^ m.pool) <
      m.base + total Seg.len pre + s.size) :
    ∃ al' mid, al.take size (2 ^ m.pool) m.pool s.size (m.base + total Seg.len pre) = .ok al' ∧
      al'.pageSize = al.pageSize ∧ Represents al' (ms ++ { m with segs := pre ++ (mid ++ post) } :: ms') ∧
      total Seg.len mid = total Seg.len [s] ∧
      blocksOf true (m.base + total Seg.len pre) mid = [(size, m.base + total Seg.len pre)] := by
  have hself : m ∈ ms ++ m :: ms' := List.mem_append_right _ List.mem_cons_self
  have htiled := h.tiled m hself
  have hlaid := h.laid m hself
  have hblock := blocksOf_inactive_one (m.base + total Seg.len pre) hs
  have hfree := inactive_mem_free h hsegs hs
  have hlen := inactive_len h hsegs hs
  have hone : total Seg.len [s] = s.len := by simp
  have haligned : 2 ^ m.pool ∣ m.base + total Seg.len pre :=
    htiled.aligned (m.base + total Seg.len pre, s) (hsegs ▸ mem_starts _ _ _ _)
  have hapart {t : Seg} {mid : List Seg} (ht : t.active = true) (hmid : mid = [] ∨ ∃ r, mid = [r]) :
      (pre ++ (t :: mid ++ post)).IsChain Apart := apart_replace (hsegs ▸ htiled.apart) hs ht hmid
  have htotal : m.base + total Seg.len (pre ++ ([s] ++ post)) = m.base + m.size := by rw [← htiled.total, hsegs]
  have hmeta := metaSize_pos
  have hskip : s.size - size ≠ 0 := by omega
  obtain ⟨mem, mem₁, hload, hmem, hmem₁, hlm, hbefore, hbehind, hsome⟩ := cut_links h hsegs hs hlt
  have hrb := le_alignUp (m.base + total Seg.len pre + size + metaSize) (Nat.two_pow_pos m.pool)
  rw [hsegs] at hlaid
  generalize hrbeq : alignUp (m.base + total Seg.len pre + size + metaSize) (2 ^ m.pool) = rb at hrb hfit
  obtain ⟨mem₂, hmem₂, heq₂⟩ := Memory.setPrev_spec mem₁ (some (m.base + total Seg.len pre + size))
    fun y hy => (hsome y hy).2
  have hlm₂ := (heq₂ _).trans (if_neg fun heq => absurd (hsome _ heq.symm).1 (by omega)) |>.trans hlm
  obtain ⟨mem₃, hmem₃, heq₃⟩ := Memory.modify_spec mem₂ (m.base + total Seg.len pre + size)
    (fun b => { b with active := true, waste := s.size - size }) (by rw [hlm₂]; rfl)
  refine ⟨{ al with
    free := Function.update al.free m.pool ((al.free m.pool).erase (s.size, m.base + total Seg.len pre)), mem := mem₃ },
    [⟨size, s.size - size, true⟩], ?_, rfl, ?_, ?_, blocksOf_active _ _ (by simp)⟩
  · have hwaste' : m.base + total Seg.len pre + s.size + metaSize -
        (m.base + total Seg.len pre + size + metaSize) = s.size - size := by omega
    simp only [take, hload, Fault.ok_bind, remove_eq hfree, hskip, if_false, hmem, hrbeq, Nat.add_zero,
      Nat.add_sub_cancel, hfit, hmem₁, hmem₂, hwaste', hmem₃]
  · have hlen' : total Seg.len [(⟨size, s.size - size, true⟩ : Seg)] = total Seg.len [s] := by
      rw [total_cons, total_nil, Seg.len, hlen]
      simp only
      omega
    have hbefore' (x : Nat) (hx : x + metaSize ≤ m.base + total Seg.len pre) :=
      (heq₃ x).trans (if_neg (by omega)) |>.trans (heq₂ x) |>.trans
        (if_neg fun heq => absurd (hsome x heq.symm).1 (by omega)) |>.trans (hbefore x hx)
    have hbehind' (x : Nat) (hx : m.base + total Seg.len pre + total Seg.len [s] ≤ x) :=
      (heq₃ x).trans (if_neg (by omega)) |>.trans (heq₂ x) |>.trans (by rw [hbehind x (by omega)])
    refine h.relink hsegs hlen' (by simpa using haligned) (by simpa using hpos) (by simp) (hapart rfl (.inl rfl))
      ⟨⟨size, s.size - size, true⟩, by simp, rfl⟩
      (hlaid.replace hlen' (fun x _ hx => hbefore' x hx) hbehind' ⟨?_, trivial⟩)
      (fun x hx => apart_of_relink hbefore' hbehind' (by rwa [htotal])) rfl
      (fun pool hpool => Function.update_of_ne hpool _ _) (fun l l' hperm => ?_) ?_
    · refine (heq₃ _).trans ?_
      rw [if_pos rfl, hlm₂]
      simp only [Option.map_some, headHdr, hone]
    · rw [hblock] at hperm
      rw [show blocksOf false (m.base + total Seg.len pre) [(⟨size, s.size - size, true⟩ : Seg)] = [] by
        simp [blocksOf], List.nil_append]
      simp only [Function.update_self]
      exact (perm_erase_mid hperm).2
    · simp only [Function.update_self]
      exact (h.sorted m.pool).erase _
  · rw [hlen]
    simp only [total_cons, total_nil, Seg.len]
    omega

/-- The block is cut, or taken with what is left of it as its waste. -/
theorem take_cut (h : Represents al (ms ++ m :: ms')) (hsegs : m.segs = pre ++ ([s] ++ post))
    (hs : s.active = false) (hlb : lb = m.base + total Seg.len pre) (hpos : 0 < size) (hlt : size < s.size) :
    ∃ al' mid, al.take size (2 ^ m.pool) m.pool s.size lb = .ok al' ∧ al'.pageSize = al.pageSize ∧
      Represents al' (ms ++ { m with segs := pre ++ (mid ++ post) } :: ms') ∧
      total Seg.len mid = total Seg.len [s] ∧ blocksOf true lb mid = [(size, lb)] := by
  subst hlb
  by_cases hfit : alignUp (m.base + total Seg.len pre + size + metaSize) (2 ^ m.pool) <
      m.base + total Seg.len pre + s.size
  · exact take_split h hsegs hs hpos hlt hfit
  · exact take_whole h hsegs hs hpos hlt hfit

end CodeAllocator

end Tsuki.Jit
