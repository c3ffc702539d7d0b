import Tsuki.Gc.Refs
import Mathlib.Data.List.Perm.Subperm

/-!
# The lists of strong references

In every state that a program comes to, the two lists together have each object that there is a `Ref` of, once, and
nothing else, and `refn` of a listed object is the cell that points to it. The lists are those of `Lib.BackLinks`,
where an operation on a cell is a step on two plain lists. What is left is to see that each action of a program
touches the cells it should, and that the handles it counts are the ones there are.
-/

namespace Tsuki.Refs

open Lib.BackLinks (Links lastCell lastCell_eq)

/-- The lists as cells that point to objects. -/
def Gc.links (g : Gc) : Links Head Nat where
  next
    | .head .refs => g.refs
    | .head .markedRefs => g.markedRefs
    | .link o => (g.object o).bind Object.refp
  back o := (g.object o).bind Object.refn

/-- The same but for the links. -/
structure Same (g g' : Gc) : Prop where
  state : g'.state = g.state
  currentwhite : g'.currentwhite = g.currentwhite
  count : g'.count = g.count
  object : ∀ o, (g'.object o).map (fun h => (h.refs, h.color)) = (g.object o).map fun h => (h.refs, h.color)

theorem Same.refl (g : Gc) : Same g g := ⟨rfl, rfl, rfl, fun _ => rfl⟩

theorem Same.trans {g g' g'' : Gc} (h : Same g g') (h' : Same g' g'') : Same g g'' :=
  ⟨h'.state.trans h.state, h'.currentwhite.trans h.currentwhite, h'.count.trans h.count,
    fun o => (h'.object o).trans (h.object o)⟩

theorem Same.exists_object {g g' : Gc} (hs : Same g g') {o : Nat} {h' : Object} (ho : g'.object o = some h') :
    ∃ h, g.object o = some h ∧ h.refs = h'.refs ∧ h.color = h'.color := by
  have heq := hs.object o
  rw [ho] at heq
  cases h : g.object o with
  | none =>
    rw [h] at heq
    cases heq
  | some h =>
    simp_all

theorem Same.isSome {g g' : Gc} (hs : Same g g') (o : Nat) : (g'.object o).isSome = (g.object o).isSome := by
  have heq := congrArg Option.isSome (hs.object o)
  simpa using heq

/-! ## Writes -/

variable {g : Gc}

theorem Gc.load_eq {o : Nat} {h : Object} (ho : g.object o = some h) : g.load o = .ok h := by
  rw [Gc.load, ho]

theorem Gc.modify_eq {o : Nat} {h : Object} (ho : g.object o = some h) (f : Object → Object) :
    g.modify o f = .ok { g with object := Function.update g.object o (some (f h)) } := by
  rw [Gc.modify, ho]

theorem links_update (o : Nat) (h : Object) :
    ({ g with object := Function.update g.object o (some h) } : Gc).links =
      ⟨Function.update g.links.next (.link o) h.refp, Function.update g.links.back o h.refn⟩ := by
  apply Links.ext
  · funext c
    by_cases hc : c = .link o
    · subst hc
      simp [Gc.links]
    · show _ = Function.update g.links.next (.link o) h.refp c
      rw [Function.update_of_ne hc]
      rcases c with (_ | _) | q
      · rfl
      · rfl
      · have hq : q ≠ o := fun heq => hc (congrArg _ heq)
        simp [Gc.links, Function.update_of_ne hq]
  · funext q
    by_cases hq : q = o
    · subst hq
      simp [Gc.links]
    · simp [Gc.links, Function.update_of_ne hq]

theorem same_update {o : Nat} {h h' : Object} (ho : g.object o = some h) (hrefs : h'.refs = h.refs)
    (hcolor : h'.color = h.color) : Same g { g with object := Function.update g.object o (some h') } := by
  refine ⟨rfl, rfl, rfl, fun q => ?_⟩
  by_cases hq : q = o
  · subst hq
    simp [ho, hrefs, hcolor]
  · simp [Function.update_of_ne hq]

theorem Gc.write_spec {c : Cell} (hc : ∀ o, c = .link o → (g.object o).isSome) (p : Option Nat) :
    ∃ g', g.write c p = .ok g' ∧ g'.links = { g.links with next := Function.update g.links.next c p } ∧ Same g g' := by
  rcases c with (_ | _) | o
  · refine ⟨_, rfl, Links.ext ?_ rfl, ⟨rfl, rfl, rfl, fun _ => rfl⟩⟩
    funext c
    rcases c with (_ | _) | q <;> simp [Gc.links]
  · refine ⟨_, rfl, Links.ext ?_ rfl, ⟨rfl, rfl, rfl, fun _ => rfl⟩⟩
    funext c
    rcases c with (_ | _) | q <;> simp [Gc.links]
  · obtain ⟨h, ho⟩ := Option.isSome_iff_exists.mp (hc o rfl)
    refine ⟨_, Gc.modify_eq ho _, ?_, same_update ho rfl rfl⟩
    have hback : g.links.back o = h.refn := by simp [Gc.links, ho]
    rw [links_update]
    dsimp only
    rw [← hback, Function.update_eq_self]

theorem Gc.setRefn_spec {p : Option Nat} (hp : ∀ o, p = some o → (g.object o).isSome) (c : Cell) :
    ∃ g', g.setRefn p c = .ok g' ∧
      g'.links = { g.links with back := fun o => if p = some o then some c else g.links.back o } ∧ Same g g' := by
  cases p with
  | none => exact ⟨g, rfl, Links.ext rfl (funext fun o => by simp), .refl g⟩
  | some o =>
    obtain ⟨h, ho⟩ := Option.isSome_iff_exists.mp (hp o rfl)
    refine ⟨_, Gc.modify_eq ho _, ?_, same_update ho rfl rfl⟩
    have hnext : g.links.next (.link o) = h.refp := by simp [Gc.links, ho]
    rw [links_update]
    dsimp only
    rw [← hnext, Function.update_eq_self]
    refine Links.ext rfl (funext fun q => ?_)
    by_cases hq : q = o
    · subst hq
      simp
    · simp [Function.update_of_ne hq, Ne.symm hq]

/-- The write to a cell that the new target learns of. -/
theorem Gc.set_spec {c : Cell} {p : Option Nat} (hc : ∀ o, c = .link o → (g.object o).isSome)
    (hp : ∀ o, p = some o → (g.object o).isSome) :
    ∃ g', (g.write c p >>= fun g => g.setRefn p c) = .ok g' ∧ g'.links = g.links.set c p ∧ Same g g' := by
  obtain ⟨g₁, hwrite, hlinks₁, hsame₁⟩ := Gc.write_spec hc p
  obtain ⟨g₂, hset, hlinks₂, hsame₂⟩ := Gc.setRefn_spec (g := g₁) (fun o ho => by rw [hsame₁.isSome]; exact hp o ho) c
  refine ⟨g₂, ?_, ?_, hsame₁.trans hsame₂⟩
  · rw [hwrite]
    exact hset
  · rw [hlinks₂, hlinks₁]
    rfl

/-! ## Walks -/

theorem Gc.links_visit (marks : Nat → Bool) : (g.visit marks).links = g.links := by
  apply Links.ext
  · funext c
    rcases c with (_ | _) | o
    · rfl
    · rfl
    · simp only [Gc.links, Gc.visit, Option.bind_map]
      congr 1
      funext h
      by_cases hm : marks o <;> simp [hm]
  · funext o
    simp only [Gc.links, Gc.visit, Option.bind_map]
    congr 1
    funext h
    by_cases hm : marks o <;> simp [hm]

theorem Gc.visit_visit (p q : Nat → Bool) : (g.visit p).visit q = g.visit fun o => p o || q o := by
  simp only [Gc.visit, Option.map_map]
  congr 1
  funext o
  congr 1
  funext h
  by_cases hp : p o <;> by_cases hq : q o <;> simp [hp, hq]

theorem Gc.modify_color {o : Nat} (ho : (g.object o).isSome) :
    g.modify o (fun h => { h with color := .marked }) = .ok (g.visit fun q => q == o) := by
  obtain ⟨h, ho⟩ := Option.isSome_iff_exists.mp ho
  rw [Gc.modify_eq ho]
  congr 2
  funext q
  by_cases hq : q = o
  · subst hq
    simp [ho]
  · rw [Function.update_of_ne hq]
    simp [hq]

theorem Gc.isSome_visit (marks : Nat → Bool) (o : Nat) :
    ((g.visit marks).object o).isSome = (g.object o).isSome := by
  simp [Gc.visit]

theorem Gc.markRefs_eq {l : List Nat} : ∀ (n : Nat) {g : Gc} {c : Cell}, g.links.Chain c l → l.length ≤ n →
    (∀ o ∈ l, (g.object o).isSome) → g.markRefs n l.head? = .ok (g.visit fun o => decide (o ∈ l)) := by
  induction l with
  | nil =>
    intro n g c _ _ _
    have hvisit : (g.visit fun o => decide (o ∈ ([] : List Nat))) = g := by simp [Gc.visit]
    rw [hvisit]
    cases n <;> rfl
  | cons o l ih =>
    intro n g c hl hlen halive
    obtain ⟨n, rfl⟩ : ∃ k, n = k + 1 := ⟨n - 1, by simp at hlen; omega⟩
    obtain ⟨h, ho⟩ := Option.isSome_iff_exists.mp (halive o List.mem_cons_self)
    have hnext : h.refp = l.head? := by
      rw [← hl.2.2.head]
      simp [Gc.links, ho]
    show (do
      let h ← g.load o
      let g ← g.modify o fun h => { h with color := .marked }
      g.markRefs n h.refp) = _
    rw [Gc.load_eq ho]
    show (do
      let g ← g.modify o fun h => { h with color := .marked }
      g.markRefs n h.refp) = _
    rw [Gc.modify_color (halive o List.mem_cons_self), hnext]
    show (g.visit fun q => q == o).markRefs n l.head? = _
    rw [ih n (c := .link o) (by rw [Gc.links_visit]; exact hl.2.2) (by simpa using hlen)
      (fun q hq => by rw [Gc.isSome_visit]; exact halive q (List.mem_cons_of_mem o hq)), Gc.visit_visit]
    congr 2
    funext q
    by_cases hq : q = o <;> simp [hq]

/-- The walk of `finish_marking` marks the list and links its last cell to `m`. -/
theorem Gc.finishRefs_eq (m : Option Nat) {l : List Nat} : ∀ (n : Nat) {g : Gc} {o : Nat},
    g.links.Chain (.link o) l → l.length < n → (∀ q ∈ o :: l, (g.object q).isSome) →
    g.finishRefs m n o = ((g.visit fun q => decide (q ∈ o :: l)).write (lastCell (.link o) l) m >>= fun g =>
      g.setRefn m (lastCell (.link o) l)) := by
  induction l with
  | nil =>
    intro n g o hl hlen halive
    obtain ⟨n, rfl⟩ : ∃ k, n = k + 1 := ⟨n - 1, by omega⟩
    obtain ⟨h, ho⟩ := Option.isSome_iff_exists.mp (halive o List.mem_cons_self)
    have hnext : h.refp = none := by
      rw [← show g.links.next (.link o) = none from hl]
      simp [Gc.links, ho]
    rw [Gc.finishRefs, Gc.load_eq ho, Stop.ok_bind, Gc.modify_color (halive o List.mem_cons_self), hnext]
    have hvisit : (g.visit fun q => decide (q ∈ [o])) = g.visit fun q => q == o := by
      congr 1
      funext q
      by_cases hq : q = o <;> simp [hq]
    rw [hvisit]
    rfl
  | cons p l ih =>
    intro n g o hl hlen halive
    obtain ⟨n, rfl⟩ : ∃ k, n = k + 1 := ⟨n - 1, by omega⟩
    obtain ⟨h, ho⟩ := Option.isSome_iff_exists.mp (halive o List.mem_cons_self)
    have hnext : h.refp = some p := by
      rw [← hl.1]
      simp [Gc.links, ho]
    rw [Gc.finishRefs, Gc.load_eq ho, Stop.ok_bind, Gc.modify_color (halive o List.mem_cons_self), hnext]
    show (g.visit fun q => q == o).finishRefs m n p = _
    rw [ih n (by rw [Gc.links_visit]; exact hl.2.2) (by simpa using hlen)
      (fun q hq => by rw [Gc.isSome_visit]; exact halive q (List.mem_cons_of_mem o hq)), Gc.visit_visit]
    have hvisit : (g.visit fun q => q == o || decide (q ∈ p :: l)) = g.visit fun q => decide (q ∈ o :: p :: l) := by
      congr 1
      funext q
      by_cases hq : q = o <;> simp [hq]
    rw [hvisit]
    rfl

/-! ## The lists -/

/-- The lists from `refs` and `marked_refs`. -/
structure Gc.Listed (g : Gc) (l m : List Nat) : Prop where
  refs : g.links.Chain (.head .refs) l
  marked : g.links.Chain (.head .markedRefs) m
  nodup : (l ++ m).Nodup

/-- What holds of the objects, with the lists `l` and `m` and the numbers of `Ref`s. -/
structure Gc.Sound (g : Gc) (handles : Nat → Nat) (l m : List Nat) : Prop where
  mem : ∀ o, o ∈ l ++ m ↔ 0 < handles o
  refs : ∀ {o h}, g.object o = some h → h.refs = handles o
  alive : ∀ {o}, 0 < handles o → (g.object o).isSome
  bound : ∀ {o h}, g.object o = some h → o < g.count
  idle : g.state = .idle ∨ g.state = .sweep → m = []
  colored : g.state = .mark ∨ g.state = .atomic → ∀ o ∈ m, ∀ {h}, g.object o = some h → h.color = .marked
  safe : g.state = .sweep → ∀ o ∈ l, ∀ {h}, g.object o = some h → ¬g.isDead h

theorem Gc.Listed.of_links {g g' : Gc} {l m : List Nat} (h : g.Listed l m) (hlinks : g'.links = g.links) :
    g'.Listed l m :=
  ⟨hlinks ▸ h.refs, hlinks ▸ h.marked, h.nodup⟩

theorem Gc.Sound.of_same {g g' : Gc} {handles : Nat → Nat} {l m : List Nat} (h : g.Sound handles l m)
    (hs : Same g g') : g'.Sound handles l m where
  mem := h.mem
  refs := fun ho => by
    obtain ⟨h₁, ho₁, hrefs, -⟩ := hs.exists_object ho
    rw [← hrefs]
    exact h.refs ho₁
  alive := fun ho => by
    rw [hs.isSome]
    exact h.alive ho
  bound := fun ho => by
    obtain ⟨h₁, ho₁, -, -⟩ := hs.exists_object ho
    rw [hs.count]
    exact h.bound ho₁
  idle := by
    rw [hs.state]
    exact h.idle
  colored := fun hst o hm h' ho => by
    obtain ⟨h₁, ho₁, -, hcolor⟩ := hs.exists_object ho
    rw [← hcolor]
    rw [hs.state] at hst
    exact h.colored hst o hm ho₁
  safe := fun hst o hl h' ho => by
    obtain ⟨h₁, ho₁, -, hcolor⟩ := hs.exists_object ho
    rw [hs.state] at hst
    rw [Gc.isDead, ← hcolor, hs.currentwhite]
    exact h.safe hst o hl ho₁

/-- No list is longer than the number of objects. -/
theorem Gc.Sound.length_le {handles : Nat → Nat} {l m : List Nat} (h : g.Sound handles l m) (hn : (l ++ m).Nodup) :
    (l ++ m).length ≤ g.count := by
  have hsub : l ++ m ⊆ List.range g.count := by
    intro o ho
    obtain ⟨h', ho'⟩ := Option.isSome_iff_exists.mp (h.alive ((h.mem o).mp ho))
    exact List.mem_range.mpr (h.bound ho')
  calc (l ++ m).length ≤ (List.range g.count).length := (hn.subperm hsub).length_le
    _ = g.count := List.length_range

theorem Gc.Sound.isSome {handles : Nat → Nat} {l m : List Nat} (h : g.Sound handles l m) {o : Nat} (ho : o ∈ l ++ m) :
    (g.object o).isSome := h.alive ((h.mem o).mp ho)

/-! ## References -/

variable {handles : Nat → Nat} {l m : List Nat}

/-- The count of one object changes, and the lists with it. -/
theorem Gc.Sound.recount (hs : g.Sound handles l m) {o n : Nat} {h h' : Object} {l' m' : List Nat}
    (ho : g.object o = some h) (hrefs : h'.refs = n) (hcolor : h'.color = h.color)
    (hmem : ∀ q, q ∈ l' ++ m' ↔ 0 < Function.update handles o n q) (hm : ∀ q ∈ m', q ∈ m)
    (hl : ∀ q ∈ l', q ∈ l ∨ q = o ∧ ¬g.isDead h) :
    Gc.Sound { g with object := Function.update g.object o (some h') } (Function.update handles o n) l' m' := by
  have hobj : ∀ {q h₁}, Function.update g.object o (some h') q = some h₁ →
      ∃ h₂, g.object q = some h₂ ∧ h₂.color = h₁.color ∧ h₁.refs = Function.update handles o n q := by
    intro q h₁ hq
    by_cases hqo : q = o
    · subst hqo
      rw [Function.update_self, Option.some.injEq] at hq
      subst hq
      exact ⟨h, ho, hcolor.symm, by rw [Function.update_self, hrefs]⟩
    · rw [Function.update_of_ne hqo] at hq
      exact ⟨h₁, hq, rfl, by rw [Function.update_of_ne hqo]; exact hs.refs hq⟩
  refine ⟨hmem, fun hq => ?_, fun {q} hq => ?_, fun hq => ?_, fun hst => ?_, fun hst q hq h₁ hq₁ => ?_,
    fun hst q hq h₁ hq₁ => ?_⟩
  · obtain ⟨-, -, -, hcount⟩ := hobj hq
    exact hcount
  · by_cases hqo : q = o
    · subst hqo
      simp
    · rw [Function.update_of_ne hqo] at hq
      simpa [Function.update_of_ne hqo] using hs.alive hq
  · obtain ⟨h₂, hq₂, -, -⟩ := hobj hq
    exact hs.bound hq₂
  · have hnil := hs.idle hst
    subst hnil
    exact List.eq_nil_iff_forall_not_mem.mpr fun q hq => List.not_mem_nil (hm q hq)
  · obtain ⟨h₂, hq₂, hcol, -⟩ := hobj hq₁
    rw [← hcol]
    exact hs.colored hst q (hm q hq) hq₂
  · obtain ⟨h₂, hq₂, hcol, -⟩ := hobj hq₁
    rw [Gc.isDead, ← hcol]
    rcases hl q hq with hin | ⟨rfl, hdead⟩
    · exact hs.safe hst q hin hq₂
    · rw [ho] at hq₂
      rw [← Option.some.inj hq₂]
      exact hdead

/-- A count that changes, of an object that is listed before and after. -/
theorem Gc.Sound.setCount (hs : g.Sound handles l m) {o n : Nat} {h : Object} (ho : g.object o = some h) (hn : 0 < n)
    (hpos : 0 < handles o) : Gc.Sound { g with object := Function.update g.object o (some { h with refs := n }) }
      (Function.update handles o n) l m := by
  refine hs.recount ho rfl rfl (fun q => ?_) (fun _ hq => hq) (fun _ hq => .inl hq)
  rw [hs.mem q]
  by_cases hqo : q = o
  · subst hqo
    simp [hn, hpos]
  · rw [Function.update_of_ne hqo]

theorem Gc.links_setCount {o n : Nat} {h : Object} (ho : g.object o = some h) :
    ({ g with object := Function.update g.object o (some { h with refs := n }) } : Gc).links = g.links := by
  have hnext : g.links.next (.link o) = h.refp := by simp [Gc.links, ho]
  have hback : g.links.back o = h.refn := by simp [Gc.links, ho]
  rw [links_update]
  dsimp only
  rw [← hnext, ← hback, Function.update_eq_self, Function.update_eq_self]

theorem Gc.incrementStrongCount_spec (hl : g.Listed l m) (hs : g.Sound handles l m) {o : Nat} (ho : 0 < handles o) :
    (g.incrementStrongCount o = .error .tooManyRefs ∧ usizeMax ≤ handles o) ∨
      ∃ g', g.incrementStrongCount o = .ok g' ∧ g'.Listed l m ∧
        g'.Sound (Function.update handles o (handles o + 1)) l m := by
  obtain ⟨h, hobj⟩ := Option.isSome_iff_exists.mp (hs.alive ho)
  have hrefs := hs.refs hobj
  rw [Gc.incrementStrongCount, Gc.load_eq hobj, Stop.ok_bind]
  by_cases hmax : h.refs + 1 ≤ usizeMax
  · rw [if_pos hmax, Gc.modify_eq hobj, hrefs]
    exact .inr ⟨_, rfl, hl.of_links (Gc.links_setCount hobj), hs.setCount hobj (Nat.succ_pos _) ho⟩
  · rw [if_neg hmax]
    exact .inl ⟨rfl, by omega⟩

/-- The first reference puts an object in front of `refs`. -/
theorem Gc.newRef_first (hl : g.Listed l m) (hs : g.Sound handles l m) {o : Nat} {h : Object}
    (hobj : g.object o = some h) (hdead : ¬g.isDead h) (hzero : handles o = 0) :
    ∃ g', g.newRef o = .ok g' ∧ g'.Listed (o :: l) m ∧ g'.Sound (Function.update handles o 1) (o :: l) m := by
  have hnot : o ∉ l ++ m := by
    rw [hs.mem, hzero]
    exact Nat.lt_irrefl 0
  have hp : ∀ q, g.refs = some q → q ≠ o ∧ (g.object q).isSome := by
    intro q hq
    have hq' : q ∈ l ++ m := by
      have := hl.refs.head
      exact List.mem_append_left m (List.mem_of_mem_head? (this.symm.trans hq))
    exact ⟨fun heq => hnot (heq ▸ hq'), hs.isSome hq'⟩
  rw [List.mem_append, not_or] at hnot
  have hnd := List.nodup_append.mp hl.nodup
  -- the three writes are those of `push`
  let g₁ : Gc := { g with
    object := Function.update g.object o (some { h with refs := 1, refn := some (.head .refs), refp := g.refs }) }
  have hs₁ : g₁.Sound (Function.update handles o 1) (o :: l) m := by
    refine hs.recount hobj rfl rfl (fun q => ?_) (fun _ hq => hq) (fun q hq => ?_)
    · have := hs.mem q
      by_cases hqo : q = o
      · subst hqo
        simp
      · rw [Function.update_of_ne hqo, List.cons_append, List.mem_cons, or_iff_right hqo, this]
    · exact (List.mem_cons.mp hq).elim (fun heq => .inr ⟨heq, hdead⟩) .inl
  obtain ⟨g₂, hset, hlinks₂, hsame₂⟩ := @Gc.setRefn_spec g₁ g.refs (fun q hq => by
    simp only [g₁, Function.update_of_ne (hp q hq).1]
    exact (hp q hq).2) (.link o)
  obtain ⟨g₃, hwrite, hlinks₃, hsame₃⟩ := @Gc.write_spec g₂ (.head .refs) (fun _ hq => nomatch hq) (some o)
  have hg₃ : g₃ = { g₂ with refs := some o } := (Except.ok.inj hwrite).symm
  have hpush : g₃.links = g.links.push (.head .refs) o := by
    rw [hlinks₃, hlinks₂, links_update]
    refine Links.ext rfl (funext fun q => ?_)
    show (if g.refs = some q then some (.link o) else Function.update g.links.back o (some (.head .refs)) q) =
      if some o = some q then some (.head .refs) else if g.refs = some q then some (.link o) else g.links.back q
    by_cases hqo : q = o
    · subst hqo
      rw [if_neg (fun hq => (hp q hq).1 rfl), if_pos rfl, Function.update_self]
    · rw [if_neg (fun heq : some o = some q => hqo (Option.some.inj heq).symm), Function.update_of_ne hqo]
  refine ⟨g₃, ?_, ⟨?_, ?_, ?_⟩, (hs₁.of_same hsame₂).of_same hsame₃⟩
  · rw [Gc.newRef, Gc.load_eq hobj, Stop.ok_bind, if_pos ((hs.refs hobj).trans hzero)]
    dsimp only
    rw [Gc.modify_eq hobj, Stop.ok_bind, hset, Stop.ok_bind, hg₃]
  · rw [hpush]
    exact hl.refs.push hnd.1 hnot.1 fun q _ heq => nomatch heq
  · rw [hpush]
    have hset₁ : (g.links.set (.link o) (g.links.next (.head .refs))).Chain (.head .markedRefs) m := by
      refine hl.marked.set_of_ne (fun heq => nomatch heq) ?_ ?_
      · exact fun q hq heq => hnot.2 (Lib.BackLinks.Cell.link.inj heq ▸ hq)
      · intro q hq heq
        rw [hl.refs.head] at heq
        exact hnd.2.2 _ (List.mem_of_mem_head? heq) _ hq rfl
    refine hset₁.set_of_ne (fun heq => nomatch heq) (fun _ _ heq => nomatch heq) ?_
    exact fun q hq heq => hnot.2 (Option.some.inj heq ▸ hq)
  · rw [List.cons_append, List.nodup_cons, List.mem_append, not_or]
    exact ⟨hnot, hl.nodup⟩

/-- The writes of `unref` to an object whose last reference goes. -/
theorem Gc.unref_last (hl : g.Listed l m) (hs : g.Sound handles l m) {o : Nat} (hone : handles o = 1) :
    ∃ g', g.unref o = .ok g' ∧ g'.Listed (l.erase o) (m.erase o) ∧
      g'.Sound (Function.update handles o 0) (l.erase o) (m.erase o) := by
  have hin : o ∈ l ++ m := (hs.mem o).mpr (by omega)
  obtain ⟨h, hobj⟩ := Option.isSome_iff_exists.mp (hs.isSome hin)
  have hrefs := hs.refs hobj
  have hnd := List.nodup_append.mp hl.nodup
  have hdis : List.Disjoint l m := fun q hq hq' => hnd.2.2 q hq q hq' rfl
  have hnext : g.links.next (.link o) = h.refp := by simp [Gc.links, hobj]
  -- the cell of the object, and the lists without it
  obtain ⟨n, hn, hnin, hno, hlist⟩ : ∃ n, h.refn = some n ∧ (∀ q, n = .link q → q ∈ l ++ m ∧ q ≠ o) ∧
      (∀ p, h.refp = some p → p ∈ l ++ m) ∧
      (g.links.unlink o n).Chain (.head .refs) (l.erase o) ∧
      (g.links.unlink o n).Chain (.head .markedRefs) (m.erase o) := by
    have hback : g.links.back o = h.refn := by simp [Gc.links, hobj]
    rw [← hnext, ← hback]
    rcases List.mem_append.mp hin with ho | ho
    · obtain ⟨n, hn, hcell, hne, hc₁, hc₂⟩ := hl.refs.unlink_pair hl.marked (by decide) hnd.1 hdis ho
      refine ⟨n, hn, ?_, fun p hp => List.mem_append_left m (hl.refs.next_mem ho hp), hc₁, ?_⟩
      · rintro q rfl
        refine ⟨?_, fun heq => hne (congrArg _ heq)⟩
        rcases hcell with hcell | ⟨p, hp, hcell⟩
        · cases hcell
        · exact List.mem_append_left m (Lib.BackLinks.Cell.link.inj hcell ▸ hp)
      · rw [List.erase_of_not_mem (hdis ho)]
        exact hc₂
    · obtain ⟨n, hn, hcell, hne, hc₁, hc₂⟩ := hl.marked.unlink_pair hl.refs (by decide) hnd.2.1 hdis.symm ho
      refine ⟨n, hn, ?_, fun p hp => List.mem_append_right l (hl.marked.next_mem ho hp), ?_, hc₁⟩
      · rintro q rfl
        refine ⟨?_, fun heq => hne (congrArg _ heq)⟩
        rcases hcell with hcell | ⟨p, hp, hcell⟩
        · cases hcell
        · exact List.mem_append_right l (Lib.BackLinks.Cell.link.inj hcell ▸ hp)
      · rw [List.erase_of_not_mem (fun ho' => hdis ho' ho)]
        exact hc₂
  let g₁ : Gc := { g with object := Function.update g.object o (some { h with refs := 0, refn := none, refp := none }) }
  have hs₁ : g₁.Sound (Function.update handles o 0) (l.erase o) (m.erase o) := by
    refine hs.recount hobj rfl rfl (fun q => ?_) (fun _ hq => List.mem_of_mem_erase hq)
      (fun _ hq => .inl (List.mem_of_mem_erase hq))
    have := hs.mem q
    rw [List.mem_append, hnd.1.mem_erase_iff, hnd.2.1.mem_erase_iff, ← and_or_left, ← List.mem_append, this]
    by_cases hqo : q = o
    · subst hqo
      simp
    · rw [Function.update_of_ne hqo]
      exact and_iff_right hqo
  have hlinks₁ : g₁.links = g.links.clear o := links_update o _
  have hsome₁ : ∀ q ∈ l ++ m, (g₁.object q).isSome := by
    intro q hq
    by_cases hqo : q = o
    · subst hqo
      simp [g₁]
    · simp only [g₁, Function.update_of_ne hqo]
      exact hs.isSome hq
  obtain ⟨g₂, hset, hlinks₂, hsame₂⟩ := @Gc.set_spec g₁ n h.refp (fun q hq => hsome₁ q (hnin q hq).1)
    (fun q hq => hsome₁ q (hno q hq))
  have hunlink : g₂.links = g.links.unlink o n := by
    rw [hlinks₂, hlinks₁, ← hnext]
    rfl
  refine ⟨g₂, ?_, ⟨hunlink ▸ hlist.1, hunlink ▸ hlist.2, ?_⟩, hs₁.of_same hsame₂⟩
  · rw [Gc.unref, Gc.load_eq hobj, Stop.ok_bind, if_neg (by omega), Gc.modify_eq hobj, Stop.ok_bind, if_neg (by omega)]
    rw [@Gc.modify_eq _ o { h with refs := h.refs - 1 } (Function.update_self ..), Stop.ok_bind, hn, Function.update_idem,
      show h.refs - 1 = 0 by omega]
    exact hset
  · exact (hl.nodup.sublist (List.Sublist.append List.erase_sublist List.erase_sublist))

theorem Gc.unref_spec (hl : g.Listed l m) (hs : g.Sound handles l m) {o : Nat} (ho : 0 < handles o) :
    ∃ g' l' m', g.unref o = .ok g' ∧ g'.Listed l' m' ∧ g'.Sound (Function.update handles o (handles o - 1)) l' m' ∧
      (l', m') = if handles o = 1 then (l.erase o, m.erase o) else (l, m) := by
  by_cases hone : handles o = 1
  · obtain ⟨g', hok, hl', hs'⟩ := Gc.unref_last hl hs hone
    rw [if_pos hone, hone]
    exact ⟨g', _, _, hok, hl', hs', rfl⟩
  · obtain ⟨h, hobj⟩ := Option.isSome_iff_exists.mp (hs.alive ho)
    have hrefs := hs.refs hobj
    rw [if_neg hone, Gc.unref, Gc.load_eq hobj, Stop.ok_bind, if_neg (by omega), Gc.modify_eq hobj, Stop.ok_bind,
      if_pos (by omega), hrefs]
    exact ⟨_, l, m, rfl, hl.of_links (Gc.links_setCount hobj), hs.setCount hobj (by omega) ho, rfl⟩

/-! ## A cycle -/

/-- The counts stay, whatever happens to the colors and to the objects without references. -/
theorem Gc.Sound.repaint (hs : g.Sound handles l m) {g' : Gc} {l' m' : List Nat} (hcount : g'.count = g.count)
    (hobj : ∀ o h', g'.object o = some h' → ∃ h, g.object o = some h ∧ h'.refs = h.refs)
    (halive : ∀ o ∈ l ++ m, (g'.object o).isSome) (hmem : ∀ o, o ∈ l' ++ m' ↔ o ∈ l ++ m)
    (hidle : g'.state = .idle ∨ g'.state = .sweep → m' = [])
    (hcolored : g'.state = .mark ∨ g'.state = .atomic → ∀ o ∈ m', ∀ {h}, g'.object o = some h → h.color = .marked)
    (hsafe : g'.state = .sweep → ∀ o ∈ l', ∀ {h}, g'.object o = some h → ¬g'.isDead h) :
    g'.Sound handles l' m' where
  mem := fun o => (hmem o).trans (hs.mem o)
  refs := fun ho => by
    obtain ⟨h, ho', hrefs⟩ := hobj _ _ ho
    rw [hrefs]
    exact hs.refs ho'
  alive := fun {o} ho => halive o ((hs.mem o).mpr ho)
  bound := fun ho => by
    obtain ⟨h, ho', -⟩ := hobj _ _ ho
    rw [hcount]
    exact hs.bound ho'
  idle := hidle
  colored := hcolored
  safe := hsafe

/-- An object after a visit: it has the references it had, and the color it had or the new one. -/
theorem Gc.visit_object {marks : Nat → Bool} {o : Nat} {h' : Object} (ho : (g.visit marks).object o = some h') :
    ∃ h, g.object o = some h ∧ h'.refs = h.refs ∧ (h'.color = .marked ∨ marks o = false ∧ h'.color = h.color) := by
  rw [Gc.visit] at ho
  obtain ⟨h, hobj, rfl⟩ := Option.map_eq_some_iff.mp ho
  refine ⟨h, hobj, ?_, ?_⟩
  · by_cases hm : marks o <;> simp [hm]
  · by_cases hm : marks o
    · simp [hm]
    · rw [Bool.not_eq_true] at hm
      simp [hm]

theorem Gc.Sound.visit (hs : g.Sound handles l m) (marks : Nat → Bool) : (g.visit marks).Sound handles l m := by
  refine hs.repaint rfl ?_ ?_ (fun _ => Iff.rfl) hs.idle ?_ ?_
  · intro o h' ho
    obtain ⟨h, hobj, hrefs, -⟩ := Gc.visit_object ho
    exact ⟨h, hobj, hrefs⟩
  · intro o ho
    rw [Gc.isSome_visit]
    exact hs.isSome ho
  · intro hst o ho h' hobj'
    obtain ⟨h, hobj, -, hcolor | ⟨-, hcolor⟩⟩ := Gc.visit_object hobj'
    · exact hcolor
    · rw [hcolor]
      exact hs.colored hst o ho hobj
  · intro hst o ho h' hobj'
    obtain ⟨h, hobj, -, hcolor | ⟨-, hcolor⟩⟩ := Gc.visit_object hobj'
    · rw [Gc.isDead, hcolor]
      exact fun heq => nomatch heq
    · rw [Gc.isDead, hcolor]
      exact hs.safe hst o ho hobj

/-- The start of a cycle moves the list to `marked_refs` and marks it. -/
theorem Gc.start_eq (hl : g.Listed l []) (hs : g.Sound handles l []) :
    ∃ g', g.start = .ok (g'.visit fun o => decide (o ∈ l)) ∧ g'.Listed [] l ∧ Same g g' := by
  have hnd : l.Nodup := by simpa using hl.nodup
  have hlen := hs.length_le hl.nodup
  have hhead : g.refs = l.head? := hl.refs.head
  obtain ⟨g₀, hwrite, hlinks₀, hsame₀⟩ := @Gc.write_spec g (.head .refs) (fun _ hq => nomatch hq) none
  have hg₀ : g₀ = { g with refs := none } := (Except.ok.inj hwrite).symm
  have halive : ∀ o ∈ l, (g₀.object o).isSome := fun o ho => by
    rw [hsame₀.isSome]
    exact hs.isSome (List.mem_append_left _ ho)
  obtain ⟨g₁, hset, hlinks₁, hsame₁⟩ := @Gc.set_spec g₀ (.head .markedRefs) l.head? (fun _ hq => nomatch hq)
    (fun o ho => halive o (List.mem_of_mem_head? ho))
  have hmove : g₁.links = g.links.move (.head .refs) (.head .markedRefs) := by
    rw [hlinks₁, hlinks₀, ← hl.refs.head]
    rfl
  have hchains := hl.refs.move hl.marked (by simpa using hnd) (fun q _ heq => nomatch heq) (fun q _ heq => nomatch heq)
    (by decide)
  rw [List.nil_append] at hchains
  dsimp only [lastCell] at hchains
  rw [← hmove] at hchains
  have hlisted : g₁.Listed [] l := ⟨hchains.2, hchains.1, hnd⟩
  refine ⟨g₁, ?_, hlisted, hsame₀.trans hsame₁⟩
  have hmark := Gc.markRefs_eq g₁.count hchains.1
    (by rw [hsame₁.count, hsame₀.count]; simpa using hlen) (fun o ho => by rw [hsame₁.isSome]; exact halive o ho)
  rw [Gc.start, hhead]
  cases l with
  | nil =>
    have hnone : g₁ = g₀ := by
      have hmarked : g₀.markedRefs = none := by
        rw [hg₀]
        exact hl.marked
      have : g₁ = { g₀ with markedRefs := none } := (Except.ok.inj hset).symm
      rw [this, ← hmarked]
    have hvisit : (g₁.visit fun o => decide (o ∈ ([] : List Nat))) = g₁ := by simp [Gc.visit]
    rw [hvisit, hnone, hg₀]
    rfl
  | cons o l =>
    show (do
      let g ← Gc.modify { g with refs := none, markedRefs := some o } o fun h => { h with refn := some (.head .markedRefs) }
      g.markRefs g.count (some o)) = _
    rw [hg₀] at hset
    have hset' : Gc.modify { g with refs := none, markedRefs := some o } o
        (fun h => { h with refn := some (.head .markedRefs) }) = .ok g₁ := hset
    rw [hset', Stop.ok_bind]
    exact hmark

/-- `finish_marking` marks `refs` and moves the other list to its end. -/
theorem Gc.finishMarking_eq (hl : g.Listed l m) (hs : g.Sound handles l m) :
    ∃ g', g.finishMarking = .ok g' ∧ g'.Listed (l ++ m) [] ∧ Same (g.visit fun o => decide (o ∈ l)) g' := by
  have hlen := hs.length_le hl.nodup
  have hhead : g.refs = l.head? := hl.refs.head
  have hm : g.markedRefs = m.head? := hl.marked.head
  obtain ⟨g₀, hwrite, hlinks₀, hsame₀⟩ :=
    @Gc.write_spec (g.visit fun o => decide (o ∈ l)) (.head .markedRefs) (fun _ hq => nomatch hq) none
  have hg₀ : g₀ = Gc.visit { g with markedRefs := none } fun o => decide (o ∈ l) := (Except.ok.inj hwrite).symm
  have halive : ∀ o ∈ l ++ m, (g₀.object o).isSome := fun o ho => by
    rw [hsame₀.isSome, Gc.isSome_visit]
    exact hs.isSome ho
  obtain ⟨g₁, hset, hlinks₁, hsame₁⟩ := @Gc.set_spec g₀ (lastCell (.head .refs) l) m.head?
    (fun o ho => by
      rcases lastCell_eq (.head Head.refs) l with heq | ⟨q, hq, heq⟩
      · rw [heq] at ho
        cases ho
      · rw [heq] at ho
        exact halive o (List.mem_append_left m (Lib.BackLinks.Cell.link.inj ho ▸ hq)))
    (fun o ho => halive o (List.mem_append_right l (List.mem_of_mem_head? ho)))
  have hmove : g₁.links = g.links.move (.head .markedRefs) (lastCell (.head .refs) l) := by
    rw [hlinks₁, hlinks₀, Gc.links_visit, ← hl.marked.head]
    rfl
  have hchains := hl.marked.move hl.refs hl.nodup (fun q _ heq => nomatch heq) (fun q _ heq => nomatch heq) (by decide)
  rw [← hmove] at hchains
  refine ⟨g₁, ?_, ⟨hchains.1, hchains.2, by simpa using hl.nodup⟩, hsame₀.trans hsame₁⟩
  rw [← hset, hg₀]
  cases l with
  | nil =>
    have hvisit : (Gc.visit { g with markedRefs := none } fun o => decide (o ∈ ([] : List Nat))) =
        { g with markedRefs := none } := by simp [Gc.visit]
    rw [hvisit, Gc.finishMarking, ← hm]
    split
    · rfl
    · rename_i o hr
      rw [show g.refs = none from hhead] at hr
      cases hr
  | cons o l =>
    rw [Gc.finishMarking, ← hm]
    split
    · rename_i hr
      rw [show g.refs = some o from hhead] at hr
      cases hr
    rename_i o' hr
    obtain rfl : o = o' := Option.some.inj ((show g.refs = some o from hhead).symm.trans hr)
    refine Gc.finishRefs_eq g.markedRefs _ ?_ ?_ ?_
    · refine hl.refs.2.2.frame rfl (fun _ _ => rfl) fun _ _ => rfl
    · show l.length < g.count
      simp at hlen
      omega
    · exact fun q hq => hs.isSome (List.mem_append_left m hq)

/-- An object after the sweep: it was there before, with the same links, and is not dead where it was not. -/
theorem Gc.sweep_object {sweeps : Nat → Bool} {o : Nat} {h' : Object} (ho : (g.sweep sweeps).object o = some h') :
    ∃ h, g.object o = some h ∧ h'.refs = h.refs ∧ h'.refn = h.refn ∧ h'.refp = h.refp ∧
      (¬g.isDead h → ¬g.isDead h') := by
  obtain ⟨h, hobj, hsweep⟩ := Option.bind_eq_some_iff.mp ho
  refine ⟨h, hobj, ?_⟩
  by_cases hw : sweeps o = true
  · by_cases hd : g.isDead h
    · simp [hw, hd] at hsweep
    · simp only [hw, hd, if_true, if_false, Option.some.injEq] at hsweep
      subst hsweep
      exact ⟨rfl, rfl, rfl, fun _ => by simp [Gc.isDead]⟩
  · simp only [hw] at hsweep
    obtain rfl := Option.some.inj hsweep
    exact ⟨rfl, rfl, rfl, id⟩

theorem Gc.sweep_survives {sweeps : Nat → Bool} {o : Nat} {h : Object} (ho : g.object o = some h) (hd : ¬g.isDead h) :
    ∃ h', (g.sweep sweeps).object o = some h' ∧ h'.refn = h.refn ∧ h'.refp = h.refp := by
  by_cases hw : sweeps o = true
  · exact ⟨{ h with color := .white g.currentwhite }, by simp [Gc.sweep, ho, hw, hd], rfl, rfl⟩
  · exact ⟨h, by simp [Gc.sweep, ho, hw], rfl, rfl⟩

theorem Gc.sweep_spec (hl : g.Listed l []) (hs : g.Sound handles l []) (hst : g.state = .sweep) (sweeps : Nat → Bool) :
    ∃ g' l' m', Except.ok (g.sweep sweeps) = (Except.ok g' : Except Stop Gc) ∧ g'.Listed l' m' ∧
      g'.Sound handles l' m' := by
  have hstays : ∀ o ∈ l, ∃ h h', g.object o = some h ∧ (g.sweep sweeps).object o = some h' ∧ h'.refn = h.refn ∧
      h'.refp = h.refp := by
    intro o ho
    obtain ⟨h, hobj⟩ := Option.isSome_iff_exists.mp (hs.isSome (List.mem_append_left [] ho))
    obtain ⟨h', hobj', hn, hp⟩ := @Gc.sweep_survives g sweeps o h hobj (hs.safe hst o ho hobj)
    exact ⟨h, h', hobj, hobj', hn, hp⟩
  refine ⟨_, l, [], rfl, ⟨?_, hl.marked, hl.nodup⟩, ?_⟩
  · refine hl.refs.frame rfl ?_ ?_
    · intro o ho
      obtain ⟨h, h', hobj, hobj', -, hp⟩ := hstays o ho
      simp [Gc.links, hobj, hobj', hp]
    · intro o ho
      obtain ⟨h, h', hobj, hobj', hn, -⟩ := hstays o ho
      simp [Gc.links, hobj, hobj', hn]
  · refine hs.repaint rfl ?_ ?_ (fun _ => Iff.rfl) (fun _ => rfl) ?_ ?_
    · intro o h' ho
      obtain ⟨h, hobj, hrefs, -⟩ := Gc.sweep_object ho
      exact ⟨h, hobj, hrefs⟩
    · intro o ho
      rw [List.append_nil] at ho
      obtain ⟨h, h', -, hobj', -, -⟩ := hstays o ho
      rw [hobj']
      rfl
    · exact fun _ o ho => absurd ho List.not_mem_nil
    · intro _ o ho h' hobj'
      obtain ⟨h, hobj, -, -, -, hdead⟩ := Gc.sweep_object hobj'
      exact hdead (hs.safe hst o ho hobj)

/-- A step of the collector moves objects between the lists, at most. -/
theorem Gc.step_spec (hl : g.Listed l m) (hs : g.Sound handles l m) (r : Round) :
    ∃ g' l' m', g.step r = .ok g' ∧ g'.Listed l' m' ∧ g'.Sound handles l' m' := by
  unfold Gc.step
  split
  · rename_i hst
    by_cases hr : r.next = true
    · obtain rfl := hs.idle (.inl hst)
      obtain ⟨g', hstart, hl', hsame⟩ := Gc.start_eq hl hs
      rw [if_pos hr, hstart, Stop.ok_bind]
      have hl₂ := (hl'.of_links (Gc.links_visit fun o => decide (o ∈ l))).of_links (Gc.links_visit r.marks)
      have hs₂ := ((hs.of_same hsame).visit fun o => decide (o ∈ l)).visit r.marks
      refine ⟨_, [], l, rfl, ⟨hl₂.refs, hl₂.marked, hl₂.nodup⟩, ?_⟩
      refine hs₂.repaint rfl (fun o h' ho => ⟨h', ho, rfl⟩) (fun o ho => hs₂.isSome ho) (fun o => by simp) ?_ ?_ ?_
      · exact fun hst' => by rcases hst' with hst' | hst' <;> cases hst'
      · -- the walk has marked them
        intro _ o ho h hobj
        obtain ⟨h₁, hobj₁, -, hcolor | ⟨-, hcolor⟩⟩ := Gc.visit_object hobj
        · exact hcolor
        · obtain ⟨h₂, -, -, hcolor₁ | ⟨hnot, -⟩⟩ := Gc.visit_object hobj₁
          · rw [hcolor, hcolor₁]
          · simp [ho] at hnot
      · exact fun hst' => nomatch hst'
    · rw [if_neg hr]
      exact ⟨g, l, m, rfl, hl, hs⟩
  · rename_i hst
    by_cases hr : r.next = true
    · rw [if_pos hr]
      refine ⟨_, l, m, rfl, ⟨hl.refs, hl.marked, hl.nodup⟩, ?_⟩
      refine hs.repaint rfl (fun o h' ho => ⟨h', ho, rfl⟩) (fun o ho => hs.isSome ho) (fun _ => Iff.rfl) ?_ ?_ ?_
      · exact fun hst' => by rcases hst' with hst' | hst' <;> cases hst'
      · exact fun _ => hs.colored (.inl hst)
      · exact fun hst' => nomatch hst'
    · rw [if_neg hr]
      exact ⟨_, l, m, rfl, hl.of_links (Gc.links_visit _), hs.visit _⟩
  · rename_i hst
    obtain ⟨g', hfinish, hl', hsame⟩ := Gc.finishMarking_eq hl hs
    rw [hfinish, Stop.ok_bind]
    have hl₂ := hl'.of_links (Gc.links_visit r.marks)
    have hs₂ := ((hs.visit fun o => decide (o ∈ l)).of_same hsame).visit r.marks
    refine ⟨_, l ++ m, [], rfl, ⟨hl₂.refs, hl₂.marked, hl₂.nodup⟩, ?_⟩
    refine hs₂.repaint rfl (fun o h' ho => ⟨h', ho, rfl⟩) (fun o ho => hs₂.isSome ho) (fun o => by simp) (fun _ => rfl) ?_ ?_
    · exact fun hst' => by rcases hst' with hst' | hst' <;> cases hst'
    · -- all of them are marked
      intro _ o ho h hobj
      have hcolor : h.color = .marked := by
        obtain ⟨h₁, hobj₁, -, hcolor | ⟨-, hcolor⟩⟩ := Gc.visit_object hobj
        · exact hcolor
        obtain ⟨h₂, hobj₂, -, hcolor₂⟩ := hsame.exists_object hobj₁
        rw [hcolor, ← hcolor₂]
        obtain ⟨h₃, hobj₃, -, hcolor₃ | ⟨hnot, hcolor₃⟩⟩ := Gc.visit_object hobj₂
        · exact hcolor₃
        · rw [hcolor₃]
          rcases List.mem_append.mp ho with ho | ho
          · simp [ho] at hnot
          · exact hs.colored (.inr hst) o ho hobj₃
      rw [Gc.isDead, hcolor]
      exact fun heq => nomatch heq
  · rename_i hst
    obtain rfl := hs.idle (.inr hst)
    by_cases hr : r.next = true
    · rw [if_pos hr]
      refine ⟨_, l, [], rfl, ⟨hl.refs, hl.marked, hl.nodup⟩, ?_⟩
      refine hs.repaint rfl (fun o h' ho => ⟨h', ho, rfl⟩) (fun o ho => hs.isSome ho) (fun _ => Iff.rfl) (fun _ => rfl) ?_ ?_
      · exact fun hst' => by rcases hst' with hst' | hst' <;> cases hst'
      · exact fun hst' => nomatch hst'
    · rw [if_neg hr]
      exact Gc.sweep_spec hl hs hst r.sweeps

/-- A new color that neither makes a marked object white while the lists are two, nor a living one dead. -/
theorem Gc.recolor_spec (hl : g.Listed l m) (hs : g.Sound handles l m) {o : Nat} {h : Object} {c : Color}
    (ho : g.object o = some h) (hmark : g.state = .mark ∨ g.state = .atomic → h.color = .marked → c = .marked)
    (hsweep : g.state = .sweep → c = .white (!g.currentwhite) → g.isDead h) :
    let g' : Gc := { g with object := Function.update g.object o (some { h with color := c }) }
    g'.Listed l m ∧ g'.Sound handles l m := by
  intro g'
  have hobj : ∀ {q h'}, g'.object q = some h' → ∃ h₁, g.object q = some h₁ ∧ h'.refs = h₁.refs ∧
      (h'.color = h₁.color ∨ q = o ∧ h₁ = h ∧ h'.color = c) := by
    intro q h' hq
    by_cases hqo : q = o
    · subst hqo
      simp only [g', Function.update_self, Option.some.injEq] at hq
      subst hq
      exact ⟨h, ho, rfl, .inr ⟨rfl, rfl, rfl⟩⟩
    · simp only [g', Function.update_of_ne hqo] at hq
      exact ⟨h', hq, rfl, .inl rfl⟩
  have hlinks : g'.links = g.links := by
    have hnext : g.links.next (.link o) = h.refp := by simp [Gc.links, ho]
    have hback : g.links.back o = h.refn := by simp [Gc.links, ho]
    rw [links_update]
    dsimp only
    rw [← hnext, ← hback, Function.update_eq_self, Function.update_eq_self]
  refine ⟨hl.of_links hlinks, hs.repaint rfl ?_ ?_ (fun _ => Iff.rfl) hs.idle ?_ ?_⟩
  · intro q h' hq
    obtain ⟨h₁, hq₁, hrefs, -⟩ := hobj hq
    exact ⟨h₁, hq₁, hrefs⟩
  · intro q hq
    by_cases hqo : q = o
    · subst hqo
      simp [g']
    · simp only [g', Function.update_of_ne hqo]
      exact hs.isSome hq
  · intro hst q hq h' hq'
    obtain ⟨h₁, hq₁, -, hcolor | ⟨-, rfl, hcolor⟩⟩ := hobj hq'
    · rw [hcolor]
      exact hs.colored hst q hq hq₁
    · rw [hcolor]
      exact hmark hst (hs.colored hst q hq hq₁)
  · intro hst q hq h' hq' hdead
    obtain ⟨h₁, hq₁, -, hcolor | ⟨-, rfl, hcolor⟩⟩ := hobj hq'
    · rw [Gc.isDead, hcolor] at hdead
      exact hs.safe hst q hq hq₁ hdead
    · rw [Gc.isDead, hcolor] at hdead
      exact hs.safe hst q hq hq₁ (hsweep hst hdead)

theorem Gc.barrier_spec (hl : g.Listed l m) (hs : g.Sound handles l m) {o v : Nat} (ho : (g.object o).isSome)
    (hv : (g.object v).isSome) : ∃ g', g.barrier o v = .ok g' ∧ g'.Listed l m ∧ g'.Sound handles l m := by
  obtain ⟨h, ho⟩ := Option.isSome_iff_exists.mp ho
  obtain ⟨k, hv⟩ := Option.isSome_iff_exists.mp hv
  have hmarked : ∀ {h}, g.state = .sweep → Color.marked = .white (!g.currentwhite) → g.isDead h :=
    fun _ heq => nomatch heq
  have hwhite : ∀ {h}, g.state = .sweep → Color.white g.currentwhite = .white (!g.currentwhite) → g.isDead h := by
    intro h _ heq
    simp at heq
  rw [Gc.barrier]
  cases hst : g.state with
  | mark | atomic => exact ⟨_, Gc.modify_eq hv _, Gc.recolor_spec hl hs hv (fun _ _ => rfl) hmarked⟩
  | idle | sweep =>
    refine ⟨_, Gc.modify_eq ho _, Gc.recolor_spec hl hs ho (fun hst' => ?_) hwhite⟩
    rw [hst] at hst'
    rcases hst' with hst' | hst' <;> cases hst'

theorem Gc.barrierBack_spec (hl : g.Listed l m) (hs : g.Sound handles l m) {o : Nat} (ho : (g.object o).isSome) :
    ∃ g', g.barrierBack o = .ok g' ∧ g'.Listed l m ∧ g'.Sound handles l m := by
  obtain ⟨h, ho⟩ := Option.isSome_iff_exists.mp ho
  exact ⟨_, Gc.modify_eq ho _, Gc.recolor_spec hl hs ho (fun _ _ => rfl) (fun _ heq => nomatch heq)⟩

theorem Gc.resurrect_spec (hl : g.Listed l m) (hs : g.Sound handles l m) {o : Nat} (ho : (g.object o).isSome) :
    ∃ g', g.resurrect o = .ok g' ∧ g'.Listed l m ∧ g'.Sound handles l m := by
  obtain ⟨h, ho⟩ := Option.isSome_iff_exists.mp ho
  refine ⟨_, Gc.modify_eq ho _, ?_⟩
  by_cases hd : g.isDead h
  · rw [if_pos hd]
    refine Gc.recolor_spec hl hs ho (fun _ hm => ?_) (fun _ _ => hd)
    rw [Gc.isDead, hm] at hd
    cases hd
  · rw [if_neg hd]
    exact Gc.recolor_spec hl hs ho (c := h.color) (fun _ hm => hm) (fun _ heq => heq)

theorem Gc.alloc_spec (hl : g.Listed l m) (hs : g.Sound handles l m) : g.alloc.Listed l m ∧ g.alloc.Sound handles l m := by
  have hfresh : g.object g.count = none := by
    cases h : g.object g.count with
    | none => rfl
    | some h' => exact absurd (hs.bound h) (Nat.lt_irrefl _)
  have hzero : handles g.count = 0 := by
    by_contra hne
    have := hs.alive (Nat.pos_of_ne_zero hne)
    rw [hfresh] at this
    cases this
  have hobj : ∀ {q h'}, g.alloc.object q = some h' → q = g.count ∧ h' = ⟨0, none, none, .white g.currentwhite⟩ ∨
      q ≠ g.count ∧ g.object q = some h' := by
    intro q h' hq
    by_cases hqc : q = g.count
    · subst hqc
      simp only [Gc.alloc, Function.update_self, Option.some.injEq] at hq
      exact .inl ⟨rfl, hq.symm⟩
    · simp only [Gc.alloc, Function.update_of_ne hqc] at hq
      exact .inr ⟨hqc, hq⟩
  have hlinks : g.alloc.links = g.links := by
    have hnext : Function.update g.links.next (.link g.count) none = g.links.next := by
      rw [← show g.links.next (.link g.count) = none by simp [Gc.links, hfresh], Function.update_eq_self]
    have hback : Function.update g.links.back g.count none = g.links.back := by
      rw [← show g.links.back g.count = none by simp [Gc.links, hfresh], Function.update_eq_self]
    refine (links_update g.count _).trans ?_
    dsimp only
    rw [hnext, hback]
  refine ⟨hl.of_links hlinks, hs.mem, ?_, ?_, ?_, hs.idle, ?_, ?_⟩
  · intro q h' hq
    rcases hobj hq with ⟨rfl, rfl⟩ | ⟨-, hq⟩
    · exact hzero.symm
    · exact hs.refs hq
  · intro q hq
    have hqc : q ≠ g.count := by
      rintro rfl
      omega
    simpa [Gc.alloc, Function.update_of_ne hqc] using hs.alive hq
  · intro q h' hq
    rcases hobj hq with ⟨rfl, rfl⟩ | ⟨-, hq⟩
    · exact Nat.lt_succ_self _
    · exact Nat.lt_succ_of_lt (hs.bound hq)
  · intro hst q hq h' hq'
    rcases hobj hq' with ⟨rfl, -⟩ | ⟨-, hq'⟩
    · have := (hs.mem g.count).mp (List.mem_append_right l hq)
      omega
    · exact hs.colored hst q hq hq'
  · intro hst q hq h' hq'
    rcases hobj hq' with ⟨rfl, -⟩ | ⟨-, hq'⟩
    · have := (hs.mem g.count).mp (List.mem_append_left m hq)
      omega
    · exact hs.safe hst q hq hq'

/-! ## Programs -/

/-- The invariant of a world. -/
def World.Inv (w : World) (l m : List Nat) : Prop := w.gc.Listed l m ∧ w.gc.Sound w.handles l m

theorem World.new_inv : World.Inv ⟨new, fun _ => 0⟩ [] [] := by
  refine ⟨⟨rfl, rfl, List.nodup_nil⟩, ?_⟩
  refine ⟨fun o => by simp, (fun ho => nomatch ho), fun ho => absurd ho (Nat.lt_irrefl 0), (fun ho => nomatch ho),
    fun _ => rfl, ?_, ?_⟩
  · exact fun _ o ho => absurd ho List.not_mem_nil
  · exact fun _ o ho => absurd ho List.not_mem_nil

/-- An operation that is allowed is done, with the invariant, or panics as there are too many references. The last
reference to an object takes just that object out of its list. -/
theorem World.exec_spec {w : World} (hw : w.Inv l m) {a : Act} (ha : w.Allows a) :
    (∃ w' l' m', w.exec a = .ok w' ∧ w'.Inv l' m' ∧
      ∀ o, a = .drop o → (l', m') = if w.handles o = 1 then (l.erase o, m.erase o) else (l, m)) ∨
    w.exec a = .error .tooManyRefs ∧ ∃ o, (a = .newRef o ∨ a = .clone o) ∧ usizeMax ≤ w.handles o := by
  obtain ⟨hl, hs⟩ := hw
  cases a with
  | alloc =>
    obtain ⟨hl', hs'⟩ := Gc.alloc_spec hl hs
    exact .inl ⟨_, l, m, rfl, ⟨hl', hs'⟩, fun _ h => nomatch h⟩
  | newRef o =>
    obtain ⟨h, hobj, hdead⟩ := ha
    rw [World.exec]
    by_cases hzero : w.handles o = 0
    · obtain ⟨g', hok, hl', hs'⟩ := Gc.newRef_first hl hs hobj hdead hzero
      rw [hok, Stop.ok_bind, hzero]
      exact .inl ⟨_, _, _, rfl, ⟨hl', hs'⟩, fun _ h => nomatch h⟩
    · have hnew : w.gc.newRef o = w.gc.incrementStrongCount o := by
        rw [Gc.newRef, Gc.load_eq hobj, Stop.ok_bind, if_neg (by rw [hs.refs hobj]; exact hzero)]
      rw [hnew]
      rcases Gc.incrementStrongCount_spec hl hs (Nat.pos_of_ne_zero hzero) with ⟨herr, hmax⟩ | ⟨g', hok, hl', hs'⟩
      · rw [herr]
        exact .inr ⟨rfl, o, .inl rfl, hmax⟩
      · rw [hok, Stop.ok_bind]
        exact .inl ⟨_, _, _, rfl, ⟨hl', hs'⟩, fun _ h => nomatch h⟩
  | clone o =>
    rw [World.exec]
    rcases Gc.incrementStrongCount_spec hl hs ha with ⟨herr, hmax⟩ | ⟨g', hok, hl', hs'⟩
    · rw [herr]
      exact .inr ⟨rfl, o, .inr rfl, hmax⟩
    · rw [hok, Stop.ok_bind]
      exact .inl ⟨_, _, _, rfl, ⟨hl', hs'⟩, fun _ h => nomatch h⟩
  | drop o =>
    obtain ⟨g', l', m', hok, hl', hs', hlists⟩ := Gc.unref_spec hl hs ha
    rw [World.exec, hok, Stop.ok_bind]
    refine .inl ⟨_, l', m', rfl, ⟨hl', hs'⟩, fun q hq => ?_⟩
    rw [← Act.drop.inj hq]
    exact hlists
  | barrier o v =>
    obtain ⟨g', hok, hl', hs'⟩ := Gc.barrier_spec hl hs ha.1 ha.2
    rw [World.exec, hok, Stop.ok_bind]
    exact .inl ⟨_, l, m, rfl, ⟨hl', hs'⟩, fun _ h => nomatch h⟩
  | barrierBack o =>
    obtain ⟨g', hok, hl', hs'⟩ := Gc.barrierBack_spec hl hs ha
    rw [World.exec, hok, Stop.ok_bind]
    exact .inl ⟨_, l, m, rfl, ⟨hl', hs'⟩, fun _ h => nomatch h⟩
  | resurrect o =>
    obtain ⟨g', hok, hl', hs'⟩ := Gc.resurrect_spec hl hs ha
    rw [World.exec, hok, Stop.ok_bind]
    exact .inl ⟨_, l, m, rfl, ⟨hl', hs'⟩, fun _ h => nomatch h⟩
  | step r =>
    obtain ⟨g', l', m', hok, hl', hs'⟩ := Gc.step_spec hl hs r
    rw [World.exec, hok, Stop.ok_bind]
    exact .inl ⟨_, l', m', rfl, ⟨hl', hs'⟩, fun _ h => nomatch h⟩

theorem World.Reached.inv {w : World} (hw : w.Reached) : ∃ l m, w.Inv l m := by
  induction hw with
  | new => exact ⟨[], [], World.new_inv⟩
  | exec _ ha hexec ih =>
    obtain ⟨l, m, hinv⟩ := ih
    rcases World.exec_spec hinv ha with ⟨w', l', m', hok, hinv', -⟩ | ⟨herr, -⟩
    · rw [hexec] at hok
      obtain rfl := Except.ok.inj hok
      exact ⟨l', m', hinv'⟩
    · rw [hexec] at herr
      cases herr

/-- The lists are exact in every world that is reached, and no operation goes through a stale pointer from there. -/
theorem lists_exact {w : World} (hw : w.Reached) :
    ∃ l m, w.gc.Listed l m ∧
      (∀ o, o ∈ l ++ m ↔ ∃ h, w.gc.object o = some h ∧ 0 < h.refs) ∧
      (∀ o ∈ l ++ m, ∃ c, w.gc.links.back o = some c ∧ w.gc.links.next c = some o) ∧
      ∀ a, w.Allows a →
        (∃ w' l' m', w.exec a = .ok w' ∧ w'.gc.Listed l' m' ∧
          ∀ o, a = .drop o → (l', m') = if w.handles o = 1 then (l.erase o, m.erase o) else (l, m)) ∨
        w.exec a = .error .tooManyRefs ∧ ∃ o, (a = .newRef o ∨ a = .clone o) ∧ usizeMax ≤ w.handles o := by
  obtain ⟨l, m, hl, hs⟩ := hw.inv
  refine ⟨l, m, hl, fun o => ?_, fun o ho => ?_, fun a ha => ?_⟩
  · rw [hs.mem]
    constructor
    · intro hpos
      obtain ⟨h, hobj⟩ := Option.isSome_iff_exists.mp (hs.alive hpos)
      exact ⟨h, hobj, by rw [hs.refs hobj]; exact hpos⟩
    · rintro ⟨h, hobj, hpos⟩
      rw [← hs.refs hobj]
      exact hpos
  · rcases List.mem_append.mp ho with ho | ho
    · exact hl.refs.back_next ho
    · exact hl.marked.back_next ho
  · rcases World.exec_spec ⟨hl, hs⟩ ha with ⟨w', l', m', hok, hinv', hdrop⟩ | herr
    · exact .inl ⟨w', l', m', hok, hinv'.1, hdrop⟩
    · exact .inr herr

/-- A cycle starts between two references, which are in different lists then. -/
theorem lists_exact_marking : ∃ w : World, w.gc.refs = some 1 ∧ w.gc.markedRefs = some 0 ∧
    ∃ l m, w.gc.Listed l m ∧ ∀ o ∈ l ++ m, ∃ c, w.gc.links.back o = some c ∧ w.gc.links.next c = some o := by
  have h₁ := World.Reached.new.exec (a := .alloc) trivial rfl
  have h₂ := h₁.exec (a := .alloc) trivial rfl
  have h₃ := h₂.exec (a := .newRef 0) ⟨_, rfl, by decide⟩ rfl
  have h₄ := h₃.exec (a := .step ⟨true, fun _ => false, fun _ => false⟩) trivial rfl
  have h₅ := h₄.exec (a := .newRef 1) ⟨_, rfl, by decide⟩ rfl
  obtain ⟨l, m, hl, -, hback, -⟩ := lists_exact h₅
  exact ⟨_, rfl, rfl, l, m, hl, hback⟩

end Tsuki.Refs
