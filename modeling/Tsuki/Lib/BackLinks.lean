import Mathlib.Data.List.Nodup
import Mathlib.Data.List.Lattice
import Mathlib.Logic.Function.Basic

/-!
# Lists with a link back to a cell

Singly linked lists whose objects also know the cell that points to them, be it the head of the list or the cell
inside the object before. An object is unlinked through that cell, and a whole list is moved from the head of one to
the last cell of another.
-/

namespace Tsuki.Lib.BackLinks

/-- A cell that points to an object: the head of a list, or the cell inside an object. -/
inductive Cell (H O : Type)
  | head (h : H)
  | link (o : O)
  deriving DecidableEq

theorem Cell.link_ne_head {H O : Type} (o : O) (h : H) : (.link o : Cell H O) ≠ .head h := fun heq => nomatch heq

/-- What each cell points to, and the cell each object believes to be the one that points to it. -/
@[ext] structure Links (H O : Type) where
  next : Cell H O → Option O
  back : O → Option (Cell H O)

variable {H O : Type}

/-- The list that starts in the cell. -/
def Links.Chain (L : Links H O) : Cell H O → List O → Prop
  | c, [] => L.next c = none
  | c, o :: l => L.next c = some o ∧ L.back o = some c ∧ Links.Chain L (.link o) l

/-- The last cell of a list, which points to nothing. -/
def lastCell : Cell H O → List O → Cell H O
  | c, [] => c
  | _, o :: l => lastCell (.link o) l

variable {L : Links H O}

theorem Links.Chain.head {c : Cell H O} {l : List O} (h : L.Chain c l) : L.next c = l.head? := by
  cases l with
  | nil => exact h
  | cons o l => exact h.1

/-- The cell that a listed object believes to point to it does. -/
theorem Links.Chain.back_next {l : List O} : ∀ {c : Cell H O}, L.Chain c l → ∀ {o : O}, o ∈ l →
    ∃ d, L.back o = some d ∧ L.next d = some o := by
  induction l with
  | nil => exact fun _ _ ho => absurd ho List.not_mem_nil
  | cons o l ih =>
    intro c h o' ho
    obtain ⟨hnext, hback, hrest⟩ := h
    rcases List.mem_cons.mp ho with rfl | ho
    · exact ⟨c, hback, hnext⟩
    · exact ih hrest ho

theorem Links.Chain.next_mem {l : List O} : ∀ {c : Cell H O}, L.Chain c l → ∀ {o p : O}, o ∈ l →
    L.next (.link o) = some p → p ∈ l := by
  induction l with
  | nil => exact fun _ _ _ ho => absurd ho List.not_mem_nil
  | cons q l ih =>
    intro c h o p ho hp
    rcases List.mem_cons.mp ho with rfl | ho
    · rw [h.2.2.head] at hp
      exact List.mem_cons_of_mem o (List.mem_of_mem_head? hp)
    · exact List.mem_cons_of_mem q (ih h.2.2 ho hp)

theorem lastCell_eq (c : Cell H O) (l : List O) : lastCell c l = c ∨ ∃ q ∈ l, lastCell c l = .link q := by
  induction l generalizing c with
  | nil => exact .inl rfl
  | cons o l ih =>
    rcases ih (.link o) with heq | ⟨q, hq, heq⟩
    · exact .inr ⟨o, List.mem_cons_self, heq⟩
    · exact .inr ⟨q, List.mem_cons_of_mem o hq, heq⟩

/-- A list is not changed by writes elsewhere. -/
theorem Links.Chain.frame {L' : Links H O} {l : List O} : ∀ {c : Cell H O}, L.Chain c l → L'.next c = L.next c →
    (∀ o ∈ l, L'.next (.link o) = L.next (.link o)) → (∀ o ∈ l, L'.back o = L.back o) → L'.Chain c l := by
  induction l with
  | nil => exact fun h hc _ _ => hc.trans h
  | cons o l ih =>
    intro c h hc hnext hback
    refine ⟨hc.trans h.1, (hback o List.mem_cons_self).trans h.2.1, ih h.2.2 (hnext o List.mem_cons_self) ?_ ?_⟩
    · exact fun o' ho' => hnext o' (List.mem_cons_of_mem o ho')
    · exact fun o' ho' => hback o' (List.mem_cons_of_mem o ho')

/-- The last cell of the first part of a list points to the second part. -/
theorem Links.Chain.next_lastCell {l₁ l₂ : List O} : ∀ {c : Cell H O}, L.Chain c (l₁ ++ l₂) →
    L.next (lastCell c l₁) = l₂.head? := by
  induction l₁ with
  | nil => exact fun h => h.head
  | cons q l₁ ih => exact fun h => ih h.2.2

variable [DecidableEq H] [DecidableEq O]

/-! ## The writes -/

/-- The cell points to `p`, and `p` knows. -/
def Links.set (L : Links H O) (c : Cell H O) (p : Option O) : Links H O where
  next := Function.update L.next c p
  back o := if p = some o then some c else L.back o

/-- The object points to nothing, and believes that nothing points to it. -/
def Links.clear (L : Links H O) (o : O) : Links H O where
  next := Function.update L.next (.link o) none
  back := Function.update L.back o none

/-- The object becomes the first one of a list. -/
def Links.push (L : Links H O) (c : Cell H O) (o : O) : Links H O := (L.set (.link o) (L.next c)).set c (some o)

/-- The object leaves its list, through the cell `n`. -/
def Links.unlink (L : Links H O) (o : O) (n : Cell H O) : Links H O := (L.clear o).set n (L.next (.link o))

/-- The list of the cell `c` goes to the cell `d`. -/
def Links.move (L : Links H O) (c d : Cell H O) : Links H O :=
  Links.set { L with next := Function.update L.next c none } d (L.next c)

theorem Links.Chain.set_of_ne {c d : Cell H O} {l : List O} {p : Option O} (h : L.Chain c l) (hc : c ≠ d)
    (hl : ∀ o ∈ l, d ≠ .link o) (hp : ∀ o ∈ l, p ≠ some o) : (L.set d p).Chain c l := by
  refine h.frame (Function.update_of_ne hc ..) ?_ ?_
  · exact fun o ho => Function.update_of_ne (hl o ho).symm ..
  · exact fun o ho => if_neg (hp o ho)

theorem Links.Chain.clear_of_ne {c : Cell H O} {l : List O} {o : O} (h : L.Chain c l) (hc : c ≠ .link o)
    (ho : o ∉ l) : (L.clear o).Chain c l := by
  have hne : ∀ q ∈ l, q ≠ o := fun q hq heq => ho (heq ▸ hq)
  refine h.frame (Function.update_of_ne hc ..) ?_ ?_
  · exact fun q hq => Function.update_of_ne (fun heq => hne q hq (Cell.link.inj heq)) ..
  · exact fun q hq => Function.update_of_ne (hne q hq) ..

theorem Links.Chain.set_cons {d : Cell H O} {o : O} {l : List O} (h : L.Chain (.link o) l)
    (hd : ∀ q ∈ o :: l, d ≠ .link q) (hl : (o :: l).Nodup) : (L.set d (some o)).Chain d (o :: l) := by
  rw [List.nodup_cons] at hl
  refine ⟨Function.update_self .., if_pos rfl, ?_⟩
  refine h.set_of_ne (hd o List.mem_cons_self).symm (fun q hq => hd q (List.mem_cons_of_mem o hq)) ?_
  exact fun q hq heq => hl.1 (Option.some.inj heq ▸ hq)

/-- The cell that is made to point to the head of a list has the list. -/
theorem Links.Chain.set_next {c d : Cell H O} {l : List O} (h : L.Chain c l) (hd : ∀ o ∈ l, d ≠ .link o)
    (hl : l.Nodup) : (L.set d (L.next c)).Chain d l := by
  rw [h.head]
  cases l with
  | nil => exact Function.update_self ..
  | cons o l => exact h.2.2.set_cons hd hl

theorem Links.Chain.push {c : Cell H O} {l : List O} {o : O} (h : L.Chain c l) (hl : l.Nodup) (ho : o ∉ l)
    (hc : ∀ q ∈ o :: l, c ≠ .link q) : (L.push c o).Chain c (o :: l) := by
  have hrest : (L.set (.link o) (L.next c)).Chain (.link o) l :=
    h.set_next (fun q hq heq => ho (Cell.link.inj heq ▸ hq)) hl
  exact hrest.set_cons hc (List.nodup_cons.mpr ⟨ho, hl⟩)

/-- An object goes in between two parts of a list. -/
theorem Links.Chain.insert {l₁ l₂ : List O} {o : O} : ∀ {c : Cell H O}, L.Chain c (l₁ ++ l₂) → (l₁ ++ l₂).Nodup →
    o ∉ l₁ ++ l₂ → (∀ q ∈ o :: (l₁ ++ l₂), c ≠ .link q) → (L.push (lastCell c l₁) o).Chain c (l₁ ++ o :: l₂) := by
  induction l₁ with
  | nil => exact fun h hl ho hc => h.push hl ho hc
  | cons q l₁ ih =>
    intro c h hl ho hc
    obtain ⟨hnext, hback, hrest⟩ := h
    have hl' := List.nodup_cons.mp hl
    have hoq : o ≠ q := fun heq => ho (heq ▸ List.mem_cons_self)
    have ho' : o ∉ l₁ ++ l₂ := fun hin => ho (List.mem_cons_of_mem q hin)
    have hlast := hrest.next_lastCell
    have hcd : c ≠ lastCell (.link q) l₁ := by
      rcases lastCell_eq (.link q) l₁ with heq | ⟨p, hp, heq⟩
      · rw [heq]
        exact hc q (List.mem_cons_of_mem o List.mem_cons_self)
      · rw [heq]
        exact hc p (List.mem_cons_of_mem o (List.mem_cons_of_mem q (List.mem_append_left l₂ hp)))
    refine ⟨?_, ?_, ih hrest hl'.2 ho' fun p hp heq => ?_⟩
    · show Function.update (Function.update L.next (.link o) _) (lastCell (.link q) l₁) (some o) c = some q
      rw [Function.update_of_ne hcd, Function.update_of_ne (hc o List.mem_cons_self), hnext]
    · show (if some o = some q then _ else if L.next (lastCell (.link q) l₁) = some q then _ else L.back q) = some c
      rw [if_neg (fun heq => hoq (Option.some.inj heq)), hlast, if_neg, hback]
      exact fun heq => hl'.1 (List.mem_append_right l₁ (List.mem_of_mem_head? heq))
    · have heq : q = p := Cell.link.inj heq
      subst heq
      rcases List.mem_cons.mp hp with heq | hp
      · exact hoq heq.symm
      · exact hl'.1 hp

/-- A listed object knows the cell through which it leaves the list. -/
theorem Links.Chain.unlink {o : O} {l : List O} : ∀ {c : Cell H O}, L.Chain c l → l.Nodup →
    (∀ q ∈ l, c ≠ .link q) → o ∈ l → ∃ n, L.back o = some n ∧ (n = c ∨ ∃ q ∈ l, n = .link q) ∧ n ≠ .link o ∧
      (L.unlink o n).Chain c (l.erase o) := by
  induction l with
  | nil => exact fun _ _ _ ho => absurd ho List.not_mem_nil
  | cons q l ih =>
    intro c h hl hc ho
    obtain ⟨hnext, hback, hrest⟩ := h
    have hl' := List.nodup_cons.mp hl
    by_cases hqo : q = o
    · -- the cell of `q` points to the rest of the list
      subst hqo
      refine ⟨c, hback, .inl rfl, hc q List.mem_cons_self, ?_⟩
      rw [List.erase_cons_head, Links.unlink, hrest.head]
      cases l with
      | nil => exact Function.update_self ..
      | cons p l =>
        have hpq : q ≠ p ∧ q ∉ l := by simpa using hl'.1
        have htail : (L.clear q).Chain (.link p) l :=
          hrest.2.2.clear_of_ne (fun heq => hpq.1 (Cell.link.inj heq).symm) hpq.2
        exact htail.set_cons (fun o ho => hc o (List.mem_cons_of_mem q ho)) hl'.2
    · have ho' : o ∈ l := (List.mem_cons.mp ho).resolve_left (Ne.symm hqo)
      obtain ⟨n, hn, hin, hno, hchain⟩ := ih hrest hl'.2 (fun p hp heq => hl'.1 (Cell.link.inj heq ▸ hp)) ho'
      have hnc : c ≠ n := by
        rintro rfl
        rcases hin with hin | ⟨p, hp, hin⟩
        · exact hc q List.mem_cons_self hin
        · exact hc p (List.mem_cons_of_mem q hp) hin
      have hin' : ∃ p ∈ q :: l, n = .link p := by
        rcases hin with rfl | ⟨p, hp, rfl⟩
        · exact ⟨q, List.mem_cons_self, rfl⟩
        · exact ⟨p, List.mem_cons_of_mem q hp, rfl⟩
      refine ⟨n, hn, .inr hin', hno, ?_⟩
      rw [List.erase_cons_tail (by simpa using hqo)]
      refine ⟨?_, ?_, hchain⟩
      · show Function.update (Function.update L.next (.link o) none) n (L.next (.link o)) c = some q
        rw [Function.update_of_ne hnc, Function.update_of_ne (hc o ho), hnext]
      · show (if L.next (.link o) = some q then some n else Function.update L.back o none q) = some c
        rw [if_neg (fun heq => hl'.1 (hrest.next_mem ho' heq)), Function.update_of_ne hqo, hback]

/-- Another list does not change where an object leaves its own. -/
theorem Links.Chain.unlink_pair {h₁ h₂ : H} {l₁ l₂ : List O} {o : O} (hl₁ : L.Chain (.head h₁) l₁)
    (hl₂ : L.Chain (.head h₂) l₂) (hne : h₁ ≠ h₂) (hnd : l₁.Nodup) (hdis : List.Disjoint l₁ l₂) (ho : o ∈ l₁) :
    ∃ n, L.back o = some n ∧ (n = .head h₁ ∨ ∃ q ∈ l₁, n = .link q) ∧ n ≠ .link o ∧
      (L.unlink o n).Chain (.head h₁) (l₁.erase o) ∧ (L.unlink o n).Chain (.head h₂) l₂ := by
  obtain ⟨n, hn, hin, hno, hchain⟩ := hl₁.unlink hnd (fun q _ heq => nomatch heq) ho
  refine ⟨n, hn, hin, hno, hchain, ?_⟩
  have hclear : (L.clear o).Chain (.head h₂) l₂ := hl₂.clear_of_ne (fun heq => nomatch heq) (hdis ho)
  refine hclear.set_of_ne ?_ ?_ ?_
  · rintro rfl
    rcases hin with hin | ⟨q, -, hin⟩
    · exact hne (Cell.head.inj hin).symm
    · cases hin
  · rintro q hq rfl
    rcases hin with hin | ⟨q', hq', hin⟩
    · cases hin
    · exact hdis hq' (Cell.link.inj hin ▸ hq)
  · exact fun q hq heq => hdis (hl₁.next_mem ho heq) hq

/-- A list that is moved to the end of another. -/
theorem Links.Chain.move {d : Cell H O} {l l' : List O} (h' : L.Chain d l') : ∀ {c : Cell H O}, L.Chain c l →
    (l ++ l').Nodup → (∀ q ∈ l ++ l', c ≠ .link q) → (∀ q ∈ l ++ l', d ≠ .link q) → c ≠ d →
    (L.move d (lastCell c l)).Chain c (l ++ l') ∧ (L.move d (lastCell c l)).Chain d [] := by
  induction l with
  | nil =>
    intro c h hl hc hd hcd
    refine ⟨?_, ?_⟩
    · rw [lastCell, Links.move, h'.head]
      cases l' with
      | nil => exact Function.update_self ..
      | cons o l' =>
        have htail : Links.Chain { L with next := Function.update L.next d none } (.link o) l' := by
          refine h'.2.2.frame (Function.update_of_ne (hd o List.mem_cons_self).symm ..) ?_ (fun _ _ => rfl)
          exact fun q hq => Function.update_of_ne (hd q (List.mem_cons_of_mem o hq)).symm ..
        exact htail.set_cons hc hl
    · show Function.update (Function.update L.next d none) c (L.next d) d = none
      rw [Function.update_of_ne hcd.symm, Function.update_self]
  | cons o l ih =>
    intro c h hl hc hd hcd
    obtain ⟨hnext, hback, hrest⟩ := h
    have hl' := List.nodup_cons.mp hl
    obtain ⟨hchain, hempty⟩ := ih hrest hl'.2 (fun q hq heq => hl'.1 (Cell.link.inj heq ▸ hq))
      (fun q hq => hd q (List.mem_cons_of_mem o hq)) (hd o List.mem_cons_self).symm
    refine ⟨⟨?_, ?_, hchain⟩, hempty⟩
    · show Function.update (Function.update L.next d none) (lastCell (.link o) l) (L.next d) c = some o
      rw [Function.update_of_ne, Function.update_of_ne hcd, hnext]
      rcases lastCell_eq (.link o) l with heq | ⟨q, hq, heq⟩
      · rw [heq]
        exact hc o List.mem_cons_self
      · rw [heq]
        exact hc q (List.mem_cons_of_mem o (List.mem_append_left l' hq))
    · show (if L.next d = some o then some (lastCell (.link o) l) else L.back o) = some c
      rw [if_neg, hback]
      intro heq
      rw [h'.head] at heq
      exact hl'.1 (List.mem_append_right l (List.mem_of_mem_head? heq))

end Tsuki.Lib.BackLinks
