import Tsuki.Str.MatchRefine

/-!
# Where a match ends

Every match found from a state inside the subject ends at or behind the offset it started from, and leaves the
captures inside the subject (`explore_within`, `match0_within`).
-/

namespace Tsuki.Str

/-- A match ends at `off` or behind it, inside the subject. -/
def Event.Within (src : Bytes) (off : Nat) : Event → Prop
  | .found stop cap _ => off ≤ stop ∧ InSubject src cap stop
  | _ => True

/-- All matches an explorer lists from a state in the subject stay in it. -/
def Bounded (src : Bytes) (ex : Explorer) : Prop :=
  ∀ cap off p, InSubject src cap off → ∀ e ∈ ex cap off p, e.Within src off

section

variable {src : Bytes} {off off' : Nat} {e : Event}

theorem Event.Within.mono (h : e.Within src off') (hle : off ≤ off') : e.Within src off := by
  cases e with
  | found => exact ⟨hle.trans h.1, h.2⟩
  | fault => trivial
  | hazard => trivial

theorem Event.Within.zeroPlus (h : e.Within src off) : e.zeroPlus.Within src off := by
  cases e with
  | found => exact h
  | fault => trivial
  | hazard => trivial

theorem within_of_stops (h : e.stops) : e.Within src off := by
  cases e with
  | found => cases h
  | fault => trivial
  | hazard => trivial

end

section

variable {src : Bytes} {ex : Explorer} (hex : Bounded src ex) {cap : Captures} {off : Nat} {p : Bytes} {e : Event}

include hex

theorem exploreSingle_within {loop : Nat → Bytes → List Event} {ep : Nat}
    (hloop : ∀ off p, InSubject src cap off → ∀ e ∈ loop off p, e.Within src off) (h : InSubject src cap off)
    (he : e ∈ exploreSingle src ex loop cap off p ep) : e.Within src off := by
  have hle : off + hits src off p ep ≤ src.length := off_add_hits_le h.off_le
  have hrec : ∀ {i q}, i ≤ hits src off p ep → e ∈ ex cap (off + i) q → e.Within src off := fun hi he =>
    (hex cap _ _ (h.mono (by omega) (by omega)) e he).mono (by omega)
  simp only [exploreSingle] at he
  split_ifs at he with h1 hm h2 hm h3 hm h4 hm hm
  · rcases List.mem_append.mp he with he | he
    · exact hrec (by omega) he
    · exact hloop _ _ h e he
  · exact hloop _ _ h e he
  · rcases List.mem_append.mp he with he | he
    · obtain ⟨i, hi, he⟩ := List.mem_flatMap.mp he
      rw [List.mem_reverse, List.mem_range] at hi
      exact hrec (by omega) he
    · obtain ⟨e', he', rfl⟩ := List.mem_map.mp he
      exact (hex cap off _ h e' he').zeroPlus
  · cases he
  · obtain ⟨i, hi, he⟩ := List.mem_flatMap.mp he
    rw [List.mem_reverse, List.mem_range] at hi
    exact hrec (by omega) he
  · exact hloop _ _ h e he
  · obtain ⟨i, hi, he⟩ := List.mem_flatMap.mp he
    rw [List.mem_range] at hi
    exact hrec (by omega) he
  · exact hloop _ _ h e he
  · exact (hloop _ _ (h.mono (by omega) (by omega)) e he).mono (by omega)
  · cases he

theorem exploreItem_within {loop : Nat → Bytes → List Event}
    (hloop : ∀ off p, InSubject src cap off → ∀ e ∈ loop off p, e.Within src off) (h : InSubject src cap off)
    (he : e ∈ exploreItem src ex loop cap off p) : e.Within src off := by
  unfold exploreItem at he
  split at he
  · rw [List.mem_singleton] at he
    subst he
    trivial
  · cases he
  · exact exploreSingle_within hex hloop h he

theorem exploreStart_within {what : Int} (hw : what = -1 ∨ what = -2) (h : InSubject src cap off)
    (he : e ∈ exploreStart ex cap off p what) : e.Within src off := by
  unfold exploreStart at he
  split_ifs at he
  · rw [List.mem_singleton] at he
    subst he
    trivial
  · exact hex _ _ _ (h.push hw) e he

theorem exploreEnd_within (h : InSubject src cap off) (he : e ∈ exploreEnd ex cap off p) : e.Within src off := by
  unfold exploreEnd at he
  split at he
  · exact hex _ _ _ (h.close _) e he
  · rw [List.mem_singleton] at he
    subst he
    trivial

theorem exploreLoop_within (n : Nat) (h : InSubject src cap off) (he : e ∈ exploreLoop src ex cap n off p) :
    e.Within src off := by
  induction n generalizing off p e with
  | zero =>
    rcases p with _ | ⟨first, rest⟩
    · rw [exploreLoop_nil, List.mem_singleton] at he
      subst he
      exact ⟨le_refl _, h⟩
    · cases he
  | succ n ih =>
    have hitem : ∀ {p}, e ∈ exploreItem src ex (exploreLoop src ex cap n) cap off p → e.Within src off :=
      exploreItem_within hex (fun off p h e he => ih h he) h
    have hstop : ∀ {e'}, e'.stops → e ∈ [e'] → e.Within src off := by
      intro e' hs he
      rw [List.mem_singleton] at he
      exact he ▸ within_of_stops hs
    have hfault : ∀ {text}, e ∈ [Event.fault text] → e.Within src off := hstop trivial
    rcases p with _ | ⟨first, rest⟩
    · rw [exploreLoop_nil, List.mem_singleton] at he
      subst he
      exact ⟨le_refl _, h⟩
    unfold exploreLoop at he
    split_ifs at he with h1 h2 h3 h4 h5 h6
    · exact exploreStart_within hex (.inr rfl) h he
    · exact exploreStart_within hex (.inl rfl) h he
    · exact exploreEnd_within hex h he
    · rw [List.mem_singleton] at he
      subst he
      exact ⟨le_refl _, h⟩
    · cases he
    · rcases rest with _ | ⟨c, args⟩
      · exact hitem he
      dsimp only at he
      split_ifs at he with hb hf hset hd
      · cases hbal : exploreBalance src off args with
        | inl e' =>
          rw [hbal] at he
          exact hstop (exploreBalance_stops hbal) he
        | inr r =>
          rw [hbal] at he
          rcases r with _ | v
          · cases he
          · obtain ⟨hle, hv, -⟩ := exploreBalance_spec hbal
            exact (ih (h.mono hle hv) he).mono hle
      · exact hfault he
      · split at he
        · exact hfault he
        · cases he
        · split at he
          · rename_i hfr
            exact hstop (exploreFrontier_stops hfr) he
          · cases he
          · exact ih h he
      · cases href : exploreReference src cap off c with
        | inl e' =>
          rw [href] at he
          exact hstop (exploreReference_stops href) he
        | inr r =>
          rw [href] at he
          rcases r with _ | v
          · cases he
          · obtain ⟨hle, hv⟩ := exploreReference_spec h href
            exact (ih (h.mono hle hv) he).mono hle
      · exact hitem he
    · exact hitem he

end

theorem explore_within (src : Bytes) (d : Nat) : Bounded src (explore src d) := by
  induction d with
  | zero =>
    intro cap off p _ e he
    rw [explore, List.mem_singleton] at he
    subst he
    trivial
  | succ d ih => exact fun cap off p h e he => exploreLoop_within ih _ h he

theorem match0_within {src : Bytes} {d : Nat} {cap cap' : Captures} {off stop : Nat} {p : Bytes}
    (h : InSubject src cap off) (hm : match0 src d cap off p = .ok (some stop, cap')) :
    off ≤ stop ∧ InSubject src cap' stop := by
  rw [match0_eq src d cap off p h] at hm
  have hall := explore_within src d cap off p h
  generalize explore src d cap off p = l at hm hall
  rcases l with _ | ⟨e, l⟩
  · cases hm
  · cases e with
    | found => cases hm; exact hall _ List.mem_cons_self
    | fault => cases hm
    | hazard => cases hm

end Tsuki.Str
