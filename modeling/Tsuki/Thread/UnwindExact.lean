import Tsuki.Thread.Unwind

/-!
# A call that fails unwinds completely

Each part of a run keeps what is below its level. From that, `luaD_closeprotected` closes every variable that is left
from its level on, the last first, whatever their methods do. The induction is on the steps of the run, with one
statement for each kind of part (`Good`). A failing method is itself unwound from the top on, so `luaD_closeprotected`
starts again below it with fewer variables to close.
-/

namespace Tsuki.Unwind

/-! ## Descending lists -/

section

attribute [local simp] findupval

variable {l : List Nat} {k : Nat}

theorem split_desc (h : l.Pairwise (· > ·)) (k : Nat) :
    (l.filter fun t => k ≤ t) ++ (l.filter fun t => t < k) = l := by
  induction l with
  | nil => rfl
  | cons t l ih =>
    obtain ⟨ht, hl⟩ := List.pairwise_cons.mp h
    by_cases hk : k ≤ t
    · rw [List.filter_cons_of_pos (by simpa using hk), List.filter_cons_of_neg (by simpa using hk), List.cons_append,
        ih hl]
    · have hnone : (l.filter fun t => k ≤ t) = [] := by
        refine List.filter_eq_nil_iff.mpr fun t' ht' => ?_
        have := ht t' ht'
        simpa using (show t' < k by omega)
      have hall : (l.filter fun t => t < k) = l := by
        refine List.filter_eq_self.mpr fun t' ht' => ?_
        have := ht t' ht'
        simpa using (show t' < k by omega)
      rw [List.filter_cons_of_neg (by simpa using hk), List.filter_cons_of_pos (by simpa using hk), hnone, hall]
      rfl

theorem dropWhile_desc (h : l.Pairwise (· > ·)) (k : Nat) :
    (l.dropWhile fun t => k ≤ t) = l.filter fun t => t < k := by
  induction l with
  | nil => rfl
  | cons t l ih =>
    obtain ⟨ht, hl⟩ := List.pairwise_cons.mp h
    by_cases hk : k ≤ t
    · rw [List.dropWhile_cons_of_pos (by simpa using hk), List.filter_cons_of_neg (by simpa using hk), ih hl]
    · have hall : ((t :: l).filter fun t => t < k) = t :: l := by
        refine List.filter_eq_self.mpr fun t' ht' => ?_
        rcases List.mem_cons.mp ht' with rfl | hmem
        · simpa using hk
        · have := ht t' hmem
          simpa using (show t' < k by omega)
      rw [List.dropWhile_cons_of_neg (by simpa using hk), hall]

theorem mem_findupval {slot u : Nat} : u ∈ findupval slot l ↔ u = slot ∨ u ∈ l := by
  induction l with
  | nil => simp
  | cons v l ih =>
    rw [findupval]
    split_ifs with h h'
    · rw [List.mem_cons, ih, List.mem_cons]
      exact or_left_comm
    · subst h'
      simp
    · simp

theorem findupval_desc {slot : Nat} (h : l.Pairwise (· > ·)) : (findupval slot l).Pairwise (· > ·) := by
  induction l with
  | nil => exact List.pairwise_singleton _ _
  | cons v l ih =>
    obtain ⟨hv, hl⟩ := List.pairwise_cons.mp h
    rw [findupval]
    split_ifs with hlt heq
    · refine List.pairwise_cons.mpr ⟨fun u hu => ?_, ih hl⟩
      rcases mem_findupval.mp hu with rfl | hmem
      · exact hlt
      · exact hv u hmem
    · exact h
    · refine List.pairwise_cons.mpr ⟨fun u hu => ?_, h⟩
      rcases List.mem_cons.mp hu with rfl | hmem
      · omega
      · have := hv u hmem
        omega

theorem findupval_below {slot : Nat} (h : k ≤ slot) :
    ((findupval slot l).filter fun u => u < k) = l.filter fun u => u < k := by
  have hslot : ¬(decide (slot < k)) = true := by simpa using h
  induction l with
  | nil => exact List.filter_cons_of_neg hslot
  | cons v l ih =>
    rw [findupval]
    split_ifs with hlt heq
    · rw [List.filter_cons, List.filter_cons, ih]
    · rfl
    · exact List.filter_cons_of_neg hslot

end

/-! ## What is kept -/

variable {E H V : Type}

/-- Both lists go down. -/
structure Sorted (th : Thread H V) : Prop where
  ups : th.openupval.Pairwise (· > ·)
  tbc : th.tbclist.Pairwise (· > ·)

/-- What is below a level is kept: the open upvalues, the variables to close, and the slots that are not written from
outside of their frame. -/
structure Kept (level : Nat) (th th' : Thread H V) : Prop where
  tbc : (th'.tbclist.filter fun t => t < level) = th.tbclist.filter fun t => t < level
  ups : (th'.openupval.filter fun u => u < level) = th.openupval.filter fun u => u < level
  slots : ∀ j < level, th'.slots j = th.slots j ∨ j ∈ th'.poked
  poked : ∀ j ∈ th.poked, j ∈ th'.poked

/-- A value that is the same twice, unless it is written from outside. -/
theorem same_trans {x y z : V} {j : Nat} {l l' : List Nat} (hl : ∀ j ∈ l, j ∈ l') (h : x = y ∨ j ∈ l')
    (h' : y = z ∨ j ∈ l) : x = z ∨ j ∈ l' := by
  rcases h with rfl | h
  · exact h'.imp_right (hl j)
  · exact .inr h

theorem Kept.trans {level : Nat} {th th' th'' : Thread H V} (h : Kept level th th') (h' : Kept level th' th'') :
    Kept level th th'' := by
  refine ⟨h'.tbc.trans h.tbc, h'.ups.trans h.ups, fun j hj => ?_, fun j hj => h'.poked j (h.poked j hj)⟩
  exact same_trans h'.poked (h'.slots j hj) (h.slots j hj)

theorem filter_filter_below {l : List Nat} {k k' : Nat} (h : k ≤ k') :
    ((l.filter fun t => t < k').filter fun t => t < k) = l.filter fun t => t < k := by
  rw [List.filter_filter]
  refine List.filter_congr fun t _ => ?_
  rw [Bool.eq_iff_iff]
  simp only [Bool.and_eq_true, decide_eq_true_eq]
  omega

theorem Kept.mono {level level' : Nat} {th th' : Thread H V} (h : Kept level' th th') (hle : level ≤ level') :
    Kept level th th' := by
  refine ⟨?_, ?_, fun j hj => h.slots j (by omega), h.poked⟩
  · rw [← filter_filter_below hle, h.tbc, filter_filter_below hle]
  · rw [← filter_filter_below hle, h.ups, filter_filter_below hle]

/-- The errors of methods. -/
def errors (cs : List (Closed E V)) : List E := cs.filterMap Closed.error

/-! ## What each part of a run does -/

/-- A function that returns leaves nothing of its frame; one that fails leaves its frames below the top. -/
structure ActPost (base : Nat) (th th' : Thread H V) (res : Option E) : Prop where
  sorted : Sorted th'
  kept : Kept base th th'
  returns : res = none → th'.ci = th.ci.tail ∧ (∀ t ∈ th'.tbclist, t < base) ∧ ∀ u ∈ th'.openupval, u < base
  fails : ∀ e, res = some e → (∀ t ∈ th'.tbclist, t < th'.top) ∧ base ≤ th'.top

/-- Methods are called from the last variable on, up to the first that fails. -/
structure LoopPost (level : Nat) (th th' : Thread H V) (res : Option E) (cs : List (Closed E V)) : Prop where
  sorted : Sorted th'
  kept : Kept level th th'
  ci : th'.ci = th.ci
  top : th'.top = th.top
  ups : th'.openupval = th.openupval.filter fun u => u < level
  split : ∃ rest, (th.tbclist.filter fun t => level ≤ t) = cs.map Closed.slot ++ rest ∧
    th'.tbclist = rest ++ (th.tbclist.filter fun t => t < level) ∧
      (∀ t ∈ rest, th'.slots t = th.slots t ∨ t ∈ th'.poked) ∧
    (res = none → rest = [])
  values : ∀ c ∈ cs, c.value = th.slots c.slot ∨ c.slot ∈ th'.poked
  errors : errors cs = res.toList

/-- All methods are called, and the last error is the result. -/
structure ProtPost (level : Nat) (status : Option E) (th th' : Thread H V) (res : Option E) (cs : List (Closed E V)) :
    Prop where
  sorted : Sorted th'
  kept : Kept level th th'
  ci : th'.ci = th.ci
  ups : th'.openupval = th.openupval.filter fun u => u < level
  tbc : th'.tbclist = th.tbclist.filter fun t => t < level
  slots : cs.map Closed.slot = th.tbclist.filter fun t => level ≤ t
  values : ∀ c ∈ cs, c.value = th.slots c.slot ∨ c.slot ∈ th'.poked
  result : res = (Unwind.errors cs).getLast?.or status

/-- A call leaves the lists and the call infos as they were. -/
structure CallPost (func : Nat) (th th' : Thread H V) : Prop where
  sorted : Sorted th'
  kept : Kept func th th'
  ci : th'.ci = th.ci
  top : th'.top = func
  ups : th'.openupval = th.openupval
  tbc : th'.tbclist = th.tbclist

variable (nil : V) (tm : H → V → V × Act E H V)

/-- The parts of a run of `n` steps do what they should. -/
structure Good (n : Nat) : Prop where
  act : ∀ base a th th' res cs, run nil tm n (.act base a) th = some (th', res, cs) → Sorted th →
    ActPost base th th' res
  close : ∀ level th th' res cs, run nil tm n (.close level) th = some (th', res, cs) → Sorted th →
    (∀ t ∈ th.tbclist, t < th.top) → level ≤ th.top → LoopPost level th th' res cs
  closeLoop : ∀ level th th' res cs, run nil tm n (.closeLoop level) th = some (th', res, cs) → Sorted th →
    (∀ t ∈ th.tbclist, t < th.top) → level ≤ th.top → (∀ u ∈ th.openupval, u < level) → LoopPost level th th' res cs
  closeprotected : ∀ level status th th' res cs,
    run nil tm n (.closeprotected level th.ci status) th = some (th', res, cs) → Sorted th →
    (∀ t ∈ th.tbclist, t < th.top) → level ≤ th.top → ProtPost level status th th' res cs
  call : ∀ func body th th' res cs, run nil tm n (.call func body) th = some (th', res, cs) → Sorted th →
    (∀ t ∈ th.tbclist, t < func) → (∀ u ∈ th.openupval, u < func) → CallPost func th th'

section Steps

-- the equations of `run` are derived here once, and not anew for each of the proofs that unfold it
attribute [local simp] run

variable {nil : V} {tm : H → V → V × Act E H V} {n : Nat}

theorem LoopPost.tbc_mem {level : Nat} {th th' : Thread H V} {res : Option E} {cs : List (Closed E V)}
    (h : LoopPost level th th' res cs) : ∀ t ∈ th'.tbclist, t ∈ th.tbclist := by
  intro t ht
  obtain ⟨rest, hsplit, htbc, _, _⟩ := h.split
  rw [htbc] at ht
  rcases List.mem_append.mp ht with hrest | hbelow
  · have hmem : t ∈ th.tbclist.filter fun t => level ≤ t := by
      rw [hsplit]
      exact List.mem_append.mpr (.inr hrest)
    exact (List.mem_filter.mp hmem).1
  · exact (List.mem_filter.mp hbelow).1

/-! ### Functions -/

/-- A part of a function, and then the rest of it. -/
theorem ActPost.after {base : Nat} {th th₁ th' : Thread H V} {res : Option E} (h : ActPost base th₁ th' res)
    (hk : Kept base th th₁) (hci : th₁.ci = th.ci) : ActPost base th th' res := by
  refine ⟨h.sorted, hk.trans h.kept, fun hres => ?_, h.fails⟩
  have := h.returns hres
  rwa [hci] at this

theorem Kept.set_top {level : Nat} {th th' : Thread H V} {k : Nat} (h : Kept level { th with top := k } th') :
    Kept level th th' := ⟨h.tbc, h.ups, h.slots, h.poked⟩

theorem Kept.set_ci {level : Nat} {th th' : Thread H V} {ci : List Nat} (h : Kept level { th with ci } th') :
    Kept level th th' := ⟨h.tbc, h.ups, h.slots, h.poked⟩

theorem Good.act_done (ih : Good nil tm n) {base k : Nat} {th th' : Thread H V} {res : Option E}
    {cs : List (Closed E V)} (h : run nil tm (n + 1) (.act base (.done k)) th = some (th', res, cs)) (hs : Sorted th) :
    ActPost base th th' res := by
  rw [run] at h
  by_cases hlt : ∀ t ∈ th.tbclist, t < base + k
  swap
  · rw [if_neg hlt] at h
    cases h
  rw [if_pos hlt] at h
  cases hr : run nil tm n (.close base) { th with top := base + k } with
  | none =>
    rw [hr] at h
    cases h
  | some r =>
    obtain ⟨th₁, res₁, cs₁⟩ := r
    have hpost := ih.close _ _ _ _ _ hr ⟨hs.ups, hs.tbc⟩ hlt (Nat.le_add_right _ _)
    have hkept := hpost.kept.set_top
    rw [hr] at h
    cases res₁ with
    | none =>
      cases h
      refine ⟨⟨hpost.sorted.ups, hpost.sorted.tbc⟩, ⟨hkept.tbc, hkept.ups, hkept.slots, hkept.poked⟩,
        fun _ => ⟨congrArg List.tail hpost.ci, fun t ht => ?_, fun u hu => ?_⟩, fun e he => by cases he⟩
      · obtain ⟨rest, _, htbc, _, hnil⟩ := hpost.split
        rw [hnil rfl, List.nil_append] at htbc
        have hmem : t ∈ th₁.tbclist := ht
        rw [htbc] at hmem
        simpa using (List.mem_filter.mp hmem).2
      · have hmem : u ∈ th₁.openupval := hu
        rw [hpost.ups] at hmem
        simpa using (List.mem_filter.mp hmem).2
    | some e =>
      cases h
      refine ⟨hpost.sorted, hkept, fun he => (by cases he), fun _ _ => ⟨fun t ht => ?_, ?_⟩⟩
      · rw [hpost.top]
        exact hlt t (hpost.tbc_mem t ht)
      · rw [hpost.top]
        exact Nat.le_add_right _ _

theorem Good.act_closeTo (ih : Good nil tm n) {base i k : Nat} {next : Act E H V} {th th' : Thread H V}
    {res : Option E} {cs : List (Closed E V)}
    (h : run nil tm (n + 1) (.act base (.closeTo i k next)) th = some (th', res, cs)) (hs : Sorted th) :
    ActPost base th th' res := by
  rw [run] at h
  by_cases hi : i ≤ k ∧ ∀ t ∈ th.tbclist, t < base + k
  swap
  · rw [if_neg hi] at h
    cases h
  rw [if_pos hi] at h
  obtain ⟨hi, hlt⟩ := hi
  cases hr : run nil tm n (.close (base + i)) { th with top := base + k } with
  | none =>
    rw [hr] at h
    cases h
  | some r =>
    obtain ⟨th₁, res₁, cs₁⟩ := r
    have hpost := ih.close _ _ _ _ _ hr ⟨hs.ups, hs.tbc⟩ hlt (Nat.add_le_add_left hi _)
    have hkept : Kept base th th₁ := hpost.kept.set_top.mono (Nat.le_add_right _ _)
    rw [hr] at h
    cases res₁ with
    | none => exact (ih.act _ _ _ _ _ _ h hpost.sorted).after hkept hpost.ci
    | some e =>
      cases h
      refine ⟨hpost.sorted, hkept, fun he => (by cases he), fun _ _ => ?_⟩
      rw [hpost.top]
      exact ⟨fun t ht => hlt t (hpost.tbc_mem t ht), Nat.le_add_right _ _⟩

theorem Good.act_call (ih : Good nil tm n) {base i : Nat} {body next : Act E H V} {th th' : Thread H V}
    {res : Option E} {cs : List (Closed E V)}
    (h : run nil tm (n + 1) (.act base (.call i body next)) th = some (th', res, cs)) (hs : Sorted th) :
    ActPost base th th' res := by
  rw [run] at h
  by_cases hi : (∀ t ∈ th.tbclist, t < base + i) ∧ ∀ u ∈ th.openupval, u < base + i
  swap
  · rw [if_neg hi] at h
    cases h
  rw [if_pos hi] at h
  cases hr : run nil tm n (.act (base + i + 1) body) { th with ci := (base + i) :: th.ci } with
  | none =>
    rw [hr] at h
    cases h
  | some r =>
    obtain ⟨th₁, res₁, cs₁⟩ := r
    have hpost := ih.act _ _ _ _ _ _ hr ⟨hs.ups, hs.tbc⟩
    have hkept : Kept base th th₁ := hpost.kept.set_ci.mono (by omega)
    rw [hr] at h
    cases res₁ with
    | none => exact (ih.act _ _ _ _ _ _ h hpost.sorted).after hkept (hpost.returns rfl).1
    | some e =>
      cases h
      obtain ⟨hlt, hle⟩ := hpost.fails e rfl
      exact ⟨hpost.sorted, hkept, fun he => (by cases he), fun _ _ => ⟨hlt, by omega⟩⟩

theorem Good.act_pcall (ih : Good nil tm n) {base i : Nat} {body : Act E H V} {next : Option E → Act E H V}
    {th th' : Thread H V} {res : Option E} {cs : List (Closed E V)}
    (h : run nil tm (n + 1) (.act base (.pcall i body next)) th = some (th', res, cs)) (hs : Sorted th) :
    ActPost base th th' res := by
  rw [run] at h
  by_cases hi : (∀ t ∈ th.tbclist, t < base + i) ∧ ∀ u ∈ th.openupval, u < base + i
  swap
  · rw [if_neg hi] at h
    cases h
  rw [if_pos hi] at h
  obtain ⟨htbc, hups⟩ := hi
  cases hr : run nil tm n (.call (base + i) body) th with
  | none =>
    rw [hr] at h
    cases h
  | some r =>
    obtain ⟨th₁, res₁, cs₁⟩ := r
    have hpost := ih.call _ _ _ _ _ _ hr hs htbc hups
    rw [hr] at h
    exact (ih.act _ _ _ _ _ _ h hpost.sorted).after (hpost.kept.mono (Nat.le_add_right _ _)) hpost.ci

theorem Good.act_succ (ih : Good nil tm n) (base : Nat) (a : Act E H V) (th th' : Thread H V) (res : Option E)
    (cs : List (Closed E V)) (h : run nil tm (n + 1) (.act base a) th = some (th', res, cs)) (hs : Sorted th) :
    ActPost base th th' res := by
  cases a with
  | done k => exact ih.act_done h hs
  | fail e k =>
    rw [run] at h
    by_cases hlt : ∀ t ∈ th.tbclist, t < base + k
    swap
    · rw [if_neg hlt] at h
      cases h
    rw [if_pos hlt] at h
    cases h
    exact ⟨⟨hs.ups, hs.tbc⟩, ⟨rfl, rfl, fun _ _ => .inl rfl, fun _ hj => hj⟩, fun he => (by cases he),
      fun _ _ => ⟨hlt, Nat.le_add_right _ _⟩⟩
  | write i v next =>
    rw [run] at h
    by_cases hi : base + i ∉ th.tbclist
    swap
    · rw [if_neg hi] at h
      cases h
    rw [if_pos hi] at h
    have hne : ∀ j < base, j ≠ base + i := fun j hj => by omega
    exact (ih.act _ _ _ _ _ _ h ⟨hs.ups, hs.tbc⟩).after
      ⟨rfl, rfl, fun j hj => .inl (Function.update_of_ne (hne j hj) _ _), fun _ hj => hj⟩ rfl
  | poke slot v next =>
    rw [run] at h
    refine (ih.act _ _ _ _ _ _ h ⟨hs.ups, hs.tbc⟩).after
      ⟨rfl, rfl, fun j _ => ?_, fun _ hj => List.mem_cons_of_mem _ hj⟩ rfl
    by_cases hj : j = slot
    · exact .inr (List.mem_cons.mpr (.inl hj))
    · exact .inl (Function.update_of_ne hj _ _)
  | heap w next =>
    rw [run] at h
    exact (ih.act _ _ _ _ _ _ h ⟨hs.ups, hs.tbc⟩).after ⟨rfl, rfl, fun _ _ => .inl rfl, fun _ hj => hj⟩ rfl
  | capture i next =>
    rw [run] at h
    exact (ih.act _ _ _ _ _ _ h ⟨findupval_desc hs.ups, hs.tbc⟩).after
      ⟨rfl, findupval_below (Nat.le_add_right _ _), fun _ _ => .inl rfl, fun _ hj => hj⟩ rfl
  | tbc i next =>
    rw [run] at h
    by_cases hi : ∀ t ∈ th.tbclist, t < base + i
    swap
    · rw [if_neg hi] at h
      cases h
    rw [if_pos hi] at h
    exact (ih.act _ _ _ _ _ _ h ⟨hs.ups, List.pairwise_cons.mpr ⟨hi, hs.tbc⟩⟩).after
      ⟨List.filter_cons_of_neg (by simp), rfl, fun _ _ => .inl rfl, fun _ hj => hj⟩ rfl
  | closeTo i k next => exact ih.act_closeTo h hs
  | call i body next => exact ih.act_call h hs
  | pcall i body next => exact ih.act_pcall h hs

/-! ### The variables to close -/

theorem Good.close_succ (ih : Good nil tm n) (level : Nat) (th th' : Thread H V) (res : Option E)
    (cs : List (Closed E V)) (h : run nil tm (n + 1) (.close level) th = some (th', res, cs)) (hs : Sorted th)
    (htop : ∀ t ∈ th.tbclist, t < th.top) (hle : level ≤ th.top) : LoopPost level th th' res cs := by
  rw [run, dropWhile_desc hs.ups] at h
  have hpost := ih.closeLoop _ _ _ _ _ h ⟨hs.ups.filter _, hs.tbc⟩ htop hle fun u hu => by
    simpa using (List.mem_filter.mp hu).2
  have hups : th'.openupval = th.openupval.filter fun u => u < level :=
    hpost.ups.trans (filter_filter_below (Nat.le_refl _))
  exact ⟨hpost.sorted, ⟨hpost.kept.tbc, hpost.kept.ups.trans (filter_filter_below (Nat.le_refl _)),
    hpost.kept.slots, hpost.kept.poked⟩, hpost.ci, hpost.top, hups, hpost.split, hpost.values, hpost.errors⟩

/-- Nothing to close from a level on. -/
theorem LoopPost.empty {level : Nat} {th : Thread H V} (hs : Sorted th) (hups : ∀ u ∈ th.openupval, u < level)
    (htbc : ∀ t ∈ th.tbclist, t < level) : LoopPost level th th (none : Option E) [] := by
  have hall : (th.tbclist.filter fun t => t < level) = th.tbclist :=
    List.filter_eq_self.mpr fun t ht => by simpa using htbc t ht
  have hnone : (th.tbclist.filter fun t => level ≤ t) = [] :=
    List.filter_eq_nil_iff.mpr fun t ht => by simpa using htbc t ht
  have hups' : (th.openupval.filter fun u => u < level) = th.openupval :=
    List.filter_eq_self.mpr fun u hu => by simpa using hups u hu
  exact ⟨hs, ⟨rfl, rfl, fun _ _ => .inl rfl, fun _ hj => hj⟩, rfl, rfl, hups'.symm,
    ⟨[], hnone, hall.symm, fun _ ht => absurd ht List.not_mem_nil, fun _ => rfl⟩,
    fun _ hc => absurd hc List.not_mem_nil, rfl⟩

/-- The thread in which a method is called. -/
def prepared (nil : V) (tm : H → V → V × Act E H V) (th : Thread H V) (t : Nat) (l : List Nat) : Thread H V :=
  { th with
    tbclist := l
    slots := Function.update (Function.update (Function.update th.slots th.top (tm th.heap (th.slots t)).1)
      (th.top + 1) (th.slots t)) (th.top + 2) nil
    top := th.top + 3 }

theorem prepared_slots {th : Thread H V} {t j : Nat} {l : List Nat} (hj : j < th.top) :
    (prepared nil tm th t l).slots j = th.slots j := by
  show Function.update (Function.update (Function.update _ _ _) _ _) _ _ j = _
  rw [Function.update_of_ne (by omega), Function.update_of_ne (by omega), Function.update_of_ne (by omega)]

/-- What a method leaves, after the last variable to close is taken from the list. -/
theorem CallPost.popped {level t : Nat} {l : List Nat} {th th₁ : Thread H V}
    (h : CallPost th.top (prepared nil tm th t l) th₁) (htbc : th.tbclist = t :: l) (hlt : ∀ t ∈ th.tbclist, t < th.top)
    (hle : level ≤ th.top) (ht : level ≤ t) :
    Kept level th th₁ ∧ ∀ t' ∈ l, th₁.slots t' = th.slots t' ∨ t' ∈ th₁.poked := by
  have hslots : ∀ j < th.top, th₁.slots j = th.slots j ∨ j ∈ th₁.poked := fun j hj => by
    rcases h.kept.slots j hj with heq | hmem
    · exact .inl (heq.trans (prepared_slots hj))
    · exact .inr hmem
  refine ⟨⟨?_, ?_, fun j hj => hslots j (by omega), h.kept.poked⟩,
    fun t' ht' => hslots t' (hlt t' (htbc ▸ List.mem_cons_of_mem _ ht'))⟩
  · rw [h.tbc, htbc, List.filter_cons_of_neg (by simpa using ht)]
    rfl
  · rw [h.ups]
    rfl

theorem run_closeLoop_cons {th : Thread H V} {level t : Nat} {l : List Nat} (htbc : th.tbclist = t :: l)
    (ht : level ≤ t) :
    run nil tm (n + 1) (.closeLoop level) th =
      match run nil tm n (.call th.top (tm th.heap (th.slots t)).2) (prepared nil tm th t l) with
      | some (th', some e, _) => some (th', some e, [⟨t, th.slots t, some e⟩])
      | some (th', none, _) =>
        match run nil tm n (.closeLoop level) { th' with top := th.top } with
        | some (th', e, cs) => some (th', e, ⟨t, th.slots t, none⟩ :: cs)
        | none => none
      | none => none := by
  rw [run, htbc]
  simp only [if_pos ht]
  rfl

theorem Good.closeLoop_succ (ih : Good nil tm n) (level : Nat) (th th' : Thread H V) (res : Option E)
    (cs : List (Closed E V)) (h : run nil tm (n + 1) (.closeLoop level) th = some (th', res, cs)) (hs : Sorted th)
    (htop : ∀ t ∈ th.tbclist, t < th.top) (hle : level ≤ th.top) (hups : ∀ u ∈ th.openupval, u < level) :
    LoopPost level th th' res cs := by
  cases htbc : th.tbclist with
  | nil =>
    rw [run, htbc] at h
    cases h
    exact .empty hs hups fun t ht => absurd (htbc ▸ ht) List.not_mem_nil
  | cons t l =>
    obtain ⟨ht, hl⟩ := List.pairwise_cons.mp (htbc ▸ hs.tbc)
    by_cases hlevel : level ≤ t
    swap
    · rw [run, htbc] at h
      simp only [if_neg hlevel] at h
      cases h
      refine .empty hs hups fun t' ht' => ?_
      rw [htbc] at ht'
      rcases List.mem_cons.mp ht' with rfl | hmem
      · omega
      · have := ht t' hmem
        omega
    rw [run_closeLoop_cons htbc hlevel] at h
    cases hr : run nil tm n (.call th.top (tm th.heap (th.slots t)).2)
      (prepared nil tm th t l) with
    | none =>
      rw [hr] at h
      cases h
    | some r =>
      obtain ⟨th₁, res₁, cs₁⟩ := r
      have hltl : ∀ t' ∈ l, t' < th.top := fun t' ht' => htop t' (htbc ▸ List.mem_cons_of_mem _ ht')
      have hpost := ih.call _ _ _ _ _ _ hr ⟨hs.ups, hl⟩ hltl fun u hu => Nat.lt_of_lt_of_le (hups u hu) hle
      obtain ⟨hkept, hvals⟩ := hpost.popped htbc htop hle hlevel
      have htbc₁ : th₁.tbclist = l := hpost.tbc
      have hups₁ : th₁.openupval = th.openupval := hpost.ups
      have hups' : (th.openupval.filter fun u => u < level) = th.openupval :=
        List.filter_eq_self.mpr fun u hu => by simpa using hups u hu
      have hfilter : (th.tbclist.filter fun t => level ≤ t) = t :: l.filter fun t => level ≤ t := by
        rw [htbc, List.filter_cons_of_pos (by simpa using hlevel)]
      have hbelow : (th.tbclist.filter fun t => t < level) = l.filter fun t => t < level := by
        rw [htbc, List.filter_cons_of_neg (by simpa using hlevel)]
      rw [hr] at h
      cases res₁ with
      | some e =>
        cases h
        refine ⟨hpost.sorted, hkept, hpost.ci, hpost.top, hups₁.trans hups'.symm,
          ⟨l.filter fun t => level ≤ t, hfilter, ?_, fun t' ht' => hvals t' (List.mem_filter.mp ht').1,
            fun he => (by cases he)⟩, fun c hc => .inl ?_, rfl⟩
        · rw [hbelow, split_desc hl, htbc₁]
        · rw [List.mem_singleton.mp hc]
      | none =>
        cases hr₂ : run nil tm n (.closeLoop level) { th₁ with top := th.top } with
        | none =>
          dsimp only at h
          rw [hr₂] at h
          cases h
        | some r₂ =>
          obtain ⟨th₂, res₂, cs₂⟩ := r₂
          dsimp only at h
          rw [hr₂] at h
          cases h
          have hpost₂ := ih.closeLoop _ _ _ _ _ hr₂ ⟨hpost.sorted.ups, hpost.sorted.tbc⟩
            (fun t' ht' => hltl t' (htbc₁ ▸ ht')) hle fun u hu => hups u (hups₁ ▸ hu)
          obtain ⟨rest, hsplit, hrest, hrestvals, hnil⟩ := hpost₂.split
          have hsplit' : (l.filter fun t => level ≤ t) = cs₂.map Closed.slot ++ rest := htbc₁ ▸ hsplit
          have hmem : ∀ t' ∈ cs₂.map Closed.slot ++ rest, t' ∈ l := fun t' ht' => by
            rw [← hsplit'] at ht'
            exact (List.mem_filter.mp ht').1
          refine ⟨hpost₂.sorted, hkept.trans hpost₂.kept.set_top, hpost₂.ci.trans hpost.ci, hpost₂.top,
            hpost₂.ups.trans (congrArg _ hups₁), ⟨rest, ?_, ?_, fun t' ht' => ?_, hnil⟩, fun c hc => ?_, ?_⟩
          · rw [hfilter, hsplit']
            rfl
          · rw [hrest, hbelow, ← htbc₁]
          · exact same_trans hpost₂.kept.poked (hrestvals t' ht')
              (hvals t' (hmem t' (List.mem_append.mpr (.inr ht'))))
          · rcases List.mem_cons.mp hc with rfl | hc
            · exact .inl rfl
            · exact same_trans hpost₂.kept.poked (hpost₂.values c hc)
                (hvals _ (hmem _ (List.mem_append.mpr (.inl (List.mem_map_of_mem hc)))))
          · exact hpost₂.errors

theorem Good.closeprotected_succ (ih : Good nil tm n) (level : Nat) (status : Option E) (th th' : Thread H V)
    (res : Option E) (cs : List (Closed E V))
    (h : run nil tm (n + 1) (.closeprotected level th.ci status) th = some (th', res, cs)) (hs : Sorted th)
    (htop : ∀ t ∈ th.tbclist, t < th.top) (hle : level ≤ th.top) : ProtPost level status th th' res cs := by
  rw [run] at h
  cases hr : run nil tm n (.close level) th with
  | none =>
    rw [hr] at h
    cases h
  | some r =>
    obtain ⟨th₁, res₁, cs₁⟩ := r
    have hpost := ih.close _ _ _ _ _ hr hs htop hle
    obtain ⟨rest, hsplit, htbc, hrest, hnil⟩ := hpost.split
    rw [hr] at h
    cases res₁ with
    | none =>
      cases h
      rw [hnil rfl, List.nil_append] at htbc
      rw [hnil rfl, List.append_nil] at hsplit
      exact ⟨hpost.sorted, hpost.kept, hpost.ci, hpost.ups, htbc, hsplit.symm, hpost.values, by
        rw [hpost.errors]
        rfl⟩
    | some e =>
      dsimp only at h
      have hci : { th₁ with ci := th.ci } = th₁ := by rw [← hpost.ci]
      rw [hci, ← hpost.ci] at h
      cases hr₂ : run nil tm n (.closeprotected level th₁.ci (some e)) th₁ with
      | none =>
        rw [hr₂] at h
        cases h
      | some r₂ =>
        obtain ⟨th₂, res₂, cs₂⟩ := r₂
        rw [hr₂] at h
        cases h
        have hpost₂ := ih.closeprotected _ _ _ _ _ _ hr₂ hpost.sorted (fun t ht => by
          rw [hpost.top]
          exact htop t (hpost.tbc_mem t ht)) (by rw [hpost.top]; exact hle)
        have hrestle : (th₁.tbclist.filter fun t => level ≤ t) = rest := by
          have hall : ∀ t ∈ rest, level ≤ t := fun t ht => by
            have hmem : t ∈ th.tbclist.filter fun t => level ≤ t := by
              rw [hsplit]
              exact List.mem_append.mpr (.inr ht)
            simpa using (List.mem_filter.mp hmem).2
          rw [htbc, List.filter_append, List.filter_eq_self.mpr fun t ht => by simpa using hall t ht,
            List.filter_eq_nil_iff.mpr fun t ht => by simpa using (List.mem_filter.mp ht).2, List.append_nil]
        refine ⟨hpost₂.sorted, hpost.kept.trans hpost₂.kept, hpost₂.ci.trans hpost.ci, ?_,
          hpost₂.tbc.trans hpost.kept.tbc, ?_, fun c hc => ?_, ?_⟩
        · rw [hpost₂.ups, hpost.ups, filter_filter_below (Nat.le_refl _)]
        · rw [List.map_append, hpost₂.slots, hrestle, hsplit]
        · rcases List.mem_append.mp hc with hc | hc
          · exact (hpost.values c hc).imp_right (hpost₂.kept.poked _)
          · have hmem : c.slot ∈ cs₂.map Closed.slot := List.mem_map_of_mem hc
            rw [hpost₂.slots, hrestle] at hmem
            exact same_trans hpost₂.kept.poked (hpost₂.values c hc) (hrest _ hmem)
        · have herrors : errors (cs₁ ++ cs₂) = e :: errors cs₂ := by
            rw [errors, List.filterMap_append, ← errors, ← errors, hpost.errors]
            rfl
          rw [hpost₂.result, herrors, List.getLast?_cons]
          cases (errors cs₂).getLast? <;> rfl

/-! ### Calls -/

/-- `luaD_call` returns what the function leaves, or closes what it leaves behind. -/
theorem call_cases {func : Nat} {body : Act E H V} {th th' : Thread H V} {res : Option E} {cs : List (Closed E V)}
    (h : run nil tm (n + 1) (.call func body) th = some (th', res, cs)) :
    (∃ th₁ cs₁, run nil tm n (.act (func + 1) body) { th with ci := func :: th.ci } = some (th₁, none, cs₁) ∧
      th' = { th₁ with top := func } ∧ res = none) ∨
    ∃ th₁ e₁ cs₁ th₂,
      run nil tm n (.act (func + 1) body) { th with ci := func :: th.ci } = some (th₁, some e₁, cs₁) ∧
      run nil tm n (.closeprotected func th.ci (some e₁)) { th₁ with ci := th.ci } = some (th₂, res, cs) ∧
      th' = { th₂ with top := func } := by
  rw [run] at h
  cases hr : run nil tm n (.act (func + 1) body) { th with ci := func :: th.ci } with
  | none =>
    rw [hr] at h
    cases h
  | some r =>
    obtain ⟨th₁, res₁, cs₁⟩ := r
    rw [hr] at h
    cases res₁ with
    | none =>
      cases h
      exact .inl ⟨th₁, cs₁, rfl, rfl, rfl⟩
    | some e₁ =>
      cases hr₂ : run nil tm n (.closeprotected func th.ci (some e₁)) { th₁ with ci := th.ci } with
      | none =>
        dsimp only at h
        rw [hr₂] at h
        cases h
      | some r₂ =>
        obtain ⟨th₂, res₂, cs₂⟩ := r₂
        dsimp only at h
        rw [hr₂] at h
        cases h
        exact .inr ⟨th₁, e₁, cs₁, th₂, rfl, hr₂, rfl⟩

/-- A function that fails, and then `luaD_closeprotected`. -/
theorem Good.unwind (ih : Good nil tm n) {func : Nat} {body : Act E H V} {th th₁ th₂ : Thread H V} {e : E}
    {res : Option E} {cs₁ cs : List (Closed E V)} (hs : Sorted th)
    (h : run nil tm n (.act (func + 1) body) { th with ci := func :: th.ci } = some (th₁, some e, cs₁))
    (h' : run nil tm n (.closeprotected func th.ci (some e)) { th₁ with ci := th.ci } = some (th₂, res, cs)) :
    Kept func th th₁ ∧ Sorted th₁ ∧ ProtPost func (some e) { th₁ with ci := th.ci } th₂ res cs := by
  have hpost := ih.act _ _ _ _ _ _ h ⟨hs.ups, hs.tbc⟩
  obtain ⟨hlt, hle⟩ := hpost.fails e rfl
  exact ⟨hpost.kept.set_ci.mono (Nat.le_succ _), hpost.sorted,
    ih.closeprotected func (some e) { th₁ with ci := th.ci } _ _ _ h' ⟨hpost.sorted.ups, hpost.sorted.tbc⟩ hlt
      (Nat.le_of_succ_le hle)⟩

theorem Good.call_succ (ih : Good nil tm n) (func : Nat) (body : Act E H V) (th th' : Thread H V)
    (res : Option E) (cs : List (Closed E V)) (h : run nil tm (n + 1) (.call func body) th = some (th', res, cs))
    (hs : Sorted th) (htbc : ∀ t ∈ th.tbclist, t < func) (hups : ∀ u ∈ th.openupval, u < func) :
    CallPost func th th' := by
  have hall : ∀ {l : List Nat} {k : Nat}, (∀ t ∈ l, t < func) → func ≤ k → (l.filter fun t => t < k) = l :=
    fun hl hk => List.filter_eq_self.mpr fun t ht => by
      have := hl t ht
      simpa using (show t < _ by omega)
  obtain ⟨th₁, cs₁, hr, rfl, -⟩ | ⟨th₁, e₁, cs₁, th₂, hr, hr₂, rfl⟩ := call_cases h
  · have hpost := ih.act _ _ _ _ _ _ hr ⟨hs.ups, hs.tbc⟩
    have hkept : Kept func th th₁ := hpost.kept.set_ci.mono (Nat.le_succ _)
    obtain ⟨hci, hlt, hlt'⟩ := hpost.returns rfl
    have htbc₁ : th₁.tbclist = th.tbclist :=
      calc th₁.tbclist = th₁.tbclist.filter fun t => t < func + 1 :=
            (List.filter_eq_self.mpr fun t ht => by simpa using hlt t ht).symm
        _ = th.tbclist.filter fun t => t < func + 1 := hpost.kept.tbc
        _ = th.tbclist := hall htbc (Nat.le_succ _)
    have hups₁ : th₁.openupval = th.openupval :=
      calc th₁.openupval = th₁.openupval.filter fun u => u < func + 1 :=
            (List.filter_eq_self.mpr fun u hu => by simpa using hlt' u hu).symm
        _ = th.openupval.filter fun u => u < func + 1 := hpost.kept.ups
        _ = th.openupval := hall hups (Nat.le_succ _)
    exact ⟨⟨hpost.sorted.ups, hpost.sorted.tbc⟩, ⟨hkept.tbc, hkept.ups, hkept.slots, hkept.poked⟩, hci,
      rfl, hups₁, htbc₁⟩
  · obtain ⟨hkept, -, hpost⟩ := ih.unwind hs hr hr₂
    have hkept₂ := hkept.trans hpost.kept.set_ci
    exact ⟨⟨hpost.sorted.ups, hpost.sorted.tbc⟩, ⟨hkept₂.tbc, hkept₂.ups, hkept₂.slots, hkept₂.poked⟩, hpost.ci, rfl,
      hpost.ups.trans (hkept.ups.trans (hall hups (Nat.le_refl _))),
      hpost.tbc.trans (hkept.tbc.trans (hall htbc (Nat.le_refl _)))⟩

end Steps

theorem good (n : Nat) : Good nil tm n := by
  induction n with
  | zero => exact ⟨fun _ _ _ _ _ _ h => (by cases h), fun _ _ _ _ _ h => (by cases h),
      fun _ _ _ _ _ h => (by cases h), fun _ _ _ _ _ _ h => (by cases h), fun _ _ _ _ _ _ h => (by cases h)⟩
  | succ n ih => exact ⟨ih.act_succ, ih.close_succ, ih.closeLoop_succ, ih.closeprotected_succ, ih.call_succ⟩

/-- A call that fails leaves the call infos of the caller, and nothing at or above the function; every variable that was
to be closed is closed once, the last first, and the last error is reported. -/
theorem call_unwinds (n func : Nat) (body : Act E H V) (th th' : Thread H V) (e : E) (cs : List (Closed E V))
    (h : run nil tm n (.call func body) { th with poked := [] } = some (th', some e, cs)) (hs : Sorted th)
    (htbc : ∀ t ∈ th.tbclist, t < func) (hups : ∀ u ∈ th.openupval, u < func) :
    th'.ci = th.ci ∧ th'.top = func ∧ (∀ u ∈ th'.openupval, u < func) ∧ (∀ t ∈ th'.tbclist, t < func) ∧
      (∀ j < func, th'.slots j = th.slots j ∨ j ∈ th'.poked) ∧
      ∃ m th₁ e₁ cs₁,
        run nil tm m (.act (func + 1) body) { th with ci := func :: th.ci, poked := [] } =
          some (th₁, some e₁, cs₁) ∧
        cs.map Closed.slot = (th₁.tbclist.filter fun t => func ≤ t) ∧ th₁.tbclist.Pairwise (· > ·) ∧
        (∀ c ∈ cs, c.value = th₁.slots c.slot ∨ c.slot ∈ th'.poked) ∧ some e = (errors cs).getLast?.or (some e₁) := by
  cases n with
  | zero => cases h
  | succ n =>
    have hs' : Sorted { th with poked := [] } := ⟨hs.ups, hs.tbc⟩
    have hpost := (good nil tm (n + 1)).call _ _ _ _ _ _ h hs' htbc hups
    obtain ⟨_, _, _, _, hres⟩ | ⟨th₁, e₁, cs₁, th₂, hr, hr₂, rfl⟩ := call_cases h
    · cases hres
    obtain ⟨_, hsorted, hprot⟩ := (good nil tm n).unwind hs' hr hr₂
    refine ⟨hpost.ci, hpost.top, fun u hu => ?_, fun t ht => ?_, hpost.kept.slots, n, th₁, e₁, cs₁, hr, hprot.slots,
      hsorted.tbc, hprot.values, hprot.result⟩
    · rw [hpost.ups] at hu
      exact hups u hu
    · rw [hpost.tbc] at ht
      exact htbc t ht

/-- A value whose method fails with it, unless it is zero. -/
def failing (_ : Unit) (v : Nat) : Nat × Act Nat Unit Nat := (v, if v = 0 then .done 0 else .fail v 0)

/-- Two variables to close, an upvalue for the first, and an error. -/
def closing : Act Nat Unit Nat :=
  .write 0 7 <| .tbc 0 <| .capture 0 <| .write 1 0 <| .tbc 1 <| .fail 1 2

/-- The method of the second variable returns, that of the first fails with `7`. -/
theorem call_unwinds_closing :
    ∃ th' cs, run 0 failing 12 (.call 3 closing) ⟨[0], 4, [2], [1], fun _ => 0, [], ()⟩ = some (th', some 7, cs) ∧
      th'.ci = [0] ∧ th'.top = 3 ∧ (∀ u ∈ th'.openupval, u < 3) ∧ (∀ t ∈ th'.tbclist, t < 3) ∧
      cs.map Closed.slot = [5, 4] := by
  have hmem : ∀ {k : Nat}, k < 3 → ∀ t ∈ [k], t < 3 := fun hk t ht => by rwa [List.mem_singleton.mp ht]
  obtain ⟨hci, htop, hups, htbc, _⟩ := call_unwinds 0 failing 12 3 closing ⟨[0], 4, [2], [1], fun _ => 0, [], ()⟩ _ 7 _
    rfl ⟨List.pairwise_singleton _ _, List.pairwise_singleton _ _⟩ (hmem (by decide)) (hmem (by decide))
  exact ⟨_, _, rfl, hci, htop, hups, htbc, rfl⟩

end Tsuki.Unwind
