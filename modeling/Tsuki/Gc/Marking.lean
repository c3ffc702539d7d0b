import Tsuki.Gc.Reach
import Tsuki.Gc.Debt

/-!
# Marking

What every function of the collector does to a graph of objects: only what is reachable is marked, and what is marked is
in a list until all that it refers to is marked.
-/

namespace Tsuki.Collector

variable {b : Graph} {P : Nat → Prop} {g g' g'' : Gc}

def Gc.body (g : Gc) (o : Nat) : Option Body := (g.object o).map Object.body

def Gc.marked (g : Gc) (o : Nat) : Bool := (g.object o).any fun h => !h.color.isWhite

/-- The collector holds the graph. -/
structure Holds (b : Graph) (g : Gc) : Prop where
  view : ∀ o, (g.body o).map Body.view = (b o).map Body.view
  none : ∀ o, g.count ≤ o → g.object o = none

/-- Objects that are put in a list when they are marked. -/
def Body.Listed : Body → Prop
  | .table _ | .luaFn _ _ | .rustFn _ | .proto _ _ _ _ | .thread _ _ | .collection _ => True
  | _ => False

/-- All that an object refers to strongly is marked. -/
def Closed (b : Graph) (g : Gc) (o : Nat) : Prop := ∀ c, b o = some c → ∀ x ∈ c.strong, g.marked x = true

/-- Only an underflow of the debt, which is ruled out elsewhere, is recorded. -/
def Clean (g : Gc) : Prop := ∀ s ∈ g.stops, s = .underflow

/-- How many objects are white. -/
def Gc.unmarked (g : Gc) : Nat := (List.range g.count).countP g.white

/-- The removed entries of a table have no key. -/
def Tidy (g : Gc) (o : Nat) : Prop := ∀ t, g.body o = some (.table t) → ∀ n ∈ t.node, n.val = .nil → n.key.refs = []

/-- What each list holds. -/
def InList (b : Graph) (P : Nat → Prop) (g : Gc) (l : GcList) (o : Nat) : Prop :=
  P o ∧ g.marked o = true ∧
    match l with
    | .gray | .grayagain => ∃ c, b o = some c ∧ c.Listed
    | .weak => ∃ t, b o = some (.table t) ∧ t.weakKeys = false ∧ t.weakVals = true
    | .ephemeron => Closed b g o ∧ Tidy g o ∧ ∃ t, b o = some (.table t) ∧ t.weakKeys = true ∧ t.weakVals = false ∧
        ∀ n ∈ t.entries, ∀ k ∈ n.key.refs, b k = some .str → g.marked k = true
    | .allweak => ∃ t, b o = some (.table t) ∧ t.weakKeys = true ∧
        (t.weakVals = false → Closed b g o ∧ Tidy g o ∧ ∀ n ∈ t.entries, ∀ x ∈ n.val.refs, g.marked x = true)

/-- A step of marking. -/
structure Step (b : Graph) (P : Nat → Prop) (g g' : Gc) : Prop where
  view : ∀ o, (g'.body o).map Body.view = (g.body o).map Body.view
  mono : ∀ o, g.marked o = true → g'.marked o = true
  tidy : ∀ o, Tidy g o → Tidy g' o
  new : ∀ o, g'.marked o = true → g.marked o = true ∨ P o ∧ (o ∈ g'.list .gray ∨
    Closed b g' o ∧ ∀ c, b o = some c → ¬c.Listed)
  list : ∀ l, ∃ os, g'.list l = os ++ g.list l ∧ ∀ o ∈ os, InList b P g' l o
  state : g'.state = g.state
  refs : g'.refs = g.refs
  markedRefs : g'.markedRefs = g.markedRefs
  root : g'.root = g.root
  count : g'.count = g.count
  twups : ∀ th ∈ g'.twups, th ∈ g.twups ∨ ∃ stack us, b th = some (.thread stack us)
  clean : Clean g → Clean g'
  unmarked : g'.unmarked + (g'.list .gray).length ≤ g.unmarked + (g.list .gray).length

theorem Closed.mono {o : Nat} (h : Closed b g o) (hm : ∀ x, g.marked x = true → g'.marked x = true) : Closed b g' o :=
  fun c hc x hx => hm x (h c hc x hx)

theorem InList.mono {l : GcList} {o : Nat} (h : InList b P g l o) (hm : ∀ x, g.marked x = true → g'.marked x = true)
    (htidy : ∀ x, Tidy g x → Tidy g' x) : InList b P g' l o := by
  obtain ⟨hp, ho, hl⟩ := h
  refine ⟨hp, hm o ho, ?_⟩
  cases l with
  | allweak =>
    obtain ⟨t, ht, hk, hv⟩ := hl
    refine ⟨t, ht, hk, fun hf => ?_⟩
    obtain ⟨hc, hd, hv⟩ := hv hf
    exact ⟨hc.mono hm, htidy o hd, fun n hn x hx => hm x (hv n hn x hx)⟩
  | gray => exact hl
  | grayagain => exact hl
  | weak => exact hl
  | ephemeron =>
    obtain ⟨hc, hd, t, ht, hk, hv, hs⟩ := hl
    exact ⟨hc.mono hm, htidy o hd, t, ht, hk, hv, fun n hn k hkr hstr => hm k (hs n hn k hkr hstr)⟩

theorem Step.refl (g : Gc) : Step b P g g where
  view _ := rfl
  mono _ := id
  tidy _ := id
  new _ := .inl
  list _ := ⟨[], rfl, nofun⟩
  state := rfl
  refs := rfl
  markedRefs := rfl
  root := rfl
  count := rfl
  twups _ := .inl
  clean := id
  unmarked := Nat.le_refl _

theorem Step.mem {l : GcList} {o : Nat} (h : Step b P g g') (ho : o ∈ g.list l) : o ∈ g'.list l := by
  obtain ⟨os, hos, -⟩ := h.list l
  rw [hos]
  exact List.mem_append_right _ ho

theorem Step.trans (h : Step b P g g') (h' : Step b P g' g'') : Step b P g g'' where
  view o := (h'.view o).trans (h.view o)
  mono o ho := h'.mono o (h.mono o ho)
  tidy o ho := h'.tidy o (h.tidy o ho)
  new o ho := by
    rcases h'.new o ho with ho | hnew
    · rcases h.new o ho with ho | ⟨hp, hgray | ⟨hc, hl⟩⟩
      · exact .inl ho
      · exact .inr ⟨hp, .inl (h'.mem hgray)⟩
      · exact .inr ⟨hp, .inr ⟨hc.mono h'.mono, hl⟩⟩
    · exact .inr hnew
  list l := by
    obtain ⟨os, hos, hin⟩ := h.list l
    obtain ⟨os', hos', hin'⟩ := h'.list l
    refine ⟨os' ++ os, by rw [hos', hos, List.append_assoc], fun o ho => ?_⟩
    rcases List.mem_append.mp ho with ho | ho
    · exact hin' o ho
    · exact (hin o ho).mono h'.mono h'.tidy
  state := h'.state.trans h.state
  refs := h'.refs.trans h.refs
  markedRefs := h'.markedRefs.trans h.markedRefs
  root := h'.root.trans h.root
  count := h'.count.trans h.count
  twups th hth := by
    rcases h'.twups th hth with hth | hth
    · exact h.twups th hth
    · exact .inr hth
  clean hc := h'.clean (h.clean hc)
  unmarked := Nat.le_trans h'.unmarked h.unmarked

theorem marked_of_view (hv : ∀ o, (g'.body o).map Body.view = (g.body o).map Body.view) (o : Nat) :
    (g'.object o).isSome = (g.object o).isSome := by
  have h := congrArg Option.isSome (hv o)
  rw [Option.isSome_map, Option.isSome_map] at h
  unfold Gc.body at h
  rwa [Option.isSome_map, Option.isSome_map] at h

theorem Step.holds (h : Step b P g g') (hb : Holds b g) : Holds b g' where
  view o := (h.view o).trans (hb.view o)
  none o ho := by
    rw [h.count] at ho
    have hs := marked_of_view h.view o
    rw [hb.none o ho] at hs
    exact Option.not_isSome_iff_eq_none.mp (by rw [hs]; exact Bool.false_ne_true)

/-- What is done with each of the elements of a list. -/
theorem Step.foldl {α : Type} {f : Gc → α → Gc} {r : α → List Nat}
    (hf : ∀ g a, Holds b g → (∀ x ∈ r a, P x ∧ Markable b x) →
      Step b P g (f g a) ∧ ∀ x ∈ r a, (f g a).marked x = true) (l : List α) :
    ∀ {g : Gc}, Holds b g → (∀ a ∈ l, ∀ x ∈ r a, P x ∧ Markable b x) →
      Step b P g (l.foldl f g) ∧ ∀ x ∈ l.flatMap r, (l.foldl f g).marked x = true := by
  induction l with
  | nil => exact fun _ _ => ⟨.refl _, nofun⟩
  | cons a l ih =>
    intro g hb hl
    obtain ⟨h₁, hm₁⟩ := hf g a hb (hl a List.mem_cons_self)
    obtain ⟨h₂, hm₂⟩ := ih (h₁.holds hb) fun a' ha' => hl a' (List.mem_cons_of_mem _ ha')
    refine ⟨h₁.trans h₂, fun x hx => ?_⟩
    rw [List.flatMap_cons] at hx
    rcases List.mem_append.mp hx with hx | hx
    · exact h₂.mono x (hm₁ x hx)
    · exact hm₂ x hx

/-! ## Objects -/

theorem body_iff_view (hb : Holds b g) {o : Nat} {c : Body} (hc : b o = some c) (ht : ∀ t, c ≠ .table t) :
    g.body o = some c := by
  have hv := hb.view o
  rw [hc] at hv
  obtain ⟨c', hc', heq⟩ := Option.map_eq_some_iff.mp hv
  rw [hc', view_other heq ht]

theorem body_table (hb : Holds b g) {o : Nat} {t : Table} (hc : b o = some (.table t)) :
    ∃ t', g.body o = some (.table t') ∧ t'.entries = t.entries ∧ t'.weakKeys = t.weakKeys ∧ t'.weakVals = t.weakVals ∧
      t'.metatable = t.metatable ∧ t'.array = t.array := by
  have hv := hb.view o
  rw [hc] at hv
  obtain ⟨c', hc', heq⟩ := Option.map_eq_some_iff.mp hv
  obtain ⟨t', rfl, hrest⟩ := view_table heq
  exact ⟨t', hc', hrest⟩

theorem object_of_body {o : Nat} {c : Body} (h : g.body o = some c) : ∃ k, g.object o = some ⟨c, k⟩ := by
  obtain ⟨⟨c', k⟩, hobj, rfl⟩ := Option.map_eq_some_iff.mp h
  exact ⟨k, hobj⟩

theorem marked_paint {o : Nat} {c : Color} (hc : c.isWhite = false) (x : Nat) :
    (g.paint o c).marked x = if x = o then (g.object x).isSome else g.marked x := by
  unfold Gc.marked
  by_cases hx : x = o
  · subst hx
    rw [Gc.object_paint_self, if_pos rfl]
    cases g.object x <;> simp [hc]
  · rw [Gc.object_paint_of_ne _ _ hx, if_neg hx]

theorem marked_of_white {o : Nat} (h : (g.object o).isSome) (hw : g.white o = false) : g.marked o = true := by
  obtain ⟨x, hx⟩ := Option.isSome_iff_exists.mp h
  rw [Gc.white, hx] at hw
  have hw : x.color.isWhite = false := hw
  rw [Gc.marked, hx]
  show (!x.color.isWhite) = true
  rw [hw]
  rfl

theorem white_isSome {o : Nat} (h : g.white o = true) : (g.object o).isSome := by
  unfold Gc.white at h
  cases hobj : g.object o with
  | none => simp [hobj] at h
  | some _ => rfl

theorem not_marked_of_white {o : Nat} (h : g.white o = true) : g.marked o = false := by
  obtain ⟨x, hx⟩ := Option.isSome_iff_exists.mp (white_isSome h)
  rw [Gc.white, hx] at h
  have h : x.color.isWhite = true := h
  rw [Gc.marked, hx]
  show (!x.color.isWhite) = false
  rw [h]
  rfl

theorem body_paint (o : Nat) (c : Color) (x : Nat) : (g.paint o c).body x = g.body x := by
  unfold Gc.body
  by_cases hx : x = o
  · subst hx
    rw [Gc.object_paint_self, Option.map_map]
    rfl
  · rw [Gc.object_paint_of_ne _ _ hx]

theorem Tidy.congr {o : Nat} (h : Tidy g o) (hbody : g'.body o = g.body o) : Tidy g' o := by
  unfold Tidy
  rwa [hbody]

theorem tidy_paint {o : Nat} {c : Color} (x : Nat) (h : Tidy g x) : Tidy (g.paint o c) x := h.congr (body_paint o c x)

theorem marked_mono_paint {o : Nat} {c : Color} (hc : c.isWhite = false) (x : Nat) (h : g.marked x = true) :
    (g.paint o c).marked x = true := by
  rw [marked_paint hc]
  split
  · unfold Gc.marked at h
    cases hobj : g.object x with
    | none => simp [hobj] at h
    | some _ => rfl
  · exact h

theorem unmarked_paint (hb : Holds b g) {o : Nat} {c : Color} (hc : c.isWhite = false) (ho : g.white o = true) :
    (g.paint o c).unmarked + 1 = g.unmarked := by
  refine countP_drop ho (by rw [white_paint hc, if_pos rfl]) (fun x hx => by rw [white_paint hc, if_neg hx])
    List.nodup_range ?_
  rw [List.mem_range]
  by_contra hle
  have hsome := white_isSome ho
  rw [hb.none o (Nat.le_of_not_lt hle)] at hsome
  cases hsome

theorem unmarked_paint_le {o : Nat} {c : Color} (hc : c.isWhite = false) : (g.paint o c).unmarked ≤ g.unmarked := by
  refine List.countP_mono_left fun x _ hx => ?_
  rw [white_paint hc] at hx
  by_cases hxo : x = o
  · rw [if_pos hxo] at hx
    cases hx
  · rwa [if_neg hxo] at hx

theorem Clean.fail_underflow (h : Clean g) : Clean (g.fail .underflow) := by
  intro s hs
  rcases List.mem_cons.mp hs with rfl | hs
  · rfl
  · exact h s hs

theorem Step.charge : Step b P g g.charge := by
  have same : ∀ {g' : Gc}, g'.object = g.object → g'.list = g.list → g'.state = g.state → g'.refs = g.refs →
      g'.markedRefs = g.markedRefs → g'.root = g.root → g'.count = g.count → g'.twups = g.twups →
      (Clean g → Clean g') → Step b P g g' := by
    intro g' ho hl hs hr hmr hroot hc ht hclean
    have hm : g'.marked = g.marked := by
      funext x
      rw [Gc.marked, ho, Gc.marked]
    have hw : g'.white = g.white := by
      funext x
      rw [Gc.white, ho, Gc.white]
    have hb : ∀ o, g'.body o = g.body o := fun o => by rw [Gc.body, ho, Gc.body]
    refine ⟨fun o => by rw [hb], fun o h => by rwa [hm], fun o h => h.congr (hb o), fun o h => .inl (by rwa [hm] at h),
      fun l => ⟨[], by rw [hl]; rfl, (by simp)⟩, hs, hr, hmr, hroot, hc, fun th h => .inl (ht ▸ h), hclean, ?_⟩
    refine Nat.le_of_eq ?_
    rw [Gc.unmarked, hw, hc, hl, Gc.unmarked]
  unfold Gc.charge
  split
  · exact same rfl rfl rfl rfl rfl rfl rfl rfl Clean.fail_underflow
  · exact same rfl rfl rfl rfl rfl rfl rfl rfl id

theorem Holds.paint (hb : Holds b g) (o : Nat) (c : Color) : Holds b (g.paint o c) where
  view x := (congrArg (Option.map Body.view) (body_paint o c x)).trans (hb.view x)
  none x hx := by
    by_cases hxo : x = o
    · subst hxo
      rw [Gc.object_paint_self, hb.none x hx]
      rfl
    · rw [Gc.object_paint_of_ne _ _ hxo, hb.none x hx]

/-- An object is marked before what it refers to is. -/
theorem Step.after_paint {o : Nat} {c : Color} (hc : c.isWhite = false) (h : Step b P (g.paint o c) g') (hp : P o)
    (hclosed : Closed b g' o) (hl : ∀ c, b o = some c → ¬c.Listed) : Step b P g g' where
  view x := (h.view x).trans (congrArg (Option.map Body.view) (body_paint o c x))
  mono x hx := h.mono x (marked_mono_paint hc x hx)
  tidy x hx := h.tidy x (tidy_paint x hx)
  new x hx := by
    by_cases hxo : x = o
    · subst hxo
      exact .inr ⟨hp, .inr ⟨hclosed, hl⟩⟩
    · rcases h.new x hx with hx | hnew
      · rw [marked_paint hc, if_neg hxo] at hx
        exact .inl hx
      · exact .inr hnew
  list := h.list
  state := h.state
  refs := h.refs
  markedRefs := h.markedRefs
  root := h.root
  count := h.count
  twups := h.twups
  clean := h.clean
  unmarked := Nat.le_trans h.unmarked (Nat.add_le_add_right (unmarked_paint_le hc) _)

/-- An object that refers to nothing that is not marked. -/
theorem Step.paint {o : Nat} {c : Color} (hc : c.isWhite = false) (hp : P o) (hclosed : Closed b (g.paint o c) o)
    (hl : ∀ c, b o = some c → ¬c.Listed) : Step b P g (g.paint o c) :=
  .after_paint hc (.refl _) hp hclosed hl

theorem list_setList_self {l : GcList} {os : List Nat} : (g.setList l os).list l = os := Function.update_self ..

theorem list_setList_of_ne {l l' : GcList} {os : List Nat} (h : l' ≠ l) : (g.setList l os).list l' = g.list l' :=
  Function.update_of_ne h ..

theorem marked_setList {l : GcList} {os : List Nat} : (g.setList l os).marked = g.marked := rfl

theorem list_link_self {o : Nat} {l : GcList} : (g.link o l).list l = o :: g.list l := by
  show Function.update g.list l (o :: g.list l) l = _
  exact Function.update_self ..

theorem list_link_of_ne {o : Nat} {l l' : GcList} (h : l' ≠ l) : (g.link o l).list l' = g.list l' := by
  show Function.update g.list l (o :: g.list l) l' = _
  exact Function.update_of_ne h ..

theorem marked_link {o : Nat} {l : GcList} : (g.link o l).marked = (g.paint o .gray).marked := rfl

/-- A white object is put in the list of gray ones. -/
theorem Step.linkGray (hb : Holds b g) {o : Nat} (hw : g.white o = true) (hp : P o)
    (hl : ∃ c, b o = some c ∧ c.Listed) : Step b P g (g.link o .gray) where
  view x := congrArg (Option.map Body.view) (body_paint o .gray x)
  mono := marked_mono_paint rfl
  tidy := tidy_paint
  new x hx := by
    by_cases hxo : x = o
    · subst hxo
      refine .inr ⟨hp, .inl ?_⟩
      rw [list_link_self]
      exact List.mem_cons_self
    · rw [marked_link, marked_paint rfl, if_neg hxo] at hx
      exact .inl hx
  list l := by
    by_cases h : l = .gray
    · subst h
      refine ⟨[o], list_link_self, fun x hx => ?_⟩
      obtain rfl := List.mem_singleton.mp hx
      refine ⟨hp, ?_, hl⟩
      rw [marked_link, marked_paint rfl, if_pos rfl]
      exact white_isSome hw
    · exact ⟨[], list_link_of_ne h, nofun⟩
  state := rfl
  refs := rfl
  markedRefs := rfl
  root := rfl
  count := rfl
  twups _ := .inl
  clean := id
  unmarked := by
    have hone := unmarked_paint hb (c := .gray) rfl hw
    show (g.paint o .gray).unmarked + ((g.link o .gray).list .gray).length ≤ _
    rw [list_link_self, List.length_cons]
    omega

/-- An object that is marked is put in another list. -/
theorem Step.link {o : Nat} {l : GcList} (hl : l ≠ .gray) (hin : InList b P g l o) : Step b P g (g.link o l) where
  view x := congrArg (Option.map Body.view) (body_paint o .gray x)
  mono := marked_mono_paint rfl
  tidy := tidy_paint
  new x hx := by
    by_cases hxo : x = o
    · exact .inl (hxo ▸ hin.2.1)
    · rw [marked_link, marked_paint rfl, if_neg hxo] at hx
      exact .inl hx
  list l' := by
    by_cases h : l' = l
    · subst h
      refine ⟨[o], list_link_self, fun x hx => ?_⟩
      obtain rfl := List.mem_singleton.mp hx
      exact hin.mono (marked_mono_paint rfl) tidy_paint
    · exact ⟨[], list_link_of_ne h, nofun⟩
  state := rfl
  refs := rfl
  markedRefs := rfl
  root := rfl
  count := rfl
  twups _ := .inl
  clean := id
  unmarked := by
    show (g.paint o .gray).unmarked + ((g.link o l).list .gray).length ≤ _
    rw [list_link_of_ne hl.symm]
    exact Nat.add_le_add_right (unmarked_paint_le rfl) _

/-! ## Visits -/

/-- What is marked with an object is all right to mark. -/
structure Sound (b : Graph) (P : Nat → Prop) : Prop where
  strong : ∀ {o c x}, P o → b o = some c → x ∈ c.strong → P x
  weakVal : ∀ {o t n x}, P o → b o = some (.table t) → t.weakKeys = false → t.weakVals = true → n ∈ t.entries →
    x ∈ n.val.refs → b x = some .str → P x
  ephemeronKey : ∀ {o t n k}, P o → b o = some (.table t) → t.weakKeys = true → t.weakVals = false → n ∈ t.entries →
    k ∈ n.key.refs → b k = some .str → P k
  ephemeronVal : ∀ {o t n x}, P o → b o = some (.table t) → t.weakKeys = true → t.weakVals = false → n ∈ t.entries →
    (∀ k ∈ n.key.refs, b k = some .str ∨ P k) → x ∈ n.val.refs → P x
  wf : WellFormed b

theorem Sound.markable (hs : Sound b P) {o x : Nat} {c : Body} (hc : b o = some c) (hx : x ∈ c.strong) : Markable b x :=
  hs.wf.refs hc (strong_subset_refs hx)

theorem isSome_of_markable (hb : Holds b g) {o : Nat} (h : Markable b o) : (g.object o).isSome := by
  obtain ⟨c, hc, -⟩ := h
  have hv := hb.view o
  rw [hc] at hv
  obtain ⟨c', hc', -⟩ := Option.map_eq_some_iff.mp hv
  obtain ⟨k, hk⟩ := object_of_body hc'
  rw [hk]
  rfl

/-- The mark of a visit, or that nothing is done. -/
theorem visitWith_step {mark : Gc → Nat → Gc} {o : Nat} (hsome : (g.object o).isSome)
    (h : g.white o = true → Step b P g (mark g o) ∧ (mark g o).marked o = true) :
    Step b P g (g.visitWith mark o) ∧ (g.visitWith mark o).marked o = true := by
  obtain ⟨x, hx⟩ := Option.isSome_iff_exists.mp hsome
  unfold Gc.visitWith
  rw [hx]
  dsimp only
  split
  · rename_i hw
    exact h (by rw [Gc.white, hx]; exact hw)
  · rename_i hw
    exact ⟨.refl g, marked_of_white hsome (by rw [Gc.white, hx]; exact Bool.eq_false_iff.mpr hw)⟩

theorem linkGray_step (hb : Holds b g) {o : Nat} (hw : g.white o = true) (hp : P o) (hl : ∃ c, b o = some c ∧ c.Listed) :
    Step b P g (g.link o .gray) ∧ (g.link o .gray).marked o = true := by
  refine ⟨.linkGray hb hw hp hl, ?_⟩
  rw [marked_link, marked_paint rfl, if_pos rfl]
  exact white_isSome hw

theorem optWith_step (f : Gc → Nat → Gc) (p : Option Nat) (hb : Holds b g) (hm : ∀ x ∈ p.toList, Markable b x)
    (h : ∀ o ∈ p.toList, g.white o = true → Step b P g (f g o) ∧ (f g o).marked o = true) :
    Step b P g (g.optWith f p) ∧ ∀ x ∈ p.toList, (g.optWith f p).marked x = true := by
  cases p with
  | none => exact ⟨.refl g, nofun⟩
  | some o =>
    have ho : o ∈ (some o).toList := List.mem_singleton_self o
    obtain ⟨hstep, hmarked⟩ := visitWith_step (isSome_of_markable hb (hm o ho)) (h o ho)
    refine ⟨hstep, fun x hx => ?_⟩
    obtain rfl := List.mem_singleton.mp hx
    exact hmarked

theorem markTable_step (hb : Holds b g) {o : Nat} (hp : P o) (ht : ∃ t, b o = some (.table t)) (hw : g.white o = true) :
    Step b P g (g.markTable o) ∧ (g.markTable o).marked o = true := by
  obtain ⟨t, ht⟩ := ht
  obtain ⟨t', ht', -⟩ := body_table hb ht
  rw [Gc.markTable, show (g.object o).map Object.body = _ from ht']
  exact linkGray_step hb hw hp ⟨_, ht, trivial⟩

theorem paint_charge_step {o : Nat} {c : Body} (hsome : (g.object o).isSome) (hc : b o = some c) (hl : ¬c.Listed)
    (hp : P o) (hclosed : ∀ x ∈ c.strong, g.marked x = true) :
    Step b P g (g.paint o .black).charge ∧ (g.paint o .black).charge.marked o = true := by
  have hstep : Step b P g (g.paint o .black) := by
    refine .paint rfl hp (fun c' hc' x hx => marked_mono_paint rfl x ?_) fun c' hc' => ?_
    · rw [hc] at hc'
      exact hclosed x (Option.some.inj hc' ▸ hx)
    · rw [hc] at hc'
      exact Option.some.inj hc' ▸ hl
  refine ⟨hstep.trans .charge, Step.charge.mono (b := b) (P := P) o ?_⟩
  rw [marked_paint rfl, if_pos rfl]
  exact hsome

theorem markValue_step (hs : Sound b P) (hb : Holds b g) {o : Nat} (hp : P o) (hm : Markable b o)
    (hu : ∀ i v, b o ≠ some (.upVal i v)) (hw : g.white o = true) :
    Step b P g (g.markValue o) ∧ (g.markValue o).marked o = true := by
  obtain ⟨c, hc, hne⟩ := hm
  have hsome := white_isSome hw
  unfold Gc.markValue
  cases c with
  | sweepMark => exact absurd rfl hne
  | upVal i v => exact absurd hc (hu i v)
  | table t =>
    obtain ⟨t', ht', -⟩ := body_table hb hc
    rw [show (g.object o).map Object.body = _ from ht']
    exact linkGray_step hb hw hp ⟨_, hc, trivial⟩
  | str | rustId =>
    rw [show (g.object o).map Object.body = _ from body_iff_view hb hc nofun]
    exact paint_charge_step hsome hc id hp nofun
  | userData props mt =>
    rw [show (g.object o).map Object.body = _ from body_iff_view hb hc nofun]
    have hsub : ∀ x ∈ props.toList ++ mt.toList, P x ∧ Markable b x := fun x hx =>
      ⟨hs.strong hp hc hx, hs.markable hc hx⟩
    have hprops := fun x hx => hsub x (List.mem_append_left _ hx)
    have hmt := fun x hx => hsub x (List.mem_append_right _ hx)
    obtain ⟨h₁, hm₁⟩ := optWith_step Gc.markTable props hb (fun x hx => (hprops x hx).2) fun x hx hw =>
      markTable_step hb (hprops x hx).1 (hs.wf.userData hc (List.mem_append_left _ hx)) hw
    have hb₁ := h₁.holds hb
    obtain ⟨h₂, hm₂⟩ := optWith_step Gc.markTable mt hb₁ (fun x hx => (hmt x hx).2) fun x hx hw =>
      markTable_step hb₁ (hmt x hx).1 (hs.wf.userData hc (List.mem_append_right _ hx)) hw
    have h := h₁.trans h₂
    obtain ⟨h₃, hm₃⟩ := paint_charge_step (isSome_of_markable (h₂.holds hb₁) ⟨_, hc, hne⟩) hc id hp fun x hx => by
      rcases List.mem_append.mp hx with hx | hx
      · exact h₂.mono x (hm₁ x hx)
      · exact hm₂ x hx
    exact ⟨h.trans h₃, hm₃⟩
  | luaFn _ _ | rustFn _ | proto _ _ _ _ | thread _ _ | collection _ =>
    rw [show (g.object o).map Object.body = _ from body_iff_view hb hc nofun]
    exact linkGray_step hb hw hp ⟨_, hc, trivial⟩

/-- A visit of an object that is all right to mark. -/
theorem visit_step (hs : Sound b P) (hb : Holds b g) {o : Nat} (hp : P o) (hm : Markable b o) :
    Step b P g (g.visit o) ∧ (g.visit o).marked o = true := by
  refine visitWith_step (isSome_of_markable hb hm) fun hw => ?_
  by_cases hu : ∃ i v, b o = some (.upVal i v)
  · obtain ⟨i, v, hc⟩ := hu
    unfold Gc.mark
    rw [show (g.object o).map Object.body = _ from body_iff_view hb hc nofun]
    dsimp only
    have hcolor : (if i then Color.gray else Color.black).isWhite = false := by cases i <;> rfl
    have ho : (g.paint o (if i then .gray else .black)).marked o = true := by
      rw [marked_paint hcolor, if_pos rfl]
      exact white_isSome hw
    have hcharge : Step b P _ _ := @Step.charge b P (g.paint o (if i then .gray else .black))
    have hnl : ∀ c, b o = some c → ¬c.Listed := fun c hc' => by
      rw [hc] at hc'
      exact Option.some.inj hc' ▸ id
    have hb' := hcharge.holds (hb.paint o _)
    cases v with
    | obj x =>
      have hx : x ∈ (Body.upVal i (.obj x)).strong := List.mem_singleton_self x
      have hpx := hs.strong hp hc hx
      have hmx := hs.markable hc hx
      obtain ⟨h, hm⟩ := visitWith_step (isSome_of_markable hb' hmx)
        (markValue_step hs hb' hpx hmx (hs.wf.upVal hc))
      refine ⟨.after_paint hcolor (hcharge.trans h) hp (fun c hc' y hy => ?_) hnl, h.mono o (hcharge.mono o ho)⟩
      rw [hc] at hc'
      obtain rfl := Option.some.inj hc'
      obtain rfl := List.mem_singleton.mp hy
      exact hm
    | _ =>
      refine ⟨.after_paint hcolor hcharge hp (fun c hc' y hy => ?_) hnl, hcharge.mono o ho⟩
      rw [hc] at hc'
      obtain rfl := Option.some.inj hc'
      cases hy
  · have hu : ∀ i v, b o ≠ some (.upVal i v) := fun i v h => hu ⟨i, v, h⟩
    have heq : g.mark o = g.markValue o := by
      unfold Gc.mark
      split
      · rename_i i v hbody
        obtain ⟨c, hc, -⟩ := hm
        cases c with
        | table t =>
          obtain ⟨t', ht', -⟩ := body_table hb hc
          exact nomatch hbody.symm.trans ht'
        | upVal i v => exact absurd hc (hu i v)
        | _ => exact nomatch hbody.symm.trans (body_iff_view hb hc nofun)
      · rfl
    rw [heq]
    exact markValue_step hs hb hp hm hu hw

theorem visitVal_step (hs : Sound b P) (hb : Holds b g) {v : Val} (hv : ∀ x ∈ v.refs, P x ∧ Markable b x) :
    Step b P g (g.visitVal v) ∧ ∀ x ∈ v.refs, (g.visitVal v).marked x = true := by
  cases v with
  | obj o =>
    have ho : o ∈ (Val.obj o).refs := List.mem_singleton_self o
    obtain ⟨hstep, hm⟩ := visit_step hs hb (hv o ho).1 (hv o ho).2
    refine ⟨hstep, fun x hx => ?_⟩
    obtain rfl := List.mem_singleton.mp hx
    exact hm
  | _ => exact ⟨.refl g, nofun⟩

theorem visitOpt_step (hs : Sound b P) (hb : Holds b g) {p : Option Nat} (hp : ∀ x ∈ p.toList, P x ∧ Markable b x) :
    Step b P g (g.visitOpt p) ∧ ∀ x ∈ p.toList, (g.visitOpt p).marked x = true := by
  cases p with
  | none => exact ⟨.refl g, nofun⟩
  | some o =>
    have ho : o ∈ (some o).toList := List.mem_singleton_self o
    obtain ⟨hstep, hm⟩ := visit_step hs hb (hp o ho).1 (hp o ho).2
    refine ⟨hstep, fun x hx => ?_⟩
    obtain rfl := List.mem_singleton.mp hx
    exact hm

end Tsuki.Collector
