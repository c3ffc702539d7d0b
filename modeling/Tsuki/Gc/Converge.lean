import Tsuki.Gc.Traverse

/-!
# Convergence

All gray objects, the upvalues of threads, and the rounds of the convergence of ephemerons, none of which is endless.
-/

namespace Tsuki.Collector

variable {b : Graph} {P Q : Nat → Prop} {g g' g'' : Gc} {o : Nat} {t t' : Table}

/-- What marking keeps, whatever becomes of the lists. -/
structure Run (g g' : Gc) : Prop where
  mono : ∀ o, g.marked o = true → g'.marked o = true
  tidy : ∀ o, Tidy g o → Tidy g' o
  state : g'.state = g.state
  count : g'.count = g.count
  refs : g'.refs = g.refs

theorem Run.refl (g : Gc) : Run g g := ⟨fun _ => id, fun _ => id, rfl, rfl, rfl⟩

theorem Run.trans (h : Run g g') (h' : Run g' g'') : Run g g'' :=
  ⟨fun o ho => h'.mono o (h.mono o ho), fun o ho => h'.tidy o (h.tidy o ho), h'.state.trans h.state,
    h'.count.trans h.count, h'.refs.trans h.refs⟩

theorem Step.run (h : Step b P g g') : Run g g' := ⟨h.mono, h.tidy, h.state, h.count, h.refs⟩

/-- An object is taken from its list. -/
theorem Tri.take (h : Tri b P Q g) {gray : List Nat} (hgray : g.list .gray = o :: gray) :
    Tri b P (fun x => Q x ∨ x = o) ((g.paint o .black).setList .gray gray) where
  holds := ⟨(h.holds.paint o .black).view, (h.holds.paint o .black).none⟩
  ok x hx := by
    by_cases hxo : x = o
    · exact hxo ▸ (h.lists .gray o (hgray ▸ List.mem_cons_self)).1
    · exact h.ok x (by rwa [marked_setList, marked_paint rfl, if_neg hxo] at hx)
  lists l x hx := by
    refine (h.lists l x ?_).mono (marked_mono_paint rfl) tidy_paint
    by_cases hl : l = .gray
    · subst hl
      rw [list_setList_self] at hx
      rw [hgray]
      exact List.mem_cons_of_mem o hx
    · rwa [list_setList_of_ne hl] at hx
  handled x hx := by
    by_cases hxo : x = o
    · exact .inl (.inr hxo)
    · rw [marked_setList, marked_paint rfl, if_neg hxo] at hx
      have hlist : ∀ l, l ≠ .gray → x ∈ g.list l → x ∈ ((g.paint o .black).setList .gray gray).list l :=
        fun l hl hx => by rwa [list_setList_of_ne hl]
      rcases h.handled x hx with hq | hg | hd | ⟨hst, hag⟩
      · exact .inl (.inl hq)
      · rw [hgray] at hg
        refine .inr (.inl ?_)
        rw [list_setList_self]
        exact (List.mem_cons.mp hg).resolve_left hxo
      · exact .inr (.inr (.inl (hd.mono (marked_mono_paint rfl) hlist)))
      · exact .inr (.inr (.inr ⟨hst, hlist _ nofun hag⟩))
  twups := h.twups
  clean := h.clean

theorem Tri.settle (h : Tri b P (fun x => Q x ∨ x = o) g) (ho : Handled b g o) : Tri b P Q g :=
  { h with
    handled := fun x hx => by
      rcases h.handled x hx with (hq | rfl) | hrest
      · exact .inl hq
      · exact .inr (.inr ho)
      · exact .inr hrest }

theorem markOneGray_tri (hs : Sound b P) (h : Tri b P Q g) {gray : List Nat} (hgray : g.list .gray = o :: gray)
    (hstate : g.state = .propagate ∨ g.state = .finish) :
    Tri b P Q (g.markOneGray o gray) ∧ Run g (g.markOneGray o gray) ∧
      (g.markOneGray o gray).unmarked + ((g.markOneGray o gray).list .gray).length <
        g.unmarked + (g.list .gray).length := by
  have ht := h.take hgray
  obtain ⟨hp, hm, c, hc, hl⟩ := h.lists .gray o (hgray ▸ List.mem_cons_self)
  have hm₁ : ((g.paint o .black).setList .gray gray).marked o = true := marked_mono_paint rfl o hm
  have hview := ht.holds.view o
  rw [hc] at hview
  obtain ⟨c', hc', hview⟩ := Option.map_eq_some_iff.mp hview
  obtain ⟨k, hobj⟩ := object_of_body hc'
  obtain ⟨hstep, hh⟩ := markBody_step hs ht.holds ht.ok hp hm₁ hc hl hview hstate
  have hrun : Run g ((g.paint o .black).setList .gray gray) := 
    ⟨marked_mono_paint rfl, tidy_paint, rfl, rfl, rfl⟩
  unfold Gc.markOneGray
  dsimp only
  rw [hobj]
  refine ⟨(hstep.tri ht).settle hh, hrun.trans hstep.run, Nat.lt_of_le_of_lt hstep.unmarked ?_⟩
  have hle : ((g.paint o .black).setList .gray gray).unmarked ≤ g.unmarked := unmarked_paint_le rfl
  rw [list_setList_self, hgray, List.length_cons]
  omega

theorem markAllGrayFor_tri (hs : Sound b P) (k : Nat) : ∀ {g : Gc}, Tri b P Q g →
    g.state = .propagate ∨ g.state = .finish → g.unmarked + (g.list .gray).length ≤ k →
    Tri b P Q (Gc.markAllGrayFor k g) ∧ Run g (Gc.markAllGrayFor k g) ∧ (Gc.markAllGrayFor k g).list .gray = [] := by
  induction k with
  | zero =>
    intro g h _ hk
    have hgray : g.list .gray = [] := List.length_eq_zero_iff.mp (by omega)
    unfold Gc.markAllGrayFor
    rw [hgray]
    exact ⟨h, .refl g, hgray⟩
  | succ k ih =>
    intro g h hstate hk
    unfold Gc.markAllGrayFor
    cases hgray : g.list .gray with
    | nil => exact ⟨h, .refl g, hgray⟩
    | cons o gray =>
      obtain ⟨h₁, hrun₁, hlt⟩ := markOneGray_tri hs h hgray hstate
      obtain ⟨h₂, hrun₂, hgray₂⟩ := ih h₁ (hrun₁.state ▸ hstate) (by omega)
      exact ⟨h₂, hrun₁.trans hrun₂, hgray₂⟩

/-- There are never more objects in the list than are left. -/
theorem markAllGray_tri (hs : Sound b P) (h : Tri b P Q g) (hstate : g.state = .propagate ∨ g.state = .finish) :
    Tri b P Q g.markAllGray ∧ Run g g.markAllGray ∧ g.markAllGray.list .gray = [] := by
  refine markAllGrayFor_tri hs _ h hstate (Nat.add_le_add_right ?_ _)
  have hle := List.countP_le_length (p := g.white) (l := List.range g.count)
  rwa [List.length_range] at hle

/-! ## Upvalues -/

theorem remarkUpvalue_step (hs : Sound b P) (g : Gc) (uv : Nat) (hb : Holds b g) (hok : AllOk P g)
    (hu : ∃ i v, b uv = some (.upVal i v)) : Step b P g (g.remarkUpvalue uv) := by
  obtain ⟨i, v, hc⟩ := hu
  obtain ⟨k, hobj⟩ := object_of_body (body_iff_view hb hc nofun)
  unfold Gc.remarkUpvalue
  rw [hobj]
  dsimp only
  split
  · exact .refl g
  · rename_i hw
    have hp : P uv := hok uv (by rw [Gc.marked, hobj]; simpa using hw)
    exact (visitVal_step hs hb fun x hx => ⟨hs.strong hp hc hx, hs.markable hc hx⟩).1

theorem foldl_step {α : Type} {f : Gc → α → Gc} (l : List α) : ∀ {g : Gc}, Holds b g → AllOk P g →
    (∀ g, ∀ a ∈ l, Holds b g → AllOk P g → Step b P g (f g a)) → Step b P g (l.foldl f g) := by
  induction l with
  | nil => exact fun _ _ _ => .refl _
  | cons a l ih =>
    intro g hb hok hf
    have h₁ := hf g a List.mem_cons_self hb hok
    exact h₁.trans (ih (h₁.holds hb) (hok.step h₁) fun g a ha => hf g a (List.mem_cons_of_mem _ ha))

theorem remarkThread_step (hs : Sound b P) (g : Gc) (th : Nat) (hb : Holds b g) (hok : AllOk P g)
    (ht : ∃ stack us, b th = some (.thread stack us)) : Step b P g (g.remarkThread th) := by
  obtain ⟨stack, us, hc⟩ := ht
  obtain ⟨k, hobj⟩ := object_of_body (body_iff_view hb hc nofun)
  unfold Gc.remarkThread
  rw [hobj]
  dsimp only
  split
  · refine .setTwups _ fun th' hth' => ?_
    rcases List.mem_append.mp hth' with hth' | hth'
    · exact .inl hth'
    · obtain rfl := List.mem_singleton.mp hth'
      exact .inr ⟨_, _, hc⟩
  · exact foldl_step us hb hok fun g uv huv hb hok => remarkUpvalue_step hs g uv hb hok (hs.wf.openupval hc huv)

theorem remarkUpvalues_step (hs : Sound b P) (h : Tri b P Q g) : Step b P g g.remarkUpvalues := by
  have h₀ : Step b P g { g with twups := [] } := .setTwups [] nofun
  exact h₀.trans (foldl_step g.twups (h₀.holds h.holds) (h.ok.step h₀) fun g th hth hb hok =>
    remarkThread_step hs g th hb hok (h.twups th hth))

/-! ## Rounds -/

/-- A value that is cleared. -/
def Dead (b : Graph) (g : Gc) (v : Val) : Prop := ∃ x, v = .obj x ∧ b x ≠ some .str ∧ g.marked x = false

/-- The value of each entry is marked but those with a key that is cleared. -/
def Settled (b : Graph) (g : Gc) (t : Table) : Prop :=
  ∀ n ∈ t.entries, Dead b g n.key ∨ ∀ x ∈ n.val.refs, g.marked x = true

theorem visit_marked (h : g.marked o = true) : g.visit o = g := by
  unfold Gc.marked at h
  unfold Gc.visit Gc.visitWith
  cases hobj : g.object o with
  | none => rw [hobj] at h; cases h
  | some x =>
    rw [hobj] at h
    have h : (!x.color.isWhite) = true := h
    exact if_neg (by simpa using h)

theorem visitVal_marked {v : Val} (h : ∀ x ∈ v.refs, g.marked x = true) : g.visitVal v = g := by
  cases v with
  | obj o => exact visit_marked (h o (List.mem_singleton_self o))
  | _ => rfl

theorem isWhiteVal_marked {v : Val} (h : ∀ x ∈ v.refs, g.marked x = true) : g.isWhiteVal v = false := by
  cases hw : g.isWhiteVal v with
  | false => rfl
  | true =>
    obtain ⟨x, rfl, hx⟩ := isWhiteVal_eq_true hw
    have hm := h x (List.mem_singleton_self x)
    rw [not_marked_of_white hx] at hm
    cases hm

theorem isCleared_still (hb : Holds b g) {v : Val} (hm : ∀ x ∈ v.refs, Markable b x)
    (hstr : ∀ x ∈ v.refs, b x = some .str → g.marked x = true) :
    (g.isCleared v).1 = g ∧ ((g.isCleared v).2 = true → Dead b g v) := by
  cases v with
  | obj o =>
    have ho : o ∈ (Val.obj o).refs := List.mem_singleton_self o
    have hsome := isSome_of_markable hb (hm o ho)
    obtain ⟨⟨body, k⟩, hx⟩ := Option.isSome_iff_exists.mp hsome
    have hbody : g.body o = some body := by rw [Gc.body, hx]; rfl
    unfold Gc.isCleared
    dsimp only
    rw [hx]
    dsimp only
    by_cases hbo : b o = some .str
    · have hbg := body_iff_view hb hbo (by simp)
      rw [hbody] at hbg
      obtain rfl := Option.some.inj hbg
      exact ⟨visit_marked (hstr o ho hbo), (by simp)⟩
    · have hne : body ≠ .str := by
        rintro rfl
        obtain ⟨c, hc, -⟩ := hm o ho
        have hv := hb.view o
        rw [hbody, hc] at hv
        have hv : Body.str.view = c.view := Option.some.inj hv
        cases c with
        | str => exact hbo hc
        | _ => cases hv
      rw [if_neg hne]
      refine ⟨rfl, fun hw => ⟨o, rfl, hbo, not_marked_of_white ?_⟩⟩
      rw [Gc.white, hx]
      exact hw
  | _ => exact ⟨rfl, by simp [Gc.isCleared]⟩

theorem ephemeronSlot_still (l : List Val) : ∀ {c : Bool}, (∀ v ∈ l, ∀ x ∈ v.refs, g.marked x = true) →
    l.foldl ephemeronSlot (g, c) = (g, c) := by
  induction l with
  | nil => exact fun _ => rfl
  | cons v l ih =>
    intro c hl
    have hv := hl v List.mem_cons_self
    rw [List.foldl_cons, ephemeronSlot, visitVal_marked hv, isWhiteVal_marked hv, Bool.or_false]
    exact ih fun v' hv' => hl v' (List.mem_cons_of_mem v hv')

theorem ephemeronNode_flag (l : List Node) : ∀ s : Gc × Flags, s.2.marked = true →
    (l.foldl ephemeronNode s).2.marked = true := by
  induction l with
  | nil => exact fun _ => id
  | cons n l ih =>
    intro s hs
    refine ih _ ?_
    unfold ephemeronNode
    split
    · exact hs
    · dsimp only
      split
      · exact hs
      · exact Bool.or_eq_true_iff.mpr (.inl hs)

/-- A loop that marks no value marks nothing, where the strings are marked that are keys. -/
theorem ephemeronNode_still (hb : Holds b g) (l : List Node) : ∀ {fl : Flags},
    (∀ n ∈ l, n.val ≠ .nil ∧ (∀ x, x ∈ n.key.refs ∨ x ∈ n.val.refs → Markable b x) ∧
      ∀ k ∈ n.key.refs, b k = some .str → g.marked k = true) →
    (l.foldl ephemeronNode (g, fl)).2.marked = false →
    fl.marked = false ∧ (l.foldl ephemeronNode (g, fl)).1 = g ∧
      ∀ n ∈ l, Dead b g n.key ∨ ∀ x ∈ n.val.refs, g.marked x = true := by
  induction l with
  | nil => exact fun _ hf => ⟨hf, rfl, nofun⟩
  | cons n l ih =>
    intro fl hl hf
    obtain ⟨hne, hmark, hkey⟩ := hl n List.mem_cons_self
    have hrest := fun n' hn' => hl n' (List.mem_cons_of_mem n hn')
    obtain ⟨heq, hdead⟩ := isCleared_still hb (fun x hx => hmark x (.inl hx)) hkey
    rw [List.foldl_cons] at hf ⊢
    rw [ephemeronNode, if_neg hne] at hf ⊢
    dsimp only at hf ⊢
    generalize g.isCleared n.key = r at heq hdead hf
    obtain ⟨g₁, c⟩ := r
    obtain rfl : g₁ = g := heq
    cases c with
    | true =>
      obtain ⟨hfl, hg, hset⟩ := ih hrest hf
      exact ⟨hfl, hg, List.forall_mem_cons.mpr ⟨.inl (hdead rfl), hset⟩⟩
    | false =>
      dsimp only at hf ⊢
      rw [if_neg Bool.false_ne_true] at hf ⊢
      cases hw : g₁.isWhiteVal n.val with
      | true =>
        exfalso
        rw [hw, Bool.or_true] at hf
        rw [ephemeronNode_flag l _ rfl] at hf
        cases hf
      | false =>
        have hvals : ∀ x ∈ n.val.refs, g₁.marked x = true := fun x hx =>
          marked_of_not_isWhiteVal hb hw hx (hmark x (.inr hx))
        rw [hw, Bool.or_false, visitVal_marked hvals] at hf
        rw [Bool.or_false, visitVal_marked hvals]
        obtain ⟨hfl, hg, hset⟩ := ih hrest hf
        exact ⟨hfl, hg, List.forall_mem_cons.mpr ⟨.inr hvals, hset⟩⟩

theorem linkEphemeron_still (hm : g.marked o = true) (hstate : g.state = .finish) (fl : Flags) :
    (g.linkEphemeron o fl).marked = g.marked ∧ (g.linkEphemeron o fl).list .gray = g.list .gray ∧
      ∀ x ∈ (g.linkEphemeron o fl).list .ephemeron, x = o ∨ x ∈ g.list .ephemeron := by
  have hmarked : ∀ l, (g.link o l).marked = g.marked := by
    intro l
    funext x
    rw [marked_link, marked_paint rfl]
    split
    · rename_i hx
      subst hx
      rw [hm]
      unfold Gc.marked at hm
      cases hobj : g.object x with
      | none => rw [hobj] at hm; cases hm
      | some _ => rfl
    · rfl
  unfold Gc.linkEphemeron
  rw [if_neg (by rw [hstate]; exact nofun)]
  split
  · refine ⟨hmarked _, list_link_of_ne nofun, fun x hx => ?_⟩
    rw [list_link_self] at hx
    exact List.mem_cons.mp hx
  · split
    · refine ⟨hmarked _, list_link_of_ne nofun, fun x hx => .inr ?_⟩
      rwa [list_link_of_ne (show GcList.ephemeron ≠ .allweak from nofun)] at hx
    · exact ⟨rfl, rfl, fun x hx => .inr hx⟩

/-- A traversal that marks no value marks nothing. -/
theorem markEphemeron_still (hs : Sound b P) (hb : Holds b g) (h : Opened b P g o t t') (hl : InList b P g .ephemeron o)
    (hstate : g.state = .finish) (inv : Bool) (hf : (g.markEphemeron o t' inv).2 = false) :
    (g.markEphemeron o t' inv).1.marked = g.marked ∧ (g.markEphemeron o t' inv).1.list .gray = g.list .gray ∧
      (∀ x ∈ (g.markEphemeron o t' inv).1.list .ephemeron, x = o ∨ x ∈ g.list .ephemeron) ∧ Settled b g t := by
  obtain ⟨-, -, hclosed, -, t₁, ht₁, hk, hv, hkeys⟩ := hl
  obtain rfl : t = t₁ := Body.table.inj (Option.some.inj (h.table.symm.trans ht₁))
  have hslots : ∀ v ∈ t'.array, ∀ x ∈ v.refs, g.marked x = true := fun v hva x hx =>
    hclosed _ h.table x (by
      rw [Body.strong, hk, hv]
      exact List.mem_append_right _ (List.mem_flatMap.mpr ⟨v, h.array ▸ hva, hx⟩))
  unfold Gc.markEphemeron at hf ⊢
  dsimp only at hf ⊢
  rw [foldl_nodes, h.entries, ephemeronSlot_still t'.array hslots] at hf
  rw [foldl_nodes, h.entries, ephemeronSlot_still t'.array hslots]
  dsimp only at hf ⊢
  obtain ⟨-, heq, hset⟩ := ephemeronNode_still hb _ (fun n hn => by
    have hn := mem_nodes.mp hn
    exact ⟨of_decide_eq_true (List.mem_filter.mp hn).2, fun x hx => h.markable hs hn hx, hkeys n hn⟩) hf
  rw [heq]
  have hm : (g.setNode o t' (t'.node.map Node.clearEmpty)).marked = g.marked := funext (marked_setBody o _)
  obtain ⟨hmarked, hgray, heph⟩ := linkEphemeron_still (g := g.setNode o t' (t'.node.map Node.clearEmpty))
    (by rw [hm]; exact h.marked) hstate
    (List.foldl ephemeronNode (g, ⟨false, false, false⟩) (if inv then t.entries.reverse else t.entries)).2
  exact ⟨hmarked.trans hm, hgray, heph, fun n hn => hset n (mem_nodes.mpr hn)⟩

/-- The white objects are those of the graph that are not marked. -/
theorem white_iff (hb : Holds b g) (x : Nat) : g.white x = true ↔ (b x).isSome ∧ g.marked x = false := by
  have hsome : (g.object x).isSome = (b x).isSome := by
    have h := congrArg Option.isSome (hb.view x)
    rwa [Option.isSome_map, Option.isSome_map, Gc.body, Option.isSome_map] at h
  refine ⟨fun h => ⟨hsome ▸ white_isSome h, not_marked_of_white h⟩, ?_⟩
  rintro ⟨hx, hm⟩
  by_contra hw
  rw [marked_of_white (hsome ▸ hx) (Bool.eq_false_iff.mpr hw)] at hm
  cases hm

/-- Fewer objects are white where one was marked. -/
theorem Grew.unmarked_lt (h : Grew g g') (hb : Holds b g) (hb' : Holds b g') (hrun : Run g g') :
    g'.unmarked < g.unmarked := by
  obtain ⟨x, hx, hx'⟩ := h
  rw [← unmarked_paint hb (c := .black) rfl hx, Nat.lt_succ_iff, Gc.unmarked, hrun.count]
  refine List.countP_mono_left fun y _ hy => ?_
  obtain ⟨hsome, hm⟩ := (white_iff hb' y).mp hy
  refine (white_iff (hb.paint x .black) y).mpr ⟨hsome, ?_⟩
  rw [marked_paint rfl]
  split
  · rename_i hyx
    rw [hyx, hx'] at hm
    cases hm
  · exact Bool.eq_false_iff.mpr fun hmy => by rw [hrun.mono y hmy] at hm; cases hm

/-- A round of the convergence that started from `g₀`, where the tables that are left are `rest`. -/
structure Converging (b : Graph) (P : Nat → Prop) (g₀ : Gc) (rest : List Nat) (s : Gc × Bool) : Prop where
  tri : Tri b P (· ∈ rest) s.1
  run : Run g₀ s.1
  gray : s.1.list .gray = []
  rest : ∀ w ∈ rest, InList b P s.1 .ephemeron w
  grew : s.2 = true → Grew g₀ s.1
  still : s.2 = false → s.1.marked = g₀.marked ∧
    ∀ o ∈ s.1.list .ephemeron, ∀ t, b o = some (.table t) → Settled b s.1 t

theorem Settled.congr (h : Settled b g t) (hm : g'.marked = g.marked) : Settled b g' t := by
  intro n hn
  unfold Dead
  rw [hm]
  exact h n hn

theorem Converging.step (hs : Sound b P) {g₀ : Gc} (hb₀ : Holds b g₀) (hstate : g₀.state = .finish) (dir : Bool) {w : Nat}
    {rest : List Nat} {s : Gc × Bool} (h : Converging b P g₀ (w :: rest) s) :
    Converging b P g₀ rest (convergeList dir s w) := by
  obtain ⟨g, c⟩ := s
  obtain ⟨htri, hrun, hgray, hrest, hgrew, hstill⟩ := h
  dsimp only at htri hrun hgray hrest hgrew hstill
  have hw := hrest w List.mem_cons_self
  obtain ⟨hp, hm, hclosed, -, t, ht, hk, hv, -⟩ := id hw
  have hview := htri.holds.view w
  rw [ht] at hview
  obtain ⟨c', hc', hview⟩ := Option.map_eq_some_iff.mp hview
  obtain ⟨t', rfl, -⟩ := view_table hview
  obtain ⟨k, hobj⟩ := object_of_body hc'
  -- the table is painted black, which leaves the marks as they are
  have hmarked₁ : (g.paint w .black).marked = g.marked := by
    funext x
    rw [marked_paint rfl]
    split
    · rename_i hx
      rw [hx, hm, hobj]
      rfl
    · rfl
  have hmono₁ : ∀ x, g.marked x = true → (g.paint w .black).marked x = true := fun x => by rw [hmarked₁]; exact id
  have htri₁ : Tri b P (· ∈ w :: rest) (g.paint w .black) :=
    ⟨htri.holds.paint w .black, fun x hx => htri.ok x (hmarked₁ ▸ hx),
      fun l x hx => (htri.lists l x hx).mono hmono₁ tidy_paint,
      fun x hx => (htri.handled x (hmarked₁ ▸ hx)).imp_right fun h => h.imp_right fun h => h.imp_left fun hd =>
        hd.mono hmono₁ fun _ _ => id, htri.twups, htri.clean⟩
  have hrun₁ : Run g₀ (g.paint w .black) :=
    ⟨fun x hx => hmono₁ x (hrun.mono x hx), fun x hx => tidy_paint x (hrun.tidy x hx), hrun.state, hrun.count, hrun.refs⟩
  have hst₁ : (g.paint w .black).state = .finish := hrun.state.trans hstate
  have hopen : Opened b P (g.paint w .black) w t t' :=
    ⟨hp, hmono₁ w hm, ht, hview, fun x hx => hmono₁ x (hclosed _ ht x (List.mem_append_left _ hx)), .inr hst₁⟩
  obtain ⟨h₂, hhandled, hgrew₂⟩ := markEphemeron_step hs htri₁.holds htri₁.ok hopen hk hv dir
  have htri₂ : Tri b P (· ∈ rest) ((g.paint w .black).markEphemeron w t' dir).1 := by
    refine Tri.settle (o := w) ((h₂.tri htri₁).weaken fun x hx => ?_) hhandled
    exact (List.mem_cons.mp hx).symm
  have hrun₂ := hrun₁.trans h₂.run
  have hrest₂ : ∀ w' ∈ rest, InList b P ((g.paint w .black).markEphemeron w t' dir).1 .ephemeron w' := fun w' hw' =>
    (hrest w' (List.mem_cons_of_mem w hw')).mono (fun x hx => h₂.mono x (hmono₁ x hx)) fun x hx =>
      h₂.tidy x (tidy_paint x hx)
  have hbefore : ∀ {g₃ : Gc}, Grew (g.paint w .black) g₃ → Grew g₀ g₃ :=
    .before_of (fun x => (htri₁.holds.view x).trans (hb₀.view x).symm) hrun₁.mono
  have hstill₂ := fun hf => markEphemeron_still hs htri₁.holds hopen (hw.mono hmono₁ tidy_paint) hst₁ dir hf
  unfold convergeList
  dsimp only
  rw [hobj]
  dsimp only
  generalize (g.paint w .black).markEphemeron w t' dir = r at h₂ hgrew₂ htri₂ hrun₂ hrest₂ hstill₂
  obtain ⟨g₂, marked⟩ := r
  dsimp only at h₂ hgrew₂ htri₂ hrun₂ hrest₂ hstill₂ ⊢
  cases marked with
  | true =>
    obtain ⟨htri₃, hrun₃, hgray₃⟩ := markAllGray_tri hs htri₂ (.inr (hrun₂.state.trans hstate))
    refine ⟨htri₃, hrun₂.trans hrun₃, hgray₃, fun w' hw' => (hrest₂ w' hw').mono hrun₃.mono hrun₃.tidy, fun _ => ?_, nofun⟩
    obtain ⟨x, hx, hx'⟩ := hbefore (hgrew₂ rfl)
    exact ⟨x, hx, hrun₃.mono x hx'⟩
  | false =>
    obtain ⟨hmarked₂, hgray₂, heph₂, hset⟩ := hstill₂ rfl
    refine ⟨htri₂, hrun₂, hgray₂.trans hgray, hrest₂, fun hc => ?_, fun hc => ?_⟩
    · obtain ⟨x, hx, hx'⟩ := hgrew hc
      exact ⟨x, hx, h₂.mono x (hmono₁ x hx')⟩
    · obtain ⟨hmarked, hsettled⟩ := hstill hc
      have hsame : g₂.marked = g.marked := hmarked₂.trans hmarked₁
      refine ⟨hsame.trans hmarked, fun o ho t₁ ht₁ => ?_⟩
      rcases heph₂ o ho with rfl | ho
      · obtain rfl : t = t₁ := Body.table.inj (Option.some.inj (ht.symm.trans ht₁))
        exact hset.congr hmarked₂
      · exact (hsettled o ho t₁ ht₁).congr hsame

theorem Converging.foldl (hs : Sound b P) {g₀ : Gc} (hb₀ : Holds b g₀) (hstate : g₀.state = .finish) (dir : Bool)
    (l : List Nat) : ∀ {s : Gc × Bool}, Converging b P g₀ l s → Converging b P g₀ [] (l.foldl (convergeList dir) s) := by
  induction l with
  | nil => exact id
  | cons w l ih => exact fun h => ih (h.step hs hb₀ hstate dir)

/-- All is marked that can be. -/
structure Converged (b : Graph) (P : Nat → Prop) (g : Gc) : Prop where
  tri : Tri b P (fun _ => False) g
  gray : g.list .gray = []
  settled : ∀ o ∈ g.list .ephemeron, ∀ t, b o = some (.table t) → Settled b g t

theorem Tri.takeEphemeron (h : Tri b P (fun _ => False) g) (hstate : g.state = .finish) :
    Tri b P (· ∈ g.list .ephemeron) (g.setList .ephemeron []) where
  holds := ⟨h.holds.view, h.holds.none⟩
  ok := h.ok
  lists l x hx := by
    by_cases hl : l = .ephemeron
    · subst hl
      rw [list_setList_self] at hx
      cases hx
    · rw [list_setList_of_ne hl] at hx
      exact h.lists l x hx
  handled x hx := by
    have hother : ∀ l, l ≠ .ephemeron → x ∈ g.list l → x ∈ (g.setList .ephemeron []).list l := fun l hl hx => by
      rwa [list_setList_of_ne hl]
    rcases h.handled x hx with hf | hg | ⟨hc, hd⟩ | ⟨hst, -⟩
    · exact hf.elim
    · exact .inr (.inl (hother _ nofun hg))
    · by_cases heph : x ∈ g.list .ephemeron
      · exact .inl heph
      · refine .inr (.inr (.inl ⟨hc, fun t ht => ?_⟩))
        have hd := hd t ht
        unfold WeakDone at hd ⊢
        split at hd
        · exact hother _ nofun hd
        · rcases hd with hd | ⟨hv, hd | hk⟩
          · exact absurd hd heph
          · exact .inr ⟨hv, .inl (hother _ nofun hd)⟩
          · exact .inr ⟨hv, .inr hk⟩
        · exact hd.imp_left (hother _ nofun)
        · trivial
    · rw [hstate] at hst
      cases hst
  twups := h.twups
  clean := h.clean

/-- Each round marks an object that was white, but the last. -/
theorem convergeFor_converged (hs : Sound b P) (k : Nat) : ∀ {dir : Bool} {g : Gc}, Tri b P (fun _ => False) g →
    g.list .gray = [] → g.state = .finish → g.unmarked < k →
    Converged b P (Gc.convergeFor k dir g) ∧ Run g (Gc.convergeFor k dir g) := by
  induction k with
  | zero => exact fun _ _ _ hk => absurd hk (Nat.not_lt_zero _)
  | succ k ih =>
    intro dir g h hgray hstate hk
    have ht := h.takeEphemeron hstate
    have hb₀ : Holds b (g.setList .ephemeron []) := ht.holds
    have hstart : Converging b P (g.setList .ephemeron []) (g.list .ephemeron) (g.setList .ephemeron [], false) := by
      have hne : GcList.gray ≠ .ephemeron := by simp
      refine ⟨ht, .refl _, (list_setList_of_ne hne).trans hgray, h.lists .ephemeron, (by simp),
        fun _ => ⟨rfl, fun o ho => ?_⟩⟩
      rw [list_setList_self] at ho
      cases ho
    have hend := Converging.foldl hs hb₀ hstate dir _ hstart
    have hrun₀ : Run g (g.setList .ephemeron []) := ⟨fun _ => id, fun _ => id, rfl, rfl, rfl⟩
    unfold Gc.convergeFor
    generalize (g.list .ephemeron).foldl (convergeList dir) (g.setList .ephemeron [], false) = r at hend
    obtain ⟨g', changed⟩ := r
    obtain ⟨htri, hrun, hgray', -, hgrew, hstill⟩ := hend
    dsimp only at htri hrun hgray' hgrew hstill ⊢
    have htri' : Tri b P (fun _ => False) g' := htri.weaken fun _ => (by simp)
    cases changed with
    | true =>
      have hlt : g'.unmarked < g.unmarked := (hgrew rfl).unmarked_lt hb₀ htri.holds hrun
      obtain ⟨hconv, hrun'⟩ := @ih (!dir) g' htri' hgray' (hrun.state.trans hstate) (by omega)
      exact ⟨hconv, (hrun₀.trans hrun).trans hrun'⟩
    | false => exact ⟨⟨htri', hgray', (hstill rfl).2⟩, hrun₀.trans hrun⟩

theorem convergeEphemerons_converged (hs : Sound b P) (h : Tri b P (fun _ => False) g) (hgray : g.list .gray = [])
    (hstate : g.state = .finish) : Converged b P g.convergeEphemerons ∧ Run g g.convergeEphemerons := by
  refine convergeFor_converged hs _ h hgray hstate (Nat.lt_succ_of_le ?_)
  have hle := List.countP_le_length (p := g.white) (l := List.range g.count)
  rwa [List.length_range] at hle

end Tsuki.Collector
