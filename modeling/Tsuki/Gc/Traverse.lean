import Tsuki.Gc.Marking

/-!
# Traversals

What is done with one gray object: a table of each mode, a thread, and the others.
-/

namespace Tsuki.Collector

variable {b : Graph} {P : Nat → Prop} {g g' g'' : Gc}

/-- What is known of the entries of a weak table that is marked. -/
def WeakDone (g : Gc) (o : Nat) (t : Table) : Prop :=
  match t.weakKeys, t.weakVals with
  | true, true => o ∈ g.list .allweak
  | true, false => o ∈ g.list .ephemeron ∨ (∀ n ∈ t.entries, ∀ x ∈ n.val.refs, g.marked x = true) ∧
      (o ∈ g.list .allweak ∨ ∀ n ∈ t.entries, ∀ k ∈ n.key.refs, g.marked k = true)
  | false, true => o ∈ g.list .weak ∨ t.array = [] ∧ ∀ n ∈ t.entries, ∀ x ∈ n.val.refs, g.marked x = true
  | false, false => True

/-- Nothing is left to be done with an object but the clearing of weak tables. -/
def Done (b : Graph) (g : Gc) (o : Nat) : Prop := Closed b g o ∧ ∀ t, b o = some (.table t) → WeakDone g o t

/-- An object is done, or put off to the end of marking. -/
def Handled (b : Graph) (g : Gc) (o : Nat) : Prop :=
  Done b g o ∨ g.state = .propagate ∧ o ∈ g.list .grayagain

theorem WeakDone.mono {o : Nat} {t : Table} (h : WeakDone g o t) (hm : ∀ x, g.marked x = true → g'.marked x = true)
    (hl : ∀ l, l ≠ .gray → o ∈ g.list l → o ∈ g'.list l) : WeakDone g' o t := by
  unfold WeakDone at h ⊢
  split at h
  · exact hl _ nofun h
  · rcases h with h | ⟨hv, h | hk⟩
    · exact .inl (hl _ nofun h)
    · exact .inr ⟨fun n hn x hx => hm x (hv n hn x hx), .inl (hl _ nofun h)⟩
    · exact .inr ⟨fun n hn x hx => hm x (hv n hn x hx), .inr fun n hn k hkr => hm k (hk n hn k hkr)⟩
  · rcases h with h | ⟨ha, hv⟩
    · exact .inl (hl _ nofun h)
    · exact .inr ⟨ha, fun n hn x hx => hm x (hv n hn x hx)⟩
  · trivial

theorem Done.mono {o : Nat} (h : Done b g o) (hm : ∀ x, g.marked x = true → g'.marked x = true)
    (hl : ∀ l, l ≠ .gray → o ∈ g.list l → o ∈ g'.list l) : Done b g' o :=
  ⟨h.1.mono hm, fun t ht => (h.2 t ht).mono hm hl⟩

theorem Done.step {o : Nat} (h : Done b g o) (hstep : Step b P g g') : Done b g' o :=
  h.mono hstep.mono fun _ _ => hstep.mem

/-- An object that was white is marked. -/
def Grew (g g' : Gc) : Prop := ∃ x, g.white x = true ∧ g'.marked x = true

theorem Grew.before_of (hview : ∀ o, (g'.body o).map Body.view = (g.body o).map Body.view)
    (hm : ∀ x, g.marked x = true → g'.marked x = true) (hgrew : Grew g' g'') : Grew g g'' := by
  obtain ⟨x, hx, hx'⟩ := hgrew
  have hsome : (g.object x).isSome := by
    rw [← marked_of_view hview]
    exact white_isSome hx
  refine ⟨x, ?_, hx'⟩
  by_contra hw
  have hm := hm x (marked_of_white hsome (Bool.eq_false_iff.mpr hw))
  rw [not_marked_of_white hx] at hm
  cases hm

theorem Grew.before (h : Step b P g g') (hgrew : Grew g' g'') : Grew g g'' := .before_of h.view h.mono hgrew

theorem Grew.after (hgrew : Grew g g') (h : Step b P g' g'') : Grew g g'' := by
  obtain ⟨x, hx, hx'⟩ := hgrew
  exact ⟨x, hx, h.mono x hx'⟩

/-! ## Parts of tables -/

/-- A loop that leaves out nodes without a value is one over the entries. -/
theorem foldl_node {α : Type} {f : α → Node → α} (hf : ∀ s n, n.val = .nil → f s n = s) (l : List Node) :
    ∀ s, l.foldl f s = (l.filter fun n => n.val ≠ .nil).foldl f s := by
  induction l with
  | nil => exact fun _ => rfl
  | cons n l ih =>
    intro s
    rw [List.foldl_cons, ih, List.filter_cons]
    by_cases hn : n.val = .nil
    · rw [hf s n hn, if_neg (by simp [hn])]
    · rw [if_pos (by simp [hn]), List.foldl_cons]

theorem marked_setBody (o : Nat) (c : Body) (x : Nat) : (g.setBody o c).marked x = g.marked x := by
  unfold Gc.marked
  by_cases hx : x = o
  · subst hx
    rw [Gc.object_setBody_self]
    cases g.object x <;> rfl
  · rw [Gc.object_setBody_of_ne _ _ hx]

theorem white_setBody (o : Nat) (c : Body) (x : Nat) : (g.setBody o c).white x = g.white x := by
  unfold Gc.white
  by_cases hx : x = o
  · subst hx
    rw [Gc.object_setBody_self]
    cases g.object x <;> rfl
  · rw [Gc.object_setBody_of_ne _ _ hx]

theorem tidy_setNode {o : Nat} {t : Table} : Tidy (g.setNode o t (t.node.map Node.clearEmpty)) o := by
  intro t' ht' n hn hval
  unfold Gc.body Gc.setNode at ht'
  rw [Gc.object_setBody_self, Option.map_map] at ht'
  obtain ⟨_, -, heq⟩ := Option.map_eq_some_iff.mp ht'
  obtain rfl := Body.table.inj heq
  obtain ⟨n', -, rfl⟩ := List.mem_map.mp hn
  rw [Node.clearEmpty_val] at hval
  rw [Node.clearEmpty, if_pos hval]
  cases n'.key <;> rfl

theorem Step.setNode {o : Nat} {t : Table} (h : (g.body o).map Body.view = some (Body.table t).view) :
    Step b P g (g.setNode o t (t.node.map Node.clearEmpty)) where
  view x := by
    unfold Gc.setNode
    by_cases hx : x = o
    · subst hx
      unfold Gc.body at h ⊢
      rw [Gc.object_setBody_self, h]
      rw [Option.map_map] at h
      rw [Option.map_map, Option.map_map]
      cases hobj : g.object x with
      | none => rw [hobj] at h; cases h
      | some y => exact congrArg some (view_setNode rfl)
    · unfold Gc.body
      rw [Gc.object_setBody_of_ne _ _ hx]
  mono x hx := (marked_setBody o _ x).trans hx
  tidy x hx := by
    by_cases hxo : x = o
    · exact hxo ▸ tidy_setNode
    · exact hx.congr (by unfold Gc.body Gc.setNode; rw [Gc.object_setBody_of_ne _ _ hxo])
  new x hx := .inl ((marked_setBody o _ x).symm.trans hx)
  list l := ⟨[], rfl, nofun⟩
  state := rfl
  refs := rfl
  markedRefs := rfl
  root := rfl
  count := rfl
  twups _ := .inl
  clean := id
  unmarked := by
    have hw : (g.setNode o t (t.node.map Node.clearEmpty)).white = g.white := funext (white_setBody o _)
    show List.countP _ _ + _ ≤ _
    rw [hw]
    exact Nat.le_refl _

theorem mem_refs_of_entry {t : Table} {n : Node} {x : Nat} (hn : n ∈ t.entries) (hx : x ∈ n.key.refs ∨ x ∈ n.val.refs) :
    x ∈ (Body.table t).refs := by
  refine List.mem_append_right _ (List.mem_append_right _ (List.mem_flatMap.mpr ⟨n, hn, ?_⟩))
  exact List.mem_append.mpr hx

theorem mem_refs_of_slot {t : Table} {v : Val} {x : Nat} (hv : v ∈ t.array) (hx : x ∈ v.refs) :
    x ∈ (Body.table t).refs :=
  List.mem_append_right _ (List.mem_append_left _ (List.mem_flatMap.mpr ⟨v, hv, hx⟩))

/-- The values that are cleared are objects but strings that are white. -/
theorem isCleared_step (hs : Sound b P) (hb : Holds b g) {v : Val} (hm : ∀ x ∈ v.refs, Markable b x)
    (hp : ∀ x ∈ v.refs, b x = some .str → P x) :
    Step b P g (g.isCleared v).1 ∧ ((g.isCleared v).2 = false → ∀ x ∈ v.refs, (g.isCleared v).1.marked x = true) ∧
      ((g.isCleared v).2 = true → ∀ x ∈ v.refs, b x ≠ some .str) := by
  cases v with
  | obj o =>
    have ho : o ∈ (Val.obj o).refs := List.mem_singleton_self o
    have hsome := isSome_of_markable hb (hm o ho)
    obtain ⟨⟨body, k⟩, hx⟩ := Option.isSome_iff_exists.mp hsome
    have hbody : g.body o = some body := by rw [Gc.body, hx]; rfl
    unfold Gc.isCleared
    dsimp only
    rw [hx]
    dsimp only
    split
    · rename_i hstr
      have hstr : body = .str := hstr
      have hbo : b o = some .str := by
        obtain ⟨c, hc, -⟩ := hm o ho
        cases c with
        | table t =>
          obtain ⟨t', ht', -⟩ := body_table hb hc
          rw [hbody, hstr] at ht'
          cases ht'
        | _ =>
          have hbg := body_iff_view hb hc (by simp)
          rw [hbody, hstr] at hbg
          rw [hc, ← hbg]
      obtain ⟨hstep, hmarked⟩ := visit_step hs hb (hp o ho hbo) (hm o ho)
      refine ⟨hstep, fun _ x hx => ?_, (by simp)⟩
      obtain rfl := List.mem_singleton.mp hx
      exact hmarked
    · rename_i hstr
      refine ⟨.refl g, fun hw x hx' => ?_, fun _ x hx' hbx => ?_⟩
      · obtain rfl := List.mem_singleton.mp hx'
        exact marked_of_white hsome (by rw [Gc.white, hx]; exact hw)
      · obtain rfl := List.mem_singleton.mp hx'
        have hbg := body_iff_view hb hbx (by simp)
        rw [hbody] at hbg
        exact hstr (Option.some.inj hbg)
  | _ => exact ⟨.refl g, fun _ => by simp [Val.refs], fun _ => by simp [Val.refs]⟩

/-! ## Strong tables -/

/-- The traversal starts where the metatable is marked, and has the contents of the table of the graph. -/
structure Opened (b : Graph) (P : Nat → Prop) (g : Gc) (o : Nat) (t t' : Table) : Prop where
  ok : P o
  marked : g.marked o = true
  table : b o = some (.table t)
  view : (Body.table t').view = (Body.table t).view
  metatable : ∀ x ∈ t.metatable.toList, g.marked x = true
  state : g.state = .propagate ∨ g.state = .finish

variable {o : Nat} {t t' : Table}

theorem Opened.entries (h : Opened b P g o t t') : t'.entries = t.entries := by
  obtain ⟨_, heq, he, -⟩ := view_table h.view
  cases heq
  exact he

theorem Opened.array (h : Opened b P g o t t') : t'.array = t.array := by
  obtain ⟨_, heq, -, -, -, -, ha⟩ := view_table h.view
  cases heq
  exact ha

theorem Opened.setNode (h : Opened b P g o t t') (hb : Holds b g') :
    Step b P g' (g'.setNode o t' (t'.node.map Node.clearEmpty)) := by
  refine .setNode ?_
  rw [hb.view, h.table, h.view]
  rfl

theorem Opened.markable (h : Opened b P g o t t') (hs : Sound b P) {n : Node} (hn : n ∈ t.entries) {x : Nat}
    (hx : x ∈ n.key.refs ∨ x ∈ n.val.refs) : Markable b x :=
  hs.wf.refs h.table (mem_refs_of_entry hn hx)

theorem Opened.strong (h : Opened b P g o t t') (hs : Sound b P) {x : Nat} (hx : x ∈ (Body.table t).strong) :
    P x ∧ Markable b x :=
  ⟨hs.strong h.ok h.table hx, hs.markable h.table hx⟩

/-- The marked metatable, and all else. -/
theorem Opened.closed (h : Opened b P g o t t') (hstep : Step b P g g')
    (hx : ∀ x ∈ (Body.table t).strong, x ∈ t.metatable.toList ∨ g'.marked x = true) : Closed b g' o := by
  intro c hc x hxc
  rw [h.table] at hc
  obtain rfl := Option.some.inj hc
  rcases hx x hxc with hmt | hm
  · exact hstep.mono x (h.metatable x hmt)
  · exact hm

theorem Opened.weakDone (h : Opened b P g o t t') (hd : WeakDone g' o t) : ∀ t, b o = some (.table t) → WeakDone g' o t := by
  intro t₁ ht
  rw [h.table] at ht
  obtain rfl : t = t₁ := Body.table.inj (Option.some.inj ht)
  exact hd

theorem Opened.listed (h : Opened b P g o t t') : ∃ c, b o = some c ∧ c.Listed := ⟨_, h.table, trivial⟩

theorem strongNode_step (hs : Sound b P) (g : Gc) (n : Node) (hb : Holds b g)
    (hn : ∀ x ∈ (if n.val = .nil then [] else n.key.refs ++ n.val.refs), P x ∧ Markable b x) :
    Step b P g (strongNode g n) ∧
      ∀ x ∈ (if n.val = .nil then [] else n.key.refs ++ n.val.refs), (strongNode g n).marked x = true := by
  unfold strongNode
  split at hn
  · rename_i hv
    rw [if_pos hv, if_pos hv]
    exact ⟨.refl g, nofun⟩
  · rename_i hv
    rw [if_neg hv, if_neg hv]
    obtain ⟨h₁, hm₁⟩ := visitVal_step hs hb fun x hx => hn x (List.mem_append_left _ hx)
    obtain ⟨h₂, hm₂⟩ := visitVal_step hs (h₁.holds hb) fun x hx => hn x (List.mem_append_right _ hx)
    refine ⟨h₁.trans h₂, fun x hx => ?_⟩
    rcases List.mem_append.mp hx with hx | hx
    · exact h₂.mono x (hm₁ x hx)
    · exact hm₂ x hx

theorem flatMap_node {f : Node → List Nat} (l : List Node) :
    (l.flatMap fun n => if n.val = .nil then [] else f n) = (l.filter fun n => n.val ≠ .nil).flatMap f := by
  induction l with
  | nil => rfl
  | cons n l ih =>
    rw [List.flatMap_cons, ih, List.filter_cons]
    by_cases hn : n.val = .nil
    · rw [if_pos hn, if_neg (by simp [hn]), List.nil_append]
    · rw [if_neg hn, if_pos (by simp [hn]), List.flatMap_cons]

theorem markStrongTable_step (hs : Sound b P) (hb : Holds b g) (h : Opened b P g o t t') (hk : t.weakKeys = false)
    (hv : t.weakVals = false) : Step b P g (g.markStrongTable o t') ∧ Handled b (g.markStrongTable o t') o := by
  have hstrong : (Body.table t).strong = t.metatable.toList ++
      (t.array.flatMap Val.refs ++ t.entries.flatMap fun n => n.key.refs ++ n.val.refs) := by
    rw [Body.strong, hk, hv]
  have hflat : (t'.node.flatMap fun n => if n.val = .nil then [] else n.key.refs ++ n.val.refs) =
      t.entries.flatMap fun n => n.key.refs ++ n.val.refs := by
    rw [flatMap_node, ← h.entries]
    rfl
  have hok : ∀ x ∈ t.array.flatMap Val.refs ++ t.entries.flatMap fun n => n.key.refs ++ n.val.refs, P x ∧ Markable b x :=
    fun x hx => h.strong hs (hstrong ▸ List.mem_append_right _ hx)
  obtain ⟨h₁, hm₁⟩ := Step.foldl (P := P) (r := Val.refs) (fun g v hb hv => visitVal_step hs hb hv) t'.array hb
    fun v hv x hx => hok x (List.mem_append_left _ (List.mem_flatMap.mpr ⟨v, h.array ▸ hv, hx⟩))
  have hb₁ := h₁.holds hb
  obtain ⟨h₂, hm₂⟩ := Step.foldl (P := P) (r := fun n => if n.val = .nil then [] else n.key.refs ++ n.val.refs)
    (strongNode_step hs) t'.node hb₁ fun n hn x hx =>
      hok x (List.mem_append_right _ (hflat ▸ List.mem_flatMap.mpr ⟨n, hn, hx⟩))
  have h₃ := h.setNode (h₂.holds hb₁)
  have hstep := (h₁.trans h₂).trans h₃
  refine ⟨hstep, .inl ⟨h.closed hstep fun x hx => ?_, h.weakDone (by rw [WeakDone, hk, hv]; trivial)⟩⟩
  rw [hstrong] at hx
  rcases List.mem_append.mp hx with hx | hx
  · exact .inl hx
  · rcases List.mem_append.mp hx with hx | hx
    · exact .inr (h₃.mono x (h₂.mono x (hm₁ x (h.array ▸ hx))))
    · exact .inr (h₃.mono x (hm₂ x (hflat ▸ hx)))

/-! ## Tables with weak values -/

theorem weakNode_foldl (hs : Sound b P) (l : List Node) : ∀ {g : Gc} {c : Bool}, Holds b g →
    (∀ n ∈ l, n.val ≠ .nil ∧ (∀ x ∈ n.key.refs, P x ∧ Markable b x) ∧
      ∀ x ∈ n.val.refs, Markable b x ∧ (b x = some .str → P x)) →
    Step b P g (l.foldl weakNode (g, c)).1 ∧
      (∀ n ∈ l, ∀ x ∈ n.key.refs, (l.foldl weakNode (g, c)).1.marked x = true) ∧
      ((l.foldl weakNode (g, c)).2 = false →
        c = false ∧ ∀ n ∈ l, ∀ x ∈ n.val.refs, (l.foldl weakNode (g, c)).1.marked x = true) := by
  induction l with
  | nil => exact fun _ _ => ⟨.refl _, nofun, fun hc => ⟨hc, nofun⟩⟩
  | cons n l ih =>
    intro g c hb hl
    obtain ⟨hne, hkey, hval⟩ := hl n List.mem_cons_self
    obtain ⟨h₁, hm₁⟩ := visitVal_step hs hb hkey
    have hb₁ := h₁.holds hb
    have hrest := fun n' hn' => hl n' (List.mem_cons_of_mem n hn')
    rw [List.foldl_cons]
    rw [show weakNode (g, c) n = if c then (g.visitVal n.key, true) else (g.visitVal n.key).isCleared n.val from
      if_neg hne]
    cases c with
    | true =>
      obtain ⟨h₂, hk₂, hv₂⟩ := ih (c := true) hb₁ hrest
      refine ⟨h₁.trans h₂, List.forall_mem_cons.mpr ⟨fun x hx => h₂.mono x (hm₁ x hx), hk₂⟩, fun hc => ?_⟩
      cases (hv₂ hc).1
    | false =>
      obtain ⟨h₂, hm₂, -⟩ := isCleared_step hs hb₁ (fun x hx => (hval x hx).1) fun x hx => (hval x hx).2
      obtain ⟨h₃, hk₃, hv₃⟩ := @ih _ ((g.visitVal n.key).isCleared n.val).2 (h₂.holds hb₁) hrest
      refine ⟨(h₁.trans h₂).trans h₃, List.forall_mem_cons.mpr ⟨fun x hx => ?_, hk₃⟩, fun hc => ?_⟩
      · exact h₃.mono x (h₂.mono x (hm₁ x hx))
      · obtain ⟨hc₂, hv₃⟩ := hv₃ hc
        exact ⟨rfl, List.forall_mem_cons.mpr ⟨fun x hx => h₃.mono x (hm₂ hc₂ x hx), hv₃⟩⟩

theorem markWeakValue_step (hs : Sound b P) (hb : Holds b g) (h : Opened b P g o t t') (hk : t.weakKeys = false)
    (hv : t.weakVals = true) : Step b P g (g.markWeakValue o t') ∧ Handled b (g.markWeakValue o t') o := by
  have hstrong : (Body.table t).strong = t.metatable.toList ++ t.entries.flatMap fun n => n.key.refs := by
    rw [Body.strong, hk, hv]
  obtain ⟨h₁, hk₁, hv₁⟩ := weakNode_foldl hs t.entries (c := !t'.array.isEmpty) hb fun n hn =>
    ⟨of_decide_eq_true (List.mem_filter.mp hn).2,
      fun x hx => h.strong hs (hstrong ▸ List.mem_append_right _ (List.mem_flatMap.mpr ⟨n, hn, hx⟩)),
      fun x hx => ⟨h.markable hs hn (.inr hx), hs.weakVal h.ok h.table hk hv hn hx⟩⟩
  have hfold : t'.node.foldl weakNode (g, !t'.array.isEmpty) = t.entries.foldl weakNode (g, !t'.array.isEmpty) := by
    rw [foldl_node (f := weakNode) fun s n hn => if_pos hn, ← h.entries]
    rfl
  unfold Gc.markWeakValue
  rw [hfold]
  generalize t.entries.foldl weakNode (g, !t'.array.isEmpty) = r at h₁ hk₁ hv₁
  obtain ⟨g₁, hasclears⟩ := r
  dsimp only at h₁ hk₁ hv₁ ⊢
  have h₂ := h.setNode (h₁.holds hb)
  have h₁₂ := h₁.trans h₂
  generalize g₁.setNode o t' (t'.node.map Node.clearEmpty) = g₂ at h₂ h₁₂
  have hmo := h₁₂.mono o h.marked
  have hclosed : ∀ {g₃ : Gc}, Step b P g₂ g₃ → Closed b g₃ o := fun h₃ => h.closed (h₁₂.trans h₃) fun x hx => by
    rw [hstrong] at hx
    rcases List.mem_append.mp hx with hx | hx
    · exact .inl hx
    · obtain ⟨n, hn, hx⟩ := List.mem_flatMap.mp hx
      exact .inr (h₃.mono x (h₂.mono x (hk₁ n hn x hx)))
  split
  · have h₃ : Step b P g₂ (g₂.link o .weak) := .link (by simp) ⟨h.ok, hmo, t, h.table, hk, hv⟩
    refine ⟨h₁₂.trans h₃, .inl ⟨hclosed h₃, h.weakDone ?_⟩⟩
    rw [WeakDone, hk, hv]
    exact .inl (list_link_self ▸ List.mem_cons_self)
  · rename_i hnot
    have h₃ : Step b P g₂ (g₂.link o .grayagain) := .link (by simp) ⟨h.ok, hmo, h.listed⟩
    refine ⟨h₁₂.trans h₃, ?_⟩
    rcases h.state with hp | hf
    · exact .inr ⟨(h₁₂.trans h₃).state.trans hp, list_link_self ▸ List.mem_cons_self⟩
    · have hc : hasclears = false := Bool.eq_false_iff.mpr fun hc => hnot ⟨h₁₂.state.trans hf, hc⟩
      obtain ⟨harray, hval⟩ := hv₁ hc
      refine .inl ⟨hclosed h₃, h.weakDone ?_⟩
      rw [WeakDone, hk, hv]
      refine .inr ⟨?_, fun n hn x hx => h₃.mono x (h₂.mono x (hval n hn x hx))⟩
      rw [← h.array]
      exact List.isEmpty_iff.mp (by simpa using harray)

/-! ## Ephemerons -/

theorem isWhiteVal_eq_true {v : Val} (h : g.isWhiteVal v = true) : ∃ x, v = .obj x ∧ g.white x = true := by
  cases v with
  | obj x => exact ⟨x, rfl, h⟩
  | _ => cases h

theorem marked_of_not_isWhiteVal (hb : Holds b g) {v : Val} (h : g.isWhiteVal v = false) {x : Nat} (hx : x ∈ v.refs)
    (hm : Markable b x) : g.marked x = true := by
  cases v with
  | obj o =>
    obtain rfl := List.mem_singleton.mp hx
    exact marked_of_white (isSome_of_markable hb hm) h
  | _ => cases hx

theorem Grew.visitVal (hs : Sound b P) (hb : Holds b g) {v : Val} (hv : ∀ x ∈ v.refs, P x ∧ Markable b x)
    (h : g.isWhiteVal v = true) : Grew g (g.visitVal v) := by
  obtain ⟨x, rfl, hw⟩ := isWhiteVal_eq_true h
  exact ⟨x, hw, (visitVal_step hs hb hv).2 x (List.mem_singleton_self x)⟩

theorem ephemeronSlot_foldl (hs : Sound b P) (l : List Val) : ∀ {g : Gc} {c : Bool}, Holds b g →
    (∀ v ∈ l, ∀ x ∈ v.refs, P x ∧ Markable b x) →
    Step b P g (l.foldl ephemeronSlot (g, c)).1 ∧
      (∀ v ∈ l, ∀ x ∈ v.refs, (l.foldl ephemeronSlot (g, c)).1.marked x = true) ∧
      ((l.foldl ephemeronSlot (g, c)).2 = true → c = true ∨ Grew g (l.foldl ephemeronSlot (g, c)).1) := by
  induction l with
  | nil => exact fun _ _ => ⟨.refl _, nofun, .inl⟩
  | cons v l ih =>
    intro g c hb hl
    have hv := hl v List.mem_cons_self
    obtain ⟨h₁, hm₁⟩ := visitVal_step hs hb hv
    obtain ⟨h₂, hm₂, hc₂⟩ := @ih (g.visitVal v) (c || g.isWhiteVal v) (h₁.holds hb) fun v' hv' =>
      hl v' (List.mem_cons_of_mem v hv')
    rw [List.foldl_cons]
    refine ⟨h₁.trans h₂, List.forall_mem_cons.mpr ⟨fun x hx => h₂.mono x (hm₁ x hx), hm₂⟩, fun hc => ?_⟩
    rcases hc₂ hc with hor | hgrew
    · rcases Bool.or_eq_true_iff.mp hor with hc | hw
      · exact .inl hc
      · exact .inr ((Grew.visitVal hs hb hv hw).after h₂)
    · exact .inr (.before h₁ hgrew)

/-- What is all right to do with an entry of an ephemeron. -/
structure EntryOk (b : Graph) (P : Nat → Prop) (n : Node) : Prop where
  val : n.val ≠ .nil
  markable : ∀ x, x ∈ n.key.refs ∨ x ∈ n.val.refs → Markable b x
  key : ∀ k ∈ n.key.refs, b k = some .str → P k
  reach : (∀ k ∈ n.key.refs, b k = some .str ∨ P k) → ∀ x ∈ n.val.refs, P x

/-- All that is marked is all right to mark. -/
def AllOk (P : Nat → Prop) (g : Gc) : Prop := ∀ o, g.marked o = true → P o

theorem AllOk.step (h : AllOk P g) (hstep : Step b P g g') : AllOk P g' := by
  intro o ho
  rcases hstep.new o ho with ho | ⟨hp, -⟩
  · exact h o ho
  · exact hp

/-- What is known after the loop over the entries. -/
structure EphemeronLoop (b : Graph) (P : Nat → Prop) (g g' : Gc) (l : List Node) (fl fl' : Flags) : Prop where
  step : Step b P g g'
  key : ∀ n ∈ l, ∀ k ∈ n.key.refs, b k = some .str → g'.marked k = true
  hasclears : fl'.hasclears = false → fl.hasclears = false ∧ ∀ n ∈ l, ∀ k ∈ n.key.refs, g'.marked k = true
  hasww : fl'.hasww = false → fl.hasww = false ∧ ∀ n ∈ l, ∀ x ∈ n.val.refs, g'.marked x = true
  marked : fl'.marked = true → fl.marked = true ∨ Grew g g'

theorem ephemeronNode_step (hs : Sound b P) {n : Node} (hn : EntryOk b P n) (fl : Flags) (hb : Holds b g)
    (hok : AllOk P g) :
    EphemeronLoop b P g (ephemeronNode (g, fl) n).1 [n] fl (ephemeronNode (g, fl) n).2 := by
  have hkm := fun x hx => hn.markable x (.inl hx)
  have hvm := fun x hx => hn.markable x (.inr hx)
  obtain ⟨h₁, hm₁, hstr₁⟩ := isCleared_step hs hb hkm hn.key
  rw [ephemeronNode, if_neg hn.val]
  dsimp only
  generalize g.isCleared n.key = r at h₁ hm₁ hstr₁
  obtain ⟨g₁, c⟩ := r
  dsimp only at h₁ hm₁ hstr₁ ⊢
  have hb₁ := h₁.holds hb
  cases c with
  | true =>
    refine ⟨h₁, ?_, nofun, fun hww => ?_, .inl⟩
    · refine List.forall_mem_singleton.mpr fun k hk hstr => absurd hstr (hstr₁ rfl k hk)
    · obtain ⟨hfl, hw⟩ := Bool.or_eq_false_iff.mp hww
      exact ⟨hfl, List.forall_mem_singleton.mpr fun x hx => marked_of_not_isWhiteVal hb₁ hw hx (hvm x hx)⟩
  | false =>
    have hkeys := hm₁ rfl
    have hval : ∀ x ∈ n.val.refs, P x ∧ Markable b x := fun x hx =>
      ⟨hn.reach (fun k hk => .inr ((hok.step h₁) k (hkeys k hk))) x hx, hvm x hx⟩
    obtain ⟨h₂, hm₂⟩ := visitVal_step hs hb₁ hval
    refine ⟨h₁.trans h₂, ?_, fun hc => ⟨hc, ?_⟩, fun hw => ⟨hw, List.forall_mem_singleton.mpr hm₂⟩, fun hmk => ?_⟩
    · exact List.forall_mem_singleton.mpr fun k hk _ => h₂.mono k (hkeys k hk)
    · exact List.forall_mem_singleton.mpr fun k hk => h₂.mono k (hkeys k hk)
    · rcases Bool.or_eq_true_iff.mp hmk with hfl | hw
      · exact .inl hfl
      · exact .inr (.before h₁ (Grew.visitVal hs hb₁ hval hw))

theorem ephemeronNode_foldl (hs : Sound b P) (l : List Node) : ∀ {g : Gc} (fl : Flags), Holds b g → AllOk P g →
    (∀ n ∈ l, EntryOk b P n) →
    EphemeronLoop b P g (l.foldl ephemeronNode (g, fl)).1 l fl (l.foldl ephemeronNode (g, fl)).2 := by
  induction l with
  | nil => exact fun _ _ _ _ => ⟨.refl _, nofun, fun h => ⟨h, nofun⟩, fun h => ⟨h, nofun⟩, .inl⟩
  | cons n l ih =>
    intro g fl hb hok hl
    have h₁ := ephemeronNode_step hs (hl n List.mem_cons_self) fl hb hok
    rw [List.foldl_cons]
    generalize ephemeronNode (g, fl) n = s at h₁
    obtain ⟨g₁, fl₁⟩ := s
    have h₂ := ih fl₁ (h₁.step.holds hb) (hok.step h₁.step) fun n' hn' => hl n' (List.mem_cons_of_mem n hn')
    refine ⟨h₁.step.trans h₂.step, List.forall_mem_cons.mpr ⟨fun k hk hstr => ?_, h₂.key⟩, fun hc => ?_, fun hw => ?_,
      fun hmk => ?_⟩
    · exact h₂.step.mono k (h₁.key n (List.mem_singleton_self n) k hk hstr)
    · obtain ⟨hc₁, hk₂⟩ := h₂.hasclears hc
      obtain ⟨hc, hk₁⟩ := h₁.hasclears hc₁
      exact ⟨hc, List.forall_mem_cons.mpr ⟨fun k hk => h₂.step.mono k (hk₁ n (List.mem_singleton_self n) k hk), hk₂⟩⟩
    · obtain ⟨hw₁, hv₂⟩ := h₂.hasww hw
      obtain ⟨hw, hv₁⟩ := h₁.hasww hw₁
      exact ⟨hw, List.forall_mem_cons.mpr ⟨fun x hx => h₂.step.mono x (hv₁ n (List.mem_singleton_self n) x hx), hv₂⟩⟩
    · rcases h₂.marked hmk with hmk | hgrew
      · rcases h₁.marked hmk with hmk | hgrew
        · exact .inl hmk
        · exact .inr (hgrew.after h₂.step)
      · exact .inr (.before h₁.step hgrew)

theorem Opened.entryOk (h : Opened b P g o t t') (hs : Sound b P) (hk : t.weakKeys = true) (hv : t.weakVals = false)
    {n : Node} (hn : n ∈ t.entries) : EntryOk b P n where
  val := of_decide_eq_true (List.mem_filter.mp hn).2
  markable _ hx := h.markable hs hn hx
  key _ hkr hstr := hs.ephemeronKey h.ok h.table hk hv hn hkr hstr
  reach hkeys _ hx := hs.ephemeronVal h.ok h.table hk hv hn hkeys hx

theorem foldl_nodes (inv : Bool) (t : Table) (s : Gc × Flags) :
    (if inv then t.node.reverse else t.node).foldl ephemeronNode s =
      (if inv then t.entries.reverse else t.entries).foldl ephemeronNode s := by
  have hskip : ∀ (s : Gc × Flags) n, n.val = .nil → ephemeronNode s n = s := fun s n hn => if_pos hn
  cases inv with
  | true =>
    rw [if_pos rfl, if_pos rfl, foldl_node hskip, List.filter_reverse]
    rfl
  | false => exact foldl_node hskip _ _

theorem mem_nodes {inv : Bool} {t : Table} {n : Node} :
    n ∈ (if inv then t.entries.reverse else t.entries) ↔ n ∈ t.entries := by
  cases inv with
  | true => exact List.mem_reverse
  | false => exact Iff.rfl

theorem markEphemeron_step (hs : Sound b P) (hb : Holds b g) (hok : AllOk P g) (h : Opened b P g o t t')
    (hk : t.weakKeys = true) (hv : t.weakVals = false) (inv : Bool) :
    Step b P g (g.markEphemeron o t' inv).1 ∧ Handled b (g.markEphemeron o t' inv).1 o ∧
      ((g.markEphemeron o t' inv).2 = true → Grew g (g.markEphemeron o t' inv).1) := by
  have hstrong : (Body.table t).strong = t.metatable.toList ++ t.array.flatMap Val.refs := by
    rw [Body.strong, hk, hv]
  obtain ⟨h₁, hm₁, hc₁⟩ := ephemeronSlot_foldl hs t'.array (c := false) hb fun v hv x hx =>
    h.strong hs (hstrong ▸ List.mem_append_right _ (List.mem_flatMap.mpr ⟨v, h.array ▸ hv, hx⟩))
  unfold Gc.markEphemeron
  dsimp only
  rw [foldl_nodes, h.entries]
  generalize t'.array.foldl ephemeronSlot (g, false) = r at h₁ hm₁ hc₁
  obtain ⟨g₁, c₁⟩ := r
  dsimp only at h₁ hm₁ hc₁ ⊢
  have hb₁ := h₁.holds hb
  have hloop := ephemeronNode_foldl hs (if inv then t.entries.reverse else t.entries) ⟨c₁, false, false⟩ hb₁
    (hok.step h₁) fun n hn => h.entryOk hs hk hv (mem_nodes.mp hn)
  generalize (if inv then t.entries.reverse else t.entries).foldl ephemeronNode (g₁, ⟨c₁, false, false⟩) = r at hloop
  obtain ⟨g₂, fl⟩ := r
  dsimp only at hloop ⊢
  have h₃ := h.setNode (hloop.step.holds hb₁)
  have h₁₃ := (h₁.trans hloop.step).trans h₃
  have htidy : Tidy (g₂.setNode o t' (t'.node.map Node.clearEmpty)) o := tidy_setNode
  generalize g₂.setNode o t' (t'.node.map Node.clearEmpty) = g₃ at h₃ h₁₃ htidy
  have hmo := h₁₃.mono o h.marked
  have hclosed : ∀ {g₄ : Gc}, Step b P g₃ g₄ → Closed b g₄ o := fun h₄ => h.closed (h₁₃.trans h₄) fun x hx => by
    rw [hstrong] at hx
    rcases List.mem_append.mp hx with hx | hx
    · exact .inl hx
    · obtain ⟨v, hv, hx⟩ := List.mem_flatMap.mp hx
      exact .inr (h₄.mono x (h₃.mono x (hloop.step.mono x (hm₁ v (h.array ▸ hv) x hx))))
  have hkeys : ∀ n ∈ t.entries, ∀ k ∈ n.key.refs, b k = some .str → g₃.marked k = true := fun n hn k hkr hstr =>
    h₃.mono k (hloop.key n (mem_nodes.mpr hn) k hkr hstr)
  have hvals : fl.hasww = false → ∀ n ∈ t.entries, ∀ x ∈ n.val.refs, g₃.marked x = true := fun hw n hn x hx =>
    h₃.mono x ((hloop.hasww hw).2 n (mem_nodes.mpr hn) x hx)
  have hlink : Step b P g₃ (g₃.linkEphemeron o fl) ∧ Handled b (g₃.linkEphemeron o fl) o := by
    unfold Gc.linkEphemeron
    split
    · rename_i hp
      have h₄ : Step b P g₃ (g₃.link o .grayagain) := .link (by simp) ⟨h.ok, hmo, h.listed⟩
      exact ⟨h₄, .inr ⟨h₄.state.trans hp, list_link_self ▸ List.mem_cons_self⟩⟩
    · split
      · have h₄ : Step b P g₃ (g₃.link o .ephemeron) :=
          .link (by simp) ⟨h.ok, hmo, hclosed (.refl _), htidy, t, h.table, hk, hv, hkeys⟩
        refine ⟨h₄, .inl ⟨hclosed h₄, h.weakDone ?_⟩⟩
        rw [WeakDone, hk, hv]
        exact .inl (list_link_self ▸ List.mem_cons_self)
      · rename_i hww
        have hvals := hvals (Bool.eq_false_iff.mpr hww)
        split
        · have h₄ : Step b P g₃ (g₃.link o .allweak) := .link (by simp)
            ⟨h.ok, hmo, t, h.table, hk, fun _ => ⟨hclosed (.refl _), htidy, hvals⟩⟩
          refine ⟨h₄, .inl ⟨hclosed h₄, h.weakDone ?_⟩⟩
          rw [WeakDone, hk, hv]
          exact .inr ⟨fun n hn x hx => h₄.mono x (hvals n hn x hx), .inl (list_link_self ▸ List.mem_cons_self)⟩
        · rename_i hc
          refine ⟨.refl _, .inl ⟨hclosed (.refl _), h.weakDone ?_⟩⟩
          rw [WeakDone, hk, hv]
          refine .inr ⟨hvals, .inr fun n hn k hkr => h₃.mono k ?_⟩
          exact (hloop.hasclears (Bool.eq_false_iff.mpr hc)).2 n (mem_nodes.mpr hn) k hkr
  refine ⟨h₁₃.trans hlink.1, hlink.2, fun hmk => ?_⟩
  refine Grew.after ?_ (h₃.trans hlink.1)
  rcases hloop.marked hmk with hc | hgrew
  · rcases hc₁ hc with hf | hgrew
    · cases hf
    · exact hgrew.after hloop.step
  · exact .before h₁ hgrew

/-! ## All of the objects -/

/-- The traversal of a table, from where it is marked and not in a list. -/
theorem markTableBody_step (hs : Sound b P) (hb : Holds b g) (hok : AllOk P g) (hp : P o) (hm : g.marked o = true)
    (ht : b o = some (.table t)) (hview : (Body.table t').view = (Body.table t).view)
    (hstate : g.state = .propagate ∨ g.state = .finish) :
    Step b P g (g.markTableBody o t') ∧ Handled b (g.markTableBody o t') o := by
  have hsub : ∀ x ∈ t.metatable.toList, x ∈ (Body.table t).strong := fun x hx => List.mem_append_left _ hx
  obtain ⟨_, heq, -, hwk, hwv, hmt, -⟩ := view_table hview
  obtain rfl : t' = _ := Body.table.inj heq
  obtain ⟨h₁, hm₁⟩ := visitOpt_step hs hb (p := t'.metatable) fun x hx =>
    ⟨hs.strong hp ht (hsub x (hmt ▸ hx)), hs.markable ht (hsub x (hmt ▸ hx))⟩
  have hb₁ := h₁.holds hb
  have hopen : Opened b P (g.visitOpt t'.metatable) o t t' :=
    ⟨hp, h₁.mono o hm, ht, hview, fun x hx => hm₁ x (hmt ▸ hx), h₁.state ▸ hstate⟩
  unfold Gc.markTableBody
  dsimp only
  generalize g.visitOpt t'.metatable = g₁ at h₁ hb₁ hopen
  rw [hwk, hwv]
  cases hk : t.weakKeys with
  | true =>
    cases hv : t.weakVals with
    | true =>
      have h₂ : Step b P g₁ (g₁.link o .allweak) :=
        .link nofun ⟨hp, hopen.marked, t, ht, hk, fun hf => nomatch hf.symm.trans hv⟩
      refine ⟨h₁.trans h₂, .inl ⟨hopen.closed h₂ fun x hx => ?_, hopen.weakDone ?_⟩⟩
      · rw [Body.strong, hk, hv] at hx
        exact .inl (List.append_nil (t.metatable.toList) ▸ hx)
      · rw [WeakDone, hk, hv]
        exact list_link_self ▸ List.mem_cons_self
    | false =>
      obtain ⟨h₂, hh, -⟩ := markEphemeron_step hs hb₁ (hok.step h₁) hopen hk hv false
      exact ⟨h₁.trans h₂, hh⟩
  | false =>
    cases hv : t.weakVals with
    | true =>
      obtain ⟨h₂, hh⟩ := markWeakValue_step hs hb₁ hopen hk hv
      exact ⟨h₁.trans h₂, hh⟩
    | false =>
      obtain ⟨h₂, hh⟩ := markStrongTable_step hs hb₁ hopen hk hv
      exact ⟨h₁.trans h₂, hh⟩

theorem Step.setTwups (us : List Nat) (h : ∀ th ∈ us, th ∈ g.twups ∨ ∃ stack us, b th = some (.thread stack us)) :
    Step b P g { g with twups := us } where
  view _ := rfl
  mono _ := id
  tidy _ := id
  new _ := .inl
  list _ := ⟨[], rfl, nofun⟩
  state := rfl
  refs := rfl
  markedRefs := rfl
  root := rfl
  count := rfl
  twups := h
  clean := id
  unmarked := Nat.le_refl _

/-- An object that is no table is done when all is marked that it refers to. -/
theorem done_of_closed {c : Body} (hc : b o = some c) (ht : ∀ t, c ≠ .table t) (h : ∀ x ∈ c.strong, g.marked x = true) :
    Done b g o := by
  refine ⟨fun c' hc' x hx => ?_, fun t hbt => absurd (Option.some.inj (hc.symm.trans hbt)) (ht t)⟩
  rw [hc] at hc'
  exact h x (Option.some.inj hc' ▸ hx)

theorem markThread_step (hs : Sound b P) (hb : Holds b g) (hp : P o) (hm : g.marked o = true) {stack : Option (List Val)}
    {openupval : List Nat} (hc : b o = some (.thread stack openupval)) :
    Step b P g (g.markThread o stack openupval) ∧ Handled b (g.markThread o stack openupval) o := by
  unfold Gc.markThread
  split
  · rename_i hstate
    have h : Step b P g (g.link o .grayagain) := .link nofun ⟨hp, hm, _, hc, trivial⟩
    exact ⟨h, .inr ⟨h.state.trans hstate, list_link_self ▸ List.mem_cons_self⟩⟩
  · cases stack with
    | none => exact ⟨.refl g, .inl (done_of_closed hc nofun nofun)⟩
    | some slots =>
      have hok : ∀ x ∈ slots.flatMap Val.refs ++ openupval, P x ∧ Markable b x := fun x hx =>
        ⟨hs.strong hp hc hx, hs.markable hc hx⟩
      obtain ⟨h₁, hm₁⟩ := Step.foldl (P := P) (r := Val.refs) (fun g v hb hv => visitVal_step hs hb hv) slots hb
        fun v hv x hx => hok x (List.mem_append_left _ (List.mem_flatMap.mpr ⟨v, hv, hx⟩))
      obtain ⟨h₂, hm₂⟩ := Step.foldl (P := P) (f := Gc.visit) (r := fun x => [x])
        (fun g x hb hx => by
          obtain ⟨h, hm⟩ := visit_step hs hb (hx x List.mem_cons_self).1 (hx x List.mem_cons_self).2
          exact ⟨h, List.forall_mem_singleton.mpr hm⟩)
        openupval (h₁.holds hb) fun x hx => List.forall_mem_singleton.mpr (hok x (List.mem_append_right _ hx))
      have h₁₂ := h₁.trans h₂
      have hclosed : ∀ {g₃ : Gc}, Step b P (openupval.foldl Gc.visit (slots.foldl Gc.visitVal g)) g₃ → Done b g₃ o :=
        fun h₃ => done_of_closed hc nofun fun x hx => by
          rcases List.mem_append.mp hx with hx | hx
          · exact h₃.mono x (h₂.mono x (hm₁ x hx))
          · exact h₃.mono x (hm₂ x (List.mem_flatMap.mpr ⟨x, hx, List.mem_cons_self⟩))
      dsimp only
      split
      · have h₃ : Step b P (openupval.foldl Gc.visit (slots.foldl Gc.visitVal g)) _ :=
          .setTwups (o :: (openupval.foldl Gc.visit (slots.foldl Gc.visitVal g)).twups) fun th hth => by
            rcases List.mem_cons.mp hth with rfl | hth
            · exact .inr ⟨_, _, hc⟩
            · exact .inl hth
        exact ⟨h₁₂.trans h₃, .inl (hclosed h₃)⟩
      · exact ⟨h₁₂, .inl (hclosed (.refl _))⟩

theorem visitOpts_step (hs : Sound b P) (l : List (Option Nat)) (hb : Holds b g)
    (hl : ∀ x ∈ l.flatMap Option.toList, P x ∧ Markable b x) :
    Step b P g (l.foldl Gc.visitOpt g) ∧ ∀ x ∈ l.flatMap Option.toList, (l.foldl Gc.visitOpt g).marked x = true :=
  Step.foldl (r := Option.toList) (fun _ _ hb hp => visitOpt_step hs hb hp) l hb fun p hp x hx =>
    hl x (List.mem_flatMap.mpr ⟨p, hp, hx⟩)

theorem visitVals_step (hs : Sound b P) (l : List Val) (hb : Holds b g)
    (hl : ∀ x ∈ l.flatMap Val.refs, P x ∧ Markable b x) :
    Step b P g (l.foldl Gc.visitVal g) ∧ ∀ x ∈ l.flatMap Val.refs, (l.foldl Gc.visitVal g).marked x = true :=
  Step.foldl (r := Val.refs) (fun _ _ hb hv => visitVal_step hs hb hv) l hb fun v hv x hx =>
    hl x (List.mem_flatMap.mpr ⟨v, hv, hx⟩)

/-- The traversal of an object, from where it is marked and not in a list. -/
theorem markBody_step (hs : Sound b P) (hb : Holds b g) (hok : AllOk P g) (hp : P o) (hm : g.marked o = true) {c : Body}
    (hc : b o = some c) (hl : c.Listed) {c' : Body} (hview : c'.view = c.view)
    (hstate : g.state = .propagate ∨ g.state = .finish) :
    Step b P g (g.markBody o c') ∧ Handled b (g.markBody o c') o := by
  have hstrong : ∀ x ∈ c.strong, P x ∧ Markable b x := fun x hx => ⟨hs.strong hp hc hx, hs.markable hc hx⟩
  cases c with
  | str | rustId | upVal _ _ | userData _ _ | sweepMark => exact hl.elim
  | table t =>
    obtain ⟨t', rfl, -⟩ := view_table hview
    exact markTableBody_step hs hb hok hp hm hc hview hstate
  | thread stack openupval =>
    obtain rfl := view_other hview nofun
    exact markThread_step hs hb hp hm hc
  | luaFn p upvals =>
    obtain rfl := view_other hview nofun
    obtain ⟨h₁, hm₁⟩ := visitOpt_step hs hb fun x hx => hstrong x (List.mem_append_left _ hx)
    obtain ⟨h₂, hm₂⟩ := visitOpts_step hs upvals (h₁.holds hb) fun x hx => hstrong x (List.mem_append_right _ hx)
    refine ⟨h₁.trans h₂, .inl (done_of_closed hc nofun fun x hx => ?_)⟩
    rcases List.mem_append.mp hx with hx | hx
    · exact h₂.mono x (hm₁ x hx)
    · exact hm₂ x hx
  | rustFn upvalue =>
    obtain rfl := view_other hview nofun
    obtain ⟨h, hm⟩ := visitVals_step hs upvalue hb hstrong
    exact ⟨h, .inl (done_of_closed hc nofun hm)⟩
  | collection items =>
    obtain rfl := view_other hview nofun
    obtain ⟨h, hm⟩ := visitVals_step hs items hb hstrong
    exact ⟨h, .inl (done_of_closed hc nofun hm)⟩
  | proto k upvalues p locvars =>
    obtain rfl := view_other hview nofun
    obtain ⟨h₁, hm₁⟩ := visitVals_step hs k hb fun x hx => hstrong x (List.mem_append_left _ hx)
    have hb₁ := h₁.holds hb
    obtain ⟨h₂, hm₂⟩ := visitOpts_step hs upvalues hb₁ fun x hx =>
      hstrong x (List.mem_append_right _ (List.mem_append_left _ hx))
    have hb₂ := h₂.holds hb₁
    obtain ⟨h₃, hm₃⟩ := visitOpts_step hs p hb₂ fun x hx =>
      hstrong x (List.mem_append_right _ (List.mem_append_right _ (List.mem_append_left _ hx)))
    obtain ⟨h₄, hm₄⟩ := visitOpts_step hs locvars (h₃.holds hb₂) fun x hx =>
      hstrong x (List.mem_append_right _ (List.mem_append_right _ (List.mem_append_right _ hx)))
    refine ⟨((h₁.trans h₂).trans h₃).trans h₄, .inl (done_of_closed hc nofun fun x hx => ?_)⟩
    rcases List.mem_append.mp hx with hx | hx
    · exact h₄.mono x (h₃.mono x (h₂.mono x (hm₁ x hx)))
    rcases List.mem_append.mp hx with hx | hx
    · exact h₄.mono x (h₃.mono x (hm₂ x hx))
    rcases List.mem_append.mp hx with hx | hx
    · exact h₄.mono x (hm₃ x hx)
    · exact hm₄ x hx

/-! ## The list of gray objects -/

/-- All that is marked is all right to mark, and what is not in the list of gray objects is handled, or is one of `Q`. -/
structure Tri (b : Graph) (P : Nat → Prop) (Q : Nat → Prop) (g : Gc) : Prop where
  holds : Holds b g
  ok : AllOk P g
  lists : ∀ l, ∀ o ∈ g.list l, InList b P g l o
  handled : ∀ o, g.marked o = true → Q o ∨ o ∈ g.list .gray ∨ Handled b g o
  twups : ∀ th ∈ g.twups, ∃ stack us, b th = some (.thread stack us)
  clean : Clean g

variable {Q : Nat → Prop}

theorem Handled.step (h : Handled b g o) (hstep : Step b P g g') : Handled b g' o := by
  rcases h with hd | ⟨hst, hl⟩
  · exact .inl (hd.step hstep)
  · exact .inr ⟨hstep.state.trans hst, hstep.mem hl⟩

theorem Step.tri (h : Step b P g g') (ht : Tri b P Q g) : Tri b P Q g' where
  holds := h.holds ht.holds
  ok := ht.ok.step h
  lists l o ho := by
    obtain ⟨os, hos, hin⟩ := h.list l
    rw [hos] at ho
    rcases List.mem_append.mp ho with ho | ho
    · exact hin o ho
    · exact (ht.lists l o ho).mono h.mono h.tidy
  handled o ho := by
    rcases h.new o ho with ho | ⟨-, hgray | ⟨hc, hl⟩⟩
    · rcases ht.handled o ho with hq | hgray | hh
      · exact .inl hq
      · exact .inr (.inl (h.mem hgray))
      · exact .inr (.inr (hh.step h))
    · exact .inr (.inl hgray)
    · exact .inr (.inr (.inl ⟨hc, fun t ht => absurd trivial (hl _ ht)⟩))
  twups th hth := (h.twups th hth).elim (ht.twups th) id
  clean := h.clean ht.clean

theorem Tri.weaken {Q' : Nat → Prop} (h : Tri b P Q g) (hq : ∀ o, Q o → Q' o) : Tri b P Q' g :=
  { h with handled := fun o ho => (h.handled o ho).imp_left (hq o) }

end Tsuki.Collector
