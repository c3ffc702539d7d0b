import Tsuki.Gc.Converge

/-!
# Clearing

What is left of weak tables: the values and the keys are cleared that are not present, and the strings are marked that are
asked for.
-/

namespace Tsuki.Collector

variable {b : Graph} {roots : List Nat} {P : Nat → Prop} {ok : Val → Bool} {k k₀ : Bool} {g g' g'' : Gc} {o : Nat}
  {t t' t'' : Table}

/-- What is marked at the end. -/
def Live (b : Graph) (roots : List Nat) (o : Nat) : Prop := Reach b roots o ∨ Shown b (Reach b roots) o

/-- An entry that is not removed, by its key only where keys are cleared too. -/
def Keep (ok : Val → Bool) (k : Bool) (t : Table) (n : Node) : Prop :=
  (t.weakVals = true → ok n.val = true) ∧ (k = true → t.weakKeys = true → ok n.key = true)

/-- What is left of a table at any time. -/
structure Cut (ok : Val → Bool) (k : Bool) (t t' : Table) : Prop where
  weakKeys : t'.weakKeys = t.weakKeys
  weakVals : t'.weakVals = t.weakVals
  metatable : t'.metatable = t.metatable
  array : ∃ p : Val → Bool, (∀ v ∈ t.array, (t.weakVals = true → ok v = true) → p v = true) ∧
    t'.array = t.array.map fun v => if p v then v else Val.nil
  entries : ∃ p : Node → Bool, (∀ n ∈ t.entries, Keep ok k t n → p n = true) ∧ t'.entries = t.entries.filter p

theorem Cut.of_view (h : (Body.table t').view = (Body.table t).view) : Cut ok k t t' := by
  obtain ⟨_, heq, he, hk, hv, hm, ha⟩ := view_table h
  cases heq
  exact ⟨hk, hv, hm, ⟨fun _ => true, fun _ _ _ => rfl, by simp [ha]⟩, ⟨fun _ => true, fun _ _ _ => rfl, by simp [he]⟩⟩

theorem Cut.trans (h : Cut ok k t t') (h' : Cut ok k t' t'') : Cut ok k t t'' := by
  obtain ⟨hk, hv, hm, ⟨p, hp, ha⟩, ⟨q, hq, he⟩⟩ := h
  obtain ⟨hk', hv', hm', ⟨p', hp', ha'⟩, ⟨q', hq', he'⟩⟩ := h'
  refine ⟨hk'.trans hk, hv'.trans hv, hm'.trans hm, ⟨fun v => p v && p' v, fun v hva hw => ?_, ?_⟩,
    ⟨fun n => q' n && q n, fun n hn hkeep => ?_, ?_⟩⟩
  · have hpv := hp v hva hw
    have hva' : v ∈ t'.array := ha ▸ List.mem_map.mpr ⟨v, hva, if_pos hpv⟩
    exact Bool.and_eq_true_iff.mpr ⟨hpv, hp' v hva' (hv ▸ hw)⟩
  · rw [ha', ha, List.map_map]
    refine List.map_congr_left fun v _ => ?_
    rw [Function.comp_apply]
    by_cases hpv : p v = true
    · simp [hpv]
    · simp [Bool.eq_false_iff.mpr hpv]
  · have hqn := hq n hn hkeep
    have hn' : n ∈ t'.entries := he ▸ List.mem_filter.mpr ⟨hn, hqn⟩
    have hkeep' : Keep ok k t' n := by
      unfold Keep
      rw [hv, hk]
      exact hkeep
    exact Bool.and_eq_true_iff.mpr ⟨hq' n hn' hkeep', hqn⟩
  · rw [he', he, List.filter_filter]

theorem Cut.withKeys (h : Cut ok false t t') : Cut ok true t t' := by
  obtain ⟨hk, hv, hm, ha, ⟨q, hq, he⟩⟩ := h
  exact ⟨hk, hv, hm, ha, q, fun n hn hkeep => hq n hn ⟨hkeep.1, nofun⟩, he⟩

theorem Cut.mem_entries (h : Cut ok k t t') {n : Node} (hn : n ∈ t'.entries) : n ∈ t.entries := by
  obtain ⟨q, -, he⟩ := h.entries
  rw [he] at hn
  exact (List.mem_filter.mp hn).1

theorem Cut.mem_array (h : Cut ok k t t') {v : Val} (hv : v ∈ t'.array) : v = .nil ∨ v ∈ t.array := by
  obtain ⟨p, -, ha⟩ := h.array
  rw [ha] at hv
  obtain ⟨v', hv', rfl⟩ := List.mem_map.mp hv
  cases p v' with
  | true => exact .inr hv'
  | false => exact .inl rfl

theorem Cut.slot (h : Cut ok k t t') {v : Val} (hv : v ∈ t'.array) {x : Nat} (hx : x ∈ v.refs) : v ∈ t.array := by
  rcases h.mem_array hv with rfl | hv
  · cases hx
  · exact hv

theorem Cut.keep_entry (h : Cut ok k t t') {n : Node} (hn : n ∈ t.entries) (hkeep : Keep ok k t n) : n ∈ t'.entries := by
  obtain ⟨q, hq, he⟩ := h.entries
  rw [he]
  exact List.mem_filter.mpr ⟨hn, hq n hn hkeep⟩

theorem Cut.keep_slot (h : Cut ok k t t') {v : Val} (hv : v ∈ t.array) (hok : t.weakVals = true → ok v = true) :
    v ∈ t'.array := by
  obtain ⟨p, hp, ha⟩ := h.array
  rw [ha]
  exact List.mem_map.mpr ⟨v, hv, if_pos (hp v hv hok)⟩

theorem Cut.slots_subset (h : Cut ok k t t') {x : Nat} (hx : x ∈ t'.array.flatMap Val.refs) :
    x ∈ t.array.flatMap Val.refs := by
  obtain ⟨v, hv, hx⟩ := List.mem_flatMap.mp hx
  exact List.mem_flatMap.mpr ⟨v, h.slot hv hx, hx⟩

theorem Cut.nodes_subset (h : Cut ok k t t') {f : Node → List Nat} {x : Nat} (hx : x ∈ t'.entries.flatMap f) :
    x ∈ t.entries.flatMap f := by
  obtain ⟨n, hn, hx⟩ := List.mem_flatMap.mp hx
  exact List.mem_flatMap.mpr ⟨n, h.mem_entries hn, hx⟩

theorem Cut.strong_subset (h : Cut ok k t t') {x : Nat} (hx : x ∈ (Body.table t').strong) : x ∈ (Body.table t).strong := by
  rw [Body.strong, h.weakKeys, h.weakVals, h.metatable] at hx
  rw [Body.strong]
  refine (List.mem_append.mp hx).elim (List.mem_append_left _) fun hx => List.mem_append_right _ ?_
  split at hx
  · exact hx
  · exact h.slots_subset hx
  · exact h.nodes_subset hx
  · exact (List.mem_append.mp hx).elim (fun hx => List.mem_append_left _ (h.slots_subset hx)) fun hx =>
      List.mem_append_right _ (h.nodes_subset hx)

theorem Cut.refs_subset (h : Cut ok k t t') {x : Nat} (hx : x ∈ (Body.table t').refs) : x ∈ (Body.table t).refs := by
  rw [Body.refs, h.metatable] at hx
  rw [Body.refs]
  refine (List.mem_append.mp hx).elim (List.mem_append_left _) fun hx => List.mem_append_right _ ?_
  exact (List.mem_append.mp hx).elim (fun hx => List.mem_append_left _ (h.slots_subset hx)) fun hx =>
    List.mem_append_right _ (h.nodes_subset hx)

/-! ## What is left of a graph -/

/-- The collector holds what is left of the graph. -/
structure Remains (b : Graph) (ok : Val → Bool) (k : Bool) (g : Gc) : Prop where
  other : ∀ {o c}, b o = some c → (∀ t, c ≠ .table t) → g.body o = some c
  table : ∀ {o t}, b o = some (.table t) → ∃ t', g.body o = some (.table t') ∧ Cut ok k t t'
  none : ∀ {o}, b o = none → g.body o = none

theorem Holds.remains (hb : Holds b g) : Remains b ok k g where
  other hc ht := body_iff_view hb hc ht
  table {o t} hc := by
    have hv := hb.view o
    rw [hc] at hv
    obtain ⟨c', hc', heq⟩ := Option.map_eq_some_iff.mp hv
    obtain ⟨t', rfl, -⟩ := view_table heq
    exact ⟨t', hc', .of_view heq⟩
  none {o} hc := by
    have hv := hb.view o
    rw [hc] at hv
    exact Option.map_eq_none_iff.mp hv

theorem Remains.trans (h : Remains b ok k g) (h' : Remains g.body ok k g') : Remains b ok k g' where
  other hc ht := h'.other (h.other hc ht) ht
  table hc := by
    obtain ⟨t₁, ht₁, hcut⟩ := h.table hc
    obtain ⟨t₂, ht₂, hcut'⟩ := h'.table ht₁
    exact ⟨t₂, ht₂, hcut.trans hcut'⟩
  none hc := h'.none (h.none hc)

theorem Remains.withKeys (h : Remains b ok false g) : Remains b ok true g where
  other := h.other
  table hc := by
    obtain ⟨t', ht', hcut⟩ := h.table hc
    exact ⟨t', ht', hcut.withKeys⟩
  none := h.none

/-- Where an object is from. -/
theorem Remains.back (h : Remains b ok k g) {c : Body} (hc : g.body o = some c) :
    b o = some c ∧ (∀ t, c ≠ .table t) ∨ ∃ t t', b o = some (.table t) ∧ c = .table t' ∧ Cut ok k t t' := by
  cases hb : b o with
  | none =>
    rw [h.none hb] at hc
    cases hc
  | some c₀ =>
    cases c₀ with
    | table t =>
      obtain ⟨t', ht', hcut⟩ := h.table hb
      exact .inr ⟨t, t', rfl, Option.some.inj (hc.symm.trans ht'), hcut⟩
    | _ =>
      obtain rfl := Option.some.inj (hc.symm.trans (h.other hb nofun))
      exact .inl ⟨rfl, nofun⟩

theorem Remains.of_other (h : Remains b ok k g) {c : Body} (hc : g.body o = some c) (ht : ∀ t, c ≠ .table t) :
    b o = some c := by
  rcases h.back hc with ⟨hb, -⟩ | ⟨t, t', -, heq, -⟩
  · exact hb
  · exact absurd heq (ht t')

theorem Remains.markable (h : Remains b ok k g) (hm : Markable b o) : Markable g.body o := by
  obtain ⟨c, hc, hne⟩ := hm
  cases c with
  | table t =>
    obtain ⟨t', ht', -⟩ := h.table hc
    exact ⟨_, ht', nofun⟩
  | _ => exact ⟨_, h.other hc nofun, hne⟩

theorem Remains.wellFormed (h : Remains b ok k g) (hwf : WellFormed b) : WellFormed g.body where
  refs {o c x} hc hx := by
    rcases h.back hc with ⟨hb, -⟩ | ⟨t, t', hb, rfl, hcut⟩
    · exact h.markable (hwf.refs hb hx)
    · exact h.markable (hwf.refs hb (hcut.refs_subset hx))
  upVal {o i x} hc j v hx := by
    have hb := h.of_other hc nofun
    exact hwf.upVal hb j v (h.of_other hx nofun)
  userData {o props mt x} hc hx := by
    obtain ⟨t, ht⟩ := hwf.userData (h.of_other hc nofun) hx
    obtain ⟨t', ht', -⟩ := h.table ht
    exact ⟨t', ht'⟩
  openupval {o stack us u} hc hu := by
    obtain ⟨i, v, hiv⟩ := hwf.openupval (h.of_other hc nofun) hu
    exact ⟨i, v, h.other hiv nofun⟩

/-- What is left of the graph is a graph that is sound. -/
theorem Remains.sound (h : Remains b ok k g) (hs : Sound b P) : Sound g.body P where
  strong {o c x} hp hc hx := by
    rcases h.back hc with ⟨hb, -⟩ | ⟨t, t', hb, rfl, hcut⟩
    · exact hs.strong hp hb hx
    · exact hs.strong hp hb (hcut.strong_subset hx)
  weakVal {o t n x} hp hc hk hv hn hx hstr := by
    rcases h.back hc with ⟨-, hne⟩ | ⟨t₀, t', hb, heq, hcut⟩
    · exact absurd rfl (hne t)
    · obtain rfl := Body.table.inj heq
      exact hs.weakVal hp hb (hcut.weakKeys ▸ hk) (hcut.weakVals ▸ hv) (hcut.mem_entries hn) hx
        (h.of_other hstr nofun)
  ephemeronKey {o t n x} hp hc hk hv hn hx hstr := by
    rcases h.back hc with ⟨-, hne⟩ | ⟨t₀, t', hb, heq, hcut⟩
    · exact absurd rfl (hne t)
    · obtain rfl := Body.table.inj heq
      exact hs.ephemeronKey hp hb (hcut.weakKeys ▸ hk) (hcut.weakVals ▸ hv) (hcut.mem_entries hn) hx
        (h.of_other hstr nofun)
  ephemeronVal {o t n x} hp hc hk hv hn hkeys hx := by
    rcases h.back hc with ⟨-, hne⟩ | ⟨t₀, t', hb, heq, hcut⟩
    · exact absurd rfl (hne t)
    · obtain rfl := Body.table.inj heq
      exact hs.ephemeronVal hp hb (hcut.weakKeys ▸ hk) (hcut.weakVals ▸ hv) (hcut.mem_entries hn)
        (fun k hk => (hkeys k hk).imp_left fun hstr => h.of_other hstr nofun) hx
  wf := h.wellFormed hs.wf

/-! ## What is asked for -/

/-- The objects but strings are marked that are reached. -/
def Exact (b : Graph) (roots : List Nat) (g : Gc) : Prop :=
  ∀ o, Markable b o → b o ≠ some .str → (g.marked o = true ↔ Reach b roots o)

/-- The values that are present. -/
def Decides (b : Graph) (roots : List Nat) (ok : Val → Bool) : Prop := ∀ v, ok v = true ↔ Present b (Reach b roots) v

theorem Decides.of_refs (hok : Decides b roots ok) {v : Val} (h : v.refs = []) : ok v = true :=
  (hok v).mpr fun _ hx => by rw [h] at hx; cases hx

/-- Strings may be marked. -/
structure Drip (b : Graph) (P : Nat → Prop) (g g' : Gc) : Prop where
  body : ∀ o, g'.body o = g.body o
  mono : ∀ o, g.marked o = true → g'.marked o = true
  new : ∀ o, g'.marked o = true → g.marked o = true ∨ b o = some .str ∧ P o
  list : g'.list = g.list
  state : g'.state = g.state
  count : g'.count = g.count
  refs : g'.refs = g.refs
  twups : g'.twups = g.twups
  clean : Clean g → Clean g'

theorem Drip.refl (g : Gc) : Drip b P g g := ⟨fun _ => rfl, fun _ => id, fun _ => .inl, rfl, rfl, rfl, rfl, rfl, id⟩

theorem Drip.trans (h : Drip b P g g') (h' : Drip b P g' g'') : Drip b P g g'' where
  body o := (h'.body o).trans (h.body o)
  mono o ho := h'.mono o (h.mono o ho)
  new o ho := (h'.new o ho).elim (h.new o) .inr
  list := h'.list.trans h.list
  state := h'.state.trans h.state
  count := h'.count.trans h.count
  refs := h'.refs.trans h.refs
  twups := h'.twups.trans h.twups
  clean hc := h'.clean (h.clean hc)

theorem Drip.remains (h : Drip b P g g') (hr : Remains b ok k g) : Remains b ok k g' where
  other hc ht := (h.body _).trans (hr.other hc ht)
  table hc := by
    obtain ⟨t', ht', hcut⟩ := hr.table hc
    exact ⟨t', (h.body _).trans ht', hcut⟩
  none hc := (h.body _).trans (hr.none hc)

theorem Exact.of_new (hex : Exact b roots g) (hm : ∀ o, g.marked o = true → g'.marked o = true)
    (hnew : ∀ o, g'.marked o = true → g.marked o = true ∨ b o = some .str ∧ P o) : Exact b roots g' := by
  intro o ho hne
  rw [← hex o ho hne]
  exact ⟨fun h => (hnew o h).resolve_right fun h => hne h.1, hm o⟩

theorem Gc.charge_keeps : g.charge.object = g.object ∧ g.charge.list = g.list ∧ g.charge.state = g.state ∧
    g.charge.count = g.count ∧ g.charge.refs = g.refs ∧ g.charge.twups = g.twups := by
  unfold Gc.charge
  split <;> exact ⟨rfl, rfl, rfl, rfl, rfl, rfl⟩

theorem visit_drip (hstr : b o = some .str) (hbody : g.body o = some .str) (hp : g.marked o = true ∨ P o) :
    Drip b P g (g.visit o) ∧ (g.visit o).marked o = true := by
  by_cases hm : g.marked o = true
  · rw [visit_marked hm]
    exact ⟨.refl g, hm⟩
  · obtain ⟨c, hobj⟩ := object_of_body hbody
    have hw : c.isWhite = true := by
      rw [Gc.marked, hobj] at hm
      simpa using hm
    have hvisit : g.visit o = (g.paint o .black).charge := by
      unfold Gc.visit Gc.visitWith
      rw [hobj]
      dsimp only
      rw [if_pos hw, Gc.mark, hobj]
      show g.markValue o = _
      rw [Gc.markValue, hobj]
      rfl
    obtain ⟨hobject, hlist, hstate, hcount, hrefs, htwups⟩ := (g.paint o .black).charge_keeps
    have hmarked : ∀ x, (g.paint o .black).charge.marked x = (g.paint o .black).marked x := fun x => by
      rw [Gc.marked, hobject, Gc.marked]
    rw [hvisit]
    refine ⟨⟨fun x => ?_, fun x hx => ?_, fun x hx => ?_, hlist, hstate, hcount, hrefs, htwups, ?_⟩, ?_⟩
    · rw [Gc.body, hobject]
      exact body_paint o .black x
    · rw [hmarked]
      exact marked_mono_paint rfl x hx
    · rw [hmarked, marked_paint rfl] at hx
      by_cases hxo : x = o
      · subst hxo
        exact .inr ⟨hstr, hp.resolve_left hm⟩
      · exact .inl (by rwa [if_neg hxo] at hx)
    · exact (Step.charge (b := b) (P := P) (g := g.paint o .black)).clean
    · rw [hmarked, marked_paint rfl, if_pos rfl, hobj]
      rfl

theorem isCleared_drip (hok : Decides b roots ok) (hr : Remains b ok k g) (hex : Exact b roots g) {v : Val}
    (hm : ∀ x ∈ v.refs, Markable b x) (hp : ∀ x ∈ v.refs, b x = some .str → g.marked x = true ∨ P x) :
    Drip b P g (g.isCleared v).1 ∧ (g.isCleared v).2 = !ok v ∧
      ∀ x ∈ v.refs, b x = some .str → (g.isCleared v).1.marked x = true := by
  cases v with
  | obj o =>
    have ho : o ∈ (Val.obj o).refs := List.mem_singleton_self o
    obtain ⟨c, hc, -⟩ := hr.markable (hm o ho)
    obtain ⟨color, hobj⟩ := object_of_body hc
    have hiff : ok (.obj o) = true ↔ b o = some .str ∨ Reach b roots o := by
      rw [hok]
      exact ⟨fun h => h o ho, fun h x hx => by obtain rfl := List.mem_singleton.mp hx; exact h⟩
    unfold Gc.isCleared
    dsimp only
    rw [hobj]
    dsimp only
    by_cases hstr : c = .str
    · subst hstr
      have hbo : b o = some .str := hr.of_other hc (by simp)
      obtain ⟨hdrip, hmarked⟩ := visit_drip hbo hc (hp o ho hbo)
      rw [if_pos rfl, hiff.mpr (.inl hbo)]
      refine ⟨hdrip, rfl, fun x hx _ => ?_⟩
      obtain rfl := List.mem_singleton.mp hx
      exact hmarked
    · have hbo : b o ≠ some .str := fun h => hstr (Option.some.inj (hc.symm.trans (hr.other h (by simp))))
      rw [if_neg hstr]
      refine ⟨.refl g, ?_, fun x hx hx' => absurd hx' ?_⟩
      · have hmarked : g.marked o = !color.isWhite := by rw [Gc.marked, hobj]; rfl
        have hreach := hex o (hm o ho) hbo
        rw [hmarked] at hreach
        have hok' : ok (.obj o) = true ↔ (!color.isWhite) = true := by
          rw [hiff, hreach]
          exact ⟨fun h => h.resolve_left hbo, .inr⟩
        rw [Bool.eq_iff_iff.mpr hok', Bool.not_not]
      · obtain rfl := List.mem_singleton.mp hx
        exact hbo
  | _ =>
    refine ⟨.refl g, ?_, by simp [Val.refs]⟩
    rw [hok.of_refs rfl]
    rfl

theorem clear_foldl {α β : Type} {f : Gc × List β → α → Gc × List β} {v : α → Val} {h : Bool → α → β}
    (hf : ∀ s a, f s a = ((s.1.isCleared (v a)).1, s.2 ++ [h (s.1.isCleared (v a)).2 a])) (hok : Decides b roots ok)
    (l : List α) : ∀ {g : Gc} (acc : List β), Remains b ok k g → Exact b roots g →
      (∀ a ∈ l, (∀ x ∈ (v a).refs, Markable b x) ∧ ∀ x ∈ (v a).refs, b x = some .str → g.marked x = true ∨ P x) →
      Drip b P g (l.foldl f (g, acc)).1 ∧ (l.foldl f (g, acc)).2 = acc ++ l.map (fun a => h (!ok (v a)) a) ∧
        ∀ a ∈ l, ∀ x ∈ (v a).refs, b x = some .str → (l.foldl f (g, acc)).1.marked x = true := by
  induction l with
  | nil => exact fun acc _ _ _ => ⟨.refl _, (List.append_nil acc).symm, nofun⟩
  | cons a l ih =>
    intro g acc hr hex hl
    obtain ⟨hm, hp⟩ := hl a List.mem_cons_self
    obtain ⟨h₁, hc₁, hstr₁⟩ := isCleared_drip hok hr hex hm hp
    obtain ⟨h₂, hacc₂, hstr₂⟩ := ih (acc ++ [h (!ok (v a)) a]) (h₁.remains hr) (hex.of_new h₁.mono h₁.new)
      fun a' ha' => ⟨(hl a' (List.mem_cons_of_mem a ha')).1, fun x hx hx' =>
        ((hl a' (List.mem_cons_of_mem a ha')).2 x hx hx').imp_left (h₁.mono x)⟩
    rw [List.foldl_cons, hf]
    dsimp only
    rw [hc₁]
    refine ⟨h₁.trans h₂, by rw [hacc₂, List.append_assoc]; rfl, List.forall_mem_cons.mpr ⟨fun x hx hx' => ?_, hstr₂⟩⟩
    exact h₂.mono x (hstr₁ x hx hx')

/-! ## Tables -/

/-- What the clearing of tables does. -/
structure Clears (b : Graph) (P : Nat → Prop) (ok : Val → Bool) (k : Bool) (g g' : Gc) : Prop where
  remains : Remains g.body ok k g'
  mono : ∀ o, g.marked o = true → g'.marked o = true
  new : ∀ o, g'.marked o = true → g.marked o = true ∨ b o = some .str ∧ P o
  tidy : ∀ o, Tidy g o → Tidy g' o
  list : g'.list = g.list
  state : g'.state = g.state
  count : g'.count = g.count
  refs : g'.refs = g.refs
  twups : g'.twups = g.twups
  clean : Clean g → Clean g'

theorem Remains.refl (g : Gc) : Remains g.body ok k g where
  other hc _ := hc
  table hc := ⟨_, hc, .of_view rfl⟩
  none hc := hc

theorem Clears.refl (g : Gc) : Clears b P ok k g g :=
  ⟨.refl g, fun _ => id, fun _ => .inl, fun _ => id, rfl, rfl, rfl, rfl, rfl, id⟩

theorem Clears.trans (h : Clears b P ok k g g') (h' : Clears b P ok k g' g'') : Clears b P ok k g g'' where
  remains := h.remains.trans h'.remains
  mono o ho := h'.mono o (h.mono o ho)
  new o ho := (h'.new o ho).elim (h.new o) .inr
  tidy o ho := h'.tidy o (h.tidy o ho)
  list := h'.list.trans h.list
  state := h'.state.trans h.state
  count := h'.count.trans h.count
  refs := h'.refs.trans h.refs
  twups := h'.twups.trans h.twups
  clean hc := h'.clean (h.clean hc)

/-- No value of a table is to be cleared. -/
structure Valued (ok : Val → Bool) (g : Gc) (o : Nat) : Prop where
  entries : ∀ t, g.body o = some (.table t) → ∀ n ∈ t.entries, ok n.val = true
  array : ∀ t, g.body o = some (.table t) → ∀ v ∈ t.array, v = .nil ∨ ok v = true

/-- No key of a table is to be cleared. -/
def Keyed (ok : Val → Bool) (g : Gc) (o : Nat) : Prop :=
  ∀ t, g.body o = some (.table t) → ∀ n ∈ t.entries, ok n.key = true

theorem Remains.valued (h : Remains g.body ok k g') (hv : Valued ok g o) : Valued ok g' o where
  entries t ht n hn := by
    rcases h.back ht with ⟨-, hne⟩ | ⟨t₀, t', hb, heq, hcut⟩
    · exact absurd rfl (hne t)
    · obtain rfl := Body.table.inj heq
      exact hv.entries t₀ hb n (hcut.mem_entries hn)
  array t ht v hva := by
    rcases h.back ht with ⟨-, hne⟩ | ⟨t₀, t', hb, heq, hcut⟩
    · exact absurd rfl (hne t)
    · obtain rfl := Body.table.inj heq
      rcases hcut.mem_array hva with hnil | hva
      · exact .inl hnil
      · exact hv.array t₀ hb v hva

theorem Remains.keyed (h : Remains g.body ok k g') (hv : Keyed ok g o) : Keyed ok g' o := by
  intro t ht n hn
  rcases h.back ht with ⟨-, hne⟩ | ⟨t₀, t', hb, heq, hcut⟩
  · exact absurd rfl (hne t)
  · obtain rfl := Body.table.inj heq
    exact hv t₀ hb n (hcut.mem_entries hn)

/-- New contents of a table, after strings are marked. -/
theorem Drip.setBody (h : Drip b P g g') (hbody : g.body o = some (.table t)) (hcut : Cut ok k t t')
    (htidy : ∀ n ∈ t'.node, n.val = .nil → n.key.refs = []) :
    Clears b P ok k g (g'.setBody o (.table t')) ∧ (g'.setBody o (.table t')).body o = some (.table t') := by
  obtain ⟨c, hobj⟩ := object_of_body ((h.body o).trans hbody)
  have hself : (g'.setBody o (.table t')).body o = some (.table t') := by
    rw [Gc.body, Gc.object_setBody_self, hobj]
    rfl
  have hother : ∀ x, x ≠ o → (g'.setBody o (.table t')).body x = g.body x := fun x hx => by
    rw [← h.body x, Gc.body, Gc.object_setBody_of_ne _ _ hx, Gc.body]
  refine ⟨⟨⟨fun {x c} hc hne => ?_, fun {x t₁} hc => ?_, fun {x} hc => ?_⟩, fun x hx => ?_, fun x hx => ?_, fun x hx => ?_,
    h.list, h.state, h.count, h.refs, h.twups, h.clean⟩, hself⟩
  · by_cases hx : x = o
    · subst hx
      exact absurd (Option.some.inj (hc.symm.trans hbody)) (hne t)
    · exact (hother x hx).trans hc
  · by_cases hx : x = o
    · subst hx
      obtain rfl : t₁ = t := Body.table.inj (Option.some.inj (hc.symm.trans hbody))
      exact ⟨t', hself, hcut⟩
    · exact ⟨t₁, (hother x hx).trans hc, .of_view rfl⟩
  · by_cases hx : x = o
    · subst hx
      cases hc.symm.trans hbody
    · exact (hother x hx).trans hc
  · exact (marked_setBody o _ x).trans (h.mono x hx)
  · exact h.new x ((marked_setBody o _ x).symm.trans hx)
  · by_cases hxo : x = o
    · subst hxo
      intro t₁ ht₁
      obtain rfl : t' = t₁ := Body.table.inj (Option.some.inj (hself.symm.trans ht₁))
      exact htidy
    · exact hx.congr (hother x hxo)

/-- A node after its value or its key was asked for. -/
def clearNode (c : Bool) (n : Node) : Node := (if c then { n with val := .nil } else n).clearEmpty

theorem clearNode_tidy {c : Bool} {n : Node} (h : (clearNode c n).val = .nil) : (clearNode c n).key.refs = [] := by
  unfold clearNode at h ⊢
  rw [Node.clearEmpty_val] at h
  rw [Node.clearEmpty, if_pos h]
  cases (if c = true then { n with val := Val.nil } else n).key <;> rfl

theorem entries_clearNode (f : Node → Bool) (l : List Node) :
    ((l.map fun n => clearNode (!f n) n).filter fun n => n.val ≠ .nil) = (l.filter fun n => n.val ≠ .nil).filter f := by
  induction l with
  | nil => rfl
  | cons n l ih =>
    rw [List.map_cons, List.filter_cons, List.filter_cons, ih]
    have hval : (clearNode (!f n) n).val = if f n then n.val else .nil := by
      unfold clearNode
      rw [Node.clearEmpty_val]
      cases f n <;> rfl
    by_cases hn : n.val = .nil
    · have hnil : (clearNode (!f n) n).val = .nil := by rw [hval, hn, ite_self]
      rw [if_neg (by simp [hnil]), if_neg (by simp [hn])]
    · rw [if_pos (by simp [hn] : decide (n.val ≠ .nil) = true), List.filter_cons]
      cases hf : f n with
      | true =>
        have heq : clearNode (!true) n = n := Node.clearEmpty_of_ne hn
        rw [heq, if_pos (by simp [hn]), if_pos rfl]
      | false =>
        have hnil : (clearNode (!false) n).val = .nil := by rw [← hf, hval, hf, if_neg Bool.false_ne_true]
        rw [if_neg (by rw [hnil]; decide), if_neg Bool.false_ne_true]

/-- The contents of a table that is reached. -/
theorem Remains.contents (hr : Remains b ok k g) (ht : b o = some (.table t)) :
    ∃ t' c, g.object o = some ⟨.table t', c⟩ ∧ g.body o = some (.table t') ∧ Cut ok k t t' := by
  obtain ⟨t', ht', hcut⟩ := hr.table ht
  obtain ⟨c, hobj⟩ := object_of_body ht'
  exact ⟨t', c, hobj, ht', hcut⟩

/-- What holds of a table the values of which are cleared: values are weak, or all marked. -/
def CanClear (g : Gc) (t : Table) : Prop :=
  t.weakVals = true ∨ ∀ v ∈ t.array ++ t.entries.map Node.val, ∀ x ∈ v.refs, g.marked x = true

theorem CanClear.mono (h : CanClear g t) (hm : ∀ x, g.marked x = true → g'.marked x = true) : CanClear g' t :=
  h.imp_right fun h v hv x hx => hm x (h v hv x hx)

/-- The clearing of values, with the strings that are values. -/
theorem clearByValue_clears (hwf : WellFormed b) (hok : Decides b roots ok) (hr : Remains b ok k₀ g)
    (hex : Exact b roots g) (ht : b o = some (.table t)) (ho : Reach b roots o) (hv : CanClear g t) :
    Clears b (Live b roots) ok k g (g.clearByValue o) ∧ Tidy (g.clearByValue o) o ∧ Valued ok (g.clearByValue o) o ∧
      ∀ t', g.body o = some (.table t') → ∀ v ∈ t'.array ++ t'.entries.map Node.val, ∀ x ∈ v.refs, b x = some .str →
        (g.clearByValue o).marked x = true := by
  obtain ⟨t', c, hobj, hbody, hcut⟩ := hr.contents ht
  have hfrom : ∀ v ∈ t'.array ++ t'.entries.map Node.val, ∀ x ∈ v.refs, v ∈ t.array ++ t.entries.map Node.val := by
    intro v hv x hx
    rcases List.mem_append.mp hv with hv | hv
    · exact List.mem_append_left _ (hcut.slot hv hx)
    · obtain ⟨n, hn, rfl⟩ := List.mem_map.mp hv
      exact List.mem_append_right _ (List.mem_map.mpr ⟨n, hcut.mem_entries hn, rfl⟩)
  have hmarkable : ∀ v ∈ t.array ++ t.entries.map Node.val, ∀ x ∈ v.refs, Markable b x := by
    intro v hv x hx
    rcases List.mem_append.mp hv with hv | hv
    · exact hwf.refs ht (mem_refs_of_slot hv hx)
    · obtain ⟨n, hn, rfl⟩ := List.mem_map.mp hv
      exact hwf.refs ht (mem_refs_of_entry hn (.inr hx))
  have hlive : ∀ v ∈ t'.array ++ t'.entries.map Node.val, ∀ x ∈ v.refs,
      b x = some .str → g.marked x = true ∨ Live b roots x := by
    intro v hva x hx hstr
    have hva := hfrom v hva x hx
    rcases hv with hwv | hm
    · exact .inr (.inr ⟨hstr, o, t, ho, ht, .inl ⟨hwv, v, hva, hx⟩⟩)
    · exact .inl (hm v hva x hx)
  -- a value that is not weak is present
  have hpresent : ∀ v ∈ t'.array ++ t'.entries.map Node.val, (t.weakVals = true → ok v = true) → ok v = true := by
    intro v hva hkeep
    rcases hv with hwv | hm
    · exact hkeep hwv
    · refine (hok v).mpr fun x hx => ?_
      have hva := hfrom v hva x hx
      by_cases hstr : b x = some .str
      · exact .inl hstr
      · exact .inr ((hex x (hmarkable v hva x hx) hstr).mp (hm v hva x hx))
  have hnode : ∀ n ∈ t'.node, ∀ x ∈ n.val.refs, n.val ∈ t'.array ++ t'.entries.map Node.val := by
    intro n hn x hx
    refine List.mem_append_right _ (List.mem_map.mpr ⟨n, List.mem_filter.mpr ⟨hn, ?_⟩, rfl⟩)
    exact decide_eq_true fun hnil => by rw [hnil] at hx; cases hx
  obtain ⟨h₁, harray, hstr₁⟩ := clear_foldl (P := Live b roots) (f := clearSlot) (v := id)
    (h := fun c v => if c then .nil else v) (fun _ _ => rfl) hok t'.array [] hr hex fun v hv =>
      ⟨fun x hx => hmarkable v (hfrom v (List.mem_append_left _ hv) x hx) x hx,
        hlive v (List.mem_append_left _ hv)⟩
  obtain ⟨h₂, hnodes, hstr₂⟩ := clear_foldl (P := Live b roots) (f := clearNodeByValue) (v := Node.val)
    (h := clearNode) (fun _ _ => rfl) hok t'.node [] (h₁.remains hr) (hex.of_new h₁.mono h₁.new) fun n hn =>
      ⟨fun x hx => hmarkable _ (hfrom _ (hnode n hn x hx) x hx) x hx,
        fun x hx hstr => (hlive _ (hnode n hn x hx) x hx hstr).imp_left (h₁.mono x)⟩
  unfold Gc.clearByValue
  rw [hobj]
  dsimp only
  generalize t'.array.foldl clearSlot (g, []) = r₁ at h₁ harray hstr₁ h₂ hnodes hstr₂
  obtain ⟨g₁, array⟩ := r₁
  dsimp only at h₁ harray hstr₁ h₂ hnodes hstr₂ ⊢
  generalize t'.node.foldl clearNodeByValue (g₁, []) = r₂ at h₂ hnodes hstr₂
  obtain ⟨g₂, node⟩ := r₂
  dsimp only at h₂ hnodes hstr₂ ⊢
  rw [List.nil_append] at harray hnodes
  have hentries : Table.entries { t' with array := array, node := node } = t'.entries.filter fun n => ok n.val := by
    unfold Table.entries
    rw [← entries_clearNode]
    exact congrArg _ hnodes
  have harray' : array = t'.array.map fun v => if ok v then v else Val.nil := by
    rw [harray]
    refine List.map_congr_left fun v _ => ?_
    cases hv : ok v <;> simp [hv]
  have hcut' : Cut ok k t' { t' with array := array, node := node } := by
    refine ⟨rfl, rfl, rfl, ⟨ok, fun v hv hkeep => ?_, harray'⟩, ⟨fun n => ok n.val, fun n hn hkeep => ?_, hentries⟩⟩
    · exact hpresent v (List.mem_append_left _ hv) (hcut.weakVals ▸ hkeep)
    · exact hpresent _ (List.mem_append_right _ (List.mem_map.mpr ⟨n, hn, rfl⟩)) (hcut.weakVals ▸ hkeep.1)
  obtain ⟨hclears, hself⟩ := (h₁.trans h₂).setBody hbody hcut' fun n hn hnil => by
    rw [hnodes] at hn
    obtain ⟨n', -, rfl⟩ := List.mem_map.mp hn
    exact clearNode_tidy hnil
  refine ⟨hclears, ?_, ⟨?_, ?_⟩, ?_⟩
  · intro t₁ ht₁
    obtain rfl := Body.table.inj (Option.some.inj (hself.symm.trans ht₁))
    intro n hn hnil
    rw [show Table.node _ = _ from hnodes] at hn
    obtain ⟨n', -, rfl⟩ := List.mem_map.mp hn
    exact clearNode_tidy hnil
  · intro t₁ ht₁ n hn
    obtain rfl := Body.table.inj (Option.some.inj (hself.symm.trans ht₁))
    rw [hentries] at hn
    exact (List.mem_filter.mp hn).2
  · intro t₁ ht₁ v hv
    obtain rfl := Body.table.inj (Option.some.inj (hself.symm.trans ht₁))
    rw [show Table.array _ = _ from harray'] at hv
    obtain ⟨v', -, rfl⟩ := List.mem_map.mp hv
    split
    · rename_i hv'
      exact .inr hv'
    · exact .inl rfl
  · intro t₁ ht₁ v hv x hx hstr
    obtain rfl := Body.table.inj (Option.some.inj (hbody.symm.trans ht₁))
    rw [marked_setBody]
    rcases List.mem_append.mp hv with hv | hv
    · exact h₂.mono x (hstr₁ v hv x hx hstr)
    · obtain ⟨n, hn, rfl⟩ := List.mem_map.mp hv
      exact hstr₂ n (List.mem_filter.mp hn).1 x hx hstr

/-- The clearing of keys, with the strings that are keys, where the values are cleared. -/
theorem clearByKey_clears (hwf : WellFormed b) (hok : Decides b roots ok) (hr : Remains b ok k₀ g)
    (hex : Exact b roots g) (ht : b o = some (.table t)) (ho : Reach b roots o) (hk : t.weakKeys = true)
    (htidy : Tidy g o) (hv : t.weakVals = true → Valued ok g o) :
    Clears b (Live b roots) ok true g (g.clearByKey o) ∧ Keyed ok (g.clearByKey o) o ∧
      ∀ t', g.body o = some (.table t') → ∀ n ∈ t'.entries, ∀ x ∈ n.key.refs, b x = some .str →
        (g.clearByKey o).marked x = true := by
  obtain ⟨t', c, hobj, hbody, hcut⟩ := hr.contents ht
  -- the nodes that are no entries have no keys
  have hentry : ∀ n ∈ t'.node, ∀ x ∈ n.key.refs, n ∈ t'.entries := by
    intro n hn x hx
    refine List.mem_filter.mpr ⟨hn, decide_eq_true fun hnil => ?_⟩
    rw [htidy t' hbody n hn hnil] at hx
    cases hx
  obtain ⟨h₁, hnodes, hstr₁⟩ := clear_foldl (P := Live b roots) (f := clearNodeByKey) (v := Node.key)
    (h := clearNode) (fun _ _ => rfl) hok t'.node [] hr hex fun n hn => by
      refine ⟨fun x hx => hwf.refs ht (mem_refs_of_entry (hcut.mem_entries (hentry n hn x hx)) (.inl hx)),
        fun x hx hstr => .inr (.inr ⟨hstr, o, t, ho, ht, .inr ⟨hk, n, hcut.mem_entries (hentry n hn x hx), hx, ?_⟩⟩)⟩
      exact fun hwv => (hok _).mp ((hv hwv).entries t' hbody n (hentry n hn x hx))
  unfold Gc.clearByKey
  rw [hobj]
  dsimp only
  generalize t'.node.foldl clearNodeByKey (g, []) = r₁ at h₁ hnodes hstr₁
  obtain ⟨g₁, node⟩ := r₁
  dsimp only at h₁ hnodes hstr₁ ⊢
  rw [List.nil_append] at hnodes
  unfold Gc.setNode
  have hentries : Table.entries { t' with node := node } = t'.entries.filter fun n => ok n.key := by
    unfold Table.entries
    rw [← entries_clearNode]
    exact congrArg _ hnodes
  have hcut' : Cut ok true t' { t' with node := node } := by
    refine ⟨rfl, rfl, rfl, ⟨fun _ => true, fun _ _ _ => rfl, by simp⟩, ⟨fun n => ok n.key, fun n hn hkeep => ?_, hentries⟩⟩
    exact hkeep.2 rfl (hcut.weakKeys.trans hk)
  obtain ⟨hclears, hself⟩ := h₁.setBody hbody hcut' fun n hn hnil => by
    rw [hnodes] at hn
    obtain ⟨n', -, rfl⟩ := List.mem_map.mp hn
    exact clearNode_tidy hnil
  refine ⟨hclears, ?_, ?_⟩
  · intro t₁ ht₁ n hn
    obtain rfl := Body.table.inj (Option.some.inj (hself.symm.trans ht₁))
    rw [hentries] at hn
    exact (List.mem_filter.mp hn).2
  · intro t₁ ht₁ n hn x hx hstr
    obtain rfl := Body.table.inj (Option.some.inj (hbody.symm.trans ht₁))
    rw [marked_setBody]
    exact hstr₁ n (List.mem_filter.mp hn).1 x hx hstr

/-! ## Lists of tables -/

/-- The weak values of a table that are strings are marked. -/
def ValueStrings (b : Graph) (t : Table) (g : Gc) : Prop :=
  ∀ v ∈ t.array ++ t.entries.map Node.val, ∀ x ∈ v.refs, b x = some .str → g.marked x = true

/-- The weak keys of a table that are strings are marked, where the values are kept. -/
def KeyStrings (b : Graph) (ok : Val → Bool) (t : Table) (g : Gc) : Prop :=
  ∀ n ∈ t.entries, Keep ok true t n → ∀ x ∈ n.key.refs, b x = some .str → g.marked x = true

theorem Decides.of_strings (hok : Decides b roots ok) {v : Val} (h : ∀ x ∈ v.refs, b x = some .str) : ok v = true :=
  (hok v).mpr fun x hx => .inl (h x hx)

theorem refs_str {v : Val} {x : Nat} (hx : x ∈ v.refs) (hstr : b x = some .str) : ∀ y ∈ v.refs, b y = some .str := by
  cases v with
  | obj o =>
    intro y hy
    rw [List.mem_singleton.mp hy, ← List.mem_singleton.mp hx]
    exact hstr
  | _ => cases hx

theorem clearByValue_foldl (hwf : WellFormed b) (hok : Decides b roots ok) (l : List Nat) : ∀ {g : Gc},
    Remains b ok k g → Exact b roots g →
    (∀ o ∈ l, Reach b roots o ∧ ∃ t, b o = some (.table t) ∧ CanClear g t) →
    Clears b (Live b roots) ok k g (l.foldl Gc.clearByValue g) ∧
      ∀ o ∈ l, Tidy (l.foldl Gc.clearByValue g) o ∧ Valued ok (l.foldl Gc.clearByValue g) o ∧
        ∀ t, k = false → b o = some (.table t) → ValueStrings b t (l.foldl Gc.clearByValue g) := by
  induction l with
  | nil => exact fun _ _ _ => ⟨.refl _, nofun⟩
  | cons o l ih =>
    intro g hr hex hl
    obtain ⟨ho, t, ht, hcan⟩ := hl o List.mem_cons_self
    obtain ⟨h₁, htidy₁, hval₁, hstr₁⟩ := clearByValue_clears (k := k) hwf hok hr hex ht ho hcan
    obtain ⟨h₂, hrest⟩ := ih (hr.trans h₁.remains) (hex.of_new h₁.mono h₁.new) fun o' ho' => by
      obtain ⟨hreach, t', ht', hcan'⟩ := hl o' (List.mem_cons_of_mem o ho')
      exact ⟨hreach, t', ht', hcan'.mono h₁.mono⟩
    rw [List.foldl_cons]
    refine ⟨h₁.trans h₂, List.forall_mem_cons.mpr
      ⟨⟨h₂.tidy o htidy₁, h₂.remains.valued hval₁, fun t₁ hk ht₁ => ?_⟩, hrest⟩⟩
    intro v hv x hx hstr
    obtain ⟨t', ht', hcut⟩ := hr.table ht₁
    have hv' : v ∈ t'.array ++ t'.entries.map Node.val := by
      have hokv := hok.of_strings (refs_str hx hstr)
      rcases List.mem_append.mp hv with hv | hv
      · exact List.mem_append_left _ (hcut.keep_slot hv fun _ => hokv)
      · obtain ⟨n, hn, rfl⟩ := List.mem_map.mp hv
        refine List.mem_append_right _ (List.mem_map.mpr ⟨n, hcut.keep_entry hn ⟨fun _ => hokv, fun hk' => ?_⟩, rfl⟩)
        rw [hk] at hk'
        cases hk'
    exact h₂.mono x (hstr₁ t' ht' v hv' x hx hstr)

theorem clearByKey_foldl (hwf : WellFormed b) (hok : Decides b roots ok) (l : List Nat) : ∀ {g : Gc},
    Remains b ok true g → Exact b roots g →
    (∀ o ∈ l, Reach b roots o ∧ Tidy g o ∧ ∃ t, b o = some (.table t) ∧ t.weakKeys = true ∧
      (t.weakVals = true → Valued ok g o)) →
    Clears b (Live b roots) ok true g (l.foldl Gc.clearByKey g) ∧
      ∀ o ∈ l, Keyed ok (l.foldl Gc.clearByKey g) o ∧
        ∀ t, b o = some (.table t) → KeyStrings b ok t (l.foldl Gc.clearByKey g) := by
  induction l with
  | nil => exact fun _ _ _ => ⟨.refl _, nofun⟩
  | cons o l ih =>
    intro g hr hex hl
    obtain ⟨ho, htidy, t, ht, hk, hv⟩ := hl o List.mem_cons_self
    obtain ⟨h₁, hkey₁, hstr₁⟩ := clearByKey_clears hwf hok hr hex ht ho hk htidy hv
    obtain ⟨h₂, hrest⟩ := ih (hr.trans h₁.remains) (hex.of_new h₁.mono h₁.new) fun o' ho' => by
      obtain ⟨hreach, htidy', t', ht', hk', hv'⟩ := hl o' (List.mem_cons_of_mem o ho')
      exact ⟨hreach, h₁.tidy o' htidy', t', ht', hk', fun hwv => h₁.remains.valued (hv' hwv)⟩
    rw [List.foldl_cons]
    refine ⟨h₁.trans h₂, List.forall_mem_cons.mpr
      ⟨⟨h₂.remains.keyed hkey₁, fun t₁ ht₁ n hn hkeep x hx hstr => ?_⟩, hrest⟩⟩
    obtain ⟨t', ht', hcut⟩ := hr.table ht₁
    exact h₂.mono x (hstr₁ t' ht' n (hcut.keep_entry hn hkeep) x hx hstr)

end Tsuki.Collector
