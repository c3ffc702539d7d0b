import Tsuki.Gc.Clearing
import Tsuki.Gc.Cycle

/-!
# Weak tables

A cycle of the collector marks what is reachable, where the value of an entry of an ephemeron is only if its key is,
and clears exactly the entries of weak tables the weak parts of which are not present. Marking keeps the three colours
apart, and what is marked was reachable; when no work is left, what is reachable is marked, since the least fixpoint
is below any set that is closed. Clearing comes after that and changes no mark: each list of weak tables is gone
through once more, and an entry goes exactly if it could not have stayed.
-/

namespace Tsuki.Collector

variable {b : Graph} {roots : List Nat} {P : Nat → Prop} {ok : Val → Bool} {k : Bool} {g g' g'' : Gc} {o : Nat}
  {t t' : Table}

/-! ## What is live -/

theorem Live.reach (h : Live b roots o) (hne : b o ≠ some .str) : Reach b roots o :=
  h.resolve_right fun hs => hne hs.1

theorem Live.table (h : Live b roots o) (ht : b o = some (.table t)) : Reach b roots o :=
  h.reach fun hs => nomatch ht.symm.trans hs

theorem live_sound (hwf : WellFormed b) : Sound b (Live b roots) where
  strong {o c x} hp hc hx := by
    rcases hp with hp | hp
    · exact .inl (.strong hp hc hx)
    · obtain rfl := Option.some.inj (hc.symm.trans hp.1)
      cases hx
  weakVal {o t n x} hp ht _ hv hn hx hstr :=
    .inr ⟨hstr, o, t, hp.table ht, ht, .inl ⟨hv, n.val, List.mem_append_right _ (List.mem_map.mpr ⟨n, hn, rfl⟩), hx⟩⟩
  ephemeronKey {o t n x} hp ht hk hv hn hx hstr :=
    .inr ⟨hstr, o, t, hp.table ht, ht, .inr ⟨hk, n, hn, hx, fun hwv => nomatch hv.symm.trans hwv⟩⟩
  ephemeronVal {o t n x} hp ht hk hv hn hkeys hx := by
    by_cases hstr : ∀ y ∈ n.key.refs, b y = some .str
    · exact .inl (.valueOfPresent (hp.table ht) ht hk hv hn hstr hx)
    · obtain ⟨y, hy⟩ := not_forall.mp hstr
      obtain ⟨hy, hne⟩ := Classical.not_imp.mp hy
      have hkey : n.key = .obj y := by
        cases hkey : n.key with
        | obj z => rw [hkey] at hy; rw [List.mem_singleton.mp hy]
        | _ => rw [hkey] at hy; cases hy
      exact .inl (.valueOfKey (hp.table ht) ht hk hv hn hkey (((hkeys y hy).resolve_left hne).reach hne) hx)
  wf := hwf

/-- A marked object is done where no list is left. -/
theorem Converged.done (h : Converged b P g) (hstate : g.state = .finish) (ho : g.marked o = true) : Done b g o := by
  rcases h.tri.handled o ho with hf | hg | hd | ⟨hst, -⟩
  · exact hf.elim
  · rw [h.gray] at hg
    cases hg
  · exact hd
  · rw [hstate] at hst
    cases hst

/-- All that is reachable is marked. -/
theorem Converged.reach (h : Converged b P g) (hstate : g.state = .finish) (hroots : ∀ o ∈ roots, g.marked o = true)
    (ho : Reach b roots o) : g.marked o = true := by
  have hweak : ∀ {o t n x}, g.marked o = true → b o = some (.table t) → t.weakKeys = true → t.weakVals = false →
      n ∈ t.entries → ¬Dead b g n.key → x ∈ n.val.refs → g.marked x = true := by
    intro o t n x ho ht hk hv hn hdead hx
    have hd := (h.done hstate ho).2 t ht
    rw [WeakDone, hk, hv] at hd
    rcases hd with heph | ⟨hvals, -⟩
    · exact (h.settled o heph t ht n hn).resolve_left hdead x hx
    · exact hvals n hn x hx
  induction ho with
  | root ho => exact hroots _ ho
  | strong _ hc hx ih => exact (h.done hstate ih).1 _ hc _ hx
  | valueOfPresent _ ht hk hv hn hkeys hx ih =>
    refine hweak ih ht hk hv hn ?_ hx
    rintro ⟨y, hy, hne, -⟩
    refine hne (hkeys y ?_)
    rw [hy]
    exact List.mem_singleton_self y
  | valueOfKey _ ht hk hv hn hkey _ hx ih ihk =>
    refine hweak ih ht hk hv hn ?_ hx
    rintro ⟨y, hy, -, hm⟩
    obtain rfl := Val.obj.inj (hkey.symm.trans hy)
    rw [ihk] at hm
    cases hm

/-! ## The first half -/

/-- `finish_marking`, up to the convergence. -/
def Gc.markRest (g : Gc) : Gc :=
  let grayagain := g.list .grayagain
  let g := g.setList .grayagain []
  let g := { g.refs.foldl Gc.visit g with refs := g.refs ++ g.markedRefs, markedRefs := [] }
  let g := g.markAllGray
  let g := g.remarkUpvalues
  let g := g.markAllGray
  (g.setList .gray grayagain).markAllGray

/-- `finish_marking`, from the clearing on. -/
def Gc.clearWeak (g : Gc) : Gc :=
  let g := g.clearByValues (g.list .weak) []
  let g := g.clearByValues (g.list .allweak) []
  let ow := g.list .weak
  let oa := g.list .allweak
  let g := g.markAllGray
  let g := g.convergeEphemerons
  let g := g.clearByKeys (g.list .ephemeron)
  let g := g.clearByKeys (g.list .allweak)
  let g := g.clearByValues (g.list .weak) ow
  g.clearByValues (g.list .allweak) oa

theorem finishMarking_eq (g : Gc) : g.finishMarking = g.markRest.convergeEphemerons.clearWeak := by
  rw [Gc.finishMarking, Gc.markRest, Gc.clearWeak]

/-- The objects that were put off are left to be marked. -/
theorem Tri.takeAgain (h : Tri b P (fun _ => False) g) (s : State) :
    Tri b P (· ∈ g.list .grayagain) (Gc.setList { g with state := s } .grayagain []) where
  holds := ⟨h.holds.view, h.holds.none⟩
  ok := h.ok
  lists l x hx := by
    by_cases hl : l = .grayagain
    · subst hl
      rw [list_setList_self] at hx
      cases hx
    · rw [list_setList_of_ne hl] at hx
      exact h.lists l x hx
  handled x hx := by
    have hother : ∀ l, l ≠ .grayagain → x ∈ g.list l → x ∈ (Gc.setList { g with state := s } .grayagain []).list l :=
      fun l hl hx => by rwa [list_setList_of_ne hl]
    by_cases hagain : x ∈ g.list .grayagain
    · exact .inl hagain
    rcases h.handled x hx with hf | hg | hd | ⟨-, hag⟩
    · exact hf.elim
    · exact .inr (.inl (hother _ nofun hg))
    · refine .inr (.inr (.inl ⟨hd.1, fun t ht => ?_⟩))
      have hd := hd.2 t ht
      unfold WeakDone at hd ⊢
      split at hd
      · exact hother _ nofun hd
      · exact hd.imp (hother _ nofun) fun h => h.imp_right fun h => h.imp_left (hother _ nofun)
      · exact hd.imp_left (hother _ nofun)
      · trivial
    · exact absurd hag hagain
  twups := h.twups
  clean := h.clean

theorem Tri.putGray {l : List Nat} (h : Tri b P (· ∈ l) g) (hgray : g.list .gray = [])
    (hl : ∀ o ∈ l, InList b P g .gray o) : Tri b P (fun _ => False) (g.setList .gray l) where
  holds := ⟨h.holds.view, h.holds.none⟩
  ok := h.ok
  lists l' x hx := by
    by_cases hl' : l' = .gray
    · subst hl'
      rw [list_setList_self] at hx
      exact hl x hx
    · rw [list_setList_of_ne hl'] at hx
      exact h.lists l' x hx
  handled x hx := by
    rcases h.handled x hx with hq | hg | hd | ⟨hst, hag⟩
    · exact .inr (.inl (list_setList_self ▸ hq))
    · rw [hgray] at hg
      cases hg
    · exact .inr (.inr (.inl (hd.mono (fun _ => id) fun l' hl' hx => by rwa [list_setList_of_ne hl'])))
    · exact .inr (.inr (.inr ⟨hst, (list_setList_of_ne (show GcList.grayagain ≠ .gray from nofun)).symm ▸ hag⟩))
  twups := h.twups
  clean := h.clean

theorem Tri.setRefs {Q : Nat → Prop} (h : Tri b P Q g) (r m : List Nat) :
    Tri b P Q { g with refs := r, markedRefs := m } where
  holds := ⟨h.holds.view, h.holds.none⟩
  ok := h.ok
  lists := h.lists
  handled := h.handled
  twups := h.twups
  clean := h.clean

theorem markRest_tri (hs : Sound b P) (h : Tri b P (fun _ => False) g) (hrefs : ∀ o ∈ g.refs, P o ∧ Markable b o) :
    Tri b P (fun _ => False) (Gc.markRest { g with state := .finish }) ∧
      (Gc.markRest { g with state := .finish }).list .gray = [] ∧
      (Gc.markRest { g with state := .finish }).state = .finish ∧
      ∀ x, g.marked x = true → (Gc.markRest { g with state := .finish }).marked x = true := by
  have h₁ := h.takeAgain .finish
  have hsaved := h.lists .grayagain
  unfold Gc.markRest
  extract_lets grayagain g₁ visited g₂
  have hstep₂ : Step b P g₁ (g₁.refs.foldl Gc.visit g₁) := foldl_step g₁.refs h₁.holds h₁.ok fun g o ho hb _ =>
    (visit_step hs hb (hrefs o ho).1 (hrefs o ho).2).1
  have h₂ : Tri b P (· ∈ grayagain) g₂ := (hstep₂.tri h₁).setRefs _ _
  have hstate₂ : g₂.state = .finish := hstep₂.state
  have hmono₂ : ∀ x, g.marked x = true → g₂.marked x = true := hstep₂.mono
  have htidy₂ : ∀ x, Tidy g x → Tidy g₂ x := hstep₂.tidy
  obtain ⟨h₃, hrun₃, -⟩ := markAllGray_tri hs h₂ (.inr hstate₂)
  have hstep₄ := remarkUpvalues_step hs h₃
  obtain ⟨h₅, hrun₅, hgray₅⟩ :=
    markAllGray_tri hs (hstep₄.tri h₃) (.inr (hstep₄.state.trans (hrun₃.state.trans hstate₂)))
  have hrun := (hrun₃.trans hstep₄.run).trans hrun₅
  have hmono := fun x hx => hrun.mono x (hmono₂ x hx)
  obtain ⟨h₆, hrun₆, hgray₆⟩ := markAllGray_tri hs
    (h₅.putGray hgray₅ fun o ho => (hsaved o ho).mono hmono fun x hx => hrun.tidy x (htidy₂ x hx))
    (.inr (hrun.state.trans hstate₂))
  exact ⟨h₆, hgray₆, hrun₆.state.trans (hrun.state.trans hstate₂), fun x hx => hrun₆.mono x (hmono x hx)⟩

/-! ## The second half -/

theorem clearByValues_nil (g : Gc) (l : List Nat) : g.clearByValues l [] = l.foldl Gc.clearByValue g := by
  rw [Gc.clearByValues, List.length_nil, Nat.sub_zero, List.take_length]

theorem markAllGray_nil (h : g.list .gray = []) : g.markAllGray = g := by
  unfold Gc.markAllGray
  rw [h]
  cases g.count + ([] : List Nat).length <;> simp [Gc.markAllGrayFor, h]

theorem Converged.exact (h : Converged b (Live b roots) g) (hstate : g.state = .finish)
    (hroots : ∀ o ∈ roots, g.marked o = true) : Exact b roots g := fun o _ hne =>
  ⟨fun ho => (h.tri.ok o ho).reach hne, h.reach hstate hroots⟩

theorem canClear_weak (hl : InList b P g .weak o) : ∃ t, b o = some (.table t) ∧ CanClear g t := by
  obtain ⟨-, -, t, ht, -, hv⟩ := hl
  exact ⟨t, ht, .inl hv⟩

theorem canClear_allweak (hl : InList b P g .allweak o) : ∃ t, b o = some (.table t) ∧ CanClear g t := by
  obtain ⟨-, -, t, ht, hk, hv⟩ := hl
  refine ⟨t, ht, ?_⟩
  cases hwv : t.weakVals with
  | true => exact .inl hwv
  | false =>
    obtain ⟨hclosed, -, hvals⟩ := hv hwv
    refine .inr fun v hva x hx => ?_
    rcases List.mem_append.mp hva with hva | hva
    · refine hclosed _ ht x ?_
      rw [Body.strong, hk, hwv]
      exact List.mem_append_right _ (List.mem_flatMap.mpr ⟨v, hva, hx⟩)
    · obtain ⟨n, hn, rfl⟩ := List.mem_map.mp hva
      exact hvals n hn x hx

/-- What holds of the tables with weak values after the first clearing of values. -/
structure ValuesCleared (b : Graph) (roots : List Nat) (ok : Val → Bool) (g : Gc) (o : Nat) (t : Table) : Prop where
  valued : Valued ok g o
  tidy : t.weakKeys = true → Tidy g o
  strings : ValueStrings b t g

theorem clearValues (hwf : WellFormed b) (hok : Decides b roots ok) (h : Converged b (Live b roots) g)
    (hstate : g.state = .finish) (hroots : ∀ o ∈ roots, g.marked o = true) :
    ∃ g', (g.clearByValues (g.list .weak) []).clearByValues ((g.clearByValues (g.list .weak) []).list .allweak) [] = g' ∧
      Clears b (Live b roots) ok false g g' ∧
      ∀ o t, Reach b roots o → b o = some (.table t) → t.weakVals = true → ValuesCleared b roots ok g' o t := by
  have hr : Remains b ok false g := h.tri.holds.remains
  have hex := h.exact hstate hroots
  have hreach : ∀ l, ∀ o ∈ g.list l, (∃ t, b o = some (.table t) ∧ CanClear g t) →
      Reach b roots o ∧ ∃ t, b o = some (.table t) ∧ CanClear g t := fun l o ho ⟨t, ht, hcan⟩ =>
    ⟨(h.tri.lists l o ho).1.table ht, t, ht, hcan⟩
  obtain ⟨h₁, hweak⟩ := clearByValue_foldl hwf hok (g.list .weak) hr hex fun o ho =>
    hreach _ o ho (canClear_weak (h.tri.lists _ o ho))
  rw [clearByValues_nil, clearByValues_nil]
  obtain ⟨h₂, hall⟩ := clearByValue_foldl hwf hok ((List.foldl Gc.clearByValue g (g.list .weak)).list .allweak)
    (hr.trans h₁.remains) (hex.of_new h₁.mono h₁.new) fun o ho => by
      rw [h₁.list] at ho
      obtain ⟨hreach, t, ht, hcan⟩ := hreach _ o ho (canClear_allweak (h.tri.lists _ o ho))
      exact ⟨hreach, t, ht, hcan.mono h₁.mono⟩
  refine ⟨_, rfl, h₁.trans h₂, fun o t ho ht hwv => ?_⟩
  have hd := (h.done hstate (h.reach hstate hroots ho)).2 t ht
  unfold WeakDone at hd
  rw [hwv] at hd
  cases hk : t.weakKeys with
  | true =>
    rw [hk] at hd
    have hd : o ∈ g.list .allweak := hd
    obtain ⟨htidy, hval, hstr⟩ := hall o (by rw [h₁.list]; exact hd)
    exact ⟨hval, fun _ => htidy, hstr t rfl ht⟩
  | false =>
    rw [hk] at hd
    rcases hd with hd | ⟨harray, hvals⟩
    · obtain ⟨htidy, hval, hstr⟩ := hweak o hd
      refine ⟨h₂.remains.valued hval, fun hk' => (nomatch hk.symm.trans hk'), fun v hv x hx hx' => ?_⟩
      exact h₂.mono x (hstr t rfl ht v hv x hx hx')
    · have hvalued : Valued ok g o := by
        obtain ⟨t', ht', hcut⟩ := hr.table ht
        refine ⟨fun t₁ ht₁ n hn => ?_, fun t₁ ht₁ v hv => ?_⟩
        · obtain rfl := Body.table.inj (Option.some.inj (ht'.symm.trans ht₁))
          have hn := hcut.mem_entries hn
          refine (hok _).mpr fun x hx => ?_
          by_cases hstr : b x = some .str
          · exact .inl hstr
          · exact .inr ((hex x (hwf.refs ht (mem_refs_of_entry hn (.inr hx))) hstr).mp (hvals n hn x hx))
        · obtain rfl := Body.table.inj (Option.some.inj (ht'.symm.trans ht₁))
          rcases hcut.mem_array hv with hnil | hv
          · exact .inl hnil
          · rw [harray] at hv
            cases hv
      refine ⟨(h₁.trans h₂).remains.valued hvalued, fun hk' => (nomatch hk.symm.trans hk'), fun v hv x hx _ => ?_⟩
      refine (h₁.trans h₂).mono x ?_
      rcases List.mem_append.mp hv with hv | hv
      · rw [harray] at hv
        cases hv
      · obtain ⟨n, hn, rfl⟩ := List.mem_map.mp hv
        exact hvals n hn x hx

/-- What was all right is so in what is left of the graph. -/
theorem Closed.remains (h : Closed b g o) (hr : Remains b ok k g') (hm : ∀ x, g.marked x = true → g'.marked x = true) :
    Closed g'.body g' o := by
  intro c hc x hx
  rcases hr.back hc with ⟨hb, -⟩ | ⟨t, t', hb, rfl, hcut⟩
  · exact hm x (h c hb x hx)
  · exact hm x (h _ hb x (hcut.strong_subset hx))

theorem Remains.listed (hr : Remains b ok k g) (h : ∃ c, b o = some c ∧ c.Listed) : ∃ c, g.body o = some c ∧ c.Listed := by
  obtain ⟨c, hc, hl⟩ := h
  cases c with
  | table t =>
    obtain ⟨t', ht', -⟩ := hr.table hc
    exact ⟨_, ht', trivial⟩
  | _ => exact ⟨_, hr.other hc nofun, hl⟩

theorem InList.remains {l : GcList} (h : InList b P g l o) (hr : Remains b ok k g')
    (hm : ∀ x, g.marked x = true → g'.marked x = true) (htidy : ∀ x, Tidy g x → Tidy g' x) :
    InList g'.body P g' l o := by
  obtain ⟨hp, ho, hl⟩ := h
  refine ⟨hp, hm o ho, ?_⟩
  cases l with
  | gray => exact hr.listed hl
  | grayagain => exact hr.listed hl
  | weak =>
    obtain ⟨t, ht, hk, hv⟩ := hl
    obtain ⟨t', ht', hcut⟩ := hr.table ht
    exact ⟨t', ht', hcut.weakKeys.trans hk, hcut.weakVals.trans hv⟩
  | ephemeron =>
    obtain ⟨hc, hd, t, ht, hk, hv, hkeys⟩ := hl
    obtain ⟨t', ht', hcut⟩ := hr.table ht
    exact ⟨hc.remains hr hm, htidy o hd, t', ht', hcut.weakKeys.trans hk, hcut.weakVals.trans hv,
      fun n hn y hy hstr => hm y (hkeys n (hcut.mem_entries hn) y hy (hr.of_other hstr nofun))⟩
  | allweak =>
    obtain ⟨t, ht, hk, hv⟩ := hl
    obtain ⟨t', ht', hcut⟩ := hr.table ht
    refine ⟨t', ht', hcut.weakKeys.trans hk, fun hwv => ?_⟩
    obtain ⟨hc, hd, hvals⟩ := hv (hcut.weakVals ▸ hwv)
    exact ⟨hc.remains hr hm, htidy o hd, fun n hn x hx => hm x (hvals n (hcut.mem_entries hn) x hx)⟩

theorem WeakDone.remains (h : WeakDone g o t) (hcut : Cut ok k t t') (hm : ∀ x, g.marked x = true → g'.marked x = true)
    (hl : g'.list = g.list) : WeakDone g' o t' := by
  unfold WeakDone at h ⊢
  rw [hcut.weakKeys, hcut.weakVals, hl]
  split at h
  · exact h
  · refine h.imp_right fun h => ⟨fun n hn x hx => hm x (h.1 n (hcut.mem_entries hn) x hx), h.2.imp_right fun h => ?_⟩
    exact fun n hn y hy => hm y (h n (hcut.mem_entries hn) y hy)
  · refine h.imp_right fun h => ⟨?_, fun n hn x hx => hm x (h.2 n (hcut.mem_entries hn) x hx)⟩
    obtain ⟨p, -, ha⟩ := hcut.array
    rw [ha, h.1]
    rfl
  · trivial

theorem Converged.clears (h : Converged b P g) (hstate : g.state = .finish) (hc : Clears b P ok false g g') :
    Tri g'.body P (fun _ => False) g' where
  holds := by
    refine ⟨fun _ => rfl, fun o ho => ?_⟩
    have hnone : g.body o = none := by rw [Gc.body, h.tri.holds.none o (hc.count ▸ ho)]; rfl
    exact Option.map_eq_none_iff.mp (hc.remains.none hnone)
  ok o ho := (hc.new o ho).elim (h.tri.ok o) And.right
  lists l o ho := by
    rw [hc.list] at ho
    exact (h.tri.lists l o ho).remains (h.tri.holds.remains.trans hc.remains) hc.mono hc.tidy
  handled o ho := by
    have hr : Remains b ok false g' := h.tri.holds.remains.trans hc.remains
    refine .inr (.inr (.inl ?_))
    rcases hc.new o ho with ho | ⟨hstr, -⟩
    · obtain ⟨hclosed, hd⟩ := h.done hstate ho
      refine ⟨hclosed.remains hr hc.mono, fun t' ht' => ?_⟩
      rcases hr.back ht' with ⟨-, hne⟩ | ⟨t, t₁, ht, heq, hcut⟩
      · exact absurd rfl (hne t')
      · obtain rfl := Body.table.inj heq
        exact (hd t ht).remains hcut hc.mono hc.list
    · exact done_of_closed (hr.other hstr (by simp)) (by simp) (by simp [Body.strong])
  twups th hth := by
    obtain ⟨stack, us, hth⟩ := h.tri.twups th (hc.twups ▸ hth)
    exact ⟨stack, us, (h.tri.holds.remains.trans hc.remains : Remains b ok false g').other hth (by rintro _ ⟨⟩)⟩
  clean := hc.clean h.tri.clean

/-- The marks and what is left after both convergences. -/
structure Ready (b : Graph) (roots : List Nat) (ok : Val → Bool) (k : Bool) (g : Gc) : Prop where
  remains : Remains b ok k g
  live : AllOk (Live b roots) g
  reach : ∀ o, Reach b roots o → g.marked o = true
  values : ∀ o t, Reach b roots o → b o = some (.table t) → t.weakVals = true → ValuesCleared b roots ok g o t
  clean : Clean g

theorem Ready.exact (h : Ready b roots ok k g) : Exact b roots g := fun o _ hne =>
  ⟨fun ho => (h.live o ho).reach hne, h.reach o⟩

theorem ValuesCleared.remains (h : ValuesCleared b roots ok g o t) (hr : Remains g.body ok k g')
    (hm : ∀ x, g.marked x = true → g'.marked x = true) (htidy : ∀ x, Tidy g x → Tidy g' x) :
    ValuesCleared b roots ok g' o t :=
  ⟨hr.valued h.valued, fun hk => htidy o (h.tidy hk), fun v hv x hx hstr => hm x (h.strings v hv x hx hstr)⟩

theorem Ready.clears (h : Ready b roots ok true g) (hc : Clears b (Live b roots) ok true g g') :
    Ready b roots ok true g' where
  remains := h.remains.trans hc.remains
  live o ho := (hc.new o ho).elim (h.live o) And.right
  reach o ho := hc.mono o (h.reach o ho)
  values o t ho ht hwv := (h.values o t ho ht hwv).remains hc.remains hc.mono hc.tidy
  clean := hc.clean h.clean

/-- What holds of the tables with weak keys after the clearing of keys. -/
structure KeysCleared (b : Graph) (ok : Val → Bool) (g : Gc) (o : Nat) (t : Table) : Prop where
  keyed : Keyed ok g o
  strings : KeyStrings b ok t g

theorem KeysCleared.clears (h : KeysCleared b ok g o t) (hc : Clears b P ok true g g') : KeysCleared b ok g' o t :=
  ⟨hc.remains.keyed h.keyed, fun n hn hkeep x hx hstr => hc.mono x (h.strings n hn hkeep x hx hstr)⟩

variable {g₃ : Gc}

/-- A table of a list of weak keys, in what is left of the graph when the convergence is done again. -/
theorem clearable_key (hr₃ : Remains b ok false g₃) (hready : Ready b roots ok true g)
    (hl : InList g₃.body (Live b roots) g .ephemeron o ∨ InList g₃.body (Live b roots) g .allweak o) :
    Reach b roots o ∧ Tidy g o ∧ ∃ t, b o = some (.table t) ∧ t.weakKeys = true ∧
      (t.weakVals = true → Valued ok g o) := by
  have hfrom : ∀ {t'}, g₃.body o = some (.table t') → ∃ t, b o = some (.table t) ∧ Cut ok false t t' := by
    intro t' ht'
    rcases hr₃.back ht' with ⟨-, hne⟩ | ⟨t, t₁, ht, heq, hcut⟩
    · exact absurd rfl (hne t')
    · obtain rfl := Body.table.inj heq
      exact ⟨t, ht, hcut⟩
  rcases hl with ⟨hp, -, -, htidy, t', ht', hk, hv, -⟩ | ⟨hp, -, t', ht', hk, hv⟩
  · obtain ⟨t, ht, hcut⟩ := hfrom ht'
    exact ⟨hp.table ht, htidy, t, ht, hcut.weakKeys ▸ hk, fun hwv => nomatch hv.symm.trans (hcut.weakVals.trans hwv)⟩
  · obtain ⟨t, ht, hcut⟩ := hfrom ht'
    have hk : t.weakKeys = true := hcut.weakKeys ▸ hk
    cases hwv : t.weakVals with
    | true =>
      have hvals := hready.values o t (hp.table ht) ht hwv
      exact ⟨hp.table ht, hvals.tidy hk, t, ht, hk, fun _ => hvals.valued⟩
    | false =>
      exact ⟨hp.table ht, (hv (hcut.weakVals.trans hwv)).2.1, t, ht, hk, fun hf => nomatch hwv.symm.trans hf⟩

theorem clearKeys (hwf : WellFormed b) (hok : Decides b roots ok) (hr₃ : Remains b ok false g₃)
    (h : Converged g₃.body (Live b roots) g) (hready : Ready b roots ok true g) (hstate : g.state = .finish) :
    ∃ g', (g.clearByKeys (g.list .ephemeron)).clearByKeys ((g.clearByKeys (g.list .ephemeron)).list .allweak) = g' ∧
      Clears b (Live b roots) ok true g g' ∧
      ∀ o t, Reach b roots o → b o = some (.table t) → t.weakKeys = true → KeysCleared b ok g' o t := by
  have hex := hready.exact
  unfold Gc.clearByKeys
  obtain ⟨h₁, heph⟩ := clearByKey_foldl hwf hok (g.list .ephemeron) hready.remains hex fun o ho =>
    clearable_key hr₃ hready (.inl (h.tri.lists _ o ho))
  obtain ⟨h₂, hall⟩ := clearByKey_foldl hwf hok ((List.foldl Gc.clearByKey g (g.list .ephemeron)).list .allweak)
    (hready.remains.trans h₁.remains) (hex.of_new h₁.mono h₁.new) fun o ho => by
      rw [h₁.list] at ho
      obtain ⟨hreach, htidy, t, ht, hk, hv⟩ := clearable_key hr₃ hready (.inr (h.tri.lists _ o ho))
      exact ⟨hreach, h₁.tidy o htidy, t, ht, hk, fun hwv => h₁.remains.valued (hv hwv)⟩
  refine ⟨_, rfl, h₁.trans h₂, fun o t ho ht hk => ?_⟩
  obtain ⟨t', ht', hcut⟩ := hr₃.table ht
  have hd := (h.done hstate (hready.reach o ho)).2 t' ht'
  have hkall : o ∈ g.list .allweak → KeysCleared b ok _ o t := fun hd => by
    obtain ⟨hkeyed, hstr⟩ := hall o (by rw [h₁.list]; exact hd)
    exact ⟨hkeyed, hstr t ht⟩
  unfold WeakDone at hd
  rw [hcut.weakKeys, hk] at hd
  cases hwv : t'.weakVals with
  | true =>
    rw [hwv] at hd
    exact hkall hd
  | false =>
    rw [hwv] at hd
    rcases hd with hd | ⟨-, hd | hkeys⟩
    · obtain ⟨hkeyed, hstr⟩ := heph o hd
      exact KeysCleared.clears ⟨hkeyed, hstr t ht⟩ h₂
    · exact hkall hd
    · refine KeysCleared.clears (g := g) ⟨fun t₁ ht₁ n hn => ?_, fun n hn hkeep x hx hstr => ?_⟩ (h₁.trans h₂)
      · have hr : Remains g₃.body ok false g := h.tri.holds.remains
        rcases hr.back ht₁ with ⟨-, hne⟩ | ⟨t₂, t₃, ht₂, heq, hcut₂⟩
        · exact absurd rfl (hne t₁)
        · obtain rfl := Body.table.inj heq
          obtain rfl := Body.table.inj (Option.some.inj (ht'.symm.trans ht₂))
          have hn := hcut₂.mem_entries hn
          refine (hok _).mpr fun x hx => ?_
          by_cases hstr : b x = some .str
          · exact .inl hstr
          · have hm := hwf.refs ht (mem_refs_of_entry (hcut.mem_entries hn) (.inl hx))
            exact .inr ((hex x hm hstr).mp (hkeys n hn x hx))
      · exact hkeys n (hcut.keep_entry hn ⟨hkeep.1, nofun⟩) x hx

theorem CanClear.of_cut (hcut : Cut ok false t t') (h : CanClear g t') : CanClear g t := by
  cases hwv : t.weakVals with
  | true => exact .inl hwv
  | false =>
    have hnever : ∀ {p : Prop}, t.weakVals = true → p := fun hf => nomatch hwv.symm.trans hf
    rcases h with hf | h
    · exact hnever (hcut.weakVals ▸ hf)
    · refine .inr fun v hv x hx => h v ?_ x hx
      rcases List.mem_append.mp hv with hv | hv
      · exact List.mem_append_left _ (hcut.keep_slot hv hnever)
      · obtain ⟨n, hn, rfl⟩ := List.mem_map.mp hv
        exact List.mem_append_right _ (List.mem_map.mpr ⟨n, hcut.keep_entry hn ⟨hnever, nofun⟩, rfl⟩)

theorem clearByValues_again (hwf : WellFormed b) (hok : Decides b roots ok) (hr₃ : Remains b ok false g₃)
    (hready : Ready b roots ok true g) {l : List Nat} {x : GcList} (hx : x = .weak ∨ x = .allweak)
    (hl : ∀ o ∈ l, InList g₃.body (Live b roots) g x o) (f : List Nat) :
    Clears b (Live b roots) ok true g (g.clearByValues l f) := by
  refine (clearByValue_foldl hwf hok _ hready.remains hready.exact fun o ho => ?_).1
  have hin := hl o (List.mem_of_mem_take ho)
  have hcan : ∃ t', g₃.body o = some (.table t') ∧ CanClear g t' := by
    rcases hx with rfl | rfl
    · exact canClear_weak hin
    · exact canClear_allweak hin
  obtain ⟨t', ht', hcan⟩ := hcan
  rcases hr₃.back ht' with ⟨-, hne⟩ | ⟨t, t₁, ht, heq, hcut⟩
  · exact absurd rfl (hne t')
  · obtain rfl := Body.table.inj heq
    exact ⟨hin.1.table ht, t, ht, hcan.of_cut hcut⟩

/-! ## The result -/

/-- What is left of a table that is reached. -/
theorem Ready.kept (h : Ready b roots ok true g) (hok : Decides b roots ok) (ho : Reach b roots o)
    (ht : b o = some (.table t)) (hkeys : t.weakKeys = true → Keyed ok g o) :
    ∃ t', g.body o = some (.table t') ∧ Kept b (Reach b roots) t t' := by
  obtain ⟨t', ht', hcut⟩ := h.remains.table ht
  have hvals := fun hwv => (h.values o t ho ht hwv).valued
  refine ⟨t', ht', hcut.weakKeys, hcut.weakVals, hcut.metatable, ?_, ?_⟩
  · obtain ⟨q, hq, ha⟩ := id hcut.array
    refine ⟨fun v => !t.weakVals || ok v, fun v => ?_, ?_⟩
    · rw [← hok v]
      cases t.weakVals <;> simp
    · rw [ha]
      refine List.map_congr_left fun v hv => ?_
      by_cases hkeep : t.weakVals = true → ok v = true
      · have hp : (!t.weakVals || ok v) = true := by
          cases hwv : t.weakVals with
          | true => exact hkeep hwv
          | false => rfl
        rw [if_pos (hq v hv hkeep), if_pos hp]
      · obtain ⟨hwv, hnot⟩ := Classical.not_imp.mp hkeep
        have hp : ¬(!t.weakVals || ok v) = true := by
          rw [hwv]
          exact hnot
        rw [if_neg hp]
        by_cases hqv : q v = true
        · have hmem : v ∈ t'.array := by
            rw [ha]
            exact List.mem_map.mpr ⟨v, hv, if_pos hqv⟩
          rw [((hvals hwv).array t' ht' v hmem).resolve_right hnot, ite_self]
        · exact if_neg hqv
  · obtain ⟨q, hq, he⟩ := id hcut.entries
    refine ⟨fun n => (!t.weakVals || ok n.val) && (!t.weakKeys || ok n.key), fun n => ?_, ?_⟩
    · rw [← hok n.val, ← hok n.key]
      cases t.weakVals <;> cases t.weakKeys <;> simp
    · rw [he]
      refine List.filter_congr fun n hn => ?_
      rw [Bool.eq_iff_iff]
      constructor
      · intro hqn
        have hmem : n ∈ t'.entries := by
          rw [he]
          exact List.mem_filter.mpr ⟨hn, hqn⟩
        have hv : t.weakVals = true → ok n.val = true := fun hwv => (hvals hwv).entries t' ht' n hmem
        have hk : t.weakKeys = true → ok n.key = true := fun hwk => hkeys hwk t' ht' n hmem
        cases hwv : t.weakVals <;> cases hwk : t.weakKeys <;> simp_all
      · intro hkeep
        refine hq n hn ⟨fun hwv => ?_, fun _ hwk => ?_⟩
        · rw [hwv] at hkeep
          exact (Bool.and_eq_true_iff.mp hkeep).1
        · rw [hwk] at hkeep
          exact (Bool.and_eq_true_iff.mp hkeep).2

/-- What a cycle leaves: all that is live is marked and nothing else, and weak tables are cleared exactly. -/
structure Collected (b : Graph) (roots : List Nat) (g : Gc) : Prop where
  clean : Clean g
  marked : ∀ o, Markable b o → b o ≠ some .str → (g.marked o = false ↔ ¬Reach b roots o)
  strings : ∀ o, b o = some .str → (g.marked o = false ↔ ¬(Reach b roots o ∨ Shown b (Reach b roots) o))
  kept : ∀ o t, Reach b roots o → b o = some (.table t) →
    ∃ t', g.body o = some (.table t') ∧ Kept b (Reach b roots) t t'

theorem clearWeak_collected (hwf : WellFormed b) (h : Converged b (Live b roots) g) (hstate : g.state = .finish)
    (hroots : ∀ o ∈ roots, g.marked o = true) : Collected b roots g.clearWeak := by
  classical
  have hok : Decides b roots fun v => decide (Present b (Reach b roots) v) := fun v => decide_eq_true_iff
  generalize (fun v => decide (Present b (Reach b roots) v)) = ok at hok
  have hs := @live_sound _ roots hwf
  unfold Gc.clearWeak
  obtain ⟨g₃, heq₃, hc₃, hvals₃⟩ := clearValues hwf hok h hstate hroots
  dsimp only
  rw [heq₃]
  have hr₃ : Remains b ok false g₃ := h.tri.holds.remains.trans hc₃.remains
  have htri₃ := h.clears hstate hc₃
  have hgray₃ : g₃.list .gray = [] := by rw [hc₃.list, h.gray]
  have hstate₃ : g₃.state = .finish := hc₃.state.trans hstate
  rw [markAllGray_nil hgray₃]
  obtain ⟨h₅, hrun₅⟩ := convergeEphemerons_converged (hr₃.sound hs) htri₃ hgray₃ hstate₃
  generalize g₃.convergeEphemerons = g₅ at h₅ hrun₅
  have hr₅ : Remains g₃.body ok false g₅ := h₅.tri.holds.remains
  have hready₅ : Ready b roots ok true g₅ :=
    ⟨(hr₃.trans hr₅).withKeys, h₅.tri.ok, fun o ho => hrun₅.mono o (hc₃.mono o (h.reach hstate hroots ho)),
      fun o t ho ht hwv => (hvals₃ o t ho ht hwv).remains hr₅ hrun₅.mono hrun₅.tidy, h₅.tri.clean⟩
  obtain ⟨g₇, heq₇, hc₇, hkeys₇⟩ := clearKeys hwf hok hr₃ h₅ hready₅ (hrun₅.state.trans hstate₃)
  rw [heq₇]
  have hready₇ := hready₅.clears hc₇
  have hlists : ∀ x, ∀ o ∈ g₅.list x, InList g₃.body (Live b roots) g₇ x o := fun x o ho =>
    (h₅.tri.lists x o ho).mono hc₇.mono hc₇.tidy
  have hc₈ := clearByValues_again hwf hok hr₃ hready₇ (.inl rfl)
    (fun o ho => hlists .weak o (hc₇.list ▸ ho)) (g₃.list .weak)
  have hready₈ := hready₇.clears hc₈
  have hc₉ := clearByValues_again hwf hok hr₃ hready₈ (.inr rfl)
    (fun o ho => (hlists .allweak o (hc₇.list ▸ hc₈.list ▸ ho)).mono hc₈.mono hc₈.tidy) (g₃.list .allweak)
  have hready₉ := hready₈.clears hc₉
  have hkeys₉ : ∀ o t, Reach b roots o → b o = some (.table t) → t.weakKeys = true → KeysCleared b ok _ o t :=
    fun o t ho ht hk => (hkeys₇ o t ho ht hk).clears (hc₈.trans hc₉)
  generalize Gc.clearByValues _ _ _ = g₉ at hready₉ hkeys₉
  refine ⟨hready₉.clean, fun o hm hne => ?_, fun o ho => ?_,
    fun o t ho ht => hready₉.kept hok ho ht fun hk => (hkeys₉ o t ho ht hk).keyed⟩
  · rw [← hready₉.exact o hm hne, Bool.not_eq_true]
  rw [← Bool.not_eq_true, not_iff_not]
  refine ⟨hready₉.live o, fun hl => ?_⟩
  rcases hl with ho | ⟨hstr, x, t, hx, ht, ⟨hwv, v, hv, ho⟩ | ⟨hk, n, hn, ho, hpresent⟩⟩
  · exact hready₉.reach o ho
  · exact (hready₉.values x t hx ht hwv).strings v hv o ho hstr
  · refine (hkeys₉ x t hx ht hk).strings n hn ⟨fun hwv => (hok _).mpr (hpresent hwv), fun _ _ => ?_⟩ o ho hstr
    exact hok.of_strings (refs_str ho hstr)

/-! ## Cycles -/

/-- A graph before a cycle: nothing is marked. -/
structure Fresh (b : Graph) (roots : List Nat) (g : Gc) : Prop where
  holds : Holds b g
  white : ∀ o, g.marked o = false
  start : roots = g.root.toList ++ g.refs
  markable : ∀ o ∈ roots, Markable b o
  twups : ∀ th ∈ g.twups, ∃ stack us, b th = some (.thread stack us)
  clean : Clean g

/-- Steps of a cycle until all is marked that can be while the program runs. -/
inductive Propagates : Gc → Gc → Prop
  | refl (g : Gc) : Propagates g g
  | step {g g' : Gc} (drops : Nat → List Mut) : g.state = .propagate → Propagates (g.step drops) g' → Propagates g g'

/-- What holds between the steps. -/
structure Marking (b : Graph) (roots : List Nat) (g : Gc) : Prop where
  tri : Tri b (Live b roots) (fun _ => False) { g with state := .propagate }
  roots : ∀ o ∈ roots, g.marked o = true
  refs : g.refs = []

theorem Tri.setState {Q : Nat → Prop} (h : Tri b P Q g) : Tri b P Q { g with state := .propagate } where
  holds := ⟨h.holds.view, h.holds.none⟩
  ok := h.ok
  lists := h.lists
  handled o ho := (h.handled o ho).imp_right fun h => h.imp_right fun h => h.imp_right fun h => ⟨rfl, h.2⟩
  twups := h.twups
  clean := h.clean

theorem Fresh.marking (hwf : WellFormed b) (h : Fresh b roots g) : Marking b roots g.startCycle := by
  have hs := @live_sound _ roots hwf
  have hok : ∀ o ∈ g.root.toList ++ g.refs, Live b roots o ∧ Markable b o := fun o ho =>
    ⟨.inl (.root (h.start ▸ ho)), h.markable o (h.start ▸ ho)⟩
  have h₀ : Tri b (Live b roots) (fun _ => False) { g with list := fun _ => [] } :=
    ⟨⟨h.holds.view, h.holds.none⟩, fun o ho => (nomatch (h.white o).symm.trans ho), fun _ => nofun,
      fun o ho => (nomatch (h.white o).symm.trans ho), h.twups, h.clean⟩
  obtain ⟨hstep₁, hroot⟩ := visitOpt_step hs h₀.holds (p := g.root) fun x hx => hok x (List.mem_append_left _ hx)
  have h₁ := hstep₁.tri h₀
  have hrefs₁ : (Gc.visitOpt { g with list := fun _ => [] } g.root).refs = g.refs := hstep₁.refs
  unfold Gc.startCycle
  dsimp only
  rw [hrefs₁]
  split
  · rename_i hnil
    refine ⟨h₁.setState, fun o ho => hroot o ?_, hrefs₁.trans hnil⟩
    rw [h.start, hnil, List.append_nil] at ho
    exact ho
  · have h₂ := h₁.setRefs [] g.refs
    obtain ⟨hstep₃, hmarked⟩ := Step.foldl (P := Live b roots) (f := Gc.visit) (r := fun x => [x])
      (fun g x hb hx => by
        obtain ⟨h, hm⟩ := visit_step hs hb (hx x List.mem_cons_self).1 (hx x List.mem_cons_self).2
        exact ⟨h, List.forall_mem_singleton.mpr hm⟩)
      g.refs h₂.holds fun x hx => List.forall_mem_singleton.mpr (hok x (List.mem_append_right _ hx))
    refine ⟨(hstep₃.tri h₂).setState, fun o ho => ?_, hstep₃.refs⟩
    rw [h.start] at ho
    rcases List.mem_append.mp ho with ho | ho
    · exact hstep₃.mono o (hroot o ho)
    · exact hmarked o (List.mem_flatMap.mpr ⟨o, ho, List.mem_cons_self⟩)

/-- A step marks one object, or ends with the list. -/
theorem Marking.step (hwf : WellFormed b) (h : Marking b roots g) (hstate : g.state = .propagate)
    (drops : Nat → List Mut) : Marking b roots (g.step drops) ∧ ((g.step drops).state = .atomic ∨
      (g.step drops).state = .propagate ∧ (g.step drops).unmarked + ((g.step drops).list .gray).length <
        g.unmarked + (g.list .gray).length) := by
  have heq : ({ g with state := .propagate } : Gc) = g := by rw [← hstate]
  have htri : Tri b (Live b roots) (fun _ => False) g := heq ▸ h.tri
  unfold Gc.step
  rw [hstate]
  dsimp only
  cases hgray : g.list .gray with
  | nil => exact ⟨⟨h.tri, h.roots, h.refs⟩, .inl rfl⟩
  | cons o gray =>
    obtain ⟨h₁, hrun₁, hlt⟩ := markOneGray_tri (live_sound hwf) htri hgray (.inl hstate)
    have hcharge : Step b (Live b roots) (g.markOneGray o gray) (g.markOneGray o gray).charge := .charge
    have hrun := hrun₁.trans hcharge.run
    refine ⟨⟨(hcharge.tri h₁).setState, fun x hx => hrun.mono x (h.roots x hx), hrun.refs.trans h.refs⟩, .inr ⟨?_, ?_⟩⟩
    · exact hrun.state.trans hstate
    · rw [hgray] at hlt
      exact Nat.lt_of_le_of_lt hcharge.unmarked hlt

theorem Marking.propagates (hwf : WellFormed b) (h : Marking b roots g) (hp : Propagates g g') : Marking b roots g' := by
  induction hp with
  | refl => exact h
  | step drops hstate _ ih => exact ih (h.step hwf hstate drops).1

/-- The steps end. -/
theorem Marking.ends (hwf : WellFormed b) (n : Nat) : ∀ {g : Gc}, Marking b roots g → g.state = .propagate →
    g.unmarked + (g.list .gray).length < n → ∃ g', Propagates g g' ∧ g'.state = .atomic := by
  induction n with
  | zero => exact fun _ _ hn => absurd hn (Nat.not_lt_zero _)
  | succ n ih =>
    intro g h hstate hn
    obtain ⟨h', hat | ⟨hst, hlt⟩⟩ := h.step hwf hstate fun _ => []
    · exact ⟨_, .step _ hstate (.refl _), hat⟩
    · obtain ⟨g', hp, hat⟩ := ih h' hst (by omega)
      exact ⟨g', .step _ hstate hp, hat⟩

/-- A cycle over any graph comes to its end, and then leaves unmarked what is not reachable and clears weak tables
exactly. -/
theorem weak_tables_exact (hwf : WellFormed b) (h : Fresh b roots g) :
    (∃ g', Propagates g.startCycle g' ∧ g'.state = .atomic) ∧
      ∀ g', Propagates g.startCycle g' → g'.state = .atomic →
        Collected b roots (Gc.finishMarking { g' with state := .finish }) := by
  have hmarking := h.marking hwf
  refine ⟨hmarking.ends hwf _ rfl (Nat.lt_succ_self _), fun g' hp _ => ?_⟩
  have h' := hmarking.propagates hwf hp
  obtain ⟨htri, hgray, hstate, hmono⟩ := markRest_tri (live_sound hwf) h'.tri fun o ho => by
    rw [show Gc.refs { g' with state := .propagate } = [] from h'.refs] at ho
    cases ho
  obtain ⟨hconv, hrun⟩ := convergeEphemerons_converged (live_sound hwf) htri hgray hstate
  rw [finishMarking_eq]
  exact clearWeak_collected hwf hconv (hrun.state.trans hstate) fun o ho => hrun.mono o (hmono o (h'.roots o ho))

/-- An ephemeron with two entries, where the second key is reachable only from its own value. -/
def ephemeronHeap : Gc :=
  { [.table ⟨true, false, none, [.obj 1], [⟨.obj 1, .obj 2⟩, ⟨.obj 3, .obj 4⟩]⟩, .rustId, .collection [], .rustId,
      .collection [.obj 3]].foldl Gc.alloc new with root := some 0 }

theorem ephemeronHeap_none {o : Nat} (h : 5 ≤ o) : ephemeronHeap.object o = none := by
  show Function.update (Function.update (Function.update (Function.update (Function.update (fun _ => none) 0 _) 1 _) 2 _)
    3 _) 4 _ o = none
  rw [Function.update_of_ne (by omega), Function.update_of_ne (by omega), Function.update_of_ne (by omega),
    Function.update_of_ne (by omega), Function.update_of_ne (by omega)]

theorem ephemeronHeap_body {o : Nat} {c : Body} (h : ephemeronHeap.body o = some c) :
    o < 5 ∧ (c = .rustId ∨ c = .collection [] ∨ c = .collection [.obj 3] ∨
      c = .table ⟨true, false, none, [.obj 1], [⟨.obj 1, .obj 2⟩, ⟨.obj 3, .obj 4⟩]⟩) := by
  match o, h with
  | 0, h => exact ⟨by decide, .inr (.inr (.inr (Option.some.inj h).symm))⟩
  | 1, h => exact ⟨by decide, .inl (Option.some.inj h).symm⟩
  | 2, h => exact ⟨by decide, .inr (.inl (Option.some.inj h).symm)⟩
  | 3, h => exact ⟨by decide, .inl (Option.some.inj h).symm⟩
  | 4, h => exact ⟨by decide, .inr (.inr (.inl (Option.some.inj h).symm))⟩
  | o + 5, h =>
    rw [Gc.body, ephemeronHeap_none (by omega)] at h
    cases h

theorem ephemeronHeap_wellFormed : WellFormed ephemeronHeap.body where
  refs {o c x} hc hx := by
    obtain ⟨-, rfl | rfl | rfl | rfl⟩ := ephemeronHeap_body hc
    · cases hx
    · cases hx
    · obtain rfl := List.mem_singleton.mp hx
      exact ⟨_, rfl, nofun⟩
    · have hx : x ∈ [1, 1, 2, 3, 4] := hx
      have hlt : 0 < x ∧ x < 5 := (show ∀ y ∈ [1, 1, 2, 3, 4], 0 < y ∧ y < 5 by decide) x hx
      match x, hlt with
      | 1, _ | 2, _ | 3, _ | 4, _ => exact ⟨_, rfl, nofun⟩
  upVal hc := by
    obtain ⟨-, h | h | h | h⟩ := ephemeronHeap_body hc <;> cases h
  userData hc := by
    obtain ⟨-, h | h | h | h⟩ := ephemeronHeap_body hc <;> cases h
  openupval hc := by
    obtain ⟨-, h | h | h | h⟩ := ephemeronHeap_body hc <;> cases h

theorem ephemeronHeap_fresh : Fresh ephemeronHeap.body [0] ephemeronHeap where
  holds := ⟨fun _ => rfl, fun _ => ephemeronHeap_none⟩
  white o := by
    rcases o with _ | _ | _ | _ | _ | o
    iterate 5 rfl
    rw [Gc.marked, ephemeronHeap_none (by omega)]
    rfl
  start := rfl
  markable o ho := by
    obtain rfl := List.mem_singleton.mp ho
    exact ⟨_, rfl, (by simp)⟩
  twups := List.forall_mem_nil _
  clean := List.forall_mem_nil _

theorem ephemeronHeap_collected : ∃ g, Propagates ephemeronHeap.startCycle g ∧ g.state = .atomic ∧
    Collected ephemeronHeap.body [0] (Gc.finishMarking { g with state := .finish }) := by
  obtain ⟨⟨g, hp, hg⟩, hall⟩ := weak_tables_exact ephemeronHeap_wellFormed ephemeronHeap_fresh
  exact ⟨g, hp, hg, hall g hp hg⟩

end Tsuki.Collector
