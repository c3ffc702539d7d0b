import Tsuki.Gc.Debt

/-!
# The account over whole runs

From a new collector on, through any number of cycles, with allocations, barriers and strong references between the
steps and in the destructors of what is freed. The account of a new state is balanced, and each operation moves weight
and debt together: an allocation by its size, a mark by what it may take from the work that is left, a sweep by what
it frees. A mutation between two steps is calm, it adds to the debt what it adds to the work; the result is the
induction over the operations.
-/

namespace Tsuki.Collector

variable {g g' g'' : Gc}

/-- The white of the last cycle, which the sweep frees. -/
def Gc.dead (g : Gc) (o : Nat) : Bool := (g.object o).any fun h => g.isDead h.color

/-! ## Programs -/

/-- What a program does while nothing is marked: some objects are new, and none dies. -/
structure Calm (g g' : Gc) : Prop where
  new : ∃ os : List Nat, g'.all = os ++ g.all ∧ g'.debt = g.debt + os.length ∧ g'.count = g.count + os.length
  sweep : g'.sweep = g.sweep
  survivors : g'.survivors = g.survivors
  state : g'.state = g.state
  stops : Stop.underflow ∉ g.stops → Stop.underflow ∉ g'.stops
  dead : ∀ o < g.count, g'.dead o = true → g.dead o = true
  listed : ∀ x, ListedBut x g → ListedBut x g'

theorem Calm.refl (g : Gc) : Calm g g :=
  ⟨⟨[], rfl, rfl, rfl⟩, rfl, rfl, rfl, id, fun _ _ => id, fun _ => id⟩

theorem Calm.trans (h : Calm g g') (h' : Calm g' g'') : Calm g g'' where
  new := by
    obtain ⟨os, hall, hdebt, hcount⟩ := h.new
    obtain ⟨os', hall', hdebt', hcount'⟩ := h'.new
    refine ⟨os' ++ os, ?_, ?_, ?_⟩
    · rw [hall', hall, List.append_assoc]
    · rw [hdebt', hdebt, List.length_append]
      omega
    · rw [hcount', hcount, List.length_append]
      omega
  sweep := h'.sweep.trans h.sweep
  survivors := h'.survivors.trans h.survivors
  state := h'.state.trans h.state
  stops hs := h'.stops (h.stops hs)
  dead o ho hd := by
    obtain ⟨os, -, -, hcount⟩ := h.new
    exact h.dead o ho (h'.dead o (by omega) hd)
  listed x hl := h'.listed x (h.listed x hl)

/-- What changes neither the list of objects nor the debt. -/
theorem Frame.calm (h : Frame g g') (hdebt : g'.debt = g.debt)
    (hstops : Stop.underflow ∉ g.stops → Stop.underflow ∉ g'.stops) (hdead : ∀ o, g'.dead o = true → g.dead o = true) :
    Calm g g' :=
  ⟨⟨[], h.all, hdebt, h.count⟩, h.sweep, h.survivors, h.state, hstops, fun o _ => hdead o, fun _ hl => hl.frame h⟩

theorem Calm.fail {s : Stop} (hs : s ≠ .underflow) : Calm g (g.fail s) := by
  refine Frame.calm (Marks.fail hs).1 rfl (fun hu hmem => ?_) fun _ => id
  rcases List.mem_cons.mp hmem with heq | hmem
  · exact hs heq.symm
  · exact hu hmem

theorem Calm.paint {o : Nat} {c : Color} (hc : g.isDead c = false) : Calm g (g.paint o c) := by
  refine (frame_paint o c).calm rfl id fun x hx => ?_
  unfold Gc.dead at hx ⊢
  by_cases hxo : x = o
  · subst hxo
    rw [Gc.object_paint_self, Option.any_map] at hx
    cases hobj : g.object x with
    | none => simp [hobj] at hx
    | some h =>
      rw [hobj] at hx
      have hx : g.isDead c = true := hx
      rw [hc] at hx
      cases hx
  · rwa [Gc.object_paint_of_ne _ _ hxo] at hx

theorem isDead_currentwhite : g.isDead (.white g.currentwhite) = false := by
  unfold Gc.isDead
  simp

theorem Calm.alloc {b : Body} : Calm g (g.alloc b) where
  new := ⟨[g.count], rfl, rfl, rfl⟩
  sweep := rfl
  survivors := rfl
  state := rfl
  stops := id
  dead o ho hd := by
    unfold Gc.dead Gc.alloc at hd
    dsimp only at hd
    rwa [Function.update_of_ne (by omega)] at hd
  listed x hl := by
    have hfresh : g.count ∉ g.objects := fun h => Nat.lt_irrefl _ (hl.lt _ h)
    have hobjects : (g.alloc b).objects = g.count :: g.objects := rfl
    have hold : ∀ {o}, o ≠ g.count → (g.alloc b).object o = g.object o := fun h => Function.update_of_ne h ..
    have hmark : ∀ {o}, o ≠ g.count → (g.alloc b).isMark o = g.isMark o := by
      intro o ho
      rw [Gc.isMark, hold ho, Gc.isMark]
    refine ⟨?_, ?_, ?_, ?_, ?_, ?_, ?_⟩
    · rw [hobjects]
      exact List.nodup_cons.mpr ⟨hfresh, hl.nodup⟩
    · intro o ho
      rw [hobjects] at ho
      show o < g.count + 1
      rcases List.mem_cons.mp ho with rfl | ho
      · exact Nat.lt_succ_self _
      · exact Nat.lt_succ_of_lt (hl.lt o ho)
    · intro o ho
      rw [hobjects] at ho
      rcases List.mem_cons.mp ho with rfl | ho
      · show (Function.update g.object g.count _ g.count).isSome
        rw [Function.update_self]
        rfl
      · rw [hold fun h => hfresh (h ▸ ho)]
        exact hl.isSome o ho
    · intro o ho
      have ho : g.count + 1 ≤ o := ho
      rw [hold (by omega)]
      exact hl.none o (by omega)
    · intro o ho hm hx
      rw [hobjects]
      by_cases hoc : o = g.count
      · exact hoc ▸ List.mem_cons_self
      · rw [hold hoc] at ho
        rw [hmark hoc] at hm
        exact List.mem_cons_of_mem _ (hl.mem o ho hm hx)
    · intro m hm
      obtain ⟨hlt, hsome, hisMark, hmem, hx⟩ := hl.spare m hm
      have hne : m ≠ g.count := by omega
      rw [hold hne, hmark hne, hobjects]
      refine ⟨Nat.lt_succ_of_lt hlt, hsome, hisMark, fun h => ?_, hx⟩
      rcases List.mem_cons.mp h with h | h
      · exact hne h
      · exact hmem h
    · intro o ho
      obtain ⟨hlt, hmem, hsome⟩ := hl.freed o ho
      rw [hobjects, hold (Nat.ne_of_lt hlt)]
      refine ⟨Nat.lt_succ_of_lt hlt, fun h => ?_, hsome⟩
      rcases List.mem_cons.mp h with h | h
      · omega
      · exact hmem h

theorem Calm.setBody {o : Nat} {b : Body} (hm : g.isMark o = false) (hb : b ≠ .sweepMark) : Calm g (g.setBody o b) := by
  refine (Marks.setBody hm hb).1.calm rfl id fun x hx => ?_
  unfold Gc.dead at hx ⊢
  by_cases hxo : x = o
  · subst hxo
    rw [Gc.object_setBody_self, Option.any_map] at hx
    exact hx
  · rwa [Gc.object_setBody_of_ne _ _ hxo] at hx

theorem frame_same (h : g'.all = g.all) (h₁ : g'.sweep = g.sweep) (h₂ : g'.sweepMark = g.sweepMark)
    (h₃ : g'.survivors = g.survivors) (h₄ : g'.count = g.count) (h₅ : g'.state = g.state)
    (h₆ : g'.currentwhite = g.currentwhite) (h₇ : g'.object = g.object) : Frame g g' := by
  refine ⟨h, h₁, h₂, h₃, h₄, h₅, h₆, fun o => by rw [h₇], fun o => ?_⟩
  rw [Gc.isMark, h₇, Gc.isMark]

theorem Calm.mutate (hs : g.state = .idle ∨ g.state = .sweep) (m : Mut) : Calm g (g.mutate m) := by
  have same : ∀ {g' : Gc}, Frame g g' → g'.debt = g.debt → g'.stops = g.stops → g'.object = g.object → Calm g g' := by
    intro g' hf hd hst ho
    refine hf.calm hd (fun h => hst ▸ h) fun o h => ?_
    unfold Gc.dead Gc.isDead at h ⊢
    rwa [ho, hf.currentwhite] at h
  cases m with
  | alloc b =>
    rw [Gc.mutate]
    split
    · exact .refl g
    · exact .alloc
  | write o b =>
    rw [Gc.mutate]
    split
    · exact .refl g
    · rename_i h
      rw [not_or] at h
      exact .setBody (Bool.eq_false_iff.mpr h.2) h.1
  | close uv =>
    rw [Gc.mutate]
    split
    · exact .fail nofun
    · split
      · exact .refl g
      · exact .paint rfl
  | barrier o v =>
    rw [Gc.mutate]
    split
    · unfold Gc.barrier
      rcases hs with hs | hs
      · rw [hs]
        exact .paint isDead_currentwhite
      · rw [hs]
        exact .paint isDead_currentwhite
    · exact .refl g
  | barrierBack o v =>
    rw [Gc.mutate]
    split
    · exact (same (frame_setList _ _) rfl rfl rfl).trans (.paint rfl)
    · exact .refl g
  | resurrect o =>
    show Calm g (g.resurrect o)
    unfold Gc.resurrect
    split
    · exact .fail nofun
    · split
      · exact .paint isDead_currentwhite
      · exact .refl g
  | ref o => exact same (frame_same rfl rfl rfl rfl rfl rfl rfl rfl) rfl rfl rfl
  | unref o => exact same (frame_same rfl rfl rfl rfl rfl rfl rfl rfl) rfl rfl rfl
  | setTwups th => exact same (frame_same rfl rfl rfl rfl rfl rfl rfl rfl) rfl rfl rfl
  | setRoot o => exact same (frame_same rfl rfl rfl rfl rfl rfl rfl rfl) rfl rfl rfl

theorem Calm.foldl (hs : g.state = .idle ∨ g.state = .sweep) (ms : List Mut) : Calm g (ms.foldl Gc.mutate g) := by
  induction ms generalizing g with
  | nil => exact .refl g
  | cons m ms ih =>
    have h := Calm.mutate hs m
    exact h.trans (ih (by rwa [h.state]))

/-- Only the memory and the list of objects matter. -/
theorem ListedBut.congr {x : Option Nat} (hl : ListedBut x g) (hobjects : g'.objects = g.objects)
    (h₂ : g'.sweepMark = g.sweepMark) (h₃ : g'.count = g.count) (h₄ : g'.object = g.object) : ListedBut x g' := by
  have hmark : g'.isMark = g.isMark := by
    funext o
    rw [Gc.isMark, h₄, Gc.isMark]
  constructor
  · rw [hobjects]
    exact hl.nodup
  · rw [hobjects, h₃]
    exact hl.lt
  · rw [hobjects, h₄]
    exact hl.isSome
  · rw [h₃, h₄]
    exact hl.none
  · rw [hobjects, h₄, hmark]
    exact hl.mem
  · rw [hobjects, h₂, h₃, h₄, hmark]
    exact hl.spare
  · rw [hobjects, h₃, h₄]
    exact hl.freed

/-- In a cycle that marks, what is covered stays covered. -/
structure Covered (g : Gc) : Prop where
  listed : Listed g
  sweep : g.sweep = none
  funded : Funded 1 0 g

theorem Covered.of_marks (h : Covered g) (hm : Marks g g') : Covered g' :=
  ⟨hm.listed h.listed, hm.1.sweep.trans h.sweep, hm.2 1 (Nat.le_refl 1) 0 h.funded⟩

theorem Covered.alloc {b : Body} (h : Covered g) : Covered (g.alloc b) := by
  refine ⟨(Calm.alloc.listed none h.listed), h.sweep, h.funded.1, ?_⟩
  have hold : g.objects.countP (g.alloc b).white = g.whites := by
    refine List.countP_congr fun o ho => ?_
    unfold Gc.white Gc.alloc
    dsimp only
    rw [Function.update_of_ne (by have := h.listed.lt o ho; omega)]
  have hle : (g.alloc b).whites ≤ g.whites + 1 := by
    show (g.count :: g.objects).countP (g.alloc b).white ≤ _
    rw [List.countP_cons, hold]
    split <;> omega
  have hf := h.funded.2
  show (g.alloc b).whites + 1 * (g.list .gray).length + 0 ≤ g.debt + 1
  omega

/-- An object that was dead is white still. -/
theorem Marks.resurrect {o : Nat} : Marks g (g.resurrect o) := by
  unfold Gc.resurrect
  cases hobj : g.object o with
  | none => exact .fail nofun
  | some h =>
    dsimp only
    split
    · rename_i hd
      have hw : h.color.isWhite = true := by
        rw [of_decide_eq_true hd]
        rfl
      refine ⟨frame_paint o _, fun w _ k hf => ⟨hf.1, ?_⟩⟩
      have hwhites : (g.paint o (.white g.currentwhite)).whites = g.whites := by
        refine List.countP_congr fun x _ => ?_
        unfold Gc.white
        by_cases hx : x = o
        · subst hx
          rw [Gc.object_paint_self, hobj]
          exact iff_of_true rfl hw
        · rw [Gc.object_paint_of_ne _ _ hx]
      show (g.paint o (.white g.currentwhite)).whites + w * (g.list .gray).length + k ≤ g.debt
      rw [hwhites]
      exact hf.2
    · exact .refl g

theorem Covered.mutate (h : Covered g) (hs : g.state = .propagate ∨ g.state = .atomic) (m : Mut) :
    Covered (g.mutate m) ∧ (g.mutate m).state = g.state := by
  have same : ∀ {g' : Gc}, Marks g g' → Covered g' ∧ g'.state = g.state := fun hm => ⟨h.of_marks hm, hm.1.state⟩
  have other : ∀ {g' : Gc}, Frame g g' → g'.debt = g.debt → g'.stops = g.stops → g'.object = g.object →
      g'.list = g.list → Covered g' ∧ g'.state = g.state := by
    intro g' hf hd hst ho hlist
    refine same ⟨hf, fun w _ k hfund => ?_⟩
    have hw : g'.whites = g.whites := by
      unfold Gc.whites Gc.white
      rw [hf.objects, ho]
    rw [Funded, hst, hw, hlist, hd]
    exact hfund
  cases m with
  | alloc b =>
    rw [Gc.mutate]
    split
    · exact ⟨h, rfl⟩
    · exact ⟨h.alloc, rfl⟩
  | write o b =>
    rw [Gc.mutate]
    split
    · exact ⟨h, rfl⟩
    · rename_i hg
      rw [not_or] at hg
      exact same (.setBody (Bool.eq_false_iff.mpr hg.2) hg.1)
  | close uv =>
    rw [Gc.mutate]
    split
    · exact same (.fail nofun)
    · split
      · exact ⟨h, rfl⟩
      · exact same (.paint rfl)
  | barrier o v =>
    rw [Gc.mutate]
    split
    · rename_i hn
      have hv : g.white v = true := (Bool.and_eq_true_iff.mp hn).2
      have hb : g.barrier o v = g.mark v := by
        unfold Gc.barrier
        rcases hs with hs | hs <;> rw [hs]
      rw [hb]
      exact same (.mark h.listed hv)
    · exact ⟨h, rfl⟩
  | barrierBack o v =>
    rw [Gc.mutate]
    split
    · exact same (.link h.listed nofun)
    · exact ⟨h, rfl⟩
  | resurrect o => exact same .resurrect
  | ref o => exact other (frame_same rfl rfl rfl rfl rfl rfl rfl rfl) rfl rfl rfl rfl
  | unref o => exact other (frame_same rfl rfl rfl rfl rfl rfl rfl rfl) rfl rfl rfl rfl
  | setTwups th => exact other (frame_same rfl rfl rfl rfl rfl rfl rfl rfl) rfl rfl rfl rfl
  | setRoot o => exact other (frame_same rfl rfl rfl rfl rfl rfl rfl rfl) rfl rfl rfl rfl

/-! ## The sweep -/

/-- The account while the list is swept from `rest` on: it covers the objects that are new since the sweep mark was
placed, which are `n` at least, and those that are to be freed; the others are the survivors. -/
structure Sweeping (n : Nat) (g : Gc) (rest : List Nat) : Prop where
  listed : Listed g
  stops : Stop.underflow ∉ g.stops
  state : g.state = .sweep
  sweep : g.sweep.getD [] = rest
  split : ∃ fresh swept, g.all = fresh ++ swept ∧ g.survivors = swept.length ∧ g.count ≤ n + fresh.length ∧
    fresh.length + rest.countP g.dead ≤ g.debt

theorem Sweeping.calm {n : Nat} {rest : List Nat} (h : Sweeping n g rest) (hc : Calm g g') : Sweeping n g' rest := by
  obtain ⟨fresh, swept, hall, hsurv, hcount, hdebt⟩ := h.split
  obtain ⟨os, hall', hdebt', hcount'⟩ := hc.new
  refine ⟨hc.listed none h.listed, hc.stops h.stops, hc.state.trans h.state,
    (congrArg (·.getD []) hc.sweep).trans h.sweep, os ++ fresh, swept, ?_, ?_, ?_, ?_⟩
  · rw [hall', hall, List.append_assoc]
  · rw [hc.survivors, hsurv]
  · rw [hcount', List.length_append]
    omega
  · have hdead : rest.countP g'.dead ≤ rest.countP g.dead := by
      refine List.countP_mono_left fun o ho hd => hc.dead o ?_ hd
      apply h.listed.lt
      rw [Gc.objects, h.sweep]
      exact List.mem_append_right _ ho
    rw [hdebt', List.length_append]
    omega

/-- An object that was taken out of the list is freed, and the others stay as they are. -/
theorem release_spec {o : Nat} (hl : ListedBut (some o) g) :
    Listed (g.release o) ∧ (g.release o).all = g.all ∧ (g.release o).sweep = g.sweep ∧
      (g.release o).survivors = g.survivors ∧ (g.release o).state = g.state ∧ (g.release o).debt = g.debt ∧
      (g.release o).stops = g.stops ∧ (g.release o).count = g.count ∧
      (∀ x ∈ g.objects, (g.release o).dead x = g.dead x) := by
  obtain ⟨holt, homem, ho⟩ := hl.freed o rfl
  -- an object that is not listed is taken out of memory
  have clear : ∀ (m : Nat) (g' : Gc), m ∉ g.objects → g'.all = g.all → g'.sweep = g.sweep → g'.count = g.count →
      g'.currentwhite = g.currentwhite → g'.object = Function.update g.object m none →
      (∀ s ∈ g'.sweepMark, s ≠ m ∧ s < g.count ∧ (g.object s).isSome ∧ g.isMark s = true ∧ s ∉ g.objects) →
      (g.isMark o = false → m = o) →
      Listed g' ∧ ∀ x ∈ g.objects, g'.dead x = g.dead x := by
    intro m g' hm hall hsweep hcount hcw hobj hspare hmo
    have hobjects : g'.objects = g.objects := by rw [Gc.objects, Gc.objects, hall, hsweep]
    have hold : ∀ {x}, x ≠ m → g'.object x = g.object x := fun hx => by rw [hobj, Function.update_of_ne hx]
    have hmark : ∀ {x}, x ≠ m → g'.isMark x = g.isMark x := fun hx => by rw [Gc.isMark, hold hx, Gc.isMark]
    have hne : ∀ {x}, x ∈ g.objects → x ≠ m := fun hx h => hm (h ▸ hx)
    refine ⟨⟨hobjects ▸ hl.nodup, ?_, ?_, ?_, ?_, ?_, by simp⟩, fun x hx => ?_⟩
    · intro x hx
      rw [hobjects] at hx
      exact hcount ▸ hl.lt x hx
    · intro x hx
      rw [hobjects] at hx
      rw [hold (hne hx)]
      exact hl.isSome x hx
    · intro x hx
      by_cases hxm : x = m
      · rw [hxm, hobj, Function.update_self]
      · rw [hold hxm]
        exact hl.none x (hcount ▸ hx)
    · intro x hx hxm _
      by_cases hxe : x = m
      · rw [hxe, hobj, Function.update_self] at hx
        cases hx
      · rw [hold hxe] at hx
        rw [hmark hxe] at hxm
        rw [hobjects]
        refine hl.mem x hx hxm fun h => ?_
        obtain rfl := Option.some.inj h
        exact hxe (hmo hxm).symm
    · intro s hs
      obtain ⟨hne', hlt, hsome, hsm, hmem⟩ := hspare s hs
      rw [hold hne', hmark hne', hobjects, hcount]
      exact ⟨hlt, hsome, hsm, hmem, (by simp)⟩
    · unfold Gc.dead Gc.isDead
      rw [hold (hne hx), hcw]
  unfold Gc.release
  split
  · rename_i hmark
    split
    · rename_i hnone
      have hgone : ∀ x ∈ g.objects, x ≠ o := fun x hx h => homem (h ▸ hx)
      refine ⟨⟨hl.nodup, hl.lt, hl.isSome, hl.none, fun x hx hxm _ => ?_, ?_, by simp⟩, rfl, rfl, rfl, rfl,
        rfl, rfl, rfl, fun _ _ => rfl⟩
      · refine hl.mem x hx hxm fun h => ?_
        obtain rfl := Option.some.inj h
        have hxm : g.isMark x = false := hxm
        rw [Gc.isMark, hmark] at hxm
        cases hxm
      · intro s hs
        obtain rfl := Option.some.inj hs
        exact ⟨holt, ho, hmark, homem, (by simp)⟩
    · rename_i m hm
      obtain ⟨-, -, -, hmem, hne⟩ := hl.spare m hm
      obtain ⟨hlisted, hdead⟩ := clear m { g with sweepMark := some o, object := Function.update g.object m none }
        hmem rfl rfl rfl rfl rfl (fun s hs => by
          obtain rfl := Option.some.inj hs
          exact ⟨fun h => hne (h ▸ rfl), holt, ho, hmark, homem⟩) (fun hf => by
          rw [Gc.isMark, hmark] at hf
          cases hf)
      exact ⟨hlisted, rfl, rfl, rfl, rfl, rfl, rfl, rfl, hdead⟩
  · rename_i hmark
    obtain ⟨hlisted, hdead⟩ := clear o { g with object := Function.update g.object o none }
      homem rfl rfl rfl rfl rfl (fun s hs => by
        obtain ⟨hlt, hsome, hsm, hmem, hne⟩ := hl.spare s hs
        exact ⟨fun h => hne (h ▸ rfl), hlt, hsome, hsm, hmem⟩) (fun _ => rfl)
    exact ⟨hlisted, rfl, rfl, rfl, rfl, rfl, rfl, rfl, hdead⟩

theorem Sweeping.setSweep {n : Nat} {rest : List Nat} (h : Sweeping n g rest) {sweep : Option (List Nat)}
    (hsweep : sweep.getD [] = rest) : Sweeping n { g with sweep := sweep } rest := by
  refine ⟨h.listed.congr ?_ rfl rfl rfl, h.stops, h.state, hsweep, h.split⟩
  show g.all ++ sweep.getD [] = g.all ++ g.sweep.getD []
  rw [hsweep, h.sweep]

/-- A dead object at the head of what is still to sweep. -/
theorem Sweeping.free {n o : Nat} {rest : List Nat} (h : Sweeping n g (o :: rest)) (hd : g.dead o = true)
    (drop : List Mut) : Sweeping n (Gc.free { g with sweep := some rest } o drop).charge rest := by
  obtain ⟨fresh, swept, hall, hsurv, hcount, hdebt⟩ := h.split
  have hobjects : g.objects = g.all ++ o :: rest := by rw [Gc.objects, h.sweep]
  have hnodup : (o :: (g.all ++ rest)).Nodup := List.perm_middle.nodup_iff.mp (hobjects ▸ h.listed.nodup)
  have hmem : ∀ {x}, x ∈ g.all ++ rest → x ∈ g.objects := fun hx => by
    rw [hobjects]
    exact List.perm_middle.mem_iff.mpr (List.mem_cons_of_mem _ hx)
  have ho : o ∈ g.objects := by
    rw [hobjects]
    exact List.mem_append_right _ List.mem_cons_self
  -- the object is out of the list
  let g₀ : Gc := { g with sweep := some rest }
  have hl₀ : ListedBut (some o) g₀ := by
    refine ⟨(List.nodup_cons.mp hnodup).2, fun x hx => h.listed.lt x (hmem hx), fun x hx => h.listed.isSome x (hmem hx),
      h.listed.none, fun x hx hm hne => ?_, fun s hs => ?_, fun x hx => ?_⟩
    · have hx := h.listed.mem x hx hm (by simp)
      rw [hobjects] at hx
      exact (List.mem_cons.mp (List.perm_middle.mem_iff.mp hx)).resolve_left fun h => hne (h ▸ rfl)
    · obtain ⟨hlt, hsome, hsm, hsmem, -⟩ := h.listed.spare s hs
      exact ⟨hlt, hsome, hsm, fun hx => hsmem (hmem hx), fun h => hsmem (Option.some.inj h ▸ ho)⟩
    · obtain rfl := Option.some.inj hx
      exact ⟨h.listed.lt _ ho, (List.nodup_cons.mp hnodup).1, h.listed.isSome _ ho⟩
  -- its destructor, which only adds objects
  have hc : Calm g₀ (drop.foldl Gc.mutate g₀) := Calm.foldl (g := g₀) (.inr h.state) drop
  obtain ⟨os, hall₁, hdebt₁, hcount₁⟩ := hc.new
  have hl₁ := hc.listed _ hl₀
  obtain ⟨hl₂, hall₂, hsweep₂, hsurv₂, hstate₂, hdebt₂, hstops₂, hcount₂, hdead₂⟩ := release_spec hl₁
  have hdead : rest.countP (Gc.free g₀ o drop).dead ≤ rest.countP g.dead := by
    refine List.countP_mono_left fun x hx hxd => ?_
    have hx₁ : x ∈ (drop.foldl Gc.mutate g₀).objects := by
      rw [Gc.objects, hc.sweep]
      exact List.mem_append_right _ hx
    rw [show (Gc.free g₀ o drop).dead x = _ from hdead₂ x hx₁] at hxd
    exact hc.dead x (h.listed.lt x (hmem (List.mem_append_right _ hx))) hxd
  have hhead : (o :: rest).countP g.dead = rest.countP g.dead + 1 := by rw [List.countP_cons, hd]; rfl
  have hpos : (Gc.free g₀ o drop).debt ≠ 0 := by
    have : (Gc.free g₀ o drop).debt = g.debt + os.length := hdebt₂.trans hdebt₁
    omega
  rw [Gc.charge, if_neg hpos]
  refine ⟨hl₂.congr rfl rfl rfl rfl, ?_, hstate₂.trans (hc.state.trans h.state),
    congrArg (·.getD []) (hsweep₂.trans hc.sweep), os ++ fresh, swept, ?_, ?_, ?_, ?_⟩
  · show Stop.underflow ∉ (Gc.free g₀ o drop).stops
    rw [show (Gc.free g₀ o drop).stops = _ from hstops₂]
    exact hc.stops h.stops
  · show (Gc.free g₀ o drop).all = _
    rw [show (Gc.free g₀ o drop).all = _ from hall₂, hall₁, show g₀.all = g.all from rfl, hall, List.append_assoc]
  · exact hsurv₂.trans (hc.survivors.trans hsurv)
  · show (Gc.free g₀ o drop).count ≤ _
    rw [show (Gc.free g₀ o drop).count = _ from hcount₂, hcount₁, List.length_append]
    have : g₀.count = g.count := rfl
    omega
  · show (os ++ fresh).length + rest.countP (Gc.free g₀ o drop).dead ≤ (Gc.free g₀ o drop).debt - 1
    rw [show (Gc.free g₀ o drop).debt = _ from hdebt₂, hdebt₁, List.length_append]
    have : g₀.debt = g.debt := rfl
    omega

/-- A live object at the head of what is still to sweep. -/
theorem Sweeping.survive {n o : Nat} {rest : List Nat} (h : Sweeping n g (o :: rest)) (hd : g.dead o = false) :
    let g₁ := g.paint o (.white g.currentwhite)
    Sweeping n { g₁ with survivors := g₁.survivors + 1, all := g₁.all ++ [o], sweep := some rest } rest := by
  intro g₁
  obtain ⟨fresh, swept, hall, hsurv, hcount, hdebt⟩ := h.split
  have hc : Calm g g₁ := .paint isDead_currentwhite
  have hl₁ : Listed g₁ := hc.listed none h.listed
  have hobjects : ({ g₁ with survivors := g₁.survivors + 1, all := g₁.all ++ [o], sweep := some rest } : Gc).objects =
      g₁.objects := by
    show (g.all ++ [o]) ++ rest = g.all ++ g.sweep.getD []
    rw [h.sweep, List.append_assoc]
    rfl
  have hframe : ∀ {x}, x ∈ rest → x < g.count := fun hx => h.listed.lt _ (by
    rw [Gc.objects, h.sweep]
    exact List.mem_append_right _ (List.mem_cons_of_mem _ hx))
  have hdead : rest.countP g₁.dead ≤ (o :: rest).countP g.dead := by
    rw [List.countP_cons, hd]
    exact List.countP_mono_left fun x hx hxd => hc.dead x (hframe hx) hxd
  refine ⟨⟨hobjects ▸ hl₁.nodup, ?_, ?_, hl₁.none, ?_, ?_, by simp⟩, h.stops, h.state, rfl, fresh,
    swept ++ [o], ?_, ?_, hcount, ?_⟩
  · intro x hx
    exact hl₁.lt x (hobjects ▸ hx)
  · intro x hx
    exact hl₁.isSome x (hobjects ▸ hx)
  · intro x hx hm hne
    rw [hobjects]
    exact hl₁.mem x hx hm hne
  · intro s hs
    rw [hobjects]
    exact hl₁.spare s hs
  · show g.all ++ [o] = _
    rw [hall, List.append_assoc]
  · show g.survivors + 1 = _
    rw [hsurv, List.length_append]
    rfl
  · show fresh.length + rest.countP g₁.dead ≤ g.debt
    omega

theorem sweepFor_spec (drops : Nat → List Mut) (n k : Nat) : ∀ {freed : Nat} {g : Gc} {rest : List Nat},
    Sweeping n g rest → Sweeping n (Gc.sweepFor drops k freed g rest).1 (Gc.sweepFor drops k freed g rest).2 := by
  induction k with
  | zero => exact fun h => h
  | succ k ih =>
    intro freed g rest h
    cases rest with
    | nil => exact h
    | cons o rest =>
      have hsome := h.listed.isSome o (by
        rw [Gc.objects, h.sweep]
        exact List.mem_append_right _ List.mem_cons_self)
      obtain ⟨x, hx⟩ := Option.isSome_iff_exists.mp hsome
      have hdead : g.dead o = g.isDead x.color := by
        rw [Gc.dead, hx]
        rfl
      rw [Gc.sweepFor, hx]
      dsimp only
      by_cases hd : g.isDead x.color = true
      · rw [if_pos hd]
        have hfree := h.free (hdead.trans hd) (drops o)
        split
        · exact hfree
        · exact ih hfree
      · rw [if_neg hd]
        exact ih (h.survive (hdead.trans (Bool.eq_false_iff.mpr hd)))

/-! ## Runs -/

/-- A collector, and how many objects had been allocated when the last sweep mark was placed. -/
structure World where
  gc : Gc
  atMark : Nat

def World.new : World := ⟨Collector.new, 0⟩

def World.exec (s : World) : Op → World
  | .run m => { s with gc := s.gc.mutate m }
  | .step drops =>
    let gc := s.gc.step drops
    ⟨gc, if s.gc.state = .atomic then gc.count else s.atMark⟩

/-- The account in every state. -/
def World.Balanced (s : World) : Prop :=
  match s.gc.state with
  | .idle => Listed s.gc ∧ Stop.underflow ∉ s.gc.stops ∧ s.gc.sweep = none ∧ ∃ fresh swept, s.gc.all = fresh ++ swept ∧
      s.gc.survivors = swept.length ∧ s.gc.count ≤ s.atMark + fresh.length ∧ s.gc.all.length ≤ s.gc.debt
  | .propagate | .atomic => Covered s.gc
  | .finish => False
  | .sweep => Sweeping s.atMark s.gc (s.gc.sweep.getD [])

theorem World.balanced_of_sweeping {n : Nat} (h : Sweeping n g (g.sweep.getD [])) : World.Balanced ⟨g, n⟩ := by
  unfold World.Balanced
  dsimp only
  rw [h.state]
  exact h

theorem World.Balanced.stops {s : World} (h : s.Balanced) : Stop.underflow ∉ s.gc.stops := by
  unfold World.Balanced at h
  split at h
  · exact h.2.1
  · exact h.funded.1
  · exact h.funded.1
  · exact h.elim
  · exact h.stops

theorem World.Balanced.mutate {s : World} (h : s.Balanced) (m : Mut) : (s.exec (.run m)).Balanced := by
  show World.Balanced ⟨s.gc.mutate m, s.atMark⟩
  unfold World.Balanced at h ⊢
  dsimp only
  split at h
  · rename_i hs
    have hc := Calm.mutate (.inl hs) m
    obtain ⟨hl, hst, hsweep, fresh, swept, hall, hsurv, hcount, hdebt⟩ := h
    obtain ⟨os, hall', hdebt', hcount'⟩ := hc.new
    rw [hc.state, hs]
    refine ⟨hc.listed none hl, hc.stops hst, hc.sweep.trans hsweep, os ++ fresh, swept, ?_, hc.survivors.trans hsurv,
      ?_, ?_⟩
    · rw [hall', hall, List.append_assoc]
    · rw [hcount', List.length_append]
      omega
    · rw [hall', hdebt', List.length_append]
      omega
  · rename_i hs
    obtain ⟨hcov, hstate⟩ := h.mutate (.inl hs) m
    rw [hstate, hs]
    exact hcov
  · rename_i hs
    obtain ⟨hcov, hstate⟩ := h.mutate (.inr hs) m
    rw [hstate, hs]
    exact hcov
  · exact h.elim
  · rename_i hs
    have hc := Calm.mutate (.inr hs) m
    rw [hc.state, hs, hc.sweep]
    exact h.calm hc

/-- The sweep mark is placed at the head of the list. -/
theorem placeMark_spec (hl : Listed g) (hsweep : g.sweep = none) :
    ∃ m, g.placeMark.all = m :: g.all ∧ g.placeMark.sweep = none ∧ g.placeMark.debt = g.debt + 1 ∧
      g.placeMark.stops = g.stops ∧ Listed g.placeMark ∧ ∀ x ∈ g.all, g.placeMark.dead x = g.dead x := by
  unfold Gc.placeMark
  cases hspare : g.sweepMark with
  | none =>
    refine ⟨g.count, rfl, hsweep, rfl, rfl, Calm.alloc.listed none hl, fun x hx => ?_⟩
    have hlt := hl.lt x (List.mem_append_left _ hx)
    unfold Gc.dead Gc.alloc
    dsimp only
    rw [Function.update_of_ne (by omega)]
    rfl
  | some m =>
    obtain ⟨hlt, hsome, hmark, hmem, -⟩ := hl.spare m hspare
    have hf : Frame g (g.paint m (.white g.currentwhite)) := frame_paint m _
    have hl' := hl.frame hf
    have hobjects : g.objects = g.all := by rw [Gc.objects, hsweep, Option.getD_none, List.append_nil]
    have hobjects' : ({ (g.paint m (.white g.currentwhite)) with
        sweepMark := none, all := m :: g.all, debt := g.debt + 1 } : Gc).objects = m :: g.objects := by
      show (m :: g.all) ++ g.sweep.getD [] = m :: (g.all ++ g.sweep.getD [])
      rfl
    refine ⟨m, rfl, hsweep, rfl, rfl, ⟨?_, ?_, ?_, hl'.none, ?_, (by simp), (by simp)⟩,
      fun x hx => ?_⟩
    · rw [hobjects']
      exact List.nodup_cons.mpr ⟨hmem, hl.nodup⟩
    · intro x hx
      rw [hobjects'] at hx
      rcases List.mem_cons.mp hx with rfl | hx
      · exact hlt
      · exact hl.lt x hx
    · intro x hx
      rw [hobjects'] at hx
      rcases List.mem_cons.mp hx with rfl | hx
      · exact (hf.isSome x).trans hsome
      · exact (hf.isSome x).trans (hl.isSome x hx)
    · intro x hx hm hne
      rw [hobjects']
      exact List.mem_cons_of_mem _ (hl'.mem x hx hm hne)
    · have hne : x ≠ m := fun h => hmem (h ▸ hobjects.symm ▸ hx)
      unfold Gc.dead
      show ((g.paint m (.white g.currentwhite)).object x).any _ = _
      rw [Gc.object_paint_of_ne _ _ hne]
      rfl

theorem startCycle_spec (hl : Listed g) (hst : Stop.underflow ∉ g.stops) (hsweep : g.sweep = none)
    (hlen : g.objects.length ≤ g.debt) : Covered g.startCycle ∧ g.startCycle.state = .propagate := by
  have h₀ : Covered { g with list := fun _ => [] } := by
    refine ⟨hl.frame (frame_same rfl rfl rfl rfl rfl rfl rfl rfl), hsweep, hst, ?_⟩
    have hle : g.whites ≤ g.objects.length := List.countP_le_length
    show g.whites + 1 * 0 + 0 ≤ g.debt
    omega
  have h₁ := h₀.of_marks (.visitOpt h₀.listed g.root)
  refine ⟨?_, rfl⟩
  have finish : ∀ {g₂ : Gc}, Covered g₂ → Covered { g₂ with state := .propagate } := fun h =>
    ⟨h.listed.congr rfl rfl rfl rfl, h.sweep, h.funded⟩
  apply finish
  dsimp only
  split
  · exact h₁
  · refine Covered.of_marks (g := { Gc.visitOpt { g with list := fun _ => [] } g.root with refs := [], markedRefs := _ })
      (h₁.of_marks ⟨frame_same rfl rfl rfl rfl rfl rfl rfl rfl, fun _ _ _ hf => hf⟩) (.foldVisit ?_ _)
    exact h₁.listed.frame (frame_same rfl rfl rfl rfl rfl rfl rfl rfl)

theorem insertMark_spec (hl : Listed g) (hsweep₀ : g.sweep = none) (hf : Funded 0 0 g) :
    Sweeping g.insertMark.count g.insertMark (g.insertMark.sweep.getD []) := by
  let g' : Gc := { g with currentwhite := !g.currentwhite }
  have hl' : Listed g' := hl.congr rfl rfl rfl rfl
  obtain ⟨m, hall, hsweep, hdebt, hstops, hl₁, hdead⟩ := placeMark_spec hl' hsweep₀
  have hobjects₀ : g.objects = g.all := by rw [Gc.objects, hsweep₀, Option.getD_none, List.append_nil]
  have hobjects : g.insertMark.objects = g'.placeMark.objects := by
    show g'.placeMark.all.take 1 ++ g.all = g'.placeMark.all ++ g'.placeMark.sweep.getD []
    rw [hall, hsweep, Option.getD_none, List.append_nil]
    rfl
  refine ⟨⟨hobjects ▸ hl₁.nodup, ?_, ?_, hl₁.none, ?_, ?_, (by simp)⟩, hstops ▸ hf.1, rfl, rfl, [m], [], ?_, rfl, ?_, ?_⟩
  · intro x hx
    exact hl₁.lt x (hobjects ▸ hx)
  · intro x hx
    exact hl₁.isSome x (hobjects ▸ hx)
  · intro x hx hm hne
    rw [hobjects]
    exact hl₁.mem x hx hm hne
  · intro s hs
    rw [hobjects]
    exact hl₁.spare s hs
  · show g'.placeMark.all.take 1 = _
    rw [hall]
    rfl
  · exact Nat.le_add_right ..
  · -- what is dead was white at the end of the marking
    have hle : g.all.countP g.insertMark.dead ≤ g.whites := by
      rw [Gc.whites, hobjects₀]
      refine List.countP_mono_left fun x hx hxd => ?_
      have hxd : g'.dead x = true := (hdead x hx).symm.trans hxd
      have hxd : (g.object x).any (fun h => g'.isDead h.color) = true := hxd
      show (g.object x).any _ = true
      cases hobj : g.object x with
      | none => rw [hobj] at hxd; cases hxd
      | some o =>
        rw [hobj] at hxd
        have hc : o.color = .white !g'.currentwhite := of_decide_eq_true hxd
        show o.color.isWhite = true
        rw [hc]
        rfl
    have hf := hf.2
    show 1 + g.all.countP g.insertMark.dead ≤ g'.placeMark.debt
    rw [hdebt]
    show 1 + g.all.countP g.insertMark.dead ≤ g.debt + 1
    omega

theorem World.Balanced.step {s : World} (h : s.Balanced) (drops : Nat → List Mut) :
    (s.exec (.step drops)).Balanced := by
  obtain ⟨g, n⟩ := s
  show World.Balanced ⟨g.step drops, if g.state = .atomic then (g.step drops).count else n⟩
  unfold World.Balanced at h ⊢
  dsimp only at h ⊢
  split at h
  · rename_i hs
    obtain ⟨hl, hst, hsweep, fresh, swept, hall, hsurv, hcount, hdebt⟩ := h
    have hobjects : g.objects = g.all := by rw [Gc.objects, hsweep, Option.getD_none, List.append_nil]
    have hlen := congrArg List.length hall
    rw [List.length_append] at hlen
    rw [if_neg (by rw [hs]; simp), Gc.step, hs]
    dsimp only
    rw [if_neg (by omega)]
    by_cases hfew : g.debt - g.survivors < g.survivors * 20 / 100
    · rw [if_pos hfew, hs]
      exact ⟨hl, hst, hsweep, fresh, swept, hall, hsurv, hcount, hdebt⟩
    · rw [if_neg hfew]
      obtain ⟨hcov, hstate⟩ := startCycle_spec hl hst hsweep (by rw [hobjects]; exact hdebt)
      rw [hstate]
      exact hcov
  · rename_i hs
    rw [if_neg (by rw [hs]; simp), Gc.step, hs]
    dsimp only
    cases hgray : g.list .gray with
    | nil => exact ⟨h.listed.congr rfl rfl rfl rfl, h.sweep, h.funded⟩
    | cons o gray =>
      obtain ⟨hframe, hfund⟩ := markOneGray_spec h.listed hgray
      have hframe' : Frame g (g.markOneGray o gray).charge := hframe.trans frame_charge
      rw [hframe'.state, hs]
      exact ⟨h.listed.frame hframe', hframe'.sweep.trans h.sweep, (hfund 1 (Nat.le_refl 1) 0 h.funded).charge⟩
  · rename_i hs
    rw [if_pos hs, Gc.step, hs]
    dsimp only
    have hl : Listed { g with state := .finish } := h.listed.congr rfl rfl rfl rfl
    have hfin := Drains.finishMarking hl
    have hfund : Funded 0 0 { g with state := .finish } := by
      refine ⟨h.funded.1, ?_⟩
      have := h.funded.2
      show g.whites + 0 * (g.list .gray).length + 0 ≤ g.debt
      omega
    have hsweep := insertMark_spec (hfin.listed hl) (hfin.1.sweep.trans h.sweep) (hfin.2 0 hfund)
    rw [hsweep.state]
    exact hsweep
  · exact h.elim
  · rename_i hs
    rw [if_neg (by rw [hs]; simp), Gc.step, hs]
    dsimp only
    cases hsweep : g.sweep with
    | none =>
      rw [hsweep] at h
      obtain ⟨fresh, swept, hall, hsurv, hcount, hdebt⟩ := h.split
      refine ⟨h.listed.congr (by rw [Gc.objects, Gc.objects, hsweep]) rfl rfl rfl, h.stops, rfl, fresh, swept, hall,
        hsurv, hcount, ?_⟩
      show g.all.length ≤ g.debt + g.survivors
      have hdebt : fresh.length + 0 ≤ g.debt := hdebt
      rw [hall, hsurv, List.length_append]
      omega
    | some rest =>
      rw [hsweep] at h
      obtain ⟨r, hr⟩ : ∃ r, r = Gc.sweepFor drops 100 2 g rest := ⟨_, rfl⟩
      have hspec := @sweepFor_spec drops n 100 2 g rest h
      rw [← hr] at hspec
      dsimp only
      rw [← hr]
      have hrest : (if r.2 = [] then none else some r.2).getD [] = r.2 := by
        by_cases hr : r.2 = []
        · rw [if_pos hr, hr]
          rfl
        · rw [if_neg hr]
          rfl
      have hfinal : Sweeping n { r.1 with sweep := if r.2 = [] then none else some r.2 }
          ((if r.2 = [] then none else some r.2).getD []) := by
        rw [hrest]
        exact hspec.setSweep hrest
      exact World.balanced_of_sweeping hfinal

/-- In every run no subtraction from the debt underflows, and between the cycles the debt covers the survivors and all
that was allocated since the last sweep mark was placed. -/
theorem debt_covers (ops : List Op) :
    let s := ops.foldl World.exec World.new
    Stop.underflow ∉ s.gc.stops ∧ (s.gc.state = .idle → s.gc.count - s.atMark ≤ s.gc.debt - s.gc.survivors ∧
      s.gc.survivors ≤ s.gc.debt) := by
  intro s
  have hnew : World.Balanced World.new :=
    ⟨⟨List.nodup_nil, nofun, nofun, fun _ _ => rfl, nofun, nofun, nofun⟩, nofun, rfl, [], [], rfl, rfl, Nat.le_refl 0,
      Nat.le_refl 0⟩
  have hrun : ∀ {s : World}, s.Balanced → (ops.foldl World.exec s).Balanced := by
    induction ops with
    | nil => exact id
    | cons op ops ih =>
      intro s hs
      refine ih ?_
      cases op with
      | run m => exact hs.mutate m
      | step drops => exact hs.step drops
  have hs : s.Balanced := hrun hnew
  refine ⟨hs.stops, fun hidle => ?_⟩
  unfold World.Balanced at hs
  rw [hidle] at hs
  obtain ⟨-, -, -, fresh, swept, hall, hsurv, hcount, hdebt⟩ := hs
  have hlen := congrArg List.length hall
  rw [List.length_append] at hlen
  omega

end Tsuki.Collector
