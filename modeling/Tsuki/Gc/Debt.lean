import Tsuki.Gc.Cycle
import Mathlib.Data.List.Nodup

/-!
# The account of objects

`debt` covers every object that can still be charged in the cycle, so no subtraction underflows.
-/

namespace Tsuki.Collector

variable {g g' g'' : Gc}

/-- The list of all objects. -/
def Gc.objects (g : Gc) : List Nat := g.all ++ g.sweep.getD []

def Gc.white (g : Gc) (o : Nat) : Bool := (g.object o).any fun h => h.color.isWhite

def Gc.isMark (g : Gc) (o : Nat) : Bool := (g.object o).any fun h => h.body = .sweepMark

/-- Every object is in the list once, but for a sweep mark that is kept for the next cycle and for the object that is
being freed, if there is one. -/
structure ListedBut (x : Option Nat) (g : Gc) : Prop where
  nodup : g.objects.Nodup
  lt : ∀ o ∈ g.objects, o < g.count
  isSome : ∀ o ∈ g.objects, (g.object o).isSome
  none : ∀ o, g.count ≤ o → g.object o = none
  mem : ∀ o, (g.object o).isSome → g.isMark o = false → some o ≠ x → o ∈ g.objects
  spare : ∀ m ∈ g.sweepMark, m < g.count ∧ (g.object m).isSome ∧ g.isMark m = true ∧ m ∉ g.objects ∧ some m ≠ x
  freed : ∀ o ∈ x, o < g.count ∧ o ∉ g.objects ∧ (g.object o).isSome

abbrev Listed (g : Gc) : Prop := ListedBut none g

/-- What marking leaves as it is. -/
structure Frame (g g' : Gc) : Prop where
  all : g'.all = g.all
  sweep : g'.sweep = g.sweep
  sweepMark : g'.sweepMark = g.sweepMark
  survivors : g'.survivors = g.survivors
  count : g'.count = g.count
  state : g'.state = g.state
  currentwhite : g'.currentwhite = g.currentwhite
  isSome : ∀ o, (g'.object o).isSome = (g.object o).isSome
  isMark : ∀ o, g'.isMark o = g.isMark o

theorem Frame.refl (g : Gc) : Frame g g := ⟨rfl, rfl, rfl, rfl, rfl, rfl, rfl, fun _ => rfl, fun _ => rfl⟩

theorem Frame.trans (h : Frame g g') (h' : Frame g' g'') : Frame g g'' where
  all := h'.all.trans h.all
  sweep := h'.sweep.trans h.sweep
  sweepMark := h'.sweepMark.trans h.sweepMark
  survivors := h'.survivors.trans h.survivors
  count := h'.count.trans h.count
  state := h'.state.trans h.state
  currentwhite := h'.currentwhite.trans h.currentwhite
  isSome o := (h'.isSome o).trans (h.isSome o)
  isMark o := (h'.isMark o).trans (h.isMark o)

theorem Frame.objects (h : Frame g g') : g'.objects = g.objects := by rw [Gc.objects, Gc.objects, h.all, h.sweep]

theorem ListedBut.frame {x : Option Nat} (hl : ListedBut x g) (h : Frame g g') : ListedBut x g' where
  nodup := h.objects ▸ hl.nodup
  lt o ho := by
    rw [h.count]
    exact hl.lt o (h.objects ▸ ho)
  isSome o ho := by
    rw [h.isSome]
    exact hl.isSome o (h.objects ▸ ho)
  none o ho := by
    rw [h.count] at ho
    have := h.isSome o
    rw [hl.none o ho] at this
    exact Option.not_isSome_iff_eq_none.mp (by rw [this]; exact Bool.false_ne_true)
  mem o ho hm := by
    rw [h.objects]
    exact hl.mem o (by rwa [h.isSome] at ho) (by rwa [h.isMark] at hm)
  spare m hm := by
    rw [h.count, h.isSome, h.isMark, h.objects]
    exact hl.spare m (h.sweepMark ▸ hm)
  freed o ho := by
    rw [h.count, h.objects, h.isSome]
    exact hl.freed o ho

/-! ## Funds -/

/-- How many objects are white. -/
def Gc.whites (g : Gc) : Nat := g.objects.countP g.white

/-- The debt covers the white objects, `w` for each gray one and `k` more. -/
def Funded (w k : Nat) (g : Gc) : Prop := Stop.underflow ∉ g.stops ∧ g.whites + w * (g.list .gray).length + k ≤ g.debt

theorem countP_drop {p q : Nat → Bool} {o : Nat} (hp : p o = true) (hq : q o = false) (hpq : ∀ x, x ≠ o → q x = p x) :
    ∀ {l : List Nat}, l.Nodup → o ∈ l → l.countP q + 1 = l.countP p := by
  intro l
  induction l with
  | nil => exact fun _ h => nomatch h
  | cons x l ih =>
    intro hnd ho
    obtain ⟨hx, hnd⟩ := List.nodup_cons.mp hnd
    rw [List.countP_cons, List.countP_cons]
    by_cases hxo : x = o
    · subst hxo
      have hrest : l.countP q = l.countP p := List.countP_congr fun y hy => by
        rw [hpq y fun h => hx (h ▸ hy)]
      rw [hrest, hp, hq]
      rfl
    · have := ih hnd ((List.mem_cons.mp ho).resolve_left fun h => hxo h.symm)
      rw [hpq x hxo]
      omega

theorem Funded.fail {w k : Nat} {s : Stop} (h : Funded w k g) (hs : s ≠ .underflow) : Funded w k (g.fail s) := by
  refine ⟨fun hu => ?_, h.2⟩
  rcases List.mem_cons.mp hu with heq | hu
  · exact hs heq.symm
  · exact h.1 hu

theorem Funded.charge {w k : Nat} (h : Funded w (k + 1) g) : Funded w k g.charge := by
  obtain ⟨hs, hf⟩ := h
  rw [Gc.charge, if_neg (by omega)]
  refine ⟨hs, ?_⟩
  show g.whites + w * (g.list .gray).length + k ≤ g.debt - 1
  omega

theorem white_paint {o : Nat} {c : Color} (hc : c.isWhite = false) (x : Nat) :
    (g.paint o c).white x = if x = o then false else g.white x := by
  unfold Gc.white
  by_cases hx : x = o
  · subst hx
    rw [Gc.object_paint_self, if_pos rfl]
    cases g.object x <;> simp [hc]
  · rw [Gc.object_paint_of_ne _ _ hx, if_neg hx]

theorem whites_paint_le {o : Nat} {c : Color} (hc : c.isWhite = false) : (g.paint o c).whites ≤ g.whites := by
  refine List.countP_mono_left fun x _ hx => ?_
  rw [white_paint hc] at hx
  by_cases hxo : x = o
  · rw [if_pos hxo] at hx
    cases hx
  · rwa [if_neg hxo] at hx

/-- A white object of the list that gets another color is no longer to be covered. -/
theorem Funded.paint {w k o : Nat} {c : Color} (hl : Listed g) (h : Funded w k g) (ho : g.white o = true)
    (hm : g.isMark o = false) (hc : c.isWhite = false) : Funded w (k + 1) (g.paint o c) := by
  obtain ⟨hs, hf⟩ := h
  have hsome : (g.object o).isSome := by
    unfold Gc.white at ho
    cases hobj : g.object o with
    | none => simp [hobj] at ho
    | some _ => rfl
  have hcount : (g.paint o c).whites + 1 = g.whites := by
    refine countP_drop ho ?_ (fun x hx => ?_) hl.nodup (hl.mem o hsome hm nofun)
    · rw [white_paint hc, if_pos rfl]
    · rw [white_paint hc, if_neg hx]
  refine ⟨hs, ?_⟩
  show (g.paint o c).whites + w * (g.list .gray).length + (k + 1) ≤ g.debt
  omega

theorem Funded.paint_le {w k o : Nat} {c : Color} (h : Funded w k g) (hc : c.isWhite = false) :
    Funded w k (g.paint o c) := by
  have := @whites_paint_le g o c hc
  refine ⟨h.1, ?_⟩
  have hf := h.2
  show (g.paint o c).whites + w * (g.list .gray).length + k ≤ g.debt
  omega

/-! ## Marking -/

/-- A step of marking: what is covered stays covered. -/
def Marks (g g' : Gc) : Prop := Frame g g' ∧ ∀ w ≤ 1, ∀ k, Funded w k g → Funded w k g'

theorem Marks.refl (g : Gc) : Marks g g := ⟨.refl g, fun _ _ _ h => h⟩

theorem Marks.trans (h : Marks g g') (h' : Marks g' g'') : Marks g g'' :=
  ⟨h.1.trans h'.1, fun w hw k hf => h'.2 w hw k (h.2 w hw k hf)⟩

theorem Marks.listed (h : Marks g g') (hl : Listed g) : Listed g' := hl.frame h.1

theorem Marks.fail {s : Stop} (hs : s ≠ .underflow) : Marks g (g.fail s) :=
  ⟨⟨rfl, rfl, rfl, rfl, rfl, rfl, rfl, fun _ => rfl, fun _ => rfl⟩, fun _ _ _ h => h.fail hs⟩

/-- What holds of every step of a loop over a list holds of the loop. -/
theorem foldl_keeps {R : Gc → Gc → Prop} (hrefl : ∀ g, R g g) (htrans : ∀ {g g' g''}, R g g' → R g' g'' → R g g'')
    (hlisted : ∀ {g g'}, R g g' → Listed g → Listed g') {σ α : Type} {p : σ → Gc} {f : σ → α → σ}
    (hf : ∀ s a, Listed (p s) → R (p s) (p (f s a))) (l : List α) :
    ∀ {s : σ}, Listed (p s) → R (p s) (p (l.foldl f s)) := by
  induction l with
  | nil => exact fun _ => hrefl _
  | cons a l ih =>
    intro s hl
    exact htrans (hf s a hl) (ih (hlisted (hf s a hl) hl))

theorem Marks.foldl {σ α : Type} {p : σ → Gc} {f : σ → α → σ}
    (hf : ∀ s a, Listed (p s) → Marks (p s) (p (f s a))) (l : List α) {s : σ} (hl : Listed (p s)) :
    Marks (p s) (p (l.foldl f s)) :=
  foldl_keeps .refl .trans Marks.listed hf l hl

theorem frame_paint (o : Nat) (c : Color) : Frame g (g.paint o c) := by
  refine ⟨rfl, rfl, rfl, rfl, rfl, rfl, rfl, fun x => ?_, fun x => ?_⟩
  · by_cases hx : x = o
    · subst hx
      rw [Gc.object_paint_self, Option.isSome_map]
    · rw [Gc.object_paint_of_ne _ _ hx]
  · unfold Gc.isMark
    by_cases hx : x = o
    · subst hx
      rw [Gc.object_paint_self, Option.any_map]
    · rw [Gc.object_paint_of_ne _ _ hx]

theorem frame_charge : Frame g g.charge := by
  rw [Gc.charge]
  split
  · exact ⟨rfl, rfl, rfl, rfl, rfl, rfl, rfl, fun _ => rfl, fun _ => rfl⟩
  · exact ⟨rfl, rfl, rfl, rfl, rfl, rfl, rfl, fun _ => rfl, fun _ => rfl⟩

theorem frame_setList (l : GcList) (os : List Nat) : Frame g (g.setList l os) :=
  ⟨rfl, rfl, rfl, rfl, rfl, rfl, rfl, fun _ => rfl, fun _ => rfl⟩

theorem Marks.paint {o : Nat} {c : Color} (hc : c.isWhite = false) : Marks g (g.paint o c) :=
  ⟨frame_paint o c, fun _ _ _ h => h.paint_le hc⟩

/-- A white object is linked, or a list other than that of the gray ones grows. -/
theorem Marks.link {o : Nat} {l : GcList} (hl : Listed g) (h : l = .gray → g.white o = true ∧ g.isMark o = false) :
    Marks g (g.link o l) := by
  refine ⟨(frame_setList l _).trans (frame_paint o .gray), fun w hw k hf => ?_⟩
  by_cases hgray : l = .gray
  · obtain ⟨ho, hm⟩ := h hgray
    obtain ⟨hs, hf⟩ := hf.paint (o := o) (c := .gray) hl ho hm rfl
    subst hgray
    refine ⟨hs, ?_⟩
    show (g.paint o .gray).whites + w * (Function.update g.list .gray (o :: g.list .gray) .gray).length + k ≤ g.debt
    rw [Function.update_self, List.length_cons]
    have hf : (g.paint o .gray).whites + w * (g.list .gray).length + (k + 1) ≤ g.debt := hf
    have hexp : w * ((g.list .gray).length + 1) = w * (g.list .gray).length + w := Nat.mul_succ ..
    omega
  · obtain ⟨hs, hf⟩ := hf.paint_le (o := o) (c := .gray) rfl
    refine ⟨hs, ?_⟩
    show (g.paint o .gray).whites + w * (Function.update g.list l (o :: g.list l) .gray).length + k ≤ g.debt
    rw [Function.update_of_ne fun h => hgray h.symm]
    exact hf

/-- A white object that is not in a list is charged. -/
theorem Marks.charge {o : Nat} {c : Color} (hl : Listed g) (ho : g.white o = true) (hm : g.isMark o = false)
    (hc : c.isWhite = false) : Marks g (g.paint o c).charge :=
  ⟨(frame_paint o c).trans frame_charge, fun _ _ _ hf => (hf.paint hl ho hm hc).charge⟩

/-- What is done where an object is white keeps what is covered. -/
theorem Marks.visitWith {mark : Gc → Nat → Gc} {o : Nat}
    (hmark : g.white o = true → Marks g (mark g o)) : Marks g (g.visitWith mark o) := by
  unfold Gc.visitWith
  cases hobj : g.object o with
  | none => exact .fail nofun
  | some h =>
    dsimp only
    split
    · rename_i hw
      exact hmark (by rw [Gc.white, hobj]; exact hw)
    · exact .refl g

theorem isMark_of_body {o : Nat} {b : Body} (h : (g.object o).map Object.body = some b) (hb : b ≠ .sweepMark) :
    g.isMark o = false := by
  obtain ⟨x, hx, rfl⟩ := Option.map_eq_some_iff.mp h
  rw [Gc.isMark, hx]
  exact decide_eq_false hb

theorem Marks.markTable {o : Nat} (hl : Listed g) (ho : g.white o = true) : Marks g (g.markTable o) := by
  unfold Gc.markTable
  split
  · rename_i hb
    exact .link hl fun _ => ⟨ho, isMark_of_body hb nofun⟩
  · exact .fail nofun

theorem object_visitTable {p : Option Nat} {o : Nat} {h : Object} (ho : g.object o = some h)
    (hb : ∀ t, h.body ≠ .table t) : (g.optWith Gc.markTable p).object o = some h := by
  cases p with
  | none => exact ho
  | some q =>
    show (g.visitWith Gc.markTable q).object o = some h
    unfold Gc.visitWith
    split
    · exact ho
    · split
      · unfold Gc.markTable
        split
        · rename_i t hq
          have hne : o ≠ q := by
            rintro rfl
            rw [ho] at hq
            exact hb t (Option.some.inj hq)
          rw [Gc.link, Gc.object_paint_of_ne _ _ hne]
          exact ho
        · exact ho
      · exact ho

theorem Marks.optTable {p : Option Nat} (hl : Listed g) : Marks g (g.optWith Gc.markTable p) := by
  cases p with
  | none => exact .refl g
  | some o => exact .visitWith fun ho => .markTable hl ho

theorem Marks.markValue {o : Nat} (hl : Listed g) (ho : g.white o = true) : Marks g (g.markValue o) := by
  unfold Gc.markValue
  cases hobj : g.object o with
  | none => exact .fail nofun
  | some h =>
    obtain ⟨b, c⟩ := h
    have hbody : (g.object o).map Object.body = some b := by rw [hobj]; rfl
    have hleaf : b ≠ .sweepMark → g.isMark o = false := isMark_of_body hbody
    cases b with
    | str => exact .charge hl ho (hleaf nofun) rfl
    | rustId => exact .charge hl ho (hleaf nofun) rfl
    | userData props mt =>
      -- the tables are other objects, so it is still white when it is charged
      have h₁ : Marks g (g.optWith Gc.markTable props) := .optTable hl
      have h₂ := h₁.trans (@Marks.optTable _ mt (h₁.listed hl))
      have hobj₂ := object_visitTable (p := mt) (object_visitTable (p := props) hobj nofun) nofun
      refine h₂.trans (.charge (h₂.listed hl) ?_ ?_ rfl)
      · rw [Gc.white, hobj₂]
        rw [Gc.white, hobj] at ho
        exact ho
      · rw [h₂.1.isMark]
        exact hleaf nofun
    | upVal isOpen v => exact .fail nofun
    | sweepMark => exact .fail nofun
    | table t => exact .link hl fun _ => ⟨ho, hleaf nofun⟩
    | luaFn p upvals => exact .link hl fun _ => ⟨ho, hleaf nofun⟩
    | rustFn upvalue => exact .link hl fun _ => ⟨ho, hleaf nofun⟩
    | proto k upvalues p locvars => exact .link hl fun _ => ⟨ho, hleaf nofun⟩
    | thread stack openupval => exact .link hl fun _ => ⟨ho, hleaf nofun⟩
    | collection items => exact .link hl fun _ => ⟨ho, hleaf nofun⟩

theorem Marks.mark {o : Nat} (hl : Listed g) (ho : g.white o = true) : Marks g (g.mark o) := by
  unfold Gc.mark
  split
  · rename_i isOpen v hb
    have hc : (if isOpen then Color.gray else .black).isWhite = false := by cases isOpen <;> rfl
    have h₁ : Marks g (g.paint o (if isOpen then .gray else .black)).charge :=
      .charge hl ho (isMark_of_body hb nofun) hc
    dsimp only
    split
    · exact h₁.trans (.visitWith fun hv => .markValue (h₁.listed hl) hv)
    · exact h₁
  · exact .markValue hl ho

theorem Marks.visit (hl : Listed g) (o : Nat) : Marks g (g.visit o) := .visitWith fun ho => .mark hl ho

theorem Marks.visitOpt (hl : Listed g) (p : Option Nat) : Marks g (g.visitOpt p) := by
  cases p with
  | none => exact .refl g
  | some o => exact .visit hl o

theorem Marks.visitVal (hl : Listed g) (v : Val) : Marks g (g.visitVal v) := by
  cases v with
  | obj o => exact .visit hl o
  | _ => exact .refl g

theorem Marks.isCleared (hl : Listed g) (v : Val) : Marks g (g.isCleared v).1 := by
  cases v with
  | obj o =>
    unfold Gc.isCleared
    dsimp only
    split
    · exact .fail nofun
    · split
      · exact .visit hl o
      · exact .refl g
  | _ => exact .refl g

theorem Marks.setBody {o : Nat} {b : Body} (hm : g.isMark o = false) (hb : b ≠ .sweepMark) :
    Marks g (g.setBody o b) := by
  have hwhite : (g.setBody o b).white = g.white := by
    funext x
    unfold Gc.white
    by_cases hx : x = o
    · subst hx
      rw [Gc.object_setBody_self, Option.any_map]
    · rw [Gc.object_setBody_of_ne _ _ hx]
  refine ⟨⟨rfl, rfl, rfl, rfl, rfl, rfl, rfl, fun x => ?_, fun x => ?_⟩, fun w hw k hf => ⟨hf.1, ?_⟩⟩
  · by_cases hx : x = o
    · subst hx
      rw [Gc.object_setBody_self, Option.isSome_map]
    · rw [Gc.object_setBody_of_ne _ _ hx]
  · by_cases hx : x = o
    · subst hx
      rw [hm, Gc.isMark, Gc.object_setBody_self, Option.any_map]
      cases g.object x with
      | none => rfl
      | some h => exact decide_eq_false hb
    · rw [Gc.isMark, Gc.object_setBody_of_ne _ _ hx, Gc.isMark]
  · show (g.setBody o b).objects.countP (g.setBody o b).white + w * (g.list .gray).length + k ≤ g.debt
    rw [hwhite]
    exact hf.2

theorem Marks.setNode {o : Nat} {t : Table} (node : List Node) (hm : g.isMark o = false) :
    Marks g (g.setNode o t node) := .setBody hm nofun

theorem Marks.foldVal (hl : Listed g) (vs : List Val) : Marks g (vs.foldl Gc.visitVal g) :=
  Marks.foldl (p := id) (fun _ v hl => .visitVal hl v) vs hl

theorem Marks.foldOpt (hl : Listed g) (ps : List (Option Nat)) : Marks g (ps.foldl Gc.visitOpt g) :=
  Marks.foldl (p := id) (fun _ p hl => .visitOpt hl p) ps hl

theorem Marks.foldVisit (hl : Listed g) (os : List Nat) : Marks g (os.foldl Gc.visit g) :=
  Marks.foldl (p := id) (fun _ o hl => .visit hl o) os hl

/-! ## Tables -/

theorem Marks.strongNode (hl : Listed g) (n : Node) : Marks g (strongNode g n) := by
  unfold Collector.strongNode
  split
  · exact .refl g
  · have h := Marks.visitVal hl n.key
    exact h.trans (.visitVal (h.listed hl) n.val)

theorem Marks.markStrongTable {o : Nat} {t : Table} (hl : Listed g) (hm : g.isMark o = false) :
    Marks g (g.markStrongTable o t) := by
  have h₁ := Marks.foldVal hl t.array
  have h₂ := h₁.trans (Marks.foldl (p := id) (fun _ n hl => .strongNode hl n) t.node (h₁.listed hl))
  exact h₂.trans (.setNode _ ((h₂.1.isMark o).trans hm))

theorem Marks.weakNode {s : Gc × Bool} (hl : Listed s.1) (n : Node) : Marks s.1 (weakNode s n).1 := by
  unfold Collector.weakNode
  split
  · exact .refl _
  · have h := Marks.visitVal hl n.key
    dsimp only
    split
    · exact h
    · exact h.trans (.isCleared (h.listed hl) n.val)

theorem Marks.markWeakValue {o : Nat} {t : Table} (hl : Listed g) (hm : g.isMark o = false) :
    Marks g (g.markWeakValue o t) := by
  have h₁ := Marks.foldl (p := Prod.fst) (fun s n hl => Marks.weakNode hl n) t.node
    (show Listed (g, !t.array.isEmpty).1 from hl)
  have h₂ := h₁.trans (.setNode (o := o) (t := t) (t.node.map Node.clearEmpty)
    ((h₁.1.isMark o).trans hm))
  unfold Gc.markWeakValue
  dsimp only
  split
  · exact h₂.trans (.link (h₂.listed hl) nofun)
  · exact h₂.trans (.link (h₂.listed hl) nofun)

theorem Marks.ephemeronNode {s : Gc × Flags} (hl : Listed s.1) (n : Node) : Marks s.1 (ephemeronNode s n).1 := by
  unfold Collector.ephemeronNode
  split
  · exact .refl _
  · have h := Marks.isCleared hl n.key
    dsimp only
    split
    · exact h
    · exact h.trans (.visitVal (h.listed hl) n.val)

theorem Marks.linkEphemeron (hl : Listed g) (o : Nat) (fl : Flags) : Marks g (g.linkEphemeron o fl) := by
  unfold Gc.linkEphemeron
  split
  · exact .link hl nofun
  · split
    · exact .link hl nofun
    · split
      · exact .link hl nofun
      · exact .refl g

theorem Marks.markEphemeron {o : Nat} {t : Table} (inv : Bool) (hl : Listed g) (hm : g.isMark o = false) :
    Marks g (g.markEphemeron o t inv).1 := by
  have h₁ := Marks.foldl (p := Prod.fst) (f := ephemeronSlot) (fun s v hl => .visitVal hl v) t.array
    (show Listed (g, false).1 from hl)
  have h₂ := h₁.trans (Marks.foldl (p := Prod.fst) (fun s n hl => Marks.ephemeronNode hl n)
    (if inv then t.node.reverse else t.node)
    (show Listed (Prod.fst ((t.array.foldl ephemeronSlot (g, false)).1,
      Flags.mk (t.array.foldl ephemeronSlot (g, false)).2 false false)) from h₁.listed hl))
  have h₃ := h₂.trans (.setNode (o := o) (t := t) (t.node.map Node.clearEmpty) ((h₂.1.isMark o).trans hm))
  exact h₃.trans (.linkEphemeron (h₃.listed hl) o _)

theorem Marks.markTableBody {o : Nat} {t : Table} (hl : Listed g) (hm : g.isMark o = false) :
    Marks g (g.markTableBody o t) := by
  have h := Marks.visitOpt hl t.metatable
  have hm' : (g.visitOpt t.metatable).isMark o = false := (h.1.isMark o).trans hm
  unfold Gc.markTableBody
  dsimp only
  split
  · exact h.trans (.link (h.listed hl) nofun)
  · exact h.trans (.markEphemeron false (h.listed hl) hm')
  · exact h.trans (.markWeakValue (h.listed hl) hm')
  · exact h.trans (.markStrongTable (h.listed hl) hm')

/-! ## The gray list -/

theorem Marks.markThread {o : Nat} {stack : Option (List Val)} {openupval : List Nat} (hl : Listed g) :
    Marks g (g.markThread o stack openupval) := by
  unfold Gc.markThread
  split
  · exact .link hl nofun
  · split
    · exact .refl g
    · rename_i slots
      have h₁ := Marks.foldVal hl slots
      have h₂ := h₁.trans (.foldVisit (h₁.listed hl) openupval)
      dsimp only
      split
      · exact h₂.trans ⟨⟨rfl, rfl, rfl, rfl, rfl, rfl, rfl, fun _ => rfl, fun _ => rfl⟩, fun _ _ _ hf => hf⟩
      · exact h₂

theorem Marks.markBody {o : Nat} {b : Body} (hl : Listed g) (hm : g.isMark o = false) : Marks g (g.markBody o b) := by
  cases b with
  | table t => exact .markTableBody hl hm
  | luaFn p upvals =>
    have h := Marks.visitOpt hl p
    exact h.trans (.foldOpt (h.listed hl) upvals)
  | rustFn upvalue => exact .foldVal hl upvalue
  | proto k upvalues p locvars =>
    have h₁ := Marks.foldVal hl k
    have h₂ := h₁.trans (.foldOpt (h₁.listed hl) upvalues)
    have h₃ := h₂.trans (.foldOpt (h₂.listed hl) p)
    exact h₃.trans (.foldOpt (h₃.listed hl) locvars)
  | thread stack openupval => exact .markThread hl
  | collection items => exact .foldVal hl items
  | _ => exact .fail nofun

/-- An object leaves the gray list, and what it was to be charged is free. -/
theorem markOneGray_spec {o : Nat} {gray : List Nat} (hl : Listed g) (hgray : g.list .gray = o :: gray) :
    Frame g (g.markOneGray o gray) ∧ ∀ w ≤ 1, ∀ k, Funded w k g → Funded w (k + w) (g.markOneGray o gray) := by
  have hframe : Frame g ((g.paint o .black).setList .gray gray) := (frame_paint o .black).trans (frame_setList _ _)
  have hfund : ∀ w k, Funded w k g → Funded w (k + w) ((g.paint o .black).setList .gray gray) := by
    intro w k hf
    obtain ⟨hs, hf⟩ := hf.paint_le (o := o) (c := .black) rfl
    refine ⟨hs, ?_⟩
    show (g.paint o .black).whites + w * (Function.update g.list .gray gray .gray).length + (k + w) ≤ g.debt
    have hf : (g.paint o .black).whites + w * (g.list .gray).length + k ≤ g.debt := hf
    rw [hgray, List.length_cons] at hf
    rw [Function.update_self]
    have hexp : w * (gray.length + 1) = w * gray.length + w := Nat.mul_succ ..
    omega
  have hrest : Marks ((g.paint o .black).setList .gray gray) (g.markOneGray o gray) := by
    unfold Gc.markOneGray
    dsimp only
    cases hobj : ((g.paint o .black).setList .gray gray).object o with
    | none => exact .fail nofun
    | some h =>
      by_cases hb : h.body = .sweepMark
      · dsimp only
        rw [hb]
        exact .fail nofun
      · refine .markBody (hl.frame hframe) ?_
        rw [Gc.isMark, hobj]
        exact decide_eq_false hb
  exact ⟨hframe.trans hrest.1, fun w hw k hf => hrest.2 w hw _ (hfund w k hf)⟩

/-- While no object is charged that leaves the gray list. -/
def Drains (g g' : Gc) : Prop := Frame g g' ∧ ∀ k, Funded 0 k g → Funded 0 k g'

theorem Marks.drains (h : Marks g g') : Drains g g' := ⟨h.1, h.2 0 (Nat.zero_le 1)⟩

theorem Drains.fail {s : Stop} (hs : s ≠ .underflow) : Drains g (g.fail s) := (Marks.fail hs).drains

theorem Drains.refl (g : Gc) : Drains g g := (Marks.refl g).drains

theorem Drains.trans (h : Drains g g') (h' : Drains g' g'') : Drains g g'' :=
  ⟨h.1.trans h'.1, fun k hf => h'.2 k (h.2 k hf)⟩

theorem Drains.listed (h : Drains g g') (hl : Listed g) : Listed g' := hl.frame h.1

theorem Drains.andThen (hl : Listed g) (h : Drains g g') (h' : Listed g' → Drains g' g'') : Drains g g'' :=
  h.trans (h' (h.listed hl))

theorem Drains.setList (l : GcList) (os : List Nat) : Drains g (g.setList l os) := by
  refine ⟨frame_setList l os, fun k hf => ⟨hf.1, ?_⟩⟩
  have := hf.2
  show g.whites + 0 * _ + k ≤ g.debt
  omega

theorem Drains.foldl {σ α : Type} {p : σ → Gc} {f : σ → α → σ}
    (hf : ∀ s a, Listed (p s) → Drains (p s) (p (f s a))) (l : List α) {s : σ} (hl : Listed (p s)) :
    Drains (p s) (p (l.foldl f s)) :=
  foldl_keeps .refl .trans Drains.listed hf l hl

theorem Drains.markAllGrayFor (k : Nat) : ∀ {g : Gc}, Listed g → Drains g (Gc.markAllGrayFor k g) := by
  induction k with
  | zero =>
    intro g _
    unfold Gc.markAllGrayFor
    split
    · exact .refl g
    · exact .fail nofun
    · rename_i h _
      cases h
  | succ k ih =>
    intro g hl
    unfold Gc.markAllGrayFor
    split
    · exact .refl g
    · rename_i h _
      cases h
    · rename_i k' o gray hk hgray
      obtain rfl := Nat.succ.inj hk
      obtain ⟨hframe, hf⟩ := markOneGray_spec hl hgray
      have h : Drains g (g.markOneGray o gray) := ⟨hframe, fun k hk => hf 0 (Nat.zero_le 1) k hk⟩
      exact h.trans (ih (h.listed hl))

theorem Drains.markAllGray (hl : Listed g) : Drains g g.markAllGray := .markAllGrayFor _ hl

/-! ## The end of the marking -/

theorem Marks.remarkUpvalue (hl : Listed g) (uv : Nat) : Marks g (g.remarkUpvalue uv) := by
  unfold Gc.remarkUpvalue
  split
  · split
    · exact .refl g
    · exact .visitVal hl _
  · exact .fail nofun
  · exact .fail nofun

theorem Marks.remarkThread (hl : Listed g) (th : Nat) : Marks g (g.remarkThread th) := by
  unfold Gc.remarkThread
  split
  · split
    · exact ⟨⟨rfl, rfl, rfl, rfl, rfl, rfl, rfl, fun _ => rfl, fun _ => rfl⟩, fun _ _ _ hf => hf⟩
    · exact Marks.foldl (p := id) (fun _ uv hl => .remarkUpvalue hl uv) _ hl
  · exact .fail nofun
  · exact .fail nofun

theorem Marks.remarkUpvalues (hl : Listed g) : Marks g g.remarkUpvalues := by
  have h : Marks g { g with twups := [] } :=
    ⟨⟨rfl, rfl, rfl, rfl, rfl, rfl, rfl, fun _ => rfl, fun _ => rfl⟩, fun _ _ _ hf => hf⟩
  exact h.trans (Marks.foldl (p := id) (fun _ th hl => .remarkThread hl th) g.twups (h.listed hl))

theorem Drains.convergeList {dir : Bool} {s : Gc × Bool} (hl : Listed s.1) (w : Nat) :
    Drains s.1 (convergeList dir s w).1 := by
  unfold Collector.convergeList
  split
  · rename_i t c hobj
    have h₁ : Marks s.1 (s.1.paint w .black) := .paint rfl
    have hm : (s.1.paint w .black).isMark w = false := by
      rw [h₁.1.isMark]
      exact isMark_of_body (b := .table t) (by rw [hobj]; rfl) nofun
    have h₂ := h₁.trans (Marks.markEphemeron (t := t) dir (h₁.listed hl) hm)
    dsimp only
    split
    · exact h₂.drains.trans (.markAllGray (h₂.listed hl))
    · exact h₂.drains
  · exact .fail nofun
  · exact .fail nofun

theorem Drains.convergeFor (k : Nat) : ∀ {dir : Bool} {g : Gc}, Listed g → Drains g (Gc.convergeFor k dir g) := by
  induction k with
  | zero => exact fun _ => .fail nofun
  | succ k ih =>
    intro dir g hl
    have h₁ : Drains g (g.setList .ephemeron []) := .setList _ _
    have h₂ := h₁.trans (Drains.foldl (p := Prod.fst) (f := Collector.convergeList dir)
      (fun s w hl => .convergeList hl w) (g.list .ephemeron)
      (show Listed (g.setList .ephemeron [], false).1 from h₁.listed hl))
    unfold Gc.convergeFor
    dsimp only
    split
    · exact h₂.trans (ih (h₂.listed hl))
    · exact h₂

theorem Drains.convergeEphemerons (hl : Listed g) : Drains g g.convergeEphemerons := .convergeFor _ hl

theorem Marks.clearByKey (hl : Listed g) (o : Nat) : Marks g (g.clearByKey o) := by
  unfold Gc.clearByKey
  split
  · rename_i t c hobj
    have hm : g.isMark o = false := isMark_of_body (b := .table t) (by rw [hobj]; rfl) nofun
    have h := Marks.foldl (p := Prod.fst) (f := clearNodeByKey) (fun s n hl => .isCleared hl n.key) t.node
      (show Listed (g, ([] : List Node)).1 from hl)
    exact h.trans (.setNode _ ((h.1.isMark o).trans hm))
  · exact .fail nofun
  · exact .fail nofun

theorem Marks.clearByValue (hl : Listed g) (o : Nat) : Marks g (g.clearByValue o) := by
  unfold Gc.clearByValue
  split
  · rename_i t c hobj
    have hm : g.isMark o = false := isMark_of_body (b := .table t) (by rw [hobj]; rfl) nofun
    have h₁ := Marks.foldl (p := Prod.fst) (f := clearSlot) (fun s v hl => .isCleared hl v) t.array
      (show Listed (g, ([] : List Val)).1 from hl)
    have h₂ := h₁.trans (Marks.foldl (p := Prod.fst) (f := clearNodeByValue) (fun s n hl => .isCleared hl n.val) t.node
      (show Listed ((t.array.foldl clearSlot (g, [])).1, ([] : List Node)).1 from h₁.listed hl))
    exact h₂.trans (.setBody ((h₂.1.isMark o).trans hm) nofun)
  · exact .fail nofun
  · exact .fail nofun

theorem Drains.clearByKeys (hl : Listed g) (l : List Nat) : Drains g (g.clearByKeys l) :=
  (Marks.foldl (p := id) (fun _ o hl => .clearByKey hl o) l hl).drains

theorem Drains.clearByValues (hl : Listed g) (l f : List Nat) : Drains g (g.clearByValues l f) :=
  (Marks.foldl (p := id) (fun _ o hl => .clearByValue hl o) _ hl).drains

theorem Drains.finishMarking (hl : Listed g) : Drains g g.finishMarking := by
  unfold Gc.finishMarking
  dsimp only
  -- the steps from the last to the first
  refine .andThen hl ?_ fun hl => .clearByValues hl _ _
  refine .andThen hl ?_ fun hl => .clearByValues hl _ _
  refine .andThen hl ?_ fun hl => .clearByKeys hl _
  refine .andThen hl ?_ fun hl => .clearByKeys hl _
  refine .andThen hl ?_ fun hl => .convergeEphemerons hl
  refine .andThen hl ?_ fun hl => .markAllGray hl
  refine .andThen hl ?_ fun hl => .clearByValues hl _ _
  refine .andThen hl ?_ fun hl => .clearByValues hl _ _
  refine .andThen hl ?_ fun hl => .convergeEphemerons hl
  refine .andThen hl ?_ fun hl => .markAllGray hl
  refine .andThen hl ?_ fun _ => .setList _ _
  refine .andThen hl ?_ fun hl => .markAllGray hl
  refine .andThen hl ?_ fun hl => (Marks.remarkUpvalues hl).drains
  refine .andThen hl ?_ fun hl => .markAllGray hl
  have h₁ : Drains g (g.setList .grayagain []) := .setList _ _
  have h₂ := h₁.trans (Marks.foldVisit (h₁.listed hl) (g.setList .grayagain []).refs).drains
  exact h₂.trans
    ⟨⟨rfl, rfl, rfl, rfl, rfl, rfl, rfl, fun _ => rfl, fun _ => rfl⟩, fun _ hf => hf⟩

end Tsuki.Collector
