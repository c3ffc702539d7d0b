import Tsuki.Parser.Scope

/-!
# Scopes and the arrays of the parser

`ChainRel` ties the arrays of the parser to the scopes: the slots of `actvar` are the declarations of the open
functions, the outermost first, the counters of the blocks are the declarations outside them, and every
upvalue descriptor leads one function out to the innermost declaration of its name or to the upvalue of that
name there.
-/

namespace Tsuki.Parser

variable {Name : Type}

attribute [local simp] capture find

/-! ## Declarations -/

/-- The same declaration, captured at least as much. -/
def Decl.Le (d d' : Decl Name) : Prop :=
  d'.name = d.name ∧ d'.kind = d.kind ∧ (d.captured = true → d'.captured = true)

theorem Decl.Le.refl (d : Decl Name) : d.Le d := ⟨rfl, rfl, id⟩

abbrev DeclsLe (ds ds' : List (Decl Name)) : Prop := List.Forall₂ Decl.Le ds ds'

theorem DeclsLe.refl (ds : List (Decl Name)) : DeclsLe ds ds := by
  induction ds with
  | nil => exact .nil
  | cons d ds ih => exact .cons (.refl d) ih

@[simp] theorem regs_nil : regs ([] : List (Decl Name)) = 0 := rfl

theorem regs_cons (d : Decl Name) (ds : List (Decl Name)) :
    regs (d :: ds) = if d.kind = .ctc then regs ds else regs ds + 1 := by
  by_cases h : d.kind = .ctc <;> simp [regs, h]

theorem DeclsLe.regs_eq {ds ds' : List (Decl Name)} (h : DeclsLe ds ds') : regs ds' = regs ds := by
  induction h with
  | nil => rfl
  | cons hd _ ih => rw [regs_cons, regs_cons, hd.2.1, ih]

variable [DecidableEq Name]

theorem find_le {ds ds' : List (Decl Name)} (h : DeclsLe ds ds') (n : Name) :
    (find n ds = none ∧ find n ds' = none) ∨
    ∃ d older d' older', find n ds = some (d, older) ∧ find n ds' = some (d', older') ∧ d.Le d' ∧
      DeclsLe older older' := by
  induction h with
  | nil => exact .inl ⟨rfl, rfl⟩
  | @cons d d' ds ds' hd hds ih =>
    by_cases hn : d.name = n
    · have hn' : d'.name = n := hd.1.trans hn
      exact .inr ⟨d, ds, d', ds', by simp [find, hn], by simp [find, hn'], hd, hds⟩
    · have hn' : ¬ d'.name = n := fun h => hn (hd.1.symm.trans h)
      simpa [find, hn, hn'] using ih

theorem find_split {n : Name} {ds : List (Decl Name)} {d : Decl Name} {older : List (Decl Name)}
    (h : find n ds = some (d, older)) : ∃ newer, ds = newer ++ d :: older ∧ ∀ e ∈ newer, e.name ≠ n := by
  induction ds with
  | nil => simp [find] at h
  | cons e ds ih =>
    by_cases hn : e.name = n
    · simp only [find, if_pos hn, Option.some.injEq, Prod.mk.injEq] at h
      exact ⟨[], by rw [h.1, h.2]; rfl, by simp⟩
    · obtain ⟨newer, hds, hne⟩ := ih (by simpa [find, hn] using h)
      refine ⟨e :: newer, by rw [hds]; rfl, ?_⟩
      intro x hx
      rcases List.mem_cons.mp hx with rfl | hx
      · exact hn
      · exact hne x hx

theorem find_append (n : Name) (xs ys : List (Decl Name)) :
    find n (xs ++ ys) = match find n xs with
      | some (d, older) => some (d, older ++ ys)
      | none => find n ys := by
  induction xs with
  | nil => rfl
  | cons d xs ih =>
    by_cases hn : d.name = n
    · simp [find, hn]
    · simpa [find, hn] using ih

/-! ## Capturing -/

theorem capture_le (n : Name) (ds : List (Decl Name)) : DeclsLe ds (capture n ds) := by
  induction ds with
  | nil => exact .nil
  | cons d ds ih =>
    by_cases hn : d.name = n
    · by_cases hk : d.kind = .ctc
      · simpa [capture, hn, hk] using DeclsLe.refl (d :: ds)
      · simp only [capture, if_pos hn, if_neg hk]
        exact .cons ⟨rfl, rfl, fun _ => rfl⟩ (DeclsLe.refl ds)
    · simp only [capture, if_neg hn]
      exact .cons (.refl d) ih

/-- Capturing a compile-time constant, or what is captured already, changes nothing. -/
theorem capture_eq_self {n : Name} {ds : List (Decl Name)}
    (h : ∀ d older, find n ds = some (d, older) → d.kind = .ctc ∨ d.captured = true) : capture n ds = ds := by
  induction ds with
  | nil => rfl
  | cons d ds ih =>
    by_cases hn : d.name = n
    · rcases h d ds (by simp [find, hn]) with hk | hc
      · simp [capture, hn, hk]
      · have hd : { d with captured := true } = d := by rw [← hc]
        rw [capture, if_pos hn, hd, ite_self]
    · rw [capture, if_neg hn, ih]
      intro e older he
      exact h e older (by simpa [find, hn] using he)

theorem flatten_captureBlocks (n : Name) (bs : List (List (Decl Name))) :
    (captureBlocks n bs).flatten = capture n bs.flatten := by
  induction bs with
  | nil => rfl
  | cons b bs ih =>
    have key : ∀ xs ys : List (Decl Name),
        capture n (xs ++ ys) = if (find n xs).isSome then capture n xs ++ ys else xs ++ capture n ys := by
      intro xs ys
      induction xs with
      | nil => rfl
      | cons d xs ih' =>
        by_cases hn : d.name = n
        · simp [capture, find, hn]
        · simp only [List.cons_append, capture, if_neg hn, find, ih']
          split <;> rfl
    by_cases hb : (find n b).isSome
    · simp [captureBlocks, hb, key]
    · simp [captureBlocks, hb, key, ih]

theorem captureBlocks_ne_nil {n : Name} {bs : List (List (Decl Name))} (h : bs ≠ []) : captureBlocks n bs ≠ [] := by
  cases bs with
  | nil => exact absurd rfl h
  | cons b bs =>
    by_cases hb : (find n b).isSome <;> simp [captureBlocks, hb]

theorem captureBlocks_eq_self {n : Name} {bs : List (List (Decl Name))}
    (h : ∀ d older, find n bs.flatten = some (d, older) → d.kind = .ctc ∨ d.captured = true) :
    captureBlocks n bs = bs := by
  induction bs with
  | nil => rfl
  | cons b bs ih =>
    rw [List.flatten_cons, find_append] at h
    cases hb : find n b with
    | some r =>
      have hsome : (find n b).isSome = true := by rw [hb]; rfl
      rw [captureBlocks, if_pos hsome, capture_eq_self]
      intro d older hd
      exact h d (older ++ bs.flatten) (by rw [hd])
    | none =>
      rw [hb] at h
      rw [captureBlocks, hb, ih h]
      rfl

/-! ## The arrays -/

/-- The slots from `base` on describe the declarations, each in the register after those of the older ones. -/
def VarsRel (av : Actvar Name) (base : Nat) : List (Decl Name) → Prop
  | [] => True
  | d :: ds =>
    ((av.arr (base + ds.length)).name = d.name ∧ (av.arr (base + ds.length)).kind = d.kind ∧
      (d.kind ≠ .ctc → (av.arr (base + ds.length)).ridx = regs ds)) ∧ VarsRel av base ds

/-- The slots from `base` on describe declarations that wait to come into force. -/
def PendingRel (av : Actvar Name) (base : Nat) : List (Decl Name) → Prop
  | [] => True
  | d :: ds => ((av.arr base).name = d.name ∧ (av.arr base).kind = d.kind) ∧ PendingRel av (base + 1) ds

/-- A block counts the declarations outside it, and is marked if one of its own is captured. -/
def BlocksRel : List (List (Decl Name)) → List BlockCnt → Prop
  | [], [] => True
  | b :: bs, c :: cs =>
    c.nactvar = bs.flatten.length ∧ ((∃ d ∈ b, d.captured = true) → c.upval = true) ∧ BlocksRel bs cs
  | _, _ => False

/-- A function and its scope. -/
structure FuncRel (av : Actvar Name) (sc : Scope Name) (fs : FuncState Name) : Prop where
  nactvar : fs.nactvar = sc.decls.length
  vars : VarsRel av fs.firstlocal sc.decls
  pending : PendingRel av (fs.firstlocal + sc.decls.length) sc.pending
  fresh : ∀ d ∈ sc.pending, d.kind ≠ .ctc ∧ d.captured = false
  blocks : BlocksRel sc.blocks fs.bl
  block : sc.blocks ≠ []
  needclose : (∃ d ∈ sc.decls, d.captured = true) → fs.needclose = true
  limit : sc.decls.length + sc.pending.length ≤ 200

/-- An upvalue descriptor of the function inside these. -/
def UpvalOK (envn : Name) (u : Upvaldesc Name) : List (Scope Name) → List (FuncState Name) → Prop
  | [], _ => u = ⟨envn, true, 0, .regular⟩
  | _ :: _, [] => False
  | sc :: _, fs :: _ =>
    match find u.name sc.decls with
    | some (d, older) =>
      u.instack = true ∧ u.idx = regs older ∧ u.kind = d.kind ∧ d.kind ≠ .ctc ∧ d.captured = true
    | none => u.instack = false ∧ ∃ u', fs.f.upvalues[u.idx]? = some u' ∧ u'.name = u.name ∧ u'.kind = u.kind

/-- The upvalues of a function: those of the main function are `_ENV` alone. -/
structure UpvalsRel (envn : Name) (scs : List (Scope Name)) (fs : FuncState Name)
    (fss : List (FuncState Name)) : Prop where
  each : ∀ u ∈ fs.f.upvalues, UpvalOK envn u scs fss
  names : (fs.f.upvalues.map (·.name)).Nodup
  limit : fs.f.upvalues.length ≤ 255
  main : scs = [] → fs.f.upvalues = [⟨envn, true, 0, .regular⟩]

/-- The open functions, the innermost first, whose variables are the slots below `top`. -/
def ChainRel (envn : Name) (av : Actvar Name) : Nat → List (Scope Name) → List (FuncState Name) → Prop
  | top, [], [] => top = 0
  | top, sc :: scs, fs :: fss =>
    FuncRel av sc fs ∧ top = fs.firstlocal + sc.decls.length + sc.pending.length ∧ UpvalsRel envn scs fs fss ∧
      ChainRel envn av fs.firstlocal scs fss
  | _, _, _ => False

/-- The parser and the scopes of the functions it has open. -/
def Rel (ls : LexState Name) (scs : List (Scope Name)) : Prop :=
  ChainRel ls.envn ls.actvar ls.actvar.n scs (ls.fs :: ls.prev)

/-! ## Reading the arrays -/

omit [DecidableEq Name] in
theorem VarsRel.suffix {av : Actvar Name} {base : Nat} {xs ys : List (Decl Name)} (h : VarsRel av base (xs ++ ys)) :
    VarsRel av base ys := by
  induction xs with
  | nil => exact h
  | cons d xs ih => exact ih h.2

omit [DecidableEq Name] in
theorem VarsRel.congr {av av' : Actvar Name} {base : Nat} {ds : List (Decl Name)} (h : VarsRel av base ds)
    (hav : ∀ i < base + ds.length, av'.arr i = av.arr i) : VarsRel av' base ds := by
  induction ds with
  | nil => trivial
  | cons d ds ih =>
    rw [List.length_cons] at hav
    have hslot : av'.arr (base + ds.length) = av.arr (base + ds.length) := hav _ (by omega)
    refine ⟨?_, ih h.2 fun i hi => hav i (by omega)⟩
    rw [hslot]
    exact h.1

omit [DecidableEq Name] in
theorem VarsRel.mono {av : Actvar Name} {base : Nat} {ds ds' : List (Decl Name)} (h : VarsRel av base ds)
    (hle : DeclsLe ds ds') : VarsRel av base ds' := by
  induction hle with
  | nil => trivial
  | @cons d d' ds ds' hd hds ih =>
    refine ⟨?_, ih h.2⟩
    rw [← hds.length_eq, hd.1, hd.2.1, DeclsLe.regs_eq hds]
    exact h.1

omit [DecidableEq Name] in
theorem PendingRel.congr {av av' : Actvar Name} {base : Nat} {ds : List (Decl Name)} (h : PendingRel av base ds)
    (hav : ∀ i, base ≤ i → i < base + ds.length → av'.arr i = av.arr i) : PendingRel av' base ds := by
  induction ds generalizing base with
  | nil => trivial
  | cons d ds ih =>
    rw [List.length_cons] at hav
    refine ⟨?_, ih h.2 fun i h1 h2 => hav i (by omega) (by omega)⟩
    rw [hav base (by omega) (by omega)]
    exact h.1

omit [DecidableEq Name] in
theorem reglevel_eq {av : Actvar Name} {fs : FuncState Name} {ds : List (Decl Name)}
    (h : VarsRel av fs.firstlocal ds) : reglevel av fs ds.length = regs ds := by
  induction ds with
  | nil => rfl
  | cons d ds ih =>
    obtain ⟨⟨-, hk, hr⟩, hds⟩ := h
    rw [List.length_cons, reglevel, getlocalvardesc, hk, regs_cons]
    by_cases hc : d.kind = .ctc
    · rw [if_neg (not_not.mpr hc), if_pos hc, ih hds]
    · rw [if_pos hc, if_neg hc, hr hc]

/-- The variable that a declaration is in its own function. -/
def Decl.var (firstlocal : Nat) (d : Decl Name) (older : List (Decl Name)) : Expdesc :=
  if d.kind = .ctc then .const (firstlocal + older.length) else .local (regs older) older.length

theorem searchvar_eq {av : Actvar Name} {fs : FuncState Name} {ds : List (Decl Name)}
    (h : VarsRel av fs.firstlocal ds) (n : Name) :
    searchvar av fs n ds.length = (find n ds).map fun r => r.1.var fs.firstlocal r.2 := by
  induction ds with
  | nil => rfl
  | cons d ds ih =>
    obtain ⟨⟨hn, hk, hr⟩, hds⟩ := h
    rw [List.length_cons, searchvar, getlocalvardesc, hn, hk]
    by_cases hd : d.name = n
    · rw [if_pos hd.symm, find, if_pos hd, Option.map_some, Decl.var]
      by_cases hc : d.kind = .ctc
      · rw [if_pos hc, if_pos hc]
      · rw [if_neg hc, if_neg hc, hr hc]
    · rw [if_neg (Ne.symm hd), find, if_neg hd]
      exact ih hds

/-! ## The blocks -/

theorem BlocksRel.mark {bs : List (List (Decl Name))} {cs : List BlockCnt} (h : BlocksRel bs cs) {n : Name}
    {d : Decl Name} {older : List (Decl Name)} (hf : find n bs.flatten = some (d, older)) :
    BlocksRel (captureBlocks n bs) (markBlocks older.length cs) := by
  induction bs generalizing cs with
  | nil => simp [find] at hf
  | cons b bs ih =>
    cases cs with
    | nil => exact h.elim
    | cons c cs =>
      obtain ⟨hc, hm, hbs⟩ := h
      rw [List.flatten_cons, find_append] at hf
      cases hb : find n b with
      | some r =>
        simp only [hb, Option.some.injEq, Prod.mk.injEq] at hf
        have hle : ¬ c.nactvar > older.length := by
          rw [← hf.2, List.length_append, hc]
          omega
        have hsome : (find n b).isSome = true := by rw [hb]; rfl
        rw [captureBlocks, if_pos hsome, markBlocks, if_neg hle]
        exact ⟨hc, fun _ => rfl, hbs⟩
      | none =>
        simp only [hb] at hf
        obtain ⟨newer, hsplit, -⟩ := find_split hf
        have hgt : c.nactvar > older.length := by
          rw [hc, hsplit, List.length_append, List.length_cons]
          omega
        have hnone : ¬ (find n b).isSome = true := by simp [hb]
        rw [captureBlocks, if_neg hnone, markBlocks, if_pos hgt]
        refine ⟨?_, hm, ih hbs hf⟩
        rw [flatten_captureBlocks, ← (capture_le n bs.flatten).length_eq, hc]

omit [DecidableEq Name] in
theorem BlocksRel.length_eq {bs : List (List (Decl Name))} {cs : List BlockCnt} (h : BlocksRel bs cs) :
    bs.length = cs.length := by
  induction bs generalizing cs with
  | nil =>
    cases cs with
    | nil => rfl
    | cons c cs => exact h.elim
  | cons b bs ih =>
    cases cs with
    | nil => exact h.elim
    | cons c cs => rw [List.length_cons, List.length_cons, ih h.2.2]

end Tsuki.Parser
