import Tsuki.Parser.Resolve

/-!
# What a name resolves to

`singlevaraux` finds the innermost declaration of a name and adds a descriptor to every function on the way
that has none. `follow` goes the way back: from an upvalue out through the descriptors to a register.
-/

namespace Tsuki.Parser

variable {Name : Type} [DecidableEq Name]

/-- Follows the descriptors of upvalue `idx` of the first function: how many functions out they end, and the
register they end in. The register of `_ENV` is outside the main function. -/
def follow : List (FuncState Name) → Nat → Option (Nat × Nat)
  | [], _ => none
  | fs :: fss, idx =>
    match fs.f.upvalues[idx]? with
    | none => none
    | some u => if u.instack then some (1, u.idx) else (follow fss u.idx).map fun r => (r.1 + 1, r.2)

/-- Where the upvalues of name `n` of a function inside these end. -/
def Ends (envn n : Name) (scs : List (Scope Name)) (r : Nat × Nat) : Prop :=
  match resolve n scs with
  | some (k, d, older) => r = (k + 1, regs older) ∧ d.kind ≠ .ctc ∧ d.captured = true
  | none => n = envn ∧ r = (scs.length + 1, 0)

theorem follow_ends {envn : Name} {av : Actvar Name} {scs : List (Scope Name)} {fss : List (FuncState Name)}
    {fs : FuncState Name} {top idx : Nat} {u : Upvaldesc Name} (hrel : ChainRel envn av top scs fss)
    (hok : UpvalOK envn u scs fss) (hu : fs.f.upvalues[idx]? = some u) :
    ∃ r, follow (fs :: fss) idx = some r ∧ Ends envn u.name scs r := by
  induction scs generalizing fss fs top idx u with
  | nil =>
    refine ⟨(1, 0), ?_, ?_⟩
    · simp [follow, hu, show u = _ from hok]
    · simp [Ends, resolve, show u = _ from hok]
  | cons sc scs ih =>
    cases fss with
    | nil => exact hok.elim
    | cons fs' fss =>
      obtain ⟨-, -, hups, hrest⟩ := hrel
      unfold UpvalOK at hok
      cases hf : find u.name sc.decls with
      | some r =>
        obtain ⟨d, older⟩ := r
        simp only [hf] at hok
        obtain ⟨hst, hidx, -, hk, hc⟩ := hok
        refine ⟨(1, regs older), ?_, ?_⟩
        · simp [follow, hu, hst, hidx]
        · simp [Ends, resolve, hf, hk, hc]
      | none =>
        simp only [hf] at hok
        obtain ⟨hst, u', hu', hn, -⟩ := hok
        obtain ⟨r, hr, hends⟩ := ih hrest (hups.each u' (List.mem_of_getElem? hu')) hu'
        refine ⟨(r.1 + 1, r.2), ?_, ?_⟩
        · rw [follow]
          simp [hu, hst, hr]
        · rw [hn] at hends
          unfold Ends at hends ⊢
          rw [resolve, hf]
          cases hres : resolve u.name scs with
          | some x =>
            rw [hres] at hends
            obtain ⟨rfl, hk⟩ := hends
            exact ⟨rfl, hk⟩
          | none =>
            rw [hres] at hends
            obtain ⟨hn, rfl⟩ := hends
            exact ⟨hn, rfl⟩

/-! ## Capturing what is captured -/

/-- A function that has an upvalue of the name finds it captured. -/
theorem captureOuter_eq_self {envn : Name} {av : Actvar Name} {scs : List (Scope Name)}
    {fss : List (FuncState Name)} {top : Nat} {u : Upvaldesc Name} (hrel : ChainRel envn av top scs fss)
    (hok : UpvalOK envn u scs fss) : captureOuter u.name scs = scs := by
  induction scs generalizing fss top u with
  | nil => rfl
  | cons sc scs ih =>
    cases fss with
    | nil => exact hok.elim
    | cons fs' fss =>
      obtain ⟨-, -, hups, hrest⟩ := hrel
      unfold UpvalOK at hok
      rw [captureOuter]
      cases hf : find u.name sc.decls with
      | some r =>
        obtain ⟨d, older⟩ := r
        simp only [hf] at hok
        have hself : captureBlocks u.name sc.blocks = sc.blocks := by
          refine captureBlocks_eq_self fun d' older' hd' => ?_
          have heq : d = d' := by
            have := hf.symm.trans hd'
            simp only [Option.some.injEq, Prod.mk.injEq] at this
            exact this.1
          exact .inr (heq ▸ hok.2.2.2.2)
        rw [hself]
        rfl
      | none =>
        simp only [hf] at hok
        obtain ⟨-, u', hu', hn, -⟩ := hok
        have := ih hrest (hups.each u' (List.mem_of_getElem? hu'))
        rw [hn] at this
        rw [this]
        rfl

/-! ## Marking -/

/-- What resolving a name can do to a function: mark blocks and add upvalues. -/
structure Grows (fs fs' : FuncState Name) : Prop where
  upvalues : fs.f.upvalues <+: fs'.f.upvalues
  code : fs'.f.code = fs.f.code
  linedefined : fs'.f.linedefined = fs.f.linedefined
  firstlocal : fs'.firstlocal = fs.firstlocal
  nactvar : fs'.nactvar = fs.nactvar

omit [DecidableEq Name] in
theorem Grows.refl (fs : FuncState Name) : Grows fs fs := ⟨List.prefix_rfl, rfl, rfl, rfl, rfl⟩

omit [DecidableEq Name] in
theorem Grows.trans {fs fs' fs'' : FuncState Name} (h : Grows fs fs') (h' : Grows fs' fs'') : Grows fs fs'' :=
  ⟨h.upvalues.trans h'.upvalues, h'.code.trans h.code, h'.linedefined.trans h.linedefined,
    h'.firstlocal.trans h.firstlocal, h'.nactvar.trans h.nactvar⟩

omit [DecidableEq Name] in
theorem Grows.mark (fs : FuncState Name) (level : Nat) : Grows fs (markupval fs level) :=
  ⟨List.prefix_rfl, rfl, rfl, rfl, rfl⟩

theorem decls_captureBlocks (n : Name) (sc : Scope Name) :
    ({ sc with blocks := captureBlocks n sc.blocks } : Scope Name).decls = capture n sc.decls :=
  flatten_captureBlocks n sc.blocks

theorem FuncRel.mark {av : Actvar Name} {sc : Scope Name} {fs : FuncState Name} (h : FuncRel av sc fs) {n : Name}
    {d : Decl Name} {older : List (Decl Name)} (hf : find n sc.decls = some (d, older)) :
    FuncRel av { sc with blocks := captureBlocks n sc.blocks } (markupval fs older.length) := by
  have hle := capture_le n sc.decls
  refine
    { nactvar := ?_
      vars := ?_
      pending := ?_
      fresh := h.fresh
      blocks := h.blocks.mark hf
      block := captureBlocks_ne_nil h.block
      needclose := fun _ => rfl
      limit := ?_ }
  · rw [decls_captureBlocks, ← hle.length_eq]
    exact h.nactvar
  · rw [decls_captureBlocks]
    exact h.vars.mono hle
  · rw [decls_captureBlocks, ← hle.length_eq]
    exact h.pending
  · rw [decls_captureBlocks, ← hle.length_eq]
    exact h.limit

/-! ## Upvalues of the function inside -/

theorem UpvalOK.mono {envn : Name} {u : Upvaldesc Name} {sc sc' : Scope Name} {scs scs' : List (Scope Name)}
    {fs fs' : FuncState Name} {fss fss' : List (FuncState Name)} (h : UpvalOK envn u (sc :: scs) (fs :: fss))
    (hsc : DeclsLe sc.decls sc'.decls) (hfs : fs.f.upvalues <+: fs'.f.upvalues) :
    UpvalOK envn u (sc' :: scs') (fs' :: fss') := by
  unfold UpvalOK at h ⊢
  rcases find_le hsc u.name with ⟨h1, h2⟩ | ⟨d, older, d', older', h1, h2, hd, holder⟩
  · simp only [h1] at h
    simp only [h2]
    obtain ⟨hst, u', hu', hn⟩ := h
    obtain ⟨more, hmore⟩ := hfs
    refine ⟨hst, u', ?_, hn⟩
    rw [← hmore, List.getElem?_append_left (List.getElem?_eq_some_iff.mp hu').1]
    exact hu'
  · simp only [h1] at h
    simp only [h2, DeclsLe.regs_eq holder, hd.2.1]
    exact ⟨h.1, h.2.1, h.2.2.1, h.2.2.2.1, hd.2.2 h.2.2.2.2⟩

end Tsuki.Parser
