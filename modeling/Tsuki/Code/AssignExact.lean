import Tsuki.Code.Assign
import Mathlib.Data.List.Forall2

/-!
# Multiple assignments evaluate everything before they assign

The targets and expressions are evaluated in their order; the code assigns afterwards, from the last target to the
first. `Stands` says what the register or upvalue of a target holds: a variable that is still to be read, or the value of
a time before; and `Clear` is what `check_conflict` is for, that no target looks at a variable which one behind it
assigns. So only a `__newindex` function can change a variable before it is read.
-/

namespace Tsuki.Assign

open Coroutine (adjust put At at_put at_append at_cons put_of_lt)

variable {H V : Type}

/-! ## What an assignment means -/

/-- The variables and all there were before. -/
structure Hist (H V : Type) where
  cur : Env H V
  past : List (Env H V)

/-- A table or key: a value, or a variable that is looked at later. -/
inductive Ref (V : Type)
  | loc (r : Nat)
  | upval (u : Nat)
  | value (v : V)

/-- A target whose expressions are evaluated. -/
inductive Dest (V : Type)
  | loc (r : Nat)
  | upval (u : Nat)
  | slot (t k : Ref V)

/-- What is assigned: the variables among the tables and keys are read when it is. -/
inductive Place (V : Type)
  | loc (r : Nat)
  | upval (u : Nat)
  | slot (t k : Ref V)

section

variable (nil : V) (nact : Nat)

def Hist.eval {α : Type} (h : Hist H V) (e : Eval H V α) : Hist H V × α :=
  let r := e (h.cur.view nil nact)
  (⟨r.1, h.cur :: h.past⟩, r.2)

def evalOperand (h : Hist H V) : Operand H V → Hist H V × Ref V
  | .loc r => (h, .loc r)
  | .upval u => (h, .upval u)
  | .temp e => ((h.eval nil nact e).1, .value (h.eval nil nact e).2)

def evalKey (h : Hist H V) : KeyOperand H V → Hist H V × Ref V
  | .str k => (h, .value k)
  | .int k => (h, .value k)
  | .loc r => (h, .loc r)
  | .temp _ e => ((h.eval nil nact e).1, .value (h.eval nil nact e).2)

def evalTarget (h : Hist H V) : Target H V → Hist H V × Dest V
  | .loc r => (h, .loc r)
  | .upval u => (h, .upval u)
  | .index t k =>
    let (h, t) := evalOperand nil nact h t
    let (h, k) := evalKey nil nact h k
    (h, .slot t k)

/-- The targets, the last first behind those before. -/
def evalTargets (h : Hist H V) (ds : List (Dest V)) : List (Target H V) → Hist H V × List (Dest V)
  | [] => (h, ds)
  | t :: ts =>
    let (h, d) := evalTarget nil nact h t
    evalTargets h (d :: ds) ts

/-- All values of an expression. -/
def evalAll (h : Hist H V) : Exp H V → Hist H V × List V
  | .const v => (h, [v])
  | .loc r => (h, [h.cur.regs r])
  | .temp _ e => ((h.eval nil nact e).1, [(h.eval nil nact e).2])
  | .multi _ e => h.eval nil nact e

/-- One value of each expression, behind those before. -/
def evalList (h : Hist H V) (vs : List V) : List (Exp H V) → Hist H V × List V
  | [] => (h, vs)
  | e :: es =>
    let (h, v) := evalAll nil nact h e
    evalList h (vs ++ [v.headD nil]) es

variable (store : V → V → V → Env H V → Env H V)

def Ref.val (s : Env H V) : Ref V → V
  | .loc r => s.regs r
  | .upval u => s.ups u
  | .value v => v

def Env.assign (s : Env H V) : Place V → V → Env H V
  | .loc r, v => { s with regs := Function.update s.regs r v }
  | .upval u, v => { s with ups := Function.update s.ups u v }
  | .slot t k, v => s.settable nil nact store (t.val (s.view nil nact)) (k.val (s.view nil nact)) v

/-- The assignments, one after the other. -/
def Env.assignAll (s : Env H V) (l : List (Place V × V)) : Env H V :=
  l.foldl (fun s a => s.assign nil nact store a.1 a.2) s

end

/-- The variables were like this before. -/
def Hist.Seen (h : Hist H V) (s : Env H V) : Prop := s = h.cur ∨ s ∈ h.past

/-- The value that a table or key had at a time before. -/
def Ref.Had (h : Hist H V) (v : V) : Ref V → Prop
  | .loc r => ∃ s, h.Seen s ∧ s.regs r = v
  | .upval u => ∃ s, h.Seen s ∧ s.ups u = v
  | .value w => w = v

/-- A table or key is a variable that is still to be read, or has the value of a time before. -/
def Ref.Becomes (h : Hist H V) (ref ref' : Ref V) : Prop := ref' = ref ∨ ∃ v, ref' = .value v ∧ ref.Had h v

/-- The target is the place. -/
inductive Resolves (h : Hist H V) : Dest V → Place V → Prop
  | loc (r : Nat) : Resolves h (.loc r) (.loc r)
  | upval (u : Nat) : Resolves h (.upval u) (.upval u)
  | slot {t k t' k' : Ref V} (ht : t.Becomes h t') (hk : k.Becomes h k') : Resolves h (.slot t k) (.slot t' k')

/-- The table and key are values. -/
def Place.Fixed : Place V → Prop
  | .slot t k => ∃ tv kv, t = .value tv ∧ k = .value kv
  | _ => True

/-- What is assigned to the first place is not read for the second. -/
def Apart : Place V → Place V → Prop
  | .loc r, .slot t k => t ≠ .loc r ∧ k ≠ .loc r
  | .upval u, .slot t k => t ≠ .upval u ∧ k ≠ .upval u
  | _, _ => True

/-! ## Registers -/

section

variable {nil : V} {nact : Nat} {store : V → V → V → Env H V → Env H V}

/-- The register is that of a variable, or a temporary one that has a value of a time before. -/
def InReg (nact : Nat) (h : Hist H V) (s : Env H V) (free reg : Nat) (ref : Ref V) : Prop :=
  reg < nact ∧ ref = .loc reg ∨ nact ≤ reg ∧ reg < free ∧ ref.Had h (s.regs reg)

/-- The expression of a target stands for the target. -/
inductive Stands (nact : Nat) (h : Hist H V) (s : Env H V) (free : Nat) : Var V → Dest V → Prop
  | loc {r : Nat} (hr : r < nact) : Stands nact h s free (.loc r) (.loc r)
  | upval {u : Nat} : Stands nact h s free (.upval u) (.upval u)
  | indexed {t i : Nat} {tr ir : Ref V} (ht : InReg nact h s free t tr) (hi : InReg nact h s free i ir) :
    Stands nact h s free (.indexed t i) (.slot tr ir)
  | indexup {u : Nat} {k : V} : Stands nact h s free (.indexup u k) (.slot (.upval u) (.value k))
  | indexi {t : Nat} {tr : Ref V} {k : V} (ht : InReg nact h s free t tr) :
    Stands nact h s free (.indexi t k) (.slot tr (.value k))
  | indexstr {t : Nat} {tr : Ref V} {k : V} (ht : InReg nact h s free t tr) :
    Stands nact h s free (.indexstr t k) (.slot tr (.value k))

/-- Code that adds to the temporary registers and keeps those there are. -/
structure Grows (nil : V) (nact : Nat) (store : V → V → V → Env H V → Env H V) (h : Hist H V) (s : Env H V) (fs : FuncState H V)
    (h' : Hist H V) (s' : Env H V) (fs' : FuncState H V) : Prop where
  runs : ∃ is, fs'.code = fs.code ++ is ∧ exec nil nact store s is = s'
  seen : ∀ env, h.Seen env → h'.Seen env
  keeps : ∀ j, nact ≤ j → j < fs.freereg → s'.regs j = s.regs j
  free : fs.freereg ≤ fs'.freereg
  view : s'.view nil nact = h'.cur.view nil nact

theorem Grows.refl {h : Hist H V} {s : Env H V} {fs : FuncState H V} (hview : s.view nil nact = h.cur.view nil nact) :
    Grows nil nact store h s fs h s fs :=
  ⟨⟨[], (List.append_nil _).symm, rfl⟩, fun _ h => h, fun _ _ _ => rfl, Nat.le_refl _, hview⟩

theorem Grows.trans {h h' h'' : Hist H V} {s s' s'' : Env H V} {fs fs' fs'' : FuncState H V}
    (h₁ : Grows nil nact store h s fs h' s' fs') (h₂ : Grows nil nact store h' s' fs' h'' s'' fs'') :
    Grows nil nact store h s fs h'' s'' fs'' := by
  obtain ⟨is₁, hcode₁, rfl⟩ := h₁.runs
  obtain ⟨is₂, hcode₂, rfl⟩ := h₂.runs
  refine ⟨⟨is₁ ++ is₂, ?_, ?_⟩, fun env henv => h₂.seen env (h₁.seen env henv), fun j hj hj' => ?_,
    h₁.free.trans h₂.free, h₂.view⟩
  · rw [hcode₂, hcode₁, List.append_assoc]
  · rw [exec, List.foldl_append]
    rfl
  · rw [h₂.keeps j hj (Nat.lt_of_lt_of_le hj' h₁.free), h₁.keeps j hj hj']

theorem Ref.Had.mono {h h' : Hist H V} (hseen : ∀ env, h.Seen env → h'.Seen env) {v : V} {ref : Ref V}
    (had : ref.Had h v) : ref.Had h' v := by
  cases ref with
  | loc r => exact had.imp fun s ⟨hs, hv⟩ => ⟨hseen s hs, hv⟩
  | upval u => exact had.imp fun s ⟨hs, hv⟩ => ⟨hseen s hs, hv⟩
  | value w => exact had

theorem InReg.keep {h h' : Hist H V} {s s' : Env H V} {free free' reg : Nat} {ref : Ref V}
    (hreg : InReg nact h s free reg ref) (hseen : ∀ env, h.Seen env → h'.Seen env)
    (hkeep : ∀ j, nact ≤ j → j < free → s'.regs j = s.regs j) (hfree : free ≤ free') :
    InReg nact h' s' free' reg ref := by
  rcases hreg with hlow | ⟨hge, hlt, had⟩
  · exact .inl hlow
  · refine .inr ⟨hge, Nat.lt_of_lt_of_le hlt hfree, ?_⟩
    rw [hkeep reg hge hlt]
    exact had.mono hseen

theorem Stands.keep {h h' : Hist H V} {s s' : Env H V} {free free' : Nat} {v : Var V} {d : Dest V}
    (hv : Stands nact h s free v d) (hseen : ∀ env, h.Seen env → h'.Seen env)
    (hkeep : ∀ j, nact ≤ j → j < free → s'.regs j = s.regs j) (hfree : free ≤ free') : Stands nact h' s' free' v d := by
  cases hv with
  | loc hr => exact .loc hr
  | upval => exact .upval
  | indexed ht hi => exact .indexed (ht.keep hseen hkeep hfree) (hi.keep hseen hkeep hfree)
  | indexup => exact .indexup
  | indexi ht => exact .indexi (ht.keep hseen hkeep hfree)
  | indexstr ht => exact .indexstr (ht.keep hseen hkeep hfree)

theorem Stands.mono {h h' : Hist H V} {s s' : Env H V} {fs fs' : FuncState H V} {v : Var V} {d : Dest V}
    (hv : Stands nact h s fs.freereg v d) (hg : Grows nil nact store h s fs h' s' fs') :
    Stands nact h' s' fs'.freereg v d :=
  hv.keep hg.seen hg.keeps hg.free

theorem view_eq {s s' : Env H V} (hregs : ∀ i < nact, s.regs i = s'.regs i) (hups : s.ups = s'.ups)
    (hheap : s.heap = s'.heap) : s.view nil nact = s'.view nil nact := by
  obtain ⟨regs, ups, heap⟩ := s
  obtain ⟨regs', ups', heap'⟩ := s'
  obtain rfl : ups = ups' := hups
  obtain rfl : heap = heap' := hheap
  show (⟨_, _, _⟩ : Env H V) = ⟨_, _, _⟩
  congr 1
  funext i
  dsimp only
  split_ifs with hi
  · exact hregs i hi
  · rfl

theorem view_update {s : Env H V} {r : Nat} (hr : nact ≤ r) (v : V) :
    Env.view nil nact { s with regs := Function.update s.regs r v } = s.view nil nact :=
  view_eq (fun _ _ => Function.update_of_ne (by omega) ..) rfl rfl

theorem regs_of_view {s s' : Env H V} (h : s.view nil nact = s'.view nil nact) :
    (∀ i < nact, s.regs i = s'.regs i) ∧ s.ups = s'.ups ∧ s.heap = s'.heap := by
  refine ⟨fun i hi => ?_, show (s.view nil nact).ups = (s'.view nil nact).ups by rw [h],
    show (s.view nil nact).heap = (s'.view nil nact).heap by rw [h]⟩
  have hregs := congrFun (congrArg Env.regs h) i
  simpa only [Env.view, if_pos hi] using hregs

theorem after_spec (nil : V) (s s' : Env H V) {dst free : Nat} (vs : List V) (hdst : nact ≤ dst) (hfree : free ≤ dst) :
    (after nact s s' dst free vs).view nil nact = s'.view nil nact ∧ At (after nact s s' dst free vs).regs dst vs ∧
      ∀ j, nact ≤ j → j < free → (after nact s s' dst free vs).regs j = s.regs j := by
  refine ⟨view_eq (fun i hi => ?_) rfl rfl, at_put _ _ _, fun j hj hj' => ?_⟩
  · show put _ dst vs i = _
    rw [put_of_lt _ (by omega), if_neg (by omega)]
  · show put _ dst vs j = _
    rw [put_of_lt _ (by omega), if_pos ⟨hj, hj'⟩]

theorem seen_eval {α : Type} (h : Hist H V) (e : Eval H V α) (env : Env H V) (henv : h.Seen env) :
    (h.eval nil nact e).1.Seen env := by
  rcases henv with rfl | hmem
  · exact .inr List.mem_cons_self
  · exact .inr (List.mem_cons_of_mem _ hmem)

/-- The value of an expression in the next register. -/
theorem eval_grows (store : V → V → V → Env H V → Env H V) {h : Hist H V} {s : Env H V} {fs : FuncState H V}
    (hnact : nact ≤ fs.freereg)
    (hview : s.view nil nact = h.cur.view nil nact) (e : Eval H V V) :
    ∃ s', Grows nil nact store h s fs (h.eval nil nact e).1 s' (fs.eval e) ∧
      s'.regs fs.freereg = (h.eval nil nact e).2 := by
  obtain ⟨hview', hat, hkeep⟩ := after_spec nil s (e (s.view nil nact)).1 [(e (s.view nil nact)).2]
    hnact (Nat.le_refl fs.freereg)
  refine ⟨_, ⟨⟨_, rfl, rfl⟩, seen_eval h e, hkeep, Nat.le_succ _, ?_⟩, ?_⟩
  · refine hview'.trans ?_
    rw [hview]
    rfl
  · refine (hat 0 _ rfl).trans ?_
    rw [hview]
    rfl

/-- An instruction that writes a new register only. -/
theorem write_grows (store : V → V → V → Env H V → Env H V) {h : Hist H V} {s : Env H V} {fs : FuncState H V}
    (hnact : nact ≤ fs.freereg)
    (hview : s.view nil nact = h.cur.view nil nact) {i : Instr H V} {reg n : Nat} {v : V} (hreg : fs.freereg ≤ reg)
    (hstep : step nil nact store s i = { s with regs := Function.update s.regs reg v }) :
    ∃ s', Grows nil nact store h s fs h s' ((fs.emit i).reserve n) ∧ s'.regs reg = v ∧
      ∀ j, j ≠ reg → s'.regs j = s.regs j := by
  refine ⟨_, ⟨⟨_, rfl, hstep⟩, fun _ h => h, fun j _ hj => Function.update_of_ne (by omega) ..,
    Nat.le_add_right _ _, ?_⟩, Function.update_self .., fun j hj => Function.update_of_ne hj ..⟩
  rw [← hview]
  exact view_update (by omega) _

/-- The local variables of a source are active. -/
def Operand.Active (nact : Nat) : Operand H V → Prop
  | .loc r => r < nact
  | _ => True

def KeyOperand.Active (nact : Nat) : KeyOperand H V → Prop
  | .loc r => r < nact
  | _ => True

def Target.Active (nact : Nat) : Target H V → Prop
  | .loc r => r < nact
  | .upval _ => True
  | .index t k => t.Active nact ∧ k.Active nact

def Exp.Active (nact : Nat) : Exp H V → Prop
  | .loc r => r < nact
  | _ => True

theorem indexedReg_spec (store : V → V → V → Env H V → Env H V) {h : Hist H V} {s : Env H V} {fs : FuncState H V}
    (hnact : nact ≤ fs.freereg)
    (hview : s.view nil nact = h.cur.view nil nact) {t : Nat} {tr : Ref V} (ht : InReg nact h s fs.freereg t tr)
    {k : KeyOperand H V} (hk : k.Active nact) :
    ∃ s', Grows nil nact store h s fs (evalKey nil nact h k).1 s' (indexedReg fs t k).1 ∧
      Stands nact (evalKey nil nact h k).1 s' (indexedReg fs t k).1.freereg (indexedReg fs t k).2
        (.slot tr (evalKey nil nact h k).2) := by
  cases k with
  | str k => exact ⟨s, .refl hview, .indexstr ht⟩
  | int k => exact ⟨s, .refl hview, .indexi ht⟩
  | loc r => exact ⟨s, .refl hview, .indexed ht (.inl ⟨hk, rfl⟩)⟩
  | temp nonreloc e =>
    obtain ⟨s', hg, hval⟩ := eval_grows store hnact hview e
    exact ⟨s', hg, .indexed (ht.keep hg.seen hg.keeps hg.free) (.inr ⟨hnact, Nat.lt_succ_self _, hval.symm⟩)⟩

theorem indexedUp_spec (store : V → V → V → Env H V → Env H V) {h : Hist H V} {s : Env H V} {fs : FuncState H V}
    (hnact : nact ≤ fs.freereg)
    (hview : s.view nil nact = h.cur.view nil nact) {u : Nat} {k : KeyOperand H V} (hk : k.Active nact) :
    ∃ s', Grows nil nact store h s fs (evalKey nil nact h k).1 s' (indexedUp fs u k).1 ∧
      Stands nact (evalKey nil nact h k).1 s' (indexedUp fs u k).1.freereg (indexedUp fs u k).2
        (.slot (.upval u) (evalKey nil nact h k).2) := by
  have hups := (regs_of_view hview).2.1
  have hget : ∃ s', Grows nil nact store h s fs h s' ((fs.emit (.getupval fs.freereg u)).reserve 1) ∧
      InReg nact h s' (fs.freereg + 1) fs.freereg (.upval u) := by
    obtain ⟨s', hg, hval, -⟩ := write_grows store (n := 1) hnact hview (Nat.le_refl fs.freereg)
      (show step nil nact store s (.getupval fs.freereg u) = _ from rfl)
    exact ⟨s', hg, .inr ⟨hnact, Nat.lt_succ_self _, h.cur, .inl rfl, by rw [hval, hups]⟩⟩
  cases k with
  | str k => exact ⟨s, .refl hview, .indexup⟩
  | int k =>
    obtain ⟨s', hg, hreg⟩ := hget
    exact ⟨s', hg, .indexi hreg⟩
  | loc r =>
    obtain ⟨s', hg, hreg⟩ := hget
    exact ⟨s', hg, .indexed hreg (.inl ⟨hk, rfl⟩)⟩
  | temp nonreloc e =>
    have both : ∀ k t, k = fs.freereg ∧ t = fs.freereg + 1 ∨ k = fs.freereg + 1 ∧ t = fs.freereg →
        ∃ s', Grows nil nact store h s fs (h.eval nil nact e).1 s'
            (((fs.emit (.eval k fs.freereg e)).emit (.getupval t u)).reserve 2) ∧
          Stands nact (h.eval nil nact e).1 s' (fs.freereg + 2) (.indexed t k)
            (.slot (.upval u) (.value (h.eval nil nact e).2)) := by
      intro k t hkt
      obtain ⟨hview₁, hat, hkeep⟩ := after_spec nil s (h.eval nil nact e).1.cur [(h.eval nil nact e).2]
        (show nact ≤ k by omega) (show fs.freereg ≤ k by omega)
      generalize hs₁ : after nact s (h.eval nil nact e).1.cur k fs.freereg [(h.eval nil nact e).2] = s₁ at *
      have hstep : step nil nact store s (.eval k fs.freereg e) = s₁ := by
        rw [← hs₁, step, hview]
        rfl
      refine ⟨{ s₁ with regs := Function.update s₁.regs t (s₁.ups u) },
        ⟨⟨[.eval k fs.freereg e, .getupval t u], by simp [FuncState.emit, FuncState.reserve], ?_⟩, seen_eval h e,
          fun j hj hj' => ?_, Nat.le_add_right _ 2, ?_⟩,
        .indexed (.inr ⟨by omega, by omega, (h.eval nil nact e).1.cur, .inl rfl, ?_⟩) (.inr ⟨by omega, by omega, ?_⟩)⟩
      · rw [exec, List.foldl_cons, hstep]
        rfl
      · exact (Function.update_of_ne (by omega) ..).trans (hkeep j hj hj')
      · exact (view_update (by omega) _).trans hview₁
      · show _ = Function.update s₁.regs t (s₁.ups u) t
        rw [Function.update_self, (regs_of_view hview₁).2.1]
      · exact (hat 0 _ rfl).symm.trans (Function.update_of_ne (show k ≠ t by omega) ..).symm
    cases nonreloc with
    | true => exact both _ _ (.inl ⟨rfl, rfl⟩)
    | false => exact both _ _ (.inr ⟨rfl, rfl⟩)

theorem suffixedexp_spec (store : V → V → V → Env H V → Env H V) {h : Hist H V} {s : Env H V} {fs : FuncState H V}
    (hnact : nact ≤ fs.freereg)
    (hview : s.view nil nact = h.cur.view nil nact) {t : Target H V} (ht : t.Active nact) :
    ∃ s', Grows nil nact store h s fs (evalTarget nil nact h t).1 s' (suffixedexp fs t).1 ∧
      Stands nact (evalTarget nil nact h t).1 s' (suffixedexp fs t).1.freereg (suffixedexp fs t).2
        (evalTarget nil nact h t).2 := by
  cases t with
  | loc r => exact ⟨s, .refl hview, .loc ht⟩
  | upval u => exact ⟨s, .refl hview, .upval⟩
  | index t k =>
    cases t with
    | loc r => exact indexedReg_spec store hnact hview (.inl ⟨ht.1, rfl⟩) ht.2
    | upval u => exact indexedUp_spec store hnact hview ht.2
    | temp e =>
      obtain ⟨s₁, hg₁, hval⟩ := eval_grows store hnact hview e
      obtain ⟨s', hg, hstands⟩ := indexedReg_spec store (hnact.trans hg₁.free) hg₁.view
        (show InReg nact _ s₁ _ fs.freereg (.value (h.eval nil nact e).2) from
          .inr ⟨hnact, Nat.lt_succ_self _, hval.symm⟩) ht.2
      exact ⟨s', hg₁.trans hg, hstands⟩

/-! ## Conflicts -/

/-- The target before does not look at the variable. -/
def Clear (v w : Var V) : Prop := (redirect 0 v w).1 = false

/-- `vkisindexed` -/
def Var.isIndexed : Var V → Bool
  | .loc _ => false
  | .upval _ => false
  | _ => true

theorem redirect_indexed {extra : Nat} {v w : Var V} (hv : v.isIndexed = true) : redirect extra v w = (false, w) := by
  cases v with
  | loc => cases hv
  | upval => cases hv
  | indexed => cases w <;> rfl
  | indexup => cases w <;> rfl
  | indexi => cases w <;> rfl
  | indexstr => cases w <;> rfl

/-- After `check_conflict`, a target looks at the variable no more, and where it did, at its copy. -/
theorem redirect_spec {h : Hist H V} {s s' : Env H V} {fs fs' : FuncState H V}
    (hg : Grows nil nact store h s fs h s' fs')
    {v w : Var V} {d d' : Dest V} (hv : Stands nact h s fs.freereg v d) (hw : Stands nact h s fs.freereg w d')
    (hextra : fs.freereg < fs'.freereg) (hnact : nact ≤ fs.freereg)
    (hcopy : ∀ r, v = .loc r → ∃ env, h.Seen env ∧ env.regs r = s'.regs fs.freereg)
    (hcopy' : ∀ u, v = .upval u → ∃ env, h.Seen env ∧ env.ups u = s'.regs fs.freereg) :
    Stands nact h s' fs'.freereg (redirect fs.freereg v w).2 d' ∧ Clear v (redirect fs.freereg v w).2 := by
  have hw' := hw.mono hg
  cases hv with
  | loc hr =>
    rename_i r
    have hin {t : Nat} {tr : Ref V} (ht : InReg nact h s' fs'.freereg t tr) :
        InReg nact h s' fs'.freereg (if t = r then fs.freereg else t) tr := by
      split_ifs with htr
      · subst htr
        rcases ht with ⟨-, rfl⟩ | ⟨hge, -⟩
        · exact .inr ⟨hnact, hextra, hcopy t rfl⟩
        · omega
      · exact ht
    have hne (t : Nat) : ¬(if t = r then fs.freereg else t) = r := by
      split_ifs with htr
      · omega
      · exact htr
    cases hw' with
    | loc hr' => exact ⟨.loc hr', rfl⟩
    | upval => exact ⟨.upval, rfl⟩
    | indexed ht hi =>
      refine ⟨.indexed (hin ht) (hin hi), ?_⟩
      simp only [Clear, redirect, hne, decide_false, Bool.or_false]
    | indexup => exact ⟨.indexup, rfl⟩
    | indexi ht =>
      refine ⟨.indexi (hin ht), ?_⟩
      simp only [Clear, redirect, hne, decide_false]
    | indexstr ht =>
      refine ⟨.indexstr (hin ht), ?_⟩
      simp only [Clear, redirect, hne, decide_false]
  | upval =>
    rename_i u
    cases hw' with
    | loc hr' => exact ⟨.loc hr', rfl⟩
    | upval => exact ⟨.upval, rfl⟩
    | indexed ht hi => exact ⟨.indexed ht hi, rfl⟩
    | indexup =>
      rename_i u' k
      by_cases huu : u' = u
      · subst huu
        simp only [redirect, if_pos]
        exact ⟨.indexstr (.inr ⟨hnact, hextra, hcopy' u' rfl⟩), rfl⟩
      · simp only [redirect, if_neg huu]
        exact ⟨.indexup, by simp only [Clear, redirect, if_neg huu]⟩
    | indexi ht => exact ⟨.indexi ht, rfl⟩
    | indexstr ht => exact ⟨.indexstr ht, rfl⟩
  | indexed _ _ =>
    rw [Clear, redirect_indexed rfl]
    exact ⟨hw', congrArg Prod.fst (redirect_indexed rfl)⟩
  | indexup =>
    rw [Clear, redirect_indexed rfl]
    exact ⟨hw', congrArg Prod.fst (redirect_indexed rfl)⟩
  | indexi _ =>
    rw [Clear, redirect_indexed rfl]
    exact ⟨hw', congrArg Prod.fst (redirect_indexed rfl)⟩
  | indexstr _ =>
    rw [Clear, redirect_indexed rfl]
    exact ⟨hw', congrArg Prod.fst (redirect_indexed rfl)⟩

theorem redirect_fst (extra : Nat) (v w : Var V) : (redirect extra v w).1 = (redirect 0 v w).1 := by
  cases v <;> cases w <;> try rfl
  rename_i t u k
  simp only [redirect]
  split_ifs <;> rfl

theorem redirect_of_clear {v w : Var V} (hc : Clear v w) (extra : Nat) : (redirect extra v w).2 = w := by
  by_cases hv : v.isIndexed = true
  · rw [redirect_indexed hv]
  cases v with
  | loc r =>
    cases w with
    | indexed t i =>
      simp only [Clear, redirect, Bool.or_eq_false_iff, decide_eq_false_iff_not] at hc
      simp only [redirect, if_neg hc.1, if_neg hc.2]
    | indexi t k =>
      simp only [Clear, redirect, decide_eq_false_iff_not] at hc
      simp only [redirect, if_neg hc]
    | indexstr t k =>
      simp only [Clear, redirect, decide_eq_false_iff_not] at hc
      simp only [redirect, if_neg hc]
    | _ => rfl
  | upval u =>
    cases w with
    | indexup t k =>
      by_cases htu : t = u
      · simp [Clear, redirect, htu] at hc
      · simp only [redirect, if_neg htu]
    | _ => rfl
  | _ => exact absurd rfl hv

/-- A conflict changes the tables and keys of targets, never a variable that is a target. -/
theorem redirect_kind (extra : Nat) (v w : Var V) :
    (redirect extra v w).2 = w ∨ w.isIndexed = true ∧ (redirect extra v w).2.isIndexed = true := by
  cases w with
  | loc => exact .inl rfl
  | upval => exact .inl rfl
  | indexed => exact .inr ⟨rfl, by cases v <;> rfl⟩
  | indexi => exact .inr ⟨rfl, by cases v <;> rfl⟩
  | indexstr => exact .inr ⟨rfl, by cases v <;> rfl⟩
  | indexup t k =>
    refine .inr ⟨rfl, ?_⟩
    cases v with
    | upval u =>
      simp only [redirect]
      split_ifs <;> rfl
    | _ => rfl

/-- A target that does not look at a variable does not after another conflict, either. -/
theorem Clear.redirect {v v' w : Var V} {extra : Nat} (hc : Clear v w) (hextra : v ≠ .loc extra) :
    Clear v (redirect extra v' w).2 := by
  by_cases hv : v.isIndexed = true
  · rw [Clear, redirect_indexed hv]
  cases v with
  | loc r =>
    have hne : r ≠ extra := fun h => hextra (h ▸ rfl)
    cases w with
    | indexed t i =>
      cases v' with
      | loc r' =>
        simp only [Clear, Assign.redirect, Bool.or_eq_false_iff, decide_eq_false_iff_not] at hc ⊢
        constructor <;> split_ifs <;> first | exact hne.symm | exact hc.1 | exact hc.2
      | _ => exact hc
    | indexi t k =>
      cases v' with
      | loc r' =>
        simp only [Clear, Assign.redirect, decide_eq_false_iff_not] at hc ⊢
        split_ifs <;> first | exact hne.symm | exact hc
      | _ => exact hc
    | indexstr t k =>
      cases v' with
      | loc r' =>
        simp only [Clear, Assign.redirect, decide_eq_false_iff_not] at hc ⊢
        split_ifs <;> first | exact hne.symm | exact hc
      | _ => exact hc
    | indexup t k =>
      cases v' with
      | upval u =>
        simp only [Assign.redirect]
        split_ifs
        · simp only [Clear, Assign.redirect, decide_eq_false_iff_not]
          exact hne.symm
        · rfl
      | _ => rfl
    | _ => rfl
  | upval u =>
    cases w with
    | indexup t k =>
      cases v' with
      | upval u' =>
        simp only [Assign.redirect]
        split_ifs
        · rfl
        · exact hc
      | _ => exact hc
    | indexed => cases v' <;> rfl
    | indexi => cases v' <;> rfl
    | indexstr => cases v' <;> rfl
    | _ => rfl
  | _ => exact absurd rfl hv

/-- The targets so far, the last first: each stands for its target, and none looks at one behind it. -/
structure Parsed (nil : V) (nact : Nat) (h : Hist H V) (s : Env H V) (fs : FuncState H V) (lh : List (Var V))
    (ds : List (Dest V)) : Prop where
  view : s.view nil nact = h.cur.view nil nact
  free : nact ≤ fs.freereg
  stands : List.Forall₂ (Stands nact h s fs.freereg) lh ds
  clear : lh.Pairwise Clear

theorem target_eq (fs : FuncState H V) (lh : List (Var V)) (t : Target H V) :
    target fs lh t = if (suffixedexp fs t).2.isIndexed then ((suffixedexp fs t).1, (suffixedexp fs t).2 :: lh)
      else ((check_conflict (suffixedexp fs t).1 lh (suffixedexp fs t).2).1,
        (suffixedexp fs t).2 :: (check_conflict (suffixedexp fs t).1 lh (suffixedexp fs t).2).2) := by
  rw [target]
  generalize suffixedexp fs t = r
  obtain ⟨fs₁, v⟩ := r
  cases v <;> rfl

theorem copy_grows (store : V → V → V → Env H V → Env H V) {h : Hist H V} {s : Env H V} {fs : FuncState H V}
    (hnact : nact ≤ fs.freereg)
    (hview : s.view nil nact = h.cur.view nil nact) {v : Var V} {d : Dest V} (hv : Stands nact h s fs.freereg v d)
    (hkind : v.isIndexed = false) (lh : List (Var V)) (hconf : (lh.any fun w => (redirect fs.freereg v w).1) = true) :
    ∃ s', Grows nil nact store h s fs h s' (check_conflict fs lh v).1 ∧
      (check_conflict fs lh v).1.freereg = fs.freereg + 1 ∧
      (∀ r, v = .loc r → ∃ env, h.Seen env ∧ env.regs r = s'.regs fs.freereg) ∧
      ∀ u, v = .upval u → ∃ env, h.Seen env ∧ env.ups u = s'.regs fs.freereg := by
  obtain ⟨hregs, hups, -⟩ := regs_of_view hview
  unfold check_conflict
  rw [if_pos hconf]
  cases hv with
  | loc hr =>
    rename_i r
    obtain ⟨s', hg, hval, -⟩ := write_grows store (n := 1) hnact hview (Nat.le_refl fs.freereg)
      (show step nil nact store s (.move fs.freereg r) = _ from rfl)
    refine ⟨s', hg, rfl, fun r' hr' => ?_, nofun⟩
    cases hr'
    exact ⟨h.cur, .inl rfl, by rw [hval, hregs r hr]⟩
  | upval =>
    rename_i u
    obtain ⟨s', hg, hval, -⟩ := write_grows store (n := 1) hnact hview (Nat.le_refl fs.freereg)
      (show step nil nact store s (.getupval fs.freereg u) = _ from rfl)
    refine ⟨s', hg, rfl, nofun, fun u' hu' => ?_⟩
    cases hu'
    exact ⟨h.cur, .inl rfl, by rw [hval, hups]⟩
  | _ => cases hkind

theorem check_conflict_spec (store : V → V → V → Env H V → Env H V) {h : Hist H V} {s : Env H V} {fs : FuncState H V}
    {lh : List (Var V)} {ds : List (Dest V)}
    (hp : Parsed nil nact h s fs lh ds) {v : Var V} {d : Dest V} (hv : Stands nact h s fs.freereg v d)
    (hkind : v.isIndexed = false) :
    ∃ s', Grows nil nact store h s fs h s' (check_conflict fs lh v).1 ∧
      Parsed nil nact h s' (check_conflict fs lh v).1 (v :: (check_conflict fs lh v).2) (d :: ds) := by
  have hmap : (check_conflict fs lh v).2 = lh.map fun w => (redirect fs.freereg v w).2 := by
    unfold check_conflict
    dsimp only
    split_ifs
    · cases v <;> rfl
    · rfl
  rw [hmap]
  by_cases hconf : (lh.any fun w => (redirect fs.freereg v w).1) = true
  · obtain ⟨s', hg, hfree, hcopy, hcopy'⟩ := copy_grows store hp.free hp.view hv hkind lh hconf
    have hall : List.Forall₂ (fun w d' => Stands nact h s' (check_conflict fs lh v).1.freereg
        (redirect fs.freereg v w).2 d' ∧ Clear v (redirect fs.freereg v w).2) lh ds :=
      hp.stands.imp fun w d' hw => redirect_spec hg hv hw (by omega) hp.free hcopy hcopy'
    refine ⟨s', hg, hg.view, hp.free.trans hg.free, .cons (hv.mono hg) ?_, List.pairwise_cons.mpr ⟨?_, ?_⟩⟩
    · exact List.forall₂_map_left_iff.mpr (hall.imp fun _ _ h => h.1)
    · intro w' hw'
      obtain ⟨w, hw, rfl⟩ := List.mem_map.mp hw'
      obtain ⟨n, hn, rfl⟩ := List.getElem_of_mem hw
      exact (List.forall₂_iff_get.mp hall).2 n hn (hall.length_eq ▸ hn) |>.2
    · refine List.pairwise_map.mpr (hp.clear.imp_of_mem fun {a b} ha _ hab => ?_)
      obtain ⟨n, hn, rfl⟩ := List.getElem_of_mem ha
      have hstands := (List.forall₂_iff_get.mp hp.stands).2 n hn (hp.stands.length_eq ▸ hn)
      rcases redirect_kind fs.freereg v lh[n] with hsame | ⟨-, hind⟩
      · rw [hsame]
        refine hab.redirect fun heq => ?_
        have hfree := hp.free
        rw [show lh.get ⟨n, hn⟩ = lh[n] from rfl, heq] at hstands
        generalize ds.get _ = d' at hstands
        cases hstands with
        | loc hr => omega
      · rw [Clear, redirect_indexed hind]
  · have hnone : ∀ w ∈ lh, Clear v w := by
      intro w hw
      rw [Clear, ← redirect_fst fs.freereg, ← Bool.not_eq_true]
      exact fun htrue => hconf (List.any_eq_true.mpr ⟨w, hw, htrue⟩)
    have hid : (lh.map fun w => (redirect fs.freereg v w).2) = lh := by
      rw [List.map_congr_left fun w hw => redirect_of_clear (hnone w hw) fs.freereg, List.map_id']
    have hfs : (check_conflict fs lh v).1 = fs := by
      unfold check_conflict
      rw [if_neg hconf]
    rw [hid, hfs]
    exact ⟨s, .refl hp.view, hp.view, hp.free, .cons hv hp.stands, List.pairwise_cons.mpr ⟨hnone, hp.clear⟩⟩

theorem target_spec (store : V → V → V → Env H V → Env H V) {h : Hist H V} {s : Env H V} {fs : FuncState H V} {lh : List (Var V)}
    {ds : List (Dest V)}
    (hp : Parsed nil nact h s fs lh ds) {t : Target H V} (ht : t.Active nact) :
    ∃ s', Grows nil nact store h s fs (evalTarget nil nact h t).1 s' (target fs lh t).1 ∧
      Parsed nil nact (evalTarget nil nact h t).1 s' (target fs lh t).1 (target fs lh t).2
        ((evalTarget nil nact h t).2 :: ds) := by
  obtain ⟨s₁, hg₁, hv⟩ := suffixedexp_spec store hp.free hp.view ht
  have hp₁ : Parsed nil nact (evalTarget nil nact h t).1 s₁ (suffixedexp fs t).1 lh ds :=
    ⟨hg₁.view, hp.free.trans hg₁.free, hp.stands.imp fun w d' hw => hw.mono hg₁, hp.clear⟩
  rw [target_eq]
  by_cases hkind : (suffixedexp fs t).2.isIndexed = true
  · rw [if_pos hkind]
    refine ⟨s₁, hg₁, hp₁.view, hp₁.free, .cons hv hp₁.stands, List.pairwise_cons.mpr ⟨fun w _ => ?_, hp₁.clear⟩⟩
    rw [Clear, redirect_indexed hkind]
  · rw [if_neg hkind]
    obtain ⟨s', hg, hp'⟩ := check_conflict_spec store hp₁ hv (Bool.not_eq_true _ ▸ hkind)
    exact ⟨s', hg₁.trans hg, hp'⟩

theorem targets_spec (store : V → V → V → Env H V → Env H V) (ts : List (Target H V)) : ∀ {h : Hist H V} {s : Env H V}
    {fs : FuncState H V} {lh : List (Var V)}
    {ds : List (Dest V)}, Parsed nil nact h s fs lh ds → (∀ t ∈ ts, t.Active nact) →
    ∃ s', Grows nil nact store h s fs (evalTargets nil nact h ds ts).1 s' (targets fs lh ts).1 ∧
      Parsed nil nact (evalTargets nil nact h ds ts).1 s' (targets fs lh ts).1 (targets fs lh ts).2
        (evalTargets nil nact h ds ts).2 := by
  induction ts with
  | nil => exact fun hp _ => ⟨_, .refl hp.view, hp⟩
  | cons t ts ih =>
    intro h s fs lh ds hp hact
    obtain ⟨s₁, hg₁, hp₁⟩ := target_spec store hp (hact t List.mem_cons_self)
    obtain ⟨s', hg, hp'⟩ := ih hp₁ fun t' ht' => hact t' (List.mem_cons_of_mem _ ht')
    exact ⟨s', hg₁.trans hg, hp'⟩

/-! ## Expressions -/

theorem exp2nextreg_spec (store : V → V → V → Env H V → Env H V) {h : Hist H V} {s : Env H V} {fs : FuncState H V}
    (hnact : nact ≤ fs.freereg)
    (hview : s.view nil nact = h.cur.view nil nact) {e : Exp H V} (he : e.Active nact) :
    ∃ s', Grows nil nact store h s fs (evalAll nil nact h e).1 s' (exp2nextreg nil fs e) ∧
      s'.regs fs.freereg = (evalAll nil nact h e).2.headD nil ∧ (exp2nextreg nil fs e).freereg = fs.freereg + 1 := by
  cases e with
  | const v =>
    obtain ⟨s', hg, hval, -⟩ := write_grows store (n := 1) hnact hview (Nat.le_refl fs.freereg)
      (show step nil nact store s (.load fs.freereg v) = _ from rfl)
    exact ⟨s', hg, hval, rfl⟩
  | loc r =>
    obtain ⟨s', hg, hval, -⟩ := write_grows store (n := 1) hnact hview (Nat.le_refl fs.freereg)
      (show step nil nact store s (.move fs.freereg r) = _ from rfl)
    exact ⟨s', hg, hval.trans ((regs_of_view hview).1 r he), rfl⟩
  | temp nonreloc e =>
    obtain ⟨s', hg, hval⟩ := eval_grows store hnact hview e
    exact ⟨s', hg, hval, rfl⟩
  | multi nonreloc e =>
    obtain ⟨s', hg, hval⟩ := eval_grows store hnact hview (first nil e)
    exact ⟨s', hg, hval, rfl⟩

/-- The values are in registers, one after the other. -/
theorem explist_spec (store : V → V → V → Env H V → Env H V) (es : List (Exp H V)) : ∀ {h : Hist H V} {s : Env H V}
    {fs : FuncState H V} {free : Nat}
    {vs : List V}, nact ≤ free → s.view nil nact = h.cur.view nil nact → (∀ e ∈ es, e.Active nact) →
    At s.regs free vs → fs.freereg = free + vs.length →
    ∃ s', Grows nil nact store h s fs (evalList nil nact h vs es).1 s' (explist nil fs es) ∧
      At s'.regs free (evalList nil nact h vs es).2 ∧
      (explist nil fs es).freereg = free + (evalList nil nact h vs es).2.length ∧
      (evalList nil nact h vs es).2.length = vs.length + es.length := by
  induction es with
  | nil => exact fun _ hview _ hat hfree => ⟨_, .refl hview, hat, hfree, rfl⟩
  | cons e es ih =>
    intro h s fs free vs hnact hview hact hat hfree
    obtain ⟨s₁, hg₁, hval, hfree₁⟩ := exp2nextreg_spec store (show nact ≤ fs.freereg by omega) hview
      (hact e List.mem_cons_self)
    have hat₁ : At s₁.regs free (vs ++ [(evalAll nil nact h e).2.headD nil]) := by
      refine at_append.mpr ⟨hat.congr fun j hj hj' => hg₁.keeps j (by omega) (by omega), at_cons.mpr ⟨?_, nofun⟩⟩
      rw [← hfree]
      exact hval
    obtain ⟨s', hg, hat', hfree', hlen⟩ := ih hnact hg₁.view
      (fun e' he' => hact e' (List.mem_cons_of_mem _ he')) hat₁
      (show (exp2nextreg nil fs e).freereg = free + (vs ++ [_]).length by
        rw [hfree₁, hfree, List.length_append, List.length_singleton, Nat.add_assoc])
    refine ⟨s', hg₁.trans hg, hat', hfree', ?_⟩
    rw [List.length_append, List.length_singleton] at hlen
    rw [evalList, List.length_cons]
    exact hlen.trans (by omega)

theorem adjust_append (n : Nat) (vs ws : List V) :
    adjust nil (some n) (vs ++ ws) = (vs ++ adjust nil (some (n - vs.length)) ws).take n := by
  by_cases hn : n ≤ vs.length
  · rw [adjust, List.take_append_of_le_length hn, List.take_append_of_le_length hn, List.length_append,
      show n - (vs.length + ws.length) = 0 by omega, List.replicate_zero, List.append_nil]
  · rw [adjust, adjust, List.take_append, List.take_of_length_le (show vs.length ≤ n by omega), List.length_append,
      List.append_assoc, ← Nat.sub_sub]
    refine (List.take_of_length_le ?_).symm
    simp only [List.length_append, List.length_take, List.length_replicate]
    omega

/-- A single last expression, with nil for the targets that have none. -/
theorem adjust_single_spec (store : V → V → V → Env H V → Env H V) {h : Hist H V} {s : Env H V} {fs : FuncState H V}
    (hnact : nact ≤ fs.freereg)
    (hview : s.view nil nact = h.cur.view nil nact) {e : Exp H V} (hact : e.Active nact)
    (hone : (evalAll nil nact h e).2.length = 1) (n : Nat) :
    let fs₁ := exp2nextreg nil fs e
    let fs₂ := if (n : Int) - 1 > 0 then fs₁.emit (.loadnil fs₁.freereg ((n : Int) - 1).toNat) else fs₁
    fs₁.freereg = fs.freereg + 1 ∧ fs₂.freereg = fs₁.freereg ∧ ∃ is s', fs₂.code = fs.code ++ is ∧
      exec nil nact store s is = s' ∧ s'.view nil nact = (evalAll nil nact h e).1.cur.view nil nact ∧
      (∀ env, h.Seen env → (evalAll nil nact h e).1.Seen env) ∧
      (∀ j, nact ≤ j → j < fs.freereg → s'.regs j = s.regs j) ∧
      At s'.regs fs.freereg (adjust nil (some n) (evalAll nil nact h e).2) := by
  obtain ⟨s₁, hg, hval, hfree⟩ := exp2nextreg_spec store hnact hview hact
  obtain ⟨v, hv⟩ := List.length_eq_one_iff.mp hone
  rw [hv] at hval ⊢
  have hval : s₁.regs fs.freereg = v := hval
  obtain ⟨is, hcode, hrun⟩ := hg.runs
  dsimp only
  refine ⟨hfree, by split_ifs <;> rfl, ?_⟩
  by_cases hn : (n : Int) - 1 > 0
  · rw [if_pos hn]
    refine ⟨is ++ [.loadnil (exp2nextreg nil fs e).freereg ((n : Int) - 1).toNat],
      { s₁ with regs := put s₁.regs (exp2nextreg nil fs e).freereg (List.replicate ((n : Int) - 1).toNat nil) },
      ?_, ?_, ?_, hg.seen, fun j hj hj' => ?_, ?_⟩
    · rw [FuncState.emit, hcode, List.append_assoc]
    · rw [exec, List.foldl_append, show List.foldl _ s is = s₁ from hrun]
      rfl
    · refine Eq.trans ?_ hg.view
      exact view_eq (fun i hi => put_of_lt _ (by omega)) rfl rfl
    · exact (put_of_lt _ (by omega)).trans (hg.keeps j hj hj')
    · have hadj : adjust nil (some n) [v] = v :: List.replicate ((n : Int) - 1).toNat nil := by
        obtain ⟨k, rfl⟩ : ∃ k, n = k + 1 := ⟨n - 1, by omega⟩
        rw [adjust, List.take_succ_cons, List.take_nil, show (((k + 1 : Nat) : Int) - 1).toNat = k by omega]
        rfl
      rw [hadj]
      refine at_cons.mpr ⟨(put_of_lt _ (by omega)).trans hval, ?_⟩
      rw [hfree]
      exact at_put _ _ _
  · rw [if_neg hn]
    refine ⟨is, s₁, hcode, hrun, hg.view, hg.seen, hg.keeps, fun k x hk => ?_⟩
    obtain ⟨hlt, -⟩ := List.getElem?_eq_some_iff.mp hk
    rw [Coroutine.length_adjust, Option.getD_some] at hlt
    obtain rfl : n = 1 := by omega
    obtain rfl : k = 0 := by omega
    exact hval.trans (Option.some.inj hk)

/-- The last expression fills the registers up to the number of the targets. -/
theorem adjust_assign_spec (store : V → V → V → Env H V → Env H V) (nvars : Nat) {h : Hist H V} {s : Env H V} {fs : FuncState H V}
    {free : Nat}
    {vs : List V} (hnact : nact ≤ free) (hview : s.view nil nact = h.cur.view nil nact) {last : Exp H V}
    (hact : last.Active nact)
    (hat : At s.regs free vs) (hfree : fs.freereg = free + vs.length) :
    ∃ is s', (adjust_assign nil fs nvars (vs.length + 1) last).code = fs.code ++ is ∧ exec nil nact store s is = s' ∧
      (adjust_assign nil fs nvars (vs.length + 1) last).freereg = free + nvars ∧
      s'.view nil nact = (evalAll nil nact h last).1.cur.view nil nact ∧
      (∀ env, h.Seen env → (evalAll nil nact h last).1.Seen env) ∧
      (∀ j, nact ≤ j → j < fs.freereg → s'.regs j = s.regs j) ∧
      At s'.regs free (adjust nil (some nvars) (vs ++ (evalAll nil nact h last).2)) := by
  -- the values of the last expression, as many as are wanted
  have hlast {s' : Env H V} (hkeep : ∀ j, nact ≤ j → j < fs.freereg → s'.regs j = s.regs j)
      (hat' : At s'.regs fs.freereg (adjust nil (some (nvars - vs.length)) (evalAll nil nact h last).2)) :
      At s'.regs free (adjust nil (some nvars) (vs ++ (evalAll nil nact h last).2)) := by
    rw [adjust_append]
    have hall : At s'.regs free (vs ++ adjust nil (some (nvars - vs.length)) (evalAll nil nact h last).2) := by
      refine at_append.mpr ⟨hat.congr fun j hj hj' => hkeep j (by omega) (by omega), ?_⟩
      rwa [← hfree]
    rw [← List.take_append_drop nvars (vs ++ _)] at hall
    exact (at_append.mp hall).1
  have hneeded : ((fs.freereg + 1 : Nat) + ((nvars : Int) - (vs.length + 1 : Nat))).toNat = free + nvars := by omega
  have hsingle (hone : (evalAll nil nact h last).2.length = 1)
      (hadj : adjust_assign nil fs nvars (vs.length + 1) last =
        let needed : Int := nvars - (vs.length + 1 : Nat)
        let fs := exp2nextreg nil fs last
        let fs := if needed > 0 then fs.emit (.loadnil fs.freereg needed.toNat) else fs
        { fs with freereg := (fs.freereg + needed).toNat }) :
      ∃ is s', (adjust_assign nil fs nvars (vs.length + 1) last).code = fs.code ++ is ∧ exec nil nact store s is = s' ∧
        (adjust_assign nil fs nvars (vs.length + 1) last).freereg = free + nvars ∧
        s'.view nil nact = (evalAll nil nact h last).1.cur.view nil nact ∧
        (∀ env, h.Seen env → (evalAll nil nact h last).1.Seen env) ∧
        (∀ j, nact ≤ j → j < fs.freereg → s'.regs j = s.regs j) ∧
        At s'.regs free (adjust nil (some nvars) (vs ++ (evalAll nil nact h last).2)) := by
    obtain ⟨hfree₁, hfree₂, is, s', hcode, hrun, hview', hseen, hkeep, hat'⟩ :=
      adjust_single_spec store (show nact ≤ fs.freereg by omega) hview hact hone (nvars - vs.length)
    have hcount : ((nvars : Int) - (vs.length + 1 : Nat)).toNat = (((nvars - vs.length : Nat) : Int) - 1).toNat := by
      omega
    have hnil (fs₁ fs₂ : FuncState H V) : (if (nvars : Int) - (vs.length + 1 : Nat) > 0 then fs₁ else fs₂) =
        if ((nvars - vs.length : Nat) : Int) - 1 > 0 then fs₁ else fs₂ := if_congr (by omega) rfl rfl
    rw [hadj]
    dsimp only
    rw [hnil, hcount]
    refine ⟨is, s', hcode, hrun, ?_, hview', hseen, hkeep, hlast hkeep hat'⟩
    rw [hfree₂, hfree₁]
    exact hneeded
  cases last with
  | multi nonreloc e =>
    have hn : ((nvars : Int) - (vs.length + 1 : Nat) + 1).toNat = nvars - vs.length := by omega
    obtain ⟨hview', hat', hkeep⟩ := after_spec nil s (h.eval nil nact e).1.cur
      (adjust nil (some (nvars - vs.length)) (h.eval nil nact e).2) (show nact ≤ fs.freereg by omega)
      (Nat.le_refl fs.freereg)
    refine ⟨[.evalOpen fs.freereg fs.freereg (nvars - vs.length) e], _, ?_, rfl, hneeded, ?_, seen_eval h e, ?_,
      hlast ?_ ?_⟩
    · show fs.code ++ _ = _
      rw [hn]
    · rw [exec, List.foldl_cons, step, hview]
      exact hview'
    · rw [exec, List.foldl_cons, step, hview]
      exact hkeep
    · rw [exec, List.foldl_cons, step, hview]
      exact hkeep
    · rw [exec, List.foldl_cons, step, hview]
      exact hat'
  | const v => exact hsingle rfl rfl
  | loc r => exact hsingle rfl rfl
  | temp nonreloc e => exact hsingle rfl rfl

/-! ## Stores -/

/-- A register is a variable, or has the value of a temporary. -/
def refOf (nact : Nat) (s : Env H V) (reg : Nat) : Ref V := if reg < nact then .loc reg else .value (s.regs reg)

/-- The place of a target, as the temporaries are. -/
def placeOf (nact : Nat) (s : Env H V) : Var V → Place V
  | .loc r => .loc r
  | .upval u => .upval u
  | .indexed t i => .slot (refOf nact s t) (refOf nact s i)
  | .indexup u k => .slot (.upval u) (.value k)
  | .indexi t k => .slot (refOf nact s t) (.value k)
  | .indexstr t k => .slot (refOf nact s t) (.value k)

@[simp] theorem Ref.val_value (s : Env H V) (v : V) : (Ref.value v).val s = v := rfl

@[simp] theorem Ref.val_upval (s : Env H V) (u : Nat) : (Ref.upval u : Ref V).val (s.view nil nact) = s.ups u := rfl

theorem val_refOf (s : Env H V) (reg : Nat) : (refOf nact s reg).val (s.view nil nact) = s.regs reg := by
  unfold refOf
  split_ifs with hreg
  · exact if_pos hreg
  · rfl

theorem refOf_ne {s : Env H V} {reg r : Nat} (h : reg ≠ r) : refOf nact s reg ≠ .loc r := by
  unfold refOf
  split_ifs
  · exact fun heq => h (by cases heq; rfl)
  · nofun

theorem refOf_ne_upval (s : Env H V) (reg u : Nat) : refOf nact s reg ≠ .upval u := by
  unfold refOf
  split_ifs <;> nofun

/-- The places are the same as long as the temporaries are. -/
theorem placeOf_congr {s s' : Env H V} (h : ∀ j, nact ≤ j → s.regs j = s'.regs j) (v : Var V) :
    placeOf nact s v = placeOf nact s' v := by
  have href (reg : Nat) : refOf nact s reg = refOf nact s' reg := by
    unfold refOf
    split_ifs with hreg
    · rfl
    · rw [h reg (by omega)]
  cases v <;> simp only [placeOf, href]

theorem resolves_placeOf {h : Hist H V} {s : Env H V} {free : Nat} {v : Var V} {d : Dest V}
    (hv : Stands nact h s free v d) : Resolves h d (placeOf nact s v) := by
  have hin {reg : Nat} {ref : Ref V} (hreg : InReg nact h s free reg ref) : ref.Becomes h (refOf nact s reg) := by
    unfold refOf
    rcases hreg with ⟨hlt, rfl⟩ | ⟨hge, -, had⟩
    · exact .inl (if_pos hlt)
    · exact .inr ⟨_, if_neg (by omega), had⟩
  cases hv with
  | loc hr => exact .loc _
  | upval => exact .upval _
  | indexed ht hi => exact .slot (hin ht) (hin hi)
  | indexup => exact .slot (.inl rfl) (.inl rfl)
  | indexi ht => exact .slot (hin ht) (.inl rfl)
  | indexstr ht => exact .slot (hin ht) (.inl rfl)

/-- A target that does not look at a variable is apart from it. -/
theorem apart_placeOf {v w : Var V} (hc : Clear v w) (s : Env H V) : Apart (placeOf nact s v) (placeOf nact s w) := by
  cases v with
  | loc r =>
    cases w with
    | indexed t i =>
      simp only [Clear, redirect, Bool.or_eq_false_iff, decide_eq_false_iff_not] at hc
      exact ⟨refOf_ne hc.1, refOf_ne hc.2⟩
    | indexup u k => exact ⟨nofun, nofun⟩
    | indexi t k =>
      simp only [Clear, redirect, decide_eq_false_iff_not] at hc
      exact ⟨refOf_ne hc, nofun⟩
    | indexstr t k =>
      simp only [Clear, redirect, decide_eq_false_iff_not] at hc
      exact ⟨refOf_ne hc, nofun⟩
    | _ => trivial
  | upval u =>
    cases w with
    | indexup t k =>
      refine ⟨?_, nofun⟩
      rintro ⟨⟩
      simp [Clear, redirect] at hc
    | indexed t i => exact ⟨refOf_ne_upval s t u, refOf_ne_upval s i u⟩
    | indexi t k => exact ⟨refOf_ne_upval s t u, nofun⟩
    | indexstr t k => exact ⟨refOf_ne_upval s t u, nofun⟩
    | _ => trivial
  | _ => cases w <;> trivial

/-- Variables among the targets are active. -/
def Var.Active (nact : Nat) : Var V → Prop
  | .loc r => r < nact
  | _ => True

theorem temps_assign {v : Var V} (hv : v.Active nact) (s s₀ : Env H V) (x : V) {j : Nat} (hj : nact ≤ j) :
    (s.assign nil nact store (placeOf nact s₀ v) x).regs j = s.regs j := by
  cases v with
  | loc r =>
    have hv : r < nact := hv
    exact Function.update_of_ne (by omega) ..
  | upval u => rfl
  | _ => exact if_pos hj

theorem storeTop_spec (nil : V) (nact : Nat) (store : V → V → V → Env H V → Env H V) (fs : FuncState H V) (v : Var V)
    (s : Env H V) :
    ∃ i, (storeTop fs v).code = fs.code ++ [i] ∧
      step nil nact store s i = s.assign nil nact store (placeOf nact s v) (s.regs (fs.freereg - 1)) ∧
      (storeTop fs v).freereg = fs.freereg - 1 := by
  cases v <;> exact ⟨_, rfl, by simp only [step, placeOf, Env.assign, val_refOf, Ref.val_value, Ref.val_upval,
    Src.val], rfl⟩

/-- The stores from the last target to the first, with the values on the top. -/
theorem stores_spec (store : V → V → V → Env H V → Env H V) (s₀ : Env H V) (lh : List (Var V)) : ∀ {fs : FuncState H V}
    {s : Env H V} {free : Nat} {vs : List V},
    nact ≤ free → vs.length = lh.length → fs.freereg = free + lh.length → At s.regs free vs.reverse →
    (∀ w ∈ lh, w.Active nact) → (∀ j, nact ≤ j → s.regs j = s₀.regs j) →
    ∃ is, (lh.foldl storeTop fs).code = fs.code ++ is ∧
      exec nil nact store s is = s.assignAll nil nact store ((lh.map (placeOf nact s₀)).zip vs) := by
  induction lh with
  | nil => exact fun _ _ _ _ _ _ => ⟨[], (List.append_nil _).symm, rfl⟩
  | cons v lh ih =>
    intro fs s free vs hnact hlen hfree hat hact hsame
    obtain ⟨x, vs, rfl⟩ : ∃ x vs', vs = x :: vs' := List.exists_cons_of_length_eq_add_one hlen
    rw [List.length_cons, List.length_cons] at hlen
    rw [List.length_cons] at hfree
    rw [List.reverse_cons] at hat
    obtain ⟨hat, htop⟩ := at_append.mp hat
    rw [List.length_reverse] at htop
    have hv := hact v List.mem_cons_self
    obtain ⟨i, hcode, hstep, hfree'⟩ := storeTop_spec nil nact store fs v s
    have hx : s.regs (fs.freereg - 1) = x := by
      rw [show fs.freereg - 1 = free + vs.length by omega]
      exact htop 0 x rfl
    rw [hx, placeOf_congr hsame] at hstep
    obtain ⟨is, hcode', hrun⟩ := ih hnact (show vs.length = lh.length by omega)
      (show (storeTop fs v).freereg = free + lh.length by omega)
      (hat.congr fun j hj _ => temps_assign hv s s₀ x (by omega)) (fun w hw => hact w (List.mem_cons_of_mem _ hw))
      (fun j hj => (temps_assign hv s s₀ x hj).trans (hsame j hj))
    refine ⟨i :: is, ?_, ?_⟩
    · rw [List.foldl_cons, hcode', hcode, List.append_assoc]
      rfl
    · rw [exec, List.foldl_cons, hstep]
      exact hrun

/-- The last expression goes to the last target at once, which is evaluated before. -/
theorem storevar_spec (store : V → V → V → Env H V → Env H V) {h : Hist H V} {s : Env H V} {fs : FuncState H V}
    (hnact : nact ≤ fs.freereg)
    (hview : s.view nil nact = h.cur.view nil nact) {v : Var V} (hv : v.Active nact) {last : Exp H V}
    (hact : last.Active nact) :
    ∃ (is : List (Instr H V)) (s₁ : Env H V), (storevar nil fs v last).code = fs.code ++ is ∧
      exec nil nact store s is = s₁.assign nil nact store (placeOf nact s₁ v) ((evalAll nil nact h last).2.headD nil) ∧
      (storevar nil fs v last).freereg = fs.freereg ∧
      s₁.view nil nact = (evalAll nil nact h last).1.cur.view nil nact ∧
      (∀ env, h.Seen env → (evalAll nil nact h last).1.Seen env) ∧
      ∀ j, nact ≤ j → j < fs.freereg → s₁.regs j = s.regs j := by
  -- an expression in a register of its own
  have htop (e : Eval H V V) : ∃ (is : List (Instr H V)) (s₁ : Env H V),
      (storeTop (fs.eval e) v).code = fs.code ++ is ∧
      exec nil nact store s is = s₁.assign nil nact store (placeOf nact s₁ v) (h.eval nil nact e).2 ∧
      (storeTop (fs.eval e) v).freereg = fs.freereg ∧ s₁.view nil nact = (h.eval nil nact e).1.cur.view nil nact ∧
      (∀ env, h.Seen env → (h.eval nil nact e).1.Seen env) ∧
      ∀ j, nact ≤ j → j < fs.freereg → s₁.regs j = s.regs j := by
    obtain ⟨s₁, hg, hval⟩ := eval_grows store hnact hview e
    obtain ⟨is, hcode, hrun⟩ := hg.runs
    obtain ⟨i, hcode', hstep, hfree⟩ := storeTop_spec nil nact store (fs.eval e) v s₁
    refine ⟨is ++ [i], s₁, ?_, ?_, hfree, hg.view, hg.seen, hg.keeps⟩
    · rw [hcode', hcode, List.append_assoc]
    · rw [exec, List.foldl_append, show List.foldl _ s is = s₁ from hrun]
      refine hstep.trans ?_
      rw [show (fs.eval e).freereg - 1 = fs.freereg from rfl, hval]
  -- an expression whose code writes the variable
  have hdirect (e : Eval H V V) (r : Nat) (hr : r < nact) :
      ∃ s₁ : Env H V, step nil nact store s (.eval r fs.freereg e) = s₁.assign nil nact store (.loc r) (h.eval nil nact e).2 ∧
        s₁.view nil nact = (h.eval nil nact e).1.cur.view nil nact ∧
        ∀ j, nact ≤ j → j < fs.freereg → s₁.regs j = s.regs j := by
    refine ⟨after nact s (h.eval nil nact e).1.cur r fs.freereg [], ?_, view_eq (fun i hi => ?_) rfl rfl,
      fun j hj hj' => ?_⟩
    · rw [step, hview]
      rfl
    · exact if_neg (by omega)
    · exact if_pos ⟨hj, hj'⟩
  -- a value that is there already
  have hthere {i : Instr H V} (x : V) (hx : (evalAll nil nact h last).2.headD nil = x)
      (hh : (evalAll nil nact h last).1 = h) (hcode : storevar nil fs v last = fs.emit i)
      (hstep : step nil nact store s i = s.assign nil nact store (placeOf nact s v) x) :
      ∃ (is : List (Instr H V)) (s₁ : Env H V), (storevar nil fs v last).code = fs.code ++ is ∧
        exec nil nact store s is = s₁.assign nil nact store (placeOf nact s₁ v) ((evalAll nil nact h last).2.headD nil) ∧
        (storevar nil fs v last).freereg = fs.freereg ∧
        s₁.view nil nact = (evalAll nil nact h last).1.cur.view nil nact ∧
        (∀ env, h.Seen env → (evalAll nil nact h last).1.Seen env) ∧
        ∀ j, nact ≤ j → j < fs.freereg → s₁.regs j = s.regs j := by
    rw [hx, hh, hcode]
    exact ⟨[i], s, rfl, hstep, rfl, hview, fun _ h => h, fun _ _ _ => rfl⟩
  cases last with
  | const c =>
    cases v with
    | upval u =>
      refine ⟨[.load fs.freereg c, .setupval fs.freereg u], { s with regs := Function.update s.regs fs.freereg c },
        List.append_assoc .., ?_, rfl, (view_update hnact c).trans hview, fun _ h => h,
        fun j _ hj => Function.update_of_ne (by omega) ..⟩
      show (⟨_, Function.update s.ups u (Function.update s.regs fs.freereg c fs.freereg), _⟩ : Env H V) = _
      rw [Function.update_self]
      rfl
    | loc ridx => exact hthere c rfl rfl rfl rfl
    | _ => exact hthere c rfl rfl rfl (by
        simp only [step, placeOf, Env.assign, val_refOf, Ref.val_value, Ref.val_upval, Src.val])
  | loc r =>
    have hx : s.regs r = h.cur.regs r := (regs_of_view hview).1 r hact
    cases v with
    | loc ridx => exact hthere (s.regs r) hx.symm rfl rfl rfl
    | upval info => exact hthere (s.regs r) hx.symm rfl rfl rfl
    | _ => exact hthere (s.regs r) hx.symm rfl rfl (by
        simp only [step, placeOf, Env.assign, val_refOf, Ref.val_value, Ref.val_upval, Src.val])
  | temp nonreloc e =>
    cases nonreloc with
    | true => exact htop e
    | false =>
      cases v with
      | loc r =>
        obtain ⟨s₁, hstep, hview₁, hkeep⟩ := hdirect e r hv
        exact ⟨[.eval r fs.freereg e], s₁, rfl, hstep, rfl, hview₁, seen_eval h e, hkeep⟩
      | _ => exact htop e
  | multi nonreloc e =>
    cases nonreloc with
    | true => exact htop (first nil e)
    | false =>
      cases v with
      | loc r =>
        obtain ⟨s₁, hstep, hview₁, hkeep⟩ := hdirect (first nil e) r hv
        exact ⟨[.eval r fs.freereg (first nil e)], s₁, rfl, hstep, rfl, hview₁, seen_eval h e, hkeep⟩
      | _ => exact htop (first nil e)

theorem assign_view {s s' : Env H V} (hview : s.view nil nact = s'.view nil nact) (p : Place V) (x : V) :
    (s.assign nil nact store p x).view nil nact = (s'.assign nil nact store p x).view nil nact := by
  obtain ⟨hregs, hups, hheap⟩ := regs_of_view hview
  cases p with
  | loc r =>
    refine view_eq (fun i hi => ?_) hups hheap
    show Function.update s.regs r x i = Function.update s'.regs r x i
    by_cases hir : i = r
    · rw [hir, Function.update_self, Function.update_self]
    · rw [Function.update_of_ne hir, Function.update_of_ne hir, hregs i hi]
  | upval u =>
    refine view_eq hregs ?_ hheap
    show Function.update s.ups u x = Function.update s'.ups u x
    rw [hups]
  | slot t k =>
    refine view_eq (fun i hi => ?_) ?_ ?_
    · simp only [Env.assign, Env.settable, hview, if_neg (Nat.not_le.mpr hi)]
    · simp only [Env.assign, Env.settable, hview]
    · simp only [Env.assign, Env.settable, hview]

theorem assignAll_view (l : List (Place V × V)) : ∀ {s s' : Env H V}, s.view nil nact = s'.view nil nact →
    (s.assignAll nil nact store l).view nil nact = (s'.assignAll nil nact store l).view nil nact := by
  induction l with
  | nil => exact fun h => h
  | cons a l ih => exact fun h => ih (assign_view h a.1 a.2)

end

/-! ## Places that are known before the first store -/

/-- No `__newindex` function changes the variables. -/
def Keeps (nact : Nat) (store : V → V → V → Env H V → Env H V) : Prop :=
  ∀ t k v s, (∀ r < nact, (store t k v s).regs r = s.regs r) ∧ (store t k v s).ups = s.ups

/-- The place with the table and key that it has now. -/
def Place.fix (s : Env H V) : Place V → Place V
  | .slot t k => .slot (.value (t.val s)) (.value (k.val s))
  | p => p

/-- The table and key are those of the state before. -/
def Place.Reads (nil : V) (nact : Nat) (s s₀ : Env H V) : Place V → Prop
  | .slot t k => t.val (s.view nil nact) = t.val s₀ ∧ k.val (s.view nil nact) = k.val s₀
  | _ => True

section

variable {nil : V} {nact : Nat} {store : V → V → V → Env H V → Env H V}

theorem reads_placeOf (nil : V) (s s' : Env H V) (v : Var V) : (placeOf nact s' v).Reads nil nact s s := by
  have href (reg : Nat) : (refOf nact s' reg).val (s.view nil nact) = (refOf nact s' reg).val s := by
    unfold refOf
    split_ifs with hreg
    · exact if_pos hreg
    · rfl
  cases v with
  | indexed t i => exact ⟨href t, href i⟩
  | indexup u k => exact ⟨rfl, rfl⟩
  | indexi t k => exact ⟨href t, rfl⟩
  | indexstr t k => exact ⟨href t, rfl⟩
  | _ => trivial

theorem Resolves.fix {h : Hist H V} {d : Dest V} {p : Place V} (hp : Resolves h d p) :
    Resolves h d (p.fix h.cur) ∧ (p.fix h.cur).Fixed := by
  have href {ref ref' : Ref V} (hr : ref.Becomes h ref') : ref.Becomes h (.value (ref'.val h.cur)) := by
    rcases hr with rfl | ⟨v, rfl, had⟩
    · refine .inr ⟨_, rfl, ?_⟩
      cases ref' with
      | value v => rfl
      | _ => exact ⟨h.cur, .inl rfl, rfl⟩
    · exact .inr ⟨v, rfl, had⟩
  cases hp with
  | loc r => exact ⟨.loc r, trivial⟩
  | upval u => exact ⟨.upval u, trivial⟩
  | slot ht hk => exact ⟨.slot (href ht) (href hk), _, _, rfl, rfl⟩

/-- An assignment to a place keeps what others read. -/
theorem Place.Reads.assign (hkeeps : Keeps nact store) {p q : Place V} (hapart : Apart p q) {s s₀ : Env H V}
    (hq : q.Reads nil nact s s₀) (x : V) : q.Reads nil nact (s.assign nil nact store p x) s₀ := by
  cases q with
  | loc r => trivial
  | upval u => trivial
  | slot t k =>
    have hsame {ref : Ref V} (hloc : ∀ r, p = .loc r → ref ≠ .loc r) (hup : ∀ u, p = .upval u → ref ≠ .upval u) :
        ref.val ((s.assign nil nact store p x).view nil nact) = ref.val (s.view nil nact) := by
      cases ref with
      | value v => rfl
      | loc r =>
        show (if r < nact then _ else nil) = if r < nact then s.regs r else nil
        split_ifs with hr
        · cases p with
          | loc r' =>
            refine Function.update_of_ne ?_ ..
            rintro rfl
            exact hloc r rfl rfl
          | upval u => rfl
          | slot t k => exact (if_neg (Nat.not_le.mpr hr)).trans (((hkeeps _ _ _ _).1 r hr).trans (if_pos hr))
        · rfl
      | upval u =>
        cases p with
        | loc r => rfl
        | upval u' =>
          refine Function.update_of_ne ?_ ..
          rintro rfl
          exact hup u rfl rfl
        | slot t k => exact congrFun (hkeeps _ _ _ _).2 u
    obtain ⟨ht, hk⟩ := hq
    refine ⟨(hsame ?_ ?_).trans ht, (hsame ?_ ?_).trans hk⟩ <;> rintro n rfl
    · exact hapart.1
    · exact hapart.1
    · exact hapart.2
    · exact hapart.2

/-- The places are those before the first store, unless a `__newindex` function changes a variable. -/
theorem assignAll_fix (hkeeps : Keeps nact store) {s₀ : Env H V} (places : List (Place V)) :
    ∀ {s : Env H V} {vs : List V}, places.Pairwise Apart → (∀ p ∈ places, p.Reads nil nact s s₀) →
    s.assignAll nil nact store (places.zip vs) = s.assignAll nil nact store ((places.map (Place.fix s₀)).zip vs) := by
  induction places with
  | nil => exact fun _ _ => rfl
  | cons p places ih =>
    intro s vs hapart hreads
    cases vs with
    | nil => rfl
    | cons v vs =>
      obtain ⟨hfirst, hrest⟩ := List.pairwise_cons.mp hapart
      have hp : s.assign nil nact store (p.fix s₀) v = s.assign nil nact store p v := by
        have hread := hreads p List.mem_cons_self
        cases p with
        | slot t k => exact (congrArg₂ (fun t k => s.settable nil nact store t k v) hread.1 hread.2).symm
        | _ => rfl
      show (s.assign nil nact store p v).assignAll nil nact store _ =
        (s.assign nil nact store (p.fix s₀) v).assignAll nil nact store _
      rw [hp]
      exact ih hrest fun q hq => (hreads q (List.mem_cons_of_mem _ hq)).assign hkeeps (hfirst q hq) v

end

/-! ## Statements -/

section

variable (nil : V) (nact : Nat) (store : V → V → V → Env H V → Env H V)

/-- The expressions of the right side, with all values of the last. -/
def evalExps (h : Hist H V) (es : List (Exp H V)) (last : Exp H V) : Hist H V × List V :=
  let (h, vs) := evalList nil nact h [] es
  let (h, ws) := evalAll nil nact h last
  (h, vs ++ ws)

theorem stands_of_mem {α β : Type} {R : α → β → Prop} {l : List α} {l' : List β} (h : List.Forall₂ R l l') {a : α}
    (ha : a ∈ l) : ∃ b, b ∈ l' ∧ R a b := by
  induction h with
  | nil => cases ha
  | cons hab _ ih =>
    rcases List.mem_cons.mp ha with rfl | hmem
    · exact ⟨_, List.mem_cons_self, hab⟩
    · obtain ⟨b, hb, hr⟩ := ih hmem
      exact ⟨b, List.mem_cons_of_mem _ hb, hr⟩

theorem length_evalTargets (ts : List (Target H V)) : ∀ (h : Hist H V) (ds : List (Dest V)),
    (evalTargets nil nact h ds ts).2.length = ds.length + ts.length := by
  induction ts with
  | nil => exact fun _ _ => rfl
  | cons t ts ih =>
    intro h ds
    rw [evalTargets, List.length_cons]
    exact (ih _ _).trans (by rw [List.length_cons]; omega)

theorem adjust_last (vs ws : List V) :
    (adjust nil (some (vs.length + 1)) (vs ++ ws)).reverse = ws.headD nil :: vs.reverse := by
  have hone : adjust nil (some 1) ws = [ws.headD nil] := by
    cases ws with
    | nil => rfl
    | cons w ws =>
      rw [adjust, List.take_succ_cons, List.take_zero, List.length_cons, show 1 - (ws.length + 1) = 0 by omega]
      rfl
  rw [adjust_append, Nat.add_sub_cancel_left, hone, List.take_of_length_le
    (by rw [List.length_append, List.length_singleton]), List.reverse_append]
  rfl

/-- The last expression is adjusted to the number of targets, and all values are stored from the top. -/
theorem stores_adjusted {h : Hist H V} {s : Env H V} {fs : FuncState H V} {free : Nat} {vs : List V}
    (hnact : nact ≤ free) (hview : s.view nil nact = h.cur.view nil nact) {last : Exp H V} (hlast : last.Active nact)
    (hat : At s.regs free vs) (hfree : fs.freereg = free + vs.length) {lh : List (Var V)}
    (hact : ∀ w ∈ lh, w.Active nact) :
    ∃ is s', (lh.foldl storeTop (adjust_assign nil fs lh.length (vs.length + 1) last)).code = fs.code ++ is ∧
      s'.view nil nact = (evalAll nil nact h last).1.cur.view nil nact ∧
      (∀ env, h.Seen env → (evalAll nil nact h last).1.Seen env) ∧
      (∀ j, nact ≤ j → j < fs.freereg → s'.regs j = s.regs j) ∧
      (exec nil nact store s is).view nil nact = ((evalAll nil nact h last).1.cur.assignAll nil nact store
        ((lh.map (placeOf nact s')).zip
          (adjust nil (some lh.length) (vs ++ (evalAll nil nact h last).2)).reverse)).view nil nact := by
  obtain ⟨is, s', hcode, hrun, hfree', hview', hseen, hkeep, hat'⟩ :=
    adjust_assign_spec store lh.length hnact hview hlast hat hfree
  rw [← List.reverse_reverse (adjust nil (some lh.length) (vs ++ (evalAll nil nact h last).2))] at hat'
  have hlen : (adjust nil (some lh.length) (vs ++ (evalAll nil nact h last).2)).reverse.length = lh.length := by
    rw [List.length_reverse, Coroutine.length_adjust]
    rfl
  obtain ⟨is', hcode', hrun'⟩ := stores_spec store s' lh hnact hlen hfree' hat' hact
    fun _ _ => rfl
  refine ⟨is ++ is', s', ?_, hview', hseen, hkeep, ?_⟩
  · rw [hcode', hcode, List.append_assoc]
  · rw [exec, List.foldl_append, show List.foldl _ s is = s' from hrun]
    refine Eq.trans ?_ (assignAll_view _ hview')
    rw [← hrun']
    rfl

/-- With as many expressions as targets, the last one is stored without a register, and the others from the top. -/
theorem stores_exactly {h : Hist H V} {s : Env H V} {fs : FuncState H V} {free : Nat} {vs : List V}
    (hnact : nact ≤ free) (hview : s.view nil nact = h.cur.view nil nact) {last : Exp H V} (hlast : last.Active nact)
    (hat : At s.regs free vs) (hfree : fs.freereg = free + vs.length) {v : Var V} {lh : List (Var V)}
    (hlen : vs.length = lh.length) (hact : ∀ w ∈ v :: lh, w.Active nact) :
    ∃ is s', (lh.foldl storeTop (storevar nil fs v last)).code = fs.code ++ is ∧
      s'.view nil nact = (evalAll nil nact h last).1.cur.view nil nact ∧
      (∀ env, h.Seen env → (evalAll nil nact h last).1.Seen env) ∧
      (∀ j, nact ≤ j → j < fs.freereg → s'.regs j = s.regs j) ∧
      (exec nil nact store s is).view nil nact = ((evalAll nil nact h last).1.cur.assignAll nil nact store
        (((v :: lh).map (placeOf nact s')).zip
          (adjust nil (some (v :: lh).length) (vs ++ (evalAll nil nact h last).2)).reverse)).view nil nact := by
  obtain ⟨is, s', hcode, hrun, hfree', hview', hseen, hkeep⟩ :=
    storevar_spec store (show nact ≤ fs.freereg by omega) hview (hact v List.mem_cons_self) hlast
  have hat' : At (s'.assign nil nact store (placeOf nact s' v) ((evalAll nil nact h last).2.headD nil)).regs free
      vs.reverse.reverse := by
    rw [List.reverse_reverse]
    refine hat.congr fun j hj hj' => ?_
    rw [temps_assign (hact v List.mem_cons_self) s' s' _ (by omega)]
    exact hkeep j (by omega) (by omega)
  obtain ⟨is', hcode', hrun'⟩ := stores_spec store s' lh hnact
    (show vs.reverse.length = lh.length by rw [List.length_reverse, hlen]) (hfree'.trans (hlen ▸ hfree)) hat'
    (fun w hw => hact w (List.mem_cons_of_mem _ hw))
    (fun j hj => temps_assign (hact v List.mem_cons_self) s' s' _ hj)
  refine ⟨is ++ is', s', ?_, hview', hseen, hkeep, ?_⟩
  · rw [hcode', hcode, List.append_assoc]
  · rw [exec, List.foldl_append, show List.foldl _ s is = _ from hrun, List.length_cons, ← hlen, adjust_last]
    refine Eq.trans ?_ (assignAll_view _ hview')
    rw [show List.foldl _ _ is' = _ from hrun']
    rfl

/-- With another number of expressions than targets, the values are adjusted before they are stored. -/
theorem restassign_of_ne {fs : FuncState H V} {t : Target H V} {ts : List (Target H V)} {es : List (Exp H V)}
    {last : Exp H V} (h : es.length + 1 ≠ (targets fs [] (t :: ts)).2.length) :
    restassign nil fs t ts es last = (targets fs [] (t :: ts)).2.foldl storeTop
      (adjust_assign nil (explist nil (targets fs [] (t :: ts)).1 es) (targets fs [] (t :: ts)).2.length
        (es.length + 1) last) := if_pos h

/-- With as many, the last expression is stored without a register. -/
theorem restassign_of_eq {fs : FuncState H V} {t : Target H V} {ts : List (Target H V)} {es : List (Exp H V)}
    {last : Exp H V} (h : es.length + 1 = (targets fs [] (t :: ts)).2.length) {v : Var V} {lh : List (Var V)}
    (hv : (targets fs [] (t :: ts)).2 = v :: lh) :
    restassign nil fs t ts es last =
      lh.foldl storeTop (storevar nil (explist nil (targets fs [] (t :: ts)).1 es) v last) := by
  unfold restassign
  dsimp only
  rw [if_neg (not_not.mpr h), hv]

/-- A multiple assignment evaluates its targets and expressions in their order, and then assigns the values, as many as
there are targets, from the last target to the first. The table and key of a target have values of a time before, or are
variables that the statement has not assigned to when it reads them; so they have values of a time before, unless a
`__newindex` function changes a variable. -/
theorem restassign_exact (s : Env H V) (fs : FuncState H V) (hfree : nact ≤ fs.freereg) (t : Target H V)
    (ts : List (Target H V)) (es : List (Exp H V)) (last : Exp H V) (hts : ∀ t' ∈ t :: ts, t'.Active nact)
    (hes : ∀ e ∈ es, e.Active nact) (hlast : last.Active nact) :
    let targets := evalTargets nil nact ⟨s, []⟩ [] (t :: ts)
    let exps := evalExps nil nact targets.1 es last
    let values := adjust nil (some (ts.length + 1)) exps.2
    ∃ is places, (restassign nil fs t ts es last).code = fs.code ++ is ∧
      List.Forall₂ (Resolves exps.1) targets.2 places ∧ places.Pairwise Apart ∧
      (exec nil nact store s is).view nil nact =
        (exps.1.cur.assignAll nil nact store (places.zip values.reverse)).view nil nact ∧
      (Keeps nact store → ∃ fixed, List.Forall₂ (Resolves exps.1) targets.2 fixed ∧ (∀ p ∈ fixed, p.Fixed) ∧
        (exec nil nact store s is).view nil nact =
          (exps.1.cur.assignAll nil nact store (fixed.zip values.reverse)).view nil nact) := by
  intro tgts exps values
  have hp₀ : Parsed nil nact ⟨s, []⟩ s fs [] [] := ⟨rfl, hfree, .nil, .nil⟩
  obtain ⟨s₁, hg₁, hp₁⟩ := targets_spec store (t :: ts) hp₀ hts
  obtain ⟨is₁, hcode₁, hrun₁⟩ := hg₁.runs
  have hadjusted := @restassign_of_ne _ _ nil fs t ts es last
  have hstored := @restassign_of_eq _ _ nil fs t ts es last
  have hlen : (targets fs [] (t :: ts)).2.length = ts.length + 1 := by
    rw [hp₁.stands.length_eq, length_evalTargets, List.length_nil, Nat.zero_add, List.length_cons]
  generalize targets fs [] (t :: ts) = r at *
  obtain ⟨fs₁, lh⟩ := r
  have hlen : lh.length = ts.length + 1 := hlen
  have hfree₁ : nact ≤ fs₁.freereg := hp₁.free
  have hact : ∀ w ∈ lh, w.Active nact := by
    intro w hw
    obtain ⟨d, -, hstands⟩ := stands_of_mem hp₁.stands hw
    cases hstands with
    | loc hr => exact hr
    | _ => trivial
  have hempty : At s₁.regs fs₁.freereg ([] : List V) := fun k x hk => by cases hk
  obtain ⟨s₂, hg₂, hat₂, hfree₂, hlen₂⟩ := explist_spec store es hfree₁ hp₁.view hes hempty rfl
  obtain ⟨is₂, hcode₂, hrun₂⟩ := hg₂.runs
  rw [List.length_nil, Nat.zero_add] at hlen₂
  have hview₂ := hg₂.view
  have hseen₂ := hg₂.seen
  have hkeep₂ := hg₂.keeps
  have hexps : exps = ((evalAll nil nact (evalList nil nact tgts.1 [] es).1 last).1,
    (evalList nil nact tgts.1 [] es).2 ++ (evalAll nil nact (evalList nil nact tgts.1 [] es).1 last).2) := rfl
  have hvalues : values = adjust nil (some (ts.length + 1)) exps.2 := rfl
  rw [hexps] at hvalues ⊢
  generalize evalList nil nact tgts.1 [] es = r at *
  obtain ⟨h₂, vs⟩ := r
  dsimp only at hrun₁ hcode₁ hcode₂ hfree₂ hlen₂ hvalues hview₂ hseen₂ hkeep₂ hat₂ ⊢
  -- the places are those of the state before the first store
  have hplaces {s₃ : Env H V} (hseen₃ : ∀ env, h₂.Seen env → (evalAll nil nact h₂ last).1.Seen env)
      (hkeep₃ : ∀ j, nact ≤ j → j < (explist nil fs₁ es).freereg → s₃.regs j = s₂.regs j) :
      List.Forall₂ (Resolves (evalAll nil nact h₂ last).1) tgts.2 (lh.map (placeOf nact s₃)) := by
    refine List.forall₂_map_right_iff.mpr (hp₁.stands.flip.imp fun d w hw => ?_)
    refine resolves_placeOf (hw.keep (fun env henv => hseen₃ env (hseen₂ env henv)) (fun j hj hj' => ?_)
      (Nat.le_refl _))
    have hj' : j < fs₁.freereg := hj'
    exact (hkeep₃ j hj (by omega)).trans (hkeep₂ j hj hj')
  have hapart (s₃ : Env H V) : (lh.map (placeOf nact s₃)).Pairwise Apart :=
    List.pairwise_map.mpr (hp₁.clear.imp fun hc => apart_placeOf hc s₃)
  have hfixed {s₃ : Env H V} {e : Env H V} {xs : List V}
      (hplaces : List.Forall₂ (Resolves (evalAll nil nact h₂ last).1) tgts.2 (lh.map (placeOf nact s₃)))
      (hrun : e.view nil nact = ((evalAll nil nact h₂ last).1.cur.assignAll nil nact store
        ((lh.map (placeOf nact s₃)).zip xs)).view nil nact) (hkeeps : Keeps nact store) :
      ∃ fixed, List.Forall₂ (Resolves (evalAll nil nact h₂ last).1) tgts.2 fixed ∧ (∀ p ∈ fixed, p.Fixed) ∧
        e.view nil nact = ((evalAll nil nact h₂ last).1.cur.assignAll nil nact store (fixed.zip xs)).view nil nact := by
    refine ⟨(lh.map (placeOf nact s₃)).map (Place.fix (evalAll nil nact h₂ last).1.cur), ?_, fun p hp => ?_, ?_⟩
    · exact List.forall₂_map_right_iff.mpr (hplaces.imp fun _ _ hp => hp.fix.1)
    · obtain ⟨q, hq, rfl⟩ := List.mem_map.mp hp
      obtain ⟨d, -, hd⟩ := stands_of_mem hplaces.flip hq
      exact hd.fix.2
    · rw [hrun, assignAll_fix hkeeps _ (hapart s₃) fun p hp => ?_]
      obtain ⟨w, -, rfl⟩ := List.mem_map.mp hp
      exact reads_placeOf nil _ s₃ w
  have hrun : ∀ is, exec nil nact store s (is₁ ++ (is₂ ++ is)) = exec nil nact store s₂ is := by
    intro is
    rw [exec, List.foldl_append, show List.foldl _ s is₁ = s₁ from hrun₁, List.foldl_append,
      show List.foldl _ s₁ is₂ = s₂ from hrun₂]
    rfl
  rw [← hlen] at hvalues
  by_cases hcount : es.length + 1 ≠ lh.length
  · rw [hadjusted hcount, ← hlen₂, hvalues]
    obtain ⟨is₃, s₃, hcode₃, hview₃, hseen₃, hkeep₃, hrun₃⟩ :=
      stores_adjusted nil nact store hfree₁ hview₂ hlast hat₂ hfree₂ hact
    have hresolves := hplaces hseen₃ hkeep₃
    rw [← hrun is₃] at hrun₃
    refine ⟨is₁ ++ (is₂ ++ is₃), lh.map (placeOf nact s₃), ?_, hresolves, hapart s₃, hrun₃, hfixed hresolves hrun₃⟩
    rw [hcode₃, hcode₂, hcode₁, List.append_assoc, List.append_assoc]
  · rw [hvalues]
    obtain ⟨v, lh, rfl⟩ := List.exists_cons_of_length_eq_add_one hlen
    rw [hstored (not_not.mp hcount) rfl]
    rw [List.length_cons] at hcount
    obtain ⟨is₃, s₃, hcode₃, hview₃, hseen₃, hkeep₃, hrun₃⟩ :=
      stores_exactly nil nact store hfree₁ hview₂ hlast hat₂ hfree₂ (by omega) hact
    have hresolves := hplaces hseen₃ hkeep₃
    rw [← hrun is₃] at hrun₃
    refine ⟨is₁ ++ (is₂ ++ is₃), (v :: lh).map (placeOf nact s₃), ?_, hresolves, hapart s₃, hrun₃,
      hfixed hresolves hrun₃⟩
    dsimp only
    rw [hcode₃, hcode₂, hcode₁, List.append_assoc, List.append_assoc]

end

/-- Stores to tables, one after the other. -/
def record (t k v : Nat) (s : Env (List (Nat × Nat × Nat)) Nat) : Env (List (Nat × Nat × Nat)) Nat :=
  { s with heap := s.heap ++ [(t, k, v)] }

/-- `i, t[i] = i + 1, 20` stores under the old `i`. -/
example : (exec 0 2 record ⟨put (fun _ => 0) 0 [3, 7], fun _ => 0, []⟩
    (restassign 0 ⟨[], 2⟩ (.loc 0) [.index (.loc 1) (.loc 0)] [.temp false fun s => (s, s.regs 0 + 1)]
      (.const 20)).code).heap = [(7, 3, 20)] := rfl

/-- The table 8 has a `__newindex` function that sets the variable 0 to 2. -/
def setter (t k v : Nat) (s : Env (List (Nat × Nat × Nat)) Nat) : Env (List (Nat × Nat × Nat)) Nat :=
  if t = 8 then { s with regs := Function.update s.regs 0 2 } else record t k v s

/-- `t[i], a.x = 10, 20`, where `i` is 1, `t` is the table 7 and `a` the table 8. -/
def setterEnv : Env (List (Nat × Nat × Nat)) Nat := ⟨put (fun _ => 0) 0 [1, 7, 8], fun _ => 0, []⟩

def setterTargets : Hist (List (Nat × Nat × Nat)) Nat × List (Dest Nat) :=
  evalTargets 0 3 ⟨setterEnv, []⟩ [] [.index (.loc 1) (.loc 0), .index (.loc 2) (.str 5)]

/-- The key of `t[i]` is the value that `__newindex` gave `i`, and none that it had before the statement assigned. -/
theorem restassign_newindex :
    let exps := evalExps 0 3 setterTargets.1 [.const 10] (.const 20)
    ¬∃ places, List.Forall₂ (Resolves exps.1) setterTargets.2 places ∧ (∀ p ∈ places, p.Fixed) ∧
      (exec 0 3 setter setterEnv
        (restassign 0 ⟨[], 3⟩ (.index (.loc 1) (.loc 0)) [.index (.loc 2) (.str 5)] [.const 10] (.const 20)).code).heap =
        (exps.1.cur.assignAll 0 3 setter (places.zip [20, 10])).heap := by
  intro exps
  rintro ⟨places, hres, hfixed, hheap⟩
  have hseen {env : Env (List (Nat × Nat × Nat)) Nat} (h : exps.1.Seen env) : env = setterEnv := by
    rcases h with rfl | hmem
    · rfl
    · cases hmem
  have hloc {r v : Nat} (h : (Ref.loc r).Becomes exps.1 (.value v)) : v = setterEnv.regs r := by
    rcases h with heq | ⟨w, heq, env, henv, hw⟩
    · cases heq
    · cases heq
      rw [← hw, hseen henv]
  rw [show setterTargets.2 = [.slot (.loc 2) (.value 5), .slot (.loc 1) (.loc 0)] from rfl] at hres
  obtain ⟨p, ps, hp, hps, rfl⟩ := List.forall₂_cons_left_iff.mp hres
  obtain ⟨q, qs, hq, hqs, rfl⟩ := List.forall₂_cons_left_iff.mp hps
  cases hqs
  have hpfixed := hfixed p List.mem_cons_self
  have hqfixed := hfixed q (List.mem_cons_of_mem _ List.mem_cons_self)
  cases hp with
  | slot ht hk =>
    obtain ⟨tv, kv, rfl, rfl⟩ := hpfixed
    obtain rfl := hloc ht
    cases hq with
    | slot ht' hk' =>
      obtain ⟨tv', kv', rfl, rfl⟩ := hqfixed
      obtain rfl := hloc ht'
      obtain rfl := hloc hk'
      have hstored : [(7, 2, 10)] = [(7, 1, 10)] := hheap
      cases hstored

/-- `i, t[i], a.x = i + 1, 20`, where `i` is 1: the key of `t[i]` is 1, and `a.x` gets `nil`. -/
theorem restassign_exact_index :
    let targets := evalTargets 0 3 ⟨setterEnv, []⟩ [] [.loc 0, .index (.loc 1) (.loc 0), .index (.loc 2) (.str 5)]
    let exps := evalExps 0 3 targets.1 [.temp false fun s => (s, s.regs 0 + 1)] (.const 20)
    ∃ is fixed,
      (restassign 0 ⟨[], 3⟩ (.loc 0) [.index (.loc 1) (.loc 0), .index (.loc 2) (.str 5)]
        [.temp false fun s => (s, s.regs 0 + 1)] (.const 20)).code = is ∧
      List.Forall₂ (Resolves exps.1) targets.2 fixed ∧ (∀ p ∈ fixed, p.Fixed) ∧
      (exec 0 3 record setterEnv is).view 0 3 =
        (exps.1.cur.assignAll 0 3 record (fixed.zip [0, 20, 2])).view 0 3 ∧
      (exec 0 3 record setterEnv is).heap = [(8, 5, 0), (7, 1, 20)] ∧ (exec 0 3 record setterEnv is).regs 0 = 2 := by
  obtain ⟨is, places, hcode, -, -, -, hkeeps⟩ := restassign_exact 0 3 record setterEnv ⟨[], 3⟩ (Nat.le_refl 3) (.loc 0)
    [.index (.loc 1) (.loc 0), .index (.loc 2) (.str 5)] [.temp false fun s => (s, s.regs 0 + 1)] (.const 20) (by
      intro t ht
      simp only [List.mem_cons, List.not_mem_nil, or_false] at ht
      rcases ht with rfl | rfl | rfl
      · exact (by decide : 0 < 3)
      · exact ⟨(by decide : 1 < 3), (by decide : 0 < 3)⟩
      · exact ⟨(by decide : 2 < 3), trivial⟩) (by
      intro e he
      rw [List.mem_singleton.mp he]
      trivial) trivial
  obtain ⟨fixed, hres, hfixed, hrun⟩ := hkeeps fun _ _ _ _ => ⟨fun _ _ => rfl, rfl⟩
  rw [List.nil_append] at hcode
  subst hcode
  exact ⟨_, fixed, rfl, hres, hfixed, hrun, rfl, rfl⟩

end Tsuki.Assign
