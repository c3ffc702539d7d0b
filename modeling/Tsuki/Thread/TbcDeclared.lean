import Tsuki.Thread.TbcList
import Tsuki.Thread.Unwind

/-!
# The variables to close of a call that fails

What a call does to its variables to close, unwinding and failing methods included, are events of the stack of
variables that the list of the thread denotes: a declaration, a call of `luaF_close`, a turn of its loop and the return
of a method. The induction is on the steps of the run; the frames say which loops of `luaF_close` are under way, and a
run leaves those that it found.
-/

namespace Tsuki.Unwind

open Func (Event Frame Pending Running)

section

variable {E H V : Type} {nil : V} {tm : H → V → V × Act E H V} {p p₁ : Pending V} {l l' : List Nat}
  {frames frames' : List Frame}

/-- Events after which these variables are pending. -/
def Follows (nil : V) (p : Pending V) (l : List Nat) (frames : List Frame) : Prop :=
  ∃ (es : List (Event V)) (p' : Pending V), es.foldlM (Pending.step nil) p = some p' ∧ p'.pending = l ∧
    p'.frames = frames

theorem Follows.done (hl : p.pending = l) (hframes : p.frames = frames) : Follows nil p l frames :=
  ⟨[], p, rfl, hl, hframes⟩

theorem Follows.step {e : Event V} (h : p.step nil e = some p₁) (hfollows : Follows nil p₁ l frames) :
    Follows nil p l frames := by
  obtain ⟨es, p', hes, hp'⟩ := hfollows
  refine ⟨e :: es, p', ?_, hp'⟩
  rw [List.foldlM_cons, h]
  exact hes

theorem Follows.trans (h : Follows nil p l frames)
    (hnext : ∀ p₁ : Pending V, p₁.pending = l → p₁.frames = frames → Follows nil p₁ l' frames') :
    Follows nil p l' frames' := by
  obtain ⟨es, p₁, hes, hl, hframes⟩ := h
  obtain ⟨es', p', hes', hp'⟩ := hnext p₁ hl hframes
  refine ⟨es ++ es', p', ?_, hp'⟩
  rw [List.foldlM_append, hes]
  exact hes'

/-- The frames where a part of a run begins. -/
def Job.begins (frames : List Frame) : Job E H V → List Frame
  | .closeLoop level => .closing level :: frames
  | _ => frames

/-- A part of a run leaves the variables pending that events leave pending. -/
theorem run_follows (n : Nat) : ∀ {job : Job E H V} {th th' : Thread H V} {e : Option E} {cs : List (Closed E V)}
    {p : Pending V} {frames : List Frame}, run nil tm n job th = some (th', e, cs) → Running frames = true →
    p.pending = th.tbclist → p.frames = job.begins frames → Follows nil p th'.tbclist frames := by
  induction n with
  | zero =>
    intro job th th' e cs p frames h
    rw [run] at h
    cases h
  | succ n ih =>
    intro job th th' e cs p frames h hrunning hp hframes
    cases job with
    | act base a =>
      have hrun : Running p.frames = true := (congrArg Running hframes).trans hrunning
      cases a with
      | done k =>
        rw [run] at h
        split_ifs at h
        cases hclose : run nil tm n (.close base) { th with top := base + k } with
        | none => rw [hclose] at h; cases h
        | some r =>
          obtain ⟨th₁, e₁, cs₁⟩ := r
          have hfollows := ih hclose hrunning hp hframes
          rw [hclose] at h
          cases e₁ <;> cases h <;> exact hfollows
      | fail e k =>
        rw [run] at h
        split_ifs at h
        cases h
        exact .done hp hframes
      | write i v next =>
        rw [run] at h
        split_ifs at h
        exact ih h hrunning hp hframes
      | poke slot v next =>
        rw [run] at h
        exact ih h hrunning hp hframes
      | heap heap next =>
        rw [run] at h
        exact ih h hrunning hp hframes
      | capture i next =>
        rw [run] at h
        exact ih h hrunning hp hframes
      | tbc i next =>
        rw [run] at h
        split_ifs at h
        have hpush : p.step nil (.push (base + i) .closable) =
            some { p with pending := (base + i) :: p.pending, declared := (base + i) :: p.declared } := if_pos hrun
        exact .step hpush (ih h hrunning (congrArg _ hp) hframes)
      | closeTo i k next =>
        rw [run] at h
        split_ifs at h
        cases hclose : run nil tm n (.close (base + i)) { th with top := base + k } with
        | none => rw [hclose] at h; cases h
        | some r =>
          obtain ⟨th₁, e₁, cs₁⟩ := r
          have hfollows := ih hclose hrunning hp hframes
          rw [hclose] at h
          cases e₁ with
          | some e₁ => cases h; exact hfollows
          | none => exact hfollows.trans fun p₁ hp₁ hframes₁ => ih h hrunning hp₁ hframes₁
      | call i body next =>
        rw [run] at h
        split_ifs at h
        cases hcall : run nil tm n (.act (base + i + 1) body) { th with ci := (base + i) :: th.ci } with
        | none => rw [hcall] at h; cases h
        | some r =>
          obtain ⟨th₁, e₁, cs₁⟩ := r
          have hfollows := ih hcall hrunning hp hframes
          rw [hcall] at h
          cases e₁ with
          | some e₁ => cases h; exact hfollows
          | none => exact hfollows.trans fun p₁ hp₁ hframes₁ => ih h hrunning hp₁ hframes₁
      | pcall i body next =>
        rw [run] at h
        split_ifs at h
        cases hcall : run nil tm n (.call (base + i) body) th with
        | none => rw [hcall] at h; cases h
        | some r =>
          obtain ⟨th₁, e₁, cs₁⟩ := r
          have hfollows := ih hcall hrunning hp hframes
          rw [hcall] at h
          exact hfollows.trans fun p₁ hp₁ hframes₁ => ih h hrunning hp₁ hframes₁
    | close level =>
      have hrun : Running p.frames = true := (congrArg Running hframes).trans hrunning
      rw [run] at h
      have hclose : p.step nil (.close level) =
          some { p with vars := (p.vars.step nil (.close level)).1, frames := .closing level :: p.frames } :=
        if_pos hrun
      exact .step hclose (ih h hrunning hp (congrArg _ hframes))
    | closeLoop level =>
      have hclosing : p.frames = .closing level :: frames := hframes
      rw [run] at h
      cases htbc : th.tbclist with
      | nil =>
        rw [htbc] at h hp
        cases h
        have hturn : p.step nil .turn = some { p with frames := frames } := by
          rw [Pending.step, hclosing]
          dsimp only
          rw [hp]
        exact .step hturn (.done (hp.trans htbc.symm) rfl)
      | cons t rest =>
        rw [htbc] at h hp
        dsimp only at h
        by_cases hle : level ≤ t
        · have hturn : p.step nil .turn = some { p with
              pending := rest, frames := .method :: .closing level :: frames, calls := p.calls ++ [t] } := by
            rw [Pending.step, hclosing]
            dsimp only
            rw [hp]
            exact if_pos hle
          rw [if_pos hle] at h
          generalize hcall : run nil tm n (.call th.top (tm th.heap (th.slots t)).2) { th with
            tbclist := rest
            slots := Function.update (Function.update (Function.update th.slots th.top (tm th.heap (th.slots t)).1)
              (th.top + 1) (th.slots t)) (th.top + 2) nil
            top := th.top + 3 } = r at h
          rcases r with _ | ⟨th₁, e₁, cs₁⟩
          · cases h
          have hmethod : Follows nil { p with
              pending := rest, frames := .method :: .closing level :: frames, calls := p.calls ++ [t] } th₁.tbclist
              (.method :: .closing level :: frames) := ih hcall rfl rfl rfl
          cases e₁ with
          | some e₁ =>
            cases h
            refine .step hturn (hmethod.trans fun p₁ hp₁ hframes₁ => ?_)
            have hret : p₁.step nil (.ret false) = some { p₁ with frames := frames } := by
              rw [Pending.step, hframes₁]
              rfl
            exact .step hret (.done hp₁ rfl)
          | none =>
            dsimp only at h
            generalize hloop : run nil tm n (.closeLoop level) { th₁ with top := th.top } = r at h
            rcases r with _ | ⟨th₂, e₂, cs₂⟩
            · cases h
            cases h
            refine .step hturn (hmethod.trans fun p₁ hp₁ hframes₁ => ?_)
            have hret : p₁.step nil (.ret true) = some { p₁ with frames := .closing level :: frames } := by
              rw [Pending.step, hframes₁]
              rfl
            exact .step hret (ih hloop hrunning hp₁ rfl)
        · rw [if_neg hle] at h
          cases h
          have hturn : p.step nil .turn = some { p with frames := frames } := by
            rw [Pending.step, hclosing]
            dsimp only
            rw [hp]
            exact if_neg hle
          exact .step hturn (.done (hp.trans htbc.symm) rfl)
    | closeprotected level ci status =>
      rw [run] at h
      cases hclose : run nil tm n (.close level) th with
      | none => rw [hclose] at h; cases h
      | some r =>
        obtain ⟨th₁, e₁, cs₁⟩ := r
        have hfollows := ih hclose hrunning hp hframes
        rw [hclose] at h
        cases e₁ with
        | none => cases h; exact hfollows
        | some e₁ =>
          -- the method that failed is unwound, and the variables before it are closed
          dsimp only at h
          cases hagain : run nil tm n (.closeprotected level ci (some e₁)) { th₁ with ci := ci } with
          | none => rw [hagain] at h; cases h
          | some r =>
            obtain ⟨th₂, e₂, cs₂⟩ := r
            rw [hagain] at h
            cases h
            exact hfollows.trans fun p₁ hp₁ hframes₁ => ih hagain hrunning hp₁ hframes₁
    | call func body =>
      rw [run] at h
      cases hact : run nil tm n (.act (func + 1) body) { th with ci := func :: th.ci } with
      | none => rw [hact] at h; cases h
      | some r =>
        obtain ⟨th₁, e₁, cs₁⟩ := r
        have hfollows := ih hact hrunning hp hframes
        rw [hact] at h
        cases e₁ with
        | none => cases h; exact hfollows
        | some e₁ =>
          dsimp only at h
          cases hclose : run nil tm n (.closeprotected func th.ci (some e₁)) { th₁ with ci := th.ci } with
          | none => rw [hclose] at h; cases h
          | some r =>
            obtain ⟨th₂, e₂, cs₂⟩ := r
            rw [hclose] at h
            cases h
            refine hfollows.trans fun p₁ hp₁ hframes₁ => ?_
            have hnext : Follows nil p₁ th₂.tbclist frames := ih hclose hrunning hp₁ hframes₁
            exact hnext

end

end Tsuki.Unwind
