import Tsuki.Thread.Coroutine

/-!
# Conversations with a coroutine

In every operation that drops no future that waits, a thread does what its phase does, up to the results that are left on
the stack where the function returns.
-/

namespace Tsuki.Coroutine

variable {V : Type} {nil : V} {body : V → Body V}

/-- The thread is in the phase. -/
def Rel (th : Thread V) : Phase V → Prop
  | .dead => th.top = 1 ∧ th.ci = [] ∧ th.pending = none ∧ th.yielding = none ∧ th.borrowed = none
  | .ready f => th.top = 2 ∧ th.slot 1 = f ∧ th.ci = [] ∧ th.yielding = none ∧ th.borrowed = none
  | .yielded f given wanted a => ∃ ci rest, th.ci = ci :: rest ∧ ci.nresults = wanted ∧ 2 ≤ ci.func ∧
      th.top = ci.func + 1 ∧ th.pending = some ⟨1, a, f, given, .yielded ci⟩ ∧ th.yielding = none ∧ th.borrowed = none
  | .waiting f given a n => th.ci ≠ [] ∧ 2 ≤ th.top ∧ th.pending = some ⟨1, a, f, given, .waiting⟩ ∧
      th.yielding = none ∧ th.borrowed = some n

theorem Rel.top {th : Thread V} {ph : Phase V} (h : Rel th ph) : (ph = .dead ∧ th.top = 1) ∨ (ph ≠ .dead ∧ 2 ≤ th.top) := by
  cases ph with
  | dead => exact .inl ⟨rfl, h.1⟩
  | ready f => exact .inr ⟨(fun h => nomatch h), h.1.ge⟩
  | yielded f given wanted a =>
    obtain ⟨ci, rest, -, -, hfunc, htop, -⟩ := h
    exact .inr ⟨(fun h => nomatch h), by omega⟩
  | waiting f given a n => exact .inr ⟨(fun h => nomatch h), h.2.1⟩

theorem Rel.dead_iff {th : Thread V} {ph : Phase V} (h : Rel th ph) : th.top = 1 ↔ ph = .dead := by
  rcases h.top with ⟨rfl, htop⟩ | ⟨hph, htop⟩
  · exact iff_of_true htop rfl
  · exact iff_of_false (by omega) hph

/-! ## Results -/

/-- The stack after a return: the results, adjusted for the call that started the coroutine. -/
theorem Thread.ret_spec (th : Thread V) (a : Arity) (frame rs : List V) :
    let th' := (th.frame 1 (frame ++ rs)).poscall nil ⟨1, a⟩ rs.length []
    th'.ci = [] ∧ th'.yielding = th.yielding ∧ th'.top = 1 + a.getD rs.length ∧
      slice th'.slot 1 (th'.top - 1) = adjust nil a rs := by
  intro th'
  have htop : (th.frame 1 (frame ++ rs)).top = 2 + frame.length + rs.length := by
    simp only [Thread.frame, List.length_append]
    omega
  obtain ⟨hlen, hslice, -⟩ := moveresults_spec nil (th.frame 1 (frame ++ rs)).slot a
    (show 1 + rs.length ≤ (th.frame 1 (frame ++ rs)).top by omega)
  have hrs : slice (th.frame 1 (frame ++ rs)).slot ((th.frame 1 (frame ++ rs)).top - rs.length) rs.length = rs := by
    rw [htop, Nat.add_sub_cancel]
    exact slice_put_append th.slot 2 frame rs
  rw [hrs] at hlen hslice
  rw [length_adjust] at hlen
  exact ⟨rfl, rfl, hlen, hslice⟩

/-! ## The function goes on -/

/-- The end of `resume` and `async_resume`, once the future was polled. -/
def Thread.settle (n : Arity) (async : Bool) (r : Thread V × Poll) : Except Stop (Thread V × Outcome V) :=
  match r.2 with
  | .pending =>
    match r.1.yielding with
    | some yields => Thread.suspend { r.1 with yielding := none } yields
    | none => if async then .ok ({ r.1 with borrowed := some n }, .pending) else .error .panic
  | .error => .ok ({ r.1 with pending := none, borrowed := none }, .failed)
  | .ok => Thread.finish { r.1 with pending := none, borrowed := none } n

theorem Thread.drive_eq (th : Thread V) (fut : Future V) (n : Arity) (async : Bool) :
    th.drive nil body fut n async = th.poll nil body fut async >>= Thread.settle n async := rfl

/-- A thread does what the phase does, and goes on in the new phase. -/
def Follows (r : Except Stop (Thread V × Outcome V)) (p : Phase V × Outcome V) : Prop :=
  ∃ th', r = .ok (th', p.2) ∧ Rel th' p.1

/-- The function has returned `k` results to a call that takes `n`. -/
def Lands (nil : V) (r : Except Stop (Thread V × Outcome V)) (p : Phase V × Outcome V) (a n : Arity) (k : Nat) : Prop :=
  ∃ (th : Thread V) (rs : List V), th.ci = [] ∧ th.pending = none ∧ th.yielding = none ∧ th.borrowed = none ∧
    rs.length = k ∧ th.top = 1 + a.getD k ∧ slice th.slot 1 (th.top - 1) = adjust nil a rs ∧
    r = th.finish n ∧ p = (.dead, .finished (adjust nil n rs))

/-- Either of them. -/
def Ends (nil : V) (r : Except Stop (Thread V × Outcome V)) (p : Phase V × Outcome V) :
    Option (Arity × Arity × Nat) → Prop
  | none => Follows r p
  | some (a, n, k) => Lands nil r p a n k

/-- A function that goes on, on a thread where no count is left. -/
theorem Thread.run_spec (th : Thread V) (hyield : th.yielding = none) (f : V) (given : List (Input V)) (a n : Arity)
    (await : Await) (async : Bool) :
    let r := th.run nil body ⟨1, a, f, given, await⟩ async >>= Thread.settle n async
    let p := Phase.run nil body f given a n async
    Ends nil r p ((returns body f given).map (a, n, ·)) := by
  intro r p
  have hr : r = th.run nil body ⟨1, a, f, given, await⟩ async >>= Thread.settle n async := rfl
  have hp : p = Phase.run nil body f given a n async := rfl
  rw [Thread.run] at hr
  rw [Phase.run] at hp
  dsimp only at hr
  rw [returns]
  have raise : ∀ {th : Thread V}, th.yielding = none →
      Follows ((Except.ok (th.raise ⟨1, a, f, given, await⟩) : Except Stop _) >>= Thread.settle n async) (.dead, .failed) :=
    fun hy => ⟨_, rfl, rfl, rfl, rfl, hy, rfl⟩
  cases hact : body f given with
  | yield frame g junk vs wanted =>
    rw [hact] at hr hp
    dsimp only at hr hp ⊢
    have hy : (th.frame 1 (frame ++ g :: junk ++ vs)).yielding = none := hyield
    rw [hy] at hr
    rw [hr, hp]
    -- the yielded values are on top of the stack
    have htop : (th.frame 1 (frame ++ g :: junk ++ vs)).top = 2 + (frame ++ g :: junk).length + vs.length := by
      simp only [Thread.frame, List.length_append]
      omega
    have hvs : slice (th.frame 1 (frame ++ g :: junk ++ vs)).slot (2 + (frame ++ g :: junk).length) vs.length = vs :=
      slice_put_append th.slot 2 (frame ++ g :: junk) vs
    let ci : CallInfo := ⟨1 + 1 + frame.length, wanted⟩
    let th' : Thread V := { th.frame 1 (frame ++ g :: junk ++ vs) with
      ci := [ci, ⟨1, a⟩]
      top := ci.func + 1
      yielding := none
      pending := some ⟨1, a, f, given, .yielded ci⟩
      borrowed := none }
    refine ⟨th', ?_, ci, [⟨1, a⟩], rfl, rfl, show 2 ≤ 1 + 1 + frame.length by omega, rfl, rfl, rfl, rfl⟩
    show Thread.suspend _ vs.length = _
    rw [Thread.suspend, Thread.sub]
    dsimp only
    rw [if_pos (by omega), htop, Nat.add_sub_cancel]
    show Except.ok (_, Outcome.suspended _) = _
    rw [hvs]
  | wait frame g junk =>
    rw [hact] at hr hp
    dsimp only at hr hp ⊢
    rw [hr, hp]
    by_cases hasync : async = true
    · subst hasync
      have hy : (th.frame 1 (frame ++ g :: junk)).yielding = none := hyield
      let th' : Thread V := { th.frame 1 (frame ++ g :: junk) with
        ci := [⟨1 + 1 + frame.length, none⟩, ⟨1, a⟩]
        pending := some ⟨1, a, f, given, .waiting⟩
        borrowed := some n }
      refine ⟨th', ?_, (fun h => nomatch h), show 2 ≤ 1 + 1 + (frame ++ g :: junk).length by omega, rfl, hy, rfl⟩
      rw [if_pos rfl, if_pos rfl]
      show Thread.settle n true (_, Poll.pending) = _
      unfold Thread.settle
      simp only [hy, th']
      rfl
    · rw [if_neg hasync, if_neg hasync]
      exact raise hyield
  | ret frame rs =>
    rw [hact] at hr hp
    dsimp only at hr hp ⊢
    have hret := @Thread.ret_spec V nil th a frame rs
    dsimp only at hret
    obtain ⟨hci, hy, htop, hslice⟩ := hret
    rw [hr, hp]
    exact ⟨{ ((th.frame 1 (frame ++ rs)).poscall nil ⟨1, a⟩ rs.length []) with pending := none, borrowed := none }, rs,
      hci, rfl, hy.trans hyield, rfl, rfl, htop, hslice, rfl, rfl⟩
  | raise =>
    rw [hact] at hr hp
    dsimp only at hr hp ⊢
    rw [hr, hp]
    exact raise hyield

/-! ## Operations -/

/-- `resume` and the first poll of `async_resume`. -/
theorem Thread.resume_spec {th : Thread V} {ph : Phase V} (h : Rel th ph) (args : List V) (n : Arity)
    (room async : Bool) :
    let r := th.resume nil body args n room async
    let p := ph.resume nil body args n room async
    Ends nil r p (ph.returns nil body (.resume args n room)) := by
  intro r p
  have hr : r = th.resume nil body args n room async := rfl
  unfold Thread.resume at hr
  have hsame : ∀ out, Ends nil (Except.ok (th, out)) (ph, out) none := fun out => ⟨th, rfl, h⟩
  cases ph with
  | dead =>
    rw [if_pos h.1] at hr
    rw [hr]
    exact hsame _
  | ready f =>
    obtain ⟨htop, hf, hci, hy, hb⟩ := h
    rw [if_neg (by omega), hci] at hr
    cases room with
    | false =>
      rw [hr]
      exact hsame _
    | true =>
      dsimp only at hr
      rw [if_pos rfl, if_neg (by omega), if_neg (by rw [hb]; exact Bool.false_ne_true), Thread.drive_eq, htop, hf] at hr
      have hargs : slice (th.push args).slot 2 ((th.push args).top - 2) = args := by
        show slice (put th.slot th.top args) 2 (th.top + args.length - 2) = args
        rw [htop, Nat.add_sub_cancel_left]
        exact slice_put th.slot 2 args
      have hrun := @Thread.run_spec V nil body (th.push args) hy f [.values args] n n .start async
      have hr' : r = (th.push args).run nil body ⟨1, n, f, [.values args], .start⟩ async >>= Thread.settle n async := by
        rw [hr]
        show (th.push args).run nil body
          ⟨1, n, f, [.values (slice (th.push args).slot 2 ((th.push args).top - 2))], .start⟩ async >>= _ = _
        rw [hargs]
      rw [hr']
      exact hrun
  | yielded f given wanted a =>
    obtain ⟨ci, rest, hci, rfl, hfunc, htop, hp, hy, hb⟩ := h
    rw [if_neg (by omega), hci, hb, hp] at hr
    cases room with
    | false =>
      rw [hr]
      exact hsame _
    | true =>
      dsimp only at hr
      rw [if_neg (fun h => nomatch h), if_pos rfl, Thread.drive_eq] at hr
      -- the arguments are moved to where the results of the yield are expected
      let th₁ : Thread V := { th.push args with yielding := none }
      let th₂ := th₁.poscall nil ci args.length [⟨1, a⟩]
      have hslot : slice th₁.slot (th₁.top - args.length) args.length = args := by
        show slice (put th.slot th.top args) (th.top + args.length - args.length) args.length = args
        rw [Nat.add_sub_cancel]
        exact slice_put th.slot th.top args
      obtain ⟨-, hrs, -⟩ := moveresults_spec nil th₁.slot ci.nresults
        (show ci.func + args.length ≤ th₁.top from show ci.func + args.length ≤ th.top + args.length by omega)
      rw [hslot] at hrs
      have hrs : slice th₂.slot ci.func (th₂.top - ci.func) = adjust nil ci.nresults args := hrs
      have hrun := @Thread.run_spec V nil body th₂ rfl f (.values (adjust nil ci.nresults args) :: given) a n
        (.yielded ci) async
      have hr' : r = th₂.run nil body ⟨1, a, f, .values (adjust nil ci.nresults args) :: given, .yielded ci⟩ async >>=
          Thread.settle n async := by
        rw [hr, ← hrs]
        show (if th.top + args.length < args.length then _ else _) >>= _ = _
        rw [if_neg (by omega)]
      rw [hr']
      exact hrun
  | waiting f given a n' =>
    obtain ⟨hci, htop, hp, hy, hb⟩ := h
    obtain ⟨ci, rest, hcons⟩ := List.exists_cons_of_ne_nil hci
    rw [if_neg (by omega), hcons, hb] at hr
    rw [hr]
    exact hsame _

/-- An operation that drops no future that waits. -/
theorem Thread.exec_spec {th : Thread V} {ph : Phase V} (h : Rel th ph) (op : Op V) (hkeep : ¬ph.Drops op) :
    Ends nil (th.exec nil body op) (ph.exec nil body op) (ph.returns nil body op) := by
  have hsame : ∀ out, Ends nil (Except.ok (th, out)) (ph, out) none := fun out => ⟨th, rfl, h⟩
  cases op with
  | setEntry f room =>
    have hret : ph.returns nil body (.setEntry f room) = none := by cases ph <;> rfl
    rw [hret, Thread.exec]
    by_cases hdead : ph = .dead
    · subst hdead
      rw [if_neg (not_not_intro h.1)]
      cases room with
      | false => exact hsame _
      | true =>
        obtain ⟨htop, hci, -, hy, hb⟩ := h
        refine ⟨_, rfl, show th.top + 1 = 2 by omega, ?_, hci, hy, hb⟩
        show Function.update th.slot th.top f 1 = f
        rw [htop, Function.update_self]
    · rw [if_pos fun htop => hdead (h.dead_iff.mp htop)]
      have hp : ph.exec nil body (.setEntry f room) = (ph, .busy) := by
        cases ph <;> first | rfl | exact absurd rfl hdead
      rw [hp]
      exact hsame _
  | resume args n room => exact Thread.resume_spec h args n room false
  | asyncResume args n room =>
    have hret : ph.returns nil body (.asyncResume args n room) = ph.returns nil body (.resume args n room) := by
      cases ph <;> cases room <;> rfl
    rw [hret]
    exact Thread.resume_spec h args n room true
  | poll =>
    by_cases hwait : ∃ f given a n, ph = .waiting f given a n
    · obtain ⟨f, given, a, n, rfl⟩ := hwait
      obtain ⟨hci, htop, hp, hy, hb⟩ := h
      rw [Thread.exec, hb, hp]
      exact Thread.run_spec th hy f (.woken :: given) a n .waiting true
    · have hb : th.borrowed = none := by
        cases ph with
        | dead => exact h.2.2.2.2
        | ready f => exact h.2.2.2.2
        | yielded f given wanted a =>
          obtain ⟨ci, rest, -, -, -, -, -, -, hb⟩ := h
          exact hb
        | waiting f given a n => exact absurd ⟨f, given, a, n, rfl⟩ hwait
      have hp : ph.exec nil body .poll = (ph, .done) ∧ ph.returns nil body .poll = none := by
        cases ph with
        | waiting f given a n => exact absurd ⟨f, given, a, n, rfl⟩ hwait
        | _ => exact ⟨rfl, rfl⟩
      rw [hp.1, hp.2, Thread.exec, hb]
      exact hsame _
  | drop =>
    cases ph with
    | dead =>
      obtain ⟨htop, hci, hp, hy, -⟩ := h
      exact ⟨_, rfl, htop, hci, hp, hy, rfl⟩
    | ready f =>
      obtain ⟨htop, hf, hci, hy, -⟩ := h
      exact ⟨_, rfl, htop, hf, hci, hy, rfl⟩
    | yielded f given wanted a =>
      obtain ⟨ci, rest, hci, hres, hfunc, htop, hp, hy, -⟩ := h
      exact ⟨_, rfl, ci, rest, hci, hres, hfunc, htop, hp, hy, rfl⟩
    | waiting f given a n => exact absurd trivial hkeep

/-- A relation of operations that holds just where a condition does, and keeps the threads in their phases, holds in every
operation of a run just where the condition does. -/
theorem Thread.always_iff {P : Phase V → Op V → Prop}
    {Q : Except Stop (Thread V × Outcome V) → Phase V × Outcome V → Prop} (ops : List (Op V))
    (hiff : ∀ th ph, ∀ op ∈ ops, Rel th ph → (Q (th.exec nil body op) (ph.exec nil body op) ↔ P ph op))
    (hgo : ∀ th ph, ∀ op ∈ ops, Rel th ph → P ph op → ∃ th' out, th.exec nil body op = .ok (th', out) ∧
      Rel th' (ph.exec nil body op).1) :
    ∀ {th : Thread V} {ph : Phase V}, Rel th ph → (th.Always nil body Q ph ops ↔ ph.Always nil body P ops) := by
  induction ops with
  | nil => exact fun _ => Iff.rfl
  | cons op ops ih =>
    intro th ph h
    rw [Thread.Always, Phase.Always, hiff th ph op List.mem_cons_self h]
    apply and_congr_right
    intro hp
    obtain ⟨th', out, hr, hrel⟩ := hgo th ph op List.mem_cons_self h hp
    rw [← ih (fun th ph op hop => hiff th ph op (List.mem_cons_of_mem _ hop))
      (fun th ph op hop => hgo th ph op (List.mem_cons_of_mem _ hop)) hrel, hr]
    constructor
    · intro hrest
      exact hrest th' out rfl
    · intro hrest th'' out' heq
      obtain ⟨rfl, -⟩ := Prod.mk.inj (Except.ok.inj heq)
      exact hrest

theorem rel_new : Rel (Thread.new nil) (.dead : Phase V) := ⟨rfl, rfl, rfl, rfl, rfl⟩

end Tsuki.Coroutine
