import Tsuki.Thread.Conversation

/-!
# What passes between a coroutine and those who resume it

In a conversation, where every future is polled until it is ready, values are passed as they should, and a later resume
finds the coroutine dead, just as long as the arities agree wherever the function returns. With futures that are dropped
too, the counts are not mixed up, and the status is right, just as long as the call that receives the results takes as
many as there are and no future that waits is dropped.

A thread that is in its phase does what the phase does, or returns (`Thread.exec_spec`). Where it returns, what its users
see is right just if the arities are related (`Lands.exact_iff`, `Lands.sound_iff`), and then the thread is in its phase
again, so that the runs are by induction on the operations (`Thread.always_iff`).
-/

namespace Tsuki.Coroutine

variable {V : Type} {nil : V} {body : V → Body V}

/-! ## Arities -/

theorem agree_iff {a n : Arity} {k : Nat} : Agree a n k ↔ Even a n k ∧ (n = none → a.getD k = k) := by
  rw [Agree, Even]
  cases a <;> cases n <;> simp [eq_comm]

theorem Agree.adjust_eq {a n : Arity} {rs : List V} (h : Agree a n rs.length) : adjust nil a rs = adjust nil n rs := by
  have hfull : adjust nil (some rs.length) rs = rs := by simp [adjust]
  rcases h with rfl | ⟨rfl, rfl⟩ | ⟨rfl, rfl⟩
  · rfl
  · exact hfull.symm
  · exact hfull

/-! ## Results -/

/-- The results are received as they were adjusted, and the top is the base again. -/
theorem Thread.finish_of_even {th : Thread V} {a n : Arity} {rs : List V} (htop : th.top = 1 + a.getD rs.length)
    (hslice : slice th.slot 1 (th.top - 1) = adjust nil a rs) (h : Even a n rs.length) :
    th.finish n = .ok ({ th with top := 1 }, .finished (adjust nil a rs)) := by
  rw [← hslice]
  unfold Thread.finish
  split
  · rfl
  · have hzero := h 0 rfl
    rw [htop, hzero, show (1 : Nat) = th.top by omega, Nat.add_sub_cancel_left]
    rfl
  · rename_i k _
    have hk := h k rfl
    rw [Thread.sub, if_pos (by omega), htop, hk, Nat.add_sub_cancel, Nat.add_sub_cancel_left]
    rfl

theorem Thread.even_of_finish {th th' : Thread V} {a n : Arity} {k : Nat} {out : Outcome V}
    (htop : th.top = 1 + a.getD k) (hfin : th.finish n = .ok (th', out)) (hone : th'.top = 1) : Even a n k := by
  intro m hm
  obtain rfl := hm
  unfold Thread.finish at hfin
  split at hfin
  · rename_i h
    cases h
  · obtain ⟨rfl, -⟩ := Prod.mk.inj (Except.ok.inj hfin)
    rename_i h
    obtain rfl := Option.some.inj h
    omega
  · rename_i h
    obtain rfl := Option.some.inj h
    rw [Thread.sub] at hfin
    by_cases hm : m ≤ th.top
    · rw [if_pos hm] at hfin
      obtain ⟨rfl, -⟩ := Prod.mk.inj (Except.ok.inj hfin)
      have : th.top - m = 1 := hone
      omega
    · rw [if_neg hm] at hfin
      cases hfin

/-- The thread is dead once the results are taken, where there are as many as were expected. -/
theorem Lands.rel {r : Except Stop (Thread V × Outcome V)} {p : Phase V × Outcome V} {a n : Arity} {k : Nat}
    (h : Lands nil r p a n k) (heven : Even a n k) :
    ∃ th' rs, r = .ok (th', .finished (adjust nil a rs)) ∧ p.2 = .finished (adjust nil n rs) ∧ rs.length = k ∧ Rel th' p.1 := by
  obtain ⟨th, rs, hci, hp, hy, hb, rfl, htop, hslice, rfl, rfl⟩ := h
  exact ⟨_, rs, Thread.finish_of_even htop hslice heven, rfl, rfl, rfl, hci, hp, hy, hb⟩

/-- What holds where a thread follows its phase, and where it returns just if the arities are related, holds in an
operation that drops no future that waits just if it relates them so. -/
theorem relates_iff {R : Arity → Arity → Nat → Prop} {Q : Except Stop (Thread V × Outcome V) → Phase V × Outcome V → Prop}
    (hfollows : ∀ {r p}, Follows r p → Q r p) (hlands : ∀ {r p a n k}, Lands nil r p a n k → (Q r p ↔ R a n k))
    {th : Thread V} {ph : Phase V} (h : Rel th ph) {op : Op V} (hdrop : ¬ph.Drops op) :
    Q (th.exec nil body op) (ph.exec nil body op) ↔ ph.Relates nil body R op := by
  have hspec : Ends nil (th.exec nil body op) _ _ := Thread.exec_spec h op hdrop
  rw [Phase.Relates]
  cases hret : ph.returns nil body op with
  | none =>
    rw [hret] at hspec
    exact iff_of_true (hfollows hspec) (fun a n k hk => nomatch hk)
  | some x =>
    obtain ⟨a, n, k⟩ := x
    rw [hret] at hspec
    rw [hlands hspec]
    constructor
    · intro hr a' n' k' heq
      cases heq
      exact hr
    · exact fun hr => hr a n k rfl

/-- The drop of a future that waits breaks what puts the top at the base just where the coroutine is dead. -/
theorem keeps_iff {R : Arity → Arity → Nat → Prop} {Q : Except Stop (Thread V × Outcome V) → Phase V × Outcome V → Prop}
    (hfollows : ∀ {r p}, Follows r p → Q r p) (hlands : ∀ {r p a n k}, Lands nil r p a n k → (Q r p ↔ R a n k))
    (htop : ∀ {th' out p}, Q (.ok (th', out)) p → (th'.top = 1 ↔ p.1 = .dead)) {th : Thread V} {ph : Phase V}
    (h : Rel th ph) (op : Op V) : Q (th.exec nil body op) (ph.exec nil body op) ↔ ph.Keeps nil body R op := by
  by_cases hdrop : ph.Drops op
  · refine iff_of_false (fun hq => ?_) (fun hk => hk.1 hdrop)
    cases ph with
    | waiting f given a n =>
      cases op with
      | drop =>
        have hone : th.top = 1 := (htop hq).mpr rfl
        have hlow := h.2.1
        omega
      | _ => exact hdrop
    | _ => exact hdrop
  · rw [Phase.Keeps, and_iff_right hdrop]
    exact relates_iff hfollows hlands h hdrop

/-- A thread stays in its phase where the results are as many as are taken. -/
theorem relates_rel {R : Arity → Arity → Nat → Prop} (heven : ∀ {a n k}, R a n k → Even a n k) {th : Thread V}
    {ph : Phase V} (h : Rel th ph) {op : Op V} (hdrop : ¬ph.Drops op) (hk : ph.Relates nil body R op) :
    ∃ th' out, th.exec nil body op = .ok (th', out) ∧ Rel th' (ph.exec nil body op).1 := by
  have hspec : Ends nil (th.exec nil body op) _ _ := Thread.exec_spec h op hdrop
  cases hret : ph.returns nil body op with
  | none =>
    rw [hret] at hspec
    obtain ⟨th', hr, hrel⟩ := hspec
    exact ⟨th', _, hr, hrel⟩
  | some x =>
    obtain ⟨a, n, k⟩ := x
    rw [hret] at hspec
    obtain ⟨th', rs, hr, -, -, hrel⟩ := Lands.rel hspec (heven (hk a n k hret))
    exact ⟨th', _, hr, hrel⟩

theorem Call.not_drops (ph : Phase V) {calls : List (Call V)} {op : Op V} (hop : op ∈ calls.map Call.op) : ¬ph.Drops op := by
  obtain ⟨call, -, rfl⟩ := List.mem_map.mp hop
  cases ph <;> cases call <;> exact id

/-! ## What is transferred -/

/-- What is true of a thread in the phase for all that its users can see: the top is not below the base, it is the base
just where the coroutine is dead, and the function that waits was given what it should. -/
def Thread.Shows (th : Thread V) (ph : Phase V) : Prop :=
  1 ≤ th.top ∧ (th.top = 1 ↔ ph = .dead) ∧ ∀ given ∈ ph.given, th.pending.map Future.given = some given

theorem Rel.shows {th : Thread V} {ph : Phase V} (h : Rel th ph) : th.Shows ph := by
  refine ⟨?_, h.dead_iff, fun given hg => ?_⟩
  · rcases h.top with ⟨-, htop⟩ | ⟨-, htop⟩ <;> omega
  · cases ph with
    | dead => cases hg
    | ready f => cases hg
    | yielded f given' wanted a =>
      obtain ⟨ci, rest, -, -, -, -, hp, -⟩ := h
      rw [hp, ← Option.some.inj hg]
      rfl
    | waiting f given' a n =>
      obtain ⟨-, -, hp, -⟩ := h
      rw [hp, ← Option.some.inj hg]
      rfl

/-- The operation gives what it should, and leaves the thread as it should be. -/
def Exact (r : Except Stop (Thread V × Outcome V)) (p : Phase V × Outcome V) : Prop :=
  ∃ th', r = .ok (th', p.2) ∧ th'.Shows p.1

theorem Lands.exact_iff {r : Except Stop (Thread V × Outcome V)} {p : Phase V × Outcome V} {a n : Arity} {k : Nat}
    (h : Lands nil r p a n k) : Exact r p ↔ Agree a n k := by
  constructor
  · rintro ⟨th', hr, -, hdead, -⟩
    obtain ⟨th, rs, -, -, -, -, rfl, htop, hslice, rfl, rfl⟩ := h
    refine agree_iff.mpr ⟨Thread.even_of_finish htop hr (hdead.mpr rfl), ?_⟩
    rintro rfl
    obtain ⟨-, hout⟩ := Prod.mk.inj (Except.ok.inj hr)
    have hlen := congrArg List.length (hslice.symm.trans (Outcome.finished.inj hout))
    rwa [length_adjust, length_adjust] at hlen
  · intro hagree
    obtain ⟨th', rs, hr, hp, rfl, hrel⟩ := h.rel (agree_iff.mp hagree).1
    exact ⟨th', by rw [hr, hp, hagree.adjust_eq], hrel.shows⟩

/-- In every conversation, every operation gives what it should and leaves the thread as it should be just if, wherever
the function returns, the arities of the call that started it and of the one that receives the results agree. -/
theorem transfer_exact_iff (calls : List (Call V)) :
    (Thread.new nil).Always nil body Exact .dead (calls.map Call.op) ↔
      Phase.Always nil body (Phase.Relates nil body Agree) .dead (calls.map Call.op) := by
  refine Thread.always_iff (calls.map Call.op) (fun th ph op hop h => ?_) (fun th ph op hop h hk => ?_) rel_new
  · have hfollows {r : Except Stop (Thread V × Outcome V)} {p : Phase V × Outcome V} (hf : Follows r p) : Exact r p := by
      obtain ⟨th', hr, hrel⟩ := hf
      exact ⟨th', hr, hrel.shows⟩
    exact relates_iff hfollows Lands.exact_iff h (Call.not_drops ph hop)
  · exact relates_rel (fun hagree => (agree_iff.mp hagree).1) h (Call.not_drops ph hop) hk

/-- A function that yields nothing, and then returns 7. -/
def once (_ : Nat) (given : List (Input Nat)) : Action Nat :=
  if given.length = 1 then .yield [] 9 [] [] none else .ret [] [7]

/-- A call for one result starts it and a call that discards the results receives them: the coroutine has finished, but
the next call does not find it dead. -/
theorem finished_not_dead :
    ∃ th : Thread Nat, (Thread.new 0).exec 0 once (.setEntry 5 true) >>= (fun r => r.1.exec 0 once (.resume [] (some 1) true))
        >>= (fun r => r.1.exec 0 once (.resume [] (some 0) true)) = .ok (th, .finished []) ∧ th.top = 2 ∧
      ¬(Thread.new 0).Always 0 once Exact .dead
        ([.setEntry 5 true, .resume [] (some 1) true, .resume [] (some 0) true].map Call.op) := by
  refine ⟨_, rfl, rfl, ?_⟩
  rintro ⟨-, h⟩
  obtain ⟨-, h⟩ := h _ _ rfl
  obtain ⟨⟨th', hr, -, hdead, -⟩, -⟩ := h _ _ rfl
  have hone := hdead.mpr rfl
  obtain ⟨rfl, -⟩ := Prod.mk.inj (Except.ok.inj hr)
  exact absurd hone (by decide)

/-! ## The handshake -/

/-- The results of operations are alike: the same, but for the values that a function returns. -/
def Alike : Outcome V → Outcome V → Prop
  | .finished _, .finished _ => True
  | out, out' => out = out'

theorem Alike.refl (out : Outcome V) : Alike out out := by
  cases out <;> first | rfl | trivial

/-- No count is found that is not the invoker's own, the one that is needed is found, none is left, the status is
right, and the thread is otherwise as it should be. -/
def Sound (r : Except Stop (Thread V × Outcome V)) (p : Phase V × Outcome V) : Prop :=
  ∃ th' out, r = .ok (th', out) ∧ Alike out p.2 ∧ th'.yielding = none ∧ th'.status = p.1.status ∧ th'.Shows p.1

theorem Rel.yielding {th : Thread V} {ph : Phase V} (h : Rel th ph) : th.yielding = none := by
  cases ph with
  | dead => exact h.2.2.2.1
  | ready f => exact h.2.2.2.1
  | yielded f given wanted a =>
    obtain ⟨ci, rest, -, -, -, -, -, hy, -⟩ := h
    exact hy
  | waiting f given a n => exact h.2.2.2.1

theorem Rel.status {th : Thread V} {ph : Phase V} (h : Rel th ph) : th.status = ph.status := by
  unfold Thread.status
  cases ph with
  | dead =>
    rw [if_neg (not_not_intro h.2.1), if_pos h.1]
    rfl
  | ready f =>
    obtain ⟨htop, -, hci, -⟩ := h
    rw [if_neg (not_not_intro hci), if_neg (by omega)]
    rfl
  | yielded f given wanted a =>
    obtain ⟨ci, rest, hci, -, -, -, hp, -, hb⟩ := h
    rw [if_pos (by simp [hci]), if_pos (by simp [hb, hp])]
    rfl
  | waiting f given a n =>
    obtain ⟨hci, -, -, -, hb⟩ := h
    rw [if_pos hci, if_neg (by simp [hb])]
    rfl

theorem Rel.sound {th' : Thread V} {p : Phase V × Outcome V} (h : Rel th' p.1) {out : Outcome V} (hout : Alike out p.2) :
    Sound (.ok (th', out)) p :=
  ⟨th', out, rfl, hout, h.yielding, h.status, h.shows⟩

theorem Lands.sound_iff {r : Except Stop (Thread V × Outcome V)} {p : Phase V × Outcome V} {a n : Arity} {k : Nat}
    (h : Lands nil r p a n k) : Sound r p ↔ Even a n k := by
  constructor
  · rintro ⟨th', out, hr, -, -, -, -, hdead, -⟩
    obtain ⟨th, rs, -, -, -, -, rfl, htop, -, rfl, rfl⟩ := h
    exact Thread.even_of_finish htop hr (hdead.mpr rfl)
  · intro heven
    obtain ⟨th', rs, hr, hp, -, hrel⟩ := h.rel heven
    rw [hr]
    exact hrel.sound (by rw [hp]; trivial)

/-- In every run, the counts are never mixed up, none is left, and the status is right just if the call that receives
the results takes as many as there are wherever the function returns, and no future that waits is dropped. -/
theorem handshake_sound_iff (ops : List (Op V)) :
    (Thread.new nil).Always nil body Sound .dead ops ↔ Phase.Always nil body (Phase.Keeps nil body Even) .dead ops := by
  refine Thread.always_iff ops (fun th ph op _ h => ?_) (fun th ph op _ h hk => ?_) rel_new
  · apply keeps_iff _ Lands.sound_iff _ h
    · rintro r p ⟨th', rfl, hrel⟩
      exact hrel.sound (Alike.refl _)
    · rintro th' out p ⟨th'', out', hr, -, -, -, -, hdead, -⟩
      obtain ⟨rfl, -⟩ := Prod.mk.inj (Except.ok.inj hr)
      exact hdead
  · exact relates_rel id h hk.1 hk.2

/-- Function 5 waits, others yield nothing. -/
def waits (f : Nat) (_ : List (Input Nat)) : Action Nat :=
  if f = 5 then .wait [] 9 [] else .yield [] 9 [] [] none

/-- A future is dropped that waits: the status is then wrong, and the count of the next call is left over for the entry
that is run after it. -/
theorem dropped_confused :
    (∃ th : Thread Nat, (Thread.new 0).exec 0 waits (.setEntry 5 true)
        >>= (fun r => r.1.exec 0 waits (.asyncResume [] none true)) >>= (fun r => r.1.exec 0 waits .drop) =
          .ok (th, .done) ∧ th.status = .suspended ∧
      th.exec 0 waits (.resume [1] none true) >>= (fun r => r.1.exec 0 waits (.setEntry 6 true))
        >>= (fun r => r.1.exec 0 waits (.resume [] none true)) = .error .confused) ∧
      ¬(Thread.new 0).Always 0 waits Sound .dead [.setEntry 5 true, .asyncResume [] none true, .drop] := by
  refine ⟨⟨_, rfl, rfl, rfl⟩, ?_⟩
  rintro ⟨-, h⟩
  obtain ⟨-, h⟩ := h _ _ rfl
  obtain ⟨⟨th', out, hr, -, -, hstatus, -⟩, -⟩ := h _ _ rfl
  obtain ⟨rfl, -⟩ := Prod.mk.inj (Except.ok.inj hr)
  exact absurd hstatus (by decide)

end Tsuki.Coroutine
