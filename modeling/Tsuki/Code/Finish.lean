import Tsuki.Code.JumpsRun

/-!
# `luaK_finish`

The last pass over the code of a function. A jump to a jump becomes a jump to where that one leads; a hundred jumps
are followed at most, and jumps may go round in a circle. No jump comes to another instruction for it. The pass is
over the places of the code one after the other: each place is finished at most once, and what is said of the finished
part does not depend on the rest. The main result puts it behind a run of operations that kept the lists proper.
-/

namespace Tsuki.Jumps

open Lib.Threads Lib.Chains

/-- What the pass looks at: `needclose`, and of the prototype `is_vararg` and `numparams`. -/
structure Fun where
  needclose : Bool
  isVararg : Bool
  numparams : Nat

/-- `finaltarget`, with the steps that are left. -/
def finaltarget (code : Code) : Nat → Nat → Rust Nat
  | 0, i => .ok i
  | n + 1, i =>
    match code[i]? with
    | some (.jmp sJ) => if 0 ≤ (i : Int) + sJ + 1 then finaltarget code n ((i : Int) + sJ + 1).toNat else .error .panic
    | some _ => .ok i
    | none => .error .panic

/-- The instructions that leave a function; `k` and `C` are set for `OP_RETURN` and `OP_TAILCALL`. -/
def finishRet (p : Fun) (op : RetOp) (a b c : Nat) (k : Bool) : Instr :=
  let full (op : RetOp) : Instr :=
    .ret op a b (if p.isVararg then p.numparams + 1 else c) (if p.needclose then true else k)
  match op with
  | .return0 | .return1 => if ¬(p.needclose ∨ p.isVararg) then .ret op a b c k else full .return_
  | .return_ | .tailcall => full op

/-- One turn of the loop of `luaK_finish`. -/
def finishTurn (p : Fun) (code : Code) (i : Nat) : Rust Code :=
  match code[i]? with
  | some (.ret op a b c k) => .ok (code.set i (finishRet p op a b c k))
  | some (.jmp _) => do
    let target ← finaltarget code 100 i
    fixjump code i target
  | some _ => .ok code
  | none => .error .panic

/-- The loop of `luaK_finish`, with the turns that are left. -/
def finishLoop (p : Fun) : Nat → Nat → Code → Rust Code
  | 0, _, code => .ok code
  | n + 1, i, code => do
    let code ← finishTurn p code i
    finishLoop p n (i + 1) code

def luaK_finish (p : Fun) (code : Code) : Rust Code := finishLoop p code.length 0 code

/-- Where a jump leads. -/
def leads (code : Code) (pc : Nat) : Option Nat :=
  match code[pc]? with
  | some (.jmp sJ) => some ((pc : Int) + 1 + sJ).toNat
  | _ => none

/-- Every jump leads to an instruction. -/
def LandsIn (code : Code) : Prop := ∀ (pc : Nat) (s : Int), code[pc]? = some (.jmp s) →
  0 ≤ (pc : Int) + 1 + s ∧ (pc : Int) + 1 + s < code.length

/-- What the pass keeps: the instructions, but for the offsets of jumps and the operands of returns. -/
def Instr.Like : Instr → Instr → Prop
  | .jmp _, .jmp _ => True
  | .ret _ a b _ _, .ret _ a' b' _ _ => a' = a ∧ b' = b
  | x, y => y = x

section

variable {code code' : Code} {i : Nat}

theorem leads_jmp {sJ : Int} (h : code[i]? = some (.jmp sJ)) : leads code i = some ((i : Int) + 1 + sJ).toNat := by
  rw [leads, h]

theorem finaltarget_eq (h : LandsIn code) (n : Nat) (hi : i < code.length) :
    ∃ t, finaltarget code n i = .ok t ∧ t < code.length ∧ Reach (leads code) i t := by
  induction n generalizing i with
  | zero => exact ⟨i, rfl, hi, .refl⟩
  | succ n ih =>
    obtain ⟨x, hx⟩ : ∃ x, code[i]? = some x := ⟨_, List.getElem?_eq_getElem hi⟩
    cases x with
    | jmp sJ =>
      obtain ⟨h0, hlt⟩ := h i sJ hx
      obtain ⟨t, ht, hin, hreach⟩ := ih (i := ((i : Int) + sJ + 1).toNat) (by omega)
      refine ⟨t, ?_, hin, ?_⟩
      · rw [finaltarget, hx]
        dsimp only
        rw [if_pos (by omega), ht]
      · exact Reach.step (by rw [leads_jmp hx, Int.add_right_comm]) hreach
    | _ => exact ⟨i, by rw [finaltarget, hx], hi, .refl⟩

/-- The first step of a jump is made, as a hundred are allowed. -/
theorem finaltarget_jmp (h : LandsIn code) (n : Nat) {sJ : Int} (hx : code[i]? = some (.jmp sJ)) :
    ∃ t j, finaltarget code (n + 1) i = .ok t ∧ t < code.length ∧ leads code i = some j ∧ Reach (leads code) j t := by
  obtain ⟨h0, hlt⟩ := h i sJ hx
  obtain ⟨t, ht, hin, hreach⟩ := finaltarget_eq (i := ((i : Int) + sJ + 1).toNat) h n (by omega)
  refine ⟨t, _, ?_, hin, leads_jmp hx, by rwa [Int.add_right_comm]⟩
  rw [finaltarget, hx]
  dsimp only
  rw [if_pos (by omega), ht]

/-- The code is as it was, but for what the pass may change, and no walk over jumps ends elsewhere. -/
structure Kept (code code' : Code) : Prop where
  length : code'.length = code.length
  like : ∀ (pc : Nat) (x : Instr), code[pc]? = some x → ∃ y, code'[pc]? = some y ∧ x.Like y
  ends : ∀ pc q, Ends (leads code') pc q ↔ Ends (leads code) pc q

theorem Instr.Like.refl (x : Instr) : x.Like x := by
  cases x <;> simp [Instr.Like]

theorem Instr.Like.trans {x y z : Instr} (h : x.Like y) (h' : y.Like z) : x.Like z := by
  cases x with
  | jmp s =>
    cases y with
    | jmp s' => cases z <;> trivial
    | _ => cases h
  | ret op a b c k =>
    cases y with
    | ret op' a' b' c' k' =>
      cases z with
      | ret op'' a'' b'' c'' k'' => exact ⟨h'.1.trans h.1, h'.2.trans h.2⟩
      | _ => cases h'
    | _ => cases h
  | _ =>
    cases h
    exact h'

theorem Kept.refl (code : Code) : Kept code code :=
  ⟨rfl, fun _ x hx => ⟨x, hx, .refl x⟩, fun _ _ => Iff.rfl⟩

theorem Kept.trans {code'' : Code} (h : Kept code code') (h' : Kept code' code'') : Kept code code'' where
  length := h'.length.trans h.length
  like pc x hx := by
    obtain ⟨y, hy, hxy⟩ := h.like pc x hx
    obtain ⟨z, hz, hyz⟩ := h'.like pc y hy
    exact ⟨z, hz, hxy.trans hyz⟩
  ends pc q := (h'.ends pc q).trans (h.ends pc q)

/-- One instruction is replaced by one that is like it. -/
theorem like_set {x y : Instr} (hx : code[i]? = some x) (hxy : x.Like y) (pc : Nat) (z : Instr)
    (hz : code[pc]? = some z) : ∃ w, (code.set i y)[pc]? = some w ∧ z.Like w := by
  by_cases hpc : i = pc
  · subst hpc
    rw [hx] at hz
    cases hz
    exact ⟨y, List.getElem?_set_self (List.getElem?_eq_some_iff.mp hx).1, hxy⟩
  · exact ⟨z, by rw [List.getElem?_set_ne hpc, hz], .refl z⟩

theorem LandsIn.set (h : LandsIn code) {y : Instr}
    (hy : ∀ sJ, y = .jmp sJ → 0 ≤ (i : Int) + 1 + sJ ∧ (i : Int) + 1 + sJ < code.length) : LandsIn (code.set i y) := by
  intro pc sJ hj
  rw [List.length_set]
  rw [List.getElem?_set] at hj
  split_ifs at hj with hpc hlt
  · subst hpc
    exact hy sJ (Option.some.inj hj)
  · exact h pc sJ hj

theorem leads_set_jmp {sJ : Int} {t : Nat} (hx : code[i]? = some (.jmp sJ)) :
    leads (code.set i (.jmp ((t : Int) - (i + 1)))) = Function.update (leads code) i (some t) := by
  funext pc
  by_cases hpc : pc = i
  · subst hpc
    rw [Function.update_self, leads, List.getElem?_set_self (List.getElem?_eq_some_iff.mp hx).1]
    exact congrArg some (by omega)
  · rw [Function.update_of_ne hpc, leads, leads, List.getElem?_set_ne (Ne.symm hpc)]

theorem leads_set_ret {op op' : RetOp} {a b c a' b' c' : Nat} {k k' : Bool}
    (hx : code[i]? = some (.ret op a b c k)) : leads (code.set i (.ret op' a' b' c' k')) = leads code := by
  funext pc
  by_cases hpc : i = pc
  · subst hpc
    rw [leads, leads, hx, List.getElem?_set_self (List.getElem?_eq_some_iff.mp hx).1]
  · rw [leads, leads, List.getElem?_set_ne hpc]

/-- A return stays a return of the same registers. -/
theorem finishRet_eq (p : Fun) (op : RetOp) (a b c : Nat) (k : Bool) :
    ∃ op' c' k', finishRet p op a b c k = .ret op' a b c' k' := by
  unfold finishRet
  cases op
  · exact ⟨_, _, _, rfl⟩
  · exact ⟨_, _, _, rfl⟩
  · dsimp only
    split_ifs <;> exact ⟨_, _, _, rfl⟩
  · dsimp only
    split_ifs <;> exact ⟨_, _, _, rfl⟩

theorem finishTurn_eq (p : Fun) (h : LandsIn code) (hi : i < code.length) :
    (finishTurn p code i = .error tooLong ∧ 16777215 < code.length) ∨
      ∃ code', finishTurn p code i = .ok code' ∧ LandsIn code' ∧ Kept code code' := by
  obtain ⟨x, hx⟩ : ∃ x, code[i]? = some x := ⟨_, List.getElem?_eq_getElem hi⟩
  cases x with
  | jmp sJ =>
    obtain ⟨t, j, ht, hin, hlead, hreach⟩ := finaltarget_jmp h 99 hx
    have hturn : finishTurn p code i = fixjump code i t := by
      rw [finishTurn, hx]
      dsimp only
      rw [ht, Rust.ok_bind]
    rw [hturn, fixjump_eq hx]
    by_cases hfit : Fits i t
    · rw [if_pos hfit]
      refine .inr ⟨_, rfl, h.set fun s hs => ?_, List.length_set, like_set hx trivial, fun pc q => ?_⟩
      · cases hs
        omega
      · rw [leads_set_jmp hx]
        exact ends_update hlead hreach pc q
    · rw [if_neg hfit]
      exact .inl ⟨rfl, Nat.lt_of_not_le fun hlen => hfit (fits_of_length hlen hi (by omega) (by omega))⟩
  | ret op a b c k =>
    obtain ⟨op', c', k', hret⟩ := finishRet_eq p op a b c k
    refine .inr ⟨code.set i (.ret op' a b c' k'), by rw [finishTurn, hx, ← hret], h.set fun _ hs => (nomatch hs),
      List.length_set, like_set hx ⟨rfl, rfl⟩, fun pc q => by rw [leads_set_ret hx]⟩
  | _ => exact .inr ⟨code, by rw [finishTurn, hx], h, .refl code⟩

theorem finishLoop_eq (p : Fun) (n : Nat) (h : LandsIn code) (hn : i + n = code.length) :
    (finishLoop p n i code = .error tooLong ∧ 16777215 < code.length) ∨
      ∃ code', finishLoop p n i code = .ok code' ∧ Kept code code' := by
  induction n generalizing i code with
  | zero => exact .inr ⟨code, rfl, .refl code⟩
  | succ n ih =>
    rw [finishLoop]
    rcases finishTurn_eq p h (i := i) (by omega) with ⟨herr, hlong⟩ | ⟨code₁, hturn, hlands, hkept⟩
    · exact .inl ⟨by rw [herr]; rfl, hlong⟩
    rw [hturn, Rust.ok_bind]
    rcases ih (i := i + 1) hlands (by rw [hkept.length]; omega) with ⟨herr, hlong⟩ | ⟨code₂, hloop, hkept'⟩
    · exact .inl ⟨herr, hkept.length ▸ hlong⟩
    · exact .inr ⟨code₂, hloop, hkept.trans hkept'⟩

/-- The return at the end is what a jump behind the code leads to. -/
theorem Lands.landsIn (h : Lands code) {r : Instr} (hr : r.isJmp = false) : LandsIn (code ++ [r]) := by
  intro pc s hs
  rw [List.length_append, List.length_singleton]
  rcases getElem?_append_cases hs with hs | ⟨-, hs⟩
  · have := h pc s hs
    omega
  · rw [← List.mem_singleton.mp (List.mem_of_getElem? hs)] at hr
    cases hr

end

/-! ## The jumps of a function -/

/-- In every state the generator comes to, each variable holds a list of jumps of its own that ends at `NO_JUMP`. Each
operation does to the code and the lists what it should, and gives up only on a code of 2^24 instructions or nearly so.
When the function is closed, with the return at its end, all walks over jumps end where they did. -/
theorem jump_lists_exact {s : Gen} (h : Reachable s) :
    (∃ L, Proper s L ∧ (∀ v, ∀ j ∈ L v, ∃ o, s.code[j]? = some (.jmp o)) ∧ ∀ op : Op, op.Ok s.code →
      (s.step op = .error tooLong ∧ 16777212 < s.code.length) ∨
        ∃ s' L', s.step op = .ok s' ∧ Proper s' L' ∧ op.Effect s.code L s'.code L') ∧
    ∀ (p : Fun) (op : RetOp) (a b c : Nat) (k : Bool),
      (luaK_finish p (s.code ++ [Instr.ret op a b c k]) = .error tooLong ∧ 16777215 ≤ s.code.length) ∨
        ∃ code', luaK_finish p (s.code ++ [Instr.ret op a b c k]) = .ok code' ∧
          Kept (s.code ++ [Instr.ret op a b c k]) code' := by
  obtain ⟨L, hL⟩ := h.proper
  refine ⟨⟨L, hL, fun _ _ => hL.jmp, fun op hok => hL.step hok⟩, fun p op a b c k => ?_⟩
  refine (finishLoop_eq p (s.code ++ [Instr.ret op a b c k]).length (hL.lands.landsIn rfl) (Nat.zero_add _)).imp_left ?_
  rintro ⟨herr, hlong⟩
  rw [List.length_append, List.length_singleton] at hlong
  exact ⟨herr, Nat.le_of_lt_succ hlong⟩

/-- `while true do end`: the jump back leads to itself, and its offset is the mark of the end of a list. -/
theorem jump_lists_exact_while :
    (∃ L, Proper ⟨[.jmp (-1)], Function.update (Function.update (fun _ => none) 0 (some 0)) 0 none⟩ L) ∧
      ∃ code', luaK_finish ⟨false, false, 0⟩ [.jmp (-1), .ret .return0 0 1 0 false] = .ok code' ∧
        Kept [.jmp (-1), .ret .return0 0 1 0 false] code' := by
  have hjump : Reachable ⟨[.jmp (-1)], Function.update (fun _ => none) 0 (some 0)⟩ :=
    @Reachable.step .start _ (.jump 0) .start trivial rfl
  have hback := jump_lists_exact (@Reachable.step _ _ (.patchlist 0 0) hjump (Nat.zero_le _) rfl)
  obtain ⟨⟨L, hL, -⟩, hfinish⟩ := hback
  rcases hfinish ⟨false, false, 0⟩ .return0 0 1 0 false with ⟨-, hlong⟩ | h
  · exact absurd hlong (by decide)
  · exact ⟨⟨L, hL⟩, h⟩

end Tsuki.Jumps
