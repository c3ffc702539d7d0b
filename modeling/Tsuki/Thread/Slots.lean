import Tsuki.Thread.Context

/-!
# The slots of a thread

What operations on the stack leave in it: the values from the bottom of the stack on, wherever the stack moves to. A call
leaves the values below its function, and in the place of the function its results, or nothing where it fails.
-/

namespace Tsuki.Results

open Coroutine (Arity adjust put slice moveresults)

variable {V : Type} {nil : V}

/-! ## The slots -/

/-- The values are in the slots from the bottom of the stack on. -/
def Thread.Below (th : Thread V) (vs : List V) : Prop := ∀ k v, vs[k]? = some v → th.mem (th.stack + k) = v

theorem Thread.Below.front {th : Thread V} {vs ws : List V} (h : th.Below (vs ++ ws)) : th.Below vs := by
  intro k v hk
  obtain ⟨hlt, -⟩ := List.getElem?_eq_some_iff.mp hk
  exact h k v (by rw [List.getElem?_append_left hlt, hk])

/-- The values that follow are in the next slots. -/
theorem Thread.Below.append {th : Thread V} {vs ws : List V} (h : th.Below vs)
    (hws : slice th.mem (th.stack + vs.length) ws.length = ws) : th.Below (vs ++ ws) := by
  intro k v hk
  by_cases hlt : k < vs.length
  · rw [List.getElem?_append_left hlt] at hk
    exact h k v hk
  · rw [List.getElem?_append_right (by omega)] at hk
    obtain ⟨hlen, rfl⟩ := List.getElem?_eq_some_iff.mp hk
    have hget := Coroutine.getElem_slice th.mem (th.stack + vs.length) ws.length
      (show k - vs.length < _ by rw [Coroutine.length_slice]; exact hlen)
    rw [show th.stack + vs.length + (k - vs.length) = th.stack + k by omega] at hget
    rw [← hget]
    exact List.getElem_of_eq hws _

theorem Thread.Below.slice {th : Thread V} {vs ws : List V} (h : th.Below (vs ++ ws)) :
    slice th.mem (th.stack + vs.length) ws.length = ws := by
  apply List.ext_getElem (Coroutine.length_slice ..)
  intro k hk hk'
  rw [Coroutine.getElem_slice, show th.stack + vs.length + k = th.stack + (vs.length + k) by omega]
  refine h _ _ ?_
  rw [List.getElem?_append_right (by omega), Nat.add_sub_cancel_left, List.getElem?_eq_getElem hk']

theorem Thread.Below.congr {th th' : Thread V} {vs : List V} (h : th.Below vs) (hstack : th'.stack = th.stack)
    (hmem : ∀ a < th.stack + vs.length, th'.mem a = th.mem a) : th'.Below vs := by
  intro k v hk
  obtain ⟨hlt, -⟩ := List.getElem?_eq_some_iff.mp hk
  rw [hstack, hmem _ (by omega)]
  exact h k v hk

theorem Thread.Below.realloc {th : Thread V} {vs : List V} (h : th.Below vs) {newsize : Nat} (b : Block V)
    (hold : vs.length ≤ th.size + 5) (hnew : vs.length ≤ newsize + 5) :
    (th.luaD_reallocstack nil newsize b).Below vs := by
  intro k v hk
  obtain ⟨hlt, -⟩ := List.getElem?_eq_some_iff.mp hk
  show (if b.addr ≤ b.addr + k ∧ b.addr + k < b.addr + (newsize + 5) then
    if b.addr + k - b.addr < th.size + 5 then th.mem (th.stack + (b.addr + k - b.addr)) else nil
    else b.rest (b.addr + k)) = v
  rw [if_pos (by omega), if_pos (by omega), Nat.add_sub_cancel_left]
  exact h k v hk

/-! ## The frame -/

variable {fo : Nat} {wanted : Arity} {prev : List CallInfo}

/-- The frame of the function at the slot `fo`, below whose limit the values are. -/
structure Thread.Base (th : Thread V) (fo : Nat) (wanted : Arity) (prev : List CallInfo) (vs : List V) : Prop where
  below : th.Below vs
  limit : vs.length ≤ th.ci.top
  size : th.ci.top ≤ th.size
  func : th.ci.func = fo
  nresults : th.ci.nresults = wanted
  previous : th.previous = prev

/-- The values are all there are. -/
structure Thread.Good (th : Thread V) (fo : Nat) (wanted : Arity) (prev : List CallInfo) (vs : List V) : Prop
    extends th.Base fo wanted prev vs where
  top : th.top = th.stack + vs.length

theorem Thread.Base.realloc {th : Thread V} {vs : List V} (h : th.Base fo wanted prev vs) {newsize : Nat} (b : Block V)
    (hnew : th.ci.top ≤ newsize) : (th.luaD_reallocstack nil newsize b).Base fo wanted prev vs := by
  have hlimit := h.limit
  have hsize := h.size
  exact ⟨h.below.realloc b (by omega) (by omega), h.limit, hnew, h.func, h.nresults, h.previous⟩

theorem le_stackinuse {cis : List CallInfo} {ci : CallInfo} (h : ci ∈ cis) : ci.top < stackinuse cis := by
  have hfold : ci.top ≤ (cis.map CallInfo.top).foldr max 0 := by
    induction cis with
    | nil => cases h
    | cons c cis ih =>
      rw [List.map_cons, List.foldr_cons]
      rcases List.mem_cons.mp h with rfl | h
      · exact Nat.le_max_left ..
      · exact Nat.le_trans (ih h) (Nat.le_max_right ..)
  unfold stackinuse
  omega

/-- The stack shrinks to no less than what the frames use. -/
theorem Thread.shrinkstack_cases (th : Thread V) (callee : List CallInfo) (b : Block V) :
    th.luaD_shrinkstack nil callee b = th ∨ ∃ newsize, stackinuse (callee ++ th.ci :: th.previous) ≤ newsize ∧
      th.luaD_shrinkstack nil callee b = th.luaD_reallocstack nil newsize b := by
  unfold Thread.luaD_shrinkstack
  generalize stackinuse (callee ++ th.ci :: th.previous) = inuse
  dsimp only
  by_cases hshrink : inuse ≤ 1000000 ∧ (if 1000000 / 3 < inuse then 1000000 else inuse * 3) < th.size
  · rw [if_pos hshrink]
    refine .inr ⟨_, ?_, rfl⟩
    split_ifs <;> omega
  · exact .inl (if_neg hshrink)

theorem Thread.Base.shrink {th : Thread V} {vs : List V} (h : th.Base fo wanted prev vs) (callee : List CallInfo)
    (b : Block V) : (th.luaD_shrinkstack nil callee b).Base fo wanted prev vs := by
  have hin : th.ci.top < stackinuse (callee ++ th.ci :: th.previous) := le_stackinuse (by simp)
  rcases @Thread.shrinkstack_cases V nil th callee b with heq | ⟨newsize, hnew, heq⟩
  · rw [heq]
    exact h
  · rw [heq]
    exact h.realloc b (by omega)

theorem Thread.Good.gcStep {th : Thread V} {vs : List V} (h : th.Good fo wanted prev vs) (b : Option (Block V)) :
    (th.gcStep nil b).Good fo wanted prev vs := by
  cases b with
  | none => exact h
  | some b =>
    refine ⟨h.toBase.shrink [] b, ?_⟩
    rcases @Thread.shrinkstack_cases V nil th [] b with heq | ⟨newsize, -, heq⟩
    · show (th.luaD_shrinkstack nil [] b).top = (th.luaD_shrinkstack nil [] b).stack + vs.length
      rw [heq]
      exact h.top
    · show (th.luaD_shrinkstack nil [] b).top = (th.luaD_shrinkstack nil [] b).stack + vs.length
      rw [heq]
      show b.addr + (th.top - th.stack) = b.addr + vs.length
      rw [h.top, Nat.add_sub_cancel_left]

/-- The stack grows to what is needed, and the values stay. -/
theorem growstack_spec {th th' : Thread V} {vs : List V} {n : Nat} {b : Block V} (h : th.Below vs)
    (htop : th.top = th.stack + vs.length) (hsize : vs.length ≤ th.size + 5)
    (hgrow : th.luaD_growstack nil n b = some th') :
    th'.Below vs ∧ th'.top = th'.stack + vs.length ∧ vs.length + n ≤ th'.size ∧ th'.ci = th.ci ∧
      th'.previous = th.previous := by
  unfold Thread.luaD_growstack at hgrow
  dsimp only at hgrow
  rw [htop, Nat.add_sub_cancel_left] at hgrow
  split_ifs at hgrow
  cases hgrow
  refine ⟨h.realloc b hsize (by omega), ?_, Nat.le_max_right .., rfl, rfl⟩
  show b.addr + (th.top - th.stack) = b.addr + vs.length
  rw [htop, Nat.add_sub_cancel_left]

/-- The condition of `lua_checkstack`: the slots are below the limit of the frame, or the stack has them, or it may grow to
as many. -/
def Thread.hasRoom (th : Thread V) (need reserve : Nat) : Bool :=
  th.top - th.stack + need ≤ th.ci.top || th.top - th.stack + max need reserve < th.size ||
    th.size ≤ 1000000 && max need reserve < 1000000 && th.top - th.stack + max need reserve ≤ 1000000

theorem Thread.isSome_checkstack {th : Thread V} (htop : th.stack ≤ th.top) (need reserve : Nat) (b : Block V) :
    (th.lua_checkstack nil need reserve b).isSome = th.hasRoom need reserve := by
  rw [Bool.eq_iff_iff, hasRoom, Bool.or_eq_true, Bool.or_eq_true, Bool.and_eq_true, Bool.and_eq_true]
  simp only [decide_eq_true_eq]
  unfold Thread.lua_checkstack
  by_cases hlimit : th.top + need ≤ th.stack + th.ci.top
  · rw [if_pos hlimit]
    exact iff_of_true rfl (.inl (.inl (by omega)))
  rw [if_neg hlimit]
  dsimp only
  rw [Option.isSome_map]
  by_cases hgrow : th.stack + th.size - th.top ≤ max need reserve
  · rw [if_pos hgrow, luaD_growstack]
    dsimp only
    split_ifs with hsize hneed hnew
    · exact iff_of_false nofun (by omega)
    · exact iff_of_true rfl (.inr ⟨⟨by omega, hneed⟩, by omega⟩)
    · exact iff_of_false nofun (by omega)
    · exact iff_of_false nofun (by omega)
  · rw [if_neg hgrow]
    exact iff_of_true rfl (.inl (.inr (by omega)))

theorem Thread.hasRoom_of_some {th th' : Thread V} (htop : th.stack ≤ th.top) {need reserve : Nat} {b : Block V}
    (hcheck : th.lua_checkstack nil need reserve b = some th') : th.hasRoom need reserve = true := by
  rw [← Thread.isSome_checkstack htop need reserve b, hcheck, Option.isSome_some]

theorem Thread.hasRoom_of_none {th : Thread V} (htop : th.stack ≤ th.top) {need reserve : Nat} {b : Block V}
    (hcheck : th.lua_checkstack nil need reserve b = none) : th.hasRoom need reserve = false := by
  rw [← Thread.isSome_checkstack htop need reserve b, hcheck, Option.isSome_none]

theorem Thread.Good.stack_le {th : Thread V} {vs : List V} (h : th.Good fo wanted prev vs) : th.stack ≤ th.top :=
  h.top ▸ Nat.le_add_right ..

/-- There is room after `lua_checkstack`. -/
theorem Thread.Good.checkstack {th th' : Thread V} {vs : List V} {need reserve : Nat} {b : Block V}
    (h : th.Good fo wanted prev vs) (hcheck : th.lua_checkstack nil need reserve b = some th') :
    th'.Good fo wanted prev vs ∧ vs.length + need ≤ th'.ci.top := by
  have htop := h.top
  have hlimit := h.limit
  have hsize := h.size
  unfold Thread.lua_checkstack at hcheck
  by_cases hroom : th.top + need ≤ th.stack + th.ci.top
  · rw [if_pos hroom] at hcheck
    cases hcheck
    exact ⟨h, by omega⟩
  · rw [if_neg hroom] at hcheck
    dsimp only at hcheck
    obtain ⟨th₁, hth₁, hcheck⟩ := Option.map_eq_some_iff.mp hcheck
    -- grown or not, there is room for what is needed
    obtain ⟨hbelow, htop₁, hsize₁, hci, hprev⟩ : th₁.Below vs ∧ th₁.top = th₁.stack + vs.length ∧
        vs.length + max need reserve ≤ th₁.size ∧ th₁.ci = th.ci ∧ th₁.previous = th.previous := by
      by_cases hgrow : th.stack + th.size - th.top ≤ max need reserve
      · rw [if_pos hgrow] at hth₁
        exact growstack_spec h.below htop (by omega) hth₁
      · rw [if_neg hgrow] at hth₁
        cases hth₁
        exact ⟨h.below, htop, by omega, rfl, rfl⟩
    have heq : th₁.top + max need reserve - th₁.stack = vs.length + max need reserve := by omega
    subst hcheck
    refine ⟨⟨⟨hbelow, ?_, ?_, ?_, ?_, hprev.trans h.previous⟩, htop₁⟩, ?_⟩
    · show vs.length ≤ th₁.top + max need reserve - th₁.stack
      omega
    · show th₁.top + max need reserve - th₁.stack ≤ th₁.size
      omega
    · show th₁.ci.func = fo
      rw [hci, h.func]
    · show th₁.ci.nresults = wanted
      rw [hci, h.nresults]
    · show vs.length + need ≤ th₁.top + max need reserve - th₁.stack
      omega

theorem slice_succ (s : Nat → V) (i n : Nat) : slice s i (n + 1) = s i :: slice s (i + 1) n := by
  apply List.ext_getElem
  · simp [Coroutine.length_slice]
  · intro k hk hk'
    cases k with
    | zero => simp
    | succ k => simp [show i + (k + 1) = i + 1 + k by omega]

theorem Thread.Good.push {th : Thread V} {vs : List V} (h : th.Good fo wanted prev vs) (v : V)
    (hroom : vs.length + 1 ≤ th.ci.top) : (th.push v).Good fo wanted prev (vs ++ [v]) := by
  have htop := h.top
  have hbelow : (th.push v).Below vs :=
    h.below.congr rfl fun a ha => Function.update_of_ne (by omega) ..
  have hlen : (vs ++ [v]).length = vs.length + 1 := by simp
  refine ⟨⟨hbelow.append ?_, hlen ▸ hroom, h.size, h.func, h.nresults, h.previous⟩, ?_⟩
  · show Coroutine.slice (Function.update th.mem th.top v) (th.stack + vs.length) 1 = [v]
    rw [slice_succ, ← htop, Function.update_self]
    rfl
  · show th.top + 1 = th.stack + (vs ++ [v]).length
    rw [htop, List.length_append, List.length_singleton]
    omega

theorem Thread.Base.pushAll {vs : List V} (ws : List V) : ∀ {th : Thread V}, th.Base fo wanted prev vs →
    th.stack + vs.length ≤ th.top →
    (th.pushAll ws).Base fo wanted prev vs ∧ (th.pushAll ws).stack = th.stack ∧
      (th.pushAll ws).top = th.top + ws.length := by
  induction ws with
  | nil => exact fun h _ => ⟨h, rfl, rfl⟩
  | cons w ws ih =>
    intro th h htop
    have hpush : (th.push w).Base fo wanted prev vs :=
      ⟨h.below.congr rfl fun a ha => Function.update_of_ne (by omega) .., h.limit, h.size, h.func, h.nresults,
        h.previous⟩
    obtain ⟨hbase, hstack, hlast⟩ := ih hpush (show th.stack + vs.length ≤ th.top + 1 by omega)
    refine ⟨hbase, hstack, ?_⟩
    show ((th.push w).pushAll ws).top = _
    rw [hlast, List.length_cons]
    show th.top + 1 + ws.length = _
    omega

/-! ## Calls -/

theorem Thread.Base.move (nil : V) {vs : List V} (ms : List (Move V)) : ∀ {th : Thread V}, th.Base fo wanted prev vs →
    (ms.foldl (Thread.move nil) th).Base fo wanted prev vs := by
  induction ms with
  | nil => exact fun h => h
  | cons m ms ih =>
    intro th h
    cases m with
    | grow more b => exact ih (h.realloc b (Nat.le_trans h.size (Nat.le_add_right ..)))
    | shrink callee b => exact ih (h.shrink callee b)

/-- A callee leaves the values below its function. -/
theorem Thread.Base.invoke (nil : V) {th : Thread V} {vs : List V} (h : th.Base fo wanted prev vs) (r : Callee V) :
    let th' := th.invoke nil vs.length r
    th'.Base fo wanted prev vs ∧ th'.top = th'.stack + vs.length + r.leaves.length ∧
      vs.length + r.leaves.length ≤ th'.size ∧
      slice th'.mem (th'.stack + vs.length) r.leaves.length = r.leaves := by
  have hmoved := h.move nil r.moves
  unfold Thread.invoke
  dsimp only
  generalize r.moves.foldl (Thread.move nil) th = th₁ at hmoved ⊢
  obtain ⟨th₂, hth₂, hbase, hroom⟩ : ∃ th₂, (if th₁.size < vs.length + r.leaves.length then
      th₁.luaD_reallocstack nil (vs.length + r.leaves.length) r.room else th₁) = th₂ ∧
      th₂.Base fo wanted prev vs ∧ vs.length + r.leaves.length ≤ th₂.size := by
    refine ⟨_, rfl, ?_⟩
    split_ifs with hsize
    · refine ⟨hmoved.realloc r.room ?_, Nat.le_refl _⟩
      have := hmoved.size
      omega
    · exact ⟨hmoved, by omega⟩
  rw [hth₂]
  exact ⟨⟨hbase.below.congr rfl fun a ha => Coroutine.put_of_lt _ ha, hbase.limit, hbase.size, hbase.func,
    hbase.nresults, hbase.previous⟩, rfl, hroom, Coroutine.slice_put ..⟩

/-- The values are all there are, once `top` is back. -/
theorem Thread.Base.back {th : Thread V} {vs : List V} (h : th.Base fo wanted prev vs) {top : Nat}
    (htop : top = th.stack + vs.length) : ({ th with top := top } : Thread V).Good fo wanted prev vs :=
  ⟨⟨h.below, h.limit, h.size, h.func, h.nresults, h.previous⟩, htop⟩

theorem Thread.Base.luaD_call_error (nil : V) {th : Thread V} {vs : List V} (h : th.Base fo wanted prev vs) (n : Arity)
    {r : Callee V} (hres : r.results = none) :
    ∃ th', th.luaD_call nil (th.stack + vs.length) n r = (th', false) ∧ th'.Good fo wanted prev vs := by
  obtain ⟨hbase, -⟩ := h.invoke nil r
  refine ⟨_, ?_, hbase.back rfl⟩
  unfold Thread.luaD_call
  rw [Nat.add_sub_cancel_left, hres]

/-- A call that returns has its results in the place of the function and its arguments. -/
theorem Thread.Base.luaD_call_ok (nil : V) {th : Thread V} {vs rs : List V} (h : th.Base fo wanted prev vs) (n : Arity)
    {r : Callee V} (hres : r.results = some rs) :
    ∃ th', th.luaD_call nil (th.stack + vs.length) n r = (th', true) ∧ th'.Base fo wanted prev vs ∧
      th'.Below (vs ++ adjust nil n rs) ∧ th'.top = th'.stack + (vs ++ adjust nil n rs).length ∧
      (n = none → (vs ++ rs).length ≤ th'.ci.top) := by
  obtain ⟨hbase, htop, hsize, hleaves⟩ := h.invoke nil r
  unfold Thread.luaD_call
  rw [Nat.add_sub_cancel_left, hres]
  dsimp only at htop hsize hleaves ⊢
  generalize th.invoke nil vs.length r = th₁ at hbase htop hsize hleaves ⊢
  unfold Callee.leaves at htop hsize hleaves
  rw [hres, Option.getD_some, List.length_append] at htop hsize hleaves
  have hrs : slice th₁.mem (th₁.top - rs.length) rs.length = rs := by
    have happend : th₁.Below (vs ++ (r.left ++ rs)) := by
      refine hbase.below.append ?_
      rw [List.length_append]
      exact hleaves
    rw [← List.append_assoc] at happend
    have := happend.slice
    rwa [List.length_append, show th₁.stack + (vs.length + r.left.length) = th₁.top - rs.length by omega] at this
  have hspec := Coroutine.moveresults_spec nil th₁.mem n
    (show th₁.stack + vs.length + rs.length ≤ th₁.top by omega)
  rw [hrs] at hspec
  obtain ⟨hlast, hslice, hlow⟩ := hspec
  generalize moveresults nil th₁.mem th₁.top (th₁.stack + vs.length) rs.length n = m at hlast hslice hlow ⊢
  obtain ⟨mem, top⟩ := m
  dsimp only at hlast hslice hlow ⊢
  rw [hlast, Nat.add_sub_cancel_left] at hslice
  have hl : top - th₁.stack = vs.length + (adjust nil n rs).length := by omega
  have hlen := Coroutine.length_adjust nil n rs
  obtain ⟨limit, hlimit, hlow', hhigh, hall⟩ : ∃ limit,
      (if n = none ∧ th₁.ci.top < top - th₁.stack then top - th₁.stack else th₁.ci.top) = limit ∧
      th₁.ci.top ≤ limit ∧ limit ≤ th₁.size ∧ (n = none → (vs ++ rs).length ≤ limit) := by
    have hsize₁ := hbase.size
    refine ⟨_, rfl, ?_⟩
    rw [List.length_append]
    by_cases hn : n = none
    · subst hn
      rw [Option.getD_none] at hlen
      split_ifs with hif
      · exact ⟨by omega, by omega, fun _ => by omega⟩
      · have hle : ¬th₁.ci.top < top - th₁.stack := fun hlt => hif ⟨rfl, hlt⟩
        exact ⟨Nat.le_refl _, hsize₁, fun _ => by omega⟩
    · rw [if_neg fun hif => hn hif.1]
      exact ⟨Nat.le_refl _, hsize₁, fun h => absurd h hn⟩
  rw [hlimit]
  have hbelow : ({ th₁ with mem := mem } : Thread V).Below vs := hbase.below.congr rfl hlow
  refine ⟨_, rfl, ⟨hbelow, Nat.le_trans hbase.limit hlow', hhigh, hbase.func, hbase.nresults, hbase.previous⟩,
    hbelow.append hslice, ?_, hall⟩
  show top = th₁.stack + (vs ++ adjust nil n rs).length
  rw [List.length_append]
  omega

/-- The answer of a call. -/
def Callee.answer (nil : V) (n : Arity) (r : Callee V) : Answer V :=
  match r.results with
  | none => .error
  | some rs => .ok (adjust nil n rs)

theorem Thread.Good.callTM (nil : V) {th : Thread V} {vs : List V} (h : th.Good fo wanted prev vs) (ws : List V)
    (n : Nat) (r : Callee V) :
    ∃ th', th.callTM nil ws n r = (th', r.answer nil (some n)) ∧ th'.Good fo wanted prev vs := by
  obtain ⟨hbase, hstack, -⟩ := h.toBase.pushAll ws (Nat.le_of_eq h.top.symm)
  unfold Thread.callTM Callee.answer
  dsimp only
  rw [h.top, ← hstack]
  cases hres : r.results with
  | none =>
    obtain ⟨th', hcall, hgood⟩ := hbase.luaD_call_error nil (some n) hres
    rw [hcall]
    exact ⟨th', rfl, hgood⟩
  | some rs =>
    obtain ⟨th', hcall, hbase', hbelow, htop, -⟩ := hbase.luaD_call_ok nil (some n) hres
    have hlen := Coroutine.length_adjust nil (some n) rs
    have hslice := hbelow.slice
    rw [Option.getD_some] at hlen
    rw [List.length_append, hlen] at htop
    rw [hlen] at hslice
    have hback : th'.top - n = th'.stack + vs.length := by omega
    rw [hcall]
    refine ⟨_, ?_, hbase'.back hback⟩
    show _ = (_, Answer.ok (adjust nil (some n) rs))
    rw [← hslice, ← hback]

theorem Thread.Good.call (nil : V) {th : Thread V} {vs : List V} (h : th.Good fo wanted prev vs) (n : Arity) (f : V)
    (args : List V) (r : Callee V) (b : Block V) :
    ∃ th', th.call nil n f args r b =
      (th', if th.hasRoom (1 + args.length) 0 then r.answer nil n else .overflow) ∧ th'.Good fo wanted prev vs := by
  unfold Thread.call
  dsimp only
  rw [h.top, Nat.add_sub_cancel_left]
  cases hcheck : th.lua_checkstack nil (1 + args.length) 0 b with
  | none =>
    rw [Thread.hasRoom_of_none h.stack_le hcheck]
    exact ⟨th, rfl, h⟩
  | some th₁ =>
    rw [Thread.hasRoom_of_some h.stack_le hcheck, if_pos rfl]
    obtain ⟨hgood₁, -⟩ := h.checkstack hcheck
    obtain ⟨hbase, hstack, htop⟩ := hgood₁.toBase.pushAll (f :: args) (Nat.le_of_eq hgood₁.top.symm)
    have hsame : (th₁.push f).pushAll args = th₁.pushAll (f :: args) := rfl
    have hfunc : (th₁.pushAll (f :: args)).top - (args.length + 1) = (th₁.pushAll (f :: args)).stack + vs.length := by
      rw [htop, hstack, hgood₁.top, List.length_cons]
      omega
    dsimp only
    rw [hsame, hfunc]
    unfold Callee.answer
    cases hres : r.results with
    | none =>
      obtain ⟨th', hcall, hgood⟩ := hbase.luaD_call_error nil n hres
      rw [hcall]
      exact ⟨th', rfl, hgood⟩
    | some rs =>
      obtain ⟨th', hcall, hbase', hbelow, htop', -⟩ := hbase.luaD_call_ok nil n hres
      have hlen := Coroutine.length_adjust nil n rs
      have hslice := hbelow.slice
      rw [List.length_append] at htop'
      rw [hcall]
      match n with
      | none =>
        rw [Option.getD_none] at hlen
        rw [hlen] at htop' hslice
        refine ⟨_, ?_, hbase'.back rfl⟩
        show (_, Answer.ok (slice th'.mem (th'.stack + vs.length) (th'.top - (th'.stack + vs.length)))) = _
        rw [show th'.top - (th'.stack + vs.length) = rs.length by omega, hslice]
      | some 0 =>
        rw [Option.getD_some] at hlen
        rw [hlen] at htop'
        refine ⟨th', ?_, hbase', htop'⟩
        show (_, Answer.ok []) = (_, .ok (adjust nil (some 0) rs))
        rw [List.length_eq_zero_iff.mp hlen]
      | some (v + 1) =>
        rw [Option.getD_some] at hlen
        rw [hlen] at htop' hslice
        have hback : th'.top - (v + 1) = th'.stack + vs.length := by omega
        refine ⟨_, ?_, hbase'.back hback⟩
        show (_, Answer.ok (slice th'.mem (th'.top - (v + 1)) (v + 1))) = _
        rw [hback, hslice]

/-- The answer of an operation on values. -/
def Nested.answer (nil : V) : Nested V → Answer V
  | .value vs => .ok vs
  | .error => .error
  | .tm _ _ n r => r.answer nil (some n)

theorem Thread.Good.nested (nil : V) {th : Thread V} {vs : List V} (h : th.Good fo wanted prev vs) (r : Nested V) :
    ∃ th', th.nested nil r = (th', r.answer nil) ∧ th'.Good fo wanted prev vs := by
  cases r with
  | value ws => exact ⟨th, rfl, h⟩
  | error => exact ⟨th, rfl, h⟩
  | tm f operands n r => exact h.callTM nil (f :: operands) n r

end Tsuki.Results
