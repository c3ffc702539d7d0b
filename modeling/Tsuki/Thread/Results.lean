import Tsuki.Thread.Slots

/-!
# The results of a Rust function

Whatever a function does with its context, the values above its slot are those it was called with, and above them the
list that it built: calls leave the stack as it was, and the counter says how long the list is. `Frame` is the list on its
own, with an operation on it for each of the context, and `Represents` says that the slots of the frame hold it. One step
of both keeps them together, where an operation of the list may find no room: exactly then the slots it asks for are
neither below the limit of the frame nor below the 1,000,000 of a stack.
-/

namespace Tsuki.Results

open Coroutine (Arity adjust slice moveresults)

variable {V : Type} {nil : V} {wanted : Arity} {prev : List CallInfo}

/-! ## The list of results -/

/-- What the slots of the frame mean: values that are kept below, and the results. -/
structure Frame (V : Type) where
  kept : List V
  results : List V
  variant : Variant

/-- All values above the function. -/
def Frame.values (a : Frame V) : List V := a.kept ++ a.results

/-- Results are pushed where there is room. -/
def Frame.push (a : Frame V) (room : Bool) (vs : List V) (answer : Answer V) : Frame V × Answer V :=
  if room then ({ a with results := a.results ++ vs }, answer) else (a, .overflow)

/-- An operation of the context has the slots it asks for. -/
def Context.hasRoom (nil : V) (c : Context V) : Op V → Bool
  | .push _ _ _ | .insert _ _ _ => c.th.hasRoom 1 5
  | .pushNext _ _ => c.th.hasRoom 2 5
  | .pushArith r _ => (c.th.nested nil r).1.hasRoom 1 5
  | .call _ _ args _ _ => c.th.hasRoom (1 + args.length) 0
  | .reserve additional _ => c.th.hasRoom additional 0
  | _ => true

/-- Which operations of a run have the slots, up to one that panics. -/
def Context.rooms (nil : V) (c : Context V) : List (Op V) → List Bool
  | [] => []
  | op :: ops =>
    c.hasRoom nil op ::
      match c.step nil op with
      | none => []
      | some (c, _) => c.rooms nil ops

/-- What an operation means. -/
def Frame.step (nil : V) (a : Frame V) (room : Bool) : Op V → Option (Frame V × Answer V)
  | .push v _ _ => some (a.push room [v] (.ok []))
  | .pushNext none _ => some (a.push room [] .error)
  | .pushNext (some none) _ => some (a.push room [] (.ok []))
  | .pushNext (some (some (k, v))) _ => some (a.push room [k, v] (.ok [k, v]))
  | .pushArith r _ =>
    match r.answer nil with
    | .ok vs => some (a.push room [vs.headD nil] (.ok []))
    | x => some (a, x)
  | .nested r => some (a, r.answer nil)
  | .call n _ _ r _ => some (a.push room [] (r.answer nil n))
  | .reserve _ _ => some (a.push room [] (.ok []))
  | .gc _ => some (a, .ok [])
  | .arg n => if n = 0 ∨ a.variant = .ret then none else some (a, .ok a.kept[n - 1]?.toList)
  | .into => if a.variant = .args then some ({ a with variant := .ret }, .ok []) else none
  | .intoResults i =>
    match index i (a.values.length + 1) with
    | none => none
    | some p =>
      if p ≤ a.values.length + 1 then some (⟨a.values.take (p - 1), a.values.drop (p - 1), .ret⟩, .ok []) else none
  | .forward f r =>
    match index f (a.values.length + 1) with
    | none => none
    | some p =>
      if a.values.length + 1 ≤ p then none
      else
        match r.results with
        | none => some (⟨a.values.take (p - 1), [], .ret⟩, .error)
        | some rs => some (⟨a.values.take (p - 1), rs, .ret⟩, .ok [])
  | .insert i v _ =>
    if a.variant = .ret then
      if i ≤ a.kept.length then none
      else if !room then some (a, .overflow)
      else if i ≤ a.values.length + 1 then
        some ({ a with results := a.results.insertIdx (i - a.kept.length - 1) v }, .ok [])
      else none
    else none
  | .pop =>
    if a.variant = .ret ∧ 0 < a.results.length then some ({ a with results := a.results.dropLast }, .ok []) else none
  | .truncate len => if a.variant = .ret then some ({ a with results := a.results.take len }, .ok []) else none

/-- A run, where each operation has room or not. -/
def Frame.run (nil : V) (a : Frame V) : List (Op V × Bool) → Option (Frame V × List (Answer V))
  | [] => some (a, [])
  | (op, room) :: ops =>
    match a.step nil room op with
    | none => none
    | some (a, x) =>
      match a.run nil ops with
      | none => none
      | some (a, xs) => some (a, x :: xs)

/-- The context of the function in the slot above `base`: its slots are those of the frame, and the counter is the number
of results. -/
structure Represents (base : List V) (f : V) (args : List V) (wanted : Arity) (prev : List CallInfo) (c : Context V)
    (a : Frame V) : Prop where
  good : c.th.Good base.length wanted prev (base ++ f :: a.values)
  ret : c.ret = a.results.length
  payload : c.payload = a.kept.length
  variant : c.variant = a.variant
  args : a.variant = .args → a.kept = args

/-- Two runs agree: both stop, or they have one answer and the frame is that of the context. -/
def Agree {α : Type} (base : List V) (f : V) (args : List V) (wanted : Arity) (prev : List CallInfo) :
    Option (Context V × α) → Option (Frame V × α) → Prop
  | some (c, x), some (a, y) => x = y ∧ Represents base f args wanted prev c a
  | none, none => True
  | _, _ => False

section

variable {base args : List V} {f : V} {c : Context V} {a : Frame V}

theorem Represents.depth (h : Represents base f args wanted prev c a) : c.depth = a.values.length + 1 := by
  have htop := h.good.top
  rw [List.length_append, List.length_cons] at htop
  rw [Context.depth, h.good.func]
  omega

/-- The thread changes and the frame does not. -/
theorem Represents.thread (h : Represents base f args wanted prev c a) {th : Thread V}
    (hth : th.Good base.length wanted prev (base ++ f :: a.values)) :
    Represents base f args wanted prev { c with th := th } a :=
  ⟨hth, h.ret, h.payload, h.variant, h.args⟩

/-- A value is pushed, where there is room. -/
theorem Represents.push (h : Represents base f args wanted prev c a) {th : Thread V} (v : V)
    (hth : th.Good base.length wanted prev (base ++ f :: a.values))
    (hroom : (base ++ f :: a.values).length + 1 ≤ th.ci.top) :
    Represents base f args wanted prev { c with th := th.push v, ret := c.ret + 1 }
      { a with results := a.results ++ [v] } := by
  refine ⟨?_, ?_, h.payload, h.variant, h.args⟩
  · have hpush := hth.push v hroom
    rwa [List.append_assoc, List.cons_append, Frame.values, List.append_assoc] at hpush
  · show c.ret + 1 = (a.results ++ [v]).length
    rw [h.ret, List.length_append, List.length_singleton]

theorem Represents.append (h : Represents base f args wanted prev c a) (v : V) (b : Block V) :
    Agree base f args wanted prev (some (c.append nil v b)) (some (a.push (c.th.hasRoom 1 5) [v] (.ok []))) := by
  unfold Context.append
  cases hcheck : c.th.lua_checkstack nil 1 5 b with
  | none =>
    rw [Thread.hasRoom_of_none h.good.stack_le hcheck]
    exact ⟨rfl, h⟩
  | some th =>
    obtain ⟨hgood, hroom⟩ := h.good.checkstack hcheck
    rw [Thread.hasRoom_of_some h.good.stack_le hcheck]
    exact ⟨rfl, h.push v hgood hroom⟩

/-- A step that only needs room. -/
theorem Represents.check (h : Represents base f args wanted prev c a) (need reserve : Nat) (b : Block V)
    (x : Answer V) :
    Agree base f args wanted prev
      (match c.th.lua_checkstack nil need reserve b with
        | none => some (c, .overflow)
        | some th => some ({ c with th := th }, x))
      (some (a.push (c.th.hasRoom need reserve) [] x)) := by
  cases hcheck : c.th.lua_checkstack nil need reserve b with
  | none =>
    rw [Thread.hasRoom_of_none h.good.stack_le hcheck]
    exact ⟨rfl, h⟩
  | some th =>
    rw [Thread.hasRoom_of_some h.good.stack_le hcheck]
    refine ⟨rfl, ?_⟩
    have := h.thread (h.good.checkstack hcheck).1
    rwa [show ({ a with results := a.results ++ [] } : Frame V) = a by rw [List.append_nil]]

theorem index_pos {i : Int} {top p : Nat} (h : index i top = some p) : 0 < p := by
  unfold index at h
  split_ifs at h with hzero hpos
  · cases h
    omega
  · generalize top - i.natAbs = n at h
    cases n with
    | zero => cases h
    | succ n =>
      cases h
      exact Nat.succ_pos n

/-- The first values of a frame. -/
theorem Thread.Good.front {th : Thread V} {vs ws : List V} (h : th.Good fo wanted prev (vs ++ ws)) :
    th.Base fo wanted prev vs := by
  have hlimit := h.limit
  rw [List.length_append] at hlimit
  exact ⟨h.below.front, by omega, h.size, h.func, h.nresults, h.previous⟩

theorem Thread.Good.cut {th : Thread V} {vs ws : List V} (h : th.Good fo wanted prev (vs ++ ws)) {n : Nat}
    (hn : n = ws.length) : ({ th with top := th.top - n } : Thread V).Good fo wanted prev vs := by
  refine h.front.back ?_
  rw [h.top, List.length_append]
  omega

theorem shift_spec (n : Nat) : ∀ (s : Nat → V) (src a : Nat),
    shift s src n a = if src < a ∧ a ≤ src + n then s (a - 1) else s a := by
  induction n with
  | zero =>
    intro s src a
    rw [if_neg (by omega)]
    rfl
  | succ n ih =>
    intro s src a
    rw [shift, ih]
    by_cases hlow : src < a ∧ a ≤ src + n
    · rw [if_pos hlow, if_pos (by omega), Function.update_of_ne (by omega)]
    · rw [if_neg hlow]
      by_cases hlast : a = src + 1 + n
      · subst hlast
        rw [Function.update_self, if_pos (by omega), show src + 1 + n - 1 = src + n by omega]
      · rw [Function.update_of_ne hlast, if_neg (by omega)]

/-- A value goes between the others. -/
theorem Thread.Good.insert {th : Thread V} {vs ws : List V} (h : th.Good fo wanted prev (vs ++ ws)) (v : V)
    (hroom : (vs ++ ws).length + 1 ≤ th.ci.top) :
    ({ th with
      mem := Function.update (shift th.mem (th.stack + vs.length) ws.length) (th.stack + vs.length) v
      top := th.top + 1 } : Thread V).Good fo wanted prev (vs ++ v :: ws) := by
  have hlen : (vs ++ v :: ws).length = (vs ++ ws).length + 1 := by
    simp only [List.length_append, List.length_cons]
    omega
  have htop := h.top
  refine ⟨⟨Thread.Below.append ?_ ?_, hlen ▸ hroom, h.size, h.func, h.nresults, h.previous⟩, ?_⟩
  · refine h.below.front.congr rfl fun a ha => ?_
    show Function.update (shift th.mem _ _) _ v a = th.mem a
    rw [Function.update_of_ne (by omega), shift_spec, if_neg (by omega)]
  · show slice (Function.update (shift th.mem (th.stack + vs.length) ws.length) (th.stack + vs.length) v)
      (th.stack + vs.length) (ws.length + 1) = v :: ws
    rw [slice_succ, Function.update_self]
    refine congrArg (v :: ·) (Eq.trans ?_ h.below.slice)
    apply List.ext_getElem (by rw [Coroutine.length_slice, Coroutine.length_slice])
    intro k hk hk'
    rw [Coroutine.length_slice] at hk
    rw [Coroutine.getElem_slice, Coroutine.getElem_slice, Function.update_of_ne (by omega), shift_spec,
      if_pos (by omega), show th.stack + vs.length + 1 + k - 1 = th.stack + vs.length + k by omega]
  · show th.top + 1 = th.stack + (vs ++ v :: ws).length
    omega

theorem Represents.intoResults (h : Represents base f args wanted prev c a) (i : Int) :
    Agree base f args wanted prev (c.intoResults i) (a.step nil true (.intoResults i)) := by
  unfold Context.intoResults Frame.step
  rw [h.depth]
  dsimp only
  cases hi : index i (a.values.length + 1) with
  | none => trivial
  | some p =>
    have hpos := index_pos hi
    dsimp only
    by_cases hp : p ≤ a.values.length + 1
    · rw [if_pos hp, if_pos hp]
      have hvalues : a.values.take (p - 1) ++ a.values.drop (p - 1) = a.values := List.take_append_drop ..
      refine ⟨rfl, ⟨?_, ?_, ?_, rfl, nofun⟩⟩
      · show c.th.Good base.length wanted prev (base ++ f :: (a.values.take (p - 1) ++ a.values.drop (p - 1)))
        rw [hvalues]
        exact h.good
      · show a.values.length + 1 - p = (a.values.drop (p - 1)).length
        rw [List.length_drop]
        omega
      · show p - 1 = (a.values.take (p - 1)).length
        rw [List.length_take]
        omega
    · rw [if_neg hp, if_neg hp]
      trivial

theorem Represents.forward (h : Represents base f args wanted prev c a) (i : Int) (r : Callee V) :
    Agree base f args wanted prev (c.forward nil i r) (a.step nil true (.forward i r)) := by
  unfold Context.forward Frame.step
  rw [h.depth]
  dsimp only
  cases hi : index i (a.values.length + 1) with
  | none => trivial
  | some p =>
    have hpos := index_pos hi
    dsimp only
    by_cases hp : a.values.length + 1 ≤ p
    · rw [if_pos hp, if_pos hp]
      trivial
    · rw [if_neg hp, if_neg hp]
      -- the values below the function that is called
      have hbase : c.th.Base base.length wanted prev (base ++ f :: a.values.take (p - 1)) := by
        have hgood := h.good
        rw [← List.take_append_drop (p - 1) a.values, ← List.cons_append, ← List.append_assoc] at hgood
        exact hgood.front
      have hlen : (a.values.take (p - 1)).length = p - 1 := by
        rw [List.length_take]
        omega
      have hfunc : c.th.stack + (c.th.ci.func + p) = c.th.stack + (base ++ f :: a.values.take (p - 1)).length := by
        rw [h.good.func, List.length_append, List.length_cons, hlen]
        omega
      rw [hfunc]
      cases hres : r.results with
      | none =>
        obtain ⟨th', hcall, hgood⟩ := hbase.luaD_call_error nil none hres
        rw [hcall]
        refine ⟨rfl, ⟨?_, rfl, hlen.symm, rfl, nofun⟩⟩
        rwa [Frame.values, List.append_nil]
      | some rs =>
        obtain ⟨th', hcall, hbase', hbelow, htop, hlimit⟩ := hbase.luaD_call_ok nil none hres
        rw [hcall]
        have hassoc : base ++ f :: a.values.take (p - 1) ++ rs = base ++ f :: (a.values.take (p - 1) ++ rs) := by
          rw [List.append_assoc, List.cons_append]
        refine ⟨rfl, ⟨⟨⟨?_, ?_, hbase'.size, hbase'.func, hbase'.nresults, hbase'.previous⟩, ?_⟩, ?_, hlen.symm, rfl,
          nofun⟩⟩
        · exact hassoc ▸ hbelow
        · exact hassoc ▸ hlimit rfl
        · exact hassoc ▸ htop
        · show th'.top - (th'.stack + (th'.ci.func + (p - 1) + 1)) = rs.length
          have htop : th'.top = th'.stack + (base ++ f :: a.values.take (p - 1) ++ rs).length := htop
          rw [hbase'.func, htop]
          simp only [List.length_append, List.length_cons, hlen]
          omega

theorem insertIdx_split {l : List V} (v : V) : ∀ {j : Nat}, j ≤ l.length →
    l.insertIdx j v = l.take j ++ v :: l.drop j := by
  induction l with
  | nil =>
    intro j hj
    rw [Nat.le_zero.mp hj]
    rfl
  | cons x l ih =>
    intro j hj
    cases j with
    | zero => rfl
    | succ j =>
      rw [List.insertIdx_succ_cons, ih (Nat.le_of_succ_le_succ hj)]
      rfl

theorem Represents.insert (h : Represents base f args wanted prev c a) (i : Nat) (v : V) (b : Block V)
    (hret : a.variant = .ret) :
    Agree base f args wanted prev (c.insert nil i v b) (a.step nil (c.th.hasRoom 1 5) (.insert i v b)) := by
  unfold Context.insert Frame.step
  simp only [if_pos hret, h.payload]
  by_cases hlow : i ≤ a.kept.length
  · rw [if_pos hlow, if_pos hlow]
    split_ifs <;> trivial
  · rw [if_neg (show ¬i = 0 by omega), if_neg hlow]
    simp only [if_neg hlow]
    cases hcheck : c.th.lua_checkstack nil 1 5 b with
    | none =>
      rw [Thread.hasRoom_of_none h.good.stack_le hcheck]
      exact ⟨rfl, h⟩
    | some th =>
      obtain ⟨hgood, hroom⟩ := h.good.checkstack hcheck
      rw [Thread.hasRoom_of_some h.good.stack_le hcheck]
      dsimp only
      have hdepth : th.top - (th.stack + th.ci.func) = a.values.length + 1 := by
        have htop := hgood.top
        rw [List.length_append, List.length_cons] at htop
        rw [hgood.func]
        omega
      have hvalues : a.values.length = a.kept.length + a.results.length := List.length_append
      rw [hdepth, hgood.func]
      by_cases hi : i ≤ a.values.length + 1
      · rw [if_neg (show ¬a.values.length + 1 < i by omega), if_neg (show ¬(!true) = true by decide), if_pos hi]
        obtain ⟨j, rfl⟩ : ∃ j, i = a.kept.length + 1 + j := ⟨i - a.kept.length - 1, by omega⟩
        have hj : j ≤ a.results.length := by omega
        -- what is below the place, and what is from it on
        have hsplit : base ++ f :: a.values = base ++ f :: (a.kept ++ a.results.take j) ++ a.results.drop j := by
          rw [List.append_assoc, List.cons_append, List.append_assoc, List.take_append_drop]
          rfl
        have hbefore : (base ++ f :: (a.kept ++ a.results.take j)).length = base.length + (a.kept.length + 1 + j) := by
          simp only [List.length_append, List.length_cons, List.length_take]
          omega
        have hafter : (a.results.drop j).length = a.values.length + 1 - (a.kept.length + 1 + j) := by
          rw [List.length_drop]
          omega
        rw [hsplit] at hgood hroom
        have hinsert := hgood.insert v hroom
        rw [hbefore, hafter] at hinsert
        have hidx : a.kept.length + 1 + j - a.kept.length - 1 = j := by omega
        have hresults : a.results.insertIdx j v = a.results.take j ++ v :: a.results.drop j :=
          insertIdx_split v hj
        refine ⟨rfl, ⟨?_, ?_, rfl, h.variant, h.args⟩⟩
        · show Thread.Good _ _ _ _ (base ++ f :: (a.kept ++ a.results.insertIdx (a.kept.length + 1 + j - a.kept.length - 1) v))
          rw [hidx, hresults]
          rw [List.append_assoc, List.cons_append, List.append_assoc] at hinsert
          exact hinsert
        · show c.ret + 1 = (a.results.insertIdx (a.kept.length + 1 + j - a.kept.length - 1) v).length
          rw [hidx, List.length_insertIdx_of_le_length hj, h.ret]
      · rw [if_pos (show a.values.length + 1 < i by omega), if_neg (show ¬(!true) = true by decide), if_neg hi]
        trivial

theorem Represents.pop (h : Represents base f args wanted prev c a) :
    Agree base f args wanted prev (c.step nil .pop) (a.step nil true .pop) := by
  unfold Context.step Frame.step
  dsimp only
  rw [h.variant, h.ret]
  by_cases hpos : a.variant = .ret ∧ 0 < a.results.length
  · rw [if_pos hpos, if_pos hpos]
    have hne : a.results ≠ [] := List.length_pos_iff.mp hpos.2
    have hgood := h.good
    rw [Frame.values, ← List.dropLast_append_getLast hne, ← List.append_assoc, ← List.cons_append,
      ← List.append_assoc] at hgood
    refine ⟨rfl, ⟨hgood.cut rfl, ?_, h.payload, hpos.1.symm ▸ rfl, h.args⟩⟩
    show a.results.length - 1 = a.results.dropLast.length
    rw [List.length_dropLast]
  · rw [if_neg hpos, if_neg hpos]
    trivial

theorem Represents.truncate (h : Represents base f args wanted prev c a) (len : Nat) :
    Agree base f args wanted prev (c.step nil (.truncate len)) (a.step nil true (.truncate len)) := by
  unfold Context.step Frame.step
  dsimp only
  rw [h.variant, h.ret]
  by_cases hret : a.variant = .ret
  · rw [if_pos hret, if_pos hret]
    by_cases hlen : len ≤ a.results.length
    · rw [if_pos hlen]
      have hgood := h.good
      rw [Frame.values, ← List.take_append_drop len a.results, ← List.append_assoc, ← List.cons_append,
        ← List.append_assoc] at hgood
      refine ⟨rfl, ⟨hgood.cut (by rw [List.length_drop]), ?_, h.payload, rfl, h.args⟩⟩
      show len = (a.results.take len).length
      rw [List.length_take]
      omega
    · rw [if_neg hlen, List.take_of_length_le (by omega)]
      exact ⟨rfl, h⟩
  · rw [if_neg hret, if_neg hret]
    trivial

/-- Argument `n` is where it was. -/
theorem Represents.arg (h : Represents base f args wanted prev c a) (n : Nat) :
    Agree base f args wanted prev (c.step nil (.arg n)) (a.step nil true (.arg n)) := by
  unfold Context.step Frame.step
  dsimp only
  rw [h.variant, h.payload]
  by_cases hn : n = 0 ∨ a.variant = .ret
  · rw [if_pos hn, if_pos hn]
    trivial
  · rw [if_neg hn, if_neg hn]
    refine ⟨?_, h⟩
    obtain ⟨m, rfl⟩ : ∃ m, n = m + 1 := ⟨n - 1, by omega⟩
    rw [Nat.add_sub_cancel]
    by_cases hlen : m + 1 > a.kept.length
    · rw [if_pos hlen, List.getElem?_eq_none (by omega)]
      rfl
    · have hlt : m < a.kept.length := by omega
      have hslot := h.good.below (base.length + (m + 1)) a.kept[m] (by
        rw [List.getElem?_append_right (by omega), Nat.add_sub_cancel_left, List.getElem?_cons_succ, Frame.values,
          List.getElem?_append_left hlt, List.getElem?_eq_getElem hlt])
      rw [if_neg hlen, List.getElem?_eq_getElem hlt, h.good.func, hslot]
      rfl

theorem Represents.step (h : Represents base f args wanted prev c a) (op : Op V) :
    Agree base f args wanted prev (c.step nil op) (a.step nil (c.hasRoom nil op) op) := by
  cases op with
  | push v b gc =>
    have hagree := @Represents.append V nil wanted prev base args f c a h v b
    show Agree base f args wanted prev _ (some (a.push (c.th.hasRoom 1 5) [v] (.ok [])))
    unfold Context.append at hagree
    unfold Context.step Context.append
    dsimp only
    cases hcheck : c.th.lua_checkstack nil 1 5 b with
    | none =>
      rw [hcheck] at hagree
      exact hagree
    | some th =>
      rw [hcheck] at hagree
      exact ⟨hagree.1, hagree.2.thread (hagree.2.good.gcStep gc)⟩
  | pushNext pair b =>
    unfold Context.step Context.hasRoom
    dsimp only
    cases hcheck : c.th.lua_checkstack nil 2 5 b with
    | none =>
      rw [Thread.hasRoom_of_none h.good.stack_le hcheck]
      match pair with
      | none | some none | some (some (_, _)) => exact ⟨rfl, h⟩
    | some th =>
      obtain ⟨hgood, hroom⟩ := h.good.checkstack hcheck
      rw [Thread.hasRoom_of_some h.good.stack_le hcheck]
      have hsame : ({ a with results := a.results ++ [] } : Frame V) = a := by rw [List.append_nil]
      match pair with
      | none => exact ⟨rfl, hsame.symm ▸ h.thread hgood⟩
      | some none => exact ⟨rfl, hsame.symm ▸ h.thread hgood⟩
      | some (some (k, v)) =>
        have hk := h.push k hgood (by omega)
        have hlen : (base ++ f :: (a.kept ++ (a.results ++ [k]))).length = (base ++ f :: a.values).length + 1 := by
          simp only [Frame.values, List.length_append, List.length_cons, List.length_nil]
          omega
        have hv := hk.push v hk.good (by
          show (base ++ f :: (a.kept ++ (a.results ++ [k]))).length + 1 ≤ th.ci.top
          omega)
        rw [List.append_assoc] at hv
        exact ⟨rfl, hv⟩
  | pushArith r b =>
    obtain ⟨th', hnested, hgood⟩ := h.good.nested nil r
    unfold Context.step Context.hasRoom Frame.step
    dsimp only
    rw [hnested]
    cases r.answer nil with
    | ok vs => exact (h.thread hgood).append (vs.headD nil) b
    | overflow => exact ⟨rfl, h.thread hgood⟩
    | error => exact ⟨rfl, h.thread hgood⟩
  | nested r =>
    obtain ⟨th', hnested, hgood⟩ := h.good.nested nil r
    unfold Context.step
    dsimp only
    rw [hnested]
    exact ⟨rfl, h.thread hgood⟩
  | call n g vs r b =>
    obtain ⟨th', hcall, hgood⟩ := h.good.call nil n g vs r b
    unfold Context.step Context.hasRoom Frame.step
    dsimp only
    rw [hcall]
    cases c.th.hasRoom (1 + vs.length) 0 with
    | false => exact ⟨rfl, h.thread hgood⟩
    | true =>
      refine ⟨rfl, ?_⟩
      have hsame : ({ a with results := a.results ++ [] } : Frame V) = a := by rw [List.append_nil]
      exact hsame.symm ▸ h.thread hgood
  | reserve additional b => exact h.check additional 0 b (.ok [])
  | gc b => exact ⟨rfl, h.thread (h.good.gcStep b)⟩
  | arg n => exact h.arg n
  | into =>
    unfold Context.step Frame.step
    dsimp only
    rw [h.variant]
    by_cases hargs : a.variant = .args
    · rw [if_pos hargs, if_pos hargs]
      exact ⟨rfl, ⟨h.good, h.ret, h.payload, rfl, nofun⟩⟩
    · rw [if_neg hargs, if_neg hargs]
      trivial
  | intoResults i => exact h.intoResults i
  | forward i r => exact h.forward i r
  | insert i v b =>
    by_cases hret : a.variant = .ret
    · have hagree := @Represents.insert V nil wanted prev base args f c a h i v b hret
      show Agree _ _ _ _ _ (if c.variant = .ret then c.insert nil i v b else none) _
      rwa [h.variant, if_pos hret]
    · show Agree _ _ _ _ _ (if c.variant = .ret then c.insert nil i v b else none)
        (if a.variant = .ret then _ else none)
      rw [h.variant, if_neg hret, if_neg hret]
      trivial
  | pop => exact h.pop
  | truncate len => exact h.truncate len

theorem Represents.run (ops : List (Op V)) : ∀ {c : Context V} {a : Frame V},
    Represents base f args wanted prev c a →
    Agree base f args wanted prev (c.run nil ops) (a.run nil (ops.zip (c.rooms nil ops))) := by
  induction ops with
  | nil => exact fun h => ⟨rfl, h⟩
  | cons op ops ih =>
    intro c a h
    have hstep := @Represents.step V nil wanted prev base args f c a h op
    rw [Context.run, Context.rooms, List.zip_cons_cons, Frame.run]
    cases hc : c.step nil op with
    | none =>
      rw [hc] at hstep
      cases ha : a.step nil (c.hasRoom nil op) op with
      | none => trivial
      | some x =>
        rw [ha] at hstep
        exact hstep.elim
    | some x =>
      obtain ⟨c₁, x⟩ := x
      rw [hc] at hstep
      cases ha : a.step nil (c.hasRoom nil op) op with
      | none =>
        rw [ha] at hstep
        exact hstep.elim
      | some y =>
        obtain ⟨a₁, y⟩ := y
        rw [ha] at hstep
        obtain ⟨rfl, h₁⟩ := hstep
        have hrun := ih h₁
        dsimp only
        cases hc' : c₁.run nil ops with
        | none =>
          rw [hc'] at hrun
          cases ha' : a₁.run nil (ops.zip (c₁.rooms nil ops)) with
          | none => trivial
          | some z =>
            rw [ha'] at hrun
            exact hrun.elim
        | some z =>
          rw [hc'] at hrun
          cases ha' : a₁.run nil (ops.zip (c₁.rooms nil ops)) with
          | none =>
            rw [ha'] at hrun
            exact hrun.elim
          | some z' =>
            rw [ha'] at hrun
            exact ⟨congrArg (x :: ·) hrun.1, hrun.2⟩

/-- The function starts with its arguments and no results. -/
theorem enter_spec {th : Thread V} (hbelow : th.Below (base ++ f :: args))
    (htop : th.top = th.stack + (base ++ f :: args).length) (hsize : (base ++ f :: args).length ≤ th.size + 5)
    {b : Block V} (henter : th.enter nil base.length wanted b = some c) :
    Represents base f args wanted (th.ci :: th.previous) c ⟨args, [], .args⟩ := by
  unfold Thread.enter at henter
  dsimp only at henter
  obtain ⟨th₁, hth₁, hc⟩ := Option.map_eq_some_iff.mp henter
  obtain ⟨hbelow₁, htop₁, hsize₁, hci, hprev⟩ : th₁.Below (base ++ f :: args) ∧
      th₁.top = th₁.stack + (base ++ f :: args).length ∧ (base ++ f :: args).length ≤ th₁.size ∧ th₁.ci = th.ci ∧
      th₁.previous = th.previous := by
    by_cases hgrow : th.stack + th.size < th.top
    · rw [if_pos hgrow] at hth₁
      obtain ⟨hbelow₁, htop₁, hsize₁, hci, hprev⟩ := growstack_spec hbelow htop hsize hth₁
      exact ⟨hbelow₁, htop₁, by omega, hci, hprev⟩
    · rw [if_neg hgrow] at hth₁
      cases hth₁
      exact ⟨hbelow, htop, by omega, rfl, rfl⟩
  have hlast : th₁.top - th₁.stack = (base ++ f :: args).length := by omega
  subst hc
  refine ⟨⟨⟨?_, ?_, ?_, rfl, rfl, ?_⟩, ?_⟩, rfl, ?_, rfl, fun _ => rfl⟩
  · rw [Frame.values, List.append_nil]
    exact hbelow₁
  · rw [Frame.values, List.append_nil]
    exact Nat.le_of_eq hlast.symm
  · exact Nat.le_trans (Nat.le_of_eq hlast) hsize₁
  · show th₁.ci :: th₁.previous = th.ci :: th.previous
    rw [hci, hprev]
  · rw [Frame.values, List.append_nil]
    exact htop₁
  · show th₁.top - th₁.stack - base.length - 1 = args.length
    rw [hlast, List.length_append, List.length_cons]
    omega

/-- The caller has got the values in the place of the function. -/
structure Thread.Returned (th : Thread V) (vs : List V) : Prop where
  below : th.Below vs
  top : th.top = th.stack + vs.length

theorem Represents.poscall (nil : V) (h : Represents base f args wanted prev c a) :
    (c.poscall nil).Returned (base ++ adjust nil wanted a.results) := by
  unfold Context.poscall
  dsimp only
  rw [h.good.func, h.good.nresults, h.ret]
  have hlen : (base ++ f :: a.values).length = base.length + 1 + a.kept.length + a.results.length := by
    simp only [Frame.values, List.length_append, List.length_cons]
    omega
  have htop := h.good.top
  have hspec := Coroutine.moveresults_spec nil c.th.mem wanted
    (show c.th.stack + base.length + a.results.length ≤ c.th.top by omega)
  have hresults : slice c.th.mem (c.th.top - a.results.length) a.results.length = a.results := by
    have hbelow := h.good.below
    rw [Frame.values, ← List.cons_append, ← List.append_assoc] at hbelow
    have hslice := hbelow.slice
    have hstart : c.th.top - a.results.length = c.th.stack + (base ++ f :: a.kept).length := by
      rw [List.length_append, List.length_cons]
      omega
    rwa [hstart]
  rw [hresults] at hspec
  obtain ⟨hlast, hslice, hlow⟩ := hspec
  generalize moveresults nil c.th.mem c.th.top (c.th.stack + base.length) a.results.length wanted = m
    at hlast hslice hlow ⊢
  obtain ⟨mem, top⟩ := m
  dsimp only at hlast hslice hlow ⊢
  rw [hlast, Nat.add_sub_cancel_left] at hslice
  refine ⟨Thread.Below.append (h.good.below.front.congr rfl hlow) hslice, ?_⟩
  show top = c.th.stack + (base ++ adjust nil wanted a.results).length
  rw [List.length_append]
  omega

end

/-- The results of a Rust function are the list it built. Whatever it does with its context, with calls that move the stack
or fail among it, it panics where the list of the operations is not defined, and else: what it reads is what the list
says, and the arguments are where they were; what finds no room leaves the list; the counter is the number of values from the first result to the top; and
the caller gets the list, cut off or filled up to what it wants, in the place of the function. -/
theorem results_exact (nil : V) {th : Thread V} {base args : List V} {f : V} (hbelow : th.Below (base ++ f :: args))
    (htop : th.top = th.stack + (base ++ f :: args).length) (hsize : (base ++ f :: args).length ≤ th.size + 5)
    (wanted : Arity) (b : Block V) {c : Context V} (henter : th.enter nil base.length wanted b = some c)
    (ops : List (Op V)) :
    match c.run nil ops, Frame.run nil ⟨args, [], .args⟩ (ops.zip (c.rooms nil ops)) with
    | some (c', log), some (a, log') =>
      log = log' ∧ Represents base f args wanted (th.ci :: th.previous) c' a ∧
        c'.th.top = c'.th.stack + (base.length + 1 + c'.payload) + c'.ret ∧
        (c'.poscall nil).Returned (base ++ adjust nil wanted a.results) ∧ (c'.poscall nil).ci = th.ci
    | none, none => True
    | _, _ => False := by
  have hagree := @Represents.run V nil wanted (th.ci :: th.previous) base args f ops c ⟨args, [], .args⟩
    (enter_spec hbelow htop hsize henter)
  cases hc : c.run nil ops with
  | none =>
    cases ha : Frame.run nil ⟨args, [], .args⟩ (ops.zip (c.rooms nil ops)) with
    | none => trivial
    | some y =>
      rw [hc, ha] at hagree
      exact hagree.elim
  | some x =>
    cases ha : Frame.run nil ⟨args, [], .args⟩ (ops.zip (c.rooms nil ops)) with
    | none =>
      rw [hc, ha] at hagree
      exact hagree.elim
    | some y =>
      rw [hc, ha] at hagree
      obtain ⟨hlog, h⟩ := hagree
      refine ⟨hlog, h, ?_, h.poscall nil, ?_⟩
      · have hlast := h.good.top
        rw [List.length_append, List.length_cons, Frame.values, List.length_append] at hlast
        rw [h.payload, h.ret]
        omega
      · show x.1.th.previous.headD x.1.th.ci = th.ci
        rw [h.good.previous]
        rfl

/-- A push, a call that moves the stack, a metamethod whose result is pushed, an error, and edits of the results. -/
def edits : List (Op Nat) :=
  [.push 4 ⟨200, fun _ => 0⟩ (some ⟨300, fun _ => 1⟩),
   .call none 5 [6] ⟨[.grow 10 ⟨500, fun _ => 2⟩, .shrink [⟨9, 12, none⟩] ⟨600, fun _ => 3⟩], ⟨0, fun _ => 0⟩, [1, 2],
     some [3, 6]⟩ ⟨700, fun _ => 4⟩,
   .pushArith (.tm 5 [1, 7] 1 ⟨[], ⟨0, fun _ => 0⟩, [5, 1, 7], some [2]⟩) ⟨800, fun _ => 5⟩, .nested .error, .arg 1,
   .reserve 1000000 ⟨0, fun _ => 0⟩, .into, .insert 2 5 ⟨900, fun _ => 6⟩, .pop, .push 1 ⟨950, fun _ => 7⟩ none,
   .truncate 2]

def answers : List (Answer Nat) :=
  [.ok [], .ok [3, 6], .ok [], .error, .ok [7], .overflow, .ok [], .ok [], .ok [], .ok [], .ok []]

/-- The function of the slot 1 is called with 7 and three results are wanted; it builds 5 and 4. -/
theorem results_exact_edits :
    let th : Thread Nat := ⟨100, 40, 103, fun a => 109 - a, ⟨0, 30, none⟩, []⟩
    ∃ c c', th.enter 0 1 (some 3) ⟨0, fun _ => 0⟩ = some c ∧ c.run 0 edits = some (c', answers) ∧
      (c'.poscall 0).Returned [9, 5, 4, 0] := by
  intro th
  have hbelow : th.Below ([9] ++ 8 :: [7]) := by
    intro k v hk
    match k, hk with
    | 0, hk | 1, hk | 2, hk => exact Option.some.inj hk
  obtain ⟨c, henter⟩ : ∃ c, th.enter 0 1 (some 3) ⟨0, fun _ => 0⟩ = some c := ⟨_, rfl⟩
  have h := results_exact 0 hbelow rfl (show 3 ≤ 45 by decide) (some 3) ⟨0, fun _ => 0⟩ henter edits
  -- all but the sixth operation have the slots they ask for
  have hrooms : c.rooms 0 edits = [true, true, true, true, true, false, true, true, true, true, true] := by
    cases henter
    decide
  have hframe : Frame.run 0 ⟨[7], [], .args⟩ (edits.zip (c.rooms 0 edits)) =
      some (⟨[7], [5, 4], .ret⟩, answers) := by
    rw [hrooms]
    rfl
  rw [hframe] at h
  cases hrun : c.run 0 edits with
  | none =>
    rw [hrun] at h
    exact h.elim
  | some x =>
    rw [hrun] at h
    exact ⟨c, x.1, henter, hrun.trans (congrArg (fun log => some (x.1, log)) h.1), h.2.2.2.1⟩

end Tsuki.Results
