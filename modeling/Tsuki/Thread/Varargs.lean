import Tsuki.Thread.CallsExact
import Tsuki.Thread.Slots

/-!
# Extra arguments

`luaT_adjustvarargs` copies a function and its parameters above the arguments, and `luaT_getvarargs` reads the others
back from below the function. Both work with addresses into a stack that moves. The invariant gives the stack of an
activation as segments one after the other, among them the extra arguments. A growth of the stack moves the base and
keeps the segments, so every instruction sees the same values.
-/

namespace Tsuki.Varargs

open Coroutine (Arity adjust slice copy fill At)
open Calls (Proto copyParams)
open Results (Thread Block Move)

variable {V : Type}

/-! ## The model -/

/-- A thread with the number of extra arguments of the function that runs. -/
structure Activation (V : Type) where
  th : Thread V
  nextraargs : Nat

section

variable (nil : V)

/-- `luaD_growstack` where the room above the top is not more than `n`. -/
def growFor (th : Thread V) (n : Nat) (b : Block V) : Option (Thread V) :=
  if th.stack + th.size ≤ th.top + n then th.luaD_growstack nil n b else some th

/-- `setup_lua_ci`: arguments that are missing are nil. -/
def setup_lua_ci (th : Thread V) (func : Nat) (nresults : Arity) (p : Proto) (b : Block V) : Option (Thread V) :=
  let narg := th.top - func - 1
  let fo := func - th.stack
  (growFor nil th p.maxstacksize b).map fun th =>
    let th := { th with ci := ⟨fo, fo + 1 + p.maxstacksize, nresults⟩, previous := th.ci :: th.previous }
    th.pushAll (List.replicate (p.numparams - narg) nil)

def luaT_adjustvarargs (th : Thread V) (p : Proto) (b : Block V) : Option (Activation V) :=
  let actual := th.top - (th.stack + th.ci.func) - 1
  (growFor nil th (p.maxstacksize + 1) b).map fun th =>
    let f := th.stack + th.ci.func
    ⟨{ th with
        mem := copyParams nil th.mem f th.top p.numparams
        top := th.top + 1 + p.numparams
        ci := { th.ci with func := f + (actual + 1) - th.stack, top := th.ci.top + (actual + 1) } },
      actual - p.numparams⟩

/-- The loops of `luaT_getvarargs`. -/
def copyExtra (mem : Nat → V) (where_0 first nextra : Nat) (wanted : Arity) : Nat → V :=
  let wanted := wanted.getD nextra
  let n := min wanted nextra
  fill nil (copy mem where_0 first n) where_0 n (wanted - n)

/-- `luaT_getvarargs`, where a negative number is none. -/
def luaT_getvarargs (a : Activation V) (where_0 : Nat) (wanted : Arity) (b : Block V) : Option (Activation V) :=
  let nextra := a.nextraargs
  let ready : Option (Thread V × Nat) :=
    match wanted with
    | some _ => some (a.th, where_0)
    | none =>
      let t := where_0 - a.th.stack
      (growFor nil a.th nextra b).map fun th => ({ th with top := th.stack + t + nextra }, th.stack + t)
  ready.map fun (th, where_0) =>
    let f := th.stack + th.ci.func
    { a with th := { th with mem := copyExtra nil th.mem where_0 (f - nextra) nextra wanted } }

/-- `OP_VARARG` with its operand `A`. -/
def Activation.vararg (a : Activation V) (A : Nat) (wanted : Arity) (b : Block V) : Option (Activation V) :=
  luaT_getvarargs nil { a with th := { a.th with top := a.th.stack + a.th.ci.top } } (a.th.stack + a.th.ci.func + 1 + A)
    wanted b

/-- What happens while the function runs, in it and in the functions it calls: writes from its first register on,
parameters included, other tops, stacks that move, and `OP_VARARG`. -/
inductive Op (V : Type)
  | write (i : Nat) (v : V)
  | settop (top : Nat)
  | move (m : Move V)
  | grow (n : Nat) (b : Block V)
  | vararg (A : Nat) (wanted : Arity) (b : Block V)

/-- An operation, none where the stack overflows. -/
def Activation.step (a : Activation V) : Op V → Option (Activation V)
  | .write i v =>
    some { a with th := { a.th with mem := Function.update a.th.mem (a.th.stack + a.th.ci.func + 1 + i) v } }
  | .settop top => some { a with th := { a.th with top := a.th.stack + top } }
  | .move m => some { a with th := a.th.move nil m }
  | .grow n b => (a.th.luaD_growstack nil n b).map fun th => { a with th }
  | .vararg A wanted b => a.vararg nil A wanted b

def Activation.run (a : Activation V) : List (Op V) → Option (Activation V)
  | [] => some a
  | op :: ops => (a.step nil op).bind fun a => a.run ops

end

/-- The slot of the function for `luaD_poscall` in `OP_RETURN`, whose operand `C` is one more than the parameters. -/
def Activation.returnFunc (a : Activation V) (p : Proto) : Nat := a.th.ci.func - (a.nextraargs + (p.numparams + 1))

/-! ## The stack -/

variable {nil : V} {res : Arity} {prev : List Results.CallInfo}

theorem realloc_slot (th : Thread V) {newsize j : Nat} (b : Block V) (hold : j < th.size + 5) (hnew : j < newsize + 5) :
    (th.luaD_reallocstack nil newsize b).mem ((th.luaD_reallocstack nil newsize b).stack + j) =
      th.mem (th.stack + j) := by
  show (if b.addr ≤ b.addr + j ∧ b.addr + j < b.addr + (newsize + 5) then
    if b.addr + j - b.addr < th.size + 5 then th.mem (th.stack + (b.addr + j - b.addr)) else nil
    else b.rest (b.addr + j)) = _
  rw [if_pos (by omega), Nat.add_sub_cancel_left, if_pos hold]

theorem growstack_cases {th th' : Thread V} {n : Nat} {b : Block V} (h : th.luaD_growstack nil n b = some th') :
    ∃ newsize, th.size ≤ newsize ∧ th.top - th.stack + n ≤ newsize ∧ th' = th.luaD_reallocstack nil newsize b := by
  unfold Thread.luaD_growstack at h
  dsimp only at h
  split_ifs at h with hsize
  cases h
  exact ⟨_, by omega, by omega, rfl⟩

/-- There is room, and every slot keeps its value. -/
theorem growFor_spec {th th' : Thread V} {n : Nat} {b : Block V} (h : growFor nil th n b = some th')
    (htop : th.stack ≤ th.top) :
    th'.ci = th.ci ∧ th'.previous = th.previous ∧ th.size ≤ th'.size ∧ th'.stack ≤ th'.top ∧
      th'.top - th'.stack = th.top - th.stack ∧ th'.top - th'.stack + n ≤ th'.size ∧
      ∀ j < th.size + 5, th'.mem (th'.stack + j) = th.mem (th.stack + j) := by
  unfold growFor at h
  split_ifs at h with hroom
  · obtain ⟨newsize, hsize, hneed, rfl⟩ := growstack_cases h
    refine ⟨rfl, rfl, hsize, Nat.le_add_right _ _, Nat.add_sub_cancel_left _ _, ?_,
      fun j hj => realloc_slot th b hj (by omega)⟩
    show b.addr + (th.top - th.stack) - b.addr + n ≤ newsize
    omega
  · cases h
    exact ⟨rfl, rfl, Nat.le_refl _, htop, rfl, by omega, fun _ _ => rfl⟩

theorem copy_up (s : Nat → V) {dest first : Nat} (n : Nat) (h : first + n ≤ dest) :
    (∀ i < n, copy s dest first n (dest + i) = s (first + i)) ∧
      ∀ j, j < dest ∨ dest + n ≤ j → copy s dest first n j = s j := by
  induction n with
  | zero => exact ⟨fun i hi => absurd hi (Nat.not_lt_zero i), fun _ _ => rfl⟩
  | succ n ih =>
    obtain ⟨hin, hout⟩ := ih (by omega)
    rw [copy]
    refine ⟨fun i hi => ?_, fun j hj => ?_⟩
    · by_cases hin' : i = n
      · subst hin'
        rw [Function.update_self, hout _ (.inl (by omega))]
      · rw [Function.update_of_ne (by omega), hin i (by omega)]
    · rw [Function.update_of_ne (by omega), hout j (by omega)]

theorem copyExtra_spec (nil : V) (s : Nat → V) {where_0 first nextra : Nat} (h : first + nextra ≤ where_0)
    (wanted : Arity) :
    slice (copyExtra nil s where_0 first nextra wanted) where_0 (wanted.getD nextra) =
        adjust nil wanted (slice s first nextra) ∧
      ∀ j, j < where_0 ∨ where_0 + wanted.getD nextra ≤ j → copyExtra nil s where_0 first nextra wanted j = s j := by
  rw [copyExtra]
  generalize hw : wanted.getD nextra = w
  generalize hn : min w nextra = n
  generalize hs' : fill nil (copy s where_0 first n) where_0 n (w - n) = s'
  have hlen := Coroutine.length_adjust nil wanted (slice s first nextra)
  rw [Coroutine.length_slice] at hlen
  obtain ⟨hcopy, hcopy'⟩ := copy_up s n (show first + n ≤ where_0 by omega)
  obtain ⟨hfill, hfill'⟩ := Coroutine.fill_spec nil (copy s where_0 first n) where_0 n (w - n)
  rw [hs'] at hfill hfill'
  refine ⟨?_, fun j hj => ?_⟩
  · apply List.ext_getElem
    · rw [Coroutine.length_slice, hlen, hw]
    · intro k hk hk'
      rw [Coroutine.length_slice] at hk
      rw [Coroutine.getElem_slice]
      by_cases hkn : k < n
      · rw [show s' (where_0 + k) = _ from hfill' _ (.inl (by omega)), hcopy k hkn]
        cases wanted with
        | none => simp [adjust, slice]
        | some w' =>
          rw [Option.getD_some] at hw
          simp only [adjust]
          rw [List.getElem_append_left (by rw [List.length_take, Coroutine.length_slice]; omega)]
          simp [slice]
      · have hnil : s' (where_0 + k) = nil := by
          have := hfill (k - n) (by omega)
          rwa [show where_0 + n + (k - n) = where_0 + k by omega] at this
        rw [hnil]
        cases wanted with
        | none => exact absurd hk (by rw [Option.getD_none] at hw; omega)
        | some w' =>
          rw [Option.getD_some] at hw
          simp only [adjust]
          rw [List.getElem_append_right (by
            rw [List.length_take, Coroutine.length_slice]
            omega)]
          simp
  · rw [show s' j = _ from hfill' j (by omega), hcopy' j (by omega)]

/-! ## A function that runs -/

/-- The extra arguments are below the function, in a frame that fits into the stack. -/
structure Active (res : Arity) (prev : List Results.CallInfo) (front extra : List V) (a : Activation V) : Prop where
  base : a.th.Base (front ++ extra).length res prev (front ++ extra)
  nextra : a.nextraargs = extra.length

section

variable {front extra : List V} {a a' : Activation V}

/-- The stack may move before `OP_VARARG` writes to it. -/
theorem Activation.vararg_cases {A : Nat} {wanted : Arity} {b : Block V} (hrun : a.vararg nil A wanted b = some a') :
    ∃ th : Thread V, (th.ci = a.th.ci ∧ th.previous = a.th.previous ∧ a.th.size ≤ th.size ∧
        ∀ j < a.th.size + 5, th.mem (th.stack + j) = a.th.mem (a.th.stack + j)) ∧
      (wanted = none → th.top = th.stack + a.th.ci.func + 1 + A + a.nextraargs) ∧
      a' = { a with
        th := { th with
          mem := copyExtra nil th.mem (th.stack + a.th.ci.func + 1 + A) (th.stack + a.th.ci.func - a.nextraargs)
            a.nextraargs wanted } } := by
  unfold Activation.vararg luaT_getvarargs at hrun
  cases wanted with
  | some w =>
    cases hrun
    exact ⟨{ a.th with top := a.th.stack + a.th.ci.top }, ⟨rfl, rfl, Nat.le_refl _, fun _ _ => rfl⟩,
      (by intro h; cases h), rfl⟩
  | none =>
    dsimp only at hrun
    rw [Option.map_map, Option.map_eq_some_iff] at hrun
    obtain ⟨th, hgrow, rfl⟩ := hrun
    obtain ⟨hci, hprev, hsize, -, -, -, hslots⟩ := growFor_spec hgrow (Nat.le_add_right _ _)
    have hwhere : th.stack + (a.th.stack + a.th.ci.func + 1 + A - a.th.stack) =
        th.stack + a.th.ci.func + 1 + A := by omega
    refine ⟨{ th with top := th.stack + a.th.ci.func + 1 + A + a.nextraargs }, ⟨hci, hprev, hsize, hslots⟩,
      fun _ => rfl, ?_⟩
    dsimp only [Function.comp]
    rw [hwhere, hci]

/-- `OP_VARARG` writes the extra arguments, cut or filled up to what is wanted, and nothing else. -/
theorem Active.vararg (h : Active res prev front extra a) {A : Nat} {wanted : Arity} {b : Block V}
    (hrun : a.vararg nil A wanted b = some a') :
    Active res prev front extra a' ∧
      slice a'.th.mem (a'.th.stack + a'.th.ci.func + 1 + A) (wanted.getD extra.length) = adjust nil wanted extra ∧
      (wanted = none → a'.th.top = a'.th.stack + a'.th.ci.func + 1 + A + extra.length) ∧
      ∀ j < a.th.size + 5, j < a.th.ci.func + 1 + A ∨ a.th.ci.func + 1 + A + wanted.getD extra.length ≤ j →
        a'.th.mem (a'.th.stack + j) = a.th.mem (a.th.stack + j) := by
  obtain ⟨th, ⟨hci, hprev, hsize, hslots⟩, htop, rfl⟩ := Activation.vararg_cases hrun
  have hfunc : a.th.ci.func = front.length + extra.length := by rw [h.base.func, List.length_append]
  have hnextra := h.nextra
  have hlimit := h.base.limit
  have hfit := h.base.size
  rw [List.length_append] at hlimit
  have hbelow : th.Below (front ++ extra) := fun k v hk => by
    obtain ⟨hlt, -⟩ := List.getElem?_eq_some_iff.mp hk
    rw [List.length_append] at hlt
    rw [hslots k (by omega)]
    exact h.base.below k v hk
  have hextra : slice th.mem (th.stack + a.th.ci.func - a.nextraargs) a.nextraargs = extra := by
    rw [show th.stack + a.th.ci.func - a.nextraargs = th.stack + front.length by omega, hnextra]
    exact hbelow.slice
  obtain ⟨hvalues, hrest⟩ := copyExtra_spec nil th.mem
    (show th.stack + a.th.ci.func - a.nextraargs + a.nextraargs ≤ th.stack + a.th.ci.func + 1 + A by omega) wanted
  rw [hextra] at hvalues
  refine ⟨⟨⟨hbelow.congr rfl fun j hj => hrest j (.inl ?_), ?_, ?_, ?_, ?_, hprev.trans h.base.previous⟩, hnextra⟩,
    ?_, ?_,
    fun j hj hout => ?_⟩
  · rw [List.length_append] at hj
    omega
  · show _ ≤ th.ci.top
    rw [hci, List.length_append]
    exact hlimit
  · show th.ci.top ≤ th.size
    rw [hci]
    omega
  · show th.ci.func = _
    rw [hci]
    exact h.base.func
  · show th.ci.nresults = _
    rw [hci]
    exact h.base.nresults
  · show slice _ (th.stack + th.ci.func + 1 + A) _ = _
    rw [hci, ← hnextra]
    exact hvalues
  · intro hnone
    show th.top = th.stack + th.ci.func + 1 + A + extra.length
    rw [hci, ← hnextra]
    exact htop hnone
  · rw [← hnextra] at hout
    exact (hrest (th.stack + j) (by omega)).trans (hslots j hj)

/-- Nothing that happens while the function runs touches the extra arguments. -/
theorem Active.step (h : Active res prev front extra a) {op : Op V} (hstep : a.step nil op = some a') :
    Active res prev front extra a' := by
  have hfunc := h.base.func
  cases op with
  | write i v =>
    cases hstep
    refine ⟨⟨h.base.below.congr rfl fun j hj => Function.update_of_ne ?_ _ _, h.base.limit, h.base.size, h.base.func,
      h.base.nresults, h.base.previous⟩, h.nextra⟩
    rw [hfunc]
    omega
  | settop top =>
    cases hstep
    exact ⟨⟨h.base.below, h.base.limit, h.base.size, h.base.func, h.base.nresults, h.base.previous⟩, h.nextra⟩
  | move m =>
    cases hstep
    exact ⟨h.base.move nil [m], h.nextra⟩
  | grow n b =>
    rw [Activation.step, Option.map_eq_some_iff] at hstep
    obtain ⟨th, hgrow, rfl⟩ := hstep
    obtain ⟨newsize, hsize, -, rfl⟩ := growstack_cases hgrow
    exact ⟨h.base.realloc b (Nat.le_trans h.base.size hsize), h.nextra⟩
  | vararg A wanted b => exact (h.vararg hstep).1

theorem Active.run (ops : List (Op V)) : ∀ {a : Activation V}, Active res prev front extra a →
    a.run nil ops = some a' → Active res prev front extra a' := by
  induction ops with
  | nil =>
    intro a h hrun
    cases hrun
    exact h
  | cons op ops ih =>
    intro a h hrun
    rw [Activation.run, Option.bind_eq_some_iff] at hrun
    obtain ⟨a₁, hstep, hrun⟩ := hrun
    exact ih (h.step hstep) hrun

/-! ## From the call on -/

theorem pushAll_below {vs : List V} (ws : List V) : ∀ {th : Thread V}, th.Below vs → th.top = th.stack + vs.length →
    (th.pushAll ws).Below (vs ++ ws) ∧ (th.pushAll ws).top = (th.pushAll ws).stack + (vs ++ ws).length ∧
      (th.pushAll ws).stack = th.stack ∧ (th.pushAll ws).size = th.size ∧ (th.pushAll ws).ci = th.ci ∧
      (th.pushAll ws).previous = th.previous := by
  induction ws generalizing vs with
  | nil =>
    intro th h htop
    rw [List.append_nil]
    exact ⟨h, htop, rfl, rfl, rfl, rfl⟩
  | cons w ws ih =>
    intro th h htop
    have hpush : (th.push w).Below (vs ++ [w]) := by
      have hkeep : (th.push w).Below vs := h.congr rfl fun j hj => Function.update_of_ne (by omega) _ _
      refine hkeep.append ?_
      rw [show (th.push w).stack + vs.length = th.top from htop.symm, List.length_singleton, Results.slice_succ]
      exact congrArg (· :: []) (Function.update_self _ _ _)
    obtain ⟨hbelow, htop', hrest⟩ := ih hpush (by
      rw [List.length_append, List.length_singleton]
      show th.top + 1 = th.stack + _
      omega)
    rw [List.append_assoc] at hbelow htop'
    exact ⟨hbelow, htop', hrest⟩

/-- The arguments, with nil for those parameters that have none. -/
def padded (nil : V) (p : Proto) (args : List V) : List V := args ++ List.replicate (p.numparams - args.length) nil

theorem take_padded (nil : V) (p : Proto) (args : List V) :
    (padded nil p args).take p.numparams = adjust nil (some p.numparams) args := by
  rw [padded, List.take_append, adjust]
  exact congrArg _ (List.take_of_length_le (by rw [List.length_replicate]))

theorem drop_padded (nil : V) (p : Proto) (args : List V) :
    (padded nil p args).drop p.numparams = args.drop p.numparams := by
  rw [padded, List.drop_append]
  exact (congrArg _ (List.drop_of_length_le (by rw [List.length_replicate]))).trans (List.append_nil _)

theorem length_padded (nil : V) (p : Proto) (args : List V) :
    (padded nil p args).length = max args.length p.numparams := by
  rw [padded, List.length_append, List.length_replicate]
  omega

/-- `setup_lua_ci` leaves the function and its arguments on top, and room for the frame. -/
theorem setup_lua_ci_spec {th th₁ : Thread V} {low args : List V} {f : V} {p : Proto} {nresults : Arity} {b : Block V}
    (hbelow : th.Below (low ++ f :: args)) (htop : th.top = th.stack + (low ++ f :: args).length)
    (hroom : (low ++ f :: args).length ≤ th.size + 5) (hp : p.numparams ≤ p.maxstacksize)
    (hrun : setup_lua_ci nil th (th.stack + low.length) nresults p b = some th₁) :
    th₁.Below (low ++ f :: padded nil p args) ∧ th₁.top = th₁.stack + (low ++ f :: padded nil p args).length ∧
      (low ++ f :: padded nil p args).length ≤ th₁.size + 5 ∧
      th₁.ci = ⟨low.length, low.length + 1 + p.maxstacksize, nresults⟩ ∧ th₁.previous = th.ci :: th.previous := by
  have hlen : (low ++ f :: args).length = low.length + (args.length + 1) := by rw [List.length_append, List.length_cons]
  rw [setup_lua_ci, Option.map_eq_some_iff] at hrun
  obtain ⟨th', hgrow, rfl⟩ := hrun
  obtain ⟨hci, hprev, hsize, hle, hsame, hfit, hslots⟩ := growFor_spec hgrow (by omega)
  have hnarg : th.top - (th.stack + low.length) - 1 = args.length := by omega
  have hbelow' : th'.Below (low ++ f :: args) := fun k v hk => by
    obtain ⟨hlt, -⟩ := List.getElem?_eq_some_iff.mp hk
    rw [hslots k (by omega)]
    exact hbelow k v hk
  obtain ⟨hall, htop', hstack, hsize', hci', hprev'⟩ := pushAll_below (List.replicate (p.numparams - args.length) nil)
    (show ({ th' with
      ci := ⟨low.length, low.length + 1 + p.maxstacksize, nresults⟩, previous := th'.ci :: th'.previous } :
        Thread V).Below (low ++ f :: args) from hbelow') (show th'.top = th'.stack + _ by omega)
  rw [hnarg, Nat.add_sub_cancel_left]
  rw [List.append_assoc, List.cons_append] at hall htop'
  refine ⟨hall, htop', ?_, hci', by rw [hprev', hci, hprev]⟩
  rw [hsize']
  show _ ≤ th'.size + 5
  rw [List.length_append, List.length_cons, length_padded]
  omega

theorem below_call {th : Thread V} {low args : List V} {f : V} (h : th.Below (low ++ f :: args)) :
    th.mem (th.stack + low.length) = f ∧
      ∀ (k : Nat) (hk : k < args.length), th.mem (th.stack + low.length + 1 + k) = args[k] := by
  refine ⟨h low.length f (by simp), fun k hk => ?_⟩
  have hmem := h (low.length + 1 + k) args[k] (by
    rw [List.getElem?_append_right (by omega), show low.length + 1 + k - low.length = k + 1 by omega,
      List.getElem?_cons_succ, List.getElem?_eq_getElem hk])
  rwa [show th.stack + (low.length + 1 + k) = th.stack + low.length + 1 + k by omega] at hmem

/-- `luaT_adjustvarargs` leaves the parameters in the new frame and the other arguments below it. -/
theorem luaT_adjustvarargs_spec {th : Thread V} {a : Activation V} {low args : List V} {f : V} {p : Proto} {b : Block V}
    (hbelow : th.Below (low ++ f :: args)) (htop : th.top = th.stack + (low ++ f :: args).length)
    (hroom : (low ++ f :: args).length ≤ th.size + 5) (hargs : p.numparams ≤ args.length)
    (hci : th.ci.func = low.length) (hlimit : th.ci.top = low.length + 1 + p.maxstacksize)
    (hrun : luaT_adjustvarargs nil th p b = some a) :
    a.th.ci.func = low.length + (args.length + 1) ∧ a.nextraargs = args.length - p.numparams ∧
      a.th.mem (a.th.stack + a.th.ci.func) = f ∧
      slice a.th.mem (a.th.stack + a.th.ci.func + 1) p.numparams = args.take p.numparams ∧
      ∃ front : List V, front.length = low.length + 1 + p.numparams ∧
        Active th.ci.nresults th.previous front (args.drop p.numparams) a := by
  have hlen : (low ++ f :: args).length = low.length + (args.length + 1) := by rw [List.length_append, List.length_cons]
  rw [luaT_adjustvarargs, Option.map_eq_some_iff] at hrun
  obtain ⟨th', hgrow, rfl⟩ := hrun
  obtain ⟨hci', hprev, hsize, hle, hsame, hfit, hslots⟩ := growFor_spec hgrow (by omega)
  have hactual : th.top - (th.stack + th.ci.func) - 1 = args.length := by omega
  have htop' : th'.top = th'.stack + low.length + (args.length + 1) := by omega
  have hbelow' : th'.Below (low ++ f :: args) := fun k v hk => by
    obtain ⟨hlt, -⟩ := List.getElem?_eq_some_iff.mp hk
    rw [hslots k (by omega)]
    exact hbelow k v hk
  have hfunc' : th'.ci.func = low.length := by rw [hci', hci]
  obtain ⟨hf, hget⟩ := below_call hbelow'
  obtain ⟨hcopyf, hparams, hrest⟩ := Calls.copyParams_spec nil th'.mem (th'.stack + low.length) th'.top p.numparams
    (by omega)
  rw [hactual]
  dsimp only
  rw [hfunc', show th'.stack + (th'.stack + low.length + (args.length + 1) - th'.stack) = th'.top by omega,
    show th'.stack + low.length + (args.length + 1) - th'.stack = low.length + (args.length + 1) by omega]
  refine ⟨rfl, rfl, hcopyf.trans hf, ?_, ?_⟩
  · apply List.ext_getElem
    · rw [Coroutine.length_slice, List.length_take]
      omega
    · intro k hk hk'
      rw [Coroutine.length_slice] at hk
      rw [Coroutine.getElem_slice, hparams k hk, hget k (by omega), List.getElem_take]
  · refine ⟨slice (copyParams nil th'.mem (th'.stack + low.length) th'.top p.numparams) th'.stack
      (low.length + 1 + p.numparams), Coroutine.length_slice _ _ _, ⟨?_, ?_, ?_, ?_, ?_, ?_⟩, ?_⟩
    · have hfront : ({ th' with mem := copyParams nil th'.mem (th'.stack + low.length) th'.top p.numparams } :
          Thread V).Below (slice (copyParams nil th'.mem (th'.stack + low.length) th'.top p.numparams) th'.stack
            (low.length + 1 + p.numparams)) := Coroutine.at_slice _ _ _
      refine hfront.append ?_
      rw [Coroutine.length_slice]
      apply List.ext_getElem (Coroutine.length_slice _ _ _)
      intro k hk hk'
      rw [List.length_drop] at hk'
      rw [Coroutine.getElem_slice]
      show copyParams nil th'.mem (th'.stack + low.length) th'.top p.numparams
        (th'.stack + (low.length + 1 + p.numparams) + k) = _
      rw [hrest _ (.inr (by omega)), List.getElem_drop, ← hget (p.numparams + k) (by omega)]
      congr 1
      omega
    · show _ ≤ th'.ci.top + (args.length + 1)
      rw [hci', hlimit, List.length_append, Coroutine.length_slice, List.length_drop]
      omega
    · show th'.ci.top + (args.length + 1) ≤ th'.size
      rw [hci', hlimit]
      omega
    · show low.length + (args.length + 1) = _
      rw [List.length_append, Coroutine.length_slice, List.length_drop]
      omega
    · show th'.ci.nresults = _
      rw [hci']
    · exact hprev
    · show args.length - p.numparams = _
      rw [List.length_drop]

variable (nil)

/-- The call of a vararg function with any arguments: the parameters are the first arguments. Whatever happens while
it runs, each `OP_VARARG` writes the other arguments, cut or filled up to what is wanted, and changes no other slot,
and `OP_RETURN` returns to the slot of the function. -/
theorem varargs_exact (th th₁ : Thread V) (low args : List V) (f : V) (p : Proto) (nresults : Arity) (b b' : Block V)
    (a : Activation V) (hbelow : th.Below (low ++ f :: args)) (htop : th.top = th.stack + (low ++ f :: args).length)
    (hroom : (low ++ f :: args).length ≤ th.size + 5) (hp : p.numparams ≤ p.maxstacksize)
    (hcall : setup_lua_ci nil th (th.stack + low.length) nresults p b = some th₁)
    (hprep : luaT_adjustvarargs nil th₁ p b' = some a) :
    a.th.mem (a.th.stack + a.th.ci.func) = f ∧
      slice a.th.mem (a.th.stack + a.th.ci.func + 1) p.numparams = adjust nil (some p.numparams) args ∧
      ∀ ops a', a.run nil ops = some a' →
        a'.returnFunc p = low.length ∧
        ∀ A wanted b'' a'', a'.vararg nil A wanted b'' = some a'' →
          slice a''.th.mem (a''.th.stack + a''.th.ci.func + 1 + A) (wanted.getD (args.length - p.numparams)) =
            adjust nil wanted (args.drop p.numparams) ∧
          (wanted = none → a''.th.top = a''.th.stack + a''.th.ci.func + 1 + A + (args.length - p.numparams)) ∧
          ∀ j < a'.th.size + 5, j < a'.th.ci.func + 1 + A ∨
              a'.th.ci.func + 1 + A + wanted.getD (args.length - p.numparams) ≤ j →
            a''.th.mem (a''.th.stack + j) = a'.th.mem (a'.th.stack + j) := by
  obtain ⟨hbelow₁, htop₁, hroom₁, hci₁, -⟩ := setup_lua_ci_spec hbelow htop hroom hp hcall
  have hlen := length_padded nil p args
  obtain ⟨hfunc, -, hf, hparams, front, hfront, hactive⟩ := luaT_adjustvarargs_spec hbelow₁ htop₁ hroom₁
    (show p.numparams ≤ (padded nil p args).length by omega) (by rw [hci₁]) (by rw [hci₁]) hprep
  rw [drop_padded] at hactive
  rw [take_padded] at hparams
  refine ⟨hf, hparams, fun ops a' hrun => ?_⟩
  have hactive' := hactive.run ops hrun
  refine ⟨?_, fun A wanted b'' a'' hvararg => ?_⟩
  · rw [Activation.returnFunc, hactive'.base.func, hactive'.nextra, List.length_append, hfront]
    omega
  · obtain ⟨-, hvalues, htop'', hrest⟩ := hactive'.vararg hvararg
    rw [List.length_drop] at hvalues htop'' hrest
    exact ⟨hvalues, htop'', hrest⟩

/-- A function `f(x, ...)` that is called with `4, 5, 6` and assigns to `x`, then `local a, b, c = ...`. -/
theorem varargs_exact_three :
    let th : Thread Nat := ⟨100, 40, 105, Coroutine.put (fun _ => 0) 100 [1, 7, 4, 5, 6], ⟨0, 10, none⟩, []⟩
    let p : Proto := ⟨1, true, 3, false⟩
    let b : Block Nat := ⟨500, fun _ => 9⟩
    ∃ th₁ a a' a'', setup_lua_ci 0 th 101 none p b = some th₁ ∧ luaT_adjustvarargs 0 th₁ p b = some a ∧
      a.run 0 [.write 0 8] = some a' ∧ a'.vararg 0 0 (some 3) b = some a'' ∧
      slice a''.th.mem (a''.th.stack + a''.th.ci.func + 1 + 0) 3 = [5, 6, 0] ∧ a'.returnFunc p = 1 := by
  intro th p b
  obtain ⟨-, -, hrun⟩ := varargs_exact 0 th _ [1] [4, 5, 6] 7 p none b b _ (Coroutine.at_put _ _ _) rfl (by decide)
    (by decide) rfl rfl
  obtain ⟨hfunc, hvararg⟩ := hrun [.write 0 8] _ rfl
  obtain ⟨hvalues, -⟩ := hvararg 0 (some 3) b _ rfl
  exact ⟨_, _, _, _, rfl, rfl, rfl, rfl, hvalues, hfunc⟩

end

end Tsuki.Varargs
