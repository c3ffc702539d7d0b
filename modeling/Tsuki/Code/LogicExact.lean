import Tsuki.Code.LogicRun

/-!
# The generator of conditions is correct

Each function of the generator adds code and jumps to an expression and says what the code computes. At the end all
jumps lead behind the expression, with its value in the next register.
-/

namespace Tsuki.Jumps

/-- So many instructions are added at most. -/
def Op.cost : Op → Nat
  | .emit _ | .jump _ => 1
  | .condjump .. => 2
  | .exp2reg .. => 3
  | _ => 0

theorem length_exp2regCode_le {code : Code} {t f : List Nat} {vjmp : Bool} {reg : Nat} :
    (exp2regCode code t f vjmp reg).length ≤ code.length + 3 := by
  unfold exp2regCode
  split
  · simp only [length_patched, List.length_append]
    cases vjmp
    · exact le_rfl
    · exact Nat.le_succ _
  · rw [length_patched, length_patched]
    exact Nat.le_add_right _ _

theorem Op.Effect.length_le {code code' : Code} {L L' : Nat → List Nat} {op : Op} (h : op.Effect code L code' L') :
    code'.length ≤ code.length + op.cost := by
  cases op with
  | exp2reg t f info reg => exact h.1 ▸ length_exp2regCode_le
  | concat v w => exact h.2.1.le
  | _ =>
    rw [h.1]
    simp [Op.cost, length_patched, length_controlled]

end Tsuki.Jumps

namespace Tsuki.Logic

open Jumps Lib.Threads

/-! ## The generator gives up or goes on -/

/-- The result is as it should be, with at most `n` instructions more than the `len` from before. Or the generator
gives up: so much code is too long for a jump, or there is no register but the first `base`. -/
def Yields {β : Type} (π : β → FuncState) (len n base : Nat) (r : Rust β) (P : β → Prop) : Prop :=
  match r with
  | .ok a => (π a).code.length ≤ len + n ∧ P a
  | .error e => e = tooLong ∧ 16777212 < len + n ∨ e = tooMany ∧ 255 ≤ base + 1

section

variable {β γ : Type} {π : β → FuncState} {π' : γ → FuncState} {len len' n n' base : Nat} {r : Rust β} {P Q : β → Prop}

theorem Yields.ok {a : β} (h : P a) (hlen : (π a).code.length ≤ len + n) : Yields π len n base (.ok a) P := ⟨hlen, h⟩

theorem Yields.mono (h : Yields π len n base r P) (hle : len + n ≤ len' + n') (hPQ : ∀ a, P a → Q a) :
    Yields π len' n' base r Q := by
  cases r with
  | ok a => exact ⟨h.1.trans hle, hPQ a h.2⟩
  | error e => exact h.imp_left (And.imp_right fun hlen => hlen.trans_le hle)

theorem Yields.imp (h : Yields π len n base r P) (hPQ : ∀ a, P a → Q a) : Yields π len n base r Q :=
  h.mono le_rfl hPQ

theorem Yields.bind {f : β → Rust γ} {Q : γ → Prop} (h : Yields π len n base r P) (hle : n ≤ n')
    (hf : ∀ a, P a → Yields π' (π a).code.length (n' - n) base (f a) Q) : Yields π' len n' base (r >>= f) Q := by
  cases r with
  | ok a =>
    have hlen : (π a).code.length ≤ len + n := h.1
    exact (hf a h.2).mono (by omega) fun _ hQ => hQ
  | error e => exact h.imp_left (And.imp_right fun hlen => hlen.trans_le (Nat.add_le_add_left hle len))

end

section

variable {fs : FuncState} {L L₀ : Nat → List Nat} {code₀ : Code} {v base : Nat}

theorem FuncState.op_spec (h : Proper fs.gen L) (op : Op) (hok : op.Ok fs.code) :
    Yields id fs.code.length op.cost base (fs.op op) fun fs' =>
      ∃ L', Proper fs'.gen L' ∧ op.Effect fs.code L fs'.code L' ∧ fs'.freereg = fs.freereg := by
  rcases h.step hok with ⟨herr, hlen⟩ | ⟨s', L', hs, hproper, heffect⟩
  · rw [FuncState.op, herr]
    exact .inl ⟨rfl, hlen.trans_le (Nat.le_add_right _ _)⟩
  · rw [FuncState.op, hs]
    exact ⟨heffect.length_le, L', hproper, heffect, rfl⟩

theorem FuncState.reserve_spec (hfree : fs.freereg = base) :
    Yields id fs.code.length 0 base fs.reserve fun fs' =>
      fs'.gen = fs.gen ∧ fs'.freereg = base + 1 ∧ base + 1 < 255 := by
  subst hfree
  unfold FuncState.reserve
  split_ifs with h
  · exact ⟨le_rfl, rfl, rfl, h⟩
  · exact .inr ⟨rfl, Nat.le_of_not_lt h⟩

/-- The generator has added to the code, and put jumps in the three variables from `v` on. -/
structure Made (code₀ : Code) (L₀ : Nat → List Nat) (v : Nat) (gen : Gen) (L : Nat → List Nat) : Prop where
  proper : Proper gen L
  outer : ∀ w < v, L w = L₀ w
  free : ∀ w, v + 3 ≤ w → L w = []
  keep : ∀ i < code₀.length, gen.code[i]? = code₀[i]?
  le : code₀.length ≤ gen.code.length
  inside : ∀ w, v ≤ w → ∀ j ∈ L w, code₀.length < j

theorem Made.jmp (h : Made code₀ L₀ v fs.gen L) {w j : Nat} (hj : j ∈ L w) : ∃ t, fs.code[j]? = some (.jmp t) :=
  h.proper.jmp hj

theorem Made.emit (h : Made code₀ L₀ v fs.gen L) {i : Instr} (hi : i.isJmp = false) (ht : i.testTMode = false) :
    Yields id fs.code.length 1 base (fs.op (.emit i)) fun fs' =>
      Made code₀ L₀ v fs'.gen L ∧ fs'.code = fs.code ++ [i] ∧ fs'.freereg = fs.freereg := by
  refine (fs.op_spec h.proper (.emit i) ⟨hi, ht⟩).imp ?_
  rintro fs' ⟨L', hproper, ⟨hcode, rfl⟩, hfree⟩
  refine ⟨{ h with proper := hproper, keep := fun i hi => ?_, le := ?_ }, hcode, hfree⟩
  · rw [show fs'.gen.code = _ from hcode, List.getElem?_append_left (hi.trans_le h.le)]
    exact h.keep i hi
  · rw [show fs'.gen.code = _ from hcode, List.length_append]
    exact h.le.trans (Nat.le_add_right _ _)

theorem Made.change (h : Made code₀ L₀ v fs.gen L) {pc : Nat} {i x : Instr} (hpc : code₀.length ≤ pc)
    (hx : fs.code[pc]? = some x) (hxj : x.isJmp = false) (hij : i.isJmp = false) (hmode : i.testTMode = x.testTMode) :
    Yields id fs.code.length 0 base (fs.op (.change pc i)) fun fs' =>
      Made code₀ L₀ v fs'.gen L ∧ fs'.code = fs.code.set pc i ∧ fs'.freereg = fs.freereg := by
  refine (fs.op_spec h.proper (.change pc i) ⟨x, hx, hxj, hij, hmode⟩).imp ?_
  rintro fs' ⟨L', hproper, ⟨hcode, rfl⟩, hfree⟩
  refine ⟨{ h with proper := hproper, keep := fun i hi => ?_, le := ?_ }, hcode, hfree⟩
  · rw [show fs'.gen.code = _ from hcode, List.getElem?_set_ne (by omega)]
    exact h.keep i hi
  · rw [show fs'.gen.code = _ from hcode, List.length_set]
    exact h.le

theorem Made.condjump (h : Made code₀ L₀ v fs.gen L) {i : Instr} (hi : i.testTMode = true) :
    Yields id fs.code.length 2 base (fs.op (.condjump i (v + 2))) fun fs' =>
      Made code₀ L₀ v fs'.gen (Function.update L (v + 2) [fs.code.length + 1]) ∧
        fs'.code = fs.code ++ [i, .jmp (-1)] ∧ fs'.freereg = fs.freereg := by
  refine (fs.op_spec h.proper (.condjump i (v + 2)) hi).imp ?_
  rintro fs' ⟨L', hproper, ⟨hcode, rfl⟩, hfree⟩
  refine ⟨⟨hproper, fun w hw => ?_, fun w hw => ?_, fun i hi => ?_, ?_, fun w hw j hj => ?_⟩, hcode, hfree⟩
  · rw [Function.update_of_ne (by omega), h.outer w hw]
  · rw [Function.update_of_ne (by omega), h.free w hw]
  · rw [show fs'.gen.code = _ from hcode, List.getElem?_append_left (hi.trans_le h.le)]
    exact h.keep i hi
  · rw [show fs'.gen.code = _ from hcode, List.length_append]
    exact h.le.trans (Nat.le_add_right _ _)
  · by_cases hwv : w = v + 2
    · rw [hwv, Function.update_self, List.mem_singleton] at hj
      rw [hj]
      exact Nat.lt_succ_of_le h.le
    · rw [Function.update_of_ne hwv] at hj
      exact h.inside w hw j hj

theorem Made.removelast (h : Made code₀ L₀ v fs.gen L) {stop : Nat} (hstart : code₀.length ≤ stop)
    (hlen : fs.code.length = stop + 1) {x : Instr} (hx : fs.code[stop]? = some x) (hxj : x.isJmp = false)
    (hland : ∀ (pc : Nat) (t : Int), fs.code[pc]? = some (.jmp t) → (pc : Int) + 1 + t ≤ stop) :
    Yields id fs.code.length 0 base (fs.op .removelast) fun fs' =>
      Made code₀ L₀ v fs'.gen L ∧ fs'.code = fs.code.take stop ∧ fs'.freereg = fs.freereg := by
  have htake : fs.code.dropLast = fs.code.take stop := by rw [List.dropLast_eq_take, hlen, Nat.add_sub_cancel]
  have hsplit : fs.code = fs.code.take stop ++ [x] := by
    conv_lhs => rw [← List.take_append_drop stop fs.code]
    rw [List.drop_eq_getElem_cons (by omega), List.drop_eq_nil_of_le (by omega)]
    rw [List.getElem?_eq_getElem (by omega)] at hx
    rw [Option.some.inj hx]
  have hlen' : (fs.code.take stop).length = stop := by rw [List.length_take]; omega
  refine (fs.op_spec h.proper .removelast
    ⟨_, x, hsplit, hxj, fun pc t ht => by rw [hlen']; exact hland pc t ht⟩).imp ?_
  rintro fs' ⟨L', hproper, ⟨hcode, rfl⟩, hfree⟩
  rw [htake] at hcode
  refine ⟨{ h with proper := hproper, keep := fun i hi => ?_, le := ?_ }, hcode, hfree⟩
  · rw [show fs'.gen.code = _ from hcode, List.getElem?_take_of_lt (by omega)]
    exact h.keep i hi
  · rw [show fs'.gen.code = _ from hcode, hlen']
    exact hstart

theorem list_lt (b : Bool) : v ≤ list v b ∧ list v b < v + 2 := by
  cases b <;> simp [list]

theorem list_not_ne (b : Bool) : (list v !b) ≠ list v b := by
  cases b <;> simp [list]

/-- The jump of a condition is put in its list. -/
theorem Made.concat (h : Made code₀ L₀ v fs.gen L) (b : Bool) :
    Yields id fs.code.length 0 base (fs.op (.concat (list v b) (v + 2))) fun fs' => ∃ L', Made code₀ L₀ v fs'.gen L' ∧
      L' (list v b) = L (list v b) ++ L (v + 2) ∧ L' (list v !b) = L (list v !b) ∧ L' (v + 2) = [] ∧
      (∀ i, i ∉ L (list v b) → fs'.code[i]? = fs.code[i]?) ∧ fs'.code.length = fs.code.length ∧
      fs'.freereg = fs.freereg := by
  have hb := list_lt (v := v) b
  have hb' := list_lt (v := v) !b
  refine (fs.op_spec h.proper (.concat (list v b) (v + 2)) (show _ ≠ _ by omega)).imp ?_
  rintro fs' ⟨L', hproper, ⟨hcode, hlen, rfl⟩, hfree⟩
  have hcode' (i : Nat) (hi : i ∉ L (list v b)) : fs'.code[i]? = fs.code[i]? :=
    hcode i fun hlast => hi (List.mem_of_getLast? hlast)
  refine ⟨_, ⟨hproper, fun w hw => ?_, fun w hw => ?_, fun i hi => ?_, ?_, fun w hw j hj => ?_⟩, ?_, ?_, ?_, hcode',
    hlen, hfree⟩
  · rw [Function.update_of_ne (by omega), Function.update_of_ne (by omega), h.outer w hw]
  · rw [Function.update_of_ne (by omega), Function.update_of_ne (by omega), h.free w hw]
  · rw [show fs'.gen.code[i]? = _ from hcode' i fun hmem => absurd (h.inside _ hb.1 i hmem) (by omega)]
    exact h.keep i hi
  · exact hlen ▸ h.le
  · by_cases hwv : w = v + 2
    · rw [hwv, Function.update_self] at hj
      exact absurd hj List.not_mem_nil
    · rw [Function.update_of_ne hwv] at hj
      by_cases hwb : w = list v b
      · rw [hwb, Function.update_self, List.mem_append] at hj
        exact hj.elim (h.inside _ hb.1 j) (h.inside _ (by omega) j)
      · rw [Function.update_of_ne hwb] at hj
        exact h.inside w hw j hj
  · rw [Function.update_of_ne (by omega), Function.update_self]
  · rw [Function.update_of_ne (by omega), Function.update_of_ne (list_not_ne b)]
  · rw [Function.update_self]

theorem Made.patchtohere (h : Made code₀ L₀ v fs.gen L) (b : Bool) :
    Yields id fs.code.length 0 base (fs.op (.patchtohere (list v b))) fun fs' =>
      Made code₀ L₀ v fs'.gen (Function.update L (list v b) []) ∧
        fs'.code = patched fs.code (L (list v b)) fs.code.length noReg fs.code.length ∧ fs'.freereg = fs.freereg := by
  have hb := list_lt (v := v) b
  refine (fs.op_spec h.proper (.patchtohere (list v b)) trivial).imp ?_
  rintro fs' ⟨L', hproper, ⟨hcode, rfl⟩, hfree⟩
  refine ⟨⟨hproper, fun w hw => ?_, fun w hw => ?_, fun i hi => ?_, ?_, fun w hw j hj => ?_⟩, hcode, hfree⟩
  · rw [Function.update_of_ne (by omega), h.outer w hw]
  · rw [Function.update_of_ne (by omega), h.free w hw]
  · have hnot (j : Nat) (hj : j ≤ code₀.length) : j ∉ L (list v b) := fun hmem =>
      absurd (h.inside _ hb.1 j hmem) (by omega)
    rw [show fs'.gen.code = _ from hcode, getElem?_patched]
    simp only [if_neg (hnot i hi.le), if_neg (hnot (i + 1) hi), Option.map_id']
    exact h.keep i hi
  · rw [show fs'.gen.code = _ from hcode, length_patched]
    exact h.le
  · by_cases hwb : w = list v b
    · rw [hwb, Function.update_self] at hj
      exact absurd hj List.not_mem_nil
    · rw [Function.update_of_ne hwb] at hj
      exact h.inside w hw j hj

end

/-! ## Expressions -/

section

variable {α σ : Type} (lang : Lang α σ) (nact : Nat)

/-- What is known of an expression before its last instructions, which still depend on what becomes of it. -/
def Holds (code : Code) (stop : Nat) (k : Kind) (out : Value α × Vars α σ) (s : State α σ) : Prop :=
  match k with
  | .nil => out = (.nil, s.vars)
  | .false_ => out = (.bool false, s.vars)
  | .true_ => out = (.bool true, s.vars)
  | .k op bx => out = (.other (lang.const op bx), s.vars)
  | .nonreloc r => out = (s.get nact r, s.vars)
  | .reloc _ => ∃ w, code[stop]? = some (.other w) ∧ Computes w ∧ out = valueOf lang nact w s
  | .jmp => ∃ w, code[stop]? = some (.compare w) ∧
      out = (.bool (taken lang w s.vars).1, (taken lang w s.vars).2)

/-- Where the last instructions are, and which registers are in use. -/
def Kind.Ok (v base : Nat) (fs : FuncState) (L : Nat → List Nat) (stop : Nat) : Kind → Prop
  | .nonreloc r => fs.code.length = stop ∧ L (v + 2) = [] ∧
      (r < nact ∧ fs.freereg = base ∨ r = base ∧ fs.freereg = base + 1)
  | .reloc pc => pc = stop ∧ fs.code.length = stop + 1 ∧ L (v + 2) = [] ∧ fs.freereg = base ∧
      (∃ w, fs.code[stop]? = some (.other w)) ∧
      ∀ (i : Nat) (t : Int), fs.code[i]? = some (.jmp t) → (i : Int) + 1 + t ≤ stop
  | .jmp => fs.code.length = stop + 2 ∧ L (v + 2) = [stop + 1] ∧ fs.freereg = base ∧
      ∃ w, fs.code[stop]? = some (.compare w)
  | _ => fs.code.length = stop ∧ L (v + 2) = [] ∧ fs.freereg = base

/-- An expression with the value `m`, from the end of `code₀` on. -/
structure Spec (code₀ : Code) (L₀ : Nat → List Nat) (v base : Nat) (m : Vars α σ → Value α × Vars α σ)
    (fs : FuncState) (k : Kind) (L : Nat → List Nat) (stop : Nat) : Prop where
  made : Made code₀ L₀ v fs.gen L
  start : code₀.length ≤ stop
  kind : k.Ok nact v base fs L stop
  sim : Sim lang nact code₀.length base fs.code (fun b => L (list v b)) stop m (Holds lang nact fs.code stop k)

/-- The value is in a register. -/
structure Valued (code₀ : Code) (L₀ : Nat → List Nat) (v base : Nat) (m : Vars α σ → Value α × Vars α σ)
    (fs : FuncState) (L : Nat → List Nat) (r : Nat) : Prop where
  made : Made code₀ L₀ v fs.gen L
  info : L (v + 2) = []
  sim : Sim lang nact code₀.length base fs.code (fun b => L (list v b)) fs.code.length m
    fun out s => out = (s.get nact r, s.vars)

variable {lang nact} {code₀ : Code} {L₀ L : Nat → List Nat} {v base stop : Nat} {m : Vars α σ → Value α × Vars α σ}
  {fs : FuncState} {k : Kind}

/-- The jumps of the lists are before the last instructions. -/
theorem Spec.lt (h : Spec lang nact code₀ L₀ v base m fs k L stop) (b : Bool) : ∀ j ∈ L (list v b), j < stop := by
  intro j hj
  have hlt : j < fs.code.length := h.made.proper.lt hj
  obtain ⟨t, ht⟩ := h.made.jmp hj
  have hkind := h.kind
  cases k with
  | reloc pc =>
    obtain ⟨-, hlen, -, -, ⟨w, hw⟩, -⟩ := hkind
    have : j ≠ stop := fun heq => by
      rw [heq, hw] at ht
      cases ht
    omega
  | jmp =>
    obtain ⟨hlen, hinfo, -, w, hw⟩ := hkind
    have : j ≠ stop := fun heq => by
      rw [heq, hw] at ht
      cases ht
    have : j ≠ stop + 1 := fun heq =>
      h.made.proper.disjoint (show list v b ≠ v + 2 by have := list_lt (v := v) b; omega) j hj
        (by rw [hinfo, heq]; exact List.mem_singleton_self _)
    omega
  | _ =>
    have hlen : fs.code.length = stop := hkind.1
    omega

/-- The end of a part where a value was put into a register. -/
theorem set_spec {s : State α σ} {r : Nat} (hbase : nact ≤ base) (hr : base ≤ r) (out : Value α × Vars α σ) :
    Frame base s ({ s with vars := out.2 }.set nact r out.1) ∧
      out = (({ s with vars := out.2 }.set nact r out.1).get nact r,
        ({ s with vars := out.2 }.set nact r out.1).vars) := by
  refine ⟨Frame.set (fun _ _ => rfl) hr _, ?_⟩
  rw [get_set_self, vars_set (hbase.trans hr)]

theorem exec_move {a b : Nat} (ha : a < 256) (hb : b < 256) (s : State α σ) :
    exec lang nact (word 0 a b) s = s.set nact a (s.get nact b) := by
  rw [exec, opcode_word (by omega), fieldA_word (by omega) ha, fieldB_word (by omega) ha hb]
  rfl

theorem exec_false {a : Nat} (ha : a < 256) (s : State α σ) :
    exec lang nact (word 5 a 0) s = s.set nact a (.bool false) := by
  rw [exec, opcode_word (by omega), fieldA_word (by omega) ha]
  rfl

theorem exec_nil {a : Nat} (ha : a < 256) (s : State α σ) : exec lang nact (word 8 a 0) s = s.set nact a .nil := by
  rw [exec, opcode_word (by omega), fieldA_word (by omega) ha, fieldB_word (by omega) ha (by omega)]
  rfl

theorem exec_const (op : KOp) {a : Nat} (ha : a < 256) (bx : Nat) (s : State α σ) :
    exec lang nact (op.word a bx) s = s.set nact a (.other (lang.const op bx)) := by
  have hop : op.opcode < 128 := by cases op <;> simp [KOp.opcode]
  have hopcode : opcode (op.word a bx) = op.opcode := by
    unfold opcode KOp.word
    omega
  have hfield : fieldA (op.word a bx) = a := by
    unfold fieldA KOp.word
    omega
  have hbx : op.word a bx / 32768 = bx := by
    unfold KOp.word
    omega
  rw [exec, hopcode, hfield, hbx]
  cases op <;> rfl

/-- One instruction puts the value into a register. -/
theorem Sim.emit (h : Made code₀ L₀ v fs.gen L) (hinfo : L (v + 2) = []) (hstart : code₀.length ≤ fs.code.length)
    {fall : Value α × Vars α σ → State α σ → Prop}
    (hsim : Sim lang nact code₀.length base fs.code (fun b => L (list v b)) fs.code.length m fall)
    (n : Nat) {x : Instr} {r : Nat} (hx : x.isJmp = false) (ht : x.testTMode = false) (f : State α σ → State α σ)
    (hstep : ∀ (C : Code) (pc : Nat) s, C[pc]? = some x → step lang nact C (pc, s) = some (pc + 1, f s))
    (hexec : ∀ y s, fall (m y) s → Frame base s (f s) ∧ m y = ((f s).get nact r, (f s).vars)) :
    Yields id fs.code.length 1 base (FuncState.op ⟨fs.gen, n⟩ (.emit x)) fun fs' =>
      Valued lang nact code₀ L₀ v base m fs' L r ∧ fs'.freereg = n := by
  have hmade : Made code₀ L₀ v (FuncState.mk fs.gen n).gen L := h
  refine (hmade.emit hx ht).imp ?_
  rintro fs' ⟨hmade, hcode, hfree⟩
  refine ⟨⟨hmade, hinfo, ?_⟩, hfree⟩
  rw [hcode, List.length_append]
  exact hsim.exec hstart (fun i hi => List.getElem?_append_left hi) List.getElem?_concat_length
    (fun b j hj => h.proper.lt hj) f (fun C s => hstep C _ s) hexec

/-- `discharge2reg` of anything but a jump; the register is free. -/
theorem Spec.discharge2reg (h : Spec lang nact code₀ L₀ v base m fs k L stop) (hk : k ≠ .jmp) (hbase : nact ≤ base)
    {reg : Nat} (hreg : base ≤ reg) (hlt : reg < 255) (n : Nat) :
    Yields id fs.code.length 1 base (FuncState.discharge2reg ⟨fs.gen, n⟩ k reg) fun fs' =>
      Valued lang nact code₀ L₀ v base m fs' L reg ∧ fs'.freereg = n := by
  have hset (out : Value α × Vars α σ) (s : State α σ) (x : Value α) (hout : out = (x, s.vars)) :
      Frame base s (s.set nact reg x) ∧ out = ((s.set nact reg x).get nact reg, (s.set nact reg x).vars) := by
    subst hout
    exact set_spec (s := s) hbase hreg (x, s.vars)
  have hother (w : Nat) (C : Code) (pc : Nat) (s : State α σ) (hw : C[pc]? = some (.other w)) :
      step lang nact C (pc, s) = some (pc + 1, exec lang nact w s) := step_other hw
  have hkind := h.kind
  have hsim := h.sim
  cases k with
  | nil =>
    obtain ⟨hlen, hinfo, -⟩ := hkind
    subst hlen
    refine hsim.emit h.made hinfo h.start n rfl rfl (exec lang nact (word 8 reg 0)) (hother _) fun y s hy => ?_
    rw [exec_nil (by omega)]
    exact hset _ s _ hy
  | false_ =>
    obtain ⟨hlen, hinfo, -⟩ := hkind
    subst hlen
    refine hsim.emit h.made hinfo h.start n rfl rfl (exec lang nact (word 5 reg 0)) (hother _) fun y s hy => ?_
    rw [exec_false (by omega)]
    exact hset _ s _ hy
  | true_ =>
    obtain ⟨hlen, hinfo, -⟩ := hkind
    subst hlen
    refine hsim.emit h.made hinfo h.start n rfl rfl (fun s => s.set nact reg (.bool true)) (fun C pc s hx => ?_)
      fun y s hy => hset _ s _ hy
    simp only [step, hx]
  | k op bx =>
    obtain ⟨hlen, hinfo, -⟩ := hkind
    subst hlen
    refine hsim.emit h.made hinfo h.start n rfl rfl (exec lang nact (op.word reg bx)) (hother _) fun y s hy => ?_
    rw [exec_const op (by omega)]
    exact hset _ s _ hy
  | nonreloc r =>
    obtain ⟨hlen, hinfo, hr⟩ := hkind
    subst hlen
    simp only [FuncState.discharge2reg]
    split_ifs with hne
    · refine hsim.emit h.made hinfo h.start n rfl rfl (exec lang nact (word 0 reg r)) (hother _) fun y s hy => ?_
      rw [exec_move (by omega) (by omega)]
      exact hset _ s _ hy
    · obtain rfl := not_not.mp hne
      exact .ok ⟨⟨h.made, hinfo, hsim⟩, rfl⟩ (Nat.le_add_right _ _)
  | reloc pc =>
    obtain ⟨rfl, hlen, hinfo, -, ⟨w, hw⟩, -⟩ := hkind
    have hw' : (FuncState.mk fs.gen n).code[pc]? = some (.other w) := hw
    simp only [FuncState.discharge2reg, hw']
    have hmade : Made code₀ L₀ v (FuncState.mk fs.gen n).gen L := h.made
    refine (hmade.change (i := .other (setA w reg)) h.start hw rfl rfl rfl).mono (Nat.le_succ _) ?_
    rintro fs' ⟨hmade, hcode, hfree⟩
    refine ⟨⟨hmade, hinfo, ?_⟩, hfree⟩
    rw [hcode, List.length_set, hlen]
    refine hsim.exec h.start (fun i hi => List.getElem?_set_ne (by omega)) (List.getElem?_set_self
      (show pc < fs.code.length by omega)) h.lt
      (exec lang nact (setA w reg)) (fun C s => hother _ C _ s) fun y s hy => ?_
    obtain ⟨w', hw'', hcomp, hout⟩ := hy
    obtain rfl : w = w' := by
      rw [hw] at hw''
      exact Instr.other.inj (Option.some.inj hw'')
    rw [exec_setA hcomp (by omega), ← hout]
    exact set_spec hbase hreg _
  | jmp => exact absurd rfl hk

theorem gen_freeexp (fs : FuncState) (k : Kind) : (fs.freeexp nact k).gen = fs.gen := by
  cases k with
  | nonreloc r =>
    rw [FuncState.freeexp]
    split_ifs <;> rfl
  | _ => rfl

theorem freereg_freeexp {n r : Nat} (hr : r < nact ∧ n = base ∨ r = base ∧ n = base + 1) (hbase : nact ≤ base)
    (gen : Gen) : (FuncState.freeexp nact ⟨gen, n⟩ (.nonreloc r)).freereg = base := by
  rw [FuncState.freeexp]
  rcases hr with ⟨hlt, rfl⟩ | ⟨rfl, rfl⟩
  · rw [if_neg (by omega)]
  · rw [if_pos hbase]
    exact Nat.add_sub_cancel r 1

/-- `discharge2anyreg`, and `freeexp` behind it. -/
theorem Spec.discharge2anyreg (h : Spec lang nact code₀ L₀ v base m fs k L stop) (hk : k ≠ .jmp) (hbase : nact ≤ base)
    (hlim : base < 255) :
    Yields Prod.fst fs.code.length 1 base (fs.discharge2anyreg k) fun x =>
      Valued lang nact code₀ L₀ v base m x.1 L x.2 ∧ x.2 < 255 ∧
        (x.1.freeexp nact (.nonreloc x.2)).freereg = base := by
  have hother (hfree : fs.freereg = base) : Yields Prod.fst fs.code.length 1 base (do
      let fs ← fs.reserve
      let fs ← fs.discharge2reg k (fs.freereg - 1)
      Except.ok (fs, fs.freereg - 1)) fun x => Valued lang nact code₀ L₀ v base m x.1 L x.2 ∧ x.2 < 255 ∧
        (x.1.freeexp nact (.nonreloc x.2)).freereg = base := by
    refine (FuncState.reserve_spec hfree).bind (Nat.zero_le _) ?_
    rintro ⟨gen, n⟩ ⟨rfl, rfl, -⟩
    refine (h.discharge2reg hk hbase le_rfl hlim (base + 1)).bind (by decide) ?_
    rintro ⟨gen, n⟩ ⟨hvalued, rfl⟩
    exact .ok ⟨hvalued, hlim, freereg_freeexp (.inr ⟨rfl, rfl⟩) hbase gen⟩ (Nat.le_add_right _ _)
  have hkind := h.kind
  cases k with
  | nonreloc r =>
    obtain ⟨hlen, hinfo, hr⟩ := hkind
    subst hlen
    refine ⟨Nat.le_add_right _ _, ⟨h.made, hinfo, h.sim⟩, ?_, freereg_freeexp hr hbase fs.gen⟩
    show r < 255
    omega
  | reloc pc => exact hother hkind.2.2.2.1
  | jmp => exact absurd rfl hk
  | nil => exact hother hkind.2.2
  | false_ => exact hother hkind.2.2
  | true_ => exact hother hkind.2.2
  | k op bx => exact hother hkind.2.2

/-! ### Conditions -/

/-- The code goes on where the value is like `b`, and otherwise jumps. -/
structure Goes (lang : Lang α σ) (nact : Nat) (code₀ : Code) (L₀ : Nat → List Nat) (v base : Nat)
    (m : Vars α σ → Value α × Vars α σ) (fs : FuncState) (b : Bool) (J : Bool → List Nat) (L : Nat → List Nat) :
    Prop where
  made : Made code₀ L₀ v fs.gen L
  freereg : fs.freereg = base
  sim : Sim lang nact code₀.length base fs.code J fs.code.length m fun out s => s.vars = out.2 ∧ out.1.truthy = b

/-- The lists, where the last jump is not in its list yet. -/
def withInfo (L : Nat → List Nat) (v : Nat) (b c : Bool) : List Nat :=
  L (list v c) ++ if c = !b then L (v + 2) else []

theorem mem_withInfo_update (n : Nat) (b c : Bool) (j : Nat) :
    j ∈ withInfo (Function.update L (v + 2) [n]) v b c ↔ j ∈ L (list v c) ∨ c = (!b) ∧ j = n := by
  have hne : list v c ≠ v + 2 := by
    have := list_lt (v := v) c
    omega
  rw [withInfo, Function.update_self, Function.update_of_ne hne, List.mem_append]
  split_ifs with hc
  · rw [List.mem_singleton, and_iff_right hc]
  · simp [hc]

/-- A test and a jump behind the code. -/
theorem Sim.condjump (hmade : Made code₀ L₀ v fs.gen L) {b : Bool}
    {fall : Value α × Vars α σ → State α σ → Prop}
    (hsim : Sim lang nact code₀.length base fs.code (fun c => L (list v c)) fs.code.length m fall)
    (hfree : fs.freereg = base)
    {x : Instr} (hx : x.testTMode = true)
    (htests : ∀ y s, fall (m y) s → Tests lang nact base x b fs.code.length (m y) s) :
    Yields id fs.code.length 2 base (fs.op (.condjump x (v + 2))) fun fs' =>
      ∃ L', Goes lang nact code₀ L₀ v base m fs' b (withInfo L' v b) L' := by
  refine (hmade.condjump hx).imp ?_
  rintro fs' ⟨hmade', hcode, hfree'⟩
  refine ⟨_, hmade', hfree'.trans hfree, ?_⟩
  rw [hcode, List.length_append]
  exact (hsim.test hmade.le (fun i hi => List.getElem?_append_left hi)
    (by rw [List.getElem?_append_right le_rfl, Nat.sub_self]; rfl) (fun c j hj => hmade.proper.lt hj)
    (mem_withInfo_update _ b) htests).mono fun _ _ hy => ⟨hy.1, hy.2.1⟩

theorem Spec.jumpOnValue (h : Spec lang nact code₀ L₀ v base m fs k L stop) (hk : k ≠ .jmp) (hbase : nact ≤ base)
    (hlim : base < 255) (b : Bool) :
    Yields id fs.code.length 3 base (fs.jumpOnValue nact v k !b) fun fs' =>
      ∃ L', Goes lang nact code₀ L₀ v base m fs' b (withInfo L' v b) L' := by
  refine (h.discharge2anyreg hk hbase hlim).bind (by decide) ?_
  rintro ⟨fs', r⟩ ⟨hvalued, -, hfree⟩
  have hgen : (fs'.freeexp nact (.nonreloc r)).gen = fs'.gen := gen_freeexp fs' _
  have hmade : Made code₀ L₀ v (fs'.freeexp nact (.nonreloc r)).gen L := hgen ▸ hvalued.made
  have hsim : Sim lang nact code₀.length base (fs'.freeexp nact (.nonreloc r)).code (fun c => L (list v c))
      (fs'.freeexp nact (.nonreloc r)).code.length m fun out s => out = (s.get nact r, s.vars) := by
    rw [FuncState.code, hgen]
    exact hvalued.sim
  exact (hsim.condjump hmade hfree rfl fun y s hy => tests_testset hbase hy).mono
    (congrArg (fun gen : Gen => gen.code.length + 2) hgen).le fun _ hgoes => hgoes

/-- `jumponcond` -/
theorem Spec.jumponcond (h : Spec lang nact code₀ L₀ v base m fs k L stop) (hk : k ≠ .jmp) (hbase : nact ≤ base)
    (hlim : base < 255) (b : Bool) :
    Yields id fs.code.length 3 base (fs.jumponcond nact v k !b) fun fs' =>
      ∃ L', Goes lang nact code₀ L₀ v base m fs' b (withInfo L' v b) L' := by
  cases k with
  | reloc pc =>
    obtain ⟨rfl, hlen, hinfo, hfree, ⟨w, hw⟩, hland⟩ := h.kind
    simp only [FuncState.jumponcond, hw, Bool.not_not]
    split_ifs with hop
    · -- the value is that of an `OP_NOT`, which is removed
      refine (h.made.removelast h.start hlen hw rfl hland).bind (Nat.zero_le _) ?_
      rintro fs' ⟨hmade, hcode, hfree'⟩
      have hlen' : fs'.code.length = pc := by rw [hcode, List.length_take]; omega
      suffices hsim : Sim lang nact code₀.length base fs'.code (fun c => L (list v c)) fs'.code.length m
          fun out s => out = (.bool !(s.get nact (fieldB w)).truthy, s.vars) from
        (hsim.condjump hmade (hfree'.trans hfree) rfl fun y s hy => tests_test hy).mono
          (Nat.add_le_add_left (by decide) _) fun _ hgoes => hgoes
      rw [hlen']
      refine h.sim.recode h.start (fun i hi _ => ?_) (fun _ _ => Iff.rfl)
        (fun c j hj => isValue_congr fun i hi => ?_) fun y s hy => ?_
      · rw [hcode, List.getElem?_take_of_lt hi]
      · rw [hcode, List.getElem?_take_of_lt (hi.trans (h.lt c j hj))]
      · obtain ⟨w', hw', -, hout⟩ := hy
        obtain rfl : w = w' := by
          rw [hw] at hw'
          exact Instr.other.inj (Option.some.inj hw')
        rw [hout, valueOf, if_pos hop]
    · exact h.jumpOnValue hk hbase hlim b
  | jmp => exact absurd rfl hk
  | _ => exact h.jumpOnValue hk hbase hlim b

/-- `negatecondition` -/
theorem Spec.negatecondition (h : Spec lang nact code₀ L₀ v base m fs .jmp L stop) :
    Yields id fs.code.length 0 base (fs.negatecondition v) fun fs' =>
      ∃ w, fs.code[stop]? = some (.compare w) ∧ Made code₀ L₀ v fs'.gen L ∧
        fs'.code = fs.code.set stop (.compare (flipK w)) ∧ fs'.freereg = fs.freereg := by
  obtain ⟨hlen, hinfo, -, w, hw⟩ := h.kind
  have hthread := h.made.proper.thread (v + 2)
  rw [hinfo] at hthread
  have hcontrol : getjumpcontrol fs.code (stop + 1) = stop := by
    rw [getjumpcontrol, if_pos ⟨by omega, by simp [hw, Instr.testTMode]⟩, Nat.add_sub_cancel]
  simp only [FuncState.negatecondition, hthread.1, hcontrol, hw]
  refine (h.made.change (i := .compare (flipK w)) h.start hw rfl rfl rfl).imp ?_
  rintro fs' ⟨hmade, hcode, hfree⟩
  exact ⟨w, rfl, hmade, hcode, hfree⟩

/-- The comparison of a condition, as it is or negated. -/
theorem Spec.sim_compare (h : Spec lang nact code₀ L₀ v base m fs .jmp L stop) {code' : Code} {w' : Nat} {b : Bool}
    (hcode : ∀ i < stop, code'[i]? = fs.code[i]?) (hw' : code'[stop]? = some (.compare w'))
    (htaken : ∀ w x, fs.code[stop]? = some (.compare w) →
      taken lang w' x = ((taken lang w x).1 != b, (taken lang w x).2)) :
    Sim lang nact code₀.length base code' (withInfo L v b) (stop + 2) m
      fun out s => s.vars = out.2 ∧ out.1 = .bool b := by
  obtain ⟨-, hinfo, -, -⟩ := h.kind
  refine (h.sim.test h.start hcode hw' h.lt (fun c j => ?_) fun y s hy => ?_).mono fun _ _ hy => ⟨hy.1, hy.2.2 rfl⟩
  · rw [withInfo, hinfo, List.mem_append]
    split_ifs with hc
    · rw [List.mem_singleton, and_iff_right hc]
    · simp [hc]
  · obtain ⟨w, hw, hout⟩ := hy
    refine tests_compare (hout.trans ?_) (congrArg Prod.fst (htaken w s.vars hw))
    rw [htaken w s.vars hw]

theorem Spec.compare (h : Spec lang nact code₀ L₀ v base m fs .jmp L stop) {fs' : FuncState} {w' : Nat} {b : Bool}
    (hmade : Made code₀ L₀ v fs'.gen L) (hfree : fs'.freereg = base) (hlen : fs'.code.length = stop + 2)
    (hcode : ∀ i < stop, fs'.code[i]? = fs.code[i]?) (hw' : fs'.code[stop]? = some (.compare w'))
    (htaken : ∀ w x, fs.code[stop]? = some (.compare w) →
      taken lang w' x = ((taken lang w x).1 != b, (taken lang w x).2)) :
    Goes lang nact code₀ L₀ v base m fs' b (withInfo L v b) L :=
  ⟨hmade, hfree, hlen ▸ (h.sim_compare hcode hw' htaken).mono fun _ _ hy => ⟨hy.1, congrArg Value.truthy hy.2⟩⟩

/-- The jump of `luaK_goiftrue` or `luaK_goiffalse`. -/
theorem Spec.jumpUnless (h : Spec lang nact code₀ L₀ v base m fs k L stop) (hbase : nact ≤ base) (hlim : base < 255)
    (b : Bool) :
    Yields id fs.code.length 3 base (fs.jumpUnless nact v b k) fun fs' =>
      ∃ L', Goes lang nact code₀ L₀ v base m fs' b (withInfo L' v b) L' := by
  have hnone (hkind : fs.code.length = stop ∧ L (v + 2) = [] ∧ fs.freereg = base)
      (hfall : ∀ x s, Holds lang nact fs.code stop k (m x) s → s.vars = (m x).2 ∧ (m x).1.truthy = b) :
      Yields id fs.code.length 3 base (.ok fs) fun fs' =>
        ∃ L', Goes lang nact code₀ L₀ v base m fs' b (withInfo L' v b) L' := by
    obtain ⟨rfl, hinfo, hfree⟩ := hkind
    refine .ok ⟨L, h.made, hfree, h.sim.recode h.start (fun _ _ _ => rfl) (fun c j => ?_) (fun _ _ _ => rfl) hfall⟩
      (Nat.le_add_right _ _)
    rw [withInfo, hinfo, ite_self, List.append_nil]
  have hkind := h.kind
  cases k with
  | jmp =>
    obtain ⟨hlen, -, hfree, w, hw⟩ := hkind
    cases b with
    | true =>
      refine h.negatecondition.mono (Nat.le_add_right _ _) ?_
      rintro fs' ⟨w', hw', hmade, hcode, hfree'⟩
      refine ⟨L, h.compare hmade (hfree'.trans hfree) (by rw [hcode, List.length_set, hlen])
        (fun i hi => by rw [hcode, List.getElem?_set_ne (by omega)])
        (by rw [hcode, List.getElem?_set_self (by omega)]) fun w'' x hw'' => ?_⟩
      obtain rfl : w' = w'' := Instr.compare.inj (Option.some.inj (hw'.symm.trans hw''))
      rw [taken_flipK]
      cases (taken lang w' x).1 <;> rfl
    | false =>
      refine ⟨Nat.le_add_right _ _, L, h.compare h.made hfree hlen (fun _ _ => rfl) hw fun w' x hw' => ?_⟩
      obtain rfl : w = w' := Instr.compare.inj (Option.some.inj (hw.symm.trans hw'))
      cases ht : (taken lang w x).1 <;> exact Prod.ext ht rfl
  | true_ =>
    cases b with
    | true => exact hnone hkind fun x s hy => by rw [show m x = _ from hy]; exact ⟨rfl, rfl⟩
    | false => exact h.jumponcond (by simp) hbase hlim false
  | k op bx =>
    cases b with
    | true => exact hnone hkind fun x s hy => by rw [show m x = _ from hy]; exact ⟨rfl, rfl⟩
    | false => exact h.jumponcond (by simp) hbase hlim false
  | nil =>
    cases b with
    | true => exact h.jumponcond (by simp) hbase hlim true
    | false => exact hnone hkind fun x s hy => by rw [show m x = _ from hy]; exact ⟨rfl, rfl⟩
  | false_ =>
    cases b with
    | true => exact h.jumponcond (by simp) hbase hlim true
    | false => exact hnone hkind fun x s hy => by rw [show m x = _ from hy]; exact ⟨rfl, rfl⟩
  | nonreloc r =>
    cases b with
    | true => exact h.jumponcond (by simp) hbase hlim true
    | false => exact h.jumponcond (by simp) hbase hlim false
  | reloc pc =>
    cases b with
    | true => exact h.jumponcond (by simp) hbase hlim true
    | false => exact h.jumponcond (by simp) hbase hlim false

theorem isValue_of_relinked {code code' : Code} {l : List Nat} (hcode : ∀ i, i ∉ l → code'[i]? = code[i]?)
    (hl : ∀ i ∈ l, ∃ t, code[i]? = some (.jmp t)) (hl' : ∀ i ∈ l, ∃ t, code'[i]? = some (.jmp t)) (j : Nat) :
    isValue code' j = isValue code j := by
  cases j with
  | zero => rfl
  | succ j =>
    rw [isValue, isValue]
    by_cases hj : j ∈ l
    · obtain ⟨t, ht⟩ := hl j hj
      obtain ⟨t', ht'⟩ := hl' j hj
      rw [ht, ht']
      rfl
    · rw [hcode j hj]

/-- `luaK_goiftrue` and `luaK_goiffalse` -/
theorem Spec.goif (h : Spec lang nact code₀ L₀ v base m fs k L stop) (hbase : nact ≤ base) (hlim : base < 255)
    (b : Bool) :
    Yields id fs.code.length 3 base (fs.goif nact v b k) fun fs' =>
      ∃ L', Goes lang nact code₀ L₀ v base m fs' b (fun c => L' (list v c)) L' ∧ L' (list v b) = [] ∧
        L' (v + 2) = [] := by
  refine (h.jumpUnless hbase hlim b).bind (by decide) ?_
  rintro fs₁ ⟨L₁, hgoes⟩
  refine (hgoes.made.concat !b).bind (Nat.zero_le _) ?_
  rintro fs₂ ⟨L₂, hmade₂, hlist, hother, hinfo, hcode, hlen, hfree₂⟩
  rw [Bool.not_not] at hother
  have hrelinked := isValue_of_relinked hcode (fun i hi => hgoes.made.jmp hi)
    fun i hi => hmade₂.jmp (w := list v !b) (by rw [hlist]; exact List.mem_append_left _ hi)
  have hlists (c : Bool) (j : Nat) : j ∈ L₂ (list v c) ↔ j ∈ withInfo L₁ v b c := by
    rw [withInfo]
    by_cases hc : c = !b
    · rw [if_pos hc, hc, hlist]
    · obtain rfl : c = b := by cases c <;> cases b <;> simp_all
      rw [if_neg hc, hother, List.append_nil]
  have hsim₂ : Sim lang nact code₀.length base fs₂.code (fun c => L₂ (list v c)) fs₁.code.length m
      (fun out s => s.vars = out.2 ∧ out.1.truthy = b) := hgoes.sim.recode hgoes.made.le
    (fun i _ hi => hcode i fun hmem => hi (!b) (by rw [withInfo, if_pos rfl]; exact List.mem_append_left _ hmem))
    hlists (fun c j _ => hrelinked j) fun _ _ hy => hy
  rw [← hlen] at hsim₂
  refine (hmade₂.patchtohere b).imp ?_
  rintro fs₃ ⟨hmade₃, hcode₃, hfree₃⟩
  refine ⟨_, ⟨hmade₃, hfree₃.trans (hfree₂.trans hgoes.freereg), ?_⟩, Function.update_self .., ?_⟩
  · rw [hcode₃, length_patched]
    exact hsim₂.patch (fun c j hj => hmade₂.jmp hj)
      (fun j hj => hmade₂.proper.disjoint (list_not_ne b).symm j hj)
      (fun j hj => (hmade₂.inside _ (list_lt b).1 j hj).le) (fun x s hy => hy) (Function.update_self ..)
      (Function.update_of_ne (list_not_ne b) ..)
  · rw [Function.update_of_ne (by have := list_lt (v := v) b; omega), hinfo]

/-! ### Negation -/

/-- The value is the negated one, but the jumps of the lists are still those of the expression. -/
structure Negated (lang : Lang α σ) (nact : Nat) (code₀ : Code) (L₀ : Nat → List Nat) (v base : Nat)
    (m : Vars α σ → Value α × Vars α σ) (fs : FuncState) (k : Kind) (L : Nat → List Nat) (stop : Nat) : Prop where
  start : code₀.length ≤ stop
  made : Made code₀ L₀ v fs.gen L
  kind : k.Ok nact v base fs L stop
  sim : Sim lang nact code₀.length base fs.code (fun b => L (list v b)) stop m
    fun out s => Holds lang nact fs.code stop k (.bool !out.1.truthy, out.2) s

/-- `codenot`, but for the lists. -/
theorem Spec.negate (h : Spec lang nact code₀ L₀ v base m fs k L stop) (hbase : nact ≤ base) (hlim : base < 255) :
    Yields Prod.fst fs.code.length 2 base (fs.negate nact v k) fun x =>
      ∃ stop', Negated lang nact code₀ L₀ v base m x.1 x.2 L stop' := by
  have hsame {k' : Kind} (hk' : k'.Ok nact v base fs L stop)
      (hfall : ∀ x s, Holds lang nact fs.code stop k (m x) s →
        Holds lang nact fs.code stop k' (.bool !(m x).1.truthy, (m x).2) s) :
      Yields Prod.fst fs.code.length 2 base (.ok (fs, k')) fun x =>
        ∃ stop', Negated lang nact code₀ L₀ v base m x.1 x.2 L stop' :=
    .ok ⟨stop, h.start, h.made, hk', h.sim.recode h.start (fun _ _ _ => rfl) (fun _ _ => Iff.rfl) (fun _ _ _ => rfl)
      hfall⟩ (Nat.le_add_right _ _)
  have hvalue (hk : k ≠ .jmp) : Yields Prod.fst fs.code.length 2 base (do
      let x ← fs.discharge2anyreg k
      let fs := x.1.freeexp nact (.nonreloc x.2)
      let pc := fs.code.length
      let fs ← fs.emit (word 51 0 x.2)
      Except.ok (fs, Kind.reloc pc)) fun x =>
        ∃ stop', Negated lang nact code₀ L₀ v base m x.1 x.2 L stop' := by
    refine (h.discharge2anyreg hk hbase hlim).bind (by decide) ?_
    rintro ⟨fs₁, r⟩ ⟨hvalued, hr, hfree⟩
    have hgen : (fs₁.freeexp nact (.nonreloc r)).gen = fs₁.gen := gen_freeexp fs₁ _
    have hmade : Made code₀ L₀ v (fs₁.freeexp nact (.nonreloc r)).gen L := hgen ▸ hvalued.made
    refine Yields.mono ?_ (congrArg (fun gen : Gen => gen.code.length + 1) hgen).le fun _ hspec => hspec
    refine (hmade.emit (i := .other (word 51 0 r)) rfl rfl).bind (by decide) ?_
    rintro fs₂ ⟨hmade₂, hcode₂, hfree₂⟩
    have hlast : fs₂.code[(fs₁.freeexp nact (.nonreloc r)).code.length]? = some (.other (word 51 0 r)) := by
      rw [hcode₂]
      exact List.getElem?_concat_length
    refine .ok ⟨_, hmade.le, hmade₂, ⟨rfl, by rw [hcode₂, List.length_append]; rfl, hvalued.info, hfree₂.trans hfree,
      ⟨_, hlast⟩, fun i t ht => ?_⟩, ?_⟩ (Nat.le_add_right _ _)
    · rw [hcode₂] at ht
      rcases getElem?_append_cases ht with ht | ⟨-, ht⟩
      · exact (hmade.proper.lands i t ht).2
      · rw [List.getElem?_singleton] at ht
        split_ifs at ht
        cases Option.some.inj ht
    · have hsim : Sim lang nact code₀.length base (fs₁.freeexp nact (.nonreloc r)).code (fun b => L (list v b))
          (fs₁.freeexp nact (.nonreloc r)).code.length m fun out s => out = (s.get nact r, s.vars) := by
        rw [FuncState.code, hgen]
        exact hvalued.sim
      refine hsim.recode hmade.le (fun i hi _ => ?_) (fun _ _ => Iff.rfl) (fun b j hj => isValue_congr fun i hi => ?_)
        fun x s hy => ⟨_, hlast, ?_, ?_⟩
      · rw [hcode₂, List.getElem?_append_left hi]
      · rw [hcode₂, List.getElem?_append_left (hi.trans (hmade.proper.lt hj))]
      · rw [Computes, opcode_word (by omega)]
        omega
      · rw [hy, valueOf, opcode_word (by omega), if_pos rfl, fieldB_word (by omega) (by omega) (by omega)]
  have hkind := h.kind
  cases k with
  | nil => exact hsame hkind fun x s hy => by rw [show m x = _ from hy]; rfl
  | false_ => exact hsame hkind fun x s hy => by rw [show m x = _ from hy]; rfl
  | true_ => exact hsame hkind fun x s hy => by rw [show m x = _ from hy]; rfl
  | k op bx => exact hsame hkind fun x s hy => by rw [show m x = _ from hy]; rfl
  | nonreloc r => exact hvalue (by simp)
  | reloc pc => exact hvalue (by simp)
  | jmp =>
    obtain ⟨hlen, hinfo, hfree, -⟩ := hkind
    refine h.negatecondition.bind (Nat.zero_le _) ?_
    rintro fs₁ ⟨w, hw, hmade, hcode, hfree₁⟩
    have hflip : fs₁.code[stop]? = some (.compare (flipK w)) := by
      rw [hcode, List.getElem?_set_self (by omega)]
    refine .ok ⟨stop, h.start, hmade, ⟨by rw [hcode, List.length_set, hlen], hinfo, hfree₁.trans hfree, _, hflip⟩, ?_⟩
      (Nat.le_add_right _ _)
    refine h.sim.recode h.start (fun i hi _ => ?_) (fun _ _ => Iff.rfl) (fun b j hj => isValue_congr fun i hi => ?_)
      fun x s hy => ⟨_, hflip, ?_⟩
    · rw [hcode, List.getElem?_set_ne (by omega)]
    · have := h.lt b j hj
      rw [hcode, List.getElem?_set_ne (by omega)]
    · obtain ⟨w', hw', hout⟩ := hy
      obtain rfl : w = w' := Instr.compare.inj (Option.some.inj (hw.symm.trans hw'))
      rw [hout, taken_flipK]
      rfl

theorem controlled_of_control {code : Code} {l : List Nat} {reg i : Nat} {x : Instr} (h : code[i]? = some x)
    (hx : x.control reg = x) : (controlled code l reg)[i]? = some x := by
  rw [getElem?_controlled, h, Option.map_some, hx, ite_self]

theorem swap_list (L : Nat → List Nat) (b : Bool) : (L ∘ Equiv.swap v (v + 1)) (list v b) = L (list v !b) := by
  cases b with
  | true => exact congrArg L (Equiv.swap_apply_left v (v + 1))
  | false => exact congrArg L (Equiv.swap_apply_right v (v + 1))

/-- The jumps lead no further than to an instruction. -/
def LandsBy (code : Code) (stop : Nat) : Prop :=
  ∀ (i : Nat) (t : Int), code[i]? = some (.jmp t) → (i : Int) + 1 + t ≤ stop

theorem Kind.Ok.congr {fs' : FuncState} {v' : Nat} {L' : Nat → List Nat} {k : Kind} (h : k.Ok nact v base fs L stop)
    (hlen : fs'.code.length = fs.code.length) (hinfo : L' (v' + 2) = L (v + 2)) (hfree : fs'.freereg = fs.freereg)
    (hkeep : ∀ x : Instr, (∀ r, x.control r = x) → fs.code[stop]? = some x → fs'.code[stop]? = some x)
    (hland : LandsBy fs.code stop → LandsBy fs'.code stop) : k.Ok nact v' base fs' L' stop := by
  cases k with
  | reloc pc =>
    obtain ⟨hpc, hlen', hinfo', hfree', ⟨w, hw⟩, hland'⟩ := h
    exact ⟨hpc, hlen.trans hlen', hinfo.trans hinfo', hfree.trans hfree', ⟨w, hkeep _ (fun _ => rfl) hw⟩, hland hland'⟩
  | jmp =>
    obtain ⟨hlen', hinfo', hfree', w, hw⟩ := h
    exact ⟨hlen.trans hlen', hinfo.trans hinfo', hfree.trans hfree', w, hkeep _ (fun _ => rfl) hw⟩
  | nonreloc r =>
    obtain ⟨hlen', hinfo', hr⟩ := h
    exact ⟨hlen.trans hlen', hinfo.trans hinfo', hfree ▸ hr⟩
  | _ =>
    obtain ⟨hlen', hinfo', hfree'⟩ := h
    exact ⟨hlen.trans hlen', hinfo.trans hinfo', hfree.trans hfree'⟩

theorem Holds.congr {code code' : Code} {k : Kind} {out : Value α × Vars α σ} {s : State α σ}
    (h : Holds lang nact code stop k out s)
    (hkeep : ∀ x : Instr, (∀ r, x.control r = x) → code[stop]? = some x → code'[stop]? = some x) :
    Holds lang nact code' stop k out s := by
  cases k with
  | reloc pc =>
    obtain ⟨w, hw, hout⟩ := h
    exact ⟨w, hkeep _ (fun _ => rfl) hw, hout⟩
  | jmp =>
    obtain ⟨w, hw, hout⟩ := h
    exact ⟨w, hkeep _ (fun _ => rfl) hw, hout⟩
  | _ => exact h

/-- `codenot` -/
theorem Spec.codenot (h : Spec lang nact code₀ L₀ v base m fs k L stop) (hbase : nact ≤ base) (hlim : base < 255) :
    Yields Prod.fst fs.code.length 2 base (codenot nact fs v k) fun x => ∃ L' stop',
      Spec lang nact code₀ L₀ v base (fun y => (.bool !(m y).1.truthy, (m y).2)) x.1 x.2 L' stop' := by
  refine (h.negate hbase hlim).bind (by decide) ?_
  rintro ⟨fs₁, k₁⟩ ⟨stop', hstart, hmade, hkind, hsim⟩
  refine (fs₁.op_spec hmade.proper (.swap v (v + 1)) trivial).bind (Nat.zero_le _) ?_
  rintro fs₂ ⟨L₂, hproper₂, ⟨hcode₂, rfl⟩, hfree₂⟩
  refine (fs₂.op_spec hproper₂ (.removevalues (v + 1)) trivial).bind (Nat.zero_le _) ?_
  rintro fs₃ ⟨L₃, hproper₃, ⟨hcode₃, rfl⟩, hfree₃⟩
  refine (fs₃.op_spec hproper₃ (.removevalues v) trivial).bind (Nat.zero_le _) ?_
  rintro fs₄ ⟨L₄, hproper₄, ⟨hcode₄, rfl⟩, hfree₄⟩
  have hcode : fs₄.code = controlled (controlled fs₁.code (L (list v true)) noReg) (L (list v false)) noReg := by
    rw [hcode₄, hcode₃, hcode₂]
    exact congrArg₂ (fun l l' => controlled (controlled fs₁.code l noReg) l' noReg) (swap_list L false)
      (swap_list L true)
  have hkeep (i : Nat) (x : Instr) (hx : ∀ r, x.control r = x) (hi : fs₁.code[i]? = some x) :
      fs₄.code[i]? = some x := by
    rw [hcode]
    exact controlled_of_control (controlled_of_control hi (hx _)) (hx _)
  have hlen : fs₄.code.length = fs₁.code.length := by rw [hcode, length_controlled, length_controlled]
  have hother (w : Nat) (hw : w ≠ v) (hw' : w ≠ v + 1) : (L ∘ Equiv.swap v (v + 1)) w = L w :=
    congrArg L (Equiv.swap_apply_of_ne_of_ne hw hw')
  refine .ok ⟨_, stop', ⟨hproper₄, fun w hw => ?_, fun w hw => ?_, fun i hi => ?_, hlen ▸ hmade.le,
      fun w hw j hj => ?_⟩, hstart, hkind.congr hlen (hother _ (by omega) (by omega))
      (by rw [hfree₄, hfree₃, hfree₂]) (hkeep stop') (fun hland i t ht => hland i t ?_), ?_⟩ (Nat.le_add_right _ _)
  · rw [hother w (by omega) (by omega), hmade.outer w hw]
  · rw [hother w (by omega) (by omega), hmade.free w hw]
  · have hnot (b : Bool) : i + 1 ∉ L (list v b) := fun hmem =>
      absurd (hmade.inside _ (list_lt b).1 _ hmem) (by omega)
    rw [show fs₄.gen.code = _ from hcode, getElem?_controlled, getElem?_controlled]
    simp only [if_neg (hnot _), Option.map_id']
    exact hmade.keep i hi
  · rw [Function.comp_apply] at hj
    refine hmade.inside _ ?_ j hj
    rcases eq_or_ne w v with rfl | hne
    · rw [Equiv.swap_apply_left]
      omega
    · rcases eq_or_ne w (v + 1) with rfl | hne'
      · rw [Equiv.swap_apply_right]
      · rwa [Equiv.swap_apply_of_ne_of_ne hne hne']
  · rw [hcode, ← sameJumps_controlled.iff, ← sameJumps_controlled.iff] at ht
    exact ht
  · have hsim' : Sim lang nact code₀.length base
        (controlled (controlled fs₁.code (L (list v true)) noReg) (L (list v false)) noReg) (fun b => L (list v !b))
        stop' (fun y => (.bool !(m y).1.truthy, (m y).2)) (Holds lang nact fs₁.code stop' k₁) :=
      hsim.not fun _ _ hy => hy
    rw [← hcode] at hsim'
    exact hsim'.recode hstart (fun _ _ _ => rfl) (fun b j => by rw [swap_list]) (fun _ _ _ => rfl)
      fun _ _ hy => hy.congr (hkeep stop')

/-! ### All expressions -/

/-- Where no code is written yet. -/
theorem Sim.start {code : Code} {J : Bool → List Nat} {fall : Value α × Vars α σ → State α σ → Prop} {n : Nat}
    (hfall : ∀ s, fall (m s.vars) s) : Sim lang nact n base code J n m fall :=
  fun _ _ _ _ s => .inl ⟨s, .refl, fun _ _ => rfl, hfall s⟩

theorem Made.start {gen : Gen} (h : Proper gen L) (hfree : ∀ w, v ≤ w → L w = []) : Made gen.code L v gen L where
  proper := h
  outer _ _ := rfl
  free w hw := hfree w (by omega)
  keep _ _ := rfl
  le := le_rfl
  inside w hw j hj := by
    rw [hfree w hw] at hj
    exact absurd hj List.not_mem_nil

theorem list_add (b : Bool) : list (v + 3) b = list v b + 3 := by
  cases b with
  | true => rfl
  | false => exact Nat.add_right_comm v 3 1

/-- The variables of `e2` become those of `e1`. -/
def moved (v : Nat) (L : Nat → List Nat) : Nat → List Nat :=
  ((L ∘ Equiv.swap v (v + 3)) ∘ Equiv.swap (v + 1) (v + 3 + 1)) ∘ Equiv.swap (v + 2) (v + 3 + 2)

theorem moved_apply (w : Nat) : moved v L w =
    L (if v ≤ w ∧ w < v + 3 then w + 3 else if v + 3 ≤ w ∧ w < v + 6 then w - 3 else w) := by
  unfold moved
  simp only [Function.comp_apply]
  refine congrArg L ?_
  simp only [Equiv.swap_apply_def]
  split_ifs <;> omega

theorem FuncState.move_spec (h : Proper fs.gen L) :
    Yields id fs.code.length 0 base (fs.move v (v + 3)) fun fs' =>
      Proper fs'.gen (moved v L) ∧ fs'.code = fs.code ∧ fs'.freereg = fs.freereg := by
  refine (fs.op_spec h (.swap v (v + 3)) trivial).bind (Nat.zero_le _) ?_
  rintro fs₁ ⟨L₁, hproper₁, ⟨hcode₁, rfl⟩, hfree₁⟩
  refine (fs₁.op_spec hproper₁ (.swap (v + 1) (v + 3 + 1)) trivial).bind (Nat.zero_le _) ?_
  rintro fs₂ ⟨L₂, hproper₂, ⟨hcode₂, rfl⟩, hfree₂⟩
  refine (fs₂.op_spec hproper₂ (.swap (v + 2) (v + 3 + 2)) trivial).mono (Nat.le_add_right fs₂.code.length _) ?_
  rintro fs₃ ⟨L₃, hproper₃, ⟨hcode₃, rfl⟩, hfree₃⟩
  exact ⟨hproper₃, by rw [hcode₃, hcode₂, hcode₁], by rw [hfree₃, hfree₂, hfree₁]⟩

/-- The value of `e1`, or of `e2` where it goes on. -/
def both (b : Bool) (m m' : Vars α σ → Value α × Vars α σ) (x : Vars α σ) : Value α × Vars α σ :=
  if (m x).1.truthy = b then m' (m x).2 else m x

/-- A jump in a list leads to the next one, or nowhere. -/
theorem lands_of_thread {code : Code} {o : Option Nat} {l : List Nat} (h : Thread (link code) o l) {n : Nat}
    (hl : ∀ j ∈ l, j < n) {i : Nat} (hi : i ∈ l) {t : Int} (ht : code[i]? = some (.jmp t)) : (i : Int) + 1 + t ≤ n := by
  induction l generalizing o with
  | nil => exact absurd hi List.not_mem_nil
  | cons j l ih =>
    obtain ⟨rfl, o', hj, hrest⟩ := h
    rcases List.mem_cons.mp hi with rfl | hi
    · have hget := getjump_of_link hj
      simp only [getjump, ht] at hget
      have hlt := hl i List.mem_cons_self
      split_ifs at hget with hnone hpos
      · omega
      · cases l with
        | nil =>
          rw [show o' = none from hrest] at hget
          cases hget
        | cons y l =>
          have hy := hl y (List.mem_cons_of_mem _ List.mem_cons_self)
          rw [hrest.1] at hget
          have := Option.some.inj (Except.ok.inj hget)
          omega
    · exact ih hrest (fun y hy => hl y (List.mem_cons_of_mem _ hy)) hi

theorem Done.from {code C : Code} {l l' : List Nat} {ρ : Nat → Nat} {lo hi : Nat} (h : Done code C l' ρ lo hi)
    (hl : ∀ i, lo ≤ i → (i ∈ l' ↔ i ∈ l)) : Done code C l ρ lo hi := by
  intro i hlo hlt hi
  rw [h i hlo hlt (by rwa [hl i hlo])]
  simp only [hl (i + 1) (by omega)]

/-! ### `and` and `or` -/

/-- The lists where one of `e1` is put behind that of `e2`. -/
def joined (v : Nat) (b : Bool) (L : Nat → List Nat) : Nat → List Nat :=
  Function.update (Function.update L (list (v + 3) !b) (L (list (v + 3) !b) ++ L (list v !b))) (list v !b) []

theorem joined_of_ne {b : Bool} {w : Nat} (hw : w ≠ list v !b) (hw' : w ≠ list (v + 3) !b) : joined v b L w = L w := by
  rw [joined, Function.update_of_ne hw, Function.update_of_ne hw']

theorem joined_eq_nil {b : Bool} (hlist : L (list v b) = []) (hinfo : L (v + 2) = []) {w : Nat} (hw : v ≤ w)
    (hw' : w < v + 3) : joined v b L w = [] := by
  have hadd := list_add (v := v) !b
  have hb := list_lt (v := v) !b
  by_cases hwb : w = list v !b
  · rw [joined, hwb, Function.update_self]
  · rw [joined_of_ne hwb (by omega)]
    have hcases : w = list v b ∨ w = v + 2 := by cases b <;> simp only [list] at * <;> simp at * <;> omega
    rcases hcases with rfl | rfl
    · exact hlist
    · exact hinfo

theorem moved_joined (b c : Bool) :
    moved v (joined v b L) (list v c) = L (list (v + 3) c) ++ if c = !b then L (list v !b) else [] := by
  have hc := list_lt (v := v) c
  have hb := list_lt (v := v) !b
  rw [moved_apply, if_pos (by omega), ← list_add, joined, Function.update_of_ne (by rw [list_add]; omega)]
  by_cases hcb : c = !b
  · rw [if_pos hcb, hcb, Function.update_self]
  · rw [if_neg hcb, Function.update_of_ne, List.append_nil]
    cases b <;> cases c <;> simp_all [list]

/-- The code of the second operand follows that of the first one, and their lists are joined. -/
structure Joined (lang : Lang α σ) (nact : Nat) (code₀ : Code) (L₀ : Nat → List Nat) (v base : Nat)
    (m m' : Vars α σ → Value α × Vars α σ) (fs₁ : FuncState) (L₁ : Nat → List Nat) (b : Bool) (fs : FuncState)
    (k : Kind) (L : Nat → List Nat) (stop : Nat) (fs' : FuncState) : Prop where
  goes : Goes lang nact code₀ L₀ v base m fs₁ b (fun c => L₁ (list v c)) L₁
  here : L₁ (list v b) = []
  info : L₁ (v + 2) = []
  spec : Spec lang nact fs₁.code L₁ (v + 3) base m' fs k L stop
  proper : Proper fs'.gen (moved v (joined v b L))
  relink : ∀ i, i ∉ L (list (v + 3) !b) → fs'.code[i]? = fs.code[i]?
  length : fs'.code.length = fs.code.length
  freereg : fs'.freereg = fs.freereg

section

variable {m' : Vars α σ → Value α × Vars α σ} {fs₁ fs' : FuncState} {L₁ : Nat → List Nat} {b : Bool}

theorem Joined.lt (h : Joined lang nact code₀ L₀ v base m m' fs₁ L₁ b fs k L stop fs') (c : Bool) :
    ∀ j ∈ L₁ (list v c), j < fs₁.code.length := fun _ hj => h.goes.made.proper.lt hj

theorem Joined.inside (h : Joined lang nact code₀ L₀ v base m m' fs₁ L₁ b fs k L stop fs') (c : Bool) :
    ∀ j ∈ L (list (v + 3) c), fs₁.code.length < j := h.spec.made.inside _ (list_lt c).1

theorem Joined.mem (h : Joined lang nact code₀ L₀ v base m m' fs₁ L₁ b fs k L stop fs') (c : Bool) (j : Nat) :
    j ∈ moved v (joined v b L) (list v c) ↔ j ∈ L (list (v + 3) c) ∨ j ∈ L₁ (list v c) := by
  have hb := list_lt (v := v) !b
  rw [moved_joined, List.mem_append, h.spec.made.outer (list v !b) (by omega)]
  split_ifs with hc
  · rw [hc]
  · rw [show c = b by cases c <;> cases b <;> simp_all, h.here]

theorem Joined.info_eq (_ : Joined lang nact code₀ L₀ v base m m' fs₁ L₁ b fs k L stop fs') :
    moved v (joined v b L) (v + 2) = L (v + 3 + 2) := by
  have hb := list_lt (v := v) !b
  have hadd := list_add (v := v) !b
  rw [moved_apply, if_pos (by omega), joined_of_ne (by omega) (by omega)]

theorem Joined.eq_nil (h : Joined lang nact code₀ L₀ v base m m' fs₁ L₁ b fs k L stop fs') {w : Nat} (hw : v ≤ w)
    (hw' : w < v + 3) : joined v b L w = [] := by
  have hb := list_lt (v := v) b
  refine joined_eq_nil ?_ ?_ hw hw'
  · rw [h.spec.made.outer _ (by omega), h.here]
  · rw [h.spec.made.outer _ (by omega), h.info]

theorem Joined.at_stop (h : Joined lang nact code₀ L₀ v base m m' fs₁ L₁ b fs k L stop fs') :
    fs'.code[stop]? = fs.code[stop]? :=
  h.relink stop fun hmem => lt_irrefl _ (h.spec.lt _ stop hmem)

theorem Joined.before (h : Joined lang nact code₀ L₀ v base m m' fs₁ L₁ b fs k L stop fs') {i : Nat}
    (hi : i < fs₁.code.length) : fs'.code[i]? = fs₁.code[i]? := by
  rw [h.relink i fun hmem => absurd (h.inside _ i hmem) (by omega)]
  exact h.spec.made.keep i hi

theorem Joined.value (h : Joined lang nact code₀ L₀ v base m m' fs₁ L₁ b fs k L stop fs') (j : Nat) :
    isValue fs'.code j = isValue fs.code j :=
  isValue_of_relinked h.relink (fun _ hi => h.spec.made.jmp hi)
    (fun i hi => h.proper.jmp (v := list v !b) ((h.mem _ i).mpr (.inl hi))) j

theorem Joined.made (h : Joined lang nact code₀ L₀ v base m m' fs₁ L₁ b fs k L stop fs') :
    Made code₀ L₀ v fs'.gen (moved v (joined v b L)) := by
  have hb := list_lt (v := v) !b
  have hadd := list_add (v := v) !b
  have hle := h.goes.made.le
  have houtside {w : Nat} (hw : v + 3 ≤ w) : moved v (joined v b L) w = [] := by
    rw [moved_apply, if_neg (by omega)]
    split_ifs with hw'
    · exact h.eq_nil (by omega) (by omega)
    · rw [joined_of_ne (by omega) (by omega), h.spec.made.free w (by omega)]
  refine ⟨h.proper, fun w hw => ?_, fun w hw => houtside hw, fun i hi => ?_, ?_, fun w hw j hj => ?_⟩
  · rw [moved_apply, if_neg (by omega), if_neg (by omega), joined_of_ne (by omega) (by omega),
      h.spec.made.outer w (by omega), h.goes.made.outer w hw]
  · exact (h.before (hi.trans_le hle)).trans (h.goes.made.keep i hi)
  · exact hle.trans (h.spec.made.le.trans h.length.ge)
  · have hcases : w = list v true ∨ w = list v false ∨ w = v + 2 ∨ v + 3 ≤ w := by
      simp only [list, if_true]
      simp
      omega
    have hlist (c : Bool) (hj : j ∈ moved v (joined v b L) (list v c)) : code₀.length < j :=
      ((h.mem c j).mp hj).elim (fun hj => hle.trans_lt (h.inside c j hj)) (h.goes.made.inside _ (list_lt c).1 j)
    rcases hcases with rfl | rfl | rfl | hw'
    · exact hlist true hj
    · exact hlist false hj
    · rw [h.info_eq] at hj
      exact hle.trans_lt (h.spec.made.inside _ (by omega) j hj)
    · rw [houtside hw'] at hj
      exact absurd hj List.not_mem_nil

theorem Joined.kind (h : Joined lang nact code₀ L₀ v base m m' fs₁ L₁ b fs k L stop fs') :
    k.Ok nact v base fs' (moved v (joined v b L)) stop := by
  refine h.spec.kind.congr h.length h.info_eq h.freereg (fun _ _ hx => h.at_stop.trans hx) fun hland i t ht => ?_
  by_cases hi : i ∈ L (list (v + 3) !b)
  · refine lands_of_thread (h.proper.thread (list v !b)) (fun j hj => ?_) ((h.mem _ _).mpr (.inl hi)) ht
    rcases (h.mem _ j).mp hj with hj | hj
    · exact h.spec.lt _ j hj
    · exact (h.lt _ j hj).trans_le h.spec.start
  · rw [h.relink i hi] at ht
    exact hland i t ht

theorem Joined.sim (h : Joined lang nact code₀ L₀ v base m m' fs₁ L₁ b fs k L stop fs') :
    Sim lang nact code₀.length base fs'.code (fun c => moved v (joined v b L) (list v c)) stop (both b m m')
      (Holds lang nact fs'.code stop k) := by
  have hsim : Sim lang nact fs₁.code.length base fs'.code (fun c => L (list (v + 3) c)) stop m'
      (Holds lang nact fs'.code stop k) :=
    h.spec.sim.recode h.spec.start (fun i _ hi => h.relink i (hi _)) (fun _ _ => Iff.rfl) (fun _ j _ => h.value j)
      fun _ _ hy => hy.congr fun _ _ hx => h.at_stop.trans hx
  -- from where the second operand starts, only its jumps are in the lists
  have hlists (i : Nat) (hi : fs₁.code.length ≤ i) :
      i ∈ moved v (joined v b L) (list v true) ++ moved v (joined v b L) (list v false) ↔
        i ∈ L (list (v + 3) true) ++ L (list (v + 3) false) := by
    have hnot (c : Bool) : i ∉ L₁ (list v c) := fun hj => absurd (h.lt c i hj) (by omega)
    rw [List.mem_append, List.mem_append, h.mem, h.mem, or_iff_left (hnot _), or_iff_left (hnot _)]
  refine h.goes.sim.bind h.goes.made.le h.spec.start (fun i hi _ => h.before hi)
    (fun c j hj => (h.mem c j).mpr (.inr hj)) (fun c j hj => ((h.mem c j).mp hj).symm.imp_right (h.inside c j))
    (fun c j hj => isValue_congr fun i hi => h.before (hi.trans (h.lt c j hj)))
    (fun c x hne htruthy => if_neg fun heq => hne ?_) fun C ρ s s' hdone hregs hf => ?_
  · rw [← htruthy, heq, h.here]
  · have hboth : both b m m' s.vars = m' s'.vars := by rw [both, if_pos hf.2, hf.1]
    have hregs' : Regs base ρ (L (list (v + 3) true) ++ L (list (v + 3) false)) := fun j hj =>
      hregs j (List.mem_append.mpr ((List.mem_append.mp hj).imp (fun hj => (h.mem _ j).mpr (.inl hj))
        fun hj => (h.mem _ j).mpr (.inl hj)))
    rw [hboth]
    rcases hsim C ρ (hdone.from fun i hi => hlists i hi) hregs' s' with hfall | ⟨c, j, hj, s'', hexit⟩
    · exact .inl hfall
    · exact .inr ⟨c, j, (h.mem c j).mpr (.inl hj), s'', hexit⟩

/-- `luaK_posfix` behind the second operand of `and` or `or`. -/
theorem Spec.posfix (hgoes : Goes lang nact code₀ L₀ v base m fs₁ b (fun c => L₁ (list v c)) L₁)
    (hhere : L₁ (list v b) = []) (hinfo : L₁ (v + 2) = [])
    (h : Spec lang nact fs₁.code L₁ (v + 3) base m' fs k L stop) :
    Yields Prod.fst fs.code.length 0 base (do
      let fs ← fs.op (.concat (list (v + 3) !b) (list v !b))
      let fs ← fs.move v (v + 3)
      Except.ok (fs, k)) fun x => ∃ L', Spec lang nact code₀ L₀ v base (both b m m') x.1 x.2 L' stop := by
  have hb := list_lt (v := v) !b
  have hadd := list_add (v := v) !b
  refine (fs.op_spec h.made.proper (.concat (list (v + 3) !b) (list v !b)) (show _ ≠ _ by omega)).bind
    (Nat.zero_le _) ?_
  rintro fs₂ ⟨L₂, hproper₂, ⟨hcode₂, hlen₂, rfl⟩, hfree₂⟩
  refine (FuncState.move_spec (v := v) hproper₂).bind (Nat.zero_le _) ?_
  rintro fs₃ ⟨hproper₃, hcode₃, hfree₃⟩
  have hjoined : Joined lang nact code₀ L₀ v base m m' fs₁ L₁ b fs k L stop fs₃ :=
    ⟨hgoes, hhere, hinfo, h, hproper₃,
      fun i hi => by rw [hcode₃]; exact hcode₂ i fun hlast => hi (List.mem_of_getLast? hlast),
      by rw [hcode₃]; exact hlen₂, hfree₃.trans hfree₂⟩
  exact .ok ⟨_, hjoined.made, hgoes.made.le.trans h.start, hjoined.kind, hjoined.sim⟩ (Nat.le_add_right _ _)

end

/-! ### Operands -/

/-- An operand of one instruction. -/
theorem Made.load (lang : Lang α σ) (nact : Nat) (h : Made fs.code L₀ v fs.gen L) (hinfo : L (v + 2) = []) (l : Load) :
    Yields id fs.code.length 1 base (fs.emit l.word) fun fs' =>
      Spec lang nact fs.code L₀ v fs.freereg (lang.load l.word) fs' (.reloc fs.code.length) L fs.code.length := by
  refine (h.emit (i := .other l.word) rfl rfl).imp ?_
  rintro fs' ⟨hmade, hcode, hfree⟩
  have hlast : fs'.code[fs.code.length]? = some (.other l.word) := by
    rw [hcode]
    exact List.getElem?_concat_length
  refine ⟨hmade, le_rfl, ⟨rfl, by rw [hcode, List.length_append]; rfl, hinfo, hfree, ⟨_, hlast⟩, fun i t ht => ?_⟩,
    .start fun s => ⟨_, hlast, l.opcode.1, ?_⟩⟩
  · rw [hcode] at ht
    rcases getElem?_append_cases ht with ht | ⟨-, ht⟩
    · exact (h.proper.lands i t ht).2
    · rw [List.getElem?_singleton] at ht
      split_ifs at ht
      cases Option.some.inj ht
  · rw [valueOf, if_neg l.opcode.2, setA_of_fieldA l.fieldA]

/-- `luaK_exp2nextreg` where there are no jumps. -/
theorem Spec.exp2nextreg {pc : Nat} (h : Spec lang nact code₀ L₀ v base m fs (.reloc pc) L stop)
    (hempty : ∀ w, v ≤ w → L w = []) (hbase : nact ≤ base) (hlim : base < 255) :
    Yields id fs.code.length 4 base (luaK_exp2nextreg nact fs v (.reloc pc)) fun fs' =>
      Spec lang nact code₀ L₀ v base m fs' (.nonreloc (fs'.freereg - 1)) L fs'.code.length := by
  obtain ⟨-, -, -, hfree, -⟩ := h.kind
  refine (FuncState.reserve_spec hfree).bind (Nat.zero_le _) ?_
  rintro ⟨gen, n⟩ ⟨rfl, rfl, -⟩
  refine (h.discharge2reg (by simp) hbase le_rfl hlim (base + 1)).bind (by decide) ?_
  rintro fs₁ ⟨hvalued, hfree₁⟩
  refine (fs₁.op_spec hvalued.made.proper (.exp2reg v (v + 1) (v + 2) base) ⟨by omega, by omega, by omega⟩).imp ?_
  rintro ⟨gen, n⟩ ⟨L', hproper, ⟨hcode, rfl⟩, hfree₂⟩
  obtain rfl : n = base + 1 := hfree₂.trans hfree₁
  rw [hempty v le_rfl, hempty (v + 1) (by omega), hempty (v + 2) (by omega)] at hcode
  have hcode' : gen.code = fs₁.code := hcode.trans (exp2regCode_nil ..)
  have hlists : Function.update (Function.update (Function.update L v []) (v + 1) []) (v + 2) [] = L := by
    funext w
    simp only [Function.update_apply]
    split_ifs with h₁ h₂ h₃
    · exact (hempty w (by omega)).symm
    · exact (hempty w (by omega)).symm
    · exact (hempty w (by omega)).symm
    · rfl
  rw [hlists] at hproper
  have hmade : Made code₀ L₀ v gen L := { hvalued.made with
    proper := hproper
    keep := fun i hi => by rw [hcode']; exact hvalued.made.keep i hi
    le := by rw [hcode']; exact hvalued.made.le }
  refine ⟨hmade, hmade.le, ⟨rfl, hvalued.info, .inr ⟨Nat.add_sub_cancel .., rfl⟩⟩, ?_⟩
  rw [FuncState.code, hcode']
  exact hvalued.sim

end

/-- So many instructions an expression has at most. -/
def Exp.cost {nact : Nat} : Exp nact → Nat
  | .false_ | .true_ | .const .. | .local_ _ => 0
  | .load _ => 1
  | .closure _ => 5
  | .compare _ => 2
  | .not_ e => e.cost + 2
  | .andor _ e e' => e.cost + 3 + e'.cost

/-- The code of an expression computes its value. -/
theorem compile_spec {α σ : Type} (lang : Lang α σ) {nact : Nat} (e : Exp nact) (v : Nat) (fs : FuncState)
    {L : Nat → List Nat} (hproper : Proper fs.gen L) (hfree : ∀ w, v ≤ w → L w = []) (hbase : nact ≤ fs.freereg)
    (hlim : fs.freereg < 255) :
    Yields Prod.fst fs.code.length e.cost fs.freereg (compile nact e v fs) fun x => ∃ L' stop,
      Spec lang nact fs.code L v fs.freereg (e.eval lang) x.1 x.2 L' stop := by
  have hmade : Made fs.code L v fs.gen L := .start hproper hfree
  have hinfo : L (v + 2) = [] := hfree _ (by omega)
  induction e generalizing v fs L with
  | false_ => exact ⟨Nat.le_add_right _ _, L, _, hmade, le_rfl, ⟨rfl, hinfo, rfl⟩, .start fun _ => rfl⟩
  | true_ => exact ⟨Nat.le_add_right _ _, L, _, hmade, le_rfl, ⟨rfl, hinfo, rfl⟩, .start fun _ => rfl⟩
  | const op bx => exact ⟨Nat.le_add_right _ _, L, _, hmade, le_rfl, ⟨rfl, hinfo, rfl⟩, .start fun _ => rfl⟩
  | local_ r =>
    exact ⟨Nat.le_add_right _ _, L, _, hmade, le_rfl, ⟨rfl, hinfo, .inl ⟨r.isLt, rfl⟩⟩,
      .start fun s => Prod.ext (if_pos r.isLt).symm rfl⟩
  | load l =>
    refine (hmade.load lang nact hinfo l).bind (le_refl 1) ?_
    rintro fs₁ hspec
    exact .ok ⟨L, _, hspec⟩ (Nat.le_add_right _ _)
  | closure l =>
    refine (hmade.load lang nact hinfo l).bind (show 1 ≤ 5 by decide) ?_
    rintro fs₁ hspec
    refine (hspec.exp2nextreg hfree hbase hlim).bind (le_refl 4) ?_
    rintro fs₂ hspec₂
    exact .ok ⟨L, _, hspec₂⟩ (Nat.le_add_right _ _)
  | compare w =>
    refine (hmade.condjump (i := .compare w) rfl).bind (le_refl 2) ?_
    rintro fs₁ ⟨hmade₁, hcode, hfree₁⟩
    have hlast : fs₁.code[fs.code.length]? = some (.compare w) := by
      rw [hcode, List.getElem?_append_right le_rfl, Nat.sub_self]
      rfl
    exact .ok ⟨_, _, hmade₁, le_rfl, ⟨by rw [hcode, List.length_append]; rfl, Function.update_self .., hfree₁, _,
      hlast⟩, .start fun _ => ⟨_, hlast, rfl⟩⟩ (Nat.le_add_right _ _)
  | not_ e ih =>
    refine (ih v fs hproper hfree hbase hlim hmade hinfo).bind (Nat.le_add_right _ 2) ?_
    rintro ⟨fs₁, k⟩ ⟨L₁, stop, hspec⟩
    exact (hspec.codenot hbase hlim).mono (by simp [Exp.cost]) fun _ hspec => hspec
  | andor b e e' ih ih' =>
    refine (ih v fs hproper hfree hbase hlim hmade hinfo).bind (by rw [Exp.cost]; omega) ?_
    rintro ⟨fs₁, k⟩ ⟨L₁, stop, hspec⟩
    suffices h : Yields Prod.fst fs₁.code.length (3 + e'.cost) fs.freereg (do
        let fs₂ ← fs₁.goif nact v b k
        let x ← compile nact e' (v + 3) fs₂
        let fs₃ ← x.1.op (.concat (list (v + 3) !b) (list v !b))
        let fs₃ ← fs₃.move v (v + 3)
        Except.ok (fs₃, x.2)) fun x => ∃ L' stop,
          Spec lang nact fs.code L v fs.freereg (both b (e.eval lang) (e'.eval lang)) x.1 x.2 L' stop by
      have hle : fs₁.code.length + (3 + e'.cost) ≤ fs₁.code.length + ((Exp.andor b e e').cost - e.cost) := by
        rw [Exp.cost]
        omega
      cases b <;> exact h.mono hle fun _ hspec => hspec
    refine (hspec.goif hbase hlim b).bind (Nat.le_add_right _ _) ?_
    rintro fs₂ ⟨L₂, hgoes, hlist, hinfo₂⟩
    have hbase₂ := hgoes.freereg
    have hcompile := ih' (v + 3) fs₂ hgoes.made.proper hgoes.made.free (hbase₂ ▸ hbase) (hbase₂ ▸ hlim)
      (.start hgoes.made.proper hgoes.made.free) (hgoes.made.free _ (by omega))
    rw [hbase₂] at hcompile
    refine hcompile.bind (Nat.add_sub_cancel_left ..).ge ?_
    rintro ⟨fs₃, k₃⟩ ⟨L₃, stop₃, hspec₃⟩
    refine (hspec₃.posfix hgoes hlist hinfo₂).mono (Nat.le_add_right fs₃.code.length _) ?_
    rintro x ⟨L₄, hspec₄⟩
    exact ⟨L₄, stop₃, hspec₄⟩

end Tsuki.Logic
