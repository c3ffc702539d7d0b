import Tsuki.Code.Logic
import Mathlib.Tactic.Ring

/-!
# Code with pending jumps

What code does is said of any later code that differs from it only by what is still open: the jumps in lists lead
somewhere, and the tests before them have got registers. A run ends behind the code, or at a jump of a list.
-/

namespace Tsuki.Logic

open Jumps

/-! ## Instructions -/

section

variable {α σ : Type} {lang : Lang α σ} {nact : Nat}

theorem opcode_word {op a b : Nat} (hop : op < 128) : opcode (word op a b) = op := by
  unfold opcode word
  omega

theorem fieldA_word {op a b : Nat} (hop : op < 128) (ha : a < 256) : fieldA (word op a b) = a := by
  unfold fieldA word
  omega

theorem fieldB_word {op a b : Nat} (hop : op < 128) (ha : a < 256) (hb : b < 256) : fieldB (word op a b) = b := by
  unfold fieldB word
  omega

theorem fieldA_mul_le (w : Nat) : fieldA w * 128 ≤ w := by
  unfold fieldA
  omega

theorem opcode_setA (w a : Nat) : opcode (setA w a) = opcode w := by
  have := fieldA_mul_le w
  unfold opcode setA
  omega

theorem fieldA_setA (w : Nat) {a : Nat} (ha : a < 256) : fieldA (setA w a) = a := by
  unfold setA fieldA
  omega

theorem fieldB_setA (w : Nat) {a : Nat} (ha : a < 256) : fieldB (setA w a) = fieldB w := by
  unfold setA fieldA fieldB
  omega

theorem setA_setA (w : Nat) {a : Nat} (ha : a < 256) (b : Nat) : setA (setA w a) b = setA w b := by
  unfold setA fieldA
  omega

theorem setA_of_fieldA {w : Nat} (hw : fieldA w = 0) : setA w 0 = w := by
  rw [setA, hw]
  omega

theorem fieldK_flipK (w : Nat) : fieldK (flipK w) = !fieldK w := by
  unfold flipK
  by_cases h : w / 32768 % 2 = 1
  · rw [show fieldK w = true from decide_eq_true h, if_pos rfl]
    exact decide_eq_false (by omega)
  · rw [show fieldK w = false from decide_eq_false h, if_neg (by simp)]
    exact decide_eq_true (by omega)

theorem clearK_flipK (w : Nat) : clearK (flipK w) = clearK w := by
  rw [clearK, fieldK_flipK, clearK, flipK]
  by_cases h : fieldK w = true
  · simp [h]
  · simp [Bool.eq_false_of_not_eq_true h]

theorem taken_flipK (w : Nat) (x : Vars α σ) : taken lang (flipK w) x = (!(taken lang w x).1, (taken lang w x).2) := by
  unfold taken
  rw [clearK_flipK, fieldK_flipK]
  cases (lang.compare (clearK w) x).1 <;> cases fieldK w <;> rfl

/-- An operand or `OP_NOT`, which takes any register. -/
def Computes (w : Nat) : Prop := 9 ≤ opcode w

theorem exec_setA {w : Nat} (hw : Computes w) {a : Nat} (ha : a < 256) (s : State α σ) :
    exec lang nact (setA w a) s =
      { s with vars := (valueOf lang nact w s).2 }.set nact a (valueOf lang nact w s).1 := by
  have hvalue : valueOf lang nact (setA w a) s = valueOf lang nact w s := by
    rw [valueOf, valueOf, opcode_setA, fieldB_setA w ha, setA_setA w ha]
  have hge : 9 ≤ opcode (setA w a) := opcode_setA w a ▸ hw
  unfold exec
  rw [hvalue, fieldA_setA w ha]
  split <;> first | omega | rfl

@[simp] theorem get_set_self (s : State α σ) (r : Nat) (v : Value α) : (s.set nact r v).get nact r = v := by
  unfold State.set State.get
  split_ifs <;> simp

theorem vars_set {s : State α σ} {r : Nat} (hr : nact ≤ r) (v : Value α) : (s.set nact r v).vars = s.vars := by
  rw [State.set, if_neg (Nat.not_lt.mpr hr)]

/-- Variables may change, and the temporary registers from `base` on. -/
def Frame (base : Nat) (s s' : State α σ) : Prop := ∀ r < base, s'.temps r = s.temps r

theorem Frame.trans {base : Nat} {s s' s'' : State α σ} (h : Frame base s s') (h' : Frame base s' s'') :
    Frame base s s'' := fun r hr => (h' r hr).trans (h r hr)

theorem Frame.set {base : Nat} {s s' : State α σ} (h : Frame base s s') {r : Nat} (hr : base ≤ r) (v : Value α) :
    Frame base s (s'.set nact r v) := by
  intro q hq
  rw [← h q hq, State.set]
  split_ifs
  · rfl
  · exact Function.update_of_ne (by omega) ..

end

/-! ## Runs -/

section

variable {α σ : Type} {lang : Lang α σ} {nact : Nat} {C : Code} {pc : Nat} {s : State α σ}

theorem Reaches.next {x : Nat × State α σ} {pc' : Nat} {s' : State α σ} (h : Reaches lang nact C x (pc, s))
    (hstep : step lang nact C (pc, s) = some (pc', s')) : Reaches lang nact C x (pc', s') :=
  Relation.ReflTransGen.tail h hstep

theorem step_jmp {j : Int} (h : C[pc]? = some (.jmp j)) :
    step lang nact C (pc, s) = some (((pc : Int) + 1 + j).toNat, s) := by
  simp only [step, h]

theorem step_other {w : Nat} (h : C[pc]? = some (.other w)) :
    step lang nact C (pc, s) = some (pc + 1, exec lang nact w s) := by
  simp only [step, h]

theorem step_compare {w : Nat} (h : C[pc]? = some (.compare w)) : step lang nact C (pc, s) =
    some (if (taken lang w s.vars).1 then pc + 1 else pc + 2, { s with vars := (taken lang w s.vars).2 }) := by
  simp only [step, h]

theorem step_test {a : Nat} {k : Bool} (h : C[pc]? = some (.test a k)) :
    step lang nact C (pc, s) = some (if (s.get nact a).truthy = k then pc + 1 else pc + 2, s) := by
  simp only [step, h]

theorem step_testset {a b : Nat} {k : Bool} (h : C[pc]? = some (.testset a b k)) : step lang nact C (pc, s) =
    if (s.get nact b).truthy = k then some (pc + 1, s.set nact a (s.get nact b)) else some (pc + 2, s) := by
  simp only [step, h]

end

/-! ## Later code -/

section

/-- The code from `lo` to `hi` but for the jumps in `l` and the tests before them, which have got the registers `ρ`. -/
def Done (code C : Code) (l : List Nat) (ρ : Nat → Nat) (lo hi : Nat) : Prop :=
  ∀ i, lo ≤ i → i < hi → i ∉ l → C[i]? = code[i]?.map fun x => if i + 1 ∈ l then x.control (ρ (i + 1)) else x

variable {code code' C : Code} {l l' : List Nat} {ρ ρ' : Nat → Nat} {lo hi hi' : Nat}

theorem Done.get (h : Done code C l ρ lo hi) {i : Nat} (hlo : lo ≤ i) (hhi : i < hi) (hi' : i ∉ l) (hnext : i + 1 ∉ l) :
    C[i]? = code[i]? := by
  rw [h i hlo hhi hi']
  simp only [if_neg hnext, Option.map_id']

theorem Done.mono (h : Done code C l ρ lo hi) {lo' : Nat} (hlo : lo ≤ lo') (hle : hi' ≤ hi) : Done code C l ρ lo' hi' :=
  fun i hi₁ hi₂ => h i (hlo.trans hi₁) (hi₂.trans_le hle)

/-- Code was added, and the lists have got jumps in it. -/
theorem Done.before (h : Done code' C l' ρ lo hi') (hle : hi ≤ hi') (hcode : ∀ i < hi, i ∉ l → code'[i]? = code[i]?)
    (hl : ∀ i, i ≤ hi → (i ∈ l' ↔ i ∈ l)) : Done code C l ρ lo hi := by
  intro i hlo hlt hi
  rw [h i hlo (hlt.trans_le hle) (by rwa [hl i hlt.le]), hcode i hlt hi]
  simp only [hl (i + 1) hlt]

@[simp] theorem control_control_noReg (x : Instr) (r : Nat) : (x.control noReg).control r = x.control noReg := by
  cases x with
  | testset a b k => rw [Instr.control, if_neg (by simp)]; rfl
  | _ => rfl

/-- A list was patched to lead behind the code. -/
theorem Done.patched {m : List Nat} {d : Nat} (h : Done (patched code m d noReg d) C l ρ lo hi)
    (hm : ∀ j ∈ m, ∃ t, code[j]? = some (.jmp t)) (hdisj : ∀ j ∈ m, j ∉ l) :
    Done code C (m ++ l) (fun j => if j ∈ m then noReg else ρ j) lo hi ∧
      ∀ j ∈ m, lo ≤ j → j < hi → C[j]? = some (.jmp (d - (j + 1))) := by
  constructor
  · intro i hlo hlt hi
    obtain ⟨him, hil⟩ := not_or.mp fun h => hi (List.mem_append.mpr h)
    rw [h i hlo hlt hil, getElem?_patched, Option.map_map]
    refine congrArg (fun f => Option.map f code[i]?) (funext fun x => ?_)
    simp only [Function.comp_apply, if_neg him, List.mem_append]
    by_cases hnext : i + 1 ∈ m
    · simp [hnext, hdisj _ hnext]
    · simp [hnext]
  · intro j hj hlo hlt
    obtain ⟨t, ht⟩ := hm j hj
    rw [h j hlo hlt (hdisj j hj), getElem?_patched, ht, Option.map_some, Option.map_some, if_pos hj, target, ite_self,
      control_jmp, ite_self]

/-- The tests of a list were cut down to give no value. -/
theorem Done.controlled {m : List Nat} (h : Done (controlled code m noReg) C l ρ lo hi) (hsub : ∀ j ∈ m, j ∈ l) :
    Done code C l (fun j => if j ∈ m then noReg else ρ j) lo hi := by
  intro i hlo hlt hi
  rw [h i hlo hlt hi, getElem?_controlled, Option.map_map]
  refine congrArg (fun f => Option.map f code[i]?) (funext fun x => ?_)
  simp only [Function.comp_apply]
  by_cases hnext : i + 1 ∈ m
  · simp [hnext, hsub _ hnext]
  · simp [hnext]

end

/-! ## Runs of code with pending jumps -/

section

variable {α σ : Type} (lang : Lang α σ) (nact : Nat)

/-- The registers of tests are temporary ones. -/
def Regs (base : Nat) (ρ : Nat → Nat) (l : List Nat) : Prop := ∀ j ∈ l, ρ j = noReg ∨ base ≤ ρ j

/-- What is known at a jump: its test has put the value into the register, or the value is a boolean. -/
def Carries (code : Code) (ρ : Nat → Nat) (j : Nat) (s : State α σ) (v : Value α) : Prop :=
  (isValue code j = true → ρ j ≠ noReg → s.get nact (ρ j) = v) ∧ (isValue code j = false → v = .bool v.truthy)

/-- A run from `x` to a jump of the list `b`, where the value is known. -/
structure Exits (C code : Code) (ρ : Nat → Nat) (base pc j : Nat) (s s' : State α σ) (b : Bool)
    (out : Value α × Vars α σ) : Prop where
  reaches : Reaches lang nact C (pc, s) (j, s')
  frame : Frame base s s'
  vars : s'.vars = out.2
  truthy : out.1.truthy = b
  value : Carries nact code ρ j s' out.1

/-- What the code from `start` to `stop` does in any later code: `m` is the value it is about. -/
def Sim (start base : Nat) (code : Code) (J : Bool → List Nat) (stop : Nat) (m : Vars α σ → Value α × Vars α σ)
    (fall : Value α × Vars α σ → State α σ → Prop) : Prop :=
  ∀ C ρ, Done code C (J true ++ J false) ρ start stop → Regs base ρ (J true ++ J false) → ∀ s : State α σ,
    (∃ s', Reaches lang nact C (start, s) (stop, s') ∧ Frame base s s' ∧ fall (m s.vars) s') ∨
      ∃ b, ∃ j ∈ J b, ∃ s', Exits lang nact C code ρ base start j s s' b (m s.vars)

variable {lang nact} {start base stop stop' : Nat} {code code' C : Code} {J J' : Bool → List Nat} {ρ : Nat → Nat}
  {m m' : Vars α σ → Value α × Vars α σ} {fall fall' : Value α × Vars α σ → State α σ → Prop}

theorem mem_lists {j : Nat} : j ∈ J true ++ J false ↔ ∃ b, j ∈ J b := by
  rw [List.mem_append, Bool.exists_bool, or_comm]

theorem Done.congr {l l' : List Nat} {lo hi : Nat} (h : Done code C l ρ lo hi) (hl : ∀ j, j ∈ l' ↔ j ∈ l) :
    Done code C l' ρ lo hi := by
  intro i hlo hlt hi
  rw [h i hlo hlt (by rwa [hl i] at hi)]
  simp only [hl (i + 1)]

theorem Exits.trans {pc' j : Nat} {s s' s'' : State α σ} {pc : Nat} {b : Bool} {out : Value α × Vars α σ}
    (hreach : Reaches lang nact C (pc, s) (pc', s')) (hframe : Frame base s s')
    (h : Exits lang nact C code ρ base pc' j s' s'' b out) : Exits lang nact C code ρ base pc j s s'' b out :=
  ⟨hreach.trans h.reaches, hframe.trans h.frame, h.vars, h.truthy, h.value⟩

/-- What a part of the code does next. -/
def Next (lang : Lang α σ) (nact base : Nat) (C code : Code) (ρ : Nat → Nat) (J : Bool → List Nat) (pc pc' : Nat)
    (s : State α σ) (out : Value α × Vars α σ) (fall : State α σ → Prop) : Prop :=
  (∃ s', Reaches lang nact C (pc, s) (pc', s') ∧ Frame base s s' ∧ fall s') ∨
    ∃ b, ∃ j ∈ J b, ∃ s', Exits lang nact C code ρ base pc j s s' b out

/-- Code goes on behind a part: values that leave the part early stay what they are. -/
theorem Sim.bind (h : Sim lang nact start base code J stop m fall) (hstart : start ≤ stop) (hle : stop ≤ stop')
    (hcode : ∀ i < stop, (∀ b, i ∉ J b) → code'[i]? = code[i]?)
    (hsub : ∀ b, ∀ j ∈ J b, j ∈ J' b) (hnew : ∀ b, ∀ j ∈ J' b, j ∈ J b ∨ stop < j)
    (hvalue : ∀ b, ∀ j ∈ J b, isValue code' j = isValue code j)
    (hold : ∀ b x, J b ≠ [] → (m x).1.truthy = b → m' x = m x)
    (hnext : ∀ C ρ (s s' : State α σ), Done code' C (J' true ++ J' false) ρ stop stop' →
      Regs base ρ (J' true ++ J' false) → fall (m s.vars) s' →
      Next lang nact base C code' ρ J' stop stop' s' (m' s.vars) (fall' (m' s.vars))) :
    Sim lang nact start base code' J' stop' m' fall' := by
  intro C ρ hdone hregs s
  have hsame (i : Nat) (hi : i ≤ stop) : i ∈ J' true ++ J' false ↔ i ∈ J true ++ J false := by
    rw [mem_lists, mem_lists]
    constructor
    · rintro ⟨b, hb⟩
      exact ⟨b, (hnew b i hb).resolve_right (by omega)⟩
    · rintro ⟨b, hb⟩
      exact ⟨b, hsub b i hb⟩
  have hbefore := hdone.before hle (fun i hi hmem => hcode i hi fun b hb => hmem (mem_lists.mpr ⟨b, hb⟩)) hsame
  have hregs' : Regs base ρ (J true ++ J false) := fun j hj => by
    obtain ⟨b, hb⟩ := mem_lists.mp hj
    exact hregs j (mem_lists.mpr ⟨b, hsub b j hb⟩)
  rcases h C ρ hbefore hregs' s with ⟨s', hreach, hframe, hfall⟩ | ⟨b, j, hj, s', hexit⟩
  · rcases hnext C ρ s s' (hdone.mono hstart le_rfl) hregs hfall with
      ⟨s'', hreach', hframe', hfall'⟩ | ⟨b, j, hj, s'', hexit⟩
    · exact .inl ⟨s'', hreach.trans hreach', hframe.trans hframe', hfall'⟩
    · exact .inr ⟨b, j, hj, s'', hexit.trans hreach hframe⟩
  · rw [hold b s.vars (List.ne_nil_of_mem hj) hexit.truthy]
    refine .inr ⟨b, j, hsub b j hj, s', { hexit with value := ?_ }⟩
    rw [Carries, hvalue b j hj]
    exact hexit.value

theorem Sim.mono (h : Sim lang nact start base code J stop m fall) (hfall : ∀ x s, fall (m x) s → fall' (m x) s) :
    Sim lang nact start base code J stop m fall' := by
  intro C ρ hdone hregs s
  rcases h C ρ hdone hregs s with ⟨s', hreach, hframe, hf⟩ | hexit
  · exact .inl ⟨s', hreach, hframe, hfall _ _ hf⟩
  · exact .inr hexit

/-- The code changes in pending jumps, or behind the part. -/
theorem Sim.recode (h : Sim lang nact start base code J stop m fall) (hstart : start ≤ stop)
    (hcode : ∀ i < stop, (∀ b, i ∉ J b) → code'[i]? = code[i]?) (hJ : ∀ b j, j ∈ J' b ↔ j ∈ J b)
    (hvalue : ∀ b, ∀ j ∈ J b, isValue code' j = isValue code j)
    (hfall : ∀ x s, fall (m x) s → fall' (m x) s) : Sim lang nact start base code' J' stop m fall' :=
  h.bind hstart le_rfl hcode (fun b j => (hJ b j).mpr) (fun b j hj => .inl ((hJ b j).mp hj)) hvalue
    (fun _ _ _ _ => rfl)
    fun _ _ s s' _ _ hf => .inl ⟨s', .refl, fun _ _ => rfl, hfall s.vars s' hf⟩

/-- A list is patched to lead behind the code. -/
theorem Sim.patch (h : Sim lang nact start base code J code.length m fall) {b : Bool}
    (hjmp : ∀ c, ∀ j ∈ J c, ∃ t, code[j]? = some (.jmp t)) (hdisj : ∀ j ∈ J b, j ∉ J !b)
    (hin : ∀ j ∈ J b, start ≤ j) (hfall : ∀ x s, fall (m x) s → s.vars = (m x).2 ∧ (m x).1.truthy = b)
    (hJ : J' b = []) (hJ' : J' (!b) = J !b) :
    Sim lang nact start base (patched code (J b) code.length noReg code.length) J' code.length m
      (fun out s => s.vars = out.2 ∧ out.1.truthy = b) := by
  intro C ρ hdone hregs s
  have hmem (j : Nat) : j ∈ J' true ++ J' false ↔ j ∈ J !b := by
    cases b <;> simp_all
  obtain ⟨hdone', htarget⟩ := hdone.patched (hjmp b) fun j hj hj' => hdisj j hj ((hmem j).mp hj')
  have hlists (j : Nat) : j ∈ J true ++ J false ↔ j ∈ J b ++ (J' true ++ J' false) := by
    simp only [List.mem_append] at hmem ⊢
    rw [hmem]
    cases b with
    | false => exact or_comm
    | true => exact Iff.rfl
  have hregs' : Regs base (fun j => if j ∈ J b then noReg else ρ j) (J true ++ J false) := by
    intro j hj
    dsimp only
    split_ifs with hjb
    · exact .inl rfl
    · refine hregs j ((hmem j).mpr ?_)
      rw [hlists, List.mem_append, hmem] at hj
      exact hj.resolve_left hjb
  rcases h C _ (hdone'.congr hlists) hregs' s with ⟨s', hreach, hframe, hf⟩ | ⟨c, j, hj, s', hexit⟩
  · exact .inl ⟨s', hreach, hframe, hfall _ _ hf⟩
  · by_cases hc : c = b
    · subst hc
      have hlt : j < code.length := by
        obtain ⟨t, ht⟩ := hjmp c j hj
        exact (List.getElem?_eq_some_iff.mp ht).1
      have hstep : step lang nact C (j, s') = _ := step_jmp (htarget j hj (hin j hj) hlt)
      rw [show ((j : Int) + 1 + (code.length - (j + 1))).toNat = code.length by omega] at hstep
      exact .inl ⟨s', hexit.reaches.next hstep, hexit.frame, hexit.vars, hexit.truthy⟩
    · obtain rfl : c = !b := Bool.eq_not_of_ne hc
      have hjb : j ∉ J b := fun hjb => hdisj j hjb hj
      refine .inr ⟨!b, j, hJ' ▸ hj, s', { hexit with value := ?_ }⟩
      have hvalue := hexit.value
      rw [Carries, if_neg hjb] at hvalue
      rw [Carries, isValue_patched (hjmp b) hjb]
      exact hvalue

theorem isValue_controlled_of_mem {l : List Nat} {j : Nat} (hj : j ∈ l) :
    isValue (controlled code l noReg) j = false := by
  cases j with
  | zero => rfl
  | succ j =>
    rw [isValue, getElem?_controlled]
    cases code[j]? with
    | none => rfl
    | some x =>
      rw [Option.map_some, if_pos hj]
      cases x <;> rfl

theorem isValue_controlled_of_false {l : List Nat} {j : Nat} (hj : isValue code j = false) :
    isValue (controlled code l noReg) j = false := by
  by_cases hmem : j ∈ l
  · exact isValue_controlled_of_mem hmem
  · cases j with
    | zero => rfl
    | succ j =>
      rw [isValue, getElem?_controlled]
      simp only [if_neg hmem, Option.map_id']
      exact hj

/-- `not` swaps the lists, the jumps of which give no value any more. -/
theorem Sim.not (h : Sim lang nact start base code J stop m fall)
    (hfall : ∀ x s, fall (m x) s → fall' (.bool !(m x).1.truthy, (m x).2) s) :
    Sim lang nact start base (controlled (controlled code (J true) noReg) (J false) noReg) (fun b => J !b) stop
      (fun x => (.bool !(m x).1.truthy, (m x).2)) fall' := by
  intro C ρ hdone hregs s
  have hmem (j : Nat) : j ∈ J true ++ J false ↔ j ∈ J (!true) ++ J (!false) := by
    rw [List.mem_append, List.mem_append, or_comm]
    rfl
  have hdone' := ((hdone.congr hmem).controlled fun j hj => List.mem_append_right _ hj).controlled
    fun j hj => List.mem_append_left _ hj
  have hregs' : Regs base (fun j => if j ∈ J true then noReg else (if j ∈ J false then noReg else ρ j))
      (J true ++ J false) := by
    intro j hj
    dsimp only
    split_ifs with h₁ h₂
    · exact .inl rfl
    · exact .inl rfl
    · exact absurd hj fun hj => (List.mem_append.mp hj).elim h₁ h₂
  rcases h C _ hdone' hregs' s with ⟨s', hreach, hframe, hf⟩ | ⟨c, j, hj, s', hexit⟩
  · exact .inl ⟨s', hreach, hframe, hfall _ _ hf⟩
  · have hno : isValue (controlled (controlled code (J true) noReg) (J false) noReg) j = false := by
      cases c with
      | false => exact isValue_controlled_of_mem hj
      | true => exact isValue_controlled_of_false (isValue_controlled_of_mem hj)
    refine .inr ⟨!c, j, ?_, s', hexit.reaches, hexit.frame, hexit.vars, ?_, ?_⟩
    · show j ∈ J !!c
      rwa [Bool.not_not]
    · show (!(m s.vars).1.truthy) = !c
      rw [hexit.truthy]
    · exact ⟨fun hv => absurd (hno.symm.trans hv) Bool.false_ne_true, fun _ => rfl⟩

/-! ### One more instruction -/

theorem isValue_congr {j : Nat} (h : ∀ i < j, code'[i]? = code[i]?) : isValue code' j = isValue code j := by
  cases j with
  | zero => rfl
  | succ j => rw [isValue, isValue, h j (Nat.lt_succ_self j)]

/-- An instruction behind a part, which is no test. -/
theorem Sim.exec (h : Sim lang nact start base code J stop m fall) (hstart : start ≤ stop)
    (hcode : ∀ i < stop, code'[i]? = code[i]?) {x : Instr} (hx : code'[stop]? = some x)
    (hJ : ∀ b, ∀ j ∈ J b, j < stop) (f : State α σ → State α σ)
    (hstep : ∀ C s, C[stop]? = some x → step lang nact C (stop, s) = some (stop + 1, f s))
    (hexec : ∀ y s, fall (m y) s → Frame base s (f s) ∧ fall' (m y) (f s)) :
    Sim lang nact start base code' J (stop + 1) m fall' := by
  refine h.bind hstart (Nat.le_succ _) (fun i hi _ => hcode i hi) (fun _ _ => id) (fun _ _ => .inl)
    (fun b j hj => isValue_congr fun i hi => hcode i (hi.trans (hJ b j hj))) (fun _ _ _ _ => rfl)
    fun C ρ s s' hdone _ hf => ?_
  have hnot (i : Nat) (hi : stop ≤ i) : i ∉ J true ++ J false := by
    rw [mem_lists]
    rintro ⟨b, hb⟩
    exact absurd (hJ b i hb) (by omega)
  have hget := hdone.get le_rfl (Nat.lt_succ_self _) (hnot _ le_rfl) (hnot _ (Nat.le_succ _))
  rw [hx] at hget
  exact .inl ⟨f s', Reaches.next .refl (hstep C s' hget), hexec _ _ hf⟩

/-- What a test does, with its register: the jump behind it is taken where the value is not like `b`. -/
def Tests (lang : Lang α σ) (nact base : Nat) (x : Instr) (b : Bool) (pc : Nat) (out : Value α × Vars α σ)
    (s : State α σ) : Prop :=
  ∀ (C : Code) (r : Nat), C[pc]? = some (x.control r) → (r = noReg ∨ base ≤ r) → ∃ s', Frame base s s' ∧
    s'.vars = out.2 ∧ step lang nact C (pc, s) = some (if out.1.truthy = b then pc + 2 else pc + 1, s') ∧
    (x.isTestset = true → out.1.truthy ≠ b → r ≠ noReg → s'.get nact r = out.1) ∧
    (x.isTestset = false → out.1 = .bool out.1.truthy)

/-- A test with its jump behind a part. -/
theorem Sim.test (h : Sim lang nact start base code J stop m fall) (hstart : start ≤ stop)
    (hcode : ∀ i < stop, code'[i]? = code[i]?) {x : Instr} (hx : code'[stop]? = some x)
    (hJ : ∀ b, ∀ j ∈ J b, j < stop) {b : Bool} (hJ' : ∀ c j, j ∈ J' c ↔ j ∈ J c ∨ c = (!b) ∧ j = stop + 1)
    (hexec : ∀ y s, fall (m y) s → Tests lang nact base x b stop (m y) s) :
    Sim lang nact start base code' J' (stop + 2) m
      (fun out s => s.vars = out.2 ∧ out.1.truthy = b ∧ (x.isTestset = false → out.1 = .bool b)) := by
  refine h.bind hstart (by omega) (fun i hi _ => hcode i hi) (fun c j hj => (hJ' c j).mpr (.inl hj)) (fun c j hj => ?_)
    (fun b j hj => isValue_congr fun i hi => hcode i (hi.trans (hJ b j hj))) (fun _ _ _ _ => rfl)
    fun C ρ s s' hdone hregs hf => ?_
  · rcases (hJ' c j).mp hj with hj | ⟨-, rfl⟩
    · exact .inl hj
    · exact .inr (by omega)
  have hmem : stop + 1 ∈ J' !b := (hJ' _ _).mpr (.inr ⟨rfl, rfl⟩)
  have hnot : stop ∉ J' true ++ J' false := by
    rw [mem_lists]
    rintro ⟨c, hc⟩
    rcases (hJ' c _).mp hc with hj | ⟨-, hj⟩
    · exact absurd (hJ c _ hj) (lt_irrefl _)
    · omega
  have hmem' := mem_lists.mpr ⟨_, hmem⟩
  have hget := hdone stop le_rfl (by omega) hnot
  rw [hx, Option.map_some, if_pos hmem'] at hget
  obtain ⟨s'', hframe, hvars, hstep, hset, hbool⟩ := hexec _ _ hf C _ hget (hregs _ hmem')
  by_cases hb : (m s.vars).1.truthy = b
  · rw [if_pos hb] at hstep
    exact .inl ⟨s'', Reaches.next .refl hstep, hframe, hvars, hb, fun hx => hb ▸ hbool hx⟩
  · rw [if_neg hb] at hstep
    have hvalue : isValue code' (stop + 1) = x.isTestset := by rw [isValue, hx, Option.any_some]
    refine .inr ⟨!b, stop + 1, hmem, s'', Reaches.next .refl hstep, hframe, hvars, Bool.eq_not_of_ne hb, ?_⟩
    rw [Carries, hvalue]
    exact ⟨fun hx => hset hx hb, hbool⟩

theorem tests_compare {w : Nat} {b t : Bool} {pc : Nat} {out : Value α × Vars α σ} {s : State α σ}
    (hout : out = (.bool t, (taken lang w s.vars).2)) (ht : (taken lang w s.vars).1 = (t != b)) :
    Tests lang nact base (.compare w) b pc out s := by
  intro C r hC _
  subst hout
  refine ⟨{ s with vars := (taken lang w s.vars).2 }, fun _ _ => rfl, rfl, (step_compare hC).trans ?_,
    fun h => absurd h Bool.false_ne_true, fun _ => rfl⟩
  rw [ht]
  cases t <;> cases b <;> rfl

theorem tests_test {a : Nat} {b : Bool} {pc : Nat} {out : Value α × Vars α σ} {s : State α σ}
    (hout : out = (.bool !(s.get nact a).truthy, s.vars)) : Tests lang nact base (.test a b) b pc out s := by
  intro C r hC _
  subst hout
  refine ⟨s, fun _ _ => rfl, rfl, (step_test hC).trans ?_, fun h => absurd h Bool.false_ne_true, fun _ => rfl⟩
  cases h : (s.get nact a).truthy <;> cases b <;> simp [Value.truthy]

theorem tests_testset (hbase : nact ≤ base) {a : Nat} {b : Bool} {pc : Nat} {out : Value α × Vars α σ} {s : State α σ}
    (hout : out = (s.get nact a, s.vars)) : Tests lang nact base (.testset noReg a !b) b pc out s := by
  intro C r hC hr
  subst hout
  rw [Instr.control] at hC
  split_ifs at hC with hreg
  · have hbr : base ≤ r := hr.resolve_left hreg.1
    by_cases hb : (s.get nact a).truthy = b
    · refine ⟨s, fun _ _ => rfl, rfl, (step_testset hC).trans ?_, fun _ h => absurd hb h,
        fun h => absurd h.symm Bool.false_ne_true⟩
      rw [if_neg (by rw [hb]; cases b <;> simp), if_pos hb]
    · refine ⟨s.set nact r (s.get nact a), Frame.set (fun _ _ => rfl) hbr _, vars_set (hbase.trans hbr) _,
        (step_testset hC).trans ?_, fun _ _ _ => get_set_self s r _,
        fun h => absurd h.symm Bool.false_ne_true⟩
      rw [if_pos (Bool.eq_not_of_ne hb), if_neg hb]
  · refine ⟨s, fun _ _ => rfl, rfl, (step_test hC).trans ?_, fun _ _ h => ?_,
      fun h => absurd h.symm Bool.false_ne_true⟩
    · cases h : (s.get nact a).truthy <;> cases b <;> simp
    · obtain rfl : r = a := by
        by_contra hne
        exact hreg ⟨h, hne⟩
      rfl

end

end Tsuki.Logic
