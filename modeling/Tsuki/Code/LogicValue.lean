import Tsuki.Code.LogicExact

/-!
# The value of an expression

`exp2reg` makes the jumps of an expression lead behind it. A jump that gives no value leads to an instruction that
loads a boolean. The induction is on the expression. What it carries is a simulation: from any state, a run of the
code so far ends behind it with the value in a register, or at one of the jumps of the two lists, which stand for the
values that they are tested for. `exp2reg` then patches both lists to places behind the code, where `Ends` says what
is loaded.
-/

namespace Tsuki.Logic

open Jumps Lib.Threads

section

variable {α σ : Type} {lang : Lang α σ} {nact base start : Nat} {m : Vars α σ → Value α × Vars α σ}
  {fall : Value α × Vars α σ → State α σ → Prop} {code ext C : Code} {J : Bool → List Nat} {reg n : Nat}
  {s : State α σ} {pc a : Nat}

theorem step_lfalseskip (h : C[pc]? = some (.lfalseskip a)) :
    step lang nact C (pc, s) = some (pc + 2, s.set nact a (.bool false)) := by
  simp only [step, h]

theorem step_loadtrue (h : C[pc]? = some (.loadtrue a)) :
    step lang nact C (pc, s) = some (pc + 1, s.set nact a (.bool true)) := by
  simp only [step, h]

/-- Both lists are patched, with instructions `ext` behind the code: jumps that give a value lead to `n`, the others of
the list `b` to `d b`. -/
structure Ends (code ext C : Code) (J : Bool → List Nat) (start reg n : Nat) (d : Bool → Int) : Prop where
  done : Done code C (J true ++ J false) (fun _ => reg) start code.length
  jump : ∀ b, ∀ j ∈ J b, C[j]? = some (.jmp ((if isValue code j then (n : Int) else d b) - (j + 1)))
  behind : ∀ i < ext.length, C[code.length + i]? = ext[i]?

theorem ends_patched {d : Bool → Int} (hjmp : ∀ b, ∀ j ∈ J b, ∃ x, code[j]? = some (.jmp x))
    (hdisj : ∀ j ∈ J true, j ∉ J false) (hin : ∀ b, ∀ j ∈ J b, start ≤ j) (hstart : start ≤ code.length)
    (hC : ∀ i, start ≤ i → i < (code ++ ext).length →
      C[i]? = (patched (patched (code ++ ext) (J false) n reg (d false)) (J true) n reg (d true))[i]?) :
    Ends code ext C J start reg n d := by
  have hlen (b : Bool) (j : Nat) (hj : j ∈ J b) : j < code.length := by
    obtain ⟨x, hx⟩ := hjmp b j hj
    exact (List.getElem?_eq_some_iff.mp hx).1
  have hvalue (b : Bool) (j : Nat) (hj : j ∈ J b) : isValue (code ++ ext) j = isValue code j :=
    isValue_congr fun i hi => List.getElem?_append_left (hi.trans (hlen b j hj))
  rw [List.length_append] at hC
  refine ⟨fun i hlo hlt hi => ?_, fun b j hj => ?_, fun i hi => ?_⟩
  · obtain ⟨hit, hif⟩ := not_or.mp fun h => hi (List.mem_append.mpr h)
    rw [hC i hlo (by omega), getElem?_patched, getElem?_patched, List.getElem?_append_left hlt, Option.map_map]
    refine congrArg (fun g => Option.map g code[i]?) (funext fun x => ?_)
    simp only [Function.comp_apply, if_neg hit, if_neg hif, List.mem_append]
    by_cases hnext : i + 1 ∈ J true
    · rw [if_pos hnext, if_neg (hdisj _ hnext), if_pos (.inl hnext)]
    · simp [hnext]
  · obtain ⟨x, hx⟩ := hjmp b j hj
    have hlt := hlen b j hj
    rw [hC j (hin b j hj) (by omega), getElem?_patched, getElem?_patched, List.getElem?_append_left hlt, hx,
      Option.map_some, Option.map_some]
    cases b with
    | true =>
      rw [if_pos hj, target, isValue_patched (fun i hi => ?_) (hdisj j hj), hvalue true j hj]
      obtain ⟨y, hy⟩ := hjmp false i hi
      exact ⟨y, getElem?_append_of_some hy⟩
    | false =>
      rw [if_neg fun h => hdisj j h hj, if_pos hj, control_jmp, ite_self, target, hvalue false j hj]
  · have hnot (b : Bool) (j : Nat) (hj : code.length ≤ j) : j ∉ J b := fun h => absurd (hlen b _ h) (by omega)
    rw [hC _ (by omega) (by omega), getElem?_patched, getElem?_patched,
      List.getElem?_append_right (Nat.le_add_right _ _), Nat.add_sub_cancel_left]
    simp only [if_neg (hnot _ (code.length + i) (by omega)), if_neg (hnot _ (code.length + i + 1) (by omega)),
      Option.map_id']

/-- The end of the run of an expression. -/
def Final (lang : Lang α σ) (nact base : Nat) (C : Code) (reg : Nat) (out : Value α × Vars α σ) (s : State α σ)
    (pc pc' : Nat) : Prop :=
  ∃ s', Reaches lang nact C (pc, s) (pc', s') ∧ Frame base s s' ∧ out = (s'.get nact reg, s'.vars)

/-- A boolean is loaded behind the code. -/
theorem Ends.load {d : Bool → Int} {vjmp b : Bool} (h : Ends code (loads vjmp reg) C J start reg n d)
    (hbase : nact ≤ base) (hreg : base ≤ reg) {out : Value α × Vars α σ} (hvars : s.vars = out.2)
    (hout : out.1 = .bool b) :
    Final lang nact base C reg out s (code.length + (if vjmp then 0 else 1) + if b then 1 else 0)
      (code ++ loads vjmp reg).length := by
  have hset : out = ((s.set nact reg (.bool b)).get nact reg, (s.set nact reg (.bool b)).vars) := by
    rw [get_set_self, vars_set (hbase.trans hreg), hvars, ← hout]
  refine ⟨s.set nact reg (.bool b), Reaches.next .refl ?_, Frame.set (fun _ _ => rfl) hreg _, hset⟩
  rw [List.length_append]
  cases vjmp <;> cases b
  · exact step_lfalseskip (h.behind 1 (show 1 < 3 by decide))
  · exact step_loadtrue (h.behind 2 (show 2 < 3 by decide))
  · exact step_lfalseskip (h.behind 0 (show 0 < 2 by decide))
  · exact step_loadtrue (h.behind 1 (show 1 < 2 by decide))

theorem Final.after {out : Value α × Vars α σ} {s' : State α σ} {pc pc' pc'' : Nat}
    (h : Final lang nact base C reg out s' pc' pc'') (hreach : Reaches lang nact C (pc, s) (pc', s'))
    (hframe : Frame base s s') : Final lang nact base C reg out s pc pc'' := by
  obtain ⟨s'', hreach', hframe', hout⟩ := h
  exact ⟨s'', hreach.trans hreach', hframe.trans hframe', hout⟩

section

variable {d : Bool → Int} {b : Bool} {j : Nat} {s' : State α σ} {out : Value α × Vars α σ}

/-- A jump of the lists is taken. -/
theorem Ends.exit (h : Ends code ext C J start reg n d) (hj : j ∈ J b)
    (hexit : Exits lang nact C code (fun _ => reg) base pc j s s' b out) :
    Reaches lang nact C (pc, s) ((if isValue code j then (n : Int) else d b).toNat, s') := by
  have hstep : step lang nact C (j, s') = _ := step_jmp (h.jump b j hj)
  rw [show (j : Int) + 1 + ((if isValue code j then (n : Int) else d b) - (j + 1)) =
    if isValue code j then (n : Int) else d b by omega] at hstep
  exact hexit.reaches.next hstep

theorem Ends.value (h : Ends code ext C J start reg n d) (hj : j ∈ J b)
    (hexit : Exits lang nact C code (fun _ => reg) base pc j s s' b out) (hvalue : isValue code j = true)
    (hne : reg ≠ noReg) : Final lang nact base C reg out s pc n := by
  have hreach := h.exit hj hexit
  rw [if_pos hvalue, Int.toNat_natCast] at hreach
  exact ⟨s', hreach, hexit.frame, Prod.ext (hexit.value.1 hvalue hne).symm hexit.vars.symm⟩

end

/-- `exp2reg`: where the code ends, the value is in the register. -/
theorem Sim.exp2reg (h : Sim lang nact start base code J code.length m fall) (hbase : nact ≤ base) (hreg : base ≤ reg)
    (hne : reg ≠ noReg) (hjmp : ∀ b, ∀ j ∈ J b, ∃ x, code[j]? = some (.jmp x)) (hdisj : ∀ j ∈ J true, j ∉ J false)
    (hin : ∀ b, ∀ j ∈ J b, start ≤ j) (hstart : start ≤ code.length) {vjmp : Bool}
    (hvjmp : vjmp = true → ∃ j ∈ J true, isValue code j = false)
    (hfall : ∀ x s, fall (m x) s →
      if vjmp then s.vars = (m x).2 ∧ (m x).1 = .bool false else m x = (s.get nact reg, s.vars))
    (hC : ∀ i, start ≤ i → i < (exp2regCode code (J true) (J false) vjmp reg).length →
      C[i]? = (exp2regCode code (J true) (J false) vjmp reg)[i]?) (s : State α σ) :
    Final lang nact base C reg (m s.vars) s start (exp2regCode code (J true) (J false) vjmp reg).length := by
  have hregs : Regs base (fun _ => reg) (J true ++ J false) := fun _ _ => .inr hreg
  by_cases hneed : ((J true ++ J false).any fun j => !isValue code j) = true
  · -- a jump leads to the instructions that load a boolean
    rw [exp2regCode, if_pos hneed] at hC ⊢
    simp only [length_patched] at hC ⊢
    have hends := ends_patched (n := (code ++ loads vjmp reg).length)
      (d := fun b => (code.length + (if vjmp then 0 else 1) + if b then 1 else 0 : Nat)) hjmp hdisj hin hstart
      (by simpa using hC)
    rcases h C _ hends.done hregs s with ⟨s', hreach, hframe, hf⟩ | ⟨b, j, hj, s', hexit⟩
    · have hval := hfall _ _ hf
      cases vjmp with
      | true => exact (hends.load hbase hreg hval.1 hval.2).after hreach hframe
      | false =>
        have hstep : step lang nact C (code.length, s') = _ := step_jmp (hends.behind 0 (show 0 < 3 by decide))
        refine ⟨s', hreach.next (hstep.trans ?_), hframe, hval⟩
        rw [List.length_append]
        exact congrArg (fun pc => some (pc, s')) (show (code.length + 1 + 2 : Int).toNat = code.length + 3 by omega)
    · by_cases hvalue : isValue code j = true
      · exact hends.value hj hexit hvalue hne
      · have hout := hexit.value.2 (Bool.eq_false_of_not_eq_true hvalue)
        rw [hexit.truthy] at hout
        have hjump := hends.exit hj hexit
        rw [if_neg hvalue, Int.toNat_natCast] at hjump
        exact (hends.load hbase hreg hexit.vars hout).after hjump hexit.frame
  · -- all jumps give a value
    rw [exp2regCode, if_neg hneed] at hC ⊢
    simp only [length_patched] at hC ⊢
    have hends : Ends code [] C J start reg code.length fun _ => -1 :=
      ends_patched hjmp hdisj hin hstart (by simpa using hC)
    have hall (b : Bool) (j : Nat) (hj : j ∈ J b) : isValue code j = true := by
      by_contra hv
      exact hneed (List.any_eq_true.mpr ⟨j, mem_lists.mpr ⟨b, hj⟩, by simp [hv]⟩)
    obtain rfl : vjmp = false := by
      by_contra hv
      obtain ⟨j, hj, hno⟩ := hvjmp (Bool.eq_true_of_not_eq_false hv)
      exact absurd (hall true j hj) (by simp [hno])
    rcases h C _ hends.done hregs s with ⟨s', hreach, hframe, hf⟩ | ⟨b, j, hj, s', hexit⟩
    · exact ⟨s', hreach, hframe, hfall _ _ hf⟩
    · exact hends.value hj hexit (hall b j hj) hne

end

theorem getElem?_exp2regCode {code : Code} {t f : List Nat} {vjmp : Bool} {reg i : Nat} (hi : i < code.length)
    (h : ∀ j ∈ t ++ f, i + 1 < j) : (exp2regCode code t f vjmp reg)[i]? = code[i]? := by
  have hnot (j : Nat) (hj : j ≤ i + 1) : j ∉ t ∧ j ∉ f := by
    rw [← not_or, ← List.mem_append]
    exact fun hmem => absurd (h j hmem) (by omega)
  have hkeep (ext : Code) (vt d d' : Int) :
      (patched (patched (code ++ ext) f vt reg d) t vt reg d')[i]? = code[i]? := by
    rw [getElem?_patched, getElem?_patched, List.getElem?_append_left hi]
    simp only [if_neg (hnot i (by omega)).1, if_neg (hnot i (by omega)).2, if_neg (hnot _ le_rfl).1,
      if_neg (hnot _ le_rfl).2, Option.map_id']
  unfold exp2regCode
  split
  · exact hkeep ..
  · simpa only [List.append_nil] using hkeep [] code.length (-1) (-1)

theorem le_length_exp2regCode {code : Code} {t f : List Nat} {vjmp : Bool} {reg : Nat} :
    code.length ≤ (exp2regCode code t f vjmp reg).length := by
  unfold exp2regCode
  split
  · rw [length_patched, length_patched, List.length_append]
    exact Nat.le_add_right _ _
  · rw [length_patched, length_patched]

section

variable {α σ : Type} {lang : Lang α σ} {nact v base reg : Nat} {m : Vars α σ → Value α × Vars α σ}
  {fall : Value α × Vars α σ → State α σ → Prop} {code₀ : Code} {L₀ L : Nat → List Nat} {fs : FuncState}

/-- The code behind `code₀` puts the value `m` into a register, whatever code comes later, and no jump is pending that
was not before. -/
structure Evaluates (lang : Lang α σ) (nact : Nat) (code₀ : Code) (L₀ : Nat → List Nat) (base reg : Nat)
    (m : Vars α σ → Value α × Vars α σ) (fs : FuncState) : Prop where
  proper : Proper fs.gen L₀
  keep : ∀ i < code₀.length, fs.code[i]? = code₀[i]?
  le : code₀.length ≤ fs.code.length
  run : ∀ C : Code, (∀ i, code₀.length ≤ i → i < fs.code.length → C[i]? = fs.code[i]?) → ∀ s : State α σ,
    Final lang nact base C reg (m s.vars) s code₀.length fs.code.length

theorem withInfo_true : withInfo L v false true = L v ++ L (v + 2) := rfl

theorem withInfo_false : withInfo L v false false = L (v + 1) := List.append_nil _

theorem Made.exp2reg (hmade : Made code₀ L₀ v fs.gen L) (hfree : ∀ w, v ≤ w → L₀ w = [])
    (hsim : Sim lang nact code₀.length base fs.code (withInfo L v false) fs.code.length m fall) (hbase : nact ≤ base)
    (hreg : base ≤ reg) (hne : reg ≠ noReg)
    (hvjmp : (!(L (v + 2)).isEmpty) = true → ∃ j ∈ withInfo L v false true, isValue fs.code j = false)
    (hfall : ∀ x s, fall (m x) s → if !(L (v + 2)).isEmpty then s.vars = (m x).2 ∧ (m x).1 = .bool false
      else m x = (s.get nact reg, s.vars)) :
    Yields id fs.code.length 3 base (fs.op (.exp2reg v (v + 1) (v + 2) reg)) fun fs' =>
      Evaluates lang nact code₀ L₀ base reg m fs' ∧ fs'.freereg = fs.freereg := by
  have hin (b : Bool) (j : Nat) (hj : j ∈ withInfo L v false b) : ∃ w, v ≤ w ∧ w < v + 3 ∧ j ∈ L w := by
    cases b with
    | true =>
      rw [withInfo_true, List.mem_append] at hj
      exact hj.elim (fun hj => ⟨v, le_rfl, by omega, hj⟩) fun hj => ⟨v + 2, by omega, by omega, hj⟩
    | false =>
      rw [withInfo_false] at hj
      exact ⟨v + 1, by omega, by omega, hj⟩
  have hinside (b : Bool) (j : Nat) (hj : j ∈ withInfo L v false b) : code₀.length < j := by
    obtain ⟨w, hw, -, hj⟩ := hin b j hj
    exact hmade.inside w hw j hj
  have hjmp (b : Bool) (j : Nat) (hj : j ∈ withInfo L v false b) : ∃ x, fs.code[j]? = some (.jmp x) := by
    obtain ⟨w, -, -, hj⟩ := hin b j hj
    exact hmade.jmp hj
  have hdisj (j : Nat) (hj : j ∈ withInfo L v false true) : j ∉ withInfo L v false false := by
    rw [withInfo_false]
    rw [withInfo_true, List.mem_append] at hj
    exact hj.elim (hmade.proper.disjoint (by omega) j) (hmade.proper.disjoint (by omega) j)
  refine (fs.op_spec hmade.proper (.exp2reg v (v + 1) (v + 2) reg) ⟨by omega, by omega, by omega⟩).imp ?_
  rintro fs' ⟨L', hproper, ⟨hcode, rfl⟩, hfree'⟩
  rw [← withInfo_true, ← withInfo_false (L := L) (v := v)] at hcode
  have hlists : Function.update (Function.update (Function.update L v []) (v + 1) []) (v + 2) [] = L₀ := by
    funext w
    rcases Nat.lt_or_ge w v with hw | hw
    · rw [Function.update_of_ne (by omega), Function.update_of_ne (by omega), Function.update_of_ne (by omega),
        hmade.outer w hw]
    · rw [hfree w hw]
      simp only [Function.update_apply]
      split_ifs
      · rfl
      · rfl
      · rfl
      · exact hmade.free w (by omega)
  refine ⟨⟨hlists ▸ hproper, fun i hi => ?_, ?_, fun C hC s => ?_⟩, hfree'⟩
  · rw [hcode, getElem?_exp2regCode (hi.trans_le hmade.le) fun j hj => ?_]
    · exact hmade.keep i hi
    · obtain ⟨b, hj⟩ := mem_lists.mp hj
      exact (Nat.succ_le_of_lt hi).trans_lt (hinside b j hj)
  · rw [hcode]
    exact hmade.le.trans le_length_exp2regCode
  · rw [hcode] at hC ⊢
    exact hsim.exp2reg hbase hreg hne hjmp hdisj (fun b j hj => (hinside b j hj).le) hmade.le hvjmp hfall hC s

end

/-- An expression goes into the next register. The generator gives up where the code of the expression could make the
function too long for a jump, and where there is no next register. -/
theorem expToNextReg_correct {α σ : Type} (lang : Lang α σ) {nact : Nat} (e : Exp nact) (v : Nat) (fs : FuncState)
    {L : Nat → List Nat} (hproper : Proper fs.gen L) (hfree : ∀ w, v ≤ w → L w = []) (hbase : nact ≤ fs.freereg)
    (hlim : fs.freereg < 255) :
    Yields id fs.code.length (e.cost + 4) fs.freereg (expToNextReg nact fs v e) fun fs' =>
      Evaluates lang nact fs.code L fs.freereg fs.freereg (e.eval lang) fs' ∧ fs'.freereg = fs.freereg + 1 := by
  refine (compile_spec lang e v fs hproper hfree hbase hlim).bind (Nat.le_add_right _ _) ?_
  rintro ⟨fs₁, k⟩ ⟨L₁, stop, hspec⟩
  have hgen : (fs₁.freeexp nact k).gen = fs₁.gen := gen_freeexp fs₁ k
  have hreg : (fs₁.freeexp nact k).freereg = fs.freereg := by
    have hkind := hspec.kind
    cases k with
    | nonreloc r => exact freereg_freeexp hkind.2.2 hbase fs₁.gen
    | reloc pc => exact hkind.2.2.2.1
    | jmp => exact hkind.2.2.1
    | _ => exact hkind.2.2
  have hle : (fs₁.freeexp nact k).code.length + 4 ≤ fs₁.code.length + (e.cost + 4 - e.cost) := by
    rw [FuncState.code, hgen, Nat.add_sub_cancel_left]
  refine Yields.mono ?_ hle fun _ hspec => hspec
  refine (FuncState.reserve_spec hreg).bind (Nat.zero_le _) ?_
  rintro ⟨gen, n⟩ ⟨hgen', rfl, hroom⟩
  obtain rfl : gen = fs₁.gen := hgen'.trans hgen
  have hne : fs.freereg ≠ noReg := by
    rw [noReg]
    omega
  by_cases hk : k = .jmp
  · subst hk
    obtain ⟨hlen, hinfo, -, w, hw⟩ := hspec.kind
    have hsim := hspec.sim_compare (b := false) (fun _ _ => rfl) hw fun w' x hw' => by
      obtain rfl : w = w' := Instr.compare.inj (Option.some.inj (hw.symm.trans hw'))
      simp
    have hmade : Made fs.code L v (FuncState.mk fs₁.gen (fs.freereg + 1)).gen L₁ := hspec.made
    refine (hmade.exp2reg hfree (hlen ▸ hsim) hbase le_rfl hne (fun _ => ?_) fun x s hy => ?_).mono
      (Nat.add_le_add_left (by decide) _) fun _ hspec => hspec
    · refine ⟨stop + 1, ?_, ?_⟩
      · rw [withInfo_true, hinfo]
        exact List.mem_append_right _ (List.mem_singleton_self _)
      · rw [isValue, hw]
        rfl
    · rw [hinfo]
      exact hy
  · refine (hspec.discharge2reg hk hbase le_rfl hlim (fs.freereg + 1)).bind (by decide) ?_
    rintro fs₂ ⟨hvalued, hfree₂⟩
    have hsim : Sim lang nact fs.code.length fs.freereg fs₂.code (withInfo L₁ v false) fs₂.code.length (e.eval lang)
        fun out s => out = (s.get nact fs.freereg, s.vars) :=
      hvalued.sim.recode hvalued.made.le (fun _ _ _ => rfl)
        (fun b j => by rw [withInfo, hvalued.info, ite_self, List.append_nil]) (fun _ _ _ => rfl) fun _ _ hy => hy
    refine (hvalued.made.exp2reg hfree hsim hbase le_rfl hne (fun hno => ?_) fun x s hy => ?_).imp fun fs' h =>
      ⟨h.1, h.2.trans hfree₂⟩
    · rw [hvalued.info] at hno
      cases hno
    · rw [hvalued.info]
      exact hy

/-- Operands and comparisons without effects. -/
def Lang.plain : Lang Nat Unit := ⟨fun _ bx => bx, fun w x => (.other w, x), fun w x => (decide (w = 0), x)⟩

/-- `a and not b` of two local variables. -/
theorem expToNextReg_correct_and :
    (expToNextReg 2 ⟨.start, 2⟩ 0 (.andor true (.local_ 0) (.not_ (.local_ 1)))).map FuncState.code =
        .ok [.testset 2 0 false, .jmp 1, .other (word 51 2 1)] ∧
      Yields id 0 9 2 (expToNextReg 2 ⟨.start, 2⟩ 0 (.andor true (.local_ 0) (.not_ (.local_ 1)))) fun fs' =>
        Evaluates .plain 2 [] (fun _ => []) 2 2
            (Exp.eval .plain (.andor true (.local_ (0 : Fin 2)) (.not_ (.local_ 1)))) fs' ∧ fs'.freereg = 3 :=
  ⟨rfl, expToNextReg_correct .plain (.andor true (.local_ (0 : Fin 2)) (.not_ (.local_ 1))) 0 ⟨.start, 2⟩ .start
    (fun _ _ => rfl) le_rfl (by decide)⟩

end Tsuki.Logic
