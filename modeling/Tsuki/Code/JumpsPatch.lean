import Tsuki.Code.Jumps
import Mathlib.Data.List.Basic

/-!
# What patching a list does

Each loop over a list of jumps is stated as what the code is afterwards, for a list that is spelled out.
-/

namespace Tsuki.Jumps

open Lib.Threads

/-- The link in an instruction. -/
def link (code : Code) (pc : Nat) : Option (Option Nat) := (getjump code pc).toOption

/-- `OP_TESTSET` -/
def Instr.isTestset : Instr → Bool
  | .testset .. => true
  | _ => false

/-- The jump gives the value of the test before it. -/
def isValue (code : Code) : Nat → Bool
  | 0 => false
  | j + 1 => code[j]?.any Instr.isTestset

/-- `OP_TESTSET` gets its register, or becomes `OP_TEST`. -/
def Instr.control (reg : Nat) : Instr → Instr
  | .testset _ b k => if reg ≠ noReg ∧ reg ≠ b then .testset reg b k else .test b k
  | i => i

/-- The tests before the jumps of a list are done, the jumps left alone. -/
def controlled (code : Code) (l : List Nat) (reg : Nat) : Code :=
  code.mapIdx fun i x => if i + 1 ∈ l then x.control reg else x

/-- Where a jump is patched to. -/
def target (code : Code) (vtarget dtarget : Int) (j : Nat) : Int := if isValue code j then vtarget else dtarget

/-- The jumps of a list lead to their targets, and the tests before them are done. -/
def patched (code : Code) (l : List Nat) (vtarget : Int) (reg : Nat) (dtarget : Int) : Code :=
  code.mapIdx fun i x =>
    if i ∈ l then .jmp (target code vtarget dtarget i - (i + 1)) else if i + 1 ∈ l then x.control reg else x

section

variable {code code' : Code} {pc j reg : Nat} {l m : List Nat} {o : Option Nat} {vtarget dtarget : Int}

theorem isJmp_iff {x : Instr} : x.isJmp = true ↔ ∃ s, x = .jmp s := by
  cases x <;> simp [Instr.isJmp]

theorem isTestset_iff {x : Instr} : x.isTestset = true ↔ ∃ a b k, x = .testset a b k := by
  cases x <;> simp [Instr.isTestset]

@[simp] theorem control_jmp (s : Int) : (Instr.jmp s).control reg = .jmp s := rfl

@[simp] theorem isJmp_control (x : Instr) : (x.control reg).isJmp = x.isJmp := by
  cases x with
  | testset a b k =>
    rw [Instr.control]
    split_ifs <;> rfl
  | _ => rfl

theorem getElem?_controlled (code : Code) (l : List Nat) (reg i : Nat) :
    (controlled code l reg)[i]? = code[i]?.map fun x => if i + 1 ∈ l then x.control reg else x := by
  rw [controlled, List.getElem?_mapIdx]

theorem getElem?_patched (code : Code) (l : List Nat) (vtarget : Int) (reg : Nat) (dtarget : Int) (i : Nat) :
    (patched code l vtarget reg dtarget)[i]? = code[i]?.map fun x =>
      if i ∈ l then .jmp (target code vtarget dtarget i - (i + 1)) else if i + 1 ∈ l then x.control reg else x := by
  rw [patched, List.getElem?_mapIdx]

@[simp] theorem length_controlled : (controlled code l reg).length = code.length := List.length_mapIdx

@[simp] theorem length_patched : (patched code l vtarget reg dtarget).length = code.length := List.length_mapIdx

theorem controlled_nil : controlled code [] reg = code :=
  List.ext_getElem? fun i => by simp [getElem?_controlled]

theorem patched_nil : patched code [] vtarget reg dtarget = code :=
  List.ext_getElem? fun i => by simp [getElem?_patched]

theorem link_congr (h : code'[pc]? = code[pc]?) : link code' pc = link code pc := by
  rw [link, link, getjump, getjump, h]

theorem jmp_of_link {o' : Option Nat} (h : link code pc = some o') : ∃ s, code[pc]? = some (.jmp s) := by
  unfold link getjump at h
  split at h
  · exact ⟨_, ‹_›⟩
  · cases h

theorem getjump_of_link {o' : Option Nat} (h : link code pc = some o') : getjump code pc = .ok o' := by
  unfold link at h
  cases hg : getjump code pc with
  | error e =>
    rw [hg] at h
    cases h
  | ok o =>
    rw [hg] at h
    exact congrArg Except.ok (Option.some.inj h)

theorem jmp_of_mem (h : Thread (link code) o l) (hj : j ∈ l) : ∃ s, code[j]? = some (.jmp s) :=
  (h.link hj).elim fun _ => jmp_of_link

theorem lt_of_mem (h : Thread (link code) o l) (hj : j ∈ l) : j < code.length := by
  obtain ⟨s, hs⟩ := jmp_of_mem h hj
  exact (List.getElem?_eq_some_iff.mp hs).1

theorem length_le (h : Thread (link code) o l) (hl : l.Nodup) : l.length ≤ code.length :=
  length_le_of_nodup hl fun _ hj => lt_of_mem h hj

theorem patched_jmp {s : Int} (h : code[pc]? = some (.jmp s)) (hpc : pc ∉ l) :
    (patched code l vtarget reg dtarget)[pc]? = some (.jmp s) := by
  rw [getElem?_patched, h, Option.map_some, if_neg hpc, control_jmp, ite_self]

theorem controlled_jmp {s : Int} (h : code[pc]? = some (.jmp s)) : (controlled code l reg)[pc]? = some (.jmp s) := by
  rw [getElem?_controlled, h, Option.map_some, control_jmp, ite_self]

theorem thread_patched (h : Thread (link code) o m) (hdisj : ∀ x ∈ m, x ∉ l) :
    Thread (link (patched code l vtarget reg dtarget)) o m := by
  refine h.congr fun x hx => link_congr ?_
  obtain ⟨s, hs⟩ := jmp_of_mem h hx
  rw [patched_jmp hs (hdisj x hx), hs]

theorem thread_controlled (h : Thread (link code) o m) : Thread (link (controlled code l reg)) o m := by
  refine h.congr fun x hx => link_congr ?_
  obtain ⟨s, hs⟩ := jmp_of_mem h hx
  rw [controlled_jmp hs, hs]

/-! ### One jump -/

theorem controlled_zero : controlled code [0] reg = code :=
  List.ext_getElem? fun i => by simp [getElem?_controlled]

theorem controlled_succ {x : Instr} (hx : code[j]? = some x) :
    controlled code [j + 1] reg = code.set j (x.control reg) := by
  refine List.ext_getElem? fun i => ?_
  rw [getElem?_controlled, List.getElem?_set]
  by_cases hi : j = i
  · subst hi
    rw [if_pos rfl, if_pos (List.getElem?_eq_some_iff.mp hx).1, hx, Option.map_some, if_pos (by simp)]
  · have hne : ¬i + 1 ∈ [j + 1] := by
      simp only [List.mem_singleton]
      omega
    rw [if_neg hi]
    simp only [if_neg hne, Option.map_id']

theorem patchtestreg_of_ne (h : ∀ a b k, code[getjumpcontrol code j]? ≠ some (.testset a b k)) (reg : Nat) :
    patchtestreg code j reg = (code, false) := by
  unfold patchtestreg
  dsimp only
  split
  · exact absurd ‹_› (h _ _ _)
  · rfl

/-- The test of a jump is the instruction before it. -/
theorem getjumpcontrol_of_testset {a b : Nat} {k : Bool} (h : code[j]? = some (.testset a b k)) :
    getjumpcontrol code (j + 1) = j := by
  rw [getjumpcontrol, if_pos ⟨by omega, by simp [h, Instr.testTMode]⟩, Nat.add_sub_cancel]

theorem getjumpcontrol_cases (code : Code) (j : Nat) :
    getjumpcontrol code (j + 1) = j ∨ getjumpcontrol code (j + 1) = j + 1 := by
  unfold getjumpcontrol
  split_ifs
  · exact .inl rfl
  · exact .inr rfl

/-- `isValue` is the test of the source: the control of the jump is an `OP_TESTSET`. -/
theorem isValue_iff {s : Int} (hj : code[j]? = some (.jmp s)) :
    isValue code j = true ↔ ∃ a b k, code[getjumpcontrol code j]? = some (.testset a b k) := by
  cases j with
  | zero =>
    rw [show getjumpcontrol code 0 = 0 from if_neg (by simp), hj]
    simp [isValue]
  | succ j =>
    rw [isValue, Option.any_eq_true]
    constructor
    · rintro ⟨x, hx, ht⟩
      obtain ⟨a, b, k, rfl⟩ := isTestset_iff.mp ht
      exact ⟨a, b, k, by rwa [getjumpcontrol_of_testset hx]⟩
    · rintro ⟨a, b, k, h⟩
      rcases getjumpcontrol_cases code j with hc | hc
      · rw [hc] at h
        exact ⟨_, h, rfl⟩
      · rw [hc, hj] at h
        cases h

theorem patchtestreg_eq {s : Int} (hj : code[j]? = some (.jmp s)) (reg : Nat) :
    patchtestreg code j reg = (controlled code [j] reg, isValue code j) := by
  by_cases hv : isValue code j = true
  · obtain ⟨a, b, k, h⟩ := (isValue_iff hj).mp hv
    rw [hv, patchtestreg]
    simp only [h]
    cases j with
    | zero => cases hv
    | succ j =>
      rcases getjumpcontrol_cases code j with hc | hc
      · rw [hc] at h ⊢
        rw [controlled_succ h]
        rfl
      · rw [hc, hj] at h
        cases h
  · have hne : ∀ a b k, code[getjumpcontrol code j]? ≠ some (.testset a b k) :=
      fun a b k h => hv ((isValue_iff hj).mpr ⟨a, b, k, h⟩)
    rw [patchtestreg_of_ne hne, (Bool.not_eq_true _).mp hv]
    cases j with
    | zero => rw [controlled_zero]
    | succ j =>
      have hlt : j < code.length := by
        have := (List.getElem?_eq_some_iff.mp hj).1
        omega
      have hx := List.getElem?_eq_getElem hlt
      have hsame : code[j].control reg = code[j] := by
        cases hi : code[j] with
        | testset a b k =>
          rw [hi] at hx
          exact absurd (by rw [getjumpcontrol_of_testset hx, hx]) (hne a b k)
        | _ => rfl
      rw [controlled_succ hx, hsame, List.set_getElem_self]

theorem fixjump_eq {s : Int} (hj : code[j]? = some (.jmp s)) (dest : Int) :
    fixjump code j dest = if Fits j dest then .ok (code.set j (.jmp (dest - (j + 1)))) else .error tooLong := by
  rw [fixjump, hj]

theorem patched_singleton {s : Int} (hj : code[j]? = some (.jmp s)) :
    (controlled code [j] reg).set j (.jmp (target code vtarget dtarget j - (j + 1))) =
      patched code [j] vtarget reg dtarget := by
  refine List.ext_getElem? fun i => ?_
  rw [getElem?_patched, List.getElem?_set]
  by_cases hi : j = i
  · subst hi
    rw [if_pos rfl, if_pos (by simpa using (List.getElem?_eq_some_iff.mp hj).1), hj, Option.map_some, if_pos (by simp)]
  · rw [if_neg hi, getElem?_controlled]
    simp only [List.mem_singleton, Ne.symm hi, if_false]

/-! ### All jumps of a list -/

theorem isValue_patched (hl : ∀ j ∈ l, ∃ s, code[j]? = some (.jmp s)) (hpc : pc ∉ l) :
    isValue (patched code l vtarget reg dtarget) pc = isValue code pc := by
  cases pc with
  | zero => rfl
  | succ p =>
    rw [isValue, isValue, getElem?_patched]
    by_cases hp : p ∈ l
    · obtain ⟨s, hs⟩ := hl p hp
      rw [hs, Option.map_some, if_pos hp]
      rfl
    · simp only [hp, if_false, hpc, Option.map_id']

theorem patched_cons {s : Int} (hj : code[j]? = some (.jmp s)) (hl : j ∉ l) :
    patched (patched code [j] vtarget reg dtarget) l vtarget reg dtarget =
      patched code (j :: l) vtarget reg dtarget := by
  refine List.ext_getElem? fun i => ?_
  rw [getElem?_patched, getElem?_patched, getElem?_patched, Option.map_map]
  by_cases hi : i = j
  · subst hi
    rw [hj]
    simp [hl]
  have htarget : target (patched code [j] vtarget reg dtarget) vtarget dtarget i = target code vtarget dtarget i := by
    rw [target, target, isValue_patched (by simpa using ⟨s, hj⟩) (by simpa using hi)]
  refine congrArg (fun f => Option.map f code[i]?) (funext fun x => ?_)
  simp only [Function.comp_apply, htarget, List.mem_cons, List.not_mem_nil, or_false, hi, false_or, if_false]
  by_cases hmem : i ∈ l
  · rw [if_pos hmem, if_pos hmem]
  rw [if_neg hmem, if_neg hmem]
  by_cases hnext : i + 1 = j
  · have hnot : i + 1 ∉ l := fun h => hl (hnext ▸ h)
    rw [if_neg hnot, if_pos hnext, if_pos (Or.inl hnext)]
  · rw [if_neg hnext]
    simp only [hnext, false_or]

/-- Patching a list fails where a target is out of reach, and else does what it should. -/
theorem patchlistaux_eq (vtarget : Int) (reg : Nat) (dtarget : Int) {n : Nat} (h : Thread (link code) o l)
    (hl : l.Nodup) (hn : l.length ≤ n) :
    patchlistaux vtarget reg dtarget n code o =
      if ∀ j ∈ l, Fits j (target code vtarget dtarget j) then .ok (patched code l vtarget reg dtarget)
      else .error tooLong := by
  induction l generalizing o n code with
  | nil =>
    cases h
    rw [if_pos (by simp), patched_nil]
    cases n <;> rfl
  | cons j l ih =>
    obtain ⟨rfl, o', hj, hrest⟩ := h
    obtain ⟨n, rfl⟩ : ∃ k, n = k + 1 := ⟨n - 1, by rw [List.length_cons] at hn; omega⟩
    obtain ⟨hjl, hl⟩ := List.nodup_cons.mp hl
    obtain ⟨s, hs⟩ := jmp_of_link hj
    rw [patchlistaux, getjump_of_link hj, Rust.ok_bind]
    dsimp only
    rw [patchtestreg_eq hs]
    dsimp only
    rw [show (if isValue code j then vtarget else dtarget) = target code vtarget dtarget j from rfl,
      fixjump_eq (controlled_jmp hs)]
    by_cases hfit : Fits j (target code vtarget dtarget j)
    · have hrest' : Thread (link (patched code [j] vtarget reg dtarget)) o' l :=
        thread_patched hrest fun x hx => by simpa using fun h : x = j => hjl (h ▸ hx)
      rw [if_pos hfit, Rust.ok_bind, patched_singleton hs, ih hrest' hl (by rw [List.length_cons] at hn; omega),
        patched_cons hs hjl]
      refine if_congr ?_ rfl rfl
      rw [List.forall_mem_cons, and_iff_right hfit]
      refine forall₂_congr fun x hx => ?_
      rw [target, target, isValue_patched (by simpa using ⟨s, hs⟩) (by simpa using fun h : x = j => hjl (h ▸ hx))]
    · rw [if_neg hfit, if_neg (fun h => hfit (h j List.mem_cons_self))]
      rfl

theorem controlled_cons (hl : j ∉ l) :
    controlled (controlled code [j] reg) l reg = controlled code (j :: l) reg := by
  refine List.ext_getElem? fun i => ?_
  rw [getElem?_controlled, getElem?_controlled, getElem?_controlled, Option.map_map]
  refine congrArg (fun f => Option.map f code[i]?) (funext fun x => ?_)
  simp only [Function.comp_apply, List.mem_cons, List.not_mem_nil, or_false]
  by_cases hi : i + 1 = j
  · have hnot : i + 1 ∉ l := fun h => hl (hi ▸ h)
    rw [if_neg hnot, if_pos hi, if_pos (Or.inl hi)]
  · rw [if_neg hi]
    simp only [hi, false_or]

theorem removevalues_eq {n : Nat} (h : Thread (link code) o l) (hl : l.Nodup) (hn : l.length ≤ n) :
    removevalues n code o = .ok (controlled code l noReg) := by
  induction l generalizing o n code with
  | nil =>
    cases h
    rw [controlled_nil]
    cases n <;> rfl
  | cons j l ih =>
    obtain ⟨rfl, o', hj, hrest⟩ := h
    obtain ⟨n, rfl⟩ : ∃ k, n = k + 1 := ⟨n - 1, by rw [List.length_cons] at hn; omega⟩
    obtain ⟨hjl, hl⟩ := List.nodup_cons.mp hl
    obtain ⟨s, hs⟩ := jmp_of_link hj
    have hlink : link (controlled code [j] noReg) j = some o' := by
      rw [link_congr ((controlled_jmp hs).trans hs.symm), hj]
    rw [removevalues, patchtestreg_eq hs]
    dsimp only
    rw [getjump_of_link hlink, Rust.ok_bind, ih (thread_controlled hrest) hl (by rw [List.length_cons] at hn; omega),
      controlled_cons hjl]

/-- A value is needed where some jump of the list does not give one. -/
theorem need_value_eq {n : Nat} (h : Thread (link code) o l) (hn : l.length ≤ n) :
    need_value code n o = .ok (l.any fun j => !isValue code j) := by
  induction l generalizing o n with
  | nil =>
    cases h
    cases n <;> rfl
  | cons j l ih =>
    obtain ⟨rfl, o', hj, hrest⟩ := h
    obtain ⟨n, rfl⟩ : ∃ k, n = k + 1 := ⟨n - 1, by rw [List.length_cons] at hn; omega⟩
    obtain ⟨s, hs⟩ := jmp_of_link hj
    rw [List.any_cons, need_value]
    by_cases hv : isValue code j = true
    · obtain ⟨a, b, k, hc⟩ := (isValue_iff hs).mp hv
      simp only [hc]
      rw [getjump_of_link hj, Rust.ok_bind, ih hrest (by rw [List.length_cons] at hn; omega), hv]
      rfl
    · split
      · exact absurd ((isValue_iff hs).mpr ⟨_, _, _, ‹_›⟩) hv
      · rw [(Bool.not_eq_true _).mp hv]
        rfl

end

end Tsuki.Jumps
