import Tsuki.Code.JumpsPatch

/-!
# The jump lists of a function being compiled

The generator keeps its lists in variables: the lists of an expression, the pending `goto`s, the exits of an `if`.
Whatever it does with them, each stays a list of jumps of its own.
-/

namespace Tsuki.Jumps

open Lib.Threads

/-- The generator: the code so far, and the variables that hold lists. -/
structure Gen where
  code : Code
  vars : Nat → Option Nat

/-- `open_func` -/
def Gen.start : Gen := ⟨[], fun _ => none⟩

/-- What the generator does to code and lists. -/
inductive Op
  /-- `luaK_code` of an instruction that is neither a jump nor a test. -/
  | emit (i : Instr)
  /-- The operands or the opcode of an instruction that is no jump. -/
  | change (pc : Nat) (i : Instr)
  /-- `removelastinstruction` -/
  | removelast
  /-- `luaK_jump` into a variable. -/
  | jump (v : Nat)
  /-- `condjump` into a variable. -/
  | condjump (i : Instr) (v : Nat)
  /-- `luaK_concat(v, w)`, after which `w` is not used any more. -/
  | concat (v w : Nat)
  /-- `codenot` swaps the lists of an expression. -/
  | swap (v w : Nat)
  | removevalues (v : Nat)
  | patchlist (v target : Nat)
  | patchtohere (v : Nat)
  /-- `exp2reg` with the lists `t` and `f`; `info` holds the jump of a `VJMP`. -/
  | exp2reg (t f info reg : Nat)

/-- What the generator takes care of: tests come with their jumps, an instruction is removed only where no jump leads
behind it, targets lie in the code, and no variable is used twice at once. -/
def Op.Ok (code : Code) : Op → Prop
  | .emit i => i.isJmp = false ∧ i.testTMode = false
  | .change pc i => ∃ x, code[pc]? = some x ∧ x.isJmp = false ∧ i.isJmp = false ∧ i.testTMode = x.testTMode
  | .removelast => ∃ code' x, code = code' ++ [x] ∧ x.isJmp = false ∧
      ∀ (pc : Nat) (s : Int), code[pc]? = some (.jmp s) → (pc : Int) + 1 + s ≤ code'.length
  | .condjump i _ => i.testTMode = true
  | .concat v w => v ≠ w
  | .patchlist _ target => target ≤ code.length
  | .exp2reg t f info _ => t ≠ f ∧ t ≠ info ∧ f ≠ info
  | _ => True

/-- The generator does one thing; it may give up. -/
def Gen.step (s : Gen) : Op → Rust Gen
  | .emit i => .ok { s with code := s.code ++ [i] }
  | .change pc i => .ok { s with code := s.code.set pc i }
  | .removelast => .ok { s with code := s.code.dropLast }
  | .jump v => .ok ⟨(luaK_jump s.code).1, Function.update s.vars v (some (luaK_jump s.code).2)⟩
  | .condjump i v =>
    .ok ⟨(luaK_jump (s.code ++ [i])).1, Function.update s.vars v (some (luaK_jump (s.code ++ [i])).2)⟩
  | .concat v w => do
    let (code, l) ← luaK_concat s.code (s.vars v) (s.vars w)
    .ok ⟨code, Function.update (Function.update s.vars v l) w none⟩
  | .swap v w => .ok { s with vars := s.vars ∘ Equiv.swap v w }
  | .removevalues v => do
    let code ← Jumps.removevalues s.code.length s.code (s.vars v)
    .ok { s with code := code }
  | .patchlist v target => do
    let code ← luaK_patchlist s.code (s.vars v) target
    .ok ⟨code, Function.update s.vars v none⟩
  | .patchtohere v => do
    let code ← luaK_patchtohere s.code (s.vars v)
    .ok ⟨code, Function.update s.vars v none⟩
  | .exp2reg t f info reg => do
    let code ← Jumps.exp2reg s.code (s.vars t) (s.vars f) (s.vars info) reg
    .ok ⟨code, Function.update (Function.update (Function.update s.vars t none) f none) info none⟩

/-- The states the generator comes to. -/
inductive Reachable : Gen → Prop
  | start : Reachable .start
  | step {s s' : Gen} {op : Op} (h : Reachable s) (hok : op.Ok s.code) (hstep : s.step op = .ok s') : Reachable s'

/-- Every jump leads into the code or right behind it. -/
def Lands (code : Code) : Prop := ∀ (pc : Nat) (s : Int), code[pc]? = some (.jmp s) →
  0 ≤ (pc : Int) + 1 + s ∧ (pc : Int) + 1 + s ≤ code.length

/-- Every test is followed by its jump. -/
def Paired (code : Code) : Prop := ∀ (pc : Nat) (i : Instr), code[pc]? = some i → i.testTMode = true →
  ∃ s, code[pc + 1]? = some (.jmp s)

/-- Variable `v` holds the jumps `L v`: they form a list that ends, no jump is in it twice, and none is in two. -/
structure Proper (s : Gen) (L : Nat → List Nat) : Prop where
  thread : ∀ v, Thread (link s.code) (s.vars v) (L v)
  nodup : ∀ v, (L v).Nodup
  disjoint : ∀ {v w}, v ≠ w → ∀ x ∈ L v, x ∉ L w
  lands : Lands s.code
  paired : Paired s.code

/-- The instructions that load a boolean; the jump goes around them. -/
def loads (vjmp : Bool) (reg : Nat) : Code := (if vjmp then [] else [.jmp 2]) ++ [.lfalseskip reg, .loadtrue reg]

/-- The code after `exp2reg`. Where every jump gives a value there are no instructions that load one, and no jump
leads to them. -/
def exp2regCode (code : Code) (t f : List Nat) (vjmp : Bool) (reg : Nat) : Code :=
  if (t ++ f).any fun j => !isValue code j then
    let pf : Int := code.length + if vjmp then 0 else 1
    let code := code ++ loads vjmp reg
    patched (patched code f code.length reg pf) t code.length reg (pf + 1)
  else patched (patched code f code.length reg (-1)) t code.length reg (-1)

/-- What becomes of the code and of the lists `L`. -/
def Op.Effect (code : Code) (L : Nat → List Nat) (op : Op) (code' : Code) (L' : Nat → List Nat) : Prop :=
  match op with
  | .emit i => code' = code ++ [i] ∧ L' = L
  | .change pc i => code' = code.set pc i ∧ L' = L
  | .removelast => code' = code.dropLast ∧ L' = L
  | .jump v => code' = code ++ [.jmp (-1)] ∧ L' = Function.update L v [code.length]
  | .condjump i v => code' = code ++ [i, .jmp (-1)] ∧ L' = Function.update L v [code.length + 1]
  | .concat v w => (∀ pc, pc ∉ (L v).getLast? → code'[pc]? = code[pc]?) ∧ code'.length = code.length ∧
      L' = Function.update (Function.update L v (L v ++ L w)) w []
  | .swap v w => code' = code ∧ L' = L ∘ Equiv.swap v w
  | .removevalues v => code' = controlled code (L v) noReg ∧ L' = L
  | .patchlist v target => code' = patched code (L v) target noReg target ∧ L' = Function.update L v []
  | .patchtohere v => code' = patched code (L v) code.length noReg code.length ∧ L' = Function.update L v []
  | .exp2reg t f info reg => code' = exp2regCode code (L t ++ L info) (L f) (!(L info).isEmpty) reg ∧
      L' = Function.update (Function.update (Function.update L t []) f []) info []

/-! ## The code under the lists -/

section

variable {code code' : Code} {l : List Nat} {reg : Nat} {vtarget dtarget : Int}

theorem getElem?_append_cases {ext : Code} {pc : Nat} {x : Instr} (h : (code ++ ext)[pc]? = some x) :
    code[pc]? = some x ∨ (code.length ≤ pc ∧ ext[pc - code.length]? = some x) := by
  rcases Nat.lt_or_ge pc code.length with hlt | hge
  · exact .inl (by rwa [List.getElem?_append_left hlt] at h)
  · exact .inr ⟨hge, by rwa [List.getElem?_append_right hge] at h⟩

theorem getElem?_append_of_some {ext : Code} {pc : Nat} {x : Instr} (h : code[pc]? = some x) :
    (code ++ ext)[pc]? = some x := by
  rw [List.getElem?_append_left (List.getElem?_eq_some_iff.mp h).1, h]

theorem Lands.append (h : Lands code) {ext : Code}
    (hext : ∀ (i : Nat) (s : Int), ext[i]? = some (.jmp s) →
      0 ≤ (code.length : Int) + i + 1 + s ∧ (i : Int) + 1 + s ≤ ext.length) : Lands (code ++ ext) := by
  intro pc s hs
  rw [List.length_append]
  rcases getElem?_append_cases hs with hs | ⟨hge, hs⟩
  · have := h pc s hs
    omega
  · have := hext _ s hs
    omega

theorem Paired.append (h : Paired code) {ext : Code} (hext : Paired ext) : Paired (code ++ ext) := by
  intro pc i hi ht
  rcases getElem?_append_cases hi with hi | ⟨hge, hi⟩
  · obtain ⟨s, hs⟩ := h pc i hi ht
    exact ⟨s, getElem?_append_of_some hs⟩
  · obtain ⟨s, hs⟩ := hext _ i hi ht
    refine ⟨s, ?_⟩
    rw [List.getElem?_append_right (by omega), ← hs, Nat.sub_add_comm hge]

theorem Lands.append_one (h : Lands code) {i : Instr} (hi : i.isJmp = false) : Lands (code ++ [i]) := by
  refine h.append fun j s hs => ?_
  obtain rfl : i = .jmp s := by
    cases j with
    | zero => exact Option.some.inj hs
    | succ j => cases hs
  cases hi

theorem paired_singleton {i : Instr} (hi : i.testTMode = false) : Paired [i] := by
  intro pc x hx ht
  cases pc with
  | zero =>
    cases hx
    rw [hi] at ht
    cases ht
  | succ pc => cases hx

theorem Lands.append_jump (h : Lands code) : Lands (code ++ [.jmp (-1)]) := by
  refine h.append fun j s hs => ?_
  cases j with
  | zero =>
    cases hs
    simp
  | succ j => cases hs

/-- A code that differs in instructions other than jumps. -/
structure SameJumps (code code' : Code) : Prop where
  length : code.length ≤ code'.length
  iff : ∀ (pc : Nat) (s : Int), code[pc]? = some (.jmp s) ↔ code'[pc]? = some (.jmp s)

theorem SameJumps.lands (h : SameJumps code code') (hlands : Lands code) : Lands code' := by
  intro pc s hs
  have := hlands pc s ((h.iff pc s).mpr hs)
  have := h.length
  omega

theorem testTMode_control (x : Instr) : (x.control reg).testTMode = x.testTMode := by
  cases x with
  | testset a b k =>
    rw [Instr.control]
    split_ifs <;> rfl
  | _ => rfl

theorem control_eq_jmp {x : Instr} {s : Int} : x.control reg = .jmp s ↔ x = .jmp s := by
  constructor
  · intro h
    have hx : (x.control reg).isJmp = true := by
      rw [h]
      rfl
    rw [isJmp_control] at hx
    obtain ⟨s', rfl⟩ := isJmp_iff.mp hx
    exact h
  · rintro rfl
    rfl

theorem sameJumps_controlled : SameJumps code (controlled code l reg) := by
  refine ⟨by simp, fun pc s => ⟨controlled_jmp, fun h => ?_⟩⟩
  rw [getElem?_controlled] at h
  obtain ⟨x, hx, h⟩ := Option.map_eq_some_iff.mp h
  rw [hx]
  split_ifs at h with hmem
  · rw [control_eq_jmp.mp h]
  · rw [h]

theorem Paired.controlled (h : Paired code) : Paired (controlled code l reg) := by
  intro pc i hi ht
  rw [getElem?_controlled] at hi
  obtain ⟨x, hx, rfl⟩ := Option.map_eq_some_iff.mp hi
  have htx : x.testTMode = true := by
    split_ifs at ht
    · rwa [testTMode_control] at ht
    · exact ht
  obtain ⟨s, hs⟩ := h pc x hx htx
  exact ⟨s, controlled_jmp hs⟩

theorem Lands.patched (h : Lands code)
    (hl : ∀ j ∈ l, 0 ≤ target code vtarget dtarget j ∧ target code vtarget dtarget j ≤ code.length) :
    Lands (patched code l vtarget reg dtarget) := by
  intro pc s hs
  rw [length_patched]
  rw [getElem?_patched] at hs
  obtain ⟨x, hx, hs⟩ := Option.map_eq_some_iff.mp hs
  split_ifs at hs with hmem hnext
  · have := hl pc hmem
    cases hs
    omega
  · exact h pc s (by rw [hx, control_eq_jmp.mp hs])
  · exact h pc s (by rw [hx, hs])

theorem Paired.patched (h : Paired code) : Paired (patched code l vtarget reg dtarget) := by
  intro pc i hi ht
  rw [getElem?_patched] at hi
  obtain ⟨x, hx, rfl⟩ := Option.map_eq_some_iff.mp hi
  have htx : x.testTMode = true := by
    split_ifs at ht
    · cases ht
    · rwa [testTMode_control] at ht
    · exact ht
  obtain ⟨s, hs⟩ := h pc x hx htx
  rw [getElem?_patched, hs, Option.map_some]
  split_ifs
  · exact ⟨_, rfl⟩
  · exact ⟨s, rfl⟩
  · exact ⟨s, rfl⟩

end

/-! ## The lists over the code -/

section

variable {s : Gen} {L : Nat → List Nat}

theorem Proper.jmp (h : Proper s L) {v j : Nat} (hj : j ∈ L v) : ∃ t, s.code[j]? = some (.jmp t) :=
  jmp_of_mem (h.thread v) hj

theorem Proper.lt (h : Proper s L) {v j : Nat} (hj : j ∈ L v) : j < s.code.length := lt_of_mem (h.thread v) hj

/-- The code changes where there are no jumps of the lists. -/
theorem Proper.code (h : Proper s L) {code' : Code} (heq : ∀ v, ∀ j ∈ L v, code'[j]? = s.code[j]?)
    (hlands : Lands code') (hpaired : Paired code') : Proper ⟨code', s.vars⟩ L where
  thread v := (h.thread v).congr fun x hx => link_congr (heq v x hx)
  nodup := h.nodup
  disjoint := h.disjoint
  lands := hlands
  paired := hpaired

theorem Proper.append (h : Proper s L) (ext : Code) (hlands : Lands (s.code ++ ext)) (hext : Paired ext) :
    Proper ⟨s.code ++ ext, s.vars⟩ L :=
  h.code (fun _ _ hj => List.getElem?_append_left (h.lt hj)) hlands (h.paired.append hext)

theorem of_mem_update {w f x : Nat} (hx : x ∈ Function.update L f [] w) : w ≠ f ∧ x ∈ L w := by
  by_cases hw : w = f
  · subst hw
    rw [Function.update_self] at hx
    cases hx
  · rw [Function.update_of_ne hw] at hx
    exact ⟨hw, hx⟩

/-- A variable gets another list, of jumps that are in no list. -/
theorem Proper.update (h : Proper s L) {v : Nat} {o : Option Nat} {l : List Nat} (hthread : Thread (link s.code) o l)
    (hnodup : l.Nodup) (hdisj : ∀ w, w ≠ v → ∀ x ∈ l, x ∉ L w) :
    Proper ⟨s.code, Function.update s.vars v o⟩ (Function.update L v l) where
  thread w := by
    by_cases hw : w = v
    · subst hw
      simpa only [Function.update_self] using hthread
    · simpa only [Function.update_of_ne hw] using h.thread w
  nodup w := by
    by_cases hw : w = v
    · subst hw
      rwa [Function.update_self]
    · rw [Function.update_of_ne hw]
      exact h.nodup w
  disjoint := by
    intro w w' hne x hx
    by_cases hw : w = v
    · subst hw
      rw [Function.update_self] at hx
      rw [Function.update_of_ne hne.symm]
      exact hdisj w' hne.symm x hx
    · rw [Function.update_of_ne hw] at hx
      by_cases hw' : w' = v
      · subst hw'
        rw [Function.update_self]
        exact fun hx' => hdisj w hw x hx' hx
      · rw [Function.update_of_ne hw']
        exact h.disjoint hne x hx
  lands := h.lands
  paired := h.paired

theorem Proper.clear (h : Proper s L) (v : Nat) :
    Proper ⟨s.code, Function.update s.vars v none⟩ (Function.update L v []) :=
  h.update (o := none) (l := []) rfl List.nodup_nil fun _ _ _ hx => absurd hx List.not_mem_nil

/-- Jumps that are in no list any more are patched. -/
theorem Proper.patched (h : Proper s L) {l : List Nat} (hl : ∀ v, ∀ x ∈ L v, x ∉ l) {vtarget dtarget : Int} {reg : Nat}
    (htarget : ∀ j ∈ l, 0 ≤ target s.code vtarget dtarget j ∧ target s.code vtarget dtarget j ≤ s.code.length) :
    Proper ⟨patched s.code l vtarget reg dtarget, s.vars⟩ L := by
  refine h.code (fun v j hj => ?_) (h.lands.patched htarget) h.paired.patched
  obtain ⟨t, ht⟩ := h.jmp hj
  rw [patched_jmp ht (hl v j hj), ht]

/-- A jump is coded into a variable. -/
theorem Proper.jump (h : Proper s L) (v : Nat) :
    Proper ⟨s.code ++ [.jmp (-1)], Function.update s.vars v (some s.code.length)⟩
      (Function.update L v [s.code.length]) := by
  have hcode := h.append [.jmp (-1)] h.lands.append_jump (paired_singleton rfl)
  refine hcode.update ⟨rfl, none, ?_, rfl⟩ (List.nodup_singleton _) ?_
  · rw [link, getjump, List.getElem?_append_right (le_refl _), Nat.sub_self]
    rfl
  · intro w _ x hx hxw
    rw [List.mem_singleton.mp hx] at hxw
    exact absurd (h.lt hxw) (Nat.lt_irrefl _)

end

/-! ## `luaK_concat` -/

/-- Nothing is out of reach in a code of less than 2^24 instructions. -/
theorem fits_of_length {code : Code} {j : Nat} {dest : Int} (hlen : code.length ≤ 16777215) (hj : j < code.length)
    (h0 : 0 ≤ dest) (hdest : dest ≤ code.length) : Fits j dest := by
  rw [Fits, offsetSJ, maxargSJ]
  omega

theorem long_of_not_fits {code : Code} {l : List Nat} {dest : Nat → Int} (hl : ∀ j ∈ l, j < code.length)
    (hdest : ∀ j ∈ l, 0 ≤ dest j ∧ dest j ≤ code.length) (h : ¬∀ j ∈ l, Fits j (dest j)) :
    16777215 < code.length := by
  by_contra hlen
  exact h fun j hj => fits_of_length (Nat.le_of_not_lt hlen) (hl j hj) (hdest j hj).1 (hdest j hj).2

/-- Only the last jump of a list leads elsewhere now. -/
structure Relinked (code : Code) (l : List Nat) (code' : Code) : Prop where
  length : code'.length = code.length
  same : ∀ pc, pc ∉ l.getLast? → code'[pc]? = code[pc]?
  jmp : ∀ pc ∈ l, ∃ s, code'[pc]? = some (.jmp s) ∧ 0 ≤ (pc : Int) + 1 + s ∧ (pc : Int) + 1 + s ≤ code.length

section

variable {code code' : Code} {o₁ o₂ : Option Nat} {l₁ l₂ : List Nat}

theorem lastjump_eq {n x z : Nat} {l : List Nat} (h : Thread (link code) (some x) (l ++ [z]))
    (hn : (l ++ [z]).length ≤ n) : lastjump code n x = .ok z := by
  induction l generalizing x n with
  | nil =>
    obtain ⟨n, rfl⟩ : ∃ k, n = k + 1 := ⟨n - 1, by simp at hn; omega⟩
    obtain ⟨hx, o, hz, ho⟩ := h
    cases hx
    cases ho
    rw [lastjump, getjump_of_link hz]
    rfl
  | cons y l ih =>
    rw [List.cons_append, List.length_cons] at hn
    obtain ⟨n, rfl⟩ : ∃ k, n = k + 1 := ⟨n - 1, by omega⟩
    obtain ⟨hx, o, hy, hrest⟩ := h
    cases hx
    obtain ⟨w, rfl⟩ : ∃ w, o = some w := by
      cases o with
      | none => exact absurd hrest.nil_of_none (by simp)
      | some w => exact ⟨w, rfl⟩
    rw [lastjump, getjump_of_link hy, Rust.ok_bind]
    exact ih hrest (by omega)

theorem Relinked.refl (h : Lands code) (hl : ∀ pc ∈ l₁, ∃ s, code[pc]? = some (.jmp s)) : Relinked code l₁ code := by
  refine ⟨rfl, fun _ _ => rfl, fun pc hpc => ?_⟩
  obtain ⟨s, hs⟩ := hl pc hpc
  exact ⟨s, hs, h pc s hs⟩

theorem Relinked.of_notMem (h : Relinked code l₁ code') {pc : Nat} (hpc : pc ∉ l₁) : code'[pc]? = code[pc]? :=
  h.same pc fun hlast => hpc (List.mem_of_getLast? hlast)

/-- The second list is linked behind the first one. -/
theorem luaK_concat_eq (h₁ : Thread (link code) o₁ l₁) (h₂ : Thread (link code) o₂ l₂) (hnodup : l₁.Nodup)
    (hdisj : ∀ x ∈ l₁, x ∉ l₂) (hlands : Lands code) :
    (luaK_concat code o₁ o₂ = .error tooLong ∧ 16777215 < code.length) ∨ ∃ code' o,
      luaK_concat code o₁ o₂ = .ok (code', o) ∧ Thread (link code') o (l₁ ++ l₂) ∧ Relinked code l₁ code' := by
  have hjmp : ∀ pc ∈ l₁, ∃ s, code[pc]? = some (.jmp s) := fun _ => jmp_of_mem h₁
  cases o₂ with
  | none =>
    obtain rfl := h₂.nil_of_none
    refine .inr ⟨code, o₁, rfl, by rwa [List.append_nil], .refl hlands hjmp⟩
  | some y =>
  cases o₁ with
  | none =>
    obtain rfl := h₁.nil_of_none
    exact .inr ⟨code, some y, rfl, h₂, .refl hlands hjmp⟩
  | some x =>
  rcases List.eq_nil_or_concat' l₁ with rfl | ⟨l, z, rfl⟩
  · exact nomatch h₁
  have hy : y ∈ l₂ := by
    cases l₂ with
    | nil => exact nomatch h₂
    | cons w l₂ =>
      cases h₂.1
      exact List.mem_cons_self
  have hz : z ∈ l ++ [z] := by simp
  have hzl : z ∉ l := fun hmem => (List.nodup_append.mp hnodup).2.2 z hmem z (List.mem_singleton_self z) rfl
  have hne : z ≠ y := fun heq => hdisj z hz (heq ▸ hy)
  obtain ⟨s, hs⟩ := hjmp z hz
  have hlt := lt_of_mem h₁ hz
  have hconcat : luaK_concat code (some x) (some y) =
      if Fits z y then .ok (code.set z (.jmp (y - (z + 1))), some x) else .error tooLong := by
    rw [luaK_concat, lastjump_eq h₁ (length_le h₁ hnodup), Rust.ok_bind, fixjump_eq hs]
    split_ifs <;> rfl
  rw [hconcat]
  by_cases hfit : Fits z y
  · rw [if_pos hfit]
    refine .inr ⟨_, _, rfl, ?_, ?_⟩
    · have hoff : ∀ pc, pc ≠ z → link (code.set z (.jmp (y - (z + 1)))) pc = link code pc :=
        fun pc hpc => link_congr (List.getElem?_set_ne hpc.symm)
      have hlink : link (code.set z (.jmp (y - (z + 1)))) z = some (some y) := by
        rw [link, getjump, List.getElem?_set_self hlt]
        dsimp only
        rw [if_neg (by omega), if_pos (by omega)]
        simp [Except.toOption]
      rw [List.append_assoc]
      refine h₁.append (fun pc hpc => hoff pc fun h => hzl (h ▸ hpc)) hlink ?_
      exact h₂.congr fun pc hpc => hoff pc fun h => hdisj z hz (h ▸ hpc)
    · refine ⟨List.length_set, fun pc hpc => ?_, fun pc hpc => ?_⟩
      · exact List.getElem?_set_ne fun h => hpc (by simp [h])
      · by_cases heq : pc = z
        · subst heq
          have := lt_of_mem h₂ hy
          exact ⟨_, List.getElem?_set_self hlt, by omega, by omega⟩
        · obtain ⟨t, ht⟩ := hjmp pc hpc
          exact ⟨t, by rw [List.getElem?_set_ne (Ne.symm heq), ht], hlands pc t ht⟩
  · refine .inl ⟨if_neg hfit, Nat.lt_of_not_le fun hlen => hfit (fits_of_length hlen hlt (by omega) ?_)⟩
    have := lt_of_mem h₂ hy
    omega

theorem Relinked.lands (h : Relinked code l₁ code') (hlands : Lands code) : Lands code' := by
  intro pc s hs
  rw [h.length]
  by_cases hpc : pc ∈ l₁
  · obtain ⟨t, ht, hb⟩ := h.jmp pc hpc
    rw [hs] at ht
    cases ht
    exact hb
  · exact hlands pc s (by rw [← h.of_notMem hpc, hs])

theorem Relinked.paired (h : Relinked code l₁ code') (hpaired : Paired code) : Paired code' := by
  intro pc i hi ht
  by_cases hpc : pc ∈ l₁
  · obtain ⟨t, hjt, -⟩ := h.jmp pc hpc
    rw [hi] at hjt
    cases hjt
    cases ht
  obtain ⟨s, hs⟩ := hpaired pc i (by rw [← h.of_notMem hpc, hi]) ht
  by_cases hnext : pc + 1 ∈ l₁
  · obtain ⟨t, hjt, -⟩ := h.jmp _ hnext
    exact ⟨t, hjt⟩
  · exact ⟨s, by rw [h.of_notMem hnext, hs]⟩

theorem Relinked.isValue (h : Relinked code l₁ code') (hjmp : ∀ pc ∈ l₁, ∃ s, code[pc]? = some (.jmp s)) (j : Nat) :
    isValue code' j = isValue code j := by
  cases j with
  | zero => rfl
  | succ j =>
    rw [Jumps.isValue, Jumps.isValue]
    by_cases hj : j ∈ l₁
    · obtain ⟨s, hs⟩ := hjmp j hj
      obtain ⟨t, ht, -⟩ := h.jmp j hj
      rw [hs, ht]
      rfl
    · rw [h.of_notMem hj]

end

theorem Proper.concat {s : Gen} {L : Nat → List Nat} (h : Proper s L) {v w : Nat} (hvw : v ≠ w) {code' : Code}
    {o : Option Nat} (hthread : Thread (link code') o (L v ++ L w)) (hrel : Relinked s.code (L v) code') :
    Proper ⟨code', Function.update (Function.update s.vars v o) w none⟩
      (Function.update (Function.update L v (L v ++ L w)) w []) := by
  -- without its two lists the code is changed where nobody looks
  have hcode : Proper ⟨code', Function.update (Function.update s.vars w none) v none⟩
      (Function.update (Function.update L w []) v []) := by
    refine ((h.clear w).clear v).code (fun u j hj => hrel.of_notMem fun hmem => ?_) (hrel.lands h.lands)
      (hrel.paired h.paired)
    by_cases hu : u = v
    · subst hu
      rw [Function.update_self] at hj
      cases hj
    · rw [Function.update_of_ne hu] at hj
      exact h.disjoint hu j (of_mem_update hj).2 hmem
  have hnodup : (L v ++ L w).Nodup :=
    List.nodup_append.mpr ⟨h.nodup v, h.nodup w, fun x hx y hy heq => h.disjoint hvw x hx (heq ▸ hy)⟩
  have hall := hcode.update (v := v) hthread hnodup (by
    intro u hu x hx hxu
    rw [Function.update_of_ne hu] at hxu
    obtain ⟨huw, hxu⟩ := of_mem_update hxu
    rcases List.mem_append.mp hx with hx | hx
    · exact h.disjoint hu.symm x hx hxu
    · exact h.disjoint huw.symm x hx hxu)
  rw [Function.update_idem, Function.update_idem] at hall
  rwa [Function.update_comm hvw, Function.update_comm hvw]

/-! ## `exp2reg` -/

section

variable {code code' : Code} {l lt lf : List Nat} {reg : Nat}

theorem Relinked.append (h : Relinked code l code') (ext : Code) :
    Relinked (code ++ ext) l (code' ++ ext) where
  length := by rw [List.length_append, List.length_append, h.length]
  same pc hpc := by
    rcases Nat.lt_or_ge pc code.length with hlt | hge
    · rw [List.getElem?_append_left hlt, List.getElem?_append_left (h.length ▸ hlt), h.same pc hpc]
    · rw [List.getElem?_append_right hge, List.getElem?_append_right (h.length ▸ hge), h.length]
  jmp pc hpc := by
    obtain ⟨s, hs, h0, hle⟩ := h.jmp pc hpc
    refine ⟨s, getElem?_append_of_some hs, h0, ?_⟩
    rw [List.length_append]
    omega

/-- Once the list is patched, it does not matter how its last jump was linked. -/
theorem Relinked.patched_patched (h : Relinked code l code') (hl : ∀ j ∈ l, ∃ s, code[j]? = some (.jmp s))
    (hsub : ∀ j ∈ l, j ∈ lt) (hf : ∀ j ∈ lf, ∃ s, code[j]? = some (.jmp s)) (hdisj : ∀ j ∈ lt, j ∉ lf)
    (vtarget dtarget dtarget' : Int) :
    patched (patched code' lf vtarget reg dtarget) lt vtarget reg dtarget' =
      patched (patched code lf vtarget reg dtarget) lt vtarget reg dtarget' := by
  have hf' : ∀ j ∈ lf, ∃ s, code'[j]? = some (.jmp s) := by
    intro j hj
    rw [h.of_notMem fun hmem => hdisj j (hsub j hmem) hj]
    exact hf j hj
  refine List.ext_getElem? fun i => ?_
  rw [getElem?_patched, getElem?_patched, getElem?_patched, getElem?_patched, Option.map_map, Option.map_map]
  by_cases hi : i ∈ lt
  · have htarget : target (patched code' lf vtarget reg dtarget) vtarget dtarget' i =
        target (patched code lf vtarget reg dtarget) vtarget dtarget' i := by
      rw [target, target, isValue_patched hf' (hdisj i hi), isValue_patched hf (hdisj i hi), h.isValue hl]
    simp only [Function.comp_def, if_pos hi, htarget]
    rcases Nat.lt_or_ge i code.length with hlt | hge
    · rw [List.getElem?_eq_getElem hlt, List.getElem?_eq_getElem (h.length ▸ hlt)]
      rfl
    · rw [List.getElem?_eq_none hge, List.getElem?_eq_none (h.length ▸ hge)]
  · have htarget : target code' vtarget dtarget i = target code vtarget dtarget i := by
      rw [target, target, h.isValue hl]
    rw [h.of_notMem fun hmem => hi (hsub i hmem)]
    simp only [Function.comp_def, if_neg hi, htarget]

theorem Relinked.exp2regCode (h : Relinked code l code') (hl : ∀ j ∈ l, ∃ s, code[j]? = some (.jmp s))
    (hsub : ∀ j ∈ l, j ∈ lt) (hf : ∀ j ∈ lf, ∃ s, code[j]? = some (.jmp s)) (hdisj : ∀ j ∈ lt, j ∉ lf)
    (vjmp : Bool) (reg : Nat) : Jumps.exp2regCode code' lt lf vjmp reg = Jumps.exp2regCode code lt lf vjmp reg := by
  have happend := h.append (loads vjmp reg)
  unfold Jumps.exp2regCode
  simp only [h.isValue hl, List.length_append, h.length]
  split_ifs
  · exact happend.patched_patched (fun j hj => (hl j hj).imp fun _ => getElem?_append_of_some) hsub
      (fun j hj => (hf j hj).imp fun _ => getElem?_append_of_some) hdisj ..
  · exact happend.patched_patched (fun j hj => (hl j hj).imp fun _ => getElem?_append_of_some) hsub
      (fun j hj => (hf j hj).imp fun _ => getElem?_append_of_some) hdisj ..
  · exact h.patched_patched hl hsub hf hdisj ..

/-- The jump around the two instructions is patched at once. -/
theorem loadbools_eq (h : Paired code) (vjmp : Bool) (reg : Nat) :
    loadbools code vjmp reg = .ok (code ++ loads vjmp reg, code.length + (if vjmp then 0 else 1),
      code.length + (if vjmp then 0 else 1) + 1) := by
  cases vjmp with
  | true => simp [loadbools, luaK_patchtohere, luaK_patchlist, patchlistaux, loads]
  | false =>
    have hget : (code ++ [.jmp (-1)] ++ [.lfalseskip reg] ++ [.loadtrue reg])[code.length]? = some (.jmp (-1)) := by
      simp
    have hthread : Thread (link (code ++ [.jmp (-1)] ++ [.lfalseskip reg] ++ [.loadtrue reg])) (some code.length)
        [code.length] := by
      refine ⟨rfl, none, ?_, rfl⟩
      rw [link, getjump, hget]
      rfl
    have hpatched : patched (code ++ [.jmp (-1)] ++ [.lfalseskip reg] ++ [.loadtrue reg]) [code.length]
        (code.length + 3 : Nat) noReg (code.length + 3 : Nat) = code ++ loads false reg := by
      refine List.ext_getElem? fun i => ?_
      rw [getElem?_patched]
      simp only [List.append_assoc, List.mem_singleton, loads]
      rcases Nat.lt_trichotomy i code.length with hlt | rfl | hgt
      · rw [List.getElem?_append_left hlt, List.getElem?_append_left hlt, List.getElem?_eq_getElem hlt, Option.map_some,
          if_neg (by omega)]
        split_ifs with hnext
        · -- the last instruction is no test, or its jump would come after it
          cases hx : code[i] with
          | testset a b k =>
            obtain ⟨t, ht⟩ := h i _ (List.getElem?_eq_getElem hlt) (by rw [hx]; rfl)
            rw [hnext, List.getElem?_eq_none (le_refl _)] at ht
            cases ht
          | _ => rfl
        · rfl
      · rw [List.getElem?_append_right (le_refl _), List.getElem?_append_right (le_refl _), Nat.sub_self]
        simp only [target, ite_self, if_true]
        simp
      · rw [List.getElem?_append_right hgt.le, List.getElem?_append_right hgt.le]
        obtain ⟨k, hk⟩ : ∃ k, i - code.length = k + 1 := ⟨i - code.length - 1, by omega⟩
        have hi : i ≠ code.length := by omega
        have hnext : i + 1 ≠ code.length := by omega
        simp only [hk, hi, hnext, if_false, Option.map_id']
        rfl
    have hfit : ∀ j ∈ [code.length], Fits j
        (target (code ++ [.jmp (-1)] ++ [.lfalseskip reg] ++ [.loadtrue reg]) (code.length + 3 : Nat)
          (code.length + 3 : Nat) j) := by
      intro j hj
      rw [List.mem_singleton.mp hj, target, ite_self, Fits, offsetSJ, maxargSJ]
      omega
    have hlen : (code ++ [Instr.jmp (-1)] ++ [Instr.lfalseskip reg] ++ [Instr.loadtrue reg]).length =
        code.length + 3 := by simp
    rw [loadbools]
    simp only [luaK_jump, Bool.false_eq_true, if_false, luaK_patchtohere, luaK_patchlist]
    rw [hlen, patchlistaux_eq _ _ _ hthread (List.nodup_singleton _) (by simp), if_pos hfit, Rust.ok_bind, hpatched]
    simp
    omega

end

section

variable {s : Gen} {L : Nat → List Nat} {t f info reg : Nat}

/-- The two lists of an expression are patched one after the other. -/
theorem Proper.patchlistaux₂ (h : Proper s L) (hne : t ≠ f) (v d d' : Int)
    (hf : ∀ j ∈ L f, 0 ≤ target s.code v d j ∧ target s.code v d j ≤ s.code.length)
    (ht : ∀ j ∈ L t, 0 ≤ target s.code v d' j ∧ target s.code v d' j ≤ s.code.length) (reg : Nat) :
    let run : Rust Code := do
      let code ← patchlistaux v reg d s.code.length s.code (s.vars f)
      patchlistaux v reg d' code.length code (s.vars t)
    let code' := Jumps.patched (Jumps.patched s.code (L f) v reg d) (L t) v reg d'
    (run = .error tooLong ∧ 16777215 < s.code.length) ∨ (run = .ok code' ∧
      Proper ⟨code', Function.update (Function.update s.vars t none) f none⟩
        (Function.update (Function.update L t []) f [])) := by
  intro run code'
  have hdisj : ∀ j ∈ L t, j ∉ L f := h.disjoint hne
  have hvalue : ∀ j ∈ L t, target (Jumps.patched s.code (L f) v reg d) v d' j = target s.code v d' j := by
    intro j hj
    rw [target, target, isValue_patched (fun _ => h.jmp) (hdisj j hj)]
  have hfirst := patchlistaux_eq v reg d (h.thread f) (h.nodup f)
    (length_le (h.thread f) (h.nodup f))
  have hthread : Thread (link (Jumps.patched s.code (L f) v reg d)) (s.vars t) (L t) :=
    thread_patched (h.thread t) hdisj
  have hsecond := patchlistaux_eq v reg d' hthread (h.nodup t)
    (length_le hthread (h.nodup t))
  have hf' : Proper ⟨Jumps.patched s.code (L f) v reg d, Function.update s.vars f none⟩ (Function.update L f []) := by
    refine (h.clear f).patched (fun w x hx hmem => ?_) hf
    obtain ⟨hw, hx⟩ := of_mem_update hx
    exact h.disjoint hw x hx hmem
  have ht' : Proper ⟨code', Function.update (Function.update s.vars f none) t none⟩
      (Function.update (Function.update L f []) t []) := by
    refine (hf'.clear t).patched (fun w x hx hmem => ?_) fun j hj => ?_
    · obtain ⟨hw, hx⟩ := of_mem_update hx
      exact h.disjoint hw x (of_mem_update hx).2 hmem
    · have hj' := ht j hj
      rw [← hvalue j hj] at hj'
      simpa only [length_patched] using hj'
  rw [Function.update_comm hne.symm, Function.update_comm hne.symm] at ht'
  by_cases hfit : ∀ j ∈ L f, Fits j (target s.code v d j)
  · rw [if_pos hfit] at hfirst
    have hrun : run = patchlistaux v reg d' (Jumps.patched s.code (L f) v reg d).length
        (Jumps.patched s.code (L f) v reg d) (s.vars t) := by
      simp only [run]
      rw [hfirst, Rust.ok_bind]
    rw [hrun, hsecond]
    by_cases hfit' : ∀ j ∈ L t, Fits j (target (Jumps.patched s.code (L f) v reg d) v d' j)
    · rw [if_pos hfit']
      exact .inr ⟨rfl, ht'⟩
    · rw [if_neg hfit']
      refine .inl ⟨rfl, long_of_not_fits (fun _ => h.lt) (fun j hj => ?_) hfit'⟩
      rw [hvalue j hj]
      exact ht j hj
  · rw [if_neg hfit] at hfirst
    refine .inl ⟨?_, long_of_not_fits (fun _ => h.lt) hf hfit⟩
    simp only [run]
    rw [hfirst]
    rfl

/-- Where no value is needed, all jumps give one, and the default target is not used. -/
theorem target_bounds {code : Code} {l : List Nat} {n : Nat} {d : Int}
    (h : (∀ j ∈ l, isValue code j = true) ∨ (0 ≤ d ∧ d ≤ n)) :
    ∀ j ∈ l, 0 ≤ target code n d j ∧ target code n d j ≤ n := by
  intro j hj
  rw [target]
  split_ifs with hv
  · omega
  · rcases h with h | h
    · exact absurd (h j hj) hv
    · exact h

theorem exp2regCode_nil (code : Code) (vjmp : Bool) (reg : Nat) : exp2regCode code [] [] vjmp reg = code := by
  rw [exp2regCode, if_neg (by simp), patched_nil, patched_nil]

theorem paired_loads (vjmp : Bool) (reg : Nat) : Paired (loads vjmp reg) := by
  have hnone : ∀ i ∈ loads vjmp reg, i.testTMode = false := by
    cases vjmp <;> simp [loads, Instr.testTMode]
  intro pc i hi ht
  rw [hnone i (List.mem_of_getElem? hi)] at ht
  cases ht

theorem Lands.append_loads {code : Code} (h : Lands code) (vjmp : Bool) (reg : Nat) :
    Lands (code ++ loads vjmp reg) := by
  refine h.append fun j s hs => ?_
  cases vjmp with
  | true => exact absurd (List.mem_of_getElem? hs) (by simp [loads])
  | false =>
    cases j with
    | zero =>
      cases hs
      simp [loads]
      omega
    | succ j => exact absurd (List.mem_of_getElem? (l := [Instr.lfalseskip reg, .loadtrue reg]) hs) (by simp)

theorem length_loads_le (vjmp : Bool) (reg : Nat) : (loads vjmp reg).length ≤ 3 := by
  rw [loads]
  split_ifs <;> simp

theorem Proper.isSome_eq (h : Proper s L) (v : Nat) : (s.vars v).isSome = !(L v).isEmpty := by
  have hthread := h.thread v
  cases hv : s.vars v with
  | none =>
    rw [hv] at hthread
    rw [hthread.nil_of_none]
    rfl
  | some j =>
    rw [hv] at hthread
    cases hl : L v with
    | nil =>
      rw [hl] at hthread
      cases hthread
    | cons j' l => rfl

theorem needValues_eq {code : Code} {o o' : Option Nat} {l l' : List Nat} (h : Thread (link code) o l) (hl : l.Nodup)
    (h' : Thread (link code) o' l') (hl' : l'.Nodup) :
    needValues code o o' = .ok ((l ++ l').any fun j => !isValue code j) := by
  rw [needValues, need_value_eq h (length_le h hl), Rust.ok_bind,
    show (l ++ l').any (fun j => !isValue code j) = _ from List.any_append]
  cases l.any fun j => !isValue code j with
  | true => rfl
  | false => exact need_value_eq h' (length_le h' hl')

/-- The variables of an expression are empty after `exp2reg`. -/
theorem update_clear {α : Type} (hti : t ≠ info) (hfi : f ≠ info) (g : Nat → α) (a b : α) :
    Function.update (Function.update (Function.update (Function.update g t a) info b) t b) f b =
      Function.update (Function.update (Function.update g t b) f b) info b := by
  rw [Function.update_comm hti.symm, Function.update_idem, Function.update_comm hfi.symm]

theorem Proper.exp2reg (h : Proper s L) (htf : t ≠ f) (hti : t ≠ info) (hfi : f ≠ info) (reg : Nat) :
    let run := Jumps.exp2reg s.code (s.vars t) (s.vars f) (s.vars info) reg
    let code' := exp2regCode s.code (L t ++ L info) (L f) (!(L info).isEmpty) reg
    (run = .error tooLong ∧ 16777212 < s.code.length) ∨ (run = .ok code' ∧
      Proper ⟨code', Function.update (Function.update (Function.update s.vars t none) f none) info none⟩
        (Function.update (Function.update (Function.update L t []) f []) info [])) := by
  intro run code'
  rcases luaK_concat_eq (h.thread t) (h.thread info) (h.nodup t) (h.disjoint hti) h.lands with
    ⟨herr, hlong⟩ | ⟨code₁, o, hconcat, hthread, hrel⟩
  · refine .inl ⟨?_, by omega⟩
    simp only [run]
    rw [Jumps.exp2reg, herr]
    rfl
  have h₁ := h.concat hti hthread hrel
  have hL₁t : Function.update (Function.update L t (L t ++ L info)) info [] t = L t ++ L info := by
    rw [Function.update_of_ne hti, Function.update_self]
  have hL₁f : Function.update (Function.update L t (L t ++ L info)) info [] f = L f := by
    rw [Function.update_of_ne hfi, Function.update_of_ne htf.symm]
  have hvars₁t : Function.update (Function.update s.vars t o) info none t = o := by
    rw [Function.update_of_ne hti, Function.update_self]
  have hvars₁f : Function.update (Function.update s.vars t o) info none f = s.vars f := by
    rw [Function.update_of_ne hfi, Function.update_of_ne htf.symm]
  have hthreadf : Thread (link code₁) (s.vars f) (L f) := by simpa only [hL₁f, hvars₁f] using h₁.thread f
  have hdisj : ∀ j ∈ L t ++ L info, j ∉ L f := by
    simpa only [hL₁f, hL₁t] using h₁.disjoint htf
  have hjmp : ∀ j ∈ L t, ∃ t, s.code[j]? = some (.jmp t) := fun _ => h.jmp
  have hcode' : exp2regCode code₁ (L t ++ L info) (L f) (!(L info).isEmpty) reg = code' :=
    hrel.exp2regCode hjmp (fun _ => List.mem_append_left _) (fun _ => h.jmp) hdisj _ _
  simp only [run]
  rw [Jumps.exp2reg, hconcat, Rust.ok_bind]
  dsimp only
  by_cases heq : o = s.vars f
  · -- both lists are empty
    rw [if_neg (not_not.mpr heq)]
    have hsame : L t ++ L info = L f := hthread.unique (heq ▸ hthreadf)
    have hf : L f = [] := List.eq_nil_iff_forall_not_mem.mpr fun j hj => hdisj j (hsame ▸ hj) hj
    have ht : L t ++ L info = [] := hsame.trans hf
    have hclean := (h₁.clear t).clear f
    rw [update_clear hti hfi, update_clear hti hfi] at hclean
    rw [ht, hf, exp2regCode_nil] at hcode'
    rw [← hcode']
    exact .inr ⟨rfl, hclean⟩
  have hnodup : (L t ++ L info).Nodup := by simpa only [hL₁t] using h₁.nodup t
  rw [if_pos heq, needValues_eq hthread hnodup hthreadf (h.nodup f), Rust.ok_bind]
  cases hn : (L t ++ L info ++ L f).any fun j => !isValue code₁ j with
  | false =>
    rw [exp2regCode, if_neg (by rw [hn]; simp)] at hcode'
    have hvalues : ∀ j ∈ L t ++ L info ++ L f, isValue code₁ j = true :=
      fun j hj => by simpa using List.any_eq_false.mp hn j hj
    have hboth := h₁.patchlistaux₂ htf code₁.length (-1) (-1)
      (target_bounds (.inl fun j hj => hvalues j (List.mem_append_right _ (hL₁f ▸ hj))))
      (target_bounds (.inl fun j hj => hvalues j (List.mem_append_left _ (hL₁t ▸ hj)))) reg
    dsimp only at hboth
    rw [update_clear hti hfi, update_clear hti hfi, hL₁t, hL₁f, hvars₁t, hvars₁f, hcode'] at hboth
    exact hboth.imp_left fun herr => ⟨herr.1, by rw [hrel.length] at herr; omega⟩
  | true =>
    rw [exp2regCode, if_pos hn, ← h.isSome_eq info] at hcode'
    have hloads := h₁.append _ (h₁.lands.append_loads (s.vars info).isSome reg) (paired_loads _ reg)
    have hvalue : 0 ≤ (code₁.length : Int) + (if (s.vars info).isSome then 0 else 1) ∧
        (code₁.length : Int) + (if (s.vars info).isSome then 0 else 1) + 1 ≤
          (code₁ ++ loads (s.vars info).isSome reg).length := by
      rw [List.length_append, loads]
      split_ifs
      · simp
      · simp
        omega
    have hboth := hloads.patchlistaux₂ htf (code₁ ++ loads (s.vars info).isSome reg).length
      (code₁.length + (if (s.vars info).isSome then 0 else 1))
      (code₁.length + (if (s.vars info).isSome then 0 else 1) + 1)
      (target_bounds (.inr (by omega))) (target_bounds (.inr (by omega))) reg
    dsimp only at hboth
    rw [update_clear hti hfi, update_clear hti hfi, hL₁t, hL₁f, hvars₁t, hvars₁f, hcode'] at hboth
    rw [valuePlaces, if_pos rfl, loadbools_eq h₁.paired]
    refine hboth.imp_left fun herr => ⟨herr.1, ?_⟩
    have hlen := herr.2
    have hloadsLen := length_loads_le (s.vars info).isSome reg
    rw [List.length_append, hrel.length] at hlen
    omega

end

/-! ## Any sequence of operations -/

theorem Proper.start : Proper .start fun _ => [] where
  thread _ := rfl
  nodup _ := List.nodup_nil
  disjoint _ _ hx := absurd hx List.not_mem_nil
  lands pc s hs := by cases hs
  paired pc i hi := by cases hi

theorem Proper.patchlist {s : Gen} {L : Nat → List Nat} (h : Proper s L) (v : Nat) {dest : Nat}
    (hdest : dest ≤ s.code.length) :
    Proper ⟨Jumps.patched s.code (L v) dest noReg dest, Function.update s.vars v none⟩ (Function.update L v []) := by
  refine (h.clear v).patched (fun w x hx hmem => ?_) fun j _ => ?_
  · obtain ⟨hw, hx⟩ := of_mem_update hx
    exact h.disjoint hw x hx hmem
  · rw [Jumps.target, ite_self]
    dsimp only
    omega

theorem Proper.long_of_not_fits {s : Gen} {L : Nat → List Nat} (h : Proper s L) {v dest : Nat}
    (hdest : dest ≤ s.code.length) (hfit : ¬∀ j ∈ L v, Fits j (Jumps.target s.code dest dest j)) :
    16777212 < s.code.length := by
  have hlong := Jumps.long_of_not_fits (fun _ => h.lt) (fun j _ => by rw [Jumps.target, ite_self]; omega) hfit
  omega

theorem Proper.change {s : Gen} {L : Nat → List Nat} (h : Proper s L) {pc : Nat} {x i : Instr}
    (hx : s.code[pc]? = some x) (hxj : x.isJmp = false) (hij : i.isJmp = false) (hmode : i.testTMode = x.testTMode) :
    Proper ⟨s.code.set pc i, s.vars⟩ L := by
  have hlt := (List.getElem?_eq_some_iff.mp hx).1
  have hne : ∀ {j : Nat} {t : Int}, s.code[j]? = some (.jmp t) → pc ≠ j := by
    rintro j t hj rfl
    rw [hx] at hj
    cases hj
    cases hxj
  refine h.code (fun v j hj => ?_) (fun j t hj => ?_) (fun j y hj ht => ?_)
  · obtain ⟨t, ht⟩ := h.jmp hj
    exact List.getElem?_set_ne (hne ht)
  · rw [List.length_set]
    by_cases hpc : pc = j
    · subst hpc
      rw [List.getElem?_set_self hlt] at hj
      cases hj
      cases hij
    · rw [List.getElem?_set_ne hpc] at hj
      exact h.lands j t hj
  · have hold : ∃ z, s.code[j]? = some z ∧ z.testTMode = true := by
      by_cases hpc : pc = j
      · subst hpc
        rw [List.getElem?_set_self hlt] at hj
        cases hj
        exact ⟨x, hx, hmode ▸ ht⟩
      · rw [List.getElem?_set_ne hpc] at hj
        exact ⟨y, hj, ht⟩
    obtain ⟨z, hz, htz⟩ := hold
    obtain ⟨t, htj⟩ := h.paired j z hz htz
    exact ⟨t, by rw [List.getElem?_set_ne (hne htj), htj]⟩

theorem Proper.removelast {s : Gen} {L : Nat → List Nat} (h : Proper s L) {code' : Code} {x : Instr}
    (hcode : s.code = code' ++ [x]) (hx : x.isJmp = false)
    (hland : ∀ (pc : Nat) (t : Int), s.code[pc]? = some (.jmp t) → (pc : Int) + 1 + t ≤ code'.length) :
    Proper ⟨code', s.vars⟩ L := by
  -- no jump is removed
  have hold : ∀ {j : Nat} {t : Int}, s.code[j]? = some (.jmp t) → code'[j]? = some (.jmp t) := by
    intro j t hj
    rw [hcode] at hj
    rcases getElem?_append_cases hj with hj | ⟨-, hj⟩
    · exact hj
    · rw [← List.mem_singleton.mp (List.mem_of_getElem? hj)] at hx
      cases hx
  refine h.code (fun v j hj => ?_) (fun j t hj => ?_) (fun j y hj ht => ?_)
  · obtain ⟨t, ht⟩ := h.jmp hj
    rw [ht, hold ht]
  · have hj' : s.code[j]? = some (.jmp t) := hcode ▸ getElem?_append_of_some hj
    exact ⟨(h.lands j t hj').1, hland j t hj'⟩
  · have hj' : s.code[j]? = some y := hcode ▸ getElem?_append_of_some hj
    exact (h.paired j y hj' ht).imp fun _ => hold

/-- A test is coded with its jump. -/
theorem Proper.condjump {s : Gen} {L : Nat → List Nat} (h : Proper s L) {i : Instr} (hi : i.testTMode = true)
    (v : Nat) :
    Proper ⟨s.code ++ [i] ++ [.jmp (-1)], Function.update s.vars v (some (s.code ++ [i]).length)⟩
      (Function.update L v [(s.code ++ [i]).length]) := by
  have hlands : Lands (s.code ++ [i, .jmp (-1)]) := by
    refine h.lands.append fun j t hj => ?_
    rcases j with _ | _ | j
    · cases hj
      cases hi
    · cases hj
      simp
      omega
    · cases hj
  have hpaired : Paired [i, .jmp (-1)] := by
    intro pc y hy ht
    rcases pc with _ | _ | pc
    · exact ⟨-1, rfl⟩
    · cases hy
      cases ht
    · cases hy
  have hcode := h.append _ hlands hpaired
  rw [List.append_assoc]
  refine hcode.update ⟨rfl, none, ?_, rfl⟩ (List.nodup_singleton _) ?_
  · rw [link, getjump, List.getElem?_append_right (by simp)]
    simp [Except.toOption]
  · intro w _ x hx hxw
    rw [List.mem_singleton.mp hx] at hxw
    have := h.lt hxw
    rw [List.length_append, List.length_singleton] at this
    omega

/-- One operation: it gives up, or does to the code and to the lists what it should. -/
theorem Proper.step {s : Gen} {L : Nat → List Nat} (h : Proper s L) {op : Op} (hok : op.Ok s.code) :
    (s.step op = .error tooLong ∧ 16777212 < s.code.length) ∨
      ∃ s' L', s.step op = .ok s' ∧ Proper s' L' ∧ op.Effect s.code L s'.code L' := by
  cases op with
  | emit i =>
    exact .inr ⟨_, L, rfl, h.append [i] (h.lands.append_one hok.1) (paired_singleton hok.2), rfl, rfl⟩
  | change pc i =>
    obtain ⟨x, hx, hxj, hij, hmode⟩ := hok
    exact .inr ⟨_, L, rfl, h.change hx hxj hij hmode, rfl, rfl⟩
  | removelast =>
    obtain ⟨code', x, hcode, hx, hland⟩ := hok
    refine .inr ⟨_, L, rfl, ?_, rfl, rfl⟩
    have hdrop : s.code.dropLast = code' := by rw [hcode, List.dropLast_concat]
    rw [hdrop]
    exact h.removelast hcode hx hland
  | jump v => exact .inr ⟨_, _, rfl, h.jump v, rfl, rfl⟩
  | condjump i v =>
    refine .inr ⟨_, _, rfl, h.condjump hok v, ?_, ?_⟩
    · exact List.append_assoc ..
    · rw [List.length_append, List.length_singleton]
  | concat v w =>
    rcases luaK_concat_eq (h.thread v) (h.thread w) (h.nodup v) (h.disjoint hok) h.lands with
      ⟨herr, hlong⟩ | ⟨code', o, hconcat, hthread, hrel⟩
    · exact .inl ⟨by rw [Gen.step, herr]; rfl, by omega⟩
    · refine .inr ⟨_, _, by rw [Gen.step, hconcat]; rfl, h.concat hok hthread hrel, hrel.same, hrel.length, rfl⟩
  | swap v w =>
    refine .inr ⟨_, _, rfl, ?_, rfl, rfl⟩
    exact {
      thread u := h.thread _
      nodup u := h.nodup _
      disjoint hne := h.disjoint ((Equiv.swap v w).injective.ne hne)
      lands := h.lands
      paired := h.paired }
  | removevalues v =>
    refine .inr ⟨_, L, ?_, h.code (fun u j hj => ?_) (sameJumps_controlled.lands h.lands) h.paired.controlled, rfl, rfl⟩
    · rw [Gen.step, removevalues_eq (h.thread v) (h.nodup v) (length_le (h.thread v) (h.nodup v))]
      rfl
    · obtain ⟨t, ht⟩ := h.jmp hj
      rw [controlled_jmp ht, ht]
  | patchlist v target =>
    have heq := patchlistaux_eq target noReg target (h.thread v) (h.nodup v) (length_le (h.thread v) (h.nodup v))
    rw [Gen.step, luaK_patchlist, heq]
    split_ifs with hfit
    · exact .inr ⟨_, _, rfl, h.patchlist v hok, rfl, rfl⟩
    · exact .inl ⟨rfl, h.long_of_not_fits hok hfit⟩
  | patchtohere v =>
    have heq := patchlistaux_eq s.code.length noReg s.code.length (h.thread v) (h.nodup v)
      (length_le (h.thread v) (h.nodup v))
    rw [Gen.step, luaK_patchtohere, luaK_patchlist, heq]
    split_ifs with hfit
    · exact .inr ⟨_, _, rfl, h.patchlist v (le_refl _), rfl, rfl⟩
    · exact .inl ⟨rfl, h.long_of_not_fits (le_refl _) hfit⟩
  | exp2reg t f info reg =>
    obtain ⟨htf, hti, hfi⟩ := hok
    rcases h.exp2reg htf hti hfi reg with ⟨herr, hlong⟩ | ⟨hrun, hproper⟩
    · exact .inl ⟨by rw [Gen.step, herr]; rfl, hlong⟩
    · exact .inr ⟨_, _, by rw [Gen.step, hrun]; rfl, hproper, rfl, rfl⟩

theorem Reachable.proper {s : Gen} (h : Reachable s) : ∃ L, Proper s L := by
  induction h with
  | start => exact ⟨_, .start⟩
  | step _ hok hstep ih =>
    obtain ⟨L, hL⟩ := ih
    rcases hL.step hok with ⟨herr, -⟩ | ⟨s', L', hs', hproper, -⟩
    · rw [herr] at hstep
      cases hstep
    · rw [hs'] at hstep
      cases hstep
      exact ⟨L', hproper⟩

end Tsuki.Jumps
