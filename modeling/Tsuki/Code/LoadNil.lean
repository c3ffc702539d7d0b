import Mathlib.Data.List.Basic
import Mathlib.Logic.Function.Basic
import Mathlib.Tactic.SplitIfs

/-!
# `OP_LOADNIL`

`luaK_nil` extends the instruction before it where the registers touch, unless a jump may land between the two. The
code from any place where a jump may land means what was asked for since. The meaning of a part of the code is the set
of registers that it clears. A merge replaces an instruction by one whose set is the union, and a place before which a
jump may land is never inside of a part that changes.
-/

namespace Tsuki.LoadNil

variable {V : Type}

/-- The registers of a frame. -/
abbrev Regs (V : Type) := Nat → V

/-- An instruction: `OP_LOADNIL` with its operands `A` and `B`, or another one with what it does. -/
inductive Instr (V : Type)
  | loadnil (a b : UInt8)
  | other (f : Regs V → Regs V)

/-- `FuncState`: the code, which is `pc` long, and `lasttarget`. -/
structure FuncState (V : Type) where
  code : List (Instr V)
  lasttarget : Nat

/-- Registers that `luaK_nil` is asked for: one at least, and a register has eight bits. `adjust_assign` asks for more
where the names of a `local` need more registers than there are; `luaK_reserveregs` then refuses the function. -/
structure Range where
  from_ : Nat
  n : Nat
  pos : 0 < n
  le : from_ + n ≤ 256

/-- A register is one of them. -/
def Range.Has (r : Range) (j : Nat) : Prop := r.from_ ≤ j ∧ j < r.from_ + r.n

instance (r : Range) (j : Nat) : Decidable (r.Has j) := inferInstanceAs (Decidable (_ ∧ _))

/-- `previousinstruction`, none for `invalidinstruction`. -/
def FuncState.previousinstruction (fs : FuncState V) : Option (Instr V) :=
  if fs.lasttarget < fs.code.length then fs.code.getLast? else none

def FuncState.luaK_code (fs : FuncState V) (i : Instr V) : FuncState V := { fs with code := fs.code ++ [i] }

/-- `luaK_nil`, where operands are written with eight bits. -/
def FuncState.luaK_nil (fs : FuncState V) (r : Range) : FuncState V :=
  let l := r.from_ + r.n - 1
  let emit := fs.luaK_code (.loadnil (.ofNat r.from_) (.ofNat (r.n - 1)))
  match fs.previousinstruction with
  | some (.loadnil a b) =>
    let pfrom := a.toNat
    let pl := pfrom + b.toNat
    if pfrom ≤ r.from_ ∧ r.from_ ≤ pl + 1 ∨ r.from_ ≤ pfrom ∧ pfrom ≤ l + 1 then
      let from_ := if pfrom < r.from_ then pfrom else r.from_
      let l := if l < pl then pl else l
      { fs with code := fs.code.dropLast ++ [.loadnil (.ofNat from_) (.ofNat (l - from_))] }
    else emit
  | _ => emit

def FuncState.luaK_getlabel (fs : FuncState V) : FuncState V := { fs with lasttarget := fs.code.length }

/-- What the parser asks for. -/
inductive Op (V : Type)
  | nil (r : Range)
  | emit (f : Regs V → Regs V)
  | getlabel

def FuncState.step (fs : FuncState V) : Op V → FuncState V
  | .nil r => fs.luaK_nil r
  | .emit f => fs.luaK_code (.other f)
  | .getlabel => fs.luaK_getlabel

def FuncState.run (fs : FuncState V) (ops : List (Op V)) : FuncState V := ops.foldl step fs

/-- `open_func` -/
def FuncState.start : FuncState V := ⟨[], 0⟩

section

variable (nil : V)

/-- The loop of `OP_LOADNIL`. -/
def loadnil : Nat → Nat → Regs V → Regs V
  | 0, ra, regs => Function.update regs ra nil
  | b + 1, ra, regs => loadnil b (ra + 1) (Function.update regs ra nil)

def Instr.exec (regs : Regs V) : Instr V → Regs V
  | .loadnil a b => LoadNil.loadnil nil b.toNat a.toNat regs
  | .other f => f regs

/-- A stretch of code. -/
def exec (code : List (Instr V)) (regs : Regs V) : Regs V := code.foldl (Instr.exec nil) regs

/-- What a request means. -/
def Op.meaning (regs : Regs V) : Op V → Regs V
  | .nil r => fun j => if r.Has j then nil else regs j
  | .emit f => f regs
  | .getlabel => regs

def meaning (ops : List (Op V)) (regs : Regs V) : Regs V := ops.foldl (Op.meaning nil) regs

theorem loadnil_eq (b : Nat) : ∀ (a : Nat) (regs : Regs V),
    loadnil nil b a regs = fun j => if a ≤ j ∧ j ≤ a + b then nil else regs j := by
  induction b with
  | zero =>
    intro a regs
    funext j
    rw [loadnil]
    by_cases hj : j = a
    · rw [hj, Function.update_self, if_pos (by omega)]
    · rw [Function.update_of_ne hj, if_neg (by omega)]
  | succ b ih =>
    intro a regs
    funext j
    rw [loadnil, ih]
    dsimp only
    by_cases hj : j = a
    · rw [hj, if_neg (by omega), Function.update_self, if_pos (by omega)]
    · rw [Function.update_of_ne hj]
      by_cases h : a + 1 ≤ j ∧ j ≤ a + 1 + b
      · rw [if_pos h, if_pos (by omega)]
      · rw [if_neg h, if_neg (by omega)]

end

/-! ## What a request does to the code -/

/-- An instruction sets a register to nil. -/
def Instr.Clears (j : Nat) : Instr V → Prop
  | .loadnil a b => a.toNat ≤ j ∧ j ≤ a.toNat + b.toNat
  | .other _ => False

instance (j : Nat) : (i : Instr V) → Decidable (i.Clears j)
  | .loadnil _ _ => inferInstanceAs (Decidable (_ ∧ _))
  | .other _ => inferInstanceAs (Decidable False)

/-- The last register of the instruction has eight bits, too. -/
def Instr.Fits : Instr V → Prop
  | .loadnil a b => a.toNat + b.toNat < 256
  | .other _ => True

/-- The operands for registers of a frame do not overflow. -/
theorem operands {k l : Nat} (h : k ≤ l) (hl : l < 256) :
    (UInt8.ofNat k).toNat = k ∧ (UInt8.ofNat k).toNat + (UInt8.ofNat (l - k)).toNat = l := by
  rw [UInt8.toNat_ofNat', UInt8.toNat_ofNat']
  omega

theorem FuncState.luaK_code_nil (fs : FuncState V) (r : Range) :
    ∃ i : Instr V, i.Fits ∧ (∃ a b, i = .loadnil a b) ∧
      fs.luaK_code (.loadnil (.ofNat r.from_) (.ofNat (r.n - 1))) = { fs with code := fs.code ++ [i] } ∧
      ∀ j, i.Clears j ↔ r.Has j := by
  have hpos := r.pos
  have hle := r.le
  obtain ⟨hfrom, hlast⟩ := operands (show r.from_ ≤ r.from_ + r.n - 1 by omega) (by omega)
  rw [show r.from_ + r.n - 1 - r.from_ = r.n - 1 by omega] at hlast
  refine ⟨_, ?_, ⟨_, _, rfl⟩, rfl, fun j => ?_⟩
  · show (UInt8.ofNat r.from_).toNat + (UInt8.ofNat (r.n - 1)).toNat < 256
    omega
  · show (UInt8.ofNat r.from_).toNat ≤ j ∧ j ≤ (UInt8.ofNat r.from_).toNat + (UInt8.ofNat (r.n - 1)).toNat ↔ _
    rw [hlast, hfrom, Range.Has]
    omega

/-- `luaK_nil` adds an instruction for the registers, or the last instruction, after all jump targets, gets them as
well. -/
theorem FuncState.luaK_nil_cases (fs : FuncState V) (r : Range) (hfits : ∀ i ∈ fs.code, i.Fits) :
    ∃ i : Instr V, i.Fits ∧ (∃ a b, i = .loadnil a b) ∧
      ((fs.luaK_nil r = { fs with code := fs.code ++ [i] } ∧ ∀ j, i.Clears j ↔ r.Has j) ∨
        ∃ code a b, fs.code = code ++ [.loadnil a b] ∧ fs.lasttarget ≤ code.length ∧
          fs.luaK_nil r = { fs with code := code ++ [i] } ∧
          ∀ j, i.Clears j ↔ (.loadnil a b : Instr V).Clears j ∨ r.Has j) := by
  have hpos := r.pos
  have hle := r.le
  obtain ⟨i, hi, hload, hcode, hclears⟩ := fs.luaK_code_nil r
  unfold luaK_nil
  dsimp only
  split
  · rename_i a b hprevious
    by_cases htouch : a.toNat ≤ r.from_ ∧ r.from_ ≤ a.toNat + b.toNat + 1 ∨
        r.from_ ≤ a.toNat ∧ a.toNat ≤ r.from_ + r.n - 1 + 1
    · rw [if_pos htouch]
      unfold previousinstruction at hprevious
      split_ifs at hprevious with htarget
      obtain ⟨code, hlastcode⟩ := List.getLast?_eq_some_iff.mp hprevious
      have hab : a.toNat + b.toNat < 256 := hfits (.loadnil a b) (by
        rw [hlastcode]
        exact List.mem_append.mpr (.inr List.mem_cons_self))
      generalize hk : (if a.toNat < r.from_ then a.toNat else r.from_) = k
      generalize hl : (if r.from_ + r.n - 1 < a.toNat + b.toNat then a.toNat + b.toNat else r.from_ + r.n - 1) = l
      have hkl : k ≤ l ∧ l < 256 := by
        split_ifs at hk hl <;> omega
      obtain ⟨hA, hB⟩ := operands hkl.1 hkl.2
      refine ⟨.loadnil (.ofNat k) (.ofNat (l - k)), ?_, ⟨_, _, rfl⟩, .inr ⟨code, a, b, hlastcode, ?_, ?_, fun j => ?_⟩⟩
      · exact (hB ▸ hkl.2 : _)
      · rw [hlastcode, List.length_append, List.length_singleton] at htarget
        omega
      · rw [hlastcode, List.dropLast_concat]
      · show (UInt8.ofNat k).toNat ≤ j ∧ j ≤ (UInt8.ofNat k).toNat + (UInt8.ofNat (l - k)).toNat ↔
          (a.toNat ≤ j ∧ j ≤ a.toNat + b.toNat) ∨ r.Has j
        rw [hB, hA, Range.Has]
        split_ifs at hk hl <;> omega
    · rw [if_neg htouch]
      exact ⟨i, hi, hload, .inl ⟨hcode, hclears⟩⟩
  · exact ⟨i, hi, hload, .inl ⟨hcode, hclears⟩⟩

/-! ## Runs -/

section

variable (nil : V)

/-- The code after a place is that of the requests since then, and what is before it does not change. -/
structure Compiled (before : List (Instr V)) (ops : List (Op V)) (fs : FuncState V) (seg : List (Instr V)) : Prop where
  code : fs.code = before ++ seg
  target : before.length ≤ fs.lasttarget
  fits : ∀ i ∈ fs.code, i.Fits
  means : ∀ regs, exec nil seg regs = meaning nil ops regs
  clears : ∀ j, (∃ i ∈ seg, i.Clears j) ↔ ∃ r, .nil r ∈ ops ∧ r.Has j

variable {nil}

theorem exec_clears {i : Instr V} (hload : ∃ a b, i = .loadnil a b) (regs : Regs V) (j : Nat) :
    i.exec nil regs j = if i.Clears j then nil else regs j := by
  obtain ⟨a, b, rfl⟩ := hload
  show loadnil nil b.toNat a.toNat regs j = _
  rw [loadnil_eq]
  rfl

theorem exec_append (c c' : List (Instr V)) (regs : Regs V) : exec nil (c ++ c') regs = exec nil c' (exec nil c regs) :=
  List.foldl_append

theorem meaning_nil (ops : List (Op V)) (r : Range) (regs : Regs V) :
    meaning nil (ops ++ [.nil r]) regs = fun j => if r.Has j then nil else meaning nil ops regs j := by
  rw [meaning, List.foldl_append]
  rfl

theorem exists_requested {ops : List (Op V)} {r : Range} {j : Nat} :
    (∃ r', .nil r' ∈ ops ++ [(.nil r : Op V)] ∧ r'.Has j) ↔ (∃ r', .nil r' ∈ ops ∧ r'.Has j) ∨ r.Has j := by
  constructor
  · rintro ⟨r', hr', hj⟩
    rcases List.mem_append.mp hr' with hr' | hr'
    · exact .inl ⟨r', hr', hj⟩
    · rw [List.mem_singleton] at hr'
      cases hr'
      exact .inr hj
  · rintro (⟨r', hr', hj⟩ | hj)
    · exact ⟨r', List.mem_append.mpr (.inl hr'), hj⟩
    · exact ⟨r, List.mem_append.mpr (.inr List.mem_cons_self), hj⟩

theorem fits_concat {code : List (Instr V)} {i : Instr V} (h : ∀ i' ∈ code, i'.Fits) (hi : i.Fits) :
    ∀ i' ∈ code ++ [i], i'.Fits := by
  intro i' hi'
  rcases List.mem_append.mp hi' with hi' | hi'
  · exact h i' hi'
  · rwa [List.mem_singleton.mp hi']

theorem Compiled.request {before : List (Instr V)} {ops : List (Op V)} {fs : FuncState V} {seg : List (Instr V)}
    (h : Compiled nil before ops fs seg) (r : Range) :
    ∃ seg', Compiled nil before (ops ++ [.nil r]) (fs.luaK_nil r) seg' := by
  have hmem (j : Nat) : (∃ r', .nil r' ∈ ops ++ [(.nil r : Op V)] ∧ r'.Has j) ↔ (∃ i ∈ seg, i.Clears j) ∨ r.Has j := by
    rw [h.clears, exists_requested]
  obtain ⟨i, hi, hload, ⟨hnil, hclears⟩ | ⟨code, a, b, hcode, htarget, hnil, hclears⟩⟩ := fs.luaK_nil_cases r h.fits
  · refine ⟨seg ++ [i], ?_, ?_, ?_, fun regs => ?_, fun j => ?_⟩
    · rw [hnil, ← List.append_assoc, ← h.code]
    · rw [hnil]
      exact h.target
    · rw [hnil]
      exact fits_concat h.fits hi
    · rw [meaning_nil, exec_append, h.means]
      funext j
      exact (exec_clears hload _ j).trans (if_congr (hclears j) rfl rfl)
    · rw [hmem]
      simp only [List.mem_append, List.mem_singleton, or_and_right, exists_or, exists_eq_left, hclears]
  · -- the last instruction is one of those since the place
    obtain ⟨seg', rfl⟩ : ∃ seg', code = before ++ seg' := by
      have hbefore : before <+: fs.code := ⟨seg, h.code.symm⟩
      have hcode' : code <+: fs.code := ⟨_, hcode.symm⟩
      obtain ⟨seg', hseg⟩ := List.prefix_of_prefix_length_le hbefore hcode' (Nat.le_trans h.target htarget)
      exact ⟨seg', hseg.symm⟩
    obtain rfl : seg = seg' ++ [.loadnil a b] := by
      refine List.append_cancel_left (h.code.symm.trans (hcode.trans ?_))
      rw [List.append_assoc]
    refine ⟨seg' ++ [i], ?_, ?_, ?_, fun regs => ?_, fun j => ?_⟩
    · rw [hnil, List.append_assoc]
    · rw [hnil]
      exact h.target
    · rw [hnil]
      refine fits_concat (fun i' hi' => h.fits i' ?_) hi
      rw [hcode]
      exact List.mem_append.mpr (.inl hi')
    · rw [meaning_nil, ← h.means, exec_append, exec_append]
      funext j
      refine (exec_clears hload _ j).trans ?_
      show _ = if r.Has j then nil else (Instr.loadnil a b).exec nil (exec nil seg' regs) j
      rw [exec_clears ⟨a, b, rfl⟩]
      by_cases hr : r.Has j
      · rw [if_pos hr, if_pos ((hclears j).mpr (.inr hr))]
      · rw [if_neg hr]
        exact if_congr ((hclears j).trans (or_iff_left hr)) rfl rfl
    · rw [hmem]
      simp only [List.mem_append, List.mem_singleton, or_and_right, exists_or, exists_eq_left, hclears, or_assoc]

theorem Compiled.step {before : List (Instr V)} {ops : List (Op V)} {fs : FuncState V} {seg : List (Instr V)}
    (h : Compiled nil before ops fs seg) (op : Op V) : ∃ seg', Compiled nil before (ops ++ [op]) (fs.step op) seg' := by
  have hmeans (regs : Regs V) : meaning nil (ops ++ [op]) regs = op.meaning nil (meaning nil ops regs) := by
    rw [meaning, List.foldl_append]
    rfl
  have hmem (hop : ∀ r, op ≠ .nil r) (j : Nat) : (∃ r, .nil r ∈ ops ++ [op] ∧ r.Has j) ↔ ∃ i ∈ seg, i.Clears j := by
    rw [h.clears]
    refine exists_congr fun r => and_congr_left fun _ => ?_
    rw [List.mem_append, List.mem_singleton]
    exact or_iff_left fun heq => hop r heq.symm
  cases op with
  | nil r => exact h.request r
  | emit f =>
    refine ⟨seg ++ [.other f], ?_, h.target, ?_, fun regs => ?_, fun j => ?_⟩
    · show fs.code ++ [.other f] = _
      rw [h.code, List.append_assoc]
    · intro i hi
      rcases List.mem_append.mp hi with hi | hi
      · exact h.fits i hi
      · rw [List.mem_singleton.mp hi]
        trivial
    · rw [hmeans, exec_append, h.means]
      rfl
    · rw [hmem fun r hr => by cases hr]
      simp only [List.mem_append, List.mem_singleton, or_and_right, exists_or, exists_eq_left]
      exact or_iff_left id
  | getlabel =>
    refine ⟨seg, h.code, ?_, h.fits, fun regs => ?_, fun j => ?_⟩
    · show before.length ≤ fs.code.length
      rw [h.code, List.length_append]
      exact Nat.le_add_right _ _
    · rw [hmeans, h.means]
      rfl
    · exact (hmem (fun r hr => by cases hr) j).symm

theorem Compiled.run (ops' : List (Op V)) : ∀ {before : List (Instr V)} {ops : List (Op V)} {fs : FuncState V}
    {seg : List (Instr V)}, Compiled nil before ops fs seg →
    ∃ seg', Compiled nil before (ops ++ ops') (fs.run ops') seg' := by
  induction ops' with
  | nil =>
    intro before ops fs seg h
    exact ⟨seg, by rwa [List.append_nil]⟩
  | cons op ops' ih =>
    intro before ops fs seg h
    obtain ⟨seg', h'⟩ := h.step op
    obtain ⟨seg'', h''⟩ := ih h'
    exact ⟨seg'', by rwa [List.append_assoc] at h''⟩

variable (nil)

/-- From the start, and from every recorded target, the code means what was asked for since: it sets to nil exactly
the registers of the requests, in their order with the other instructions. What is before a target stays as it is, and
no operand overflows. -/
theorem luaK_nil_exact (ops : List (Op V)) :
    (∀ regs, exec nil (FuncState.start.run ops).code regs = meaning nil ops regs) ∧
      (∀ i ∈ (FuncState.start.run ops).code, (i : Instr V).Fits) ∧
      (∀ j, (∃ i ∈ (FuncState.start.run ops).code, i.Clears j) ↔ ∃ r, .nil r ∈ ops ∧ r.Has j) ∧
      ∀ before since, ops = before ++ .getlabel :: since →
        ∃ seg, (FuncState.start.run ops).code = (FuncState.start.run before).code ++ seg ∧
          (FuncState.start.run (before ++ [.getlabel])).lasttarget = (FuncState.start.run before).code.length ∧
          (∀ regs, exec nil seg regs = meaning nil since regs) ∧
          ∀ j, (∃ i ∈ seg, i.Clears j) ↔ ∃ r, .nil r ∈ since ∧ r.Has j := by
  have hstart : Compiled nil [] [] FuncState.start [] :=
    ⟨rfl, Nat.le_refl 0, fun _ hi => absurd hi List.not_mem_nil, fun _ => rfl, fun j => by simp⟩
  obtain ⟨seg, h⟩ := hstart.run ops
  obtain rfl : (FuncState.start.run ops).code = seg := h.code
  refine ⟨h.means, h.fits, h.clears, fun before since hops => ?_⟩
  obtain ⟨seg₀, h₀⟩ := hstart.run before
  have htarget : Compiled nil (FuncState.start.run before).code [] (FuncState.start.run before).luaK_getlabel [] :=
    ⟨(List.append_nil _).symm, Nat.le_refl _, h₀.fits, fun _ => rfl, fun j => by simp⟩
  obtain ⟨seg, hseg⟩ := htarget.run since
  have hrun : FuncState.start.run ops = (FuncState.start.run before).luaK_getlabel.run since := by
    rw [hops, FuncState.run, List.foldl_append]
    rfl
  refine ⟨seg, hrun ▸ hseg.code, ?_, hseg.means, hseg.clears⟩
  rw [FuncState.run, List.foldl_append]
  rfl

/-- `local a, b; local c` where no jump lands between the two, and where one does. -/
example : ((FuncState.start : FuncState Nat).run
      [.nil ⟨0, 2, by decide, by decide⟩, .nil ⟨2, 1, by decide, by decide⟩]).code =
    [.loadnil 0 2] := rfl

example : ((FuncState.start : FuncState Nat).run
    [.nil ⟨0, 2, by decide, by decide⟩, .getlabel, .nil ⟨2, 1, by decide, by decide⟩]).code =
    [.loadnil 0 1, .loadnil 2 0] := rfl

end

end Tsuki.LoadNil
