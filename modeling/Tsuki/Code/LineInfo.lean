import Mathlib.Data.Int.Order.Basic
import Mathlib.Data.List.Basic
import Mathlib.Data.List.GetD
import Mathlib.Logic.Function.Basic
import Mathlib.Tactic.Set

/-!
# Line information

The lines of instructions, kept as differences of one byte and a table of lines for some of the instructions: what
`luaK_code`, `luaK_fixline` and `removelastinstruction` record, and what `luaG_getfuncline` reads.

Line numbers are from 0 to 2^31 - 1, so no difference of two overflows. The vectors grow without a limit.
-/

namespace Tsuki.Code

structure AbsLineInfo where
  pc : Nat
  line : Int
  deriving DecidableEq

/-- The parts of `FuncState` and of its `Proto` that are about lines. -/
structure FuncState where
  pc : Nat
  previousline : Int
  iwthabs : Nat
  nabslineinfo : Nat
  linedefined : Int
  lineinfo : Nat → Int
  abslineinfo : Nat → AbsLineInfo

def openFunc (linedefined : Int) : FuncState where
  pc := 0
  previousline := linedefined
  iwthabs := 0
  nabslineinfo := 0
  linedefined := linedefined
  lineinfo _ := 0
  abslineinfo _ := ⟨0, 0⟩

/-- A conversion `as i8`. -/
def asI8 (z : Int) : Int := Int.bmod z 256

variable (fs : FuncState)

/-- `abs(linedif) >= 0x80 || iwthabs++ >= 128`. -/
def needsAbs (linedif : Int) : FuncState × Bool :=
  if 0x80 ≤ linedif.natAbs then (fs, true)
  else ({ fs with iwthabs := (fs.iwthabs + 1) % 256 }, decide (128 ≤ fs.iwthabs))

def savelineinfo (line : Int) : FuncState :=
  let linedif := line - fs.previousline
  let pc := fs.pc - 1
  match needsAbs fs linedif with
  | (fs, true) =>
    { fs with
      abslineinfo := Function.update fs.abslineinfo fs.nabslineinfo ⟨pc, line⟩
      nabslineinfo := fs.nabslineinfo + 1
      iwthabs := 1
      lineinfo := Function.update fs.lineinfo pc (asI8 (-0x80))
      previousline := line }
  | (fs, false) =>
    { fs with
      lineinfo := Function.update fs.lineinfo pc (asI8 linedif)
      previousline := line }

def removelastlineinfo : FuncState :=
  let pc := fs.pc - 1
  if fs.lineinfo pc ≠ -0x80 then
    { fs with
      previousline := fs.previousline - fs.lineinfo pc
      iwthabs := (fs.iwthabs + 255) % 256 }
  else
    { fs with
      nabslineinfo := fs.nabslineinfo - 1
      iwthabs := 129 }

def removelastinstruction : FuncState :=
  let fs := removelastlineinfo fs
  { fs with pc := fs.pc - 1 }

/-- `luaK_code`, for an instruction on `lastline`. -/
def luaK_code (lastline : Int) : FuncState := savelineinfo { fs with pc := fs.pc + 1 } lastline

def luaK_fixline (line : Int) : FuncState := savelineinfo (removelastlineinfo fs) line

/-- The loop of `getbaseline`, which has one round for each entry of the table at most. -/
def nextBase (pc : Nat) : Nat → Int → Int
  | 0, i => i
  | k + 1, i =>
    if i + 1 < fs.nabslineinfo ∧ (fs.abslineinfo (i + 1).toNat).pc ≤ pc then nextBase pc k (i + 1) else i

/-- The estimate of `getbaseline`. -/
def estimate (pc : Nat) : Int := (pc / 128 : Nat) - 1

/-- `getbaseline`: `basepc` and the line. -/
def getbaseline (pc : Nat) : Int × Int :=
  if fs.nabslineinfo = 0 ∨ pc < (fs.abslineinfo 0).pc then (-1, fs.linedefined)
  else
    let i := (nextBase fs pc fs.nabslineinfo (estimate pc)).toNat
    ((fs.abslineinfo i).pc, (fs.abslineinfo i).line)

/-- The loop of `luaG_getfuncline`: `k` instructions from behind `basepc`. -/
def addLines : Nat → Int → Int → Int
  | 0, _, baseline => baseline
  | k + 1, basepc, baseline => addLines k (basepc + 1) (baseline + fs.lineinfo (basepc + 1).toNat)

/-- `luaG_getfuncline`, of code that has line information. -/
def luaG_getfuncline (pc : Nat) : Int :=
  let (basepc, baseline) := getbaseline fs pc
  addLines fs (pc - basepc).toNat basepc baseline

/-! ## What is recorded -/

/-- What the code generator does. -/
inductive Op
  | code (lastline : Int)
  | fixline (line : Int)
  | recode (lastline : Int)

/-- There is a last instruction where it is fixed or removed. -/
def exec : Op → Option FuncState
  | .code lastline => some (luaK_code fs lastline)
  | .fixline line => if fs.pc = 0 then none else some (luaK_fixline fs line)
  | .recode lastline => if fs.pc = 0 then none else some (luaK_code (removelastinstruction fs) lastline)

def run : FuncState → List Op → Option FuncState
  | fs, [] => some fs
  | fs, op :: ops => (exec fs op).bind fun fs => run fs ops

/-- The lines of the instructions. -/
def record (lines : List Int) : Op → List Int
  | .code line => lines ++ [line]
  | .fixline line => lines.dropLast ++ [line]
  | .recode line => lines.dropLast ++ [line]

def recorded (ops : List Op) : List Int := ops.foldl record []

/-! ## What is kept -/

variable {fs : FuncState} {lines : List Int}

/-- The line before an instruction, which is the line of the one before. -/
def lineAt (linedefined : Int) (lines : List Int) (i : Nat) : Int := (linedefined :: lines).getD i 0

theorem lineAt_append {linedefined x : Int} {i : Nat} (h : i ≤ lines.length) :
    lineAt linedefined (lines ++ [x]) i = lineAt linedefined lines i := by
  unfold lineAt
  rw [← List.cons_append, List.getD_append _ _ _ _ ?_]
  rw [List.length_cons]
  omega

theorem lineAt_last {linedefined x : Int} : lineAt linedefined (lines ++ [x]) (lines.length + 1) = x := by
  unfold lineAt
  rw [List.getD_cons_succ, List.getD_append_right _ _ _ _ (Nat.le_refl _), Nat.sub_self]
  rfl

/-- Where the entry before the `k`th entry of the table is. -/
def FuncState.base (fs : FuncState) (k : Nat) : Nat := if k = 0 then 0 else (fs.abslineinfo (k - 1)).pc

/-- The code has the lines, where the next instruction is not yet counted. -/
structure Holds (fs : FuncState) (lines : List Int) : Prop where
  pc : fs.pc = lines.length
  delta : ∀ i < fs.pc, fs.lineinfo i = -0x80 ∧ (∃ k < fs.nabslineinfo, (fs.abslineinfo k).pc = i) ∨
    fs.lineinfo i ≠ -0x80 ∧ fs.lineinfo i = lineAt fs.linedefined lines (i + 1) - lineAt fs.linedefined lines i
  abs : ∀ k < fs.nabslineinfo, (fs.abslineinfo k).pc < fs.pc ∧ fs.lineinfo (fs.abslineinfo k).pc = -0x80 ∧
    (fs.abslineinfo k).line = lineAt fs.linedefined lines ((fs.abslineinfo k).pc + 1)
  increasing : ∀ k, k + 1 < fs.nabslineinfo → (fs.abslineinfo k).pc < (fs.abslineinfo (k + 1)).pc
  gap : ∀ k < fs.nabslineinfo, (fs.abslineinfo k).pc ≤ fs.base k + 128

/-- How far the next instruction is from the last entry of the table. -/
structure Counted (fs : FuncState) (lines : List Int) : Prop where
  holds : Holds fs lines
  previousline : fs.previousline = lineAt fs.linedefined lines lines.length
  iwthabs : fs.iwthabs + fs.base fs.nabslineinfo = fs.pc
  iwthabs_le : fs.iwthabs ≤ 128

/-- An instruction can be recorded: the count is right, or the next instruction is put into the table. -/
def Ready (fs : FuncState) (lines : List Int) : Prop :=
  Counted fs lines ∨ Holds fs lines ∧ fs.iwthabs = 129 ∧ fs.pc ≤ fs.base fs.nabslineinfo + 128

theorem asI8_of_lt {z : Int} (h : z.natAbs < 0x80) : asI8 z = z := by
  unfold asI8
  rw [Int.bmod_eq_of_le] <;> omega

theorem base_update {k : Nat} {x : AbsLineInfo} {n : Nat} (h : k ≤ n) {fs' : FuncState}
    (habs : fs'.abslineinfo = Function.update fs.abslineinfo n x) : fs'.base k = fs.base k := by
  unfold FuncState.base
  split
  · rfl
  · rw [habs, Function.update_of_ne (by omega)]

theorem Holds.saveAbs (h : Holds fs lines) (hgap : fs.pc ≤ fs.base fs.nabslineinfo + 128) (line : Int) :
    Counted
      { fs with
        pc := fs.pc + 1
        abslineinfo := Function.update fs.abslineinfo fs.nabslineinfo ⟨fs.pc, line⟩
        nabslineinfo := fs.nabslineinfo + 1
        iwthabs := 1
        lineinfo := Function.update fs.lineinfo fs.pc (asI8 (-0x80))
        previousline := line } (lines ++ [line]) := by
  have hbyte : asI8 (-0x80) = -0x80 := by decide
  set fs' : FuncState :=
    { fs with
      pc := fs.pc + 1
      abslineinfo := Function.update fs.abslineinfo fs.nabslineinfo ⟨fs.pc, line⟩
      nabslineinfo := fs.nabslineinfo + 1
      iwthabs := 1
      lineinfo := Function.update fs.lineinfo fs.pc (asI8 (-0x80))
      previousline := line } with hfs'
  have hold : ∀ k < fs.nabslineinfo, fs'.abslineinfo k = fs.abslineinfo k := fun k hk =>
    Function.update_of_ne (by omega) ..
  have hnew : fs'.abslineinfo fs.nabslineinfo = ⟨fs.pc, line⟩ := Function.update_self ..
  have hinfo : ∀ i < fs.pc, fs'.lineinfo i = fs.lineinfo i := fun i hi => Function.update_of_ne (by omega) ..
  have hlast : fs'.lineinfo fs.pc = -0x80 := by rw [← hbyte]; exact Function.update_self ..
  have hline : ∀ i ≤ fs.pc, lineAt fs.linedefined (lines ++ [line]) i = lineAt fs.linedefined lines i := fun i hi =>
    lineAt_append (h.pc ▸ hi)
  have hend : lineAt fs.linedefined (lines ++ [line]) (fs.pc + 1) = line := by rw [h.pc]; exact lineAt_last
  have hholds : Holds fs' (lines ++ [line]) := by
    refine ⟨?_, fun i hi => ?_, fun k hk => ?_, fun k hk => ?_, fun k hk => ?_⟩
    · rw [List.length_append, ← h.pc]
      rfl
    · rcases Nat.lt_succ_iff_lt_or_eq.mp hi with hi | rfl
      · rw [hinfo i hi]
        rcases h.delta i hi with ⟨hd, k, hk, hpc⟩ | ⟨hd, heq⟩
        · exact .inl ⟨hd, k, Nat.lt_succ_of_lt hk, by rw [hold k hk, hpc]⟩
        · refine .inr ⟨hd, ?_⟩
          show _ = lineAt fs.linedefined _ _ - lineAt fs.linedefined _ _
          rw [hline _ hi, hline _ (Nat.le_of_lt hi), heq]
      · exact .inl ⟨hlast, fs.nabslineinfo, Nat.lt_succ_self _, by rw [hnew]⟩
    · rcases Nat.lt_succ_iff_lt_or_eq.mp hk with hk | rfl
      · obtain ⟨hpc, hd, hl⟩ := h.abs k hk
        rw [hold k hk, hinfo _ hpc]
        refine ⟨Nat.lt_succ_of_lt hpc, hd, ?_⟩
        show _ = lineAt fs.linedefined _ _
        rw [hline _ hpc, hl]
      · rw [hnew]
        exact ⟨Nat.lt_succ_self _, hlast, hend.symm⟩
    · rcases Nat.lt_succ_iff_lt_or_eq.mp hk with hk | hk
      · rw [hold _ hk, hold _ (by omega)]
        exact h.increasing k hk
      · rw [hk, hnew, hold k (by omega)]
        exact (h.abs k (by omega)).1
    · rcases Nat.lt_succ_iff_lt_or_eq.mp hk with hk | rfl
      · rw [hold k hk, base_update (Nat.le_of_lt hk) rfl]
        exact h.gap k hk
      · rw [hnew, base_update (Nat.le_refl _) rfl]
        exact hgap
  refine ⟨hholds, ?_, ?_, (by decide : 1 ≤ 128)⟩
  · show line = _
    rw [List.length_append, ← h.pc]
    exact hend.symm
  · show 1 + fs'.base (fs.nabslineinfo + 1) = fs.pc + 1
    unfold FuncState.base
    rw [if_neg (Nat.succ_ne_zero _), Nat.add_sub_cancel, hnew]
    exact Nat.add_comm 1 fs.pc

theorem Counted.saveDelta (h : Counted fs lines) {line : Int} (hdif : (line - fs.previousline).natAbs < 0x80)
    (hiw : fs.iwthabs < 128) :
    Counted
      { fs with
        pc := fs.pc + 1
        iwthabs := (fs.iwthabs + 1) % 256
        lineinfo := Function.update fs.lineinfo fs.pc (asI8 (line - fs.previousline))
        previousline := line } (lines ++ [line]) := by
  obtain ⟨h, hprev, hcount, -⟩ := h
  have hbyte := asI8_of_lt hdif
  set fs' : FuncState :=
    { fs with
      pc := fs.pc + 1
      iwthabs := (fs.iwthabs + 1) % 256
      lineinfo := Function.update fs.lineinfo fs.pc (asI8 (line - fs.previousline))
      previousline := line } with hfs'
  have hinfo : ∀ i < fs.pc, fs'.lineinfo i = fs.lineinfo i := fun i hi => Function.update_of_ne (by omega) ..
  have hlast : fs'.lineinfo fs.pc = line - fs.previousline := by rw [← hbyte]; exact Function.update_self ..
  have hline : ∀ i ≤ fs.pc, lineAt fs.linedefined (lines ++ [line]) i = lineAt fs.linedefined lines i := fun i hi =>
    lineAt_append (h.pc ▸ hi)
  have hend : lineAt fs.linedefined (lines ++ [line]) (fs.pc + 1) = line := by rw [h.pc]; exact lineAt_last
  have hprev : fs.previousline = lineAt fs.linedefined lines fs.pc := by rw [hprev, h.pc]
  have hiw' : (fs.iwthabs + 1) % 256 = fs.iwthabs + 1 := by omega
  refine ⟨⟨?_, fun i hi => ?_, fun k hk => ?_, h.increasing, h.gap⟩, ?_, ?_, ?_⟩
  · rw [List.length_append, ← h.pc]
    rfl
  · rcases Nat.lt_succ_iff_lt_or_eq.mp hi with hi | rfl
    · rw [hinfo i hi]
      rcases h.delta i hi with hd | ⟨hd, heq⟩
      · exact .inl hd
      · refine .inr ⟨hd, ?_⟩
        show _ = lineAt fs.linedefined _ _ - lineAt fs.linedefined _ _
        rw [hline _ hi, hline _ (Nat.le_of_lt hi), heq]
    · rw [hlast]
      refine .inr ⟨by omega, ?_⟩
      show _ = lineAt fs.linedefined _ _ - lineAt fs.linedefined _ _
      rw [hend, hline _ (Nat.le_refl _), hprev]
  · obtain ⟨hpc, hd, hl⟩ := h.abs k hk
    refine ⟨Nat.lt_succ_of_lt hpc, (hinfo _ hpc).trans hd, ?_⟩
    show _ = lineAt fs.linedefined _ _
    rw [hline _ hpc]
    exact hl
  · show line = _
    rw [List.length_append, ← h.pc]
    exact hend.symm
  · show (fs.iwthabs + 1) % 256 + fs.base fs.nabslineinfo = fs.pc + 1
    omega
  · show (fs.iwthabs + 1) % 256 ≤ 128
    omega

/-- The line of the next instruction is recorded. -/
theorem Ready.save (h : Ready fs lines) (line : Int) :
    Counted (savelineinfo { fs with pc := fs.pc + 1 } line) (lines ++ [line]) := by
  have hholds : Holds fs lines := h.elim Counted.holds And.left
  have hgap : fs.pc ≤ fs.base fs.nabslineinfo + 128 := by
    rcases h with h | ⟨-, -, h⟩
    · have hcount := h.iwthabs
      have hle := h.iwthabs_le
      omega
    · exact h
  unfold savelineinfo needsAbs
  dsimp only
  by_cases hdif : 0x80 ≤ (line - fs.previousline).natAbs
  · rw [if_pos hdif]
    exact hholds.saveAbs hgap line
  · rw [if_neg hdif]
    by_cases hiw : 128 ≤ fs.iwthabs
    · rw [decide_eq_true hiw]
      exact hholds.saveAbs hgap line
    · rw [decide_eq_false hiw]
      rcases h with h | ⟨-, h, -⟩
      · exact h.saveDelta (Nat.lt_of_not_le hdif) (Nat.lt_of_not_le hiw)
      · omega

/-! ## Removal -/

/-- The last instruction is removed. -/
theorem Counted.remove {line : Int} (h : Counted fs (lines ++ [line])) : Ready (removelastinstruction fs) lines := by
  obtain ⟨h, hprev, hcount, hle⟩ := h
  have hpc : fs.pc = lines.length + 1 := by rw [h.pc, List.length_append]; rfl
  have hline : ∀ i ≤ lines.length, lineAt fs.linedefined (lines ++ [line]) i = lineAt fs.linedefined lines i :=
    fun i hi => lineAt_append hi
  have hdelta : ∀ i < lines.length,
      fs.lineinfo i = -0x80 ∧ (∃ k < fs.nabslineinfo, (fs.abslineinfo k).pc = i) ∨
        fs.lineinfo i ≠ -0x80 ∧ fs.lineinfo i = lineAt fs.linedefined lines (i + 1) - lineAt fs.linedefined lines i := by
    intro i hi
    rw [← hline _ hi, ← hline _ (Nat.le_of_lt hi)]
    exact h.delta i (by omega)
  have hlast : fs.pc - 1 = lines.length := by omega
  unfold removelastinstruction removelastlineinfo
  dsimp only
  rw [hlast]
  split
  · rename_i hd
    show Ready { fs with
      pc := fs.pc - 1
      previousline := fs.previousline - fs.lineinfo lines.length
      iwthabs := (fs.iwthabs + 255) % 256 } lines
    rw [hlast]
    -- the instruction is near the one before
    have hd : fs.lineinfo lines.length ≠ -0x80 := hd
    obtain ⟨-, heq⟩ := (h.delta lines.length (by omega)).resolve_left fun hf => hd hf.1
    have habs : ∀ k < fs.nabslineinfo, (fs.abslineinfo k).pc < lines.length := by
      intro k hk
      obtain ⟨hlt, hinfo, -⟩ := h.abs k hk
      have hne : (fs.abslineinfo k).pc ≠ lines.length := fun hf => hd (hf ▸ hinfo)
      omega
    have hbase : fs.base fs.nabslineinfo ≤ lines.length := by
      unfold FuncState.base
      split
      · exact Nat.zero_le _
      · exact Nat.le_of_lt (habs (fs.nabslineinfo - 1) (by omega))
    refine .inl ⟨⟨rfl, hdelta, fun k hk => ?_, h.increasing, h.gap⟩, ?_, ?_, ?_⟩
    · obtain ⟨-, hinfo, hl⟩ := h.abs k hk
      have hlt := habs k hk
      exact ⟨hlt, hinfo, hl.trans (hline _ hlt)⟩
    · show fs.previousline - fs.lineinfo lines.length = _
      rw [heq, hprev, List.length_append, hline _ (Nat.le_refl _)]
      exact Int.sub_sub_self _ _
    · show (fs.iwthabs + 255) % 256 + fs.base fs.nabslineinfo = lines.length
      omega
    · show (fs.iwthabs + 255) % 256 ≤ 128
      omega
  · rename_i hd
    show Ready { fs with pc := fs.pc - 1, nabslineinfo := fs.nabslineinfo - 1, iwthabs := 129 } lines
    rw [hlast]
    -- the instruction is the last one in the table
    have hd : fs.lineinfo lines.length = -0x80 := not_not.mp hd
    obtain ⟨-, k, hk, hkpc⟩ := (h.delta lines.length (by omega)).resolve_right fun hf => hf.1 hd
    have hmono : ∀ j, ∀ i < j, j < fs.nabslineinfo → (fs.abslineinfo i).pc < (fs.abslineinfo j).pc := by
      intro j
      induction j with
      | zero => exact fun i hi => absurd hi (Nat.not_lt_zero i)
      | succ j ih =>
        intro i hi hj
        have hstep := h.increasing j hj
        rcases Nat.lt_succ_iff_lt_or_eq.mp hi with hi | rfl
        · exact Nat.lt_trans (ih i hi (by omega)) hstep
        · exact hstep
    have hk : k + 1 = fs.nabslineinfo := by
      by_contra hne
      have hlt := hmono (k + 1) k (Nat.lt_succ_self k) (by omega)
      have hbound := (h.abs (k + 1) (by omega)).1
      omega
    have habs : ∀ j < k, (fs.abslineinfo j).pc < lines.length := fun j hj => hkpc ▸ hmono k j hj (by omega)
    have hn : fs.nabslineinfo - 1 = k := by omega
    refine .inr ⟨⟨rfl, fun i hi => ?_, fun j hj => ?_, fun j hj => ?_, fun j hj => ?_⟩, rfl, ?_⟩
    · refine (hdelta i hi).imp_left fun ⟨hinfo, j, hj, hjpc⟩ => ⟨hinfo, j, ?_, hjpc⟩
      have hne : j ≠ k := fun hf => by
        rw [hf, hkpc] at hjpc
        exact absurd hjpc (Nat.ne_of_gt hi)
      show j < fs.nabslineinfo - 1
      omega
    · have hj : j < fs.nabslineinfo - 1 := hj
      have hlt := habs j (by omega)
      obtain ⟨-, hinfo, hl⟩ := h.abs j (by omega)
      exact ⟨hlt, hinfo, hl.trans (hline _ hlt)⟩
    · exact h.increasing j (by have hj : j + 1 < fs.nabslineinfo - 1 := hj; omega)
    · exact h.gap j (by have hj : j < fs.nabslineinfo - 1 := hj; omega)
    · show lines.length ≤ fs.base (fs.nabslineinfo - 1) + 128
      rw [hn, ← hkpc]
      exact h.gap k (by omega)

theorem removelast_eq (h : fs.pc ≠ 0) : { removelastinstruction fs with pc := (removelastinstruction fs).pc + 1 } =
    removelastlineinfo fs := by
  have hpc : (removelastlineinfo fs).pc = fs.pc := by
    unfold removelastlineinfo
    dsimp only
    split <;> rfl
  have hsucc : (removelastlineinfo fs).pc - 1 + 1 = (removelastlineinfo fs).pc := by omega
  unfold removelastinstruction
  dsimp only
  rw [hsucc]

/-! ## Runs -/

theorem counted_openFunc (linedefined : Int) : Counted (openFunc linedefined) [] :=
  ⟨⟨rfl, nofun, nofun, nofun, nofun⟩, rfl, rfl, Nat.zero_le _⟩

theorem Counted.exec {op : Op} {fs' : FuncState} (h : Counted fs lines) (hop : exec fs op = some fs') :
    Counted fs' (record lines op) := by
  have hlast : fs.pc ≠ 0 → ∃ init line, lines = init ++ [line] := by
    intro hpc
    rw [h.holds.pc] at hpc
    exact (List.eq_nil_or_concat' lines).resolve_left fun hnil => hpc (hnil ▸ rfl)
  cases op with
  | code line =>
    obtain rfl := Option.some.inj hop
    exact Ready.save (.inl h) line
  | fixline line =>
    have hop : (if fs.pc = 0 then none else some (luaK_fixline fs line)) = some fs' := hop
    split at hop
    · cases hop
    · rename_i hpc
      obtain rfl := Option.some.inj hop
      obtain ⟨init, x, rfl⟩ := hlast hpc
      have hsave := h.remove.save line
      rw [removelast_eq hpc] at hsave
      rwa [record, List.dropLast_concat]
  | recode line =>
    have hop : (if fs.pc = 0 then none else some (luaK_code (removelastinstruction fs) line)) = some fs' := hop
    split at hop
    · cases hop
    · rename_i hpc
      obtain rfl := Option.some.inj hop
      obtain ⟨init, x, rfl⟩ := hlast hpc
      rw [record, List.dropLast_concat]
      exact h.remove.save line

theorem Counted.run {ops : List Op} : ∀ {fs fs' : FuncState} {lines : List Int}, Counted fs lines →
    run fs ops = some fs' → Counted fs' (ops.foldl record lines) := by
  induction ops with
  | nil =>
    intro fs fs' lines h hrun
    obtain rfl := Option.some.inj hrun
    exact h
  | cons op ops ih =>
    intro fs fs' lines h hrun
    obtain ⟨fs₁, hop, hrun⟩ := Option.bind_eq_some_iff.mp hrun
    exact ih (h.exec hop) hrun

/-! ## Reading -/

/-- The entries of the table are not too far apart. -/
theorem Holds.abs_le (h : Holds fs lines) : ∀ k < fs.nabslineinfo, (fs.abslineinfo k).pc ≤ 128 * (k + 1) := by
  intro k
  induction k with
  | zero =>
    intro hk
    have hbase : fs.base 0 = 0 := if_pos rfl
    have hgap := h.gap 0 hk
    omega
  | succ k ih =>
    intro hk
    have hgap := h.gap (k + 1) hk
    have hle := ih (by omega)
    rw [FuncState.base, if_neg (Nat.succ_ne_zero k), Nat.add_sub_cancel] at hgap
    omega

/-- The estimate is that of an entry at or before the instruction. -/
theorem Counted.estimate (h : Counted fs lines) {pc : Nat} (hpc : pc < fs.pc) {i : Nat} (hi : estimate pc = i) :
    i < fs.nabslineinfo ∧ (fs.abslineinfo i).pc ≤ pc := by
  unfold Code.estimate at hi
  have hdiv : 128 * (i + 1) ≤ pc := by omega
  have hn : i < fs.nabslineinfo := by
    by_contra hge
    have hbase : fs.base fs.nabslineinfo ≤ 128 * fs.nabslineinfo := by
      unfold FuncState.base
      split
      · exact Nat.zero_le _
      · have hle := h.holds.abs_le (fs.nabslineinfo - 1) (by omega)
        omega
    have hcount := h.iwthabs
    have hle := h.iwthabs_le
    omega
  exact ⟨hn, Nat.le_trans (h.holds.abs_le i hn) hdiv⟩

theorem nextBase_spec {pc : Nat} (h0 : (fs.abslineinfo 0).pc ≤ pc) (hn : 0 < fs.nabslineinfo) (k : Nat) : ∀ {i : Int},
    -1 ≤ i → (∀ j : Nat, i = j → j < fs.nabslineinfo ∧ (fs.abslineinfo j).pc ≤ pc) → fs.nabslineinfo ≤ i + 1 + k →
    ∃ j : Nat, nextBase fs pc k i = j ∧ j < fs.nabslineinfo ∧ (fs.abslineinfo j).pc ≤ pc ∧
      (j + 1 < fs.nabslineinfo → pc < (fs.abslineinfo (j + 1)).pc) := by
  induction k with
  | zero =>
    intro i hi hj hk
    have hi : i = (i.toNat : Int) := by omega
    obtain ⟨hlt, hle⟩ := hj i.toNat hi
    exact ⟨i.toNat, hi, hlt, hle, fun hlt' => by omega⟩
  | succ k ih =>
    intro i hi hj hk
    unfold nextBase
    split
    · rename_i hnext
      refine ih (by omega) (fun j hij => ?_) (by omega)
      have hj : (i + 1).toNat = j := by omega
      rw [hj] at hnext
      exact ⟨by omega, hnext.2⟩
    · rename_i hnext
      have hi0 : 0 ≤ i := by
        by_contra hneg
        have hi : i = -1 := by omega
        subst hi
        exact hnext ⟨by simpa using hn, h0⟩
      have hi : i = (i.toNat : Int) := by omega
      obtain ⟨hlt, hle⟩ := hj i.toNat hi
      refine ⟨i.toNat, hi, hlt, hle, fun hlt' => ?_⟩
      by_contra hge
      refine hnext ⟨by omega, ?_⟩
      have hnat : (i + 1).toNat = i.toNat + 1 := by omega
      rw [hnat]
      exact Nat.le_of_not_lt hge

/-- The differences of instructions that are not in the table add up. -/
theorem addLines_eq {linedefined : Int} (k : Nat) : ∀ {i : Nat} {basepc baseline : Int}, basepc + 1 = i →
    baseline = lineAt linedefined lines i →
    (∀ j, i ≤ j → j < i + k →
      fs.lineinfo j = lineAt linedefined lines (j + 1) - lineAt linedefined lines j) →
    addLines fs k basepc baseline = lineAt linedefined lines (i + k) := by
  induction k with
  | zero => exact fun _ hline _ => hline
  | succ k ih =>
    intro i basepc baseline hbase hline hdelta
    have hi : (basepc + 1).toNat = i := by omega
    rw [addLines, hi]
    have hd := hdelta i (Nat.le_refl i) (by omega)
    rw [ih (i := i + 1) (by omega) (by rw [hline, hd]; omega) fun j hj hjk => hdelta j (by omega) (by omega)]
    congr 1
    omega

/-- Each instruction has the line that was recorded. -/
theorem Holds.getfuncline (h : Holds fs lines) (hest : ∀ pc < fs.pc, ∀ i : Nat, Code.estimate pc = i →
    i < fs.nabslineinfo ∧ (fs.abslineinfo i).pc ≤ pc) {pc : Nat} (hpc : pc < fs.pc) :
    luaG_getfuncline fs pc = lineAt fs.linedefined lines (pc + 1) := by
  -- an instruction that is not in the table has a difference
  have hdelta : ∀ j < fs.pc, (∀ k < fs.nabslineinfo, (fs.abslineinfo k).pc ≠ j) →
      fs.lineinfo j = lineAt fs.linedefined lines (j + 1) - lineAt fs.linedefined lines j := by
    intro j hj hnone
    rcases h.delta j hj with ⟨-, k, hk, hkpc⟩ | ⟨-, heq⟩
    · exact absurd hkpc (hnone k hk)
    · exact heq
  have hmono : ∀ j, ∀ i ≤ j, j < fs.nabslineinfo → (fs.abslineinfo i).pc ≤ (fs.abslineinfo j).pc := by
    intro j
    induction j with
    | zero =>
      intro i hi _
      obtain rfl := Nat.le_zero.mp hi
      exact Nat.le_refl _
    | succ j ih =>
      intro i hi hj
      have hstep := h.increasing j hj
      rcases Nat.le_succ_iff.mp hi with hi | rfl
      · exact Nat.le_trans (ih i hi (by omega)) (Nat.le_of_lt hstep)
      · exact Nat.le_refl _
  unfold luaG_getfuncline
  by_cases hnone : fs.nabslineinfo = 0 ∨ pc < (fs.abslineinfo 0).pc
  · rw [getbaseline, if_pos hnone]
    have hbefore : ∀ k < fs.nabslineinfo, pc < (fs.abslineinfo k).pc := by
      intro k hk
      rcases hnone with hn | hlt
      · omega
      · exact Nat.lt_of_lt_of_le hlt (hmono k 0 (Nat.zero_le k) hk)
    have hk : ((pc : Int) - -1).toNat = pc + 1 := by omega
    dsimp only
    have hsum : addLines fs (pc + 1) (-1) fs.linedefined = lineAt fs.linedefined lines (0 + (pc + 1)) := by
      refine addLines_eq (i := 0) (pc + 1) rfl rfl fun j _ hj => ?_
      refine hdelta j (by omega) fun k hk hkpc => ?_
      have hlt := hbefore k hk
      omega
    rw [hk, hsum, Nat.zero_add]
  · rw [getbaseline, if_neg hnone]
    obtain ⟨hn, h0⟩ := not_or.mp hnone
    have h0 := Nat.le_of_not_lt h0
    obtain ⟨i, hi, hin, hile, hnext⟩ := nextBase_spec h0 (Nat.pos_of_ne_zero hn) fs.nabslineinfo (i := Code.estimate pc)
      (by unfold Code.estimate; omega) (fun j hj => hest pc hpc j hj) (by unfold Code.estimate; omega)
    rw [hi, Int.toNat_natCast]
    dsimp only
    obtain ⟨hipc, -, hline⟩ := h.abs i hin
    have hk : ((pc : Int) - ((fs.abslineinfo i).pc : Nat)).toNat = pc - (fs.abslineinfo i).pc := by omega
    rw [hk, addLines_eq (i := (fs.abslineinfo i).pc + 1) _ (by omega) hline]
    · congr 1
      omega
    · intro j hj hjk
      refine hdelta j (by omega) fun k hk hkpc => ?_
      rcases Nat.lt_or_ge i k with hik | hki
      · have hlt := hnext (by omega)
        have hle := hmono k (i + 1) hik hk
        omega
      · have hle := hmono i k hki hin
        omega

/-- In every run each instruction has the line that was last recorded for it, and the estimate is never that of an entry
behind the instruction. -/
theorem getfuncline_recorded {linedefined : Int} {ops : List Op} (h : run (openFunc linedefined) ops = some fs) :
    fs.pc = (recorded ops).length ∧ ∀ pc < fs.pc, (recorded ops)[pc]? = some (luaG_getfuncline fs pc) ∧
      ∀ i : Nat, estimate pc = i → i < fs.nabslineinfo ∧ (fs.abslineinfo i).pc ≤ pc := by
  have hcounted := (counted_openFunc linedefined).run h
  have hest : ∀ pc < fs.pc, ∀ i : Nat, estimate pc = i → i < fs.nabslineinfo ∧ (fs.abslineinfo i).pc ≤ pc :=
    fun pc hpc i hi => hcounted.estimate hpc hi
  have hlen : fs.pc = (recorded ops).length := hcounted.holds.pc
  refine ⟨hlen, fun pc hpc => ⟨?_, hest pc hpc⟩⟩
  rw [hcounted.holds.getfuncline hest hpc, lineAt, List.getD_cons_succ]
  rw [hlen] at hpc
  show (recorded ops)[pc]? = some ((recorded ops).getD pc 0)
  rw [List.getD_eq_getElem _ _ hpc, List.getElem?_eq_getElem hpc]

/-- A jump of many lines, a corrected line and a removed instruction. -/
theorem getfuncline_recorded_jump : ∃ fs, run (openFunc 1) [.code 2, .code 500, .recode 3, .code 4, .fixline 900] = some fs ∧
    fs.pc = 3 ∧ ∀ pc < 3, [2, 3, 900][pc]? = some (luaG_getfuncline fs pc) ∧
      ∀ i : Nat, estimate pc = i → i < fs.nabslineinfo ∧ (fs.abslineinfo i).pc ≤ pc := by
  exact ⟨_, rfl, @getfuncline_recorded _ 1 [.code 2, .code 500, .recode 3, .code 4, .fixline 900] rfl⟩

end Tsuki.Code
