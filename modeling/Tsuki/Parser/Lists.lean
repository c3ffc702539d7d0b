import Tsuki.Code.Jumps
import Tsuki.Parser.State

/-!
# The jump lists of the parser

The parser patches the lists of `break` and `goto` with the functions that the code generator patches those of
conditions with. Their two models differ in the instructions that they tell apart: without what only one of them reads,
each step of the one is a step of the other, and so is a list from its first jump to its last.
-/

namespace Tsuki.Parser

/-- The instruction as jump lists see it. -/
def Instr.erase : Instr → Jumps.Instr
  | .jmp sj => .jmp sj
  | .testset a b k => .testset a b k
  | .test a k => .test a k
  | .other true word => .compare word
  | .other false word => .other word
  | .close a | .tbc a | .closure a | .varargprep a | .ret _ a _ _ _ => .other a

section

variable {Name : Type} {ins : List Instr}

/-- The parser does to the code what the code generator does where that has an answer. -/
def Same (x : Rust Jumps.Code) (y : Parse Name (List Instr)) : Prop :=
  match x with
  | .ok code => ∃ ins, y = .ok ins ∧ ins.map Instr.erase = code
  | .error .panic => True
  | .error _ => y = .error .controlStructureTooLong

theorem erase_testTMode (i : Instr) : i.erase.testTMode = i.testTMode := by
  cases i with
  | other tmode word => cases tmode <;> rfl
  | _ => rfl

theorem getjump_erase {pc : Nat} {next : Option Nat} (h : Jumps.getjump (ins.map Instr.erase) pc = .ok next) :
    getjump ins pc = next := by
  rw [Jumps.getjump, List.getElem?_map] at h
  rw [getjump]
  generalize ins[pc]? = i at h
  cases i with
  | none => cases h
  | some i =>
    cases i with
    | jmp sj =>
      rw [Option.map_some, Instr.erase] at h
      dsimp only at h ⊢
      split_ifs at h ⊢
      · exact Except.ok.inj h
      · exact Except.ok.inj h
    | other tmode word => cases tmode <;> cases h
    | _ => cases h

theorem getjump_error {code : Jumps.Code} {pc : Nat} {e : Fault} (h : Jumps.getjump code pc = .error e) :
    e = .panic := by
  rw [Jumps.getjump] at h
  split at h
  · split_ifs at h
    exact (Except.error.inj h).symm
  · exact (Except.error.inj h).symm

theorem Same.bind {x : Rust Jumps.Code} {y : Parse Name (List Instr)} {f : Jumps.Code → Rust Jumps.Code}
    {g : List Instr → Parse Name (List Instr)} (h : Same x y) (hf : ∀ ins, Same (f (ins.map Instr.erase)) (g ins)) :
    Same (x >>= f) (y >>= g) := by
  cases x with
  | ok code =>
    obtain ⟨ins, rfl, rfl⟩ := h
    exact hf ins
  | error e =>
    cases e with
    | panic => trivial
    | _ =>
      rw [show y = .error .controlStructureTooLong from h]
      rfl

theorem fixjump_erase (ins : List Instr) (pc dest : Nat) :
    Same (Jumps.fixjump (ins.map Instr.erase) pc dest) (fixjump ins pc dest : Parse Name (List Instr)) := by
  rw [Jumps.fixjump, List.getElem?_map, fixjump]
  cases ins[pc]? with
  | none => trivial
  | some i =>
    cases i with
    | jmp sj =>
      rw [Option.map_some, Instr.erase]
      dsimp only
      have hbounds : Jumps.Fits pc dest ↔ (-16777215 : Int) ≤ dest - (pc + 1) ∧ (dest : Int) - (pc + 1) ≤ 16777216 :=
        Iff.rfl
      by_cases hfits : Jumps.Fits pc dest
      · rw [if_pos hfits, if_pos (hbounds.mp hfits)]
        exact ⟨_, rfl, List.map_set⟩
      · rw [if_neg hfits, if_neg (mt hbounds.mpr hfits)]
        rfl
    | other tmode word => cases tmode <;> trivial
    | _ => trivial

theorem getjumpcontrol_erase (ins : List Instr) (pc : Nat) :
    Jumps.getjumpcontrol (ins.map Instr.erase) pc = getjumpcontrol ins pc := by
  rw [Jumps.getjumpcontrol, getjumpcontrol, List.getElem?_map]
  cases ins[pc - 1]? with
  | none => exact if_neg nofun
  | some i =>
    rw [Option.map_some, Option.any_some, erase_testTMode]

theorem patchtestreg_erase (ins : List Instr) (node reg : Nat) :
    Jumps.patchtestreg (ins.map Instr.erase) node reg =
      (((patchtestreg ins node reg).getD ins).map Instr.erase, (patchtestreg ins node reg).isSome) := by
  rw [Jumps.patchtestreg, patchtestreg, getjumpcontrol_erase, List.getElem?_map]
  cases ins[getjumpcontrol ins node]? with
  | none => rfl
  | some i =>
    cases i with
    | testset a b k =>
      rw [Option.map_some, Instr.erase]
      dsimp only
      by_cases hreg : reg ≠ noReg ∧ reg ≠ b
      · rw [if_pos hreg, if_pos (show reg ≠ Jumps.noReg ∧ reg ≠ b from hreg), Option.getD_some, List.map_set]
        rfl
      · rw [if_neg hreg, if_neg (show ¬(reg ≠ Jumps.noReg ∧ reg ≠ b) from hreg), Option.getD_some, List.map_set]
        rfl
    | other tmode word => cases tmode <;> rfl
    | _ => rfl

/-- A list is patched by the parser as by the code generator. -/
theorem patchlistaux_erase (vtarget reg dtarget n : Nat) : ∀ (ins : List Instr) (list : Option Nat),
    Same (Jumps.patchlistaux vtarget reg dtarget n (ins.map Instr.erase) list)
      (patchlistaux vtarget reg dtarget n ins list : Parse Name (List Instr)) := by
  induction n with
  | zero =>
    intro ins list
    cases list with
    | none => exact ⟨ins, rfl, rfl⟩
    | some list => trivial
  | succ n ih =>
    intro ins list
    cases list with
    | none => exact ⟨ins, rfl, rfl⟩
    | some list =>
      rw [Jumps.patchlistaux, patchlistaux, patchtestreg_erase]
      cases hnext : Jumps.getjump (ins.map Instr.erase) list with
      | error e => exact getjump_error hnext ▸ trivial
      | ok next =>
        rw [getjump_erase hnext]
        cases patchtestreg ins list reg with
        | none => exact (fixjump_erase ins list dtarget).bind fun ins => ih ins next
        | some patched => exact (fixjump_erase patched list vtarget).bind fun ins => ih ins next

end

end Tsuki.Parser
