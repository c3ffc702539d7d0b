import Mathlib.Data.Nat.Basic
import Mathlib.Tactic.SplitIfs
import Mathlib.Tactic.Ring

/-!
# The vectors of the compiler

`luaM_growaux_` makes room for one more element of a vector, and `luaM_shrinkvector_` cuts a vector at its last
element. The counts are 32-bit numbers and the sizes of blocks 64-bit ones, and a result that does not fit is a panic.
Memory is not exhausted.
-/

namespace Tsuki.Mem

/-- `c_int::MAX` -/
@[irreducible] def intMax : Nat := 2147483647

theorem intMax_eq : intMax = 2147483647 := by
  unfold intMax
  rfl

/-- A `c_int`, none for an overflow. -/
def cInt (x : Int) : Option Int := if -(intMax : Int) - 1 ≤ x ∧ x ≤ intMax then some x else none

/-- `x as usize`, of a `c_int` -/
def asUsize (x : Int) : Nat := (x % 2 ^ 64).toNat

/-- A `usize`, none for an overflow. -/
def usize (x : Nat) : Option Nat := if x < 2 ^ 64 then some x else none

/-- What `luaM_saferealloc_` is asked for: the sizes of the old block and of the new one. -/
structure Realloc where
  old : Nat
  new : Nat

/-- What `luaM_growaux_` answers. -/
inductive Answer
  | kept
  | moved (r : Realloc)
  | limit
  | panic

/-- `luaM_growaux_`: the answer, and the size of the vector. -/
def luaM_growaux_ (nelems psize size_elems limit : Int) : Answer × Int :=
  match cInt (nelems + 1) with
  | none => (.panic, psize)
  | some need =>
    if need ≤ psize then (.kept, psize)
    else
      let grown : Option (Option Int) :=
        if limit.tdiv 2 ≤ psize then
          if limit ≤ psize then some none else some (some limit)
        else (cInt (psize * 2)).map fun size => some (if size < 4 then 4 else size)
      match grown with
      | none => (.panic, psize)
      | some none => (.limit, psize)
      | some (some size) =>
        match usize (asUsize psize * asUsize size_elems), usize (asUsize size * asUsize size_elems) with
        | some old, some new => (.moved ⟨old, new⟩, size)
        | _, _ => (.panic, psize)

/-- `luaM_shrinkvector_`, none for a panic. -/
def luaM_shrinkvector_ (size final_n size_elem : Int) : Option (Realloc × Int) :=
  match cInt (size * size_elem), cInt (final_n * size_elem) with
  | some old, some new => some (⟨asUsize old, asUsize new⟩, final_n)
  | _, _ => none

/-! ## Vectors -/

/-- A vector: the size of its elements, its limit, and how many elements more than it has the compiler counts when it
grows the vector. -/
structure Kind where
  elem : Nat
  limit : Nat
  spare : Nat
  elem_le : elem ≤ intMax
  limit_ge : 4 ≤ limit
  limit_le : limit ≤ intMax
  spare_le : spare ≤ 1

def abslineinfo : Kind := ⟨8, 2147483647, 0, by simp [intMax_eq], by decide, by simp [intMax_eq], by decide⟩

def lineinfo : Kind := ⟨1, 2147483647, 0, by simp [intMax_eq], by decide, by simp [intMax_eq], by decide⟩

def code : Kind := ⟨4, 2147483647, 0, by simp [intMax_eq], by decide, by simp [intMax_eq], by decide⟩

def k : Kind := ⟨16, 2 ^ 25 - 1, 0, by simp [intMax_eq], by decide, by simp [intMax_eq], by decide⟩

def p : Kind := ⟨8, 2 ^ 17 - 1, 0, by simp [intMax_eq], by decide, by simp [intMax_eq], by decide⟩

def locvars : Kind := ⟨16, 32767, 0, by simp [intMax_eq], by decide, by simp [intMax_eq], by decide⟩

def upvalues : Kind := ⟨16, 255, 0, by simp [intMax_eq], by decide, by simp [intMax_eq], by decide⟩

/-- `Labellist`: `dyd.label` and `dyd.gt` -/
def labels : Kind := ⟨24, 32767, 0, by simp [intMax_eq], by decide, by simp [intMax_eq], by decide⟩

/-- `dyd.actvar`: `new_localvar` counts the variable that it is about to add. -/
def actvar : Kind := ⟨24, 32767, 1, by simp [intMax_eq], by decide, by simp [intMax_eq], by decide⟩

/-- A vector while a function is compiled: its elements, its recorded size, and the size of its block. -/
structure Vec where
  n : Nat
  size : Int
  block : Nat

variable (v : Kind)

/-- The vector after an answer. -/
def Vec.after (s : Vec) (size : Int) : Answer → Vec
  | .kept => { s with n := s.n + 1, size }
  | .moved r => ⟨s.n + 1, size, r.new⟩
  | .limit => { s with size }
  | .panic => { s with size }

/-- What `luaM_growaux_` answers to an append. -/
def Vec.grow (s : Vec) : Answer × Int := luaM_growaux_ (s.n + v.spare) s.size v.elem v.limit

/-- An append, up to the write of the element. -/
def Vec.append (s : Vec) : Vec := s.after (s.grow v).2 (s.grow v).1

/-- The states of a vector: elements are appended, and the last ones are removed. -/
inductive Reachable : Vec → Prop
  | start : Reachable ⟨0, 0, 0⟩
  | append {s : Vec} : Reachable s → Reachable (s.append v)
  | remove {s : Vec} (n : Nat) : Reachable s → n ≤ s.n → Reachable { s with n }

/-- What should hold of an answer and the vector after it: there is room for the element and the size keeps to the
limit, or the vector has as many elements as the limit and does not change. -/
def Grew (s s' : Vec) : Answer → Prop
  | .kept => s' = { s with n := s.n + 1 } ∧ s.n < s.size ∧ s.n < v.limit
  | .moved r => s'.n = s.n + 1 ∧ s.n < s'.size ∧ s.size ≤ s'.size ∧ s'.size ≤ v.limit ∧ s.n < v.limit ∧
      r.old = s.block ∧ r.new = s'.block ∧ (s'.block : Int) = s'.size * v.elem
  | .limit => s' = s ∧ s.n = v.limit
  | .panic => False

/-- An append does what it should. -/
def Grows (s : Vec) : Prop := Grew v s (s.append v) (s.grow v).1

/-- `luaM_shrinkvector_` asks for the block to be cut from the size that it has to that of the elements. -/
def Shrinks (s : Vec) : Prop :=
  luaM_shrinkvector_ s.size s.n v.elem = some (⟨s.block, s.n * v.elem⟩, (s.n : Int))

/-! ## Growth -/

theorem cInt_eq {x : Int} (h : -(intMax : Int) - 1 ≤ x ∧ x ≤ intMax) : cInt x = some x := if_pos h

theorem asUsize_natCast {x : Nat} (h : x ≤ intMax) : asUsize x = x := by
  unfold asUsize
  rw [intMax_eq] at h
  omega

theorem usize_mul {x y : Nat} (hx : x ≤ intMax) (hy : y ≤ intMax) : usize (x * y) = some (x * y) := by
  refine if_pos ?_
  calc x * y ≤ intMax * intMax := Nat.mul_le_mul hx hy
    _ < 2 ^ 64 := by rw [intMax_eq]; decide

/-- The size after a growth. -/
def grown (limit size : Nat) : Nat := if limit / 2 ≤ size then limit else max (2 * size) 4

theorem grown_spec {limit size : Nat} (hlimit : 4 ≤ limit) (h : size < limit) :
    size < grown limit size ∧ grown limit size ≤ limit ∧ 4 ≤ grown limit size := by
  unfold grown
  split_ifs <;> omega

/-- Sizes within the limit: a growth overflows in the count of the elements only. -/
theorem luaM_growaux_eq {nelems size elem limit : Nat} (hn : nelems ≤ intMax) (hsize : size ≤ limit)
    (hlimit : 4 ≤ limit) (hlt : limit ≤ intMax) (helem : elem ≤ intMax) :
    luaM_growaux_ nelems size elem limit =
      if nelems = intMax then (.panic, (size : Int))
      else if nelems + 1 ≤ size then (.kept, (size : Int))
      else if limit ≤ size then (.limit, (size : Int))
      else (.moved ⟨size * elem, grown limit size * elem⟩, (grown limit size : Int)) := by
  rw [luaM_growaux_]
  by_cases hover : nelems = intMax
  · rw [if_pos hover, show cInt ((nelems : Int) + 1) = none from if_neg (by omega)]
  rw [if_neg hover, cInt_eq (show -(intMax : Int) - 1 ≤ (nelems : Int) + 1 ∧ (nelems : Int) + 1 ≤ intMax by omega)]
  dsimp only
  by_cases hkept : nelems + 1 ≤ size
  · rw [if_pos hkept, if_pos (by omega)]
  rw [if_neg hkept, if_neg (by omega)]
  have hdiv : (limit : Int).tdiv 2 = (limit / 2 : Nat) := rfl
  by_cases hfull : limit ≤ size
  · rw [if_pos hfull, if_pos (show (limit : Int).tdiv 2 ≤ size by rw [hdiv]; omega), if_pos (by omega)]
  have hspec := grown_spec hlimit (Nat.lt_of_not_le hfull)
  have hgrown : (if (limit : Int).tdiv 2 ≤ size then
      if (limit : Int) ≤ size then some none else some (some (limit : Int))
      else (cInt ((size : Int) * 2)).map fun size => some (if size < 4 then 4 else size)) =
      some (some (grown limit size : Int)) := by
    unfold grown
    by_cases hhalf : limit / 2 ≤ size
    · rw [if_pos (show (limit : Int).tdiv 2 ≤ size by rw [hdiv]; omega), if_neg (by omega), if_pos hhalf]
    · rw [if_neg (show ¬(limit : Int).tdiv 2 ≤ size by rw [hdiv]; omega), if_neg hhalf, cInt_eq (by omega),
        Option.map_some]
      congr 2
      by_cases h4 : (size : Int) * 2 < 4
      · rw [if_pos h4]
        omega
      · rw [if_neg h4]
        omega
  rw [if_neg hfull, hgrown]
  dsimp only
  rw [asUsize_natCast (show size ≤ intMax by omega), asUsize_natCast (show elem ≤ intMax by omega),
    asUsize_natCast (show grown limit size ≤ intMax by omega), usize_mul (by omega) helem, usize_mul (by omega) helem]

/-! ## Reachable vectors -/

/-- What every reachable vector has: room for its elements, and a block of its size. -/
structure Inv (s : Vec) (size : Nat) : Prop where
  recorded : s.size = size
  le : size ≤ v.limit
  room : s.n = 0 ∨ s.n + v.spare ≤ size
  block : s.block = size * v.elem

variable {v}

theorem Inv.count_le {s : Vec} {size : Nat} (h : Inv v s size) : s.n + v.spare ≤ intMax := by
  have := h.le
  have := v.limit_ge
  have := v.limit_le
  have := v.spare_le
  rcases h.room with h0 | h0 <;> omega

/-- What `luaM_growaux_` answers, by the number of elements and the size. -/
theorem Inv.grow_eq {s : Vec} {size : Nat} (h : Inv v s size) :
    s.grow v =
      if s.n + v.spare = intMax then (.panic, s.size)
      else if s.n + v.spare + 1 ≤ size then (.kept, s.size)
      else if v.limit ≤ size then (.limit, s.size)
      else (.moved ⟨s.block, grown v.limit size * v.elem⟩, (grown v.limit size : Int)) := by
  have heq := luaM_growaux_eq h.count_le h.le v.limit_ge v.limit_le v.elem_le
  rw [Vec.grow, h.recorded, ← Int.natCast_add, heq, h.block]

theorem Inv.append {s : Vec} {size : Nat} (h : Inv v s size) : ∃ size', Inv v (s.append v) size' := by
  have hspare := v.spare_le
  have hle := h.le
  rw [Vec.append, h.grow_eq]
  by_cases hover : s.n + v.spare = intMax
  · rw [if_pos hover]
    exact ⟨size, h⟩
  rw [if_neg hover]
  by_cases hkept : s.n + v.spare + 1 ≤ size
  · rw [if_pos hkept]
    exact ⟨size, h.recorded, h.le, .inr (show s.n + 1 + v.spare ≤ size by omega), h.block⟩
  rw [if_neg hkept]
  by_cases hfull : v.limit ≤ size
  · rw [if_pos hfull]
    exact ⟨size, h⟩
  rw [if_neg hfull]
  obtain ⟨hlt, hlimit, hfour⟩ := grown_spec v.limit_ge (Nat.lt_of_not_le hfull)
  refine ⟨grown v.limit size, rfl, hlimit, .inr ?_, rfl⟩
  show s.n + 1 + v.spare ≤ grown v.limit size
  rcases h.room with h0 | h0 <;> omega

theorem Reachable.inv {s : Vec} (h : Reachable v s) : ∃ size, Inv v s size := by
  induction h with
  | start => exact ⟨0, rfl, Nat.zero_le _, .inl rfl, (Nat.zero_mul _).symm⟩
  | append _ ih =>
    obtain ⟨size, h⟩ := ih
    exact h.append
  | remove n _ hn ih =>
    obtain ⟨size, h⟩ := ih
    refine ⟨size, h.recorded, h.le, ?_, h.block⟩
    rcases h.room with h0 | h0
    · exact .inl (show n = 0 by omega)
    · exact .inr (show n + v.spare ≤ size by omega)

/-! ## Appends -/

theorem Inv.grows_iff {s : Vec} {size : Nat} (h : Inv v s size) :
    Grows v s ↔ s.n + v.spare ≠ intMax ∧ (v.spare = 0 ∨ s.n + 1 ≠ v.limit) := by
  have hspare := v.spare_le
  have hle := h.le
  have hge := v.limit_ge
  have hlt := v.limit_le
  rw [Grows, Vec.append, h.grow_eq]
  by_cases hover : s.n + v.spare = intMax
  · rw [if_pos hover]
    exact ⟨fun h => h.elim, fun h => absurd hover h.1⟩
  rw [if_neg hover]
  by_cases hkept : s.n + v.spare + 1 ≤ size
  · rw [if_pos hkept]
    refine ⟨fun _ => ⟨hover, by omega⟩, fun _ => ⟨rfl, ?_, by omega⟩⟩
    rw [h.recorded]
    omega
  rw [if_neg hkept]
  by_cases hfull : v.limit ≤ size
  · rw [if_pos hfull]
    have hroom : s.n + v.spare = size := by
      rcases h.room with h0 | h0 <;> omega
    exact ⟨fun h => ⟨hover, by have := h.2; omega⟩, fun h => ⟨rfl, by omega⟩⟩
  rw [if_neg hfull]
  obtain ⟨hgrow, hlimit, hfour⟩ := grown_spec hge (Nat.lt_of_not_le hfull)
  have hn : s.n < grown v.limit size ∧ s.n < v.limit ∧ s.n + v.spare + 1 ≤ v.limit := by
    rcases h.room with h0 | h0 <;> omega
  refine ⟨fun _ => ⟨hover, by omega⟩, fun _ => ⟨rfl, ?_, ?_, ?_, hn.2.1, rfl, rfl, ?_⟩⟩
  · show (s.n : Int) < (grown v.limit size : Int)
    omega
  · rw [h.recorded]
    show (size : Int) ≤ (grown v.limit size : Int)
    omega
  · show (grown v.limit size : Int) ≤ v.limit
    omega
  · exact Int.natCast_mul _ _

/-! ## Cuts -/

theorem Inv.shrinks_iff {s : Vec} {size : Nat} (h : Inv v s size) : Shrinks v s ↔ size * v.elem ≤ intMax := by
  have hnle : s.n ≤ size := by
    rcases h.room with h0 | h0 <;> omega
  have hmul : s.n * v.elem ≤ size * v.elem := Nat.mul_le_mul_right _ hnle
  rw [Shrinks, luaM_shrinkvector_, h.recorded, ← Int.natCast_mul, ← Int.natCast_mul]
  by_cases hlt : size * v.elem ≤ intMax
  · rw [cInt_eq (by omega), cInt_eq (by omega)]
    dsimp only
    rw [asUsize_natCast (by omega), asUsize_natCast (by omega), h.block]
    exact ⟨fun _ => hlt, fun _ => rfl⟩
  · rw [show cInt ((size * v.elem : Nat) : Int) = none from if_neg (by omega)]
    exact ⟨fun h => (by cases h), fun h => absurd h hlt⟩

/-- In every reachable state of every vector: an append does what it should, unless its count overflows or it has an
element less than the limit and counts one more; and a cut does, unless the size of the block does not fit 31 bits. -/
theorem vectors_iff (v : Kind) (s : Vec) (h : Reachable v s) :
    (Grows v s ↔ s.n + v.spare ≠ intMax ∧ (v.spare = 0 ∨ s.n + 1 ≠ v.limit)) ∧
      (Shrinks v s ↔ s.size * v.elem ≤ intMax) := by
  obtain ⟨size, hinv⟩ := h.inv
  refine ⟨hinv.grows_iff, hinv.shrinks_iff.trans ?_⟩
  rw [hinv.recorded, ← Int.natCast_mul]
  omega

/-- The code of a function after eight instructions, which fill it: the next one doubles it. -/
theorem vectors_iff_full : Grows code ⟨8, 8, 32⟩ ∧ Shrinks code ⟨8, 8, 32⟩ := by
  have hreach (n : Nat) : Reachable code ((Vec.append code)^[n] ⟨0, 0, 0⟩) := by
    induction n with
    | zero => exact .start
    | succ n ih =>
      rw [Function.iterate_succ_apply']
      exact ih.append
  have hfull : (Vec.append code)^[8] ⟨0, 0, 0⟩ = ⟨8, 8, 32⟩ := by with_unfolding_all rfl
  obtain ⟨hgrows, hshrinks⟩ := vectors_iff code ⟨8, 8, 32⟩ (hfull ▸ hreach 8)
  refine ⟨hgrows.mpr ⟨?_, .inl rfl⟩, hshrinks.mpr ?_⟩
  · rw [intMax_eq]
    decide
  · rw [intMax_eq]
    decide

/-- Appends fill a vector up to its size. -/
theorem Inv.fill (hspare : v.spare = 0) {s : Vec} {size : Nat} (h : Inv v s size) (hs : Reachable v s) (m : Nat)
    (hm : s.n + m ≤ size) : ∃ s', Reachable v s' ∧ Inv v s' size ∧ s'.n = s.n + m := by
  induction m with
  | zero => exact ⟨s, hs, h, rfl⟩
  | succ m ih =>
    obtain ⟨s', hs', h', hn⟩ := ih (by omega)
    have hle := h'.le
    have hlimit := v.limit_le
    refine ⟨s'.append v, hs'.append, ?_⟩
    rw [Vec.append, h'.grow_eq, if_neg (by omega), if_pos (by omega)]
    exact ⟨⟨h'.recorded, h'.le, .inr (show s'.n + 1 + v.spare ≤ size by omega), h'.block⟩,
      show s'.n + 1 = s.n + (m + 1) by omega⟩

theorem reachable_double (hspare : v.spare = 0) {size : Nat} (hhalf : size < v.limit / 2)
    (h : ∃ s, Reachable v s ∧ Inv v s size) : ∃ s, Reachable v s ∧ Inv v s (max (2 * size) 4) := by
  obtain ⟨s, hs, hinv⟩ := h
  have hroom : s.n ≤ size := by
    rcases hinv.room with h0 | h0 <;> omega
  obtain ⟨s', hs', h', hn⟩ := hinv.fill hspare hs (size - s.n) (by omega)
  have hlimit := v.limit_le
  have hge := v.limit_ge
  have hgrown : grown v.limit size = max (2 * size) 4 := if_neg (by omega)
  refine ⟨s'.append v, hs'.append, ?_⟩
  rw [Vec.append, h'.grow_eq, if_neg (by omega), if_neg (by omega), if_neg (by omega), hgrown]
  exact ⟨rfl, by omega, .inr (show s'.n + 1 + v.spare ≤ max (2 * size) 4 by omega), rfl⟩

/-- The code of a function with `2 ^ 28 + 1` instructions has a block of `2 ^ 31` bytes, whose size overflows when it is
cut. -/
theorem code_not_cut : ∃ s, Reachable code s ∧ s.size = 2 ^ 29 ∧ ¬Shrinks code s := by
  have hgrow (k : Nat) (hk : k ≤ 27) : ∃ s, Reachable code s ∧ Inv code s (4 * 2 ^ k) := by
    induction k with
    | zero =>
      exact reachable_double rfl (show 0 < code.limit / 2 by decide)
        ⟨_, .start, rfl, Nat.zero_le _, .inl rfl, (Nat.zero_mul _).symm⟩
    | succ k ih =>
      have hpow : 2 ^ k ≤ 2 ^ 26 := Nat.pow_le_pow_right (by decide) (by omega)
      have hpos : 1 ≤ 2 ^ k := Nat.one_le_two_pow
      have h := reachable_double rfl (show 4 * 2 ^ k < code.limit / 2 by show _ < 2147483647 / 2; omega) (ih (by omega))
      rwa [Nat.max_eq_left (by omega), show 2 * (4 * 2 ^ k) = 4 * 2 ^ (k + 1) by rw [Nat.pow_succ]; omega] at h
  obtain ⟨s, hs, hinv⟩ := hgrow 27 le_rfl
  refine ⟨s, hs, hinv.recorded, fun h => ?_⟩
  have hle := hinv.shrinks_iff.mp h
  rw [intMax_eq] at hle
  exact absurd hle (by decide)

end Tsuki.Mem
