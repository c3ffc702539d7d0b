import Mathlib.Data.List.Basic
import Mathlib.Logic.Function.Basic
import Mathlib.Tactic.Ring

/-!
# The stack of a thread

Slots of values, and `moveresults`, which moves the results of a call to where the caller expects them.
-/

namespace Tsuki.Coroutine

variable {V : Type}

/-- A number of results: -1 for all there are, or a fixed number. -/
abbrev Arity := Option Nat

/-- The values cut off or filled up with nil to the number of the arity. -/
def adjust (nil : V) (n : Arity) (vs : List V) : List V :=
  match n with
  | none => vs
  | some n => vs.take n ++ List.replicate (n - vs.length) nil

/-- Values written to the slots from `i` on. -/
def put (s : Nat → V) (i : Nat) : List V → Nat → V
  | [] => s
  | v :: vs => put (Function.update s i v) (i + 1) vs

/-- The `n` values from slot `i` on. -/
def slice (s : Nat → V) (i n : Nat) : List V := (List.range n).map fun k => s (i + k)

/-- The first loop of `moveresults`. -/
def copy (s : Nat → V) (res first : Nat) : Nat → Nat → V
  | 0 => s
  | n + 1 =>
    let s := copy s res first n
    Function.update s (res + n) (s (first + n))

/-- The second loop of `moveresults`, from result `i` on. -/
def fill (nil : V) (s : Nat → V) (res i : Nat) : Nat → Nat → V
  | 0 => s
  | n + 1 => Function.update (fill nil s res i n) (res + i + n) nil

/-- `moveresults`: the slots and the new top. -/
def moveresults (nil : V) (s : Nat → V) (top res nres : Nat) (wanted : Arity) : (Nat → V) × Nat :=
  match wanted with
  | some 0 => (s, res)
  | some 1 => (Function.update s res (if nres = 0 then nil else s (top - nres)), res + 1)
  | wanted =>
    let wanted := wanted.getD nres
    let first := top - nres
    let n := if nres > wanted then wanted else nres
    (fill nil (copy s res first n) res n (wanted - n), res + wanted)

theorem length_adjust (nil : V) (n : Arity) (vs : List V) : (adjust nil n vs).length = n.getD vs.length := by
  cases n with
  | none => rfl
  | some n =>
    rw [adjust, List.length_append, List.length_take, List.length_replicate, Option.getD_some]
    omega

theorem length_slice (s : Nat → V) (i n : Nat) : (slice s i n).length = n := by
  rw [slice, List.length_map, List.length_range]

@[simp] theorem getElem_slice (s : Nat → V) (i n : Nat) {k : Nat} (h : k < (slice s i n).length) :
    (slice s i n)[k] = s (i + k) := by
  simp [slice]

theorem put_of_lt (vs : List V) : ∀ {s : Nat → V} {i j : Nat}, j < i → put s i vs j = s j := by
  induction vs with
  | nil => exact fun _ => rfl
  | cons v vs ih =>
    intro s i j h
    rw [put, ih (by omega), Function.update_of_ne (by omega)]

theorem put_get (vs : List V) : ∀ {s : Nat → V} {i k : Nat} (h : k < vs.length), put s i vs (i + k) = vs[k] := by
  induction vs with
  | nil => exact fun h => absurd h (Nat.not_lt_zero _)
  | cons v vs ih =>
    intro s i k h
    cases k with
    | zero =>
      show put (Function.update s i v) (i + 1) vs i = v
      rw [put_of_lt vs (Nat.lt_succ_self i), Function.update_self]
    | succ k =>
      rw [put, show i + (k + 1) = i + 1 + k by omega, ih (by simpa using h), List.getElem_cons_succ]

theorem slice_put (s : Nat → V) (i : Nat) (vs : List V) : slice (put s i vs) i vs.length = vs := by
  apply List.ext_getElem (length_slice ..)
  intro k h h'
  rw [getElem_slice]
  exact put_get vs h'

theorem slice_put_append (s : Nat → V) (i : Nat) (us vs : List V) :
    slice (put s i (us ++ vs)) (i + us.length) vs.length = vs := by
  apply List.ext_getElem (length_slice ..)
  intro k h h'
  rw [getElem_slice, show i + us.length + k = i + (us.length + k) by omega,
    put_get (us ++ vs) (by rw [List.length_append]; omega), List.getElem_append_right (by omega)]
  simp

theorem copy_spec (s : Nat → V) {res first : Nat} (h : res ≤ first) (n : Nat) :
    (∀ i < n, copy s res first n (res + i) = s (first + i)) ∧
      ∀ j, j < res ∨ res + n ≤ j → copy s res first n j = s j := by
  induction n with
  | zero => exact ⟨fun i hi => absurd hi (Nat.not_lt_zero i), fun _ _ => rfl⟩
  | succ n ih =>
    obtain ⟨hin, hout⟩ := ih
    rw [copy]
    refine ⟨fun i hi => ?_, fun j hj => ?_⟩
    · by_cases hin' : i = n
      · subst hin'
        rw [Function.update_self, hout _ (.inr (by omega))]
      · rw [Function.update_of_ne (by omega), hin i (by omega)]
    · rw [Function.update_of_ne (by omega), hout j (by omega)]

theorem fill_spec (nil : V) (s : Nat → V) (res i n : Nat) :
    (∀ k < n, fill nil s res i n (res + i + k) = nil) ∧
      ∀ j, j < res + i ∨ res + i + n ≤ j → fill nil s res i n j = s j := by
  induction n with
  | zero => exact ⟨fun i hi => absurd hi (Nat.not_lt_zero i), fun _ _ => rfl⟩
  | succ n ih =>
    obtain ⟨hin, hout⟩ := ih
    rw [fill]
    refine ⟨fun k hk => ?_, fun j hj => ?_⟩
    · by_cases hkn : k = n
      · subst hkn
        rw [Function.update_self]
      · rw [Function.update_of_ne (by omega), hin k (by omega)]
    · rw [Function.update_of_ne (by omega), hout j (by omega)]

/-- The results are where they are expected, as many as are expected, and nothing below changes. -/
theorem moveresults_spec (nil : V) (s : Nat → V) {top res nres : Nat} (wanted : Arity) (h : res + nres ≤ top) :
    let r := moveresults nil s top res nres wanted
    r.2 = res + (adjust nil wanted (slice s (top - nres) nres)).length ∧
      slice r.1 res (r.2 - res) = adjust nil wanted (slice s (top - nres) nres) ∧ ∀ j < res, r.1 j = s j := by
  have hlen := length_adjust nil wanted (slice s (top - nres) nres)
  rw [length_slice] at hlen
  -- the loops, for a number of results
  have loops : ∀ w : Nat, w = wanted.getD nres →
      let n := if nres > w then w else nres
      let s' := fill nil (copy s res (top - nres) n) res n (w - n)
      slice s' res w = adjust nil wanted (slice s (top - nres) nres) ∧ ∀ j < res, s' j = s j := by
    intro w hw n s'
    have hn : n ≤ w ∧ n ≤ nres ∧ (n < w → n = nres) := by
      simp only [n]
      split_ifs <;> omega
    obtain ⟨hcopy, hcopy'⟩ := copy_spec s (show res ≤ top - nres by omega) n
    obtain ⟨hfill, hfill'⟩ := fill_spec nil (copy s res (top - nres) n) res n (w - n)
    refine ⟨?_, fun j hj => ?_⟩
    · apply List.ext_getElem
      · rw [length_slice, hlen, hw]
      · intro k hk hk'
        rw [length_slice] at hk
        rw [getElem_slice]
        by_cases hkn : k < n
        · rw [show s' (res + k) = _ from hfill' _ (.inl (by omega)), hcopy k hkn]
          cases wanted with
          | none => simp [adjust, slice]
          | some w' =>
            simp only [adjust]
            rw [List.getElem_append_left (by rw [List.length_take, length_slice]; simp at hw; omega)]
            simp [slice]
        · have hnil : s' (res + k) = nil := by
            have := hfill (k - n) (by omega)
            rwa [show res + n + (k - n) = res + k by omega] at this
          rw [hnil]
          cases wanted with
          | none =>
            simp at hw
            omega
          | some w' =>
            simp only [adjust]
            rw [List.getElem_append_right (by rw [List.length_take, length_slice]; simp at hw; omega)]
            simp
    · rw [show s' j = _ from hfill' j (.inl (by omega)), hcopy' j (.inl hj)]
  have hone : nres ≠ 0 → (slice s (top - nres) nres).take 1 = [s (top - nres)] := by
    intro hpos
    obtain ⟨k, rfl⟩ : ∃ k, nres = k + 1 := ⟨nres - 1, by omega⟩
    simp [slice, List.range_succ_eq_map]
  match wanted, loops, hlen with
  | none, loops, hlen =>
    obtain ⟨hs, hlow⟩ := loops nres rfl
    refine ⟨?_, ?_, hlow⟩
    · rw [hlen]
      rfl
    · rw [show (moveresults nil s top res nres none).2 - res = nres from Nat.add_sub_cancel_left ..]
      exact hs
  | some 0, _, hlen =>
    refine ⟨by rw [hlen]; rfl, ?_, fun _ _ => rfl⟩
    simp [moveresults, adjust, slice]
  | some 1, _, hlen =>
    refine ⟨by rw [hlen]; rfl, ?_, fun j hj => Function.update_of_ne (by omega) ..⟩
    by_cases hz : nres = 0
    · simp [moveresults, adjust, slice, hz]
    · rw [adjust, hone hz, length_slice, show 1 - nres = 0 by omega]
      simp [moveresults, slice, hz]
  | some (w + 2), loops, hlen =>
    obtain ⟨hs, hlow⟩ := loops (w + 2) rfl
    refine ⟨by rw [hlen]; rfl, ?_, hlow⟩
    rw [show (moveresults nil s top res nres (some (w + 2))).2 - res = w + 2 from Nat.add_sub_cancel_left ..]
    exact hs

/-! ## Values in slots -/

section

variable {s s' : Nat → V} {i : Nat} {us vs : List V}

/-- The values are in the slots from `i` on. -/
def At (s : Nat → V) (i : Nat) (vs : List V) : Prop := ∀ k x, vs[k]? = some x → s (i + k) = x

theorem At.slice_eq (h : At s i vs) : slice s i vs.length = vs := by
  apply List.ext_getElem (length_slice ..)
  intro k _ hk
  rw [getElem_slice]
  exact h k _ (List.getElem?_eq_getElem hk)

theorem at_slice (s : Nat → V) (i n : Nat) : At s i (slice s i n) := by
  intro k x hk
  obtain ⟨hlt, rfl⟩ := List.getElem?_eq_some_iff.mp hk
  rw [getElem_slice]

theorem At.congr (h : At s i vs) (hs : ∀ j, i ≤ j → j < i + vs.length → s' j = s j) : At s' i vs := by
  intro k x hk
  obtain ⟨hlt, -⟩ := List.getElem?_eq_some_iff.mp hk
  rw [hs (i + k) (by omega) (by omega)]
  exact h k x hk

theorem at_put (s : Nat → V) (i : Nat) (vs : List V) : At (put s i vs) i vs := by
  intro k x hk
  obtain ⟨hlt, rfl⟩ := List.getElem?_eq_some_iff.mp hk
  exact put_get vs hlt

theorem at_append : At s i (us ++ vs) ↔ At s i us ∧ At s (i + us.length) vs := by
  refine ⟨fun h => ⟨fun k x hk => ?_, fun k x hk => ?_⟩, fun ⟨hus, hvs⟩ k x hk => ?_⟩
  · obtain ⟨hlt, -⟩ := List.getElem?_eq_some_iff.mp hk
    exact h k x (by rw [List.getElem?_append_left hlt, hk])
  · rw [Nat.add_assoc]
    exact h (us.length + k) x (by rw [List.getElem?_append_right (by omega), Nat.add_sub_cancel_left, hk])
  · by_cases hlt : k < us.length
    · rw [List.getElem?_append_left hlt] at hk
      exact hus k x hk
    · rw [List.getElem?_append_right (by omega)] at hk
      have hx := hvs _ x hk
      rwa [show i + us.length + (k - us.length) = i + k by omega] at hx

theorem at_cons {v : V} : At s i (v :: vs) ↔ s i = v ∧ At s (i + 1) vs := by
  rw [← List.singleton_append, at_append]
  refine and_congr_left fun _ => ⟨fun h => h 0 v rfl, fun h k x hk => ?_⟩
  obtain ⟨hlt, rfl⟩ := List.getElem?_eq_some_iff.mp hk
  obtain rfl : k = 0 := Nat.lt_one_iff.mp hlt
  exact h

end

end Tsuki.Coroutine
