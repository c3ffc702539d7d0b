import Mathlib.Logic.Function.Basic
import Tsuki.Lex.ReadString
import Tsuki.Lib.Utf8Decode

/-!
# The buffer of an escape

`luaO_utf8esc` fills a buffer of eight bytes from its end, and `utf8esc` saves what it filled. The bytes are the
shortest extended UTF-8 encoding of the number. Each turn of the loop writes six bits of the number to the byte
before, and narrows what the first byte can hold; the invariant says what the bytes behind the place are, for what is
left of the number.
-/

namespace Tsuki.Lex

abbrev Buff := Fin 8 → UInt8

/-- `*buff.offset(8 - n) = b`, none outside of the buffer. -/
def Buff.set (buff : Buff) (n : Nat) (b : UInt8) : Option Buff :=
  if h : 1 ≤ n ∧ n ≤ 8 then some (Function.update buff ⟨8 - n, by omega⟩ b) else none

/-- The loop of `luaO_utf8esc`, with the byte after it. -/
def Buff.escLoop (buff : Buff) (n x mfb : Nat) : Option (Buff × Nat) :=
  match buff.set n (.ofNat (0x80 ||| (x &&& 0x3f))) with
  | none => none
  | some buff =>
    if mfb >>> 1 < x >>> 6 then buff.escLoop (n + 1) (x >>> 6) (mfb >>> 1)
    else
      match buff.set (n + 1) (.ofNat (((2 ^ 32 - 1 - mfb >>> 1) <<< 1) % 2 ^ 32 ||| (x >>> 6))) with
      | none => none
      | some buff => some (buff, n + 1)
termination_by x
decreasing_by
  rename_i h
  rw [Nat.shiftRight_eq_div_pow] at h ⊢
  omega

/-- `luaO_utf8esc`: the buffer and the number of bytes. -/
def Buff.luaO_utf8esc (buff : Buff) (x : Nat) : Option (Buff × Nat) :=
  if x < 0x80 then (buff.set 1 (.ofNat x)).map fun buff => (buff, 1) else buff.escLoop 1 x 0x3f

/-- The loop of `utf8esc`: the bytes that it saves. -/
def Buff.saved (buff : Buff) : Nat → Bytes
  | 0 => []
  | n + 1 => buff (Fin.ofNat 8 (8 - (n + 1))) :: buff.saved n

section

variable {buff buff' : Buff} {n : Nat} {b : UInt8}

theorem Buff.set_eq (h : 1 ≤ n) (h' : n ≤ 8) (b : UInt8) :
    buff.set n b = some (Function.update buff (Fin.ofNat 8 (8 - n)) b) := by
  have hfin : (⟨8 - n, by omega⟩ : Fin 8) = Fin.ofNat 8 (8 - n) :=
    Fin.ext (Nat.mod_eq_of_lt (show 8 - n < 8 by omega)).symm
  rw [Buff.set, dif_pos ⟨h, h'⟩, hfin]

theorem Buff.update_ne {i j : Nat} (hi : i < 8) (hj : j < 8) (hne : i ≠ j) (b : UInt8) :
    Function.update buff (Fin.ofNat 8 i) b (Fin.ofNat 8 j) = buff (Fin.ofNat 8 j) := by
  refine Function.update_of_ne (fun h => hne ?_) _ _
  have hval : j % 8 = i % 8 := congrArg Fin.val h
  omega

/-- A byte before those that are saved is not one of them. -/
theorem Buff.saved_update {i : Nat} (hi : i + n < 8) (b : UInt8) :
    Buff.saved (Function.update buff (Fin.ofNat 8 i) b) n = buff.saved n := by
  induction n with
  | zero => rfl
  | succ n ih => rw [Buff.saved, Buff.update_ne (by omega) (by omega) (by omega), ih (by omega), Buff.saved]

theorem Buff.saved_set (h : n < 8) (b : UInt8) :
    Buff.saved (Function.update buff (Fin.ofNat 8 (8 - (n + 1))) b) (n + 1) = b :: buff.saved n := by
  rw [Buff.saved, Function.update_self, Buff.saved_update (by omega)]

theorem Buff.length_saved (n : Nat) : (buff.saved n).length = n := by
  induction n with
  | zero => rfl
  | succ n ih => rw [Buff.saved, List.length_cons, ih]

/-- The loop fills the buffer with the bytes of its model in lists, and needs no more room than the number has groups
of six bits. -/
theorem Buff.escLoop_spec (k : Nat) : ∀ (buff : Buff) (n mfb : Nat) {x : Nat}, x < 64 ^ k → 1 ≤ k → n + k < 8 →
    ∃ buff' n', buff.escLoop (n + 1) x mfb = some (buff', n') ∧ n + 1 < n' ∧ n' ≤ 8 ∧
      (∀ room, k ≤ room → buff'.saved n' = luaO_utf8escLoop room x mfb (buff.saved n)) ∧
      ∀ i : Fin 8, i.val < 8 - n' → buff' i = buff i := by
  induction k with
  | zero => exact fun _ _ _ _ _ h => absurd h (by decide)
  | succ k ih =>
    intro buff n mfb x hx _ hn
    have hkeep {buff : Buff} {m : Nat} (hm : 1 ≤ m) (hm' : m ≤ 8) (b : UInt8) (i : Fin 8) (hi : i.val < 8 - m) :
        Function.update buff (Fin.ofNat 8 (8 - m)) b i = buff i := by
      refine Function.update_of_ne (fun h => ?_) _ _
      have hval : i.val = (8 - m) % 8 := congrArg Fin.val h
      omega
    rw [Buff.escLoop, Buff.set_eq (by omega) (by omega)]
    dsimp only
    by_cases hmfb : mfb >>> 1 < x >>> 6
    · rw [if_pos hmfb]
      have hx' : x >>> 6 < 64 ^ k := by
        rw [Nat.shiftRight_eq_div_pow]
        rw [Nat.pow_succ] at hx
        omega
      have hk : 1 ≤ k := by
        rcases Nat.eq_zero_or_pos k with rfl | hk
        · omega
        · exact hk
      obtain ⟨buff', n', hrun, h1, h8, hsaved, hrest⟩ := ih _ _ _ hx' hk (show n + 1 + k < 8 by omega)
      refine ⟨buff', n', hrun, by omega, h8, fun room hroom => ?_, fun i hi => ?_⟩
      · obtain ⟨room, rfl⟩ : ∃ r, room = r + 1 := ⟨room - 1, by omega⟩
        rw [hsaved room (by omega), Buff.saved_set (by omega), luaO_utf8escLoop]
        exact (if_pos hmfb).symm
      · rw [hrest i hi, hkeep (by omega) (by omega) _ i (by omega)]
    · rw [if_neg hmfb, Buff.set_eq (by omega) (by omega)]
      refine ⟨_, _, rfl, by omega, by omega, fun room hroom => ?_, fun i hi => ?_⟩
      · obtain ⟨room, rfl⟩ : ∃ r, room = r + 1 := ⟨room - 1, by omega⟩
        rw [show n + 1 + 1 = n + 1 + 1 from rfl, Buff.saved_set (by omega), Buff.saved_set (by omega), luaO_utf8escLoop]
        exact (if_neg hmfb).symm
      · rw [hkeep (by omega) (by omega) _ i hi, hkeep (by omega) (by omega) _ i (by omega)]

end

/-- The bytes that `utf8esc` saves are the encoding. -/
theorem Buff.luaO_utf8esc_eq (buff : Buff) {x : Nat} (hx : x < 2 ^ 31) :
    ∃ buff' n, buff.luaO_utf8esc x = some (buff', n) ∧ buff'.saved n = Utf8.encode x ∧
      ∀ i : Fin 8, i.val < 8 - n → buff' i = buff i := by
  by_cases h : x < 0x80
  · refine ⟨Function.update buff (Fin.ofNat 8 7) (.ofNat x), 1, ?_, ?_, fun i hi => ?_⟩
    · rw [Buff.luaO_utf8esc, if_pos h, Buff.set_eq (by decide) (by decide)]
      rfl
    · rw [Utf8.encode, if_pos h]
      exact Buff.saved_set (by decide) _
    · refine Function.update_of_ne (fun heq => ?_) _ _
      have hval : i.val = 7 := congrArg Fin.val heq
      omega
  · obtain ⟨buff', n, hrun, _, _, hsaved, hrest⟩ :=
      Buff.escLoop_spec 6 buff 0 0x3f (show x < 64 ^ 6 by omega) (by decide) (by decide)
    refine ⟨buff', n, ?_, ?_, hrest⟩
    · rw [Buff.luaO_utf8esc, if_neg h, hrun]
    · rw [← Lex.luaO_utf8esc_eq hx, Lex.luaO_utf8esc, if_neg h]
      exact hsaved 8 (by decide)

/-- The escape of a number below `2 ^ 31` is its shortest extended UTF-8 encoding, in at most six bytes at the end of
the buffer; no other number has an encoding that it begins, and for a character it is that of the standard library. -/
theorem luaO_utf8esc_exact (buff : Buff) (x : Nat) (hx : x < 2 ^ 31) :
    ∃ buff' n, buff.luaO_utf8esc x = some (buff', n) ∧ 1 ≤ n ∧ n ≤ 6 ∧ (buff'.saved n).length = n ∧
      (∀ i : Fin 8, i.val < 8 - n → buff' i = buff i) ∧
      (∀ t, Utf8.decode (buff'.saved n ++ t) = some (x, t)) ∧
      (∀ s t, Utf8.decode s = some (x, t) → n + t.length ≤ s.length) ∧
      (∀ y < 2 ^ 31, ∀ buff₂ buff₂' m, Buff.luaO_utf8esc buff₂ y = some (buff₂', m) →
        buff'.saved n <+: buff₂'.saved m → x = y) ∧
      ∀ c : Char, c.toNat = x → buff'.saved n = String.utf8EncodeChar c := by
  obtain ⟨buff', n, hrun, hsaved, hrest⟩ := buff.luaO_utf8esc_eq hx
  have hlen : n = (Utf8.encode x).length := by rw [← hsaved, Buff.length_saved]
  obtain ⟨h1, h6⟩ := Utf8.length_encode x
  refine ⟨buff', n, hrun, by omega, by omega, Buff.length_saved n, hrest, fun t => ?_, fun s t hdecode => ?_, ?_,
    fun c hc => ?_⟩
  · rw [hsaved]
    exact Utf8.decode_encode hx t
  · rw [hlen]
    exact Utf8.length_encode_minimal hx hdecode
  · intro y hy buff₂ buff₂' m hrun₂ ⟨t, ht⟩
    obtain ⟨buff₃, k, hrun₃, hsaved₃, _⟩ := buff₂.luaO_utf8esc_eq hy
    rw [hrun₂] at hrun₃
    cases hrun₃
    rw [hsaved, hsaved₃] at ht
    exact Utf8.encode_inj_of_append hx hy ht
  · rw [hsaved, ← hc]
    exact Utf8.encode_char c

/-- The euro sign. -/
theorem luaO_utf8esc_exact_euro :
    ∃ buff' n, Buff.luaO_utf8esc (fun _ => 0) 0x20AC = some (buff', n) ∧ n ≤ 6 ∧
      (∀ t, Utf8.decode (buff'.saved n ++ t) = some (0x20AC, t)) ∧ buff'.saved n = String.utf8EncodeChar '€' := by
  obtain ⟨buff', n, hrun, _, h6, _, _, hdecode, _, _, hchar⟩ := luaO_utf8esc_exact (fun _ => 0) 0x20AC (by decide)
  exact ⟨buff', n, hrun, h6, hdecode, hchar '€' rfl⟩

end Tsuki.Lex
