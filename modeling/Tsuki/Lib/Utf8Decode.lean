import Tsuki.Lib.Utf8

/-!
# Decoding extended UTF-8

The first byte says how many continuation bytes follow, and each of these has six bits. Decoding inverts the encoding,
whatever follows it, so that no encoding begins another one; and no bytes that decode to a number are fewer than those
of its encoding.
-/

namespace Tsuki.Utf8

/-- The number of continuation bytes after a first byte, and the bits that it has of the number. -/
def lead (a : UInt8) : Option (Nat × Nat) :=
  if a.toNat < 0x80 then some (0, a.toNat)
  else if a.toNat < 0xC0 then none
  else if a.toNat < 0xE0 then some (1, a.toNat - 0xC0)
  else if a.toNat < 0xF0 then some (2, a.toNat - 0xE0)
  else if a.toNat < 0xF8 then some (3, a.toNat - 0xF0)
  else if a.toNat < 0xFC then some (4, a.toNat - 0xF8)
  else if a.toNat < 0xFE then some (5, a.toNat - 0xFC)
  else none

/-- The groups of six bits of `n` continuation bytes, after the bits `x`. -/
def groups : Nat → Nat → List UInt8 → Option (Nat × List UInt8)
  | 0, x, s => some (x, s)
  | _ + 1, _, [] => none
  | n + 1, x, b :: s => if Tail b then groups n (x * 64 + (b.toNat - 0x80)) s else none

/-- The first number of a text, and the rest of it. -/
def decode : List UInt8 → Option (Nat × List UInt8)
  | [] => none
  | a :: s => (lead a).bind fun (n, x) => groups n x s

/-- The numbers that `n` bytes can represent are those below this one. -/
def limit (n : Nat) : Nat := if n ≤ 1 then 0x80 else 2 ^ (5 * n + 1)

@[simp] theorem groups_zero (x : Nat) (s : List UInt8) : groups 0 x s = some (x, s) := rfl

theorem groups_tail (n x y : Nat) (s : List UInt8) : groups (n + 1) x (tail y :: s) = groups n (x * 64 + y % 64) s := by
  rw [groups, if_pos (Tail.of_tail y), toNat_tail, Nat.add_sub_cancel_left]

theorem toNat_ofNat_lt {n : Nat} (h : n < 0x100) : (UInt8.ofNat n).toNat = n := by
  rw [UInt8.toNat_ofNat']
  exact Nat.mod_eq_of_lt h

/-- Decoding inverts the encoding, whatever follows. -/
theorem decode_encode {x : Nat} (hx : x < 2 ^ 31) (t : List UInt8) : decode (encode x ++ t) = some (x, t) := by
  unfold encode
  split_ifs with h1 h2 h3 h4 h5
  · have hn := toNat_ofNat_lt (show x < 0x100 by omega)
    rw [List.cons_append, decode, lead, hn, if_pos h1]
    rfl
  · have hn := toNat_ofNat_lt (show 0xC0 + x / 2 ^ 6 < 0x100 by omega)
    rw [List.cons_append, decode, lead, hn, if_neg (by omega), if_neg (by omega), if_pos (by omega)]
    dsimp only [Option.bind_some, List.cons_append, List.nil_append]
    rw [groups_tail, groups_zero, show (0xC0 + x / 2 ^ 6 - 0xC0) * 64 + x % 64 = x by omega]
  · have hn := toNat_ofNat_lt (show 0xE0 + x / 2 ^ 12 < 0x100 by omega)
    rw [List.cons_append, decode, lead, hn, if_neg (by omega), if_neg (by omega), if_neg (by omega), if_pos (by omega)]
    dsimp only [Option.bind_some, List.cons_append, List.nil_append]
    rw [groups_tail, groups_tail, groups_zero,
      show ((0xE0 + x / 2 ^ 12 - 0xE0) * 64 + x / 2 ^ 6 % 64) * 64 + x % 64 = x by omega]
  · have hn := toNat_ofNat_lt (show 0xF0 + x / 2 ^ 18 < 0x100 by omega)
    rw [List.cons_append, decode, lead, hn, if_neg (by omega), if_neg (by omega), if_neg (by omega), if_neg (by omega),
      if_pos (by omega)]
    dsimp only [Option.bind_some, List.cons_append, List.nil_append]
    rw [groups_tail, groups_tail, groups_tail, groups_zero, show (((0xF0 + x / 2 ^ 18 - 0xF0) * 64 +
      x / 2 ^ 12 % 64) * 64 + x / 2 ^ 6 % 64) * 64 + x % 64 = x by omega]
  · have hn := toNat_ofNat_lt (show 0xF8 + x / 2 ^ 24 < 0x100 by omega)
    rw [List.cons_append, decode, lead, hn, if_neg (by omega), if_neg (by omega), if_neg (by omega), if_neg (by omega),
      if_neg (by omega), if_pos (by omega)]
    dsimp only [Option.bind_some, List.cons_append, List.nil_append]
    rw [groups_tail, groups_tail, groups_tail, groups_tail, groups_zero, show ((((0xF8 + x / 2 ^ 24 - 0xF8) * 64 +
      x / 2 ^ 18 % 64) * 64 + x / 2 ^ 12 % 64) * 64 + x / 2 ^ 6 % 64) * 64 + x % 64 = x by omega]
  · have hn := toNat_ofNat_lt (show 0xFC + x / 2 ^ 30 < 0x100 by omega)
    rw [List.cons_append, decode, lead, hn, if_neg (by omega), if_neg (by omega), if_neg (by omega), if_neg (by omega),
      if_neg (by omega), if_neg (by omega), if_pos (by omega)]
    dsimp only [Option.bind_some, List.cons_append, List.nil_append]
    rw [groups_tail, groups_tail, groups_tail, groups_tail, groups_tail, groups_zero,
      show (((((0xFC + x / 2 ^ 30 - 0xFC) * 64 + x / 2 ^ 24 % 64) * 64 + x / 2 ^ 18 % 64) * 64 +
        x / 2 ^ 12 % 64) * 64 + x / 2 ^ 6 % 64) * 64 + x % 64 = x by omega]

theorem encode_inj_of_append {x y : Nat} (hx : x < 2 ^ 31) (hy : y < 2 ^ 31) {t : List UInt8}
    (h : encode x ++ t = encode y) : x = y := by
  have hdecode := decode_encode hx t
  rw [h, ← List.append_nil (encode y), decode_encode hy] at hdecode
  injection hdecode with hdecode
  injection hdecode with hxy
  exact hxy.symm

/-! ## Length -/

theorem groups_lt {n x z k : Nat} {s t : List UInt8} (h : groups n x s = some (z, t)) (hx : x < 2 ^ k) :
    s.length = n + t.length ∧ z < 2 ^ (k + 6 * n) := by
  induction n generalizing x k s with
  | zero =>
    cases h
    exact ⟨(Nat.zero_add _).symm, hx⟩
  | succ n ih =>
    cases s with
    | nil => cases h
    | cons b s =>
      rw [groups] at h
      by_cases hb : Tail b
      · rw [if_pos hb] at h
        have hlow : b.toNat - 0x80 < 64 := by
          have := hb.2
          omega
        have hstep : x * 64 + (b.toNat - 0x80) < 2 ^ (k + 6) := by
          rw [Nat.pow_add]
          omega
        obtain ⟨hlen, hz⟩ := ih h hstep
        refine ⟨by rw [List.length_cons, hlen]; omega, ?_⟩
        rwa [show k + 6 * (n + 1) = k + 6 + 6 * n by omega]
      · rw [if_neg hb] at h
        cases h

/-- Bytes that decode to a number are enough for it. -/
theorem decode_lt {z : Nat} {s t : List UInt8} (h : decode s = some (z, t)) :
    ∃ n, s.length = n + t.length ∧ 1 ≤ n ∧ z < limit n := by
  cases s with
  | nil => cases h
  | cons a s =>
    rw [decode, Option.bind_eq_some_iff] at h
    obtain ⟨⟨n, x⟩, hlead, h⟩ := h
    have hbits : n = 0 ∧ x < 2 ^ 7 ∨ 1 ≤ n ∧ n ≤ 5 ∧ x < 2 ^ (6 - n) := by
      unfold lead at hlead
      split_ifs at hlead with h1 h2 h3 h4 h5 h6 h7 <;> cases hlead <;> omega
    rcases hbits with ⟨rfl, hx⟩ | ⟨h1, h5, hx⟩
    · obtain ⟨hlen, hz⟩ := groups_lt h hx
      exact ⟨1, by rw [List.length_cons, hlen]; omega, le_rfl, hz⟩
    · obtain ⟨hlen, hz⟩ := groups_lt h hx
      refine ⟨n + 1, by rw [List.length_cons, hlen]; omega, by omega, ?_⟩
      rw [limit, if_neg (by omega)]
      rwa [show 5 * (n + 1) + 1 = 6 - n + 6 * n by omega]

theorem length_encode_le {x n : Nat} (hn : 1 ≤ n) (h : x < limit n) (hx : x < 2 ^ 31) : (encode x).length ≤ n := by
  have h1 : n = 1 → x < 0x80 := fun hn => by rwa [hn] at h
  have h2 : n = 2 → x < 0x800 := fun hn => by rwa [hn] at h
  have h3 : n = 3 → x < 0x10000 := fun hn => by rwa [hn] at h
  have h4 : n = 4 → x < 0x200000 := fun hn => by rwa [hn] at h
  have h5 : n = 5 → x < 0x4000000 := fun hn => by rwa [hn] at h
  clear h
  unfold encode
  split_ifs <;> simp only [List.length_cons, List.length_nil] <;> omega

/-- The encoding is as short as any bytes that decode to the number. -/
theorem length_encode_minimal {x : Nat} (hx : x < 2 ^ 31) {s t : List UInt8} (h : decode s = some (x, t)) :
    (encode x).length + t.length ≤ s.length := by
  obtain ⟨n, hlen, hn, hlt⟩ := decode_lt h
  have := length_encode_le hn hlt hx
  omega

theorem length_encode (x : Nat) : 1 ≤ (encode x).length ∧ (encode x).length ≤ 6 := by
  unfold encode
  split_ifs <;> simp

/-- The encoding of a character is that of the standard library. -/
theorem encode_char (c : Char) : encode c.toNat = String.utf8EncodeChar c := by
  have hc : c.toNat < 0x110000 := by
    rcases c.valid with h | h
    · exact Nat.lt_trans h (by decide)
    · exact h.2
  have hval : c.val.toNat = c.toNat := rfl
  unfold encode String.utf8EncodeChar tail
  rw [hval]
  generalize c.toNat = x at hc
  dsimp only
  split_ifs with h1 h2 h3 h4 h5 h6 h7 <;> try omega
  · rfl
  · rw [show x / 64 % 0x20 + 0xC0 = 0xC0 + x / 2 ^ 6 by omega, Nat.add_comm (x % 0x40)]
  · rw [show x / 4096 % 0x10 + 0xE0 = 0xE0 + x / 2 ^ 12 by omega, Nat.add_comm (x % 0x40),
      Nat.add_comm (x / 64 % 0x40), show x / 64 = x / 2 ^ 6 by omega]
  · rw [show x / 262144 % 0x08 + 0xF0 = 0xF0 + x / 2 ^ 18 by omega, Nat.add_comm (x % 0x40),
      Nat.add_comm (x / 64 % 0x40), Nat.add_comm (x / 4096 % 0x40), show x / 64 = x / 2 ^ 6 by omega,
      show x / 4096 = x / 2 ^ 12 by omega]

end Tsuki.Utf8
