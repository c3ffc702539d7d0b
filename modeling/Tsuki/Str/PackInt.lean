import Tsuki.Str.Pack

/-!
# Packed integers

`packint` appends the two's complement bytes of the integer in the current byte order, unless its fill for a
negative integer of more than 8 bytes overwrites bytes that are not already `0xFF` (`FillOk`). `unpackint`
reads them back.
-/

namespace Tsuki.Str

open ByteDigits

/-- The bytes of an integer, least significant first; above 8 bytes they extend its sign. -/
def intBytes (size : Nat) (n : UInt64) (neg : Bool) : Bytes :=
  if neg ∧ size > 8 then leBytes 8 n.toNat ++ List.replicate (size - 8) 0xFF else leBytes size n.toNat

/-- Bytes in the order of the header. -/
def ordered (little : Bool) (l : Bytes) : Bytes := if little then l else l.reverse

/-- The fill of `packint` leaves the buffer and the low 8 bytes of the integer as they are. -/
def FillOk (b : Bytes) (n : UInt64) (size : Nat) (neg : Bool) : Prop :=
  neg = true → size > 8 → ∀ x ∈ (b ++ leBytes 8 n.toNat).drop 8, x = 0xFF

@[simp] theorem length_intBytes {size : Nat} (n : UInt64) (neg : Bool) :
    (intBytes size n neg).length = size := by
  unfold intBytes
  split
  · simp; omega
  · simp

@[simp] theorem length_ordered (little : Bool) (l : Bytes) : (ordered little l).length = l.length := by
  cases little <;> simp [ordered]

theorem fillOk_nil (n : UInt64) (size : Nat) (neg : Bool) : FillOk [] n size neg := by
  intro _ _ x hx
  rw [List.nil_append, List.drop_of_length_le (by simp)] at hx
  cases hx

theorem fillOk_of_nonneg (b : Bytes) (n : UInt64) (size : Nat) : FillOk b n size false := by
  intro h
  cases h

/-! ## Writing -/

theorem toUInt8_and (n : UInt64) : (n &&& 0xFF).toUInt8 = UInt8.ofNat n.toNat := by
  apply UInt8.toNat_inj.mp
  rw [UInt64.toNat_toUInt8, UInt64.toNat_and, UInt8.toNat_ofNat',
    show (0xFF : UInt64).toNat = 2 ^ 8 - 1 from rfl, Nat.and_two_pow_sub_one_eq_mod, Nat.mod_mod]

theorem toNat_shiftRight_eight (n : UInt64) : (n >>> 8).toNat = n.toNat / 256 := by
  rw [UInt64.toNat_shiftRight, show (8 : UInt64).toNat % 64 = 8 from rfl, Nat.shiftRight_eq_div_pow]

theorem packintLoop_eq (b : Bytes) (n : UInt64) (i : Nat) :
    packintLoop b n i = b ++ leBytes i (n.toNat / 256) := by
  induction i generalizing b n with
  | zero => simp [packintLoop]
  | succ i ih =>
    rw [packintLoop, ih, toUInt8_and, toNat_shiftRight_eight, leBytes_succ, List.append_assoc,
      List.singleton_append]

theorem packintLoop_first (b : Bytes) (n : UInt64) {size : Nat} (hsize : 1 ≤ size) :
    packintLoop (b ++ [(n &&& 0xFF).toUInt8]) n (size - 1) = b ++ leBytes size n.toNat := by
  obtain ⟨k, rfl⟩ : ∃ k, size = k + 1 := ⟨size - 1, by omega⟩
  rw [packintLoop_eq, toUInt8_and, leBytes_succ, List.append_assoc, List.singleton_append,
    Nat.add_sub_cancel]

/-- The buffer before the reversal for the big-endian order. -/
theorem packint_fill {b : Bytes} {n : UInt64} {size : Nat} {neg : Bool}
    (hfill : FillOk b n size neg) :
    (if neg ∧ size > 8 then (b ++ leBytes size n.toNat).take 8 ++
        List.replicate ((b ++ leBytes size n.toNat).length - 8) 0xFF
      else b ++ leBytes size n.toNat) = b ++ intBytes size n neg := by
  unfold intBytes
  split
  · rename_i h
    have hall := List.eq_replicate_of_mem (hfill h.1 h.2)
    have hsplit : b ++ leBytes 8 n.toNat =
        (b ++ leBytes 8 n.toNat).take 8 ++ List.replicate b.length 0xFF := by
      conv_lhs => rw [← List.take_append_drop 8 (b ++ leBytes 8 n.toNat), hall]
      simp
    have htake : (b ++ leBytes size n.toNat).take 8 = (b ++ leBytes 8 n.toNat).take 8 := by
      rw [← take_leBytes h.2.le, List.take_append, List.take_append, List.take_take]
      congr 2
      omega
    rw [htake, ← List.append_assoc, hsplit, List.append_assoc, List.replicate_append_replicate]
    congr 2
    · rw [← hsplit]
    · simp; omega
  · rfl

theorem packint_eq {b : Bytes} {n : UInt64} {size : Nat} {neg : Bool} (little : Bool) (hsize : 1 ≤ size)
    (hfill : FillOk b n size neg) :
    packint b n little size neg = b ++ ordered little (intBytes size n neg) := by
  simp only [packint, packintLoop_first b n hsize, packint_fill hfill]
  cases little <;> simp [ordered]

theorem le_length_packint (b : Bytes) (n : UInt64) (little : Bool) (size : Nat) (neg : Bool) :
    b.length ≤ (packint b n little size neg).length := by
  simp only [packint, packintLoop_eq]
  split <;> split <;> simp <;> omega

/-! ## Reading -/

section Reading

variable {size : Nat} {l : Bytes} (little : Bool)

/-- The byte `unpackint` takes for position `i` of the little-endian order. -/
theorem getD_ordered {i : Nat} (hi : i < l.length) :
    (ordered little l).getD (if little then i else l.length - 1 - i) 0 = l.getD i 0 := by
  cases little with
  | true => simp [ordered]
  | false =>
    have hr : l.length - 1 - i < l.length := by omega
    have hi' : l.length - 1 - (l.length - 1 - i) = i := by omega
    simp [ordered, List.getD_eq_getElem?_getD, List.getElem?_reverse hr, hi']

theorem map_getD_range {k : Nat} (hk : k ≤ l.length) :
    (List.range k).map (fun i => (ordered little l).getD (if little then i else l.length - 1 - i) 0) =
      l.take k := by
  apply List.ext_getElem
  · simp [hk]
  · intro i h₁ h₂
    have hik : i < k := by simpa using h₁
    have hi : i < l.length := by omega
    rw [List.getElem_map, List.getElem_range, getD_ordered little hi, List.getElem_take,
      List.getD_eq_getElem?_getD, List.getElem?_eq_getElem hi, Option.getD_some]

theorem toNat_readWord {k : Nat} (hk : k ≤ l.length) (hk8 : k ≤ 8) :
    ((List.range k).reverse.foldl (fun (res : UInt64) i => (res <<< 8) |||
        ((ordered little l).getD (if little then i else l.length - 1 - i) 0).toUInt64) 0).toNat =
      ofBytes (l.take k) := by
  rw [List.foldl_reverse, ← toNat_foldr_shift_or _ (by simp; omega), ← map_getD_range little hk,
    List.foldr_map]

end Reading

/-- `unpackint`, of bytes that are there: the byte for position `i`, and what the loops compute of them. -/
def intByte (str : Bytes) (islittle : Bool) (i : Nat) : UInt8 :=
  str.getD (if islittle then i else str.length - 1 - i) 0

/-- The value of `unpackint`. -/
def intValue (str : Bytes) (islittle issigned : Bool) : Rust Int64 :=
  let size := str.length
  let limit := if size ≤ 8 then size else 8
  let res : UInt64 :=
    (List.range limit).reverse.foldl (fun res i => (res <<< 8) ||| (intByte str islittle i).toUInt64) 0
  if size < 8 then
    let mask : UInt64 := 1 <<< UInt64.ofNat (size * 8 - 1)
    .ok (if issigned then ((res ^^^ mask) - mask).toInt64 else res.toInt64)
  else
    let mask : UInt8 := if !issigned ∨ 0 ≤ res.toInt64 then 0 else 0xFF
    if (List.range' limit (size - limit)).all (intByte str islittle · = mask) then .ok res.toInt64
    else .error (.msg (toString size ++ "-byte integer does not fit into Lua Integer"))

theorem byteAt_eq {str : Bytes} (islittle : Bool) {i : Nat} (hi : i < str.length) :
    byteAt str islittle i = .ok (intByte str islittle i) := by
  unfold byteAt intByte
  cases islittle with
  | true => rw [if_pos rfl, if_pos rfl, idx_of_lt hi, List.getD_eq_getElem?_getD, List.getElem?_eq_getElem hi]; rfl
  | false =>
    have hk : str.length - 1 - i < str.length := by omega
    rw [if_neg (by simp), if_neg (by simp), Rust.usub, if_pos (by omega), Rust.ok_bind, Rust.usub, if_pos (by omega),
      Rust.ok_bind, idx_of_lt hk, List.getD_eq_getElem?_getD, List.getElem?_eq_getElem hk]
    rfl

theorem readWord_eq {str : Bytes} (islittle : Bool) (res : UInt64) {is : List Nat} (h : ∀ i ∈ is, i < str.length) :
    readWord str islittle res is =
      .ok (is.foldl (fun res i => (res <<< 8) ||| (intByte str islittle i).toUInt64) res) := by
  induction is generalizing res with
  | nil => rfl
  | cons i is ih =>
    rw [readWord, byteAt_eq islittle (h i List.mem_cons_self), Rust.ok_bind,
      ih _ fun k hk => h k (List.mem_cons_of_mem _ hk)]
    rfl

theorem checkFill_eq {str : Bytes} (islittle : Bool) (mask : UInt8) {is : List Nat} (h : ∀ i ∈ is, i < str.length) :
    checkFill str islittle mask is = if is.all (intByte str islittle · = mask) then .ok ()
      else .error (.msg (toString str.length ++ "-byte integer does not fit into Lua Integer")) := by
  induction is with
  | nil => rfl
  | cons i is ih =>
    rw [checkFill, byteAt_eq islittle (h i List.mem_cons_self), Rust.ok_bind, List.all_cons]
    by_cases hb : intByte str islittle i = mask
    · rw [if_neg (not_not.mpr hb), ih fun k hk => h k (List.mem_cons_of_mem _ hk)]
      simp [hb]
    · rw [if_pos hb]
      simp [hb]

/-- No index and no shift of `unpackint` is out of range. -/
theorem unpackint_eq {str : Bytes} (h1 : 1 ≤ str.length) (islittle issigned : Bool) :
    unpackint str islittle issigned = intValue str islittle issigned := by
  have hlow (i : Nat) (hi : i ∈ (List.range (if str.length ≤ 8 then str.length else 8)).reverse) : i < str.length := by
    rw [List.mem_reverse, List.mem_range] at hi
    split at hi <;> omega
  unfold unpackint intValue
  dsimp only
  rw [readWord_eq islittle 0 hlow, Rust.ok_bind]
  by_cases h8 : str.length < 8
  · rw [if_pos h8, if_pos h8]
    cases issigned with
    | true =>
      have hshift : Rust.shl 1 (str.length * 8 - 1) = .ok (1 <<< UInt64.ofNat (str.length * 8 - 1)) :=
        if_pos (by omega)
      rw [if_pos rfl, if_pos rfl, Rust.usub, if_pos (by omega), Rust.ok_bind, hshift]
      rfl
    | false => rfl
  · have hhigh (i : Nat) (hi : i ∈ List.range' (if str.length ≤ 8 then str.length else 8)
        (str.length - if str.length ≤ 8 then str.length else 8)) : i < str.length := by
      have := List.mem_range'_1.mp hi
      split at this <;> omega
    rw [if_neg h8, if_neg h8, checkFill_eq islittle _ hhigh]
    split_ifs <;> rfl

theorem toNat_mask {size : Nat} (h1 : 1 ≤ size) (h8 : size < 8) :
    ((1 : UInt64) <<< UInt64.ofNat (size * 8 - 1)).toNat = 2 ^ (size * 8 - 1) := by
  rw [UInt64.toNat_shiftLeft, UInt64.toNat_ofNat', Nat.mod_eq_of_lt (a := size * 8 - 1) (by omega),
    Nat.mod_eq_of_lt (a := size * 8 - 1) (by omega), UInt64.toNat_one, Nat.shiftLeft_eq, Nat.one_mul,
    Nat.mod_eq_of_lt]
  exact Nat.pow_lt_pow_right (by norm_num) (by omega)

theorem toInt64_eq {u : UInt64} {n : Int64} (h : u.toNat = n.toUInt64.toNat) : u.toInt64 = n := by
  rw [UInt64.toNat_inj.mp h, Int64.toInt64_toUInt64]

theorem toInt_eq (n : Int64) :
    n.toInt = if n.toUInt64.toNat < 2 ^ 63 then (n.toUInt64.toNat : Int) else n.toUInt64.toNat - 2 ^ 64 := by
  rw [← Int64.toInt_toBitVec, BitVec.toInt_eq_toNat_cond]
  have : n.toBitVec.toNat = n.toUInt64.toNat := rfl
  rw [this]
  split <;> split <;> first | rfl | omega

/-- Sign extension of the low bits of a word gives the word back when its signed value fits. -/
theorem signExtend_eq {k m r : Nat} (hk : k < 63) (hm : m < 2 ^ 64) (hr : r = m % 2 ^ (k + 1))
    (hfit : m < 2 ^ k ∨ 2 ^ 64 - 2 ^ k ≤ m) :
    (2 ^ 64 - 2 ^ k + (r ^^^ 2 ^ k)) % 2 ^ 64 = m := by
  have hpow : 2 ^ (k + 1) = 2 * 2 ^ k := by rw [pow_succ]; ring
  have hle : 2 ^ (k + 1) ≤ 2 ^ 63 := Nat.pow_le_pow_right (by norm_num) (by omega)
  have hlt : r < 2 ^ (k + 1) := hr ▸ Nat.mod_lt _ (by positivity)
  rw [ByteDigits.xor_two_pow k r hlt]
  rcases hfit with hfit | hfit
  · have : r = m := by rw [hr, Nat.mod_eq_of_lt (by omega)]
    rw [this, if_pos hfit, Nat.mod_eq_sub_mod (by omega), Nat.mod_eq_of_lt (by omega)]
    omega
  · obtain ⟨q, hq⟩ : 2 ^ (k + 1) ∣ 2 ^ 64 := pow_dvd_pow 2 (by omega)
    have hrm : r + 2 ^ 64 = m + 2 ^ (k + 1) := by
      have hm' : m = (m + 2 ^ (k + 1) - 2 ^ 64) + 2 ^ (k + 1) * (q - 1) := by
        rw [Nat.mul_sub, ← hq]
        omega
      rw [hr, hm', Nat.add_mul_mod_self_left, Nat.mod_eq_of_lt (by omega)]
      omega
    rw [if_neg (by omega), Nat.mod_eq_of_lt (by omega)]
    omega

/-- The bytes above the low 8 are the ones `unpackint` checks for. -/
theorem intBytes_high {size i : Nat} {n : Int64} {neg : Bool} (hneg : neg = true → n < 0) (h8 : 8 ≤ i)
    (hi : i < size) :
    (intBytes size n.toUInt64 neg).getD i 0 = if neg then 0xFF else 0 := by
  have hlt : n.toUInt64.toNat < 256 ^ i := by
    refine n.toUInt64.toNat_lt.trans_le ?_
    calc 2 ^ 64 = 256 ^ 8 := by norm_num
      _ ≤ 256 ^ i := Nat.pow_le_pow_right (by norm_num) h8
  have hi' : i - 8 < size - 8 := by omega
  cases neg with
  | true =>
    simp [intBytes, show 8 < size by omega, List.getD_eq_getElem?_getD, List.getElem?_append_right, h8,
      hi']
  | false =>
    simp [intBytes, leBytes, List.getD_eq_getElem?_getD, hi, Nat.div_eq_of_lt hlt]

theorem ofBytes_take_intBytes {size : Nat} (n : UInt64) (neg : Bool) :
    ofBytes ((intBytes size n neg).take (min size 8)) = n.toNat % 256 ^ (min size 8) := by
  unfold intBytes
  split
  · rw [show min size 8 = 8 by omega, List.take_append_of_le_length (by simp),
      List.take_of_length_le (by simp), ofBytes_leBytes]
  · rw [take_leBytes (by omega), ofBytes_leBytes]

/-- An integer fits the option it is packed with; from 8 bytes on every integer does. -/
def Fits (size : Nat) (signed : Bool) (n : Int64) : Prop :=
  size < 8 → if signed then -2 ^ (size * 8 - 1) ≤ n.toInt ∧ n.toInt < 2 ^ (size * 8 - 1)
    else n.toUInt64.toNat < 2 ^ (size * 8)

theorem fits_bounds {size : Nat} {n : Int64} (h1 : 1 ≤ size) (h8 : size < 8) (hfit : Fits size true n) :
    n.toUInt64.toNat < 2 ^ (size * 8 - 1) ∨ 2 ^ 64 - 2 ^ (size * 8 - 1) ≤ n.toUInt64.toNat := by
  obtain ⟨hlo, hhi⟩ := hfit h8
  have hpow : 2 ^ (size * 8 - 1) ≤ 2 ^ 63 := Nat.pow_le_pow_right (by norm_num) (by omega)
  have hcast : ((2 ^ (size * 8 - 1) : Nat) : Int) = 2 ^ (size * 8 - 1) := by push_cast; rfl
  rw [← hcast, toInt_eq] at hlo hhi
  split at hlo <;> omega

/-- `unpackint` reads an integer back, whatever the byte order, size and signedness. -/
theorem unpackint_ordered {size : Nat} {n : Int64} {signed : Bool} (little : Bool) (h1 : 1 ≤ size)
    (hfit : Fits size signed n) :
    unpackint (ordered little (intBytes size n.toUInt64 (signed && decide (n < 0)))) little signed =
      .ok n := by
  set neg := signed && decide (n < 0) with hneg
  have hnegn : neg = true → n < 0 := by
    intro h
    rw [hneg, Bool.and_eq_true] at h
    exact of_decide_eq_true h.2
  have hword := toNat_readWord (l := intBytes size n.toUInt64 neg) little (k := min size 8)
    (by simp) (by omega)
  rw [ofBytes_take_intBytes, length_intBytes] at hword
  have hlimit : (if size ≤ 8 then size else 8) = min size 8 := by split <;> omega
  rw [unpackint_eq (by rw [length_ordered, length_intBytes]; exact h1)]
  simp only [intValue, intByte, length_ordered, length_intBytes, hlimit]
  revert hword
  generalize ((List.range (min size 8)).reverse.foldl _ (0 : UInt64)) = res
  intro hword
  by_cases h8 : size < 8
  · rw [if_pos h8, show min size 8 = size by omega] at *
    congr 1
    have hpow : 256 ^ size = 2 ^ (size * 8 - 1 + 1) := by
      rw [show size * 8 - 1 + 1 = 8 * size by omega, pow_mul]
      norm_num
    cases signed with
    | true =>
      rw [if_pos rfl]
      apply toInt64_eq
      rw [UInt64.toNat_sub, UInt64.toNat_xor, toNat_mask h1 h8]
      exact signExtend_eq (by omega) n.toUInt64.toNat_lt (hpow ▸ hword) (fits_bounds h1 h8 hfit)
    | false =>
      rw [if_neg (by simp)]
      have hlt : n.toUInt64.toNat < 2 ^ (size * 8) := by simpa using hfit h8
      apply toInt64_eq
      rw [hword, Nat.mod_eq_of_lt]
      rwa [hpow, show size * 8 - 1 + 1 = size * 8 by omega]
  · rw [if_neg h8, show min size 8 = 8 by omega] at *
    have hres : res.toInt64 = n := by
      apply toInt64_eq
      rw [hword, Nat.mod_eq_of_lt (n.toUInt64.toNat_lt.trans_le (by norm_num))]
    rw [hres, if_pos]
    rw [List.all_eq_true]
    intro i hi
    obtain ⟨hi8, hilt⟩ : 8 ≤ i ∧ i < size := by
      rw [List.mem_range'_1] at hi
      omega
    have hbyte := getD_ordered little (l := intBytes size n.toUInt64 neg) (i := i) (by simpa using hilt)
    rw [length_intBytes] at hbyte
    rw [hbyte, intBytes_high hnegn hi8 hilt]
    cases signed with
    | true =>
      have hle : 0 ≤ n ↔ ¬n < 0 := by rw [Int64.not_lt]
      by_cases hlt : n < 0 <;> simp [hneg, hle, hlt]
    | false => simp [hneg]

end Tsuki.Str
