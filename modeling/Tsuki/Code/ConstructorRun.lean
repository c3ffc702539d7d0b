import Tsuki.Code.Constructor
import Tsuki.Table.Rehash
import Mathlib.Data.List.Induction

/-!
# Table constructors store every item

What the code of a constructor does to the table, batch by batch. A state holds a list of stores if its table is what
they make of an empty one, and an instruction adds to the list: `OP_SETLIST` the batch in the registers, from the last
item to the first, and the store of a field the field. The only errors are a key that is none and the limits of memory,
of the stack and of the hash part, each with what passes it.
-/

namespace Tsuki.Constructor

open Table (Key Hashes TableError Represents Inv Done)

variable {V : Type}

/-! ## The fields of instructions -/

section

variable {o a b c k : Nat}

theorem codeABCk_eq (ho : o < 2 ^ 7) (ha : a < 2 ^ 8) (hk : k < 2) (hb : b < 2 ^ 8) :
    codeABCk o a b c k = o + a * 2 ^ 7 + k * 2 ^ 15 + b * 2 ^ 16 + c * 2 ^ 24 := by
  have hor {x n : Nat} (y : Nat) (h : x < 2 ^ n) : x ||| y <<< n = x + y * 2 ^ n := by
    rw [Nat.or_comm, ← Nat.shiftLeft_add_eq_or_of_lt h, Nat.shiftLeft_eq, Nat.add_comm]
  have horder : codeABCk o a b c k = o ||| a <<< 7 ||| k <<< 15 ||| b <<< 16 ||| c <<< 24 := by
    rw [codeABCk, Nat.or_assoc _ (c <<< 24), Nat.or_comm (c <<< 24), ← Nat.or_assoc, Nat.or_assoc _ (b <<< 16),
      Nat.or_comm (b <<< 16), ← Nat.or_assoc]
  rw [horder, hor a ho, hor k (show o + a * 2 ^ 7 < 2 ^ 15 by omega),
    hor b (show o + a * 2 ^ 7 + k * 2 ^ 15 < 2 ^ 16 by omega),
    hor c (show o + a * 2 ^ 7 + k * 2 ^ 15 + b * 2 ^ 16 < 2 ^ 24 by omega)]

theorem get_codeABCk (ho : o < 2 ^ 7) (ha : a < 2 ^ 8) (hk : k < 2) (hb : b < 2 ^ 8) (hc : c < 2 ^ 8) :
    getA (codeABCk o a b c k) = a ∧ getB (codeABCk o a b c k) = b ∧ getC (codeABCk o a b c k) = c ∧
      getK (codeABCk o a b c k) = k := by
  rw [codeABCk_eq ho ha hk hb]
  simp only [getA, getB, getC, getK, Nat.shiftRight_eq_div_pow, Nat.and_two_pow_sub_one_eq_mod]
  omega

theorem getAx_extraarg (ha : a < 2 ^ 25) : getAx (extraarg a) = a := by
  have hor : extraarg a = 82 + a * 2 ^ 7 := by
    rw [extraarg, Nat.or_comm, ← Nat.shiftLeft_add_eq_or_of_lt (by decide), Nat.shiftLeft_eq, Nat.add_comm]
  rw [hor]
  simp only [getAx, Nat.shiftRight_eq_div_pow, Nat.and_two_pow_sub_one_eq_mod]
  omega

end

/-! ## Stores -/

/-- Stores, one after the other. -/
abbrev Stores (V : Type) := List (Key × Option V)

/-- The map after the stores. -/
def assign (m : Table.Map V) (l : Stores V) : Table.Map V := l.foldl (fun m s => Function.update m s.1 s.2) m

/-- The stores of items, of which `n` are before them. -/
def positions (n : Nat) : List (Option V) → Stores V
  | [] => []
  | x :: xs => (.int (Int64.ofNat (n + 1)), x) :: positions (n + 1) xs

theorem assign_append (m : Table.Map V) (l l' : Stores V) : assign m (l ++ l') = assign (assign m l) l' :=
  List.foldl_append

theorem positions_append (xs ys : List (Option V)) : ∀ n : Nat,
    positions n (xs ++ ys) = positions n xs ++ positions (n + xs.length) ys := by
  induction xs with
  | nil => exact fun n => rfl
  | cons x xs ih =>
    intro n
    rw [List.cons_append, positions, positions, ih, List.cons_append, List.length_cons,
      show n + 1 + xs.length = n + (xs.length + 1) by omega]

/-! ## The table -/

variable {hs : Hashes} {d memory : Nat}

theorem store_array {t : Table V} {m : Table.Map V} (h : Represents hs t m) {last : Nat} (hpos : 0 < last)
    (hlast : last ≤ t.array.length) (x : Option V) :
    ∃ t', Table.store t (.array (last - 1)) x = .ok t' ∧
      Represents hs t' (Function.update m (.int (Int64.ofNat last)) x) ∧ t'.array.length = t.array.length := by
  have hsize := h.inv.size
  have hkey : (Key.int (Int64.ofNat last)).pos = some (last - 1) := by
    have := Table.pos_ofNat (show last - 1 < 2 ^ 63 by omega)
    rwa [Nat.sub_add_cancel hpos] at this
  obtain ⟨t', hst, hinv, hupd, hshape, -⟩ := Table.store_spec h.inv
    (show Table.SlotOf t (some (.int (Int64.ofNat last))) (.array (last - 1)) from ⟨by omega, _, rfl, hkey⟩)
    (by nofun) x
  exact ⟨t', hst, h.update hinv hupd, hshape.length_eq⟩

theorem setlistLoop_spec {regs : Nat → Option V} {ra na : Nat} (xs : List (Option V)) :
    ∀ {t : Table V} {m : Table.Map V}, Represents hs t m → (∀ j x, xs[j]? = some x → regs (ra + (j + 1)) = x) →
    na + xs.length ≤ t.array.length →
    ∃ t', setlistLoop regs ra xs.length (na + xs.length) t = .ok t' ∧
      Represents hs t' (assign m (positions na xs).reverse) ∧ t'.array.length = t.array.length := by
  induction xs using List.reverseRecOn with
  | nil => exact fun h _ _ => ⟨_, rfl, h, rfl⟩
  | append_singleton xs x ih =>
    intro t m h hregs hlen
    rw [List.length_append, List.length_singleton] at hlen ⊢
    have hx : regs (ra + (xs.length + 1)) = x := hregs xs.length x (by simp)
    obtain ⟨t₁, hst, h₁, hlen₁⟩ := store_array h (show 0 < na + (xs.length + 1) by omega) (by omega) x
    obtain ⟨t', hloop, h', hlen'⟩ := ih h₁
      (fun j y hj => hregs j y (by
        obtain ⟨hlt, -⟩ := List.getElem?_eq_some_iff.mp hj
        rw [List.getElem?_append_left hlt, hj])) (by omega)
    refine ⟨t', ?_, ?_, hlen'.trans hlen₁⟩
    · rw [setlistLoop, hx, hst, Rust.ok_bind, show na + (xs.length + 1) - 1 = na + xs.length by omega]
      exact hloop
    · rw [positions_append, List.reverse_append, positions, positions, List.reverse_singleton, List.singleton_append]
      exact h'

/-- An array part that grows has all its slots, and the table keeps its pairs. -/
theorem resizearray_spec {t : Table V} {m : Table.Map V} (h : Represents hs t m) {n : Nat}
    (hmem : memory ≤ 2 ^ 31 ∨ n ≤ 2 ^ 31) (hn : t.array.length < n) :
    memory < n ∧ luaH_resizearray hs d memory t n = .error (.msg "memory allocation failed") ∨
      ∃ t', luaH_resizearray hs d memory t n = .ok t' ∧ Represents hs t' m ∧ t'.array.length = n := by
  unfold luaH_resizearray luaH_resize
  by_cases hbig : memory < n
  · rw [if_pos hbig]
    exact .inl ⟨hbig, rfl⟩
  rw [if_neg hbig]
  have hdrop : (t.array.drop n).countP (·.isSome) = 0 := by
    rw [List.drop_of_length_le (by omega)]
    rfl
  generalize hnh : (if t.hash.lastfree.isNone then 0 else 2 ^ t.hash.lsizenode) = nh
  have hsmall : nh ≤ 2 ^ 30 := by
    have hpow := Nat.pow_le_pow_right (n := 2) (by omega) h.inv.hash.small
    split_ifs at hnh <;> omega
  -- the hash part has room for its own pairs
  have hfits : t.hash.node.countP (Table.Node.outside n) ≤ Table.roomFor nh := by
    have hle := Table.le_roomFor nh
    cases hlast : t.hash.lastfree with
    | none =>
      rw [h.inv.hash.dummy hlast]
      exact Nat.zero_le _
    | some lf =>
      rw [hlast] at hnh
      have hlen := h.inv.hash.length_eq
      have hcount := List.countP_le_length (p := Table.Node.outside n) (l := t.hash.node)
      have hnh : 2 ^ t.hash.lsizenode = nh := hnh
      omega
  have hin : (Key.int 1).inArray n = true := by
    rw [Table.inArray_iff]
    exact ⟨0, rfl, by omega⟩
  rcases Table.resize_spec (Table.newkey_room (d + 1)) h.inv (show n ≤ 2 ^ 31 by omega) (by rw [hdrop]; omega)
    (Table.Roomy (.int 1) n (Table.roomFor nh)) (by
      intro nd l t' _ hroomy
      refine ⟨hroomy.1, hroomy.2.1, ?_⟩
      have hle := hroomy.2.2
      rw [List.countP_cons] at hle
      omega)
    (fun nd k v l t' hkey hval hk hinv hroomy => Table.roomy_set (Table.newkey_room (d + 1)) hkey hval hk hinv hroomy)
    (by
      intro t' _ hlen hcap hused _
      refine ⟨hlen, hcap, ?_⟩
      rw [hin, if_pos rfl]
      omega) with ⟨hover, -⟩ | ⟨t', heq, hinv, hroomy, hholds⟩
  · have := hover.resolve_left id
    omega
  · exact .inr ⟨t', heq, h.of_holds hinv hholds, hroomy.1⟩

/-- What `luaK_setlist` writes, for `na` items stored before. -/
def setlistCode (base na tostore : Nat) : Instr V :=
  if na ≤ 255 then .setlist (codeABCk 78 base tostore na 0) none
  else .setlist (codeABCk 78 base tostore (na % 256) 1) (some (extraarg (na / 256)))

/-- The batch goes to its indices: the number of items before it comes back out of the two instructions. -/
theorem setlist_spec {t : Table V} {m : Table.Map V} (h : Represents hs t m) {st : State V} {ra na tostore : Nat}
    {xs : List (Option V)} (hmem : memory ≤ 2 ^ 31 ∨ na + xs.length ≤ 2 ^ 31) (hra : ra < 2 ^ 8)
    (htostore : tostore < 2 ^ 8) (hna : na < 2 ^ 31) (hxs : xs.length ≤ 1000000)
    (hcount : tostore = 0 ∧ st.top = ra + 1 + xs.length ∨ 0 < tostore ∧ tostore = xs.length)
    (hregs : ∀ j x, xs[j]? = some x → st.regs (ra + (j + 1)) = x) (htab : st.tab = some (ra, t)) :
    memory < na + xs.length ∧
        step hs d memory st (setlistCode ra na tostore) = .error (.msg "memory allocation failed") ∨
      ∃ t', step hs d memory st (setlistCode ra na tostore) = .ok (.ok { st with tab := some (ra, t') }) ∧
        Represents hs t' (assign m (positions na xs).reverse) := by
  -- the instruction says where the batch ends
  obtain ⟨i, e, hcode, hA, hset⟩ : ∃ i e, (setlistCode ra na tostore : Instr V) = .setlist i e ∧ getA i = ra ∧
      setlist hs d memory i e st t = (do
        let t ← growarray hs d memory t (na + xs.length)
        setlistLoop st.regs ra xs.length (na + xs.length) t) := by
    have hn (i : Nat) (hA : getA i = ra) (hB : getB i = tostore) :
        (if getB i = 0 then st.top - getA i - 1 else getB i) = xs.length := by
      rw [hA, hB]
      rcases hcount with ⟨rfl, htop⟩ | ⟨hpos, hlen⟩
      · rw [if_pos rfl]
        omega
      · rw [if_neg (by omega), hlen]
    by_cases hsmall : na ≤ 255
    · obtain ⟨hA, hB, hC, hK⟩ := get_codeABCk (show 78 < 2 ^ 7 by decide) hra (show 0 < 2 by decide) htostore
        (show na < 2 ^ 8 by omega)
      refine ⟨_, _, if_pos hsmall, hA, ?_⟩
      unfold setlist
      dsimp only
      rw [hn _ hA hB, hA, hC, hK, if_neg (show ¬0 ≠ 0 by decide), Nat.mod_eq_of_lt (by omega)]
    · obtain ⟨hA, hB, hC, hK⟩ := get_codeABCk (show 78 < 2 ^ 7 by decide) hra (show 1 < 2 by decide) htostore
        (show na % 256 < 2 ^ 8 by omega)
      refine ⟨_, _, if_neg hsmall, hA, ?_⟩
      unfold setlist
      dsimp only
      rw [hn _ hA hB, hA, hC, hK, if_pos (show 1 ≠ 0 by decide), Option.getD_some, getAx_extraarg (by omega),
        show ((na % 256 + xs.length) % 2 ^ 32 + na / 256 * 256) % 2 ^ 32 = na + xs.length by omega]
  have hstep : step hs d memory st (.setlist i e) = (setlist hs d memory i e st t).bind fun t =>
      .ok (.ok { st with tab := some (ra, t) }) := by
    rw [step, htab]
    dsimp only
    rw [if_pos hA.symm]
    rfl
  rw [hcode, hstep, hset]
  obtain ⟨t₁, hgrow, h₁, hlen₁⟩ | ⟨hbig, hgrow⟩ : (∃ t₁, growarray hs d memory t (na + xs.length) = .ok t₁ ∧
      Represents hs t₁ m ∧ na + xs.length ≤ t₁.array.length) ∨
      memory < na + xs.length ∧ growarray hs d memory t (na + xs.length) = .error (.msg "memory allocation failed") := by
    rw [growarray, h.inv.realasize_eq]
    by_cases hgrow : na + xs.length > t.array.length
    · rw [if_pos hgrow]
      rcases resizearray_spec h hmem hgrow with herr | ⟨t₁, heq, h₁, hlen⟩
      · exact .inr herr
      · exact .inl ⟨t₁, heq, h₁, Nat.le_of_eq hlen.symm⟩
    · rw [if_neg hgrow]
      exact .inl ⟨t, rfl, h, by omega⟩
  · rw [hgrow, Rust.ok_bind]
    obtain ⟨t', hloop, h', -⟩ := setlistLoop_spec xs h₁ hregs hlen₁
    rw [hloop]
    exact .inr ⟨t', rfl, h'⟩
  · rw [hgrow]
    exact .inl ⟨hbig, rfl⟩

/-- The table starts with the sizes of the constructor: the number of items, and room for the fields. -/
theorem newtable_settablesize (hs : Hashes) (d memory : Nat) {ra asize hsize : Nat} (hra : ra < 2 ^ 8)
    (hasize : asize < 2 ^ 31) (hhsize : hsize < 2 ^ 31) :
    ∃ i e, (∀ (code : List (Instr V)) pc, settablesize code pc ra asize hsize = code.set pc (.newtable i e)) ∧
      getA i = ra ∧ newtable (V := V) hs d memory i e =
        if hsize ≠ 0 ∨ asize ≠ 0 then luaH_resize hs d memory (Table.new V) asize (Table.roomFor hsize)
        else .ok (Table.new V) := by
  have hlog : Table.ceillog2 hsize ≤ 31 := by
    rcases Nat.eq_zero_or_pos hsize with rfl | hpos
    · decide
    · exact (Table.ceillog2_le_iff hpos).mpr (by omega)
  have hrb : (if (hsize : Int) ≠ 0 then Table.ceillog2 (hsize : Int).toNat + 1 else 0) < 2 ^ 8 := by
    split_ifs
    · rw [Int.toNat_natCast]
      omega
    · decide
  have hk : (if (asize : Int) / 256 > 0 then 1 else 0) < 2 := by
    split_ifs <;> omega
  obtain ⟨hA, hB, hC, hK⟩ := get_codeABCk (show 19 < 2 ^ 7 by decide) hra hk hrb
    (show ((asize : Int) % 256).toNat < 2 ^ 8 by omega)
  refine ⟨_, extraarg ((asize : Int) / 256).toNat, fun code pc => rfl, hA, ?_⟩
  unfold newtable
  dsimp only
  rw [hB, hC, hK, getAx_extraarg (by omega)]
  have hc : ((asize : Int) % 256).toNat + (if (if (asize : Int) / 256 > 0 then 1 else 0) ≠ 0 then
      ((asize : Int) / 256).toNat * 256 else 0) = asize := by
    split_ifs <;> omega
  rw [hc]
  rcases Nat.eq_zero_or_pos hsize with rfl | hpos
  · rfl
  · rw [if_pos (show (hsize : Int) ≠ 0 by omega), Int.toNat_natCast, if_pos (Nat.succ_pos _), Nat.add_sub_cancel,
      Table.roomFor, if_neg (show ¬hsize = 0 by omega), if_pos (.inl (Nat.pos_iff_ne_zero.mp (Nat.two_pow_pos _))),
      if_pos (.inl (show hsize ≠ 0 by omega))]

/-! ## Code -/

/-- How code ends: a limit is passed, a key is rejected, or the state is as it should be. -/
def Outcome (lim : String → Prop) (r : Rust (Except TableError (State V))) (bad : TableError → Prop)
    (P : State V → Prop) : Prop :=
  (∃ s, r = .error (.msg s) ∧ lim s) ∨ (∃ e, r = .ok (.error e) ∧ bad e) ∨ ∃ st, r = .ok (.ok st) ∧ P st

theorem Outcome.append {lim : String → Prop} {bad : TableError → Prop} {P Q : State V → Prop} {is js : List (Instr V)} :
    ∀ {st : State V}, Outcome lim (exec hs d memory st is) bad P →
    (∀ st', P st' → Outcome lim (exec hs d memory st' js) bad Q) →
    Outcome lim (exec hs d memory st (is ++ js)) bad Q := by
  induction is with
  | nil =>
    intro st h hjs
    rcases h with ⟨s, h, -⟩ | ⟨e, h, -⟩ | ⟨st', h, hP⟩
    · cases h
    · cases h
    · cases h
      exact hjs st hP
  | cons i is ih =>
    intro st h hjs
    rw [List.cons_append, exec]
    rw [exec] at h
    cases hstep : step hs d memory st i with
    | error err =>
      rw [hstep] at h
      rcases h with ⟨s, h, hlim⟩ | ⟨e, h, -⟩ | ⟨st', h, -⟩
      · exact .inl ⟨s, h, hlim⟩
      · cases h
      · cases h
    | ok x =>
      rw [hstep, Rust.ok_bind] at h
      rw [Rust.ok_bind]
      cases x with
      | error e =>
        rcases h with ⟨s, h, -⟩ | ⟨e', h, hbad⟩ | ⟨st', h, -⟩
        · cases h
        · exact .inr (.inl ⟨e', h, hbad⟩)
        · cases h
      | ok st₁ => exact ih h hjs

theorem exec_single (st : State V) (i : Instr V) : exec hs d memory st [i] = step hs d memory st i := by
  rw [exec]
  cases step hs d memory st i with
  | error => rfl
  | ok x => cases x <;> rfl

/-- The state of the parser: `done` items are stored, and the values of `pend` are in registers. -/
structure Ready (fs : FuncState V) (cc : ConsControl V) (done pend : List (Option V)) : Prop where
  freereg : fs.freereg = cc.t + 1 + pend.length
  stack : fs.freereg ≤ fs.maxstacksize ∧ fs.maxstacksize ≤ 254
  na : cc.na = done.length
  na_lt : done.length < 2 ^ 31
  tostore : cc.tostore = pend.length + if cc.v.isSome then 1 else 0
  pend_le : pend.length ≤ 49
  nh : 0 ≤ cc.nh ∧ cc.nh + 2 ≤ fs.pc
  pc : fs.pc ≤ 2147483647

/-- The state of the frame: its table is what the stores make of an empty one, and the values of `pend` are in
registers. -/
structure Running (hs : Hashes) (reg : Nat) (order : Stores V) (pend : List (Option V)) (st : State V) : Prop where
  tab : ∃ t, st.tab = some (reg, t) ∧ Represents hs t (assign (fun _ => none) order)
  regs : ∀ j x, pend[j]? = some x → st.regs (reg + (j + 1)) = x

/-- Values after those in the registers. -/
theorem Running.eval {reg : Nat} {order : Stores V} {pend : List (Option V)} {st : State V}
    (h : Running hs reg order pend st) (xs : List (Option V)) (top : Nat) :
    Running hs reg order (pend ++ xs)
      { st with regs := Coroutine.put st.regs (reg + 1 + pend.length) xs, top := top } := by
  refine ⟨h.tab, fun j x hj => ?_⟩
  by_cases hlt : j < pend.length
  · rw [List.getElem?_append_left hlt] at hj
    show Coroutine.put st.regs (reg + 1 + pend.length) xs (reg + (j + 1)) = x
    rw [Coroutine.put_of_lt _ (by omega)]
    exact h.regs j x hj
  · rw [List.getElem?_append_right (by omega)] at hj
    obtain ⟨hlen, rfl⟩ := List.getElem?_eq_some_iff.mp hj
    show Coroutine.put st.regs (reg + 1 + pend.length) xs (reg + (j + 1)) = _
    rw [show reg + (j + 1) = reg + 1 + pend.length + (j - pend.length) by omega]
    exact Coroutine.put_get xs hlen

theorem Running.setlist {lim : String → Prop} {reg tostore na : Nat} {order : Stores V} {pend : List (Option V)}
    {st : State V} (h : Running hs reg order pend st)
    (hlim : memory < na + pend.length → lim "memory allocation failed")
    (hmem : memory ≤ 2 ^ 31 ∨ na + pend.length ≤ 2 ^ 31) (hreg : reg < 2 ^ 8)
    (htostore : tostore < 2 ^ 8) (hna : na < 2 ^ 31) (hpend : pend.length ≤ 1000000)
    (hcount : tostore = 0 ∧ st.top = reg + 1 + pend.length ∨ 0 < tostore ∧ tostore = pend.length)
    {bad : TableError → Prop} :
    Outcome lim (exec hs d memory st [setlistCode reg na tostore]) bad
      (Running hs reg (order ++ (positions na pend).reverse) []) := by
  obtain ⟨t, htab, ht⟩ := h.tab
  rw [exec_single]
  rcases setlist_spec ht hmem hreg htostore hna hpend hcount h.regs htab with ⟨hbig, herr⟩ | ⟨t', heq, ht'⟩
  · exact .inl ⟨_, herr, hlim hbig⟩
  · refine .inr (.inr ⟨_, heq, ⟨t', rfl, ?_⟩, nofun⟩)
    rwa [assign_append]

theorem emit_spec {fs fs' : FuncState V} {i : Instr V} {words : Nat} (h : fs.emit i words = .ok fs') :
    fs'.code = fs.code ++ [i] ∧ fs'.freereg = fs.freereg ∧ fs'.maxstacksize = fs.maxstacksize ∧
      fs'.pc = fs.pc + words ∧ fs'.pc ≤ 2147483647 := by
  unfold FuncState.emit at h
  split_ifs at h with hpc
  cases h
  exact ⟨rfl, rfl, rfl, rfl, hpc⟩

theorem reserve_spec {fs fs' : FuncState V} (hstack : fs.freereg ≤ fs.maxstacksize ∧ fs.maxstacksize ≤ 254)
    (h : fs.reserve = .ok fs') :
    fs'.code = fs.code ∧ fs'.freereg = fs.freereg + 1 ∧ fs'.pc = fs.pc ∧
      fs'.freereg ≤ fs'.maxstacksize ∧ fs'.maxstacksize ≤ 254 := by
  unfold FuncState.reserve at h
  dsimp only at h
  split_ifs at h with hmax hlimit
  · cases h
    exact ⟨rfl, rfl, rfl, Nat.le_refl _, by dsimp only; omega⟩
  · cases h
    exact ⟨rfl, rfl, rfl, by dsimp only; omega, hstack.2⟩

theorem nextreg_spec {fs fs' : FuncState V} {i : Instr V} {words : Nat}
    (hstack : fs.freereg ≤ fs.maxstacksize ∧ fs.maxstacksize ≤ 254)
    (h : (fs.reserve.bind fun fs => fs.emit i words) = .ok fs') :
    fs'.code = fs.code ++ [i] ∧ fs'.freereg = fs.freereg + 1 ∧ fs'.pc = fs.pc + words ∧ fs'.pc ≤ 2147483647 ∧
      fs'.freereg ≤ fs'.maxstacksize ∧ fs'.maxstacksize ≤ 254 := by
  obtain ⟨fs₁, hreserve, hemit⟩ := Rust.bind_eq_ok.mp h
  obtain ⟨hcode, hreg, hpc, hstack'⟩ := reserve_spec hstack hreserve
  obtain ⟨hcode', hreg', hmax', hpc', hlimit⟩ := emit_spec hemit
  exact ⟨by rw [hcode', hcode], by rw [hreg', hreg], by rw [hpc', hpc], hlimit, by rw [hreg', hmax']; exact hstack'.1,
    by rw [hmax']; exact hstack'.2⟩

theorem setlist_code {fs fs' : FuncState V} {base na : Nat} {tostore : Int} {n : Nat}
    (hn : n = (if tostore = -1 then 0 else tostore).toNat) (h : fs.setlist base na tostore = .ok fs') :
    fs'.code = fs.code ++ [setlistCode base na n] ∧ fs'.freereg = base + 1 ∧ fs'.maxstacksize = fs.maxstacksize ∧
      fs.pc ≤ fs'.pc ∧ fs'.pc ≤ fs.pc + 2 ∧ fs'.pc ≤ 2147483647 := by
  unfold FuncState.setlist at h
  dsimp only at h
  rw [← hn] at h
  by_cases hsmall : na ≤ 255
  · rw [if_pos (show (na : Int) ≤ 255 by omega), Int.toNat_natCast] at h
    obtain ⟨fs₁, hemit, h⟩ := Rust.bind_eq_ok.mp h
    cases h
    obtain ⟨hcode, hreg, hmax, hpc, hlimit⟩ := emit_spec hemit
    exact ⟨by rw [setlistCode, if_pos hsmall]; exact hcode, rfl, hmax, by dsimp only; omega, by dsimp only; omega,
      hlimit⟩
  · rw [if_neg (show ¬(na : Int) ≤ 255 by omega), show ((na : Int) % 256).toNat = na % 256 by omega,
      show ((na : Int) / 256).toNat = na / 256 by omega] at h
    obtain ⟨fs₁, hemit, h⟩ := Rust.bind_eq_ok.mp h
    cases h
    obtain ⟨hcode, hreg, hmax, hpc, hlimit⟩ := emit_spec hemit
    exact ⟨by rw [setlistCode, if_neg hsmall]; exact hcode, rfl, hmax, by dsimp only; omega, by dsimp only; omega,
      hlimit⟩

theorem cint_eq {z z' : Int} (h : cint z = .ok z') : z' = z ∧ z < 2 ^ 31 := by
  unfold cint at h
  split_ifs at h with hz
  cases h
  exact ⟨rfl, hz.2⟩

end Tsuki.Constructor
