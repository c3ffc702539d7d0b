import Tsuki.Code.ConstructorRun

/-!
# The parser of table constructors

The fields one by one: what each adds to the code, and what the code does. `stores` is the order in which a constructor
stores its items and fields, and each function of the parser is specified by the stores it takes off its front: those
that its code makes are followed by those of the fields still to come. The counters of the parser are the numbers of the
items and fields so far, and the code of a constructor fails to be written where one overflows or there is no room.
-/

namespace Tsuki.Constructor

open Table (Key Hashes TableError Represents Inv Done)

variable {V : Type} {hs : Hashes} {d memory : Nat}

/-! ## Fields -/

/-- All values of an expression. -/
def Exp.values : Exp V → List (Option V)
  | .one _ x => [x]
  | .multi _ xs => xs

/-- The values of the items: one of each, and all of the last field. -/
def items : List (Field V) → List (Option V)
  | [] => []
  | [.item e] => e.values
  | .item e :: f :: l => e.first :: items (f :: l)
  | .record _ _ _ :: l => items l

/-- The number of the items, without a call or vararg at the end. -/
def singles : List (Field V) → Nat
  | [] => 0
  | [.item (.multi _ _)] => 0
  | .item _ :: l => singles l + 1
  | .record _ _ _ :: l => singles l

/-- The number of the fields with a name or a key. -/
def numRecords : List (Field V) → Nat
  | [] => 0
  | .item _ :: l => numRecords l
  | .record _ _ _ :: l => numRecords l + 1

/-- The number of instructions of the expressions and stores. -/
def words : List (Field V) → Nat
  | [] => 0
  | .item e :: l => e.words + words l
  | .record w _ _ :: l => w + 1 + words l

/-- The number of the items. -/
def numItems : List (Field V) → Nat
  | [] => 0
  | .item _ :: l => numItems l + 1
  | .record _ _ _ :: l => numItems l

/-- The stores of the fields with a name or a key. -/
def records : List (Field V) → Stores V
  | [] => []
  | .item _ :: l => records l
  | .record _ k x :: l =>
    match Table.normalizeKey k with
    | .ok c => (c, x) :: records l
    | .error _ => records l

/-- The stores in the order they are made, where `n` items are stored and the values of `pend` are in registers: fifty
items are stored before the field behind them, from the last one to the first, and the rest at the end. -/
def stores : Nat → List (Option V) → List (Field V) → Stores V
  | n, pend, [] => (positions n pend).reverse
  | n, pend, [.item e] => (positions n (pend ++ e.values)).reverse
  | n, pend, .item e :: f :: l =>
    if pend.length + 1 = 50 then (positions n (pend ++ [e.first])).reverse ++ stores (n + 50) [] (f :: l)
    else stores n (pend ++ [e.first]) (f :: l)
  | n, pend, .record words k x :: l => records [.record words k x] ++ stores n pend l

/-- The key of a field is none. -/
def Rejects (l : List (Field V)) (e : TableError) : Prop :=
  ∃ words k x, Field.record words k x ∈ l ∧ Table.normalizeKey k = .error e

/-- The item that is not in a register yet. -/
def pending (v : Option (Exp V)) : List (Field V) := v.toList.map .item

theorem items_pending (v : Option (Exp V)) (f : Field V) (l : List (Field V)) :
    items (pending v ++ f :: l) = (v.map Exp.first).toList ++ items (f :: l) := by
  cases v <;> rfl

theorem singles_pending (v : Option (Exp V)) (f : Field V) (l : List (Field V)) :
    singles (pending v ++ f :: l) = (v.map Exp.first).toList.length + singles (f :: l) := by
  cases v with
  | none => exact (Nat.zero_add _).symm
  | some e => cases e <;> exact Nat.add_comm _ _

/-- There are registers and instructions for the fields, where `n` items are in registers. -/
def Fits (fs : FuncState V) (t n : Nat) (l : List (Field V)) : Prop :=
  fs.pc + words l + 2 * ((n + numItems l) / 50 + 1) ≤ 2147483647 ∧ t ≤ 203

theorem words_pending (v : Option (Exp V)) (l : List (Field V)) :
    words (pending v ++ l) = words (pending v) + words l := by
  cases v with
  | none => exact (Nat.zero_add _).symm
  | some e => exact Nat.add_right_cancel_iff.mpr (Nat.add_zero _).symm

theorem numItems_pending (v : Option (Exp V)) (l : List (Field V)) :
    numItems (pending v ++ l) = (if v.isSome then 1 else 0) + numItems l := by
  cases v with
  | none => exact (Nat.zero_add _).symm
  | some e => exact Nat.add_comm _ _

theorem numItems_pending_self (v : Option (Exp V)) : numItems (pending v) = if v.isSome then 1 else 0 := by
  cases v <;> rfl

theorem words_cons (f : Field V) (l : List (Field V)) : words (f :: l) = words [f] + words l := by
  cases f with
  | item e => rfl
  | record w k x => rw [words, words, words, Nat.add_zero]

/-- The expression of a field that waits for the next field. -/
def Field.exp : Field V → Option (Exp V)
  | .item e => some e
  | .record _ _ _ => none

theorem numItems_waits (f : Field V) (l : List (Field V)) : numItems (pending f.exp ++ l) = numItems (f :: l) := by
  cases f <;> rfl

theorem singles_waits (f : Field V) (l : List (Field V)) : singles (pending f.exp ++ l) = singles (f :: l) := by
  cases f <;> rfl

theorem items_waits (f : Field V) (l : List (Field V)) : items (pending f.exp ++ l) = items (f :: l) := by
  cases f with
  | item e => rfl
  | record w k x =>
    rw [items]
    rfl

theorem records_cons (f : Field V) (l : List (Field V)) : records [f] ++ records l = records (f :: l) := by
  cases f with
  | item e => rfl
  | record words k x =>
    rw [records, records, records]
    cases Table.normalizeKey k <;> rfl

theorem records_length (l : List (Field V)) : (records l).length ≤ numRecords l := by
  induction l with
  | nil => exact Nat.le_refl _
  | cons f l ih =>
    cases f with
    | item e => exact ih
    | record words k x =>
      rw [records, numRecords]
      cases Table.normalizeKey k with
      | ok c => exact Nat.succ_le_succ ih
      | error e => exact Nat.le_succ_of_le ih

theorem positions_length (xs : List (Option V)) : ∀ n, (positions n xs).length = xs.length := by
  induction xs with
  | nil => exact fun _ => rfl
  | cons x xs ih => exact fun n => congrArg Nat.succ (ih (n + 1))

/-- All items are stored, item `i` at the index `i`, and all fields. -/
theorem stores_perm (n : Nat) (pend : List (Option V)) (l : List (Field V)) :
    (stores n pend l).Perm (positions n (pend ++ items l) ++ records l) := by
  induction n, pend, l using stores.induct with
  | case1 n pend =>
    rw [stores, items, records, List.append_nil, List.append_nil]
    exact List.reverse_perm _
  | case2 n pend e =>
    rw [stores, items, records, records, List.append_nil]
    exact List.reverse_perm _
  | case3 n pend e f l hfull ih =>
    rw [stores, if_pos hfull, items, records, List.append_cons pend _ (items (f :: l)),
      positions_append (pend ++ [e.first]), List.append_assoc]
    refine (List.reverse_perm _).append ?_
    rw [List.length_append, List.length_singleton, hfull]
    exact ih
  | case4 n pend e f l hfull ih =>
    rw [stores, if_neg hfull, items, records, List.append_cons pend _ (items (f :: l))]
    exact ih
  | case5 n pend words k x l ih =>
    rw [stores, ← records_cons _ l, items]
    exact (ih.append_left _).trans (List.perm_append_comm_assoc _ _ _)

theorem records_sublist (n : Nat) (pend : List (Option V)) (l : List (Field V)) :
    (records l).Sublist (stores n pend l) := by
  induction n, pend, l using stores.induct with
  | case1 | case2 => exact List.nil_sublist _
  | case3 n pend e f l hfull ih =>
    rw [stores, if_pos hfull]
    exact ih.trans (List.sublist_append_right _ _)
  | case4 n pend e f l hfull ih =>
    rw [stores, if_neg hfull]
    exact ih
  | case5 n pend words k x l ih =>
    rw [stores, ← records_cons _ l]
    exact (List.Sublist.refl _).append ih

theorem stores_length (l : List (Field V)) : (stores 0 [] l).length ≤ (items l).length + numRecords l := by
  rw [(stores_perm 0 [] l).length_eq, List.length_append, positions_length, List.nil_append]
  exact Nat.add_le_add_left (records_length l) _

theorem mem_of_assign {order : Stores V} : ∀ {m : Table.Map V} {k : Key}, (assign m order k).isSome = true →
    (m k).isSome = true ∨ k ∈ order.map Prod.fst := by
  induction order with
  | nil => exact fun h => .inl h
  | cons s order ih =>
    intro m k h
    rcases ih (m := Function.update m s.1 s.2) h with hold | hmem
    · by_cases hk : k = s.1
      · exact .inr (List.mem_cons.mpr (.inl hk))
      · rw [Function.update_of_ne hk] at hold
        exact .inl hold
    · exact .inr (List.mem_cons_of_mem _ hmem)

/-- A table overflows only after as many stores as the largest hash part has nodes. -/
theorem overflows_length {order : Stores V} {t : Table V} (h : Represents hs t (assign (fun _ => none) order)) {c : Key}
    {x : Option V} (hover : Table.Overflows t c x) : 2 ^ 30 ≤ order.length := by
  classical
  obtain ⟨s, hcard, hall⟩ := h.crowded hover
  have hsub : s ⊆ (order.map Prod.fst).toFinset := by
    intro k hk
    rw [List.mem_toFinset]
    exact (mem_of_assign (hall k hk)).resolve_left Bool.false_ne_true
  have hle := (Finset.card_le_card hsub).trans (List.toFinset_card_le _)
  rw [List.length_map] at hle
  omega

theorem put_singleton (s : Nat → Option V) (i : Nat) (x : Option V) : Coroutine.put s i [x] = Function.update s i x :=
  rfl

/-- Nothing to run. -/
theorem Outcome.nil {lim : String → Prop} {st : State V} {bad : TableError → Prop} {P : State V → Prop} (h : P st) :
    Outcome lim (exec hs d memory st []) bad P :=
  .inr (.inr ⟨st, rfl, h⟩)

section

variable {fs fs' : FuncState V} {cc cc' : ConsControl V} {done pend : List (Option V)}

variable (hs d memory) (lim : String → Prop) (bad : TableError → Prop)

theorem exp2nextreg_spec {e : Exp V} {t : Nat} (hreg : fs.freereg = t + 1 + pend.length)
    (hstack : fs.freereg ≤ fs.maxstacksize ∧ fs.maxstacksize ≤ 254) (heq : fs.exp2nextreg e = .ok fs') :
    ∃ is, fs'.code = fs.code ++ is ∧ fs'.freereg = t + 1 + (pend.length + 1) ∧ fs'.pc = fs.pc + e.words ∧
      fs'.pc ≤ 2147483647 ∧ (fs'.freereg ≤ fs'.maxstacksize ∧ fs'.maxstacksize ≤ 254) ∧
      ∀ order st, Running hs t order pend st →
        Outcome lim (exec hs d memory st is) bad (Running hs t order (pend ++ [e.first])) := by
  obtain ⟨hcode, hreg', hpc, hlimit, hstack'⟩ := nextreg_spec hstack (show _ = _ from heq)
  refine ⟨_, hcode, ?_, hpc, hlimit, hstack', fun order st hrun => ?_⟩
  · rw [hreg', hreg, Nat.add_assoc]
  · rw [exec_single]
    refine .inr (.inr ⟨_, rfl, ?_⟩)
    rw [hreg, ← put_singleton]
    exact hrun.eval [e.first] st.top

theorem closelistfield_spec (h : Ready fs cc done pend)
    (hlim : memory < done.length + pend.length + (pending cc.v).length → lim "memory allocation failed")
    (heq : closelistfield fs cc = .ok (fs', cc')) :
    ∃ is done' pend' more, fs'.code = fs.code ++ is ∧ Ready fs' cc' done' pend' ∧ cc'.v = none ∧ cc'.t = cc.t ∧
      cc'.nh = cc.nh ∧ done' ++ pend' = done ++ pend ++ (cc.v.map Exp.first).toList ∧
      (∀ n, fs'.pc + 2 * ((pend'.length + n) / 50) ≤
        fs.pc + words (pending cc.v) + 2 * ((pend.length + numItems (pending cc.v) + n) / 50)) ∧
      (∀ f l, stores done.length pend (pending cc.v ++ f :: l) = more ++ stores done'.length pend' (f :: l)) ∧
      ∀ order st, Running hs cc.t order pend st →
        Outcome lim (exec hs d memory st is) bad (Running hs cc.t (order ++ more) pend') := by
  obtain ⟨v, t, nh, na, tostore⟩ := cc
  cases v with
  | none =>
    cases heq
    refine ⟨[], done, pend, [], (List.append_nil _).symm, h, rfl, rfl, rfl, (List.append_nil _).symm, fun n => ?_,
      fun _ _ => rfl, fun order st hrun => Outcome.nil ?_⟩
    · exact Nat.le_refl _
    · rwa [List.append_nil]
  | some e =>
    obtain ⟨fs₁, hexp, heq⟩ := Rust.bind_eq_ok.mp heq
    obtain ⟨is, hcode, hreg, hpc, hlimit, hstack, hexec⟩ :=
      exp2nextreg_spec hs d memory lim bad h.freereg h.stack hexp
    have hnh := h.nh
    have hmemory : memory < done.length + (pend.length + 1) → lim "memory allocation failed" := hlim
    have hle := h.pend_le
    obtain rfl : na = done.length := h.na
    obtain rfl : tostore = pend.length + 1 := h.tostore
    have hregle := hstack.1.trans hstack.2
    dsimp only at heq hnh hreg
    by_cases hfull : (pend.length : Int) + 1 = 50
    · rw [if_pos hfull, hfull] at heq
      obtain ⟨fs₂, hset, heq⟩ := Rust.bind_eq_ok.mp heq
      obtain ⟨hcode₂, hreg₂, hmax₂, hpc₂, hpc₂', hlimit₂⟩ :=
        setlist_code (show 50 = (if (50 : Int) = -1 then (0 : Int) else 50).toNat by decide) hset
      obtain ⟨na', hna, heq⟩ := Rust.bind_eq_ok.mp heq
      obtain ⟨rfl, hlt⟩ := cint_eq hna
      cases heq
      have hlen : (done ++ (pend ++ [e.first])).length = done.length + 50 := by
        simp only [List.length_append, List.length_singleton]
        omega
      refine ⟨is ++ [setlistCode t done.length 50], done ++ (pend ++ [e.first]), [],
        (positions done.length (pend ++ [e.first])).reverse, ?_, ?_, rfl, rfl, rfl, ?_, fun n => ?_, fun f l => ?_, ?_⟩
      · rw [hcode₂, hcode, List.append_assoc]
      · refine ⟨hreg₂, ?_, ?_, ?_, rfl, Nat.zero_le _, ⟨hnh.1, ?_⟩, hlimit₂⟩
        · rw [hreg₂, hmax₂]
          omega
        · rw [hlen]
          rfl
        · omega
        · dsimp only
          omega
      · rw [List.append_nil, List.append_assoc]
        rfl
      · show fs'.pc + 2 * ((0 + n) / 50) ≤ fs.pc + (e.words + 0) + 2 * ((pend.length + (0 + 1) + n) / 50)
        omega
      · rw [hlen]
        exact if_pos (by omega)
      · intro order st hrun
        have hpend : (pend ++ [e.first]).length = 50 := by
          rw [List.length_append, List.length_singleton]
          omega
        refine (hexec order st hrun).append fun st' hrun' => ?_
        exact hrun'.setlist (fun hbig => hmemory (by omega)) (.inr (by omega)) (show t < 2 ^ 8 by omega) (by decide)
          (by omega) (by omega) (.inr ⟨by decide, hpend.symm⟩)
    · rw [if_neg hfull] at heq
      cases heq
      have hlen : (pend ++ [e.first]).length = pend.length + 1 := by
        rw [List.length_append, List.length_singleton]
      refine ⟨is, done, pend ++ [e.first], [], hcode, ?_, rfl, rfl, rfl, (List.append_assoc ..).symm, fun n => ?_,
        fun f l => if_neg (by omega), fun order st hrun => ?_⟩
      · refine ⟨by rw [hlen]; exact hreg, hstack, rfl, h.na_lt, ?_, by omega, ⟨hnh.1, ?_⟩, hlimit⟩
        · rw [hlen]
          rfl
        · dsimp only
          omega
      · show fs'.pc + 2 * (((pend ++ [e.first]).length + n) / 50) ≤
          fs.pc + (e.words + 0) + 2 * ((pend.length + (0 + 1) + n) / 50)
        rw [hlen]
        omega
      · rw [List.append_nil]
        exact hexec order st hrun

theorem field_spec {f : Field V} (hbad : ∀ e, Rejects [f] e → bad e) (h : Ready fs cc done pend) (hv : cc.v = none)
    (heq : field fs cc f = .ok (fs', cc')) :
    ∃ is, fs'.code = fs.code ++ is ∧ Ready fs' cc' done pend ∧ cc'.v = f.exp ∧ cc'.t = cc.t ∧
      cc'.nh = cc.nh + numRecords [f] ∧ fs'.pc + words (pending f.exp) = fs.pc + words [f] ∧
      (∀ l, stores done.length pend (f :: l) = records [f] ++ stores done.length pend (pending f.exp ++ l)) ∧
      ∀ order st, (2 ^ 30 ≤ order.length → lim "table overflow") → Running hs cc.t order pend st →
        Outcome lim (exec hs d memory st is) bad (Running hs cc.t (order ++ records [f]) pend) := by
  obtain ⟨v, t, nh, na, tostore⟩ := cc
  obtain rfl : v = none := hv
  obtain rfl : tostore = pend.length := h.tostore.trans (Int.add_zero _)
  cases f with
  | item e =>
    obtain ⟨tostore, htostore, heq⟩ := Rust.bind_eq_ok.mp heq
    obtain ⟨rfl, -⟩ := cint_eq htostore
    cases heq
    refine ⟨[], (List.append_nil _).symm, ⟨h.freereg, h.stack, h.na, h.na_lt, rfl, h.pend_le, h.nh, h.pc⟩, rfl, rfl,
      (Int.add_zero _).symm, rfl, fun l => rfl, fun order st _ hrun => Outcome.nil ?_⟩
    rwa [records, records, List.append_nil]
  | record words k x =>
    obtain ⟨nh', hnh', heq⟩ := Rust.bind_eq_ok.mp heq
    obtain ⟨rfl, -⟩ := cint_eq hnh'
    obtain ⟨fs₁, hemit, heq⟩ := Rust.bind_eq_ok.mp heq
    cases heq
    obtain ⟨hcode, hreg, hmax, hpc, hlimit⟩ := emit_spec hemit
    have hnh := h.nh
    dsimp only at hnh
    refine ⟨_, hcode, ⟨hreg.trans h.freereg, by rw [hreg, hmax]; exact h.stack, h.na, h.na_lt, h.tostore, h.pend_le,
      ⟨by dsimp only; omega, by dsimp only; omega⟩, hlimit⟩, rfl, rfl, rfl, hpc, fun l => by rw [stores]; rfl,
      fun order st hlim hrun => ?_⟩
    obtain ⟨tab, htab, ht⟩ := hrun.tab
    rw [exec_single, step, htab]
    dsimp only
    rw [if_pos rfl]
    cases hk : Table.normalizeKey k with
    | error e =>
      rw [ht.set_rejects hk]
      exact .inr (.inl ⟨e, rfl, hbad e ⟨words, k, x, List.mem_singleton.mpr rfl, hk⟩⟩)
    | ok c =>
      rcases ht.set hk x with ⟨hover, herr⟩ | ⟨tab', hset, ht'⟩
      · rw [herr]
        exact .inl ⟨_, rfl, hlim (overflows_length ht hover)⟩
      · rw [hset]
        refine .inr (.inr ⟨_, rfl, ⟨tab', rfl, ?_⟩, hrun.regs⟩)
        rw [records, records, hk, assign_append]
        exact ht'

theorem fields_spec (l : List (Field V)) : ∀ {fs : FuncState V} {cc : ConsControl V} {done pend : List (Option V)},
    (∀ e, Rejects l e → bad e) → Ready fs cc done pend →
    (memory < done.length + pend.length + (items (pending cc.v ++ l)).length → lim "memory allocation failed") →
    fields fs cc l = .ok (fs', cc') →
    ∃ is done' pend' more, fs'.code = fs.code ++ is ∧ Ready fs' cc' done' pend' ∧ cc'.t = cc.t ∧
      cc'.nh = cc.nh + numRecords l ∧ pending cc'.v <:+ pending cc.v ++ l ∧
      done' ++ pend' ++ items (pending cc'.v) = done ++ pend ++ items (pending cc.v ++ l) ∧
      done'.length + pend'.length + singles (pending cc'.v) =
        done.length + pend.length + singles (pending cc.v ++ l) ∧
      (Fits fs cc.t pend.length (pending cc.v ++ l) → Fits fs' cc.t pend'.length (pending cc'.v)) ∧
      stores done.length pend (pending cc.v ++ l) = more ++ stores done'.length pend' (pending cc'.v) ∧
      ∀ order st, (2 ^ 30 ≤ order.length + more.length → lim "table overflow") → Running hs cc.t order pend st →
        Outcome lim (exec hs d memory st is) bad (Running hs cc.t (order ++ more) pend') := by
  induction l with
  | nil =>
    intro fs cc done pend _ h _ heq
    cases heq
    refine ⟨[], done, pend, [], (List.append_nil _).symm, h, rfl, (Int.add_zero _).symm, ?_, ?_, ?_, ?_, ?_,
      fun order st _ hrun => Outcome.nil ?_⟩
    · rw [List.append_nil]
    · rw [List.append_nil]
    · rw [List.append_nil]
    · rw [List.append_nil]
      exact id
    · rw [List.append_nil, List.nil_append]
    · rwa [List.append_nil]
  | cons f l ih =>
    intro fs cc done pend hbad h hlim heq
    obtain ⟨⟨fs₁, cc₁⟩, hclose, heq⟩ := Rust.bind_eq_ok.mp heq
    obtain ⟨⟨fs₂, cc₂⟩, hfield, heq⟩ := Rust.bind_eq_ok.mp heq
    have hcount : (items (pending cc.v ++ f :: l)).length = (pending cc.v).length + (items (f :: l)).length := by
      rw [items_pending, List.length_append]
      cases cc.v <;> rfl
    obtain ⟨is₁, done₁, pend₁, more₁, hcode₁, h₁, hv₁, ht₁, hnh₁, hitems₁, hpc₁, hstores₁, hexec₁⟩ :=
      closelistfield_spec hs d memory lim bad h (fun hbig => hlim (by omega)) hclose
    obtain ⟨is₂, hcode₂, h₂, hv₂, ht₂, hnh₂, hpc₂, hstores₂, hexec₂⟩ := field_spec hs d memory lim bad
      (fun e ⟨words, k, x, hmem, hk⟩ => hbad e ⟨words, k, x, by
        rw [List.mem_singleton.mp hmem]
        exact List.mem_cons_self, hk⟩) h₁ hv₁ hfield
    have hlen := congrArg List.length hitems₁
    simp only [List.length_append] at hlen
    have hone : (pending cc.v).length = (cc.v.map Exp.first).toList.length := by cases cc.v <;> rfl
    obtain ⟨is', done', pend', more', hcode', h', ht', hnh', hsuffix', hitems', hsingles', hfits', hstores', hexec'⟩ :=
      ih (fun e ⟨words, k, x, hmem, hk⟩ => hbad e ⟨words, k, x, List.mem_cons_of_mem _ hmem, hk⟩) h₂ (fun hbig => by
        rw [hv₂, items_waits] at hbig
        exact hlim (by omega)) heq
    have hnum : (numRecords [f] : Int) + numRecords l = numRecords (f :: l) := by
      cases f with
      | item e => rw [numRecords, numRecords, numRecords, Int.natCast_zero, Int.zero_add]
      | record words k x =>
        rw [numRecords, numRecords, numRecords]
        omega
    rw [hv₂, items_waits] at hitems'
    rw [hv₂, singles_waits] at hsingles'
    rw [hv₂] at hsuffix' hstores'
    refine ⟨is₁ ++ (is₂ ++ is'), done', pend', more₁ ++ (records [f] ++ more'), ?_, h', ht'.trans (ht₂.trans ht₁), ?_,
      ?_, ?_, ?_, fun hfits => ?_, ?_, fun order st hover hrun => ?_⟩
    · rw [hcode', hcode₂, hcode₁, List.append_assoc, List.append_assoc]
    · rw [hnh', hnh₂, hnh₁, Int.add_assoc, hnum]
    · have hwaits : pending f.exp ++ l <:+ f :: l := by
        cases f with
        | item e => exact List.suffix_rfl
        | record words k x => exact List.suffix_cons _ _
      exact hsuffix'.trans (hwaits.trans (List.suffix_append _ _))
    · rw [hitems', hitems₁, items_pending, List.append_assoc]
    · rw [hsingles', singles_pending]
      omega
    · rw [ht₂, ht₁] at hfits'
      refine hfits' ?_
      rw [hv₂, Fits, words_pending, numItems_waits, ← Nat.add_assoc, hpc₂, Nat.add_assoc _ (words [f]), ← words_cons]
      rw [Fits, words_pending, numItems_pending] at hfits
      have hroom := hpc₁ (numItems (f :: l))
      rw [numItems_pending_self] at hroom
      omega
    · rw [hstores₁, hstores₂, hstores', List.append_assoc, List.append_assoc]
    · rw [ht₁] at hexec₂
      rw [ht₂, ht₁] at hexec'
      simp only [List.length_append] at hover
      refine (hexec₁ order st hrun).append fun st₁ hrun₁ => ?_
      refine (hexec₂ _ st₁ (fun hbig => hover ?_) hrun₁).append fun st₂ hrun₂ => ?_
      · rw [List.length_append] at hbig
        omega
      · rw [← List.append_assoc, ← List.append_assoc]
        refine hexec' _ st₂ (fun hbig => hover ?_) hrun₂
        simp only [List.length_append] at hbig
        omega

theorem lastlistfield_spec (h : Ready fs cc done pend)
    (hlim : memory < (done ++ pend ++ items (pending cc.v)).length → lim "memory allocation failed")
    (hopen : ∀ words xs, cc.v = some (.multi words xs) → 1000000 < 254 + xs.length → lim "stack overflow")
    (heq : lastlistfield fs cc = .ok (fs', cc')) :
    ∃ is, fs'.code = fs.code ++ is ∧ cc'.nh = cc.nh ∧
      cc'.na = (done.length + pend.length + singles (pending cc.v) : Nat) ∧ cc'.na < 2 ^ 31 ∧
      ∀ order st, (memory ≤ 2 ^ 31 ∨ (done ++ pend ++ items (pending cc.v)).length ≤ 2 ^ 31) →
        Running hs cc.t order pend st →
        Outcome lim (exec hs d memory st is) bad (Running hs cc.t (order ++ stores done.length pend (pending cc.v)) []) := by
  obtain ⟨v, t, nh, na, tostore⟩ := cc
  obtain rfl : na = done.length := h.na
  have htostore : tostore = pend.length + if v.isSome then 1 else 0 := h.tostore
  have hle := h.pend_le
  have hlt := h.na_lt
  have hregle := h.stack.1.trans h.stack.2
  have hreg : fs.freereg = t + 1 + pend.length := h.freereg
  have hmemory (hbig : memory < done.length + (pend ++ items (pending v)).length) :
      lim "memory allocation failed" := by
    refine hlim ?_
    rw [List.append_assoc, List.length_append]
    exact hbig
  unfold lastlistfield at heq
  dsimp only at heq
  cases v with
  | none =>
    obtain rfl : tostore = pend.length := htostore.trans (Int.add_zero _)
    by_cases hzero : (pend.length : Int) = 0
    · rw [if_pos hzero] at heq
      cases heq
      obtain rfl : pend = [] := List.eq_nil_of_length_eq_zero (by omega)
      refine ⟨[], (List.append_nil _).symm, rfl, rfl, by dsimp only; omega, fun order st _ hrun => Outcome.nil ?_⟩
      show Running hs t (order ++ []) [] st
      rwa [List.append_nil]
    · rw [if_neg hzero] at heq
      obtain ⟨fs₁, hset, heq⟩ := Rust.bind_eq_ok.mp heq
      obtain ⟨hcode, -⟩ := setlist_code (show pend.length =
        (if (pend.length : Int) = -1 then (0 : Int) else pend.length).toNat by
          rw [if_neg (by omega)]
          omega) hset
      obtain ⟨na', hna, heq⟩ := Rust.bind_eq_ok.mp heq
      obtain ⟨rfl, hlt'⟩ := cint_eq hna
      cases heq
      refine ⟨_, hcode, rfl, rfl, hlt', fun order st _ hrun => ?_⟩
      refine hrun.setlist (fun hbig => hmemory ?_) (.inr (by omega)) (show t < 2 ^ 8 by omega) (by omega) hlt
        (by omega) (.inr ⟨by omega, rfl⟩)
      show memory < done.length + (pend ++ []).length
      rwa [List.append_nil]
  | some e =>
    obtain rfl : tostore = pend.length + 1 := htostore
    rw [if_neg (show ¬(pend.length : Int) + 1 = 0 by omega)] at heq
    cases e with
    | one words x =>
      obtain ⟨fs₁, hexp, heq⟩ := Rust.bind_eq_ok.mp heq
      obtain ⟨is, hcode₁, -, -, -, -, hexec⟩ := exp2nextreg_spec hs d memory lim bad h.freereg h.stack hexp
      obtain ⟨fs₂, hset, heq⟩ := Rust.bind_eq_ok.mp heq
      obtain ⟨hcode, -⟩ := setlist_code (show pend.length + 1 =
        (if (pend.length : Int) + 1 = -1 then (0 : Int) else pend.length + 1).toNat by
          rw [if_neg (by omega)]
          omega) hset
      obtain ⟨na', hna, heq⟩ := Rust.bind_eq_ok.mp heq
      obtain ⟨rfl, hlt'⟩ := cint_eq hna
      cases heq
      refine ⟨is ++ [setlistCode t done.length (pend.length + 1)], ?_, rfl, rfl, hlt', fun order st _ hrun => ?_⟩
      · rw [hcode, hcode₁, List.append_assoc]
      · have hlen : (pend ++ [x]).length = pend.length + 1 := by
          rw [List.length_append, List.length_singleton]
        refine (hexec order st hrun).append fun st' hrun' => ?_
        exact hrun'.setlist hmemory (.inr (by rw [Exp.first]; omega)) (show t < 2 ^ 8 by omega) (by omega) hlt
          (by rw [Exp.first]; omega) (.inr ⟨by omega, hlen.symm⟩)
    | multi words xs =>
      obtain ⟨fs₁, hexp, heq⟩ := Rust.bind_eq_ok.mp heq
      obtain ⟨hcode₁, -⟩ := nextreg_spec h.stack (show _ = _ from hexp)
      obtain ⟨fs₂, hset, heq⟩ := Rust.bind_eq_ok.mp heq
      obtain ⟨hcode, -⟩ := setlist_code (show 0 = (if (-1 : Int) = -1 then (0 : Int) else -1).toNat by decide) hset
      obtain ⟨na₁, hna₁, heq⟩ := Rust.bind_eq_ok.mp heq
      obtain ⟨rfl, -⟩ := cint_eq hna₁
      obtain ⟨na', hna, heq⟩ := Rust.bind_eq_ok.mp heq
      obtain ⟨rfl, hlt'⟩ := cint_eq hna
      cases heq
      refine ⟨[.evalOpen fs.freereg xs] ++ [setlistCode t done.length 0], ?_, rfl, ?_, hlt',
        fun order st hmem hrun => ?_⟩
      · rw [hcode, hcode₁, List.append_assoc]
      · show (done.length : Int) - 1 + (pend.length + 1) = (done.length + pend.length + 0 : Nat)
        omega
      · have hopened : Outcome lim (exec hs d memory st [.evalOpen fs.freereg xs]) bad fun st' =>
            Running hs t order (pend ++ xs) st' ∧ st'.top = t + 1 + (pend ++ xs).length ∧
              (pend ++ xs).length ≤ 1000000 := by
          rw [exec_single, step]
          by_cases hbig : 1000000 < fs.freereg + xs.length
          · rw [if_pos hbig]
            exact .inl ⟨_, rfl, hopen words xs rfl (by omega)⟩
          · rw [if_neg hbig]
            refine .inr (.inr ⟨_, rfl, ?_, ?_, ?_⟩)
            · rw [hreg]
              exact hrun.eval xs _
            · rw [hreg, List.length_append]
              exact Nat.add_assoc ..
            · rw [List.length_append]
              omega
        refine hopened.append fun st' hst' => ?_
        obtain ⟨hrun', htop, hlen⟩ := hst'
        have hmem : memory ≤ 2 ^ 31 ∨ (done ++ pend ++ xs).length ≤ 2 ^ 31 := hmem
        rw [List.append_assoc, List.length_append] at hmem
        exact hrun'.setlist hmemory hmem (show t < 2 ^ 8 by omega) (by decide) hlt hlen (.inl ⟨rfl, htop⟩)

end

/-! ## Constructors -/

section

variable {fs fs' : FuncState V} {cc' : ConsControl V} {l : List (Field V)}

/-- The limits of the code: the array part has a slot for each item, the values of the last expression are on the stack
at once, and the hash part has at most `2 ^ 30` nodes. -/
def Limits (memory : Nat) (l : List (Field V)) (s : String) : Prop :=
  s = "memory allocation failed" ∧ memory < (items l).length ∨
    s = "stack overflow" ∧ (∃ w xs, l.getLast? = some (.item (.multi w xs)) ∧ 1000000 < 254 + xs.length) ∨
    s = "table overflow" ∧ 2 ^ 30 ≤ (items l).length + numRecords l

/-- The code builds the table: it makes the stores of the schedule, which has item `i` at the index `i`, and the fields
in their order. -/
def Builds (hs : Hashes) (d memory : Nat) (l : List (Field V)) (code : List (Instr V)) : Prop :=
  ((stores 0 [] l).Perm (positions 0 (items l) ++ records l) ∧ (records l).Sublist (stores 0 [] l)) ∧
    ∀ st, Outcome (Limits memory l) (exec hs d memory st code) (Rejects l) fun st' =>
      ∃ r t, st'.tab = some (r, t) ∧ Represents hs t (assign (fun _ => none) (stores 0 [] l))

/-- The sizes of the constructor are those the table starts with. -/
def Hints (hs : Hashes) (d memory : Nat) (l : List (Field V)) (i e : Nat) : Prop :=
  newtable (V := V) hs d memory i e =
    if numRecords l ≠ 0 ∨ singles l ≠ 0 then
      luaH_resize hs d memory (Table.new V) (singles l) (Table.roomFor (numRecords l))
    else .ok (Table.new V)

/-- An empty table with the sizes of the constructor. -/
theorem newtable_spec {asize hsize : Nat} (hasize : asize < 2 ^ 31) :
    memory < asize ∧ luaH_resize hs d memory (Table.new V) asize hsize = .error (.msg "memory allocation failed") ∨
      2 ^ 30 < hsize ∧ luaH_resize hs d memory (Table.new V) asize hsize = .error (.msg "table overflow") ∨
      ∃ t, luaH_resize hs d memory (Table.new V) asize hsize = .ok t ∧ Represents hs t fun _ => none := by
  unfold luaH_resize
  by_cases hbig : memory < asize
  · rw [if_pos hbig]
    exact .inl ⟨hbig, rfl⟩
  rw [if_neg hbig]
  have hroom : ((Table.new V).array.drop asize).countP (·.isSome) ≤ Table.roomFor hsize := by
    rw [show (Table.new V).array = [] from rfl, List.drop_nil]
    exact Nat.zero_le _
  have hset : ∀ (nd : Table.Node V) k v l (t : Table V), nd.key = .live k → nd.val = some v → Table.Normal k → Inv hs t →
      (∀ nd' ∈ nd :: l, nd'.val = none) →
      Done False (Table.set hs (Table.newkey hs (d + 2)) t k (some v)) fun t' =>
        Inv hs t' ∧ Table.Updates t t' k (some v) ∧ ∀ nd' ∈ l, nd'.val = none :=
    fun nd k v l t _ hval _ _ hgood => absurd (hgood nd List.mem_cons_self) (by rw [hval]; nofun)
  have hgood : ∀ nd ∈ (Table.new V).hash.node, nd.val = none := by
    intro nd hmem
    rw [List.mem_singleton.mp hmem]
  rcases Table.resize_spec (Table.newkey_room (d + 1)) Table.new_inv (Nat.le_of_lt hasize) hroom
    (fun l _ => ∀ nd ∈ l, nd.val = none)
    (fun nd l t _ hgood nd' hmem => hgood nd' (List.mem_cons_of_mem _ hmem)) hset
    (fun _ _ _ _ _ _ => hgood) with ⟨hover, herr⟩ | ⟨t, heq, hinv, -, hholds⟩
  · exact .inr (.inl ⟨hover.resolve_left id, herr⟩)
  · exact .inr (.inr ⟨t, heq, Table.new_represents.of_holds hinv hholds⟩)

theorem singles_le (l : List (Field V)) : singles l ≤ (items l).length := by
  induction l using items.induct with
  | case1 => exact Nat.le_refl _
  | case2 e => cases e <;> simp [singles, items, Exp.values]
  | case3 e f l ih =>
    rw [items, List.length_cons]
    cases e <;> exact Nat.succ_le_succ ih
  | case4 words k x l ih => exact ih

theorem Hints.newtable {i e : Nat} (h : Hints hs d memory l i e) (hfew : singles l < 2 ^ 31) :
    (∃ s, newtable (V := V) hs d memory i e = .error (.msg s) ∧ Limits memory l s) ∨
      ∃ t, newtable (V := V) hs d memory i e = .ok t ∧ Represents hs t fun _ => none := by
  rw [show Constructor.newtable (V := V) hs d memory i e = _ from h]
  split_ifs
  · rcases newtable_spec hfew with ⟨hbig, herr⟩ | ⟨hbig, herr⟩ | hok
    · exact .inl ⟨_, herr, .inl ⟨rfl, hbig.trans_le (singles_le l)⟩⟩
    · refine .inl ⟨_, herr, .inr (.inr ⟨rfl, ?_⟩)⟩
      by_contra hfew
      rcases Nat.eq_zero_or_pos (numRecords l) with hzero | hpos
      · rw [hzero] at hbig
        exact absurd hbig (by decide)
      · have hpow := Nat.pow_le_pow_right (n := 2) (by decide)
          ((Table.ceillog2_le_iff hpos).mpr (show numRecords l ≤ 2 ^ 30 by omega))
        rw [Table.roomFor, if_neg (Nat.ne_of_gt hpos)] at hbig
        exact absurd hbig (Nat.not_lt.mpr hpow)
    · exact .inr hok
  · exact .inr ⟨_, rfl, Table.new_represents⟩

theorem constructor_spec (hs : Hashes) (d memory : Nat) (hstack : fs.freereg ≤ fs.maxstacksize ∧ fs.maxstacksize ≤ 254)
    (heq : constructor fs l = .ok (fs', cc')) :
    singles l < 2 ^ 31 ∧ ∃ i e is, fs'.code = fs.code ++ .newtable i e :: is ∧ Hints hs d memory l i e ∧
      ((memory ≤ 2 ^ 31 ∨ (items l).length ≤ 2 ^ 31) → Builds hs d memory l (.newtable i e :: is)) := by
  obtain ⟨fs₁, hemit, heq⟩ := Rust.bind_eq_ok.mp heq
  obtain ⟨hcode₁, hreg₁, hmax₁, hpc₁, hlimit₁⟩ := emit_spec hemit
  obtain ⟨fs₂, hreserve, heq⟩ := Rust.bind_eq_ok.mp heq
  rw [← hreg₁, ← hmax₁] at hstack
  obtain ⟨hcode₂, hreg₂, hpc₂, hstack₂⟩ := reserve_spec hstack hreserve
  obtain ⟨⟨fs₃, cc₃⟩, hfields, heq⟩ := Rust.bind_eq_ok.mp heq
  obtain ⟨⟨fs₄, cc₄⟩, hlast, heq⟩ := Rust.bind_eq_ok.mp heq
  cases heq
  have hready : Ready fs₂ ⟨none, fs₁.freereg, 0, 0, 0⟩ [] [] :=
    ⟨hreg₂, hstack₂, rfl, show 0 < 2 ^ 31 by decide, rfl, Nat.zero_le _, ⟨Int.le_refl _, by dsimp only; omega⟩,
      by omega⟩
  have hmemory (hbig : memory < (items l).length) : Limits memory l "memory allocation failed" := .inl ⟨rfl, hbig⟩
  obtain ⟨is₃, done, pend, more, hcode₃, h₃, ht₃, hnh₃, hsuffix, hitems₃, hsingles₃, -, hstores₃, hexec₃⟩ :=
    fields_spec hs d memory (Limits memory l) (Rejects l) l (fun e he => he) hready
      (fun hbig => hmemory (hbig.trans_eq (Nat.zero_add _))) hfields
  have hitems : done ++ pend ++ items (pending cc₃.v) = items l := hitems₃
  have hopen (words : Nat) (xs : List (Option V)) (hv : cc₃.v = some (.multi words xs))
      (hbig : 1000000 < 254 + xs.length) : Limits memory l "stack overflow" := by
    obtain ⟨front, hfront⟩ := hsuffix
    rw [hv] at hfront
    refine .inr (.inl ⟨rfl, words, xs, ?_, hbig⟩)
    rw [show l = front ++ [.item (.multi words xs)] from hfront.symm, List.getLast?_concat]
  obtain ⟨is₄, hcode₄, hnh₄, hna₄, hlt₄, hexec₄⟩ := lastlistfield_spec hs d memory (Limits memory l) (Rejects l) h₃
    (fun hbig => hmemory (by rwa [hitems] at hbig)) hopen hlast
  have hsingles : done.length + pend.length + singles (pending cc₃.v) = singles l := by
    rw [hsingles₃]
    exact (Nat.zero_add _)
  have ht : cc₃.t = fs₁.freereg := ht₃
  rw [hsingles] at hna₄
  have hnh : cc'.nh = numRecords l := by
    rw [hnh₄, hnh₃]
    exact Int.zero_add _
  have hnum := h₃.nh
  have hpc := h₃.pc
  have hregle := hstack.1.trans hstack.2
  rw [hitems, ht] at hexec₄
  obtain ⟨i, e, hset, hA, hnew⟩ := newtable_settablesize (V := V) hs d memory
    (show fs₁.freereg < 2 ^ 8 by omega) (show singles l < 2 ^ 31 by omega) (show numRecords l < 2 ^ 31 by omega)
  have hfew : singles l < 2 ^ 31 := by omega
  have hnew : Hints hs d memory l i e := hnew
  have hstores : stores 0 [] l = more ++ stores done.length pend (pending cc₃.v) := hstores₃
  refine ⟨hfew, i, e, is₃ ++ is₄, ?_, hnew, fun hmem => ⟨⟨stores_perm 0 [] l, records_sublist 0 [] l⟩, fun st => ?_⟩⟩
  · show settablesize fs₄.code fs.code.length fs₁.freereg cc'.na cc'.nh = _
    rw [hna₄, hnh, hset, hcode₄, hcode₃, hcode₂, hcode₁]
    simp
  · -- the first instruction makes the table
    have hfirst : Outcome (Limits memory l) (exec hs d memory st [.newtable i e]) (Rejects l)
        (Running hs fs₁.freereg [] []) := by
      rw [exec_single, step]
      rcases hnew.newtable hfew with ⟨s, herr, hlimit⟩ | ⟨t, hok, ht⟩
      · rw [herr]
        exact .inl ⟨s, rfl, hlimit⟩
      · rw [hok, Rust.ok_bind, hA]
        exact .inr (.inr ⟨_, rfl, ⟨t, rfl, ht⟩, fun _ _ hget => by cases hget⟩)
    rw [← List.singleton_append]
    refine hfirst.append fun st₁ hrun₁ => ?_
    refine (hexec₃ [] st₁ (fun hbig => .inr (.inr ⟨rfl, ?_⟩)) hrun₁).append fun st₃ hrun₃ => ?_
    · have hle := stores_length l
      rw [hstores, List.length_append] at hle
      rw [List.length_nil] at hbig
      omega
    · rw [hstores]
      rcases hexec₄ _ st₃ hmem hrun₃ with herr | herr | ⟨st₄, hst₄, hrun₄⟩
      · exact .inl herr
      · exact .inr (.inl herr)
      · obtain ⟨t, htab, ht'⟩ := hrun₄.tab
        exact .inr (.inr ⟨st₄, hst₄, fs₁.freereg, t, htab, ht'⟩)

end

/-! ## Limits -/

/-- Why code is not written: a counter overflows at `n` items, or there is no room. -/
def Stops (err : Fault) (n : Nat) (room : Prop) : Prop := err = .panic ∧ 2 ^ 31 ≤ n ∨ (∃ s, err = .msg s) ∧ ¬room

theorem cint_error {z : Int} {err : Fault} (h : cint z = .error err) : err = .panic ∧ (z < -2 ^ 31 ∨ 2 ^ 31 ≤ z) := by
  unfold cint at h
  split_ifs at h with hz
  cases h
  exact ⟨rfl, by omega⟩

section

variable {fs : FuncState V} {err : Fault}

theorem emit_error {i : Instr V} {n : Nat} (h : fs.emit i n = .error err) :
    (∃ s, err = .msg s) ∧ 2147483647 < fs.pc + n := by
  unfold FuncState.emit at h
  split_ifs at h with hpc
  cases h
  exact ⟨⟨_, rfl⟩, by omega⟩

theorem reserve_error (h : fs.reserve = .error err) : (∃ s, err = .msg s) ∧ 254 ≤ fs.freereg := by
  unfold FuncState.reserve at h
  dsimp only at h
  split_ifs at h with hmax hlimit
  cases h
  exact ⟨⟨_, rfl⟩, by omega⟩

theorem bind_eq_error {α β : Type} {x : Rust α} {f : α → Rust β} (h : (x >>= f) = .error err) :
    x = .error err ∨ ∃ a, x = .ok a ∧ f a = .error err := by
  cases x with
  | error e =>
    cases h
    exact .inl rfl
  | ok a => exact .inr ⟨a, rfl, h⟩

theorem nextreg_error {i : Instr V} {n : Nat} (hstack : fs.freereg ≤ fs.maxstacksize ∧ fs.maxstacksize ≤ 254)
    (h : (fs.reserve >>= fun fs => fs.emit i n) = .error err) :
    (∃ s, err = .msg s) ∧ (2147483647 < fs.pc + n ∨ 254 ≤ fs.freereg) := by
  rcases bind_eq_error h with hreserve | ⟨fs₁, hreserve, hemit⟩
  · obtain ⟨hmsg, hreg⟩ := reserve_error hreserve
    exact ⟨hmsg, .inr hreg⟩
  · obtain ⟨hmsg, hpc⟩ := emit_error hemit
    obtain ⟨-, -, hpc₁, -⟩ := reserve_spec hstack hreserve
    exact ⟨hmsg, .inl (by omega)⟩

theorem setlist_error {base : Nat} {na tostore : Int} (h : fs.setlist base na tostore = .error err) :
    (∃ s, err = .msg s) ∧ 2147483647 < fs.pc + 2 := by
  unfold FuncState.setlist at h
  dsimp only at h
  by_cases hsmall : na ≤ 255
  · rw [if_pos hsmall] at h
    rcases bind_eq_error h with hemit | ⟨_, -, h⟩
    · obtain ⟨hmsg, hpc⟩ := emit_error hemit
      exact ⟨hmsg, by omega⟩
    · cases h
  · rw [if_neg hsmall] at h
    rcases bind_eq_error h with hemit | ⟨_, -, h⟩
    · exact emit_error hemit
    · cases h

variable {cc : ConsControl V} {done pend : List (Option V)}

theorem closelistfield_error (h : Ready fs cc done pend) (f : Field V) (l : List (Field V))
    (herr : closelistfield fs cc = .error err) :
    Stops err (done.length + pend.length + singles (pending cc.v ++ f :: l))
      (Fits fs cc.t pend.length (pending cc.v ++ f :: l)) := by
  rw [singles_pending, Fits, words_pending, numItems_pending]
  obtain ⟨v, t, nh, na, tostore⟩ := cc
  cases v with
  | none => cases herr
  | some e =>
    have hreg : fs.freereg = t + 1 + pend.length := h.freereg
    have hle := h.pend_le
    obtain rfl : na = done.length := h.na
    have hwords : words (pending (some e)) = e.words := Nat.add_zero _
    dsimp only
    rw [hwords, if_pos (show (some e).isSome = true from rfl)]
    rcases bind_eq_error herr with hexp | ⟨fs₁, hexp, herr⟩
    · obtain ⟨hmsg, hlimit⟩ := nextreg_error h.stack (show _ = _ from hexp)
      exact .inr ⟨hmsg, by omega⟩
    obtain ⟨-, -, hpc, -⟩ := nextreg_spec h.stack (show _ = _ from hexp)
    obtain rfl : tostore = pend.length + 1 := h.tostore
    dsimp only at herr
    by_cases hfull : (pend.length : Int) + 1 = 50
    · rw [if_pos hfull] at herr
      rcases bind_eq_error herr with hset | ⟨fs₂, -, herr⟩
      · obtain ⟨hmsg, hlimit⟩ := setlist_error hset
        exact .inr ⟨hmsg, by omega⟩
      rcases bind_eq_error herr with hna | ⟨na, -, herr⟩
      · obtain ⟨hpanic, hover⟩ := cint_error hna
        exact .inl ⟨hpanic, by
          show 2 ^ 31 ≤ done.length + pend.length + (1 + singles (f :: l))
          omega⟩
      · cases herr
    · rw [if_neg hfull] at herr
      cases herr

theorem lastlistfield_error (h : Ready fs cc done pend) (herr : lastlistfield fs cc = .error err) :
    Stops err (done.length + pend.length + singles (pending cc.v)) (Fits fs cc.t pend.length (pending cc.v)) := by
  obtain ⟨v, t, nh, na, tostore⟩ := cc
  have hreg : fs.freereg = t + 1 + pend.length := h.freereg
  have hle := h.pend_le
  have hlt := h.na_lt
  have htostore : tostore = pend.length + if v.isSome then 1 else 0 := h.tostore
  obtain rfl : na = done.length := h.na
  unfold lastlistfield at herr
  rw [Fits]
  dsimp only at herr ⊢
  by_cases hzero : tostore = 0
  · rw [if_pos hzero] at herr
    cases herr
  rw [if_neg hzero] at herr
  cases v with
  | none =>
    obtain rfl : tostore = pend.length := htostore.trans (Int.add_zero _)
    rcases bind_eq_error herr with hset | ⟨fs₂, -, herr⟩
    · obtain ⟨hmsg, hlimit⟩ := setlist_error hset
      exact .inr ⟨hmsg, by omega⟩
    rcases bind_eq_error herr with hna | ⟨na, -, herr⟩
    · obtain ⟨hpanic, hover⟩ := cint_error hna
      exact .inl ⟨hpanic, by omega⟩
    · cases herr
  | some e =>
    obtain rfl : tostore = pend.length + 1 := htostore
    cases e with
    | one w x =>
      have hwords : words (pending (some (.one w x))) = w := Nat.add_zero _
      rw [hwords]
      rcases bind_eq_error herr with hexp | ⟨fs₁, hexp, herr⟩
      · obtain ⟨hmsg, hlimit⟩ := nextreg_error h.stack (show _ = _ from hexp)
        exact .inr ⟨hmsg, by rw [Exp.words] at hlimit; omega⟩
      obtain ⟨-, -, hpc, -⟩ := nextreg_spec h.stack (show _ = _ from hexp)
      rcases bind_eq_error herr with hset | ⟨fs₂, -, herr⟩
      · obtain ⟨hmsg, hlimit⟩ := setlist_error hset
        exact .inr ⟨hmsg, by rw [Exp.words] at hpc; omega⟩
      rcases bind_eq_error herr with hna | ⟨na, -, herr⟩
      · obtain ⟨hpanic, hover⟩ := cint_error hna
        exact .inl ⟨hpanic, by
          show 2 ^ 31 ≤ done.length + pend.length + 1
          omega⟩
      · cases herr
    | multi w xs =>
      have hwords : words (pending (some (.multi w xs))) = w := Nat.add_zero _
      rw [hwords]
      rcases bind_eq_error herr with hexp | ⟨fs₁, hexp, herr⟩
      · obtain ⟨hmsg, hlimit⟩ := nextreg_error h.stack (show _ = _ from hexp)
        exact .inr ⟨hmsg, by omega⟩
      obtain ⟨-, -, hpc, -⟩ := nextreg_spec h.stack (show _ = _ from hexp)
      rcases bind_eq_error herr with hset | ⟨fs₂, -, herr⟩
      · obtain ⟨hmsg, hlimit⟩ := setlist_error hset
        exact .inr ⟨hmsg, by omega⟩
      rcases bind_eq_error herr with hna | ⟨na, hna, herr⟩
      · obtain ⟨-, hover⟩ := cint_error hna
        omega
      obtain ⟨rfl, -⟩ := cint_eq hna
      rcases bind_eq_error herr with hna | ⟨na, -, herr⟩
      · obtain ⟨hpanic, hover⟩ := cint_error hna
        exact .inl ⟨hpanic, by omega⟩
      · cases herr

theorem fields_error (l : List (Field V)) : ∀ {fs : FuncState V} {cc : ConsControl V} {done pend : List (Option V)},
    Ready fs cc done pend → fields fs cc l = .error err →
    Stops err (done.length + pend.length + singles (pending cc.v ++ l))
      (Fits fs cc.t pend.length (pending cc.v ++ l)) := by
  induction l with
  | nil => exact fun _ herr => by cases herr
  | cons f l ih =>
    intro fs cc done pend h herr
    rcases bind_eq_error herr with hclose | ⟨⟨fs₁, cc₁⟩, hclose, herr⟩
    · exact closelistfield_error h f l hclose
    obtain ⟨is₁, done₁, pend₁, -, -, h₁, hv₁, ht₁, -, hitems₁, hpc₁, -⟩ :=
      closelistfield_spec Table.sameHash 0 0 (fun _ => True) (fun _ => True) h (fun _ => trivial) hclose
    have hlen := congrArg List.length hitems₁
    simp only [List.length_append] at hlen
    rw [singles_pending, Fits, words_pending, numItems_pending]
    have hroom := hpc₁ (numItems (f :: l))
    rw [numItems_pending_self] at hroom
    rcases bind_eq_error herr with hfield | ⟨⟨fs₂, cc₂⟩, hfield, herr⟩
    · cases f with
      | item e =>
        rcases bind_eq_error hfield with htostore | ⟨_, -, hfield⟩
        · obtain ⟨-, hover⟩ := cint_error htostore
          have hcount := h₁.tostore
          have hle := h₁.pend_le
          rw [hv₁] at hcount
          have hcount : cc₁.tostore = pend₁.length := hcount.trans (Int.add_zero _)
          omega
        · cases hfield
      | record w k x =>
        rcases bind_eq_error hfield with hnh | ⟨_, -, hfield⟩
        · obtain ⟨-, hover⟩ := cint_error hnh
          have hnh := h₁.nh
          have hpc := h₁.pc
          omega
        · rcases bind_eq_error hfield with hemit | ⟨_, -, hfield⟩
          · obtain ⟨hmsg, hlimit⟩ := emit_error hemit
            have hwords : words (Field.record w k x :: l) = w + 1 + words l := rfl
            exact .inr ⟨hmsg, by omega⟩
          · cases hfield
    · obtain ⟨is₂, -, h₂, hv₂, ht₂, -, hpc₂, -⟩ :=
        field_spec Table.sameHash 0 0 (fun _ => True) (fun _ => True) (fun _ _ => trivial) h₁ hv₁ hfield
      have hrest := ih h₂ herr
      rw [hv₂, ht₂, ht₁] at hrest
      rw [Fits, words_pending, singles_waits, numItems_waits] at hrest
      have hwords := words_cons f l
      rcases hrest with ⟨hpanic, hover⟩ | ⟨hmsg, hfull⟩
      · exact .inl ⟨hpanic, by omega⟩
      · exact .inr ⟨hmsg, fun hfits => hfull (by omega)⟩

/-- There are registers and instructions for the constructor. -/
def Room (fs : FuncState V) (l : List (Field V)) : Prop :=
  fs.pc + 2 + words l + 2 * (numItems l / 50 + 1) ≤ 2147483647 ∧ fs.freereg ≤ 203

theorem constructor_error {l : List (Field V)} (hstack : fs.freereg ≤ fs.maxstacksize ∧ fs.maxstacksize ≤ 254)
    (herr : constructor fs l = .error err) : Stops err (singles l) (Room fs l) := by
  rcases bind_eq_error herr with hemit | ⟨fs₁, hemit, herr⟩
  · obtain ⟨hmsg, hlimit⟩ := emit_error hemit
    exact .inr ⟨hmsg, fun hroom => by rw [Room] at hroom; omega⟩
  obtain ⟨hcode₁, hreg₁, hmax₁, hpc₁, hlimit₁⟩ := emit_spec hemit
  rcases bind_eq_error herr with hreserve | ⟨fs₂, hreserve, herr⟩
  · obtain ⟨hmsg, hlimit⟩ := reserve_error hreserve
    exact .inr ⟨hmsg, fun hroom => by rw [Room] at hroom; omega⟩
  rw [← hreg₁, ← hmax₁] at hstack
  obtain ⟨-, hreg₂, hpc₂, hstack₂⟩ := reserve_spec hstack hreserve
  have hready : Ready fs₂ ⟨none, fs₁.freereg, 0, 0, 0⟩ [] [] :=
    ⟨hreg₂, hstack₂, rfl, show 0 < 2 ^ 31 by decide, rfl, Nat.zero_le _, ⟨Int.le_refl _, by dsimp only; omega⟩,
      by omega⟩
  have hfits : Room fs l → Fits fs₂ fs₁.freereg 0 l := fun hroom => by
    rw [Room] at hroom
    rw [Fits]
    omega
  rcases bind_eq_error herr with hfields | ⟨⟨fs₃, cc₃⟩, hfields, herr⟩
  · rcases fields_error l hready hfields with ⟨hpanic, hover⟩ | ⟨hmsg, hfull⟩
    · exact .inl ⟨hpanic, hover.trans_eq (Nat.zero_add _)⟩
    · exact .inr ⟨hmsg, fun hroom => hfull (hfits hroom)⟩
  rcases bind_eq_error herr with hlast | ⟨⟨fs₄, cc₄⟩, -, herr⟩
  · obtain ⟨-, done, pend, -, -, h₃, ht₃, -, -, -, hsingles, hfits₃, -⟩ :=
      fields_spec Table.sameHash 0 0 (fun _ => True) (fun _ => True) l (fun _ _ => trivial) hready (fun _ => trivial)
        hfields
    have hstops := lastlistfield_error h₃ hlast
    rw [ht₃] at hstops
    rcases hstops with ⟨hpanic, hover⟩ | ⟨hmsg, hfull⟩
    · exact .inl ⟨hpanic, hover.trans_eq (hsingles.trans (Nat.zero_add _))⟩
    · exact .inr ⟨hmsg, fun hroom => hfull (hfits₃ (hfits hroom))⟩
  · cases herr

end

/-- A constructor is compiled, unless it may need too many instructions or registers, and the code builds its table. -/
def Correct (hs : Hashes) (d memory : Nat) (fs : FuncState V) (l : List (Field V)) : Prop :=
  match constructor fs l with
  | .ok (fs', _) =>
    ∃ i e is, fs'.code = fs.code ++ .newtable i e :: is ∧ Hints hs d memory l i e ∧
      Builds hs d memory l (.newtable i e :: is)
  | .error (.msg _) => ¬Room fs l
  | .error _ => False

section

variable {fs : FuncState V} {l : List (Field V)}

/-- The counter of the items stops at `c_int::MAX`. -/
theorem constructor_overflows (hstack : fs.freereg ≤ fs.maxstacksize ∧ fs.maxstacksize ≤ 254) (hroom : Room fs l)
    (hmany : 2 ^ 31 ≤ singles l) : constructor fs l = .error .panic := by
  cases heq : constructor fs l with
  | ok r =>
    obtain ⟨hfew, -⟩ := constructor_spec Table.sameHash 0 0 hstack heq
    omega
  | error err =>
    rcases constructor_error hstack heq with ⟨rfl, -⟩ | ⟨-, hfull⟩
    · rfl
    · exact absurd hroom hfull

/-- The table has every item and field, for fewer than `2 ^ 31` items before a call or vararg at the end; with more,
where there is room for the code, the parser panics. -/
theorem constructor_iff (hs : Hashes) (d memory : Nat) (hstack : fs.freereg ≤ fs.maxstacksize ∧ fs.maxstacksize ≤ 254)
    (hmem : memory ≤ 2 ^ 31 ∨ (items l).length ≤ 2 ^ 31) :
    (singles l < 2 ^ 31 → Correct hs d memory fs l) ∧
      (Room fs l → (Correct hs d memory fs l ↔ singles l < 2 ^ 31)) := by
  have hcorrect : singles l < 2 ^ 31 → Correct hs d memory fs l := by
    intro hfew
    rw [Correct]
    cases heq : constructor fs l with
    | ok r =>
      obtain ⟨-, i, e, is, hcode, hhints, hbuilds⟩ := constructor_spec hs d memory hstack heq
      exact ⟨i, e, is, hcode, hhints, hbuilds hmem⟩
    | error err =>
      rcases constructor_error hstack heq with ⟨-, hmany⟩ | ⟨⟨s, rfl⟩, hroom⟩
      · omega
      · exact hroom
  refine ⟨hcorrect, fun hroom => ⟨fun h => ?_, hcorrect⟩⟩
  by_contra hmany
  rw [Correct, constructor_overflows hstack hroom (by omega)] at h
  exact h

end

/-- `{ 'a', [7] = 'b', f() }`, where the call returns `nil` and `'c'`. -/
def mixed : List (Field Char) :=
  [.item (.one 1 (some 'a')), .record 1 (.int 7) (some 'b'), .item (.multi 2 [none, some 'c'])]

theorem constructor_iff_mixed : ∃ fs' cc', constructor ⟨[], 0, 0, 2⟩ mixed = .ok (fs', cc') ∧
    ∀ st, ∃ st' r t, exec Table.sameHash 0 100 st fs'.code = .ok (.ok st') ∧ st'.tab = some (r, t) ∧
      Table.lookup Table.sameHash t (.int 1) = .ok (some 'a') ∧ Table.lookup Table.sameHash t (.int 2) = .ok none ∧
      Table.lookup Table.sameHash t (.int 3) = .ok (some 'c') ∧
      Table.lookup Table.sameHash t (.int 7) = .ok (some 'b') := by
  have h : Correct Table.sameHash 0 100 ⟨[], 0, 0, 2⟩ mixed :=
    (constructor_iff Table.sameHash 0 100 ⟨by decide, by decide⟩ (.inl (by decide))).1 (by decide)
  obtain ⟨fs', cc', hok⟩ : ∃ fs' cc', constructor ⟨[], 0, 0, 2⟩ mixed = .ok (fs', cc') := ⟨_, _, rfl⟩
  rw [Correct, hok] at h
  obtain ⟨i, e, is, hcode, -, -, hrun⟩ := h
  refine ⟨fs', cc', hok, fun st => ?_⟩
  rw [hcode]
  rcases hrun st with ⟨s, -, hlim⟩ | ⟨err, -, words, k, x, hmem, hk⟩ | ⟨st', hst', r, t, htab, ht⟩
  · rcases hlim with ⟨-, hbig⟩ | ⟨-, w, xs, hlast, hbig⟩ | ⟨-, hbig⟩
    · exact absurd hbig (by decide)
    · cases hlast
      exact absurd hbig (by decide)
    · exact absurd hbig (by decide)
  · simp only [mixed, List.mem_cons, List.not_mem_nil, or_false, Field.record.injEq, reduceCtorEq, false_or] at hmem
    obtain ⟨-, rfl, -⟩ := hmem
    cases hk
  · exact ⟨st', r, t, hst', htab, ht.lookup_eq _, ht.lookup_eq _, ht.lookup_eq _, ht.lookup_eq _⟩

/-- Fifty times `nil`: the second and later ones need no instruction. -/
def nils : List (Field Unit) := .item (.one 1 none) :: List.replicate 49 (.item (.one 0 none))

theorem nils_append (l : List (Field Unit)) : singles (nils ++ l) = 50 + singles l ∧
    numItems (nils ++ l) = 50 + numItems l ∧ words (nils ++ l) = 1 + words l := by
  have hrest : ∀ n, singles (List.replicate n (.item (.one 0 none)) ++ l) = n + singles l ∧
      numItems (List.replicate n (.item (.one 0 none)) ++ l) = n + numItems l ∧
      words (List.replicate n (.item (.one 0 none)) ++ l) = words l := by
    intro n
    induction n with
    | zero => exact ⟨(Nat.zero_add _).symm, (Nat.zero_add _).symm, rfl⟩
    | succ n ih =>
      obtain ⟨hs, hi, hw⟩ := ih
      rw [List.replicate_succ, List.cons_append, numItems, words, hi, hw]
      refine ⟨?_, Nat.add_right_comm .., Nat.zero_add _⟩
      show singles _ + 1 = _
      rw [hs, Nat.add_right_comm]
  obtain ⟨hs, hi, hw⟩ := hrest 49
  rw [nils, List.cons_append, numItems, words, hi, hw]
  refine ⟨?_, Nat.add_right_comm .., rfl⟩
  show singles _ + 1 = _
  rw [hs, Nat.add_right_comm]

theorem many_nils (n : Nat) : singles (List.replicate n nils).flatten = 50 * n ∧
    numItems (List.replicate n nils).flatten = 50 * n ∧ words (List.replicate n nils).flatten = n := by
  induction n with
  | zero => exact ⟨rfl, rfl, rfl⟩
  | succ n ih =>
    obtain ⟨hs, hi, hw⟩ := nils_append (List.replicate n nils).flatten
    rw [List.replicate_succ, List.flatten_cons, hs, hi, hw, ih.1, ih.2.1, ih.2.2]
    omega

/-- The items of more than `c_int::MAX` are too many, though there is room for their code. -/
theorem nils_overflow {n : Nat} (hmany : 2 ^ 31 ≤ 50 * n) (hroom : 3 * n + 4 ≤ 2147483647) :
    ¬Correct Table.sameHash 0 100 ⟨[], 0, 0, 2⟩ (List.replicate n nils).flatten := by
  obtain ⟨hs, hi, hw⟩ := many_nils n
  intro h
  rw [Correct, constructor_overflows ⟨by decide, by decide⟩
    ⟨by rw [hi, hw]; dsimp only; omega, by decide⟩ (by rw [hs]; exact hmany)] at h
  exact h

/-- The parser panics at `2147483650` items. -/
theorem constructor_many : ¬Correct Table.sameHash 0 100 ⟨[], 0, 0, 2⟩ (List.replicate 42949673 nils).flatten :=
  nils_overflow (by decide) (by decide)

end Tsuki.Constructor
