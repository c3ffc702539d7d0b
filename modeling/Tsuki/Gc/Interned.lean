import Tsuki.Gc.StringTable
import Tsuki.Lib.Buckets
import Mathlib.Data.List.Perm.Subperm
import Mathlib.Data.Finset.Card

/-!
# Interned strings

In every state that a program comes to, each short string is in the one list of its entry, no two short strings have
the same bytes, and `nuse` counts them; a string that is found or created is not freed by a sweep that is under way.
-/

namespace Tsuki.Strings

open Refs (State Color Stop)
open Lib.Buckets (Path Rest Filled spread mem_spread)

variable {g : Lua}

/-- The lists of the table as cells that point to strings. -/
def Lua.next (g : Lua) : Cell → Option Nat
  | .head i => g.hash i
  | .link o => (g.str o).bind Str.hnext

/-- The same but for the lists. -/
structure Same (g g' : Lua) : Prop where
  nuse : g'.nuse = g.nuse
  seed : g'.seed = g.seed
  state : g'.state = g.state
  currentwhite : g'.currentwhite = g.currentwhite
  count : g'.count = g.count
  str : ∀ o, (g'.str o).map (fun s => (s.bytes, s.hash, s.color)) = (g.str o).map fun s => (s.bytes, s.hash, s.color)

theorem Same.refl (g : Lua) : Same g g := ⟨rfl, rfl, rfl, rfl, rfl, fun _ => rfl⟩

theorem Same.trans {g g' g'' : Lua} (h : Same g g') (h' : Same g' g'') : Same g g'' :=
  ⟨h'.nuse.trans h.nuse, h'.seed.trans h.seed, h'.state.trans h.state, h'.currentwhite.trans h.currentwhite,
    h'.count.trans h.count, fun o => (h'.str o).trans (h.str o)⟩

theorem Same.exists_str {g g' : Lua} (hs : Same g g') {o : Nat} {s' : Str} (ho : g'.str o = some s') :
    ∃ s, g.str o = some s ∧ s.bytes = s'.bytes ∧ s.hash = s'.hash ∧ s.color = s'.color := by
  have heq := hs.str o
  rw [ho] at heq
  cases h : g.str o with
  | none =>
    rw [h] at heq
    cases heq
  | some s =>
    simp_all

theorem Same.exists_str' {g g' : Lua} (hs : Same g g') {o : Nat} {s : Str} (ho : g.str o = some s) :
    ∃ s', g'.str o = some s' ∧ s'.bytes = s.bytes ∧ s'.hash = s.hash ∧ s'.color = s.color := by
  have hs' : Same g' g := ⟨hs.nuse.symm, hs.seed.symm, hs.state.symm, hs.currentwhite.symm, hs.count.symm,
    fun o => (hs.str o).symm⟩
  exact hs'.exists_str ho

theorem Lua.load_eq {o : Nat} {s : Str} (ho : g.str o = some s) : g.load o = .ok s := by
  rw [Lua.load, ho]

theorem Lua.modify_eq {o : Nat} {s : Str} (ho : g.str o = some s) (f : Str → Str) :
    g.modify o f = .ok { g with str := Function.update g.str o (some (f s)) } := by
  rw [Lua.modify, ho]

theorem Lua.read_eq {c : Cell} (hc : ∀ o, c = .link o → (g.str o).isSome) : g.read c = .ok (g.next c) := by
  rcases c with i | o
  · rfl
  · obtain ⟨s, ho⟩ := Option.isSome_iff_exists.mp (hc o rfl)
    rw [Lua.read, Lua.load_eq ho, Lua.next, ho]
    rfl

theorem Lua.write_spec {c : Cell} (hc : ∀ o, c = .link o → (g.str o).isSome) (p : Option Nat) :
    ∃ g', g.write c p = .ok g' ∧ g'.next = Function.update g.next c p ∧ Same g g' ∧ g'.size = g.size := by
  rcases c with i | o
  · refine ⟨_, rfl, funext fun c => ?_, ⟨rfl, rfl, rfl, rfl, rfl, fun _ => rfl⟩, rfl⟩
    rcases c with j | o
    · by_cases hji : j = i
      · subst hji
        simp [Lua.next]
      · have hne : (.head j : Cell) ≠ .head i := fun heq => hji (Lib.BackLinks.Cell.head.inj heq)
        simp [Lua.next, Function.update_of_ne hji, Function.update_of_ne hne]
    · rw [Function.update_of_ne (Lib.BackLinks.Cell.link_ne_head _ _)]
      rfl
  · obtain ⟨s, ho⟩ := Option.isSome_iff_exists.mp (hc o rfl)
    refine ⟨_, Lua.modify_eq ho _, funext fun c => ?_, ⟨rfl, rfl, rfl, rfl, rfl, fun q => ?_⟩, rfl⟩
    · rcases c with j | q
      · rw [Function.update_of_ne (Lib.BackLinks.Cell.link_ne_head _ _).symm]
        rfl
      · by_cases hqo : q = o
        · subst hqo
          simp [Lua.next]
        · have hne : (.link q : Cell) ≠ .link o := fun heq => hqo (Lib.BackLinks.Cell.link.inj heq)
          simp [Lua.next, Function.update_of_ne hqo, Function.update_of_ne hne]
    · by_cases hqo : q = o
      · subst hqo
        simp [ho]
      · simp [Function.update_of_ne hqo]

/-! ## Rehashing -/

/-- The entries of the strings in a table of the size. -/
def Lua.Indexed (g : Lua) (nsize : Nat) (idx : Nat → Nat) (o : Nat) : Prop :=
  ∃ s, g.str o = some s ∧ idx o = entry nsize s.hash

theorem Lua.Indexed.of_same {g g' : Lua} (hs : Same g g') {nsize o : Nat} {idx : Nat → Nat} (h : g.Indexed nsize idx o) :
    g'.Indexed nsize idx o := by
  obtain ⟨s, ho, hidx⟩ := h
  obtain ⟨s', ho', -, hhash, -⟩ := hs.exists_str' ho
  exact ⟨s', ho', by rw [hhash, hidx]⟩

/-- The strings of one list go to the entries of the new size. -/
theorem Lua.rehashList_spec {nsize N : Nat} {idx : Nat → Nat} {l : List Nat} : ∀ (n : Nat) {g : Lua} {ch : Nat → List Nat},
    Filled g.next N ch → Rest g.next l → l.Nodup → (∀ o ∈ l, ∀ j < N, o ∉ ch j) → (∀ o ∈ l, idx o < N) →
    (∀ o ∈ l, g.Indexed nsize idx o) → l.length ≤ n →
    ∃ g', g.rehashList nsize n l.head? = .ok g' ∧ Filled g'.next N (spread idx ch l) ∧ Same g g' ∧ g'.size = g.size := by
  induction l with
  | nil =>
    intro n g ch hf _ _ _ _ _ _
    refine ⟨g, ?_, hf, .refl g, rfl⟩
    cases n <;> rfl
  | cons o l ih =>
    intro n g ch hf hrest hnd hdis hlt hidx hn
    obtain ⟨n, rfl⟩ : ∃ k, n = k + 1 := ⟨n - 1, by simp at hn; omega⟩
    have hnd' := List.nodup_cons.mp hnd
    obtain ⟨s, ho, hs⟩ := hidx o List.mem_cons_self
    obtain ⟨g₁, hw₁, hnext₁, hsame₁, hsize₁⟩ := @Lua.write_spec g (.link o)
      (fun q hq => by rw [← Lib.BackLinks.Cell.link.inj hq, ho]; rfl) (g.hash (idx o))
    obtain ⟨g₂, hw₂, hnext₂, hsame₂, hsize₂⟩ := @Lua.write_spec g₁ (.head (idx o)) (fun q hq => nomatch hq) (some o)
    have hpush : g₂.next = Lib.Buckets.push g.next (idx o) o := by
      rw [hnext₂, hnext₁]
      rfl
    have hsame := hsame₁.trans hsame₂
    have hhead : s.hnext = l.head? := by
      rw [← Path.head hrest]
      simp [Lua.next, ho]
    have hrest₂ : Rest g₂.next l := by
      refine hrest.rest.frame fun q hq => ?_
      have hqo : q ≠ o := fun heq => hnd'.1 (heq ▸ hq)
      rw [hpush, Lib.Buckets.push, Function.update_of_ne (Lib.BackLinks.Cell.link_ne_head _ _),
        Function.update_of_ne (fun heq => hqo (Lib.BackLinks.Cell.link.inj heq))]
    have hdis₂ : ∀ q ∈ l, ∀ j < N, q ∉ Function.update ch (idx o) (o :: ch (idx o)) j := by
      intro q hq j hj
      by_cases hji : j = idx o
      · subst hji
        rw [Function.update_self, List.mem_cons, not_or]
        exact ⟨fun heq => hnd'.1 (heq ▸ hq), hdis q (List.mem_cons_of_mem o hq) _ hj⟩
      · rw [Function.update_of_ne hji]
        exact hdis q (List.mem_cons_of_mem o hq) j hj
    obtain ⟨g', hok, hf', hsame', hsize'⟩ := ih n (hpush ▸ hf.push (hlt o List.mem_cons_self) (hdis o List.mem_cons_self))
      hrest₂ hnd'.2 hdis₂ (fun q hq => hlt q (List.mem_cons_of_mem o hq))
      (fun q hq => (hidx q (List.mem_cons_of_mem o hq)).of_same hsame) (by simpa using hn)
    refine ⟨g', ?_, hf', hsame.trans hsame', by rw [hsize', hsize₂, hsize₁]⟩
    rw [List.head?_cons, Lua.rehashList, Lua.load_eq ho, Stop.ok_bind]
    dsimp only
    rw [← hs, hw₁, Stop.ok_bind, hw₂, Stop.ok_bind, hhead]
    exact hok

/-- The entries from `i` to `osize` are spread over those of the new size. -/
theorem Lua.rehashFrom_spec {nsize osize N : Nat} {idx : Nat → Nat} (hosize : osize ≤ N) (k : Nat) :
    ∀ {i : Nat} {g : Lua} {ch : Nat → List Nat}, i + k = osize → Filled g.next N ch →
    (∀ j < N, ∀ o ∈ ch j, idx o < N ∧ g.Indexed nsize idx o ∧ o < g.count) →
    (∀ j < N, j < i ∨ osize ≤ j → ∀ o ∈ ch j, idx o = j) →
    ∃ g' ch', Lua.rehashFrom nsize k i g = .ok g' ∧ Filled g'.next N ch' ∧ (∀ j < N, ∀ o ∈ ch' j, idx o = j) ∧
      (∀ o, (∃ j < N, o ∈ ch' j) ↔ ∃ j < N, o ∈ ch j) ∧ Same g g' ∧ g'.size = g.size := by
  induction k with
  | zero =>
    intro i g ch hi hf _ hplace
    refine ⟨g, ch, rfl, hf, fun j hj => hplace j hj ?_, fun _ => Iff.rfl, .refl g, rfl⟩
    omega
  | succ k ih =>
    intro i g ch hi hf hall hplace
    have hiN : i < N := by omega
    obtain ⟨g₁, hw₁, hnext₁, hsame₁, hsize₁⟩ := @Lua.write_spec g (.head i) (fun q hq => nomatch hq) none
    have hf₁ : Filled g₁.next N (Function.update ch i []) := hnext₁ ▸ hf.clear
    have hlen : (ch i).length ≤ g₁.count := by
      rw [hsame₁.count]
      have hsub : ch i ⊆ List.range g.count := fun o ho => List.mem_range.mpr (hall i hiN o ho).2.2
      calc (ch i).length ≤ (List.range g.count).length := ((hf.nodup hiN).subperm hsub).length_le
        _ = g.count := List.length_range
    obtain ⟨g₂, hok₂, hf₂, hsame₂, hsize₂⟩ := @Lua.rehashList_spec nsize N idx (ch i) g₁.count g₁ _ hf₁
      ((hf.path hiN).rest.frame fun o _ => by rw [hnext₁, Function.update_of_ne (Lib.BackLinks.Cell.link_ne_head _ _)])
      (hf.nodup hiN)
      (fun o ho j hj hoj => by
        by_cases hji : j = i
        · subst hji
          rw [Function.update_self] at hoj
          exact List.not_mem_nil hoj
        · rw [Function.update_of_ne hji] at hoj
          exact hji (hf.disjoint hj hiN hoj ho))
      (fun o ho => (hall i hiN o ho).1) (fun o ho => (hall i hiN o ho).2.1.of_same hsame₁) hlen
    have hsame := hsame₁.trans hsame₂
    -- what is where after the step
    have hmem : ∀ {j o}, o ∈ spread idx (Function.update ch i []) (ch i) j ↔ (o ∈ ch j ∧ j ≠ i) ∨ o ∈ ch i ∧ idx o = j := by
      intro j o
      rw [mem_spread]
      by_cases hji : j = i
      · subst hji
        simp
      · rw [Function.update_of_ne hji]
        simp [hji]
    obtain ⟨g', ch', hok, hf', hplace', hsame_mem, hsame', hsize'⟩ := @ih (i + 1) g₂ _ (by omega) hf₂
      (fun j hj o ho => by
        obtain ⟨ho, -⟩ | ⟨ho, -⟩ := hmem.mp ho
        · obtain ⟨hlt, hidx, hcount⟩ := hall j hj o ho
          exact ⟨hlt, hidx.of_same hsame, by rw [hsame.count]; exact hcount⟩
        · obtain ⟨hlt, hidx, hcount⟩ := hall i hiN o ho
          exact ⟨hlt, hidx.of_same hsame, by rw [hsame.count]; exact hcount⟩)
      (fun j hj hlt o ho => by
        obtain ⟨ho, hji⟩ | ⟨-, heq⟩ := hmem.mp ho
        · exact hplace j hj (by omega) o ho
        · exact heq)
    refine ⟨g', ch', ?_, hf', hplace', fun o => ?_, hsame.trans hsame', by rw [hsize', hsize₂, hsize₁]⟩
    · rw [Lua.rehashFrom, hw₁, Stop.ok_bind, show g.hash i = (ch i).head? from (hf.path hiN).head, hok₂, Stop.ok_bind]
      exact hok
    · rw [hsame_mem]
      constructor
      · rintro ⟨j, hj, ho⟩
        obtain ⟨ho, -⟩ | ⟨ho, -⟩ := hmem.mp ho
        · exact ⟨j, hj, ho⟩
        · exact ⟨i, hiN, ho⟩
      · rintro ⟨j, hj, ho⟩
        by_cases hji : j = i
        · subst hji
          exact ⟨idx o, (hall j hj o ho).1, hmem.mpr (.inr ⟨ho, rfl⟩)⟩
        · exact ⟨j, hj, hmem.mpr (.inl ⟨ho, hji⟩)⟩

/-! ## The invariant -/

/-- The string is allocated and short. -/
def Lua.Short (g : Lua) (o : Nat) : Prop := ∃ s, g.str o = some s ∧ s.isShort = true

/-- The entry of a string in a table of the size. -/
def Lua.entryOf (g : Lua) (size o : Nat) : Nat := (g.str o).elim 0 fun s => entry size s.hash

instance (g : Lua) (o : Nat) : Decidable (g.Short o) :=
  match h : g.str o with
  | none => isFalse fun ⟨_, hs, _⟩ => by rw [h] at hs; cases hs
  | some s => decidable_of_iff (s.isShort = true) ⟨fun hs => ⟨s, h, hs⟩, fun ⟨_, hs, hshort⟩ => by
      rw [h] at hs
      rwa [Option.some.inj hs]⟩

/-- The short strings. -/
def Lua.shorts (g : Lua) : Finset Nat := (Finset.range g.count).filter g.Short

/-- What holds of the strings, whatever is in the table. -/
structure Lua.Unique (g : Lua) : Prop where
  hash : ∀ {o s}, g.str o = some s → s.isShort = true → s.hash = luaSHash s.bytes g.seed
  inj : ∀ {o o' s s'}, g.str o = some s → g.str o' = some s' → s.isShort = true → s.bytes = s'.bytes → o = o'
  bound : ∀ {o s}, g.str o = some s → o < g.count

/-- The table has the short strings, each in the list of its entry. -/
structure Lua.Stored (g : Lua) (ch : Nat → List Nat) : Prop where
  pos : 0 < g.size
  filled : Filled g.next g.size ch
  mem : ∀ {i}, i < g.size → ∀ o, o ∈ ch i ↔ g.Short o ∧ g.entryOf g.size o = i

theorem entry_lt {size : Nat} (h : 0 < size) (x : UInt32) : entry size x < size := by
  have : entry size x ≤ size - 1 := Nat.and_le_right
  omega

theorem Lua.entryOf_eq {o : Nat} {s : Str} (ho : g.str o = some s) (size : Nat) : g.entryOf size o = entry size s.hash := by
  rw [Lua.entryOf, ho]
  rfl

theorem Lua.short_iff {o : Nat} {s : Str} (ho : g.str o = some s) : g.Short o ↔ s.isShort = true := by
  constructor
  · rintro ⟨s', ho', hshort⟩
    rw [ho] at ho'
    rwa [Option.some.inj ho']
  · exact fun hshort => ⟨s, ho, hshort⟩

theorem Same.short_iff {g g' : Lua} (hs : Same g g') (o : Nat) : g'.Short o ↔ g.Short o := by
  constructor
  · rintro ⟨s', ho', hshort⟩
    obtain ⟨s, ho, hbytes, -, -⟩ := hs.exists_str ho'
    refine ⟨s, ho, ?_⟩
    rwa [Str.isShort, hbytes]
  · rintro ⟨s, ho, hshort⟩
    obtain ⟨s', ho', hbytes, -, -⟩ := hs.exists_str' ho
    refine ⟨s', ho', ?_⟩
    rwa [Str.isShort, hbytes]

theorem Same.entryOf_eq {g g' : Lua} (hs : Same g g') (size o : Nat) : g'.entryOf size o = g.entryOf size o := by
  have heq := hs.str o
  rw [Lua.entryOf, Lua.entryOf]
  cases h : g.str o with
  | none =>
    rw [h, Option.map_none, Option.map_eq_none_iff] at heq
    rw [heq]
  | some s =>
    obtain ⟨s', ho', -, hhash, -⟩ := hs.exists_str' h
    rw [ho']
    simp [hhash]

theorem Same.shorts_eq {g g' : Lua} (hs : Same g g') : g'.shorts = g.shorts := by
  rw [Lua.shorts, Lua.shorts, hs.count]
  exact Finset.filter_congr fun o _ => hs.short_iff o

theorem Lua.Unique.of_same {g g' : Lua} (h : g.Unique) (hs : Same g g') : g'.Unique where
  hash := fun ho hshort => by
    obtain ⟨s, ho', hbytes, hhash, -⟩ := hs.exists_str ho
    rw [← hhash, ← hbytes, hs.seed]
    refine h.hash ho' ?_
    rwa [Str.isShort, hbytes]
  inj := fun ho ho' hshort heq => by
    obtain ⟨s₁, ho₁, hbytes₁, -, -⟩ := hs.exists_str ho
    obtain ⟨s₂, ho₂, hbytes₂, -, -⟩ := hs.exists_str ho'
    refine h.inj ho₁ ho₂ ?_ (by rw [hbytes₁, hbytes₂, heq])
    rwa [Str.isShort, hbytes₁]
  bound := fun ho => by
    obtain ⟨s, ho', -, -, -⟩ := hs.exists_str ho
    rw [hs.count]
    exact h.bound ho'

variable {ch : Nat → List Nat}

theorem Lua.Stored.isSome (h : g.Stored ch) {i o : Nat} (hi : i < g.size) (ho : o ∈ ch i) : (g.str o).isSome := by
  obtain ⟨⟨s, hs, -⟩, -⟩ := (h.mem hi o).mp ho
  rw [hs]
  rfl

theorem Lua.Stored.length_le (h : g.Stored ch) (hu : g.Unique) {i : Nat} (hi : i < g.size) : (ch i).length ≤ g.count := by
  have hsub : ch i ⊆ List.range g.count := by
    intro o ho
    obtain ⟨s, hs⟩ := Option.isSome_iff_exists.mp (h.isSome hi ho)
    exact List.mem_range.mpr (hu.bound hs)
  calc (ch i).length ≤ (List.range g.count).length := ((h.filled.nodup hi).subperm hsub).length_le
    _ = g.count := List.length_range

/-! ## Operations on the table -/

theorem Lua.resize_spec (h : g.Stored ch) (hu : g.Unique) {nsize : Nat} (hn : g.size < nsize) :
    g.resize nsize = .error .memory ∧ isizeMax < nsize * 8 ∨
      ∃ g' ch', g.resize nsize = .ok g' ∧ g'.Stored ch' ∧ Same g g' ∧ g'.size = nsize := by
  rw [Lua.resize, if_neg (by omega), Stop.ok_bind]
  dsimp only
  by_cases hmem : isizeMax < nsize * 8
  · rw [if_pos hmem]
    exact .inl ⟨rfl, hmem⟩
  rw [if_neg hmem, if_pos hn]
  refine .inr ?_
  -- the new entries are empty
  let g₀ : Lua := { g with size := nsize, hash := fun i => if g.size ≤ i ∧ i < nsize then none else g.hash i }
  let ch₀ : Nat → List Nat := fun i => if i < g.size then ch i else []
  have hold : ∀ {i}, i < g.size → ch₀ i = ch i := fun hi => if_pos hi
  have hnew : ∀ {i}, ¬i < g.size → ch₀ i = [] := fun hi => if_neg hi
  have hmem₀ : ∀ {i o}, o ∈ ch₀ i ↔ i < g.size ∧ o ∈ ch i := by
    intro i o
    by_cases hi : i < g.size
    · rw [hold hi, and_iff_right hi]
    · rw [hnew hi]
      exact iff_of_false List.not_mem_nil fun ho => hi ho.1
  have hf₀ : Filled g₀.next nsize ch₀ := by
    refine ⟨fun {i} hi => ?_, fun {i} hi => ?_, fun hi hj hoi hoj => ?_⟩
    · by_cases hlt : i < g.size
      · rw [hold hlt]
        refine (h.filled.path hlt).frame ?_ fun _ _ => rfl
        exact if_neg (by omega)
      · rw [hnew hlt]
        exact if_pos (by omega)
    · by_cases hlt : i < g.size
      · rw [hold hlt]
        exact h.filled.nodup hlt
      · rw [hnew hlt]
        exact List.nodup_nil
    · obtain ⟨hi', hoi⟩ := hmem₀.mp hoi
      obtain ⟨hj', hoj⟩ := hmem₀.mp hoj
      exact h.filled.disjoint hi' hj' hoi hoj
  have hsame₀ : Same g g₀ := ⟨rfl, rfl, rfl, rfl, rfl, fun _ => rfl⟩
  obtain ⟨g', ch', hok, hf', hplace, hmem', hsame, hsize⟩ := @Lua.rehashFrom_spec nsize g.size nsize (g.entryOf nsize)
    (Nat.le_of_lt hn) g.size 0 g₀ ch₀ (Nat.zero_add _) hf₀
    (fun j hj o ho => by
      obtain ⟨hj', ho⟩ := hmem₀.mp ho
      obtain ⟨s, hs⟩ := Option.isSome_iff_exists.mp (h.isSome hj' ho)
      rw [Lua.entryOf_eq hs]
      exact ⟨entry_lt (by omega) _, ⟨s, hs, Lua.entryOf_eq hs nsize⟩, hu.bound hs⟩)
    (fun j hj hout o ho => by
      obtain ⟨hj', -⟩ := hmem₀.mp ho
      omega)
  refine ⟨g', ch', hok, ⟨?_, ?_, ?_⟩, hsame₀.trans hsame, hsize⟩
  · rw [hsize]
    exact Nat.lt_of_le_of_lt (Nat.zero_le _) hn
  · rw [hsize]
    exact hf'
  · intro i hi o
    rw [hsize] at hi ⊢
    rw [(hsame₀.trans hsame).short_iff, (hsame₀.trans hsame).entryOf_eq]
    constructor
    · intro ho
      obtain ⟨j, hj, hoj⟩ := (hmem' o).mp ⟨i, hi, ho⟩
      obtain ⟨hj', hoj⟩ := hmem₀.mp hoj
      exact ⟨((h.mem hj' o).mp hoj).1, hplace i hi o ho⟩
    · rintro ⟨hshort, hentry⟩
      obtain ⟨s, hs, -⟩ := id hshort
      have hlt : g.entryOf g.size o < g.size := by
        rw [Lua.entryOf_eq hs]
        exact entry_lt h.pos _
      obtain ⟨j, hj, hoj⟩ := (hmem' o).mpr ⟨_, hlt.trans hn, hmem₀.mpr ⟨hlt, (h.mem hlt o).mpr ⟨hshort, rfl⟩⟩⟩
      have := hplace j hj o hoj
      rw [hentry] at this
      exact this ▸ hoj

theorem Lua.find_spec (str : Bytes) {l : List Nat} : ∀ (n : Nat), Rest g.next l → (∀ o ∈ l, (g.str o).isSome) →
    l.length ≤ n → ∃ r, g.find str n l.head? = .ok r ∧
      (∀ o, r = some o → o ∈ l ∧ ∃ s, g.str o = some s ∧ s.bytes = str) ∧
      (r = none → ∀ o ∈ l, ∀ s, g.str o = some s → s.bytes ≠ str) := by
  induction l with
  | nil =>
    intro n _ _ _
    refine ⟨none, by cases n <;> rfl, (fun _ ho => nomatch ho), fun _ o ho => absurd ho List.not_mem_nil⟩
  | cons o l ih =>
    intro n hrest hsome hn
    obtain ⟨n, rfl⟩ : ∃ k, n = k + 1 := ⟨n - 1, by simp at hn; omega⟩
    obtain ⟨s, ho⟩ := Option.isSome_iff_exists.mp (hsome o List.mem_cons_self)
    have hnext : s.hnext = l.head? := by
      rw [← Path.head hrest]
      simp [Lua.next, ho]
    rw [List.head?_cons, Lua.find, Lua.load_eq ho, Stop.ok_bind]
    by_cases hb : s.bytes = str
    · refine ⟨some o, if_pos hb, ?_, fun h => nomatch h⟩
      intro q hq
      rw [← Option.some.inj hq]
      exact ⟨List.mem_cons_self, s, ho, hb⟩
    · obtain ⟨r, hr, hfound, hnone⟩ := ih n (Path.rest hrest) (fun q hq => hsome q (List.mem_cons_of_mem o hq))
        (by simpa using hn)
      refine ⟨r, ?_, ?_, ?_⟩
      · rw [if_neg hb, hnext]
        exact hr
      · intro q hq
        obtain ⟨hin, hs⟩ := hfound q hq
        exact ⟨List.mem_cons_of_mem o hin, hs⟩
      · intro hn q hq s' hs'
        rcases List.mem_cons.mp hq with rfl | hq
        · rw [ho] at hs'
          rw [← Option.some.inj hs']
          exact hb
        · exact hnone hn q hq s' hs'

/-- The walk of `remove`, along a path of strings that are there. -/
theorem Lua.seek_eq {o : Nat} {l : List Nat} : ∀ {c : Cell} {n : Nat}, Path g.next c l →
    (∀ q, c = .link q → (g.str q).isSome) → (∀ q ∈ l, (g.str q).isSome) →
    ∀ {e}, Lib.Buckets.findCell g.next o n c = some e → g.seek o n c = .ok e := by
  induction l with
  | nil =>
    intro c n hp hc _ e he
    cases n with
    | zero => cases he
    | succ n =>
      rw [Lib.Buckets.findCell, show g.next c = none from hp] at he
      cases he
  | cons q l ih =>
    intro c n hp hc hsome e he
    cases n with
    | zero => cases he
    | succ n =>
      rw [Lib.Buckets.findCell, hp.1] at he
      rw [Lua.seek, Lua.read_eq hc, hp.1, Stop.ok_bind]
      dsimp only at he ⊢
      by_cases hqo : q = o
      · rw [if_pos hqo] at he ⊢
        rw [Option.some.inj he]
      · rw [if_neg hqo] at he ⊢
        refine ih hp.2 ?_ (fun r hr => hsome r (List.mem_cons_of_mem q hr)) he
        exact fun r hr => hsome r (Lib.BackLinks.Cell.link.inj hr ▸ List.mem_cons_self)

/-- The invariant of a program. -/
structure Lua.Inv (g : Lua) (ch : Nat → List Nat) : Prop extends g.Stored ch, g.Unique where
  nuse : g.nuse = g.shorts.card

theorem Lua.mem_shorts (hu : g.Unique) {o : Nat} : o ∈ g.shorts ↔ g.Short o := by
  rw [Lua.shorts, Finset.mem_filter, Finset.mem_range]
  refine and_iff_right_of_imp ?_
  rintro ⟨s, hs, -⟩
  exact hu.bound hs

/-- `remove` finds the string and takes it out of its list. -/
theorem Lua.remove_spec (h : g.Inv ch) {o : Nat} (ho : g.Short o) :
    ∃ g', g.remove o = .ok { g' with nuse := g.nuse - 1 } ∧ Same g g' ∧ g'.size = g.size ∧
      Filled g'.next g.size
        (Function.update ch (g.entryOf g.size o) ((ch (g.entryOf g.size o)).erase o)) := by
  obtain ⟨s, hs, hshort⟩ := id ho
  have hlt : g.entryOf g.size o < g.size := by
    rw [Lua.entryOf_eq hs]
    exact entry_lt h.pos _
  have hin : o ∈ ch (g.entryOf g.size o) := (h.mem hlt o).mpr ⟨ho, rfl⟩
  obtain ⟨e, he, hnext, hcell, hf⟩ := h.filled.remove hlt hin
    (Nat.le_succ_of_le (h.toStored.length_le h.toUnique hlt))
  have hseek := Lua.seek_eq (h.filled.path hlt) (fun q hq => nomatch hq) (fun q hq => h.toStored.isSome hlt hq) he
  obtain ⟨g', hw, hnext', hsame, hsize⟩ := @Lua.write_spec g e
    (fun q hq => by
      rcases hcell with heq | ⟨r, hr, heq⟩
      · rw [heq] at hq
        cases hq
      · rw [heq] at hq
        exact h.toStored.isSome hlt (Lib.BackLinks.Cell.link.inj hq ▸ hr)) s.hnext
  have hpos : 0 < g.nuse := by
    rw [h.nuse]
    exact Finset.card_pos.mpr ⟨o, (Lua.mem_shorts h.toUnique).mpr ho⟩
  have hlink : g.next (.link o) = s.hnext := by simp [Lua.next, hs]
  refine ⟨g', ?_, hsame, hsize, ?_⟩
  · rw [Lua.remove, Lua.load_eq hs, Stop.ok_bind, ← Lua.entryOf_eq hs, hseek, Stop.ok_bind, hw, Stop.ok_bind, hsame.nuse,
      if_neg (by omega)]
  · rw [hnext', ← hlink]
    exact hf

theorem Lua.Short.of_erase {o q : Nat} (hq : Lua.Short { g with str := Function.update g.str o none } q) :
    q ≠ o ∧ g.Short q := by
  obtain ⟨s, hs, hshort⟩ := hq
  by_cases hqo : q = o
  · subst hqo
    simp at hs
  · simp only [Function.update_of_ne hqo] at hs
    exact ⟨hqo, s, hs, hshort⟩

theorem Lua.Unique.erase (h : g.Unique) (o : Nat) : Lua.Unique { g with str := Function.update g.str o none } := by
  have hold : ∀ {q s}, Function.update g.str o none q = some s → g.str q = some s := by
    intro q s hq
    by_cases hqo : q = o
    · subst hqo
      simp at hq
    · rwa [Function.update_of_ne hqo] at hq
  exact ⟨fun hq => h.hash (hold hq), fun hq hq' => h.inj (hold hq) (hold hq'), fun hq => h.bound (hold hq)⟩

theorem Lua.next_erase (o : Nat) {c : Cell} (hc : c ≠ .link o) :
    Lua.next { g with str := Function.update g.str o none } c = g.next c := by
  rcases c with i | q
  · rfl
  · have hqo : q ≠ o := fun heq => hc (congrArg _ heq)
    simp [Lua.next, Function.update_of_ne hqo]

theorem Lua.free_spec (h : g.Inv ch) {o : Nat} (ho : (g.str o).isSome) :
    ∃ g' ch', g.free o = .ok g' ∧ g'.Inv ch' ∧ g'.state = g.state ∧ g'.currentwhite = g.currentwhite ∧
      ∀ q s, q ≠ o → g.str q = some s → ∃ s', g'.str q = some s' ∧ s'.bytes = s.bytes ∧ s'.color = s.color := by
  obtain ⟨s, hs⟩ := Option.isSome_iff_exists.mp ho
  rw [Lua.free, Lua.load_eq hs, Stop.ok_bind]
  by_cases hshort : s.isShort = true
  · rw [if_pos hshort]
    have hsh : g.Short o := ⟨s, hs, hshort⟩
    obtain ⟨g₁, hok, hsame, hsize, hf⟩ := Lua.remove_spec h hsh
    rw [hok, Stop.ok_bind]
    let g₂ : Lua := { g₁ with nuse := g.nuse - 1, str := Function.update g₁.str o none }
    have hlt : g.entryOf g.size o < g.size := by
      rw [Lua.entryOf_eq hs]
      exact entry_lt h.pos _
    have hgone : ∀ i < g.size, o ∉ Function.update ch (g.entryOf g.size o) ((ch (g.entryOf g.size o)).erase o) i := by
      intro i hi hin
      by_cases hie : i = g.entryOf g.size o
      · subst hie
        rw [Function.update_self] at hin
        exact (List.Nodup.not_mem_erase (h.filled.nodup hi)) hin
      · rw [Function.update_of_ne hie] at hin
        exact hie (((h.mem hi o).mp hin).2.symm)
    have hf₂ : Filled g₂.next g.size (Function.update ch (g.entryOf g.size o) ((ch (g.entryOf g.size o)).erase o)) := by
      refine hf.frame (fun i _ => rfl) fun i hi q hq => ?_
      have hqo : q ≠ o := fun heq => hgone i hi (heq ▸ hq)
      exact Lua.next_erase (g := g₁) o (fun heq => hqo (Lib.BackLinks.Cell.link.inj heq))
    have hu₂ : g₂.Unique := by
      have hu := (h.toUnique.of_same hsame).erase o
      exact ⟨hu.hash, hu.inj, hu.bound⟩
    have hshort₂ : ∀ q, g₂.Short q ↔ q ≠ o ∧ g.Short q := by
      intro q
      constructor
      · intro hq
        obtain ⟨hqo, hq⟩ := Lua.Short.of_erase (g := g₁) hq
        exact ⟨hqo, (hsame.short_iff q).mp hq⟩
      · rintro ⟨hqo, hq⟩
        obtain ⟨s', hs', hshort'⟩ := (hsame.short_iff q).mpr hq
        exact ⟨s', by simp only [g₂, Function.update_of_ne hqo]; exact hs', hshort'⟩
    refine ⟨g₂, Function.update ch (g.entryOf g.size o) ((ch (g.entryOf g.size o)).erase o), rfl, ⟨⟨?_, ?_, ?_⟩, hu₂, ?_⟩,
      hsame.state, hsame.currentwhite, ?_⟩
    · show 0 < g₁.size
      rw [hsize]
      exact h.pos
    · show Filled g₂.next g₁.size _
      rw [hsize]
      exact hf₂
    · intro i hi q
      have hsize₂ : g₂.size = g.size := hsize
      rw [hsize₂] at hi ⊢
      rw [hshort₂]
      by_cases hqo : q = o
      · subst hqo
        exact iff_of_false (hgone i hi) fun hq => hq.1.1 rfl
      · have hentry : g₂.entryOf g.size q = g.entryOf g.size q := by
          rw [← hsame.entryOf_eq]
          simp [Lua.entryOf, g₂, Function.update_of_ne hqo]
        rw [hentry, ne_eq, and_iff_right hqo, ← h.mem hi]
        by_cases hie : i = g.entryOf g.size o
        · subst hie
          rw [Function.update_self, List.mem_erase_of_ne hqo]
        · rw [Function.update_of_ne hie]
    · have herase : g₂.shorts = g.shorts.erase o := by
        ext q
        rw [Lua.mem_shorts hu₂, Finset.mem_erase, Lua.mem_shorts h.toUnique, hshort₂]
      show g.nuse - 1 = g₂.shorts.card
      rw [herase, Finset.card_erase_of_mem ((Lua.mem_shorts h.toUnique).mpr hsh), h.nuse]
    · intro q s' hqo hq
      obtain ⟨s₁, hs₁, hbytes, -, hcolor⟩ := hsame.exists_str' hq
      exact ⟨s₁, by simp only [g₂, Function.update_of_ne hqo]; exact hs₁, hbytes, hcolor⟩
  · rw [if_neg hshort, Stop.ok_bind]
    let g₂ : Lua := { g with str := Function.update g.str o none }
    have hnot : ¬g.Short o := fun hsh => hshort ((Lua.short_iff hs).mp hsh)
    have hu₂ : g₂.Unique := h.toUnique.erase o
    have hshort₂ : ∀ q, g₂.Short q ↔ g.Short q := by
      intro q
      constructor
      · exact fun hq => (Lua.Short.of_erase hq).2
      · rintro ⟨s', hs', hshort'⟩
        have hqo : q ≠ o := by
          rintro rfl
          exact hnot ⟨s', hs', hshort'⟩
        exact ⟨s', by simp only [g₂, Function.update_of_ne hqo]; exact hs', hshort'⟩
    have hne : ∀ {q}, g.Short q → q ≠ o := fun hq heq => hnot (heq ▸ hq)
    refine ⟨g₂, ch, rfl, ⟨⟨h.pos, ?_, ?_⟩, hu₂, ?_⟩, rfl, rfl, ?_⟩
    · refine h.filled.frame (fun i _ => rfl) fun i hi q hq => ?_
      have hqo := hne ((h.mem hi q).mp hq).1
      exact Lua.next_erase o (fun heq => hqo (Lib.BackLinks.Cell.link.inj heq))
    · intro i hi q
      rw [h.mem hi, hshort₂]
      refine and_congr_right fun hq => ?_
      simp [Lua.entryOf, g₂, Function.update_of_ne (hne hq)]
    · have : g₂.shorts = g.shorts := Finset.filter_congr fun q _ => hshort₂ q
      rw [this]
      exact h.nuse
    · intro q s' hqo hq
      exact ⟨s', by simp only [g₂, Function.update_of_ne hqo]; exact hq, rfl, rfl⟩

/-! ## Colors and new strings -/

/-- Only colors and the state of the collector are different. -/
structure SameText (g g' : Lua) : Prop where
  nuse : g'.nuse = g.nuse
  size : g'.size = g.size
  seed : g'.seed = g.seed
  count : g'.count = g.count
  next : g'.next = g.next
  str : ∀ o, (g'.str o).map (fun s => (s.bytes, s.hash)) = (g.str o).map fun s => (s.bytes, s.hash)

theorem SameText.exists_str {g g' : Lua} (hs : SameText g g') {o : Nat} {s' : Str} (ho : g'.str o = some s') :
    ∃ s, g.str o = some s ∧ s.bytes = s'.bytes ∧ s.hash = s'.hash := by
  have heq := hs.str o
  rw [ho] at heq
  cases h : g.str o with
  | none =>
    rw [h] at heq
    cases heq
  | some s =>
    simp_all

theorem Lua.Inv.of_text {g g' : Lua} (h : g.Inv ch) (hs : SameText g g') : g'.Inv ch := by
  have hs' : SameText g' g := ⟨hs.nuse.symm, hs.size.symm, hs.seed.symm, hs.count.symm, hs.next.symm,
    fun o => (hs.str o).symm⟩
  have hshort : ∀ o, g'.Short o ↔ g.Short o := by
    intro o
    constructor
    · rintro ⟨s', ho', hsh⟩
      obtain ⟨s, ho, hbytes, -⟩ := hs.exists_str ho'
      exact ⟨s, ho, by rwa [Str.isShort, hbytes]⟩
    · rintro ⟨s, ho, hsh⟩
      obtain ⟨s', ho', hbytes, -⟩ := hs'.exists_str ho
      exact ⟨s', ho', by rwa [Str.isShort, hbytes]⟩
  refine ⟨⟨?_, ?_, fun {i} hi o => ?_⟩, ⟨fun ho hsh => ?_, fun ho ho' hsh heq => ?_, fun ho => ?_⟩, ?_⟩
  · rw [hs.size]
    exact h.pos
  · rw [hs.size, hs.next]
    exact h.filled
  · rw [hs.size] at hi ⊢
    rw [h.mem hi, hshort]
    refine and_congr_right fun ⟨s, ho, _⟩ => ?_
    obtain ⟨s', ho', -, hhash⟩ := hs'.exists_str ho
    rw [Lua.entryOf_eq ho, Lua.entryOf_eq ho', hhash]
  · obtain ⟨s, ho', hbytes, hhash⟩ := hs.exists_str ho
    rw [← hhash, ← hbytes, hs.seed]
    exact h.hash ho' (by rwa [Str.isShort, hbytes])
  · obtain ⟨s₁, ho₁, hbytes₁, -⟩ := hs.exists_str ho
    obtain ⟨s₂, ho₂, hbytes₂, -⟩ := hs.exists_str ho'
    exact h.inj ho₁ ho₂ (by rwa [Str.isShort, hbytes₁]) (by rw [hbytes₁, hbytes₂, heq])
  · obtain ⟨s, ho', -, -⟩ := hs.exists_str ho
    rw [hs.count]
    exact h.bound ho'
  · have : g'.shorts = g.shorts := by
      rw [Lua.shorts, Lua.shorts, hs.count]
      exact Finset.filter_congr fun o _ => hshort o
    rw [hs.nuse, this]
    exact h.nuse

theorem sameText_recolor {o : Nat} {s : Str} (ho : g.str o = some s) (c : Color) :
    SameText g { g with str := Function.update g.str o (some { s with color := c }) } := by
  refine ⟨rfl, rfl, rfl, rfl, funext fun q => ?_, fun q => ?_⟩
  · rcases q with i | q
    · rfl
    · by_cases hqo : q = o
      · subst hqo
        simp [Lua.next, ho]
      · simp [Lua.next, Function.update_of_ne hqo]
  · by_cases hqo : q = o
    · subst hqo
      simp [ho]
    · simp [Function.update_of_ne hqo]

/-- Nothing else is freed or dies, and the collector is where it was. -/
structure Keeps (g g' : Lua) : Prop where
  state : g'.state = g.state
  currentwhite : g'.currentwhite = g.currentwhite
  str : ∀ {q s}, g.str q = some s → ∃ s', g'.str q = some s' ∧ s'.bytes = s.bytes ∧ (¬g.isDead s → ¬g'.isDead s')

theorem Keeps.trans {g g' g'' : Lua} (h : Keeps g g') (h' : Keeps g' g'') : Keeps g g'' := by
  refine ⟨h'.state.trans h.state, h'.currentwhite.trans h.currentwhite, fun hq => ?_⟩
  obtain ⟨s', hs', hbytes, hdead⟩ := h.str hq
  obtain ⟨s'', hs'', hbytes', hdead'⟩ := h'.str hs'
  exact ⟨s'', hs'', hbytes'.trans hbytes, fun hd => hdead' (hdead hd)⟩

theorem Same.keeps {g g' : Lua} (hs : Same g g') : Keeps g g' := by
  refine ⟨hs.state, hs.currentwhite, fun hq => ?_⟩
  obtain ⟨s', hs', hbytes, -, hcolor⟩ := hs.exists_str' hq
  refine ⟨s', hs', hbytes, fun hd => ?_⟩
  rwa [Lua.isDead, hcolor, hs.currentwhite]

theorem keeps_recolor {o : Nat} {s : Str} (ho : g.str o = some s) {c : Color} (hc : c ≠ .white !g.currentwhite) :
    Keeps g { g with str := Function.update g.str o (some { s with color := c }) } := by
  refine ⟨rfl, rfl, fun {q s'} hq => ?_⟩
  by_cases hqo : q = o
  · subst hqo
    rw [ho] at hq
    refine ⟨_, Function.update_self .., by rw [Option.some.inj hq], fun _ => hc⟩
  · exact ⟨s', by simp only [Function.update_of_ne hqo]; exact hq, rfl, id⟩

theorem Lua.str_count (h : g.Unique) : g.str g.count = none := by
  cases hs : g.str g.count with
  | none => rfl
  | some s => exact absurd (h.bound hs) (Nat.lt_irrefl _)

theorem keeps_alloc (h : g.Unique) (s : Str) : Keeps g (g.alloc s) := by
  refine ⟨rfl, rfl, fun {q s'} hq => ⟨s', ?_, rfl, id⟩⟩
  have hqc : q ≠ g.count := by
    rintro rfl
    rw [Lua.str_count h] at hq
    cases hq
  simp only [Lua.alloc, Function.update_of_ne hqc]
  exact hq

theorem Lua.short_alloc (h : g.Unique) (s : Str) (q : Nat) :
    (g.alloc s).Short q ↔ g.Short q ∨ q = g.count ∧ s.isShort = true := by
  by_cases hqc : q = g.count
  · subst hqc
    rw [Lua.short_iff (g := g.alloc s) (s := s) (Function.update_self ..)]
    have hnot : ¬g.Short g.count := by
      rintro ⟨s', hs', -⟩
      rw [Lua.str_count h] at hs'
      cases hs'
    simp [hnot]
  · simp [Lua.Short, Lua.alloc, hqc]

theorem Lua.Unique.alloc (h : g.Unique) {s : Str} (hhash : s.isShort = true → s.hash = luaSHash s.bytes g.seed)
    (hnew : s.isShort = true → ∀ o s', g.str o = some s' → s'.bytes ≠ s.bytes) : (g.alloc s).Unique := by
  have hobj : ∀ {q s'}, (g.alloc s).str q = some s' → q = g.count ∧ s' = s ∨ g.str q = some s' := by
    intro q s' hq
    by_cases hqc : q = g.count
    · subst hqc
      simp only [Lua.alloc, Function.update_self, Option.some.injEq] at hq
      exact .inl ⟨rfl, hq.symm⟩
    · simp only [Lua.alloc, Function.update_of_ne hqc] at hq
      exact .inr hq
  have hlen : ∀ {s₁ s₂ : Str}, s₁.bytes = s₂.bytes → s₁.isShort = true → s₂.isShort = true := by
    intro s₁ s₂ heq hs
    rwa [Str.isShort, ← heq]
  refine ⟨fun hq hsh => ?_, fun hq hq' hsh heq => ?_, fun hq => ?_⟩
  · rcases hobj hq with ⟨-, rfl⟩ | hq
    · exact hhash hsh
    · exact h.hash hq hsh
  · rcases hobj hq with ⟨rfl, rfl⟩ | hold <;> rcases hobj hq' with ⟨rfl, rfl⟩ | hold'
    · rfl
    · exact absurd heq.symm (hnew hsh _ _ hold')
    · exact absurd heq (hnew (hlen heq hsh) _ _ hold)
    · exact h.inj hold hold' hsh heq
  · rcases hobj hq with ⟨rfl, -⟩ | hq
    · exact Nat.lt_succ_self _
    · exact Nat.lt_succ_of_lt (h.bound hq)

theorem Lua.Inv.allocLong (h : g.Inv ch) {s : Str} (hs : s.isShort = false) : (g.alloc s).Inv ch := by
  have hu : (g.alloc s).Unique := h.toUnique.alloc (fun hsh => by rw [hs] at hsh; cases hsh) fun hsh => by
    rw [hs] at hsh
    cases hsh
  have hshort : ∀ q, (g.alloc s).Short q ↔ g.Short q := by
    intro q
    rw [Lua.short_alloc h.toUnique, or_iff_left]
    rw [hs]
    exact fun hq => nomatch hq.2
  have hne : ∀ {q}, g.Short q → q ≠ g.count := by
    rintro q ⟨s', hq, -⟩ rfl
    rw [Lua.str_count h.toUnique] at hq
    cases hq
  refine ⟨⟨h.pos, ?_, ?_⟩, hu, ?_⟩
  · refine h.filled.frame (fun i _ => rfl) fun i hi q hq => ?_
    have hqc := hne ((h.mem hi q).mp hq).1
    simp [Lua.next, Lua.alloc, Function.update_of_ne hqc]
  · intro i hi q
    rw [h.mem hi, hshort]
    refine and_congr_right fun hq => ?_
    simp [Lua.entryOf, Lua.alloc, Function.update_of_ne (hne hq)]
  · have : (g.alloc s).shorts = g.shorts := by
      ext q
      rw [Lua.mem_shorts hu, Lua.mem_shorts h.toUnique, hshort]
    rw [this]
    exact h.nuse

/-- A new short string goes to the front of the list of its entry, and is counted. -/
theorem Lua.Inv.allocShort (h : g.Inv ch) {s : Str} {e : Nat} (hs : s.isShort = true)
    (hhash : s.hash = luaSHash s.bytes g.seed) (he : e = entry g.size s.hash) (hnext : s.hnext = g.hash e)
    (hnew : ∀ o s', g.str o = some s' → s'.bytes ≠ s.bytes) :
    Lua.Inv { (g.alloc s) with nuse := g.nuse + 1, hash := Function.update g.hash e (some g.count) }
      (Function.update ch e (g.count :: ch e)) := by
  let g' : Lua := { (g.alloc s) with nuse := g.nuse + 1, hash := Function.update g.hash e (some g.count) }
  have hu : (g.alloc s).Unique := h.toUnique.alloc (fun _ => hhash) fun _ => hnew
  have hu' : g'.Unique := ⟨hu.hash, hu.inj, hu.bound⟩
  have hshort : ∀ q, g'.Short q ↔ g.Short q ∨ q = g.count := by
    intro q
    have := Lua.short_alloc h.toUnique s q
    rwa [and_iff_left hs] at this
  have hne : ∀ {q}, g.Short q → q ≠ g.count := by
    rintro q ⟨s', hq, -⟩ rfl
    rw [Lua.str_count h.toUnique] at hq
    cases hq
  have hlt : e < g.size := he ▸ entry_lt h.pos _
  have hnot : ∀ j < g.size, g.count ∉ ch j := fun j hj hin => hne ((h.mem hj _).mp hin).1 rfl
  have hpush : g'.next = Lib.Buckets.push g.next e g.count := by
    funext c
    rcases c with i | q
    · by_cases hie : i = e
      · subst hie
        simp [g', Lua.next, Lib.Buckets.push]
      · have hc : (.head i : Cell) ≠ .head e := fun heq => hie (Lib.BackLinks.Cell.head.inj heq)
        rw [Lib.Buckets.push, Function.update_of_ne hc, Function.update_of_ne (Lib.BackLinks.Cell.link_ne_head _ _).symm]
        simp [g', Lua.next, Function.update_of_ne hie]
    · rw [Lib.Buckets.push, Function.update_of_ne (Lib.BackLinks.Cell.link_ne_head _ _)]
      by_cases hqc : q = g.count
      · subst hqc
        simp [g', Lua.next, Lua.alloc, hnext]
      · have hc : (.link q : Cell) ≠ .link g.count := fun heq => hqc (Lib.BackLinks.Cell.link.inj heq)
        simp [g', Lua.next, Lua.alloc, Function.update_of_ne hqc, Function.update_of_ne hc]
  refine ⟨⟨h.pos, ?_, ?_⟩, hu', ?_⟩
  · show Filled g'.next g.size _
    rw [hpush]
    exact h.filled.push hlt hnot
  · intro i hi q
    have hi' : i < g.size := hi
    show q ∈ Function.update ch e (g.count :: ch e) i ↔ g'.Short q ∧ g'.entryOf g.size q = i
    rw [hshort]
    by_cases hqc : q = g.count
    · subst hqc
      have hentry : g'.entryOf g.size g.count = e := by
        rw [Lua.entryOf_eq (g := g') (s := s) (by simp [g', Lua.alloc]), he]
      rw [hentry]
      by_cases hie : i = e
      · subst hie
        simp
      · rw [Function.update_of_ne hie]
        exact iff_of_false (hnot i hi') fun hq => hie hq.2.symm
    · have hentry : g'.entryOf g.size q = g.entryOf g.size q := by
        simp [Lua.entryOf, g', Lua.alloc, Function.update_of_ne hqc]
      rw [hentry, or_iff_left hqc, ← h.mem hi']
      by_cases hie : i = e
      · subst hie
        rw [Function.update_self, List.mem_cons, or_iff_right hqc]
      · rw [Function.update_of_ne hie]
  · have hins : g'.shorts = Insert.insert g.count g.shorts := by
      ext q
      rw [Lua.mem_shorts hu', Finset.mem_insert, Lua.mem_shorts h.toUnique, hshort, or_comm]
    show g.nuse + 1 = g'.shorts.card
    rw [hins, Finset.card_insert_of_notMem, h.nuse]
    rw [Lua.mem_shorts h.toUnique]
    exact fun hq => hne hq rfl

/-- The string is new, and the table is full and too large to be doubled. -/
structure Lua.NoRoom (g : Lua) (str : Bytes) : Prop where
  short : str.length ≤ shortLen
  new : ∀ o s, g.str o = some s → s.bytes ≠ str
  full : g.size ≤ g.nuse
  large : isizeMax < g.size * 2 * 8

/-- `Str::new` gives the one string with the bytes, where they are few, and it is not dead. -/
theorem Lua.newStr_spec (h : g.Inv ch) (str : Bytes) :
    g.newStr str = .error .memory ∧ g.NoRoom str ∨ ∃ g' ch' v s, g.newStr str = .ok (g', v) ∧ g'.Inv ch' ∧ Keeps g g' ∧
      g'.str v = some s ∧ s.bytes = str ∧ ¬g'.isDead s := by
  have halive : ∀ w : Bool, Color.white w ≠ .white !w := by decide
  rw [Lua.newStr]
  by_cases hlong : str.length > shortLen
  · rw [if_pos hlong]
    have hs : Str.isShort ⟨str, g.seed, none, .white g.currentwhite⟩ = false := by
      simpa [Str.isShort] using hlong
    exact .inr ⟨_, ch, g.count, _, rfl, h.allocLong hs, keeps_alloc h.toUnique _, Function.update_self .., rfl, halive _⟩
  rw [if_neg hlong]
  have hlt : entry g.size (luaSHash str g.seed) < g.size := entry_lt h.pos _
  obtain ⟨r, hr, hfound, hnone⟩ := Lua.find_spec str g.count (h.filled.path hlt).rest
    (fun o ho => h.toStored.isSome hlt ho) (h.toStored.length_le h.toUnique hlt)
  rw [← (h.filled.path hlt).head] at hr
  have hr' : g.find str g.count (g.hash (entry g.size (luaSHash str g.seed))) = .ok r := hr
  dsimp only
  rw [Lua.insert]
  dsimp only
  rw [hr', Stop.ok_bind]
  cases r with
  | some o =>
    obtain ⟨-, s, hs, hbytes⟩ := hfound o rfl
    dsimp only
    rw [Stop.ok_bind]
    dsimp only
    rw [Lua.resurrect, Lua.modify_eq hs, Stop.ok_bind]
    refine .inr ?_
    by_cases hd : g.isDead s
    · rw [if_pos hd]
      exact ⟨_, ch, o, _, rfl, h.of_text (sameText_recolor hs _), keeps_recolor hs (halive _), Function.update_self ..,
        hbytes, halive _⟩
    · rw [if_neg hd]
      exact ⟨_, ch, o, s, rfl, h.of_text (sameText_recolor hs s.color), keeps_recolor hs hd, Function.update_self ..,
        hbytes, hd⟩
  | none =>
    -- the bytes are new: a string with them would be in the list
    have hnew : ∀ o s', g.str o = some s' → s'.bytes ≠ str := by
      intro o s' ho hb
      have hsh : s'.isShort = true := by
        rw [Str.isShort, hb]
        simpa using hlong
      have hin : o ∈ ch (entry g.size (luaSHash str g.seed)) := by
        refine (h.mem hlt o).mpr ⟨⟨s', ho, hsh⟩, ?_⟩
        rw [Lua.entryOf_eq ho, h.hash ho hsh, hb]
      exact hnone rfl o hin s' ho hb
    have finish : ∀ {g₁ : Lua} {ch₁ : Nat → List Nat}, g₁.Stored ch₁ → Same g g₁ →
        ∃ g' ch' v s, (Except.ok ({ (g₁.alloc ⟨str, luaSHash str g.seed, g₁.hash (entry g₁.size (luaSHash str g.seed)),
            .white g₁.currentwhite⟩) with
              nuse := g₁.nuse + 1,
              hash := Function.update g₁.hash (entry g₁.size (luaSHash str g.seed)) (some g₁.count) }, g₁.count) :
            Except Stop (Lua × Nat)) = .ok (g', v) ∧ g'.Inv ch' ∧ Keeps g g' ∧ g'.str v = some s ∧ s.bytes = str ∧
          ¬g'.isDead s := by
      intro g₁ ch₁ hst hsame
      have hinv₁ : g₁.Inv ch₁ := ⟨hst, h.toUnique.of_same hsame, by rw [hsame.nuse, hsame.shorts_eq]; exact h.nuse⟩
      have hinv' := hinv₁.allocShort (s := ⟨str, luaSHash str g.seed, g₁.hash (entry g₁.size (luaSHash str g.seed)),
        .white g₁.currentwhite⟩) (by simpa [Str.isShort] using hlong) (by rw [hsame.seed]) rfl rfl
        fun o s' ho => by
          obtain ⟨s₀, ho₀, hbytes, -, -⟩ := hsame.exists_str ho
          rw [← hbytes]
          exact hnew o s₀ ho₀
      have hkeep := hsame.keeps.trans (keeps_alloc hinv₁.toUnique ⟨str, luaSHash str g.seed,
        g₁.hash (entry g₁.size (luaSHash str g.seed)), .white g₁.currentwhite⟩)
      exact ⟨_, _, _, _, rfl, hinv', ⟨hkeep.state, hkeep.currentwhite, hkeep.str⟩, Function.update_self .., rfl, halive _⟩
    dsimp only
    by_cases hfull : g.nuse ≥ g.size
    · rw [if_pos hfull]
      rcases Lua.resize_spec h.toStored h.toUnique (show g.size < g.size * 2 by have := h.pos; omega) with
        ⟨hmem, hlarge⟩ | ⟨g₁, ch₁, hok, hst, hsame, -⟩
      · rw [hmem]
        exact .inl ⟨rfl, Nat.le_of_not_lt hlong, hnew, hfull, hlarge⟩
      · rw [hok, Stop.ok_bind, Stop.ok_bind]
        exact .inr (finish hst hsame)
    · rw [if_neg hfull, Stop.ok_bind, Stop.ok_bind]
      exact .inr (finish h.toStored (.refl g))

/-! ## Programs -/

/-- A string that is there, and not dead while the collector sweeps. -/
def Lua.Living (g : Lua) (str : Bytes) (v : Nat) : Prop :=
  ∃ s, g.str v = some s ∧ s.bytes = str ∧ (g.state = .sweep → ¬g.isDead s)

theorem Keeps.living {g g' : Lua} (hk : Keeps g g') {str : Bytes} {v : Nat} (h : g.Living str v) : g'.Living str v := by
  obtain ⟨s, hs, hbytes, hdead⟩ := h
  obtain ⟨s', hs', hbytes', hdead'⟩ := hk.str hs
  refine ⟨s', hs', hbytes'.trans hbytes, fun hst => hdead' (hdead ?_)⟩
  rw [← hk.state]
  exact hst

/-- An action keeps the invariant, and only the end of a state of the collector lets a living string die. -/
theorem Lua.exec_spec (h : g.Inv ch) {a : Act} (ha : g.Allows a) :
    (g.exec a = .error .memory ∧ ∃ str, a = .newStr str ∧ g.NoRoom str) ∨
      ∃ g' ch' v, g.exec a = .ok (g', v) ∧ g'.Inv ch' ∧
      (a ≠ .next → ∀ str o, g.Living str o → g'.Living str o) ∧
      ∀ str, a = .newStr str → ∃ o, v = some o ∧ g'.Living str o := by
  cases a with
  | newStr str =>
    rw [Lua.exec]
    rcases Lua.newStr_spec h str with ⟨hmem, hroom⟩ | ⟨g', ch', v, s, hok, hinv, hkeep, hs, hbytes, hdead⟩
    · rw [hmem]
      exact .inl ⟨rfl, str, rfl, hroom⟩
    · rw [hok, Stop.ok_bind]
      refine .inr ⟨g', ch', _, rfl, hinv, fun _ str' o hl => hkeep.living hl, fun str' heq => ⟨v, rfl, s, hs, ?_, ?_⟩⟩
      · rw [hbytes, Act.newStr.inj heq]
      · exact fun _ => hdead
  | mark o =>
    obtain ⟨s, hs⟩ := Option.isSome_iff_exists.mp ha.1
    have hmarked : Color.marked ≠ .white !g.currentwhite := fun heq => nomatch heq
    rw [Lua.exec, Lua.modify_eq hs, Stop.ok_bind]
    exact .inr ⟨_, ch, none, rfl, h.of_text (sameText_recolor hs _),
      fun _ str' o' hl => (keeps_recolor hs hmarked).living hl, fun str' heq => nomatch heq⟩
  | sweep o =>
    obtain ⟨hsome, hst⟩ := ha
    obtain ⟨s, hs⟩ := Option.isSome_iff_exists.mp hsome
    rw [Lua.exec, Lua.load_eq hs, Stop.ok_bind]
    by_cases hd : g.isDead s
    · obtain ⟨g', ch', hok, hinv, hst', hcw, hkeep⟩ := Lua.free_spec h hsome
      rw [if_pos hd, hok, Stop.ok_bind]
      refine .inr ⟨g', ch', none, rfl, hinv, fun _ str' q hl => ?_, fun str' heq => nomatch heq⟩
      obtain ⟨s₁, hs₁, hbytes, hdead⟩ := hl
      have hqo : q ≠ o := by
        rintro rfl
        rw [hs] at hs₁
        exact hdead hst (Option.some.inj hs₁ ▸ hd)
      obtain ⟨s₂, hs₂, hbytes₂, hcolor⟩ := hkeep q s₁ hqo hs₁
      refine ⟨s₂, hs₂, hbytes₂.trans hbytes, fun _ => ?_⟩
      rw [Lua.isDead, hcolor, hcw]
      exact hdead hst
    · rw [if_neg hd, Lua.modify_eq hs, Stop.ok_bind]
      have hwhite : ∀ w : Bool, Color.white w ≠ .white !w := by decide
      exact .inr ⟨_, ch, none, rfl, h.of_text (sameText_recolor hs _),
        fun _ str' o' hl => (keeps_recolor hs (hwhite _)).living hl, fun str' heq => nomatch heq⟩
  | next =>
    have htext : ∀ {st : State} {w : Bool}, Lua.Inv { g with state := st, currentwhite := w } ch :=
      h.of_text ⟨rfl, rfl, rfl, rfl, rfl, fun _ => rfl⟩
    refine .inr ?_
    unfold Lua.exec
    cases g.state <;>
      exact ⟨_, ch, none, rfl, htext, fun hne => absurd rfl hne, fun str' heq => nomatch heq⟩

theorem Lua.new_inv (seed : UInt32) : (new seed).Inv fun _ => [] := by
  have hno : ∀ o, ¬(new seed).Short o := by
    rintro o ⟨s, hs, -⟩
    cases hs
  refine ⟨⟨Nat.zero_lt_succ 127, ⟨fun _ => rfl, fun _ => List.nodup_nil, fun _ _ ho => absurd ho List.not_mem_nil⟩, ?_⟩,
    ⟨(fun ho => nomatch ho), (fun ho => nomatch ho), fun ho => nomatch ho⟩, rfl⟩
  exact fun _ o => iff_of_false List.not_mem_nil fun ho => hno o ho.1

theorem Lua.Reached.inv {g : Lua} (hg : g.Reached) : ∃ ch, g.Inv ch := by
  induction hg with
  | new seed => exact ⟨_, Lua.new_inv seed⟩
  | exec _ ha hexec ih =>
    obtain ⟨ch, hinv⟩ := ih
    rcases Lua.exec_spec hinv ha with ⟨hmem, -⟩ | ⟨g', ch', v, hok, hinv', -, -⟩
    · rw [hexec] at hmem
      cases hmem
    · rw [hexec] at hok
      rw [(Prod.mk.inj (Except.ok.inj hok)).1]
      exact ⟨ch', hinv'⟩

/-- What is living stays so until the collector goes to its next state. -/
theorem Lua.Within.living {g g' : Lua} (hw : g.Within g') (h : g.Inv ch) {str : Bytes} {v : Nat} (hl : g.Living str v) :
    (∃ ch', g'.Inv ch') ∧ g'.Living str v := by
  induction hw with
  | refl => exact ⟨⟨ch, h⟩, hl⟩
  | exec _ hne ha hexec ih =>
    obtain ⟨⟨ch₁, hinv₁⟩, hl₁⟩ := ih
    rcases Lua.exec_spec hinv₁ ha with ⟨hmem, -⟩ | ⟨g₂, ch₂, v₂, hok, hinv₂, hlives, -⟩
    · rw [hexec] at hmem
      cases hmem
    · rw [hexec] at hok
      rw [(Prod.mk.inj (Except.ok.inj hok)).1]
      exact ⟨⟨ch₂, hinv₂⟩, hlives hne str v hl₁⟩

/-- Short strings are interned in every state that is reached: each is in the list of its entry and in no other, they
are counted, and are the same where their bytes are. Whatever comes next finds the strings it looks for, unless the
full table is too large to be doubled for a new one, and a string that is found or created is there until the collector
goes to its next state. -/
theorem strings_interned {g : Lua} (hg : g.Reached) :
    (∃ ch, g.Stored ch) ∧ g.nuse = g.shorts.card ∧
      (∀ o o' s s', g.str o = some s → g.str o' = some s' → s.isShort = true → s'.isShort = true →
        (o = o' ↔ s.bytes = s'.bytes)) ∧
      ∀ a, g.Allows a → (g.exec a = .error .memory ∧ ∃ str, a = .newStr str ∧ g.NoRoom str) ∨
        ∃ g' v, g.exec a = .ok (g', v) ∧
          ∀ str, a = .newStr str → ∃ o, v = some o ∧ ∀ g'', g'.Within g'' → g''.Living str o := by
  obtain ⟨ch, hinv⟩ := hg.inv
  refine ⟨⟨ch, hinv.toStored⟩, hinv.nuse, fun o o' s s' ho ho' hsh _ => ?_, fun a ha => ?_⟩
  · constructor
    · rintro rfl
      rw [ho] at ho'
      rw [Option.some.inj ho']
    · exact hinv.inj ho ho' hsh
  · rcases Lua.exec_spec hinv ha with hmem | ⟨g', ch', v, hok, hinv', -, hnew⟩
    · exact .inl hmem
    · refine .inr ⟨g', v, hok, fun str heq => ?_⟩
      obtain ⟨o, hv, hl⟩ := hnew str heq
      exact ⟨o, hv, fun g'' hw => (hw.living hinv' hl).2⟩

/-- A dead string that is looked up while the collector sweeps is the string that is created next with its bytes, and
is not freed. -/
theorem strings_interned_resurrected : ∃ g : Lua, g.state = .sweep ∧ (∃ s, g.str 0 = some s ∧ g.isDead s) ∧
    ∃ g', g.exec (.newStr [104, 105]) = .ok (g', some 0) ∧ ∀ g'', g'.Within g'' → g''.Living [104, 105] 0 := by
  have h₁ := (Lua.Reached.new 0).exec (a := .newStr [104, 105]) trivial rfl
  have h₂ := h₁.exec (a := .next) trivial rfl
  have h₃ := h₂.exec (a := .next) trivial rfl
  have h₄ := h₃.exec (a := .next) trivial rfl
  obtain ⟨-, -, -, hexec⟩ := strings_interned h₄
  rcases hexec (.newStr [104, 105]) trivial with ⟨hmem, -⟩ | ⟨g', v, hok, hnew⟩
  · cases hmem
  · obtain ⟨o, hv, hlives⟩ := hnew _ rfl
    have hfound : v = some 0 := (Prod.mk.inj (Except.ok.inj hok)).2.symm
    rw [hfound] at hok hv
    obtain rfl := Option.some.inj hv
    exact ⟨_, rfl, ⟨_, rfl, by decide⟩, g', hok, hlives⟩

end Tsuki.Strings
