import Tsuki.Table.HashPart

/-!
# Insertion into the hash part

The three ways `luaH_newkey` finds a node for a new key, and what they do to the cells and links: the key takes its
main position, or a free node behind it, or the node in its main position moves to a free one.
-/

namespace Tsuki.Table

open Lib.Chains

variable {V : Type} {hs : Hashes}

/-- Nodes that are not free. -/
def HashPart.used (h : HashPart V) : Nat := Table.used (cell h.node) h.node.length

/-! ## Free positions -/

theorem freeposLoop_spec (node : List (Node V)) : ∀ n, n ≤ node.length →
    (freeposLoop node n = (0, none) ∧ ∀ i, i < n → (cell node i).1 ≠ .free) ∨
      ∃ f, freeposLoop node n = (f, some f) ∧ f < n ∧ (cell node f).1 = .free ∧
        ∀ i, f < i → i < n → (cell node i).1 ≠ .free := by
  intro n
  induction n with
  | zero =>
    intro _
    exact .inl ⟨rfl, fun i hi => absurd hi (Nat.not_lt_zero i)⟩
  | succ n ih =>
    intro hn
    obtain ⟨nd, hnd⟩ := exists_get (show n < node.length by omega)
    have hcell := cell_of_get hnd
    rw [freeposLoop, hnd, Option.map_some]
    by_cases hfree : nd.key = .free
    · rw [if_pos (congrArg some hfree)]
      exact .inr ⟨n, rfl, Nat.lt_succ_self n, by rw [hcell, hfree], fun i h1 h2 => by omega⟩
    · rw [if_neg fun h => hfree (Option.some.inj h)]
      have hn' : (cell node n).1 ≠ .free := by rwa [hcell]
      rcases ih (by omega) with ⟨heq, hall⟩ | ⟨f, heq, hlt, hf, hall⟩
      · refine .inl ⟨heq, fun i hi => ?_⟩
        rcases Nat.lt_succ_iff_lt_or_eq.mp hi with h | rfl
        exacts [hall i h, hn']
      · refine .inr ⟨f, heq, by omega, hf, fun i h1 hi => ?_⟩
        rcases Nat.lt_succ_iff_lt_or_eq.mp hi with h | rfl
        exacts [hall i h1 h, hn']

/-- `getfreepos` finds the last free node, or the part is full. -/
theorem getfreepos_spec {h : HashPart V} (hinv : h.Inv hs) :
    (∃ lf, getfreepos h = ({ h with lastfree := lf }, none) ∧ ({ h with lastfree := lf } : HashPart V).Inv hs ∧
      h.capacity ≤ h.used) ∨
    ∃ f, getfreepos h = ({ h with lastfree := some f }, some f) ∧ f < h.node.length ∧
      (cell h.node f).1 = .free ∧ (∀ i, f < i → i < h.node.length → (cell h.node i).1 ≠ .free) ∧
      h.lastfree.isSome := by
  cases hlf : h.lastfree with
  | none =>
    have heq : getfreepos h = (h, none) := by rw [getfreepos, hlf]
    exact .inl ⟨h.lastfree, heq, hinv, by simp [HashPart.capacity, hlf]⟩
  | some lf =>
    obtain ⟨hle, htaken⟩ := hinv.taken hlf
    rcases freeposLoop_spec h.node lf hle with ⟨heq, hall⟩ | ⟨f, heq, hlt, hf, hall⟩
    · have hfull : ∀ i, i < h.node.length → (cell h.node i).1 ≠ .free := by
        intro i hi
        by_cases hlt : i < lf
        · exact hall i hlt
        · exact htaken (by omega) hi
      refine .inl ⟨some 0, ?_, ⟨hinv.length_eq, hinv.ranged, hinv.scatter, hinv.content, (by simp), ?_,
        hinv.first, hinv.small⟩, ?_⟩
      · rw [getfreepos, hlf]
        dsimp only
        rw [heq]
      · intro lf' hlf'
        rw [← Option.some.inj hlf']
        exact ⟨Nat.zero_le _, fun {i} _ hi => hfull i hi⟩
      · rw [HashPart.used, used_eq_of_full hfull, HashPart.capacity]
        split <;> omega
    · refine .inr ⟨f, ?_, by omega, hf, fun i h1 hi => ?_, rfl⟩
      · rw [getfreepos, hlf]
        dsimp only
        rw [heq]
      · by_cases hlt : i < lf
        · exact hall i h1 hlt
        · exact htaken (by omega) hi

/-! ## Changing nodes -/

theorem IsRanged.set {node : List (Node V)} (h : IsRanged node) {j : Nat} {nd : Node V}
    (hnd : nd.next ≠ 0 → 0 ≤ (j : Int) + nd.next ∧ j + nd.next < node.length) : IsRanged (node.set j nd) := by
  intro i nd' hi hne
  rw [List.length_set]
  rw [List.getElem?_set] at hi
  split_ifs at hi with hij hlt
  · rw [← Option.some.inj hi] at hne ⊢
    rw [← hij]
    exact hnd hne
  · exact h i nd' hi hne

/-- What a change of the nodes did: the cells are `c` and the links `l` now. -/
structure Changed (node node' : List (Node V)) (c : Nat → Cell V) (l : Nat → Option Nat) : Prop where
  length_eq : node'.length = node.length
  ranged : IsRanged node'
  cell_eq : cell node' = c
  succ_eq : succ node' = l

theorem writeNode_spec {node : List (Node V)} (hr : IsRanged node) {i : Nat} (hi : i < node.length) (k : Key) (v : V) :
    ∃ node', writeNode node i k v = .ok node' ∧
      Changed node node' (Function.update (cell node) i (.live k, some v)) (succ node) := by
  obtain ⟨nd, hnd⟩ := exists_get hi
  rw [writeNode, idx_of_get hnd, Rust.ok_bind]
  refine ⟨_, rfl, List.length_set, hr.set (hr i nd hnd), cell_set hi _, ?_⟩
  rw [succ_set hi]
  dsimp only
  rw [← succ_of_get hnd, Function.update_eq_self]

theorem linkFree_spec {node : List (Node V)} (hr : IsRanged node) {mp f : Nat} (hmp : mp < node.length)
    (hf : f < node.length) (hne : mp ≠ f) (hloose : IsLoose (succ node) f) :
    ∃ node', linkFree node mp f = .ok node' ∧ Changed node node' (cell node) (insertAfter (succ node) mp f) := by
  obtain ⟨m, hm⟩ := exists_get hmp
  obtain ⟨fd, hfd⟩ := exists_get hf
  have hsm := succ_of_get hm
  have hsf := succ_of_get hfd
  have hfnext : fd.next = 0 := by
    rw [hloose.succ_eq] at hsf
    by_contra h
    rw [if_neg h] at hsf
    cases hsf
  have hnext : (if m.next ≠ 0 then (mp + m.next) - (f : Int) else fd.next) ≠ 0 → m.next ≠ 0 := by
    intro h h0
    rw [if_neg (not_not.mpr h0)] at h
    exact h hfnext
  have hrm := hr mp m hm
  rw [linkFree, idx_of_get hm, Rust.ok_bind, idx_of_get hfd, Rust.ok_bind]
  refine ⟨_, rfl, by rw [List.length_set, List.length_set], ?_, ?_, ?_⟩
  · refine (hr.set fun h => ?_).set fun _ => ?_
    · have := hrm (hnext h)
      dsimp only
      rw [if_pos (hnext h)]
      omega
    · rw [List.length_set]
      dsimp only
      omega
  · rw [cell_set (by rwa [List.length_set]), cell_set hf]
    dsimp only
    rw [← cell_of_get hfd, Function.update_eq_self, ← cell_of_get hm, Function.update_eq_self]
  · rw [succ_set (by rwa [List.length_set]), succ_set hf]
    dsimp only
    funext x
    rw [insertAfter]
    by_cases hx : x = mp
    · rw [hx, Function.update_self, if_pos rfl, if_neg (by omega)]
      congr 1
      omega
    rw [Function.update_of_ne hx, if_neg hx]
    by_cases hxf : x = f
    · rw [hxf, Function.update_self, if_pos rfl, hsm]
      by_cases h0 : m.next = 0
      · rw [if_neg (not_not.mpr h0), if_pos hfnext, if_pos h0]
      · have hnf : (mp + m.next : Int).toNat ≠ f := by
          intro h
          rw [if_neg h0, h] at hsm
          exact hloose.no_pred mp hsm
        have := hrm h0
        rw [if_pos h0, if_neg (by omega), if_neg h0]
        congr 1
        omega
    · rw [Function.update_of_ne hxf, if_neg hxf]

theorem moveColliding_spec {h : HashPart V} (hinv : h.Inv hs) {mp f othern : Nat} (hmp : mp < h.node.length)
    (hf : f < h.node.length) (hne : mp ≠ f) (hloose : IsLoose (succ h.node) f) (ho : othern < h.node.length)
    (hreach : Reach (succ h.node) othern mp) (homp : othern ≠ mp) :
    ∃ node', moveColliding h.node mp f othern = .ok node' ∧
      Changed h.node node' (Function.update (Function.update (cell h.node) f (cell h.node mp)) mp
        ((cell h.node mp).1, none)) (relocate (succ h.node) mp f) := by
  obtain ⟨prev, hprev, hsp⟩ := findPrevious_spec hinv ho hreach homp
  have hforest := hinv.scatter.forest
  have hpm : prev ≠ mp := hforest.ne_of_succ hsp
  have hpf : prev ≠ f := by
    rintro rfl
    rw [hloose.succ_eq] at hsp
    cases hsp
  have hplt : prev < h.node.length := by
    by_contra hge
    rw [succ, List.getElem?_eq_none (by omega)] at hsp
    cases hsp
  obtain ⟨p, hp⟩ := exists_get hplt
  obtain ⟨m, hm⟩ := exists_get hmp
  have hsm := succ_of_get hm
  have hrm := hinv.ranged mp m hm
  have hnext : (if m.next ≠ 0 then m.next + ((mp : Int) - f) else m.next) ≠ 0 → m.next ≠ 0 := by
    intro hn h0
    rw [if_neg (not_not.mpr h0)] at hn
    exact hn h0
  have hm' : (h.node.set prev { p with next := (f : Int) - prev })[mp]? = some m := by
    rw [List.getElem?_set_ne hpm, hm]
  rw [moveColliding, hprev, Rust.ok_bind, idx_of_get hp, Rust.ok_bind]
  dsimp only
  rw [idx_of_get hm', Rust.ok_bind]
  refine ⟨_, rfl, by rw [List.length_set, List.length_set, List.length_set], ?_, ?_, ?_⟩
  · refine ((hinv.ranged.set fun _ => ?_).set fun hn => ?_).set fun hn => ?_
    · dsimp only
      omega
    · have := hrm (hnext hn)
      rw [List.length_set]
      dsimp only
      rw [if_pos (hnext hn)]
      omega
    · exact absurd rfl hn
  · rw [cell_set (by rwa [List.length_set, List.length_set]), cell_set (by rwa [List.length_set]), cell_set hplt]
    dsimp only
    rw [← cell_of_get hp, Function.update_eq_self, cell_of_get hm]
  · rw [succ_set (by rwa [List.length_set, List.length_set]), succ_set (by rwa [List.length_set]), succ_set hplt]
    dsimp only
    funext x
    rw [relocate]
    by_cases hx : x = mp
    · rw [hx, Function.update_self, if_pos rfl, if_pos rfl]
    rw [Function.update_of_ne hx, if_neg hx]
    by_cases hxf : x = f
    · rw [hxf, Function.update_self, if_pos rfl, hsm]
      by_cases h0 : m.next = 0
      · rw [if_neg (not_not.mpr h0), if_pos h0, if_pos h0]
      · have hnf : (mp + m.next : Int).toNat ≠ f := by
          intro h
          rw [if_neg h0, h] at hsm
          exact hloose.no_pred mp hsm
        have := hrm h0
        rw [if_pos h0, if_neg (by omega), if_neg h0]
        congr 1
        omega
    rw [Function.update_of_ne hxf, if_neg hxf]
    by_cases hxp : x = prev
    · rw [hxp, Function.update_self, if_neg (by omega), if_pos hsp]
      congr 1
      omega
    · rw [Function.update_of_ne hxp, if_neg (fun hs => hxp (hforest.inj hs hsp))]

/-! ## One more pair -/

/-- `h'` is `h` with the pair in addition. -/
structure Placed (hs : Hashes) (h h' : HashPart V) (k : Key) (v : V) : Prop where
  inv : h'.Inv hs
  capacity_eq : h'.capacity = h.capacity
  used_le : h'.used ≤ h.used + 1
  hasKey : ∀ {k'}, HasKey (cell h'.node) k' → k' = k ∨ HasKey (cell h.node) k'
  holds : ∀ {k' v'}, CellHolds (cell h'.node) k' v' ↔ (k' = k ∧ v' = v) ∨ CellHolds (cell h.node) k' v'

/-- All three cases: what the new cells and links have to keep to. -/
theorem placed_of_changed {h : HashPart V} (hinv : h.Inv hs) {k : Key} {v : V} {lf : Nat} {node : List (Node V)}
    {c : Nat → Cell V} {l : Nat → Option Nat} (hlf : h.lastfree.isSome) (hnode : Changed h.node node c l)
    (hscatter : IsScatter (mainpositionTV hs h.lsizenode) (keyAt c) l) (hcontent : IsContent c) (hfirst : IsFirst c l)
    (hle : lf ≤ h.node.length) (htaken : ∀ {i}, lf ≤ i → i < h.node.length → (c i).1 ≠ .free) (j : Nat)
    (hused : ∀ i, i ≠ j → (c i).1 ≠ .free → (cell h.node i).1 ≠ .free)
    (hkey : ∀ {k'}, HasKey c k' → k' = k ∨ HasKey (cell h.node) k')
    (hholds : ∀ {k' v'}, CellHolds c k' v' ↔ (k' = k ∧ v' = v) ∨ CellHolds (cell h.node) k' v') :
    Placed hs h { h with lastfree := some lf, node := node } k v := by
  obtain ⟨hlen, hranged, rfl, rfl⟩ := hnode
  refine ⟨⟨by rw [hlen, hinv.length_eq], hranged, hscatter, hcontent, (fun h => nomatch h), ?_, hfirst, hinv.small⟩, ?_,
    ?_, hkey, hholds⟩
  · intro f hf
    dsimp only
    rw [← Option.some.inj hf, hlen]
    exact ⟨hle, htaken⟩
  · simp only [HashPart.capacity, hlf, hlen, Option.isSome_some]
  · simp only [HashPart.used, hlen]
    exact used_le_succ hused

section

variable {h : HashPart V} (hinv : h.Inv hs) {k : Key} {v : V} (hk : Normal k) (habs : ¬HasKey (cell h.node) k)
  {mp : Nat} (hmp : mainpositionTV hs h.lsizenode k = mp) {node : List (Node V)}
include hinv hk habs hmp

theorem placed_overwrite {lf : Nat} (hlf : h.lastfree = some lf) (hval : (cell h.node mp).2 = none)
    (hnode : Changed h.node node (Function.update (cell h.node) mp (.live k, some v)) (succ h.node)) :
    Placed hs h { h with node := node } k v := by
  obtain ⟨hle, hall⟩ := hinv.taken hlf
  have hscatter := hinv.scatter.overwrite k
  rw [hmp, show some k = NodeKey.key? (NodeKey.live k, some v).1 from rfl, ← keyAt_update] at hscatter
  have hplaced := placed_of_changed (k := k) (v := v) hinv (by rw [hlf]; rfl) hnode hscatter
    (hinv.content.put hk habs) ?_ hle ?_ mp ?_ hasKey_put (holds_put hval)
  · rwa [← hlf] at hplaced
  · intro b a k' ha hb
    by_cases hbm : b = mp
    · rw [hbm, Function.update_self] at hb
      cases hb
    rw [Function.update_of_ne hbm] at hb
    by_cases ham : a = mp
    · rw [ham, Function.update_self] at ha
      have hreach := hinv.scatter.reach (keyAt_of_dead hb)
      rwa [← NodeKey.live.inj ha, hmp, ← ham] at hreach
    · rw [Function.update_of_ne ham] at ha
      exact hinv.first ha hb
  · intro i h1 h2
    by_cases hi : i = mp
    · rw [hi, Function.update_self]
      simp
    · rw [Function.update_of_ne hi]
      exact hall h1 h2
  · intro i hi
    rw [Function.update_of_ne hi]
    exact id

variable {f : Nat} (hlf : h.lastfree.isSome) (hf : f < h.node.length) (hfree : (cell h.node f).1 = .free)
  (hafter : ∀ i, f < i → i < h.node.length → (cell h.node i).1 ≠ .free) {k₁ : Key}
  (hk₁ : (cell h.node mp).1 = .live k₁)
include hlf hf hfree hafter hk₁

/-- The free node takes the pair, behind the main position. -/
theorem placed_link (hhome : mainpositionTV hs h.lsizenode k₁ = mp)
    (hnode : Changed h.node node (Function.update (cell h.node) f (.live k, some v)) (insertAfter (succ h.node) mp f)) :
    Placed hs h { h with lastfree := some f, node := node } k v := by
  have hval : (cell h.node f).2 = none := hinv.content.empty fun k' hk' => by simp [hfree] at hk'
  have hscatter := hinv.scatter.link (keyAt_eq_none.mpr hfree) (k := k)
    (by rw [hmp]; exact keyAt_of_live hk₁) (by rw [hmp, hhome])
  rw [hmp, show some k = NodeKey.key? (NodeKey.live k, some v).1 from rfl, ← keyAt_update] at hscatter
  have hne : mp ≠ f := by
    rintro rfl
    rw [hfree] at hk₁
    cases hk₁
  have hloose := hinv.scatter.loose (keyAt_eq_none.mpr hfree)
  refine placed_of_changed hinv hlf hnode hscatter (hinv.content.put hk habs) ?_ hf.le ?_ f ?_ hasKey_put
    (holds_put hval)
  · intro b a k' ha hb
    by_cases hbf : b = f
    · rw [hbf, Function.update_self] at hb
      cases hb
    rw [Function.update_of_ne hbf] at hb
    by_cases haf : a = f
    · rw [haf, Function.update_self] at ha
      have hreach := hinv.scatter.reach (keyAt_of_dead hb)
      rw [← NodeKey.live.inj ha, hmp] at hreach
      rw [haf]
      refine reach_insertAfter hne hloose hreach ?_
      rintro rfl
      rw [hk₁] at hb
      cases hb
    · rw [Function.update_of_ne haf] at ha
      exact (hinv.first ha hb).insertAfter hne hloose
  · intro i h1 h2
    by_cases hi : i = f
    · rw [hi, Function.update_self]
      simp
    · rw [Function.update_of_ne hi]
      exact hafter i (by omega) h2
  · intro i hi
    rw [Function.update_of_ne hi]
    exact id

/-- The key in the main position moves to the free node. -/
theorem placed_move (hhome : mainpositionTV hs h.lsizenode k₁ ≠ mp)
    (hnode : Changed h.node node
      (Function.update (Function.update (cell h.node) f (cell h.node mp)) mp (.live k, some v))
      (relocate (succ h.node) mp f)) :
    Placed hs h { h with lastfree := some f, node := node } k v := by
  have hne : mp ≠ f := by
    rintro rfl
    rw [hfree] at hk₁
    cases hk₁
  have hmoved : Function.update (Function.update (cell h.node) f (cell h.node mp)) mp (.live k, some v) =
      Function.update (moved (cell h.node) mp f) mp (.live k, some v) := by
    rw [moved, Function.update_idem]
  have hscatter := hinv.scatter.move (keyAt_eq_none.mpr hfree) (k := k)
    (by rw [hmp]; exact keyAt_of_live hk₁) (by rwa [hmp])
  have hkeys : keyAt (Function.update (Function.update (cell h.node) f (cell h.node mp)) mp (.live k, some v)) =
      Function.update (Function.update (keyAt (cell h.node)) f (some k₁)) mp (some k) := by
    rw [keyAt_update, keyAt_update, hk₁]
    rfl
  rw [hmp, ← hkeys] at hscatter
  have hloose := hinv.scatter.loose (keyAt_eq_none.mpr hfree)
  refine placed_of_changed hinv hlf hnode hscatter ?_ ?_ hf.le ?_ f ?_ ?_ ?_
  · rw [hmoved]
    exact hinv.content.moved.put hk fun hhas => habs (hasKey_moved hhas)
  · intro b a k' ha hb
    by_cases hbm : b = mp
    · rw [hbm, Function.update_self] at hb
      cases hb
    rw [Function.update_of_ne hbm] at hb
    have hbf : b ≠ f := by
      rintro rfl
      rw [Function.update_self, hk₁] at hb
      cases hb
    rw [Function.update_of_ne hbf] at hb
    by_cases ham : a = mp
    · rw [ham, Function.update_self] at ha
      -- no key has the main position as its own yet
      obtain ⟨k₂, hk₂, hhome₂⟩ := hinv.scatter.owner (keyAt_of_dead hb)
      rw [← NodeKey.live.inj ha, hmp, keyAt_of_live hk₁] at hk₂
      rw [← Option.some.inj hk₂, ← NodeKey.live.inj ha, hmp] at hhome₂
      exact absurd hhome₂ hhome
    rw [Function.update_of_ne ham] at ha
    by_cases haf : a = f
    · rw [haf, Function.update_self] at ha
      rw [haf]
      exact reach_relocate hloose hne hinv.scatter.forest (Ne.symm hbm) (hinv.first ha hb)
    · rw [Function.update_of_ne haf] at ha
      have hreach := (hinv.first ha hb).relocate hloose hne hinv.scatter.forest ham
      rwa [if_neg hbm] at hreach
  · intro i h1 h2
    by_cases hi : i = mp
    · rw [hi, Function.update_self]
      simp
    rw [Function.update_of_ne hi]
    by_cases hif : i = f
    · rw [hif, Function.update_self, hk₁]
      simp
    · rw [Function.update_of_ne hif]
      exact hafter i (by omega) h2
  · intro i hi
    by_cases him : i = mp
    · intro _
      rw [him, hk₁]
      simp
    · rw [Function.update_of_ne him, Function.update_of_ne hi]
      exact id
  · rw [hmoved]
    intro k' hk'
    exact (hasKey_put hk').imp_right hasKey_moved
  · rw [hmoved]
    intro k' v'
    rw [holds_put (by rw [moved, Function.update_self]), holds_moved hne hfree]

end

/-- `insertNode` adds the pair, or the part has no room for it and stays as it is. -/
theorem insertNode_spec {h : HashPart V} (hinv : h.Inv hs) {k : Key} (hk : Normal k) (habs : ¬HasKey (cell h.node) k)
    (v : V) :
    (∃ lf, insertNode hs h k v = .ok ({ h with lastfree := lf }, false) ∧
      ({ h with lastfree := lf } : HashPart V).Inv hs ∧ h.capacity ≤ h.used) ∨
    ∃ h', insertNode hs h k v = .ok (h', true) ∧ Placed hs h h' k v := by
  have hmplt : mainpositionTV hs h.lsizenode k < h.node.length := by
    rw [hinv.length_eq]
    exact mainpositionTV_lt hs _ _
  generalize hmp : mainpositionTV hs h.lsizenode k = mp at hmplt
  obtain ⟨m, hm⟩ := exists_get hmplt
  have hcell := cell_of_get hm
  rw [insertNode, hmp, idx_of_get hm, Rust.ok_bind]
  by_cases hbusy : m.val.isSome ∨ h.lastfree = none
  · rw [if_pos hbusy]
    rcases getfreepos_spec hinv with ⟨lf, heq, hinv', hfull⟩ | ⟨f, heq, hf, hfree, hafter, hlf⟩
    · rw [heq]
      exact .inl ⟨lf, rfl, hinv', hfull⟩
    · rw [heq]
      dsimp only
      have hval : m.val.isSome := by
        rcases hbusy with hbusy | hbusy
        · exact hbusy
        · rw [hbusy] at hlf
          cases hlf
      obtain ⟨k₁, hk₁⟩ : ∃ k₁, m.key = .live k₁ := by
        by_contra hdead
        have hnone := hinv.content.empty (i := mp) fun k₁ hk₁ => hdead ⟨k₁, by rwa [hcell] at hk₁⟩
        rw [hcell] at hnone
        rw [show m.val = none from hnone] at hval
        cases hval
      have hlive : (cell h.node mp).1 = .live k₁ := by rw [hcell, hk₁]
      have hne : mp ≠ f := by
        rintro rfl
        rw [hfree] at hlive
        cases hlive
      have hloose := hinv.scatter.loose (keyAt_eq_none.mpr hfree)
      rw [mainpositionfromnode, hk₁]
      dsimp only
      rw [Rust.ok_bind]
      by_cases hhome : mainpositionTV hs h.lsizenode k₁ = mp
      · rw [if_neg (not_not.mpr hhome)]
        obtain ⟨node₁, heq₁, hnode₁⟩ := linkFree_spec hinv.ranged hmplt hf hne hloose
        obtain ⟨node₂, heq₂, hnode₂⟩ := writeNode_spec hnode₁.ranged (by rw [hnode₁.length_eq]; exact hf) k v
        rw [heq₁, Rust.ok_bind, heq₂, Rust.ok_bind]
        refine .inr ⟨_, rfl, placed_link hinv hk habs hmp hlf hf hfree hafter hlive hhome ?_⟩
        rw [hnode₁.cell_eq, hnode₁.succ_eq] at hnode₂
        exact ⟨hnode₂.length_eq.trans hnode₁.length_eq, hnode₂.ranged, hnode₂.cell_eq, hnode₂.succ_eq⟩
      · rw [if_pos hhome]
        have ho : mainpositionTV hs h.lsizenode k₁ < h.node.length := by
          rw [hinv.length_eq]
          exact mainpositionTV_lt hs _ _
        obtain ⟨node₁, heq₁, hnode₁⟩ := moveColliding_spec hinv hmplt hf hne hloose ho
          (hinv.scatter.reach (keyAt_of_live hlive)) hhome
        obtain ⟨node₂, heq₂, hnode₂⟩ := writeNode_spec hnode₁.ranged (by rw [hnode₁.length_eq]; exact hmplt) k v
        rw [heq₁, Rust.ok_bind, heq₂, Rust.ok_bind]
        refine .inr ⟨_, rfl, placed_move hinv hk habs hmp hlf hf hfree hafter hlive hhome ?_⟩
        rw [hnode₁.cell_eq, hnode₁.succ_eq, Function.update_idem] at hnode₂
        exact ⟨hnode₂.length_eq.trans hnode₁.length_eq, hnode₂.ranged, hnode₂.cell_eq, hnode₂.succ_eq⟩
  · rw [if_neg hbusy]
    obtain ⟨node, heq, hnode⟩ := writeNode_spec hinv.ranged hmplt k v
    obtain ⟨hval, hlf⟩ := not_or.mp hbusy
    obtain ⟨lf, hlf⟩ := Option.ne_none_iff_exists'.mp hlf
    rw [heq, Rust.ok_bind]
    refine .inr ⟨_, rfl, placed_overwrite hinv hk habs hmp hlf ?_ hnode⟩
    rw [hcell]
    exact Option.not_isSome_iff_eq_none.mp hval

end Tsuki.Table
