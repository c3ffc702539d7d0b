import Tsuki.Lib.BackLinks

/-!
# Buckets of linked objects

The lists of a hash table with separate chaining: each bucket is the head of a list, each object has the cell that
points to the next one. An object is put in front of a bucket, taken out of one, and whole lists are spread over new
buckets.
-/

namespace Tsuki.Lib.Buckets

open BackLinks (Cell)

variable {O : Type}

/-- The list that starts in the cell. -/
def Path (next : Cell Nat O → Option O) : Cell Nat O → List O → Prop
  | c, [] => next c = none
  | c, o :: l => next c = some o ∧ Path next (.link o) l

/-- The first `n` buckets have the lists `ch`, which have no object twice. -/
structure Filled (next : Cell Nat O → Option O) (n : Nat) (ch : Nat → List O) : Prop where
  path : ∀ {i}, i < n → Path next (.head i) (ch i)
  nodup : ∀ {i}, i < n → (ch i).Nodup
  disjoint : ∀ {i j o}, i < n → j < n → o ∈ ch i → o ∈ ch j → i = j

variable {next : Cell Nat O → Option O} {n : Nat} {ch : Nat → List O}

theorem Path.head {c : Cell Nat O} {l : List O} (h : Path next c l) : next c = l.head? := by
  cases l with
  | nil => exact h
  | cons o l => exact h.1

/-- A list is not changed by writes elsewhere. -/
theorem Path.frame {next' : Cell Nat O → Option O} {l : List O} : ∀ {c : Cell Nat O}, Path next c l →
    next' c = next c → (∀ o ∈ l, next' (.link o) = next (.link o)) → Path next' c l := by
  induction l with
  | nil => exact fun h hc _ => hc.trans h
  | cons o l ih =>
    intro c h hc hl
    exact ⟨hc.trans h.1, ih h.2 (hl o List.mem_cons_self) fun o' ho' => hl o' (List.mem_cons_of_mem o ho')⟩

theorem Filled.frame {next' : Cell Nat O → Option O} (h : Filled next n ch)
    (hhead : ∀ i < n, next' (.head i) = next (.head i))
    (hlink : ∀ i < n, ∀ o ∈ ch i, next' (.link o) = next (.link o)) : Filled next' n ch :=
  ⟨fun hi => (h.path hi).frame (hhead _ hi) (hlink _ hi), h.nodup, h.disjoint⟩

/-- The list whose first object has been read already. -/
def Rest (next : Cell Nat O → Option O) : List O → Prop
  | [] => True
  | o :: l => Path next (.link o) l

theorem Path.rest {c : Cell Nat O} {l : List O} (h : Path next c l) : Rest next l := by
  cases l with
  | nil => trivial
  | cons o l => exact h.2

theorem Rest.frame {next' : Cell Nat O → Option O} {l : List O} (h : Rest next l)
    (hl : ∀ o ∈ l, next' (.link o) = next (.link o)) : Rest next' l := by
  cases l with
  | nil => trivial
  | cons o l => exact Path.frame h (hl o List.mem_cons_self) fun q hq => hl q (List.mem_cons_of_mem o hq)

/-- A bucket that is made empty. -/
theorem Filled.clear [DecidableEq O] (h : Filled next n ch) {i : Nat} :
    Filled (Function.update next (.head i) none) n (Function.update ch i []) := by
  have hmem : ∀ {j o}, o ∈ Function.update ch i [] j → o ∈ ch j := by
    intro j o ho
    by_cases hji : j = i
    · subst hji
      rw [Function.update_self] at ho
      exact absurd ho List.not_mem_nil
    · rwa [Function.update_of_ne hji] at ho
  refine ⟨fun {j} hj => ?_, fun {j} hj => ?_, fun hj hk hoj hok => h.disjoint hj hk (hmem hoj) (hmem hok)⟩
  · by_cases hji : j = i
    · subst hji
      rw [Function.update_self]
      exact Function.update_self ..
    · rw [Function.update_of_ne hji]
      refine (h.path hj).frame (Function.update_of_ne (fun heq => hji (Cell.head.inj heq)) ..) fun o _ => ?_
      exact Function.update_of_ne (Cell.link_ne_head _ _) ..
  · by_cases hji : j = i
    · subst hji
      rw [Function.update_self]
      exact List.nodup_nil
    · rw [Function.update_of_ne hji]
      exact h.nodup hj

variable [DecidableEq O]

/-- The object is put in front of the bucket. -/
def push (next : Cell Nat O → Option O) (i : Nat) (o : O) : Cell Nat O → Option O :=
  Function.update (Function.update next (.link o) (next (.head i))) (.head i) (some o)

theorem Filled.push (h : Filled next n ch) {i : Nat} (hi : i < n) {o : O} (ho : ∀ j < n, o ∉ ch j) :
    Filled (push next i o) n (Function.update ch i (o :: ch i)) := by
  have hother : ∀ {c : Cell Nat O} {l : List O}, Path next c l → c ≠ .head i → c ≠ .link o → o ∉ l →
      Path (Buckets.push next i o) c l := by
    intro c l hp hci hco hol
    refine hp.frame ?_ fun q hq => ?_
    · rw [Buckets.push, Function.update_of_ne hci, Function.update_of_ne hco]
    · have hqo : q ≠ o := fun heq => hol (heq ▸ hq)
      rw [Buckets.push, Function.update_of_ne (Cell.link_ne_head _ _),
        Function.update_of_ne (fun heq => hqo (Cell.link.inj heq))]
  refine ⟨fun {j} hj => ?_, fun {j} hj => ?_, fun {j k q} hj hk hqj hqk => ?_⟩
  · by_cases hji : j = i
    · subst hji
      rw [Function.update_self]
      refine ⟨Function.update_self .., ?_⟩
      -- the old list now starts in the cell of `o`
      have hlink : Buckets.push next j o (.link o) = (ch j).head? := by
        rw [Buckets.push, Function.update_of_ne (Cell.link_ne_head _ _), Function.update_self, (h.path hj).head]
      have hpath := h.path hj
      have hnot := ho j hj
      have hnd := h.nodup hj
      cases hl : ch j with
      | nil =>
        rw [hl] at hlink
        exact hlink
      | cons q l =>
        rw [hl] at hlink hpath hnot hnd
        have hqo : q ≠ o := fun heq => hnot (heq ▸ List.mem_cons_self)
        exact ⟨hlink, hother hpath.2 (fun heq => nomatch heq) (fun heq => hqo (Cell.link.inj heq))
          fun hol => hnot (List.mem_cons_of_mem q hol)⟩
    · rw [Function.update_of_ne hji]
      exact hother (h.path hj) (fun heq => hji (Cell.head.inj heq)) (fun heq => nomatch heq) (ho j hj)
  · by_cases hji : j = i
    · subst hji
      rw [Function.update_self]
      exact List.nodup_cons.mpr ⟨ho j hj, h.nodup hj⟩
    · rw [Function.update_of_ne hji]
      exact h.nodup hj
  · have hmem : ∀ {k}, k < n → q ∈ Function.update ch i (o :: ch i) k → q ∈ ch k ∨ q = o ∧ k = i := by
      intro k hk hq
      by_cases hki : k = i
      · subst hki
        rw [Function.update_self] at hq
        exact (List.mem_cons.mp hq).elim (fun heq => .inr ⟨heq, rfl⟩) .inl
      · rw [Function.update_of_ne hki] at hq
        exact .inl hq
    rcases hmem hj hqj with hqj | ⟨hqo, hji⟩
    · rcases hmem hk hqk with hqk | ⟨hqo, -⟩
      · exact h.disjoint hj hk hqj hqk
      · exact absurd (hqo ▸ hqj) (ho j hj)
    · rcases hmem hk hqk with hqk | ⟨-, hki⟩
      · exact absurd (hqo ▸ hqk) (ho k hk)
      · rw [hji, hki]

/-- The cell that points to an object, sought from the cell `c` on. -/
def findCell (next : Cell Nat O → Option O) (o : O) : Nat → Cell Nat O → Option (Cell Nat O)
  | 0, _ => none
  | n + 1, c =>
    match next c with
    | none => none
    | some q => if q = o then some c else findCell next o n (.link q)

/-- The object is taken out through the cell that points to it. -/
theorem Path.remove {o : O} {l : List O} : ∀ {c : Cell Nat O} {k : Nat}, Path next c l → l.Nodup →
    (∀ q ∈ l, c ≠ .link q) → o ∈ l → l.length ≤ k → ∃ e, findCell next o k c = some e ∧ next e = some o ∧
      (e = c ∨ ∃ q ∈ l, e = .link q) ∧ Path (Function.update next e (next (.link o))) c (l.erase o) := by
  induction l with
  | nil => exact fun _ _ _ ho => absurd ho List.not_mem_nil
  | cons q l ih =>
    intro c k h hnd hc ho hk
    obtain ⟨k, rfl⟩ : ∃ k', k = k' + 1 := ⟨k - 1, by simp at hk; omega⟩
    have hnd' := List.nodup_cons.mp hnd
    rw [findCell, h.1]
    by_cases hqo : q = o
    · subst hqo
      refine ⟨c, if_pos rfl, h.1, .inl rfl, ?_⟩
      rw [List.erase_cons_head, h.2.head]
      cases l with
      | nil => exact Function.update_self ..
      | cons p l =>
        refine ⟨Function.update_self .., h.2.2.frame ?_ fun r hr => ?_⟩
        · exact Function.update_of_ne (hc p (List.mem_cons_of_mem q List.mem_cons_self)).symm ..
        · exact Function.update_of_ne (hc r (List.mem_cons_of_mem q (List.mem_cons_of_mem p hr))).symm ..
    · have ho' : o ∈ l := (List.mem_cons.mp ho).resolve_left (Ne.symm hqo)
      obtain ⟨e, he, hnext, hin, hpath⟩ := ih h.2 hnd'.2 (fun r hr heq => hnd'.1 (Cell.link.inj heq ▸ hr)) ho'
        (by simpa using hk)
      have hin' : ∃ r ∈ q :: l, e = .link r := by
        rcases hin with rfl | ⟨r, hr, rfl⟩
        · exact ⟨q, List.mem_cons_self, rfl⟩
        · exact ⟨r, List.mem_cons_of_mem q hr, rfl⟩
      refine ⟨e, (if_neg hqo).trans he, hnext, .inr hin', ?_⟩
      rw [List.erase_cons_tail (by simpa using hqo)]
      refine ⟨?_, hpath⟩
      rw [Function.update_of_ne, h.1]
      rintro rfl
      obtain ⟨r, hr, heq⟩ := hin'
      exact hc r hr heq

theorem Filled.remove (h : Filled next n ch) {i : Nat} (hi : i < n) {o : O} (ho : o ∈ ch i) {k : Nat}
    (hk : (ch i).length ≤ k) : ∃ e, findCell next o k (.head i) = some e ∧ next e = some o ∧
      (e = .head i ∨ ∃ q ∈ ch i, e = .link q) ∧
      Filled (Function.update next e (next (.link o))) n (Function.update ch i ((ch i).erase o)) := by
  obtain ⟨e, he, hnext, hin, hpath⟩ := (h.path hi).remove (h.nodup hi) (fun q _ heq => nomatch heq) ho hk
  have hmem : ∀ {j q}, j < n → q ∈ Function.update ch i ((ch i).erase o) j → q ∈ ch j := by
    intro j q hj hq
    by_cases hji : j = i
    · subst hji
      rw [Function.update_self] at hq
      exact List.mem_of_mem_erase hq
    · rwa [Function.update_of_ne hji] at hq
  refine ⟨e, he, hnext, hin, fun {j} hj => ?_, fun {j} hj => ?_, fun hj hk hqj hqk =>
    h.disjoint hj hk (hmem hj hqj) (hmem hk hqk)⟩
  · by_cases hji : j = i
    · subst hji
      rw [Function.update_self]
      exact hpath
    · rw [Function.update_of_ne hji]
      refine (h.path hj).frame (Function.update_of_ne ?_ ..) fun q hq => Function.update_of_ne ?_ ..
      · rintro rfl
        rcases hin with heq | ⟨q, -, heq⟩
        · exact hji (Cell.head.inj heq)
        · cases heq
      · rintro rfl
        rcases hin with heq | ⟨r, hr, heq⟩
        · cases heq
        · exact hji (h.disjoint hj hi hq (Cell.link.inj heq ▸ hr))
  · by_cases hji : j = i
    · subst hji
      rw [Function.update_self]
      exact (h.nodup hj).erase o
    · rw [Function.update_of_ne hji]
      exact h.nodup hj

/-- A list that is spread over the buckets, from its first object on. -/
def spread (idx : O → Nat) (ch : Nat → List O) : List O → Nat → List O
  | [] => ch
  | o :: l => spread idx (Function.update ch (idx o) (o :: ch (idx o))) l

omit [DecidableEq O] in
theorem mem_spread (idx : O → Nat) {l : List O} : ∀ {ch : Nat → List O} {j : Nat} {q : O},
    q ∈ spread idx ch l j ↔ q ∈ ch j ∨ q ∈ l ∧ idx q = j := by
  induction l with
  | nil => simp [spread]
  | cons o l ih =>
    intro ch j q
    rw [spread, ih]
    by_cases hj : j = idx o
    · subst hj
      rw [Function.update_self, List.mem_cons, List.mem_cons]
      constructor
      · rintro ((rfl | hq) | ⟨hq, heq⟩)
        · exact .inr ⟨.inl rfl, rfl⟩
        · exact .inl hq
        · exact .inr ⟨.inr hq, heq⟩
      · rintro (hq | ⟨rfl | hq, heq⟩)
        · exact .inl (.inr hq)
        · exact .inl (.inl rfl)
        · exact .inr ⟨hq, heq⟩
    · rw [Function.update_of_ne hj, List.mem_cons]
      constructor
      · rintro (hq | ⟨hq, heq⟩)
        · exact .inl hq
        · exact .inr ⟨.inr hq, heq⟩
      · rintro (hq | ⟨rfl | hq, heq⟩)
        · exact .inl hq
        · exact absurd heq.symm hj
        · exact .inr ⟨hq, heq⟩

end Tsuki.Lib.Buckets
