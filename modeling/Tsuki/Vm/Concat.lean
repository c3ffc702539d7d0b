import Tsuki.Rust
import Mathlib.Data.List.Basic

/-!
# Concatenation

`luaV_concat` joins the operands on top of the stack. It takes the topmost pair and either calls a metamethod, keeps one
operand where the other one seems to be empty, or joins all operands below that are strings or numbers. The meaning is
that of the chain of the operands, joined pair by pair from the right.
-/

namespace Tsuki.Concat

variable {max : Nat} {N O F E : Type}

/-! ## The operation -/

/-- A string; there is none with a length from `max` on, which is `2 ^ 63 - 1` less the size of `Str`. -/
@[ext] structure Str (max : Nat) where
  bytes : Bytes
  fits : bytes.length < max

/-- An operand: a string, a number, or another value. -/
inductive Value (max : Nat) (N O : Type)
  | str (s : Str max)
  | num (x : N)
  | other (o : O)

/-- The errors: of `luaG_concaterror` with its culprit, of a string too long, and of a metamethod. -/
inductive Err (max : Nat) (N O E : Type)
  | concat (culprit : Value max N O)
  | overflow
  | call (e : E)

/-- What a concatenation finds: texts of numbers, metamethods by type, and what calls of these return. -/
structure Env (max : Nat) (N O F E : Type) where
  text : N → Str max
  string : Option F
  number : Option F
  other : O → Option F
  call : F → Value max N O → Value max N O → Except E (Value max N O)

/-- An evaluation: the calls of metamethods, and the result. -/
abbrev Run (max : Nat) (N O F E α : Type) := List (F × Value max N O × Value max N O) × Except (Err max N O E) α

def Run.pure {α : Type} (a : α) : Run max N O F E α := ([], .ok a)

/-- What follows an evaluation is done where that has a result. -/
def Run.bind {α β : Type} (x : Run max N O F E α) (f : α → Run max N O F E β) : Run max N O F E β :=
  match x.2 with
  | .error e => (x.1, .error e)
  | .ok a => (x.1 ++ (f a).1, (f a).2)

section

variable (e : Env max N O F E)

/-- The text of a string or a number. -/
def Env.cvt2str : Value max N O → Option (Str max)
  | .str s => some s
  | .num x => some (e.text x)
  | .other _ => none

/-- `luaT_gettmbyobj` -/
def Env.gettmbyobj : Value max N O → Option F
  | .str _ => e.string
  | .num _ => e.number
  | .other o => e.other o

/-- `luaG_concaterror` -/
def Env.concaterror (p₁ p₂ : Value max N O) : Err max N O E :=
  .concat (if (e.cvt2str p₁).isSome then p₂ else p₁)

/-- `luaT_tryconcatTM` -/
def Env.tryconcatTM (p₁ p₂ : Value max N O) : Run max N O F E (Value max N O) :=
  match (e.gettmbyobj p₁).or (e.gettmbyobj p₂) with
  | none => ([], .error (e.concaterror p₁ p₂))
  | some f => ([(f, p₁, p₂)], (e.call f p₁ p₂).mapError .call)

/-- `len as c_int == 0` -/
def Str.seemsEmpty (s : Str max) : Prop := s.bytes.length % 2 ^ 32 = 0

instance (s : Str max) : Decidable s.seemsEmpty := inferInstanceAs (Decidable (_ = _))

def Str.append (s t : Str max) (h : ¬max - t.bytes.length ≤ s.bytes.length) : Str max :=
  ⟨s.bytes ++ t.bytes, by rw [List.length_append]; omega⟩

/-- The loop over the operands to join and `copy2buff`: what is joined from `n` operands grows by those of the next `k`
that are strings or numbers. None is an overflow. -/
def Env.collect : Nat → Str max → Nat → List (Value max N O) → Option (Str max × Nat × List (Value max N O))
  | k + 1, acc, n, v :: s =>
    match e.cvt2str v with
    | none => some (acc, n, v :: s)
    | some t =>
      if h : max - acc.bytes.length ≤ t.bytes.length then none
      else Env.collect k (t.append acc h) (n + 1) s
  | _, acc, n, s => some (acc, n, s)

/-- The string is an operand itself, and no text of a number. -/
def Value.isStr : Value max N O → Bool
  | .str _ => true
  | _ => false

/-- One turn of the loop, where the stack has `b` on top and `a` below: the new stack, and the number of operands that
are one now. -/
def Env.round (b a : Value max N O) (rest : List (Value max N O)) (total : Nat) :
    Run max N O F E (List (Value max N O) × Nat) :=
  match e.cvt2str a, e.cvt2str b with
  | some s, some t =>
    if t.seemsEmpty then Run.pure (.str s :: rest, 2)
    else if a.isStr ∧ s.seemsEmpty then Run.pure (.str t :: rest, 2)
    else
      match e.collect (total - 1) t 1 (a :: rest) with
      | none => ([], .error .overflow)
      | some (u, n, rest) => Run.pure (.str u :: rest, n)
  | _, _ => (e.tryconcatTM a b).bind fun v => Run.pure (v :: rest, 2)

/-- The loop of `luaV_concat`, with at most `fuel` turns. -/
def Env.rounds : Nat → List (Value max N O) → Nat → Run max N O F E (List (Value max N O))
  | fuel + 1, b :: a :: rest, total =>
    if total ≤ 1 then Run.pure (b :: a :: rest)
    else (e.round b a rest total).bind fun (s, n) => Env.rounds fuel s (total - (n - 1))
  | _, s, _ => Run.pure s

/-- `luaV_concat` on the stack, the top first; each turn makes the operands fewer. -/
def Env.luaV_concat (s : List (Value max N O)) (total : Nat) : Run max N O F E (List (Value max N O)) :=
  e.rounds total s total

/-! ## The meaning -/

/-- `a .. b` -/
def Env.concat (a b : Value max N O) : Run max N O F E (Value max N O) :=
  match e.cvt2str a, e.cvt2str b with
  | some s, some t =>
    if h : max - t.bytes.length ≤ s.bytes.length then ([], .error .overflow) else Run.pure (.str (s.append t h))
  | _, _ => e.tryconcatTM a b

/-- `a₁ .. (a₂ .. (.. b))` -/
def Env.chain : List (Value max N O) → Value max N O → Run max N O F E (Value max N O)
  | [], b => Run.pure b
  | a :: l, b => (Env.chain l b).bind (e.concat a)

/-- The chain from its end: the operands before `b`, the last one first. -/
def Env.fold (b : Value max N O) : List (Value max N O) → Run max N O F E (Value max N O)
  | [] => Run.pure b
  | a :: l => (e.concat a b).bind fun c => Env.fold c l

end

@[simp] theorem Run.pure_bind {α β : Type} (a : α) (f : α → Run max N O F E β) : (Run.pure a).bind f = f a := by
  simp [Run.pure, Run.bind]

@[simp] theorem Run.bind_pure {α : Type} (x : Run max N O F E α) : x.bind Run.pure = x := by
  obtain ⟨log, r⟩ := x
  cases r <;> simp [Run.pure, Run.bind]

/-- What comes after a run only adds to what it called. -/
theorem Run.bind_log {α β : Type} (x : Run max N O F E α) (f : α → Run max N O F E β) :
    ∃ l, (x.bind f).1 = x.1 ++ l := by
  obtain ⟨log, r⟩ := x
  cases r with
  | error => exact ⟨[], (List.append_nil _).symm⟩
  | ok a => exact ⟨(f a).1, rfl⟩

theorem Run.bind_assoc {α β γ : Type} (x : Run max N O F E α) (f : α → Run max N O F E β)
    (g : β → Run max N O F E γ) : (x.bind f).bind g = x.bind fun a => (f a).bind g := by
  obtain ⟨log, r⟩ := x
  cases r with
  | error => rfl
  | ok a =>
    simp only [Run.bind]
    cases (f a).2 <;> simp

theorem Run.error_bind {α β : Type} (log : List (F × Value max N O × Value max N O)) (x : Err max N O E)
    (f : α → Run max N O F E β) : Run.bind ((log, .error x) : Run max N O F E α) f = (log, .error x) := rfl

theorem Run.bind_eq_ok {α β : Type} {x : Run max N O F E α} {f : α → Run max N O F E β}
    {log : List (F × Value max N O × Value max N O)} {b : β} (h : x.bind f = (log, .ok b)) :
    ∃ a log', x = (x.1, .ok a) ∧ f a = (log', .ok b) ∧ log = x.1 ++ log' := by
  obtain ⟨l, r⟩ := x
  cases r with
  | error => cases h
  | ok a =>
    obtain ⟨hlog, hb⟩ := Prod.mk.inj h
    exact ⟨a, (f a).1, rfl, Prod.ext rfl hb, hlog.symm⟩

/-- Two continuations of one evaluation that has a result differ where they differ there. -/
theorem Run.bind_ne {α β : Type} {log : List (F × Value max N O × Value max N O)} {a : α}
    {f g : α → Run max N O F E β} (h : f a ≠ g a) :
    Run.bind ((log, .ok a) : Run max N O F E α) f ≠ Run.bind ((log, .ok a) : Run max N O F E α) g := by
  intro heq
  obtain ⟨hlog, hr⟩ := Prod.mk.inj heq
  exact h (Prod.ext (List.append_cancel_left hlog) hr)

variable {e : Env max N O F E}

theorem fold_append (b a : Value max N O) (l : List (Value max N O)) :
    e.fold b (l ++ [a]) = (e.fold b l).bind (e.concat a) := by
  induction l generalizing b with
  | nil =>
    rw [List.nil_append, Env.fold, Env.fold, Run.pure_bind]
    exact Run.bind_pure _
  | cons x l ih =>
    rw [List.cons_append, Env.fold, Env.fold, Run.bind_assoc]
    exact congrArg _ (funext fun c => ih c)

theorem chain_eq_fold (l : List (Value max N O)) (b : Value max N O) : e.chain l b = e.fold b l.reverse := by
  induction l with
  | nil => rfl
  | cons a l ih => rw [Env.chain, List.reverse_cons, fold_append, ih]

/-- Strings and numbers have their texts joined in order. -/
theorem chain_texts {b : Value max N O} {t : Str max} (hb : e.cvt2str b = some t) (l : List (Value max N O)) :
    ∀ {ts : List (Str max)}, l.map e.cvt2str = ts.map some →
      ((ts ++ [t]).flatMap Str.bytes).length < max →
      ∃ u : Str max, (e.chain l b).bind (fun v => ([], .ok (e.cvt2str v))) = ([], .ok (some u)) ∧
        u.bytes = (ts ++ [t]).flatMap Str.bytes := by
  induction l with
  | nil =>
    intro ts hts _
    rw [List.map_nil, eq_comm, List.map_eq_nil_iff] at hts
    subst hts
    refine ⟨t, ?_, by simp⟩
    rw [Env.chain, Run.pure_bind, hb]
  | cons a l ih =>
    intro ts hts hlen
    cases ts with
    | nil => cases hts
    | cons s ts =>
      rw [List.map_cons, List.map_cons, List.cons.injEq] at hts
      rw [List.cons_append, List.flatMap_cons, List.length_append] at hlen
      obtain ⟨u, hu, hbytes⟩ := ih hts.2 (by omega)
      obtain ⟨v, log, hchain, hv, hlog⟩ := Run.bind_eq_ok hu
      obtain ⟨-, hv⟩ := Prod.mk.inj hv
      have hv := Except.ok.inj hv
      rw [eq_comm, List.append_eq_nil_iff] at hlog
      rw [hlog.1] at hchain
      have hroom : ¬max - u.bytes.length ≤ s.bytes.length := by
        rw [hbytes]
        omega
      refine ⟨s.append u hroom, ?_, ?_⟩
      · rw [Env.chain, hchain]
        show Run.bind (Run.bind (Run.pure v) _) _ = _
        rw [Run.pure_bind, Env.concat, hts.1, hv]
        dsimp only
        rw [dif_neg hroom, Run.pure_bind]
        rfl
      · rw [List.cons_append, List.flatMap_cons, ← hbytes]
        rfl

/-! ## Where an operand is dropped -/

/-- The loop comes to a pair of strings or numbers where one is a string that seems to be empty and is not. Only the pair
on top at the start of a turn is looked at, so none after it that is joined in one `run`. -/
def Env.Slips (e : Env max N O F E) : Bool → Value max N O → List (Value max N O) → Prop
  | _, _, [] => False
  | run, b, a :: ops =>
    match e.cvt2str a, e.cvt2str b with
    | some s, some t =>
      if run = false ∧ t.seemsEmpty then t.bytes ≠ [] ∨ Env.Slips e false (.str s) ops
      else if run = false ∧ a.isStr ∧ s.seemsEmpty then s.bytes ≠ [] ∨ Env.Slips e false (.str t) ops
      else if h : max - t.bytes.length ≤ s.bytes.length then False
      else Env.Slips e true (.str (s.append t h)) ops
    | _, _ =>
      match (e.tryconcatTM a b).2 with
      | .ok v => Env.Slips e false v ops
      | .error _ => False

theorem rounds_one (fuel : Nat) (s : List (Value max N O)) : e.rounds fuel s 1 = Run.pure s := by
  unfold Env.rounds
  split
  · rw [if_pos (Nat.le_refl 1)]
  · rfl

theorem concat_str {a b : Value max N O} {s t : Str max} (ha : e.cvt2str a = some s) (hb : e.cvt2str b = some t) :
    e.concat a b = if h : max - t.bytes.length ≤ s.bytes.length then ([], .error .overflow)
      else Run.pure (.str (s.append t h)) := by
  rw [Env.concat, ha, hb]

theorem concat_tm {a b : Value max N O} (h : e.cvt2str a = none ∨ e.cvt2str b = none) :
    e.concat a b = e.tryconcatTM a b := by
  unfold Env.concat
  rcases h with h | h
  · rw [h]
  · rw [h]
    cases e.cvt2str a <;> rfl

theorem append_empty {s t : Str max} (h : ¬max - t.bytes.length ≤ s.bytes.length) :
    (t.bytes = [] → s.append t h = s) ∧ (s.bytes = [] → s.append t h = t) := by
  constructor
  · intro ht
    apply Str.ext
    show s.bytes ++ t.bytes = s.bytes
    rw [ht, List.append_nil]
  · intro hs
    apply Str.ext
    show s.bytes ++ t.bytes = t.bytes
    rw [hs, List.nil_append]

/-- The operands that are joined with `acc`, and what is left of the chain after them. -/
theorem collect_spec {below : List (Value max N O)} (ops : List (Value max N O)) : ∀ (acc : Str max) (n : Nat),
    match e.collect ops.length acc n (ops ++ below) with
    | none => e.fold (.str acc) ops = ([], .error .overflow)
    | some (u, n', s) => ∃ ops', s = ops' ++ below ∧ n' + ops'.length = n + ops.length ∧ ops'.length ≤ ops.length ∧
        e.fold (.str acc) ops = e.fold (.str u) ops' ∧ (e.Slips true (.str acc) ops ↔ e.Slips false (.str u) ops') := by
  induction ops with
  | nil => exact fun acc n => ⟨[], rfl, rfl, Nat.le_refl 0, rfl, Iff.rfl⟩
  | cons v ops ih =>
    intro acc n
    rw [List.length_cons, List.cons_append, Env.collect]
    cases hv : e.cvt2str v with
    | none =>
      refine ⟨v :: ops, rfl, rfl, Nat.le_refl _, rfl, ?_⟩
      unfold Env.Slips
      rw [hv]
    | some t =>
      dsimp only
      have hacc : e.cvt2str (.str acc) = some acc := rfl
      by_cases hover : max - acc.bytes.length ≤ t.bytes.length
      · rw [dif_pos hover]
        show e.fold (.str acc) (v :: ops) = _
        rw [Env.fold, concat_str hv hacc, dif_pos hover, Run.error_bind]
      · rw [dif_neg hover]
        have hfold : e.fold (.str acc) (v :: ops) = e.fold (.str (t.append acc hover)) ops := by
          rw [Env.fold, concat_str hv hacc, dif_neg hover, Run.pure_bind]
        have hslips : e.Slips true (.str acc) (v :: ops) ↔ e.Slips true (.str (t.append acc hover)) ops := by
          conv_lhs => rw [Env.Slips, hv, hacc]
          dsimp only
          rw [if_neg (by simp), if_neg (by simp), dif_neg hover]
        have hspec := ih (t.append acc hover) (n + 1)
        cases hcol : e.collect ops.length (t.append acc hover) (n + 1) (ops ++ below) with
        | none =>
          rw [hcol] at hspec
          exact hfold.trans hspec
        | some x =>
          obtain ⟨u, n', s⟩ := x
          rw [hcol] at hspec
          obtain ⟨ops', hs, hn, hle, hf, hsl⟩ := hspec
          exact ⟨ops', hs, by omega, by omega, hfold.trans hf, hslips.trans hsl⟩

/-- A turn on a pair of strings or numbers of which none seems to be empty. -/
theorem round_join {below ops : List (Value max N O)} {a b : Value max N O} {s t : Str max}
    (ha : e.cvt2str a = some s) (hb : e.cvt2str b = some t) (ht : ¬t.seemsEmpty) (hs : ¬(a.isStr ∧ s.seemsEmpty)) :
    e.round b a (ops ++ below) (ops.length + 2) =
      if h : max - t.bytes.length ≤ s.bytes.length then ([], .error .overflow)
      else
        match e.collect ops.length (s.append t h) 2 (ops ++ below) with
        | none => ([], .error .overflow)
        | some (u, n, rest) => Run.pure (.str u :: rest, n) := by
  rw [Env.round, ha, hb]
  dsimp only
  rw [if_neg ht, if_neg hs, show ops.length + 2 - 1 = ops.length + 1 from rfl, Env.collect, ha]
  dsimp only
  by_cases h : max - t.bytes.length ≤ s.bytes.length
  · rw [dif_pos h, dif_pos h]
  · rw [dif_neg h, dif_neg h]

/-- A turn on a pair that is not of strings or numbers. -/
theorem round_tm {below ops : List (Value max N O)} {a b : Value max N O}
    (h : e.cvt2str a = none ∨ e.cvt2str b = none) :
    e.round b a (ops ++ below) (ops.length + 2) =
      (e.tryconcatTM a b).bind fun v => Run.pure (v :: (ops ++ below), 2) := by
  unfold Env.round
  rcases h with h | h
  · rw [h]
  · rw [h]
    cases e.cvt2str a <;> rfl

/-- A slip after a turn on such a pair is one on what the metamethod returns. -/
theorem slips_tm {ops : List (Value max N O)} {a b : Value max N O} {run : Bool}
    (h : e.cvt2str a = none ∨ e.cvt2str b = none) :
    e.Slips run b (a :: ops) ↔ ∃ v, (e.tryconcatTM a b).2 = .ok v ∧ e.Slips false v ops := by
  have htm : e.Slips run b (a :: ops) ↔
      match (e.tryconcatTM a b).2 with
      | .ok v => e.Slips false v ops
      | .error _ => False := by
    conv_lhs => unfold Env.Slips
    rcases h with h | h
    · rw [h]
    · rw [h]
      cases e.cvt2str a <;> rfl
  rw [htm]
  cases hv : (e.tryconcatTM a b).2 with
  | ok v => simp
  | error err => simp

theorem rounds_succ {below ops : List (Value max N O)} (fuel : Nat) (b a : Value max N O) :
    e.rounds (fuel + 1) (b :: (a :: ops) ++ below) ((a :: ops).length + 1) =
      (e.round b a (ops ++ below) (ops.length + 2)).bind fun x => e.rounds fuel x.1 (ops.length + 2 - (x.2 - 1)) := by
  rw [List.cons_append, List.cons_append, Env.rounds, if_neg (by simp)]
  rfl

/-- Without a slip the loop does what the chain means. -/
theorem rounds_of_not_slips {below : List (Value max N O)} (fuel : Nat) : ∀ (b : Value max N O)
    (ops : List (Value max N O)), ops.length ≤ fuel → ¬e.Slips false b ops →
    e.rounds fuel (b :: ops ++ below) (ops.length + 1) = (e.fold b ops).bind fun v => Run.pure (v :: below) := by
  induction fuel with
  | zero =>
    intro b ops hlen _
    rw [List.length_eq_zero_iff.mp (Nat.le_zero.mp hlen)]
    rfl
  | succ fuel ih =>
    intro b ops hlen hslips
    cases ops with
    | nil =>
      rw [List.length_nil, rounds_one, Env.fold, Run.pure_bind]
      rfl
    | cons a ops =>
      have hlen : ops.length ≤ fuel := Nat.le_of_succ_le_succ hlen
      rw [rounds_succ, Env.fold, Run.bind_assoc]
      -- what is on top after a turn on two operands
      have hgo : ∀ v, ¬e.Slips false v ops →
          e.rounds fuel (v :: (ops ++ below)) (ops.length + 2 - (2 - 1)) =
            (e.fold v ops).bind fun v => Run.pure (v :: below) := fun v hv => ih v ops hlen hv
      by_cases hcvt : e.cvt2str a = none ∨ e.cvt2str b = none
      · rw [round_tm hcvt, Run.bind_assoc, concat_tm hcvt]
        have hslips : ∀ v, (e.tryconcatTM a b).2 = .ok v → ¬e.Slips false v ops := fun v hv hv' =>
          hslips ((slips_tm hcvt).mpr ⟨v, hv, hv'⟩)
        generalize e.tryconcatTM a b = x at hslips ⊢
        obtain ⟨log, r⟩ := x
        cases r with
        | error err => rfl
        | ok v =>
          have := hgo v (hslips v rfl)
          unfold Run.bind
          dsimp only
          rw [show (Run.pure (v :: (ops ++ below), 2) : Run max N O F E _) = ([], .ok (v :: (ops ++ below), 2))
            from rfl]
          dsimp only
          rw [this]
          rfl
      · obtain ⟨s, hs⟩ := Option.ne_none_iff_exists'.mp fun h => hcvt (.inl h)
        obtain ⟨t, ht⟩ := Option.ne_none_iff_exists'.mp fun h => hcvt (.inr h)
        unfold Env.Slips at hslips
        rw [hs, ht] at hslips
        dsimp only at hslips
        rw [concat_str hs ht]
        by_cases hte : t.seemsEmpty
        · rw [if_pos ⟨rfl, hte⟩, not_or, not_not] at hslips
          have hroom : ¬max - t.bytes.length ≤ s.bytes.length := by
            rw [hslips.1, List.length_nil]
            have := s.fits
            omega
          rw [dif_neg hroom, (append_empty hroom).1 hslips.1, Run.pure_bind, Env.round, hs, ht]
          dsimp only
          rw [if_pos hte, Run.pure_bind]
          exact hgo _ hslips.2
        · rw [if_neg fun h => hte h.2] at hslips
          by_cases hse : a.isStr ∧ s.seemsEmpty
          · rw [if_pos ⟨rfl, hse⟩, not_or, not_not] at hslips
            have hroom : ¬max - t.bytes.length ≤ s.bytes.length := by
              rw [hslips.1, List.length_nil]
              have := t.fits
              omega
            rw [dif_neg hroom, (append_empty hroom).2 hslips.1, Run.pure_bind, Env.round, hs, ht]
            dsimp only
            rw [if_neg hte, if_pos hse, Run.pure_bind]
            exact hgo _ hslips.2
          · rw [if_neg fun h => hse h.2] at hslips
            rw [round_join hs ht hte hse]
            by_cases hover : max - t.bytes.length ≤ s.bytes.length
            · rw [dif_pos hover, dif_pos hover]
              rfl
            · rw [dif_neg hover] at hslips ⊢
              rw [dif_neg hover, Run.pure_bind]
              have hspec := @collect_spec max N O F E e below ops (s.append t hover) 2
              cases hcol : e.collect ops.length (s.append t hover) 2 (ops ++ below) with
              | none =>
                rw [hcol] at hspec
                rw [show e.fold (.str (s.append t hover)) ops = ([], .error .overflow) from hspec]
                rfl
              | some x =>
                obtain ⟨u, n, rest⟩ := x
                rw [hcol] at hspec
                obtain ⟨ops', rfl, hn, hle, hfold, hsl⟩ := hspec
                dsimp only
                rw [Run.pure_bind, hfold, show ops.length + 2 - (n - 1) = ops'.length + 1 by omega]
                exact ih _ ops' (by omega) fun h => hslips (hsl.mpr h)

/-! ## A dropped operand is missed -/

/-- The chain has a value. -/
def HasValue (x : Run max N O F E (Value max N O)) : Prop := ∃ log v, x = (log, .ok v)

theorem HasValue.bind_tm {a b : Value max N O} {f : Value max N O → Run max N O F E (Value max N O)}
    (h : HasValue ((e.tryconcatTM a b).bind f)) :
    ∃ g v, (e.gettmbyobj a).or (e.gettmbyobj b) = some g ∧ e.tryconcatTM a b = ([(g, a, b)], .ok v) ∧
      HasValue (f v) := by
  obtain ⟨log, w, hw⟩ := h
  obtain ⟨v, log', hv, hf, -⟩ := Run.bind_eq_ok hw
  unfold Env.tryconcatTM at hv ⊢
  cases hg : (e.gettmbyobj a).or (e.gettmbyobj b) with
  | none =>
    rw [hg] at hv
    cases hv
  | some g =>
    rw [hg] at hv
    exact ⟨g, v, rfl, hv, log', w, hf⟩

theorem fold_join {a b : Value max N O} {s t : Str max} {ops : List (Value max N O)} (ha : e.cvt2str a = some s)
    (hb : e.cvt2str b = some t) (hvalue : HasValue (e.fold b (a :: ops))) :
    ∃ h, e.fold b (a :: ops) = e.fold (.str (s.append t h)) ops := by
  rw [Env.fold, concat_str ha hb] at hvalue ⊢
  by_cases h : max - t.bytes.length ≤ s.bytes.length
  · rw [dif_pos h] at hvalue
    obtain ⟨log, v, hv⟩ := hvalue
    cases hv
  · refine ⟨h, ?_⟩
    rw [dif_neg h, Run.pure_bind]

theorem Str.length_append (s t : Str max) (h : ¬max - t.bytes.length ≤ s.bytes.length) :
    (s.append t h).bytes.length = s.bytes.length + t.bytes.length := List.length_append

/-- What is joined with a shorter string stays shorter. -/
theorem collect_shorter {below : List (Value max N O)} (ops : List (Value max N O)) : ∀ (acc acc' : Str max) (n : Nat),
    acc'.bytes.length < acc.bytes.length → HasValue (e.fold (.str acc) ops) →
    match e.collect ops.length acc' n (ops ++ below) with
    | none => True
    | some (u', n', s) => ∃ ops' u, s = ops' ++ below ∧ n' + ops'.length = n + ops.length ∧
        ops'.length ≤ ops.length ∧ e.fold (.str acc) ops = e.fold (.str u) ops' ∧
        u'.bytes.length < u.bytes.length := by
  induction ops with
  | nil => exact fun acc acc' n hlt _ => ⟨[], acc, rfl, rfl, Nat.le_refl 0, rfl, hlt⟩
  | cons v ops ih =>
    intro acc acc' n hlt hvalue
    rw [List.length_cons, List.cons_append, Env.collect]
    cases hv : e.cvt2str v with
    | none => exact ⟨v :: ops, acc, rfl, rfl, Nat.le_refl _, rfl, hlt⟩
    | some t =>
      dsimp only
      obtain ⟨hroom, hfold⟩ := fold_join hv (show e.cvt2str (.str acc) = some acc from rfl) hvalue
      rw [hfold] at hvalue ⊢
      by_cases hover : max - acc'.bytes.length ≤ t.bytes.length
      · rw [dif_pos hover]
        trivial
      · rw [dif_neg hover]
        have hspec := ih (t.append acc hroom) (t.append acc' hover) (n + 1)
          (by rw [Str.length_append, Str.length_append]; omega) hvalue
        cases hcol : e.collect ops.length (t.append acc' hover) (n + 1) (ops ++ below) with
        | none => trivial
        | some x =>
          obtain ⟨u', n', s⟩ := x
          rw [hcol] at hspec
          obtain ⟨ops', u, hs, hn, hle, hf, hu⟩ := hspec
          exact ⟨ops', u, hs, by omega, by omega, hf, hu⟩

theorem str_ne {below : List (Value max N O)} {s s' : Str max} (h : s'.bytes.length < s.bytes.length) :
    (Run.pure (.str s' :: below) : Run max N O F E (List (Value max N O))) ≠
      (Run.pure (.str s) : Run max N O F E _).bind fun v => Run.pure (v :: below) := by
  rw [Run.pure_bind]
  intro heq
  have hlist := Except.ok.inj (Prod.mk.inj heq).2
  have hs := Value.str.inj (List.cons.inj hlist).1
  rw [hs] at h
  exact Nat.lt_irrefl _ h

theorem error_ne {below : List (Value max N O)} {log : List (F × Value max N O × Value max N O)} {err : Err max N O E}
    {x : Run max N O F E (Value max N O)} (h : HasValue x) :
    ((log, .error err) : Run max N O F E (List (Value max N O))) ≠ x.bind fun v => Run.pure (v :: below) := by
  obtain ⟨log', v, rfl⟩ := h
  intro heq
  cases (Prod.mk.inj heq).2

/-- From a shorter string on, the loop does not do what the chain means. -/
theorem rounds_ne {below : List (Value max N O)} (fuel : Nat) : ∀ (s s' : Str max) (ops : List (Value max N O)),
    ops.length ≤ fuel → s'.bytes.length < s.bytes.length → HasValue (e.fold (.str s) ops) →
    e.rounds fuel (.str s' :: ops ++ below) (ops.length + 1) ≠
      (e.fold (.str s) ops).bind fun v => Run.pure (v :: below) := by
  induction fuel with
  | zero =>
    intro s s' ops hlen hlt _
    rw [List.length_eq_zero_iff.mp (Nat.le_zero.mp hlen)]
    exact str_ne hlt
  | succ fuel ih =>
    intro s s' ops hlen hlt hvalue
    cases ops with
    | nil =>
      rw [List.length_nil, rounds_one]
      exact str_ne hlt
    | cons a ops =>
      have hlen : ops.length ≤ fuel := Nat.le_of_succ_le_succ hlen
      rw [rounds_succ]
      cases ha : e.cvt2str a with
      | none =>
        -- the metamethod gets the shorter string
        rw [Env.fold, concat_tm (.inl ha)] at hvalue ⊢
        obtain ⟨g, v, hg, htm, -⟩ := hvalue.bind_tm
        have htm' : (e.tryconcatTM a (.str s')).1 = [(g, a, .str s')] := by
          rw [Env.tryconcatTM, show e.gettmbyobj (.str s') = e.gettmbyobj (.str s) from rfl, hg]
        intro heq
        rw [round_tm (.inl ha), Run.bind_assoc, Run.bind_assoc] at heq
        obtain ⟨l, hl⟩ := Run.bind_log (e.tryconcatTM a (.str s')) fun v =>
          (Run.pure (v :: (ops ++ below), 2)).bind fun x => e.rounds fuel x.1 (ops.length + 2 - (x.2 - 1))
        obtain ⟨l', hl'⟩ := Run.bind_log (e.tryconcatTM a (.str s)) fun c =>
          (e.fold c ops).bind fun v => Run.pure (v :: below)
        rw [heq, hl', htm, htm'] at hl
        have hs := (List.cons.inj hl).1
        rw [Prod.mk.injEq, Prod.mk.injEq, Value.str.injEq] at hs
        rw [hs.2.2] at hlt
        exact Nat.lt_irrefl _ hlt
      | some t =>
        obtain ⟨hroom, hfold⟩ := fold_join ha (show e.cvt2str (.str s) = some s from rfl) hvalue
        have hlength := Str.length_append t s hroom
        rw [hfold] at hvalue ⊢
        have hs' : e.cvt2str (.str s') = some s' := rfl
        by_cases hte : s'.seemsEmpty
        · rw [Env.round, ha, hs']
          dsimp only
          rw [if_pos hte, Run.pure_bind]
          exact ih _ t ops hlen (by omega) hvalue
        · by_cases hse : a.isStr ∧ t.seemsEmpty
          · rw [Env.round, ha, hs']
            dsimp only
            rw [if_neg hte, if_pos hse, Run.pure_bind]
            exact ih _ s' ops hlen (by omega) hvalue
          · rw [round_join ha hs' hte hse]
            have hover : ¬max - s'.bytes.length ≤ t.bytes.length := by omega
            rw [dif_neg hover]
            have hspec := @collect_shorter max N O F E e below ops (t.append s hroom) (t.append s' hover) 2
              (by rw [hlength, Str.length_append]; omega) hvalue
            cases hcol : e.collect ops.length (t.append s' hover) 2 (ops ++ below) with
            | none => exact error_ne hvalue
            | some x =>
              obtain ⟨u', n, rest⟩ := x
              rw [hcol] at hspec
              obtain ⟨ops', u, rfl, hn, hle, hf, hu⟩ := hspec
              dsimp only
              rw [hf] at hvalue ⊢
              rw [Run.pure_bind, show ops.length + 2 - (n - 1) = ops'.length + 1 by omega]
              exact ih u u' ops' (by omega) hu hvalue

/-- After a slip the loop does not do what the chain means. -/
theorem rounds_of_slips {below : List (Value max N O)} (fuel : Nat) : ∀ (b : Value max N O)
    (ops : List (Value max N O)), ops.length ≤ fuel → e.Slips false b ops → HasValue (e.fold b ops) →
    e.rounds fuel (b :: ops ++ below) (ops.length + 1) ≠ (e.fold b ops).bind fun v => Run.pure (v :: below) := by
  induction fuel with
  | zero =>
    intro b ops hlen hslips _
    rw [List.length_eq_zero_iff.mp (Nat.le_zero.mp hlen)] at hslips
    exact hslips.elim
  | succ fuel ih =>
    intro b ops hlen hslips hvalue
    cases ops with
    | nil => exact hslips.elim
    | cons a ops =>
      have hlen : ops.length ≤ fuel := Nat.le_of_succ_le_succ hlen
      rw [rounds_succ]
      by_cases hcvt : e.cvt2str a = none ∨ e.cvt2str b = none
      · rw [Env.fold, concat_tm hcvt] at hvalue ⊢
        obtain ⟨g, v, hg, htm, hvalue⟩ := hvalue.bind_tm
        obtain ⟨v', hv', hslips⟩ := (slips_tm hcvt).mp hslips
        rw [htm] at hv'
        cases hv'
        rw [round_tm hcvt, htm, Run.bind_assoc, Run.bind_assoc]
        refine Run.bind_ne ?_
        rw [Run.pure_bind]
        exact ih v ops hlen hslips hvalue
      · obtain ⟨s, hs⟩ := Option.ne_none_iff_exists'.mp fun h => hcvt (.inl h)
        obtain ⟨t, ht⟩ := Option.ne_none_iff_exists'.mp fun h => hcvt (.inr h)
        unfold Env.Slips at hslips
        rw [hs, ht] at hslips
        dsimp only at hslips
        obtain ⟨hroom, hfold⟩ := fold_join hs ht hvalue
        have hlength := Str.length_append s t hroom
        rw [hfold] at hvalue ⊢
        by_cases hte : t.seemsEmpty
        · rw [if_pos ⟨rfl, hte⟩] at hslips
          rw [Env.round, hs, ht]
          dsimp only
          rw [if_pos hte, Run.pure_bind]
          by_cases hempty : t.bytes = []
          · rw [(append_empty hroom).1 hempty] at hvalue ⊢
            exact ih _ ops hlen (hslips.resolve_left fun h => h hempty) hvalue
          · have hpos := List.length_pos_iff.mpr hempty
            exact rounds_ne fuel _ s ops hlen (by omega) hvalue
        · rw [if_neg fun h => hte h.2] at hslips
          by_cases hse : a.isStr ∧ s.seemsEmpty
          · rw [if_pos ⟨rfl, hse⟩] at hslips
            rw [Env.round, hs, ht]
            dsimp only
            rw [if_neg hte, if_pos hse, Run.pure_bind]
            by_cases hempty : s.bytes = []
            · rw [(append_empty hroom).2 hempty] at hvalue ⊢
              exact ih _ ops hlen (hslips.resolve_left fun h => h hempty) hvalue
            · have hpos := List.length_pos_iff.mpr hempty
              exact rounds_ne fuel _ t ops hlen (by omega) hvalue
          · rw [if_neg fun h => hse h.2, dif_neg hroom] at hslips
            rw [round_join hs ht hte hse, dif_neg hroom]
            have hspec := @collect_spec max N O F E e below ops (s.append t hroom) 2
            cases hcol : e.collect ops.length (s.append t hroom) 2 (ops ++ below) with
            | none => exact error_ne hvalue
            | some x =>
              obtain ⟨u, n, rest⟩ := x
              rw [hcol] at hspec
              obtain ⟨ops', rfl, hn, hle, hf, hsl⟩ := hspec
              dsimp only
              rw [hf] at hvalue ⊢
              rw [Run.pure_bind, show ops.length + 2 - (n - 1) = ops'.length + 1 by omega]
              exact ih _ ops' (by omega) (hsl.mp hslips) hvalue

/-- `luaV_concat` is the chain of its operands, `l` and `b`, from the right: in its result, in the slots it leaves, and in
the calls of metamethods. It is so where the loop does not slip; and where the chain has a value, only there. -/
theorem concat_chain_iff (e : Env max N O F E) (l : List (Value max N O)) (b : Value max N O)
    (below : List (Value max N O)) :
    (¬e.Slips false b l.reverse → e.luaV_concat (b :: l.reverse ++ below) (l.length + 1) =
      (e.chain l b).bind fun v => Run.pure (v :: below)) ∧
    ((∃ log v, e.chain l b = (log, .ok v)) →
      (e.luaV_concat (b :: l.reverse ++ below) (l.length + 1) = (e.chain l b).bind (fun v => Run.pure (v :: below)) ↔
        ¬e.Slips false b l.reverse)) := by
  rw [chain_eq_fold, Env.luaV_concat, ← List.length_reverse]
  refine ⟨rounds_of_not_slips _ b l.reverse (Nat.le_succ _), fun hvalue => ⟨fun heq hslips => ?_,
    rounds_of_not_slips _ b l.reverse (Nat.le_succ _)⟩⟩
  exact rounds_of_slips _ b l.reverse (Nat.le_succ _) hslips hvalue heq

/-- Texts, and no metamethods. -/
def plain (max : Nat) : Env max (Str max) Empty Empty Empty := ⟨id, none, none, nofun, nofun⟩

/-- A string that seems to be empty is lost, and is not in the chain. -/
theorem concat_pair {s t : Str max} (h : t.seemsEmpty) (hroom : ¬max - t.bytes.length ≤ s.bytes.length) :
    e.luaV_concat [.str t, .str s] 2 = Run.pure [.str s] ∧
      e.chain [.str s] (.str t) = Run.pure (.str (s.append t hroom)) := by
  have hs : e.cvt2str (.str s) = some s := rfl
  have ht : e.cvt2str (.str t) = some t := rfl
  constructor
  · rw [Env.luaV_concat, Env.rounds, if_neg (by decide), Env.round, hs, ht]
    dsimp only
    rw [if_pos h, Run.pure_bind]
    exact rounds_one 1 _
  · rw [Env.chain, Env.chain, Run.pure_bind, concat_str hs ht, dif_neg hroom]

/-- A string of `2 ^ 32` bytes on the right is lost. -/
theorem concat_drops_long : ∃ big a : Str (2 ^ 63 - 1 - 88), big.bytes = List.replicate (2 ^ 32) 0 ∧ a.bytes = [97] ∧
    (plain _).luaV_concat [.str big, .str a] 2 = Run.pure [.str a] ∧
    (plain _).luaV_concat [.str big, .str a] 2 ≠ ((plain _).chain [.str a] (.str big)).bind fun v => Run.pure [v] := by
  have hlen : (List.replicate (2 ^ 32) (0 : UInt8)).length = 2 ^ 32 := List.length_replicate
  obtain ⟨big, hbig⟩ : ∃ big : Str (2 ^ 63 - 1 - 88), big.bytes = List.replicate (2 ^ 32) 0 :=
    ⟨⟨List.replicate (2 ^ 32) 0, by rw [hlen]; decide⟩, rfl⟩
  rw [← hbig] at hlen
  have hroom : ¬2 ^ 63 - 1 - 88 - big.bytes.length ≤ [(97 : UInt8)].length := by
    rw [hlen]
    decide
  have hempty : big.seemsEmpty := by
    rw [Str.seemsEmpty, hlen]
    exact Nat.mod_self _
  obtain ⟨hconcat, hchain⟩ := @concat_pair _ _ _ _ _ (plain (2 ^ 63 - 1 - 88)) ⟨[97], by decide⟩ big hempty hroom
  refine ⟨big, ⟨[97], by decide⟩, hbig, rfl, hconcat, ?_⟩
  rw [hconcat, hchain, Run.pure_bind]
  intro heq
  have hs := Value.str.inj (List.cons.inj (Except.ok.inj (Prod.mk.inj heq).2)).1
  have hbytes : 1 = 1 + big.bytes.length := (congrArg (fun s => s.bytes.length) hs).trans (Str.length_append ..)
  rw [hlen] at hbytes
  exact absurd hbytes (by decide)

end Tsuki.Concat
