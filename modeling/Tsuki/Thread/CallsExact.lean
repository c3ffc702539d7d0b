import Tsuki.Thread.Calls

/-!
# Calls move exactly the right values

Each step of a call is described by the values it leaves from a slot on and the slots it keeps; a call on the stack then
does what the call of the values means, and so does a tail call. The slots below a call are kept but for those of open
upvalues, and the values of the variables are those that the call of the values gives them: `Shares` says which
registers of a frame they are in, and none is left in a frame that is given up. The run is compared with the meaning by
`Sim`, step by step down the code and then by induction on the depth of calls. A stack overflows only where the slots
that the call needs reach its limit.
-/

namespace Tsuki.Calls

open Coroutine (Arity adjust put slice copy moveresults At at_slice at_put at_append at_cons)

/-! ## Loops -/

section

variable {V : Type}

theorem shift_spec (func n : Nat) : ∀ s : Nat → V, (∀ k < n, shift s func n (func + 1 + k) = s (func + k)) ∧
    ∀ j, j ≤ func ∨ func + n < j → shift s func n j = s j := by
  induction n with
  | zero => exact fun s => ⟨fun k hk => absurd hk (Nat.not_lt_zero k), fun _ _ => rfl⟩
  | succ n ih =>
    intro s
    obtain ⟨hin, hout⟩ := ih (Function.update s (func + n + 1) (s (func + n)))
    rw [shift]
    refine ⟨fun k hk => ?_, fun j hj => ?_⟩
    · by_cases hkn : k = n
      · subst hkn
        rw [hout _ (.inr (by omega)), show func + 1 + k = func + k + 1 by omega, Function.update_self]
      · rw [hin k (by omega), Function.update_of_ne (by omega)]
    · rw [hout j (by omega), Function.update_of_ne (by omega)]

theorem copyParams_spec (nil : V) (s : Nat → V) (func top n : Nat) (h : func + n < top) :
    copyParams nil s func top n top = s func ∧ (∀ k < n, copyParams nil s func top n (top + 1 + k) = s (func + 1 + k)) ∧
      ∀ j, j ≤ func ∨ func + n < j ∧ j < top → copyParams nil s func top n j = s j := by
  induction n with
  | zero =>
    refine ⟨Function.update_self .., fun k hk => absurd hk (Nat.not_lt_zero k), fun j hj => ?_⟩
    exact Function.update_of_ne (by omega) ..
  | succ n ih =>
    obtain ⟨htop, hin, hout⟩ := ih (by omega)
    rw [copyParams]
    refine ⟨?_, fun k hk => ?_, fun j hj => ?_⟩
    · rw [Function.update_of_ne (by omega), Function.update_of_ne (by omega), htop]
    · rw [Function.update_of_ne (by omega)]
      by_cases hkn : k = n
      · subst hkn
        rw [show top + 1 + k = top + k + 1 by omega, Function.update_self, hout _ (.inr (by omega)),
          show func + 1 + k = func + k + 1 by omega]
      · rw [Function.update_of_ne (by omega), hin k (by omega)]
    · rw [Function.update_of_ne (by omega), Function.update_of_ne (by omega), hout j (by omega)]

end

/-! ## Runs -/

section

variable {α β γ δ : Type} {x : Out α} {y : Out β} {need need' : Nat}

/-- A step of the machine is done, or the stack overflows, where `need` slots are too many. -/
def Does (need : Nat) (x : Out α) (P : α → Prop) : Prop :=
  x = some (.error .overflow) ∧ 1000000 ≤ need ∨ ∃ a, x = some (.ok a) ∧ P a

/-- The machine does what is meant, unless the stack overflows. -/
def Sim (need : Nat) (x : Out α) (y : Out β) (P : α → β → Prop) : Prop :=
  x = some (.error .overflow) ∧ 1000000 ≤ need ∨ (x = none ∧ y = none) ∨
    (x = some (.error .error) ∧ y = some (.error .error)) ∨ ∃ a b, x = some (.ok a) ∧ y = some (.ok b) ∧ P a b

theorem Does.ok {a : α} {P : α → Prop} (h : P a) : Does need (some (.ok a)) P := .inr ⟨a, rfl, h⟩

theorem Does.imp {P Q : α → Prop} (h : Does need x P) (hpq : ∀ a, P a → Q a) : Does need x Q :=
  Or.imp id (fun ⟨a, ha, hp⟩ => ⟨a, ha, hpq a hp⟩) h

theorem Does.bind {P : α → Prop} {Q : γ → Prop} {f : α → Out γ} (h : Does need x P)
    (hf : ∀ a, P a → Does need (f a) Q) : Does need (x.bind f) Q := by
  rcases h with ⟨rfl, hneed⟩ | ⟨a, rfl, ha⟩
  · exact .inl ⟨rfl, hneed⟩
  · exact hf a ha

theorem Does.sim {P : α → Prop} {Q : γ → β → Prop} {f : α → Out γ} (h : Does need x P)
    (hf : ∀ a, P a → Sim need (f a) y Q) : Sim need (x.bind f) y Q := by
  rcases h with ⟨rfl, hneed⟩ | ⟨a, rfl, ha⟩
  · exact .inl ⟨rfl, hneed⟩
  · exact hf a ha

theorem Sim.ok {a : α} {b : β} {P : α → β → Prop} (h : P a b) : Sim need (some (.ok a)) (some (.ok b)) P :=
  .inr (.inr (.inr ⟨a, b, rfl, rfl, h⟩))

theorem Sim.mono {P : α → β → Prop} (h : Sim need x y P) (hle : need ≤ need') : Sim need' x y P :=
  Or.imp (fun ⟨hx, hneed⟩ => ⟨hx, hneed.trans hle⟩) id h

theorem Sim.imp {P Q : α → β → Prop} (h : Sim need x y P) (hpq : ∀ a b, P a b → Q a b) : Sim need x y Q :=
  Or.imp id (Or.imp id (Or.imp id fun ⟨a, b, hx, hy, hab⟩ => ⟨a, b, hx, hy, hpq a b hab⟩)) h

theorem Sim.of_ok {P : α → β → Prop} {a : α} (h : Sim need x y P) (hx : x = some (.ok a)) :
    ∃ b, y = some (.ok b) ∧ P a b := by
  rcases h with ⟨rfl, -⟩ | ⟨rfl, -⟩ | ⟨rfl, -⟩ | ⟨a', b, rfl, hy, hab⟩
  · cases hx
  · cases hx
  · cases hx
  · cases hx
    exact ⟨b, hy, hab⟩

/-- What is meant is done where there are the slots for it. -/
theorem Sim.done {P : α → β → Prop} {b : β} (h : Sim need x y P) (hy : y = some (.ok b)) (hneed : need < 1000000) :
    ∃ a, x = some (.ok a) ∧ P a b := by
  rcases h with ⟨-, hover⟩ | ⟨-, rfl⟩ | ⟨-, rfl⟩ | ⟨a, b', rfl, rfl, hab⟩
  · omega
  · cases hy
  · cases hy
  · cases hy
    exact ⟨a, rfl, hab⟩

theorem Sim.bind {P : α → β → Prop} {Q : γ → δ → Prop} {f : α → Out γ} {g : β → Out δ} (h : Sim need x y P)
    (hf : ∀ a b, y = some (.ok b) → P a b → Sim need (f a) (g b) Q) : Sim need (x.bind f) (y.bind g) Q := by
  rcases h with ⟨rfl, hneed⟩ | ⟨rfl, rfl⟩ | ⟨rfl, rfl⟩ | ⟨a, b, rfl, rfl, hab⟩
  · exact .inl ⟨rfl, hneed⟩
  · exact .inr (.inl ⟨rfl, rfl⟩)
  · exact .inr (.inr (.inl ⟨rfl, rfl⟩))
  · exact hf a b rfl hab

theorem Sim.map {P : α → β → Prop} {Q : γ → β → Prop} {f : α → Out γ} (h : Sim need x y P)
    (hf : ∀ a b, P a b → Sim need (f a) (some (.ok b)) Q) : Sim need (x.bind f) y Q := by
  rcases h with ⟨rfl, hneed⟩ | ⟨rfl, rfl⟩ | ⟨rfl, rfl⟩ | ⟨a, b, rfl, rfl, hab⟩
  · exact .inl ⟨rfl, hneed⟩
  · exact .inr (.inl ⟨rfl, rfl⟩)
  · exact .inr (.inr (.inl ⟨rfl, rfl⟩))
  · exact hf a b hab

end

/-! ## Upvalues -/

section

variable {σ V : Type} {st st' st'' : State σ V}

/-- The open upvalues are of slots below, one of each. -/
structure Opens (i : Nat) (st : State σ V) : Prop where
  used : ∀ u s, st.upvals u = .opened s → u < st.nupvals
  below : ∀ u s, st.upvals u = .opened s → s < i
  distinct : ∀ u u' s, st.upvals u = .opened s → st.upvals u' = .opened s → u = u'

/-- The slots below are kept, but for those of open upvalues, which stay open. -/
structure Kept (i : Nat) (st st' : State σ V) : Prop where
  opened : ∀ u, ∀ s < i, st'.upvals u = .opened s ↔ st.upvals u = .opened s
  slots : ∀ j < i, (∀ u, st.upvals u ≠ .opened j) → st'.slots j = st.slots j

theorem Kept.refl (i : Nat) (st : State σ V) : Kept i st st := ⟨fun _ _ _ => Iff.rfl, fun _ _ _ => rfl⟩

theorem Kept.trans {i : Nat} (h : Kept i st st') (h' : Kept i st' st'') : Kept i st st'' :=
  ⟨fun u s hs => (h'.opened u s hs).trans (h.opened u s hs), fun j hj hopen =>
    (h'.slots j hj fun u hu => hopen u ((h.opened u j hj).mp hu)).trans (h.slots j hj hopen)⟩

theorem Kept.mono {i i' : Nat} (h : Kept i st st') (hle : i' ≤ i) : Kept i' st st' :=
  ⟨fun u s hs => h.opened u s (hs.trans_le hle), fun j hj => h.slots j (hj.trans_le hle)⟩

theorem Opens.mono {i i' : Nat} (h : Opens i st) (hle : i ≤ i') : Opens i' st :=
  ⟨h.used, fun u s hu => (h.below u s hu).trans_le hle, h.distinct⟩

/-- No upvalue is opened above. -/
theorem Opens.keep {i i' : Nat} (h : Opens i st) (hkept : Kept i' st st') (hopens : Opens i' st') : Opens i st' :=
  ⟨hopens.used, fun u s hu => h.below u s ((hkept.opened u s (hopens.below u s hu)).mp hu), hopens.distinct⟩

theorem captured_iff {i : Nat} (h : Opens i st) (j : Nat) : st.captured j = true ↔ ∃ u, st.upvals u = .opened j := by
  rw [State.captured, List.any_eq_true]
  constructor
  · rintro ⟨u, -, hu⟩
    refine ⟨u, ?_⟩
    cases hup : st.upvals u with
    | opened s =>
      rw [hup] at hu
      rw [of_decide_eq_true hu]
    | closed v =>
      rw [hup] at hu
      cases hu
  · rintro ⟨u, hu⟩
    refine ⟨u, List.mem_range.mpr (h.used u j hu), ?_⟩
    rw [hu]
    exact decide_eq_true rfl

/-- The heap and the slots from `i` on may change. -/
structure Writes (i : Nat) (st st' : State σ V) : Prop where
  upvals : st'.upvals = st.upvals
  nupvals : st'.nupvals = st.nupvals
  slots : ∀ j < i, st'.slots j = st.slots j

theorem Writes.kept {i : Nat} (h : Writes i st st') : Kept i st st' :=
  ⟨fun u s _ => by rw [h.upvals], fun j hj _ => h.slots j hj⟩

theorem Writes.opens {i i' : Nat} (h : Writes i st st') (hopens : Opens i' st) : Opens i' st' :=
  ⟨fun u s hu => h.nupvals ▸ hopens.used u s (h.upvals ▸ hu), fun u s hu => hopens.below u s (h.upvals ▸ hu),
    fun u u' s hu hu' => hopens.distinct u u' s (h.upvals ▸ hu) (h.upvals ▸ hu')⟩

theorem world_eq (hup : st'.upvals = st.upvals) (hn : st'.nupvals = st.nupvals)
    (hslots : ∀ u s, st.upvals u = .opened s → st'.slots s = st.slots s) :
    st'.world = { st.world with heap := st'.heap } := by
  rw [State.world, hup, hn]
  congr 1
  funext u
  show (st.upvals u).get st'.slots = (st.upvals u).get st.slots
  cases hu : st.upvals u with
  | opened s => exact hslots u s hu
  | closed v => rfl

theorem Writes.world {i : Nat} (h : Writes i st st') (hopens : Opens i st) :
    st'.world = { st.world with heap := st'.heap } :=
  world_eq h.upvals h.nupvals fun u s hu => h.slots s (hopens.below u s hu)

theorem Writes.trans {i : Nat} (h : Writes i st st') (h' : Writes i st' st'') : Writes i st st'' :=
  ⟨h'.upvals.trans h.upvals, h'.nupvals.trans h.nupvals, fun j hj => (h'.slots j hj).trans (h.slots j hj)⟩

theorem Writes.mono {i i' : Nat} (h : Writes i st st') (hle : i' ≤ i) : Writes i' st st' :=
  ⟨h.upvals, h.nupvals, fun j hj => h.slots j (hj.trans_le hle)⟩

/-- A closed upvalue has the value that its slot had. -/
theorem closeupval_of_opened {st : State σ V} {u s : Nat} (h : st.upvals u = .opened s) (level : Nat) :
    (st.luaF_closeupval level).upvals u = if level ≤ s then .closed (st.slots s) else .opened s := by
  simp only [State.luaF_closeupval, h]

theorem closeupval_of_closed {st : State σ V} {u : Nat} {v : V} (h : st.upvals u = .closed v) (level : Nat) :
    (st.luaF_closeupval level).upvals u = .closed v := by
  simp only [State.luaF_closeupval, h]

theorem closeupval_world (st : State σ V) (level : Nat) : (st.luaF_closeupval level).world = st.world := by
  rw [State.world, State.world]
  congr 1
  funext u
  cases hu : st.upvals u with
  | opened s =>
    rw [closeupval_of_opened hu]
    split_ifs <;> rfl
  | closed v =>
    rw [closeupval_of_closed hu]
    rfl

theorem closeupval_opened (st : State σ V) (level u s : Nat) :
    (st.luaF_closeupval level).upvals u = .opened s ↔ st.upvals u = .opened s ∧ s < level := by
  cases hu : st.upvals u with
  | opened s' =>
    rw [closeupval_of_opened hu]
    split_ifs with hle
    · constructor
      · intro heq
        cases heq
      · rintro ⟨heq, hlt⟩
        cases heq
        omega
    · constructor
      · intro heq
        cases heq
        exact ⟨rfl, by omega⟩
      · rintro ⟨heq, -⟩
        exact heq
  | closed v =>
    rw [closeupval_of_closed hu]
    constructor
    · intro heq
      cases heq
    · rintro ⟨heq, -⟩
      cases heq

theorem closeupval_kept (st : State σ V) (level : Nat) : Kept level st (st.luaF_closeupval level) :=
  ⟨fun u s hs => (closeupval_opened st level u s).trans (and_iff_left hs), fun _ _ _ => rfl⟩

/-- The open upvalues of a frame are of its captured registers, and the others of slots below the frame. -/
structure Shares (fn base k : Nat) (env : Env) (st : State σ V) : Prop where
  used : ∀ u s, st.upvals u = .opened s → u < st.nupvals
  opened : ∀ u s, st.upvals u = .opened s → s < fn ∨ ∃ r < k, s = base + r ∧ env r = some u
  env : ∀ r u, env r = some u → st.upvals u = .opened (base + r)
  distinct : ∀ u u' s, st.upvals u = .opened s → st.upvals u' = .opened s → u = u'

variable {fn base k : Nat} {env : Env}

theorem Shares.opens (h : Shares fn base k env st) (hfn : fn ≤ base) {i : Nat} (hi : base + k ≤ i) : Opens i st := by
  refine ⟨h.used, fun u s hu => ?_, h.distinct⟩
  rcases h.opened u s hu with hlow | ⟨r, hr, rfl, -⟩ <;> omega

/-- A call in a frame keeps its captured registers. -/
theorem Shares.keep (h : Shares fn base k env st) (hfn : fn ≤ base) {i : Nat} (hi : base + k ≤ i)
    (hkept : Kept i st st') (hopens : Opens i st') : Shares fn base k env st' := by
  refine ⟨hopens.used, fun u s hu => h.opened u s ((hkept.opened u s (hopens.below u s hu)).mp hu),
    fun r u hr => ?_, hopens.distinct⟩
  have hu := h.env r u hr
  refine (hkept.opened u _ ?_).mpr hu
  rcases h.opened u _ hu with hlow | ⟨r', hr', heq, -⟩ <;> omega

/-- The frame is given up once its upvalues are closed. -/
theorem Shares.closed (h : Shares fn base k env st) : Opens fn (st.luaF_closeupval base) := by
  have hopened {u s : Nat} (hu : (st.luaF_closeupval base).upvals u = .opened s) : st.upvals u = .opened s ∧ s < base :=
    (closeupval_opened st base u s).mp hu
  refine ⟨fun u s hu => h.used u s (hopened hu).1, fun u s hu => ?_, fun u u' s hu hu' =>
    h.distinct u u' s (hopened hu).1 (hopened hu').1⟩
  obtain ⟨hu, hlt⟩ := hopened hu
  rcases h.opened u s hu with hlow | ⟨r, -, rfl, -⟩
  · exact hlow
  · omega

theorem Shares.mono (h : Shares fn base k env st) {k' : Nat} (hk : k ≤ k') : Shares fn base k' env st :=
  ⟨h.used, fun u s hu => (h.opened u s hu).imp id fun ⟨r, hr, heq⟩ => ⟨r, hr.trans_le hk, heq⟩, h.env, h.distinct⟩

theorem write_world {u s : Nat} (hu : st.upvals u = .opened s)
    (hdistinct : ∀ u u' s, st.upvals u = .opened s → st.upvals u' = .opened s → u = u') (v : V) :
    ({ st with slots := Function.update st.slots s v } : State σ V).world =
      { st.world with vars := Function.update st.world.vars u v } := by
  show World.mk _ _ _ = World.mk _ _ _
  congr 1
  funext u'
  show (st.upvals u').get (Function.update st.slots s v) = Function.update st.world.vars u v u'
  by_cases heq : u' = u
  · rw [heq, Function.update_self, hu]
    exact Function.update_self ..
  · rw [Function.update_of_ne heq]
    show _ = (st.upvals u').get st.slots
    cases hu' : st.upvals u' with
    | opened s' =>
      refine Function.update_of_ne ?_ ..
      rintro rfl
      exact heq (hdistinct u' u s' hu' hu)
    | closed v => rfl

theorem write_kept {u s : Nat} (hu : st.upvals u = .opened s) (i : Nat) (v : V) :
    Kept i st { st with slots := Function.update st.slots s v } := by
  refine ⟨fun _ _ _ => Iff.rfl, fun j _ hopen => Function.update_of_ne ?_ ..⟩
  rintro rfl
  exact hopen u hu

/-- What a function does to the variables. -/
theorem Shares.act (h : Shares fn base k env st) (hfn : fn ≤ base) (a : Act V) :
    Shares fn base (a.bound k) (st.world.act env a).1 (st.act base a) ∧
      (st.act base a).world = (st.world.act env a).2 ∧ Kept base st (st.act base a) ∧
      (st.act base a).top = st.top := by
  cases a with
  | setupval u v =>
    cases hu : st.upvals u with
    | opened s =>
      rw [show st.act base (.setupval u v) = { st with slots := Function.update st.slots s v } by rw [State.act, hu]]
      exact ⟨⟨h.used, h.opened, h.env, h.distinct⟩, write_world hu h.distinct v, write_kept hu base v, rfl⟩
    | closed w =>
      rw [show st.act base (.setupval u v) = { st with upvals := Function.update st.upvals u (.closed v) } by
        rw [State.act, hu]]
      have hopened {u' s : Nat} :
          Function.update st.upvals u (.closed v) u' = .opened s ↔ st.upvals u' = .opened s := by
        by_cases heq : u' = u
        · rw [heq, Function.update_self, hu]
          exact iff_of_false nofun nofun
        · rw [Function.update_of_ne heq]
      refine ⟨⟨fun u' s hs => h.used u' s (hopened.mp hs), fun u' s hs => h.opened u' s (hopened.mp hs),
        fun r u' hr => hopened.mpr (h.env r u' hr), fun u' u'' s hs hs' =>
          h.distinct u' u'' s (hopened.mp hs) (hopened.mp hs')⟩, ?_, ⟨fun u' s _ => hopened, fun _ _ _ => rfl⟩, rfl⟩
      show World.mk _ _ _ = World.mk _ _ _
      congr 1
      funext u'
      show (Function.update st.upvals u (.closed v) u').get st.slots = Function.update st.world.vars u v u'
      by_cases heq : u' = u
      · rw [heq, Function.update_self, Function.update_self]
        rfl
      · rw [Function.update_of_ne heq, Function.update_of_ne heq]
        rfl
  | capture r v =>
    have hcaptured := captured_iff (h.opens hfn (Nat.le_refl _)) (base + r)
    have henv {u : Nat} (hu : st.upvals u = .opened (base + r)) : env r = some u := by
      rcases h.opened u _ hu with hlow | ⟨r', -, heq, hr'⟩
      · omega
      · rwa [show r = r' by omega]
    have hsame : ({ st with slots := Function.update st.slots (base + r) v } : State σ V).captured (base + r) =
        st.captured (base + r) := rfl
    rw [show st.act base (.capture r v) =
      ({ st with slots := Function.update st.slots (base + r) v } : State σ V).luaF_findupval (base + r) from rfl,
      State.luaF_findupval, hsame, World.act]
    cases hr : env r with
    | some u =>
      have hu := h.env r u hr
      rw [if_pos (hcaptured.mpr ⟨u, hu⟩)]
      exact ⟨⟨h.used, (h.mono (Nat.le_max_left k (r + 1))).opened, h.env, h.distinct⟩, write_world hu h.distinct v,
        write_kept hu base v, rfl⟩
    | none =>
      have hfresh (u : Nat) (hu : st.upvals u = .opened (base + r)) : False := by
        rw [henv hu] at hr
        cases hr
      rw [if_neg fun hc => (hcaptured.mp hc).elim hfresh]
      dsimp only
      have hopened {u' s : Nat} : Function.update st.upvals st.nupvals (.opened (base + r)) u' = .opened s ↔
          u' = st.nupvals ∧ s = base + r ∨ st.upvals u' = .opened s := by
        by_cases heq : u' = st.nupvals
        · rw [heq, Function.update_self]
          refine ⟨fun hs => .inl ⟨rfl, by cases hs; rfl⟩, fun hs => ?_⟩
          rcases hs with ⟨-, rfl⟩ | hs
          · rfl
          · exact absurd (h.used _ _ hs) (Nat.lt_irrefl _)
        · rw [Function.update_of_ne heq]
          exact ⟨.inr, fun hs => hs.resolve_left fun hnew => heq hnew.1⟩
      refine ⟨⟨fun u' s hs => ?_, fun u' s hs => ?_, fun r' u' hr' => hopened.mpr ?_, fun u' u'' s hs hs' => ?_⟩, ?_,
        ⟨fun u' s hs => hopened.trans ⟨fun hor => ?_, .inr⟩, fun j hj _ => Function.update_of_ne (by omega) ..⟩, rfl⟩
      · rcases hopened.mp hs with ⟨rfl, -⟩ | hs
        · exact Nat.lt_succ_self _
        · exact Nat.lt_succ_of_lt (h.used u' s hs)
      · rcases hopened.mp hs with ⟨rfl, rfl⟩ | hold
        · exact .inr ⟨r, Nat.lt_of_lt_of_le (Nat.lt_succ_self r) (Nat.le_max_right _ _), rfl, Function.update_self ..⟩
        · rcases h.opened u' s hold with hlow | ⟨r', hlt, rfl, hr'⟩
          · exact .inl hlow
          · refine .inr ⟨r', Nat.lt_of_lt_of_le hlt (Nat.le_max_left _ _), rfl, ?_⟩
            rw [Function.update_of_ne, hr']
            rintro rfl
            exact hfresh u' hold
      · by_cases heq : r' = r
        · rw [heq, Function.update_self] at hr'
          exact .inl ⟨(Option.some.inj hr').symm, heq ▸ rfl⟩
        · rw [Function.update_of_ne heq] at hr'
          exact .inr (h.env r' u' hr')
      · rcases hopened.mp hs with ⟨rfl, rfl⟩ | hs <;> rcases hopened.mp hs' with ⟨rfl, hnew⟩ | hs'
        · rfl
        · exact (hfresh u'' hs').elim
        · exact (hfresh u' (hnew ▸ hs)).elim
        · exact h.distinct u' u'' s hs hs'
      · show World.mk _ _ _ = World.mk _ _ _
        congr 1
        funext u'
        show (Function.update st.upvals st.nupvals (.opened (base + r)) u').get
          (Function.update st.slots (base + r) v) = Function.update st.world.vars st.nupvals v u'
        by_cases heq : u' = st.nupvals
        · rw [heq, Function.update_self, Function.update_self]
          exact Function.update_self ..
        · rw [Function.update_of_ne heq, Function.update_of_ne heq]
          show _ = (st.upvals u').get st.slots
          cases hu' : st.upvals u' with
          | opened s =>
            refine Function.update_of_ne ?_ ..
            rintro rfl
            exact hfresh u' hu'
          | closed w => rfl
      · rcases hor with ⟨-, rfl⟩ | hs
        · omega
        · exact hs
  | close r =>
    have hopened {u s : Nat} := closeupval_opened st (base + r) u s
    refine ⟨⟨fun u s hs => h.used u s (hopened.mp hs).1, fun u s hs => ?_, fun r' u hr' => ?_, fun u u' s hs hs' =>
      h.distinct u u' s (hopened.mp hs).1 (hopened.mp hs').1⟩, closeupval_world st _,
      (closeupval_kept st (base + r)).mono (Nat.le_add_right ..), rfl⟩
    · obtain ⟨hs, hlt⟩ := hopened.mp hs
      rcases h.opened u s hs with hlow | ⟨r', hr', rfl, henv⟩
      · exact .inl hlow
      · refine .inr ⟨r', Nat.lt_min.mpr ⟨hr', by omega⟩, rfl, ?_⟩
        show (if r' < r then env r' else none) = some u
        rw [if_pos (by omega), henv]
    · have hr' : (if r' < r then env r' else none) = some u := hr'
      split_ifs at hr' with hlt
      exact hopened.mpr ⟨h.env r' u hr', by omega⟩

theorem Shares.acts (as : List (Act V)) (hfn : fn ≤ base) : ∀ {k : Nat} {env : Env} {st : State σ V},
    Shares fn base k env st → Shares fn base (bound k as) (st.world.acts env as).1 (st.acts base as) ∧
      (st.acts base as).world = (st.world.acts env as).2 ∧ Kept base st (st.acts base as) ∧
      (st.acts base as).top = st.top := by
  induction as with
  | nil => exact fun h => ⟨h, rfl, .refl _ _, rfl⟩
  | cons a as ih =>
    intro k env st h
    obtain ⟨h₁, hworld₁, hkept₁, htop₁⟩ := h.act hfn a
    obtain ⟨h', hworld', hkept', htop'⟩ := ih h₁
    rw [hworld₁] at h' hworld'
    exact ⟨h', hworld', hkept₁.trans hkept', htop'.trans htop₁⟩

end

/-! ## Steps -/

section

variable {σ V : Type} {st : State σ V} {need : Nat}

theorem growIf_spec (st : State σ V) (p : Bool) (n : Nat) (hneed : p = true → st.top + n ≤ need) :
    Does need (st.growIf p n) fun st' => ∃ size h, st' = { st with size := size, size_le := h } ∧
      (p = true → st.top + n ≤ size) ∧ (p = false → size = st.size) := by
  cases p with
  | false => exact .ok ⟨st.size, st.size_le, rfl, nofun, fun _ => rfl⟩
  | true =>
    have hneed := hneed rfl
    rw [State.growIf, if_pos rfl, State.luaD_growstack, if_neg (Nat.not_lt.mpr st.size_le)]
    by_cases hn : n < 1000000
    · rw [if_pos hn]
      dsimp only
      by_cases hnew : max (min (2 * st.size) 1000000) (st.top + n) ≤ 1000000
      · rw [dif_pos hnew]
        exact .ok ⟨_, hnew, rfl, fun _ => Nat.le_max_right _ _, nofun⟩
      · rw [dif_neg hnew]
        exact .inl ⟨rfl, by omega⟩
    · rw [if_neg hn]
      exact .inl ⟨rfl, by omega⟩

/-- Values are left from slot `i` on, and the slots below are kept. -/
structure Leaves (heap : σ) (i : Nat) (vs : List V) (st st' : State σ V) : Prop extends Writes i st st' where
  heap : st'.heap = heap
  values : At st'.slots i vs

/-- The values of the registers from slot `i` on, where those captured keep theirs. -/
structure Evals (heap : σ) (i : Nat) (vs : List V) (st st' : State σ V) : Prop extends Writes i st st' where
  heap : st'.heap = heap
  values : ∀ k x, vs[k]? = some x → (∀ u, st.upvals u ≠ .opened (i + k)) → st'.slots (i + k) = x
  captured : ∀ u s, st.upvals u = .opened s → st'.slots s = st.slots s

theorem eval_spec {l : Nat} (hopens : Opens l st) (heap : σ) (i : Nat) (vs : List V) (htop : st.top ≤ need)
    (hneed : i + vs.length ≤ need) :
    Does need (st.eval heap i vs) fun st' => Evals heap i vs st st' ∧ i + vs.length ≤ st'.size ∧ st'.top = st.top := by
  refine (growIf_spec st _ _ fun _ => by omega).bind fun st₁ ⟨size, hle, heq, hgrow, hkeep⟩ => ?_
  subst heq
  have hcaptured (j : Nat) := captured_iff hopens j
  refine .ok ⟨⟨⟨rfl, rfl, fun j hj => ?_⟩, rfl, fun k x hk hopen => ?_, fun u s hu => ?_⟩, ?_, rfl⟩
  · show (if st.captured j then st.slots j else put st.slots i vs j) = st.slots j
    rw [Coroutine.put_of_lt _ hj, ite_self]
  · show (if st.captured (i + k) then st.slots (i + k) else put st.slots i vs (i + k)) = x
    rw [if_neg fun hc => ((hcaptured _).mp hc).elim hopen]
    exact at_put st.slots i vs k x hk
  · show (if st.captured s then st.slots s else put st.slots i vs s) = st.slots s
    rw [if_pos ((hcaptured s).mpr ⟨u, hu⟩)]
  · show i + vs.length ≤ size
    by_cases hsize : st.size < i + vs.length
    · have := hgrow (decide_eq_true hsize)
      omega
    · have := hkeep (decide_eq_false hsize)
      omega

theorem open_spec {i : Nat} (hopens : Opens i st) (heap : σ) (vs : List V) (htop : st.top ≤ need)
    (hneed : i + vs.length ≤ need) :
    Does need (st.open heap i vs) fun st' => Leaves heap i vs st st' ∧ st'.top = i + vs.length ∧ st'.top ≤ st'.size :=
  (eval_spec hopens heap i vs htop hneed).bind fun _ ⟨h, hsize, _⟩ =>
    .ok ⟨⟨⟨h.upvals, h.nupvals, h.slots⟩, h.heap, fun k x hk => h.values k x hk fun u hu =>
      absurd (hopens.below u _ hu) (by omega)⟩, rfl, hsize⟩

/-- A metamethod is called with the value before its arguments. -/
theorem tryfuncTM_spec {func : Nat} {f tm : V} {args : List V} (h : At st.slots func (f :: args))
    (htop : st.top = func + 1 + args.length) (hneed : func + args.length + 2 ≤ need) :
    Does need (st.tryfuncTM func tm) fun st' => Leaves st.heap func (tm :: f :: args) st st' ∧
      st'.top = func + 1 + (f :: args).length ∧ st'.top ≤ st'.size := by
  refine (growIf_spec st _ _ fun _ => by omega).bind fun st₁ ⟨size, hle, heq, hgrow, hkeep⟩ => ?_
  subst heq
  obtain ⟨hin, hout⟩ := shift_spec func (st.top - func) st.slots
  refine .ok ⟨⟨⟨rfl, rfl, fun j hj => ?_⟩, rfl, at_cons.mpr ⟨Function.update_self .., fun k x hk => ?_⟩⟩, ?_, ?_⟩
  · show Function.update (shift st.slots func (st.top - func)) func tm j = _
    rw [Function.update_of_ne (by omega), hout j (.inl (by omega))]
  · obtain ⟨hlt, -⟩ := List.getElem?_eq_some_iff.mp hk
    rw [List.length_cons] at hlt
    show Function.update (shift st.slots func (st.top - func)) func tm (func + 1 + k) = x
    rw [Function.update_of_ne (by omega), hin k (by omega)]
    exact h k x hk
  · show st.top + 1 = _
    rw [htop, List.length_cons, Nat.add_assoc]
  · show st.top + 1 ≤ size
    by_cases hsize : st.size ≤ st.top + 1
    · exact hgrow (decide_eq_true hsize)
    · have := hkeep (decide_eq_false hsize)
      omega

variable {nil : V} {p : Proto}

/-- The frame of a Lua function at a slot, before `OP_VARARGPREP`: the arguments, filled up to the parameters. -/
structure Entry (nil : V) (p : Proto) (fn : Nat) (wanted : Arity) (args : List V) (st st' : State σ V) (ci : CallInfo) :
    Prop extends Writes fn st st' where
  heap : st'.heap = st.heap
  given : At st'.slots (fn + 1) (args ++ List.replicate (p.numparams - args.length) nil)
  top : st'.top = fn + 1 + args.length + (p.numparams - args.length)
  func : ci.func = fn
  limit : ci.top = fn + 1 + p.maxstacksize
  wanted : ci.nresults = wanted

theorem setup_lua_ci_spec {func : Nat} {f : V} {args : List V} (h : At st.slots func (f :: args))
    (htop : st.top = func + 1 + args.length) (wanted : Arity)
    (hneed : func + args.length + 2 * p.numparams + p.maxstacksize + 2 ≤ need) :
    Does need (st.setup_lua_ci nil func wanted p) fun r => Entry nil p func wanted args st r.1 r.2 := by
  refine (growIf_spec st _ _ fun _ => by omega).bind fun st₁ ⟨size, hle, heq, _, _⟩ => ?_
  subst heq
  have hnarg : st.top - func - 1 = args.length := by omega
  rw [hnarg]
  refine .ok ⟨⟨rfl, rfl, fun j hj => ?_⟩, rfl,
    at_append.mpr ⟨(at_cons.mp h).2.congr fun j _ hj => ?_, ?_⟩, ?_, rfl, rfl,
    rfl⟩
  · exact Coroutine.put_of_lt _ (show j < st.top by omega)
  · exact Coroutine.put_of_lt _ (show j < st.top by omega)
  · show At (put st.slots st.top _) _ _
    rw [htop]
    exact at_put _ _ _
  · show st.top + _ = _
    rw [htop]

theorem setup_tailcall_ci_spec {ci : CallInfo} {func delta : Nat} {f : V} {args : List V}
    (h : At st.slots func (f :: args)) (htop : st.top = func + 1 + args.length) (hsize : st.top ≤ st.size)
    (hfunc : ci.func ≤ func) (hdelta : delta ≤ ci.func)
    (hneed : func + args.length + 2 * p.numparams + p.maxstacksize + 2 ≤ need) :
    Does need (st.setup_tailcall_ci nil ci func (args.length + 1) delta p) fun r =>
      Entry nil p (ci.func - delta) ci.nresults args st r.1 r.2 := by
  have hroom : Does need (if (st.size : Int) - st.top ≤ p.maxstacksize - delta then
      if p.maxstacksize < delta then some (.error .panic) else st.luaD_growstack (p.maxstacksize - delta)
      else some (.ok st)) fun st' => ∃ size h, st' = { st with size := size, size_le := h } := by
    by_cases hfull : (st.size : Int) - st.top ≤ p.maxstacksize - delta
    · rw [if_pos hfull, if_neg (by omega)]
      exact (growIf_spec st true (p.maxstacksize - delta) fun _ => by omega).imp
        fun st' ⟨size, hle, heq, _⟩ => ⟨size, hle, heq⟩
    · rw [if_neg hfull]
      exact .ok ⟨st.size, st.size_le, rfl⟩
  refine hroom.bind fun st₁ ⟨size, hle, heq⟩ => ?_
  subst heq
  obtain ⟨hin, hout⟩ := Coroutine.copy_spec st.slots (show ci.func - delta ≤ func by omega) (args.length + 1)
  have hmissing : p.numparams + 1 - (args.length + 1) = p.numparams - args.length := by omega
  refine .ok ⟨⟨rfl, rfl, fun j hj => ?_⟩, rfl, at_append.mpr ⟨fun k x hk => ?_, ?_⟩, ?_, rfl, rfl, rfl⟩
  · show put _ (ci.func - delta + (args.length + 1)) _ j = _
    rw [Coroutine.put_of_lt _ (by omega), hout j (.inl hj)]
  · obtain ⟨hlt, -⟩ := List.getElem?_eq_some_iff.mp hk
    show put _ (ci.func - delta + (args.length + 1)) _ (ci.func - delta + 1 + k) = x
    rw [Coroutine.put_of_lt _ (by omega), Nat.add_assoc, hin (1 + k) (by omega), Nat.add_comm 1 k]
    exact h (k + 1) x hk
  · show At (put _ (ci.func - delta + (args.length + 1)) _) _ _
    rw [hmissing, show ci.func - delta + 1 + args.length = ci.func - delta + (args.length + 1) by omega]
    exact at_put _ _ _
  · show ci.func - delta + (args.length + 1) + (p.numparams + 1 - (args.length + 1)) = _
    omega

/-- The frame of a Lua function: the slot of the call, the extra arguments and the captured registers. -/
structure Frame (p : Proto) (ci : CallInfo) (fn : Nat) (extra : List V) (k : Nat) (env : Env) (st : State σ V) :
    Prop where
  delta : ci.delta p ≤ ci.func
  func : ci.func - ci.delta p = fn
  limit : ci.top = ci.func + 1 + p.maxstacksize
  extra : st.varargs ci p = extra
  shares : Shares fn (ci.func + 1) k env st

variable {ci : CallInfo} {fn k : Nat} {extra : List V} {env : Env}

theorem Frame.le (h : Frame p ci fn extra k env st) : fn ≤ ci.func + 1 :=
  h.func ▸ (Nat.sub_le ..).trans (Nat.le_succ _)

/-- The extra arguments of a frame are below its base. -/
theorem Frame.keep (h : Frame p ci fn extra k env st) {st' : State σ V} (hkept : Kept (ci.func + 1) st st') {k' : Nat}
    {env' : Env} (hshares : Shares fn (ci.func + 1) k' env' st') : Frame p ci fn extra k' env' st' := by
  have hdelta := h.delta
  have hfn := h.func
  refine ⟨hdelta, hfn, h.limit, ?_, hshares⟩
  rw [← h.extra, State.varargs, State.varargs]
  rw [CallInfo.delta] at hdelta hfn
  split_ifs at hdelta hfn ⊢ with hvararg
  · apply List.ext_getElem (by rw [Coroutine.length_slice, Coroutine.length_slice])
    intro k hk _
    rw [Coroutine.length_slice] at hk
    rw [Coroutine.getElem_slice, Coroutine.getElem_slice]
    refine hkept.slots _ (by omega) fun u hu => ?_
    rcases h.shares.opened u _ hu with hlow | ⟨r, -, heq, -⟩ <;> omega
  · rfl

/-- The parameters and the extra arguments of a call. -/
theorem params_eq (nil : V) (n : Nat) (args : List V) :
    (args ++ List.replicate (n - args.length) nil).take n = adjust nil (some n) args ∧
      (args ++ List.replicate (n - args.length) nil).drop n = args.drop n := by
  constructor
  · rw [adjust, List.take_append]
    congr 1
    rw [List.take_of_length_le (by rw [List.length_replicate])]
  · rw [List.drop_append, show (List.replicate (n - args.length) nil).drop (n - args.length) = [] from
      List.drop_of_length_le (by rw [List.length_replicate]), List.append_nil]

/-- The function has exactly its arguments: the first in its parameters, and the others behind. -/
theorem prepare_spec {wanted : Arity} {args : List V} {st₀ : State σ V} (h : Entry nil p fn wanted args st₀ st ci)
    (hopens : Opens fn st₀) (hneed : fn + args.length + 2 * p.numparams + p.maxstacksize + 2 ≤ need) :
    Does need (st.prepare nil ci p) fun r =>
      Frame p r.2 fn (if p.is_vararg then args.drop p.numparams else []) 0 (fun _ => none) r.1 ∧ Writes fn st₀ r.1 ∧
        r.1.heap = st₀.heap ∧ slice r.1.slots (r.2.func + 1) p.numparams = adjust nil (some p.numparams) args ∧
        r.2.nresults = wanted ∧
        r.2.func = (if p.is_vararg then fn + 1 + args.length + (p.numparams - args.length) else fn) ∧
        r.1.top = (if p.is_vararg then fn + 1 + args.length + (p.numparams - args.length) + 1 + p.numparams
          else fn + 1 + args.length + (p.numparams - args.length)) := by
  have hshares {st' : State σ V} (hwrites : Writes fn st st') (base : Nat) :
      Shares fn base 0 (fun _ => none) st' :=
    have hopens' := hwrites.opens (h.toWrites.opens hopens)
    ⟨hopens'.used, fun u s hu => .inl (hopens'.below u s hu), nofun, hopens'.distinct⟩
  obtain ⟨htake, hdrop⟩ := params_eq nil p.numparams args
  obtain rfl := h.func
  have htop := h.top
  have hparams := h.given
  rw [← List.take_append_drop p.numparams (args ++ List.replicate (p.numparams - args.length) nil), htake,
    hdrop] at hparams
  obtain ⟨hfixed, hextra⟩ := at_append.mp hparams
  have hlen : (adjust nil (some p.numparams) args).length = p.numparams := Coroutine.length_adjust ..
  rw [hlen] at hextra
  rw [State.prepare]
  by_cases hvararg : p.is_vararg = true
  · rw [if_pos hvararg, if_pos hvararg]
    refine (growIf_spec st _ _ fun _ => by omega).bind fun st₁ ⟨size, hle, heq, _, _⟩ => ?_
    subst heq
    have hactual : st.top - ci.func - 1 = args.length + (p.numparams - args.length) := by omega
    rw [hactual]
    obtain ⟨-, hcopied, hkept⟩ := copyParams_spec nil st.slots ci.func st.top p.numparams (by omega)
    have hlimit := h.limit
    have hwrites : Writes ci.func st { st with
        slots := copyParams nil st.slots ci.func st.top p.numparams
        top := st.top + 1 + p.numparams
        size := size
        size_le := hle } := ⟨rfl, rfl, fun j hj => hkept j (.inl (by omega))⟩
    refine .ok ⟨⟨?_, ?_, ?_, ?_, hshares hwrites _⟩, h.toWrites.trans hwrites, h.heap, ?_, h.wanted, ?_, ?_⟩
    · rw [CallInfo.delta, if_pos hvararg]
      dsimp only
      omega
    · rw [CallInfo.delta, if_pos hvararg]
      dsimp only
      omega
    · dsimp only
      omega
    · rw [State.varargs, if_pos hvararg]
      dsimp only
      have hnextra : args.length + (p.numparams - args.length) - p.numparams = (args.drop p.numparams).length := by
        rw [List.length_drop]
        omega
      rw [hnextra, show ci.func + (args.length + (p.numparams - args.length)) + 1 - (args.drop p.numparams).length =
        ci.func + 1 + p.numparams by rw [← hnextra]; omega]
      refine (hextra.congr fun j hj hj' => hkept j (.inr ⟨by omega, ?_⟩)).slice_eq
      rw [← hnextra] at hj'
      omega
    · show slice (copyParams nil st.slots ci.func st.top p.numparams)
        (ci.func + (args.length + (p.numparams - args.length)) + 1 + 1) p.numparams = _
      rw [show ci.func + (args.length + (p.numparams - args.length)) + 1 + 1 = st.top + 1 by omega]
      have hat : At (copyParams nil st.slots ci.func st.top p.numparams) (st.top + 1)
          (adjust nil (some p.numparams) args) := by
        intro k x hk
        obtain ⟨hlt, -⟩ := List.getElem?_eq_some_iff.mp hk
        rw [hcopied k (by omega)]
        exact hfixed k x hk
      have hslice := hat.slice_eq
      rwa [hlen] at hslice
    · rw [if_pos hvararg]
      dsimp only
      omega
    · rw [if_pos hvararg]
      dsimp only
      omega
  · rw [if_neg hvararg, if_neg hvararg]
    refine .ok ⟨⟨?_, ?_, h.limit, ?_, hshares ⟨rfl, rfl, fun _ _ => rfl⟩ _⟩, h.toWrites, h.heap, ?_, h.wanted, ?_, ?_⟩
    · rw [CallInfo.delta, if_neg hvararg]
      exact Nat.zero_le _
    · rw [CallInfo.delta, if_neg hvararg]
      rfl
    · rw [State.varargs, if_neg hvararg]
    · have hslice := hfixed.slice_eq
      rwa [hlen] at hslice
    · rw [if_neg hvararg]
    · rw [if_neg hvararg]
      exact htop

/-- The caller finds the results from the slot of the call on, as many as wanted, the slots below as they were but for
those of variables, and no upvalue of the frame of the call. -/
structure Returned (nil : V) (fn : Nat) (wanted : Arity) (st st' : State σ V) (r : World σ V × List V) : Prop where
  world : st'.world = r.1
  top : st'.top = fn + (adjust nil wanted r.2).length
  values : At st'.slots fn (adjust nil wanted r.2)
  kept : Kept fn st st'
  opens : Opens fn st'

theorem Returned.results {wanted : Arity} {st' : State σ V} {r : World σ V × List V}
    (h : Returned nil fn wanted st st' r) : st'.results fn = adjust nil wanted r.2 := by
  rw [State.results, h.top, Nat.add_sub_cancel_left]
  exact h.values.slice_eq

/-- Values are returned from a state without upvalues of the frame. -/
theorem Returned.of_writes {wanted : Arity} {st₀ st' : State σ V} {vs : List V} (hkept : Kept fn st₀ st)
    (hopens : Opens fn st) (hwrites : Writes fn st st') (hheap : st'.heap = st.heap)
    (htop : st'.top = fn + (adjust nil wanted vs).length) (hvalues : At st'.slots fn (adjust nil wanted vs)) :
    Returned nil fn wanted st₀ st' (st.world, vs) :=
  ⟨(hwrites.world hopens).trans (by rw [hheap]; rfl), htop, hvalues, hkept.trans hwrites.kept, hwrites.opens hopens⟩

theorem poscall_spec (ci : CallInfo) {st₀ : State σ V} {vs : List V} (hkept : Kept ci.func st₀ st)
    (hopens : Opens ci.func st)
    (htop : ci.func + vs.length ≤ st.top) (h : At st.slots (st.top - vs.length) vs) :
    Returned nil ci.func ci.nresults st₀ (st.poscall nil ci vs.length) (st.world, vs) := by
  obtain ⟨htop', hslice, hkeep⟩ := Coroutine.moveresults_spec nil st.slots ci.nresults htop
  rw [h.slice_eq] at htop' hslice
  refine .of_writes hkept hopens ⟨rfl, rfl, hkeep⟩ rfl htop' ?_
  have hat := at_slice (moveresults nil st.slots st.top ci.func vs.length ci.nresults).1 ci.func
    ((moveresults nil st.slots st.top ci.func vs.length ci.nresults).2 - ci.func)
  rw [hslice] at hat
  exact hat

theorem return0_spec (nil : V) (ci : CallInfo) {st₀ : State σ V} (hkept : Kept ci.func st₀ st)
    (hopens : Opens ci.func st) :
    Returned nil ci.func ci.nresults st₀ (st.return0 nil ci) (st.world, []) := by
  have hnil : adjust nil ci.nresults [] = List.replicate (ci.nresults.getD 0) nil := by
    cases ci.nresults with
    | none => rfl
    | some n => rw [adjust, List.take_nil, List.nil_append, List.length_nil, Nat.sub_zero, Option.getD_some]
  refine .of_writes hkept hopens ⟨rfl, rfl, fun j hj => Coroutine.put_of_lt _ hj⟩ rfl ?_ ?_
  · rw [hnil, List.length_replicate]
    rfl
  · rw [hnil]
    exact at_put _ _ _

theorem return1_spec (nil : V) (ci : CallInfo) {st₀ : State σ V} (hkept : Kept ci.func st₀ st)
    (hopens : Opens ci.func st) {ra : Nat} {v : V}
    (h : st.slots (ci.func + 1 + ra) = v) :
    Returned nil ci.func ci.nresults st₀ (st.return1 nil ci ra) (st.world, [v]) := by
  rw [State.return1]
  by_cases hzero : ci.nresults = some 0
  · rw [if_pos hzero, hzero]
    exact .of_writes hkept hopens ⟨rfl, rfl, fun _ _ => rfl⟩ rfl rfl nofun
  · rw [if_neg hzero, h]
    have hone : adjust nil ci.nresults [v] = v :: List.replicate (ci.nresults.getD 0 - 1) nil := by
      cases hn : ci.nresults with
      | none => rfl
      | some n =>
        cases n with
        | zero => exact absurd hn hzero
        | succ n =>
          rw [adjust, List.take_succ_cons, List.take_nil]
          rfl
    refine .of_writes hkept hopens ⟨rfl, rfl, fun j hj => ?_⟩ rfl ?_ ?_
    · show put (Function.update st.slots ci.func v) (ci.func + 1) _ j = _
      rw [Coroutine.put_of_lt _ (by omega), Function.update_of_ne (by omega)]
    · rw [hone, List.length_cons, List.length_replicate]
      show ci.func + 1 + _ = _
      omega
    · rw [hone]
      refine at_cons.mpr ⟨?_, at_put _ _ _⟩
      show put (Function.update st.slots ci.func v) (ci.func + 1) _ ci.func = v
      rw [Coroutine.put_of_lt _ (Nat.lt_succ_self _), Function.update_self]

end

/-! ## Calls -/

section

variable {σ V : Type} {nil : V} {m : Machine σ V} {call : Apply σ V} {needs : Needs σ V} {need : Nat}

/-- Calls and tail calls of the machine do what calls of values mean, in the slots they need. -/
structure Exact (nil : V) (m : Machine σ V) (call : Apply σ V) (needs : Needs σ V) : Prop where
  calls : ∀ (st : State σ V) func f args wanted, At st.slots func (f :: args) → st.top = func + 1 + args.length →
    Opens func st →
    Sim (needs func func st.world f args) (m.call st func wanted) (call st.world f args) (Returned nil func wanted st)
  tails : ∀ (st : State σ V) (ci : CallInfo) func f args delta, At st.slots func (f :: args) →
    st.top = func + 1 + args.length → st.top ≤ st.size → ci.func ≤ func → delta ≤ ci.func →
    Opens (ci.func - delta) st →
    Sim (needs func (ci.func - delta) st.world f args) (m.tail st ci func (args.length + 1) delta)
      (call st.world f args) (Returned nil (ci.func - delta) ci.nresults st)

theorem Returned.after {fn : Nat} {wanted : Arity} {st₀ st st' : State σ V} {r : World σ V × List V}
    (h : Returned nil fn wanted st st' r) (hkept : Kept fn st₀ st) : Returned nil fn wanted st₀ st' r :=
  ⟨h.world, h.top, h.values, hkept.trans h.kept, h.opens⟩

/-- The methods are called with their objects, and keep the frame. -/
theorem closeAll_spec (hm : Exact nil m call needs) {fn : Nat} (l : List (V × V)) : ∀ st : State σ V, Opens fn st →
    fn ≤ st.top → needsClosing nil call needs st.top l st.world ≤ need →
    Sim need (closeAll nil m l st) (closing nil call l st.world) fun st' w =>
      st'.world = w ∧ Kept st.top st st' ∧ Opens fn st' := by
  induction l with
  | nil => exact fun st hopens _ _ => Sim.ok ⟨rfl, .refl _ _, hopens⟩
  | cons c l ih =>
    intro st hopens hfn hneed
    have hwrites : Writes st.top st { st with slots := put st.slots st.top [c.1, c.2, nil], top := st.top + 3 } :=
      ⟨rfl, rfl, fun j hj => Coroutine.put_of_lt _ hj⟩
    have hworld := hwrites.world (hopens.mono hfn)
    have hcall := hm.calls { st with slots := put st.slots st.top [c.1, c.2, nil], top := st.top + 3 } st.top c.1
      [c.2, nil] (some 0) (at_put _ _ _) rfl (hwrites.opens (hopens.mono hfn))
    rw [hworld] at hcall
    rw [needsClosing] at hneed
    refine (hcall.mono ((Nat.le_max_left _ _).trans hneed)).bind ?_
    rintro st₁ ⟨w, rs⟩ hy hret
    obtain rfl : st₁.world = w := hret.world
    have htop : st₁.top = st.top := by
      have htop := hret.top
      rwa [Coroutine.length_adjust] at htop
    have hkept := hwrites.kept.trans hret.kept
    have hopens₁ := hopens.keep hkept hret.opens
    have hrest := (Nat.le_max_right _ _).trans hneed
    rw [show call st.world c.1 [c.2, nil] = _ from hy, afterCall, ← htop] at hrest
    refine (ih st₁ hopens₁ (htop ▸ hfn) hrest).imp fun st' w' ⟨hworld', hkept', hopens'⟩ => ⟨hworld', ?_, hopens'⟩
    rw [htop] at hkept'
    exact hkept.trans hkept'

variable {p : Proto} {ci : CallInfo} {fn k : Nat} {extra : List V} {env : Env} {st : State σ V}

theorem Shares.opens_zero {base : Nat} (h : Shares fn base 0 env st) : Opens fn st :=
  ⟨h.used, fun u s hu => (h.opened u s hu).resolve_right fun ⟨r, hr, _⟩ => absurd hr (Nat.not_lt_zero r), h.distinct⟩

/-- A return: the variables are closed, and the results go to the slot of the call. -/
theorem ret_spec (hm : Exact nil m call needs) (hframe : Frame p ci fn extra k env st) {ra : Nat} {vs : List V}
    {l : List (V × V)} (h : At st.slots (ci.func + 1 + ra) vs)
    (htop : ci.func + 1 + ra + vs.length ≤ max st.top ci.top) (hclose : p.needclose = true ∨ l = [] ∧ k = 0)
    (hneed : needsClosing nil call needs (max st.top ci.top) l st.world ≤ need) :
    Sim need (st.ret nil m ci p ra vs.length l) ((closing nil call l st.world).bind fun w => some (.ok (w, vs)))
      (Returned nil fn ci.nresults st) := by
  have hfn := hframe.le
  have hclosed : Sim need (if p.needclose then
        closeAll nil m l (({ st with top := max st.top ci.top } : State σ V).luaF_closeupval (ci.func + 1))
      else some (.ok st)) (closing nil call l st.world) fun st' w => st'.world = w ∧ Kept fn st st' ∧ Opens fn st' ∧
        ∀ j, ci.func < j → j < ci.func + 1 + ra + vs.length → st'.slots j = st.slots j := by
    by_cases hclosing : p.needclose = true
    · rw [if_pos hclosing]
      have hshares : Shares fn (ci.func + 1) k env ({ st with top := max st.top ci.top } : State σ V) :=
        ⟨hframe.shares.used, hframe.shares.opened, hframe.shares.env, hframe.shares.distinct⟩
      have hopens := hshares.closed
      have hworld := closeupval_world ({ st with top := max st.top ci.top } : State σ V) (ci.func + 1)
      have hkept := closeupval_kept ({ st with top := max st.top ci.top } : State σ V) (ci.func + 1)
      have hlimit := hframe.limit
      have hrun := closeAll_spec hm l _ hopens (show fn ≤ max st.top ci.top by omega)
        (show needsClosing nil call needs (max st.top ci.top) l _ ≤ need by rw [hworld]; exact hneed)
      rw [hworld] at hrun
      refine hrun.imp fun st' w ⟨hw, hkept', hopens'⟩ => ⟨hw, ?_, hopens', fun j hj hj' => ?_⟩
      · have hfirst : Kept fn st (({ st with top := max st.top ci.top } : State σ V).luaF_closeupval (ci.func + 1)) :=
          ⟨fun u s hs => hkept.opened u s (by omega), fun _ _ _ => rfl⟩
        exact hfirst.trans (hkept'.mono (show fn ≤ max st.top ci.top by omega))
      · refine hkept'.slots j (show j < max st.top ci.top by omega) fun u hu => ?_
        have := hopens.below u j hu
        omega
    · rw [if_neg hclosing]
      obtain ⟨rfl, rfl⟩ := hclose.resolve_left hclosing
      exact Sim.ok ⟨rfl, .refl _ _, hframe.shares.opens_zero, fun _ _ _ => rfl⟩
  refine hclosed.bind fun st₁ w _ ⟨hworld, hkept, hopens, hsame⟩ => ?_
  subst hworld
  have hdelta := hframe.delta
  obtain rfl := hframe.func
  refine Sim.ok ?_
  have hkept' : Kept (ci.func - ci.delta p) st { st₁ with top := ci.func + 1 + ra + vs.length } :=
    ⟨hkept.opened, hkept.slots⟩
  refine poscall_spec ⟨ci.func - ci.delta p, ci.top, ci.nresults, ci.nextraargs⟩ hkept'
    ⟨hopens.used, hopens.below, hopens.distinct⟩ ?_ ?_
  · show ci.func - ci.delta p + vs.length ≤ ci.func + 1 + ra + vs.length
    omega
  · show At st₁.slots (ci.func + 1 + ra + vs.length - vs.length) vs
    rw [Nat.add_sub_cancel]
    exact h.congr fun j hj hj' => hsame j (by omega) hj'

/-- A return has the values of its registers and of the captured ones among them. -/
theorem values_spec {fn base k ra : Nat} {env : Env} {st st' : State σ V} {heap : σ} {vs : List V}
    (hshares : Shares fn base k env st) (hfn : fn ≤ base) (h : Evals heap (base + ra) vs st st') :
    At st'.slots (base + ra) (st.world.values env ra vs) := by
  intro j x hj
  rw [World.values, List.getElem?_mapIdx] at hj
  obtain ⟨v, hv, hx⟩ := Option.map_eq_some_iff.mp hj
  cases henv : env (ra + j) with
  | some u =>
    rw [henv] at hx
    have hu := hshares.env _ u henv
    rw [← Nat.add_assoc] at hu
    rw [h.captured u _ hu, ← hx]
    show _ = (st.upvals u).get st.slots
    rw [hu]
    rfl
  | none =>
    rw [henv] at hx
    rw [← hx]
    refine h.values j v hv fun u hu => ?_
    rcases hshares.opened u _ hu with hlow | ⟨r, -, heq, hr⟩
    · omega
    · rw [show r = ra + j by omega, henv] at hr
      cases hr

theorem length_values (w : World σ V) (env : Env) (ra : Nat) (vs : List V) : (w.values env ra vs).length = vs.length :=
  List.length_mapIdx

/-- A Lua function returns its results to the slot of its call, and calls and tail calls do what they mean. -/
theorem runLua_spec (hm : Exact nil m call needs) (c : Code σ V p k) : ∀ {env : Env} {st : State σ V},
    Frame p ci fn extra k env st → st.top ≤ need →
    needsLua nil call needs p extra fn ci.func c st.top env st.world ≤ need →
    Sim need (runLua nil m p ci c st) (evalLua nil call p extra c env st.world) (Returned nil fn ci.nresults st) := by
  induction c with
  | ret acts heap ra vs opened l fits close =>
    intro env st hframe htop hneed
    obtain ⟨hshares, hworld, hkept, htop₁⟩ := hframe.shares.acts acts hframe.le
    have hfn := hframe.le
    rw [needsLua] at hneed
    rw [runLua, evalLua]
    generalize st.world.acts env acts = r at *
    obtain ⟨env₁, w₁⟩ := r
    dsimp only at hworld hshares hneed ⊢
    have hframe₁ := hframe.keep hkept hshares
    generalize st.acts (ci.func + 1) acts = st₁ at *
    subst hworld
    have hlast := (Nat.le_max_left _ _).trans hneed
    have hopens := hshares.opens hfn (Nat.le_refl _)
    have hleft : Does need (if opened then st₁.open heap (ci.func + 1 + ra) vs else st₁.eval heap (ci.func + 1 + ra) vs)
        fun st' => Evals heap (ci.func + 1 + ra) vs st₁ st' ∧ ci.func + 1 + ra + vs.length ≤ max st'.top ci.top ∧
          st'.top = if opened then ci.func + 1 + ra + vs.length else st.top := by
      have heval := eval_spec hopens heap (ci.func + 1 + ra) vs (htop₁ ▸ htop) hlast
      cases opened with
      | true =>
        exact heval.bind fun st' ⟨h, _, _⟩ =>
          .ok ⟨⟨⟨h.upvals, h.nupvals, h.slots⟩, h.heap, h.values, h.captured⟩, Nat.le_max_left _ _, rfl⟩
      | false =>
        have hfits := fits.resolve_left (by decide)
        have hlimit := hframe.limit
        exact heval.imp fun st' ⟨h, _, htop'⟩ => ⟨h, by omega, htop'.trans htop₁⟩
    refine hleft.sim fun st₂ ⟨hevals, htop₂, htop₂'⟩ => ?_
    have hworld₂ : st₂.world = { st₁.world with heap := heap } := by
      rw [world_eq hevals.upvals hevals.nupvals hevals.captured, hevals.heap]
    have hkept₂ : Kept (ci.func + 1) st₁ st₂ := (hevals.toWrites.mono (Nat.le_add_right _ _)).kept
    have hshares₂ : Shares fn (ci.func + 1) _ env₁ st₂ :=
      ⟨fun u s hu => hevals.nupvals ▸ hshares.used u s (hevals.upvals ▸ hu),
        fun u s hu => hshares.opened u s (hevals.upvals ▸ hu), fun r u hr => hevals.upvals ▸ hshares.env r u hr,
        fun u u' s hu hu' => hshares.distinct u u' s (hevals.upvals ▸ hu) (hevals.upvals ▸ hu')⟩
    have hframe₂ := hframe₁.keep hkept₂ hshares₂
    have hvalues := values_spec hshares hfn hevals
    have hlen := length_values st₁.world env₁ ra vs
    have hbefore : Kept fn st st₂ := (hkept.trans hkept₂).mono hfn
    have hfunc (hvararg : p.is_vararg = false) : ci.func = fn := by
      have := hframe.func
      rwa [CallInfo.delta, if_neg (by rw [hvararg]; decide), Nat.sub_zero] at this
    generalize hvs : st₁.world.values env₁ ra vs = ws at *
    by_cases hzero : opened = false ∧ p.needclose = false ∧ p.is_vararg = false ∧ vs.length = 0
    · rw [if_pos hzero]
      obtain ⟨-, hclose, hvararg, hnone⟩ := hzero
      obtain ⟨rfl, hbound⟩ := close.resolve_left (by rw [hclose]; decide)
      rw [hbound] at hshares₂
      obtain rfl := List.eq_nil_of_length_eq_zero (hlen.trans hnone)
      have hret := return0_spec nil ci ((hfunc hvararg).symm ▸ hbefore)
        ((hfunc hvararg).symm ▸ hshares₂.opens_zero)
      rw [hworld₂, hfunc hvararg] at hret
      exact Sim.ok hret
    rw [if_neg hzero]
    by_cases hone : opened = false ∧ p.needclose = false ∧ p.is_vararg = false ∧ vs.length = 1
    · rw [if_pos hone]
      obtain ⟨-, hclose, hvararg, hsingle⟩ := hone
      obtain ⟨rfl, hbound⟩ := close.resolve_left (by rw [hclose]; decide)
      rw [hbound] at hshares₂
      obtain ⟨v, rfl⟩ := List.length_eq_one_iff.mp (hlen.trans hsingle)
      have hret := return1_spec nil ci ((hfunc hvararg).symm ▸ hbefore)
        ((hfunc hvararg).symm ▸ hshares₂.opens_zero) (hvalues 0 v rfl)
      rw [hworld₂, hfunc hvararg] at hret
      exact Sim.ok hret
    · rw [if_neg hone, ← hworld₂, ← hlen]
      have hlimit := hframe.limit
      refine (ret_spec hm hframe₂ hvalues (hlen ▸ htop₂) close ?_).imp fun _ _ h => h.after hbefore
      rw [htop₂', hworld₂, hlimit]
      exact (Nat.le_max_right _ _).trans hneed
  | call acts heap ra f args wanted above next ih =>
    intro env st hframe htop hneed
    obtain ⟨hshares, hworld, hkept, htop₁⟩ := hframe.shares.acts acts hframe.le
    have hfn := hframe.le
    rw [needsLua] at hneed
    rw [runLua, evalLua]
    generalize st.world.acts env acts = r at *
    obtain ⟨env₁, w₁⟩ := r
    dsimp only at hworld hshares hneed ⊢
    have hframe₁ := hframe.keep hkept hshares
    generalize st.acts (ci.func + 1) acts = st₁ at *
    subst hworld
    have habove : ci.func + 1 + bound _ acts ≤ ci.func + 1 + ra := Nat.add_le_add_left above _
    have hopens := hshares.opens hfn habove
    refine (open_spec hopens heap (f :: args) (htop₁ ▸ htop) ((Nat.le_max_left _ _).trans hneed)).sim
      fun st₂ ⟨hleaves, htop₂, _⟩ => ?_
    have hworld₂ : st₂.world = { st₁.world with heap := heap } := by
      rw [hleaves.toWrites.world hopens, hleaves.heap]
    have hrest := (Nat.le_max_right _ _).trans hneed
    rw [← hworld₂] at hrest ⊢
    refine ((hm.calls st₂ (ci.func + 1 + ra) f args wanted hleaves.values (by rw [htop₂, List.length_cons]; omega)
      (hleaves.toWrites.opens hopens)).mono ((Nat.le_max_left _ _).trans hrest)).bind fun st₃ r hy hret => ?_
    obtain ⟨w, rs⟩ := r
    obtain rfl : st₃.world = w := hret.world
    have hkept₃ : Kept (ci.func + 1 + ra) st₁ st₃ := hleaves.toWrites.kept.trans hret.kept
    have hframe₃ := hframe₁.keep (hkept₃.mono (Nat.le_add_right _ _)) (hshares.keep hfn habove hkept₃ hret.opens)
    have hafter := (Nat.le_max_right _ _).trans hrest
    rw [hy, afterCall] at hafter
    dsimp only at hafter
    have htop₃ : st₃.top = ci.func + 1 + ra + (adjust nil wanted rs).length := hret.top
    rw [hret.results, hframe₃.extra]
    dsimp only
    refine (ih _ _ _ hframe₃ (htop₃.trans_le ((Nat.le_max_left _ _).trans hafter)) ?_).imp fun _ _ h =>
      h.after ((hkept.mono hfn).trans (hkept₃.mono (by omega)))
    rw [htop₃]
    exact (Nat.le_max_right _ _).trans hafter
  | tailcall acts heap ra f args above close =>
    intro env st hframe htop hneed
    obtain ⟨hshares, hworld, hkept, htop₁⟩ := hframe.shares.acts acts hframe.le
    have hfn := hframe.le
    rw [needsLua] at hneed
    rw [runLua, evalLua]
    generalize st.world.acts env acts = r at *
    obtain ⟨env₁, w₁⟩ := r
    dsimp only at hworld hshares hneed ⊢
    generalize st.acts (ci.func + 1) acts = st₁ at *
    subst hworld
    have hopens := hshares.opens hfn (Nat.add_le_add_left above (ci.func + 1))
    refine (open_spec hopens heap (f :: args) (htop₁ ▸ htop) ((Nat.le_max_left _ _).trans hneed)).sim
      fun st₂ ⟨hleaves, htop₂, hsize₂⟩ => ?_
    have hworld₂ : st₂.world = { st₁.world with heap := heap } := by
      rw [hleaves.toWrites.world hopens, hleaves.heap]
    have hshares₂ := hshares.keep hfn (Nat.add_le_add_left above (ci.func + 1)) hleaves.toWrites.kept
      (hleaves.toWrites.opens hopens)
    -- the upvalues of the frame are closed before it is given up
    obtain ⟨st₃, hst₃, hworld₃, hopens₃, hkept₃, hslots₃, htop₃, hsize₃⟩ : ∃ st₃ : State σ V,
        (if p.needclose then st₂.luaF_closeupval (ci.func + 1) else st₂) = st₃ ∧ st₃.world = st₂.world ∧
        Opens fn st₃ ∧ Kept (ci.func + 1) st₂ st₃ ∧ st₃.slots = st₂.slots ∧ st₃.top = st₂.top ∧
        st₃.size = st₂.size := by
      refine ⟨_, rfl, ?_⟩
      by_cases hclose : p.needclose = true
      · rw [if_pos hclose]
        exact ⟨closeupval_world st₂ _, hshares₂.closed, closeupval_kept st₂ _, rfl, rfl, rfl⟩
      · rw [if_neg hclose]
        rw [close.resolve_left hclose] at hshares₂
        exact ⟨rfl, hshares₂.opens_zero, .refl _ _, rfl, rfl, rfl⟩
    rw [hst₃]
    have hrest := (Nat.le_max_right _ _).trans hneed
    rw [← hworld₂, ← hworld₃] at hrest ⊢
    obtain rfl := hframe.func
    refine ((hm.tails st₃ ci _ f args _ (hslots₃ ▸ hleaves.values)
      (by rw [htop₃, htop₂, List.length_cons]; omega) (by rw [htop₃, hsize₃]; exact hsize₂) (by omega) hframe.delta
      hopens₃).mono hrest).imp fun _ _ h => h.after ?_
    exact (hkept.mono hfn).trans (((hleaves.toWrites.kept.mono (Nat.le_add_right _ _)).trans hkept₃).mono hfn)

/-- A Lua function gets its arguments and returns its results. -/
theorem enter_spec (hm : Exact nil m call needs) {wanted : Arity} {args : List V} {st₀ : State σ V}
    (h : Entry nil p fn wanted args st₀ st ci) (hopens : Opens fn st₀)
    (body : World σ V → List V → List V → Code σ V p 0)
    (hslots : fn + args.length + 2 * p.numparams + p.maxstacksize + 2 ≤ need) :
    let extra := if p.is_vararg then args.drop p.numparams else []
    let top := fn + 1 + args.length + (p.numparams - args.length)
    needsLua nil call needs p extra fn (if p.is_vararg then top else fn)
      (body st₀.world (adjust nil (some p.numparams) args) extra) (if p.is_vararg then top + 1 + p.numparams else top)
      (fun _ => none) st₀.world ≤ need →
    Sim need (enter nil m p body st ci)
      (evalLua nil call p extra (body st₀.world (adjust nil (some p.numparams) args) extra) (fun _ => none) st₀.world)
      (Returned nil fn wanted st₀) := by
  intro extra top hneed
  refine (prepare_spec h hopens hslots).sim fun r hr => ?_
  obtain ⟨hframe, hwrites, hheap, hparams, hwanted, hfunc, htop⟩ := hr
  have hworld : r.1.world = st₀.world := by
    rw [hwrites.world hopens, hheap]
    rfl
  show Sim need (runLua nil m p r.2 (body r.1.world (slice r.1.slots (r.2.func + 1) p.numparams) (r.1.varargs r.2 p))
    r.1) _ _
  rw [hworld, hparams, hframe.extra]
  have htop' : r.1.top ≤ need := by
    rw [htop]
    split_ifs <;> omega
  have hrun := runLua_spec hm (body st₀.world (adjust nil (some p.numparams) args) extra) hframe htop'
    (by rw [htop, hfunc, hworld]; exact hneed)
  rw [hworld, hwanted] at hrun
  exact hrun.imp fun _ _ hret => hret.after hwrites.kept

/-- A Rust function leaves its results on the top. -/
theorem runRust_spec (hm : Exact nil m call needs) (func : Nat) (c : RustCode σ V) : ∀ st : State σ V, Opens func st →
    st.top ≤ need → needsRust nil call needs func c st.world ≤ need →
    Sim need (runRust m func c st) (evalRust nil call c st.world) fun r b => r.1.world = b.1 ∧ r.2 = b.2.length ∧
      func + b.2.length ≤ r.1.top ∧ At r.1.slots (r.1.top - b.2.length) b.2 ∧ Kept func st r.1 ∧ Opens func r.1 := by
  induction c with
  | ret heap left vs =>
    intro st hopens htop hneed
    refine (open_spec (hopens.mono (Nat.le_succ _)) heap (left ++ vs) htop hneed).sim fun st₁ ⟨hleaves, htop₁, _⟩ => ?_
    have hwrites := hleaves.toWrites.mono (Nat.le_succ func)
    rw [List.length_append] at htop₁
    refine Sim.ok ⟨?_, rfl, ?_, ?_, hwrites.kept, hwrites.opens hopens⟩
    · rw [hwrites.world hopens, hleaves.heap]
    · show func + vs.length ≤ st₁.top
      omega
    · show At st₁.slots (st₁.top - vs.length) vs
      rw [show st₁.top - vs.length = func + 1 + left.length by omega]
      exact (at_append.mp hleaves.values).2
  | call heap ra f args wanted next ih =>
    intro st hopens htop hneed
    rw [needsRust] at hneed
    rw [runRust, evalRust]
    dsimp only at hneed
    have hle : func ≤ func + 1 + ra := by omega
    refine (open_spec (hopens.mono hle) heap (f :: args) htop ((Nat.le_max_left _ _).trans hneed)).sim
      fun st₁ ⟨hleaves, htop₁, _⟩ => ?_
    have hworld₁ : st₁.world = { st.world with heap := heap } := by
      rw [hleaves.toWrites.world (hopens.mono hle), hleaves.heap]
    have hrest := (Nat.le_max_right _ _).trans hneed
    rw [← hworld₁] at hrest ⊢
    refine ((hm.calls st₁ (func + 1 + ra) f args wanted hleaves.values (by rw [htop₁, List.length_cons]; omega)
      (hleaves.toWrites.opens (hopens.mono hle))).mono ((Nat.le_max_left _ _).trans hrest)).bind
      fun st₂ r hy hret => ?_
    obtain ⟨w, rs⟩ := r
    obtain rfl : st₂.world = w := hret.world
    have hkept : Kept func st st₂ := (hleaves.toWrites.kept.trans hret.kept).mono hle
    have hafter := (Nat.le_max_right _ _).trans hrest
    rw [hy, afterCall] at hafter
    dsimp only at hafter ⊢
    have htop₂ : st₂.top = func + 1 + ra + (adjust nil wanted rs).length := hret.top
    rw [hret.results]
    refine (ih st₂.world (adjust nil wanted rs) st₂
      (hopens.keep (hleaves.toWrites.kept.trans hret.kept) hret.opens)
      (htop₂.trans_le ((Nat.le_max_left _ _).trans hafter)) ((Nat.le_max_right _ _).trans hafter)).imp
      fun r b ⟨hw, hn, ht, hr, hkept', ho⟩ => ⟨hw, hn, ht, hr, hkept.trans hkept', ho⟩

/-- A Rust function gets its arguments, and its results go to the slot of the call. -/
theorem call_fp_spec (hm : Exact nil m call needs) {func : Nat} {f : V} {args : List V}
    (h : At st.slots func (f :: args)) (htop : st.top = func + 1 + args.length) (hopens : Opens func st)
    (wanted : Arity) (body : World σ V → List V → RustCode σ V) (hslots : func + args.length + 21 ≤ need)
    (hneed : needsRust nil call needs func (body st.world args) st.world ≤ need) :
    Sim need (call_fp nil m st func wanted body) (evalRust nil call (body st.world args) st.world) fun r b =>
      Returned nil func wanted st r.1 b ∧ r.2 = b.2.length := by
  refine (growIf_spec st _ _ fun _ => by omega).sim fun st₁ ⟨size, hle, heq, _, _⟩ => ?_
  subst heq
  have hargs : slice st.slots (func + 1) (st.top - func - 1) = args := by
    rw [show st.top - func - 1 = args.length by omega]
    exact (at_cons.mp h).2.slice_eq
  have hrun := runRust_spec hm func (body st.world args) { st with size := size, size_le := hle }
    ⟨hopens.used, hopens.below, hopens.distinct⟩ (show st.top ≤ need by omega) hneed
  dsimp only
  rw [hargs]
  refine hrun.map ?_
  rintro ⟨st₂, n⟩ ⟨w, rs⟩ ⟨hworld, hn, htop', hat, hkept, hopens'⟩
  obtain rfl : n = rs.length := hn
  obtain rfl : st₂.world = w := hworld
  exact Sim.ok ⟨poscall_spec ⟨func, st.top, wanted, 0⟩ ⟨hkept.opened, hkept.slots⟩ hopens' htop' hat, rfl⟩

variable {kind : σ → V → Kind σ V}

theorem precall_spec {n : Nat} (hm : Exact nil m (apply nil kind n) (Calls.needs nil kind n)) {func : Nat} {f : V}
    {args : List V} (h : At st.slots func (f :: args)) (htop : st.top = func + 1 + args.length)
    (hopens : Opens func st) (wanted : Arity) :
    Sim (Calls.needs nil kind (n + 1) func func st.world f args) (precall nil kind m st func wanted)
      (apply nil kind (n + 1) st.world f args) (Returned nil func wanted st) := by
  rw [precall, apply, Calls.needs, show st.slots func = f from h 0 f rfl, show st.world.heap = st.heap from rfl]
  cases kind st.heap f with
  | other tm =>
    cases tm with
    | none => exact .inr (.inr (.inl ⟨rfl, rfl⟩))
    | some tm =>
      refine (tryfuncTM_spec h htop (Nat.le_max_left _ _)).sim fun st₁ ⟨hleaves, htop₁, _⟩ => ?_
      have hworld : st₁.world = st.world := by
        rw [hleaves.toWrites.world hopens, hleaves.heap]
        rfl
      rw [← hworld]
      exact ((hm.calls st₁ func tm (f :: args) wanted hleaves.values htop₁ (hleaves.toWrites.opens hopens)).mono
        (Nat.le_max_right _ _)).imp fun _ _ hret => hret.after hleaves.toWrites.kept
  | rust body =>
    exact (call_fp_spec hm h htop hopens wanted body (Nat.le_max_left _ _) (Nat.le_max_right _ _)).map
      fun r b hr => Sim.ok hr.1
  | lua p body =>
    refine (setup_lua_ci_spec h htop wanted (Nat.le_max_left _ _)).sim fun r hentry => ?_
    exact enter_spec hm hentry hopens body (Nat.le_max_left _ _) (Nat.le_max_right _ _)

/-- The frame of the caller is gone: the callee returns to the slot of its call. -/
theorem pretailcall_spec {n : Nat} (hm : Exact nil m (apply nil kind n) (Calls.needs nil kind n)) {func : Nat} {f : V}
    {args : List V} {delta : Nat} (h : At st.slots func (f :: args)) (htop : st.top = func + 1 + args.length)
    (hsize : st.top ≤ st.size) (hfunc : ci.func ≤ func) (hdelta : delta ≤ ci.func)
    (hopens : Opens (ci.func - delta) st) :
    Sim (Calls.needs nil kind (n + 1) func (ci.func - delta) st.world f args)
      (pretailcall nil kind m st ci func (args.length + 1) delta) (apply nil kind (n + 1) st.world f args)
      (Returned nil (ci.func - delta) ci.nresults st) := by
  have hle : ci.func - delta ≤ func := (Nat.sub_le ..).trans hfunc
  rw [pretailcall, apply, Calls.needs, show st.slots func = f from h 0 f rfl, show st.world.heap = st.heap from rfl]
  cases kind st.heap f with
  | other tm =>
    cases tm with
    | none => exact .inr (.inr (.inl ⟨rfl, rfl⟩))
    | some tm =>
      refine (tryfuncTM_spec h htop (Nat.le_max_left _ _)).sim fun st₁ ⟨hleaves, htop₁, hsize₁⟩ => ?_
      have hwrites := hleaves.toWrites.mono hle
      have hworld : st₁.world = st.world := by
        rw [hwrites.world hopens, hleaves.heap]
        rfl
      rw [← hworld]
      exact ((hm.tails st₁ ci func tm (f :: args) delta hleaves.values htop₁ hsize₁ hfunc hdelta
        (hwrites.opens hopens)).mono (Nat.le_max_right _ _)).imp fun _ _ hret => hret.after hwrites.kept
  | rust body =>
    refine (call_fp_spec hm h htop (hopens.mono hle) none body (Nat.le_max_left _ _) (Nat.le_max_right _ _)).map ?_
    rintro ⟨st₁, n⟩ ⟨w, rs⟩ ⟨hret, hn⟩
    obtain rfl : n = rs.length := hn
    obtain rfl : st₁.world = w := hret.world
    -- the results are all on the top, from the slot of the callee on
    have htop₁ : st₁.top = func + rs.length := hret.top
    refine Sim.ok (poscall_spec ⟨ci.func - delta, ci.top, ci.nresults, ci.nextraargs⟩ (hret.kept.mono hle)
      (hopens.keep hret.kept hret.opens) ?_ ?_)
    · show ci.func - delta + rs.length ≤ st₁.top
      omega
    · rw [htop₁, Nat.add_sub_cancel]
      exact hret.values
  | lua p body =>
    refine (setup_tailcall_ci_spec h htop hsize hfunc hdelta (Nat.le_max_left _ _)).sim fun r hentry => ?_
    refine enter_spec hm hentry hopens body ?_ (Nat.le_max_right _ _)
    exact (by omega : ci.func - delta + args.length + 2 * p.numparams + p.maxstacksize + 2 ≤
      func + args.length + 2 * p.numparams + p.maxstacksize + 2).trans (Nat.le_max_left _ _)

/-- Calls and tail calls of any number of steps are exact. -/
theorem machine_exact (nil : V) (kind : σ → V → Kind σ V) (n : Nat) :
    Exact nil (machine nil kind n) (apply nil kind n) (Calls.needs nil kind n) := by
  induction n with
  | zero => exact ⟨fun _ _ _ _ _ _ _ _ => .inr (.inl ⟨rfl, rfl⟩), fun _ _ _ _ _ _ _ _ _ _ _ _ =>
      .inr (.inl ⟨rfl, rfl⟩)⟩
  | succ n ih =>
    exact ⟨fun st func f args wanted h htop hopens => precall_spec ih h htop hopens wanted,
      fun st ci func f args delta h htop hsize hfunc hdelta hopens =>
        pretailcall_spec ih h htop hsize hfunc hdelta hopens⟩

end


/-! ## Calls and tail calls -/

section

variable {σ V : Type} {nil : V} {fn : Nat} {st st₁ st₂ : State σ V}

theorem bind_ok {α : Type} (x : Out α) : (x.bind fun a => some (.ok a)) = x := by
  rcases x with _ | _ | _ <;> rfl

/-- Two calls of one meaning leave the same open upvalues. -/
theorem Returned.opened_iff {wanted : Arity} {r : World σ V × List V} (h₁ : Returned nil fn wanted st st₁ r)
    (h₂ : Returned nil fn wanted st st₂ r) (u s : Nat) : st₁.upvals u = .opened s ↔ st₂.upvals u = .opened s := by
  constructor
  · intro hu
    have hs := h₁.opens.below u s hu
    exact (h₂.kept.opened u s hs).mpr ((h₁.kept.opened u s hs).mp hu)
  · intro hu
    have hs := h₂.opens.below u s hu
    exact (h₁.kept.opened u s hs).mpr ((h₂.kept.opened u s hs).mp hu)

theorem world_opened {u s : Nat} (hu : st.upvals u = .opened s) : st.world.vars u = st.slots s := by
  show (st.upvals u).get st.slots = _
  rw [hu]
  rfl

/-- Two calls of one meaning leave the same values. -/
theorem Returned.unique {wanted : Arity} {r : World σ V × List V} (h₁ : Returned nil fn wanted st st₁ r)
    (h₂ : Returned nil fn wanted st st₂ r) :
    st₁.world = st₂.world ∧ st₁.top = st₂.top ∧ (∀ j < st₁.top, st₁.slots j = st₂.slots j) ∧
      ∀ u s, st₁.upvals u = .opened s ↔ st₂.upvals u = .opened s := by
  have hworld := h₁.world.trans h₂.world.symm
  refine ⟨hworld, h₁.top.trans h₂.top.symm, fun j hj => ?_, h₁.opened_iff h₂⟩
  by_cases hfn : j < fn
  · by_cases hopen : ∃ u, st.upvals u = .opened j
    · obtain ⟨u, hu⟩ := hopen
      rw [← world_opened ((h₁.kept.opened u j hfn).mpr hu), ← world_opened ((h₂.kept.opened u j hfn).mpr hu), hworld]
    · rw [h₁.kept.slots j hfn (not_exists.mp hopen), h₂.kept.slots j hfn (not_exists.mp hopen)]
  · obtain ⟨k, rfl⟩ := Nat.exists_eq_add_of_le (Nat.le_of_not_lt hfn)
    rw [h₁.top] at hj
    have hk := List.getElem?_eq_getElem (show k < (adjust nil wanted r.2).length by omega)
    rw [h₁.values k _ hk, h₂.values k _ hk]

/-- The code of a call whose results are all returned. -/
def Code.callAndReturn {p : Proto} {k : Nat} (acts : List (Act V)) (heap : σ) (ra : Nat) (f : V) (args : List V)
    (above : bound k acts ≤ ra) (close : p.needclose = true ∨ bound k acts = 0) : Code σ V p k :=
  .call acts heap ra f args none above fun w rs _ =>
    .ret [] w.heap ra rs true [] (.inl rfl) (close.imp id fun h => ⟨rfl, h⟩)

theorem values_eq {base k ra : Nat} {env : Env} (h : Shares fn base k env st) (hfn : fn ≤ base) (hra : k ≤ ra)
    (w : World σ V) (vs : List V) : w.values env ra vs = vs := by
  apply List.ext_getElem?
  intro j
  rw [World.values, List.getElem?_mapIdx]
  cases henv : env (ra + j) with
  | none => exact Option.map_id'
  | some u =>
    have hu := (h.opens hfn (Nat.le_refl _)).below u _ (h.env _ u henv)
    exact absurd hu (by omega)

/-- A call whose results are all returned means the call. -/
theorem evalLua_callAndReturn {p : Proto} {ci : CallInfo} {k : Nat} {extra : List V} {env : Env} (call : Apply σ V)
    (hframe : Frame p ci fn extra k env st) (acts : List (Act V)) (heap : σ) (ra : Nat) (f : V) (args : List V)
    (above : bound k acts ≤ ra) (close : p.needclose = true ∨ bound k acts = 0) :
    evalLua nil call p extra (.callAndReturn acts heap ra f args above close) env st.world =
      call { (st.world.acts env acts).2 with heap := heap } f args := by
  have hshares := (hframe.shares.acts acts hframe.le).1
  refine Eq.trans ?_ (bind_ok _)
  show Out.bind _ _ = Out.bind _ _
  congr 1
  funext r
  obtain ⟨w, rs⟩ := r
  show some (Except.ok (w, w.values (st.world.acts env acts).1 ra (adjust nil none rs))) = _
  rw [values_eq hshares hframe.le above]
  rfl

/-- Every call moves the right values, where the stack has the slots for it, and in any frame of a Lua function a tail
call leaves what a call does whose results are all returned. -/
theorem calls_exact (nil : V) (kind : σ → V → Kind σ V) (n : Nat) (st : State σ V) :
    (∀ func f args wanted, At st.slots func (f :: args) → st.top = func + 1 + args.length → Opens func st →
      Sim (needs nil kind n func func st.world f args) ((machine nil kind n).call st func wanted)
        (apply nil kind n st.world f args) (Returned nil func wanted st)) ∧
    ∀ p ci fn extra k env, Frame p ci fn extra k env st → ∀ acts heap ra f args above close,
      let tailcall : Code σ V p k := .tailcall acts heap ra f args above close
      let callAndReturn : Code σ V p k := .callAndReturn acts heap ra f args above close
      let run (c : Code σ V p k) := runLua nil (machine nil kind n) p ci c st
      let need (c : Code σ V p k) :=
        max st.top (needsLua nil (apply nil kind n) (needs nil kind n) p extra fn ci.func c st.top env st.world)
      let meant := apply nil kind n { (st.world.acts env acts).2 with heap := heap } f args
      Sim (need tailcall) (run tailcall) meant (Returned nil fn ci.nresults st) ∧
      Sim (need callAndReturn) (run callAndReturn) meant (Returned nil fn ci.nresults st) ∧
      ∀ st₁ st₂, run tailcall = some (.ok st₁) → run callAndReturn = some (.ok st₂) →
        st₁.world = st₂.world ∧ st₁.top = st₂.top ∧ (∀ j < st₁.top, st₁.slots j = st₂.slots j) ∧
          ∀ u s, st₁.upvals u = .opened s ↔ st₂.upvals u = .opened s := by
  have hm := machine_exact nil kind n
  refine ⟨fun func f args wanted h htop hopens => hm.calls st func f args wanted h htop hopens, ?_⟩
  intro p ci fn extra k env hframe acts heap ra f args above close tailcall callAndReturn run need meant
  have hrun (c : Code σ V p k) : Sim (need c) (run c) (evalLua nil (apply nil kind n) p extra c env st.world)
      (Returned nil fn ci.nresults st) :=
    runLua_spec hm c hframe (Nat.le_max_left _ _) (Nat.le_max_right _ _)
  have htail : Sim (need tailcall) (run tailcall) meant (Returned nil fn ci.nresults st) := hrun tailcall
  have hcall : Sim (need callAndReturn) (run callAndReturn) meant (Returned nil fn ci.nresults st) := by
    have h := hrun callAndReturn
    rw [evalLua_callAndReturn] at h
    · exact h
    · exact hframe
  refine ⟨htail, hcall, fun st₁ st₂ h₁ h₂ => ?_⟩
  obtain ⟨r, hr, hret₁⟩ := htail.of_ok h₁
  obtain ⟨r', hr', hret₂⟩ := hcall.of_ok h₂
  obtain rfl : r = r' := by
    rw [hr] at hr'
    injection hr' with hr'
    injection hr'
  exact hret₁.unique hret₂

end

section

theorem one_register : 1 ≤ 1 := Nat.le_refl 1

/-- Zero is a Rust function that returns its arguments, one a function `f(a, ...)` that returns `a` and then the others,
two a function `f(a)` that captures `a` and returns `7(a)`, and the other numbers are called through zero. -/
def numbers (_ : Unit) (v : Nat) : Kind Unit Nat :=
  match v with
  | 0 => .rust fun _ args => .ret () [] args
  | 1 => .lua ⟨1, true, 2, false⟩ fun _ params extra =>
    .ret [] () 0 (params ++ extra) true [] (.inl rfl) (.inr ⟨rfl, rfl⟩)
  | 2 => .lua ⟨1, false, 3, true⟩ fun _ params _ =>
    .tailcall [.capture 0 (params.headD 9)] () 1 7 [params.headD 9] one_register (.inl rfl)
  | _ => .other (some 0)

/-- A stack with a call and its arguments. -/
def calling (vs : List Nat) : State Unit Nat :=
  ⟨(), put (fun _ => 9) 1 vs, 1 + vs.length, 40, fun _ => .closed 9, 0, by decide⟩

/-- A frame of `f(a, ...)` for `1(8, 5)` where `a`, in slot 5, is captured. -/
def framed : State Unit Nat :=
  ⟨(), put (fun _ => 9) 1 [1, 9, 5, 1, 8], 7, 40, fun u => if u = 0 then .opened 5 else .closed 9, 1, by decide⟩

theorem framed_opened {u s : Nat} : framed.upvals u = .opened s ↔ u = 0 ∧ s = 5 := by
  show (if u = 0 then UpVal.opened 5 else .closed 9) = .opened s ↔ _
  split_ifs with hu
  · exact ⟨fun heq => ⟨hu, by cases heq; rfl⟩, fun ⟨_, hs⟩ => by rw [hs]⟩
  · exact iff_of_false nofun fun h => hu h.1

theorem framed_shares : Shares 1 5 1 (fun r => if r = 0 then some 0 else none) framed where
  used u s hu := by
    rw [(framed_opened.mp hu).1]
    decide
  opened u s hu := by
    obtain ⟨rfl, rfl⟩ := framed_opened.mp hu
    exact .inr ⟨0, Nat.zero_lt_one, rfl, rfl⟩
  env r u hr := by
    split_ifs at hr with hzero
    cases hr
    rw [hzero]
    rfl
  distinct u u' s hu hu' := (framed_opened.mp hu).1.trans (framed_opened.mp hu').1.symm

/-- `2(5)` gives three results to its slot, and its variable is closed. In the frame, `return 7(4, 5)` after `a = 6`
gives all results to the slot of the call of the frame, as a tail call and as a call. -/
theorem calls_exact_numbers :
    (∃ st, (machine 9 numbers 4).call (calling [2, 5]) 1 (some 3) = some (.ok st) ∧ st.top = 4 ∧
      st.results 1 = [7, 5, 9] ∧ st.world.vars 0 = 5 ∧ ∀ s, st.upvals 0 ≠ .opened s) ∧
    ∃ st₁ st₂,
      runLua 9 (machine 9 numbers 3) ⟨1, true, 2, true⟩ ⟨4, 7, none, 1⟩
        (.tailcall [.setupval 0 6] () 1 7 [4, 5] (Nat.le_refl 1) (.inl rfl) : Code Unit Nat _ 1) framed =
          some (.ok st₁) ∧
      runLua 9 (machine 9 numbers 3) ⟨1, true, 2, true⟩ ⟨4, 7, none, 1⟩
        (.callAndReturn [.setupval 0 6] () 1 7 [4, 5] (Nat.le_refl 1) (.inl rfl) : Code Unit Nat _ 1) framed =
          some (.ok st₂) ∧
      st₁.results 1 = [7, 4, 5] ∧ st₁.world.vars 0 = 6 ∧ st₁.world = st₂.world ∧ st₁.top = st₂.top ∧
      ∀ j < st₁.top, st₁.slots j = st₂.slots j := by
  refine ⟨?_, ?_⟩
  · have hopens : Opens 1 (calling [2, 5]) := ⟨nofun, nofun, nofun⟩
    have hcall := (calls_exact 9 numbers 4 (calling [2, 5])).1 1 2 [5] (some 3) (at_put _ _ _) rfl hopens
    obtain ⟨st, hrun, hret⟩ := hcall.done rfl (by decide)
    refine ⟨st, hrun, hret.top, hret.results, ?_, fun s hs => ?_⟩
    · rw [hret.world]
      rfl
    · cases (hret.kept.opened 0 s (hret.opens.below 0 s hs)).mp hs
  · have hframe : Frame ⟨1, true, 2, true⟩ ⟨4, 7, none, 1⟩ 1 [5] 1 (fun r => if r = 0 then some 0 else none) framed :=
      ⟨by decide, rfl, rfl, rfl, framed_shares⟩
    obtain ⟨htail, hcall, hsame⟩ := (calls_exact 9 numbers 3 framed).2 _ _ _ _ _ _ hframe [.setupval 0 6] () 1 7 [4, 5]
      (Nat.le_refl 1) (.inl rfl)
    obtain ⟨st₁, hrun₁, hret₁⟩ := htail.done rfl (by decide)
    obtain ⟨st₂, hrun₂, -⟩ := hcall.done rfl (by decide)
    obtain ⟨hworld, htop, hslots, -⟩ := hsame st₁ st₂ hrun₁ hrun₂
    refine ⟨st₁, st₂, hrun₁, hrun₂, hret₁.results, ?_, hworld, htop, hslots⟩
    rw [hret₁.world]
    rfl

end

end Tsuki.Calls
