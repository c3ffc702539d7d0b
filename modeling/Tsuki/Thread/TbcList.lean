import Tsuki.Thread.UpvalAlias
import Mathlib.Tactic.Ring

/-!
# The list of to-be-closed variables

Each to-be-closed variable has the distance to the one before in 16 bits of its slot; a longer way goes over dummy
entries of distance zero. `luaF_close` runs the close methods, which can do anything on the stack above, and fail.
-/

namespace Tsuki.Func

variable {V : Type}

/-- The value of a variable declared to be closed: false or nil, one with a `__close` metamethod, or any other. -/
inductive Closing
  | falsy
  | closable
  | other

/-- `MAXDELTA`: the longest distance of an entry. -/
@[irreducible] def maxDelta : Nat := 256 <<< ((2 - 1) * 8) - 1

theorem maxDelta_eq : maxDelta = 65535 := by
  unfold maxDelta
  decide

namespace Thread

/-- The distance in the slot. -/
def delta (th : Thread V) (a : Nat) : Nat := (th.mem a).tbcdelta

def setDelta (th : Thread V) (a d : Nat) : Thread V :=
  { th with mem := Function.update th.mem a { th.mem a with tbcdelta := d } }

@[simp] theorem delta_setDelta_self (th : Thread V) (a d : Nat) : (th.setDelta a d).delta a = d := by
  simp [delta, setDelta]

@[simp] theorem delta_setDelta_of_ne (th : Thread V) {a b : Nat} (d : Nat) (h : b ≠ a) :
    (th.setDelta a d).delta b = th.delta b := by
  simp [delta, setDelta, h]

@[simp] theorem val_setDelta (th : Thread V) (a b d : Nat) : ((th.setDelta a d).mem b).val = (th.mem b).val := by
  by_cases h : b = a
  · simp [setDelta, h]
  · simp [setDelta, h]

/-- A dummy entry, as far away as an entry can be. -/
def tbcDummy (th : Thread V) : Thread V :=
  { th.setDelta (th.tbclist + maxDelta) 0 with tbclist := th.tbclist + maxDelta }

@[simp] theorem tbclist_tbcDummy (th : Thread V) : th.tbcDummy.tbclist = th.tbclist + maxDelta := rfl

@[simp] theorem delta_tbcDummy_self (th : Thread V) : th.tbcDummy.delta (th.tbclist + maxDelta) = 0 :=
  delta_setDelta_self ..

theorem delta_tbcDummy_of_ne (th : Thread V) {b : Nat} (h : b ≠ th.tbclist + maxDelta) :
    th.tbcDummy.delta b = th.delta b := delta_setDelta_of_ne th 0 h

@[simp] theorem val_tbcDummy (th : Thread V) (b : Nat) : (th.tbcDummy.mem b).val = (th.mem b).val := val_setDelta ..

/-- The loop of `luaF_newtbcupval`; the distance is cut to 32 bits. -/
def tbcGap (level : Nat) (th : Thread V) : Thread V :=
  if (level - th.tbclist) % 2 ^ 32 > maxDelta then
    tbcGap level th.tbcDummy
  else th
termination_by level - th.tbclist
decreasing_by
  have := Nat.mod_le (level - th.tbclist) (2 ^ 32)
  have := maxDelta_eq
  rw [tbclist_tbcDummy]
  omega

/-- `luaF_newtbcupval`: whether it succeeds, and the thread after; no result where the distance is no `u16`. -/
def newtbcupval (th : Thread V) (level : Nat) (v : Closing) : Option (Bool × Thread V) :=
  match v with
  | .falsy => some (true, th)
  | .other => some (false, th)
  | .closable =>
    let th' := th.tbcGap level
    if level - th'.tbclist < 2 ^ 16 then
      some (true, { th'.setDelta level (level - th'.tbclist) with tbclist := level })
    else none

/-- The loop of `poptbclist`. -/
def popLoop (th : Thread V) (tbc : Nat) : Nat :=
  if tbc > th.stack ∧ th.delta tbc = 0 then popLoop th (tbc - maxDelta) else tbc
termination_by tbc
decreasing_by
  have := maxDelta_eq
  omega

def poptbclist (th : Thread V) : Thread V :=
  { th with tbclist := th.popLoop (th.tbclist - th.delta th.tbclist) }

end Thread

/-! ## Running close methods -/

/-- What runs: `luaF_close`, from a level that is kept as an offset, or a close method it called. -/
inductive Frame
  | closing (levelrel : Nat)
  | method

/-- What happens: an operation on slots and upvalues, a declaration, a call of `luaF_close`, a turn of its loop, or the
return of a close method, with an error or without. -/
inductive Event (V : Type)
  | op (o : Op V)
  | push (k : Nat) (v : Closing)
  | close (k : Nat)
  | turn
  | ret (ok : Bool)

/-- A thread, what runs on it, and the slots whose close methods were called. -/
structure Closer (V : Type) where
  th : Thread V
  frames : List Frame
  calls : List Nat

/-- Close methods and functions run, `luaF_close` does not. -/
def Running : List Frame → Bool
  | .closing _ :: _ => false
  | _ => true

/-- One event. -/
def Closer.step (nil : V) (st : Closer V) : Event V → Option (Closer V)
  | .op o => if Running st.frames then (st.th.step nil o).map fun r => { st with th := r.1 } else none
  | .push k v =>
    if Running st.frames then (st.th.newtbcupval (st.th.stack + k) v).map fun r => { st with th := r.2 } else none
  | .close k =>
    if Running st.frames then
      (Thread.closeupval (st.th.stack + k) (st.th.count + 1) st.th).map fun th =>
        { st with th := th, frames := .closing k :: st.frames }
    else none
  | .turn =>
    match st.frames with
    | .closing k :: frames =>
      if st.th.stack + k ≤ st.th.tbclist then
        some ⟨st.th.poptbclist, .method :: .closing k :: frames, st.calls ++ [st.th.tbclist - st.th.stack]⟩
      else some { st with frames := frames }
    | _ => none
  | .ret ok =>
    match st.frames with
    | .method :: .closing k :: frames => some { st with frames := if ok then .closing k :: frames else frames }
    | _ => none

def Closer.run (nil : V) (st : Closer V) : List (Event V) → Option (Closer V)
  | [] => some st
  | e :: es => do
    let st ← st.step nil e
    st.run nil es

/-! ## A stack of variables -/

/-- The variables that are pending, the last one first, and all that ever were declared. -/
structure Pending (V : Type) where
  vars : Vars V
  pending : List Nat
  frames : List Frame
  calls : List Nat
  declared : List Nat

namespace Pending

def new (nil : V) : Pending V := ⟨Vars.new nil, [], [], [], []⟩

/-- One event. -/
def step (nil : V) (p : Pending V) : Event V → Option (Pending V)
  | .op o => if Running p.frames then some { p with vars := (p.vars.step nil o).1 } else none
  | .push k .closable =>
    if Running p.frames then some { p with pending := k :: p.pending, declared := k :: p.declared } else none
  | .push _ _ => if Running p.frames then some p else none
  | .close k =>
    if Running p.frames then some { p with vars := (p.vars.step nil (.close k)).1, frames := .closing k :: p.frames }
    else none
  | .turn =>
    match p.frames with
    | .closing k :: frames =>
      match p.pending with
      | t :: rest =>
        if k ≤ t then
          some { p with pending := rest, frames := .method :: .closing k :: frames, calls := p.calls ++ [t] }
        else some { p with frames := frames }
      | [] => some { p with frames := frames }
    | _ => none
  | .ret ok =>
    match p.frames with
    | .method :: .closing k :: frames => some { p with frames := if ok then .closing k :: frames else frames }
    | _ => none

/-- Variables are declared above the pending ones and inside of the stack; the stack is not larger than its limit, and
not cut off below a pending variable. -/
def Allows (p : Pending V) : Event V → Prop
  | .op o =>
    p.vars.Allows o ∧
      match o with
      | .realloc _ newsize _ => newsize ≤ 1000000 ∧ ∀ t ∈ p.pending, t < newsize + 5
      | _ => True
  | .push k _ => p.pending.headD 0 < k ∧ k < p.vars.size + 5
  | .close k => 0 < k
  | _ => True

/-- A run. -/
inductive Runs (nil : V) : Pending V → List (Event V) → Pending V → Prop
  | nil (p : Pending V) : Runs nil p [] p
  | cons {p p' p'' : Pending V} {e : Event V} {es : List (Event V)} :
      p.Allows e → p.step nil e = some p' → Runs nil p' es p'' → Runs nil p (e :: es) p''

/-- The loop of `luaF_close` from the level `k` on: each method it calls leaves the variables pending that it found. It
ends where no variable is left, or with the error of a method. -/
inductive Loop (nil : V) (k : Nat) (frames : List Frame) : Bool → Pending V → List (Event V) → List Nat → Pending V →
    Prop
  | done {p : Pending V} : p.frames = .closing k :: frames → (∀ t rest, p.pending = t :: rest → t < k) →
      Loop nil k frames true p [.turn] [] { p with frames := frames }
  | fail {p q : Pending V} {t : Nat} {rest : List Nat} {es : List (Event V)} : p.frames = .closing k :: frames →
      p.pending = t :: rest → k ≤ t →
      Runs nil { p with pending := rest, frames := .method :: .closing k :: frames, calls := p.calls ++ [t] } es q →
      q.frames = .method :: .closing k :: frames → q.pending = rest →
      Loop nil k frames false p (.turn :: (es ++ [.ret false])) [t] { q with frames := frames }
  | call {ok : Bool} {p q p' : Pending V} {t : Nat} {rest : List Nat} {es es' : List (Event V)} {calls : List Nat} :
      p.frames = .closing k :: frames → p.pending = t :: rest → k ≤ t →
      Runs nil { p with pending := rest, frames := .method :: .closing k :: frames, calls := p.calls ++ [t] } es q →
      q.frames = .method :: .closing k :: frames → q.pending = rest →
      Loop nil k frames ok { q with frames := .closing k :: frames } es' calls p' →
      Loop nil k frames ok p (.turn :: (es ++ .ret true :: es')) (t :: calls) p'

variable {nil : V} {p p' p'' : Pending V} {es es' : List (Event V)}

theorem Runs.append (h : Runs nil p es p') (h' : Runs nil p' es' p'') : Runs nil p (es ++ es') p'' := by
  induction h with
  | nil => exact h'
  | cons he hstep _ ih => exact .cons he hstep (ih h')

variable {k : Nat} {frames : List Frame} {ok : Bool} {calls : List Nat}

theorem Loop.runs (h : Loop nil k frames ok p es calls p') : Runs nil p es p' := by
  have turn {p : Pending V} {t : Nat} {rest : List Nat} (hframes : p.frames = .closing k :: frames)
      (hpending : p.pending = t :: rest) (hk : k ≤ t) : p.step nil .turn =
        some { p with pending := rest, frames := .method :: .closing k :: frames, calls := p.calls ++ [t] } := by
    rw [step, hframes]
    dsimp only
    rw [hpending]
    exact if_pos hk
  have ret (ok : Bool) {q : Pending V} (hframes : q.frames = .method :: .closing k :: frames) :
      q.step nil (.ret ok) = some { q with frames := if ok then .closing k :: frames else frames } := by
    rw [step, hframes]
  induction h with
  | @done p hframes hlow =>
    refine .cons trivial ?_ (.nil _)
    rw [step, hframes]
    dsimp only
    split
    · rename_i t rest hpending
      exact if_neg (Nat.not_le_of_lt (hlow t rest hpending))
    · rfl
  | fail hframes hpending hk hbody hq _ =>
    exact .cons trivial (turn hframes hpending hk) (hbody.append (.cons trivial (ret false hq) (.nil _)))
  | call hframes hpending hk hbody hq _ _ ih =>
    exact .cons trivial (turn hframes hpending hk) (hbody.append (.cons trivial (ret true hq) ih))

/-- The variables whose methods are called are the last ones, down to the level. -/
theorem Loop.spec (h : Loop nil k frames ok p es calls p') :
    p.pending = calls ++ p'.pending ∧ (∀ t ∈ calls, k ≤ t) ∧
      (ok = true → ∀ t rest, p'.pending = t :: rest → t < k) := by
  induction h with
  | done _ hlow => exact ⟨rfl, nofun, fun _ => hlow⟩
  | fail _ hpending hk _ _ hrest =>
    refine ⟨hpending.trans (congrArg _ hrest.symm), fun t ht => ?_, nofun⟩
    rw [List.mem_singleton.mp ht]
    exact hk
  | call _ hpending hk _ _ hrest _ ih =>
    obtain ⟨heq, hcalls, hlow⟩ := ih
    refine ⟨hpending.trans (congrArg _ (hrest.symm.trans heq)), fun t ht => ?_, hlow⟩
    rcases List.mem_cons.mp ht with rfl | ht
    · exact hk
    · exact hcalls t ht

end Pending

/-! ## What the distances say -/

/-- From the variable at `p` to the one at `t`, over dummy entries. -/
def Gap (d : Nat → Nat) (p t : Nat) : Prop :=
  ∃ n, t = p + n * maxDelta + d t ∧ 0 < d t ∧ ∀ i, 1 ≤ i → i ≤ n → d (p + i * maxDelta) = 0

/-- The distances go from each variable to the one before, and from the first to the start of the stack. -/
def Linked (d : Nat → Nat) : List Nat → Prop
  | [] => True
  | t :: rest => Gap d (rest.headD 0) t ∧ Linked d rest

theorem Gap.lt {d : Nat → Nat} {p t : Nat} (h : Gap d p t) : p < t := by
  obtain ⟨n, heq, hpos, -⟩ := h
  omega

theorem Gap.congr {d d' : Nat → Nat} {p t : Nat} (h : Gap d p t) (hd : ∀ k ≤ t, d' k = d k) : Gap d' p t := by
  obtain ⟨n, heq, hpos, hzero⟩ := h
  refine ⟨n, by rw [hd t (Nat.le_refl t)]; exact heq, by rw [hd t (Nat.le_refl t)]; exact hpos, fun i hi hin => ?_⟩
  have hle : i * maxDelta ≤ n * maxDelta := Nat.mul_le_mul_right _ hin
  rw [hd _ (by omega), hzero i hi hin]

theorem Linked.le_head {d : Nat → Nat} {l : List Nat} (h : Linked d l) : ∀ t ∈ l, t ≤ l.headD 0 ∧ 0 < t := by
  induction l with
  | nil => exact nofun
  | cons s rest ih =>
    intro t ht
    rcases List.mem_cons.mp ht with rfl | ht
    · exact ⟨(Nat.le_refl _), Nat.lt_of_le_of_lt (Nat.zero_le _) h.1.lt⟩
    · have hlt := h.1.lt
      exact ⟨Nat.le_trans (ih h.2 t ht).1 (Nat.le_of_lt hlt), (ih h.2 t ht).2⟩

/-- What is above the last variable does not matter. -/
theorem Linked.congr {d d' : Nat → Nat} {l : List Nat} (h : Linked d l) (hd : ∀ k ≤ l.headD 0, d' k = d k) :
    Linked d' l := by
  induction l with
  | nil => trivial
  | cons t rest ih =>
    refine ⟨h.1.congr hd, ih h.2 fun k hk => hd k ?_⟩
    exact Nat.le_trans hk (Nat.le_of_lt h.1.lt)

/-! ## `luaF_newtbcupval` -/

section

variable {th : Thread V}

/-- The loop goes over dummy entries until the level is near. -/
theorem tbcGap_spec {level : Nat} (h : th.tbclist < level) (hsmall : level - th.tbclist < 2 ^ 32) :
    ∃ n, (th.tbcGap level).tbclist = th.tbclist + n * maxDelta ∧ (th.tbcGap level).tbclist < level ∧
      level ≤ (th.tbcGap level).tbclist + maxDelta ∧
      (∀ i, 1 ≤ i → i ≤ n → (th.tbcGap level).delta (th.tbclist + i * maxDelta) = 0) ∧
      (∀ a ≤ th.tbclist, (th.tbcGap level).delta a = th.delta a) ∧
      th.tbcGap level = { th with tbclist := (th.tbcGap level).tbclist, mem := (th.tbcGap level).mem } ∧
      ∀ a, ((th.tbcGap level).mem a).val = (th.mem a).val := by
  have hmax := maxDelta_eq
  fun_induction Thread.tbcGap level th with
  | case1 th hfar ih =>
    rw [Nat.mod_eq_of_lt hsmall] at hfar
    obtain ⟨n, htbc, hlt, hle, hzero, hsame, hrest, hval⟩ := ih
      (by rw [Thread.tbclist_tbcDummy]; omega) (by rw [Thread.tbclist_tbcDummy]; omega)
    rw [Thread.tbclist_tbcDummy] at htbc hzero hsame
    refine ⟨n + 1, ?_, hlt, hle, fun i hi hin => ?_, fun a ha => ?_, hrest, fun a => ?_⟩
    · rw [htbc, Nat.add_mul]
      omega
    · obtain ⟨j, rfl⟩ : ∃ j, i = j + 1 := ⟨i - 1, by omega⟩
      have hat : th.tbclist + (j + 1) * maxDelta = th.tbclist + maxDelta + j * maxDelta := by
        rw [Nat.add_mul]
        omega
      rw [hat]
      cases j with
      | zero =>
        have hfirst : th.tbclist + maxDelta + 0 * maxDelta = th.tbclist + maxDelta := by omega
        rw [hfirst, hsame _ (Nat.le_refl _)]
        exact Thread.delta_tbcDummy_self th
      | succ j => exact hzero (j + 1) (by omega) (by omega)
    · rw [hsame a (by omega)]
      exact th.delta_tbcDummy_of_ne (by omega)
    · rw [hval]
      exact th.val_tbcDummy a
  | case2 th hnear =>
    rw [Nat.mod_eq_of_lt hsmall] at hnear
    refine ⟨0, by omega, h, by omega, fun i hi hin => by omega, fun _ _ => rfl, rfl, fun _ => rfl⟩

/-! ## `poptbclist` -/

theorem popLoop_spec {p : Nat} (hp : p = 0 ∨ th.delta (th.stack + p) ≠ 0) : ∀ n,
    (∀ i, 1 ≤ i → i ≤ n → th.delta (th.stack + (p + i * maxDelta)) = 0) →
    th.popLoop (th.stack + (p + n * maxDelta)) = th.stack + p
  | 0, _ => by
    rw [Thread.popLoop, if_neg]
    · omega
    · rintro ⟨hgt, hzero⟩
      rw [Nat.zero_mul, Nat.add_zero] at hzero hgt
      rcases hp with rfl | hp
      · omega
      · exact hp hzero
  | n + 1, hz => by
    have hmax := maxDelta_eq
    have hstep : th.stack + (p + (n + 1) * maxDelta) - maxDelta = th.stack + (p + n * maxDelta) := by
      rw [Nat.add_mul]
      omega
    rw [Thread.popLoop, if_pos ⟨by rw [Nat.add_mul]; omega, hz (n + 1) (by omega) (Nat.le_refl _)⟩, hstep]
    exact popLoop_spec hp n fun i hi hin => hz i hi (by omega)

variable {a : Vars V} {nil : V} {l : List Nat}

/-- The distances, by the numbers of the slots. -/
def Thread.deltas (th : Thread V) (k : Nat) : Nat := th.delta (th.stack + k)

theorem Represents.of_val (h : Represents th a) {tbclist : Nat} {mem : Nat → StackValue V}
    (hval : ∀ b, (mem b).val = (th.mem b).val) : Represents { th with tbclist := tbclist, mem := mem } a := by
  obtain ⟨l, hl⟩ := h.listed
  exact ⟨h.size, h.count, fun k hk => (hval _).trans (h.slot k hk), h.upval, h.inside, h.fresh, l, hl.chain, hl.sorted,
    hl.mem_iff⟩

/-- A variable is declared above the pending ones. -/
theorem newtbcupval_spec {k : Nat} (h : Represents th a) (hlinked : Linked th.deltas l)
    (htbc : th.tbclist = th.stack + l.headD 0) (hk : l.headD 0 < k) (hsmall : k < 2 ^ 32) :
    ∃ th', th.newtbcupval (th.stack + k) .closable = some (true, th') ∧ Represents th' a ∧
      Linked th'.deltas (k :: l) ∧ th'.tbclist = th'.stack + k ∧ th'.stack = th.stack := by
  have hmax := maxDelta_eq
  obtain ⟨n, hn, hlt, hle, hzero, hsame, hrest, hval⟩ := @tbcGap_spec V th (th.stack + k) (by omega) (by omega)
  generalize hgap : th.tbcGap (th.stack + k) = gap at hn hlt hle hzero hsame hrest hval
  have hstack : gap.stack = th.stack := by rw [hrest]
  refine ⟨{ gap.setDelta (th.stack + k) (th.stack + k - gap.tbclist) with tbclist := th.stack + k }, ?_, ?_, ?_, ?_,
    hstack⟩
  · rw [Thread.newtbcupval]
    dsimp only
    rw [hgap, if_pos (by omega)]
  · have hrep : Represents { th with tbclist := th.stack + k, mem := (gap.setDelta (th.stack + k)
        (th.stack + k - gap.tbclist)).mem } a :=
      h.of_val fun b => (gap.val_setDelta _ b _).trans (hval b)
    rw [hrest]
    rw [hrest] at hrep
    exact hrep
  · have hself : (gap.setDelta (th.stack + k) (th.stack + k - gap.tbclist)).delta (th.stack + k) =
        th.stack + k - gap.tbclist := gap.delta_setDelta_self ..
    have hother {j : Nat} (hj : j ≠ k) :
        (gap.setDelta (th.stack + k) (th.stack + k - gap.tbclist)).delta (th.stack + j) = gap.delta (th.stack + j) :=
      gap.delta_setDelta_of_ne _ (by omega)
    show Linked (fun j => (gap.setDelta (th.stack + k) (th.stack + k - gap.tbclist)).delta (gap.stack + j)) (k :: l)
    rw [hstack]
    refine ⟨⟨n, ?_, ?_, fun i hi hin => ?_⟩, hlinked.congr fun j hj => ?_⟩
    · dsimp only
      rw [hself]
      omega
    · dsimp only
      rw [hself]
      omega
    · have hle : i * maxDelta ≤ n * maxDelta := Nat.mul_le_mul_right _ hin
      dsimp only
      rw [hother (by omega), ← Nat.add_assoc, ← htbc]
      exact hzero i hi hin
    · rw [hother (by omega), hsame _ (by omega)]
      rfl
  · exact congrArg (· + k) hstack.symm

theorem poptbclist_spec {t : Nat} (hlinked : Linked th.deltas (t :: l)) (htbc : th.tbclist = th.stack + t) :
    th.poptbclist.tbclist = th.stack + l.headD 0 := by
  obtain ⟨⟨n, heq, hpos, hzero⟩, hrest⟩ := hlinked
  have hstart : th.tbclist - th.delta th.tbclist = th.stack + (l.headD 0 + n * maxDelta) := by
    have hd : th.delta th.tbclist = th.deltas t := by rw [htbc, Thread.deltas]
    omega
  rw [Thread.poptbclist, hstart]
  refine popLoop_spec ?_ n hzero
  cases l with
  | nil => exact .inl rfl
  | cons s rest =>
    obtain ⟨-, -, hpos, -⟩ := hrest.1
    exact .inr (Nat.ne_of_gt hpos)

/-! ## Operations on slots and upvalues -/

/-- The stack is where it was, with the same distances. -/
def SameList (th th' : Thread V) : Prop :=
  th'.stack = th.stack ∧ th'.tbclist = th.tbclist ∧ ∀ b, th'.delta b = th.delta b

theorem relocate_same (f : Nat → Nat) : ∀ {fuel : Nat} {c : Cell} {th th' : Thread V},
    Thread.relocate f fuel c th = some th' →
    th'.stack = th.stack ∧ th'.tbclist = th.tbclist ∧ th'.mem = th.mem ∧ th'.size = th.size
  | 0, _, _, _, h => nomatch h
  | fuel + 1, c, th, th', h => by
    rw [Thread.relocate] at h
    split at h
    · cases h
      exact ⟨rfl, rfl, rfl, rfl⟩
    · split at h
      · have hrest := relocate_same f h
        exact hrest
      · cases h

theorem closeupval_same {level : Nat} : ∀ {fuel : Nat} {th th' : Thread V},
    Thread.closeupval level fuel th = some th' → SameList th th'
  | 0, _, _, h => nomatch h
  | fuel + 1, th, th', h => by
    rw [Thread.closeupval] at h
    split at h
    · cases h
      exact ⟨rfl, rfl, fun _ => rfl⟩
    · obtain ⟨b, -, h⟩ := Option.bind_eq_some_iff.mp h
      split_ifs at h
      · obtain ⟨th₁, h₁, h⟩ := Option.bind_eq_some_iff.mp h
        obtain ⟨hstack, htbc, hd⟩ := closeupval_same h
        rw [Thread.unlinkupval] at h₁
        obtain ⟨n, -, rfl⟩ := Option.map_eq_some_iff.mp h₁
        exact ⟨hstack, htbc, hd⟩
      · cases h
        exact ⟨rfl, rfl, fun _ => rfl⟩

/-- A value leaves the distance of its slot alone. -/
theorem store_delta {b : Nat} (v : V) (c : Nat) : (th.store b v).delta c = th.delta c := by
  by_cases h : c = b
  · simp [Thread.store, Thread.delta, h]
  · simp [Thread.store, Thread.delta, h]

theorem reallocstack_list {new newsize : Nat} {fresh : Nat → StackValue V} {th' : Thread V}
    (h : th.reallocstack nil new newsize fresh = some th') :
    th'.stack = new ∧ th'.tbclist = new + (th.tbclist - th.stack) ∧
      ∀ k < min th.size newsize + 5, th'.deltas k = th.deltas k := by
  obtain ⟨th₁, h₁, h⟩ := Option.bind_eq_some_iff.mp h
  obtain ⟨th₂, h₂, h⟩ := Option.bind_eq_some_iff.mp h
  obtain ⟨-, htbc₁, -, -⟩ := relocate_same _ h₁
  obtain ⟨hstack₂, htbc₂, hmem₂, -⟩ := relocate_same _ h₂
  cases h
  refine ⟨hstack₂, htbc₂.trans (congrArg (new + ·) htbc₁), fun k hk => ?_⟩
  show (th₂.mem (th₂.stack + k)).tbcdelta = (th.mem (th.stack + k)).tbcdelta
  rw [hstack₂, hmem₂]
  show (th.moved nil new newsize fresh (new + k)).tbcdelta = _
  rw [Thread.moved, if_pos ⟨Nat.le_add_right .., by omega⟩, Nat.add_sub_cancel_left]

theorem step_same {o : Op V} {r : Thread V × Option Nat} (h : th.step nil o = some r)
    (hreal : ∀ new newsize fresh, o ≠ .realloc new newsize fresh) : SameList th r.1 := by
  cases o with
  | find k =>
    obtain ⟨r', hr', rfl⟩ := Option.map_eq_some_iff.mp h
    rw [Thread.findupval] at hr'
    obtain ⟨x, -, rfl⟩ := Option.map_eq_some_iff.mp hr'
    cases x <;> exact ⟨rfl, rfl, fun _ => rfl⟩
  | close k =>
    obtain ⟨th', h', rfl⟩ := Option.map_eq_some_iff.mp h
    exact closeupval_same h'
  | free u =>
    obtain ⟨th', h', rfl⟩ := Option.map_eq_some_iff.mp h
    obtain ⟨uv, -, h'⟩ := Option.bind_eq_some_iff.mp h'
    obtain ⟨th₁, h₁, h'⟩ := Option.bind_eq_some_iff.mp h'
    cases h'
    split_ifs at h₁
    · cases h₁
      exact ⟨rfl, rfl, fun _ => rfl⟩
    · rw [Thread.unlinkupval] at h₁
      obtain ⟨n, -, rfl⟩ := Option.map_eq_some_iff.mp h₁
      exact ⟨rfl, rfl, fun _ => rfl⟩
  | realloc new newsize fresh => exact absurd rfl (hreal new newsize fresh)
  | setSlot k v =>
    cases h
    exact ⟨rfl, rfl, store_delta v⟩
  | setUpval u v =>
    obtain ⟨th', h', rfl⟩ := Option.map_eq_some_iff.mp h
    obtain ⟨uv, -, rfl⟩ := Option.map_eq_some_iff.mp h'
    dsimp only
    split
    · exact ⟨rfl, rfl, store_delta v⟩
    · exact ⟨rfl, rfl, fun _ => rfl⟩

/-! ## Runs -/

/-- The thread has these variables pending, and runs the same. -/
structure Denotes (st : Closer V) (p : Pending V) : Prop where
  vars : Represents st.th p.vars
  linked : Linked st.th.deltas p.pending
  tbclist : st.th.tbclist = st.th.stack + p.pending.headD 0
  inside : ∀ t ∈ p.pending, t < p.vars.size + 5
  limit : p.vars.size ≤ 1000000
  levels : ∀ k, .closing k ∈ p.frames → 0 < k
  frames : st.frames = p.frames
  calls : st.calls = p.calls
  declared : p.declared.Perm (p.calls ++ p.pending)

theorem Linked.same {th' : Thread V} (h : Linked th.deltas l) (hs : SameList th th') : Linked th'.deltas l := by
  obtain ⟨hstack, -, hd⟩ := hs
  refine h.congr fun k _ => ?_
  rw [Thread.deltas, hstack, hd]
  rfl

variable {st : Closer V} {p : Pending V} {e : Event V}

theorem Denotes.op (h : Denotes st p) {o : Op V} (hop : p.Allows (.op o)) (hrun : Running p.frames = true) :
    ∃ st', st.step nil (.op o) = some st' ∧ Denotes st' { p with vars := (p.vars.step nil o).1 } := by
  obtain ⟨th', hth', hrep⟩ : ∃ th', st.th.step nil o = some (th', _) ∧ Represents th' _ := h.vars.step hop.1
  refine ⟨{ st with th := th' }, ?_, ?_⟩
  · rw [Closer.step, h.frames, if_pos hrun, hth']
    rfl
  by_cases hreal : ∃ new newsize fresh, o = .realloc new newsize fresh
  · obtain ⟨new, newsize, fresh, rfl⟩ := hreal
    obtain ⟨-, hlimit, hin⟩ := hop
    obtain ⟨r, hr, heq⟩ := Option.map_eq_some_iff.mp hth'
    cases heq
    obtain ⟨hstack, htbc, hd⟩ := reallocstack_list hr
    refine ⟨hrep, h.linked.congr fun k hk => ?_, ?_, hin, hlimit, h.levels, h.frames, h.calls, h.declared⟩
    · refine hd k ?_
      have hhead : p.pending.headD 0 < min st.th.size newsize + 5 := by
        rw [h.vars.size]
        cases hp : p.pending with
        | nil => exact Nat.lt_of_lt_of_le (by decide : 0 < 5) (Nat.le_add_left ..)
        | cons t rest =>
          have h₁ := h.inside t (by rw [hp]; exact List.mem_cons_self)
          have h₂ := hin t (by rw [hp]; exact List.mem_cons_self)
          show t < _
          omega
      exact Nat.lt_of_le_of_lt hk hhead
    · show th'.tbclist = th'.stack + _
      rw [htbc, hstack, h.tbclist, Nat.add_sub_cancel_left]
  · have hsame := step_same hth' fun new newsize fresh heq => hreal ⟨new, newsize, fresh, heq⟩
    have hsize : (p.vars.step nil o).1.size = p.vars.size := by
      cases o with
      | find k =>
        rw [Vars.step]
        split <;> rfl
      | realloc new newsize fresh => exact absurd ⟨_, _, _, rfl⟩ hreal
      | setUpval u v =>
        rw [Vars.step]
        split <;> rfl
      | _ => rfl
    refine ⟨hrep, h.linked.same hsame, ?_, ?_, ?_, h.levels, h.frames, h.calls, h.declared⟩
    · show th'.tbclist = th'.stack + _
      rw [hsame.2.1, hsame.1, h.tbclist]
    · rw [hsize]
      exact h.inside
    · rw [hsize]
      exact h.limit

/-- One event does to the distances what it does to the stack of variables. -/
theorem Denotes.step (h : Denotes st p) (he : p.Allows e) {p' : Pending V} (hstep : p.step nil e = some p') :
    ∃ st', st.step nil e = some st' ∧ Denotes st' p' := by
  cases e with
  | op o =>
    rw [Pending.step] at hstep
    split_ifs at hstep with hrun
    cases hstep
    exact h.op he hrun
  | push k v =>
    obtain ⟨hk, hin⟩ := he
    have hlimit := h.limit
    cases v with
    | closable =>
      rw [Pending.step] at hstep
      split_ifs at hstep with hrun
      cases hstep
      obtain ⟨th', hth', hrep, hlinked, htbc, hstack⟩ := newtbcupval_spec h.vars h.linked h.tbclist hk (by omega)
      refine ⟨{ st with th := th' }, ?_, hrep, hlinked, htbc, ?_, hlimit, h.levels, h.frames, h.calls, ?_⟩
      · rw [Closer.step, h.frames, if_pos hrun, hth']
        rfl
      · intro t ht
        rcases List.mem_cons.mp ht with rfl | ht
        · exact hin
        · exact h.inside t ht
      · exact (h.declared.cons k).trans List.perm_middle.symm
    | falsy | other =>
      rw [Pending.step] at hstep
      · split_ifs at hstep with hrun
        cases hstep
        refine ⟨st, ?_, h⟩
        rw [Closer.step, if_pos (h.frames ▸ hrun)]
        rfl
      · simp
  | close k =>
    rw [Pending.step] at hstep
    split_ifs at hstep with hrun
    cases hstep
    obtain ⟨l, hl⟩ := h.vars.listed
    obtain ⟨th', hth', hrep⟩ : ∃ th', Thread.closeupval (st.th.stack + k) (st.th.count + 1) st.th = some th' ∧
        Represents th' (p.vars.step nil (.close k)).1 :=
      h.vars.closeupval hl (Nat.lt_succ_of_le (h.vars.length_le hl))
    have hsame := closeupval_same hth'
    refine ⟨{ st with th := th', frames := .closing k :: st.frames }, ?_, hrep, h.linked.same hsame, ?_, h.inside,
      h.limit, fun j hj => ?_, congrArg _ h.frames, h.calls, h.declared⟩
    · rw [Closer.step, h.frames, if_pos hrun, hth']
      rfl
    · show th'.tbclist = th'.stack + _
      rw [hsame.2.1, hsame.1, h.tbclist]
    · rcases List.mem_cons.mp hj with heq | hj
      · cases heq
        exact he
      · exact h.levels j hj
  | turn =>
    rw [Pending.step] at hstep
    split at hstep
    · rename_i k frames hframes
      have hk : 0 < k := h.levels k (by rw [hframes]; exact List.mem_cons_self)
      have hlevels : ∀ j, .closing j ∈ frames → 0 < j :=
        fun j hj => h.levels j (by rw [hframes]; exact List.mem_cons_of_mem _ hj)
      rw [Closer.step, h.frames, hframes]
      dsimp only
      split at hstep
      · rename_i t rest hpending
        have htbc : st.th.tbclist = st.th.stack + t := by rw [h.tbclist, hpending]; rfl
        have hlinked : Linked st.th.deltas (t :: rest) := hpending ▸ h.linked
        split_ifs at hstep with hkt
        · cases hstep
          refine ⟨_, if_pos (by omega), h.vars.of_val (fun _ => rfl), hlinked.2, poptbclist_spec hlinked htbc,
            fun s hs => h.inside s (by rw [hpending]; exact List.mem_cons_of_mem t hs), h.limit, ?_, rfl, ?_, ?_⟩
          · intro j hj
            rcases List.mem_cons.mp hj with heq | hj
            · cases heq
            · exact h.levels j (by rw [hframes]; exact hj)
          · show st.calls ++ [st.th.tbclist - st.th.stack] = p.calls ++ [t]
            rw [h.calls, htbc, Nat.add_sub_cancel_left]
          · have hdeclared := h.declared
            rw [hpending] at hdeclared
            rwa [List.append_assoc]
        · cases hstep
          exact ⟨_, if_neg (by omega), h.vars, h.linked, h.tbclist, h.inside, h.limit, hlevels, rfl, h.calls,
            h.declared⟩
      · rename_i hpending
        have htbc : st.th.tbclist = st.th.stack := by rw [h.tbclist, hpending]; rfl
        cases hstep
        exact ⟨_, if_neg (by omega), h.vars, h.linked, h.tbclist, h.inside, h.limit, hlevels, rfl, h.calls, h.declared⟩
    · cases hstep
  | ret ok =>
    rw [Pending.step] at hstep
    split at hstep
    · rename_i k frames hframes
      cases hstep
      rw [Closer.step, h.frames, hframes]
      refine ⟨_, rfl, h.vars, h.linked, h.tbclist, h.inside, h.limit, fun j hj => ?_, rfl, h.calls, h.declared⟩
      refine h.levels j ?_
      rw [hframes]
      cases ok with
      | true => exact List.mem_cons_of_mem _ hj
      | false => exact List.mem_cons_of_mem _ (List.mem_cons_of_mem _ hj)
    · cases hstep

theorem Denotes.run {es : List (Event V)} {p' : Pending V} (hruns : Pending.Runs nil p es p') :
    ∀ {st : Closer V}, Denotes st p → ∃ st', st.run nil es = some st' ∧ Denotes st' p' := by
  induction hruns with
  | nil => exact fun h => ⟨_, rfl, h⟩
  | cons he hstep _ ih =>
    intro st h
    obtain ⟨st₁, h₁, hd⟩ := h.step he hstep
    obtain ⟨st₂, h₂, hd'⟩ := ih hd
    refine ⟨st₂, ?_, hd'⟩
    rw [Closer.run, h₁, Option.bind_eq_bind, Option.bind_some, h₂]

end

theorem Denotes.new (nil : V) (stack : Nat) (fresh : Nat → StackValue V) :
    Denotes ⟨Thread.new nil stack fresh, [], []⟩ (Pending.new nil) :=
  ⟨.new nil stack fresh, trivial, rfl, nofun, show 40 ≤ 1000000 by decide, nofun, rfl, rfl, .nil⟩

/-- The list of to-be-closed variables is a stack. In every state that a run comes to, the distances are those of the
variables that were declared and not closed; each was declared once for each time it is pending or was closed. A
`luaF_close` whose methods close what they declare calls the methods of the last variables, in reverse order and down
to its level; if none of them fails, those of all variables at or above its level. -/
theorem tbclist_stack (nil : V) (stack : Nat) (fresh : Nat → StackValue V) {es : List (Event V)} {p : Pending V}
    (h : Pending.Runs nil (Pending.new nil) es p) :
    ∃ st, Closer.run nil ⟨Thread.new nil stack fresh, [], []⟩ es = some st ∧ Denotes st p ∧
      st.th.stack ≤ st.th.tbclist ∧
      ∀ k frames ok es' calls p', Pending.Loop nil k frames ok p es' calls p' →
        (∃ st', st.run nil es' = some st' ∧ Denotes st' p') ∧ p.pending = calls ++ p'.pending ∧
          (∀ t ∈ calls, k ≤ t) ∧ (ok = true → ∀ t ∈ p'.pending, t < k) := by
  obtain ⟨st, hst, hd⟩ := (Denotes.new nil stack fresh).run h
  refine ⟨st, hst, hd, ?_, fun k frames ok es' calls p' hloop => ?_⟩
  · rw [hd.tbclist]
    exact Nat.le_add_right ..
  obtain ⟨st', hst', hd'⟩ := hd.run hloop.runs
  obtain ⟨heq, hcalls, hlow⟩ := hloop.spec
  refine ⟨⟨st', hst', hd'⟩, heq, hcalls, fun hok t ht => ?_⟩
  cases hp : p'.pending with
  | nil =>
    rw [hp] at ht
    cases ht
  | cons s rest =>
    have hle := (hd'.linked.le_head t ht).1
    rw [hp] at hle
    exact Nat.lt_of_le_of_lt hle (hlow hok s rest hp)

/-- Two variables, with two dummy entries in between, are closed; the method of the last one declares and closes another
one. -/
theorem tbclist_stack_far :
    ∃ st st', Closer.run 0 ⟨Thread.new 0 100 fun _ => ⟨0, 0⟩, [], []⟩
        [.op (.realloc 900 200000 fun _ => ⟨1, 1⟩), .push 5 .closable, .push 150000 .closable, .close 4] = some st ∧
      st.th.tbclist = st.th.stack + 150000 ∧
      st.run 0 [.turn, .push 150003 .closable, .close 150003, .turn, .ret true, .turn, .ret true, .turn, .ret true,
        .turn] = some st' ∧
      st'.calls = [150000, 150003, 5] ∧ st'.th.tbclist = st'.th.stack := by
  have h : Pending.Runs 0 (Pending.new 0)
      [.op (.realloc 900 200000 fun _ => ⟨1, 1⟩), .push 5 .closable, .push 150000 .closable, .close 4]
      ⟨⟨200000, _, _, _⟩, [150000, 5], [.closing 4], [], [150000, 5]⟩ :=
    .cons ⟨nofun, by decide, nofun⟩ rfl <| .cons ⟨by decide, show 5 < 200005 by decide⟩ rfl <|
      .cons ⟨by decide, show 150000 < 200005 by decide⟩ rfl <| .cons (show 0 < 4 by decide) rfl <| .nil _
  obtain ⟨st, hst, hd, -, hclose⟩ := tbclist_stack 0 100 (fun _ => ⟨0, 0⟩) h
  have hmethod (vars : Vars Nat) (hsize : vars.size = 200000) :
      Pending.Runs 0 ⟨vars, [5], [.method, .closing 4], [150000], [150000, 5]⟩
        [.push 150003 .closable, .close 150003, .turn, .ret true, .turn]
        ⟨(vars.step 0 (.close 150003)).1, [5], [.method, .closing 4], [150000, 150003], [150003, 150000, 5]⟩ :=
    .cons ⟨show 5 < 150003 by decide, show 150003 < vars.size + 5 by omega⟩ rfl <|
      .cons (show 0 < 150003 by decide) rfl <| .cons trivial rfl <| .cons trivial rfl <| .cons trivial rfl <| .nil _
  obtain ⟨⟨st', hst', hd'⟩, -⟩ := hclose 4 [] true _ _ _ <|
    .call rfl rfl (show 4 ≤ 150000 by decide) (hmethod _ rfl) rfl rfl <|
      .call rfl rfl (show 4 ≤ 5 by decide) (.nil _) rfl rfl <| .done rfl nofun
  exact ⟨st, st', hst, hd.tbclist, hst', hd'.calls, hd'.tbclist⟩

end Tsuki.Func
