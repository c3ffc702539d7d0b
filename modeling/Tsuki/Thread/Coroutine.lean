import Tsuki.Thread.Stack

/-!
# Coroutines

`Thread::set_entry`, `resume` and `async_resume`, down to the polls of `YieldInvoker` and `AsyncInvoker`. The function
that runs is whatever it does next: yield, wait inside an async function, return or raise an error, after all that it
was given so far.
-/

namespace Tsuki.Coroutine

/-- What a function is given: its arguments or the results of a yield, or that an async function goes on. -/
inductive Input (V : Type)
  | values (vs : List V)
  | woken

/-- What a function does next. The values are on the stack, above the function and what else is there: `frame` belongs
to the functions that run, `f` is the function that yields or waits and `junk` its own values. -/
inductive Action (V : Type)
  | yield (frame : List V) (f : V) (junk vs : List V) (wanted : Arity)
  | wait (frame : List V) (f : V) (junk : List V)
  | ret (frame rs : List V)
  | raise

/-- A function, by what it was given so far, the last first. -/
abbrev Body (V : Type) := List (Input V) → Action V

structure CallInfo where
  func : Nat
  nresults : Arity

/-- Where the future of `luaD_call` waits. -/
inductive Await
  | start
  | yielded (ci : CallInfo)
  | waiting

/-- The future of `luaD_call(th, func, nresults)`. -/
structure Future (V : Type) where
  func : Nat
  nresults : Arity
  f : V
  given : List (Input V)
  await : Await

/-- `Thread`: `ci` has the calls above the base, the innermost first; `borrowed` is the number of results that an
`async_resume` under way wants, which holds `pending`. -/
structure Thread (V : Type) where
  slot : Nat → V
  top : Nat
  ci : List CallInfo
  yielding : Option Nat
  pending : Option (Future V)
  borrowed : Option Arity

/-- How a call fails that must not: a count that is not the invoker's own, a top below the stack, or a panic. -/
inductive Stop
  | confused
  | below
  | panic
  deriving DecidableEq

/-- What `poll` gives, but for the error. -/
inductive Poll
  | ok
  | error
  | pending

/-- The result of an operation. -/
inductive Outcome (V : Type)
  | done
  | busy
  | dead
  | noEntry
  | overflow
  | suspended (vs : List V)
  | finished (rs : List V)
  | failed
  | pending

variable {V : Type} (nil : V) (body : V → Body V)

def Thread.new : Thread V := ⟨fun _ => nil, 1, [], none, none, none⟩

variable (th : Thread V)

/-- The values above a slot replaced by others. -/
def Thread.frame (func : Nat) (vs : List V) : Thread V :=
  { th with slot := put th.slot (func + 1) vs, top := func + 1 + vs.length }

/-- `Inputs::push_to`. -/
def Thread.push (args : List V) : Thread V := { th with slot := put th.slot th.top args, top := th.top + args.length }

def Thread.sub (n : Nat) : Except Stop (Thread V) :=
  if n ≤ th.top then .ok { th with top := th.top - n } else .error .below

/-- `luaD_poscall`. -/
def Thread.poscall (ci : CallInfo) (nres : Nat) (previous : List CallInfo) : Thread V :=
  let r := moveresults nil th.slot th.top ci.func nres ci.nresults
  { th with slot := r.1, top := r.2, ci := previous }

/-- The error path of `luaD_call`. -/
def Thread.raise (fut : Future V) : Thread V × Poll := ({ th with ci := [], top := fut.func }, .error)

/-- The function goes on until it has to wait or ends; `async` says that an async function can wait. -/
def Thread.run (fut : Future V) (async : Bool) : Except Stop (Thread V × Poll) :=
  match body fut.f fut.given with
  | .yield frame f junk vs wanted =>
    let th := th.frame fut.func (frame ++ f :: junk ++ vs)
    -- `YieldInvoker::poll`
    match th.yielding with
    | some _ => .error .confused
    | none =>
      let ci := ⟨fut.func + 1 + frame.length, wanted⟩
      .ok ({ th with
        ci := [ci, ⟨fut.func, fut.nresults⟩]
        yielding := some vs.length
        pending := some { fut with await := .yielded ci } }, .pending)
  | .wait frame f junk =>
    let th := th.frame fut.func (frame ++ f :: junk)
    -- `AsyncInvoker::poll`
    if async then
      .ok ({ th with
        ci := [⟨fut.func + 1 + frame.length, none⟩, ⟨fut.func, fut.nresults⟩]
        pending := some { fut with await := .waiting } }, .pending)
    else .ok (th.raise fut)
  | .ret frame rs => .ok ((th.frame fut.func (frame ++ rs)).poscall nil ⟨fut.func, fut.nresults⟩ rs.length [], .ok)
  | .raise => .ok (th.raise fut)

/-- `poll` of the future. -/
def Thread.poll (fut : Future V) (async : Bool) : Except Stop (Thread V × Poll) :=
  match fut.await with
  | .start =>
    let args := slice th.slot (fut.func + 1) (th.top - (fut.func + 1))
    th.run nil body { fut with given := [.values args] } async
  | .yielded ci =>
    -- `YieldInvoker::poll`
    match th.yielding with
    | none => .error .confused
    | some n =>
      if th.top < n then .error .below
      else
        let th := Thread.poscall nil { th with yielding := none } ci n [⟨fut.func, fut.nresults⟩]
        let rs := slice th.slot ci.func (th.top - ci.func)
        th.run nil body { fut with given := .values rs :: fut.given } async
  | .waiting => if async then th.run nil body { fut with given := .woken :: fut.given } async else .ok (th.raise fut)

/-- "Take values from yield" and "Reset stack". -/
def Thread.suspend (yields : Nat) : Except Stop (Thread V × Outcome V) := do
  let th ← th.sub yields
  let vs := slice th.slot th.top yields
  match th.ci with
  | [] => .error .panic
  | ci :: _ => .ok ({ th with top := ci.func + 1, borrowed := none }, .suspended vs)

/-- "Get number of results". -/
def Thread.finish (n : Arity) : Except Stop (Thread V × Outcome V) :=
  match n with
  | none => .ok ({ th with top := 1 }, .finished (slice th.slot 1 (th.top - 1)))
  | some 0 => .ok (th, .finished [])
  | some n => do
    let th ← th.sub n
    .ok (th, .finished (slice th.slot th.top n))

/-- The rest of `resume` and `async_resume` from "Resume" on. -/
def Thread.drive (fut : Future V) (n : Arity) (async : Bool) : Except Stop (Thread V × Outcome V) := do
  let (th, p) ← th.poll nil body fut async
  match p with
  | .pending =>
    match th.yielding with
    | some yields => Thread.suspend { th with yielding := none } yields
    | none => if async then .ok ({ th with borrowed := some n }, .pending) else .error .panic
  | .error => .ok ({ th with pending := none, borrowed := none }, .failed)
  | .ok => Thread.finish { th with pending := none, borrowed := none } n

/-- `Thread::resume` and the first poll of `Thread::async_resume`; `room` says that the stack can grow. -/
def Thread.resume (args : List V) (n : Arity) (room async : Bool) : Except Stop (Thread V × Outcome V) :=
  if th.top = 1 then .ok (th, .dead)
  else
    match th.ci with
    | _ :: _ =>
      if th.borrowed.isSome then .ok (th, .busy)
      else
        match th.pending with
        | none => .ok (th, .noEntry)
        | some fut =>
          if room then Thread.drive nil body { th.push args with yielding := some args.length } fut n async
          else .ok (th, .overflow)
    | [] =>
      if room then
        if th.top = 0 then .error .below
        else if th.borrowed.isSome then .error .panic
        else (th.push args).drive nil body ⟨th.top - 1, n, th.slot (th.top - 1), [], .start⟩ n async
      else .ok (th, .overflow)

/-- An operation of the host on the thread. The future of `async_resume` is polled for the first time (`asyncResume`),
then any number of times (`poll`), or it is dropped. -/
inductive Op (V : Type)
  | setEntry (f : V) (room : Bool)
  | resume (args : List V) (n : Arity) (room : Bool)
  | asyncResume (args : List V) (n : Arity) (room : Bool)
  | poll
  | drop

/-- An operation of a conversation, where each future is polled until it is ready. -/
inductive Call (V : Type)
  | setEntry (f : V) (room : Bool)
  | resume (args : List V) (n : Arity) (room : Bool)
  | asyncResume (args : List V) (n : Arity) (room : Bool)
  | poll

def Call.op : Call V → Op V
  | .setEntry f room => .setEntry f room
  | .resume args n room => .resume args n room
  | .asyncResume args n room => .asyncResume args n room
  | .poll => .poll

def Thread.exec : Op V → Except Stop (Thread V × Outcome V)
  | .setEntry f room =>
    if th.top ≠ 1 then .ok (th, .busy)
    else if room then .ok ({ th with slot := Function.update th.slot th.top f, top := th.top + 1 }, .done)
    else .ok (th, .overflow)
  | .resume args n room => th.resume nil body args n room false
  | .asyncResume args n room => th.resume nil body args n room true
  | .poll =>
    match th.borrowed, th.pending with
    | some n, some fut => th.drive nil body fut n true
    | _, _ => .ok (th, .done)
  | .drop => .ok ({ th with borrowed := none }, .done)

/-- What `coroutine.status` says to another thread. -/
inductive Status
  | dead
  | suspended
  | normal
  deriving DecidableEq

/-- `auxstatus`. -/
def Thread.status : Status :=
  if th.ci ≠ [] then if th.borrowed.isNone ∧ th.pending.isSome then .suspended else .normal
  else if th.top = 1 then .dead
  else .suspended

/-! ## What coroutines are for -/

/-- What a coroutine is to those who use it: `a` is the arity of the call that started it. -/
inductive Phase (V : Type)
  | dead
  | ready (f : V)
  | yielded (f : V) (given : List (Input V)) (wanted a : Arity)
  | waiting (f : V) (given : List (Input V)) (a n : Arity)

/-- What comes of what the function does next, for a caller that wants `n` results. -/
def Phase.run (f : V) (given : List (Input V)) (a n : Arity) (async : Bool) : Phase V × Outcome V :=
  match body f given with
  | .yield _ _ _ vs wanted => (.yielded f given wanted a, .suspended vs)
  | .wait _ _ _ => if async then (.waiting f given a n, .pending) else (.dead, .failed)
  | .ret _ rs => (.dead, .finished (adjust nil n rs))
  | .raise => (.dead, .failed)

def Phase.resume (ph : Phase V) (args : List V) (n : Arity) (room async : Bool) : Phase V × Outcome V :=
  match ph with
  | .dead => (.dead, .dead)
  | .waiting f given a n => (.waiting f given a n, .busy)
  | .ready f => if room then Phase.run nil body f [.values args] n n async else (.ready f, .overflow)
  | .yielded f given wanted a =>
    if room then Phase.run nil body f (.values (adjust nil wanted args) :: given) a n async
    else (.yielded f given wanted a, .overflow)

/-- An operation; the drop of a future that waits ends the coroutine. -/
def Phase.exec (ph : Phase V) : Op V → Phase V × Outcome V
  | .setEntry f room =>
    match ph with
    | .dead => if room then (.ready f, .done) else (.dead, .overflow)
    | ph => (ph, .busy)
  | .resume args n room => ph.resume nil body args n room false
  | .asyncResume args n room => ph.resume nil body args n room true
  | .poll =>
    match ph with
    | .waiting f given a n => Phase.run nil body f (.woken :: given) a n true
    | ph => (ph, .done)
  | .drop =>
    match ph with
    | .waiting _ _ _ _ => (.dead, .done)
    | ph => (ph, .done)

/-- What the function of a coroutine that waits was given so far. -/
def Phase.given : Phase V → Option (List (Input V))
  | .yielded _ given _ _ | .waiting _ given _ _ => some given
  | _ => none

/-- What `coroutine.status` should say. -/
def Phase.status : Phase V → Status
  | .dead => .dead
  | .ready _ | .yielded _ _ _ _ => .suspended
  | .waiting _ _ _ _ => .normal

/-! ## Where the function returns -/

/-- The number of results, if the function returns next. -/
def returns (f : V) (given : List (Input V)) : Option Nat :=
  match body f given with
  | .ret _ rs => some rs.length
  | _ => none

/-- If the function returns in the operation, the arities of the call that started it and of the one that receives the
results, and how many there are. -/
def Phase.returns (ph : Phase V) (op : Op V) : Option (Arity × Arity × Nat) :=
  match ph, op with
  | .ready f, .resume args n true | .ready f, .asyncResume args n true =>
    (Coroutine.returns body f [.values args]).map (n, n, ·)
  | .yielded f given wanted a, .resume args n true | .yielded f given wanted a, .asyncResume args n true =>
    (Coroutine.returns body f (.values (adjust nil wanted args) :: given)).map (a, n, ·)
  | .waiting f given a n, .poll => (Coroutine.returns body f (.woken :: given)).map (a, n, ·)
  | _, _ => none

/-- The call that started a coroutine and the one that receives its `k` results want the same of them. -/
def Agree (a n : Arity) (k : Nat) : Prop := a = n ∨ a = none ∧ n = some k ∨ n = none ∧ a = some k

/-- The call that receives the results takes as many as there are for the call that started the coroutine. -/
def Even (a n : Arity) (k : Nat) : Prop := ∀ m ∈ n, a.getD k = m

/-- The operation drops a future that waits. -/
def Phase.Drops : Phase V → Op V → Prop
  | .waiting _ _ _ _, .drop => True
  | _, _ => False

/-- The arities are so related where the function returns. -/
def Phase.Relates (R : Arity → Arity → Nat → Prop) (ph : Phase V) (op : Op V) : Prop :=
  ∀ a n k, ph.returns nil body op = some (a, n, k) → R a n k

/-- The operation drops no future that waits, and the arities are so related where the function returns. -/
def Phase.Keeps (R : Arity → Arity → Nat → Prop) (ph : Phase V) (op : Op V) : Prop :=
  ¬ph.Drops op ∧ ph.Relates nil body R op

/-- The condition holds in every operation of a run. -/
def Phase.Always (P : Phase V → Op V → Prop) (ph : Phase V) : List (Op V) → Prop
  | [] => True
  | op :: ops => P ph op ∧ (ph.exec nil body op).1.Always P ops

/-- In every operation of a run on a thread, what it does and what the phase does are so related. -/
def Thread.Always (Q : Except Stop (Thread V × Outcome V) → Phase V × Outcome V → Prop) (th : Thread V) (ph : Phase V) :
    List (Op V) → Prop
  | [] => True
  | op :: ops => Q (th.exec nil body op) (ph.exec nil body op) ∧
      ∀ th' out, th.exec nil body op = .ok (th', out) → th'.Always Q (ph.exec nil body op).1 ops

end Tsuki.Coroutine
