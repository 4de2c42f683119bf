import Mathlib.Data.List.Basic
import OxideJS.Lib.Runs

/-!
Promises, their resolving functions and their reactions.

A promise is a state box. The executor of a promise and every thenable it
is resolved with get a pair of resolving functions each; both functions of
a pair carry the promise and the mark of a delegate. User code runs in
between, in a getter of `then`, in a handler, in the `then` of a thenable
or in an executor: each of them is a frame that some later event ends, and
what the code does meanwhile are the events before that.
-/

namespace OxideJS.Promise

open OxideJS.Lib.Runs

inductive Value where
  | undefined
  | primitive (n : Nat)
  | typeError (message : String)
  | object (n : Nat)
  | function (n : Nat)
  | promise (p : Nat)
  /-- The resolve or the reject function of a pair. -/
  | resolving (pair : Nat) (reject : Bool)
deriving DecidableEq, Repr

namespace Value

def isObject : Value → Bool
  | .undefined | .primitive _ => false
  | _ => true

def isCallable : Value → Bool
  | .function _ | .resolving _ _ => true
  | _ => false

end Value

inductive PromiseStateKind where
  | pending
  | fulfilled
  | rejected
deriving DecidableEq, Repr

structure PromiseReaction where
  promise : Value
  resolve : Value
  reject : Value
  handler : Value
  isFulfill : Bool
deriving DecidableEq, Repr

structure PromiseState where
  state : PromiseStateKind := .pending
  result : Value := .undefined
  reactions : List PromiseReaction := []
  resolveFn : Value
  rejectFn : Value
  alreadyResolved : Bool := false
deriving DecidableEq, Repr

inductive Microtask where
  | reaction (isFulfill : Bool) (handler argument resolve reject : Value)
  | thenable (thenable «then» resolve reject : Value)
deriving DecidableEq, Repr

/-- The job of a reaction to a result. -/
def PromiseReaction.job (r : PromiseReaction) (argument : Value) : Microtask :=
  .reaction r.isFulfill r.handler argument r.resolve r.reject

/-- What the two functions of a pair carry. -/
structure Pair where
  promise : Nat
  delegated : Bool
deriving DecidableEq, Repr

/-- What the read of the `then` of an object comes to: a value, or code
that has to run first. -/
inductive ThenRead where
  | data (value : Value)
  | getter
deriving DecidableEq, Repr

/-- Code the engine has called and waits for. -/
inductive Frame where
  | thenOf (p : Nat) (x : Value)
  | handler (resolve reject : Value)
  | thenCall (reject : Value)
  | executor (p : Nat)
deriving DecidableEq, Repr

/-- A call of `then` on a promise. -/
structure Registration where
  on : Nat
  promise : Value
  onFulfilled : Value
  onRejected : Value
  resolve : Value
  reject : Value
deriving DecidableEq, Repr

/-- One of the two reactions of a call; a handler that cannot be called is
left out. -/
def Registration.reaction (r : Registration) (isFulfill : Bool) : PromiseReaction :=
  let handler := if isFulfill then r.onFulfilled else r.onRejected
  { promise := r.promise, resolve := r.resolve, reject := r.reject,
    handler := if handler.isCallable then handler else .undefined, isFulfill := isFulfill }

/-- The promises, the pairs made so far and the queue. The last four
fields are a record of the run that the engine does not keep: the pairs
that have been called, the calls of `then`, the jobs taken from the queue
and all jobs ever put into it, those of a reaction with its promise. -/
structure State where
  promises : List PromiseState := []
  pairs : List Pair := []
  jobQueue : List Microtask := []
  frames : List Frame := []
  called : List Nat := []
  thens : List Registration := []
  taken : List Microtask := []
  history : List (Option Nat × Microtask) := []
deriving DecidableEq, Repr

namespace State

def enqueue (s : State) (origin : Option Nat) (jobs : List Microtask) : State :=
  { s with jobQueue := s.jobQueue ++ jobs, history := s.history ++ jobs.map (origin, ·) }

def setPromise (s : State) (p : Nat) (st : PromiseState) : State :=
  { s with promises := s.promises.set p st }

def push (s : State) (f : Frame) : State :=
  { s with frames := f :: s.frames }

/-- `fulfill_promise` and `reject_promise`. -/
def settlePromise (s : State) (isFulfill : Bool) (p : Nat) (value : Value) : State :=
  match s.promises[p]? with
  | none => s
  | some st =>
    if st.state ≠ .pending then s
    else
      (s.setPromise p { st with
          state := if isFulfill then .fulfilled else .rejected, result := value,
          reactions := [] }).enqueue (some p)
        ((st.reactions.filter (·.isFulfill == isFulfill)).map (·.job value))

def fulfillPromise (s : State) (p : Nat) (value : Value) : State :=
  s.settlePromise true p value

def rejectPromise (s : State) (p : Nat) (reason : Value) : State :=
  s.settlePromise false p reason

def markResolved (s : State) (p : Nat) : State :=
  match s.promises[p]? with
  | none => s
  | some st => s.setPromise p { st with alreadyResolved := true }

/-- A pair of resolving functions, from two calls of `make_resolve_reject_fn`. -/
def makePair (s : State) (p : Nat) (delegated : Bool) : State :=
  { s with pairs := s.pairs ++ [{ promise := p, delegated := delegated }] }

/-- The rest of `resolve_promise` when the `then` of the value is known. -/
def resolveThen (s : State) (p : Nat) (x thenValue : Value) : State :=
  if thenValue.isCallable then
    -- the delegates bypass `already_resolved`
    ((s.markResolved p).makePair p true).enqueue none
      [.thenable x thenValue (.resolving s.pairs.length false) (.resolving s.pairs.length true)]
  else s.fulfillPromise p x

def resolvePromise (s : State) (p : Nat) (x : Value) (thenRead : ThenRead) : State :=
  if x = .promise p then s.rejectPromise p (.typeError "Chaining cycle detected for promise")
  else if x.isObject then
    match thenRead with
    | .data thenValue => s.resolveThen p x thenValue
    | .getter => s.push (.thenOf p x)
  else s.fulfillPromise p x

def noteCall (s : State) (pair : Nat) : State :=
  { s with called := s.called.insert pair }

/-- `promise_resolve_closure` and `promise_reject_closure`. -/
def callResolving (s : State) (pair : Nat) (reject : Bool) (x : Value) (thenRead : ThenRead) :
    State :=
  match s.pairs[pair]? with
  | none => s
  | some fn =>
    match s.promises[fn.promise]? with
    | none => s
    | some st =>
      if !fn.delegated && st.alreadyResolved then s.noteCall pair
      else
        let s := (if fn.delegated then s else s.markResolved fn.promise).noteCall pair
        if reject then s.rejectPromise fn.promise x
        else s.resolvePromise fn.promise x thenRead

/-- A call by the engine. What a function of the user does are events of
their own. -/
def callFunction (s : State) (f x : Value) (thenRead : ThenRead) : State :=
  match f with
  | .resolving pair reject => s.callResolving pair reject x thenRead
  | _ => s

/-- `new_promise_capability`, and the constructor up to the call of the
executor. -/
def newPromiseCapability (s : State) : State :=
  ({ s with promises := s.promises ++
      [{ resolveFn := .resolving s.pairs.length false
         rejectFn := .resolving s.pairs.length true }] } : State).makePair s.promises.length false

/-- `perform_promise_then_cap`, on a promise. -/
def performPromiseThen (s : State) (r : Registration) : State :=
  match s.promises[r.on]? with
  | none => s
  | some st =>
    let s := { s with thens := s.thens ++ [r] }
    match st.state with
    | .pending =>
      s.setPromise r.on { st with reactions := st.reactions ++ [r.reaction true, r.reaction false] }
    | .fulfilled => s.enqueue (some r.on) [(r.reaction true).job st.result]
    | .rejected => s.enqueue (some r.on) [(r.reaction false).job st.result]

def runMicrotask (s : State) (thenRead : ThenRead) : Microtask → State
  | .reaction isFulfill handler argument resolve reject =>
    if handler.isCallable then s.push (.handler resolve reject)
    else if isFulfill then s.callFunction resolve argument thenRead
    else s.callFunction reject argument thenRead
  | .thenable _ _ _ reject => s.push (.thenCall reject)

/-- The first job of the queue leaves it. -/
def takeJob (s : State) (job : Microtask) (rest : List Microtask) : State :=
  { s with jobQueue := rest, taken := s.taken ++ [job] }

/-- The called code returns. -/
def returned (s : State) (v : Value) (thenRead : ThenRead) : Frame → State
  | .thenOf p x => s.resolveThen p x v
  | .handler resolve _ => s.callFunction resolve v thenRead
  | .thenCall _ | .executor _ => s

/-- The called code throws. -/
def thrown (s : State) (e : Value) (thenRead : ThenRead) : Frame → State
  | .thenOf p _ | .executor p => s.rejectPromise p e
  | .handler _ reject | .thenCall reject => s.callFunction reject e thenRead

end State

inductive Event where
  /-- `new Promise(executor)`. -/
  | construct
  | capability
  /-- A resolving function is called by anyone. -/
  | call (pair : Nat) (reject : Bool) (x : Value) (thenRead : ThenRead)
  | «then» (r : Registration)
  /-- The engine resolves, fulfils or rejects a promise of its own. -/
  | resolve (p : Nat) (x : Value) (thenRead : ThenRead)
  | fulfill (p : Nat) (value : Value)
  | reject (p : Nat) (reason : Value)
  | job (thenRead : ThenRead)
  /-- The job at which `drain_microtasks` gives up is taken and not run. -/
  | abortDrain
  | returned (v : Value) (thenRead : ThenRead)
  | thrown (e : Value) (thenRead : ThenRead)
deriving DecidableEq, Repr

def step (s : State) : Event → State
  | .construct => s.newPromiseCapability.push (.executor s.promises.length)
  | .capability => s.newPromiseCapability
  | .call pair reject x thenRead => s.callResolving pair reject x thenRead
  | .then r => s.performPromiseThen r
  | .resolve p x thenRead => s.resolvePromise p x thenRead
  | .fulfill p value => s.fulfillPromise p value
  | .reject p reason => s.rejectPromise p reason
  | .job thenRead =>
    match s.jobQueue with
    | [] => s
    | job :: rest => (s.takeJob job rest).runMicrotask thenRead job
  | .abortDrain =>
    match s.jobQueue with
    | [] => s
    | job :: rest => s.takeJob job rest
  | .returned v thenRead =>
    match s.frames with
    | [] => s
    | f :: rest => { s with frames := rest }.returned v thenRead f
  | .thrown e thenRead =>
    match s.frames with
    | [] => s
    | f :: rest => { s with frames := rest }.thrown e thenRead f

/-- The state a run ends in. -/
def after (events : List Event) : State :=
  run step {} events

end OxideJS.Promise
