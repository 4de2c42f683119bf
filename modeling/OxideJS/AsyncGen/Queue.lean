import OxideJS.Value.JsValue

/-!
The requests of an async generator.

Calls of `next`, `return` and `throw` are put in a queue, and the body is
resumed for one request at a time. Between the calls the generator moves
on by reactions: to the promise of an `await`, to that of a yielded value,
to the answers of an iterator it delegates to, and to those of iterators
and resources it closes on the way out.

A step of the machine is one event: a request (by any code, also the body
itself), the end of a run of the body, the end of a piece of user code the
engine calls on the way, or a reaction. What runs at the moment is on a
stack, so that all interleavings of requests with running code are runs of
the machine. The execution state of the body is left out: the event that
ends its run says why it stopped.
-/

namespace OxideJS.AsyncGen

/-! ### State -/

inductive Phase where
  | new
  | running
  | yieldSuspended
  | awaitSuspended
  | completed
  deriving DecidableEq

inductive Mode where
  | next (v : JsValue)
  | return (v : JsValue)
  | throw (e : JsValue)

/-- A request with the promise that was handed out for it. -/
structure Request where
  mode : Mode
  promise : Nat

/-- What a body that delegates waits for. -/
inductive DelegateStep where
  | inner
  | return
  | close
  | returnAwait
  deriving DecidableEq

/-- A reaction that has been registered, in both of its roles. -/
inductive Reaction where
  /-- `async_gen_await_resume_closure` -/
  | await
  /-- `async_gen_yield_unwrap_closure`, with the promise of the request -/
  | unwrap (promise : Nat)
  /-- `async_gen_delegate_step_closure`, for the last step
  `async_gen_delegate_return_await_closure` -/
  | delegate (step : DelegateStep)
  /-- `async_gen_escape_closure`, with the promise of the closed iterator -/
  | escape (closePromise : JsValue)
  /-- `async_gen_dispose_closure` -/
  | dispose (disposePromise : JsValue)

/-- What is running: the body, the read of `then` of an iterator result in
`resolve_promise`, or the reads of `done` and `value` of what an inner
iterator answered. -/
inductive Frame where
  | body
  | resolving (promise : Nat) (value : JsValue) (done : Bool)
  | reading (step : DelegateStep)

def Frame.isBody : Frame → Bool
  | .body => true
  | _ => false

inductive Settlement where
  | fulfilled (value : JsValue) (done : Bool)
  | rejected (exc : JsValue)
  /-- settled by the thenable that the iterator result was taken for -/
  | deferred

structure State where
  phase : Phase
  queue : List Request
  current : Option Request
  delegatePending : Option DelegateStep
  pendingEscape : Option JsValue
  pendingDispose : Option JsValue
  /-- the module table of the generator's function is still registered -/
  tableAlive : Bool
  reactions : List Reaction
  stack : List Frame
  /-- promises that wait for a thenable -/
  deferred : List Nat
  /-- the number of requests so far; their promises are numbered -/
  made : Nat
  /-- the promises that have been settled, in this order -/
  settled : List (Nat × Settlement)

/-- A generator that has just been created: its parameters have been
initialised, and it waits at the start of its body. -/
def State.init : State where
  phase := .yieldSuspended
  queue := []
  current := none
  delegatePending := none
  pendingEscape := none
  pendingDispose := none
  tableAlive := true
  reactions := []
  stack := []
  deferred := []
  made := 0
  settled := []

/-! ### Settling and resuming -/

namespace State

/-- `fulfill_promise` and `reject_promise`: a promise that is not pending
stays as it is. -/
def settle (s : State) (promise : Nat) (st : Settlement) : State :=
  if promise ∈ s.settled.map Prod.fst then s
  else { s with settled := s.settled ++ [(promise, st)] }

/-- `resolve_promise` with an iterator result, up to the read of its
`then`. -/
def resolve (s : State) (promise : Nat) (value : JsValue) (done : Bool) : State :=
  { s with stack := .resolving promise value done :: s.stack }

/-- `resume_async_generator` up to the point where the body runs. -/
def resume (s : State) : State :=
  if s.tableAlive then { s with phase := .running, stack := .body :: s.stack } else s

/-- The mode of the current request is overwritten. -/
def inject (s : State) (mode : Mode) : State :=
  { s with current := s.current.map fun r => { r with mode := mode } }

/-- `async_generator_start` of a completed generator, one request after the
other until user code has to run. -/
def startCompleted : List Request → State → State
  | [], s => { s with queue := [] }
  | r :: queue, s =>
    match r.mode with
    | .next _ => { s with queue := queue }.resolve r.promise .undefined true
    | .return v => { s with queue := queue }.resolve r.promise v true
    | .throw e => startCompleted queue (s.settle r.promise (.rejected e))

/-- `async_generator_start`. -/
def start (s : State) : State :=
  match s.phase with
  | .running | .awaitSuspended => s
  | .completed => startCompleted s.queue s
  | .new | .yieldSuspended =>
    match s.queue with
    | [] => s
    | r :: queue => { s with queue := queue, current := some r }.resume

/-- A request with a new promise is the last in the queue. -/
def push (s : State) (mode : Mode) : State :=
  { s with queue := s.queue ++ [⟨mode, s.made⟩], made := s.made + 1 }

/-- `async_generator_enqueue`; the check of the phase is that of
`async_generator_start`. -/
def enqueue (s : State) (mode : Mode) : State :=
  (s.push mode).start

end State

/-! ### The end of a run of the body -/

/-- Why the body stopped. -/
inductive Outcome where
  | yields (value : JsValue)
  | awaits
  /-- a request was forwarded to the iterator the body delegates to -/
  | delegates (step : DelegateStep)
  /-- an asynchronous iterator that is left is being closed -/
  | escapes (closePromise : JsValue)
  /-- a resource that is left is being disposed of -/
  | disposes (disposePromise : JsValue)
  | completes (value : JsValue)
  | throws (exc : JsValue)
  /-- a `return` could not leave an iterator or a resource, and the error
  was passed up -/
  | closeFails

namespace State

/-- The body waits for a reaction. -/
def await (s : State) (ρ : Reaction) : State :=
  { s with phase := .awaitSuspended, reactions := s.reactions ++ [ρ] }

/-- `post_dispatch_async_gen` and the exits of `resume_async_generator`
before it. -/
def stop (s : State) : Outcome → State
  | .yields _ =>
    match s.current with
    | some r => { s with current := none }.await (.unwrap r.promise)
    | none => { s with phase := .awaitSuspended }
  | .awaits => s.await .await
  | .delegates step => { s with delegatePending := some step }.await (.delegate step)
  | .escapes p => { s with pendingEscape := some p }.await (.escape p)
  | .disposes p => { s with pendingDispose := some p }.await (.dispose p)
  | .completes v =>
    match s.current with
    | some r => { s with phase := .completed, current := none }.resolve r.promise v true
    | none => { s with phase := .completed }.start
  | .throws e =>
    match s.current with
    | some r =>
      ({ s with phase := .completed, current := none }.settle r.promise (.rejected e)).start
    | none => { s with phase := .completed }.start
  | .closeFails => s

end State

/-! ### Reactions -/

/-- What reading `then` of an iterator result comes to. -/
inductive ThenRead where
  | plain
  | throws (exc : JsValue)
  | callable

/-- What reading `done` and `value` of an inner iterator's answer comes
to. -/
inductive AnswerRead where
  | answer (done : Bool) (value : JsValue)
  | throws (exc : JsValue)

namespace State

/-- The end of `resolve_promise`, and the next request. -/
def finishResolving (s : State) (promise : Nat) (value : JsValue) (done : Bool) : ThenRead → State
  | .plain => (s.settle promise (.fulfilled value done)).start
  | .throws exc => (s.settle promise (.rejected exc)).start
  | .callable => { s with deferred := promise :: s.deferred }.start

/-- The body goes on with the mode given, and no longer delegates. -/
def resumeWith (s : State) (mode : Mode) : State :=
  ({ s with delegatePending := none }.inject mode).resume

/-- A body that waits waits no longer. -/
def leaveAwait (s : State) (phase : Phase) : State :=
  if s.phase = .awaitSuspended then { s with phase := phase } else s

/-- `delegate_yield_raw`. -/
def delegateYieldRaw (s : State) (value : JsValue) : State :=
  let s := { s with delegatePending := none }.leaveAwait .yieldSuspended
  match s.current with
  | some r => { s with current := none }.resolve r.promise value false
  | none => s.start

/-- `async_gen_delegate_step_closure` after the reads. -/
def finishReading (s : State) : DelegateStep → AnswerRead → State
  | _, .throws exc => s.resumeWith (.throw exc)
  | .inner, .answer true v => s.resumeWith (.next v)
  | .inner, .answer false v => s.delegateYieldRaw v
  | .return, .answer true v => s.resumeWith (.return v)
  | .return, .answer false v => s.delegateYieldRaw v
  | .close, .answer _ _ | .returnAwait, .answer _ _ => s

/-- The errors the delegation protocol makes itself. -/
structure Env where
  answerNotAnObject : JsValue
  closeNotAnObject : JsValue
  noThrowMethod : JsValue

/-- `async_gen_delegate_step_closure` up to the reads, and
`async_gen_delegate_return_await_closure`. A `return` does not ask whether
its answer is a rejection. -/
def delegateStep (env : Env) (s : State) (step : DelegateStep) (result : Except JsValue JsValue) :
    State :=
  if s.delegatePending ≠ some step then s
  else
    match step, result with
    | .inner, .error exc => s.resumeWith (.throw exc)
    | .inner, .ok v =>
      if v.isObject then { s with stack := .reading .inner :: s.stack }
      else s.resumeWith (.throw env.answerNotAnObject)
    | .return, .error v | .return, .ok v =>
      if v.isObject then { s with stack := .reading .return :: s.stack }
      else s.resumeWith (.throw env.answerNotAnObject)
    | .close, .error exc => s.resumeWith (.throw exc)
    | .close, .ok v =>
      s.resumeWith (.throw (if v.isObject then env.noThrowMethod else env.closeNotAnObject))
    | .returnAwait, .error exc => s.resumeWith (.throw exc)
    | .returnAwait, .ok v => s.resumeWith (.return v)

/-- A reaction runs; it has been taken out of the list. -/
def react (env : Env) (s : State) : Reaction → Except JsValue JsValue → State
  | .await, .ok v => (s.inject (.next v)).resume
  | .await, .error exc => (s.inject (.throw exc)).resume
  | .unwrap promise, .error exc =>
    ((s.settle promise (.rejected exc)).leaveAwait .completed).start
  | .unwrap promise, .ok v => (s.leaveAwait .yieldSuspended).resolve promise v false
  | .delegate step, result => s.delegateStep env step result
  | .escape p, _ =>
    if s.pendingEscape ≠ some p then s else { s with pendingEscape := none }.resume
  | .dispose p, _ =>
    if s.pendingDispose ≠ some p then s else { s with pendingDispose := none }.resume

end State

/-! ### The machine -/

inductive Event where
  /-- `next`, `return` or `throw` is called -/
  | request (mode : Mode)
  /-- the body that runs stops -/
  | stops (outcome : Outcome)
  | readsThen (r : ThenRead)
  | readsAnswer (r : AnswerRead)
  /-- the promise of a reaction has been settled, and its job runs -/
  | reacts (i : Nat) (result : Except JsValue JsValue)
  /-- the job is the one that a drain drops at its limit -/
  | drops (i : Nat)
  /-- a thenable settles the promise it was given -/
  | defers (promise : Nat)
  /-- the module table of the generator's function goes away -/
  | reclaims

open State (Env)

/-- One event; one that is not possible changes nothing. -/
def step (env : Env) (s : State) : Event → State
  | .request mode => s.enqueue mode
  | .stops outcome =>
    match s.stack with
    | .body :: stack => { s with stack := stack }.stop outcome
    | _ => s
  | .readsThen r =>
    match s.stack with
    | .resolving promise value done :: stack =>
      { s with stack := stack }.finishResolving promise value done r
    | _ => s
  | .readsAnswer r =>
    match s.stack with
    | .reading step :: stack => { s with stack := stack }.finishReading step r
    | _ => s
  | .reacts i result =>
    match s.reactions[i]? with
    | some ρ => { s with reactions := s.reactions.eraseIdx i }.react env ρ result
    | none => s
  | .drops i => { s with reactions := s.reactions.eraseIdx i }
  | .defers promise =>
    if promise ∈ s.deferred then
      { s with deferred := s.deferred.erase promise }.settle promise .deferred
    else s
  | .reclaims => { s with tableAlive := false }

end OxideJS.AsyncGen
