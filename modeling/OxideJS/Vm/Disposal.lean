import Mathlib.Algebra.BigOperators.Group.Finset.Piecewise
import Mathlib.Algebra.Order.BigOperators.Group.Finset

/-!
`DisposableStack` and `AsyncDisposableStack` as one machine. A native that reads a
property or calls a callback hands control to script and waits as a frame of the
machine, so the inputs of a run are what script does next: it calls a native, it
returns to the innermost waiting native, or it throws to it. Nothing is assumed about
a callback: it may dispose, move or extend any stack, also the one whose entry is
being released. A loop of `disposeAsync` that awaits a promise leaves the machine and
comes back when the promise settles, in any order.

The trace says what happened to the entries, and `View` collects what it says about one
stack together with the capability and the disposals that are under way.
-/

namespace OxideJS.Disposal

inductive JsValue
  | undefined
  | null
  | primitive (n : ℕ)
  | object (id : ℕ) (callable : Bool)
  | stack (s : ℕ)
  | promise (p : ℕ)
  deriving DecidableEq

namespace JsValue

def isNullish : JsValue → Bool
  | undefined | null => true
  | _ => false

def isObject : JsValue → Bool
  | object _ _ | stack _ | promise _ => true
  | _ => false

def isCallable : JsValue → Bool
  | object _ callable => callable
  | _ => false

def isPromise : JsValue → Bool
  | promise _ => true
  | _ => false

/-- The intrinsic constructor of promises. -/
def promiseConstructor : JsValue := object 0 true

end JsValue

inductive Thrown
  | typeError (message : String)
  | referenceError (message : String)
  | script (v : JsValue)
  | suppressed (error prev : Thrown)
  deriving DecidableEq

/-- The type tags of the two kinds of stack. -/
inductive Kind
  | disposableStack
  | asyncDisposableStack
  deriving DecidableEq

inductive Hint
  | syncDispose
  | asyncDispose
  deriving DecidableEq

structure DisposeEntry where
  value : JsValue
  method : JsValue
  hint : Hint
  argStyle : Bool
  wrapSync : Bool
  deriving DecidableEq

inductive DisposeState
  | pending
  | disposing
  | disposed
  deriving DecidableEq

structure DisposeCapability where
  kind : Kind
  state : DisposeState
  entries : List DisposeEntry

/-- The receiver and the arguments with which the method of an entry is called. -/
def callEntryMethod (entry : DisposeEntry) : JsValue × JsValue × List JsValue :=
  if entry.argStyle then (entry.method, .undefined, [entry.value])
  else (entry.method, entry.value, [])

def mergeDisposeError (completion : Option Thrown) (err : Thrown) : Option Thrown :=
  some (match completion with
    | none => err
    | some prev => .suppressed err prev)

/-- The error of a disposal whose failures are these, the first one first. -/
def chain (failures : List Thrown) : Option Thrown := failures.foldl mergeDisposeError none

/-- The slots of the closure that continues a `disposeAsync`; `initial` says that the loop still
runs inside the call of `disposeAsync` itself, which has yet to answer its promise. -/
structure Loop where
  stack : ℕ
  promise : ℕ
  index : ℕ
  completion : Option Thrown
  needsAwait : Bool
  hasAwaited : Bool
  initial : Bool

/-- A native that waits for script. The last two are in `promise_resolve`: it reads the constructor
of the promise it is given, and the `then` of an object it is to wrap. -/
inductive Frame
  | reading (s : ℕ) (value : JsValue)
  | readingAsync (s : ℕ) (value : JsValue)
  | readingFallback (s : ℕ) (value : JsValue)
  | disposing (s n : ℕ) (completion : Option Thrown)
  | disposingAsync (l : Loop) (entry : DisposeEntry)
  | resolving (l : Loop) (outcome : Option (Except Thrown Unit))
  | readingThen (l : Loop)

/-- A loop that awaits a promise; of some promises the outcome is known. -/
structure Await where
  loop : Loop
  outcome : Option (Except Thrown Unit)

inductive Event
  | answer (r : Except Thrown JsValue)
  | added (s : ℕ) (e : DisposeEntry)
  | moved (s t : ℕ) (es : List DisposeEntry)
  | began (s : ℕ) (es : List DisposeEntry)
  | called (s : ℕ) (e : DisposeEntry) (call : JsValue × JsValue × List JsValue)
  | failed (s : ℕ) (err : Thrown)
  | finished (s : ℕ) (completion : Option Thrown)
  | givenUp (s : ℕ) (err : Thrown)
  | outOfBounds (s : ℕ)

structure Vm where
  caps : ℕ → DisposeCapability
  next : ℕ
  frames : List Frame
  waiting : List Await
  promises : ℕ
  settled : List (ℕ × Option Thrown)
  trace : List Event

namespace Vm

def init : Vm where
  caps := fun _ => ⟨.disposableStack, .pending, []⟩
  next := 0
  frames := []
  waiting := []
  promises := 0
  settled := []
  trace := []

def record (vm : Vm) (ev : Event) : Vm := { vm with trace := vm.trace ++ [ev] }

def answer (vm : Vm) (r : Except Thrown JsValue) : Vm := vm.record (.answer r)

def enter (vm : Vm) (f : Frame) : Vm := { vm with frames := f :: vm.frames }

def setCap (vm : Vm) (s : ℕ) (cap : DisposeCapability) : Vm :=
  { vm with caps := Function.update vm.caps s cap }

def pushEntry (vm : Vm) (s : ℕ) (e : DisposeEntry) : Vm :=
  (vm.setCap s { vm.caps s with entries := (vm.caps s).entries ++ [e] }).record (.added s e)

/-- The entries are dropped and the completion is reported. -/
def finish (vm : Vm) (s : ℕ) (completion : Option Thrown) : Vm :=
  (vm.setCap s { vm.caps s with entries := [] }).record (.finished s completion)

def settle (vm : Vm) (p : ℕ) (completion : Option Thrown) : Vm :=
  { vm with settled := vm.settled ++ [(p, completion)] }

/-- The first run of a loop ends inside `disposeAsync`, which then answers its promise. -/
def leave (vm : Vm) (l : Loop) : Vm :=
  if l.initial then vm.answer (.ok (.promise l.promise)) else vm

def wait (vm : Vm) (l : Loop) (outcome : Option (Except Thrown Unit)) : Vm :=
  leave { vm with waiting := vm.waiting ++ [⟨{ l with initial := false }, outcome⟩] } l

def requireDisposeCapability (vm : Vm) (this : JsValue) (kind : Kind) : Except Thrown ℕ :=
  match this with
  | .stack s =>
    if s < vm.next ∧ (vm.caps s).kind = kind then .ok s
    else .error (.typeError "DisposableStack.prototype method called on incompatible receiver")
  | .object _ _ | .promise _ =>
    .error (.typeError "DisposableStack.prototype method called on incompatible receiver")
  | _ => .error (.typeError "called on non-DisposableStack object")

/-- The prologue the natives that need a pending stack share. -/
def withPending (vm : Vm) (this : JsValue) (kind : Kind) (body : ℕ → Vm) : Vm :=
  match vm.requireDisposeCapability this kind with
  | .error err => vm.answer (.error err)
  | .ok s =>
    if (vm.caps s).state ≠ .pending then
      vm.answer (.error (.referenceError "DisposableStack has been disposed"))
    else body s

/-- Allocation of a stack of the kind with these entries. -/
def allocDisposableStack (vm : Vm) (kind : Kind) (entries : List DisposeEntry) : Vm :=
  { vm.setCap vm.next ⟨kind, .pending, entries⟩ with next := vm.next + 1 }

def construct (vm : Vm) (kind : Kind) : Vm :=
  (vm.allocDisposableStack kind []).answer (.ok (.stack vm.next))

def disposableStackUse (vm : Vm) (this value : JsValue) : Vm :=
  vm.withPending this .disposableStack fun s =>
    if value.isNullish then vm.answer (.ok value)
    else if !value.isObject then vm.answer (.error (.typeError "value is not an Object"))
    else vm.enter (.reading s value)

def asyncDisposableStackUse (vm : Vm) (this value : JsValue) : Vm :=
  vm.withPending this .asyncDisposableStack fun s =>
    if value.isNullish then
      (vm.pushEntry s ⟨value, .undefined, .asyncDispose, false, false⟩).answer (.ok value)
    else if !value.isObject then vm.answer (.error (.typeError "value is not an Object"))
    else vm.enter (.readingAsync s value)

/-- `adopt` and `defer` of both kinds: a callable is registered, or refused with the text. -/
def register (vm : Vm) (this : JsValue) (kind : Kind) (entry : DisposeEntry) (refusal : String)
    (result : JsValue) : Vm :=
  vm.withPending this kind fun s =>
    if entry.method.isCallable then (vm.pushEntry s entry).answer (.ok result)
    else vm.answer (.error (.typeError refusal))

def disposableStackAdopt (vm : Vm) (this value onDispose : JsValue) : Vm :=
  vm.register this .disposableStack ⟨value, onDispose, .syncDispose, true, false⟩
    "onDispose is not callable" value

def asyncDisposableStackAdopt (vm : Vm) (this value onDispose : JsValue) : Vm :=
  vm.register this .asyncDisposableStack ⟨value, onDispose, .asyncDispose, true, false⟩
    "onDisposeAsync is not callable" value

def disposableStackDefer (vm : Vm) (this onDispose : JsValue) : Vm :=
  vm.register this .disposableStack ⟨.undefined, onDispose, .syncDispose, false, false⟩
    "onDispose is not callable" .undefined

def asyncDisposableStackDefer (vm : Vm) (this onDispose : JsValue) : Vm :=
  vm.register this .asyncDisposableStack ⟨.undefined, onDispose, .asyncDispose, false, false⟩
    "onDisposeAsync is not callable" .undefined

def stackMoveImpl (vm : Vm) (this : JsValue) (kind : Kind) : Vm :=
  vm.withPending this kind fun s =>
    let taken := (vm.caps s).entries
    let vm' := (vm.setCap s { vm.caps s with entries := [] }).allocDisposableStack kind taken
    ((vm'.setCap s ⟨kind, .disposed, []⟩).record (.moved s vm.next taken)).answer
      (.ok (.stack vm.next))

/-- The state is set before anything is called. -/
def beginDisposal (vm : Vm) (s : ℕ) : Vm :=
  (vm.setCap s { vm.caps s with state := .disposed }).record (.began s (vm.caps s).entries)

/-- The loop of `dispose` over the first `n` entries, from the last of them down, up to the next
call of a callback. -/
def disposeLoop (vm : Vm) (s : ℕ) (completion : Option Thrown) : ℕ → Vm
  | 0 =>
    (vm.finish s completion).answer
      (match completion with
        | some err => .error err
        | none => .ok .undefined)
  | n + 1 =>
    match (vm.caps s).entries[n]? with
    | none => vm.record (.outOfBounds s)
    | some entry =>
      if entry.method = .undefined then vm.disposeLoop s completion n
      else (vm.record (.called s entry (callEntryMethod entry))).enter (.disposing s n completion)

def disposableStackDispose (vm : Vm) (this : JsValue) : Vm :=
  match vm.requireDisposeCapability this .disposableStack with
  | .error err => vm.answer (.error err)
  | .ok s =>
    if (vm.caps s).state ≠ .pending then vm.answer (.ok .undefined)
    else (vm.beginDisposal s).disposeLoop s none (vm.caps s).entries.length

/-- The loop of `disposeAsync`, with the index and `needs_await` it has reached, up to the next
call or await. -/
def runDisposeLoop (vm : Vm) (l : Loop) : ℕ → Bool → Vm
  | 0, needsAwait =>
    if needsAwait && !l.hasAwaited then
      vm.wait { l with index := 0, needsAwait := false } (some (.ok ()))
    else ((vm.finish l.stack l.completion).settle l.promise l.completion).leave l
  | n + 1, needsAwait =>
    match (vm.caps l.stack).entries[n]? with
    | none => vm.record (.outOfBounds l.stack)
    | some entry =>
      -- a sync entry waits first, without moving on
      if entry.hint = .syncDispose ∧ (needsAwait && !l.hasAwaited) then
        vm.wait { l with index := n + 1, needsAwait := false } (some (.ok ()))
      else if entry.method = .undefined then vm.runDisposeLoop l n true
      else
        (vm.record (.called l.stack entry (callEntryMethod entry))).enter
          (.disposingAsync { l with index := n, needsAwait := needsAwait } entry)

def disposeAsync (vm : Vm) (this : JsValue) : Vm :=
  let p := vm.promises
  let vm := { vm with promises := p + 1 }
  match vm.requireDisposeCapability this .asyncDisposableStack with
  | .error err => (vm.settle p (some err)).answer (.ok (.promise p))
  | .ok s =>
    if (vm.caps s).state = .disposed then (vm.settle p none).answer (.ok (.promise p))
    else
      (vm.beginDisposal s).runDisposeLoop
        ⟨s, p, (vm.caps s).entries.length, none, false, false, true⟩
        (vm.caps s).entries.length false

/-- An error is merged into the completion and the loop goes on. -/
def failLoop (vm : Vm) (l : Loop) (err : Thrown) : Vm :=
  (vm.record (.failed l.stack err)).runDisposeLoop
    { l with completion := mergeDisposeError l.completion err } l.index l.needsAwait

/-- The method of an entry has returned to the loop, or thrown to it. -/
def afterCall (vm : Vm) (l : Loop) (entry : DisposeEntry) (r : Except Thrown JsValue) : Vm :=
  match r with
  | .error err =>
    if entry.hint = .asyncDispose ∧ entry.wrapSync then
      vm.enter (.resolving { l with hasAwaited := true } (some (.error err)))
    else vm.failLoop l err
  | .ok value =>
    if entry.hint = .asyncDispose then
      if entry.wrapSync || !value.isObject then
        vm.wait { l with hasAwaited := true } (some (.ok ()))
      else if value.isPromise then vm.enter (.resolving { l with hasAwaited := true } none)
      else vm.enter (.readingThen { l with hasAwaited := true })
    else vm.runDisposeLoop l l.index l.needsAwait

/-- `promise_resolve` failed: the promise is rejected and the loop is not continued. -/
def giveUp (vm : Vm) (l : Loop) (err : Thrown) : Vm :=
  ((vm.record (.givenUp l.stack err)).settle l.promise (some err)).leave l

/-- What was read as the method of a resource: it is registered, or refused with the text. -/
def addResource (vm : Vm) (s : ℕ) (value method : JsValue) (hint : Hint) (wrapSync : Bool)
    (refusal : String) : Vm :=
  if method.isCallable then
    (vm.pushEntry s ⟨value, method, hint, false, wrapSync⟩).answer (.ok value)
  else vm.answer (.error (.typeError refusal))

/-- Script returns or throws to the native that waits for it. -/
def resumeFrame (vm : Vm) (f : Frame) (r : Except Thrown JsValue) : Vm :=
  match f, r with
  | .reading _ _, .error err => vm.answer (.error err)
  | .reading s value, .ok method =>
    vm.addResource s value method .syncDispose false "value[Symbol.dispose] is not callable"
  | .readingAsync _ _, .error err => vm.answer (.error err)
  | .readingAsync s value, .ok method =>
    if method.isNullish then vm.enter (.readingFallback s value)
    else vm.addResource s value method .asyncDispose false
      "value[Symbol.asyncDispose] is not callable"
  | .readingFallback _ _, .error err => vm.answer (.error err)
  | .readingFallback s value, .ok method =>
    if method.isNullish then
      vm.answer (.error
        (.typeError "value has no callable Symbol.asyncDispose or Symbol.dispose method"))
    else vm.addResource s value method .asyncDispose true "value[Symbol.dispose] is not callable"
  | .disposing s n completion, .error err =>
    (vm.record (.failed s err)).disposeLoop s (mergeDisposeError completion err) n
  | .disposing s n completion, .ok _ => vm.disposeLoop s completion n
  | .disposingAsync l entry, r => vm.afterCall l entry r
  | .resolving l outcome, .ok constructor =>
    if constructor = .promiseConstructor then vm.wait l outcome else vm.enter (.readingThen l)
  | .resolving l _, .error err => vm.giveUp l err
  | .readingThen l, .ok method => vm.wait l (if method.isCallable then none else some (.ok ()))
  | .readingThen l, .error err => vm.wait l (some (.error err))

def resume (vm : Vm) (r : Except Thrown JsValue) : Vm :=
  match vm.frames with
  | [] => vm
  | f :: fs => resumeFrame { vm with frames := fs } f r

/-- The promise the `k`-th loop awaits settles; its reactions run when no script does. -/
def continueLoop (vm : Vm) (k : ℕ) (outcome : Except Thrown Unit) : Vm :=
  match vm.frames, vm.waiting[k]? with
  | [], some w =>
    let vm := { vm with waiting := vm.waiting.take k ++ vm.waiting.drop (k + 1) }
    match w.outcome.getD outcome with
    | .ok () => vm.runDisposeLoop w.loop w.loop.index w.loop.needsAwait
    | .error err => vm.failLoop w.loop err
  | _, _ => vm

end Vm

/-- What script or the job queue does next. -/
inductive Input
  | construct (kind : Kind)
  | use (kind : Kind) (this value : JsValue)
  | adopt (kind : Kind) (this value onDispose : JsValue)
  | defer (kind : Kind) (this onDispose : JsValue)
  | move (kind : Kind) (this : JsValue)
  | dispose (this : JsValue)
  | disposeAsync (this : JsValue)
  | resume (r : Except Thrown JsValue)
  | continueLoop (k : ℕ) (outcome : Except Thrown Unit)

def step (vm : Vm) : Input → Vm
  | .construct kind => vm.construct kind
  | .use .disposableStack this value => vm.disposableStackUse this value
  | .use .asyncDisposableStack this value => vm.asyncDisposableStackUse this value
  | .adopt .disposableStack this value f => vm.disposableStackAdopt this value f
  | .adopt .asyncDisposableStack this value f => vm.asyncDisposableStackAdopt this value f
  | .defer .disposableStack this f => vm.disposableStackDefer this f
  | .defer .asyncDisposableStack this f => vm.asyncDisposableStackDefer this f
  | .move kind this => vm.stackMoveImpl this kind
  | .dispose this => vm.disposableStackDispose this
  | .disposeAsync this => vm.disposeAsync this
  | .resume r => vm.resume r
  | .continueLoop k outcome => vm.continueLoop k outcome

def run (inputs : List Input) : Vm := inputs.foldl step Vm.init

/-! ### What a run says about one stack -/

def Loop.activity (s : ℕ) (l : Loop) : List (ℕ × Option Thrown) :=
  if l.stack = s then [(l.index, l.completion)] else []

def Frame.activity (s : ℕ) : Frame → List (ℕ × Option Thrown)
  | .disposing t n completion => if t = s then [(n, completion)] else []
  | .disposingAsync l _ | .resolving l _ | .readingThen l => l.activity s
  | _ => []

namespace Event

@[simp] def addedTo (s : ℕ) : Event → List DisposeEntry
  | .added t e => if t = s then [e] else []
  | .moved _ t es => if t = s then es else []
  | _ => []

@[simp] def takenFrom (s : ℕ) : Event → List DisposeEntry
  | .moved t _ es => if t = s then es else []
  | _ => []

@[simp] def heldBy (s : ℕ) : Event → List (List DisposeEntry)
  | .began t es => if t = s then [es] else []
  | _ => []

@[simp] def calledFor (s : ℕ) : Event → List DisposeEntry
  | .called t e _ => if t = s then [e] else []
  | _ => []

@[simp] def failureOf (s : ℕ) : Event → List Thrown
  | .failed t err => if t = s then [err] else []
  | _ => []

@[simp] def completionOf (s : ℕ) : Event → List (Option Thrown)
  | .finished t completion => if t = s then [completion] else []
  | _ => []

@[simp] def abortOf (s : ℕ) : Event → List Thrown
  | .givenUp t err => if t = s then [err] else []
  | _ => []

@[simp] def overrunOf (s : ℕ) : Event → List Unit
  | .outOfBounds t => if t = s then [()] else []
  | _ => []

end Event

/-- The capability of a stack, the disposals of it that are under way, and its part of the
trace. -/
@[ext] structure View where
  state : DisposeState
  entries : List DisposeEntry
  acts : List (ℕ × Option Thrown)
  added : List DisposeEntry
  taken : List DisposeEntry
  held : List (List DisposeEntry)
  called : List DisposeEntry
  failures : List Thrown
  completions : List (Option Thrown)
  aborts : List Thrown
  overruns : List Unit

def Vm.view (vm : Vm) (s : ℕ) : View where
  state := (vm.caps s).state
  entries := (vm.caps s).entries
  acts := vm.frames.flatMap (Frame.activity s) ++ vm.waiting.flatMap (fun w => w.loop.activity s)
  added := vm.trace.flatMap (Event.addedTo s)
  taken := vm.trace.flatMap (Event.takenFrom s)
  held := vm.trace.flatMap (Event.heldBy s)
  called := vm.trace.flatMap (Event.calledFor s)
  failures := vm.trace.flatMap (Event.failureOf s)
  completions := vm.trace.flatMap (Event.completionOf s)
  aborts := vm.trace.flatMap (Event.abortOf s)
  overruns := vm.trace.flatMap (Event.overrunOf s)

/-- A stack nothing has been done to. -/
def View.blank : View := ⟨.pending, [], [], [], [], [], [], [], [], [], []⟩

/-- The calls a disposal of these entries makes, in order. -/
def releases (es : List DisposeEntry) : List DisposeEntry :=
  (es.filter fun e => e.method ≠ .undefined).reverse

theorem releases_drop_succ {es : List DisposeEntry} {n : ℕ} {e : DisposeEntry}
    (h : es[n]? = some e) :
    releases (es.drop n) =
      releases (es.drop (n + 1)) ++ (if e.method = .undefined then [] else [e]) := by
  obtain ⟨hn, rfl⟩ := List.getElem?_eq_some_iff.mp h
  rw [releases, List.drop_eq_getElem_cons hn, List.filter_cons]
  by_cases hm : es[n].method = .undefined
  · simp only [hm, ne_eq, not_true_eq_false, decide_false, Bool.false_eq_true, if_false, if_true,
      List.append_nil, releases]
  · simp only [hm, ne_eq, not_false_eq_true, decide_true, if_true, if_false, List.reverse_cons,
      releases]

/-- A disposal of `es` has come down to the first `n` of them, with this completion. -/
structure View.Progress (v : View) (es : List DisposeEntry) (n : ℕ) (c : Option Thrown) :
    Prop where
  state : v.state = .disposed
  held : v.held = [es]
  within : es <+: v.added
  entries : es <+: v.entries
  bound : n ≤ es.length
  called : v.called = releases (es.drop n)
  completion : c = chain v.failures
  open_ : v.completions = []
  aborts : v.aborts = []
  taken : v.taken = []

/-- Where a stack stands. -/
inductive View.Standing (v : View) : Prop
  | pending (state : v.state = .pending) (acts : v.acts = []) (entries : v.entries = v.added)
      (taken : v.taken = []) (held : v.held = []) (called : v.called = [])
      (failures : v.failures = []) (completions : v.completions = []) (aborts : v.aborts = [])
  | moved (state : v.state = .disposed) (acts : v.acts = []) (taken : v.taken <+: v.added)
      (held : v.held = []) (called : v.called = []) (failures : v.failures = [])
      (completions : v.completions = []) (aborts : v.aborts = [])
  | running (es : List DisposeEntry) (n : ℕ) (c : Option Thrown) (acts : v.acts = [(n, c)])
      (progress : v.Progress es n c)
  | released (es : List DisposeEntry) (state : v.state = .disposed) (acts : v.acts = [])
      (held : v.held = [es]) (within : es <+: v.added) (called : v.called = releases es)
      (completions : v.completions = [chain v.failures]) (aborts : v.aborts = [])
      (taken : v.taken = [])
  | abandoned (es : List DisposeEntry) (n : ℕ) (err : Thrown) (state : v.state = .disposed)
      (acts : v.acts = []) (held : v.held = [es]) (within : es <+: v.added)
      (called : v.called = releases (es.drop n)) (completions : v.completions = [])
      (aborts : v.aborts = [err]) (taken : v.taken = [])

structure View.Sound (v : View) : Prop where
  inBounds : v.overruns = []
  standing : v.Standing

namespace Vm

variable {vm : Vm} {s t : ℕ}

theorem view_record (ev : Event) : (vm.record ev).view s =
    { vm.view s with
      added := (vm.view s).added ++ ev.addedTo s
      taken := (vm.view s).taken ++ ev.takenFrom s
      held := (vm.view s).held ++ ev.heldBy s
      called := (vm.view s).called ++ ev.calledFor s
      failures := (vm.view s).failures ++ ev.failureOf s
      completions := (vm.view s).completions ++ ev.completionOf s
      aborts := (vm.view s).aborts ++ ev.abortOf s
      overruns := (vm.view s).overruns ++ ev.overrunOf s } := by
  simp [record, view, List.flatMap_append]

@[simp] theorem view_answer (r : Except Thrown JsValue) : (vm.answer r).view s = vm.view s := by
  simp [answer, view_record]

@[simp] theorem view_settle (p : ℕ) (c : Option Thrown) : (vm.settle p c).view s = vm.view s := rfl

@[simp] theorem view_leave (l : Loop) : (vm.leave l).view s = vm.view s := by
  by_cases h : l.initial <;> simp [leave, h]

theorem view_enter (f : Frame) : (vm.enter f).view s =
    { vm.view s with acts := f.activity s ++ (vm.view s).acts } := by
  simp [enter, view]

theorem view_wait (l : Loop) (o : Option (Except Thrown Unit)) : (vm.wait l o).view s =
    { vm.view s with acts := (vm.view s).acts ++ l.activity s } := by
  rw [wait, view_leave]
  simp [view, Loop.activity]

theorem view_setCap_self (cap : DisposeCapability) : (vm.setCap s cap).view s =
    { vm.view s with state := cap.state, entries := cap.entries } := by
  simp [setCap, view]

theorem view_setCap_of_ne (h : t ≠ s) (cap : DisposeCapability) :
    (vm.setCap t cap).view s = vm.view s := by
  simp [setCap, view, Function.update_of_ne h.symm]

theorem view_record_called (e : DisposeEntry) (call : JsValue × JsValue × List JsValue) :
    (vm.record (.called t e call)).view s =
      { vm.view s with called := (vm.view s).called ++ if t = s then [e] else [] } := by
  simp [view_record]

theorem view_record_failed (err : Thrown) : (vm.record (.failed t err)).view s =
    { vm.view s with failures := (vm.view s).failures ++ if t = s then [err] else [] } := by
  simp [view_record]

theorem view_record_givenUp (err : Thrown) : (vm.record (.givenUp t err)).view s =
    { vm.view s with aborts := (vm.view s).aborts ++ if t = s then [err] else [] } := by
  simp [view_record]

theorem view_pushEntry (e : DisposeEntry) : (vm.pushEntry s e).view s =
    { vm.view s with
      entries := (vm.view s).entries ++ [e]
      added := (vm.view s).added ++ [e] } := by
  simp [pushEntry, view_record, view_setCap_self]
  simp [view]

theorem view_pushEntry_of_ne (h : t ≠ s) (e : DisposeEntry) :
    (vm.pushEntry t e).view s = vm.view s := by
  simp [pushEntry, view_record, view_setCap_of_ne h, h]

theorem view_finish (c : Option Thrown) : (vm.finish s c).view s =
    { vm.view s with entries := [], completions := (vm.view s).completions ++ [c] } := by
  simp [finish, view_record, view_setCap_self]
  simp [view]

theorem view_finish_of_ne (h : t ≠ s) (c : Option Thrown) :
    (vm.finish t c).view s = vm.view s := by
  simp [finish, view_record, view_setCap_of_ne h, h]

theorem view_beginDisposal : (vm.beginDisposal s).view s =
    { vm.view s with
      state := .disposed
      held := (vm.view s).held ++ [(vm.view s).entries] } := by
  simp [beginDisposal, view_record, view_setCap_self]
  simp [view]

theorem view_beginDisposal_of_ne (h : t ≠ s) : (vm.beginDisposal t).view s = vm.view s := by
  simp [beginDisposal, view_record, view_setCap_of_ne h, h]

theorem view_allocDisposableStack (kind : Kind) (es : List DisposeEntry) :
    (vm.allocDisposableStack kind es).view s = (vm.setCap vm.next ⟨kind, .pending, es⟩).view s :=
  rfl

/-- The machine after `move`, before it answers. -/
theorem view_moved_source {kind : Kind} {es : List DisposeEntry} {cap : DisposeCapability}
    (h : s ≠ vm.next) :
    ((((vm.setCap s cap).allocDisposableStack kind es).setCap s ⟨kind, .disposed, []⟩).record
      (.moved s vm.next es)).view s =
      { vm.view s with
        state := .disposed
        entries := []
        taken := (vm.view s).taken ++ es } := by
  rw [view_record, view_setCap_self, view_allocDisposableStack]
  have hs : (vm.setCap s cap).next ≠ s := h.symm
  rw [view_setCap_of_ne hs, view_setCap_self]
  simp [h.symm]

theorem view_moved_target {kind : Kind} {es : List DisposeEntry} {cap : DisposeCapability}
    (h : s ≠ vm.next) :
    ((((vm.setCap s cap).allocDisposableStack kind es).setCap s ⟨kind, .disposed, []⟩).record
      (.moved s vm.next es)).view vm.next =
      { vm.view vm.next with
        state := .pending
        entries := es
        added := (vm.view vm.next).added ++ es } := by
  rw [view_record, view_setCap_of_ne h, view_allocDisposableStack]
  have hn : (vm.setCap s cap).next = vm.next := rfl
  rw [hn, view_setCap_self, view_setCap_of_ne h]
  simp [h]

theorem view_moved_of_ne {kind : Kind} {es : List DisposeEntry} {cap : DisposeCapability}
    (hs : s ≠ t) (hn : vm.next ≠ t) :
    ((((vm.setCap s cap).allocDisposableStack kind es).setCap s ⟨kind, .disposed, []⟩).record
      (.moved s vm.next es)).view t = vm.view t := by
  have hn' : (vm.setCap s cap).next ≠ t := hn
  rw [view_record, view_setCap_of_ne hs, view_allocDisposableStack, view_setCap_of_ne hn',
    view_setCap_of_ne hs]
  simp [hs, hn]

theorem of_requireDisposeCapability {this : JsValue} {kind : Kind}
    (h : vm.requireDisposeCapability this kind = .ok s) :
    s < vm.next ∧ (vm.caps s).kind = kind := by
  cases this with
  | stack u =>
    simp only [requireDisposeCapability] at h
    split_ifs at h with hu
    cases h
    exact hu
  | _ => cases h

end Vm

/-! ### Runs

Every run of the machine of disposable stacks. A stack is pending, has been moved, is
being disposed, has been disposed, or its disposal was given up, and in each case the
trace says the same about it as the machine (`View.Standing`). From this: what has been
called for a stack is a first part of the reverse of what the stack held when its disposal
began; the error of a disposal is made of all failures in their order; nothing is released
twice; and no disposal is lost or settled twice.
-/

/-! ### The loops -/

theorem View.Standing.push {v : View} (h : v.Standing) (e : DisposeEntry) :
    View.Standing { v with entries := v.entries ++ [e], added := v.added ++ [e] } := by
  have grow {l m : List DisposeEntry} (hl : l <+: m) : l <+: m ++ [e] :=
    hl.trans (List.prefix_append m [e])
  cases h with
  | pending state acts entries taken held called failures completions aborts =>
    exact .pending state acts (by simp [entries]) taken held called failures completions aborts
  | moved state acts taken held called failures completions aborts =>
    exact .moved state acts (grow taken) held called failures completions aborts
  | running es n c acts p =>
    exact .running es n c acts ⟨p.state, p.held, grow p.within, grow p.entries, p.bound, p.called,
      p.completion, p.open_, p.aborts, p.taken⟩
  | released es state acts held within called completions aborts taken =>
    exact .released es state acts held (grow within) called completions aborts taken
  | abandoned es n err state acts held within called completions aborts taken =>
    exact .abandoned es n err state acts held (grow within) called completions aborts taken

namespace View.Progress

variable {v : View} {es : List DisposeEntry} {n : ℕ} {c : Option Thrown}

theorem getElem (h : v.Progress es (n + 1) c) : ∃ e, v.entries[n]? = some e ∧ es[n]? = some e := by
  have hn : n < es.length := h.bound
  obtain ⟨tail, htail⟩ := h.entries
  refine ⟨es[n], ?_, List.getElem?_eq_getElem hn⟩
  rw [← htail, List.getElem?_append_left hn, List.getElem?_eq_getElem hn]

theorem skip (h : v.Progress es (n + 1) c) {e : DisposeEntry} (he : es[n]? = some e)
    (hm : e.method = .undefined) : v.Progress es n c := by
  refine ⟨h.state, h.held, h.within, h.entries, Nat.le_of_succ_le h.bound, ?_, h.completion,
    h.open_, h.aborts, h.taken⟩
  rw [h.called, releases_drop_succ he, if_pos hm, List.append_nil]

theorem call (h : v.Progress es (n + 1) c) {e : DisposeEntry} (he : es[n]? = some e)
    (hm : e.method ≠ .undefined) (acts : List (ℕ × Option Thrown)) :
    View.Progress { v with called := v.called ++ [e], acts := acts } es n c := by
  refine ⟨h.state, h.held, h.within, h.entries, Nat.le_of_succ_le h.bound, ?_, h.completion,
    h.open_, h.aborts, h.taken⟩
  rw [releases_drop_succ he, if_neg hm, h.called]

theorem fail (h : v.Progress es n c) (err : Thrown) :
    View.Progress { v with failures := v.failures ++ [err] } es n (mergeDisposeError c err) := by
  refine ⟨h.state, h.held, h.within, h.entries, h.bound, h.called, ?_, h.open_, h.aborts, h.taken⟩
  rw [h.completion]
  simp [chain]

theorem finish (h : v.Progress es 0 c) (ha : v.acts = []) (hb : v.overruns = []) :
    View.Sound { v with entries := [], completions := v.completions ++ [c] } := by
  refine ⟨hb, .released es h.state ha h.held h.within ?_ ?_ h.aborts h.taken⟩
  · simpa using h.called
  · simp [h.open_, h.completion]

end View.Progress

namespace Vm

variable {vm : Vm} {s t : ℕ}

theorem disposeLoop_of_ne (h : t ≠ s) (c : Option Thrown) (n : ℕ) :
    (vm.disposeLoop t c n).view s = vm.view s := by
  induction n with
  | zero => simp [disposeLoop, view_finish_of_ne h]
  | succ n ih =>
    rw [disposeLoop]
    rcases (vm.caps t).entries[n]? with _ | e
    · simp [view_record, h]
    · by_cases hm : e.method = .undefined
      · simp [hm, ih]
      · simp [hm, view_enter, view_record_called, h, Frame.activity]

theorem disposeLoop_sound {es : List DisposeEntry} {c : Option Thrown} {n : ℕ}
    (h : (vm.view s).Progress es n c) (ha : (vm.view s).acts = [])
    (hb : (vm.view s).overruns = []) : ((vm.disposeLoop s c n).view s).Sound := by
  induction n with
  | zero => simpa [disposeLoop, view_finish] using h.finish ha hb
  | succ n ih =>
    obtain ⟨e, hent, he⟩ := h.getElem
    have hcap : (vm.caps s).entries[n]? = some e := hent
    by_cases hm : e.method = .undefined
    · simpa [disposeLoop, hcap, hm] using ih (h.skip he hm)
    · simp only [disposeLoop, hcap, if_neg hm, view_enter, view_record_called, if_true]
      refine ⟨hb, .running es n c ?_ (h.call he hm _)⟩
      simp [Frame.activity, ha]

theorem runDisposeLoop_of_ne {l : Loop} (h : l.stack ≠ s) (n : ℕ) (needs : Bool) :
    (vm.runDisposeLoop l n needs).view s = vm.view s := by
  induction n generalizing needs with
  | zero =>
    rw [runDisposeLoop]
    by_cases hw : needs && !l.hasAwaited
    · simp [hw, view_wait, Loop.activity, h]
    · simp [hw, view_finish_of_ne h]
  | succ n ih =>
    rw [runDisposeLoop]
    rcases (vm.caps l.stack).entries[n]? with _ | e
    · simp [view_record, h]
    · dsimp only
      by_cases hw : e.hint = .syncDispose ∧ (needs && !l.hasAwaited) = true
      · simp [hw, view_wait, Loop.activity, h]
      · rw [if_neg hw]
        by_cases hm : e.method = .undefined
        · simp [hm, ih]
        · simp [hm, view_enter, view_record_called, h, Frame.activity, Loop.activity]

theorem runDisposeLoop_sound {es : List DisposeEntry} {l : Loop} {n : ℕ} {needs : Bool}
    (h : (vm.view l.stack).Progress es n l.completion) (ha : (vm.view l.stack).acts = [])
    (hb : (vm.view l.stack).overruns = []) :
    ((vm.runDisposeLoop l n needs).view l.stack).Sound := by
  have waits (n : ℕ) (h : (vm.view l.stack).Progress es n l.completion) :
      ((vm.wait { l with index := n, needsAwait := false } (some (.ok ()))).view
        l.stack).Sound := by
    rw [view_wait]
    refine ⟨hb, .running es n l.completion (by simp [ha, Loop.activity]) ?_⟩
    exact ⟨h.state, h.held, h.within, h.entries, h.bound, h.called, h.completion, h.open_,
      h.aborts, h.taken⟩
  induction n generalizing needs with
  | zero =>
    rw [runDisposeLoop]
    by_cases hw : (needs && !l.hasAwaited) = true
    · rw [if_pos hw]
      exact waits 0 h
    · rw [if_neg hw, view_leave, view_settle, view_finish]
      exact h.finish ha hb
  | succ n ih =>
    obtain ⟨e, hent, he⟩ := h.getElem
    have hcap : (vm.caps l.stack).entries[n]? = some e := hent
    rw [runDisposeLoop, hcap]
    dsimp only
    by_cases hw : e.hint = .syncDispose ∧ (needs && !l.hasAwaited) = true
    · rw [if_pos hw]
      exact waits (n + 1) h
    · rw [if_neg hw]
      by_cases hm : e.method = .undefined
      · rw [if_pos hm]
        exact ih (h.skip he hm)
      · rw [if_neg hm, view_enter, view_record_called, if_pos rfl]
        refine ⟨hb, .running es n l.completion ?_ (h.call he hm _)⟩
        simp [Frame.activity, Loop.activity, ha]

end Vm

/-! ### The invariant of the machine -/

/-- The stack onto which a `use` that waits for a getter will push. -/
def Frame.subject : Frame → Option ℕ
  | .reading s _ | .readingAsync s _ | .readingFallback s _ => some s
  | _ => none

structure Inv (vm : Vm) : Prop where
  sound : ∀ s, (vm.view s).Sound
  fresh : ∀ s, vm.next ≤ s → vm.view s = View.blank
  reading : ∀ f ∈ vm.frames, ∀ s, f.subject = some s → s < vm.next

/-- A disposal of `s` is under way and the machine is about to go on with it. -/
structure Between (vm : Vm) (s n : ℕ) (c : Option Thrown) : Prop where
  others : ∀ t, t ≠ s → (vm.view t).Sound
  idle : (vm.view s).acts = []
  inBounds : (vm.view s).overruns = []
  progress : ∃ es, (vm.view s).Progress es n c
  fresh : ∀ t, vm.next ≤ t → vm.view t = View.blank
  reading : ∀ f ∈ vm.frames, ∀ t, f.subject = some t → t < vm.next

/-- No stack is allocated, no promise is made and no `use` begins to wait. -/
structure Keeps (vm vm' : Vm) : Prop where
  next : vm'.next = vm.next
  promises : vm'.promises = vm.promises
  frames : ∀ f ∈ vm'.frames, f ∈ vm.frames ∨ f.subject = none

namespace Keeps

variable {vm vm' vm'' : Vm}

theorem refl (vm : Vm) : Keeps vm vm := ⟨rfl, rfl, fun _ h => .inl h⟩

theorem enter (h : Keeps vm vm') {f : Frame} (hf : f.subject = none) : Keeps vm (vm'.enter f) := by
  refine ⟨h.next, h.promises, fun g hg => ?_⟩
  rcases List.mem_cons.mp hg with rfl | hg
  · exact .inr hf
  · exact h.frames g hg

theorem leave (h : Keeps vm vm') (l : Loop) : Keeps vm (vm'.leave l) := by
  by_cases hi : l.initial <;> simp only [Vm.leave, hi] <;> exact ⟨h.next, h.promises, h.frames⟩

theorem wait (vm : Vm) (l : Loop) (o : Option (Except Thrown Unit)) : Keeps vm (vm.wait l o) := by
  apply Keeps.leave
  exact ⟨rfl, rfl, fun _ h => .inl h⟩

theorem disposeLoop (vm : Vm) (s : ℕ) (c : Option Thrown) (n : ℕ) :
    Keeps vm (vm.disposeLoop s c n) := by
  induction n with
  | zero => exact ⟨rfl, rfl, fun _ h => .inl h⟩
  | succ n ih =>
    rw [Vm.disposeLoop]
    rcases (vm.caps s).entries[n]? with _ | e
    · exact ⟨rfl, rfl, fun _ h => .inl h⟩
    · by_cases hm : e.method = .undefined
      · simpa [hm] using ih
      · simp only [hm, if_false]
        apply Keeps.enter _ rfl
        exact ⟨rfl, rfl, fun _ h => .inl h⟩

theorem runDisposeLoop (vm : Vm) (l : Loop) (n : ℕ) (needs : Bool) :
    Keeps vm (vm.runDisposeLoop l n needs) := by
  induction n generalizing needs with
  | zero =>
    rw [Vm.runDisposeLoop]
    split
    · exact wait vm _ _
    · apply Keeps.leave
      exact ⟨rfl, rfl, fun _ h => .inl h⟩
  | succ n ih =>
    rw [Vm.runDisposeLoop]
    rcases (vm.caps l.stack).entries[n]? with _ | e
    · exact ⟨rfl, rfl, fun _ h => .inl h⟩
    · dsimp only
      split_ifs
      · exact wait vm _ _
      · exact ih true
      · apply Keeps.enter _ rfl
        exact ⟨rfl, rfl, fun _ h => .inl h⟩

end Keeps

namespace Between

variable {vm vm' : Vm} {s n : ℕ} {c : Option Thrown}

theorem lt_next (h : Between vm s n c) : s < vm.next := by
  by_contra hs
  obtain ⟨es, hp⟩ := h.progress
  have := hp.held
  rw [h.fresh s (Nat.le_of_not_lt hs)] at this
  cases this

/-- What the machine does next is about this stack only. -/
theorem inv (h : Between vm s n c) (keeps : Keeps vm vm')
    (other : ∀ t, t ≠ s → vm'.view t = vm.view t) (self : (vm'.view s).Sound) : Inv vm' where
  sound t := by
    by_cases ht : t = s
    · exact ht ▸ self
    · exact other t ht ▸ h.others t ht
  fresh t ht := by
    rw [keeps.next] at ht
    have hne : t ≠ s := by
      have := h.lt_next
      omega
    rw [other t hne, h.fresh t ht]
  reading f hf t ht := by
    rw [keeps.next]
    rcases keeps.frames f hf with hf | hf
    · exact h.reading f hf t ht
    · rw [hf] at ht
      cases ht

theorem disposeLoop (h : Between vm s n c) : Inv (vm.disposeLoop s c n) := by
  obtain ⟨es, hp⟩ := h.progress
  exact h.inv (.disposeLoop vm s c n) (fun t ht => Vm.disposeLoop_of_ne ht.symm c n)
    (Vm.disposeLoop_sound hp h.idle h.inBounds)

theorem runDisposeLoop {l : Loop} (h : Between vm l.stack n l.completion) (needs : Bool) :
    Inv (vm.runDisposeLoop l n needs) := by
  obtain ⟨es, hp⟩ := h.progress
  exact h.inv (.runDisposeLoop vm l n needs) (fun t ht => Vm.runDisposeLoop_of_ne ht.symm n needs)
    (Vm.runDisposeLoop_sound hp h.idle h.inBounds)

theorem fail (h : Between vm s n c) (err : Thrown) :
    Between (vm.record (.failed s err)) s n (mergeDisposeError c err) where
  others t ht := by
    rw [Vm.view_record_failed, if_neg ht.symm, List.append_nil]
    exact h.others t ht
  idle := by
    rw [Vm.view_record_failed]
    exact h.idle
  inBounds := by
    rw [Vm.view_record_failed]
    exact h.inBounds
  progress := by
    obtain ⟨es, hp⟩ := h.progress
    refine ⟨es, ?_⟩
    rw [Vm.view_record_failed, if_pos rfl]
    exact hp.fail err
  fresh t ht := by
    have hne : s ≠ t := by
      have := h.lt_next
      have : vm.next ≤ t := ht
      omega
    rw [Vm.view_record_failed, if_neg hne, List.append_nil]
    exact h.fresh t ht
  reading := h.reading

theorem sound_of_acts {es : List DisposeEntry} (h : Between vm s n c)
    (hp : (vm.view s).Progress es n c) :
    View.Sound { vm.view s with acts := [(n, c)] } :=
  ⟨h.inBounds, .running es n c rfl ⟨hp.state, hp.held, hp.within, hp.entries, hp.bound, hp.called,
    hp.completion, hp.open_, hp.aborts, hp.taken⟩⟩

theorem wait {l : Loop} (h : Between vm l.stack l.index l.completion)
    (o : Option (Except Thrown Unit)) : Inv (vm.wait l o) := by
  obtain ⟨es, hp⟩ := h.progress
  refine h.inv (.wait vm l o) (fun t ht => ?_) ?_
  · rw [Vm.view_wait, Loop.activity, if_neg ht.symm, List.append_nil]
  · rw [Vm.view_wait, Loop.activity, if_pos rfl, h.idle]
    exact h.sound_of_acts hp

theorem enter {l : Loop} (h : Between vm l.stack l.index l.completion) {f : Frame}
    (hf : ∀ s, f.activity s = l.activity s) (hsubject : f.subject = none) :
    Inv (vm.enter f) := by
  obtain ⟨es, hp⟩ := h.progress
  refine h.inv (Keeps.enter (.refl vm) hsubject) (fun t ht => ?_) ?_
  · rw [Vm.view_enter, hf, Loop.activity, if_neg ht.symm, List.nil_append]
  · rw [Vm.view_enter, hf, Loop.activity, if_pos rfl, h.idle]
    exact h.sound_of_acts hp

theorem giveUp {l : Loop} (h : Between vm l.stack n c) (err : Thrown) : Inv (vm.giveUp l err) := by
  obtain ⟨es, hp⟩ := h.progress
  have keeps : Keeps vm (vm.giveUp l err) := by
    apply Keeps.leave
    exact ⟨rfl, rfl, fun _ h => .inl h⟩
  refine h.inv keeps (fun t ht => ?_) ?_
  · rw [Vm.giveUp, Vm.view_leave, Vm.view_settle, Vm.view_record_givenUp, if_neg ht.symm,
      List.append_nil]
  · rw [Vm.giveUp, Vm.view_leave, Vm.view_settle, Vm.view_record_givenUp, if_pos rfl, hp.aborts]
    exact ⟨h.inBounds, .abandoned es n err hp.state h.idle hp.held hp.within hp.called hp.open_
      rfl hp.taken⟩

theorem failLoop {l : Loop} (h : Between vm l.stack l.index l.completion) (err : Thrown) :
    Inv (vm.failLoop l err) :=
  runDisposeLoop (l := { l with completion := mergeDisposeError l.completion err }) (h.fail err)
    l.needsAwait

theorem afterCall {l : Loop} (h : Between vm l.stack l.index l.completion) (e : DisposeEntry)
    (r : Except Thrown JsValue) : Inv (vm.afterCall l e r) := by
  have awaited : Between vm { l with hasAwaited := true }.stack { l with hasAwaited := true }.index
      { l with hasAwaited := true }.completion := h
  rcases r with err | value
  · rw [Vm.afterCall]
    split_ifs
    · exact awaited.enter (fun _ => rfl) rfl
    · exact h.failLoop err
  · rw [Vm.afterCall]
    split_ifs
    · exact awaited.wait _
    · exact awaited.enter (fun _ => rfl) rfl
    · exact awaited.enter (fun _ => rfl) rfl
    · exact h.runDisposeLoop _

end Between

theorem View.Standing.running_of_acts {v : View} (h : v.Standing) {n : ℕ} {c : Option Thrown}
    {a b : List (ℕ × Option Thrown)} (ha : v.acts = a ++ (n, c) :: b) :
    a = [] ∧ b = [] ∧ ∃ es, v.Progress es n c := by
  have idle (hn : v.acts = []) : False := by
    rw [hn] at ha
    simp at ha
  cases h with
  | pending _ acts => exact (idle acts).elim
  | moved _ acts => exact (idle acts).elim
  | running es m d acts p =>
    rw [acts] at ha
    rcases a with _ | ⟨x, a⟩
    · simp only [List.nil_append, List.cons.injEq, Prod.mk.injEq] at ha
      obtain ⟨⟨rfl, rfl⟩, hb⟩ := ha
      exact ⟨rfl, hb.symm, es, p⟩
    · simp at ha
  | released _ _ acts => exact (idle acts).elim
  | abandoned _ _ _ _ acts => exact (idle acts).elim

namespace View.Standing

variable {v : View}

theorem pending_or_disposed (h : v.Standing) : v.state = .pending ∨ v.state = .disposed := by
  cases h with
  | pending state => exact .inl state
  | running es n c acts p => exact .inr p.state
  | moved state | released es state | abandoned es n err state => exact .inr state

theorem idle_of_pending (h : v.Standing) (hs : v.state = .pending) : v.acts = [] := by
  cases h with
  | running es n c acts p => simp [p.state] at hs
  | pending state acts | moved state acts | released es state acts
  | abandoned es n err state acts => exact acts

theorem progress_of_pending (h : v.Standing) (hs : v.state = .pending) :
    View.Progress { v with state := .disposed, held := v.held ++ [v.entries] } v.entries
      v.entries.length none := by
  cases h with
  | pending state acts entries taken held called failures completions aborts =>
    exact ⟨rfl, by simp [held], by simp [entries], List.prefix_rfl, le_rfl,
      by simp [called, releases], by simp [failures, chain], completions, aborts, taken⟩
  | running es n c acts p => simp [p.state] at hs
  | moved state | released es state | abandoned es n err state => simp [state] at hs

theorem moved_of_pending (h : v.Standing) (hs : v.state = .pending) :
    View.Standing { v with state := .disposed, entries := [], taken := v.taken ++ v.entries } := by
  cases h with
  | pending state acts entries taken held called failures completions aborts =>
    exact .moved rfl acts (by simp [taken, entries]) held called failures completions aborts
  | running es n c acts p => simp [p.state] at hs
  | moved state | released es state | abandoned es n err state => simp [state] at hs

end View.Standing

theorem View.Progress.of_acts {v : View} {es : List DisposeEntry} {n : ℕ} {c : Option Thrown}
    {acts : List (ℕ × Option Thrown)} (p : View.Progress { v with acts := acts } es n c) :
    v.Progress es n c :=
  ⟨p.state, p.held, p.within, p.entries, p.bound, p.called, p.completion, p.open_, p.aborts,
    p.taken⟩

namespace Inv

variable {vm : Vm} {s n : ℕ} {c : Option Thrown}

theorem init : Inv Vm.init where
  sound _ := ⟨rfl, .pending rfl rfl rfl rfl rfl rfl rfl rfl rfl⟩
  fresh _ _ := rfl
  reading _ hf := by cases hf

theorem answer (h : Inv vm) (r : Except Thrown JsValue) : Inv (vm.answer r) where
  sound t := by
    rw [Vm.view_answer]
    exact h.sound t
  fresh t ht := by
    rw [Vm.view_answer]
    exact h.fresh t ht
  reading := h.reading

theorem enter_reading (h : Inv vm) {f : Frame} (hf : f.subject = some s) (hs : s < vm.next) :
    Inv (vm.enter f) := by
  have quiet (t : ℕ) : f.activity t = [] := by
    cases f <;> first | rfl | cases hf
  refine ⟨fun t => ?_, fun t ht => ?_, fun g hg t ht => ?_⟩
  · rw [Vm.view_enter, quiet, List.nil_append]
    exact h.sound t
  · rw [Vm.view_enter, quiet, List.nil_append]
    exact h.fresh t ht
  · rcases List.mem_cons.mp hg with rfl | hg
    · rw [hf, Option.some.injEq] at ht
      exact ht ▸ hs
    · exact h.reading g hg t ht

theorem pushEntry (h : Inv vm) (hs : s < vm.next) (e : DisposeEntry) : Inv (vm.pushEntry s e) := by
  refine ⟨fun t => ?_, fun t ht => ?_, h.reading⟩
  · by_cases hne : s = t
    · subst hne
      rw [Vm.view_pushEntry]
      exact ⟨(h.sound s).inBounds, (h.sound s).standing.push e⟩
    · rw [Vm.view_pushEntry_of_ne hne]
      exact h.sound t
  · have hne : s ≠ t := by
      have : vm.next ≤ t := ht
      omega
    rw [Vm.view_pushEntry_of_ne hne]
    exact h.fresh t ht

/-- The frame of a disposal is taken off. -/
theorem between_of_enter {f : Frame} (h : Inv (vm.enter f)) (hf : f.activity s = [(n, c)])
    (hother : ∀ t, t ≠ s → f.activity t = []) : Between vm s n c := by
  have hself := h.sound s
  rw [Vm.view_enter, hf] at hself
  obtain ⟨-, hidle, es, hp⟩ := hself.standing.running_of_acts (a := []) rfl
  have hlt : s < vm.next := by
    by_contra hs
    have := h.fresh s (Nat.le_of_not_lt hs)
    rw [Vm.view_enter, hf] at this
    cases congrArg View.acts this
  refine ⟨fun t ht => ?_, hidle, hself.inBounds, ⟨es, hp.of_acts⟩, fun t ht => ?_,
    fun g hg => h.reading g (List.mem_cons_of_mem _ hg)⟩
  · have := h.sound t
    rwa [Vm.view_enter, hother t ht, List.nil_append] at this
  · have hne : t ≠ s := by omega
    have := h.fresh t ht
    rwa [Vm.view_enter, hother t hne, List.nil_append] at this

theorem of_enter_reading {f : Frame} (h : Inv (vm.enter f)) (hf : f.subject = some s) :
    Inv vm ∧ s < vm.next := by
  have quiet (t : ℕ) : f.activity t = [] := by
    cases f <;> first | rfl | cases hf
  refine ⟨⟨fun t => ?_, fun t ht => ?_, fun g hg => h.reading g (List.mem_cons_of_mem _ hg)⟩,
    h.reading f List.mem_cons_self s hf⟩
  · have := h.sound t
    rwa [Vm.view_enter, quiet, List.nil_append] at this
  · have := h.fresh t ht
    rwa [Vm.view_enter, quiet, List.nil_append] at this

theorem addResource (h : Inv vm) (hs : s < vm.next) (value method : JsValue) (hint : Hint)
    (wrapSync : Bool) (refusal : String) :
    Inv (vm.addResource s value method hint wrapSync refusal) := by
  rw [Vm.addResource]
  split_ifs
  · exact (h.pushEntry hs _).answer _
  · exact h.answer _

theorem resumeFrame {f : Frame} (h : Inv (vm.enter f)) (r : Except Thrown JsValue) :
    Inv (vm.resumeFrame f r) := by
  cases f with
  | reading s value =>
    obtain ⟨hinv, hs⟩ := h.of_enter_reading rfl
    cases r with
    | error err => exact hinv.answer _
    | ok method => exact hinv.addResource hs _ _ _ _ _
  | readingAsync s value =>
    obtain ⟨hinv, hs⟩ := h.of_enter_reading rfl
    cases r with
    | error err => exact hinv.answer _
    | ok method =>
      rw [Vm.resumeFrame]
      split_ifs
      · exact hinv.enter_reading rfl hs
      · exact hinv.addResource hs _ _ _ _ _
  | readingFallback s value =>
    obtain ⟨hinv, hs⟩ := h.of_enter_reading rfl
    cases r with
    | error err => exact hinv.answer _
    | ok method =>
      rw [Vm.resumeFrame]
      split_ifs
      · exact hinv.answer _
      · exact hinv.addResource hs _ _ _ _ _
  | disposing s n c =>
    have hb : Between vm s n c := h.between_of_enter (by simp [Frame.activity])
      (fun t ht => by simp [Frame.activity, ht.symm])
    cases r with
    | error err => exact (hb.fail err).disposeLoop
    | ok value => exact hb.disposeLoop
  | disposingAsync l e =>
    have hb : Between vm l.stack l.index l.completion :=
      h.between_of_enter (by simp [Frame.activity, Loop.activity])
        (fun t ht => by simp [Frame.activity, Loop.activity, ht.symm])
    exact hb.afterCall e r
  | resolving l outcome =>
    have hb : Between vm l.stack l.index l.completion :=
      h.between_of_enter (by simp [Frame.activity, Loop.activity])
        (fun t ht => by simp [Frame.activity, Loop.activity, ht.symm])
    cases r with
    | error err => exact hb.giveUp err
    | ok constructor =>
      rw [Vm.resumeFrame]
      split_ifs
      · exact hb.wait outcome
      · exact hb.enter (fun _ => rfl) rfl
  | readingThen l =>
    have hb : Between vm l.stack l.index l.completion :=
      h.between_of_enter (by simp [Frame.activity, Loop.activity])
        (fun t ht => by simp [Frame.activity, Loop.activity, ht.symm])
    cases r <;> exact hb.wait _

theorem resume (h : Inv vm) (r : Except Thrown JsValue) : Inv (vm.resume r) := by
  rw [Vm.resume]
  rcases hf : vm.frames with _ | ⟨f, fs⟩
  · exact h
  · have heq : ({ vm with frames := fs } : Vm).enter f = vm := by
      simp [Vm.enter, ← hf]
    exact resumeFrame (heq.symm ▸ h) r

/-- A loop whose promise has settled comes back. -/
theorem between_of_waiting (h : Inv vm) {k : ℕ} {w : Await} (hw : vm.waiting[k]? = some w) :
    Between { vm with waiting := vm.waiting.take k ++ vm.waiting.drop (k + 1) } w.loop.stack
      w.loop.index w.loop.completion := by
  obtain ⟨hk, rfl⟩ := List.getElem?_eq_some_iff.mp hw
  have hsplit : vm.waiting = vm.waiting.take k ++ vm.waiting[k] :: vm.waiting.drop (k + 1) := by
    simp
  set w := vm.waiting[k]
  set a := vm.waiting.take k
  set b := vm.waiting.drop (k + 1)
  have hview (t : ℕ) : ({ vm with waiting := a ++ b } : Vm).view t = { vm.view t with
      acts := (vm.frames.flatMap (Frame.activity t) ++ a.flatMap (fun w => w.loop.activity t)) ++
        b.flatMap (fun w => w.loop.activity t) } := by
    simp [Vm.view]
  have hacts (t : ℕ) : (vm.view t).acts =
      (vm.frames.flatMap (Frame.activity t) ++ a.flatMap (fun w => w.loop.activity t)) ++
        (w.loop.activity t ++ b.flatMap (fun w => w.loop.activity t)) := by
    simp only [Vm.view]
    rw [hsplit]
    simp
  have hsame (t : ℕ) (ht : t ≠ w.loop.stack) :
      ({ vm with waiting := a ++ b } : Vm).view t = vm.view t := by
    rw [hview t]
    ext1 <;> try rfl
    rw [hacts t, Loop.activity, if_neg ht.symm, List.nil_append]
  have hself := hacts w.loop.stack
  rw [Loop.activity, if_pos rfl, List.singleton_append] at hself
  obtain ⟨ha, hb, es, hp⟩ := (h.sound w.loop.stack).standing.running_of_acts hself
  have hlt : w.loop.stack < vm.next := by
    by_contra hs
    have := congrArg View.held (h.fresh _ (Nat.le_of_not_lt hs))
    rw [hp.held] at this
    cases this
  refine ⟨fun t ht => ?_, ?_, ?_, ⟨es, ?_⟩, fun t ht => ?_, h.reading⟩
  · rw [hsame t ht]
    exact h.sound t
  · rw [hview, ha, hb, List.append_nil]
  · rw [hview]
    exact (h.sound _).inBounds
  · rw [hview]
    exact ⟨hp.state, hp.held, hp.within, hp.entries, hp.bound, hp.called, hp.completion,
      hp.open_, hp.aborts, hp.taken⟩
  · have hne : t ≠ w.loop.stack := by
      have : vm.next ≤ t := ht
      omega
    rw [hsame t hne]
    exact h.fresh t ht

theorem continueLoop (h : Inv vm) (k : ℕ) (o : Except Thrown Unit) :
    Inv (vm.continueLoop k o) := by
  rw [Vm.continueLoop]
  rcases hf : vm.frames with _ | ⟨f, fs⟩
  · rcases hw : vm.waiting[k]? with _ | w
    · exact h
    · have hb := h.between_of_waiting hw
      rw [hf] at hb
      dsimp only
      rcases w.outcome.getD o with err | _
      · exact hb.failLoop err
      · exact hb.runDisposeLoop _
  · exact h

theorem withPending (h : Inv vm) {this : JsValue} {kind : Kind} {body : ℕ → Vm}
    (hbody : ∀ s, s < vm.next → (vm.caps s).state = .pending → (vm.caps s).kind = kind →
      Inv (body s)) : Inv (vm.withPending this kind body) := by
  rw [Vm.withPending]
  rcases hr : vm.requireDisposeCapability this kind with err | s
  · exact h.answer _
  · obtain ⟨hs, hkind⟩ := Vm.of_requireDisposeCapability hr
    dsimp only
    split_ifs with hstate
    · exact h.answer _
    · exact hbody s hs (not_not.mp hstate) hkind

theorem register (h : Inv vm) (this : JsValue) (kind : Kind) (e : DisposeEntry) (refusal : String)
    (result : JsValue) : Inv (vm.register this kind e refusal result) := by
  refine h.withPending fun s hs _ _ => ?_
  split_ifs
  · exact (h.pushEntry hs e).answer _
  · exact h.answer _

theorem disposableStackUse (h : Inv vm) (this value : JsValue) :
    Inv (vm.disposableStackUse this value) := by
  refine h.withPending fun s hs _ _ => ?_
  split_ifs
  · exact h.answer _
  · exact h.answer _
  · exact h.enter_reading rfl hs

theorem asyncDisposableStackUse (h : Inv vm) (this value : JsValue) :
    Inv (vm.asyncDisposableStackUse this value) := by
  refine h.withPending fun s hs _ _ => ?_
  split_ifs
  · exact (h.pushEntry hs _).answer _
  · exact h.answer _
  · exact h.enter_reading rfl hs

theorem construct (h : Inv vm) (kind : Kind) : Inv (vm.construct kind) := by
  apply answer
  refine ⟨fun t => ?_, fun t ht => ?_, fun f hf t ht => ?_⟩
  · rw [Vm.view_allocDisposableStack]
    by_cases hne : vm.next = t
    · subst hne
      rw [Vm.view_setCap_self, h.fresh _ le_rfl]
      exact ⟨rfl, .pending rfl rfl rfl rfl rfl rfl rfl rfl rfl⟩
    · rw [Vm.view_setCap_of_ne hne]
      exact h.sound t
  · have ht : vm.next + 1 ≤ t := ht
    rw [Vm.view_allocDisposableStack, Vm.view_setCap_of_ne (by omega)]
    exact h.fresh t (by omega)
  · exact Nat.lt_succ_of_lt (h.reading f hf t ht)

/-- A disposal of a pending stack begins. -/
theorem beginDisposal (h : Inv vm) (hs : s < vm.next) (hstate : (vm.caps s).state = .pending) :
    Between (vm.beginDisposal s) s (vm.caps s).entries.length none := by
  have hview := @Vm.view_beginDisposal vm s
  have hsound := h.sound s
  have state : (vm.view s).state = .pending := hstate
  refine ⟨fun t ht => ?_, ?_, ?_, ⟨(vm.caps s).entries, ?_⟩, fun t ht => ?_, h.reading⟩
  · rw [Vm.view_beginDisposal_of_ne ht.symm]
    exact h.sound t
  · rw [hview]
    exact hsound.standing.idle_of_pending state
  · rw [hview]
    exact hsound.inBounds
  · rw [hview]
    exact hsound.standing.progress_of_pending state
  · have hne : s ≠ t := by
      have : vm.next ≤ t := ht
      omega
    rw [Vm.view_beginDisposal_of_ne hne]
    exact h.fresh t ht

theorem disposableStackDispose (h : Inv vm) (this : JsValue) :
    Inv (vm.disposableStackDispose this) := by
  rw [Vm.disposableStackDispose]
  rcases hr : vm.requireDisposeCapability this .disposableStack with err | s
  · exact h.answer _
  · obtain ⟨hs, -⟩ := Vm.of_requireDisposeCapability hr
    dsimp only
    split_ifs with hstate
    · exact h.answer _
    · exact (h.beginDisposal hs (not_not.mp hstate)).disposeLoop

theorem disposeAsync (h : Inv vm) (this : JsValue) : Inv (vm.disposeAsync this) := by
  have h' : Inv { vm with promises := vm.promises + 1 } := ⟨h.sound, h.fresh, h.reading⟩
  have settled (c : Option Thrown) :
      Inv (Vm.settle { vm with promises := vm.promises + 1 } vm.promises c) :=
    ⟨h.sound, h.fresh, h.reading⟩
  rw [Vm.disposeAsync]
  dsimp only
  rcases hr : Vm.requireDisposeCapability { vm with promises := vm.promises + 1 } this
    .asyncDisposableStack with err | s
  · exact (settled _).answer _
  · obtain ⟨hs, -⟩ := Vm.of_requireDisposeCapability hr
    dsimp only
    split_ifs with hstate
    · exact (settled _).answer _
    · have hpending : (vm.caps s).state = .pending := by
        rcases (h.sound s).standing.pending_or_disposed with hp | hd
        · exact hp
        · exact (hstate hd).elim
      exact Between.runDisposeLoop
        (l := ⟨s, vm.promises, (vm.caps s).entries.length, none, false, false, true⟩)
        (h'.beginDisposal hs hpending) false

theorem stackMoveImpl (h : Inv vm) (this : JsValue) (kind : Kind) :
    Inv (vm.stackMoveImpl this kind) := by
  refine h.withPending fun s hs hstate hkind => ?_
  have hsn : s ≠ vm.next := by omega
  apply answer
  refine ⟨fun t => ?_, fun t ht => ?_, fun f hf t ht => Nat.lt_succ_of_lt (h.reading f hf t ht)⟩
  · by_cases hts : s = t
    · subst hts
      rw [Vm.view_moved_source hsn]
      exact ⟨(h.sound s).inBounds, (h.sound s).standing.moved_of_pending hstate⟩
    · by_cases htn : vm.next = t
      · subst htn
        rw [Vm.view_moved_target hsn, h.fresh _ le_rfl]
        exact ⟨rfl, .pending rfl rfl rfl rfl rfl rfl rfl rfl rfl⟩
      · rw [Vm.view_moved_of_ne hts htn]
        exact h.sound t
  · have ht : vm.next + 1 ≤ t := ht
    rw [Vm.view_moved_of_ne (by omega) (by omega)]
    exact h.fresh t (by omega)

theorem step (h : Inv vm) (i : Input) : Inv (step vm i) := by
  cases i with
  | construct kind => exact h.construct kind
  | use kind this value =>
    cases kind with
    | disposableStack => exact h.disposableStackUse this value
    | asyncDisposableStack => exact h.asyncDisposableStackUse this value
  | adopt kind this value f => cases kind <;> exact h.register this _ _ _ _
  | defer kind this f => cases kind <;> exact h.register this _ _ _ _
  | move kind this => exact h.stackMoveImpl this kind
  | dispose this => exact h.disposableStackDispose this
  | disposeAsync this => exact h.disposeAsync this
  | resume r => exact h.resume r
  | continueLoop k o => exact h.continueLoop k o

theorem run (inputs : List Input) : Inv (run inputs) := by
  induction inputs using List.reverseRecOn with
  | nil => exact init
  | append_singleton inputs i ih =>
    rw [Disposal.run, List.foldl_concat]
    exact ih.step i

end Inv

/-! ### Order and completeness of the calls -/

/-- A stack begins to be disposed at most once. What is called for it is at every moment a first
part of the reverse of what it held then, each entry with a method once; for a stack whose
disposal has not begun, nothing is called. -/
theorem called_in_reverse (inputs : List Input) (s : ℕ) :
    let v := (run inputs).view s
    v.held = [] ∧ v.called = [] ∨
      ∃ es, v.held = [es] ∧ es <+: v.added ∧ v.called <+: releases es := by
  have drop_prefix (es : List DisposeEntry) (n : ℕ) : releases (es.drop n) <+: releases es := by
    conv_rhs => rw [← List.take_append_drop n es]
    simp only [releases, List.filter_append, List.reverse_append]
    exact List.prefix_append _ _
  intro v
  cases ((Inv.run inputs).sound s).standing with
  | pending _ _ _ _ held called | moved _ _ _ held called => exact .inl ⟨held, called⟩
  | running es n c _ p =>
    refine .inr ⟨es, p.held, p.within, ?_⟩
    rw [p.called]
    exact drop_prefix es n
  | released es _ _ held within called =>
    exact .inr ⟨es, held, within, called ▸ List.prefix_rfl⟩
  | abandoned es n err _ _ held within called =>
    refine .inr ⟨es, held, within, ?_⟩
    rw [called]
    exact drop_prefix es n

/-- While a disposal is under way, whatever the callbacks do, the entries it goes through stay
where they are, and no position outside of them is read. -/
theorem entries_stable_during_disposal (inputs : List Input) (s : ℕ) :
    Event.outOfBounds s ∉ (run inputs).trace ∧
      ∀ a ∈ ((run inputs).view s).acts, ∃ es, ((run inputs).view s).held = [es] ∧
        es <+: ((run inputs).view s).entries ∧ a.1 ≤ es.length := by
  have hsound := (Inv.run inputs).sound s
  refine ⟨fun hmem => ?_, fun a ha => ?_⟩
  · have hover : () ∈ ((run inputs).view s).overruns :=
      List.mem_flatMap.mpr ⟨_, hmem, by simp ⟩
    rw [hsound.inBounds] at hover
    cases hover
  · obtain ⟨b, c, hacts⟩ := List.append_of_mem ha
    obtain ⟨-, -, es, p⟩ := hsound.standing.running_of_acts hacts
    exact ⟨es, p.held, p.entries, p.bound⟩

namespace Event

def registration : Event → List DisposeEntry
  | .added _ e => [e]
  | _ => []

def release : Event → List DisposeEntry
  | .called _ e _ => [e]
  | _ => []

/-- A number above the stacks an event names. -/
def bound : Event → ℕ
  | .added s _ | .called s _ _ => s + 1
  | .moved s t _ => max s t + 1
  | _ => 0

end Event

open Finset in
theorem sum_count_ite (e : DisposeEntry) {s N : ℕ} (h : s < N) (es : List DisposeEntry) :
    ∑ t ∈ range N, (if s = t then es else []).count e = es.count e := by
  have (t : ℕ) : (if s = t then es else []).count e = if s = t then es.count e else 0 := by
    split_ifs <;> simp
  simp [this, h]

open Finset in
theorem count_releases (e : DisposeEntry) {N : ℕ} (trace : List Event)
    (h : ∀ ev ∈ trace, ev.bound ≤ N) :
    (trace.flatMap Event.release).count e =
      ∑ s ∈ range N, (trace.flatMap (Event.calledFor s)).count e := by
  induction trace with
  | nil => simp
  | cons ev trace ih =>
    have hev := h ev List.mem_cons_self
    have ih := ih fun ev' hev' => h ev' (List.mem_cons_of_mem ev hev')
    simp only [List.flatMap_cons, List.count_append, sum_add_distrib, ih, Nat.add_right_cancel_iff]
    cases ev with
    | called s e' call => exact (sum_count_ite e hev [e']).symm
    | _ => simp [Event.release]

open Finset in
theorem count_registrations (e : DisposeEntry) {N : ℕ} (trace : List Event)
    (h : ∀ ev ∈ trace, ev.bound ≤ N) :
    (trace.flatMap Event.registration).count e +
        ∑ s ∈ range N, (trace.flatMap (Event.takenFrom s)).count e =
      ∑ s ∈ range N, (trace.flatMap (Event.addedTo s)).count e := by
  induction trace with
  | nil => simp
  | cons ev trace ih =>
    have hev := h ev List.mem_cons_self
    have ih := ih fun ev' hev' => h ev' (List.mem_cons_of_mem ev hev')
    have one : ev.registration.count e + ∑ s ∈ range N, (ev.takenFrom s).count e =
        ∑ s ∈ range N, (ev.addedTo s).count e := by
      cases ev with
      | added s e' =>
        simp only [Event.registration, Event.takenFrom, Event.addedTo, List.count_nil,
          sum_const_zero, add_zero]
        exact (sum_count_ite e hev [e']).symm
      | moved s t es =>
        have hs : s < N := by
          simp only [Event.bound] at hev
          omega
        have ht : t < N := by
          simp only [Event.bound] at hev
          omega
        simp only [Event.registration, Event.takenFrom, Event.addedTo, List.count_nil, zero_add]
        rw [sum_count_ite e hs, sum_count_ite e ht]
      | _ => simp [Event.registration]
    simp only [List.flatMap_cons, List.count_append, sum_add_distrib]
    omega

theorem exists_bound (trace : List Event) : ∃ N, ∀ ev ∈ trace, ev.bound ≤ N := by
  induction trace with
  | nil => exact ⟨0, fun _ h => by cases h⟩
  | cons ev trace ih =>
    obtain ⟨N, hN⟩ := ih
    refine ⟨max ev.bound N, fun ev' h => ?_⟩
    rcases List.mem_cons.mp h with rfl | h
    · exact le_max_left _ _
    · exact (hN ev' h).trans (le_max_right _ _)

/-- What has been called for a stack or moved out of it was added to it. -/
theorem View.Standing.count_le {v : View} (h : v.Standing) (e : DisposeEntry) :
    v.called.count e + v.taken.count e ≤ v.added.count e := by
  have part {es : List DisposeEntry} {n : ℕ} (hw : es <+: v.added) :
      (releases (es.drop n)).count e ≤ v.added.count e := by
    rw [releases, List.count_reverse]
    exact ((List.filter_sublist.trans (List.drop_sublist n es)).trans hw.sublist).count_le e
  cases h with
  | pending _ _ _ taken _ called => simp [taken, called]
  | moved _ _ taken _ called => simpa [called] using taken.sublist.count_le e
  | running es n c _ p => simpa [p.taken, p.called] using part p.within
  | released es _ _ _ within called _ _ taken =>
    simpa [taken, called] using part (n := 0) within
  | abandoned es n err _ _ _ within called _ _ taken => simpa [taken, called] using part within

/-- However stacks are moved, disposed and extended, also from within the callbacks, no entry is
released more often than it was registered. -/
theorem released_at_most_once (inputs : List Input) :
    ((run inputs).trace.flatMap Event.release).Subperm
      ((run inputs).trace.flatMap Event.registration) := by
  rw [List.subperm_ext_iff]
  intro e _
  obtain ⟨N, hN⟩ := exists_bound (run inputs).trace
  have hcalled := count_releases e _ hN
  have hadded := count_registrations e _ hN
  have hsum := Finset.sum_le_sum fun s (_ : s ∈ Finset.range N) =>
    ((Inv.run inputs).sound s).standing.count_le e
  rw [Finset.sum_add_distrib] at hsum
  simp only [Vm.view] at hsum
  omega

/-! ### No disposal is lost -/

def Frame.promises : Frame → List ℕ
  | .disposingAsync l _ | .resolving l _ | .readingThen l => [l.promise]
  | _ => []

/-- The promises whose loop is in the machine or awaits something. -/
def Vm.owned (vm : Vm) : List ℕ :=
  vm.frames.flatMap Frame.promises ++ vm.waiting.map fun w => w.loop.promise

def Vm.account (vm : Vm) : List ℕ := vm.owned ++ vm.settled.map Prod.fst

namespace Vm

variable {vm : Vm}

@[simp] theorem account_answer (r : Except Thrown JsValue) : (vm.answer r).account = vm.account :=
  rfl

@[simp] theorem account_leave (l : Loop) : (vm.leave l).account = vm.account := by
  by_cases h : l.initial <;> simp [leave, h]

theorem account_enter (f : Frame) : (vm.enter f).account = f.promises ++ vm.account := by
  simp [account, owned, enter]

theorem account_settle (p : ℕ) (c : Option Thrown) :
    (vm.settle p c).account.Perm (p :: vm.account) := by
  simp only [account, settle, owned, List.map_append, List.map_cons, List.map_nil,
    ← List.append_assoc]
  exact List.perm_append_singleton p _

theorem account_wait (l : Loop) (o : Option (Except Thrown Unit)) :
    (vm.wait l o).account.Perm (l.promise :: vm.account) := by
  rw [wait, account_leave]
  simp only [account, owned, List.map_append, List.map_cons, List.map_nil, List.append_assoc,
    List.singleton_append]
  rw [← List.append_assoc, ← List.append_assoc (vm.frames.flatMap Frame.promises)]
  exact List.perm_middle

theorem account_disposeLoop (s : ℕ) (c : Option Thrown) (n : ℕ) :
    (vm.disposeLoop s c n).account = vm.account := by
  induction n with
  | zero => rfl
  | succ n ih =>
    rw [disposeLoop]
    rcases (vm.caps s).entries[n]? with _ | e
    · rfl
    · by_cases hm : e.method = .undefined
      · simpa [hm] using ih
      · simp only [hm, if_false]
        rfl

theorem account_runDisposeLoop {es : List DisposeEntry} {l : Loop} {n : ℕ} {needs : Bool}
    (h : (vm.view l.stack).Progress es n l.completion) :
    (vm.runDisposeLoop l n needs).account.Perm (l.promise :: vm.account) := by
  induction n generalizing needs with
  | zero =>
    rw [runDisposeLoop]
    split_ifs
    · exact account_wait _ _
    · rw [account_leave]
      exact account_settle l.promise l.completion
  | succ n ih =>
    obtain ⟨e, hent, he⟩ := h.getElem
    have hcap : (vm.caps l.stack).entries[n]? = some e := hent
    rw [runDisposeLoop, hcap]
    dsimp only
    split_ifs with hw hm
    · exact account_wait _ _
    · exact ih (h.skip he hm)
    · rw [account_enter]
      rfl

theorem account_of_waiting {k : ℕ} {w : Await} (hw : vm.waiting[k]? = some w) :
    vm.account.Perm (w.loop.promise ::
      ({ vm with waiting := vm.waiting.take k ++ vm.waiting.drop (k + 1) } : Vm).account) := by
  obtain ⟨hk, rfl⟩ := List.getElem?_eq_some_iff.mp hw
  have hsplit : vm.waiting = vm.waiting.take k ++ vm.waiting[k] :: vm.waiting.drop (k + 1) := by
    simp
  have hperm : (vm.waiting.map fun w => w.loop.promise).Perm (vm.waiting[k].loop.promise ::
      ((vm.waiting.take k ++ vm.waiting.drop (k + 1)).map fun w => w.loop.promise)) := by
    conv_lhs => rw [hsplit]
    rw [List.map_append, List.map_cons, List.map_append]
    exact List.perm_middle
  rw [account, owned]
  refine ((hperm.append_left _).append_right _).trans ?_
  exact (List.perm_middle.append_right _).trans (.of_eq rfl)

theorem promises_resumeFrame (f : Frame) (r : Except Thrown JsValue) :
    (vm.resumeFrame f r).promises = vm.promises := by
  have add (s : ℕ) (value method : JsValue) (hint : Hint) (wrapSync : Bool) (refusal : String) :
      (vm.addResource s value method hint wrapSync refusal).promises = vm.promises := by
    rw [addResource]
    split_ifs <;> rfl
  cases f with
  | reading s value =>
    cases r with
    | error err => rfl
    | ok method => exact add _ _ _ _ _ _
  | readingAsync s value | readingFallback s value =>
    cases r with
    | error err => rfl
    | ok method =>
      rw [resumeFrame]
      split_ifs
      · rfl
      · exact add _ _ _ _ _ _
  | disposing s n c => cases r <;> exact (Keeps.disposeLoop _ _ _ _).promises
  | disposingAsync l e =>
    rcases r with err | value
    · rw [resumeFrame, afterCall]
      split_ifs
      · rfl
      · exact (Keeps.runDisposeLoop _ _ _ _).promises
    · rw [resumeFrame, afterCall]
      split_ifs
      · exact (Keeps.wait _ _ _).promises
      · rfl
      · rfl
      · exact (Keeps.runDisposeLoop _ _ _ _).promises
  | resolving l outcome =>
    cases r with
    | error err =>
      rw [resumeFrame, giveUp]
      exact (Keeps.leave ⟨rfl, rfl, fun _ h => .inl h⟩ l).promises
    | ok constructor =>
      rw [resumeFrame]
      split_ifs
      · exact (Keeps.wait _ _ _).promises
      · rfl
  | readingThen l => cases r <;> exact (Keeps.wait _ _ _).promises

theorem account_addResource (s : ℕ) (value method : JsValue) (hint : Hint) (wrapSync : Bool)
    (refusal : String) :
    (vm.addResource s value method hint wrapSync refusal).account = vm.account := by
  rw [addResource]
  split_ifs <;> rfl

end Vm

theorem Between.account_failLoop {vm : Vm} {l : Loop}
    (h : Between vm l.stack l.index l.completion) (err : Thrown) :
    (vm.failLoop l err).account.Perm (l.promise :: vm.account) := by
  obtain ⟨es, hp⟩ := (h.fail err).progress
  exact Vm.account_runDisposeLoop
    (l := { l with completion := mergeDisposeError l.completion err }) hp

theorem Between.account_afterCall {vm : Vm} {l : Loop}
    (h : Between vm l.stack l.index l.completion) (e : DisposeEntry) (r : Except Thrown JsValue) :
    (vm.afterCall l e r).account.Perm (l.promise :: vm.account) := by
  obtain ⟨es, hp⟩ := h.progress
  rcases r with err | value
  · rw [Vm.afterCall]
    split_ifs
    · exact .of_eq (Vm.account_enter _)
    · exact h.account_failLoop err
  · rw [Vm.afterCall]
    split_ifs
    · exact Vm.account_wait _ _
    · exact .of_eq (Vm.account_enter _)
    · exact .of_eq (Vm.account_enter _)
    · exact Vm.account_runDisposeLoop hp

theorem Inv.account_resumeFrame {vm : Vm} {f : Frame} (h : Inv (vm.enter f))
    (r : Except Thrown JsValue) :
    (vm.resumeFrame f r).account.Perm (f.promises ++ vm.account) := by
  cases f with
  | reading s value =>
    cases r with
    | error err => exact .rfl
    | ok method => exact .of_eq (Vm.account_addResource _ _ _ _ _ _)
  | readingAsync s value =>
    cases r with
    | error err => exact .rfl
    | ok method =>
      rw [Vm.resumeFrame]
      split_ifs
      · exact .rfl
      · exact .of_eq (Vm.account_addResource _ _ _ _ _ _)
  | readingFallback s value =>
    cases r with
    | error err => exact .rfl
    | ok method =>
      rw [Vm.resumeFrame]
      split_ifs
      · exact .rfl
      · exact .of_eq (Vm.account_addResource _ _ _ _ _ _)
  | disposing s n c => cases r <;> exact .of_eq (Vm.account_disposeLoop _ _ _)
  | disposingAsync l e =>
    have hb : Between vm l.stack l.index l.completion :=
      h.between_of_enter (by simp [Frame.activity, Loop.activity])
        (fun t ht => by simp [Frame.activity, Loop.activity, ht.symm])
    exact hb.account_afterCall e r
  | resolving l outcome =>
    cases r with
    | error err =>
      rw [Vm.resumeFrame, Vm.giveUp, Vm.account_leave]
      exact Vm.account_settle l.promise (some err)
    | ok constructor =>
      rw [Vm.resumeFrame]
      split_ifs
      · exact Vm.account_wait l outcome
      · exact .of_eq (Vm.account_enter _)
  | readingThen l => cases r <;> exact Vm.account_wait l _

/-- The promises that are owned or settled are those that have been made, each once. -/
def Ledger (vm : Vm) : Prop := vm.account.Perm (List.range vm.promises)

namespace Ledger

variable {vm vm' : Vm}

theorem of_account (h : Ledger vm) (ha : vm'.account = vm.account)
    (hp : vm'.promises = vm.promises) : Ledger vm' := by
  rw [Ledger, ha, hp]
  exact h

theorem of_next_promise (h : Ledger vm) (ha : vm'.account.Perm (vm.promises :: vm.account))
    (hp : vm'.promises = vm.promises + 1) : Ledger vm' := by
  rw [Ledger, hp, List.range_succ]
  exact (ha.trans (h.cons _)).trans (List.perm_append_singleton _ _).symm

theorem withPending (h : Ledger vm) {this : JsValue} {kind : Kind} {body : ℕ → Vm}
    (hbody : ∀ s, Ledger (body s)) : Ledger (vm.withPending this kind body) := by
  rw [Vm.withPending]
  rcases vm.requireDisposeCapability this kind with err | s
  · exact h
  · dsimp only
    split_ifs
    · exact h
    · exact hbody s

theorem register (h : Ledger vm) (this : JsValue) (kind : Kind) (e : DisposeEntry)
    (refusal : String) (result : JsValue) : Ledger (vm.register this kind e refusal result) := by
  refine h.withPending fun s => ?_
  split_ifs <;> exact h

theorem use (h : Ledger vm) (kind : Kind) (this value : JsValue) :
    Ledger (step vm (.use kind this value)) := by
  cases kind <;> refine h.withPending fun s => ?_ <;> split_ifs <;> exact h

theorem dispose (h : Ledger vm) (this : JsValue) : Ledger (vm.disposableStackDispose this) := by
  rw [Vm.disposableStackDispose]
  rcases vm.requireDisposeCapability this .disposableStack with err | s
  · exact h
  · dsimp only
    split_ifs
    · exact h
    · exact h.of_account (Vm.account_disposeLoop _ _ _) (Keeps.disposeLoop _ _ _ _).promises

theorem disposeAsync (h : Ledger vm) (hinv : Inv vm) (this : JsValue) :
    Ledger (vm.disposeAsync this) := by
  have settled (c : Option Thrown) :
      Ledger (Vm.settle { vm with promises := vm.promises + 1 } vm.promises c) :=
    h.of_next_promise (@Vm.account_settle { vm with promises := vm.promises + 1 } _ c) rfl
  rw [Vm.disposeAsync]
  dsimp only
  rcases hr : Vm.requireDisposeCapability { vm with promises := vm.promises + 1 } this
    .asyncDisposableStack with err | s
  · exact settled _
  · obtain ⟨hs, -⟩ := Vm.of_requireDisposeCapability hr
    dsimp only
    split_ifs with hstate
    · exact settled _
    · have hpending : (vm.caps s).state = .pending := by
        rcases (hinv.sound s).standing.pending_or_disposed with hp | hd
        · exact hp
        · exact (hstate hd).elim
      have hinv' : Inv { vm with promises := vm.promises + 1 } :=
        ⟨hinv.sound, hinv.fresh, hinv.reading⟩
      obtain ⟨es, hp⟩ := (hinv'.beginDisposal hs hpending).progress
      exact h.of_next_promise
        (Vm.account_runDisposeLoop (l := ⟨s, vm.promises, _, none, false, false, true⟩) hp)
        (Keeps.runDisposeLoop _ _ _ _).promises

theorem resume (h : Ledger vm) (hinv : Inv vm) (r : Except Thrown JsValue) :
    Ledger (vm.resume r) := by
  rw [Vm.resume]
  rcases hf : vm.frames with _ | ⟨f, fs⟩
  · exact h
  · have heq : ({ vm with frames := fs } : Vm).enter f = vm := by
      simp [Vm.enter, ← hf]
    have hacc := Inv.account_resumeFrame (heq.symm ▸ hinv) r
    rw [← Vm.account_enter, heq] at hacc
    exact (hacc.trans h).trans (.of_eq (by rw [Vm.promises_resumeFrame]))

theorem continueLoop (h : Ledger vm) (hinv : Inv vm) (k : ℕ) (o : Except Thrown Unit) :
    Ledger (vm.continueLoop k o) := by
  rw [Vm.continueLoop]
  rcases hf : vm.frames with _ | ⟨f, fs⟩
  · rcases hw : vm.waiting[k]? with _ | w
    · exact h
    · have hb := hinv.between_of_waiting hw
      have hacc := Vm.account_of_waiting hw
      rw [hf] at hb hacc
      obtain ⟨es, hp⟩ := hb.progress
      dsimp only
      rcases w.outcome.getD o with err | _
      · refine ((hb.account_failLoop err).trans (hacc.symm.trans h)).trans
          (.of_eq (congrArg List.range (Eq.symm ?_)))
        exact (Keeps.runDisposeLoop _ _ _ _).promises
      · refine ((Vm.account_runDisposeLoop hp).trans (hacc.symm.trans h)).trans
          (.of_eq (congrArg List.range (Eq.symm ?_)))
        exact (Keeps.runDisposeLoop _ _ _ _).promises
  · exact h

theorem step (h : Ledger vm) (hinv : Inv vm) (i : Input) : Ledger (step vm i) := by
  cases i with
  | construct kind => exact h
  | use kind this value => exact h.use kind this value
  | adopt kind this value f => cases kind <;> exact h.register this _ _ _ _
  | defer kind this f => cases kind <;> exact h.register this _ _ _ _
  | move kind this => exact h.withPending fun s => h
  | dispose this => exact h.dispose this
  | disposeAsync this => exact h.disposeAsync hinv this
  | resume r => exact h.resume hinv r
  | continueLoop k o => exact h.continueLoop hinv k o

theorem run (inputs : List Input) : Ledger (run inputs) := by
  induction inputs using List.reverseRecOn with
  | nil => exact .rfl
  | append_singleton inputs i ih =>
    rw [Disposal.run, List.foldl_concat]
    exact ih.step (Inv.run inputs) i

end Ledger

end OxideJS.Disposal
