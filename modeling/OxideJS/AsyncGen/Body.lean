import OxideJS.AsyncGen.Queue

/-!
Bodies of async generators.

A body is a statement over a store, with `try`, `catch` and `finally` in any
nesting, loops that close their iterator when they are left, and `yield` and
`await` anywhere. It runs on a machine with a stack of frames, as the
bytecode runs with a stack of handlers: an exception drops frames until one
of them has something to do with it. Which handlers were entered is kept.
-/

namespace OxideJS.AsyncGen.Body

/-! ### Statements and frames -/

inductive Stmt (σ : Type*) where
  | act (f : σ → σ)
  | yield (value : σ → JsValue) (receive : JsValue → σ → σ)
  | await (receive : JsValue → σ → σ)
  | throw (exc : σ → JsValue)
  | return (value : σ → JsValue)
  | seq (first second : Stmt σ)
  | ite (condition : σ → Bool) (yes no : Stmt σ)
  | while (condition : σ → Bool) (body : Stmt σ)
  | tryCatch (body : Stmt σ) (bind : JsValue → σ → σ) (handler : Stmt σ)
  | tryFinally (body finalizer : Stmt σ)
  /-- a loop over an iterator or a scope with resources: leaving it by an
  exception or a `return` closes what it has open -/
  | closing (body : Stmt σ) (close : σ → σ)

inductive Completion where
  | normal
  | throw (exc : JsValue)
  | return (value : JsValue)

/-- What is left to do when a statement has completed. -/
inductive Frame (σ : Type*) where
  | seq (next : Stmt σ)
  | catch (bind : JsValue → σ → σ) (handler : Stmt σ)
  | finally (finalizer : Stmt σ)
  /-- the end of a `finally` block that was entered with a completion -/
  | finallyEnd (completion : Completion)
  | closing (close : σ → σ)

inductive HandlerKind where
  | catch
  | finally
  | closing
  deriving DecidableEq

/-- What a frame does about an exception, if anything. -/
def Frame.kind {σ : Type*} : Frame σ → Option HandlerKind
  | .seq _ => none
  | .catch _ _ => some .catch
  | .finally _ => some .finally
  | .finallyEnd _ => none
  | .closing _ => some .closing

/-! ### The machine -/

inductive Control (σ : Type*) where
  | run (s : Stmt σ)
  | complete (c : Completion)
  /-- waits to be resumed -/
  | suspended (receive : JsValue → σ → σ)

structure Config (σ : Type*) where
  control : Control σ
  frames : List (Frame σ)
  store : σ
  /-- the handlers that were entered so far -/
  entered : List HandlerKind

namespace Config

variable {σ : Type*}

def start (body : Stmt σ) (store : σ) : Config σ :=
  ⟨.run body, [], store, []⟩

/-- The handlers around the place where the body is, the innermost first. -/
def handlers (c : Config σ) : List HandlerKind :=
  c.frames.filterMap Frame.kind

def enter (c : Config σ) (kind : HandlerKind) : Config σ :=
  { c with entered := c.entered ++ [kind] }

/-- A statement begins. -/
def runStmt (c : Config σ) : Stmt σ → Config σ × Option Outcome
  | .act f => ({ c with control := .complete .normal, store := f c.store }, none)
  | .yield value receive =>
    ({ c with control := .suspended receive }, some (.yields (value c.store)))
  | .await receive => ({ c with control := .suspended receive }, some .awaits)
  | .throw exc => ({ c with control := .complete (.throw (exc c.store)) }, none)
  | .return value => ({ c with control := .complete (.return (value c.store)) }, none)
  | .seq first second => ({ c with control := .run first, frames := .seq second :: c.frames }, none)
  | .ite condition yes no =>
    ({ c with control := .run (if condition c.store then yes else no) }, none)
  | .while condition body =>
    if condition c.store then
      ({ c with control := .run body, frames := .seq (.while condition body) :: c.frames }, none)
    else ({ c with control := .complete .normal }, none)
  | .tryCatch body bind handler =>
    ({ c with control := .run body, frames := .catch bind handler :: c.frames }, none)
  | .tryFinally body finalizer =>
    ({ c with control := .run body, frames := .finally finalizer :: c.frames }, none)
  | .closing body close =>
    ({ c with control := .run body, frames := .closing close :: c.frames }, none)

/-- A statement has completed, and the next frame takes over; `unwind` for
exceptions, `complete_generator_return` for a `return`. -/
def completeFrame (c : Config σ) (frames : List (Frame σ)) : Completion → Frame σ → Config σ
  | .normal, .seq next => { c with control := .run next, frames := frames }
  | .normal, .catch _ _ => { c with control := .complete .normal, frames := frames }
  | .normal, .closing _ => { c with control := .complete .normal, frames := frames }
  | .throw exc, .catch bind handler =>
    { c with control := .run handler, frames := frames, store := bind exc c.store }.enter .catch
  | .throw exc, .closing close =>
    { c with
      control := .complete (.throw exc), frames := frames, store := close c.store }.enter .closing
  | .return v, .closing close =>
    { c with
      control := .complete (.return v), frames := frames, store := close c.store }.enter .closing
  | k, .finally finalizer =>
    { c with control := .run finalizer, frames := .finallyEnd k :: frames }.enter .finally
  | .normal, .finallyEnd k => { c with control := .complete k, frames := frames }
  -- a new exception or `return` replaces the completion that was kept
  | k, .finallyEnd _ => { c with control := .complete k, frames := frames }
  | k, .seq _ => { c with control := .complete k, frames := frames }
  | .return v, .catch _ _ => { c with control := .complete (.return v), frames := frames }

/-- How the body ends when there is no frame left. -/
def end_ : Completion → Outcome
  | .normal => .completes .undefined
  | .throw exc => .throws exc
  | .return v => .completes v

/-- One step, with the outcome if the body stops. -/
def step (c : Config σ) : Config σ × Option Outcome :=
  match c.control, c.frames with
  | .run s, _ => c.runStmt s
  | .complete k, f :: frames => (c.completeFrame frames k f, none)
  | .complete k, [] => (c, some (end_ k))
  | .suspended _, _ => (c, none)

/-- The body goes on with what a request or a reaction brings. -/
def resume (c : Config σ) (receive : JsValue → σ → σ) : Mode → Config σ
  | .next v => { c with control := .complete .normal, store := receive v c.store }
  | .throw exc => { c with control := .complete (.throw exc) }
  | .return v => { c with control := .complete (.return v) }

/-- The body that has yielded is suspended. -/
theorem suspended_of_yields {c c' : Config σ} {value : JsValue}
    (h : c.step = (c', some (.yields value))) : ∃ receive, c'.control = .suspended receive := by
  obtain ⟨control, frames, store, entered⟩ := c
  cases control with
  | run s =>
    cases s with
    | yield value receive =>
      obtain ⟨rfl, -⟩ := Prod.mk.inj h
      exact ⟨receive, rfl⟩
    | «while» condition body =>
      simp only [step, runStmt] at h
      split at h <;> exact nomatch congrArg Prod.snd h
    | _ => exact nomatch congrArg Prod.snd h
  | complete k =>
    cases frames with
    | nil => cases k <;> exact nomatch congrArg Prod.snd h
    | cons => exact nomatch congrArg Prod.snd h
  | suspended => exact nomatch congrArg Prod.snd h

/-! ### Handlers that were entered -/

theorem entered_completeFrame (c : Config σ) (frames : List (Frame σ)) (k : Completion)
    (f : Frame σ) : ∃ kinds, (c.completeFrame frames k f).entered = c.entered ++ kinds := by
  cases k <;> cases f <;>
    first
    | exact ⟨[], (List.append_nil _).symm⟩
    | exact ⟨[_], rfl⟩

theorem entered_runStmt (c : Config σ) (s : Stmt σ) : (c.runStmt s).1.entered = c.entered := by
  cases s with
  | «while» condition body =>
    simp only [runStmt]
    split <;> rfl
  | _ => rfl

/-- The list of handlers that were entered grows. -/
theorem entered_step (c : Config σ) : ∃ kinds, c.step.1.entered = c.entered ++ kinds := by
  unfold step
  split
  · exact ⟨[], by rw [entered_runStmt, List.append_nil]⟩
  · exact c.entered_completeFrame _ _ _
  · exact ⟨[], (List.append_nil _).symm⟩
  · exact ⟨[], (List.append_nil _).symm⟩

/-- An exception drops the frames that do nothing about it. -/
theorem completeFrame_throw_of_kind_none {c : Config σ} {f : Frame σ} (h : f.kind = none)
    (frames : List (Frame σ)) (exc : JsValue) :
    c.completeFrame frames (.throw exc) f =
      { c with control := .complete (.throw exc), frames := frames } := by
  cases f with
  | seq => rfl
  | finallyEnd => rfl
  | _ => exact nomatch h

theorem handlers_of_kind_none {c c' : Config σ} {f : Frame σ} (h : f.kind = none)
    (hframes : c.frames = f :: c'.frames) : c.handlers = c'.handlers := by
  rw [handlers, hframes, List.filterMap_cons_none h, handlers]

/-- And enters the others. -/
theorem entered_completeFrame_throw {c : Config σ} {f : Frame σ} {kind : HandlerKind}
    (h : f.kind = some kind) (frames : List (Frame σ)) (exc : JsValue) :
    (c.completeFrame frames (.throw exc) f).entered = c.entered ++ [kind] := by
  cases f with
  | seq => exact nomatch h
  | finallyEnd => exact nomatch h
  | _ => obtain rfl := Option.some.inj h; rfl

end Config

end OxideJS.AsyncGen.Body
