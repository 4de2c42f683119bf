import OxideJS.Vm.Operators

/-!
The state of the machine that exceptions and completions act on, and
`unwind`.

A handler is pushed when a `try` statement is entered. It holds the
address of its catch block or of its finally block, and the numbers of
frames and of open `for`-`of` iterators at that moment. An exception in
flight is in `exceptionValue`; while a finally block runs on behalf of an
exception or of a `break`, `continue` or `return`, that exception or that
completion waits in one of the two single slots `pendingException` and
`pendingCompletion`.

Iterators are counted and not represented, and closing one has no
further effect: the errors of an iterator closed by an exception are
dropped by the machine. Disposable resources are left out.
-/

namespace OxideJS.Vm

structure TryHandler where
  catchPc : Option Nat
  finallyPc : Option Nat
  /-- The finally block has been entered. -/
  finallyActive : Bool
  frameDepth : Nat
  forOfDepth : Nat
  deriving DecidableEq

/-- A completion other than a normal one or a throw. -/
inductive Completion.Kind where
  | break (targetPc : Nat)
  | continue (targetPc : Nat)
  | return (value : JsValue)
  deriving DecidableEq

/-- A completion on its way, with the number of finally blocks it still
has to cross and the numbers of iterators to close before it is
performed. -/
structure Completion where
  kind : Completion.Kind
  remainingFinally : Nat
  forOfCount : Nat
  forInCount : Nat
  deriving DecidableEq

/-- What a call saves of its caller. -/
structure CallFrame where
  returnAddr : Nat
  callerCode : Nat
  window : List JsValue
  savedThis : JsValue
  savedNewTarget : JsValue
  deriving DecidableEq

structure Machine where
  /-- The function whose code runs. -/
  code : Nat
  pc : Nat
  regs : Nat → JsValue
  frames : List CallFrame
  tryStack : List TryHandler
  forOfIters : Nat
  forInIters : Nat
  exceptionValue : Option JsValue
  pendingException : Option JsValue
  pendingCompletion : Option Completion
  lastUncaughtValue : Option JsValue
  /-- How many native calls or inline bodies the running code is nested in. -/
  nativeCallDepth : Nat

namespace Machine

def setReg (m : Machine) (r : Nat) (v : JsValue) : Machine :=
  { m with regs := fun i => if i = r then v else m.regs i }

/-- Back to the caller: its code, registers and address. -/
def restoreFrame (m : Machine) (frame : CallFrame) : Machine :=
  { m with
    code := frame.callerCode
    pc := frame.returnAddr
    regs := fun i =>
      if i = 254 then frame.savedThis
      else if i = 255 then frame.savedNewTarget
      else frame.window.getD i (m.regs i) }

/-- Frames are popped, innermost first, until `depth` of them are left. -/
def popFrames (m : Machine) (depth : Nat) : List CallFrame → Machine
  | [] => { m with frames := [] }
  | frame :: rest =>
    if rest.length + 1 ≤ depth then { m with frames := frame :: rest }
    else popFrames (m.restoreFrame frame) depth rest

def closeForOfAbove (m : Machine) (depth : Nat) : Machine :=
  { m with forOfIters := min m.forOfIters depth }

/-- The machine as an exception leaves it at `handler`. -/
def leaveTo (m : Machine) (handler : TryHandler) : Machine :=
  (m.popFrames handler.frameDepth m.frames).closeForOfAbove handler.forOfDepth

def inFlight (m : Machine) : JsValue := m.exceptionValue.getD .undefined

def enterFinally (m : Machine) (handler : TryHandler) (rest : List TryHandler) (pc : Nat) :
    Machine :=
  { m with
    pendingException := some m.inFlight
    exceptionValue := none
    lastUncaughtValue := none
    tryStack := { handler with finallyActive := true } :: rest
    pc := pc }

def enterCatch (m : Machine) (rest : List TryHandler) (pc : Nat) : Machine :=
  { m.setReg 0 m.inFlight with
    exceptionValue := none
    lastUncaughtValue := none
    tryStack := rest
    pc := pc }

/-- No handler takes the exception. -/
def uncaught (m : Machine) : Machine :=
  let m := m.popFrames 0 m.frames
  { m with
    tryStack := []
    forOfIters := 0
    exceptionValue := none
    lastUncaughtValue := some m.inFlight }

/-- The loop of `unwind` over the handlers that are left. -/
def unwindFrom (m : Machine) : List TryHandler → Except Machine Machine
  | [] => .error m.uncaught
  | handler :: rest =>
    -- A handler of a frame that has returned is dropped.
    if m.frames.length < handler.frameDepth then unwindFrom m rest
    else
      let m := m.leaveTo handler
      match handler.finallyPc with
      | some pc =>
        if handler.finallyActive then
          -- The exception comes from the finally block itself.
          unwindFrom { m with pendingException := none, pendingCompletion := none } rest
        else .ok (m.enterFinally handler rest pc)
      | none =>
        match handler.catchPc with
        | some pc => .ok (m.enterCatch rest pc)
        | none => unwindFrom m rest

/-- The exception in flight goes to the innermost handler that takes it. -/
def unwind (m : Machine) : Except Machine Machine := m.unwindFrom m.tryStack

end Machine

end OxideJS.Vm
