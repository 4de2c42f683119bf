import OxideJS.Vm.Machine

/-!
The arithmetic, relational and equality instructions, step by step.

`OxideJS.Vm.Operators` says which value such an instruction computes. Here
is what it does to the machine on the way: it reads conversion methods,
calls them, and an exception that a method throws is handled before the
instruction is over. At depth zero the exception is unwound in place, and
the coercion then returns `undefined` to the handler, which goes on; in
code that runs nested in a native call the failure is passed up instead,
and the loop around `dispatch` unwinds it.

User code is left open. `UserCode` supplies what a property read or a
call does, as a function of everything the instruction has done so far.
The log of an instruction lists the observable actions, newest first, so
that one can say what happened after an exception was caught.
-/

namespace OxideJS.Vm

open JsValue Binary64

/-- The properties a coercion with hint `number` reads. -/
inductive Key where
  | toPrimitive | valueOf | toString
  deriving DecidableEq

/-- The two kinds of body a call can enter. -/
inductive Callee where
  | native | bytecode
  deriving DecidableEq

/-- What an object is when it is called. -/
inductive Body where
  /-- A function object without a body, which returns `undefined`. -/
  | empty
  | proxy
  | code (callee : Callee)
  deriving DecidableEq

/-- A failed call: the value it left in `lastUncaughtValue`, if any, and
its error text. -/
structure Failure where
  uncaught : Option JsValue
  text : String

/-- What the machine notices while user code runs inside a property read
or a call: a function is about to be entered, or a nested call has failed
and is reported through `raiseCallError`. -/
inductive Act where
  | enter (callee : Callee)
  | fail (failure : Failure)

structure Answer where
  acts : List Act
  result : Except Failure JsValue

inductive Event where
  | got (object : Nat) (key : Key)
  | called (callee : Callee)
  /-- A coercion throws. -/
  | threw
  /-- The instruction itself throws. -/
  | raised
  | wrote (r : Nat)
  /-- A handler took the exception; `m` is the state `unwind` produced. -/
  | caught (m : Machine)

structure UserCode where
  get : List Event → Nat → Key → Answer
  call : List Event → Nat → Answer
  body : Nat → Body
  errorObject : JsError → JsValue
  errorFromText : String → JsValue
  maxCallDepth : Nat

structure Trace where
  vm : Machine
  log : List Event

/-- A step of a handler. A failure carries nothing: its text is used by
native callers only. -/
abbrev Exec := EStateM Unit Trace

namespace Exec

def emit (e : Event) : Exec Unit := fun t => .ok () { t with log := e :: t.log }

def machine : Exec Machine := fun t => .ok t.vm t

def history : Exec (List Event) := fun t => .ok t.log t

def update (f : Machine → Machine) : Exec Unit := fun t => .ok () { t with vm := f t.vm }

def fail {α : Type} : Exec α := fun t => .error () t

def write (r : Nat) (v : JsValue) : Exec Unit := do
  update fun m => m.setReg r v
  emit (.wrote r)

def unwind : Exec Unit := fun t =>
  match t.vm.unwind with
  | .ok m => .ok () ⟨m, .caught m :: t.log⟩
  | .error m => .error () ⟨m, t.log⟩

/-- An exception is put in flight and unwound in place. -/
def throwInPlace (e : Event) (exc : JsValue) : Exec Unit := do
  emit e
  update fun m => { m with exceptionValue := some exc }
  unwind

end Exec

open Exec

section Coercion

variable (host : Host) (user : UserCode)

/-- The call depth limit, as the two kinds of calls check it. -/
def refuses (m : Machine) : Callee → Bool
  | .native => user.maxCallDepth ≤ m.nativeCallDepth
  | .bytecode => user.maxCallDepth ≤ m.frames.length || user.maxCallDepth ≤ m.nativeCallDepth

def conversionError (message : String) : Exec Unit := do
  let m ← machine
  if m.nativeCallDepth = 0 then
    throwInPlace .threw (user.errorObject ⟨.typeError, message⟩)
  else do
    emit .threw
    fail

def raiseCallError (failure : Failure) : Exec Unit := do
  let exc := failure.uncaught.getD (user.errorFromText failure.text)
  let m ← machine
  if m.nativeCallDepth = 0 then do
    update fun m => { m with lastUncaughtValue := none }
    throwInPlace .threw exc
  else do
    emit .threw
    update fun m =>
      { m with exceptionValue := some exc, lastUncaughtValue := failure.uncaught }
    fail

/-- A call is about to enter a body. Beyond the depth limit it does not: a
range error is unwound in place, at any depth. -/
def checkDepth (callee : Callee) : Exec Bool := do
  let m ← machine
  emit (.called callee)
  if refuses user m callee then do
    throwInPlace .threw (user.errorObject ⟨.rangeError, "Maximum call stack size exceeded"⟩)
    pure false
  else pure true

def perform : List Act → Exec Unit
  | [] => pure ()
  | .enter callee :: acts => do
    let _ ← checkDepth user callee
    perform acts
  | .fail failure :: acts => do
    raiseCallError user failure
    perform acts

def ordinaryGet (object : Nat) (key : Key) : Exec JsValue := do
  let log ← history
  emit (.got object key)
  let answer := user.get log object key
  perform user answer.acts
  match answer.result with
  | .ok v => pure v
  | .error _ => do
    emit .threw
    fail

def runBody (f : Nat) : Exec (Except Failure JsValue) := do
  let log ← history
  let answer := user.call log f
  perform user answer.acts
  pure answer.result

def callFunctionSync (f : Nat) : Exec (Except Failure JsValue) :=
  match user.body f with
  | .empty => pure (.ok .undefined)
  | .proxy => runBody user f
  | .code callee => do
    if ← checkDepth user callee then runBody user f else pure (.ok .undefined)

/-- The object a value can be called as. -/
def callable (v : JsValue) : Option Nat :=
  match v with
  | .object id => if host.isFunction id then some id else none
  | _ => none

def objectResultMessage : String := "Cannot convert object to primitive value"

/-- The method named by `@@toPrimitive` decides alone. -/
def exoticToPrimitive (method : JsValue) : Exec JsValue :=
  match callable host method with
  | none => do
    conversionError user "Symbol.toPrimitive is not a function"
    pure .undefined
  | some f => do
    match ← callFunctionSync user f with
    | .error failure => do
      raiseCallError user failure
      pure .undefined
    | .ok result =>
      if result.isObject then do
        conversionError user objectResultMessage
        pure .undefined
      else pure result

def ordinaryToPrimitive (object : Nat) : List Key → Exec JsValue
  | [] => do
    conversionError user objectResultMessage
    pure .undefined
  | key :: keys => do
    let method ← ordinaryGet user object key
    match callable host method with
    | none => ordinaryToPrimitive object keys
    | some f => do
      match ← callFunctionSync user f with
      | .error failure => do
        raiseCallError user failure
        pure .undefined
      | .ok result =>
        if result.isObject then ordinaryToPrimitive object keys else pure result

def coercePrimitive (v : JsValue) : Exec JsValue :=
  match v with
  | .object id => do
    let exotic ← ordinaryGet user id .toPrimitive
    if exotic.isNullish then ordinaryToPrimitive host user id [.valueOf, .toString]
    else exoticToPrimitive host user exotic
  | v => pure v

/-! ### The instructions -/

/-- The error an instruction raises itself is unwound in place. -/
def raiseThrown : Thrown → Exec Unit
  | .error e => throwInPlace .raised (user.errorObject e)
  | .value v => throwInPlace .raised v

/-- One of the instructions that coerce both operands: the operand pairs
it settles without coercion, what it computes from two primitives, whether
it fetches the right operand only after the left one is coerced, and
whether it writes `undefined` after an error of its own. -/
structure Operator where
  fast : JsValue → JsValue → Option (Result JsValue)
  slow : JsValue → JsValue → Result JsValue
  lateRight : Bool
  writesAfterRaise : Bool

def Operator.finish (op : Operator) (rd : Nat) : Result JsValue → Exec Unit
  | .ok v => write rd v
  | .error e => do
    raiseThrown user e
    if op.writesAfterRaise then write rd .undefined

def Operator.dispatch (op : Operator) (rd a b : Nat) : Exec Unit := do
  let m ← machine
  match op.fast (m.regs a) (m.regs b) with
  | some result => op.finish user rd result
  | none => do
    let l ← coercePrimitive host user (m.regs a)
    let m' ← machine
    let r ← coercePrimitive host user (if op.lateRight then m'.regs b else m.regs b)
    op.finish user rd (op.slow l r)

/-- An operation on machine integers keeps the representation where the
exact result fits. -/
def keepInt (exact : Int) (float : Float) : JsValue :=
  if -2 ^ 31 ≤ exact ∧ exact < 2 ^ 31 then .int (Int32.ofInt exact) else .double float

def intSub (a b : Int32) : JsValue :=
  keepInt (a.toInt - b.toInt) (ofInt a.toInt - ofInt b.toInt)

def intMul (a b : Int32) : JsValue :=
  keepInt (a.toInt * b.toInt) (ofInt a.toInt * ofInt b.toInt)

def intDiv (a b : Int32) : JsValue := .double (ofInt a.toInt / ofInt b.toInt)

/-- A zero divisor and the one quotient that overflows leave the integers. -/
def intMod (a b : Int32) : JsValue :=
  if b.toInt = 0 ∨ (a.toInt = -2 ^ 31 ∧ b.toInt = -1) then
    .double (rem (ofInt a.toInt) (ofInt b.toInt))
  else .int (Int32.ofInt (a.toInt.tmod b.toInt))

def addOperator : Operator where
  fast
    | .int a, .int b => some (.ok (intAdd a b))
    | .double a, .double b => some (.ok (.double (a + b)))
    | .bigint a, .bigint b => some (.ok (.bigint (a + b)))
    | _, _ => none
  slow := addPrimitives host
  lateRight := false
  writesAfterRaise := false

/-- A member of the family `binary_arith!`. -/
def arithOperator (op : ArithOp) : Operator where
  fast
    | .int a, .int b => some (.ok (.double (op.float (ofInt a.toInt) (ofInt b.toInt))))
    | .bigint a, .bigint b => some (op.bigint a b)
    | _, _ => none
  slow := op.primitives host
  lateRight := false
  writesAfterRaise := true

/-- The compound form of an arithmetic operator, with its own action on
two machine integers. -/
def compoundOperator (op : ArithOp) (int : Int32 → Int32 → JsValue) : Operator where
  fast
    | .int a, .int b => some (.ok (int a b))
    | .double a, .double b => some (.ok (.double (op.float a b)))
    | .bigint a, .bigint b => some (op.bigint a b)
    | _, _ => none
  slow := op.primitives host
  lateRight := false
  writesAfterRaise := false

def expOperator : Operator where
  fast
    | .int a, .int b => some (.ok (.double ((ofInt a.toInt).pow (ofInt b.toInt))))
    | .double a, .double b => some (.ok (.double (a.pow b)))
    | .bigint a, .bigint b => some (bigintExp a b)
    | _, _ => none
  slow := expPrimitives host
  lateRight := false
  writesAfterRaise := true

/-- One of `<`, `>`, `<=` and `>=`. -/
def relationalOperator (swap negate : Bool) : Operator where
  fast _ _ := none
  slow := relationalPrimitives host swap negate
  lateRight := true
  writesAfterRaise := false

/-- The instructions that coerce both operands. A compound instruction has
its left operand in the register it writes. -/
def operator : OpCode → Option Operator
  | .add => some (addOperator host)
  | .sub => some (arithOperator host subOp)
  | .mul => some (arithOperator host mulOp)
  | .div => some (arithOperator host divOp)
  | .mod => some (arithOperator host modOp)
  | .exp => some (expOperator host)
  | .lt => some (relationalOperator host false false)
  | .gt => some (relationalOperator host true false)
  | .lte => some (relationalOperator host true true)
  | .gte => some (relationalOperator host false true)
  | _ => none

def compound : OpCode → Option Operator
  | .compoundAdd => some (addOperator host)
  | .compoundSub => some (compoundOperator host subOp intSub)
  | .compoundMul => some (compoundOperator host mulOp intMul)
  | .compoundDiv => some (compoundOperator host divOp intDiv)
  | .compoundMod => some (compoundOperator host modOp intMod)
  | .compoundExp => some (expOperator host)
  | _ => none

/-- `==` coerces an object that meets a primitive, and nothing else. -/
def abstractEqSteps (l r : JsValue) : Exec Bool :=
  match seenAs host l, seenAs host r with
  | .object a, .object b => pure (strictEquality (.object a) (.object b))
  | .object a, r =>
    if r.isNullish then pure false
    else do
      let p ← coercePrimitive host user (.object a)
      pure (looseEqPrimitives host p (unbool r))
  | l, .object b =>
    if l.isNullish then pure false
    else do
      let p ← coercePrimitive host user (.object b)
      pure (looseEqPrimitives host (unbool l) p)
  | l, r => pure (looseEqPrimitives host l r)

def dispatchEquality (negate : Bool) (rd a b : Nat) : Exec Unit := do
  let m ← machine
  let eq ← abstractEqSteps host user (m.regs a) (m.regs b)
  write rd (.bool (if negate then !eq else eq))

/-- The handler of an instruction `op rd a b`. -/
def instruction (op : OpCode) (rd a b : Nat) : Option (Exec Unit) :=
  match op with
  | .eq => some (dispatchEquality host user false rd a b)
  | .neq => some (dispatchEquality host user true rd a b)
  | op =>
    match operator host op, compound host op with
    | some o, _ => some (o.dispatch host user rd a b)
    | none, some o => some (o.dispatch host user rd rd a)
    | none, none => none

/-- What the loop around `dispatch` makes of the outcome. In an inline body
that has not failed before, a failure is unwound if the body has a handler
of its own, that is, one above `tryBase`. -/
def settle (tryBase : Option Nat) : EStateM.Result Unit Trace Unit → Trace
  | .ok _ t => t
  | .error _ t =>
    if t.vm.nativeCallDepth = 0 then t
    else
      match tryBase with
      | none => t
      | some base =>
        if t.vm.tryStack.length ≤ base then t
        else
          match Exec.unwind t with
          | .ok _ t => t
          | .error _ t => t

def execute (tryBase : Option Nat) (body : Exec Unit) (m : Machine) : Trace :=
  settle tryBase (body ⟨m, []⟩)

end Coercion

end OxideJS.Vm
