import OxideJS.Bytecode.OpCode
import OxideJS.Value.JsValue

/-!
The values that the operator instructions compute.

Each handler first replaces object operands by primitives, which runs
user code and may throw; what that code returns is the parameter
`toPrimitive`. What remains is a function of two primitives, which may
itself throw a type or range error. The handlers are written here as
functions of the operand values; which registers they read and write, and
in which order the two coercions and the write happen, is the business of
the modules that use them.
-/

namespace OxideJS.Vm

open JsValue Binary64

inductive ErrorKind where
  | typeError | rangeError
  deriving DecidableEq

/-- An error raised by the machine itself. -/
structure JsError where
  kind : ErrorKind
  message : String
  deriving DecidableEq

/-- What an instruction throws: an error of the machine, or a value thrown
by user code. -/
inductive Thrown where
  | error (e : JsError)
  | value (v : JsValue)
  deriving DecidableEq

abbrev Result := Except Thrown

@[simp] theorem ok_bind {α β : Type} (a : α) (k : α → Result β) :
    ((.ok a : Result α) >>= k) = k a := rfl

@[simp] theorem error_bind {α β : Type} (e : Thrown) (k : α → Result β) :
    ((.error e : Result α) >>= k) = .error e := rfl

def raise (kind : ErrorKind) (message : String) : Result JsValue :=
  .error (.error ⟨kind, message⟩)

def mixError : Result JsValue :=
  raise .typeError "Cannot mix BigInt and other types, use explicit conversions"

def symbolNumberMessage : String := "Cannot convert a Symbol value to a number"

/-! ### Addition -/

/-- The sum of two machine integers, as an integer where it fits. -/
def intAdd (a b : Int32) : JsValue :=
  let sum := a.toInt + b.toInt
  if -2 ^ 31 ≤ sum ∧ sum < 2 ^ 31 then .int (Int32.ofInt sum)
  else .double (ofInt a.toInt + ofInt b.toInt)

section Handlers

variable (host : Host) (toPrimitive : Nat → Result JsValue)

/-- `ToPrimitive`: only objects run user code. -/
def coercePrimitiveBounded (v : JsValue) : Result JsValue :=
  match v with
  | .object id => toPrimitive id
  | v => .ok v

/-- `+` on two primitives. -/
def addPrimitives (l r : JsValue) : Result JsValue :=
  if l.isSymbol || r.isSymbol then
    raise .typeError
      (if l.isString || r.isString then "Cannot convert a Symbol value to a string"
      else symbolNumberMessage)
  else if l.isString || r.isString then .ok (.string (host.concat l r))
  else
    match l, r with
    | .bigint a, .bigint b => .ok (.bigint (a + b))
    | l, r =>
      if l.isBigint != r.isBigint then mixError
      else .ok (.double (toNumber host l + toNumber host r))

def dispatchAdd (l r : JsValue) : Result JsValue :=
  match l, r with
  | .int a, .int b => .ok (intAdd a b)
  | .double a, .double b => .ok (.double (a + b))
  | .bigint a, .bigint b => .ok (.bigint (a + b))
  | l, r => do
    let l ← coercePrimitiveBounded toPrimitive l
    let r ← coercePrimitiveBounded toPrimitive r
    addPrimitives host l r

/-! ### The other arithmetic operators -/

/-- One operator of the family `binary_arith!`: its action on doubles and
on big integers, and whether a zero divisor is an error for the latter. -/
structure ArithOp where
  float : Float → Float → Float
  big : Int → Int → Int
  checkZero : Bool

def subOp : ArithOp := ⟨fun x y => x - y, fun a b => a - b, false⟩
def mulOp : ArithOp := ⟨fun x y => x * y, fun a b => a * b, false⟩
def divOp : ArithOp := ⟨fun x y => x / y, Int.tdiv, true⟩
def modOp : ArithOp := ⟨rem, Int.tmod, true⟩

def ArithOp.bigint (op : ArithOp) (a b : Int) : Result JsValue :=
  if b = 0 ∧ op.checkZero = true then raise .rangeError "Division by zero"
  else .ok (.bigint (op.big a b))

def ArithOp.primitives (op : ArithOp) (l r : JsValue) : Result JsValue :=
  if l.isSymbol || r.isSymbol then raise .typeError symbolNumberMessage
  else
    match l, r with
    | .bigint a, .bigint b => op.bigint a b
    | l, r =>
      if l.isBigint != r.isBigint then mixError
      else .ok (.double (op.float (toNumber host l) (toNumber host r)))

def binaryArith (op : ArithOp) (l r : JsValue) : Result JsValue :=
  match l, r with
  | .int a, .int b => .ok (.double (op.float (ofInt a.toInt) (ofInt b.toInt)))
  | .bigint a, .bigint b => op.bigint a b
  | l, r => do
    let l ← coercePrimitiveBounded toPrimitive l
    let r ← coercePrimitiveBounded toPrimitive r
    op.primitives host l r

/-- The power of two big integers; the exponent must fit into `u32`. -/
def bigintExp (base exp : Int) : Result JsValue :=
  if 0 ≤ exp ∧ exp < 2 ^ 32 then .ok (.bigint (base ^ exp.toNat))
  else raise .rangeError "Exponent must be positive"

def expPrimitives (l r : JsValue) : Result JsValue :=
  if l.isSymbol || r.isSymbol then raise .typeError symbolNumberMessage
  else
    match l, r with
    | .bigint a, .bigint b => bigintExp a b
    | l, r =>
      if l.isBigint != r.isBigint then mixError
      else .ok (.double ((toNumber host l).pow (toNumber host r)))

/-! ### Comparison -/

/-- One of `<`, `>`, `<=` and `>=`. The order may be taken with the
operands exchanged and its outcome negated; operands that cannot be
ordered give `false` in all four cases. -/
def relationalPrimitives (swap negate : Bool) (a b : JsValue) : Result JsValue :=
  if a.isSymbol || b.isSymbol then raise .typeError symbolNumberMessage
  else
    match (if swap then relationalCompare host b a else relationalCompare host a b) with
    | some less => .ok (.bool (if negate then !less else less))
    | none => .ok (.bool false)

/-- `==` on two primitives, as the handler of `==` reaches it: equal types
are compared strictly first. -/
def looseEqPrimitives (l r : JsValue) : Bool :=
  if l.jsType = r.jsType then strictEquality l r else abstractEqPrimitives host l r

/-- A boolean that meets an object is replaced by an integer before the
object is coerced. -/
def unbool : JsValue → JsValue
  | .bool b => .int (if b then 1 else 0)
  | v => v

/-- The host object that poses as absent compares as `undefined`. -/
def seenAs (v : JsValue) : JsValue :=
  match v with
  | .object id => if host.isHtmlDda id then .undefined else .object id
  | v => v

end Handlers

end OxideJS.Vm
