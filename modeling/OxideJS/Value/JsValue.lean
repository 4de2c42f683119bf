import OxideJS.Lib.Binary64

/-!
JavaScript values and the conversions that need no user code.

A number has two representations, a signed 32-bit integer and a binary64
number, and the machine keeps them apart: `1` and `1.0` are the same
number and different values here. Not-a-number has a single
representation, as boxing a float makes it canonical. A string is stood
for by the text under which it is interned, an encoding of its UTF-16
units without loss.

What the conversions take from outside this file is collected in `Host`:
how a string parses as a number, the code units of a string, the
concatenation of the texts of two primitives, and two facts about
objects.
-/

namespace OxideJS

/-- A JavaScript value. Symbols and objects are stood for by their
identity. -/
inductive JsValue where
  | undefined
  | null
  | bool (b : Bool)
  | int (i : Int32)
  | double (x : Float)
  | string (s : String)
  | bigint (n : Int)
  | symbol (id : Nat)
  | object (id : Nat)
  deriving DecidableEq

/-- The parts of the runtime the conversions depend on. -/
structure Host where
  parseNumber : String → Float
  units : String → List Nat
  concat : JsValue → JsValue → String
  isHtmlDda : Nat → Bool
  isFunction : Nat → Bool

/-- A host without texts and functions, for operands that do not look at
them. -/
def silentHost : Host where
  parseNumber _ := Float.nan
  units _ := []
  concat _ _ := ""
  isHtmlDda _ := false
  isFunction _ := false

namespace JsValue

/-- The type tags of the boxed representation; a number has two. -/
inductive Tag where
  | undefined | null | bool | int | double | string | symbol | bigint | object
  deriving DecidableEq

def jsType : JsValue → Tag
  | .undefined => .undefined
  | .null => .null
  | .bool _ => .bool
  | .int _ => .int
  | .double _ => .double
  | .string _ => .string
  | .symbol _ => .symbol
  | .bigint _ => .bigint
  | .object _ => .object

def isObject : JsValue → Bool
  | .object _ => true
  | _ => false

def isSymbol : JsValue → Bool
  | .symbol _ => true
  | _ => false

def isString : JsValue → Bool
  | .string _ => true
  | _ => false

def isBigint : JsValue → Bool
  | .bigint _ => true
  | _ => false

def isNullish : JsValue → Bool
  | .undefined | .null => true
  | _ => false

end JsValue

open JsValue Binary64

/-! ### Conversions to numbers and booleans -/

/-- `ToNumber` of a primitive. Objects and symbols, which the callers have
to handle before, give not-a-number. -/
def toNumber (host : Host) : JsValue → Float
  | .int i => ofInt i.toInt
  | .double x => x
  | .bool b => if b then ofInt 1 else ofInt 0
  | .null => ofInt 0
  | .undefined => Float.nan
  | .string s => host.parseNumber s
  | .bigint n => ofInt n
  | .object _ => Float.nan
  | .symbol _ => Float.nan

def toBoolean (host : Host) : JsValue → Bool
  | .undefined => false
  | .null => false
  | .bool b => b
  | .int i => i != 0
  | .double x => !(x == ofInt 0 || x.isNaN)
  | .string s => !s.isEmpty
  | .bigint n => n != 0
  | .object id => !host.isHtmlDda id
  | .symbol _ => true

theorem natAbs_log2_toInt (i : Int32) : i.toInt.natAbs.log2 ≤ 52 := by
  have hlo := i.le_toInt
  have hhi := i.toInt_lt
  by_cases h0 : i.toInt.natAbs = 0
  · simp [h0]
  · have hlt : i.toInt.natAbs < 2 ^ 32 := by omega
    have := (Nat.log2_lt h0).2 hlt
    omega

/-! ### Comparisons -/

def strictDoubleEq (a b : Float) : Bool :=
  if a.isNaN || b.isNaN then false else a == b

/-- The number of an integer or a double, and not-a-number otherwise. -/
def toF64 : JsValue → Float
  | .int i => ofInt i.toInt
  | .double x => x
  | _ => Float.nan

def strictEquality : JsValue → JsValue → Bool
  | .int a, .int b => a == b
  | .double a, .double b => strictDoubleEq a b
  | .int a, .double b => strictDoubleEq (toF64 (.int a)) (toF64 (.double b))
  | .double a, .int b => strictDoubleEq (toF64 (.double a)) (toF64 (.int b))
  | .bool a, .bool b => a == b
  | .null, .null => true
  | .undefined, .undefined => true
  | .string a, .string b => a == b
  | .object a, .object b => a == b
  | .symbol a, .symbol b => a == b
  | .bigint a, .bigint b => a == b
  | _, _ => false

/-- `==` on two primitives neither of which is a boolean. -/
def looseEqUnboxed (host : Host) (l r : JsValue) : Bool :=
  if l.jsType = r.jsType then strictEquality l r
  else
    match l, r with
    | .null, .undefined => true
    | .undefined, .null => true
    | .int a, .double b => strictEquality (.int a) (.double b)
    | .double a, .int b => strictEquality (.double a) (.int b)
    | .bigint n, .int i => ofInt n == toNumber host (.int i)
    | .bigint n, .double x => ofInt n == toNumber host (.double x)
    | .int i, .bigint n => toNumber host (.int i) == ofInt n
    | .double x, .bigint n => toNumber host (.double x) == ofInt n
    | .bigint n, .string s => ofInt n == host.parseNumber s
    | .string s, .bigint n => host.parseNumber s == ofInt n
    | .int i, .string s => strictDoubleEq (toNumber host (.int i)) (toNumber host (.string s))
    | .double x, .string s => strictDoubleEq (toNumber host (.double x)) (toNumber host (.string s))
    | .string s, .int i => strictDoubleEq (toNumber host (.string s)) (toNumber host (.int i))
    | .string s, .double x => strictDoubleEq (toNumber host (.string s)) (toNumber host (.double x))
    | _, _ => false

/-- `==` on primitives. A boolean that meets another type is replaced by
the integer `0` or `1` and the comparison starts over; since the types
differ, at most one side is a boolean. -/
def abstractEqPrimitives (host : Host) (l r : JsValue) : Bool :=
  match l, r with
  | .bool a, .bool b => strictEquality (.bool a) (.bool b)
  | .bool a, r => looseEqUnboxed host (.int (if a then 1 else 0)) r
  | l, .bool b => looseEqUnboxed host l (.int (if b then 1 else 0))
  | l, r => looseEqUnboxed host l r

/-- The order of a double and a big integer, exact where the double is an
integer of at most 127 bits, approximate otherwise. -/
def doubleCmpBigint (d : Float) (n : Int) : Ordering :=
  let clamp (k : Int) : Int := max (-2 ^ 127) (min (2 ^ 127 - 1) k)
  if d.isNaN then .gt
  else if d.isInf then (if isNegative d then .lt else .gt)
  else
    let t := truncToInt d
    if !(ofInt t == d) || 2 ^ 127 < t.natAbs then
      (d.toModel.compare (ofInt n).toModel).getD .eq
    else compare (clamp t) (clamp n)

def numberCmpBigint (num : JsValue) (n : Int) : Ordering :=
  match num with
  | .int i => compare i.toInt (max (-2 ^ 127) (min (2 ^ 127 - 1) n))
  | .double d => doubleCmpBigint d n
  | _ => .gt

/-- The order of two numbers, undefined when one is not-a-number. -/
def compareNumbers (l r : Float) : Option Bool :=
  if l.isNaN || r.isNaN then none else some (decide (l < r))

/-- `<` on primitives; `none` when the operands cannot be ordered. -/
def relationalCompare (host : Host) (l r : JsValue) : Option Bool :=
  match l, r with
  | .string a, .string b => some (decide (host.units a < host.units b))
  | .bigint a, .bigint b => some (decide (a < b))
  | .bigint a, .int i => some ((numberCmpBigint (.int i) a).swap == .lt)
  | .bigint a, .double x =>
    if x.isNaN then none else some ((numberCmpBigint (.double x) a).swap == .lt)
  | .int i, .bigint b => some (numberCmpBigint (.int i) b == .lt)
  | .double x, .bigint b =>
    if x.isNaN then none else some (numberCmpBigint (.double x) b == .lt)
  | l, r => compareNumbers (toNumber host l) (toNumber host r)

/-- `SameValue` of two numbers: not-a-number equals itself and the zeros
differ. -/
def sameNumber (a b : Float) : Bool :=
  if a.isNaN && b.isNaN then true
  else if a == ofInt 0 && b == ofInt 0 then isNegative a == isNegative b
  else a == b

def sameValue : JsValue → JsValue → Bool
  | .double a, .double b => sameNumber a b
  | .int a, .int b => a == b
  | .int a, .double b => sameNumber (toF64 (.int a)) (toF64 (.double b))
  | .double a, .int b => sameNumber (toF64 (.double a)) (toF64 (.int b))
  | .bool a, .bool b => a == b
  | .null, .null => true
  | .undefined, .undefined => true
  | .string a, .string b => a == b
  | .object a, .object b => a == b
  | .symbol a, .symbol b => a == b
  | .bigint a, .bigint b => a == b
  | _, _ => false

theorem sameNumber_refl (a : Float) : sameNumber a a = true := by
  unfold sameNumber
  split
  · rfl
  · next hnan =>
    split
    · simp
    · simp only [Float.isNaN_eq_decide_eq_nan, Bool.and_self, decide_eq_true_eq] at hnan
      exact Float.beq_self_iff.2 hnan

theorem sameValue_refl (v : JsValue) : sameValue v v = true := by
  cases v with
  | double x => exact sameNumber_refl x
  | undefined => rfl
  | null => rfl
  | bool b => exact beq_self_eq_true b
  | int i => exact beq_self_eq_true i
  | string s => exact beq_self_eq_true s
  | bigint n => exact beq_self_eq_true n
  | symbol id => exact beq_self_eq_true id
  | object id => exact beq_self_eq_true id

end OxideJS
