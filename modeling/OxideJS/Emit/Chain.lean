import OxideJS.Ir.Inst
import OxideJS.Lib.Decimal
import OxideJS.Lib.SmallIntegers

/-!
Folding of `+` chains in the emitter.

`a + b + c` is parsed as `(a + b) + c`. The emitter flattens such a chain
into the list of its operands, and if they are all literals and one of
them is a string it emits the concatenation of their texts as a single
constant. JavaScript adds from the left instead, and concatenates only
from the first string on.

A string literal is its list of UTF-16 units here; the encoding under
which which the constant pool keeps it is without loss. The text of a number
that is not an integer, and the number a string reads as, come from
outside.
-/

namespace OxideJS.Emit

open Binary64

abbrev Units := List UInt16

inductive Literal where
  | string (units : Units)
  | number (x : Float)
  | bigint (n : Nat)
  | boolean (b : Bool)
  | null
  deriving DecidableEq

/-- The expressions a chain is made of; `other` stands for all the rest. -/
inductive Expr where
  | literal (l : Literal)
  | paren (e : Expr)
  | neg (e : Expr)
  | add (l r : Expr)
  | other (id : Nat)
  deriving DecidableEq

/-! ### Texts -/

def ascii (s : String) : Units := s.toList.map fun c => UInt16.ofNat c.toNat

def decimal (n : Int) : Units := ascii (toString n)

/-- The number has no fractional part and lies in the range of an `i32`. -/
def isIntLiteral (x : Float) : Bool :=
  x.isFinite && ofInt (truncToInt x) == x &&
    decide (-2 ^ 31 ≤ truncToInt x) && decide (truncToInt x < 2 ^ 31)

/-- How numbers are written and strings are read as numbers. Integers of up
to fifty-three bits are written in decimal, and the letters `l` and `u`
occur in no number. -/
structure Texts where
  number : Float → Units
  number_int : ∀ x, isIntLiteral x = true → number x = decimal (truncToInt x)
  number_ofInt : ∀ n : Int, n.natAbs < 2 ^ 53 → number (ofInt n) = decimal n
  number_letters : ∀ x, ∀ c ∈ ascii "lu", c ∉ number x
  toNumber : Units → Float

/-! ### The emitter -/

/-- Strip parentheses and minus signs; the flag is the parity of the
latter. -/
def peelNegation : Expr → Expr × Bool
  | .paren e => peelNegation e
  | .neg e => ((peelNegation e).1, !(peelNegation e).2)
  | e => (e, false)

/-- The constant a number, a truth value or `null` stands for. -/
def literalConstant (e : Expr) : Option Constant :=
  match peelNegation e with
  | (.literal (.number x), negated) =>
    if negated && x == ofInt 0 then some (.number (-(ofInt 0)))
    else
      let value := if negated then -x else x
      if isIntLiteral value then some (.int (Int32.ofInt (truncToInt value)))
      else some (.number value)
  | (.literal (.boolean b), false) => some (.boolean b)
  | (.literal .null, false) => some .null
  | _ => none

/-- The text a literal contributes to a chain. -/
def literalUnits (t : Texts) (e : Expr) : Option Units :=
  match peelNegation e with
  | (.literal (.string units), false) => some units
  | (.literal (.number x), negated) =>
    let value := if negated then -x else x
    some (if isIntLiteral value then decimal (truncToInt value) else t.number value)
  | (.literal (.bigint n), negated) => some (decimal (if negated then -n else n))
  | (.literal (.boolean b), false) => some (ascii (if b then "true" else "false"))
  | (.literal .null, false) => some (ascii "null")
  | _ => none

def isStringLiteral : Expr → Bool
  | .paren e => isStringLiteral e
  | .literal (.string _) => true
  | _ => false

/-- The operands of a chain. Only the left side is opened. -/
def collectAddOperands : Expr → List Expr
  | .add l r => collectAddOperands l ++ [r]
  | e => [e]

def foldStringChain (t : Texts) (operands : List Expr) : Option Units :=
  if operands.any isStringLiteral then (operands.mapM (literalUnits t)).map List.flatten else none

/-- A constant that replaces an expression: a number, or the units of a
string. -/
inductive Folded where
  | constant (c : Constant)
  | text (units : Units)

def constToNumber : Constant → Float
  | .int i => ofInt i.toInt
  | .number x => x
  | .boolean b => ofInt (if b then 1 else 0)
  | _ => ofInt 0

/-- Addition of two constants; integers stay integers as long as the sum
fits. -/
def foldAddition (l r : Constant) : Constant :=
  match l, r with
  | .int a, .int b =>
    if -2 ^ 31 ≤ a.toInt + b.toInt ∧ a.toInt + b.toInt < 2 ^ 31 then .int (a + b)
    else .number (ofInt a.toInt + ofInt b.toInt)
  | l, r => .number (constToNumber l + constToNumber r)

/-- The constant `emit_binary_expression` emits for `l + r`, if it folds. -/
def emitAddition (t : Texts) (l r : Expr) : Option Folded :=
  match literalConstant l, literalConstant r with
  | some a, some b => some (.constant (foldAddition a b))
  | _, _ => (foldStringChain t (collectAddOperands l ++ [r])).map .text

/-! ### JavaScript -/

/-- A primitive value. -/
inductive Prim where
  | string (units : Units)
  | number (x : Float)
  | bigint (n : Int)
  | boolean (b : Bool)
  | null
  deriving DecidableEq

namespace Prim

variable (t : Texts)

/-- `ToNumber`, of everything but a big integer. -/
def toNumber : Prim → Float
  | string units => t.toNumber units
  | number x => x
  | bigint _ => ofInt 0
  | boolean b => ofInt (if b then 1 else 0)
  | null => ofInt 0

/-- `ToString`. -/
def text : Prim → Units
  | string units => units
  | number x => t.number x
  | bigint n => decimal n
  | boolean b => ascii (if b then "true" else "false")
  | null => ascii "null"

/-- Unary minus. -/
def negate : Prim → Prim
  | bigint n => bigint (-n)
  | v => number (-(v.toNumber t))

def isString : Prim → Bool
  | string _ => true
  | _ => false

def isBigint : Prim → Bool
  | bigint _ => true
  | _ => false

/-- The operator `+`: a string on either side makes it a concatenation,
big integers are added among themselves, and mixing them with other
numbers throws. -/
def add (l r : Prim) : Option Prim :=
  if l.isString || r.isString then some (string (l.text t ++ r.text t))
  else
    match l, r with
    | bigint a, bigint b => some (bigint (a + b))
    | l, r => if l.isBigint || r.isBigint then none else some (number (l.toNumber t + r.toNumber t))

end Prim

def Literal.value : Literal → Prim
  | .string units => .string units
  | .number x => .number x
  | .bigint n => .bigint n
  | .boolean b => .boolean b
  | .null => .null

/-- The value of an expression, if it is made of literals and does not
throw. -/
def eval (t : Texts) : Expr → Option Prim
  | .literal l => some l.value
  | .paren e => eval t e
  | .neg e => (eval t e).map (·.negate t)
  | .add l r => (eval t l).bind fun a => (eval t r).bind fun b => a.add t b
  | .other _ => none

/-! ### Chains -/

section Chains

variable (t : Texts)

/-- Adding the values of operands to a value, from the left. -/
def sumFrom (a : Prim) : List Expr → Option Prim
  | [] => some a
  | e :: es => ((eval t e).bind (a.add t)).bind (sumFrom · es)

/-- The value of a chain from its operands. -/
def chainValue : List Expr → Option Prim
  | [] => none
  | e :: es => (eval t e).bind (sumFrom t · es)

/-- The text of the value of an operand. -/
def valueUnits (e : Expr) : Option Units := (eval t e).map (·.text t)

/-- The text an operand contributes to a chain is the text of its value. -/
def Reads (e : Expr) : Prop := ∀ u, literalUnits t e = some u → valueUnits t e = some u

/-- The operands in front of the first string. -/
def beforeString (operands : List Expr) : List Expr :=
  operands.takeWhile fun e => !isStringLiteral e

/-- The first string and the operands behind it. -/
def fromString (operands : List Expr) : List Expr :=
  operands.dropWhile fun e => !isStringLiteral e

/-- The text of what the operands in front of the first string add up to;
none if adding them throws. -/
def prefixUnits (operands : List Expr) : Option Units :=
  match beforeString operands with
  | [] => some []
  | e :: es => (chainValue t (e :: es)).map (·.text t)

variable {t}

theorem sumFrom_append (a : Prim) (es es' : List Expr) :
    sumFrom t a (es ++ es') = (sumFrom t a es).bind (sumFrom t · es') := by
  induction es generalizing a with
  | nil => rfl
  | cons e es ih =>
    simp only [List.cons_append, sumFrom, ih, Option.bind_assoc]

theorem chainValue_append {es : List Expr} (hne : es ≠ []) (es' : List Expr) :
    chainValue t (es ++ es') = (chainValue t es).bind (sumFrom t · es') := by
  cases es with
  | nil => exact absurd rfl hne
  | cons e es =>
    simp only [List.cons_append, chainValue, Option.bind_assoc]
    exact congrArg _ (funext fun a => sumFrom_append a es es')

theorem collectAddOperands_ne_nil (e : Expr) : collectAddOperands e ≠ [] := by
  cases e <;> simp [collectAddOperands]

/-- Evaluating a chain is adding up its operands. -/
theorem eval_eq_chainValue (e : Expr) : eval t e = chainValue t (collectAddOperands e) := by
  induction e with
  | add l r ihl _ =>
    rw [collectAddOperands, chainValue_append (collectAddOperands_ne_nil l), ← ihl, eval]
    refine congrArg _ (funext fun a => ?_)
    simp [sumFrom]
  | _ => simp [collectAddOperands, chainValue, sumFrom, eval]

/-! ### Minus signs -/

/-- The number of minus signs in front of an operand. -/
def signs : Expr → Nat
  | .paren e => signs e
  | .neg e => signs e + 1
  | _ => 0

/-- What stands under the parentheses and the minus signs. -/
def core : Expr → Expr
  | .paren e => core e
  | .neg e => core e
  | e => e

theorem peelNegation_eq (e : Expr) : peelNegation e = (core e, decide (signs e % 2 = 1)) := by
  induction e with
  | paren e ih => exact ih
  | neg e ih =>
    have hparity : (!decide (signs e % 2 = 1)) = decide ((signs e + 1) % 2 = 1) := by
      rcases Nat.mod_two_eq_zero_or_one (signs e) with h | h <;> simp [h, Nat.add_mod]
    rw [peelNegation, ih]
    exact Prod.ext rfl hparity
  | _ => rfl

/-- A number under so many minus signs. -/
def signed (k : Nat) (x : Float) : Float := if k % 2 = 1 then -x else x

theorem signed_succ (k : Nat) (x : Float) : signed (k + 1) x = -signed k x := by
  unfold signed
  rcases Nat.mod_two_eq_zero_or_one k with h | h <;> simp [h, Nat.add_mod, neg_neg_float]

/-- A big integer under so many minus signs. -/
def signedInt (k : Nat) (n : Int) : Int := if k % 2 = 1 then -n else n

theorem signedInt_succ (k : Nat) (n : Int) : signedInt (k + 1) n = -signedInt k n := by
  unfold signedInt
  rcases Nat.mod_two_eq_zero_or_one k with h | h <;> simp [h, Nat.add_mod]

/-- The value of a literal under minus signs. Any sign turns what is not a
big integer into a number. -/
def signedValue (t : Texts) (k : Nat) (l : Literal) : Prim :=
  match l with
  | .bigint n => .bigint (signedInt k n)
  | l => if k = 0 then l.value else .number (signed k (l.value.toNumber t))

theorem signedValue_succ (k : Nat) (l : Literal) :
    signedValue t (k + 1) l = (signedValue t k l).negate t := by
  rcases Nat.eq_zero_or_pos k with rfl | hk
  · cases l <;> rfl
  · have hk0 : k ≠ 0 := by omega
    cases l <;> simp [signedValue, hk0, signed_succ, signedInt_succ, Prim.negate, Prim.toNumber]

theorem eval_of_core {e : Expr} {l : Literal} (h : core e = .literal l) :
    eval t e = some (signedValue t (signs e) l) := by
  induction e with
  | literal l' =>
    obtain rfl : l' = l := by simpa [core] using h
    cases l' <;> rfl
  | paren e ih => exact ih h
  | neg e ih => rw [eval, ih h, signs, signedValue_succ]; rfl
  | _ => simp [core] at h

/-- The text of a literal under minus signs, which count for numbers and big
integers only. -/
def spelling (t : Texts) (k : Nat) : Literal → Units
  | .number x => t.number (signed k x)
  | .bigint n => decimal (signedInt k n)
  | l => l.value.text t

/-- The text an operand is written with. -/
def written (t : Texts) (e : Expr) : Units :=
  match core e with
  | .literal l => spelling t (signs e) l
  | _ => []

/-- The operand has a text of its own: a number or a big integer, or
another literal under an even number of minus signs. -/
def Foldable (e : Expr) : Prop :=
  match core e with
  | .literal (.number _) | .literal (.bigint _) => True
  | .literal _ => signs e % 2 = 0
  | _ => False

/-- A chain the emitter writes as one string: all operands have a text, and
one of them is a string. -/
def Folds (operands : List Expr) : Prop :=
  (∃ e ∈ operands, isStringLiteral e = true) ∧ ∀ e ∈ operands, Foldable e

/-- Two or more minus signs turn a string, a truth value or `null` into a
number, which is written otherwise than the literal. -/
def Misread (t : Texts) (e : Expr) : Prop :=
  2 ≤ signs e ∧
    match core e with
    | .literal (.string u) => t.number (t.toNumber u) ≠ u
    | .literal (.boolean _) | .literal .null => True
    | _ => False

/-- A number in a chain is written as its value is. -/
theorem number_text (x : Float) :
    (if isIntLiteral x then decimal (truncToInt x) else t.number x) = t.number x := by
  split
  · exact (t.number_int x ‹_›).symm
  · rfl

theorem foldable_of_literalUnits {e : Expr} {u : Units} (h : literalUnits t e = some u) :
    Foldable e := by
  rw [literalUnits, peelNegation_eq] at h
  unfold Foldable
  rcases hcore : core e with l | _ | _ | _ | _ <;> rw [hcore] at h
  · cases l <;> by_cases hk : signs e % 2 = 1 <;> simp_all
  all_goals simp at h

theorem Foldable.core_eq {e : Expr} (h : Foldable e) : ∃ l, core e = .literal l := by
  unfold Foldable at h
  split at h <;> simp_all

theorem literalUnits_of_foldable {e : Expr} (h : Foldable e) :
    literalUnits t e = some (written t e) := by
  obtain ⟨l, hcore⟩ := h.core_eq
  rw [Foldable, hcore] at h
  rw [literalUnits, peelNegation_eq, written, hcore]
  cases l <;> by_cases hk : signs e % 2 = 1 <;>
    simp_all [number_text, signed, signedInt, spelling, Literal.value, Prim.text]

/-- Everything that is not misread is written as its value is. -/
theorem reads_of_not_misread {e : Expr} (h : ¬Misread t e) : Reads t e := by
  intro u hu
  have hfold := foldable_of_literalUnits hu
  obtain ⟨l, hcore⟩ := hfold.core_eq
  rw [literalUnits_of_foldable hfold, written, hcore, Option.some.injEq] at hu
  rw [valueUnits, eval_of_core hcore, Option.map_some, ← hu]
  rw [Foldable, hcore] at hfold
  rw [Misread, hcore] at h
  cases l with
  | number x =>
    by_cases hk : signs e = 0 <;>
      simp [signedValue, hk, signed, spelling, Literal.value, Prim.text, Prim.toNumber]
  | bigint n => rfl
  | _ =>
    -- an even number of signs: none, or two and more
    by_cases hk : signs e = 0
    · simp [signedValue, hk, spelling]
    · have htwo : 2 ≤ signs e := by omega
      simp_all [signedValue, signed, spelling, Literal.value, Prim.text, Prim.toNumber]

/-! ### From the first string on -/

theorem eval_of_isStringLiteral {e : Expr} (h : isStringLiteral e = true) :
    ∃ u, eval t e = some (.string u) ∧ literalUnits t e = some u := by
  induction e with
  | literal l =>
    cases l with
    | string u => exact ⟨u, rfl, rfl⟩
    | _ => simp [isStringLiteral] at h
  | paren e ih => exact ih h
  | _ => simp [isStringLiteral] at h

theorem add_string (v : Prim) (u : Units) :
    v.add t (.string u) = some (.string (v.text t ++ u)) := by
  simp [Prim.add, Prim.isString, Prim.text]

theorem string_add (u : Units) (v : Prim) :
    (Prim.string u).add t v = some (.string (u ++ v.text t)) := by
  simp [Prim.add, Prim.isString, Prim.text]

/-- A string takes up the texts of all operands behind it. -/
theorem sumFrom_string (u : Units) (es : List Expr) :
    sumFrom t (.string u) es =
      (es.mapM (valueUnits t)).map fun us => .string (u ++ us.flatten) := by
  induction es generalizing u with
  | nil => simp [sumFrom]
  | cons e es ih =>
    rw [sumFrom, List.mapM_cons, valueUnits]
    cases eval t e with
    | none => rfl
    | some v =>
      simp only [Option.bind_some, string_add, ih, Option.map_some, Option.bind_eq_bind]
      cases es.mapM (valueUnits t) <;> simp

theorem beforeString_append_fromString (es : List Expr) :
    beforeString es ++ fromString es = es :=
  List.takeWhile_append_dropWhile

/-- What is left behind the prefix begins with a string. -/
theorem fromString_eq_cons {es : List Expr} (hany : es.any isStringLiteral = true) :
    ∃ e post, fromString es = e :: post ∧ isStringLiteral e = true := by
  cases hdrop : fromString es with
  | nil =>
    obtain ⟨e, he, hs⟩ := List.any_eq_true.1 hany
    have := List.dropWhile_eq_nil_iff.1 hdrop e he
    simp [hs] at this
  | cons e post =>
    refine ⟨e, post, rfl, ?_⟩
    unfold fromString at hdrop
    have := List.head_dropWhile_not (fun e => !isStringLiteral e) (l := es) (by simp [hdrop])
    simpa [hdrop] using this

/-- The value of a chain with a string in it. -/
theorem chainValue_string {es : List Expr} (hany : es.any isStringLiteral = true) :
    chainValue t es = (prefixUnits t es).bind fun p =>
      ((fromString es).mapM (valueUnits t)).map fun us => .string (p ++ us.flatten) := by
  obtain ⟨e, post, hfrom, hstring⟩ := fromString_eq_cons hany
  obtain ⟨w, hw, -⟩ := eval_of_isStringLiteral (t := t) hstring
  have hvalue : valueUnits t e = some w := by rw [valueUnits, hw]; rfl
  have hmap : (fromString es).mapM (valueUnits t) =
      (post.mapM (valueUnits t)).map (w :: ·) := by
    rw [hfrom, List.mapM_cons, hvalue]
    cases post.mapM (valueUnits t) <;> rfl
  have hes := beforeString_append_fromString es
  rw [hfrom] at hes
  simp only [hmap, Option.map_map, prefixUnits]
  cases hpre : beforeString es with
  | nil =>
    rw [hpre, List.nil_append] at hes
    rw [← hes, chainValue, hw, Option.bind_some, sumFrom_string]
    rfl
  | cons b bs =>
    rw [hpre] at hes
    conv_lhs => rw [← hes, chainValue_append (List.cons_ne_nil b bs)]
    dsimp only
    cases chainValue t (b :: bs) with
    | none => rfl
    | some v =>
      rw [Option.bind_some, sumFrom, hw, Option.bind_some, add_string, Option.bind_some,
        sumFrom_string]
      simp [Function.comp_def]

/-! ### What the emitter folds -/

theorem literalConstant_add (l r : Expr) : literalConstant (.add l r) = none := rfl

theorem emitAddition_chain (a b r : Expr) :
    emitAddition t (.add a b) r =
      (foldStringChain t (collectAddOperands (.add (.add a b) r))).map .text := by
  rw [emitAddition, literalConstant_add]
  rfl

theorem mapM_literalUnits {es : List Expr} (h : ∀ e ∈ es, Foldable e) :
    es.mapM (literalUnits t) = some (es.map (written t)) := by
  induction es with
  | nil => rfl
  | cons e es ih =>
    rw [List.mapM_cons, literalUnits_of_foldable (h e List.mem_cons_self),
      ih fun e he => h e (List.mem_cons_of_mem _ he)]
    rfl

theorem foldable_of_mapM {es : List Expr} {us : List Units}
    (h : es.mapM (literalUnits t) = some us) : ∀ e ∈ es, Foldable e := by
  induction es generalizing us with
  | nil => simp
  | cons e es ih =>
    rw [List.mapM_cons] at h
    obtain ⟨w, hw, h⟩ := Option.bind_eq_some_iff.1 h
    obtain ⟨ws, hws, -⟩ := Option.bind_eq_some_iff.1 h
    exact List.forall_mem_cons.2 ⟨foldable_of_literalUnits hw, ih hws⟩

/-- What the emitter makes of a chain, in terms of its operands. -/
theorem foldStringChain_of_folds {es : List Expr} (h : Folds es) :
    foldStringChain t es = some (es.map (written t)).flatten := by
  rw [foldStringChain, if_pos (List.any_eq_true.2 h.1), mapM_literalUnits h.2]
  rfl

theorem foldStringChain_of_not_folds {es : List Expr} (h : ¬Folds es) :
    foldStringChain t es = none := by
  unfold foldStringChain
  split
  · next hany =>
    rw [Option.map_eq_none_iff]
    cases hus : es.mapM (literalUnits t) with
    | none => rfl
    | some us => exact absurd ⟨List.any_eq_true.1 hany, foldable_of_mapM hus⟩ h
  · rfl

/-- The sum of the operands in front of the first string and the values of
the others, written one after the other, are the operands written one
after the other. -/
def SameText (t : Texts) (operands : List Expr) : Prop :=
  ∃ p us, prefixUnits t operands = some p ∧ (fromString operands).mapM (valueUnits t) = some us ∧
    (operands.map (written t)).flatten = p ++ us.flatten

/-- The operands in front of the first string add up, without throwing, to
a value that is written as they are. -/
def PrefixReads (t : Texts) (operands : List Expr) : Prop :=
  prefixUnits t operands = some ((beforeString operands).map (written t)).flatten

theorem valueUnits_of_reads {e : Expr} (hfold : Foldable e) (hreads : Reads t e) :
    valueUnits t e = some (written t e) :=
  hreads _ (literalUnits_of_foldable hfold)

theorem mapM_valueUnits {es : List Expr} (hfold : ∀ e ∈ es, Foldable e)
    (hreads : ∀ e ∈ es, Reads t e) : es.mapM (valueUnits t) = some (es.map (written t)) := by
  induction es with
  | nil => rfl
  | cons e es ih =>
    rw [List.forall_mem_cons] at hfold hreads
    rw [List.mapM_cons, valueUnits_of_reads hfold.1 hreads.1, ih hfold.2 hreads.2]
    rfl

/-- If the operands read as their values, only the prefix can go wrong. -/
theorem sameText_iff_prefixReads {es : List Expr} (hfold : ∀ e ∈ es, Foldable e)
    (hreads : ∀ e ∈ es, Reads t e) : SameText t es ↔ PrefixReads t es := by
  have hvalues : (fromString es).mapM (valueUnits t) = some ((fromString es).map (written t)) :=
    mapM_valueUnits (fun e he => hfold e (List.dropWhile_subset _ he))
      (fun e he => hreads e (List.dropWhile_subset _ he))
  have hsplit : (es.map (written t)).flatten = ((beforeString es).map (written t)).flatten ++
      ((fromString es).map (written t)).flatten := by
    rw [← List.flatten_append, ← List.map_append, beforeString_append_fromString]
  simp only [SameText, PrefixReads, hvalues, hsplit, Option.some.injEq]
  constructor
  · rintro ⟨p, _, hp, rfl, h⟩
    rw [hp, List.append_cancel_right h]
  · intro hp
    exact ⟨_, _, hp, rfl, rfl⟩

/-- A constant is the value of an expression. -/
def Denotes (t : Texts) (e : Expr) : Folded → Prop
  | .text u => eval t e = some (.string u)
  | .constant c => eval t e = some (.number (constToNumber c))

/-- The constant `l + r` is folded to, if it is, is its value. -/
def FoldsRight (t : Texts) (l r : Expr) : Prop :=
  ∀ folded, emitAddition t l r = some folded → Denotes t (.add l r) folded

/-- A folded chain is right if its value is written as its operands are. -/
theorem foldsRight_of_folds {a b r : Expr}
    (hfold : Folds (collectAddOperands (.add (.add a b) r))) :
    FoldsRight t (.add a b) r ↔ SameText t (collectAddOperands (.add (.add a b) r)) := by
  simp only [FoldsRight, emitAddition_chain, foldStringChain_of_folds hfold, Option.map_some,
    Option.some.injEq, forall_eq', Denotes]
  rw [eval_eq_chainValue, chainValue_string (List.any_eq_true.2 hfold.1), SameText]
  constructor
  · intro h
    obtain ⟨p, hp, h⟩ := Option.bind_eq_some_iff.1 h
    obtain ⟨us, hus, h⟩ := Option.map_eq_some_iff.1 h
    exact ⟨p, us, hp, hus, (Prim.string.inj h).symm⟩
  · rintro ⟨p, us, hp, hus, h⟩
    rw [hp, Option.bind_some, hus, Option.map_some, h]

/-! ### What stands in front of the first string -/

/-- Numbers added from the left. -/
def sumOf : List Float → Float
  | [] => ofInt 0
  | x :: xs => xs.foldl (· + ·) x

/-- Integers whose absolute values add up to less than `2 ^ 53`. -/
def Small (xs : List Float) : Prop :=
  ∃ ns : List Int, xs = ns.map ofInt ∧ (ns.map Int.natAbs).sum < 2 ^ 53

/-- The values of the operands are numbers, not all of them small integers,
and their sum is written as they are, one after the other. -/
def NumbersJoin (t : Texts) (es : List Expr) : Prop :=
  ∃ xs : List Float, es.map (eval t) = xs.map (fun x => some (.number x)) ∧ ¬Small xs ∧
    t.number (sumOf xs) = (xs.map t.number).flatten

theorem add_numbers {v w : Prim} (hv : v.isString = false) (hw : w.isString = false)
    (hvn : v.isBigint = false) (hwn : w.isBigint = false) :
    v.add t w = some (.number (v.toNumber t + w.toNumber t)) := by
  cases v <;> cases w <;> simp_all [Prim.add, Prim.isString, Prim.isBigint]

/-- A sum without strings has operands of one kind. -/
theorem isBigint_of_add {v w r : Prim} (hv : v.isString = false) (hw : w.isString = false)
    (h : v.add t w = some r) :
    w.isBigint = v.isBigint ∧ r.isBigint = v.isBigint ∧ r.isString = false := by
  cases v <;> cases w <;> simp_all [Prim.add, Prim.isString, Prim.isBigint] <;> subst h <;> simp

theorem isBigint_of_foldlM {v r : Prim} {vs : List Prim} (hv : v.isString = false)
    (hvs : ∀ w ∈ vs, w.isString = false) (h : vs.foldlM (Prim.add t) v = some r) :
    ∀ w ∈ vs, w.isBigint = v.isBigint := by
  induction vs generalizing v with
  | nil => simp
  | cons w vs ih =>
    rw [List.forall_mem_cons] at hvs
    rw [List.foldlM_cons] at h
    obtain ⟨s, hs, h⟩ := Option.bind_eq_some_iff.1 h
    obtain ⟨hw, hsv, hstring⟩ := isBigint_of_add hv hvs.1 hs
    exact List.forall_mem_cons.2 ⟨hw, fun w' hw' => (ih hstring hvs.2 h w' hw').trans hsv⟩

theorem foldlM_bigints (n : Int) (ns : List Int) :
    (ns.map Prim.bigint).foldlM (Prim.add t) (.bigint n) = some (.bigint (n :: ns).sum) := by
  induction ns generalizing n with
  | nil => simp
  | cons m ns ih =>
    have hadd : (Prim.bigint n).add t (.bigint m) = some (.bigint (n + m)) := by
      simp [Prim.add, Prim.isString]
    rw [List.map_cons, List.foldlM_cons, hadd, Option.bind_eq_bind, Option.bind_some, ih]
    simp [add_assoc]

theorem foldlM_numbers (x : Float) {vs : List Prim} (hstrings : ∀ w ∈ vs, w.isString = false)
    (hbigints : ∀ w ∈ vs, w.isBigint = false) :
    vs.foldlM (Prim.add t) (.number x) =
      some (.number ((vs.map (·.toNumber t)).foldl (· + ·) x)) := by
  induction vs generalizing x with
  | nil => rfl
  | cons w vs ih =>
    rw [List.forall_mem_cons] at hstrings hbigints
    rw [List.foldlM_cons, add_numbers rfl hstrings.1 rfl hbigints.1, Option.bind_eq_bind,
      Option.bind_some, ih _ hstrings.2 hbigints.2]
    rfl

/-- The characters an integer is written with. -/
theorem chars_of_decimal (n : Int) :
    (decimal n).map (fun u => Char.ofNat u.toNat) = Lib.Decimal.chars n := by
  rw [decimal, ascii, List.map_map]
  refine (List.map_congr_left fun c hc => ?_).trans (List.map_id _)
  have hcode := Lib.Decimal.toNat_le_of_mem hc
  rw [Function.comp_apply, UInt16.toNat_ofNat_of_lt' (by simp [UInt16.size]; omega),
    Char.ofNat_toNat, id_eq]

theorem toNat_le_of_mem_decimal {n : Int} {u : UInt16} (h : u ∈ decimal n) : u.toNat ≤ 57 := by
  obtain ⟨c, hc, rfl⟩ := List.mem_map.1 h
  have hcode := Lib.Decimal.toNat_le_of_mem hc
  rw [UInt16.toNat_ofNat_of_lt' (by simp [UInt16.size]; omega)]
  exact hcode

theorem decimal_sum_ne (n m : Int) (ns : List Int) :
    decimal (n :: m :: ns).sum ≠ ((n :: m :: ns).map decimal).flatten := by
  intro h
  refine Lib.Decimal.chars_sum_ne n m ns ?_
  rw [← chars_of_decimal, h, List.map_flatten, List.map_map]
  exact congrArg _ (List.map_congr_left fun k _ => chars_of_decimal k)

theorem foldl_ofInt {n : Int} {ns : List Int}
    (h : n.natAbs + (ns.map Int.natAbs).sum < 2 ^ 53) :
    (ns.map ofInt).foldl (· + ·) (ofInt n) = ofInt (n + ns.sum) := by
  induction ns generalizing n with
  | nil => simp
  | cons m ns ih =>
    simp only [List.map_cons, List.sum_cons] at h
    have hadd : ofInt n + ofInt m = ofInt (n + m) :=
      ofInt_add_ofInt (log2_le_of_lt (by omega)) (log2_le_of_lt (by omega))
        (log2_le_of_lt (by omega))
    rw [List.map_cons, List.foldl_cons, hadd, ih (by omega), List.sum_cons, add_assoc]

theorem natAbs_sum_le (ns : List Int) : ns.sum.natAbs ≤ (ns.map Int.natAbs).sum := by
  induction ns with
  | nil => rfl
  | cons n ns ih =>
    simp only [List.sum_cons, List.map_cons]
    omega

/-- Two or more small integers are never written as their sum. -/
theorem not_small_of_join {xs : List Float} (hlength : 2 ≤ xs.length)
    (h : t.number (sumOf xs) = (xs.map t.number).flatten) : ¬Small xs := by
  rintro ⟨ns, rfl, hsum⟩
  obtain ⟨n, m, ns, rfl⟩ : ∃ n m ms, ns = n :: m :: ms := by
    match ns with
    | [] | [_] => simp at hlength
    | n :: m :: ms => exact ⟨n, m, ms, rfl⟩
  refine decimal_sum_ne n m ns ?_
  have htotal : sumOf ((n :: m :: ns).map ofInt) = ofInt (n :: m :: ns).sum :=
    foldl_ofInt (by simpa using hsum)
  have hbound := natAbs_sum_le (n :: m :: ns)
  rw [← t.number_ofInt _ (by omega), ← htotal, h, List.map_map]
  refine congrArg _ (List.map_congr_left fun k hk => t.number_ofInt k ?_)
  have := List.single_le_sum (fun _ _ => Nat.zero_le _) _ (List.mem_map_of_mem (f := Int.natAbs) hk)
  omega

theorem exists_bigints {vs : List Prim} (h : ∀ v ∈ vs, v.isBigint = true) :
    ∃ ns : List Int, vs = ns.map .bigint := by
  induction vs with
  | nil => exact ⟨[], rfl⟩
  | cons v vs ih =>
    rw [List.forall_mem_cons] at h
    obtain ⟨ns, rfl⟩ := ih h.2
    cases v with
    | bigint n => exact ⟨n :: ns, rfl⟩
    | _ => simp [Prim.isBigint] at h

/-- Truth values and `null` are written with letters no number has. -/
theorem isNumber_of_letters {v : Prim} (hstring : v.isString = false) (hbigint : v.isBigint = false)
    (hletters : ∀ c ∈ ascii "lu", c ∉ v.text t) : ∃ x, v = .number x := by
  cases v with
  | number x => exact ⟨x, rfl⟩
  | boolean b =>
    cases b with
    | false =>
      exact absurd (show (108 : UInt16) ∈ ascii "false" by decide) (hletters 108 (by decide))
    | true =>
      exact absurd (show (117 : UInt16) ∈ ascii "true" by decide) (hletters 117 (by decide))
  | null => exact absurd (show (108 : UInt16) ∈ ascii "null" by decide) (hletters 108 (by decide))
  | _ => simp [Prim.isString, Prim.isBigint] at hstring hbigint

theorem exists_numbers {vs : List Prim} (h : ∀ v ∈ vs, ∃ x, v = Prim.number x) :
    ∃ xs : List Float, vs = xs.map .number := by
  induction vs with
  | nil => exact ⟨[], rfl⟩
  | cons v vs ih =>
    rw [List.forall_mem_cons] at h
    obtain ⟨⟨x, rfl⟩, hvs⟩ := h
    obtain ⟨xs, rfl⟩ := ih hvs
    exact ⟨x :: xs, rfl⟩

/-- Numbers and what is converted to a number add up to a number. -/
theorem foldlM_not_bigint {v w : Prim} {vs : List Prim}
    (hstrings : ∀ u ∈ v :: w :: vs, u.isString = false)
    (hbigints : ∀ u ∈ v :: w :: vs, u.isBigint = false) :
    (w :: vs).foldlM (Prim.add t) v =
      some (.number (sumOf ((v :: w :: vs).map (·.toNumber t)))) := by
  simp only [List.forall_mem_cons] at hstrings hbigints
  rw [List.foldlM_cons, add_numbers hstrings.1 hstrings.2.1 hbigints.1 hbigints.2.1,
    Option.bind_eq_bind, Option.bind_some, foldlM_numbers _ hstrings.2.2 hbigints.2.2]
  rfl

/-- Two or more values without a string among them add up to something
written as they are only if they are numbers. -/
theorem foldlM_reads_iff {v w : Prim} {vs : List Prim}
    (hstrings : ∀ u ∈ v :: w :: vs, u.isString = false) :
    ((w :: vs).foldlM (Prim.add t) v).map (·.text t) =
        some ((v :: w :: vs).map (·.text t)).flatten ↔
      ∃ xs, v :: w :: vs = xs.map .number ∧ t.number (sumOf xs) = (xs.map t.number).flatten := by
  constructor
  · intro h
    obtain ⟨r, hr, htext⟩ := Option.map_eq_some_iff.1 h
    have hkind : ∀ u ∈ v :: w :: vs, u.isBigint = v.isBigint :=
      List.forall_mem_cons.2 ⟨rfl, isBigint_of_foldlM (hstrings v List.mem_cons_self)
        (fun u hu => hstrings u (List.mem_cons_of_mem _ hu)) hr⟩
    by_cases hbig : v.isBigint = true
    · -- big integers would have to be written as their sum
      obtain ⟨ns, hns⟩ := exists_bigints fun u hu => (hkind u hu).trans hbig
      match ns, hns with
      | n :: m :: ns, hns =>
        simp only [List.map_cons, List.cons.injEq] at hns
        obtain ⟨rfl, rfl, rfl⟩ := hns
        rw [← List.map_cons, foldlM_bigints, Option.some.injEq] at hr
        subst hr
        refine absurd htext ?_
        simpa [Prim.text, Function.comp_def] using decimal_sum_ne n m ns
    · rw [Bool.not_eq_true] at hbig
      rw [foldlM_not_bigint hstrings fun u hu => (hkind u hu).trans hbig, Option.some.injEq] at hr
      subst hr
      obtain ⟨xs, hxs⟩ := exists_numbers fun u hu =>
        isNumber_of_letters (t := t) (hstrings u hu) ((hkind u hu).trans hbig) fun c hc hmem =>
          t.number_letters _ c hc (htext ▸ List.mem_flatten.2 ⟨_, List.mem_map_of_mem hu, hmem⟩)
      rw [hxs, List.map_map, List.map_map] at htext
      exact ⟨xs, hxs, by simpa [Prim.text, Prim.toNumber, Function.comp_def] using htext⟩
  · rintro ⟨xs, hxs, hjoin⟩
    have hnumbers : ∀ u ∈ v :: w :: vs, u.isBigint = false := by
      rw [hxs]
      simp [Prim.isBigint]
    rw [foldlM_not_bigint hstrings hnumbers, hxs, List.map_map, List.map_map]
    simpa [Prim.text, Prim.toNumber, Function.comp_def] using hjoin

/-- The value of an operand. -/
def valueOf (t : Texts) (e : Expr) : Prim :=
  match core e with
  | .literal l => signedValue t (signs e) l
  | _ => .null

theorem eval_of_foldable {e : Expr} (h : Foldable e) : eval t e = some (valueOf t e) := by
  obtain ⟨l, hcore⟩ := h.core_eq
  rw [eval_of_core hcore, valueOf, hcore]

theorem sumFrom_of_foldable {es : List Expr} (h : ∀ e ∈ es, Foldable e) (a : Prim) :
    sumFrom t a es = (es.map (valueOf t)).foldlM (Prim.add t) a := by
  induction es generalizing a with
  | nil => rfl
  | cons e es ih =>
    rw [List.forall_mem_cons] at h
    rw [sumFrom, eval_of_foldable h.1, List.map_cons, List.foldlM_cons, Option.bind_some]
    exact congrArg _ (funext fun b => ih h.2 b)

theorem isStringLiteral_of_core {e : Expr} {u : Units} (hsigns : signs e = 0)
    (hcore : core e = .literal (.string u)) : isStringLiteral e = true := by
  induction e with
  | literal l =>
    obtain rfl : l = .string u := by simpa [core] using hcore
    rfl
  | paren e ih => exact ih hsigns hcore
  | neg e _ => simp [signs] at hsigns
  | _ => simp [core] at hcore

/-- Only a string literal has a string for its value. -/
theorem isString_valueOf {e : Expr} (h : isStringLiteral e = false) :
    (valueOf t e).isString = false := by
  unfold valueOf
  split
  · next l hcore =>
    cases l with
    | string u =>
      have hsigns : signs e ≠ 0 := by
        intro hsigns
        rw [isStringLiteral_of_core hsigns hcore] at h
        cases h
      simp [signedValue, hsigns, Prim.isString]
    | bigint n => rfl
    | _ =>
      by_cases hsigns : signs e = 0 <;>
        simp [signedValue, hsigns, Literal.value, Prim.isString]
  · rfl

theorem isStringLiteral_of_mem_beforeString {es : List Expr} {e : Expr}
    (h : e ∈ beforeString es) : isStringLiteral e = false := by
  simpa using List.mem_takeWhile_imp h

theorem chainValue_of_foldable {e : Expr} {es : List Expr} (h : ∀ e' ∈ e :: es, Foldable e') :
    chainValue t (e :: es) = (es.map (valueOf t)).foldlM (Prim.add t) (valueOf t e) := by
  rw [List.forall_mem_cons] at h
  rw [chainValue, eval_of_foldable h.1, Option.bind_some, sumFrom_of_foldable h.2]

theorem written_eq_text {e : Expr} (hfold : Foldable e) (hreads : Reads t e) :
    written t e = (valueOf t e).text t := by
  have hvalue := valueUnits_of_reads hfold hreads
  rw [valueUnits, eval_of_foldable hfold, Option.map_some, Option.some.injEq] at hvalue
  exact hvalue.symm

/-- In front of the first string there may stand one operand, or numbers
that are written as their sum. -/
theorem prefixReads_iff {es : List Expr} (hfold : ∀ e ∈ es, Foldable e)
    (hreads : ∀ e ∈ es, Reads t e) :
    PrefixReads t es ↔ (beforeString es).length ≤ 1 ∨ NumbersJoin t (beforeString es) := by
  have hfold' : ∀ e ∈ beforeString es, Foldable e :=
    fun e he => hfold e (List.takeWhile_subset _ he)
  have hwritten : (beforeString es).map (written t) =
      ((beforeString es).map (valueOf t)).map (·.text t) := by
    rw [List.map_map]
    exact List.map_congr_left fun e he =>
      written_eq_text (hfold' e he) (hreads e (List.takeWhile_subset _ he))
  have hstrings : ∀ v ∈ (beforeString es).map (valueOf t), v.isString = false := by
    simp only [List.forall_mem_map]
    exact fun e he => isString_valueOf (isStringLiteral_of_mem_beforeString he)
  have hevals : (beforeString es).map (eval t) = ((beforeString es).map (valueOf t)).map some := by
    rw [List.map_map]
    exact List.map_congr_left fun e he => eval_of_foldable (hfold' e he)
  simp only [PrefixReads, prefixUnits, NumbersJoin, hwritten, hevals]
  match hpre : beforeString es with
  | [] => simp
  | [e] => simp [chainValue_of_foldable (hpre ▸ hfold')]
  | e :: e' :: rest =>
    rw [hpre] at hfold' hstrings
    have hmany : ¬(e :: e' :: rest).length ≤ 1 := by simp
    simp only [chainValue_of_foldable hfold', or_iff_right hmany]
    refine (foldlM_reads_iff hstrings).trans ⟨?_, ?_⟩
    · rintro ⟨xs, hxs, hjoin⟩
      have hlength : 2 ≤ xs.length := by
        have := congrArg List.length hxs
        simp only [List.length_cons, List.length_map] at this
        omega
      refine ⟨xs, ?_, not_small_of_join hlength hjoin, hjoin⟩
      exact (congrArg (List.map some) hxs).trans List.map_map
    · rintro ⟨xs, hxs, -, hjoin⟩
      rw [← Function.comp_def some Prim.number, ← List.map_map] at hxs
      exact ⟨xs, List.map_injective_iff.2 (Option.some_injective _) hxs, hjoin⟩

/-- A chain of two or more additions is folded rightly exactly if it is not
folded, for want of a string or of a text for some operand, or if there is
at most one operand in front of the first string. Numbers that happen to
be written as their sum may stand there too, but small integers never are.
If an operand is misread, nothing but the texts themselves decides. -/
theorem chain_folds_right_iff (a b r : Expr) :
    FoldsRight t (.add a b) r ↔
      ¬Folds (collectAddOperands (.add (.add a b) r)) ∨
      ((∀ e ∈ collectAddOperands (.add (.add a b) r), ¬Misread t e) ∧
        ((beforeString (collectAddOperands (.add (.add a b) r))).length ≤ 1 ∨
          NumbersJoin t (beforeString (collectAddOperands (.add (.add a b) r))))) ∨
      ((∃ e ∈ collectAddOperands (.add (.add a b) r), Misread t e) ∧
        SameText t (collectAddOperands (.add (.add a b) r))) := by
  by_cases hfold : Folds (collectAddOperands (.add (.add a b) r))
  · rw [foldsRight_of_folds hfold]
    by_cases hmisread : ∃ e ∈ collectAddOperands (.add (.add a b) r), Misread t e
    · have : ¬∀ e ∈ collectAddOperands (.add (.add a b) r), ¬Misread t e := by
        simpa using hmisread
      simp [hfold, hmisread, this]
    · have hnone : ∀ e ∈ collectAddOperands (.add (.add a b) r), ¬Misread t e := by
        simpa using hmisread
      rw [sameText_iff_prefixReads hfold.2 fun e he => reads_of_not_misread (hnone e he),
        prefixReads_iff hfold.2 fun e he => reads_of_not_misread (hnone e he)]
      constructor
      · exact fun h => .inr (.inl ⟨hnone, h⟩)
      · rintro (h | ⟨-, h⟩ | ⟨h, -⟩)
        exacts [absurd hfold h, h, absurd h hmisread]
  · have hnone : emitAddition t (.add a b) r = none := by
      rw [emitAddition_chain, foldStringChain_of_not_folds hfold]
      rfl
    simp [FoldsRight, hnone, hfold]

end Chains

/-! ### A chain folded wrongly -/

/-- Every number is written as an integer. -/
def integerTexts : Texts where
  number x := decimal (truncToInt x)
  number_int _ _ := rfl
  number_ofInt n h := by rw [truncToInt_ofInt (log2_le_of_lt h)]
  number_letters x c hc hmem := by
    have hcode := toNat_le_of_mem_decimal hmem
    have hletter : c = 108 ∨ c = 117 := by simpa [ascii] using hc
    rcases hletter with rfl | rfl <;> revert hcode <;> decide
  toNumber _ := ofInt 0

def letterA : Expr := .literal (.string (ascii "a"))

/-- `1 + 2 + "a"` is folded to `"12a"`, and its value is `"3a"`. -/
theorem number_prefix_is_concatenated :
    emitAddition integerTexts (.add (.literal (.number (ofInt 1))) (.literal (.number (ofInt 2))))
        letterA = some (.text (ascii "12a")) ∧
      eval integerTexts
          (.add (.add (.literal (.number (ofInt 1))) (.literal (.number (ofInt 2)))) letterA) =
        some (.string (ascii "3a")) := by
  refine ⟨?_, ?_⟩
  · rfl
  · rfl

end OxideJS.Emit
