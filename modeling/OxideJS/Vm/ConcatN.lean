import OxideJS.Vm.Operators

/-!
One `CONCAT_N` for a chain of additions.

The emitter flattens `e₀ + e₁ + … ` with three to fourteen operands: it
emits the code of every operand and then one instruction that reads all
their registers. `OxideJS.Emit.Chain` is about the chains it folds to a
constant before that.

The instruction itself is right. `concatFrom_eq` says that on the values
it reads it is the left fold of `ADD`, with the same coercions in the
same order and the same exception, although it changes to a faster way of
building the string in the middle. What differs is when it runs. In the
chain of `ADD`s an operand is converted before the next one but one is
evaluated; in front of `CONCAT_N` all operands have been evaluated. And
its operands are read out of their registers at the end: where an operand
is `++x` or `x += e` with `x` in a register, that register is the
variable itself, and a later operand may have changed it.

Operand code and conversion methods are arbitrary functions on registers
and an abstract world. The log lists operand evaluations and calls of
conversion methods in their order. An exception ends the evaluation here;
what a handler still does after one has been caught is the business of
`OxideJS.Vm.AfterEffect`.
-/

namespace OxideJS.Vm.ConcatN

open JsValue

inductive Event where
  /-- The code of an operand is entered. -/
  | operand (i : Nat)
  /-- The conversion methods of an object are called. -/
  | primitive (object : Nat)
  deriving DecidableEq

structure State (ω : Type) where
  regs : Nat → JsValue
  world : ω
  log : List Event

abbrev Run (ω : Type) := EStateM Thrown (State ω)

/-- An operand after emission: its code, and the register the emitter got
back for its value. -/
structure Operand (ω : Type) where
  reg : Nat
  code : (Nat → JsValue) → ω → ((Nat → JsValue) × ω) × Option Thrown

/-- The code units of the text of a primitive, and the string of given
code units. -/
structure Strings (host : Host) where
  units : JsValue → List UInt16
  intern : List UInt16 → String
  units_intern : ∀ u, units (.string (intern u)) = u
  concat_eq : ∀ l r, host.concat l r = intern (units l ++ units r)

section Instructions

variable {ω : Type} {host : Host} (strings : Strings host)
  (toPrimitive : Nat → ω → ω × Result JsValue)

/-- Run the code of operand `i` and read its register. -/
def evaluate (i : Nat) (o : Operand ω) : Run ω JsValue := fun s =>
  match o.code s.regs s.world with
  | ((regs, world), none) => .ok (regs o.reg) ⟨regs, world, s.log ++ [.operand i]⟩
  | ((regs, world), some e) => .error e ⟨regs, world, s.log ++ [.operand i]⟩

def readReg (r : Nat) : Run ω JsValue := fun s => .ok (s.regs r) s

/-- `coerce_primitive_bounded`: only objects run user code, which has
registers of its own. -/
def coercePrimitive : JsValue → Run ω JsValue
  | .object id => fun s =>
    match toPrimitive id s.world with
    | (world, .ok v) => .ok v { s with world, log := s.log ++ [.primitive id] }
    | (world, .error e) => .error e { s with world, log := s.log ++ [.primitive id] }
  | v => pure v

def lift (r : Result JsValue) : Run ω JsValue := fun s =>
  match r with
  | .ok v => .ok v s
  | .error e => .error e s

/-- `ADD`. -/
def add (host : Host) (l r : JsValue) : Run ω JsValue :=
  match l, r with
  | .int a, .int b => pure (intAdd a b)
  | .double a, .double b => pure (.double (a + b))
  | .bigint a, .bigint b => pure (.bigint (a + b))
  | l, r => do
    let l ← coercePrimitive toPrimitive l
    let r ← coercePrimitive toPrimitive r
    lift (addPrimitives host l r)

/-- The operands that are left once the result is known to be a string. -/
def coerceRest : List Nat → Run ω (List JsValue)
  | [] => pure []
  | r :: rest => do
    let v ← readReg r
    let prim ← coercePrimitive toPrimitive v
    if prim.isSymbol then
      throw (.error ⟨.typeError, "Cannot convert a Symbol value to a string"⟩)
    else do
      let parts ← coerceRest rest
      pure (prim :: parts)

def concatNStrings (lhs rhs : JsValue) (rest : List Nat) : Run ω JsValue := do
  let parts ← coerceRest toPrimitive rest
  pure (.string (strings.intern ((lhs :: rhs :: parts).flatMap strings.units)))

/-- One round of the loop with both operands converted: an error, the
change to string mode, or the next round `goOn`. -/
def addCoerced (lhs rhs : JsValue) (rest : List Nat) (goOn : JsValue → Run ω JsValue) :
    Run ω JsValue :=
  if lhs.isSymbol || rhs.isSymbol then
    throw (.error ⟨.typeError,
      if lhs.isString || rhs.isString then "Cannot convert a Symbol value to a string"
      else symbolNumberMessage⟩)
  else if lhs.isString || rhs.isString then concatNStrings strings toPrimitive lhs rhs rest
  else
    match lhs, rhs with
    | .bigint a, .bigint b => goOn (.bigint (a + b))
    | lhs, rhs =>
      if lhs.isBigint != rhs.isBigint then
        throw (.error ⟨.typeError,
          "Cannot mix BigInt and other types, use explicit conversions"⟩)
      else goOn (.double (toNumber host lhs + toNumber host rhs))

/-- The loop of `dispatch_concat_n` from an accumulator on. -/
def concatFrom (acc : JsValue) : List Nat → Run ω JsValue
  | [] => pure acc
  | r :: rest => do
    let next ← readReg r
    match acc, next with
    | .int a, .int b => concatFrom (intAdd a b) rest
    | .double a, .double b => concatFrom (.double (a + b)) rest
    | .bigint a, .bigint b => concatFrom (.bigint (a + b)) rest
    | acc, next => do
      let lhs ← coercePrimitive toPrimitive acc
      let rhs ← coercePrimitive toPrimitive next
      addCoerced strings toPrimitive lhs rhs rest fun sum => concatFrom sum rest

def dispatchConcatN : List Nat → Run ω JsValue
  | [] => pure .undefined
  | a :: rest => do
    let acc ← readReg a
    concatFrom strings toPrimitive acc rest

/-! ### The two ways to emit a chain -/

def evaluateAll (i : Nat) : List (Operand ω) → Run ω (List JsValue)
  | [] => pure []
  | o :: rest => do
    let v ← evaluate i o
    let vs ← evaluateAll (i + 1) rest
    pure (v :: vs)

/-- Evaluate the next operand and add it, as long as there is one. -/
def addFrom (host : Host) (acc : JsValue) (i : Nat) : List (Operand ω) → Run ω JsValue
  | [] => pure acc
  | o :: rest => do
    let v ← evaluate i o
    let sum ← add toPrimitive host acc v
    addFrom host sum (i + 1) rest

/-- The left-associated sequence of binary `ADD`s. -/
def emitAdds (host : Host) : List (Operand ω) → Run ω JsValue
  | [] => pure .undefined
  | o :: rest => do
    let v ← evaluate 0 o
    addFrom toPrimitive host v 1 rest

def emitConcatN (ops : List (Operand ω)) : Run ω JsValue := do
  let _ ← evaluateAll 0 ops
  dispatchConcatN strings toPrimitive (ops.map Operand.reg)

def maxConcatNOperands : Nat := 14

/-- What the emitter makes of a chain. A longer one is an addition whose
left operand is the chain without its last operand, and so on down to
one of fourteen. -/
def emitSum (ops : List (Operand ω)) : Run ω JsValue :=
  if ops.length < 3 then emitAdds toPrimitive host ops
  else if ops.length ≤ maxConcatNOperands then emitConcatN strings toPrimitive ops
  else do
    let acc ← emitConcatN strings toPrimitive (ops.take maxConcatNOperands)
    addFrom toPrimitive host acc maxConcatNOperands (ops.drop maxConcatNOperands)

end Instructions

/-! ### Runs and their logs -/

section Runs

variable {ω α β : Type}

theorem bind_of_ok {x : Run ω α} {f : α → Run ω β} {s s' : State ω} {a : α}
    (h : x s = .ok a s') : (x >>= f) s = f a s' := by
  simp only [bind, EStateM.bind, h]

theorem bind_of_error {x : Run ω α} {f : α → Run ω β} {s s' : State ω} {e : Thrown}
    (h : x s = .error e s') : (x >>= f) s = .error e s' := by
  simp only [bind, EStateM.bind, h]

/-- The state a run ends in, however it ends. -/
def after : EStateM.Result Thrown (State ω) α → State ω
  | .ok _ s => s
  | .error _ s => s

/-- A run only appends to the log. -/
def Grows (x : Run ω α) : Prop := ∀ s, s.log <+: (after (x s)).log

theorem grows_pure (a : α) : Grows (pure a : Run ω α) := fun _ => List.prefix_rfl

theorem log_bind {x : Run ω α} {f : α → Run ω β} (hf : ∀ a, Grows (f a)) (s : State ω) :
    (after (x s)).log <+: (after ((x >>= f) s)).log := by
  cases h : x s with
  | ok a s' =>
    rw [bind_of_ok h]
    exact hf a s'
  | error e s' =>
    rw [bind_of_error h]
    exact List.prefix_rfl

theorem Grows.bind {x : Run ω α} {f : α → Run ω β} (hx : Grows x) (hf : ∀ a, Grows (f a)) :
    Grows (x >>= f) := fun s => (hx s).trans (log_bind hf s)

end Runs

section Logs

variable {ω : Type} {host : Host} {strings : Strings host}
  {toPrimitive : Nat → ω → ω × Result JsValue}

/-- The code of an operand is entered first of all. -/
theorem log_evaluate (i : Nat) (o : Operand ω) (s : State ω) :
    (after (evaluate i o s)).log = s.log ++ [.operand i] := by
  unfold evaluate
  split <;> rfl

theorem grows_evaluate (i : Nat) (o : Operand ω) : Grows (evaluate i o) := fun s =>
  ⟨_, (log_evaluate i o s).symm⟩

theorem coercePrimitive_object (id : Nat) (s : State ω) :
    after (coercePrimitive toPrimitive (.object id) s) =
      { s with world := (toPrimitive id s.world).1, log := s.log ++ [.primitive id] } := by
  unfold coercePrimitive
  rcases h : toPrimitive id s.world with ⟨world, v | e⟩
  · simp only [h, after]
  · simp only [h, after]

theorem coercePrimitive_of_not_object {v : JsValue} (h : v.isObject = false) :
    coercePrimitive toPrimitive v = pure v := by
  cases v with
  | object id => simp [isObject] at h
  | _ => rfl

theorem log_coercePrimitive_object (id : Nat) (s : State ω) :
    (after (coercePrimitive toPrimitive (.object id) s)).log = s.log ++ [.primitive id] := by
  rw [coercePrimitive_object]

theorem grows_coercePrimitive (v : JsValue) : Grows (coercePrimitive toPrimitive v) := by
  cases v with
  | object id => exact fun s => ⟨_, (log_coercePrimitive_object id s).symm⟩
  | _ => exact grows_pure _

theorem grows_lift (r : Result JsValue) : Grows (lift r : Run ω JsValue) := by
  intro s
  cases r <;> exact List.prefix_rfl

theorem grows_add (l r : JsValue) : Grows (add toPrimitive host l r) := by
  unfold add
  split
  · exact grows_pure _
  · exact grows_pure _
  · exact grows_pure _
  · exact (grows_coercePrimitive _).bind fun l =>
      (grows_coercePrimitive _).bind fun r => grows_lift _

theorem grows_addFrom (acc : JsValue) (i : Nat) (ops : List (Operand ω)) :
    Grows (addFrom toPrimitive host acc i ops) := by
  induction ops generalizing acc i with
  | nil => exact grows_pure acc
  | cons o rest ih =>
    exact (grows_evaluate i o).bind fun v => (grows_add acc v).bind fun sum => ih sum (i + 1)

theorem grows_evaluateAll (i : Nat) (ops : List (Operand ω)) : Grows (evaluateAll i ops) := by
  induction ops generalizing i with
  | nil => exact grows_pure _
  | cons o rest ih =>
    exact (grows_evaluate i o).bind fun v => (ih (i + 1)).bind fun vs => grows_pure _

end Logs

/-! ### The instruction on its values -/

section Values

variable {ω : Type} {host : Host} (strings : Strings host)
  (toPrimitive : Nat → ω → ω × Result JsValue)

/-- The left fold of `ADD` over values. -/
def addValues (host : Host) (acc : JsValue) : List JsValue → Run ω JsValue
  | [] => pure acc
  | v :: vs => do
    let sum ← add toPrimitive host acc v
    addValues host sum vs

theorem regs_coercePrimitive (v : JsValue) (s : State ω) :
    (after (coercePrimitive toPrimitive v s)).regs = s.regs := by
  cases v with
  | object id => rw [coercePrimitive_object]
  | _ => rfl

/-- Appending a primitive to a string. -/
theorem addPrimitives_string (u : List UInt16) (prim : JsValue) :
    addPrimitives host (.string (strings.intern u)) prim =
      if prim.isSymbol then
        .error (.error ⟨.typeError, "Cannot convert a Symbol value to a string"⟩)
      else .ok (.string (strings.intern (u ++ strings.units prim))) := by
  have hsym : (JsValue.string (strings.intern u)).isSymbol = false := rfl
  have hstr : (JsValue.string (strings.intern u)).isString = true := rfl
  simp only [addPrimitives, hsym, hstr, Bool.false_or, Bool.true_or, if_true, raise,
    strings.concat_eq, strings.units_intern]

theorem add_string (w : String) (v : JsValue) :
    add toPrimitive host (.string w) v =
      (coercePrimitive toPrimitive v >>= fun prim =>
        lift (addPrimitives host (.string w) prim)) := by
  cases v <;> rfl

/-- In string mode the rest of the operands is appended to what has been
built, one by one. -/
theorem coerceRest_eq (u : List UInt16) (rest : List Nat) (s : State ω) :
    (do
      let parts ← coerceRest toPrimitive rest
      pure (.string (strings.intern (u ++ parts.flatMap strings.units))) : Run ω JsValue) s =
      addValues toPrimitive host (.string (strings.intern u)) (rest.map s.regs) s := by
  induction rest generalizing u s with
  | nil => simp [coerceRest, addValues]
  | cons r rest ih =>
    have hread : (readReg r : Run ω JsValue) s = .ok (s.regs r) s := rfl
    have hregs := regs_coercePrimitive toPrimitive (s.regs r) s
    simp only [coerceRest, List.map_cons, addValues, add_string, bind_assoc]
    rw [bind_of_ok hread]
    cases hc : coercePrimitive toPrimitive (s.regs r) s with
    | error e s' => rw [bind_of_error hc, bind_of_error hc]
    | ok prim s' =>
      rw [hc] at hregs
      rw [bind_of_ok hc, bind_of_ok hc, addPrimitives_string]
      cases hsym : prim.isSymbol with
      | true => rfl
      | false =>
        have hbuild : ((coerceRest toPrimitive rest >>= fun parts => pure (prim :: parts)) >>=
              fun parts => pure (.string (strings.intern (u ++ parts.flatMap strings.units))) :
              Run ω JsValue) =
            coerceRest toPrimitive rest >>= fun parts =>
              pure (.string (strings.intern
                (u ++ strings.units prim ++ parts.flatMap strings.units))) := by
          simp only [bind_assoc, pure_bind, List.flatMap_cons, List.append_assoc]
        have hrest := ih (u ++ strings.units prim) s'
        rw [show s'.regs = s.regs from hregs, ← hbuild] at hrest
        exact hrest

/-- A round of the loop adds, given that the rounds behind it do. -/
theorem addCoerced_eq (lhs rhs : JsValue) (rest : List Nat) {goOn : JsValue → Run ω JsValue}
    {s : State ω} (hgo : ∀ sum, goOn sum s = addValues toPrimitive host sum (rest.map s.regs) s) :
    addCoerced strings toPrimitive lhs rhs rest goOn s =
      (lift (addPrimitives host lhs rhs) >>= fun sum =>
        addValues toPrimitive host sum (rest.map s.regs)) s := by
  unfold addCoerced addPrimitives
  by_cases hsym : (lhs.isSymbol || rhs.isSymbol) = true
  · rw [if_pos hsym, if_pos hsym]
    rfl
  · rw [if_neg hsym, if_neg hsym]
    by_cases hstr : (lhs.isString || rhs.isString) = true
    · rw [if_pos hstr, if_pos hstr, strings.concat_eq]
      have hrest :=
        coerceRest_eq strings toPrimitive (strings.units lhs ++ strings.units rhs) rest s
      have hbuild : (concatNStrings strings toPrimitive lhs rhs rest : Run ω JsValue) =
          coerceRest toPrimitive rest >>= fun parts =>
            pure (.string (strings.intern
              (strings.units lhs ++ strings.units rhs ++ parts.flatMap strings.units))) := by
        simp only [concatNStrings, List.flatMap_cons, List.append_assoc]
      rw [hbuild]
      exact hrest
    · rw [if_neg hstr, if_neg hstr]
      cases lhs <;> cases rhs <;> first
        | exact hgo _
        | rfl

/-- On the values it reads, the instruction is the left fold of `ADD`. -/
theorem concatFrom_eq (acc : JsValue) (rest : List Nat) (s : State ω) :
    concatFrom strings toPrimitive acc rest s =
      addValues toPrimitive host acc (rest.map s.regs) s := by
  induction rest generalizing acc s with
  | nil => rfl
  | cons r rest ih =>
    have hread : (readReg r : Run ω JsValue) s = .ok (s.regs r) s := rfl
    have hslow : (coercePrimitive toPrimitive acc >>= fun lhs =>
          coercePrimitive toPrimitive (s.regs r) >>= fun rhs =>
            addCoerced strings toPrimitive lhs rhs rest fun sum =>
              concatFrom strings toPrimitive sum rest) s =
        ((coercePrimitive toPrimitive acc >>= fun lhs =>
          coercePrimitive toPrimitive (s.regs r) >>= fun rhs =>
            lift (addPrimitives host lhs rhs)) >>= fun sum =>
              addValues toPrimitive host sum (rest.map s.regs)) s := by
      have hregs := regs_coercePrimitive toPrimitive acc s
      rw [bind_assoc]
      cases hl : coercePrimitive toPrimitive acc s with
      | error e s' => rw [bind_of_error hl, bind_of_error hl]
      | ok lhs s' =>
        have hregs' := regs_coercePrimitive toPrimitive (s.regs r) s'
        rw [hl] at hregs
        rw [bind_of_ok hl, bind_of_ok hl, bind_assoc]
        cases hr : coercePrimitive toPrimitive (s.regs r) s' with
        | error e s'' => rw [bind_of_error hr, bind_of_error hr]
        | ok rhs s'' =>
          rw [hr] at hregs'
          have hsame : s''.regs = s.regs := hregs'.trans hregs
          rw [bind_of_ok hr, bind_of_ok hr, addCoerced_eq strings toPrimitive lhs rhs rest
            fun sum => ih sum s'', hsame]
    simp only [concatFrom, List.map_cons, addValues, add]
    rw [bind_of_ok hread]
    cases acc <;> cases hv : s.regs r <;> first
      | exact ih _ s
      | (rw [hv] at hslow; exact hslow)

theorem dispatchConcatN_eq (a : Nat) (rest : List Nat) (s : State ω) :
    dispatchConcatN strings toPrimitive (a :: rest) s =
      addValues toPrimitive host (s.regs a) (rest.map s.regs) s :=
  concatFrom_eq strings toPrimitive (s.regs a) rest s

theorem grows_addValues (acc : JsValue) (vs : List JsValue) :
    Grows (addValues toPrimitive host acc vs) := by
  induction vs generalizing acc with
  | nil => exact grows_pure acc
  | cons v vs ih => exact (grows_add acc v).bind ih

theorem grows_dispatchConcatN (regs : List Nat) :
    Grows (dispatchConcatN strings toPrimitive regs) := by
  cases regs with
  | nil => exact grows_pure _
  | cons a rest =>
    intro s
    rw [dispatchConcatN_eq]
    exact grows_addValues toPrimitive _ _ s

end Values

/-! ### Evaluating first and adding afterwards -/

section Order

variable {ω : Type} (host : Host) (toPrimitive : Nat → ω → ω × Result JsValue)

/-- The values of the operands in front of the last one whose code is
entered, when the operands are evaluated one after the other. The last one
is the last of the chain, or the first that throws. -/
def before (i : Nat) : List (Operand ω) → State ω → List JsValue
  | [], _ => []
  | [_], _ => []
  | o :: o' :: rest, s =>
    match evaluate i o s with
    | .ok v s' => v :: before (i + 1) (o' :: rest) s'
    | .error _ _ => []

/-- The sum of primitives, which runs no user code. -/
def sumPrimitives (acc : JsValue) : List JsValue → Result JsValue
  | [] => .ok acc
  | v :: vs => do
    let sum ← dispatchAdd host (fun _ => .ok .undefined) acc v
    sumPrimitives sum vs

/-- Adding these values runs no user code and raises no error. -/
structure Plain (acc : JsValue) (vs : List JsValue) : Prop where
  acc_primitive : acc.isObject = false
  primitive : ∀ v ∈ vs, v.isObject = false
  sums : ∃ sum, sumPrimitives host acc vs = .ok sum

/-- Where a third operand is entered, the values of the operands in front
of the last one entered are primitives that can be added. -/
def EntersPlainly (ops : List (Operand ω)) (s : State ω) : Prop :=
  ∀ v vs, before 0 ops s = v :: vs → vs ≠ [] → Plain host v vs

/-- The sum of the values of a whole chain. -/
def addAll (host : Host) : List JsValue → Run ω JsValue
  | [] => pure .undefined
  | v :: vs => addValues toPrimitive host v vs

def outcome : EStateM.Result Thrown (State ω) JsValue → Result JsValue
  | .ok v _ => .ok v
  | .error e _ => .error e

/-- The same value or exception, after the same operand evaluations and
conversions in the same order, and with the same effects. -/
def SameRun (x y : EStateM.Result Thrown (State ω) JsValue) : Prop :=
  outcome x = outcome y ∧ (after x).log = (after y).log ∧ (after x).world = (after y).world

/-- When all operands have been evaluated, the values in their registers
are added like the values they had. -/
def SumsAlike (ops : List (Operand ω)) (s : State ω) : Prop :=
  ∀ vs s', evaluateAll 0 ops s = .ok vs s' →
    SameRun (addAll toPrimitive host (ops.map fun o => s'.regs o.reg) s')
      (addAll toPrimitive host vs s')

/-- No operand has changed the register in which an earlier one left its
value. -/
def Kept (ops : List (Operand ω)) (s : State ω) : Prop :=
  ∀ vs s', evaluateAll 0 ops s = .ok vs s' → vs = ops.map fun o => s'.regs o.reg

variable {host} {toPrimitive}

theorem add_of_primitive {l r : JsValue} (hl : l.isObject = false) (hr : r.isObject = false)
    (s : State ω) :
    add toPrimitive host l r s = lift (dispatchAdd host (fun _ => .ok .undefined) l r) s := by
  cases l <;> cases r <;> first
    | rfl
    | exact Bool.noConfusion hl
    | exact Bool.noConfusion hr

theorem isObject_intAdd (a b : Int32) : (intAdd a b).isObject = false := by
  unfold intAdd
  dsimp only
  split <;> rfl

theorem isObject_addPrimitives {l r sum : JsValue} (h : addPrimitives host l r = .ok sum) :
    sum.isObject = false := by
  unfold addPrimitives at h
  split at h
  · exact absurd h (by simp [raise])
  · split at h
    · obtain rfl := Except.ok.inj h
      rfl
    · split at h
      · obtain rfl := Except.ok.inj h
        rfl
      · split at h
        · exact absurd h (by simp [mixError, raise])
        · obtain rfl := Except.ok.inj h
          rfl

theorem coercePrimitiveBounded_of_not_object {f : Nat → Result JsValue} {v : JsValue}
    (h : v.isObject = false) : coercePrimitiveBounded f v = .ok v := by
  cases v with
  | object id => exact Bool.noConfusion h
  | _ => rfl

/-- A sum of primitives is one. -/
theorem isObject_dispatchAdd {l r sum : JsValue} (hl : l.isObject = false)
    (hr : r.isObject = false)
    (h : dispatchAdd host (fun _ => .ok .undefined) l r = .ok sum) : sum.isObject = false := by
  unfold dispatchAdd at h
  split at h
  · obtain rfl := Except.ok.inj h
    exact isObject_intAdd _ _
  · obtain rfl := Except.ok.inj h
    rfl
  · obtain rfl := Except.ok.inj h
    rfl
  · rw [coercePrimitiveBounded_of_not_object hl, ok_bind,
      coercePrimitiveBounded_of_not_object hr, ok_bind] at h
    exact isObject_addPrimitives h

theorem isObject_eq_true {v : JsValue} (h : v.isObject = true) : ∃ id, v = .object id := by
  cases v with
  | object id => exact ⟨id, rfl⟩
  | _ => exact Bool.noConfusion h

/-- An object among the two operands is converted first of all. -/
theorem log_add_of_object {l r : JsValue} (h : l.isObject = true ∨ r.isObject = true)
    (s : State ω) :
    ∃ id, s.log ++ [.primitive id] <+: (after (add toPrimitive host l r s)).log := by
  have hadd : add toPrimitive host l r = coercePrimitive toPrimitive l >>= fun l =>
      coercePrimitive toPrimitive r >>= fun r => lift (addPrimitives host l r) := by
    cases l <;> cases r <;> first
      | rfl
      | (rcases h with h | h <;> exact Bool.noConfusion h)
  have hgrows : ∀ l r : JsValue, Grows (coercePrimitive toPrimitive r >>= fun r =>
      (lift (addPrimitives host l r) : Run ω JsValue)) :=
    fun l r => (grows_coercePrimitive r).bind fun r => grows_lift _
  rw [hadd]
  cases hl : l.isObject with
  | true =>
    obtain ⟨id, rfl⟩ := isObject_eq_true hl
    refine ⟨id, ?_⟩
    rw [← log_coercePrimitive_object id s]
    exact log_bind (fun l => hgrows l r) s
  | false =>
    obtain ⟨id, rfl⟩ := isObject_eq_true (h.resolve_left (by simp [hl]))
    refine ⟨id, ?_⟩
    rw [coercePrimitive_of_not_object hl, pure_bind, ← log_coercePrimitive_object id s]
    exact log_bind (fun r => grows_lift _) s

theorem log_evaluateAll_rest {o : Operand ω} {rest : List (Operand ω)} {i : Nat} {v : JsValue}
    {s s₁ : State ω} (hv : evaluate i o s = .ok v s₁) :
    (after (evaluateAll (i + 1) rest s₁)).log <+: (after (evaluateAll i (o :: rest) s)).log := by
  rw [evaluateAll, bind_of_ok hv]
  exact log_bind (fun vs => grows_pure (v :: vs)) s₁

/-- The first event of an evaluation is the entry of its first operand. -/
theorem log_evaluateAll_cons (o : Operand ω) (rest : List (Operand ω)) (i : Nat) (s : State ω) :
    s.log ++ [.operand i] <+: (after (evaluateAll i (o :: rest) s)).log := by
  rw [← log_evaluate i o s]
  exact log_bind (fun v => (grows_evaluateAll _ rest).bind fun vs => grows_pure _) s

/-- In front of a further operand, an addition either is one of plain values
or is seen in the log. -/
theorem plain_of_log {rest : List (Operand ω)} {acc : JsValue} {i : Nat} {s : State ω}
    {log : List Event} (hne : before i rest s ≠ [])
    (hlog : (after (addFrom toPrimitive host acc i rest s)).log = log)
    (hall : (after (evaluateAll i rest s)).log <+: log) :
    Plain host acc (before i rest s) := by
  induction rest generalizing acc i s with
  | nil => exact absurd rfl hne
  | cons o rest ih =>
    cases rest with
    | nil => exact absurd rfl hne
    | cons o' rest =>
      cases hv : evaluate i o s with
      | error e s₁ => simp [before, hv] at hne
      | ok v s₁ =>
        have hbefore : before i (o :: o' :: rest) s =
            v :: before (i + 1) (o' :: rest) s₁ := by
          simp only [before, hv]
        have hall' : (after (evaluateAll (i + 1) (o' :: rest) s₁)).log <+: log :=
          (log_evaluateAll_rest hv).trans hall
        -- the event behind those of `o` is the entry of `o'`
        have hnext : s₁.log ++ [.operand (i + 1)] <+: log :=
          (log_evaluateAll_cons o' rest (i + 1) s₁).trans hall'
        rw [addFrom, bind_of_ok hv] at hlog
        by_cases hobj : acc.isObject = true ∨ v.isObject = true
        · have hmore : (after (add toPrimitive host acc v s₁)).log <+: log := by
            rw [← hlog]
            exact log_bind (fun sum => grows_addFrom sum (i + 1) _) s₁
          obtain ⟨id, hid⟩ := log_add_of_object hobj s₁
          have heq := (List.prefix_of_prefix_length_le (hid.trans hmore) hnext
            (by simp)).eq_of_length (by simp)
          simp at heq
        · obtain ⟨ha, hva⟩ := not_or.1 hobj
          simp only [Bool.not_eq_true] at ha hva
          have hadd : add toPrimitive host acc v s₁ =
              lift (dispatchAdd host (fun _ => .ok .undefined) acc v) s₁ :=
            add_of_primitive ha hva s₁
          cases hsum : dispatchAdd host (fun _ => .ok .undefined) acc v with
          | error e =>
            rw [hsum] at hadd
            rw [bind_of_error hadd] at hlog
            have hle := (hlog ▸ hnext).length_le
            simp at hle
          | ok sum =>
            rw [hsum] at hadd
            rw [bind_of_ok hadd] at hlog
            have hsumobj := isObject_dispatchAdd ha hva hsum
            rw [hbefore]
            by_cases hne' : before (i + 1) (o' :: rest) s₁ = []
            · rw [hne']
              exact ⟨ha, by simpa using hva, sum, by simp [sumPrimitives, hsum]⟩
            · have hrest := ih hne' hlog hall'
              refine ⟨ha, ?_, ?_⟩
              · simpa [hva] using hrest.primitive
              · simpa [sumPrimitives, hsum] using hrest.sums

/-- Where the values are plain, adding after every operand and adding at the
end are the same. -/
theorem addFrom_eq {rest : List (Operand ω)} {acc : JsValue} {i : Nat} {s : State ω}
    (h : before i rest s ≠ [] → Plain host acc (before i rest s)) :
    addFrom toPrimitive host acc i rest s =
      (evaluateAll i rest >>= fun vs => addValues toPrimitive host acc vs) s := by
  induction rest generalizing acc i s with
  | nil => rfl
  | cons o rest ih =>
    rw [addFrom, evaluateAll, bind_assoc]
    cases hv : evaluate i o s with
    | error e s₁ => rw [bind_of_error hv, bind_of_error hv]
    | ok v s₁ =>
      rw [bind_of_ok hv, bind_of_ok hv, bind_assoc]
      cases rest with
      | nil => rfl
      | cons o' rest =>
        have hbefore : before i (o :: o' :: rest) s =
            v :: before (i + 1) (o' :: rest) s₁ := by
          simp only [before, hv]
        rw [hbefore] at h
        obtain ⟨ha, hprim, sum, hsum⟩ := h (by simp)
        have hva : v.isObject = false := hprim v List.mem_cons_self
        have hadd : ∀ s : State ω, add toPrimitive host acc v s =
            lift (dispatchAdd host (fun _ => .ok .undefined) acc v) s :=
          fun s => add_of_primitive ha hva s
        cases hd : dispatchAdd host (fun _ => .ok .undefined) acc v with
        | error e => simp [sumPrimitives, hd] at hsum
        | ok sum' =>
          rw [hd] at hadd
          simp only [sumPrimitives, hd, ok_bind] at hsum
          rw [bind_of_ok (hadd s₁), ih fun _ => ⟨isObject_dispatchAdd ha hva hd,
            fun w hw => hprim w (List.mem_cons_of_mem _ hw), sum, hsum⟩]
          cases hvs : evaluateAll (i + 1) (o' :: rest) s₁ with
          | error e s₂ => rw [bind_of_error hvs, bind_of_error hvs]
          | ok vs s₂ =>
            rw [bind_of_ok hvs, bind_of_ok hvs, pure_bind, addValues,
              bind_of_ok (hadd s₂)]

variable (strings : Strings host)

/-- In the log of the flattened chain the operands are entered one right
after the other, so the two logs can only be the same where nothing is
seen of the additions in between. -/
theorem entersPlainly_of_log {ops : List (Operand ω)} {s : State ω}
    (h : (after (emitConcatN strings toPrimitive ops s)).log =
      (after (emitAdds toPrimitive host ops s)).log) : EntersPlainly host ops s := by
  intro v vs hbefore hne
  have hall : (after (evaluateAll 0 ops s)).log <+:
      (after (emitConcatN strings toPrimitive ops s)).log :=
    log_bind (fun _ => grows_dispatchConcatN strings toPrimitive _) s
  cases ops with
  | nil => simp [before] at hbefore
  | cons o rest =>
    cases hv : evaluate 0 o s with
    | error e s₁ => cases rest <;> simp [before, hv] at hbefore
    | ok v' s₁ =>
      cases rest with
      | nil => simp [before] at hbefore
      | cons o' rest =>
        simp only [before, hv, List.cons.injEq] at hbefore
        obtain ⟨rfl, rfl⟩ := hbefore
        rw [emitAdds, bind_of_ok hv] at h
        exact plain_of_log hne h.symm ((log_evaluateAll_rest hv).trans hall)

/-- A chain whose operands are plain can be added at the end. -/
theorem emitAdds_eq {ops : List (Operand ω)} {s : State ω} (hplain : EntersPlainly host ops s) :
    emitAdds toPrimitive host ops s = (evaluateAll 0 ops >>= addAll toPrimitive host) s := by
  cases ops with
  | nil => rfl
  | cons o rest =>
    rw [emitAdds, evaluateAll, bind_assoc]
    cases hv : evaluate 0 o s with
    | error e s₁ => rw [bind_of_error hv, bind_of_error hv]
    | ok v s₁ =>
      rw [bind_of_ok hv, bind_of_ok hv, addFrom_eq, bind_assoc]
      · simp only [pure_bind, addAll]
      · intro hne
        cases rest with
        | nil => exact absurd rfl hne
        | cons o' rest => exact hplain v _ (by simp only [before, hv]) hne

theorem dispatchConcatN_regs (ops : List (Operand ω)) (s : State ω) :
    dispatchConcatN strings toPrimitive (ops.map Operand.reg) s =
      addAll toPrimitive host (ops.map fun o => s.regs o.reg) s := by
  cases ops with
  | nil => rfl
  | cons o rest =>
    rw [List.map_cons, dispatchConcatN_eq, List.map_map]
    rfl

/-- Registers that are left alone are added like the operands' values. -/
theorem sumsAlike_of_kept {ops : List (Operand ω)} {s : State ω} (h : Kept ops s) :
    SumsAlike host toPrimitive ops s := by
  intro vs s' hvs
  rw [← h vs s' hvs]
  exact ⟨rfl, rfl, rfl⟩

/-- A chain of three to fourteen operands, compiled to one `CONCAT_N`, runs
like the left-associated sequence of `ADD`s exactly when its operands are
plain and their registers still add up to the same; where no operand
changes the register of another, when its operands are plain. -/
theorem emitSum_sameRun_iff {ops : List (Operand ω)} (hlo : 3 ≤ ops.length)
    (hhi : ops.length ≤ 14) (s : State ω) :
    (SameRun (emitSum strings toPrimitive ops s) (emitAdds toPrimitive host ops s) ↔
      EntersPlainly host ops s ∧ SumsAlike host toPrimitive ops s) ∧
    (Kept ops s →
      (SameRun (emitSum strings toPrimitive ops s) (emitAdds toPrimitive host ops s) ↔
        EntersPlainly host ops s)) := by
  have hemit : emitSum strings toPrimitive ops = emitConcatN strings toPrimitive ops := by
    rw [emitSum, if_neg (by omega), if_pos (show ops.length ≤ maxConcatNOperands from hhi)]
  rw [hemit]
  -- the two differ only in the values they add once everything is evaluated
  have hsum : EntersPlainly host ops s →
      (SameRun (emitConcatN strings toPrimitive ops s) (emitAdds toPrimitive host ops s) ↔
        SumsAlike host toPrimitive ops s) := by
    intro hplain
    rw [emitAdds_eq hplain, emitConcatN]
    cases hvs : evaluateAll 0 ops s with
    | error e s₁ =>
      rw [bind_of_error hvs, bind_of_error hvs]
      exact ⟨fun _ vs s' h => by simp [hvs] at h, fun _ => ⟨rfl, rfl, rfl⟩⟩
    | ok vs s₁ =>
      rw [bind_of_ok hvs, bind_of_ok hvs, dispatchConcatN_regs]
      constructor
      · intro h vs' s' hvs'
        rw [hvs] at hvs'
        obtain ⟨rfl, rfl⟩ := EStateM.Result.ok.inj hvs'
        exact h
      · exact fun h => h vs s₁ hvs
  have hiff : SameRun (emitConcatN strings toPrimitive ops s) (emitAdds toPrimitive host ops s) ↔
      EntersPlainly host ops s ∧ SumsAlike host toPrimitive ops s := by
    constructor
    · intro h
      have hplain := entersPlainly_of_log strings h.2.1
      exact ⟨hplain, (hsum hplain).1 h⟩
    · rintro ⟨hplain, halike⟩
      exact (hsum hplain).2 halike
  exact ⟨hiff, fun hkept => hiff.trans (and_iff_left (sumsAlike_of_kept hkept))⟩

end Order

/-! ### Two chains of three operands -/

section Chains

/-- Strings are interned with each code unit moved out of the range of the
surrogates. -/
def internUnits (u : List UInt16) : String :=
  String.ofList (u.map fun c => Char.ofNat (c.toNat + 0x10000))

def textUnits : JsValue → List UInt16
  | .string s => s.toList.map fun c => UInt16.ofNat (c.toNat - 0x10000)
  | .int i => (toString i.toInt).toList.map fun c => UInt16.ofNat c.toNat
  | _ => []

def unitHost : Host where
  parseNumber _ := Float.nan
  units s := (textUnits (.string s)).map UInt16.toNat
  concat l r := internUnits (textUnits l ++ textUnits r)
  isHtmlDda _ := false
  isFunction _ := false

theorem textUnits_internUnits (u : List UInt16) : textUnits (.string (internUnits u)) = u := by
  simp only [textUnits, internUnits, String.toList_ofList, List.map_map]
  refine (List.map_congr_left fun c _ => ?_).trans (List.map_id u)
  have hc := c.toNat_lt
  have hvalid : (c.toNat + 0x10000).isValidChar := Or.inr ⟨by omega, by omega⟩
  simp [Char.toNat_ofNat, hvalid]

def unitStrings : Strings unitHost where
  units := textUnits
  intern := internUnits
  units_intern := textUnits_internUnits
  concat_eq _ _ := rfl

/-- An operand that puts a value into a register of its own and leaves a
trace in the world. -/
def tracing (r : Nat) (v : JsValue) (trace : List String) : Operand (List String) where
  reg := r
  code regs world := ((Function.update regs r v, world ++ trace), none)

def increment : JsValue → JsValue
  | .int i => intAdd i 1
  | v => v

/-- `++x` with `x` in a register. -/
def preIncrement (x : Nat) : Operand (List String) where
  reg := x
  code regs world := ((Function.update regs x (increment (regs x)), world), none)

/-- `o + 1 + f()`, where `o.valueOf` and `f` leave a trace each. -/
def convertedFirst : List (Operand (List String)) :=
  [tracing 0 (.object 7) [], tracing 1 (.int 1) [], tracing 2 (.int 2) ["f"]]

/-- `++x + 1 + ++x`. -/
def sharedRegister : List (Operand (List String)) :=
  [preIncrement 5, tracing 1 (.int 1) [], preIncrement 5]

def tracingValueOf (_ : Nat) (world : List String) : List String × Result JsValue :=
  (world ++ ["valueOf"], .ok (.int 10))

def allZero : State (List String) := ⟨fun _ => .int 0, [], []⟩

theorem emitSum_sameRun_iff_convertedFirst :
    3 ≤ convertedFirst.length ∧ convertedFirst.length ≤ 14 ∧ Kept convertedFirst allZero ∧
      (SameRun (emitSum unitStrings tracingValueOf convertedFirst allZero)
          (emitAdds tracingValueOf unitHost convertedFirst allZero) ↔
        EntersPlainly unitHost convertedFirst allZero) := by
  have hkept : Kept convertedFirst allZero := by
    rintro vs s' hvs
    obtain ⟨rfl, rfl⟩ := EStateM.Result.ok.inj hvs
    rfl
  exact ⟨by decide, by decide, hkept,
    (emitSum_sameRun_iff unitStrings (by decide) (by decide) allZero).2 hkept⟩

/-- In the first chain `f` runs before `o.valueOf`; the second one yields
`5` in place of `4`. -/
theorem flattened_chains_differ :
    ¬SameRun (emitSum unitStrings tracingValueOf convertedFirst allZero)
        (emitAdds tracingValueOf unitHost convertedFirst allZero) ∧
      ¬SameRun (emitSum unitStrings tracingValueOf sharedRegister allZero)
        (emitAdds tracingValueOf unitHost sharedRegister allZero) := by
  constructor
  · intro h
    have hconcat : (after (emitSum unitStrings tracingValueOf convertedFirst allZero)).world =
        ["f", "valueOf"] := rfl
    have hadds : (after (emitAdds tracingValueOf unitHost convertedFirst allZero)).world =
        ["valueOf", "f"] := rfl
    exact absurd (hconcat.symm.trans (h.2.2.trans hadds)) (by decide)
  · intro h
    have hconcat : outcome (emitSum unitStrings tracingValueOf sharedRegister allZero) =
        .ok (.int 5) := rfl
    have hadds : outcome (emitAdds tracingValueOf unitHost sharedRegister allZero) =
        .ok (.int 4) := rfl
    exact absurd (hconcat.symm.trans (h.1.trans hadds)) (by simp)

end Chains

end OxideJS.Vm.ConcatN
