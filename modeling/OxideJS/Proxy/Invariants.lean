import Mathlib.Data.List.Nodup

/-!
The checks a proxy makes on the answers of its traps.

The target is an ordinary object. A trap is any function of the target: it
may change it before it answers. The engine then compares the answer with
the target, and the specification says for each operation which answers are
to be refused. Two things the engine reads before the trap runs: the fields
that are missing from a descriptor to define, and the keys of the target.

Values are taken up to `SameValue`.
-/

namespace OxideJS.Proxy

variable {K V : Type} [DecidableEq K] [DecidableEq V]

/-! ### Objects -/

inductive Slot (V : Type) where
  | data (value : V) (writable : Bool)
  | accessor (get set : V)
  deriving DecidableEq

structure Property (V : Type) where
  slot : Slot V
  enumerable : Bool
  configurable : Bool
  deriving DecidableEq

/-- An ordinary object. The position of a property in the list is its
position in the storage. -/
structure Target (K V : Type) where
  props : List (K × Property V)
  extensible : Bool
  deriving DecidableEq

def Target.own (t : Target K V) (key : K) : Option (Property V) := t.props.lookup key

/-- The fields of a descriptor that are there. -/
structure Fields (V : Type) where
  value : Option V
  get : Option V
  set : Option V
  writable : Option Bool
  enumerable : Option Bool
  configurable : Option Bool
  deriving DecidableEq

namespace Fields

def isAccessor (f : Fields V) : Bool := f.get.isSome || f.set.isSome

def isData (f : Fields V) : Bool := f.value.isSome || f.writable.isSome

/-- No descriptor has fields of both kinds. -/
def isMixed (f : Fields V) : Bool := f.isData && f.isAccessor

end Fields

variable (undef : V)

/-! ### The checks -/

/-- A message written on two lines. -/
def message (front back : String) : String := front ++ back

/-- The attribute a property of either kind has in the storage. -/
def Property.writable (p : Property V) : Bool :=
  match p.slot with
  | .data _ w => w
  | .accessor _ _ => false

def proxySetInvariantCheck (t : Target K V) (key : K) (val : V) : Option String :=
  match t.own key with
  | none => none
  | some p =>
    if p.configurable then none
    else
      match p.slot with
      | .accessor _ set =>
        if set = undef then
          some "Proxy set trap reported true for a non-configurable target accessor without setter"
        else none
      | .data v writable =>
        if !writable && v ≠ val then
          some "Proxy set trap reported true for a non-writable target property"
        else none

def proxyGetInvariantCheck (t : Target K V) (key : K) (trapResult : V) : Option String :=
  match t.own key with
  | none => none
  | some p =>
    if p.configurable then none
    else
      match p.slot with
      | .accessor get _ =>
        if get = undef ∧ trapResult ≠ undef then
          some (message "Proxy get trap returned a value for a non-configurable target accessor "
            "without getter")
        else none
      | .data v writable =>
        if !writable && v ≠ trapResult then
          some "Proxy get trap returned a different value for a non-writable target property"
        else none

/-- The comparison of a complete descriptor with a property that is not
configurable. -/
def defineCompatCheck (cur desc : Property V) : Option String :=
  let fail := "Proxy defineProperty trap reported true for a non-configurable target property"
  let readOnly := "Proxy defineProperty trap reported true for a non-writable target property"
  if desc.configurable then some fail
  else if cur.enumerable ≠ desc.enumerable then some fail
  else
    match cur.slot, desc.slot with
    | .data v w, .data v' w' =>
      if !w && w' then some readOnly else if v ≠ v' then some readOnly else none
    | .accessor g s, .accessor g' s' =>
      if g ≠ g' then some fail else if s ≠ s' then some fail else none
    | _, _ => some fail

/-- The check of a definition, against the own property of the target and
whether this is extensible. -/
def proxyDefineInvariantCheck (extensible : Bool) (current : Option (Property V))
    (desc : Property V) : Option String :=
  match current with
  | none =>
    if !extensible then
      some "Proxy defineProperty trap reported true for a non-extensible target"
    else if !desc.configurable then
      some (message "Proxy defineProperty trap reported true for a non-configurable descriptor on "
        "a missing target property")
    else none
  | some cur =>
    match if cur.configurable then none else defineCompatCheck cur desc with
    | some message => some message
    | none =>
      if !desc.configurable && cur.configurable then
        some "Proxy defineProperty trap reported true for a configurable target property"
      else
        match cur.slot, desc.slot with
        | .data _ true, .data _ false =>
          if cur.configurable then none
          else
            some (message "Proxy defineProperty trap reported true for a non-configurable writable "
              "target property")
        | _, _ => none

/-- Fill in the fields that are missing. Of a new property they are false,
of one that exists they stay. -/
def completeDescriptor (existing : Option (Property V)) (f : Fields V) : Property V :=
  let enumerable := f.enumerable.getD ((existing.map (·.enumerable)).getD false)
  let configurable := f.configurable.getD ((existing.map (·.configurable)).getD false)
  if f.isAccessor then
    let (g, s) := match existing with
      | some ⟨.accessor g s, _, _⟩ => (g, s)
      | _ => (undef, undef)
    ⟨.accessor (f.get.getD g) (f.set.getD s), enumerable, configurable⟩
  else if f.isData then
    let v := match existing with
      | some ⟨.data v _, _, _⟩ => v
      | _ => undef
    let w := (existing.map Property.writable).getD false
    ⟨.data (f.value.getD v) (f.writable.getD w), enumerable, configurable⟩
  else
    match existing with
    | none => ⟨.data undef false, enumerable, configurable⟩
    | some p => ⟨p.slot, enumerable, configurable⟩

/-- The result of a trap that is to give a descriptor. -/
inductive DescReply (V : Type) where
  | undefined
  | nonObject
  | object (fields : Fields V)

/-- The cross check of a descriptor with a property that is not
configurable. Fields that are missing are not checked. -/
def gopdCompatCheck (td : Property V) (r : Fields V) : Option String :=
  if r.configurable = some true then
    some (message "getOwnPropertyDescriptor trap reported a configurable descriptor for a "
      "non-configurable target property")
  else if r.enumerable = some (!td.enumerable) then
    some (message "getOwnPropertyDescriptor trap reported a different enumerable flag for a "
      "non-configurable target property")
  else
    match td.slot with
    | .accessor g s =>
      if r.get ≠ some g then
        some (message "getOwnPropertyDescriptor trap reported a different getter for a "
          "non-configurable target accessor")
      else if r.set ≠ some s then
        some (message "getOwnPropertyDescriptor trap reported a different setter for a "
          "non-configurable target accessor")
      else none
    | .data v w =>
      if r.get.isSome then
        some (message "getOwnPropertyDescriptor trap reported a getter for a non-configurable "
          "target data property")
      else if r.set.isSome then
        some (message "getOwnPropertyDescriptor trap reported a setter for a non-configurable "
          "target data property")
      else if w then none
      else if r.writable = some true then
        some (message "getOwnPropertyDescriptor trap reported a writable descriptor for a "
          "non-writable target property")
      else if r.value.isSome ∧ r.value ≠ some v then
        some (message "getOwnPropertyDescriptor trap reported a different value for a non-writable "
          "target property")
      else none

def proxyGopdInvariantCheck (t : Target K V) (key : K) (r : Fields V) : Option String :=
  let compat := match t.own key with
    | none =>
      if t.extensible then none
      else
        some (message "getOwnPropertyDescriptor trap reported a property that does not exist on a "
          "non-extensible target")
    | some td => if td.configurable then none else gopdCompatCheck td r
  match compat with
  | some message => some message
  | none =>
    if r.configurable.getD false then none
    else
      match t.own key with
      | none =>
        some (message "getOwnPropertyDescriptor trap reported a non-configurable descriptor for a "
          "property that does not exist on the target")
      | some td =>
        if td.configurable then
          some (message "getOwnPropertyDescriptor trap reported a non-configurable descriptor for "
            "a configurable target property")
        else if r.writable = some false ∧ td.writable then
          some (message "getOwnPropertyDescriptor trap reported a non-writable descriptor for a "
            "writable target property")
        else none

def gopdCheck (t : Target K V) (key : K) : DescReply V → Option String
  | .undefined =>
    match t.own key with
    | some ⟨_, _, false⟩ =>
      some "getOwnPropertyDescriptor trap returned undefined for a non-configurable target property"
    | _ =>
      if t.extensible then none
      else some "getOwnPropertyDescriptor trap returned undefined for a non-extensible target"
  | .nonObject => some "getOwnPropertyDescriptor trap returned a non-object"
  | .object f => proxyGopdInvariantCheck t key f

/-- An element of the list of keys a trap gives. -/
inductive KeyElement (K : Type) where
  | hole
  | other
  | key (k : K)
  deriving DecidableEq

inductive KeysReply (K : Type) where
  | nonObject
  | elements (es : List (KeyElement K))

/-- Read the list of keys. Holes are passed over. -/
def trapKeys : List (KeyElement K) → List K → Except String (List K)
  | [], keys => .ok keys
  | .hole :: es, keys => trapKeys es keys
  | .other :: _, _ => .error "Proxy ownKeys trap returned a key that is not a string or symbol"
  | .key k :: es, keys =>
    if k ∈ keys then .error "Proxy ownKeys trap returned duplicate entries"
    else trapKeys es (keys ++ [k])

/-- The check of a list of keys. The keys of the target and their positions
were read before the trap ran, the attributes at these positions and the
extensibility are read afterwards. -/
def ownKeysCheck (before after : Target K V) : KeysReply K → Option String
  | .nonObject => some "Proxy ownKeys trap returned a non-object"
  | .elements es =>
    match trapKeys es [] with
    | .error message => some message
    | .ok keys =>
      let targetKeys := before.props.map (·.1)
      let isFixed := fun i => (after.props[i]?.map fun p => !p.2.configurable).getD false
      let fixed := (targetKeys.zipIdx.filter fun k => isFixed k.2).map (·.1)
      let others := (targetKeys.zipIdx.filter fun k => !isFixed k.2).map (·.1)
      if !fixed.all (· ∈ keys) then
        some "Proxy ownKeys trap omitted a non-configurable target key"
      else if after.extensible then none
      else if !others.all (· ∈ keys) then
        some "Proxy ownKeys trap omitted a key of a non-extensible target"
      else if !keys.all (· ∈ targetKeys) then
        some "Proxy ownKeys trap returned a key not present on a non-extensible target"
      else none

/-! ### Operations -/

inductive Request (K V : Type) where
  | get (key : K)
  | set (key : K) (value : V)
  | defineProperty (key : K) (desc : Fields V)
  | getOwnPropertyDescriptor (key : K)
  | ownKeys

/-- What the trap of an operation answers. -/
@[reducible]
def Reply (K V : Type) : Request K V → Type
  | .get _ => V
  | .set _ _ => Bool
  | .defineProperty _ _ => Bool
  | .getOwnPropertyDescriptor _ => DescReply V
  | .ownKeys => KeysReply K

/-- A trap changes the target, and throws or answers. -/
abbrev Trap (req : Request K V) := Target K V → Target K V × Except V (Reply K V req)

inductive Result (V A : Type) where
  | typeError (message : String)
  | threw (error : V)
  | answer (a : A)

/-- What is refused before the trap is called. -/
def refused : Request K V → Option String
  | .defineProperty _ f =>
    if f.isMixed then
      some "Invalid property descriptor: cannot mix data and accessor fields"
    else none
  | .get _ | .set _ _ | .getOwnPropertyDescriptor _ | .ownKeys => none

/-- The check after the trap. An answer of false is passed on. -/
def check : (req : Request K V) → Target K V → Target K V → Reply K V req → Option String
  | .get key, _, after, v => proxyGetInvariantCheck undef after key v
  | .set key val, _, after, ok => if ok then proxySetInvariantCheck undef after key val else none
  | .defineProperty key f, before, after, ok =>
    if ok then
      proxyDefineInvariantCheck after.extensible (after.own key)
        (completeDescriptor undef (before.own key) f)
    else none
  | .getOwnPropertyDescriptor key, _, after, reply => gopdCheck after key reply
  | .ownKeys, before, after, reply => ownKeysCheck before after reply

/-- What is passed on of an answer. -/
def passOn : (req : Request K V) → Reply K V req → Reply K V req
  | .ownKeys, .elements es => KeysReply.elements (es.filter (· ≠ .hole))
  | .ownKeys, .nonObject => KeysReply.nonObject
  | .get _, v => v
  | .set _ _, ok => ok
  | .defineProperty _ _, ok => ok
  | .getOwnPropertyDescriptor _, reply => reply

def perform (req : Request K V) (trap : Trap req) (t : Target K V) :
    Result V (Reply K V req) × Target K V :=
  match refused req with
  | some message => (.typeError message, t)
  | none =>
    match trap t with
    | (after, .error e) => (.threw e, after)
    | (after, .ok a) =>
      match check undef req t after a with
      | some message => (.typeError message, after)
      | none => (.answer (passOn req a), after)

/-! ### The specification -/

/-- A descriptor that could be defined where `current` is. -/
def Compatible (extensible : Bool) (current : Option (Property V)) (f : Fields V) : Prop :=
  match current with
  | none => extensible = true
  | some cur => cur.configurable = false →
      f.configurable ≠ some true ∧ f.enumerable ≠ some (!cur.enumerable) ∧
      match cur.slot with
      | .accessor g s => f.isData = false ∧ (∀ x, f.get = some x → x = g) ∧
          ∀ x, f.set = some x → x = s
      | .data v w => f.isAccessor = false ∧
          (w = false → f.writable ≠ some true ∧ ∀ x, f.value = some x → x = v)

/-- A descriptor with every field of its kind. -/
def Fields.complete (f : Fields V) : Fields V :=
  let enumerable := some (f.enumerable.getD false)
  let configurable := some (f.configurable.getD false)
  if f.isAccessor then
    ⟨f.value, some (f.get.getD undef), some (f.set.getD undef), f.writable, enumerable,
      configurable⟩
  else
    ⟨some (f.value.getD undef), none, none, some (f.writable.getD false), enumerable, configurable⟩

def DefineViolated (extensible : Bool) (current : Option (Property V)) (f : Fields V) : Prop :=
  ¬ Compatible extensible current f ∨
    (f.configurable = some false ∧ ∀ cur, current = some cur → cur.configurable = true) ∨
    (f.writable = some false ∧ ∃ v e, current = some ⟨.data v true, e, false⟩)

/-- The answers the specification refuses, for the target as the trap has
left it. -/
def Violated : (req : Request K V) → Target K V → Reply K V req → Prop
  | .get key, t, v => ∃ p, t.own key = some p ∧ p.configurable = false ∧
      match p.slot with
      | .data v' w => w = false ∧ v' ≠ v
      | .accessor g _ => g = undef ∧ v ≠ undef
  | .set key val, t, ok => ok = true ∧ ∃ p, t.own key = some p ∧ p.configurable = false ∧
      match p.slot with
      | .data v w => w = false ∧ v ≠ val
      | .accessor _ s => s = undef
  | .defineProperty key f, t, ok => ok = true ∧ DefineViolated t.extensible (t.own key) f
  | .getOwnPropertyDescriptor _, _, .nonObject => True
  | .getOwnPropertyDescriptor key, t, .undefined =>
      ∃ p, t.own key = some p ∧ (p.configurable = false ∨ t.extensible = false)
  | .getOwnPropertyDescriptor key, t, .object f =>
      f.isMixed = true ∨ ¬ Compatible t.extensible (t.own key) (f.complete undef) ∨
        ((f.complete undef).configurable = some false ∧
          ((∀ p, t.own key = some p → p.configurable = true) ∨
            ((f.complete undef).writable = some false ∧
              ∃ v e c, t.own key = some ⟨.data v true, e, c⟩)))
  | .ownKeys, _, .nonObject => True
  | .ownKeys, t, .elements es =>
      (∃ e ∈ es, ∀ k, e ≠ .key k) ∨ ¬ es.Nodup ∨
        (∃ k p, (k, p) ∈ t.props ∧ p.configurable = false ∧ .key k ∉ es) ∨
        (t.extensible = false ∧ ((∃ k p, (k, p) ∈ t.props ∧ .key k ∉ es) ∨
          ∃ k, .key k ∈ es ∧ ∀ p, (k, p) ∉ t.props))

/-! ### Where the engine agrees with the specification -/

namespace Slot

def value : Slot V → V
  | data v _ => v
  | accessor _ _ => undef

def getter : Slot V → V
  | data _ _ => undef
  | accessor g _ => g

def setter : Slot V → V
  | data _ _ => undef
  | accessor _ s => s

end Slot

/-- The property of the target, or one with nothing in it. -/
def orAbsent (existing : Option (Property V)) : Property V :=
  existing.getD ⟨.data undef false, false, false⟩

/-- The fields that a descriptor leaves out are the same in two properties. -/
structure Fields.LeavesSame (f : Fields V) (p q : Property V) : Prop where
  configurable : f.configurable = none → p.configurable = q.configurable
  enumerable : f.enumerable = none → p.enumerable = q.enumerable
  get : f.isAccessor = true → f.get = none → p.slot.getter undef = q.slot.getter undef
  set : f.isAccessor = true → f.set = none → p.slot.setter undef = q.slot.setter undef
  value : f.isData = true → f.value = none → p.slot.value undef = q.slot.value undef
  writable : f.isData = true → f.writable = none → p.writable = q.writable
  slot : f.isData = false → f.isAccessor = false → p.slot = q.slot

/-- A definition, with the own property before and after the trap. What it
leaves out is taken from the property as it was before the trap. -/
def DefineAgrees (before : Option (Property V)) (extensible : Bool) (after : Option (Property V))
    (f : Fields V) : Prop :=
  match after with
  | none => extensible = false ∨ f.configurable ≠ none ∨ (orAbsent undef before).configurable = true
  | some cur =>
    if cur.configurable then f.configurable ≠ none ∨ (orAbsent undef before).configurable = true
    else
      DefineViolated extensible after f ∨ (f.LeavesSame undef (orAbsent undef before) cur ∧
        ∀ v, f.value = some v → v = cur.slot.value undef)

/-- A field that is there contradicts a property that is not configurable. -/
def Fields.Contradicts (f : Fields V) (td : Property V) : Prop :=
  f.configurable = some true ∨ f.enumerable = some (!td.enumerable) ∨
    match td.slot with
    | .accessor g s => f.isAccessor = false ∨ (∃ x, f.get = some x ∧ x ≠ g) ∨
        ∃ x, f.set = some x ∧ x ≠ s
    | .data v w => f.isAccessor = true ∨ f.writable = some (!w) ∨
        (w = false ∧ ∃ x, f.value = some x ∧ x ≠ v)

/-- The getter or the setter of an accessor is left out. -/
def Fields.LacksFunction (f : Fields V) (td : Property V) : Prop :=
  ∃ g s, td.slot = .accessor g s ∧ (f.get = none ∨ f.set = none)

/-- A field that is left out does not stand for what the property has. -/
def Fields.LacksField (f : Fields V) (td : Property V) : Prop :=
  (f.enumerable = none ∧ td.enumerable = true) ∨
    match td.slot with
    | .accessor g s => (f.get = none ∧ undef ≠ g) ∨ (f.set = none ∧ undef ≠ s)
    | .data v w => if w then f.writable = none else f.value = none ∧ undef ≠ v

def GopdAgrees (t : Target K V) (key : K) (f : Fields V) : Prop :=
  match t.own key with
  | none => f.isMixed = true → t.extensible = false ∨ f.configurable ≠ some true
  | some td =>
    if td.configurable then f.isMixed = true → f.configurable ≠ some true
    else f.Contradicts td ∨ (f.LacksFunction td ↔ f.isMixed = true ∨ f.LacksField undef td)

def keysOf (es : List (KeyElement K)) : List K :=
  es.filterMap fun
    | .key k => some k
    | _ => none

/-- A list does not do for a target with these keys, some of them fixed. -/
def Lacks (extensible : Bool) (fixed present : K → Prop) (keys : List K) : Prop :=
  (∃ k, fixed k ∧ k ∉ keys) ∨
    (extensible = false ∧ ((∃ k, present k ∧ k ∉ keys) ∨ ∃ k ∈ keys, ¬present k))

def Target.Present (t : Target K V) (k : K) : Prop := ∃ p, (k, p) ∈ t.props

def Target.Fixed (t : Target K V) (k : K) : Prop := ∃ p, (k, p) ∈ t.props ∧ p.configurable = false

/-- A key from before the trap, in whose place is a property now that is not
configurable. -/
def FixedPlace (before after : Target K V) (k : K) : Prop :=
  ∃ (i : Nat) (p : Property V) (q : K × Property V), before.props[i]? = some (k, p) ∧
    after.props[i]? = some q ∧ q.2.configurable = false

/-- What has to be so for the engine and the specification to refuse the same
answers. -/
def Agrees : (req : Request K V) → Target K V → Target K V → Reply K V req → Prop
  | .get _, _, _, _ => True
  | .set _ _, _, _, _ => True
  | .defineProperty key f, before, after, ok =>
      ok = true → DefineAgrees undef (before.own key) after.extensible (after.own key) f
  | .getOwnPropertyDescriptor _, _, _, .nonObject => True
  | .getOwnPropertyDescriptor key, _, after, .undefined =>
      after.own key = none → after.extensible = true
  | .getOwnPropertyDescriptor key, _, after, .object f => GopdAgrees undef after key f
  | .ownKeys, _, _, .nonObject => True
  | .ownKeys, before, after, .elements es =>
      .other ∈ es ∨ ¬ (keysOf es).Nodup ∨
        (Lacks after.extensible (FixedPlace before after) before.Present (keysOf es) ↔
          .hole ∈ es ∨ Lacks after.extensible after.Fixed after.Present (keysOf es))

/-! ### Values -/

/-- An operation throws a `TypeError` exactly if the answer of the trap is
one to be refused for the target as the trap has left it, and gives the
answer otherwise. -/
def Exact (req : Request K V) (trap : Trap req) (t after : Target K V) (a : Reply K V req) : Prop :=
  ((∃ message, perform undef req trap t = (.typeError message, after)) ↔
      Violated undef req after a) ∧
    (¬ Violated undef req after a → perform undef req trap t = (.answer a, after))

end OxideJS.Proxy
