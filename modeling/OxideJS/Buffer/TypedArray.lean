import Mathlib.Algebra.Group.Nat.Defs
import OxideJS.Buffer.Heap

/-!
The typed-array operations that write elements.

The user code that runs inside an operation is left open: its `n`-th turn
performs the calls `user n` lists, and then throws or returns. Of what it
returns only numbers and views matter here, since the model follows where
bytes are written and not which.

A byte slice that an operation takes of a buffer is an address and a
length. It keeps both whatever happens to the buffer.
-/

namespace OxideJS.Buffer

inductive TypedArrayKind where
  | int8 | uint8 | uint8Clamped | int16 | uint16 | int32 | uint32 | float32 | float64
  | bigInt64 | bigUint64
  deriving DecidableEq

namespace TypedArrayKind

def bytesPerElement : TypedArrayKind → Nat
  | .int8 | .uint8 | .uint8Clamped => 1
  | .int16 | .uint16 => 2
  | .int32 | .uint32 | .float32 => 4
  | .float64 | .bigInt64 | .bigUint64 => 8

def isBigint : TypedArrayKind → Bool
  | .bigInt64 | .bigUint64 => true
  | _ => false

end TypedArrayKind

/-- A typed array: a window on a buffer. `autoLength` makes it follow the
length of the buffer. -/
structure View where
  buffer : Nat
  byteOffset : Nat
  length : Nat
  autoLength : Bool
  kind : TypedArrayKind
  deriving DecidableEq

/-- The result of `ToIntegerOrInfinity`. -/
inductive IntegerOrInfinity where
  | negInf
  | int (z : Int)
  | posInf
  deriving DecidableEq

/-- One turn of user code, read as the operation needs it. -/
structure Turn where
  acts : List Act
  throws : Bool
  number : IntegerOrInfinity
  view : View

/-- A write of `size` bytes at `offset` of an allocation, made on behalf of
a view while the buffers were as in `heap`. -/
structure Write where
  storage : Nat
  offset : Nat
  size : Nat
  view : View
  heap : Heap

inductive Event where
  /-- User code made a call, with the buffers as in `heap`. -/
  | did (heap : Heap) (act : Act)
  /-- The operation took hold of the bytes of a buffer. -/
  | took
  | wrote (w : Write)

/-- The state of an operation; the log has the newest event first. -/
structure State where
  heap : Heap
  turn : Nat
  log : List Event

abbrev Op := EStateM Unit State

/-! ### Lengths and bounds -/

def absoluteByteOffset (v : View) (index : Nat) : Nat :=
  v.byteOffset + index * v.kind.bytesPerElement

/-- The byte length of the buffer, unless it is detached. -/
def taBufferByteLength (h : Heap) (v : View) : Option Nat :=
  match h.buffers[v.buffer]? with
  | some (.ab p) => if p.detached then none else some p.length
  | some (.sab p) => some p.length
  | none => none

def taSpecLength (h : Heap) (v : View) : Nat :=
  match taBufferByteLength h v with
  | none => 0
  | some len => if v.autoLength then (len - v.byteOffset) / v.kind.bytesPerElement else v.length

def taIsOob (h : Heap) (v : View) : Bool :=
  match taBufferByteLength h v with
  | none => true
  | some len =>
    if v.autoLength then len < v.byteOffset
    else len < v.byteOffset + v.length * v.kind.bytesPerElement

def taLiveLength (h : Heap) (v : View) : Nat :=
  if taIsOob h v then 0 else taSpecLength h v

def clampIndexToLen (raw : IntegerOrInfinity) (len : Nat) : Nat :=
  match raw with
  | .posInf => len
  | .negInf => 0
  | .int z => if z < 0 then len - z.natAbs else min z.toNat len

/-! ### Steps -/

namespace Op

def fail {α : Type} : Op α := fun s => .error () s

def heap : Op Heap := fun s => .ok s.heap s

end Op

open Op

section Operations

variable (newCapacity : Nat → Nat → Nat) (user : Nat → Turn)

def State.perform (s : State) : List Act → State
  | [] => s
  | a :: acts =>
    State.perform
      { s with heap := s.heap.apply newCapacity a, log := .did s.heap a :: s.log } acts

/-- User code runs for a turn. -/
def userTurn : Op Turn := fun s =>
  let t := user s.turn
  let s := State.perform newCapacity { s with turn := s.turn + 1 } t.acts
  if t.throws then .error () s else .ok t s

/-- An optional argument that is converted to a number. -/
def numberArg (present : Bool) (default : IntegerOrInfinity) : Op IntegerOrInfinity :=
  if present then do
    let t ← userTurn newCapacity user
    pure t.number
  else pure default

def isImmutable (h : Heap) (v : View) : Bool :=
  match h.buffers[v.buffer]? with
  | some (.ab p) => p.immutable
  | _ => false

/-- `ValidateTypedArray`; a method that writes also refuses an immutable
buffer. -/
def taValidate (v : View) (writable : Bool) : Op Unit := fun s =>
  if taIsOob s.heap v || (writable && isImmutable s.heap v) then .error () s else .ok () s

/-- A byte slice of a plain buffer, or a reference to a shared one. -/
inductive BufferStoreMut where
  | ab (storage length : Nat)
  | sab (buffer : Nat)

def bufferStore (h : Heap) (b : Nat) : Option BufferStoreMut :=
  match h.buffers[b]? with
  | some (.ab p) => if p.detached then none else some (.ab p.storage p.length)
  | some (.sab _) => some (.sab b)
  | none => none

def bufferStoreMut (b : Nat) : Op (Option BufferStoreMut) := fun s =>
  .ok (bufferStore s.heap b) { s with log := .took :: s.log }

/-- The allocation a write through the store goes to, if the element lies
within the bounds the store knows. -/
def BufferStoreMut.target (h : Heap) (offset size : Nat) : BufferStoreMut → Option Nat
  | .ab storage length => if length < offset + size then none else some storage
  | .sab b =>
    match h.buffers[b]? with
    | some (.sab p) => if p.length < offset + size then none else some p.storage
    | _ => none

def taStoreWrite (store : BufferStoreMut) (v : View) (offset : Nat) : Op Unit := fun s =>
  match store.target s.heap offset v.kind.bytesPerElement with
  | none => .ok () s
  | some storage =>
    .ok () { s with log := .wrote ⟨storage, offset, v.kind.bytesPerElement, v, s.heap⟩ :: s.log }

/-- An element is written if it is within the view now. -/
def taWrite (v : View) (index : Nat) : Op Unit := do
  let h ← heap
  if index < taLiveLength h v then do
    match ← bufferStoreMut v.buffer with
    | some store => taStoreWrite store v (absoluteByteOffset v index)
    | none => pure ()

def taWriteAll (v : View) : List Nat → Op Unit
  | [] => pure ()
  | index :: rest => do
    taWrite v index
    taWriteAll v rest

/-! ### The operations -/

/-- `v[index] = value`: the value is converted before the bounds are
checked. -/
def writeTypedArrayElement (v : View) (index : Nat) : Op Unit := do
  let _ ← userTurn newCapacity user
  taWrite v index

def fillLoop (store : BufferStoreMut) (v : View) (start : Nat) : Nat → Op Unit
  | 0 => pure ()
  | n + 1 => do
    taStoreWrite store v (absoluteByteOffset v start)
    fillLoop store v (start + 1) n

def typedArrayFill (v : View) (hasStart hasEnd : Bool) : Op Unit := do
  taValidate v true
  let len := taSpecLength (← heap) v
  let _ ← userTurn newCapacity user
  let startRaw ← numberArg newCapacity user hasStart (.int 0)
  let endRaw ← numberArg newCapacity user hasEnd .posInf
  taValidate v true
  let h ← heap
  let start := clampIndexToLen startRaw len
  let stop := min (clampIndexToLen endRaw len) (taSpecLength h v)
  match ← bufferStoreMut v.buffer with
  | some store => fillLoop store v start (stop - start)
  | none => pure ()

/-- The three calls of user code are the reads of the constructor and of
its species, and the construction. Any view may come out. -/
def typedArraySpeciesCreate (v : View) (expectLen : Nat) : Op View := do
  let _ ← userTurn newCapacity user
  let _ ← userTurn newCapacity user
  let t ← userTurn newCapacity user
  taValidate t.view (v.buffer != t.view.buffer)
  if taLiveLength (← heap) t.view < expectLen then fail
  pure t.view

/-- Writes an element read from an array of kind `source`. -/
def setTypedArrayElement (source : TypedArrayKind) (v : View) (index : Nat) : Op Unit :=
  if source.isBigint = v.kind.isBigint then taWrite v index else fail

def sliceLoop (v target : View) (start k : Nat) : Nat → Op Unit
  | 0 => pure ()
  | n + 1 => do
    if start + k < taLiveLength (← heap) v then setTypedArrayElement v.kind target k
    sliceLoop v target start (k + 1) n

def typedArraySlice (v : View) (hasStart hasEnd : Bool) : Op Unit := do
  taValidate v false
  let len := taSpecLength (← heap) v
  let startRaw ← numberArg newCapacity user hasStart (.int 0)
  let endRaw ← numberArg newCapacity user hasEnd .posInf
  let start := clampIndexToLen startRaw len
  let count := clampIndexToLen endRaw len - start
  let target ← typedArraySpeciesCreate newCapacity user v count
  if 0 < count then do
    taValidate v false
    sliceLoop v target start 0 count

/-- The indices written, in order: backwards if the target range starts
inside the source range. -/
def copyWithinTargets (start target count : Nat) : List Nat :=
  if start < target ∧ target < start + count then
    (List.range count).reverse.map (target + ·)
  else (List.range count).map (target + ·)

def typedArrayCopyWithin (v : View) (hasTarget hasStart hasEnd : Bool) : Op Unit := do
  taValidate v true
  let len := taSpecLength (← heap) v
  let targetRaw ← numberArg newCapacity user hasTarget (.int 0)
  let startRaw ← numberArg newCapacity user hasStart (.int 0)
  let endRaw ← numberArg newCapacity user hasEnd .posInf
  let target := clampIndexToLen targetRaw len
  let start := clampIndexToLen startRaw len
  let count := min (clampIndexToLen endRaw len - start) (len - target)
  if 0 < count then do
    taValidate v true
    let len2 := taSpecLength (← heap) v
    let count := min (min count (len2 - start)) (len2 - target)
    taWriteAll v (copyWithinTargets start target count)

def compareTurns : Nat → Op Unit
  | 0 => pure ()
  | n + 1 => do
    let _ ← userTurn newCapacity user
    compareTurns n

/-- The elements are read, compared by user code any number of times, and
written back. -/
def typedArraySort (v : View) (comparisons : Nat) : Op Unit := do
  taValidate v true
  let len := taSpecLength (← heap) v
  compareTurns newCapacity user comparisons
  taWriteAll v (List.range len)

/-- The argument `set` copies from. -/
inductive Source where
  | missing
  | nullish
  | typedArray (v : View)
  | arrayLike
  deriving DecidableEq

/-- The number of elements of the source. Only an array-like object runs
user code for it. -/
def setSourceLength : Source → Op Nat
  | .missing => fail
  | .nullish => fail
  | .typedArray sv => do
    taValidate sv false
    pure (taLiveLength (← heap) sv)
  | .arrayLike => do
    let t ← userTurn newCapacity user
    pure (match t.number with
      | .posInf => 2 ^ 53 - 1
      | .negInf => 0
      | .int z => min z.toNat (2 ^ 53 - 1))

/-- An element is read and converted. -/
def setElementValue (v : View) : Source → Op Unit
  | .typedArray sv => if sv.kind.isBigint = v.kind.isBigint then pure () else fail
  | _ => do
    let _ ← userTurn newCapacity user
    let _ ← userTurn newCapacity user
    pure ()

/-- The loop of `set`; `index` is `offset + k`, which wraps around. -/
def setLoop (v : View) (source : Source) (store : Option BufferStoreMut) (index : Nat) :
    Nat → Op Unit
  | 0 => pure ()
  | n + 1 => do
    setElementValue newCapacity user v source
    if index % 2 ^ 64 < taLiveLength (← heap) v then
      match store with
      | some store => taStoreWrite store v (absoluteByteOffset v (index % 2 ^ 64))
      | none => pure ()
    setLoop v source store (index + 1) n

/-- Unlike the others, `set` takes hold of the bytes before a loop that
runs user code. The cast of the offset to `usize` saturates. -/
def typedArraySet (v : View) (source : Source) (hasOffset : Bool) : Op Unit := do
  if source = .missing then fail
  taValidate v true
  match ← numberArg newCapacity user hasOffset (.int 0) with
  | .negInf => fail
  | .posInf => fail
  | .int z =>
    if z < 0 then fail
    else do
      let offset := min z.toNat (2 ^ 64 - 1)
      taValidate v true
      let len := taSpecLength (← heap) v
      let sourceLen ← setSourceLength newCapacity user source
      if len < (sourceLen + offset) % 2 ^ 64 then fail
      else do
        let store ← bufferStoreMut v.buffer
        setLoop newCapacity user v source store offset sourceLen

inductive Operation where
  | set (v : View) (source : Source) (hasOffset : Bool)
  | fill (v : View) (hasStart hasEnd : Bool)
  | slice (v : View) (hasStart hasEnd : Bool)
  | copyWithin (v : View) (hasTarget hasStart hasEnd : Bool)
  | sort (v : View) (comparisons : Nat)
  | assign (v : View) (index : Nat)
  deriving DecidableEq

def Operation.steps : Operation → Op Unit
  | .set v source hasOffset => typedArraySet newCapacity user v source hasOffset
  | .fill v hasStart hasEnd => typedArrayFill newCapacity user v hasStart hasEnd
  | .slice v hasStart hasEnd => typedArraySlice newCapacity user v hasStart hasEnd
  | .copyWithin v hasTarget hasStart hasEnd =>
    typedArrayCopyWithin newCapacity user v hasTarget hasStart hasEnd
  | .sort v comparisons => typedArraySort newCapacity user v comparisons
  | .assign v index => writeTypedArrayElement newCapacity user v index

def final {α : Type} : EStateM.Result Unit State α → State
  | .ok _ s => s
  | .error _ s => s

/-- Everything an operation did, newest first. -/
def Operation.log (op : Operation) (h : Heap) : List Event :=
  (final (op.steps newCapacity user ⟨h, 0, []⟩)).log

end Operations

end OxideJS.Buffer
