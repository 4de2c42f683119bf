import Mathlib.Data.Finset.Sort
import OxideJS.Lib.Worklist

/-!
The session heap and its collector, after `session_gc.rs`.

An address is an index into the memory of its kind; permanent and session
values share one address space and are told apart by a flag in their
header, as `is_session_ptr` tells them apart. The session tables list what
the session owns and has to free. The mark bits of all objects together
are a set of addresses.

A collection marks and sweeps. Marking is an exploration of the object
graph with an explicit stack: the set of nodes seen stands for the mark
bits of the session objects and for `visited_perm`, which is where the
source remembers the permanent ones, and the accumulator for the live sets
of strings, BigInts and cells. Every edge goes to one of the four kinds of
node, and `scan_edges_for_mark` is the list of an object's edges in the
order in which the source follows them.
-/

namespace OxideJS.Gc

open Worklist

/-- The part of a `JsValue` a collector looks at. -/
inductive Value where
  | object (p : Nat)
  | string (p : Nat)
  | bigint (p : Nat)
  | primitive
  deriving DecidableEq, Repr

/-- The accessor pair of a property's meta entry. -/
structure Accessor where
  get : Value
  set : Value
  deriving DecidableEq, Repr

inductive WeakKey where
  | object (p : Nat)
  | symbol (id : Nat)
  deriving DecidableEq, Repr

/-- What a native payload contributes to the edges of its object: the
entries of a weak map, or the three edge lists of another family. -/
inductive Native where
  | none
  | weakMap (entries : List (WeakKey × Value))
  | family (objectEdges : List Value) (stringEdges cellEdges : List Nat)
  deriving DecidableEq, Repr

structure Object where
  session : Bool
  elements : List Value := []
  elementsMeta : List (Option Accessor) := []
  hashProps : List Value := []
  propMeta : List (Option Accessor) := []
  proto : Value := .primitive
  capturedThis : Value := .primitive
  homeObject : Value := .primitive
  boxedValue : Value := .primitive
  native : Native := .none
  upvalues : List Nat := []
  deriving DecidableEq, Repr

/-- A string is flat, or a rope of two strings with the product of its
flattening, if it has been flattened. -/
structure Str where
  session : Bool
  cons : Option (Nat × Nat) := none
  flatCache : Option Nat := none
  deriving DecidableEq, Repr

/-- The memory: objects, strings, closure cells with their values, and for
every BigInt whether the session owns it. -/
structure Heap where
  objects : List Object
  strings : List Str
  cells : List Value
  bigints : List Bool
  deriving DecidableEq, Repr

/-- The four kinds of things a collection keeps or frees. -/
inductive Node where
  | object (p : Nat)
  | string (p : Nat)
  | bigint (p : Nat)
  | cell (p : Nat)
  deriving DecidableEq, Repr

/-- The node a value refers to. -/
def Value.node : Value → Option Node
  | .object p => some (.object p)
  | .string p => some (.string p)
  | .bigint p => some (.bigint p)
  | .primitive => none

def Node.object? : Node → Option Nat
  | .object p => some p
  | _ => none

/-! ### Edges -/

/-- The values a family's `object_edges` lists; those of a weak map are
the values of its entries, whatever their keys. -/
def Native.objectEdges : Native → List Value
  | .none => []
  | .weakMap entries => entries.map Prod.snd
  | .family objectEdges _ _ => objectEdges

def Native.stringEdges : Native → List Nat
  | .family _ stringEdges _ => stringEdges
  | _ => []

def Native.cellEdges : Native → List Nat
  | .family _ _ cellEdges => cellEdges
  | _ => []

def metaValues (entries : List (Option Accessor)) : List Value :=
  (entries.filterMap id).flatMap fun entry => [entry.get, entry.set]

/-- The values of an object that `scan_edges_for_mark` hands to
`process_edge`, those of the upvalue cells apart. -/
def Object.values (o : Object) : List Value :=
  o.elements ++ metaValues o.elementsMeta ++ o.hashProps ++ metaValues o.propMeta ++
    [o.proto, o.capturedThis, o.homeObject, o.boxedValue] ++ o.native.objectEdges

/-- An upvalue cell is an edge itself, and so is the value it holds. -/
def Heap.upvalueEdges (h : Heap) (c : Nat) : List Node :=
  .cell c :: (h.cells[c]?.bind Value.node).toList

/-- The edges of an object in the order of `scan_edges_for_mark`. -/
def Heap.scanEdges (h : Heap) (o : Object) : List Node :=
  o.values.filterMap Value.node ++ o.native.stringEdges.map .string ++
    o.native.cellEdges.map .cell ++ o.upvalues.flatMap h.upvalueEdges

/-- What `mark_string_live` pushes for a string. -/
def Str.children (s : Str) : List Nat :=
  match s.cons with
  | none => []
  | some (l, r) => l :: r :: s.flatCache.toList

def Heap.ropeEdges (h : Heap) (p : Nat) : List Nat :=
  match h.strings[p]? with
  | none => []
  | some s => s.children

def Heap.objectNodes (h : Heap) (p : Nat) : List Node :=
  match h.objects[p]? with
  | none => []
  | some o => h.scanEdges o

/-- The traced edges. A cell has none: its value is an edge of the object
that holds the cell. -/
def Heap.edges (h : Heap) : Node → List Node
  | .object p => h.objectNodes p
  | .string p => (h.ropeEdges p).map .string
  | .bigint _ => []
  | .cell _ => []

/-! ### Marking -/

/-- `live_strings`, `live_bigints` and `live_cells`. -/
structure Live where
  strings : Finset Nat
  bigints : Finset Nat
  cells : Finset Nat
  deriving DecidableEq

/-- Fuel for `markStringLive`: the string itself and every child of every
string. -/
def Heap.ropeFuel (h : Heap) : Nat :=
  1 + ∑ p ∈ Finset.range h.strings.length, (h.ropeEdges p).length

/-- `mark_string_live`: the string and, through ropes, its parts. -/
def Heap.markStringLive (h : Heap) (live : Finset Nat) (root : Nat) : Finset Nat :=
  (drain h.ropeEdges (fun u _ => u) h.ropeFuel ⟨[root], live, ()⟩).seen

/-- `process_edge`, and the insertion of cells, for the leaves; an object
is pushed on the stack instead. -/
def Heap.processEdge (h : Heap) (live : Live) : Node → Live
  | .object _ => live
  | .string p => { live with strings := h.markStringLive live.strings p }
  | .bigint p => { live with bigints := insert p live.bigints }
  | .cell p => { live with cells := insert p live.cells }

/-- The leaves an object leads to. -/
def Heap.scanLeaves (h : Heap) (live : Live) (p : Nat) : Live :=
  (h.objectNodes p).foldl h.processEdge live

/-- The objects an object leads to. -/
def Heap.scanObjects (h : Heap) (p : Nat) : List Nat :=
  (h.objectNodes p).filterMap Node.object?

def Heap.isSession (h : Heap) (p : Nat) : Bool :=
  match h.objects[p]? with
  | none => false
  | some o => o.session

/-- The state of the VM a collection works on. `roots` are the values
`for_each_root` enumerates, those of the cell stack and of the registered
listeners apart. -/
structure Session where
  heap : Heap
  marks : Finset Nat
  sessionObjects : List Nat
  sessionStrings : List Nat
  sessionBigints : List Nat
  sessionCells : List Nat
  roots : List Value
  cellStack : List (List Nat)
  broadcastChannels : List (String × List Nat)
  eventTargets : List (Nat × List Value)
  deriving DecidableEq

/-- `for_each_root`. -/
def Session.forEachRoot (s : Session) : List Value :=
  s.roots ++ s.cellStack.flatten.filterMap (s.heap.cells[·]?) ++ s.eventTargets.flatMap Prod.snd

/-- The roots as nodes: the cells of the cell stack are roots as well. -/
def Session.rootNodes (s : Session) : List Node :=
  s.cellStack.flatten.map .cell ++ s.forEachRoot.filterMap Value.node

/-- A session object given as a root is pushed, a permanent one is scanned
on the spot. -/
def Heap.seed (h : Heap) (w : Work Nat Live) (p : Nat) : Work Nat Live :=
  if h.isSession p then { w with stack := p :: w.stack }
  else visit h.scanObjects h.scanLeaves w p

/-- Fuel for the loop of `mark`: the roots and every object edge. -/
def Session.markFuel (s : Session) : Nat :=
  s.rootNodes.length + ∑ p ∈ Finset.range s.heap.objects.length, (s.heap.scanObjects p).length

/-- The work `mark` ends with. -/
def Session.markWork (s : Session) : Work Nat Live :=
  drain s.heap.scanObjects s.heap.scanLeaves s.markFuel
    ((s.rootNodes.filterMap Node.object?).foldl s.heap.seed
      ⟨[], s.marks, s.rootNodes.foldl s.heap.processEdge ⟨∅, ∅, ∅⟩⟩)

/-- `mark`: set the mark bits of the session objects that are found. -/
def Session.mark (s : Session) : Session × Live :=
  ({ s with marks := s.markWork.seen.filter (s.heap.isSession ·) }, s.markWork.acc)

/-- `clear_all_marks`: of the objects in the session table. -/
def Session.clearAllMarks (s : Session) : Session :=
  { s with marks := s.marks \ s.sessionObjects.toFinset }

/-! ### Sweeping -/

/-- `resolve_weak_key_sweep`: whether a key is kept. -/
def Session.keepsKey (s : Session) : WeakKey → Bool
  | .symbol _ => true
  | .object p =>
    match s.heap.objects[p]? with
    | none => false
    | some o => !o.session || decide (p ∈ s.marks)

/-- `rewrite_weak_map_native`. -/
def Object.rewriteWeakMap (keep : WeakKey → Bool) (o : Object) : Object :=
  match o.native with
  | .weakMap entries => { o with native := .weakMap (entries.filter fun e => keep e.1) }
  | _ => o

/-- `sweep_in_place`: settle the weak maps that are alive, prune the two
registries, keep what is marked and clear its bit. The second component
lists the objects that are freed. -/
def Session.sweepInPlace (s : Session) : Session × List Nat :=
  ({ s with
      heap := { s.heap with
        objects := s.heap.objects.mapIdx fun p o =>
          if p ∈ s.sessionObjects ∧ p ∈ s.marks then o.rewriteWeakMap s.keepsKey else o }
      broadcastChannels :=
        (s.broadcastChannels.map fun e => (e.1, e.2.filter (· ∈ s.marks))).filter (·.2 ≠ [])
      eventTargets := s.eventTargets.filter (·.1 ∈ s.marks)
      sessionObjects := s.sessionObjects.filter (· ∈ s.marks)
      marks := s.marks \ s.sessionObjects.toFinset },
    s.sessionObjects.filter (· ∉ s.marks))

/-- The product of a flattened rope. It hangs on the rope and is listed in
no table. -/
def Heap.product (h : Heap) (p : Nat) : Option Nat :=
  match h.strings[p]? with
  | some ⟨_, some _, flatCache⟩ => flatCache
  | _ => none

/-- `drop_session_string_box`: a string is freed with its product, but not
with the parts of a rope, which are listed themselves. -/
def Heap.dropString (h : Heap) (p : Nat) : List Nat := (h.product p).toList ++ [p]

/-- `sweep_session_strings` and `sweep_session_bigints`. -/
def Session.sweepLeaves (s : Session) (live : Live) : Session × List Node :=
  ({ s with
      sessionStrings := s.sessionStrings.filter (· ∈ live.strings)
      sessionBigints := s.sessionBigints.filter (· ∈ live.bigints) },
    ((s.sessionStrings.filter (· ∉ live.strings)).flatMap s.heap.dropString).map .string ++
      (s.sessionBigints.filter (· ∉ live.bigints)).map .bigint)

/-- `sweep_session_cells`. -/
def Session.sweepCells (s : Session) (live : Live) : Session × List Node :=
  ({ s with sessionCells := s.sessionCells.filter (· ∈ live.cells) },
    (s.sessionCells.filter (· ∉ live.cells)).map .cell)

/-! ### Collections -/

/-- `collect`, with everything that is freed in the order of the frees. -/
def Session.collect (s : Session) : Session × List Node :=
  let (s, live) := s.mark
  let (s, objects) := s.sweepInPlace
  let (s, leaves) := s.sweepLeaves live
  let (s, cells) := s.sweepCells live
  (s, objects.map .object ++ leaves ++ cells)

/-- `collect_in_run`: objects and cells only. -/
def Session.collectInRun (s : Session) : Session × List Node :=
  let (s, live) := s.clearAllMarks.mark
  let (s, objects) := s.sweepInPlace
  let (s, cells) := s.sweepCells live
  (s, objects.map .object ++ cells)

/-- `collect_strings_only`: no object is swept and no registry pruned. -/
def Session.collectStringsOnly (s : Session) : Session × List Node :=
  let (s, live) := s.clearAllMarks.mark
  let (s, leaves) := s.sweepLeaves live
  let (s, cells) := s.sweepCells live
  (s.clearAllMarks, leaves ++ cells)

end OxideJS.Gc
