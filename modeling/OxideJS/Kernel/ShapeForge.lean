import Mathlib.Algebra.Group.Nat.Defs
import Mathlib.Logic.Function.Basic

/-!
The forge of hidden classes, with the widths of its fields.

`Heap.Shapes` has the tree of shapes as the heap sees it. Here are the
tables that hold the tree: the vector of nodes, the map of transitions
under packed keys, the cache of positions, the counter that numbers the
nodes, and what takes over when the counter leaves the 24 bits an object
header has for it. A shape that is numbered beyond them is remembered in
the overflow map and nowhere else.

A lock that a panic leaves is poisoned, and every later access to it
panics. There is one place where this can happen: the counter wraps, and
the node numbered zero has no place in the vector. A result `none` stands
for a call that does not return. Depths and positions are bounded by the
number of nodes and are kept as natural numbers.
-/

namespace OxideJS.Kernel

abbrev ShapeId := UInt32
abbrev StringIndex := UInt32

/-- The root: no properties. -/
def emptyShapeId : ShapeId := 1

/-- Stands for the name of the root, which adds none. -/
def emptySentinel : StringIndex := 0xFFFFFFFF

/-- The last number that fits into 24 bits. -/
def idLimit : ShapeId := 0x00FFFFFF

structure Shape where
  id : ShapeId
  propertyName : StringIndex
  parent : Option ShapeId
  depth : Nat
  deriving DecidableEq, Repr

structure ShapeForge where
  shapes : List (Option Shape)
  transitions : UInt64 → Option ShapeId
  positions : UInt64 → Option Nat
  nextId : ShapeId
  overflowMap : UInt64 → Option ShapeId
  overflowActive : Bool
  /-- The lock of the nodes was held by a call that panicked. -/
  poisoned : Bool

def packKey (parent : ShapeId) (name : StringIndex) : UInt64 :=
  (parent.toUInt64 <<< 32) ||| name.toUInt64

theorem packKey_toNat (parent : ShapeId) (name : StringIndex) :
    (packKey parent name).toNat = parent.toNat * 2 ^ 32 + name.toNat := by
  have hp := parent.toNat_lt
  have hn := name.toNat_lt
  have hshift : (parent.toUInt64 <<< 32).toNat = parent.toNat <<< 32 := by
    simp only [UInt64.toNat_shiftLeft, UInt32.toNat_toUInt64]
    rw [show (32 : UInt64).toNat % 64 = 32 from rfl, Nat.shiftLeft_eq]
    exact Nat.mod_eq_of_lt (by omega)
  rw [packKey, UInt64.toNat_or, hshift, UInt32.toNat_toUInt64,
    ← Nat.shiftLeft_add_eq_or_of_lt hn, Nat.shiftLeft_eq]

/-- A key says which pair it was made from. -/
theorem packKey_inj {p p' : ShapeId} {n n' : StringIndex} :
    packKey p n = packKey p' n' ↔ p = p' ∧ n = n' := by
  constructor
  · intro h
    have hnat := congrArg UInt64.toNat h
    rw [packKey_toNat, packKey_toNat] at hnat
    have hn := n.toNat_lt
    have hn' := n'.toNat_lt
    exact ⟨UInt32.toNat_inj.1 (by omega), UInt32.toNat_inj.1 (by omega)⟩
  · rintro ⟨rfl, rfl⟩
    rfl

namespace ShapeForge

def root : Shape := ⟨emptyShapeId, emptySentinel, none, 0⟩

def new : ShapeForge where
  shapes := [some root]
  transitions := fun _ => none
  positions := fun _ => none
  nextId := 2
  overflowMap := fun _ => none
  overflowActive := false
  poisoned := false

/-- `shapes.get((id - 1) as usize)`; the subtraction wraps. -/
def shapeAt (f : ShapeForge) (id : ShapeId) : Option Shape :=
  (f.shapes[(id - 1).toNat]?).join

/-! ### The steps of `make_shape` -/

/-- `next_id.fetch_add(1)`; the number drawn is the old one. -/
def drawId (f : ShapeForge) : ShapeForge :=
  { f with nextId := f.nextId + 1 }

def activateOverflow (f : ShapeForge) : ShapeForge :=
  { f with overflowActive := true }

/-- Under the write lock of the overflow map: the number that is there, or
the new one. -/
def enterOverflow (f : ShapeForge) (key : UInt64) (newId : ShapeId) : ShapeForge × ShapeId :=
  match f.overflowMap key with
  | some id => (f, id)
  | none => ({ f with overflowMap := Function.update f.overflowMap key (some newId) }, newId)

def depthOf (f : ShapeForge) (id : ShapeId) : Nat :=
  ((f.shapeAt id).map (·.depth)).getD 0

/-- The vector is filled up to the number of the node, then the node is
written. Number zero has no place. -/
def writeShape (f : ShapeForge) (shape : Shape) : Option ShapeForge :=
  let padded := f.shapes ++ List.replicate (shape.id.toNat - f.shapes.length) none
  if (shape.id - 1).toNat < padded.length then
    some { f with shapes := padded.set (shape.id - 1).toNat (some shape) }
  else none

/-- `transitions.entry(key).or_insert(new_id)`. -/
def enterTransition (f : ShapeForge) (key : UInt64) (newId : ShapeId) : ShapeForge × ShapeId :=
  match f.transitions key with
  | some id => (f, id)
  | none => ({ f with transitions := Function.update f.transitions key (some newId) }, newId)

/-- A node under a number that has just been drawn. -/
def register (f : ShapeForge) (parent : ShapeId) (name : StringIndex) (newId : ShapeId) :
    ShapeForge × Option ShapeId :=
  if f.poisoned then (f, none)
  else
    match f.writeShape ⟨newId, name, some parent, f.depthOf parent + 1⟩ with
    | none => ({ f with poisoned := true }, none)
    | some f =>
      ((f.enterTransition (packKey parent name) newId).1,
        some (f.enterTransition (packKey parent name) newId).2)

/-- What `make_shape` finds without making anything. -/
def known (f : ShapeForge) (key : UInt64) : Option ShapeId :=
  match f.transitions key with
  | some id => some id
  | none => if f.overflowActive then f.overflowMap key else none

def makeShape (f : ShapeForge) (parent : ShapeId) (name : StringIndex) :
    ShapeForge × Option ShapeId :=
  match f.known (packKey parent name) with
  | some id => (f, some id)
  | none =>
    if idLimit < f.nextId then
      (((f.drawId.activateOverflow).enterOverflow (packKey parent name) f.nextId).1,
        some ((f.drawId.activateOverflow).enterOverflow (packKey parent name) f.nextId).2)
    else f.drawId.register parent name f.nextId

/-! ### Queries -/

def getShape (f : ShapeForge) (id : ShapeId) : Option (Option Shape) :=
  if f.poisoned then none else some (f.shapeAt id)

def shapePropCount (f : ShapeForge) (id : ShapeId) : Option Nat :=
  if f.poisoned then none else some (f.depthOf id)

/-- The loop of `has_property`, over as many nodes as there is fuel. A
climb that comes to an end passes every node once at most. -/
def climbHas (f : ShapeForge) (name : StringIndex) : Nat → ShapeId → Option Bool
  | 0, _ => none
  | fuel + 1, id =>
    match f.shapeAt id with
    | none => some false
    | some s =>
      if s.propertyName = name ∧ s.propertyName ≠ emptySentinel then some true
      else
        match s.parent with
        | none => some false
        | some p => climbHas f name fuel p

def hasProperty (f : ShapeForge) (id : ShapeId) (name : StringIndex) : Option Bool :=
  if f.poisoned then none else f.climbHas name (f.shapes.length + 1) id

/-- The loop of `lookup_position`: the number of names passed before the
one that is looked for, or that it is not there. -/
def climbSteps (f : ShapeForge) (name : StringIndex) : Nat → ShapeId → Nat → Option (Option Nat)
  | 0, _, _ => none
  | fuel + 1, id, steps =>
    match f.shapeAt id with
    | none => some none
    | some s =>
      if s.propertyName ≠ emptySentinel ∧ s.propertyName = name then some (some steps)
      else
        match s.parent with
        | none => some none
        | some p =>
          climbSteps f name fuel p (if s.propertyName ≠ emptySentinel then steps + 1 else steps)

/-- The position without the cache. -/
def climbPosition (f : ShapeForge) (id : ShapeId) (name : StringIndex) : Option (Option Nat) :=
  match f.shapeAt id with
  | none => some none
  | some s =>
    (f.climbSteps name (f.shapes.length + 1) id 0).map fun
      | none => none
      | some steps => if steps + 1 ≤ s.depth then some (s.depth - (steps + 1)) else none

def remember (f : ShapeForge) (key : UInt64) : Option (Option Nat) → ShapeForge
  | some (some pos) => { f with positions := Function.update f.positions key (some pos) }
  | _ => f

def lookupPosition (f : ShapeForge) (id : ShapeId) (name : StringIndex) :
    ShapeForge × Option (Option Nat) :=
  match f.positions (packKey id name) with
  | some pos => (f, some (some pos))
  | none =>
    if f.poisoned then (f, none)
    else (f.remember (packKey id name) (f.climbPosition id name), f.climbPosition id name)

end ShapeForge

end OxideJS.Kernel
