import OxideJS.Kernel.ShapeForge
import OxideJS.Lib.Runs

/-!
Slots of properties under hidden classes.

The names of a shape are those on the way to the root, the newest first.
A run makes shapes from shapes it was given and asks for positions in
between, which fills the cache. The invariant says that what the tables
hold is the tree: the transition of a parent and a name leads to the node
that adds the name to the parent, and the cache has what a climb finds.
-/

namespace OxideJS.Kernel

open OxideJS.Lib.Runs

/-! ### Positions in a list of names -/

/-- The number of names that were added after `name`. -/
def stepsIn (name : StringIndex) : List StringIndex → Nat → Option Nat
  | [], _ => none
  | n :: names, steps =>
    if n ≠ emptySentinel ∧ n = name then some steps
    else stepsIn name names (if n ≠ emptySentinel then steps + 1 else steps)

def positionIn (names : List StringIndex) (name : StringIndex) : Option Nat :=
  match stepsIn name names 0 with
  | none => none
  | some steps => if steps + 1 ≤ names.length then some (names.length - (steps + 1)) else none

section Positions

variable {name n : StringIndex} {names : List StringIndex}

theorem stepsIn_add (names : List StringIndex) (steps k : Nat) :
    stepsIn name names (steps + k) = (stepsIn name names steps).map (· + k) := by
  induction names generalizing steps with
  | nil => rfl
  | cons n names ih =>
    by_cases hn : n ≠ emptySentinel ∧ n = name
    · simp only [stepsIn, if_pos hn, Option.map_some]
    · by_cases hs : n ≠ emptySentinel
      · simp only [stepsIn, if_neg hn, if_pos hs]
        rw [← ih, Nat.add_right_comm]
      · simp only [stepsIn, if_neg hn, if_neg hs, ih]

theorem stepsIn_lt {steps k : Nat} (h : stepsIn name names steps = some k) :
    k < steps + names.length := by
  induction names generalizing steps with
  | nil => cases h
  | cons n names ih =>
    rw [stepsIn] at h
    rw [List.length_cons]
    split at h
    · obtain rfl : steps = k := by simpa using h
      omega
    · split at h
      · have := ih h
        omega
      · have := ih h
        omega

theorem stepsIn_eq_none_iff (steps : Nat) :
    stepsIn name names steps = none ↔ ¬(name ≠ emptySentinel ∧ name ∈ names) := by
  induction names generalizing steps with
  | nil => simp [stepsIn]
  | cons n names ih =>
    rw [stepsIn, List.mem_cons]
    split
    · next h =>
      obtain ⟨hs, rfl⟩ := h
      simp [hs]
    · next h =>
      rw [ih]
      constructor
      · rintro hnot ⟨hs, rfl | hmem⟩
        · exact h ⟨hs, rfl⟩
        · exact hnot ⟨hs, hmem⟩
      · rintro hnot ⟨hs, hmem⟩
        exact hnot ⟨hs, .inr hmem⟩

theorem positionIn_lt {k : Nat} (h : positionIn names name = some k) : k < names.length := by
  rw [positionIn] at h
  split at h
  · cases h
  · split at h
    · obtain rfl := by simpa using h
      omega
    · cases h

theorem positionIn_eq_none_iff :
    positionIn names name = none ↔ ¬(name ≠ emptySentinel ∧ name ∈ names) := by
  rw [← stepsIn_eq_none_iff 0, positionIn]
  cases h : stepsIn name names 0 with
  | none => simp
  | some k =>
    have := stepsIn_lt h
    simp only [if_pos (show k + 1 ≤ names.length by omega), reduceCtorEq]

theorem positionIn_cons_self (hn : n ≠ emptySentinel) :
    positionIn (n :: names) n = some names.length := by
  simp [positionIn, stepsIn, hn]

/-- The slots of the other names do not move. -/
theorem positionIn_cons_of_ne (hn : n ≠ emptySentinel) (hne : name ≠ n) :
    positionIn (n :: names) name = positionIn names name := by
  have hnot : ¬(n ≠ emptySentinel ∧ n = name) := fun h => hne h.2.symm
  rw [positionIn, positionIn, stepsIn, if_neg hnot, if_pos hn, stepsIn_add names 0 1]
  cases h : stepsIn name names 0 with
  | none => rfl
  | some k =>
    have := stepsIn_lt h
    simp only [Option.map_some, List.length_cons]
    rw [if_pos (by omega), if_pos (by omega)]
    congr 1
    omega

end Positions

/-! ### Layouts -/

/-- The names on the way to the root, the newest first. -/
inductive Layout (f : ShapeForge) : ShapeId → List StringIndex → Prop where
  | root (h : f.shapeAt emptyShapeId = some ShapeForge.root) : Layout f emptyShapeId []
  | child {p id : ShapeId} {n : StringIndex} {names : List StringIndex} (hp : Layout f p names)
      (hlt : p.toNat < id.toNat) (h : f.shapeAt id = some ⟨id, n, some p, names.length + 1⟩) :
      Layout f id (n :: names)

namespace Layout

variable {f f' : ShapeForge} {id : ShapeId} {names names' : List StringIndex}

theorem shapeAt (h : Layout f id names) : ∃ s, f.shapeAt id = some s ∧ s.depth = names.length := by
  cases h with
  | root h => exact ⟨_, h, rfl⟩
  | child _ _ h => exact ⟨_, h, rfl⟩

theorem depthOf (h : Layout f id names) : f.depthOf id = names.length := by
  obtain ⟨s, hs, hdepth⟩ := h.shapeAt
  simp [ShapeForge.depthOf, hs, hdepth]

theorem unique (h : Layout f id names) (h' : Layout f id names') : names = names' := by
  induction h generalizing names' with
  | root h =>
    cases h' with
    | root _ => rfl
    | child _ _ h₁ => rw [h] at h₁; cases h₁
  | child hp hlt h ih =>
    cases h' with
    | root h₁ => rw [h] at h₁; cases h₁
    | child hp' hlt' h₁ =>
      rw [h] at h₁
      obtain ⟨⟨rfl⟩, ⟨rfl⟩, -⟩ := by simpa using h₁
      rw [ih hp']

theorem climbSteps (h : Layout f id names) (name : StringIndex) {fuel : Nat}
    (hfuel : id.toNat ≤ fuel) (steps : Nat) :
    f.climbSteps name fuel id steps = some (stepsIn name names steps) := by
  induction h generalizing fuel steps with
  | root h =>
    obtain ⟨fuel, rfl⟩ : ∃ n, fuel = n + 1 :=
      ⟨fuel - 1, by rw [show emptyShapeId.toNat = 1 from rfl] at hfuel; omega⟩
    simp [ShapeForge.climbSteps, h, ShapeForge.root, stepsIn]
  | @child p id n names hp hlt h ih =>
    obtain ⟨fuel, rfl⟩ : ∃ n, fuel = n + 1 := ⟨fuel - 1, by omega⟩
    rw [ShapeForge.climbSteps, h, stepsIn]
    by_cases hn : n ≠ emptySentinel ∧ n = name
    · simp only [if_pos hn]
    · simp only [if_neg hn]
      exact ih (by omega) _

theorem climbHas (h : Layout f id names) (name : StringIndex) {fuel : Nat}
    (hfuel : id.toNat ≤ fuel) :
    f.climbHas name fuel id = some (decide (name ≠ emptySentinel ∧ name ∈ names)) := by
  induction h generalizing fuel with
  | root h =>
    obtain ⟨fuel, rfl⟩ : ∃ n, fuel = n + 1 :=
      ⟨fuel - 1, by rw [show emptyShapeId.toNat = 1 from rfl] at hfuel; omega⟩
    simp [ShapeForge.climbHas, h, ShapeForge.root]
  | @child p id n names hp hlt h ih =>
    obtain ⟨fuel, rfl⟩ : ∃ n, fuel = n + 1 := ⟨fuel - 1, by omega⟩
    rw [ShapeForge.climbHas, h]
    by_cases hn : n = name ∧ n ≠ emptySentinel
    · obtain ⟨rfl, hs⟩ := hn
      simp [hs]
    · simp only [if_neg hn, ih (show p.toNat ≤ fuel by omega), Option.some.injEq,
        decide_eq_decide, List.mem_cons]
      constructor
      · exact fun ⟨hs, hmem⟩ => ⟨hs, .inr hmem⟩
      · rintro ⟨hs, rfl | hmem⟩
        · exact absurd ⟨rfl, hs⟩ hn
        · exact ⟨hs, hmem⟩

theorem climbPosition (h : Layout f id names) (hlen : id.toNat ≤ f.shapes.length)
    (name : StringIndex) : f.climbPosition id name = some (positionIn names name) := by
  obtain ⟨s, hs, hdepth⟩ := h.shapeAt
  have hsteps := h.climbSteps name (show id.toNat ≤ f.shapes.length + 1 by omega)
  rw [ShapeForge.climbPosition, hs, positionIn]
  cases hst : stepsIn name names 0 <;> simp [hsteps, hst, hdepth]

theorem mono (h : Layout f id names) (hext : ∀ i s, f.shapeAt i = some s → f'.shapeAt i = some s) :
    Layout f' id names := by
  induction h with
  | root h => exact .root (hext _ _ h)
  | child _ hlt h ih => exact .child ih hlt (hext _ _ h)

end Layout

/-! ### Runs -/

/-- The forge and the shapes that it has handed out. -/
structure Session where
  forge : ShapeForge
  ids : List ShapeId

inductive Op where
  | make (parent : ShapeId) (name : StringIndex)
  | lookup (id : ShapeId) (name : StringIndex)
  deriving DecidableEq, Repr

namespace Session

def new : Session := ⟨.new, [emptyShapeId]⟩

/-- A shape is made from a shape that was handed out before. Positions are
asked for in any shape. -/
def step (s : Session) : Op → Session
  | .make p n =>
    if p ∈ s.ids then
      ⟨(s.forge.makeShape p n).1, (s.forge.makeShape p n).2.toList ++ s.ids⟩
    else s
  | .lookup id n => ⟨(s.forge.lookupPosition id n).1, s.ids⟩

end Session

/-- `id` is the shape that adds a name to a parent. -/
def Child (f : ShapeForge) (p : ShapeId) (n : StringIndex) (id : ShapeId) : Prop :=
  ∃ names, Layout f p names ∧ Layout f id (n :: names)

structure Wf (f : ShapeForge) : Prop where
  root : f.shapeAt emptyShapeId = some ShapeForge.root
  length : f.shapes.length ≤ idLimit.toNat
  /-- Before the overflow the numbers are consecutive. -/
  calm : f.overflowActive = false →
    f.shapes.length + 1 = f.nextId.toNat ∧ f.overflowMap = (fun _ => none) ∧ f.poisoned = false
  /-- After it nothing is entered any more. -/
  spent : f.overflowActive = true → idLimit < f.nextId ∨ f.nextId = 0 ∨ f.poisoned = true
  overflow : ∀ key id, f.overflowMap key = some id → idLimit < id
  node : ∀ id s, f.shapeAt id = some s → ∃ names, Layout f id names
  transition : ∀ p n id, f.transitions (packKey p n) = some id → Child f p n id
  position : ∀ id n pos, f.positions (packKey id n) = some pos →
    ∃ names, Layout f id names ∧ positionIn names n = some pos

/-- A shape that was handed out is in the tree, or it came too late. -/
def Handed (f : ShapeForge) (id : ShapeId) : Prop :=
  (∃ names, Layout f id names) ∨ (idLimit < id ∧ f.overflowActive = true)

namespace Wf

variable {f : ShapeForge} {id p : ShapeId} {n : StringIndex} {names : List StringIndex}

theorem bounds (hf : Wf f) {s : Shape} (h : f.shapeAt id = some s) :
    0 < id.toNat ∧ id.toNat ≤ f.shapes.length := by
  have hlt : (id - 1).toNat < f.shapes.length := by
    by_contra hge
    rw [ShapeForge.shapeAt, List.getElem?_eq_none (by omega)] at h
    cases h
  have hlen := hf.length
  have hid := id.toNat_lt
  rw [UInt32.toNat_sub, show (1 : UInt32).toNat = 1 from rfl] at hlt
  rw [show idLimit.toNat = 16777215 from rfl] at hlen
  omega

theorem le_length (hf : Wf f) (h : Layout f id names) : id.toNat ≤ f.shapes.length := by
  obtain ⟨s, hs, -⟩ := h.shapeAt
  exact (hf.bounds hs).2

/-- No node has a number beyond the limit. -/
theorem shapeAt_eq_none (hf : Wf f) (h : idLimit < id) : f.shapeAt id = none := by
  cases hs : f.shapeAt id with
  | none => rfl
  | some s =>
    have := (hf.bounds hs).2
    have := hf.length
    have := UInt32.lt_iff_toNat_lt.1 h
    omega

/-- With the cache in front, a query finds the position in the layout. -/
theorem lookupPosition (hf : Wf f) (hp : f.poisoned = false) (h : Layout f id names)
    (name : StringIndex) : (f.lookupPosition id name).2 = some (positionIn names name) := by
  rw [ShapeForge.lookupPosition]
  cases hc : f.positions (packKey id name) with
  | some pos =>
    obtain ⟨names', h', hpos⟩ := hf.position id name pos hc
    rw [h.unique h', hpos]
  | none => simp only [hp, Bool.false_eq_true, if_false, h.climbPosition (hf.le_length h)]

theorem hasProperty (hf : Wf f) (hp : f.poisoned = false) (h : Layout f id names)
    (name : StringIndex) :
    f.hasProperty id name = some (decide (name ≠ emptySentinel ∧ name ∈ names)) := by
  have := hf.le_length h
  rw [ShapeForge.hasProperty, hp, if_neg (by decide), h.climbHas name (by omega)]

end Wf

/-! ### What a call does -/

/-- The ways in which `make_shape` can end. -/
inductive Made (f : ShapeForge) (p : ShapeId) (n : StringIndex) :
    ShapeForge → Option ShapeId → Prop where
  | known {id : ShapeId} (h : f.known (packKey p n) = some id) : Made f p n f (some id)
  | beyond (h : f.known (packKey p n) = none) (hlt : idLimit < f.nextId) :
      Made f p n
        { f with
          nextId := f.nextId + 1
          overflowActive := true
          overflowMap := Function.update f.overflowMap (packKey p n) (some f.nextId) }
        (some f.nextId)
  | panicked (h : f.known (packKey p n) = none) (hle : f.nextId ≤ idLimit)
      (hactive : f.overflowActive = true) :
      Made f p n { f with nextId := f.nextId + 1, poisoned := true } none
  | entered (h : f.known (packKey p n) = none) (hle : f.nextId ≤ idLimit)
      (hactive : f.overflowActive = false) :
      Made f p n
        { f with
          nextId := f.nextId + 1
          shapes := f.shapes ++ [some ⟨f.nextId, n, some p, f.depthOf p + 1⟩]
          transitions := Function.update f.transitions (packKey p n) (some f.nextId) }
        (some f.nextId)

theorem ShapeForge.transitions_of_known_eq_none {f : ShapeForge} {key : UInt64}
    (h : f.known key = none) : f.transitions key = none := by
  rw [ShapeForge.known] at h
  split at h
  · cases h
  · next ht => exact ht

/-- A number that follows the last node is written behind it. -/
theorem ShapeForge.writeShape_next {f : ShapeForge} {s : Shape}
    (h : f.shapes.length + 1 = s.id.toNat) :
    f.writeShape s = some { f with shapes := f.shapes ++ [some s] } := by
  have hid := s.id.toNat_lt
  have hindex : (s.id - 1).toNat = f.shapes.length := by
    rw [UInt32.toNat_sub, show (1 : UInt32).toNat = 1 from rfl]
    omega
  have hpad : s.id.toNat - f.shapes.length = 1 := by omega
  simp [ShapeForge.writeShape, hindex, hpad]

theorem ShapeForge.writeShape_zero {f : ShapeForge} {s : Shape} (h : s.id = 0)
    (hlen : f.shapes.length ≤ idLimit.toNat) : f.writeShape s = none := by
  have hindex : (s.id - 1).toNat = 4294967295 := by rw [h]; rfl
  rw [show idLimit.toNat = 16777215 from rfl] at hlen
  simp only [ShapeForge.writeShape, h, List.length_append, List.length_replicate]
  rw [← h, hindex, if_neg]
  simp only [h, UInt32.toNat_zero]
  omega

namespace Wf

variable {f f' : ShapeForge} {id p : ShapeId} {n : StringIndex} {names : List StringIndex}
  {r : Option ShapeId}

theorem overflowMap_of_known_eq_none (hf : Wf f) {key : UInt64} (h : f.known key = none) :
    f.overflowMap key = none := by
  cases hactive : f.overflowActive with
  | false => rw [(hf.calm hactive).2.1]
  | true => simpa [ShapeForge.known, f.transitions_of_known_eq_none h, hactive] using h

theorem made (hf : Wf f) (p : ShapeId) (n : StringIndex) :
    Made f p n (f.makeShape p n).1 (f.makeShape p n).2 := by
  rw [ShapeForge.makeShape]
  cases hk : f.known (packKey p n) with
  | some id => exact .known hk
  | none =>
    have ho := hf.overflowMap_of_known_eq_none hk
    by_cases hlt : idLimit < f.nextId
    · simp only [if_pos hlt, ShapeForge.enterOverflow, ShapeForge.activateOverflow,
        ShapeForge.drawId, ho]
      exact .beyond hk hlt
    · have hle : f.nextId ≤ idLimit := UInt32.not_lt.1 hlt
      simp only [if_neg hlt]
      cases hactive : f.overflowActive with
      | true =>
        -- The counter has wrapped.
        have hpanic : f.drawId.register p n f.nextId
            = ({ f with nextId := f.nextId + 1, poisoned := true }, none) := by
          cases hp : f.poisoned with
          | true => simp [ShapeForge.register, ShapeForge.drawId, hp]
          | false =>
            have hzero : f.nextId = 0 := by
              rcases hf.spent hactive with h | h | h
              · exact absurd h hlt
              · exact h
              · simp [hp] at h
            have hwrite : f.drawId.writeShape
                ⟨f.nextId, n, some p, f.drawId.depthOf p + 1⟩ = none :=
              ShapeForge.writeShape_zero hzero hf.length
            rw [ShapeForge.register, hwrite]
            simp [ShapeForge.drawId, hp]
        rw [hpanic]
        exact .panicked hk hle hactive
      | false =>
        obtain ⟨hlen, -, hp⟩ := hf.calm hactive
        have hwrite : f.drawId.writeShape ⟨f.nextId, n, some p, f.drawId.depthOf p + 1⟩
            = some { f.drawId with
                shapes := f.shapes ++ [some ⟨f.nextId, n, some p, f.depthOf p + 1⟩] } :=
          ShapeForge.writeShape_next hlen
        have ht : f.transitions (packKey p n) = none := f.transitions_of_known_eq_none hk
        rw [ShapeForge.register, if_neg (show ¬f.drawId.poisoned = true by
          simp [ShapeForge.drawId, hp]), hwrite]
        simp only [ShapeForge.drawId, ShapeForge.enterTransition, ht]
        exact .entered hk hle hactive

end Wf

/-! ### What a run keeps -/

namespace Made

variable {f f' : ShapeForge} {p : ShapeId} {n : StringIndex} {r : Option ShapeId}

/-- Nodes are only ever added. -/
theorem shapeAt (h : Made f p n f' r) {id : ShapeId} {s : Shape} (hs : f.shapeAt id = some s) :
    f'.shapeAt id = some s := by
  cases h with
  | known _ => exact hs
  | beyond _ _ => exact hs
  | panicked _ _ _ => exact hs
  | entered _ _ _ =>
    have hlt : (id - 1).toNat < f.shapes.length := by
      by_contra hge
      rw [ShapeForge.shapeAt, List.getElem?_eq_none (by omega)] at hs
      cases hs
    rw [ShapeForge.shapeAt] at hs ⊢
    rwa [List.getElem?_append_left hlt]

theorem layout (h : Made f p n f' r) {id : ShapeId} {names : List StringIndex}
    (hl : Layout f id names) : Layout f' id names :=
  hl.mono fun _ _ hs => h.shapeAt hs

theorem overflowActive (h : Made f p n f' r) (ha : f.overflowActive = true) :
    f'.overflowActive = true := by
  cases h with
  | known _ => exact ha
  | beyond _ _ => rfl
  | panicked _ _ _ => exact ha
  | entered _ _ _ => exact ha

theorem handed (h : Made f p n f' r) {id : ShapeId} (hid : Handed f id) : Handed f' id := by
  rcases hid with ⟨names, hl⟩ | ⟨hlt, ha⟩
  · exact .inl ⟨names, h.layout hl⟩
  · exact .inr ⟨hlt, h.overflowActive ha⟩

end Made

namespace Wf

variable {f f' : ShapeForge} {id p : ShapeId} {n : StringIndex} {names : List StringIndex}
  {r : Option ShapeId}

theorem layout_of_calm (hp : Handed f p) (ha : f.overflowActive = false) :
    ∃ names, Layout f p names := by
  rcases hp with h | ⟨-, h⟩
  · exact h
  · rw [ha] at h
    cases h

/-- A node that is entered adds the name to its parent. -/
theorem child_entered (hf : Wf f) (ha : f.overflowActive = false) (hl : Layout f p names)
    (hext : ∀ i s, f.shapeAt i = some s → f'.shapeAt i = some s)
    (hs : f'.shapes = f.shapes ++ [some ⟨f.nextId, n, some p, f.depthOf p + 1⟩]) :
    Layout f' f.nextId (n :: names) := by
  obtain ⟨hlen, -, -⟩ := hf.calm ha
  refine .child (hl.mono hext) ?_ ?_
  · have := hf.le_length hl
    omega
  · have hid := f.nextId.toNat_lt
    have hindex : (f.nextId - 1).toNat = f.shapes.length := by
      rw [UInt32.toNat_sub, show (1 : UInt32).toNat = 1 from rfl]
      omega
    rw [ShapeForge.shapeAt, hs, hindex, List.getElem?_concat_length, Option.join_some, hl.depthOf]

theorem keep (hf : Wf f) (hp : Handed f p) (h : Made f p n f' r) : Wf f' := by
  have hext : ∀ i s, f.shapeAt i = some s → f'.shapeAt i = some s := fun _ _ hs => h.shapeAt hs
  have hlayout : ∀ {id : ShapeId} {names : List StringIndex}, Layout f id names →
      Layout f' id names := fun hl => h.layout hl
  have hchild : ∀ p n id, f.transitions (packKey p n) = some id → Child f' p n id := by
    intro p n id ht
    obtain ⟨names, hl, hc⟩ := hf.transition p n id ht
    exact ⟨names, hlayout hl, hlayout hc⟩
  have hnode : ∀ id s, f.shapeAt id = some s → ∃ names, Layout f' id names := by
    intro id s hs
    obtain ⟨names, hl⟩ := hf.node id s hs
    exact ⟨names, hlayout hl⟩
  have hpos : ∀ id n pos, f.positions (packKey id n) = some pos →
      ∃ names, Layout f' id names ∧ positionIn names n = some pos := by
    intro id n pos hc
    obtain ⟨names, hl, hin⟩ := hf.position id n pos hc
    exact ⟨names, hlayout hl, hin⟩
  cases h with
  | known _ => exact hf
  | beyond _ hlt =>
    refine ⟨hf.root, hf.length, nofun, ?_, ?_, hnode, hchild, hpos⟩
    · intro _
      have := UInt32.lt_iff_toNat_lt.1 hlt
      by_cases hz : f.nextId + 1 = 0
      · exact .inr (.inl hz)
      · refine .inl (UInt32.lt_iff_toNat_lt.2 ?_)
        change idLimit.toNat < (f.nextId + 1).toNat
        have hid := f.nextId.toNat_lt
        have hadd : (f.nextId + 1).toNat = (f.nextId.toNat + 1) % 2 ^ 32 := UInt32.toNat_add _ _
        have hne : (f.nextId + 1).toNat ≠ 0 := fun h => hz (UInt32.toNat_inj.1 h)
        omega
    · intro key id hk
      simp only [Function.update_apply] at hk
      split at hk
      · obtain rfl := by simpa using hk
        exact hlt
      · exact hf.overflow key id hk
  | panicked _ _ ha =>
    exact ⟨hf.root, hf.length, fun h => by simp [ha] at h, fun _ => .inr (.inr rfl), hf.overflow,
      hnode, hchild, hpos⟩
  | entered hk hle ha =>
    obtain ⟨hlen, ho, hpoison⟩ := hf.calm ha
    obtain ⟨names, hl⟩ := layout_of_calm hp ha
    have hle := UInt32.le_iff_toNat_le.1 hle
    rw [show idLimit.toNat = 16777215 from rfl] at hle
    refine ⟨hext _ _ hf.root, ?_, ?_, fun h => by simp [ha] at h, hf.overflow, ?_, ?_, hpos⟩
    · simp only [List.length_append, List.length_singleton]
      rw [show idLimit.toNat = 16777215 from rfl]
      omega
    · intro _
      refine ⟨?_, ho, hpoison⟩
      have hadd : (f.nextId + 1).toNat = (f.nextId.toNat + 1) % 2 ^ 32 := UInt32.toNat_add _ _
      simp only [List.length_append, List.length_singleton]
      omega
    · intro id s hs
      by_cases hlast : id = f.nextId
      · rw [hlast]
        exact ⟨_, hf.child_entered ha hl hext rfl⟩
      · refine hnode id s ?_
        rw [ShapeForge.shapeAt] at hs ⊢
        have hid := id.toNat_lt
        have hne : id.toNat ≠ f.nextId.toNat := fun h => hlast (UInt32.toNat_inj.1 h)
        have hindex : (id - 1).toNat ≠ f.shapes.length := by
          rw [UInt32.toNat_sub, show (1 : UInt32).toNat = 1 from rfl]
          omega
        by_cases hlt : (id - 1).toNat < f.shapes.length
        · rwa [List.getElem?_append_left hlt] at hs
        · rw [List.getElem?_eq_none (by simp; omega)] at hs
          cases hs
    · intro p' n' id ht
      simp only [Function.update_apply, packKey_inj] at ht
      split at ht
      · next heq =>
        obtain ⟨rfl, rfl⟩ := heq
        obtain rfl := by simpa using ht
        exact ⟨names, hlayout hl, hf.child_entered ha hl hext rfl⟩
      · exact hchild p' n' id ht

/-- Whatever a call returns has been handed out. -/
theorem handed_result (hf : Wf f) (hp : Handed f p) (h : Made f p n f' (some id)) :
    Handed f' id := by
  have hext : ∀ i s, f.shapeAt i = some s → f'.shapeAt i = some s := fun _ _ hs => h.shapeAt hs
  cases h with
  | known hk =>
    rw [ShapeForge.known] at hk
    split at hk
    · next ht =>
      obtain rfl := by simpa using hk
      obtain ⟨names, -, hc⟩ := hf.transition _ _ _ ht
      exact .inl ⟨_, hc⟩
    · split at hk
      · next ha => exact .inr ⟨hf.overflow _ _ hk, ha⟩
      · cases hk
  | beyond _ hlt => exact .inr ⟨hlt, rfl⟩
  | entered _ _ ha =>
    obtain ⟨names, hl⟩ := layout_of_calm hp ha
    exact .inl ⟨_, hf.child_entered ha hl hext rfl⟩

/-- The cache is filled with what a climb finds. -/
theorem keep_lookup (hf : Wf f) (id : ShapeId) (n : StringIndex) :
    Wf (f.lookupPosition id n).1 := by
  rw [ShapeForge.lookupPosition]
  split
  · exact hf
  · split
    · exact hf
    · cases hc : f.climbPosition id n with
      | none => exact hf
      | some found =>
        cases found with
        | none => exact hf
        | some pos =>
          have hl : ∃ names, Layout f id names := by
            cases hs : f.shapeAt id with
            | none => simp [ShapeForge.climbPosition, hs] at hc
            | some s => exact hf.node id s hs
          obtain ⟨names, hl⟩ := hl
          rw [hl.climbPosition (hf.le_length hl)] at hc
          have hsame : ∀ {i : ShapeId} {l : List StringIndex}, Layout f i l →
              Layout (f.remember (packKey id n) (some (some pos))) i l :=
            fun h => h.mono fun _ _ hs => hs
          refine ⟨hf.root, hf.length, hf.calm, hf.spent, hf.overflow, ?_, ?_, ?_⟩
          · intro i s hs
            obtain ⟨l, h⟩ := hf.node i s hs
            exact ⟨l, hsame h⟩
          · intro p' n' i ht
            obtain ⟨l, h, h'⟩ := hf.transition p' n' i ht
            exact ⟨l, hsame h, hsame h'⟩
          · intro i m pos' hp
            simp only [ShapeForge.remember, Function.update_apply, packKey_inj] at hp
            split at hp
            · next heq =>
              obtain ⟨rfl, rfl⟩ := heq
              obtain rfl := by simpa using hp
              exact ⟨names, hsame hl, by simpa using hc⟩
            · obtain ⟨l, h, hin⟩ := hf.position i m pos' hp
              exact ⟨l, hsame h, hin⟩

/-- A query changes nothing but the cache. -/
theorem handed_lookup {i : ShapeId} (hi : Handed f i) (id : ShapeId) (n : StringIndex) :
    Handed (f.lookupPosition id n).1 i := by
  have hsame : (f.lookupPosition id n).1.shapes = f.shapes ∧
      (f.lookupPosition id n).1.overflowActive = f.overflowActive := by
    rw [ShapeForge.lookupPosition]
    split
    · exact ⟨rfl, rfl⟩
    · split
      · exact ⟨rfl, rfl⟩
      · rw [ShapeForge.remember.eq_def]
        split
        · exact ⟨rfl, rfl⟩
        · exact ⟨rfl, rfl⟩
  rcases hi with ⟨names, hl⟩ | ⟨hlt, ha⟩
  · refine .inl ⟨names, hl.mono fun i s hs => ?_⟩
    rwa [ShapeForge.shapeAt, hsame.1]
  · exact .inr ⟨hlt, hsame.2.trans ha⟩

end Wf

namespace Session

/-- The tables are in order and every shape handed out is accounted for. -/
def Sound (s : Session) : Prop :=
  Wf s.forge ∧ ∀ id ∈ s.ids, Handed s.forge id

theorem sound_new : Sound new := by
  have hroot : ShapeForge.new.shapeAt emptyShapeId = some ShapeForge.root := rfl
  refine ⟨⟨hroot, by decide, fun _ => ⟨rfl, rfl, rfl⟩, nofun, nofun, ?_, nofun, nofun⟩, ?_⟩
  · intro id s hs
    have hid : id = emptyShapeId := by
      have hlt : (id - 1).toNat < 1 := by
        by_contra hge
        rw [show new.forge = ShapeForge.new from rfl, ShapeForge.shapeAt,
          List.getElem?_eq_none (by simp only [ShapeForge.new, List.length_singleton]; omega)] at hs
        cases hs
      have := id.toNat_lt
      rw [UInt32.toNat_sub, show (1 : UInt32).toNat = 1 from rfl] at hlt
      exact UInt32.toNat_inj.1 (show id.toNat = 1 by omega)
    exact hid ▸ ⟨[], .root hroot⟩
  · intro id hid
    obtain rfl : id = emptyShapeId := by simpa [new] using hid
    exact .inl ⟨[], .root hroot⟩

theorem sound_step (s : Session) (op : Op) (hs : Sound s) : Sound (s.step op) := by
  obtain ⟨hf, hids⟩ := hs
  cases op with
  | make p n =>
    rw [step]
    split
    · next hp =>
      have hmade := hf.made p n
      refine ⟨hf.keep (hids p hp) hmade, ?_⟩
      intro id hid
      rcases List.mem_append.1 hid with hnew | hold
      · rw [Option.mem_toList] at hnew
        exact hf.handed_result (hids p hp) (hnew ▸ hmade)
      · exact hmade.handed (hids id hold)
    · exact ⟨hf, hids⟩
  | lookup i n => exact ⟨hf.keep_lookup i n, fun id hid => Wf.handed_lookup (hids id hid) i n⟩

theorem sound_run (ops : List Op) : Sound (run step new ops) :=
  run_keeps Sound sound_step sound_new ops

end Session

/-! ### Stable positions -/

/-- A call that makes a shape of `p` by adding `n` keeps the slots: it
returns a shape in which `n` has the slot behind those of `p`, every name
of `p` has the slot it has in `p`, and no other name has one. -/
def StableSlots (f : ShapeForge) (p : ShapeId) (n : StringIndex) : Prop :=
  ∃ id count, (f.makeShape p n).2 = some id ∧ f.shapePropCount p = some count ∧
    ((f.makeShape p n).1.lookupPosition id n).2 = some (some count) ∧
    (∀ m, f.hasProperty p m = some true → ∃ slot, (f.lookupPosition p m).2 = some (some slot) ∧
      ((f.makeShape p n).1.lookupPosition id m).2 = some (some slot)) ∧
    (∀ m, m ≠ n → f.hasProperty p m = some false →
      ((f.makeShape p n).1.lookupPosition id m).2 = some none)

/-- What a call needs: a name that is not the reserved one and not yet
there, and a transition that exists or a number that fits. -/
structure Fits (f : ShapeForge) (p : ShapeId) (n : StringIndex) : Prop where
  named : n ≠ emptySentinel
  fresh : f.hasProperty p n = some false
  room : f.transitions (packKey p n) ≠ none ∨ (f.overflowActive = false ∧ f.nextId ≤ idLimit)

namespace Wf

variable {f : ShapeForge} {id p : ShapeId} {n : StringIndex} {names : List StringIndex}

/-- The layout decides. -/
theorem stableSlots_of_child {f' : ShapeForge} (hf : Wf f) (hp : f.poisoned = false)
    (hfit : Fits f p n) (hl : Layout f p names) (hm : f.makeShape p n = (f', some id))
    (hf' : Wf f') (hp' : f'.poisoned = false) (hc : Layout f' id (n :: names)) :
    StableSlots f p n := by
  refine ⟨id, names.length, by rw [hm], ?_, ?_, ?_, ?_⟩
  · rw [ShapeForge.shapePropCount, hp, if_neg (by decide), hl.depthOf]
  · rw [hm, hf'.lookupPosition hp' hc, positionIn_cons_self hfit.named]
  · intro m hhas
    have hne : m ≠ n := by
      rintro rfl
      rw [hfit.fresh] at hhas
      cases hhas
    have hmem : m ≠ emptySentinel ∧ m ∈ names := by
      rw [hf.hasProperty hp hl] at hhas
      simpa using hhas
    cases hslot : positionIn names m with
    | none => exact absurd hmem (positionIn_eq_none_iff.1 hslot)
    | some slot =>
      refine ⟨slot, ?_, ?_⟩
      · rw [hf.lookupPosition hp hl, hslot]
      · rw [hm, hf'.lookupPosition hp' hc, positionIn_cons_of_ne hfit.named hne, hslot]
  · intro m hne hhas
    have hmem : ¬(m ≠ emptySentinel ∧ m ∈ names) := by
      rw [hf.hasProperty hp hl] at hhas
      simpa using hhas
    rw [hm, hf'.lookupPosition hp' hc, positionIn_cons_of_ne hfit.named hne,
      positionIn_eq_none_iff.2 hmem]

theorem not_poisoned_of_hasProperty {b : Bool} (h : f.hasProperty p n = some b) :
    f.poisoned = false := by
  rw [ShapeForge.hasProperty] at h
  split at h
  · cases h
  · next hp => simpa using hp

theorem stableSlots_of_fits (hf : Wf f) (hpid : Handed f p) (hfit : Fits f p n) :
    StableSlots f p n := by
  have hp := not_poisoned_of_hasProperty hfit.fresh
  cases ht : f.transitions (packKey p n) with
  | some id =>
    obtain ⟨names, hl, hc⟩ := hf.transition p n id ht
    have hm : f.makeShape p n = (f, some id) := by
      simp only [ShapeForge.makeShape, ShapeForge.known, ht]
    exact hf.stableSlots_of_child hp hfit hl hm hf hp hc
  | none =>
    obtain ⟨ha, hle⟩ := hfit.room.resolve_left (not_not.2 ht)
    obtain ⟨names, hl⟩ := layout_of_calm hpid ha
    have hmade := hf.made p n
    generalize hm : f.makeShape p n = res at hmade
    obtain ⟨f', r⟩ := res
    dsimp only at hmade
    have hf' := hf.keep hpid hmade
    have hext : ∀ i s, f.shapeAt i = some s → f'.shapeAt i = some s :=
      fun _ _ hs => hmade.shapeAt hs
    cases hmade with
    | known hk => simp [ShapeForge.known, ht, ha] at hk
    | beyond _ hlt => exact absurd hlt (UInt32.not_lt.2 hle)
    | panicked _ _ hactive => simp [ha] at hactive
    | entered _ _ _ =>
      exact hf.stableSlots_of_child hp hfit hl hm hf' hp (hf.child_entered ha hl hext rfl)

/-- Only names of nodes in the tree have a slot. -/
theorem layout_of_found (hf : Wf f) {slot : Nat}
    (h : (f.lookupPosition id n).2 = some (some slot)) :
    ∃ names, Layout f id names ∧ positionIn names n = some slot := by
  cases hc : f.positions (packKey id n) with
  | some pos =>
    obtain rfl : pos = slot := by simpa [ShapeForge.lookupPosition, hc] using h
    exact hf.position id n pos hc
  | none =>
    cases hp : f.poisoned with
    | true => simp [ShapeForge.lookupPosition, hc, hp] at h
    | false =>
      have hclimb : f.climbPosition id n = some (some slot) := by
        simpa [ShapeForge.lookupPosition, hc, hp] using h
      cases hs : f.shapeAt id with
      | none => simp [ShapeForge.climbPosition, hs] at hclimb
      | some s =>
        obtain ⟨names, hl⟩ := hf.node id s hs
        rw [hl.climbPosition (hf.le_length hl)] at hclimb
        exact ⟨names, hl, by simpa using hclimb⟩

/-- A shape that is not in the tree has no properties. -/
theorem hasProperty_beyond (hf : Wf f) (hp : f.poisoned = false) (h : idLimit < p) :
    f.hasProperty p n = some false := by
  rw [ShapeForge.hasProperty, hp, if_neg (by decide), ShapeForge.climbHas, hf.shapeAt_eq_none h]

theorem lookupPosition_beyond (hf : Wf f) (hp : f.poisoned = false) (h : idLimit < p) :
    (f.lookupPosition p n).2 = some none := by
  rw [ShapeForge.lookupPosition]
  cases hc : f.positions (packKey p n) with
  | some pos =>
    obtain ⟨names, hl, -⟩ := hf.position p n pos hc
    obtain ⟨s, hs, -⟩ := hl.shapeAt
    rw [hf.shapeAt_eq_none h] at hs
    cases hs
  | none =>
    simp only [hp, Bool.false_eq_true, if_false, ShapeForge.climbPosition, hf.shapeAt_eq_none h]

theorem layout_le_idLimit (hf : Wf f) (h : Layout f id names) : ¬idLimit < id := by
  intro hlt
  obtain ⟨s, hs, -⟩ := h.shapeAt
  rw [hf.shapeAt_eq_none hlt] at hs
  cases hs

theorem fits_of_stableSlots (hf : Wf f) (hpid : Handed f p) (h : StableSlots f p n) :
    Fits f p n := by
  obtain ⟨id, count, hid, hcount, hpos, hkeep, -⟩ := h
  have hmade := hf.made p n
  have hf' := hf.keep hpid hmade
  obtain ⟨names', hl', hin⟩ := hf'.layout_of_found hpos
  have hp : f.poisoned = false := by
    cases hp : f.poisoned with
    | false => rfl
    | true => simp [ShapeForge.shapePropCount, hp] at hcount
  refine ⟨?_, ?_, ?_⟩
  · rintro rfl
    rw [positionIn_eq_none_iff.2 (fun h => h.1 rfl)] at hin
    cases hin
  · rcases hpid with ⟨names, hl⟩ | ⟨hlt, -⟩
    · cases hhas : f.hasProperty p n with
      | none => simp [hf.hasProperty hp hl] at hhas
      | some b =>
        cases b with
        | false => rfl
        | true =>
          -- The name would have two slots.
          obtain ⟨slot, hslot, hslot'⟩ := hkeep n hhas
          rw [hpos] at hslot'
          obtain rfl : count = slot := by simpa using hslot'
          rw [hf.lookupPosition hp hl] at hslot
          have hlt := positionIn_lt (Option.some.inj hslot)
          rw [ShapeForge.shapePropCount, hp, if_neg (by decide), hl.depthOf] at hcount
          obtain rfl : names.length = count := by simpa using hcount
          omega
    · exact hf.hasProperty_beyond hp hlt
  · have hle := hf'.layout_le_idLimit hl'
    generalize f.makeShape p n = res at hmade hid
    obtain ⟨f', r⟩ := res
    obtain rfl : r = some id := hid
    dsimp only at hmade
    cases hmade with
    | known hk =>
      left
      intro ht
      simp only [ShapeForge.known, ht] at hk
      split at hk
      · exact hle (hf.overflow _ _ hk)
      · cases hk
    | beyond _ hlt => exact absurd hlt hle
    | entered _ hroom ha => exact .inr ⟨ha, hroom⟩

end Wf

/-- After any calls, the slots are stable under the next one if and only
if it fits. -/
theorem stable_slots_iff (ops : List Op) {p : ShapeId}
    (hp : p ∈ (run Session.step Session.new ops).ids) (n : StringIndex) :
    StableSlots (run Session.step Session.new ops).forge p n ↔
      Fits (run Session.step Session.new ops).forge p n := by
  obtain ⟨hf, hids⟩ := Session.sound_run ops
  exact ⟨hf.fits_of_stableSlots (hids p hp), hf.stableSlots_of_fits (hids p hp)⟩

/-- The second name of an object. -/
theorem stable_slots_second :
    StableSlots (run Session.step Session.new [.make emptyShapeId 7]).forge 2 9 :=
  (stable_slots_iff [.make emptyShapeId 7] (by decide) 9).2
    ⟨by decide, by decide, .inr (by decide)⟩

/-! ### Beyond 24 bits -/

/-- As many shapes as there are numbers for. -/
def manyShapes (k : Nat) : List Op :=
  (List.range k).map fun i => .make emptyShapeId (UInt32.ofNat i)

/-- The shapes under the root are numbered in turn. -/
theorem forge_manyShapes (k : Nat) (hk : k + 2 ≤ 2 ^ 24) :
    emptyShapeId ∈ (run Session.step Session.new (manyShapes k)).ids ∧
      (run Session.step Session.new (manyShapes k)).forge.overflowActive = false ∧
      (run Session.step Session.new (manyShapes k)).forge.nextId.toNat = k + 2 ∧
      ∀ j, k ≤ j → j < 2 ^ 32 →
        (run Session.step Session.new (manyShapes k)).forge.transitions
          (packKey emptyShapeId (UInt32.ofNat j)) = none := by
  induction k with
  | zero => exact ⟨by decide, rfl, rfl, fun _ _ _ => rfl⟩
  | succ k ih =>
    obtain ⟨hmem, ha, hnext, ht⟩ := ih (by omega)
    have hf := (Session.sound_run (manyShapes k)).1
    have happ : manyShapes (k + 1)
        = manyShapes k ++ [.make emptyShapeId (UInt32.ofNat k)] := by
      simp [manyShapes, List.range_succ]
    rw [happ, run_append, run_cons, run_nil]
    generalize run Session.step Session.new (manyShapes k) = s at hmem ha hnext ht hf
    rw [Session.step, if_pos hmem]
    refine ⟨List.mem_append_right _ hmem, ?_⟩
    have hmade := hf.made emptyShapeId (UInt32.ofNat k)
    generalize s.forge.makeShape emptyShapeId (UInt32.ofNat k) = res at hmade
    obtain ⟨f', r⟩ := res
    dsimp only at hmade
    have hle : s.forge.nextId ≤ idLimit := by
      rw [UInt32.le_iff_toNat_le, hnext, show idLimit.toNat = 16777215 from rfl]
      omega
    cases hmade with
    | known hk => simp [ShapeForge.known, ht k (by omega) (by omega), ha] at hk
    | beyond _ hlt => exact absurd hlt (UInt32.not_lt.2 hle)
    | panicked _ _ hactive => simp [ha] at hactive
    | entered _ _ _ =>
      refine ⟨ha, ?_, ?_⟩
      · have hadd : (s.forge.nextId + 1).toNat = (s.forge.nextId.toNat + 1) % 2 ^ 32 :=
          UInt32.toNat_add _ _
        change (s.forge.nextId + 1).toNat = _
        omega
      · intro j hj hlt
        have hne : packKey emptyShapeId (UInt32.ofNat j)
            ≠ packKey emptyShapeId (UInt32.ofNat k) := by
          intro heq
          have := congrArg UInt32.toNat (packKey_inj.1 heq).2
          rw [UInt32.toNat_ofNat_of_lt' hlt, UInt32.toNat_ofNat_of_lt' (Nat.lt_of_le_of_lt
            (Nat.le_of_succ_le hj) hlt)] at this
          omega
        change Function.update s.forge.transitions _ _ _ = _
        rw [Function.update_of_ne hne]
        exact ht j (by omega) hlt

/-- When the numbers are used up, a new property of an object gets a shape
in which it cannot be found. -/
theorem slots_lost_beyond_24_bits : ∃ k, k + 2 = 2 ^ 24 ∧
    emptyShapeId ∈ (run Session.step Session.new (manyShapes k)).ids ∧
      (run Session.step Session.new (manyShapes k)).forge.hasProperty emptyShapeId
        0x01000000 = some false ∧
      ((run Session.step Session.new (manyShapes k)).forge.makeShape emptyShapeId
        0x01000000).2 = some 0x01000000 ∧
      (((run Session.step Session.new (manyShapes k)).forge.makeShape emptyShapeId
        0x01000000).1.lookupPosition 0x01000000 0x01000000).2 = some none := by
  obtain ⟨k, hk⟩ : ∃ k, k + 2 = 2 ^ 24 := ⟨16777214, rfl⟩
  refine ⟨k, hk, ?_⟩
  obtain ⟨hmem, ha, hnext, ht⟩ := forge_manyShapes k (Nat.le_of_eq hk)
  have hf := (Session.sound_run (manyShapes k)).1
  generalize run Session.step Session.new (manyShapes k) = s at hmem ha hnext ht hf ⊢
  have hp := (hf.calm ha).2.2
  have hid : s.forge.nextId = 0x01000000 :=
    UInt32.toNat_inj.1 (by rw [hnext, hk]; decide)
  have hlate : idLimit < (0x01000000 : ShapeId) := by decide
  have hmade := hf.made emptyShapeId 0x01000000
  have hf' := hf.keep (.inl ⟨[], .root hf.root⟩) hmade
  refine ⟨hmem, ?_, ?_⟩
  · rw [hf.hasProperty hp (.root hf.root)]
    rfl
  · generalize s.forge.makeShape emptyShapeId 0x01000000 = res at hmade hf' ⊢
    obtain ⟨f', r⟩ := res
    dsimp only at hmade hf' ⊢
    have ht : s.forge.transitions (packKey emptyShapeId 0x01000000) = none :=
      ht 0x01000000 (by omega) (by omega)
    cases hmade with
    | known hknown => simp [ShapeForge.known, ht, ha] at hknown
    | beyond _ _ => exact ⟨by rw [hid], hf'.lookupPosition_beyond hp hlate⟩
    | panicked _ _ hactive => simp [ha] at hactive
    | entered _ hle _ => exact absurd (hid ▸ hlate) (UInt32.not_lt.2 hle)

end OxideJS.Kernel
