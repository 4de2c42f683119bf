import OxideJS.Ir.Inst
import Mathlib.Logic.Function.Basic

/-!
Deleting instructions whose result nobody reads.

`pass_b_dead_code` counts, for every register, the reads by instructions
that are still there. A pure instruction whose register is not read goes
away, its own reads are taken off the counts, and the instructions that
write a register whose count has come to zero are queued to be looked at.
An instruction enters the queue once at most.

Closures read variables of the enclosing function by their register, so a
`STORE_VAR` into a register that a nested function names is kept, and so
is every instruction a label stands in front of.

Bit maps and tables that are indexed by instructions or registers are
functions here.
-/

namespace OxideJS.Dce

/-- The nested functions of a function, as far as the pass reads them. -/
inductive NestedFn where
  | mk (insts : List Inst) (nested : List NestedFn)

/-- The variable slot that an instruction of a nested function names. -/
def slotRef (i : Inst) : Option Nat :=
  match i.op, i.a, i.rd with
  | .loadVar, .reg r, _ => some r
  | .storeVar, _, .reg r => some r
  | _, _, _ => none

mutual

def NestedFn.slots : NestedFn → List Nat
  | .mk insts nested => insts.filterMap slotRef ++ collectEscapedSlots nested

def collectEscapedSlots : List NestedFn → List Nat
  | [] => []
  | fn :: rest => fn.slots ++ collectEscapedSlots rest

end

/-- What the pass is run on. -/
structure Code where
  f : IRFunction
  nested : List NestedFn

namespace Code

variable (c : Code)

def len : Nat := c.f.insts.length

def defAt (i : Nat) : Option Nat := (c.f.insts[i]?).bind Inst.defReg

def usesAt (i : Nat) : List Nat := (c.f.insts[i]?).elim [] Inst.useRegs

def pureAt (i : Nat) : Bool := (c.f.insts[i]?).any (·.isPure c.f)

def labelTarget (i : Nat) : Bool := c.f.labelPos.contains (some i)

def slotEscapes (i r : Nat) : Bool :=
  (c.f.insts[i]?).any (fun inst => inst.op == .storeVar && inst.rd matches .reg _) &&
    (collectEscapedSlots c.nested).contains r

/-- How often the instructions that are kept read a register. -/
def useCounts (keep : Nat → Bool) (r : Nat) : Nat :=
  (((List.range c.len).filter keep).flatMap c.usesAt).count r

/-- The kept instructions that write a register. -/
def definers (keep : Nat → Bool) (r : Nat) : List Nat :=
  (List.range c.len).filter fun i => keep i && c.defAt i == some r

/-- The test for deletion. -/
def isDead (keep : Nat → Bool) (useCount : Nat → Nat) (i : Nat) : Bool :=
  keep i && !c.labelTarget i &&
    match c.defAt i with
    | some r => useCount r == 0 && !c.slotEscapes i r && c.pureAt i
    | none => false

end Code

/-- The tables of the pass. -/
structure Sweep where
  keep : Nat → Bool
  useCount : Nat → Nat
  inQueue : Nat → Bool
  queue : List Nat

namespace Sweep

variable (c : Code) (keep₀ : Nat → Bool)

/-- The tables before the loop. -/
def start (keep : Nat → Bool) : Sweep where
  keep := keep
  useCount := c.useCounts keep
  inQueue := fun i => decide (i < c.len) && c.isDead keep (c.useCounts keep) i
  queue := (List.range c.len).filter (c.isDead keep (c.useCounts keep))

def enqueueOne (s : Sweep) (d : Nat) : Sweep :=
  if s.keep d && !s.inQueue d then
    { s with inQueue := Function.update s.inQueue d true, queue := s.queue ++ [d] }
  else s

def enqueue (s : Sweep) (ds : List Nat) : Sweep := ds.foldl enqueueOne s

/-- One read of a deleted instruction comes off the counts. -/
def dropUse (s : Sweep) (u : Nat) : Sweep :=
  let s := { s with useCount := Function.update s.useCount u (s.useCount u - 1) }
  if s.useCount u = 0 then s.enqueue (c.definers keep₀ u) else s

/-- An instruction from the queue. -/
def process (s : Sweep) (i : Nat) : Sweep :=
  match c.isDead s.keep s.useCount i, c.defAt i with
  | true, some r =>
    ((c.usesAt i).foldl (dropUse c keep₀)
      { s with keep := Function.update s.keep i false }).enqueue (c.definers keep₀ r)
  | _, _ => s

/-- One round of the loop. The instruction at some place of the queue is
taken; the pass takes the first. -/
def round (s : Sweep) (place : Nat) : Sweep :=
  match s.queue[place % s.queue.length]? with
  | some i =>
    ({ s with queue := s.queue.eraseIdx (place % s.queue.length) } : Sweep).process c keep₀ i
  | none => s

/-- So many rounds, with the places chosen one after the other. -/
def drain (order : Nat → Nat) : Nat → Sweep → Sweep
  | 0, s => s
  | k + 1, s => (drain order k s).round c keep₀ (order k)

end Sweep

/-- The pass. The loop is over after as many rounds as there are
instructions. -/
def passBDeadCode (c : Code) (keep : Nat → Bool) : Nat → Bool :=
  (Sweep.drain c keep (fun _ => 0) c.len (.start c keep)).keep

/-! ### The definition the pass is measured against -/

/-- A full scan: everything dead goes. -/
def scan (c : Code) (keep : Nat → Bool) : Nat → Bool :=
  fun i => keep i && !c.isDead keep (c.useCounts keep) i

/-- Full scans, until one changes nothing. -/
def fullScans (c : Code) : Nat → (Nat → Bool) → Nat → Bool
  | 0, keep => keep
  | k + 1, keep =>
    if (List.range c.len).all fun i => scan c keep i == keep i then keep
    else fullScans c k (scan c keep)

end OxideJS.Dce
