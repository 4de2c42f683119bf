import Mathlib.Algebra.Group.Nat.Defs
import OxideJS.Bytecode.OpCode

/-!
The intermediate representation between the emitter and the byte code:
operands, instructions, and the register contract every later pass reads
off the opcode table.

Registers are natural numbers here. The Rust side keeps them in `u32`
and narrows them only after allocation, long after the passes modelled
in this development have run.
-/

namespace OxideJS

/-- An operand. The two special registers have names of their own, so
that no bare index `254` or `255` ever appears in the representation. -/
inductive Operand where
  | reg (r : Nat)
  | const (idx : Nat)
  | label (id : Nat)
  | imm (n : Nat)
  | this
  | newTarget
  | none
  deriving DecidableEq, Repr

/-- The register an operand stands for. An unused slot reads as register
`0`, as the byte-code writer encodes it; constants, immediates and labels
are not registers. -/
def regOf : Operand → Option Nat
  | .reg r => some r
  | .this => some 254
  | .newTarget => some 255
  | .none => some 0
  | .const _ => Option.none
  | .imm _ => Option.none
  | .label _ => Option.none

/-- An instruction: an opcode, its three operand slots and the extension
words that follow it. -/
structure Inst where
  op : OpCode
  rd : Operand := .none
  a : Operand := .none
  b : Operand := .none
  ext : List Nat := []
  deriving DecidableEq, Repr

namespace Inst

def slotOperand (i : Inst) : Slot → Operand
  | .rd => i.rd
  | .a => i.a
  | .b => i.b

/-- The register an instruction writes. -/
def defReg (i : Inst) : Option Nat :=
  match i.op.semantics.defSlot with
  | some (.slot s) => regOf (i.slotOperand s)
  | some .reg0 => some 0
  | _ => none

/-- The registers one entry of a use row stands for. The first extension
word is the argument count of a call, the marked register of an accessor
definition or the brand of a private access, depending on the row. -/
def specRegs (i : Inst) : SlotSpec → List Nat
  | .slot s => (regOf (i.slotOperand s)).toList
  | .reg0 => [0]
  | .range s =>
    match regOf (i.slotOperand s) with
    | some first => (List.range (i.ext.head?.getD 0)).map (first + ·)
    | none => []
  | .spreadArgs => i.ext.tail.map (· % 2 ^ 31)
  | .templateExprs => (i.ext.tail.filter (· / 2 ^ 31 = 1)).map (· % 2 ^ 31)
  | .brandReg => if i.ext.head?.getD 0 = 0 then [] else [i.ext.head?.getD 0]
  | .extReg => [i.ext.head?.getD 0 % 2 ^ 31]

/-- The registers an instruction reads, in the order of the table. -/
def useRegs (i : Inst) : List Nat :=
  i.op.semantics.uses.flatMap i.specRegs

/-- A label is only ever carried in the third slot. -/
def target (i : Inst) : Option Nat :=
  match i.b with
  | .label l => some l
  | _ => none

end Inst

/-- Entries of a function's constant pool. -/
inductive Constant where
  | number (x : Float)
  | int (n : Int32)
  | bigInt (n : Int)
  | string (s : String)
  | boolean (b : Bool)
  | null
  | undefined
  deriving DecidableEq

/-- The parts of a compiled function that the passes read and rewrite.
`labelPos` sends a label to the index of the instruction it stands in
front of; a label at the very end has the length of the list. -/
structure IRFunction where
  insts : List Inst := []
  labelPos : List (Option Nat) := []
  constants : List Constant := []
  isDerivedConstructor : Bool := false
  isTopLevel : Bool := false
  constOverflow : Bool := false

namespace IRFunction

/-- The instruction a label stands in front of. -/
def labelTarget (f : IRFunction) (l : Nat) : Option Nat :=
  (f.labelPos[l]?).join

end IRFunction

/-- An instruction has no observable effect beyond the register it writes.
Reading `this` in a derived constructor may throw. -/
def Inst.isPure (i : Inst) (f : IRFunction) : Bool :=
  i.op.semantics.pure && !(i.op == .loadVar && i.a == .this && f.isDerivedConstructor)

end OxideJS
