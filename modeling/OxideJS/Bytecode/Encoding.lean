import Mathlib.Algebra.Group.Int.Defs
import Mathlib.Algebra.Group.Nat.Defs
import OxideJS.Bytecode.OpCode
import OxideJS.Lib.Framing

/-!
The words of the byte code.

An instruction is one 32-bit word: the opcode in its low byte, then the
three operand bytes `rd`, `a` and `b`, the last two of which also serve
as one 16-bit number. Some instructions are followed by extension words,
and the number of those is computed from the instruction word and the
word after it, the same way by the disassembler, by the pass that clears
inline caches and by the handlers that consume them.
-/

namespace OxideJS

open Framing

/-- The byte of an opcode. -/
def OpCode.byte : OpCode → Nat
  | .add => 0x00 | .sub => 0x01 | .mul => 0x02 | .div => 0x03 | .mod => 0x04 | .neg => 0x05
  | .compoundAdd => 0x06 | .compoundSub => 0x07 | .compoundMul => 0x08 | .compoundDiv => 0x09
  | .compoundMod => 0x0A | .compoundExp => 0x0B | .exp => 0x94 | .mov => 0x0C | .spill => 0x0D
  | .unspill => 0x0E | .spreadObject => 0x0F | .eq => 0x10 | .neq => 0x11 | .lt => 0x12
  | .gt => 0x13 | .lte => 0x14 | .gte => 0x15 | .inOp => 0x16 | .not => 0x17 | .and => 0x18
  | .or => 0x19 | .strictEq => 0x1A | .strictNeq => 0x1C | .unaryPlus => 0x1D | .brk => 0x1E
  | .cont => 0x1F | .jmp => 0x20 | .jmpIfFalse => 0x21 | .jmpIfTrue => 0x22 | .forOfInit => 0x23
  | .forOfNext => 0x24 | .incPre => 0x25 | .incPost => 0x26 | .decPre => 0x27 | .decPost => 0x28
  | .forInInit => 0x29 | .forInNext => 0x2A | .forInDone => 0x2B | .disposeRegister => 0x2C
  | .forInCleanup => 0x2D | .throw => 0x2E | .tryBegin => 0x2F | .tryEnd => 0x33
  | .tryFinallyBegin => 0x34 | .tryFinallyEnter => 0x1B | .tryFinallyEnd => 0x35
  | .forOfDone => 0x36 | .forOfClose => 0x37 | .templateStr => 0x38 | .getTemplateObject => 0x97
  | .deletePropStatic => 0x39 | .deletePropDynamic => 0x3A | .instanceof => 0x3B
  | .makeCell => 0x3C | .cellGet => 0x3D | .restObject => 0x3E | .cellSet => 0x3F
  | .loadVar => 0x30 | .storeVar => 0x31 | .loadConst => 0x32 | .loadGlobal => 0x95
  | .loadGlobalTypeof => 0x96 | .call => 0x40 | .ret => 0x41 | .callNative => 0x42
  | .newExpression => 0x43 | .superCall => 0x44 | .superGetProp => 0x45
  | .superStaticGetProp => 0x46 | .setHomeObject => 0x47 | .defineAccessor => 0x48
  | .loadUpvalue => 0x49 | .createClosure => 0x4A | .createRegexp => 0x4B | .storeUpvalue => 0x4C
  | .callSpread => 0x4D | .newExpressionSpread => 0x4E | .superCallSpread => 0x4F
  | .icGetProp => 0x50 | .icSetProp => 0x51 | .getProp => 0x52 | .getPropDynamic => 0x53
  | .setProp => 0x54 | .setPropDynamic => 0x55 | .newObject => 0x56 | .newArray => 0x57
  | .setElem => 0x58 | .setPropBatch => 0x92 | .concatN => 0x93 | .memberInc => 0x59
  | .memberDec => 0x5A | .dynMemberInc => 0x5B | .dynMemberDec => 0x5C
  | .compoundMemberAdd => 0x5D | .compoundMemberSub => 0x5E | .compoundMemberMul => 0x5F
  | .compoundMemberDiv => 0x60 | .compoundMemberMod => 0x61 | .compoundMemberExp => 0x62
  | .createArguments => 0x63 | .createRestArray => 0x6E | .disposeMark => 0x6A
  | .disposePop => 0x6B | .superPutProp => 0x6C | .defineProp => 0x6D | .defineGlobalProp => 0x6F
  | .definePropAttrs => 0x90 | .defineAccessorAttrs => 0x91 | .defineGlobalPropC => 0x98
  | .defineGlobalPropIfAbsent => 0x99 | .defineGlobalPropCIfAbsent => 0x9A
  | .newSessionObject => 0x9B | .deleteGlobalPropC => 0x9C | .canDeclareGlobalFunc => 0x9D
  | .defineGlobalFuncBind => 0x9E | .defineAccessorAttrsDynamic => 0x9F | .loadGlobalLex => 0xA0
  | .storeGlobalLex => 0xA1 | .compoundMemberBitAnd => 0x64 | .compoundMemberBitOr => 0x65
  | .compoundMemberBitXor => 0x66 | .compoundMemberShl => 0x67 | .compoundMemberShr => 0x68
  | .compoundMemberUshr => 0x69 | .getPrivate => 0x72 | .setPrivate => 0x73
  | .initPrivate => 0x74 | .privateBrandIn => 0x75 | .yield => 0x76 | .suspendBody => 0x77
  | .yieldStar => 0x78 | .await => 0x79 | .forAwaitOfInit => 0x7A | .forAwaitOfNext => 0x7B
  | .forAwaitOfDone => 0x7C | .forAwaitOfClose => 0x7D | .makeCellFresh => 0x7E
  | .defineAccessorDynamic => 0x7F | .bitAnd => 0x80 | .bitOr => 0x81 | .bitXor => 0x82
  | .shl => 0x83 | .shr => 0x84 | .ushr => 0x85 | .bitNot => 0x86 | .toObject => 0x87
  | .compoundAnd => 0x88 | .compoundOr => 0x89 | .compoundXor => 0x8A | .compoundShl => 0x8B
  | .compoundShr => 0x8C | .compoundUshr => 0x8D | .nullish => 0x8E | .jmpIfNullish => 0x8F
  | .nop => 0xF0 | .halt => 0xF1 | .typeof => 0xF2 | .void => 0xF3
  | .defineGlobalPropCStrict => 0xF5 | .setPropDynamicStrict => 0xF4

/-- The rows of the table the conversions are generated from. -/
def OpCode.rows : List OpCode :=
  [.add, .sub, .mul, .div, .mod, .neg, .compoundAdd, .compoundSub, .compoundMul, .compoundDiv,
   .compoundMod, .compoundExp, .exp, .mov, .spill, .unspill, .spreadObject, .eq, .neq, .lt, .gt,
   .lte, .gte, .inOp, .not, .and, .or, .strictEq, .strictNeq, .unaryPlus, .brk, .cont, .jmp,
   .jmpIfFalse, .jmpIfTrue, .forOfInit, .forOfNext, .incPre, .incPost, .decPre, .decPost,
   .forInInit, .forInNext, .forInDone, .disposeRegister, .forInCleanup, .throw, .tryBegin,
   .tryEnd, .tryFinallyBegin, .tryFinallyEnter, .tryFinallyEnd, .forOfDone, .forOfClose,
   .templateStr, .getTemplateObject, .deletePropStatic, .deletePropDynamic, .instanceof,
   .makeCell, .cellGet, .restObject, .cellSet, .loadVar, .storeVar, .loadConst, .loadGlobal,
   .loadGlobalTypeof, .call, .ret, .callNative, .newExpression, .superCall, .superGetProp,
   .superStaticGetProp, .setHomeObject, .defineAccessor, .loadUpvalue, .createClosure,
   .createRegexp, .storeUpvalue, .callSpread, .newExpressionSpread, .superCallSpread, .icGetProp,
   .icSetProp, .getProp, .getPropDynamic, .setProp, .setPropDynamic, .newObject, .newArray,
   .setElem, .setPropBatch, .concatN, .memberInc, .memberDec, .dynMemberInc, .dynMemberDec,
   .compoundMemberAdd, .compoundMemberSub, .compoundMemberMul, .compoundMemberDiv,
   .compoundMemberMod, .compoundMemberExp, .createArguments, .createRestArray, .disposeMark,
   .disposePop, .superPutProp, .defineProp, .defineGlobalProp, .definePropAttrs,
   .defineAccessorAttrs, .defineGlobalPropC, .defineGlobalPropIfAbsent,
   .defineGlobalPropCIfAbsent, .newSessionObject, .deleteGlobalPropC, .canDeclareGlobalFunc,
   .defineGlobalFuncBind, .defineAccessorAttrsDynamic, .loadGlobalLex, .storeGlobalLex,
   .compoundMemberBitAnd, .compoundMemberBitOr, .compoundMemberBitXor, .compoundMemberShl,
   .compoundMemberShr, .compoundMemberUshr, .getPrivate, .setPrivate, .initPrivate,
   .privateBrandIn, .yield, .suspendBody, .yieldStar, .await, .forAwaitOfInit, .forAwaitOfNext,
   .forAwaitOfDone, .forAwaitOfClose, .makeCellFresh, .defineAccessorDynamic, .bitAnd, .bitOr,
   .bitXor, .shl, .shr, .ushr, .bitNot, .toObject, .compoundAnd, .compoundOr, .compoundXor,
   .compoundShl, .compoundShr, .compoundUshr, .nullish, .jmpIfNullish, .nop, .halt, .typeof,
   .void, .defineGlobalPropCStrict, .setPropDynamicStrict]

/-- The opcode of a byte, when the byte is one of the table's. -/
def OpCode.ofByte (v : Nat) : Option OpCode :=
  OpCode.rows.find? fun op => op.byte == v

theorem OpCode.byte_lt (op : OpCode) : op.byte < 256 := by
  cases op <;> decide

theorem OpCode.ofByte_byte (op : OpCode) : OpCode.ofByte op.byte = some op := by
  cases op <;> rfl

/-- One word of byte code, an instruction or an extension word. -/
abbrev Instr := UInt32

/-- The word of an opcode and three operand bytes. The arguments are
narrowed to a byte the way the casts at the call sites narrow them. -/
def encode (op : OpCode) (rd a b : Nat) : Instr :=
  UInt32.ofNat (b % 256 * 2 ^ 24 + a % 256 * 2 ^ 16 + rd % 256 * 2 ^ 8 + op.byte)

namespace Instr

/-- The opcode in the low byte; a byte that is no opcode reads as `NOP`. -/
def opcode (w : Instr) : OpCode := (OpCode.ofByte (w.toNat % 256)).getD .nop

def rd (w : Instr) : Nat := w.toNat / 2 ^ 8 % 256

def a (w : Instr) : Nat := w.toNat / 2 ^ 16 % 256

def b (w : Instr) : Nat := w.toNat / 2 ^ 24 % 256

/-- The two last operand bytes as one number. -/
def imm16 (w : Instr) : Nat := w.toNat / 2 ^ 16 % 2 ^ 16

/-- The two last operand bytes as a signed number. -/
def offset16 (w : Instr) : Int :=
  if w.imm16 < 2 ^ 15 then w.imm16 else (w.imm16 : Int) - 2 ^ 16

end Instr

/-! ### Reading back what was encoded -/

theorem toNat_encode (op : OpCode) (rd a b : Nat) :
    (encode op rd a b).toNat =
      b % 256 * 2 ^ 24 + a % 256 * 2 ^ 16 + rd % 256 * 2 ^ 8 + op.byte := by
  have hop := op.byte_lt
  rw [encode, UInt32.toNat_ofNat']
  omega

@[simp] theorem opcode_encode (op : OpCode) (rd a b : Nat) : (encode op rd a b).opcode = op := by
  have hop := op.byte_lt
  have hlow : (encode op rd a b).toNat % 256 = op.byte := by
    rw [toNat_encode]
    omega
  rw [Instr.opcode, hlow, OpCode.ofByte_byte]
  rfl

@[simp] theorem rd_encode (op : OpCode) (rd a b : Nat) : (encode op rd a b).rd = rd % 256 := by
  have hop := op.byte_lt
  rw [Instr.rd, toNat_encode]
  omega

@[simp] theorem a_encode (op : OpCode) (rd a b : Nat) : (encode op rd a b).a = a % 256 := by
  have hop := op.byte_lt
  rw [Instr.a, toNat_encode]
  omega

@[simp] theorem b_encode (op : OpCode) (rd a b : Nat) : (encode op rd a b).b = b % 256 := by
  have hop := op.byte_lt
  rw [Instr.b, toNat_encode]
  omega

theorem imm16_encode (op : OpCode) (rd a b : Nat) :
    (encode op rd a b).imm16 = b % 256 * 2 ^ 8 + a % 256 := by
  have hop := op.byte_lt
  rw [Instr.imm16, toNat_encode]
  omega

/-- A number split over the two last operand bytes is read back up to its
low sixteen bits. -/
theorem imm16_encode_split (op : OpCode) (rd n : Nat) :
    (encode op rd n (n / 2 ^ 8)).imm16 = n % 2 ^ 16 := by
  rw [imm16_encode]
  omega

theorem Instr.imm16_lt (w : Instr) : w.imm16 < 2 ^ 16 :=
  Nat.mod_lt _ (by decide)

/-- A word is its low byte, its `rd` and its index. -/
theorem toNat_eq_fields (w : Instr) :
    w.toNat = w.imm16 * 2 ^ 16 + w.rd * 2 ^ 8 + w.toNat % 256 := by
  have h : w.toNat < 2 ^ 32 := w.toNat_lt
  simp only [Instr.imm16, Instr.rd]
  omega

/-! ### Extension words -/

/-- Slots of an inline cache, two words each. -/
def icExtWords : Nat := 4 * 2

/-- `ext_word_count`: the number of extension words of the instruction `w`
at a position when the word right after it is `header`. -/
def extWords (w : Instr) (header : Option Instr) : Nat :=
  let first := (header.getD 0).toNat
  if w.opcode.semantics.icExt then icExtWords
  else
    match w.opcode with
    | .spill | .unspill | .call | .callNative | .newExpression | .superCall | .defineAccessor
    | .defineAccessorDynamic | .definePropAttrs | .defineGlobalPropC | .defineGlobalPropCStrict
    | .defineGlobalPropCIfAbsent | .deleteGlobalPropC | .deletePropStatic | .restObject
    | .initPrivate | .storeGlobalLex => 1
    | .defineAccessorAttrs | .defineAccessorAttrsDynamic | .getPrivate | .setPrivate
    | .privateBrandIn => 2
    | .brk | .cont | .ret => 2
    | .callSpread | .newExpressionSpread | .superCallSpread =>
      1 + first % 256 + first / 2 ^ 8 % 256
    | .templateStr => 1 + first / 2 ^ 16 % 2 ^ 16
    | .getTemplateObject => 2 + 2 * first
    | .concatN => first
    | .newObject => w.a
    | _ => 0

/-- The instructions of a stretch of byte code, each with its extension
words. -/
def decode (bytecode : List Instr) : List (Frame Instr) :=
  frames extWords bytecode

end OxideJS
