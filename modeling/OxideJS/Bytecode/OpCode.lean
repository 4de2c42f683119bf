import Mathlib.Data.List.Basic

/-!
The operation codes of the register machine and the table that says how
each of them touches the registers.

The Rust side generates the enumeration, its conversions and the table
from one macro, so that no second table can drift away from the first.
The passes between the emitter and the byte code (flow graph, liveness,
dead code, folding) never look at an opcode any other way than through
this table or by comparing it with a fixed opcode, and the Lean table
below has one row per opcode, in the order of the macro.

A row says which register an instruction writes, which it reads (in
order), whether it may be deleted when its result is unused, whether it
carries a label that must be patched, whether it ends a basic block, and
whether it carries inline-cache extension words.
-/

namespace OxideJS

/-- The three operand slots of an instruction. -/
inductive Slot where
  | rd | a | b
  deriving DecidableEq, Repr

/-- How an instruction reaches a register: through an operand slot, as
the constant register `0`, as a run of argument registers starting at a
slot, or through its extension words. -/
inductive SlotSpec where
  | slot (s : Slot)
  | reg0
  | range (s : Slot)
  | spreadArgs
  | templateExprs
  | brandReg
  | extReg
  deriving DecidableEq, Repr

/-- One row of the opcode table. -/
structure OpSemantics where
  defSlot : Option SlotSpec
  uses : List SlotSpec
  pure : Bool
  isJump : Bool
  icExt : Bool

/-- The operation codes, in the order of the macro. `IN`, `RETURN`,
`BREAK` and `CONTINUE` are `inOp`, `ret`, `brk` and `cont` here. -/
inductive OpCode where
  | add | sub | mul | div | mod | neg | compoundAdd | compoundSub | compoundMul
  | compoundDiv | compoundMod | compoundExp | exp | mov | spill | unspill | spreadObject
  | eq | neq | lt | gt | lte | gte | inOp | not | and | or | strictEq | strictNeq
  | unaryPlus | brk | cont | jmp | jmpIfFalse | jmpIfTrue | forOfInit | forOfNext | incPre
  | incPost | decPre | decPost | forInInit | forInNext | forInDone | disposeRegister
  | forInCleanup | throw | tryBegin | tryEnd | tryFinallyBegin | tryFinallyEnter
  | tryFinallyEnd | forOfDone | forOfClose | templateStr | getTemplateObject
  | deletePropStatic | deletePropDynamic | instanceof | makeCell | cellGet | restObject
  | cellSet | loadVar | storeVar | loadConst | loadGlobal | loadGlobalTypeof | call | ret
  | callNative | newExpression | superCall | superGetProp | superStaticGetProp
  | setHomeObject | defineAccessor | loadUpvalue | createClosure | createRegexp
  | storeUpvalue | callSpread | newExpressionSpread | superCallSpread | icGetProp
  | icSetProp | getProp | getPropDynamic | setProp | setPropDynamic | newObject | newArray
  | setElem | setPropBatch | concatN | memberInc | memberDec | dynMemberInc | dynMemberDec
  | compoundMemberAdd | compoundMemberSub | compoundMemberMul | compoundMemberDiv
  | compoundMemberMod | compoundMemberExp | createArguments | createRestArray | disposeMark
  | disposePop | superPutProp | defineProp | defineGlobalProp | definePropAttrs
  | defineAccessorAttrs | defineGlobalPropC | defineGlobalPropIfAbsent
  | defineGlobalPropCIfAbsent | newSessionObject | deleteGlobalPropC | canDeclareGlobalFunc
  | defineGlobalFuncBind | defineAccessorAttrsDynamic | loadGlobalLex | storeGlobalLex
  | compoundMemberBitAnd | compoundMemberBitOr | compoundMemberBitXor | compoundMemberShl
  | compoundMemberShr | compoundMemberUshr | getPrivate | setPrivate | initPrivate
  | privateBrandIn | yield | suspendBody | yieldStar | await | forAwaitOfInit
  | forAwaitOfNext | forAwaitOfDone | forAwaitOfClose | makeCellFresh
  | defineAccessorDynamic | bitAnd | bitOr | bitXor | shl | shr | ushr | bitNot | toObject
  | compoundAnd | compoundOr | compoundXor | compoundShl | compoundShr | compoundUshr
  | nullish | jmpIfNullish | nop | halt | typeof | void | defineGlobalPropCStrict
  | setPropDynamicStrict
  deriving DecidableEq, Repr

/-- The opcode table. The fields of a row are, in order, the register
written, the registers read, purity, the jump flag, the terminator flag
and the inline-cache flag. -/
def OpCode.semantics : OpCode → OpSemantics
  | .add => ⟨some (.slot .rd), [.slot .a, .slot .b], false, false, false⟩
  | .sub => ⟨some (.slot .rd), [.slot .a, .slot .b], false, false, false⟩
  | .mul => ⟨some (.slot .rd), [.slot .a, .slot .b], false, false, false⟩
  | .div => ⟨some (.slot .rd), [.slot .a, .slot .b], false, false, false⟩
  | .mod => ⟨some (.slot .rd), [.slot .a, .slot .b], false, false, false⟩
  | .neg => ⟨some (.slot .rd), [.slot .a], false, false, false⟩
  | .compoundAdd => ⟨some (.slot .rd), [.slot .rd, .slot .a], false, false, false⟩
  | .compoundSub => ⟨some (.slot .rd), [.slot .rd, .slot .a], false, false, false⟩
  | .compoundMul => ⟨some (.slot .rd), [.slot .rd, .slot .a], false, false, false⟩
  | .compoundDiv => ⟨some (.slot .rd), [.slot .rd, .slot .a], false, false, false⟩
  | .compoundMod => ⟨some (.slot .rd), [.slot .rd, .slot .a], false, false, false⟩
  | .compoundExp => ⟨some (.slot .rd), [.slot .rd, .slot .a], false, false, false⟩
  | .exp => ⟨some (.slot .rd), [.slot .a, .slot .b], false, false, false⟩
  | .mov => ⟨some (.slot .rd), [.slot .a], true, false, false⟩
  | .spill => ⟨none, [.slot .rd], false, false, false⟩
  | .unspill => ⟨some (.slot .rd), [], false, false, false⟩
  | .spreadObject => ⟨some (.slot .rd), [.slot .rd, .slot .a], false, false, false⟩
  | .eq => ⟨some (.slot .rd), [.slot .a, .slot .b], false, false, false⟩
  | .neq => ⟨some (.slot .rd), [.slot .a, .slot .b], false, false, false⟩
  | .lt => ⟨some (.slot .rd), [.slot .a, .slot .b], false, false, false⟩
  | .gt => ⟨some (.slot .rd), [.slot .a, .slot .b], false, false, false⟩
  | .lte => ⟨some (.slot .rd), [.slot .a, .slot .b], false, false, false⟩
  | .gte => ⟨some (.slot .rd), [.slot .a, .slot .b], false, false, false⟩
  | .inOp => ⟨some (.slot .rd), [.slot .a, .slot .b], false, false, false⟩
  | .not => ⟨some (.slot .rd), [.slot .a], true, false, false⟩
  | .and => ⟨some (.slot .rd), [.slot .a, .slot .b], true, false, false⟩
  | .or => ⟨some (.slot .rd), [.slot .a, .slot .b], true, false, false⟩
  | .strictEq => ⟨some (.slot .rd), [.slot .a, .slot .b], true, false, false⟩
  | .strictNeq => ⟨some (.slot .rd), [.slot .a, .slot .b], true, false, false⟩
  | .unaryPlus => ⟨some (.slot .rd), [.slot .a], false, false, false⟩
  | .brk => ⟨none, [], false, true, false⟩
  | .cont => ⟨none, [], false, true, false⟩
  | .jmp => ⟨none, [], false, true, false⟩
  | .jmpIfFalse => ⟨none, [.slot .rd], false, true, false⟩
  | .jmpIfTrue => ⟨none, [.slot .rd], false, true, false⟩
  | .forOfInit => ⟨none, [.slot .a], false, false, false⟩
  | .forOfNext => ⟨some (.slot .rd), [], false, false, false⟩
  | .incPre => ⟨some (.slot .rd), [.slot .rd], false, false, false⟩
  | .incPost => ⟨some (.slot .rd), [.slot .rd], false, false, false⟩
  | .decPre => ⟨some (.slot .rd), [.slot .rd], false, false, false⟩
  | .decPost => ⟨some (.slot .rd), [.slot .rd], false, false, false⟩
  | .forInInit => ⟨none, [.slot .a], false, false, false⟩
  | .forInNext => ⟨some (.slot .rd), [], false, false, false⟩
  | .forInDone => ⟨some (.slot .rd), [], false, false, false⟩
  | .disposeRegister => ⟨none, [.slot .rd], false, false, false⟩
  | .forInCleanup => ⟨none, [], false, false, false⟩
  | .throw => ⟨none, [.slot .rd], false, false, false⟩
  | .tryBegin => ⟨none, [], false, true, false⟩
  | .tryEnd => ⟨none, [], false, false, false⟩
  | .tryFinallyBegin => ⟨none, [], false, true, false⟩
  | .tryFinallyEnter => ⟨none, [], false, false, false⟩
  | .tryFinallyEnd => ⟨none, [], false, false, false⟩
  | .forOfDone => ⟨some (.slot .rd), [], false, false, false⟩
  | .forOfClose => ⟨none, [], false, false, false⟩
  | .templateStr => ⟨some (.slot .rd), [.templateExprs], false, false, false⟩
  | .getTemplateObject => ⟨some (.slot .rd), [], false, false, false⟩
  | .deletePropStatic => ⟨none, [.slot .rd], false, false, false⟩
  | .deletePropDynamic => ⟨none, [.slot .rd, .slot .b], false, false, false⟩
  | .instanceof => ⟨some (.slot .rd), [.slot .a, .slot .b], false, false, false⟩
  | .makeCell => ⟨none, [.slot .rd], false, false, false⟩
  | .cellGet => ⟨some (.slot .rd), [.slot .a], true, false, false⟩
  | .restObject => ⟨some (.slot .rd), [.slot .a, .slot .b], false, false, false⟩
  | .cellSet => ⟨none, [.slot .a], false, false, false⟩
  | .loadVar => ⟨some (.slot .rd), [.slot .a], true, false, false⟩
  | .storeVar => ⟨some (.slot .rd), [.slot .a], false, false, false⟩
  | .loadConst => ⟨some (.slot .rd), [], true, false, false⟩
  | .loadGlobal => ⟨some (.slot .rd), [], false, false, false⟩
  | .loadGlobalTypeof => ⟨some (.slot .rd), [], false, false, false⟩
  | .call => ⟨some .reg0, [.slot .rd, .slot .a, .range .b], false, false, false⟩
  | .ret => ⟨none, [.slot .rd], false, false, false⟩
  | .callNative => ⟨some .reg0, [.slot .rd, .slot .a, .range .b], false, false, false⟩
  | .newExpression => ⟨some (.slot .rd), [.slot .a, .range .b], false, false, false⟩
  | .superCall => ⟨some (.slot .rd), [.range .a], false, false, false⟩
  | .superGetProp => ⟨some (.slot .rd), [.slot .a, .slot .b], false, false, false⟩
  | .superStaticGetProp => ⟨some (.slot .rd), [.slot .a, .slot .b], false, false, false⟩
  | .setHomeObject => ⟨none, [.slot .rd, .slot .a], false, false, false⟩
  | .defineAccessor => ⟨none, [.slot .rd, .slot .a, .slot .b], false, false, false⟩
  | .loadUpvalue => ⟨some (.slot .rd), [], true, false, false⟩
  | .createClosure => ⟨some (.slot .rd), [], true, false, false⟩
  | .createRegexp => ⟨some (.slot .rd), [.slot .a, .slot .b], false, false, false⟩
  | .storeUpvalue => ⟨none, [.slot .a], false, false, false⟩
  | .callSpread => ⟨some .reg0, [.slot .rd, .slot .a, .spreadArgs], false, false, false⟩
  | .newExpressionSpread => ⟨some (.slot .rd), [.slot .a, .spreadArgs], false, false, false⟩
  | .superCallSpread => ⟨some (.slot .rd), [.spreadArgs], false, false, false⟩
  | .icGetProp => ⟨some (.slot .a), [.slot .a, .slot .b], false, false, true⟩
  | .icSetProp => ⟨none, [.slot .rd, .slot .a, .slot .b], false, false, true⟩
  | .getProp => ⟨some (.slot .a), [.slot .rd, .slot .b], false, false, false⟩
  | .getPropDynamic => ⟨some (.slot .b), [.slot .rd, .slot .a], false, false, false⟩
  | .setProp => ⟨none, [.slot .rd, .slot .a, .slot .b], false, false, false⟩
  | .setPropDynamic => ⟨none, [.slot .rd, .slot .a, .slot .b], false, false, false⟩
  | .newObject => ⟨some (.slot .rd), [], true, false, false⟩
  | .newArray => ⟨some (.slot .rd), [], true, false, false⟩
  | .setElem => ⟨none, [.slot .rd, .slot .a, .slot .b], false, false, false⟩
  | .setPropBatch => ⟨none, [.slot .rd, .slot .a, .slot .b], false, false, false⟩
  | .concatN => ⟨some (.slot .rd), [.slot .a, .spreadArgs], false, false, false⟩
  | .memberInc => ⟨some (.slot .a), [.slot .rd, .slot .b], false, false, true⟩
  | .memberDec => ⟨some (.slot .a), [.slot .rd, .slot .b], false, false, true⟩
  | .dynMemberInc => ⟨some (.slot .b), [.slot .rd, .slot .a], false, false, false⟩
  | .dynMemberDec => ⟨some (.slot .b), [.slot .rd, .slot .a], false, false, false⟩
  | .compoundMemberAdd =>
    ⟨some (.slot .a), [.slot .rd, .slot .a, .slot .b], false, false, true⟩
  | .compoundMemberSub =>
    ⟨some (.slot .a), [.slot .rd, .slot .a, .slot .b], false, false, true⟩
  | .compoundMemberMul =>
    ⟨some (.slot .a), [.slot .rd, .slot .a, .slot .b], false, false, true⟩
  | .compoundMemberDiv =>
    ⟨some (.slot .a), [.slot .rd, .slot .a, .slot .b], false, false, true⟩
  | .compoundMemberMod =>
    ⟨some (.slot .a), [.slot .rd, .slot .a, .slot .b], false, false, true⟩
  | .compoundMemberExp =>
    ⟨some (.slot .a), [.slot .rd, .slot .a, .slot .b], false, false, true⟩
  | .createArguments => ⟨some (.slot .rd), [], false, false, false⟩
  | .createRestArray => ⟨some (.slot .rd), [], false, false, false⟩
  | .disposeMark => ⟨none, [], false, false, false⟩
  | .disposePop => ⟨none, [], false, false, false⟩
  | .superPutProp => ⟨none, [.slot .rd, .slot .a, .slot .b], false, false, false⟩
  | .defineProp => ⟨none, [.slot .rd, .slot .a, .slot .b], false, false, false⟩
  | .defineGlobalProp => ⟨none, [.slot .rd, .slot .a, .slot .b], false, false, false⟩
  | .definePropAttrs => ⟨none, [.slot .rd, .slot .a, .slot .b], false, false, false⟩
  | .defineAccessorAttrs => ⟨none, [.slot .rd, .slot .a, .slot .b], false, false, false⟩
  | .defineGlobalPropC => ⟨none, [.slot .a], false, false, false⟩
  | .defineGlobalPropIfAbsent => ⟨none, [.slot .rd, .slot .a, .slot .b], false, false, false⟩
  | .defineGlobalPropCIfAbsent => ⟨none, [.slot .a], false, false, false⟩
  | .newSessionObject => ⟨some (.slot .rd), [], true, false, false⟩
  | .deleteGlobalPropC => ⟨some (.slot .rd), [.slot .a], false, false, false⟩
  | .canDeclareGlobalFunc => ⟨none, [.slot .rd, .slot .b], false, false, false⟩
  | .defineGlobalFuncBind => ⟨none, [.slot .rd, .slot .a, .slot .b], false, false, false⟩
  | .defineAccessorAttrsDynamic =>
    ⟨none, [.slot .rd, .slot .a, .slot .b, .extReg], false, false, false⟩
  | .loadGlobalLex => ⟨some (.slot .rd), [], false, false, false⟩
  | .storeGlobalLex => ⟨none, [.slot .a], false, false, false⟩
  | .compoundMemberBitAnd =>
    ⟨some (.slot .a), [.slot .rd, .slot .a, .slot .b], false, false, true⟩
  | .compoundMemberBitOr =>
    ⟨some (.slot .a), [.slot .rd, .slot .a, .slot .b], false, false, true⟩
  | .compoundMemberBitXor =>
    ⟨some (.slot .a), [.slot .rd, .slot .a, .slot .b], false, false, true⟩
  | .compoundMemberShl =>
    ⟨some (.slot .a), [.slot .rd, .slot .a, .slot .b], false, false, true⟩
  | .compoundMemberShr =>
    ⟨some (.slot .a), [.slot .rd, .slot .a, .slot .b], false, false, true⟩
  | .compoundMemberUshr =>
    ⟨some (.slot .a), [.slot .rd, .slot .a, .slot .b], false, false, true⟩
  | .getPrivate => ⟨some (.slot .rd), [.slot .a, .slot .b, .brandReg], false, false, false⟩
  | .setPrivate => ⟨none, [.slot .rd, .slot .a, .slot .b, .brandReg], false, false, false⟩
  | .initPrivate => ⟨none, [.slot .rd, .slot .a, .slot .b], false, false, false⟩
  | .privateBrandIn => ⟨some (.slot .rd), [.slot .a, .slot .b], false, false, false⟩
  | .yield => ⟨some .reg0, [.slot .rd], false, false, false⟩
  | .suspendBody => ⟨none, [], false, false, false⟩
  | .yieldStar => ⟨some .reg0, [.slot .rd], false, false, false⟩
  | .await => ⟨some .reg0, [.slot .rd], false, false, false⟩
  | .forAwaitOfInit => ⟨none, [.slot .a], false, false, false⟩
  | .forAwaitOfNext => ⟨some (.slot .rd), [], false, false, false⟩
  | .forAwaitOfDone => ⟨some (.slot .rd), [.slot .a], false, false, false⟩
  | .forAwaitOfClose => ⟨none, [], false, false, false⟩
  | .makeCellFresh => ⟨none, [.slot .rd], false, false, false⟩
  | .defineAccessorDynamic =>
    ⟨none, [.slot .rd, .slot .a, .slot .b, .extReg], false, false, false⟩
  | .bitAnd => ⟨some (.slot .rd), [.slot .a, .slot .b], false, false, false⟩
  | .bitOr => ⟨some (.slot .rd), [.slot .a, .slot .b], false, false, false⟩
  | .bitXor => ⟨some (.slot .rd), [.slot .a, .slot .b], false, false, false⟩
  | .shl => ⟨some (.slot .rd), [.slot .a, .slot .b], false, false, false⟩
  | .shr => ⟨some (.slot .rd), [.slot .a, .slot .b], false, false, false⟩
  | .ushr => ⟨some (.slot .rd), [.slot .a, .slot .b], false, false, false⟩
  | .bitNot => ⟨some (.slot .rd), [.slot .a], false, false, false⟩
  | .toObject => ⟨some (.slot .rd), [.slot .rd], false, false, false⟩
  | .compoundAnd => ⟨some (.slot .rd), [.slot .rd, .slot .a], false, false, false⟩
  | .compoundOr => ⟨some (.slot .rd), [.slot .rd, .slot .a], false, false, false⟩
  | .compoundXor => ⟨some (.slot .rd), [.slot .rd, .slot .a], false, false, false⟩
  | .compoundShl => ⟨some (.slot .rd), [.slot .rd, .slot .a], false, false, false⟩
  | .compoundShr => ⟨some (.slot .rd), [.slot .rd, .slot .a], false, false, false⟩
  | .compoundUshr => ⟨some (.slot .rd), [.slot .rd, .slot .a], false, false, false⟩
  | .nullish => ⟨some (.slot .rd), [.slot .a, .slot .b], true, false, false⟩
  | .jmpIfNullish => ⟨none, [.slot .rd], false, true, false⟩
  | .nop => ⟨some (.slot .rd), [], true, false, false⟩
  | .halt => ⟨none, [.reg0], false, false, false⟩
  | .typeof => ⟨some (.slot .rd), [.slot .a], true, false, false⟩
  | .void => ⟨some (.slot .rd), [], true, false, false⟩
  | .defineGlobalPropCStrict => ⟨none, [.slot .a], false, false, false⟩
  | .setPropDynamicStrict => ⟨none, [.slot .rd, .slot .a, .slot .b], false, false, false⟩

/-- The instruction carries a label that the byte-code writer patches. -/
def OpCode.isJump (op : OpCode) : Bool := op.semantics.isJump

end OxideJS
