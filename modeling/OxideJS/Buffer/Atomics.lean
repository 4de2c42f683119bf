import OxideJS.Buffer.TypedArray
import Mathlib.Data.Int.Bitwise

/-!
Read-modify-write operations of `Atomics` on one element.

An element of an integer kind is its bits. Operands are integers: the
numbers or the BigInts that `ta_element_value` returns. A buffer that is
not shared computes with numbers and writes the result back, a shared one
applies an atomic instruction of the element's width to the bits of the
converted operand.
-/

namespace OxideJS.Buffer.Atomics

/-- The kinds that `resolve_atomic_access` lets through. -/
inductive IntegerKind where
  | int8 | uint8 | int16 | uint16 | int32 | uint32 | bigInt64 | bigUint64
  deriving DecidableEq

namespace IntegerKind

def kind : IntegerKind → TypedArrayKind
  | int8 => .int8
  | uint8 => .uint8
  | int16 => .int16
  | uint16 => .uint16
  | int32 => .int32
  | uint32 => .uint32
  | bigInt64 => .bigInt64
  | bigUint64 => .bigUint64

def width (k : IntegerKind) : Nat :=
  8 * k.kind.bytesPerElement

def signed : IntegerKind → Bool
  | int8 | int16 | int32 | bigInt64 => true
  | uint8 | uint16 | uint32 | bigUint64 => false

end IntegerKind

/-! ### Conversions -/

/-- The cast of a number to `i32`: a number out of range becomes the nearest bound. -/
def asI32 (n : Int) : Int :=
  max (-2147483648) (min n 2147483647)

/-- The cast of a number to `u32`. -/
def asU32 (n : Int) : Int :=
  max 0 (min n 4294967295)

/-- What is left of an operand when its low bits are taken. -/
def castOperand (k : IntegerKind) (n : Int) : Int :=
  if k.kind.isBigint then n else if k = .uint32 then asU32 n else asI32 n

/-- The bits that `write_element` writes. -/
def writeElement (k : IntegerKind) (n : Int) : BitVec k.width :=
  BitVec.ofInt k.width (castOperand k n)

def readElement (k : IntegerKind) (x : BitVec k.width) : Int :=
  if k.signed then x.toInt else x.toNat

/-! ### The two paths -/

inductive FetchOp where
  | add | sub | and | or | xor
  deriving DecidableEq

namespace FetchOp

def onInt : FetchOp → Int → Int → Int
  | add, a, b => a + b
  | sub, a, b => a - b
  | and, a, b => Int.land a b
  | or, a, b => Int.lor a b
  | xor, a, b => Int.xor a b

/-- The operation on words, which wraps around. -/
def onBits {w : Nat} : FetchOp → BitVec w → BitVec w → BitVec w
  | add, x, y => x + y
  | sub, x, y => x - y
  | and, x, y => x &&& y
  | or, x, y => x ||| y
  | xor, x, y => x ^^^ y

end FetchOp

def arithmeticWriteValue (k : IntegerKind) (op : FetchOp) (old value : Int) : Int :=
  if k.kind.isBigint then op.onInt old value
  else (op.onBits (BitVec.ofInt 32 (asI32 old)) (BitVec.ofInt 32 (asI32 value))).toInt

inductive Call where
  | fetch (op : FetchOp) (value : Int)
  | exchange (value : Int)
  | compareExchange (expected replacement : Int)
  deriving DecidableEq

/-- The value returned and the bits left on an `ArrayBuffer`. -/
def onArrayBuffer (k : IntegerKind) (x : BitVec k.width) : Call → Int × BitVec k.width
  | .fetch op value =>
    (readElement k x, writeElement k (arithmeticWriteValue k op (readElement k x) value))
  | .exchange value => (readElement k x, writeElement k value)
  | .compareExchange expected replacement =>
    -- Numbers and BigInts are compared as they are, before any conversion.
    (readElement k x, if readElement k x = expected then writeElement k replacement else x)

/-- The value returned and the bits left on a `SharedArrayBuffer`. -/
def onSharedBuffer (k : IntegerKind) (x : BitVec k.width) : Call → Int × BitVec k.width
  | .fetch op value => (readElement k x, op.onBits x (writeElement k value))
  | .exchange value => (readElement k x, writeElement k value)
  | .compareExchange expected replacement =>
    if x = writeElement k expected then
      (readElement k (writeElement k expected), writeElement k replacement)
    else (readElement k x, x)

/-! ### The operation modulo a power of two -/

def modular (k : IntegerKind) (x : BitVec k.width) : Call → Int × BitVec k.width
  | .fetch op value => (readElement k x, op.onBits x (BitVec.ofInt k.width value))
  | .exchange value => (readElement k x, BitVec.ofInt k.width value)
  | .compareExchange expected replacement =>
    (readElement k x,
      if x = BitVec.ofInt k.width expected then BitVec.ofInt k.width replacement else x)

/-- Both paths are the modular operation. -/
def Agrees (k : IntegerKind) (x : BitVec k.width) (call : Call) : Prop :=
  onArrayBuffer k x call = modular k x call ∧ onSharedBuffer k x call = modular k x call

/-- Two operands that an operation on `x` does not tell apart. For `and` and `or` only the bits
that `x` lets through count. -/
def SameOperand {w : Nat} (x : BitVec w) (a b : Int) : FetchOp → Prop
  | .add | .sub | .xor => BitVec.ofInt w a = BitVec.ofInt w b
  | .and => ∀ i < w, x.getLsbD i = true → a.testBit i = b.testBit i
  | .or => ∀ i < w, x.getLsbD i = false → a.testBit i = b.testBit i

/-- The casts of a fetch on a `uint32` element in an `ArrayBuffer`, where the element goes through
`i32` too and a negative result is written as zero.

With the element and the operand in the range of `i32` the result has to be. Otherwise one of them
is cut to a bound, and only zero comes out right; `and` with a bound is the other operand, or zero
at the lower one. -/
def Uint32Harmless {w : Nat} (x : BitVec w) (value : Int) (op : FetchOp) : Prop :=
  let wanted := op.onBits x (BitVec.ofInt w value)
  if x.toNat < 2147483648 ∧ -2147483648 ≤ value ∧ value < 2147483648 then
    wanted.toNat < 2147483648
  else
    match op with
    | .and => value < -2147483648 ∨ x.toNat < 2147483648 ∧ wanted = x ∨
        value < 2147483648 ∧ wanted = BitVec.ofInt w value
    | _ => wanted = 0

/-- The conversions do no harm. -/
def Harmless (k : IntegerKind) (x : BitVec k.width) : Call → Prop
  | .fetch op value =>
    SameOperand x (castOperand k value) value op ∧ (k = .uint32 → Uint32Harmless x value op)
  | .exchange value => BitVec.ofInt k.width (castOperand k value) = BitVec.ofInt k.width value
  | .compareExchange expected replacement =>
    if readElement k x = expected then
      BitVec.ofInt k.width (castOperand k replacement) = BitVec.ofInt k.width replacement
    else
      (x = BitVec.ofInt k.width expected → x = BitVec.ofInt k.width replacement) ∧
      (x = BitVec.ofInt k.width (castOperand k expected) →
        x = BitVec.ofInt k.width (castOperand k replacement))

/-! ### Words of integers -/

theorem getLsbD_ofInt (w : Nat) (a : Int) (i : Nat) :
    (BitVec.ofInt w a).getLsbD i = (decide (i < w) && a.testBit i) := by
  cases a with
  | ofNat n =>
    rw [Int.ofNat_eq_natCast, BitVec.ofInt_natCast, BitVec.getLsbD_ofNat]
    rfl
  | negSucc n =>
    rw [BitVec.ofInt_negSucc_eq_not_ofNat, BitVec.getLsbD_not, BitVec.getLsbD_ofNat]
    by_cases h : i < w
    · simp [h, Int.testBit]
    · simp [h]

theorem FetchOp.ofInt_onInt (op : FetchOp) (w : Nat) (a b : Int) :
    BitVec.ofInt w (op.onInt a b) = op.onBits (BitVec.ofInt w a) (BitVec.ofInt w b) := by
  cases op with
  | add => exact BitVec.ofInt_add a b
  | sub =>
    simp only [onInt, onBits, Int.sub_eq_add_neg, BitVec.ofInt_add, BitVec.ofInt_neg,
      BitVec.sub_eq_add_neg]
  | and =>
    apply BitVec.eq_of_getLsbD_eq
    intro i hi
    simp only [onInt, onBits, BitVec.getLsbD_and, getLsbD_ofInt, Int.testBit_land, hi,
      decide_true, Bool.true_and]
  | or =>
    apply BitVec.eq_of_getLsbD_eq
    intro i hi
    simp only [onInt, onBits, BitVec.getLsbD_or, getLsbD_ofInt, Int.testBit_lor, hi,
      decide_true, Bool.true_and]
  | xor =>
    apply BitVec.eq_of_getLsbD_eq
    intro i hi
    simp only [onInt, onBits, BitVec.getLsbD_xor, getLsbD_ofInt, Int.testBit_lxor, hi,
      decide_true, Bool.true_and]

theorem ofInt_toInt_of_le {v w : Nat} (hw : w ≤ v) (a : Int) :
    BitVec.ofInt w (BitVec.ofInt v a).toInt = BitVec.ofInt w a := by
  apply BitVec.eq_of_toNat_eq
  have hdvd : ((2 ^ w : Nat) : Int) ∣ ((2 ^ v : Nat) : Int) :=
    Int.natCast_dvd_natCast.mpr (Nat.pow_dvd_pow 2 hw)
  rw [BitVec.toNat_ofInt, BitVec.toNat_ofInt, BitVec.toInt_ofInt,
    ← Int.emod_emod_of_dvd (a.bmod (2 ^ v)) hdvd, Int.bmod_emod, Int.emod_emod_of_dvd _ hdvd]

theorem FetchOp.ofInt_toInt_onBits (op : FetchOp) {v w : Nat} (hw : w ≤ v) (a b : Int) :
    BitVec.ofInt w (op.onBits (BitVec.ofInt v a) (BitVec.ofInt v b)).toInt
      = op.onBits (BitVec.ofInt w a) (BitVec.ofInt w b) := by
  rw [← ofInt_onInt, ofInt_toInt_of_le hw, ofInt_onInt]

theorem onBits_eq_iff {w : Nat} (op : FetchOp) (x : BitVec w) (a b : Int) :
    op.onBits x (BitVec.ofInt w a) = op.onBits x (BitVec.ofInt w b) ↔ SameOperand x a b op := by
  cases op with
  | add => exact BitVec.add_right_inj x
  | sub =>
    simp only [FetchOp.onBits, SameOperand, BitVec.sub_eq_add_neg, BitVec.add_right_inj,
      BitVec.neg_inj]
  | xor => exact BitVec.xor_right_inj x
  | and =>
    rw [FetchOp.onBits, FetchOp.onBits, SameOperand, BitVec.eq_of_getLsbD_eq_iff]
    refine forall₂_congr fun i hi => ?_
    simp only [BitVec.getLsbD_and, getLsbD_ofInt, hi, decide_true, Bool.true_and]
    cases x.getLsbD i <;> simp
  | or =>
    rw [FetchOp.onBits, FetchOp.onBits, SameOperand, BitVec.eq_of_getLsbD_eq_iff]
    refine forall₂_congr fun i hi => ?_
    simp only [BitVec.getLsbD_or, getLsbD_ofInt, hi, decide_true, Bool.true_and]
    cases x.getLsbD i <;> simp

/-! ### Elements -/

theorem ofInt_readElement (k : IntegerKind) (x : BitVec k.width) :
    BitVec.ofInt k.width (readElement k x) = x := by
  unfold readElement
  split
  · exact BitVec.ofInt_toInt
  · rw [BitVec.ofInt_natCast, BitVec.ofNat_toNat, BitVec.setWidth_eq]

theorem asI32_toInt {w : Nat} (hw : w ≤ 32) (y : BitVec w) : asI32 y.toInt = y.toInt := by
  have hlo := BitVec.le_two_mul_toInt (x := y)
  have hhi := BitVec.two_mul_toInt_lt (x := y)
  have hpow : (2 : Int) ^ w ≤ 2 ^ 32 := by
    exact_mod_cast Nat.pow_le_pow_right (by decide : 0 < 2) hw
  unfold asI32
  omega

theorem asI32_toNat {w : Nat} (hw : w ≤ 31) (y : BitVec w) : asI32 y.toNat = y.toNat := by
  have hlt := y.isLt
  have hpow : 2 ^ w ≤ 2 ^ 31 := Nat.pow_le_pow_right (by decide) hw
  unfold asI32
  omega

theorem asU32_toNat (y : BitVec 32) : asU32 y.toNat = y.toNat := by
  have hlt := y.isLt
  unfold asU32
  omega

/-- What an element holds is not changed by the cast of its kind. -/
theorem castOperand_readElement (k : IntegerKind) (x : BitVec k.width) :
    castOperand k (readElement k x) = readElement k x := by
  cases k with
  | int8 | int16 | int32 => exact asI32_toInt (by decide) x
  | uint8 | uint16 => exact asI32_toNat (by decide) x
  | uint32 => exact asU32_toNat x
  | bigInt64 | bigUint64 => rfl

theorem width_le_of_not_isBigint {k : IntegerKind} (hk : k.kind.isBigint = false) :
    k.width ≤ 32 := by
  cases k <;> first | decide | exact absurd hk (by decide)

/-- The bits a fetch leaves on a shared buffer. -/
theorem sharedFetch_iff (k : IntegerKind) (x : BitVec k.width) (op : FetchOp) (value : Int) :
    onSharedBuffer k x (.fetch op value) = modular k x (.fetch op value) ↔
      SameOperand x (castOperand k value) value op := by
  rw [← onBits_eq_iff, onSharedBuffer, modular, Prod.mk.injEq]
  exact and_iff_right rfl

theorem arithmeticWriteValue_bigint {k : IntegerKind} (hk : k.kind.isBigint = true) (op : FetchOp)
    (x : BitVec k.width) (value : Int) :
    writeElement k (arithmeticWriteValue k op (readElement k x) value)
      = op.onBits x (BitVec.ofInt k.width value) := by
  rw [writeElement, castOperand, if_pos hk, arithmeticWriteValue, if_pos hk, op.ofInt_onInt,
    ofInt_readElement]

theorem arithmeticWriteValue_small {k : IntegerKind} (hk : k.kind.isBigint = false)
    (hu : k ≠ .uint32) (op : FetchOp) (x : BitVec k.width) (value : Int) :
    writeElement k (arithmeticWriteValue k op (readElement k x) value)
      = op.onBits x (BitVec.ofInt k.width (castOperand k value)) := by
  have hb : ¬ k.kind.isBigint = true := by simp [hk]
  have hcast : ∀ n, castOperand k n = asI32 n := fun n => by
    rw [castOperand, if_neg hb, if_neg hu]
  have hold : asI32 (readElement k x) = readElement k x := by
    rw [← hcast, castOperand_readElement]
  rw [writeElement, hcast, hcast, arithmeticWriteValue, if_neg hb, hold,
    asI32_toInt (Nat.le_refl 32), op.ofInt_toInt_onBits (width_le_of_not_isBigint hk),
    ofInt_readElement]

/-- A word read as a signed number and written through the cast to `u32`. -/
theorem ofInt_asU32_toInt (y : BitVec 32) :
    BitVec.ofInt 32 (asU32 y.toInt) = if y.msb then 0 else y := by
  have hhi := BitVec.toInt_lt (x := y)
  cases hy : y.msb with
  | true =>
    have hneg : y.toInt < 0 := BitVec.toInt_neg_iff.mpr (BitVec.msb_eq_true_iff_two_mul_ge.mp hy)
    have h0 : asU32 y.toInt = 0 := by
      unfold asU32
      omega
    rw [h0]
    rfl
  | false =>
    have hpos : 0 ≤ y.toInt := by
      have := BitVec.toInt_eq_msb_cond y
      simp only [hy] at this
      simp at this
      omega
    have hid : asU32 y.toInt = y.toInt := by
      unfold asU32
      omega
    rw [hid, BitVec.ofInt_toInt]
    rfl

theorem arithmeticWriteValue_uint32 (op : FetchOp) (x : BitVec IntegerKind.uint32.width)
    (value : Int) :
    writeElement .uint32 (arithmeticWriteValue .uint32 op (readElement .uint32 x) value)
      = let cast := op.onBits
          (BitVec.ofInt IntegerKind.uint32.width (asI32 (readElement .uint32 x)))
          (BitVec.ofInt IntegerKind.uint32.width (asI32 value))
        if cast.msb then 0 else cast :=
  ofInt_asU32_toInt _

/-! ### Operands cut to a bound -/

theorem toNat_asI32 (x : BitVec 32) :
    (BitVec.ofInt 32 (asI32 x.toNat)).toNat = min x.toNat 2147483647 := by
  have := x.isLt
  rw [BitVec.toNat_ofInt]
  unfold asI32
  omega

theorem ofInt_asI32_element {x : BitVec 32} (hx : x.toNat < 2147483648) :
    BitVec.ofInt 32 (asI32 x.toNat) = x := by
  rw [show asI32 x.toNat = x.toNat by unfold asI32; omega, BitVec.ofInt_natCast,
    BitVec.ofNat_toNat, BitVec.setWidth_eq]

/-- If the first bit of the result is set anyway, it is neither what was computed nor zero. -/
theorem iff_of_msb {cast wanted : BitVec 32} (hcast : cast.msb = false)
    (hwanted : wanted.msb = true) : cast = wanted ↔ wanted = 0 := by
  constructor
  · rintro rfl
    simp [hcast] at hwanted
  · rintro rfl
    simp at hwanted

/-- A result with its first bit set is written as zero, so only the others have to be compared. -/
theorem written_iff {cast wanted : BitVec 32}
    (h : cast.msb = false → (cast = wanted ↔ wanted = 0)) :
    (if cast.msb then 0 else cast) = wanted ↔ wanted = 0 := by
  cases hmsb : cast.msb with
  | true => exact eq_comm
  | false => exact h hmsb

theorem msb_asI32_element (x : BitVec 32) : (BitVec.ofInt 32 (asI32 x.toNat)).msb = false := by
  rw [BitVec.msb_eq_false_iff_two_mul_lt, toNat_asI32]
  omega

theorem msb_asI32 (value : Int) : (BitVec.ofInt 32 (asI32 value)).msb = decide (value < 0) := by
  rw [BitVec.msb_eq_decide, BitVec.toNat_ofInt, decide_eq_decide]
  unfold asI32
  omega

theorem msb_asU32 (value : Int) :
    (BitVec.ofInt 32 (asU32 value)).msb = decide (2147483648 ≤ value) := by
  rw [BitVec.msb_eq_decide, BitVec.toNat_ofInt, decide_eq_decide]
  unfold asU32
  omega

theorem msb_element (x : BitVec 32) : x.msb = decide (2147483648 ≤ x.toNat) :=
  BitVec.msb_eq_decide x

/-- The low bits of a number without the first one are all of it. -/
theorem max_and {y : BitVec 32} (h : y.msb = false) : BitVec.ofInt 32 2147483647 &&& y = y := by
  rw [BitVec.msb_eq_false_iff_two_mul_lt] at h
  apply BitVec.eq_of_toNat_eq
  rw [BitVec.toNat_and, Nat.and_comm, show (BitVec.ofInt 32 2147483647).toNat = 2 ^ 31 - 1 from rfl,
    Nat.and_two_pow_sub_one_eq_mod]
  omega

theorem and_min {y : BitVec 32} (h : y.msb = false) : y &&& BitVec.ofInt 32 (-2147483648) = 0 := by
  rw [show BitVec.ofInt 32 (-2147483648) = BitVec.twoPow 32 31 from rfl, BitVec.and_twoPow,
    if_neg]
  · rfl
  · simpa [BitVec.msb_eq_getLsbD_last] using h

section Saturated

variable {x : BitVec 32} {value : Int}
  (hout : ¬(x.toNat < 2147483648 ∧ -2147483648 ≤ value ∧ value < 2147483648))
include hout

theorem add_saturated (h : BitVec.ofInt 32 (asU32 value) = BitVec.ofInt 32 value) :
    let cast := BitVec.ofInt 32 (asI32 x.toNat) + BitVec.ofInt 32 (asI32 value)
    (if cast.msb then 0 else cast) = x + BitVec.ofInt 32 value ↔
      x + BitVec.ofInt 32 value = 0 := by
  intro cast
  have hx := x.isLt
  have hcast : cast.toNat = (min x.toNat 2147483647 + (asI32 value % 2 ^ 32).toNat) % 2 ^ 32 := by
    rw [BitVec.toNat_add, toNat_asI32, BitVec.toNat_ofInt]
    rfl
  clear_value cast
  have hv := congrArg BitVec.toNat h
  rw [BitVec.toNat_ofInt, BitVec.toNat_ofInt] at hv
  refine written_iff fun hmsb => ?_
  rw [BitVec.msb_eq_false_iff_two_mul_lt] at hmsb
  rw [← BitVec.toNat_inj, ← BitVec.toNat_inj, BitVec.toNat_add, BitVec.toNat_ofInt]
  unfold asI32 at hcast
  unfold asU32 at hv
  have hzero : (0 : BitVec 32).toNat = 0 := rfl
  omega

theorem sub_saturated (h : BitVec.ofInt 32 (asU32 value) = BitVec.ofInt 32 value) :
    let cast := BitVec.ofInt 32 (asI32 x.toNat) - BitVec.ofInt 32 (asI32 value)
    (if cast.msb then 0 else cast) = x - BitVec.ofInt 32 value ↔
      x - BitVec.ofInt 32 value = 0 := by
  intro cast
  have hx := x.isLt
  have hcast : cast.toNat =
      (2 ^ 32 - (asI32 value % 2 ^ 32).toNat + min x.toNat 2147483647) % 2 ^ 32 := by
    rw [BitVec.toNat_sub, toNat_asI32, BitVec.toNat_ofInt]
    rfl
  clear_value cast
  have hv := congrArg BitVec.toNat h
  rw [BitVec.toNat_ofInt, BitVec.toNat_ofInt] at hv
  refine written_iff fun hmsb => ?_
  rw [BitVec.msb_eq_false_iff_two_mul_lt] at hmsb
  rw [← BitVec.toNat_inj, ← BitVec.toNat_inj, BitVec.toNat_sub, BitVec.toNat_ofInt]
  unfold asI32 at hcast
  unfold asU32 at hv
  have hzero : (0 : BitVec 32).toNat = 0 := rfl
  omega

theorem xor_saturated (h : BitVec.ofInt 32 (asU32 value) = BitVec.ofInt 32 value) :
    let cast := BitVec.ofInt 32 (asI32 x.toNat) ^^^ BitVec.ofInt 32 (asI32 value)
    (if cast.msb then 0 else cast) = x ^^^ BitVec.ofInt 32 value ↔
      x ^^^ BitVec.ofInt 32 value = 0 := by
  intro cast
  have hmsb : cast.msb = decide (value < 0) := by
    rw [BitVec.msb_xor, msb_asI32_element, msb_asI32, Bool.false_xor]
  refine written_iff fun hcast => ?_
  have hneg : ¬value < 0 := of_decide_eq_false (hmsb ▸ hcast)
  by_cases hboth : 2147483648 ≤ x.toNat ∧ 2147483648 ≤ value
  · -- both are cut to the same number
    have hzero : cast = 0 := by
      have hsame : asI32 x.toNat = asI32 value := by
        unfold asI32
        omega
      simp [cast, hsame]
    rw [hzero, eq_comm]
  · refine iff_of_msb hcast ?_
    rw [BitVec.msb_xor, ← h, msb_element, msb_asU32]
    by_cases hx : 2147483648 ≤ x.toNat
    · rw [decide_eq_true hx, decide_eq_false fun hv => hboth ⟨hx, hv⟩]
      rfl
    · rw [decide_eq_false hx, decide_eq_true (by omega)]
      rfl

theorem or_saturated (h : x ||| BitVec.ofInt 32 (asU32 value) = x ||| BitVec.ofInt 32 value) :
    let cast := BitVec.ofInt 32 (asI32 x.toNat) ||| BitVec.ofInt 32 (asI32 value)
    (if cast.msb then 0 else cast) = x ||| BitVec.ofInt 32 value ↔
      x ||| BitVec.ofInt 32 value = 0 := by
  intro cast
  have hmsb : cast.msb = decide (value < 0) := by
    rw [BitVec.msb_or, msb_asI32_element, msb_asI32, Bool.false_or]
  refine written_iff fun hcast => ?_
  have hneg : ¬value < 0 := of_decide_eq_false (hmsb ▸ hcast)
  refine iff_of_msb hcast ?_
  rw [← h, BitVec.msb_or, msb_element, msb_asU32, Bool.or_eq_true, decide_eq_true_iff,
    decide_eq_true_iff]
  omega

theorem and_saturated (h : x &&& BitVec.ofInt 32 (asU32 value) = x &&& BitVec.ofInt 32 value) :
    let cast := BitVec.ofInt 32 (asI32 x.toNat) &&& BitVec.ofInt 32 (asI32 value)
    (if cast.msb then 0 else cast) = x &&& BitVec.ofInt 32 value ↔
      value < -2147483648 ∨ x.toNat < 2147483648 ∧ x &&& BitVec.ofInt 32 value = x ∨
        value < 2147483648 ∧ x &&& BitVec.ofInt 32 value = BitVec.ofInt 32 value := by
  intro cast
  have hcast : cast.msb = false := by
    rw [BitVec.msb_and, msb_asI32_element, Bool.false_and]
  rw [if_neg (by simp [hcast])]
  rcases Int.lt_or_le value (-2147483648) with hlow | hlow
  · have hmin : asI32 value = -2147483648 := by
      unfold asI32
      omega
    have hzero : asU32 value = 0 := by
      unfold asU32
      omega
    rw [hzero] at h
    have hcut : cast = 0 := by
      simp only [cast, hmin]
      exact and_min (msb_asI32_element x)
    rw [← h, hcut]
    simp [hlow]
  · have hnot : ¬value < -2147483648 := Int.not_lt.2 hlow
    rcases Int.lt_or_le value 2147483648 with hhigh | hhigh
    · -- the operand is in the signed range, the element is not
      have hx : 2147483648 ≤ x.toNat := by omega
      have hmax : asI32 x.toNat = 2147483647 := by
        unfold asI32
        omega
      have hsame : asI32 value = value := by
        unfold asI32
        omega
      have hpos : ¬value < 0 := by
        intro hneg
        have hmsb := congrArg BitVec.msb h
        have hsign := msb_asI32 value
        rw [hsame] at hsign
        rw [BitVec.msb_and, BitVec.msb_and, msb_asU32, hsign, msb_element] at hmsb
        simp [hx, hneg, Int.not_le.2 hhigh] at hmsb
      have hcut : cast = BitVec.ofInt 32 value := by
        simp only [cast, hmax, hsame]
        refine max_and ?_
        have hsign := msb_asI32 value
        rwa [hsame, decide_eq_false hpos] at hsign
      rw [hcut, eq_comm]
      simp [hnot, hhigh, Nat.not_lt.2 hx]
    · have hmax : asI32 value = 2147483647 := by
        unfold asI32
        omega
      have hcut : cast = BitVec.ofInt 32 (asI32 x.toNat) := by
        simp only [cast, hmax, BitVec.and_comm]
        exact max_and (msb_asI32_element x)
      rcases Nat.lt_or_ge x.toNat 2147483648 with hx | hx
      · rw [hcut, ofInt_asI32_element hx, eq_comm]
        simp [hnot, hx, Int.not_lt.2 hhigh]
      · -- both are cut, and the first bit of the result is set
        have hmsb : (x &&& BitVec.ofInt 32 value).msb = true := by
          rw [← h, BitVec.msb_and, msb_asU32, msb_element]
          simp [hx, hhigh]
        have hne : cast ≠ x &&& BitVec.ofInt 32 value := by
          intro heq
          rw [heq, hmsb] at hcast
          cases hcast
        simp [hne, hnot, Nat.not_lt.2 hx, Int.not_lt.2 hhigh]

end Saturated

/-- Without a cut the result is lost only when its first bit is set. -/
theorem uncut_iff (wanted : BitVec 32) :
    (if wanted.msb then 0 else wanted) = wanted ↔ wanted.toNat < 2147483648 := by
  cases hmsb : wanted.msb with
  | true =>
    have hlarge := BitVec.msb_eq_true_iff_two_mul_ge.mp hmsb
    refine iff_of_false ?_ (by omega)
    rintro heq
    simp [← heq] at hmsb
  | false =>
    have hsmall := BitVec.msb_eq_false_iff_two_mul_lt.mp hmsb
    exact iff_of_true rfl (by omega)

theorem uint32Harmless_iff (op : FetchOp) {x : BitVec 32} {value : Int}
    (hsame : SameOperand x (asU32 value) value op) :
    let cast := op.onBits (BitVec.ofInt 32 (asI32 x.toNat)) (BitVec.ofInt 32 (asI32 value))
    (if cast.msb then 0 else cast) = op.onBits x (BitVec.ofInt 32 value) ↔
      Uint32Harmless x value op := by
  by_cases hin : x.toNat < 2147483648 ∧ -2147483648 ≤ value ∧ value < 2147483648
  · have hvalue : asI32 value = value := by
      unfold asI32
      omega
    simp only [Uint32Harmless, if_pos hin, ofInt_asI32_element hin.1, hvalue]
    exact uncut_iff _
  · simp only [Uint32Harmless, if_neg hin]
    cases op with
    | add => exact add_saturated hin hsame
    | sub => exact sub_saturated hin hsame
    | and => exact and_saturated hin ((onBits_eq_iff .and x _ _).mpr hsame)
    | or => exact or_saturated hin ((onBits_eq_iff .or x _ _).mpr hsame)
    | xor => exact xor_saturated hin hsame

theorem fetch_iff (k : IntegerKind) (x : BitVec k.width) (op : FetchOp) (value : Int) :
    Agrees k x (.fetch op value) ↔ Harmless k x (.fetch op value) := by
  rw [Agrees, sharedFetch_iff, Harmless, and_comm]
  refine and_congr_right fun hsame => ?_
  rw [onArrayBuffer, modular, Prod.mk.injEq, and_iff_right rfl]
  by_cases hu : k = .uint32
  · subst hu
    rw [arithmeticWriteValue_uint32, forall_prop_of_true rfl]
    exact uint32Harmless_iff op hsame
  · simp only [hu, false_implies, iff_true]
    cases hk : k.kind.isBigint with
    | true => exact arithmeticWriteValue_bigint hk op x value
    | false => rw [arithmeticWriteValue_small hk hu, (onBits_eq_iff op x _ _).mpr hsame]

theorem exchange_iff (k : IntegerKind) (x : BitVec k.width) (value : Int) :
    Agrees k x (.exchange value) ↔ Harmless k x (.exchange value) := by
  simp only [Agrees, onArrayBuffer, onSharedBuffer, modular, Harmless, writeElement,
    Prod.mk.injEq, true_and, and_self]

theorem compareExchange_iff (k : IntegerKind) (x : BitVec k.width) (expected replacement : Int) :
    Agrees k x (.compareExchange expected replacement) ↔
      Harmless k x (.compareExchange expected replacement) := by
  have hshared : (onSharedBuffer k x (.compareExchange expected replacement)) =
      (readElement k x, if x = writeElement k expected then writeElement k replacement else x) := by
    rw [onSharedBuffer]
    split
    next h => rw [← h]
    next h => rfl
  rw [Agrees, hshared, onArrayBuffer, modular, Harmless]
  have hwrite : ∀ n, BitVec.ofInt k.width (castOperand k n) = writeElement k n := fun _ => rfl
  simp only [Prod.mk.injEq, true_and, hwrite]
  by_cases he : readElement k x = expected
  · -- The element is the expected number, so all three comparisons succeed.
    have hx : x = BitVec.ofInt k.width expected := by rw [← he, ofInt_readElement]
    have hc : x = writeElement k expected := by
      rw [← he, writeElement, castOperand_readElement, ofInt_readElement]
    rw [if_pos he, if_pos hx, if_pos hc, if_pos he, and_self]
  · simp only [if_neg he]
    by_cases hx : x = BitVec.ofInt k.width expected
    · rw [if_pos hx]
      grind
    · rw [if_neg hx]
      grind

/-- A call on an `ArrayBuffer` and on a `SharedArrayBuffer` is the operation modulo the element's
width exactly when the conversions do no harm. -/
theorem agrees_iff_harmless (k : IntegerKind) (x : BitVec k.width) (call : Call) :
    Agrees k x call ↔ Harmless k x call := by
  cases call with
  | fetch op value => exact fetch_iff k x op value
  | exchange value => exact exchange_iff k x value
  | compareExchange expected replacement => exact compareExchange_iff k x expected replacement

/-- Adding one to the element 2147483647 of a `Uint32Array` writes zero on an `ArrayBuffer`, and
an expected value 257 does not match the element 1 of a `Uint8Array` there. -/
theorem add_uint32_writes_zero :
    onArrayBuffer .uint32 2147483647 (.fetch .add 1) = (2147483647, 0) ∧
    onSharedBuffer .uint32 2147483647 (.fetch .add 1) = (2147483647, 2147483648) ∧
    onArrayBuffer .uint8 1 (.compareExchange 257 5) = (1, 1) ∧
    onSharedBuffer .uint8 1 (.compareExchange 257 5) = (1, 5) ∧
    ¬ Agrees .uint32 2147483647 (.fetch .add 1) ∧
    ¬ Agrees .uint8 1 (.compareExchange 257 5) ∧
    ¬ Agrees .uint32 0 (.exchange (-1)) := by
  unfold Agrees
  decide +kernel

end OxideJS.Buffer.Atomics
