import OxideJS.Lib.SmallIntegers
import OxideJS.Vm.Coercion

/-!
The compound assignment operators.

`COMPOUND_ADD` and its relatives compute like the binary instructions and
write back into their left operand. What they have in addition is a fast
path for two machine integers, in checked 32-bit arithmetic, where the
binary instructions convert both operands and compute in binary64. On
sums and differences the two agree, since these are exact and never a
negative zero, and a quotient is computed in binary64 by both.

A product and a remainder can be negative zeros. The integer zero of the
fast path then stands for `+0`, and `SameValue` tells the two apart:
`compound_agrees_iff` lists the operands for which that happens. The
remainder of `-2 ^ 31` by `-1`, which overflows in 32 bits, goes through
binary64 and comes out right.
-/

namespace OxideJS.Vm

open JsValue Binary64

section Handlers

variable (host : Host) (toPrimitive : Nat → Result JsValue)

/-- One compound handler: its path for machine integers, and the operator
for everything else. -/
def compoundArith (op : ArithOp) (int : Int32 → Int32 → JsValue) (l r : JsValue) :
    Result JsValue :=
  match l, r with
  | .int a, .int b => .ok (int a b)
  | .double a, .double b => .ok (.double (op.float a b))
  | .bigint a, .bigint b => op.bigint a b
  | l, r => do
    let l ← coercePrimitiveBounded toPrimitive l
    let r ← coercePrimitiveBounded toPrimitive r
    op.primitives host l r

/-- `COMPOUND_ADD` has the same paths as `ADD`. -/
def dispatchCompoundAdd : JsValue → JsValue → Result JsValue := dispatchAdd host toPrimitive

def dispatchCompoundSub : JsValue → JsValue → Result JsValue :=
  compoundArith host toPrimitive subOp intSub

def dispatchCompoundMul : JsValue → JsValue → Result JsValue :=
  compoundArith host toPrimitive mulOp intMul

def dispatchCompoundDiv : JsValue → JsValue → Result JsValue :=
  compoundArith host toPrimitive divOp intDiv

def dispatchCompoundMod : JsValue → JsValue → Result JsValue :=
  compoundArith host toPrimitive modOp intMod

end Handlers

/-! ### Comparing the two results -/

/-- Both instructions succeed with the same JavaScript value. -/
def Agrees (x y : Result JsValue) : Prop :=
  ∃ v w, x = .ok v ∧ y = .ok w ∧ sameValue v w = true

@[simp] theorem agrees_ok (v w : JsValue) : Agrees (.ok v) (.ok w) ↔ sameValue v w = true := by
  constructor
  · rintro ⟨v', w', hv, hw, h⟩
    obtain rfl := Except.ok.inj hv
    obtain rfl := Except.ok.inj hw
    exact h
  · exact fun h => ⟨v, w, rfl, rfl, h⟩

theorem sameValue_int {n : Int} (hlo : -2 ^ 31 ≤ n) (hhi : n < 2 ^ 31) :
    sameValue (.int (Int32.ofInt n)) (.double (ofInt n)) = true := by
  show sameNumber (ofInt (Int32.ofInt n).toInt) (ofInt n) = true
  rw [Int32.toInt_ofInt_of_le hlo hhi]
  exact sameNumber_refl _

theorem sameValue_keepInt {n : Int} {x : Float}
    (h : -2 ^ 31 ≤ n → n < 2 ^ 31 → x = ofInt n) :
    sameValue (keepInt n x) (.double x) = true := by
  unfold keepInt
  split
  · next hfits =>
    rw [h hfits.1 hfits.2]
    exact sameValue_int hfits.1 hfits.2
  · exact sameValue_refl _

/-- The integer zero is `+0`. -/
theorem sameValue_zero (s : Float.Model.UnpackedFloat.Sign) :
    sameValue (.int (Int32.ofInt 0)) (.double (signedZero s)) = true ↔ s = .positive := by
  cases s with
  | positive => simp only [iff_true]; decide +kernel
  | negative => simp only [reduceCtorEq, iff_false]; decide +kernel

theorem sameValue_intSub (a b : Int32) :
    sameValue (intSub a b) (.double (ofInt a.toInt - ofInt b.toInt)) = true := by
  refine sameValue_keepInt fun _ _ => ofInt_sub_ofInt (natAbs_log2_toInt a)
    (natAbs_log2_toInt b) (log2_le_of_lt ?_)
  omega

/-- A product of the fast path differs from that of doubles when it is a
negative zero. -/
theorem sameValue_intMul_iff (a b : Int32) :
    sameValue (intMul a b) (.double (ofInt a.toInt * ofInt b.toInt)) = true ↔
      ¬((a.toInt = 0 ∧ b.toInt < 0) ∨ (b.toInt = 0 ∧ a.toInt < 0)) := by
  have ha := natAbs_log2_toInt a
  have hb := natAbs_log2_toInt b
  by_cases h0 : a.toInt = 0 ∨ b.toInt = 0
  · have hzero : a.toInt * b.toInt = 0 := Int.mul_eq_zero.2 h0
    have hfits : (-2 ^ 31 : Int) ≤ 0 ∧ (0 : Int) < 2 ^ 31 := by omega
    rw [ofInt_mul_ofInt_zero ha hb h0, intMul, hzero, keepInt, if_pos hfits, sameValue_zero]
    rcases h0 with h0 | h0
    · rw [signOf_eq_positive.2 (by omega : ¬a.toInt < 0), positive_mul, signOf_eq_positive]
      omega
    · rw [signOf_eq_positive.2 (by omega : ¬b.toInt < 0), mul_positive, signOf_eq_positive]
      omega
  · obtain ⟨ha0, hb0⟩ := not_or.1 h0
    have hsame : sameValue (intMul a b) (.double (ofInt a.toInt * ofInt b.toInt)) = true := by
      refine sameValue_keepInt fun hlo hhi => ofInt_mul_ofInt ha hb (log2_le_of_lt ?_) ha0 hb0
      omega
    simp only [hsame, true_iff]
    omega

/-- A remainder of the fast path differs from that of doubles when it is a
negative zero. -/
theorem sameValue_intMod_iff (a b : Int32) :
    sameValue (intMod a b) (.double (rem (ofInt a.toInt) (ofInt b.toInt))) = true ↔
      ¬(a.toInt < 0 ∧ b.toInt ≠ 0 ∧ a.toInt.tmod b.toInt = 0 ∧
        ¬(a.toInt = -2 ^ 31 ∧ b.toInt = -1)) := by
  unfold intMod
  split
  · next h =>
    simp only [sameValue_refl, true_iff]
    tauto
  · next h =>
    obtain ⟨hb0, hmin⟩ := not_or.1 h
    have hbound : (a.toInt.tmod b.toInt).natAbs < b.toInt.natAbs := by
      rw [Int.natAbs_tmod]
      exact Nat.mod_lt _ (Int.natAbs_pos.2 hb0)
    have hlo := b.le_toInt
    have hhi := b.toInt_lt
    by_cases ha0 : a.toInt = 0
    · rw [ha0, Int.zero_tmod, rem_zero_ofInt (natAbs_log2_toInt b) hb0]
      simp only [sameValue_int (n := 0) (by omega) (by omega), true_iff]
      omega
    · rw [rem_ofInt_ofInt (natAbs_log2_toInt a) (natAbs_log2_toInt b) ha0 hb0]
      by_cases hr : a.toInt.tmod b.toInt = 0
      · rw [if_pos hr, hr, sameValue_zero, signOf_eq_positive]
        tauto
      · rw [if_neg hr, sameValue_int (by omega) (by omega)]
        simp only [true_iff]
        tauto

/-- On machine integers the compound instructions for sums, differences and
quotients give the JavaScript number of the binary ones. Those for products
and remainders do exactly when the result is not a negative zero computed
in 32 bits. -/
theorem compound_agrees_iff (host : Host) (toPrimitive : Nat → Result JsValue) (a b : Int32) :
    Agrees (dispatchCompoundAdd host toPrimitive (.int a) (.int b))
        (dispatchAdd host toPrimitive (.int a) (.int b)) ∧
      Agrees (dispatchCompoundSub host toPrimitive (.int a) (.int b))
        (binaryArith host toPrimitive subOp (.int a) (.int b)) ∧
      Agrees (dispatchCompoundDiv host toPrimitive (.int a) (.int b))
        (binaryArith host toPrimitive divOp (.int a) (.int b)) ∧
      (Agrees (dispatchCompoundMul host toPrimitive (.int a) (.int b))
          (binaryArith host toPrimitive mulOp (.int a) (.int b)) ↔
        ¬((a.toInt = 0 ∧ b.toInt < 0) ∨ (b.toInt = 0 ∧ a.toInt < 0))) ∧
      (Agrees (dispatchCompoundMod host toPrimitive (.int a) (.int b))
          (binaryArith host toPrimitive modOp (.int a) (.int b)) ↔
        ¬(a.toInt < 0 ∧ b.toInt ≠ 0 ∧ a.toInt.tmod b.toInt = 0 ∧
          ¬(a.toInt = -2 ^ 31 ∧ b.toInt = -1))) := by
  refine ⟨?_, ?_, ?_, ?_, ?_⟩
  · exact ⟨_, _, rfl, rfl, sameValue_refl _⟩
  · exact ⟨_, _, rfl, rfl, sameValue_intSub a b⟩
  · exact ⟨_, _, rfl, rfl, sameValue_refl _⟩
  · exact (agrees_ok _ _).trans (sameValue_intMul_iff a b)
  · exact (agrees_ok _ _).trans (sameValue_intMod_iff a b)

/-- `x *= -1` with `x = 0` and `x %= 2` with `x = -4` give `0` in place of
`-0`. -/
theorem compound_drops_negative_zero :
    ¬Agrees (dispatchCompoundMul silentHost (fun _ => .ok .undefined) (.int 0) (.int (-1)))
        (binaryArith silentHost (fun _ => .ok .undefined) mulOp (.int 0) (.int (-1))) ∧
      ¬Agrees (dispatchCompoundMod silentHost (fun _ => .ok .undefined) (.int (-4)) (.int 2))
        (binaryArith silentHost (fun _ => .ok .undefined) modOp (.int (-4)) (.int 2)) := by
  constructor
  · intro h
    have hsame : sameValue (.int 0) (.double (ofInt 0 * ofInt (-1))) = true :=
      (agrees_ok _ _).1 h
    revert hsame
    decide +kernel
  · intro h
    have hsame : sameValue (.int 0) (.double (rem (ofInt (-4)) (ofInt 2))) = true :=
      (agrees_ok _ _).1 h
    revert hsame
    decide +kernel

end OxideJS.Vm
