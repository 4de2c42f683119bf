import OxideJS.Lib.Nearest
import OxideJS.Value.JsValue

/-!
The keys of maps and sets.

Keys are compared with `SameValueZero`: numbers by value whatever their
representation, not-a-number equal to itself and the two zeros equal. It
is an equivalence, because it is equality of canonical forms: a number
counts as its unpacked float without the sign of a zero, any other value
as itself.
-/

namespace OxideJS.Collections

open Binary64
open Float.Model (UnpackedFloat)

/-- `SameValueZero` of two numbers. -/
def sameNumberZero (a b : Float) : Bool :=
  if a.isNaN && b.isNaN then true else a == b

def sameValueZero : JsValue → JsValue → Bool
  | .int a, .int b => a == b
  | .double a, .double b => sameNumberZero a b
  | .int a, .double b => sameNumberZero (toF64 (.int a)) (toF64 (.double b))
  | .double a, .int b => sameNumberZero (toF64 (.double a)) (toF64 (.int b))
  | a, b => sameValue a b

/-- A value as an element of a set or a key of a map. -/
structure SetKey where
  value : JsValue
  deriving DecidableEq

instance : BEq SetKey := ⟨fun a b => sameValueZero a.value b.value⟩

/-! ### Canonical forms -/

/-- Forgets the sign of a zero. -/
def unsigned : UnpackedFloat → UnpackedFloat
  | .zero _ => .zero .positive
  | a => a

def canonical : JsValue → UnpackedFloat ⊕ JsValue
  | .int i => .inl (unsigned (ofInt i.toInt).toModel.unpack)
  | .double x => .inl (unsigned x.toModel.unpack)
  | v => .inr v

theorem compare_eq_some_eq_iff {a b : UnpackedFloat} :
    a.compare b = some .eq ↔ a ≠ .notANumber ∧ unsigned a = unsigned b := by
  cases a with
  | notANumber => simp [UnpackedFloat.compare]
  | infinity s =>
    cases b with
    | infinity s' => cases s <;> cases s' <;> simp [UnpackedFloat.compare, unsigned] <;> decide
    | _ => cases s <;> simp [UnpackedFloat.compare, unsigned]
  | zero s =>
    cases b with
    | infinity s' => cases s' <;> simp [UnpackedFloat.compare, unsigned]
    | finite s' m e hm => cases s' <;> simp [UnpackedFloat.compare, unsigned]
    | _ => simp [UnpackedFloat.compare, unsigned]
  | finite s m e hm =>
    cases b with
    | infinity s' => cases s' <;> simp [UnpackedFloat.compare, unsigned]
    | zero s' => cases s <;> simp [UnpackedFloat.compare, unsigned]
    | notANumber => simp [UnpackedFloat.compare, unsigned]
    | finite s' m' e' hm' =>
      rw [compare_finite_eq_iff]
      simp [unsigned, and_comm]

theorem isNaN_iff_unpack {x : Float} : x.isNaN = true ↔ x.toModel.unpack = .notANumber := by
  show x.toModel.unpack.isNaN = true ↔ _
  cases x.toModel.unpack <;> simp [UnpackedFloat.isNaN]

theorem sameNumberZero_iff {x y : Float} : sameNumberZero x y = true ↔
    unsigned x.toModel.unpack = unsigned y.toModel.unpack := by
  have hbeq : (x == y) = true ↔ _ := beq_iff_compare.trans compare_eq_some_eq_iff
  by_cases hx : x.isNaN = true
  · have hux := isNaN_iff_unpack.mp hx
    by_cases hy : y.isNaN = true
    · rw [sameNumberZero, hx, hy, hux, isNaN_iff_unpack.mp hy]
      simp
    · have huy : y.toModel.unpack ≠ .notANumber := fun h => hy (isNaN_iff_unpack.mpr h)
      have hne : (x == y) = false := by
        rw [← Bool.not_eq_true, hbeq, hux]
        simp
      simp only [sameNumberZero, hx, hy, hne, hux]
      cases hu : y.toModel.unpack <;> simp_all [unsigned]
  · have hux : x.toModel.unpack ≠ .notANumber := fun h => hx (isNaN_iff_unpack.mpr h)
    have hread : sameNumberZero x y = (x == y) := by
      simp only [sameNumberZero, hx, Bool.false_and, Bool.false_eq_true, if_false]
    rw [hread, hbeq]
    exact and_iff_right hux

theorem unsigned_ofInt_inj {i j : Int32}
    (h : unsigned (ofInt i.toInt).toModel.unpack = unsigned (ofInt j.toInt).toModel.unpack) :
    i = j := by
  -- truncation does not look at the sign of a zero
  have htrunc (a : UnpackedFloat) : (unsigned a).toInt 0 0 = a.toInt 0 0 := by
    cases a <;> rfl
  have hi : truncToInt (ofInt i.toInt) = i.toInt := truncToInt_ofInt (natAbs_log2_toInt i)
  have hj : truncToInt (ofInt j.toInt) = j.toInt := truncToInt_ofInt (natAbs_log2_toInt j)
  rw [← Int32.toInt_inj, ← hi, ← hj, truncToInt, truncToInt, ← htrunc, h, htrunc]

theorem sameValueZero_iff {a b : JsValue} :
    sameValueZero a b = true ↔ canonical a = canonical b := by
  have hnumber {x y : Float} : sameNumberZero x y = true ↔
      canonical (.double x) = canonical (.double y) :=
    sameNumberZero_iff.trans Sum.inl_injective.eq_iff.symm
  have hother {v : JsValue} (u : UnpackedFloat) : (false = true) ↔ Sum.inl u = Sum.inr v := by simp
  have hother' {v : JsValue} (u : UnpackedFloat) : (false = true) ↔ Sum.inr v = Sum.inl u := by simp
  cases a with
  | int i =>
    cases b with
    | int j =>
      show (i == j) = true ↔ _
      rw [beq_iff_eq]
      exact ⟨fun h => by rw [h], fun h => unsigned_ofInt_inj (Sum.inl_injective h)⟩
    | double y => exact hnumber
    | _ => exact hother _
  | double x =>
    cases b with
    | int j => exact hnumber
    | double y => exact hnumber
    | _ => exact hother _
  | _ => cases b with
    | int j => exact hother' _
    | double y => exact hother' _
    | _ => first
      | exact iff_of_true rfl rfl
      | exact iff_of_false Bool.false_ne_true (by simp [canonical])
      | exact beq_iff_eq.trans (by simp [canonical])

theorem SetKey.beq_iff {a b : SetKey} :
    (a == b) = true ↔ canonical a.value = canonical b.value :=
  sameValueZero_iff

instance : EquivBEq SetKey where
  symm := by
    intro a b h
    rw [SetKey.beq_iff] at h ⊢
    exact h.symm
  trans := by
    intro a b c hab hbc
    rw [SetKey.beq_iff] at hab hbc ⊢
    exact hab.trans hbc
  rfl := SetKey.beq_iff.mpr rfl

/-! ### The negative zero -/

/-- The value is the negative zero. -/
def isNegZero : JsValue → Bool
  | .double x => x == ofInt 0 && isNegative x
  | _ => false

/-- Set algebra stores the positive zero for it. -/
def normalizeNegZero (value : JsValue) : JsValue :=
  if isNegZero value then .double (ofInt 0) else value

theorem canonical_of_isNegZero {v : JsValue} (h : isNegZero v = true) :
    canonical v = canonical (.double (ofInt 0)) := by
  cases v with
  | double x =>
    obtain ⟨hzero, -⟩ := Bool.and_eq_true_iff.mp h
    have hcompare := (compare_eq_some_eq_iff.mp (beq_iff_compare.mp hzero)).2
    exact congrArg Sum.inl hcompare
  | _ => exact nomatch h

@[simp] theorem canonical_normalizeNegZero (v : JsValue) :
    canonical (normalizeNegZero v) = canonical v := by
  unfold normalizeNegZero
  split
  · next h => exact (canonical_of_isNegZero h).symm
  · rfl

@[simp] theorem isNegZero_normalizeNegZero (v : JsValue) :
    isNegZero (normalizeNegZero v) = false := by
  unfold normalizeNegZero
  split
  · decide +kernel
  · next h => exact Bool.eq_false_iff.mpr h

end OxideJS.Collections
