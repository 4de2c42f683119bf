import OxideJS.Lib.Nearest
import OxideJS.Value.JsValue

/-!
The order of a big integer and a number.

`<` and `==` between a big integer and a number come from two algorithms.
The order clamps both sides to the range of a signed 128-bit integer and
compares exactly there, with a comparison of doubles for larger numbers;
equality always rounds the big integer to a double. On the integers the
two together are the order of the integers exactly when no rounding makes
different numbers equal and no clamping hides a difference at the ends of
the range.
-/

namespace OxideJS

open JsValue Binary64

/-- The big integer `n` and the number `num` stand to each other as the
integers `n` and `k` do, in both operand orders. -/
def Ordered (host : Host) (n : Int) (num : JsValue) (k : Int) : Prop :=
  relationalCompare host (.bigint n) num = some (decide (n < k)) ∧
    relationalCompare host num (.bigint n) = some (decide (k < n)) ∧
    abstractEqPrimitives host (.bigint n) num = decide (n = k) ∧
    abstractEqPrimitives host num (.bigint n) = decide (n = k)

/-- `k` is not the rounding of a different `n` to fifty-three bits, and `n`
is not beyond an end of the clamped range at which `k` lies. -/
def Separated (n k : Int) : Prop :=
  (nearestInt n = k → n = k) ∧ (k = 2 ^ 127 → n ≤ k) ∧ (k = -2 ^ 127 → k ≤ n)

instance (n k : Int) : Decidable (Separated n k) := by
  unfold Separated
  infer_instance

/-- The order `c` of a number and a big integer is that of the integers
`k` and `n`. -/
def OrderOf (c : Ordering) (k n : Int) : Prop := (c = .gt ↔ n < k) ∧ (c = .lt ↔ k < n)

theorem beq_lt (c : Ordering) : (c == .lt) = decide (c = .lt) := by
  cases c <;> rfl

variable {d : Float} {k n : Int}

/-- What the comparison of a double with a big integer computes when the
double is an integer. -/
theorem doubleCmpBigint_eq (h : Denotes d k) (n : Int) :
    doubleCmpBigint d n =
      if 2 ^ 127 < k.natAbs then (d.toModel.compare (ofInt n).toModel).getD .eq
      else compare (max (-2 ^ 127) (min (2 ^ 127 - 1) k))
        (max (-2 ^ 127) (min (2 ^ 127 - 1) n)) := by
  simp only [doubleCmpBigint, h.not_isNaN, h.not_isInf, h.truncToInt, h.ofInt_beq,
    Bool.false_eq_true,
    if_false, Bool.not_true, Bool.false_or, decide_eq_true_eq]

theorem orderOf_compare {a b : Int} (hgt : b < a ↔ n < k) (hlt : a < b ↔ k < n) :
    OrderOf (compare a b) k n :=
  ⟨Int.compare_eq_gt.trans hgt, Int.compare_eq_lt.trans hlt⟩

/-- Inside the range the clamped comparison is exact. -/
theorem orderOf_clamped (hlo : -2 ^ 127 < k) (hhi : k < 2 ^ 127 - 1) :
    OrderOf (compare k (max (-2 ^ 127) (min (2 ^ 127 - 1) n))) k n :=
  orderOf_compare (by omega) (by omega)

theorem separated_of_inside (hlo : k ≠ -2 ^ 127) (hhi : k ≠ 2 ^ 127) :
    Separated n k ↔ (nearestInt n = k → n = k) :=
  ⟨fun h => h.1, fun h => ⟨h, fun hk => absurd hk hhi, fun hk => absurd hk hlo⟩⟩

/-- An integer the double denotes is not the largest of the range, which
has 127 bits and is odd. -/
theorem ne_max (h : Denotes d k) : k ≠ 2 ^ 127 - 1 := by
  rintro rfl
  exact absurd (h.natAbs_lt_of_odd (by decide)) (by decide)

/-- An order that is never on the wrong side, and an equality only for
equal integers, is the order of the integers. -/
theorem orderOf_of_rounded {o : Ordering} (hle : n ≤ k → o ≠ .lt) (hge : k ≤ n → o ≠ .gt)
    (heq : o = .eq → n = k) : OrderOf o k n := by
  cases o with
  | lt =>
    have hlt : k < n := Int.not_le.1 fun h => hle h rfl
    exact ⟨iff_of_false (by decide) (by omega), iff_of_true rfl hlt⟩
  | eq =>
    have hsame := heq rfl
    exact ⟨iff_of_false (by decide) (by omega), iff_of_false (by decide) (by omega)⟩
  | gt =>
    have hgt : n < k := Int.not_le.1 fun h => hge h rfl
    exact ⟨iff_of_true rfl hgt, iff_of_false (by decide) (by omega)⟩

/-- The comparison of a double and the test for equality together are the
order of the integers exactly when the two are separated. -/
theorem doubleCmpBigint_orderOf (h : Denotes d k) :
    OrderOf (doubleCmpBigint d n) k n ∧ (nearestInt n = k → n = k) ↔ Separated n k := by
  rw [doubleCmpBigint_eq h]
  by_cases hbig : 2 ^ 127 < k.natAbs
  · rw [if_pos hbig, separated_of_inside (by omega) (by omega)]
    refine ⟨fun hs => hs.2, fun hs => ⟨?_, hs⟩⟩
    obtain ⟨o, ho, hle, hge⟩ := compare_ofInt h n
    rw [ho, Option.getD_some]
    rw [← ofInt_beq_iff h, beq_comm_float, beq_iff_compare, ho] at hs
    exact orderOf_of_rounded hle hge fun heq => hs (by rw [heq])
  · rw [if_neg hbig]
    by_cases hmax : k = 2 ^ 127
    · subst hmax
      -- the largest integer of the range rounds up to `k`
      have hround : nearestInt (2 ^ 127 - 1) = 2 ^ 127 := by decide +kernel
      constructor
      · rintro ⟨hord, heq⟩
        exact ⟨heq, fun _ => Int.not_lt.1 fun hlt => by
          have := Int.compare_eq_lt.1 (hord.2.2 hlt)
          omega, by omega⟩
      · rintro ⟨heq, hle, -⟩
        have hne : n ≠ 2 ^ 127 - 1 := fun hn => absurd (heq (hn ▸ hround)) (by omega)
        have hle := hle rfl
        exact ⟨orderOf_compare (by omega) (by omega), heq⟩
    · have hne := ne_max h
      constructor
      · rintro ⟨hord, heq⟩
        refine ⟨heq, fun hk => absurd hk hmax, fun hk => Int.not_lt.1 fun hlt => ?_⟩
        have := Int.compare_eq_gt.1 (hord.1.2 hlt)
        omega
      · rintro ⟨heq, -, hle⟩
        exact ⟨orderOf_compare (by omega) (by omega), heq⟩

theorem not_denotes_nan : ¬Denotes Float.nan k := fun h =>
  absurd h.not_isNaN (by decide +kernel)

/-- Only an integer or a double has a number that denotes anything. -/
theorem int_or_double {num : JsValue} (h : Denotes (toF64 num) k) :
    (∃ i, num = .int i) ∨ ∃ d, num = .double d := by
  cases num with
  | int i => exact .inl ⟨i, rfl⟩
  | double d => exact .inr ⟨d, rfl⟩
  | _ => exact absurd h not_denotes_nan

/-- The four comparisons of the source read the order twice and the
equality twice. -/
theorem ordered_iff {host : Host} {num : JsValue} (h : Denotes (toF64 num) k) :
    Ordered host n num k ↔
      OrderOf (numberCmpBigint num n) k n ∧ (nearestInt n = k → n = k) := by
  have hself : n = k → nearestInt n = k := fun hn => by
    rw [← ofInt_beq_iff h, hn]
    exact h.ofInt_beq
  have hread : Ordered host n num k ↔
      some (decide (numberCmpBigint num n = .gt)) = some (decide (n < k)) ∧
        some (decide (numberCmpBigint num n = .lt)) = some (decide (k < n)) ∧
        (ofInt n == toF64 num) = decide (n = k) ∧ (toF64 num == ofInt n) = decide (n = k) := by
    rcases int_or_double h with ⟨i, rfl⟩ | ⟨d, rfl⟩
    · simp [Ordered, relationalCompare, abstractEqPrimitives, looseEqUnboxed, jsType, toNumber,
        toF64, beq_lt]
    · have hnan : d ≠ Float.nan := by
        rintro rfl
        exact not_denotes_nan h
      simp [Ordered, relationalCompare, abstractEqPrimitives, looseEqUnboxed, jsType, toNumber,
        toF64, beq_lt, hnan]
  rw [hread, beq_comm_float (x := toF64 num), Option.some_inj, Option.some_inj, decide_eq_decide,
    decide_eq_decide, and_self, ← and_assoc]
  refine and_congr_right fun _ => ?_
  rw [Bool.eq_iff_iff, decide_eq_true_eq, ofInt_beq_iff h]
  exact ⟨fun hs => hs.1, fun hs => ⟨hs, hself⟩⟩

/-- Between a big integer and a number that denotes an integer, the
comparisons of the machine are those of the two integers exactly when the
two are separated. -/
theorem ordered_iff_separated (host : Host) (n : Int) (num : JsValue) (k : Int)
    (h : Denotes (toF64 num) k) : Ordered host n num k ↔ Separated n k := by
  rw [ordered_iff h]
  rcases int_or_double h with ⟨i, rfl⟩ | ⟨d, rfl⟩
  · have hk : k = i.toInt := by
      rw [← h.truncToInt]
      exact truncToInt_ofInt (natAbs_log2_toInt i)
    have hlo := i.le_toInt
    have hhi := i.toInt_lt
    rw [separated_of_inside (by omega) (by omega)]
    refine and_iff_right ?_
    subst hk
    exact orderOf_clamped (by omega) (by omega)
  · exact doubleCmpBigint_orderOf h

/-- `2 ^ 53 - 1` is less than the double `2 ^ 53` by every comparison. -/
theorem ordered_below_double :
    Ordered silentHost (2 ^ 53 - 1) (.double (ofInt (2 ^ 53))) (2 ^ 53) :=
  (ordered_iff_separated silentHost (2 ^ 53 - 1) (.double (ofInt (2 ^ 53))) (2 ^ 53)
    (by decide +kernel)).2 (by decide +kernel)

/-- `2 ^ 53 + 1` is both equal to the double `2 ^ 53` and greater, and
`2 ^ 128` is neither less than, equal to nor greater than the double
`2 ^ 127`. -/
theorem mixed_order_inconsistent :
    (Denotes (ofInt (2 ^ 53)) (2 ^ 53) ∧
      abstractEqPrimitives silentHost (.bigint (2 ^ 53 + 1)) (.double (ofInt (2 ^ 53))) = true ∧
      relationalCompare silentHost (.double (ofInt (2 ^ 53))) (.bigint (2 ^ 53 + 1)) = some true) ∧
    Denotes (ofInt (2 ^ 127)) (2 ^ 127) ∧
      abstractEqPrimitives silentHost (.bigint (2 ^ 128)) (.double (ofInt (2 ^ 127))) = false ∧
      relationalCompare silentHost (.bigint (2 ^ 128)) (.double (ofInt (2 ^ 127))) = some false ∧
      relationalCompare silentHost (.double (ofInt (2 ^ 127))) (.bigint (2 ^ 128)) =
        some false := by
  decide +kernel

end OxideJS
