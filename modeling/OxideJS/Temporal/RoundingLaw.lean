import OxideJS.Temporal.Rounding

/-!
What rounding a number of nanoseconds does, whatever the number.

The code divides the magnitude and puts the sign back, so the modes that go
up or down are those that go away from zero or towards it, depending on the
sign. The law is stated without magnitudes: a multiple of the increment less
than one increment away, on the side the mode asks for.
-/

namespace OxideJS.Temporal

/-- Away from zero. -/
def Beyond (x r : Int) : Prop := if x < 0 then r ≤ x else x ≤ r

/-- Towards zero. -/
def Within (x r : Int) : Prop := if x < 0 then x ≤ r else r ≤ x

/-- Which of two multiples that are equally far the mode takes. -/
def Breaks (mode : RoundingMode) (increment x r : Int) : Prop :=
  match mode with
  | .halfCeil => x ≤ r
  | .halfFloor => r ≤ x
  | .halfExpand => Beyond x r
  | .halfTrunc => Within x r
  | .halfEven => 2 * increment ∣ r
  | _ => True

/-- The side the mode asks for, and for the half modes the nearer multiple. -/
def Prescribed (mode : RoundingMode) (increment x r : Int) : Prop :=
  match mode with
  | .ceil => x ≤ r
  | .floor => r ≤ x
  | .expand => Beyond x r
  | .trunc => Within x r
  | mode => 2 * |r - x| ≤ increment ∧ (2 * |r - x| = increment → Breaks mode increment x r)

/-- An even multiple is one of twice the increment. -/
theorem two_mul_dvd (increment : Int) {q : Int} (h : q % 2 = 0) : 2 * increment ∣ q * increment :=
  mul_dvd_mul_right (Int.dvd_of_emod_eq_zero h) increment

section Law

variable (x increment : Int) (mode : RoundingMode)

/-- The multiple is one of the two around the number, and which of the two depends on what is
left of the magnitude. -/
theorem roundInstantDifference_cases :
    let q := (x.natAbs : Int) / increment
    let rest := (x.natAbs : Int) % increment
    let r := roundInstantDifference x increment mode
    let away := roundsAway mode (x < 0) (q % 2 ≠ 0) rest increment
    (rest = 0 ∨ away = false) ∧ r = (if x < 0 then -1 else 1) * (q * increment) ∨
      rest ≠ 0 ∧ away = true ∧ r = (if x < 0 then -1 else 1) * (q * increment + increment) := by
  intro q rest r away
  have hr : r = _ := roundInstantDifference_eq x increment mode
  by_cases haway : rest ≠ 0 ∧ away = true
  · refine .inr ⟨haway.1, haway.2, ?_⟩
    rw [hr, if_pos haway, Int.add_mul, Int.one_mul]
  · refine .inl ⟨?_, ?_⟩
    · rw [not_and_or, not_not, Bool.not_eq_true] at haway
      exact haway
    · rw [hr, if_neg haway, Int.add_zero]

variable {increment} (hinc : 0 < increment)

include hinc

/-- The magnitude is the nearer multiple with what is left. -/
theorem natAbs_split :
    (x.natAbs : Int) / increment * increment + (x.natAbs : Int) % increment = x.natAbs ∧
      0 ≤ (x.natAbs : Int) % increment ∧ (x.natAbs : Int) % increment < increment :=
  ⟨Int.ediv_mul_add_emod _ _, Int.emod_nonneg _ hinc.ne', Int.emod_lt_of_pos _ hinc⟩

theorem roundInstantDifference_near :
    let r := roundInstantDifference x increment mode
    increment ∣ r ∧ |r - x| < increment ∧ (increment ∣ x → r = x) := by
  have hcases := roundInstantDifference_cases x increment mode
  dsimp only at hcases
  obtain ⟨hsplit, hnonneg, hlt⟩ := natAbs_split x hinc
  have hdvd : increment ∣ (x.natAbs : Int) / increment * increment := dvd_mul_left _ _
  have hexact (h : increment ∣ x) : (x.natAbs : Int) % increment = 0 :=
    Int.emod_eq_zero_of_dvd (Int.dvd_natAbs.2 h)
  generalize roundInstantDifference x increment mode = r at *
  generalize (x.natAbs : Int) / increment * increment = base at *
  generalize (x.natAbs : Int) % increment = rest at *
  dsimp only
  refine ⟨?_, ?_, fun h => ?_⟩
  · rcases hcases with ⟨-, rfl⟩ | ⟨-, -, rfl⟩
    · exact dvd_mul_of_dvd_right hdvd _
    · exact dvd_mul_of_dvd_right (Int.dvd_add hdvd (dvd_refl _)) _
  · rw [abs_lt]
    rcases hcases with ⟨-, hr⟩ | ⟨hne, -, hr⟩ <;> split at hr <;> omega
  · have hzero := hexact h
    rcases hcases with ⟨-, hr⟩ | ⟨hne, -, hr⟩ <;> split at hr <;> omega

theorem roundInstantDifference_prescribed :
    Prescribed mode increment x (roundInstantDifference x increment mode) := by
  have hcases := roundInstantDifference_cases x increment mode
  dsimp only at hcases
  obtain ⟨hsplit, hnonneg, hlt⟩ := natAbs_split x hinc
  have heven := two_mul_dvd increment (q := (x.natAbs : Int) / increment)
  have hodd := two_mul_dvd increment (q := (x.natAbs : Int) / increment + 1)
  rw [Int.add_mul, Int.one_mul] at hodd
  generalize roundInstantDifference x increment mode = r at *
  generalize (x.natAbs : Int) / increment * increment = base at *
  generalize (x.natAbs : Int) / increment = q at *
  generalize (x.natAbs : Int) % increment = rest at *
  cases mode
  case halfEven =>
    simp only [Prescribed, Breaks, roundsAway, Bool.or_eq_false_iff, Bool.or_eq_true,
      Bool.and_eq_true, Bool.and_eq_false_iff, decide_eq_true_eq, decide_eq_false_iff_not,
      not_not, ne_eq, Int.abs_eq_natAbs] at hcases ⊢
    refine ⟨?_, fun htie => ?_⟩
    · rcases hcases with ⟨haway, hr⟩ | ⟨hne, haway, hr⟩ <;> split at hr <;> omega
    · rcases hcases with ⟨haway, rfl⟩ | ⟨hne, haway, rfl⟩
      · refine dvd_mul_of_dvd_right (heven ?_) _
        split at htie <;> omega
      · refine dvd_mul_of_dvd_right (hodd ?_) _
        split at htie <;> omega
  all_goals
    simp only [Prescribed, Breaks, Beyond, Within, roundsAway, Bool.or_eq_false_iff,
      Bool.or_eq_true, Bool.and_eq_true, Bool.and_eq_false_iff, decide_eq_true_eq,
      decide_eq_false_iff_not, Bool.not_eq_true', Bool.not_eq_false', Int.abs_eq_natAbs] at hcases ⊢
    by_cases hx : x < 0
    · simp only [hx, if_true, not_true, and_true, and_false, or_true, false_and, or_false,
        true_and, reduceCtorEq] at hcases ⊢
      omega
    · simp only [hx, if_false, not_false_iff, and_true, and_false, or_true, or_false, true_and,
        false_and, reduceCtorEq] at hcases ⊢
      omega

end Law

/-- The mode of the opposite direction goes away from zero where the mode does, for the number
with the other sign. -/
theorem roundsAway_negate (mode : RoundingMode) (negative odd : Bool) (part whole : Int) :
    roundsAway (negateRoundingMode mode) (!negative) odd part whole =
      roundsAway mode negative odd part whole := by
  cases mode <;> simp [roundsAway, negateRoundingMode]

theorem roundInstantDifference_neg (x increment : Int) (mode : RoundingMode) :
    roundInstantDifference (-x) increment (negateRoundingMode mode) =
      -roundInstantDifference x increment mode := by
  rw [roundInstantDifference_eq, roundInstantDifference_eq, Int.natAbs_neg]
  by_cases hzero : x = 0
  · subst hzero
    simp
  · have hsign : decide (-x < 0) = !decide (x < 0) := by
      rw [← decide_not]
      exact decide_eq_decide.2 (by omega)
    rw [hsign, roundsAway_negate]
    by_cases hx : x < 0
    · rw [if_neg (show ¬-x < 0 by omega), if_pos hx, Int.neg_mul, Int.one_mul, Int.neg_neg]
    · rw [if_pos (show -x < 0 by omega), if_neg hx, Int.neg_mul, Int.one_mul]

/-- Every number is rounded to a multiple of the increment less than one increment away, to
itself if it is one, on the side the mode asks for; and the negated number is rounded to the
negated multiple in the mode of the opposite direction. -/
theorem roundInstantDifference_law (x increment : Int) (mode : RoundingMode)
    (hinc : 0 < increment) :
    let r := roundInstantDifference x increment mode
    increment ∣ r ∧ |r - x| < increment ∧ (increment ∣ x → r = x) ∧
      Prescribed mode increment x r ∧
      roundInstantDifference (-x) increment (negateRoundingMode mode) = -r := by
  obtain ⟨hdvd, hnear, hexact⟩ := roundInstantDifference_near x mode hinc
  exact ⟨hdvd, hnear, hexact, roundInstantDifference_prescribed x mode hinc,
    roundInstantDifference_neg x increment mode⟩

/-- A tie in front of zero. -/
theorem roundInstantDifference_law_tie :
    Prescribed .halfEven 10 (-25) (roundInstantDifference (-25) 10 .halfEven) ∧
      roundInstantDifference (-25) 10 .halfEven = -20 :=
  ⟨(roundInstantDifference_law (-25) 10 .halfEven (by decide)).2.2.2.1, by decide⟩

end OxideJS.Temporal
