import OxideJS.Temporal.DateUntil

/-!
Rounding a number of nanoseconds.

Days and times have fixed lengths: a difference in them is one number of
nanoseconds and rounded to a multiple of the increment in one of nine
modes.
-/

namespace OxideJS.Temporal

def dayNs : Int := 86400000000000

inductive RoundingMode where
  | ceil | floor | expand | trunc | halfCeil | halfFloor | halfExpand | halfTrunc | halfEven
  deriving DecidableEq

def roundInstantDifference (value increment : Int) (mode : RoundingMode) : Int :=
  let negative := value < 0
  let magnitude : Int := value.natAbs
  let quotient := magnitude / increment
  let remainder := magnitude % increment
  if remainder = 0 then value
  else
    let useUpper : Bool :=
      match mode with
      | .ceil => !negative
      | .expand => true
      | .floor => negative
      | .trunc => false
      | mode =>
        if remainder * 2 < increment then false
        else if remainder * 2 > increment then true
        else
          match mode with
          | .halfCeil => !negative
          | .halfEven => quotient % 2 ≠ 0
          | .halfExpand => true
          | .halfFloor => negative
          | _ => false
    let rounded := (quotient + if useUpper then 1 else 0) * increment
    if negative then -rounded else rounded

def negateRoundingMode : RoundingMode → RoundingMode
  | .ceil => .floor
  | .floor => .ceil
  | .halfCeil => .halfFloor
  | .halfFloor => .halfCeil
  | other => other

structure IsoDateTime where
  date : IsoDate
  timeNs : Int
  deriving DecidableEq

def IsoDateTime.epoch (t : IsoDateTime) : Int := daysFromCivil t.date * dayNs + t.timeNs

/-- A date and a time of day. -/
def IsoDateTime.Valid (t : IsoDateTime) : Prop :=
  t.date.Valid ∧ 0 ≤ t.timeNs ∧ t.timeNs < dayNs

/-! ### The modes -/

/-- The mode takes the multiple that is further from zero, where `part` of the `whole` between
the two multiples is left. -/
def roundsAway (mode : RoundingMode) (negative odd : Bool) (part whole : Int) : Bool :=
  match mode with
  | .ceil => !negative
  | .floor => negative
  | .expand => true
  | .trunc => false
  | .halfCeil => whole < part * 2 || (whole = part * 2 && !negative)
  | .halfFloor => whole < part * 2 || (whole = part * 2 && negative)
  | .halfExpand => whole ≤ part * 2
  | .halfTrunc => whole < part * 2
  | .halfEven => whole < part * 2 || (whole = part * 2 && odd)

/-- A number of nanoseconds is rounded to one of the two multiples around it by the mode. -/
theorem roundInstantDifference_eq (value increment : Int) (mode : RoundingMode) :
    let quotient := (value.natAbs : Int) / increment
    let rest := (value.natAbs : Int) % increment
    roundInstantDifference value increment mode =
      (if value < 0 then -1 else 1) * ((quotient + if rest ≠ 0 ∧
        roundsAway mode (value < 0) (quotient % 2 ≠ 0) rest increment then 1 else 0) *
          increment) := by
  have hdiv : (value.natAbs : Int) / increment * increment + (value.natAbs : Int) % increment =
      value.natAbs := Int.ediv_mul_add_emod _ _
  unfold roundInstantDifference
  dsimp only
  generalize (value.natAbs : Int) / increment = quotient at *
  generalize (value.natAbs : Int) % increment = rest at *
  by_cases hrest : rest = 0
  · simp only [hrest, if_true, ne_eq, not_true, false_and, if_false, add_zero]
    split <;> omega
  · have hsign (x : Int) : (if value < 0 then -x else x) = (if value < 0 then -1 else 1) * x := by
      split <;> omega
    rw [if_neg hrest, hsign]
    congr 3
    rcases lt_trichotomy (rest * 2) increment with h | h | h
    · have h1 : ¬increment < rest * 2 := by omega
      have h2 : ¬increment = rest * 2 := by omega
      have h3 : ¬increment ≤ rest * 2 := by omega
      cases mode <;> simp [roundsAway, hrest, h, h1, h2, h3]
    · cases mode <;> simp [roundsAway, hrest, h]
    · have h1 : ¬rest * 2 < increment := by omega
      have h3 : increment ≤ rest * 2 := by omega
      cases mode <;> simp [roundsAway, hrest, h, h1, h3]

end OxideJS.Temporal
