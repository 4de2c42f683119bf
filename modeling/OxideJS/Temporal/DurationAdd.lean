import OxideJS.Lib.Nearest
import OxideJS.Lib.SmallIntegers
import Mathlib.Algebra.Order.Ring.Abs
import Mathlib.Tactic.IntervalCases
import Mathlib.Tactic.LinearCombination

/-!
Adding durations without calendar units.

A duration has ten components, from years at index 0 to nanoseconds at
index 9. The sum of two is taken in nanoseconds and split again from the
smallest unit up to the largest unit that occurs in either, which takes
all that is left.

Components are doubles that hold integers; here they are integers, and the
cast back to a double rounds to fifty-three bits.
-/

namespace OxideJS.Temporal

open Binary64

/-- The ten components; nothing is stored beyond index 9. -/
abbrev DurationValues := Nat → Int

/-- Nanoseconds of a unit from days on. -/
def unitNanoseconds : Nat → Int
  | 3 => 86400000000000
  | 4 => 3600000000000
  | 5 => 60000000000
  | 6 => 1000000000
  | 7 => 1000000
  | 8 => 1000
  | _ => 1

def durationTimeNanoseconds (v : DurationValues) : Int :=
  v 3 * unitNanoseconds 3 + v 4 * unitNanoseconds 4 + v 5 * unitNanoseconds 5
    + v 6 * unitNanoseconds 6 + v 7 * unitNanoseconds 7 + v 8 * unitNanoseconds 8
    + v 9 * unitNanoseconds 9

def maxTimeNanoseconds : Int :=
  2 ^ 53 * 1000000000

inductive DurationError where
  | calendarUnits
  | timeOutOfRange
  deriving DecidableEq

namespace DurationError

/-- All are RangeErrors. -/
def message : DurationError → String
  | calendarUnits => "cannot add durations with calendar units"
  | timeOutOfRange => "duration time fields are out of range"

end DurationError

/-- The cast of an integer to a double. -/
def asF64 (z : Int) : Int :=
  z.sign * nearest z.natAbs

/-- How many of a unit make one of the next larger. -/
def unitBase : Nat → Int
  | 7 | 8 | 9 => 1000
  | 5 | 6 => 60
  | _ => 24

/-- The loop over the units, upwards in size. The largest unit takes what
is left; the code never comes to unit 0. -/
def balance (cast : Int → Int) (largest : Nat) : Nat → Int → DurationValues → DurationValues
  | 0, rem, values => Function.update values 0 (cast rem)
  | unit + 1, rem, values =>
    if unit + 1 = largest then Function.update values (unit + 1) (cast rem)
    else
      balance cast largest unit (rem.tdiv (unitBase (unit + 1)))
        (Function.update values (unit + 1) (cast (rem.tmod (unitBase (unit + 1)))))

def largestUnit (a b : DurationValues) : Nat :=
  ((List.range' 3 7).find? fun u => a u != 0 || b u != 0).getD 9

def addDurationValues (a b : DurationValues) : Except DurationError DurationValues :=
  if (List.range 3).any fun u => a u != 0 || b u != 0 then .error .calendarUnits
  else if largestUnit a b = 9 ∧ a 9 + b 9 = 0 then .ok 0
  else
    let total := durationTimeNanoseconds fun u => a u + b u
    let values := balance asF64 (largestUnit a b) 9 total 0
    if |durationTimeNanoseconds values| ≥ maxTimeNanoseconds then .error .timeOutOfRange
    else .ok values

/-! ### The cast -/

theorem asF64_zero : asF64 0 = 0 := rfl

theorem asF64_small {z : Int} (h : |z| < 2 ^ 53) : asF64 z = z := by
  rw [Int.abs_eq_natAbs] at h
  rw [asF64, nearest_small (log2_le_of_lt (by omega)), Int.sign_mul_natAbs]

/-- What is below the bound after the cast was so before it. -/
theorem abs_lt_of_asF64 {z : Int} (h : |asF64 z| < 2 ^ 53) : |z| < 2 ^ 53 := by
  by_contra hlarge
  rw [Int.abs_eq_natAbs] at hlarge
  have hfull : (2 ^ 52 : Nat).log2 = 52 := by decide
  have hle := le_nearest (m := z.natAbs) (f := 1) hfull (by
    have : (2 : Nat) ^ 53 ≤ z.natAbs := by omega
    have hexp : ((1 : Int) + 52).toNat = 53 := by decide
    rw [hexp, Nat.mul_comm]
    exact Nat.mul_le_mul_right _ this)
  have hexp : ((1 : Int) + 52).toNat = 53 := by decide
  rw [hexp] at hle
  have hnearest : (2 : Nat) ^ 53 ≤ nearest z.natAbs := by omega
  have habs : |asF64 z| = nearest z.natAbs := by
    have hz : z ≠ 0 := by
      rintro rfl
      simp at hlarge
    rw [asF64, abs_mul, Int.abs_sign_of_ne_zero hz, one_mul, Nat.abs_cast]
  rw [habs] at h
  omega

theorem update_cast (cast : Int → Int) (values : DurationValues) (unit : Nat) (x : Int) :
    Function.update (fun u => cast (values u)) unit (cast x)
      = fun u => cast (Function.update values unit x u) := by
  funext u
  by_cases hu : u = unit
  · subst hu
    simp only [Function.update_self]
  · simp only [Function.update_of_ne hu]

/-- The cast may be made after the splitting. -/
theorem balance_cast (cast : Int → Int) (largest unit : Nat) (rem : Int)
    (values : DurationValues) :
    balance cast largest unit rem (fun u => cast (values u))
      = fun u => cast (balance id largest unit rem values u) := by
  induction unit generalizing rem values with
  | zero => rw [balance, balance, update_cast, id]
  | succ unit ih =>
    rw [balance, balance]
    split
    · rw [update_cast, id]
    · rw [update_cast, id]
      exact ih _ _

/-! ### Splitting a total -/

theorem unitNanoseconds_succ {unit : Nat} (hlow : 3 ≤ unit) (hhigh : unit < 9) :
    unitNanoseconds unit = unitBase (unit + 1) * unitNanoseconds (unit + 1) := by
  interval_cases unit <;> rfl

theorem unitBase_pos (unit : Nat) : 0 < unitBase unit := by
  unfold unitBase
  split <;> decide

theorem durationTimeNanoseconds_update {v : DurationValues} {u : Nat} (hlow : 3 ≤ u)
    (hhigh : u ≤ 9) (hzero : v u = 0) (x : Int) :
    durationTimeNanoseconds (Function.update v u x)
      = durationTimeNanoseconds v + x * unitNanoseconds u := by
  interval_cases u <;> simp [durationTimeNanoseconds, Function.update, hzero] <;> ring

variable {largest unit : Nat} {rem : Int} {values : DurationValues}

/-- The components denote what was there and what was left to split. -/
theorem durationTimeNanoseconds_balance (hlargest : 3 ≤ largest) (hle : largest ≤ unit)
    (hunit : unit ≤ 9) (hzero : ∀ u ≤ unit, values u = 0) :
    durationTimeNanoseconds (balance id largest unit rem values)
      = durationTimeNanoseconds values + rem * unitNanoseconds unit := by
  induction unit generalizing rem values with
  | zero => omega
  | succ unit ih =>
    rw [balance]
    split
    · exact durationTimeNanoseconds_update (by omega) hunit (hzero _ le_rfl) rem
    · next hne =>
      have hscale := unitNanoseconds_succ (show 3 ≤ unit by omega) (by omega)
      have hsplit := Int.mul_tdiv_add_tmod rem (unitBase (unit + 1))
      have hupdate := durationTimeNanoseconds_update (v := values) (u := unit + 1) (by omega) hunit
        (hzero _ le_rfl) (rem.tmod (unitBase (unit + 1)))
      rw [ih (by omega) (by omega) fun u hu => ?_, id, hupdate, hscale]
      · linear_combination unitNanoseconds (unit + 1) * hsplit
      · rw [Function.update_of_ne (by omega)]
        exact hzero u (by omega)

theorem balance_of_lt {u : Nat} (hu : u < largest) (hle : largest ≤ unit) :
    balance id largest unit rem values u = values u := by
  induction unit generalizing rem values with
  | zero => omega
  | succ unit ih =>
    rw [balance]
    split
    · exact Function.update_of_ne (by omega) _ _
    · rw [ih (by omega), Function.update_of_ne (by omega)]

theorem balance_of_gt {cast : Int → Int} {u : Nat} (hu : unit < u) :
    balance cast largest unit rem values u = values u := by
  induction unit generalizing rem values with
  | zero => exact Function.update_of_ne (by omega) _ _
  | succ unit ih =>
    rw [balance]
    split
    · exact Function.update_of_ne (by omega) _ _
    · rw [ih (by omega), Function.update_of_ne (by omega)]

theorem abs_tmod_lt (x : Int) {m : Int} (hm : 0 < m) : |x.tmod m| < m := by
  have hlt : x.natAbs % m.natAbs < m.natAbs := Nat.mod_lt _ (by omega)
  rw [Int.abs_eq_natAbs, Int.natAbs_tmod]
  omega

/-- A unit below the largest gets less than one of the next. -/
theorem abs_balance_lt {u : Nat} (hle : largest ≤ unit) (hu : largest < u) (hunit : u ≤ unit) :
    |balance id largest unit rem values u| < unitBase u := by
  induction unit generalizing rem values with
  | zero => omega
  | succ unit ih =>
    rw [balance, if_neg (by omega)]
    rcases Nat.lt_or_ge unit u with hlast | hnext
    · obtain rfl : u = unit + 1 := by omega
      rw [balance_of_gt (by omega), Function.update_self]
      exact abs_tmod_lt rem (unitBase_pos _)
    · exact ih (by omega) hnext

/-- A total that is not negative is split into components that are not. -/
theorem balance_nonneg (hrem : 0 ≤ rem) (hvalues : ∀ u, 0 ≤ values u) (u : Nat) :
    0 ≤ balance id largest unit rem values u := by
  have hupdate : ∀ (unit : Nat) {x : Int}, 0 ≤ x → ∀ v, 0 ≤ Function.update values unit x v := by
    intro unit x hx v
    rw [Function.update_apply]
    split
    · exact hx
    · exact hvalues v
  induction unit generalizing rem values with
  | zero => exact hupdate 0 hrem u
  | succ unit ih =>
    rw [balance]
    split
    · exact hupdate (unit + 1) hrem u
    · have hbase := (unitBase_pos (unit + 1)).le
      have hnext := hupdate (unit + 1) (Int.tmod_nonneg (unitBase (unit + 1)) hrem)
      refine ih (Int.tdiv_nonneg hrem hbase) hnext fun unit' x hx v => ?_
      rw [Function.update_apply]
      split
      · exact hx
      · exact hnext v

theorem balance_neg (u : Nat) :
    balance id largest unit (-rem) (-values) u = -balance id largest unit rem values u := by
  have hupdate : ∀ (values : DurationValues) (unit : Nat) (x : Int),
      Function.update (-values) unit (-x) = -Function.update values unit x := by
    intro values unit x
    rw [← Function.update_neg]
  induction unit generalizing rem values with
  | zero =>
    rw [balance, balance, id, id, hupdate]
    rfl
  | succ unit ih =>
    rw [balance, balance]
    split
    · rw [id, id, hupdate]
      rfl
    · rw [id, id, Int.neg_tmod, Int.neg_tdiv, hupdate]
      exact ih

/-- The components of a total have its sign. -/
theorem balance_oneSign (largest : Nat) (total : Int) :
    (∀ u, 0 ≤ balance id largest 9 total 0 u) ∨ ∀ u, balance id largest 9 total 0 u ≤ 0 := by
  rcases le_total 0 total with h | h
  · exact .inl (balance_nonneg h fun _ => le_rfl)
  · refine .inr fun u => ?_
    have hneg : balance id largest 9 (- -total) (-0) u = -balance id largest 9 (-total) 0 u :=
      balance_neg u
    have hpos : 0 ≤ balance id largest 9 (-total) 0 u :=
      balance_nonneg (by omega) (fun _ => le_rfl) u
    rw [neg_neg, neg_zero] at hneg
    omega

/-! ### The largest unit -/

/-- A unit of one of the operands. -/
def Occurs (a b : DurationValues) (u : Nat) : Prop :=
  a u ≠ 0 ∨ b u ≠ 0

theorem largestUnit_cases (a b : DurationValues) :
    (3 ≤ largestUnit a b ∧ largestUnit a b ≤ 9 ∧ Occurs a b (largestUnit a b)
        ∧ ∀ u, 3 ≤ u → u < largestUnit a b → ¬Occurs a b u)
      ∨ (largestUnit a b = 9 ∧ ∀ u, 3 ≤ u → u ≤ 9 → ¬Occurs a b u) := by
  rw [largestUnit]
  cases hfind : (List.range' 3 7).find? fun u => a u != 0 || b u != 0 with
  | none =>
    refine .inr ⟨rfl, fun u hlow hhigh hoccurs => ?_⟩
    rw [List.find?_eq_none] at hfind
    have := hfind u (List.mem_range'_1.2 (by omega))
    simp only [Occurs] at hoccurs
    simp only [Bool.or_eq_true, bne_iff_ne] at this
    exact this hoccurs
  | some u =>
    obtain ⟨hoccurs, i, hi, hat, hbefore⟩ := List.find?_eq_some_iff_getElem.1 hfind
    rw [List.getElem_range'] at hat
    rw [List.length_range'] at hi
    simp only [Bool.or_eq_true, bne_iff_ne] at hoccurs
    refine .inl ⟨?_, ?_, hoccurs, fun v hlow hhigh hv => ?_⟩
    · rw [Option.getD_some]
      omega
    · rw [Option.getD_some]
      omega
    · rw [Option.getD_some] at hhigh
      have hv' := hbefore (v - 3) (by omega)
      rw [List.getElem_range', Nat.one_mul, Nat.add_sub_cancel' hlow] at hv'
      simp only [Occurs] at hv
      simp only [Bool.not_eq_true', Bool.or_eq_false_iff, bne_eq_false_iff_eq] at hv'
      omega

/-! ### The sum -/

/-- The components denote the sum, have one sign, are smaller than their
radix below the largest unit of the operands, and use no larger unit. -/
structure Balanced (a b r : DurationValues) : Prop where
  exact : durationTimeNanoseconds r = durationTimeNanoseconds a + durationTimeNanoseconds b
  oneSign : (∀ u, 0 ≤ r u) ∨ ∀ u, r u ≤ 0
  radix : ∀ u ≤ 9, (∃ larger < u, Occurs a b larger) → |r u| < unitBase u
  noLarger : ∀ u, r u ≠ 0 → ∃ larger ≤ u, Occurs a b larger

theorem durationTimeNanoseconds_add (a b : DurationValues) :
    durationTimeNanoseconds (fun u => a u + b u)
      = durationTimeNanoseconds a + durationTimeNanoseconds b := by
  simp only [durationTimeNanoseconds]
  ring

variable {a b : DurationValues}

theorem durationTimeNanoseconds_of_only_nanoseconds {v : DurationValues}
    (h : ∀ u, 3 ≤ u → u < 9 → v u = 0) : durationTimeNanoseconds v = v 9 := by
  simp only [durationTimeNanoseconds, h 3 (by omega) (by omega), h 4 (by omega) (by omega),
    h 5 (by omega) (by omega), h 6 (by omega) (by omega), h 7 (by omega) (by omega),
    h 8 (by omega) (by omega), unitNanoseconds]
  ring

/-- The components of the sum before the cast. -/
def exactSum (a b : DurationValues) : DurationValues :=
  balance id (largestUnit a b) 9 (durationTimeNanoseconds fun u => a u + b u) 0

/-- The split total is the balanced sum. -/
theorem balanced_exactSum (hcalendar : ∀ u < 3, a u = 0 ∧ b u = 0)
    (hnonzero : ¬(largestUnit a b = 9 ∧ a 9 + b 9 = 0)) : Balanced a b (exactSum a b) := by
  have hoccurs : ∀ u, Occurs a b u → 3 ≤ u := by
    intro u hu
    by_contra hlow
    have := hcalendar u (by omega)
    simp only [Occurs] at hu
    omega
  rcases largestUnit_cases a b with ⟨hlow, hhigh, hlargest, hfirst⟩ | ⟨h9, hnone⟩
  · refine ⟨?_, balance_oneSign _ _, ?_, ?_⟩
    · have hstart : ∀ u ≤ 9, (0 : DurationValues) u = 0 := fun _ _ => rfl
      rw [exactSum, durationTimeNanoseconds_balance hlow hhigh le_rfl hstart,
        durationTimeNanoseconds_add]
      simp [durationTimeNanoseconds, unitNanoseconds]
    · rintro u hu ⟨larger, hlarger, hocc⟩
      refine abs_balance_lt hhigh ?_ hu
      by_contra hle
      exact hfirst larger (hoccurs larger hocc) (by omega) hocc
    · intro u hu
      refine ⟨largestUnit a b, ?_, hlargest⟩
      by_contra hlt
      exact hu (balance_of_lt (by omega) hhigh)
  · have hzero := hnone 9 (by omega) le_rfl
    simp only [Occurs] at hzero
    exact absurd ⟨h9, by omega⟩ hnonzero

theorem balanced_zero (hcalendar : ∀ u < 3, a u = 0 ∧ b u = 0)
    (hzero : largestUnit a b = 9 ∧ a 9 + b 9 = 0) : Balanced a b 0 := by
  have hsmall : ∀ u < 9, ¬Occurs a b u := by
    intro u hu hocc
    rcases Nat.lt_or_ge u 3 with hlow | hlow
    · have := hcalendar u hlow
      simp only [Occurs] at hocc
      omega
    · rcases largestUnit_cases a b with ⟨_, _, _, hfirst⟩ | ⟨_, hnone⟩
      · exact hfirst u hlow (by omega) hocc
      · exact hnone u hlow (by omega) hocc
  have hvalues : ∀ u, 3 ≤ u → u < 9 → a u = 0 ∧ b u = 0 := by
    intro u _ hu
    have := hsmall u hu
    simp only [Occurs] at this
    omega
  refine ⟨?_, .inl fun _ => le_rfl, ?_, fun u hu => absurd rfl hu⟩
  · rw [durationTimeNanoseconds_of_only_nanoseconds fun u h h' => (hvalues u h h').1,
      durationTimeNanoseconds_of_only_nanoseconds fun u h h' => (hvalues u h h').2, hzero.2]
    rfl
  · rintro u hu ⟨larger, hlarger, hocc⟩
    exact absurd hocc (hsmall larger (by omega))

theorem any_calendar_eq_false (hcalendar : ∀ u < 3, a u = 0 ∧ b u = 0) :
    ((List.range 3).any fun u => a u != 0 || b u != 0) = false := by
  rw [List.any_eq_false]
  intro u hu
  have := hcalendar u (List.mem_range.1 hu)
  simp [this.1, this.2]

/-- What is stored of the sum. -/
theorem addDurationValues_eq (hcalendar : ∀ u < 3, a u = 0 ∧ b u = 0)
    (hnonzero : ¬(largestUnit a b = 9 ∧ a 9 + b 9 = 0)) :
    addDurationValues a b =
      if |durationTimeNanoseconds fun u => asF64 (exactSum a b u)| ≥ maxTimeNanoseconds then
        .error .timeOutOfRange
      else .ok fun u => asF64 (exactSum a b u) := by
  have hcast := balance_cast asF64 (largestUnit a b) 9
    (durationTimeNanoseconds fun u => a u + b u) 0
  have hstart : (fun u => asF64 ((0 : DurationValues) u)) = 0 := funext fun _ => asF64_zero
  rw [hstart] at hcast
  rw [addDurationValues, any_calendar_eq_false hcalendar, if_neg (by decide), if_neg hnonzero]
  dsimp only
  rw [exactSum, ← hcast]

/-- **Durations add exactly.** Whatever is returned with components below
`2 ^ 53` is the balanced sum; and a sum is returned whenever its exact
components and its seconds stay below that bound. -/
theorem addDurationValues_balanced (a b : DurationValues)
    (hcalendar : ∀ u < 3, a u = 0 ∧ b u = 0) :
    (∀ r, addDurationValues a b = .ok r → (∀ u, |r u| < 2 ^ 53) → Balanced a b r)
      ∧ ((∀ u, |exactSum a b u| < 2 ^ 53) →
        |durationTimeNanoseconds a + durationTimeNanoseconds b| < maxTimeNanoseconds →
        ∃ r, addDurationValues a b = .ok r) := by
  by_cases hzero : largestUnit a b = 9 ∧ a 9 + b 9 = 0
  · have hok : addDurationValues a b = .ok 0 := by
      rw [addDurationValues, any_calendar_eq_false hcalendar, if_neg (by decide), if_pos hzero]
    refine ⟨fun r hr _ => ?_, fun _ _ => ⟨0, hok⟩⟩
    rw [hok] at hr
    cases hr
    exact balanced_zero hcalendar hzero
  · have hbalanced := balanced_exactSum hcalendar hzero
    rw [addDurationValues_eq hcalendar hzero]
    constructor
    · intro r hr hsmall
      split at hr
      · cases hr
      · cases hr
        have hexact : (fun u => asF64 (exactSum a b u)) = exactSum a b :=
          funext fun u => asF64_small (abs_lt_of_asF64 (hsmall u))
        rw [hexact]
        exact hbalanced
    · intro hsmall htotal
      have hexact : (fun u => asF64 (exactSum a b u)) = exactSum a b :=
        funext fun u => asF64_small (hsmall u)
      rw [hexact, hbalanced.exact, if_neg (by omega)]
      exact ⟨_, rfl⟩

/-- Minus one minute and ninety seconds make half a minute, as seconds
below a minute. -/
theorem addDurationValues_balanced_mixed :
    let a : DurationValues := fun u => if u = 5 then -1 else 0
    let b : DurationValues := fun u => if u = 6 then 90 else 0
    ∃ r, addDurationValues a b = .ok r ∧ r 5 = 0 ∧ r 6 = 30 ∧ Balanced a b r := by
  intro a b
  have hsum : addDurationValues a b = .ok (balance asF64 5 9 30000000000 0) := by
    rw [addDurationValues, if_neg (by decide), if_neg (by decide)]
    dsimp only
    rw [if_neg (by decide +kernel)]
    rfl
  refine ⟨_, hsum, by decide +kernel, by decide +kernel, ?_⟩
  refine (addDurationValues_balanced a b (by decide)).1 _ hsum fun u => ?_
  rcases Nat.lt_or_ge 9 u with hbeyond | hunit
  · rw [balance_of_gt hbeyond, Pi.zero_apply]
    decide
  · interval_cases u <;> decide +kernel

end OxideJS.Temporal
