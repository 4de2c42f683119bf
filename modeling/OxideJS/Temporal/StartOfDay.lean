import Mathlib.Tactic.Ring
import OxideJS.Temporal.TimeZone
import OxideJS.Temporal.Rounding

/-!
The day of an instant in a zone.

`startOfDay`, `hoursInDay` and rounding to days take midnight of the local
date and subtract the offset of the receiver. That is the start of the day
as long as the offset does not change between midnight and the receiver,
and the next day starts a day later as long as it does not change until
then.
-/

namespace OxideJS.Temporal

/-- Rounding to multiples of a positive increment. -/
def roundInstantNs (value increment : Int) (mode : RoundingMode) : Int :=
  let quotient := value / increment
  let remainder := value % increment
  if remainder = 0 then value
  else
    let useUpper : Bool :=
      match mode with
      | .ceil | .expand => true
      | .floor | .trunc => false
      | mode =>
        if remainder * 2 < increment then false
        else if remainder * 2 > increment then true
        else
          match mode with
          | .halfCeil | .halfExpand => true
          | .halfFloor | .halfTrunc => false
          | _ => quotient % 2 ≠ 0
    (quotient + if useUpper then 1 else 0) * increment

namespace TzifZone

variable (z : TzifZone)

def offsetAt (epoch : Int) : Int :=
  z.tzOffsetSecondsOf (epoch / 1000000000)

/-- The local date of an instant, as days since the epoch. -/
def localDay (epoch : Int) : Int :=
  z.localNs epoch / dayNs

end TzifZone

def startOfDayEpochNsByDays (days offsetSeconds : Int) : Option Int :=
  let start := days * dayNs - offsetSeconds * 1000000000
  if |start| ≤ maxInstantNs then some start else none

namespace TzifZone

variable (z : TzifZone)

def startOfDay (epoch : Int) : Option Int :=
  startOfDayEpochNsByDays (z.localDay epoch) (z.offsetAt epoch)

def hoursInDay (epoch : Int) : Option ℚ := do
  let today ← startOfDayEpochNsByDays (z.localDay epoch) (z.offsetAt epoch)
  let tomorrow ← startOfDayEpochNsByDays (z.localDay epoch + 1) (z.offsetAt epoch)
  return ((tomorrow - today : Int) : ℚ) / 3600000000000

/-- `round` with the unit `day`, for which the increment is 1. -/
def roundToDay (epoch : Int) (mode : RoundingMode) : Option Int := do
  let start ← startOfDayEpochNsByDays (z.localDay epoch) (z.offsetAt epoch)
  let _ ← startOfDayEpochNsByDays (z.localDay epoch + 1) (z.offsetAt epoch)
  let result := start + roundInstantNs (epoch - start) dayNs mode
  if |result| ≤ maxInstantNs then some result else none

/-- The instants of a local date. -/
def day (days : Int) : Set Int :=
  {epoch | z.localDay epoch = days}

/-- The offset is that of the instant from a day before its date to two
days after it, and all offsets are shorter than a day. -/
structure Steady (epoch : Int) : Prop where
  short : ∀ s, -86400 < z.tzOffsetSecondsOf s ∧ z.tzOffsetSecondsOf s < 86400
  constant : ∀ x, (z.localDay epoch - 1) * dayNs ≤ x → x < (z.localDay epoch + 3) * dayNs →
    z.offsetAt x = z.offsetAt epoch

variable {z}

theorem localNs_eq (epoch : Int) : z.localNs epoch = epoch + z.offsetAt epoch * 1000000000 := rfl

/-- In a steady zone the date, and the next one, start at midnight. -/
theorem Steady.isLeast {epoch : Int} (h : z.Steady epoch) {k : Int} (hk : k = 0 ∨ k = 1) :
    IsLeast (z.day (z.localDay epoch + k))
      ((z.localDay epoch + k) * dayNs - z.offsetAt epoch * 1000000000) := by
  have hoffset := h.short (epoch / 1000000000)
  have hconst := h.constant
  change -86400 < z.offsetAt epoch ∧ z.offsetAt epoch < 86400 at hoffset
  generalize hday : z.localDay epoch = days at *
  generalize z.offsetAt epoch = o at *
  constructor
  · have hat := hconst ((days + k) * dayNs - o * 1000000000) (by simp only [dayNs]; omega)
      (by simp only [dayNs]; omega)
    show z.localNs _ / dayNs = _
    rw [localNs_eq, hat, sub_add_cancel]
    simp only [dayNs]
    omega
  · intro x hx
    have hx' : z.localNs x / dayNs = days + k := hx
    have hshort := h.short (x / 1000000000)
    change -86400 < z.offsetAt x ∧ z.offsetAt x < 86400 at hshort
    rw [localNs_eq] at hx'
    have hat := hconst x (by simp only [dayNs] at *; omega) (by simp only [dayNs] at *; omega)
    rw [hat] at hx'
    simp only [dayNs] at *
    omega

/-- **Start and length of a day.** Where the date of an instant starts at
`start` and the next one at `next`: `startOfDay` is that start exactly when
it is midnight read with the offset of the receiver, `hoursInDay` is the
length of the day exactly when that is 24 hours, and where both hold
rounding to days rounds between the two. Both hold where the offset does
not change around the day. -/
theorem day_bounds (z : TzifZone) (epoch start next : Int)
    (hstart : IsLeast (z.day (z.localDay epoch)) start)
    (hnext : IsLeast (z.day (z.localDay epoch + 1)) next)
    (hrange : ∀ k, k = 0 ∨ k = 1 →
      |(z.localDay epoch + k) * dayNs - z.offsetAt epoch * 1000000000| ≤ maxInstantNs) :
    (z.startOfDay epoch = some start
        ↔ start + z.offsetAt epoch * 1000000000 = z.localDay epoch * dayNs)
      ∧ (z.hoursInDay epoch = some (((next - start : Int) : ℚ) / 3600000000000)
        ↔ next - start = dayNs)
      ∧ (start + z.offsetAt epoch * 1000000000 = z.localDay epoch * dayNs →
        next - start = dayNs → ∀ mode result, z.roundToDay epoch mode = some result →
        result = start + roundInstantNs (epoch - start) (next - start) mode)
      ∧ (z.Steady epoch → start + z.offsetAt epoch * 1000000000 = z.localDay epoch * dayNs
        ∧ next - start = dayNs) := by
  have htoday : startOfDayEpochNsByDays (z.localDay epoch) (z.offsetAt epoch)
      = some (z.localDay epoch * dayNs - z.offsetAt epoch * 1000000000) := by
    have h := hrange 0 (.inl rfl)
    rw [add_zero] at h
    rw [startOfDayEpochNsByDays, if_pos h]
  have htomorrow : startOfDayEpochNsByDays (z.localDay epoch + 1) (z.offsetAt epoch)
      = some ((z.localDay epoch + 1) * dayNs - z.offsetAt epoch * 1000000000) := by
    rw [startOfDayEpochNsByDays, if_pos (hrange 1 (.inr rfl))]
  have hlength : (z.localDay epoch + 1) * dayNs - z.offsetAt epoch * 1000000000
      - (z.localDay epoch * dayNs - z.offsetAt epoch * 1000000000) = dayNs := by ring
  refine ⟨?_, ?_, ?_, ?_⟩
  · rw [startOfDay, htoday, Option.some_inj]
    omega
  · have hhours : z.hoursInDay epoch = some (((dayNs : Int) : ℚ) / 3600000000000) := by
      simp only [hoursInDay, htoday, htomorrow, Option.bind_eq_bind, Option.bind_some, hlength]
      rfl
    rw [hhours, Option.some_inj, div_left_inj' (by norm_num), Int.cast_inj]
    exact eq_comm
  · intro hmidnight hday mode result hround
    have hfirst : z.localDay epoch * dayNs - z.offsetAt epoch * 1000000000 = start := by omega
    simp only [roundToDay, htoday, htomorrow, Option.bind_eq_bind, Option.bind_some,
      hfirst] at hround
    split at hround
    · rw [hday]
      exact (Option.some_inj.1 hround).symm
    · cases hround
  · intro hsteady
    have hfirst := hstart.unique (by simpa using hsteady.isLeast (.inl rfl))
    have hsecond := hnext.unique (hsteady.isLeast (.inr rfl))
    constructor
    · omega
    · rw [hfirst, hsecond]
      exact hlength

/-- An hour forwards at two in the night of the first day of the epoch. -/
def nightForward : TzifZone :=
  ⟨0, [(7200, 3600)], 3600, by decide⟩

theorem offsetAt_nightForward (epoch : Int) :
    nightForward.offsetAt epoch = if epoch < 7200000000000 then 0 else 3600 := by
  rw [offsetAt, tzOffsetSecondsOf_eq, partitionPoint]
  by_cases h : 7200 ≤ epoch / 1000000000
  · rw [if_neg (by omega)]
    simp [nightForward, h, intervalOffset]
  · rw [if_pos (by omega)]
    simp [nightForward, h, intervalOffset]

/-- The first day has 23 hours. -/
theorem isLeast_day_nightForward :
    IsLeast (nightForward.day 0) 0 ∧ IsLeast (nightForward.day 1) 82800000000000 := by
  have hday : ∀ x, nightForward.localDay x
      = (x + (if x < 7200000000000 then 0 else 3600) * 1000000000) / 86400000000000 := by
    intro x
    rw [localDay, localNs_eq, offsetAt_nightForward]
    rfl
  refine ⟨⟨?_, fun x hx => ?_⟩, ⟨?_, fun x hx => ?_⟩⟩
  · exact (hday 0).trans (by decide)
  · have hx' : nightForward.localDay x = 0 := hx
    rw [hday] at hx'
    split at hx' <;> omega
  · exact (hday 82800000000000).trans (by decide)
  · have hx' : nightForward.localDay x = 1 := hx
    rw [hday] at hx'
    split at hx' <;> omega

/-- At noon of that day `startOfDay` is an instant of the day before, and
the day is said to have 24 hours. -/
theorem day_bounds_fail :
    nightForward.localDay 43200000000000 = 0
      ∧ IsLeast (nightForward.day 0) 0 ∧ IsLeast (nightForward.day 1) 82800000000000
      ∧ nightForward.startOfDay 43200000000000 = some (-3600000000000)
      ∧ nightForward.localDay (-3600000000000) = -1
      ∧ nightForward.hoursInDay 43200000000000 = some 24
      ∧ nightForward.roundToDay 43200000000000 .floor = some (-3600000000000) := by
  have htoday : startOfDayEpochNsByDays (nightForward.localDay 43200000000000)
      (nightForward.offsetAt 43200000000000) = some (-3600000000000) := by decide +kernel
  have htomorrow : startOfDayEpochNsByDays (nightForward.localDay 43200000000000 + 1)
      (nightForward.offsetAt 43200000000000) = some 82800000000000 := by decide +kernel
  refine ⟨by decide +kernel, isLeast_day_nightForward.1, isLeast_day_nightForward.2, htoday,
    by decide +kernel, ?_, by decide +kernel⟩
  simp only [hoursInDay, htoday, htomorrow, Option.bind_eq_bind, Option.bind_some]
  norm_num

/-- A zone whose offset never changes. -/
def plainZone : TzifZone :=
  ⟨3600, [], 3600, by decide⟩

theorem plainZone_steady : plainZone.Steady 0 := by
  have hoffset : ∀ s, plainZone.tzOffsetSecondsOf s = 3600 := fun _ => rfl
  refine ⟨fun s => ?_, fun _ _ _ => rfl⟩
  rw [hoffset]
  decide

theorem day_bounds_plain :
    plainZone.startOfDay 0 = some (-3600000000000)
      ∧ plainZone.hoursInDay 0 = some (((86400000000000 : Int) : ℚ) / 3600000000000) := by
  have hday : plainZone.localDay 0 = 0 := by decide +kernel
  have hoffset : plainZone.offsetAt 0 = 3600 := by decide +kernel
  have hstart : IsLeast (plainZone.day (plainZone.localDay 0)) (-3600000000000) := by
    simpa [hday, hoffset] using plainZone_steady.isLeast (.inl rfl)
  have hnext : IsLeast (plainZone.day (plainZone.localDay 0 + 1)) 82800000000000 :=
    plainZone_steady.isLeast (.inr rfl)
  have hrange : ∀ k : Int, k = 0 ∨ k = 1 →
      |(plainZone.localDay 0 + k) * dayNs - plainZone.offsetAt 0 * 1000000000|
        ≤ maxInstantNs := by
    rintro k (rfl | rfl)
    · decide +kernel
    · decide +kernel
  obtain ⟨hfirst, hhours, -, hsteady⟩ :=
    day_bounds plainZone 0 (-3600000000000) 82800000000000 hstart hnext hrange
  exact ⟨hfirst.2 (hsteady plainZone_steady).1, hhours.2 (hsteady plainZone_steady).2⟩

end TzifZone

end OxideJS.Temporal
