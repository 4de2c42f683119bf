import OxideJS.Temporal.Calendar

/-!
Time values and their local components.

A time value is a number of milliseconds since the start of 1970, or not a
number, which is `none` here; the numbers met are integers of at most
`8.64e15` and a few days more, so that doubles hold them exactly. A zone says
which time value a local date and time stands for. Both directions of the
local mapping ask it the same question.
-/

namespace OxideJS.Date

open Temporal (IsoDate)

/-- The bound on a time value. -/
def msLimit : Int := 8640000000000000

def msPerDay : Int := 86400000

/-- The era is found by a division that rounds towards zero. -/
def civilDayCount (y m1 d1 : Int) : Int :=
  let y := if m1 ≤ 2 then y - 1 else y
  let era := (if y ≥ 0 then y else y - 399).tdiv 400
  let yoe := y - era * 400
  let doy := (153 * (if m1 > 2 then m1 - 3 else m1 + 9) + 2) / 5 + d1 - 1
  let doe := yoe * 365 + yoe / 4 - yoe / 100 + doy
  era * 146097 + doe - 719468

def civilFromDays (z0 : Int) : IsoDate :=
  let z := z0 + 719468
  let era := z / 146097
  let doe := z % 146097
  let yoe := (doe - doe / 1460 + doe / 36524 - doe / 146096) / 365
  let y := yoe + era * 400
  let doy := doe - (365 * yoe + yoe / 4 - yoe / 100)
  let mp := (5 * doy + 2) / 153
  let d := doy - (153 * mp + 2) / 5 + 1
  let m := if mp < 10 then mp + 3 else mp - 9
  ⟨if m ≤ 2 then y + 1 else y, m, d⟩

def daysInMonth (y m : Int) : Int :=
  if m ∈ [1, 3, 5, 7, 8, 10, 12] then 31
  else if m ∈ [4, 6, 9, 11] then 30
  else if m = 2 then
    if y % 4 = 0 ∧ (y % 100 ≠ 0 ∨ y % 400 = 0) then 29 else 28
  else 0

def timeClip (ts : Int) : Option Int :=
  if -msLimit ≤ ts ∧ ts ≤ msLimit then some ts else none

/-- The earliest time value of a local date and time, which a zone may skip. -/
abbrev LocalZone := Int → Option Int

/-- The offset is taken from the year at the same place of the cycle that starts in 2000. -/
def sampleLocalOffsetMs (zone : LocalZone) (naiveMs : Int) : Option Int :=
  let days := naiveMs / msPerDay
  let rem := naiveMs % msPerDay
  let c := civilFromDays days
  let ry := 2000 + c.year % 400
  if 1 ≤ c.day ∧ c.day ≤ daysInMonth ry c.month then
    let refNaiveMs := civilDayCount ry c.month c.day * msPerDay + rem
    (zone refNaiveMs).map fun earliest => refNaiveMs - earliest
  else none

/-- The time value a local date and time stands for. -/
def localOffsetSample (zone : LocalZone) (naiveMs : Int) : Option Int :=
  (sampleLocalOffsetMs zone naiveMs).map fun off => naiveMs - off

structure LocalParts where
  year : Int
  month0 : Int
  day : Int
  hour : Int
  minute : Int
  second : Int
  milli : Int
  offsetMs : Int
  deriving DecidableEq

def LocalParts.epoch : LocalParts := ⟨1970, 0, 1, 0, 0, 0, 0, 0⟩

/-- The components of a local date and time. -/
def partsOf (naive offsetMs : Int) : LocalParts :=
  let days := naive / msPerDay
  let rem := naive % msPerDay
  let c := civilFromDays days
  ⟨c.year, c.month - 1, c.day, rem / 3600000, rem / 60000 % 60, rem / 1000 % 60, rem % 1000,
    offsetMs⟩

/-- A time value is handed to the zone as if it were a local date and time. -/
def localComponents (zone : LocalZone) (ts : Int) : Option LocalParts :=
  (localOffsetSample zone ts).map fun naive => partsOf naive (ts - naive)

/-- Components that are not finite numbers are `none`. -/
def makeLocalTimestamp (zone : LocalZone) (y m d h min sec ms : Option Int) : Option Int := do
  let y ← y
  let m ← m
  let d ← d
  let h ← h
  let min ← min
  let sec ← sec
  let ms ← ms
  let mNorm := m % 12
  let yCarry := m / 12
  if y.natAbs > 2000000000000000 ∨ yCarry.natAbs > 2000000000000000 then none
  else
    let dayMs := civilDayCount (y + yCarry) (mNorm + 1) 1 * 86400000
    let timeMs := h * 3600000 + min * 60000 + sec * 1000 + ms
    let naiveMs := dayMs + (d - 1) * 86400000 + timeMs
    if naiveMs.natAbs > msLimit then none else localOffsetSample zone naiveMs

/-- A component composed with others gives a time value in range, or an invalid date. -/
def finishLocalSetter (ts : Option Int) : Option Int := ts.bind timeClip

/-! ### Setters

An argument that is left out is `none`, one that is not a finite number is `some none`. The
results are the stored time values. -/

section Setters

variable (zone : LocalZone) (t : Option Int)

/-- An invalid date is taken for the first of January 1970. -/
def dateSetFullYear (y : Option Int) (m d : Option (Option Int)) : Option Int :=
  let p := (t.bind (localComponents zone)).getD .epoch
  finishLocalSetter (makeLocalTimestamp zone y (m.getD p.month0) (d.getD p.day)
    p.hour p.minute p.second p.milli)

/-- The other setters leave an invalid date as it is. -/
def setComponents (compose : LocalParts → Option Int) : Option Int :=
  match t.bind (localComponents zone) with
  | none => t
  | some p => finishLocalSetter (compose p)

def dateSetMonth (m : Option Int) (d : Option (Option Int)) : Option Int :=
  setComponents zone t fun p => makeLocalTimestamp zone p.year m (d.getD p.day)
    p.hour p.minute p.second p.milli

def dateSetDate (d : Option Int) : Option Int :=
  setComponents zone t fun p => makeLocalTimestamp zone p.year p.month0 d
    p.hour p.minute p.second p.milli

def dateSetHours (h : Option Int) (min sec ms : Option (Option Int)) : Option Int :=
  setComponents zone t fun p => makeLocalTimestamp zone p.year p.month0 p.day
    h (min.getD p.minute) (sec.getD p.second) (ms.getD p.milli)

def dateSetMinutes (min : Option Int) (sec ms : Option (Option Int)) : Option Int :=
  setComponents zone t fun p => makeLocalTimestamp zone p.year p.month0 p.day
    p.hour min (sec.getD p.second) (ms.getD p.milli)

def dateSetSeconds (sec : Option Int) (ms : Option (Option Int)) : Option Int :=
  setComponents zone t fun p => makeLocalTimestamp zone p.year p.month0 p.day
    p.hour p.minute sec (ms.getD p.milli)

def dateSetMilliseconds (ms : Option Int) : Option Int :=
  setComponents zone t fun p => makeLocalTimestamp zone p.year p.month0 p.day
    p.hour p.minute p.second ms

end Setters

/-! ### The calendar -/

theorem civilDayCount_eq (y m d : Int) :
    civilDayCount y m d = Temporal.daysFromCivil ⟨y, m, d⟩ := by
  have hera (z : Int) : (if z ≥ 0 then z else z - 399).tdiv 400 = z / 400 := by
    split
    · rw [Int.tdiv_eq_ediv_of_nonneg (by omega)]
    · have hdiv := Int.mul_tdiv_add_tmod (z - 399) 400
      have hsign := Temporal.tmod_sign (s := -1) (a := z - 399) (n := 400) (.inr rfl) (by omega)
        (by omega)
      omega
  have hyear : (if m ≤ 2 then y - 1 else y) = y - if m ≤ 2 then 1 else 0 := by
    split <;> omega
  have hmonth : (if m > 2 then m - 3 else m + 9) = m + if m > 2 then -3 else 9 := by
    split <;> omega
  simp only [civilDayCount, Temporal.daysFromCivil, hera, hyear, hmonth]

theorem civilFromDays_eq (z : Int) : civilFromDays z = Temporal.civilFromDays z := by
  have hrem : (z + 719468) % 146097 = z + 719468 - (z + 719468) / 146097 * 146097 := by omega
  have hmonth (mp : Int) :
      (if mp < 10 then mp + 3 else mp - 9) = mp + if mp < 10 then 3 else -9 := by
    split <;> omega
  have hyear (m y : Int) : (if m ≤ 2 then y + 1 else y) = y + if m ≤ 2 then 1 else 0 := by
    split <;> omega
  simp only [civilFromDays, Temporal.civilFromDays, hrem, hmonth, hyear]

theorem daysInMonth_eq {y m n : Int} (h : Temporal.daysInMonth y m = some n) :
    daysInMonth y m = n := by
  unfold Temporal.daysInMonth at h
  unfold daysInMonth
  split_ifs at h ⊢ <;> simp_all [Temporal.isLeapYear_iff]

/-- The months of a year are as long as those of the year at the same place of another cycle. -/
theorem daysInMonth_cycle (y m : Int) : daysInMonth (2000 + y % 400) m = daysInMonth y m := by
  have h4 : (2000 + y % 400) % 4 = y % 4 := by omega
  have h100 : (2000 + y % 400) % 100 = y % 100 := by omega
  have h400 : (2000 + y % 400) % 400 = y % 400 := by omega
  simp only [daysInMonth, h4, h100, h400]

@[simp] theorem civilDayCount_civilFromDays (z : Int) :
    civilDayCount (civilFromDays z).year (civilFromDays z).month (civilFromDays z).day = z := by
  rw [civilFromDays_eq, civilDayCount_eq]
  exact Temporal.daysFromCivil_civilFromDays z

theorem civilFromDays_month (z : Int) :
    1 ≤ (civilFromDays z).month ∧ (civilFromDays z).month ≤ 12 := by
  rw [civilFromDays_eq]
  exact (Temporal.valid_civilFromDays z).month

theorem civilFromDays_day (z : Int) : 1 ≤ (civilFromDays z).day ∧
    (civilFromDays z).day ≤ daysInMonth (civilFromDays z).year (civilFromDays z).month := by
  rw [civilFromDays_eq]
  obtain ⟨h1, n, hn, hle⟩ := Temporal.valid_civilFromDays z
  exact ⟨h1, by rw [daysInMonth_eq hn]; exact hle⟩

theorem civilDayCount_day (y m d : Int) : civilDayCount y m d = civilDayCount y m 1 + (d - 1) := by
  rw [civilDayCount_eq, civilDayCount_eq, Temporal.daysFromCivil_day]

theorem daysInMonth_le (y m : Int) : daysInMonth y m ≤ 31 := by
  unfold daysInMonth
  split_ifs <;> omega

/-- The years of time values. -/
theorem civilFromDays_year {z : Int} (hlow : -100000001 ≤ z) (hhigh : z ≤ 100000001) :
    -275760 ≤ (civilFromDays z).year ∧ (civilFromDays z).year ≤ 275760 := by
  have hmonth := civilFromDays_month z
  have hday := civilFromDays_day z
  have hlen := daysInMonth_le (civilFromDays z).year (civilFromDays z).month
  have hz := civilDayCount_civilFromDays z
  rw [civilDayCount_eq, Temporal.daysFromCivil_eq] at hz
  dsimp only at hz
  unfold Temporal.yearDays at hz
  split_ifs at hz <;> omega

/-! ### Components -/

/-- The local date and time of components. -/
def LocalParts.naive (p : LocalParts) : Int :=
  civilDayCount p.year (p.month0 + 1) p.day * msPerDay + p.hour * 3600000 + p.minute * 60000 +
    p.second * 1000 + p.milli

@[simp] theorem naive_partsOf (n off : Int) : (partsOf n off).naive = n := by
  have hcivil := civilDayCount_civilFromDays (n / msPerDay)
  simp only [LocalParts.naive, partsOf, sub_add_cancel, hcivil]
  unfold msPerDay
  omega

theorem partsOf_inj {n n' off : Int} : partsOf n off = partsOf n' off ↔ n = n' := by
  constructor
  · intro h
    have hnaive := congrArg LocalParts.naive h
    rwa [naive_partsOf, naive_partsOf] at hnaive
  · rintro rfl
    rfl

/-- The local date and time put together from all components. -/
def composeParts (zone : LocalZone) (p : LocalParts) : Option Int :=
  makeLocalTimestamp zone p.year p.month0 p.day p.hour p.minute p.second p.milli

theorem partsOf_year {n : Int} (off : Int) (hn : n.natAbs ≤ msLimit + msPerDay) :
    -275760 ≤ (partsOf n off).year ∧ (partsOf n off).year ≤ 275760 := by
  unfold msLimit msPerDay at hn
  exact civilFromDays_year (by unfold msPerDay; omega) (by unfold msPerDay; omega)

theorem composeParts_partsOf (zone : LocalZone) {n off : Int}
    (hn : n.natAbs ≤ msLimit + msPerDay) :
    composeParts zone (partsOf n off) =
      if n.natAbs ≤ msLimit then localOffsetSample zone n else none := by
  obtain ⟨hlow, hhigh⟩ := partsOf_year off hn
  have hmonth := civilFromDays_month (n / msPerDay)
  have hnaive := naive_partsOf n off
  have hnorm : (partsOf n off).month0 % 12 = (partsOf n off).month0 := by
    simp only [partsOf]
    omega
  have hcarry : (partsOf n off).month0 / 12 = 0 := by
    simp only [partsOf]
    omega
  generalize partsOf n off = p at *
  rw [LocalParts.naive, civilDayCount_day, msPerDay] at hnaive
  have hsum : civilDayCount p.year (p.month0 + 1) 1 * 86400000 + (p.day - 1) * 86400000 +
      (p.hour * 3600000 + p.minute * 60000 + p.second * 1000 + p.milli) = n := by omega
  have hyear : ¬(p.year.natAbs > 2000000000000000 ∨ (0 : Int).natAbs > 2000000000000000) := by omega
  simp only [composeParts, makeLocalTimestamp, Option.bind_eq_bind, Option.bind_some, hnorm, hcarry,
    add_zero, hsum, hyear, if_false]
  by_cases hlimit : (n.natAbs : Int) ≤ msLimit
  · rw [if_pos hlimit, if_neg (by omega)]
  · rw [if_neg hlimit, if_pos (by omega)]

/-- Every number on the way is an integer that a double holds exactly. -/
theorem composeParts_exact {n off : Int} (hn : n.natAbs ≤ msLimit + msPerDay) :
    let p := partsOf n off
    let dayMs := civilDayCount p.year (p.month0 + 1) 1 * 86400000
    let timeMs := p.hour * 3600000 + p.minute * 60000 + p.second * 1000 + p.milli
    dayMs.natAbs < 2 ^ 53 ∧ timeMs.natAbs < 2 ^ 53 ∧
      ((p.day - 1) * 86400000).natAbs < 2 ^ 53 ∧
      (dayMs + (p.day - 1) * 86400000).natAbs < 2 ^ 53 := by
  intro p dayMs timeMs
  have hnaive := naive_partsOf n off
  have hday := civilFromDays_day (n / msPerDay)
  have hlen := daysInMonth_le (civilFromDays (n / msPerDay)).year
    (civilFromDays (n / msPerDay)).month
  have htime : 0 ≤ timeMs ∧ timeMs < 86400000 := by
    simp only [timeMs, p, partsOf, msPerDay]
    omega
  have hpday : p.day = (civilFromDays (n / msPerDay)).day := rfl
  change p.naive = n at hnaive
  rw [LocalParts.naive, civilDayCount_day, msPerDay] at hnaive
  unfold msLimit msPerDay at hn
  simp only [dayMs, timeMs] at htime ⊢
  omega

/-! ### A constant offset -/

/-- An offset is less than a day. -/
structure FixedOffset where
  ms : Int
  lt : ms.natAbs < 86400000

/-- Local time is ahead of the time value by the offset. -/
def FixedOffset.zone (o : FixedOffset) : LocalZone := fun naive => some (naive - o.ms)

theorem sampleLocalOffsetMs_fixed (o : FixedOffset) (n : Int) :
    sampleLocalOffsetMs o.zone n = some o.ms := by
  have hday := civilFromDays_day (n / msPerDay)
  rw [← daysInMonth_cycle] at hday
  simp only [sampleLocalOffsetMs, if_pos hday, FixedOffset.zone, Option.map_some]
  congr 1
  omega

theorem localOffsetSample_fixed (o : FixedOffset) (n : Int) :
    localOffsetSample o.zone n = some (n - o.ms) := by
  simp only [localOffsetSample, sampleLocalOffsetMs_fixed, Option.map_some]

/-- The offset is subtracted where it should be added. -/
theorem localComponents_fixed (o : FixedOffset) (t : Int) :
    localComponents o.zone t = some (partsOf (t - o.ms) o.ms) := by
  simp only [localComponents, localOffsetSample_fixed, Option.map_some]
  congr 2
  omega

/-- The components, taken back together, are twice the offset off. -/
theorem composeParts_fixed (o : FixedOffset) {t : Int} (ht : t.natAbs ≤ msLimit) :
    composeParts o.zone (partsOf (t - o.ms) o.ms) =
      if (t - o.ms).natAbs ≤ msLimit then some (t - 2 * o.ms) else none := by
  have hlt := o.lt
  rw [composeParts_partsOf _ (by unfold msPerDay; omega), localOffsetSample_fixed]
  rw [show t - o.ms - o.ms = t - 2 * o.ms by omega]

theorem composeParts_eq_iff (o : FixedOffset) {t : Int} (ht : t.natAbs ≤ msLimit) :
    composeParts o.zone (partsOf (t - o.ms) o.ms) = some t ↔ o.ms = 0 := by
  rw [composeParts_fixed o ht]
  split
  · rw [Option.some.injEq]
    omega
  · simp only [reduceCtorEq, false_iff]
    omega

theorem finishLocalSetter_eq_iff (o : FixedOffset) {t : Int} (ht : t.natAbs ≤ msLimit) :
    finishLocalSetter (composeParts o.zone (partsOf (t - o.ms) o.ms)) = some t ↔ o.ms = 0 := by
  rw [← composeParts_eq_iff o ht]
  constructor
  · intro h
    obtain ⟨ts, hts, hclip⟩ := Option.bind_eq_some_iff.1 h
    unfold timeClip at hclip
    split at hclip
    · rw [hts, hclip]
    · cases hclip
  · intro h
    rw [h]
    simp only [finishLocalSetter, Option.bind_some, timeClip]
    rw [if_pos (by omega)]

/-- The local components of a time value are those of its local time, put together they give
the time value, and a component set to what it is leaves a date unchanged, in all cases exactly
when the offset is zero. -/
theorem localComponents_inverse_iff (o : FixedOffset) {t : Int} (ht : t.natAbs ≤ msLimit) :
    (localComponents o.zone t = some (partsOf (t + o.ms) o.ms) ↔ o.ms = 0) ∧
    ∃ p, localComponents o.zone t = some p ∧
      (composeParts o.zone p = some t ↔ o.ms = 0) ∧
      (dateSetFullYear o.zone (some t) p.year none none = some t ↔ o.ms = 0) ∧
      (dateSetMonth o.zone (some t) p.month0 none = some t ↔ o.ms = 0) ∧
      (dateSetDate o.zone (some t) p.day = some t ↔ o.ms = 0) ∧
      (dateSetHours o.zone (some t) p.hour none none none = some t ↔ o.ms = 0) ∧
      (dateSetMinutes o.zone (some t) p.minute none none = some t ↔ o.ms = 0) ∧
      (dateSetSeconds o.zone (some t) p.second none = some t ↔ o.ms = 0) ∧
      (dateSetMilliseconds o.zone (some t) p.milli = some t ↔ o.ms = 0) := by
  have hparts := localComponents_fixed o t
  have hfinish := finishLocalSetter_eq_iff o ht
  refine ⟨?_, partsOf (t - o.ms) o.ms, hparts, composeParts_eq_iff o ht, ?_⟩
  · rw [hparts, Option.some.injEq, partsOf_inj]
    omega
  · unfold composeParts at hfinish
    simp only [dateSetFullYear, dateSetMonth, dateSetDate, dateSetHours, dateSetMinutes,
      dateSetSeconds, dateSetMilliseconds, setComponents, Option.bind_some, hparts,
      Option.getD_some, Option.getD_none]
    exact ⟨hfinish, hfinish, hfinish, hfinish, hfinish, hfinish, hfinish⟩

/-- Without an offset nothing moves. -/
theorem localComponents_inverse_utc :
    localComponents (FixedOffset.mk 0 (by decide)).zone 951782400000 =
      some (partsOf 951782400000 0) :=
  (localComponents_inverse_iff ⟨0, by decide⟩ (t := 951782400000) (by decide)).1.2 rfl

/-- Two hours ahead of the time value, the start of 1970 is at ten in the evening of the day
before, and its day set to what it is takes four hours off; set to the first, which it is by
local time, it goes back to the first of December. -/
theorem localComponents_two_hours :
    localComponents (FixedOffset.mk 7200000 (by decide)).zone 0 =
        some ⟨1969, 11, 31, 22, 0, 0, 0, 7200000⟩ ∧
      partsOf (0 + 7200000) 7200000 = ⟨1970, 0, 1, 2, 0, 0, 0, 7200000⟩ ∧
      dateSetDate (FixedOffset.mk 7200000 (by decide)).zone (some 0) (some 31) =
        some (-14400000) ∧
      dateSetDate (FixedOffset.mk 7200000 (by decide)).zone (some 0) (some 1) =
        some (-2606400000) := by
  decide +kernel

end OxideJS.Date
