import OxideJS.Temporal.Calendar

/-!
The difference of two dates.

The difference in years and months is found with dates whose day is kept,
even if the month is too short for it; only the date that the rest of the
days is counted from is a real one. Years, months, weeks and days are whole
numbers that the code keeps as doubles; between dates that the engine can
hold they have at most nine digits.
-/

namespace OxideJS.Temporal

inductive DateUnit where
  | year | month | week | day
  deriving DecidableEq, Repr

structure DateDuration where
  years : Int := 0
  months : Int := 0
  weeks : Int := 0
  days : Int := 0
  deriving DecidableEq, Repr

/-- The day is cut to the length of the month. -/
def addMonths (d : IsoDate) (months : Int) : IsoDate :=
  let total := d.year * 12 + (d.month - 1) + months
  let maxDay := (daysInMonth (total / 12) (total % 12 + 1)).getD 31
  ⟨total / 12, total % 12 + 1, min d.day maxDay⟩

def addDaysIso (d : IsoDate) (days : Int) : IsoDate :=
  civilFromDays (daysFromCivil d + days)

def addDateDuration (d : IsoDate) (v : DateDuration) : IsoDate :=
  addDaysIso (addMonths d (v.years * 12 + v.months)) (v.weeks * 7 + v.days)

/-- Whether the candidate, with another day, lies behind `stop` in the direction of `sign`. -/
def surpassesWithDay (sign : Int) (candidate : IsoDate) (day : Int) (stop : IsoDate) : Bool :=
  let cmp := compareIsoDate { candidate with day := day } stop
  if sign > 0 then decide (cmp > 0) else decide (cmp < 0)

/-- Month after month until `stop` is passed: the number of months and the last date before it.
`fuel` is more than the months there are. -/
def untilLoop (sign : Int) (start stop : IsoDate) (years : Int) :
    Nat → Int → IsoDate → Int × IsoDate
  | 0, months, current => (months, current)
  | fuel + 1, months, current =>
    let candidate := addMonths start (years * 12 + (months + sign))
    if surpassesWithDay sign { candidate with day := start.day } start.day stop then
      (months, current)
    else untilLoop sign start stop years fuel (months + sign) candidate

def dateUntilIso (start stop : IsoDate) (largest : DateUnit) : DateDuration :=
  let diff := daysFromCivil stop - daysFromCivil start
  match largest with
  | .week => { weeks := diff.tdiv 7, days := diff.tmod 7 }
  | .day => { days := diff }
  | _ =>
    let sign := compareIsoDate stop start
    if sign = 0 then {}
    else
      let diffYears := stop.year - start.year
      let diffDays := stop.day - start.day
      let diffInYearSign : Int :=
        if stop.month > start.month then 1
        else if stop.month < start.month then -1
        else if diffDays > 0 then 1
        else if diffDays < 0 then -1
        else 0
      let years := if diffInYearSign * sign < 0 then diffYears - sign else diffYears
      let months := if largest = .month then years * 12 else 0
      let years := if largest = .month then 0 else years
      let intermediate := addMonths start (years * 12 + months)
      let years := if surpassesWithDay sign intermediate start.day stop then years - sign else years
      let current := addMonths start (years * 12 + months)
      let (months, current) := untilLoop sign start stop years
        ((monthIndex stop - monthIndex start).natAbs + 13) months current
      { years := years, months := months, days := daysFromCivil stop - daysFromCivil current }

/-! ### Dates that keep their day -/

section Months

variable {s : Int} {d stop : IsoDate}

theorem daysInMonth_addMonths (d : IsoDate) (k : Int) :
    ∃ n, daysInMonth (addMonths d k).year (addMonths d k).month = some n ∧
      (addMonths d k).day = min d.day n := by
  obtain ⟨n, hn⟩ := @exists_daysInMonth ((d.year * 12 + (d.month - 1) + k) / 12)
    ((d.year * 12 + (d.month - 1) + k) % 12 + 1) (by omega) (by omega)
  exact ⟨n, hn, by simp only [addMonths, hn, Option.getD_some]⟩

theorem monthIndex_addMonths (d : IsoDate) (k : Int) :
    monthIndex (addMonths d k) = monthIndex d + k := by
  simp only [monthIndex, addMonths]
  omega

theorem month_addMonths (d : IsoDate) (k : Int) :
    1 ≤ (addMonths d k).month ∧ (addMonths d k).month ≤ 12 := by
  simp only [addMonths]
  omega

theorem valid_addMonths (hd : d.Valid) (k : Int) : (addMonths d k).Valid := by
  obtain ⟨n, hn, hday⟩ := daysInMonth_addMonths d k
  have := month_of_daysInMonth hn
  have := hd.1
  exact ⟨by omega, n, hn, by omega⟩

theorem addMonths_zero (hd : d.Valid) : addMonths d 0 = d := by
  obtain ⟨n, hn, hday⟩ := daysInMonth_addMonths d 0
  have hidx := monthIndex_addMonths d 0
  have hm := hd.month
  have hm' := month_addMonths d 0
  obtain ⟨hday1, n', hn', hle⟩ := hd
  unfold monthIndex at hidx
  have hy : (addMonths d 0).year = d.year := by omega
  have hmonth : (addMonths d 0).month = d.month := by omega
  rw [hy, hmonth, hn'] at hn
  cases hn
  obtain ⟨y, m, k⟩ := d
  generalize addMonths ⟨y, m, k⟩ 0 = e at *
  obtain ⟨y', m', k'⟩ := e
  dsimp only at *
  rw [IsoDate.mk.injEq]
  omega

/-- The date `k` months later, with its day as it is, lies behind `stop`. -/
def Passes (s : Int) (d : IsoDate) (k : Int) (stop : IsoDate) : Prop :=
  0 < s * compareIsoDate { addMonths d k with day := d.day } stop

theorem passes_forward (hstop : stop.Valid) (k : Int) : Passes 1 d k stop ↔
    monthIndex stop < monthIndex d + k ∨ monthIndex stop = monthIndex d + k ∧ stop.day < d.day := by
  rw [← monthIndex_addMonths d k, Passes, Int.one_mul]
  exact compareIsoDate_pos (a := { addMonths d k with day := d.day }) (month_addMonths d k)
    hstop.month

theorem passes_backward (hstop : stop.Valid) (k : Int) : Passes (-1) d k stop ↔
    monthIndex d + k < monthIndex stop ∨ monthIndex d + k = monthIndex stop ∧ d.day < stop.day := by
  rw [← monthIndex_addMonths d k, Passes, Int.neg_mul, Int.one_mul, Int.neg_pos]
  exact compareIsoDate_neg (a := { addMonths d k with day := d.day }) (month_addMonths d k)
    hstop.month

theorem surpassesWithDay_iff (hs : s = 1 ∨ s = -1) (d stop : IsoDate) (k : Int) :
    surpassesWithDay s (addMonths d k) d.day stop = true ↔ Passes s d k stop := by
  rcases hs with rfl | rfl
  · simp [surpassesWithDay, Passes]
  · simp [surpassesWithDay, Passes]

/-- The whole months between two dates. -/
def monthsBetween (s : Int) (start stop : IsoDate) : Int :=
  monthIndex stop - monthIndex start - if s * (stop.day - start.day) < 0 then s else 0

/-- The months that do not pass `stop` are those up to the whole months between the dates. -/
theorem passes_iff (hs : s = 1 ∨ s = -1) (hstop : stop.Valid) (k : Int) :
    Passes s d k stop ↔ s * monthsBetween s d stop < s * k := by
  rcases hs with rfl | rfl
  · rw [passes_forward hstop, monthsBetween]
    split <;> omega
  · rw [passes_backward hstop, monthsBetween]
    split <;> omega

end Months

/-! ### The loop -/

section Loop

variable {s : Int} {stop : IsoDate}

/-- The loop ends at the whole months between the two dates. -/
theorem untilLoop_spec (hs : s = 1 ∨ s = -1) (start : IsoDate) (hstop : stop.Valid) (years : Int)
    (fuel : Nat) (months : Int)
    (hle : 0 ≤ s * (monthsBetween s start stop - (years * 12 + months)))
    (hfuel : s * (monthsBetween s start stop - (years * 12 + months)) < fuel) :
    untilLoop s start stop years fuel months (addMonths start (years * 12 + months)) =
      (monthsBetween s start stop - years * 12,
        addMonths start (monthsBetween s start stop)) := by
  induction fuel generalizing months with
  | zero => omega
  | succ fuel ih =>
    rw [untilLoop]
    have hsurpass :
        surpassesWithDay s { addMonths start (years * 12 + (months + s)) with day := start.day }
          start.day stop = true ↔ Passes s start (years * 12 + (months + s)) stop :=
      surpassesWithDay_iff hs start stop _
    rw [passes_iff hs hstop] at hsurpass
    by_cases hpass : s * monthsBetween s start stop < s * (years * 12 + (months + s))
    · have hlast : monthsBetween s start stop = years * 12 + months := by
        rcases hs with rfl | rfl <;> omega
      rw [if_pos (hsurpass.2 hpass), hlast]
      congr 1
      omega
    · rw [if_neg fun h => hpass (hsurpass.1 h)]
      refine ih _ ?_ ?_
      · rcases hs with rfl | rfl <;> omega
      · rcases hs with rfl | rfl <;> omega

end Loop

/-! ### Years -/

section Years

variable {start stop : IsoDate}

/-- The difference of the years, less one if the day of the year is not reached. -/
def yearsBetween (s : Int) (start stop : IsoDate) : Int :=
  (stop.year - start.year) -
    if s * (stop.month - start.month) < 0 ∨
      stop.month = start.month ∧ s * (stop.day - start.day) < 0 then s else 0

/-- The whole years are those of the whole months. -/
theorem yearsBetween_spec {s : Int} (hs : s = 1 ∨ s = -1) (hstart : start.Valid)
    (hstop : stop.Valid) :
    0 ≤ s * (monthsBetween s start stop - yearsBetween s start stop * 12) ∧
      s * (monthsBetween s start stop - yearsBetween s start stop * 12) < 12 := by
  have h1 := hstart.month
  have h2 := hstop.month
  unfold monthsBetween yearsBetween monthIndex
  rcases hs with rfl | rfl <;> split_ifs <;> omega

/-- The code's way to the whole years. -/
theorem years_eq {s : Int} (hs : s = 1 ∨ s = -1) :
    (let diffInYearSign : Int :=
      if stop.month > start.month then 1
      else if stop.month < start.month then -1
      else if stop.day - start.day > 0 then 1
      else if stop.day - start.day < 0 then -1
      else 0
    if diffInYearSign * s < 0 then stop.year - start.year - s else stop.year - start.year) =
      yearsBetween s start stop := by
  unfold yearsBetween
  dsimp only
  rcases hs with rfl | rfl <;> split_ifs <;> omega

theorem dateUntilIso_months (hstart : start.Valid) (hstop : stop.Valid) (largest : DateUnit)
    (hlargest : largest = .year ∨ largest = .month) (hne : compareIsoDate stop start ≠ 0) :
    dateUntilIso start stop largest =
      let s := compareIsoDate stop start
      let k := monthsBetween s start stop
      let years := if largest = .year then yearsBetween s start stop else 0
      { years := years
        months := k - years * 12
        days := daysFromCivil stop - daysFromCivil (addMonths start k) } := by
  have hs : compareIsoDate stop start = 1 ∨ compareIsoDate stop start = -1 := by
    have := compareIsoDate_cases stop start
    omega
  have hyears := yearsBetween_spec hs hstart hstop
  have hnear : (monthsBetween (compareIsoDate stop start) start stop).natAbs ≤
      (monthIndex stop - monthIndex start).natAbs + 1 := by
    unfold monthsBetween
    split <;> omega
  -- the years alone do not pass the end
  have hcheck : ¬surpassesWithDay (compareIsoDate stop start)
      (addMonths start (yearsBetween (compareIsoDate stop start) start stop * 12)) start.day stop
        = true := by
    rw [surpassesWithDay_iff hs, passes_iff hs hstop]
    rcases hs with h | h <;> rw [h] at hyears ⊢ <;> omega
  generalize hsign : compareIsoDate stop start = s at *
  rcases hlargest with rfl | rfl
  · simp only [dateUntilIso, hsign, if_neg hne, years_eq hs, reduceCtorEq, if_false, Int.add_zero,
      hcheck, if_true]
    have hloop := untilLoop_spec hs start hstop (yearsBetween s start stop)
      ((monthIndex stop - monthIndex start).natAbs + 13) 0
      (by simpa using hyears.1) (by rw [Int.add_zero]; omega)
    rw [Int.add_zero] at hloop
    rw [hloop]
  · simp only [dateUntilIso, hsign, if_neg hne, years_eq hs, if_true, Int.zero_mul, Int.zero_add,
      hcheck, reduceCtorEq, if_false]
    have hloop := untilLoop_spec hs start hstop 0
      ((monthIndex stop - monthIndex start).natAbs + 13) (yearsBetween s start stop * 12)
      (by simpa using hyears.1) (by rw [Int.zero_mul, Int.zero_add]; omega)
    rw [Int.zero_mul, Int.zero_add] at hloop
    rw [hloop]

end Years

/-! ### The result -/

section Result

variable {start stop : IsoDate}

/-- The direction from one date to the other. -/
def direction (start stop : IsoDate) : Int := if compareIsoDate stop start < 0 then -1 else 1

theorem monthsBetween_sign {s : Int} (hs : s = 1 ∨ s = -1) (hstart : start.Valid)
    (hstop : stop.Valid) (hcmp : compareIsoDate stop start = s) :
    0 ≤ s * monthsBetween s start stop := by
  have hneg := compareIsoDate_neg hstop.month hstart.month
  have hpos := compareIsoDate_pos hstop.month hstart.month
  unfold monthsBetween
  rcases hs with rfl | rfl
  · have := hpos.1 (by omega)
    split <;> omega
  · have := hneg.1 (by omega)
    split <;> omega

/-- What is left of the days once the whole months are taken off has the sign of the difference. -/
theorem rest_sign {s : Int} (hs : s = 1 ∨ s = -1) (hstart : start.Valid) (hstop : stop.Valid) :
    0 ≤ s * (daysFromCivil stop -
      daysFromCivil (addMonths start (monthsBetween s start stop))) := by
  have hcurrent := valid_addMonths hstart (monthsBetween s start stop)
  have hpass : ¬Passes s start (monthsBetween s start stop) stop := by
    rw [passes_iff hs hstop]
    omega
  obtain ⟨n, hn, hday⟩ := daysInMonth_addMonths start (monthsBetween s start stop)
  have hidx := monthIndex_addMonths start (monthsBetween s start stop)
  rcases hs with rfl | rfl
  · rw [passes_forward hstop] at hpass
    have hle := (daysFromCivil_lt_iff hstop hcurrent).not
    rw [compareIsoDate_neg hstop.month hcurrent.month] at hle
    have := hle.2 (by omega)
    omega
  · rw [passes_backward hstop] at hpass
    have hle := (daysFromCivil_lt_iff hcurrent hstop).not
    rw [compareIsoDate_neg hcurrent.month hstop.month] at hle
    -- the end is a day of its month
    have hlast : monthIndex start + monthsBetween (-1) start stop = monthIndex stop →
        stop.day ≤ n := by
      intro heq
      have h1 := hstop.month
      have h2 := hcurrent.month
      obtain ⟨-, n', hn', hle'⟩ := hstop
      rw [heq] at hidx
      unfold monthIndex at hidx
      have hy : (addMonths start (monthsBetween (-1) start stop)).year = stop.year := by omega
      have hm : (addMonths start (monthsBetween (-1) start stop)).month = stop.month := by omega
      rw [hy, hm, hn'] at hn
      cases hn
      exact hle'
    have := hle.2 (by omega)
    omega

/-- Adding months and then the days that are left. -/
theorem addDateDuration_months (hstop : stop.Valid) (years k : Int) :
    addDateDuration start
        ⟨years, k - years * 12, 0, daysFromCivil stop - daysFromCivil (addMonths start k)⟩ =
      stop := by
  have hk : years * 12 + (k - years * 12) = k := by omega
  have hdays : daysFromCivil (addMonths start k) +
      (0 * 7 + (daysFromCivil stop - daysFromCivil (addMonths start k))) = daysFromCivil stop := by
    omega
  simp only [addDateDuration, addDaysIso, hk, hdays]
  exact civilFromDays_daysFromCivil hstop

/-- The two dates are one, or a direction apart. -/
theorem direction_cases (hstart : start.Valid) (hstop : stop.Valid) :
    direction start stop = -1 ∧ daysFromCivil stop < daysFromCivil start ∨
      direction start stop = 1 ∧ daysFromCivil start ≤ daysFromCivil stop := by
  have hback := daysFromCivil_lt_iff hstop hstart
  unfold direction
  split <;> omega

theorem direction_of_ne (h : compareIsoDate stop start ≠ 0) :
    direction start stop = compareIsoDate stop start ∧
      (compareIsoDate stop start = 1 ∨ compareIsoDate stop start = -1) := by
  have hcases := compareIsoDate_cases stop start
  unfold direction
  split <;> omega

theorem dateUntilIso_self (d : IsoDate) (largest : DateUnit) : dateUntilIso d d largest = {} := by
  have hzero : compareIsoDate d d = 0 := compareIsoDate_eq_zero.2 rfl
  cases largest <;> simp [dateUntilIso, hzero]

theorem addDateDuration_zero (hstart : start.Valid) : addDateDuration start {} = start := by
  simp only [addDateDuration, Int.zero_mul, Int.add_zero, addMonths_zero hstart, addDaysIso]
  exact civilFromDays_daysFromCivil hstart

/-- Weeks and days are counted from day to day. -/
theorem addDateDuration_days (hstart : start.Valid) (hstop : stop.Valid) {v : DateDuration}
    (hy : v.years = 0) (hm : v.months = 0)
    (hdays : v.weeks * 7 + v.days = daysFromCivil stop - daysFromCivil start) :
    addDateDuration start v = stop := by
  have hsum : daysFromCivil start + (daysFromCivil stop - daysFromCivil start) =
      daysFromCivil stop := by omega
  rw [addDateDuration, hy, hm, Int.zero_mul, Int.add_zero, addMonths_zero hstart, hdays,
    addDaysIso, hsum, civilFromDays_daysFromCivil hstop]

theorem tmod_week (hstart : start.Valid) (hstop : stop.Valid) :
    0 ≤ direction start stop * (daysFromCivil stop - daysFromCivil start).tmod 7 ∧
      direction start stop * (daysFromCivil stop - daysFromCivil start).tmod 7 < 7 := by
  have hdir := direction_cases hstart hstop
  refine tmod_sign (by omega) ?_ (by decide)
  rcases hdir with ⟨h, hlt⟩ | ⟨h, hle⟩ <;> rw [h] <;> omega

/-- The difference leads from one date to the other, and has the sign of the direction. -/
theorem dateUntilIso_exact (hstart : start.Valid) (hstop : stop.Valid) (largest : DateUnit) :
    let v := dateUntilIso start stop largest
    let s := direction start stop
    addDateDuration start v = stop ∧
      (0 ≤ s * v.years ∧ 0 ≤ s * v.months ∧ 0 ≤ s * v.weeks ∧ 0 ≤ s * v.days) := by
  have hdir := direction_cases hstart hstop
  by_cases hlargest : largest = .year ∨ largest = .month
  · by_cases hzero : compareIsoDate stop start = 0
    · obtain rfl := compareIsoDate_eq_zero.1 hzero
      rw [dateUntilIso_self]
      exact ⟨addDateDuration_zero hstop, by simp⟩
    · obtain ⟨hs, hs'⟩ := direction_of_ne hzero
      have hyears := yearsBetween_spec hs' hstart hstop
      have hrest := rest_sign hs' hstart hstop
      have hmonths := monthsBetween_sign hs' hstart hstop rfl
      simp only [dateUntilIso_months hstart hstop largest hlargest hzero, hs]
      generalize compareIsoDate stop start = s at *
      refine ⟨addDateDuration_months hstop _ _, ?_, ?_, by simp, hrest⟩
      · split
        · rcases hs' with rfl | rfl <;> omega
        · simp
      · split
        · exact hyears.1
        · simpa using hmonths
  · cases largest with
    | year => simp at hlargest
    | month => simp at hlargest
    | week =>
      have hdiv := Int.mul_tdiv_add_tmod (daysFromCivil stop - daysFromCivil start) 7
      have hmod := tmod_week hstart hstop
      dsimp only [dateUntilIso]
      refine ⟨addDateDuration_days hstart hstop rfl rfl (by dsimp only; omega), by simp, by simp,
        ?_, ?_⟩
      all_goals rcases hdir with ⟨h, hlt⟩ | ⟨h, hle⟩ <;> rw [h] at hmod ⊢ <;> omega
    | day =>
      dsimp only [dateUntilIso]
      refine ⟨addDateDuration_days hstart hstop rfl rfl (by dsimp only; omega), by simp, by simp,
        by simp, ?_⟩
      rcases hdir with ⟨h, hlt⟩ | ⟨h, hle⟩ <;> rw [h] <;> omega

/-- The difference of two dates leads from one to the other, its parts have one sign, and one more
of the largest unit, or one more month, would pass the end. -/
theorem dateUntilIso_exact_greedy (start stop : IsoDate) (largest : DateUnit) (hstart : start.Valid)
    (hstop : stop.Valid) :
    let v := dateUntilIso start stop largest
    let s := direction start stop
    addDateDuration start v = stop ∧
    (0 ≤ s * v.years ∧ 0 ≤ s * v.months ∧ 0 ≤ s * v.weeks ∧ 0 ≤ s * v.days) ∧
    (largest = .year → Passes s start ((v.years + s) * 12) stop) ∧
    (largest = .year ∨ largest = .month →
      Passes s start (v.years * 12 + (v.months + s)) stop) ∧
    (largest = .week →
      0 < s * (daysFromCivil start + (v.weeks + s) * 7 - daysFromCivil stop)) := by
  obtain ⟨hadd, hsign⟩ := dateUntilIso_exact hstart hstop largest
  refine ⟨hadd, hsign, ?_⟩
  by_cases hlargest : largest = .year ∨ largest = .month
  · have hweek : largest ≠ .week := by
      rintro rfl
      simp at hlargest
    by_cases hzero : compareIsoDate stop start = 0
    · obtain rfl := compareIsoDate_eq_zero.1 hzero
      have hs : direction stop stop = 1 := by simp [direction, hzero]
      rw [dateUntilIso_self, hs]
      refine ⟨fun _ => ?_, fun _ => ?_, fun h => absurd h hweek⟩
      · rw [passes_forward hstop]
        dsimp only
        omega
      · rw [passes_forward hstop]
        dsimp only
        omega
    · obtain ⟨hs, hs'⟩ := direction_of_ne hzero
      have hyears := yearsBetween_spec hs' hstart hstop
      simp only [dateUntilIso_months hstart hstop largest hlargest hzero, hs]
      generalize compareIsoDate stop start = s at *
      refine ⟨?_, ?_, fun h => absurd h hweek⟩
      · rintro rfl
        rw [if_pos rfl, passes_iff hs' hstop]
        rcases hs' with rfl | rfl <;> omega
      · intro _
        rw [passes_iff hs' hstop]
        rcases hs' with rfl | rfl <;> omega
  · refine ⟨fun h => absurd (.inl h) hlargest, fun h => absurd h hlargest, ?_⟩
    rintro rfl
    have hdiv := Int.mul_tdiv_add_tmod (daysFromCivil stop - daysFromCivil start) 7
    have hmod := tmod_week hstart hstop
    have hdir := direction_cases hstart hstop
    dsimp only [dateUntilIso]
    rcases hdir with ⟨h, hlt⟩ | ⟨h, hle⟩ <;> rw [h] at hmod ⊢ <;> omega

/-- From the last of January to the end of February. -/
theorem dateUntilIso_february :
    IsoDate.Valid ⟨2021, 1, 31⟩ ∧ IsoDate.Valid ⟨2021, 2, 28⟩ ∧
      addDateDuration ⟨2021, 1, 31⟩ (dateUntilIso ⟨2021, 1, 31⟩ ⟨2021, 2, 28⟩ .month) =
        ⟨2021, 2, 28⟩ := by
  have hstart : IsoDate.Valid ⟨2021, 1, 31⟩ := ⟨by decide, 31, rfl, by decide⟩
  have hstop : IsoDate.Valid ⟨2021, 2, 28⟩ := ⟨by decide, 28, rfl, by decide⟩
  exact ⟨hstart, hstop, (dateUntilIso_exact_greedy _ _ .month hstart hstop).1⟩

end Result

end OxideJS.Temporal
