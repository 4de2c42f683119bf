import Mathlib.Tactic.IntervalCases
import Mathlib.Tactic.Linarith

/-!
The calendar.

Days are numbered from the first of January 1970. A date is turned into its
number and back with years that start in March, so that the leap day comes
last, and eras of `400` years, which all have the same length. All divisions
are of numbers that are not negative, or round down.
-/

namespace OxideJS.Temporal

/-- The remainder of a division that rounds towards zero has the sign of the dividend. -/
theorem tmod_sign {s a n : Int} (hs : s = 1 ∨ s = -1) (ha : 0 ≤ s * a) (hn : 0 < n) :
    0 ≤ s * a.tmod n ∧ s * a.tmod n < n := by
  have hmod : s * a.tmod n = (s * a).tmod n := by
    rcases hs with rfl | rfl <;> simp [Int.neg_tmod]
  rw [hmod]
  exact ⟨Int.tmod_nonneg n ha, Int.tmod_lt_of_pos _ hn⟩

/-- A year, a month and a day. -/
structure IsoDate where
  year : Int
  month : Int
  day : Int
  deriving DecidableEq, Repr

def isLeapYear (year : Int) : Bool :=
  year % 4 == 0 && (year % 100 != 0 || year % 400 == 0)

def daysInMonth (year month : Int) : Option Int :=
  if month ∈ [1, 3, 5, 7, 8, 10, 12] then some 31
  else if month ∈ [4, 6, 9, 11] then some 30
  else if month = 2 then some (if isLeapYear year then 29 else 28)
  else none

def daysFromCivil (d : IsoDate) : Int :=
  let year := d.year - if d.month ≤ 2 then 1 else 0
  let era := year / 400
  let yearOfEra := year - era * 400
  let shiftedMonth := d.month + if d.month > 2 then -3 else 9
  let dayOfYear := (153 * shiftedMonth + 2) / 5 + d.day - 1
  let dayOfEra := yearOfEra * 365 + yearOfEra / 4 - yearOfEra / 100 + dayOfYear
  era * 146097 + dayOfEra - 719468

def civilFromDays (days : Int) : IsoDate :=
  let shifted := days + 719468
  let era := shifted / 146097
  let dayOfEra := shifted - era * 146097
  let yearOfEra := (dayOfEra - dayOfEra / 1460 + dayOfEra / 36524 - dayOfEra / 146096) / 365
  let dayOfYear := dayOfEra - (365 * yearOfEra + yearOfEra / 4 - yearOfEra / 100)
  let monthPrime := (5 * dayOfYear + 2) / 153
  let day := dayOfYear - (153 * monthPrime + 2) / 5 + 1
  let month := monthPrime + if monthPrime < 10 then 3 else -9
  ⟨yearOfEra + era * 400 + if month ≤ 2 then 1 else 0, month, day⟩

/-- `-1`, `0` or `1`. -/
def compareIsoDate (a b : IsoDate) : Int :=
  if a.year ≠ b.year then if a.year < b.year then -1 else 1
  else if a.month ≠ b.month then if a.month < b.month then -1 else 1
  else if a.day ≠ b.day then if a.day < b.day then -1 else 1
  else 0

/-- The date exists. -/
def IsoDate.Valid (d : IsoDate) : Prop :=
  1 ≤ d.day ∧ ∃ n, daysInMonth d.year d.month = some n ∧ d.day ≤ n

/-! ### Months -/

section Months

theorem isLeapYear_iff {y : Int} :
    isLeapYear y = true ↔ y % 4 = 0 ∧ (y % 100 ≠ 0 ∨ y % 400 = 0) := by
  simp [isLeapYear]

theorem month_of_daysInMonth {y m n : Int} (h : daysInMonth y m = some n) :
    1 ≤ m ∧ m ≤ 12 ∧ 28 ≤ n ∧ n ≤ 31 := by
  unfold daysInMonth at h
  split at h
  · next hm =>
    cases h
    simp only [List.mem_cons, List.not_mem_nil, or_false] at hm
    omega
  · split at h
    · next hm =>
      cases h
      simp only [List.mem_cons, List.not_mem_nil, or_false] at hm
      omega
    · split at h
      · next hm =>
        cases h
        split <;> omega
      · cases h

theorem exists_daysInMonth {y m : Int} (h1 : 1 ≤ m) (h2 : m ≤ 12) :
    ∃ n, daysInMonth y m = some n := by
  interval_cases m <;> exact ⟨_, rfl⟩

/-- The days in front of a year that starts in March. -/
def yearDays (y : Int) : Int := 365 * y + y / 4 - y / 100 + y / 400

theorem yearDays_era (y : Int) :
    y / 400 * 146097 + ((y - y / 400 * 400) * 365 + (y - y / 400 * 400) / 4 -
      (y - y / 400 * 400) / 100) = yearDays y := by
  unfold yearDays
  omega

theorem yearDays_add_era (y e : Int) : yearDays (y + e * 400) = e * 146097 + yearDays y := by
  unfold yearDays
  omega

theorem isLeapYear_add_era (y e : Int) : isLeapYear (y + e * 400) = isLeapYear y := by
  have h4 : (y + e * 400) % 4 = y % 4 := by omega
  have h100 : (y + e * 400) % 100 = y % 100 := by omega
  have h400 : (y + e * 400) % 400 = y % 400 := by omega
  rw [isLeapYear, isLeapYear, h4, h100, h400]

/-- A year that starts in March has a leap day if it ends in a leap year. -/
theorem yearDays_succ (y : Int) :
    yearDays (y + 1) = yearDays y + if isLeapYear (y + 1) then 366 else 365 := by
  have hleap := @isLeapYear_iff (y + 1)
  unfold yearDays
  cases hl : isLeapYear (y + 1) with
  | false =>
    simp only [hl, Bool.false_eq_true, false_iff, if_false] at hleap ⊢
    omega
  | true =>
    simp only [hl, true_iff, if_true] at hleap ⊢
    omega

theorem daysFromCivil_eq (d : IsoDate) : daysFromCivil d =
    yearDays (d.year - if d.month ≤ 2 then 1 else 0) +
      (153 * (d.month + if d.month > 2 then -3 else 9) + 2) / 5 + d.day - 719469 := by
  rw [← yearDays_era]
  simp only [daysFromCivil]
  omega

/-- The following month starts where a month ends. -/
theorem daysFromCivil_nextMonth {y m n : Int} (h : daysInMonth y m = some n) :
    daysFromCivil ⟨if m = 12 then y + 1 else y, if m = 12 then 1 else m + 1, 1⟩ =
      daysFromCivil ⟨y, m, 1⟩ + n := by
  obtain ⟨h1, h12, -⟩ := month_of_daysInMonth h
  have hleap := @isLeapYear_iff y
  rw [daysFromCivil_eq, daysFromCivil_eq]
  unfold yearDays
  interval_cases m
  case «2» =>
    simp only [daysInMonth] at h
    cases hy : isLeapYear y <;> simp [hy] at h hleap ⊢ <;> omega
  all_goals
    cases h
    simp
    try omega

end Months

/-! ### The order of dates -/

section Order

/-- The months, numbered through. -/
def monthIndex (d : IsoDate) : Int := 12 * d.year + (d.month - 1)

/-- The first day of a month given by its number. -/
def monthStart (i : Int) : Int := daysFromCivil ⟨i / 12, i % 12 + 1, 1⟩

theorem daysFromCivil_day (d : IsoDate) :
    daysFromCivil d = daysFromCivil ⟨d.year, d.month, 1⟩ + (d.day - 1) := by
  rw [daysFromCivil_eq, daysFromCivil_eq]
  dsimp only
  omega

theorem monthStart_succ (i : Int) : ∃ n, daysInMonth (i / 12) (i % 12 + 1) = some n ∧
    monthStart (i + 1) = monthStart i + n := by
  obtain ⟨n, hn⟩ := @exists_daysInMonth (i / 12) (i % 12 + 1) (by omega) (by omega)
  refine ⟨n, hn, ?_⟩
  rw [monthStart, monthStart, ← daysFromCivil_nextMonth hn]
  congr 2 <;> split <;> omega

theorem monthStart_lt {i j : Int} (h : i < j) : ∃ n, daysInMonth (i / 12) (i % 12 + 1) = some n ∧
    monthStart i + n ≤ monthStart j := by
  obtain ⟨k, rfl⟩ : ∃ k : Nat, j = i + 1 + k := ⟨(j - i - 1).toNat, by omega⟩
  obtain ⟨n, hn, hstep⟩ := monthStart_succ i
  refine ⟨n, hn, ?_⟩
  clear h
  induction k with
  | zero => simp [hstep]
  | succ k ih =>
    obtain ⟨n', hn', hstep'⟩ := monthStart_succ (i + 1 + k)
    have := (month_of_daysInMonth hn').2.2.1
    have heq : i + 1 + ((k + 1 : Nat) : Int) = i + 1 + k + 1 := by omega
    rw [heq, hstep']
    omega

theorem daysFromCivil_eq_monthStart {d : IsoDate} (h : d.Valid) :
    daysFromCivil d = monthStart (monthIndex d) + (d.day - 1) := by
  obtain ⟨-, n, hn, -⟩ := h
  obtain ⟨h1, h12, -⟩ := month_of_daysInMonth hn
  have hy : monthIndex d / 12 = d.year := by unfold monthIndex; omega
  have hm : monthIndex d % 12 + 1 = d.month := by unfold monthIndex; omega
  rw [daysFromCivil_day, monthStart, hy, hm]

/-- Dates of an earlier month have smaller numbers. -/
theorem daysFromCivil_lt_of_month {a b : IsoDate} (ha : a.Valid) (hb : b.Valid)
    (h : monthIndex a < monthIndex b) : daysFromCivil a < daysFromCivil b := by
  rw [daysFromCivil_eq_monthStart ha, daysFromCivil_eq_monthStart hb]
  obtain ⟨-, n, hn, hle⟩ := ha
  obtain ⟨h1, h12, -⟩ := month_of_daysInMonth hn
  have hy : monthIndex a / 12 = a.year := by unfold monthIndex; omega
  have hm : monthIndex a % 12 + 1 = a.month := by unfold monthIndex; omega
  obtain ⟨n', hn', hlt⟩ := monthStart_lt h
  rw [hy, hm, hn] at hn'
  cases hn'
  have := hb.1
  omega

theorem compareIsoDate_cases (a b : IsoDate) :
    compareIsoDate a b = -1 ∨ compareIsoDate a b = 0 ∨ compareIsoDate a b = 1 := by
  unfold compareIsoDate
  split_ifs <;> simp

theorem compareIsoDate_eq_zero {a b : IsoDate} : compareIsoDate a b = 0 ↔ a = b := by
  unfold compareIsoDate
  cases a
  cases b
  simp only [IsoDate.mk.injEq]
  split_ifs <;> simp_all

/-- Comparing dates compares their months, then their days. -/
theorem compareIsoDate_neg {a b : IsoDate} (ha : 1 ≤ a.month ∧ a.month ≤ 12)
    (hb : 1 ≤ b.month ∧ b.month ≤ 12) : compareIsoDate a b < 0 ↔
      monthIndex a < monthIndex b ∨ monthIndex a = monthIndex b ∧ a.day < b.day := by
  unfold compareIsoDate monthIndex
  split_ifs <;> omega

theorem compareIsoDate_pos {a b : IsoDate} (ha : 1 ≤ a.month ∧ a.month ≤ 12)
    (hb : 1 ≤ b.month ∧ b.month ≤ 12) : 0 < compareIsoDate a b ↔
      monthIndex b < monthIndex a ∨ monthIndex b = monthIndex a ∧ b.day < a.day := by
  unfold compareIsoDate monthIndex
  split_ifs <;> omega

theorem IsoDate.Valid.month {d : IsoDate} (h : d.Valid) : 1 ≤ d.month ∧ d.month ≤ 12 := by
  obtain ⟨-, n, hn, -⟩ := h
  exact ⟨(month_of_daysInMonth hn).1, (month_of_daysInMonth hn).2.1⟩

/-- Dates are ordered like their numbers. -/
theorem daysFromCivil_lt_iff {a b : IsoDate} (ha : a.Valid) (hb : b.Valid) :
    daysFromCivil a < daysFromCivil b ↔ compareIsoDate a b < 0 := by
  rw [compareIsoDate_neg ha.month hb.month]
  constructor
  · intro h
    rcases lt_trichotomy (monthIndex a) (monthIndex b) with hlt | heq | hgt
    · exact .inl hlt
    · rw [daysFromCivil_eq_monthStart ha, daysFromCivil_eq_monthStart hb, heq] at h
      exact .inr ⟨heq, by omega⟩
    · have := daysFromCivil_lt_of_month hb ha hgt
      omega
  · rintro (h | ⟨heq, hday⟩)
    · exact daysFromCivil_lt_of_month ha hb h
    · rw [daysFromCivil_eq_monthStart ha, daysFromCivil_eq_monthStart hb, heq]
      omega

theorem daysFromCivil_inj {a b : IsoDate} (ha : a.Valid) (hb : b.Valid)
    (h : daysFromCivil a = daysFromCivil b) : a = b := by
  have hab : ¬compareIsoDate a b < 0 := by rw [← daysFromCivil_lt_iff ha hb]; omega
  have hba : ¬compareIsoDate b a < 0 := by rw [← daysFromCivil_lt_iff hb ha]; omega
  rw [compareIsoDate_neg ha.month hb.month] at hab
  rw [compareIsoDate_neg hb.month ha.month] at hba
  have hidx : monthIndex a = monthIndex b := by omega
  have hma := ha.month
  have hmb := hb.month
  unfold monthIndex at *
  obtain ⟨y, m, d⟩ := a
  obtain ⟨y', m', d'⟩ := b
  dsimp only at *
  rw [IsoDate.mk.injEq]
  omega

end Order

/-! ### Dates from numbers -/

section Numbers

/-- The number of leap days that come in front of a day of an era is taken
off before the division by the length of a year. -/
def withoutLeapDays (n : Int) : Int := n - n / 1460 + n / 36524 - n / 146096

theorem withoutLeapDays_mono {n m : Int} (h : n ≤ m) : withoutLeapDays n ≤ withoutLeapDays m := by
  obtain ⟨k, rfl⟩ : ∃ k : Nat, m = n + k := ⟨(m - n).toNat, by omega⟩
  clear h
  induction k with
  | zero => simp
  | succ k ih =>
    have hstep : ∀ i : Int, withoutLeapDays i ≤ withoutLeapDays (i + 1) := by
      intro i
      unfold withoutLeapDays
      omega
    have heq : n + ((k + 1 : Nat) : Int) = n + k + 1 := by omega
    rw [heq]
    exact le_trans ih (hstep _)

/-- At both ends of a year of an era. -/
theorem withoutLeapDays_year : ∀ y : Fin 400,
    365 * (y : Int) ≤ withoutLeapDays (365 * y + y / 4 - y / 100) ∧
      withoutLeapDays (365 * ((y : Int) + 1) + (y + 1) / 4 - (y + 1) / 100 + (y + 1) / 400 - 1) <
        365 * ((y : Int) + 1) := by
  decide +kernel

/-- The year of a day of an era. -/
theorem yearOfEra_spec {n y : Int} (h0 : 0 ≤ n) (hn : n < 146097)
    (hy : y = withoutLeapDays n / 365) :
    0 ≤ y ∧ y < 400 ∧ 365 * y + y / 4 - y / 100 ≤ n ∧
      n < 365 * (y + 1) + (y + 1) / 4 - (y + 1) / 100 + (y + 1) / 400 := by
  have hlow : 0 ≤ withoutLeapDays n := withoutLeapDays_mono h0
  have hhigh : withoutLeapDays n < 146000 := by
    have := withoutLeapDays_mono (show n ≤ 146096 by omega)
    have htop : withoutLeapDays 146096 = 145999 := by decide
    omega
  have hy0 : 0 ≤ y := by omega
  have hy400 : y < 400 := by omega
  refine ⟨hy0, hy400, ?_, ?_⟩
  · by_contra hlt
    -- the day would be in the year before
    have hpos : 1 ≤ y := by
      by_contra hzero
      obtain rfl : y = 0 := by omega
      omega
    have hprev := (withoutLeapDays_year ⟨(y - 1).toNat, by omega⟩).2
    have hcast : (((y - 1).toNat : Nat) : Int) = y - 1 := by omega
    simp only [hcast, Int.sub_add_cancel] at hprev
    have := withoutLeapDays_mono
      (show n ≤ 365 * y + y / 4 - y / 100 + y / 400 - 1 by omega)
    omega
  · by_contra hge
    -- the day would be in the year behind
    have hnext : y + 1 < 400 := by
      by_contra hlast
      obtain rfl : y = 399 := by omega
      omega
    have hyear := (withoutLeapDays_year ⟨(y + 1).toNat, by omega⟩).1
    have hcast : (((y + 1).toNat : Nat) : Int) = y + 1 := by omega
    simp only [hcast] at hyear
    have := withoutLeapDays_mono
      (show 365 * (y + 1) + (y + 1) / 4 - (y + 1) / 100 ≤ n by omega)
    omega

/-- The month and the day of a day of the year. -/
theorem month_spec {n m : Int} (h0 : 0 ≤ n) (hn : n ≤ 365) (hm : m = (5 * n + 2) / 153) :
    0 ≤ m ∧ m ≤ 11 ∧ (153 * m + 2) / 5 ≤ n ∧
      n < (if m = 11 then 366 else (153 * (m + 1) + 2) / 5) := by
  have h11 : m ≤ 11 := by omega
  refine ⟨by omega, h11, by omega, ?_⟩
  split <;> omega

/-- The parts of a date. -/
theorem civilFromDays_spec (days : Int) :
    (civilFromDays days).Valid ∧ daysFromCivil (civilFromDays days) = days := by
  obtain ⟨n, hn⟩ : ∃ n, n = days + 719468 - (days + 719468) / 146097 * 146097 := ⟨_, rfl⟩
  obtain ⟨y, hy⟩ : ∃ y, y = withoutLeapDays n / 365 := ⟨_, rfl⟩
  obtain ⟨hy0, hy400, hlow, hhigh⟩ := yearOfEra_spec (by omega) (by omega) hy
  obtain ⟨k, hk⟩ : ∃ k, k = n - (365 * y + y / 4 - y / 100) := ⟨_, rfl⟩
  obtain ⟨m, hm⟩ : ∃ m, m = (5 * k + 2) / 153 := ⟨_, rfl⟩
  obtain ⟨hm0, hm11, hmlow, hmhigh⟩ := month_spec (by omega) (by omega) hm
  have hdate : civilFromDays days =
      ⟨y + (days + 719468) / 146097 * 400 + (if m + (if m < 10 then 3 else -9) ≤ 2 then 1 else 0),
        m + (if m < 10 then 3 else -9), k - (153 * m + 2) / 5 + 1⟩ := by
    simp only [civilFromDays, ← hn]
    rw [show (n - n / 1460 + n / 36524 - n / 146096) / 365 = y from hy.symm, ← hk, ← hm]
  rw [hdate]
  constructor
  · refine ⟨by dsimp only; omega, ?_⟩
    interval_cases m
    case «11» =>
      simp only [daysInMonth]
      refine ⟨_, rfl, ?_⟩
      have hlong := yearDays_succ y
      have hera : isLeapYear (y + (days + 719468) / 146097 * 400 + 1) = isLeapYear (y + 1) := by
        rw [← isLeapYear_add_era (y + 1) ((days + 719468) / 146097)]
        congr 1
        omega
      unfold yearDays at hlong
      norm_num
      rw [hera]
      cases hl : isLeapYear (y + 1) <;>
        simp only [hl, if_true, if_false, Bool.false_eq_true] at hlong ⊢ <;> omega
    all_goals exact ⟨_, rfl, by simp at hmhigh ⊢; omega⟩
  · rw [daysFromCivil_eq]
    have hyear : y + (days + 719468) / 146097 * 400 +
        (if m + (if m < 10 then 3 else -9) ≤ 2 then 1 else 0) -
          (if m + (if m < 10 then 3 else -9) ≤ 2 then 1 else 0) =
            y + (days + 719468) / 146097 * 400 := by omega
    have hmonth : m + (if m < 10 then 3 else -9) +
        (if m + (if m < 10 then (3 : Int) else -9) > 2 then -3 else 9) = m := by
      split_ifs <;> omega
    dsimp only
    rw [hyear, hmonth, yearDays_add_era]
    unfold yearDays
    omega

theorem valid_civilFromDays (days : Int) : (civilFromDays days).Valid :=
  (civilFromDays_spec days).1

@[simp] theorem daysFromCivil_civilFromDays (days : Int) :
    daysFromCivil (civilFromDays days) = days :=
  (civilFromDays_spec days).2

/-- Every date is the one of its number. -/
theorem civilFromDays_daysFromCivil {d : IsoDate} (h : d.Valid) :
    civilFromDays (daysFromCivil d) = d :=
  daysFromCivil_inj (valid_civilFromDays _) h (daysFromCivil_civilFromDays _)

end Numbers

/-! ### One day after the other -/

section Days

/-- The date after a date: the next day of the month, or the first of the next month. -/
def nextDate (d : IsoDate) : IsoDate :=
  if (daysInMonth d.year d.month).any (d.day < ·) then { d with day := d.day + 1 }
  else if d.month < 12 then ⟨d.year, d.month + 1, 1⟩
  else ⟨d.year + 1, 1, 1⟩

theorem valid_firstOfMonth {y m : Int} (h1 : 1 ≤ m) (h12 : m ≤ 12) : IsoDate.Valid ⟨y, m, 1⟩ := by
  obtain ⟨n, hn⟩ := @exists_daysInMonth y m h1 h12
  have := month_of_daysInMonth hn
  exact ⟨Int.le_refl 1, n, hn, by dsimp only; omega⟩

theorem nextDate_spec {d : IsoDate} (h : d.Valid) :
    (nextDate d).Valid ∧ daysFromCivil (nextDate d) = daysFromCivil d + 1 := by
  obtain ⟨hday, n, hn, hle⟩ := h
  obtain ⟨h1, h12, -⟩ := month_of_daysInMonth hn
  have hnext := daysFromCivil_nextMonth hn
  rw [nextDate, hn, Option.any_some, daysFromCivil_day d]
  by_cases hlt : d.day < n
  · rw [if_pos (decide_eq_true hlt)]
    refine ⟨⟨by dsimp only; omega, n, hn, by dsimp only; omega⟩, ?_⟩
    rw [daysFromCivil_day]
    dsimp only
    omega
  · -- the last day of the month
    rw [if_neg (by simpa using hlt)]
    by_cases hm : d.month < 12
    · rw [if_neg (by omega), if_neg (by omega)] at hnext
      rw [if_pos hm]
      exact ⟨valid_firstOfMonth (by omega) (by omega), by omega⟩
    · rw [if_pos (by omega), if_pos (by omega)] at hnext
      rw [if_neg hm]
      exact ⟨valid_firstOfMonth (by decide) (by decide), by omega⟩

/-- Day numbers and dates correspond to each other, and the date of the next number is the next
date. -/
theorem civil_bijection :
    (∀ days, daysFromCivil (civilFromDays days) = days ∧ (civilFromDays days).Valid) ∧
    (∀ d : IsoDate, d.Valid → civilFromDays (daysFromCivil d) = d) ∧
    ∀ days, civilFromDays (days + 1) = nextDate (civilFromDays days) := by
  refine ⟨fun days => ⟨daysFromCivil_civilFromDays days, valid_civilFromDays days⟩,
    fun d hd => civilFromDays_daysFromCivil hd, fun days => ?_⟩
  obtain ⟨hvalid, hnext⟩ := nextDate_spec (valid_civilFromDays days)
  rw [← civilFromDays_daysFromCivil hvalid, hnext, daysFromCivil_civilFromDays]

end Days

end OxideJS.Temporal
