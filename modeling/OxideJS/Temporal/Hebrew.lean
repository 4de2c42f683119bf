import Mathlib.Data.Int.ConditionallyCompleteOrder
import Mathlib.Tactic.IntervalCases
import OxideJS.Temporal.Calendar

/-!
The Hebrew calendar.

A year is described by its `Keviyah`: the day of the week it starts on, its
type, which fixes the lengths of the second and the third month, and whether
it has a leap month. The `Keviyah` follows from the time of the week of the
new moon and the place of the year in a cycle of nineteen years. Times are
counted in parts of an hour, of which a week has `181440`.
-/

namespace OxideJS.Temporal

/-- The first day of the first year. -/
def hebrewEpochDays : Int := -2092590

/-- The time of the week given by its day, hour and parts. -/
def hal (d h p : Int) : Int := ((d - 1) * 24 + h) * 1080 + p

inductive YearType where
  | deficient | regular | complete
  deriving DecidableEq

def YearType.toInt : YearType → Int
  | .deficient => -1
  | .regular => 0
  | .complete => 1

inductive StartOfYear where
  | monday | tuesday | thursday | saturday
  deriving DecidableEq

def StartOfYear.toInt : StartOfYear → Int
  | .monday => 2
  | .tuesday => 3
  | .thursday => 5
  | .saturday => 7

inductive Keviyah where
  | betHetGimel | betShinHe | gimelKafHe | heKafZayin | heShinAlef | zayinHetAlef | zayinShinGimel
  | betHetHe | betShinZayin | gimelKafZayin | heHetAlef | heShinGimel | zayinHetGimel | zayinShinHe
  deriving DecidableEq

namespace Keviyah

def yearType : Keviyah → YearType
  | betHetGimel => .deficient
  | betShinHe => .complete
  | gimelKafHe => .regular
  | heKafZayin => .regular
  | heShinAlef => .complete
  | zayinHetAlef => .deficient
  | zayinShinGimel => .complete
  | betHetHe => .deficient
  | betShinZayin => .complete
  | gimelKafZayin => .regular
  | heHetAlef => .deficient
  | heShinGimel => .complete
  | zayinHetGimel => .deficient
  | zayinShinHe => .complete

def startOfYear : Keviyah → StartOfYear
  | betHetGimel => .monday
  | betShinHe => .monday
  | gimelKafHe => .tuesday
  | heKafZayin => .thursday
  | heShinAlef => .thursday
  | zayinHetAlef => .saturday
  | zayinShinGimel => .saturday
  | betHetHe => .monday
  | betShinZayin => .monday
  | gimelKafZayin => .tuesday
  | heHetAlef => .thursday
  | heShinGimel => .thursday
  | zayinHetGimel => .saturday
  | zayinShinHe => .saturday

/-- The seven of the second row. -/
def isLeap (k : Keviyah) : Bool := 7 ≤ k.ctorIdx

variable (k : Keviyah)

/-- In a leap year the months from the sixth on are counted one less. -/
def monthLen (ordinalMonth : Int) : Int :=
  let monthNumber := ordinalMonth - if k.isLeap ∧ ordinalMonth ≥ 6 then 1 else 0
  29 + (monthNumber % 2 + (if ordinalMonth = 2 ∧ k.yearType = .complete then 1 else 0)
    - (if ordinalMonth = 3 ∧ k.yearType = .deficient then 1 else 0))

def daysPreceding (ordinalMonth : Int) : Int :=
  let monthNumber := ordinalMonth - if k.isLeap ∧ ordinalMonth > 6 then 1 else 0
  29 * (ordinalMonth - 1) + (monthNumber / 2 + (if k.isLeap ∧ ordinalMonth > 6 then 1 else 0)
    + (if ordinalMonth > 2 ∧ k.yearType = .complete then 1 else 0)
    - (if ordinalMonth > 3 ∧ k.yearType = .deficient then 1 else 0))

/-- The month that has the day, from the given one on; a year has at most thirteen. -/
def monthLoop (dayOfYear : Int) : Nat → Int → Int × Int
  | 0, month => (month, dayOfYear - k.daysPreceding month)
  | fuel + 1, month =>
    if dayOfYear > k.daysPreceding (month + 1) then monthLoop dayOfYear fuel (month + 1)
    else (month, dayOfYear - k.daysPreceding month)

def monthDayFor (dayOfYear : Int) : Int × Int :=
  k.monthLoop dayOfYear 13 ((dayOfYear - 1) / 30 + 1)

def yearLength : Int := (if k.isLeap then 384 else 354) + k.yearType.toInt

def monthsInYear : Int := 12 + if k.isLeap then 1 else 0

end Keviyah

inductive MetonicCycleType where
  | lMinusOne | lPlusOne | lPlusMinusOne | leap
  deriving DecidableEq

def MetonicCycleType.forHYear (hYear : Int) : MetonicCycleType :=
  if hYear % 19 ∈ [2, 5, 10, 13, 16] then .lMinusOne
  else if hYear % 19 ∈ [1, 4, 9, 12, 15] then .lPlusOne
  else if hYear % 19 ∈ [7, 18] then .lPlusMinusOne
  else .leap

def monthsPrecedingMolad (hYear : Int) : Int := (235 * (hYear - 1) + 1) / 19

/-- The time of the new moon of a year. -/
def molad (hYear : Int) : Int := 31524 + monthsPrecedingMolad hYear * 765433

/-- The week and the time of the week. -/
def moladDetails (hYear : Int) : Int × Int := (molad hYear / 181440, molad hYear % 181440)

def fourGates : MetonicCycleType → List Int
  | .lMinusOne =>
    [hal 7 18 0, hal 1 9 204, hal 2 18 0, hal 3 9 204, hal 5 9 204, hal 5 18 0, hal 6 9 204]
  | .lPlusOne =>
    [hal 7 18 0, hal 1 9 204, hal 2 15 589, hal 3 9 204, hal 5 9 204, hal 5 18 0, hal 6 0 408]
  | .lPlusMinusOne =>
    [hal 7 18 0, hal 1 9 204, hal 2 15 589, hal 3 9 204, hal 5 9 204, hal 5 18 0, hal 6 9 204]
  | .leap =>
    [hal 7 18 0, hal 1 20 491, hal 2 18 0, hal 3 18 0, hal 4 11 695, hal 5 18 0, hal 6 20 491]

def keviyahFor (cycleType : MetonicCycleType) (inWeek : Int) : Keviyah :=
  let gate (i : Nat) := (fourGates cycleType).getD i 0
  let keviyot : Keviyah × Keviyah :=
    if inWeek ≥ gate 0 ∨ inWeek < gate 1 then (.betHetGimel, .betHetHe)
    else if inWeek < gate 2 then (.betShinHe, .betShinZayin)
    else if inWeek < gate 3 then (.gimelKafHe, .gimelKafZayin)
    else if inWeek < gate 4 then (.heKafZayin, .heHetAlef)
    else if inWeek < gate 5 then (.heShinAlef, .heShinGimel)
    else if inWeek < gate 6 then (.zayinHetAlef, .zayinHetGimel)
    else (.zayinShinGimel, .zayinShinHe)
  if cycleType = .leap then keviyot.2 else keviyot.1

structure YearInfo where
  keviyah : Keviyah
  weeksSinceBeharad : Int

namespace YearInfo

def computeFor (hYear : Int) : YearInfo :=
  let (weeks, inWeek) := moladDetails hYear
  ⟨keviyahFor (.forHYear hYear) inWeek, if inWeek ≥ hal 7 18 0 then weeks + 1 else weeks⟩

def newYear (y : YearInfo) : Int :=
  hebrewEpochDays + (y.weeksSinceBeharad * 7 + y.keviyah.startOfYear.toInt -
    StartOfYear.monday.toInt)

/-- The year is estimated from the mean length and corrected by one. -/
def yearContainingRd (rd : Int) : YearInfo × Int :=
  let hYear := ((rd - hebrewEpochDays) * 98496).tdiv 35975351 +
    if rd ≥ hebrewEpochDays then 1 else 0
  let year := computeFor hYear
  if rd < year.newYear then (computeFor (hYear - 1), hYear - 1)
  else if rd ≥ year.newYear + year.keviyah.yearLength then (computeFor (hYear + 1), hYear + 1)
  else (year, hYear)

end YearInfo

def hebrewIsLeap (hYear : Int) : Bool := (YearInfo.computeFor hYear).keviyah.isLeap

def hebrewYearLength (hYear : Int) : Int := (YearInfo.computeFor hYear).keviyah.yearLength

def hebrewDaysInMonth (hYear ordinalMonth : Int) : Int :=
  (YearInfo.computeFor hYear).keviyah.monthLen ordinalMonth

def hebrewMonthsInYear (hYear : Int) : Int := (YearInfo.computeFor hYear).keviyah.monthsInYear

/-- A year, the number of a month in it and a day. -/
structure HebrewDate where
  year : Int
  month : Int
  day : Int
  deriving DecidableEq

def hebrewToIsoDays (d : HebrewDate) : Int :=
  let yearInfo := YearInfo.computeFor d.year
  yearInfo.newYear + yearInfo.keviyah.daysPreceding d.month + (d.day - 1)

def isoDaysToHebrew (isoDays : Int) : HebrewDate :=
  let (yearInfo, hYear) := YearInfo.yearContainingRd isoDays
  let (month, day) := yearInfo.keviyah.monthDayFor (isoDays - yearInfo.newYear + 1)
  ⟨hYear, month, day⟩

/-! ### Months -/

namespace Keviyah

variable {k : Keviyah}

theorem monthsInYear_cases (k : Keviyah) :
    k.monthsInYear = 12 ∧ k.isLeap = false ∨ k.monthsInYear = 13 ∧ k.isLeap = true := by
  cases hl : k.isLeap <;> simp [monthsInYear, hl]

theorem daysPreceding_one (k : Keviyah) : k.daysPreceding 1 = 0 := by
  simp [daysPreceding]

/-- The next month starts where a month ends. -/
theorem daysPreceding_succ {m : Int} (h1 : 1 ≤ m) (hm : m ≤ k.monthsInYear) :
    k.daysPreceding (m + 1) = k.daysPreceding m + k.monthLen m := by
  have h13 : m ≤ 13 := by
    have := k.monthsInYear_cases
    omega
  cases k <;> interval_cases m <;> rfl

/-- The last month ends with the year. -/
theorem daysPreceding_last (k : Keviyah) :
    k.daysPreceding (k.monthsInYear + 1) = k.yearLength := by
  cases k <;> rfl

theorem monthLen_bounds {m : Int} (h1 : 1 ≤ m) (hm : m ≤ k.monthsInYear) :
    29 ≤ k.monthLen m ∧ k.monthLen m ≤ 30 := by
  have h13 : m ≤ 13 := by
    have := k.monthsInYear_cases
    omega
  cases k <;> interval_cases m <;> decide

theorem daysPreceding_mono {m n : Int} (h1 : 1 ≤ m) (hmn : m ≤ n) (hn : n ≤ k.monthsInYear + 1) :
    k.daysPreceding m ≤ k.daysPreceding n := by
  obtain ⟨j, rfl⟩ : ∃ j : Nat, n = m + j := ⟨(n - m).toNat, by omega⟩
  clear hmn
  induction j with
  | zero => simp
  | succ j ih =>
    have heq : m + ((j + 1 : Nat) : Int) = m + j + 1 := by omega
    have hlen := @monthLen_bounds k (m + j) (by omega) (by omega)
    rw [heq, daysPreceding_succ (by omega) (by omega)]
    have := ih (by omega)
    omega

/-- The first month that can have a day does not start behind it. -/
theorem daysPreceding_le {m : Int} (h1 : 1 ≤ m) (hm : m ≤ k.monthsInYear + 1) :
    k.daysPreceding m ≤ 30 * (m - 1) := by
  obtain ⟨j, rfl⟩ : ∃ j : Nat, m = 1 + j := ⟨(m - 1).toNat, by omega⟩
  induction j with
  | zero => simp [daysPreceding_one]
  | succ j ih =>
    have heq : 1 + ((j + 1 : Nat) : Int) = 1 + j + 1 := by omega
    have hlen := @monthLen_bounds k (1 + j) (by omega) (by omega)
    rw [heq, daysPreceding_succ (by omega) (by omega)]
    have := ih (by omega) (by omega)
    omega

/-- A month and a day of a year. -/
def HasDay (k : Keviyah) (month day : Int) : Prop :=
  1 ≤ month ∧ month ≤ k.monthsInYear ∧ 1 ≤ day ∧ day ≤ k.monthLen month

theorem monthLoop_spec {n : Int} (hn : n ≤ k.yearLength) (fuel : Nat) {m : Int} (h1 : 1 ≤ m)
    (hm : m ≤ k.monthsInYear) (hlt : k.daysPreceding m < n)
    (hfuel : k.monthsInYear - m < fuel) :
    k.HasDay (k.monthLoop n fuel m).1 (k.monthLoop n fuel m).2 ∧
      k.daysPreceding (k.monthLoop n fuel m).1 + (k.monthLoop n fuel m).2 = n := by
  induction fuel generalizing m with
  | zero => omega
  | succ fuel ih =>
    rw [monthLoop]
    split
    · next hgt =>
      -- not the last month: the year would end in front of the day
      have hlast : m ≠ k.monthsInYear := by
        rintro rfl
        rw [daysPreceding_last] at hgt
        omega
      exact ih (by omega) (by omega) hgt (by omega)
    · have := daysPreceding_succ h1 hm
      exact ⟨⟨h1, hm, by dsimp only; omega, by dsimp only; omega⟩, by dsimp only; omega⟩

theorem monthDayFor_spec {n : Int} (h1 : 1 ≤ n) (hn : n ≤ k.yearLength) :
    k.HasDay (k.monthDayFor n).1 (k.monthDayFor n).2 ∧
      k.daysPreceding (k.monthDayFor n).1 + (k.monthDayFor n).2 = n := by
  have hyear : k.yearLength ≤ 30 * k.monthsInYear := by
    cases k <;> decide
  have hfirst : (n - 1) / 30 + 1 ≤ k.monthsInYear := by omega
  have hle := daysPreceding_le (show 1 ≤ (n - 1) / 30 + 1 by omega)
    (show (n - 1) / 30 + 1 ≤ k.monthsInYear + 1 by omega)
  have := k.monthsInYear_cases
  exact monthLoop_spec hn 13 (by omega) hfirst (by omega) (by omega)

/-- A day of the year is in one month only. -/
theorem hasDay_unique {m d m' d' : Int} (h : k.HasDay m d) (h' : k.HasDay m' d')
    (heq : k.daysPreceding m + d = k.daysPreceding m' + d') : m = m' ∧ d = d' := by
  obtain ⟨h1, hm, hd, hle⟩ := h
  obtain ⟨h1', hm', hd', hle'⟩ := h'
  have hnext := daysPreceding_succ h1 hm
  have hnext' := daysPreceding_succ h1' hm'
  have hmonth : m = m' := by
    rcases lt_trichotomy m m' with hlt | heq | hlt
    · have := daysPreceding_mono (k := k) (show 1 ≤ m + 1 by omega) (show m + 1 ≤ m' by omega)
        (by omega)
      omega
    · exact heq
    · have := daysPreceding_mono (k := k) (show 1 ≤ m' + 1 by omega) (show m' + 1 ≤ m by omega)
        (by omega)
      omega
  subst hmonth
  exact ⟨rfl, by omega⟩

end Keviyah

/-! ### Years -/

/-- The numbers of the gates. -/
theorem fourGates_eq (t : MetonicCycleType) : fourGates t =
    match t with
    | .lMinusOne => [174960, 9924, 45360, 61764, 113604, 123120, 139524]
    | .lPlusOne => [174960, 9924, 42709, 61764, 113604, 123120, 130008]
    | .lPlusMinusOne => [174960, 9924, 42709, 61764, 113604, 123120, 139524]
    | .leap => [174960, 22091, 45360, 71280, 90335, 123120, 151691] := by
  cases t <;> rfl

/-- The day a year starts on, counted from the week of its new moon, with its type. -/
def yearStart (t : MetonicCycleType) (w : Int) : Int :=
  (if w ≥ hal 7 18 0 then 7 else 0) + (keviyahFor t w).startOfYear.toInt

/-- The two years of each stretch of the week, the leap year second. -/
theorem keviyahFor_cases (t : MetonicCycleType) (w : Int) :
    let gate (i : Nat) := (fourGates t).getD i 0
    ∃ pair : Keviyah × Keviyah, keviyahFor t w = (if t = .leap then pair.2 else pair.1) ∧
      ((w ≥ gate 0 ∨ w < gate 1) ∧ pair = (.betHetGimel, .betHetHe) ∨
      w < gate 0 ∧ (gate 1 ≤ w ∧ w < gate 2 ∧ pair = (.betShinHe, .betShinZayin) ∨
        gate 2 ≤ w ∧ w < gate 3 ∧ pair = (.gimelKafHe, .gimelKafZayin) ∨
        gate 3 ≤ w ∧ w < gate 4 ∧ pair = (.heKafZayin, .heHetAlef) ∨
        gate 4 ≤ w ∧ w < gate 5 ∧ pair = (.heShinAlef, .heShinGimel) ∨
        gate 5 ≤ w ∧ w < gate 6 ∧ pair = (.zayinHetAlef, .zayinHetGimel) ∨
        gate 6 ≤ w ∧ pair = (.zayinShinGimel, .zayinShinHe))) := by
  refine ⟨_, rfl, ?_⟩
  by_cases h1 : w ≥ (fourGates t).getD 0 0 ∨ w < (fourGates t).getD 1 0
  · exact .inl ⟨h1, if_pos h1⟩
  · rw [if_neg h1]
    rw [not_or, not_le, not_lt] at h1
    refine .inr ⟨h1.1, ?_⟩
    by_cases h2 : w < (fourGates t).getD 2 0
    · exact .inl ⟨h1.2, h2, if_pos h2⟩
    · rw [if_neg h2]
      refine .inr ?_
      by_cases h3 : w < (fourGates t).getD 3 0
      · exact .inl ⟨not_lt.1 h2, h3, if_pos h3⟩
      · rw [if_neg h3]
        refine .inr ?_
        by_cases h4 : w < (fourGates t).getD 4 0
        · exact .inl ⟨not_lt.1 h3, h4, if_pos h4⟩
        · rw [if_neg h4]
          refine .inr ?_
          by_cases h5 : w < (fourGates t).getD 5 0
          · exact .inl ⟨not_lt.1 h4, h5, if_pos h5⟩
          · rw [if_neg h5]
            refine .inr ?_
            by_cases h6 : w < (fourGates t).getD 6 0
            · exact .inl ⟨not_lt.1 h5, h6, if_pos h6⟩
            · exact .inr ⟨not_lt.1 h6, if_neg h6⟩

theorem keviyahFor_isLeap (t : MetonicCycleType) (w : Int) :
    (keviyahFor t w).isLeap = decide (t = .leap) := by
  obtain ⟨pair, hpair, hcases⟩ := keviyahFor_cases t w
  have hleap : pair.1.isLeap = false ∧ pair.2.isLeap = true := by
    rcases hcases with ⟨-, rfl⟩ | ⟨-, ⟨-, -, rfl⟩ | ⟨-, -, rfl⟩ | ⟨-, -, rfl⟩ | ⟨-, -, rfl⟩ |
      ⟨-, -, rfl⟩ | ⟨-, rfl⟩⟩
    all_goals exact ⟨rfl, rfl⟩
  rw [hpair]
  by_cases ht : t = .leap
  · rw [if_pos ht, hleap.2, decide_eq_true ht]
  · rw [if_neg ht, hleap.1, decide_eq_false ht]

/-- The start and the type of a year whose pair is known. -/
theorem yearStart_of_pair {t : MetonicCycleType} {w : Int} {pair : Keviyah × Keviyah}
    (h : keviyahFor t w = if t = .leap then pair.2 else pair.1)
    (hstart : pair.2.startOfYear = pair.1.startOfYear) :
    yearStart t w = (if w ≥ hal 7 18 0 then 7 else 0) + pair.1.startOfYear.toInt ∧
      (keviyahFor t w).yearType.toInt =
        if t = .leap then pair.2.yearType.toInt else pair.1.yearType.toInt := by
  rw [yearStart, h]
  by_cases ht : t = .leap
  · rw [if_pos ht, if_pos ht, hstart]
    exact ⟨rfl, rfl⟩
  · rw [if_neg ht, if_neg ht]
    exact ⟨rfl, rfl⟩

/-- The seven stretches of the week. -/
theorem yearStart_cases (t : MetonicCycleType) (w : Int) :
    let gate (i : Nat) := (fourGates t).getD i 0
    let type := (keviyahFor t w).yearType.toInt
    w ≥ gate 0 ∧ yearStart t w = 9 ∧ type = -1 ∨
    w < gate 1 ∧ yearStart t w = 2 ∧ type = -1 ∨
    gate 1 ≤ w ∧ w < gate 2 ∧ yearStart t w = 2 ∧ type = 1 ∨
    gate 2 ≤ w ∧ w < gate 3 ∧ yearStart t w = 3 ∧ type = 0 ∨
    gate 3 ≤ w ∧ w < gate 4 ∧ yearStart t w = 5 ∧ type = (if t = .leap then -1 else 0) ∨
    gate 4 ≤ w ∧ w < gate 5 ∧ yearStart t w = 5 ∧ type = 1 ∨
    gate 5 ≤ w ∧ w < gate 6 ∧ yearStart t w = 7 ∧ type = -1 ∨
    gate 6 ≤ w ∧ w < gate 0 ∧ yearStart t w = 7 ∧ type = 1 := by
  have hlast : (fourGates t).getD 0 0 = hal 7 18 0 := by cases t <;> rfl
  obtain ⟨pair, hpair, hcases⟩ := keviyahFor_cases t w
  dsimp only at hcases ⊢
  rw [hlast] at hcases ⊢
  rcases hcases with ⟨hgate, rfl⟩ | ⟨hearly, hcases⟩
  · obtain ⟨hstart, htype⟩ := yearStart_of_pair hpair rfl
    rw [htype, hstart]
    by_cases hlate : w ≥ hal 7 18 0
    · rw [if_pos hlate]
      exact .inl ⟨hlate, rfl, ite_id _⟩
    · rw [if_neg hlate]
      exact .inr (.inl ⟨hgate.resolve_left hlate, rfl, ite_id _⟩)
  · refine .inr (.inr ?_)
    have hnot : ¬w ≥ hal 7 18 0 := not_le.2 hearly
    rcases hcases with ⟨hlow, hhigh, rfl⟩ | ⟨hlow, hhigh, rfl⟩ | ⟨hlow, hhigh, rfl⟩ |
      ⟨hlow, hhigh, rfl⟩ | ⟨hlow, hhigh, rfl⟩ | ⟨hlow, rfl⟩
    all_goals
      obtain ⟨hstart, htype⟩ := yearStart_of_pair hpair rfl
      rw [if_neg hnot] at hstart
      rw [htype, hstart]
    · exact .inl ⟨hlow, hhigh, rfl, ite_id _⟩
    · exact .inr (.inl ⟨hlow, hhigh, rfl, ite_id _⟩)
    · exact .inr (.inr (.inl ⟨hlow, hhigh, rfl, rfl⟩))
    · exact .inr (.inr (.inr (.inl ⟨hlow, hhigh, rfl, ite_id _⟩)))
    · exact .inr (.inr (.inr (.inr (.inl ⟨hlow, hhigh, rfl, ite_id _⟩))))
    · exact .inr (.inr (.inr (.inr (.inr ⟨hlow, hearly, rfl, ite_id _⟩))))

/-- The two cycle types of years that follow one another. -/
inductive CycleSucc : MetonicCycleType → MetonicCycleType → Int → Prop
  | lMinusOne : CycleSucc .lMinusOne .leap 12
  | lPlusOne : CycleSucc .lPlusOne .lMinusOne 12
  | lPlusMinusOne : CycleSucc .lPlusMinusOne .leap 12
  | leap : CycleSucc .leap .lPlusOne 13
  | leap' : CycleSucc .leap .lPlusMinusOne 13

/-- A year has the length its type says, whatever the time of its new moon. -/
theorem yearStart_succ {t t' : MetonicCycleType} {n : Int} (h : CycleSucc t t' n) {w : Int}
    (h0 : 0 ≤ w) (hw : w < 181440) :
    7 * ((w + n * 765433) / 181440) + yearStart t' ((w + n * 765433) % 181440) =
      yearStart t w + (keviyahFor t w).yearLength := by
  have hfrom := yearStart_cases t w
  have hto := yearStart_cases t' ((w + n * 765433) % 181440)
  rw [Keviyah.yearLength, keviyahFor_isLeap]
  cases h <;> simp only [fourGates_eq, List.getD_cons_succ, List.getD_cons_zero, reduceCtorEq,
    if_true, if_false, decide_true, decide_false, Bool.false_eq_true] at hfrom hto ⊢ <;> omega

/-- How far the first day of a year is from its new moon. -/
theorem yearStart_bounds (t : MetonicCycleType) {w : Int} (h0 : 0 ≤ w) (hw : w < 181440) :
    w - 45360 ≤ 25920 * (yearStart t w - 2) ∧ 25920 * (yearStart t w - 2) ≤ w + 15996 := by
  have hcases := yearStart_cases t w
  cases t <;> simp only [fourGates_eq, List.getD_cons_succ, List.getD_cons_zero] at hcases <;> omega

theorem cycleSucc_forHYear (y : Int) :
    ∃ n, CycleSucc (.forHYear y) (.forHYear (y + 1)) n ∧
      monthsPrecedingMolad (y + 1) = monthsPrecedingMolad y + n := by
  obtain ⟨r, hr⟩ : ∃ r, y % 19 = r := ⟨_, rfl⟩
  have hnext : (y + 1) % 19 = (r + 1) % 19 := by omega
  have h0 : 0 ≤ r := by omega
  have h19 : r < 19 := by omega
  simp only [MetonicCycleType.forHYear, monthsPrecedingMolad, hr, hnext]
  interval_cases r <;> first
    | exact ⟨12, .lMinusOne, by omega⟩
    | exact ⟨12, .lPlusOne, by omega⟩
    | exact ⟨12, .lPlusMinusOne, by omega⟩
    | exact ⟨13, .leap, by omega⟩
    | exact ⟨13, .leap', by omega⟩

namespace YearInfo

theorem newYear_computeFor (y : Int) :
    (computeFor y).newYear = hebrewEpochDays +
      (7 * (molad y / 181440) + yearStart (.forHYear y) (molad y % 181440) - 2) := by
  simp only [newYear, computeFor, moladDetails, yearStart, StartOfYear.toInt]
  split_ifs <;> omega

theorem newYear_succ (y : Int) :
    (computeFor (y + 1)).newYear = (computeFor y).newYear + hebrewYearLength y := by
  obtain ⟨n, hsucc, hmonths⟩ := cycleSucc_forHYear y
  have hstart := yearStart_succ hsucc (w := molad y % 181440) (by omega) (by omega)
  have hmolad : molad (y + 1) = molad y + n * 765433 := by
    simp only [molad, hmonths]
    omega
  have hdiv : molad (y + 1) / 181440 =
      molad y / 181440 + (molad y % 181440 + n * 765433) / 181440 := by omega
  have hmod : molad (y + 1) % 181440 = (molad y % 181440 + n * 765433) % 181440 := by omega
  have hlength : hebrewYearLength y =
      (keviyahFor (.forHYear y) (molad y % 181440)).yearLength := rfl
  rw [newYear_computeFor, newYear_computeFor, hlength, hdiv, hmod]
  omega

theorem hebrewYearLength_pos (y : Int) : 353 ≤ hebrewYearLength y := by
  unfold hebrewYearLength
  cases (computeFor y).keviyah <;> decide

/-- The years are in order. -/
theorem newYear_strictMono : StrictMono fun y => (computeFor y).newYear := by
  refine strictMono_int_of_lt_succ fun y => ?_
  have hpos := hebrewYearLength_pos y
  have hsucc := newYear_succ y
  change (computeFor y).newYear < (computeFor (y + 1)).newYear
  omega

theorem newYear_bounds (y : Int) :
    molad y - 45360 ≤ 25920 * ((computeFor y).newYear - hebrewEpochDays) ∧
      25920 * ((computeFor y).newYear - hebrewEpochDays) ≤ molad y + 15996 := by
  have hbounds := yearStart_bounds (.forHYear y) (w := molad y % 181440) (by omega) (by omega)
  rw [newYear_computeFor]
  omega

/-- The estimated year is at most one off. -/
theorem estimate_bounds (rd : Int) :
    let e := ((rd - hebrewEpochDays) * 98496).tdiv 35975351 +
      if rd ≥ hebrewEpochDays then 1 else 0
    (computeFor (e - 1)).newYear ≤ rd ∧ rd < (computeFor (e + 2)).newYear := by
  intro e
  have hdiv := Int.mul_tdiv_add_tmod ((rd - hebrewEpochDays) * 98496) 35975351
  have hlow := newYear_bounds (e - 1)
  have hhigh := newYear_bounds (e + 2)
  have hyears : 35975351 * (e - 1) ≤ (rd - hebrewEpochDays) * 98496 ∧
      (rd - hebrewEpochDays) * 98496 ≤ 35975351 * e := by
    simp only [e]
    split
    · have hsign := tmod_sign (s := 1) (a := (rd - hebrewEpochDays) * 98496) (n := 35975351)
        (.inl rfl) (by omega) (by omega)
      omega
    · have hsign := tmod_sign (s := -1) (a := (rd - hebrewEpochDays) * 98496) (n := 35975351)
        (.inr rfl) (by omega) (by omega)
      omega
  simp only [molad, monthsPrecedingMolad] at hlow hhigh
  constructor <;> omega

/-- The year found is the one that has the day. -/
theorem yearContainingRd_spec (rd : Int) :
    (yearContainingRd rd).1 = computeFor (yearContainingRd rd).2 ∧
      (yearContainingRd rd).1.newYear ≤ rd ∧
      rd < (yearContainingRd rd).1.newYear + hebrewYearLength (yearContainingRd rd).2 := by
  obtain ⟨hlow, hhigh⟩ := estimate_bounds rd
  unfold yearContainingRd
  dsimp only
  generalize ((rd - hebrewEpochDays) * 98496).tdiv 35975351 +
    (if rd ≥ hebrewEpochDays then 1 else 0) = e at hlow hhigh ⊢
  have hprev := newYear_succ (e - 1)
  have hnext := newYear_succ (e + 1)
  rw [show e - 1 + 1 = e by omega] at hprev
  rw [show e + 1 + 1 = e + 2 by omega] at hnext
  split_ifs with hbefore hbehind
  · exact ⟨rfl, hlow, by dsimp only; omega⟩
  · refine ⟨rfl, ?_, by dsimp only; omega⟩
    have hsucc := newYear_succ e
    unfold hebrewYearLength at hsucc
    dsimp only
    omega
  · exact ⟨rfl, by dsimp only; omega, by dsimp only [hebrewYearLength]; omega⟩

end YearInfo

/-! ### Dates -/

/-- A month and a day the year has. -/
def HebrewDate.Valid (d : HebrewDate) : Prop :=
  (YearInfo.computeFor d.year).keviyah.HasDay d.month d.day

/-- The days of a date are counted in its year. -/
theorem hebrewToIsoDays_bounds {d : HebrewDate} (h : d.Valid) :
    (YearInfo.computeFor d.year).newYear ≤ hebrewToIsoDays d ∧
      hebrewToIsoDays d < (YearInfo.computeFor (d.year + 1)).newYear := by
  obtain ⟨h1, hm, hd, hle⟩ := h
  have hone := (YearInfo.computeFor d.year).keviyah.daysPreceding_one
  have hlast := (YearInfo.computeFor d.year).keviyah.daysPreceding_last
  have hfirst := Keviyah.daysPreceding_mono (k := (YearInfo.computeFor d.year).keviyah)
    (le_refl 1) h1 (by omega)
  have hnext := Keviyah.daysPreceding_succ h1 hm
  have hmono := Keviyah.daysPreceding_mono (k := (YearInfo.computeFor d.year).keviyah)
    (m := d.month + 1) (by omega) (show _ ≤ _ by omega) (le_refl _)
  rw [YearInfo.newYear_succ]
  unfold hebrewToIsoDays hebrewYearLength
  dsimp only
  omega

theorem hebrewToIsoDays_injective {d d' : HebrewDate} (h : d.Valid) (h' : d'.Valid)
    (heq : hebrewToIsoDays d = hebrewToIsoDays d') : d = d' := by
  have hyear : d.year = d'.year := by
    obtain ⟨hlow, hhigh⟩ := hebrewToIsoDays_bounds h
    obtain ⟨hlow', hhigh'⟩ := hebrewToIsoDays_bounds h'
    have hlt := YearInfo.newYear_strictMono.lt_iff_lt (a := d.year) (b := d'.year + 1)
    have hlt' := YearInfo.newYear_strictMono.lt_iff_lt (a := d'.year) (b := d.year + 1)
    have := hlt.1 (by omega)
    have := hlt'.1 (by omega)
    omega
  obtain ⟨y, m, day⟩ := d
  obtain ⟨y', m', day'⟩ := d'
  dsimp only at hyear
  subst hyear
  obtain ⟨rfl, rfl⟩ := Keviyah.hasDay_unique h h' (by
    simp only [hebrewToIsoDays] at heq ⊢
    omega)
  rfl

theorem isoDaysToHebrew_spec (n : Int) :
    (isoDaysToHebrew n).Valid ∧ hebrewToIsoDays (isoDaysToHebrew n) = n := by
  obtain ⟨hinfo, hlow, hhigh⟩ := YearInfo.yearContainingRd_spec n
  unfold isoDaysToHebrew
  generalize YearInfo.yearContainingRd n = found at hinfo hlow hhigh ⊢
  obtain ⟨info, y⟩ := found
  dsimp only at hinfo hlow hhigh ⊢
  subst hinfo
  have hspec := Keviyah.monthDayFor_spec (k := (YearInfo.computeFor y).keviyah)
    (n := n - (YearInfo.computeFor y).newYear + 1) (by omega)
    (by unfold hebrewYearLength at hhigh; omega)
  refine ⟨hspec.1, ?_⟩
  have hday := hspec.2
  simp only [hebrewToIsoDays]
  omega

/-- The days and the dates of the calendar are in bijection: a year ends where the next one
starts, its months fill it, and the two conversions are inverse to each other. -/
theorem hebrew_bijection :
    (∀ y, (YearInfo.computeFor (y + 1)).newYear =
      (YearInfo.computeFor y).newYear + hebrewYearLength y) ∧
    (∀ y, hebrewYearLength y ∈ [353, 354, 355, 383, 384, 385] ∧
      (hebrewMonthsInYear y = 12 ∨ hebrewMonthsInYear y = 13) ∧
      ((List.range (hebrewMonthsInYear y).toNat).map
        fun (i : Nat) => hebrewDaysInMonth y (i + 1)).sum = hebrewYearLength y) ∧
    (∀ n, (isoDaysToHebrew n).Valid ∧ hebrewToIsoDays (isoDaysToHebrew n) = n) ∧
    (∀ d : HebrewDate, d.Valid → isoDaysToHebrew (hebrewToIsoDays d) = d) := by
  refine ⟨YearInfo.newYear_succ, fun y => ?_, isoDaysToHebrew_spec, fun d hd => ?_⟩
  · unfold hebrewYearLength hebrewMonthsInYear hebrewDaysInMonth
    cases (YearInfo.computeFor y).keviyah <;> decide
  · obtain ⟨hvalid, hdays⟩ := isoDaysToHebrew_spec (hebrewToIsoDays d)
    exact hebrewToIsoDays_injective hvalid hd hdays

end OxideJS.Temporal
