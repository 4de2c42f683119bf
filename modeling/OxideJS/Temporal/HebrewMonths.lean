import OxideJS.Temporal.Hebrew

/-!
Months of the Hebrew calendar, and their differences.

A month is a year and the number of the month in it. The number a month code
stands for depends on the year: from the leap month on, the months of a leap
year are counted one higher. `until` compares the codes of two months,
`add` keeps the number, and the difference is added back exactly when the
two agree on where the first month is.
-/

namespace OxideJS.Temporal

structure HebrewMonth where
  year : Int
  month : Int
  deriving DecidableEq

/-- The code of a month; `M05L` is the leap month. -/
structure MonthCode where
  number : Int
  isLeapMonth : Bool
  deriving DecidableEq

def hebrewMonthCode (h : HebrewMonth) : MonthCode :=
  let isLeap := hebrewIsLeap h.year
  if isLeap ∧ h.month = 6 then ⟨5, true⟩
  else ⟨h.month - if isLeap ∧ h.month ≥ 6 then 1 else 0, false⟩

def hebrewOrdinalFromMonthCode (hYear : Int) (code : MonthCode) : Option Int :=
  let isLeap := hebrewIsLeap hYear
  if code.isLeapMonth then
    if code.number = 5 ∧ isLeap then some 6 else none
  else if 1 ≤ code.number ∧ code.number ≤ 12 then
    some (code.number + if isLeap ∧ code.number ≥ 6 then 1 else 0)
  else none

/-- The months of the first `n` years. -/
def monthsOfYears : Nat → Int
  | 0 => 0
  | n + 1 => monthsOfYears n + hebrewMonthsInYear (n + 1)

/-- The years from the first one on are added up; in front of it there are none. -/
def hebrewAbsoluteMonth (h : HebrewMonth) : Int :=
  monthsOfYears (h.year - 1).toNat + h.month - 1

/-- The year earlier, until the month is one of a year. -/
def carryDown : Nat → Int → Int → Int × Int
  | 0, ry, rm => (ry, rm)
  | fuel + 1, ry, rm =>
    if rm < 1 then carryDown fuel (ry - 1) (rm + hebrewMonthsInYear (ry - 1)) else (ry, rm)

/-- The year later, until the month is one of the year. -/
def carryUp : Nat → Int → Int → HebrewMonth
  | 0, ry, rm => ⟨ry, rm⟩
  | fuel + 1, ry, rm =>
    if rm > hebrewMonthsInYear ry then carryUp fuel (ry + 1) (rm - hebrewMonthsInYear ry)
    else ⟨ry, rm⟩

/-- Every turn of the loops moves the month by twelve at least. -/
def hebrewApplyDuration (sign : Int) (h : HebrewMonth) (duration : Int × Int) : HebrewMonth :=
  let ry := h.year + sign * duration.1
  let rm := h.month + sign * duration.2
  let (ry, rm) := carryDown (1 - rm).toNat ry rm
  carryUp rm.toNat ry rm

def hebrewAdd (h : HebrewMonth) (duration : Int × Int) : HebrewMonth :=
  hebrewApplyDuration 1 h duration

inductive YearMonthUnit where
  | year | month
  deriving DecidableEq

/-- The months are ordered by years first. -/
def HebrewMonth.Before (a b : HebrewMonth) : Prop :=
  a.year < b.year ∨ a.year = b.year ∧ a.month < b.month

instance (a b : HebrewMonth) : Decidable (a.Before b) :=
  inferInstanceAs (Decidable (_ ∨ _))

/-- The number that the code of a month has in another year. -/
def codePosition (h : HebrewMonth) (hYear : Int) : Int :=
  (hebrewOrdinalFromMonthCode hYear (hebrewMonthCode h)).getD h.month

/-- The years and months from one month to a later one. -/
def monthGap (a b : HebrewMonth) : Int × Int :=
  let years := b.year - a.year
  let months := codePosition b b.year - codePosition a b.year
  if months < 0 then (years - 1, months + 12) else (years, months)

def hebrewDifference (since : Bool) (receiver other : HebrewMonth) (largest : YearMonthUnit) :
    Int × Int :=
  if receiver = other then (0, 0)
  else
    let (start, stop) := if since then (other, receiver) else (receiver, other)
    let (years, months) :=
      if stop.Before start then (-(monthGap stop start).1, -(monthGap stop start).2)
      else monthGap start stop
    match largest with
    | .year => (years, months)
    | .month =>
      if hebrewMonthCode start = hebrewMonthCode stop then
        (0, hebrewAbsoluteMonth stop - hebrewAbsoluteMonth start)
      else (0, years * 12 + months)

def hebrewUntil (a b : HebrewMonth) (largest : YearMonthUnit) : Int × Int :=
  hebrewDifference false a b largest

/-! ### Counting months -/

/-- A month the year has. -/
def HebrewMonth.Valid (h : HebrewMonth) : Prop :=
  1 ≤ h.month ∧ h.month ≤ hebrewMonthsInYear h.year

/-- The count of a month in all years, of which every year continues the one before. -/
def HebrewMonth.count (h : HebrewMonth) : Int := monthsPrecedingMolad h.year + h.month

theorem hebrewMonthsInYear_cases (y : Int) :
    hebrewMonthsInYear y = 12 ∧ hebrewIsLeap y = false ∨
      hebrewMonthsInYear y = 13 ∧ hebrewIsLeap y = true :=
  (YearInfo.computeFor y).keviyah.monthsInYear_cases

theorem monthsPrecedingMolad_succ (y : Int) :
    monthsPrecedingMolad (y + 1) = monthsPrecedingMolad y + hebrewMonthsInYear y := by
  obtain ⟨n, hsucc, hmonths⟩ := cycleSucc_forHYear y
  have hleap : hebrewIsLeap y = decide (MetonicCycleType.forHYear y = .leap) :=
    keviyahFor_isLeap _ _
  have hcases := hebrewMonthsInYear_cases y
  rw [hleap] at hcases
  rw [hmonths]
  generalize MetonicCycleType.forHYear y = t at hsucc hcases
  generalize MetonicCycleType.forHYear (y + 1) = t' at hsucc
  cases hsucc <;> simp at hcases <;> omega

theorem monthsPrecedingMolad_lt {y z : Int} (h : y < z) :
    monthsPrecedingMolad y + 12 ≤ monthsPrecedingMolad z := by
  unfold monthsPrecedingMolad
  omega

/-- A month is determined by its count. -/
theorem count_injective {h h' : HebrewMonth} (hv : h.Valid) (hv' : h'.Valid)
    (heq : h.count = h'.count) : h = h' := by
  obtain ⟨y, m⟩ := h
  obtain ⟨y', m'⟩ := h'
  obtain ⟨h1, hm⟩ := hv
  obtain ⟨h1', hm'⟩ := hv'
  simp only [HebrewMonth.count] at heq h1 hm h1' hm'
  have hnext := monthsPrecedingMolad_succ y
  have hnext' := monthsPrecedingMolad_succ y'
  have hyear : y = y' := by
    rcases lt_trichotomy y y' with hlt | hyear | hlt
    · rcases eq_or_lt_of_le (show y + 1 ≤ y' by omega) with rfl | hlt
      · omega
      · have := monthsPrecedingMolad_lt hlt
        omega
    · exact hyear
    · rcases eq_or_lt_of_le (show y' + 1 ≤ y by omega) with rfl | hlt
      · omega
      · have := monthsPrecedingMolad_lt hlt
        omega
  subst hyear
  rw [show m = m' by omega]

theorem carryDown_spec (fuel : Nat) (ry rm : Int) (hfuel : 1 - rm ≤ fuel) :
    1 ≤ (carryDown fuel ry rm).2 ∧
      monthsPrecedingMolad (carryDown fuel ry rm).1 + (carryDown fuel ry rm).2 =
        monthsPrecedingMolad ry + rm := by
  induction fuel generalizing ry rm with
  | zero => exact ⟨by simp only [carryDown]; omega, rfl⟩
  | succ fuel ih =>
    rw [carryDown]
    split
    · have hyear := monthsPrecedingMolad_succ (ry - 1)
      have hcases := hebrewMonthsInYear_cases (ry - 1)
      rw [show ry - 1 + 1 = ry by omega] at hyear
      obtain ⟨hpos, hcount⟩ := ih (ry - 1) (rm + hebrewMonthsInYear (ry - 1)) (by omega)
      exact ⟨hpos, by omega⟩
    · exact ⟨by dsimp only; omega, rfl⟩

theorem carryUp_spec (fuel : Nat) (ry rm : Int) (hpos : 1 ≤ rm) (hfuel : rm ≤ fuel) :
    (carryUp fuel ry rm).Valid ∧ (carryUp fuel ry rm).count = monthsPrecedingMolad ry + rm := by
  induction fuel generalizing ry rm with
  | zero => omega
  | succ fuel ih =>
    rw [carryUp]
    split
    · have hyear := monthsPrecedingMolad_succ ry
      have hcases := hebrewMonthsInYear_cases ry
      obtain ⟨hvalid, hcount⟩ := ih (ry + 1) (rm - hebrewMonthsInYear ry) (by omega) (by omega)
      exact ⟨hvalid, by omega⟩
    · exact ⟨⟨hpos, by dsimp only; omega⟩, rfl⟩

/-- The months are added to the month of the same number in the year reached. -/
theorem hebrewAdd_spec (h : HebrewMonth) (duration : Int × Int) :
    (hebrewAdd h duration).Valid ∧ (hebrewAdd h duration).count =
      monthsPrecedingMolad (h.year + duration.1) + (h.month + duration.2) := by
  unfold hebrewAdd hebrewApplyDuration
  simp only [one_mul]
  obtain ⟨hpos, hdown⟩ := carryDown_spec (1 - (h.month + duration.2)).toNat
    (h.year + duration.1) (h.month + duration.2) (by omega)
  obtain ⟨hvalid, hup⟩ := carryUp_spec _ _ _ hpos (Int.self_le_toNat _)
  exact ⟨hvalid, hup.trans hdown⟩

theorem hebrewAdd_eq_iff {h r : HebrewMonth} (hr : r.Valid) (duration : Int × Int) :
    hebrewAdd h duration = r ↔
      monthsPrecedingMolad (h.year + duration.1) + (h.month + duration.2) = r.count := by
  obtain ⟨hvalid, hcount⟩ := hebrewAdd_spec h duration
  constructor
  · rintro rfl
    exact hcount.symm
  · intro heq
    exact count_injective hvalid hr (hcount.trans heq)

/-! ### Codes -/

theorem codePosition_bounds {h : HebrewMonth} (hv : h.Valid) (y : Int) :
    1 ≤ codePosition h y ∧ codePosition h y ≤ 13 := by
  obtain ⟨h1, hm⟩ := hv
  have hcases := hebrewMonthsInYear_cases h.year
  simp only [codePosition, hebrewOrdinalFromMonthCode, hebrewMonthCode]
  split_ifs <;> simp_all <;> omega

/-- A month is read back from its code in its own year. -/
theorem hebrewOrdinalFromMonthCode_self {h : HebrewMonth} (hv : h.Valid) :
    hebrewOrdinalFromMonthCode h.year (hebrewMonthCode h) = some h.month := by
  obtain ⟨h1, hm⟩ := hv
  simp only [hebrewOrdinalFromMonthCode, hebrewMonthCode]
  rcases hebrewMonthsInYear_cases h.year with ⟨hmonths, hleap⟩ | ⟨hmonths, hleap⟩
  · simp only [hleap, Bool.false_eq_true, false_and, if_false, sub_zero, add_zero]
    rw [if_pos (by omega)]
  · rcases lt_trichotomy h.month 6 with hlt | heq | hgt
    · simp [hleap, hlt.ne, not_le.mpr hlt]
      omega
    · simp [hleap, heq]
    · simp [hleap, hgt.ne', hgt.le]
      omega

theorem codePosition_self {h : HebrewMonth} (hv : h.Valid) : codePosition h h.year = h.month := by
  simp [codePosition, hebrewOrdinalFromMonthCode_self hv]

theorem eq_of_hebrewMonthCode {a b : HebrewMonth} (ha : a.Valid) (hb : b.Valid)
    (hcode : hebrewMonthCode a = hebrewMonthCode b) (hyear : a.year = b.year) : a = b := by
  have hmonth : some a.month = some b.month := by
    rw [← hebrewOrdinalFromMonthCode_self ha, ← hebrewOrdinalFromMonthCode_self hb, hcode, hyear]
  cases a
  cases b
  simp_all

/-! ### The absolute index -/

theorem monthsOfYears_eq (n : Nat) : monthsOfYears n = monthsPrecedingMolad (n + 1) := by
  induction n with
  | zero => rfl
  | succ n ih =>
    rw [monthsOfYears, ih, Nat.cast_succ, ← monthsPrecedingMolad_succ]

/-- The index counts the months from the first year on; all years in front of it start where
the first one starts. -/
theorem hebrewAbsoluteMonth_eq (h : HebrewMonth) :
    hebrewAbsoluteMonth h = monthsPrecedingMolad (max h.year 1) + h.month - 1 := by
  rw [hebrewAbsoluteMonth, monthsOfYears_eq]
  congr 3
  omega

/-- The month behind a month. -/
def HebrewMonth.next (h : HebrewMonth) : HebrewMonth :=
  if h.month < hebrewMonthsInYear h.year then ⟨h.year, h.month + 1⟩ else ⟨h.year + 1, 1⟩

theorem hebrewAbsoluteMonth_next {h : HebrewMonth} (hv : h.Valid) :
    hebrewAbsoluteMonth h.next = hebrewAbsoluteMonth h + 1 ↔
      h.month < hebrewMonthsInYear h.year ∨ 1 ≤ h.year := by
  obtain ⟨h1, hm⟩ := hv
  have hcases := hebrewMonthsInYear_cases h.year
  have hsucc := monthsPrecedingMolad_succ h.year
  simp only [hebrewAbsoluteMonth_eq, HebrewMonth.next]
  split_ifs with hlast
  · simp only [hlast, true_or, iff_true]
    omega
  · rcases le_or_gt 1 h.year with hyear | hyear
    · simp only [hyear, or_true, iff_true]
      rw [max_eq_left (by omega), max_eq_left hyear]
      omega
    · rw [max_eq_right (show h.year + 1 ≤ 1 by omega), max_eq_right (show h.year ≤ 1 by omega)]
      constructor
      · intro hgrow
        dsimp only at hgrow
        omega
      · rintro (hless | hfirst) <;> omega

/-! ### Differences -/

theorem hebrewUntil_self (h : HebrewMonth) (u : YearMonthUnit) : hebrewUntil h h u = (0, 0) := by
  simp [hebrewUntil, hebrewDifference]

theorem hebrewUntil_later {a b : HebrewMonth} (h : ¬ b.Before a) :
    hebrewUntil a b .year = monthGap a b := by
  by_cases heq : a = b
  · subst heq
    simp [hebrewUntil_self, monthGap]
  · simp [hebrewUntil, hebrewDifference, heq, h]

theorem hebrewUntil_earlier {a b : HebrewMonth} (h : b.Before a) :
    hebrewUntil a b .year = (-(monthGap b a).1, -(monthGap b a).2) := by
  have hne : a ≠ b := by
    rintro rfl
    unfold HebrewMonth.Before at h
    omega
  simp [hebrewUntil, hebrewDifference, hne, h]

/-- In whole months the difference of two months with the same code is that of their indices,
and a year counts as twelve months otherwise. -/
theorem hebrewUntil_month {a b : HebrewMonth} (hne : a ≠ b) :
    hebrewUntil a b .month =
      if hebrewMonthCode a = hebrewMonthCode b then
        (0, hebrewAbsoluteMonth b - hebrewAbsoluteMonth a)
      else (0, (hebrewUntil a b .year).1 * 12 + (hebrewUntil a b .year).2) := by
  simp only [hebrewUntil, hebrewDifference, hne, if_false, Bool.false_eq_true]

theorem monthGap_cases {a b : HebrewMonth} (hb : b.Valid) :
    b.month < codePosition a b.year ∧
      monthGap a b = (b.year - a.year - 1, b.month - codePosition a b.year + 12) ∨
    codePosition a b.year ≤ b.month ∧
      monthGap a b = (b.year - a.year, b.month - codePosition a b.year) := by
  simp only [monthGap, codePosition_self hb]
  split_ifs with hborrow
  · exact .inl ⟨by omega, rfl⟩
  · exact .inr ⟨by omega, rfl⟩

/-- A month in front of another is not in a later year, and in the same year has the number its
code has there. -/
theorem monthGap_nonneg {a b : HebrewMonth} (ha : a.Valid) (hb : b.Valid) (h : ¬ b.Before a) :
    0 ≤ (monthGap a b).1 ∧ 0 ≤ (monthGap a b).2 := by
  have hpos := codePosition_bounds ha b.year
  obtain ⟨h1, hm⟩ := hb
  unfold HebrewMonth.Before at h
  rcases eq_or_ne a.year b.year with hyear | hyear
  · have hself := codePosition_self ha
    rw [hyear] at hself
    rcases monthGap_cases ⟨h1, hm⟩ (a := a) with ⟨hlt, hgap⟩ | ⟨hle, hgap⟩ <;> rw [hgap] <;>
      constructor <;> dsimp only <;> omega
  · rcases monthGap_cases ⟨h1, hm⟩ (a := a) with ⟨hlt, hgap⟩ | ⟨hle, hgap⟩ <;> rw [hgap] <;>
      constructor <;> dsimp only <;> omega

/-- The years and the months of a difference have one sign. -/
theorem hebrewUntil_one_sign {a b : HebrewMonth} (ha : a.Valid) (hb : b.Valid)
    (u : YearMonthUnit) :
    0 ≤ (hebrewUntil a b u).1 ∧ 0 ≤ (hebrewUntil a b u).2 ∨
      (hebrewUntil a b u).1 ≤ 0 ∧ (hebrewUntil a b u).2 ≤ 0 := by
  cases u with
  | year =>
    by_cases h : b.Before a
    · have hback : ¬ a.Before b := by
        unfold HebrewMonth.Before at h ⊢
        omega
      have hgap := monthGap_nonneg hb ha hback
      rw [hebrewUntil_earlier h]
      right
      dsimp only
      omega
    · rw [hebrewUntil_later h]
      exact .inl (monthGap_nonneg ha hb h)
  | month =>
    rcases eq_or_ne a b with rfl | hne
    · simp [hebrewUntil_self]
    · rw [hebrewUntil_month hne]
      split_ifs <;> dsimp only <;> omega

/-- Where `until` puts the first month is where `add` starts: the code has the number of the
month in the later year, or, where twelve months are borrowed, `year` has as many as that takes. -/
def SameNumber (a b : HebrewMonth) (year : Int) : Prop :=
  if b.month < codePosition a b.year then
    codePosition a b.year + hebrewMonthsInYear year = a.month + 12
  else codePosition a b.year = a.month

/-- The leap years among `n` years from one on. -/
def leapYears (year : Int) : Nat → Int
  | 0 => 0
  | n + 1 => leapYears year n + if hebrewIsLeap (year + n) then 1 else 0

theorem monthsPrecedingMolad_leapYears (year : Int) (n : Nat) :
    monthsPrecedingMolad (year + n) = monthsPrecedingMolad year + 12 * n + leapYears year n := by
  induction n with
  | zero => simp [leapYears]
  | succ n ih =>
    have hsucc := monthsPrecedingMolad_succ (year + n)
    have hcases := hebrewMonthsInYear_cases (year + n)
    rw [Nat.cast_succ, ← Int.add_assoc, hsucc, ih, leapYears]
    split <;> simp_all <;> omega

/-- The whole months of a difference, in which every year counts as twelve, are right: for two
months with one code, from the first year on; otherwise if the leap years in between are what the
number of the first month is ahead of the place its code has in the later year. -/
def SameCount (a b : HebrewMonth) : Prop :=
  if hebrewMonthCode a = hebrewMonthCode b then 1 ≤ a.year ∨ a = b
  else leapYears a.year (b.year - a.year).toNat = a.month - codePosition a b.year

theorem hebrewAdd_monthGap {a b : HebrewMonth} (hb : b.Valid) :
    hebrewAdd a (monthGap a b) = b ↔ SameNumber a b (b.year - 1) := by
  have hsucc := monthsPrecedingMolad_succ (b.year - 1)
  rw [show b.year - 1 + 1 = b.year by omega] at hsucc
  rw [hebrewAdd_eq_iff hb, SameNumber, HebrewMonth.count]
  rcases monthGap_cases hb (a := a) with ⟨hlt, hgap⟩ | ⟨hle, hgap⟩
  · rw [hgap, if_pos hlt]
    dsimp only
    rw [show a.year + (b.year - a.year - 1) = b.year - 1 by omega]
    omega
  · rw [hgap, if_neg (by omega)]
    dsimp only
    rw [show a.year + (b.year - a.year) = b.year by omega]
    omega

theorem hebrewAdd_neg_monthGap {a b : HebrewMonth} (ha : a.Valid) (hb : b.Valid) :
    hebrewAdd b (-(monthGap a b).1, -(monthGap a b).2) = a ↔ SameNumber a b a.year := by
  have hsucc := monthsPrecedingMolad_succ a.year
  rw [hebrewAdd_eq_iff ha, SameNumber, HebrewMonth.count]
  rcases monthGap_cases hb (a := a) with ⟨hlt, hgap⟩ | ⟨hle, hgap⟩
  · rw [hgap, if_pos hlt]
    dsimp only
    rw [show b.year + -(b.year - a.year - 1) = a.year + 1 by omega]
    omega
  · rw [hgap, if_neg (by omega)]
    dsimp only
    rw [show b.year + -(b.year - a.year) = a.year by omega]
    omega

/-- Two months with one code in different years: the indices differ by the months between them
only from the first year on. -/
theorem hebrewAbsoluteMonth_sub {a b : HebrewMonth} (h : a.year < b.year) :
    hebrewAbsoluteMonth b - hebrewAbsoluteMonth a = b.count - a.count ↔ 1 ≤ a.year := by
  have hlt := monthsPrecedingMolad_lt h
  simp only [hebrewAbsoluteMonth_eq, HebrewMonth.count]
  rcases le_or_gt 1 a.year with hyear | hyear
  · rw [max_eq_left hyear, max_eq_left (show 1 ≤ b.year by omega)]
    omega
  · have hone := monthsPrecedingMolad_lt hyear
    rw [max_eq_right (show a.year ≤ 1 by omega)]
    rcases le_or_gt 1 b.year with hyear' | hyear'
    · rw [max_eq_left hyear']
      omega
    · rw [max_eq_right (show b.year ≤ 1 by omega)]
      omega

/-- Whole months are right when they are the difference of the counts. -/
theorem hebrewAdd_month_iff {a b : HebrewMonth} (hb : b.Valid) (n : Int) :
    hebrewAdd a (0, n) = b ↔ n = b.count - a.count := by
  rw [hebrewAdd_eq_iff hb]
  simp only [HebrewMonth.count, add_zero]
  omega

theorem monthGap_months {a b : HebrewMonth} (hb : b.Valid) :
    (monthGap a b).1 * 12 + (monthGap a b).2 =
      12 * (b.year - a.year) + b.month - codePosition a b.year := by
  rcases monthGap_cases hb (a := a) with ⟨hlt, hgap⟩ | ⟨hle, hgap⟩ <;> rw [hgap] <;>
    dsimp only <;> omega

/-- Both directions are right in whole months together. -/
theorem hebrewUntil_month_iff {a b : HebrewMonth} (ha : a.Valid) (hb : b.Valid)
    (h : a.Before b) :
    (hebrewAdd a (hebrewUntil a b .month) = b ↔ SameCount a b) ∧
      (hebrewAdd b (hebrewUntil b a .month) = a ↔ SameCount a b) := by
  have hne : a ≠ b := by
    rintro rfl
    unfold HebrewMonth.Before at h
    omega
  have hback : ¬ b.Before a := by
    unfold HebrewMonth.Before at h ⊢
    omega
  rw [hebrewUntil_month hne, hebrewUntil_month hne.symm, hebrewUntil_later hback,
    hebrewUntil_earlier h, SameCount]
  by_cases hcode : hebrewMonthCode a = hebrewMonthCode b
  · have hyear : a.year < b.year := by
      have hother := mt (eq_of_hebrewMonthCode ha hb hcode) hne
      unfold HebrewMonth.Before at h
      omega
    have hsub := hebrewAbsoluteMonth_sub hyear
    rw [if_pos hcode, if_pos hcode, if_pos hcode.symm, hebrewAdd_month_iff hb,
      hebrewAdd_month_iff ha, or_iff_left hne, ← hsub]
    constructor <;> omega
  · have hmonths := monthGap_months hb (a := a)
    have hleap := monthsPrecedingMolad_leapYears a.year (b.year - a.year).toNat
    have hyears : ((b.year - a.year).toNat : Int) = b.year - a.year := by
      unfold HebrewMonth.Before at h
      omega
    rw [hyears, show a.year + (b.year - a.year) = b.year by omega] at hleap
    rw [if_neg hcode, if_neg hcode, if_neg (Ne.symm hcode), hebrewAdd_month_iff hb,
      hebrewAdd_month_iff ha, HebrewMonth.count, HebrewMonth.count]
    dsimp only
    constructor <;> omega

/-- Adding the difference of two months gives the second exactly when the two functions agree on
the place of the first. A difference has one sign always, and the index grows by one from a month
to the next except at the end of a year in front of the first. -/
theorem hebrewAdd_hebrewUntil_iff (a b : HebrewMonth) (ha : a.Valid) (hb : b.Valid) :
    (a.Before b →
      (hebrewAdd a (hebrewUntil a b .year) = b ↔ SameNumber a b (b.year - 1)) ∧
      (hebrewAdd b (hebrewUntil b a .year) = a ↔ SameNumber a b a.year) ∧
      (hebrewAdd a (hebrewUntil a b .month) = b ↔ SameCount a b) ∧
      (hebrewAdd b (hebrewUntil b a .month) = a ↔ SameCount a b)) ∧
    (∀ u, hebrewAdd a (hebrewUntil a a u) = a) ∧
    (∀ u, 0 ≤ (hebrewUntil a b u).1 ∧ 0 ≤ (hebrewUntil a b u).2 ∨
      (hebrewUntil a b u).1 ≤ 0 ∧ (hebrewUntil a b u).2 ≤ 0) ∧
    (hebrewAbsoluteMonth a.next = hebrewAbsoluteMonth a + 1 ↔
      a.month < hebrewMonthsInYear a.year ∨ 1 ≤ a.year) := by
  refine ⟨fun h => ?_, fun u => ?_, fun u => ?_, ?_⟩
  · have hback : ¬ b.Before a := by
      unfold HebrewMonth.Before at h ⊢
      omega
    rw [hebrewUntil_later hback, hebrewUntil_earlier h]
    exact ⟨hebrewAdd_monthGap hb, hebrewAdd_neg_monthGap ha hb, hebrewUntil_month_iff ha hb h⟩
  · rw [hebrewUntil_self, hebrewAdd_month_iff ha]
    omega
  · exact hebrewUntil_one_sign ha hb u
  · exact hebrewAbsoluteMonth_next ha

/-- From the second month of a leap year to the third of the next year. -/
theorem hebrewAdd_hebrewUntil_cheshvan :
    hebrewAdd ⟨5782, 2⟩ (hebrewUntil ⟨5782, 2⟩ ⟨5783, 3⟩ .year) = ⟨5783, 3⟩ := by
  have h := (hebrewAdd_hebrewUntil_iff ⟨5782, 2⟩ ⟨5783, 3⟩ (by unfold HebrewMonth.Valid; decide)
    (by unfold HebrewMonth.Valid; decide)).1 (by decide)
  exact h.1.2 (by unfold SameNumber; decide +kernel)

/-- Adar of the leap year 5782 and of the common year 5783 are one year apart, but the year
added leads to Nisan; and in front of the first year the index falls at the end of a year. -/
theorem hebrewUntil_passes_adar :
    HebrewMonth.Valid ⟨5782, 7⟩ ∧ HebrewMonth.Valid ⟨5783, 6⟩ ∧
      hebrewUntil ⟨5782, 7⟩ ⟨5783, 6⟩ .year = (1, 0) ∧
      hebrewAdd ⟨5782, 7⟩ (hebrewUntil ⟨5782, 7⟩ ⟨5783, 6⟩ .year) = ⟨5783, 7⟩ ∧
      HebrewMonth.Valid ⟨0, 13⟩ ∧ HebrewMonth.next ⟨0, 13⟩ = ⟨1, 1⟩ ∧
      hebrewAbsoluteMonth ⟨0, 13⟩ = 12 ∧ hebrewAbsoluteMonth ⟨1, 1⟩ = 0 := by
  unfold HebrewMonth.Valid
  decide +kernel

end OxideJS.Temporal
