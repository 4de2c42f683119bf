import OxideJS.Temporal.DurationText
import OxideJS.Temporal.Rounding
import OxideJS.Temporal.TimeZone
import OxideJS.Lib.Trimming

/-!
Instants as text.

An instant is written as the date and the time that it is at an offset, with
the offset behind them, or `Z`. The parser reads a date, a separator, a time
and an offset, each in the form with separators or without, and drops the
annotations in brackets after it has checked them. It returns the instant in
nanoseconds since the epoch.
-/

namespace OxideJS.Temporal

open OxideJS.Lib.FixedWidth OxideJS.Lib.Trimming

/-- A time of day, or the magnitude of an offset. -/
structure Clock where
  hour : Nat
  minute : Nat
  second : Nat
  subsecond : Nat
  deriving DecidableEq, Repr

/-! ### Writing -/

def formatIsoYear (year : Int) : List Char :=
  if 0 ≤ year ∧ year ≤ 9999 then pad 4 year.toNat
  else if 0 ≤ year then '+' :: pad 6 year.toNat
  else '-' :: pad 6 year.natAbs

def formatOffsetSecondsText (offset : Int) : List Char :=
  let sign := if offset < 0 then '-' else '+'
  let magnitude := offset.natAbs
  if magnitude % 60 ≠ 0 then
    sign :: (pad 2 (magnitude / 3600) ++ ':' :: (pad 2 (magnitude % 3600 / 60) ++
      ':' :: pad 2 (magnitude % 60)))
  else sign :: (pad 2 (magnitude / 3600) ++ ':' :: pad 2 (magnitude % 3600 / 60))

/-- The fraction of a second with so many digits, or as many as it needs. -/
def fractionText (digits : Option Nat) (subsecond : Nat) : List Char :=
  match digits with
  | some 0 => []
  | some (d + 1) => '.' :: (pad 9 subsecond).take (d + 1)
  | none => if subsecond ≠ 0 then '.' :: fractionDigits subsecond else []

def clockText (includeSeconds : Bool) (digits : Option Nat) (k : Clock) : List Char :=
  pad 2 k.hour ++ ':' :: (pad 2 k.minute ++
    if includeSeconds then ':' :: (pad 2 k.second ++ fractionText digits k.subsecond) else [])

/-- The time of a number of nanoseconds since midnight. -/
def clockOf (time : Nat) : Clock :=
  ⟨time / 3600000000000, time % 3600000000000 / 60000000000,
    time % 3600000000000 % 60000000000 / 1000000000,
    time % 3600000000000 % 60000000000 % 1000000000⟩

/-- The offset at the end of the text. -/
def offsetText : Option Int → List Char
  | some seconds => formatOffsetSecondsText seconds
  | none => ['Z']

/-- The date and the time at the offset. Months and days are positive, so nothing is lost when they
are taken for natural numbers. -/
def formatInstantIso (epoch : Int) (offset : Option Int) (includeSeconds : Bool)
    (digits : Option Nat) : List Char :=
  let wall := epoch + offset.getD 0 * 1000000000
  let date := civilFromDays (wall / dayNs)
  formatIsoYear date.year ++ '-' :: (pad 2 date.month.toNat ++ '-' :: (pad 2 date.day.toNat ++
    'T' :: (clockText includeSeconds digits (clockOf (wall % dayNs).toNat) ++ offsetText offset)))

/-! ### Annotations -/

/-- The kinds of annotations met so far. -/
structure Annotated where
  calendar : Bool
  criticalCalendar : Bool
  timeZone : Bool
  deriving DecidableEq, Repr

def isAnnotationKeyChar (c : Char) : Bool :=
  c.isLower || c.isDigit || c == '-' || c == '_'

/-- An hour, or an hour and a minute, behind a sign. -/
def isOffsetAnnotation : List Char → Bool
  | [_, a, b] => a.isDigit && b.isDigit && valueFrom 0 [a, b] ≤ 23
  | [_, a, b, colon, c, d] =>
    colon == ':' && a.isDigit && b.isDigit && c.isDigit && d.isDigit &&
      valueFrom 0 [a, b] ≤ 23 && valueFrom 0 [c, d] ≤ 59
  | _ => false

/-- What stands between the brackets. -/
def Annotated.take (seen : Annotated) (body : List Char) : Option Annotated :=
  let critical := body.head? == some '!'
  let content := if critical then body.tail else body
  if '=' ∈ content then
    let key := content.takeWhile (· != '=')
    if key = [] ∨ key.all isAnnotationKeyChar = false then none
    else if key = ['u', '-', 'c', 'a'] then
      if seen.calendar && (critical || seen.criticalCalendar) then none
      else some { seen with
        calendar := true
        criticalCalendar := seen.criticalCalendar || critical }
    else if critical then none
    else some seen
  else if seen.timeZone = true ∨ content = [] then none
  else if (content.head? = some '+' ∨ content.head? = some '-')
      ∧ isOffsetAnnotation content = false then none
  else some { seen with timeZone := true }

/-- Every turn of the loop removes a bracket, so the length is enough fuel. -/
def annotationsLoop : Nat → Annotated → List Char → Bool
  | _, _, [] => true
  | 0, _, _ :: _ => false
  | fuel + 1, seen, c :: rest =>
    let body := rest.takeWhile (· != ']')
    let next := (rest.dropWhile (· != ']')).tail
    if c ≠ '[' ∨ ']' ∉ rest ∨ body = [] ∨ (next ≠ [] ∧ next.head? ≠ some '[') then false
    else
      match seen.take body with
      | none => false
      | some seen => annotationsLoop fuel seen next

def instantStringWithoutAnnotations (input : List Char) : Option (List Char) :=
  if '[' ∈ input then
    if annotationsLoop input.length ⟨false, false, false⟩ (input.dropWhile (· != '[')) then
      some (input.takeWhile (· != '['))
    else none
  else some input

/-! ### Reading -/

/-- Four digits, or a sign and six. -/
def parseYear (cs : List Char) : Option (Int × List Char) :=
  if cs.head? = some '+' then (takeDigits 0 6 cs.tail).map fun p => ((p.1 : Int), p.2)
  else if cs.head? = some '-' then
    (takeDigits 0 6 cs.tail).bind fun p => if p.1 = 0 then none else some (-(p.1 : Int), p.2)
  else (takeDigits 0 4 cs).map fun p => ((p.1 : Int), p.2)

def parseDate (cs : List Char) : Option (IsoDate × List Char) :=
  (parseYear cs).bind fun y =>
    if y.2.head? = some '-' then
      (takeDigits 0 2 y.2.tail).bind fun m =>
        if m.2.head? = some '-' then
          (takeDigits 0 2 m.2.tail).map fun d => (⟨y.1, m.1, d.1⟩, d.2)
        else none
    else
      (takeDigits 0 2 y.2).bind fun m =>
        (takeDigits 0 2 m.2).map fun d => (⟨y.1, m.1, d.1⟩, d.2)

/-- The minutes or the seconds, behind a colon or at once, where they are allowed. -/
def nextField (colon plain : Bool) (cs : List Char) : Option (Option Nat × List Char) :=
  if colon = true ∧ cs.head? = some ':' then
    (takeDigits 0 2 cs.tail).map fun p => (some p.1, p.2)
  else if plain = true ∧ cs.head?.any Char.isDigit = true then
    (takeDigits 0 2 cs).map fun p => (some p.1, p.2)
  else some (none, cs)

/-- One to nine digits behind the point. -/
def parseFractionNs (cs : List Char) : Option (Nat × List Char) :=
  let digits := cs.takeWhile Char.isDigit
  if digits.length = 0 ∨ digits.length > 9 then none
  else some (valueFrom 0 digits * 10 ^ (9 - digits.length), cs.dropWhile Char.isDigit)

def subsecondField (hasSecond : Bool) (cs : List Char) : Option (Nat × List Char) :=
  if cs.head? = some '.' ∨ cs.head? = some ',' then
    if hasSecond then parseFractionNs cs.tail else none
  else some (0, cs)

/-- A time of day (`mixed`) takes a colon before the seconds also where the minutes have none;
an offset does not. -/
def parseClock (mixed : Bool) (cs : List Char) : Option (Clock × List Char) :=
  (takeDigits 0 2 cs).bind fun h =>
    let colon := h.2.head? == some ':'
    (nextField true true h.2).bind fun m =>
      (nextField (mixed || colon) (!colon) m.2).bind fun s =>
        (subsecondField s.1.isSome s.2).map fun f =>
          (⟨h.1, m.1.getD 0, s.1.getD 0, f.1⟩, f.2)

def Clock.nanoseconds (k : Clock) : Int :=
  (k.hour * 3600 + k.minute * 60 + k.second) * 1000000000 + k.subsecond

def parseOffset (cs : List Char) : Option (Int × List Char) :=
  if cs.head? = some 'Z' ∨ cs.head? = some 'z' then some (0, cs.tail)
  else if cs.head? = some '+' ∨ cs.head? = some '-' then
    (parseClock false cs.tail).bind fun k =>
      if k.1.hour > 23 ∨ k.1.minute > 59 ∨ k.1.second > 59 then none
      else some (if cs.head? = some '-' then -k.1.nanoseconds else k.1.nanoseconds, k.2)
  else none

/-- A leap second is the second before it. -/
def instantOf (date : IsoDate) (k : Clock) (offset : Int) : Option Int :=
  if k.hour > 23 ∨ k.minute > 59 ∨ k.second > 60 ∨ date.day = 0 then none
  else
    (daysInMonth date.year date.month).bind fun days =>
      if date.day > days then none
      else
        let epoch := daysFromCivil date * dayNs
          + Clock.nanoseconds { k with second := min k.second 59 } - offset
        if |epoch| ≤ maxInstantNs then some epoch else none

def isDateTimeSeparator (c : Char) : Bool :=
  c == 'T' || c == 't' || c == ' '

/-- The text without annotations. -/
def parseInstantText (cs : List Char) : Option Int :=
  (parseDate cs).bind fun d =>
    if d.2.head?.any isDateTimeSeparator then
      (parseClock true d.2.tail).bind fun k =>
        (parseOffset k.2).bind fun o => if o.2 = [] then instantOf d.1 k.1 o.1 else none
    else none

def parseInstantString (s : List Char) : Option Int :=
  (instantStringWithoutAnnotations (trim isWhitespace s)).bind parseInstantText

/-! ### Fields are read back -/

section Fields

/-- What follows does not go on with a time. -/
def Ends (rest : List Char) : Prop :=
  ∀ c ∈ rest.head?, c.isDigit = false ∧ c ≠ ':' ∧ c ≠ '.' ∧ c ≠ ','

theorem ends_nil : Ends [] := by
  intro c hc
  cases hc

theorem ends_cons {c : Char} (hc : c = 'Z' ∨ c = '+' ∨ c = '-') (rest : List Char) :
    Ends (c :: rest) := by
  intro d hd
  obtain rfl : c = d := by simpa using hd
  rcases hc with rfl | rfl | rfl <;> decide

theorem span_digits {ds rest : List Char} (hds : ∀ d ∈ ds, d.isDigit = true) (hrest : Ends rest) :
    (ds ++ rest).takeWhile Char.isDigit = ds ∧ (ds ++ rest).dropWhile Char.isDigit = rest := by
  cases rest with
  | nil =>
    rw [List.append_nil, List.takeWhile_eq_self_iff.2 hds, List.dropWhile_eq_nil_iff.2 hds]
    exact ⟨rfl, rfl⟩
  | cons c rest =>
    have hc := (hrest c rfl).1
    exact ⟨takeWhile_digits hds hc rest, dropWhile_digits hds hc rest⟩

theorem valueFrom_lt_pow {ds : List Char} (hds : ∀ d ∈ ds, d.isDigit = true) :
    valueFrom 0 ds < 10 ^ ds.length := by
  induction ds with
  | nil => exact Nat.one_pos
  | cons d ds ih =>
    have hd : digitOf d ≤ 9 := by
      obtain ⟨n, hlow, hhigh, rfl⟩ := isDigit_cases (hds d List.mem_cons_self)
      unfold digitOf
      interval_cases n <;> decide
    have hlt := ih fun e he => hds e (List.mem_cons_of_mem d he)
    rw [valueFrom, valueFrom_eq, List.length_cons, Nat.pow_succ, Nat.zero_mul, Nat.zero_add]
    nlinarith

/-- The digits of a fraction of a second, and its nanoseconds. -/
structure IsFraction (ds : List Char) (ns : Nat) : Prop where
  digits : ∀ d ∈ ds, d.isDigit = true
  ne_nil : ds ≠ []
  length_le : ds.length ≤ 9
  value : valueFrom 0 ds * 10 ^ (9 - ds.length) = ns

theorem IsFraction.parse {ds rest : List Char} {ns : Nat} (h : IsFraction ds ns)
    (hrest : Ends rest) : parseFractionNs (ds ++ rest) = some (ns, rest) := by
  obtain ⟨htake, hdrop⟩ := span_digits h.digits hrest
  have hpos := List.length_pos_iff.2 h.ne_nil
  have hle := h.length_le
  rw [parseFractionNs, htake, hdrop, if_neg (by omega), h.value]

theorem isFraction_fractionDigits {ns : Nat} (hpos : ns ≠ 0) (hlt : ns < 10 ^ 9) :
    IsFraction (fractionDigits ns) ns := by
  obtain ⟨k, hlen, hne, hvalue, hdigits⟩ := fractionDigits_spec hpos hlt
  refine ⟨hdigits, hne, by omega, ?_⟩
  rwa [show 9 - (fractionDigits ns).length = k by omega]

/-- The first digits are enough when the others are zeros. -/
theorem isFraction_take {ns d : Nat} (hlt : ns < 10 ^ 9) (hd : d + 1 ≤ 9)
    (hdvd : 10 ^ (9 - (d + 1)) ∣ ns) : IsFraction ((pad 9 ns).take (d + 1)) ns := by
  have hlen : (pad 9 ns).length = 9 := length_pad (by decide) hlt
  have htake : ((pad 9 ns).take (d + 1)).length = d + 1 := by
    rw [List.length_take, hlen, Nat.min_eq_left hd]
  have hdrop : ((pad 9 ns).drop (d + 1)).length = 9 - (d + 1) := by
    rw [List.length_drop, hlen]
  have hsplit := valueFrom_pad 9 ns
  rw [← List.take_append_drop (d + 1) (pad 9 ns), valueFrom_append, valueFrom_eq, hdrop] at hsplit
  have hdigits : ∀ c ∈ (pad 9 ns).drop (d + 1), c.isDigit = true :=
    fun c hc => isDigit_of_mem_pad (List.mem_of_mem_drop hc)
  have hlow := valueFrom_lt_pow hdigits
  rw [hdrop] at hlow
  have hzero : valueFrom 0 ((pad 9 ns).drop (d + 1)) = 0 := by
    refine Nat.eq_zero_of_dvd_of_lt ?_ hlow
    rw [← hsplit] at hdvd
    exact (Nat.dvd_add_right (Nat.dvd_mul_left _ _)).1 hdvd
  refine ⟨fun c hc => isDigit_of_mem_pad (List.mem_of_mem_take hc), ?_, by omega, ?_⟩
  · exact List.ne_nil_of_length_pos (by omega)
  · rw [htake]
    omega

theorem subsecondField_ends {rest : List Char} (hrest : Ends rest) (hasSecond : Bool) :
    subsecondField hasSecond rest = some (0, rest) := by
  rw [subsecondField, if_neg]
  rintro (h | h)
  · exact (hrest _ h).2.2.1 rfl
  · exact (hrest _ h).2.2.2 rfl

/-- A text written with so many digits says all of the fraction. -/
def FractionFits (digits : Option Nat) (ns : Nat) : Prop :=
  ∀ d ∈ digits, d ≤ 9 ∧ 10 ^ (9 - d) ∣ ns

theorem subsecondField_fractionText {digits : Option Nat} {ns : Nat} (hlt : ns < 10 ^ 9)
    (hfits : FractionFits digits ns) {rest : List Char} (hrest : Ends rest) :
    subsecondField true (fractionText digits ns ++ rest) = some (ns, rest) := by
  have hnone : ns = 0 → subsecondField true rest = some (ns, rest) := by
    rintro rfl
    exact subsecondField_ends hrest true
  have hsome : ∀ {ds : List Char}, IsFraction ds ns →
      subsecondField true ('.' :: ds ++ rest) = some (ns, rest) := fun h => h.parse hrest
  cases digits with
  | none =>
    rw [fractionText]
    by_cases hzero : ns = 0
    · rw [if_neg (by simpa using hzero)]
      exact hnone hzero
    · rw [if_pos hzero]
      exact hsome (isFraction_fractionDigits hzero hlt)
  | some d =>
    obtain ⟨hd, hdvd⟩ := hfits d rfl
    cases d with
    | zero => exact hnone (Nat.eq_zero_of_dvd_of_lt hdvd hlt)
    | succ d => exact hsome (isFraction_take hlt hd hdvd)

/-- The fields of a time of day. -/
structure Clock.Valid (k : Clock) : Prop where
  hour : k.hour < 24
  minute : k.minute < 60
  second : k.second < 60
  subsecond : k.subsecond < 10 ^ 9

/-- The text of a time says all of it. -/
def ClockFits (includeSeconds : Bool) (digits : Option Nat) (k : Clock) : Prop :=
  if includeSeconds then FractionFits digits k.subsecond else k.second = 0 ∧ k.subsecond = 0

theorem nextField_colon {n : Nat} (hn : n < 60) (plain : Bool) (rest : List Char) :
    nextField true plain (':' :: (pad 2 n ++ rest)) = some (some n, rest) := by
  rw [nextField, if_pos ⟨rfl, rfl⟩, List.tail_cons, takeDigits_pad (by decide) (by omega)]
  rfl

theorem nextField_ends {rest : List Char} (hrest : Ends rest) (colon plain : Bool) :
    nextField colon plain rest = some (none, rest) := by
  have hdigit : rest.head?.any Char.isDigit = false := by
    cases rest with
    | nil => rfl
    | cons c rest => exact (hrest c rfl).1
  have hcolon : rest.head? ≠ some ':' := fun h => (hrest _ h).2.1 rfl
  rw [nextField, if_neg fun h => hcolon h.2, if_neg (by simp [hdigit])]

theorem parseClock_clockText {includeSeconds : Bool} {digits : Option Nat} {k : Clock}
    (hk : k.Valid) (hfits : ClockFits includeSeconds digits k) (mixed : Bool) {rest : List Char}
    (hrest : Ends rest) :
    parseClock mixed (clockText includeSeconds digits k ++ rest) = some (k, rest) := by
  obtain ⟨hour, minute, second, subsecond⟩ := k
  have hhour : hour < 10 ^ 2 := Nat.lt_trans hk.hour (by decide)
  cases includeSeconds with
  | true =>
    have hread := subsecondField_fractionText hk.subsecond hfits hrest
    simp only [clockText, if_true, List.append_assoc, List.cons_append, parseClock,
      takeDigits_pad (by decide : 0 < 2) hhour, Option.bind_some, nextField_colon hk.minute,
      List.head?_cons, beq_self_eq_true, Bool.or_true, nextField_colon hk.second,
      Option.isSome_some, hread, Option.map_some, Option.getD_some]
  | false =>
    obtain ⟨rfl, rfl⟩ : second = 0 ∧ subsecond = 0 := hfits
    have hread := subsecondField_ends hrest false
    simp only [clockText, Bool.false_eq_true, if_false, List.append_assoc, List.cons_append,
      List.nil_append, parseClock, takeDigits_pad (by decide : 0 < 2) hhour, Option.bind_some,
      nextField_colon hk.minute, nextField_ends hrest, Option.isSome_none, hread, Option.map_some,
      Option.getD_some, Option.getD_none]

theorem head_pad (w n : Nat) (rest : List Char) :
    ∃ c ∈ (pad w n ++ rest).head?, c.isDigit = true := by
  cases hpad : pad w n with
  | nil => exact absurd hpad (pad_ne_nil w n)
  | cons c cs => exact ⟨c, rfl, isDigit_of_mem_pad (hpad ▸ List.mem_cons_self)⟩

theorem head_pad_ne {c : Char} (hc : c.isDigit = false) (w n : Nat) (rest : List Char) :
    (pad w n ++ rest).head? ≠ some c := by
  obtain ⟨d, hd, hdigit⟩ := head_pad w n rest
  rw [Option.mem_def.1 hd]
  rintro ⟨⟩
  exact absurd hdigit (by simp [hc])

theorem parseYear_formatIsoYear {year : Int} (h : |year| < 1000000) (rest : List Char) :
    parseYear (formatIsoYear year ++ rest) = some (year, rest) := by
  rw [Int.abs_eq_natAbs] at h
  rw [formatIsoYear]
  split_ifs with hfour hpos
  · have hlt : year.toNat < 10 ^ 4 := by omega
    have hplus := head_pad_ne (c := '+') rfl 4 year.toNat rest
    have hminus := head_pad_ne (c := '-') rfl 4 year.toNat rest
    rw [parseYear, if_neg hplus, if_neg hminus, takeDigits_pad (by decide) hlt, Option.map_some,
      Int.toNat_of_nonneg hfour.1]
  · have hlt : year.toNat < 10 ^ 6 := by omega
    rw [List.cons_append, parseYear, List.head?_cons, if_pos rfl, List.tail_cons,
      takeDigits_pad (by decide) hlt, Option.map_some, Int.toNat_of_nonneg hpos]
  · have hlt : year.natAbs < 10 ^ 6 := by omega
    have hread := takeDigits_pad (by decide) hlt rest
    have hzero : year.natAbs ≠ 0 := by omega
    have hvalue : -(year.natAbs : Int) = year := by omega
    rw [List.cons_append, parseYear, if_neg (by simp), List.head?_cons, if_pos rfl, List.tail_cons,
      hread, Option.bind_some, if_neg hzero, hvalue]

/-- A date that exists and whose year has at most six digits. -/
theorem parseDate_text {d : IsoDate} (hd : d.Valid) (hyear : |d.year| < 1000000)
    (rest : List Char) :
    parseDate (formatIsoYear d.year ++ '-' :: (pad 2 d.month.toNat ++
      '-' :: (pad 2 d.day.toNat ++ rest))) = some (d, rest) := by
  obtain ⟨hday, n, hn, hle⟩ := hd
  have hmonth := month_of_daysInMonth hn
  have hm : d.month.toNat < 10 ^ 2 := by omega
  have hd : d.day.toNat < 10 ^ 2 := by omega
  simp only [parseDate, parseYear_formatIsoYear hyear, Option.bind_some, List.head?_cons, if_true,
    List.tail_cons, takeDigits_pad (by decide : 0 < 2) hm, takeDigits_pad (by decide : 0 < 2) hd,
    Option.map_some, Int.toNat_of_nonneg (by omega : 0 ≤ d.month),
    Int.toNat_of_nonneg (by omega : 0 ≤ d.day)]

/-- The magnitude of an offset as a time. -/
def offsetClock (magnitude : Nat) : Clock :=
  ⟨magnitude / 3600, magnitude % 3600 / 60, magnitude % 60, 0⟩

theorem formatOffsetSecondsText_eq (offset : Int) :
    formatOffsetSecondsText offset = (if offset < 0 then '-' else '+') ::
      clockText (decide (offset.natAbs % 60 ≠ 0)) none (offsetClock offset.natAbs) := by
  rw [formatOffsetSecondsText]
  by_cases h : offset.natAbs % 60 = 0 <;> simp [clockText, offsetClock, fractionText, h]

theorem parseOffset_formatOffsetSecondsText {offset : Int} (h : |offset| < 86400) :
    parseOffset (formatOffsetSecondsText offset) = some (offset * 1000000000, []) := by
  rw [Int.abs_eq_natAbs] at h
  have hvalid : (offsetClock offset.natAbs).Valid :=
    ⟨by simp only [offsetClock]; omega, by simp only [offsetClock]; omega,
      by simp only [offsetClock]; omega, by simp [offsetClock]⟩
  have hfits : ClockFits (decide (offset.natAbs % 60 ≠ 0)) none (offsetClock offset.natAbs) := by
    by_cases hzero : offset.natAbs % 60 = 0
    · simp [ClockFits, offsetClock, hzero]
    · simp [ClockFits, FractionFits, hzero]
  have hread := parseClock_clockText hvalid hfits false ends_nil
  rw [List.append_nil] at hread
  have hin : ¬((offsetClock offset.natAbs).hour > 23 ∨ (offsetClock offset.natAbs).minute > 59
      ∨ (offsetClock offset.natAbs).second > 59) := by
    have := hvalid.hour
    have := hvalid.minute
    have := hvalid.second
    omega
  have hns : (offsetClock offset.natAbs).nanoseconds = offset.natAbs * 1000000000 := by
    simp only [Clock.nanoseconds, offsetClock]
    omega
  rw [formatOffsetSecondsText_eq]
  by_cases hneg : offset < 0
  · have hvalue : -(offset.natAbs * 1000000000 : Int) = offset * 1000000000 := by omega
    rw [if_pos hneg, parseOffset, if_neg (by simp), if_pos (by simp), List.tail_cons, hread,
      Option.bind_some, if_neg hin, List.head?_cons, if_pos rfl, hns, hvalue]
  · have hvalue : (offset.natAbs * 1000000000 : Int) = offset * 1000000000 := by omega
    rw [if_neg hneg, parseOffset, if_neg (by simp), if_pos (by simp), List.tail_cons, hread,
      Option.bind_some, if_neg hin, List.head?_cons, if_neg (by simp), hns, hvalue]

end Fields

/-! ### The text holds nothing else -/

section Characters

/-- The characters of an instant's text. -/
def isInstantChar (c : Char) : Bool :=
  c.isDigit || ['-', '+', ':', '.', 'T', 'Z'].contains c

theorem isInstantChar_spec {c : Char} (h : isInstantChar c = true) :
    isWhitespace c = false ∧ c ≠ '[' := by
  rw [isInstantChar, Bool.or_eq_true] at h
  rcases h with h | h
  · obtain ⟨n, hlow, hhigh, rfl⟩ := isDigit_cases h
    interval_cases n <;> decide
  · simp only [List.contains_iff_mem, List.mem_cons, List.not_mem_nil, or_false] at h
    rcases h with rfl | rfl | rfl | rfl | rfl | rfl <;> decide

theorem all_pad (w n : Nat) : (pad w n).all isInstantChar = true := by
  rw [List.all_eq_true]
  intro c hc
  rw [isInstantChar, isDigit_of_mem_pad hc, Bool.true_or]

theorem all_clockText (includeSeconds : Bool) (digits : Option Nat) (k : Clock) :
    (clockText includeSeconds digits k).all isInstantChar = true := by
  have hfraction : (fractionText digits k.subsecond).all isInstantChar = true := by
    have hpad := List.all_eq_true.1 (all_pad 9 k.subsecond)
    rw [List.all_eq_true]
    intro c hc
    rcases digits with - | - | d
    · rw [fractionText] at hc
      split_ifs at hc
      · rcases List.mem_cons.1 hc with rfl | hc
        · rfl
        · refine hpad c (List.mem_reverse.1 ?_)
          exact (List.dropWhile_sublist _).subset (List.mem_reverse.1 hc)
      · cases hc
    · cases hc
    · rcases List.mem_cons.1 hc with rfl | hc
      · rfl
      · exact hpad c (List.mem_of_mem_take hc)
  have hcolon : isInstantChar ':' = true := rfl
  rw [clockText]
  cases includeSeconds <;> simp [List.all_append, all_pad, hfraction, hcolon]

theorem all_formatInstantIso (epoch : Int) (offset : Option Int) (includeSeconds : Bool)
    (digits : Option Nat) :
    (formatInstantIso epoch offset includeSeconds digits).all isInstantChar = true := by
  have hsigns : isInstantChar '-' = true ∧ isInstantChar '+' = true ∧ isInstantChar 'T' = true
      ∧ isInstantChar 'Z' = true := ⟨rfl, rfl, rfl, rfl⟩
  have hyear : ∀ year, (formatIsoYear year).all isInstantChar = true := by
    intro year
    rw [formatIsoYear]
    split_ifs <;> simp [all_pad, hsigns]
  have hoffset : ∀ seconds, (formatOffsetSecondsText seconds).all isInstantChar = true := by
    intro seconds
    rw [formatOffsetSecondsText_eq]
    split_ifs <;> simp only [List.all_cons, all_clockText, hsigns, Bool.and_self]
  cases offset <;>
    simp [formatInstantIso, offsetText, List.all_append, all_pad, all_clockText, hyear, hoffset,
      hsigns]

/-- Nothing is trimmed, and there are no annotations. -/
theorem parseInstantString_eq {text : List Char} (h : text.all isInstantChar = true) :
    parseInstantString text = parseInstantText text := by
  have hspec := fun c hc => isInstantChar_spec (List.all_eq_true.1 h c hc)
  have htrim : trim isWhitespace text = text := trim_of_forall_not fun c hc => (hspec c hc).1
  have hopen : '[' ∉ text := fun hc => (hspec _ hc).2 rfl
  rw [parseInstantString, htrim, instantStringWithoutAnnotations, if_neg hopen, Option.bind_some]

end Characters

/-! ### Instants are read back -/

section RoundTrip

theorem clockOf_spec {time : Nat} (h : time < 86400000000000) :
    (clockOf time).Valid ∧ (clockOf time).nanoseconds = time := by
  refine ⟨⟨?_, ?_, ?_, ?_⟩, ?_⟩ <;> simp only [clockOf, Clock.nanoseconds] <;> omega

theorem abs_year_civilFromDays {days : Int} (hlow : -100000001 ≤ days) (hhigh : days ≤ 100000001) :
    |(civilFromDays days).year| < 1000000 := by
  rw [abs_lt]
  simp only [civilFromDays]
  constructor <;> split_ifs <;> omega

/-- The nanoseconds that the text of an instant tells apart. -/
def precision (includeSeconds : Bool) (digits : Option Nat) : Int :=
  if includeSeconds then 10 ^ (9 - digits.getD 9) else 60000000000

theorem clockFits_clockOf {includeSeconds : Bool} {digits : Option Nat}
    (hdigits : ∀ d ∈ digits, d ≤ 9) {wall : Int} (h : precision includeSeconds digits ∣ wall) :
    ClockFits includeSeconds digits (clockOf (wall % dayNs).toNat) := by
  have hcast : (((wall % dayNs).toNat : Nat) : Int) = wall % dayNs :=
    Int.toNat_of_nonneg (Int.emod_nonneg _ (by decide))
  obtain ⟨time, htime⟩ : ∃ time, time = (wall % dayNs).toNat := ⟨_, rfl⟩
  rw [← htime] at hcast ⊢
  rw [dayNs] at hcast
  cases includeSeconds with
  | false =>
    have hminute : (60000000000 : Int) ∣ wall := h
    simp only [ClockFits, Bool.false_eq_true, if_false, clockOf]
    omega
  | true =>
    intro d hd
    obtain rfl : digits = some d := hd
    have hle := hdigits d rfl
    refine ⟨hle, ?_⟩
    -- the fraction is the rest of the wall time within its second
    have hsecond : (((clockOf time).subsecond : Nat) : Int) = wall % 1000000000 := by
      simp only [clockOf]
      omega
    have hunit : (10 : Int) ^ (9 - d) ∣ 1000000000 := pow_dvd_pow 10 (Nat.sub_le 9 d)
    have hwall : (10 : Int) ^ (9 - d) ∣ wall := h
    have hdvd : (10 : Int) ^ (9 - d) ∣ wall % 1000000000 := by
      rw [Int.emod_def]
      exact dvd_sub hwall (hunit.mul_right _)
    rw [← hsecond] at hdvd
    exact_mod_cast hdvd

theorem offsetText_spec {offset : Option Int} (h : ∀ s ∈ offset, |s| < 86400) :
    Ends (offsetText offset)
      ∧ parseOffset (offsetText offset) = some (offset.getD 0 * 1000000000, []) := by
  cases offset with
  | none => exact ⟨ends_cons (Or.inl rfl) [], rfl⟩
  | some seconds =>
    refine ⟨?_, parseOffset_formatOffsetSecondsText (h seconds rfl)⟩
    rw [offsetText, formatOffsetSecondsText_eq]
    refine ends_cons (Or.inr ?_) _
    split_ifs
    · exact Or.inr rfl
    · exact Or.inl rfl

theorem instantOf_eq {date : IsoDate} (hdate : date.Valid) {k : Clock} (hk : k.Valid) {offset : Int}
    (hrange : |daysFromCivil date * dayNs + k.nanoseconds - offset| ≤ maxInstantNs) :
    instantOf date k offset = some (daysFromCivil date * dayNs + k.nanoseconds - offset) := by
  obtain ⟨hday, n, hn, hle⟩ := hdate
  have hfields : ¬(k.hour > 23 ∨ k.minute > 59 ∨ k.second > 60 ∨ date.day = 0) := by
    have := hk.hour
    have := hk.minute
    have := hk.second
    omega
  have hsecond : min k.second 59 = k.second := Nat.min_eq_left (Nat.le_of_lt_succ hk.second)
  rw [instantOf, if_neg hfields, hn, Option.bind_some, if_neg (by omega), hsecond, if_pos hrange]

/-- Whatever the precision, nothing is lost that the text can say. -/
theorem parseInstantText_formatInstantIso {epoch : Int} (hepoch : |epoch| ≤ maxInstantNs)
    {offset : Option Int} (hoffset : ∀ s ∈ offset, |s| < 86400) {includeSeconds : Bool}
    {digits : Option Nat} (hdigits : ∀ d ∈ digits, d ≤ 9)
    (hprecision : precision includeSeconds digits ∣ epoch + offset.getD 0 * 1000000000) :
    parseInstantText (formatInstantIso epoch offset includeSeconds digits) = some epoch := by
  have hshort : |offset.getD 0| < 86400 := by
    cases offset with
    | none => decide
    | some s => exact hoffset s rfl
  obtain ⟨wall, hwall⟩ : ∃ wall, wall = epoch + offset.getD 0 * 1000000000 := ⟨_, rfl⟩
  have hfits := clockFits_clockOf hdigits (hwall ▸ hprecision)
  have hrange := abs_le.1 hepoch
  have hseconds := abs_lt.1 hshort
  rw [maxInstantNs] at hrange
  have hdays : -100000001 ≤ wall / dayNs ∧ wall / dayNs ≤ 100000001 := by
    rw [dayNs]
    omega
  have hmod : (wall % dayNs).toNat < 86400000000000 := by
    rw [dayNs]
    omega
  obtain ⟨hclock, hns⟩ := clockOf_spec hmod
  obtain ⟨hdate, hnumber⟩ := civilFromDays_spec (wall / dayNs)
  obtain ⟨hends, hread⟩ := offsetText_spec hoffset
  have hyear := abs_year_civilFromDays hdays.1 hdays.2
  have hepoch' : daysFromCivil (civilFromDays (wall / dayNs)) * dayNs
      + (clockOf (wall % dayNs).toNat).nanoseconds - offset.getD 0 * 1000000000 = epoch := by
    rw [hnumber, hns, dayNs]
    omega
  have htext : formatInstantIso epoch offset includeSeconds digits
      = formatIsoYear (civilFromDays (wall / dayNs)).year ++
        '-' :: (pad 2 (civilFromDays (wall / dayNs)).month.toNat ++
          '-' :: (pad 2 (civilFromDays (wall / dayNs)).day.toNat ++
            'T' :: (clockText includeSeconds digits (clockOf (wall % dayNs).toNat) ++
              offsetText offset))) := by
    rw [hwall]
    rfl
  have hinstant := instantOf_eq hdate hclock (hepoch'.symm ▸ hepoch)
  rw [hepoch'] at hinstant
  rw [htext, parseInstantText, parseDate_text hdate hyear, Option.bind_some, List.head?_cons,
    if_pos (by decide), List.tail_cons, parseClock_clockText hclock hfits true hends,
    Option.bind_some, hread, Option.bind_some, if_pos rfl, hinstant]

/-- The text of an instant is read as the instant, at every offset and with every precision that
the instant has. -/
theorem parseInstantString_formatInstantIso (epoch : Int) (hepoch : |epoch| ≤ maxInstantNs)
    (offset : Option Int) (hoffset : ∀ s ∈ offset, |s| < 86400) :
    parseInstantString (formatInstantIso epoch offset true none) = some epoch
      ∧ ∀ includeSeconds digits, (∀ d ∈ digits, d ≤ 9) →
        precision includeSeconds digits ∣ epoch + offset.getD 0 * 1000000000 →
        parseInstantString (formatInstantIso epoch offset includeSeconds digits) = some epoch := by
  have hread : ∀ includeSeconds digits, (∀ d ∈ digits, d ≤ 9) →
      precision includeSeconds digits ∣ epoch + offset.getD 0 * 1000000000 →
      parseInstantString (formatInstantIso epoch offset includeSeconds digits) = some epoch := by
    intro includeSeconds digits hdigits hprecision
    rw [parseInstantString_eq (all_formatInstantIso epoch offset includeSeconds digits)]
    exact parseInstantText_formatInstantIso hepoch hoffset hdigits hprecision
  refine ⟨hread true none (fun d hd => ?_) ?_, hread⟩
  · cases hd
  · exact one_dvd _

/-- The first nanosecond before the epoch, at an offset with seconds. -/
theorem parseInstantString_formatInstantIso_negative :
    parseInstantString (formatInstantIso (-1) (some (-3661)) true none) = some (-1) := by
  have hoffset : ∀ s ∈ some (-3661 : Int), |s| < 86400 := by
    rintro s ⟨⟩
    decide
  exact (parseInstantString_formatInstantIso (-1) (by decide) (some (-3661)) hoffset).1

end RoundTrip

end OxideJS.Temporal
