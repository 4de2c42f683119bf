import OxideJS.Date.Iso
import OxideJS.Lib.Trimming

/-!
Dates as `toString` writes them, and their parser.

The text has the local date and time and behind it the offset, its hours and
minutes with two digits each. The parser reads the offset as one decimal
number of minutes, and the components it is subtracted from are off by the
offset in the other direction.
-/

namespace OxideJS.Date

open Lib.FixedWidth Lib.Trimming

/-! ### Writing -/

def weekdayNames : List (List Char) :=
  ["Sun".toList, "Mon".toList, "Tue".toList, "Wed".toList, "Thu".toList, "Fri".toList,
    "Sat".toList]

def monthNames : List (List Char) :=
  ["Jan".toList, "Feb".toList, "Mar".toList, "Apr".toList, "May".toList, "Jun".toList,
    "Jul".toList, "Aug".toList, "Sep".toList, "Oct".toList, "Nov".toList, "Dec".toList]

def formatYear4 (y : Int) : List Char :=
  if y < 0 then '-' :: padInt 4 (-y) else padInt 4 y

def formatTzMs (offsetMs : Int) : List Char :=
  let min := offsetMs.tdiv 60000
  let sign := if min < 0 then '-' else '+'
  let min : Int := min.natAbs
  "GMT".toList ++ sign :: (padInt 2 (min / 60) ++ padInt 2 (min % 60))

def formatTime (p : LocalParts) : List Char :=
  padInt 2 p.hour ++ ':' :: (padInt 2 p.minute ++ ':' :: padInt 2 p.second)

/-- The day of the week is that of the time value and the offset. -/
def formatLocalDateString (zone : LocalZone) (t : Option Int) : List Char :=
  match t.bind fun ms => (localComponents zone ms).map fun p => (ms, p) with
  | none => "Invalid Date".toList
  | some (ms, p) =>
    let naive := ms + p.offsetMs
    let days := naive / msPerDay
    let wd := (days + 4) % 7
    weekdayNames.getD wd.toNat [] ++ ' ' :: (monthNames.getD p.month0.toNat [] ++ ' ' ::
      (padInt 2 p.day ++ ' ' :: (formatYear4 p.year ++ ' ' :: (formatTime p ++ ' ' ::
        formatTzMs p.offsetMs))))

/-! ### Reading -/

def splitWhitespace (s : List Char) : List (List Char) :=
  (s.splitOnP isWhitespace).filter fun token => token ≠ []

/-- Digits whose value has to stay below `2 ^ 63`. -/
def checkedValue (v : Nat) : List Char → Option Nat
  | [] => some v
  | c :: cs => if v * 10 + digitOf c < 2 ^ 63 then checkedValue (v * 10 + digitOf c) cs else none

def parseSignedYear (s : List Char) : Option Int :=
  let neg := s.head? = some '-'
  let rest := if neg then s.tail else s
  if rest = [] ∨ ¬rest.all Char.isDigit then none
  else (checkedValue 0 rest).map fun (y : Nat) => if neg then -(y : Int) else (y : Int)

def parseHms (s : List Char) : Option (Int × Int × Int) :=
  match s.splitOnP (· == ':') with
  | [h, mi, sec] => do
    let (h, _) ← digits 2 h
    let (mi, _) ← digits 2 mi
    let (sec, _) ← digits 2 sec
    some (h, mi, sec)
  | _ => none

/-- The value of an `i64` computation that wraps around. -/
def asI64 (n : Int) : Int := n.bmod (2 ^ 64)

/-- The digits behind the sign are one number of minutes. -/
def parseOffset (off : List Char) : Option Int :=
  if off = "GMT".toList then some 0
  else
    match off with
    | 'G' :: 'M' :: 'T' :: sign :: rest =>
      if rest.all Char.isDigit then
        some (asI64 ((if sign = '-' then -1 else 1) * (valueFrom 0 rest : Int)))
      else none
    | _ => none

/-- The tokens of `toString`, or of `toUTCString`, where the day of the week ends in a comma. -/
def parseEngineDateString (s : List Char) : Option (Option Int) :=
  match splitWhitespace s with
  | [t0, t1, t2, t3, t4, t5] => do
    let (dayS, monS, offS) :=
      if t0.getLast? = some ',' then (t1, t2, "GMT".toList) else (t2, t1, t5)
    let m ← monthNames.findIdx? (· == monS)
    let (d, _) ← digits 2 dayS
    let y ← parseSignedYear t3
    if ¬(-275760 ≤ y ∧ y ≤ 275760) then none
    else
      let (h, mi, sec) ← parseHms t4
      let offsetMin ← parseOffset offS
      some (timeClip (asI64 (civilDayCount y ((m : Int) + 1) d * msPerDay + h * 3600000 +
        mi * 60000 + sec * 1000 - offsetMin * 60000)))
  | _ => none

/-- The two parsers of the date library. One of them takes a day of the week only with a comma
behind it. -/
structure ChronoParsers where
  rfc2822 : List Char → Option Int
  slashDate : List Char → Option Int
  rfc2822_weekday : ∀ w ∈ weekdayNames, ∀ c rest, c ≠ ',' → rfc2822 (w ++ c :: rest) = none

/-- One parser after the other. -/
def parseDateString (zone : LocalZone) (chrono : ChronoParsers) (s : List Char) : Option Int :=
  match parseIsoStrict zone s with
  | some ts => ts
  | none =>
    match chrono.rfc2822 s with
    | some ts => some ts
    | none =>
      match parseEngineDateString s with
      | some ts => ts
      | none => chrono.slashDate s

/-! ### The parts of a text -/

theorem asI64_eq {n : Int} (hlo : -2 ^ 63 ≤ n) (hhi : n < 2 ^ 63) : asI64 n = n :=
  Int.bmod_eq_of_le (by omega) (by omega)

/-- No blank is in the text of a number. -/
theorem isWhitespace_digit {c : Char} (h : c.isDigit = true) : isWhitespace c = false := by
  simp only [Char.isDigit, Bool.and_eq_true, decide_eq_true_eq] at h
  have hlow : 48 ≤ c.toNat := h.1
  have hhigh : c.toNat ≤ 57 := h.2
  simp only [isWhitespace, Bool.or_eq_false_iff, Bool.and_eq_false_iff, beq_eq_false_iff_ne,
    decide_eq_false_iff_not]
  omega

theorem isDigit_of_mem_padInt {w : Nat} {n : Int} (h0 : 0 ≤ n) {c : Char} (h : c ∈ padInt w n) :
    c.isDigit = true := by
  rw [padInt, if_neg (by omega)] at h
  exact isDigit_of_mem_pad h

theorem checkedValue_eq {v : Nat} {cs : List Char} (h : valueFrom v cs < 2 ^ 63) :
    checkedValue v cs = some (valueFrom v cs) := by
  induction cs generalizing v with
  | nil => rfl
  | cons c cs ih =>
    have hle := le_valueFrom (v * 10 + digitOf c) cs
    rw [valueFrom] at h ⊢
    rw [checkedValue, if_pos (by omega), ih h]

theorem parseSignedYear_formatYear4 {y : Int} (hlow : -275760 ≤ y) (hhigh : y ≤ 275760) :
    parseSignedYear (formatYear4 y) = some y := by
  have hread (n : Int) (h0 : 0 ≤ n) (hn : n ≤ 275760) :
      padInt 4 n ≠ [] ∧ (padInt 4 n).all Char.isDigit = true ∧
        checkedValue 0 (padInt 4 n) = some n.toNat := by
    rw [padInt, if_neg (by omega)]
    refine ⟨pad_ne_nil _ _, List.all_eq_true.2 fun c hc => isDigit_of_mem_pad hc, ?_⟩
    rw [checkedValue_eq (by rw [valueFrom_pad]; omega), valueFrom_pad]
  unfold formatYear4
  split_ifs with hneg
  · obtain ⟨hne, hdigits, hvalue⟩ := hread (-y) (by omega) (by omega)
    have hok : ¬(padInt 4 (-y) = [] ∨ ¬(padInt 4 (-y)).all Char.isDigit = true) := by
      simp only [hne, hdigits, not_true, or_self, not_false_eq_true]
    simp only [parseSignedYear, List.head?_cons, if_true, List.tail_cons, if_neg hok, hvalue,
      Option.map_some, Option.some.injEq]
    omega
  · obtain ⟨hne, hdigits, hvalue⟩ := hread y (by omega) hhigh
    have hhead : ¬((padInt 4 y).head? = some '-') := by
      intro hhead
      have hmem := List.mem_of_head? hhead
      exact absurd (isDigit_of_mem_padInt (by omega) hmem) (by decide)
    have hok : ¬(padInt 4 y = [] ∨ ¬(padInt 4 y).all Char.isDigit = true) := by
      simp only [hne, hdigits, not_true, or_self, not_false_eq_true]
    simp only [parseSignedYear, hhead, if_false, if_neg hok, hvalue, Option.map_some,
      Option.some.injEq]
    omega

theorem parseHms_formatTime {p : LocalParts} (hhour : 0 ≤ p.hour ∧ p.hour < 24)
    (hminute : 0 ≤ p.minute ∧ p.minute < 60) (hsecond : 0 ≤ p.second ∧ p.second < 60) :
    parseHms (formatTime p) = some (p.hour, p.minute, p.second) := by
  have hcolon (n : Int) (h0 : 0 ≤ n) : ∀ c ∈ padInt 2 n, (c == ':') = false := by
    intro c hc
    have hdigit := isDigit_of_mem_padInt h0 hc
    rw [beq_eq_false_iff_ne]
    rintro rfl
    exact absurd hdigit (by decide)
  have hread (n : Int) (h0 : 0 ≤ n) (hn : n < 60) : digits 2 (padInt 2 n) = some (n, []) := by
    have := digits_padInt (k := 2) (by decide) h0 (by omega) []
    rwa [List.append_nil] at this
  rw [formatTime, parseHms,
    List.splitOnP_append_cons_of_forall_mem (hcolon _ hhour.1) ':' rfl,
    List.splitOnP_append_cons_of_forall_mem (hcolon _ hminute.1) ':' rfl,
    List.splitOnP_eq_singleton (hcolon _ hsecond.1)]
  simp only [hread p.hour hhour.1 (by omega), hread p.minute hminute.1 (by omega),
    hread p.second hsecond.1 (by omega), Option.bind_eq_bind, Option.bind_some]

/-- The number of minutes the parser makes of an offset. -/
def readMinutes (min : Int) : Int :=
  (if min < 0 then -1 else 1) * (min.natAbs / 60 * 100 + min.natAbs % 60)

theorem parseOffset_sign (sign : Char) (rest : List Char) :
    parseOffset ('G' :: 'M' :: 'T' :: sign :: rest) =
      if rest.all Char.isDigit then
        some (asI64 ((if sign = '-' then -1 else 1) * (valueFrom 0 rest : Int)))
      else none := by
  have hlong : ¬('G' :: 'M' :: 'T' :: sign :: rest = "GMT".toList) := by
    intro h
    have hlength := congrArg List.length h
    simp at hlength
  rw [parseOffset, if_neg hlong]

theorem natAbs_tdiv_lt (o : FixedOffset) : (o.ms.tdiv 60000).natAbs < 1440 := by
  have hlt := o.lt
  rw [Int.natAbs_tdiv]
  change o.ms.natAbs / 60000 < 1440
  omega

theorem readMinutes_bound (o : FixedOffset) :
    -2400 < readMinutes (o.ms.tdiv 60000) ∧ readMinutes (o.ms.tdiv 60000) < 2400 := by
  have hbound := natAbs_tdiv_lt o
  unfold readMinutes
  split <;> omega

theorem parseOffset_formatTzMs (o : FixedOffset) :
    parseOffset (formatTzMs o.ms) = some (readMinutes (o.ms.tdiv 60000)) := by
  have hbound := natAbs_tdiv_lt o
  unfold formatTzMs readMinutes
  generalize o.ms.tdiv 60000 = min at hbound ⊢
  have hdigits : (padInt 2 ((min.natAbs : Int) / 60) ++
      padInt 2 ((min.natAbs : Int) % 60)).all Char.isDigit = true := by
    rw [List.all_eq_true]
    intro c hc
    rcases List.mem_append.1 hc with hc | hc
    · exact isDigit_of_mem_padInt (by omega) hc
    · exact isDigit_of_mem_padInt (by omega) hc
  have hvalue : valueFrom 0 (padInt 2 ((min.natAbs : Int) / 60) ++
      padInt 2 ((min.natAbs : Int) % 60)) = min.natAbs / 60 * 100 + min.natAbs % 60 := by
    rw [padInt, padInt, if_neg (by omega), if_neg (by omega), valueFrom_append, valueFrom_pad,
      valueFrom_eq, valueFrom_pad, length_pad (by decide) (by omega)]
    omega
  have hsign : (if min < 0 then '-' else '+') = '-' ↔ min < 0 := by
    split <;> simp_all
  change parseOffset ('G' :: 'M' :: 'T' :: (if min < 0 then '-' else '+') :: _) = _
  rw [parseOffset_sign, if_pos hdigits, hvalue]
  simp only [hsign]
  rw [asI64_eq (by split <;> omega) (by split <;> omega)]
  push_cast
  rfl

/-! ### The text -/

/-- A token has a character and no blank. -/
def IsToken (w : List Char) : Prop := w ≠ [] ∧ ∀ c ∈ w, isWhitespace c = false

/-- The six tokens of a text. -/
theorem splitWhitespace_six {w1 w2 w3 w4 w5 w6 : List Char}
    (hw : ∀ w ∈ [w1, w2, w3, w4, w5, w6], IsToken w) :
    splitWhitespace (w1 ++ ' ' :: (w2 ++ ' ' :: (w3 ++ ' ' :: (w4 ++ ' ' :: (w5 ++ ' ' :: w6))))) =
      [w1, w2, w3, w4, w5, w6] := by
  have hsplit (w rest : List Char) (h : ∀ c ∈ w, isWhitespace c = false) :
      (w ++ ' ' :: rest).splitOnP isWhitespace = w :: rest.splitOnP isWhitespace :=
    List.splitOnP_append_cons_of_forall_mem h ' ' (by decide) rest
  simp only [List.mem_cons, List.not_mem_nil, or_false, forall_eq_or_imp, forall_eq] at hw
  obtain ⟨h1, h2, h3, h4, h5, h6⟩ := hw
  rw [splitWhitespace, hsplit _ _ h1.2, hsplit _ _ h2.2, hsplit _ _ h3.2, hsplit _ _ h4.2,
    hsplit _ _ h5.2, List.splitOnP_eq_singleton h6.2]
  simp [h1.1, h2.1, h3.1, h4.1, h5.1, h6.1]

theorem isToken_padInt {w : Nat} {n : Int} (h0 : 0 ≤ n) : IsToken (padInt w n) := by
  refine ⟨?_, fun c hc => isWhitespace_digit (isDigit_of_mem_padInt h0 hc)⟩
  rw [padInt, if_neg (by omega)]
  exact pad_ne_nil _ _

theorem isToken_cons {c : Char} {w : List Char} (hc : isWhitespace c = false) (hw : IsToken w) :
    IsToken (c :: w) := by
  refine ⟨List.cons_ne_nil _ _, fun x hx => ?_⟩
  rcases List.mem_cons.1 hx with rfl | hx
  · exact hc
  · exact hw.2 x hx

theorem isToken_append {v w : List Char} (hv : IsToken v) (hw : IsToken w) : IsToken (v ++ w) := by
  refine ⟨by simp [hv.1], fun x hx => ?_⟩
  rcases List.mem_append.1 hx with hx | hx
  · exact hv.2 x hx
  · exact hw.2 x hx

theorem isToken_formatYear4 (y : Int) : IsToken (formatYear4 y) := by
  unfold formatYear4
  split_ifs
  · exact isToken_cons (by decide) (isToken_padInt (by omega))
  · exact isToken_padInt (by omega)

theorem isToken_formatTime {p : LocalParts} (hhour : 0 ≤ p.hour) (hminute : 0 ≤ p.minute)
    (hsecond : 0 ≤ p.second) : IsToken (formatTime p) :=
  isToken_append (isToken_padInt hhour) (isToken_cons (by decide)
    (isToken_append (isToken_padInt hminute) (isToken_cons (by decide) (isToken_padInt hsecond))))

theorem isToken_formatTzMs (off : Int) : IsToken (formatTzMs off) := by
  have hsign (b : Prop) [Decidable b] : isWhitespace (if b then '-' else '+') = false := by
    split <;> decide
  exact isToken_cons (by decide) (isToken_cons (by decide) (isToken_cons (by decide)
    (isToken_cons (hsign _) (isToken_append (isToken_padInt (by omega))
      (isToken_padInt (by omega))))))

theorem isToken_name {w : List Char} (h : w ∈ weekdayNames ∨ w ∈ monthNames) : IsToken w := by
  have hall : (weekdayNames ++ monthNames).all
      (fun w => !w.isEmpty && w.all fun c => !isWhitespace c) = true := by
    decide
  have hw := List.all_eq_true.1 hall w (List.mem_append.2 h)
  simp only [Bool.and_eq_true, Bool.not_eq_true', List.isEmpty_eq_false_iff, List.all_eq_true] at hw
  exact hw

theorem getD_mem {α : Type} {l : List α} {i : Nat} (d : α) (h : i < l.length) : l.getD i d ∈ l := by
  rw [List.getD, List.getElem?_eq_getElem h]
  exact List.getElem_mem h

theorem findIdx_monthNames {i : Nat} (h : i < 12) :
    monthNames.findIdx? (· == monthNames.getD i []) = some i := by
  revert i
  decide

theorem weekday_no_comma : ∀ w ∈ weekdayNames, w.getLast? ≠ some ',' := by
  decide

theorem partsOf_time (n off : Int) :
    (0 ≤ (partsOf n off).hour ∧ (partsOf n off).hour < 24) ∧
      (0 ≤ (partsOf n off).minute ∧ (partsOf n off).minute < 60) ∧
      0 ≤ (partsOf n off).second ∧ (partsOf n off).second < 60 := by
  simp only [partsOf, msPerDay]
  omega

section

variable (o : FixedOffset) {t : Int}

/-- The text of a time value, as a day of the week and the other five tokens. -/
theorem formatLocalDateString_eq (t : Int) :
    ∃ w ∈ weekdayNames, formatLocalDateString o.zone (some t) =
      w ++ ' ' :: (monthNames.getD (partsOf (t - o.ms) o.ms).month0.toNat [] ++ ' ' ::
        (padInt 2 (partsOf (t - o.ms) o.ms).day ++ ' ' ::
          (formatYear4 (partsOf (t - o.ms) o.ms).year ++ ' ' ::
            (formatTime (partsOf (t - o.ms) o.ms) ++ ' ' :: formatTzMs o.ms)))) := by
  simp only [formatLocalDateString, Option.bind_some, localComponents_fixed, Option.map_some]
  refine ⟨_, ?_, rfl⟩
  apply getD_mem
  change _ < 7
  omega

/-- The parser takes the local components, which are the offset behind, and subtracts the
number it reads. -/
theorem parseEngineDateString_format (ht : t.natAbs ≤ msLimit) (hsec : (t - o.ms) % 1000 = 0) :
    parseEngineDateString (formatLocalDateString o.zone (some t)) =
      some (timeClip (t - o.ms - readMinutes (o.ms.tdiv 60000) * 60000)) := by
  have hlt := o.lt
  obtain ⟨w, hw, htext⟩ := formatLocalDateString_eq o t
  obtain ⟨hlow, hhigh⟩ := partsOf_year (n := t - o.ms) o.ms (by unfold msPerDay; omega)
  obtain ⟨hhour, hminute, hsecond⟩ := partsOf_time (t - o.ms) o.ms
  have hnaive := naive_partsOf (t - o.ms) o.ms
  have hmonth : 0 ≤ (partsOf (t - o.ms) o.ms).month0 ∧
      (partsOf (t - o.ms) o.ms).month0 < 12 := by
    have := civilFromDays_month ((t - o.ms) / msPerDay)
    simp only [partsOf]
    omega
  have hday : 1 ≤ (partsOf (t - o.ms) o.ms).day ∧ (partsOf (t - o.ms) o.ms).day ≤ 31 := by
    have := civilFromDays_day ((t - o.ms) / msPerDay)
    have := daysInMonth_le (civilFromDays ((t - o.ms) / msPerDay)).year
      (civilFromDays ((t - o.ms) / msPerDay)).month
    simp only [partsOf]
    omega
  have hmilli : (partsOf (t - o.ms) o.ms).milli = 0 := by
    simp only [partsOf, msPerDay]
    omega
  generalize partsOf (t - o.ms) o.ms = p at *
  have htokens : splitWhitespace (formatLocalDateString o.zone (some t)) =
      [w, monthNames.getD p.month0.toNat [], padInt 2 p.day, formatYear4 p.year, formatTime p,
        formatTzMs o.ms] := by
    rw [htext]
    apply splitWhitespace_six
    have hname : monthNames.getD p.month0.toNat [] ∈ monthNames := getD_mem _ (by
      change _ < 12
      omega)
    simp only [List.mem_cons, List.not_mem_nil, or_false, forall_eq_or_imp, forall_eq]
    exact ⟨isToken_name (.inl hw), isToken_name (.inr hname), isToken_padInt (by omega),
      isToken_formatYear4 _, isToken_formatTime hhour.1 hminute.1 hsecond.1,
      isToken_formatTzMs _⟩
  have hdayRead : digits 2 (padInt 2 p.day) = some (p.day, []) := by
    have := digits_padInt (k := 2) (n := p.day) (by decide) (by omega) (by omega) []
    rwa [List.append_nil] at this
  simp only [parseEngineDateString, htokens, if_neg (weekday_no_comma w hw)]
  rw [findIdx_monthNames (by omega), hdayRead, parseSignedYear_formatYear4 hlow hhigh]
  simp only [Option.bind_eq_bind, Option.bind_some]
  rw [if_neg (by omega), parseHms_formatTime hhour hminute hsecond, parseOffset_formatTzMs]
  simp only [Option.bind_some, Int.toNat_of_nonneg hmonth.1]
  rw [LocalParts.naive, hmilli, Int.add_zero] at hnaive
  have hminutes := readMinutes_bound o
  have hlimit : (t.natAbs : Int) ≤ 8640000000000000 := ht
  rw [hnaive, asI64_eq (by omega) (by omega)]

/-- The parsers in front of it decline a text that starts with a day of the week. -/
theorem parseDateString_format (chrono : ChronoParsers) (ht : t.natAbs ≤ msLimit)
    (hsec : (t - o.ms) % 1000 = 0) :
    parseDateString o.zone chrono (formatLocalDateString o.zone (some t)) =
      timeClip (t - o.ms - readMinutes (o.ms.tdiv 60000) * 60000) := by
  obtain ⟨w, hw, htext⟩ := formatLocalDateString_eq o t
  have hiso : parseIsoStrict o.zone (formatLocalDateString o.zone (some t)) = none := by
    have hstart : ∀ w ∈ weekdayNames, ∃ c cs, w = c :: cs ∧ ¬(c = '+' ∨ c = '-') ∧
        c.isDigit = false := by
      simp [weekdayNames]
    obtain ⟨c, cs, rfl, hsign, hdigit⟩ := hstart w hw
    rw [htext, List.cons_append, parseIsoStrict, isoYear, if_neg hsign, digits_none hdigit]
    rfl
  have hrfc : chrono.rfc2822 (formatLocalDateString o.zone (some t)) = none := by
    rw [htext]
    exact chrono.rfc2822_weekday w hw ' ' _ (by decide)
  simp only [parseDateString, hiso, hrfc, parseEngineDateString_format o ht hsec]

/-- A time value of whole seconds is read back from its text exactly when the offset, of whole
minutes, is zero. -/
theorem parseDateString_format_iff (chrono : ChronoParsers) (ho : 60000 ∣ o.ms)
    (hsec : 1000 ∣ t) (ht : t.natAbs ≤ msLimit) :
    parseDateString o.zone chrono (formatLocalDateString o.zone (some t)) = some t ↔
      o.ms = 0 := by
  obtain ⟨k, hk⟩ := ho
  obtain ⟨j, hj⟩ := hsec
  rw [parseDateString_format o chrono ht (by omega), hk, Int.mul_tdiv_cancel_left _ (by decide)]
  constructor
  · intro h
    unfold timeClip at h
    split at h
    · have heq := Option.some.inj h
      unfold readMinutes at heq
      split at heq <;> omega
    · cases h
  · intro h
    obtain rfl : k = 0 := by omega
    have hzero : t - 60000 * 0 - readMinutes 0 * 60000 = t := by
      have : readMinutes 0 = 0 := rfl
      omega
    rw [hzero, timeClip, if_pos (by omega)]

end

/-- Parsers that take no text. -/
def ChronoParsers.declining : ChronoParsers :=
  ⟨fun _ => none, fun _ => none, fun _ _ _ _ _ => rfl⟩

/-- Without an offset a date of the year before the year zero is read back. -/
theorem parseDateString_format_utc :
    parseDateString (FixedOffset.mk 0 (by decide)).zone .declining
      (formatLocalDateString (FixedOffset.mk 0 (by decide)).zone (some (-62198755200000))) =
      some (-62198755200000) :=
  (parseDateString_format_iff ⟨0, by decide⟩ .declining (by decide) (by decide) (by decide)).2 rfl

/-- Two hours ahead of the time value, the text of the start of 1970 is off by two hours and
the parser reads the offset as two hundred minutes. -/
theorem parseDateString_format_two_hours :
    formatLocalDateString (FixedOffset.mk 7200000 (by decide)).zone (some 0) =
        "Thu Dec 31 1969 22:00:00 GMT+0200".toList ∧
      parseDateString (FixedOffset.mk 7200000 (by decide)).zone .declining
        "Thu Dec 31 1969 22:00:00 GMT+0200".toList = some (-19200000) := by
  decide +kernel

end OxideJS.Date
