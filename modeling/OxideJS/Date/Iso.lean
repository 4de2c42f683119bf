import OxideJS.Date.Time
import OxideJS.Lib.FixedWidth

/-!
Dates in the format of ISO 8601.

`toISOString` writes a year with four digits, or with a sign and six where
four do not do. The parser takes the same three forms, and dates without a
time, times without seconds and other offsets besides. A text it declines is
`none`; one it takes may still be out of range, which is `some none`.
-/

namespace OxideJS.Date

open Lib.FixedWidth

/-! ### Writing -/

/-- A number with zeros in front; a sign counts for the width. -/
def padInt (w : Nat) (n : Int) : List Char :=
  if n < 0 then '-' :: pad (w - 1) n.natAbs else pad w n.toNat

def formatIsoYear (y : Int) : List Char :=
  if y < 0 then '-' :: padInt 6 (-y)
  else if y > 9999 then '+' :: padInt 6 y
  else padInt 4 y

structure UtcParts where
  year : Int
  month : Int
  day : Int
  hour : Int
  minute : Int
  second : Int
  milli : Int
  weekday : Int
  deriving DecidableEq

def utcComponents (ts : Int) : UtcParts :=
  let days := ts / msPerDay
  let rem := ts % msPerDay
  let c := civilFromDays days
  ⟨c.year, c.month, c.day, rem / 3600000, rem / 60000 % 60, rem / 1000 % 60, rem % 1000,
    (days + 4) % 7⟩

/-- Or the message of a range error. -/
def dateToIsoString (t : Option Int) : Except String (List Char) :=
  match t with
  | none => .error "invalid date"
  | some ms =>
    if ms.natAbs > msLimit then .error "invalid date"
    else
      let p := utcComponents ms
      .ok (formatIsoYear p.year ++ '-' :: (padInt 2 p.month ++ '-' :: (padInt 2 p.day ++
        'T' :: (padInt 2 p.hour ++ ':' :: (padInt 2 p.minute ++ ':' :: (padInt 2 p.second ++
          '.' :: (padInt 3 p.milli ++ ['Z'])))))))

/-! ### Reading -/

/-- So many digits. -/
def digits (k : Nat) (b : List Char) : Option (Int × List Char) :=
  (takeDigits 0 k b).map fun (v, rest) => ((v : Int), rest)

/-- One character. -/
def expect (c : Char) : List Char → Option (List Char)
  | [] => none
  | x :: rest => if x = c then some rest else none

/-- Six digits after a sign, four without one, or six if two more follow. -/
def isoYear (b : List Char) : Option (Int × List Char) :=
  match b with
  | [] => none
  | c :: rest =>
    if c = '+' ∨ c = '-' then
      match digits 6 rest with
      | none => none
      | some (yv, rest) =>
        if c = '-' ∧ yv = 0 then none else some (if c = '-' then -yv else yv, rest)
    else
      match digits 4 b with
      | none => none
      | some (yv, rest) =>
        match digits 2 rest with
        | none => some (yv, rest)
        | some (w, rest) => some (yv * 100 + w, rest)

/-- The month and the day. -/
def isoMonthDay (y : Int) (b : List Char) : Option (Int × Int × List Char) := do
  let b ← expect '-' b
  let (m, b) ← digits 2 b
  if ¬(1 ≤ m ∧ m ≤ 12) then none
  else
    let b ← expect '-' b
    let (d, b) ← digits 2 b
    if ¬(1 ≤ d ∧ d ≤ 31) ∨ d > daysInMonth y m then none else some (m, d, b)

/-- The hours and the minutes. -/
def isoHourMinute (b : List Char) : Option (Int × Int × List Char) := do
  let b ← expect 'T' b
  let (h, b) ← digits 2 b
  if ¬(0 ≤ h ∧ h ≤ 24) then none
  else
    let b ← expect ':' b
    let (mi, b) ← digits 2 b
    if mi > 59 ∨ h = 24 ∧ mi ≠ 0 then none else some (h, mi, b)

/-- The seconds and the milliseconds, both of which may be missing. -/
def isoSeconds (h : Int) (b : List Char) : Option (Int × Int × List Char) :=
  match expect ':' b with
  | none => some (0, 0, b)
  | some b => do
    let (sec, b) ← digits 2 b
    if sec > 59 ∨ h = 24 ∧ sec ≠ 0 then none
    else
      match expect '.' b with
      | none => some (sec, 0, b)
      | some b => do
        let (ms, b) ← digits 3 b
        if h = 24 ∧ ms ≠ 0 then none else some (sec, ms, b)

/-- The minutes of an offset, if there is one. -/
def isoOffset (b : List Char) : Option (Option Int × List Char) :=
  match b with
  | [] => some (none, [])
  | c :: rest =>
    if c = 'Z' then some (some 0, rest)
    else if c ≠ '+' ∧ c ≠ '-' then none
    else do
      let osign : Int := if c = '-' then -1 else 1
      let (oh, rest) ← digits 2 rest
      if oh > 23 then none
      else
        match rest with
        | [] => some (some (osign * (oh * 60)), [])
        | x :: tail =>
          if x = ':' ∨ x.isDigit then do
            let (om, rest) ← digits 2 (if x = ':' then tail else rest)
            if om > 59 then none else some (some (osign * (oh * 60 + om)), rest)
          else some (some (osign * (oh * 60)), rest)

/-- A time without an offset is local. -/
def isoTime (zone : LocalZone) (y m d : Int) (b : List Char) : Option (Option Int) := do
  let (h, mi, b) ← isoHourMinute b
  let (sec, ms, b) ← isoSeconds h b
  let (offsetMin, b) ← isoOffset b
  if b ≠ [] then none
  else
    let naive := civilDayCount y m d * msPerDay + h * 3600000 + mi * 60000 + sec * 1000 + ms
    match offsetMin with
    | some off => some (timeClip (naive - off * 60000))
    | none => (localOffsetSample zone naive).map timeClip

def parseIsoStrict (zone : LocalZone) (s : List Char) : Option (Option Int) := do
  let (y, b) ← isoYear s
  if b = [] then some (timeClip (civilDayCount y 1 1 * msPerDay))
  else
    let (m, d, b) ← isoMonthDay y b
    if b = [] then some (timeClip (civilDayCount y m d * msPerDay))
    else isoTime zone y m d b

/-! ### The parts of a text -/

theorem digits_padInt {k : Nat} {n : Int} (hk : 0 < k) (h0 : 0 ≤ n) (hn : n < 10 ^ k)
    (rest : List Char) : digits k (padInt k n ++ rest) = some (n, rest) := by
  have hlt : n.toNat < 10 ^ k := by
    zify
    omega
  rw [padInt, if_neg (by omega), digits, takeDigits_pad hk hlt]
  simp only [Option.map_some]
  rw [Int.toNat_of_nonneg h0]

/-- No digits are read from a text that starts with another character. -/
theorem digits_none {k : Nat} {c : Char} (hc : c.isDigit = false) (rest : List Char) :
    digits (k + 1) (c :: rest) = none := by
  simp [digits, takeDigits, hc]

@[simp] theorem expect_self (c : Char) (rest : List Char) : expect c (c :: rest) = some rest := by
  simp [expect]

theorem isoYear_formatIsoYear {y : Int} (hlow : -1000000 < y) (hhigh : y < 1000000)
    (rest : List Char) : isoYear (formatIsoYear y ++ '-' :: rest) = some (y, '-' :: rest) := by
  unfold formatIsoYear
  split_ifs with hneg hlarge
  · rw [List.cons_append, isoYear, if_pos (.inr rfl),
      digits_padInt (by decide) (by omega) (by omega)]
    simp only [true_and, if_true, neg_neg]
    rw [if_neg (by omega)]
  · rw [List.cons_append, isoYear, if_pos (.inl rfl),
      digits_padInt (by decide) (by omega) (by omega)]
    simp only [Char.reduceEq, false_and, if_false]
  · -- a year without a sign starts with a digit
    obtain ⟨c, cs, hcs⟩ := List.exists_cons_of_ne_nil (pad_ne_nil 4 y.toNat)
    have hdigit : c.isDigit = true :=
      isDigit_of_mem_pad (w := 4) (n := y.toNat) (hcs ▸ List.mem_cons_self)
    have hsign : ¬(c = '+' ∨ c = '-') := by
      rintro (rfl | rfl) <;> exact absurd hdigit (by decide)
    have hread := digits_padInt (k := 4) (by decide) (by omega : 0 ≤ y) (by omega) ('-' :: rest)
    rw [padInt, if_neg hneg, hcs, List.cons_append] at hread ⊢
    rw [isoYear, if_neg hsign, hread]
    dsimp only
    rw [digits_none (by decide)]

theorem isoMonthDay_padInt {y m d : Int} (h1 : 1 ≤ m) (h12 : m ≤ 12) (hd : 1 ≤ d)
    (hlen : d ≤ daysInMonth y m) (rest : List Char) :
    isoMonthDay y ('-' :: (padInt 2 m ++ '-' :: (padInt 2 d ++ rest))) = some (m, d, rest) := by
  have h31 := daysInMonth_le y m
  simp only [isoMonthDay, expect_self, Option.bind_eq_bind, Option.bind_some]
  rw [digits_padInt (by decide) (by omega) (by omega)]
  simp only [Option.bind_some, expect_self]
  rw [if_neg (by omega), digits_padInt (by decide) (by omega) (by omega)]
  simp only [Option.bind_some]
  rw [if_neg (by omega)]

theorem isoHourMinute_padInt {h mi : Int} (h0 : 0 ≤ h) (h24 : h < 24) (hmi : 0 ≤ mi)
    (hmi60 : mi < 60) (rest : List Char) :
    isoHourMinute ('T' :: (padInt 2 h ++ ':' :: (padInt 2 mi ++ rest))) =
      some (h, mi, rest) := by
  simp only [isoHourMinute, expect_self, Option.bind_eq_bind, Option.bind_some]
  rw [digits_padInt (by decide) (by omega) (by omega)]
  simp only [Option.bind_some, expect_self]
  rw [if_neg (by omega), digits_padInt (by decide) (by omega) (by omega)]
  simp only [Option.bind_some]
  rw [if_neg (by omega)]

theorem isoSeconds_padInt {h sec ms : Int} (h24 : h < 24) (h0 : 0 ≤ sec) (h60 : sec < 60)
    (hms : 0 ≤ ms) (hms1000 : ms < 1000) (rest : List Char) :
    isoSeconds h (':' :: (padInt 2 sec ++ '.' :: (padInt 3 ms ++ rest))) =
      some (sec, ms, rest) := by
  simp only [isoSeconds, expect_self, Option.bind_eq_bind]
  rw [digits_padInt (by decide) (by omega) (by omega)]
  simp only [Option.bind_some, expect_self]
  rw [if_neg (by omega), digits_padInt (by decide) (by omega) (by omega)]
  simp only [Option.bind_some]
  rw [if_neg (by omega)]

theorem utcComponents_time (ts : Int) :
    let p := utcComponents ts
    (0 ≤ p.hour ∧ p.hour < 24) ∧ (0 ≤ p.minute ∧ p.minute < 60) ∧
      (0 ≤ p.second ∧ p.second < 60) ∧ 0 ≤ p.milli ∧ p.milli < 1000 := by
  simp only [utcComponents, msPerDay]
  omega

/-- The components put together are the time value. -/
theorem utcComponents_naive (ts : Int) :
    let p := utcComponents ts
    civilDayCount p.year p.month p.day * msPerDay + p.hour * 3600000 + p.minute * 60000 +
      p.second * 1000 + p.milli = ts := by
  have hnaive := naive_partsOf ts 0
  simpa only [LocalParts.naive, partsOf, utcComponents, sub_add_cancel] using hnaive

theorem isoTime_padInt (zone : LocalZone) (y m d : Int) {p : UtcParts}
    (hhour : 0 ≤ p.hour ∧ p.hour < 24) (hminute : 0 ≤ p.minute ∧ p.minute < 60)
    (hsecond : 0 ≤ p.second ∧ p.second < 60) (hmilli : 0 ≤ p.milli ∧ p.milli < 1000) :
    isoTime zone y m d ('T' :: (padInt 2 p.hour ++ ':' :: (padInt 2 p.minute ++ ':' ::
      (padInt 2 p.second ++ '.' :: (padInt 3 p.milli ++ ['Z']))))) =
      some (timeClip (civilDayCount y m d * msPerDay + p.hour * 3600000 + p.minute * 60000 +
        p.second * 1000 + p.milli)) := by
  rw [isoTime, isoHourMinute_padInt hhour.1 hhour.2 hminute.1 hminute.2]
  simp only [Option.bind_eq_bind, Option.bind_some]
  rw [isoSeconds_padInt hhour.2 hsecond.1 hsecond.2 hmilli.1 hmilli.2]
  simp [isoOffset]

/-- What `toISOString` writes for a time value is read as the time value, in every zone. -/
theorem parseIsoStrict_dateToIsoString (zone : LocalZone) {t : Int} (ht : t.natAbs ≤ msLimit) :
    ∃ text, dateToIsoString (some t) = .ok text ∧
      parseIsoStrict zone text = some (some t) := by
  refine ⟨_, if_neg (by omega), ?_⟩
  have hdays : -100000001 ≤ t / msPerDay ∧ t / msPerDay ≤ 100000001 := by
    unfold msLimit at ht
    unfold msPerDay
    omega
  obtain ⟨hlow, hhigh⟩ := civilFromDays_year hdays.1 hdays.2
  obtain ⟨h1, h12⟩ := civilFromDays_month (t / msPerDay)
  obtain ⟨hd, hlen⟩ := civilFromDays_day (t / msPerDay)
  obtain ⟨hhour, hminute, hsecond, hmilli⟩ := utcComponents_time t
  have hnaive := utcComponents_naive t
  have hyear : (utcComponents t).year = (civilFromDays (t / msPerDay)).year := rfl
  dsimp only at hnaive
  rw [parseIsoStrict, isoYear_formatIsoYear (by omega) (by omega)]
  simp only [Option.bind_eq_bind, Option.bind_some, reduceCtorEq, if_false]
  rw [isoMonthDay_padInt (y := (utcComponents t).year) (m := (utcComponents t).month)
    (d := (utcComponents t).day) h1 h12 hd hlen]
  simp only [Option.bind_some, reduceCtorEq, if_false]
  rw [isoTime_padInt zone _ _ _ hhour hminute hsecond hmilli, hnaive, timeClip,
    if_pos (by omega)]

/-- The first day of the year before the year zero, and a year of six digits. -/
theorem parseIsoStrict_extended_years :
    (∃ text, dateToIsoString (some (-62198755200000)) = .ok text ∧
      parseIsoStrict (fun _ => none) text = some (some (-62198755200000))) ∧
    (∃ text, dateToIsoString (some 8640000000000000) = .ok text ∧
      parseIsoStrict (fun _ => none) text = some (some 8640000000000000)) :=
  ⟨parseIsoStrict_dateToIsoString _ (by decide), parseIsoStrict_dateToIsoString _ (by decide)⟩

example : (dateToIsoString (some (-62198755200000))).toOption =
    some "-000001-01-01T00:00:00.000Z".toList := by
  decide +kernel

end OxideJS.Date
