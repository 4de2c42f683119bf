import OxideJS.Temporal.DurationAdd
import OxideJS.Lib.FixedWidth

/-!
Durations as text.

The text has the components that are not zero, and the seconds as one
number: milliseconds, microseconds and nanoseconds, which may exceed their
radix, are carried into it and into its fraction. Reading splits the
fraction again, so the seconds and what is below them come back as one
total, and everything else as it was.

A text is a list of characters. Digits are read as the double nearest to
them.
-/

namespace OxideJS.Temporal

open Binary64 OxideJS.Lib.FixedWidth

/-- What `validate_duration_values` accepts. -/
structure DurationValues.Valid (v : DurationValues) : Prop where
  oneSign : (∀ u < 10, 0 ≤ v u) ∨ ∀ u < 10, v u ≤ 0
  dates : ∀ u < 3, |v u| ≤ 4294967295
  times : |durationTimeNanoseconds v| < maxTimeNanoseconds

/-! ### Printing -/

/-- The cast to `i64` and its digits. -/
def formatDurationNumber (n : Nat) : List Char :=
  Nat.toDigits 10 (min n (2 ^ 63 - 1))

/-- The digits of a fraction of a second without the zeros at the end. -/
def fractionDigits (fraction : Nat) : List Char :=
  ((pad 9 fraction).reverse.dropWhile (· == '0')).reverse

/-- The magnitudes of the seconds and the units below them. -/
def formatDurationSeconds (seconds milliseconds microseconds nanoseconds : Nat) :
    Option (List Char) :=
  let total := seconds * 1000000000 + milliseconds * 1000000 + microseconds * 1000 + nanoseconds
  if total = 0 then none
  else
    let whole := total / 1000000000
    let fraction := total % 1000000000
    some (Nat.toDigits 10 whole ++ if fraction ≠ 0 then '.' :: fractionDigits fraction else [])

/-- A component with its suffix, unless it is zero. -/
def unitText (n : Nat) (suffix : Char) : List Char :=
  if n ≠ 0 then formatDurationNumber n ++ [suffix] else []

def durationToString (v : DurationValues) : List Char :=
  let negative := (List.range 10).any fun u => v u < 0
  let n := fun u => (v u).natAbs
  let dates := unitText (n 0) 'Y' ++ unitText (n 1) 'M' ++ unitText (n 2) 'W' ++ unitText (n 3) 'D'
  let hasDate := (List.range 4).any fun u => n u != 0
  let hasTime := (List.range' 4 6).any fun u => n u != 0
  let times := unitText (n 4) 'H' ++ unitText (n 5) 'M'
  let output := (if negative then ['-', 'P'] else ['P']) ++ dates
  if hasTime || !hasDate then
    let output := output ++ 'T' :: times
    match formatDurationSeconds (n 6) (n 7) (n 8) (n 9) with
    | some seconds => output ++ (seconds ++ ['S'])
    | none => if output.getLast? = some 'T' then output ++ ['0', 'S'] else output
  else output

/-! ### Reading -/

structure ParseState where
  values : DurationValues
  inTime : Bool
  sawUnit : Bool
  sawTimeUnit : Bool
  lastOrder : Nat
  fractionSeen : Bool

/-- The index, the rank and the nanoseconds of a designator. -/
def designator (inTime : Bool) (c : Char) : Option (Nat × Nat × Option Nat) :=
  match inTime, c.toUpper with
  | false, 'Y' => some (0, 1, none)
  | false, 'M' => some (1, 2, none)
  | false, 'W' => some (2, 3, none)
  | false, 'D' => some (3, 4, none)
  | true, 'H' => some (4, 5, some 3600000000000)
  | true, 'M' => some (5, 6, some 60000000000)
  | true, 'S' => some (6, 7, some 1000000000)
  | _, _ => none

/-- Digits as a double, which must be finite. -/
def parseWhole (digits : List Char) : Option Int :=
  let m := valueFrom 0 digits
  if m < 2 ^ 1024 - 2 ^ 970 then some (asF64 m) else none

/-- A fraction as numerator and scale, if there is one, and the rest. -/
def parseFraction : List Char → Option (Option (Nat × Nat) × List Char)
  | [] => some (none, [])
  | c :: cs =>
    if c = '.' ∨ c = ',' then
      let digits := cs.takeWhile Char.isDigit
      if digits.length = 0 ∨ digits.length > 9 then none
      else some (some (valueFrom 0 digits, 10 ^ digits.length), cs.dropWhile Char.isDigit)
    else some (none, c :: cs)

/-- The nanoseconds of a fraction are spread over the units below. -/
def spreadFraction (values : DurationValues) (index nanos : Nat) : DurationValues :=
  let (values, nanos) :=
    if index ≤ 4 then
      (Function.update values 5 (values 5 + (nanos / 60000000000 : Nat)), nanos % 60000000000)
    else (values, nanos)
  let (values, nanos) :=
    if index ≤ 5 then
      (Function.update values 6 (values 6 + (nanos / 1000000000 : Nat)), nanos % 1000000000)
    else (values, nanos)
  let values := Function.update values 7 (values 7 + (nanos / 1000000 : Nat))
  let nanos := nanos % 1000000
  let values := Function.update values 8 (values 8 + (nanos / 1000 : Nat))
  Function.update values 9 (values 9 + (nanos % 1000 : Nat))

/-- A component with its fraction. -/
def ParseState.take (s : ParseState) (index order : Nat) (unitNanos : Option Nat) (whole : Int)
    (fraction : Option (Nat × Nat)) : Option ParseState :=
  if order ≤ s.lastOrder ∨ s.fractionSeen then none
  else
    let s := { s with
      values := Function.update s.values index whole, sawUnit := true, lastOrder := order,
      sawTimeUnit := s.sawTimeUnit || s.inTime }
    match fraction with
    | none => some s
    | some (numerator, scale) =>
      unitNanos.map fun unitNanos =>
        { s with
          values := spreadFraction s.values index (numerator * unitNanos / scale),
          fractionSeen := true }

/-- One round of the loop. -/
def parseStep (s : ParseState) (cs : List Char) : Option (ParseState × List Char) :=
  if cs.head?.any fun c => c.toUpper == 'T' then
    if s.inTime then none else some ({ s with inTime := true }, cs.tail)
  else
    let digits := cs.takeWhile Char.isDigit
    if digits = [] then none
    else
      (parseWhole digits).bind fun whole =>
        (parseFraction (cs.dropWhile Char.isDigit)).bind fun (fraction, cs) =>
          match cs with
          | [] => none
          | c :: rest =>
            (designator s.inTime c).bind fun (index, order, unitNanos) =>
              (s.take index order unitNanos whole fraction).map (·, rest)

/-- The loop; the number of rounds is bounded by the length of the text. -/
def parseLoop : Nat → ParseState → List Char → Option ParseState
  | _, s, [] => some s
  | 0, _, _ :: _ => none
  | fuel + 1, s, c :: cs =>
    (parseStep s (c :: cs)).bind fun (s, rest) => parseLoop fuel s rest

def startState : ParseState :=
  ⟨0, false, false, false, 0, false⟩

def parseDurationString (input : List Char) : Option DurationValues :=
  let negative := input.head? = some '-'
  let cs := if input.head? = some '-' ∨ input.head? = some '+' then input.tail else input
  if cs.head?.any fun c => c.toUpper == 'P' then
    (parseLoop cs.tail.length startState cs.tail).bind fun s =>
      if !s.sawUnit || (s.inTime && !s.sawTimeUnit) then none
      else some (if negative then -s.values else s.values)
  else none

/-! ### Digits -/

theorem isDigit_cases {c : Char} (h : c.isDigit = true) :
    ∃ n, 48 ≤ n ∧ n ≤ 57 ∧ c = Char.ofNat n := by
  have hzero : '0'.toNat = 48 := rfl
  have hnine : '9'.toNat = 57 := rfl
  have hrange := Char.isDigit_iff_toNat.1 h
  exact ⟨c.toNat, by omega, by omega, (Char.ofNat_toNat c).symm⟩

theorem not_time_of_isDigit {c : Char} (h : c.isDigit = true) : (c.toUpper == 'T') = false := by
  obtain ⟨n, hlow, hhigh, rfl⟩ := isDigit_cases h
  interval_cases n <;> decide

theorem takeWhile_digits {ds : List Char} (hds : ∀ d ∈ ds, d.isDigit = true) {c : Char}
    (hc : c.isDigit = false) (rest : List Char) :
    (ds ++ c :: rest).takeWhile Char.isDigit = ds := by
  rw [List.takeWhile_append_of_pos hds, List.takeWhile_cons_of_neg (by simp [hc]), List.append_nil]

theorem dropWhile_digits {ds : List Char} (hds : ∀ d ∈ ds, d.isDigit = true) {c : Char}
    (hc : c.isDigit = false) (rest : List Char) :
    (ds ++ c :: rest).dropWhile Char.isDigit = c :: rest := by
  rw [List.dropWhile_append_of_pos hds, List.dropWhile_cons_of_neg (by simp [hc])]

theorem isDigit_toDigits (n : Nat) : ∀ d ∈ Nat.toDigits 10 n, d.isDigit = true :=
  fun _ h => Nat.isDigit_of_mem_toDigits (by decide) (by decide) h

theorem parseWhole_toDigits {n : Nat} (h : n < 2 ^ 53) :
    parseWhole (Nat.toDigits 10 n) = some (n : Int) := by
  have hfinite : ∀ k, 53 ≤ k → n < 2 ^ (k + 54) - 2 ^ k := by
    intro k hk
    have hmono : 2 ^ 53 ≤ 2 ^ k := Nat.pow_le_pow_right (by decide) hk
    rw [pow_add]
    omega
  have hbound : n < 2 ^ 1024 - 2 ^ 970 := by
    simpa only [Nat.reduceAdd] using hfinite 970 (by decide)
  have hcast : asF64 n = n := asF64_small (by rw [Nat.abs_cast]; exact_mod_cast h)
  rw [parseWhole, valueFrom_toDigits, if_pos hbound, hcast]

theorem valueFrom_replicate (v k : Nat) :
    valueFrom v (List.replicate k '0') = v * 10 ^ k := by
  have h := valueFrom_zeros k []
  rw [List.append_nil] at h
  rw [valueFrom_eq, h, List.length_replicate]
  rfl

/-- The zeros that were cut off scale the numerator. -/
theorem fractionDigits_spec {f : Nat} (hpos : f ≠ 0) (hlt : f < 10 ^ 9) :
    ∃ k, (fractionDigits f).length + k = 9 ∧ fractionDigits f ≠ []
      ∧ valueFrom 0 (fractionDigits f) * 10 ^ k = f
      ∧ ∀ d ∈ fractionDigits f, d.isDigit = true := by
  have hsplit : fractionDigits f ++ ((pad 9 f).reverse.takeWhile (· == '0')).reverse = pad 9 f := by
    rw [fractionDigits, ← List.reverse_append, List.takeWhile_append_dropWhile,
      List.reverse_reverse]
  have hzeros : ((pad 9 f).reverse.takeWhile (· == '0')).reverse
      = List.replicate ((pad 9 f).reverse.takeWhile (· == '0')).length '0' := by
    refine List.eq_replicate_iff.2 ⟨List.length_reverse, fun c hc => ?_⟩
    simpa using List.mem_takeWhile_imp (List.mem_reverse.1 hc)
  rw [hzeros] at hsplit
  have hlen := length_pad (by decide) hlt
  have hvalue := valueFrom_pad 9 f
  rw [← hsplit] at hlen hvalue
  rw [List.length_append, List.length_replicate] at hlen
  rw [valueFrom_append, valueFrom_replicate] at hvalue
  refine ⟨_, hlen, fun hnil => ?_, hvalue, fun d hd => ?_⟩
  · rw [hnil] at hvalue
    exact hpos (by simpa [valueFrom] using hvalue.symm)
  · have hmem : d ∈ pad 9 f := by
      rw [← hsplit]
      exact List.mem_append_left _ hd
    exact isDigit_of_mem_pad hmem

theorem fraction_nanoseconds {f : Nat} (hpos : f ≠ 0) (hlt : f < 10 ^ 9) :
    valueFrom 0 (fractionDigits f) * 1000000000 / 10 ^ (fractionDigits f).length = f := by
  obtain ⟨k, hlen, -, hvalue, -⟩ := fractionDigits_spec hpos hlt
  have hscale : 1000000000 = 10 ^ k * 10 ^ (fractionDigits f).length := by
    rw [← pow_add, Nat.add_comm, hlen]
    rfl
  rw [hscale, ← Nat.mul_assoc, hvalue, Nat.mul_div_cancel _ (by positivity)]

/-! ### Pieces of a text -/

/-- The loop reads the text from one state to another. -/
def Reads (s : ParseState) (cs : List Char) (s' : ParseState) : Prop :=
  ∀ fuel, cs.length ≤ fuel → parseLoop fuel s cs = some s'

theorem reads_nil (s : ParseState) : Reads s [] s := by
  intro fuel _
  cases fuel <;> rfl

theorem Reads.step {s s₁ s' : ParseState} {cs rest : List Char}
    (hstep : parseStep s cs = some (s₁, rest)) (hlen : rest.length < cs.length)
    (h : Reads s₁ rest s') : Reads s cs s' := by
  intro fuel hfuel
  cases cs with
  | nil => simp at hlen
  | cons c cs =>
    cases fuel with
    | zero => simp at hfuel
    | succ fuel =>
      simp only [List.length_cons] at hlen hfuel
      rw [parseLoop, hstep]
      exact h fuel (by omega)

theorem Reads.time {s s' : ParseState} {rest : List Char} (htime : s.inTime = false)
    (h : Reads { s with inTime := true } rest s') : Reads s ('T' :: rest) s' := by
  refine h.step ?_ (Nat.lt_succ_self _)
  simp [parseStep, htime]

/-- A number, a fraction or none, and a designator. -/
theorem parseStep_number {s : ParseState} {n : Nat} (hn : n < 2 ^ 53) {tail rest : List Char}
    {fraction : Option (Nat × Nat)} {c d : Char} {index order : Nat} {unitNanos : Option Nat}
    (hd : d.isDigit = false) (hfraction : parseFraction (d :: tail) = some (fraction, c :: rest))
    (hdesignator : designator s.inTime c = some (index, order, unitNanos)) :
    parseStep s (Nat.toDigits 10 n ++ d :: tail)
      = (s.take index order unitNanos n fraction).map (·, rest) := by
  have hne : Nat.toDigits 10 n ≠ [] := by
    have := Nat.length_toDigits_pos (b := 10) (n := n)
    intro hnil
    simp [hnil] at this
  have hhead : ((Nat.toDigits 10 n ++ d :: tail).head?.any fun c => c.toUpper == 'T') = false := by
    cases hds : Nat.toDigits 10 n with
    | nil => exact absurd hds hne
    | cons x xs =>
      have hx := isDigit_toDigits n x (by rw [hds]; exact List.mem_cons_self)
      simpa using not_time_of_isDigit hx
  rw [parseStep, if_neg (by rw [hhead]; decide)]
  dsimp only
  rw [takeWhile_digits (isDigit_toDigits n) hd, dropWhile_digits (isDigit_toDigits n) hd,
    if_neg hne, parseWhole_toDigits hn, hfraction]
  simp only [Option.bind_some, hdesignator]

theorem take_none {s : ParseState} {order : Nat} (horder : s.lastOrder < order)
    (hseen : s.fractionSeen = false) (index : Nat) (unitNanos : Option Nat) (whole : Int) :
    s.take index order unitNanos whole none
      = some ⟨Function.update s.values index whole, s.inTime, true, s.sawTimeUnit || s.inTime,
        order, s.fractionSeen⟩ := by
  rw [ParseState.take, if_neg (by simp [hseen, horder])]

theorem take_some {s : ParseState} {order : Nat} (horder : s.lastOrder < order)
    (hseen : s.fractionSeen = false) (index unitNanos : Nat) (whole : Int)
    (numerator scale : Nat) :
    s.take index order (some unitNanos) whole (some (numerator, scale))
      = some ⟨spreadFraction (Function.update s.values index whole) index
          (numerator * unitNanos / scale), s.inTime, true, s.sawTimeUnit || s.inTime, order,
          true⟩ := by
  rw [ParseState.take, if_neg (by simp [hseen, horder])]
  rfl

/-- The state after a component, if it was printed. -/
def ParseState.withUnit (s : ParseState) (index order n : Nat) : ParseState :=
  if n = 0 then s
  else ⟨Function.update s.values index n, s.inTime, true, s.sawTimeUnit || s.inTime, order,
    s.fractionSeen⟩

section WithUnit

variable (s : ParseState) (index order n : Nat)

@[simp] theorem inTime_withUnit : (s.withUnit index order n).inTime = s.inTime := by
  unfold ParseState.withUnit
  split <;> rfl

@[simp] theorem fractionSeen_withUnit :
    (s.withUnit index order n).fractionSeen = s.fractionSeen := by
  unfold ParseState.withUnit
  split <;> rfl

@[simp] theorem sawUnit_withUnit :
    (s.withUnit index order n).sawUnit = (s.sawUnit || n != 0) := by
  unfold ParseState.withUnit
  split
  · next h => simp [h]
  · next h => simp [h]

@[simp] theorem sawTimeUnit_withUnit :
    (s.withUnit index order n).sawTimeUnit = (s.sawTimeUnit || (s.inTime && n != 0)) := by
  unfold ParseState.withUnit
  split
  · next h => simp [h]
  · next h =>
    have hne : (n != 0) = true := by simpa using h
    rw [hne, Bool.and_true]

theorem values_withUnit (h : s.values index = 0) :
    (s.withUnit index order n).values = Function.update s.values index (n : Int) := by
  unfold ParseState.withUnit
  split
  · next hn =>
    subst hn
    rw [Nat.cast_zero, ← h, Function.update_eq_self]
  · rfl

variable {s order}

theorem lastOrder_withUnit (h : s.lastOrder < order) :
    (s.withUnit index order n).lastOrder ≤ order := by
  unfold ParseState.withUnit
  split
  · exact h.le
  · exact le_rfl

end WithUnit

theorem Reads.unit {s s' : ParseState} {n index order : Nat} {c : Char} {unitNanos : Option Nat}
    {rest : List Char} {t : Bool} (hn : n < 2 ^ 53) (hc : c.isDigit = false ∧ c ≠ '.' ∧ c ≠ ',')
    (hdesignator : designator t c = some (index, order, unitNanos)) (htime : s.inTime = t)
    (horder : s.lastOrder < order) (hfraction : s.fractionSeen = false)
    (h : Reads (s.withUnit index order n) rest s') : Reads s (unitText n c ++ rest) s' := by
  subst htime
  unfold ParseState.withUnit at h
  unfold unitText
  split at h
  · next hzero =>
    rw [if_neg (by simp [hzero])]
    exact h
  · next hne =>
    have hmin : min n (2 ^ 63 - 1) = n := min_eq_left (by omega)
    rw [if_pos hne, formatDurationNumber, hmin, List.append_assoc]
    have hparse : parseFraction (c :: rest) = some (none, c :: rest) := by
      rw [parseFraction, if_neg (by simp [hc.2.1, hc.2.2])]
    refine h.step ((parseStep_number hn hc.1 hparse hdesignator).trans ?_) ?_
    · rw [take_none horder hfraction]
      rfl
    · simp only [List.length_append, List.length_cons, List.length_nil]
      omega

/-- The seconds with their fraction. -/
theorem reads_number {s : ParseState} {total : Nat} (htotal : total / 1000000000 < 2 ^ 53)
    (htime : s.inTime = true) (horder : s.lastOrder < 7) (hseen : s.fractionSeen = false)
    (hzero : s.values 7 = 0 ∧ s.values 8 = 0 ∧ s.values 9 = 0) :
    ∃ s' : ParseState, Reads s (Nat.toDigits 10 (total / 1000000000)
        ++ ((if total % 1000000000 ≠ 0 then '.' :: fractionDigits (total % 1000000000) else [])
          ++ ['S'])) s'
      ∧ s'.sawUnit = true ∧ s'.sawTimeUnit = true ∧ (∀ u ≤ 5, s'.values u = s.values u)
      ∧ s'.values 6 * 1000000000 + s'.values 7 * 1000000 + s'.values 8 * 1000 + s'.values 9
        = total := by
  obtain ⟨h7, h8, h9⟩ := hzero
  have hdesignator : designator s.inTime 'S' = some (6, 7, some 1000000000) := by
    rw [htime]
    decide
  by_cases hwhole : total % 1000000000 = 0
  · have hparse : parseFraction ['S'] = some (none, ['S']) := rfl
    have hstep := parseStep_number htotal (by decide) hparse hdesignator
    rw [take_none horder hseen] at hstep
    rw [if_neg (by simp [hwhole]), List.nil_append]
    refine ⟨_, Reads.step hstep (by simp) (reads_nil _), rfl, by simp [htime], ?_, ?_⟩
    · intro u hu
      exact Function.update_of_ne (by omega) _ _
    · simp [Function.update, h7, h8, h9]
      omega
  · obtain ⟨k, hlen, hne, hvalue, hdigits⟩ := fractionDigits_spec hwhole
      (Nat.mod_lt total (by decide))
    have hparse : parseFraction ('.' :: (fractionDigits (total % 1000000000) ++ ['S']))
        = some (some (valueFrom 0 (fractionDigits (total % 1000000000)),
          10 ^ (fractionDigits (total % 1000000000)).length), ['S']) := by
      have hpos : (fractionDigits (total % 1000000000)).length ≠ 0 := by
        simpa [List.length_eq_zero_iff] using hne
      rw [parseFraction, if_pos (.inl rfl), takeWhile_digits hdigits (by decide),
        dropWhile_digits hdigits (by decide), if_neg (by omega)]
    have hstep := parseStep_number htotal (by decide) hparse hdesignator
    rw [take_some horder hseen, fraction_nanoseconds hwhole (Nat.mod_lt total (by decide))] at hstep
    rw [if_pos hwhole, List.cons_append]
    refine ⟨_, Reads.step hstep (by simp) (reads_nil _), rfl, by simp [htime], ?_, ?_⟩
    · intro u hu
      have hother : u ≠ 6 ∧ u ≠ 7 ∧ u ≠ 8 ∧ u ≠ 9 := by omega
      simp [spreadFraction, Function.update, hother.1, hother.2.1, hother.2.2.1, hother.2.2.2]
    · simp [spreadFraction, Function.update, h7, h8, h9]
      omega

/-! ### The whole text -/

/-- The state after the date. -/
def afterDate (n : Nat → Nat) : ParseState :=
  (((startState.withUnit 0 1 (n 0)).withUnit 1 2 (n 1)).withUnit 2 3 (n 2)).withUnit 3 4 (n 3)

def dateText (n : Nat → Nat) : List Char :=
  unitText (n 0) 'Y' ++ unitText (n 1) 'M' ++ unitText (n 2) 'W' ++ unitText (n 3) 'D'

variable {n : Nat → Nat}

theorem Reads.date {s' : ParseState} {rest : List Char} (hn : ∀ u < 4, n u < 2 ^ 53)
    (h : Reads (afterDate n) rest s') : Reads startState (dateText n ++ rest) s' := by
  have h1 : (startState.withUnit 0 1 (n 0)).lastOrder ≤ 1 :=
    lastOrder_withUnit 0 (n 0) (by decide)
  have h2 : ((startState.withUnit 0 1 (n 0)).withUnit 1 2 (n 1)).lastOrder ≤ 2 :=
    lastOrder_withUnit 1 (n 1) (by omega)
  have h3 : (((startState.withUnit 0 1 (n 0)).withUnit 1 2 (n 1)).withUnit 2 3 (n 2)).lastOrder
      ≤ 3 := lastOrder_withUnit 2 (n 2) (by omega)
  rw [dateText, List.append_assoc, List.append_assoc, List.append_assoc]
  refine Reads.unit (t := false) (hn 0 (by decide)) (by decide) rfl rfl (by decide) rfl ?_
  refine Reads.unit (t := false) (hn 1 (by decide)) (by decide) rfl (by simp [startState])
    (by omega) (by simp [startState]) ?_
  refine Reads.unit (t := false) (hn 2 (by decide)) (by decide) rfl (by simp [startState])
    (by omega) (by simp [startState]) ?_
  exact Reads.unit (t := false) (hn 3 (by decide)) (by decide) rfl (by simp [startState])
    (by omega) (by simp [startState]) h

theorem lastOrder_afterDate (n : Nat → Nat) : (afterDate n).lastOrder ≤ 4 := by
  refine lastOrder_withUnit 3 (n 3) (Nat.lt_succ_of_le ?_)
  refine lastOrder_withUnit 2 (n 2) (Nat.lt_succ_of_le ?_)
  exact lastOrder_withUnit 1 (n 1) (Nat.lt_succ_of_le (lastOrder_withUnit 0 (n 0) (by decide)))

theorem values_afterDate (n : Nat → Nat) (u : Nat) :
    (afterDate n).values u = if u < 4 then (n u : Int) else 0 := by
  have h0 : startState.values = 0 := rfl
  have h1 := values_withUnit startState 0 1 (n 0) rfl
  have h2 := values_withUnit (startState.withUnit 0 1 (n 0)) 1 2 (n 1) (by simp [h1, h0])
  have h3 := values_withUnit ((startState.withUnit 0 1 (n 0)).withUnit 1 2 (n 1)) 2 3 (n 2)
    (by simp [h2, h1, h0])
  rw [afterDate, values_withUnit _ 3 4 (n 3) (by simp [h3, h2, h1, h0]), h3, h2, h1, h0]
  rcases Nat.lt_or_ge u 4 with hu | hu
  · rw [if_pos hu]
    interval_cases u <;> simp
  · have hne : u ≠ 0 ∧ u ≠ 1 ∧ u ≠ 2 ∧ u ≠ 3 := by omega
    rw [if_neg (by omega)]
    simp [Function.update_of_ne, hne.1, hne.2.1, hne.2.2.1, hne.2.2.2]

/-- The state after the hours and minutes. -/
def afterMinutes (n : Nat → Nat) : ParseState :=
  (ParseState.withUnit { afterDate n with inTime := true } 4 5 (n 4)).withUnit 5 6 (n 5)

theorem Reads.hoursMinutes {s' : ParseState} {rest : List Char} (h4 : n 4 < 2 ^ 53)
    (h5 : n 5 < 2 ^ 53) (h : Reads (afterMinutes n) rest s') :
    Reads (afterDate n) ('T' :: (unitText (n 4) 'H' ++ unitText (n 5) 'M') ++ rest) s' := by
  have hlast := lastOrder_afterDate n
  have hseen : (afterDate n).fractionSeen = false := by simp [afterDate, startState]
  have hhours : (ParseState.withUnit { afterDate n with inTime := true } 4 5 (n 4)).lastOrder ≤ 5 :=
    lastOrder_withUnit 4 (n 4) (Nat.lt_succ_of_le hlast)
  rw [List.cons_append, List.append_assoc]
  refine Reads.time (by simp [afterDate, startState]) ?_
  refine Reads.unit (t := true) h4 (by decide) rfl rfl (Nat.lt_succ_of_le hlast) hseen ?_
  exact Reads.unit (t := true) h5 (by decide) rfl (by simp) (Nat.lt_succ_of_le hhours)
    (by simp [hseen]) h

theorem lastOrder_afterMinutes (n : Nat → Nat) : (afterMinutes n).lastOrder ≤ 6 :=
  lastOrder_withUnit 5 (n 5) (Nat.lt_succ_of_le
    (lastOrder_withUnit 4 (n 4) (Nat.lt_succ_of_le (lastOrder_afterDate n))))

theorem values_afterMinutes (n : Nat → Nat) (u : Nat) :
    (afterMinutes n).values u = if u < 6 then (n u : Int) else 0 := by
  have hdate := values_afterDate n
  have h4 := values_withUnit { afterDate n with inTime := true } 4 5 (n 4) (by simp [hdate])
  rw [afterMinutes, values_withUnit _ 5 6 (n 5) (by rw [h4]; simp [hdate]), h4]
  by_cases hfive : u = 5
  · subst hfive
    simp
  · rw [Function.update_of_ne hfive]
    by_cases hfour : u = 4
    · subst hfour
      simp
    · rw [Function.update_of_ne hfour, hdate]
      by_cases hu : u < 4
      · rw [if_pos hu, if_pos (by omega)]
      · rw [if_neg hu, if_neg (by omega)]

/-- The nanoseconds of the seconds and the units below. -/
def secondsTotal (n : Nat → Nat) : Nat :=
  n 6 * 1000000000 + n 7 * 1000000 + n 8 * 1000 + n 9

/-- The text at the place of the seconds: a number, a zero where there
would be no number at all after `T`, or nothing. -/
def secondsText (times : List Char) : Option (List Char) → List Char
  | some seconds => seconds ++ ['S']
  | none => if ('T' :: times).getLast? = some 'T' then ['0', 'S'] else []

def hasDate (n : Nat → Nat) : Bool :=
  (List.range 4).any fun u => n u != 0

def hasTime (n : Nat → Nat) : Bool :=
  (List.range' 4 6).any fun u => n u != 0

/-- The text after `P`. -/
def bodyText (n : Nat → Nat) : List Char :=
  if hasTime n || !hasDate n then
    dateText n ++ ('T' :: (unitText (n 4) 'H' ++ unitText (n 5) 'M')
      ++ secondsText (unitText (n 4) 'H' ++ unitText (n 5) 'M')
        (formatDurationSeconds (n 6) (n 7) (n 8) (n 9)))
  else dateText n

theorem durationToString_eq (v : DurationValues) :
    durationToString v = (if (List.range 10).any fun u => v u < 0 then ['-', 'P'] else ['P'])
      ++ bodyText fun u => (v u).natAbs := by
  rw [durationToString, bodyText, hasTime, hasDate, dateText]
  dsimp only
  generalize (if (List.range 10).any fun u => v u < 0 then ['-', 'P'] else ['P']) = sign
  generalize formatDurationSeconds (v 6).natAbs (v 7).natAbs (v 8).natAbs (v 9).natAbs = seconds
  have hlast : ∀ l m : List Char, (l ++ 'T' :: m).getLast? = ('T' :: m).getLast? := by
    intro l m
    rw [List.getLast?_append]
    simp [List.getLast?_cons]
  split
  · cases seconds with
    | some seconds => simp only [secondsText, List.append_assoc, List.cons_append]
    | none =>
      simp only [secondsText, hlast]
      split
      · simp only [List.append_assoc, List.cons_append]
      · simp only [List.append_assoc, List.append_nil]
  · rfl

theorem formatDurationSeconds_eq (n : Nat → Nat) :
    formatDurationSeconds (n 6) (n 7) (n 8) (n 9) =
      if secondsTotal n = 0 then none
      else some (Nat.toDigits 10 (secondsTotal n / 1000000000)
        ++ if secondsTotal n % 1000000000 ≠ 0 then
            '.' :: fractionDigits (secondsTotal n % 1000000000)
          else []) := by
  unfold formatDurationSeconds secondsTotal
  rfl

/-- What the reading of a text ends with. -/
structure Recovers (n : Nat → Nat) (s : ParseState) : Prop where
  sawUnit : s.sawUnit = true
  sawTimeUnit : s.inTime = true → s.sawTimeUnit = true
  values : ∀ u ≤ 5, s.values u = n u
  total : s.values 6 * 1000000000 + s.values 7 * 1000000 + s.values 8 * 1000 + s.values 9
    = secondsTotal n

/-- After `T`. -/
theorem reads_seconds (n : Nat → Nat) (htotal : secondsTotal n / 1000000000 < 2 ^ 53) :
    ∃ s', Reads (afterMinutes n) (secondsText (unitText (n 4) 'H' ++ unitText (n 5) 'M')
      (formatDurationSeconds (n 6) (n 7) (n 8) (n 9))) s' ∧ Recovers n s' := by
  have hvalues := values_afterMinutes n
  have htime : (afterMinutes n).inTime = true := by simp [afterMinutes]
  have hseen : (afterMinutes n).fractionSeen = false := by
    simp [afterMinutes, afterDate, startState]
  have horder : (afterMinutes n).lastOrder < 7 := Nat.lt_succ_of_le (lastOrder_afterMinutes n)
  obtain ⟨s', hread, hunit, htimeUnit, hkept, htotal'⟩ := reads_number htotal htime horder hseen
    ⟨by simp [hvalues], by simp [hvalues], by simp [hvalues]⟩
  have hrecovers : Recovers n s' :=
    ⟨hunit, fun _ => htimeUnit, fun u hu => by rw [hkept u hu, hvalues, if_pos (by omega)], htotal'⟩
  rw [formatDurationSeconds_eq]
  by_cases hzero : secondsTotal n = 0
  · rw [if_pos hzero, secondsText]
    split
    · rw [hzero] at hread
      exact ⟨s', hread, hrecovers⟩
    · next hlast =>
      have hprinted : n 4 ≠ 0 ∨ n 5 ≠ 0 := by
        by_contra hnone
        have h4 : n 4 = 0 := by omega
        have h5 : n 5 = 0 := by omega
        exact hlast (by simp [h4, h5, unitText])
      refine ⟨afterMinutes n, reads_nil _, ?_, fun _ => ?_, fun u hu => ?_, ?_⟩
      · rcases hprinted with h | h
        · simp [afterMinutes, h]
        · simp [afterMinutes, h]
      · rcases hprinted with h | h
        · simp [afterMinutes, h]
        · simp [afterMinutes, h]
      · rw [hvalues, if_pos (by omega)]
      · simp [hvalues, hzero]
  · rw [if_neg hzero, secondsText, List.append_assoc]
    exact ⟨s', hread, hrecovers⟩

theorem reads_body (n : Nat → Nat) (hn : ∀ u < 6, n u < 2 ^ 53)
    (htotal : secondsTotal n / 1000000000 < 2 ^ 53) :
    ∃ s', Reads startState (bodyText n) s' ∧ Recovers n s' := by
  have hdates : ∀ u < 4, n u < 2 ^ 53 := fun u hu => hn u (by omega)
  rw [bodyText]
  split
  · obtain ⟨s', hread, hrecovers⟩ := reads_seconds n htotal
    refine ⟨s', ?_, hrecovers⟩
    exact Reads.date hdates (Reads.hoursMinutes (hn 4 (by decide)) (hn 5 (by decide)) hread)
  · next hcond =>
    have htime : ∀ u, 4 ≤ u → u < 10 → n u = 0 := by
      intro u hlow hhigh
      by_contra hne
      refine hcond (Bool.or_eq_true_iff.2 (.inl ?_))
      exact List.any_eq_true.2 ⟨u, List.mem_range'_1.2 (by omega), by simpa using hne⟩
    have hdate : hasDate n = true := by
      by_contra hnone
      exact hcond (by simp [hnone])
    refine ⟨afterDate n, ?_, ?_, ?_, ?_, ?_⟩
    · have hread := Reads.date hdates (reads_nil (afterDate n))
      rwa [List.append_nil] at hread
    · obtain ⟨u, hu, hne⟩ := List.any_eq_true.1 hdate
      have hlt := List.mem_range.1 hu
      interval_cases u
      · simp [afterDate, hne]
      · simp [afterDate, hne]
      · simp [afterDate, hne]
      · simp [afterDate, hne]
    · intro h
      simp [afterDate, startState] at h
    · intro u hu
      rw [values_afterDate]
      split
      · rfl
      · rw [htime u (by omega) (by omega)]
        rfl
    · simp [values_afterDate, secondsTotal, htime]

/-- The loop over the body, and the sign. -/
theorem parseDurationString_body {body : List Char} {s' : ParseState}
    (hread : Reads startState body s') (hunit : s'.sawUnit = true)
    (htime : s'.inTime = true → s'.sawTimeUnit = true) (negative : Bool) :
    parseDurationString ((if negative then ['-', 'P'] else ['P']) ++ body)
      = some (if negative then -s'.values else s'.values) := by
  have hloop := hread body.length le_rfl
  cases negative with
  | true => simpa [parseDurationString, hloop] using ⟨hunit, htime⟩
  | false => simpa [parseDurationString, hloop] using ⟨hunit, htime⟩

/-- The components of a valid duration are small enough for a double. -/
theorem DurationValues.Valid.bounds {v : DurationValues} (hv : v.Valid) :
    (∀ u < 6, (v u).natAbs < 2 ^ 53)
      ∧ secondsTotal (fun u => (v u).natAbs) / 1000000000 < 2 ^ 53 := by
  have htimes := hv.times
  simp only [durationTimeNanoseconds, unitNanoseconds, maxTimeNanoseconds,
    Int.abs_eq_natAbs] at htimes
  have hsigns : (0 ≤ v 3 ∧ 0 ≤ v 4 ∧ 0 ≤ v 5 ∧ 0 ≤ v 6 ∧ 0 ≤ v 7 ∧ 0 ≤ v 8 ∧ 0 ≤ v 9)
      ∨ (v 3 ≤ 0 ∧ v 4 ≤ 0 ∧ v 5 ≤ 0 ∧ v 6 ≤ 0 ∧ v 7 ≤ 0 ∧ v 8 ≤ 0 ∧ v 9 ≤ 0) :=
    hv.oneSign.imp
      (fun h => ⟨h 3 (by decide), h 4 (by decide), h 5 (by decide), h 6 (by decide),
        h 7 (by decide), h 8 (by decide), h 9 (by decide)⟩)
      (fun h => ⟨h 3 (by decide), h 4 (by decide), h 5 (by decide), h 6 (by decide),
        h 7 (by decide), h 8 (by decide), h 9 (by decide)⟩)
  constructor
  · intro u hu
    rcases Nat.lt_or_ge u 3 with hdate | htime
    · have := hv.dates u hdate
      rw [Int.abs_eq_natAbs] at this
      omega
    · interval_cases u <;> omega
  · simp only [secondsTotal]
    omega

/-- **Durations come back from their text.** The text of every valid
duration is read, with the same years, months, weeks, days, hours and
minutes, and the same total of the seconds and what is below them. -/
theorem parseDurationString_durationToString (v : DurationValues) (hv : v.Valid) :
    ∃ r, parseDurationString (durationToString v) = some r ∧ (∀ u ≤ 5, r u = v u)
      ∧ r 6 * 1000000000 + r 7 * 1000000 + r 8 * 1000 + r 9
        = v 6 * 1000000000 + v 7 * 1000000 + v 8 * 1000 + v 9 := by
  obtain ⟨hsmall, htotal⟩ := hv.bounds
  obtain ⟨s', hread, hunit, htime, hvalues, hseconds⟩ := reads_body _ hsmall htotal
  have hparse := parseDurationString_body hread hunit htime ((List.range 10).any fun u => v u < 0)
  rw [durationToString_eq]
  refine ⟨_, hparse, ?_⟩
  simp only [secondsTotal] at hseconds
  push_cast at hseconds
  cases hneg : (List.range 10).any fun u => decide (v u < 0) with
  | false =>
    have hpos : ∀ u < 10, 0 ≤ v u := by
      intro u hu
      have := List.any_eq_false.1 hneg u (List.mem_range.2 hu)
      simpa using this
    simp only [Bool.false_eq_true, if_false]
    constructor
    · intro u hu
      rw [hvalues u hu, Int.natAbs_of_nonneg (hpos u (by omega))]
    · rw [hseconds, abs_of_nonneg (hpos 6 (by decide)), abs_of_nonneg (hpos 7 (by decide)),
        abs_of_nonneg (hpos 8 (by decide)), abs_of_nonneg (hpos 9 (by decide))]
  | true =>
    have hnonpos : ∀ u < 10, v u ≤ 0 := by
      obtain ⟨w, hw, hlt⟩ := List.any_eq_true.1 hneg
      rcases hv.oneSign with h | h
      · have := h w (List.mem_range.1 hw)
        simp only [decide_eq_true_eq] at hlt
        omega
      · exact h
    simp only [if_true, Pi.neg_apply]
    constructor
    · intro u hu
      have := hnonpos u (by omega)
      rw [hvalues u hu]
      omega
    · rw [abs_of_nonpos (hnonpos 6 (by decide)), abs_of_nonpos (hnonpos 7 (by decide)),
        abs_of_nonpos (hnonpos 8 (by decide)), abs_of_nonpos (hnonpos 9 (by decide))] at hseconds
      linarith

/-- Ninety minutes back and a number of milliseconds beyond its radix. -/
theorem parseDurationString_durationToString_carry :
    let v : DurationValues := fun u => if u = 5 then -90 else if u = 7 then -1250 else 0
    ∃ r, parseDurationString (durationToString v) = some r ∧ r 5 = -90
      ∧ r 6 * 1000000000 + r 7 * 1000000 + r 8 * 1000 + r 9 = -1250000000 := by
  intro v
  have hv : v.Valid := ⟨.inr (by decide), by decide, by decide⟩
  obtain ⟨r, hparse, hvalues, htotal⟩ := parseDurationString_durationToString v hv
  exact ⟨r, hparse, hvalues 5 le_rfl, htotal⟩

example : durationToString (fun u => if u = 5 then -90 else if u = 7 then -1250 else 0)
    = "-PT90M1.25S".toList := by decide +kernel

end OxideJS.Temporal
