import OxideJS.Lib.Nearest

/-!
`Math.sumPrecise` and the conversion between doubles and half precision. Doubles are bit
patterns here, since the code takes them apart and puts them together again. Every finite
double is an integer multiple of `2 ^ -1074`; `finiteToBigint` is that integer, the sum is
taken in the integers, and `exactSumToF64` rounds once at the end. `f64ToF16Bits` rounds
the mantissa of one double.

Both roundings are proved to be to the nearest number of the format, ties to even, with
overflow exactly from the midpoint above the largest one on, and half precision survives
the way through a double.
-/

namespace OxideJS.MathRounding

open Binary64

abbrev Bits := BitVec 64

def infinity : Bits := 0x7FF0000000000000

def negInfinity : Bits := 0xFFF0000000000000

def minusZero : Bits := 0x8000000000000000

def notANumber : Bits := 0x7FF8000000000000

def signField (x : Bits) : Bool := x >>> 63 == 1

def expField (x : Bits) : ℕ := ((x >>> 52) &&& 0x7FF).toNat

def mantField (x : Bits) : ℕ := (x &&& 0xFFFFFFFFFFFFF).toNat

def isNaN (x : Bits) : Bool := expField x == 0x7FF && mantField x != 0

/-- A finite double as a multiple of `2 ^ -1074`. -/
def finiteToBigint (x : Bits) : ℤ :=
  let exp := expField x
  let mant := mantField x
  let mag : ℕ :=
    if exp = 0 then mant
    else
      let ef : ℤ := exp - 1023
      ((1 <<< 52) ||| mant) <<< (ef + 1022).toNat
  if signField x then -mag else mag

/-- Rounds the multiple `s` of `2 ^ -1074`. The highest bit, which the code finds in the top digit,
is the binary logarithm. -/
def exactSumToF64 (s : ℤ) : Bits :=
  if s = 0 then 0
  else
    let signBit : Bits := if s < 0 then 1#64 <<< 63 else 0
    let a := s.natAbs
    let p := a.log2
    if p > 2097 then if s < 0 then negInfinity else infinity
    else if p < 52 then signBit ||| BitVec.ofNat 64 a
    else
      let shift := p - 52
      let keep :=
        if shift > 0 then
          let drop := a &&& (1 <<< shift) - 1
          let half := 1 <<< (shift - 1)
          if drop > half ∨ (drop = half ∧ (a >>> shift) &&& 1 = 1) then a >>> shift + 1
          else a >>> shift
        else a >>> shift
      let e : ℤ := p - 1074
      let (keep, e) := if keep = 1 <<< 53 then (keep >>> 1, e + 1) else (keep, e)
      if e > 1023 then if s < 0 then negInfinity else infinity
      else signBit ||| (BitVec.ofNat 64 (e + 1023).toNat <<< 52) |||
        BitVec.ofNat 64 (keep - (1 <<< 52))

/-- A 32-bit integer as a double. -/
def intToF64 (i : BitVec 32) : Bits :=
  if i = 0 then 0
  else
    let a := i.toInt.natAbs
    let p := a.log2
    (if i.toInt < 0 then 1#64 <<< 63 else 0) ||| (BitVec.ofNat 64 (p + 1023) <<< 52) |||
      BitVec.ofNat 64 (a <<< (52 - p) - 2 ^ 52)

inductive SumState
  | minusZero
  | finite
  | plusInf
  | minusInf
  | notANumber
  deriving DecidableEq

def sumStep (acc : SumState × ℤ) (x : Bits) : SumState × ℤ :=
  if isNaN x then (.notANumber, acc.2)
  else if x = infinity then
    (if acc.1 = .minusInf then .notANumber else .plusInf, acc.2)
  else if x = negInfinity then
    (if acc.1 = .plusInf then .notANumber else .minusInf, acc.2)
  else if x ≠ minusZero ∧ (acc.1 = .minusZero ∨ acc.1 = .finite) then
    (.finite, acc.2 + finiteToBigint x)
  else acc

def sumResult (acc : SumState × ℤ) : Bits :=
  match acc.1 with
  | .notANumber => notANumber
  | .plusInf => infinity
  | .minusInf => negInfinity
  | .minusZero => minusZero
  | .finite => exactSumToF64 acc.2

/-- What the iterator yields. -/
inductive Elem
  | int (i : BitVec 32)
  | double (x : Bits)
  | other

def Elem.number? : Elem → Option Bits
  | .int i => some (intToF64 i)
  | .double x => some x
  | .other => none

inductive SumError
  | rangeError (message : String)
  | typeError (message : String)
  | thrown (id : ℕ)
  deriving DecidableEq

/-- The result, and whether the iterator has been closed. -/
structure Outcome where
  result : Except SumError Bits
  closed : Bool

/-- The loop over an iterator that yields these elements and then ends, or throws. -/
def sumLoop (ending : Option ℕ) : List Elem → ℕ → SumState × ℤ → Outcome
  | [], _, acc =>
    match ending with
    | none => ⟨.ok (sumResult acc), false⟩
    | some err => ⟨.error (.thrown err), true⟩
  | elem :: rest, count, acc =>
    if count + 1 ≥ 2 ^ 53 then ⟨.error (.rangeError "too many elements"), true⟩
    else
      match elem.number? with
      | none => ⟨.error (.typeError "Math.sumPrecise requires Number elements"), true⟩
      | some x => sumLoop ending rest (count + 1) (sumStep acc x)

def mathSumPrecise (elems : List Elem) (ending : Option ℕ) : Outcome :=
  sumLoop ending elems 0 (.minusZero, 0)

/-! ### Bit patterns -/

theorem mantField_eq (x : Bits) : mantField x = x.toNat % 2 ^ 52 := by
  rw [mantField, BitVec.toNat_and]
  exact Nat.and_two_pow_sub_one_eq_mod x.toNat 52

theorem expField_eq (x : Bits) : expField x = x.toNat / 2 ^ 52 % 2 ^ 11 := by
  rw [expField, BitVec.toNat_and, BitVec.toNat_ushiftRight, Nat.shiftRight_eq_div_pow]
  exact Nat.and_two_pow_sub_one_eq_mod _ 11

theorem signField_iff (x : Bits) : signField x = true ↔ 2 ^ 63 ≤ x.toNat := by
  rw [signField, beq_iff_eq, ← BitVec.toNat_inj, BitVec.toNat_ushiftRight,
    Nat.shiftRight_eq_div_pow]
  have := x.isLt
  have h1 : (1 : Bits).toNat = 1 := rfl
  rw [h1]
  omega

/-- The fields put together. -/
def assemble (neg : Bool) (e m : ℕ) : Bits :=
  (if neg then 1#64 <<< 63 else 0) ||| (BitVec.ofNat 64 e <<< 52) ||| BitVec.ofNat 64 m

theorem toNat_assemble (neg : Bool) {e m : ℕ} (he : e < 2 ^ 11) (hm : m < 2 ^ 52) :
    (assemble neg e m).toNat = (if neg then 2 ^ 63 else 0) + e * 2 ^ 52 + m := by
  have hshift : (BitVec.ofNat 64 e <<< 52).toNat = e <<< 52 := by
    rw [BitVec.toNat_shiftLeft, BitVec.toNat_ofNat, Nat.mod_eq_of_lt (show e < 2 ^ 64 by omega),
      Nat.shiftLeft_eq]
    exact Nat.mod_eq_of_lt (by omega)
  have hmant : (BitVec.ofNat 64 m).toNat = m := by
    rw [BitVec.toNat_ofNat, Nat.mod_eq_of_lt (by omega)]
  have hlow : e <<< 52 ||| m = e * 2 ^ 52 + m := by
    rw [← Nat.shiftLeft_add_eq_or_of_lt hm, Nat.shiftLeft_eq]
  cases neg with
  | false => simp [assemble, hshift, hmant, hlow]
  | true =>
    have hsign : (1#64 <<< 63).toNat = 1 <<< 63 := by decide
    simp only [assemble, if_true, BitVec.toNat_or, hshift, hmant, hsign, Nat.lor_assoc, hlow]
    rw [← Nat.shiftLeft_add_eq_or_of_lt (by omega), Nat.shiftLeft_eq]
    omega

theorem fields_assemble (neg : Bool) {e m : ℕ} (he : e < 2 ^ 11) (hm : m < 2 ^ 52) :
    signField (assemble neg e m) = neg ∧ expField (assemble neg e m) = e ∧
      mantField (assemble neg e m) = m := by
  have hnat := toNat_assemble neg he hm
  refine ⟨?_, ?_, ?_⟩
  · rw [Bool.eq_iff_iff, signField_iff, hnat]
    cases neg <;> simp <;> omega
  · rw [expField_eq, hnat]
    cases neg <;> simp only [Bool.false_eq_true, if_false, if_true] <;> omega
  · rw [mantField_eq, hnat]
    cases neg <;> simp only [Bool.false_eq_true, if_false, if_true] <;> omega

/-- The magnitude of the integer a finite double stands for. -/
def magnitude (e m : ℕ) : ℕ := if e = 0 then m else (2 ^ 52 + m) * 2 ^ (e - 1)

theorem finiteToBigint_eq (x : Bits) : finiteToBigint x =
    if signField x then -(magnitude (expField x) (mantField x) : ℤ)
    else magnitude (expField x) (mantField x) := by
  have hm : mantField x < 2 ^ 52 := by
    rw [mantField_eq]
    exact Nat.mod_lt _ (by decide)
  have hmag : (if expField x = 0 then mantField x
      else ((1 <<< 52) ||| mantField x) <<< ((expField x : ℤ) - 1023 + 1022).toNat) =
      magnitude (expField x) (mantField x) := by
    rw [magnitude]
    split_ifs with he
    · rfl
    · rw [← Nat.shiftLeft_add_eq_or_of_lt hm, Nat.shiftLeft_eq, Nat.shiftLeft_eq, one_mul]
      congr 2
      omega
  simp only [finiteToBigint, hmag]

theorem finiteToBigint_assemble (neg : Bool) {e m : ℕ} (he : e < 2 ^ 11) (hm : m < 2 ^ 52) :
    finiteToBigint (assemble neg e m) =
      if neg then -(magnitude e m : ℤ) else magnitude e m := by
  obtain ⟨hs, he', hm'⟩ := fields_assemble neg he hm
  rw [finiteToBigint_eq, hs, he', hm']

/-! ### Rounding -/

/-- No multiple of `u` is nearer, and of two that are equally near the even one is taken. -/
theorem roundTo_closest {u : ℕ} (hu : 0 < u) (m j : ℕ) :
    (((roundTo u m * u : ℕ) : ℤ) - m).natAbs ≤ (((j * u : ℕ) : ℤ) - m).natAbs ∧
      ((((roundTo u m * u : ℕ) : ℤ) - m).natAbs = (((j * u : ℕ) : ℤ) - m).natAbs →
        j = roundTo u m ∨ roundTo u m % 2 = 0) := by
  have hm : m / u * u + m % u = m := Nat.div_add_mod' m u
  have hlt : m % u < u := Nat.mod_lt m hu
  have hj : (j + 1) * u ≤ m / u * u ∨ j = m / u ∨ j = m / u + 1 ∨ (m / u + 2) * u ≤ j * u := by
    rcases Nat.lt_trichotomy j (m / u) with h | h | h
    · exact .inl (Nat.mul_le_mul_right u h)
    · exact .inr (.inl h)
    · rcases Nat.eq_or_lt_of_le h with h | h
      · exact .inr (.inr (.inl h.symm))
      · exact .inr (.inr (.inr (Nat.mul_le_mul_right u h)))
  rw [roundTo]
  generalize m / u = q at *
  split_ifs with hcase
  · rcases hj with h | rfl | rfl | h
    · rw [Nat.add_mul] at h
      omega
    · exact ⟨le_rfl, fun _ => .inl rfl⟩
    · rw [Nat.add_mul]
      omega
    · rw [Nat.add_mul] at h
      omega
  · rw [Nat.add_mul]
    rcases hj with h | rfl | rfl | h
    · rw [Nat.add_mul] at h
      omega
    · omega
    · rw [Nat.add_mul]
      exact ⟨le_rfl, fun _ => .inl rfl⟩
    · rw [Nat.add_mul] at h
      omega

/-- A number of at most fifty-three significant bits is a multiple of the unit of `a`, or lies
outside of the binade of `a`. -/
theorem multiple_or_outside {a c f : ℕ} (ha : 52 ≤ a.log2) (hc : c < 2 ^ 53) :
    c * 2 ^ f < 2 ^ a.log2 ∨ 2 ^ (a.log2 + 1) < c * 2 ^ f ∨
      ∃ j, c * 2 ^ f = j * 2 ^ (a.log2 - 52) := by
  by_cases hf : a.log2 - 52 ≤ f
  · refine .inr (.inr ⟨c * 2 ^ (f - (a.log2 - 52)), ?_⟩)
    rw [Nat.mul_assoc, ← pow_add]
    congr 2
    omega
  · refine .inl ?_
    calc c * 2 ^ f < 2 ^ 53 * 2 ^ f := Nat.mul_lt_mul_of_pos_right hc (by positivity)
      _ = 2 ^ (53 + f) := (pow_add 2 53 f).symm
      _ ≤ 2 ^ a.log2 := Nat.pow_le_pow_right (by decide) (by omega)

theorem binade {a : ℕ} (ha : 52 ≤ a.log2) :
    2 ^ a.log2 = 2 ^ 52 * 2 ^ (a.log2 - 52) ∧ 2 ^ (a.log2 + 1) = 2 ^ 53 * 2 ^ (a.log2 - 52) ∧
      2 ^ a.log2 ≤ a ∧ a < 2 ^ (a.log2 + 1) := by
  have hne : a ≠ 0 := by
    rintro rfl
    simp at ha
  obtain ⟨hlo, hhi⟩ := (Nat.log2_eq_iff hne).mp rfl
  refine ⟨?_, ?_, hlo, hhi⟩ <;> rw [← pow_add] <;> congr 1 <;> omega

/-- The rounding of `m` to multiples of `u` is nearest also among numbers that are no multiples, if
these lie outside of two multiples around `m`. -/
theorem roundTo_nearest_of {u m lo hi y : ℕ} (hu : 0 < u) (hlo : lo * u ≤ m) (hhi : m ≤ hi * u)
    (hy : y < lo * u ∨ hi * u < y ∨ ∃ j, y = j * u) :
    (((roundTo u m * u : ℕ) : ℤ) - m).natAbs ≤ ((y : ℤ) - m).natAbs ∧
      ((((roundTo u m * u : ℕ) : ℤ) - m).natAbs = ((y : ℤ) - m).natAbs →
        y = roundTo u m * u ∨ roundTo u m % 2 = 0) := by
  have hbottom := (roundTo_closest hu m lo).1
  have htop := (roundTo_closest hu m hi).1
  rcases hy with h | h | ⟨j, rfl⟩
  · generalize roundTo u m * u = r at *
    omega
  · generalize roundTo u m * u = r at *
    omega
  · obtain ⟨hle, htie⟩ := roundTo_closest hu m j
    exact ⟨hle, fun heq => (htie heq).imp (fun hj => by rw [hj]) id⟩

/-- The rounding of `a` is a nearest number among those of fifty-three bits. -/
theorem roundTo_nearest {a c f : ℕ} (ha : 52 ≤ a.log2) (hc : c < 2 ^ 53) :
    let r := roundTo (2 ^ (a.log2 - 52)) a
    (((r * 2 ^ (a.log2 - 52) : ℕ) : ℤ) - a).natAbs ≤ (((c * 2 ^ f : ℕ) : ℤ) - a).natAbs ∧
      ((((r * 2 ^ (a.log2 - 52) : ℕ) : ℤ) - a).natAbs = (((c * 2 ^ f : ℕ) : ℤ) - a).natAbs →
        c * 2 ^ f = r * 2 ^ (a.log2 - 52) ∨ r % 2 = 0) := by
  obtain ⟨hlow, hhigh, hlo, hhi⟩ := binade ha
  have hy := multiple_or_outside (f := f) ha hc
  rw [hlow, hhigh] at hy
  exact roundTo_nearest_of (by positivity) (hlow ▸ hlo) (hhigh ▸ hhi.le) hy

theorem roundTo_width {a : ℕ} (ha : 52 ≤ a.log2) :
    2 ^ 52 ≤ roundTo (2 ^ (a.log2 - 52)) a ∧ roundTo (2 ^ (a.log2 - 52)) a ≤ 2 ^ 53 := by
  have hu : 0 < 2 ^ (a.log2 - 52) := by positivity
  obtain ⟨hlow, hhigh, hlo, hhi⟩ := binade ha
  exact ⟨mul_le_roundTo hu (hlow ▸ hlo), roundTo_le_mul hu (hhigh ▸ hhi.le)⟩

/-- The bits that are kept, rounded by those that are dropped. -/
theorem keep_eq (a shift : ℕ) :
    (if shift > 0 then
      if (a &&& (1 <<< shift) - 1) > 1 <<< (shift - 1) ∨
          ((a &&& (1 <<< shift) - 1) = 1 <<< (shift - 1) ∧ (a >>> shift) &&& 1 = 1) then
        a >>> shift + 1
      else a >>> shift
    else a >>> shift) = roundTo (2 ^ shift) a := by
  simp only [Nat.shiftLeft_eq, one_mul, Nat.and_two_pow_sub_one_eq_mod, Nat.and_one_is_mod,
    Nat.shiftRight_eq_div_pow, roundTo]
  rcases shift with _ | k
  · simp [Nat.mod_one]
  · have hpow : 2 ^ (k + 1) = 2 * 2 ^ k := by ring
    rw [if_pos (Nat.succ_pos k), Nat.add_sub_cancel]
    generalize a / 2 ^ (k + 1) = q
    generalize a % 2 ^ (k + 1) = d
    split_ifs with h1 h2 h2 <;> omega

/-- The rounding reaches the next power of two from the midpoint on. -/
theorem roundTo_eq_top_iff {a k : ℕ} (ha : a.log2 = k + 53) :
    roundTo (2 ^ (k + 1)) a = 2 ^ 53 ↔ (2 ^ 54 - 1) * 2 ^ k ≤ a := by
  have hne : a ≠ 0 := by
    rintro rfl
    simp at ha
  have hhi : a < 2 ^ 53 * (2 * 2 ^ k) := by
    calc a < 2 ^ (k + 53 + 1) := ((Nat.log2_eq_iff hne).mp ha).2
      _ = 2 ^ 53 * (2 * 2 ^ k) := by ring
  have hpos : 0 < 2 ^ k := Nat.two_pow_pos k
  rw [show 2 ^ (k + 1) = 2 * 2 ^ k by ring]
  generalize 2 ^ k = u at *
  have hm : a / (2 * u) * (2 * u) + a % (2 * u) = a := Nat.div_add_mod' a (2 * u)
  have hlt : a % (2 * u) < 2 * u := Nat.mod_lt a (by omega)
  have hq : a / (2 * u) < 2 ^ 53 := Nat.div_lt_of_lt_mul (by rw [Nat.mul_comm]; exact hhi)
  rw [roundTo]
  generalize a / (2 * u) = q at *
  generalize a % (2 * u) = d at *
  rcases Nat.eq_or_lt_of_le (Nat.le_sub_one_of_lt hq) with hq' | hq'
  · rw [hq'] at hm
    split_ifs with hc <;> omega
  · have hle : (q + 1) * (2 * u) ≤ (2 ^ 53 - 1) * (2 * u) := Nat.mul_le_mul_right _ hq'
    rw [Nat.add_mul] at hle
    generalize q * (2 * u) = qu at *
    split_ifs with hc <;> omega

theorem overflow_iff {a k : ℕ} (ha : a ≠ 0) :
    (a.log2 > k + 53 ∨ (a.log2 = k + 53 ∧ roundTo (2 ^ (a.log2 - 52)) a = 2 ^ 53)) ↔
      (2 ^ 54 - 1) * 2 ^ k ≤ a := by
  obtain ⟨hlo, hhi⟩ := (Nat.log2_eq_iff ha).mp rfl
  rcases Nat.lt_trichotomy a.log2 (k + 53) with h | h | h
  · have : a < (2 ^ 54 - 1) * 2 ^ k := by
      calc a < 2 ^ (a.log2 + 1) := hhi
        _ ≤ 2 ^ (53 + k) := Nat.pow_le_pow_right (by decide) (by omega)
        _ = 2 ^ 53 * 2 ^ k := pow_add 2 53 k
        _ ≤ (2 ^ 54 - 1) * 2 ^ k := Nat.mul_le_mul_right _ (by decide)
    omega
  · have hshift : a.log2 - 52 = k + 1 := by omega
    rw [← roundTo_eq_top_iff h, hshift]
    omega
  · have : (2 ^ 54 - 1) * 2 ^ k ≤ a := by
      calc (2 ^ 54 - 1) * 2 ^ k ≤ 2 ^ 54 * 2 ^ k := Nat.mul_le_mul_right _ (by decide)
        _ = 2 ^ (54 + k) := (pow_add 2 54 k).symm
        _ ≤ 2 ^ a.log2 := Nat.pow_le_pow_right (by decide) (by omega)
        _ ≤ a := hlo
    omega

/-- Rounding in another unit. -/
theorem roundTo_mul {w : ℕ} (hw : 0 < w) (u m : ℕ) : roundTo (u * w) (m * w) = roundTo u m := by
  have hlt : 2 * (m % u * w) < u * w ↔ 2 * (m % u) < u := by
    rw [← Nat.mul_assoc]
    exact Nat.mul_lt_mul_right hw
  have heq : 2 * (m % u * w) = u * w ↔ 2 * (m % u) = u := by
    rw [← Nat.mul_assoc]
    exact Nat.mul_left_inj hw.ne'
  simp only [roundTo, Nat.mul_mod_mul_right, Nat.mul_div_mul_right m u hw, hlt, heq]

theorem roundTo_eq_zero {u m : ℕ} (h : 2 * m < u) : roundTo u m = 0 := by
  rw [roundTo, Nat.mod_eq_of_lt (by omega), Nat.div_eq_of_lt (by omega), if_pos (.inl h)]

theorem roundTo_mul_self (m k : ℕ) : roundTo (2 ^ k) (m * 2 ^ k) = m := by
  rw [roundTo_of_dvd (Nat.two_pow_pos k) (Nat.mul_mod_left m (2 ^ k)),
    Nat.mul_div_cancel m (Nat.two_pow_pos k)]

/-- A number shifted so that its highest bit is that of a full mantissa. -/
theorem normalized_bounds {m : ℕ} (hm : m ≠ 0) (hp : m.log2 ≤ 52) :
    2 ^ 52 ≤ m * 2 ^ (52 - m.log2) ∧ m * 2 ^ (52 - m.log2) < 2 ^ 53 := by
  obtain ⟨hlo, hhi⟩ := (Nat.log2_eq_iff hm).mp rfl
  have hscale : 2 ^ m.log2 * 2 ^ (52 - m.log2) = 2 ^ 52 := by
    rw [← pow_add, Nat.add_sub_cancel' hp]
  constructor
  · rw [← hscale]
    exact Nat.mul_le_mul_right _ hlo
  · calc m * 2 ^ (52 - m.log2) < 2 ^ (m.log2 + 1) * 2 ^ (52 - m.log2) :=
          Nat.mul_lt_mul_of_pos_right hhi (by positivity)
      _ = 2 ^ 53 := by rw [pow_succ, Nat.mul_right_comm, hscale]; rfl

/-- The midpoint between the largest double and the next power of two. -/
def overflowBound : ℕ := (2 ^ 54 - 1) * 2 ^ 2044

def IsFinite (x : Bits) : Prop := expField x ≠ 0x7FF

/-- Of the finite numbers of a format, `x` is nearest to `s`: none is nearer, and if another one is
as near, `x` is even. -/
structure ClosestIn {α : Type} (value : α → ℤ) (isFin isEven : α → Prop) (s : ℤ) (x : α) :
    Prop where
  finite : isFin x
  nearest : ∀ y, isFin y → (value x - s).natAbs ≤ (value y - s).natAbs
  even : ∀ y, isFin y → value y ≠ value x →
    (value x - s).natAbs = (value y - s).natAbs → isEven x

/-- A number with the sign of `s` whose magnitude is nearest to that of `s` is nearest to `s`. -/
theorem ClosestIn.of_magnitude {α : Type} {value : α → ℤ} {isFin isEven : α → Prop} {s : ℤ} {x : α}
    {r : ℕ} (hfin : isFin x) (hx : value x = if s < 0 then -(r : ℤ) else r)
    (hzero : ((r : ℤ) - s.natAbs).natAbs ≤ s.natAbs)
    (hle : ∀ y, isFin y →
      ((r : ℤ) - s.natAbs).natAbs ≤ (((value y).natAbs : ℤ) - s.natAbs).natAbs)
    (htie : ∀ y, isFin y → (value y).natAbs ≠ r →
      ((r : ℤ) - s.natAbs).natAbs = (((value y).natAbs : ℤ) - s.natAbs).natAbs → isEven x) :
    ClosestIn value isFin isEven s x := by
  refine ⟨hfin, fun y hy => ?_, fun y hy hne heq => ?_⟩
  · have := hle y hy
    rw [hx]
    split_ifs <;> omega
  · have := hle y hy
    refine htie y hy ?_ ?_
    · intro hmag
      apply hne
      rw [hx] at heq ⊢
      split_ifs at heq ⊢ <;> omega
    · rw [hx] at heq
      split_ifs at heq <;> omega

/-- The double nearest to a multiple of `2 ^ -1074`. -/
abbrev Closest : ℤ → Bits → Prop :=
  ClosestIn finiteToBigint IsFinite fun x => mantField x % 2 = 0

/-- The integer of a double has fifty-three significant bits. -/
theorem exists_of_finiteToBigint (y : Bits) :
    ∃ c f : ℕ, c < 2 ^ 53 ∧ (finiteToBigint y).natAbs = c * 2 ^ f := by
  have hm : mantField y < 2 ^ 52 := by
    rw [mantField_eq]
    exact Nat.mod_lt _ (by decide)
  have habs : (finiteToBigint y).natAbs = magnitude (expField y) (mantField y) := by
    rw [finiteToBigint_eq]
    split_ifs <;> simp
  rw [habs, magnitude]
  split_ifs
  · exact ⟨mantField y, 0, by omega, by simp⟩
  · exact ⟨2 ^ 52 + mantField y, expField y - 1, by omega, rfl⟩

theorem Closest.of_magnitude {s : ℤ} {neg : Bool} {e m : ℕ}
    (hneg : neg = decide (s < 0)) (he : e < 0x7FF) (hm : m < 2 ^ 52)
    (hle : ∀ c f : ℕ, c < 2 ^ 53 →
      ((magnitude e m : ℤ) - s.natAbs).natAbs ≤ (((c * 2 ^ f : ℕ) : ℤ) - s.natAbs).natAbs)
    (htie : ∀ c f : ℕ, c < 2 ^ 53 → magnitude e m ≠ c * 2 ^ f →
      ((magnitude e m : ℤ) - s.natAbs).natAbs = (((c * 2 ^ f : ℕ) : ℤ) - s.natAbs).natAbs →
        m % 2 = 0) : Closest s (assemble neg e m) := by
  have he' : e < 2 ^ 11 := by omega
  obtain ⟨-, hexp, hmant⟩ := fields_assemble neg he' hm
  refine ClosestIn.of_magnitude (r := magnitude e m) ?_ ?_ ?_ (fun y _ => ?_) fun y _ hne heq => ?_
  · rw [IsFinite, hexp]
    omega
  · rw [finiteToBigint_assemble neg he' hm, hneg]
    simp
  · have hzero := hle 0 0 (by decide)
    rw [Nat.zero_mul] at hzero
    omega
  · obtain ⟨c, f, hc, hy⟩ := exists_of_finiteToBigint y
    rw [hy]
    exact hle c f hc
  · obtain ⟨c, f, hc, hy⟩ := exists_of_finiteToBigint y
    rw [hy] at hne heq
    rw [hmant]
    exact htie c f hc hne.symm heq

theorem magnitude_zero (m : ℕ) : magnitude 0 m = m := if_pos rfl

/-- A mantissa with its leading bit and the exponent it is packed with. -/
theorem magnitude_normal {keep shift : ℕ} (hlo : 2 ^ 52 ≤ keep) :
    magnitude (shift + 1) (keep - 2 ^ 52) = keep * 2 ^ shift := by
  rw [magnitude, if_neg (Nat.succ_ne_zero shift), Nat.add_sub_cancel' hlo, Nat.add_sub_cancel]

/-- What `exactSumToF64` returns. -/
theorem exactSumToF64_cases {s : ℤ} (hs : s ≠ 0) :
    exactSumToF64 s =
      if s.natAbs.log2 < 52 then assemble (decide (s < 0)) 0 s.natAbs
      else
        let r := roundTo (2 ^ (s.natAbs.log2 - 52)) s.natAbs
        if s.natAbs.log2 > 2097 ∨ (s.natAbs.log2 = 2097 ∧ r = 2 ^ 53) then
          if s < 0 then negInfinity else infinity
        else if r = 2 ^ 53 then assemble (decide (s < 0)) (s.natAbs.log2 - 50) 0
        else assemble (decide (s < 0)) (s.natAbs.log2 - 51) (r - 2 ^ 52) := by
  have hsign : (if s < 0 then 1#64 <<< 63 else 0) =
      (if decide (s < 0) = true then 1#64 <<< 63 else 0) := by simp
  have hpow : (1 <<< 53 : ℕ) = 2 ^ 53 := by decide
  have hpow' : (1 <<< 52 : ℕ) = 2 ^ 52 := by decide
  simp only [exactSumToF64, if_neg hs, keep_eq, hsign, hpow, hpow', assemble]
  generalize (if decide (s < 0) = true then 1#64 <<< 63 else 0) = sign
  generalize (if s < 0 then negInfinity else infinity) = inf
  generalize s.natAbs.log2 = p
  by_cases h52 : p < 52
  · rw [if_neg (by omega), if_pos h52, if_pos h52]
    simp
  · rw [if_neg h52, if_neg h52]
    by_cases hp : p > 2097
    · rw [if_pos hp, if_pos (.inl hp)]
    · rw [if_neg hp]
      by_cases hr : roundTo (2 ^ (p - 52)) s.natAbs = 2 ^ 53
      · simp only [hr, if_true, and_true]
        by_cases htop : p = 2097
        · rw [if_pos (by omega), if_pos (.inr htop)]
        · rw [if_neg (by omega), if_neg (by omega)]
          have : ((p : ℤ) - 1074 + 1 + 1023).toNat = p - 50 := by omega
          rw [this]
          rfl
      · simp only [hr, if_false, and_false, or_false]
        rw [if_neg (by omega), if_neg hp]
        have : ((p : ℤ) - 1074 + 1023).toNat = p - 51 := by omega
        rw [this]

/-- One rounding, to the nearest double, or to an infinity from the midpoint above the largest
double on. -/
theorem exactSumToF64_spec (s : ℤ) :
    (s.natAbs < overflowBound → Closest s (exactSumToF64 s)) ∧
      ((overflowBound : ℤ) ≤ s → exactSumToF64 s = infinity) ∧
      (s ≤ -(overflowBound : ℤ) → exactSumToF64 s = negInfinity) := by
  have hbound : 0 < overflowBound := by
    rw [overflowBound]
    positivity
  by_cases hs : s = 0
  · subst hs
    refine ⟨fun _ => ?_, fun h => ?_, fun h => ?_⟩
    · exact @Closest.of_magnitude 0 false 0 0 rfl (by decide) (by decide)
        (by simp [magnitude]) (by simp)
    · omega
    · omega
  · rw [exactSumToF64_cases hs]
    generalize ha : s.natAbs = a
    have hne : a ≠ 0 := by omega
    obtain ⟨hlo, hhi⟩ := (Nat.log2_eq_iff hne).mp rfl
    by_cases h52 : a.log2 < 52
    · -- the sum is its own mantissa
      have hsmall : a < 2 ^ 52 := hhi.trans_le (Nat.pow_le_pow_right (by decide) h52)
      have : 2 ^ 52 ≤ overflowBound := by
        rw [overflowBound]
        exact (by decide : 2 ^ 52 ≤ 2 ^ 54 - 1).trans (Nat.le_mul_of_pos_right _ (by positivity))
      rw [if_pos h52]
      refine ⟨fun _ => ?_, fun h => by omega, fun h => by omega⟩
      refine Closest.of_magnitude rfl (by decide) hsmall ?_ ?_
      · intro c f _
        rw [magnitude_zero, ha]
        simp
      · intro c f _ hne' heq
        rw [magnitude_zero, ha] at heq
        rw [magnitude_zero] at hne'
        omega
    · rw [if_neg h52]
      have h52' : 52 ≤ a.log2 := Nat.le_of_not_lt h52
      obtain ⟨hwlo, hwhi⟩ := roundTo_width h52'
      have hnear (c f : ℕ) (hc : c < 2 ^ 53) := roundTo_nearest (f := f) h52' hc
      dsimp only at hnear ⊢
      have hiff : _ ↔ overflowBound ≤ a := overflow_iff (k := 2044) hne
      generalize roundTo (2 ^ (a.log2 - 52)) a = r at *
      by_cases hover : a.log2 > 2097 ∨ (a.log2 = 2097 ∧ r = 2 ^ 53)
      · have hge : overflowBound ≤ a := hiff.mp hover
        rw [if_pos hover]
        refine ⟨fun h => by omega, fun h => ?_, fun h => ?_⟩
        · rw [if_neg (by omega)]
        · rw [if_pos (by omega)]
      · have hlt : a < overflowBound := Nat.lt_of_not_le fun h => hover (hiff.mpr h)
        rw [if_neg hover]
        refine ⟨fun _ => ?_, fun h => by omega, fun h => by omega⟩
        by_cases hcarry : r = 2 ^ 53
        · -- the carry goes into the exponent
          rw [if_pos hcarry]
          have hmag : magnitude (a.log2 - 50) 0 = r * 2 ^ (a.log2 - 52) := by
            have hnormal := @magnitude_normal (2 ^ 52) (a.log2 - 52 + 1) le_rfl
            rw [Nat.sub_self, show a.log2 - 52 + 1 + 1 = a.log2 - 50 by omega] at hnormal
            rw [hnormal, hcarry, pow_succ']
            ring
          refine Closest.of_magnitude rfl (by omega) (by decide) ?_ ?_
          · intro c f hc
            rw [hmag, ha]
            exact (hnear c f hc).1
          · intros
            rfl
        · rw [if_neg hcarry]
          have hmag : magnitude (a.log2 - 51) (r - 2 ^ 52) = r * 2 ^ (a.log2 - 52) := by
            rw [show a.log2 - 51 = a.log2 - 52 + 1 by omega, magnitude_normal hwlo]
          refine Closest.of_magnitude rfl (by omega) (by omega) ?_ ?_
          · intro c f hc
            rw [hmag, ha]
            exact (hnear c f hc).1
          · intro c f hc hne' heq
            rw [hmag, ha] at heq
            rw [hmag] at hne'
            rcases (hnear c f hc).2 heq with h | h
            · exact (hne' h.symm).elim
            · omega

/-! ### The loop -/

instance : DecidablePred IsFinite := fun x => inferInstanceAs (Decidable (expField x ≠ 0x7FF))

theorem IsFinite.not_special {x : Bits} (h : IsFinite x) :
    isNaN x = false ∧ x ≠ infinity ∧ x ≠ negInfinity := by
  refine ⟨?_, ?_, ?_⟩
  · simp only [isNaN, Bool.and_eq_false_iff, beq_eq_false_iff_ne]
    exact .inl h
  · rintro rfl
    exact h (by decide)
  · rintro rfl
    exact h (by decide)

theorem finiteToBigint_minusZero : finiteToBigint minusZero = 0 := by decide

def numbers (elems : List Elem) : List Bits := elems.filterMap Elem.number?

theorem sumLoop_eq {elems : List Elem} {count : ℕ} (acc : SumState × ℤ)
    (hlen : count + elems.length < 2 ^ 53) :
    sumLoop none elems count acc =
      if ∀ e ∈ elems, e.number?.isSome then
        ⟨.ok (sumResult ((numbers elems).foldl sumStep acc)), false⟩
      else ⟨.error (.typeError "Math.sumPrecise requires Number elements"), true⟩ := by
  induction elems generalizing count acc with
  | nil => simp [sumLoop, numbers]
  | cons elem rest ih =>
    have hcount : ¬count + 1 ≥ 2 ^ 53 := by
      simp only [List.length_cons] at hlen
      omega
    rw [sumLoop, if_neg hcount]
    rcases hx : elem.number? with _ | x
    · simp [hx]
    · have hrest : count + 1 + rest.length < 2 ^ 53 := by
        simp only [List.length_cons] at hlen
        omega
      dsimp only
      rw [ih (sumStep acc x) hrest]
      simp [numbers, hx]

/-- The state and the sum after a list that has no NaN and at most one of the infinities. -/
theorem foldl_sumStep {xs : List Bits} (hnan : ∀ x ∈ xs, isNaN x = false)
    (hinf : ¬(infinity ∈ xs ∧ negInfinity ∈ xs)) :
    let acc := xs.foldl sumStep (.minusZero, 0)
    (infinity ∈ xs → acc.1 = .plusInf) ∧ (negInfinity ∈ xs → acc.1 = .minusInf) ∧
      (infinity ∉ xs → negInfinity ∉ xs →
        acc = (if ∀ x ∈ xs, x = minusZero then .minusZero else .finite,
          (xs.map finiteToBigint).sum)) := by
  induction xs using List.reverseRecOn with
  | nil => simp
  | append_singleton xs x ih =>
    have hmem (y : Bits) : y ∈ xs ++ [x] ↔ y ∈ xs ∨ y = x := by simp
    have hx := hnan x (by simp)
    obtain ⟨hplus, hminus, hfin⟩ := ih (fun y hy => hnan y (by simp [hy]))
      (fun h => hinf ⟨by simp [h.1], by simp [h.2]⟩)
    simp only [List.foldl_append, List.foldl_cons, List.foldl_nil]
    generalize xs.foldl sumStep (.minusZero, 0) = acc at *
    have hstate : infinity ∉ xs → negInfinity ∉ xs → acc.1 = .minusZero ∨ acc.1 = .finite := by
      intro h1 h2
      rw [hfin h1 h2]
      dsimp only
      split_ifs <;> simp
    rw [sumStep, hx]
    by_cases h1 : x = infinity
    · subst h1
      have hneg : negInfinity ∉ xs := fun h => hinf ⟨by simp, by simp [h]⟩
      have hne : acc.1 ≠ .minusInf := by
        by_cases hp : infinity ∈ xs
        · simp [hplus hp]
        · rcases hstate hp hneg with h | h <;> simp [h]
      have hdiff : negInfinity ≠ infinity := by decide
      simp [hne, hneg, hdiff]
    · by_cases h2 : x = negInfinity
      · subst h2
        have hpos : infinity ∉ xs := fun h => hinf ⟨by simp [h], by simp⟩
        have hne : acc.1 ≠ .plusInf := by
          by_cases hn : negInfinity ∈ xs
          · simp [hminus hn]
          · rcases hstate hpos hn with h | h <;> simp [h]
        have hdiff : negInfinity ≠ infinity := by decide
        simp [hne, hpos, hdiff, hdiff.symm]
      · simp only [Bool.false_eq_true, if_false, h1, h2, hmem, Ne.symm h1, Ne.symm h2, or_false]
        refine ⟨fun h => ?_, fun h => ?_, fun hp hn => ?_⟩
        · simp [hplus h]
        · simp [hminus h]
        · have hst := hstate hp hn
          have hacc := hfin hp hn
          by_cases hz : x = minusZero
          · subst hz
            have hiff : (∀ y, y ∈ xs ∨ y = minusZero → y = minusZero) ↔
                ∀ y ∈ xs, y = minusZero :=
              ⟨fun h y hy => h y (.inl hy), fun h y hy => hy.elim (h y) id⟩
            rw [if_neg (by simp), hacc]
            simp only [hiff, List.map_append, List.map_cons, List.map_nil, List.sum_append,
              List.sum_cons, List.sum_nil, finiteToBigint_minusZero, add_zero]
          · have : ¬∀ y, y ∈ xs ∨ y = x → y = minusZero := fun h => hz (h x (.inr rfl))
            simp only [ne_eq, hz, not_false_eq_true, true_and, hst, if_true, this, if_false]
            simp [hacc]

/-- On finite numbers that are not all `-0`, the result is the double nearest to the exact sum, and
an infinity exactly from the midpoint above the largest double on. -/
theorem sumPrecise_nearest (elems : List Elem) (hnum : ∀ e ∈ elems, e.number?.isSome)
    (hlen : elems.length < 2 ^ 53) (hfin : ∀ x ∈ numbers elems, IsFinite x)
    (hne : ∃ x ∈ numbers elems, x ≠ minusZero) :
    ∃ b, mathSumPrecise elems none = ⟨.ok b, false⟩ ∧
      let s := ((numbers elems).map finiteToBigint).sum
      (s.natAbs < overflowBound → Closest s b) ∧ ((overflowBound : ℤ) ≤ s → b = infinity) ∧
        (s ≤ -(overflowBound : ℤ) → b = negInfinity) := by
  have hspecial (x : Bits) (hx : x ∈ numbers elems) := (hfin x hx).not_special
  have hpos : infinity ∉ numbers elems := fun h => (hspecial _ h).2.1 rfl
  have hneg : negInfinity ∉ numbers elems := fun h => (hspecial _ h).2.2 rfl
  obtain ⟨-, -, hacc⟩ := foldl_sumStep (fun x hx => (hspecial x hx).1) fun h => hpos h.1
  have hall : ¬∀ x ∈ numbers elems, x = minusZero := by
    rintro h
    obtain ⟨x, hx, hxne⟩ := hne
    exact hxne (h x hx)
  refine ⟨exactSumToF64 ((numbers elems).map finiteToBigint).sum, ?_, exactSumToF64_spec _⟩
  rw [mathSumPrecise, sumLoop_eq _ (by omega), if_pos hnum, hacc hpos hneg, if_neg hall]
  rfl

/-- The sum of `1` and `-0`. -/
theorem sumPrecise_nearest_one :
    let elems := [.double 0x3FF0000000000000#64, .double minusZero]
    let s := ((numbers elems).map finiteToBigint).sum
    s.natAbs < overflowBound ∧
      ∃ b, mathSumPrecise elems none = ⟨.ok b, false⟩ ∧ Closest s b := by
  intro elems s
  have hnumbers : numbers elems = [0x3FF0000000000000#64, minusZero] := rfl
  have hone : IsFinite 0x3FF0000000000000#64 := by decide
  have hzero : IsFinite minusZero := by decide
  have hne : 0x3FF0000000000000#64 ≠ minusZero := by decide
  have hsmall : s.natAbs < overflowBound := by decide +kernel
  obtain ⟨b, h, hclosest, -⟩ := sumPrecise_nearest elems (by simp [elems, Elem.number?])
    (by decide) (by simp [hnumbers, hone, hzero]) (by simp [hnumbers, hne])
  exact ⟨hsmall, b, h, hclosest hsmall⟩

/-- The order of the elements does not matter where there is no NaN and at most one of the
infinities. -/
theorem sumPrecise_perm (elems elems' : List Elem) (hperm : elems.Perm elems')
    (hlen : elems.length < 2 ^ 53) (hnan : ∀ x ∈ numbers elems, isNaN x = false)
    (hinf : ¬(infinity ∈ numbers elems ∧ negInfinity ∈ numbers elems)) :
    mathSumPrecise elems none = mathSumPrecise elems' none := by
  have hnums : (numbers elems).Perm (numbers elems') := hperm.filterMap _
  have hmem (x : Bits) : x ∈ numbers elems ↔ x ∈ numbers elems' := hnums.mem_iff
  have hlen' : elems'.length < 2 ^ 53 := hperm.length_eq ▸ hlen
  obtain ⟨hp, hn, hf⟩ := foldl_sumStep hnan hinf
  obtain ⟨hp', hn', hf'⟩ := @foldl_sumStep (numbers elems')
    (fun x hx => hnan x ((hmem x).mpr hx)) (by simpa only [← hmem] using hinf)
  have hresult : sumResult ((numbers elems).foldl sumStep (.minusZero, 0)) =
      sumResult ((numbers elems').foldl sumStep (.minusZero, 0)) := by
    by_cases h1 : infinity ∈ numbers elems
    · rw [sumResult, sumResult, hp h1, hp' ((hmem _).mp h1)]
    · by_cases h2 : negInfinity ∈ numbers elems
      · rw [sumResult, sumResult, hn h2, hn' ((hmem _).mp h2)]
      · rw [hf h1 h2, hf' (by rwa [← hmem]) (by rwa [← hmem])]
        simp only [hmem, (hnums.map finiteToBigint).sum_eq]
  have hall : (∀ e ∈ elems, e.number?.isSome = true) ↔ ∀ e ∈ elems', e.number?.isSome = true := by
    simp only [hperm.mem_iff]
  rw [mathSumPrecise, mathSumPrecise, sumLoop_eq _ (by omega), sumLoop_eq _ (by omega), hresult]
  simp only [hall]

theorem sumPrecise_perm_two :
    mathSumPrecise [.double minusZero, .double infinity] none =
      mathSumPrecise [.double infinity, .double minusZero] none := by
  have hnumbers : numbers [.double minusZero, .double infinity] = [minusZero, infinity] := rfl
  have hzero : isNaN minusZero = false := by decide
  have hinf : isNaN infinity = false := by decide
  have hne : negInfinity ≠ minusZero ∧ negInfinity ≠ infinity := by decide
  exact sumPrecise_perm _ _ (List.Perm.swap _ _ _) (by decide) (by simp [hnumbers, hzero, hinf])
    (by simp [hnumbers, hne])

-- the state of a NaN is left again when an infinity follows
example : mathSumPrecise [.double notANumber, .double infinity] none = ⟨.ok infinity, false⟩ ∧
    mathSumPrecise [.double infinity, .double notANumber] none = ⟨.ok notANumber, false⟩ :=
  ⟨rfl, rfl⟩

/-! ### Half precision -/

abbrev HalfBits := BitVec 16

def halfSign (h : HalfBits) : Bool := h >>> 15 == 1

def halfExp (h : HalfBits) : ℕ := ((h >>> 10) &&& 0x1F).toNat

def halfMant (h : HalfBits) : ℕ := (h &&& 0x3FF).toNat

/-- `significand` without its last `shift` bits, rounded by them. -/
def roundBits (significand shift : ℕ) : ℕ :=
  let dropped := significand &&& (1 <<< shift) - 1
  let half := 1 <<< (shift - 1)
  let q := significand >>> shift
  if dropped > half ∨ (dropped = half ∧ q &&& 1 = 1) then q + 1 else q

def f64ToF16Bits (x : Bits) : HalfBits :=
  let sign : HalfBits := if signField x then 1 else 0
  let exp := expField x
  let mant := mantField x
  if exp = 0 then sign <<< 15
  else if exp = 0x7FF then sign <<< 15 ||| 0x7C00 ||| (if mant = 0 then 0 else 0x200)
  else
    let e : ℤ := exp - 1023
    let significand := (1 <<< 52) ||| mant
    if e > 15 then sign <<< 15 ||| 0x7C00
    else if e ≥ -14 then
      let q := roundBits significand 42
      if q = 1 <<< 11 then
        if e + 1 > 15 then sign <<< 15 ||| 0x7C00
        else sign <<< 15 ||| BitVec.ofNat 16 (e + 1 + 15).toNat <<< 10
      else sign <<< 15 ||| BitVec.ofNat 16 (e + 15).toNat <<< 10 ||| BitVec.ofNat 16 (q &&& 0x3FF)
    else if e < -25 then sign <<< 15
    else
      let q := roundBits significand (28 - e).toNat
      if q = 1024 then sign <<< 15 ||| 1#16 <<< 10 else sign <<< 15 ||| BitVec.ofNat 16 q

/-- The arithmetic of the code is exact here: the double is the one with that value. -/
def f16BitsToF64 (h : HalfBits) : Bits :=
  let sign := halfSign h
  let exp := halfExp h
  let mant := halfMant h
  if exp = 0 then
    if mant = 0 then assemble sign 0 0
    else assemble sign (mant.log2 + 999) (mant * 2 ^ (52 - mant.log2) - 2 ^ 52)
  else if exp = 0x1F then
    if mant = 0 then if sign then negInfinity else infinity
    else notANumber
  else assemble sign (exp + 1008) (mant * 2 ^ 42)

def mathF16round (x : Bits) : Bits := f16BitsToF64 (f64ToF16Bits x)

/-- The fields of a half put together. -/
def assembleHalf (neg : Bool) (e m : ℕ) : HalfBits :=
  (if neg then 1#16 else 0) <<< 15 ||| (BitVec.ofNat 16 e <<< 10) ||| BitVec.ofNat 16 m

theorem halfMant_eq (h : HalfBits) : halfMant h = h.toNat % 2 ^ 10 := by
  rw [halfMant, BitVec.toNat_and]
  exact Nat.and_two_pow_sub_one_eq_mod h.toNat 10

theorem halfExp_eq (h : HalfBits) : halfExp h = h.toNat / 2 ^ 10 % 2 ^ 5 := by
  rw [halfExp, BitVec.toNat_and, BitVec.toNat_ushiftRight, Nat.shiftRight_eq_div_pow]
  exact Nat.and_two_pow_sub_one_eq_mod _ 5

theorem halfSign_iff (h : HalfBits) : halfSign h = true ↔ 2 ^ 15 ≤ h.toNat := by
  rw [halfSign, beq_iff_eq, ← BitVec.toNat_inj, BitVec.toNat_ushiftRight,
    Nat.shiftRight_eq_div_pow]
  have := h.isLt
  have h1 : (1 : HalfBits).toNat = 1 := rfl
  rw [h1]
  omega

theorem toNat_assembleHalf (neg : Bool) {e m : ℕ} (he : e < 2 ^ 5) (hm : m < 2 ^ 10) :
    (assembleHalf neg e m).toNat = (if neg then 2 ^ 15 else 0) + e * 2 ^ 10 + m := by
  have hshift : (BitVec.ofNat 16 e <<< 10).toNat = e <<< 10 := by
    rw [BitVec.toNat_shiftLeft, BitVec.toNat_ofNat, Nat.mod_eq_of_lt (show e < 2 ^ 16 by omega),
      Nat.shiftLeft_eq]
    exact Nat.mod_eq_of_lt (by omega)
  have hmant : (BitVec.ofNat 16 m).toNat = m := by
    rw [BitVec.toNat_ofNat, Nat.mod_eq_of_lt (by omega)]
  have hlow : e <<< 10 ||| m = e * 2 ^ 10 + m := by
    rw [← Nat.shiftLeft_add_eq_or_of_lt hm, Nat.shiftLeft_eq]
  cases neg with
  | false => simp [assembleHalf, hshift, hmant, hlow]
  | true =>
    have hsign : (1#16 <<< 15).toNat = 1 <<< 15 := by decide
    simp only [assembleHalf, if_true, BitVec.toNat_or, hshift, hmant, hsign, Nat.lor_assoc, hlow]
    rw [← Nat.shiftLeft_add_eq_or_of_lt (by omega), Nat.shiftLeft_eq]
    omega

theorem fields_assembleHalf (neg : Bool) {e m : ℕ} (he : e < 2 ^ 5) (hm : m < 2 ^ 10) :
    halfSign (assembleHalf neg e m) = neg ∧ halfExp (assembleHalf neg e m) = e ∧
      halfMant (assembleHalf neg e m) = m := by
  have hnat := toNat_assembleHalf neg he hm
  refine ⟨?_, ?_, ?_⟩
  · rw [Bool.eq_iff_iff, halfSign_iff, hnat]
    cases neg <;> simp <;> omega
  · rw [halfExp_eq, hnat]
    cases neg <;> simp only [Bool.false_eq_true, if_false, if_true] <;> omega
  · rw [halfMant_eq, hnat]
    cases neg <;> simp only [Bool.false_eq_true, if_false, if_true] <;> omega

/-- A half is put together from its own fields. -/
theorem assembleHalf_fields (h : HalfBits) :
    assembleHalf (halfSign h) (halfExp h) (halfMant h) = h := by
  have he : halfExp h < 2 ^ 5 := by
    rw [halfExp_eq]
    exact Nat.mod_lt _ (by decide)
  have hm : halfMant h < 2 ^ 10 := by
    rw [halfMant_eq]
    exact Nat.mod_lt _ (by decide)
  have hlt := h.isLt
  have hsign := halfSign_iff h
  apply BitVec.eq_of_toNat_eq
  rw [toNat_assembleHalf _ he hm, halfExp_eq, halfMant_eq]
  by_cases hs : halfSign h = true
  · rw [if_pos hs]
    have := hsign.mp hs
    omega
  · rw [if_neg hs]
    have : ¬2 ^ 15 ≤ h.toNat := fun hle => hs (hsign.mpr hle)
    omega

theorem roundBits_eq (significand : ℕ) {shift : ℕ} (h : 0 < shift) :
    roundBits significand shift = roundTo (2 ^ shift) significand := by
  rw [← keep_eq, if_pos h]
  rfl

/-- The conversion to half precision by cases, with the fields of the result. -/
theorem f64ToF16Bits_cases {x : Bits} (hx : IsFinite x) :
    f64ToF16Bits x =
      let significand := 2 ^ 52 + mantField x
      let q := roundTo (2 ^ 42) significand
      if expField x < 998 then assembleHalf (signField x) 0 0
      else if expField x < 1009 then
        let q := roundTo (2 ^ (1051 - expField x)) significand
        if q = 1024 then assembleHalf (signField x) 1 0 else assembleHalf (signField x) 0 q
      else if expField x > 1038 ∨ (expField x = 1038 ∧ q = 2048) then
        assembleHalf (signField x) 0x1F 0
      else if q = 2048 then assembleHalf (signField x) (expField x - 1007) 0
      else assembleHalf (signField x) (expField x - 1008) (q - 1024) := by
  have hm : mantField x < 2 ^ 52 := by
    rw [mantField_eq]
    exact Nat.mod_lt _ (by decide)
  have hsig : (1 <<< 52) ||| mantField x = 2 ^ 52 + mantField x := by
    rw [← Nat.shiftLeft_add_eq_or_of_lt hm, Nat.shiftLeft_eq, one_mul]
  have hx' : ¬expField x = 0x7FF := hx
  have hround := roundBits_eq (2 ^ 52 + mantField x) (show 0 < 42 by decide)
  have hwidth : roundTo (2 ^ 42) (2 ^ 52 + mantField x) ≤ 2048 ∧
      1024 ≤ roundTo (2 ^ 42) (2 ^ 52 + mantField x) :=
    ⟨roundTo_le_mul (by decide) (by omega), mul_le_roundTo (by decide) (by omega)⟩
  simp only [f64ToF16Bits, hsig, if_neg hx', hround]
  generalize roundTo (2 ^ 42) (2 ^ 52 + mantField x) = q at *
  generalize expField x = exp at *
  generalize signField x = neg
  by_cases h0 : exp = 0
  · rw [if_pos h0, if_pos (show exp < 998 by omega)]
    cases neg <;> rfl
  rw [if_neg h0]
  by_cases h15 : (exp : ℤ) - 1023 > 15
  · rw [if_pos h15, if_neg (show ¬exp < 998 by omega), if_neg (show ¬exp < 1009 by omega),
      if_pos (show exp > 1038 ∨ exp = 1038 ∧ q = 2048 by omega)]
    cases neg <;> rfl
  rw [if_neg h15]
  by_cases h14 : (exp : ℤ) - 1023 ≥ -14
  · rw [if_pos h14, if_neg (show ¬exp < 998 by omega), if_neg (show ¬exp < 1009 by omega)]
    by_cases hq : q = 2048
    · rw [if_pos (show q = 1 <<< 11 from hq)]
      by_cases htop : (exp : ℤ) - 1023 + 1 > 15
      · rw [if_pos htop, if_pos (show exp > 1038 ∨ exp = 1038 ∧ q = 2048 by omega)]
        cases neg <;> rfl
      · rw [if_neg htop, if_neg (show ¬(exp > 1038 ∨ exp = 1038 ∧ q = 2048) by omega), if_pos hq,
          show ((exp : ℤ) - 1023 + 1 + 15).toNat = exp - 1007 by omega]
        simp [assembleHalf]
    · have hlow : q &&& 0x3FF = q - 1024 := by
        rw [show (0x3FF : ℕ) = 2 ^ 10 - 1 from rfl, Nat.and_two_pow_sub_one_eq_mod]
        omega
      rw [if_neg (show ¬q = 1 <<< 11 from hq),
        if_neg (show ¬(exp > 1038 ∨ exp = 1038 ∧ q = 2048) by omega), if_neg hq, hlow,
        show ((exp : ℤ) - 1023 + 15).toNat = exp - 1008 by omega]
      rfl
  · rw [if_neg h14]
    by_cases h25 : (exp : ℤ) - 1023 < -25
    · rw [if_pos h25, if_pos (show exp < 998 by omega)]
      cases neg <;> rfl
    · have hshift : (28 - ((exp : ℤ) - 1023)).toNat = 1051 - exp := by omega
      rw [if_neg h25, if_neg (show ¬exp < 998 by omega), if_pos (show exp < 1009 by omega), hshift,
        roundBits_eq _ (by omega)]
      generalize roundTo (2 ^ (1051 - exp)) (2 ^ 52 + mantField x) = r
      by_cases hr : r = 1024
      · rw [if_pos hr, if_pos hr]
        cases neg <;> rfl
      · rw [if_neg hr, if_neg hr]
        simp [assembleHalf]

/-- Half precision survives the way through a double, for every pattern that is not a NaN. -/
theorem f64ToF16Bits_f16BitsToF64 (h : HalfBits) (hnan : ¬(halfExp h = 0x1F ∧ halfMant h ≠ 0)) :
    f64ToF16Bits (f16BitsToF64 h) = h := by
  have he : halfExp h < 2 ^ 5 := by
    rw [halfExp_eq]
    exact Nat.mod_lt _ (by decide)
  have hm : halfMant h < 2 ^ 10 := by
    rw [halfMant_eq]
    exact Nat.mod_lt _ (by decide)
  have hback := assembleHalf_fields h
  rw [f16BitsToF64]
  generalize halfSign h = neg at *
  generalize halfExp h = e at *
  generalize halfMant h = m at *
  rw [← hback]
  by_cases he0 : e = 0
  · subst he0
    rw [if_pos rfl]
    by_cases hm0 : m = 0
    · subst hm0
      rw [if_pos rfl]
      cases neg <;> decide
    · -- a subnormal half is a normal double
      rw [if_neg hm0]
      obtain ⟨hlo, hhi⟩ := (Nat.log2_eq_iff hm0).mp rfl
      have hp : m.log2 < 10 := (Nat.log2_lt hm0).mpr hm
      obtain ⟨hklo, hkhi⟩ := normalized_bounds hm0 (show m.log2 ≤ 52 by omega)
      obtain ⟨hs, hexp, hmant⟩ := fields_assemble neg (show m.log2 + 999 < 2 ^ 11 by omega)
        (show m * 2 ^ (52 - m.log2) - 2 ^ 52 < 2 ^ 52 by omega)
      have hfin : IsFinite (assemble neg (m.log2 + 999) (m * 2 ^ (52 - m.log2) - 2 ^ 52)) := by
        rw [IsFinite, hexp]
        omega
      rw [f64ToF16Bits_cases hfin, hs, hexp, hmant, Nat.add_sub_cancel' hklo]
      dsimp only
      rw [if_neg (show ¬m.log2 + 999 < 998 by omega), if_pos (show m.log2 + 999 < 1009 by omega),
        show 1051 - (m.log2 + 999) = 52 - m.log2 by omega, roundTo_mul_self,
        if_neg (show ¬m = 1024 by omega)]
  · rw [if_neg he0]
    by_cases he31 : e = 0x1F
    · have hm0 : m = 0 := by_contra fun hne => hnan ⟨he31, hne⟩
      subst he31 hm0
      rw [if_pos rfl, if_pos rfl]
      cases neg <;> decide
    · rw [if_neg he31]
      obtain ⟨hs, hexp, hmant⟩ := fields_assemble neg (show e + 1008 < 2 ^ 11 by omega)
        (show m * 2 ^ 42 < 2 ^ 52 by omega)
      have hfin : IsFinite (assemble neg (e + 1008) (m * 2 ^ 42)) := by
        rw [IsFinite, hexp]
        omega
      have hround : roundTo (2 ^ 42) (2 ^ 52 + m * 2 ^ 42) = 1024 + m := by
        rw [show 2 ^ 52 + m * 2 ^ 42 = (1024 + m) * 2 ^ 42 by ring, roundTo_mul_self]
      rw [f64ToF16Bits_cases hfin, hs, hexp, hmant]
      simp only [hround]
      rw [if_neg (show ¬e + 1008 < 998 by omega), if_neg (show ¬e + 1008 < 1009 by omega),
        if_neg (show ¬(e + 1008 > 1038 ∨ e + 1008 = 1038 ∧ 1024 + m = 2048) by omega),
        if_neg (show ¬1024 + m = 2048 by omega), Nat.add_sub_cancel, Nat.add_sub_cancel_left]

theorem f64ToF16Bits_f16BitsToF64_largest :
    f64ToF16Bits (f16BitsToF64 0x7BFF) = 0x7BFF :=
  f64ToF16Bits_f16BitsToF64 0x7BFF (by decide)

/-- The magnitude of a finite half, in units of `2 ^ -24`. -/
def halfMagnitude (exp mant : ℕ) : ℕ :=
  if exp = 0 then mant else (1024 + mant) * 2 ^ (exp - 1)

theorem halfMagnitude_zero (m : ℕ) : halfMagnitude 0 m = m := if_pos rfl

theorem halfMagnitude_normal {q k : ℕ} (h : 1024 ≤ q) :
    halfMagnitude (k + 1) (q - 1024) = q * 2 ^ k := by
  rw [halfMagnitude, if_neg (Nat.succ_ne_zero k), Nat.add_sub_cancel' h, Nat.add_sub_cancel]

/-- The exponent of the smallest half over that of the smallest double. Irreducible, so that powers
with this exponent are not evaluated. -/
@[irreducible] def halfShift : ℕ := 1050

theorem halfShift_eq : halfShift = 1050 := by rw [halfShift]

/-- A finite half as a multiple of `2 ^ -1074`. -/
def halfToBigint (h : HalfBits) : ℤ :=
  let mag : ℕ := halfMagnitude (halfExp h) (halfMant h) * 2 ^ halfShift
  if halfSign h then -(mag : ℤ) else mag

def HalfIsFinite (h : HalfBits) : Prop := halfExp h ≠ 0x1F

/-- The half nearest to a multiple of `2 ^ -1074`. -/
abbrev HalfClosest : ℤ → HalfBits → Prop :=
  ClosestIn halfToBigint HalfIsFinite fun h => halfMant h % 2 = 0

theorem natAbs_halfToBigint (h : HalfBits) :
    (halfToBigint h).natAbs = halfMagnitude (halfExp h) (halfMant h) * 2 ^ halfShift := by
  rw [halfToBigint]
  generalize halfMagnitude (halfExp h) (halfMant h) * 2 ^ halfShift = mag
  split_ifs
  · exact Int.natAbs_neg mag
  · rfl

/-- The magnitude of a half has eleven significant bits. -/
theorem exists_of_halfMagnitude (h : HalfBits) :
    ∃ c f : ℕ, c < 2048 ∧ halfMagnitude (halfExp h) (halfMant h) = c * 2 ^ f := by
  have hm : halfMant h < 2 ^ 10 := by
    rw [halfMant_eq]
    exact Nat.mod_lt _ (by decide)
  rw [halfMagnitude]
  split_ifs
  · exact ⟨halfMant h, 0, by omega, by rw [pow_zero, mul_one]⟩
  · exact ⟨1024 + halfMant h, halfExp h - 1, by omega, rfl⟩

/-- Widening is exact. -/
theorem finiteToBigint_f16BitsToF64 {h : HalfBits} (hfin : HalfIsFinite h) :
    finiteToBigint (f16BitsToF64 h) = halfToBigint h := by
  have he : halfExp h < 2 ^ 5 := by
    rw [halfExp_eq]
    exact Nat.mod_lt _ (by decide)
  have hm : halfMant h < 2 ^ 10 := by
    rw [halfMant_eq]
    exact Nat.mod_lt _ (by decide)
  have hfin' : ¬halfExp h = 0x1F := hfin
  rw [f16BitsToF64, halfToBigint]
  generalize halfSign h = neg
  generalize halfExp h = e at *
  generalize halfMant h = m at *
  by_cases he0 : e = 0
  · subst he0
    rw [if_pos rfl, halfMagnitude_zero]
    by_cases hm0 : m = 0
    · rw [if_pos hm0, finiteToBigint_assemble neg (by decide) (by decide), magnitude_zero, hm0,
        Nat.zero_mul]
    · have hp : m.log2 < 10 := (Nat.log2_lt hm0).mpr hm
      obtain ⟨hklo, hkhi⟩ := normalized_bounds hm0 (show m.log2 ≤ 52 by omega)
      have hmag : magnitude (m.log2 + 999) (m * 2 ^ (52 - m.log2) - 2 ^ 52) =
          m * 2 ^ halfShift := by
        rw [show m.log2 + 999 = m.log2 + 998 + 1 by omega, magnitude_normal hklo, Nat.mul_assoc,
          ← pow_add, show 52 - m.log2 + (m.log2 + 998) = halfShift by rw [halfShift_eq]; omega]
      rw [if_neg hm0, finiteToBigint_assemble neg (by omega) (by omega), hmag]
  · have hmag : magnitude (e + 1008) (m * 2 ^ 42) = halfMagnitude e m * 2 ^ halfShift := by
      rw [magnitude, if_neg (by omega), halfMagnitude, if_neg he0,
        show 2 ^ 52 + m * 2 ^ 42 = (1024 + m) * 2 ^ 42 by ring, Nat.mul_assoc, Nat.mul_assoc,
        ← pow_add, ← pow_add,
        show 42 + (e + 1008 - 1) = e - 1 + halfShift by rw [halfShift_eq]; omega]
    rw [if_neg he0, if_neg hfin', finiteToBigint_assemble neg (by omega) (by omega), hmag]

/-- A half whose magnitude is that of `v` rounded to multiples of `u` is nearest to `v`, if the
other halves are multiples of `u` too or lie below `v`. -/
theorem HalfClosest.of_roundTo {neg : Bool} {e m u v lo hi : ℕ} (he : e < 0x1F) (hm : m < 2 ^ 10)
    (hu : 0 < u) (hr : halfMagnitude e m * 2 ^ halfShift = roundTo u v * u)
    (heven : roundTo u v % 2 = 0 → m % 2 = 0) (hlo : lo * u ≤ v) (hhi : v ≤ hi * u)
    (hother : ∀ c f : ℕ, c < 2048 →
      c * 2 ^ f * 2 ^ halfShift < lo * u ∨ ∃ j, c * 2 ^ f * 2 ^ halfShift = j * u) :
    HalfClosest (if neg then -(v : ℤ) else v) (assembleHalf neg e m) := by
  obtain ⟨hsign, hexp, hmant⟩ := fields_assembleHalf neg (show e < 2 ^ 5 by omega) hm
  have habs : (if neg then -(v : ℤ) else v).natAbs = v := by cases neg <;> simp
  have hzero : v = 0 → roundTo u v * u = 0 := by
    rintro rfl
    have := roundTo_le_mul (j := 0) hu (Nat.zero_le (0 * u))
    rw [Nat.le_zero.mp this, Nat.zero_mul]
  have hplace (y : HalfBits) : (halfToBigint y).natAbs < lo * u ∨ hi * u < (halfToBigint y).natAbs ∨
      ∃ j, (halfToBigint y).natAbs = j * u := by
    obtain ⟨c, f, hc, hy⟩ := exists_of_halfMagnitude y
    rw [natAbs_halfToBigint, hy]
    exact (hother c f hc).imp id .inr
  have hnear (y : HalfBits) := roundTo_nearest_of hu hlo hhi (hplace y)
  refine ClosestIn.of_magnitude (r := roundTo u v * u) ?_ ?_ ?_ (fun y _ => ?_)
    fun y _ hne heq => ?_
  · rw [HalfIsFinite, hexp]
    omega
  · rw [halfToBigint, hsign, hexp, hmant, hr]
    generalize roundTo u v * u = r at *
    cases neg
    · simp
    · simp
      omega
  · rw [habs]
    have := (roundTo_closest hu v 0).1
    omega
  · rw [habs]
    exact (hnear y).1
  · rw [habs] at heq
    rw [hmant]
    exact heven (((hnear y).2 heq).resolve_left hne)

theorem magnitude_lt (e : ℕ) {m : ℕ} (hm : m < 2 ^ 52) : magnitude e m < 2 ^ 53 * 2 ^ (e - 1) := by
  rw [magnitude]
  split_ifs with he
  · subst he
    omega
  · exact Nat.mul_lt_mul_of_pos_right (by omega) (Nat.two_pow_pos _)

/-- Below half of the smallest subnormal the result is a zero. -/
theorem halfClosest_zero (neg : Bool) {exp m : ℕ} (hm : m < 2 ^ 52) (h : exp < 998) :
    HalfClosest (if neg then -(magnitude exp m : ℤ) else magnitude exp m)
      (assembleHalf neg 0 0) := by
  have hv : 2 * magnitude exp m < 2 ^ halfShift := by
    calc 2 * magnitude exp m < 2 * (2 ^ 53 * 2 ^ (exp - 1)) :=
          Nat.mul_lt_mul_of_pos_left (magnitude_lt exp hm) (by decide)
      _ = 2 ^ (54 + (exp - 1)) := by rw [pow_add]; ring
      _ ≤ 2 ^ halfShift := Nat.pow_le_pow_right (by decide) (by rw [halfShift_eq]; omega)
  have hround : roundTo (2 ^ halfShift) (magnitude exp m) = 0 := roundTo_eq_zero hv
  refine @HalfClosest.of_roundTo neg 0 0 (2 ^ halfShift) _ 0 1 (by decide) (by decide)
    (Nat.two_pow_pos halfShift) ?_ (fun _ => rfl) ?_ ?_ fun c f _ => .inr ⟨c * 2 ^ f, rfl⟩
  · rw [hround, halfMagnitude_zero]
  · rw [Nat.zero_mul]
    exact Nat.zero_le _
  · rw [Nat.one_mul]
    exact (Nat.le_mul_of_pos_left _ (by decide)).trans hv.le

theorem halfClosest_subnormal (neg : Bool) {exp m : ℕ} (hm : m < 2 ^ 52) (hlo : 998 ≤ exp)
    (hhi : exp < 1009) :
    let q := roundTo (2 ^ (1051 - exp)) (2 ^ 52 + m)
    HalfClosest (if neg then -(magnitude exp m : ℤ) else magnitude exp m)
      (if q = 1024 then assembleHalf neg 1 0 else assembleHalf neg 0 q) := by
  have hmag : magnitude exp m = (2 ^ 52 + m) * 2 ^ (exp - 1) := if_neg (by omega)
  have hunit : 2 ^ (1051 - exp) * 2 ^ (exp - 1) = 2 ^ halfShift := by
    rw [← pow_add, show 1051 - exp + (exp - 1) = halfShift by rw [halfShift_eq]; omega]
  have hround : roundTo (2 ^ halfShift) (magnitude exp m) =
      roundTo (2 ^ (1051 - exp)) (2 ^ 52 + m) := by
    rw [hmag, ← hunit, roundTo_mul (Nat.two_pow_pos _)]
  have htop : 2 ^ 52 + m ≤ 1024 * 2 ^ (1051 - exp) := by
    calc 2 ^ 52 + m ≤ 1024 * 2 ^ 43 := by omega
      _ ≤ 1024 * 2 ^ (1051 - exp) :=
        Nat.mul_le_mul_left _ (Nat.pow_le_pow_right (by decide) (by omega))
  have hq := roundTo_le_mul (Nat.two_pow_pos _) htop
  have hv : magnitude exp m ≤ 1024 * 2 ^ halfShift := by
    rw [hmag, ← hunit, ← Nat.mul_assoc]
    exact Nat.mul_le_mul_right _ htop
  have hzero : 0 * 2 ^ halfShift ≤ magnitude exp m := (Nat.zero_mul _).symm ▸ Nat.zero_le _
  dsimp only
  generalize roundTo (2 ^ (1051 - exp)) (2 ^ 52 + m) = q at *
  by_cases hcarry : q = 1024
  · -- the carry makes the smallest normal half
    rw [if_pos hcarry]
    refine HalfClosest.of_roundTo (u := 2 ^ halfShift) (by decide) (by decide)
      (Nat.two_pow_pos halfShift) ?_ (fun _ => rfl) hzero hv fun c f _ => .inr ⟨c * 2 ^ f, rfl⟩
    have hnormal : halfMagnitude 1 0 = 1024 := by decide
    rw [hround, hcarry, hnormal]
  · rw [if_neg hcarry]
    refine HalfClosest.of_roundTo (u := 2 ^ halfShift) (by decide) (by omega)
      (Nat.two_pow_pos halfShift) ?_ (fun h => ?_) hzero hv fun c f _ => .inr ⟨c * 2 ^ f, rfl⟩
    · rw [hround, halfMagnitude_zero]
    · rw [← hround]
      exact h

theorem halfClosest_normal (neg : Bool) {exp m : ℕ} (hm : m < 2 ^ 52) (hlo : 1009 ≤ exp)
    (hhi : ¬(exp > 1038 ∨ (exp = 1038 ∧ roundTo (2 ^ 42) (2 ^ 52 + m) = 2048))) :
    let q := roundTo (2 ^ 42) (2 ^ 52 + m)
    HalfClosest (if neg then -(magnitude exp m : ℤ) else magnitude exp m)
      (if q = 2048 then assembleHalf neg (exp - 1007) 0
        else assembleHalf neg (exp - 1008) (q - 1024)) := by
  obtain ⟨k, rfl⟩ := Nat.exists_eq_add_of_le' hlo
  have hmag : magnitude (k + 1009) m = (2 ^ 52 + m) * 2 ^ (k + 1008) := if_neg (by omega)
  have hunit : 2 ^ 42 * 2 ^ (k + 1008) = 2 ^ k * 2 ^ halfShift := by
    rw [← pow_add, ← pow_add, show 42 + (k + 1008) = k + halfShift by rw [halfShift_eq]; omega]
  have hround : roundTo (2 ^ k * 2 ^ halfShift) (magnitude (k + 1009) m) =
      roundTo (2 ^ 42) (2 ^ 52 + m) := by
    rw [hmag, ← hunit, roundTo_mul (Nat.two_pow_pos _)]
  have hqlo : 1024 ≤ roundTo (2 ^ 42) (2 ^ 52 + m) := mul_le_roundTo (by decide) (by omega)
  have hqhi : roundTo (2 ^ 42) (2 ^ 52 + m) ≤ 2048 := roundTo_le_mul (by decide) (by omega)
  have hvlo : 1024 * (2 ^ k * 2 ^ halfShift) ≤ magnitude (k + 1009) m := by
    rw [hmag, ← hunit, ← Nat.mul_assoc]
    exact Nat.mul_le_mul_right _ (by omega)
  have hvhi : magnitude (k + 1009) m ≤ 2048 * (2 ^ k * 2 ^ halfShift) := by
    rw [hmag, ← hunit, ← Nat.mul_assoc]
    exact Nat.mul_le_mul_right _ (by omega)
  -- a half of a smaller exponent is below the binade
  have hother (c f : ℕ) (hc : c < 2048) :
      c * 2 ^ f * 2 ^ halfShift < 1024 * (2 ^ k * 2 ^ halfShift) ∨
      ∃ j, c * 2 ^ f * 2 ^ halfShift = j * (2 ^ k * 2 ^ halfShift) := by
    by_cases hf : k ≤ f
    · refine .inr ⟨c * 2 ^ (f - k), ?_⟩
      have hpow : 2 ^ f = 2 ^ (f - k) * 2 ^ k := by rw [← pow_add, Nat.sub_add_cancel hf]
      rw [hpow]
      ring
    · refine .inl ?_
      rw [← Nat.mul_assoc]
      refine Nat.mul_lt_mul_of_pos_right ?_ (Nat.two_pow_pos halfShift)
      calc c * 2 ^ f < 2048 * 2 ^ f := Nat.mul_lt_mul_of_pos_right hc (Nat.two_pow_pos f)
        _ = 1024 * 2 ^ (f + 1) := by ring
        _ ≤ 1024 * 2 ^ k := Nat.mul_le_mul_left _ (Nat.pow_le_pow_right (by decide) (by omega))
  have hpos : 0 < 2 ^ k * 2 ^ halfShift :=
    Nat.mul_pos (Nat.two_pow_pos k) (Nat.two_pow_pos halfShift)
  dsimp only
  generalize roundTo (2 ^ 42) (2 ^ 52 + m) = q at *
  by_cases hcarry : q = 2048
  · rw [if_pos hcarry, show k + 1009 - 1007 = k + 1 + 1 by omega]
    refine HalfClosest.of_roundTo (by omega) (by decide) hpos ?_ (fun _ => rfl) hvlo hvhi hother
    have hnormal := halfMagnitude_normal (k := k + 1) (le_refl 1024)
    rw [Nat.sub_self] at hnormal
    rw [hnormal, hround, hcarry]
    ring
  · rw [if_neg hcarry, show k + 1009 - 1008 = k + 1 by omega]
    refine HalfClosest.of_roundTo (by omega) (by omega) hpos ?_ (fun h => ?_) hvlo hvhi hother
    · rw [halfMagnitude_normal hqlo, hround, Nat.mul_assoc]
    · rw [hround] at h
      omega

/-- The midpoint between the largest half and the next power of two, as a multiple of
`2 ^ -1074`. -/
def halfOverflowBound : ℕ := 65520 * 2 ^ 1074

theorem halfOverflow_iff {exp m k : ℕ} (hm : m < 2 ^ 52) :
    (exp > k + 2 ∨ (exp = k + 2 ∧ roundTo (2 ^ 42) (2 ^ 52 + m) = 2048)) ↔
      4095 * 2 ^ (k + 42) ≤ magnitude exp m := by
  have hbound : 4095 * 2 ^ (k + 42) = 4095 * 2 ^ 41 * 2 ^ (k + 1) := by ring
  rcases Nat.lt_trichotomy exp (k + 2) with h | rfl | h
  · have : magnitude exp m < 4095 * 2 ^ (k + 42) := by
      calc magnitude exp m < 2 ^ 53 * 2 ^ (exp - 1) := magnitude_lt exp hm
        _ ≤ 2 ^ 53 * 2 ^ k := Nat.mul_le_mul_left _ (Nat.pow_le_pow_right (by decide) (by omega))
        _ = 2048 * 2 ^ (k + 42) := by ring
        _ ≤ 4095 * 2 ^ (k + 42) := Nat.mul_le_mul_right _ (by decide)
    omega
  · have hmag : magnitude (k + 2) m = (2 ^ 52 + m) * 2 ^ (k + 1) := if_neg (by omega)
    rw [hmag, hbound, Nat.mul_le_mul_right_iff (Nat.two_pow_pos (k + 1)), roundTo]
    split_ifs <;> omega
  · have : 4095 * 2 ^ (k + 42) ≤ magnitude exp m := by
      calc 4095 * 2 ^ (k + 42) ≤ 4096 * 2 ^ (k + 42) := Nat.mul_le_mul_right _ (by decide)
        _ = 2 ^ 52 * 2 ^ (k + 2) := by ring
        _ ≤ 2 ^ 52 * 2 ^ (exp - 1) :=
          Nat.mul_le_mul_left _ (Nat.pow_le_pow_right (by decide) (by omega))
        _ ≤ (2 ^ 52 + m) * 2 ^ (exp - 1) := Nat.mul_le_mul_right _ (Nat.le_add_right _ m)
        _ = magnitude exp m := (if_neg (by omega)).symm
    omega

/-- The conversion rounds once, to the nearest half, or to the infinity of that sign from the
midpoint above the largest half on. -/
theorem f64ToF16Bits_spec {x : Bits} (hx : IsFinite x) :
    ((finiteToBigint x).natAbs < halfOverflowBound →
        HalfClosest (finiteToBigint x) (f64ToF16Bits x)) ∧
      (halfOverflowBound ≤ (finiteToBigint x).natAbs →
        f64ToF16Bits x = if signField x then 0xFC00 else 0x7C00) := by
  have hm : mantField x < 2 ^ 52 := by
    rw [mantField_eq]
    exact Nat.mod_lt _ (by decide)
  have habs : (finiteToBigint x).natAbs = magnitude (expField x) (mantField x) := by
    rw [finiteToBigint_eq]
    split_ifs <;> simp
  have hbound : halfOverflowBound = 4095 * 2 ^ (1036 + 42) := by
    rw [halfOverflowBound, show 65520 = 4095 * 2 ^ 4 from rfl, Nat.mul_assoc, ← pow_add]
  have hover : _ ↔ halfOverflowBound ≤ magnitude (expField x) (mantField x) :=
    hbound ▸ halfOverflow_iff (k := 1036) hm
  rw [habs, f64ToF16Bits_cases hx, finiteToBigint_eq]
  generalize signField x = neg
  generalize expField x = exp at *
  generalize mantField x = m at *
  dsimp only
  by_cases hz : exp < 998
  · have : ¬halfOverflowBound ≤ magnitude exp m := fun h => by
      have := hover.mpr h
      omega
    rw [if_pos hz]
    exact ⟨fun _ => halfClosest_zero neg hm hz, fun h => absurd h this⟩
  rw [if_neg hz]
  by_cases hs : exp < 1009
  · have : ¬halfOverflowBound ≤ magnitude exp m := fun h => by
      have := hover.mpr h
      omega
    rw [if_pos hs]
    exact ⟨fun _ => halfClosest_subnormal neg hm (by omega) hs, fun h => absurd h this⟩
  rw [if_neg hs]
  by_cases htop : exp > 1036 + 2 ∨ (exp = 1036 + 2 ∧ roundTo (2 ^ 42) (2 ^ 52 + m) = 2048)
  · rw [if_pos htop]
    refine ⟨fun h => absurd (hover.mp htop) (Nat.not_le_of_lt h), fun _ => ?_⟩
    cases neg <;> decide
  · rw [if_neg htop]
    exact ⟨fun _ => halfClosest_normal neg hm (by omega) htop, fun h => absurd (hover.mpr h) htop⟩

/-- `Math.f16round` of a finite double is the value of the half nearest to it, and the infinity of
its sign from the midpoint above the largest half on. -/
theorem mathF16round_nearest (x : Bits) (hx : IsFinite x) :
    ((finiteToBigint x).natAbs < halfOverflowBound →
        ∃ h, HalfClosest (finiteToBigint x) h ∧
          finiteToBigint (mathF16round x) = halfToBigint h) ∧
      (halfOverflowBound ≤ (finiteToBigint x).natAbs →
        mathF16round x = if signField x then negInfinity else infinity) := by
  obtain ⟨hnear, hover⟩ := f64ToF16Bits_spec hx
  refine ⟨fun h => ⟨f64ToF16Bits x, hnear h, ?_⟩, fun h => ?_⟩
  · exact finiteToBigint_f16BitsToF64 (hnear h).finite
  · rw [mathF16round, hover h]
    cases signField x <;> decide

theorem mathF16round_nearest_third :
    ∃ h, HalfClosest (finiteToBigint 0x3FD5555555555555) h ∧
      finiteToBigint (mathF16round 0x3FD5555555555555) = halfToBigint h :=
  (mathF16round_nearest 0x3FD5555555555555 (by decide)).1 (by decide +kernel)

example : mathF16round 0x3FD5555555555555 = 0x3FD5540000000000 := by decide

end OxideJS.MathRounding
