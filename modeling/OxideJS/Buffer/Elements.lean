import OxideJS.Buffer.Atomics
import OxideJS.Lib.Splices
import Mathlib.Data.Int.ModEq
import Mathlib.Data.Rat.Floor
import Mathlib.Tactic.Positivity

/-!
The elements of a typed array as bytes.

A Number is a rational, one of the infinities or NaN. An element is
written with the casts of the source: a Number goes to a 32-bit integer
first, and a cast stops at the bounds of its target. Only what is left of
that is truncated to the width of the element, so an integer beyond 32
bits does not wrap around. A BigInt is masked, and does.

The kinds that hold floating-point numbers are left out. The bytes of an
element are in little-endian order.
-/

namespace OxideJS.Buffer

open OxideJS.Lib.Splices

inductive Number where
  | nan
  | infinite (negative : Bool)
  | finite (q : ℚ)
  deriving DecidableEq

/-- What an element is read as, and written from. -/
inductive ElementValue where
  | undefined
  | number (x : Number)
  | bigint (n : Int)
  deriving DecidableEq

inductive ElementKind where
  | int8 | uint8 | uint8Clamped | int16 | uint16 | int32 | uint32 | bigInt64 | bigUint64
  deriving DecidableEq

namespace ElementKind

def kind : ElementKind → TypedArrayKind
  | int8 => .int8
  | uint8 => .uint8
  | uint8Clamped => .uint8Clamped
  | int16 => .int16
  | uint16 => .uint16
  | int32 => .int32
  | uint32 => .uint32
  | bigInt64 => .bigInt64
  | bigUint64 => .bigUint64

def size (k : ElementKind) : Nat :=
  k.kind.bytesPerElement

def width (k : ElementKind) : Nat :=
  8 * k.size

def signed : ElementKind → Bool
  | int8 | int16 | int32 | bigInt64 => true
  | uint8 | uint8Clamped | uint16 | uint32 | bigUint64 => false

theorem size_pos (k : ElementKind) : 0 < k.size := by
  cases k <;> decide

end ElementKind

/-! ### Casts -/

/-- The integer part, towards zero. -/
def truncate (q : ℚ) : Int :=
  q.num.tdiv q.den

namespace Number

def asI32 : Number → Int
  | nan => 0
  | infinite true => -2147483648
  | infinite false => 2147483647
  | finite q => Atomics.asI32 (truncate q)

def asU32 : Number → Int
  | nan => 0
  | infinite true => 0
  | infinite false => 4294967295
  | finite q => Atomics.asU32 (truncate q)

/-- `clamp`, then `round`, which takes a tie away from zero, then the cast
to a byte. -/
def clampRound : Number → Int
  | nan => 0
  | infinite true => 0
  | infinite false => 255
  | finite q => ⌊max 0 (min q 255) + 1 / 2⌋

end Number

namespace ElementValue

/-- A BigInt is not converted where it matters: no kind that holds Numbers
gets one. -/
def toNumber : ElementValue → Number
  | undefined => .nan
  | number x => x
  | bigint n => .finite n

def bigintOrZero : ElementValue → Int
  | bigint n => n
  | _ => 0

end ElementValue

/-- The low `m` bytes of an integer in two's complement. -/
def intBytes (m : Nat) (z : Int) : List UInt8 :=
  leBytes m (z % 256 ^ m).toNat

/-! ### Reading and writing -/

/-- The cast chains of `write_element`. -/
def elementBytes (k : ElementKind) (value : ElementValue) : List UInt8 :=
  let n := value.toNumber
  match k with
  | .int8 => intBytes 1 n.asI32
  | .uint8 => intBytes 1 n.asI32
  | .uint8Clamped => intBytes 1 n.clampRound
  | .int16 => intBytes 2 n.asI32
  | .uint16 => intBytes 2 n.asI32
  | .int32 => intBytes 4 n.asI32
  | .uint32 => intBytes 4 n.asU32
  | .bigInt64 | .bigUint64 => intBytes 8 value.bigintOrZero

def writeElement (k : ElementKind) (bytes : List UInt8) (offset : Nat) (value : ElementValue) :
    List UInt8 :=
  if offset + k.size > bytes.length then bytes
  else splice bytes offset (elementBytes k value)

/-- `write_range` of a shared buffer whose live length is `len`. -/
def writeRange (bytes : List UInt8) (len offset : Nat) (data : List UInt8) : List UInt8 :=
  if offset + data.length > len then bytes else splice bytes offset data

/-- The eight bytes that `write_element_shared` fills, and how many of them
it passes on. -/
def scratch (k : ElementKind) (value : ElementValue) : List UInt8 × Nat :=
  let n := value.toNumber
  let bytes := List.replicate 8 0
  match k with
  | .int8 => (splice bytes 0 (intBytes 1 n.asI32), 1)
  | .uint8 => (splice bytes 0 (intBytes 1 n.asI32), 1)
  | .uint8Clamped => (splice bytes 0 (intBytes 1 n.clampRound), 1)
  | .int16 => (splice bytes 0 (intBytes 2 n.asI32), 2)
  | .uint16 => (splice bytes 0 (intBytes 2 n.asI32), 2)
  | .int32 => (splice bytes 0 (intBytes 4 n.asI32), 4)
  | .uint32 => (splice bytes 0 (intBytes 4 n.asU32), 4)
  | .bigInt64 | .bigUint64 => (splice bytes 0 (intBytes 8 value.bigintOrZero), 8)

def writeElementShared (k : ElementKind) (bytes : List UInt8) (len offset : Nat)
    (value : ElementValue) : List UInt8 :=
  if offset + k.size > len then bytes
  else
    let (bytes8, n) := scratch k value
    writeRange bytes len offset (bytes8.take n)

/-- The integer that the bytes of an element stand for. -/
def bytesInt (k : ElementKind) (bytes : List UInt8) : Int :=
  if k.signed then Int.bmod (leValue bytes) (256 ^ k.size) else leValue bytes

def readElement (k : ElementKind) (bytes : List UInt8) (offset : Nat) : ElementValue :=
  if offset + k.size > bytes.length then .undefined
  else
    let z := bytesInt k (chunk bytes offset k.size)
    if k.kind.isBigint then .bigint z else .number (.finite z)

/-! ### Bytes of an element -/

@[simp] theorem length_intBytes (m : Nat) (z : Int) : (intBytes m z).length = m :=
  length_leBytes m _

theorem leValue_intBytes (m : Nat) (z : Int) : (leValue (intBytes m z) : Int) = z % 256 ^ m := by
  have hpos : (0 : Int) < 256 ^ m := by positivity
  have hlt : (z % 256 ^ m).toNat < 256 ^ m := by
    have h := Int.emod_lt_of_pos z hpos
    zify
    rw [Int.toNat_of_nonneg (Int.emod_nonneg z hpos.ne')]
    exact_mod_cast h
  rw [intBytes, leValue_leBytes, Nat.mod_eq_of_lt hlt,
    Int.toNat_of_nonneg (Int.emod_nonneg z hpos.ne')]

/-- The integer whose low bytes are written. -/
def castElement (k : ElementKind) (value : ElementValue) : Int :=
  match k with
  | .uint8Clamped => value.toNumber.clampRound
  | .uint32 => value.toNumber.asU32
  | .bigInt64 | .bigUint64 => value.bigintOrZero
  | _ => value.toNumber.asI32

theorem elementBytes_eq (k : ElementKind) (value : ElementValue) :
    elementBytes k value = intBytes k.size (castElement k value) := by
  cases k <;> rfl

theorem length_elementBytes (k : ElementKind) (value : ElementValue) :
    (elementBytes k value).length = k.size := by
  rw [elementBytes_eq, length_intBytes]

theorem take_splice_zero {new rest : List UInt8} {m : Nat} (h : new.length = m) :
    (splice rest 0 new).take m = new := by
  subst h
  simp [splice]

/-- The scratch bytes passed on are those of the other path. -/
theorem take_scratch (k : ElementKind) (value : ElementValue) :
    (scratch k value).1.take (scratch k value).2 = elementBytes k value := by
  cases k <;> exact take_splice_zero (length_intBytes _ _)

theorem writeElementShared_eq (k : ElementKind) (bytes : List UInt8) (len offset : Nat)
    (value : ElementValue) :
    writeElementShared k bytes len offset value =
      if offset + k.size > len then bytes else splice bytes offset (elementBytes k value) := by
  by_cases h : offset + k.size > len
  · rw [writeElementShared, if_pos h, if_pos h]
  · rw [writeElementShared, if_neg h, if_neg h]
    dsimp only
    rw [take_scratch, writeRange, length_elementBytes, if_neg h]

/-- The live bytes of a shared buffer become what those of another buffer
become, and the bytes beyond them are not touched. -/
theorem writeElementShared_append (k : ElementKind) (live beyond : List UInt8) (offset : Nat)
    (value : ElementValue) :
    writeElementShared k (live ++ beyond) live.length offset value
      = writeElement k live offset value ++ beyond := by
  rw [writeElementShared_eq, writeElement]
  by_cases h : offset + k.size > live.length
  · rw [if_pos h, if_pos h]
  · rw [if_neg h, if_neg h, splice, splice, length_elementBytes,
      List.take_append_of_le_length (by omega), List.drop_append_of_le_length (by omega),
      List.append_assoc, List.append_assoc, List.append_assoc]

/-! ### Residues -/

/-- The range of a kind. -/
def InRange (k : ElementKind) (r : Int) : Prop :=
  if k.signed then -2 ^ (k.width - 1) ≤ r ∧ r < 2 ^ (k.width - 1) else 0 ≤ r ∧ r < 2 ^ k.width

/-- An integer of the range of the kind that is congruent to `n`. -/
def Denotes (k : ElementKind) (n r : Int) : Prop :=
  InRange k r ∧ r ≡ n [ZMOD 2 ^ k.width]

def residue (k : ElementKind) (n : Int) : Int :=
  if k.signed then Int.bmod n (256 ^ k.size) else n % 256 ^ k.size

theorem two_pow_width (k : ElementKind) : (2 : Int) ^ k.width = 256 ^ k.size := by
  rw [ElementKind.width, pow_mul]
  norm_num

theorem two_pow_width_eq (k : ElementKind) : (2 : Int) ^ k.width = 2 * 2 ^ (k.width - 1) := by
  have hw : k.width = (k.width - 1) + 1 := by
    have := k.size_pos
    rw [ElementKind.width]
    omega
  conv_lhs => rw [hw]
  rw [pow_succ']

theorem denotes_residue (k : ElementKind) (n : Int) : Denotes k n (residue k n) := by
  have htwo := two_pow_width_eq k
  have hpos : (0 : Int) < 2 ^ (k.width - 1) := by positivity
  have hcast : ((256 ^ k.size : Nat) : Int) = 2 ^ k.width := by
    rw [two_pow_width]
    norm_cast
  rw [Denotes, InRange, residue, Int.ModEq]
  cases k.signed with
  | false =>
    simp only [Bool.false_eq_true, if_false]
    rw [← two_pow_width]
    exact ⟨⟨Int.emod_nonneg n (by omega), Int.emod_lt_of_pos n (by omega)⟩,
      Int.emod_emod_of_dvd n (dvd_refl _)⟩
  | true =>
    simp only [if_true]
    have hle := Int.le_bmod (x := n) (m := 256 ^ k.size) (by positivity)
    have hlt := Int.bmod_lt (x := n) (m := 256 ^ k.size) (by positivity)
    have hmod : Int.bmod n (256 ^ k.size) % ((256 ^ k.size : Nat) : Int)
        = n % ((256 ^ k.size : Nat) : Int) := Int.bmod_emod
    rw [hcast] at hle hlt hmod
    exact ⟨by omega, hmod⟩

theorem Denotes.unique {k : ElementKind} {n n' r r' : Int} (h : Denotes k n r)
    (h' : Denotes k n' r') (hn : n ≡ n' [ZMOD 2 ^ k.width]) : r = r' := by
  have hdvd : (2 : Int) ^ k.width ∣ r' - r := ((h.2.trans hn).trans h'.2.symm).dvd
  have htwo := two_pow_width_eq k
  have habs : |r' - r| < 2 ^ k.width := by
    have hr := h.1
    have hr' := h'.1
    rw [InRange] at hr hr'
    rw [abs_lt]
    cases hsigned : k.signed with
    | false =>
      simp only [hsigned, Bool.false_eq_true, if_false] at hr hr'
      omega
    | true =>
      simp only [hsigned, if_true] at hr hr'
      omega
  have := Int.eq_zero_of_abs_lt_dvd hdvd habs
  omega

theorem residue_eq_iff (k : ElementKind) (n z : Int) :
    Denotes k n (residue k z) ↔ z ≡ n [ZMOD 2 ^ k.width] := by
  constructor
  · intro h
    exact (denotes_residue k z).2.symm.trans h.2
  · intro h
    exact ⟨(denotes_residue k z).1, (denotes_residue k z).2.trans h⟩

theorem bytesInt_intBytes (k : ElementKind) (z : Int) :
    bytesInt k (intBytes k.size z) = residue k z := by
  rw [bytesInt, residue, leValue_intBytes]
  cases k.signed with
  | false => rfl
  | true =>
    simp only [if_true]
    have hcast : ((256 : Int) ^ k.size) = ((256 ^ k.size : Nat) : Int) := by norm_cast
    rw [hcast, Int.emod_bmod]

/-- What is read back of a value is the residue of its cast. -/
theorem readElement_writeElement (k : ElementKind) {bytes : List UInt8} {offset : Nat}
    (hfit : offset + k.size ≤ bytes.length) (value : ElementValue) :
    readElement k (writeElement k bytes offset value) offset =
      if k.kind.isBigint then .bigint (residue k (castElement k value))
      else .number (.finite (residue k (castElement k value))) := by
  have hlen : (elementBytes k value).length = k.size := length_elementBytes k value
  have hfit' : offset + (elementBytes k value).length ≤ bytes.length := by omega
  have hread : chunk (splice bytes offset (elementBytes k value)) offset k.size
      = elementBytes k value := by
    have h := chunk_splice hfit'
    rwa [hlen] at h
  rw [writeElement, if_neg (by omega), readElement, length_splice hfit', if_neg (by omega)]
  dsimp only
  rw [hread, elementBytes_eq, bytesInt_intBytes]

/-! ### Integers of any size -/

/-- The bounds at which the cast of a Number stops. -/
def castLow (k : ElementKind) : Int :=
  if k = .uint32 then 0 else -2147483648

def castHigh (k : ElementKind) : Int :=
  if k = .uint32 then 4294967295 else 2147483647

/-- An integer that the cast does not change, or changes by a multiple of
the modulus. -/
def Fits (k : ElementKind) (n : Int) : Prop :=
  (castLow k ≤ n ∧ n ≤ castHigh k) ∨ (n < castLow k ∧ (2 : Int) ^ k.width ∣ n - castLow k)
    ∨ (castHigh k < n ∧ (2 : Int) ^ k.width ∣ n - castHigh k)

theorem truncate_intCast (n : Int) : truncate n = n := by
  simp [truncate]

theorem castElement_intCast {k : ElementKind} (hbig : k.kind.isBigint = false)
    (hclamped : k ≠ .uint8Clamped) (n : Int) :
    castElement k (.number (.finite n)) = max (castLow k) (min n (castHigh k)) := by
  cases k <;>
    first
    | exact absurd rfl hclamped
    | exact absurd hbig (by decide)
    | simp [castElement, ElementValue.toNumber, Number.asI32, Number.asU32, Atomics.asI32,
        Atomics.asU32, truncate_intCast, castLow, castHigh]

theorem castLow_le_castHigh (k : ElementKind) : castLow k ≤ castHigh k := by
  cases k <;> decide

theorem castElement_modEq_iff {k : ElementKind} (hbig : k.kind.isBigint = false)
    (hclamped : k ≠ .uint8Clamped) (n : Int) :
    castElement k (.number (.finite n)) ≡ n [ZMOD 2 ^ k.width] ↔ Fits k n := by
  have hle := castLow_le_castHigh k
  rw [castElement_intCast hbig hclamped, Fits, Int.modEq_iff_dvd]
  rcases lt_trichotomy n (castLow k) with hlow | heq | hlow
  · rw [min_eq_left (by omega), max_eq_left (by omega)]
    exact ⟨fun h => .inr (.inl ⟨hlow, h⟩), fun h => by omega⟩
  · rw [min_eq_left (by omega), max_eq_right (by omega), sub_self]
    exact iff_of_true (dvd_zero _) (.inl (by omega))
  · rcases le_or_gt n (castHigh k) with hhigh | hhigh
    · rw [min_eq_left hhigh, max_eq_right (by omega), sub_self]
      exact iff_of_true (dvd_zero _) (.inl (by omega))
    · rw [min_eq_right (by omega), max_eq_right hle]
      exact ⟨fun h => .inr (.inr ⟨hhigh, h⟩), fun h => by omega⟩

/-! ### Clamping -/

/-- The even one of `z` and `z + 1`. -/
def evenNeighbour (z : Int) : Int :=
  if z % 2 = 0 then z else z + 1

theorem clampRound_of_le_zero {q : ℚ} (h : q ≤ 0) : (Number.finite q).clampRound = 0 := by
  rw [Number.clampRound, min_eq_left (by linarith), max_eq_left h]
  norm_num

theorem clampRound_of_ge {q : ℚ} (h : 255 ≤ q) : (Number.finite q).clampRound = 255 := by
  rw [Number.clampRound, min_eq_right h]
  norm_num

/-- A tie goes up, to the even neighbour or not. -/
theorem clampRound_half {z : Int} (hlow : 0 ≤ z) (hhigh : z < 255) :
    (Number.finite (z + 1 / 2)).clampRound = z + 1 := by
  have h0 : (0 : ℚ) ≤ z := by exact_mod_cast hlow
  have h1 : (z : ℚ) + 1 ≤ 255 := by exact_mod_cast hhigh
  rw [Number.clampRound, min_eq_left (by linarith), max_eq_right (by linarith), Int.floor_eq_iff]
  push_cast
  constructor <;> linarith

theorem residue_uint8Clamped {z : Int} (h : 0 ≤ z ∧ z ≤ 255) : residue .uint8Clamped z = z := by
  have hsize : ElementKind.uint8Clamped.size = 1 := rfl
  rw [residue, hsize]
  simp only [ElementKind.signed, Bool.false_eq_true, if_false, pow_one]
  omega

/-! ### The law -/

/-- **Element conversion.** A BigInt is stored modulo the width. An integer
Number is exactly when the cast to 32 bits stops at no bound, or moves it by
a multiple of the modulus. The clamped kind stops at its bounds, and takes
a tie to the even neighbour exactly when that is the upper one. The bytes do
not depend on whether the buffer is shared. -/
theorem element_conversion (k : ElementKind) (bytes : List UInt8) (offset : Nat)
    (hfit : offset + k.size ≤ bytes.length) :
    (∀ n, ∃! r, Denotes k n r)
      ∧ (k.kind.isBigint = true → ∀ n : Int,
        ∃ r, readElement k (writeElement k bytes offset (.bigint n)) offset = .bigint r
          ∧ Denotes k n r)
      ∧ (k.kind.isBigint = false → k ≠ .uint8Clamped → ∀ n : Int,
        (∃ r : Int, readElement k (writeElement k bytes offset (.number (.finite n))) offset
            = .number (.finite r) ∧ Denotes k n r)
          ↔ Fits k n)
      ∧ (k = .uint8Clamped →
        (∀ q : ℚ, q ≤ 0 →
          readElement k (writeElement k bytes offset (.number (.finite q))) offset
            = .number (.finite 0))
        ∧ (∀ q : ℚ, 255 ≤ q →
          readElement k (writeElement k bytes offset (.number (.finite q))) offset
            = .number (.finite 255))
        ∧ (∀ z : Int, 0 ≤ z → z < 255 →
          (readElement k (writeElement k bytes offset (.number (.finite (z + 1 / 2)))) offset
              = .number (.finite (evenNeighbour z)) ↔ z % 2 = 1)))
      ∧ (∀ beyond value, writeElementShared k (bytes ++ beyond) bytes.length offset value
          = writeElement k bytes offset value ++ beyond) := by
  refine ⟨?unique, ?bigint, ?number, ?clamped, ?shared⟩
  case unique =>
    intro n
    exact ⟨residue k n, denotes_residue k n, fun r hr =>
      hr.unique (denotes_residue k n) (Int.ModEq.refl n)⟩
  case bigint =>
    intro hbig n
    have hcast : castElement k (.bigint n) = n := by
      cases k <;> first | rfl | exact absurd hbig (by decide)
    refine ⟨residue k n, ?_, denotes_residue k n⟩
    rw [readElement_writeElement k hfit, if_pos hbig, hcast]
  case number =>
    intro hbig hclamped n
    rw [← castElement_modEq_iff hbig hclamped, ← residue_eq_iff,
      readElement_writeElement k hfit, if_neg (by simp [hbig])]
    constructor
    · rintro ⟨r, hr, hden⟩
      simp only [ElementValue.number.injEq, Number.finite.injEq, Int.cast_inj] at hr
      exact hr ▸ hden
    · intro h
      exact ⟨_, rfl, h⟩
  case clamped =>
    intro hk
    subst hk
    have hread : ∀ (q : ℚ) (z : Int), (Number.finite q).clampRound = z → 0 ≤ z ∧ z ≤ 255 →
        readElement .uint8Clamped (writeElement .uint8Clamped bytes offset (.number (.finite q)))
          offset = .number (.finite z) := by
      intro q z hz hrange
      rw [readElement_writeElement _ hfit, if_neg (by decide)]
      have hcast : castElement .uint8Clamped (.number (.finite q)) = z := hz
      rw [hcast, residue_uint8Clamped hrange]
    refine ⟨fun q hq => ?_, fun q hq => ?_, fun z hlow hhigh => ?_⟩
    · exact_mod_cast hread q 0 (clampRound_of_le_zero hq) (by decide)
    · exact_mod_cast hread q 255 (clampRound_of_ge hq) (by decide)
    · rw [hread _ (z + 1) (clampRound_half hlow hhigh) (by omega)]
      simp only [ElementValue.number.injEq, Number.finite.injEq, Int.cast_inj, evenNeighbour]
      split
      · omega
      · omega
  case shared =>
    intro beyond value
    exact writeElementShared_append k bytes beyond offset value

/-- An integer of ten bits in an element of eight. -/
theorem element_conversion_wraps :
    ∃ r : Int, readElement .int8 (writeElement .int8 [7, 7] 1 (.number (.finite (700 : Int)))) 1
      = .number (.finite r) ∧ Denotes .int8 700 r :=
  ((element_conversion .int8 [7, 7] 1 (by decide)).2.2.1 rfl (by decide) 700).2
    (.inl ⟨by decide, by decide⟩)

/-- Minus one is stored as zero by the widest unsigned kind, where all bits
set are its residue, the first integer beyond 32 bits as minus one by the
narrowest, and one half as one by the clamped kind. -/
theorem element_conversion_saturates :
    readElement .uint32 (writeElement .uint32 [0, 0, 0, 0] 0 (.number (.finite (-1 : Int)))) 0
        = .number (.finite (0 : Int))
      ∧ ¬Denotes .uint32 (-1) 0
      ∧ readElement .int8 (writeElement .int8 [0] 0 (.number (.finite (2147483648 : Int)))) 0
        = .number (.finite (-1 : Int))
      ∧ ¬Denotes .int8 2147483648 (-1)
      ∧ readElement .uint8Clamped
          (writeElement .uint8Clamped [0] 0 (.number (.finite ((0 : Int) + 1 / 2)))) 0
        = .number (.finite (1 : Int)) := by
  refine ⟨?_, ?_, ?_, ?_, ?_⟩
  · rw [readElement_writeElement _ (by decide), if_neg (by decide),
      castElement_intCast (by decide) (by decide)]
    rfl
  · rintro ⟨-, hmod⟩
    exact absurd hmod (by decide)
  · rw [readElement_writeElement _ (by decide), if_neg (by decide),
      castElement_intCast (by decide) (by decide)]
    rfl
  · rintro ⟨-, hmod⟩
    exact absurd hmod (by decide)
  · rw [readElement_writeElement _ (by decide), if_neg (by decide)]
    have hcast : castElement .uint8Clamped (.number (.finite ((0 : Int) + 1 / 2))) = 1 :=
      clampRound_half (by decide) (by decide)
    rw [hcast]
    rfl

end OxideJS.Buffer
