import OxideJS.Buffer.Elements

/-!
Moves of elements inside one buffer.

`copyWithin` reads and writes one element after the other in the buffer
itself, upwards, or downwards if the target begins inside the source. `set`
from a view of the same buffer reads all elements of the source before it
writes the first. Either way the buffer ends as if all elements had been
moved at once.

The arguments have been converted already, so nothing happens to the
buffer during the call. A detached buffer has no content and is refused
like a view out of bounds.
-/

namespace OxideJS.Buffer

open OxideJS.Lib.Splices

/-- The bytes of a buffer, of which the first `length` are live. An
allocation is shorter than `2 ^ 63` bytes. -/
structure Store where
  shared : Bool
  immutable : Bool
  bytes : List UInt8
  length : Nat
  length_le : length ≤ bytes.length
  whole : shared = false → length = bytes.length
  allocated : bytes.length < 2 ^ 63

/-- A typed array on a given buffer. -/
structure Window where
  byteOffset : Nat
  length : Nat
  autoLength : Bool
  kind : ElementKind

inductive ErrorKind where
  | typeError | rangeError
  deriving DecidableEq

structure Failure where
  kind : ErrorKind
  message : String
  deriving DecidableEq

/-! ### Bounds -/

namespace Window

def absoluteByteOffset (w : Window) (index : Nat) : Nat :=
  w.byteOffset + index * w.kind.size

def taSpecLength (w : Window) (s : Store) : Nat :=
  if w.autoLength then (s.length - w.byteOffset) / w.kind.size else w.length

def taIsOob (w : Window) (s : Store) : Bool :=
  if w.autoLength then w.byteOffset > s.length
  else w.byteOffset + w.length * w.kind.size > s.length

def taLiveLength (w : Window) (s : Store) : Nat :=
  if w.taIsOob s then 0 else w.taSpecLength s

end Window

/-! ### Elements of a store -/

namespace Store

def taStoreRead (s : Store) (k : ElementKind) (offset : Nat) : ElementValue :=
  readElement k (s.bytes.take s.length) offset

def storeBytes (s : Store) (k : ElementKind) (offset : Nat) (value : ElementValue) : List UInt8 :=
  if s.shared then writeElementShared k s.bytes s.length offset value
  else writeElement k s.bytes offset value

theorem storeBytes_eq (s : Store) (k : ElementKind) (offset : Nat) (value : ElementValue) :
    s.storeBytes k offset value =
      if offset + k.size > s.length then s.bytes
      else splice s.bytes offset (elementBytes k value) := by
  rw [storeBytes]
  cases hshared : s.shared with
  | true => rw [if_pos rfl, writeElementShared_eq]
  | false => rw [if_neg (by decide), writeElement, s.whole hshared]

theorem length_storeBytes (s : Store) (k : ElementKind) (offset : Nat) (value : ElementValue) :
    (s.storeBytes k offset value).length = s.bytes.length := by
  have hle := s.length_le
  rw [storeBytes_eq]
  split
  · rfl
  · exact length_splice (by rw [length_elementBytes]; omega)

def taStoreWrite (s : Store) (k : ElementKind) (offset : Nat) (value : ElementValue) : Store where
  shared := s.shared
  immutable := s.immutable
  bytes := s.storeBytes k offset value
  length := s.length
  length_le := (s.length_storeBytes k offset value).symm ▸ s.length_le
  whole := fun h => (s.whole h).trans (s.length_storeBytes k offset value).symm
  allocated := (s.length_storeBytes k offset value).symm ▸ s.allocated

def taRead (s : Store) (w : Window) (index : Nat) : ElementValue :=
  if index ≥ w.taLiveLength s then .undefined
  else s.taStoreRead w.kind (w.absoluteByteOffset index)

def taWrite (s : Store) (w : Window) (index : Nat) (value : ElementValue) : Store :=
  if index ≥ w.taLiveLength s then s
  else s.taStoreWrite w.kind (w.absoluteByteOffset index) value

def taValidate (s : Store) (w : Window) (writable : Bool) : Except Failure Unit :=
  if w.taIsOob s then .error ⟨.typeError, "TypedArray is detached or out of bounds"⟩
  else if writable && !s.shared && s.immutable then .error ⟨.typeError, "ArrayBuffer is immutable"⟩
  else .ok ()

/-! ### The operations -/

/-- The loop of `copyWithin`. The positions after the last round, which may
lie before the first element, are not used. -/
def copyLoop (s : Store) (w : Window) (source dest : Nat) (direction : Int) : Nat → Store
  | 0 => s
  | count + 1 =>
    copyLoop (s.taWrite w dest (s.taRead w source)) w (source + direction).toNat
      (dest + direction).toNat direction count

def copyWithin (s : Store) (w : Window) (targetRaw startRaw endRaw : IntegerOrInfinity) :
    Except Failure Store := do
  s.taValidate w true
  let len := w.taSpecLength s
  let target := clampIndexToLen targetRaw len
  let start := clampIndexToLen startRaw len
  let stop := clampIndexToLen endRaw len
  let count := min (max stop start - start) (len - target)
  let count ← if count > 0 then do
      s.taValidate w true
      let len2 := w.taSpecLength s
      pure (min (min count (len2 - start)) (len2 - target))
    else pure count
  if count > 0 ∧ start < target ∧ target < start + count then
    pure (s.copyLoop w (start + count - 1) (target + count - 1) (-1) count)
  else pure (s.copyLoop w start target 1 count)

def taElementValue (k : ElementKind) (value : ElementValue) : Except Failure ElementValue :=
  if k.kind.isBigint then
    match value with
    | .bigint n => .ok (.bigint n)
    | .number _ => .error ⟨.typeError, "Cannot convert a Number value to a BigInt"⟩
    | .undefined => .error ⟨.typeError, "Cannot convert value to a BigInt"⟩
  else
    match value with
    | .bigint _ => .error ⟨.typeError, "Cannot convert a BigInt value to a number"⟩
    | value => .ok (.number value.toNumber)

/-- The loop of `set`; `index` is `offset + k`, which wraps around. -/
def setLoop (s : Store) (w : Window) (index : Nat) : List ElementValue → Except Failure Store
  | [] => .ok s
  | value :: values => do
    let elem ← taElementValue w.kind value
    if index % 2 ^ 64 < w.taLiveLength s then
      setLoop (s.taStoreWrite w.kind (w.absoluteByteOffset (index % 2 ^ 64)) elem) w (index + 1)
        values
    else setLoop s w (index + 1) values

def offsetFailure : Failure :=
  ⟨.rangeError, "TypedArray.set offset out of bounds"⟩

/-- The cast of the offset to `usize`. -/
def setOffset : IntegerOrInfinity → Except Failure Nat
  | .int z => if z < 0 then .error offsetFailure else .ok (min z.toNat (2 ^ 64 - 1))
  | _ => .error offsetFailure

/-- `set` from a view of the same buffer. -/
def set (s : Store) (w source : Window) (offsetRaw : IntegerOrInfinity) :
    Except Failure Store := do
  s.taValidate w true
  let offset ← setOffset offsetRaw
  s.taValidate w true
  let len := w.taSpecLength s
  s.taValidate source false
  let snap := (List.range (source.taLiveLength s)).map (s.taRead source)
  if (snap.length + offset) % 2 ^ 64 > len then .error offsetFailure
  else s.setLoop w offset snap

end Store

/-! ### One element -/

/-- How an element of a kind is passed on. -/
def elementOf (k : ElementKind) (z : Int) : ElementValue :=
  if k.kind.isBigint then .bigint z else .number (.finite z)

theorem castElement_elementOf {k : ElementKind} {z : Int} (h : InRange k z) :
    castElement k (elementOf k z) = z := by
  by_cases hbig : k.kind.isBigint = true
  · rw [elementOf, if_pos hbig]
    cases k <;> first | rfl | exact absurd hbig (by decide)
  · rw [elementOf, if_neg hbig]
    by_cases hclamped : k = .uint8Clamped
    · subst hclamped
      have h' : 0 ≤ z ∧ z < 2 ^ 8 := h
      have h0 : (0 : ℚ) ≤ z := by exact_mod_cast h'.1
      have h1 : (z : ℚ) ≤ 255 := by exact_mod_cast (by omega : z ≤ 255)
      have hround : (Number.finite z).clampRound = z := by
        rw [Number.clampRound, min_eq_left h1, max_eq_right h0, Int.floor_eq_iff]
        constructor <;> linarith
      exact hround
    · rw [castElement_intCast (by simpa using hbig) hclamped]
      have hrange : castLow k ≤ z ∧ z ≤ castHigh k := by
        cases k <;>
          simp only [InRange, ElementKind.signed, ElementKind.width, ElementKind.size,
            ElementKind.kind, TypedArrayKind.bytesPerElement, TypedArrayKind.isBigint, if_true,
            Bool.false_eq_true, if_false, castLow, castHigh, reduceCtorEq, not_true] at h hbig ⊢ <;>
          omega
      rw [min_eq_left hrange.2, max_eq_right hrange.1]

theorem bytesInt_eq_residue {k : ElementKind} {bs : List UInt8} (h : bs.length = k.size) :
    bytesInt k bs = residue k (leValue bs) := by
  have hlt := leValue_lt bs
  rw [bytesInt, residue]
  cases k.signed with
  | true => rfl
  | false =>
    simp only [Bool.false_eq_true, if_false]
    rw [← h, Int.emod_eq_of_lt (by positivity) (by exact_mod_cast hlt)]

/-- The bytes of the element read are the bytes it was read from. -/
theorem elementBytes_elementOf {k : ElementKind} {bs : List UInt8} (h : bs.length = k.size) :
    elementBytes k (elementOf k (bytesInt k bs)) = bs := by
  have hres := bytesInt_eq_residue h
  have hden := denotes_residue k (leValue bs)
  have hlt := leValue_lt bs
  have hmod : bytesInt k bs % 256 ^ k.size = leValue bs := by
    have hcongr := hden.2
    rw [Int.ModEq, ← hres, two_pow_width] at hcongr
    rw [hcongr, ← h]
    exact Int.emod_eq_of_lt (by positivity) (by exact_mod_cast hlt)
  rw [elementBytes_eq, castElement_elementOf (hres ▸ hden.1), intBytes, hmod, Int.toNat_natCast,
    ← h, leBytes_leValue]

theorem taElementValue_elementOf (k : ElementKind) (z : Int) :
    Store.taElementValue k (elementOf k z) = .ok (elementOf k z) := by
  cases hbig : k.kind.isBigint with
  | true => simp [Store.taElementValue, elementOf, hbig]
  | false => simp [Store.taElementValue, elementOf, hbig, ElementValue.toNumber]

namespace Store

variable {s s' : Store} {w : Window}

theorem taStoreRead_eq {k : ElementKind} {offset : Nat} (h : offset + k.size ≤ s.length) :
    s.taStoreRead k offset = elementOf k (bytesInt k (chunk s.bytes offset k.size)) := by
  have hle := s.length_le
  have hchunk : chunk (s.bytes.take s.length) offset k.size = chunk s.bytes offset k.size := by
    rw [chunk, chunk, List.drop_take, List.take_take, min_eq_left (by omega)]
  rw [taStoreRead, readElement, List.length_take, if_neg (by omega)]
  dsimp only
  rw [hchunk]
  rfl

@[simp] theorem length_taStoreWrite (k : ElementKind) (offset : Nat) (value : ElementValue) :
    (s.taStoreWrite k offset value).length = s.length := rfl

theorem bytes_taStoreWrite {k : ElementKind} {offset : Nat} (h : offset + k.size ≤ s.length)
    (value : ElementValue) :
    (s.taStoreWrite k offset value).bytes = splice s.bytes offset (elementBytes k value) := by
  have heq := s.storeBytes_eq k offset value
  rwa [if_neg (by omega)] at heq

theorem taSpecLength_congr (h : s'.length = s.length) :
    w.taSpecLength s' = w.taSpecLength s := by
  rw [Window.taSpecLength, Window.taSpecLength, h]

theorem taLiveLength_congr (h : s'.length = s.length) :
    w.taLiveLength s' = w.taLiveLength s := by
  rw [Window.taLiveLength, Window.taLiveLength, Window.taIsOob, Window.taIsOob, h,
    taSpecLength_congr h]

/-- An element below the live length lies within the live bytes. -/
theorem element_within {index : Nat} (h : index < w.taLiveLength s) :
    w.absoluteByteOffset index + w.kind.size ≤ s.length := by
  have hsize := w.kind.size_pos
  have hsucc : (index + 1) * w.kind.size = index * w.kind.size + w.kind.size := Nat.succ_mul _ _
  rw [Window.taLiveLength, Window.taIsOob, Window.taSpecLength] at h
  rw [Window.absoluteByteOffset]
  cases hauto : w.autoLength with
  | true =>
    simp only [hauto, if_true, decide_eq_true_eq] at h
    split at h
    · omega
    · have := (Nat.le_div_iff_mul_le hsize).1 h
      rw [Nat.succ_eq_add_one] at this
      omega
  | false =>
    simp only [hauto, Bool.false_eq_true, if_false, decide_eq_true_eq] at h
    split at h
    · omega
    · have : (index + 1) * w.kind.size ≤ w.length * w.kind.size := Nat.mul_le_mul_right _ h
      omega

theorem taRead_eq {index : Nat} (h : index < w.taLiveLength s) :
    s.taRead w index =
      elementOf w.kind
        (bytesInt w.kind (chunk s.bytes (w.absoluteByteOffset index) w.kind.size)) := by
  rw [taRead, if_neg (by omega), taStoreRead_eq (element_within h)]

/-- The bytes that are written for an element read. -/
theorem elementBytes_taRead {index : Nat} (h : index < w.taLiveLength s) :
    elementBytes w.kind (s.taRead w index)
      = chunk s.bytes (w.absoluteByteOffset index) w.kind.size := by
  have := s.length_le
  have := element_within h
  rw [taRead_eq h, elementBytes_elementOf (length_chunk (by omega))]

theorem taRead_congr (hlen : s'.length = s.length) {index index' : Nat}
    (hlive : index < w.taLiveLength s ↔ index' < w.taLiveLength s)
    (hchunk : index < w.taLiveLength s →
      chunk s'.bytes (w.absoluteByteOffset index') w.kind.size
        = chunk s.bytes (w.absoluteByteOffset index) w.kind.size) :
    s'.taRead w index' = s.taRead w index := by
  have hlen' := taLiveLength_congr (w := w) hlen
  by_cases h : index < w.taLiveLength s
  · rw [taRead_eq h, taRead_eq (hlen' ▸ hlive.1 h), hchunk h]
  · have h' : ¬index' < w.taLiveLength s := fun hlt => h (hlive.2 hlt)
    rw [taRead, taRead, hlen', if_pos (by omega), if_pos (by omega)]

/-! ### The loop of `copyWithin` -/

theorem moved_taWrite (source dest : Nat) (hsource : source < w.taLiveLength s)
    (hdest : dest < w.taLiveLength s) :
    Moved s.bytes (s.taWrite w dest (s.taRead w source)).bytes (w.absoluteByteOffset source)
      (w.absoluteByteOffset dest) w.kind.size := by
  have hle := s.length_le
  have hfit := element_within hdest
  rw [taWrite, if_neg (by omega), bytes_taStoreWrite hfit]
  refine moved_splice (by omega) (length_elementBytes _ _) fun i hi => ?_
  rw [elementBytes_taRead hsource, getElem?_chunk hi]

theorem length_taWrite (index : Nat) (value : ElementValue) :
    (s.taWrite w index value).length = s.length := by
  rw [taWrite]
  split
  · rfl
  · rfl

theorem length_copyLoop (source dest : Nat) (direction : Int) (count : Nat) :
    (s.copyLoop w source dest direction count).length = s.length := by
  induction count generalizing s source dest with
  | zero => rfl
  | succ count ih => rw [copyLoop, ih, length_taWrite]

theorem absoluteByteOffset_add (i n : Nat) :
    w.absoluteByteOffset (i + n) = w.absoluteByteOffset i + n * w.kind.size := by
  rw [Window.absoluteByteOffset, Window.absoluteByteOffset, Nat.add_mul, Nat.add_assoc]

theorem absoluteByteOffset_le {i j : Nat} (h : i ≤ j) :
    w.absoluteByteOffset i ≤ w.absoluteByteOffset j :=
  Nat.add_le_add_left (Nat.mul_le_mul_right _ h) _

/-- Upwards, the elements not yet read lie above or apart from those
written. -/
theorem moved_copyLoop_up (source dest count : Nat) (hsource : source + count ≤ w.taLiveLength s)
    (hdest : dest + count ≤ w.taLiveLength s) (hapart : dest ≤ source ∨ source + count ≤ dest) :
    Moved s.bytes (s.copyLoop w source dest 1 count).bytes (w.absoluteByteOffset source)
      (w.absoluteByteOffset dest) (count * w.kind.size) := by
  induction count generalizing s source dest with
  | zero =>
    rw [Nat.zero_mul]
    exact moved_zero _ _ _
  | succ count ih =>
    have hfirst := moved_taWrite (s := s) (w := w) source dest (by omega) (by omega)
    have hlive : w.taLiveLength (s.taWrite w dest (s.taRead w source)) = w.taLiveLength s :=
      taLiveLength_congr (length_taWrite _ _)
    have hrest := ih (s := s.taWrite w dest (s.taRead w source)) (source + 1) (dest + 1)
      (by omega) (by omega) (by omega)
    rw [absoluteByteOffset_add, absoluteByteOffset_add, Nat.one_mul] at hrest
    have happly := hfirst.up hrest (by
      rcases hapart with h | h
      · exact .inl (absoluteByteOffset_le h)
      · refine .inr ?_
        have := absoluteByteOffset_le (w := w) h
        rw [absoluteByteOffset_add, Nat.succ_mul] at this
        omega)
    rw [Nat.succ_mul, Nat.add_comm (count * _)]
    exact happly

/-- Downwards, the elements not yet read lie below those written. -/
theorem moved_copyLoop_down (source dest count : Nat) (hsource : source + count ≤ w.taLiveLength s)
    (hdest : dest + count ≤ w.taLiveLength s) (hle : source ≤ dest) :
    Moved s.bytes (s.copyLoop w (source + count - 1) (dest + count - 1) (-1) count).bytes
      (w.absoluteByteOffset source) (w.absoluteByteOffset dest) (count * w.kind.size) := by
  induction count generalizing s with
  | zero =>
    rw [Nat.zero_mul]
    exact moved_zero _ _ _
  | succ count ih =>
    have hlast := moved_taWrite (s := s) (w := w) (source + count) (dest + count) (by omega)
      (by omega)
    have hlive : w.taLiveLength (s.taWrite w (dest + count) (s.taRead w (source + count)))
        = w.taLiveLength s := taLiveLength_congr (length_taWrite _ _)
    have hrest := ih (s := s.taWrite w (dest + count) (s.taRead w (source + count))) (by omega)
      (by omega)
    rw [absoluteByteOffset_add, absoluteByteOffset_add] at hlast
    have happly := hlast.down hrest (absoluteByteOffset_le hle)
    have hsourceNext : (((source + count : Nat) : Int) + -1).toNat = source + count - 1 := by omega
    have hdestNext : (((dest + count : Nat) : Int) + -1).toNat = dest + count - 1 := by omega
    rw [Nat.succ_mul, ← Nat.add_assoc, ← Nat.add_assoc, Nat.add_sub_cancel, Nat.add_sub_cancel,
      copyLoop, hsourceNext, hdestNext]
    exact happly

/-! ### `copyWithin` -/

/-- The position that an argument stands for: counted from the end when it is negative, and not
outside of the elements. -/
def relativeIndex (raw : IntegerOrInfinity) (len : Nat) : Int :=
  match raw with
  | .negInf => 0
  | .posInf => len
  | .int z => if z < 0 then max (len + z) 0 else min z len

theorem clampIndexToLen_eq (raw : IntegerOrInfinity) (len : Nat) :
    (clampIndexToLen raw len : Int) = relativeIndex raw len := by
  cases raw with
  | negInf => rfl
  | posInf => rfl
  | int z =>
    rw [clampIndexToLen, relativeIndex]
    split <;> omega

theorem clampIndexToLen_le (raw : IntegerOrInfinity) (len : Nat) :
    clampIndexToLen raw len ≤ len := by
  have heq := clampIndexToLen_eq raw len
  cases raw with
  | negInf => exact Nat.zero_le len
  | posInf => exact Nat.le_refl len
  | int z =>
    rw [relativeIndex] at heq
    split at heq <;> omega

theorem taLiveLength_of_valid {writable : Bool} (h : s.taValidate w writable = .ok ()) :
    w.taLiveLength s = w.taSpecLength s := by
  rw [Window.taLiveLength]
  cases hoob : w.taIsOob s with
  | false => rfl
  | true => simp [taValidate, hoob] at h

/-- The store that a call which is not refused leaves. -/
def copied (s : Store) (w : Window) (start target count : Nat) : Store :=
  if count > 0 ∧ start < target ∧ target < start + count then
    s.copyLoop w (start + count - 1) (target + count - 1) (-1) count
  else s.copyLoop w start target 1 count

theorem copyWithin_eq (h : s.taValidate w true = .ok ())
    (targetRaw startRaw endRaw : IntegerOrInfinity) :
    let len := w.taSpecLength s
    let target := clampIndexToLen targetRaw len
    let start := clampIndexToLen startRaw len
    s.copyWithin w targetRaw startRaw endRaw = .ok (s.copied w start target
      (min (clampIndexToLen endRaw len - start) (len - target))) := by
  intro len target start
  have hstop : clampIndexToLen endRaw len ≤ len := clampIndexToLen_le endRaw len
  have hcount : max (clampIndexToLen endRaw len) start - start
      = clampIndexToLen endRaw len - start := by omega
  have hagain : min (min (min (clampIndexToLen endRaw len - start) (len - target)) (len - start))
      (len - target) = min (clampIndexToLen endRaw len - start) (len - target) := by omega
  have hunfold : s.copyWithin w targetRaw startRaw endRaw =
      .ok (s.copied w start target
        (if min (max (clampIndexToLen endRaw len) start - start) (len - target) > 0 then
          min (min (min (max (clampIndexToLen endRaw len) start - start) (len - target))
            (len - start)) (len - target)
        else min (max (clampIndexToLen endRaw len) start - start) (len - target))) := by
    simp only [copyWithin, h, bind, Except.bind, pure, Except.pure, copied]
    split
    · split
      · rfl
      · rfl
    · split
      · rfl
      · rfl
  rw [hunfold, hcount, hagain, ite_self]

theorem length_copied (start target count : Nat) :
    (s.copied w start target count).length = s.length := by
  rw [copied]
  split
  · exact length_copyLoop _ _ _ _
  · exact length_copyLoop _ _ _ _

theorem moved_copied {start target count : Nat} (hstart : start + count ≤ w.taLiveLength s)
    (htarget : target + count ≤ w.taLiveLength s) :
    Moved s.bytes (s.copied w start target count).bytes (w.absoluteByteOffset start)
      (w.absoluteByteOffset target) (count * w.kind.size) := by
  rw [copied]
  split
  · next h => exact moved_copyLoop_down start target count hstart htarget h.2.1.le
  · next h => exact moved_copyLoop_up start target count hstart htarget (by omega)

/-- The elements after a move of elements. -/
theorem taRead_moved {start target count : Nat} (hlen : s'.length = s.length)
    (hmoved : Moved s.bytes s'.bytes (w.absoluteByteOffset start) (w.absoluteByteOffset target)
      (count * w.kind.size))
    (hstart : start + count ≤ w.taLiveLength s) (htarget : target + count ≤ w.taLiveLength s) :
    (∀ i < count, s'.taRead w (target + i) = s.taRead w (start + i))
      ∧ ∀ j, j < target ∨ target + count ≤ j → s'.taRead w j = s.taRead w j := by
  constructor
  · intro i hi
    refine taRead_congr hlen (by omega) fun _ => ?_
    rw [absoluteByteOffset_add, absoluteByteOffset_add]
    refine hmoved.chunk_inside ?_
    rw [← Nat.succ_mul]
    exact Nat.mul_le_mul_right _ hi
  · intro j hj
    refine taRead_congr hlen Iff.rfl fun _ => hmoved.chunk_outside ?_
    rw [← absoluteByteOffset_add]
    rcases hj with hj | hj
    · have h := absoluteByteOffset_le (w := w) (Nat.succ_le_of_lt hj)
      rw [Nat.succ_eq_add_one, absoluteByteOffset_add, Nat.one_mul] at h
      exact .inl h
    · exact .inr (absoluteByteOffset_le hj)

/-! ### `set` -/

/-- One more element that `s₀` had is written. -/
theorem moved_setStep {s₀ : Store} {source : Window} (hkind : source.kind = w.kind)
    {offset m : Nat} (hm : m < source.taLiveLength s₀) (hindex : offset + m < w.taLiveLength s)
    (hlen : s.length = s₀.length)
    (hmoved : Moved s₀.bytes s.bytes (source.absoluteByteOffset 0) (w.absoluteByteOffset offset)
      (m * w.kind.size)) :
    Moved s₀.bytes
      (s.taStoreWrite w.kind (w.absoluteByteOffset (offset + m)) (s₀.taRead source m)).bytes
      (source.absoluteByteOffset 0) (w.absoluteByteOffset offset) ((m + 1) * w.kind.size) := by
  have hfit := element_within hindex
  have hle := s.length_le
  have hle₀ := s₀.length_le
  have hbytes : elementBytes w.kind (s₀.taRead source m)
      = chunk s₀.bytes (source.absoluteByteOffset m) w.kind.size := by
    rw [← hkind]
    exact elementBytes_taRead hm
  have hsourceAt : source.absoluteByteOffset 0 + m * w.kind.size
      = source.absoluteByteOffset m := by
    rw [← hkind, ← absoluteByteOffset_add, Nat.zero_add]
  rw [bytes_taStoreWrite hfit, absoluteByteOffset_add, Nat.succ_mul]
  have h := hmoved.snapshot (elementBytes w.kind (s₀.taRead source m))
    (by
      rw [length_elementBytes, ← absoluteByteOffset_add]
      omega)
    (by
      intro i hi
      rw [length_elementBytes] at hi
      rw [hbytes, getElem?_chunk hi, hsourceAt])
  rwa [length_elementBytes] at h

/-- The loop writes the elements that `s₀` had, whatever it has written. -/
theorem setLoop_moved {s₀ : Store} {source : Window} (hkind : source.kind = w.kind)
    (offset m n : Nat) (hsource : m + n ≤ source.taLiveLength s₀)
    (htarget : offset + m + n ≤ w.taLiveLength s₀) (hlen : s.length = s₀.length)
    (hmoved : Moved s₀.bytes s.bytes (source.absoluteByteOffset 0) (w.absoluteByteOffset offset)
      (m * w.kind.size)) :
    ∃ s', s.setLoop w (offset + m) ((List.range' m n).map (s₀.taRead source)) = .ok s'
      ∧ s'.length = s₀.length
      ∧ Moved s₀.bytes s'.bytes (source.absoluteByteOffset 0) (w.absoluteByteOffset offset)
        ((m + n) * w.kind.size) := by
  induction n generalizing s m with
  | zero => exact ⟨s, rfl, hlen, hmoved⟩
  | succ n ih =>
    have hlive := taLiveLength_congr (w := w) hlen
    have hm : m < source.taLiveLength s₀ := by omega
    have hindex : offset + m < w.taLiveLength s := by omega
    have hfit := element_within hindex
    have hle := s.length_le
    have hsmall : (offset + m) % 2 ^ 64 = offset + m := by
      have hsize := w.kind.size_pos
      have halloc := s.allocated
      have : offset + m ≤ (offset + m) * w.kind.size := Nat.le_mul_of_pos_right _ hsize
      rw [Window.absoluteByteOffset] at hfit
      exact Nat.mod_eq_of_lt (by omega)
    have hvalue : taElementValue w.kind (s₀.taRead source m) = .ok (s₀.taRead source m) := by
      rw [taRead_eq hm, hkind]
      exact taElementValue_elementOf _ _
    have hnext := moved_setStep hkind hm hindex hlen hmoved
    obtain ⟨s', hrun, hlen', hmoved'⟩ := ih (m + 1) (by omega) (by omega)
      (s := s.taStoreWrite w.kind (w.absoluteByteOffset (offset + m)) (s₀.taRead source m)) hlen
      hnext
    refine ⟨s', ?_, hlen', ?_⟩
    · rw [List.range'_succ, List.map_cons, setLoop, hvalue]
      simp only [bind, Except.bind]
      rw [hsmall, if_pos hindex]
      exact hrun
    · rwa [Nat.add_right_comm, Nat.add_assoc m n 1] at hmoved'

theorem set_eq {source : Window} (h : s.taValidate w true = .ok ())
    (hsource : s.taValidate source false = .ok ()) {offset : Nat}
    (hfit : source.taLiveLength s + offset ≤ w.taSpecLength s)
    (hsmall : w.taSpecLength s < 2 ^ 63) :
    s.set w source (.int offset)
      = s.setLoop w offset ((List.range' 0 (source.taLiveLength s)).map (s.taRead source)) := by
  have hoffset : setOffset (.int offset) = .ok offset := by
    rw [setOffset, if_neg (by omega), Int.toNat_natCast, min_eq_left (by omega)]
  have hmod : (source.taLiveLength s + offset) % 2 ^ 64 = source.taLiveLength s + offset :=
    Nat.mod_eq_of_lt (by omega)
  simp only [set, h, hsource, hoffset, bind, Except.bind, List.length_map, List.length_range, hmod]
  rw [if_neg (by omega), List.range_eq_range']

theorem taSpecLength_small (h : s.taValidate w true = .ok ()) : w.taSpecLength s < 2 ^ 63 := by
  have halloc := s.allocated
  have hle := s.length_le
  rw [← taLiveLength_of_valid h]
  by_contra hlarge
  have hindex : 2 ^ 63 - 1 < w.taLiveLength s := by omega
  have hfit := element_within hindex
  have hsize := w.kind.size_pos
  have : 2 ^ 63 - 1 ≤ (2 ^ 63 - 1) * w.kind.size := Nat.le_mul_of_pos_right _ hsize
  rw [Window.absoluteByteOffset] at hfit
  omega

/-- **Moves are simultaneous.** A `copyWithin` that is not refused moves
the elements of the clamped range as if at once and touches no other byte;
and so does a `set` from a view of the same kind on the same buffer that
fits into its target, however the two overlap. -/
theorem moves_simultaneous (s : Store) (w : Window) (h : s.taValidate w true = .ok ()) :
    (∀ targetRaw startRaw endRaw : IntegerOrInfinity,
      let len := w.taSpecLength s
      let target := clampIndexToLen targetRaw len
      let start := clampIndexToLen startRaw len
      let count := min (clampIndexToLen endRaw len - start) (len - target)
      ∃ s', s.copyWithin w targetRaw startRaw endRaw = .ok s' ∧ s'.length = s.length
        ∧ Moved s.bytes s'.bytes (w.absoluteByteOffset start) (w.absoluteByteOffset target)
          (count * w.kind.size)
        ∧ (∀ i < count, s'.taRead w (target + i) = s.taRead w (start + i))
        ∧ ∀ j, j < target ∨ target + count ≤ j → s'.taRead w j = s.taRead w j)
      ∧ ∀ (source : Window) (offset : Nat), source.kind = w.kind →
        s.taValidate source false = .ok () →
        source.taLiveLength s + offset ≤ w.taSpecLength s →
        ∃ s', s.set w source (.int offset) = .ok s' ∧ s'.length = s.length
          ∧ Moved s.bytes s'.bytes (source.absoluteByteOffset 0) (w.absoluteByteOffset offset)
            (source.taLiveLength s * w.kind.size)
          ∧ ∀ i < source.taLiveLength s, s'.taRead w (offset + i) = s.taRead source i := by
  have hlive := taLiveLength_of_valid h
  constructor
  · intro targetRaw startRaw endRaw len target start count
    have htarget : target ≤ len := clampIndexToLen_le targetRaw len
    have hstart : start ≤ len := clampIndexToLen_le startRaw len
    have hstop : clampIndexToLen endRaw len ≤ len := clampIndexToLen_le endRaw len
    have hlast : start + count ≤ w.taLiveLength s := by omega
    have hlast' : target + count ≤ w.taLiveLength s := by omega
    have hmoved := moved_copied hlast hlast'
    have hlen := length_copied (s := s) (w := w) start target count
    exact ⟨s.copied w start target count, copyWithin_eq h targetRaw startRaw endRaw, hlen, hmoved,
      taRead_moved hlen hmoved hlast hlast'⟩
  · intro source offset hkind hsource hfit
    have hzero : Moved s.bytes s.bytes (source.absoluteByteOffset 0) (w.absoluteByteOffset offset)
        (0 * w.kind.size) := by
      rw [Nat.zero_mul]
      exact moved_zero _ _ _
    obtain ⟨s', hrun, hlen, hmoved⟩ := setLoop_moved (w := w) hkind offset 0
      (source.taLiveLength s) (by omega) (by omega) rfl hzero
    rw [Nat.zero_add] at hmoved
    refine ⟨s', (set_eq h hsource hfit (taSpecLength_small h)).trans hrun, hlen, hmoved, ?_⟩
    intro i hi
    have hlive' := taLiveLength_congr (w := w) hlen
    have hinside : i * w.kind.size + w.kind.size ≤ source.taLiveLength s * w.kind.size := by
      rw [← Nat.succ_mul]
      exact Nat.mul_le_mul_right _ hi
    have hchunk := hmoved.chunk_inside hinside
    rw [← absoluteByteOffset_add] at hchunk
    have hsourceAt :
        source.absoluteByteOffset 0 + i * w.kind.size = source.absoluteByteOffset i := by
      rw [← hkind, ← absoluteByteOffset_add, Nat.zero_add]
    rw [taRead_eq hi, taRead_eq (by omega), hchunk, hkind, hsourceAt]

/-- Eight bytes as four elements: the first three are moved up by one, and
a view of them is set one element further on. -/
theorem moves_simultaneous_overlap :
    let s : Store := ⟨false, false, [1, 0, 2, 0, 3, 0, 4, 0], 8, by decide, by decide, by decide⟩
    let w : Window := ⟨0, 4, false, .int16⟩
    let source : Window := ⟨0, 3, false, .int16⟩
    (∃ s', s.copyWithin w (.int 1) (.int (-4)) .posInf = .ok s'
        ∧ Moved s.bytes s'.bytes 0 2 6)
      ∧ ∃ s', s.set w source (.int 1) = .ok s' ∧ Moved s.bytes s'.bytes 0 2 6 := by
  intro s w source
  have hcopy := (moves_simultaneous s w (by decide)).1 (.int 1) (.int (-4)) .posInf
  have hset := (moves_simultaneous s w (by decide)).2 source 1 rfl (by decide) (by decide)
  obtain ⟨s₁, hrun₁, -, hmoved₁, -⟩ := hcopy
  obtain ⟨s₂, hrun₂, -, hmoved₂, -⟩ := hset
  exact ⟨⟨s₁, hrun₁, hmoved₁⟩, ⟨s₂, hrun₂, hmoved₂⟩⟩

end Store

end OxideJS.Buffer
