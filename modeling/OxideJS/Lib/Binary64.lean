import Mathlib

/-!
Conversions between integers and binary64 numbers.

`Float` has a logical model: the sixty-four bits, unpacked into a sign, a
mantissa and an exponent, with every operation rounded to nearest even.
What is added here is what programs that mix machine integers with
floating point rely on: an integer of at most fifty-three bits converts
exactly, so truncating its conversion gives it back, and it converts to
zero only if it is zero. The remainder of truncating division is defined
here too, since the library has none.
-/

namespace Binary64

open Float.Model Float.Model.UnpackedFloat

/-- The nearest binary64 number to an integer. -/
def ofInt (n : Int) : Float :=
  .ofModel (.ofInt n)

/-- The integer part, rounding towards zero. Infinities and not-a-number
give zero. -/
def truncToInt (x : Float) : Int :=
  x.toModel.unpack.toInt 0 0

/-- The sign bit is set. -/
def isNegative (x : Float) : Bool :=
  match x.toModel.unpack with
  | .infinity s => s == .negative
  | .zero s => s == .negative
  | .finite s _ _ _ => s == .negative
  | .notANumber => false

/-- The remainder of division truncated towards zero, which is exact. It
has the sign of the dividend. -/
def rem (x y : Float) : Float :=
  match x.toModel.unpack, y.toModel.unpack with
  | .notANumber, _ => Float.nan
  | _, .notANumber => Float.nan
  | .infinity _, _ => Float.nan
  | _, .zero _ => Float.nan
  | .zero _, _ => x
  | .finite .., .infinity _ => x
  | .finite s m e _, .finite _ m' e' _ =>
    let low := min e e'
    let r := (decreaseExponent m e low).1 % (decreaseExponent m' e' low).1
    .ofModel (.pack (UnpackedFloat.normalize .binary64 (s.apply r) low s))

/-! ### Rounding a small integer changes nothing -/

theorem log2_shiftLeft {m : Nat} (hm : 0 < m) (k : Nat) : (m <<< k).log2 = m.log2 + k := by
  induction k with
  | zero => simp
  | succ k ih =>
    have hne : m <<< k ≠ 0 := by
      rw [Nat.shiftLeft_eq]
      positivity
    rw [Nat.shiftLeft_succ, Nat.log2_two_mul hne, ih]
    omega

/-- A mantissa of at most fifty-three bits is shifted into place and not
rounded. -/
theorem round_of_log2_le (s : Sign) {m : Nat} (hm : 0 < m) (hlt : m.log2 ≤ 52) :
    ∃ h, UnpackedFloat.round .binary64 s m 0 =
      .finite s (m <<< (52 - m.log2)) ((m.log2 : Int) - 52) h := by
  have hmin : Format.binary64.minExponent = -1074 := by decide
  have hbits : Format.binary64.mantissaBits = 53 := by decide
  have hlog : (m <<< (52 - m.log2)).log2 = 52 := by
    rw [log2_shiftLeft hm]
    omega
  have hpos : m <<< (52 - m.log2) ≠ 0 := by
    intro h
    rw [h] at hlog
    simp at hlog
  have htarget : Format.binary64.targetExponent (totalExponent m 0) = (m.log2 : Int) - 52 := by
    simp only [Format.targetExponent, totalExponent, hmin, hbits]
    omega
  have hdec : decreaseExponent m 0 ((m.log2 : Int) - 52) =
      (m <<< (52 - m.log2), (m.log2 : Int) - 52) := by
    have hn : (0 - ((m.log2 : Int) - 52)).toNat = 52 - m.log2 := by omega
    simp only [decreaseExponent, hn]
    congr 1
    omega
  -- the mantissa has its full width already, so neither shift moves it
  have hshift : shiftToTargetExponent .binary64 (m <<< (52 - m.log2)) ((m.log2 : Int) - 52) .exact =
      (⟨m <<< (52 - m.log2), false, false⟩, (m.log2 : Int) - 52) := by
    have ht : Format.binary64.targetExponent
        (totalExponent (m <<< (52 - m.log2)) ((m.log2 : Int) - 52)) = (m.log2 : Int) - 52 := by
      simp only [Format.targetExponent, totalExponent, hmin, hbits, hlog]
      omega
    simp only [shiftToTargetExponent, ht, shiftToExponent, Int.sub_self, Int.toNat_zero,
      Nat.cast_zero, Int.add_zero]
    rfl
  refine ⟨Nat.pos_of_ne_zero hpos, ?_⟩
  simp only [UnpackedFloat.round, htarget, hdec, roundWithAccuracy, hshift,
    ExtendedMantissa.roundedMantissa, ExtendedMantissa.accuracy, Accuracy.roundToNearestEven]
  rw [dif_neg hpos]

/-! ### Packing keeps a normal number -/

theorem append_one_toNat {m : Nat} (hlo : 2 ^ 52 ≤ m) (hhi : m < 2 ^ 53) :
    (1#1 ++ BitVec.ofNat 52 m).toNat = m := by
  have hmod : m % 2 ^ 52 = m - 2 ^ 52 := by omega
  rw [BitVec.toNat_append, BitVec.toNat_ofNat, BitVec.toNat_ofNat, hmod, Nat.shiftLeft_eq,
    Nat.mul_comm, ← Nat.two_pow_add_eq_or_of_lt (by omega)]
  omega

theorem unpack_pack_normal (s : Sign) {m : Nat} {e : Int} (hm : 0 < m) (hbits : m.log2 = 52)
    (hlo : -1074 ≤ e) (hhi : e ≤ 971) :
    (Float.Model.pack (.finite s m e hm)).unpack = .finite s m e hm := by
  have hbias : Format.binary64.exponentBias = 1023 := by decide
  have hwidth := (Nat.log2_eq_iff (by omega)).1 hbits
  have hpack : UnpackedFloat.pack .binary64 (.finite s m e hm) =
      packComponents .binary64 s (BitVec.ofNat 11 (e + 1075).toNat) (BitVec.ofNat 52 m) := by
    have hb : (e + (Format.binary64.exponentBias : Int) + (52 : Nat)).toNat =
        (e + 1075).toNat := by
      rw [hbias]
      omega
    have hlt : ¬2 ^ 11 ≤ (e + 1075).toNat + 1 := by omega
    simp only [UnpackedFloat.pack, hbits, Format.mantissaBits, hb]
    rw [if_neg hlt, if_pos trivial]
  have hexpNat : (BitVec.ofNat 11 (e + 1075).toNat).toNat = (e + 1075).toNat := by
    rw [BitVec.toNat_ofNat]
    omega
  -- the exponent field is neither all ones nor zero
  have hone : BitVec.ofNat 11 (e + 1075).toNat ≠ -1#11 := by
    intro h
    have hv := congrArg BitVec.toNat h
    rw [hexpNat, show (-1#11 : BitVec 11).toNat = 2047 from by decide] at hv
    omega
  have hzero : BitVec.ofNat 11 (e + 1075).toNat ≠ 0#11 := by
    intro h
    have hv := congrArg BitVec.toNat h
    rw [hexpNat, show (0#11 : BitVec 11).toNat = 0 from by decide] at hv
    omega
  show UnpackedFloat.unpack .binary64 (UnpackedFloat.pack .binary64 (.finite s m e hm)) = _
  rw [hpack]
  simp only [UnpackedFloat.unpack, unpackMantissa_packComponents, unpackExponent_packComponents,
    UnpackedFloat.unpackSign_packComponents, Sign.ofBitVec_toBitVec]
  rw [if_neg hone, if_neg hzero]
  congr 1
  · exact append_one_toNat hwidth.1 hwidth.2
  · rw [hexpNat, hbias]
    omega

/-! ### Converting an integer and truncating it again -/

theorem shiftRight_mantissa (em : ExtendedMantissa) (k : Nat) :
    (em >>> k).mantissa = em.mantissa / 2 ^ k := by
  induction k with
  | zero => exact (Nat.div_one _).symm
  | succ k ih =>
    have hstep : (em >>> (k + 1)).mantissa = (em >>> k).mantissa / 2 := rfl
    rw [hstep, ih, Nat.div_div_eq_div_mul, Nat.pow_succ]

theorem roundToInt_shifted (s : Sign) {m : Nat} (hlt : m.log2 ≤ 52) :
    roundToInt s (m <<< (52 - m.log2)) ((m.log2 : Int) - 52) = s.apply m := by
  have hn : ((m.log2 : Int) - 52 - 0).toNat = 0 := by omega
  have hk : (0 - ((m.log2 : Int) - 52)).toNat = 52 - m.log2 := by omega
  have hdec : decreaseExponent (m <<< (52 - m.log2)) ((m.log2 : Int) - 52) 0 =
      (m <<< (52 - m.log2), (m.log2 : Int) - 52) := by
    simp only [decreaseExponent, hn]
    simp
  simp only [roundToInt, hdec, shiftToExponent, hk, shiftRight_mantissa,
    ExtendedMantissa.ofMantissaAndAccuracy]
  rw [Nat.shiftLeft_eq, Nat.mul_div_cancel _ (by positivity)]

/-- How a nonzero integer of at most fifty-three bits unpacks. -/
theorem unpack_ofInt {n : Int} (hn : n ≠ 0) (hlt : n.natAbs.log2 ≤ 52) :
    ∃ s h, (ofInt n).toModel.unpack =
      .finite s (n.natAbs <<< (52 - n.natAbs.log2)) ((n.natAbs.log2 : Int) - 52) h ∧
      s.apply n.natAbs = n := by
  have hm : 0 < n.natAbs := Int.natAbs_pos.2 hn
  have hwidth : (n.natAbs <<< (52 - n.natAbs.log2)).log2 = 52 := by
    rw [log2_shiftLeft hm]
    omega
  have hunpack : ∀ s, ∃ h, (Float.Model.pack (UnpackedFloat.round .binary64 s n.natAbs 0)).unpack =
      .finite s (n.natAbs <<< (52 - n.natAbs.log2)) ((n.natAbs.log2 : Int) - 52) h := by
    intro s
    obtain ⟨h, hr⟩ := round_of_log2_le s hm hlt
    exact ⟨h, by rw [hr, unpack_pack_normal s h hwidth (by omega) (by omega)]⟩
  rcases Int.lt_or_gt_of_ne hn with hneg | hpos
  · obtain ⟨h, hu⟩ := hunpack .negative
    refine ⟨.negative, h, ?_, ?_⟩
    · have habs : (-n).toNat = n.natAbs := by omega
      have hcmp : compare n 0 = .lt := Int.compare_eq_lt.2 hneg
      simp only [ofInt, Float.Model.ofInt, UnpackedFloat.ofInt, UnpackedFloat.normalize,
        hcmp, habs]
      exact hu
    · simp only [Sign.apply]
      omega
  · obtain ⟨h, hu⟩ := hunpack .positive
    refine ⟨.positive, h, ?_, ?_⟩
    · have habs : n.toNat = n.natAbs := by omega
      have hcmp : compare n 0 = .gt := Int.compare_eq_gt.2 hpos
      simp only [ofInt, Float.Model.ofInt, UnpackedFloat.ofInt, UnpackedFloat.normalize,
        hcmp, habs]
      exact hu
    · simp only [Sign.apply]
      omega

theorem truncToInt_ofInt {n : Int} (hlt : n.natAbs.log2 ≤ 52) : truncToInt (ofInt n) = n := by
  by_cases hn : n = 0
  · subst hn
    decide +kernel
  · obtain ⟨s, h, hu, hs⟩ := unpack_ofInt hn hlt
    rw [truncToInt, hu]
    simp only [UnpackedFloat.toInt, roundToInt_shifted s hlt, hs]

/-! ### The opposite number -/

/-- The opposite has the same exponent and mantissa. -/
theorem neg_unpack (b : BitVec Format.binary64.numBits) :
    (UnpackedFloat.unpack .binary64 b).neg = UnpackedFloat.unpack .binary64
      (packComponents .binary64 (-Sign.ofBitVec (unpackSign b)) (unpackExponent b)
        (unpackMantissa b)) := by
  unfold UnpackedFloat.unpack
  simp only [unpackSign_packComponents, unpackExponent_packComponents,
    unpackMantissa_packComponents, Sign.ofBitVec_toBitVec]
  split_ifs <;> rfl

theorem unpack_of_isNaNBits {b : BitVec Format.binary64.numBits} (h : isNaNBits b = true) :
    UnpackedFloat.unpack .binary64 b = .notANumber := by
  obtain ⟨hexponent, hmantissa⟩ := of_decide_eq_true h
  unfold UnpackedFloat.unpack
  simp only [hexponent]
  exact if_neg hmantissa

theorem unpack_pack_neg (m : Float.Model) :
    (Float.Model.pack m.unpack.neg).unpack = m.unpack.neg := by
  show UnpackedFloat.unpack .binary64 (UnpackedFloat.pack .binary64
    (UnpackedFloat.unpack .binary64 m.toBits.toBitVec).neg) =
      (UnpackedFloat.unpack .binary64 m.toBits.toBitVec).neg
  rw [neg_unpack, pack_unpack]
  split
  · next h => rw [unpack_packedNaN, unpack_of_isNaNBits h]
  · rfl

theorem neg_neg_unpacked (u : UnpackedFloat) : u.neg.neg = u := by
  have hsign : ∀ s : Sign, - -s = s := by rintro (_ | _) <;> rfl
  cases u <;> simp [UnpackedFloat.neg, hsign]

theorem neg_neg_float (x : Float) : - -x = x := by
  show Float.ofModel (.pack (Float.Model.pack x.toModel.unpack.neg).unpack.neg) = x
  rw [unpack_pack_neg, neg_neg_unpacked]
  obtain ⟨⟨bits, hvalid⟩⟩ := x
  have hbits := pack_unpack_of_valid hvalid
  simp only [Float.Model.pack, Float.Model.unpack]
  congr

end Binary64
