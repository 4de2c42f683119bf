import OxideJS.Lib.SmallIntegers

/-!
Comparing a double with the rounding of an integer.

The conversion of an arbitrary integer to binary64 rounds to one of the
two neighbours, and to the integer itself where that is a double. So it
never jumps over a double: `compare_ofInt` says that the rounding of `n`
lies on the side of a double on which `n` lies, or is that double.

A normal number is written with a mantissa of fifty-three bits, and two of
them compare by their exponents first. `Below` is that order, and
`below_iff` says that it is the order of the values.
-/

namespace Binary64

open Float.Model Float.Model.UnpackedFloat

/-- The order of two numbers with full mantissas. -/
def Below (e : Int) (m : Nat) (e' : Int) (m' : Nat) : Prop :=
  e < e' ∨ (e = e' ∧ m ≤ m')

theorem width_of_log2 {m : Nat} (h : m.log2 = 52) : 2 ^ 52 ≤ m ∧ m < 2 ^ 53 := by
  have hm : m ≠ 0 := by
    rintro rfl
    simp at h
  exact (Nat.log2_eq_iff hm).1 h

theorem log2_of_width {m : Nat} (hlo : 2 ^ 52 ≤ m) (hhi : m < 2 ^ 53) : m.log2 = 52 :=
  (Nat.log2_eq_iff (by omega)).2 ⟨hlo, hhi⟩

/-- Full mantissas compare like the values they stand for. -/
theorem below_iff {m m' : Nat} (hm : m.log2 = 52) (hm' : m'.log2 = 52) (E E' : Nat) :
    m * 2 ^ E ≤ m' * 2 ^ E' ↔ Below E m E' m' := by
  obtain ⟨hlo, hhi⟩ := width_of_log2 hm
  obtain ⟨hlo', hhi'⟩ := width_of_log2 hm'
  have hpos : 0 < 2 ^ E := by positivity
  have hpos' : 0 < 2 ^ E' := by positivity
  rcases Nat.lt_trichotomy E E' with h | h | h
  · obtain ⟨d, rfl⟩ := Nat.exists_eq_add_of_lt h
    refine iff_of_true ?_ (Or.inl (by omega))
    calc m * 2 ^ E ≤ 2 ^ 53 * 2 ^ E := Nat.mul_le_mul_right _ hhi.le
      _ = 2 ^ 52 * 2 ^ (E + 1) := by ring
      _ ≤ m' * 2 ^ (E + d + 1) :=
          Nat.mul_le_mul hlo' (Nat.pow_le_pow_right (by decide) (by omega))
  · subst h
    rw [Nat.mul_le_mul_right_iff hpos]
    simp [Below]
  · obtain ⟨d, rfl⟩ := Nat.exists_eq_add_of_lt h
    refine iff_of_false (Nat.not_le.2 ?_) ?_
    · calc m' * 2 ^ E' < 2 ^ 53 * 2 ^ E' := (Nat.mul_lt_mul_right hpos').2 hhi'
        _ = 2 ^ 52 * 2 ^ (E' + 1) := by ring
        _ ≤ m * 2 ^ (E' + d + 1) :=
            Nat.mul_le_mul hlo (Nat.pow_le_pow_right (by decide) (by omega))
    · rintro (h' | ⟨h', -⟩)
      · omega
      · omega

/-! ### Rounding to a neighbour -/

/-- The multiple of `u` nearest to `m`, counted in units of `u`. Of two
multiples that are equally near it is the even one. -/
def roundTo (u m : Nat) : Nat :=
  if 2 * (m % u) < u ∨ (2 * (m % u) = u ∧ m / u % 2 = 0) then m / u else m / u + 1

/-- The natural number of at most fifty-three significant bits nearest to
`m`. -/
def nearest (m : Nat) : Nat := roundTo (2 ^ (m.log2 - 52)) m * 2 ^ (m.log2 - 52)

theorem le_roundTo (u m : Nat) : m / u ≤ roundTo u m ∧ roundTo u m ≤ m / u + 1 := by
  unfold roundTo
  split <;> omega

theorem roundTo_of_dvd {u m : Nat} (hu : 0 < u) (h : m % u = 0) : roundTo u m = m / u := by
  rw [roundTo, h, if_pos (Or.inl (by omega))]

theorem nearest_small {m : Nat} (h : m.log2 ≤ 52) : nearest m = m := by
  rw [nearest, show m.log2 - 52 = 0 by omega, pow_zero,
    roundTo_of_dvd Nat.one_pos (Nat.mod_one m), Nat.div_one, Nat.mul_one]

/-- Rounding to multiples of `u` does not cross a multiple of `u`. -/
theorem mul_le_roundTo {u m j : Nat} (hu : 0 < u) (h : j * u ≤ m) : j ≤ roundTo u m :=
  ((Nat.le_div_iff_mul_le hu).2 h).trans (le_roundTo u m).1

theorem roundTo_le_mul {u m j : Nat} (hu : 0 < u) (h : m ≤ j * u) : roundTo u m ≤ j := by
  have hdiv : m / u ≤ j := Nat.div_le_of_le_mul (by rwa [Nat.mul_comm])
  rcases Nat.eq_or_lt_of_le hdiv with heq | hlt
  · have hmod : m % u = 0 := by
      have hm := Nat.div_add_mod m u
      rw [heq, Nat.mul_comm] at hm
      omega
    rw [roundTo_of_dvd hu hmod, heq]
  · exact (le_roundTo u m).2.trans hlt

/-- What the bits say that are shifted out: the last of them, and whether
one before it was set. -/
theorem shiftRight_bits (m k : Nat) :
    (⟨m, false, false⟩ : ExtendedMantissa) >>> (k + 1) =
      ⟨m / 2 ^ (k + 1), m / 2 ^ k % 2 != 0, m % 2 ^ k != 0⟩ := by
  induction k with
  | zero =>
    show (⟨m / 2, m % 2 != 0, false⟩ : ExtendedMantissa) = _
    simp [Nat.mod_one]
  | succ k ih =>
    rw [shiftRight_succ, ih]
    have hdiv : m / 2 ^ (k + 1) / 2 = m / 2 ^ (k + 1 + 1) := by
      rw [Nat.div_div_eq_div_mul, ← Nat.pow_succ]
    have hmod : m % 2 ^ (k + 1) = m % 2 ^ k + 2 ^ k * (m / 2 ^ k % 2) := by
      rw [Nat.pow_succ, Nat.mod_mul]
    have hpos : 0 < 2 ^ k := by positivity
    have hsticky : (m / 2 ^ k % 2 != 0 || m % 2 ^ k != 0) = (m % 2 ^ (k + 1) != 0) := by
      rw [hmod]
      rcases Nat.mod_two_eq_zero_or_one (m / 2 ^ k) with h | h
      · simp [h]
      · simp [h]
    simp only [ExtendedMantissa.shiftRightOne, hdiv, hsticky]

theorem roundedMantissa_eq (m k : Nat) :
    ((⟨m, false, false⟩ : ExtendedMantissa) >>> k).roundedMantissa = roundTo (2 ^ k) m := by
  cases k with
  | zero =>
    rw [Nat.pow_zero, roundTo_of_dvd Nat.one_pos (Nat.mod_one m), Nat.div_one]
    rfl
  | succ k =>
    rw [shiftRight_bits]
    have hmod : m % 2 ^ (k + 1) = m % 2 ^ k + 2 ^ k * (m / 2 ^ k % 2) := by
      rw [Nat.pow_succ, Nat.mod_mul]
    have hlt : m % 2 ^ k < 2 ^ k := Nat.mod_lt _ (by positivity)
    have hpow : 2 ^ (k + 1) = 2 * 2 ^ k := by ring
    unfold roundTo
    rw [hmod, hpow]
    generalize m % 2 ^ k = r at hlt
    generalize m / (2 * 2 ^ k) = q
    rcases Nat.mod_two_eq_zero_or_one (m / 2 ^ k) with h | h
    · -- below the middle
      rw [h, if_pos (Or.inl (by omega))]
      rcases Bool.eq_false_or_eq_true (r != 0) with hr | hr <;>
        simp [hr, ExtendedMantissa.roundedMantissa, ExtendedMantissa.accuracy,
          Accuracy.roundToNearestEven]
    · by_cases hr : r = 0
      · rcases Nat.mod_two_eq_zero_or_one q with hq | hq
        · rw [h, if_pos (Or.inr ⟨by omega, hq⟩)]
          simp [hr, hq, ExtendedMantissa.roundedMantissa, ExtendedMantissa.accuracy,
            Accuracy.roundToNearestEven]
        · rw [h, if_neg (by omega)]
          simp [hr, hq, ExtendedMantissa.roundedMantissa, ExtendedMantissa.accuracy,
            Accuracy.roundToNearestEven]
      · have hsticky : (r != 0) = true := bne_iff_ne.2 hr
        rw [h, if_neg (by omega)]
        simp [hsticky, ExtendedMantissa.roundedMantissa, ExtendedMantissa.accuracy,
          Accuracy.roundToNearestEven]

/-- What is left of a wide mantissa has full width. -/
theorem width_of_cut {m : Nat} (hm : 53 ≤ m.log2) :
    2 ^ 52 ≤ m / 2 ^ (m.log2 - 52) ∧ m / 2 ^ (m.log2 - 52) < 2 ^ 53 := by
  have hm0 : m ≠ 0 := by
    rintro rfl
    simp at hm
  obtain ⟨hlo, hhi⟩ := (Nat.log2_eq_iff hm0).1 rfl
  have hpos : 0 < 2 ^ (m.log2 - 52) := by positivity
  constructor
  · rw [Nat.le_div_iff_mul_le hpos, ← Nat.pow_add, Nat.add_sub_cancel' (by omega)]
    exact hlo
  · rw [Nat.div_lt_iff_lt_mul hpos, ← Nat.pow_add, show 53 + (m.log2 - 52) = m.log2 + 1 by omega]
    exact hhi

/-- The number with mantissa `r` and exponent `e` is `m` rounded to
fifty-three bits. -/
structure Rounding (m r : Nat) (e : Int) : Prop where
  full : r.log2 = 52
  exp : -52 ≤ e
  value : r * 2 ^ (e + 52).toNat = nearest m * 2 ^ 52

/-- A mantissa that is too wide is cut and rounded, and loses one more bit
if the rounding has made it wider. -/
theorem round_wide (s : Sign) {m : Nat} (hm : 53 ≤ m.log2) :
    ∃ r e h, UnpackedFloat.round .binary64 s m 0 = .finite s r e h ∧ Rounding m r e := by
  have hmin : Format.binary64.minExponent = -1074 := by decide
  have hbits : Format.binary64.mantissaBits = 53 := by decide
  have hm0 : m ≠ 0 := by
    rintro rfl
    simp at hm
  have htarget : Format.binary64.targetExponent (totalExponent m 0) = (m.log2 : Int) - 52 := by
    simp only [Format.targetExponent, totalExponent, hmin, hbits]
    omega
  have hdec : decreaseExponent m 0 ((m.log2 : Int) - 52) = (m, 0) := by
    have hn : (0 - ((m.log2 : Int) - 52)).toNat = 0 := by omega
    simp only [decreaseExponent, hn]
    simp
  have hamount : ((m.log2 : Int) - 52 - 0).toNat = m.log2 - 52 := by omega
  have hshift : shiftToTargetExponent .binary64 m 0 .exact =
      ((⟨m, false, false⟩ : ExtendedMantissa) >>> (m.log2 - 52), (m.log2 : Int) - 52) := by
    simp only [shiftToTargetExponent, htarget, shiftToExponent, hamount,
      ExtendedMantissa.ofMantissaAndAccuracy]
    congr 1
    omega
  have hround : UnpackedFloat.round .binary64 s m 0 =
      roundWithAccuracy .binary64 s m 0 .exact := by
    simp only [UnpackedFloat.round, htarget, hdec]
  obtain ⟨hlo, hhi⟩ := width_of_cut hm
  obtain ⟨hr, hr'⟩ := le_roundTo (2 ^ (m.log2 - 52)) m
  have hrm := roundedMantissa_eq m (m.log2 - 52)
  have hvalue : nearest m = roundTo (2 ^ (m.log2 - 52)) m * 2 ^ (m.log2 - 52) := rfl
  generalize roundTo (2 ^ (m.log2 - 52)) m = r at hr hr' hrm hvalue
  by_cases hcarry : r < 2 ^ 53
  · have hlog : r.log2 = 52 := log2_of_width (by omega) hcarry
    refine ⟨r, (m.log2 : Int) - 52, by omega, ?_, hlog, by omega, ?_⟩
    · simp only [hround, roundWithAccuracy, hshift, hrm,
        shiftToTargetExponent_normal hlog (e := (m.log2 : Int) - 52) (by omega)]
      rw [dif_neg (by omega)]
    · rw [hvalue, Nat.mul_assoc, ← Nat.pow_add]
      congr 2
      omega
  · obtain rfl : r = 2 ^ 53 := by omega
    have hagain : shiftToTargetExponent .binary64 (2 ^ 53) ((m.log2 : Int) - 52) .exact =
        (⟨2 ^ 52, false, false⟩, (m.log2 : Int) - 51) := by
      have h := shiftToTargetExponent_shifted (m := 2 ^ 52) (by decide)
        (e := (m.log2 : Int) - 51) (by omega) 1
      rw [show (2 : Nat) ^ 52 <<< 1 = 2 ^ 53 by decide,
        show (m.log2 : Int) - 51 - ((1 : Nat) : Int) = (m.log2 : Int) - 52 by omega] at h
      exact h
    refine ⟨2 ^ 52, (m.log2 : Int) - 51, by decide, ?_, by decide, by omega, ?_⟩
    · simp only [hround, roundWithAccuracy, hshift, hrm, hagain]
      rw [dif_neg (by decide)]
    · rw [hvalue, Nat.mul_assoc, ← Nat.pow_add, ← Nat.pow_add, ← Nat.pow_add]
      congr 1
      omega

theorem round_rounding (s : Sign) {m : Nat} (hm : 0 < m) :
    ∃ r e h, UnpackedFloat.round .binary64 s m 0 = .finite s r e h ∧ Rounding m r e := by
  by_cases hlog : m.log2 ≤ 52
  · obtain ⟨h, hr⟩ := round_of_log2_le s hm hlog
    refine ⟨_, _, h, hr, ?_, by omega, ?_⟩
    · rw [log2_shiftLeft hm]
      omega
    · rw [nearest_small hlog, Nat.shiftLeft_eq, Nat.mul_assoc, ← Nat.pow_add]
      congr 2
      omega
  · exact round_wide s (by omega)

/-- A full mantissa is, at the scale of the integer, a multiple of the unit
to which the integer is rounded, or less than the integer cut to that unit. -/
theorem full_cases {m c : Nat} (f : Int) (hm : 53 ≤ m.log2) (hc : c.log2 = 52) :
    (∃ j, c * 2 ^ (f + 52).toNat = j * 2 ^ (m.log2 - 52) * 2 ^ 52) ∨
      c * 2 ^ (f + 52).toNat < m / 2 ^ (m.log2 - 52) * 2 ^ (m.log2 - 52) * 2 ^ 52 := by
  by_cases hle : m.log2 ≤ (f + 52).toNat
  · refine Or.inl ⟨c * 2 ^ ((f + 52).toNat - m.log2), ?_⟩
    rw [Nat.mul_assoc, Nat.mul_assoc, ← Nat.pow_add, ← Nat.pow_add]
    congr 2
    omega
  · refine Or.inr ?_
    calc c * 2 ^ (f + 52).toNat
        < 2 ^ 53 * 2 ^ (f + 52).toNat :=
          (Nat.mul_lt_mul_right (by positivity)).2 (width_of_log2 hc).2
      _ ≤ 2 ^ 52 * 2 ^ (m.log2 - 52) * 2 ^ 52 := by
          rw [← Nat.pow_add, ← Nat.pow_add, ← Nat.pow_add]
          exact Nat.pow_le_pow_right (by decide) (by omega)
      _ ≤ m / 2 ^ (m.log2 - 52) * 2 ^ (m.log2 - 52) * 2 ^ 52 :=
          Nat.mul_le_mul_right _ (Nat.mul_le_mul_right _ (width_of_cut hm).1)

/-- The rounding of an integer does not cross a full mantissa. -/
theorem le_nearest {m c : Nat} {f : Int} (hc : c.log2 = 52)
    (h : c * 2 ^ (f + 52).toNat ≤ m * 2 ^ 52) : c * 2 ^ (f + 52).toNat ≤ nearest m * 2 ^ 52 := by
  by_cases hlog : m.log2 ≤ 52
  · rwa [nearest_small hlog]
  · have hpos : 0 < 2 ^ (m.log2 - 52) := by positivity
    rcases full_cases (m := m) f (by omega) hc with ⟨j, hj⟩ | hlt
    · rw [hj] at h ⊢
      have hle := mul_le_roundTo hpos (Nat.le_of_mul_le_mul_right h (by positivity))
      exact Nat.mul_le_mul_right _ (Nat.mul_le_mul_right _ hle)
    · refine hlt.le.trans ?_
      exact Nat.mul_le_mul_right _ (Nat.mul_le_mul_right _ (le_roundTo _ m).1)

theorem nearest_le {m c : Nat} {f : Int} (hc : c.log2 = 52)
    (h : m * 2 ^ 52 ≤ c * 2 ^ (f + 52).toNat) : nearest m * 2 ^ 52 ≤ c * 2 ^ (f + 52).toNat := by
  by_cases hlog : m.log2 ≤ 52
  · rwa [nearest_small hlog]
  · have hpos : 0 < 2 ^ (m.log2 - 52) := by positivity
    rcases full_cases (m := m) f (by omega) hc with ⟨j, hj⟩ | hlt
    · rw [hj] at h ⊢
      have hle := roundTo_le_mul hpos (Nat.le_of_mul_le_mul_right h (by positivity))
      exact Nat.mul_le_mul_right _ (Nat.mul_le_mul_right _ hle)
    · have hcut : m / 2 ^ (m.log2 - 52) * 2 ^ (m.log2 - 52) * 2 ^ 52 ≤ m * 2 ^ 52 :=
        Nat.mul_le_mul_right _ (Nat.div_mul_le_self m _)
      exact absurd (h.trans_lt hlt) (Nat.not_lt.2 hcut)

/-- The values of full mantissas, scaled to integers. -/
theorem below_iff_scaled {m m' : Nat} (hm : m.log2 = 52) (hm' : m'.log2 = 52) {e e' : Int}
    (he : -52 ≤ e) (he' : -52 ≤ e') :
    m * 2 ^ (e + 52).toNat ≤ m' * 2 ^ (e' + 52).toNat ↔ Below e m e' m' := by
  rw [below_iff hm hm']
  unfold Below
  omega

namespace Rounding

variable {m r c : Nat} {e f : Int}

/-- The rounding of an integer lies on the same side of a full mantissa as
the integer. -/
theorem above (hr : Rounding m r e) (hc : c.log2 = 52) (hf : -52 ≤ f)
    (h : c * 2 ^ (f + 52).toNat ≤ m * 2 ^ 52) : Below f c e r := by
  rw [← below_iff_scaled hc hr.full hf hr.exp, hr.value]
  exact le_nearest hc h

theorem below (hr : Rounding m r e) (hc : c.log2 = 52) (hf : -52 ≤ f)
    (h : m * 2 ^ 52 ≤ c * 2 ^ (f + 52).toNat) : Below e r f c := by
  rw [← below_iff_scaled hr.full hc hr.exp hf, hr.value]
  exact nearest_le hc h

end Rounding

/-! ### The doubles that are integers -/

theorem append_one_bounds (v : BitVec 52) :
    2 ^ 52 ≤ (1#1 ++ v).toNat ∧ (1#1 ++ v).toNat < 2 ^ 53 := by
  have hv := v.isLt
  have h : (1#1 ++ v).toNat = 2 ^ 52 + v.toNat := by
    rw [BitVec.toNat_append, BitVec.toNat_ofNat, Nat.shiftLeft_eq, Nat.mul_comm,
      ← Nat.two_pow_add_eq_or_of_lt hv]
    omega
  omega

/-- The fields of a finite double. -/
theorem unpack_finite_bounds {x : Float} {s : Sign} {m : Nat} {e : Int} {h : 0 < m}
    (hx : x.toModel.unpack = .finite s m e h) :
    m < 2 ^ 53 ∧ e ≤ 971 ∧ (2 ^ 52 ≤ m ∨ e = -1074) := by
  have hbias : Format.binary64.exponentBias = 1023 := by decide
  simp only [Float.Model.unpack, UnpackedFloat.unpack, hbias] at hx
  generalize @unpackExponent Format.binary64 x.toModel.toBits.toBitVec = ex at hx
  have hex : ex.toNat < 2 ^ 11 := ex.isLt
  split at hx
  · split at hx <;> simp at hx
  · next hinf =>
    split at hx
    · next hzero =>
      split at hx
      · simp at hx
      · simp only [UnpackedFloat.finite.injEq] at hx
        obtain ⟨-, rfl, he⟩ := hx
        have hv := (@unpackMantissa Format.binary64 x.toModel.toBits.toBitVec).isLt
        rw [hzero] at he
        simp only [BitVec.toNat_zero] at he
        exact ⟨by omega, by omega, Or.inr (by omega)⟩
    · simp only [UnpackedFloat.finite.injEq] at hx
      obtain ⟨-, rfl, he⟩ := hx
      have hne : ex.toNat ≠ 2047 := fun h' => hinf (BitVec.eq_of_toNat_eq h')
      obtain ⟨hlo, hhi⟩ :=
        append_one_bounds (@unpackMantissa Format.binary64 x.toModel.toBits.toBitVec)
      exact ⟨hhi, by omega, Or.inl hlo⟩

/-- A number too large for the format becomes infinite. -/
theorem pack_overflow (s : Sign) {m : Nat} {e : Int} (hm : 0 < m) (he : 971 < e) :
    Float.Model.pack (.finite s m e hm) = .pack (.infinity s) := by
  have hbias : Format.binary64.exponentBias = 1023 := by decide
  have hpack : UnpackedFloat.pack .binary64 (.finite s m e hm) =
      UnpackedFloat.pack .binary64 (.infinity s) := by
    have hle : 2 ^ 11 ≤ (e + ((1023 : Nat) : Int) + ((52 : Nat) : Int)).toNat + 1 := by omega
    simp only [UnpackedFloat.pack, hbias]
    rw [if_pos hle]
  simp only [Float.Model.pack, hpack]

theorem unpack_pack_infinity (s : Sign) :
    (Float.Model.pack (.infinity s)).unpack = .infinity s := by
  show UnpackedFloat.unpack .binary64 (packedInfinity .binary64 s) = _
  simp [UnpackedFloat.unpack, packedInfinity, unpackMantissa_packComponents,
    unpackExponent_packComponents, UnpackedFloat.unpackSign_packComponents,
    Sign.ofBitVec_toBitVec]

theorem unpack_pack_overflow (s : Sign) {m : Nat} {e : Int} (hm : 0 < m) (he : 971 < e) :
    (Float.Model.pack (.finite s m e hm)).unpack = .infinity s := by
  rw [pack_overflow s hm he, unpack_pack_infinity]

/-- The double has the integer as its exact value. -/
def Denotes (x : Float) (k : Int) : Prop :=
  match x.toModel.unpack with
  | .zero _ => k = 0
  | .finite s m e _ =>
    if 0 ≤ e then k = s.apply (m * 2 ^ e.toNat : Nat) else s.apply m = k * 2 ^ (-e).toNat
  | .infinity _ => False
  | .notANumber => False

instance (x : Float) (k : Int) : Decidable (Denotes x k) := by
  unfold Denotes
  split <;> infer_instance

theorem natAbs_sign_apply (s : Sign) (m : Nat) : (s.apply m).natAbs = m := by
  cases s <;> simp [Sign.apply]

theorem signOf_sign_apply (s : Sign) {m : Nat} (hm : 0 < m) : signOf (s.apply m) = s := by
  cases s with
  | positive => exact signOf_eq_positive.2 (by simp [Sign.apply])
  | negative =>
    have hneg : Sign.negative.apply (m : Int) < 0 := by
      simp only [Sign.apply]
      omega
    rw [signOf, if_pos hneg]

/-- A double that is a nonzero integer has a full mantissa. -/
theorem Denotes.unpack {x : Float} {k : Int} (h : Denotes x k) (hk : k ≠ 0) :
    ∃ c f hc, x.toModel.unpack = .finite (signOf k) c f hc ∧ c.log2 = 52 ∧ -52 ≤ f ∧ f ≤ 971 ∧
      c * 2 ^ (f + 52).toNat = k.natAbs * 2 ^ 52 := by
  unfold Denotes at h
  split at h
  · exact absurd h hk
  · next s m e hm hx =>
    obtain ⟨hhi, he, hlo⟩ := unpack_finite_bounds hx
    split at h
    · next hpos =>
      subst h
      have hpow : 0 < m * 2 ^ e.toNat := Nat.mul_pos hm (by positivity)
      refine ⟨m, e, hm, ?_, log2_of_width (by omega) hhi, by omega, he, ?_⟩
      · rw [signOf_sign_apply s hpow, hx]
      · rw [natAbs_sign_apply, show (e + 52).toNat = e.toNat + 52 by omega, Nat.pow_add,
          Nat.mul_assoc]
    · next hneg =>
      have habs : m = k.natAbs * 2 ^ (-e).toNat := by
        have := congrArg Int.natAbs h
        rw [natAbs_sign_apply, Int.natAbs_mul, Int.natAbs_pow] at this
        exact this
      have hsign : s = signOf k := by
        have hpow : signOf (2 ^ (-e).toNat) = .positive :=
          signOf_eq_positive.2 (Int.not_lt.2 (by positivity))
        rw [← signOf_sign_apply s hm, h, signOf_mul hk (by positivity), hpow, mul_positive]
      have hle : 2 ^ (-e).toNat ≤ m := by
        rw [habs]
        exact Nat.le_mul_of_pos_left _ (Int.natAbs_pos.2 hk)
      have hexp : (-e).toNat < 53 := by
        by_contra hge
        have := Nat.pow_le_pow_right (show 0 < 2 by decide) (Nat.le_of_not_lt hge)
        omega
      refine ⟨m, e, hm, ?_, log2_of_width (by omega) hhi, by omega, he, ?_⟩
      · rw [← hsign, hx]
      · rw [habs, Nat.mul_assoc, ← Nat.pow_add]
        congr 2
        omega
  · exact h.elim
  · exact h.elim

/-- What an arbitrary nonzero integer is rounded to. -/
theorem unpack_ofInt_rounding {n : Int} (hn : n ≠ 0) :
    ∃ r e h, Rounding n.natAbs r e ∧ (ofInt n).toModel.unpack =
      if e ≤ 971 then .finite (signOf n) r e h else .infinity (signOf n) := by
  obtain ⟨r, e, h, hr, hf⟩ := round_rounding (signOf n) (Int.natAbs_pos.2 hn)
  refine ⟨r, e, h, hf, ?_⟩
  show (Float.Model.pack (unpackedInt n)).unpack = _
  rw [unpackedInt_eq_round hn, hr]
  have hlo := hf.exp
  split
  · next he => exact unpack_pack_normal _ h hf.full (by omega) he
  · next he => exact unpack_pack_overflow _ h (by omega)

/-! ### A double against the rounding of an integer -/

theorem then_ne_lt {e e' : Int} {m m' : Nat} (h : Below e' m' e m) :
    (compare e e').then (compare m m') ≠ .lt := by
  rcases h with h | ⟨rfl, h⟩
  · rw [Int.compare_eq_gt.2 h]
    exact (by decide : Ordering.gt ≠ Ordering.lt)
  · rw [Int.compare_eq_eq.2 rfl]
    exact Nat.compare_ne_lt.2 h

theorem then_ne_gt {e e' : Int} {m m' : Nat} (h : Below e m e' m') :
    (compare e e').then (compare m m') ≠ .gt := by
  rcases h with h | ⟨rfl, h⟩
  · rw [Int.compare_eq_lt.2 h]
    exact (by decide : Ordering.lt ≠ Ordering.gt)
  · rw [Int.compare_eq_eq.2 rfl]
    exact Nat.compare_ne_gt.2 h

theorem signOf_of_neg {n : Int} (h : n < 0) : signOf n = .negative := if_pos h

theorem signOf_of_nonneg {n : Int} (h : ¬n < 0) : signOf n = .positive := if_neg h

theorem Denotes.unpack_zero {x : Float} (h : Denotes x 0) : ∃ s, x.toModel.unpack = .zero s := by
  unfold Denotes at h
  split at h
  · next s hs => exact ⟨s, hs⟩
  · next s m e hm hx =>
    split at h
    · have habs := congrArg Int.natAbs h
      rw [natAbs_sign_apply] at habs
      exact absurd habs.symm (Nat.mul_pos hm (by positivity)).ne'
    · have habs := congrArg Int.natAbs h
      rw [natAbs_sign_apply, Int.zero_mul] at habs
      exact absurd habs hm.ne'
  · exact h.elim
  · exact h.elim

/-- An order of magnitudes as an order of numbers with that sign. -/
def orient : Sign → Ordering → Ordering
  | .positive, o => o
  | .negative, o => o.swap

/-- Two numbers of the same sign, one of them the rounding of an integer. -/
theorem compare_rounding {k n : Int} {c r : Nat} {f e : Int} (hc : 0 < c) (h : 0 < r)
    (hcf : c.log2 = 52) (hf : -52 ≤ f) (hf' : f ≤ 971)
    (hval : c * 2 ^ (f + 52).toNat = k.natAbs * 2 ^ 52) (hr : Rounding n.natAbs r e) (s : Sign) :
    ∃ o, UnpackedFloat.compare (.finite s c f hc)
        (if e ≤ 971 then .finite s r e h else .infinity s) = some o ∧
      (n.natAbs ≤ k.natAbs → orient s o ≠ .lt) ∧ (k.natAbs ≤ n.natAbs → orient s o ≠ .gt) := by
  have hbelow : n.natAbs ≤ k.natAbs → Below e r f c := by
    intro hle
    refine hr.below hcf hf ?_
    rw [hval]
    exact Nat.mul_le_mul_right _ hle
  have habove : k.natAbs ≤ n.natAbs → Below f c e r := by
    intro hle
    refine hr.above hcf hf ?_
    rw [hval]
    exact Nat.mul_le_mul_right _ hle
  by_cases he : e ≤ 971
  · rw [if_pos he]
    cases s with
    | positive =>
      exact ⟨_, rfl, fun hle => then_ne_lt (hbelow hle), fun hle => then_ne_gt (habove hle)⟩
    | negative =>
      refine ⟨_, rfl, ?_, ?_⟩
      · intro hle
        rw [orient, Ordering.swap_swap]
        exact then_ne_lt (hbelow hle)
      · intro hle
        rw [orient, Ordering.swap_swap]
        exact then_ne_gt (habove hle)
  · -- an infinite rounding is beyond every double
    rw [if_neg he]
    have hlarge : ¬n.natAbs ≤ k.natAbs := by
      intro hle
      rcases hbelow hle with h' | ⟨h', -⟩
      · omega
      · omega
    cases s with
    | positive => exact ⟨.lt, rfl, fun hle => absurd hle hlarge, fun _ => by decide⟩
    | negative => exact ⟨.gt, rfl, fun hle => absurd hle hlarge, fun _ => by decide⟩

/-- The rounding of an integer does not jump over a double. -/
theorem compare_ofInt {x : Float} {k : Int} (hx : Denotes x k) (n : Int) :
    ∃ o, x.toModel.compare (ofInt n).toModel = some o ∧ (n ≤ k → o ≠ .lt) ∧ (k ≤ n → o ≠ .gt) := by
  show ∃ o, UnpackedFloat.compare x.toModel.unpack (ofInt n).toModel.unpack = some o ∧ _
  by_cases hk : k = 0
  · subst hk
    obtain ⟨s, hu⟩ := hx.unpack_zero
    by_cases hn : n = 0
    · subst hn
      rw [hu, show (ofInt 0).toModel.unpack = .zero .positive from unpack_packedZero]
      exact ⟨.eq, rfl, by simp, by simp⟩
    · obtain ⟨r, e, h, -, hu'⟩ := unpack_ofInt_rounding hn
      rw [hu, hu']
      by_cases hneg : n < 0
      · refine ⟨.gt, ?_, by simp, by omega⟩
        rw [signOf_of_neg hneg]
        split <;> rfl
      · refine ⟨.lt, ?_, by omega, by simp⟩
        rw [signOf_of_nonneg hneg]
        split <;> rfl
  · obtain ⟨c, f, hc, hu, hcf, hf, hf', hval⟩ := hx.unpack hk
    by_cases hn : n = 0
    · subst hn
      rw [hu, show (ofInt 0).toModel.unpack = .zero .positive from unpack_packedZero]
      by_cases hneg : k < 0
      · rw [signOf_of_neg hneg]
        exact ⟨.lt, rfl, by omega, by simp⟩
      · rw [signOf_of_nonneg hneg]
        exact ⟨.gt, rfl, by simp, by omega⟩
    · obtain ⟨r, e, h, hr, hu'⟩ := unpack_ofInt_rounding hn
      rw [hu, hu']
      by_cases hkneg : k < 0 <;> by_cases hnneg : n < 0
      · rw [signOf_of_neg hkneg, signOf_of_neg hnneg]
        obtain ⟨o, ho, hle, hge⟩ := compare_rounding hc h hcf hf hf' hval hr .negative
        refine ⟨o, ho, ?_, ?_⟩
        · rintro hnk rfl
          exact hge (by omega) rfl
        · rintro hnk rfl
          exact hle (by omega) rfl
      · rw [signOf_of_neg hkneg, signOf_of_nonneg hnneg]
        refine ⟨.lt, ?_, by omega, by simp⟩
        split <;> rfl
      · rw [signOf_of_nonneg hkneg, signOf_of_neg hnneg]
        refine ⟨.gt, ?_, by simp, by omega⟩
        split <;> rfl
      · rw [signOf_of_nonneg hkneg, signOf_of_nonneg hnneg]
        obtain ⟨o, ho, hle, hge⟩ := compare_rounding hc h hcf hf hf' hval hr .positive
        exact ⟨o, ho, fun hnk => hle (by omega), fun hnk => hge (by omega)⟩

/-! ### Equality, and back to the integer -/

/-- Finite numbers that are not zero are equal only if they are written
alike. -/
theorem compare_finite_eq_iff {s s' : Sign} {m m' : Nat} {e e' : Int} {hm : 0 < m} {hm' : 0 < m'} :
    UnpackedFloat.compare (.finite s m e hm) (.finite s' m' e' hm') = some .eq ↔
      s = s' ∧ e = e' ∧ m = m' := by
  cases s <;> cases s'
  · show some ((compare e e').then (compare m m')).swap = some .eq ↔ _
    rw [Option.some_inj, Ordering.swap_eq_iff_eq_swap]
    simp
  · simp [UnpackedFloat.compare]
  · simp [UnpackedFloat.compare]
  · show some ((compare e e').then (compare m m')) = some .eq ↔ _
    rw [Option.some_inj]
    simp

theorem compare_eq_comm {a b : UnpackedFloat} (h : a.compare b = some .eq) :
    b.compare a = some .eq := by
  cases a with
  | notANumber => simp [UnpackedFloat.compare] at h
  | infinity s =>
    cases b with
    | infinity s' => cases s <;> cases s' <;> first | rfl | exact absurd h (by decide)
    | _ => cases s <;> simp [UnpackedFloat.compare] at h
  | zero s =>
    cases b with
    | zero s' => rfl
    | infinity s' => cases s' <;> simp [UnpackedFloat.compare] at h
    | finite s' m e hm => cases s' <;> simp [UnpackedFloat.compare] at h
    | notANumber => simp [UnpackedFloat.compare] at h
  | finite s m e hm =>
    cases b with
    | finite s' m' e' hm' =>
      obtain ⟨hs, he, hm⟩ := compare_finite_eq_iff.1 h
      exact compare_finite_eq_iff.2 ⟨hs.symm, he.symm, hm.symm⟩
    | infinity s' => cases s' <;> simp [UnpackedFloat.compare] at h
    | zero s' => cases s <;> simp [UnpackedFloat.compare] at h
    | notANumber => simp [UnpackedFloat.compare] at h

theorem beq_iff_compare {x y : Float} :
    (x == y) = true ↔ x.toModel.compare y.toModel = some .eq := by
  show (UnpackedFloat.compare x.toModel.unpack y.toModel.unpack == some .eq) = true ↔ _
  rw [beq_iff_eq]
  rfl

theorem beq_comm_float {x y : Float} : (x == y) = (y == x) := by
  rw [Bool.eq_iff_iff, beq_iff_compare, beq_iff_compare]
  exact ⟨compare_eq_comm, compare_eq_comm⟩

theorem Denotes.truncToInt {x : Float} {k : Int} (h : Denotes x k) : truncToInt x = k := by
  by_cases hk : k = 0
  · subst hk
    obtain ⟨s, hu⟩ := h.unpack_zero
    rw [Binary64.truncToInt, hu]
    rfl
  · obtain ⟨c, f, hc, hu, hcf, hf, hf', hval⟩ := h.unpack hk
    have hcut : (c <<< (f - 0).toNat) / 2 ^ (0 - (f - ((f - 0).toNat : Int))).toNat =
        k.natAbs := by
      rw [Nat.shiftLeft_eq]
      refine Nat.div_eq_of_eq_mul_left (by positivity) ?_
      refine Nat.eq_of_mul_eq_mul_right (show 0 < 2 ^ 52 by positivity) ?_
      by_cases hpos : 0 ≤ f
      · rw [show (0 - (f - ((f - 0).toNat : Int))).toNat = 0 by omega, pow_zero, mul_one,
          mul_assoc, ← pow_add, show (f - 0).toNat + 52 = (f + 52).toNat by omega, hval]
      · rw [show (f - 0).toNat = 0 by omega, pow_zero, mul_one, mul_right_comm, ← hval, mul_assoc,
          ← pow_add]
        congr 2
        omega
    rw [Binary64.truncToInt, hu]
    simp only [UnpackedFloat.toInt, roundToInt, decreaseExponent, shiftToExponent,
      shiftRight_mantissa, ExtendedMantissa.ofMantissaAndAccuracy]
    rw [hcut, signOf_apply_natAbs]

/-- An odd integer that a double denotes has at most 53 bits. -/
theorem Denotes.natAbs_lt_of_odd {x : Float} {k : Int} (h : Denotes x k) (hk : k % 2 = 1) :
    k.natAbs < 2 ^ 53 := by
  obtain ⟨c, f, hc, hu, hlog, hlo, hhi, heq⟩ := h.unpack (by omega)
  have hwidth := width_of_log2 hlog
  by_cases hE : (f + 52).toNat ≤ 52
  · have hpow : 2 ^ (f + 52).toNat ≤ 2 ^ 52 := Nat.pow_le_pow_right (by decide) hE
    have hle : k.natAbs * 2 ^ 52 ≤ c * 2 ^ 52 := by
      rw [← heq]
      exact Nat.mul_le_mul_left c hpow
    exact Nat.lt_of_le_of_lt (Nat.le_of_mul_le_mul_right hle (by decide)) hwidth.2
  · obtain ⟨j, hj⟩ : ∃ j, (f + 52).toNat = j + 53 := ⟨(f + 52).toNat - 53, by omega⟩
    rw [hj, Nat.pow_add, ← Nat.mul_assoc] at heq
    omega

theorem Denotes.not_isNaN {x : Float} {k : Int} (h : Denotes x k) : x.isNaN = false := by
  show x.toModel.unpack.isNaN = false
  unfold Denotes at h
  split at h
  · next hu => rw [hu]; rfl
  · next hu => rw [hu]; rfl
  · exact h.elim
  · exact h.elim

theorem Denotes.not_isInf {x : Float} {k : Int} (h : Denotes x k) : x.isInf = false := by
  show x.toModel.unpack.isInf = false
  unfold Denotes at h
  split at h
  · next hu => rw [hu]; rfl
  · next hu => rw [hu]; rfl
  · exact h.elim
  · exact h.elim

/-- A double that denotes an integer is neither below nor above the
conversion of it. -/
theorem Denotes.compare_self {x : Float} {k : Int} (h : Denotes x k) :
    x.toModel.compare (ofInt k).toModel = some .eq := by
  obtain ⟨o, ho, hle, hge⟩ := compare_ofInt h k
  cases o with
  | lt => exact absurd rfl (hle (Int.le_refl _))
  | gt => exact absurd rfl (hge (Int.le_refl _))
  | eq => exact ho

theorem Denotes.ofInt_beq {x : Float} {k : Int} (h : Denotes x k) : (ofInt k == x) = true := by
  rw [beq_comm_float, beq_iff_compare]
  exact h.compare_self

/-- The integer of at most fifty-three significant bits nearest to `n`. -/
def nearestInt (n : Int) : Int := (signOf n).apply (nearest n.natAbs)

theorem nearest_pos {m : Nat} (hm : 0 < m) : 0 < nearest m := by
  obtain ⟨r, e, h, -, hr⟩ := round_rounding .positive hm
  have hpos : 0 < r * 2 ^ (e + 52).toNat := Nat.mul_pos h (by positivity)
  rw [hr.value] at hpos
  exact Nat.pos_of_mul_pos_right hpos

theorem nearestInt_eq_iff {n k : Int} (hn : n ≠ 0) (hk : k ≠ 0) :
    nearestInt n = k ↔ signOf n = signOf k ∧ nearest n.natAbs = k.natAbs := by
  have hpos := nearest_pos (Int.natAbs_pos.2 hn)
  constructor
  · rintro rfl
    exact ⟨(signOf_sign_apply _ hpos).symm, (natAbs_sign_apply _ _).symm⟩
  · rintro ⟨hs, ha⟩
    rw [nearestInt, hs, ha, signOf_apply_natAbs]

/-- Full mantissas stand for the same value only if they are the same. -/
theorem full_eq_iff {m m' : Nat} (hm : m.log2 = 52) (hm' : m'.log2 = 52) {e e' : Int}
    (he : -52 ≤ e) (he' : -52 ≤ e') :
    m * 2 ^ (e + 52).toNat = m' * 2 ^ (e' + 52).toNat ↔ e = e' ∧ m = m' := by
  rw [le_antisymm_iff, below_iff_scaled hm hm' he he', below_iff_scaled hm' hm he' he]
  unfold Below
  omega

/-- The conversion of an integer equals a double exactly when the double is
the rounding of the integer. -/
theorem ofInt_beq_iff {x : Float} {k : Int} (hx : Denotes x k) (n : Int) :
    (ofInt n == x) = true ↔ nearestInt n = k := by
  rw [beq_iff_compare]
  show UnpackedFloat.compare (ofInt n).toModel.unpack x.toModel.unpack = _ ↔ _
  by_cases hn : n = 0
  · subst hn
    rw [show (ofInt 0).toModel.unpack = .zero .positive from unpack_packedZero,
      show nearestInt 0 = 0 from rfl]
    by_cases hk : k = 0
    · subst hk
      obtain ⟨s, hu⟩ := hx.unpack_zero
      rw [hu]
      exact iff_of_true rfl rfl
    · obtain ⟨c, f, hc, hu, -⟩ := hx.unpack hk
      rw [hu]
      refine iff_of_false ?_ (Ne.symm hk)
      cases signOf k <;> simp [UnpackedFloat.compare]
  · obtain ⟨r, e, h, hr, hu⟩ := unpack_ofInt_rounding hn
    rw [hu]
    by_cases hk : k = 0
    · subst hk
      obtain ⟨s, hu'⟩ := hx.unpack_zero
      rw [hu']
      refine iff_of_false ?_ ?_
      · split <;> cases signOf n <;> simp [UnpackedFloat.compare]
      · intro h0
        have habs := congrArg Int.natAbs h0
        rw [nearestInt, natAbs_sign_apply] at habs
        exact absurd habs (nearest_pos (Int.natAbs_pos.2 hn)).ne'
    · obtain ⟨c, f, hc, hu', hcf, hf, hf', hval⟩ := hx.unpack hk
      have hmag : nearest n.natAbs = k.natAbs ↔ e = f ∧ r = c := by
        rw [← full_eq_iff hr.full hcf hr.exp hf, hr.value, hval]
        exact (Nat.mul_left_inj (by positivity)).symm
      rw [hu', nearestInt_eq_iff hn hk, hmag]
      by_cases he : e ≤ 971
      · rw [if_pos he]
        exact compare_finite_eq_iff
      · rw [if_neg he]
        refine iff_of_false ?_ (by omega)
        cases signOf n <;> simp [UnpackedFloat.compare]

end Binary64
