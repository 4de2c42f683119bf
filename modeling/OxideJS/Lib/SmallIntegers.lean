import OxideJS.Lib.Binary64

/-!
Exact arithmetic of small integers in binary64.

An integer of at most fifty-three bits converts exactly, and so do the
sum, the difference, the product and the remainder of two of them as long
as they stay that small. The one thing that does not survive is the sign of a
zero: the difference of equal integers is `+0`, like the conversion of
`0`, but a product with a zero factor and a vanishing remainder have the
sign that the rules for signs give them.

What carries the proofs is that rounding sees the value of a mantissa
with its exponent and not how it is written: `normalize_scaled`.
-/

namespace Binary64

open Float.Model Float.Model.UnpackedFloat

/-! ### Shifting zeros out -/

theorem shiftRight_succ (em : ExtendedMantissa) (k : Nat) :
    em >>> (k + 1) = (em >>> k).shiftRightOne := rfl

/-- Zeros are shifted out without a trace. -/
theorem shiftRight_shiftLeft (m j k : Nat) :
    (⟨m <<< (j + k), false, false⟩ : ExtendedMantissa) >>> k = ⟨m <<< j, false, false⟩ := by
  induction k generalizing j with
  | zero => rfl
  | succ k ih =>
    have hodd : m <<< (j + 1) = 2 * m <<< j := by
      rw [Nat.shiftLeft_succ]
    rw [shiftRight_succ, show j + (k + 1) = (j + 1) + k by omega, ih (j + 1), hodd]
    simp [ExtendedMantissa.shiftRightOne]

theorem targetExponent_normal {m : Nat} {e : Int} (hm : m.log2 = 52) (he : -1074 ≤ e) (k : Nat) :
    Format.binary64.targetExponent (totalExponent (m <<< k) (e - k)) = e := by
  have hmin : Format.binary64.minExponent = -1074 := by decide
  have hbits : Format.binary64.mantissaBits = 53 := by decide
  have hpos : 0 < m := by
    rcases Nat.eq_zero_or_pos m with h | h
    · rw [h] at hm
      simp at hm
    · exact h
  simp only [Format.targetExponent, totalExponent, hmin, hbits, log2_shiftLeft hpos, hm]
  omega

theorem shiftToTargetExponent_shifted {m : Nat} {e : Int} (hm : m.log2 = 52) (he : -1074 ≤ e)
    (k : Nat) : shiftToTargetExponent .binary64 (m <<< k) (e - k) .exact =
      (⟨m, false, false⟩, e) := by
  have hamount : (e - (e - (k : Int))).toNat = k := by omega
  have hzeros := shiftRight_shiftLeft m 0 k
  rw [Nat.zero_add] at hzeros
  simp only [shiftToTargetExponent, targetExponent_normal hm he, shiftToExponent, hamount,
    ExtendedMantissa.ofMantissaAndAccuracy, hzeros]
  simp

theorem shiftToTargetExponent_normal {m : Nat} {e : Int} (hm : m.log2 = 52) (he : -1074 ≤ e) :
    shiftToTargetExponent .binary64 m e .exact = (⟨m, false, false⟩, e) := by
  have h := shiftToTargetExponent_shifted hm he 0
  simpa only [Nat.shiftLeft_zero, Nat.cast_zero, Int.sub_zero] using h

/-- A mantissa of full width with zeros behind it is rounded to itself. -/
theorem roundWithAccuracy_shifted (s : Sign) {m : Nat} {e : Int} (hm : m.log2 = 52)
    (he : -1074 ≤ e) (k : Nat) :
    ∃ h, roundWithAccuracy .binary64 s (m <<< k) (e - k) .exact = .finite s m e h := by
  have hpos : m ≠ 0 := by
    rintro rfl
    simp at hm
  refine ⟨Nat.pos_of_ne_zero hpos, ?_⟩
  simp only [roundWithAccuracy, shiftToTargetExponent_shifted hm he k,
    ExtendedMantissa.roundedMantissa, ExtendedMantissa.accuracy, Accuracy.roundToNearestEven,
    shiftToTargetExponent_normal hm he]
  rw [dif_neg hpos]

/-- Rounding a small integer does not depend on how many zeros are written
behind it. -/
theorem round_scaled (s : Sign) {m : Nat} (hm : 0 < m) (hlt : m.log2 ≤ 52) (k : Nat) :
    UnpackedFloat.round .binary64 s (m <<< k) (-k) = UnpackedFloat.round .binary64 s m 0 := by
  obtain ⟨h, hr⟩ := round_of_log2_le s hm hlt
  have hlog : (m <<< (52 - m.log2)).log2 = 52 := by
    rw [log2_shiftLeft hm]
    omega
  have hmin : Format.binary64.minExponent = -1074 := by decide
  have hbits : Format.binary64.mantissaBits = 53 := by decide
  have htarget : Format.binary64.targetExponent (totalExponent (m <<< k) (-k)) =
      (m.log2 : Int) - 52 := by
    simp only [Format.targetExponent, totalExponent, hmin, hbits, log2_shiftLeft hm]
    omega
  rw [hr]
  by_cases hk : k ≤ 52 - m.log2
  · -- the mantissa is widened to its full width
    have hdec : decreaseExponent (m <<< k) (-k) ((m.log2 : Int) - 52) =
        (m <<< (52 - m.log2), (m.log2 : Int) - 52) := by
      have hn : (-(k : Int) - ((m.log2 : Int) - 52)).toNat = 52 - m.log2 - k := by omega
      simp only [decreaseExponent, hn, ← Nat.shiftLeft_add, Nat.add_sub_cancel' hk]
      congr 1
      omega
    obtain ⟨h', hexact⟩ := roundWithAccuracy_shifted s hlog (e := (m.log2 : Int) - 52) (by omega) 0
    simp only [Nat.shiftLeft_zero, Nat.cast_zero, Int.sub_zero] at hexact
    simp only [UnpackedFloat.round, htarget, hdec, hexact]
  · -- it is wider than that, with zeros at the end
    have hdec : decreaseExponent (m <<< k) (-k) ((m.log2 : Int) - 52) = (m <<< k, -(k : Int)) := by
      have hn : (-(k : Int) - ((m.log2 : Int) - 52)).toNat = 0 := by omega
      simp [decreaseExponent, hn]
    have hsplit : m <<< k = (m <<< (52 - m.log2)) <<< (k - (52 - m.log2)) := by
      rw [← Nat.shiftLeft_add, Nat.add_sub_cancel' (by omega)]
    have hexp : -(k : Int) = (m.log2 : Int) - 52 - ((k - (52 - m.log2) : Nat) : Int) := by omega
    obtain ⟨h', hexact⟩ := roundWithAccuracy_shifted s hlog (e := (m.log2 : Int) - 52) (by omega)
      (k - (52 - m.log2))
    simp only [UnpackedFloat.round, htarget, hdec]
    rw [hsplit, hexp, hexact]

/-- The unpacked conversion of an integer. -/
abbrev unpackedInt (n : Int) : UnpackedFloat := UnpackedFloat.ofInt .binary64 n

theorem toNat_mul_two_pow {c : Int} (hc : 0 ≤ c) (k : Nat) :
    (c * 2 ^ k).toNat = c.toNat <<< k := by
  have hcast : c * 2 ^ k = ((c.toNat * 2 ^ k : Nat) : Int) := by
    push_cast
    rw [Int.toNat_of_nonneg hc]
  rw [hcast, Int.toNat_natCast, Nat.shiftLeft_eq]

theorem normalize_scaled {c : Int} (hc : c ≠ 0) (hlt : c.natAbs.log2 ≤ 52) (k : Nat) (z : Sign) :
    UnpackedFloat.normalize .binary64 (c * 2 ^ k) (-k) z = unpackedInt c := by
  have hpos : (0 : Int) < 2 ^ k := by positivity
  rcases Int.lt_or_gt_of_ne hc with hneg | hgt
  · have hcmp : compare c 0 = .lt := Int.compare_eq_lt.2 hneg
    have hcmp' : compare (c * 2 ^ k) 0 = .lt :=
      Int.compare_eq_lt.2 (Int.mul_neg_of_neg_of_pos hneg hpos)
    have habs : (-(c * 2 ^ k)).toNat = (-c).toNat <<< k := by
      rw [← Int.neg_mul, toNat_mul_two_pow (by omega)]
    simp only [UnpackedFloat.ofInt, UnpackedFloat.normalize, hcmp, hcmp', habs]
    exact round_scaled _ (by omega) (by rwa [show (-c).toNat = c.natAbs by omega]) k
  · have hcmp : compare c 0 = .gt := Int.compare_eq_gt.2 hgt
    have hcmp' : compare (c * 2 ^ k) 0 = .gt := Int.compare_eq_gt.2 (Int.mul_pos hgt hpos)
    simp only [UnpackedFloat.ofInt, UnpackedFloat.normalize, hcmp, hcmp',
      toNat_mul_two_pow (Int.le_of_lt hgt)]
    exact round_scaled _ (by omega) (by rwa [show c.toNat = c.natAbs by omega]) k

/-! ### Small integers, unpacked -/

theorem log2_le_of_lt {n : Nat} (h : n < 2 ^ 53) : n.log2 ≤ 52 := by
  by_cases hn : n = 0
  · simp [hn]
  · exact Nat.lt_succ_iff.1 ((Nat.log2_lt hn).2 h)

def signOf (n : Int) : Sign := if n < 0 then .negative else .positive

theorem signOf_eq_positive {n : Int} : signOf n = .positive ↔ ¬n < 0 := by
  unfold signOf
  split <;> simp_all

theorem signOf_apply_natAbs (n : Int) : (signOf n).apply n.natAbs = n := by
  unfold signOf
  split
  · simp only [Sign.apply]
    omega
  · simp only [Sign.apply]
    omega

theorem signOf_apply_mul (n : Int) (k : Nat) :
    (signOf n).apply ((n.natAbs * k : Nat) : Int) = n * k := by
  have happly : ∀ (s : Sign) (x y : Int), s.apply (x * y) = s.apply x * y := by
    intro s x y
    cases s <;> simp [Sign.apply]
  push_cast
  rw [happly, ← Int.natCast_natAbs, signOf_apply_natAbs]

theorem signOf_neg {n : Int} (hn : n ≠ 0) : signOf (-n) = -signOf n := by
  unfold signOf
  rcases Int.lt_or_gt_of_ne hn with h | h
  · rw [if_neg (by omega), if_pos h]
    rfl
  · rw [if_pos (by omega), if_neg (by omega)]
    rfl

theorem signOf_mul {a b : Int} (ha : a ≠ 0) (hb : b ≠ 0) :
    signOf (a * b) = signOf a * signOf b := by
  unfold signOf
  rcases Int.lt_or_gt_of_ne ha with ha' | ha' <;> rcases Int.lt_or_gt_of_ne hb with hb' | hb'
  · rw [if_neg (Int.not_lt.2 (Int.le_of_lt (Int.mul_pos_of_neg_of_neg ha' hb'))), if_pos ha',
      if_pos hb']
    rfl
  · rw [if_pos (Int.mul_neg_of_neg_of_pos ha' hb'), if_pos ha', if_neg (by omega)]
    rfl
  · rw [if_pos (Int.mul_neg_of_pos_of_neg ha' hb'), if_neg (by omega), if_pos hb']
    rfl
  · rw [if_neg (Int.not_lt.2 (Int.le_of_lt (Int.mul_pos ha' hb'))), if_neg (by omega),
      if_neg (by omega)]
    rfl

theorem positive_mul (s : Sign) : .positive * s = s := by
  cases s <;> rfl

theorem mul_positive (s : Sign) : s * .positive = s := by
  cases s <;> rfl

theorem unpackedInt_zero : unpackedInt 0 = .zero .positive := rfl

/-- A nonzero integer is converted by rounding its absolute value. -/
theorem unpackedInt_eq_round {n : Int} (hn : n ≠ 0) :
    unpackedInt n = UnpackedFloat.round .binary64 (signOf n) n.natAbs 0 := by
  rcases Int.lt_or_gt_of_ne hn with hneg | hpos
  · have habs : (-n).toNat = n.natAbs := by omega
    have hcmp : compare n 0 = .lt := Int.compare_eq_lt.2 hneg
    simp only [UnpackedFloat.ofInt, UnpackedFloat.normalize, hcmp, habs, signOf, if_pos hneg]
  · have habs : n.toNat = n.natAbs := by omega
    have hcmp : compare n 0 = .gt := Int.compare_eq_gt.2 hpos
    have hnot : ¬n < 0 := by omega
    simp only [UnpackedFloat.ofInt, UnpackedFloat.normalize, hcmp, habs, signOf, if_neg hnot]

/-- The fields of a nonzero small integer. -/
theorem unpackedInt_eq {n : Int} (hn : n ≠ 0) (hlt : n.natAbs.log2 ≤ 52) :
    ∃ h, unpackedInt n = .finite (signOf n) (n.natAbs <<< (52 - n.natAbs.log2))
      ((n.natAbs.log2 : Int) - 52) h := by
  rw [unpackedInt_eq_round hn]
  exact round_of_log2_le (signOf n) (Int.natAbs_pos.2 hn) hlt

theorem unpack_ofInt_small {n : Int} (hlt : n.natAbs.log2 ≤ 52) :
    (ofInt n).toModel.unpack = unpackedInt n := by
  by_cases hn : n = 0
  · subst hn
    exact unpack_packedZero
  · obtain ⟨h, hu⟩ := unpackedInt_eq hn hlt
    have hm : 0 < n.natAbs := Int.natAbs_pos.2 hn
    have hwidth : (n.natAbs <<< (52 - n.natAbs.log2)).log2 = 52 := by
      rw [log2_shiftLeft hm]
      omega
    show (Float.Model.pack (unpackedInt n)).unpack = unpackedInt n
    rw [hu, unpack_pack_normal _ h hwidth (by omega) (by omega)]

/-- A small integer brought to a lower exponent. -/
theorem decreaseExponent_small {n : Int} (hlt : n.natAbs.log2 ≤ 52) {low : Int}
    (hlow : low ≤ (n.natAbs.log2 : Int) - 52) :
    (decreaseExponent (n.natAbs <<< (52 - n.natAbs.log2)) ((n.natAbs.log2 : Int) - 52) low).1 =
      n.natAbs * 2 ^ (-low).toNat := by
  have hn : 52 - n.natAbs.log2 + ((n.natAbs.log2 : Int) - 52 - low).toNat = (-low).toNat := by
    omega
  simp only [decreaseExponent]
  rw [← Nat.shiftLeft_add, hn, Nat.shiftLeft_eq]

/-! ### Sum, difference, product, remainder -/

theorem unpacked_add {a b : Int} (ha : a.natAbs.log2 ≤ 52) (hb : b.natAbs.log2 ≤ 52)
    (hs : (a + b).natAbs.log2 ≤ 52) :
    UnpackedFloat.add .binary64 (unpackedInt a) (unpackedInt b) = unpackedInt (a + b) := by
  by_cases ha0 : a = 0
  · subst ha0
    rw [Int.zero_add, unpackedInt_zero]
    by_cases hb0 : b = 0
    · subst hb0
      rfl
    · obtain ⟨h, hu⟩ := unpackedInt_eq hb0 hb
      rw [hu]
      rfl
  · obtain ⟨h, hu⟩ := unpackedInt_eq ha0 ha
    by_cases hb0 : b = 0
    · subst hb0
      rw [Int.add_zero, hu, unpackedInt_zero]
      rfl
    · obtain ⟨h', hu'⟩ := unpackedInt_eq hb0 hb
      obtain ⟨k, hk⟩ : ∃ k : Nat,
          min ((a.natAbs.log2 : Int) - 52) ((b.natAbs.log2 : Int) - 52) = -(k : Int) :=
        ⟨(-min ((a.natAbs.log2 : Int) - 52) ((b.natAbs.log2 : Int) - 52)).toNat, by omega⟩
      rw [hu, hu']
      simp only [UnpackedFloat.add, decreaseExponent_small ha (min_le_left _ _),
        decreaseExponent_small hb (min_le_right _ _), signOf_apply_mul]
      rw [hk, ← Int.add_mul, Int.neg_neg, Int.toNat_natCast, Nat.cast_pow, Nat.cast_ofNat]
      by_cases hs0 : a + b = 0
      · rw [hs0, Int.zero_mul]
        rfl
      · exact normalize_scaled hs0 hs k .positive

theorem ofInt_add_ofInt {a b : Int} (ha : a.natAbs.log2 ≤ 52) (hb : b.natAbs.log2 ≤ 52)
    (hs : (a + b).natAbs.log2 ≤ 52) : ofInt a + ofInt b = ofInt (a + b) := by
  show Float.ofModel (.pack (UnpackedFloat.add .binary64 (ofInt a).toModel.unpack
    (ofInt b).toModel.unpack)) = _
  rw [unpack_ofInt_small ha, unpack_ofInt_small hb, unpacked_add ha hb hs]
  rfl

theorem unpacked_sub {a b : Int} (ha : a.natAbs.log2 ≤ 52) (hb : b.natAbs.log2 ≤ 52)
    (hd : (a - b).natAbs.log2 ≤ 52) :
    UnpackedFloat.sub .binary64 (unpackedInt a) (unpackedInt b) = unpackedInt (a - b) := by
  by_cases ha0 : a = 0
  · subst ha0
    by_cases hb0 : b = 0
    · subst hb0
      rfl
    · obtain ⟨h, hu⟩ := unpackedInt_eq hb0 hb
      obtain ⟨h', hu'⟩ := unpackedInt_eq (n := -b) (by omega) (by rwa [Int.natAbs_neg])
      rw [Int.zero_sub, hu', hu, unpackedInt_zero]
      simp only [UnpackedFloat.sub, signOf_neg hb0, Int.natAbs_neg]
  · obtain ⟨h, hu⟩ := unpackedInt_eq ha0 ha
    by_cases hb0 : b = 0
    · subst hb0
      rw [Int.sub_zero, hu, unpackedInt_zero]
      rfl
    · obtain ⟨h', hu'⟩ := unpackedInt_eq hb0 hb
      obtain ⟨k, hk⟩ : ∃ k : Nat,
          min ((a.natAbs.log2 : Int) - 52) ((b.natAbs.log2 : Int) - 52) = -(k : Int) :=
        ⟨(-min ((a.natAbs.log2 : Int) - 52) ((b.natAbs.log2 : Int) - 52)).toNat, by omega⟩
      rw [hu, hu']
      simp only [UnpackedFloat.sub, decreaseExponent_small ha (min_le_left _ _),
        decreaseExponent_small hb (min_le_right _ _), signOf_apply_mul]
      rw [hk, ← Int.sub_mul, Int.neg_neg, Int.toNat_natCast, Nat.cast_pow, Nat.cast_ofNat]
      by_cases hd0 : a - b = 0
      · rw [hd0, Int.zero_mul]
        rfl
      · exact normalize_scaled hd0 hd k .positive

theorem ofInt_sub_ofInt {a b : Int} (ha : a.natAbs.log2 ≤ 52) (hb : b.natAbs.log2 ≤ 52)
    (hd : (a - b).natAbs.log2 ≤ 52) : ofInt a - ofInt b = ofInt (a - b) := by
  show Float.ofModel (.pack (UnpackedFloat.sub .binary64 (ofInt a).toModel.unpack
    (ofInt b).toModel.unpack)) = _
  rw [unpack_ofInt_small ha, unpack_ofInt_small hb, unpacked_sub ha hb hd]
  rfl

theorem log2_mul_le {x y : Nat} (hx : x ≠ 0) (hy : y ≠ 0) :
    x.log2 + y.log2 ≤ (x * y).log2 := by
  rw [Nat.le_log2 (Nat.mul_ne_zero hx hy), Nat.pow_add]
  exact Nat.mul_le_mul (Nat.log2_self_le hx) (Nat.log2_self_le hy)

theorem unpacked_mul {a b : Int} (ha : a.natAbs.log2 ≤ 52) (hb : b.natAbs.log2 ≤ 52)
    (hp : (a * b).natAbs.log2 ≤ 52) (ha0 : a ≠ 0) (hb0 : b ≠ 0) :
    UnpackedFloat.mul .binary64 (unpackedInt a) (unpackedInt b) = unpackedInt (a * b) := by
  obtain ⟨h, hu⟩ := unpackedInt_eq ha0 ha
  obtain ⟨h', hu'⟩ := unpackedInt_eq hb0 hb
  have hp0 : a * b ≠ 0 := Int.mul_ne_zero ha0 hb0
  obtain ⟨h'', hu''⟩ := unpackedInt_eq hp0 hp
  have hlog := log2_mul_le (Int.natAbs_ne_zero.2 ha0) (Int.natAbs_ne_zero.2 hb0)
  rw [← Int.natAbs_mul] at hlog
  -- the product of the mantissas is that of the integers, with zeros behind it
  obtain ⟨k, hk⟩ : ∃ k : Nat, 104 - a.natAbs.log2 - b.natAbs.log2 =
      52 - (a * b).natAbs.log2 + k := ⟨52 + (a * b).natAbs.log2 - a.natAbs.log2 - b.natAbs.log2,
        by omega⟩
  have hmant : a.natAbs <<< (52 - a.natAbs.log2) * b.natAbs <<< (52 - b.natAbs.log2) =
      ((a * b).natAbs <<< (52 - (a * b).natAbs.log2)) <<< k := by
    rw [← Nat.shiftLeft_add, ← hk, Int.natAbs_mul]
    simp only [Nat.shiftLeft_eq]
    rw [show 104 - a.natAbs.log2 - b.natAbs.log2 =
      (52 - a.natAbs.log2) + (52 - b.natAbs.log2) by omega, Nat.pow_add]
    ring
  have hexp : (a.natAbs.log2 : Int) - 52 + ((b.natAbs.log2 : Int) - 52) =
      ((a * b).natAbs.log2 : Int) - 52 - k := by omega
  have hwidth : ((a * b).natAbs <<< (52 - (a * b).natAbs.log2)).log2 = 52 := by
    rw [log2_shiftLeft (Int.natAbs_pos.2 hp0)]
    omega
  obtain ⟨_, hround⟩ := roundWithAccuracy_shifted (signOf a * signOf b) hwidth
    (e := ((a * b).natAbs.log2 : Int) - 52) (by omega) k
  rw [hu, hu', hu'']
  simp only [UnpackedFloat.mul]
  rw [hmant, hexp, hround]
  simp only [signOf_mul ha0 hb0]

theorem ofInt_mul_ofInt {a b : Int} (ha : a.natAbs.log2 ≤ 52) (hb : b.natAbs.log2 ≤ 52)
    (hp : (a * b).natAbs.log2 ≤ 52) (ha0 : a ≠ 0) (hb0 : b ≠ 0) :
    ofInt a * ofInt b = ofInt (a * b) := by
  show Float.ofModel (.pack (UnpackedFloat.mul .binary64 (ofInt a).toModel.unpack
    (ofInt b).toModel.unpack)) = _
  rw [unpack_ofInt_small ha, unpack_ofInt_small hb, unpacked_mul ha hb hp ha0 hb0]
  rfl

/-- The zero with a sign. -/
def signedZero (s : Sign) : Float := .ofModel (.pack (.zero s))

/-- A product with a zero factor has the sign of the other factor. -/
theorem ofInt_mul_ofInt_zero {a b : Int} (ha : a.natAbs.log2 ≤ 52) (hb : b.natAbs.log2 ≤ 52)
    (h0 : a = 0 ∨ b = 0) : ofInt a * ofInt b = signedZero (signOf a * signOf b) := by
  show Float.ofModel (.pack (UnpackedFloat.mul .binary64 (ofInt a).toModel.unpack
    (ofInt b).toModel.unpack)) = _
  rw [unpack_ofInt_small ha, unpack_ofInt_small hb]
  by_cases ha0 : a = 0
  · subst ha0
    by_cases hb0 : b = 0
    · subst hb0
      rfl
    · obtain ⟨h, hu⟩ := unpackedInt_eq hb0 hb
      rw [hu, unpackedInt_zero]
      rfl
  · obtain rfl := h0.resolve_left ha0
    obtain ⟨h, hu⟩ := unpackedInt_eq ha0 ha
    rw [hu, unpackedInt_zero]
    rfl

theorem signOf_tmod {a b : Int} (h : a.tmod b ≠ 0) : signOf (a.tmod b) = signOf a := by
  unfold signOf
  by_cases ha : a < 0
  · have hneg : (-a).tmod b = -(a.tmod b) := Int.neg_tmod a b
    have hnonneg := Int.tmod_nonneg b (a := -a) (by omega)
    rw [if_pos ha, if_pos (by omega)]
  · have hnonneg := Int.tmod_nonneg b (a := a) (by omega)
    rw [if_neg ha, if_neg (by omega)]

/-- The remainder has the sign of the dividend, also where it vanishes. -/
theorem rem_ofInt_ofInt {a b : Int} (ha : a.natAbs.log2 ≤ 52) (hb : b.natAbs.log2 ≤ 52)
    (ha0 : a ≠ 0) (hb0 : b ≠ 0) :
    rem (ofInt a) (ofInt b) =
      if a.tmod b = 0 then signedZero (signOf a) else ofInt (a.tmod b) := by
  obtain ⟨h, hu⟩ := unpackedInt_eq ha0 ha
  obtain ⟨h', hu'⟩ := unpackedInt_eq hb0 hb
  obtain ⟨k, hk⟩ : ∃ k : Nat,
      min ((a.natAbs.log2 : Int) - 52) ((b.natAbs.log2 : Int) - 52) = -(k : Int) :=
    ⟨(-min ((a.natAbs.log2 : Int) - 52) ((b.natAbs.log2 : Int) - 52)).toNat, by omega⟩
  rw [rem, unpack_ofInt_small ha, unpack_ofInt_small hb, hu, hu']
  simp only [decreaseExponent_small ha (min_le_left _ _),
    decreaseExponent_small hb (min_le_right _ _)]
  rw [hk, Int.neg_neg, Int.toNat_natCast, Nat.mul_mod_mul_right, ← Int.natAbs_tmod]
  by_cases hr0 : a.tmod b = 0
  · rw [if_pos hr0, hr0, Int.natAbs_zero, Nat.zero_mul]
    have hzero : (signOf a).apply ((0 : Nat) : Int) = 0 := by
      cases signOf a <;> rfl
    rw [hzero]
    rfl
  · have hle : (a.tmod b).natAbs ≤ a.natAbs := by
      rw [Int.natAbs_tmod]
      exact Nat.mod_le _ _
    have hlog : (a.tmod b).natAbs.log2 ≤ 52 := by
      rw [Nat.log2_eq_log_two] at ha ⊢
      exact (Nat.log_mono_right hle).trans ha
    rw [if_neg hr0, ← signOf_tmod hr0, signOf_apply_mul, Nat.cast_pow, Nat.cast_ofNat,
      normalize_scaled hr0 hlog]
    rfl

theorem rem_zero_ofInt {b : Int} (hb : b.natAbs.log2 ≤ 52) (hb0 : b ≠ 0) :
    rem (ofInt 0) (ofInt b) = ofInt 0 := by
  obtain ⟨h, hu⟩ := unpackedInt_eq hb0 hb
  rw [rem, unpack_ofInt_small (by decide), unpack_ofInt_small hb, hu, unpackedInt_zero]

end Binary64
