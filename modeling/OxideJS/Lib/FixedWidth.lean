import Mathlib.Data.Nat.Digits.Defs

/-!
Decimal numbers of a fixed width.

`pad` writes a number with zeros in front, up to a width; `takeDigits` reads
as many digits as it is told. A number below the power of the width is read
back whatever follows it.
-/

namespace OxideJS.Lib.FixedWidth

/-- A number with zeros in front, of at least the width. -/
def pad (w n : Nat) : List Char :=
  List.replicate (w - (Nat.toDigits 10 n).length) '0' ++ Nat.toDigits 10 n

@[irreducible] def digitOf (c : Char) : Nat := c.toNat - 48

/-- The value of digits that follow the value `v`. -/
def valueFrom (v : Nat) : List Char → Nat
  | [] => v
  | c :: cs => valueFrom (v * 10 + digitOf c) cs

/-- So many digits, and what follows them. -/
def takeDigits (v : Nat) : Nat → List Char → Option (Nat × List Char)
  | 0, cs => some (v, cs)
  | _ + 1, [] => none
  | k + 1, c :: cs => if c.isDigit then takeDigits (v * 10 + digitOf c) k cs else none

theorem digitOf_digitChar {n : Nat} (h : n < 10) : digitOf n.digitChar = n := by
  have hcode := Nat.toNat_digitChar_of_lt_ten h
  unfold digitOf
  omega

theorem toNat_le_of_isDigit {c : Char} (h : c.isDigit = true) : c.toNat ≤ 57 := by
  simp only [Char.isDigit, Bool.and_eq_true, decide_eq_true_eq] at h
  exact h.2

theorem digitOf_le {c : Char} (h : c.isDigit = true) : digitOf c ≤ 9 := by
  have := toNat_le_of_isDigit h
  unfold digitOf
  omega

theorem valueFrom_append (v : Nat) (cs ds : List Char) :
    valueFrom v (cs ++ ds) = valueFrom (valueFrom v cs) ds := by
  induction cs generalizing v with
  | nil => rfl
  | cons c cs ih => exact ih _

theorem valueFrom_zeros (k : Nat) (cs : List Char) :
    valueFrom 0 (List.replicate k '0' ++ cs) = valueFrom 0 cs := by
  induction k with
  | zero => rfl
  | succ k ih =>
    have hzero : digitOf '0' = 0 := digitOf_digitChar (by decide : 0 < 10)
    simpa only [List.replicate_succ, List.cons_append, valueFrom, hzero, Nat.zero_mul] using ih

theorem valueFrom_toDigits (n : Nat) : valueFrom 0 (Nat.toDigits 10 n) = n := by
  induction n using Nat.strong_induction_on with
  | _ n ih =>
    rcases Nat.lt_or_ge n 10 with hlt | hge
    · simp only [Nat.toDigits_of_lt_base hlt, valueFrom, digitOf_digitChar hlt]
      omega
    · rw [Nat.toDigits_of_base_le (by decide) hge, valueFrom_append, ih _ (by omega)]
      simp only [valueFrom, digitOf_digitChar (Nat.mod_lt n (show 10 > 0 by decide))]
      omega

@[simp] theorem valueFrom_pad (w n : Nat) : valueFrom 0 (pad w n) = n := by
  rw [pad, valueFrom_zeros, valueFrom_toDigits]

theorem isDigit_of_mem_pad {w n : Nat} {c : Char} (h : c ∈ pad w n) : c.isDigit = true := by
  rcases List.mem_append.1 h with hzero | hdigit
  · rw [List.eq_of_mem_replicate hzero]
    rfl
  · exact Nat.isDigit_of_mem_toDigits (by decide) (by decide) hdigit

theorem pad_ne_nil (w n : Nat) : pad w n ≠ [] := by
  have hpos := Nat.length_toDigits_pos (b := 10) (n := n)
  intro h
  rw [pad, List.append_eq_nil_iff] at h
  rw [h.2] at hpos
  exact absurd hpos (by decide)

theorem length_pad {n w : Nat} (hw : 0 < w) (h : n < 10 ^ w) : (pad w n).length = w := by
  have := (Nat.length_toDigits_le_iff (b := 10) (by decide) hw).2 h
  simp only [pad, List.length_append, List.length_replicate]
  omega

theorem valueFrom_eq (v : Nat) (cs : List Char) :
    valueFrom v cs = v * 10 ^ cs.length + valueFrom 0 cs := by
  induction cs generalizing v with
  | nil => simp [valueFrom]
  | cons c cs ih =>
    rw [valueFrom, valueFrom, ih, ih (0 * 10 + digitOf c), List.length_cons, Nat.pow_succ]
    simp only [Nat.zero_mul, Nat.zero_add, Nat.add_mul, Nat.mul_comm (10 ^ cs.length) 10,
      Nat.mul_assoc, Nat.add_assoc]

theorem valueFrom_lt {cs : List Char} (hcs : ∀ c ∈ cs, c.isDigit = true) :
    valueFrom 0 cs < 10 ^ cs.length := by
  induction cs with
  | nil => decide
  | cons c cs ih =>
    have hdigit : digitOf c ≤ 9 := digitOf_le (hcs c List.mem_cons_self)
    have hrest := ih fun d hd => hcs d (List.mem_cons_of_mem _ hd)
    have hpow : digitOf c * 10 ^ cs.length ≤ 9 * 10 ^ cs.length := Nat.mul_le_mul_right _ hdigit
    rw [valueFrom, valueFrom_eq, Nat.zero_mul, Nat.zero_add, List.length_cons, Nat.pow_succ]
    omega

theorem le_valueFrom (v : Nat) (cs : List Char) : v ≤ valueFrom v cs := by
  rw [valueFrom_eq]
  exact Nat.le_trans (Nat.le_mul_of_pos_right v (Nat.pow_pos (by decide))) (Nat.le_add_right _ _)

/-- Digits are read one by one. -/
theorem takeDigits_append (v : Nat) {cs : List Char} (hcs : ∀ c ∈ cs, c.isDigit = true)
    (rest : List Char) : takeDigits v cs.length (cs ++ rest) = some (valueFrom v cs, rest) := by
  induction cs generalizing v with
  | nil => rfl
  | cons c cs ih =>
    have hc := hcs c List.mem_cons_self
    simp only [List.length_cons, List.cons_append, takeDigits, hc, if_true, valueFrom]
    exact ih _ fun d hd => hcs d (List.mem_cons_of_mem c hd)

/-- A number that fits the width is read back. -/
theorem takeDigits_pad {n w : Nat} (hw : 0 < w) (h : n < 10 ^ w) (rest : List Char) :
    takeDigits 0 w (pad w n ++ rest) = some (n, rest) := by
  have hdigits : ∀ c ∈ pad w n, c.isDigit = true := fun c hc => isDigit_of_mem_pad hc
  have hread := takeDigits_append 0 hdigits rest
  rwa [length_pad hw h, valueFrom_pad] at hread

end OxideJS.Lib.FixedWidth
