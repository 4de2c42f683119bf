import OxideJS.Lib.FixedWidth
import Mathlib.Algebra.BigOperators.Group.List.Basic
import Mathlib.Algebra.Order.BigOperators.Group.List

/-!
Integers in decimal, one after the other.

The texts of two or more integers put together are never the text of their
sum: a sign in the middle is no part of a number, a zero in front is none
either, and otherwise the digits that follow make the first number larger
than the others can add to it.
-/

namespace OxideJS.Lib.Decimal

open FixedWidth

/-- The characters of an integer in decimal. -/
def chars (n : Int) : List Char := (toString n).toList

theorem chars_of_nonneg {n : Int} (h : 0 ≤ n) : chars n = Nat.toDigits 10 n.toNat := by
  obtain ⟨k, rfl⟩ := Int.eq_ofNat_of_zero_le h
  exact Nat.toList_repr

theorem chars_of_neg {n : Int} (h : n < 0) : chars n = '-' :: Nat.toDigits 10 n.natAbs := by
  obtain ⟨k, rfl⟩ := Int.eq_negSucc_of_lt_zero h
  simp [chars, Int.toString_eq_repr, Int.repr]

theorem isDigit_of_mem_toDigits {n : Nat} {c : Char} (h : c ∈ Nat.toDigits 10 n) :
    c.isDigit = true :=
  Nat.isDigit_of_mem_toDigits (by decide) (by decide) h

theorem chars_ne_nil (n : Int) : chars n ≠ [] := by
  rcases lt_or_ge n 0 with h | h
  · simp [chars_of_neg h]
  · rw [chars_of_nonneg h]
    exact List.ne_nil_of_length_pos Nat.length_toDigits_pos

/-- A sign and digits have small codes. -/
theorem toNat_le_of_mem {n : Int} {c : Char} (h : c ∈ chars n) : c.toNat ≤ 57 := by
  have hdigit : ∀ k, c ∈ Nat.toDigits 10 k → c.toNat ≤ 57 :=
    fun _ hk => toNat_le_of_isDigit (isDigit_of_mem_toDigits hk)
  rcases lt_or_ge n 0 with hn | hn
  · rw [chars_of_neg hn, List.mem_cons] at h
    rcases h with rfl | h
    · decide
    · exact hdigit _ h
  · rw [chars_of_nonneg hn] at h
    exact hdigit _ h

/-- Behind the first character there are only digits. -/
theorem isDigit_of_mem_tail {n : Int} {c : Char} (h : c ∈ (chars n).tail) : c.isDigit = true := by
  rcases lt_or_ge n 0 with hn | hn
  · rw [chars_of_neg hn] at h
    exact isDigit_of_mem_toDigits h
  · rw [chars_of_nonneg hn] at h
    exact isDigit_of_mem_toDigits (List.mem_of_mem_tail h)

section NonNegative

variable {ns : List Int} (hns : ∀ n ∈ ns, 0 ≤ n)
include hns

theorem isDigit_of_mem_flatten {c : Char} (h : c ∈ (ns.map chars).flatten) : c.isDigit = true := by
  obtain ⟨cs, hcs, hc⟩ := List.mem_flatten.mp h
  obtain ⟨n, hn, rfl⟩ := List.mem_map.mp hcs
  rw [chars_of_nonneg (hns n hn)] at hc
  exact isDigit_of_mem_toDigits hc

/-- Put together, numbers make a number at least as large as their sum. -/
theorem sum_le_valueFrom : ns.sum ≤ valueFrom 0 (ns.map chars).flatten := by
  induction ns with
  | nil => simp
  | cons n ns ih =>
    have hn : 0 ≤ n := hns n List.mem_cons_self
    have hrest := ih fun m hm => hns m (List.mem_cons_of_mem _ hm)
    have hpow : n.toNat ≤ n.toNat * 10 ^ (ns.map chars).flatten.length :=
      Nat.le_mul_of_pos_right _ (by positivity)
    rw [List.map_cons, List.flatten_cons, valueFrom_append, chars_of_nonneg hn,
      valueFrom_toDigits, valueFrom_eq, List.sum_cons]
    omega

end NonNegative

/-- Two or more integers, written one after the other, are not their sum. -/
theorem chars_sum_ne (n m : Int) (ms : List Int) :
    chars (n :: m :: ms).sum ≠ ((n :: m :: ms).map chars).flatten := by
  intro h
  rw [List.map_cons, List.flatten_cons] at h
  by_cases hrest : ∀ k ∈ m :: ms, 0 ≤ k
  · have hsum : 0 ≤ (m :: ms).sum := List.sum_nonneg hrest
    have hvalue := sum_le_valueFrom hrest
    have hdigits : ∀ c ∈ ((m :: ms).map chars).flatten, c.isDigit = true :=
      fun c hc => isDigit_of_mem_flatten hrest hc
    have hlength : 0 < ((m :: ms).map chars).flatten.length := by
      have := List.length_pos_of_ne_nil (chars_ne_nil m)
      simp only [List.map_cons, List.flatten_cons, List.length_append]
      omega
    rw [List.sum_cons] at h
    generalize (m :: ms).sum = s at h hsum hvalue
    generalize ((m :: ms).map chars).flatten = tail at h hvalue hdigits hlength
    have hten : 10 ≤ 10 ^ tail.length := Nat.le_self_pow (by omega) 10
    rcases lt_or_ge n 0 with hn | hn
    · -- the sign makes the sum negative, and so not smaller than the first number
      rw [chars_of_neg hn] at h
      have hneg : n + s < 0 := by
        by_contra hnonneg
        rw [chars_of_nonneg (by omega)] at h
        have hsign : '-' ∈ Nat.toDigits 10 (n + s).toNat := by simp [h]
        have := isDigit_of_mem_toDigits hsign
        revert this
        decide
      rw [chars_of_neg hneg, List.cons_append, List.cons.injEq] at h
      have hread := congrArg (valueFrom 0) h.2
      rw [valueFrom_append, valueFrom_toDigits, valueFrom_toDigits, valueFrom_eq] at hread
      have : n.natAbs * 10 ≤ n.natAbs * 10 ^ tail.length := Nat.mul_le_mul_left _ hten
      omega
    · rw [chars_of_nonneg hn, chars_of_nonneg (by omega)] at h
      have hread := congrArg (valueFrom 0) h
      rw [valueFrom_append, valueFrom_toDigits, valueFrom_toDigits, valueFrom_eq] at hread
      rcases Nat.eq_zero_or_pos n.toNat with hzero | hpos
      · -- a zero in front makes the text longer than it may be
        have hlt := valueFrom_lt hdigits
        have hle := (Nat.length_toDigits_le_iff (b := 10) (by decide) hlength).2
          (show (n + s).toNat < 10 ^ tail.length by rw [hread, hzero]; omega)
        have := congrArg List.length h
        have := Nat.length_toDigits_pos (b := 10) (n := n.toNat)
        rw [List.length_append] at *
        omega
      · have : n.toNat * 10 ≤ n.toNat * 10 ^ tail.length := Nat.mul_le_mul_left _ hten
        omega
  · -- a sign in the middle
    push Not at hrest
    obtain ⟨k, hk, hneg⟩ := hrest
    have hmem : '-' ∈ ((m :: ms).map chars).flatten :=
      List.mem_flatten.mpr ⟨chars k, List.mem_map_of_mem hk, by simp [chars_of_neg hneg]⟩
    have htail : '-' ∈ (chars (n :: m :: ms).sum).tail := by
      rw [h, List.tail_append_of_ne_nil (chars_ne_nil n)]
      exact List.mem_append_right _ hmem
    have := isDigit_of_mem_tail htail
    revert this
    decide

end OxideJS.Lib.Decimal
