import Mathlib.Data.Char

/-!
UTF-8 of single characters.

Bytes are numbers. `decode` is the table of well-formed sequences: it takes
the bytes of one character, and no other.
-/

namespace Utf8

/-- The bytes of a code point. -/
def encode (n : Nat) : List Nat :=
  if n < 0x80 then [n]
  else if n < 0x800 then [0xC0 + n / 64, 0x80 + n % 64]
  else if n < 0x10000 then [0xE0 + n / 4096, 0x80 + n / 64 % 64, 0x80 + n % 64]
  else [0xF0 + n / 262144, 0x80 + n / 4096 % 64, 0x80 + n / 64 % 64, 0x80 + n % 64]

/-- The range of the second byte. -/
def secondRange (first : Nat) : Nat × Nat :=
  if first = 0xE0 then (0xA0, 0xBF)
  else if first = 0xED then (0x80, 0x9F)
  else if first = 0xF0 then (0x90, 0xBF)
  else if first = 0xF4 then (0x80, 0x8F)
  else (0x80, 0xBF)

def inRange (range : Nat × Nat) (b : Nat) : Bool :=
  range.1 ≤ b && b ≤ range.2

/-- The code point of one well-formed sequence. -/
def decode : List Nat → Option Nat
  | [a] => if a < 0x80 then some a else none
  | [a, b] =>
    if inRange (0xC2, 0xDF) a && inRange (0x80, 0xBF) b then some ((a - 0xC0) * 64 + (b - 0x80))
    else none
  | [a, b, c] =>
    if inRange (0xE0, 0xEF) a && inRange (secondRange a) b && inRange (0x80, 0xBF) c then
      some ((a - 0xE0) * 4096 + (b - 0x80) * 64 + (c - 0x80))
    else none
  | [a, b, c, d] =>
    if inRange (0xF0, 0xF4) a && inRange (secondRange a) b && inRange (0x80, 0xBF) c &&
        inRange (0x80, 0xBF) d then
      some ((a - 0xF0) * 262144 + (b - 0x80) * 4096 + (c - 0x80) * 64 + (d - 0x80))
    else none
  | _ => none

/-- The length that the first byte of a sequence announces. -/
def sequenceLen (first : Nat) : Option Nat :=
  if first ≤ 0x7F then some 1
  else if inRange (0xC2, 0xDF) first then some 2
  else if inRange (0xE0, 0xEF) first then some 3
  else if inRange (0xF0, 0xF4) first then some 4
  else none

theorem secondRange_three {a b : Nat} (ha : a ≤ 0xEF) :
    inRange (secondRange a) b = true ↔
      0x80 ≤ b ∧ b ≤ 0xBF ∧ (a = 0xE0 → 0xA0 ≤ b) ∧ (a = 0xED → b ≤ 0x9F) := by
  unfold secondRange inRange
  repeat' split
  all_goals simp only [Bool.and_eq_true, decide_eq_true_eq]
  all_goals omega

theorem secondRange_four {a b : Nat} (ha : 0xF0 ≤ a) :
    inRange (secondRange a) b = true ↔
      0x80 ≤ b ∧ b ≤ 0xBF ∧ (a = 0xF0 → 0x90 ≤ b) ∧ (a = 0xF4 → b ≤ 0x8F) := by
  unfold secondRange inRange
  repeat' split
  all_goals simp only [Bool.and_eq_true, decide_eq_true_eq]
  all_goals omega

theorem decode_encode {n : Nat} (h : n.isValidChar) : decode (encode n) = some n := by
  unfold Nat.isValidChar at h
  unfold encode
  split
  · next hn => simp [decode, hn]
  split
  · rw [decode, if_pos]
    · rw [Option.some.injEq]
      omega
    · simp only [inRange, Bool.and_eq_true, decide_eq_true_eq]
      omega
  split
  · rw [decode, if_pos]
    · rw [Option.some.injEq]
      omega
    · rw [Bool.and_eq_true, Bool.and_eq_true, secondRange_three (by omega)]
      simp only [inRange, Bool.and_eq_true, decide_eq_true_eq]
      omega
  · rw [decode, if_pos]
    · rw [Option.some.injEq]
      omega
    · rw [Bool.and_eq_true, Bool.and_eq_true, Bool.and_eq_true, secondRange_four (by omega)]
      simp only [inRange, Bool.and_eq_true, decide_eq_true_eq]
      omega

theorem encode_of_decode {bs : List Nat} {n : Nat} (h : decode bs = some n) :
    n.isValidChar ∧ encode n = bs := by
  unfold Nat.isValidChar
  match bs, h with
  | [a], h =>
    rw [decode] at h
    split at h
    · cases h
      exact ⟨by omega, by rw [encode, if_pos (by assumption)]⟩
    · cases h
  | [a, b], h =>
    rw [decode] at h
    split at h
    next hab =>
      obtain rfl := Option.some.inj h
      simp only [inRange, Bool.and_eq_true, decide_eq_true_eq] at hab
      refine ⟨by omega, ?_⟩
      rw [encode, if_neg (by omega), if_pos (by omega)]
      simp only [List.cons.injEq, and_true]
      omega
    · cases h
  | [a, b, c], h =>
    rw [decode] at h
    split at h
    next hab =>
      obtain rfl := Option.some.inj h
      rw [Bool.and_eq_true, Bool.and_eq_true] at hab
      obtain ⟨⟨ha, hb⟩, hc⟩ := hab
      simp only [inRange, Bool.and_eq_true, decide_eq_true_eq] at ha hc
      rw [secondRange_three (by omega)] at hb
      refine ⟨by omega, ?_⟩
      rw [encode, if_neg (by omega), if_neg (by omega), if_pos (by omega)]
      simp only [List.cons.injEq, and_true]
      omega
    · cases h
  | [a, b, c, d], h =>
    rw [decode] at h
    split at h
    next hab =>
      obtain rfl := Option.some.inj h
      rw [Bool.and_eq_true, Bool.and_eq_true, Bool.and_eq_true] at hab
      obtain ⟨⟨⟨ha, hb⟩, hc⟩, hd⟩ := hab
      simp only [inRange, Bool.and_eq_true, decide_eq_true_eq] at ha hc hd
      rw [secondRange_four (by omega)] at hb
      refine ⟨by omega, ?_⟩
      rw [encode, if_neg (by omega), if_neg (by omega), if_neg (by omega)]
      simp only [List.cons.injEq, and_true]
      omega
    · cases h

/-- The bytes of a character: the first one announces the others, which are continuations. -/
theorem encode_shape {n : Nat} (h : n.isValidChar) :
    ∃ first tail, encode n = first :: tail ∧ sequenceLen first = some (tail.length + 1) ∧
      first < 256 ∧ ∀ b ∈ tail, 0x80 ≤ b ∧ b < 0xC0 := by
  unfold Nat.isValidChar at h
  unfold encode
  split
  · refine ⟨n, [], rfl, ?_, by omega, nofun⟩
    rw [sequenceLen, if_pos (by omega), List.length_nil]
  split
  · refine ⟨_, _, rfl, ?_, by omega, ?_⟩
    · rw [sequenceLen, if_neg (by omega), if_pos]
      · rfl
      · simp only [inRange, Bool.and_eq_true, decide_eq_true_eq]
        omega
    · simp only [List.mem_cons, List.not_mem_nil, or_false, forall_eq]
      omega
  split
  · refine ⟨_, _, rfl, ?_, by omega, ?_⟩
    · rw [sequenceLen, if_neg (by omega), if_neg, if_pos]
      · rfl
      all_goals
        simp only [inRange, Bool.and_eq_true, decide_eq_true_eq]
        omega
    · simp only [List.mem_cons, List.not_mem_nil, or_false, forall_eq_or_imp, forall_eq]
      omega
  · refine ⟨_, _, rfl, ?_, by omega, ?_⟩
    · rw [sequenceLen, if_neg (by omega), if_neg, if_neg, if_pos]
      · rfl
      all_goals
        simp only [inRange, Bool.and_eq_true, decide_eq_true_eq]
        omega
    · simp only [List.mem_cons, List.not_mem_nil, or_false, forall_eq_or_imp, forall_eq]
      omega

end Utf8
