import Mathlib.Data.List.Basic
import Mathlib.Data.Char
import Mathlib.Tactic.IntervalCases

/-!
Sequences of 16-bit units.

A high surrogate in front of a low one is a pair and stands for one
character. Every other surrogate is a lone one. Writers go through such a
sequence from the left, a pair or a unit at a time; `walk` is that loop.
-/

namespace Utf16

def isHigh (u : UInt16) : Bool := 0xD800 ≤ u.toNat && u.toNat ≤ 0xDBFF

def isLow (u : UInt16) : Bool := 0xDC00 ≤ u.toNat && u.toNat ≤ 0xDFFF

def isSurrogate (u : UInt16) : Bool := 0xD800 ≤ u.toNat && u.toNat ≤ 0xDFFF

/-- The code point of a pair. -/
def pairCode (hi lo : UInt16) : Nat :=
  0x10000 + (hi.toNat - 0xD800) * 0x400 + (lo.toNat - 0xDC00)

/-- The units of a character. -/
def units (c : Char) : List UInt16 :=
  if 0xFFFF < c.toNat then
    [UInt16.ofNat (0xD800 + (c.toNat - 0x10000) / 0x400),
      UInt16.ofNat (0xDC00 + (c.toNat - 0x10000) % 0x400)]
  else [UInt16.ofNat c.toNat]

theorem toNat_ofNat_char {n : Nat} (h : n.isValidChar) : (Char.ofNat n).toNat = n := by
  rw [Char.ofNat, dif_pos h]
  rfl

theorem isValidChar_pairCode {hi lo : UInt16} (hhi : isHigh hi = true) (hlo : isLow lo = true) :
    (pairCode hi lo).isValidChar ∧ 0xFFFF < pairCode hi lo := by
  simp only [isHigh, isLow, Bool.and_eq_true, decide_eq_true_eq] at hhi hlo
  unfold pairCode Nat.isValidChar
  omega

theorem units_pair {hi lo : UInt16} (hhi : isHigh hi = true) (hlo : isLow lo = true) :
    units (Char.ofNat (pairCode hi lo)) = [hi, lo] := by
  obtain ⟨hvalid, hbeyond⟩ := isValidChar_pairCode hhi hlo
  rw [units, toNat_ofNat_char hvalid, if_pos hbeyond]
  simp only [isHigh, isLow, Bool.and_eq_true, decide_eq_true_eq] at hhi hlo
  have hquot : 0xD800 + (pairCode hi lo - 0x10000) / 0x400 = hi.toNat := by
    unfold pairCode
    omega
  have hrem : 0xDC00 + (pairCode hi lo - 0x10000) % 0x400 = lo.toNat := by
    unfold pairCode
    omega
  rw [hquot, hrem, UInt16.ofNat_toNat, UInt16.ofNat_toNat]

theorem isValidChar_of_not_surrogate {u : UInt16} (h : isSurrogate u = false) :
    u.toNat.isValidChar := by
  have := u.toNat_lt
  simp only [isSurrogate, Bool.and_eq_false_iff, decide_eq_false_iff_not] at h
  unfold Nat.isValidChar
  omega

theorem units_single {u : UInt16} (h : isSurrogate u = false) :
    units (Char.ofNat u.toNat) = [u] := by
  have := u.toNat_lt
  rw [units, toNat_ofNat_char (isValidChar_of_not_surrogate h), if_neg (by omega),
    UInt16.ofNat_toNat]

/-! ### Walking through a sequence -/

section Walk

variable {β : Type*} (pair : UInt16 → UInt16 → List β) (single : UInt16 → List β)

/-- A pair is written by `pair`, and every other unit by `single`. -/
def walk : List UInt16 → List β
  | [] => []
  | [u] => single u
  | u :: v :: us =>
    if isHigh u && isLow v then pair u v ++ walk us else single u ++ walk (v :: us)

variable {pair single}

/-- A property of a written sequence, piece by piece. -/
theorem walk_induction {P : List UInt16 → List β → Prop} (hnil : P [] [])
    (hpair : ∀ u v us, isHigh u = true → isLow v = true → P us (walk pair single us) →
      P (u :: v :: us) (pair u v ++ walk pair single us))
    (hsingle : ∀ u us, (∀ v vs, us = v :: vs → (isHigh u && isLow v) = false) →
      P us (walk pair single us) → P (u :: us) (single u ++ walk pair single us))
    (us : List UInt16) : P us (walk pair single us) := by
  induction us using walk.induct with
  | case1 => exact hnil
  | case2 u => simpa only [walk, List.append_nil] using hsingle u [] nofun hnil
  | case3 u v us h ih =>
    rw [walk, if_pos h]
    rw [Bool.and_eq_true] at h
    exact hpair u v us h.1 h.2 ih
  | case4 u v us h ih =>
    rw [walk, if_neg h]
    refine hsingle u (v :: us) ?_ ih
    rintro _ _ ⟨⟩
    exact Bool.eq_false_iff.2 h

end Walk

/-! ### Texts -/

/-- The surrogates that are not in a pair. -/
def lone : List UInt16 → List UInt16 :=
  walk (fun _ _ => []) fun u => if isSurrogate u then [u] else []

/-- The characters of a sequence without lone surrogates. -/
def chars : List UInt16 → List Char :=
  walk (fun hi lo => [Char.ofNat (pairCode hi lo)]) fun u => [Char.ofNat u.toNat]

/-- `String::from_utf16`. -/
def fromUtf16 (us : List UInt16) : Option (List Char) :=
  if lone us = [] then some (chars us) else none

theorem lone_single {u : UInt16} {us : List UInt16}
    (h : (if isSurrogate u then [u] else []) ++ us = []) : isSurrogate u = false ∧ us = [] := by
  split at h
  · exact nomatch h
  · next hu => exact ⟨Bool.eq_false_iff.2 hu, h⟩

theorem isSurrogate_of_isHigh {u : UInt16} (h : isHigh u = true) : isSurrogate u = true := by
  simp only [isHigh, isSurrogate, Bool.and_eq_true, decide_eq_true_eq] at h ⊢
  omega

theorem isHigh_eq_false {u : UInt16} (h : isSurrogate u = false) : isHigh u = false := by
  simp only [isSurrogate, isHigh, Bool.and_eq_false_iff, decide_eq_false_iff_not] at h ⊢
  omega

theorem isLow_eq_false {u : UInt16} (h : isSurrogate u = false) : isLow u = false := by
  simp only [isSurrogate, isLow, Bool.and_eq_false_iff, decide_eq_false_iff_not] at h ⊢
  omega

theorem lone_pair {u v : UInt16} (hu : isHigh u = true) (hv : isLow v = true) (us : List UInt16) :
    lone (u :: v :: us) = lone us := by
  rw [lone, walk, if_pos (by rw [hu, hv]; rfl)]
  rfl

/-- A surrogate that begins no pair is a lone one. -/
theorem lone_ne_nil {u : UInt16} {us : List UInt16} (hu : isSurrogate u = true)
    (h : ∀ v vs, us = v :: vs → (isHigh u && isLow v) = false) : lone (u :: us) ≠ [] := by
  cases us with
  | nil => simp [lone, walk, hu]
  | cons v vs => simp [lone, walk, h v vs rfl, hu]

theorem lone_cons {u : UInt16} (h : isSurrogate u = false) (us : List UInt16) :
    lone (u :: us) = lone us := by
  cases us with
  | nil => simp only [lone, walk, h, Bool.false_eq_true, if_false]
  | cons v us =>
    simp only [lone, walk, isHigh_eq_false h, h, Bool.false_and, Bool.false_eq_true, if_false]
    rfl

/-- A character is one or two units, and not half of a pair. -/
theorem units_cases (c : Char) :
    (∃ u, isSurrogate u = false ∧ units c = [u] ∧ c = Char.ofNat u.toNat) ∨
      ∃ hi lo, (isHigh hi && isLow lo) = true ∧ units c = [hi, lo] ∧
        c = Char.ofNat (pairCode hi lo) := by
  have hvalid : c.toNat < 0xD800 ∨ (0xDFFF < c.toNat ∧ c.toNat < 0x110000) := c.valid
  rw [units]
  split
  · next hbeyond =>
    have hhi : (UInt16.ofNat (0xD800 + (c.toNat - 0x10000) / 0x400)).toNat =
        0xD800 + (c.toNat - 0x10000) / 0x400 := by
      rw [UInt16.toNat_ofNat']
      omega
    have hlo : (UInt16.ofNat (0xDC00 + (c.toNat - 0x10000) % 0x400)).toNat =
        0xDC00 + (c.toNat - 0x10000) % 0x400 := by
      rw [UInt16.toNat_ofNat']
      omega
    generalize UInt16.ofNat (0xD800 + (c.toNat - 0x10000) / 0x400) = hi at hhi ⊢
    generalize UInt16.ofNat (0xDC00 + (c.toNat - 0x10000) % 0x400) = lo at hlo ⊢
    have hcode : pairCode hi lo = c.toNat := by
      unfold pairCode
      omega
    refine .inr ⟨hi, lo, ?_, rfl, by rw [hcode, Char.ofNat_toNat]⟩
    simp only [isHigh, isLow, hhi, hlo, Bool.and_eq_true, decide_eq_true_eq]
    omega
  · next hbmp =>
    have hu : (UInt16.ofNat c.toNat).toNat = c.toNat := by
      rw [UInt16.toNat_ofNat']
      omega
    refine .inl ⟨_, ?_, rfl, ?_⟩
    · simp only [isSurrogate, hu, Bool.and_eq_false_iff, decide_eq_false_iff_not]
      omega
    · rw [hu, Char.ofNat_toNat]

theorem chars_cons {u : UInt16} (h : isSurrogate u = false) (us : List UInt16) :
    chars (u :: us) = Char.ofNat u.toNat :: chars us := by
  cases us with
  | nil => rfl
  | cons v us =>
    simp only [chars, walk, isHigh_eq_false h, Bool.false_and, Bool.false_eq_true, if_false]
    rfl

/-- A character has no lone surrogate in it. -/
theorem lone_units (c : Char) (us : List UInt16) : lone (units c ++ us) = lone us := by
  obtain ⟨u, hu, hunits, -⟩ | ⟨hi, lo, hpair, hunits, -⟩ := units_cases c
  · rw [hunits]
    exact lone_cons hu us
  · rw [hunits, List.cons_append, List.singleton_append, lone, walk, if_pos hpair]
    rfl

theorem chars_units (c : Char) (us : List UInt16) : chars (units c ++ us) = c :: chars us := by
  obtain ⟨u, hu, hunits, hc⟩ | ⟨hi, lo, hpair, hunits, hc⟩ := units_cases c
  · rw [hunits, hc]
    exact chars_cons hu us
  · rw [hunits, hc, List.cons_append, List.singleton_append, chars, walk, if_pos hpair]
    rfl

theorem fromUtf16_units (text : List Char) : fromUtf16 (text.flatMap units) = some text := by
  have htext : lone (text.flatMap units) = [] ∧ chars (text.flatMap units) = text := by
    induction text with
    | nil => exact ⟨rfl, rfl⟩
    | cons c text ih => rw [List.flatMap_cons, lone_units, chars_units, ih.2]; exact ⟨ih.1, rfl⟩
  rw [fromUtf16, if_pos htext.1, htext.2]

theorem units_chars {us : List UInt16} (h : lone us = []) : (chars us).flatMap units = us := by
  simp only [lone, chars] at h ⊢
  induction us using walk.induct with
  | case1 => rfl
  | case2 u =>
    rw [walk] at h
    have hu := lone_single ((List.append_nil _).trans h)
    rw [walk, List.flatMap_singleton, units_single hu.1]
  | case3 u v us huv ih =>
    rw [walk, if_pos huv] at h ⊢
    rw [Bool.and_eq_true] at huv
    rw [List.flatMap_append, ih h, List.flatMap_singleton, units_pair huv.1 huv.2]
    rfl
  | case4 u v us huv ih =>
    rw [walk, if_neg huv] at h ⊢
    have hu := lone_single h
    rw [List.flatMap_append, ih hu.2, List.flatMap_singleton, units_single hu.1]
    rfl

theorem units_of_fromUtf16 {us : List UInt16} {text : List Char} (h : fromUtf16 us = some text) :
    text.flatMap units = us := by
  unfold fromUtf16 at h
  split at h
  · next hlone =>
    obtain rfl := Option.some.inj h
    exact units_chars hlone
  · exact nomatch h

/-! ### Four hexadecimal digits -/

/-- `char::to_digit(16)`. -/
def toDigit (c : Char) : Option Nat :=
  if 48 ≤ c.toNat ∧ c.toNat ≤ 57 then some (c.toNat - 48)
  else if 97 ≤ c.toNat ∧ c.toNat ≤ 102 then some (c.toNat - 87)
  else if 65 ≤ c.toNat ∧ c.toNat ≤ 70 then some (c.toNat - 55)
  else none

def isLowerHex (c : Char) : Bool :=
  (48 ≤ c.toNat && c.toNat ≤ 57) || (97 ≤ c.toNat && c.toNat ≤ 102)

def hexDigit (n : Nat) : Char := Char.ofNat (if n < 10 then 48 + n else 87 + n)

/-- `{:04x}`. -/
def hex4 (n : Nat) : List Char :=
  [hexDigit (n / 4096 % 16), hexDigit (n / 256 % 16), hexDigit (n / 16 % 16), hexDigit (n % 16)]

theorem toDigit_hexDigit {n : Nat} (h : n < 16) : toDigit (hexDigit n) = some n := by
  interval_cases n <;> decide

theorem isLowerHex_hexDigit {n : Nat} (h : n < 16) : isLowerHex (hexDigit n) = true := by
  interval_cases n <;> decide

/-- The number four digits spell, as a loop over them computes it. -/
def hexValue (digits : List Char) : Nat :=
  digits.foldl (fun v c => v * 16 + (toDigit c).getD 0) 0

theorem hexValue_hex4 {n : Nat} (h : n < 65536) : hexValue (hex4 n) = n := by
  simp only [hexValue, hex4, List.foldl_cons, List.foldl_nil,
    toDigit_hexDigit (Nat.mod_lt _ (by omega : 16 > 0)), Option.getD_some]
  omega

theorem isLowerHex_hex4 (n : Nat) : ∀ c ∈ hex4 n, isLowerHex c = true := by
  intro c hc
  simp only [hex4, List.mem_cons, List.not_mem_nil, or_false] at hc
  rcases hc with rfl | rfl | rfl | rfl
  all_goals exact isLowerHex_hexDigit (Nat.mod_lt _ (by omega))

theorem exists_hexDigit {c : Char} (h : isLowerHex c = true) : ∃ n < 16, c = hexDigit n := by
  simp only [isLowerHex, Bool.or_eq_true, Bool.and_eq_true, decide_eq_true_eq] at h
  rcases h with h | h
  · refine ⟨c.toNat - 48, by omega, ?_⟩
    rw [hexDigit, if_pos (by omega), Nat.add_sub_cancel' h.1, Char.ofNat_toNat]
  · refine ⟨c.toNat - 87, by omega, ?_⟩
    rw [hexDigit, if_neg (by omega), Nat.add_sub_cancel' (by omega), Char.ofNat_toNat]

/-- Four small digits are those of the number they spell. -/
theorem hex4_hexValue {a b d e : Char} (h : [a, b, d, e].all isLowerHex = true) :
    hex4 (hexValue [a, b, d, e]) = [a, b, d, e] ∧ hexValue [a, b, d, e] < 65536 := by
  simp only [List.all_cons, List.all_nil, Bool.and_true, Bool.and_eq_true] at h
  obtain ⟨i, hi, rfl⟩ := exists_hexDigit h.1
  obtain ⟨j, hj, rfl⟩ := exists_hexDigit h.2.1
  obtain ⟨k, hk, rfl⟩ := exists_hexDigit h.2.2.1
  obtain ⟨l, hl, rfl⟩ := exists_hexDigit h.2.2.2
  have hvalue : hexValue [hexDigit i, hexDigit j, hexDigit k, hexDigit l] =
      ((i * 16 + j) * 16 + k) * 16 + l := by
    simp only [hexValue, List.foldl_cons, List.foldl_nil, toDigit_hexDigit hi, toDigit_hexDigit hj,
      toDigit_hexDigit hk, toDigit_hexDigit hl, Option.getD_some]
    omega
  rw [hvalue]
  refine ⟨?_, by omega⟩
  rw [hex4, show (((i * 16 + j) * 16 + k) * 16 + l) / 4096 % 16 = i by omega,
    show (((i * 16 + j) * 16 + k) * 16 + l) / 256 % 16 = j by omega,
    show (((i * 16 + j) * 16 + k) * 16 + l) / 16 % 16 = k by omega,
    show (((i * 16 + j) * 16 + k) * 16 + l) % 16 = l by omega]

end Utf16
