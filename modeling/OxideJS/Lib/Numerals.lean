import Mathlib.Data.List.Basic
import Mathlib.Tactic.MkIffOfInductiveProp

/-!
Digits and the numbers they are written for.

`Digits` is the grammar of a nonempty sequence of digits together with its
value, from left to right as a numeral is read; `readDigits` reads it. A
digit of any radix is a letter or a figure, so a sequence of them has no
sign, no point and no blank in it.
-/

namespace OxideJS.Lib.Numerals

/-- The value of a figure or a letter, if it is a digit of the radix. -/
def digitValue (radix : Nat) (c : Char) : Option Nat :=
  let value :=
    if 48 ≤ c.toNat ∧ c.toNat ≤ 57 then some (c.toNat - 48)
    else if 97 ≤ c.toNat ∧ c.toNat ≤ 122 then some (c.toNat - 97 + 10)
    else if 65 ≤ c.toNat ∧ c.toNat ≤ 90 then some (c.toNat - 65 + 10)
    else none
  value.filter (· < radix)

/-- A nonempty sequence of digits and its value. -/
inductive Digits (radix : Nat) : List Char → Nat → Prop where
  | single {c : Char} {d : Nat} : digitValue radix c = some d → Digits radix [c] d
  | snoc {cs : List Char} {v : Nat} {c : Char} {d : Nat} :
      Digits radix cs v → digitValue radix c = some d → Digits radix (cs ++ [c]) (v * radix + d)

/-- The value of digits that follow a numeral with the value `v`. -/
def readFrom (radix v : Nat) : List Char → Option Nat
  | [] => some v
  | c :: cs =>
    match digitValue radix c with
    | none => none
    | some d => readFrom radix (v * radix + d) cs

def readDigits (radix : Nat) (cs : List Char) : Option Nat :=
  if cs = [] then none else readFrom radix 0 cs

section

variable {radix v n : Nat} {cs ds : List Char} {c : Char}

theorem readFrom_append (radix v : Nat) (cs ds : List Char) :
    readFrom radix v (cs ++ ds) = (readFrom radix v cs).bind (readFrom radix · ds) := by
  induction cs generalizing v with
  | nil => rfl
  | cons c cs ih =>
    rw [List.cons_append, readFrom, readFrom]
    cases digitValue radix c with
    | none => rfl
    | some d => exact ih _

theorem Digits.ne_nil (h : Digits radix cs v) : cs ≠ [] := by
  cases h <;> simp

theorem Digits.readFrom (h : Digits radix cs v) : readFrom radix 0 cs = some v := by
  induction h with
  | single hd => simp [Numerals.readFrom, hd]
  | snoc _ hd ih => simp [readFrom_append, ih, Numerals.readFrom, hd]

theorem Digits.append_readFrom (h : Digits radix cs v)
    (hds : Numerals.readFrom radix v ds = some n) :
    Digits radix (cs ++ ds) n := by
  induction ds generalizing cs v with
  | nil =>
    obtain rfl := Option.some.inj hds
    rwa [List.append_nil]
  | cons c ds ih =>
    rw [Numerals.readFrom] at hds
    split at hds
    · exact nomatch hds
    · next d hd =>
      have := ih (h.snoc hd) hds
      rwa [List.append_assoc, List.singleton_append] at this

/-- The reader accepts exactly the numerals, with their value. -/
theorem digits_iff : Digits radix cs v ↔ readDigits radix cs = some v := by
  constructor
  · intro h
    rw [readDigits, if_neg h.ne_nil, h.readFrom]
  · intro h
    cases cs with
    | nil => exact nomatch h
    | cons c cs =>
      rw [readDigits, if_neg (List.cons_ne_nil _ _), readFrom] at h
      split at h
      · exact nomatch h
      · next d hd =>
        rw [Nat.zero_mul, Nat.zero_add] at h
        exact (Digits.single hd).append_readFrom h

/-- All characters of a numeral are digits. -/
theorem Digits.digit_of_mem (h : Digits radix cs v) (hc : c ∈ cs) :
    ∃ d, digitValue radix c = some d := by
  induction h with
  | single hd =>
    obtain rfl := List.mem_singleton.1 hc
    exact ⟨_, hd⟩
  | snoc _ hd ih =>
    rcases List.mem_append.1 hc with hc | hc
    · exact ih hc
    · obtain rfl := List.mem_singleton.1 hc
      exact ⟨_, hd⟩

/-- A digit is a figure or a letter. -/
theorem alphanumeric_of_digit {d : Nat} (h : digitValue radix c = some d) :
    (48 ≤ c.toNat ∧ c.toNat ≤ 57) ∨ (97 ≤ c.toNat ∧ c.toNat ≤ 122) ∨
      (65 ≤ c.toNat ∧ c.toNat ≤ 90) := by
  obtain ⟨h, -⟩ := Option.filter_eq_some_iff.1 h
  split at h
  · exact .inl ‹_›
  · split at h
    · exact .inr (.inl ‹_›)
    · split at h
      · exact .inr (.inr ‹_›)
      · exact nomatch h

end

/-! ### Signs -/

/-- Digits with a sign or without. -/
@[mk_iff]
inductive SignedNumeral (radix : Nat) : List Char → Int → Prop where
  | unsigned {cs : List Char} {n : Nat} : Digits radix cs n → SignedNumeral radix cs n
  | plus {cs : List Char} {n : Nat} : Digits radix cs n → SignedNumeral radix ('+' :: cs) n
  | minus {cs : List Char} {n : Nat} : Digits radix cs n → SignedNumeral radix ('-' :: cs) (-n)

def readSigned (digits : List Char) (radix : Nat) : Option Int :=
  match digits with
  | '+' :: ds => (readDigits radix ds).map fun n : Nat => (n : Int)
  | '-' :: ds => (readDigits radix ds).map fun n : Nat => -(n : Int)
  | ds => (readDigits radix ds).map fun n : Nat => (n : Int)

section

variable {radix n : Nat} {cs : List Char} {c : Char} {v : Int}

theorem not_digit_sign (hc : c = '+' ∨ c = '-') : digitValue radix c = none := by
  rcases hc with rfl | rfl <;> rfl

/-- A numeral does not begin with a sign. -/
theorem not_digits_sign (hc : c = '+' ∨ c = '-') : ¬Digits radix (c :: cs) n := by
  intro h
  obtain ⟨d, hd⟩ := h.digit_of_mem (List.mem_cons_self ..)
  rw [not_digit_sign hc] at hd
  exact nomatch hd

theorem SignedNumeral.ne_nil (h : SignedNumeral radix cs v) : cs ≠ [] := by
  cases h with
  | unsigned hd => exact hd.ne_nil
  | _ => exact List.cons_ne_nil _ _

theorem SignedNumeral.char_of_mem (h : SignedNumeral radix cs v) (hc : c ∈ cs) :
    (c = '+' ∨ c = '-') ∨ ∃ d, digitValue radix c = some d := by
  cases h with
  | unsigned hd => exact .inr (hd.digit_of_mem hc)
  | plus hd =>
    rcases List.mem_cons.1 hc with rfl | hc
    · exact .inl (.inl rfl)
    · exact .inr (hd.digit_of_mem hc)
  | minus hd =>
    rcases List.mem_cons.1 hc with rfl | hc
    · exact .inl (.inr rfl)
    · exact .inr (hd.digit_of_mem hc)

/-- A signed numeral has no sign, or begins with one. -/
theorem SignedNumeral.cases_sign (h : SignedNumeral radix cs v) :
    (∃ n : Nat, Digits radix cs n ∧ v = n) ∨ ∃ c ds, cs = c :: ds ∧ (c = '+' ∨ c = '-') := by
  cases h with
  | unsigned hd => exact .inl ⟨_, hd, rfl⟩
  | plus hd => exact .inr ⟨_, _, rfl, .inl rfl⟩
  | minus hd => exact .inr ⟨_, _, rfl, .inr rfl⟩

theorem signedNumeral_plus :
    SignedNumeral radix ('+' :: cs) v ↔ ∃ n : Nat, Digits radix cs n ∧ v = n := by
  constructor
  · intro h
    rcases (signedNumeral_iff ..).1 h with ⟨n, hd, -⟩ | ⟨ds, n, hd, heq, rfl⟩ | ⟨ds, n, -, heq, -⟩
    · exact absurd hd (not_digits_sign (.inl rfl))
    · obtain rfl := (List.cons.inj heq).2
      exact ⟨n, hd, rfl⟩
    · exact absurd (List.cons.inj heq).1 (by decide)
  · rintro ⟨n, hd, rfl⟩
    exact .plus hd

theorem signedNumeral_minus :
    SignedNumeral radix ('-' :: cs) v ↔ ∃ n : Nat, Digits radix cs n ∧ v = -n := by
  constructor
  · intro h
    rcases (signedNumeral_iff ..).1 h with ⟨n, hd, -⟩ | ⟨ds, n, -, heq, -⟩ | ⟨ds, n, hd, heq, rfl⟩
    · exact absurd hd (not_digits_sign (.inr rfl))
    · exact absurd (List.cons.inj heq).1 (by decide)
    · obtain rfl := (List.cons.inj heq).2
      exact ⟨n, hd, rfl⟩
  · rintro ⟨n, hd, rfl⟩
    exact .minus hd

/-- The reader accepts exactly the signed numerals. -/
theorem signedNumeral_iff_read : SignedNumeral radix cs v ↔ readSigned cs radix = some v := by
  symm
  unfold readSigned
  split
  · rw [signedNumeral_plus, Option.map_eq_some_iff]
    simp only [digits_iff, eq_comm]
  · rw [signedNumeral_minus, Option.map_eq_some_iff]
    simp only [digits_iff, eq_comm]
  · next hplus hminus =>
    rw [Option.map_eq_some_iff]
    constructor
    · rintro ⟨n, hn, rfl⟩
      exact .unsigned (digits_iff.2 hn)
    · intro h
      rcases h.cases_sign with ⟨n, hd, rfl⟩ | ⟨c, ds, rfl, rfl | rfl⟩
      · exact ⟨n, digits_iff.1 hd, rfl⟩
      · exact absurd rfl (hplus ds)
      · exact absurd rfl (hminus ds)

end

end OxideJS.Lib.Numerals
