import OxideJS.Lib.Numerals
import OxideJS.Lib.Trimming

/-!
Strings as big integers.

`string_to_bigint_full` trims the string, takes a sign off, looks for a
prefix of a radix and hands the rest to the parser of the number library.
Three things make what it accepts differ from the grammar. The white space
of the host language has U+0085, which is none in JavaScript, and lacks
U+FEFF, which is. The parser of the library takes a sign of its own, so a
sign may stand behind a sign or behind a prefix. And of the signs before a
prefix only the minus is refused.

A string is a list of characters here.
-/

namespace OxideJS.Value

open OxideJS.Lib.Numerals OxideJS.Lib.Trimming

/-! ### White space -/

/-- `WhiteSpace`: tab, vertical tab, form feed, U+FEFF and the space
separators. -/
def isJsWhiteSpace (c : Char) : Bool :=
  let n := c.toNat
  n == 0x09 || n == 0x0B || n == 0x0C || n == 0xFEFF || n == 0x20 || n == 0xA0 || n == 0x1680 ||
    (0x2000 ≤ n && n ≤ 0x200A) || n == 0x202F || n == 0x205F || n == 0x3000

/-- `LineTerminator`. -/
def isJsLineTerminator (c : Char) : Bool :=
  let n := c.toNat
  n == 0x0A || n == 0x0D || n == 0x2028 || n == 0x2029

def isJsBlank (c : Char) : Bool :=
  isJsWhiteSpace c || isJsLineTerminator c

/-- A blank of either language. -/
def isBlank (c : Char) : Bool :=
  isWhitespace c || isJsBlank c

def nextLine : Char := Char.ofNat 0x85

def byteOrderMark : Char := Char.ofNat 0xFEFF

/-- The two notions of a blank differ in two characters. -/
theorem isBlank_cases {c : Char} (h : isBlank c = true) :
    (isWhitespace c = false → c = byteOrderMark) ∧ (isJsBlank c = false → c = nextLine) := by
  have hext : ∀ {a b : Char}, a.toNat = b.toNat → a = b := fun h => Char.ext (UInt32.toNat_inj.1 h)
  constructor
  · intro hw
    refine hext (show c.toNat = 0xFEFF from ?_)
    simp only [isBlank, hw, Bool.false_or] at h
    simp only [isWhitespace, isJsBlank, isJsWhiteSpace, isJsLineTerminator, Bool.or_eq_true,
      Bool.or_eq_false_iff, Bool.and_eq_true, Bool.and_eq_false_iff, decide_eq_true_eq,
      decide_eq_false_iff_not, beq_iff_eq, beq_eq_false_iff_ne] at h hw
    omega
  · intro hj
    refine hext (show c.toNat = 0x85 from ?_)
    simp only [isBlank, hj, Bool.or_false] at h
    simp only [isWhitespace, isJsBlank, isJsWhiteSpace, isJsLineTerminator, Bool.or_eq_true,
      Bool.or_eq_false_iff, Bool.and_eq_true, Bool.and_eq_false_iff, decide_eq_true_eq,
      decide_eq_false_iff_not, beq_iff_eq, beq_eq_false_iff_ne] at h hj
    omega

/-! ### The grammar -/

/-- The radix a letter after `0` stands for. -/
def radixOf (c : Char) : Option Nat :=
  if c = 'x' ∨ c = 'X' then some 16
  else if c = 'o' ∨ c = 'O' then some 8
  else if c = 'b' ∨ c = 'B' then some 2
  else none

/-- `StringIntegerLiteral` without its white space, and its value. -/
@[mk_iff]
inductive StringIntegerLiteral : List Char → Int → Prop where
  | empty : StringIntegerLiteral [] 0
  | decimal {cs : List Char} {v : Int} : SignedNumeral 10 cs v → StringIntegerLiteral cs v
  | nonDecimal {x : Char} {radix : Nat} {cs : List Char} {n : Nat} : radixOf x = some radix →
      Digits radix cs n → StringIntegerLiteral ('0' :: x :: cs) n

/-- What is no literal and is accepted: a second sign, a sign behind a
prefix, or a plus before one. -/
inductive StrayLiteral : List Char → Int → Prop where
  | plusSigned {c : Char} {cs : List Char} {v : Int} : c = '+' ∨ c = '-' →
      SignedNumeral 10 (c :: cs) v → StrayLiteral ('+' :: c :: cs) v
  | minusSigned {c : Char} {cs : List Char} {v : Int} : c = '+' ∨ c = '-' →
      SignedNumeral 10 (c :: cs) v → StrayLiteral ('-' :: c :: cs) (-v)
  | plusRadix {x : Char} {radix : Nat} {cs : List Char} {v : Int} : radixOf x = some radix →
      SignedNumeral radix cs v → StrayLiteral ('+' :: '0' :: x :: cs) v
  | radixSigned {x c : Char} {radix : Nat} {cs : List Char} {v : Int} : radixOf x = some radix →
      c = '+' ∨ c = '-' → SignedNumeral radix (c :: cs) v → StrayLiteral ('0' :: x :: c :: cs) v

/-! ### The conversion -/

structure SyntaxError where
  message : String
deriving DecidableEq, Repr

/-- A prefix of a radix, in either case of its letter, and what follows. -/
def stripRadix : List Char → Option (Nat × List Char)
  | '0' :: x :: cs => (radixOf x).map (·, cs)
  | _ => none

/-- The rest of the conversion, when the sign and the radix are known. -/
def parseMagnitude (parseBytes : List Char → Nat → Option Int) (neg : Bool) (radix : Nat)
    (digits : List Char) : Except SyntaxError Int :=
  if digits = [] then .error ⟨"Cannot convert string to a BigInt: invalid integer literal"⟩
  else if '_' ∈ digits then .error ⟨"Cannot convert string to a BigInt: invalid integer literal"⟩
  else
    match parseBytes digits radix with
    | none => .error ⟨"Cannot convert string to BigInt: invalid integer literal"⟩
    | some m => .ok (if neg then -m else m)

/-- `string_to_bigint_full`, of a string that has been trimmed and is not
empty. -/
def convertTrimmed (parseBytes : List Char → Nat → Option Int) (trimmed : List Char) :
    Except SyntaxError Int :=
  let (neg, rest) := match trimmed with
    | '-' :: r => (true, r)
    | '+' :: r => (false, r)
    | _ => (false, trimmed)
  match stripRadix rest with
  | some (radix, digits) =>
    if neg then .error ⟨"Cannot convert string to BigInt: invalid integer literal"⟩
    else parseMagnitude parseBytes neg radix digits
  | none => parseMagnitude parseBytes neg 10 rest

def stringToBigintFull (parseBytes : List Char → Nat → Option Int) (s : List Char) :
    Except SyntaxError Int :=
  let trimmed := trim isWhitespace s
  if trimmed = [] then .ok 0 else convertTrimmed parseBytes trimmed

/-- The radices that the number library takes. -/
def IsRadix (radix : Nat) : Prop := 2 ≤ radix ∧ radix ≤ 36

/-- What the parser of the number library accepts of texts without an
underscore: digits of the radix with one sign or none. -/
def ParsesSigned (parseBytes : List Char → Nat → Option Int) : Prop :=
  ∀ (digits : List Char) (radix : Nat) (v : Int), IsRadix radix → '_' ∉ digits →
    (parseBytes digits radix = some v ↔ SignedNumeral radix digits v)

theorem parsesSigned_readSigned : ParsesSigned readSigned :=
  fun _ _ _ _ _ => signedNumeral_iff_read.symm

/-! ### Prefixes -/

section

variable {radix : Nat} {cs ds : List Char} {x : Char} {v : Int}

theorem radixOf_letters (hx : radixOf x = some radix) :
    x = 'x' ∨ x = 'X' ∨ x = 'o' ∨ x = 'O' ∨ x = 'b' ∨ x = 'B' := by
  unfold radixOf at hx
  split at hx
  · next h => rcases h with rfl | rfl <;> simp
  · split at hx
    · next h => rcases h with rfl | rfl <;> simp
    · split at hx
      · next h => rcases h with rfl | rfl <;> simp
      · exact nomatch hx

/-- The letter of a prefix is not a decimal digit. -/
theorem not_decimal_of_radixOf (hx : radixOf x = some radix) : digitValue 10 x = none := by
  rcases radixOf_letters hx with rfl | rfl | rfl | rfl | rfl | rfl <;> rfl

theorem not_sign_of_radixOf (hx : radixOf x = some radix) : ¬(x = '+' ∨ x = '-') := by
  rintro (rfl | rfl)
  · exact nomatch hx
  · exact nomatch hx

theorem isRadix_of_radixOf (hx : radixOf x = some radix) : IsRadix radix := by
  rcases radixOf_letters hx with rfl | rfl | rfl | rfl | rfl | rfl <;> cases hx <;>
    exact ⟨by decide, by decide⟩

theorem stripRadix_eq_some (h : stripRadix cs = some (radix, ds)) :
    ∃ x, cs = '0' :: x :: ds ∧ radixOf x = some radix := by
  unfold stripRadix at h
  split at h
  · next x rest =>
    obtain ⟨radix', hx, heq⟩ := Option.map_eq_some_iff.1 h
    obtain ⟨rfl, rfl⟩ := Prod.mk.inj heq
    exact ⟨x, rfl, hx⟩
  · exact nomatch h

/-- A decimal numeral has no prefix of a radix. -/
theorem stripRadix_decimal (h : SignedNumeral 10 cs v) : stripRadix cs = none := by
  unfold stripRadix
  split
  · next x ds =>
    rcases h.char_of_mem (c := x) (by simp) with hx | ⟨d, hd⟩
    · rcases hx with rfl | rfl <;> rfl
    · rcases hr : radixOf x with _ | radix
      · rfl
      · rw [not_decimal_of_radixOf hr] at hd
        exact nomatch hd
  · rfl

end

/-! ### What is accepted -/

section

variable {parseBytes : List Char → Nat → Option Int} (hp : ParsesSigned parseBytes)
include hp

theorem parseMagnitude_ok {neg : Bool} {radix : Nat} (hr : IsRadix radix) {digits : List Char}
    {v : Int} :
    parseMagnitude parseBytes neg radix digits = .ok v ↔
      ∃ m, SignedNumeral radix digits m ∧ v = if neg then -m else m := by
  unfold parseMagnitude
  split
  · next hnil => exact iff_of_false (fun h => nomatch h) fun ⟨_, hm, _⟩ => hm.ne_nil hnil
  · split
    · next hmem =>
      refine iff_of_false (fun h => nomatch h) fun ⟨_, hm, _⟩ => ?_
      rcases hm.char_of_mem hmem with h | ⟨d, hd⟩
      · revert h
        decide
      · rw [show digitValue radix '_' = none from rfl] at hd
        exact nomatch hd
    · next hmem =>
      rcases hparse : parseBytes digits radix with _ | m
      · refine iff_of_false (fun h => nomatch h) fun ⟨m, hm, _⟩ => ?_
        rw [(hp digits radix m hr hmem).2 hm] at hparse
        exact nomatch hparse
      · constructor
        · intro h
          exact ⟨m, (hp digits radix m hr hmem).1 hparse, (Except.ok.inj h).symm⟩
        · rintro ⟨m', hm', rfl⟩
          rw [(hp digits radix m' hr hmem).2 hm'] at hparse
          rw [Option.some.inj hparse]

/-- What follows the sign, if that is no minus: a decimal numeral, or one
behind a prefix. -/
theorem unsigned_ok {rest : List Char} {v : Int} :
    (match stripRadix rest with
      | some (radix, digits) => parseMagnitude parseBytes false radix digits
      | none => parseMagnitude parseBytes false 10 rest) = .ok v ↔
      SignedNumeral 10 rest v ∨ ∃ x radix cs, rest = '0' :: x :: cs ∧ radixOf x = some radix ∧
        SignedNumeral radix cs v := by
  have hmagnitude : ∀ {radix digits}, IsRadix radix →
      (parseMagnitude parseBytes false radix digits = .ok v ↔ SignedNumeral radix digits v) := by
    intro radix digits hr
    rw [parseMagnitude_ok hp hr]
    simp
  rcases hstrip : stripRadix rest with _ | ⟨radix, digits⟩
  · refine (hmagnitude ⟨by decide, by decide⟩).trans ⟨.inl, ?_⟩
    rintro (h | ⟨x, radix, cs, rfl, hx, -⟩)
    · exact h
    · simp [stripRadix, hx] at hstrip
  · obtain ⟨x, rfl, hx⟩ := stripRadix_eq_some hstrip
    refine (hmagnitude (isRadix_of_radixOf hx)).trans ⟨?_, ?_⟩
    · exact fun h => .inr ⟨x, radix, digits, rfl, hx, h⟩
    · rintro (h | ⟨x', radix', cs, heq, hx', h⟩)
      · rw [stripRadix_decimal h] at hstrip
        exact nomatch hstrip
      · simp only [List.cons.injEq, true_and] at heq
        obtain ⟨rfl, rfl⟩ := heq
        obtain rfl : radix = radix' := Option.some.inj (hx.symm.trans hx')
        exact h

theorem convertTrimmed_minus {rest : List Char} {v : Int} :
    convertTrimmed parseBytes ('-' :: rest) = .ok v ↔ ∃ m, SignedNumeral 10 rest m ∧ v = -m := by
  rcases hstrip : stripRadix rest with _ | ⟨radix, digits⟩
  · have heq :
        convertTrimmed parseBytes ('-' :: rest) = parseMagnitude parseBytes true 10 rest := by
      simp only [convertTrimmed, hstrip]
    rw [heq, parseMagnitude_ok hp ⟨by decide, by decide⟩]
    simp
  · have heq : convertTrimmed parseBytes ('-' :: rest) =
        .error ⟨"Cannot convert string to BigInt: invalid integer literal"⟩ := by
      simp only [convertTrimmed, hstrip, if_true]
    rw [heq]
    refine iff_of_false (fun h => nomatch h) fun ⟨m, hm, _⟩ => ?_
    rw [stripRadix_decimal hm] at hstrip
    exact nomatch hstrip

theorem convertTrimmed_plus {rest : List Char} {v : Int} :
    convertTrimmed parseBytes ('+' :: rest) = .ok v ↔
      SignedNumeral 10 rest v ∨ ∃ x radix cs, rest = '0' :: x :: cs ∧ radixOf x = some radix ∧
        SignedNumeral radix cs v := by
  rw [← unsigned_ok hp]
  simp [convertTrimmed]

theorem convertTrimmed_unsigned {c : Char} {cs : List Char} {v : Int} (hc : ¬(c = '+' ∨ c = '-')) :
    convertTrimmed parseBytes (c :: cs) = .ok v ↔
      SignedNumeral 10 (c :: cs) v ∨ ∃ x radix ds, c :: cs = '0' :: x :: ds ∧
        radixOf x = some radix ∧ SignedNumeral radix ds v := by
  rw [← unsigned_ok hp]
  have hstart : (match c :: cs with
      | '-' :: r => (true, r)
      | '+' :: r => (false, r)
      | _ => (false, c :: cs)) = (false, c :: cs) := by
    split
    · next h => exact absurd (.inr (List.cons.inj h).1) hc
    · next h => exact absurd (.inl (List.cons.inj h).1) hc
    · rfl
  simp only [convertTrimmed, hstart, Bool.false_eq_true, if_false]

theorem convertTrimmed_of_literal {t : List Char} {v : Int} (ht : t ≠ [])
    (h : StringIntegerLiteral t v) : convertTrimmed parseBytes t = .ok v := by
  cases h with
  | empty => exact absurd rfl ht
  | decimal h =>
    cases h with
    | unsigned hd =>
      obtain ⟨c, cs, rfl⟩ := List.exists_cons_of_ne_nil ht
      refine (convertTrimmed_unsigned hp fun hc => ?_).2 (.inl (.unsigned hd))
      exact not_digits_sign hc hd
    | plus hd => exact (convertTrimmed_plus hp).2 (.inl (.unsigned hd))
    | minus hd => exact (convertTrimmed_minus hp).2 ⟨_, .unsigned hd, rfl⟩
  | nonDecimal hx hd =>
    exact (convertTrimmed_unsigned hp (by decide)).2 (.inr ⟨_, _, _, rfl, hx, .unsigned hd⟩)

theorem convertTrimmed_of_stray {t : List Char} {v : Int} (h : StrayLiteral t v) :
    convertTrimmed parseBytes t = .ok v := by
  cases h with
  | plusSigned _ h => exact (convertTrimmed_plus hp).2 (.inl h)
  | minusSigned _ h => exact (convertTrimmed_minus hp).2 ⟨_, h, rfl⟩
  | plusRadix hx h => exact (convertTrimmed_plus hp).2 (.inr ⟨_, _, _, rfl, hx, h⟩)
  | radixSigned hx _ h =>
    exact (convertTrimmed_unsigned hp (by decide)).2 (.inr ⟨_, _, _, rfl, hx, h⟩)

theorem literal_or_stray_of_convertTrimmed {t : List Char} {v : Int} (ht : t ≠ [])
    (h : convertTrimmed parseBytes t = .ok v) : StringIntegerLiteral t v ∨ StrayLiteral t v := by
  obtain ⟨c, cs, rfl⟩ := List.exists_cons_of_ne_nil ht
  by_cases hc : c = '+' ∨ c = '-'
  · rcases hc with rfl | rfl
    · rcases (convertTrimmed_plus hp).1 h with h | ⟨x, radix, ds, rfl, hx, h⟩
      · rcases h.cases_sign with ⟨n, hd, rfl⟩ | ⟨c, ds, rfl, hc⟩
        · exact .inl (.decimal (.plus hd))
        · exact .inr (.plusSigned hc h)
      · exact .inr (.plusRadix hx h)
    · obtain ⟨m, hm, rfl⟩ := (convertTrimmed_minus hp).1 h
      rcases hm.cases_sign with ⟨n, hd, rfl⟩ | ⟨c, ds, rfl, hc⟩
      · exact .inl (.decimal (.minus hd))
      · exact .inr (.minusSigned hc hm)
  · rcases (convertTrimmed_unsigned hp hc).1 h with h | ⟨x, radix, ds, heq, hx, h⟩
    · exact .inl (.decimal h)
    · rw [heq]
      rcases h.cases_sign with ⟨n, hd, rfl⟩ | ⟨c, ds, rfl, hc⟩
      · exact .inl (.nonDecimal hx hd)
      · exact .inr (.radixSigned hx hc h)

/-- The code accepts the literals and the strays, in its own white space. -/
theorem stringToBigintFull_ok {s : List Char} {v : Int} :
    stringToBigintFull parseBytes s = .ok v ↔
      StringIntegerLiteral (trim isWhitespace s) v ∨ StrayLiteral (trim isWhitespace s) v := by
  unfold stringToBigintFull
  generalize trim isWhitespace s = t
  by_cases ht : t = []
  · subst ht
    rw [if_pos rfl]
    constructor
    · intro h
      obtain rfl := Except.ok.inj h
      exact .inl .empty
    · rintro (h | h)
      · cases h with
        | empty => rfl
        | decimal h => exact absurd rfl h.ne_nil
      · exact nomatch h
  · rw [if_neg ht]
    constructor
    · exact literal_or_stray_of_convertTrimmed hp ht
    · rintro (h | h)
      · exact convertTrimmed_of_literal hp ht h
      · exact convertTrimmed_of_stray hp h

end

/-! ### Literals and strays -/

section

variable {t : List Char} {v v' : Int} {c : Char}

theorem not_decimal_radix {x : Char} {radix : Nat} {cs : List Char} (hx : radixOf x = some radix) :
    ¬SignedNumeral 10 ('0' :: x :: cs) v := by
  intro h
  rcases h.char_of_mem (c := x) (by simp) with hs | ⟨d, hd⟩
  · exact not_sign_of_radixOf hx hs
  · rw [not_decimal_of_radixOf hx] at hd
    exact nomatch hd

theorem not_literal_of_stray (h : StrayLiteral t v) : ¬StringIntegerLiteral t v' := by
  intro hl
  cases h with
  | plusSigned hc h =>
    rcases (stringIntegerLiteral_iff ..).1 hl with ⟨hnil, -⟩ | hd | ⟨x, radix, cs, n, -, -, heq, -⟩
    · exact nomatch hnil
    · obtain ⟨n, hd, -⟩ := signedNumeral_plus.1 hd
      exact not_digits_sign hc hd
    · exact absurd (List.cons.inj heq).1 (by decide)
  | minusSigned hc h =>
    rcases (stringIntegerLiteral_iff ..).1 hl with ⟨hnil, -⟩ | hd | ⟨x, radix, cs, n, -, -, heq, -⟩
    · exact nomatch hnil
    · obtain ⟨n, hd, -⟩ := signedNumeral_minus.1 hd
      exact not_digits_sign hc hd
    · exact absurd (List.cons.inj heq).1 (by decide)
  | plusRadix hx h =>
    rcases (stringIntegerLiteral_iff ..).1 hl with ⟨hnil, -⟩ | hd | ⟨x, radix, cs, n, -, -, heq, -⟩
    · exact nomatch hnil
    · obtain ⟨n, hd, -⟩ := signedNumeral_plus.1 hd
      exact not_decimal_radix hx (.unsigned hd)
    · exact absurd (List.cons.inj heq).1 (by decide)
  | radixSigned hx hc h =>
    rcases (stringIntegerLiteral_iff ..).1 hl with ⟨hnil, -⟩ | hd | ⟨x, radix, cs, n, -, hd, heq, -⟩
    · exact nomatch hnil
    · exact not_decimal_radix hx hd
    · obtain ⟨-, heq⟩ := List.cons.inj heq
      obtain ⟨-, rfl⟩ := List.cons.inj heq
      exact not_digits_sign hc hd

/-- A blank is no sign, no digit and no letter of a prefix. -/
theorem blank_ne (hc : isBlank c = true) : ¬(c = '+' ∨ c = '-') ∧ c ≠ '0' ∧ radixOf c = none ∧
    ∀ radix, digitValue radix c = none := by
  have hplain : ∀ d : Char, isBlank d = false → c ≠ d := by
    rintro d hd rfl
    rw [hc] at hd
    exact nomatch hd
  refine ⟨?_, hplain '0' (by decide), ?_, fun radix => ?_⟩
  · rintro (rfl | rfl)
    · exact hplain '+' (by decide) rfl
    · exact hplain '-' (by decide) rfl
  · simp [radixOf, hplain 'x' (by decide), hplain 'X' (by decide), hplain 'o' (by decide),
      hplain 'O' (by decide), hplain 'b' (by decide), hplain 'B' (by decide)]
  · rcases hd : digitValue radix c with _ | d
    · rfl
    · have halnum := alphanumeric_of_digit hd
      simp only [isBlank, isWhitespace, isJsBlank, isJsWhiteSpace, isJsLineTerminator,
        Bool.or_eq_true, Bool.and_eq_true, decide_eq_true_eq, beq_iff_eq] at hc
      omega

theorem signed_not_mem_blank {radix : Nat} (h : SignedNumeral radix t v)
    (hc : isBlank c = true) : c ∉ t := by
  intro hmem
  obtain ⟨hsign, -, -, hdigit⟩ := blank_ne hc
  rcases h.char_of_mem hmem with hs | ⟨d, hd⟩
  · exact hsign hs
  · rw [hdigit radix] at hd
    exact nomatch hd

theorem not_mem_blank_radix {x : Char} {radix : Nat} {cs : List Char}
    (hx : radixOf x = some radix) (hcs : SignedNumeral radix cs v) (hc : isBlank c = true) :
    c ∉ '0' :: x :: cs := by
  obtain ⟨-, hzero, hradix, -⟩ := blank_ne hc
  simp only [List.mem_cons, not_or]
  refine ⟨hzero, ?_, signed_not_mem_blank hcs hc⟩
  rintro rfl
  rw [hradix] at hx
  exact nomatch hx

/-- There is no blank in a literal, and none in a stray. -/
theorem not_mem_blank (h : StringIntegerLiteral t v ∨ StrayLiteral t v) (hc : isBlank c = true) :
    c ∉ t := by
  have hsign := (blank_ne hc).1
  rcases h with h | h
  · cases h with
    | empty => exact List.not_mem_nil
    | decimal h => exact signed_not_mem_blank h hc
    | nonDecimal hx hd => exact not_mem_blank_radix hx (.unsigned hd) hc
  · cases h with
    | plusSigned _ h =>
      exact List.not_mem_cons_of_ne_of_not_mem (fun heq => hsign (.inl heq))
        (signed_not_mem_blank h hc)
    | minusSigned _ h =>
      exact List.not_mem_cons_of_ne_of_not_mem (fun heq => hsign (.inr heq))
        (signed_not_mem_blank h hc)
    | plusRadix hx h =>
      exact List.not_mem_cons_of_ne_of_not_mem (fun heq => hsign (.inl heq))
        (not_mem_blank_radix hx h hc)
    | radixSigned hx _ h => exact not_mem_blank_radix hx h hc

end

/-! ### The margins -/

section

variable {s : List Char}

/-- A U+FEFF at either end stays where the code trims. -/
theorem byteOrderMark_mem_trim (h : byteOrderMark ∈ margins isBlank s) :
    byteOrderMark ∈ trim isWhitespace s :=
  mem_trim_of_not (of_mem_margins h).1 (by decide)

theorem trim_isWhitespace (h : byteOrderMark ∉ margins isBlank s) :
    trim isWhitespace s = trim isBlank s := by
  refine trim_congr (fun c hc => by simp [isBlank, hc]) fun c hc => ?_
  rcases hw : isWhitespace c with _ | _
  · exact absurd ((isBlank_cases (of_mem_margins hc).2).1 hw ▸ hc) h
  · rfl

/-- A U+0085 at either end stays where JavaScript trims. -/
theorem nextLine_mem_trim (h : nextLine ∈ margins isBlank s) : nextLine ∈ trim isJsBlank s :=
  mem_trim_of_not (of_mem_margins h).1 (by decide)

theorem trim_isJsBlank (h : nextLine ∉ margins isBlank s) :
    trim isJsBlank s = trim isBlank s := by
  refine trim_congr (fun c hc => by simp [isBlank, hc]) fun c hc => ?_
  rcases hj : isJsBlank c with _ | _
  · exact absurd ((isBlank_cases (of_mem_margins hc).2).2 hj ▸ hc) h
  · rfl

end

/-- The code reads the number the grammar gives the string, and none where
the string is no literal. -/
def ReadsBigint (parseBytes : List Char → Nat → Option Int) (s : List Char) : Prop :=
  ∀ v, stringToBigintFull parseBytes s = .ok v ↔ StringIntegerLiteral (trim isJsBlank s) v

/-- What stands between the blanks of either language is not misread: it is
no literal if U+FEFF is among the blanks, which the code does not take for
one; neither a literal nor a stray if U+0085 is, which is none in
JavaScript; and no stray if there is neither of them. -/
def Legible (s : List Char) : Prop :=
  (byteOrderMark ∈ margins isBlank s → nextLine ∉ margins isBlank s →
      ∀ v, ¬StringIntegerLiteral (trim isBlank s) v) ∧
    (nextLine ∈ margins isBlank s → byteOrderMark ∉ margins isBlank s →
      ∀ v, ¬StringIntegerLiteral (trim isBlank s) v ∧ ¬StrayLiteral (trim isBlank s) v) ∧
    (byteOrderMark ∉ margins isBlank s → nextLine ∉ margins isBlank s →
      ∀ v, ¬StrayLiteral (trim isBlank s) v)

/-- For every string, the conversion accepts the literals of the grammar
with their value, and nothing else, exactly if the string is legible. -/
theorem readsBigint_iff_legible (parseBytes : List Char → Nat → Option Int)
    (hp : ParsesSigned parseBytes) (s : List Char) : ReadsBigint parseBytes s ↔ Legible s := by
  unfold ReadsBigint Legible
  simp only [stringToBigintFull_ok hp]
  by_cases hbom : byteOrderMark ∈ margins isBlank s
  · have hcode : ∀ v, ¬(StringIntegerLiteral (trim isWhitespace s) v ∨
        StrayLiteral (trim isWhitespace s) v) := fun v h =>
      not_mem_blank h (of_mem_margins hbom).2 (byteOrderMark_mem_trim hbom)
    by_cases hnel : nextLine ∈ margins isBlank s
    · have hspec : ∀ v, ¬StringIntegerLiteral (trim isJsBlank s) v := fun v h =>
        not_mem_blank (.inl h) (of_mem_margins hnel).2 (nextLine_mem_trim hnel)
      simp [hbom, hnel, hcode, hspec]
    · rw [trim_isJsBlank hnel]
      simp [hbom, hnel, hcode]
  · rw [trim_isWhitespace hbom]
    by_cases hnel : nextLine ∈ margins isBlank s
    · have hspec : ∀ v, ¬StringIntegerLiteral (trim isJsBlank s) v := fun v h =>
        not_mem_blank (.inl h) (of_mem_margins hnel).2 (nextLine_mem_trim hnel)
      simp [hbom, hnel, hspec]
    · rw [trim_isJsBlank hnel]
      simp only [hbom, hnel, false_imp_iff, not_false_iff, true_imp_iff, true_and]
      refine forall_congr' fun v => ?_
      constructor
      · intro h hstray
        exact not_literal_of_stray hstray (h.1 (.inr hstray))
      · intro h
        exact ⟨fun hv => hv.resolve_right h, .inl⟩

/-- `" -12 "` is read as it should be. -/
theorem readsBigint_signed : ReadsBigint readSigned [' ', '-', '1', '2', ' '] := by
  have hliteral : StringIntegerLiteral ['-', '1', '2'] (-12) :=
    .decimal (.minus (n := 12) (digits_iff.2 rfl))
  refine (readsBigint_iff_legible readSigned parsesSigned_readSigned _).2 ⟨?_, ?_, ?_⟩
  · intro h
    exact absurd h (by decide)
  · intro h
    exact absurd h (by decide)
  · intro _ _ v h
    exact not_literal_of_stray h hliteral

/-- `"--5"`, `"+0x1"` and `"0x-1"` are accepted, and so is `"5"` with
U+0085 before it; with U+FEFF before it is refused. -/
theorem stringToBigint_misreads :
    stringToBigintFull readSigned ['-', '-', '5'] = .ok 5 ∧
      stringToBigintFull readSigned ['+', '0', 'x', '1'] = .ok 1 ∧
      stringToBigintFull readSigned ['0', 'x', '-', '1'] = .ok (-1) ∧
      stringToBigintFull readSigned [nextLine, '5'] = .ok 5 ∧
      stringToBigintFull readSigned [byteOrderMark, '5'] =
        .error ⟨"Cannot convert string to BigInt: invalid integer literal"⟩ ∧
      ¬ReadsBigint readSigned ['-', '-', '5'] := by
  refine ⟨rfl, rfl, rfl, rfl, rfl, fun h => ?_⟩
  have hliteral := (h 5).1 rfl
  exact not_literal_of_stray (.minusSigned (v := -5) (.inr rfl)
    (.minus (n := 5) (digits_iff.2 rfl))) hliteral

end OxideJS.Value
