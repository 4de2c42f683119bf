import OxideJS.Lib.Utf16
import OxideJS.Lib.Utf8
import Mathlib.Data.List.Forall2

/-!
Escaping and unescaping of URIs.

Texts are sequences of 16-bit units. A character that may not stand for
itself is written as the bytes of its UTF-8 form, each as a percent sign and
two hexadecimal digits.
-/

namespace OxideJS.Codec.Uri

open Utf16

def unitsOf (text : String) : List UInt16 :=
  text.toList.map fun c => UInt16.ofNat c.toNat

def uriReserved : List UInt16 := unitsOf ";/?:@&=+$,#"

def uriUnescaped : List UInt16 :=
  unitsOf "ABCDEFGHIJKLMNOPQRSTUVWXYZabcdefghijklmnopqrstuvwxyz0123456789-_.!~*'()"

def uriSafe : List UInt16 :=
  unitsOf "ABCDEFGHIJKLMNOPQRSTUVWXYZabcdefghijklmnopqrstuvwxyz0123456789-_.!~*'();/?:@&=+$,#"

/-! ### Escaping -/

def percent : UInt16 := 0x25

/-- An upper-case hexadecimal digit. -/
def hexUnit (n : Nat) : UInt16 :=
  UInt16.ofNat (if n < 10 then 0x30 + n else 0x41 + (n - 10))

/-- `%{:02X}`. -/
def percentUnits (byte : Nat) : List UInt16 :=
  [percent, hexUnit (byte / 16), hexUnit (byte % 16)]

def percentCode (code : Nat) : List UInt16 :=
  (Utf8.encode code).flatMap percentUnits

def encodeUriUnits (safe : List UInt16) : List UInt16 → Option (List UInt16)
  | [] => some []
  | u :: us =>
    if isHigh u then
      match us with
      | [] => none
      | v :: vs =>
        if isLow v then (encodeUriUnits safe vs).map (percentCode (pairCode u v) ++ ·) else none
    else if isSurrogate u then none
    else if u.toNat < 0x80 then
      (encodeUriUnits safe us).map ((if u ∈ safe then [u] else percentUnits u.toNat) ++ ·)
    else (encodeUriUnits safe us).map (percentCode u.toNat ++ ·)

/-! ### Unescaping -/

/-- `parse_hex_u8`, digit by digit. -/
def hexDigitValue (u : UInt16) : Option Nat :=
  if 0x30 ≤ u.toNat ∧ u.toNat ≤ 0x39 then some (u.toNat - 0x30)
  else if 0x61 ≤ u.toNat ∧ u.toNat ≤ 0x66 then some (u.toNat - 0x61 + 10)
  else if 0x41 ≤ u.toNat ∧ u.toNat ≤ 0x46 then some (u.toNat - 0x41 + 10)
  else none

/-- The byte of a percent sequence at the beginning, and what is behind it. -/
def readPercentUnit : List UInt16 → Option (Nat × List UInt16)
  | p :: hi :: lo :: rest =>
    if p = percent then do
      let hi ← hexDigitValue hi
      let lo ← hexDigitValue lo
      some (hi * 16 + lo, rest)
    else none
  | _ => none

/-- `count` continuation bytes. -/
def readContinuation : Nat → List UInt16 → Option (List Nat × List UInt16)
  | 0, us => some ([], us)
  | count + 1, us => do
    let (byte, us) ← readPercentUnit us
    if byte &&& 0xC0 = 0x80 then
      let (bytes, us) ← readContinuation count us
      some (byte :: bytes, us)
    else none

/-- The character of the percent sequences at the beginning: its code, the number of units they
take, and what is behind them. -/
def readCharacter (us : List UInt16) : Option (Nat × Nat × List UInt16) := do
  let (first, rest) ← readPercentUnit us
  let length ← Utf8.sequenceLen first
  let (tail, rest) ← readContinuation (length - 1) rest
  let code ← Utf8.decode (first :: tail)
  some (code, 3 * length, rest)

def isReserved (code : Nat) : Bool :=
  decide (code < 0x80) && decide (UInt16.ofNat code ∈ uriReserved)

/-- `fuel` is the number of units left or more. -/
def decodeLoop (preserveReserved : Bool) : Nat → List UInt16 → Option (List UInt16)
  | _, [] => some []
  | 0, _ :: _ => none
  | fuel + 1, u :: us =>
    if u ≠ percent then (decodeLoop preserveReserved fuel us).map (u :: ·)
    else do
      let (code, length, rest) ← readCharacter (u :: us)
      let piece := if preserveReserved && isReserved code then (u :: us).take length
        else units (Char.ofNat code)
      (decodeLoop preserveReserved fuel rest).map (piece ++ ·)

def decodeUriUnits (us : List UInt16) (preserveReserved : Bool) : Option (List UInt16) :=
  decodeLoop preserveReserved us.length us

/-! ### Well-formed texts -/

/-- Three units that spell a byte, in either case of the digits. -/
def SpellsByte (us : List UInt16) (byte : Nat) : Prop :=
  readPercentUnit us = some (byte, [])

/-- Texts whose percent signs begin the spelling of whole characters. -/
inductive WellSpelled : List UInt16 → Prop
  | nil : WellSpelled []
  | unit {u : UInt16} {us : List UInt16} (hu : u ≠ percent) (h : WellSpelled us) :
      WellSpelled (u :: us)
  | char {code : Nat} {groups : List (List UInt16)} {us : List UInt16} (hcode : code.isValidChar)
      (hgroups : List.Forall₂ SpellsByte groups (Utf8.encode code)) (h : WellSpelled us) :
      WellSpelled (groups.flatten ++ us)

/-! ### Digits -/

theorem hexDigitValue_hexUnit {n : Nat} (hn : n < 16) : hexDigitValue (hexUnit n) = some n := by
  have hall : ∀ n < 16, hexDigitValue (hexUnit n) = some n := by decide
  exact hall n hn

theorem hexDigitValue_lt {u : UInt16} {n : Nat} (h : hexDigitValue u = some n) : n < 16 := by
  unfold hexDigitValue at h
  repeat' split at h
  all_goals simp only [Option.some.injEq, reduceCtorEq] at h
  all_goals omega

/-- What a percent sequence is read from. -/
theorem readPercentUnit_eq_some {us rest : List UInt16} {byte : Nat} :
    readPercentUnit us = some (byte, rest) ↔
      ∃ hi lo x y, us = percent :: hi :: lo :: rest ∧ hexDigitValue hi = some x ∧
        hexDigitValue lo = some y ∧ byte = x * 16 + y := by
  constructor
  · intro h
    match us, h with
    | p :: hi :: lo :: tail, h =>
      rw [readPercentUnit] at h
      split at h
      next hp =>
        simp only [Option.bind_eq_bind, Option.bind_eq_some_iff, Option.some.injEq,
          Prod.mk.injEq] at h
        obtain ⟨x, hx, y, hy, hbyte, rfl⟩ := h
        exact ⟨hi, lo, x, y, by rw [hp], hx, hy, hbyte.symm⟩
      · cases h
  · rintro ⟨hi, lo, x, y, rfl, hx, hy, rfl⟩
    simp [readPercentUnit, hx, hy]

theorem SpellsByte.lt {group : List UInt16} {byte : Nat} (h : SpellsByte group byte) :
    byte < 256 := by
  obtain ⟨hi, lo, x, y, -, hx, hy, rfl⟩ := readPercentUnit_eq_some.mp h
  have := hexDigitValue_lt hx
  have := hexDigitValue_lt hy
  omega

theorem SpellsByte.eq_cons {group : List UInt16} {byte : Nat} (h : SpellsByte group byte) :
    ∃ hi lo, group = [percent, hi, lo] := by
  obtain ⟨hi, lo, x, y, rfl, -⟩ := readPercentUnit_eq_some.mp h
  exact ⟨hi, lo, rfl⟩

theorem readPercentUnit_append {us rest : List UInt16} {byte : Nat} :
    readPercentUnit us = some (byte, rest) ↔
      ∃ group, us = group ++ rest ∧ SpellsByte group byte := by
  constructor
  · intro h
    obtain ⟨hi, lo, x, y, rfl, hx, hy, rfl⟩ := readPercentUnit_eq_some.mp h
    exact ⟨[percent, hi, lo], rfl, readPercentUnit_eq_some.mpr ⟨hi, lo, x, y, rfl, hx, hy, rfl⟩⟩
  · rintro ⟨group, rfl, hgroup⟩
    obtain ⟨hi, lo, x, y, rfl, hx, hy, rfl⟩ := readPercentUnit_eq_some.mp hgroup
    exact readPercentUnit_eq_some.mpr ⟨hi, lo, x, y, rfl, hx, hy, rfl⟩

theorem spellsByte_percentUnits {byte : Nat} (h : byte < 256) :
    SpellsByte (percentUnits byte) byte :=
  readPercentUnit_eq_some.mpr ⟨_, _, byte / 16, byte % 16, rfl,
    hexDigitValue_hexUnit (by omega), hexDigitValue_hexUnit (by omega), by omega⟩

/-! ### Characters -/

theorem and_eq_continuation {b : Nat} (hb : b < 256) :
    b &&& 0xC0 = 0x80 ↔ 0x80 ≤ b ∧ b < 0xC0 := by
  have hall : ∀ b < 256, b &&& 0xC0 = 0x80 ↔ 0x80 ≤ b ∧ b < 0xC0 := by decide +kernel
  exact hall b hb

theorem readContinuation_eq_some {count : Nat} {us rest : List UInt16} {bytes : List Nat} :
    readContinuation count us = some (bytes, rest) ↔
      ∃ groups : List (List UInt16), us = groups.flatten ++ rest ∧
        List.Forall₂ SpellsByte groups bytes ∧ bytes.length = count ∧
        ∀ b ∈ bytes, 0x80 ≤ b ∧ b < 0xC0 := by
  induction count generalizing us bytes with
  | zero =>
    simp only [readContinuation, Option.some.injEq, Prod.mk.injEq]
    constructor
    · rintro ⟨rfl, rfl⟩
      exact ⟨[], rfl, .nil, rfl, nofun⟩
    · rintro ⟨groups, rfl, hgroups, hlength, -⟩
      obtain rfl := List.eq_nil_of_length_eq_zero hlength
      cases hgroups
      exact ⟨rfl, rfl⟩
  | succ count ih =>
    simp only [readContinuation, Option.bind_eq_bind, Option.bind_eq_some_iff, Prod.exists]
    constructor
    · rintro ⟨byte, us', hread, hrest⟩
      obtain ⟨group, rfl, hgroup⟩ := readPercentUnit_append.mp hread
      split at hrest
      next hcont =>
        simp only [Option.bind_eq_some_iff, Prod.exists, Option.some.injEq, Prod.mk.injEq] at hrest
        obtain ⟨bytes', us'', htail, rfl, rfl⟩ := hrest
        obtain ⟨groups, rfl, hgroups, rfl, hall⟩ := ih.mp htail
        refine ⟨group :: groups, by simp, .cons hgroup hgroups, rfl, ?_⟩
        rw [and_eq_continuation hgroup.lt] at hcont
        exact List.forall_mem_cons.mpr ⟨hcont, hall⟩
      · cases hrest
    · rintro ⟨groups, rfl, hgroups, hlength, hcont⟩
      cases hgroups with
      | nil => cases hlength
      | @cons group byte groups bytes hgroup hgroups =>
        have hall := List.forall_mem_cons.mp hcont
        refine ⟨byte, groups.flatten ++ rest, ?_, ?_⟩
        · exact readPercentUnit_append.mpr ⟨group, by simp, hgroup⟩
        · rw [if_pos ((and_eq_continuation hgroup.lt).mpr hall.1),
            ih.mpr ⟨groups, rfl, hgroups, by simpa using hlength, hall.2⟩]
          rfl

/-- A character is read where its UTF-8 form is spelled. -/
theorem readCharacter_eq_some {us rest : List UInt16} {code length : Nat} :
    readCharacter us = some (code, length, rest) ↔
      code.isValidChar ∧ length = 3 * (Utf8.encode code).length ∧
      ∃ groups : List (List UInt16), us = groups.flatten ++ rest ∧
        List.Forall₂ SpellsByte groups (Utf8.encode code) := by
  simp only [readCharacter, Option.bind_eq_bind, Option.bind_eq_some_iff, Prod.exists,
    Option.some.injEq, Prod.mk.injEq]
  constructor
  · rintro ⟨first, us', hfirst, len, hlen, tail, us'', htail, code', hcode, rfl, rfl, rfl⟩
    obtain ⟨hvalid, hencode⟩ := Utf8.encode_of_decode hcode
    obtain ⟨group, rfl, hgroup⟩ := readPercentUnit_append.mp hfirst
    obtain ⟨groups, rfl, hgroups, hcount, -⟩ := readContinuation_eq_some.mp htail
    refine ⟨hvalid, ?_, group :: groups, by simp, hencode ▸ .cons hgroup hgroups⟩
    have hpos : 0 < len := by
      unfold Utf8.sequenceLen at hlen
      repeat' split at hlen
      all_goals cases hlen
      all_goals decide
    rw [hencode, List.length_cons, hcount]
    omega
  · rintro ⟨hvalid, rfl, groups, rfl, hgroups⟩
    obtain ⟨first, tail, hencode, hlen, -, hcont⟩ := Utf8.encode_shape hvalid
    have hdecode := Utf8.decode_encode hvalid
    rw [hencode] at hgroups hdecode ⊢
    cases hgroups with
    | @cons group byte groups bytes hgroup hgroups =>
      refine ⟨first, groups.flatten ++ rest, ?_, _, hlen, tail, rest, ?_, code, hdecode, rfl, rfl,
        rfl⟩
      · exact readPercentUnit_append.mpr ⟨group, by simp, hgroup⟩
      · exact readContinuation_eq_some.mpr ⟨groups, rfl, hgroups, rfl, hcont⟩

/-- The spelling of a character begins with a percent sign and is not empty. -/
theorem flatten_groups {code : Nat} (hvalid : code.isValidChar) {groups : List (List UInt16)}
    (hgroups : List.Forall₂ SpellsByte groups (Utf8.encode code)) :
    ∃ us, groups.flatten = percent :: us := by
  obtain ⟨first, tail, hencode, -⟩ := Utf8.encode_shape hvalid
  rw [hencode] at hgroups
  cases hgroups with
  | @cons group byte groups bytes hgroup hgroups =>
    obtain ⟨hi, lo, rfl⟩ := hgroup.eq_cons
    exact ⟨_, rfl⟩

theorem length_flatten_groups {groups : List (List UInt16)} {bytes : List Nat}
    (h : List.Forall₂ SpellsByte groups bytes) : groups.flatten.length = 3 * bytes.length := by
  induction h with
  | nil => rfl
  | cons hgroup _ ih =>
    obtain ⟨hi, lo, rfl⟩ := hgroup.eq_cons
    rw [List.flatten_cons, List.length_append, ih]
    simp only [List.length_cons, List.length_nil]
    omega

/-! ### What is accepted -/

section Decode

variable {preserve : Bool}

theorem decodeLoop_unit {fuel : Nat} {u : UInt16} {us : List UInt16} (hu : u ≠ percent) :
    decodeLoop preserve (fuel + 1) (u :: us) = (decodeLoop preserve fuel us).map (u :: ·) := by
  rw [decodeLoop, if_pos hu]

/-- One spelled character. -/
theorem decodeLoop_char {fuel code : Nat} {groups : List (List UInt16)} {us : List UInt16}
    (hvalid : code.isValidChar)
    (hgroups : List.Forall₂ SpellsByte groups (Utf8.encode code)) :
    decodeLoop preserve (fuel + 1) (groups.flatten ++ us) =
      (decodeLoop preserve fuel us).map
        ((if preserve && isReserved code then groups.flatten
          else units (Char.ofNat code)) ++ ·) := by
  have hread : readCharacter (groups.flatten ++ us) =
      some (code, 3 * (Utf8.encode code).length, us) :=
    readCharacter_eq_some.mpr ⟨hvalid, rfl, groups, rfl, hgroups⟩
  have htake : (groups.flatten ++ us).take (3 * (Utf8.encode code).length) = groups.flatten := by
    rw [← length_flatten_groups hgroups, List.take_left]
  obtain ⟨tail, htail⟩ := flatten_groups hvalid hgroups
  rw [htail, List.cons_append] at hread htake ⊢
  rw [decodeLoop, if_neg (by simp), hread]
  simp only [Option.bind_eq_bind, Option.bind_some, htake]

theorem decodeLoop_isSome_iff {fuel : Nat} {us : List UInt16} (hfuel : us.length ≤ fuel) :
    (decodeLoop preserve fuel us).isSome = true ↔ WellSpelled us := by
  constructor
  · intro h
    induction fuel generalizing us with
    | zero =>
      obtain rfl := List.eq_nil_of_length_eq_zero (Nat.le_zero.mp hfuel)
      exact .nil
    | succ fuel ih =>
      cases us with
      | nil => exact .nil
      | cons u us =>
        by_cases hu : u = percent
        · rw [decodeLoop, if_neg (by simpa using hu)] at h
          obtain ⟨out, hout⟩ := Option.isSome_iff_exists.mp h
          simp only [Option.bind_eq_bind, Option.bind_eq_some_iff, Prod.exists] at hout
          obtain ⟨code, length, rest, hread, hrest⟩ := hout
          obtain ⟨hvalid, rfl, groups, hus, hgroups⟩ := readCharacter_eq_some.mp hread
          obtain ⟨tail, htail⟩ := flatten_groups hvalid hgroups
          rw [hus] at hfuel ⊢
          refine .char hvalid hgroups (ih ?_ ?_)
          · rw [htail] at hfuel
            simp only [List.length_append, List.length_cons] at hfuel
            omega
          · rw [← Option.isSome_map, hrest]
            rfl
        · rw [decodeLoop_unit hu, Option.isSome_map] at h
          exact .unit hu (ih (by simpa using hfuel) h)
  · intro h
    induction h generalizing fuel with
    | nil => cases fuel <;> rfl
    | @unit u us hu h ih =>
      obtain ⟨fuel, rfl⟩ : ∃ k, fuel = k + 1 := ⟨fuel - 1, by simp at hfuel; omega⟩
      rw [decodeLoop_unit hu, Option.isSome_map]
      exact ih (by simpa using hfuel)
    | @char code groups us hvalid hgroups h ih =>
      obtain ⟨tail, htail⟩ := flatten_groups hvalid hgroups
      have hlt : us.length < fuel := by
        rw [htail] at hfuel
        simp only [List.length_append, List.length_cons] at hfuel
        omega
      obtain ⟨fuel, rfl⟩ : ∃ k, fuel = k + 1 := ⟨fuel - 1, by omega⟩
      rw [decodeLoop_char hvalid hgroups, Option.isSome_map]
      exact ih (by omega)

end Decode

/-! ### Round trips -/

/-- How one character is written. -/
def escape (safe : List UInt16) (c : Char) : List UInt16 :=
  if c.toNat < 0x80 ∧ UInt16.ofNat c.toNat ∈ safe then units c else percentCode c.toNat

theorem units_ascii {c : Char} (hc : c.toNat < 0x80) : units c = [UInt16.ofNat c.toNat] := by
  rw [units, if_neg (by omega)]

theorem escape_ofNat (safe : List UInt16) {u : UInt16} (h : isSurrogate u = false) :
    escape safe (Char.ofNat u.toNat) =
      if u.toNat < 0x80 then if u ∈ safe then [u] else percentUnits u.toNat
      else percentCode u.toNat := by
  have hchar := toNat_ofNat_char (isValidChar_of_not_surrogate h)
  rw [escape, hchar, UInt16.ofNat_toNat, units_single h]
  by_cases hu : u.toNat < 0x80
  · have hcode : percentCode u.toNat = percentUnits u.toNat := by
      rw [percentCode, Utf8.encode, if_pos hu, List.flatMap_singleton]
    by_cases hsafe : u ∈ safe <;> simp [hu, hsafe, hcode]
  · simp [hu]

theorem escape_pair (safe : List UInt16) {hi lo : UInt16} (hhi : isHigh hi = true)
    (hlo : isLow lo = true) :
    escape safe (Char.ofNat (pairCode hi lo)) = percentCode (pairCode hi lo) := by
  obtain ⟨hvalid, hbeyond⟩ := isValidChar_pairCode hhi hlo
  rw [escape, toNat_ofNat_char hvalid, if_neg (by omega)]

/-- Escaping fails at a lone surrogate and writes character by character otherwise. -/
theorem encodeUriUnits_eq (safe us : List UInt16) :
    encodeUriUnits safe us =
      if lone us = [] then some ((chars us).flatMap (escape safe)) else none := by
  induction us using encodeUriUnits.induct with
  | case1 => rfl
  | case2 u hu =>
    rw [encodeUriUnits, if_pos hu, if_neg]
    exact lone_ne_nil (isSurrogate_of_isHigh hu) fun _ _ h => nomatch h
  | case3 u hu v vs hv ih =>
    have hpair : (isHigh u && isLow v) = true := by rw [hu, hv]; rfl
    have hchars : chars (u :: v :: vs) = Char.ofNat (pairCode u v) :: chars vs := by
      rw [chars, walk, if_pos hpair]
      rfl
    rw [encodeUriUnits, if_pos hu, if_pos hv, ih, lone_pair hu hv, hchars, List.flatMap_cons,
      escape_pair safe hu hv]
    split <;> rfl
  | case4 u hu v vs hv =>
    rw [encodeUriUnits, if_pos hu, if_neg hv, if_neg]
    refine lone_ne_nil (isSurrogate_of_isHigh hu) ?_
    rintro _ _ ⟨⟩
    simp [hv]
  | case5 u us hhigh hu =>
    rw [encodeUriUnits.eq_def]
    simp only [hhigh, hu, if_true, Bool.false_eq_true, if_false]
    rw [if_neg]
    exact lone_ne_nil hu (by simp [hhigh])
  | case6 u us hhigh hu hlt ih =>
    have hu : isSurrogate u = false := Bool.eq_false_iff.mpr hu
    rw [encodeUriUnits.eq_def]
    simp only [hhigh, hu, hlt, if_true, Bool.false_eq_true, if_false]
    rw [ih, lone_cons hu, chars_cons hu, List.flatMap_cons, escape_ofNat safe hu, if_pos hlt]
    by_cases hlone : lone us = []
    · rw [if_pos hlone, if_pos hlone, Option.map_some]
    · rw [if_neg hlone, if_neg hlone, Option.map_none]
  | case7 u us hhigh hu hlt ih =>
    have hu : isSurrogate u = false := Bool.eq_false_iff.mpr hu
    rw [encodeUriUnits.eq_def]
    simp only [hhigh, hu, hlt, Bool.false_eq_true, if_false]
    rw [ih, lone_cons hu, chars_cons hu, List.flatMap_cons, escape_ofNat safe hu, if_neg hlt]
    split <;> rfl

/-- The spelling that escaping writes. -/
theorem percentCode_groups {code : Nat} (hvalid : code.isValidChar) :
    ∃ groups : List (List UInt16), percentCode code = groups.flatten ∧
      List.Forall₂ SpellsByte groups (Utf8.encode code) := by
  refine ⟨(Utf8.encode code).map percentUnits, ?_, ?_⟩
  · rw [percentCode, List.flatMap_def]
  · have hlt : ∀ b ∈ Utf8.encode code, b < 256 := by
      obtain ⟨first, tail, hencode, -, hfirst, htail⟩ := Utf8.encode_shape hvalid
      rw [hencode]
      refine List.forall_mem_cons.mpr ⟨hfirst, fun b hb => ?_⟩
      have := htail b hb
      omega
    rw [List.forall₂_map_left_iff]
    exact List.forall₂_same.mpr fun b hb => spellsByte_percentUnits (hlt b hb)

/-- Escaped text is read back, where the sign that begins an escape is itself escaped and
reserved characters are not escaped if they are to be preserved. -/
theorem decodeLoop_escape {safe : List UInt16} {preserve : Bool} (hpercent : percent ∉ safe)
    (hreserved : preserve = true → ∀ u ∈ uriReserved, u ∈ safe) (text : List Char) {fuel : Nat}
    (hfuel : text.length ≤ fuel) :
    decodeLoop preserve fuel (text.flatMap (escape safe)) = some (text.flatMap units) := by
  induction text generalizing fuel with
  | nil => cases fuel <;> rfl
  | cons c text ih =>
    obtain ⟨fuel, rfl⟩ : ∃ k, fuel = k + 1 := ⟨fuel - 1, by simp at hfuel; omega⟩
    have hrest := @ih fuel (by simpa using hfuel)
    rw [List.flatMap_cons, List.flatMap_cons, escape]
    split
    next hsafe =>
      rw [units_ascii hsafe.1, List.singleton_append, decodeLoop_unit, hrest]
      · rfl
      · rintro heq
        exact hpercent (heq ▸ hsafe.2)
    next hunsafe =>
      have hvalid : c.toNat.isValidChar := c.valid
      obtain ⟨groups, hgroups, hspell⟩ := percentCode_groups hvalid
      have hkept : (preserve && isReserved c.toNat) = false := by
        cases preserve with
        | false => rfl
        | true =>
          simp only [isReserved, Bool.true_and, Bool.and_eq_false_iff, decide_eq_false_iff_not]
          by_contra! hboth
          exact hunsafe ⟨hboth.1, hreserved rfl _ hboth.2⟩
      rw [hgroups, decodeLoop_char hvalid hspell, hkept, hrest, Char.ofNat_toNat]
      rfl

theorem escape_ne_nil (safe : List UInt16) (c : Char) : escape safe c ≠ [] := by
  rw [escape]
  split
  next h => rw [units_ascii h.1]; exact List.cons_ne_nil _ _
  · have hvalid : c.toNat.isValidChar := c.valid
    obtain ⟨groups, hgroups, hspell⟩ := percentCode_groups hvalid
    obtain ⟨tail, htail⟩ := flatten_groups hvalid hspell
    rw [hgroups, htail]
    exact List.cons_ne_nil _ _

theorem length_le_escape (safe : List UInt16) (text : List Char) :
    text.length ≤ (text.flatMap (escape safe)).length := by
  induction text with
  | nil => exact Nat.zero_le _
  | cons c text ih =>
    have hpos := List.length_pos_of_ne_nil (escape_ne_nil safe c)
    rw [List.flatMap_cons, List.length_append, List.length_cons]
    omega

theorem bind_decodeUriUnits {safe : List UInt16} {preserve : Bool} (hpercent : percent ∉ safe)
    (hreserved : preserve = true → ∀ u ∈ uriReserved, u ∈ safe) (us : List UInt16) :
    (encodeUriUnits safe us).bind (decodeUriUnits · preserve) =
      if lone us = [] then some us else none := by
  rw [encodeUriUnits_eq]
  by_cases hlone : lone us = []
  · rw [if_pos hlone, if_pos hlone, Option.bind_some, decodeUriUnits,
      decodeLoop_escape hpercent hreserved _ (length_le_escape safe _), units_chars hlone]
  · rw [if_neg hlone, if_neg hlone, Option.bind_none]

/-- Escaping fails exactly at lone surrogates and is undone by unescaping, for components and for
whole URIs with their reserved characters kept; and unescaping accepts exactly the texts whose
percent sequences spell characters in UTF-8. -/
theorem uri_round_trip (us : List UInt16) :
    (∀ safe, encodeUriUnits safe us = none ↔ lone us ≠ []) ∧
    (encodeUriUnits uriUnescaped us).bind (decodeUriUnits · false) =
      (if lone us = [] then some us else none) ∧
    (encodeUriUnits uriSafe us).bind (decodeUriUnits · true) =
      (if lone us = [] then some us else none) ∧
    ∀ preserve, (decodeUriUnits us preserve).isSome = true ↔ WellSpelled us := by
  have hcomponent : percent ∉ uriUnescaped := by decide
  have hwhole : percent ∉ uriSafe := by decide
  have hreserved : ∀ u ∈ uriReserved, u ∈ uriSafe := by
    have hsafe : uriSafe = uriUnescaped ++ uriReserved := by decide
    exact fun u hu => hsafe ▸ List.mem_append_right _ hu
  refine ⟨fun safe => ?_, bind_decodeUriUnits hcomponent (by simp) us,
    bind_decodeUriUnits hwhole (fun _ => hreserved) us,
    fun preserve => decodeLoop_isSome_iff (Nat.le_refl _)⟩
  rw [encodeUriUnits_eq]
  by_cases hlone : lone us = [] <;> simp [hlone]

end OxideJS.Codec.Uri
