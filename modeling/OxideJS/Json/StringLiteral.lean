import Mathlib.Data.List.Basic
import Mathlib.Data.Nat.Cast.Order.Ring
import OxideJS.Lib.Utf16

/-!
String literals of JSON.

The grammar is given by `tokens`: a literal is a quote, then plain
characters, short escapes and `\u` escapes, then a quote. What a literal
denotes are the units of its tokens, one by one, whether or not two of them
happen to be a pair.

`parse_string` reads two escapes that are a pair as one code point, and
keeps 16 bits of it. An escape of a surrogate that is not part of a pair is
refused, though the writer produces them.
-/

namespace OxideJS.Json

open Utf16

/-! ### The grammar -/

def shortEscape : Char → Option UInt16
  | '"' => some 0x22
  | '\\' => some 0x5C
  | '/' => some 0x2F
  | 'b' => some 0x08
  | 'f' => some 0x0C
  | 'n' => some 0x0A
  | 'r' => some 0x0D
  | 't' => some 0x09
  | _ => none

inductive Token where
  | plain (c : Char)
  /-- a backslash and a letter -/
  | short (e : Char)
  | unicode (u : UInt16)

def Token.units : Token → List UInt16
  | plain c => Utf16.units c
  | short e => (shortEscape e).toList
  | unicode u => [u]

/-- An escape of a surrogate. -/
def Token.isSurrogate : Token → Bool
  | unicode u => Utf16.isSurrogate u
  | _ => false

def isHex (c : Char) : Bool := (toDigit c).isSome

/-- The tokens of a literal behind its first quote, and the text behind its
last. -/
@[grind =] def tokens : List Char → Option (List Token × List Char)
  | '\\' :: 'u' :: a :: b :: d :: e :: cs =>
    if [a, b, d, e].all isHex then
      (tokens cs).map fun (ts, rest) =>
        (.unicode (UInt16.ofNat (hexValue [a, b, d, e])) :: ts, rest)
    else none
  | '\\' :: c :: cs =>
    if (shortEscape c).isSome then (tokens cs).map fun (ts, rest) => (.short c :: ts, rest)
    else none
  | '"' :: cs => some ([], cs)
  | c :: cs =>
    if c = '\\' ∨ c.toNat ≤ 0x1F then none
    else (tokens cs).map fun (ts, rest) => (.plain c :: ts, rest)
  | [] => none

/-! ### The reader -/

/-- `parse_hex4`. -/
@[grind =] def parseHex4 : Nat → Nat → List Char → Except String (Nat × List Char)
  | 0, v, cs => .ok (v, cs)
  | _ + 1, _, [] => .error "unexpected end of hex escape"
  | n + 1, v, c :: cs =>
    match toDigit c with
    | some d => parseHex4 n (v * 16 + d) cs
    | none => .error "invalid hex digit"

/-- The second half of `parse_unicode_escape`: the escape that has to stand
behind a high surrogate. -/
def parseLowEscape (hi : UInt16) : List Char → Except String (Nat × List Char)
  | '\\' :: 'u' :: cs =>
    match parseHex4 4 0 cs with
    | .error e => .error e
    | .ok (lo, cs) =>
      if isLow (UInt16.ofNat lo) then .ok (pairCode hi (UInt16.ofNat lo), cs)
      else .error "invalid surrogate pair"
  | _ => .error "lone leading surrogate in hex escape"

/-- `parse_unicode_escape`. -/
def parseUnicodeEscape (cs : List Char) : Except String (Nat × List Char) :=
  match parseHex4 4 0 cs with
  | .error e => .error e
  | .ok (hi, cs) =>
    if isHigh (UInt16.ofNat hi) then parseLowEscape (UInt16.ofNat hi) cs
    else if isLow (UInt16.ofNat hi) then .error "lone leading surrogate in hex escape"
    else .ok (hi, cs)

theorem length_parseHex4 {n v w : Nat} {cs ds : List Char} (h : parseHex4 n v cs = .ok (w, ds)) :
    ds.length ≤ cs.length := by
  induction n generalizing v cs with
  | zero =>
    obtain ⟨-, rfl⟩ := Prod.mk.inj (Except.ok.inj h)
    exact le_rfl
  | succ n ih =>
    cases cs with
    | nil => exact nomatch h
    | cons c cs =>
      simp only [parseHex4] at h
      split at h
      · exact (ih h).trans (Nat.le_succ _)
      · exact nomatch h

theorem length_parseLowEscape {hi : UInt16} {w : Nat} {cs ds : List Char}
    (h : parseLowEscape hi cs = .ok (w, ds)) : ds.length ≤ cs.length := by
  unfold parseLowEscape at h
  split at h
  · split at h
    · exact nomatch h
    · next lo fs hfs =>
      have hlen := length_parseHex4 hfs
      split at h
      · obtain ⟨-, rfl⟩ := Prod.mk.inj (Except.ok.inj h)
        simp only [List.length_cons]
        omega
      · exact nomatch h
  · exact nomatch h

theorem length_parseUnicodeEscape {w : Nat} {cs ds : List Char}
    (h : parseUnicodeEscape cs = .ok (w, ds)) : ds.length ≤ cs.length := by
  unfold parseUnicodeEscape at h
  split at h
  · exact nomatch h
  · next hi es hes =>
    have hlen := length_parseHex4 hes
    split at h
    · exact (length_parseLowEscape h).trans hlen
    · split at h
      · exact nomatch h
      · obtain ⟨-, rfl⟩ := Prod.mk.inj (Except.ok.inj h)
        exact hlen

/-- The loop of `parse_string`. -/
@[grind =] def collect : List Char → Except String (List UInt16 × List Char)
  | [] => .error "unterminated string"
  | c :: cs =>
    if c = '"' then .ok ([], cs)
    else if c = '\\' then
      match cs with
      | [] => .error "unterminated escape"
      | e :: cs =>
        if e = 'u' then
          match _h : parseUnicodeEscape cs with
          | .error e => .error e
          | .ok (v, ds) =>
            (collect ds).map fun (us, rest) => (UInt16.ofNat v :: us, rest)
        else
          match shortEscape e with
          | some u => (collect cs).map fun (us, rest) => (u :: us, rest)
          | none => .error "invalid escape"
    else if c.toNat ≤ 0x1F then .error "unescaped control character in string"
    else (collect cs).map fun (us, rest) => (units c ++ us, rest)
  termination_by cs => cs.length
  decreasing_by
    · have := length_parseUnicodeEscape _h
      simp only [List.length_cons]
      omega
    all_goals simp only [List.length_cons]; omega

inductive Parsed where
  | ok (text rest : List Char)
  | error (message : String)
  | aborts

/-- `parse_string` at the opening quote. -/
def parseString (text : List Char) : Parsed :=
  match collect (text.drop 1) with
  | .error e => .error e
  | .ok (us, rest) =>
    match fromUtf16 us with
    | some text => .ok text rest
    | none => .aborts

/-! ### The reader against the grammar -/

/-- What the loop makes of the tokens. -/
@[grind =] def combine : List Token → Option (List UInt16)
  | .unicode hi :: .unicode lo :: ts =>
    if isHigh hi then
      if isLow lo then (combine ts).map (UInt16.ofNat (pairCode hi lo) :: ·) else none
    else if isLow hi then none
    else (combine (.unicode lo :: ts)).map (hi :: ·)
  | .unicode u :: ts => if isSurrogate u then none else (combine ts).map (u :: ·)
  | t :: ts => (combine ts).map (t.units ++ ·)
  | [] => some []

section Tokens

variable {c e : Char} {cs : List Char}

theorem tokens_short (he : e ≠ 'u') (cs : List Char) :
    tokens ('\\' :: e :: cs) = if (shortEscape e).isSome then
      (tokens cs).map fun (ts, rest) => (.short e :: ts, rest) else none := by
  rw [tokens]
  rintro _ _ _ _ _ rfl
  exact absurd rfl he

theorem tokens_plain (hq : c ≠ '"') (hb : c ≠ '\\') (cs : List Char) :
    tokens (c :: cs) = if c.toNat ≤ 0x1F then none
      else (tokens cs).map fun (ts, rest) => (.plain c :: ts, rest) := by
  rw [tokens]
  · simp only [hb, false_or]
  · exact fun _ _ _ _ _ h => absurd h hb
  · exact fun _ _ h => absurd h hb
  · exact hq

theorem parseHex4_digits {ds : List Char} (h : ds.all isHex = true) (v : Nat) (cs : List Char) :
    parseHex4 ds.length v (ds ++ cs) =
      .ok (ds.foldl (fun v c => v * 16 + (toDigit c).getD 0) v, cs) := by
  induction ds generalizing v with
  | nil => rfl
  | cons c ds ih =>
    obtain ⟨hc, hds⟩ := (Bool.and_eq_true _ _).mp h
    obtain ⟨d, hd⟩ := Option.isSome_iff_exists.1 hc
    rw [List.cons_append, List.length_cons, parseHex4, hd, List.foldl_cons, hd]
    exact ih hds _

theorem parseHex4_error {n v : Nat} (h : cs.length < n ∨ (cs.take n).all isHex = false) :
    ∃ message, parseHex4 n v cs = .error message := by
  induction n generalizing v cs with
  | zero => simp at h
  | succ n ih =>
    cases cs with
    | nil => exact ⟨_, rfl⟩
    | cons c cs =>
      rw [parseHex4]
      cases hc : toDigit c with
      | none => exact ⟨_, rfl⟩
      | some d =>
        refine ih (h.imp Nat.lt_of_succ_lt_succ fun h => ?_)
        simpa only [List.take_succ_cons, List.all_cons, isHex, hc, Option.isSome_some,
          Bool.true_and] using h

/-- Four digits, or an error. -/
theorem parseHex4_cases (cs : List Char) :
    (∃ a b d e ds, cs = a :: b :: d :: e :: ds ∧ [a, b, d, e].all isHex = true ∧
      parseHex4 4 0 cs = .ok (hexValue [a, b, d, e], ds)) ∨
    ((∃ message, parseHex4 4 0 cs = .error message) ∧ tokens ('\\' :: 'u' :: cs) = none) := by
  match cs with
  | [] | [_] | [_, _] | [_, _, _] => exact .inr ⟨parseHex4_error (.inl (by simp)), rfl⟩
  | a :: b :: d :: e :: ds =>
    by_cases hall : [a, b, d, e].all isHex = true
    · exact .inl ⟨a, b, d, e, ds, rfl, hall, parseHex4_digits hall 0 ds⟩
    · exact .inr ⟨parseHex4_error (.inr (Bool.eq_false_iff.2 hall)), by rw [tokens, if_neg hall]⟩

theorem toOption_map {α β : Type} (f : α → β) (x : Except String α) :
    (x.map f).toOption = x.toOption.map f := by
  cases x <;> rfl

theorem collect_unicode (cs : List Char) : (collect ('\\' :: 'u' :: cs)).toOption =
    (parseUnicodeEscape cs).toOption.bind fun (v, ds) =>
      (collect ds).toOption.map fun (us, rest) => (UInt16.ofNat v :: us, rest) := by
  rw [collect, if_neg (by decide), if_pos rfl]
  simp only [if_true]
  split
  · next h => rw [h]; rfl
  · next h => rw [h, toOption_map]; rfl

theorem collect_short (he : e ≠ 'u') (cs : List Char) : (collect ('\\' :: e :: cs)).toOption =
    (shortEscape e).bind fun u =>
      (collect cs).toOption.map fun (us, rest) => (u :: us, rest) := by
  rw [collect, if_neg (by decide), if_pos rfl]
  simp only [if_neg he]
  cases shortEscape e with
  | none => rfl
  | some u => exact toOption_map _ _

theorem collect_plain (hq : c ≠ '"') (hb : c ≠ '\\') (cs : List Char) :
    (collect (c :: cs)).toOption = if c.toNat ≤ 0x1F then none
      else (collect cs).toOption.map fun (us, rest) => (units c ++ us, rest) := by
  rw [collect.eq_def]
  simp only [if_neg hq, if_neg hb]
  split
  · rfl
  · exact toOption_map _ _

/-- What is read of a text, by its tokens. -/
def denoted (x : Option (List Token × List Char)) : Option (List UInt16 × List Char) :=
  x.bind fun (ts, rest) => (combine ts).map fun us => (us, rest)

theorem denoted_cons {t : Token} {us : List UInt16}
    (h : ∀ ts, combine (t :: ts) = (combine ts).map (us ++ ·))
    (x : Option (List Token × List Char)) :
    denoted (x.map fun (ts, rest) => (t :: ts, rest)) =
      (denoted x).map fun (vs, rest) => (us ++ vs, rest) := by
  cases x with
  | none => rfl
  | some p =>
    simp only [denoted, Option.map_some, Option.bind_some, h, Option.map_map]
    rfl

theorem combine_unicode {u : UInt16} (h : isSurrogate u = false) (ts : List Token) :
    combine (.unicode u :: ts) = (combine ts).map ([u] ++ ·) := by
  have hhigh := isHigh_eq_false h
  have hlow := isLow_eq_false h
  match ts with
  | .unicode v :: ts => simp only [combine, hhigh, hlow, Bool.false_eq_true, if_false]; rfl
  | [] | .plain _ :: _ | .short _ :: _ => simp only [combine, h, Bool.false_eq_true, if_false]; rfl

theorem combine_low {u : UInt16} (hhigh : isHigh u = false) (hlow : isLow u = true)
    (ts : List Token) : combine (.unicode u :: ts) = none := by
  have hs : isSurrogate u = true := by
    simp only [isSurrogate, isLow, Bool.and_eq_true, decide_eq_true_eq] at hlow ⊢
    omega
  rcases ts with _ | ⟨_ | _ | v, ts⟩
  · simp only [combine, hs, if_true]
  · simp only [combine, hs, if_true]
  · simp only [combine, hs, if_true]
  · simp only [combine, hhigh, hlow, Bool.false_eq_true, if_false, if_true]

theorem combine_high {u : UInt16} (h : isHigh u = true) {ts : List Token}
    (hts : ∀ v ts', ts ≠ .unicode v :: ts') : combine (.unicode u :: ts) = none := by
  have hs : isSurrogate u = true := by
    simp only [isSurrogate, isHigh, Bool.and_eq_true, decide_eq_true_eq] at h ⊢
    omega
  rcases ts with _ | ⟨_ | _ | v, ts⟩
  · simp only [combine, hs, if_true]
  · simp only [combine, hs, if_true]
  · simp only [combine, hs, if_true]
  · exact absurd rfl (hts v ts)

/-- Only a `\u` gives a `\u` token. -/
theorem tokens_ne_unicode (h : ∀ es, cs ≠ '\\' :: 'u' :: es) {ts : List Token}
    {rest : List Char} (hts : tokens cs = some (ts, rest)) (v : UInt16) (ts' : List Token) :
    ts ≠ .unicode v :: ts' := by
  rintro rfl
  match cs with
  | [] => exact nomatch hts
  | c :: cs =>
    by_cases hq : c = '"'
    · subst hq
      rw [tokens] at hts
      exact nomatch hts
    by_cases hb : c = '\\'
    swap
    · rw [tokens_plain hq hb] at hts
      split at hts
      · exact nomatch hts
      · obtain ⟨p, -, hp⟩ := Option.map_eq_some_iff.1 hts
        exact nomatch hp
    subst hb
    match cs with
    | [] => exact nomatch hts
    | e :: cs =>
      rw [tokens_short fun he => h cs (by rw [he])] at hts
      split at hts
      · obtain ⟨p, -, hp⟩ := Option.map_eq_some_iff.1 hts
        exact nomatch hp
      · exact nomatch hts

/-- An escape of a high surrogate, and what comes behind it. -/
theorem denoted_high {u : UInt16} (hu : isHigh u = true) (ds : List Char)
    (ih : ∀ fs : List Char, fs.length < ds.length → (collect fs).toOption = denoted (tokens fs)) :
    ((parseLowEscape u ds).toOption.bind fun (v, ds) =>
      (collect ds).toOption.map fun (us, rest) => (UInt16.ofNat v :: us, rest)) =
      denoted ((tokens ds).map fun (ts, rest) => (.unicode u :: ts, rest)) := by
  by_cases hds : ∃ es, ds = '\\' :: 'u' :: es
  · obtain ⟨es, rfl⟩ := hds
    rw [parseLowEscape]
    obtain ⟨a, b, d, e, fs, rfl, hall, hparse⟩ | ⟨⟨m, herror⟩, hnone⟩ := parseHex4_cases es
    swap
    · rw [herror, hnone]
      rfl
    rw [hparse, tokens, if_pos hall, Option.map_map]
    dsimp only
    split
    · next hlo =>
      show (collect fs).toOption.map _ = _
      rw [ih fs (by simp only [List.length_cons]; omega)]
      cases tokens fs with
      | none => rfl
      | some p =>
        simp only [denoted, Option.map_some, Option.bind_some, Function.comp_apply, combine,
          if_pos hu, if_pos hlo, Option.map_map]
        rfl
    · next hlo =>
      cases tokens fs with
      | none => rfl
      | some p =>
        simp only [denoted, Option.map_some, Option.bind_some, Function.comp_apply, combine,
          if_pos hu, if_neg hlo]
        rfl
  · have hne : ∀ es, ds ≠ '\\' :: 'u' :: es := fun es h => hds ⟨es, h⟩
    rw [parseLowEscape.eq_2 _ _ hne]
    cases hts : tokens ds with
    | none => rfl
    | some p =>
      simp only [denoted, Option.map_some, Option.bind_some,
        combine_high hu (tokens_ne_unicode hne hts)]
      rfl

/-- The result of the loop, with the grammar's tokens for what was read. -/
theorem collect_eq (cs : List Char) : (collect cs).toOption = denoted (tokens cs) := by
  induction hlen : cs.length using Nat.strong_induction_on generalizing cs with
  | _ n ih =>
  match cs with
  | [] => rw [collect]; rfl
  | c :: cs =>
    have hcs := ih cs.length (by simp [← hlen]) cs rfl
    by_cases hq : c = '"'
    · subst hq
      rw [collect.eq_def, tokens]
      rfl
    by_cases hb : c = '\\'
    swap
    · rw [collect_plain hq hb, tokens_plain hq hb, hcs]
      split
      · rfl
      · exact (denoted_cons (t := .plain c) (fun _ => rfl) _).symm
    subst hb
    match cs with
    | [] => rw [collect, if_neg (by decide), if_pos rfl]; rfl
    | e :: cs =>
      have hcs := ih cs.length (by simp only [← hlen, List.length_cons]; omega) cs rfl
      by_cases he : e = 'u'
      swap
      · rw [collect_short he, tokens_short he, hcs]
        cases hu : shortEscape e with
        | none => rfl
        | some u =>
          have hshort (ts) : combine (.short e :: ts) = (combine ts).map ([u] ++ ·) := ?_
          · exact (denoted_cons hshort _).symm
          rw [combine, Token.units, hu]
          · rfl
          · exact nofun
          · exact nofun
      subst he
      rw [collect_unicode, parseUnicodeEscape]
      obtain ⟨a, b, d, e, ds, rfl, hall, hparse⟩ | ⟨⟨m, herror⟩, hnone⟩ := parseHex4_cases cs
      swap
      · rw [herror, hnone]
        rfl
      rw [hparse, tokens, if_pos hall]
      have hds := ih ds.length (by simp only [← hlen, List.length_cons]; omega) ds rfl
      dsimp only
      split
      · next hhigh =>
        refine denoted_high hhigh ds fun fs hfs => ih fs.length ?_ fs rfl
        simp only [← hlen, List.length_cons]
        omega
      · next hhigh =>
        split
        · next hlow =>
          cases tokens ds with
          | none => rfl
          | some p =>
            simp only [denoted, Option.map_some, Option.bind_some,
              combine_low (Bool.eq_false_iff.2 hhigh) hlow]
            rfl
        · next hlow =>
          refine (congrArg _ hds).trans (denoted_cons (combine_unicode ?_) _).symm
          simp only [isHigh, isLow, isSurrogate, Bool.and_eq_true, decide_eq_true_eq,
            Bool.and_eq_false_iff, decide_eq_false_iff_not] at hhigh hlow ⊢
          omega

end Tokens

/-! ### Escapes of surrogates -/

section Surrogates

variable {ts : List Token} {us : List UInt16}

theorem isSurrogate_shortEscape {e : Char} {u : UInt16} (h : shortEscape e = some u) :
    isSurrogate u = false := by
  unfold shortEscape at h
  split at h <;> cases h <;> decide

/-- Without escapes of surrogates the loop finds what the tokens denote. -/
theorem combine_of_plain (h : ∀ t ∈ ts, t.isSurrogate = false) :
    combine ts = some (ts.flatMap Token.units) := by
  induction ts with
  | nil => rfl
  | cons t ts ih =>
    obtain ⟨ht, hts⟩ := List.forall_mem_cons.1 h
    cases t with
    | unicode u => exact (combine_unicode ht ts).trans (congrArg _ (ih hts))
    | _ => exact congrArg (Option.map _) (ih hts)

theorem lone_of_plain (h : ∀ t ∈ ts, t.isSurrogate = false) :
    lone (ts.flatMap Token.units) = [] := by
  induction ts with
  | nil => rfl
  | cons t ts ih =>
    obtain ⟨ht, hts⟩ := List.forall_mem_cons.1 h
    rw [List.flatMap_cons]
    cases t with
    | plain c => exact (lone_units c _).trans (ih hts)
    | unicode u => exact (lone_cons ht _).trans (ih hts)
    | short e =>
      cases hu : shortEscape e with
      | none => simpa only [Token.units, hu, Option.toList_none, List.nil_append] using ih hts
      | some u =>
        simp only [Token.units, hu, Option.toList_some, List.singleton_append]
        exact (lone_cons (isSurrogate_shortEscape hu) _).trans (ih hts)

/-- An escape of a surrogate makes the result too short, if there is
one. -/
theorem length_combine (h : combine ts = some us) :
    us.length ≤ (ts.flatMap Token.units).length ∧
      ((∃ t ∈ ts, t.isSurrogate = true) → us.length < (ts.flatMap Token.units).length) := by
  induction ts using combine.induct generalizing us with
  | case1 hi lo ts hhi hlo ih =>
    rw [combine, if_pos hhi, if_pos hlo] at h
    obtain ⟨vs, hvs, rfl⟩ := Option.map_eq_some_iff.1 h
    have := (ih hvs).1
    simp only [List.flatMap_cons, List.length_append, List.length_cons, Token.units,
      List.length_nil]
    omega
  | case2 hi lo ts hhi hlo => simp [combine, hhi, hlo] at h
  | case3 hi lo ts hhi hlo => simp [combine, hhi, hlo] at h
  | case4 hi lo ts hhi hlo ih =>
    rw [combine, if_neg hhi, if_neg hlo] at h
    obtain ⟨vs, hvs, rfl⟩ := Option.map_eq_some_iff.1 h
    have hih := ih hvs
    rw [List.flatMap_cons, List.length_append, Token.units, List.length_singleton, List.length_cons]
    refine ⟨by omega, ?_⟩
    rintro ⟨t, ht, hs⟩
    rcases List.mem_cons.1 ht with rfl | ht
    · simp only [Token.isSurrogate, isSurrogate, isHigh, isLow, Bool.and_eq_true,
        decide_eq_true_eq] at hs hhi hlo
      omega
    · have := hih.2 ⟨t, ht, hs⟩
      omega
  | case5 u ts hts hs =>
    rw [combine, if_pos hs] at h
    · cases h
    · exact hts
  | case6 u ts hts hs ih =>
    rw [combine_unicode (Bool.eq_false_iff.2 hs)] at h
    obtain ⟨vs, hvs, rfl⟩ := Option.map_eq_some_iff.1 h
    have hih := ih hvs
    have hu : (Token.unicode u).isSurrogate = false := Bool.eq_false_iff.2 hs
    simp only [List.flatMap_cons, List.length_append, List.exists_mem_cons_iff, Token.units,
      List.length_singleton, hu, Bool.false_eq_true, false_or]
    exact ⟨by omega, fun hsome => by have := hih.2 hsome; omega⟩
  | case7 t ts hpair hunicode ih =>
    rw [combine] at h
    · obtain ⟨vs, hvs, rfl⟩ := Option.map_eq_some_iff.1 h
      have hih := ih hvs
      have ht : t.isSurrogate = false := by
        cases t with
        | unicode u => exact absurd rfl (hunicode u)
        | _ => rfl
      simp only [List.flatMap_cons, List.length_append, List.exists_mem_cons_iff, ht,
        Bool.false_eq_true, false_or]
      exact ⟨by omega, fun hsome => by have := hih.2 hsome; omega⟩
    · exact hpair
    · exact hunicode
  | case8 =>
    obtain rfl := Option.some.inj h
    refine ⟨le_rfl, ?_⟩
    rintro ⟨t, ht, -⟩
    cases ht

end Surrogates

/-! ### Literals -/

/-- The units that a literal denotes, behind its first quote, and the text
behind its last. -/
def literal (cs : List Char) : Option (List UInt16 × List Char) :=
  (tokens cs).map fun (ts, rest) => (ts.flatMap Token.units, rest)

/-- The reader accepts what the grammar accepts, with its meaning. -/
def ReadsLiteral (cs : List Char) : Prop :=
  match parseString ('"' :: cs) with
  | .ok text rest => literal cs = some (text.flatMap units, rest)
  | .error _ => literal cs = none
  | .aborts => False

theorem parseString_of_denoted {cs rest : List Char} {us : List UInt16}
    (h : denoted (tokens cs) = some (us, rest)) : parseString ('"' :: cs) =
      match fromUtf16 us with
      | some text => .ok text rest
      | none => .aborts := by
  rw [← collect_eq] at h
  unfold parseString
  cases hx : collect cs with
  | error e => rw [hx] at h; exact nomatch h
  | ok p =>
    rw [hx] at h
    obtain rfl := Option.some.inj h
    simp only [List.drop_succ_cons, List.drop_zero, hx]

theorem parseString_of_plain {cs rest : List Char} {ts : List Token}
    (hts : tokens cs = some (ts, rest)) (h : ∀ t ∈ ts, t.isSurrogate = false) :
    parseString ('"' :: cs) = .ok (chars (ts.flatMap Token.units)) rest := by
  have hdenoted : denoted (tokens cs) = some (ts.flatMap Token.units, rest) := by
    simp only [hts, denoted, Option.bind_some, combine_of_plain h]
    rfl
  rw [parseString_of_denoted hdenoted, fromUtf16, if_pos (lone_of_plain h)]

/-- A text with an escape of a surrogate is not read as it should be. -/
theorem not_reads_of_surrogate {cs rest : List Char} {ts : List Token}
    (hts : tokens cs = some (ts, rest)) (h : ∃ t ∈ ts, t.isSurrogate = true) (text : List Char) :
    parseString ('"' :: cs) ≠ .ok text rest ∨ text.flatMap units ≠ ts.flatMap Token.units := by
  rw [or_iff_not_imp_left, not_not]
  intro hparse heq
  unfold parseString at hparse
  split at hparse
  · exact nomatch hparse
  · next us rest' hcollect =>
    split at hparse
    · next text' htext =>
      obtain ⟨rfl, rfl⟩ := Parsed.ok.inj hparse
      have hdenoted := collect_eq cs
      rw [show collect cs = .ok (us, rest') from hcollect, hts] at hdenoted
      obtain ⟨vs, hvs, hpair⟩ := Option.map_eq_some_iff.1 hdenoted.symm
      obtain ⟨rfl, -⟩ := Prod.mk.inj hpair
      have hlt := (length_combine hvs).2 h
      rw [← heq, units_of_fromUtf16 htext] at hlt
      exact lt_irrefl _ hlt
    · exact nomatch hparse

/-- A literal is read as the grammar says exactly when it has no escape of a
surrogate, alone or in a pair, or is malformed anyway. -/
theorem readsLiteral_iff (cs : List Char) : ReadsLiteral cs ↔
    ∀ ts rest, tokens cs = some (ts, rest) → ∀ t ∈ ts, t.isSurrogate = false := by
  constructor
  · intro hreads ts rest hts
    have hliteral : literal cs = some (ts.flatMap Token.units, rest) := by
      rw [literal, hts]
      rfl
    by_contra hsome
    push Not at hsome
    obtain ⟨t, ht, hs⟩ := hsome
    unfold ReadsLiteral at hreads
    split at hreads
    · next text rest' hparse =>
      obtain ⟨hunits, rfl⟩ := Prod.mk.inj (Option.some.inj (hliteral.symm.trans hreads))
      rcases not_reads_of_surrogate hts ⟨t, ht, Bool.eq_true_of_not_eq_false hs⟩ text with h | h
      · exact h hparse
      · exact h hunits.symm
    · exact nomatch hliteral.symm.trans hreads
    · exact hreads
  · intro h
    unfold ReadsLiteral
    cases hts : tokens cs with
    | none =>
      have hcollect := collect_eq cs
      rw [hts] at hcollect
      unfold parseString
      cases hx : collect cs with
      | error e =>
        simp only [List.drop_succ_cons, List.drop_zero, hx, literal, hts, Option.map_none]
      | ok p => rw [hx] at hcollect; exact nomatch hcollect
    | some p =>
      have hplain := h p.1 p.2 hts
      rw [parseString_of_plain hts hplain]
      dsimp only
      rw [units_chars (lone_of_plain hplain), literal, hts]
      rfl

/-- `"\ud83d\ude00"` is read as one unit, and `"\ud836\udc00"` is
refused by the conversion that is thought to be safe. -/
theorem parseString_truncates_pairs :
    ¬ReadsLiteral ['\\', 'u', 'd', '8', '3', 'd', '\\', 'u', 'd', 'e', '0', '0', '"'] ∧
      parseString ['"', '\\', 'u', 'd', '8', '3', '6', '\\', 'u', 'd', 'c', '0', '0', '"'] =
        .aborts := by
  constructor
  · unfold ReadsLiteral
    rw [parseString_of_denoted (by decide : denoted _ = some ([0xF600], []))]
    exact (by decide : ¬literal
      ['\\', 'u', 'd', '8', '3', 'd', '\\', 'u', 'd', 'e', '0', '0', '"'] = some ([0xF600], []))
  · rw [parseString_of_denoted (by decide : denoted _ = some ([0xD800], []))]
    rfl

/-! ### The writer -/

/-- What is written for a unit that is not in a pair. -/
def quote (u : UInt16) : List Char :=
  if u = 0x22 then ['\\', '"']
  else if u = 0x5C then ['\\', '\\']
  else if u = 0x08 then ['\\', 'b']
  else if u = 0x0C then ['\\', 'f']
  else if u = 0x0A then ['\\', 'n']
  else if u = 0x0D then ['\\', 'r']
  else if u = 0x09 then ['\\', 't']
  else if u.toNat ≤ 0x1F ∨ (0x7F ≤ u.toNat ∧ u.toNat ≤ 0x9F) ∨ isSurrogate u then
    '\\' :: 'u' :: hex4 u.toNat
  else [Char.ofNat u.toNat]

/-- `stringify_string_units`. -/
def stringifyStringUnits (us : List UInt16) : List UInt16 :=
  units '"' ++ walk (fun hi lo => [hi, lo]) (fun u => (quote u).flatMap units) us ++ units '"'

/-- What the reader finds in the place of a unit. -/
theorem tokens_quote (u : UInt16) : ∃ t : Token, t.units = [u] ∧
    t.isSurrogate = isSurrogate u ∧
    ∀ cs, tokens (quote u ++ cs) = (tokens cs).map fun (ts, rest) => (t :: ts, rest) := by
  unfold quote
  split
  · next h => exact ⟨.short '"', by rw [h]; decide, by rw [h]; decide, fun _ => rfl⟩
  split
  · next h => exact ⟨.short '\\', by rw [h]; decide, by rw [h]; decide, fun _ => rfl⟩
  split
  · next h => exact ⟨.short 'b', by rw [h]; decide, by rw [h]; decide, fun _ => rfl⟩
  split
  · next h => exact ⟨.short 'f', by rw [h]; decide, by rw [h]; decide, fun _ => rfl⟩
  split
  · next h => exact ⟨.short 'n', by rw [h]; decide, by rw [h]; decide, fun _ => rfl⟩
  split
  · next h => exact ⟨.short 'r', by rw [h]; decide, by rw [h]; decide, fun _ => rfl⟩
  split
  · next h => exact ⟨.short 't', by rw [h]; decide, by rw [h]; decide, fun _ => rfl⟩
  split
  · refine ⟨.unicode u, rfl, rfl, fun cs => ?_⟩
    have hall : (hex4 u.toNat).all isHex = true := by
      refine List.all_eq_true.2 fun c hc => ?_
      obtain ⟨n, hn, rfl⟩ := exists_hexDigit (isLowerHex_hex4 _ c hc)
      rw [isHex, toDigit_hexDigit hn]
      rfl
    refine (if_pos hall).trans ?_
    rw [show [_, _, _, _] = hex4 u.toNat from rfl, hexValue_hex4 u.toNat_lt, UInt16.ofNat_toNat]
    rfl
  · next hquote hback _ _ _ _ _ hplain =>
    rw [not_or, not_or, Bool.not_eq_true] at hplain
    have htoNat := toNat_ofNat_char (isValidChar_of_not_surrogate hplain.2.2)
    have hne : ∀ c : Char, Char.ofNat u.toNat = c → u = UInt16.ofNat c.toNat := by
      rintro c rfl
      rw [htoNat, UInt16.ofNat_toNat]
    refine ⟨.plain (Char.ofNat u.toNat), units_single hplain.2.2, hplain.2.2.symm, fun cs => ?_⟩
    refine (tokens_plain (fun h => hquote (hne _ h)) (fun h => hback (hne _ h)) cs).trans ?_
    rw [htoNat, if_neg hplain.1]

theorem tokens_pair {hi lo : UInt16} (hhi : isHigh hi = true) (hlo : isLow lo = true)
    (cs : List Char) : tokens (Char.ofNat (pairCode hi lo) :: cs) =
      (tokens cs).map fun (ts, rest) => (.plain (Char.ofNat (pairCode hi lo)) :: ts, rest) := by
  obtain ⟨hvalid, hbeyond⟩ := isValidChar_pairCode hhi hlo
  have htoNat := toNat_ofNat_char hvalid
  have hne : ∀ c : Char, c.toNat ≤ 0xFFFF → Char.ofNat (pairCode hi lo) ≠ c := by
    rintro c hc rfl
    omega
  rw [tokens_plain (hne _ (by decide)) (hne _ (by decide)), htoNat, if_neg (by omega)]

/-- The string as tokens: what they denote, whether one of them is an escape
of a surrogate, and the text they are read from. -/
structure Written (us : List UInt16) (text : List Char) (ts : List Token) : Prop where
  units : text.flatMap units =
    walk (fun hi lo => [hi, lo]) (fun u => (quote u).flatMap Utf16.units) us
  denotes : ts.flatMap Token.units = us
  lone : (∀ t ∈ ts, t.isSurrogate = false) ↔ lone us = []
  tokens : ∀ rest, tokens (text ++ '"' :: rest) = some (ts, rest)

theorem exists_written (us : List UInt16) : ∃ text ts, Written us text ts := by
  have hsingle : ∀ u us, lone (u :: us) = (if isSurrogate u then [u] else []) ++ lone us →
      walk (fun hi lo => [hi, lo]) (fun u => (quote u).flatMap units) (u :: us) =
        (quote u).flatMap units ++
          walk (fun hi lo => [hi, lo]) (fun u => (quote u).flatMap units) us →
      (∃ text ts, Written us text ts) → ∃ text ts, Written (u :: us) text ts := by
    rintro u us hlone hwalk ⟨text, ts, h⟩
    obtain ⟨t, hunits, hs, htokens⟩ := tokens_quote u
    refine ⟨quote u ++ text, t :: ts, ?_, ?_, ?_, fun rest => ?_⟩
    · rw [List.flatMap_append, h.units, hwalk]
    · rw [List.flatMap_cons, hunits, h.denotes]
      rfl
    · rw [List.forall_mem_cons, hs, h.lone, hlone, List.append_eq_nil_iff]
      cases isSurrogate u <;> simp
    · rw [List.append_assoc, htokens, h.tokens]
      rfl
  induction us using walk.induct with
  | case1 => exact ⟨[], [], rfl, rfl, by simp [lone, walk], fun _ => rfl⟩
  | case2 u =>
    refine hsingle u [] ?_ ?_ ⟨[], [], rfl, rfl, by simp [lone, walk], fun _ => rfl⟩
    · simp only [lone, walk, List.append_nil]
    · simp only [walk, List.append_nil]
  | case3 u v us huv ih =>
    obtain ⟨text, ts, h⟩ := ih
    obtain ⟨hu, hv⟩ := (Bool.and_eq_true _ _).mp huv
    refine ⟨Char.ofNat (pairCode u v) :: text, .plain (Char.ofNat (pairCode u v)) :: ts, ?_, ?_, ?_,
      fun rest => ?_⟩
    · rw [List.flatMap_cons, h.units, units_pair hu hv, walk, if_pos huv]
    · rw [List.flatMap_cons, h.denotes, Token.units, units_pair hu hv]
      rfl
    · rw [List.forall_mem_cons, h.lone, Utf16.lone, walk, if_pos huv]
      simp [Token.isSurrogate]
    · rw [List.cons_append, tokens_pair hu hv, h.tokens]
      rfl
  | case4 u v us huv ih =>
    refine hsingle u (v :: us) ?_ ?_ ih
    · simp only [lone, walk, if_neg huv]
    · rw [walk, if_neg huv]

/-- The text of a string is read back as the string. -/
def RoundTrips (us : List UInt16) : Prop :=
  ∃ text s, fromUtf16 (stringifyStringUnits us) = some text ∧ parseString text = .ok s [] ∧
    s.flatMap units = us

theorem roundTrips_iff (us : List UInt16) : RoundTrips us ↔ lone us = [] := by
  obtain ⟨text, ts, h⟩ := exists_written us
  have htext : fromUtf16 (stringifyStringUnits us) = some ('"' :: (text ++ ['"'])) := by
    rw [stringifyStringUnits, ← h.units, ← fromUtf16_units]
    simp only [List.flatMap_cons, List.flatMap_append, List.flatMap_nil, List.append_nil,
      List.append_assoc]
  rw [← h.lone]
  constructor
  · rintro ⟨text', s, htext', hparse, hs⟩
    obtain rfl := Option.some.inj (htext.symm.trans htext')
    by_contra hsome
    push Not at hsome
    obtain ⟨t, ht, hsurrogate⟩ := hsome
    rcases not_reads_of_surrogate (h.tokens []) ⟨t, ht, Bool.eq_true_of_not_eq_false hsurrogate⟩ s
      with hne | hne
    · exact hne hparse
    · exact hne (hs.trans h.denotes.symm)
  · intro hplain
    refine ⟨_, _, htext, parseString_of_plain (h.tokens []) hplain, ?_⟩
    rw [units_chars (lone_of_plain hplain), h.denotes]

/-- A lone surrogate is written, and the reader refuses it. -/
theorem not_roundTrips_lone : ¬RoundTrips [0xD800] := by
  rintro ⟨text, s, htext, hparse, hs⟩
  obtain rfl : text = ['"', '\\', 'u', 'd', '8', '0', '0', '"'] :=
    Option.some.inj (htext.symm.trans (by decide))
  have htokens : tokens ['\\', 'u', 'd', '8', '0', '0', '"'] = some ([.unicode 0xD800], []) := rfl
  rcases not_reads_of_surrogate htokens ⟨_, List.mem_cons_self, rfl⟩ s with h | h
  · exact h hparse
  · exact h hs

end OxideJS.Json
