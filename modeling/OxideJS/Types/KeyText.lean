import Mathlib.Data.List.Infix
import OxideJS.Lib.Utf16

/-!
Texts of property keys and of dynamic sources.

A sequence of units is interned as a text. Pairs become characters, and a
unit that no character stands for, a lone surrogate or U+FFFD itself, is
written as U+FFFD and four digits. The source text of an `eval` has the
same pieces with `\u` and four digits in place of U+FFFD, and a regular
expression is brought back from there to the text of its key.

In a source the backslash can also stand for itself. The reader keeps a
`\u` that is no escape together with the four characters behind it. If one
of these is the backslash of an escape that was put in, the escape is lost.
-/

namespace OxideJS.Types.KeyText

open Utf16

def replacement : Char := '�'

/-- The units that are written with an escape. -/
def special (u : UInt16) : Bool := isSurrogate u || u == 0xFFFD

/-! ### The writers -/

/-- `encode_key`. -/
def encodeKey : List UInt16 → List Char :=
  walk (fun hi lo => [Char.ofNat (pairCode hi lo)]) fun u =>
    if isSurrogate u then replacement :: hex4 u.toNat
    else if u = 0xFFFD then [replacement, 'f', 'f', 'f', 'd']
    else [Char.ofNat u.toNat]

/-- `source_escape`. -/
def sourceEscape : List UInt16 → List Char :=
  walk (fun hi lo => [Char.ofNat (pairCode hi lo)]) fun u =>
    if isSurrogate u then '\\' :: 'u' :: hex4 u.toNat
    else if u = 0xFFFD then ['\\', 'u', 'f', 'f', 'f', 'd']
    else [Char.ofNat u.toNat]

/-! ### The readers -/

/-- What U+FFFD and the four characters behind it stand for. -/
def readEscape (tail : List Char) : List UInt16 :=
  if tail = ['f', 'f', 'f', 'd'] then [0xFFFD]
  else if tail.all isLowerHex && isSurrogate (UInt16.ofNat (hexValue tail)) then
    [UInt16.ofNat (hexValue tail)]
  else 0xFFFD :: tail.map fun c => UInt16.ofNat c.toNat

/-- `decode_key`. -/
def decodeKey : List Char → List UInt16
  | c :: a :: b :: d :: e :: cs =>
    if c ≠ replacement then units c ++ decodeKey (a :: b :: d :: e :: cs)
    else readEscape [a, b, d, e] ++ decodeKey cs
  | c :: cs =>
    if c ≠ replacement then units c ++ decodeKey cs
    else 0xFFFD :: cs.map fun c => UInt16.ofNat c.toNat
  | [] => []

/-- `u` and four digits follow. -/
def isMarker : List Char → Bool
  | c :: a :: b :: d :: e :: _ => c == 'u' && [a, b, d, e].all isLowerHex
  | _ => false

/-- What `\u` and the four characters behind it become. -/
def restore (tail : List Char) : List Char :=
  if tail.all isLowerHex && special (UInt16.ofNat (hexValue tail)) then replacement :: tail
  else '\\' :: 'u' :: tail

/-- `source_escape_to_key`. -/
def sourceEscapeToKey : List Char → List Char
  | [] => []
  | [c] => [c]
  | c :: e :: cs =>
    if c ≠ '\\' then c :: sourceEscapeToKey (e :: cs)
    else if e = '\\' then
      if isMarker cs then '\\' :: sourceEscapeToKey (e :: cs)
      else '\\' :: '\\' :: sourceEscapeToKey cs
    else if e = 'u' then
      match cs with
      | a :: b :: d :: f :: cs => restore [a, b, d, f] ++ sourceEscapeToKey cs
      | cs => '\\' :: 'u' :: cs
    else '\\' :: e :: sourceEscapeToKey cs

/-! ### Pieces -/

/-- What a writer puts down at a time. -/
inductive Piece where
  | char (c : Char)
  | escaped (u : UInt16)
  deriving DecidableEq

namespace Piece

def units : Piece → List UInt16
  | char c => Utf16.units c
  | escaped u => [u]

def keyText : Piece → List Char
  | char c => [c]
  | escaped u => replacement :: hex4 u.toNat

def sourceText : Piece → List Char
  | char c => [c]
  | escaped u => '\\' :: 'u' :: hex4 u.toNat

section Texts

variable {ps : List Piece} {c : Char} {u : UInt16}

theorem flatMap_sourceText_char : (char c :: ps).flatMap sourceText = c :: ps.flatMap sourceText :=
  rfl

theorem flatMap_sourceText_escaped :
    (escaped u :: ps).flatMap sourceText = '\\' :: 'u' :: hex4 u.toNat ++ ps.flatMap sourceText :=
  rfl

theorem flatMap_keyText_char : (char c :: ps).flatMap keyText = c :: ps.flatMap keyText := rfl

theorem flatMap_keyText_escaped :
    (escaped u :: ps).flatMap keyText = replacement :: hex4 u.toNat ++ ps.flatMap keyText := rfl

end Texts

/-- No other character is taken for the start of an escape. -/
def Wf : Piece → Prop
  | char c => c ≠ replacement
  | escaped u => special u = true

end Piece

def pieces : List UInt16 → List Piece :=
  walk (fun hi lo => [.char (Char.ofNat (pairCode hi lo))]) fun u =>
    [if special u then .escaped u else .char (Char.ofNat u.toNat)]

theorem wf_pieces (us : List UInt16) : ∀ p ∈ pieces us, p.Wf := by
  refine walk_induction (P := fun _ (ps : List Piece) => ∀ p ∈ ps, p.Wf) (by simp) ?_ ?_ us
  · intro hi lo us hhi hlo ih p hp
    rcases List.mem_cons.1 hp with rfl | hp
    · intro heq
      obtain ⟨hvalid, hbeyond⟩ := isValidChar_pairCode hhi hlo
      have htoNat := congrArg Char.toNat heq
      rw [toNat_ofNat_char hvalid] at htoNat
      rw [htoNat] at hbeyond
      exact absurd hbeyond (by decide)
    · exact ih p hp
  · intro u us _ ih p hp
    rcases List.mem_cons.1 hp with rfl | hp
    · split
      · assumption
      · next h =>
        simp only [special, Bool.or_eq_true, not_or, Bool.not_eq_true] at h
        intro heq
        have htoNat := congrArg Char.toNat heq
        rw [toNat_ofNat_char (isValidChar_of_not_surrogate h.1)] at htoNat
        have hu : u = 0xFFFD := UInt16.toNat_inj.1 htoNat
        simp [hu] at h
    · exact ih p hp

theorem units_pieces (us : List UInt16) : (pieces us).flatMap Piece.units = us := by
  refine walk_induction (P := fun us (ps : List Piece) => ps.flatMap Piece.units = us) rfl ?_ ?_ us
  · intro hi lo us hhi hlo ih
    rw [List.flatMap_append, ih, List.flatMap_singleton, Piece.units, units_pair hhi hlo]
    rfl
  · intro u us _ ih
    rw [List.flatMap_append, ih, List.flatMap_singleton]
    split
    · rfl
    · next h =>
      simp only [special, Bool.or_eq_true, not_or, Bool.not_eq_true] at h
      rw [Piece.units, units_single h.1]
      rfl

/-- A writer that treats the two kinds of pieces as `text` does. -/
theorem walk_eq_pieces {text : Piece → List Char} {single : UInt16 → List Char}
    (hchar : ∀ c, text (.char c) = [c])
    (hsingle : ∀ u, single u = text (if special u then .escaped u else .char (Char.ofNat u.toNat)))
    (us : List UInt16) :
    walk (fun hi lo => [Char.ofNat (pairCode hi lo)]) single us = (pieces us).flatMap text := by
  induction us using walk.induct with
  | case1 => rfl
  | case2 u => simp only [pieces, walk, List.flatMap_singleton, hsingle]
  | case3 u v us h ih =>
    simp only [pieces] at ih ⊢
    rw [walk, walk, if_pos h, if_pos h, ih, List.flatMap_append, List.flatMap_singleton, hchar]
  | case4 u v us h ih =>
    simp only [pieces] at ih ⊢
    rw [walk, walk, if_neg h, if_neg h, ih, List.flatMap_append, List.flatMap_singleton, hsingle]

theorem encodeKey_eq (us : List UInt16) : encodeKey us = (pieces us).flatMap Piece.keyText := by
  refine walk_eq_pieces (fun _ => rfl) (fun u => ?_) us
  by_cases hs : isSurrogate u = true
  · simp only [special, hs, Bool.true_or, if_true, Piece.keyText]
  · by_cases hu : u = 0xFFFD
    · subst hu
      decide
    · simp only [special, Bool.eq_false_iff.2 hs, beq_eq_false_iff_ne.2 hu, Bool.or_self, hu,
        Bool.false_eq_true, if_false, Piece.keyText]

theorem sourceEscape_eq (us : List UInt16) :
    sourceEscape us = (pieces us).flatMap Piece.sourceText := by
  refine walk_eq_pieces (fun _ => rfl) (fun u => ?_) us
  by_cases hs : isSurrogate u = true
  · simp only [special, hs, Bool.true_or, if_true, Piece.sourceText]
  · by_cases hu : u = 0xFFFD
    · subst hu
      decide
    · simp only [special, Bool.eq_false_iff.2 hs, beq_eq_false_iff_ne.2 hu, Bool.or_self, hu,
        Bool.false_eq_true, if_false, Piece.sourceText]

/-! ### Keys -/

theorem decodeKey_cons {c : Char} (h : c ≠ replacement) (cs : List Char) :
    decodeKey (c :: cs) = units c ++ decodeKey cs := by
  match cs with
  | [] | [_] | [_, _] | [_, _, _] => exact if_pos h
  | _ :: _ :: _ :: _ :: _ => exact if_pos h

theorem readEscape_hex4 {u : UInt16} (h : special u = true) : readEscape (hex4 u.toNat) = [u] := by
  have hvalue : UInt16.ofNat (hexValue (hex4 u.toNat)) = u := by
    rw [hexValue_hex4 u.toNat_lt, UInt16.ofNat_toNat]
  by_cases hu : u = 0xFFFD
  · subst hu
    decide
  · have hs : isSurrogate u = true := by simpa [special, hu] using h
    have hne : hex4 u.toNat ≠ ['f', 'f', 'f', 'd'] := by
      intro heq
      rw [heq] at hvalue
      exact hu (hvalue.symm.trans (by decide))
    rw [readEscape, if_neg hne, hvalue, hs, List.all_eq_true.2 (isLowerHex_hex4 _)]
    rfl

theorem decodeKey_keyText {ps : List Piece} (h : ∀ p ∈ ps, p.Wf) :
    decodeKey (ps.flatMap Piece.keyText) = ps.flatMap Piece.units := by
  induction ps with
  | nil => rfl
  | cons p ps ih =>
    have hp := h p List.mem_cons_self
    rw [List.flatMap_cons, List.flatMap_cons, ← ih fun q hq => h q (List.mem_cons_of_mem _ hq)]
    cases p with
    | char c => exact decodeKey_cons hp _
    | escaped u => exact congrArg (· ++ _) (readEscape_hex4 hp)

/-- The text of a key determines its units. -/
theorem encodeKey_lossless :
    (∀ us, decodeKey (encodeKey us) = us) ∧ Function.Injective encodeKey := by
  have hinv : Function.LeftInverse decodeKey encodeKey := by
    intro us
    rw [encodeKey_eq, decodeKey_keyText (wf_pieces us), units_pieces]
  exact ⟨hinv, hinv.injective⟩

/-! ### Sources -/

/-- Where the reader of a source is: in plain text, behind a backslash, or
with `n` more characters that belong to a `\u`. -/
inductive Reading where
  | text
  | backslash
  | tail (n : Nat)

def Reading.next : Reading → Char → Reading
  | .text, c => if c = '\\' then .backslash else .text
  | .backslash, c => if c = 'u' then .tail 4 else .text
  | .tail (n + 2), _ => .tail (n + 1)
  | .tail _, _ => .text

/-- An escape that was put in stands among the four characters that the
reader keeps with a `\u`. -/
def Swallows : Reading → List Piece → Prop
  | _, [] => False
  | r, .char c :: ps => Swallows (r.next c) ps
  | .tail _, .escaped _ :: _ => True
  | _, .escaped _ :: ps => Swallows .text ps

/-- An escape that is spelled out. -/
def spell (u : UInt16) : List Piece := ('\\' :: 'u' :: hex4 u.toNat).map .char

/-- What the reader makes of the pieces. -/
def reads : Reading → List Piece → List Piece
  | _, [] => []
  | r, .char c :: ps => .char c :: reads (r.next c) ps
  | .tail _, .escaped u :: ps => spell u ++ reads .text ps
  | _, .escaped u :: ps => .escaped u :: reads .text ps

/-- No escape is spelled out in the text itself. -/
def Unspelled (ps : List Piece) : Prop := ∀ u, special u = true → ¬spell u <:+: ps

section Reader

variable {ps qs : List Piece} {c : Char} {r : Reading}

theorem Unspelled.of_suffix (h : Unspelled ps) (hs : qs <:+ ps) : Unspelled qs :=
  fun u hu hi => h u hu (hi.trans hs.isInfix)

theorem Unspelled.of_cons {p : Piece} (h : Unspelled (p :: ps)) : Unspelled ps :=
  h.of_suffix (List.suffix_cons p ps)

theorem wf_reads (h : ∀ p ∈ ps, p.Wf) : ∀ p ∈ reads r ps, p.Wf := by
  induction ps generalizing r with
  | nil => exact fun _ hp => nomatch hp
  | cons q ps ih =>
    obtain ⟨hq, hps⟩ := List.forall_mem_cons.1 h
    cases q with
    | char c => exact List.forall_mem_cons.2 ⟨hq, ih hps⟩
    | escaped u =>
      cases r with
      | tail n =>
        refine List.forall_mem_append.2 ⟨?_, ih hps⟩
        intro p hp
        obtain ⟨c, hc, rfl⟩ := List.mem_map.1 hp
        -- the replacement character is neither a letter of the escape nor a digit
        rcases List.mem_cons.1 hc with rfl | hc
        · exact (by decide : '\\' ≠ replacement)
        rcases List.mem_cons.1 hc with rfl | hc
        · exact (by decide : 'u' ≠ replacement)
        rintro rfl
        exact absurd (isLowerHex_hex4 _ _ hc) (by decide)
      | _ => exact List.forall_mem_cons.2 ⟨hq, ih hps⟩

theorem length_units_pos (p : Piece) : 0 < p.units.length := by
  cases p with
  | char c =>
    simp only [Piece.units, units]
    split <;> simp
  | escaped u => exact Nat.one_pos

theorem length_le_units (ps : List Piece) : ps.length ≤ (ps.flatMap Piece.units).length := by
  induction ps with
  | nil => exact le_rfl
  | cons p ps ih =>
    have := length_units_pos p
    simp only [List.flatMap_cons, List.length_append, List.length_cons]
    omega

theorem reads_of_not_swallows (h : ¬Swallows r ps) : reads r ps = ps := by
  induction ps generalizing r with
  | nil => cases r <;> rfl
  | cons q ps ih =>
    cases q with
    | char c => exact congrArg _ (ih (by cases r <;> exact h))
    | escaped u =>
      cases r with
      | tail n => exact absurd trivial h
      | _ => exact congrArg _ (ih h)

/-- An escape that is spelled out is longer than the unit it stands for. -/
theorem length_reads (r : Reading) (ps : List Piece) :
    (ps.flatMap Piece.units).length ≤ ((reads r ps).flatMap Piece.units).length ∧
      (Swallows r ps →
        (ps.flatMap Piece.units).length < ((reads r ps).flatMap Piece.units).length) := by
  induction ps generalizing r with
  | nil => cases r <;> exact ⟨le_rfl, False.elim⟩
  | cons q ps ih =>
    cases q with
    | char c =>
      have hih := ih (r.next c)
      simp only [reads, List.flatMap_cons, List.length_append]
      refine ⟨by omega, fun h => ?_⟩
      have := hih.2 (by cases r <;> exact h)
      omega
    | escaped u =>
      have hih := ih .text
      cases r with
      | tail n =>
        have hspell := length_le_units (spell u)
        have hsix : (spell u).length = 6 := rfl
        simp only [reads, List.flatMap_cons, List.flatMap_append, List.length_append, Piece.units,
          List.length_singleton]
        omega
      | _ =>
        simp only [reads, List.flatMap_cons, List.length_append]
        exact ⟨by omega, fun h => by have := hih.2 h; omega⟩

theorem units_reads_iff :
    (reads r ps).flatMap Piece.units = ps.flatMap Piece.units ↔ ¬Swallows r ps := by
  constructor
  · intro heq hs
    have := (length_reads r ps).2 hs
    rw [heq] at this
    exact lt_irrefl _ this
  · intro hs
    rw [reads_of_not_swallows hs]

end Reader

/-! ### The reader on written texts -/

section Text

variable {ps : List Piece} {c : Char}

theorem sourceEscapeToKey_cons (h : c ≠ '\\') (cs : List Char) :
    sourceEscapeToKey (c :: cs) = c :: sourceEscapeToKey cs := by
  match cs with
  | [] => rfl
  | [_] | [_, _] | [_, _, _] | [_, _, _, _] => exact if_pos h
  | _ :: _ :: _ :: _ :: _ :: _ => exact if_pos h

/-- Characters that are no backslashes are copied. -/
theorem sourceEscapeToKey_append {cs : List Char} (h : ∀ c ∈ cs, c ≠ '\\') (ds : List Char) :
    sourceEscapeToKey (cs ++ ds) = cs ++ sourceEscapeToKey ds := by
  induction cs with
  | nil => rfl
  | cons c cs ih =>
    obtain ⟨hc, hcs⟩ := List.forall_mem_cons.1 h
    rw [List.cons_append, sourceEscapeToKey_cons hc, ih hcs]
    rfl

theorem sourceEscapeToKey_backslash (cs : List Char) :
    sourceEscapeToKey ('\\' :: '\\' :: cs) =
      if isMarker cs then '\\' :: sourceEscapeToKey ('\\' :: cs)
      else '\\' :: '\\' :: sourceEscapeToKey cs := by
  match cs with
  | [] | [_] | [_, _] | [_, _, _] => rfl
  | _ :: _ :: _ :: _ :: _ => rfl

theorem sourceEscapeToKey_other {e : Char} (he : e ≠ '\\') (hu : e ≠ 'u') (cs : List Char) :
    sourceEscapeToKey ('\\' :: e :: cs) = '\\' :: e :: sourceEscapeToKey cs := by
  match cs with
  | [] | [_] | [_, _] | [_, _, _] => exact (if_neg he).trans (if_neg hu)
  | _ :: _ :: _ :: _ :: _ => exact (if_neg he).trans (if_neg hu)

/-- A `\u` that is no escape is kept, with up to four characters. -/
theorem sourceEscapeToKey_u {cs : List Char} (h : ∀ a b d e ds, cs = a :: b :: d :: e :: ds →
      restore [a, b, d, e] = ['\\', 'u', a, b, d, e]) :
    sourceEscapeToKey ('\\' :: 'u' :: cs) =
      '\\' :: 'u' :: (cs.take 4 ++ sourceEscapeToKey (cs.drop 4)) := by
  match cs with
  | [] | [_] | [_, _] | [_, _, _] => rfl
  | a :: b :: d :: e :: ds => exact congrArg (· ++ sourceEscapeToKey ds) (h a b d e ds rfl)

theorem ne_backslash_of_lowerHex {c : Char} (h : isLowerHex c = true) : c ≠ '\\' := by
  rintro rfl
  exact absurd h (by decide)

theorem pieces_of_text {c : Char} {cs : List Char} (hc : c ≠ '\\')
    (h : ps.flatMap Piece.sourceText = c :: cs) :
    ∃ qs, ps = .char c :: qs ∧ qs.flatMap Piece.sourceText = cs := by
  cases ps with
  | nil => exact nomatch h
  | cons p qs =>
    cases p with
    | char c' =>
      obtain ⟨rfl, hcs⟩ := List.cons.inj h
      exact ⟨qs, rfl, hcs⟩
    | escaped u => exact absurd (List.cons.inj h).1.symm hc

/-- Four digits in the text are characters of their own. -/
theorem pieces_of_digits {a b d e : Char} {cs : List Char}
    (hall : [a, b, d, e].all isLowerHex = true)
    (h : ps.flatMap Piece.sourceText = a :: b :: d :: e :: cs) :
    ∃ qs, ps = [a, b, d, e].map .char ++ qs ∧ qs.flatMap Piece.sourceText = cs := by
  have hne : ∀ c ∈ [a, b, d, e], c ≠ '\\' := fun c hc =>
    ne_backslash_of_lowerHex (List.all_eq_true.1 hall c hc)
  simp only [List.forall_mem_cons] at hne
  obtain ⟨qs₁, rfl, h₁⟩ := pieces_of_text hne.1 h
  obtain ⟨qs₂, rfl, h₂⟩ := pieces_of_text hne.2.1 h₁
  obtain ⟨qs₃, rfl, h₃⟩ := pieces_of_text hne.2.2.1 h₂
  obtain ⟨qs₄, rfl, h₄⟩ := pieces_of_text hne.2.2.2.1 h₃
  exact ⟨qs₄, rfl, h₄⟩

/-- What the text spells out itself is not restored. -/
theorem restore_of_unspelled (h : Unspelled (.char '\\' :: .char 'u' :: ps)) {a b d e : Char}
    {cs : List Char} (hps : ps.flatMap Piece.sourceText = a :: b :: d :: e :: cs) :
    restore [a, b, d, e] = ['\\', 'u', a, b, d, e] := by
  unfold restore
  refine if_neg fun hmarker => ?_
  obtain ⟨hall, hspecial⟩ := (Bool.and_eq_true _ _).mp hmarker
  obtain ⟨qs, rfl, -⟩ := pieces_of_digits hall hps
  obtain ⟨hdigits, hlt⟩ := hex4_hexValue hall
  refine h _ hspecial ⟨[], qs, ?_⟩
  rw [spell, UInt16.toNat_ofNat_of_lt' hlt, hdigits]
  rfl

theorem sourceEscapeToKey_escaped {u : UInt16} (h : special u = true) (cs : List Char) :
    sourceEscapeToKey ('\\' :: 'u' :: hex4 u.toNat ++ cs) =
      replacement :: hex4 u.toNat ++ sourceEscapeToKey cs := by
  refine congrArg (· ++ sourceEscapeToKey cs) (if_pos ?_)
  rw [show [_, _, _, _] = hex4 u.toNat from rfl, hexValue_hex4 u.toNat_lt, UInt16.ofNat_toNat, h,
    List.all_eq_true.2 (isLowerHex_hex4 _)]
  rfl

/-- `n` characters are kept as they are, then the reader goes on. -/
theorem keep_tail {n : Nat} (hn : n ≤ 4)
    (ih : ∀ qs, qs <:+ ps →
      sourceEscapeToKey (qs.flatMap Piece.sourceText) = (reads .text qs).flatMap Piece.keyText) :
    (ps.flatMap Piece.sourceText).take n ++
        sourceEscapeToKey ((ps.flatMap Piece.sourceText).drop n) =
      (reads (if n = 0 then .text else .tail n) ps).flatMap Piece.keyText := by
  induction ps generalizing n with
  | nil => cases n <;> rfl
  | cons p ps ihps =>
    obtain _ | n := n
    · exact ih _ List.suffix_rfl
    have hps := ih ps (List.suffix_cons p ps)
    cases p with
    | char c =>
      have htail := ihps (n := n) (by omega) fun qs hqs => ih qs (hqs.trans (List.suffix_cons _ _))
      rw [show (Piece.char c :: ps).flatMap Piece.sourceText =
        c :: ps.flatMap Piece.sourceText from rfl, List.take_succ_cons, List.drop_succ_cons,
        List.cons_append, htail]
      cases n <;> rfl
    | escaped u =>
      -- the rest of the escape has no backslash in it
      have hcopy : ∀ k, sourceEscapeToKey
          (('u' :: hex4 u.toNat).drop k ++ ps.flatMap Piece.sourceText) =
          ('u' :: hex4 u.toNat).drop k ++ (reads .text ps).flatMap Piece.keyText := by
        intro k
        rw [sourceEscapeToKey_append, hps]
        intro c hc
        rcases List.mem_cons.1 (List.mem_of_mem_drop hc) with rfl | hc
        · decide
        · exact ne_backslash_of_lowerHex (isLowerHex_hex4 _ _ hc)
      have hspell : (spell u).flatMap Piece.keyText = '\\' :: 'u' :: hex4 u.toNat := rfl
      rw [if_neg (Nat.succ_ne_zero n), reads, List.flatMap_append, hspell]
      have hlt : n < 4 := hn
      interval_cases n
      · exact congrArg (['\\'] ++ ·) (hcopy 0)
      · exact congrArg (['\\', 'u'] ++ ·) (hcopy 1)
      · exact congrArg ('\\' :: 'u' :: (hex4 u.toNat).take 1 ++ ·) (hcopy 2)
      · exact congrArg ('\\' :: 'u' :: (hex4 u.toNat).take 2 ++ ·) (hcopy 3)

/-- Behind two backslashes, `u` and four digits are plain text, whichever
of the two they are read with. -/
theorem reads_backslash_of_marker (h : isMarker (ps.flatMap Piece.sourceText) = true) :
    reads .backslash ps = reads .text ps := by
  match htext : ps.flatMap Piece.sourceText with
  | [] | [_] | [_, _] | [_, _, _] | [_, _, _, _] => rw [htext] at h; exact nomatch h
  | c :: a :: b :: d :: e :: cs =>
    rw [htext, isMarker, Bool.and_eq_true, beq_iff_eq] at h
    obtain ⟨rfl, hall⟩ := h
    obtain ⟨qs, rfl, hqs⟩ := pieces_of_text (by decide) htext
    obtain ⟨qs, rfl, -⟩ := pieces_of_digits hall hqs
    have hne : ∀ c ∈ [a, b, d, e], c ≠ '\\' := fun c hc =>
      ne_backslash_of_lowerHex (List.all_eq_true.1 hall c hc)
    simp only [List.forall_mem_cons] at hne
    simp only [List.map_cons, List.map_nil, List.cons_append, List.nil_append, reads, Reading.next,
      if_true, hne.1, hne.2.1, hne.2.2.1, hne.2.2.2.1, if_false,
      if_neg (by decide : 'u' ≠ '\\')]

/-- The reader as one that goes from piece to piece. -/
theorem sourceEscapeToKey_eq (hwf : ∀ p ∈ ps, p.Wf) (h : Unspelled ps) :
    sourceEscapeToKey (ps.flatMap Piece.sourceText) = (reads .text ps).flatMap Piece.keyText := by
  induction hlen : ps.length using Nat.strong_induction_on generalizing ps with
  | _ n ih =>
  have ih' : ∀ qs, qs <:+ ps → qs.length < ps.length →
      sourceEscapeToKey (qs.flatMap Piece.sourceText) = (reads .text qs).flatMap Piece.keyText :=
    fun qs hqs hlt => ih qs.length (hlen ▸ hlt) (fun p hp => hwf p (hqs.subset hp))
      (h.of_suffix hqs) rfl
  match ps with
  | [] => rfl
  | .escaped u :: ps =>
    rw [Piece.flatMap_sourceText_escaped, sourceEscapeToKey_escaped (hwf _ List.mem_cons_self),
      ih' ps (List.suffix_cons _ _) (by simp), reads, Piece.flatMap_keyText_escaped]
    exact nofun
  | .char c :: ps =>
    have hps := ih' ps (List.suffix_cons _ _) (by simp)
    rw [Piece.flatMap_sourceText_char, reads, Piece.flatMap_keyText_char]
    by_cases hc : c = '\\'
    swap
    · rw [sourceEscapeToKey_cons hc, hps, Reading.next, if_neg hc]
    subst hc
    rw [Reading.next, if_pos rfl]
    match ps with
    | [] => rfl
    | .escaped u :: ps =>
      -- the first of two backslashes is data, the second one belongs to the escape
      have hmarker : isMarker ('u' :: hex4 u.toNat ++ ps.flatMap Piece.sourceText) = true :=
        List.all_eq_true.2 (isLowerHex_hex4 u.toNat)
      rw [Piece.flatMap_sourceText_escaped] at hps ⊢
      refine (sourceEscapeToKey_backslash _).trans ((if_pos hmarker).trans ?_)
      exact congrArg _ hps
    | .char e :: ps =>
      have hsuffix : ps <:+ .char '\\' :: .char e :: ps := ⟨[.char '\\', .char e], rfl⟩
      have hrest := ih' ps hsuffix (by simp only [List.length_cons]; omega)
      rw [Piece.flatMap_sourceText_char] at hps ⊢
      rw [reads, Piece.flatMap_keyText_char]
      by_cases he : e = '\\'
      · subst he
        rw [sourceEscapeToKey_backslash, Reading.next, if_neg (by decide : '\\' ≠ 'u')]
        split
        · next hmarker =>
          rw [hps, reads, Piece.flatMap_keyText_char, Reading.next, if_pos rfl,
            reads_backslash_of_marker hmarker]
        · rw [hrest]
      by_cases hu : e = 'u'
      · subst hu
        rw [sourceEscapeToKey_u fun a b d e ds hds => restore_of_unspelled h hds, Reading.next,
          if_pos rfl]
        refine congrArg (['\\', 'u'] ++ ·) (keep_tail le_rfl fun qs hqs => ?_)
        have := hqs.length_le
        exact ih' qs (hqs.trans hsuffix) (by simp only [List.length_cons]; omega)
      · rw [sourceEscapeToKey_other he hu, hrest, Reading.next, if_neg hu]

end Text

/-- The units of an escape that is spelled out. -/
def spelled (u : UInt16) : List UInt16 :=
  ('\\' :: 'u' :: hex4 u.toNat).map fun c => UInt16.ofNat c.toNat

/-- A spelled-out escape takes six units. -/
theorem not_spelled_of_short {us : List UInt16} (h : us.length < 6) (u : UInt16) :
    ¬spelled u <:+: us := by
  intro hi
  have : 6 ≤ us.length := hi.length_le
  omega

theorem units_spell (u : UInt16) : (spell u).flatMap Piece.units = spelled u := by
  have hsmall : ∀ c ∈ '\\' :: 'u' :: hex4 u.toNat, c.toNat ≤ 0xFFFF := by
    intro c hc
    rcases List.mem_cons.1 hc with rfl | hc
    · decide
    rcases List.mem_cons.1 hc with rfl | hc
    · decide
    have := isLowerHex_hex4 _ _ hc
    simp only [isLowerHex, Bool.or_eq_true, Bool.and_eq_true, decide_eq_true_eq] at this
    omega
  rw [spell, spelled, List.flatMap_map]
  generalize '\\' :: 'u' :: hex4 u.toNat = cs at hsmall
  induction cs with
  | nil => rfl
  | cons c cs ih =>
    obtain ⟨hc, hcs⟩ := List.forall_mem_cons.1 hsmall
    rw [List.flatMap_cons, ih hcs, List.map_cons, Piece.units, units, if_neg (by omega)]
    rfl

/-- A source without spelled-out escapes comes back from its text exactly
when no escape that is put in stands in the four characters behind a
`\u`. -/
theorem source_roundtrip_iff {us : List UInt16} (h : ∀ u, special u = true → ¬spelled u <:+: us) :
    decodeKey (sourceEscapeToKey (sourceEscape us)) = us ↔ ¬Swallows .text (pieces us) := by
  have hunspelled : Unspelled (pieces us) := by
    rintro u hu ⟨s, t, hst⟩
    refine h u hu ⟨s.flatMap Piece.units, t.flatMap Piece.units, ?_⟩
    rw [← units_spell, ← List.flatMap_append, ← List.flatMap_append, hst, units_pieces]
  have hwf := wf_pieces us
  rw [sourceEscape_eq, sourceEscapeToKey_eq hwf hunspelled, decodeKey_keyText (wf_reads hwf),
    ← units_reads_iff (r := .text), units_pieces]

/-- A lone surrogate behind a backslash. -/
theorem source_roundtrip_backslash :
    decodeKey (sourceEscapeToKey (sourceEscape [0x5C, 0xD800])) = [0x5C, 0xD800] := by
  refine (source_roundtrip_iff fun u _ => not_spelled_of_short (by decide) u).2 ?_
  simp [pieces, walk, special, isHigh, isLow, isSurrogate, Swallows, Reading.next]

/-- A lone surrogate behind `\u` comes back as the text of its escape. -/
theorem source_swallows_escape :
    (∀ u, special u = true → ¬spelled u <:+: [0x5C, 0x75, 0xD800]) ∧
      decodeKey (sourceEscapeToKey (sourceEscape [0x5C, 0x75, 0xD800])) =
        [0x5C, 0x75, 0x5C, 0x75, 0x64, 0x38, 0x30, 0x30] :=
  ⟨fun u _ => not_spelled_of_short (by decide) u, by decide⟩

end OxideJS.Types.KeyText
