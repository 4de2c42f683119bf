import Mathlib.Algebra.Order.Group.Nat
import Mathlib.Data.List.TakeWhile
import Mathlib.Data.Nat.Cast.Order.Basic

/-!
Base64 text and bytes.

A position in the text is the list of units that are still to be read; the
number of units read is what is missing of the whole length. The decoder
hands its bytes to a callback, which here is the list of bytes so far; it
keeps them when it fails.
-/

namespace OxideJS.Codec

inductive Base64Alphabet where
  | standard | url
  deriving DecidableEq

inductive LastChunkHandling where
  | loose | strict | stopBeforePartial
  deriving DecidableEq

structure DecodeConfig where
  alphabet : Base64Alphabet
  handling : LastChunkHandling
  maxLen : Option Nat
  deriving DecidableEq

/-- The bytes written, and the number of units read; `none` is an error. -/
structure Outcome where
  read : Option Nat
  bytes : List UInt8
  deriving DecidableEq

def isBase64Whitespace (u : Nat) : Bool :=
  u = 0x09 || u = 0x0A || u = 0x0C || u = 0x0D || u = 0x20

def base64Value (alphabet : Base64Alphabet) (u : Nat) : Option Nat :=
  if 0x41 ≤ u ∧ u ≤ 0x5a then some (u - 0x41)
  else if 0x61 ≤ u ∧ u ≤ 0x7a then some (u - 0x61 + 26)
  else if 0x30 ≤ u ∧ u ≤ 0x39 then some (u - 0x30 + 52)
  else if u = 0x2b ∧ alphabet = .standard then some 62
  else if u = 0x2f ∧ alphabet = .standard then some 63
  else if u = 0x2d ∧ alphabet = .url then some 62
  else if u = 0x5f ∧ alphabet = .url then some 63
  else none

/-- The sign `=`. -/
def pad : Nat := 0x3d

/-! ### The decoder -/

/-- The bits of a chunk of four values. -/
def packBits (a b c d : Nat) : Nat :=
  ((a <<< 6 ||| b) <<< 6 ||| c) <<< 6 ||| d

/-- The first bytes of 24 bits. -/
def chunkBytes (bits count : Nat) : List UInt8 :=
  ([bits >>> 16, bits >>> 8, bits].map UInt8.ofNat).take count

/-- The bytes of a chunk of four characters. -/
def decodeFullChunk (config : DecodeConfig) (a b c d : Nat) : Option (List UInt8) :=
  let value := base64Value config.alphabet
  if c = pad then
    if d = pad then do
      let a ← value a
      let b ← value b
      if config.handling = .strict ∧ b % 16 ≠ 0 then none
      else some (chunkBytes ((a <<< 6 ||| b) <<< 12) 1)
    else none
  else if d = pad then do
    let a ← value a
    let b ← value b
    let c ← value c
    if config.handling = .strict ∧ c % 4 ≠ 0 then none
    else some (chunkBytes (((a <<< 6 ||| b) <<< 6 ||| c) <<< 6) 2)
  else do
    let a ← value a
    let b ← value b
    let c ← value c
    let d ← value d
    some (chunkBytes (packBits a b c d) 3)

/-- The writes of the last chunk of two or three characters without padding. -/
def looseBytes : List Nat → List UInt8
  | [a, b] => [UInt8.ofNat (a <<< 2 ||| b >>> 4)]
  | [a, b, c] => [UInt8.ofNat (a <<< 2 ||| b >>> 4), UInt8.ofNat ((b <<< 4 ||| c >>> 2) &&& 0xFF)]
  | _ => []

def finishPartial (config : DecodeConfig) (chunk : List Nat) (bytes : List UInt8)
    (chunkStart read : Nat) : Outcome :=
  let failure : Outcome := ⟨none, bytes⟩
  let stop : Outcome := ⟨some chunkStart, bytes⟩
  if chunk.any (decide <| · = pad) then
    if chunk.length = 3 ∧ (chunk.reverse.takeWhile (decide <| · = pad)).length = 1 ∧
        config.handling = .stopBeforePartial then
      match (chunk.take 2).mapM (base64Value config.alphabet) with
      | none => failure
      | some _ => stop
    else failure
  else
    match chunk.mapM (base64Value config.alphabet) with
    | none => failure
    | some values =>
      match config.handling with
      | .stopBeforePartial => stop
      | .strict => failure
      | .loose =>
        if chunk.length = 1 then failure
        else if config.maxLen.any fun m => decide (m < bytes.length + chunk.length - 1) then stop
        else ⟨some read, bytes ++ looseBytes values⟩

/-- Up to `k` units that are not white space, and what is left behind them. -/
def collect : Nat → List Nat → List Nat × List Nat
  | 0, us => ([], us)
  | k + 1, us =>
    match us.dropWhile isBase64Whitespace with
    | [] => ([], [])
    | c :: rest => (c :: (collect k rest).1, (collect k rest).2)

/-- The loop over the chunks; `fuel` is more than the units left, and every chunk takes four. -/
def decodeLoop (config : DecodeConfig) (total : Nat) : Nat → List Nat → List UInt8 → Outcome
  | 0, _, bytes => ⟨none, bytes⟩
  | fuel + 1, us, bytes =>
    match collect 4 us with
    | ([], rest) => ⟨some (total - rest.length), bytes⟩
    | ([a, b, c, d], rest) =>
      if (c = pad ∨ d = pad) ∧ rest.any (!isBase64Whitespace ·) then ⟨none, bytes⟩
      else
        match decodeFullChunk config a b c d with
        | none => ⟨none, bytes⟩
        | some out =>
          if config.maxLen.any fun m => decide (m < bytes.length + out.length) then
            ⟨some (total - us.length), bytes⟩
          else if config.maxLen = some (bytes.length + out.length) then
            ⟨some (total - rest.length), bytes ++ out⟩
          else decodeLoop config total fuel rest (bytes ++ out)
    | (chunk, rest) =>
      finishPartial config chunk bytes (total - us.length) (total - rest.length)

def decodeBase64 (config : DecodeConfig) (units : List Nat) : Outcome :=
  if config.maxLen = some 0 then ⟨some 0, []⟩
  else decodeLoop config units.length (units.length + 1) units []

/-! ### The specification's FromBase64 -/

namespace Spec

/-- `ABC…Zabc…z0123456789+/`. -/
def standardAlphabet : List Nat :=
  List.range' 0x41 26 ++ List.range' 0x61 26 ++ List.range' 0x30 10 ++ [0x2b, 0x2f]

/-- The place of a character in the alphabet, after the characters of the URL alphabet are
replaced. -/
def value (alphabet : Base64Alphabet) (u : Nat) : Option Nat :=
  match alphabet with
  | .standard => standardAlphabet.idxOf? u
  | .url =>
    if u = 0x2b ∨ u = 0x2f then none
    else standardAlphabet.idxOf? (if u = 0x2d then 0x2b else if u = 0x5f then 0x2f else u)

/-- DecodeFullLengthBase64Chunk. -/
def decodeFullLength (chunk : List Nat) : List UInt8 :=
  match chunk with
  | [a, b, c, d] => chunkBytes (packBits a b c d) 3
  | _ => []

/-- DecodeFinalBase64Chunk: the chunk is filled with `A`. -/
def decodeFinal (chunk : List Nat) (throwOnExtraBits : Bool) : Option (List UInt8) :=
  let bytes := decodeFullLength (chunk ++ List.replicate (4 - chunk.length) 0)
  let count := chunk.length - 1
  if throwOnExtraBits ∧ bytes[count]?.getD 0 ≠ 0 then none else some (bytes.take count)

/-- What follows the first `=`. -/
def padded (config : DecodeConfig) (total : Nat) (us : List Nat) (chunk : List Nat)
    (bytes : List UInt8) (read : Nat) : Outcome :=
  let us := us.dropWhile isBase64Whitespace
  if chunk.length < 2 then ⟨none, bytes⟩
  else if chunk.length = 2 ∧ us = [] then
    if config.handling = .stopBeforePartial then ⟨some read, bytes⟩ else ⟨none, bytes⟩
  else
    let us := if chunk.length = 2 ∧ us.head? = some pad then us.tail.dropWhile isBase64Whitespace
      else us
    if us ≠ [] then ⟨none, bytes⟩
    else
      match decodeFinal chunk (config.handling = .strict) with
      | none => ⟨none, bytes⟩
      | some out => ⟨some total, bytes ++ out⟩

/-- The values of the chunk, the bytes so far and the position after the last full chunk are the
state between two characters. -/
def fromLoop (config : DecodeConfig) (total : Nat) :
    List Nat → List Nat → List UInt8 → Nat → Outcome
  | [], chunk, bytes, read =>
    if chunk = [] then ⟨some total, bytes⟩
    else
      match config.handling with
      | .stopBeforePartial => ⟨some read, bytes⟩
      | .strict => ⟨none, bytes⟩
      | .loose =>
        if chunk.length = 1 then ⟨none, bytes⟩
        else ⟨some total, bytes ++ (decodeFinal chunk false).getD []⟩
  | u :: us, chunk, bytes, read =>
    if isBase64Whitespace u then fromLoop config total us chunk bytes read
    else if u = pad then padded config total us chunk bytes read
    else
      match value config.alphabet u with
      | none => ⟨none, bytes⟩
      | some v =>
        let remaining := config.maxLen.map (· - bytes.length)
        if remaining = some 1 ∧ chunk.length = 2 ∨ remaining = some 2 ∧ chunk.length = 3 then
          ⟨some read, bytes⟩
        else if chunk.length = 3 then
          let bytes := bytes ++ decodeFullLength (chunk ++ [v])
          if config.maxLen = some bytes.length then ⟨some (total - us.length), bytes⟩
          else fromLoop config total us [] bytes (total - us.length)
        else fromLoop config total us (chunk ++ [v]) bytes read

/-- An absent limit is the largest length, which no text reaches. -/
def fromBase64 (config : DecodeConfig) (units : List Nat) : Outcome :=
  if config.maxLen = some 0 then ⟨some 0, []⟩
  else fromLoop config units.length units [] [] 0

end Spec

/-! ### Where the two differ -/

section Differs

variable (config : DecodeConfig)

def IsData (u : Nat) : Prop :=
  (base64Value config.alphabet u).isSome = true

instance (u : Nat) : Decidable (IsData config u) :=
  inferInstanceAs (Decidable (_ = true))

/-- In strict handling, bits of the last character that no byte takes. -/
def ExtraBits (u unused : Nat) : Prop :=
  config.handling = .strict ∧ ((base64Value config.alphabet u).getD 0) % unused ≠ 0

/-- There is room for one byte, so that a third character decides; the code looks at the fourth
one, and refuses it or its absence. -/
def LooksAhead : List Nat → Prop
  | [a, b, c] => IsData config a ∧ IsData config b ∧ IsData config c ∧ config.handling = .strict
  | a :: b :: c :: d :: rest =>
    IsData config a ∧ IsData config b ∧ IsData config c ∧ ¬ IsData config d ∧
    (d ≠ pad ∨ rest ≠ [] ∨ ExtraBits config c 4)
  | _ => False

/-- A padded chunk that fills the room. -/
def FillsPadded (room : Nat) : List Nat → Prop
  | [a, b, c, d] =>
    IsData config a ∧ IsData config b ∧ d = pad ∧
    (room = 1 ∧ c = pad ∧ ¬ ExtraBits config b 16 ∨
      room = 2 ∧ IsData config c ∧ ¬ ExtraBits config c 4)
  | _ => False

/-- The characters of a text. -/
def characters (us : List Nat) : List Nat :=
  us.filter (!isBase64Whitespace ·)

/-- `room` bytes are wanted of a text: the full chunks in front are data, and the next chunk is
one that the code treats in its own way. -/
def Differs (room : Nat) (us : List Nat) : Prop :=
  (∀ u ∈ (characters us).take (4 * (room / 3)), IsData config u) ∧
  (room % 3 = 1 ∧ LooksAhead config ((characters us).drop (4 * (room / 3))) ∨
    us.getLast?.any isBase64Whitespace = true ∧
      FillsPadded config (room % 3) ((characters us).drop (4 * (room / 3))))

end Differs

/-! ### Values -/

theorem Spec.value_eq (alphabet : Base64Alphabet) (u : Nat) :
    Spec.value alphabet u = base64Value alphabet u := by
  by_cases hu : u < 128
  · have hall : ∀ alphabet ∈ [Base64Alphabet.standard, .url], ∀ u < 128,
        Spec.value alphabet u = base64Value alphabet u := by
      decide +kernel
    exact hall alphabet (by cases alphabet <;> simp) u hu
  · have hlt : ∀ v ∈ Spec.standardAlphabet, v < 128 := by decide
    have hnone : Spec.standardAlphabet.idxOf? u = none :=
      List.idxOf?_eq_none_iff.mpr fun hmem => hu (hlt u hmem)
    have hval : base64Value alphabet u = none := by
      unfold base64Value
      repeat rw [if_neg (by omega)]
    rw [hval]
    cases alphabet with
    | standard => exact hnone
    | url =>
      rw [Spec.value, if_neg (by omega), if_neg (by omega), if_neg (by omega), hnone]

theorem base64Value_spec {alphabet : Base64Alphabet} {u v : Nat}
    (h : base64Value alphabet u = some v) :
    v < 64 ∧ u ≠ pad ∧ isBase64Whitespace u = false := by
  have hrange : 0x2b ≤ u ∧ u ≠ pad ∧ v < 64 := by
    unfold base64Value at h
    unfold pad
    repeat' split at h
    all_goals simp only [Option.some.injEq, reduceCtorEq] at h
    all_goals omega
  refine ⟨hrange.2.2, hrange.2.1, ?_⟩
  simp only [isBase64Whitespace, Bool.or_eq_false_iff, decide_eq_false_iff_not]
  omega

theorem or_eq_add (a : Nat) {b k : Nat} (hb : b < 2 ^ k) : a <<< k ||| b = a * 2 ^ k + b := by
  rw [← Nat.shiftLeft_add_eq_or_of_lt hb, Nat.shiftLeft_eq]

theorem ofNat_congr {x y : Nat} (h : x % 256 = y % 256) : UInt8.ofNat x = UInt8.ofNat y := by
  rw [← UInt8.toNat_inj, UInt8.toNat_ofNat', UInt8.toNat_ofNat']
  exact h

theorem ofNat_eq_zero_iff (x : Nat) : UInt8.ofNat x = 0 ↔ x % 256 = 0 := by
  rw [← UInt8.toNat_inj, UInt8.toNat_ofNat']
  exact Iff.rfl

/-- The bits of a chunk as a sum. -/
theorem packBits_eq {a b c d : Nat} (hb : b < 64) (hc : c < 64) (hd : d < 64) :
    packBits a b c d = ((a * 64 + b) * 64 + c) * 64 + d := by
  have hshift (x : Nat) {y : Nat} (hy : y < 64) : x <<< 6 ||| y = x * 64 + y :=
    or_eq_add x (k := 6) hy
  rw [packBits, hshift a hb, hshift _ hc, hshift _ hd]

section Final

variable {a b c : Nat}

theorem decodeFinal_two (hb : b < 64) (throwOnExtraBits : Bool) :
    Spec.decodeFinal [a, b] throwOnExtraBits =
      if throwOnExtraBits = true ∧ b % 16 ≠ 0 then none
      else some (chunkBytes ((a <<< 6 ||| b) <<< 12) 1) := by
  have hbits : (a <<< 6 ||| b) <<< 12 = packBits a b 0 0 := by
    rw [packBits_eq hb (by decide) (by decide), @or_eq_add a b 6 hb, Nat.shiftLeft_eq]
    omega
  have hextra : (packBits a b 0 0 >>> 8) % 256 = 0 ↔ b % 16 = 0 := by
    rw [packBits_eq hb (by decide) (by decide), Nat.shiftRight_eq_div_pow]
    omega
  rw [hbits]
  simp [Spec.decodeFinal, Spec.decodeFullLength, chunkBytes, ofNat_eq_zero_iff, hextra]

theorem decodeFinal_three (hb : b < 64) (hc : c < 64) (throwOnExtraBits : Bool) :
    Spec.decodeFinal [a, b, c] throwOnExtraBits =
      if throwOnExtraBits = true ∧ c % 4 ≠ 0 then none
      else some (chunkBytes (((a <<< 6 ||| b) <<< 6 ||| c) <<< 6) 2) := by
  have hbits : ((a <<< 6 ||| b) <<< 6 ||| c) <<< 6 = packBits a b c 0 := by
    rw [packBits, Nat.or_zero]
  have hextra : packBits a b c 0 % 256 = 0 ↔ c % 4 = 0 := by
    rw [packBits_eq hb hc (by decide)]
    omega
  rw [hbits]
  simp [Spec.decodeFinal, Spec.decodeFullLength, chunkBytes, ofNat_eq_zero_iff, hextra]

theorem looseBytes_two (hb : b < 64) :
    looseBytes [a, b] = (Spec.decodeFinal [a, b] false).getD [] := by
  have hfirst : a <<< 2 ||| b >>> 4 = (a <<< 6 ||| b) <<< 12 >>> 16 := by
    have hlow : b >>> 4 < 2 ^ 2 := by
      rw [Nat.shiftRight_eq_div_pow]
      omega
    rw [or_eq_add a hlow, @or_eq_add a b 6 hb, Nat.shiftLeft_eq, Nat.shiftRight_eq_div_pow,
      Nat.shiftRight_eq_div_pow]
    omega
  rw [decodeFinal_two hb, looseBytes, hfirst]
  simp [chunkBytes]

theorem looseBytes_three (hb : b < 64) (hc : c < 64) :
    looseBytes [a, b, c] = (Spec.decodeFinal [a, b, c] false).getD [] := by
  have hfirst : a <<< 2 ||| b >>> 4 = ((a <<< 6 ||| b) <<< 6 ||| c) <<< 6 >>> 16 := by
    have hlow : b >>> 4 < 2 ^ 2 := by
      rw [Nat.shiftRight_eq_div_pow]
      omega
    rw [or_eq_add a hlow, @or_eq_add a b 6 hb, @or_eq_add _ c 6 hc, Nat.shiftLeft_eq,
      Nat.shiftRight_eq_div_pow, Nat.shiftRight_eq_div_pow]
    omega
  have hsecond : ((b <<< 4 ||| c >>> 2) &&& 0xFF) % 256
      = (((a <<< 6 ||| b) <<< 6 ||| c) <<< 6 >>> 8) % 256 := by
    have hlow : c >>> 2 < 2 ^ 4 := by
      rw [Nat.shiftRight_eq_div_pow]
      omega
    rw [Nat.and_two_pow_sub_one_eq_mod _ 8, or_eq_add b hlow, @or_eq_add a b 6 hb,
      @or_eq_add _ c 6 hc, Nat.shiftLeft_eq, Nat.shiftRight_eq_div_pow, Nat.shiftRight_eq_div_pow]
    omega
  rw [decodeFinal_three hb hc, looseBytes, hfirst, ofNat_congr hsecond]
  simp [chunkBytes]

end Final

/-! ### White space -/

theorem not_whitespace_of_dropWhile {us rest : List Nat} {c : Nat}
    (h : us.dropWhile isBase64Whitespace = c :: rest) : isBase64Whitespace c = false := by
  have hhead := List.head?_dropWhile_not isBase64Whitespace us
  rw [h] at hhead
  simpa using hhead

theorem fromLoop_dropWhile (config : DecodeConfig) (total : Nat) (us chunk : List Nat)
    (bytes : List UInt8) (read : Nat) :
    Spec.fromLoop config total us chunk bytes read =
      Spec.fromLoop config total (us.dropWhile isBase64Whitespace) chunk bytes read := by
  induction us with
  | nil => rfl
  | cons u us ih =>
    by_cases hu : isBase64Whitespace u = true
    · rw [List.dropWhile_cons_of_pos hu, ← ih, Spec.fromLoop, if_pos hu]
    · rw [List.dropWhile_cons_of_neg hu]

section Skip

variable {us rest : List Nat} {c : Nat}

theorem characters_of_nil (h : us.dropWhile isBase64Whitespace = []) : characters us = [] := by
  rw [characters, List.filter_eq_nil_iff]
  intro u hu
  simp [List.dropWhile_eq_nil_iff.mp h u hu]

theorem characters_of_cons (h : us.dropWhile isBase64Whitespace = c :: rest) :
    characters us = c :: characters rest := by
  have hws : characters (us.takeWhile isBase64Whitespace) = [] := by
    rw [characters, List.filter_eq_nil_iff]
    intro u hu
    simp [List.mem_takeWhile_imp hu]
  have hus : us = us.takeWhile isBase64Whitespace ++ c :: rest := by
    rw [← h, List.takeWhile_append_dropWhile]
  rw [hus, characters, List.filter_append]
  rw [characters] at hws
  rw [hws, List.nil_append, List.filter_cons, not_whitespace_of_dropWhile h]
  rfl

/-- The text ends with white space. -/
def endsWhite (us : List Nat) : Bool :=
  us.getLast?.any isBase64Whitespace

theorem endsWhite_of_cons (h : us.dropWhile isBase64Whitespace = c :: rest) :
    endsWhite us = endsWhite rest := by
  have hus : us = us.takeWhile isBase64Whitespace ++ c :: rest := by
    rw [← h, List.takeWhile_append_dropWhile]
  rw [endsWhite, hus, List.getLast?_append,
    List.getLast?_eq_some_getLast (List.cons_ne_nil c rest), Option.some_or,
    ← List.getLast?_eq_some_getLast (List.cons_ne_nil c rest)]
  cases rest with
  | nil => simp [endsWhite, not_whitespace_of_dropWhile h]
  | cons d rest => rw [List.getLast?_cons_cons, endsWhite]

theorem endsWhite_of_nil (h : us.dropWhile isBase64Whitespace = []) :
    endsWhite us = true ↔ us ≠ [] := by
  cases us with
  | nil => simp [endsWhite]
  | cons u us =>
    have hlast := List.dropWhile_eq_nil_iff.mp h _ (List.getLast_mem (List.cons_ne_nil u us))
    simp [endsWhite, List.getLast?_eq_some_getLast (List.cons_ne_nil u us), hlast]

theorem length_lt_of_cons (h : us.dropWhile isBase64Whitespace = c :: rest) :
    rest.length < us.length := by
  have hle := (List.dropWhile_suffix isBase64Whitespace (l := us)).length_le
  rw [h, List.length_cons] at hle
  exact hle

theorem any_not_whitespace (us : List Nat) :
    us.any (!isBase64Whitespace ·) = true ↔ us.dropWhile isBase64Whitespace ≠ [] := by
  rw [ne_eq, List.dropWhile_eq_nil_iff]
  simp

end Skip

/-! ### One character of the specification -/

section Character

variable {config : DecodeConfig} {total : Nat} {us rest chunk : List Nat} {bytes : List UInt8}
  {read c v : Nat}

theorem fromLoop_data (h : us.dropWhile isBase64Whitespace = c :: rest)
    (hv : base64Value config.alphabet c = some v) :
    Spec.fromLoop config total us chunk bytes read =
      let remaining := config.maxLen.map (· - bytes.length)
      if remaining = some 1 ∧ chunk.length = 2 ∨ remaining = some 2 ∧ chunk.length = 3 then
        ⟨some read, bytes⟩
      else if chunk.length = 3 then
        let bytes := bytes ++ Spec.decodeFullLength (chunk ++ [v])
        if config.maxLen = some bytes.length then ⟨some (total - rest.length), bytes⟩
        else Spec.fromLoop config total rest [] bytes (total - rest.length)
      else Spec.fromLoop config total rest (chunk ++ [v]) bytes read := by
  have hspec := base64Value_spec hv
  rw [fromLoop_dropWhile, h, Spec.fromLoop, if_neg (by simp [hspec.2.2]), if_neg hspec.2.1,
    Spec.value_eq, hv]

theorem fromLoop_pad (h : us.dropWhile isBase64Whitespace = pad :: rest) :
    Spec.fromLoop config total us chunk bytes read =
      Spec.padded config total rest chunk bytes read := by
  rw [fromLoop_dropWhile, h, Spec.fromLoop, if_neg (by decide), if_pos rfl]

theorem fromLoop_bad (h : us.dropWhile isBase64Whitespace = c :: rest) (hc : c ≠ pad)
    (hv : base64Value config.alphabet c = none) :
    Spec.fromLoop config total us chunk bytes read = ⟨none, bytes⟩ := by
  rw [fromLoop_dropWhile, h, Spec.fromLoop,
    if_neg (by simp [not_whitespace_of_dropWhile h]), if_neg hc, Spec.value_eq, hv]

/-- Nothing but data may be among the first two characters of a chunk. -/
theorem fromLoop_early (h : us.dropWhile isBase64Whitespace = c :: rest)
    (hv : base64Value config.alphabet c = none) (hchunk : chunk.length < 2) :
    Spec.fromLoop config total us chunk bytes read = ⟨none, bytes⟩ := by
  by_cases hc : c = pad
  · subst hc
    rw [fromLoop_pad h, Spec.padded, if_pos hchunk]
  · exact fromLoop_bad h hc hv

theorem fromLoop_nil (h : us.dropWhile isBase64Whitespace = []) :
    Spec.fromLoop config total us chunk bytes read =
      Spec.fromLoop config total [] chunk bytes read := by
  rw [fromLoop_dropWhile, h]

end Character

end OxideJS.Codec
