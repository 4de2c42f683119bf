import OxideJS.Codec.FromBase64

/-!
Base64 text of bytes, and back.
-/

namespace OxideJS.Codec

def b64Table : Base64Alphabet → List Nat
  | .standard =>
    List.range' 0x41 26 ++ List.range' 0x61 26 ++ List.range' 0x30 10 ++ [0x2b, 0x2f]
  | .url => List.range' 0x41 26 ++ List.range' 0x61 26 ++ List.range' 0x30 10 ++ [0x2d, 0x5f]

section Encode

variable (alphabet : Base64Alphabet) (omitPadding : Bool)

def digit (i : Nat) : Nat :=
  (b64Table alphabet).getD i 0

/-- The padding in the place of a character. -/
def padding : List Nat :=
  if omitPadding then [] else [pad]

/-- The characters of a group of one, two or three bytes. -/
def encodeChunk (x : UInt8) (y z : Option UInt8) : List Nat :=
  let bits := x.toNat <<< 16 ||| (y.getD 0).toNat <<< 8 ||| (z.getD 0).toNat
  [digit alphabet (bits >>> 18), digit alphabet ((bits >>> 12) &&& 0x3f)] ++
    (if y.isSome then [digit alphabet ((bits >>> 6) &&& 0x3f)] else padding omitPadding) ++
    if z.isSome then [digit alphabet (bits &&& 0x3f)] else padding omitPadding

def encodeBase64 : List UInt8 → List Nat
  | [] => []
  | [x] => encodeChunk alphabet omitPadding x none none
  | [x, y] => encodeChunk alphabet omitPadding x (some y) none
  | x :: y :: z :: rest =>
    encodeChunk alphabet omitPadding x (some y) (some z) ++ encodeBase64 rest

end Encode

/-! ### Digits -/

theorem base64Value_digit (alphabet : Base64Alphabet) {i : Nat} (hi : i < 64) :
    base64Value alphabet (digit alphabet i) = some i := by
  have hall : ∀ alphabet ∈ [Base64Alphabet.standard, .url], ∀ i < 64,
      base64Value alphabet (digit alphabet i) = some i := by
    decide +kernel
  exact hall alphabet (by cases alphabet <;> simp) i hi

theorem dropWhile_digit (alphabet : Base64Alphabet) {i : Nat} (hi : i < 64) (rest : List Nat) :
    (digit alphabet i :: rest).dropWhile isBase64Whitespace = digit alphabet i :: rest := by
  refine List.dropWhile_cons_of_neg ?_
  simp [(base64Value_spec (base64Value_digit alphabet hi)).2.2]

theorem bits_eq (x y z : UInt8) :
    x.toNat <<< 16 ||| y.toNat <<< 8 ||| z.toNat = (x.toNat * 256 + y.toNat) * 256 + z.toNat := by
  have hy := y.toNat_lt
  have hz := z.toNat_lt
  have hlow : y.toNat <<< 8 < 2 ^ 16 := by
    rw [Nat.shiftLeft_eq]
    omega
  have hhigh : x.toNat <<< 16 ||| y.toNat <<< 8 = (x.toNat * 256 + y.toNat) <<< 8 := by
    rw [or_eq_add _ hlow, Nat.shiftLeft_eq, Nat.shiftLeft_eq]
    omega
  rw [hhigh]
  exact or_eq_add _ (k := 8) hz

theorem ofNat_of_mod {n : Nat} {x : UInt8} (h : n % 256 = x.toNat) : UInt8.ofNat n = x := by
  rw [← UInt8.toNat_inj, UInt8.toNat_ofNat']
  exact h

/-- The four digits of a number of 24 bits. -/
structure Digits (bits a b c d : Nat) : Prop where
  first : a = bits / 262144
  second : b = bits / 4096 % 64
  third : c = bits / 64 % 64
  fourth : d = bits % 64
  bound : bits < 16777216

section Groups

variable {bits a b c d : Nat} (h : Digits bits a b c d)

include h

theorem Digits.lt : a < 64 ∧ b < 64 ∧ c < 64 ∧ d < 64 := by
  obtain ⟨rfl, rfl, rfl, rfl, hbound⟩ := h
  omega

theorem Digits.packBits_eq : packBits a b c d = bits := by
  obtain ⟨-, hb, hc, hd⟩ := h.lt
  rw [Codec.packBits_eq hb hc hd]
  obtain ⟨rfl, rfl, rfl, rfl, hbound⟩ := h
  omega

end Groups

theorem digits_bits (x y z : UInt8) :
    let bits := x.toNat <<< 16 ||| y.toNat <<< 8 ||| z.toNat
    Digits bits (bits >>> 18) ((bits >>> 12) &&& 0x3f) ((bits >>> 6) &&& 0x3f) (bits &&& 0x3f) := by
  have hx := x.toNat_lt
  have hy := y.toNat_lt
  have hz := z.toNat_lt
  intro bits
  have hbits : bits = (x.toNat * 256 + y.toNat) * 256 + z.toNat := bits_eq x y z
  refine ⟨?_, ?_, ?_, ?_, by omega⟩ <;>
    simp only [Nat.shiftRight_eq_div_pow, Nat.and_two_pow_sub_one_eq_mod _ 6]

theorem chunkBytes_bits (x y z : UInt8) :
    chunkBytes (x.toNat <<< 16 ||| y.toNat <<< 8 ||| z.toNat) 3 = [x, y, z] := by
  have hx := x.toNat_lt
  have hy := y.toNat_lt
  have hz := z.toNat_lt
  rw [bits_eq]
  have hfirst : UInt8.ofNat (((x.toNat * 256 + y.toNat) * 256 + z.toNat) >>> 16) = x := by
    refine ofNat_of_mod ?_
    rw [Nat.shiftRight_eq_div_pow]
    omega
  have hsecond : UInt8.ofNat (((x.toNat * 256 + y.toNat) * 256 + z.toNat) >>> 8) = y := by
    refine ofNat_of_mod ?_
    rw [Nat.shiftRight_eq_div_pow]
    omega
  have hthird : UInt8.ofNat ((x.toNat * 256 + y.toNat) * 256 + z.toNat) = z := by
    refine ofNat_of_mod ?_
    omega
  simp [chunkBytes, hfirst, hsecond, hthird]

/-! ### Decoding an encoded text -/

section Decode

variable {alphabet : Base64Alphabet} {handling : LastChunkHandling} {total fuel : Nat}
  {acc : List UInt8}

theorem room_none : room ⟨alphabet, handling, none⟩ acc = none := rfl

/-- A chunk of text that stands for bytes goes to the bytes. -/
theorem decodeLoop_chunk {a b c d : Nat} {out : List UInt8} {rest : List Nat}
    (ha : isBase64Whitespace a = false) (hb : isBase64Whitespace b = false)
    (hc : isBase64Whitespace c = false) (hd : isBase64Whitespace d = false)
    (hlast : c = pad ∨ d = pad → rest = [])
    (hcode : decodeFullChunk ⟨alphabet, handling, none⟩ a b c d = some out) :
    decodeLoop ⟨alphabet, handling, none⟩ total (fuel + 1) (a :: b :: c :: d :: rest) acc =
      decodeLoop ⟨alphabet, handling, none⟩ total fuel rest (acc ++ out) := by
  rw [decodeLoop_four (List.dropWhile_cons_of_neg (by simp [ha]))
    (List.dropWhile_cons_of_neg (by simp [hb])) (List.dropWhile_cons_of_neg (by simp [hc]))
    (List.dropWhile_cons_of_neg (by simp [hd])) (by simp), hcode, if_neg]
  · rfl
  · rintro ⟨hpad, hrest⟩
    rw [hlast hpad] at hrest
    exact hrest rfl

theorem digit_not_whitespace {i : Nat} (hi : i < 64) :
    isBase64Whitespace (digit alphabet i) = false :=
  (base64Value_spec (base64Value_digit alphabet hi)).2.2

theorem digit_ne_pad {i : Nat} (hi : i < 64) : digit alphabet i ≠ pad :=
  (base64Value_spec (base64Value_digit alphabet hi)).2.1

theorem decodeLoop_group (x y z : UInt8) (rest : List Nat) (omitPadding : Bool) :
    decodeLoop ⟨alphabet, handling, none⟩ total (fuel + 1)
        (encodeChunk alphabet omitPadding x (some y) (some z) ++ rest) acc =
      decodeLoop ⟨alphabet, handling, none⟩ total fuel rest (acc ++ [x, y, z]) := by
  have hdigits := digits_bits x y z
  have hbytes := chunkBytes_bits x y z
  have hlt := hdigits.lt
  simp only [encodeChunk, Option.getD_some, Option.isSome_some, if_true, List.cons_append,
    List.nil_append]
  refine decodeLoop_chunk (digit_not_whitespace hlt.1) (digit_not_whitespace hlt.2.1)
    (digit_not_whitespace hlt.2.2.1) (digit_not_whitespace hlt.2.2.2) ?_ ?_
  · rintro (h | h)
    · exact absurd h (digit_ne_pad hlt.2.2.1)
    · exact absurd h (digit_ne_pad hlt.2.2.2)
  · simp [decodeFullChunk, digit_ne_pad hlt.2.2.1, digit_ne_pad hlt.2.2.2,
      base64Value_digit alphabet hlt.1, base64Value_digit alphabet hlt.2.1,
      base64Value_digit alphabet hlt.2.2.1, base64Value_digit alphabet hlt.2.2.2,
      hdigits.packBits_eq, hbytes]

theorem chunkBytes_take (bits : Nat) {k : Nat} (hk : k ≤ 3) :
    chunkBytes bits k = (chunkBytes bits 3).take k := by
  rw [chunkBytes, chunkBytes, List.take_take, Nat.min_eq_left hk]

/-- The digits of two bytes: the fourth one is zero, and so are the low bits of the third. -/
theorem digits_two (x y : UInt8) :
    ∃ i j k, i < 64 ∧ j < 64 ∧ k < 64 ∧ k % 4 = 0 ∧
      chunkBytes (((i <<< 6 ||| j) <<< 6 ||| k) <<< 6) 2 = [x, y] ∧
      ∀ omitPadding, encodeChunk alphabet omitPadding x (some y) none =
        digit alphabet i :: digit alphabet j :: digit alphabet k :: padding omitPadding := by
  have hdigits := digits_bits x y 0
  have hbytes := chunkBytes_bits x y 0
  have hbits := bits_eq x y 0
  have hnil : (0 : UInt8).toNat = 0 := rfl
  have hlt := hdigits.lt
  have hlast : (x.toNat <<< 16 ||| y.toNat <<< 8 ||| (0 : UInt8).toNat) &&& 0x3f = 0 := by
    have := hdigits.fourth
    omega
  refine ⟨_, _, _, hlt.1, hlt.2.1, hlt.2.2.1, ?_, ?_, fun omitPadding => ?_⟩
  · have := hdigits.third
    omega
  · have hpack := hdigits.packBits_eq
    rw [hlast, packBits, Nat.or_zero] at hpack
    rw [hpack, chunkBytes_take _ (by decide), hbytes]
    rfl
  · rfl

theorem digits_one (x : UInt8) :
    ∃ i j, i < 64 ∧ j < 64 ∧ j % 16 = 0 ∧
      chunkBytes ((i <<< 6 ||| j) <<< 12) 1 = [x] ∧
      ∀ omitPadding, encodeChunk alphabet omitPadding x none none =
        digit alphabet i :: digit alphabet j :: (padding omitPadding ++ padding omitPadding) := by
  have hdigits := digits_bits x 0 0
  have hbytes := chunkBytes_bits x 0 0
  have hbits := bits_eq x 0 0
  have hnil : (0 : UInt8).toNat = 0 := rfl
  have hlt := hdigits.lt
  have hthird : ((x.toNat <<< 16 ||| (0 : UInt8).toNat <<< 8 ||| (0 : UInt8).toNat) >>> 6) &&& 0x3f
      = 0 := by
    have := hdigits.third
    omega
  have hfourth : (x.toNat <<< 16 ||| (0 : UInt8).toNat <<< 8 ||| (0 : UInt8).toNat) &&& 0x3f
      = 0 := by
    have := hdigits.fourth
    omega
  refine ⟨_, _, hlt.1, hlt.2.1, ?_, ?_, fun omitPadding => ?_⟩
  · have := hdigits.second
    omega
  · have hpack := hdigits.packBits_eq
    rw [hthird, hfourth, packBits, Nat.or_zero, Nat.or_zero, ← Nat.shiftLeft_add] at hpack
    rw [hpack, chunkBytes_take _ (by decide), hbytes]
    rfl
  · rfl

/-- One or two bytes at the end, with padding. -/
theorem decodeLoop_one_padded (x : UInt8) :
    decodeLoop ⟨alphabet, handling, none⟩ total (fuel + 2)
      (encodeChunk alphabet false x none none) acc = ⟨some total, acc ++ [x]⟩ := by
  obtain ⟨i, j, hi, hj, hextra, hbytes, htext⟩ := @digits_one alphabet x
  rw [htext]
  refine (decodeLoop_chunk (digit_not_whitespace hi) (digit_not_whitespace hj) (by decide)
    (by decide) (fun _ => rfl) ?_).trans (decodeLoop_nil rfl)
  simp [decodeFullChunk, base64Value_digit alphabet hi, base64Value_digit alphabet hj, hextra,
    hbytes]

theorem decodeLoop_two_padded (x y : UInt8) :
    decodeLoop ⟨alphabet, handling, none⟩ total (fuel + 2)
      (encodeChunk alphabet false x (some y) none) acc = ⟨some total, acc ++ [x, y]⟩ := by
  obtain ⟨i, j, k, hi, hj, hk, hextra, hbytes, htext⟩ := @digits_two alphabet x y
  rw [htext]
  refine (decodeLoop_chunk (digit_not_whitespace hi) (digit_not_whitespace hj)
    (digit_not_whitespace hk) (by decide) (fun _ => rfl) ?_).trans (decodeLoop_nil rfl)
  simp [decodeFullChunk, digit_ne_pad hk, base64Value_digit alphabet hi,
    base64Value_digit alphabet hj, base64Value_digit alphabet hk, hextra, hbytes]

/-- One or two bytes at the end, without padding. -/
theorem decodeLoop_one_loose (x : UInt8) :
    decodeLoop ⟨alphabet, .loose, none⟩ total (fuel + 1)
      (encodeChunk alphabet true x none none) acc = ⟨some total, acc ++ [x]⟩ := by
  obtain ⟨i, j, hi, hj, hextra, hbytes, htext⟩ := @digits_one alphabet x
  have h1 := dropWhile_digit alphabet hi [digit alphabet j]
  have h2 := dropWhile_digit alphabet hj []
  rw [htext, show padding true ++ padding true = [] from rfl, partial_two h1 h2 rfl (by simp),
    fromLoop_two h1 h2 (base64Value_digit alphabet hi) (base64Value_digit alphabet hj),
    Spec.fromLoop, decodeFinal_two hj, hbytes]
  simp

theorem decodeLoop_two_loose (x y : UInt8) :
    decodeLoop ⟨alphabet, .loose, none⟩ total (fuel + 1)
      (encodeChunk alphabet true x (some y) none) acc = ⟨some total, acc ++ [x, y]⟩ := by
  obtain ⟨i, j, k, hi, hj, hk, hextra, hbytes, htext⟩ := @digits_two alphabet x y
  have h1 := dropWhile_digit alphabet hi [digit alphabet j, digit alphabet k]
  have h2 := dropWhile_digit alphabet hj [digit alphabet k]
  have h3 := dropWhile_digit alphabet hk []
  have hvi := base64Value_digit alphabet hi
  have hvj := base64Value_digit alphabet hj
  have hvk := base64Value_digit alphabet hk
  rw [htext, show padding true = [] from rfl,
    (partial_three h1 h2 h3 rfl (by simp) hvi hvj hvk).mpr (by simp [room_none]),
    fromLoop_two h1 h2 hvi hvj, fromLoop_three h3 hvk, Spec.fromLoop, decodeFinal_three hj hk,
    hbytes]
  simp [room_none]

theorem decodeLoop_encode (omitPadding : Bool) (bytes : List UInt8)
    (h : handling = .loose ∨ omitPadding = false ∨ bytes.length % 3 = 0)
    (hfuel : bytes.length < fuel) :
    decodeLoop ⟨alphabet, handling, none⟩ total fuel (encodeBase64 alphabet omitPadding bytes) acc =
      ⟨some total, acc ++ bytes⟩ := by
  induction bytes using encodeBase64.induct generalizing fuel acc with
  | case1 =>
    obtain ⟨fuel, rfl⟩ : ∃ k, fuel = k + 1 := ⟨fuel - 1, by omega⟩
    rw [encodeBase64, decodeLoop_nil rfl, List.append_nil]
  | case2 x =>
    obtain ⟨fuel, rfl⟩ : ∃ k, fuel = k + 2 := ⟨fuel - 2, by simp at hfuel; omega⟩
    cases omitPadding with
    | false => exact decodeLoop_one_padded x
    | true =>
      obtain rfl : handling = .loose := by simpa using h
      exact decodeLoop_one_loose x
  | case3 x y =>
    obtain ⟨fuel, rfl⟩ : ∃ k, fuel = k + 2 := ⟨fuel - 2, by simp at hfuel; omega⟩
    cases omitPadding with
    | false => exact decodeLoop_two_padded x y
    | true =>
      obtain rfl : handling = .loose := by simpa using h
      exact decodeLoop_two_loose x y
  | case4 x y z rest ih =>
    obtain ⟨fuel, rfl⟩ : ∃ k, fuel = k + 1 := ⟨fuel - 1, by omega⟩
    simp only [List.length_cons] at h hfuel
    have hrest : rest.length % 3 = 0 ↔ (rest.length + 1 + 1 + 1) % 3 = 0 := by omega
    rw [encodeBase64, decodeLoop_group, ih (by rwa [hrest]) (by omega), List.append_assoc]
    rfl

end Decode

theorem length_encodeBase64 (alphabet : Base64Alphabet) (omitPadding : Bool)
    (bytes : List UInt8) : bytes.length ≤ (encodeBase64 alphabet omitPadding bytes).length := by
  induction bytes using encodeBase64.induct with
  | case1 => exact Nat.zero_le _
  | case2 x => simp [encodeBase64, encodeChunk]
  | case3 x y => simp [encodeBase64, encodeChunk]
  | case4 x y z rest ih =>
    simp only [encodeBase64, encodeChunk, List.length_append, List.length_cons]
    simp
    omega

/-- Decoding an encoded text without a limit reads all of it and gives the bytes back, without
padding in loose handling or where no byte is left over. -/
theorem decodeBase64_encodeBase64 (alphabet : Base64Alphabet) (handling : LastChunkHandling)
    (omitPadding : Bool) (bytes : List UInt8)
    (h : handling = .loose ∨ omitPadding = false ∨ bytes.length % 3 = 0) :
    decodeBase64 ⟨alphabet, handling, none⟩ (encodeBase64 alphabet omitPadding bytes) =
      ⟨some (encodeBase64 alphabet omitPadding bytes).length, bytes⟩ := by
  have hlength := length_encodeBase64 alphabet omitPadding bytes
  rw [decodeBase64, if_neg (by simp)]
  exact decodeLoop_encode omitPadding bytes h (by omega)

/-- Four bytes in the URL alphabet with padding, decoded strictly. -/
theorem decodeBase64_encodeBase64_four :
    decodeBase64 ⟨.url, .strict, none⟩ (encodeBase64 .url false [0xfb, 0xff, 0, 1]) =
      ⟨some 8, [0xfb, 0xff, 0, 1]⟩ :=
  decodeBase64_encodeBase64 .url .strict false [0xfb, 0xff, 0, 1] (.inr (.inl rfl))

end OxideJS.Codec
