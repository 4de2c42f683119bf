import OxideJS.Codec.Base64
import Mathlib.Tactic.Tauto

/-!
The decoder against the specification's FromBase64.

Chunk by chunk the two do the same, with two exceptions at the end of the
room: where one byte is left the decoder wants to see a fourth character,
and where a padded chunk fills the room it does not count the white space
behind it.
-/

namespace OxideJS.Codec

section Chunk

variable {config : DecodeConfig}

/-- The condition with the room that is left, `none` if there is no limit. -/
def DiffersIn (config : DecodeConfig) (room : Option Nat) (us : List Nat) : Prop :=
  ∃ m, room = some m ∧ Differs config m us

theorem not_looksAhead {cs : List Nat} (h : cs.length < 3) : ¬ LooksAhead config cs := by
  match cs, h with
  | [], _ => exact id
  | [_], _ => exact id
  | [_, _], _ => exact id

theorem not_fillsPadded {room : Nat} {cs : List Nat} (h : cs.length < 4) :
    ¬ FillsPadded config room cs := by
  match cs, h with
  | [], _ => exact id
  | [_], _ => exact id
  | [_, _], _ => exact id
  | [_, _, _], _ => exact id

theorem not_fillsPadded_zero {cs : List Nat} : ¬ FillsPadded config 0 cs := by
  intro h
  match cs, h with
  | [_, _, _, _], ⟨_, _, _, h⟩ => simp at h

theorem not_differsIn_short {room : Option Nat} {us : List Nat}
    (h : (characters us).length < 3) : ¬ DiffersIn config room us := by
  rintro ⟨m, -, -, ⟨-, hlooks⟩ | ⟨-, hfills⟩⟩
  · exact not_looksAhead (by rw [List.length_drop]; omega) hlooks
  · exact not_fillsPadded (by rw [List.length_drop]; omega) hfills

/-- Three characters: only a third one that is not wanted makes a difference. -/
theorem differsIn_three {room : Option Nat} {us : List Nat} {a b c : Nat}
    (h : characters us = [a, b, c]) :
    DiffersIn config room us ↔ room = some 1 ∧ LooksAhead config [a, b, c] := by
  constructor
  · rintro ⟨m, hroom, -, ⟨hm, hlooks⟩ | ⟨-, hfills⟩⟩
    · rw [h] at hlooks
      have hm1 : m / 3 = 0 := by
        by_contra hne
        refine not_looksAhead ?_ hlooks
        rw [List.length_drop]
        simp only [List.length_cons, List.length_nil]
        omega
      rw [hm1] at hlooks
      exact ⟨by rw [hroom]; congr 1; omega, hlooks⟩
    · refine absurd hfills (not_fillsPadded ?_)
      rw [h, List.length_drop]
      simp only [List.length_cons, List.length_nil]
      omega
  · rintro ⟨hroom, hlooks⟩
    refine ⟨1, hroom, by simp, .inl ⟨rfl, ?_⟩⟩
    rw [h]
    exact hlooks

theorem differs_small {m : Nat} (hm : m < 3) (us : List Nat) :
    Differs config m us ↔
      m = 1 ∧ LooksAhead config (characters us) ∨
        endsWhite us = true ∧ FillsPadded config m (characters us) := by
  have hdiv : m / 3 = 0 := by omega
  have hmod : m % 3 = m := by omega
  rw [Differs, hdiv, hmod]
  simp [endsWhite]

/-- A full chunk of data is left behind. -/
theorem differs_chunk {m : Nat} (hm : 3 ≤ m) {us rest : List Nat} {a b c d : Nat}
    (hchars : characters us = a :: b :: c :: d :: characters rest)
    (hends : endsWhite us = endsWhite rest) :
    Differs config m us ↔
      (IsData config a ∧ IsData config b ∧ IsData config c ∧ IsData config d) ∧
        Differs config (m - 3) rest := by
  have hdiv : 4 * (m / 3) = 4 * ((m - 3) / 3) + 4 := by omega
  have hmod : m % 3 = (m - 3) % 3 := by omega
  rw [endsWhite, endsWhite] at hends
  rw [Differs, Differs, hchars, hdiv, hmod, hends]
  simp only [List.take_succ_cons, List.drop_succ_cons, List.mem_cons, forall_eq_or_imp]
  tauto

theorem fillsPadded_iff {k a b c d : Nat} {cs : List Nat} :
    FillsPadded config k (a :: b :: c :: d :: cs) ↔
      cs = [] ∧ IsData config a ∧ IsData config b ∧ d = pad ∧
        (k = 1 ∧ c = pad ∧ ¬ ExtraBits config b 16 ∨
          k = 2 ∧ IsData config c ∧ ¬ ExtraBits config c 4) := by
  cases cs with
  | nil => simp [FillsPadded]
  | cons e cs => simp [FillsPadded]

/-- Four characters: they make the difference, or they are data and the text behind them does. -/
theorem differsIn_four {room : Option Nat} {us rest : List Nat} {a b c d : Nat}
    (hchars : characters us = a :: b :: c :: d :: characters rest)
    (hends : endsWhite us = endsWhite rest) :
    DiffersIn config room us ↔
      room = some 1 ∧ LooksAhead config (a :: b :: c :: d :: characters rest) ∨
      (∃ k, room = some k ∧ endsWhite rest = true ∧
        FillsPadded config k (a :: b :: c :: d :: characters rest)) ∨
      (IsData config a ∧ IsData config b ∧ IsData config c ∧ IsData config d) ∧
        ∃ m, room = some (m + 3) ∧ Differs config m rest := by
  constructor
  · rintro ⟨m, hroom, hdiff⟩
    by_cases hm : m < 3
    · rw [differs_small hm, hchars, hends] at hdiff
      rcases hdiff with ⟨rfl, hlooks⟩ | ⟨hwhite, hfills⟩
      · exact .inl ⟨hroom, hlooks⟩
      · exact .inr (.inl ⟨m, hroom, hwhite, hfills⟩)
    · rw [differs_chunk (by omega) hchars hends] at hdiff
      refine .inr (.inr ⟨hdiff.1, m - 3, ?_, hdiff.2⟩)
      rw [hroom, Nat.sub_add_cancel (by omega)]
  · rintro (⟨hroom, hlooks⟩ | ⟨k, hroom, hwhite, hfills⟩ | ⟨hdata, m, hroom, hdiff⟩)
    · refine ⟨1, hroom, (differs_small (by decide) us).mpr (.inl ⟨rfl, ?_⟩)⟩
      rwa [hchars]
    · have hk : k < 3 := by
        rcases (fillsPadded_iff.mp hfills).2.2.2.2 with ⟨rfl, -⟩ | ⟨rfl, -⟩ <;> decide
      refine ⟨k, hroom, (differs_small hk us).mpr (.inr ⟨hends ▸ hwhite, ?_⟩)⟩
      rwa [hchars]
    · exact ⟨m + 3, hroom, (differs_chunk (by omega) hchars hends).mpr ⟨hdata, hdiff⟩⟩

end Chunk

section Loop

variable {config : DecodeConfig} {total fuel : Nat} {us : List Nat} {bytes : List UInt8}

/-- The room that is left. -/
def room (config : DecodeConfig) (bytes : List UInt8) : Option Nat :=
  config.maxLen.map (· - bytes.length)

theorem exceeds_eq (hroom : ∀ m ∈ config.maxLen, bytes.length < m) (k : Nat) :
    (config.maxLen.any fun m => decide (m < bytes.length + k)) =
      (room config bytes).any fun m => decide (m < k) := by
  unfold room
  cases hmax : config.maxLen with
  | none => rfl
  | some m =>
    have := hroom m (by rw [hmax]; rfl)
    simp only [Option.any_some, Option.map_some, decide_eq_decide]
    omega

theorem reached_iff (hroom : ∀ m ∈ config.maxLen, bytes.length < m) (k : Nat) :
    config.maxLen = some (bytes.length + k) ↔ room config bytes = some k := by
  unfold room
  cases hmax : config.maxLen with
  | none => simp
  | some m =>
    have := hroom m (by rw [hmax]; rfl)
    simp only [Option.map_some, Option.some.injEq]
    omega

variable {r1 r2 r3 r4 : List Nat} {a b c d : Nat}

theorem decodeLoop_four (h1 : us.dropWhile isBase64Whitespace = a :: r1)
    (h2 : r1.dropWhile isBase64Whitespace = b :: r2)
    (h3 : r2.dropWhile isBase64Whitespace = c :: r3)
    (h4 : r3.dropWhile isBase64Whitespace = d :: r4)
    (hroom : ∀ m ∈ config.maxLen, bytes.length < m) :
    decodeLoop config total (fuel + 1) us bytes =
      if (c = pad ∨ d = pad) ∧ r4.dropWhile isBase64Whitespace ≠ [] then ⟨none, bytes⟩
      else
        match decodeFullChunk config a b c d with
        | none => ⟨none, bytes⟩
        | some out =>
          if (room config bytes).any fun m => decide (m < out.length) then
            ⟨some (total - us.length), bytes⟩
          else if room config bytes = some out.length then
            ⟨some (total - r4.length), bytes ++ out⟩
          else decodeLoop config total fuel r4 (bytes ++ out) := by
  have hcollect : collect 4 us = ([a, b, c, d], r4) := by
    simp [collect, h1, h2, h3, h4]
  rw [decodeLoop, hcollect]
  by_cases hmore : (c = pad ∨ d = pad) ∧ r4.dropWhile isBase64Whitespace ≠ []
  · simp only [any_not_whitespace, if_pos hmore]
  · cases hchunk : decodeFullChunk config a b c d with
    | none => simp only [any_not_whitespace, if_neg hmore, hchunk]
    | some out =>
      simp only [any_not_whitespace, if_neg hmore, hchunk, exceeds_eq hroom, reached_iff hroom]

theorem fromLoop_one (h1 : us.dropWhile isBase64Whitespace = a :: r1) {va read : Nat}
    (hva : base64Value config.alphabet a = some va) :
    Spec.fromLoop config total us [] bytes read =
      Spec.fromLoop config total r1 [va] bytes read := by
  rw [fromLoop_data h1 hva]
  simp only [List.length_nil, List.nil_append]
  rw [if_neg (by omega), if_neg (by omega)]

theorem fromLoop_two (h1 : us.dropWhile isBase64Whitespace = a :: r1)
    (h2 : r1.dropWhile isBase64Whitespace = b :: r2) {va vb read : Nat}
    (hva : base64Value config.alphabet a = some va)
    (hvb : base64Value config.alphabet b = some vb) :
    Spec.fromLoop config total us [] bytes read =
      Spec.fromLoop config total r2 [va, vb] bytes read := by
  rw [fromLoop_one h1 hva, fromLoop_data h2 hvb]
  simp only [List.length_singleton, List.singleton_append]
  rw [if_neg (by omega), if_neg (by omega)]

theorem fromLoop_three (h3 : r2.dropWhile isBase64Whitespace = c :: r3) {va vb vc read : Nat}
    (hvc : base64Value config.alphabet c = some vc) :
    Spec.fromLoop config total r2 [va, vb] bytes read =
      if room config bytes = some 1 then ⟨some read, bytes⟩
      else Spec.fromLoop config total r3 [va, vb, vc] bytes read := by
  rw [fromLoop_data h3 hvc]
  simp [room]

theorem fromLoop_four (h4 : r3.dropWhile isBase64Whitespace = d :: r4) {va vb vc vd read : Nat}
    (hvd : base64Value config.alphabet d = some vd)
    (hroom : ∀ m ∈ config.maxLen, bytes.length < m) :
    Spec.fromLoop config total r3 [va, vb, vc] bytes read =
      let out := chunkBytes (packBits va vb vc vd) 3
      if room config bytes = some 2 then ⟨some read, bytes⟩
      else if room config bytes = some 3 then ⟨some (total - r4.length), bytes ++ out⟩
      else Spec.fromLoop config total r4 [] (bytes ++ out) (total - r4.length) := by
  have hreached := reached_iff hroom 3
  have hlength : (bytes ++ chunkBytes (packBits va vb vc vd) 3).length = bytes.length + 3 := by
    rw [List.length_append]
    rfl
  rw [fromLoop_data h4 hvd]
  simp only [List.cons_append, List.nil_append, Spec.decodeFullLength, hlength, hreached]
  simp [room]

/-- The room after a full chunk. -/
theorem room_append {out : List UInt8} (hcount : out.length = 3) {m : Nat}
    (hroom : ∀ m ∈ config.maxLen, bytes.length + 3 < m) :
    room config (bytes ++ out) = some m ↔ room config bytes = some (m + 3) := by
  unfold room
  rw [List.length_append, hcount]
  cases hmax : config.maxLen with
  | none => simp
  | some k =>
    have := hroom k (by rw [hmax]; rfl)
    simp only [Option.map_some, Option.some.injEq]
    omega

theorem decodeFullChunk_early (h : base64Value config.alphabet a = none ∨
    base64Value config.alphabet b = none) : decodeFullChunk config a b c d = none := by
  unfold decodeFullChunk
  rcases h with h | h
  · simp [h]
  · cases ha : base64Value config.alphabet a <;> simp [ha, h]

theorem decodeLoop_nil (h : us.dropWhile isBase64Whitespace = []) :
    decodeLoop config total (fuel + 1) us bytes = ⟨some total, bytes⟩ := by
  have hcollect : collect 4 us = ([], []) := by
    simp [collect, h]
  rw [decodeLoop, hcollect]
  simp

theorem room_pos (hroom : ∀ m ∈ config.maxLen, bytes.length < m) {m : Nat}
    (h : room config bytes = some m) : 0 < m := by
  obtain ⟨k, hk, rfl⟩ := Option.map_eq_some_iff.mp h
  have := hroom k hk
  omega

theorem not_exceeds_one (hroom : ∀ m ∈ config.maxLen, bytes.length < m) :
    (room config bytes).any (fun m => decide (m < 1)) = false := by
  cases hr : room config bytes with
  | none => rfl
  | some m =>
    have := room_pos hroom hr
    simp only [Option.any_some, decide_eq_false_iff_not]
    omega

theorem not_exceeds_two (hroom : ∀ m ∈ config.maxLen, bytes.length < m)
    (hone : room config bytes ≠ some 1) :
    (room config bytes).any (fun m => decide (m < 2)) = false := by
  cases hr : room config bytes with
  | none => rfl
  | some m =>
    have := room_pos hroom hr
    have hne : m ≠ 1 := fun hm => hone (hm ▸ hr)
    simp only [Option.any_some, decide_eq_false_iff_not]
    omega

/-- A padded chunk that is the last one. -/
theorem padded_end_iff {k : Nat} {out : List UInt8}
    (hend : r4.dropWhile isBase64Whitespace = []) (hlen : r4.length < total) :
    (if room config bytes = some k then (⟨some (total - r4.length), bytes ++ out⟩ : Outcome)
      else decodeLoop config total (fuel + 1) r4 (bytes ++ out)) = ⟨some total, bytes ++ out⟩ ↔
      ¬ (room config bytes = some k ∧ endsWhite r4 = true) := by
  rw [endsWhite_of_nil hend]
  split
  next hk =>
    cases r4 with
    | nil => simp
    | cons u us =>
      simp only [List.length_cons] at hlen
      simp [hk]
      omega
  next hk => simp [hk, decodeLoop_nil hend]

theorem characters_eq_nil_iff : characters us = [] ↔ us.dropWhile isBase64Whitespace = [] := by
  refine ⟨fun h => ?_, characters_of_nil⟩
  cases hus : us.dropWhile isBase64Whitespace with
  | nil => rfl
  | cons c rest =>
    rw [characters_of_cons hus] at h
    cases h

section Four

variable (h1 : us.dropWhile isBase64Whitespace = a :: r1)
  (h2 : r1.dropWhile isBase64Whitespace = b :: r2)
  (h3 : r2.dropWhile isBase64Whitespace = c :: r3)
  (h4 : r3.dropWhile isBase64Whitespace = d :: r4)

include h1 h2 h3 h4

theorem characters_four : characters us = a :: b :: c :: d :: characters r4 := by
  rw [characters_of_cons h1, characters_of_cons h2, characters_of_cons h3, characters_of_cons h4]

theorem endsWhite_four : endsWhite us = endsWhite r4 := by
  rw [endsWhite_of_cons h1, endsWhite_of_cons h2, endsWhite_of_cons h3, endsWhite_of_cons h4]

theorem length_four : r4.length < us.length := by
  have := length_lt_of_cons h1
  have := length_lt_of_cons h2
  have := length_lt_of_cons h3
  have := length_lt_of_cons h4
  omega

variable (hroom : ∀ m ∈ config.maxLen, bytes.length < m)

include hroom

/-- One of the first two characters is not data. -/
theorem full_iff_early
    (hab : base64Value config.alphabet a = none ∨ base64Value config.alphabet b = none) :
    decodeLoop config total (fuel + 2) us bytes =
        Spec.fromLoop config total us [] bytes (total - us.length) ↔
      ¬ DiffersIn config (room config bytes) us := by
  have hspec : Spec.fromLoop config total us [] bytes (total - us.length) = ⟨none, bytes⟩ := by
    rcases hva : base64Value config.alphabet a with _ | va
    · exact fromLoop_early h1 hva (by simp)
    · have hvb := hab.resolve_left (by simp [hva])
      rw [fromLoop_one h1 hva]
      exact fromLoop_early h2 hvb (by simp)
  rw [decodeLoop_four h1 h2 h3 h4 hroom, decodeFullChunk_early hab, hspec,
    differsIn_four (characters_four h1 h2 h3 h4) (endsWhite_four h1 h2 h3 h4)]
  refine iff_of_true (by simp) ?_
  simp only [LooksAhead, fillsPadded_iff]
  rcases hab with h | h <;> simp [IsData, h]

/-- The third character is padding. -/
theorem full_iff_padded (htotal : us.length ≤ total) {va vb : Nat}
    (hva : base64Value config.alphabet a = some va)
    (hvb : base64Value config.alphabet b = some vb) (hc : c = pad) :
    decodeLoop config total (fuel + 2) us bytes =
        Spec.fromLoop config total us [] bytes (total - us.length) ↔
      ¬ DiffersIn config (room config bytes) us := by
  subst hc
  have hpad : base64Value config.alphabet pad = none := by cases config.alphabet <;> decide
  have hlt := (base64Value_spec hvb).1
  have hlen := length_four h1 h2 h3 h4
  rw [decodeLoop_four h1 h2 h3 h4 hroom, fromLoop_two h1 h2 hva hvb, fromLoop_pad h3, Spec.padded,
    h4, differsIn_four (characters_four h1 h2 h3 h4) (endsWhite_four h1 h2 h3 h4)]
  simp only [LooksAhead, fillsPadded_iff, characters_eq_nil_iff]
  by_cases hd : d = pad
  · subst hd
    by_cases hend : r4.dropWhile isBase64Whitespace = []
    · by_cases hextra : config.handling = .strict ∧ vb % 16 ≠ 0
      · simp [hend, decodeFullChunk, hva, hvb, hextra, decodeFinal_two hlt, IsData, hpad, ExtraBits]
      · obtain ⟨out, hout⟩ : ∃ out, out = chunkBytes ((va <<< 6 ||| vb) <<< 12) 1 := ⟨_, rfl⟩
        have hcount : out.length = 1 := by rw [hout]; rfl
        have hcode : decodeFullChunk config a b pad pad = some out := by
          simp [decodeFullChunk, hva, hvb, hextra, hout]
        have hfinal :
            Spec.decodeFinal [va, vb] (decide (config.handling = .strict)) = some out := by
          rw [decodeFinal_two hlt, if_neg (by simpa using hextra), hout]
        simp only [hend, hcode, hfinal, hcount, not_exceeds_one hroom]
        have hiff := @padded_end_iff config total fuel bytes r4 1 out hend (by omega)
        have hnoextra : ¬ ExtraBits config b 16 := by simpa [ExtraBits, hvb] using hextra
        simpa [hend, IsData, hva, hvb, hpad, hnoextra] using hiff
    · simp [hend, IsData, hpad]
  · have hfull : decodeFullChunk config a b pad d = none := by simp [decodeFullChunk, hd]
    rw [hfull]
    simp [hd, IsData, hpad]

/-- The third character is neither data nor padding. -/
theorem full_iff_bad {va vb : Nat} (hva : base64Value config.alphabet a = some va)
    (hvb : base64Value config.alphabet b = some vb) (hc : c ≠ pad)
    (hvc : base64Value config.alphabet c = none) :
    decodeLoop config total (fuel + 2) us bytes =
        Spec.fromLoop config total us [] bytes (total - us.length) ↔
      ¬ DiffersIn config (room config bytes) us := by
  have hfull : decodeFullChunk config a b c d = none := by
    by_cases hd : d = pad <;> simp [decodeFullChunk, hc, hva, hvb, hvc, hd]
  rw [decodeLoop_four h1 h2 h3 h4 hroom, fromLoop_two h1 h2 hva hvb, fromLoop_bad h3 hc hvc, hfull,
    differsIn_four (characters_four h1 h2 h3 h4) (endsWhite_four h1 h2 h3 h4)]
  simp only [LooksAhead, fillsPadded_iff]
  simp [IsData, hvc, hc]

/-- Three characters of data before padding. -/
theorem full_iff_data_padded (htotal : us.length ≤ total) {va vb vc : Nat}
    (hva : base64Value config.alphabet a = some va) (hvb : base64Value config.alphabet b = some vb)
    (hvc : base64Value config.alphabet c = some vc) (hd : d = pad) :
    decodeLoop config total (fuel + 2) us bytes =
        Spec.fromLoop config total us [] bytes (total - us.length) ↔
      ¬ DiffersIn config (room config bytes) us := by
  subst hd
  have hpad : base64Value config.alphabet pad = none := by cases config.alphabet <;> decide
  have hc := (base64Value_spec hvc).2.1
  have hlen := length_four h1 h2 h3 h4
  obtain ⟨out, hout⟩ : ∃ out, out = chunkBytes (((va <<< 6 ||| vb) <<< 6 ||| vc) <<< 6) 2 :=
    ⟨_, rfl⟩
  have hcount : out.length = 2 := by rw [hout]; rfl
  have hfinal := decodeFinal_three (base64Value_spec hvb).1 (base64Value_spec hvc).1
    (decide (config.handling = .strict)) (a := va)
  have hcode : decodeFullChunk config a b c pad =
      if config.handling = .strict ∧ vc % 4 ≠ 0 then none else some out := by
    simp [decodeFullChunk, hc, hva, hvb, hvc, hout]
  rw [decodeLoop_four h1 h2 h3 h4 hroom, fromLoop_two h1 h2 hva hvb, fromLoop_three h3 hvc,
    fromLoop_pad h4, Spec.padded, hfinal, hcode, ← hout,
    differsIn_four (characters_four h1 h2 h3 h4) (endsWhite_four h1 h2 h3 h4)]
  simp only [LooksAhead, fillsPadded_iff, characters_eq_nil_iff, ne_eq]
  have hextra : ExtraBits config c 4 ↔ config.handling = .strict ∧ vc % 4 ≠ 0 := by
    simp [ExtraBits, hvc]
  by_cases hone : room config bytes = some 1
  · -- The third character has decided for the specification.
    by_cases hend : r4.dropWhile isBase64Whitespace = []
    · by_cases hbits : config.handling = .strict ∧ vc % 4 ≠ 0
      · simp [hone, hend, hbits, hextra, IsData, hva, hvb, hvc, hpad]
      · simp [hone, hend, hbits, hextra, IsData, hva, hvb, hvc, hpad, hcount, hc]
    · simp [hone, hend, IsData, hva, hvb, hvc, hpad]
  · by_cases hend : r4.dropWhile isBase64Whitespace = []
    · by_cases hbits : config.handling = .strict ∧ vc % 4 ≠ 0
      · simp [hone, hend, hbits, hextra, IsData, hva, hvb, hvc, hpad, hc]
      · have hiff := @padded_end_iff config total fuel bytes r4 2 out hend (by omega)
        simp only [hcount, not_exceeds_two hroom hone, if_neg hbits]
        simpa [hone, hend, hbits, hextra, IsData, hva, hvb, hvc, hpad, hc] using hiff
    · simp [hone, hend, IsData, hva, hvb, hvc, hpad, hc]

/-- Three characters of data before one that is neither data nor padding. -/
theorem full_iff_data_bad {va vb vc : Nat}
    (hva : base64Value config.alphabet a = some va) (hvb : base64Value config.alphabet b = some vb)
    (hvc : base64Value config.alphabet c = some vc) (hd : d ≠ pad)
    (hvd : base64Value config.alphabet d = none) :
    decodeLoop config total (fuel + 2) us bytes =
        Spec.fromLoop config total us [] bytes (total - us.length) ↔
      ¬ DiffersIn config (room config bytes) us := by
  have hc := (base64Value_spec hvc).2.1
  have hcode : decodeFullChunk config a b c d = none := by
    simp [decodeFullChunk, hc, hd, hva, hvb, hvc, hvd]
  rw [decodeLoop_four h1 h2 h3 h4 hroom, fromLoop_two h1 h2 hva hvb, fromLoop_three h3 hvc,
    fromLoop_bad h4 hd hvd, hcode,
    differsIn_four (characters_four h1 h2 h3 h4) (endsWhite_four h1 h2 h3 h4)]
  simp only [LooksAhead, fillsPadded_iff, characters_eq_nil_iff, ne_eq]
  by_cases hone : room config bytes = some 1
  · simp [hone, hd, hc, IsData, hva, hvb, hvc, hvd]
  · simp [hone, hd, hc, IsData, hva, hvb, hvc, hvd]

/-- A full chunk of data. -/
theorem full_iff_data {va vb vc vd : Nat}
    (hva : base64Value config.alphabet a = some va) (hvb : base64Value config.alphabet b = some vb)
    (hvc : base64Value config.alphabet c = some vc) (hvd : base64Value config.alphabet d = some vd)
    (hrest : ∀ bytes : List UInt8, (∀ m ∈ config.maxLen, bytes.length < m) →
      (decodeLoop config total (fuel + 1) r4 bytes =
          Spec.fromLoop config total r4 [] bytes (total - r4.length) ↔
        ¬ DiffersIn config (room config bytes) r4)) :
    decodeLoop config total (fuel + 2) us bytes =
        Spec.fromLoop config total us [] bytes (total - us.length) ↔
      ¬ DiffersIn config (room config bytes) us := by
  have hc := (base64Value_spec hvc).2.1
  have hd := (base64Value_spec hvd).2.1
  obtain ⟨out, hout⟩ : ∃ out, out = chunkBytes (packBits va vb vc vd) 3 := ⟨_, rfl⟩
  have hcount : out.length = 3 := by rw [hout]; rfl
  have hcode : decodeFullChunk config a b c d = some out := by
    simp [decodeFullChunk, hc, hd, hva, hvb, hvc, hvd, hout]
  rw [decodeLoop_four h1 h2 h3 h4 hroom, fromLoop_two h1 h2 hva hvb, fromLoop_three h3 hvc,
    fromLoop_four h4 hvd hroom, hcode, ← hout,
    differsIn_four (characters_four h1 h2 h3 h4) (endsWhite_four h1 h2 h3 h4)]
  simp only [LooksAhead, fillsPadded_iff, characters_eq_nil_iff, ne_eq, hcount]
  by_cases hone : room config bytes = some 1
  · simp [hone, hc, hd, IsData, hvd]
  by_cases htwo : room config bytes = some 2
  · simp [htwo, hc, hd, IsData, hvd]
  have hle : ∀ m, room config bytes = some m → 3 ≤ m := by
    intro m hr
    have := room_pos hroom hr
    have hne : m ≠ 1 := fun hm => hone (hm ▸ hr)
    have hne' : m ≠ 2 := fun hm => htwo (hm ▸ hr)
    omega
  have hthree : (room config bytes).any (fun m => decide (m < 3)) = false := by
    cases hr : room config bytes with
    | none => rfl
    | some m =>
      simp only [Option.any_some, decide_eq_false_iff_not, Nat.not_lt]
      exact hle m hr
  by_cases hfull : room config bytes = some 3
  · have hno : ¬ Differs config 0 r4 := by simp [differs_small, not_fillsPadded_zero]
    simp [hfull, hc, hd, IsData, hva, hvb, hvc, hvd, hno]
  · -- The text behind the chunk decides.
    have hlong : ∀ m ∈ config.maxLen, bytes.length + 3 < m := by
      intro m hm
      have hr : room config bytes = some (m - bytes.length) := by
        rw [room, Option.mem_def.mp hm, Option.map_some]
      have hge := hle _ hr
      have hne : m - bytes.length ≠ 3 := fun heq => hfull (heq ▸ hr)
      omega
    have hnext := hrest (bytes ++ out) fun m hm => by
      rw [List.length_append, hcount]
      exact hlong m hm
    simp only [DiffersIn, room_append hcount hlong] at hnext
    simpa [hone, htwo, hthree, hfull, hc, hd, IsData, hva, hvb, hvc, hvd] using hnext

end Four

/-! ### The last characters -/

theorem partial_one (h1 : us.dropWhile isBase64Whitespace = a :: r1)
    (hend : r1.dropWhile isBase64Whitespace = []) :
    decodeLoop config total (fuel + 1) us bytes =
      Spec.fromLoop config total us [] bytes (total - us.length) := by
  have hcollect : collect 4 us = ([a], []) := by simp [collect, h1, hend]
  rw [decodeLoop, hcollect]
  simp only [finishPartial]
  rcases hva : base64Value config.alphabet a with _ | va
  · rw [fromLoop_early h1 hva (by simp)]
    simp [hva]
  · have ha := (base64Value_spec hva).2.1
    rw [fromLoop_one h1 hva, fromLoop_nil hend, Spec.fromLoop]
    cases hh : config.handling <;> simp [ha, hva]

theorem partial_two (h1 : us.dropWhile isBase64Whitespace = a :: r1)
    (h2 : r1.dropWhile isBase64Whitespace = b :: r2)
    (hend : r2.dropWhile isBase64Whitespace = [])
    (hroom : ∀ m ∈ config.maxLen, bytes.length < m) :
    decodeLoop config total (fuel + 1) us bytes =
      Spec.fromLoop config total us [] bytes (total - us.length) := by
  have hcollect : collect 4 us = ([a, b], []) := by simp [collect, h1, h2, hend]
  rw [decodeLoop, hcollect]
  simp only [finishPartial]
  rcases hva : base64Value config.alphabet a with _ | va
  · rw [fromLoop_early h1 hva (by simp)]
    simp [hva]
  rcases hvb : base64Value config.alphabet b with _ | vb
  · rw [fromLoop_one h1 hva, fromLoop_early h2 hvb (by simp)]
    simp [hva, hvb]
  · have ha := (base64Value_spec hva).2.1
    have hb := base64Value_spec hvb
    have hexceeds : (config.maxLen.any fun m => decide (m < bytes.length + [a, b].length - 1)) =
        false := (exceeds_eq hroom 1).trans (not_exceeds_one hroom)
    rw [fromLoop_two h1 h2 hva hvb, fromLoop_nil hend, Spec.fromLoop, hexceeds]
    cases hh : config.handling <;>
      simp [ha, hb.2.1, hva, hvb, looseBytes_two hb.1]

/-- Three characters, the last one padding or not data. -/
theorem partial_three_padded (h1 : us.dropWhile isBase64Whitespace = a :: r1)
    (h2 : r1.dropWhile isBase64Whitespace = b :: r2)
    (h3 : r2.dropWhile isBase64Whitespace = c :: r3)
    (hend : r3.dropWhile isBase64Whitespace = [])
    (hbad : base64Value config.alphabet a = none ∨ base64Value config.alphabet b = none ∨
      base64Value config.alphabet c = none) :
    decodeLoop config total (fuel + 1) us bytes =
      Spec.fromLoop config total us [] bytes (total - us.length) := by
  have hcollect : collect 4 us = ([a, b, c], []) := by simp [collect, h1, h2, h3, hend]
  rw [decodeLoop, hcollect]
  simp only [finishPartial]
  rcases hva : base64Value config.alphabet a with _ | va
  · rw [fromLoop_early h1 hva (by simp)]
    simp [hva]
  rcases hvb : base64Value config.alphabet b with _ | vb
  · rw [fromLoop_one h1 hva, fromLoop_early h2 hvb (by simp)]
    simp [hva, hvb]
  · have hvc : base64Value config.alphabet c = none := by simpa [hva, hvb] using hbad
    have ha := (base64Value_spec hva).2.1
    have hb := (base64Value_spec hvb).2.1
    rw [fromLoop_two h1 h2 hva hvb]
    by_cases hc : c = pad
    · subst hc
      rw [fromLoop_pad h3, Spec.padded, hend]
      cases hh : config.handling <;> simp [ha, hb, hva, hvb]
    · rw [fromLoop_bad h3 hc hvc]
      simp [ha, hb, hc, hva, hvb, hvc]

theorem partial_three (h1 : us.dropWhile isBase64Whitespace = a :: r1)
    (h2 : r1.dropWhile isBase64Whitespace = b :: r2)
    (h3 : r2.dropWhile isBase64Whitespace = c :: r3)
    (hend : r3.dropWhile isBase64Whitespace = [])
    (hroom : ∀ m ∈ config.maxLen, bytes.length < m) {va vb vc : Nat}
    (hva : base64Value config.alphabet a = some va) (hvb : base64Value config.alphabet b = some vb)
    (hvc : base64Value config.alphabet c = some vc) :
    decodeLoop config total (fuel + 1) us bytes =
        Spec.fromLoop config total us [] bytes (total - us.length) ↔
      ¬ (room config bytes = some 1 ∧ config.handling = .strict) := by
  have hcollect : collect 4 us = ([a, b, c], []) := by simp [collect, h1, h2, h3, hend]
  have ha := (base64Value_spec hva).2.1
  have hb := base64Value_spec hvb
  have hc := base64Value_spec hvc
  have hexceeds : (config.maxLen.any fun m => decide (m < bytes.length + [a, b, c].length - 1)) =
      (room config bytes).any fun m => decide (m < 2) := exceeds_eq hroom 2
  rw [decodeLoop, hcollect, fromLoop_two h1 h2 hva hvb, fromLoop_three h3 hvc, fromLoop_nil hend,
    Spec.fromLoop]
  simp only [finishPartial]
  rw [hexceeds]
  by_cases hone : room config bytes = some 1
  · cases hh : config.handling <;>
      simp [ha, hb.2.1, hc.2.1, hva, hvb, hvc, hone]
  · rw [not_exceeds_two hroom hone]
    cases hh : config.handling <;>
      simp [ha, hb.2.1, hc.2.1, hva, hvb, hvc, hone, looseBytes_three hb.1 hc.1]

/-! ### The whole text -/

theorem loop_iff (hfuel : us.length < fuel) (htotal : us.length ≤ total)
    (hroom : ∀ m ∈ config.maxLen, bytes.length < m) :
    decodeLoop config total fuel us bytes =
        Spec.fromLoop config total us [] bytes (total - us.length) ↔
      ¬ DiffersIn config (room config bytes) us := by
  induction fuel using Nat.strong_induction_on generalizing us bytes with
  | _ fuel ih =>
    obtain ⟨fuel, rfl⟩ : ∃ k, fuel = k + 1 := ⟨fuel - 1, by omega⟩
    -- The next characters are named one after the other.
    rcases h1 : us.dropWhile isBase64Whitespace with _ | ⟨a, r1⟩
    · rw [decodeLoop_nil h1, fromLoop_nil h1]
      refine iff_of_true (by simp [Spec.fromLoop]) (not_differsIn_short ?_)
      simp [characters_of_nil h1]
    rcases h2 : r1.dropWhile isBase64Whitespace with _ | ⟨b, r2⟩
    · refine iff_of_true (partial_one h1 h2) (not_differsIn_short ?_)
      simp [characters_of_cons h1, characters_of_nil h2]
    rcases h3 : r2.dropWhile isBase64Whitespace with _ | ⟨c, r3⟩
    · refine iff_of_true (partial_two h1 h2 h3 hroom) (not_differsIn_short ?_)
      simp [characters_of_cons h1, characters_of_cons h2, characters_of_nil h3]
    rcases h4 : r3.dropWhile isBase64Whitespace with _ | ⟨d, r4⟩
    · have hchars : characters us = [a, b, c] := by
        rw [characters_of_cons h1, characters_of_cons h2, characters_of_cons h3,
          characters_of_nil h4]
      rw [differsIn_three hchars, LooksAhead]
      by_cases hbad : base64Value config.alphabet a = none ∨ base64Value config.alphabet b = none ∨
          base64Value config.alphabet c = none
      · refine iff_of_true (partial_three_padded h1 h2 h3 h4 hbad) ?_
        rcases hbad with h | h | h <;> simp [IsData, h]
      · simp only [not_or, ← ne_eq, Option.ne_none_iff_exists'] at hbad
        obtain ⟨⟨va, hva⟩, ⟨vb, hvb⟩, vc, hvc⟩ := hbad
        rw [partial_three h1 h2 h3 h4 hroom hva hvb hvc]
        simp [IsData, hva, hvb, hvc]
    · have hlen := length_four h1 h2 h3 h4
      obtain ⟨fuel, rfl⟩ : ∃ k, fuel = k + 1 := ⟨fuel - 1, by omega⟩
      rcases hva : base64Value config.alphabet a with _ | va
      · exact full_iff_early h1 h2 h3 h4 hroom (.inl hva)
      rcases hvb : base64Value config.alphabet b with _ | vb
      · exact full_iff_early h1 h2 h3 h4 hroom (.inr hvb)
      rcases hvc : base64Value config.alphabet c with _ | vc
      · by_cases hc : c = pad
        · exact full_iff_padded h1 h2 h3 h4 hroom htotal hva hvb hc
        · exact full_iff_bad h1 h2 h3 h4 hroom hva hvb hc hvc
      rcases hvd : base64Value config.alphabet d with _ | vd
      · by_cases hd : d = pad
        · exact full_iff_data_padded h1 h2 h3 h4 hroom htotal hva hvb hvc hd
        · exact full_iff_data_bad h1 h2 h3 h4 hroom hva hvb hvc hd hvd
      · refine full_iff_data h1 h2 h3 h4 hroom hva hvb hvc hvd fun bytes hroom => ?_
        exact ih (fuel + 1) (by omega) (by omega) (by omega) hroom

end Loop

/-- The decoder is FromBase64 exactly when no limit is given, or the limit is not one at whose end
the two differ. -/
theorem decodeBase64_eq_iff (config : DecodeConfig) (units : List Nat) :
    decodeBase64 config units = Spec.fromBase64 config units ↔
      ∀ m, config.maxLen = some m → ¬ Differs config m units := by
  by_cases hzero : config.maxLen = some 0
  · rw [decodeBase64, Spec.fromBase64, if_pos hzero, if_pos hzero]
    refine iff_of_true rfl fun m hm => ?_
    have hm0 : m = 0 := by rw [hzero] at hm; exact (Option.some.inj hm).symm
    subst hm0
    simp [differs_small, not_fillsPadded_zero]
  · have hroom : ∀ m ∈ config.maxLen, ([] : List UInt8).length < m := by
      intro m hm
      exact Nat.pos_of_ne_zero fun h => hzero (h ▸ hm)
    have hiff := @loop_iff config units.length (units.length + 1) units [] (Nat.lt_succ_self _)
      (Nat.le_refl _) hroom
    have hmap : room config [] = config.maxLen := by simp [room]
    rw [Nat.sub_self, hmap] at hiff
    rw [decodeBase64, Spec.fromBase64, if_neg hzero, if_neg hzero, hiff, DiffersIn]
    simp only [not_exists, not_and]

/-- One byte is wanted of `QUJ!`, which the decoder refuses where the specification stops before
the chunk; and of `QQ== ` the decoder reads four units and the specification five. -/
theorem decodeBase64_looks_ahead :
    decodeBase64 ⟨.standard, .loose, some 1⟩ [0x51, 0x55, 0x4a, 0x21] = ⟨none, []⟩ ∧
    Spec.fromBase64 ⟨.standard, .loose, some 1⟩ [0x51, 0x55, 0x4a, 0x21] = ⟨some 0, []⟩ ∧
    decodeBase64 ⟨.standard, .loose, some 1⟩ [0x51, 0x51, 0x3d, 0x3d, 0x20] = ⟨some 4, [0x41]⟩ ∧
    Spec.fromBase64 ⟨.standard, .loose, some 1⟩ [0x51, 0x51, 0x3d, 0x3d, 0x20] =
      ⟨some 5, [0x41]⟩ := by
  decide

end OxideJS.Codec
