import OxideJS.Codec.Base64

/-!
Hexadecimal text and bytes.

The decoder takes the units in pairs. As for base64 its callback is the list
of bytes so far, and it keeps them when it fails.
-/

namespace OxideJS.Codec

def hexValue (u : Nat) : Option Nat :=
  if 0x30 ≤ u ∧ u ≤ 0x39 then some (u - 0x30)
  else if 0x61 ≤ u ∧ u ≤ 0x66 then some (u - 0x61 + 10)
  else if 0x41 ≤ u ∧ u ≤ 0x46 then some (u - 0x41 + 10)
  else none

/-- The loop over the pairs; `i` counts them. A pair is read before the length is looked at. -/
def decodeHexLoop (maxLen : Option Nat) : Nat → Nat → List Nat → List UInt8 → Outcome
  | i, _, hi :: lo :: rest, bytes =>
    match hexValue hi, hexValue lo with
    | some h, some l =>
      if maxLen.any fun m => decide (bytes.length + 1 > m) then ⟨some (i * 2), bytes⟩
      else decodeHexLoop maxLen (i + 1) (i * 2 + 2) rest (bytes ++ [UInt8.ofNat (h * 16 + l)])
    | _, _ => ⟨none, bytes⟩
  | _, read, _, bytes => ⟨some read, bytes⟩

def decodeHex (maxLen : Option Nat) (units : List Nat) : Outcome :=
  if units.length % 2 = 1 then ⟨none, []⟩ else decodeHexLoop maxLen 0 0 units []

namespace Spec

/-- `FromHex`: the length is looked at in front of every pair. -/
def fromHexLoop (maxLen : Option Nat) (read : Nat) : List Nat → List UInt8 → Outcome
  | hi :: lo :: rest, bytes =>
    if maxLen = some bytes.length then ⟨some read, bytes⟩
    else
      match hexValue hi, hexValue lo with
      | some h, some l =>
        fromHexLoop maxLen (read + 2) rest (bytes ++ [UInt8.ofNat (h * 16 + l)])
      | _, _ => ⟨none, bytes⟩
  | _, bytes => ⟨some read, bytes⟩

def fromHex (maxLen : Option Nat) (units : List Nat) : Outcome :=
  if units.length % 2 = 1 then ⟨none, []⟩ else fromHexLoop maxLen 0 units []

end Spec

def IsHex (u : Nat) : Prop := (hexValue u).isSome = true

/-- Where `count` bytes are all there is room for and the units in front of them are digits, the
two units behind them are digits as well. -/
def HexBehind (count : Nat) (units : List Nat) : Prop :=
  (∀ u ∈ units.take (2 * count), IsHex u) → ∀ u ∈ (units.drop (2 * count)).take 2, IsHex u

section Loops

variable {maxLen : Option Nat} {hi lo : Nat} {rest : List Nat} {bytes : List UInt8}

theorem isHex_pair :
    (IsHex hi ∧ IsHex lo) ↔ ∃ h l, hexValue hi = some h ∧ hexValue lo = some l := by
  simp only [IsHex, Option.isSome_iff_exists]
  exact ⟨fun ⟨⟨h, hh⟩, l, hl⟩ => ⟨h, l, hh, hl⟩, fun ⟨h, l, hh, hl⟩ => ⟨⟨h, hh⟩, l, hl⟩⟩

theorem hexBehind_zero : HexBehind 0 (hi :: lo :: rest) ↔ IsHex hi ∧ IsHex lo := by
  simp [HexBehind]

theorem hexBehind_succ {count : Nat} (hh : IsHex hi) (hl : IsHex lo) :
    HexBehind (count + 1) (hi :: lo :: rest) ↔ HexBehind count rest := by
  simp [HexBehind, Nat.mul_succ, hh, hl]

theorem hexBehind_of_bad {count : Nat} (h : ¬(IsHex hi ∧ IsHex lo)) :
    HexBehind (count + 1) (hi :: lo :: rest) := by
  intro hall
  refine absurd ⟨hall hi ?_, hall lo ?_⟩ h <;> simp [Nat.mul_succ]

theorem decodeHexLoop_bad {i read : Nat} (h : ¬(IsHex hi ∧ IsHex lo)) :
    decodeHexLoop maxLen i read (hi :: lo :: rest) bytes = ⟨none, bytes⟩ := by
  rw [isHex_pair] at h
  rw [decodeHexLoop]
  split
  · next h' l' hh hl => exact absurd ⟨h', l', hh, hl⟩ h
  · rfl

theorem fromHexLoop_bad {read : Nat} (h : ¬(IsHex hi ∧ IsHex lo))
    (hroom : maxLen ≠ some bytes.length) :
    Spec.fromHexLoop maxLen read (hi :: lo :: rest) bytes = ⟨none, bytes⟩ := by
  rw [isHex_pair] at h
  rw [Spec.fromHexLoop, if_neg hroom]
  split
  · next h' l' hh hl => exact absurd ⟨h', l', hh, hl⟩ h
  · rfl

end Loops

/-- The two loops end alike exactly if no pair behind the last byte is bad. -/
theorem decodeHexLoop_eq_iff (maxLen : Option Nat) : ∀ (units : List Nat) (bytes : List UInt8),
    units.length % 2 = 0 → (∀ m ∈ maxLen, bytes.length ≤ m) →
    (decodeHexLoop maxLen bytes.length (2 * bytes.length) units bytes =
        Spec.fromHexLoop maxLen (2 * bytes.length) units bytes ↔
      ∀ m ∈ maxLen, HexBehind (m - bytes.length) units)
  | [], bytes, _, _ => by simp [decodeHexLoop, Spec.fromHexLoop, HexBehind]
  | [_], _, heven, _ => absurd heven (by simp)
  | hi :: lo :: rest, bytes, heven, hroom => by
    have heven' : rest.length % 2 = 0 := by
      simp only [List.length_cons] at heven
      omega
    by_cases hfull : maxLen = some bytes.length
    · -- the length is reached, but the pair is read
      subst hfull
      simp only [Option.mem_some_iff, forall_eq', Nat.sub_self, hexBehind_zero]
      rw [Spec.fromHexLoop, if_pos rfl]
      by_cases hhex : IsHex hi ∧ IsHex lo
      · obtain ⟨h, l, hh, hl⟩ := isHex_pair.1 hhex
        simp [decodeHexLoop, hh, hl, hhex, Nat.mul_comm]
      · simp [decodeHexLoop_bad hhex, hhex]
    · have hlt : ∀ m ∈ maxLen, bytes.length < m := by
        intro m hm
        have := hroom m hm
        have hne : m ≠ bytes.length := by
          rintro rfl
          exact hfull hm
        omega
      by_cases hhex : IsHex hi ∧ IsHex lo
      · obtain ⟨h, l, hh, hl⟩ := isHex_pair.1 hhex
        have hnot : (maxLen.any fun m => decide (bytes.length + 1 > m)) = false := by
          cases maxLen with
          | none => rfl
          | some m => exact decide_eq_false (by have := hlt m rfl; omega)
        have ih := decodeHexLoop_eq_iff maxLen rest
          (bytes ++ [UInt8.ofNat (h * 16 + l)]) heven'
        simp only [List.length_append, List.length_singleton] at ih
        replace ih := ih fun m hm => hlt m hm
        rw [decodeHexLoop, Spec.fromHexLoop, if_neg hfull, hh, hl]
        dsimp only
        rw [hnot, if_neg Bool.false_ne_true, Nat.mul_comm bytes.length 2, ← Nat.mul_succ, ih]
        refine forall₂_congr fun m hm => ?_
        rw [show m - bytes.length = m - (bytes.length + 1) + 1 by have := hlt m hm; omega,
          hexBehind_succ hhex.1 hhex.2]
      · rw [decodeHexLoop_bad hhex, fromHexLoop_bad hhex hfull]
        refine iff_of_true rfl fun m hm => ?_
        rw [show m - bytes.length = m - bytes.length - 1 + 1 by have := hlt m hm; omega]
        exact hexBehind_of_bad hhex

theorem decodeHexLoop_read (maxLen : Option Nat) : ∀ (units : List Nat) (bytes : List UInt8)
    {r : Nat},
    (decodeHexLoop maxLen bytes.length (2 * bytes.length) units bytes).read = some r →
    r = 2 * (decodeHexLoop maxLen bytes.length (2 * bytes.length) units bytes).bytes.length
  | [], bytes, r, h => by
    simp only [decodeHexLoop, Option.some.injEq] at h ⊢
    exact h.symm
  | [_], bytes, r, h => by
    simp only [decodeHexLoop, Option.some.injEq] at h ⊢
    exact h.symm
  | hi :: lo :: rest, bytes, r, h => by
    by_cases hhex : IsHex hi ∧ IsHex lo
    · obtain ⟨x, y, hx, hy⟩ := isHex_pair.1 hhex
      rw [decodeHexLoop, hx, hy] at h ⊢
      dsimp only at h ⊢
      split at h
      · next hfull =>
        rw [if_pos hfull]
        simpa [Nat.mul_comm, eq_comm] using h
      · next hroom =>
        rw [if_neg hroom]
        have ih := decodeHexLoop_read maxLen rest
          (bytes ++ [UInt8.ofNat (x * 16 + y)]) (r := r)
        simp only [List.length_append, List.length_singleton, Nat.mul_succ] at ih
        rw [Nat.mul_comm bytes.length 2] at h ⊢
        exact ih h
    · rw [decodeHexLoop_bad hhex] at h
      cases h

/-- The decoder implements `FromHex` exactly where it finds digits behind the last byte there is
room for; what it reads is twice what it writes. -/
theorem decodeHex_eq_iff (maxLen : Option Nat) (units : List Nat) :
    (decodeHex maxLen units = Spec.fromHex maxLen units ↔
      units.length % 2 = 1 ∨ ∀ m ∈ maxLen, HexBehind m units) ∧
    ∀ r, (decodeHex maxLen units).read = some r →
      r = 2 * (decodeHex maxLen units).bytes.length := by
  by_cases hodd : units.length % 2 = 1
  · simp [decodeHex, Spec.fromHex, hodd]
  · have hloop := decodeHexLoop_eq_iff maxLen units [] (by omega) (by simp)
    rw [decodeHex, Spec.fromHex, if_neg hodd, if_neg hodd]
    refine ⟨?_, fun r h => decodeHexLoop_read maxLen units [] h⟩
    simpa [hodd] using hloop

/-- There is room for one byte, and the text is `00zz`. -/
theorem decodeHex_looks_ahead :
    decodeHex (some 1) [0x30, 0x30, 0x7a, 0x7a] = ⟨none, [0]⟩ ∧
      Spec.fromHex (some 1) [0x30, 0x30, 0x7a, 0x7a] = ⟨some 2, [0]⟩ := by
  decide

end OxideJS.Codec
