import Mathlib.Algebra.Order.Ring.Nat

/-!
Byte stores: writing a piece of a list, moving a piece of a list to
another place of it, and the little-endian bytes of a number.

A move is described by the store before and the store after it, so that
the moves of a loop that goes up or down can be joined: the piece moved
next has to lie outside what was overwritten so far.
-/

namespace OxideJS.Lib.Splices

section Moves

variable {α : Type*}

/-- The `n` entries from `o` on. -/
def chunk (l : List α) (o n : Nat) : List α :=
  (l.drop o).take n

/-- The entries from `o` on are overwritten. -/
def splice (l : List α) (o : Nat) (new : List α) : List α :=
  l.take o ++ new ++ l.drop (o + new.length)

theorem length_chunk {l : List α} {o n : Nat} (h : o + n ≤ l.length) :
    (chunk l o n).length = n := by
  rw [chunk, List.length_take, List.length_drop]
  omega

theorem getElem?_chunk {l : List α} {o n i : Nat} (h : i < n) :
    (chunk l o n)[i]? = l[o + i]? := by
  rw [chunk, List.getElem?_take_of_lt h, List.getElem?_drop]

theorem length_splice {l new : List α} {o : Nat} (h : o + new.length ≤ l.length) :
    (splice l o new).length = l.length := by
  simp only [splice, List.length_append, List.length_take, List.length_drop]
  omega

theorem getElem?_splice {l new : List α} {o : Nat} (h : o + new.length ≤ l.length) (p : Nat) :
    (splice l o new)[p]? = if o ≤ p ∧ p < o + new.length then new[p - o]? else l[p]? := by
  have htake : (l.take o).length = o := by
    rw [List.length_take]
    omega
  rw [splice, List.append_assoc]
  by_cases hlow : p < o
  · rw [List.getElem?_append_left (by omega), List.getElem?_take_of_lt hlow, if_neg (by omega)]
  · rw [List.getElem?_append_right (by omega), htake]
    by_cases hhigh : p < o + new.length
    · rw [List.getElem?_append_left (by omega), if_pos (by omega)]
    · rw [List.getElem?_append_right (by omega), if_neg (by omega), List.getElem?_drop]
      congr 1
      omega

/-- What has been written is read back. -/
theorem chunk_splice {l new : List α} {o : Nat} (h : o + new.length ≤ l.length) :
    chunk (splice l o new) o new.length = new := by
  apply List.ext_getElem?
  intro i
  by_cases hi : i < new.length
  · rw [getElem?_chunk hi, getElem?_splice h, if_pos (by omega), Nat.add_sub_cancel_left]
  · have hlen : (chunk (splice l o new) o new.length).length = new.length :=
      length_chunk (by rw [length_splice h]; exact h)
    rw [List.getElem?_eq_none (by omega), List.getElem?_eq_none (by omega)]

/-- Between `l` and `l'` the `n` entries from `src` on were moved to `dst`,
all at once. -/
structure Moved (l l' : List α) (src dst n : Nat) : Prop where
  length_eq : l'.length = l.length
  getElem? : ∀ p, l'[p]? = if dst ≤ p ∧ p < dst + n then l[src + (p - dst)]? else l[p]?

theorem moved_zero (l : List α) (src dst : Nat) : Moved l l src dst 0 :=
  ⟨rfl, fun p => (if_neg (by omega)).symm⟩

theorem moved_splice {l new : List α} {src dst n : Nat} (hdst : dst + n ≤ l.length)
    (hlen : new.length = n) (hnew : ∀ i < n, new[i]? = l[src + i]?) :
    Moved l (splice l dst new) src dst n := by
  subst hlen
  refine ⟨length_splice hdst, fun p => ?_⟩
  rw [getElem?_splice hdst]
  by_cases hp : dst ≤ p ∧ p < dst + new.length
  · rw [if_pos hp, if_pos hp, hnew (p - dst) (by omega)]
  · rw [if_neg hp, if_neg hp]

/-- A move goes on upwards. -/
theorem Moved.up {l l' l'' : List α} {src dst m n : Nat} (h : Moved l l' src dst m)
    (h' : Moved l' l'' (src + m) (dst + m) n) (hapart : dst ≤ src ∨ src + m + n ≤ dst) :
    Moved l l'' src dst (m + n) := by
  refine ⟨h'.length_eq.trans h.length_eq, fun p => ?_⟩
  rw [h'.getElem? p, h.getElem? (src + m + (p - (dst + m))), h.getElem? p]
  by_cases hnew : dst + m ≤ p ∧ p < dst + m + n
  · -- the piece read is outside of what was written
    rw [if_pos hnew, if_neg (by omega), if_pos (by omega)]
    congr 1
    omega
  · rw [if_neg hnew]
    by_cases hold : dst ≤ p ∧ p < dst + m
    · rw [if_pos hold, if_pos (by omega)]
    · rw [if_neg hold, if_neg (by omega)]

/-- A move goes on downwards. -/
theorem Moved.down {l l' l'' : List α} {src dst m n : Nat} (h : Moved l l' (src + n) (dst + n) m)
    (h' : Moved l' l'' src dst n) (hle : src ≤ dst) : Moved l l'' src dst (n + m) := by
  refine ⟨h'.length_eq.trans h.length_eq, fun p => ?_⟩
  rw [h'.getElem? p, h.getElem? (src + (p - dst)), h.getElem? p]
  by_cases hnew : dst ≤ p ∧ p < dst + n
  · rw [if_pos hnew, if_neg (by omega), if_pos (by omega)]
  · rw [if_neg hnew]
    by_cases hold : dst + n ≤ p ∧ p < dst + n + m
    · rw [if_pos hold, if_pos (by omega)]
      congr 1
      omega
    · rw [if_neg hold, if_neg (by omega)]

/-- A move from a snapshot goes on, wherever its target lies. -/
theorem Moved.snapshot {l l' : List α} {src dst m : Nat} (h : Moved l l' src dst m)
    (new : List α) (hdst : dst + m + new.length ≤ l.length)
    (hnew : ∀ i < new.length, new[i]? = l[src + m + i]?) :
    Moved l (splice l' (dst + m) new) src dst (m + new.length) := by
  have hdst' : dst + m + new.length ≤ l'.length := by rw [h.length_eq]; exact hdst
  refine ⟨(length_splice hdst').trans h.length_eq, fun p => ?_⟩
  rw [getElem?_splice hdst', h.getElem? p]
  by_cases hwritten : dst + m ≤ p ∧ p < dst + m + new.length
  · rw [if_pos hwritten, if_pos (by omega), hnew _ (by omega)]
    congr 1
    omega
  · rw [if_neg hwritten]
    by_cases hold : dst ≤ p ∧ p < dst + m
    · rw [if_pos hold, if_pos (by omega)]
    · rw [if_neg hold, if_neg (by omega)]

/-- A piece inside the range moved holds what the source held. -/
theorem Moved.chunk_inside {l l' : List α} {src dst n o k : Nat} (h : Moved l l' src dst n)
    (hin : o + k ≤ n) : chunk l' (dst + o) k = chunk l (src + o) k := by
  apply List.ext_getElem?
  intro i
  by_cases hi : i < k
  · rw [getElem?_chunk hi, getElem?_chunk hi, h.getElem?, if_pos (by omega)]
    congr 1
    omega
  · simp only [chunk, List.getElem?_take_eq_none (Nat.not_lt.1 hi)]

/-- A piece outside of the range moved is as before. -/
theorem Moved.chunk_outside {l l' : List α} {src dst n o k : Nat} (h : Moved l l' src dst n)
    (hout : o + k ≤ dst ∨ dst + n ≤ o) : chunk l' o k = chunk l o k := by
  apply List.ext_getElem?
  intro i
  by_cases hi : i < k
  · rw [getElem?_chunk hi, getElem?_chunk hi, h.getElem?, if_neg (by omega)]
  · simp only [chunk, List.getElem?_take_eq_none (Nat.not_lt.1 hi)]

end Moves

section LittleEndian

/-- The `m` low bytes of a number, the lowest first. -/
def leBytes : Nat → Nat → List UInt8
  | 0, _ => []
  | m + 1, v => UInt8.ofNat v :: leBytes m (v / 256)

def leValue : List UInt8 → Nat
  | [] => 0
  | b :: bs => b.toNat + 256 * leValue bs

@[simp] theorem length_leBytes (m v : Nat) : (leBytes m v).length = m := by
  induction m generalizing v with
  | zero => rfl
  | succ m ih => rw [leBytes, List.length_cons, ih]

theorem leValue_leBytes (m v : Nat) : leValue (leBytes m v) = v % 256 ^ m := by
  induction m generalizing v with
  | zero => simp [leBytes, leValue, Nat.mod_one]
  | succ m ih =>
    rw [leBytes, leValue, ih, pow_succ', Nat.mod_mul]
    simp

theorem leBytes_leValue (bs : List UInt8) : leBytes bs.length (leValue bs) = bs := by
  induction bs with
  | nil => rfl
  | cons b bs ih =>
    have hb : b.toNat < 256 := b.toNat_lt
    have hdiv : (b.toNat + 256 * leValue bs) / 256 = leValue bs := by omega
    have hmod : UInt8.ofNat (b.toNat + 256 * leValue bs) = b := by
      apply UInt8.toNat_inj.1
      simp only [UInt8.toNat_ofNat']
      omega
    rw [List.length_cons, leValue, leBytes, hdiv, hmod, ih]

theorem leValue_lt (bs : List UInt8) : leValue bs < 256 ^ bs.length := by
  induction bs with
  | nil => simp [leValue]
  | cons b bs ih =>
    have hb : b.toNat < 256 := b.toNat_lt
    rw [leValue, List.length_cons, pow_succ']
    omega

end LittleEndian

end OxideJS.Lib.Splices
