import OxideJS.Lib.Runs
import Mathlib.Order.Bounds.Basic

/-!
Growing a shared buffer.

The live length of a shared buffer is one atomic counter. A call of `grow`
loads it, and then tests and exchanges until it returns: an exchange that
finds another length than the one tested, or that fails for no reason, as
a weak one may, hands the length it found to the next test.

Between two accesses of one call any number of accesses of the others may
fall. What the last test has seen is then out of date, but only in one
direction: the length is never smaller than what any call has seen.
-/

namespace OxideJS.Kernel

open OxideJS.Lib.Runs

/-- The live length, and the size up to which the bytes are allocated. -/
structure SharedBuffer where
  length : Nat
  maxLength : Nat
  length_le : length ≤ maxLength
  deriving DecidableEq, Repr

/-! ### One call -/

/-- Where a call of `grow` stands. -/
inductive GrowPhase where
  | load
  | test (cur : Nat)
  | returned (len : Nat)
  deriving DecidableEq, Repr

/-- One access of a call of `grow`. The test before the exchange looks at
nothing shared, so it is made in the same step. -/
def growStep (b : SharedBuffer) (newLen : Nat) (spurious : Bool) :
    GrowPhase → SharedBuffer × GrowPhase
  | .load => (b, .test b.length)
  | .test cur =>
    if h : newLen ≤ cur ∨ newLen > b.maxLength then (b, .returned cur)
    else if b.length = cur ∧ spurious = false then
      (⟨newLen, b.maxLength, by omega⟩, .returned newLen)
    else (b, .test b.length)
  | .returned len => (b, .returned len)

/-- An access leaves the buffer alone and sees its length, or leaves it
alone and returns, or exchanges the length it has tested. -/
theorem growStep_cases (b : SharedBuffer) (newLen : Nat) (spurious : Bool) (p : GrowPhase) :
    growStep b newLen spurious p = (b, .test b.length)
      ∨ (∃ cur, p = .test cur ∧ (newLen ≤ cur ∨ newLen > b.maxLength)
          ∧ growStep b newLen spurious p = (b, .returned cur))
      ∨ (∃ len, p = .returned len ∧ growStep b newLen spurious p = (b, .returned len))
      ∨ (∃ h : newLen ≤ b.maxLength, b.length < newLen
          ∧ growStep b newLen spurious p = (⟨newLen, b.maxLength, h⟩, .returned newLen)) := by
  cases p with
  | load => exact .inl rfl
  | returned len => exact .inr (.inr (.inl ⟨len, rfl, rfl⟩))
  | test cur =>
    by_cases hreject : newLen ≤ cur ∨ newLen > b.maxLength
    · exact .inr (.inl ⟨cur, rfl, hreject, dif_pos hreject⟩)
    · by_cases hswap : b.length = cur ∧ spurious = false
      · refine .inr (.inr (.inr ⟨by omega, by omega, ?_⟩))
        simp only [growStep, dif_neg hreject, if_pos hswap]
      · refine .inl ?_
        simp only [growStep, dif_neg hreject, if_neg hswap]

theorem growStep_maxLength (b : SharedBuffer) (newLen : Nat) (spurious : Bool) (p : GrowPhase) :
    (growStep b newLen spurious p).1.maxLength = b.maxLength := by
  rcases growStep_cases b newLen spurious p with h | ⟨_, _, _, h⟩ | ⟨_, _, h⟩ | ⟨_, _, h⟩ <;>
    rw [h]

theorem le_growStep_length (b : SharedBuffer) (newLen : Nat) (spurious : Bool) (p : GrowPhase) :
    b.length ≤ (growStep b newLen spurious p).1.length := by
  rcases growStep_cases b newLen spurious p with h | ⟨_, _, _, h⟩ | ⟨_, _, h⟩ | ⟨_, hlt, h⟩
  · rw [h]
  · rw [h]
  · rw [h]
  · rw [h]
    exact hlt.le

/-- The only length a call writes is the one it was asked for. -/
theorem growStep_length (b : SharedBuffer) (newLen : Nat) (spurious : Bool) (p : GrowPhase) :
    (growStep b newLen spurious p).1.length = b.length
      ∨ (growStep b newLen spurious p).1.length = newLen := by
  rcases growStep_cases b newLen spurious p with h | ⟨_, _, _, h⟩ | ⟨_, _, h⟩ | ⟨_, _, h⟩
  · exact .inl (by rw [h])
  · exact .inl (by rw [h])
  · exact .inl (by rw [h])
  · exact .inr (by rw [h])

/-- What a call has seen, the buffer has by now; and it has not returned
with less than it was asked for, if that was within the limit. -/
def GrowPhase.Holds (b : SharedBuffer) (newLen : Nat) : GrowPhase → Prop
  | .load => True
  | .test cur => cur ≤ b.length
  | .returned len => len ≤ b.length ∧ (newLen ≤ b.maxLength → newLen ≤ len)

/-- The accesses of the others do not take it back. -/
theorem GrowPhase.Holds.mono {b b' : SharedBuffer} {newLen : Nat} {p : GrowPhase}
    (h : p.Holds b newLen) (hlen : b.length ≤ b'.length) (hmax : b'.maxLength = b.maxLength) :
    p.Holds b' newLen := by
  cases p with
  | load => trivial
  | test cur => exact Nat.le_trans h hlen
  | returned len => exact ⟨Nat.le_trans h.1 hlen, fun hle => h.2 (hmax ▸ hle)⟩

theorem growStep_holds {b : SharedBuffer} {newLen : Nat} {p : GrowPhase} (spurious : Bool)
    (h : p.Holds b newLen) :
    (growStep b newLen spurious p).2.Holds (growStep b newLen spurious p).1 newLen := by
  rcases growStep_cases b newLen spurious p with
    hs | ⟨cur, rfl, hreject, hs⟩ | ⟨len, rfl, hs⟩ | ⟨hle, _, hs⟩
  · rw [hs]
    exact Nat.le_refl b.length
  · rw [hs]
    exact ⟨h, fun hle => hreject.resolve_right (Nat.not_lt.2 hle)⟩
  · rw [hs]
    exact h
  · rw [hs]
    exact ⟨Nat.le_refl newLen, fun _ => Nat.le_refl newLen⟩

/-! ### Any number of calls -/

/-- A buffer and the calls on it. -/
structure Growing (ι : Type*) where
  buffer : SharedBuffer
  phase : ι → GrowPhase

namespace Growing

variable {ι : Type*} (request : ι → Nat)

/-- No call has made an access yet. -/
def start (ι : Type*) (b : SharedBuffer) : Growing ι :=
  ⟨b, fun _ => .load⟩

/-- An event names the call that makes its next access, and says whether an
exchange fails for no reason. -/
def step [DecidableEq ι] (s : Growing ι) (e : ι × Bool) : Growing ι :=
  ⟨(growStep s.buffer (request e.1) e.2 (s.phase e.1)).1,
    Function.update s.phase e.1 (growStep s.buffer (request e.1) e.2 (s.phase e.1)).2⟩

/-- What is true of a buffer of the given first length and limit all along. -/
structure Sound (b : SharedBuffer) (s : Growing ι) : Prop where
  maxLength_eq : s.buffer.maxLength = b.maxLength
  length_le : b.length ≤ s.buffer.length
  origin : s.buffer.length = b.length ∨ ∃ i, request i = s.buffer.length
  holds : ∀ i, (s.phase i).Holds s.buffer (request i)

variable {request}

theorem sound_start (b : SharedBuffer) : Sound request b (start ι b) :=
  ⟨rfl, Nat.le_refl _, .inl rfl, fun _ => trivial⟩

section Steps

variable [DecidableEq ι]

theorem Sound.step {b : SharedBuffer} {s : Growing ι} (h : Sound request b s) (e : ι × Bool) :
    Sound request b (s.step request e) := by
  have hgrow := le_growStep_length s.buffer (request e.1) e.2 (s.phase e.1)
  have hmax := growStep_maxLength s.buffer (request e.1) e.2 (s.phase e.1)
  refine ⟨hmax.trans h.maxLength_eq, h.length_le.trans hgrow, ?_, ?_⟩
  · rcases growStep_length s.buffer (request e.1) e.2 (s.phase e.1) with hkept | hnew
    · exact h.origin.imp hkept.trans (Exists.imp fun i hi => hi.trans hkept.symm)
    · exact .inr ⟨e.1, hnew.symm⟩
  · intro i
    by_cases hi : i = e.1
    · subst hi
      simpa only [Growing.step, Function.update_self] using growStep_holds e.2 (h.holds e.1)
    · simpa only [Growing.step, Function.update_of_ne hi] using (h.holds i).mono hgrow hmax

theorem sound_run (b : SharedBuffer) (events : List (ι × Bool)) :
    Sound request b (run (step request) (start ι b) events) :=
  run_keeps (Sound request b) (fun _ e h => h.step e) (sound_start b) events

theorem length_le_run (s : Growing ι) (events : List (ι × Bool)) :
    s.buffer.length ≤ (run (step request) s events).buffer.length :=
  run_keeps (fun t : Growing ι => s.buffer.length ≤ t.buffer.length)
    (fun t e h => Nat.le_trans h
      (le_growStep_length t.buffer (request e.1) e.2 (t.phase e.1)))
    (Nat.le_refl _) events

end Steps

/-- Where all calls have returned, each request within the limit is
reached. -/
theorem Sound.isGreatest {b : SharedBuffer} {s : Growing ι} (h : Sound request b s)
    (hall : ∀ i, ∃ len, s.phase i = .returned len) :
    IsGreatest (insert b.length {n | n ≤ b.maxLength ∧ ∃ i, request i = n})
      s.buffer.length := by
  constructor
  · refine h.origin.imp id fun hi => ⟨?_, hi⟩
    exact h.maxLength_eq ▸ s.buffer.length_le
  · rintro n (rfl | ⟨hmax, i, rfl⟩)
    · exact h.length_le
    · obtain ⟨len, hlen⟩ := hall i
      have hi := h.holds i
      rw [hlen] at hi
      exact (hi.2 (h.maxLength_eq.symm ▸ hmax)).trans hi.1

/-- **Shared buffers only grow.** In every interleaving of any number of
calls the length does not decrease and stays within the limit, a call that
has returned its request finds at least that length from then on, and when
all have returned the length is the greatest of the first length and the
requests within the limit. -/
theorem grow_interleaved [DecidableEq ι] (b : SharedBuffer) (request : ι → Nat)
    (events more : List (ι × Bool)) :
    let s := run (step request) (start ι b) events
    let s' := run (step request) s more
    s.buffer.length ≤ s'.buffer.length
      ∧ s.buffer.maxLength = b.maxLength ∧ s.buffer.length ≤ b.maxLength
      ∧ (∀ i, s.phase i = .returned (request i) → request i ≤ s'.buffer.length)
      ∧ ((∀ i, ∃ len, s.phase i = .returned len) →
        IsGreatest (insert b.length {n | n ≤ b.maxLength ∧ ∃ i, request i = n})
          s.buffer.length) := by
  intro s s'
  have hs : Sound request b s := sound_run b events
  have hgrow : s.buffer.length ≤ s'.buffer.length := length_le_run s more
  refine ⟨hgrow, hs.maxLength_eq, hs.maxLength_eq ▸ s.buffer.length_le, ?_, hs.isGreatest⟩
  intro i hi
  have hholds := hs.holds i
  rw [hi] at hholds
  exact hholds.1.trans hgrow

/-- Two calls on a buffer of two bytes: the exchange of the first fails
once for no reason and once because the second, for a smaller length, came
between. -/
theorem grow_interleaved_two :
    let request : Bool → Nat := fun first => if first then 8 else 5
    let events := [(true, false), (false, false), (true, true), (false, false), (true, false),
      (true, false)]
    let s := run (step request) (start Bool ⟨2, 8, by decide⟩) events
    s.phase true = .returned 8 ∧ s.phase false = .returned 5
      ∧ IsGreatest (insert 2 {n | n ≤ 8 ∧ ∃ i, request i = n}) s.buffer.length := by
  intro request events s
  have hfirst : s.phase true = .returned 8 := by decide
  have hsecond : s.phase false = .returned 5 := by decide
  refine ⟨hfirst, hsecond, (grow_interleaved ⟨2, 8, by decide⟩ request events []).2.2.2.2 ?_⟩
  intro i
  cases i with
  | false => exact ⟨5, hsecond⟩
  | true => exact ⟨8, hfirst⟩

end Growing

end OxideJS.Kernel
