import Mathlib.Data.List.Nodup
import Mathlib.Data.Nat.Cast.Order.Ring

/-!
`Iterator.zip`: the helper object that steps several iterators together.

Which inputs are still open is kept in a mask of 32 bits. An input beyond
the mask counts as open for ever, so the results about what happens to the
inputs are for at most 32 of them.

The inputs are arbitrary: functions on a state of their own, which the
calls of the helper thread through. Every call that reaches an input is
recorded in a trace, the latest first. An input that calls the helper
while it is being stepped or closed finds it executing or completed, and
`iteratorHelper_of_not_live` says that such a call reaches no input.
-/

namespace OxideJS.Iterator

/-! ### The inputs -/

/-- What an input answers to `next`. It throws as well if the answer is no
object or if reading `done` fails. -/
inductive Reply (V : Type) where
  | threw (error : V)
  | done
  | more

/-- What comes of looking up and calling `return`. -/
inductive Returned (V : Type) where
  | noMethod
  | threw (error : V)
  | object
  | notObject

structure Inputs (σ V : Type) where
  undefined : V
  typeError : String → V
  next : Nat → σ → Reply V × σ
  value : Nat → σ → Except V V × σ
  ret : Nat → σ → Returned V × σ

inductive Outcome where
  | value | done | threw
  deriving DecidableEq

inductive Event where
  | next (i : Nat) (outcome : Outcome)
  | close (i : Nat)
  deriving DecidableEq

structure World (σ : Type) where
  inputs : σ
  trace : List Event

variable {σ V : Type} (env : Inputs σ V)

def iteratorRecordStep (i : Nat) (w : World σ) : Except V (Option V) × World σ :=
  match env.next i w.inputs with
  | (.threw e, s) => (.error e, ⟨s, .next i .threw :: w.trace⟩)
  | (.done, s) => (.ok none, ⟨s, .next i .done :: w.trace⟩)
  | (.more, s) =>
    match env.value i s with
    | (.error e, s) => (.error e, ⟨s, .next i .threw :: w.trace⟩)
    | (.ok v, s) => (.ok (some v), ⟨s, .next i .value :: w.trace⟩)

/-- As `iteratorRecordStep`, but the value is not read. -/
def iteratorStepDoneOnly (i : Nat) (w : World σ) : Except V Bool × World σ :=
  match env.next i w.inputs with
  | (.threw e, s) => (.error e, ⟨s, .next i .threw :: w.trace⟩)
  | (.done, s) => (.ok true, ⟨s, .next i .done :: w.trace⟩)
  | (.more, s) => (.ok false, ⟨s, .next i .value :: w.trace⟩)

/-- Close an input. An error under way wins over one of `return`. -/
def iteratorCloseRecord (i : Nat) (completion : Option V) (w : World σ) :
    Except V Unit × World σ :=
  let (returned, s) := env.ret i w.inputs
  let w' : World σ := ⟨s, .close i :: w.trace⟩
  match completion with
  | some v => (.error v, w')
  | none =>
    match returned with
    | .noMethod | .object => (.ok (), w')
    | .threw e => (.error e, w')
    | .notObject => (.error (env.typeError "iterator return() result is not an object"), w')

/-! ### The mask -/

def zipBitOpen (mask : BitVec 32) (i : Nat) : Bool :=
  if i < 32 then (mask.sshiftRight i &&& 1#32) == 1#32 else true

def zipBitClear (mask : BitVec 32) (i : Nat) : BitVec 32 :=
  if i < 32 then mask &&& ~~~(1#32 <<< i) else mask

theorem zipBitOpen_eq_getLsbD (mask : BitVec 32) {i : Nat} (hi : i < 32) :
    zipBitOpen mask i = mask.getLsbD i := by
  have hand : ∀ v : BitVec 32, (v &&& 1#32 == 1#32) = v.getLsbD 0 := by
    intro v
    rw [Bool.eq_iff_iff, beq_iff_eq]
    constructor
    · intro h
      have := congrArg (fun b => b.getLsbD 0) h
      simpa using this
    · intro h
      ext j hj
      rcases Nat.eq_zero_or_pos j with rfl | hpos
      · simpa using h
      · simp [BitVec.getElem_one, Nat.ne_of_gt hpos]
  rw [zipBitOpen, if_pos hi, hand, BitVec.getLsbD_sshiftRight]
  simp [hi]

theorem zipBitOpen_initial (i : Nat) : zipBitOpen (-1#32) i = true := by
  by_cases hi : i < 32
  · rw [zipBitOpen_eq_getLsbD _ hi, BitVec.neg_one_eq_allOnes, BitVec.getLsbD_allOnes]
    simpa using hi
  · rw [zipBitOpen, if_neg hi]

theorem zipBitOpen_clear (mask : BitVec 32) {i j : Nat} (hi : i < 32) (hj : j < 32) :
    zipBitOpen (zipBitClear mask j) i = (zipBitOpen mask i && i != j) := by
  rw [zipBitOpen_eq_getLsbD _ hi, zipBitOpen_eq_getLsbD _ hi, zipBitClear, if_pos hj]
  simp only [BitVec.getLsbD_and, BitVec.getLsbD_not, BitVec.getLsbD_shiftLeft, hi,
    BitVec.getLsbD_one, decide_true, Bool.true_and]
  congr 1
  rcases Nat.lt_trichotomy i j with h | h | h
  · simp [h, Nat.ne_of_lt h]
  · simp [h]
  · have : ¬ i < j := by omega
    have hsub : i - j ≠ 0 := by omega
    simp [this, hsub, Nat.ne_of_gt h]

/-- Close the open inputs below `i`, the last first. -/
def closeRemainingOpen (mask : BitVec 32) : Nat → Option V → World σ → Option V × World σ
  | 0, completion, w => (completion, w)
  | i + 1, completion, w =>
    if zipBitOpen mask i then
      let (r, w) := iteratorCloseRecord env i completion w
      match r with
      | .error v => closeRemainingOpen mask i (some v) w
      | .ok _ => closeRemainingOpen mask i completion w
    else closeRemainingOpen mask i completion w

/-! ### The helper -/

inductive Mode where
  | shortest | longest | strict
  deriving DecidableEq

inductive State where
  | start | executing | completed | yielded
  deriving DecidableEq

/-- The slots of the helper. `keys` is there for `zipKeyed` only. -/
structure Helper (V : Type) where
  iterCount : Nat
  openMask : BitVec 32
  mode : Mode
  state : State
  padding : Option (List V)
  keys : Option (List V)

/-- A tuple of the zip: an array, or an object with the given keys. -/
inductive Tuple (V : Type) where
  | array (values : List V)
  | keyed (entries : List (V × V))

def makeIteratorZipHelper (count : Nat) (mode : Mode) (padding keys : Option (List V)) :
    Helper V :=
  ⟨count, -1#32, mode, .start, padding, keys⟩

namespace Helper

def paddingAt (h : Helper V) (i : Nat) : V :=
  match h.padding with
  | some pad => pad.getD i env.undefined
  | none => env.undefined

def tuple (h : Helper V) (values : List V) : Tuple V :=
  match h.keys with
  | some keys => .keyed (keys.zip values)
  | none => .array values

end Helper

/-- What a step leaves: an answer, `none` at the end, and the new mask. -/
structure Stepped (σ V : Type) where
  answer : Except V (Option (Tuple V))
  openMask : BitVec 32
  world : World σ

def allClosed (mask : BitVec 32) (count : Nat) : Bool :=
  !zipBitOpen mask 0 && (List.range count).all fun i => !zipBitOpen mask i

/-- Close what is open and fail. -/
def closeAndThrow (count : Nat) (mask : BitVec 32) (v : V) (w : World σ) : Stepped σ V :=
  ⟨.error v, mask, (closeRemainingOpen env mask count (some v) w).2⟩

def lengthError : V :=
  env.typeError "Iterator.zip strict mode: iterators are not all the same length"

/-- In strict mode the first input is done: so have to be the others. -/
def strictScan (count : Nat) : List Nat → BitVec 32 → World σ → Stepped σ V
  | [], mask, w => ⟨.ok none, mask, w⟩
  | k :: ks, mask, w =>
    if zipBitOpen mask k then
      match iteratorStepDoneOnly env k w with
      | (.error v, w) => closeAndThrow env count (zipBitClear mask k) v w
      | (.ok true, w) => strictScan count ks (zipBitClear mask k) w
      | (.ok false, w) => closeAndThrow env count mask (lengthError env) w
    else strictScan count ks mask w

/-- The loop of a step over the inputs that remain. -/
def zipFrom (h : Helper V) : List Nat → BitVec 32 → List V → World σ → Stepped σ V
  | [], mask, values, w => ⟨.ok (some (h.tuple values)), mask, w⟩
  | i :: is, mask, values, w =>
    if zipBitOpen mask i then
      match iteratorRecordStep env i w with
      | (.ok (some v), w) => zipFrom h is mask (values ++ [v]) w
      | (.error v, w) => closeAndThrow env h.iterCount (zipBitClear mask i) v w
      | (.ok none, w) =>
        let mask := zipBitClear mask i
        match h.mode with
        | .shortest =>
          match closeRemainingOpen env mask h.iterCount none w with
          | (none, w) => ⟨.ok none, mask, w⟩
          | (some v, w) => ⟨.error v, mask, w⟩
        | .strict =>
          if i = 0 then strictScan env h.iterCount (List.range' 1 (h.iterCount - 1)) mask w
          else closeAndThrow env h.iterCount mask (lengthError env) w
        | .longest =>
          if allClosed mask h.iterCount then ⟨.ok none, mask, w⟩
          else zipFrom h is mask (values ++ [h.paddingAt env i]) w
    else
      -- a closed input is met in longest mode only
      zipFrom h is mask (if h.mode = .longest then values ++ [h.paddingAt env i] else values) w

def helperStepZip (h : Helper V) (w : World σ) : Stepped σ V :=
  if h.iterCount = 0 then ⟨.ok none, h.openMask, w⟩
  else if allClosed h.openMask h.iterCount then ⟨.ok none, h.openMask, w⟩
  else zipFrom env h (List.range h.iterCount) h.openMask [] w

inductive Call (V : Type) where
  | next
  | ret
  | throw (value : V)

/-- The answer `none` is `{ undefined, done: true }`. -/
abbrev Answer (V : Type) := Except V (Option (Tuple V))

def executingError : V := env.typeError "Iterator helper is already executing"

def iteratorHelperNext (h : Helper V) (w : World σ) : Answer V × Helper V × World σ :=
  match h.state with
  | .completed => (.ok none, h, w)
  | .executing => (.error (executingError env), h, w)
  | .start | .yielded =>
    let r := helperStepZip env h w
    let state := match r.answer with
      | .ok (some _) => .yielded
      | .ok none | .error _ => .completed
    (r.answer, { h with openMask := r.openMask, state := state }, r.world)

def iteratorHelperReturn (h : Helper V) (w : World σ) : Answer V × Helper V × World σ :=
  match h.state with
  | .completed => (.ok none, h, w)
  | .executing => (.error (executingError env), h, w)
  | .start | .yielded =>
    let (error, w) := closeRemainingOpen env h.openMask h.iterCount none w
    (match error with
      | none => .ok none
      | some v => .error v, { h with state := .completed }, w)

def iteratorHelperThrow (value : V) (h : Helper V) (w : World σ) :
    Answer V × Helper V × World σ :=
  match h.state with
  | .completed => (.error value, h, w)
  | .executing => (.error (executingError env), h, w)
  | .start | .yielded =>
    let (_, w) := closeRemainingOpen env h.openMask h.iterCount (some value) w
    (.error value, { h with state := .completed }, w)

def iteratorHelper : Call V → Helper V → World σ → Answer V × Helper V × World σ
  | .next, h, w => iteratorHelperNext env h w
  | .ret, h, w => iteratorHelperReturn env h w
  | .throw v, h, w => iteratorHelperThrow env v h w

def runCalls : List (Call V) → Helper V → World σ → Helper V × World σ
  | [], h, w => (h, w)
  | c :: cs, h, w =>
    let r := iteratorHelper env c h w
    runCalls cs r.2.1 r.2.2

def Helper.Live (h : Helper V) : Prop := h.state = .start ∨ h.state = .yielded

theorem iteratorHelper_of_not_live (c : Call V) {h : Helper V} (hlive : ¬ h.Live)
    (w : World σ) : (iteratorHelper env c h w).2 = (h, w) := by
  rw [Helper.Live, not_or] at hlive
  cases c <;> cases hs : h.state <;>
    simp_all [iteratorHelper, iteratorHelperNext, iteratorHelperReturn, iteratorHelperThrow]

/-! ### Traces -/

/-- An input that is not to be touched again. -/
def Over (i : Nat) (t : List Event) : Prop :=
  .next i .done ∈ t ∨ .next i .threw ∈ t ∨ .close i ∈ t

/-- No input is stepped or closed when it has ended, thrown or been
closed. -/
def Once : List Event → Prop
  | [] => True
  | .next i _ :: past => ¬ Over i past ∧ Once past
  | .close i :: past => ¬ Over i past ∧ Once past

instance (i : Nat) (t : List Event) : Decidable (Over i t) :=
  inferInstanceAs (Decidable (_ ∨ _ ∨ _))

instance decidableOnce : (t : List Event) → Decidable (Once t)
  | [] => isTrue trivial
  | .next _ _ :: past =>
    have := decidableOnce past
    inferInstanceAs (Decidable (_ ∧ _))
  | .close _ :: past =>
    have := decidableOnce past
    inferInstanceAs (Decidable (_ ∧ _))

/-- The inputs closed, the latest first. -/
def closings (t : List Event) : List Nat :=
  t.filterMap fun
    | .close i => some i
    | .next _ _ => none

/-- A trace before the end, with a mask of the inputs not over. -/
structure Tracked (count : Nat) (mask : BitVec 32) (t : List Event) : Prop where
  once : Once t
  unclosed : closings t = []
  isOpen : ∀ i < count, zipBitOpen mask i = true ↔ ¬ Over i t

structure Ended (count : Nat) (t : List Event) : Prop where
  once : Once t
  reverse : (closings t).Pairwise (· < ·)
  allOver : ∀ i < count, Over i t

theorem over_cons_next {i j : Nat} {o : Outcome} {t : List Event} :
    Over i (.next j o :: t) ↔ (i = j ∧ o ≠ .value) ∨ Over i t := by
  cases o <;> simp [Over] <;> tauto

theorem over_closes {i : Nat} {l : List Nat} {t : List Event} :
    Over i (l.map .close ++ t) ↔ i ∈ l ∨ Over i t := by
  simp only [Over, List.mem_append, List.mem_map, reduceCtorEq, and_false, exists_false,
    false_or, Event.close.injEq, exists_eq_right]
  tauto

theorem once_closes {l : List Nat} {t : List Event} (hl : l.Nodup) (ht : Once t)
    (hopen : ∀ i ∈ l, ¬ Over i t) : Once (l.map .close ++ t) := by
  induction l with
  | nil => simpa using ht
  | cons i l ih =>
    rw [List.nodup_cons] at hl
    refine ⟨fun hover => ?_, ih hl.2 fun j hj => hopen j (List.mem_cons_of_mem _ hj)⟩
    rcases over_closes.1 hover with hmem | hpast
    · exact hl.1 hmem
    · exact hopen i List.mem_cons_self hpast

theorem closings_closes (l : List Nat) (t : List Event) :
    closings (l.map .close ++ t) = l ++ closings t := by
  induction l with
  | nil => rfl
  | cons i l ih => simp [closings]

theorem trace_closeRecord (i : Nat) (completion : Option V) (w : World σ) :
    (iteratorCloseRecord env i completion w).2.trace = .close i :: w.trace := by
  rcases completion with _ | v
  · rcases hr : env.ret i w.inputs with ⟨returned, s⟩
    cases returned <;> simp [iteratorCloseRecord, hr]
  · rfl

/-- Exactly the open inputs are closed, the last first. -/
theorem trace_closeRemainingOpen (mask : BitVec 32) (count : Nat) (completion : Option V)
    (w : World σ) :
    (closeRemainingOpen env mask count completion w).2.trace =
      ((List.range count).filter (zipBitOpen mask)).map .close ++ w.trace := by
  induction count generalizing completion w with
  | zero => rfl
  | succ i ih =>
    rw [List.range_succ, List.filter_append, List.map_append, closeRemainingOpen]
    by_cases hopen : zipBitOpen mask i
    · have hclose := trace_closeRecord env i completion w
      rw [if_pos hopen]
      rcases hr : iteratorCloseRecord env i completion w with ⟨r, w'⟩
      rw [hr] at hclose
      dsimp only at hclose
      cases r <;> simp [ih, hclose, hopen]
    · simp [hopen, ih]

theorem Tracked.ended {count : Nat} {mask : BitVec 32} {t : List Event}
    (h : Tracked count mask t) (hclosed : ∀ i < count, zipBitOpen mask i = false) :
    Ended count t := by
  refine ⟨h.once, by simp [h.unclosed], fun i hi => ?_⟩
  by_contra hover
  have := (h.isOpen i hi).2 hover
  rw [hclosed i hi] at this
  cases this

theorem Tracked.close {count : Nat} {mask : BitVec 32} {w : World σ}
    (h : Tracked count mask w.trace) (completion : Option V) :
    Ended count (closeRemainingOpen env mask count completion w).2.trace := by
  have hmem : ∀ i, i ∈ (List.range count).filter (zipBitOpen mask) ↔
      i < count ∧ zipBitOpen mask i = true := by
    intro i
    rw [List.mem_filter, List.mem_range]
  rw [trace_closeRemainingOpen]
  refine ⟨once_closes (List.nodup_range.filter _) h.once ?_, ?_, ?_⟩
  · intro i hi
    rw [hmem] at hi
    exact (h.isOpen i hi.1).1 hi.2
  · rw [closings_closes, h.unclosed, List.append_nil]
    exact List.pairwise_lt_range.filter _
  · intro i hi
    rw [over_closes, hmem]
    by_cases hover : Over i w.trace
    · exact Or.inr hover
    · exact Or.inl ⟨hi, (h.isOpen i hi).2 hover⟩

theorem Tracked.next_value {count : Nat} {mask : BitVec 32} {t : List Event} {i : Nat}
    (h : Tracked count mask t) (hi : i < count) (hopen : zipBitOpen mask i = true) :
    Tracked count mask (.next i .value :: t) := by
  refine ⟨⟨(h.isOpen i hi).1 hopen, h.once⟩, h.unclosed, fun j hj => ?_⟩
  rw [h.isOpen j hj, over_cons_next]
  simp

/-! ### A step -/

section Small

variable {count : Nat} (hcount : count ≤ 32)
include hcount

theorem Tracked.next_over {mask : BitVec 32} {t : List Event} {i : Nat} {o : Outcome}
    (h : Tracked count mask t) (hi : i < count) (hopen : zipBitOpen mask i = true)
    (ho : o ≠ .value) : Tracked count (zipBitClear mask i) (.next i o :: t) := by
  refine ⟨⟨(h.isOpen i hi).1 hopen, h.once⟩, h.unclosed, fun j hj => ?_⟩
  rw [zipBitOpen_clear mask (by omega) (by omega), Bool.and_eq_true, h.isOpen j hj,
    over_cons_next, bne_iff_ne]
  tauto

theorem strictScan_ended {ks : List Nat} {mask : BitVec 32} {w : World σ}
    (h : Tracked count mask w.trace) (hks : ∀ k ∈ ks, k < count)
    (hrest : ∀ i < count, i ∉ ks → zipBitOpen mask i = false) :
    Ended count (strictScan env count ks mask w).world.trace := by
  induction ks generalizing mask w with
  | nil =>
    exact h.ended fun i hi => hrest i hi List.not_mem_nil
  | cons k ks ih =>
    have hk : k < count := hks k List.mem_cons_self
    have htail : ∀ j ∈ ks, j < count := fun j hj => hks j (List.mem_cons_of_mem _ hj)
    rw [strictScan]
    by_cases hopen : zipBitOpen mask k
    · rw [if_pos hopen, iteratorStepDoneOnly]
      rcases env.next k w.inputs with ⟨reply, s⟩
      cases reply with
      | threw e =>
        have hover : Tracked count (zipBitClear mask k) (.next k .threw :: w.trace) :=
          h.next_over hcount hk hopen (by decide)
        exact @Tracked.close _ _ env _ _ ⟨s, _⟩ hover _
      | done =>
        refine ih (h.next_over hcount hk hopen (by decide)) htail fun i hi hmem => ?_
        rw [zipBitOpen_clear mask (by omega) (by omega), Bool.and_eq_false_iff]
        by_cases hik : i = k
        · exact Or.inr (by simp [hik])
        · exact Or.inl (hrest i hi (by simp [hik, hmem]))
      | more => exact @Tracked.close _ _ env _ _ ⟨s, _⟩ (h.next_value hk hopen) _
    · rw [if_neg hopen]
      refine ih h htail fun i hi hmem => ?_
      by_cases hik : i = k
      · simpa [hik] using hopen
      · exact hrest i hi (by simp [hik, hmem])

end Small

theorem allClosed_iff {mask : BitVec 32} {count : Nat} (hpos : 0 < count) :
    allClosed mask count = true ↔ ∀ i < count, zipBitOpen mask i = false := by
  simp only [allClosed, Bool.and_eq_true, Bool.not_eq_true', List.all_eq_true, List.mem_range]
  exact ⟨fun h => h.2, fun h => ⟨h 0 hpos, h⟩⟩

/-- The trace of a helper that is not completed: nothing has thrown. -/
structure Running (count : Nat) (mask : BitVec 32) (t : List Event) : Prop extends
    Tracked count mask t where
  unthrown : ∀ i, .next i .threw ∉ t

theorem Running.next_value {count : Nat} {mask : BitVec 32} {t : List Event} {i : Nat}
    (h : Running count mask t) (hi : i < count) (hopen : zipBitOpen mask i = true) :
    Running count mask (.next i .value :: t) :=
  ⟨h.toTracked.next_value hi hopen, fun j => by simpa using h.unthrown j⟩

theorem Running.next_done {count : Nat} (hcount : count ≤ 32) {mask : BitVec 32}
    {t : List Event} {i : Nat} (h : Running count mask t) (hi : i < count)
    (hopen : zipBitOpen mask i = true) :
    Running count (zipBitClear mask i) (.next i .done :: t) :=
  ⟨h.toTracked.next_over hcount hi hopen (by decide), fun j => by simpa using h.unthrown j⟩

/-- While nothing has thrown, the inputs whose bit is clear are done. -/
theorem Running.isOpen_iff {count : Nat} {mask : BitVec 32} {t : List Event}
    (h : Running count mask t) {i : Nat} (hi : i < count) :
    zipBitOpen mask i = true ↔ .next i .done ∉ t := by
  have hclose : Event.close i ∉ t := by
    intro hmem
    have : i ∈ closings t := List.mem_filterMap.2 ⟨_, hmem, rfl⟩
    rw [h.unclosed] at this
    cases this
  rw [h.isOpen i hi, Over]
  have := h.unthrown i
  tauto

/-- What holds after a step: the helper goes on, or everything is over. -/
def Stepped.Sound (count : Nat) (r : Stepped σ V) : Prop :=
  match r.answer with
  | .ok (some _) => Running count r.openMask r.world.trace
  | .ok none | .error _ => Ended count r.world.trace

theorem closeAndThrow_sound {count : Nat} {mask : BitVec 32} {v : V} {w : World σ}
    (h : Tracked count mask w.trace) : (closeAndThrow env count mask v w).Sound count :=
  h.close env (some v)

theorem sound_of_ended {count : Nat} {r : Stepped σ V} (h : Ended count r.world.trace)
    (hr : ∀ x, r.answer ≠ .ok (some x)) : r.Sound count := by
  rw [Stepped.Sound]
  split
  · next x hx => exact absurd hx (hr x)
  · exact h
  · exact h

theorem strictScan_answer (count : Nat) (ks : List Nat) (mask : BitVec 32) (w : World σ)
    (x : Tuple V) : (strictScan env count ks mask w).answer ≠ .ok (some x) := by
  induction ks generalizing mask w with
  | nil => simp [strictScan]
  | cons k ks ih =>
    rw [strictScan]
    split
    · split <;> simp [closeAndThrow, ih]
    · exact ih mask w

theorem zipFrom_sound {h : Helper V} (hcount : h.iterCount ≤ 32) {is : List Nat}
    {mask : BitVec 32} {values : List V} {w : World σ}
    (hrun : Running h.iterCount mask w.trace) (his : ∀ i ∈ is, i < h.iterCount) :
    (zipFrom env h is mask values w).Sound h.iterCount := by
  induction is generalizing mask values w with
  | nil => exact hrun
  | cons i is ih =>
    have hi : i < h.iterCount := his i List.mem_cons_self
    have htail : ∀ j ∈ is, j < h.iterCount := fun j hj => his j (List.mem_cons_of_mem _ hj)
    rw [zipFrom]
    by_cases hopen : zipBitOpen mask i
    · have hthrew : Tracked h.iterCount (zipBitClear mask i) (.next i .threw :: w.trace) :=
        hrun.toTracked.next_over hcount hi hopen (by decide)
      have hdone : Running h.iterCount (zipBitClear mask i) (.next i .done :: w.trace) :=
        hrun.next_done hcount hi hopen
      rw [if_pos hopen, iteratorRecordStep]
      rcases env.next i w.inputs with ⟨reply, s⟩
      cases reply with
      | threw e => exact @closeAndThrow_sound _ _ env _ _ _ ⟨s, _⟩ hthrew
      | more =>
        dsimp only
        rcases env.value i s with ⟨_ | v, s⟩
        · exact @closeAndThrow_sound _ _ env _ _ _ ⟨s, _⟩ hthrew
        · exact ih (hrun.next_value hi hopen) htail
      | done =>
        dsimp only
        cases h.mode with
        | shortest =>
          have hend := @Tracked.close _ _ env _ _ ⟨s, _⟩ hdone.toTracked none
          dsimp only
          rcases hc : closeRemainingOpen env (zipBitClear mask i) h.iterCount none
            ⟨s, .next i .done :: w.trace⟩ with ⟨_ | v, w'⟩ <;> rw [hc] at hend <;> exact hend
        | strict =>
          dsimp only
          split
          · next hzero =>
            refine sound_of_ended ?_ (strictScan_answer env _ _ _ _)
            refine strictScan_ended env hcount hdone.toTracked ?_ ?_
            · intro k hk
              rw [List.mem_range'_1] at hk
              omega
            · intro k hk hmem
              have hk0 : k = 0 := by
                rw [List.mem_range'_1] at hmem
                omega
              rw [zipBitOpen_clear mask (by omega) (by omega)]
              simp [hk0, hzero]
          · exact @closeAndThrow_sound _ _ env _ _ _ ⟨s, _⟩ hdone.toTracked
        | longest =>
          dsimp only
          split
          · next hall =>
            exact hdone.toTracked.ended ((allClosed_iff (by omega)).1 hall)
          · exact ih hdone htail
    · rw [if_neg hopen]
      exact ih hrun htail

theorem helperStepZip_sound {h : Helper V} (hcount : h.iterCount ≤ 32) {w : World σ}
    (hrun : Running h.iterCount h.openMask w.trace) :
    (helperStepZip env h w).Sound h.iterCount := by
  rw [helperStepZip]
  split
  · next hzero => exact hrun.toTracked.ended fun i hi => by omega
  · next hzero =>
    split
    · next hall => exact hrun.toTracked.ended ((allClosed_iff (by omega)).1 hall)
    · exact zipFrom_sound env hcount hrun fun i hi => List.mem_range.1 hi

/-! ### The end in longest mode -/

/-- In longest mode the loop ends without a tuple exactly if every input is
done. -/
theorem zipFrom_longest {h : Helper V} (hcount : h.iterCount ≤ 32) (hmode : h.mode = .longest)
    {is : List Nat} {mask : BitVec 32} {values : List V} {w : World σ}
    (hrun : Running h.iterCount mask w.trace) (his : ∀ i ∈ is, i < h.iterCount)
    (hopen : ∃ i < h.iterCount, zipBitOpen mask i = true) :
    (zipFrom env h is mask values w).answer = .ok none ↔
      ∀ i < h.iterCount, .next i .done ∈ (zipFrom env h is mask values w).world.trace := by
  induction is generalizing mask values w with
  | nil =>
    obtain ⟨j, hj, hjopen⟩ := hopen
    refine iff_of_false (by simp [zipFrom]) fun hall => ?_
    exact (hrun.isOpen_iff hj).1 hjopen (hall j hj)
  | cons i is ih =>
    have hi : i < h.iterCount := his i List.mem_cons_self
    have htail : ∀ j ∈ is, j < h.iterCount := fun j hj => his j (List.mem_cons_of_mem _ hj)
    rw [zipFrom]
    by_cases hiopen : zipBitOpen mask i
    · -- an input that throws is not done, before or after
      have hthrew : ∀ (v : V) (s : σ),
          (closeAndThrow env h.iterCount (zipBitClear mask i) v
            ⟨s, .next i .threw :: w.trace⟩).answer = .ok none ↔
          ∀ j < h.iterCount, .next j .done ∈ (closeAndThrow env h.iterCount
            (zipBitClear mask i) v ⟨s, .next i .threw :: w.trace⟩).world.trace := by
        intro v s
        refine iff_of_false (by simp [closeAndThrow]) fun hall => ?_
        have hmem := hall i hi
        rw [closeAndThrow, trace_closeRemainingOpen] at hmem
        exact (hrun.isOpen_iff hi).1 hiopen (by simpa using hmem)
      rw [if_pos hiopen, iteratorRecordStep]
      rcases env.next i w.inputs with ⟨reply, s⟩
      cases reply with
      | threw e => exact hthrew e s
      | more =>
        dsimp only
        rcases env.value i s with ⟨e | v, s⟩
        · exact hthrew e s
        · exact ih (hrun.next_value hi hiopen) htail hopen
      | done =>
        have hdone : Running h.iterCount (zipBitClear mask i) (.next i .done :: w.trace) :=
          hrun.next_done hcount hi hiopen
        simp only [hmode]
        by_cases hall : allClosed (zipBitClear mask i) h.iterCount
        · rw [if_pos hall]
          refine iff_of_true rfl fun j hj => ?_
          have hclosed := (allClosed_iff (by omega)).1 hall j hj
          have := hdone.isOpen_iff hj
          simp only [hclosed, Bool.false_eq_true, false_iff, not_not] at this
          exact this
        · rw [if_neg hall]
          refine ih hdone htail ?_
          rw [allClosed_iff (by omega)] at hall
          push Not at hall
          obtain ⟨j, hj, hjopen⟩ := hall
          exact ⟨j, hj, by simpa using hjopen⟩
    · rw [if_neg hiopen]
      exact ih hrun htail hopen

theorem helperStepZip_longest {h : Helper V} (hcount : h.iterCount ≤ 32)
    (hmode : h.mode = .longest) {w : World σ}
    (hrun : Running h.iterCount h.openMask w.trace) :
    (helperStepZip env h w).answer = .ok none ↔
      ∀ i < h.iterCount, .next i .done ∈ (helperStepZip env h w).world.trace := by
  rw [helperStepZip]
  by_cases hzero : h.iterCount = 0
  · simp [hzero]
  · rw [if_neg hzero]
    by_cases hall : allClosed h.openMask h.iterCount
    · rw [if_pos hall]
      refine iff_of_true rfl fun j hj => ?_
      have hclosed := (allClosed_iff (by omega)).1 hall j hj
      have := hrun.isOpen_iff hj
      simp only [hclosed, Bool.false_eq_true, false_iff, not_not] at this
      exact this
    · rw [if_neg hall]
      refine zipFrom_longest env hcount hmode hrun (fun i hi => List.mem_range.1 hi) ?_
      rw [allClosed_iff (by omega)] at hall
      push Not at hall
      obtain ⟨j, hj, hjopen⟩ := hall
      exact ⟨j, hj, by simpa using hjopen⟩

/-! ### Runs -/

/-- The invariant between the helper and what has happened to the inputs. -/
structure Helper.Consistent (count : Nat) (mode : Mode) (h : Helper V) (t : List Event) :
    Prop where
  iterCount : h.iterCount = count
  mode : h.mode = mode
  idle : h.state ≠ .executing
  running : h.Live → Running count h.openMask t
  ended : h.state = .completed → Ended count t

section Runs

variable {count : Nat} (hcount : count ≤ 32) {mode : Mode}
include hcount

theorem Helper.Consistent.call {h : Helper V} {w : World σ}
    (hc : h.Consistent count mode w.trace) (c : Call V) :
    (iteratorHelper env c h w).2.1.Consistent count mode
      (iteratorHelper env c h w).2.2.trace := by
  by_cases hlive : h.Live
  · have hrun := hc.running hlive
    obtain ⟨rfl, rfl⟩ := And.intro hc.iterCount hc.mode
    have hends : ∀ completion : Option V, Ended h.iterCount
        (closeRemainingOpen env h.openMask h.iterCount completion w).2.trace :=
      hrun.toTracked.close env
    cases c with
    | next =>
      have hsound := helperStepZip_sound env hcount hrun
      have hnext : iteratorHelper env .next h w =
          ((helperStepZip env h w).answer,
            { h with
              openMask := (helperStepZip env h w).openMask
              state := match (helperStepZip env h w).answer with
                | .ok (some _) => .yielded
                | .ok none | .error _ => .completed },
            (helperStepZip env h w).world) := by
        rcases hlive with hs | hs <;> simp only [iteratorHelper, iteratorHelperNext, hs]
      rw [hnext]
      generalize helperStepZip env h w = r at hsound
      rcases r with ⟨e | _ | x, mask, w'⟩
      · exact ⟨rfl, rfl, by simp, by simp [Helper.Live], fun _ => hsound⟩
      · exact ⟨rfl, rfl, by simp, by simp [Helper.Live], fun _ => hsound⟩
      · exact ⟨rfl, rfl, by simp, fun _ => hsound, by simp⟩
    | ret =>
      have hret : (iteratorHelper env .ret h w).2 = ({ h with state := .completed },
          (closeRemainingOpen env h.openMask h.iterCount none w).2) := by
        rcases hlive with hs | hs <;> simp only [iteratorHelper, iteratorHelperReturn, hs]
      rw [hret]
      exact ⟨rfl, rfl, by simp, by simp [Helper.Live], fun _ => hends none⟩
    | throw v =>
      have hthrow : (iteratorHelper env (.throw v) h w).2 = ({ h with state := .completed },
          (closeRemainingOpen env h.openMask h.iterCount (some v) w).2) := by
        rcases hlive with hs | hs <;> simp only [iteratorHelper, iteratorHelperThrow, hs]
      rw [hthrow]
      exact ⟨rfl, rfl, by simp, by simp [Helper.Live], fun _ => hends (some v)⟩
  · rw [iteratorHelper_of_not_live env c hlive]
    exact hc

theorem Helper.Consistent.runCalls {h : Helper V} {w : World σ}
    (hc : h.Consistent count mode w.trace) (cs : List (Call V)) :
    (runCalls env cs h w).1.Consistent count mode (runCalls env cs h w).2.trace := by
  induction cs generalizing h w with
  | nil => exact hc
  | cons c cs ih => exact ih (hc.call env hcount c)

end Runs

theorem consistent_makeIteratorZipHelper (count : Nat) (mode : Mode)
    (padding keys : Option (List V)) :
    (makeIteratorZipHelper count mode padding keys).Consistent count mode [] := by
  refine ⟨rfl, rfl, by simp [makeIteratorZipHelper], fun _ => ?_, by simp [makeIteratorZipHelper]⟩
  refine ⟨⟨trivial, rfl, fun i _ => ?_⟩, fun i => List.not_mem_nil⟩
  exact iff_of_true (zipBitOpen_initial i) (by simp [Over])

/-- For at most 32 inputs, after any calls of the helper: no input was
stepped or closed after it had ended, thrown or been closed, inputs were
closed the last first, none before the end, and at the end every input is
over. In longest mode a call of `next` finds the end exactly if every input
is done then. -/
theorem zip_treats_every_input_once (count : Nat) (hcount : count ≤ 32) (mode : Mode)
    (padding keys : Option (List V)) (s : σ) (cs : List (Call V)) :
    let r := runCalls env cs (makeIteratorZipHelper count mode padding keys) ⟨s, []⟩
    Once r.2.trace ∧ (closings r.2.trace).Pairwise (· < ·) ∧
      (r.1.Live → closings r.2.trace = []) ∧
      (¬ r.1.Live → ∀ i < count, Over i r.2.trace) ∧
      (mode = .longest → r.1.Live →
        ((iteratorHelperNext env r.1 r.2).1 = .ok none ↔
          ∀ i < count, .next i .done ∈ (iteratorHelperNext env r.1 r.2).2.2.trace)) := by
  intro r
  have hc : r.1.Consistent count mode r.2.trace :=
    Helper.Consistent.runCalls env hcount
      (w := ⟨s, []⟩) (consistent_makeIteratorZipHelper count mode padding keys) cs
  by_cases hlive : r.1.Live
  · have hrun := hc.running hlive
    refine ⟨hrun.once, by simp [hrun.unclosed], fun _ => hrun.unclosed,
      fun h => absurd hlive h, fun hmode _ => ?_⟩
    have hstep := @helperStepZip_longest _ _ env r.1 (by rw [hc.iterCount]; exact hcount)
      (by rw [hc.mode, hmode]) r.2 (by rw [hc.iterCount]; exact hrun)
    rw [hc.iterCount] at hstep
    rcases hlive with hs | hs <;> simpa only [iteratorHelperNext, hs] using hstep
  · have hstate : r.1.state = .completed := by
      have hidle := hc.idle
      rw [Helper.Live, not_or] at hlive
      cases hs : r.1.state <;> simp_all
    have hend := hc.ended hstate
    exact ⟨hend.once, hend.reverse, fun h => absurd h hlive, fun _ => hend.allOver,
      fun _ h => absurd h hlive⟩

/-- Inputs that yield one value each, and of which the last of 33 is done
at once. -/
def lastIsDone : Inputs Unit Nat where
  undefined := 0
  typeError := fun _ => 1
  next := fun i s => (if i = 32 then .done else .more, s)
  value := fun i s => (.ok i, s)
  ret := fun _ s => (.object, s)

/-- Two inputs, stepped once and then closed. -/
theorem zip_treats_every_input_once_two :
    let stepped := runCalls lastIsDone [.next]
      (makeIteratorZipHelper 2 .longest none none) ⟨(), []⟩
    let closed := runCalls lastIsDone [.next, .ret]
      (makeIteratorZipHelper 2 .longest none none) ⟨(), []⟩
    Once closed.2.trace ∧ (closings closed.2.trace).Pairwise (· < ·) ∧
      (∀ i < 2, Over i closed.2.trace) ∧ closings stepped.2.trace = [] ∧
      ((iteratorHelperNext lastIsDone stepped.1 stepped.2).1 = .ok none ↔
        ∀ i < 2,
          .next i .done ∈ (iteratorHelperNext lastIsDone stepped.1 stepped.2).2.2.trace) := by
  intro stepped closed
  have hstepped := zip_treats_every_input_once lastIsDone 2 (by decide) .longest none none ()
    [.next]
  have hclosed := zip_treats_every_input_once lastIsDone 2 (by decide) .longest none none ()
    [.next, .ret]
  have hlive : stepped.1.Live := by
    unfold Helper.Live
    decide +kernel
  have hover : ¬ closed.1.Live := by
    unfold Helper.Live
    decide +kernel
  refine ⟨hclosed.1, hclosed.2.1, hclosed.2.2.2.1 hover, hstepped.2.2.1 hlive, ?_⟩
  dsimp only [stepped]
  exact hstepped.2.2.2.2 rfl hlive

/-- The 33rd input reports that it is done and is closed all the same. In
longest mode it is stepped again by the next call. -/
theorem zip_thirtyThree :
    ¬ Once (runCalls lastIsDone [.next] (makeIteratorZipHelper 33 .shortest none none)
        ⟨(), []⟩).2.trace ∧
      ¬ Once (runCalls lastIsDone [.next, .next]
        (makeIteratorZipHelper 33 .longest none none) ⟨(), []⟩).2.trace := by
  constructor <;> decide +kernel

end OxideJS.Iterator
