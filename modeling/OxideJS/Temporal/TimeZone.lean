import Mathlib.Algebra.Order.Group.Unbundled.Abs
import Mathlib.Algebra.Order.Ring.Nat
import Mathlib.Data.List.GetD
import Mathlib.Order.Bounds.Basic

/-!
Wall times and instants in a named time zone.

A zone is a table of transitions, each with the offset from then on, and
the offset before the first. An instant belongs to the interval between
two transitions, and its local time is shifted by the offset of that
interval.

To find the instants of a wall time, the wall time is read as if it were
an instant, and the offsets of its interval and of the two neighbours are
tried. Offsets are shorter than a day and transitions at least a day
apart, so no other interval can hold one.

Instants and wall times are in nanoseconds, transitions and offsets in
seconds. A wall time is the number of nanoseconds since the epoch that its
date and time would have without an offset.
-/

namespace OxideJS.Temporal

/-- A table as `parse_tzif` builds it. -/
structure TzifZone where
  lmtOffset : Int
  transitions : List (Int × Int)
  lastOffset : Int
  last_eq : lastOffset = (transitions.getLast?.map Prod.snd).getD lmtOffset

namespace TzifZone

variable (z : TzifZone)

/-- `partition_point` of the transitions up to a second. -/
def partitionPoint (s : Int) : Nat :=
  (z.transitions.takeWhile fun t => t.1 ≤ s).length

/-- The offset of the interval before transition `i`. -/
def intervalOffset (i : Nat) : Int :=
  if i = 0 then z.lmtOffset else (z.transitions.getD (i - 1) (0, 0)).2

def transitionTime (i : Nat) : Int :=
  (z.transitions.getD i (0, 0)).1

def tzOffsetSecondsOf (s : Int) : Int :=
  if z.transitions = [] then z.lastOffset
  else
    let idx := z.partitionPoint s
    if idx = 0 then z.lmtOffset
    else if idx = z.transitions.length then z.lastOffset
    else z.intervalOffset idx

/-- The offsets that are tried for a wall time. -/
def consideredOffsets (wallS : Int) : List Int :=
  let idx := z.partitionPoint wallS
  [z.intervalOffset idx]
    ++ (if idx < z.transitions.length then [z.intervalOffset (idx + 1)] else [])
    ++ if idx > 0 then [z.intervalOffset (idx - 1)] else []

end TzifZone

/-- `dedup`: of equal neighbours one is kept. -/
def dedupAdjacent : List Int → List Int
  | [] => []
  | [x] => [x]
  | x :: y :: l => if x = y then dedupAdjacent (y :: l) else x :: dedupAdjacent (y :: l)

namespace TzifZone

variable (z : TzifZone)

def namedZonePossibleEpochNs (wallNs : Int) : List Int :=
  let wallS := wallNs / 1000000000
  let candidates := ((z.consideredOffsets wallS).filter fun offset =>
    z.tzOffsetSecondsOf (wallS - offset) = offset).map fun offset =>
      wallNs - offset * 1000000000
  dedupAdjacent (candidates.mergeSort (· ≤ ·))

/-- The gap of transition `i`, if the wall time lies in it. -/
def gapAt (wallNs : Int) (i : Nat) : Option (Int × Int × Int) :=
  let t := z.transitionTime i
  let offsetBefore := z.intervalOffset i
  let offsetAfter := z.intervalOffset (i + 1)
  if offsetAfter > offsetBefore ∧ wallNs ≥ t * 1000000000 + offsetBefore * 1000000000
      ∧ wallNs < t * 1000000000 + offsetAfter * 1000000000 then
    some (t, offsetBefore, offsetAfter)
  else none

def tzGapTransition (wallNs : Int) : Option (Int × Int × Int) :=
  let idx := z.partitionPoint (wallNs / 1000000000)
  (if idx < z.transitions.length then z.gapAt wallNs idx else none).or
    (if idx > 0 then z.gapAt wallNs (idx - 1) else none)

end TzifZone

/-! ### Disambiguation -/

inductive AddZonedError where
  | outOfDateTimeRange
  | outOfInstantRange
  deriving DecidableEq

inductive Disambiguation where
  | compatible | earlier | later | reject
  deriving DecidableEq

/-- The last instant, and the negative of the first. -/
def maxInstantNs : Int :=
  8640000000000000000000

namespace TzifZone

variable (z : TzifZone)

def getPossibleEpochNanoseconds (wallNs : Int) : Except AddZonedError (List Int) :=
  let candidates := z.namedZonePossibleEpochNs wallNs
  if candidates.any fun epoch => |epoch| > maxInstantNs then .error .outOfInstantRange
  else .ok candidates

/-- The first or the last instant of a shifted wall time. -/
def chooseShifted (shifted : Int) (first : Bool) : Except AddZonedError Int :=
  match z.getPossibleEpochNanoseconds shifted with
  | .error e => .error e
  | .ok [] => .error .outOfDateTimeRange
  | .ok (epoch :: rest) =>
    .ok (if first then epoch else (epoch :: rest).getLast (List.cons_ne_nil _ _))

def disambiguate (wallNs : Int) (disambiguation : Disambiguation) (candidates : List Int) :
    Except AddZonedError Int :=
  match candidates with
  | [epoch] => .ok epoch
  | epoch :: next :: rest =>
    if disambiguation = .reject then .error .outOfDateTimeRange
    else
      .ok (if disambiguation = .later then
        (epoch :: next :: rest).getLast (List.cons_ne_nil _ _) else epoch)
  | [] =>
    if disambiguation = .reject then .error .outOfDateTimeRange
    else
      match z.tzGapTransition wallNs with
      | none => .error .outOfDateTimeRange
      | some (_, offsetBefore, offsetAfter) =>
        let shift := (offsetAfter - offsetBefore) * 1000000000
        let shifted := wallNs + if disambiguation = .earlier then -shift else shift
        z.chooseShifted shifted (disambiguation = .earlier)

end TzifZone

/-! ### Lists of candidates -/

theorem mem_dedupAdjacent {x : Int} (l : List Int) : x ∈ dedupAdjacent l ↔ x ∈ l := by
  induction l using dedupAdjacent.induct with
  | case1 => rfl
  | case2 y => rfl
  | case3 y l ih =>
    rw [dedupAdjacent, if_pos rfl, ih]
    simp
  | case4 y y' l hne ih =>
    rw [dedupAdjacent, if_neg hne, List.mem_cons, ih, ← List.mem_cons]

theorem pairwise_dedupAdjacent {l : List Int} (h : l.Pairwise (· ≤ ·)) :
    (dedupAdjacent l).Pairwise (· < ·) := by
  induction l using dedupAdjacent.induct with
  | case1 => exact List.Pairwise.nil
  | case2 y => exact List.pairwise_singleton _ _
  | case3 y l ih =>
    rw [dedupAdjacent, if_pos rfl]
    exact ih (List.pairwise_cons.1 h).2
  | case4 y y' l hne ih =>
    rw [dedupAdjacent, if_neg hne]
    obtain ⟨hfirst, hrest⟩ := List.pairwise_cons.1 h
    refine List.pairwise_cons.2 ⟨fun x hx => ?_, ih hrest⟩
    have hx' := (mem_dedupAdjacent _).1 hx
    have hle := hfirst y' List.mem_cons_self
    rcases List.mem_cons.1 hx' with rfl | hmem
    · omega
    · have := (List.pairwise_cons.1 hrest).1 x hmem
      omega

/-! ### Intervals -/

namespace TzifZone

variable {z : TzifZone}

/-- Transitions at least a day apart, offsets shorter than a day. -/
structure Regular (z : TzifZone) : Prop where
  spaced : z.transitions.Pairwise fun a b => a.1 + 86400 ≤ b.1
  lmt : -86400 < z.lmtOffset ∧ z.lmtOffset < 86400
  offsets : ∀ t ∈ z.transitions, -86400 < t.2 ∧ t.2 < 86400

theorem lt_length_takeWhile_iff {l : List (Int × Int)}
    (h : l.Pairwise fun a b => a.1 + 86400 ≤ b.1) (s : Int) {i : Nat} (hi : i < l.length) :
    i < (l.takeWhile fun t => t.1 ≤ s).length ↔ (l.getD i (0, 0)).1 ≤ s := by
  induction l generalizing i with
  | nil => simp at hi
  | cons a l ih =>
    obtain ⟨hfirst, hrest⟩ := List.pairwise_cons.1 h
    rw [List.takeWhile_cons]
    cases i with
    | zero =>
      by_cases ha : a.1 ≤ s
      · simp [ha]
      · simp [ha]
    | succ i =>
      simp only [List.length_cons, Nat.add_lt_add_iff_right] at hi
      by_cases ha : a.1 ≤ s
      · simp only [ha, decide_true, if_true, List.length_cons, Nat.add_lt_add_iff_right,
          List.getD_cons_succ]
        exact ih hrest hi
      · simp only [ha, decide_false, Bool.false_eq_true, if_false, List.length_nil, Nat.not_lt_zero,
          List.getD_cons_succ, false_iff]
        have := hfirst _ (List.getElem_mem hi)
        rw [List.getD_eq_getElem _ _ hi]
        omega

theorem partitionPoint_le (s : Int) : z.partitionPoint s ≤ z.transitions.length :=
  (List.takeWhile_prefix _).length_le

/-- The transitions before the partition point are those up to `s`. -/
theorem lt_partitionPoint_iff (hz : z.Regular) (s : Int) {i : Nat} (hi : i < z.transitions.length) :
    i < z.partitionPoint s ↔ z.transitionTime i ≤ s :=
  lt_length_takeWhile_iff hz.spaced s hi

theorem transitionTime_spaced (hz : z.Regular) {i j : Nat} (hij : i < j)
    (hj : j < z.transitions.length) : z.transitionTime i + 86400 ≤ z.transitionTime j := by
  have h := List.pairwise_iff_getElem.1 hz.spaced i j (by omega) hj hij
  rw [transitionTime, transitionTime, List.getD_eq_getElem _ _ hj,
    List.getD_eq_getElem _ _ (by omega)]
  exact h

theorem tzOffsetSecondsOf_eq (s : Int) :
    z.tzOffsetSecondsOf s = z.intervalOffset (z.partitionPoint s) := by
  rw [tzOffsetSecondsOf]
  split
  · next hnil =>
    rw [z.last_eq, partitionPoint, hnil]
    rfl
  · next hne =>
    dsimp only
    split
    · next h0 =>
      rw [h0]
      rfl
    · next h0 =>
      split
      · next hlen =>
        rw [hlen, intervalOffset, if_neg (by rw [hlen] at h0; exact h0), z.last_eq,
          List.getLast?_eq_getElem?]
        have hlt : z.transitions.length - 1 < z.transitions.length := by omega
        rw [List.getD_eq_getElem _ _ hlt, List.getElem?_eq_getElem hlt]
        rfl
      · rfl

theorem intervalOffset_bounds (hz : z.Regular) {i : Nat} (hi : i ≤ z.transitions.length) :
    -86400 < z.intervalOffset i ∧ z.intervalOffset i < 86400 := by
  rw [intervalOffset]
  split
  · exact hz.lmt
  · rw [List.getD_eq_getElem _ _ (by omega)]
    exact hz.offsets _ (List.getElem_mem _)

/-- Within a day there is at most one transition. -/
theorem partitionPoint_near (hz : z.Regular) {s s' : Int} (h : s' < s + 86400) :
    z.partitionPoint s' ≤ z.partitionPoint s + 1 := by
  by_contra hlt
  have hle := partitionPoint_le (z := z) s'
  have hnext : z.partitionPoint s + 1 < z.transitions.length := by omega
  have h1 := (lt_partitionPoint_iff hz s' hnext).1 (by omega)
  have h2 := transitionTime_spaced hz (Nat.lt_succ_self (z.partitionPoint s)) hnext
  have h3 := (lt_partitionPoint_iff hz s (i := z.partitionPoint s) (by omega)).not.1 (by omega)
  rw [Nat.succ_eq_add_one] at h2
  omega

/-! ### The instants of a wall time -/

/-- The local time of an instant. -/
def localNs (z : TzifZone) (epoch : Int) : Int :=
  epoch + z.tzOffsetSecondsOf (epoch / 1000000000) * 1000000000

theorem mem_consideredOffsets {s o : Int} :
    o ∈ z.consideredOffsets s ↔ o = z.intervalOffset (z.partitionPoint s)
      ∨ (z.partitionPoint s < z.transitions.length
          ∧ o = z.intervalOffset (z.partitionPoint s + 1))
      ∨ (0 < z.partitionPoint s ∧ o = z.intervalOffset (z.partitionPoint s - 1)) := by
  simp only [consideredOffsets, List.mem_append, List.mem_singleton, List.mem_ite_nil_right]
  tauto

/-- The offset of an instant is tried for its local time. -/
theorem offset_considered (hz : z.Regular) (s : Int) :
    z.tzOffsetSecondsOf s ∈ z.consideredOffsets (s + z.tzOffsetSecondsOf s) := by
  have hle := partitionPoint_le (z := z) s
  have hbounds := intervalOffset_bounds hz hle
  rw [tzOffsetSecondsOf_eq, mem_consideredOffsets]
  generalize hs' : s + z.intervalOffset (z.partitionPoint s) = s'
  have hle' := partitionPoint_le (z := z) s'
  have hup : z.partitionPoint s ≤ z.partitionPoint s' + 1 := partitionPoint_near hz (by omega)
  have hdown : z.partitionPoint s' ≤ z.partitionPoint s + 1 := partitionPoint_near hz (by omega)
  rcases Nat.lt_trichotomy (z.partitionPoint s) (z.partitionPoint s') with h | h | h
  · refine .inr (.inr ⟨by omega, ?_⟩)
    congr 1
    omega
  · exact .inl (by rw [h])
  · refine .inr (.inl ⟨by omega, ?_⟩)
    congr 1
    omega

theorem mem_namedZonePossibleEpochNs (hz : z.Regular) (wallNs epoch : Int) :
    epoch ∈ z.namedZonePossibleEpochNs wallNs ↔ z.localNs epoch = wallNs := by
  rw [namedZonePossibleEpochNs, mem_dedupAdjacent, List.mem_mergeSort, List.mem_map]
  simp only [List.mem_filter, decide_eq_true_eq, localNs]
  constructor
  · rintro ⟨o, ⟨-, ho⟩, rfl⟩
    have hdiv : (wallNs - o * 1000000000) / 1000000000 = wallNs / 1000000000 - o := by omega
    rw [hdiv, ho]
    omega
  · intro h
    have hdiv : wallNs / 1000000000
        = epoch / 1000000000 + z.tzOffsetSecondsOf (epoch / 1000000000) := by omega
    refine ⟨z.tzOffsetSecondsOf (epoch / 1000000000), ⟨?_, ?_⟩, by omega⟩
    · rw [hdiv]
      exact offset_considered hz _
    · rw [hdiv, add_sub_cancel_right]

theorem pairwise_namedZonePossibleEpochNs (z : TzifZone) (wallNs : Int) :
    (z.namedZonePossibleEpochNs wallNs).Pairwise (· < ·) := by
  refine pairwise_dedupAdjacent ?_
  have h : ∀ l : List Int,
      (l.mergeSort (· ≤ ·)).Pairwise fun a b => decide (a ≤ b) = true :=
    List.pairwise_mergeSort
      (fun a b c hab hbc => by simp only [decide_eq_true_eq] at *; omega)
      (fun a b => by simp only [Bool.or_eq_true, decide_eq_true_eq]; omega)
  exact (h _).imp fun hab => by simpa using hab

/-! ### Skipped wall times -/

theorem partitionPoint_eq (hz : z.Regular) {s : Int} {i : Nat} (hi : i ≤ z.transitions.length)
    (hlow : ∀ j, j + 1 = i → z.transitionTime j ≤ s)
    (hhigh : i < z.transitions.length → s < z.transitionTime i) : z.partitionPoint s = i := by
  have hle := partitionPoint_le (z := z) s
  rcases Nat.lt_trichotomy (z.partitionPoint s) i with h | h | h
  · have hpred := (lt_partitionPoint_iff hz s (i := i - 1) (by omega)).2
      (hlow (i - 1) (by omega))
    omega
  · exact h
  · have hnext := (lt_partitionPoint_iff hz s (i := i) (by omega)).1 h
    have := hhigh (by omega)
    omega

/-- The wall time is skipped at transition `i`. -/
def InGap (z : TzifZone) (wallNs : Int) (i : Nat) : Prop :=
  z.transitionTime i * 1000000000 + z.intervalOffset i * 1000000000 ≤ wallNs
    ∧ wallNs < z.transitionTime i * 1000000000 + z.intervalOffset (i + 1) * 1000000000

theorem gapAt_of_inGap {wallNs : Int} {i : Nat} (h : z.InGap wallNs i) :
    z.gapAt wallNs i
      = some (z.transitionTime i, z.intervalOffset i, z.intervalOffset (i + 1)) := by
  obtain ⟨hlow, hhigh⟩ := h
  rw [gapAt, if_pos ⟨by omega, hlow, hhigh⟩]

theorem gapAt_of_not_inGap {wallNs : Int} {i : Nat} (h : ¬z.InGap wallNs i) :
    z.gapAt wallNs i = none := by
  rw [gapAt, if_neg fun hgap => h ⟨hgap.2.1, hgap.2.2⟩]

theorem inGap_iff_seconds {wallNs : Int} {i : Nat} :
    z.InGap wallNs i ↔ z.transitionTime i + z.intervalOffset i ≤ wallNs / 1000000000
      ∧ wallNs / 1000000000 < z.transitionTime i + z.intervalOffset (i + 1) := by
  rw [InGap]
  omega

/-- Where a wall time has no instant, no offset leads to an instant that has it. -/
theorem partitionPoint_ne (hz : z.Regular) {wallNs : Int}
    (hnone : z.namedZonePossibleEpochNs wallNs = []) (i : Nat) :
    z.partitionPoint (wallNs / 1000000000 - z.intervalOffset i) ≠ i := by
  intro hi
  have hlocal : z.localNs (wallNs - z.intervalOffset i * 1000000000) = wallNs := by
    have hdiv : (wallNs - z.intervalOffset i * 1000000000) / 1000000000
        = wallNs / 1000000000 - z.intervalOffset i := by omega
    rw [localNs, hdiv, tzOffsetSecondsOf_eq, hi]
    omega
  have hmem := (mem_namedZonePossibleEpochNs hz wallNs _).2 hlocal
  rw [hnone] at hmem
  exact List.not_mem_nil hmem

/-- The interval of the wall time begins too late: the gap is the one before it. -/
theorem gap_before (hz : z.Regular) {wallNs : Int}
    (hnone : z.namedZonePossibleEpochNs wallNs = []) {j : Nat}
    (hidx : z.partitionPoint (wallNs / 1000000000) = j + 1) (hle : j + 1 ≤ z.transitions.length)
    (hdown : z.partitionPoint (wallNs / 1000000000 - z.intervalOffset (j + 1)) < j + 1) :
    z.InGap wallNs j ∧ z.tzGapTransition wallNs
      = some (z.transitionTime j, z.intervalOffset j, z.intervalOffset (j + 1)) := by
  have hcurrent := intervalOffset_bounds hz hle
  have hbefore := intervalOffset_bounds hz (show j ≤ z.transitions.length by omega)
  have hreached := (lt_partitionPoint_iff hz (wallNs / 1000000000) (i := j) (by omega)).1
    (by omega)
  have hlate := (lt_partitionPoint_iff hz
    (wallNs / 1000000000 - z.intervalOffset (j + 1)) (i := j) (by omega)).not.1 (by omega)
  have hgap : z.InGap wallNs j := by
    refine inGap_iff_seconds.2 ⟨?_, by omega⟩
    by_contra hearly
    refine partitionPoint_ne hz hnone j
      (partitionPoint_eq hz (by omega) (fun k hk => ?_) fun _ => by omega)
    have := transitionTime_spaced hz (show k < j by omega) (by omega)
    omega
  have hnext : (if j + 1 < z.transitions.length then z.gapAt wallNs (j + 1) else none)
      = none := by
    split
    · next hlen =>
      refine gapAt_of_not_inGap fun hother => ?_
      have hother' := (inGap_iff_seconds.1 hother).1
      have := (lt_partitionPoint_iff hz
        (wallNs / 1000000000 - z.intervalOffset (j + 1)) hlen).2 (by omega)
      omega
    · rfl
  refine ⟨hgap, ?_⟩
  rw [tzGapTransition, hidx, hnext, if_pos (Nat.succ_pos j), Nat.add_sub_cancel,
    gapAt_of_inGap hgap]
  rfl

/-- The interval of the wall time ends too early: the gap is the one after it. -/
theorem gap_after (hz : z.Regular) {wallNs : Int}
    (hnone : z.namedZonePossibleEpochNs wallNs = []) {idx : Nat}
    (hidx : z.partitionPoint (wallNs / 1000000000) = idx) (hlt : idx < z.transitions.length)
    (hup : idx < z.partitionPoint (wallNs / 1000000000 - z.intervalOffset idx)) :
    z.InGap wallNs idx ∧ z.tzGapTransition wallNs
      = some (z.transitionTime idx, z.intervalOffset idx, z.intervalOffset (idx + 1)) := by
  have hcurrent := intervalOffset_bounds hz hlt.le
  have hafter := intervalOffset_bounds hz (Nat.succ_le_of_lt hlt)
  have hreached := (lt_partitionPoint_iff hz
    (wallNs / 1000000000 - z.intervalOffset idx) hlt).1 hup
  have hahead := (lt_partitionPoint_iff hz (wallNs / 1000000000) hlt).not.1 (by omega)
  have hgap : z.InGap wallNs idx := by
    refine inGap_iff_seconds.2 ⟨by omega, ?_⟩
    by_contra hlate
    refine partitionPoint_ne hz hnone (idx + 1)
      (partitionPoint_eq hz hlt (fun k hk => ?_) fun hnext => ?_)
    · obtain rfl : k = idx := by omega
      omega
    · have := transitionTime_spaced hz (Nat.lt_succ_self idx) hnext
      rw [Nat.succ_eq_add_one] at this hafter
      omega
  refine ⟨hgap, ?_⟩
  rw [tzGapTransition, hidx, if_pos hlt, gapAt_of_inGap hgap]
  rfl

/-- A wall time of no instant is skipped at a transition next to it, and
that transition is found. -/
theorem exists_gap (hz : z.Regular) {wallNs : Int}
    (hnone : z.namedZonePossibleEpochNs wallNs = []) :
    ∃ i < z.transitions.length, z.InGap wallNs i ∧ z.tzGapTransition wallNs
      = some (z.transitionTime i, z.intervalOffset i, z.intervalOffset (i + 1)) := by
  generalize hidx : z.partitionPoint (wallNs / 1000000000) = idx
  have hle : idx ≤ z.transitions.length := hidx ▸ partitionPoint_le _
  rcases Nat.lt_or_gt_of_ne (partitionPoint_ne hz hnone idx) with hdown | hup
  · obtain ⟨j, rfl⟩ : ∃ j, idx = j + 1 := ⟨idx - 1, by omega⟩
    exact ⟨j, hle, gap_before hz hnone hidx hle hdown⟩
  · have hlen := partitionPoint_le (z := z) (wallNs / 1000000000 - z.intervalOffset idx)
    exact ⟨idx, by omega, gap_after hz hnone hidx (by omega) hup⟩

/-! ### Choosing an instant -/

/-- The instants of a wall time. -/
def instantsOf (z : TzifZone) (wallNs : Int) : Set Int :=
  {epoch | z.localNs epoch = wallNs}

/-- All instants of a wall time are in range. -/
def Representable (z : TzifZone) (wallNs : Int) : Prop :=
  ∀ epoch ∈ z.instantsOf wallNs, |epoch| ≤ maxInstantNs

theorem isLeast_head (hz : z.Regular) {wallNs epoch : Int} {rest : List Int}
    (h : z.namedZonePossibleEpochNs wallNs = epoch :: rest) :
    IsLeast (z.instantsOf wallNs) epoch := by
  have hsorted := pairwise_namedZonePossibleEpochNs z wallNs
  have hmem := mem_namedZonePossibleEpochNs hz wallNs
  rw [h] at hsorted hmem
  refine ⟨(hmem epoch).1 List.mem_cons_self, fun x hx => ?_⟩
  rcases List.mem_cons.1 ((hmem x).2 hx) with rfl | hx'
  · exact le_rfl
  · exact ((List.pairwise_cons.1 hsorted).1 x hx').le

theorem isGreatest_getLast (hz : z.Regular) {wallNs epoch : Int} {rest : List Int}
    (h : z.namedZonePossibleEpochNs wallNs = epoch :: rest) :
    IsGreatest (z.instantsOf wallNs) ((epoch :: rest).getLast (List.cons_ne_nil _ _)) := by
  have hsorted := pairwise_namedZonePossibleEpochNs z wallNs
  have hmem := mem_namedZonePossibleEpochNs hz wallNs
  rw [h] at hsorted hmem
  refine ⟨(hmem _).1 (List.getLast_mem _), fun x hx => ?_⟩
  obtain ⟨i, hi, rfl⟩ := List.getElem_of_mem ((hmem x).2 hx)
  rw [List.getLast_eq_getElem]
  rcases Nat.lt_or_ge i ((epoch :: rest).length - 1) with hlt | hge
  · exact (List.pairwise_iff_getElem.1 hsorted i _ hi (by simp) hlt).le
  · have heq : i = (epoch :: rest).length - 1 := by omega
    simp only [heq, le_refl]

theorem getPossibleEpochNanoseconds_ok_iff (hz : z.Regular) {wallNs : Int} {l : List Int} :
    z.getPossibleEpochNanoseconds wallNs = .ok l ↔
      z.namedZonePossibleEpochNs wallNs = l ∧ z.Representable wallNs := by
  have hany : ((z.namedZonePossibleEpochNs wallNs).any fun epoch => |epoch| > maxInstantNs) = true
      ↔ ¬z.Representable wallNs := by
    simp only [List.any_eq_true, decide_eq_true_eq, Representable, instantsOf, Set.mem_ofPred_eq,
      mem_namedZonePossibleEpochNs hz, not_forall, not_le, exists_prop, gt_iff_lt]
  rw [getPossibleEpochNanoseconds]
  by_cases hrep : z.Representable wallNs
  · rw [if_neg (fun h => hany.1 h hrep)]
    simp [hrep]
  · rw [if_pos (hany.2 hrep)]
    simp [hrep]

theorem instantsOf_eq_empty (hz : z.Regular) {wallNs : Int}
    (h : z.namedZonePossibleEpochNs wallNs = []) : z.instantsOf wallNs = ∅ := by
  ext x
  have hmem := mem_namedZonePossibleEpochNs hz wallNs x
  rw [h] at hmem
  simpa [instantsOf] using hmem.symm

/-- The choice is the extreme instant of the shifted wall time. -/
theorem chooseShifted_ok_iff (hz : z.Regular) {shifted : Int} (first : Bool) (epoch : Int) :
    z.chooseShifted shifted first = .ok epoch ↔ z.Representable shifted
      ∧ if first then IsLeast (z.instantsOf shifted) epoch
        else IsGreatest (z.instantsOf shifted) epoch := by
  by_cases hrep : z.Representable shifted
  · have hok := (getPossibleEpochNanoseconds_ok_iff hz).2
      ⟨(rfl : z.namedZonePossibleEpochNs shifted = _), hrep⟩
    rw [chooseShifted, hok, and_iff_right hrep]
    cases hlist : z.namedZonePossibleEpochNs shifted with
    | nil =>
      rw [instantsOf_eq_empty hz hlist]
      refine iff_of_false (by simp) ?_
      split
      · exact fun h => h.1
      · exact fun h => h.1
    | cons x rest =>
      have hleast := isLeast_head hz hlist
      have hgreatest := isGreatest_getLast hz hlist
      simp only [Except.ok.injEq]
      split
      · exact ⟨fun h => h ▸ hleast, fun h => hleast.unique h⟩
      · exact ⟨fun h => h ▸ hgreatest, fun h => hgreatest.unique h⟩
  · refine iff_of_false ?_ fun h => hrep h.1
    rw [chooseShifted]
    cases hpossible : z.getPossibleEpochNanoseconds shifted with
    | error e => simp
    | ok l => exact absurd ((getPossibleEpochNanoseconds_ok_iff hz).1 hpossible).2 hrep

/-! ### The shifted wall time of a gap -/

/-- Transitions at least four days apart. -/
def FarApart (z : TzifZone) : Prop :=
  z.transitions.Pairwise fun a b => a.1 + 345600 ≤ b.1

theorem FarApart.spaced (h : z.FarApart) {i j : Nat} (hij : i < j)
    (hj : j < z.transitions.length) : z.transitionTime i + 345600 ≤ z.transitionTime j := by
  have hpair := List.pairwise_iff_getElem.1 h i j (by omega) hj hij
  rw [transitionTime, transitionTime, List.getD_eq_getElem _ _ hj,
    List.getD_eq_getElem _ _ (by omega)]
  exact hpair

/-- The instant before the gap at which the clock shows the skipped wall
time less the length of the gap. -/
def beforeGap (z : TzifZone) (wallNs : Int) (i : Nat) : Int :=
  wallNs - z.intervalOffset (i + 1) * 1000000000

/-- The instant after the gap at which the clock shows the skipped wall
time plus the length of the gap. -/
def afterGap (z : TzifZone) (wallNs : Int) (i : Nat) : Int :=
  wallNs - z.intervalOffset i * 1000000000

def gapShift (z : TzifZone) (i : Nat) : Int :=
  (z.intervalOffset (i + 1) - z.intervalOffset i) * 1000000000

/-- An instant of the interval between two transitions is the only one
there with its local time. -/
theorem localNs_of_partitionPoint {epoch : Int} {i : Nat}
    (h : z.partitionPoint (epoch / 1000000000) = i) :
    z.localNs epoch = epoch + z.intervalOffset i * 1000000000 := by
  rw [localNs, tzOffsetSecondsOf_eq, h]

theorem isLeast_beforeGap (hz : z.Regular) (hfar : z.FarApart) {wallNs : Int} {i : Nat}
    (hi : i < z.transitions.length) (hgap : z.InGap wallNs i) :
    IsLeast (z.instantsOf (wallNs - z.gapShift i)) (z.beforeGap wallNs i) := by
  have hbefore := intervalOffset_bounds hz hi.le
  have hafter := intervalOffset_bounds hz (Nat.succ_le_of_lt hi)
  rw [Nat.succ_eq_add_one] at hafter
  obtain ⟨hlow, hhigh⟩ := inGap_iff_seconds.1 hgap
  have hdiv : z.beforeGap wallNs i / 1000000000
      = wallNs / 1000000000 - z.intervalOffset (i + 1) := by
    rw [beforeGap]
    omega
  -- what lies less than four days before the transition lies in the interval it ends
  have hinterval : ∀ s : Int, s < z.transitionTime i → z.transitionTime i - 345600 ≤ s →
      z.partitionPoint s = i := by
    intro s hs hs'
    refine partitionPoint_eq hz hi.le (fun k hk => ?_) fun _ => hs
    have := hfar.spaced (show k < i by omega) hi
    omega
  have hat := localNs_of_partitionPoint (hinterval (z.beforeGap wallNs i / 1000000000)
    (by omega) (by omega))
  constructor
  · show z.localNs _ = _
    rw [hat, beforeGap, gapShift]
    omega
  · intro x hx
    have hx' : z.localNs x = wallNs - z.gapShift i := hx
    by_contra hlt
    have hbounds := intervalOffset_bounds hz (partitionPoint_le (z := z) (x / 1000000000))
    have hxlocal : z.localNs x
        = x + z.intervalOffset (z.partitionPoint (x / 1000000000)) * 1000000000 :=
      localNs_of_partitionPoint rfl
    have hxdiv : x / 1000000000 ≤ z.beforeGap wallNs i / 1000000000 := by omega
    simp only [beforeGap, gapShift] at *
    have hpoint := hinterval (x / 1000000000) (by omega) (by omega)
    rw [hpoint] at hxlocal
    omega

theorem isGreatest_afterGap (hz : z.Regular) (hfar : z.FarApart) {wallNs : Int} {i : Nat}
    (hi : i < z.transitions.length) (hgap : z.InGap wallNs i) :
    IsGreatest (z.instantsOf (wallNs + z.gapShift i)) (z.afterGap wallNs i) := by
  have hbefore := intervalOffset_bounds hz hi.le
  have hafter := intervalOffset_bounds hz (Nat.succ_le_of_lt hi)
  rw [Nat.succ_eq_add_one] at hafter
  obtain ⟨hlow, hhigh⟩ := inGap_iff_seconds.1 hgap
  have hdiv : z.afterGap wallNs i / 1000000000 = wallNs / 1000000000 - z.intervalOffset i := by
    rw [afterGap]
    omega
  have hinterval : ∀ s : Int, z.transitionTime i ≤ s → s < z.transitionTime i + 345600 →
      z.partitionPoint s = i + 1 := by
    intro s hs hs'
    refine partitionPoint_eq hz hi (fun k hk => ?_) fun hnext => ?_
    · obtain rfl : k = i := by omega
      exact hs
    · have := hfar.spaced (Nat.lt_succ_self i) hnext
      rw [Nat.succ_eq_add_one] at this
      omega
  have hat := localNs_of_partitionPoint (hinterval (z.afterGap wallNs i / 1000000000)
    (by omega) (by omega))
  constructor
  · show z.localNs _ = _
    rw [hat, afterGap, gapShift]
    omega
  · intro x hx
    have hx' : z.localNs x = wallNs + z.gapShift i := hx
    by_contra hlt
    have hbounds := intervalOffset_bounds hz (partitionPoint_le (z := z) (x / 1000000000))
    have hxlocal : z.localNs x
        = x + z.intervalOffset (z.partitionPoint (x / 1000000000)) * 1000000000 :=
      localNs_of_partitionPoint rfl
    have hxdiv : z.afterGap wallNs i / 1000000000 ≤ x / 1000000000 := by omega
    simp only [afterGap, gapShift] at *
    have hpoint := hinterval (x / 1000000000) (by omega) (by omega)
    rw [hpoint] at hxlocal
    omega

/-! ### The law -/

/-- The answer for a wall time with instants: the first, the last, or a
refusal if there is more than one. -/
theorem disambiguate_cons (wallNs epoch : Int) (rest : List Int) (d : Disambiguation) :
    z.disambiguate wallNs d (epoch :: rest) =
      if d = .reject ∧ rest ≠ [] then .error .outOfDateTimeRange
      else .ok (if d = .later then (epoch :: rest).getLast (List.cons_ne_nil _ _) else epoch) := by
  cases rest with
  | nil => simp [disambiguate]
  | cons next rest => simp [disambiguate]

/-- The answer for a skipped wall time. -/
theorem disambiguate_nil {wallNs : Int} {i : Nat} (hgap : z.tzGapTransition wallNs
      = some (z.transitionTime i, z.intervalOffset i, z.intervalOffset (i + 1)))
    (d : Disambiguation) :
    z.disambiguate wallNs d [] =
      if d = .reject then .error .outOfDateTimeRange
      else if d = .earlier then z.chooseShifted (wallNs - z.gapShift i) true
      else z.chooseShifted (wallNs + z.gapShift i) false := by
  rw [disambiguate, hgap]
  cases d with
  | compatible => simp [gapShift]
  | later => simp [gapShift]
  | reject => simp
  | earlier => simp [gapShift, sub_eq_add_neg]

/-- **Wall times and instants.** The candidates are, in ascending order,
exactly the instants whose local time is the wall time. If there are any,
the first or the last of them is chosen, and several are refused on
request. If there are none, the wall time is skipped at one transition,
and the answer is an instant on the side that is asked for: the one a gap's
length away from the wall time exactly when that is the first, or the
last, instant of its own wall time, which it is if transitions are four
days apart. -/
theorem wallTime_instants (z : TzifZone) (hz : z.Regular) (wallNs : Int) :
    (z.namedZonePossibleEpochNs wallNs).Pairwise (· < ·)
      ∧ (∀ epoch, epoch ∈ z.namedZonePossibleEpochNs wallNs ↔ z.localNs epoch = wallNs)
      ∧ (∀ epoch rest, z.namedZonePossibleEpochNs wallNs = epoch :: rest →
        ∃ last, IsLeast (z.instantsOf wallNs) epoch ∧ IsGreatest (z.instantsOf wallNs) last
          ∧ ∀ d, z.disambiguate wallNs d (epoch :: rest) =
            if d = .reject ∧ rest ≠ [] then .error .outOfDateTimeRange
            else .ok (if d = .later then last else epoch))
      ∧ (z.namedZonePossibleEpochNs wallNs = [] → ∃ i < z.transitions.length,
        z.InGap wallNs i
          ∧ z.disambiguate wallNs .reject [] = .error .outOfDateTimeRange
          ∧ (z.disambiguate wallNs .earlier [] = .ok (z.beforeGap wallNs i)
            ↔ z.Representable (wallNs - z.gapShift i)
              ∧ IsLeast (z.instantsOf (wallNs - z.gapShift i)) (z.beforeGap wallNs i))
          ∧ (∀ d, d = .compatible ∨ d = .later →
            (z.disambiguate wallNs d [] = .ok (z.afterGap wallNs i)
              ↔ z.Representable (wallNs + z.gapShift i)
                ∧ IsGreatest (z.instantsOf (wallNs + z.gapShift i)) (z.afterGap wallNs i)))
          ∧ (z.FarApart → IsLeast (z.instantsOf (wallNs - z.gapShift i)) (z.beforeGap wallNs i)
            ∧ IsGreatest (z.instantsOf (wallNs + z.gapShift i)) (z.afterGap wallNs i))) := by
  refine ⟨pairwise_namedZonePossibleEpochNs z wallNs, mem_namedZonePossibleEpochNs hz wallNs,
    fun epoch rest hcons => ?_, fun hnone => ?_⟩
  · exact ⟨_, isLeast_head hz hcons, isGreatest_getLast hz hcons,
      disambiguate_cons wallNs epoch rest⟩
  · obtain ⟨i, hi, hgap, hfound⟩ := exists_gap hz hnone
    refine ⟨i, hi, hgap, ?_, ?_, ?_, fun hfar => ?_⟩
    · rw [disambiguate_nil hfound, if_pos rfl]
    · rw [disambiguate_nil hfound, if_neg (by decide), if_pos rfl, chooseShifted_ok_iff hz,
        if_pos rfl]
    · intro d hd
      rw [disambiguate_nil hfound, if_neg (by rcases hd with rfl | rfl <;> decide),
        if_neg (by rcases hd with rfl | rfl <;> decide), chooseShifted_ok_iff hz,
        if_neg (by decide)]
    · exact ⟨isLeast_beforeGap hz hfar hi hgap, isGreatest_afterGap hz hfar hi hgap⟩

/-- A zone with one jump of an hour forwards, at the epoch. -/
def hourForward : TzifZone :=
  ⟨0, [(0, 3600)], 3600, rfl⟩

theorem hourForward_regular : hourForward.Regular :=
  ⟨List.pairwise_singleton _ _, by decide, by decide⟩

/-- Half an hour into the skipped hour. -/
theorem wallTime_instants_skipped :
    hourForward.namedZonePossibleEpochNs 1800000000000 = []
      ∧ ∃ i < 1, hourForward.InGap 1800000000000 i
        ∧ IsLeast (hourForward.instantsOf (1800000000000 - hourForward.gapShift i))
          (hourForward.beforeGap 1800000000000 i) := by
  have hnone : hourForward.namedZonePossibleEpochNs 1800000000000 = [] := by decide +kernel
  obtain ⟨i, hi, hgap, -, -, -, hfar⟩ :=
    (wallTime_instants hourForward hourForward_regular 1800000000000).2.2.2 hnone
  exact ⟨hnone, i, hi, hgap, (hfar (List.pairwise_singleton _ _)).1⟩

/-- Two jumps forwards, of thirteen and of thirty-three hours, a day
apart. -/
def twoJumps : TzifZone :=
  ⟨-82800, [(0, -36000), (86400, 82800)], 82800, rfl⟩

theorem twoJumps_regular : twoJumps.Regular :=
  ⟨by decide, by decide, by decide⟩

/-- A wall time in the second gap, less that gap's length, lies in the
first gap, so it has no instant and the call fails. -/
theorem wallTime_instants_refused :
    twoJumps.Regular ∧ twoJumps.namedZonePossibleEpochNs 50400000000000 = []
      ∧ twoJumps.disambiguate 50400000000000 .earlier [] = .error .outOfDateTimeRange := by
  refine ⟨twoJumps_regular, by decide +kernel, by decide +kernel⟩

end TzifZone

end OxideJS.Temporal
