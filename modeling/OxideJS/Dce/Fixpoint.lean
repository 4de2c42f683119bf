import OxideJS.Dce.Sweep
import OxideJS.Lib.Pruning
import Mathlib.Data.List.Perm.Subperm
import Mathlib.Data.Finset.Card

/-!
The worklist against repeated full scans.

Both delete what may be deleted and stop when nothing may be deleted any
more, so both end with the greatest set of instructions that is stable.
For the worklist this takes three facts. The counts are always those of
the instructions that are left. An instruction that has become dead is in
the queue. And an instruction is put into the queue when the register it
writes is not read any more, which does not change later, so that it is
enough to look at it once.
-/

namespace OxideJS.Dce

open OxideJS.Lib.Pruning

variable {c : Code} {keep keep' keep₀ : Nat → Bool}

/-! ### Dead instructions -/

/-- The part of the test that does not depend on what is left. -/
def Code.removable (c : Code) (i : Nat) : Prop :=
  c.labelTarget i = false ∧ ∃ r, c.defAt i = some r ∧ c.slotEscapes i r = false ∧
    c.pureAt i = true

/-- An instruction may be deleted when nothing that is left reads the
register it writes. -/
def Code.may (c : Code) (K : Set Nat) (i : Nat) : Prop :=
  c.removable i ∧ ∀ r, c.defAt i = some r → ∀ j ∈ K, r ∉ c.usesAt j

def kept (keep : Nat → Bool) : Set Nat := {i | keep i = true}

theorem Code.may_monotonic (c : Code) : Monotonic c.may :=
  fun _ _ _ hsub h => ⟨h.1, fun r hr j hj => h.2 r hr j (hsub hj)⟩

theorem Code.usesAt_of_ge {j : Nat} (h : c.len ≤ j) : c.usesAt j = [] := by
  rw [Code.usesAt, List.getElem?_eq_none h]
  rfl

theorem Code.defAt_lt {i r : Nat} (h : c.defAt i = some r) : i < c.len := by
  by_contra hge
  rw [Code.defAt, List.getElem?_eq_none (Nat.le_of_not_lt hge)] at h
  cases h

theorem Code.useCounts_eq_zero_iff {r : Nat} :
    c.useCounts keep r = 0 ↔ ∀ j, keep j = true → r ∉ c.usesAt j := by
  simp only [Code.useCounts, List.count_eq_zero, List.mem_flatMap, List.mem_filter, List.mem_range,
    not_exists, not_and, and_imp]
  constructor
  · intro h j hj
    by_cases hlt : j < c.len
    · exact h j hlt hj
    · simp [Code.usesAt_of_ge (Nat.le_of_not_lt hlt)]
  · exact fun h j _ hj => h j hj

theorem Code.isDead_iff {useCount : Nat → Nat} {i : Nat} :
    c.isDead keep useCount i = true ↔
      keep i = true ∧ c.removable i ∧ ∃ r, c.defAt i = some r ∧ useCount r = 0 := by
  rw [Code.isDead, Code.removable]
  cases hdef : c.defAt i with
  | none => simp
  | some r => simp [and_assoc, and_comm, and_left_comm]

/-- With the counts of what is left, the test is exact. -/
theorem Code.isDead_useCounts_iff {i : Nat} :
    c.isDead keep (c.useCounts keep) i = true ↔ i ∈ kept keep ∧ c.may (kept keep) i := by
  rw [Code.isDead_iff, Code.may]
  refine and_congr_right fun _ => and_congr_right fun hrem => ?_
  obtain ⟨-, r, hr, -⟩ := hrem
  constructor
  · rintro ⟨r', hr', hzero⟩ r'' hr'' j hj
    rw [hr'] at hr''
    cases hr''
    exact Code.useCounts_eq_zero_iff.1 hzero j hj
  · exact fun h => ⟨r, hr, Code.useCounts_eq_zero_iff.2 (h r hr)⟩

/-! ### Full scans -/

theorem sparing_scan (h : Sparing c.may (kept keep₀) (kept keep)) :
    Sparing c.may (kept keep₀) (kept (scan c keep)) := by
  refine h.delete c.may_monotonic (fun i hi => ?_) fun i hi hnot => ?_
  · exact (Bool.and_eq_true_iff.1 hi).1
  · have hdead : c.isDead keep (c.useCounts keep) i = true := by
      by_contra hlive
      refine hnot ?_
      change (keep i && !c.isDead keep (c.useCounts keep) i) = true
      rw [Bool.and_eq_true, Bool.not_eq_true']
      exact ⟨hi, by simpa using hlive⟩
    exact (Code.isDead_useCounts_iff.1 hdead).2

/-- A scan that changes nothing has found nothing to delete. -/
theorem stable_of_scan_eq (h : ∀ i < c.len, scan c keep i = keep i) :
    Stable c.may (kept keep) := by
  intro i hi hmay
  obtain ⟨-, r, hr, -⟩ := hmay.1
  have hdead := Code.isDead_useCounts_iff.2 ⟨hi, hmay⟩
  have hscan := h i (Code.defAt_lt hr)
  rw [scan, hdead, show keep i = true from hi] at hscan
  cases hscan

/-- The number of instructions that are left. -/
def leftOver (c : Code) (keep : Nat → Bool) : Nat :=
  ((Finset.range c.len).filter (keep · = true)).card

theorem leftOver_scan_lt (h : ∃ i < c.len, scan c keep i ≠ keep i) :
    leftOver c (scan c keep) < leftOver c keep := by
  obtain ⟨i, hlt, hne⟩ := h
  refine Finset.card_lt_card ?_
  rw [Finset.ssubset_iff_of_subset]
  · refine ⟨i, ?_, ?_⟩
    · simp only [Finset.mem_filter, Finset.mem_range]
      refine ⟨hlt, ?_⟩
      by_contra hfalse
      exact hne (by simp [scan, hfalse])
    · simp only [Finset.mem_filter, Finset.mem_range, not_and]
      intro _ hscan
      refine hne (hscan.trans ?_)
      exact ((Bool.and_eq_true_iff.1 hscan).1).symm
  · intro j hj
    simp only [Finset.mem_filter, Finset.mem_range] at hj ⊢
    exact ⟨hj.1, (Bool.and_eq_true_iff.1 hj.2).1⟩

/-- As many scans as there are instructions are enough. -/
theorem fullScans_spec {k : Nat} (hk : leftOver c keep ≤ k)
    (h : Sparing c.may (kept keep₀) (kept keep)) :
    Sparing c.may (kept keep₀) (kept (fullScans c k keep)) ∧
      Stable c.may (kept (fullScans c k keep)) := by
  induction k generalizing keep with
  | zero =>
    refine ⟨h, stable_of_scan_eq fun i hi => ?_⟩
    by_contra hne
    exact Nat.not_lt_zero _ (Nat.lt_of_lt_of_le (leftOver_scan_lt ⟨i, hi, hne⟩) hk)
  | succ k ih =>
    rw [fullScans]
    split
    · next hall =>
      refine ⟨h, stable_of_scan_eq fun i hi => ?_⟩
      simpa using List.all_eq_true.1 hall i (List.mem_range.2 hi)
    · next hnot =>
      have hlt : leftOver c (scan c keep) < leftOver c keep := by
        refine leftOver_scan_lt ?_
        by_contra hnone
        refine hnot (List.all_eq_true.2 fun i hi => ?_)
        simp only [not_exists, not_and, not_not] at hnone
        simpa using hnone i (List.mem_range.1 hi)
      exact ih (by omega) (sparing_scan h)

/-! ### The queue -/

namespace Sweep

variable {s : Sweep}

/-- What is put behind the queue: instructions that are kept and not yet
flagged, and every kept one with a given property. -/
structure Appends (P : Nat → Prop) (s s' : Sweep) : Prop where
  keep : s'.keep = s.keep
  more : ∃ more : List Nat, s'.queue = s.queue ++ more ∧ more.Nodup ∧
    (∀ i, s'.inQueue i = true ↔ s.inQueue i = true ∨ i ∈ more) ∧
    ∀ i ∈ more, P i ∧ s.inQueue i = false
  all : ∀ i, P i → s.keep i = true → s'.inQueue i = true

theorem Appends.refl {P : Nat → Prop} (s : Sweep) (h : ∀ i, ¬P i) : Appends P s s :=
  ⟨rfl, ⟨[], by simp, by simp, by simp, by simp⟩, fun i hi => absurd hi (h i)⟩

theorem Appends.trans {P Q R : Nat → Prop} {s s' s'' : Sweep} (h : Appends P s s')
    (h' : Appends Q s' s'') (hR : ∀ i, R i ↔ P i ∨ Q i) : Appends R s s'' := by
  obtain ⟨hkeep, ⟨more, hqueue, hnodup, hflags, hmore⟩, hall⟩ := h
  obtain ⟨hkeep', ⟨more', hqueue', hnodup', hflags', hmore'⟩, hall'⟩ := h'
  refine ⟨hkeep'.trans hkeep,
    ⟨more ++ more', by rw [hqueue', hqueue, List.append_assoc], ?_, ?_, ?_⟩,
    ?_⟩
  · refine List.nodup_append.2 ⟨hnodup, hnodup', fun i hi j hj heq => ?_⟩
    subst heq
    have hflag := (hflags i).2 (.inr hi)
    rw [(hmore' i hj).2] at hflag
    cases hflag
  · intro i
    rw [hflags', hflags, List.mem_append, or_assoc]
  · intro i hi
    rcases List.mem_append.1 hi with hi | hi
    · exact ⟨(hR i).2 (.inl (hmore i hi).1), (hmore i hi).2⟩
    · refine ⟨(hR i).2 (.inr (hmore' i hi).1), ?_⟩
      by_contra hflag
      have hflag' := (hflags i).2 (.inl (by simpa using hflag))
      rw [(hmore' i hi).2] at hflag'
      cases hflag'
  · intro i hi hk
    rcases (hR i).1 hi with hP | hQ
    · exact (hflags' i).2 (.inl (hall i hP hk))
    · exact hall' i hQ (by rwa [hkeep])

theorem appends_enqueueOne (s : Sweep) (d : Nat) : Appends (· = d) s (s.enqueueOne d) := by
  rw [enqueueOne]
  split
  · next hd =>
    obtain ⟨-, hqd⟩ : s.keep d = true ∧ s.inQueue d = false := by simpa using hd
    refine ⟨rfl, ⟨[d], rfl, List.nodup_singleton d, fun i => ?_, fun i hi => ?_⟩, ?_⟩
    · by_cases hi : i = d
      · simp [hi]
      · simp [hi]
    · obtain rfl : i = d := by simpa using hi
      exact ⟨rfl, hqd⟩
    · rintro i rfl -
      simp
  · next hd =>
    have hd' : s.keep d = true → s.inQueue d = true := by simpa using hd
    refine ⟨rfl, ⟨[], by simp, by simp, by simp, by simp⟩, ?_⟩
    rintro i rfl hk
    exact hd' hk

theorem appends_enqueue (s : Sweep) (ds : List Nat) : Appends (· ∈ ds) s (s.enqueue ds) := by
  induction ds generalizing s with
  | nil => exact .refl s (by simp)
  | cons d ds ih =>
    refine (appends_enqueueOne s d).trans (ih (s.enqueueOne d)) fun i => ?_
    rw [List.mem_cons]

theorem useCount_enqueue (s : Sweep) (ds : List Nat) : (s.enqueue ds).useCount = s.useCount := by
  induction ds generalizing s with
  | nil => rfl
  | cons d ds ih =>
    refine (ih (s.enqueueOne d)).trans ?_
    rw [enqueueOne]
    split
    · rfl
    · rfl

theorem useCount_dropUse (c : Code) (keep₀ : Nat → Bool) {s : Sweep} {u : Nat}
    (hpos : 1 ≤ s.useCount u) (v : Nat) :
    (s.dropUse c keep₀ u).useCount v + (if u = v then 1 else 0) = s.useCount v := by
  have hcount : (s.dropUse c keep₀ u).useCount
      = Function.update s.useCount u (s.useCount u - 1) := by
    rw [dropUse]
    dsimp only
    split
    · exact useCount_enqueue _ _
    · rfl
  rw [hcount]
  by_cases hv : u = v
  · subst hv
    rw [Function.update_self, if_pos rfl]
    omega
  · rw [Function.update_of_ne (Ne.symm hv), if_neg hv, Nat.add_zero]

/-- Taking the last read of a register off its count queues its definitions. -/
theorem appends_dropUse (c : Code) (keep₀ : Nat → Bool) {s : Sweep} {u : Nat}
    (hpos : 1 ≤ s.useCount u) :
    Appends (fun i => s.useCount u = 1 ∧ i ∈ c.definers keep₀ u) s (s.dropUse c keep₀ u) := by
  rw [dropUse]
  dsimp only
  split
  · next hzero =>
    rw [Function.update_self] at hzero
    obtain ⟨hkeep, hmore, hall⟩ := appends_enqueue
      { s with useCount := Function.update s.useCount u (s.useCount u - 1) }
      (c.definers keep₀ u)
    obtain ⟨more, hqueue, hnodup, hflags, hmem⟩ := hmore
    refine ⟨hkeep, ⟨more, hqueue, hnodup, hflags, fun i hi => ?_⟩, fun i hi => hall i hi.2⟩
    exact ⟨⟨by omega, (hmem i hi).1⟩, (hmem i hi).2⟩
  · next hne =>
    rw [Function.update_self] at hne
    refine ⟨rfl, ⟨[], by simp, by simp, by simp, by simp⟩, fun i hi => ?_⟩
    exact absurd (show s.useCount u - 1 = 0 by omega) hne

/-- Taking the reads of a deleted instruction off the counts. -/
theorem appends_dropUses (c : Code) (keep₀ : Nat → Bool) (us : List Nat) (s : Sweep)
    (hle : ∀ u, us.count u ≤ s.useCount u) :
    (∀ r, (us.foldl (dropUse c keep₀) s).useCount r = s.useCount r - us.count r) ∧
      Appends (fun i => ∃ u ∈ us, s.useCount u = us.count u ∧ i ∈ c.definers keep₀ u) s
        (us.foldl (dropUse c keep₀) s) := by
  induction us generalizing s with
  | nil => exact ⟨fun r => by simp, .refl s (by simp)⟩
  | cons u us ih =>
    have hcons (v : Nat) : (u :: us).count v = us.count v + if u = v then 1 else 0 := by
      simp only [List.count_cons, beq_iff_eq]
    have hu := hle u
    rw [hcons, if_pos rfl] at hu
    have hpos : 1 ≤ s.useCount u := by omega
    have hcount := useCount_dropUse c keep₀ hpos
    have hle' : ∀ v, us.count v ≤ (s.dropUse c keep₀ u).useCount v := by
      intro v
      have := hle v
      rw [hcons, ← hcount v] at this
      omega
    -- the reads that are left of a register run out together with those of the rest
    have hlast : ∀ v, s.useCount v = (u :: us).count v ↔
        (s.dropUse c keep₀ u).useCount v = us.count v := by
      intro v
      rw [hcons, ← hcount v]
      omega
    rw [List.foldl_cons]
    obtain ⟨hcounts, hrest⟩ := ih (s.dropUse c keep₀ u) hle'
    refine ⟨fun r => ?_, (appends_dropUse c keep₀ hpos).trans hrest fun i => ?_⟩
    · rw [hcounts, hcons, ← hcount r]
      omega
    · constructor
      · rintro ⟨v, hv, hzero, hi⟩
        by_cases hmem : v ∈ us
        · exact .inr ⟨v, hmem, (hlast v).1 hzero, hi⟩
        · obtain rfl := (List.mem_cons.1 hv).resolve_right hmem
          rw [hcons, List.count_eq_zero.2 hmem, if_pos rfl] at hzero
          exact .inl ⟨hzero, hi⟩
      · rintro (⟨hone, hi⟩ | ⟨v, hv, hzero, hi⟩)
        · refine ⟨u, List.mem_cons_self, ?_, hi⟩
          rw [hcons, if_pos rfl]
          omega
        · exact ⟨v, List.mem_cons_of_mem _ hv, (hlast v).2 hzero, hi⟩

/-- The invariant of the loop; `done` has the instructions that have been
taken from the queue. -/
structure Inv (c : Code) (keep₀ : Nat → Bool) (done : List Nat) (s : Sweep) : Prop where
  counts : ∀ r, s.useCount r = c.useCounts s.keep r
  sparing : Sparing c.may (kept keep₀) (kept s.keep)
  queued : ∀ i, c.isDead s.keep s.useCount i = true → i ∈ s.queue
  flags : ∀ i, s.inQueue i = true ↔ i ∈ done ∨ i ∈ s.queue
  zero : ∀ i, s.inQueue i = true → ∃ r, c.defAt i = some r ∧ s.useCount r = 0
  nodup : (done ++ s.queue).Nodup

theorem inv_start (c : Code) (keep : Nat → Bool) : Inv c keep [] (start c keep) where
  counts _ := rfl
  sparing := .refl _
  queued i hi := by
    obtain ⟨-, -, r, hr, -⟩ := Code.isDead_iff.1 hi
    exact List.mem_filter.2 ⟨List.mem_range.2 (Code.defAt_lt hr), hi⟩
  flags i := by simp [start]
  zero i hi := by
    have hdead : c.isDead keep (c.useCounts keep) i = true := by
      simp only [start, Bool.and_eq_true] at hi
      exact hi.2
    exact (Code.isDead_iff.1 hdead).2.2
  nodup := by simpa [start] using List.nodup_range.filter _

/-- When an instruction goes, its reads go. -/
theorem useCounts_update {i : Nat} (hlt : i < c.len) (hi : keep i = true) (r : Nat) :
    c.useCounts keep r
      = c.useCounts (Function.update keep i false) r + (c.usesAt i).count r := by
  have hperm : ((List.range c.len).filter keep).Perm
      (i :: (List.range c.len).filter (Function.update keep i false)) := by
    refine (List.perm_ext_iff_of_nodup (List.nodup_range.filter _) ?_).2 fun j => ?_
    · refine List.nodup_cons.2 ⟨fun hmem => ?_, List.nodup_range.filter _⟩
      simp at hmem
    · rw [List.mem_cons, List.mem_filter, List.mem_filter, List.mem_range]
      by_cases hj : j = i
      · simp [hj, hlt, hi]
      · simp [hj]
  rw [Code.useCounts, (hperm.flatMap_right c.usesAt).count_eq, List.flatMap_cons, List.count_append,
    Code.useCounts, Nat.add_comm]

/-- What a deletion does to the tables. The reads of the instruction come
off the counts, and the kept instructions that write a register whose
count is zero now have all been flagged. -/
structure Deletes (c : Code) (keep₀ : Nat → Bool) (i : Nat) (s s' : Sweep) : Prop where
  keep : s'.keep = Function.update s.keep i false
  counts : ∀ v, s'.useCount v = s.useCount v - (c.usesAt i).count v
  more : ∃ more : List Nat, s'.queue = s.queue ++ more ∧ more.Nodup ∧
    (∀ j, s'.inQueue j = true ↔ s.inQueue j = true ∨ j ∈ more) ∧
    ∀ j ∈ more, s.inQueue j = false ∧ ∃ v, c.defAt j = some v ∧ s'.useCount v = 0
  all : ∀ j v, keep₀ j = true → c.defAt j = some v → s'.keep j = true → s.useCount v ≠ 0 →
    s'.useCount v = 0 → s'.inQueue j = true

theorem mem_definers {i r : Nat} :
    i ∈ c.definers keep₀ r ↔ keep₀ i = true ∧ c.defAt i = some r := by
  simp only [Code.definers, List.mem_filter, List.mem_range, Bool.and_eq_true, beq_iff_eq]
  exact ⟨fun h => h.2, fun h => ⟨Code.defAt_lt h.2, h⟩⟩

theorem deletes_process (keep₀ : Nat → Bool) {i : Nat}
    (hdead : c.isDead s.keep s.useCount i = true)
    (hcounts : ∀ r, s.useCount r = c.useCounts s.keep r) :
    Deletes c keep₀ i s (s.process c keep₀ i) := by
  obtain ⟨hki, -, r, hr, hzero⟩ := Code.isDead_iff.1 hdead
  have hle : ∀ v, (c.usesAt i).count v ≤ s.useCount v := by
    intro v
    rw [hcounts, useCounts_update (Code.defAt_lt hr) hki]
    exact Nat.le_add_left _ _
  obtain ⟨hcount, happ⟩ := appends_dropUses c keep₀ (c.usesAt i)
    { s with keep := Function.update s.keep i false } hle
  obtain ⟨hkeep, ⟨more, hmore, hdistinct, hflagged, hnew⟩, hall⟩ :=
    happ.trans (appends_enqueue _ (c.definers keep₀ r)) fun _ => Iff.rfl
  have hcount' : ∀ v, (s.process c keep₀ i).useCount v
      = s.useCount v - (c.usesAt i).count v := by
    intro v
    rw [process, hdead, hr]
    dsimp only
    rw [useCount_enqueue]
    exact hcount v
  refine ⟨?_, hcount', ⟨more, ?_, hdistinct, ?_, fun j hj => ?_⟩, fun j v hj hv hk hpos hz => ?_⟩
  · rw [process, hdead, hr]
    exact hkeep
  · rw [process, hdead, hr]
    exact hmore
  · rw [process, hdead, hr]
    exact hflagged
  · obtain ⟨hP, hflag⟩ := hnew j hj
    refine ⟨hflag, ?_⟩
    rcases hP with ⟨u, -, hu, hmem⟩ | hmem
    · refine ⟨u, (mem_definers.1 hmem).2, ?_⟩
      rw [hcount']
      exact Nat.sub_eq_zero_of_le (Nat.le_of_eq hu)
    · refine ⟨r, (mem_definers.1 hmem).2, ?_⟩
      rw [hcount', hzero, Nat.zero_sub]
  · have hcount'' := hcount' v
    rw [process, hdead, hr] at hk hz hcount'' ⊢
    refine hall j (.inl ⟨v, ?_, ?_, mem_definers.2 ⟨hj, hv⟩⟩) (by rwa [hkeep] at hk)
    · by_contra hnot
      rw [List.count_eq_zero.2 hnot] at hcount''
      omega
    · have := hle v
      show s.useCount v = _
      omega

/-- Looking at an instruction from the queue keeps the invariant. -/
theorem Inv.process {done queue : List Nat} {i : Nat} (h : Inv c keep₀ done s)
    (hmem : ∀ j, j ∈ s.queue ↔ j = i ∨ j ∈ queue) (hnodup : ((i :: done) ++ queue).Nodup) :
    Inv c keep₀ (i :: done) (({ s with queue := queue } : Sweep).process c keep₀ i) := by
  have hflags : ∀ j, s.inQueue j = true ↔ j ∈ i :: done ∨ j ∈ queue := by
    intro j
    rw [h.flags, hmem, List.mem_cons]
    tauto
  by_cases hdead : c.isDead s.keep s.useCount i = true
  · have hki := (Code.isDead_iff.1 hdead).1
    obtain ⟨-, r, hr, hzero⟩ := (Code.isDead_iff.1 hdead).2
    obtain ⟨hkeep, hcounts, ⟨more, hqueue, hdistinct, hflagged, hnew⟩, hall⟩ :=
      deletes_process keep₀ (s := { s with queue := queue }) hdead h.counts
    generalize ({ s with queue := queue } : Sweep).process c keep₀ i = s' at *
    dsimp only at hkeep hcounts hqueue hflagged hnew hall
    have hsub : ∀ j, s'.keep j = true → j ≠ i ∧ s.keep j = true := by
      intro j hj
      rw [hkeep] at hj
      by_cases hji : j = i
      · subst hji
        simp at hj
      · exact ⟨hji, by rwa [Function.update_of_ne hji] at hj⟩
    refine ⟨fun v => ?_, ?_, fun j hj => ?_, fun j => ?_, fun j hj => ?_, ?_⟩
    · rw [hcounts, h.counts, useCounts_update (Code.defAt_lt hr) hki, hkeep, Nat.add_sub_cancel]
    · refine h.sparing.delete c.may_monotonic (fun j hj => (hsub j hj).2) fun j hj hnot => ?_
      obtain rfl : j = i := by
        by_contra hji
        refine hnot ?_
        change s'.keep j = true
        rw [hkeep, Function.update_of_ne hji]
        exact hj
      rw [funext h.counts] at hdead
      exact (Code.isDead_useCounts_iff.1 hdead).2
    · obtain ⟨hk, hrem, v, hv, hz⟩ := Code.isDead_iff.1 hj
      obtain ⟨hji, hks⟩ := hsub j hk
      rw [hqueue, List.mem_append]
      -- either the instruction was dead before, or a count has just come to zero
      by_cases hold : s.useCount v = 0
      · have hbefore := h.queued j (Code.isDead_iff.2 ⟨hks, hrem, v, hv, hold⟩)
        exact .inl (((hmem j).1 hbefore).resolve_left hji)
      · have hflag := hall j v (h.sparing.1 hks) hv hk hold hz
        refine .inr (((hflagged j).1 hflag).resolve_left fun hin => hold ?_)
        obtain ⟨v', hv', hz'⟩ := h.zero j hin
        rw [hv] at hv'
        cases hv'
        exact hz'
    · rw [hflagged, hflags, hqueue, List.mem_append, or_assoc]
    · rcases (hflagged j).1 hj with hin | hin
      · obtain ⟨v, hv, hz⟩ := h.zero j hin
        exact ⟨v, hv, by rw [hcounts, hz, Nat.zero_sub]⟩
      · exact (hnew j hin).2
    · rw [hqueue, ← List.append_assoc]
      refine List.nodup_append.2 ⟨hnodup, hdistinct, fun j hj k hk heq => ?_⟩
      subst heq
      have hflag := (hflags j).2 (List.mem_append.1 hj)
      rw [(hnew j hk).1] at hflag
      cases hflag
  · have hstay :
        ({ s with queue := queue } : Sweep).process c keep₀ i = { s with queue := queue } := by
      rw [Sweep.process]
      dsimp only
      rw [Bool.eq_false_iff.2 hdead]
    rw [hstay]
    refine ⟨h.counts, h.sparing, fun j hj => ?_, hflags, h.zero, hnodup⟩
    refine ((hmem j).1 (h.queued j hj)).resolve_left ?_
    rintro rfl
    exact hdead hj

/-- One round: an instruction is taken, unless there is none. -/
theorem Inv.round {done : List Nat} (h : Inv c keep₀ done s) (place : Nat) :
    s.queue = [] ∧ s.round c keep₀ place = s ∨
      ∃ i, Inv c keep₀ (i :: done) (s.round c keep₀ place) := by
  rw [Sweep.round]
  cases hget : s.queue[place % s.queue.length]? with
  | none =>
    refine .inl ⟨?_, rfl⟩
    by_contra hne
    have hlen := List.length_pos_iff.2 hne
    exact absurd (Nat.mod_lt place hlen) (Nat.not_lt.2 (List.getElem?_eq_none_iff.1 hget))
  | some i =>
    refine .inr ⟨i, ?_⟩
    obtain ⟨hlt, hi⟩ := List.getElem?_eq_some_iff.1 hget
    have hperm : s.queue.Perm (i :: s.queue.eraseIdx (place % s.queue.length)) := by
      rw [← hi]
      exact (List.getElem_cons_eraseIdx_perm hlt).symm
    refine h.process (fun j => ?_) ?_
    · rw [hperm.mem_iff, List.mem_cons]
    · refine (List.Perm.nodup_iff ?_).1 h.nodup
      refine (hperm.append_left done).trans ?_
      exact List.perm_middle

/-- Whatever places are chosen, the queue is empty after as many rounds as
there are instructions, since an instruction is taken once at most. -/
theorem inv_drain (c : Code) (keep : Nat → Bool) (order : Nat → Nat) (k : Nat) :
    ∃ done, Inv c keep done (drain c keep order k (start c keep)) ∧
      ((drain c keep order k (start c keep)).queue = [] ∨ done.length = k) := by
  induction k with
  | zero => exact ⟨[], inv_start c keep, .inr rfl⟩
  | succ k ih =>
    obtain ⟨done, hinv, hdone⟩ := ih
    rw [drain]
    rcases hinv.round (order k) with ⟨hempty, hsame⟩ | ⟨i, hnext⟩
    · rw [hsame]
      exact ⟨done, hinv, .inl hempty⟩
    · rcases hdone with hempty | hlen
      · rw [round, hempty] at hnext ⊢
        exact ⟨done, hinv, .inl hempty⟩
      · exact ⟨i :: done, hnext, .inr (congrArg (· + 1) hlen)⟩

theorem queue_drain (c : Code) (keep : Nat → Bool) (order : Nat → Nat) :
    (drain c keep order c.len (start c keep)).queue = [] := by
  obtain ⟨done, hinv, hempty | hlen⟩ := inv_drain c keep order c.len
  · exact hempty
  · generalize drain c keep order c.len (start c keep) = s at *
    -- the taken and the queued are distinct instructions, and all have been taken
    have hall : ∀ i ∈ done ++ s.queue, i ∈ List.range c.len := by
      intro i hi
      obtain ⟨r, hr, -⟩ := hinv.zero i ((hinv.flags i).2 (List.mem_append.1 hi))
      exact List.mem_range.2 (Code.defAt_lt hr)
    have hle := (hinv.nodup.subperm hall).length_le
    rw [List.length_append, List.length_range] at hle
    exact List.length_eq_zero_iff.1 (by omega)

end Sweep

/-! ### The two agree -/

theorem leftOver_le (c : Code) (keep : Nat → Bool) : leftOver c keep ≤ c.len := by
  have hle := Finset.card_filter_le (Finset.range c.len) (keep · = true)
  rwa [Finset.card_range] at hle

/-- With an empty queue, nothing can be deleted. -/
theorem Sweep.Inv.stable {done : List Nat} {s : Sweep} (h : s.Inv c keep₀ done)
    (hempty : s.queue = []) : Stable c.may (kept s.keep) := by
  intro i hi hmay
  have hdead := Code.isDead_useCounts_iff.2 ⟨hi, hmay⟩
  rw [← funext h.counts] at hdead
  have hqueued := h.queued i hdead
  rw [hempty] at hqueued
  cases hqueued

theorem eq_of_kept_eq (h : kept keep = kept keep') : keep = keep' :=
  funext fun i => Bool.eq_iff_iff.2 (Set.ext_iff.1 h i)

theorem drain_eq_fullScans (c : Code) (keep : Nat → Bool) (order : Nat → Nat) :
    (Sweep.drain c keep order c.len (.start c keep)).keep = fullScans c c.len keep := by
  obtain ⟨done, hinv, -⟩ := Sweep.inv_drain c keep order c.len
  obtain ⟨hsparing, hstable⟩ := fullScans_spec (leftOver_le c keep) (.refl (kept keep))
  exact eq_of_kept_eq (hinv.sparing.unique hsparing (hinv.stable (Sweep.queue_drain c keep order))
    hstable)

theorem scan_fullScans (c : Code) (keep : Nat → Bool) :
    scan c (fullScans c c.len keep) = fullScans c c.len keep := by
  obtain ⟨-, hstable⟩ := fullScans_spec (leftOver_le c keep) (.refl (kept keep))
  funext i
  cases hi : fullScans c c.len keep i with
  | false => rw [scan, hi, Bool.false_and]
  | true =>
    rw [scan, hi, Bool.true_and, Bool.not_eq_true']
    by_contra hdead
    exact hstable i hi (Code.isDead_useCounts_iff.1 (by simpa using hdead)).2

/-- The worklist is empty after as many rounds as there are instructions,
whatever the order in which it is worked off. What is left then is what
repeated full scans leave, and one more scan would change nothing. -/
theorem worklist_eq_fullScans (c : Code) (keep : Nat → Bool) :
    (∀ order, (Sweep.drain c keep order c.len (.start c keep)).queue = [] ∧
      (Sweep.drain c keep order c.len (.start c keep)).keep = fullScans c c.len keep) ∧
      passBDeadCode c keep = fullScans c c.len keep ∧
      scan c (fullScans c c.len keep) = fullScans c c.len keep :=
  ⟨fun order => ⟨Sweep.queue_drain c keep order, drain_eq_fullScans c keep order⟩,
    drain_eq_fullScans c keep _, scan_fullScans c keep⟩

end OxideJS.Dce
