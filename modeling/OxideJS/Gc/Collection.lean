import OxideJS.Gc.Marking
import OxideJS.Lib.Runs

/-!
What the three kinds of collections free, over whole runs.

Between collections the program changes the heap, the roots and the
registries as it likes; all that is asked of it (`Mutates`) is that it
leaves the collector's bits alone, frees nothing itself, never lets the
product of a flattened rope out of the rope and gets hold of nothing but
what it could obtain before or has just allocated. What it can
obtain is what can be reached from its roots or, by name, from a
registered broadcast channel, whether or not the roots lead there.

The full and the in-run collection prune the registry along with the
objects. `collect_strings_only` frees leaves by reachability from the
roots and leaves the registry as it is: it is safe exactly if what a
registered channel leads to is reachable without it (`LeavesRooted`).
-/

namespace OxideJS.Gc

open Worklist Lib.Runs

/-! ### Ownership -/

/-- The strings in the session table and the products of the ropes among
them. -/
def Session.stringBoxes (s : Session) : List Nat := s.sessionStrings.flatMap s.heap.dropString

/-- The node is listed in its session table, or hangs on a string that is. -/
def Session.Owned (s : Session) : Node → Prop
  | .object p => p ∈ s.sessionObjects
  | .string p => p ∈ s.stringBoxes
  | .bigint p => p ∈ s.sessionBigints
  | .cell p => p ∈ s.sessionCells

/-- The node is in memory and belongs to the session. -/
def Heap.InSession (h : Heap) : Node → Prop
  | .object p => h.isSession p = true
  | .string p => h.strings[p]?.map Str.session = some true
  | .bigint p => h.bigints[p]? = some true
  | .cell _ => True

/-- The node is in memory and outlives the session. Cells never do. -/
def Heap.Permanent (h : Heap) : Node → Prop
  | .object p => h.objects[p]?.map Object.session = some false
  | .string p => h.strings[p]?.map Str.session = some false
  | .bigint p => h.bigints[p]? = some false
  | .cell _ => False

theorem isSession_iff {h : Heap} {p : Nat} :
    h.isSession p = true ↔ h.objects[p]?.map Object.session = some true := by
  rw [Heap.isSession]
  cases h.objects[p]? <;> simp

theorem Heap.InSession.not_permanent {h : Heap} {n : Node} (hn : h.InSession n) :
    ¬ h.Permanent n := by
  cases n with
  | object p =>
    intro hp
    rw [Heap.InSession, isSession_iff, show h.objects[p]?.map Object.session = some false from hp]
      at hn
    cases hn
  | string p =>
    intro hp
    rw [Heap.InSession, show h.strings[p]?.map Str.session = some false from hp] at hn
    cases hn
  | bigint p =>
    intro hp
    rw [Heap.InSession, show h.bigints[p]? = some false from hp] at hn
    cases hn
  | cell p => exact id

instance (s : Session) : DecidablePred s.Owned
  | .object p => inferInstanceAs (Decidable (p ∈ s.sessionObjects))
  | .string p => inferInstanceAs (Decidable (p ∈ s.stringBoxes))
  | .bigint p => inferInstanceAs (Decidable (p ∈ s.sessionBigints))
  | .cell p => inferInstanceAs (Decidable (p ∈ s.sessionCells))

instance (h : Heap) : DecidablePred h.Permanent
  | .object p => inferInstanceAs (Decidable (h.objects[p]?.map Object.session = some false))
  | .string p => inferInstanceAs (Decidable (h.strings[p]?.map Str.session = some false))
  | .bigint p => inferInstanceAs (Decidable (h.bigints[p]? = some false))
  | .cell _ => inferInstanceAs (Decidable False)

/-- The node has not been freed. -/
def Session.Allocated (s : Session) (n : Node) : Prop :=
  s.Owned n ∨ s.heap.Permanent n

instance (s : Session) : DecidablePred s.Allocated :=
  fun n => inferInstanceAs (Decidable (s.Owned n ∨ s.heap.Permanent n))

/-- The channels of the registry, by whatever name. -/
def Session.channelNodes (s : Session) : List Node :=
  s.broadcastChannels.flatMap fun e => e.2.map .object

/-- The program can get hold of the node. The listeners of the registered
event targets are among the roots. -/
def Session.Obtainable (s : Session) : Node → Prop :=
  ReachableFrom s.heap (s.rootNodes ++ s.channelNodes)

theorem Session.Reachable.obtainable {s : Session} {n : Node} (hn : s.Reachable n) :
    s.Obtainable n := by
  obtain ⟨r, hr, hrn⟩ := hn
  exact ⟨r, List.mem_append_left _ hr, hrn⟩

/-- The product of a listed rope is no root, and nothing but the rope leads
to it. -/
def Session.ProductsHidden (s : Session) : Prop :=
  ∀ p ∈ s.sessionStrings, ∀ q ∈ s.heap.product p, .string q ∉ s.rootNodes ∧
    ∀ m, s.Obtainable m → .string q ∈ s.heap.edges m → m = .string p

/-- No mark bit is set, the tables list session values, each once, products
are hidden in their ropes, and nothing obtainable has been freed. -/
structure Session.Valid (s : Session) : Prop where
  unmarked : s.marks = ∅
  objects_nodup : s.sessionObjects.Nodup
  strings_nodup : s.stringBoxes.Nodup
  bigints_nodup : s.sessionBigints.Nodup
  cells_nodup : s.sessionCells.Nodup
  owned : ∀ n, s.Owned n → s.heap.InSession n
  hidden : s.ProductsHidden
  safe : ∀ n, s.Obtainable n → s.Allocated n

/-- Only what is in a list can be obtained if the list holds the roots and
the channels and is closed under edges. -/
theorem Session.mem_of_obtainable {s : Session} (good : List Node)
    (hentries : ∀ n ∈ s.rootNodes ++ s.channelNodes, n ∈ good)
    (hclosed : ∀ n ∈ good, ∀ m ∈ s.heap.edges n, m ∈ good) (n : Node) (hn : s.Obtainable n) :
    n ∈ good := by
  obtain ⟨r, hr, hrn⟩ := hn
  exact hrn.inherits (· ∈ good) hclosed (hentries r hr)

/-- Products stay hidden when less is listed and less can be obtained. -/
theorem Session.ProductsHidden.mono {s s' : Session} (hs : s.ProductsHidden)
    (hlisted : s'.sessionStrings ⊆ s.sessionStrings)
    (hstrings : s'.heap.strings = s.heap.strings) (hroots : s'.rootNodes ⊆ s.rootNodes)
    (hobtainable : ∀ n, s'.Obtainable n → s.Obtainable n)
    (hedges : ∀ n, s'.heap.edges n ⊆ s.heap.edges n) : s'.ProductsHidden := by
  intro p hp q hq
  rw [Heap.product, hstrings] at hq
  obtain ⟨hroot, honly⟩ := hs p (hlisted hp) q hq
  exact ⟨fun h => hroot (hroots h), fun m hm h => honly m (hobtainable m hm) (hedges m h)⟩

/-! ### Runs -/

/-- What the program may do between two collections. -/
structure Mutates (s s' : Session) : Prop where
  marks : s'.marks = s.marks
  objects_nodup : s'.sessionObjects.Nodup
  strings_nodup : s'.stringBoxes.Nodup
  bigints_nodup : s'.sessionBigints.Nodup
  cells_nodup : s'.sessionCells.Nodup
  owned : ∀ n, s'.Owned n → s'.heap.InSession n
  hidden : s'.ProductsHidden
  frees_none : ∀ n, s.Allocated n → s'.Allocated n
  acquires : ∀ n, s'.Obtainable n → s.Obtainable n ∨ s'.Allocated n

theorem Mutates.valid {s s' : Session} (h : Mutates s s') (hs : s.Valid) : s'.Valid where
  unmarked := h.marks.trans hs.unmarked
  objects_nodup := h.objects_nodup
  strings_nodup := h.strings_nodup
  bigints_nodup := h.bigints_nodup
  cells_nodup := h.cells_nodup
  owned := h.owned
  hidden := h.hidden
  safe n hn := (h.acquires n hn).elim (fun hn => h.frees_none n (hs.safe n hn)) id

inductive Event where
  | mutate (s' : Session)
  | collect
  | collectInRun
  | collectStringsOnly

def step (s : Session) : Event → Session
  | .mutate s' => s'
  | .collect => s.collect.1
  | .collectInRun => s.collectInRun.1
  | .collectStringsOnly => s.collectStringsOnly.1

/-- Every session string, BigInt and cell that a registered channel leads
to can be reached from the roots. -/
def Session.LeavesRooted (s : Session) : Prop :=
  ∀ n, n.object? = none → s.Owned n → ReachableFrom s.heap s.channelNodes n → s.Reachable n

/-- The events of a run: any mutation, any full or in-run collection, and
a strings-only collection where the registry holds no leaf alone. -/
def Permits (s : Session) : Event → Prop
  | .mutate s' => Mutates s s'
  | .collect => True
  | .collectInRun => True
  | .collectStringsOnly => s.LeavesRooted

/-! ### What is swept -/

section Sweeping

variable {s : Session}

/-- The mark bits after marking. -/
theorem mem_marks_iff (hmarks : s.marks = ∅) (p : Nat) :
    p ∈ s.mark.1.marks ↔ s.Reachable (.object p) ∧ s.heap.isSession p = true := by
  rw [← mark_exact hmarks]
  exact Finset.mem_filter

theorem Session.Valid.mem_marks_iff_of_owned (hs : s.Valid) {p : Nat}
    (hp : s.Owned (.object p)) : p ∈ s.mark.1.marks ↔ s.Reachable (.object p) := by
  rw [mem_marks_iff hs.unmarked]
  exact and_iff_left (hs.owned _ hp)

/-- What is marked is in the table, so that the sweep clears its bit. -/
theorem Session.Valid.owned_of_marked (hs : s.Valid) {p : Nat} (hp : p ∈ s.mark.1.marks) :
    s.Owned (.object p) := by
  obtain ⟨hreach, hsess⟩ := (mem_marks_iff hs.unmarked p).mp hp
  refine (hs.safe _ hreach.obtainable).resolve_right ?_
  exact Heap.InSession.not_permanent hsess

theorem Session.Valid.marks_cleared (hs : s.Valid) :
    s.mark.1.marks \ s.sessionObjects.toFinset = ∅ := by
  rw [Finset.sdiff_eq_empty_iff_subset]
  exact fun p hp => List.mem_toFinset.mpr (hs.owned_of_marked hp)

theorem Session.Valid.clearAllMarks_eq (hs : s.Valid) : s.clearAllMarks = s := by
  rw [Session.clearAllMarks, hs.unmarked, Finset.empty_sdiff, ← hs.unmarked]

theorem product_mem_edges {h : Heap} {p q : Nat} (hq : q ∈ h.product p) :
    .string q ∈ h.edges (.string p) := by
  rw [Heap.product] at hq
  split at hq
  · next hp => simpa [Heap.edges, Heap.ropeEdges, hp, Str.children] using Or.inr (Or.inr hq)
  · cases hq

/-- The product of a rope is reached through the rope and not otherwise. -/
theorem Session.Valid.reachable_product_iff (hs : s.Valid) {p q : Nat}
    (hp : p ∈ s.sessionStrings) (hq : q ∈ s.heap.product p) :
    s.Reachable (.string q) ↔ s.Reachable (.string p) := by
  obtain ⟨hroot, honly⟩ := hs.hidden p hp q hq
  constructor
  · rintro ⟨r, hr, hrq⟩
    cases hrq with
    | refl => exact absurd hr hroot
    | tail hrm hm =>
      have hreach : s.Reachable _ := ⟨r, hr, hrm⟩
      exact honly _ hreach.obtainable hm ▸ hreach
  · exact fun h => h.tail (product_mem_edges hq)

/-- A string and what is freed with it are reachable together. -/
theorem Session.Valid.live_iff (hs : s.Valid) {p q : Nat} (hp : p ∈ s.sessionStrings)
    (hq : q ∈ s.heap.dropString p) : p ∈ s.mark.2.strings ↔ s.Reachable (.string q) := by
  refine (mark_exact hs.unmarked (.string p)).trans ?_
  rcases List.mem_append.mp hq with hq | hq
  · exact (hs.reachable_product_iff hp (Option.mem_toList.mp hq)).symm
  · rw [List.mem_singleton.mp hq]

theorem mem_flatMap_filter {table : List Nat} {keep : Nat → Bool} {drop : Nat → List Nat}
    {kept : Nat → Prop} (h : ∀ p ∈ table, ∀ q ∈ drop p, (keep p = true ↔ kept q)) (q : Nat) :
    q ∈ (table.filter keep).flatMap drop ↔ q ∈ table.flatMap drop ∧ kept q := by
  simp only [List.mem_flatMap, List.mem_filter]
  constructor
  · rintro ⟨p, ⟨hp, hkeep⟩, hq⟩
    exact ⟨⟨p, hp, hq⟩, (h p hp q hq).mp hkeep⟩
  · rintro ⟨⟨p, hp, hq⟩, hkept⟩
    exact ⟨p, ⟨hp, (h p hp q hq).mpr hkept⟩, hq⟩

/-- The strings that are left, with their products. -/
theorem Session.Valid.mem_stringBoxes_swept (hs : s.Valid) (q : Nat) :
    q ∈ (s.sessionStrings.filter (· ∈ s.mark.2.strings)).flatMap s.heap.dropString ↔
      q ∈ s.stringBoxes ∧ s.Reachable (.string q) :=
  mem_flatMap_filter (fun _ hp _ hq => decide_eq_true_iff.trans (hs.live_iff hp hq)) q

/-- A table swept by a live set keeps what the set holds. -/
theorem mem_swept {table : List Nat} {live : Finset Nat} {p : Nat} {q : Prop}
    (h : p ∈ table → (p ∈ live ↔ q)) : p ∈ table.filter (· ∈ live) ↔ p ∈ table ∧ q := by
  rw [List.mem_filter, decide_eq_true_iff]
  exact and_congr_right h

theorem Session.Valid.owned_collect (hs : s.Valid) (n : Node) :
    s.collect.1.Owned n ↔ s.Owned n ∧ s.Reachable n := by
  cases n with
  | object p => exact mem_swept hs.mem_marks_iff_of_owned
  | string p => exact hs.mem_stringBoxes_swept p
  | bigint p => exact mem_swept fun _ => mark_exact hs.unmarked (.bigint p)
  | cell p => exact mem_swept fun _ => mark_exact hs.unmarked (.cell p)

theorem Session.Valid.owned_collectInRun (hs : s.Valid) (n : Node) :
    s.collectInRun.1.Owned n ↔
      s.Owned n ∧ ((∃ p, n = .object p ∨ n = .cell p) → s.Reachable n) := by
  rw [Session.collectInRun, hs.clearAllMarks_eq]
  cases n with
  | object p =>
    refine (mem_swept hs.mem_marks_iff_of_owned).trans (and_congr_right fun _ => ?_)
    exact ⟨fun h _ => h, fun h => h ⟨p, Or.inl rfl⟩⟩
  | string p => exact (and_iff_left fun ⟨q, hq⟩ => by simp at hq).symm
  | bigint p => exact (and_iff_left fun ⟨q, hq⟩ => by simp at hq).symm
  | cell p =>
    refine (mem_swept fun _ => mark_exact hs.unmarked (.cell p)).trans
      (and_congr_right fun _ => ?_)
    exact ⟨fun h _ => h, fun h => h ⟨p, Or.inr rfl⟩⟩

theorem Session.Valid.owned_collectStringsOnly (hs : s.Valid) (n : Node) :
    s.collectStringsOnly.1.Owned n ↔ s.Owned n ∧ (n.object? = none → s.Reachable n) := by
  rw [Session.collectStringsOnly, hs.clearAllMarks_eq]
  have hleaf : ∀ {n : Node}, n.object? = none →
      (s.Reachable n ↔ (n.object? = none → s.Reachable n)) :=
    fun hn => ⟨fun h _ => h, fun h => h hn⟩
  cases n with
  | object p => exact (and_iff_left fun hp => by cases hp).symm
  | string p =>
    exact (hs.mem_stringBoxes_swept p).trans (and_congr_right fun _ => hleaf rfl)
  | bigint p => exact mem_swept fun _ => (mark_exact hs.unmarked (.bigint p)).trans (hleaf rfl)
  | cell p => exact mem_swept fun _ => (mark_exact hs.unmarked (.cell p)).trans (hleaf rfl)

end Sweeping

/-! ### What is left -/

section Remaining

variable {s : Session}

theorem rewriteWeakMap_session (keep : WeakKey → Bool) (o : Object) :
    (o.rewriteWeakMap keep).session = o.session := by
  rw [Object.rewriteWeakMap]
  split <;> rfl

theorem rewriteWeakMap_scanEdges (h : Heap) (keep : WeakKey → Bool) (o : Object) :
    h.scanEdges (o.rewriteWeakMap keep) ⊆ h.scanEdges o := by
  rw [Object.rewriteWeakMap]
  split
  · next entries hentries =>
      have hsub : ∀ n, n ∈ ((entries.filter fun e => keep e.1).map Prod.snd).filterMap Value.node →
          n ∈ (entries.map Prod.snd).filterMap Value.node :=
        List.filterMap_subset _ (List.map_subset _ (List.filter_subset_self entries))
      intro n hn
      simp only [Heap.scanEdges, Object.values, Native.objectEdges, Native.stringEdges,
        Native.cellEdges, hentries, List.mem_append, List.filterMap_append, List.map_nil] at hn ⊢
      exact hn.imp_left (Or.imp_left (Or.imp_left (Or.imp_right (hsub n))))
  · exact List.Subset.refl _

theorem sweepInPlace_objects (p : Nat) :
    s.sweepInPlace.1.heap.objects[p]? = s.heap.objects[p]?.map fun o =>
      if p ∈ s.sessionObjects ∧ p ∈ s.marks then o.rewriteWeakMap s.keepsKey else o :=
  List.getElem?_mapIdx

theorem sweepInPlace_edges (n : Node) : s.sweepInPlace.1.heap.edges n ⊆ s.heap.edges n := by
  cases n with
  | object p =>
    simp only [Heap.edges, Heap.objectNodes, sweepInPlace_objects]
    cases s.heap.objects[p]? with
    | none => exact List.Subset.refl _
    | some o =>
      simp only [Option.map_some]
      split
      · exact rewriteWeakMap_scanEdges s.heap _ o
      · exact List.Subset.refl _
  | _ => exact List.Subset.refl _

theorem sweepInPlace_sessions (p : Nat) :
    s.sweepInPlace.1.heap.objects[p]?.map Object.session =
      s.heap.objects[p]?.map Object.session := by
  rw [sweepInPlace_objects, Option.map_map]
  congr 1
  funext o
  simp only [Function.comp_apply]
  split
  · exact rewriteWeakMap_session _ o
  · rfl

theorem sweepInPlace_permanent {n : Node} (hn : s.heap.Permanent n) :
    s.sweepInPlace.1.heap.Permanent n := by
  cases n with
  | object p => exact (sweepInPlace_sessions p).trans hn
  | _ => exact hn

theorem sweepInPlace_inSession {n : Node} (hn : s.heap.InSession n) :
    s.sweepInPlace.1.heap.InSession n := by
  cases n with
  | object p => exact isSession_iff.mpr ((sweepInPlace_sessions p).trans (isSession_iff.mp hn))
  | _ => exact hn

theorem sweepInPlace_rootNodes : s.sweepInPlace.1.rootNodes ⊆ s.rootNodes := by
  have hroots : s.sweepInPlace.1.forEachRoot ⊆ s.forEachRoot := by
    intro v hv
    rcases List.mem_append.mp hv with hv | hv
    · exact List.mem_append_left _ hv
    · obtain ⟨e, he, hv⟩ := List.mem_flatMap.mp hv
      exact List.mem_append_right _ (List.mem_flatMap.mpr ⟨e, (List.mem_filter.mp he).1, hv⟩)
  intro n hn
  rcases List.mem_append.mp hn with hn | hn
  · exact List.mem_append_left _ hn
  · exact List.mem_append_right _ (List.filterMap_subset _ hroots hn)

theorem marked_of_mem_sweepInPlace_channelNodes {n : Node}
    (hn : n ∈ s.sweepInPlace.1.channelNodes) : ∃ p ∈ s.marks, n = .object p := by
  obtain ⟨e, he, hn⟩ := List.mem_flatMap.mp hn
  obtain ⟨e', -, rfl⟩ := List.mem_map.mp (List.mem_filter.mp he).1
  obtain ⟨p, hp, rfl⟩ := List.mem_map.mp hn
  exact ⟨p, of_decide_eq_true (List.mem_filter.mp hp).2, rfl⟩

/-- After a sweep the registry leads nowhere the roots did not lead. -/
theorem Session.Valid.reachable_of_swept (hs : s.Valid) {n : Node}
    (hn : s.mark.1.sweepInPlace.1.Obtainable n) : s.Reachable n := by
  obtain ⟨r, hr, hrn⟩ := hn
  have hrn : Reaches s.heap.edges r n := hrn.mono sweepInPlace_edges
  rcases List.mem_append.mp hr with hr | hr
  · exact ⟨r, sweepInPlace_rootNodes (s := s.mark.1) hr, hrn⟩
  · obtain ⟨p, hp, rfl⟩ := marked_of_mem_sweepInPlace_channelNodes hr
    exact ReachableFrom.trans ((mem_marks_iff hs.unmarked p).mp hp).1 hrn

theorem flatMap_filter_sublist (table : List Nat) (keep : Nat → Bool) (drop : Nat → List Nat) :
    ((table.filter keep).flatMap drop).Sublist (table.flatMap drop) := by
  induction table with
  | nil => exact List.Sublist.refl _
  | cons p table ih =>
    rw [List.filter_cons]
    split
    · exact (List.Sublist.refl _).append ih
    · exact ih.trans (List.sublist_append_right _ _)

/-- A sweep of the objects leaves the products hidden. -/
theorem Session.Valid.hidden_swept (hs : s.Valid) {s' : Session}
    (hlisted : s'.sessionStrings ⊆ s.sessionStrings)
    (hheap : s'.heap = s.mark.1.sweepInPlace.1.heap)
    (hroots : s'.rootNodes = s.mark.1.sweepInPlace.1.rootNodes)
    (hchannels : s'.channelNodes = s.mark.1.sweepInPlace.1.channelNodes) : s'.ProductsHidden := by
  refine hs.hidden.mono hlisted (by rw [hheap]; rfl) ?_ (fun n hn => ?_) fun n => ?_
  · rw [hroots]
    exact sweepInPlace_rootNodes (s := s.mark.1)
  · rw [Session.Obtainable, hheap, hroots, hchannels] at hn
    exact (hs.reachable_of_swept hn).obtainable
  · rw [hheap]
    exact sweepInPlace_edges (s := s.mark.1) n

theorem Session.Valid.collect_valid (hs : s.Valid) : s.collect.1.Valid where
  unmarked := hs.marks_cleared
  objects_nodup := hs.objects_nodup.filter _
  strings_nodup := hs.strings_nodup.sublist (flatMap_filter_sublist _ _ _)
  bigints_nodup := hs.bigints_nodup.filter _
  cells_nodup := hs.cells_nodup.filter _
  owned n hn := sweepInPlace_inSession (hs.owned n ((hs.owned_collect n).mp hn).1)
  hidden := hs.hidden_swept (List.filter_subset_self _) rfl rfl rfl
  safe n hn := by
    have hreach : s.Reachable n := hs.reachable_of_swept hn
    rcases hs.safe n hreach.obtainable with hown | hperm
    · exact Or.inl ((hs.owned_collect n).mpr ⟨hown, hreach⟩)
    · exact Or.inr (sweepInPlace_permanent (s := s.mark.1) hperm)

theorem Session.Valid.collectInRun_valid (hs : s.Valid) : s.collectInRun.1.Valid := by
  have howned := hs.owned_collectInRun
  rw [Session.collectInRun, hs.clearAllMarks_eq] at howned ⊢
  exact
    { unmarked := hs.marks_cleared
      objects_nodup := hs.objects_nodup.filter _
      strings_nodup := hs.strings_nodup
      bigints_nodup := hs.bigints_nodup
      cells_nodup := hs.cells_nodup.filter _
      owned := fun n hn => sweepInPlace_inSession (hs.owned n ((howned n).mp hn).1)
      hidden := hs.hidden_swept (List.Subset.refl _) rfl rfl rfl
      safe := fun n hn => by
        have hreach : s.Reachable n := hs.reachable_of_swept hn
        rcases hs.safe n hreach.obtainable with hown | hperm
        · exact Or.inl ((howned n).mpr ⟨hown, fun _ => hreach⟩)
        · exact Or.inr (sweepInPlace_permanent (s := s.mark.1) hperm) }

/-- A strings-only collection leaves nothing dangling if and only if the
registry holds no leaf alone. -/
theorem Session.Valid.collectStringsOnly_safe_iff (hs : s.Valid) :
    (∀ n, s.collectStringsOnly.1.Obtainable n → s.collectStringsOnly.1.Allocated n) ↔
      s.LeavesRooted := by
  have howned := hs.owned_collectStringsOnly
  have hsame : ∀ n, s.collectStringsOnly.1.Obtainable n ↔ s.Obtainable n := by
    intro n
    rw [Session.collectStringsOnly, hs.clearAllMarks_eq]
    exact Iff.rfl
  have hperm : ∀ n, s.collectStringsOnly.1.heap.Permanent n ↔ s.heap.Permanent n := by
    intro n
    rw [Session.collectStringsOnly, hs.clearAllMarks_eq]
    exact Iff.rfl
  constructor
  · intro hsafe n hleaf hown hchan
    obtain ⟨r, hr, hrn⟩ := hchan
    have hobt : s.Obtainable n := ⟨r, List.mem_append_right _ hr, hrn⟩
    rcases hsafe n ((hsame n).mpr hobt) with h | h
    · exact ((howned n).mp h).2 hleaf
    · exact absurd ((hperm n).mp h) (hs.owned n hown).not_permanent
  · intro hroot n hn
    have hobt := (hsame n).mp hn
    rcases hs.safe n hobt with hown | h
    · refine Or.inl ((howned n).mpr ⟨hown, fun hleaf => ?_⟩)
      obtain ⟨r, hr, hrn⟩ := hobt
      rcases List.mem_append.mp hr with hr | hr
      · exact ⟨r, hr, hrn⟩
      · exact hroot n hleaf hown ⟨r, hr, hrn⟩
    · exact Or.inr ((hperm n).mpr h)

theorem Session.Valid.collectStringsOnly_valid (hs : s.Valid) (hroot : s.LeavesRooted) :
    s.collectStringsOnly.1.Valid := by
  have howned := hs.owned_collectStringsOnly
  have hsafe := hs.collectStringsOnly_safe_iff.mpr hroot
  rw [Session.collectStringsOnly, hs.clearAllMarks_eq] at howned hsafe ⊢
  exact
    { unmarked := hs.marks_cleared
      objects_nodup := hs.objects_nodup
      strings_nodup := hs.strings_nodup.sublist (flatMap_filter_sublist _ _ _)
      bigints_nodup := hs.bigints_nodup.filter _
      cells_nodup := hs.cells_nodup.filter _
      owned := fun n hn => hs.owned n ((howned n).mp hn).1
      hidden := hs.hidden.mono (List.filter_subset_self _) rfl (List.Subset.refl _)
        (fun _ hn => hn) fun _ => List.Subset.refl _
      safe := hsafe }

theorem step_valid (hs : s.Valid) {e : Event} (he : Permits s e) : (step s e).Valid := by
  cases e with
  | mutate s' => exact Mutates.valid he hs
  | collect => exact hs.collect_valid
  | collectInRun => exact hs.collectInRun_valid
  | collectStringsOnly => exact hs.collectStringsOnly_valid he

theorem run_valid (hs : s.Valid) {events : List Event} (hok : Along step Permits s events) :
    (run step s events).Valid :=
  run_keeps_along Session.Valid (fun _ _ h he => step_valid h he) hs hok

end Remaining

end OxideJS.Gc
