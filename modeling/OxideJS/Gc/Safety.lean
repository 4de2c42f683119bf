import OxideJS.Gc.Collection

/-!
The collector over whole runs: full collections are exact, and strings-only
collections are safe as long as the channel registry holds no leaf alone.
-/

namespace OxideJS.Gc

open Worklist Lib.Runs

/-! ### Full collections -/

section Exact

variable {s : Session}

theorem mem_unswept {table : List Nat} {live : Finset Nat} {p : Nat} {q : Prop}
    (h : p ∈ table → (p ∈ live ↔ q)) : p ∈ table.filter (· ∉ live) ↔ p ∈ table ∧ ¬ q := by
  rw [List.mem_filter, decide_eq_true_iff]
  exact and_congr_right fun hp => not_congr (h hp)

/-- The strings that are freed, with their products. -/
theorem Session.Valid.mem_stringBoxes_unswept (hs : s.Valid) (q : Nat) :
    q ∈ (s.sessionStrings.filter (· ∉ s.mark.2.strings)).flatMap s.heap.dropString ↔
      q ∈ s.stringBoxes ∧ ¬ s.Reachable (.string q) :=
  mem_flatMap_filter
    (fun _ hp _ hq => decide_eq_true_iff.trans (not_congr (hs.live_iff hp hq))) q

theorem Session.Valid.mem_freed (hs : s.Valid) (n : Node) :
    n ∈ s.collect.2 ↔ s.Owned n ∧ ¬ s.Reachable n := by
  simp only [Session.collect, Session.sweepLeaves, Session.sweepCells, List.mem_append,
    List.mem_map]
  cases n with
  | object p =>
    simp only [Node.object.injEq, exists_eq_right, reduceCtorEq, and_false, exists_false, or_false]
    exact mem_unswept hs.mem_marks_iff_of_owned
  | string p =>
    simp only [Node.string.injEq, exists_eq_right, reduceCtorEq, and_false, exists_false, or_false,
      false_or]
    exact hs.mem_stringBoxes_unswept p
  | bigint p =>
    simp only [Node.bigint.injEq, exists_eq_right, reduceCtorEq, and_false, exists_false, or_false,
      false_or]
    exact mem_unswept fun _ => mark_exact hs.unmarked (.bigint p)
  | cell p =>
    simp only [Node.cell.injEq, exists_eq_right, reduceCtorEq, and_false, exists_false, false_or]
    exact mem_unswept fun _ => mark_exact hs.unmarked (.cell p)

theorem disjoint_map {f g : Nat → Node} (hfg : ∀ a b, f a ≠ g b) (xs ys : List Nat) :
    (xs.map f).Disjoint (ys.map g) := by
  intro n hn hn'
  obtain ⟨a, -, rfl⟩ := List.mem_map.mp hn
  obtain ⟨b, -, hb⟩ := List.mem_map.mp hn'
  exact hfg a b hb.symm

theorem Session.Valid.freed_nodup (hs : s.Valid) : s.collect.2.Nodup := by
  have hobjects := (hs.objects_nodup.filter (· ∉ s.mark.1.marks)).map (f := Node.object)
    fun _ _ h => Node.object.inj h
  have hstrings := (hs.strings_nodup.sublist
    (flatMap_filter_sublist _ (· ∉ s.mark.2.strings) _)).map (f := Node.string)
      fun _ _ h => Node.string.inj h
  have hbigints := (hs.bigints_nodup.filter (· ∉ s.mark.2.bigints)).map (f := Node.bigint)
    fun _ _ h => Node.bigint.inj h
  have hcells := (hs.cells_nodup.filter (· ∉ s.mark.2.cells)).map (f := Node.cell)
    fun _ _ h => Node.cell.inj h
  have hleaves := hstrings.append hbigints (disjoint_map (by simp) _ _)
  refine (hobjects.append hleaves (List.disjoint_append_right.mpr ⟨?_, ?_⟩)).append hcells
    (List.disjoint_append_left.mpr ⟨?_, List.disjoint_append_left.mpr ⟨?_, ?_⟩⟩)
  all_goals exact disjoint_map (by simp) _ _

/-- The key of a weak-map entry lives on: it is reachable or permanent. A
symbol is never collected. -/
def Session.KeyLives (s : Session) : WeakKey → Prop
  | .symbol _ => True
  | .object p => s.Reachable (.object p) ∨ s.heap.Permanent (.object p)

theorem Session.Valid.keyLives_of_keepsKey (hs : s.Valid) (k : WeakKey)
    (hk : s.mark.1.keepsKey k = true) :
    s.KeyLives k := by
  cases k with
  | symbol id => trivial
  | object p =>
    rw [Session.keepsKey] at hk
    cases hp : s.heap.objects[p]? with
    | none =>
      rw [show s.mark.1.heap.objects[p]? = none from hp] at hk
      cases hk
    | some o =>
      rw [show s.mark.1.heap.objects[p]? = some o from hp] at hk
      rcases (Bool.or_eq_true _ _).mp hk with hperm | hmark
      · refine Or.inr ?_
        rw [Heap.Permanent, hp, Option.map_some, (Bool.not_eq_true' _).mp hperm]
      · exact Or.inl ((mem_marks_iff hs.unmarked p).mp (of_decide_eq_true hmark)).1

theorem Session.Valid.weak_entries (hs : s.Valid) {p : Nat} {o : Object}
    {entries : List (WeakKey × Value)} (hp : s.collect.1.Owned (.object p))
    (ho : s.collect.1.heap.objects[p]? = some o) (hnative : o.native = .weakMap entries) :
    ∀ e ∈ entries, s.KeyLives e.1 := by
  obtain ⟨hown, hreach⟩ := (hs.owned_collect _).mp hp
  have hmark := (hs.mem_marks_iff_of_owned hown).mpr hreach
  have hswept : s.collect.1.heap.objects[p]? = _ := sweepInPlace_objects (s := s.mark.1) p
  rw [ho] at hswept
  cases hold : s.mark.1.heap.objects[p]? with
  | none => simp [hold] at hswept
  | some old =>
    rw [hold, Option.map_some, if_pos ⟨hown, hmark⟩, Option.some.injEq] at hswept
    subst hswept
    rw [Object.rewriteWeakMap] at hnative
    split at hnative
    · cases hnative
      intro e he
      exact hs.keyLives_of_keepsKey _ (List.mem_filter.mp he).2
    · next hno => exact absurd hnative (hno entries)

/-- Along every run, a full collection keeps what can be reached from the
roots, frees the rest of the session tables, each entry once, leaves in the
weak maps only entries whose key lives on, and no mark bit. -/
theorem session_collector_exact (hs : s.Valid) {events : List Event}
    (hok : Along step Permits s events) :
    let t := run step s events
    (∀ n, t.Reachable n → t.collect.1.Allocated n) ∧
      (∀ n, t.collect.1.Owned n ↔ t.Owned n ∧ t.Reachable n) ∧
      (∀ n, n ∈ t.collect.2 ↔ t.Owned n ∧ ¬ t.Reachable n) ∧
      t.collect.2.Nodup ∧
      (∀ p o entries, t.collect.1.Owned (.object p) →
        t.collect.1.heap.objects[p]? = some o → o.native = .weakMap entries →
        ∀ e ∈ entries, t.KeyLives e.1) ∧
      t.collect.1.marks = ∅ := by
  intro t
  have ht : t.Valid := run_valid hs hok
  refine ⟨fun n hn => ?_, ht.owned_collect, ht.mem_freed, ht.freed_nodup,
    fun p o entries hp ho hnative => ht.weak_entries hp ho hnative, ht.marks_cleared⟩
  rcases ht.safe n hn.obtainable with hown | hperm
  · exact Or.inl ((ht.owned_collect n).mpr ⟨hown, hn⟩)
  · exact Or.inr (sweepInPlace_permanent (s := t.mark.1) hperm)

end Exact

/-- A global object that leads to a function with an upvalue cell, which is
part of a cycle and of a flattened rope with the product 4, and to a weak
map one of whose keys is in a second cycle, of objects 4 and 5, with a
flattened rope of its own. -/
def twoCycles : Session where
  heap :=
    { objects :=
        [{ session := false, hashProps := [.object 1, .object 3] },
          { session := true, proto := .object 2, upvalues := [0] },
          { session := true, elements := [.object 1, .string 0] },
          { session := true, native := .weakMap
              [(.object 4, .object 1), (.object 1, .bigint 0), (.symbol 7, .primitive)] },
          { session := true, hashProps := [.object 5, .string 3], upvalues := [1] },
          { session := true, hashProps := [.object 4, .bigint 1] }]
      strings :=
        [{ session := true, cons := some (1, 2), flatCache := some 4 }, { session := true },
          { session := false }, { session := true, cons := some (1, 1), flatCache := some 5 },
          { session := true }, { session := true }]
      cells := [.string 1, .object 5]
      bigints := [true, true] }
  marks := ∅
  sessionObjects := [1, 2, 3, 4, 5]
  sessionStrings := [0, 1, 3]
  sessionBigints := [0, 1]
  sessionCells := [0, 1]
  roots := [.object 0, .object 5]
  cellStack := []
  broadcastChannels := []
  eventTargets := []

def twoCyclesNodes : List Node :=
  [.object 0, .object 1, .object 2, .object 3, .object 4, .object 5, .string 0, .string 1,
    .string 2, .string 3, .string 4, .string 5, .bigint 0, .bigint 1, .cell 0, .cell 1]

theorem twoCycles_valid : twoCycles.Valid where
  unmarked := rfl
  objects_nodup := by decide
  strings_nodup := by decide
  bigints_nodup := by decide
  cells_nodup := by decide
  owned n hn := by
    cases n with
    | object p =>
      exact (by decide : ∀ p ∈ twoCycles.sessionObjects, twoCycles.heap.isSession p = true) p hn
    | string p =>
      exact (by decide : ∀ p ∈ twoCycles.stringBoxes,
        twoCycles.heap.strings[p]?.map Str.session = some true) p hn
    | bigint p =>
      exact (by decide : ∀ p ∈ twoCycles.sessionBigints,
        twoCycles.heap.bigints[p]? = some true) p hn
    | cell p => trivial
  hidden p hp q hq := by
    have hnodes : ∀ p ∈ twoCycles.sessionStrings, ∀ q ∈ (twoCycles.heap.product p).toList,
        .string q ∉ twoCycles.rootNodes ∧
          ∀ m ∈ twoCyclesNodes, .string q ∈ twoCycles.heap.edges m → m = .string p := by decide
    obtain ⟨hroot, honly⟩ := hnodes p hp q (Option.mem_toList.mpr hq)
    exact ⟨hroot, fun m hm =>
      honly m (Session.mem_of_obtainable twoCyclesNodes (by decide) (by decide) m hm)⟩
  safe n hn := (by decide : ∀ n ∈ twoCyclesNodes, twoCycles.Allocated n) n
    (Session.mem_of_obtainable twoCyclesNodes (by decide) (by decide) n hn)

theorem rootNodes_subset {s : Session} {roots : List Value} (hroots : roots ⊆ s.roots) :
    { s with roots := roots }.rootNodes ⊆ s.rootNodes := by
  intro n hn
  simp only [Session.rootNodes, Session.forEachRoot, List.mem_append, List.filterMap_append] at hn ⊢
  exact hn.imp_right (Or.imp_left (Or.imp_left fun h => List.filterMap_subset _ hroots h))

theorem obtainable_of_roots_subset {s : Session} {roots : List Value} (hroots : roots ⊆ s.roots)
    {n : Node} (hn : { s with roots := roots }.Obtainable n) : s.Obtainable n := by
  obtain ⟨r, hr, hrn⟩ := hn
  exact ⟨r, List.mem_append.mpr ((List.mem_append.mp hr).imp_left
    fun hr => rootNodes_subset hroots hr), hrn⟩

/-- A program that lets go of some of its roots. -/
theorem mutates_of_roots_subset {s : Session} (hs : s.Valid) {roots : List Value}
    (hroots : roots ⊆ s.roots) : Mutates s { s with roots := roots } where
  marks := rfl
  objects_nodup := hs.objects_nodup
  strings_nodup := hs.strings_nodup
  bigints_nodup := hs.bigints_nodup
  cells_nodup := hs.cells_nodup
  owned := hs.owned
  hidden := hs.hidden.mono (List.Subset.refl _) rfl (rootNodes_subset hroots)
    (fun _ hn => obtainable_of_roots_subset hroots hn) fun _ => List.Subset.refl _
  frees_none _ hn := hn
  acquires _ hn := Or.inl (obtainable_of_roots_subset hroots hn)

/-- Object 5 is dropped and collected with everything it alone led to. -/
theorem session_collector_exact_twoCycles :
    let t := run step twoCycles [.mutate { twoCycles with roots := [.object 0] }]
    t.collect.2 =
        [.object 4, .object 5, .string 5, .string 3, .bigint 1, .cell 1] ∧
      t.collect.2.Nodup ∧ t.collect.1.marks = ∅ := by
  have hrun : Along step Permits twoCycles [.mutate { twoCycles with roots := [.object 0] }] :=
    ⟨mutates_of_roots_subset twoCycles_valid (by decide), trivial⟩
  have h := session_collector_exact twoCycles_valid hrun
  exact ⟨by decide +kernel, h.2.2.2.1, h.2.2.2.2.2⟩

/-! ### Strings-only collections -/

/-- Nothing the program can get hold of has been freed. -/
def Session.NoDangling (s : Session) : Prop :=
  ∀ n, s.Obtainable n → s.Allocated n

/-- Along every run in which the registry holds no leaf alone when a
strings-only collection begins, nothing dangles, and the next strings-only
collection leaves nothing dangling if and only if the same holds of it. -/
theorem strings_only_no_dangling {s : Session} (hs : s.Valid) {events : List Event}
    (hok : Along step Permits s events) :
    let t := run step s events
    t.NoDangling ∧ (t.collectStringsOnly.1.NoDangling ↔ t.LeavesRooted) := by
  intro t
  have ht : t.Valid := run_valid hs hok
  exact ⟨ht.safe, ht.collectStringsOnly_safe_iff⟩

/-- A broadcast channel (object 0) with a string among its properties and a
listener (object 1), both held by a register. -/
def taggedChannel : Session where
  heap :=
    { objects := [{ session := true, hashProps := [.string 0] }, { session := true }]
      strings := [{ session := true }]
      cells := []
      bigints := [] }
  marks := ∅
  sessionObjects := [0, 1]
  sessionStrings := [0]
  sessionBigints := []
  sessionCells := []
  roots := [.object 0, .object 1]
  cellStack := []
  broadcastChannels := [("x", [0])]
  eventTargets := [(0, [.object 1])]

theorem taggedChannel_valid : taggedChannel.Valid where
  unmarked := rfl
  objects_nodup := by decide
  strings_nodup := by decide
  bigints_nodup := by decide
  cells_nodup := by decide
  owned n hn := by
    cases n with
    | object p =>
      exact (by decide : ∀ p ∈ taggedChannel.sessionObjects,
        taggedChannel.heap.isSession p = true) p hn
    | string p =>
      exact (by decide : ∀ p ∈ taggedChannel.stringBoxes,
        taggedChannel.heap.strings[p]?.map Str.session = some true) p hn
    | bigint p => cases hn
    | cell p => trivial
  hidden p hp q hq := by
    have hnone : ∀ p ∈ taggedChannel.sessionStrings, taggedChannel.heap.product p = none := by
      decide
    rw [hnone p hp] at hq
    cases hq
  safe n hn := (by decide : ∀ n ∈ [.object 0, .object 1, .string 0], taggedChannel.Allocated n) n
    (Session.mem_of_obtainable _ (by decide) (by decide) n hn)

/-- While a register holds the channel, a strings-only collection is safe. -/
theorem strings_only_no_dangling_taggedChannel :
    taggedChannel.collectStringsOnly.1.NoDangling := by
  have hrun : Along step Permits taggedChannel [] := trivial
  refine (strings_only_no_dangling taggedChannel_valid hrun).2.mpr ?_
  rintro n - - ⟨r, hr, hrn⟩
  exact ⟨r, (by decide : ∀ r ∈ taggedChannel.channelNodes, r ∈ taggedChannel.rootNodes) r hr, hrn⟩

/-- The function that created the channel returns, and the channel is left
to the registry and its listener. A strings-only collection frees the
channel's string, and looking the channel up by its name finds it. -/
theorem channel_outlives_its_string :
    Mutates taggedChannel { taggedChannel with roots := [] } ∧
      let t := step { taggedChannel with roots := [] } .collectStringsOnly
      t.broadcastChannels = [("x", [0])] ∧ t.Owned (.object 0) ∧
        .string 0 ∈ t.heap.edges (.object 0) ∧ ¬ t.Allocated (.string 0) ∧ ¬ t.NoDangling := by
  refine ⟨mutates_of_roots_subset taggedChannel_valid (by decide), ?_⟩
  intro t
  have hfreed : ¬ t.Allocated (.string 0) := by decide +kernel
  refine ⟨rfl, by decide +kernel, by decide +kernel, hfreed, fun h => hfreed (h _ ?_)⟩
  exact ⟨.object 0, by decide +kernel, (Reaches.refl _ _).tail (by decide +kernel)⟩

end OxideJS.Gc
