import Mathlib.Algebra.Order.BigOperators.Group.Finset
import OxideJS.Gc.Heap

/-!
Marking finds what can be reached.

`Reachable` is reachability from the roots along the traced edges, over
all four kinds of nodes at once. The marker works on two levels: objects
go through its stack, leaves into the live sets as soon as an edge to them
is followed, ropes through a stack of their own. `mark_exact` says that the
two levels together find exactly the reachable nodes, provided no mark bit
was set when marking began.
-/

namespace OxideJS.Gc

open Worklist

/-- A node can be reached from one of the nodes given. -/
def ReachableFrom (h : Heap) (entries : List Node) (n : Node) : Prop :=
  ∃ r ∈ entries, Reaches h.edges r n

/-- A node can be reached from the roots. -/
def Session.Reachable (s : Session) : Node → Prop :=
  ReachableFrom s.heap s.rootNodes

theorem ReachableFrom.tail {h : Heap} {entries : List Node} {n m : Node}
    (hn : ReachableFrom h entries n) (hm : m ∈ h.edges n) : ReachableFrom h entries m := by
  obtain ⟨r, hr, hrn⟩ := hn
  exact ⟨r, hr, hrn.tail hm⟩

theorem ReachableFrom.trans {h : Heap} {entries : List Node} {n m : Node}
    (hn : ReachableFrom h entries n) (hm : Reaches h.edges n m) : ReachableFrom h entries m := by
  obtain ⟨r, hr, hrn⟩ := hn
  exact ⟨r, hr, hrn.trans hm⟩

/-! ### Ropes -/

theorem ropeEdges_of_length_le {h : Heap} {p : Nat} (hp : p ∉ Finset.range h.strings.length) :
    h.ropeEdges p = [] := by
  have hnone : h.strings[p]? = none := by simpa using hp
  rw [Heap.ropeEdges, hnone]

/-- A set of strings holds the parts of the ropes it holds. -/
def Heap.RopeClosed (h : Heap) (live : Finset Nat) : Prop :=
  ∀ p ∈ live, ∀ q ∈ h.ropeEdges p, q ∈ live

theorem mem_markStringLive {h : Heap} {live : Finset Nat} (hlive : h.RopeClosed live)
    (root q : Nat) :
    q ∈ h.markStringLive live root ↔ q ∈ live ∨ Reaches h.ropeEdges root q := by
  have hstart : Explores h.ropeEdges (fun p => p ∈ live ∨ p = root) (fun _ _ => True) []
      (⟨[root], live, ()⟩ : Work Nat Unit) :=
    { roots := fun r hr => by simpa using hr
      sound := fun p hp => ⟨p, by simpa using hp, Reaches.refl _ _⟩
      closed := fun p hp q hq => Or.inl (hlive p hp q hq)
      noted := trivial }
  have hcost : cost h.ropeEdges (Finset.range h.strings.length)
      (⟨[root], live, ()⟩ : Work Nat Unit) ≤ h.ropeFuel :=
    Nat.add_le_add_left (Finset.sum_le_sum_of_subset Finset.sdiff_subset) 1
  have hkeep : KeepsNoted h.ropeEdges (fun (u : Unit) _ => u) (fun p => p ∈ live ∨ p = root)
      fun _ _ => True := fun _ _ _ _ _ _ => trivial
  have hdrain := hstart.drain hkeep h.ropeFuel
  rw [Heap.markStringLive,
    hdrain.mem_seen_iff (drain_stack (fun _ => ropeEdges_of_length_le) hcost)]
  constructor
  · rintro ⟨r, hr | rfl, hrq⟩
    · exact Or.inl (hrq.inherits (· ∈ live) hlive hr)
    · exact Or.inr hrq
  · rintro (hq | hq)
    · exact ⟨q, Or.inl hq, Reaches.refl _ _⟩
    · exact ⟨root, Or.inr rfl, hq⟩

theorem ropeClosed_markStringLive {h : Heap} {live : Finset Nat} (hlive : h.RopeClosed live)
    (root : Nat) : h.RopeClosed (h.markStringLive live root) := by
  intro p hp q hq
  rw [mem_markStringLive hlive] at hp ⊢
  rcases hp with hp | hp
  · exact Or.inl (hlive p hp q hq)
  · exact Or.inr (hp.tail hq)

/-- A path through a rope is a path in the graph of all nodes. -/
theorem reaches_string {h : Heap} {p q : Nat} (hpq : Reaches h.ropeEdges p q) :
    Reaches h.edges (.string p) (.string q) := by
  induction hpq with
  | refl => exact Reaches.refl _ _
  | tail _ hq ih => exact ih.tail (List.mem_map_of_mem hq)

/-! ### Leaves -/

/-- A leaf is in its live set. -/
def Live.Has (live : Live) : Node → Prop
  | .object _ => False
  | .string p => p ∈ live.strings
  | .bigint p => p ∈ live.bigints
  | .cell p => p ∈ live.cells

/-- The live sets have taken in the leaves of a list of nodes and nothing
but what can be reached from them. -/
structure Extends (h : Heap) (nodes : List Node) (live live' : Live) : Prop where
  mono : ∀ n, live.Has n → live'.Has n
  covers : ∀ n ∈ nodes, n.object? = none → live'.Has n
  sound : ∀ n, live'.Has n → live.Has n ∨ ReachableFrom h nodes n
  closed : h.RopeClosed live'.strings

theorem Extends.refl {h : Heap} {live : Live} (hlive : h.RopeClosed live.strings) :
    Extends h [] live live :=
  ⟨fun _ hn => hn, fun _ hn => absurd hn List.not_mem_nil, fun _ hn => Or.inl hn, hlive⟩

theorem Extends.trans {h : Heap} {nodes nodes' : List Node} {live live' live'' : Live}
    (he : Extends h nodes live live') (he' : Extends h nodes' live' live'') :
    Extends h (nodes ++ nodes') live live'' where
  mono n hn := he'.mono n (he.mono n hn)
  covers n hn hleaf := by
    rcases List.mem_append.mp hn with hn | hn
    · exact he'.mono n (he.covers n hn hleaf)
    · exact he'.covers n hn hleaf
  sound n hn := by
    rcases he'.sound n hn with hn | ⟨r, hr, hrn⟩
    · rcases he.sound n hn with hn | ⟨r, hr, hrn⟩
      · exact Or.inl hn
      · exact Or.inr ⟨r, List.mem_append_left _ hr, hrn⟩
    · exact Or.inr ⟨r, List.mem_append_right _ hr, hrn⟩
  closed := he'.closed

theorem processEdge_extends {h : Heap} {live : Live} (hlive : h.RopeClosed live.strings)
    (n : Node) : Extends h [n] live (h.processEdge live n) := by
  have hself : ReachableFrom h [n] n := ⟨n, List.mem_singleton_self n, Reaches.refl _ _⟩
  cases n with
  | object p =>
    refine ⟨fun _ hm => hm, fun m hm hleaf => ?_, fun _ hm => Or.inl hm, hlive⟩
    rw [List.mem_singleton.mp hm] at hleaf
    cases hleaf
  | string p =>
    refine ⟨fun m hm => ?_, fun m hm _ => ?_, fun m hm => ?_,
      ropeClosed_markStringLive hlive p⟩
    · cases m with
      | string q => exact (mem_markStringLive hlive p q).mpr (Or.inl hm)
      | _ => exact hm
    · rw [List.mem_singleton.mp hm]
      exact (mem_markStringLive hlive p p).mpr (Or.inr (Reaches.refl _ _))
    · cases m with
      | string q =>
        exact ((mem_markStringLive hlive p q).mp hm).imp id
          fun hq => hself.trans (reaches_string hq)
      | _ => exact Or.inl hm
  | bigint p =>
    refine ⟨fun m hm => ?_, fun m hm _ => ?_, fun m hm => ?_, hlive⟩
    · cases m with
      | bigint q => exact Finset.mem_insert_of_mem hm
      | _ => exact hm
    · rw [List.mem_singleton.mp hm]
      exact Finset.mem_insert_self _ _
    · cases m with
      | bigint q => exact (Finset.mem_insert.mp hm).elim (fun hq => Or.inr (hq ▸ hself)) Or.inl
      | _ => exact Or.inl hm
  | cell p =>
    refine ⟨fun m hm => ?_, fun m hm _ => ?_, fun m hm => ?_, hlive⟩
    · cases m with
      | cell q => exact Finset.mem_insert_of_mem hm
      | _ => exact hm
    · rw [List.mem_singleton.mp hm]
      exact Finset.mem_insert_self _ _
    · cases m with
      | cell q => exact (Finset.mem_insert.mp hm).elim (fun hq => Or.inr (hq ▸ hself)) Or.inl
      | _ => exact Or.inl hm

theorem foldl_processEdge_extends {h : Heap} (nodes : List Node) {live : Live}
    (hlive : h.RopeClosed live.strings) :
    Extends h nodes live (nodes.foldl h.processEdge live) := by
  induction nodes generalizing live with
  | nil => exact Extends.refl hlive
  | cons n nodes ih =>
    have hn := processEdge_extends hlive n
    exact hn.trans (ih hn.closed)

/-! ### Objects -/

theorem mem_scanObjects {h : Heap} {p q : Nat} :
    q ∈ h.scanObjects p ↔ Node.object q ∈ h.edges (.object p) := by
  rw [Heap.scanObjects, List.mem_filterMap]
  constructor
  · rintro ⟨n, hn, hq⟩
    cases n with
    | object r =>
      cases hq
      exact hn
    | _ => cases hq
  · exact fun hq => ⟨_, hq, rfl⟩

theorem scanObjects_of_length_le {h : Heap} {p : Nat}
    (hp : p ∉ Finset.range h.objects.length) : h.scanObjects p = [] := by
  have hnone : h.objects[p]? = none := by simpa using hp
  rw [Heap.scanObjects, Heap.objectNodes, hnone]
  rfl

theorem reaches_object {h : Heap} {p q : Nat} (hpq : Reaches h.scanObjects p q) :
    Reaches h.edges (.object p) (.object q) := by
  induction hpq with
  | refl => exact Reaches.refl _ _
  | tail _ hq ih => exact ih.tail (mem_scanObjects.mp hq)

/-- An object among the roots. -/
def Session.RootObject (s : Session) (p : Nat) : Prop :=
  p ∈ s.rootNodes.filterMap Node.object?

theorem Session.RootObject.mem {s : Session} {p : Nat} (hp : s.RootObject p) :
    Node.object p ∈ s.rootNodes := by
  obtain ⟨n, hn, hnp⟩ := List.mem_filterMap.mp hp
  cases n with
  | object q =>
    cases hnp
    exact hn
  | _ => cases hnp

/-- What the live sets hold when a set of objects has been scanned: the
leaves of the roots and of these objects, and only reachable ones. -/
structure Session.Noted (s : Session) (seen : Finset Nat) (live : Live) : Prop where
  roots : ∀ n ∈ s.rootNodes, n.object? = none → live.Has n
  covers : ∀ p ∈ seen, ∀ n ∈ s.heap.edges (.object p), n.object? = none → live.Has n
  sound : ∀ n, live.Has n → s.Reachable n
  closed : s.heap.RopeClosed live.strings

theorem keepsNoted (s : Session) :
    KeepsNoted s.heap.scanObjects s.heap.scanLeaves s.RootObject s.Noted := by
  rintro seen live p - ⟨r, hr, hrp⟩ hnoted
  have hp : s.Reachable (.object p) := ⟨.object r, hr.mem, reaches_object hrp⟩
  have hext : Extends s.heap (s.heap.edges (.object p)) live (s.heap.scanLeaves live p) :=
    foldl_processEdge_extends _ hnoted.closed
  refine ⟨fun n hn hleaf => hext.mono n (hnoted.roots n hn hleaf), fun q hq n hn hleaf => ?_,
    fun n hn => ?_, hext.closed⟩
  · rcases Finset.mem_insert.mp hq with rfl | hq
    · exact hext.covers n hn hleaf
    · exact hext.mono n (hnoted.covers q hq n hn hleaf)
  · rcases hext.sound n hn with hn | ⟨m, hm, hmn⟩
    · exact hnoted.sound n hn
    · exact (hp.tail hm).trans hmn

/-- Seeding hands the roots to the exploration. -/
theorem seed_explores {s : Session} (seeds : List Nat) {w : Work Nat Live}
    (h : Explores s.heap.scanObjects s.RootObject s.Noted seeds w) :
    Explores s.heap.scanObjects s.RootObject s.Noted [] (seeds.foldl s.heap.seed w) := by
  induction seeds generalizing w with
  | nil => exact h
  | cons p seeds ih =>
    refine ih ?_
    rw [Heap.seed]
    split
    · exact h.push
    · exact h.visit (keepsNoted s)

theorem cost_seed_le {h : Heap} (seeds : List Nat) (w : Work Nat Live) :
    cost h.scanObjects (Finset.range h.objects.length) (seeds.foldl h.seed w) ≤
      cost h.scanObjects (Finset.range h.objects.length) w + seeds.length := by
  induction seeds generalizing w with
  | nil => exact le_rfl
  | cons p seeds ih =>
    have hseed : cost h.scanObjects (Finset.range h.objects.length) (h.seed w p) ≤
        cost h.scanObjects (Finset.range h.objects.length) w + 1 := by
      rw [Heap.seed]
      split
      · simp only [cost, List.length_cons]
        omega
      · exact (cost_visit_le (fun _ => scanObjects_of_length_le) w p).trans (Nat.le_add_right _ 1)
    have := ih (h.seed w p)
    simp only [List.foldl_cons, List.length_cons]
    omega

/-- Marking that starts without marks runs to the end of its stack. -/
theorem markWork_explores {s : Session} (hmarks : s.marks = ∅) :
    Explores s.heap.scanObjects s.RootObject s.Noted [] s.markWork ∧ s.markWork.stack = [] := by
  have hleaves : Extends s.heap s.rootNodes ⟨∅, ∅, ∅⟩
      (s.rootNodes.foldl s.heap.processEdge ⟨∅, ∅, ∅⟩) :=
    foldl_processEdge_extends _ fun p hp => absurd hp (Finset.notMem_empty p)
  have hstart : Explores s.heap.scanObjects s.RootObject s.Noted
      (s.rootNodes.filterMap Node.object?)
      ⟨[], s.marks, s.rootNodes.foldl s.heap.processEdge ⟨∅, ∅, ∅⟩⟩ :=
    { roots := fun r hr => Or.inr (Or.inr hr)
      sound := fun p hp => ⟨p, by simpa [hmarks, Session.RootObject] using hp, Reaches.refl _ _⟩
      closed := fun p hp => absurd hp (by simp [hmarks])
      noted :=
        { roots := hleaves.covers
          covers := fun p hp => absurd hp (by simp [hmarks])
          sound := fun n hn => (hleaves.sound n hn).elim
            (fun hn => by cases n <;> simp [Live.Has] at hn) id
          closed := hleaves.closed } }
  refine ⟨(seed_explores _ hstart).drain (keepsNoted s) _,
    drain_stack (fun _ => scanObjects_of_length_le) ((cost_seed_le _ _).trans ?_)⟩
  have hlen := List.length_filterMap_le Node.object? s.rootNodes
  simp only [cost, hmarks, List.length_nil, Finset.sdiff_empty, Session.markFuel]
  omega

/-- A node that marking has found: an object it has seen, or a leaf in its
live set. -/
def Session.Found (s : Session) : Node → Prop
  | .object p => p ∈ s.markWork.seen
  | n => s.markWork.acc.Has n

theorem found_of_leaf {s : Session} {n : Node} (hleaf : n.object? = none)
    (hn : s.markWork.acc.Has n) : s.Found n := by
  cases n with
  | object p => cases hleaf
  | _ => exact hn

/-- Marking finds exactly the reachable nodes. -/
theorem mark_exact {s : Session} (hmarks : s.marks = ∅) (n : Node) :
    s.Found n ↔ s.Reachable n := by
  obtain ⟨hexp, hstack⟩ := markWork_explores hmarks
  have hseen := hexp.mem_seen_iff hstack
  constructor
  · intro hn
    cases n with
    | object p =>
      obtain ⟨r, hr, hrp⟩ := (hseen p).mp hn
      exact ⟨.object r, hr.mem, reaches_object hrp⟩
    | _ => exact hexp.noted.sound _ hn
  · rintro ⟨r, hr, hrn⟩
    refine hrn.inherits s.Found (fun m hm k hk => ?_) ?_
    · -- an edge leads from a found node to a found one
      cases m with
      | object p =>
        cases hk' : k.object? with
        | none => exact found_of_leaf hk' (hexp.noted.covers p hm k hk hk')
        | some q =>
          cases k with
          | object q' =>
            obtain ⟨r, hr, hrp⟩ := (hseen p).mp hm
            exact (hseen q').mpr ⟨r, hr, hrp.tail (mem_scanObjects.mpr hk)⟩
          | _ => cases hk'
      | string p =>
        obtain ⟨q, hq, rfl⟩ := List.mem_map.mp hk
        exact hexp.noted.closed p hm q hq
      | bigint p => cases hk
      | cell p => cases hk
    · cases hr' : r.object? with
      | none => exact found_of_leaf hr' (hexp.noted.roots r hr hr')
      | some q =>
        cases r with
        | object q' =>
          exact (hseen q').mpr
            ⟨q', List.mem_filterMap.mpr ⟨_, hr, rfl⟩, Reaches.refl _ _⟩
        | _ => cases hr'

end OxideJS.Gc
