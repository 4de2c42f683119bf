import Mathlib.Algebra.BigOperators.Group.Finset.Basic
import Mathlib.Data.Finset.SDiff
import Mathlib.Logic.Relation

/-!
Exploration of a graph with a stack of nodes still to visit.

A node is visited when it is taken from the stack for the first time: it
joins the set of nodes seen, its successors are pushed, and an accumulator
takes note of it. The loop is bounded by fuel; `drain_stack` says how much
fuel empties the stack, and `Explores.mem_seen_iff` that an emptied stack
leaves exactly the nodes that can be reached from the roots.

The invariant `Explores` carries a list of nodes that are owed to the
stack, so that the same rules serve the loop, which owes the node it has
just popped, and a caller that is still handing in its roots.
-/

namespace Worklist

variable {ι α : Type*}

/-- A node can be reached from another along successors. -/
def Reaches (succs : ι → List ι) : ι → ι → Prop :=
  Relation.ReflTransGen fun x y => y ∈ succs x

theorem Reaches.refl (succs : ι → List ι) (x : ι) : Reaches succs x x :=
  Relation.ReflTransGen.refl

theorem Reaches.tail {succs : ι → List ι} {x y z : ι} (h : Reaches succs x y)
    (hz : z ∈ succs y) : Reaches succs x z :=
  Relation.ReflTransGen.tail h hz

theorem Reaches.trans {succs : ι → List ι} {x y z : ι} (h : Reaches succs x y)
    (h' : Reaches succs y z) : Reaches succs x z :=
  Relation.ReflTransGen.trans h h'

/-- A property that successors inherit holds of whatever can be reached. -/
theorem Reaches.inherits {succs : ι → List ι} (Good : ι → Prop)
    (hstep : ∀ x, Good x → ∀ y ∈ succs x, Good y) {x y : ι} (h : Reaches succs x y)
    (hx : Good x) : Good y := by
  induction h with
  | refl => exact hx
  | tail _ hz ih => exact hstep _ ih _ hz

/-- Fewer successors reach fewer nodes. -/
theorem Reaches.mono {succs succs' : ι → List ι} (hsub : ∀ x, succs x ⊆ succs' x) {x y : ι}
    (h : Reaches succs x y) : Reaches succs' x y :=
  Relation.ReflTransGen.mono (fun a _ hb => hsub a hb) _ _ h

/-- The state of an exploration. -/
structure Work (ι α : Type*) where
  stack : List ι
  seen : Finset ι
  acc : α

variable (succs : ι → List ι) (note : α → ι → α)

/-- Visit a node, unless it has been seen. -/
def visit [DecidableEq ι] (w : Work ι α) (x : ι) : Work ι α :=
  if x ∈ w.seen then w
  else
    { stack := (succs x).reverse ++ w.stack
      seen := insert x w.seen
      acc := note w.acc x }

/-- Take nodes from the stack and visit them until none is left. -/
def drain [DecidableEq ι] : Nat → Work ι α → Work ι α
  | 0, w => w
  | fuel + 1, w =>
    match w.stack with
    | [] => w
    | x :: stack => drain fuel (visit succs note { w with stack := stack } x)

/-- The exploration of what `root` reaches is on its way: nothing but what
can be reached is held, what a seen node leads to is held or owed, and the
accumulator stands in the relation `Noted` to the nodes seen. -/
structure Explores (root : ι → Prop) (Noted : Finset ι → α → Prop) (owed : List ι)
    (w : Work ι α) : Prop where
  roots : ∀ r, root r → r ∈ w.seen ∨ r ∈ w.stack ∨ r ∈ owed
  sound : ∀ x, x ∈ w.seen ∨ x ∈ w.stack ∨ x ∈ owed → ∃ r, root r ∧ Reaches succs r x
  closed : ∀ x ∈ w.seen, ∀ y ∈ succs x, y ∈ w.seen ∨ y ∈ w.stack ∨ y ∈ owed
  noted : Noted w.seen w.acc

/-- The accumulator's relation survives the visit of a node that can be
reached. -/
def KeepsNoted [DecidableEq ι] (root : ι → Prop) (Noted : Finset ι → α → Prop) : Prop :=
  ∀ seen acc x, x ∉ seen → (∃ r, root r ∧ Reaches succs r x) → Noted seen acc →
    Noted (insert x seen) (note acc x)

section Rules

variable {succs note} {root : ι → Prop} {Noted : Finset ι → α → Prop} {owed : List ι}
  {w : Work ι α} {x : ι}

/-- A node that is owed can be pushed. -/
theorem Explores.push (h : Explores succs root Noted (x :: owed) w) :
    Explores succs root Noted owed { w with stack := x :: w.stack } where
  roots r hr := by
    have := h.roots r hr
    simp only [List.mem_cons] at this ⊢
    tauto
  sound y hy := by
    refine h.sound y ?_
    simp only [List.mem_cons] at hy ⊢
    tauto
  closed y hy z hz := by
    have := h.closed y hy z hz
    simp only [List.mem_cons] at this ⊢
    tauto
  noted := h.noted

/-- A node taken from the stack is owed. -/
theorem Explores.pop {stack : List ι} (h : Explores succs root Noted owed w)
    (hstack : w.stack = x :: stack) :
    Explores succs root Noted (x :: owed) { w with stack := stack } where
  roots r hr := by
    have := h.roots r hr
    simp only [hstack, List.mem_cons] at this ⊢
    tauto
  sound y hy := by
    refine h.sound y ?_
    simp only [hstack, List.mem_cons] at hy ⊢
    tauto
  closed y hy z hz := by
    have := h.closed y hy z hz
    simp only [hstack, List.mem_cons] at this ⊢
    tauto
  noted := h.noted

/-- A node that is owed can be visited. -/
theorem Explores.visit [DecidableEq ι] (hnote : KeepsNoted succs note root Noted)
    (h : Explores succs root Noted (x :: owed) w) :
    Explores succs root Noted owed (visit succs note w x) := by
  have hreach : ∃ r, root r ∧ Reaches succs r x :=
    h.sound x (Or.inr (Or.inr List.mem_cons_self))
  by_cases hx : x ∈ w.seen
  · rw [Worklist.visit, if_pos hx]
    refine ⟨fun r hr => ?_, fun y hy => h.sound y ?_, fun y hy z hz => ?_, h.noted⟩
    · have := h.roots r hr
      simp only [List.mem_cons] at this
      rcases this with h | h | rfl | h <;> tauto
    · simp only [List.mem_cons]
      tauto
    · have := h.closed y hy z hz
      simp only [List.mem_cons] at this
      rcases this with h | h | rfl | h <;> tauto
  · rw [Worklist.visit, if_neg hx]
    refine ⟨fun r hr => ?_, fun y hy => ?_, fun y hy z hz => ?_,
      hnote _ _ _ hx hreach h.noted⟩
    · have := h.roots r hr
      simp only [List.mem_cons] at this
      simp only [Finset.mem_insert, List.mem_append]
      tauto
    · simp only [Finset.mem_insert, List.mem_append, List.mem_reverse] at hy
      by_cases hyx : y ∈ succs x
      · obtain ⟨r, hr, hrx⟩ := hreach
        exact ⟨r, hr, hrx.tail hyx⟩
      · refine h.sound y ?_
        simp only [List.mem_cons]
        tauto
    · simp only [Finset.mem_insert, List.mem_append, List.mem_reverse] at hy ⊢
      rcases hy with rfl | hy
      · exact Or.inr (Or.inl (Or.inl hz))
      · have := h.closed y hy z hz
        simp only [List.mem_cons] at this
        tauto

theorem Explores.drain [DecidableEq ι] (hnote : KeepsNoted succs note root Noted) (fuel : Nat)
    (h : Explores succs root Noted owed w) :
    Explores succs root Noted owed (drain succs note fuel w) := by
  induction fuel generalizing w with
  | zero => exact h
  | succ fuel ih =>
    rw [Worklist.drain]
    split
    · exact h
    · next x stack hstack => exact ih ((h.pop hstack).visit hnote)

/-- With nothing on the stack and nothing owed, the nodes seen are those
that can be reached. -/
theorem Explores.mem_seen_iff (h : Explores succs root Noted [] w) (hstack : w.stack = [])
    (x : ι) : x ∈ w.seen ↔ ∃ r, root r ∧ Reaches succs r x := by
  constructor
  · exact fun hx => h.sound x (Or.inl hx)
  · rintro ⟨r, hr, hrx⟩
    refine hrx.inherits (· ∈ w.seen) (fun y hy z hz => ?_) ?_
    · simpa [hstack] using h.closed y hy z hz
    · simpa [hstack] using h.roots r hr

end Rules

/-! ### Fuel -/

variable [DecidableEq ι]

/-- A bound on the nodes that can still be popped: those on the stack, and
one for every successor of a node not seen yet. -/
def cost (U : Finset ι) (w : Work ι α) : Nat :=
  w.stack.length + ∑ x ∈ U \ w.seen, (succs x).length

variable {succs note} {U : Finset ι}

theorem cost_visit_le (hU : ∀ x ∉ U, succs x = []) (w : Work ι α) (x : ι) :
    cost succs U (visit succs note w x) ≤ cost succs U w := by
  by_cases hx : x ∈ w.seen
  · rw [visit, if_pos hx]
  · rw [visit, if_neg hx]
    simp only [cost, List.length_append, List.length_reverse, Finset.sdiff_insert]
    by_cases hxU : x ∈ U
    · have hsum := Finset.add_sum_erase (U \ w.seen) (fun x => (succs x).length)
        (Finset.mem_sdiff.mpr ⟨hxU, hx⟩)
      omega
    · have hnil := hU x hxU
      rw [Finset.erase_eq_of_notMem fun h => hxU (Finset.mem_sdiff.mp h).1, hnil]
      simp

/-- Fuel for the cost of the work empties the stack. -/
theorem drain_stack (hU : ∀ x ∉ U, succs x = []) {fuel : Nat} {w : Work ι α}
    (hfuel : cost succs U w ≤ fuel) : (drain succs note fuel w).stack = [] := by
  induction fuel generalizing w with
  | zero =>
    have hlen : w.stack.length = 0 := by
      rw [cost] at hfuel
      omega
    exact List.eq_nil_of_length_eq_zero hlen
  | succ fuel ih =>
    rw [drain]
    split
    · assumption
    · next x stack hstack =>
        refine ih ((cost_visit_le hU _ x).trans ?_)
        simp only [cost, hstack, List.length_cons] at hfuel ⊢
        omega

end Worklist
