import Mathlib.Data.Set.Basic
import Mathlib.Order.Bounds.Basic

/-!
Pruning a set.

Elements are deleted from a set one after another, and whether an element
may be deleted depends on what is left. If it may still be deleted when
more is gone, the order does not matter: whoever goes on until nothing can
be deleted any more ends with the greatest set from which nothing can be
deleted.
-/

namespace OxideJS.Lib.Pruning

variable {α : Type*} {may : Set α → α → Prop}

/-- Deletions stay possible when more is gone. -/
def Monotonic (may : Set α → α → Prop) : Prop :=
  ∀ ⦃K K' : Set α⦄ ⦃a : α⦄, K ⊆ K' → may K' a → may K a

/-- Nothing can be deleted. -/
def Stable (may : Set α → α → Prop) (K : Set α) : Prop :=
  ∀ a ∈ K, ¬may K a

/-- No stable part of `K₀` has been touched. -/
def Sparing (may : Set α → α → Prop) (K₀ K : Set α) : Prop :=
  K ⊆ K₀ ∧ ∀ S ⊆ K₀, Stable may S → S ⊆ K

theorem Sparing.refl (K : Set α) : Sparing may K K := ⟨fun _ h => h, fun _ h _ => h⟩

/-- Deleting what may be deleted touches no stable part. -/
theorem Sparing.delete (hmono : Monotonic may) {K₀ K K' : Set α} (h : Sparing may K₀ K)
    (hsub : K' ⊆ K) (hmay : ∀ a ∈ K, a ∉ K' → may K a) : Sparing may K₀ K' := by
  refine ⟨fun a ha => h.1 (hsub ha), fun S hS hstable a ha => ?_⟩
  by_contra hnot
  have hSK := h.2 S hS hstable
  exact hstable a ha (hmono hSK (hmay a (hSK ha) hnot))

/-- Two ways of pruning end with the same set. -/
theorem Sparing.unique {K₀ K K' : Set α} (h : Sparing may K₀ K) (h' : Sparing may K₀ K')
    (hs : Stable may K) (hs' : Stable may K') : K = K' :=
  Set.Subset.antisymm (h'.2 K h.1 hs) (h.2 K' h'.1 hs')

end OxideJS.Lib.Pruning
