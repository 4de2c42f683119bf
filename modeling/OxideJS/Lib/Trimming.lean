import Mathlib.Data.List.TakeWhile

/-!
Removing a margin from both ends of a list.

Two notions of what belongs to the margin trim a list in the same way
unless the margin under the wider one has an element that the narrower one
does not remove; and then that element is still there.
-/

namespace OxideJS.Lib.Trimming

/-- The characters with the property `White_Space`. -/
def isWhitespace (c : Char) : Bool :=
  let n := c.toNat
  (0x09 ≤ n && n ≤ 0x0D) || n == 0x20 || n == 0x85 || n == 0xA0 || n == 0x1680 ||
    (0x2000 ≤ n && n ≤ 0x200A) || n == 0x2028 || n == 0x2029 || n == 0x202F || n == 0x205F ||
    n == 0x3000

variable {α : Type*} {p q : α → Bool} {l : List α} {x : α}

def trim (p : α → Bool) (l : List α) : List α :=
  ((l.dropWhile p).reverse.dropWhile p).reverse

/-- What is removed at either end. -/
def margins (p : α → Bool) (l : List α) : List α :=
  l.takeWhile p ++ l.reverse.takeWhile p

theorem mem_dropWhile_of_not (hx : x ∈ l) (hp : p x = false) : x ∈ l.dropWhile p := by
  induction l with
  | nil => exact hx
  | cons a l ih =>
    rw [List.dropWhile_cons]
    split
    · next ha =>
      rcases List.mem_cons.1 hx with rfl | hx
      · exact absurd ha (by simp [hp])
      · exact ih hx
    · exact hx

/-- What does not belong to the margin stays. -/
theorem mem_trim_of_not (hx : x ∈ l) (hp : p x = false) : x ∈ trim p l :=
  List.mem_reverse.2 <| mem_dropWhile_of_not
    (List.mem_reverse.2 (mem_dropWhile_of_not hx hp)) hp

theorem dropWhile_of_forall_not (h : ∀ x ∈ l, p x = false) : l.dropWhile p = l := by
  cases l with
  | nil => rfl
  | cons a l => rw [List.dropWhile_cons_of_neg (by simp [h a List.mem_cons_self])]

/-- A list without anything that belongs to a margin stays as it is. -/
theorem trim_of_forall_not (h : ∀ x ∈ l, p x = false) : trim p l = l := by
  have hback : ∀ x ∈ l.reverse, p x = false := fun x hx => h x (List.mem_reverse.1 hx)
  rw [trim, dropWhile_of_forall_not h, dropWhile_of_forall_not hback, List.reverse_reverse]

theorem of_mem_margins (hx : x ∈ margins p l) : x ∈ l ∧ p x = true := by
  rcases List.mem_append.1 hx with h | h
  · exact ⟨(List.takeWhile_prefix p).subset h, List.mem_takeWhile_imp h⟩
  · exact ⟨List.mem_reverse.1 ((List.takeWhile_prefix p).subset h), List.mem_takeWhile_imp h⟩

theorem dropWhile_congr_margin (hpq : ∀ x, p x = true → q x = true)
    (h : ∀ x ∈ l.takeWhile q, p x = true) : l.dropWhile p = l.dropWhile q := by
  induction l with
  | nil => rfl
  | cons a l ih =>
    by_cases hq : q a = true
    · rw [List.takeWhile_cons, if_pos hq] at h
      have ha : p a = true := h a (List.mem_cons_self ..)
      rw [List.dropWhile_cons, if_pos ha, List.dropWhile_cons, if_pos hq]
      exact ih fun x hx => h x (List.mem_cons_of_mem _ hx)
    · have ha : ¬p a = true := fun ha => hq (hpq a ha)
      rw [List.dropWhile_cons, if_neg ha, List.dropWhile_cons, if_neg hq]

theorem mem_takeWhile_append {m : List α} (hx : x ∈ l.takeWhile p) :
    x ∈ (l ++ m).takeWhile p := by
  induction l with
  | nil => exact absurd hx (by simp)
  | cons a l ih =>
    by_cases ha : p a = true
    · rw [List.takeWhile_cons, if_pos ha] at hx
      rw [List.cons_append, List.takeWhile_cons, if_pos ha]
      rcases List.mem_cons.1 hx with rfl | hx
      · exact List.mem_cons_self ..
      · exact List.mem_cons_of_mem _ (ih hx)
    · rw [List.takeWhile_cons, if_neg ha] at hx
      exact absurd hx (by simp)

/-- A margin that both notions remove is removed in the same way. -/
theorem trim_congr (hpq : ∀ x, p x = true → q x = true)
    (h : ∀ x ∈ margins q l, p x = true) : trim p l = trim q l := by
  have hfront : l.dropWhile p = l.dropWhile q :=
    dropWhile_congr_margin hpq fun x hx => h x (List.mem_append_left _ hx)
  have hback : (l.dropWhile q).reverse.dropWhile p = (l.dropWhile q).reverse.dropWhile q := by
    refine dropWhile_congr_margin hpq fun x hx => h x (List.mem_append_right _ ?_)
    have hrev : l.reverse = (l.dropWhile q).reverse ++ (l.takeWhile q).reverse := by
      rw [← List.reverse_append, List.takeWhile_append_dropWhile]
    rw [hrev]
    exact mem_takeWhile_append hx
  rw [trim, hfront, hback, trim]

end OxideJS.Lib.Trimming
