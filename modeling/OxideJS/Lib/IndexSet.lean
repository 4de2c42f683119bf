import Mathlib.Data.List.Basic

/-!
Sets that remember the order of insertion.

The elements are kept in a list, no two of them equivalent; the
equivalence is `==`, which may be coarser than equality, so the element
that was inserted first is the one that is stored. A removal closes the
gap it leaves.
-/

/-- A list without two equivalent elements. -/
structure IndexSet (α : Type*) [BEq α] where
  items : List α
  distinct : items.Pairwise fun a b => (a == b) = false

namespace IndexSet

variable {α : Type*} [BEq α] {s t : IndexSet α} {a b : α} {l : List α}

def empty : IndexSet α := ⟨[], List.Pairwise.nil⟩

def length (s : IndexSet α) : Nat := s.items.length

/-- An equivalent element is stored. -/
def contains (s : IndexSet α) (a : α) : Bool := s.items.contains a

theorem contains_iff : s.contains a = true ↔ ∃ b ∈ s.items, (a == b) = true :=
  List.contains_iff_exists_mem_beq

/-- Removes the equivalent element and shifts those after it. -/
def shiftRemove (s : IndexSet α) (a : α) : IndexSet α :=
  ⟨s.items.eraseP (a == ·), s.distinct.sublist List.eraseP_sublist⟩

variable [EquivBEq α]

/-- Appends the element, unless an equivalent one is stored. -/
def insert (s : IndexSet α) (a : α) : IndexSet α :=
  if h : s.contains a = true then s
  else ⟨s.items ++ [a], by
    refine List.pairwise_append.mpr ⟨s.distinct, List.pairwise_singleton _ _, fun b hb c hc => ?_⟩
    obtain rfl := List.mem_singleton.mp hc
    rw [BEq.comm, ← Bool.not_eq_true]
    exact fun hcb => h (contains_iff.mpr ⟨b, hb, hcb⟩)⟩

theorem contains_congr (h : (a == b) = true) : s.contains a = s.contains b := by
  rw [Bool.eq_iff_iff, contains_iff, contains_iff]
  simp only [BEq.congr_left h]

theorem contains_of_mem (h : a ∈ s.items) : s.contains a = true :=
  contains_iff.mpr ⟨a, h, BEq.rfl⟩

/-! ### Inserting -/

theorem items_insert (s : IndexSet α) (a : α) :
    (s.insert a).items = if s.contains a = true then s.items else s.items ++ [a] := by
  unfold insert
  split <;> rfl

theorem mem_insert : b ∈ (s.insert a).items ↔ b ∈ s.items ∨ b = a ∧ s.contains a = false := by
  rw [items_insert]
  cases s.contains a <;> simp

@[simp] theorem contains_insert (s : IndexSet α) (a b : α) :
    (s.insert a).contains b = (s.contains b || b == a) := by
  rw [Bool.eq_iff_iff, Bool.or_eq_true, contains_iff]
  constructor
  · rintro ⟨c, hc, hbc⟩
    rcases mem_insert.mp hc with hc | ⟨rfl, -⟩
    · exact .inl (contains_iff.mpr ⟨c, hc, hbc⟩)
    · exact .inr hbc
  · rintro (hb | hba)
    · obtain ⟨c, hc, hbc⟩ := contains_iff.mp hb
      exact ⟨c, mem_insert.mpr (.inl hc), hbc⟩
    · cases hs : s.contains a with
      | false => exact ⟨a, mem_insert.mpr (.inr ⟨rfl, hs⟩), hba⟩
      | true =>
        obtain ⟨c, hc, hac⟩ := contains_iff.mp hs
        exact ⟨c, mem_insert.mpr (.inl hc), BEq.trans hba hac⟩

theorem contains_foldl_insert (s : IndexSet α) (l : List α) (b : α) :
    (l.foldl insert s).contains b = (s.contains b || l.contains b) := by
  induction l generalizing s with
  | nil => simp
  | cons a l ih => rw [List.foldl_cons, ih, contains_insert, List.contains_cons, Bool.or_assoc]

/-- What is stored stays, and what is new comes from the list. -/
theorem mem_foldl_insert (s : IndexSet α) (l : List α) :
    (∀ b ∈ s.items, b ∈ (l.foldl insert s).items) ∧
      ∀ b ∈ (l.foldl insert s).items, b ∈ s.items ∨ b ∈ l := by
  induction l generalizing s with
  | nil => exact ⟨fun b hb => hb, fun b hb => .inl hb⟩
  | cons a l ih =>
    obtain ⟨hstays, hnew⟩ := ih (s.insert a)
    refine ⟨fun b hb => hstays b (mem_insert.mpr (.inl hb)), fun b hb => ?_⟩
    rcases hnew b hb with hb | hb
    · rcases mem_insert.mp hb with hb | ⟨rfl, -⟩
      · exact .inl hb
      · exact .inr List.mem_cons_self
    · exact .inr (List.mem_cons_of_mem a hb)

/-- Copying the elements that pass a test, one by one. -/
theorem items_foldl_filter (p : α → Bool) (s : IndexSet α) (l : List α)
    (h : (s.items ++ l).Pairwise fun a b => (a == b) = false) :
    (l.foldl (fun s a => if p a then s.insert a else s) s).items = s.items ++ l.filter p := by
  induction l generalizing s with
  | nil => simp
  | cons a l ih =>
    rw [List.foldl_cons]
    cases hp : p a with
    | false =>
      refine (ih s (h.sublist ?_)).trans (by simp [hp])
      exact List.Sublist.append_left (List.sublist_cons_self a l) s.items
    | true =>
      have hnew : s.contains a = false := by
        rw [← Bool.not_eq_true, contains_iff]
        rintro ⟨b, hb, hab⟩
        have hba := (List.pairwise_append.mp h).2.2 b hb a List.mem_cons_self
        rw [BEq.comm, hba] at hab
        exact nomatch hab
      have hitems : (s.insert a).items = s.items ++ [a] := by rw [items_insert, hnew]; rfl
      refine (ih (s.insert a) ?_).trans ?_
      · rw [hitems, List.append_assoc]
        exact h
      · rw [hitems, List.append_assoc, List.filter_cons_of_pos hp]
        rfl

/-! ### Removing -/

theorem items_shiftRemove (s : IndexSet α) (a : α) :
    (s.shiftRemove a).items = s.items.filter fun b => !(a == b) := by
  show s.items.eraseP (a == ·) = _
  obtain ⟨l, hl⟩ := s
  induction l with
  | nil => rfl
  | cons c l ih =>
    obtain ⟨hc, hl'⟩ := List.pairwise_cons.mp hl
    cases hac : a == c with
    | false =>
      rw [List.eraseP_cons_of_neg (by simp [hac]), List.filter_cons_of_pos (by simp [hac]), ih hl']
    | true =>
      rw [List.eraseP_cons_of_pos hac, List.filter_cons_of_neg (by simp [hac]), eq_comm,
        List.filter_eq_self]
      intro b hb
      rw [BEq.congr_left hac, hc b hb]
      rfl

theorem mem_shiftRemove : b ∈ (s.shiftRemove a).items ↔ b ∈ s.items ∧ (a == b) = false := by
  rw [items_shiftRemove, List.mem_filter, Bool.not_eq_true']

@[simp] theorem contains_shiftRemove (s : IndexSet α) (a b : α) :
    (s.shiftRemove a).contains b = (s.contains b && !(b == a)) := by
  rw [Bool.eq_iff_iff, Bool.and_eq_true, Bool.not_eq_true', contains_iff, contains_iff]
  constructor
  · rintro ⟨c, hc, hbc⟩
    obtain ⟨hc, hac⟩ := mem_shiftRemove.mp hc
    refine ⟨⟨c, hc, hbc⟩, ?_⟩
    rw [BEq.congr_left hbc, BEq.comm]
    exact hac
  · rintro ⟨⟨c, hc, hbc⟩, hba⟩
    refine ⟨c, mem_shiftRemove.mpr ⟨hc, ?_⟩, hbc⟩
    rw [BEq.comm, ← BEq.congr_left hbc]
    exact hba

omit [EquivBEq α] in
theorem length_shiftRemove (h : s.contains a = true) :
    (s.shiftRemove a).length + 1 = s.length := by
  obtain ⟨b, hb, hab⟩ := contains_iff.mp h
  have hlength : (s.items.eraseP (a == ·)).length = s.items.length - 1 :=
    List.length_eraseP_of_mem hb hab
  have hpos := List.length_pos_of_mem hb
  show (s.items.eraseP (a == ·)).length + 1 = s.items.length
  omega

/-- A set with all elements of another is not smaller. -/
theorem length_le_of_contains (h : ∀ a ∈ s.items, t.contains a = true) : s.length ≤ t.length := by
  obtain ⟨l, hl⟩ := s
  induction l generalizing t with
  | nil => exact Nat.zero_le _
  | cons a l ih =>
    obtain ⟨ha, hl'⟩ := List.pairwise_cons.mp hl
    have hrest := ih (t := t.shiftRemove a) hl' fun b hb => by
      rw [contains_shiftRemove, h b (List.mem_cons_of_mem a hb), BEq.comm, ha b hb]
      rfl
    have hlength := length_shiftRemove (h a List.mem_cons_self)
    show l.length + 1 ≤ t.length
    have : l.length ≤ (t.shiftRemove a).length := hrest
    omega

end IndexSet
