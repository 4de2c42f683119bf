import OxideJS.Lib.IndexSet
import OxideJS.Collections.SetKey
import OxideJS.Collections.Cursors

/-!
Iteration over maps and sets while they change.

A map keeps its entries in slots and leaves an empty slot where one is
deleted, so its cursors are positions of the live list; only clearing
throws the slots away. A set closes the gap of a deleted element, so its
cursors count the elements before the position. Both lose their place: a
set when an element before a cursor is deleted, both when they are cleared
under a cursor that has moved.
-/

namespace OxideJS.Collections

section

variable {K V : Type}

/-! ### Scanning -/

theorem scanFrom_shift (n : Nat) (l : List (Option (K × V))) (i : Nat) :
    scanFrom l (n + i) = (scanFrom l i).map fun found => (found.1, n + found.2) := by
  induction l generalizing i with
  | nil => rfl
  | cons entry l ih =>
    cases entry with
    | none => exact ih (i + 1)
    | some entry => rfl

theorem scanFrom_replicate (m : Nat) (l : List (Option (K × V))) (i : Nat) :
    scanFrom (List.replicate m none ++ l) i = scanFrom l (i + m) := by
  induction m generalizing i with
  | zero => rfl
  | succ m ih =>
    rw [List.replicate_succ, List.cons_append, scanFrom, ih, Nat.add_right_comm, Nat.add_assoc]

/-- Empty entries in front only move the positions. -/
theorem scan_replicate_append (n : Nat) (l : List (Option (K × V))) (p : Nat) :
    scan (List.replicate n none ++ l) p =
      (scan l (p - n)).map fun found => (found.1, n + found.2) := by
  unfold scan
  rw [← scanFrom_shift, List.drop_append, List.drop_replicate, List.length_replicate,
    scanFrom_replicate]
  congr 1
  omega

theorem scanFrom_eq_some {l : List (Option (K × V))} {i j : Nat} {entry : K × V}
    (h : scanFrom l i = some (entry, j)) :
    ∃ m rest, l = List.replicate m none ++ some entry :: rest ∧ j = i + m + 1 := by
  induction l generalizing i with
  | nil => exact nomatch h
  | cons head l ih =>
    cases head with
    | some e =>
      obtain ⟨rfl, rfl⟩ := Prod.mk.inj (Option.some.inj h)
      exact ⟨0, l, rfl, rfl⟩
    | none =>
      obtain ⟨m, rest, rfl, rfl⟩ := ih h
      exact ⟨m + 1, rest, rfl, by omega⟩

theorem scanFrom_eq_none {l : List (Option (K × V))} {i : Nat} (h : scanFrom l i = none) :
    l.reduceOption = [] := by
  induction l generalizing i with
  | nil => rfl
  | cons head l ih =>
    cases head with
    | some e => exact nomatch h
    | none => exact ih h

theorem scan_le {l : List (Option (K × V))} {i j : Nat} {entry : K × V}
    (h : scan l i = some (entry, j)) : j ≤ l.length := by
  obtain ⟨m, rest, hdrop, rfl⟩ := scanFrom_eq_some h
  have hlength := congrArg List.length hdrop
  simp only [List.length_drop, List.length_append, List.length_replicate,
    List.length_cons] at hlength
  omega

theorem scan_end {l : List (Option (K × V))} {i : Nat} (h : l.length ≤ i) : scan l i = none := by
  rw [scan, List.drop_eq_nil_of_le h]
  rfl

/-! ### Maps -/

variable [BEq K] [EquivBEq K]

/-- The index gives for every key the slot its entry is in. -/
def Indexed (slots : List (Option (K × V))) (index : K → Option Nat) : Prop :=
  ∀ k i, index k = some i ↔ ∃ e, slots[i]? = some (some e) ∧ (e.1 == k) = true

namespace Indexed

variable {slots : List (Option (K × V))} {index : K → Option Nat} {key : K} {i : Nat}

omit [EquivBEq K] in
/-- A new value leaves the key in its slot. -/
theorem modify (h : Indexed slots index) (i : Nat) (value : V) :
    Indexed (slots.modify i (Option.map fun e => (e.1, value))) index := by
  intro k j
  rw [h, List.getElem?_modify]
  cases slots[j]? with
  | none => simp
  | some entry => by_cases hij : i = j <;> cases entry <;> simp [hij]

theorem append (h : Indexed slots index) (hindex : index key = none) (value : V) :
    Indexed (slots ++ [some (key, value)])
      fun k => if key == k then some slots.length else index k := by
  intro k j
  have hfree (e) (hj : slots[j]? = some (some e)) : (e.1 == key) = false := by
    rw [← Bool.not_eq_true]
    intro he
    have hsome := (h key j).mpr ⟨e, hj, he⟩
    rw [hindex] at hsome
    exact nomatch hsome
  -- an entry of the longer list is an old one or the one appended
  have hsplit (e) : (slots ++ [some (key, value)])[j]? = some (some e) ↔
      slots[j]? = some (some e) ∨ j = slots.length ∧ (key, value) = e := by
    rw [List.getElem?_append]
    split
    · next hlt => exact (or_iff_left fun hend => by omega).symm
    · next hge =>
      have hnone : slots[j]? = none := List.getElem?_eq_none (by omega)
      have hend : j - slots.length = 0 ↔ j = slots.length := by omega
      rw [hnone, List.getElem?_singleton]
      by_cases hj : j = slots.length <;> simp [hend, hj]
  simp only [hsplit]
  cases hk : key == k with
  | true =>
    simp only [if_true, Option.some.injEq]
    constructor
    · rintro rfl
      exact ⟨(key, value), .inr ⟨rfl, rfl⟩, hk⟩
    · rintro ⟨e, hj | ⟨hj, -⟩, he⟩
      · rw [← BEq.congr_right hk, hfree e hj] at he
        exact nomatch he
      · exact hj.symm
  | false =>
    simp only [Bool.false_eq_true, if_false, h k j]
    constructor
    · exact fun ⟨e, hj, he⟩ => ⟨e, .inl hj, he⟩
    · rintro ⟨e, hj | ⟨-, rfl⟩, he⟩
      · exact ⟨e, hj, he⟩
      · rw [hk] at he
        exact nomatch he

theorem erase (h : Indexed slots index) (hindex : index key = some i) :
    Indexed (slots.set i none) fun k => if key == k then none else index k := by
  intro k j
  obtain ⟨e, hi, he⟩ := (h key i).mp hindex
  have hset (e) : (slots.set i none)[j]? = some (some e) ↔ i ≠ j ∧ slots[j]? = some (some e) := by
    rw [List.getElem?_set]
    split
    · next hij => split <;> simp [hij]
    · next hij => simp [hij]
  simp only [hset]
  cases hk : key == k with
  | true =>
    simp only [if_true, reduceCtorEq, false_iff]
    rintro ⟨e', ⟨hij, hj⟩, he'⟩
    have hsame := (h key j).mpr ⟨e', hj, BEq.trans he' (BEq.symm hk)⟩
    exact hij (Option.some.inj (hindex.symm.trans hsame))
  | false =>
    simp only [Bool.false_eq_true, if_false, h k j]
    refine exists_congr fun e' => and_congr_left fun he' => (and_iff_right_of_imp ?_).symm
    rintro hj rfl
    obtain rfl : e = e' := Option.some.inj (Option.some.inj (hi.symm.trans hj))
    rw [BEq.congr_left (BEq.symm he), he'] at hk
    exact nomatch hk

end Indexed

/-- The slots of a map, in the order of insertion. -/
structure MapInner (K V : Type) [BEq K] where
  slots : List (Option (K × V))
  index : K → Option Nat
  indexed : Indexed slots index

namespace MapInner

variable {t : MapInner K V} {key : K}

def new : MapInner K V := ⟨[], fun _ => none, fun _ _ => by simp⟩

/-- Writes the value in the slot of the key, or appends a slot. -/
def insert (t : MapInner K V) (key : K) (value : V) : MapInner K V :=
  match h : t.index key with
  | some i =>
    ⟨t.slots.modify i (Option.map fun e => (e.1, value)), t.index, t.indexed.modify i value⟩
  | none => ⟨t.slots ++ [some (key, value)],
      fun k => if key == k then some t.slots.length else t.index k, t.indexed.append h value⟩

/-- Empties the slot of the key. -/
def remove (t : MapInner K V) (key : K) : MapInner K V :=
  match h : t.index key with
  | none => t
  | some i => ⟨t.slots.set i none, fun k => if key == k then none else t.index k, t.indexed.erase h⟩

def clear (_ : MapInner K V) : MapInner K V := new

omit [EquivBEq K] in
theorem holds_iff {entry : Option (K × V)} :
    holds key entry = true ↔ ∃ e, entry = some e ∧ (e.1 == key) = true := by
  cases entry <;> simp [holds]

omit [EquivBEq K] in
/-- The entries with a key are the one the index knows. -/
theorem mapHolding_slots (t : MapInner K V) (key : K) (f : Option (K × V) → Option (K × V)) :
    mapHolding key f t.slots = match t.index key with
      | some i => t.slots.modify i f
      | none => t.slots := by
  refine List.ext_getElem? fun j => ?_
  rw [mapHolding, List.getElem?_map]
  have hholds : (∃ entry, t.slots[j]? = some entry ∧ holds key entry = true) ↔
      t.index key = some j := by
    rw [t.indexed]
    simp only [holds_iff]
    constructor
    · rintro ⟨_, hslot, e, rfl, he⟩
      exact ⟨e, hslot, he⟩
    · rintro ⟨e, hslot, he⟩
      exact ⟨_, hslot, e, rfl, he⟩
  cases hslot : t.slots[j]? with
  | none =>
    split
    · rw [List.getElem?_modify, hslot]
      simp
    · exact hslot.symm
  | some entry =>
    simp only [hslot, Option.some.injEq, exists_eq_left'] at hholds
    rw [Option.map_some]
    cases hindex : t.index key with
    | none =>
      rw [if_neg (by rw [hholds, hindex]; simp)]
      exact hslot.symm
    | some i =>
      rw [hindex, Option.some.injEq] at hholds
      simp only [List.getElem?_modify, hslot, Option.map_some, Option.map_eq_map]
      by_cases hij : i = j
      · rw [if_pos (hholds.mpr hij), if_pos hij]
      · rw [if_neg fun h => hij (hholds.mp h), if_neg hij]

omit [EquivBEq K] in
theorem any_holds (t : MapInner K V) (key : K) :
    t.slots.any (holds key) = (t.index key).isSome := by
  rw [Bool.eq_iff_iff, List.any_eq_true, Option.isSome_iff_exists]
  simp only [fun i => t.indexed key i, holds_iff]
  constructor
  · rintro ⟨_, hmem, e, rfl, he⟩
    obtain ⟨i, hi⟩ := List.mem_iff_getElem?.mp hmem
    exact ⟨i, e, hi, he⟩
  · rintro ⟨i, e, hi, he⟩
    exact ⟨some e, List.mem_of_getElem? hi, e, rfl, he⟩

theorem slots_insert (t : MapInner K V) (key : K) (value : V) :
    (t.insert key value).slots = Live.set t.slots key value := by
  rw [Live.set, any_holds, mapHolding_slots]
  unfold insert
  split <;> next h => simp [h]

theorem slots_remove (t : MapInner K V) (key : K) :
    (t.remove key).slots = Live.delete t.slots key := by
  rw [Live.delete, mapHolding_slots]
  unfold remove
  split <;> next h => simp [h, List.set_eq_modify]

end MapInner

/-- The steps of a map, whose iterators look for the first slot that is not
empty. -/
def mapStore : Store (MapInner K V) K V where
  set := MapInner.insert
  delete := MapInner.remove
  clear := MapInner.clear
  next t := scan t.slots

/-! ### Maps follow the live list -/

/-- What was in the list when the map was last cleared is empty. -/
def MapInner.Tail (t : MapInner K V) (es : List (Option (K × V))) : Prop :=
  ∃ n, es = List.replicate n none ++ t.slots

omit [EquivBEq K] in
theorem mapHolding_replicate (key : K) (f : Option (K × V) → Option (K × V)) (n : Nat)
    (l : List (Option (K × V))) :
    mapHolding key f (List.replicate n none ++ l) =
      List.replicate n none ++ mapHolding key f l := by
  simp [mapHolding, holds]

omit [EquivBEq K] in
theorem Live.set_replicate (n : Nat) (l : List (Option (K × V))) (key : K) (value : V) :
    Live.set (List.replicate n none ++ l) key value =
      List.replicate n none ++ Live.set l key value := by
  have hany : (List.replicate n none ++ l).any (holds key) = l.any (holds key) := by
    simp [holds]
  rw [Live.set, hany, mapHolding_replicate, Live.set, List.append_assoc]
  split <;> rfl

/-- How far the list has grown before the slots it has now. -/
def MapInner.offset (t : MapInner K V) (es : List (Option (K × V))) : Nat :=
  es.length - t.slots.length

omit [EquivBEq K] in
theorem MapInner.offset_eq (t : MapInner K V) (n : Nat) :
    t.offset (List.replicate n none ++ t.slots) = n := by
  simp [offset]

omit [EquivBEq K] in
theorem length_set (l : List (Option (K × V))) (key : K) (value : V) :
    l.length ≤ (Live.set l key value).length ∧ (Live.set l key value).length ≤ l.length + 1 := by
  unfold Live.set mapHolding
  split <;> simp

/-- Clearing is safe while every cursor is at the beginning. -/
def mapFollows : Follows (mapStore (K := K) (V := V)) where
  size t := t.slots.length
  rel := MapInner.Tail
  marks t es c p := p ≤ es.length ∧ c = p - t.offset es
  steady _ event c := match event with
    | .clear => c = 0
    | _ => True
  marks_zero _ := ⟨Nat.zero_le _, (Nat.zero_sub _).symm⟩
  marks_le := by
    rintro t _ c p ⟨n, rfl⟩ ⟨hp, rfl⟩
    rw [t.offset_eq]
    simp only [List.length_append, List.length_replicate] at hp
    omega
  set_rel := by
    rintro t _ key value ⟨n, rfl⟩
    exact ⟨n, by rw [Live.set_replicate]; exact congrArg _ (t.slots_insert key value).symm⟩
  set_marks := by
    rintro t _ c p key value ⟨n, rfl⟩ ⟨hp, rfl⟩
    refine ⟨hp.trans (length_set _ key value).1, ?_⟩
    rw [Live.set_replicate, t.offset_eq, ← t.slots_insert]
    exact congrArg _ (MapInner.offset_eq (t.insert key value) n).symm
  set_size key value := by
    show (MapInner.insert _ key value).slots.length ≤ _
    rw [MapInner.slots_insert]
    exact (length_set _ key value).2
  delete_rel := by
    rintro t _ key ⟨n, rfl⟩
    exact ⟨n, by rw [Live.delete, mapHolding_replicate]; exact congrArg _ (t.slots_remove key).symm⟩
  delete_marks := by
    rintro t _ c p key ⟨n, rfl⟩ ⟨hp, rfl⟩ -
    refine ⟨by simpa [Live.delete, mapHolding] using hp, ?_⟩
    rw [Live.delete, mapHolding_replicate, t.offset_eq, ← Live.delete, ← t.slots_remove]
    exact congrArg _ (MapInner.offset_eq (t.remove key) n).symm
  delete_size key := by
    show (MapInner.remove _ key).slots.length ≤ _
    rw [MapInner.slots_remove]
    simp [Live.delete, mapHolding]
  clear_rel := by
    intro t es _
    exact ⟨es.length, by simp [Live.clear, mapStore, MapInner.clear, MapInner.new]⟩
  clear_marks := by
    rintro t es c p - ⟨hp, -⟩ hc
    obtain rfl : c = 0 := hc
    refine ⟨by simpa [Live.clear] using hp, ?_⟩
    simp only [MapInner.offset, Live.clear, mapStore, MapInner.clear, MapInner.new, List.length_map,
      List.length_nil]
    omega
  clear_size := Nat.zero_le _
  next_none := by
    rintro t _ c p ⟨n, rfl⟩ ⟨-, rfl⟩ hscan
    rw [scan_replicate_append, Option.map_eq_none_iff] at hscan
    rw [t.offset_eq]
    exact hscan
  next_some := by
    rintro t _ c p e p' ⟨n, rfl⟩ ⟨-, rfl⟩ hscan
    have hle := scan_le hscan
    rw [scan_replicate_append, Option.map_eq_some_iff] at hscan
    obtain ⟨⟨e', c'⟩, hscan, heq⟩ := hscan
    obtain ⟨rfl, rfl⟩ := Prod.mk.inj heq
    rw [t.offset_eq]
    exact ⟨c', hscan, hle, by omega⟩
  next_end h := scan_end h

/-! ### Sets -/

/-- The steps of a set, whose iterators read the element at their index. An
element has no value. -/
def setStore : Store (IndexSet K) K Unit where
  set s key _ := s.insert key
  delete := IndexSet.shiftRemove
  clear _ := .empty
  next s i := s.items[i]?.map fun key => ((key, ()), i + 1)

section

variable {s : IndexSet K} {es : List (Option (K × Unit))} {key : K}

/-- The entries of the list that are left are the elements. -/
def Elements (s : IndexSet K) (es : List (Option (K × Unit))) : Prop :=
  es.reduceOption = s.items.map fun k => (k, ())

theorem Elements.any_holds (h : Elements s es) (key : K) :
    es.any (holds key) = s.contains key := by
  rw [Bool.eq_iff_iff, List.any_eq_true, IndexSet.contains_iff]
  simp only [MapInner.holds_iff]
  constructor
  · rintro ⟨_, hmem, e, rfl, he⟩
    have helement : e ∈ es.reduceOption := List.reduceOption_mem_iff.mpr hmem
    rw [h, List.mem_map] at helement
    obtain ⟨k, hk, rfl⟩ := helement
    exact ⟨k, hk, BEq.symm he⟩
  · rintro ⟨k, hk, hkey⟩
    have helement : (k, ()) ∈ es.reduceOption := by
      rw [h]
      exact List.mem_map_of_mem hk
    exact ⟨_, List.reduceOption_mem_iff.mp helement, _, rfl, BEq.symm hkey⟩

theorem Elements.set (h : Elements s es) (key : K) :
    Live.set es key () = if s.contains key = true then es else es ++ [some (key, ())] := by
  rw [Live.set, h.any_holds]
  split
  · refine (List.map_congr_left fun entry _ => ?_).trans (List.map_id es)
    split
    · cases entry <;> rfl
    · rfl
  · rfl

theorem reduceOption_delete (l : List (Option (K × Unit))) (key : K) :
    (Live.delete l key).reduceOption = l.reduceOption.filter fun e => !(key == e.1) := by
  induction l with
  | nil => rfl
  | cons entry l ih =>
    cases entry with
    | none => exact ih
    | some e =>
      rw [List.reduceOption_cons_of_some, List.filter_cons, BEq.comm, ← ih]
      cases he : e.1 == key <;> simp [Live.delete, mapHolding, holds, he]

omit [BEq K] [EquivBEq K] in
/-- The elements before a position are the first ones. -/
theorem reduceOption_take (es : List (Option (K × Unit))) (p : Nat) :
    (es.take p).reduceOption = es.reduceOption.take (es.take p).reduceOption.length := by
  have hsplit : es.reduceOption = (es.take p).reduceOption ++ (es.drop p).reduceOption := by
    rw [← List.reduceOption_append, List.take_append_drop]
  rw [hsplit, List.take_left]

omit [BEq K] [EquivBEq K] in
theorem scan_reduceOption {p : Nat} (hp : p ≤ es.length) :
    match scan es p with
    | none => es.reduceOption[(es.take p).reduceOption.length]? = none
    | some (e, p') => es.reduceOption[(es.take p).reduceOption.length]? = some e ∧
        (es.take p').reduceOption.length = (es.take p).reduceOption.length + 1 := by
  have hsplit : es = es.take p ++ es.drop p := (List.take_append_drop p es).symm
  cases hscan : scan es p with
  | none =>
    have hrest := scanFrom_eq_none hscan
    have hall : es.reduceOption = (es.take p).reduceOption := by
      conv_lhs => rw [hsplit, List.reduceOption_append, hrest, List.append_nil]
    rw [hall, List.getElem?_eq_none_iff]
  | some found =>
    obtain ⟨m, rest, hdrop, hp'⟩ := scanFrom_eq_some hscan
    rw [hdrop] at hsplit
    have hempty : (List.replicate m none : List (Option (K × Unit))).reduceOption = [] :=
      List.reduceOption_replicate_none
    have hlength : (es.take p).length = p := List.length_take_of_le hp
    generalize es.take p = before at hsplit hlength
    subst hsplit
    -- the list up to the entry that was found
    have htake : (before ++ (List.replicate m none ++ some found.1 :: rest)).take found.2 =
        before ++ List.replicate m none ++ [some found.1] := by
      rw [← List.append_assoc, List.append_cons]
      exact List.take_left' (by simp [hlength, hp', Nat.add_assoc])
    simp [htake, List.reduceOption_append, hempty, List.reduceOption_cons_of_some]

theorem elements_insert (h : Elements s es) (key : K) :
    Elements (s.insert key) (Live.set es key ()) := by
  rw [Elements, h.set, IndexSet.items_insert]
  split
  · exact h
  · rw [List.reduceOption_append, h, List.map_append]
    rfl

theorem elements_shiftRemove (h : Elements s es) (key : K) :
    Elements (s.shiftRemove key) (Live.delete es key) := by
  rw [Elements, reduceOption_delete, h, IndexSet.items_shiftRemove, List.filter_map]
  rfl

/-- Nothing before the position is deleted. -/
theorem reduceOption_take_delete (h : Elements s es) {key : K} {p : Nat}
    (hafter : ∀ j k, s.items[j]? = some k → (key == k) = true →
      (es.take p).reduceOption.length ≤ j) :
    ((Live.delete es key).take p).reduceOption = (es.take p).reduceOption := by
  have htake : (Live.delete es key).take p = Live.delete (es.take p) key := by
    simp [Live.delete, mapHolding, List.map_take]
  rw [htake, reduceOption_delete, List.filter_eq_self]
  intro e he
  rw [reduceOption_take, h, List.mem_take_iff_getElem] at he
  obtain ⟨j, hj, rfl⟩ := he
  rw [Bool.not_eq_true', ← Bool.not_eq_true]
  intro hkey
  rw [List.getElem_map] at hkey
  have hle := hafter j _ (List.getElem?_eq_getElem _) hkey
  omega

end

/-- Deleting is safe at and behind the cursors, clearing while every cursor
is at the beginning. -/
def setFollows : Follows (setStore (K := K)) where
  size s := s.items.length
  rel := Elements
  marks _ es c p := p ≤ es.length ∧ c = (es.take p).reduceOption.length
  steady s event c := match event with
    | .clear => c = 0
    | .delete key => ∀ j k, s.items[j]? = some k → (key == k) = true → c ≤ j
    | _ => True
  marks_zero _ := ⟨Nat.zero_le _, rfl⟩
  marks_le := by
    rintro s es c p hrel ⟨-, rfl⟩
    have hlength := congrArg List.length (reduceOption_take es p)
    rw [hrel, List.length_take, List.length_map] at hlength
    omega
  set_rel key _ h := elements_insert h key
  set_marks := by
    rintro s es c p key ⟨⟩ hrel ⟨hp, rfl⟩
    refine ⟨hp.trans (length_set es key ()).1, ?_⟩
    rw [hrel.set]
    split
    · rfl
    · rw [List.take_append_of_le_length hp]
  set_size key _ := by
    show (IndexSet.insert _ key).items.length ≤ _
    rw [IndexSet.items_insert]
    split <;> simp
  delete_rel key h := elements_shiftRemove h key
  delete_marks := by
    rintro s es c p key hrel ⟨hp, rfl⟩ hafter
    refine ⟨by simpa [Live.delete, mapHolding] using hp, ?_⟩
    rw [reduceOption_take_delete hrel hafter]
  delete_size _ := List.eraseP_sublist.length_le
  clear_rel := by
    intro s es _
    show (Live.clear es).reduceOption = []
    simp [Live.clear, List.map_const', List.reduceOption_replicate_none]
  clear_marks := by
    rintro s es c p - ⟨hp, -⟩ hc
    obtain rfl : c = 0 := hc
    refine ⟨by simpa [Live.clear] using hp, ?_⟩
    simp [Live.clear, List.map_const', List.reduceOption_replicate_none]
  clear_size := Nat.zero_le _
  next_none := by
    rintro s es c p hrel ⟨hp, rfl⟩ hscan
    have hread := scan_reduceOption hp
    rw [hscan, hrel] at hread
    simpa [setStore] using hread
  next_some := by
    rintro s es c p e p' hrel ⟨hp, rfl⟩ hscan
    have hread := scan_reduceOption hp
    rw [hscan, hrel] at hread
    obtain ⟨hentry, hcount⟩ := hread
    rw [List.getElem?_map, Option.map_eq_some_iff] at hentry
    obtain ⟨k, hk, rfl⟩ := hentry
    refine ⟨_, ?_, scan_le hscan, hcount.symm⟩
    simp [setStore, hk]
  next_end h := by simp [setStore, h]

end

/-! ### Live iteration -/

/-- The maps and sets of the machine. -/
abbrev machineMap : Follows (mapStore (K := SetKey) (V := JsValue)) := mapFollows

abbrev machineSet : Follows (setStore (K := SetKey)) := setFollows

/-- Every iterator and loop visits what it visits on the live list, in a run
in which no element before a live cursor of a set is deleted and nothing is
cleared under a live cursor that has moved. -/
theorem visits_eq_live (mapEvents : List (Event SetKey JsValue))
    (setEvents : List (Event SetKey Unit))
    (hmap :
      Lib.Runs.Along (Iteration.step mapStore) machineMap.Undisturbed ⟨.new, [], []⟩ mapEvents)
    (hset : Lib.Runs.Along (Iteration.step setStore) machineSet.Undisturbed ⟨.empty, [], []⟩
      setEvents) :
    (Lib.Runs.run (Iteration.step mapStore) ⟨.new, [], []⟩ mapEvents).visits =
        (Lib.Runs.run Live.step ⟨[], [], []⟩ mapEvents).visits ∧
      (Lib.Runs.run (Iteration.step setStore) ⟨.empty, [], []⟩ setEvents).visits =
        (Lib.Runs.run Live.step ⟨[], [], []⟩ setEvents).visits := by
  have hempty : Elements (IndexSet.empty : IndexSet SetKey) [] := rfl
  exact ⟨Follows.visits_eq (F := machineMap) ⟨0, rfl⟩ (by decide) hmap,
    Follows.visits_eq (F := machineSet) hempty (by decide) hset⟩

/-- An entry that was visited is deleted from a map, and an element from a
set before it is visited. -/
theorem visits_eq_live_deleting :
    let mapEvents : List (Event SetKey JsValue) :=
      [.set ⟨.int 1⟩ .null, .iterate, .step 0, .delete ⟨.int 1⟩, .step 0]
    let setEvents : List (Event SetKey Unit) := [.set ⟨.int 1⟩ (), .loop, .delete ⟨.int 1⟩, .step 0]
    (Lib.Runs.run (Iteration.step mapStore) ⟨.new, [], []⟩ mapEvents).visits =
        (Lib.Runs.run Live.step ⟨[], [], []⟩ mapEvents).visits ∧
      (Lib.Runs.run (Iteration.step setStore) ⟨.empty, [], []⟩ setEvents).visits =
        (Lib.Runs.run Live.step ⟨[], [], []⟩ setEvents).visits := by
  intro mapEvents setEvents
  refine visits_eq_live mapEvents setEvents ?_ ?_
  · exact ⟨⟨fun _ _ _ _ => trivial, fun _ _ _ => by decide⟩, ⟨fun _ _ _ _ => trivial, nofun⟩,
      ⟨fun _ _ _ _ => trivial, nofun⟩, ⟨fun _ _ _ _ => trivial, nofun⟩,
      ⟨fun _ _ _ _ => trivial, nofun⟩, trivial⟩
  · refine ⟨⟨fun _ _ _ _ => trivial, fun _ _ _ => by decide⟩, ⟨fun _ _ _ _ => trivial, nofun⟩,
      ⟨?_, nofun⟩, ⟨fun _ _ _ _ => trivial, nofun⟩, trivial⟩
    intro cursor hcursor index hindex j k _ _
    obtain rfl := List.mem_singleton.mp hcursor
    obtain rfl : 0 = index := Option.some.inj hindex
    exact Nat.zero_le j

/-- An element that was visited is deleted from a set, and a map is cleared
and filled again: both iterations miss what comes then. -/
theorem visits_lose_place :
    let setEvents : List (Event SetKey Unit) :=
      [.set ⟨.int 1⟩ (), .set ⟨.int 2⟩ (), .loop, .step 0, .delete ⟨.int 1⟩, .step 0]
    let mapEvents : List (Event SetKey JsValue) :=
      [.set ⟨.int 1⟩ .null, .iterate, .step 0, .clear, .set ⟨.int 2⟩ .null, .step 0]
    (Lib.Runs.run (Iteration.step setStore) ⟨.empty, [], []⟩ setEvents).visits =
        [(0, some (⟨.int 1⟩, ())), (0, none)] ∧
      (Lib.Runs.run Live.step ⟨[], [], []⟩ setEvents).visits =
        [(0, some (⟨.int 1⟩, ())), (0, some (⟨.int 2⟩, ()))] ∧
      (Lib.Runs.run (Iteration.step mapStore) ⟨.new, [], []⟩ mapEvents).visits =
        [(0, some (⟨.int 1⟩, .null)), (0, none)] ∧
      (Lib.Runs.run Live.step ⟨[], [], []⟩ mapEvents).visits =
        [(0, some (⟨.int 1⟩, .null)), (0, some (⟨.int 2⟩, .null))] :=
  ⟨rfl, rfl, rfl, rfl⟩

end OxideJS.Collections
