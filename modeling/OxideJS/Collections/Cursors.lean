import OxideJS.Lib.Runs
import Mathlib.Algebra.Group.Nat.Defs
import Mathlib.Data.List.Forall2
import Mathlib.Data.Nat.Basic
import Mathlib.Order.Basic

/-!
Iterators and loops over a table that changes under them.

A table is given by what `set`, `delete` and `clear` do to it and by what
is found from a cursor on. What iteration should visit is said by the live
list: it only grows, deleting and clearing empty its entries, and an
iterator is a position in it. A table is good for iteration if its cursors
follow these positions.
-/

namespace OxideJS.Collections

/-- What can happen: a change of the table, a new iterator, a new loop
(`forEach` or `for`-`of`), or a step of the `i`-th of them. -/
inductive Event (K V : Type) where
  | set (key : K) (value : V)
  | delete (key : K)
  | clear
  | iterate
  | loop
  | step (i : Nat)

section

variable {T K V : Type}

/-! ### Cursors -/

structure Store (T K V : Type) where
  set : T → K → V → T
  delete : T → K → T
  clear : T → T
  /-- The entry found from the cursor on, and the cursor behind it. -/
  next : T → Nat → Option ((K × V) × Nat)

/-- An iterator object keeps its cursor in a property, a loop in a variable
until it ends. -/
inductive Cursor where
  | iterator (index : Nat)
  | loop (index : Nat)
  | finished
  deriving DecidableEq

/-- The cursor of an exhausted iterator. -/
def sentinel : Nat := 2 ^ 31 - 1

/-- The property holds a signed number, and a negative one is read as
zero. -/
def storedIndex (index : Nat) : Nat :=
  if index % 2 ^ 32 < 2 ^ 31 then index % 2 ^ 32 else 0

def Cursor.advance (next : Nat → Option ((K × V) × Nat)) : Cursor → Option (K × V) × Cursor
  | .iterator index =>
    match next index with
    | some (entry, index) => (some entry, .iterator (storedIndex index))
    | none => (none, .iterator (storedIndex sentinel))
  | .loop index =>
    match next index with
    | some (entry, index) => (some entry, .loop index)
    | none => (none, .finished)
  | .finished => (none, .finished)

/-- A table, what iterates over it, and what has been visited so far, by
whom; `none` is the answer that there is nothing more. -/
structure Iteration (T K V : Type) where
  table : T
  cursors : List Cursor := []
  visits : List (Nat × Option (K × V)) := []

def Iteration.step (S : Store T K V) (s : Iteration T K V) : Event K V → Iteration T K V
  | .set key value => { s with table := S.set s.table key value }
  | .delete key => { s with table := S.delete s.table key }
  | .clear => { s with table := S.clear s.table }
  | .iterate => { s with cursors := s.cursors ++ [.iterator 0] }
  | .loop => { s with cursors := s.cursors ++ [.loop 0] }
  | .step i =>
    match s.cursors[i]? with
    | none => s
    | some cursor =>
      let (entry, cursor) := cursor.advance (S.next s.table)
      { s with cursors := s.cursors.set i cursor, visits := s.visits ++ [(i, entry)] }

/-! ### The live list -/

/-- The first entry that is not empty, and the position behind it. -/
def scanFrom : List (Option (K × V)) → Nat → Option ((K × V) × Nat)
  | [], _ => none
  | some entry :: _, i => some (entry, i + 1)
  | none :: entries, i => scanFrom entries (i + 1)

def scan (entries : List (Option (K × V))) (i : Nat) : Option ((K × V) × Nat) :=
  scanFrom (entries.drop i) i

variable [BEq K]

/-- The entry is there and has the key. -/
def holds (key : K) (entry : Option (K × V)) : Bool := entry.any (·.1 == key)

/-- Applies `f` to the entries with the key. -/
def mapHolding (key : K) (f : Option (K × V) → Option (K × V)) (entries : List (Option (K × V))) :
    List (Option (K × V)) :=
  entries.map fun entry => if holds key entry then f entry else entry

/-- The positions of exhausted iterators are `none`. -/
structure Live (K V : Type) where
  entries : List (Option (K × V)) := []
  positions : List (Option Nat) := []
  visits : List (Nat × Option (K × V)) := []

namespace Live

def set (entries : List (Option (K × V))) (key : K) (value : V) : List (Option (K × V)) :=
  if entries.any (holds key) then mapHolding key (Option.map fun e => (e.1, value)) entries
  else entries ++ [some (key, value)]

def delete (entries : List (Option (K × V))) (key : K) : List (Option (K × V)) :=
  mapHolding key (fun _ => none) entries

def clear (entries : List (Option (K × V))) : List (Option (K × V)) :=
  entries.map fun _ => none

def advance (entries : List (Option (K × V))) : Option Nat → Option (K × V) × Option Nat
  | none => (none, none)
  | some position =>
    match scan entries position with
    | some (entry, position) => (some entry, some position)
    | none => (none, none)

def step (s : Live K V) : Event K V → Live K V
  | .set key value => { s with entries := set s.entries key value }
  | .delete key => { s with entries := delete s.entries key }
  | .clear => { s with entries := clear s.entries }
  | .iterate => { s with positions := s.positions ++ [some 0] }
  | .loop => { s with positions := s.positions ++ [some 0] }
  | .step i =>
    match s.positions[i]? with
    | none => s
    | some position =>
      let (entry, position) := advance s.entries position
      { s with positions := s.positions.set i position, visits := s.visits ++ [(i, entry)] }

end Live

/-! ### Tables that follow the live list -/

/-- The index of a cursor that can still find something. -/
def Cursor.live : Cursor → Option Nat
  | .iterator index => if index = sentinel then none else some index
  | .loop index => some index
  | .finished => none

/-- How a table and the cursors on it stand for the live list and the
positions in it, and what an event has to respect to keep that: `steady`
is asked for every live cursor. -/
structure Follows (S : Store T K V) where
  size : T → Nat
  rel : T → List (Option (K × V)) → Prop
  marks : T → List (Option (K × V)) → Nat → Nat → Prop
  steady : T → Event K V → Nat → Prop
  marks_zero : ∀ {t es}, rel t es → marks t es 0 0
  marks_le : ∀ {t es c p}, rel t es → marks t es c p → c ≤ size t
  set_rel : ∀ {t es} k v, rel t es → rel (S.set t k v) (Live.set es k v)
  set_marks : ∀ {t es c p} k v, rel t es → marks t es c p →
    marks (S.set t k v) (Live.set es k v) c p
  set_size : ∀ {t} k v, size (S.set t k v) ≤ size t + 1
  delete_rel : ∀ {t es} k, rel t es → rel (S.delete t k) (Live.delete es k)
  delete_marks : ∀ {t es c p} k, rel t es → marks t es c p → steady t (.delete k) c →
    marks (S.delete t k) (Live.delete es k) c p
  delete_size : ∀ {t} k, size (S.delete t k) ≤ size t
  clear_rel : ∀ {t es}, rel t es → rel (S.clear t) (Live.clear es)
  clear_marks : ∀ {t es c p}, rel t es → marks t es c p → steady t .clear c →
    marks (S.clear t) (Live.clear es) c p
  clear_size : ∀ {t}, size (S.clear t) ≤ size t
  next_none : ∀ {t es c p}, rel t es → marks t es c p → scan es p = none → S.next t c = none
  next_some : ∀ {t es c p e p'}, rel t es → marks t es c p → scan es p = some (e, p') →
    ∃ c', S.next t c = some (e, c') ∧ marks t es c' p'
  next_end : ∀ {t c}, size t ≤ c → S.next t c = none

namespace Follows

variable {S : Store T K V} (F : Follows S)

/-- A step that leaves the cursors that are live where they are in the
list, and the table small enough for the sentinel. -/
def Undisturbed (s : Iteration T K V) (event : Event K V) : Prop :=
  (∀ cursor ∈ s.cursors, ∀ index ∈ cursor.live, F.steady s.table event index) ∧
    ∀ key value, event = .set key value → F.size s.table + 1 < sentinel

def CursorAt (t : T) (es : List (Option (K × V))) : Cursor → Option Nat → Prop
  | .iterator c, some p => F.marks t es c p
  | .iterator c, none => c = sentinel
  | .loop c, some p => F.marks t es c p
  | .finished, none => True
  | _, _ => False

/-- Both have visited the same, and go on alike. -/
structure Sim (s : Iteration T K V) (a : Live K V) : Prop where
  small : F.size s.table < sentinel
  rel : F.rel s.table a.entries
  cursors : List.Forall₂ (F.CursorAt s.table a.entries) s.cursors a.positions
  visits : s.visits = a.visits

variable {F} {s : Iteration T K V} {a : Live K V} {t t' : T} {es es' : List (Option (K × V))}
  {cursor : Cursor} {position : Option Nat}

/-- A change of the table moves no cursor. -/
theorem CursorAt.change (hlive : ∀ c ∈ cursor.live, ∀ p, F.marks t es c p → F.marks t' es' c p)
    (hsmall : F.size t < sentinel) (hrel : F.rel t es) (h : F.CursorAt t es cursor position) :
    F.CursorAt t' es' cursor position := by
  match cursor, position, h with
  | .iterator c, some p, h =>
    have hle := F.marks_le hrel h
    have hc : c ≠ sentinel := by omega
    exact hlive c (by simp [Cursor.live, hc]) p h
  | .iterator c, none, h => exact h
  | .loop c, some p, h => exact hlive c rfl p h
  | .finished, none, _ => trivial

theorem Sim.change (h : F.Sim s a) {t' : T} {es' : List (Option (K × V))}
    (hsmall : F.size t' < sentinel) (hrel : F.rel t' es')
    (hat : ∀ cursor ∈ s.cursors, ∀ c ∈ cursor.live, ∀ p,
      F.marks s.table a.entries c p → F.marks t' es' c p) :
    F.Sim { s with table := t' } { a with entries := es' } := by
  refine ⟨hsmall, hrel, ?_, h.visits⟩
  show List.Forall₂ _ s.cursors a.positions
  have hcursors := h.cursors
  revert hat
  generalize s.cursors = cs at hcursors
  generalize a.positions = ps at hcursors
  induction hcursors with
  | nil => exact fun _ => .nil
  | cons hhead _ ih =>
    intro hat
    exact .cons (hhead.change (hat _ List.mem_cons_self) h.small h.rel)
      (ih fun cursor hcursor => hat cursor (List.mem_cons_of_mem _ hcursor))

theorem Sim.start (h : F.Sim s a) (hcursor : F.CursorAt s.table a.entries cursor (some 0)) :
    F.Sim { s with cursors := s.cursors ++ [cursor] }
      { a with positions := a.positions ++ [some 0] } :=
  ⟨h.small, h.rel, List.rel_append h.cursors (.cons hcursor .nil), h.visits⟩

theorem storedIndex_eq {c : Nat} (h : c ≤ sentinel) : storedIndex c = c := by
  have hlt : c < 2 ^ 31 := by
    have : sentinel = 2 ^ 31 - 1 := rfl
    omega
  unfold storedIndex
  rw [Nat.mod_eq_of_lt (by omega), if_pos hlt]

/-- The iterator and the position find the same entry. -/
theorem CursorAt.advance (hsmall : F.size t < sentinel) (hrel : F.rel t es)
    (h : F.CursorAt t es cursor position) :
    (cursor.advance (S.next t)).1 = (Live.advance es position).1 ∧
      F.CursorAt t es (cursor.advance (S.next t)).2 (Live.advance es position).2 := by
  match cursor, position, h with
  | .iterator c, some p, h =>
    cases hscan : scan es p with
    | none =>
      simp only [Live.advance, Cursor.advance, hscan, F.next_none hrel h hscan]
      exact ⟨trivial, storedIndex_eq le_rfl⟩
    | some found =>
      obtain ⟨c', hnext, hat⟩ := F.next_some hrel h hscan
      simp only [Live.advance, Cursor.advance, hscan, hnext,
        storedIndex_eq ((F.marks_le hrel hat).trans hsmall.le)]
      exact ⟨trivial, hat⟩
  | .iterator c, none, h =>
    obtain rfl : c = sentinel := h
    simp only [Live.advance, Cursor.advance, F.next_end hsmall.le]
    exact ⟨trivial, storedIndex_eq le_rfl⟩
  | .loop c, some p, h =>
    cases hscan : scan es p with
    | none =>
      simp only [Live.advance, Cursor.advance, hscan, F.next_none hrel h hscan]
      exact ⟨trivial, trivial⟩
    | some found =>
      obtain ⟨c', hnext, hat⟩ := F.next_some hrel h hscan
      simp only [Live.advance, Cursor.advance, hscan, hnext]
      exact ⟨trivial, hat⟩
  | .finished, none, _ => exact ⟨rfl, trivial⟩

theorem Sim.advance (h : F.Sim s a) (i : Nat) : F.Sim (s.step S (.step i)) (a.step (.step i)) := by
  unfold Iteration.step Live.step
  have hlength := h.cursors.length_eq
  cases hcursor : s.cursors[i]? with
  | none =>
    have hnone : a.positions[i]? = none := by
      rw [List.getElem?_eq_none_iff] at hcursor ⊢
      omega
    simp only [hcursor, hnone]
    exact h
  | some cursor =>
    obtain ⟨hi, -⟩ := List.getElem?_eq_some_iff.mp hcursor
    have hposition : a.positions[i]? = some a.positions[i] := List.getElem?_eq_getElem (by omega)
    obtain ⟨-, hget⟩ := List.forall₂_iff_get.mp h.cursors
    have hat := hget i hi (hlength ▸ hi)
    obtain rfl : s.cursors[i] = cursor := by
      rw [List.getElem?_eq_getElem hi] at hcursor
      exact Option.some.inj hcursor
    obtain ⟨hentry, hnext⟩ := CursorAt.advance h.small h.rel hat
    simp only [hcursor, hposition]
    refine ⟨h.small, h.rel, ?_, ?_⟩
    · refine List.forall₂_iff_get.mpr ⟨by simpa using hlength, fun j hj hj' => ?_⟩
      by_cases hij : i = j
      · subst hij
        simpa using hnext
      · simpa [hij] using hget j (by simpa using hj) (by simpa using hj')
    · show s.visits ++ _ = a.visits ++ _
      rw [h.visits]
      exact congrArg (fun e => a.visits ++ [(i, e)]) hentry

theorem Sim.step (h : F.Sim s a) (event : Event K V) (hok : F.Undisturbed s event) :
    F.Sim (s.step S event) (a.step event) := by
  obtain ⟨hsteady, hroom⟩ := hok
  cases event with
  | set key value =>
    have hsize := F.set_size (t := s.table) key value
    have hsmall := hroom key value rfl
    exact h.change (by omega) (F.set_rel key value h.rel)
      fun _ _ c _ p hat => F.set_marks key value h.rel hat
  | delete key =>
    exact h.change (lt_of_le_of_lt (F.delete_size key) h.small) (F.delete_rel key h.rel)
      fun cursor hcursor c hc p hat => F.delete_marks key h.rel hat (hsteady cursor hcursor c hc)
  | clear =>
    exact h.change (lt_of_le_of_lt F.clear_size h.small) (F.clear_rel h.rel)
      fun cursor hcursor c hc p hat => F.clear_marks h.rel hat (hsteady cursor hcursor c hc)
  | iterate => exact h.start (F.marks_zero h.rel)
  | loop => exact h.start (F.marks_zero h.rel)
  | step i => exact h.advance i

/-- What both systems have visited after a run none of whose steps disturbs
a cursor. -/
theorem visits_eq {t : T} (hrel : F.rel t []) (hsmall : F.size t < sentinel)
    {events : List (Event K V)}
    (hok : Lib.Runs.Along (Iteration.step S) F.Undisturbed ⟨t, [], []⟩ events) :
    (Lib.Runs.run (Iteration.step S) ⟨t, [], []⟩ events).visits =
      (Lib.Runs.run Live.step ⟨[], [], []⟩ events).visits := by
  have hstart : F.Sim ⟨t, [], []⟩ ⟨[], [], []⟩ := ⟨hsmall, hrel, .nil, rfl⟩
  suffices hsim : ∀ s a, F.Sim s a → Lib.Runs.Along (Iteration.step S) F.Undisturbed s events →
      F.Sim (Lib.Runs.run (Iteration.step S) s events) (Lib.Runs.run Live.step a events) from
    (hsim _ _ hstart hok).visits
  clear hok
  induction events with
  | nil => exact fun s a h _ => h
  | cons event events ih => exact fun s a h hok => ih _ _ (h.step event hok.1) hok.2

end Follows

end

end OxideJS.Collections
