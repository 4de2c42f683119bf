import Mathlib.Algebra.Order.Ring.Nat
import Mathlib.Algebra.Order.Sub.Basic
import OxideJS.Lib.Runs

/-!
The permanent interner, used by several threads.

`intern` reads the candidates of a hash without the lock of the table of
strings, looks them up under its read lock, and on a miss takes the write
lock, looks again and appends. The new id is put into the hash map after
the write lock has been given back: between the two, a thread that asks
for the same string finds it in neither place.
-/

namespace OxideJS.Types.PermInterner

open OxideJS.Lib.Runs

/-- Where a thread stands in `intern`. -/
inductive Pc where
  | idle
  /-- The hash is computed. -/
  | called (s : String)
  /-- The candidates have been read. -/
  | probing (s : String) (candidates : List Nat)
  /-- The fast path has missed; the write lock is wanted. -/
  | waiting (s : String)
  | locked (s : String)
  /-- The second look has missed too. -/
  | missed (s : String)
  /-- The string is in the table, the lock given back, the id not yet in
  the hash map. -/
  | appended (s : String) (id : Nat)

/-- The shared tables, the holder of the write lock, where the threads
stand, and what the calls so far have returned. -/
structure State where
  hashMap : UInt64 → List Nat
  entries : List String
  writer : Option Nat
  threads : Nat → Pc
  returned : List (String × Nat)

def State.new : State :=
  { hashMap := fun _ => [], entries := [], writer := none, threads := fun _ => .idle,
    returned := [] }

namespace State

def goto (σ : State) (t : Nat) (pc : Pc) : State :=
  { σ with threads := Function.update σ.threads t pc }

/-- The call of a thread returns. -/
def finish (σ : State) (t : Nat) (s : String) (id : Nat) : State :=
  { σ.goto t .idle with returned := (s, id) :: σ.returned }

/-- The candidate that is the string. -/
def search (σ : State) (candidates : List Nat) (s : String) : Option Nat :=
  candidates.find? fun id => σ.entries[id]? == some s

def lookup (σ : State) (id : Nat) : Option String :=
  σ.entries[id]?

end State

/-- The ids are 32 bits wide. -/
def idLimit : Nat := 2 ^ 32

section

variable (hash64 : String → UInt64)

/-- The next step of a thread that is in `intern`; one that has to wait
for the lock stays where it is. -/
def advance (σ : State) (t : Nat) : State :=
  match σ.threads t with
  | .idle => σ
  | .called s => σ.goto t (.probing s (σ.hashMap (hash64 s)))
  | .probing s candidates =>
    if σ.writer.isSome then σ
    else
      match σ.search candidates s with
      | some id => σ.finish t s id
      | none => σ.goto t (.waiting s)
  | .waiting s => if σ.writer.isSome then σ else { σ.goto t (.locked s) with writer := some t }
  | .locked s =>
    match σ.search (σ.hashMap (hash64 s)) s with
    | some id => { σ.finish t s id with writer := none }
    | none => σ.goto t (.missed s)
  | .missed s =>
    { σ.goto t (.appended s (σ.entries.length % idLimit)) with
      entries := σ.entries ++ [s], writer := none }
  | .appended s id =>
    { σ.finish t s id with
      hashMap := Function.update σ.hashMap (hash64 s) (σ.hashMap (hash64 s) ++ [id]) }

/-- A thread calls `intern`, or the scheduler lets one go on. -/
inductive Event where
  | call (t : Nat) (s : String)
  | advance (t : Nat)

def step (σ : State) : Event → State
  | .call t s =>
    match σ.threads t with
    | .idle => σ.goto t (.called s)
    | _ => σ
  | .advance t => advance hash64 σ t

end

/-- No other thread is between its append of a string and its entry in
the hash map when a thread takes its second look for the string, and the
new id fits. -/
def Unhurried (σ : State) : Event → Prop
  | .call _ _ => True
  | .advance t =>
    match σ.threads t with
    | .locked s => ∀ u id, σ.threads u ≠ .appended s id
    | .missed _ => σ.entries.length < idLimit
    | _ => True

/-! ### The invariant -/

/-- What a thread may rely on. -/
def Pc.Sound (hash64 : String → UInt64) (σ : State) (t : Nat) : Pc → Prop
  | .probing s candidates => ∀ id ∈ candidates, id ∈ σ.hashMap (hash64 s)
  | .locked _ => σ.writer = some t
  | .missed s => σ.writer = some t ∧ s ∉ σ.entries
  | .appended s id => σ.entries[id]? = some s
  | _ => True

structure Inv (hash64 : String → UInt64) (σ : State) : Prop where
  nodup : σ.entries.Nodup
  /-- A string of the table is in the hash map or about to be. -/
  known : ∀ id s, σ.entries[id]? = some s →
    id ∈ σ.hashMap (hash64 s) ∨ ∃ t, σ.threads t = .appended s id
  threads : ∀ t, (σ.threads t).Sound hash64 σ t
  returned : ∀ s id, (s, id) ∈ σ.returned → σ.entries[id]? = some s

variable {hash64 : String → UInt64} {σ : State}

theorem inv_new : Inv hash64 State.new :=
  ⟨List.nodup_nil, fun _ _ h => by simp [State.new] at h, fun _ => trivial,
    fun _ _ h => by simp [State.new] at h⟩

theorem search_some {candidates : List Nat} {s : String} {id : Nat}
    (h : σ.search candidates s = some id) : σ.entries[id]? = some s := by
  simpa using List.find?_some h

theorem search_none {candidates : List Nat} {s : String} {id : Nat}
    (h : σ.search candidates s = none) (hid : id ∈ candidates) : σ.entries[id]? ≠ some s := by
  simpa using List.find?_eq_none.1 h id hid

/-- A thread stays sound while the tables grow, the strings others look
for are not among the new ones, and no one takes the lock from it. -/
theorem Pc.Sound.mono {σ' : State} {u : Nat} {pc : Pc} (h : pc.Sound hash64 σ u)
    (hmap : ∀ x, σ.hashMap x ⊆ σ'.hashMap x)
    (hentries : ∀ (id : Nat) s, σ.entries[id]? = some s → σ'.entries[id]? = some s)
    (hwriter : σ.writer = some u → σ'.writer = some u ∧ σ'.entries = σ.entries) :
    pc.Sound hash64 σ' u := by
  cases pc with
  | probing s candidates => exact fun id hid => hmap _ (h id hid)
  | locked s => exact (hwriter h).1
  | missed s =>
    obtain ⟨hw, hs⟩ := h
    exact ⟨(hwriter hw).1, by rwa [(hwriter hw).2]⟩
  | appended s id => exact hentries id s h
  | _ => trivial

/-- A step that leaves the table of strings as it is. -/
theorem Inv.frame (h : Inv hash64 σ) {σ' : State} {t : Nat} {pc : Pc}
    (hthreads : σ'.threads = Function.update σ.threads t pc) (hpc : pc.Sound hash64 σ' t)
    (hentries : σ'.entries = σ.entries) (hmap : ∀ x, σ.hashMap x ⊆ σ'.hashMap x)
    (hwriter : ∀ u, u ≠ t → σ.writer = some u → σ'.writer = some u)
    (hpublished : ∀ s id, σ.threads t = .appended s id → id ∈ σ'.hashMap (hash64 s))
    (hreturned : ∀ s id, (s, id) ∈ σ'.returned → (s, id) ∈ σ.returned ∨ σ.entries[id]? = some s) :
    Inv hash64 σ' := by
  refine ⟨hentries ▸ h.nodup, fun id s hs => ?_, fun u => ?_, fun s id hs => ?_⟩
  · rw [hentries] at hs
    rcases h.known id s hs with hid | ⟨u, hu⟩
    · exact .inl (hmap _ hid)
    · by_cases hut : u = t
      · exact .inl (hpublished s id (hut ▸ hu))
      · exact .inr ⟨u, by rw [hthreads, Function.update_of_ne hut, hu]⟩
  · rw [hthreads]
    by_cases hut : u = t
    · subst hut
      rwa [Function.update_self]
    · rw [Function.update_of_ne hut]
      refine (h.threads u).mono hmap (fun id s hs => by rwa [hentries]) fun hw => ?_
      exact ⟨hwriter u hut hw, hentries⟩
  · rw [hentries]
    rcases hreturned s id hs with hs | hs
    · exact h.returned s id hs
    · exact hs

/-- The append of a string that is not there. -/
theorem Inv.append (h : Inv hash64 σ) {t : Nat} {s : String} (ht : σ.threads t = .missed s)
    (hfits : σ.entries.length < idLimit) :
    Inv hash64 { σ.goto t (.appended s (σ.entries.length % idLimit)) with
      entries := σ.entries ++ [s], writer := none } := by
  obtain ⟨hwriter, hnew⟩ : σ.writer = some t ∧ s ∉ σ.entries := by
    have := h.threads t
    rwa [ht] at this
  have hkeep : ∀ {id : Nat} {x : String}, σ.entries[id]? = some x →
      (σ.entries ++ [s])[id]? = some x := fun hx =>
    (List.getElem?_append_left (List.getElem?_eq_some_iff.1 hx).1).trans hx
  rw [Nat.mod_eq_of_lt hfits]
  refine ⟨?_, fun id x hx => ?_, fun u => ?_, fun x id hx => hkeep (h.returned x id hx)⟩
  · simpa [List.nodup_append] using ⟨h.nodup, fun x hx => ne_of_mem_of_not_mem hx hnew⟩
  · change (σ.entries ++ [s])[id]? = some x at hx
    change id ∈ σ.hashMap (hash64 x) ∨
      ∃ u, Function.update σ.threads t (.appended s σ.entries.length) u = .appended x id
    rcases Nat.lt_or_ge id σ.entries.length with hid | hid
    · rw [List.getElem?_append_left hid] at hx
      rcases h.known id x hx with hid' | ⟨u, hu⟩
      · exact .inl hid'
      · have hut : u ≠ t := by
          rintro rfl
          rw [ht] at hu
          cases hu
        exact .inr ⟨u, by rw [Function.update_of_ne hut, hu]⟩
    · rw [List.getElem?_append_right hid] at hx
      obtain ⟨hlt, rfl⟩ := List.getElem?_eq_some_iff.1 hx
      have hid : id = σ.entries.length := by
        simp only [List.length_singleton] at hlt
        omega
      exact .inr ⟨t, by simp [hid]⟩
  · change (Function.update σ.threads t (.appended s σ.entries.length) u).Sound hash64 _ u
    by_cases hut : u = t
    · subst hut
      rw [Function.update_self]
      exact List.getElem?_concat_length
    · rw [Function.update_of_ne hut]
      refine (h.threads u).mono (fun _ => List.Subset.refl _) (fun _ _ hx => hkeep hx) fun hw => ?_
      -- the lock is with the thread that appends
      rw [hwriter] at hw
      exact absurd (Option.some.inj hw).symm hut

/-- A call returns an id that has been found. -/
theorem mem_finish {t id id' : Nat} {s s' : String} (hid : σ.entries[id]? = some s)
    (h : (s', id') ∈ (σ.finish t s id).returned) :
    (s', id') ∈ σ.returned ∨ σ.entries[id']? = some s' := by
  rcases List.mem_cons.1 h with h | h
  · cases h
    exact .inr hid
  · exact .inl h

theorem inv_advance (h : Inv hash64 σ) (t : Nat) (hok : Unhurried σ (.advance t)) :
    Inv hash64 (advance hash64 σ t) := by
  have hsound := h.threads t
  unfold advance
  simp only [Unhurried] at hok
  cases ht : σ.threads t with
  | idle => exact h
  | called s =>
    exact h.frame rfl (fun _ hid => hid) rfl (fun _ => List.Subset.refl _) (fun _ _ hw => hw)
      (by simp [ht]) (fun _ _ hr => .inl hr)
  | probing s candidates =>
    dsimp only
    split
    · exact h
    · split
      · next hfound =>
        exact h.frame rfl trivial rfl (fun _ => List.Subset.refl _) (fun _ _ hw => hw)
          (by simp [ht]) (fun _ _ hr => mem_finish (search_some hfound) hr)
      · exact h.frame rfl trivial rfl (fun _ => List.Subset.refl _) (fun _ _ hw => hw)
          (by simp [ht]) (fun _ _ hr => .inl hr)
  | waiting s =>
    dsimp only
    split
    · exact h
    · next hfree =>
      refine h.frame rfl rfl rfl (fun _ => List.Subset.refl _) (fun u _ hw => ?_) (by simp [ht])
        (fun _ _ hr => .inl hr)
      exact absurd (by rw [hw]; rfl) hfree
  | locked s =>
    rw [ht] at hsound hok
    have halone : ∀ u, u ≠ t → σ.writer ≠ some u := fun u hu hw =>
      hu (Option.some.inj (hw.symm.trans hsound))
    dsimp only
    split
    · next hfound =>
      exact h.frame rfl trivial rfl (fun _ => List.Subset.refl _)
        (fun u hu hw => absurd hw (halone u hu)) (by simp [ht])
        (fun _ _ hr => mem_finish (t := t) (search_some hfound) hr)
    · next hmiss =>
      have hnew : s ∉ σ.entries := by
        intro hmem
        obtain ⟨id, hid⟩ := List.mem_iff_getElem?.1 hmem
        rcases h.known id s hid with hmap | ⟨u, hu⟩
        · exact search_none hmiss hmap hid
        · exact hok u id hu
      exact h.frame rfl ⟨hsound, hnew⟩ rfl (fun _ => List.Subset.refl _) (fun _ _ hw => hw)
        (by simp [ht]) (fun _ _ hr => .inl hr)
  | missed s =>
    rw [ht] at hok
    exact h.append ht hok
  | appended s id =>
    rw [ht] at hsound
    refine h.frame rfl trivial rfl (fun x id' hid => ?_) (fun _ _ hw => hw) (fun x id' hx => ?_)
      (fun _ _ hr => mem_finish (t := t) hsound hr)
    · by_cases hx : x = hash64 s
      · subst hx
        simpa using .inl hid
      · simpa [hx] using hid
    · rw [ht] at hx
      cases hx
      simp

theorem inv_step (h : Inv hash64 σ) (e : Event) (hok : Unhurried σ e) :
    Inv hash64 (step hash64 σ e) := by
  cases e with
  | advance t => exact inv_advance h t hok
  | call t s =>
    unfold step
    dsimp only
    split
    · next ht =>
      exact h.frame rfl trivial rfl (fun _ => List.Subset.refl _) (fun _ _ hw => hw)
        (by simp [ht]) (fun _ _ hr => .inl hr)
    · exact h

/-- In every state of a run in which no second look for a string comes
between another thread's append of it and its entry in the hash map, and
whose ids fit: two calls have returned the same id just if their strings
are equal, and an id is looked up as the string it was returned for. -/
theorem intern_identity (hash64 : String → UInt64) (events : List Event)
    (hok : Along (step hash64) Unhurried State.new events) :
    (∀ s id s' id', (s, id) ∈ (run (step hash64) State.new events).returned →
      (s', id') ∈ (run (step hash64) State.new events).returned → (id = id' ↔ s = s')) ∧
    ∀ s id, (s, id) ∈ (run (step hash64) State.new events).returned →
      (run (step hash64) State.new events).lookup id = some s := by
  have h : Inv hash64 (run (step hash64) State.new events) :=
    run_keeps_along (Inv hash64) (fun _ e h hok => inv_step h e hok) inv_new hok
  refine ⟨fun s id s' id' hs hs' => ?_, h.returned⟩
  have hid := h.returned s id hs
  have hid' := h.returned s' id' hs'
  constructor
  · rintro rfl
    exact Option.some.inj (hid.symm.trans hid')
  · rintro rfl
    exact (List.getElem?_inj (List.getElem?_eq_some_iff.1 hid).1 h.nodup).1 (hid.trans hid'.symm)

/-! ### Two threads and one string -/

/-- The steps of a thread that finds nothing, from its call to its append. -/
def callAndAppend (t : Nat) (s : String) : List Event :=
  [.call t s, .advance t, .advance t, .advance t, .advance t, .advance t]

/-- One thread after the other. -/
theorem intern_identity_in_turn :
    (run (step fun _ => 0) State.new
        (callAndAppend 0 "x" ++ [.advance 0] ++ [.call 1 "x", .advance 1, .advance 1])).lookup 0 =
      some "x" := by
  refine (intern_identity (fun _ => 0) _ ?_).2 "x" 0 ?_
  · simp only [callAndAppend, Along, List.cons_append, List.nil_append, and_true]
    refine ⟨trivial, trivial, trivial, trivial, fun u id h => ?_, show 0 < idLimit by decide,
      trivial, trivial, trivial, trivial⟩
    simp [step, advance, State.new, State.goto, State.search, Function.update_apply] at h
    split at h <;> cases h
  · decide

/-- The second thread looks before the first has entered its id: both
append, and the ids differ. -/
theorem two_ids_for_one_string :
    (run (step fun _ => 0) State.new
        (callAndAppend 0 "x" ++ callAndAppend 1 "x" ++ [.advance 0, .advance 1])).returned =
      [("x", 1), ("x", 0)] := by
  decide

end OxideJS.Types.PermInterner
