import OxideJS.Lib.Runs
import OxideJS.Value.JsValue
import Mathlib.Data.List.Sort

/-!
Reading the properties of an object that is cloned or posted.

`fill_object_props` and `detach_plain_object` collect the keys of the object
with their storage slots and then read the slots one after the other. A
getter that is called on the way, or one of a value that is cloned on the
way, may change the object; all such code is left open.

A slot that still belongs to its key is read rightly. Code that adds and
redefines properties keeps all slots; a deletion moves the properties behind
it to other slots.
-/

namespace OxideJS.Clone

open Lib.Runs

inductive Entry where
  | data (value : JsValue) (enumerable : Bool)
  | accessor (getter : Nat) (enumerable : Bool)
  deriving DecidableEq

def Entry.enumerable : Entry → Bool
  | data _ e => e
  | accessor _ e => e

def Entry.isAccessor : Entry → Bool
  | data .. => false
  | accessor .. => true

/-- The value of a slot, which an accessor does not use. -/
def Entry.slotValue : Entry → JsValue
  | data v _ => v
  | accessor .. => .undefined

variable {ν : Type}

/-- The properties of a plain object by storage slot, along the chain of its shape. -/
structure PlainObject (ν : Type) where
  slots : List (ν × Entry)
  distinct : (slots.map Prod.fst).Nodup

def PlainObject.keys (o : PlainObject ν) : List ν := o.slots.map Prod.fst

/-- The code that may run: a getter, what the prototypes answer, and the cloning of a value that
was read. The number counts the turns; `none` is an exception. -/
structure User (ν : Type) where
  call : Nat → Nat → PlainObject ν → Option JsValue × PlainObject ν
  inherited : Nat → ν → PlainObject ν → Option JsValue × PlainObject ν
  clone : Nat → JsValue → PlainObject ν → Bool × PlainObject ν

section Keys

variable (index : ν → Option Nat) (isSymbol : ν → Bool)

/-- String keys with their slots: integer keys ascending, then the others as they were added. -/
def walkOwnKeys (o : PlainObject ν) : List (ν × Nat) :=
  let keys := o.keys.zipIdx.filter fun e => !isSymbol e.1
  (keys.filter fun e => (index e.1).isSome).insertionSort
      (fun e f => (index e.1).getD 0 ≤ (index f.1).getD 0) ++
    keys.filter fun e => (index e.1).isNone

def walkOwnSymbolKeys (o : PlainObject ν) : List (ν × Nat) :=
  o.keys.zipIdx.filter fun e => isSymbol e.1

end Keys

variable [DecidableEq ν]

def PlainObject.own (o : PlainObject ν) (k : ν) : Option Entry :=
  (o.slots.find? fun e => decide (e.1 = k)).map Prod.snd

def ordinaryGet (user : User ν) (turn : Nat) (o : PlainObject ν) (k : ν) :
    Option JsValue × PlainObject ν :=
  match PlainObject.own o k with
  | some (.data v _) => (some v, o)
  | some (.accessor getter _) => user.call turn getter o
  | none => user.inherited turn k o

/-- A slot without metadata is enumerable, also one that the object does not have. -/
def isEnumerableOwn (o : PlainObject ν) (store : Nat) : Bool :=
  (o.slots[store]?).all (·.2.enumerable)

def isAccessorAt (o : PlainObject ν) (store : Nat) : Bool :=
  (o.slots[store]?).any (·.2.isAccessor)

def getPropAt (o : PlainObject ν) (store : Nat) : JsValue :=
  (o.slots[store]?).elim .undefined (·.2.slotValue)

def readOwnValue (user : User ν) (turn : Nat) (o : PlainObject ν) (k : ν) (store : Nat) :
    Option JsValue × PlainObject ν :=
  if isAccessorAt o store then ordinaryGet user turn o k else (some (getPropAt o store), o)

/-- A value that was read, and what a Get of the key returned at that moment; `none` if the key
did not exist or the Get threw. -/
structure Read (ν : Type) where
  key : ν
  value : JsValue
  got : Option JsValue
  deriving DecidableEq

structure State (ν : Type) where
  object : PlainObject ν
  turn : Nat
  failed : Bool
  reads : List (Read ν)

/-- What a Get of an existing key returns. -/
def currentValue (user : User ν) (s : State ν) (k : ν) : Option JsValue :=
  (PlainObject.own s.object k).bind fun _ => (ordinaryGet user s.turn s.object k).1

/-- One key of the loop. -/
def State.fill (user : User ν) (s : State ν) (e : ν × Nat) : State ν :=
  if s.failed || !isEnumerableOwn s.object e.2 then s
  else
    match readOwnValue user s.turn s.object e.1 e.2 with
    | (none, o) => { s with object := o, failed := true }
    | (some v, o) =>
      let cloned := user.clone (s.turn + 1) v o
      { object := cloned.2
        turn := s.turn + 2
        failed := !cloned.1
        reads := s.reads ++ [⟨e.1, v, currentValue user s e.1⟩] }

def State.start (o : PlainObject ν) : State ν :=
  ⟨o, 0, false, []⟩

/-- The whole loop over the keys collected before. -/
def fillObjectProps (user : User ν) (index : ν → Option Nat) (isSymbol : ν → Bool)
    (o : PlainObject ν) : State ν :=
  run (State.fill user) (.start o) (walkOwnKeys index isSymbol o ++ walkOwnSymbolKeys isSymbol o)

/-- Every value read so far is the one that a Get returned. -/
def ReadsCurrent (s : State ν) : Prop :=
  ∀ r ∈ s.reads, r.got = some r.value

/-- The slot collected for a key is still the slot of that key. -/
def Belongs (o : PlainObject ν) (e : ν × Nat) : Prop := o.keys[e.2]? = some e.1

/-- The property of a key has a value, or its getter returns it. -/
def HasValue (user : User ν) (s : State ν) (k : ν) (v : JsValue) : Prop :=
  match s.object.own k with
  | some (.data w _) => w = v
  | some (.accessor getter _) => (user.call s.turn getter s.object).1 = some v
  | none => False

/-- What has to be so by chance if the slot of a key is another key's by now, or no slot: nothing is
read from it as it is not enumerable; or it has an accessor, and the key is looked up and found, or
the search for it throws; or the key, in its new slot, has the same value. -/
def Coincides (user : User ν) (s : State ν) (k : ν) : Option Entry → Prop
  | some (.data v enumerable) => enumerable = false ∨ HasValue user s k v
  | some (.accessor _ enumerable) =>
    enumerable = false ∨ k ∈ s.object.keys ∨ (user.inherited s.turn k s.object).1 = none
  | none => HasValue user s k .undefined

/-- The slot of a key answers for the key. -/
def Answers (user : User ν) (s : State ν) (e : ν × Nat) : Prop :=
  s.failed = true ∨ Belongs s.object e ∨
    Coincides user s e.1 (s.object.slots[e.2]?.map Prod.snd)

/-- Code that adds and redefines properties and deletes none. -/
structure User.Appends (user : User ν) : Prop where
  call : ∀ turn getter o, o.keys <+: (user.call turn getter o).2.keys
  inherited : ∀ turn k o, o.keys <+: (user.inherited turn k o).2.keys
  clone : ∀ turn v o, o.keys <+: (user.clone turn v o).2.keys

theorem fill_reads (user : User ν) (s : State ν) (e : ν × Nat) :
    s.reads <+: (s.fill user e).reads := by
  unfold State.fill
  split
  · exact List.prefix_refl _
  · split
    · exact List.prefix_refl _
    · exact List.prefix_append _ _

/-! ### One key -/

theorem own_eq_some {o : PlainObject ν} {k : ν} {i : Nat} {entry : Entry}
    (h : o.slots[i]? = some (k, entry)) : o.own k = some entry := by
  have hmem : (k, entry) ∈ o.slots := List.mem_of_getElem? h
  cases hfind : o.slots.find? (fun e => decide (e.1 = k)) with
  | none => simpa using List.find?_eq_none.mp hfind _ hmem
  | some e =>
    obtain rfl : e.1 = k := by simpa using List.find?_some hfind
    have heq := List.inj_on_of_nodup_map o.distinct (List.mem_of_find?_eq_some hfind) hmem rfl
    rw [PlainObject.own, hfind, heq]
    rfl

theorem own_eq_none_iff {o : PlainObject ν} {k : ν} : o.own k = none ↔ k ∉ o.keys := by
  simp only [PlainObject.own, PlainObject.keys, Option.map_eq_none_iff, List.find?_eq_none,
    decide_eq_true_eq, List.mem_map, not_exists, not_and]

omit [DecidableEq ν] in
theorem belongs_iff {o : PlainObject ν} {e : ν × Nat} :
    Belongs o e ↔ ∃ entry, o.slots[e.2]? = some (e.1, entry) := by
  simp [Belongs, PlainObject.keys]

theorem currentValue_eq_some {user : User ν} {s : State ν} {k : ν} {v : JsValue} :
    currentValue user s k = some v ↔ HasValue user s k v := by
  unfold currentValue ordinaryGet HasValue
  cases s.object.own k with
  | none => simp
  | some entry => cases entry <;> simp

/-- What a key that is looked up gives is its value, if it is found on the object. -/
theorem ordinaryGet_hasValue_iff (user : User ν) (s : State ν) (k : ν) :
    (∀ v, (ordinaryGet user s.turn s.object k).1 = some v → HasValue user s k v) ↔
      k ∈ s.object.keys ∨ (user.inherited s.turn k s.object).1 = none := by
  cases hown : s.object.own k with
  | none =>
    have hkey : k ∉ s.object.keys := own_eq_none_iff.mp hown
    simp [ordinaryGet, HasValue, hown, hkey, Option.eq_none_iff_forall_ne_some]
  | some entry =>
    have hkey : k ∈ s.object.keys := by
      by_contra hkey
      rw [own_eq_none_iff.mpr hkey] at hown
      cases hown
    cases entry <;> simp [ordinaryGet, HasValue, hown, hkey]

/-- A step keeps the reads current if what is read is the value of the key. -/
theorem readsCurrent_fill (user : User ν) {s : State ν} (h : ReadsCurrent s)
    (hfailed : s.failed = false) (e : ν × Nat) :
    ReadsCurrent (s.fill user e) ↔ (isEnumerableOwn s.object e.2 = true →
      ∀ v, (readOwnValue user s.turn s.object e.1 e.2).1 = some v → HasValue user s e.1 v) := by
  unfold State.fill
  rw [hfailed]
  cases isEnumerableOwn s.object e.2 with
  | false => simpa using h
  | true =>
    rcases readOwnValue user s.turn s.object e.1 e.2 with ⟨_ | v, o⟩
    · exact iff_of_true h (by simp)
    · simp only [Bool.not_true, Bool.or_self, Bool.false_eq_true, if_false, true_imp_iff,
        Option.some.injEq, forall_eq', ← currentValue_eq_some]
      refine ⟨fun hall => hall _ (List.mem_append_right _ List.mem_cons_self), fun hv r hr => ?_⟩
      rcases List.mem_append.mp hr with hr | hr
      · exact h r hr
      · rw [List.mem_singleton.mp hr, hv]

/-- A step adds a value that is not the current one exactly when the slot
does not answer for the key. -/
theorem fill_readsCurrent_iff (user : User ν) {s : State ν} (h : ReadsCurrent s) (e : ν × Nat) :
    ReadsCurrent (s.fill user e) ↔ Answers user s e := by
  cases hfailed : s.failed with
  | true => simpa [State.fill, Answers, hfailed] using h
  | false =>
    rw [readsCurrent_fill user h hfailed, Answers, belongs_iff, hfailed]
    rcases hslot : s.object.slots[e.2]? with _ | ⟨k, entry⟩
    · simp [isEnumerableOwn, readOwnValue, isAccessorAt, getPropAt, hslot, Coincides]
    · cases entry with
      | data v enumerable =>
        -- a slot of the key itself holds the value of the key
        have hbelongs : k = e.1 → HasValue user s e.1 v := by
          rintro rfl
          rw [HasValue, own_eq_some hslot]
        cases enumerable with
        | false => simp [isEnumerableOwn, hslot, Coincides, Entry.enumerable]
        | true => simpa [isEnumerableOwn, readOwnValue, isAccessorAt, getPropAt, hslot, Coincides,
            Entry.enumerable, Entry.isAccessor, Entry.slotValue] using hbelongs
      | accessor getter enumerable =>
        have hbelongs : k = e.1 → e.1 ∈ s.object.keys := by
          rintro rfl
          exact List.mem_map_of_mem (List.mem_of_getElem? hslot)
        cases enumerable with
        | false => simp [isEnumerableOwn, hslot, Coincides, Entry.enumerable]
        | true => simpa [isEnumerableOwn, readOwnValue, isAccessorAt, hslot, Coincides,
            Entry.enumerable, Entry.isAccessor, ordinaryGet_hasValue_iff]
          using fun hk => .inl (hbelongs hk)

/-! ### All keys -/

omit [DecidableEq ν] in
/-- The pairs that are collected name the slots of their keys. -/
theorem belongs_of_collected {index : ν → Option Nat} {isSymbol : ν → Bool} {o : PlainObject ν}
    {e : ν × Nat} (h : e ∈ walkOwnKeys index isSymbol o ++ walkOwnSymbolKeys isSymbol o) :
    Belongs o e := by
  have hmem : e ∈ o.keys.zipIdx := by
    simp only [walkOwnKeys, walkOwnSymbolKeys, List.mem_append, List.mem_insertionSort,
      List.mem_filter] at h
    tauto
  exact List.mem_zipIdx_iff_getElem?.mp hmem

omit [DecidableEq ν] in
theorem belongs_of_front {o o' : PlainObject ν} {e : ν × Nat} (hkeys : o.keys <+: o'.keys)
    (h : Belongs o e) : Belongs o' e := by
  obtain ⟨added, hadded⟩ := hkeys
  obtain ⟨hlt, -⟩ := List.getElem?_eq_some_iff.mp h
  rw [Belongs, ← hadded, List.getElem?_append_left hlt]
  exact h

theorem keys_fill {user : User ν} (happends : user.Appends) (s : State ν) (e : ν × Nat) :
    s.object.keys <+: (s.fill user e).object.keys := by
  have hget : s.object.keys <+: (ordinaryGet user s.turn s.object e.1).2.keys := by
    unfold ordinaryGet
    split
    · exact List.prefix_refl _
    · exact happends.call _ _ _
    · exact happends.inherited _ _ _
  have hread : s.object.keys <+: (readOwnValue user s.turn s.object e.1 e.2).2.keys := by
    unfold readOwnValue
    split
    · exact hget
    · exact List.prefix_refl _
  unfold State.fill
  split
  · exact List.prefix_refl _
  · rcases hr : readOwnValue user s.turn s.object e.1 e.2 with ⟨_ | v, o⟩
    · rwa [hr] at hread
    · rw [hr] at hread
      exact hread.trans (happends.clone _ _ _)

/-- In every run of user code, every value read is the current one exactly when at every key the
slot collected before answers for it: it still belongs to the key, or its content coincides with
what is expected. Code that deletes no property keeps every slot, so that this is so. -/
theorem fillObjectProps_readsCurrent_iff (user : User ν) (index : ν → Option Nat)
    (isSymbol : ν → Bool) (o : PlainObject ν) :
    (ReadsCurrent (fillObjectProps user index isSymbol o) ↔
      Along (State.fill user) (Answers user) (.start o)
        (walkOwnKeys index isSymbol o ++ walkOwnSymbolKeys isSymbol o)) ∧
    (user.Appends → ReadsCurrent (fillObjectProps user index isSymbol o)) := by
  have hstart : ReadsCurrent (State.start o) := fun _ hr => absurd hr List.not_mem_nil
  have hiff : ReadsCurrent (fillObjectProps user index isSymbol o) ↔
      Along (State.fill user) (Answers user) (.start o)
        (walkOwnKeys index isSymbol o ++ walkOwnSymbolKeys isSymbol o) := by
    refine run_iff_along ReadsCurrent (fun s => ¬ReadsCurrent s) ?_ ?_ ?_ ?_ hstart _
    · intro s e h hok
      exact (fill_readsCurrent_iff user h e).mpr hok
    · intro s e h hok hafter
      exact hok ((fill_readsCurrent_iff user h e).mp hafter)
    · intro s e hbroken hafter
      exact hbroken fun r hr => hafter r ((fill_reads user s e).subset hr)
    · intro s hbroken
      exact hbroken
  refine ⟨hiff, fun happends => hiff.mpr ?_⟩
  -- the keys that were collected stay the first ones, each in its slot
  refine along_of_keeps (fun s => o.keys <+: s.object.keys) ?_ (List.prefix_refl _) ?_
  · intro s e h
    exact h.trans (keys_fill happends s e)
  · intro s h e he
    exact .inr (.inl (belongs_of_front h (belongs_of_collected he)))

/-- A getter that deletes a property of the object, which moves the slots behind it. -/
def deleting (k : Nat) : User Nat :=
  ⟨fun _ _ o => (some .null, ⟨o.slots.filter fun e => e.1 ≠ k,
      o.distinct.sublist (List.filter_sublist.map _)⟩),
    fun _ _ o => (some .undefined, o), fun _ _ o => (true, o)⟩

/-- The getter of `0` deletes `1`, which is copied nevertheless, with the value of `2`; and one
that deletes itself moves `1` to another slot, so that `1` is copied as `undefined`. -/
theorem fillObjectProps_reads_moved :
    (fillObjectProps (deleting 1) (fun _ => none) (fun _ => false)
      ⟨[(0, .accessor 0 true), (1, .data (.bool true) true), (2, .data (.bool false) true)],
        by decide⟩).reads =
        [⟨0, .null, some .null⟩, ⟨1, .bool false, none⟩,
          ⟨2, .undefined, some (.bool false)⟩] ∧
    (fillObjectProps (deleting 0) (fun _ => none) (fun _ => false)
      ⟨[(0, .accessor 0 true), (1, .data (.bool true) true)], by decide⟩).reads =
        [⟨0, .null, some .null⟩, ⟨1, .undefined, some (.bool true)⟩] ∧
    ¬ ReadsCurrent (fillObjectProps (deleting 0) (fun _ => none) (fun _ => false)
      ⟨[(0, .accessor 0 true), (1, .data (.bool true) true)], by decide⟩) := by
  unfold ReadsCurrent
  decide

end OxideJS.Clone
