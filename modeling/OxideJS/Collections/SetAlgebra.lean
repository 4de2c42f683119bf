import OxideJS.Lib.IndexSet
import OxideJS.Collections.SetKey

/-!
The algebra of sets: `union`, `intersection`, `difference`,
`symmetricDifference` and the three comparisons.

The argument is anything with a size, a method `has` and a method `keys`
whose iterator is run to its end or until the operation knows the answer.
Both are user code and may throw. Four of the operations have two loops,
one asks the argument for the elements of the receiver and the other asks
the receiver for the keys of the argument, and the sizes decide between
them.
-/

namespace OxideJS.Collections

abbrev SetInner := IndexSet SetKey

/-- What is read from the argument: its size, what `has` returns or throws,
and what the iterator gives step by step. -/
structure SetRecord where
  size : Nat
  has : JsValue → Except JsValue JsValue
  keys : List (Except JsValue JsValue)

inductive KeysFlow where
  | continue
  | stop
  deriving DecidableEq

/-- Hands the keys to `f` one after the other, until it stops. -/
def iterateRecordKeys {σ : Type} (f : σ → JsValue → KeysFlow × σ) (s : σ) :
    List (Except JsValue JsValue) → Except JsValue (KeysFlow × σ)
  | [] => .ok (.continue, s)
  | .error e :: _ => .error e
  | .ok value :: keys =>
    match f s value with
    | (.continue, s) => iterateRecordKeys f s keys
    | (.stop, s) => .ok (.stop, s)

section

variable (host : Host) (inner : SetInner) (r : SetRecord)

/-- What `has` answers, read as a boolean. -/
def inOther (e : SetKey) : Except JsValue Bool := do
  return toBoolean host (← r.has e.value)

def normalizedKey (value : JsValue) : SetKey := ⟨normalizeNegZero value⟩

def setUnion : Except JsValue SetInner := do
  let (_, result) ← iterateRecordKeys
    (fun (result : SetInner) value => (.continue, result.insert (normalizedKey value))) inner r.keys
  return result

def setIntersection : Except JsValue SetInner :=
  if inner.length ≤ r.size then
    inner.items.foldlM (fun (result : SetInner) e => do
      return if ← inOther host r e then result.insert e else result) .empty
  else do
    let (_, result) ← iterateRecordKeys (fun (result : SetInner) value =>
      (.continue, if inner.contains (normalizedKey value) then result.insert (normalizedKey value)
        else result)) .empty r.keys
    return result

def setDifference : Except JsValue SetInner :=
  if inner.length ≤ r.size then
    inner.items.foldlM (fun (result : SetInner) e => do
      return if !(← inOther host r e) then result.insert e else result) .empty
  else do
    let copy := inner.items.foldl IndexSet.insert .empty
    let (_, result) ← iterateRecordKeys
      (fun (result : SetInner) value => (.continue, result.shiftRemove (normalizedKey value)))
      copy r.keys
    return result

/-- Removes the key if it is there and appends it if not. -/
def toggle (result : SetInner) (key : SetKey) : SetInner :=
  if result.contains key then result.shiftRemove key else result.insert key

def setSymmetricDifference : Except JsValue SetInner := do
  let (_, result) ← iterateRecordKeys
    (fun (result : SetInner) value => (.continue, toggle result (normalizedKey value))) inner r.keys
  return result

def setIsSubsetOf : Except JsValue Bool :=
  if r.size < inner.length then .ok false
  else inner.items.allM (inOther host r)

def setIsSupersetOf : Except JsValue Bool :=
  if inner.length < r.size then .ok false
  else do
    let (flow, _) ← iterateRecordKeys (fun () value =>
      (if !inner.contains (normalizedKey value) then .stop else .continue, ())) () r.keys
    return flow = .continue

def setIsDisjointFrom : Except JsValue Bool :=
  if inner.length ≤ r.size then do
    return !(← inner.items.anyM (inOther host r))
  else do
    let (flow, _) ← iterateRecordKeys (fun () value =>
      (if inner.contains (normalizedKey value) then .stop else .continue, ())) () r.keys
    return flow = .continue

end

/-! ### The loops -/

theorem iterateRecordKeys_continue {σ : Type} (f : σ → JsValue → σ) (s : σ) (ks : List JsValue) :
    iterateRecordKeys (fun s v => (.continue, f s v)) s (ks.map .ok) =
      .ok (.continue, ks.foldl f s) := by
  induction ks generalizing s with
  | nil => rfl
  | cons v ks ih => exact ih (f s v)

theorem iterateRecordKeys_search (p : JsValue → Bool) (ks : List JsValue) :
    iterateRecordKeys (fun () v => (if p v then .stop else .continue, ())) () (ks.map .ok) =
      .ok (if ks.any p then .stop else .continue, ()) := by
  induction ks with
  | nil => rfl
  | cons v ks ih =>
    rw [List.map_cons, iterateRecordKeys, List.any_cons]
    cases p v with
    | true => rfl
    | false => exact ih

theorem foldlM_ok {σ : Type} (g : SetKey → Except JsValue Bool) (p : SetKey → Bool)
    (hg : ∀ e, g e = .ok (p e)) (f : Bool → σ → SetKey → σ) (s : σ) (l : List SetKey) :
    l.foldlM (fun s e => do return f (← g e) s e) s =
      (.ok (l.foldl (fun s e => f (p e) s e) s) : Except JsValue σ) := by
  induction l generalizing s with
  | nil => rfl
  | cons e l ih =>
    rw [List.foldlM_cons, hg e]
    exact ih _

theorem allM_ok {g : SetKey → Except JsValue Bool} {p : SetKey → Bool}
    (hg : ∀ e, g e = .ok (p e)) (l : List SetKey) : l.allM g = .ok (l.all p) := by
  induction l with
  | nil => rfl
  | cons e l ih =>
    rw [List.allM, hg e, List.all_cons]
    cases p e with
    | true => exact ih
    | false => rfl

theorem anyM_ok {g : SetKey → Except JsValue Bool} {p : SetKey → Bool}
    (hg : ∀ e, g e = .ok (p e)) (l : List SetKey) : l.anyM g = .ok (l.any p) := by
  induction l with
  | nil => rfl
  | cons e l ih =>
    rw [List.anyM, hg e, List.any_cons]
    cases p e with
    | true => rfl
    | false => exact ih

/-! ### Arguments that are sets -/

/-- The argument behaves like the set `B` and gives the keys `ks`, some of
them perhaps more than once. -/
structure SetRecord.Consistent (host : Host) (r : SetRecord) (B : SetInner) (ks : List JsValue) :
    Prop where
  size : r.size = B.length
  has : ∀ e, inOther host r e = .ok (B.contains e)
  keys : r.keys = ks.map .ok
  mem_keys : ∀ k, (ks.map SetKey.mk).contains k = B.contains k

/-- The negative zero is stored. -/
def StoresNegZero (s : SetInner) : Prop := ∃ k ∈ s.items, isNegZero k.value = true

/-- The operation returns the set of the keys with the property, in which
the negative zero is not stored. -/
def Returns (x : Except JsValue SetInner) (P : SetKey → Prop) : Prop :=
  ∃ result, x = .ok result ∧ (∀ k, result.contains k = true ↔ P k) ∧ ¬StoresNegZero result

theorem returns_ok {s : SetInner} {P : SetKey → Prop} :
    Returns (.ok s) P ↔ (∀ k, s.contains k = true ↔ P k) ∧ ¬StoresNegZero s := by
  constructor
  · rintro ⟨result, heq, h⟩
    obtain rfl := Except.ok.inj heq
    exact h
  · exact fun h => ⟨s, rfl, h⟩

/-- Zero, of either sign. -/
def zeroKey : SetKey := ⟨.double (Binary64.ofInt 0)⟩

theorem beq_zeroKey {k : SetKey} (h : isNegZero k.value = true) : (k == zeroKey) = true :=
  SetKey.beq_iff.mpr (canonical_of_isNegZero h)

section

variable {host : Host} {A B s : SetInner} {r : SetRecord} {ks : List JsValue} {k : SetKey}

theorem contains_of_isNegZero (h : isNegZero k.value = true) : s.contains k = s.contains zeroKey :=
  IndexSet.contains_congr (beq_zeroKey h)

theorem beq_normalizedKey (v : JsValue) : (k == normalizedKey v) = (k == ⟨v⟩) := by
  rw [Bool.eq_iff_iff, SetKey.beq_iff, SetKey.beq_iff]
  simp [normalizedKey]

theorem contains_normalizedKey (v : JsValue) : s.contains (normalizedKey v) = s.contains ⟨v⟩ := by
  refine IndexSet.contains_congr ?_
  rw [BEq.comm, beq_normalizedKey]
  exact BEq.rfl

theorem contains_map_normalizedKey (ks : List JsValue) :
    (ks.map normalizedKey).contains k = (ks.map SetKey.mk).contains k := by
  induction ks with
  | nil => rfl
  | cons v ks ih => simp only [List.map_cons, List.contains_cons, beq_normalizedKey, ih]

theorem not_isNegZero_of_mem_map (h : k ∈ ks.map normalizedKey) : isNegZero k.value = false := by
  obtain ⟨v, -, rfl⟩ := List.mem_map.mp h
  exact isNegZero_normalizeNegZero v

/-- A set whose elements are those of `A` that pass a test. -/
theorem returns_filter {p : SetKey → Bool} (hitems : s.items = A.items.filter p)
    (hp : ∀ a b, (a == b) = true → p a = p b) :
    (∀ k, s.contains k = true ↔ A.contains k = true ∧ p k = true) ∧
      (StoresNegZero s ↔ StoresNegZero A ∧ p zeroKey = true) := by
  simp only [IndexSet.contains_iff, StoresNegZero, hitems, List.mem_filter]
  constructor
  · intro k
    constructor
    · rintro ⟨b, ⟨hb, hpb⟩, hkb⟩
      exact ⟨⟨b, hb, hkb⟩, (hp k b hkb).trans hpb⟩
    · rintro ⟨⟨b, hb, hkb⟩, hpk⟩
      exact ⟨b, ⟨hb, (hp k b hkb).symm.trans hpk⟩, hkb⟩
  · constructor
    · rintro ⟨k, ⟨hk, hpk⟩, hneg⟩
      exact ⟨⟨k, hk, hneg⟩, (hp k zeroKey (beq_zeroKey hneg)).symm.trans hpk⟩
    · rintro ⟨⟨k, hk, hneg⟩, hzero⟩
      exact ⟨k, ⟨hk, (hp k zeroKey (beq_zeroKey hneg)).trans hzero⟩, hneg⟩

/-! ### Union -/

theorem setUnion_eq (h : r.Consistent host B ks) :
    setUnion A r = .ok ((ks.map normalizedKey).foldl IndexSet.insert A) := by
  rw [setUnion, h.keys, iterateRecordKeys_continue, List.foldl_map]
  rfl

/-- The copy of the receiver is stored as it is. -/
theorem returns_setUnion_iff (h : r.Consistent host B ks) :
    Returns (setUnion A r) (fun k => A.contains k = true ∨ B.contains k = true) ↔
      ¬StoresNegZero A := by
  have hcontains (k) : ((ks.map normalizedKey).foldl IndexSet.insert A).contains k = true ↔
      A.contains k = true ∨ B.contains k = true := by
    rw [IndexSet.contains_foldl_insert, contains_map_normalizedKey, h.mem_keys, Bool.or_eq_true]
  obtain ⟨hstays, hnew⟩ := IndexSet.mem_foldl_insert A (ks.map normalizedKey)
  rw [setUnion_eq h, returns_ok, and_iff_right hcontains, not_iff_not]
  constructor
  · rintro ⟨k, hk, hneg⟩
    rcases hnew k hk with hk | hk
    · exact ⟨k, hk, hneg⟩
    · rw [not_isNegZero_of_mem_map hk] at hneg
      exact nomatch hneg
  · exact fun ⟨k, hk, hneg⟩ => ⟨k, hstays k hk, hneg⟩

/-! ### Intersection -/

theorem setIntersection_eq_filter (h : r.Consistent host B ks) (hsize : A.length ≤ B.length) :
    ∃ s, setIntersection host A r = .ok s ∧ s.items = A.items.filter B.contains := by
  refine ⟨_, ?_, IndexSet.items_foldl_filter B.contains .empty A.items A.distinct⟩
  rw [setIntersection, if_pos (h.size ▸ hsize)]
  exact foldlM_ok (inOther host r) B.contains h.has
    (fun b (s : SetInner) e => if b then s.insert e else s) _ _

theorem foldl_insert_if (p : JsValue → Bool) (ks : List JsValue) :
    ks.foldl (fun (s : SetInner) v => if p v then s.insert (normalizedKey v) else s) s =
      ((ks.filter p).map normalizedKey).foldl IndexSet.insert s := by
  rw [List.foldl_map, List.foldl_filter]

theorem setIntersection_eq_foldl (h : r.Consistent host B ks) (hsize : ¬A.length ≤ B.length) :
    setIntersection host A r = .ok (((ks.filter fun v => A.contains (normalizedKey v)).map
      normalizedKey).foldl IndexSet.insert .empty) := by
  rw [setIntersection, if_neg (h.size ▸ hsize), h.keys, iterateRecordKeys_continue]
  exact congrArg Except.ok (foldl_insert_if _ ks)

theorem contains_filter_keys :
    ((ks.filter fun v => A.contains (normalizedKey v)).map SetKey.mk).contains k =
      (A.contains k && (ks.map SetKey.mk).contains k) := by
  induction ks with
  | nil => simp
  | cons v ks ih =>
    rw [List.filter_cons, List.map_cons, List.contains_cons, Bool.and_or_distrib_left, ← ih]
    cases hkv : k == SetKey.mk v with
    | true =>
      rw [contains_normalizedKey, ← IndexSet.contains_congr hkv]
      cases A.contains k <;> simp [hkv]
    | false => split <;> simp [hkv]

/-- Only the loop over the receiver keeps the negative zero. -/
theorem returns_setIntersection_iff (h : r.Consistent host B ks) :
    Returns (setIntersection host A r) (fun k => A.contains k = true ∧ B.contains k = true) ↔
      ¬(StoresNegZero A ∧ B.contains zeroKey = true ∧ A.length ≤ B.length) := by
  by_cases hsize : A.length ≤ B.length
  · obtain ⟨s, heq, hitems⟩ := setIntersection_eq_filter h hsize
    obtain ⟨hcontains, hneg⟩ := returns_filter hitems fun a b => IndexSet.contains_congr
    rw [heq, returns_ok, and_iff_right hcontains, hneg, and_iff_left hsize]
  · rw [setIntersection_eq_foldl h hsize, returns_ok]
    refine iff_of_true ⟨fun k => ?_, ?_⟩ fun hcond => hsize hcond.2.2
    · rw [IndexSet.contains_foldl_insert, contains_map_normalizedKey, contains_filter_keys,
        h.mem_keys, ← Bool.and_eq_true_iff]
      rfl
    · rintro ⟨k, hk, hneg⟩
      rcases (IndexSet.mem_foldl_insert .empty _).2 k hk with hk | hk
      · exact absurd hk List.not_mem_nil
      · rw [not_isNegZero_of_mem_map hk] at hneg
        exact nomatch hneg

/-! ### Difference -/

theorem items_foldl_shiftRemove (s : SetInner) (ks : List JsValue) :
    (ks.foldl (fun (s : SetInner) v => s.shiftRemove (normalizedKey v)) s).items =
      s.items.filter fun e => !(ks.map SetKey.mk).contains e := by
  induction ks generalizing s with
  | nil => simp
  | cons v ks ih =>
    rw [List.foldl_cons, ih, IndexSet.items_shiftRemove, List.filter_filter]
    refine List.filter_congr fun e _ => ?_
    rw [List.map_cons, List.contains_cons, BEq.comm, beq_normalizedKey, Bool.not_or, Bool.and_comm]

theorem setDifference_eq_filter (h : r.Consistent host B ks) :
    ∃ s, setDifference host A r = .ok s ∧ s.items = A.items.filter fun e => !B.contains e := by
  by_cases hsize : A.length ≤ B.length
  · refine ⟨_, ?_, IndexSet.items_foldl_filter (fun e => !B.contains e) .empty A.items A.distinct⟩
    rw [setDifference, if_pos (h.size ▸ hsize)]
    exact foldlM_ok (inOther host r) B.contains h.has
      (fun b (s : SetInner) e => if !b then s.insert e else s) _ _
  · have hcopy : (A.items.foldl IndexSet.insert .empty : SetInner).items = A.items := by
      have := IndexSet.items_foldl_filter (fun _ => true) .empty A.items A.distinct
      simpa [IndexSet.empty] using this
    have hrun : setDifference host A r = .ok (ks.foldl (fun s v => s.shiftRemove (normalizedKey v))
        (A.items.foldl IndexSet.insert .empty)) := by
      rw [setDifference, if_neg (h.size ▸ hsize), h.keys]
      simp only [iterateRecordKeys_continue]
      rfl
    refine ⟨_, hrun, ?_⟩
    rw [items_foldl_shiftRemove, hcopy]
    exact List.filter_congr fun e _ => by rw [h.mem_keys]

/-- Both loops keep the negative zero. -/
theorem returns_setDifference_iff (h : r.Consistent host B ks) :
    Returns (setDifference host A r) (fun k => A.contains k = true ∧ B.contains k = false) ↔
      ¬(StoresNegZero A ∧ B.contains zeroKey = false) := by
  obtain ⟨s, heq, hitems⟩ := setDifference_eq_filter (A := A) h
  obtain ⟨hcontains, hneg⟩ := returns_filter hitems fun a b hab => by
    rw [IndexSet.contains_congr hab]
  simp only [Bool.not_eq_true'] at hcontains hneg
  rw [heq, returns_ok, and_iff_right hcontains, hneg]

/-! ### Symmetric difference -/

theorem contains_toggle (s : SetInner) (a k : SetKey) :
    (toggle s a).contains k = xor (s.contains k) (k == a) := by
  unfold toggle
  cases hka : k == a with
  | true =>
    have hk : s.contains k = s.contains a := IndexSet.contains_congr hka
    cases hs : s.contains a <;> simp [hka, hk, hs]
  | false =>
    split <;> simp [hka]

/-- A key that comes twice is removed again. -/
theorem contains_foldl_toggle (s : SetInner) (l : List SetKey) (k : SetKey) :
    (l.foldl toggle s).contains k = xor (s.contains k) (l.countP (k == ·) % 2 == 1) := by
  induction l generalizing s with
  | nil => simp
  | cons a l ih =>
    rw [List.foldl_cons, ih, contains_toggle, List.countP_cons]
    cases hka : k == a with
    | false => simp
    | true =>
      rcases Nat.mod_two_eq_zero_or_one (l.countP (k == ·)) with hmod | hmod
      · simp [Nat.add_mod, hmod]
      · simp [Nat.add_mod, hmod]

theorem mem_toggle_of_isNegZero {a : SetKey} (ha : isNegZero a.value = false)
    (hk : isNegZero k.value = true) :
    k ∈ (toggle s a).items ↔ k ∈ s.items ∧ (a == k) = false := by
  have hka : k ≠ a := by
    rintro rfl
    rw [ha] at hk
    exact nomatch hk
  unfold toggle
  cases hs : s.contains a with
  | true => exact IndexSet.mem_shiftRemove
  | false =>
    simp only [Bool.false_eq_true, if_false, IndexSet.mem_insert, hka, false_and, or_false]
    refine (and_iff_left_of_imp fun hmem => ?_).symm
    rw [← Bool.not_eq_true]
    intro hak
    rw [IndexSet.contains_iff.mpr ⟨k, hmem, hak⟩] at hs
    exact nomatch hs

theorem mem_foldl_toggle_of_isNegZero (s : SetInner) (ks : List JsValue)
    (hk : isNegZero k.value = true) :
    k ∈ (((ks.map normalizedKey).foldl toggle s).items) ↔
      k ∈ s.items ∧ (ks.map SetKey.mk).contains k = false := by
  induction ks generalizing s with
  | nil => simp
  | cons v ks ih =>
    have hv : isNegZero (normalizedKey v).value = false := isNegZero_normalizeNegZero v
    rw [List.map_cons, List.foldl_cons, ih, mem_toggle_of_isNegZero hv hk, List.map_cons,
      List.contains_cons, Bool.or_eq_false_iff, BEq.comm, beq_normalizedKey, and_assoc]

theorem setSymmetricDifference_eq (h : r.Consistent host B ks) :
    setSymmetricDifference A r = .ok ((ks.map normalizedKey).foldl toggle A) := by
  rw [setSymmetricDifference, h.keys, iterateRecordKeys_continue, List.foldl_map]
  rfl

/-- How often the argument gives the key. -/
def occurrences (ks : List JsValue) (k : SetKey) : Nat := (ks.map SetKey.mk).countP (k == ·)

theorem countP_normalizedKey (ks : List JsValue) :
    (ks.map normalizedKey).countP (k == ·) = occurrences ks k := by
  rw [occurrences, List.countP_map, List.countP_map]
  refine List.countP_congr fun v _ => ?_
  simp only [Function.comp_apply, beq_normalizedKey]

theorem occurrences_eq_zero (h : (ks.map SetKey.mk).contains k = false) : occurrences ks k = 0 := by
  rw [occurrences, List.countP_eq_zero]
  intro e he hke
  rw [List.contains_iff_exists_mem_beq.mpr ⟨e, he, hke⟩] at h
  exact nomatch h

theorem returns_setSymmetricDifference_iff (h : r.Consistent host B ks) :
    Returns (setSymmetricDifference A r) (fun k =>
        A.contains k = true ∧ B.contains k = false ∨ B.contains k = true ∧ A.contains k = false) ↔
      (∀ k, B.contains k = true → occurrences ks k % 2 = 1) ∧
        ¬(StoresNegZero A ∧ B.contains zeroKey = false) := by
  have hneg : StoresNegZero ((ks.map normalizedKey).foldl toggle A) ↔
      StoresNegZero A ∧ B.contains zeroKey = false := by
    constructor
    · rintro ⟨k, hk, hneg⟩
      obtain ⟨hmem, hkeys⟩ := (mem_foldl_toggle_of_isNegZero A ks hneg).mp hk
      rw [h.mem_keys, contains_of_isNegZero hneg] at hkeys
      exact ⟨⟨k, hmem, hneg⟩, hkeys⟩
    · rintro ⟨⟨k, hmem, hneg⟩, hzero⟩
      refine ⟨k, (mem_foldl_toggle_of_isNegZero A ks hneg).mpr ⟨hmem, ?_⟩, hneg⟩
      rw [h.mem_keys, contains_of_isNegZero hneg, hzero]
  rw [setSymmetricDifference_eq h, returns_ok, hneg]
  refine and_congr_left' (forall_congr' fun k => ?_)
  rw [contains_foldl_toggle, countP_normalizedKey]
  cases hB : B.contains k with
  | true => cases A.contains k <;> simp
  | false =>
    rw [occurrences_eq_zero (h.mem_keys k ▸ hB)]
    cases A.contains k <;> simp

/-! ### Comparisons -/

theorem setIsSubsetOf_eq (h : r.Consistent host B ks) :
    setIsSubsetOf host A r = .ok (A.items.all B.contains) := by
  unfold setIsSubsetOf
  split
  · next hsize =>
    refine congrArg _ (Eq.symm (Bool.eq_false_iff.mpr fun hall => ?_))
    have hle := IndexSet.length_le_of_contains (List.all_eq_true.mp hall)
    rw [h.size] at hsize
    omega
  · exact allM_ok h.has A.items

theorem any_keys_iff (h : r.Consistent host B ks) (p : SetKey → Bool)
    (hp : ∀ a b, (a == b) = true → p a = p b) :
    (ks.any fun v => p (normalizedKey v)) = B.items.any p := by
  rw [Bool.eq_iff_iff, List.any_eq_true, List.any_eq_true]
  constructor
  · rintro ⟨v, hv, hpv⟩
    have hB : B.contains ⟨v⟩ = true := by
      rw [← h.mem_keys]
      exact List.contains_iff_exists_mem_beq.mpr ⟨⟨v⟩, List.mem_map_of_mem hv, BEq.rfl⟩
    obtain ⟨b, hb, hvb⟩ := IndexSet.contains_iff.mp hB
    refine ⟨b, hb, (hp _ _ ?_).symm.trans hpv⟩
    rw [BEq.comm, beq_normalizedKey, BEq.comm]
    exact hvb
  · rintro ⟨b, hb, hpb⟩
    have hkeys := (h.mem_keys b).trans (IndexSet.contains_of_mem hb)
    obtain ⟨k, hk, hbk⟩ := List.contains_iff_exists_mem_beq.mp hkeys
    obtain ⟨v, hv, rfl⟩ := List.mem_map.mp hk
    refine ⟨v, hv, (hp _ _ ?_).trans hpb⟩
    rw [BEq.comm, beq_normalizedKey]
    exact hbk

theorem setIsSupersetOf_eq (h : r.Consistent host B ks) :
    setIsSupersetOf A r = .ok (B.items.all A.contains) := by
  unfold setIsSupersetOf
  split
  · next hsize =>
    refine congrArg _ (Eq.symm (Bool.eq_false_iff.mpr fun hall => ?_))
    have hle := IndexSet.length_le_of_contains (List.all_eq_true.mp hall)
    rw [h.size] at hsize
    omega
  · rw [h.keys, iterateRecordKeys_search fun v => !A.contains (normalizedKey v),
      any_keys_iff h (fun k => !A.contains k) fun a b hab => by rw [IndexSet.contains_congr hab],
      List.all_eq_not_any_not]
    cases B.items.any fun k => !A.contains k <;> rfl

theorem setIsDisjointFrom_eq (h : r.Consistent host B ks) :
    setIsDisjointFrom host A r = .ok (!A.items.any B.contains) := by
  unfold setIsDisjointFrom
  split
  · rw [anyM_ok h.has]
    rfl
  · have hcomm : B.items.any A.contains = A.items.any B.contains := by
      rw [Bool.eq_iff_iff]
      simp only [List.any_eq_true, IndexSet.contains_iff]
      constructor
      · rintro ⟨b, hb, a, ha, hba⟩
        exact ⟨a, ha, b, hb, BEq.symm hba⟩
      · rintro ⟨a, ha, b, hb, hab⟩
        exact ⟨b, hb, a, ha, BEq.symm hab⟩
    rw [h.keys, iterateRecordKeys_search fun v => A.contains (normalizedKey v),
      any_keys_iff h A.contains fun a b => IndexSet.contains_congr, hcomm]
    cases A.items.any B.contains <;> rfl

/-- Membership up to equivalence, for every element. -/
theorem all_contains_iff :
    A.items.all B.contains = true ↔ ∀ k, A.contains k = true → B.contains k = true := by
  rw [List.all_eq_true]
  constructor
  · intro hall k hk
    obtain ⟨a, ha, hka⟩ := IndexSet.contains_iff.mp hk
    rw [IndexSet.contains_congr hka]
    exact hall a ha
  · exact fun hsub a ha => hsub a (IndexSet.contains_of_mem ha)

end

/-! ### All seven -/

/-- Each operation is right unless a condition on the arguments holds: that
the receiver stores a negative zero which comes into the result, or, for
the symmetric difference, that a key comes an even number of times. -/
theorem setAlgebra_iff (host : Host) (A B : SetInner) (r : SetRecord) (ks : List JsValue)
    (h : r.Consistent host B ks) :
    (Returns (setUnion A r) (fun k => A.contains k = true ∨ B.contains k = true) ↔
      ¬StoresNegZero A) ∧
    (Returns (setIntersection host A r) (fun k => A.contains k = true ∧ B.contains k = true) ↔
      ¬(StoresNegZero A ∧ B.contains zeroKey = true ∧ A.length ≤ B.length)) ∧
    (Returns (setDifference host A r) (fun k => A.contains k = true ∧ B.contains k = false) ↔
      ¬(StoresNegZero A ∧ B.contains zeroKey = false)) ∧
    (Returns (setSymmetricDifference A r) (fun k =>
        A.contains k = true ∧ B.contains k = false ∨ B.contains k = true ∧ A.contains k = false) ↔
      (∀ k, B.contains k = true → occurrences ks k % 2 = 1) ∧
        ¬(StoresNegZero A ∧ B.contains zeroKey = false)) ∧
    (∃ b, setIsSubsetOf host A r = .ok b ∧
      (b = true ↔ ∀ k, A.contains k = true → B.contains k = true)) ∧
    (∃ b, setIsSupersetOf A r = .ok b ∧
      (b = true ↔ ∀ k, B.contains k = true → A.contains k = true)) ∧
    (∃ b, setIsDisjointFrom host A r = .ok b ∧
      (b = true ↔ ∀ k, ¬(A.contains k = true ∧ B.contains k = true))) := by
  refine ⟨returns_setUnion_iff h, returns_setIntersection_iff h, returns_setDifference_iff h,
    returns_setSymmetricDifference_iff h, ⟨_, setIsSubsetOf_eq h, all_contains_iff⟩,
    ⟨_, setIsSupersetOf_eq h, all_contains_iff⟩, ⟨_, setIsDisjointFrom_eq h, ?_⟩⟩
  rw [Bool.not_eq_true', List.any_eq_false]
  constructor
  · rintro hnone k ⟨hA, hB⟩
    obtain ⟨a, ha, hka⟩ := IndexSet.contains_iff.mp hA
    exact hnone a ha (IndexSet.contains_congr hka ▸ hB)
  · exact fun hnone a ha hB => hnone a ⟨IndexSet.contains_of_mem ha, hB⟩

/-- The set of one value, as an argument that gives it `n` times. -/
def singletonRecord (v : JsValue) (n : Nat) : SetRecord where
  size := 1
  has e := .ok (.bool (sameValueZero e v))
  keys := List.replicate n (.ok v)

def singleton (v : JsValue) : SetInner := IndexSet.empty.insert ⟨v⟩

theorem singletonRecord_consistent (host : Host) (v : JsValue) {n : Nat} (hn : 0 < n) :
    (singletonRecord v n).Consistent host (singleton v) (List.replicate n v) where
  size := rfl
  has e := by
    rw [singleton, IndexSet.contains_insert]
    rfl
  keys := by
    rw [List.map_replicate]
    rfl
  mem_keys k := by
    rw [singleton, IndexSet.contains_insert, List.map_replicate, List.contains_replicate]
    simp [hn.ne', IndexSet.contains, IndexSet.empty]

/-- The argument is the set of one number, given three times. -/
theorem setAlgebra_three_keys :
    Returns (setSymmetricDifference .empty (singletonRecord (.int 1) 3)) (fun k =>
      IndexSet.empty.contains k = true ∧ (singleton (.int 1)).contains k = false ∨
      (singleton (.int 1)).contains k = true ∧ IndexSet.empty.contains k = false) := by
  have hall := setAlgebra_iff silentHost .empty _ _ _
    (singletonRecord_consistent silentHost (.int 1) (n := 3) (by decide))
  refine hall.2.2.2.1.mpr ⟨fun k hk => ?_, fun hneg => ?_⟩
  · rw [singleton, IndexSet.contains_insert] at hk
    have hbeq : (k == SetKey.mk (.int 1)) = true := by
      simpa [IndexSet.contains, IndexSet.empty] using hk
    simp [occurrences, hbeq]
  · obtain ⟨⟨k, hk, -⟩, -⟩ := hneg
    exact absurd hk List.not_mem_nil

/-- A key that comes twice is lost, and `union` keeps the negative zero of
the receiver. -/
theorem setAlgebra_toggles_and_keeps_negative_zero :
    (singletonRecord (.int 1) 2).Consistent silentHost (singleton (.int 1)) [.int 1, .int 1] ∧
    (∃ s, setSymmetricDifference .empty (singletonRecord (.int 1) 2) = .ok s ∧
      s.contains ⟨.int 1⟩ = false) ∧
    ∃ s, setUnion (singleton (.double (-Binary64.ofInt 0))) (singletonRecord (.int 1) 1) = .ok s ∧
      StoresNegZero s := by
  refine ⟨singletonRecord_consistent silentHost (.int 1) (n := 2) (by decide),
    ⟨_, rfl, by decide⟩, _, rfl, ⟨.double (-Binary64.ofInt 0)⟩, ?_, by decide +kernel⟩
  exact List.mem_append_left _ List.mem_cons_self

end OxideJS.Collections
