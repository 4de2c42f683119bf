import Mathlib.Data.List.Basic

/-!
Array buffers and what user code can do to them.

The bytes of a buffer are stood for by the allocation they are in: an
identity, a capacity and a live length. Growing a vector beyond its
capacity moves the bytes to a new allocation and frees the old one;
shrinking it, clearing it and growing it within the capacity do not. The
bytes of a shared buffer are allocated once, to the maximal length.

Identities are handed out in order, and every buffer carries one that has
been handed out.
-/

namespace OxideJS.Buffer

/-- The payload of an `ArrayBuffer`. `maxByteLength` is zero for a buffer
of fixed length and one more than the limit otherwise. -/
structure ArrayBufferPayload where
  storage : Nat
  capacity : Nat
  length : Nat
  detached : Bool
  maxByteLength : Nat
  immutable : Bool
  deriving DecidableEq

structure SharedArrayBufferPayload where
  storage : Nat
  length : Nat
  maxLength : Nat
  growable : Bool
  deriving DecidableEq

inductive Payload where
  | ab (payload : ArrayBufferPayload)
  | sab (payload : SharedArrayBufferPayload)
  deriving DecidableEq

def Payload.storage : Payload → Nat
  | .ab p => p.storage
  | .sab p => p.storage

/-- What `transfer` and its variants keep of the source. -/
inductive TransferKeep where
  | preserve | fixed | immutable
  deriving DecidableEq

/-- The calls of user code that bear on buffers. -/
inductive Act where
  | create (length capacity maxByteLength : Nat)
  | createShared (length maxLength : Nat) (growable : Bool)
  | resize (buffer newLength : Nat)
  | grow (buffer newLength : Nat)
  | transfer (buffer newLength : Nat) (keep : TransferKeep)
  | detach (buffer : Nat)
  | markImmutable (buffer : Nat)
  deriving DecidableEq

section Payloads

variable (newCapacity : Nat → Nat → Nat)

/-- The guards of `resize`. -/
def ArrayBufferPayload.AcceptsResize (p : ArrayBufferPayload) (newLength : Nat) : Prop :=
  p.immutable = false ∧ p.detached = false ∧ p.maxByteLength ≠ 0 ∧ newLength ≤ p.maxByteLength - 1

instance (p : ArrayBufferPayload) (newLength : Nat) : Decidable (p.AcceptsResize newLength) :=
  inferInstanceAs (Decidable (_ ∧ _))

/-- `Vec::resize`, with `fresh` the allocation used if the capacity does
not suffice. -/
def ArrayBufferPayload.resizeBytes (p : ArrayBufferPayload) (newLength fresh : Nat) :
    ArrayBufferPayload :=
  if p.capacity < newLength then
    { p with
      storage := fresh
      capacity := newCapacity p.capacity newLength
      length := newLength }
  else { p with length := newLength }

def Payload.resize (newLength : Nat) (payload : Payload) (fresh : Nat) : Payload :=
  match payload with
  | .ab p =>
    if p.AcceptsResize newLength then .ab (p.resizeBytes newCapacity newLength fresh) else .ab p
  | .sab p => .sab p

def Payload.grow (newLength : Nat) (payload : Payload) (_fresh : Nat) : Payload :=
  match payload with
  | .ab p => .ab p
  | .sab p =>
    if p.growable = true ∧ p.length ≤ newLength ∧ newLength ≤ p.maxLength then
      .sab { p with length := newLength }
    else .sab p

def Payload.detach (payload : Payload) (_fresh : Nat) : Payload :=
  match payload with
  | .ab p => .ab { p with length := 0, detached := true }
  | .sab p => .sab p

def Payload.markImmutable (payload : Payload) (_fresh : Nat) : Payload :=
  match payload with
  | .ab p => .ab { p with immutable := true }
  | .sab p => .sab p

/-- The guards of `transfer` and its variants. -/
def ArrayBufferPayload.AcceptsTransfer (p : ArrayBufferPayload) (newLength : Nat)
    (keep : TransferKeep) : Prop :=
  p.detached = false ∧ p.immutable = false ∧
    ¬ (keep = .preserve ∧ p.maxByteLength ≠ 0 ∧ p.maxByteLength - 1 < newLength)

instance (p : ArrayBufferPayload) (newLength : Nat) (keep : TransferKeep) :
    Decidable (p.AcceptsTransfer newLength keep) :=
  inferInstanceAs (Decidable (_ ∧ _ ∧ _))

def ArrayBufferPayload.transferred (p : ArrayBufferPayload) (newLength : Nat)
    (keep : TransferKeep) (fresh : Nat) : ArrayBufferPayload where
  storage := fresh
  capacity := newLength
  length := newLength
  detached := false
  maxByteLength := if keep = .preserve then p.maxByteLength else 0
  immutable := decide (keep = .immutable)

end Payloads

/-! ### The heap -/

structure Heap where
  buffers : List Payload
  nextStorage : Nat
  fresh : ∀ p ∈ buffers, p.storage < nextStorage

namespace Heap

/-- Changes one buffer, with an allocation for it to use. -/
def modify (h : Heap) (b : Nat) (f : Payload → Nat → Payload)
    (hf : ∀ p n, p.storage < n → (f p n).storage < n + 1) : Heap where
  buffers := h.buffers.modify b fun p => f p h.nextStorage
  nextStorage := h.nextStorage + 1
  fresh p hp := by
    obtain ⟨i, hi⟩ := List.mem_iff_getElem?.1 hp
    rw [List.getElem?_modify] at hi
    obtain ⟨q, hq, rfl⟩ := Option.map_eq_some_iff.1 hi
    have hlt := h.fresh q (List.mem_of_getElem? hq)
    split
    · exact hf q _ hlt
    · exact Nat.lt_succ_of_lt hlt

/-- Adds a buffer with an allocation of its own. -/
def push (h : Heap) (mk : Nat → Payload) (hmk : ∀ n, (mk n).storage = n) : Heap where
  buffers := h.buffers ++ [mk h.nextStorage]
  nextStorage := h.nextStorage + 1
  fresh p hp := by
    rcases List.mem_append.1 hp with hp | hp
    · exact Nat.lt_succ_of_lt (h.fresh p hp)
    · rw [List.mem_singleton.1 hp, hmk]
      exact Nat.lt_succ_self _

end Heap

theorem Payload.storage_resize (newCapacity : Nat → Nat → Nat) (newLength : Nat) (p : Payload)
    (n : Nat) (h : p.storage < n) : (p.resize newCapacity newLength n).storage < n + 1 := by
  cases p with
  | sab p => exact Nat.lt_succ_of_lt h
  | ab p =>
    unfold resize
    dsimp only
    split
    · unfold ArrayBufferPayload.resizeBytes
      split
      · exact Nat.lt_succ_self n
      · exact Nat.lt_succ_of_lt h
    · exact Nat.lt_succ_of_lt h

theorem Payload.storage_grow (newLength : Nat) (p : Payload) (n : Nat) (h : p.storage < n) :
    (p.grow newLength n).storage < n + 1 := by
  cases p with
  | ab p => exact Nat.lt_succ_of_lt h
  | sab p =>
    unfold grow
    dsimp only
    split <;> exact Nat.lt_succ_of_lt h

theorem Payload.storage_detach (p : Payload) (n : Nat) (h : p.storage < n) :
    (p.detach n).storage < n + 1 := by
  cases p <;> exact Nat.lt_succ_of_lt h

theorem Payload.storage_markImmutable (p : Payload) (n : Nat) (h : p.storage < n) :
    (p.markImmutable n).storage < n + 1 := by
  cases p <;> exact Nat.lt_succ_of_lt h

theorem Payload.storage_transferred (p : ArrayBufferPayload) (newLength : Nat)
    (keep : TransferKeep) (n : Nat) : (Payload.ab (p.transferred newLength keep n)).storage = n :=
  rfl

/-- A call of user code. One that throws leaves the buffers alone. -/
def Heap.apply (newCapacity : Nat → Nat → Nat) (h : Heap) : Act → Heap
  | .create length capacity maxByteLength =>
    h.push (fun fresh => .ab ⟨fresh, capacity, length, false, maxByteLength, false⟩) fun _ => rfl
  | .createShared length maxLength growable =>
    h.push (fun fresh => .sab ⟨fresh, length, maxLength, growable⟩) fun _ => rfl
  | .resize b newLength =>
    h.modify b (Payload.resize newCapacity newLength)
      (Payload.storage_resize newCapacity newLength)
  | .grow b newLength => h.modify b (Payload.grow newLength) (Payload.storage_grow newLength)
  | .transfer b newLength keep =>
    match h.buffers[b]? with
    | some (.ab p) =>
      if p.AcceptsTransfer newLength keep then
        (h.push (fun fresh => .ab (p.transferred newLength keep fresh))
          (Payload.storage_transferred p newLength keep)).modify b
          Payload.detach Payload.storage_detach
      else h
    | _ => h
  | .detach b => h.modify b Payload.detach Payload.storage_detach
  | .markImmutable b => h.modify b Payload.markImmutable Payload.storage_markImmutable

/-- The call moves the bytes of buffer `b` to a new allocation. -/
def Heap.Moves (h : Heap) (b : Nat) : Act → Prop
  | .resize b' newLength =>
    b' = b ∧ ∃ p, h.buffers[b]? = some (.ab p) ∧ p.AcceptsResize newLength ∧
      p.capacity < newLength
  | _ => False

/-! ### What happens to one buffer -/

theorem Heap.getElem?_push {h : Heap} {mk : Nat → Payload} {hmk : ∀ n, (mk n).storage = n}
    {b : Nat} {p : Payload} (hb : h.buffers[b]? = some p) :
    (h.push mk hmk).buffers[b]? = some p := by
  have hlt : b < h.buffers.length := (List.getElem?_eq_some_iff.1 hb).1
  rw [push, List.getElem?_append_left hlt]
  exact hb

theorem Heap.getElem?_modify {h : Heap} {f : Payload → Nat → Payload}
    {hf : ∀ p n, p.storage < n → (f p n).storage < n + 1} {b i : Nat} {p : Payload}
    (hb : h.buffers[b]? = some p) :
    (h.modify i f hf).buffers[b]? = some (if i = b then f p h.nextStorage else p) := by
  rw [modify, List.getElem?_modify, hb]
  rfl

/-- A plain buffer stays one. Its bytes stay where they are unless the call
moves them, and then they go to an allocation never used before. -/
theorem Heap.apply_ab (newCapacity : Nat → Nat → Nat) {h : Heap} {b : Nat}
    {p : ArrayBufferPayload} (a : Act) (hb : h.buffers[b]? = some (.ab p)) :
    ∃ p', (h.apply newCapacity a).buffers[b]? = some (.ab p') ∧
      (h.Moves b a → h.nextStorage ≤ p'.storage) ∧ (¬ h.Moves b a → p'.storage = p.storage) := by
  cases a with
  | create length capacity maxByteLength =>
    exact ⟨p, getElem?_push hb, fun hm => hm.elim, fun _ => rfl⟩
  | createShared length maxLength growable =>
    exact ⟨p, getElem?_push hb, fun hm => hm.elim, fun _ => rfl⟩
  | grow i newLength =>
    refine ⟨p, ?_, fun hm => hm.elim, fun _ => rfl⟩
    rw [apply, getElem?_modify hb]
    split <;> rfl
  | detach i =>
    rw [apply, getElem?_modify hb]
    split
    · exact ⟨{ p with length := 0, detached := true }, rfl, fun hm => hm.elim, fun _ => rfl⟩
    · exact ⟨p, rfl, fun hm => hm.elim, fun _ => rfl⟩
  | markImmutable i =>
    rw [apply, getElem?_modify hb]
    split
    · exact ⟨{ p with immutable := true }, rfl, fun hm => hm.elim, fun _ => rfl⟩
    · exact ⟨p, rfl, fun hm => hm.elim, fun _ => rfl⟩
  | transfer i newLength keep =>
    rw [apply]
    split
    · split
      · rw [getElem?_modify (getElem?_push hb)]
        split
        · exact ⟨{ p with length := 0, detached := true }, rfl, fun hm => hm.elim, fun _ => rfl⟩
        · exact ⟨p, rfl, fun hm => hm.elim, fun _ => rfl⟩
      · exact ⟨p, hb, fun hm => hm.elim, fun _ => rfl⟩
    · exact ⟨p, hb, fun hm => hm.elim, fun _ => rfl⟩
  | resize i newLength =>
    rw [apply, getElem?_modify hb]
    by_cases hi : i = b
    · rw [if_pos hi, Payload.resize]
      by_cases haccepts : p.AcceptsResize newLength
      · rw [if_pos haccepts]
        refine ⟨_, rfl, ?_, ?_⟩
        · rintro ⟨_, q, hq, _, hlt⟩
          rw [hb] at hq
          cases hq
          simp only [ArrayBufferPayload.resizeBytes, if_pos hlt, Nat.le_refl]
        · intro hstays
          have hge : ¬ p.capacity < newLength := fun hlt =>
            hstays ⟨hi, p, hb, haccepts, hlt⟩
          rw [ArrayBufferPayload.resizeBytes, if_neg hge]
      · rw [if_neg haccepts]
        refine ⟨p, rfl, ?_, fun _ => rfl⟩
        rintro ⟨_, q, hq, hq', _⟩
        rw [hb] at hq
        cases hq
        exact absurd hq' haccepts
    · rw [if_neg hi]
      exact ⟨p, rfl, fun hm => absurd hm.1 hi, fun _ => rfl⟩

theorem Heap.apply_sab (newCapacity : Nat → Nat → Nat) {h : Heap} {b : Nat}
    {p : SharedArrayBufferPayload} (a : Act) (hb : h.buffers[b]? = some (.sab p)) :
    ∃ p', (h.apply newCapacity a).buffers[b]? = some (.sab p') ∧ p'.storage = p.storage := by
  cases a with
  | create length capacity maxByteLength => exact ⟨p, getElem?_push hb, rfl⟩
  | createShared length maxLength growable => exact ⟨p, getElem?_push hb, rfl⟩
  | resize i newLength =>
    refine ⟨p, ?_, rfl⟩
    rw [apply, getElem?_modify hb]
    split <;> rfl
  | detach i =>
    refine ⟨p, ?_, rfl⟩
    rw [apply, getElem?_modify hb]
    split <;> rfl
  | markImmutable i =>
    refine ⟨p, ?_, rfl⟩
    rw [apply, getElem?_modify hb]
    split <;> rfl
  | grow i newLength =>
    rw [apply, getElem?_modify hb]
    split
    · rw [Payload.grow]
      split
      · exact ⟨{ p with length := newLength }, rfl, rfl⟩
      · exact ⟨p, rfl, rfl⟩
    · exact ⟨p, rfl, rfl⟩
  | transfer i newLength keep =>
    refine ⟨p, ?_, rfl⟩
    rw [apply]
    split
    · split
      · rw [getElem?_modify (getElem?_push hb)]
        split <;> rfl
      · exact hb
    · exact hb

end OxideJS.Buffer
