import OxideJS.Buffer.TypedArray

/-!
Every write of a typed-array operation goes to the live bytes of the
buffer, except that `set` can write through a slice it took before user
code moved the bytes.

Between taking hold of the bytes of a buffer and a write through them, the
calls of user code are `heldActs`. The proof shows of every single write
that it is safe exactly when none of these calls has moved the bytes
(`PerWrite`); for all operations but `set` there are none.
-/

namespace OxideJS.Buffer

open Op

/-- The write lies in the allocation the buffer owns at that moment, within
its length, and within the bounds of the view. -/
structure Write.Safe (w : Write) : Prop where
  owned : ∃ p, w.heap.buffers[w.view.buffer]? = some p ∧ p.storage = w.storage
  live : ∃ len, taBufferByteLength w.heap w.view = some len ∧ w.offset + w.size ≤ len
  above : w.view.byteOffset ≤ w.offset
  below : w.offset + w.size ≤
    w.view.byteOffset + taLiveLength w.heap w.view * w.view.kind.bytesPerElement

def AllSafe (log : List Event) : Prop := ∀ w, .wrote w ∈ log → w.Safe

/-- The calls of user code since the operation last took hold of bytes. -/
def heldActs : List Event → List (Heap × Act)
  | [] => []
  | .took :: _ => []
  | .did h a :: older => (h, a) :: heldActs older
  | .wrote _ :: older => heldActs older

/-- None of the calls moves the bytes of buffer `b`. -/
def Still (acts : List (Heap × Act)) (b : Nat) : Prop := ∀ x ∈ acts, ¬ x.1.Moves b x.2

/-- Whenever an element is written, user code has not moved the bytes of
the buffer since the operation took hold of them. -/
def HeldStill : List Event → Prop
  | [] => True
  | .wrote w :: older => Still (heldActs older) w.view.buffer ∧ HeldStill older
  | .did _ _ :: older => HeldStill older
  | .took :: older => HeldStill older

/-- A write is safe exactly when the bytes have not moved. -/
def PerWrite : List Event → Prop
  | [] => True
  | .wrote w :: older => (w.Safe ↔ Still (heldActs older) w.view.buffer) ∧ PerWrite older
  | .did _ _ :: older => PerWrite older
  | .took :: older => PerWrite older

theorem PerWrite.allSafe_iff_heldStill {log : List Event} (h : PerWrite log) :
    AllSafe log ↔ HeldStill log := by
  induction log with
  | nil => exact ⟨fun _ => trivial, fun _ _ hw => absurd hw List.not_mem_nil⟩
  | cons e older ih =>
    cases e with
    | wrote w =>
      rw [HeldStill, ← ih h.2, ← h.1]
      constructor
      · exact fun hall => ⟨hall w List.mem_cons_self,
          fun w' hw' => hall w' (List.mem_cons_of_mem _ hw')⟩
      · rintro ⟨hw, holder⟩ w' hw'
        rcases List.mem_cons.1 hw' with heq | hmem
        · cases heq
          exact hw
        · exact holder w' hmem
    | did heap a =>
      rw [HeldStill, ← ih h]
      simp [AllSafe]
    | took =>
      rw [HeldStill, ← ih h]
      simp [AllSafe]

/-! ### Bounds -/

theorem taBufferByteLength_of_live {h : Heap} {v : View} {index : Nat}
    (hlive : index < taLiveLength h v) :
    ∃ len, taBufferByteLength h v = some len ∧
      absoluteByteOffset v index + v.kind.bytesPerElement ≤ len := by
  unfold taLiveLength at hlive
  split at hlive
  · exact absurd hlive (Nat.not_lt_zero _)
  · rename_i hin
    unfold taIsOob at hin
    unfold taSpecLength at hlive
    cases hlen : taBufferByteLength h v with
    | none => simp [hlen] at hin
    | some len =>
      simp only [hlen] at hin hlive
      refine ⟨len, rfl, ?_⟩
      have helem : absoluteByteOffset v index + v.kind.bytesPerElement =
          v.byteOffset + (index + 1) * v.kind.bytesPerElement := by
        unfold absoluteByteOffset
        rw [Nat.succ_mul]
        omega
      rw [helem]
      by_cases hauto : v.autoLength = true
      · simp only [hauto, if_true, decide_eq_true_eq] at hin hlive
        have hmul : (index + 1) * v.kind.bytesPerElement ≤ len - v.byteOffset :=
          Nat.le_trans (Nat.mul_le_mul_right _ hlive) (Nat.div_mul_le_self _ _)
        omega
      · rw [Bool.not_eq_true] at hauto
        simp only [hauto, Bool.false_eq_true, if_false, decide_eq_true_eq] at hin hlive
        have hmul : (index + 1) * v.kind.bytesPerElement ≤
            v.length * v.kind.bytesPerElement := Nat.mul_le_mul_right _ hlive
        omega

theorem element_within_view {v : View} {index live : Nat} (hlive : index < live) :
    absoluteByteOffset v index + v.kind.bytesPerElement ≤
      v.byteOffset + live * v.kind.bytesPerElement := by
  have hmul : (index + 1) * v.kind.bytesPerElement ≤ live * v.kind.bytesPerElement :=
    Nat.mul_le_mul_right _ hlive
  rw [Nat.succ_mul] at hmul
  unfold absoluteByteOffset
  omega

/-- An element within the view is written safely by going to the right
allocation. -/
theorem safe_iff_owned {h : Heap} {v : View} {index storage : Nat}
    (hlive : index < taLiveLength h v) :
    (Write.mk storage (absoluteByteOffset v index) v.kind.bytesPerElement v h).Safe ↔
      ∃ p, h.buffers[v.buffer]? = some p ∧ p.storage = storage :=
  ⟨fun hsafe => hsafe.owned, fun howned =>
    ⟨howned, taBufferByteLength_of_live hlive, Nat.le_add_right _ _, element_within_view hlive⟩⟩

/-! ### Holding on to bytes -/

/-- The store was taken from buffer `b`, and refers to its current bytes
exactly if they have not been moved since. -/
def Held (b : Nat) (store : BufferStoreMut) (s : State) : Prop :=
  match store with
  | .ab storage _ =>
    ∃ p, s.heap.buffers[b]? = some (.ab p) ∧ storage ≤ p.storage ∧
      (p.storage = storage ↔ Still (heldActs s.log) b)
  | .sab b' =>
    b' = b ∧ (∃ p, s.heap.buffers[b]? = some (.sab p)) ∧ Still (heldActs s.log) b

theorem still_nil (b : Nat) : Still [] b := fun _ hx => absurd hx List.not_mem_nil

theorem held_take {h : Heap} {b : Nat} {store : BufferStoreMut} {turn : Nat} {log : List Event}
    (hstore : bufferStore h b = some store) : Held b store ⟨h, turn, .took :: log⟩ := by
  unfold bufferStore at hstore
  split at hstore
  · rename_i p hp
    rw [Option.ite_none_left_eq_some] at hstore
    cases hstore.2
    exact ⟨p, hp, Nat.le_refl _, fun _ => still_nil b, fun _ => rfl⟩
  · rename_i p hp
    cases hstore
    exact ⟨rfl, ⟨p, hp⟩, still_nil b⟩
  · cases hstore

theorem still_cons {acts : List (Heap × Act)} {h : Heap} {a : Act} {b : Nat} :
    Still ((h, a) :: acts) b ↔ ¬ h.Moves b a ∧ Still acts b := by
  simp [Still]

variable {newCapacity : Nat → Nat → Nat} {user : Nat → Turn}

theorem Held.act {b : Nat} {store : BufferStoreMut} {s : State} (hheld : Held b store s) (a : Act) :
    Held b store
      { s with heap := s.heap.apply newCapacity a, log := .did s.heap a :: s.log } := by
  cases store with
  | sab b' =>
    obtain ⟨heq, ⟨p, hp⟩, hstill⟩ := hheld
    obtain ⟨p', hp', _⟩ := Heap.apply_sab newCapacity a hp
    refine ⟨heq, ⟨p', hp'⟩, still_cons.2 ⟨fun hm => ?_, hstill⟩⟩
    -- Only the bytes of a plain buffer are ever moved.
    cases a with
    | resize i newLength =>
      obtain ⟨_, q, hq, _⟩ := hm
      rw [hp] at hq
      cases hq
    | _ => exact hm
  | ab storage length =>
    obtain ⟨p, hp, hle, hiff⟩ := hheld
    obtain ⟨p', hp', hmoves, hstays⟩ := Heap.apply_ab newCapacity a hp
    have hfresh : p.storage < s.heap.nextStorage :=
      s.heap.fresh _ (List.mem_of_getElem? hp)
    refine ⟨p', hp', ?_, ?_⟩
    · by_cases hm : s.heap.Moves b a
      · have := hmoves hm
        omega
      · rw [hstays hm]
        exact hle
    · rw [heldActs, still_cons]
      by_cases hm : s.heap.Moves b a
      · -- The new allocation has an identity above every earlier one.
        have hge := hmoves hm
        exact ⟨fun heq => absurd heq (by omega), fun hs => absurd hm hs.1⟩
      · rw [hstays hm, hiff]
        exact ⟨fun hs => ⟨hm, hs⟩, fun hs => hs.2⟩

theorem Held.perform {b : Nat} {store : BufferStoreMut} {s : State} (hheld : Held b store s)
    (acts : List Act) : Held b store (s.perform newCapacity acts) := by
  induction acts generalizing s with
  | nil => exact hheld
  | cons a acts ih => exact ih (hheld.act a)

theorem Held.wrote {b : Nat} {store : BufferStoreMut} {s : State} (hheld : Held b store s)
    (w : Write) : Held b store { s with log := .wrote w :: s.log } := by
  cases store with
  | ab storage length => exact hheld
  | sab b' => exact hheld

/-- A write through a held store goes to the right allocation exactly if
the bytes have not moved. -/
theorem Held.owned_iff {b : Nat} {store : BufferStoreMut} {s : State} {offset size storage : Nat}
    (hheld : Held b store s) (htarget : store.target s.heap offset size = some storage) :
    (∃ p, s.heap.buffers[b]? = some p ∧ p.storage = storage) ↔ Still (heldActs s.log) b := by
  cases store with
  | ab storage' length =>
    obtain ⟨p, hp, _, hiff⟩ := hheld
    rw [BufferStoreMut.target, Option.ite_none_left_eq_some] at htarget
    cases htarget.2
    rw [← hiff, hp]
    constructor
    · rintro ⟨q, hq, hstorage⟩
      cases hq
      exact hstorage
    · exact fun hstorage => ⟨_, rfl, hstorage⟩
  | sab b' =>
    obtain ⟨rfl, ⟨p, hp⟩, hstill⟩ := hheld
    simp only [BufferStoreMut.target, hp, Option.ite_none_left_eq_some,
      Option.some.injEq] at htarget
    exact ⟨fun _ => hstill, fun _ => ⟨_, hp, htarget.2⟩⟩

/-! ### Invariants of operations -/

/-- The step keeps `I`, whether it succeeds or throws. -/
def Preserves {α : Type} (I : State → Prop) (x : Op α) : Prop := ∀ s, I s → I (final (x s))

section Composition

variable {α β : Type} {I : State → Prop}

/-- What follows a step that succeeded may use what the step established. -/
theorem Preserves.bind_of {x : Op α} {f : α → Op β} (hx : Preserves I x)
    (hf : ∀ s a s', I s → x s = .ok a s' → I (final (f a s'))) : Preserves I (x >>= f) := by
  intro s hs
  have hxs := hx s hs
  change I (final (EStateM.bind x f s))
  rw [EStateM.bind]
  cases hrun : x s with
  | ok a s' => exact hf s a s' hs hrun
  | error e s' =>
    rw [hrun] at hxs
    exact hxs

theorem Preserves.bind {x : Op α} {f : α → Op β} (hx : Preserves I x)
    (hf : ∀ a, Preserves I (f a)) : Preserves I (x >>= f) := by
  refine hx.bind_of fun s a s' hs hrun => hf a s' ?_
  have hxs := hx s hs
  rw [hrun] at hxs
  exact hxs

theorem bind_eq_of_ok {x : Op α} {f : α → Op β} {s s' : State} {a : α} (h : x s = .ok a s') :
    (x >>= f) s = f a s' := by
  change EStateM.bind x f s = _
  rw [EStateM.bind, h]

theorem preserves_pure (a : α) : Preserves I (pure a : Op α) := fun _ hs => hs

theorem preserves_fail : Preserves I (fail : Op α) := fun _ hs => hs

theorem preserves_heap : Preserves I heap := fun _ hs => hs

theorem taValidate_cases (v : View) (writable : Bool) (s : State) :
    (taIsOob s.heap v = false ∧ taValidate v writable s = .ok () s) ∨
      taValidate v writable s = .error () s := by
  unfold taValidate
  split
  · exact .inr rfl
  · rename_i hcond
    rw [Bool.or_eq_true, not_or] at hcond
    exact .inl ⟨Bool.eq_false_iff.2 hcond.1, rfl⟩

theorem preserves_taValidate (v : View) (writable : Bool) :
    Preserves I (taValidate v writable) := by
  intro s hs
  rcases taValidate_cases v writable s with ⟨_, hrun⟩ | hrun <;> rw [hrun] <;> exact hs

/-- A property of the state that user code cannot end. -/
def Stable (newCapacity : Nat → Nat → Nat) (I : State → Prop) : Prop :=
  ∀ s turn acts, I s → I (State.perform newCapacity { s with turn := turn } acts)

theorem Stable.userTurn (hI : Stable newCapacity I) :
    Preserves I (userTurn newCapacity user) := by
  intro s hs
  have hperform := hI s (s.turn + 1) (user s.turn).acts hs
  unfold OxideJS.Buffer.userTurn
  dsimp only
  split <;> exact hperform

theorem Stable.numberArg (hI : Stable newCapacity I) (present : Bool)
    (default : IntegerOrInfinity) :
    Preserves I (numberArg newCapacity user present default) := by
  unfold OxideJS.Buffer.numberArg
  split
  · exact hI.userTurn.bind fun t => preserves_pure _
  · exact preserves_pure _

end Composition

/-- Every write so far is safe exactly if its bytes had not moved. -/
def Exact (s : State) : Prop := PerWrite s.log

/-- Moreover, none of them had moved. -/
def Prompt (s : State) : Prop := PerWrite s.log ∧ HeldStill s.log

theorem stable_of_log {P : List Event → Prop} (hP : ∀ h a log, P log → P (.did h a :: log)) :
    Stable newCapacity fun s => P s.log := by
  intro s turn acts hs
  induction acts generalizing s with
  | nil => exact hs
  | cons a acts ih =>
    exact ih { s with heap := s.heap.apply newCapacity a, log := .did s.heap a :: s.log }
      (hP _ _ _ hs)

theorem stable_exact : Stable newCapacity Exact := stable_of_log fun _ _ _ h => h

theorem stable_prompt : Stable newCapacity Prompt := by
  exact stable_of_log (P := fun log => PerWrite log ∧ HeldStill log) fun _ _ _ h => h

/-! ### Writing one element -/

theorem taStoreWrite_cases (store : BufferStoreMut) (v : View) (offset : Nat) (s : State) :
    taStoreWrite store v offset s = .ok () s ∨
      ∃ storage, store.target s.heap offset v.kind.bytesPerElement = some storage ∧
        taStoreWrite store v offset s = .ok ()
          { s with
            log := .wrote ⟨storage, offset, v.kind.bytesPerElement, v, s.heap⟩ :: s.log } := by
  unfold taStoreWrite
  cases htarget : store.target s.heap offset v.kind.bytesPerElement with
  | none => exact .inl rfl
  | some storage => exact .inr ⟨storage, rfl, rfl⟩

theorem taStoreWrite_ok (store : BufferStoreMut) (v : View) (offset : Nat) (s : State) :
    ∃ s', taStoreWrite store v offset s = .ok () s' := by
  rcases taStoreWrite_cases store v offset s with hrun | ⟨_, _, hrun⟩
  · exact ⟨_, hrun⟩
  · exact ⟨_, hrun⟩

/-- The state while an operation holds a store of the buffer of `v`. -/
structure Holding (v : View) (store : BufferStoreMut) (s : State) : Prop where
  exact : Exact s
  held : Held v.buffer store s

theorem Holding.write {v : View} {store : BufferStoreMut} {s : State} {index : Nat}
    (h : Holding v store s) (hlive : index < taLiveLength s.heap v) :
    Holding v store (final (taStoreWrite store v (absoluteByteOffset v index) s)) := by
  rcases taStoreWrite_cases store v (absoluteByteOffset v index) s with hrun | ⟨storage, ht, hrun⟩
  · rw [hrun]
    exact h
  · rw [hrun]
    refine ⟨⟨?_, h.exact⟩, h.held.wrote _⟩
    rw [safe_iff_owned hlive]
    exact h.held.owned_iff ht

theorem Holding.turn {v : View} {store : BufferStoreMut} :
    Stable newCapacity (Holding v store) := by
  intro s turn acts hs
  have hheld : Held v.buffer store { s with turn := turn } := by
    have := hs.held
    cases store <;> exact this
  exact ⟨stable_exact s turn acts hs.exact, hheld.perform acts⟩

/-- As long as user code does not run, the bytes stay where they are. -/
theorem taStoreWrite_prompt (store : BufferStoreMut) (v : View) (offset : Nat) {s : State}
    (hs : HeldStill s.log) (hacts : heldActs s.log = []) :
    HeldStill (final (taStoreWrite store v offset s)).log ∧
      heldActs (final (taStoreWrite store v offset s)).log = [] ∧
      (final (taStoreWrite store v offset s)).heap = s.heap := by
  rcases taStoreWrite_cases store v offset s with hrun | ⟨storage, _, hrun⟩
  · rw [hrun]
    exact ⟨hs, hacts, rfl⟩
  · rw [hrun]
    refine ⟨⟨?_, hs⟩, hacts, rfl⟩
    rw [hacts]
    exact still_nil _

theorem holding_take {v : View} {store : BufferStoreMut} {s : State} (hs : Exact s)
    (hstore : bufferStore s.heap v.buffer = some store) :
    Holding v store { s with log := .took :: s.log } := ⟨hs, held_take hstore⟩

theorem prompt_taWrite (v : View) (index : Nat) : Preserves Prompt (taWrite v index) := by
  intro s hs
  by_cases hlive : index < taLiveLength s.heap v
  · cases hstore : bufferStore s.heap v.buffer with
    | none =>
      have hrun : taWrite v index s = .ok () { s with log := .took :: s.log } := by
        change (if index < taLiveLength s.heap v then _ else _ : Op Unit) s = _
        rw [if_pos hlive]
        change EStateM.bind (bufferStoreMut v.buffer) _ s = _
        rw [EStateM.bind, bufferStoreMut, hstore]
        rfl
      rw [hrun]
      exact hs
    | some store =>
      have hrun : taWrite v index s =
          taStoreWrite store v (absoluteByteOffset v index)
            { s with log := .took :: s.log } := by
        change (if index < taLiveLength s.heap v then _ else _ : Op Unit) s = _
        rw [if_pos hlive]
        change EStateM.bind (bufferStoreMut v.buffer) _ s = _
        rw [EStateM.bind, bufferStoreMut, hstore]
      rw [hrun]
      have hholding := holding_take hs.1 hstore
      refine ⟨(hholding.write hlive).exact, ?_⟩
      exact (taStoreWrite_prompt store v _ (s := { s with log := .took :: s.log }) hs.2 rfl).1
  · have hrun : taWrite v index s = .ok () s := by
      change (if index < taLiveLength s.heap v then _ else _ : Op Unit) s = _
      rw [if_neg hlive]
      rfl
    rw [hrun]
    exact hs

theorem prompt_taWriteAll (v : View) (indices : List Nat) :
    Preserves Prompt (taWriteAll v indices) := by
  induction indices with
  | nil => exact preserves_pure ()
  | cons index rest ih => exact (prompt_taWrite v index).bind fun _ => ih

/-! ### The operations that hold no store over user code -/

/-- An in-bounds view has its full length. -/
theorem taLiveLength_eq {h : Heap} {v : View} (hin : taIsOob h v = false) :
    taLiveLength h v = taSpecLength h v := by
  rw [taLiveLength, hin]
  rfl

theorem prompt_fillLoop {store : BufferStoreMut} {v : View} {start n : Nat} {s : State}
    (hs : Holding v store s) (hstill : HeldStill s.log) (hacts : heldActs s.log = [])
    (hlive : start + n ≤ taLiveLength s.heap v) :
    Prompt (final (fillLoop store v start n s)) := by
  induction n generalizing start s with
  | zero => exact ⟨hs.exact, hstill⟩
  | succ n ih =>
    obtain ⟨s', hrun⟩ := taStoreWrite_ok store v (absoluteByteOffset v start) s
    have hwrite : Holding v store
        (final (taStoreWrite store v (absoluteByteOffset v start) s)) := hs.write (by omega)
    have hprompt := taStoreWrite_prompt store v (absoluteByteOffset v start) hstill hacts
    rw [hrun] at hwrite hprompt
    rw [fillLoop, bind_eq_of_ok hrun]
    refine ih hwrite hprompt.1 hprompt.2.1 ?_
    rw [show s'.heap = s.heap from hprompt.2.2]
    omega

/-- The end of `fill`: the view is in bounds and no more user code runs. -/
theorem prompt_fillStore (v : View) (start stop : Nat) (s : State) (hs : Prompt s)
    (hin : taIsOob s.heap v = false) (hstop : stop ≤ taSpecLength s.heap v) :
    Prompt (final ((do
      match ← bufferStoreMut v.buffer with
      | some store => fillLoop store v start (stop - start)
      | none => pure () : Op Unit) s)) := by
  change Prompt (final (EStateM.bind (bufferStoreMut v.buffer) _ s))
  rw [EStateM.bind, bufferStoreMut]
  cases hstore : bufferStore s.heap v.buffer with
  | none => exact hs
  | some store =>
    by_cases hempty : stop ≤ start
    · rw [Nat.sub_eq_zero_of_le hempty]
      exact hs
    · refine prompt_fillLoop (holding_take hs.1 hstore) hs.2 rfl ?_
      change start + (stop - start) ≤ taLiveLength s.heap v
      rw [taLiveLength_eq hin]
      omega

theorem prompt_typedArrayFill (v : View) (hasStart hasEnd : Bool) :
    Preserves Prompt (typedArrayFill newCapacity user v hasStart hasEnd) := by
  refine (preserves_taValidate v true).bind fun _ => preserves_heap.bind fun h₀ => ?_
  refine stable_prompt.userTurn.bind fun _ => ?_
  refine (stable_prompt.numberArg _ _).bind fun startRaw => ?_
  refine (stable_prompt.numberArg _ _).bind fun endRaw => ?_
  refine (preserves_taValidate v true).bind_of fun s _ s' hs hrun => ?_
  rcases taValidate_cases v true s with ⟨hin, hok⟩ | herror
  · rw [hok] at hrun
    cases hrun
    exact prompt_fillStore v _ _ s hs hin (Nat.min_le_right _ _)
  · rw [herror] at hrun
    cases hrun

theorem prompt_typedArraySpeciesCreate (v : View) (expectLen : Nat) :
    Preserves Prompt (typedArraySpeciesCreate newCapacity user v expectLen) := by
  refine stable_prompt.userTurn.bind fun _ => stable_prompt.userTurn.bind fun _ => ?_
  refine stable_prompt.userTurn.bind fun t => ?_
  refine (preserves_taValidate _ _).bind fun _ => preserves_heap.bind fun h => ?_
  split
  · exact preserves_fail.bind fun _ => preserves_pure _
  · exact preserves_pure _

theorem prompt_sliceLoop (v target : View) (start k n : Nat) :
    Preserves Prompt (sliceLoop v target start k n) := by
  induction n generalizing k with
  | zero => exact preserves_pure ()
  | succ n ih =>
    refine preserves_heap.bind fun h => ?_
    split
    · refine Preserves.bind ?_ fun _ => ih (k + 1)
      unfold setTypedArrayElement
      split
      · exact prompt_taWrite target k
      · exact preserves_fail
    · exact ih (k + 1)

theorem prompt_typedArraySlice (v : View) (hasStart hasEnd : Bool) :
    Preserves Prompt (typedArraySlice newCapacity user v hasStart hasEnd) := by
  refine (preserves_taValidate v false).bind fun _ => preserves_heap.bind fun h₀ => ?_
  refine (stable_prompt.numberArg _ _).bind fun startRaw => ?_
  refine (stable_prompt.numberArg _ _).bind fun endRaw => ?_
  refine (prompt_typedArraySpeciesCreate v _).bind fun target => ?_
  split
  · exact (preserves_taValidate v false).bind fun _ => prompt_sliceLoop v target _ _ _
  · exact preserves_pure ()

theorem prompt_typedArrayCopyWithin (v : View) (hasTarget hasStart hasEnd : Bool) :
    Preserves Prompt (typedArrayCopyWithin newCapacity user v hasTarget hasStart hasEnd) := by
  refine (preserves_taValidate v true).bind fun _ => preserves_heap.bind fun h₀ => ?_
  refine (stable_prompt.numberArg _ _).bind fun targetRaw => ?_
  refine (stable_prompt.numberArg _ _).bind fun startRaw => ?_
  refine (stable_prompt.numberArg _ _).bind fun endRaw => ?_
  dsimp only
  split
  · refine (preserves_taValidate v true).bind fun _ => preserves_heap.bind fun h => ?_
    exact prompt_taWriteAll v _
  · exact preserves_pure ()

theorem prompt_compareTurns (n : Nat) : Preserves Prompt (compareTurns newCapacity user n) := by
  induction n with
  | zero => exact preserves_pure ()
  | succ n ih => exact stable_prompt.userTurn.bind fun _ => ih

theorem prompt_typedArraySort (v : View) (comparisons : Nat) :
    Preserves Prompt (typedArraySort newCapacity user v comparisons) := by
  refine (preserves_taValidate v true).bind fun _ => preserves_heap.bind fun h => ?_
  exact (prompt_compareTurns comparisons).bind fun _ => prompt_taWriteAll v _

/-! ### `set` -/

/-- Reading one source element runs user code and nothing else. -/
theorem Stable.setElementValue {I : State → Prop} (hI : Stable newCapacity I) (v : View)
    (source : Source) : Preserves I (setElementValue newCapacity user v source) := by
  unfold OxideJS.Buffer.setElementValue
  split
  · split
    · exact preserves_pure ()
    · exact preserves_fail
  · exact hI.userTurn.bind fun _ => hI.userTurn.bind fun _ => preserves_pure ()

theorem holding_setLoop {v : View} {store : BufferStoreMut} (source : Source) (index n : Nat) :
    Preserves (Holding v store) (setLoop newCapacity user v source (some store) index n) := by
  induction n generalizing index with
  | zero => exact preserves_pure ()
  | succ n ih =>
    refine (Holding.turn.setElementValue v source).bind fun _ =>
      preserves_heap.bind_of fun s h s' hs hrun => ?_
    cases hrun
    split
    · rename_i hlive
      obtain ⟨s', hrun⟩ := taStoreWrite_ok store v (absoluteByteOffset v (index % 2 ^ 64)) s
      have hwrite : Holding v store
          (final (taStoreWrite store v (absoluteByteOffset v (index % 2 ^ 64)) s)) :=
        hs.write hlive
      rw [hrun] at hwrite
      change Holding v store
        (final ((taStoreWrite store v (absoluteByteOffset v (index % 2 ^ 64)) >>=
          fun _ => setLoop newCapacity user v source (some store) (index + 1) n) s))
      rw [bind_eq_of_ok hrun]
      exact ih (index + 1) s' hwrite
    · exact ih (index + 1) s hs

/-- A detached buffer is never written. -/
theorem exact_setLoop_none (v : View) (source : Source) (index n : Nat) :
    Preserves Exact (setLoop newCapacity user v source none index n) := by
  induction n generalizing index with
  | zero => exact preserves_pure ()
  | succ n ih =>
    refine (stable_exact.setElementValue v source).bind fun _ => preserves_heap.bind fun h => ?_
    split
    · exact ih (index + 1)
    · exact ih (index + 1)

theorem exact_setSourceLength (source : Source) :
    Preserves Exact (setSourceLength newCapacity user source) := by
  cases source with
  | missing => exact preserves_fail
  | nullish => exact preserves_fail
  | typedArray sv =>
    exact (preserves_taValidate sv false).bind fun _ =>
      preserves_heap.bind fun h => preserves_pure _
  | arrayLike => exact stable_exact.userTurn.bind fun t => preserves_pure _

/-- The end of `set`: the store is taken and the loop runs. -/
theorem exact_setStore (v : View) (source : Source) (offset n : Nat) :
    Preserves Exact (do
      let store ← bufferStoreMut v.buffer
      setLoop newCapacity user v source store offset n) := by
  intro s hs
  have hrun : bufferStoreMut v.buffer s =
      .ok (bufferStore s.heap v.buffer) { s with log := .took :: s.log } := rfl
  rw [bind_eq_of_ok hrun]
  cases hstore : bufferStore s.heap v.buffer with
  | none => exact exact_setLoop_none v source offset n _ hs
  | some store => exact (holding_setLoop source offset n _ (holding_take hs hstore)).exact

theorem exact_typedArraySet (v : View) (source : Source) (hasOffset : Bool) :
    Preserves Exact (typedArraySet newCapacity user v source hasOffset) := by
  unfold typedArraySet
  split
  · exact preserves_fail.bind_of fun s _ s' _ hrun => by cases hrun
  refine (preserves_taValidate v true).bind fun _ => ?_
  refine (stable_exact.numberArg _ _).bind fun offset => ?_
  cases offset with
  | negInf => exact preserves_fail
  | posInf => exact preserves_fail
  | int z =>
    dsimp only
    split
    · exact preserves_fail
    refine (preserves_taValidate v true).bind fun _ => preserves_heap.bind fun h => ?_
    refine (exact_setSourceLength source).bind fun sourceLen => ?_
    split
    · exact preserves_fail
    · exact exact_setStore v source _ sourceLen

/-! ### All operations -/

theorem prompt_writeTypedArrayElement (v : View) (index : Nat) :
    Preserves Prompt (writeTypedArrayElement newCapacity user v index) :=
  stable_prompt.userTurn.bind fun _ => prompt_taWrite v index

/-- `set` is the one operation that calls user code while it holds bytes. -/
def Operation.IsSet : Operation → Prop
  | .set _ _ _ => True
  | _ => False

theorem Operation.prompt_steps {op : Operation} (hop : ¬ op.IsSet) :
    Preserves Prompt (op.steps newCapacity user) := by
  cases op with
  | set v source hasOffset => exact absurd trivial hop
  | fill v hasStart hasEnd => exact prompt_typedArrayFill v hasStart hasEnd
  | slice v hasStart hasEnd => exact prompt_typedArraySlice v hasStart hasEnd
  | copyWithin v hasTarget hasStart hasEnd =>
    exact prompt_typedArrayCopyWithin v hasTarget hasStart hasEnd
  | sort v comparisons => exact prompt_typedArraySort v comparisons
  | assign v index => exact prompt_writeTypedArrayElement v index

/-- The writes of an operation are all safe exactly if it is not a `set`
whose user code moves the bytes of the target between two elements. -/
theorem allSafe_iff (newCapacity : Nat → Nat → Nat) (user : Nat → Turn) (op : Operation)
    (h : Heap) :
    AllSafe (op.log newCapacity user h) ↔
      (op.IsSet → HeldStill (op.log newCapacity user h)) := by
  by_cases hop : op.IsSet
  · cases op with
    | set v source hasOffset =>
      have hexact : PerWrite ((Operation.set v source hasOffset).log newCapacity user h) :=
        exact_typedArraySet v source hasOffset ⟨h, 0, []⟩ trivial
      rw [hexact.allSafe_iff_heldStill]
      exact ⟨fun hstill _ => hstill, fun hstill => hstill hop⟩
    | fill | slice | copyWithin | sort | assign => exact absurd hop id
  · have hprompt : Prompt (final (op.steps newCapacity user ⟨h, 0, []⟩)) :=
      Operation.prompt_steps hop ⟨h, 0, []⟩ ⟨trivial, trivial⟩
    exact ⟨fun _ hset => absurd hset hop, fun _ => hprompt.1.allSafe_iff_heldStill.2 hprompt.2⟩

/-! ### The write through a stale slice -/

/-- One buffer of four bytes that may grow to sixteen. -/
def growingHeap : Heap where
  buffers := [.ab ⟨0, 4, 4, false, 17, false⟩]
  nextStorage := 1
  fresh := by simp [Payload.storage]

def growingView : View := ⟨0, 0, 0, true, .uint8⟩

/-- The source has length 1, and the getter of its element resizes the
buffer to sixteen bytes. -/
def growingSource : Nat → Turn
  | 0 => ⟨[], false, .int 1, growingView⟩
  | 1 => ⟨[.resize 0 16], false, .int 1, growingView⟩
  | _ => ⟨[], false, .int 1, growingView⟩

/-- `set` then writes to the allocation the buffer has left. -/
theorem set_writes_stale_storage :
    ∃ w, .wrote w ∈ (Operation.set growingView .arrayLike false).log max growingSource
        growingHeap ∧
      w.storage = 0 ∧ (w.heap.buffers.map Payload.storage) = [1] ∧ ¬ w.Safe := by
  refine ⟨⟨0, 0, 1, growingView, growingHeap.apply max (.resize 0 16)⟩,
    List.mem_cons_self, rfl, rfl, ?_⟩
  intro hsafe
  obtain ⟨p, hp, hstorage⟩ := hsafe.owned
  cases hp
  cases hstorage

end OxideJS.Buffer
