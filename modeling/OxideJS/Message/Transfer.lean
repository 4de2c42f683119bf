import Mathlib.Data.Fin.VecNotation
import Mathlib.Data.Fintype.Card
import Mathlib.Data.List.TakeWhile

/-!
Moving buffers into a message.

The heap of a message is a graph of `n` objects. `detach_message` walks it
in depth, refuses an object that is on its own path and visits an object
again that is reached on two paths. A buffer of the transfer list is taken
when it is visited.
-/

namespace OxideJS.Message

/-- A value in the heap; of a primitive value only its message is kept. -/
inductive Value (n : Nat) where
  | primitive (tag : Nat)
  | object (id : Fin n)
  deriving DecidableEq

inductive Container where
  | array | plain | map | set | error
  deriving DecidableEq

/-- An object by what `detach_object` does with it. The children of a map are its keys and values
in turn, those of an error its cause. -/
inductive Node (n : Nat) where
  /-- Boxed primitives, dates and regular expressions. -/
  | atom (tag : Nat)
  | arrayBuffer
  | container (kind : Container) (children : List (Value n))
  | uncloneable (reason : String)
  deriving DecidableEq

structure Payload where
  bytes : List UInt8
  detached : Bool
  deriving DecidableEq

inductive MessageValue where
  | atom (tag : Nat)
  | arrayBuffer (bytes : List UInt8)
  | container (kind : Container) (children : List MessageValue)

variable {n : Nat}

/-- The payloads of the buffers. -/
abbrev Buffers (n : Nat) := Fin n → Payload

/-- The payload of a buffer that is moved out. -/
def Buffers.take (s : Buffers n) (b : Fin n) : Buffers n :=
  fun c => if c = b then ⟨[], true⟩ else s c

abbrev Result (α : Type) (n : Nat) := Except String α × Buffers n

def detachArrayBuffer (transfer : List (Fin n)) (b : Fin n) (s : Buffers n) :
    Result MessageValue n :=
  if b ∈ transfer then
    if (s b).detached then (.error "detached buffer in transfer list", s)
    else (.ok (.arrayBuffer (s b).bytes), s.take b)
  else if (s b).detached then (.error "detached ArrayBuffer is not cloneable", s)
  else (.ok (.arrayBuffer (s b).bytes), s)

/-- The loops over elements, entries and properties: the first failure ends them. -/
def detachAll (detach : Value n → Buffers n → Result MessageValue n) :
    List (Value n) → Buffers n → Result (List MessageValue) n
  | [], s => (.ok [], s)
  | v :: vs, s =>
    match detach v s with
    | (.error e, s) => (.error e, s)
    | (.ok m, s) =>
      match detachAll detach vs s with
      | (.error e, s) => (.error e, s)
      | (.ok ms, s) => (.ok (m :: ms), s)

/-- The path has at most `n` objects, and `fuel` counts those not on it: where it is used up, every
object is on the path. -/
def detachValue (nodes : Fin n → Node n) (transfer : List (Fin n)) :
    Nat → List (Fin n) → Value n → Buffers n → Result MessageValue n
  | _, _, .primitive tag, s => (.ok (.atom tag), s)
  | 0, _, .object _, s => (.error "circular structure is not cloneable", s)
  | fuel + 1, onStack, .object id, s =>
    if id ∈ onStack then (.error "circular structure is not cloneable", s)
    else
      match nodes id with
      | .atom tag => (.ok (.atom tag), s)
      | .arrayBuffer => detachArrayBuffer transfer id s
      | .uncloneable reason => (.error reason, s)
      | .container kind children =>
        match detachAll (detachValue nodes transfer fuel (id :: onStack)) children s with
        | (.error e, s) => (.error e, s)
        | (.ok ms, s) => (.ok (.container kind ms), s)

def detachMessage (nodes : Fin n → Node n) (transfer : List (Fin n)) (v : Value n)
    (s : Buffers n) : Result MessageValue n :=
  detachValue nodes transfer n [] v s

/-- Every object is on a path of `n` different ones. -/
theorem mem_onStack_of_length {onStack : List (Fin n)} (hnodup : onStack.Nodup)
    (hlength : onStack.length = n) (id : Fin n) : id ∈ onStack := by
  have hcard : onStack.toFinset.card = Fintype.card (Fin n) := by
    rw [List.toFinset_card_of_nodup hnodup, hlength, Fintype.card_fin]
  rw [← List.mem_toFinset, (Finset.card_eq_iff_eq_univ _).mp hcard]
  exact Finset.mem_univ id

/-- With every object on the path, more fuel would change nothing. -/
theorem detachValue_exhausted (nodes : Fin n → Node n) (transfer : List (Fin n))
    {onStack : List (Fin n)} (hnodup : onStack.Nodup) (hlength : onStack.length = n) (fuel : Nat)
    (v : Value n) (s : Buffers n) :
    detachValue nodes transfer fuel onStack v s = detachValue nodes transfer 0 onStack v s := by
  cases fuel with
  | zero => rfl
  | succ fuel =>
    cases v with
    | primitive tag => rfl
    | object id =>
      rw [detachValue, detachValue]
      exact if_pos (mem_onStack_of_length hnodup hlength id)

/-! ### What is asked of a transfer -/

inductive Visit (n : Nat) where
  | buffer (b : Fin n)
  | refused
  deriving DecidableEq

/-- The buffers and the values that cannot be cloned, in the order of the walk. -/
def visits (nodes : Fin n → Node n) : Nat → List (Fin n) → Value n → List (Visit n)
  | _, _, .primitive _ => []
  | 0, _, .object _ => [.refused]
  | fuel + 1, onStack, .object id =>
    if id ∈ onStack then [.refused]
    else
      match nodes id with
      | .atom _ => []
      | .arrayBuffer => [.buffer id]
      | .uncloneable _ => [.refused]
      | .container _ children => children.flatMap (visits nodes fuel (id :: onStack))

mutual

/-- The bytes of the buffers of a message. -/
def MessageValue.carried : MessageValue → List (List UInt8)
  | .atom _ => []
  | .arrayBuffer bytes => [bytes]
  | .container _ children => carriedAll children

def carriedAll : List MessageValue → List (List UInt8)
  | [] => []
  | m :: ms => m.carried ++ carriedAll ms

end

/-- The buffers visited. -/
def Visit.buffer? : Visit n → Option (Fin n)
  | .buffer b => some b
  | .refused => none

/-- The outcome of `detach_message` is all or nothing for the transfer list. -/
def AllOrNothing (nodes : Fin n → Node n) (transfer : List (Fin n)) (v : Value n)
    (s : Buffers n) : Prop :=
  match detachMessage nodes transfer v s with
  | (.error _, t) => ∀ b ∈ transfer, t b = s b
  | (.ok m, t) =>
    (∀ b ∈ transfer, (t b).detached = true) ∧
    m.carried = ((visits nodes n [] v).filterMap Visit.buffer?).map fun b => (s b).bytes

/-- A value that cannot be cloned, whatever is transferred before. -/
def Visit.uncloneable (transfer : List (Fin n)) (s : Buffers n) : Visit n → Bool
  | .buffer b => decide (b ∉ transfer) && (s b).detached
  | .refused => true

/-- The transferred buffers that are visited before the first value that cannot be cloned. -/
def taken (transfer : List (Fin n)) (s : Buffers n) (vs : List (Visit n)) : List (Fin n) :=
  ((vs.takeWhile fun v => !v.uncloneable transfer s).filterMap Visit.buffer?).filter
    (decide <| · ∈ transfer)

/-- A value that cannot be cloned comes before all buffers of the list, or there is none and every
buffer of the list occurs once. -/
def InOrder (transfer : List (Fin n)) (s : Buffers n) (vs : List (Visit n)) : Prop :=
  if vs.any (Visit.uncloneable transfer s) then taken transfer s vs = []
  else (taken transfer s vs).Nodup ∧ ∀ b ∈ transfer, b ∈ taken transfer s vs

/-! ### The walk as a list -/

/-- The payloads after a visit of `b`. -/
def Buffers.after (transfer : List (Fin n)) (s : Buffers n) (b : Fin n) : Buffers n :=
  if b ∈ transfer then s.take b else s

/-- The effect of the walk, visit by visit. -/
def settle (transfer : List (Fin n)) :
    List (Visit n) → Buffers n → Option (List (List UInt8)) × Buffers n
  | [], s => (some [], s)
  | .refused :: _, s => (none, s)
  | .buffer b :: vs, s =>
    if (s b).detached then (none, s)
    else
      let rest := settle transfer vs (s.after transfer b)
      (rest.1.map ((s b).bytes :: ·), rest.2)

theorem settle_append (transfer : List (Fin n)) (vs ws : List (Visit n)) (s : Buffers n) :
    settle transfer (vs ++ ws) s =
      match settle transfer vs s with
      | (none, t) => (none, t)
      | (some bs, t) => ((settle transfer ws t).1.map (bs ++ ·), (settle transfer ws t).2) := by
  induction vs generalizing s with
  | nil => simp [settle]
  | cons v vs ih =>
    cases v with
    | refused => rfl
    | buffer b =>
      rw [List.cons_append, settle, settle]
      by_cases hb : (s b).detached = true
      · simp only [if_pos hb]
      · simp only [if_neg hb, ih]
        rcases settle transfer vs _ with ⟨_ | bs, t⟩
        · rfl
        · simp [Function.comp_def]

/-- What the walk of a value leaves, with the bytes that its message carries. -/
def Result.settled (r : Result MessageValue n) : Option (List (List UInt8)) × Buffers n :=
  match r with
  | (.error _, s) => (none, s)
  | (.ok m, s) => (some m.carried, s)

def Result.settledAll (r : Result (List MessageValue) n) :
    Option (List (List UInt8)) × Buffers n :=
  match r with
  | (.error _, s) => (none, s)
  | (.ok ms, s) => (some (carriedAll ms), s)

theorem detachAll_settled {transfer : List (Fin n)}
    {detach : Value n → Buffers n → Result MessageValue n} {visit : Value n → List (Visit n)}
    (h : ∀ v s, (detach v s).settled = settle transfer (visit v) s) (vs : List (Value n))
    (s : Buffers n) :
    (detachAll detach vs s).settledAll = settle transfer (vs.flatMap visit) s := by
  induction vs generalizing s with
  | nil => rfl
  | cons v vs ih =>
    rw [List.flatMap_cons, settle_append, ← h v s, detachAll]
    rcases detach v s with ⟨_ | m, t⟩
    · rfl
    · simp only [Result.settled, ← ih t]
      rcases detachAll detach vs t with ⟨_ | ms, u⟩
      · rfl
      · rfl

theorem detachArrayBuffer_settled (transfer : List (Fin n)) (b : Fin n) (s : Buffers n) :
    (detachArrayBuffer transfer b s).settled = settle transfer [.buffer b] s := by
  rw [detachArrayBuffer, settle]
  by_cases hb : b ∈ transfer <;> by_cases hd : (s b).detached = true <;>
    simp [hb, hd, settle, Buffers.after, Result.settled, MessageValue.carried]

theorem detachValue_settled (nodes : Fin n → Node n) (transfer : List (Fin n)) (fuel : Nat)
    (onStack : List (Fin n)) (v : Value n) (s : Buffers n) :
    (detachValue nodes transfer fuel onStack v s).settled =
      settle transfer (visits nodes fuel onStack v) s := by
  induction fuel generalizing onStack v s with
  | zero => cases v <;> rfl
  | succ fuel ih =>
    cases v with
    | primitive tag => rfl
    | object id =>
      rw [detachValue, visits]
      split
      · rfl
      · cases nodes id with
        | atom tag => rfl
        | arrayBuffer => exact detachArrayBuffer_settled transfer id s
        | uncloneable reason => rfl
        | container kind children =>
          have hall := detachAll_settled (ih (id :: onStack)) children s
          simp only [← hall]
          rcases detachAll _ children s with ⟨_ | ms, t⟩
          · rfl
          · rfl

/-! ### What is taken on the way -/

theorem after_of_ne {transfer : List (Fin n)} {s : Buffers n} {b c : Fin n} (h : c ≠ b) :
    s.after transfer b c = s c := by
  unfold Buffers.after
  split
  · exact if_neg h
  · rfl

theorem after_detached_self {transfer : List (Fin n)} {s : Buffers n} {b : Fin n}
    (hb : b ∈ transfer) : (s.after transfer b b).detached = true := by
  rw [Buffers.after, if_pos hb, Buffers.take, if_pos rfl]

theorem after_detached {transfer : List (Fin n)} {s : Buffers n} {b c : Fin n}
    (h : (s c).detached = true) : (s.after transfer b c).detached = true := by
  by_cases hc : c = b
  · subst hc
    by_cases hb : c ∈ transfer
    · exact after_detached_self hb
    · rwa [Buffers.after, if_neg hb]
  · rwa [after_of_ne hc]

/-- A visit changes only the buffer it takes. -/
theorem after_of_attached {transfer : List (Fin n)} {s : Buffers n} {b c : Fin n}
    (h : (s.after transfer b c).detached = false) : s.after transfer b c = s c := by
  by_cases hc : c = b
  · subst hc
    by_cases hb : c ∈ transfer
    · rw [after_detached_self hb] at h
      cases h
    · rw [Buffers.after, if_neg hb]
  · exact after_of_ne hc

theorem settle_detached (transfer : List (Fin n)) (vs : List (Visit n)) {s : Buffers n} {b : Fin n}
    (h : (s b).detached = true) : ((settle transfer vs s).2 b).detached = true := by
  induction vs generalizing s with
  | nil => exact h
  | cons v vs ih =>
    cases v with
    | refused => exact h
    | buffer c =>
      rw [settle]
      split
      · exact h
      · exact ih (after_detached h)

@[simp] theorem filterMap_buffer (b : Fin n) (vs : List (Visit n)) :
    (Visit.buffer b :: vs).filterMap Visit.buffer? = b :: vs.filterMap Visit.buffer? := rfl

/-- The transferred buffers of a list of visits. -/
def transferred (transfer : List (Fin n)) (vs : List (Visit n)) : List (Fin n) :=
  (vs.filterMap Visit.buffer?).filter (decide <| · ∈ transfer)

theorem transferred_cons (transfer : List (Fin n)) (b : Fin n) (vs : List (Visit n)) :
    transferred transfer (.buffer b :: vs) =
      if b ∈ transfer then b :: transferred transfer vs else transferred transfer vs := by
  rw [transferred, filterMap_buffer, List.filter_cons]
  simp only [decide_eq_true_eq]
  rfl

theorem mem_transferred {transfer : List (Fin n)} {vs : List (Visit n)} {b : Fin n} :
    b ∈ transferred transfer vs ↔ Visit.buffer b ∈ vs ∧ b ∈ transfer := by
  have hvisit : ∀ v : Visit n, v.buffer? = some b ↔ v = .buffer b := by
    intro v
    cases v <;> simp [Visit.buffer?]
  simp [transferred, hvisit]

section Finished

variable {transfer : List (Fin n)} {vs : List (Visit n)} {s t : Buffers n} {b : Fin n}
  {bs : List (List UInt8)}

theorem settle_buffer_inv (h : settle transfer (.buffer b :: vs) s = (some bs, t)) :
    (s b).detached = false ∧ ∃ cs, bs = (s b).bytes :: cs ∧
      settle transfer vs (s.after transfer b) = (some cs, t) := by
  rw [settle] at h
  split at h
  · cases h
  next hb =>
    obtain ⟨hmap, ht⟩ := Prod.mk.inj h
    obtain ⟨cs, hcs, rfl⟩ := Option.map_eq_some_iff.mp hmap
    exact ⟨Bool.not_eq_true _ ▸ hb, cs, rfl, Prod.ext hcs ht⟩

/-- A walk that reaches the end met no value that cannot be cloned and no detached buffer. -/
theorem settle_some_attached (h : settle transfer vs s = (some bs, t)) :
    ∀ v ∈ vs, ∃ b, v = .buffer b ∧ (s b).detached = false := by
  induction vs generalizing s bs with
  | nil => nofun
  | cons v vs ih =>
    cases v with
    | refused => cases h
    | buffer b =>
      obtain ⟨hb, cs, -, hrest⟩ := settle_buffer_inv h
      refine List.forall_mem_cons.mpr ⟨⟨b, rfl, hb⟩, fun v hv => ?_⟩
      obtain ⟨c, rfl, hc⟩ := ih hrest v hv
      exact ⟨c, rfl, after_of_attached hc ▸ hc⟩

/-- What is visited later is as it was. -/
theorem after_eq_of_settle (h : settle transfer vs (s.after transfer b) = (some bs, t)) {c : Fin n}
    (hc : Visit.buffer c ∈ vs) : s.after transfer b c = s c := by
  obtain ⟨d, hd, hatt⟩ := settle_some_attached h _ hc
  cases hd
  exact after_of_attached hatt

/-- No transferred buffer is met twice. -/
theorem settle_some_nodup (h : settle transfer vs s = (some bs, t)) :
    (transferred transfer vs).Nodup := by
  induction vs generalizing s bs with
  | nil => exact List.nodup_nil
  | cons v vs ih =>
    cases v with
    | refused => cases h
    | buffer b =>
      obtain ⟨-, cs, -, hrest⟩ := settle_buffer_inv h
      rw [transferred_cons]
      split
      next hb =>
        refine List.nodup_cons.mpr ⟨fun hmem => ?_, ih hrest⟩
        obtain ⟨c, hc, hatt⟩ := settle_some_attached hrest _ (mem_transferred.mp hmem).1
        cases hc
        rw [after_detached_self hb] at hatt
        cases hatt
      · exact ih hrest

theorem settle_some_bytes (h : settle transfer vs s = (some bs, t)) :
    bs = (vs.filterMap Visit.buffer?).map fun b => (s b).bytes := by
  induction vs generalizing s bs with
  | nil =>
    cases h
    rfl
  | cons v vs ih =>
    cases v with
    | refused => cases h
    | buffer b =>
      obtain ⟨-, cs, rfl, hrest⟩ := settle_buffer_inv h
      rw [filterMap_buffer, List.map_cons, ih hrest]
      refine congrArg _ (List.map_congr_left fun c hc => ?_)
      obtain ⟨v, hv, hvc⟩ := List.mem_filterMap.mp hc
      cases v with
      | refused => cases hvc
      | buffer d =>
        cases hvc
        rw [after_eq_of_settle hrest hv]

theorem settle_some_taken (h : settle transfer vs s = (some bs, t)) :
    ∀ b ∈ transferred transfer vs, (t b).detached = true := by
  induction vs generalizing s bs with
  | nil => nofun
  | cons v vs ih =>
    cases v with
    | refused => cases h
    | buffer b =>
      obtain ⟨-, cs, -, hrest⟩ := settle_buffer_inv h
      rw [transferred_cons]
      split
      next hb =>
        refine List.forall_mem_cons.mpr ⟨?_, ih hrest⟩
        have htaken := settle_detached transfer vs (after_detached_self (s := s) hb)
        rwa [hrest] at htaken
      · exact ih hrest

/-- The buffers that are not met keep what they hold. -/
theorem settle_some_rest (h : settle transfer vs s = (some bs, t)) :
    ∀ b ∈ transfer, b ∉ transferred transfer vs → t b = s b := by
  induction vs generalizing s bs with
  | nil =>
    cases h
    exact fun _ _ _ => rfl
  | cons v vs ih =>
    cases v with
    | refused => cases h
    | buffer b =>
      obtain ⟨-, cs, -, hrest⟩ := settle_buffer_inv h
      intro c hct hc
      simp only [mem_transferred, List.mem_cons, Visit.buffer.injEq, hct, and_true, not_or] at hc
      rw [ih hrest c hct fun hmem => hc.2 (mem_transferred.mp hmem).1, after_of_ne hc.1]

end Finished

/-- Attached buffers, the transferred ones once each, are all visited. -/
theorem settle_of_nodup {transfer : List (Fin n)} {vs : List (Visit n)} {s : Buffers n}
    (hgood : ∀ v ∈ vs, ∃ b, v = .buffer b ∧ (s b).detached = false)
    (hnodup : (transferred transfer vs).Nodup) : ((settle transfer vs s).1).isSome = true := by
  induction vs generalizing s with
  | nil => rfl
  | cons v vs ih =>
    obtain ⟨b, rfl, hb⟩ := hgood v List.mem_cons_self
    rw [transferred_cons] at hnodup
    have hrest : (transferred transfer vs).Nodup := by
      split at hnodup
      · exact hnodup.of_cons
      · exact hnodup
    rw [settle, if_neg (by simp [hb]), Option.isSome_map]
    refine ih (s := s.after transfer b) (fun v hv => ?_) hrest
    obtain ⟨c, rfl, hc⟩ := hgood v (List.mem_cons_of_mem _ hv)
    refine ⟨c, rfl, ?_⟩
    by_cases hcb : c = b
    · -- A transferred buffer does not come again.
      subst hcb
      by_cases hct : c ∈ transfer
      · rw [if_pos hct] at hnodup
        exact absurd (mem_transferred.mpr ⟨hv, hct⟩) (List.nodup_cons.mp hnodup).1
      · rwa [Buffers.after, if_neg hct]
    · rwa [after_of_ne hcb]

/-- The first transferred buffer before a failure stays taken. -/
theorem settle_taken {transfer : List (Fin n)} {vs : List (Visit n)} {s : Buffers n}
    (h : taken transfer s vs ≠ []) :
    ∃ b ∈ transfer, ((settle transfer vs s).2 b).detached = true := by
  -- The predicate of `taken` looks at the payloads of buffers that are not transferred.
  induction vs with
  | nil => exact absurd rfl h
  | cons v vs ih =>
    cases v with
    | refused => exact absurd rfl h
    | buffer b =>
      by_cases hbt : b ∈ transfer
      · refine ⟨b, hbt, ?_⟩
        rw [settle]
        split
        next hb => exact hb
        · exact settle_detached transfer vs (after_detached_self hbt)
      · cases hb : (s b).detached with
        | true => simp [taken, Visit.uncloneable, hbt, hb] at h
        | false =>
          rw [settle, if_neg (by simp [hb]), Buffers.after, if_neg hbt]
          refine ih fun hnil => h ?_
          simpa [taken, Visit.uncloneable, hbt, hb, Visit.buffer?] using hnil

/-- Nothing is changed where a value that cannot be cloned comes before all transferred buffers. -/
theorem settle_untouched {transfer : List (Fin n)} {vs : List (Visit n)} {s : Buffers n}
    (hbad : vs.any (Visit.uncloneable transfer s) = true) (h : taken transfer s vs = []) :
    settle transfer vs s = (none, s) := by
  induction vs with
  | nil => cases hbad
  | cons v vs ih =>
    cases v with
    | refused => rfl
    | buffer b =>
      have hbt : b ∉ transfer := by
        intro hbt
        simp [taken, Visit.uncloneable, hbt, Visit.buffer?] at h
      cases hb : (s b).detached with
      | true => rw [settle, if_pos hb]
      | false =>
        have hrest := ih (by simpa [Visit.uncloneable, hb] using hbad)
          (by simpa [taken, Visit.uncloneable, hbt, hb, Visit.buffer?] using h)
        rw [settle, if_neg (by simp [hb]), Buffers.after, if_neg hbt, hrest]
        rfl

theorem taken_of_none {transfer : List (Fin n)} {vs : List (Visit n)} {s : Buffers n}
    (h : vs.any (Visit.uncloneable transfer s) = false) :
    taken transfer s vs = transferred transfer vs := by
  have hall : ∀ v ∈ vs, (!v.uncloneable transfer s) = true := by
    intro v hv
    simpa using List.any_eq_false.mp h v hv
  rw [taken, List.takeWhile_eq_self_iff.mpr hall]
  rfl

theorem attached_of_none {transfer : List (Fin n)} {vs : List (Visit n)} {s : Buffers n}
    (hattached : ∀ b ∈ transfer, (s b).detached = false)
    (h : vs.any (Visit.uncloneable transfer s) = false) :
    ∀ v ∈ vs, ∃ b, v = .buffer b ∧ (s b).detached = false := by
  intro v hv
  have hgood := List.any_eq_false.mp h v hv
  cases v with
  | refused => exact absurd rfl hgood
  | buffer b =>
    refine ⟨b, rfl, ?_⟩
    by_cases hb : b ∈ transfer
    · exact hattached b hb
    · simpa [Visit.uncloneable, hb] using hgood

/-- `detach_message` is all or nothing exactly when a value that cannot be cloned comes before all
buffers of the transfer list, or there is none and every buffer of the list occurs exactly once. -/
theorem allOrNothing_iff (nodes : Fin n → Node n) (transfer : List (Fin n)) (v : Value n)
    (s : Buffers n) (hattached : ∀ b ∈ transfer, (s b).detached = false) :
    AllOrNothing nodes transfer v s ↔ InOrder transfer s (visits nodes n [] v) := by
  have hsettled := detachValue_settled nodes transfer n [] v s
  unfold AllOrNothing InOrder detachMessage
  generalize hvs : visits nodes n [] v = vs at hsettled
  rcases hresult : detachValue nodes transfer n [] v s with ⟨_ | m, t⟩
  · rw [hresult, Result.settled] at hsettled
    have ht : t = (settle transfer vs s).2 := congrArg Prod.snd hsettled
    have hnone : (settle transfer vs s).1 = none := (congrArg Prod.fst hsettled).symm
    -- A buffer that was taken is no longer as it was.
    have hchanged : (∀ b ∈ transfer, t b = s b) → taken transfer s vs = [] := by
      intro hsame
      by_contra hne
      obtain ⟨b, hb, hdet⟩ := settle_taken hne
      rw [← ht, hsame b hb, hattached b hb] at hdet
      cases hdet
    cases hbad : vs.any (Visit.uncloneable transfer s) with
    | true =>
      rw [if_pos rfl]
      refine ⟨hchanged, fun hnil b _ => ?_⟩
      rw [ht, settle_untouched hbad hnil]
    | false =>
      rw [if_neg (by decide)]
      rw [taken_of_none hbad]
      have hdup : ¬ (transferred transfer vs).Nodup := by
        intro hnodup
        have hsome := settle_of_nodup (attached_of_none hattached hbad) hnodup
        rw [hnone] at hsome
        cases hsome
      refine iff_of_false (fun hsame => hdup ?_) fun hcond => hdup hcond.1
      rw [← taken_of_none hbad, hchanged hsame]
      exact List.nodup_nil
  · rw [hresult, Result.settled] at hsettled
    have hgood := settle_some_attached hsettled.symm
    have hbad : vs.any (Visit.uncloneable transfer s) = false := by
      refine List.any_eq_false.mpr fun v hv => ?_
      obtain ⟨b, rfl, hb⟩ := hgood v hv
      simp [Visit.uncloneable, hb]
    rw [hbad, if_neg (by decide), taken_of_none hbad]
    refine ⟨fun hall => ⟨settle_some_nodup hsettled.symm, fun b hb => ?_⟩,
      fun hcond => ⟨fun b hb => ?_, settle_some_bytes hsettled.symm⟩⟩
    · by_contra hnot
      have hdet := hall.1 b hb
      rw [settle_some_rest hsettled.symm b hb hnot, hattached b hb] at hdet
      cases hdet
    · exact settle_some_taken hsettled.symm b (hcond.2 b hb)

/-- A buffer next to a map, both in an array. -/
theorem allOrNothing_array :
    (∀ b ∈ [(1 : Fin 3)], ((fun _ => ⟨[7], false⟩ : Buffers 3) b).detached = false) ∧
    AllOrNothing ![.container .array [.object 1, .object 2], .arrayBuffer, .container .map []]
      [1] (.object 0) fun _ => ⟨[7], false⟩ := by
  refine ⟨by decide, (allOrNothing_iff _ _ _ _ (by decide)).mpr ?_⟩
  unfold InOrder
  decide

/-- An array with a buffer of the transfer list before a function, one with that buffer twice, and
one without it. -/
theorem allOrNothing_fails :
    ¬ AllOrNothing
        ![.container .array [.object 1, .object 2], .arrayBuffer,
          .uncloneable "value is not cloneable"]
        [1] (.object 0) (fun _ => ⟨[7], false⟩) ∧
    ¬ AllOrNothing ![.container .array [.object 1, .object 1], .arrayBuffer]
        [1] (.object 0) (fun _ => ⟨[7], false⟩) ∧
    ¬ AllOrNothing ![.container .array [], .arrayBuffer]
        [1] (.object 0) (fun _ => ⟨[7], false⟩) := by
  refine ⟨fun h => absurd (h 1 (by decide)) ?_, fun h => absurd (h 1 (by decide)) ?_,
    fun h => absurd (h.1 1 (by decide)) ?_⟩ <;> decide

end OxideJS.Message
