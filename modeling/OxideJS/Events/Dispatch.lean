import OxideJS.Lib.Runs
import Mathlib.Data.List.Pairwise

/-!
The listeners of an event target.

A run is driven by the calls a program makes and by the listeners'
returns, in any nesting: between the moment a listener is called and the
moment it returns, further calls may come, and a dispatch among them starts
a frame of its own. The target is fixed; each target has a list of its own.

Each registration has a serial number, which only the statements use, and
the log keeps every call of a listener with the facts of that moment.
-/

namespace OxideJS.Events

open Lib.Runs

structure Listener where
  id : Nat
  type : Nat
  callback : Nat
  capture : Bool
  once : Bool
  deriving DecidableEq

/-- What `addEventListener` and `removeEventListener` compare. -/
def Listener.key (l : Listener) : Nat × Nat × Bool :=
  (l.type, l.callback, l.capture)

/-- A dispatch whose listener `current` is running. -/
structure Frame where
  dispatch : Nat
  /-- The next serial number when the dispatch began. -/
  since : Nat
  current : Listener
  rest : List Listener

structure Called where
  dispatch : Nat
  since : Nat
  listener : Listener
  /-- The listener was registered when it was called. -/
  registered : Bool

structure State where
  listeners : List Listener
  frames : List Frame
  nextId : Nat
  nextDispatch : Nat
  /-- The last call first. -/
  log : List Called

def State.empty : State :=
  ⟨[], [], 0, 0, []⟩

inductive Outcome where
  /-- With the event's flag that `stopImmediatePropagation` sets. -/
  | returned (stopped : Bool)
  | threw

inductive Event where
  | add (type callback : Nat) (capture once : Bool)
  | remove (type callback : Nat) (capture : Bool)
  | dispatch (type : Nat)
  | finish (outcome : Outcome)

namespace State

def etUnregister (s : State) (key : Nat × Nat × Bool) : State :=
  { s with listeners := s.listeners.filter fun l => decide (l.key ≠ key) }

def pop (s : State) : State :=
  { s with frames := s.frames.tail }

/-- The loop over the snapshot goes on with the listeners that are left. -/
def callNext (s : State) (dispatch since : Nat) : List Listener → State
  | [] => s
  | l :: rest =>
    { s with
      frames := ⟨dispatch, since, l, rest⟩ :: s.frames
      log := ⟨dispatch, since, l, decide (l ∈ s.listeners)⟩ :: s.log }

def step (s : State) : Event → State
  | .add type callback capture once =>
    if s.listeners.any fun l => decide (l.key = (type, callback, capture)) then s
    else
      { s with
        listeners := s.listeners ++ [⟨s.nextId, type, callback, capture, once⟩]
        nextId := s.nextId + 1 }
  | .remove type callback capture => s.etUnregister (type, callback, capture)
  | .dispatch type =>
    { s with nextDispatch := s.nextDispatch + 1 }.callNext s.nextDispatch s.nextId
      (s.listeners.filter fun l => decide (l.type = type))
  | .finish outcome =>
    match s.frames, outcome with
    | [], _ => s
    -- The exception leaves the loop before the `once` entry is removed.
    | _ :: _, .threw => s.pop
    | f :: _, .returned stopped =>
      let s := if f.current.once then s.etUnregister f.current.key else s
      if stopped then s.pop else s.pop.callNext f.dispatch f.since f.rest

end State

/-- What a program may rely on. -/
structure Respects (log : List Called) : Prop where
  /-- No listener is called that was removed before its turn. -/
  registered : ∀ c ∈ log, c.registered = true
  /-- No listener is called that was added during the dispatch. -/
  before : ∀ c ∈ log, c.listener.id < c.since
  /-- A dispatch calls in the order of registration. -/
  order : log.Pairwise fun later earlier =>
    later.dispatch = earlier.dispatch → earlier.listener.id < later.listener.id
  once : log.Pairwise fun later earlier =>
    later.listener = earlier.listener → later.listener.once = false

/-- A step that does not come between a running dispatch and its snapshot: no listener is removed
whose turn is still to come, no event is dispatched for which a `once` listener is running or
still to come, and no `once` listener throws. -/
def Undisturbed (s : State) : Event → Prop
  | .add .. => True
  | .remove type callback capture =>
    ∀ f ∈ s.frames, ∀ l ∈ f.rest, l.key ≠ (type, callback, capture)
  | .dispatch type => ∀ f ∈ s.frames, ∀ l ∈ f.current :: f.rest, l.once = true → l.type ≠ type
  | .finish .threw => ∀ f ∈ s.frames.head?, f.current.once = false
  | .finish (.returned _) => True

/-! ### The invariant -/

/-- The listeners a dispatch has still to call. -/
structure Queue (s : State) (dispatch since : Nat) (ls : List Listener) : Prop where
  registered : ∀ l ∈ ls, l ∈ s.listeners
  before : ∀ l ∈ ls, l.id < since
  sorted : ls.Pairwise fun l m => l.id < m.id
  fresh : ∀ l ∈ ls, l.once = true → ∀ c ∈ s.log, c.listener ≠ l
  order : ∀ l ∈ ls, ∀ c ∈ s.log, c.dispatch = dispatch → c.listener.id < l.id

/-- None of `ls` that is called once stands for a registration that `g` has still to call. -/
def Apart (ls : List Listener) (g : Frame) : Prop :=
  ∀ l ∈ ls, l.once = true → ∀ m ∈ g.rest, m.key ≠ l.key

structure Inv (s : State) : Prop where
  keys : s.listeners.Pairwise fun l m => l.key ≠ m.key
  sorted : s.listeners.Pairwise fun l m => l.id < m.id
  ids : ∀ l ∈ s.listeners, l.id < s.nextId
  /-- A `once` listener that was called and is still registered is running. -/
  spent : ∀ l ∈ s.listeners, l.once = true → (∃ c ∈ s.log, c.listener = l) →
    ∃ f ∈ s.frames, f.current = l
  queues : ∀ f ∈ s.frames, Queue s f.dispatch f.since f.rest
  own : ∀ f ∈ s.frames, ∀ l ∈ f.rest, l.key ≠ f.current.key
  numbers : ∀ f ∈ s.frames, f.dispatch < s.nextDispatch
  logged : ∀ c ∈ s.log, c.dispatch < s.nextDispatch ∧ c.listener.id < s.nextId
  apart : s.frames.Pairwise fun f g => f.dispatch ≠ g.dispatch ∧ Apart (f.current :: f.rest) g
  respects : Respects s.log

theorem inv_empty : Inv .empty where
  keys := .nil
  sorted := .nil
  ids := nofun
  spent := nofun
  queues := nofun
  own := nofun
  numbers := nofun
  logged := nofun
  apart := .nil
  respects := ⟨nofun, nofun, .nil, .nil⟩

theorem Inv.eq_of_key {s : State} (h : Inv s) {l m : Listener} (hl : l ∈ s.listeners)
    (hm : m ∈ s.listeners) (hkey : l.key = m.key) : l = m := by
  by_contra hne
  have : Std.Symm fun l m : Listener => l.key ≠ m.key := ⟨fun _ _ hlm => hlm.symm⟩
  exact h.keys.forall hl hm hne hkey

/-- Removing an entry whose turn in a running dispatch is not still to come. -/
theorem Inv.etUnregister {s : State} (h : Inv s) {key : Nat × Nat × Bool}
    (hkey : ∀ f ∈ s.frames, ∀ l ∈ f.rest, l.key ≠ key) : Inv (s.etUnregister key) where
  keys := h.keys.filter _
  sorted := h.sorted.filter _
  ids l hl := h.ids l (List.mem_filter.mp hl |>.1)
  spent l hl := h.spent l (List.mem_filter.mp hl |>.1)
  queues f hf :=
    { registered := fun l hl =>
        List.mem_filter.mpr ⟨(h.queues f hf).registered l hl, decide_eq_true (hkey f hf l hl)⟩
      before := (h.queues f hf).before
      sorted := (h.queues f hf).sorted
      fresh := (h.queues f hf).fresh
      order := (h.queues f hf).order }
  own := h.own
  numbers := h.numbers
  logged := h.logged
  apart := h.apart
  respects := h.respects

/-- Leaving the running dispatch, unless its listener is called once and is still registered. -/
theorem Inv.pop {s : State} (h : Inv s)
    (hspent : ∀ f ∈ s.frames.head?, f.current ∈ s.listeners → f.current.once = false) :
    Inv s.pop where
  keys := h.keys
  sorted := h.sorted
  ids := h.ids
  spent l hl honce hcalled := by
    obtain ⟨f, hf, rfl⟩ := h.spent l hl honce hcalled
    refine ⟨f, ?_, rfl⟩
    cases hframes : s.frames with
    | nil => simp [hframes] at hf
    | cons g frames =>
      rw [hframes] at hf
      cases hf with
      | head => simp [hspent f (by simp [hframes]) hl] at honce
      | tail _ hf =>
        rw [State.pop, hframes]
        exact hf
  queues f hf :=
    let hq := h.queues f (List.mem_of_mem_tail hf)
    ⟨hq.registered, hq.before, hq.sorted, hq.fresh, hq.order⟩
  own f hf := h.own f (List.mem_of_mem_tail hf)
  numbers f hf := h.numbers f (List.mem_of_mem_tail hf)
  logged := h.logged
  apart := h.apart.tail
  respects := h.respects

section Call

variable {s : State} {dispatch since : Nat} {l : Listener} {rest : List Listener}

/-- The queue behind the listener that is called. -/
theorem Queue.called (hq : Queue s dispatch since (l :: rest)) :
    Queue (s.callNext dispatch since (l :: rest)) dispatch since rest := by
  have hsorted := List.pairwise_cons.mp hq.sorted
  refine ⟨fun m hm => hq.registered m (List.mem_cons_of_mem _ hm),
    fun m hm => hq.before m (List.mem_cons_of_mem _ hm), hsorted.2, ?_, ?_⟩
  · intro m hm honce c hc hcm
    cases hc with
    | head => exact absurd (hsorted.1 m hm) (by rw [← hcm]; exact Nat.lt_irrefl _)
    | tail _ hc => exact hq.fresh m (List.mem_cons_of_mem _ hm) honce c hc hcm
  · intro m hm c hc hcd
    cases hc with
    | head => exact hsorted.1 m hm
    | tail _ hc => exact hq.order m (List.mem_cons_of_mem _ hm) c hc hcd

/-- The queue of a dispatch that waits for the call to return. -/
theorem Queue.called_other {waiting start : Nat} {ms : List Listener}
    (hq : Queue s waiting start ms) (hne : dispatch ≠ waiting)
    (hother : ∀ m ∈ ms, m.once = true → l ≠ m) :
    Queue (s.callNext dispatch since (l :: rest)) waiting start ms := by
  refine ⟨hq.registered, hq.before, hq.sorted, ?_, ?_⟩
  · intro m hm honce c hc
    cases hc with
    | head => exact hother m hm honce
    | tail _ hc => exact hq.fresh m hm honce c hc
  · intro m hm c hc hcd
    cases hc with
    | head => exact absurd hcd hne
    | tail _ hc => exact hq.order m hm c hc hcd

theorem Respects.called (h : Respects s.log) (hq : Queue s dispatch since (l :: rest)) :
    Respects (s.callNext dispatch since (l :: rest)).log where
  registered := List.forall_mem_cons.mpr
    ⟨decide_eq_true (hq.registered l List.mem_cons_self), h.registered⟩
  before := List.forall_mem_cons.mpr ⟨hq.before l List.mem_cons_self, h.before⟩
  order := .cons (fun c hc hcd => hq.order l List.mem_cons_self c hc hcd.symm) h.order
  once := by
    refine .cons (fun c hc hcl => ?_) h.once
    cases honce : l.once with
    | false => rfl
    | true => exact absurd hcl.symm (hq.fresh l List.mem_cons_self honce c hc)

/-- A queue holds a registration at most once. -/
theorem Queue.key_ne (hq : Queue s dispatch since (l :: rest)) (h : Inv s) :
    ∀ m ∈ rest, m.key ≠ l.key := by
  intro m hm hkey
  have heq := h.eq_of_key (hq.registered m (List.mem_cons_of_mem _ hm))
    (hq.registered l List.mem_cons_self) hkey
  have hlt := (List.pairwise_cons.mp hq.sorted).1 m hm
  rw [heq] at hlt
  exact absurd hlt (Nat.lt_irrefl _)

end Call

/-- Calling the next listener of a queue. -/
theorem Inv.callNext {s : State} (h : Inv s) {dispatch since : Nat} {ls : List Listener}
    (hq : Queue s dispatch since ls) (hnumber : dispatch < s.nextDispatch)
    (hne : ∀ g ∈ s.frames, dispatch ≠ g.dispatch) (hapart : ∀ g ∈ s.frames, Apart ls g) :
    Inv (s.callNext dispatch since ls) := by
  cases ls with
  | nil => exact h
  | cons l rest =>
    have hl : l ∈ l :: rest := List.mem_cons_self
    -- A call of `l` is no call of a `once` listener that another frame has still to call.
    have hother : ∀ g ∈ s.frames, ∀ m ∈ g.rest, m.once = true → l ≠ m := by
      intro g hg m hm honce heq
      exact hapart g hg l hl (heq ▸ honce) m hm (heq ▸ rfl)
    refine
      { keys := h.keys
        sorted := h.sorted
        ids := h.ids
        spent := ?_
        queues := List.forall_mem_cons.mpr
          ⟨hq.called, fun f hf => (h.queues f hf).called_other (hne f hf) (hother f hf)⟩
        own := List.forall_mem_cons.mpr ⟨hq.key_ne h, h.own⟩
        numbers := List.forall_mem_cons.mpr ⟨hnumber, h.numbers⟩
        logged := List.forall_mem_cons.mpr ⟨⟨hnumber, h.ids l (hq.registered l hl)⟩, h.logged⟩
        apart := .cons (fun g hg => ⟨hne g hg, hapart g hg⟩) h.apart
        respects := h.respects.called hq }
    intro m hm honce ⟨c, hc, hcm⟩
    cases hc with
    | head => exact ⟨_, List.mem_cons_self, hcm⟩
    | tail _ hc =>
      obtain ⟨f, hf, hfm⟩ := h.spent m hm honce ⟨c, hc, hcm⟩
      exact ⟨f, List.mem_cons_of_mem _ hf, hfm⟩

theorem Inv.add {s : State} (h : Inv s) (type callback : Nat) (capture once : Bool) :
    Inv (s.step (.add type callback capture once)) := by
  rw [State.step]
  split
  · exact h
  next hnone =>
    have hkey : ∀ l ∈ s.listeners, l.key ≠ (type, callback, capture) := by
      simpa using hnone
    refine
      { keys := List.pairwise_append.mpr ⟨h.keys, List.pairwise_singleton _ _, ?_⟩
        sorted := List.pairwise_append.mpr ⟨h.sorted, List.pairwise_singleton _ _, ?_⟩
        ids := ?_
        spent := ?_
        queues := ?_
        own := h.own
        numbers := h.numbers
        logged := fun c hc => ⟨(h.logged c hc).1, Nat.lt_succ_of_lt (h.logged c hc).2⟩
        apart := h.apart
        respects := h.respects }
    · intro l hl m hm
      rw [List.mem_singleton.mp hm]
      exact hkey l hl
    · intro l hl m hm
      rw [List.mem_singleton.mp hm]
      exact h.ids l hl
    · intro l hl
      rcases List.mem_append.mp hl with hl | hl
      · exact Nat.lt_succ_of_lt (h.ids l hl)
      · rw [List.mem_singleton.mp hl]
        exact Nat.lt_succ_self _
    · intro l hl honce ⟨c, hc, hcl⟩
      rcases List.mem_append.mp hl with hl | hl
      · exact h.spent l hl honce ⟨c, hc, hcl⟩
      · -- The log has no call of a serial number still to be given.
        have hlt := (h.logged c hc).2
        rw [hcl, List.mem_singleton.mp hl] at hlt
        exact absurd hlt (Nat.lt_irrefl _)
    · intro f hf
      have hq := h.queues f hf
      exact ⟨fun l hl => List.mem_append_left _ (hq.registered l hl), hq.before, hq.sorted,
        hq.fresh, hq.order⟩

theorem Inv.dispatch {s : State} (h : Inv s) {type : Nat} (hok : Undisturbed s (.dispatch type)) :
    Inv (s.step (.dispatch type)) := by
  have hnext : Inv { s with nextDispatch := s.nextDispatch + 1 } :=
    { keys := h.keys
      sorted := h.sorted
      ids := h.ids
      spent := h.spent
      queues := fun f hf =>
        let hq := h.queues f hf
        ⟨hq.registered, hq.before, hq.sorted, hq.fresh, hq.order⟩
      own := h.own
      numbers := fun f hf => Nat.lt_succ_of_lt (h.numbers f hf)
      logged := fun c hc => ⟨Nat.lt_succ_of_lt (h.logged c hc).1, (h.logged c hc).2⟩
      apart := h.apart
      respects := h.respects }
  have hmem : ∀ l ∈ s.listeners.filter (fun l => decide (l.type = type)),
      l ∈ s.listeners ∧ l.type = type := by
    intro l hl
    simpa using hl
  refine hnext.callNext ⟨fun l hl => (hmem l hl).1, fun l hl => h.ids l (hmem l hl).1,
    h.sorted.filter _, ?_, ?_⟩ (Nat.lt_succ_self _) ?_ ?_
  · -- A `once` listener of this type that was called would be running.
    intro l hl honce c hc hcl
    obtain ⟨f, hf, rfl⟩ := h.spent l (hmem l hl).1 honce ⟨c, hc, hcl⟩
    exact hok f hf _ List.mem_cons_self honce (hmem _ hl).2
  · intro l _ c hc hcd
    exact absurd hcd (Nat.ne_of_lt (h.logged c hc).1)
  · intro g hg
    exact (Nat.ne_of_lt (h.numbers g hg)).symm
  · intro g hg l hl honce m hm hkey
    have heq := h.eq_of_key ((h.queues g hg).registered m hm) (hmem l hl).1 hkey
    exact hok g hg m (List.mem_cons_of_mem _ hm) (heq ▸ honce) (heq ▸ (hmem l hl).2)

theorem Inv.finish {s : State} (h : Inv s) {outcome : Outcome}
    (hok : Undisturbed s (.finish outcome)) : Inv (s.step (.finish outcome)) := by
  simp only [State.step]
  split
  · exact h
  next hframes => exact h.pop fun g hg _ => hok g hg
  next f frames stopped hframes =>
    have hf : f ∈ s.frames := hframes ▸ List.mem_cons_self
    have habove := List.pairwise_cons.mp (hframes ▸ h.apart)
    obtain ⟨t, ht⟩ : ∃ t, t = if f.current.once then s.etUnregister f.current.key else s := ⟨_, rfl⟩
    rw [← ht]
    have hinv : Inv t := by
      rw [ht]
      split
      next honce =>
        refine h.etUnregister fun g hg l hl => ?_
        rw [hframes] at hg
        cases hg with
        | head => exact h.own f hf l hl
        | tail _ hg => exact (habove.1 g hg).2 _ List.mem_cons_self honce l hl
      · exact h
    have htframes : t.frames = f :: frames := by
      rw [ht, ← hframes]
      split <;> rfl
    have hpop : Inv t.pop := by
      refine hinv.pop fun g hg hmem => ?_
      rw [htframes] at hg
      cases hg
      cases honce : f.current.once with
      | false => rfl
      | true =>
        rw [ht, if_pos honce] at hmem
        exact absurd rfl (of_decide_eq_true (List.mem_filter.mp hmem).2)
    split
    · exact hpop
    · have hq := hinv.queues f (htframes ▸ List.mem_cons_self)
      have hpopframes : t.pop.frames = frames := by rw [State.pop, htframes, List.tail_cons]
      refine hpop.callNext ⟨hq.registered, hq.before, hq.sorted, hq.fresh, hq.order⟩ ?_ ?_ ?_
      · exact hinv.numbers f (htframes ▸ List.mem_cons_self)
      · intro g hg
        exact (habove.1 g (hpopframes ▸ hg)).1
      · intro g hg l hl
        exact (habove.1 g (hpopframes ▸ hg)).2 l (List.mem_cons_of_mem _ hl)

theorem Inv.step {s : State} (h : Inv s) {e : Event} (hok : Undisturbed s e) :
    Inv (s.step e) := by
  cases e with
  | add type callback capture once => exact h.add type callback capture once
  | remove type callback capture => exact h.etUnregister hok
  | dispatch type => exact h.dispatch hok
  | finish outcome => exact h.finish hok

/-- In every run that is not disturbed, every call so far respects the list of listeners. -/
theorem dispatch_respects (events : List Event)
    (hok : Along State.step Undisturbed .empty events) :
    Respects (run State.step .empty events).log :=
  (run_keeps_along Inv (fun _ _ h hok => h.step hok) inv_empty hok).respects

/-- A listener adds another one, and a `once` listener of the same event is called between two
others. -/
theorem dispatch_respects_once :
    Respects (run State.step .empty
      [.add 0 0 false false, .add 0 1 false true, .dispatch 0, .add 0 2 false false,
        .finish (.returned false), .dispatch 1, .finish (.returned false), .dispatch 0]).log := by
  refine dispatch_respects _ ?_
  simp [Along, Undisturbed, State.step, State.empty, State.callNext, State.pop,
    State.etUnregister, Listener.key]

/-- The first listener removes the second one, which is called nevertheless; a `once` listener
dispatches its own event again and is called a second time; and a `once` listener that threw is
called by the next dispatch. -/
theorem dispatch_calls_removed :
    ¬ Respects (run State.step .empty
      [.add 0 0 false false, .add 0 1 false false, .dispatch 0, .remove 0 1 false,
        .finish (.returned false)]).log ∧
    ¬ Respects (run State.step .empty [.add 0 0 false true, .dispatch 0, .dispatch 0]).log ∧
    ¬ Respects (run State.step .empty
      [.add 0 0 false true, .dispatch 0, .finish .threw, .dispatch 0]).log := by
  refine ⟨fun h => absurd h.registered ?_, fun h => absurd h.once ?_, fun h => absurd h.once ?_⟩ <;>
    decide

end OxideJS.Events
