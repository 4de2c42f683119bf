import OxideJS.AsyncGen.Queue
import OxideJS.Lib.Runs
import Mathlib.Data.List.Range

/-!
Requests are served in order, one at a time, and none is lost.

At every moment the generator is at one of six stages, and each stage has
at most one request in service. The promises that have been settled, the
one in service and those of the queue are, in this order, all the promises
that were handed out (`Served.order`).

Two things break this. A `return` that cannot leave an iterator or a
resource leaves the generator running for ever. And `resolve_promise`
reads `then` of the iterator result when the generator is ready for the
next request already, so that a getter on `Object.prototype` that calls
the generator is served before the request whose result is being read.
-/

namespace OxideJS.AsyncGen

open OxideJS.Lib.Runs
open State (Env)

/-! ### Stages -/

/-- The reaction is the one the body waits for. -/
def State.Awaits (s : State) : Reaction → Prop
  | .await => s.delegatePending = none
  | .unwrap _ => False
  | .delegate step => s.delegatePending = some step
  | .escape p => s.delegatePending = none ∧ s.pendingEscape = some p
  | .dispose p => s.delegatePending = none ∧ s.pendingDispose = some p

/-- Ready for the next request. -/
structure State.Ready (s : State) : Prop where
  phase : s.phase = .yieldSuspended ∨ s.phase = .completed
  current : s.current = none
  delegatePending : s.delegatePending = none
  reactions : s.reactions = []

/-- What the generator does, with the promise of the request in service. -/
inductive Stage (s : State) : List Nat → Prop
  | idle (ready : s.Ready) (stack : s.stack = []) (queue : s.queue = []) : Stage s []
  | running {r : Request} (phase : s.phase = .running) (current : s.current = some r)
      (delegatePending : s.delegatePending = none) (reactions : s.reactions = [])
      (stack : s.stack = [.body]) : Stage s [r.promise]
  | waiting {r : Request} (ρ : Reaction) (phase : s.phase = .awaitSuspended)
      (current : s.current = some r) (awaits : s.Awaits ρ) (reactions : s.reactions = [ρ])
      (stack : s.stack = []) : Stage s [r.promise]
  | unwrapping {p : Nat} (phase : s.phase = .awaitSuspended) (current : s.current = none)
      (delegatePending : s.delegatePending = none) (reactions : s.reactions = [.unwrap p])
      (stack : s.stack = []) : Stage s [p]
  | reading {r : Request} {step : DelegateStep} (phase : s.phase = .awaitSuspended)
      (current : s.current = some r) (delegatePending : s.delegatePending = some step)
      (reads : step = .inner ∨ step = .return) (reactions : s.reactions = [])
      (stack : s.stack = [.reading step]) : Stage s [r.promise]
  | resolving {p : Nat} (value : JsValue) (done : Bool) (ready : s.Ready)
      (stack : s.stack = [.resolving p value done]) : Stage s [p]

/-- The promises, as far as they are settled, in service and in the queue. -/
def State.promises (s : State) (serving : List Nat) : List Nat :=
  s.settled.map Prod.fst ++ serving ++ s.queue.map Request.promise

/-- No promise is out of place, and the generator can be resumed. -/
structure Accounts (s : State) (serving : List Nat) : Prop where
  order : s.promises serving = List.range s.made
  tableAlive : s.tableAlive = true
  deferred : s.deferred = []

structure Served (s : State) (serving : List Nat) : Prop extends Accounts s serving where
  stage : Stage s serving

/-! ### Starting the next request -/

theorem State.settle_of_order {s : State} {p n : Nat} {rest : List Nat} (st : Settlement)
    (h : s.settled.map Prod.fst ++ p :: rest = List.range n) :
    s.settle p st = { s with settled := s.settled ++ [(p, st)] } := by
  have hnodup : (s.settled.map Prod.fst ++ p :: rest).Nodup := h ▸ List.nodup_range
  have hp : p ∉ s.settled.map Prod.fst := fun hmem =>
    List.disjoint_of_nodup_append hnodup hmem (by simp)
  rw [State.settle, if_neg hp]

/-- Nothing runs and nothing is in service; `queue` waits. -/
structure Free (s : State) (queue : List Request) : Prop where
  ready : s.Ready
  stack : s.stack = []
  order : s.settled.map Prod.fst ++ queue.map Request.promise = List.range s.made
  tableAlive : s.tableAlive = true
  deferred : s.deferred = []

/-- The request in service has been settled. -/
theorem Free.settle {s : State} {p : Nat} {queue : List Request} (st : Settlement)
    (ready : s.Ready) (stack : s.stack = [])
    (order : s.settled.map Prod.fst ++ p :: queue.map Request.promise = List.range s.made)
    (tableAlive : s.tableAlive = true) (deferred : s.deferred = []) :
    Free (s.settle p st) queue := by
  rw [State.settle_of_order st order]
  exact ⟨⟨ready.phase, ready.current, ready.delegatePending, ready.reactions⟩, stack,
    by simpa using order, tableAlive, deferred⟩

theorem served_startCompleted {s : State} {queue : List Request} (h : Free s queue) :
    ∃ serving, Served (State.startCompleted queue s) serving := by
  induction queue generalizing s with
  | nil =>
    refine ⟨[], ⟨?_, h.tableAlive, h.deferred⟩, .idle ⟨h.ready.phase, h.ready.current,
      h.ready.delegatePending, h.ready.reactions⟩ h.stack rfl⟩
    simpa [State.promises, State.startCompleted] using h.order
  | cons r queue ih =>
    have hresolve : ∀ v done,
        Served ({ s with queue := queue }.resolve r.promise v done) [r.promise] := by
      intro v done
      refine ⟨⟨?_, h.tableAlive, h.deferred⟩, .resolving v done ⟨h.ready.phase,
        h.ready.current, h.ready.delegatePending, h.ready.reactions⟩ ?_⟩
      · simpa [State.promises, State.resolve] using h.order
      · simp [State.resolve, h.stack]
    rw [State.startCompleted]
    cases r.mode with
    | next v => exact ⟨_, hresolve .undefined true⟩
    | «return» v => exact ⟨_, hresolve v true⟩
    | throw e => exact ih (Free.settle _ h.ready h.stack h.order h.tableAlive h.deferred)

/-- From a state where nothing is in service, the next request is taken up,
or there is none. -/
theorem served_start {s : State} (h : Free s s.queue) : ∃ serving, Served s.start serving := by
  rw [State.start]
  rcases h.ready.phase with hp | hp
  · simp only [hp]
    cases hq : s.queue with
    | nil =>
      rw [hq] at h
      exact ⟨[], ⟨by simpa [State.promises, hq] using h.order, h.tableAlive, h.deferred⟩,
        .idle h.ready h.stack hq⟩
    | cons r queue =>
      rw [hq] at h
      refine ⟨[r.promise], ?_⟩
      simp only [State.resume, h.tableAlive, if_true]
      exact ⟨⟨by simpa [State.promises] using h.order, rfl, h.deferred⟩,
        .running rfl rfl h.ready.delegatePending h.ready.reactions (by simp [h.stack])⟩
  · simp only [hp]
    exact served_startCompleted h

/-! ### The body is resumed -/

/-- Nothing runs, and the request in service is the current one. -/
structure Held (s : State) (r : Request) : Prop extends Accounts s [r.promise] where
  current : s.current = some r
  reactions : s.reactions = []
  stack : s.stack = []

theorem Held.resume {s : State} {r : Request} (h : Held s r) (hd : s.delegatePending = none) :
    Served s.resume [r.promise] := by
  rw [State.resume, if_pos h.tableAlive]
  exact ⟨⟨h.order, h.tableAlive, h.deferred⟩,
    .running rfl h.current hd h.reactions (by simp [h.stack])⟩

theorem Held.inject {s : State} {r : Request} (h : Held s r) (mode : Mode) :
    Held (s.inject mode) { r with mode := mode } :=
  ⟨⟨h.order, h.tableAlive, h.deferred⟩, by simp [State.inject, h.current], h.reactions, h.stack⟩

theorem Held.resumeWith {s : State} {r : Request} (h : Held s r) (mode : Mode) :
    Served (s.resumeWith mode) [r.promise] := by
  have h' : Held { s with delegatePending := none } r :=
    ⟨⟨h.order, h.tableAlive, h.deferred⟩, h.current, h.reactions, h.stack⟩
  exact (h'.inject mode).resume rfl

/-- The current request is answered with a value that is not the last. -/
theorem Held.delegateYieldRaw {s : State} {r : Request} (h : Held s r)
    (hp : s.phase = .awaitSuspended) (value : JsValue) :
    Served (s.delegateYieldRaw value) [r.promise] := by
  simp only [State.delegateYieldRaw, State.leaveAwait, hp, if_true, h.current]
  refine ⟨⟨h.order, h.tableAlive, h.deferred⟩, .resolving value false ⟨.inl rfl, rfl, rfl,
    h.reactions⟩ ?_⟩
  simp [State.resolve, h.stack]

/-! ### The body stops -/

theorem Held.await {s : State} {r : Request} (h : Held s r) {ρ : Reaction} (hρ : s.Awaits ρ) :
    Served (s.await ρ) [r.promise] := by
  refine ⟨⟨h.order, h.tableAlive, h.deferred⟩, .waiting ρ rfl h.current ?_
    (by simp [State.await, h.reactions]) h.stack⟩
  cases ρ <;> exact hρ

theorem Held.free {s : State} {r : Request} (h : Held s r) (hd : s.delegatePending = none)
    (exc : JsValue) :
    Free ({ s with phase := .completed, current := none }.settle r.promise (.rejected exc))
      s.queue :=
  Free.settle _ ⟨.inr rfl, rfl, hd, h.reactions⟩ h.stack
    (by simpa [State.promises] using h.order) h.tableAlive h.deferred

theorem queue_settle (s : State) (p : Nat) (st : Settlement) : (s.settle p st).queue = s.queue := by
  rw [State.settle]
  split <;> rfl

theorem Held.stop {s : State} {r : Request} (h : Held s r) (hd : s.delegatePending = none)
    {outcome : Outcome} (hok : outcome ≠ .closeFails) :
    ∃ serving, Served (s.stop outcome) serving := by
  have haccounts : ∀ s' : State, s'.settled = s.settled → s'.queue = s.queue → s'.made = s.made →
      s'.tableAlive = s.tableAlive → s'.deferred = s.deferred → Accounts s' [r.promise] := by
    intro s' h1 h2 h3 h4 h5
    exact ⟨by rw [State.promises, h1, h2, h3]; exact h.order, h4.trans h.tableAlive,
      h5.trans h.deferred⟩
  cases outcome with
  | yields v =>
    simp only [State.stop, h.current]
    exact ⟨_, haccounts _ rfl rfl rfl rfl rfl,
      .unwrapping rfl rfl hd (by simp [State.await, h.reactions]) h.stack⟩
  | awaits => exact ⟨_, h.await hd⟩
  | delegates step =>
    have h' : Held { s with delegatePending := some step } r :=
      ⟨haccounts _ rfl rfl rfl rfl rfl, h.current, h.reactions, h.stack⟩
    exact ⟨_, h'.await rfl⟩
  | escapes p =>
    have h' : Held { s with pendingEscape := some p } r :=
      ⟨haccounts _ rfl rfl rfl rfl rfl, h.current, h.reactions, h.stack⟩
    exact ⟨_, h'.await ⟨hd, rfl⟩⟩
  | disposes p =>
    have h' : Held { s with pendingDispose := some p } r :=
      ⟨haccounts _ rfl rfl rfl rfl rfl, h.current, h.reactions, h.stack⟩
    exact ⟨_, h'.await ⟨hd, rfl⟩⟩
  | completes v =>
    simp only [State.stop, h.current]
    exact ⟨_, haccounts _ rfl rfl rfl rfl rfl, .resolving v true
      ⟨.inr rfl, rfl, hd, h.reactions⟩ (by simp [State.resolve, h.stack])⟩
  | throws e =>
    simp only [State.stop, h.current]
    refine served_start ?_
    rw [queue_settle]
    exact h.free hd e
  | closeFails => exact absurd rfl hok

/-! ### Steps -/

/-- The `then` of an iterator result is being read. -/
def State.isResolving (s : State) : Bool :=
  match s.stack with
  | .resolving _ _ _ :: _ => true
  | _ => false

/-- The events that keep the order: no code runs while `then` of an
iterator result is read, and nothing callable is found there; no `return`
fails to leave an iterator or a resource; no reaction is dropped; and the
function of the generator is kept. -/
def Permits (s : State) : Event → Prop
  | .request _ | .reacts _ _ | .defers _ => s.isResolving = false
  | .stops outcome => outcome ≠ .closeFails
  | .readsThen r => r ≠ .callable
  | .readsAnswer _ => True
  | .drops _ | .reclaims => False

theorem Accounts.push {s : State} {serving : List Nat} (h : Accounts s serving) (mode : Mode) :
    Accounts (s.push mode) serving where
  order := by
    have horder := h.order
    rw [State.promises] at horder
    simp only [State.promises, State.push, List.map_append, List.map_cons, List.map_nil,
      List.range_succ,
      ← List.append_assoc, horder]
  tableAlive := h.tableAlive
  deferred := h.deferred

/-- While the body runs or waits, a request stays in the queue. -/
theorem enqueue_of_busy {s : State} (h : s.phase = .running ∨ s.phase = .awaitSuspended)
    (mode : Mode) : s.enqueue mode = s.push mode := by
  have hphase : (s.push mode).phase = s.phase := rfl
  rcases h with h | h <;> simp only [State.enqueue, State.start, hphase, h]

theorem served_enqueue {s : State} {serving : List Nat} (h : Served s serving) (mode : Mode)
    (hok : Permits s (.request mode)) : ∃ serving, Served (s.enqueue mode) serving := by
  have hacc := h.toAccounts.push mode
  cases h.stage with
  | idle ready stack queue =>
    refine served_start ⟨⟨ready.phase, ready.current, ready.delegatePending, ready.reactions⟩,
      stack, ?_, hacc.tableAlive, hacc.deferred⟩
    simpa [State.promises] using hacc.order
  | running phase current delegatePending reactions stack =>
    rw [enqueue_of_busy (.inl phase)]
    exact ⟨_, hacc, .running phase current delegatePending reactions stack⟩
  | waiting ρ phase current awaits reactions stack =>
    rw [enqueue_of_busy (.inr phase)]
    refine ⟨_, hacc, .waiting ρ phase current ?_ reactions stack⟩
    cases ρ <;> exact awaits
  | unwrapping phase current delegatePending reactions stack =>
    rw [enqueue_of_busy (.inr phase)]
    exact ⟨_, hacc, .unwrapping phase current delegatePending reactions stack⟩
  | reading phase current delegatePending reads reactions stack =>
    rw [enqueue_of_busy (.inr phase)]
    exact ⟨_, hacc, .reading phase current delegatePending reads reactions stack⟩
  | resolving value done ready stack => simp [Permits, State.isResolving, stack] at hok

/-- The answer of an inner iterator is read, and the body goes on or its
value is handed on. -/
theorem Held.finishReading {s : State} {r : Request} (h : Held s r)
    (hp : s.phase = .awaitSuspended) {step : DelegateStep}
    (hstep : step = .inner ∨ step = .return) (read : AnswerRead) :
    Served (s.finishReading step read) [r.promise] := by
  rcases hstep with rfl | rfl
  · match read with
    | .throws exc => exact h.resumeWith _
    | .answer true v => exact h.resumeWith _
    | .answer false v => exact h.delegateYieldRaw hp v
  · match read with
    | .throws exc => exact h.resumeWith _
    | .answer true v => exact h.resumeWith _
    | .answer false v => exact h.delegateYieldRaw hp v

theorem Held.reads {s : State} {r : Request} (h : Held s r) (hp : s.phase = .awaitSuspended)
    {step : DelegateStep} (hd : s.delegatePending = some step)
    (hstep : step = .inner ∨ step = .return) :
    Served { s with stack := .reading step :: s.stack } [r.promise] :=
  ⟨⟨h.order, h.tableAlive, h.deferred⟩,
    .reading hp h.current hd hstep h.reactions (by simp [h.stack])⟩

theorem Held.delegateStep (env : Env) {s : State} {r : Request} (h : Held s r)
    (hp : s.phase = .awaitSuspended) {step : DelegateStep} (hd : s.delegatePending = some step)
    (result : Except JsValue JsValue) :
    Served (s.delegateStep env step result) [r.promise] := by
  have hne : ¬ s.delegatePending ≠ some step := by simp [hd]
  unfold State.delegateStep
  rw [if_neg hne]
  cases step with
  | inner =>
    rcases result with exc | v
    · exact h.resumeWith _
    · dsimp only
      split
      · exact h.reads hp hd (.inl rfl)
      · exact h.resumeWith _
  | «return» =>
    rcases result with v | v <;> dsimp only <;> split
    · exact h.reads hp hd (.inr rfl)
    · exact h.resumeWith _
    · exact h.reads hp hd (.inr rfl)
    · exact h.resumeWith _
  | close => rcases result with exc | v <;> exact h.resumeWith _
  | returnAwait => rcases result with exc | v <;> exact h.resumeWith _

/-- The reaction the body waits for runs. -/
theorem Held.react (env : Env) {s : State} {r : Request} (h : Held s r)
    (hp : s.phase = .awaitSuspended) {ρ : Reaction} (hρ : s.Awaits ρ)
    (result : Except JsValue JsValue) : Served (s.react env ρ result) [r.promise] := by
  cases ρ with
  | await => rcases result with exc | v <;> exact (h.inject _).resume hρ
  | unwrap p => exact absurd hρ id
  | delegate step => exact h.delegateStep env hp hρ result
  | escape p =>
    rw [State.react, if_neg (by simp [hρ.2])]
    have h' : Held { s with pendingEscape := none } r :=
      ⟨⟨h.order, h.tableAlive, h.deferred⟩, h.current, h.reactions, h.stack⟩
    exact h'.resume hρ.1
  | dispose p =>
    rw [State.react, if_neg (by simp [hρ.2])]
    have h' : Held { s with pendingDispose := none } r :=
      ⟨⟨h.order, h.tableAlive, h.deferred⟩, h.current, h.reactions, h.stack⟩
    exact h'.resume hρ.1

/-- The reaction to a yielded value runs. -/
theorem served_unwrap (env : Env) {s : State} {p : Nat} (h : Accounts s [p])
    (hp : s.phase = .awaitSuspended) (hc : s.current = none) (hd : s.delegatePending = none)
    (hr : s.reactions = []) (hs : s.stack = []) (result : Except JsValue JsValue) :
    ∃ serving, Served (s.react env (.unwrap p) result) serving := by
  rcases result with exc | v
  · have horder : s.settled.map Prod.fst ++ p :: s.queue.map Request.promise =
        List.range s.made := by simpa [State.promises] using h.order
    rw [State.react, State.settle_of_order _ horder]
    refine served_start ?_
    simp only [State.leaveAwait, hp, if_true]
    exact ⟨⟨.inr rfl, hc, hd, hr⟩, hs, by simpa using horder, h.tableAlive, h.deferred⟩
  · simp only [State.react, State.leaveAwait, hp, if_true]
    exact ⟨[p], ⟨h.order, h.tableAlive, h.deferred⟩, .resolving v false ⟨.inl rfl, hc, hd, hr⟩
      (by simp [State.resolve, hs])⟩

/-- The promise in service is settled with what `then` was read as, and the
next request is taken up. -/
theorem served_finishResolving {s : State} {p : Nat} (h : Accounts s [p]) (hready : s.Ready)
    (hs : s.stack = []) (value : JsValue) (done : Bool) {r : ThenRead} (hr : r ≠ .callable) :
    ∃ serving, Served (s.finishResolving p value done r) serving := by
  have horder : s.settled.map Prod.fst ++ p :: s.queue.map Request.promise = List.range s.made := by
    simpa [State.promises] using h.order
  have hfree : ∀ st, Free (s.settle p st) (s.settle p st).queue := by
    intro st
    rw [queue_settle]
    exact Free.settle st hready hs horder h.tableAlive h.deferred
  cases r with
  | plain => exact served_start (hfree _)
  | throws exc => exact served_start (hfree _)
  | callable => exact absurd rfl hr

theorem served_step (env : Env) {s : State} {serving : List Nat} (h : Served s serving) {e : Event}
    (hok : Permits s e) : ∃ serving, Served (step env s e) serving := by
  have hacc : ∀ stack, Accounts { s with stack := stack } serving := fun _ =>
    ⟨h.order, h.tableAlive, h.deferred⟩
  have hacc' : ∀ reactions, Accounts { s with reactions := reactions } serving := fun _ =>
    ⟨h.order, h.tableAlive, h.deferred⟩
  cases e with
  | request mode => exact served_enqueue h mode hok
  | stops outcome =>
    cases h.stage with
    | running phase current delegatePending reactions stack =>
      simp only [step, stack]
      exact Held.stop ⟨hacc [], current, reactions, rfl⟩ delegatePending hok
    | idle _ stack | waiting _ _ _ _ _ stack | unwrapping _ _ _ _ stack
    | reading _ _ _ _ _ stack | resolving _ _ _ stack =>
      simp only [step, stack]
      exact ⟨_, h⟩
  | readsThen r =>
    cases h.stage with
    | resolving value done ready stack =>
      simp only [step, stack]
      exact served_finishResolving (hacc [])
        ⟨ready.phase, ready.current, ready.delegatePending, ready.reactions⟩ rfl value done hok
    | idle _ stack | waiting _ _ _ _ _ stack | unwrapping _ _ _ _ stack
    | reading _ _ _ _ _ stack | running _ _ _ _ stack =>
      simp only [step, stack]
      exact ⟨_, h⟩
  | readsAnswer r =>
    cases h.stage with
    | reading phase current delegatePending reads reactions stack =>
      simp only [step, stack]
      exact ⟨_, Held.finishReading ⟨hacc [], current, reactions, rfl⟩ phase reads r⟩
    | idle _ stack | waiting _ _ _ _ _ stack | unwrapping _ _ _ _ stack
    | running _ _ _ _ stack | resolving _ _ _ stack =>
      simp only [step, stack]
      exact ⟨_, h⟩
  | reacts i result =>
    cases h.stage with
    | waiting ρ phase current awaits reactions stack =>
      cases i with
      | zero =>
        simp only [step, reactions, List.getElem?_cons_zero, List.eraseIdx_zero,
          List.tail_cons]
        exact ⟨_, Held.react env ⟨hacc' [], current, rfl, stack⟩ phase
          (by cases ρ <;> exact awaits) result⟩
      | succ i =>
        simp only [step, reactions, List.getElem?_cons_succ, List.getElem?_nil]
        exact ⟨_, h⟩
    | unwrapping phase current delegatePending reactions stack =>
      cases i with
      | zero =>
        simp only [step, reactions, List.getElem?_cons_zero, List.eraseIdx_zero,
          List.tail_cons]
        exact served_unwrap env (hacc' []) phase current delegatePending rfl stack result
      | succ i =>
        simp only [step, reactions, List.getElem?_cons_succ, List.getElem?_nil]
        exact ⟨_, h⟩
    | idle ready _ | resolving _ _ ready _ =>
      simp only [step, ready.reactions, List.getElem?_nil]
      exact ⟨_, h⟩
    | running _ _ _ reactions | reading _ _ _ _ reactions =>
      simp only [step, reactions, List.getElem?_nil]
      exact ⟨_, h⟩
  | defers promise =>
    simp only [step, h.deferred, List.not_mem_nil, if_false]
    exact ⟨_, h⟩
  | drops i => exact absurd hok id
  | reclaims => exact absurd hok id

/-! ### Runs -/

theorem served_init : Served .init [] :=
  ⟨⟨rfl, rfl, rfl⟩, .idle ⟨.inl rfl, rfl, rfl, rfl⟩ rfl rfl⟩

theorem served_run (env : Env) {events : List Event}
    (h : Along (step env) Permits .init events) :
    ∃ serving, Served (run (step env) .init events) serving :=
  run_keeps_along (fun s => ∃ serving, Served s serving)
    (fun _ _ ⟨_, hs⟩ hok => served_step env hs hok) ⟨[], served_init⟩ h

/-- The runs of the body that are on the stack. -/
def State.bodies (s : State) : Nat :=
  s.stack.countP Frame.isBody

theorem Served.bodies_le_one {s : State} {serving : List Nat} (h : Served s serving) :
    s.bodies ≤ 1 ∧ (s.bodies = 1 ↔ s.phase = .running) := by
  cases h.stage with
  | idle ready stack => rcases ready.phase with hp | hp <;> simp [State.bodies, stack, hp]
  | running phase _ _ _ stack => simp [State.bodies, stack, phase, Frame.isBody]
  | waiting _ phase _ _ _ stack => simp [State.bodies, stack, phase]
  | unwrapping phase _ _ _ stack => simp [State.bodies, stack, phase]
  | reading phase _ _ _ _ stack => simp [State.bodies, stack, phase, Frame.isBody]
  | resolving _ _ ready stack =>
    rcases ready.phase with hp | hp <;> simp [State.bodies, stack, hp, Frame.isBody]

theorem Served.reactions_le_one {s : State} {serving : List Nat} (h : Served s serving) :
    s.reactions.length ≤ 1 := by
  cases h.stage with
  | idle ready | resolving _ _ ready => simp [ready.reactions]
  | running _ _ _ reactions | reading _ _ _ _ reactions => simp [reactions]
  | waiting _ _ _ _ reactions | unwrapping _ _ _ reactions => simp [reactions]

theorem Served.settled_prefix {s : State} {serving : List Nat} (h : Served s serving) :
    s.settled.map Prod.fst <+: List.range s.made := by
  rw [← h.order, State.promises, List.append_assoc]
  exact List.prefix_append _ _

/-- When nothing runs and nothing is waited for, every request has been
answered. -/
theorem Served.settled_of_quiet {s : State} {serving : List Nat} (h : Served s serving)
    (hstack : s.stack = []) (hreactions : s.reactions = []) :
    s.settled.map Prod.fst = List.range s.made := by
  have horder := h.order
  cases h.stage with
  | idle _ _ queue => simpa [State.promises, queue] using horder
  | running _ _ _ _ stack => simp [stack] at hstack
  | waiting _ _ _ _ reactions => simp [reactions] at hreactions
  | unwrapping _ _ _ reactions => simp [reactions] at hreactions
  | reading _ _ _ _ _ stack => simp [stack] at hstack
  | resolving _ _ _ stack => simp [stack] at hstack

theorem Served.stack_of_waiting {s : State} {serving : List Nat} (h : Served s serving)
    (hp : s.phase = .awaitSuspended) : s.stack = [] ∨ ∃ step, s.stack = [.reading step] := by
  cases h.stage with
  | idle ready | resolving _ _ ready => rcases ready.phase with hp' | hp' <;> simp [hp'] at hp
  | running phase => simp [phase] at hp
  | waiting _ _ _ _ _ stack | unwrapping _ _ _ _ stack => exact .inl stack
  | reading _ _ _ _ _ stack => exact .inr ⟨_, stack⟩

/-- A body that waits goes on by the reaction it waits for only. -/
theorem Served.resumed_by_reaction (env : Env) {s : State} {serving : List Nat}
    (h : Served s serving) (hp : s.phase = .awaitSuspended) {e : Event}
    (hrun : (step env s e).phase = .running) :
    (∃ i result, e = .reacts i result) ∨ ∃ r, e = .readsAnswer r := by
  cases e with
  | reacts i result => exact .inl ⟨i, result, rfl⟩
  | readsAnswer r => exact .inr ⟨r, rfl⟩
  | request mode =>
    rw [step, enqueue_of_busy (.inr hp)] at hrun
    simp [State.push, hp] at hrun
  | stops outcome =>
    rcases h.stack_of_waiting hp with hs | ⟨_, hs⟩ <;> simp [step, hs, hp] at hrun
  | readsThen r =>
    rcases h.stack_of_waiting hp with hs | ⟨_, hs⟩ <;> simp [step, hs, hp] at hrun
  | defers promise =>
    simp only [step, h.deferred, List.not_mem_nil, if_false, hp] at hrun
    cases hrun
  | drops i => simp [step, hp] at hrun
  | reclaims => simp [step, hp] at hrun

/-- The promises settled are the first ones that were handed out, each once
and in this order; they are all of them when nothing runs and nothing is
waited for; the body runs at most once; and when it waits, it waits for at
most one reaction, and goes on by that one only. -/
structure OneAtATime (env : Env) (s : State) : Prop where
  order : s.settled.map Prod.fst <+: List.range s.made
  complete : s.stack = [] → s.reactions = [] → s.settled.map Prod.fst = List.range s.made
  body : s.bodies ≤ 1 ∧ (s.bodies = 1 ↔ s.phase = .running)
  reaction : s.reactions.length ≤ 1
  resumed : s.phase = .awaitSuspended → ∀ e, (step env s e).phase = .running →
    (∃ i result, e = .reacts i result) ∨ ∃ r, e = .readsAnswer r

/-- In every run of requests, steps of the body and reactions, in any
interleaving, that meets the condition at each event, the requests are
served in order, one at a time and without loss. -/
theorem async_requests_one_at_a_time (env : Env) {events : List Event}
    (h : Along (step env) Permits .init events) :
    OneAtATime env (run (step env) .init events) := by
  obtain ⟨serving, hs⟩ := served_run env h
  exact
    { order := hs.settled_prefix
      complete := hs.settled_of_quiet
      body := hs.bodies_le_one
      reaction := hs.reactions_le_one
      resumed := fun hp _ hrun => hs.resumed_by_reaction env hp hrun }

def sampleEnv : Env := ⟨.undefined, .undefined, .undefined⟩

/-- Two requests, the second while the body runs for the first: both are
answered, in this order. -/
theorem async_requests_one_at_a_time_two :
    OneAtATime sampleEnv (run (step sampleEnv) .init
      [.request (.next .undefined), .request (.return .null), .stops (.yields .undefined),
        .reacts 0 (.ok .undefined), .readsThen .plain, .stops (.completes .null),
        .readsThen .plain]) ∧
    (run (step sampleEnv) .init
      [.request (.next .undefined), .request (.return .null), .stops (.yields .undefined),
        .reacts 0 (.ok .undefined), .readsThen .plain, .stops (.completes .null),
        .readsThen .plain]).settled.map Prod.fst = [0, 1] :=
  ⟨async_requests_one_at_a_time sampleEnv
    ⟨rfl, rfl, nofun, rfl, nofun, nofun, nofun, trivial⟩, rfl⟩

/-- Without the condition. A `return` in a loop over an iterator whose
`return` method throws: nothing runs and nothing is waited for, and the
requests from there on are never answered. A getter of `then` on
`Object.prototype` that calls `next`: the later request is answered
first. -/
theorem requests_lost_and_overtaken :
    (let s := run (step sampleEnv) .init
      [.request (.next .undefined), .stops (.yields .undefined), .reacts 0 (.ok .undefined),
        .readsThen .plain, .request (.return .undefined), .stops .closeFails,
        .request (.next .undefined)]
     s.stack.length = 0 ∧ s.reactions.length = 0 ∧ s.made = 3 ∧ s.settled.map Prod.fst = [0]) ∧
    (run (step sampleEnv) .init
      [.request (.next .undefined), .stops (.yields .undefined), .reacts 0 (.ok .undefined),
        .request (.next .undefined), .stops (.completes .undefined), .readsThen .plain,
        .readsThen .plain]).settled.map Prod.fst = [1, 0] :=
  ⟨⟨rfl, rfl, rfl, rfl⟩, rfl⟩

end OxideJS.AsyncGen
