import Mathlib.Logic.Function.Iterate
import OxideJS.AsyncGen.Body

/-!
Yielding a promise that is rejected.

A yielded value is awaited before the request is answered. If its promise
is rejected, the reason is to be thrown at the `yield`, where the body can
catch it. The reaction that unwraps the value does something else: it
rejects the request and closes the generator, and the body is not resumed.

The two come to the same only where nothing in the body has to do with the
exception. With a handler around the `yield` they differ, since the handler
is not entered.
-/

namespace OxideJS.AsyncGen

open State (Env)

/-- A generator with its body. -/
structure Gen (σ : Type*) where
  queue : State
  body : Body.Config σ

namespace Gen

variable {σ : Type*}

/-- The body takes a step, if it runs. A body that was suspended is given
what the current request brings first. -/
def tick (env : Env) (g : Gen σ) : Gen σ :=
  match g.queue.stack with
  | .body :: _ =>
    match g.body.control with
    | .suspended receive =>
      let mode := (g.queue.current.map Request.mode).getD (.next .undefined)
      { g with body := g.body.resume receive mode }
    | _ =>
      match g.body.step with
      | (body, none) => { g with body := body }
      | (body, some outcome) => ⟨step env g.queue (.stops outcome), body⟩
  | _ => g

def request (env : Env) (g : Gen σ) (mode : Mode) : Gen σ :=
  { g with queue := step env g.queue (.request mode) }

/-- The reaction to a yielded value that is rejected. -/
def yieldRejected (env : Env) (g : Gen σ) (i : Nat) (reason : JsValue) : Gen σ :=
  { g with queue := step env g.queue (.reacts i (.error reason)) }

/-- The reason is thrown at the `yield`: the request is in service again,
and the body is resumed with the exception. -/
def throwAtYield (g : Gen σ) (i promise : Nat) (reason : JsValue) : Gen σ :=
  { g with
    queue := { g.queue with
      reactions := g.queue.reactions.eraseIdx i
      current := some ⟨.throw reason, promise⟩
      phase := .running
      stack := .body :: g.queue.stack } }

/-- What can be seen of a generator: its requests, the effects of its body,
and the handlers that were entered. -/
def observed (g : Gen σ) : State × σ × List Body.HandlerKind :=
  (g.queue, g.body.store, g.body.entered)

/-- The state the reaction leaves is one the body comes to when the reason
is thrown at the `yield`. -/
def ThrownAtYield (env : Env) (g : Gen σ) (i promise : Nat) (reason : JsValue) : Prop :=
  ∃ n, ((tick env)^[n] (g.throwAtYield i promise reason)).observed =
    (g.yieldRejected env i reason).observed

/-- The body has yielded for a request, and the value is being awaited. -/
structure Yielded (g : Gen σ) (i promise : Nat) : Prop where
  reaction : g.queue.reactions[i]? = some (.unwrap promise)
  phase : g.queue.phase = .awaitSuspended
  current : g.queue.current = none
  suspended : ∃ receive, g.body.control = .suspended receive

/-! ### From the yield to the rejection -/

section

variable {env : Env} {g : Gen σ} {i promise : Nat} {reason : JsValue}

theorem tick_of_yields {r : Request} {stack : List Frame} {body : Body.Config σ} {value : JsValue}
    (hstack : g.queue.stack = .body :: stack) (hcurrent : g.queue.current = some r)
    (hstep : g.body.step = (body, some (.yields value))) :
    g.tick env = ⟨{ g.queue with
      stack := stack, current := none, phase := .awaitSuspended
      reactions := g.queue.reactions ++ [.unwrap r.promise] }, body⟩ := by
  have hcontrol : ∀ receive, g.body.control ≠ .suspended receive := by
    intro receive hsuspended
    rw [Body.Config.step, hsuspended] at hstep
    cases congrArg Prod.snd hstep
  unfold tick
  rw [hstack]
  dsimp only
  split
  · next hsuspended => exact absurd hsuspended (hcontrol _)
  · rw [hstep]
    simp only [step, hstack, State.stop, hcurrent, State.await]

theorem Yielded.request (h : Yielded g i promise) (mode : Mode) :
    Yielded (g.request env mode) i promise := by
  have hqueue : (g.request env mode).queue = g.queue.push mode := by
    simp only [Gen.request, step, State.enqueue, State.start, State.push, h.phase]
  refine ⟨?_, ?_, ?_, h.suspended⟩
  · rw [hqueue]
    exact h.reaction
  · rw [hqueue]
    exact h.phase
  · rw [hqueue]
    exact h.current

theorem Yielded.requests (h : Yielded g i promise) (modes : List Mode) :
    Yielded (modes.foldl (Gen.request env) g) i promise := by
  induction modes generalizing g with
  | nil => exact h
  | cons mode modes ih => exact ih (h.request mode)

theorem body_requests (modes : List Mode) : (modes.foldl (Gen.request env) g).body = g.body := by
  induction modes generalizing g with
  | nil => rfl
  | cons mode modes ih => exact ih

/-! ### Without a handler -/

/-- The exception leaves the body. -/
theorem tick_unwinds {stack : List Frame} (hstack : g.queue.stack = .body :: stack)
    (hcontrol : g.body.control = .complete (.throw reason)) (hnone : g.body.handlers = []) :
    (tick env)^[g.body.frames.length + 1] g =
      ⟨step env g.queue (.stops (.throws reason)), { g.body with frames := [] }⟩ := by
  obtain ⟨queue, control, frames, store, entered⟩ := g
  obtain rfl : control = .complete (.throw reason) := hcontrol
  induction frames with
  | nil =>
    show tick env _ = _
    unfold tick
    rw [show queue.stack = .body :: stack from hstack]
    rfl
  | cons f frames ih =>
    rcases hkind : f.kind with _ | kind
    · have htick : tick env ⟨queue, ⟨.complete (.throw reason), f :: frames, store, entered⟩⟩ =
          ⟨queue, ⟨.complete (.throw reason), frames, store, entered⟩⟩ := by
        unfold tick
        rw [show queue.stack = .body :: stack from hstack]
        simp only [Body.Config.step, Body.Config.completeFrame_throw_of_kind_none hkind]
      show (tick env)^[frames.length + 1 + 1] _ = _
      rw [Function.iterate_succ_apply, htick]
      exact ih hstack ((Body.Config.handlers_of_kind_none hkind rfl).symm.trans hnone)
    · simp [Body.Config.handlers, hkind] at hnone

theorem phase_settle (s : State) (promise : Nat) (st : Settlement) :
    (s.settle promise st).phase = s.phase := by
  unfold State.settle
  split <;> rfl

theorem leaveAwait_settle {s : State} (h : s.phase = .awaitSuspended) (promise : Nat)
    (st : Settlement) (phase : Phase) :
    (s.settle promise st).leaveAwait phase = { s with phase := phase }.settle promise st := by
  have hphase : (s.settle promise st).phase = .awaitSuspended := (phase_settle s promise st).trans h
  rw [State.leaveAwait, if_pos hphase]
  unfold State.settle
  dsimp only
  split <;> rfl

/-- The request is rejected, and the next one is served. -/
theorem step_throws (h : Yielded g i promise) :
    step env (g.throwAtYield i promise reason).queue (.stops (.throws reason)) =
      (g.yieldRejected env i reason).queue := by
  have hreact : (g.yieldRejected env i reason).queue = State.start (State.settle
      { g.queue with reactions := g.queue.reactions.eraseIdx i, phase := .completed }
      promise (.rejected reason)) := by
    simp only [yieldRejected, step, h.reaction, State.react]
    exact congrArg State.start (leaveAwait_settle
      (s := { g.queue with reactions := g.queue.reactions.eraseIdx i }) h.phase _ _ _)
  rw [hreact]
  show State.start (State.settle { g.queue with
    reactions := g.queue.reactions.eraseIdx i, phase := .completed, current := none } _ _) = _
  rw [← h.current]

theorem thrownAtYield_of_handlers_nil (h : Yielded g i promise) (hnone : g.body.handlers = []) :
    ThrownAtYield env g i promise reason := by
  obtain ⟨receive, hsuspended⟩ := h.suspended
  -- the first tick hands the exception to the body
  have htick : tick env (g.throwAtYield i promise reason) =
      ⟨(g.throwAtYield i promise reason).queue,
        { g.body with control := .complete (.throw reason) }⟩ := by
    unfold tick
    simp only [throwAtYield, hsuspended]
    rfl
  refine ⟨g.body.frames.length + 1 + 1, ?_⟩
  rw [Function.iterate_succ_apply, htick]
  have hunwinds : (tick env)^[g.body.frames.length + 1] _ = _ :=
    tick_unwinds (g := ⟨(g.throwAtYield i promise reason).queue,
      { g.body with control := .complete (.throw reason) }⟩) rfl rfl hnone
  rw [hunwinds, observed, observed, step_throws h]
  rfl

/-! ### With a handler -/

theorem phase_startCompleted (queue : List Request) (s : State) :
    (State.startCompleted queue s).phase = s.phase := by
  induction queue generalizing s with
  | nil => rfl
  | cons r queue ih =>
    unfold State.startCompleted
    rcases r.mode with v | v | e
    · rfl
    · rfl
    · exact (ih _).trans (phase_settle s _ _)

/-- The reaction closes the generator. -/
theorem phase_yieldRejected (h : Yielded g i promise) :
    (g.yieldRejected env i reason).queue.phase = .completed := by
  simp only [yieldRejected, step, h.reaction, State.react, State.leaveAwait, phase_settle, h.phase,
    if_true, State.start, phase_startCompleted]

/-- The exception is on its way to a handler. -/
structure Unwinding (entered : List Body.HandlerKind) (reason : JsValue) (g : Gen σ) : Prop where
  phase : g.queue.phase = .running
  stack : ∃ stack, g.queue.stack = .body :: stack
  mode : g.queue.current.map Request.mode = some (.throw reason)
  control : (∃ receive, g.body.control = .suspended receive) ∨
    g.body.control = .complete (.throw reason)
  handlers : g.body.handlers ≠ []
  entered : g.body.entered = entered

/-- A handler was entered. -/
def Entered (entered : List Body.HandlerKind) (g : Gen σ) : Prop :=
  ∃ kinds, kinds ≠ [] ∧ g.body.entered = entered ++ kinds

theorem Entered.tick {entered : List Body.HandlerKind} (h : Entered entered g) :
    Entered entered (g.tick env) := by
  obtain ⟨kinds, hkinds, hentered⟩ := h
  unfold Gen.tick
  split
  · split
    · refine ⟨kinds, hkinds, ?_⟩
      rw [← hentered]
      cases (g.queue.current.map Request.mode).getD (.next .undefined) <;> rfl
    · obtain ⟨more, hmore⟩ := g.body.entered_step
      rw [hentered, List.append_assoc] at hmore
      split <;> next hstep => exact ⟨kinds ++ more, by simp [hkinds], by rw [← hmore, hstep]⟩
  · exact ⟨kinds, hkinds, hentered⟩

theorem Unwinding.tick {entered : List Body.HandlerKind} (h : Unwinding entered reason g) :
    Unwinding entered reason (g.tick env) ∨ Entered entered (g.tick env) := by
  obtain ⟨stack, hstack⟩ := h.stack
  rcases h.control with ⟨receive, hcontrol⟩ | hcontrol
  · have htick : g.tick env =
        { g with body := { g.body with control := .complete (.throw reason) } } := by
      unfold Gen.tick
      simp only [hstack, hcontrol, h.mode]
      rfl
    rw [htick]
    exact .inl ⟨h.phase, h.stack, h.mode, .inr rfl, h.handlers, h.entered⟩
  · obtain ⟨queue, control, frames, store, entered⟩ := g
    obtain rfl : control = .complete (.throw reason) := hcontrol
    cases frames with
    | nil => exact absurd rfl h.handlers
    | cons f frames =>
      set body : Body.Config σ := ⟨.complete (.throw reason), f :: frames, store, entered⟩
      have htick : Gen.tick env ⟨queue, body⟩ =
          ⟨queue, body.completeFrame frames (.throw reason) f⟩ := by
        unfold Gen.tick
        rw [show queue.stack = .body :: stack from hstack]
        rfl
      rw [htick]
      rcases hkind : f.kind with _ | kind
      · refine .inl ?_
        rw [Body.Config.completeFrame_throw_of_kind_none hkind]
        have hrest : body.handlers =
            Body.Config.handlers ⟨.complete (.throw reason), frames, store, entered⟩ :=
          Body.Config.handlers_of_kind_none hkind rfl
        exact ⟨h.phase, h.stack, h.mode, .inr rfl, hrest ▸ h.handlers, h.entered⟩
      · refine .inr ⟨[kind], by simp, ?_⟩
        rw [← h.entered]
        exact Body.Config.entered_completeFrame_throw hkind frames reason

/-- It stays on its way until a handler is entered. -/
theorem unwinding_or_entered {entered : List Body.HandlerKind} (n : Nat)
    (h : Unwinding entered reason g ∨ Entered entered g) :
    Unwinding entered reason ((tick env)^[n] g) ∨ Entered entered ((tick env)^[n] g) := by
  induction n generalizing g with
  | zero => exact h
  | succ n ih =>
    refine ih ?_
    rcases h with hunwinding | hentered
    · exact hunwinding.tick
    · exact .inr hentered.tick

theorem handlers_nil_of_thrownAtYield (h : Yielded g i promise)
    (hthrown : ThrownAtYield env g i promise reason) : g.body.handlers = [] := by
  by_contra hhandlers
  obtain ⟨n, hobserved⟩ := hthrown
  obtain ⟨hqueue, hbody⟩ := Prod.mk.inj hobserved
  have hentered := (Prod.mk.inj hbody).2
  have hstart : Unwinding g.body.entered reason (g.throwAtYield i promise reason) :=
    ⟨rfl, ⟨_, rfl⟩, rfl, .inl h.suspended, hhandlers, rfl⟩
  have hafter : Unwinding _ reason ((tick env)^[n] _) ∨ _ := unwinding_or_entered n (.inl hstart)
  rcases hafter with hunwinding | ⟨kinds, hkinds, heq⟩
  · have hphase := hunwinding.phase
    rw [hqueue, phase_yieldRejected h] at hphase
    exact nomatch hphase
  · rw [hentered] at heq
    exact hkinds (List.self_eq_append_right.mp heq)

/-! ### The reason is thrown at the yield -/

/-- The value is yielded, requests may come in, and the promise is
rejected. -/
theorem thrownAtYield_iff_no_handler (g : Gen σ) {r : Request} {stack : List Frame}
    {body : Body.Config σ} {value : JsValue} (hstack : g.queue.stack = .body :: stack)
    (hcurrent : g.queue.current = some r) (hstep : g.body.step = (body, some (.yields value)))
    (modes : List Mode) (reason : JsValue) :
    ThrownAtYield env (modes.foldl (request env) (g.tick env)) g.queue.reactions.length r.promise
      reason ↔ body.handlers = [] := by
  have htick : g.tick env = _ := tick_of_yields hstack hcurrent hstep
  have hyielded : Yielded (g.tick env) g.queue.reactions.length r.promise := by
    rw [htick]
    exact ⟨List.getElem?_concat_length, rfl, rfl, Body.Config.suspended_of_yields hstep⟩
  have hbody : (modes.foldl (request env) (g.tick env)).body = body := by
    rw [body_requests, htick]
  rw [← hbody]
  exact ⟨handlers_nil_of_thrownAtYield (hyielded.requests modes),
    thrownAtYield_of_handlers_nil (hyielded.requests modes)⟩

end

/-- Nothing in the body is around the `yield`, and a second request comes in
before the promise is rejected. -/
theorem thrownAtYield_bare :
    let body : Body.Stmt Unit := .yield (fun _ => .undefined) (fun _ s => s)
    let env : Env := ⟨.undefined, .undefined, .undefined⟩
    let g := request env ⟨State.init, Body.Config.start body ()⟩ (.next .undefined)
    ThrownAtYield env ([Mode.next .undefined].foldl (request env) (g.tick env)) 0 0 (.int 7) := by
  intro body env g
  have hstack : g.queue.stack = [.body] := rfl
  have hcurrent : g.queue.current = some ⟨.next .undefined, 0⟩ := rfl
  exact (thrownAtYield_iff_no_handler g hstack hcurrent rfl [.next .undefined] (.int 7)).mpr rfl

/-- `try { yield p } catch (e) {}`: the handler is not entered. -/
theorem yieldRejected_skips_catch :
    let body : Body.Stmt Unit :=
      .tryCatch (.yield (fun _ => .undefined) (fun _ s => s)) (fun _ s => s) (.act id)
    let env : Env := ⟨.undefined, .undefined, .undefined⟩
    let g := request env ⟨State.init, Body.Config.start body ()⟩ (.next .undefined)
    ¬ ThrownAtYield env ((tick env)^[2] g) 0 0 (.int 7) := by
  intro body env g hthrown
  have hyielded : Yielded ((tick env)^[2] g) 0 0 := ⟨rfl, rfl, rfl, _, rfl⟩
  exact nomatch handlers_nil_of_thrownAtYield hyielded hthrown

end Gen

end OxideJS.AsyncGen
