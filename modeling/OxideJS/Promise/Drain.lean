import OxideJS.Promise.Once

/-!
Draining the queue of jobs.

`drain_microtasks` takes one job after the other from the front of the
queue and runs it. What a job does is not known: it may put further jobs
at the end, fail, or evaluate a module and so start a drain of its own,
which works on the same queue while the outer one waits for its job. All
of this is events, and every sequence of them is a run.

A drain counts the jobs it takes and gives up beyond a limit. It notices
that after it has taken the job, and the job is neither run nor put back:
the jobs of a run are conserved exactly when no drain of it reaches the
limit with jobs left.
-/

namespace OxideJS.Promise

open OxideJS.Lib.Runs

def maxDrainJobs : Nat := 1000000

/-- A call of `drain_microtasks` under way: the jobs it has counted, and
the frames there were when it was called. Its job is over when there are no
more frames than that. -/
structure Drain where
  count : Nat := 0
  depth : Nat

/-- The promises and their queue, and the drains under way, innermost
first. `executed` is a record of the jobs that were run. -/
structure Engine where
  state : State := {}
  drains : List Drain := []
  executed : List Microtask := []

namespace Engine

inductive Event where
  /-- Something the running code does. -/
  | code (e : Promise.Event)
  /-- `drain_microtasks` is called. -/
  | drain
  /-- One turn of the loop of the innermost drain. -/
  | turn (thenRead : ThenRead)

/-- Jobs are taken by the drains only, and code that has called one waits
for it. -/
def admits (s : Engine) : Promise.Event → Bool
  | .job _ | .abortDrain => false
  | .returned _ _ | .thrown _ _ =>
    match s.drains with
    | [] => true
    | d :: _ => d.depth < s.state.frames.length
  | _ => true

def step (s : Engine) : Event → Engine
  | .code e => if s.admits e then { s with state := Promise.step s.state e } else s
  | .drain => { s with drains := { depth := s.state.frames.length } :: s.drains }
  | .turn thenRead =>
    match s.drains with
    | [] => s
    | d :: outer =>
      if d.depth < s.state.frames.length then s
      else
        match s.state.jobQueue with
        | [] => { s with drains := outer }
        | job :: rest =>
          let count := d.count + 1
          if maxDrainJobs < count then
            { s with state := s.state.takeJob job rest, drains := outer }
          else
            { state := (s.state.takeJob job rest).runMicrotask thenRead job
              drains := { d with count := count } :: outer
              executed := s.executed ++ [job] }

/-- The state a run ends in. -/
def after (events : List Event) : Engine :=
  run step {} events

/-- The jobs that were run, followed by those in the queue, are all jobs
ever put into the queue, in their order. -/
def Conserved (s : Engine) : Prop :=
  s.executed ++ s.state.jobQueue = s.state.history.map (·.2)

/-- The innermost drain does not turn to its loop with a job in the queue
when it has run as many as it may. -/
def Fits (s : Engine) : Event → Prop
  | .turn _ => ∀ d ∈ s.drains.head?, s.state.frames.length ≤ d.depth → s.state.jobQueue ≠ [] →
      d.count < maxDrainJobs
  | _ => True

end Engine

/-! ### What takes a job -/

namespace State

variable (s : State)

theorem taken_settlePromise (isFulfill : Bool) (p : Nat) (value : Value) :
    (s.settlePromise isFulfill p value).taken = s.taken := by
  unfold settlePromise
  split
  · rfl
  · split <;> rfl

theorem taken_markResolved (p : Nat) : (s.markResolved p).taken = s.taken := by
  unfold markResolved
  split <;> rfl

theorem taken_resolveThen (p : Nat) (x thenValue : Value) :
    (s.resolveThen p x thenValue).taken = s.taken := by
  unfold resolveThen
  split
  · exact s.taken_markResolved p
  · exact s.taken_settlePromise true p x

theorem taken_resolvePromise (p : Nat) (x : Value) (thenRead : ThenRead) :
    (s.resolvePromise p x thenRead).taken = s.taken := by
  unfold resolvePromise
  split
  · exact s.taken_settlePromise false p _
  · split
    · cases thenRead with
      | data thenValue => exact s.taken_resolveThen p x thenValue
      | getter => rfl
    · exact s.taken_settlePromise true p x

theorem taken_callResolving (pair : Nat) (reject : Bool) (x : Value) (thenRead : ThenRead) :
    (s.callResolving pair reject x thenRead).taken = s.taken := by
  unfold callResolving
  split
  · rfl
  · next fn _ =>
    split
    · rfl
    · split
      · rfl
      · have hmark : ((if fn.delegated then s else s.markResolved fn.promise).noteCall pair).taken =
            s.taken := by
          cases fn.delegated with
          | true => rfl
          | false => exact s.taken_markResolved fn.promise
        cases reject with
        | true => exact (taken_settlePromise _ false _ x).trans hmark
        | false => exact (taken_resolvePromise _ _ x thenRead).trans hmark

theorem taken_callFunction (f x : Value) (thenRead : ThenRead) :
    (s.callFunction f x thenRead).taken = s.taken := by
  cases f with
  | resolving pair reject => exact s.taken_callResolving pair reject x thenRead
  | _ => rfl

theorem taken_runMicrotask (thenRead : ThenRead) (job : Microtask) :
    (s.runMicrotask thenRead job).taken = s.taken := by
  cases job with
  | reaction isFulfill handler argument resolve reject =>
    dsimp only [runMicrotask]
    split
    · rfl
    · split <;> exact s.taken_callFunction _ argument thenRead
  | thenable => rfl

theorem taken_performPromiseThen (r : Registration) :
    (s.performPromiseThen r).taken = s.taken := by
  unfold performPromiseThen
  split
  · rfl
  · split <;> rfl

/-- Only the two events of a drain take a job. -/
theorem taken_step {e : Event} (hjob : ∀ thenRead, e ≠ .job thenRead) (habort : e ≠ .abortDrain) :
    (step s e).taken = s.taken := by
  cases e with
  | construct => rfl
  | capability => rfl
  | call pair reject x thenRead => exact s.taken_callResolving pair reject x thenRead
  | «then» r => exact s.taken_performPromiseThen r
  | resolve p x thenRead => exact s.taken_resolvePromise p x thenRead
  | fulfill p value => exact s.taken_settlePromise true p value
  | reject p reason => exact s.taken_settlePromise false p reason
  | job thenRead => exact absurd rfl (hjob thenRead)
  | abortDrain => exact absurd rfl habort
  | returned v thenRead =>
    dsimp only [step]
    split
    · rfl
    · next f rest _ =>
      cases f with
      | thenOf p x => exact taken_resolveThen _ p x v
      | handler resolve reject => exact taken_callFunction _ resolve v thenRead
      | thenCall reject => rfl
      | executor p => rfl
  | thrown e thenRead =>
    dsimp only [step]
    split
    · rfl
    · next f rest _ =>
      cases f with
      | thenOf p x => exact taken_settlePromise _ false p e
      | handler resolve reject => exact taken_callFunction _ reject e thenRead
      | thenCall reject => exact taken_callFunction _ reject e thenRead
      | executor p => exact taken_settlePromise _ false p e

end State

namespace Engine

/-! ### Jobs taken and jobs run -/

/-- A step runs the jobs it takes, unless it is the turn in which a drain
gives up: that one takes a job and does not run it. -/
theorem step_takes (s : Engine) (e : Event) :
    (Fits s e ∧ ∃ jobs, (step s e).executed = s.executed ++ jobs ∧
        (step s e).state.taken = s.state.taken ++ jobs) ∨
      (¬Fits s e ∧ (step s e).executed = s.executed ∧
        ∃ job, (step s e).state.taken = s.state.taken ++ [job]) := by
  cases e with
  | code e =>
    refine Or.inl ⟨trivial, [], ?_, ?_⟩
    · rw [List.append_nil, step]
      split <;> rfl
    · rw [List.append_nil, step]
      split
      · next hadmits =>
        refine State.taken_step _ ?_ ?_
        · rintro thenRead rfl
          exact Bool.noConfusion hadmits
        · rintro rfl
          exact Bool.noConfusion hadmits
      · rfl
  | drain => exact Or.inl ⟨trivial, [], (List.append_nil _).symm, (List.append_nil _).symm⟩
  | turn thenRead =>
    rcases hdrains : s.drains with _ | ⟨d, outer⟩
    · refine Or.inl ⟨by simp [Fits, hdrains], [], ?_⟩
      simp [step, hdrains]
    by_cases hdepth : d.depth < s.state.frames.length
    · refine Or.inl ⟨?_, [], by simp [step, hdrains, hdepth]⟩
      intro d' hd' hle
      obtain rfl : d = d' := by simpa [hdrains] using hd'
      omega
    rcases hqueue : s.state.jobQueue with _ | ⟨job, rest⟩
    · refine Or.inl ⟨by simp [Fits, hqueue], [], ?_⟩
      simp [step, hdrains, hdepth, hqueue]
    by_cases hcount : maxDrainJobs < d.count + 1
    · refine Or.inr ⟨?_, ?_, job, ?_⟩
      · intro hfits
        have := hfits d (by simp [hdrains]) (by omega) (by simp [hqueue])
        omega
      · simp [step, hdrains, hdepth, hqueue, hcount]
      · simp [step, hdrains, hdepth, hqueue, hcount, State.takeJob]
    · refine Or.inl ⟨?_, [job], ?_, ?_⟩
      · intro d' hd' _ _
        obtain rfl : d = d' := by simpa [hdrains] using hd'
        omega
      · simp [step, hdrains, hdepth, hqueue, hcount]
      · simp [step, hdrains, hdepth, hqueue, hcount, State.taken_runMicrotask, State.takeJob]

/-- The promises move as in a run without a count of the jobs. -/
theorem moves_state (s : Engine) (e : Event) : Moves s.state (step s e).state := by
  cases e with
  | code e =>
    dsimp only [step]
    split
    · exact moves_step s.state e
    · exact .refl _
  | drain => exact .refl _
  | turn thenRead =>
    rcases hdrains : s.drains with _ | ⟨d, outer⟩
    · simpa only [step, hdrains] using Moves.refl s.state
    by_cases hdepth : d.depth < s.state.frames.length
    · simpa only [step, hdrains, hdepth, if_true] using Moves.refl s.state
    rcases hqueue : s.state.jobQueue with _ | ⟨job, rest⟩
    · simpa only [step, hdrains, hdepth, hqueue, if_false] using Moves.refl s.state
    by_cases hcount : maxDrainJobs < d.count + 1
    · simpa only [step, hdrains, hdepth, hqueue, hcount, if_false, if_true]
        using moves_takeJob hqueue
    · simpa only [step, hdrains, hdepth, hqueue, hcount, if_false]
        using (moves_takeJob hqueue).trans (moves_runMicrotask _ thenRead job)

theorem inv_state (events : List Event) : Inv (after events).state :=
  run_keeps (fun s : Engine => Inv s.state) (fun s e h => (moves_state s e).inv h)
    (inv_after []) events

/-- The jobs are conserved as long as every job taken was run. -/
theorem conserved_iff {s : Engine} (h : Inv s.state) :
    Conserved s ↔ s.executed = s.state.taken := by
  rw [Conserved, ← h.queue]
  exact List.append_left_inj _

/-- In every run, with every behaviour of the jobs: the jobs that were run
and those in the queue are all jobs there were, in their order, exactly
when no drain reaches its limit with a job in the queue. -/
theorem drain_conserves_iff (events : List Event) :
    Conserved (after events) ↔ Along step Fits {} events := by
  rw [conserved_iff (inv_state events)]
  refine run_iff_along (fun s : Engine => s.executed = s.state.taken)
    (fun s : Engine => s.executed.length < s.state.taken.length) ?_ ?_ ?_ ?_ rfl events
  · intro s e h hfits
    rcases step_takes s e with ⟨-, jobs, hrun, htaken⟩ | ⟨hnot, -⟩
    · rw [hrun, htaken, h]
    · exact absurd hfits hnot
  · intro s e h hnot
    rcases step_takes s e with ⟨hfits, -⟩ | ⟨-, hrun, job, htaken⟩
    · exact absurd hfits hnot
    · simp [hrun, htaken, h]
  · intro s e h
    rcases step_takes s e with ⟨-, jobs, hrun, htaken⟩ | ⟨-, hrun, job, htaken⟩
    · simpa [hrun, htaken] using h
    · rw [hrun, htaken, List.length_append]
      omega
  · intro s h heq
    rw [heq] at h
    exact Nat.lt_irrefl _ h

/-! ### A queue beyond the limit -/

/-- A call of `then` on the first promise without handlers. -/
def bareThen : Registration where
  on := 0
  promise := .undefined
  onFulfilled := .undefined
  onRejected := .undefined
  resolve := .undefined
  reject := .undefined

/-- The job of such a call on a promise that is fulfilled; it does nothing. -/
def bareJob : Microtask := .reaction true .undefined .undefined .undefined .undefined

/-- A promise is fulfilled, `then` is called `n` times on it and the queue
is drained. -/
def fulfilledThens (n : Nat) : List Event :=
  [.code .capability, .code (.fulfill 0 .undefined)] ++
    List.replicate n (.code (.then bareThen)) ++ [.drain] ++
    List.replicate n (.turn (.data .undefined))

theorem run_thens {s : Engine} {st : PromiseState} (hp : s.state.promises[0]? = some st)
    (hst : st.state = .fulfilled) (hres : st.result = .undefined) (n : Nat) :
    ∃ state, run step s (List.replicate n (.code (.then bareThen))) = { s with state := state } ∧
      state.jobQueue = s.state.jobQueue ++ List.replicate n bareJob ∧
      state.frames = s.state.frames ∧ state.taken = s.state.taken := by
  induction n generalizing s with
  | zero => exact ⟨s.state, rfl, (List.append_nil _).symm, rfl, rfl⟩
  | succ n ih =>
    let noted : State := { s.state with thens := s.state.thens ++ [bareThen] }
    have hstep : step s (.code (.then bareThen)) =
        { s with state := noted.enqueue (some 0) [bareJob] } := by
      have hp' : s.state.promises[bareThen.on]? = some st := hp
      simp only [step, admits, Promise.step, State.performPromiseThen, hp', hst, hres, if_true]
      rfl
    obtain ⟨state, hrun, hqueue, hframes, htaken⟩ :=
      ih (s := step s (.code (.then bareThen))) (by rw [hstep]; exact hp)
    refine ⟨state, ?_, ?_, ?_, ?_⟩
    · rw [List.replicate_succ, run_cons, hrun, hstep]
    · rw [hqueue, hstep]
      simp [noted, State.enqueue, List.replicate_succ]
    · rw [hframes, hstep]
      rfl
    · rw [htaken, hstep]
      rfl

/-- A drain runs such jobs one by one, up to its limit. -/
theorem run_turns {s : Engine} {d : Drain} {outer : List Drain} {n m : Nat}
    (hdrains : s.drains = d :: outer) (hdepth : s.state.frames.length ≤ d.depth)
    (hqueue : s.state.jobQueue = List.replicate (n + m) bareJob)
    (hcount : d.count + n ≤ maxDrainJobs) :
    ∃ state, run step s (List.replicate n (.turn (.data .undefined))) =
        { state := state, drains := { d with count := d.count + n } :: outer
          executed := s.executed ++ List.replicate n bareJob } ∧
      state.jobQueue = List.replicate m bareJob ∧ state.frames = s.state.frames ∧
      state.taken = s.state.taken ++ List.replicate n bareJob := by
  induction n generalizing s d with
  | zero =>
    refine ⟨s.state, ?_, by simpa using hqueue, rfl, (List.append_nil _).symm⟩
    simp [← hdrains]
  | succ n ih =>
    have hqueue' : s.state.jobQueue = bareJob :: List.replicate (n + m) bareJob := by
      rw [hqueue, show n + 1 + m = n + m + 1 by omega, List.replicate_succ]
    have hstep : step s (.turn (.data .undefined)) =
        { state := s.state.takeJob bareJob (List.replicate (n + m) bareJob)
          drains := { d with count := d.count + 1 } :: outer
          executed := s.executed ++ [bareJob] } := by
      simp only [step, hdrains, hqueue', if_neg (show ¬d.depth < s.state.frames.length by omega),
        if_neg (show ¬maxDrainJobs < d.count + 1 by omega)]
      rfl
    obtain ⟨state, hrun, hrest, hframes, htaken⟩ :=
      ih (s := step s (.turn (.data .undefined))) (d := { d with count := d.count + 1 })
        (by rw [hstep]) (by rw [hstep]; exact hdepth) (by rw [hstep]; rfl)
        (by simp only; omega)
    refine ⟨state, ?_, hrest, ?_, ?_⟩
    · rw [List.replicate_succ, run_cons, hrun, hstep]
      simp [List.replicate_succ, Nat.add_assoc, Nat.add_comm 1 n]
    · rw [hframes, hstep]
      rfl
    · rw [htaken, hstep]
      simp [State.takeJob, List.replicate_succ]

/-- The turn in which a drain gives up. -/
theorem step_giveUp {s : Engine} {d : Drain} {outer : List Drain} {job : Microtask}
    {rest : List Microtask} (hdrains : s.drains = d :: outer)
    (hdepth : s.state.frames.length ≤ d.depth) (hqueue : s.state.jobQueue = job :: rest)
    (hcount : d.count = maxDrainJobs) (thenRead : ThenRead) :
    step s (.turn thenRead) = { s with state := s.state.takeJob job rest, drains := outer } := by
  simp only [step, hdrains, hqueue, if_neg (show ¬d.depth < s.state.frames.length by omega),
    if_pos (show maxDrainJobs < d.count + 1 by omega)]

/-- After as many jobs as a drain may run, it takes one more and drops it. -/
theorem after_fulfilledThens {n : Nat} (hn : n = maxDrainJobs) :
    ∃ state, after (fulfilledThens (n + 1)) =
        { state := state, drains := [], executed := List.replicate n bareJob } ∧
      state.taken = List.replicate (n + 1) bareJob ∧ state.jobQueue = [] := by
  let start : Engine := run step {} [.code .capability, .code (.fulfill 0 .undefined)]
  obtain ⟨filled, hfilled, hqueue, -, htaken⟩ := run_thens (s := start) rfl rfl rfl (n + 1)
  let draining : Engine := step { start with state := filled } .drain
  obtain ⟨state, hturns, hrest, hframes, htaken'⟩ :=
    run_turns (s := draining) (d := { depth := filled.frames.length }) (n := n) (m := 1)
      (show draining.drains = _ :: [] from rfl) (Nat.le_refl _) hqueue
      (Nat.le_of_eq (by rw [Nat.zero_add, hn]))
  have hlast := step_giveUp
    (s := ⟨state, [{ count := 0 + n, depth := filled.frames.length }],
      draining.executed ++ List.replicate n bareJob⟩) rfl
    (Nat.le_of_eq (congrArg List.length hframes)) hrest (by rw [Nat.zero_add, hn])
    (.data .undefined)
  refine ⟨state.takeJob bareJob [], ?_, ?_, rfl⟩
  · have hevents : fulfilledThens (n + 1) =
        [.code .capability, .code (.fulfill 0 .undefined)] ++
          (List.replicate (n + 1) (.code (.then bareThen)) ++ ([.drain] ++
            (List.replicate n (.turn (.data .undefined)) ++ [.turn (.data .undefined)]))) := by
      rw [fulfilledThens, List.append_assoc, List.append_assoc, ← List.replicate_succ']
    rw [after, hevents, run_append]
    change run step start _ = _
    rw [run_append, hfilled, run_append]
    change run step draining _ = _
    rw [run_append, hturns, run_cons, run_nil, hlast]
    rfl
  · change state.taken ++ [bareJob] = _
    rw [htaken', List.replicate_succ']
    change filled.taken ++ _ ++ _ = _
    rw [htaken]
    rfl

/-- Of one job more than a drain may run, the last one is lost: all have
been taken from the queue, and one of them was not run. -/
theorem drain_loses_job :
    (after (fulfilledThens (maxDrainJobs + 1))).executed.length = maxDrainJobs ∧
      (after (fulfilledThens (maxDrainJobs + 1))).state.taken.length = maxDrainJobs + 1 ∧
      (after (fulfilledThens (maxDrainJobs + 1))).state.jobQueue = [] ∧
      ¬Conserved (after (fulfilledThens (maxDrainJobs + 1))) := by
  generalize hn : maxDrainJobs = n
  obtain ⟨state, hafter, htaken, hqueue⟩ := after_fulfilledThens hn.symm
  rw [conserved_iff (inv_state _), hafter, htaken]
  refine ⟨List.length_replicate, List.length_replicate, hqueue, fun heq => ?_⟩
  have hlen := congrArg List.length heq
  rw [List.length_replicate, List.length_replicate] at hlen
  omega

end Engine

end OxideJS.Promise
