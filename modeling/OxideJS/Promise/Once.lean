import OxideJS.Promise.Settlement

/-!
What is done once.

A promise settles once, and its jobs are those of the calls of `then`, one
for each call and in their order. The functions of an executor take effect
once. Those given to a thenable bypass the mark that sees to it: a second
call of them is kept out only by the promise being settled, and where it
resolves with a thenable not even by that.
-/

namespace OxideJS.Promise

open OxideJS.Lib.Runs

variable {s s' : State}

/-- The calls of `then` on a promise. -/
def State.registeredOn (s : State) (p : Nat) : List Registration :=
  s.thens.filter (·.on == p)

/-- The jobs of the reactions to a promise. -/
def State.jobsFor (s : State) (p : Nat) : List Microtask :=
  (s.history.filter (·.1 == some p)).map (·.2)

/-- The jobs of a promise are those its state and its calls of `then` ask for. -/
def Served (st : PromiseState) (calls : List Registration) (jobs : List Microtask) : Prop :=
  match st.state with
  | .pending =>
    jobs = [] ∧ st.reactions = calls.flatMap fun r => [r.reaction true, r.reaction false]
  | .fulfilled => jobs = calls.map fun r => (r.reaction true).job st.result
  | .rejected => jobs = calls.map fun r => (r.reaction false).job st.result

structure Inv (s : State) : Prop where
  queue : s.taken ++ s.jobQueue = s.history.map (·.2)
  served : ∀ (p : Nat) (st : PromiseState), s.promises[p]? = some st →
    Served st (s.registeredOn p) (s.jobsFor p)
  fresh : ∀ p, s.promises.length ≤ p → s.registeredOn p = [] ∧ s.jobsFor p = []
  called : ∀ pair ∈ s.called, ∃ fn st, s.pairs[pair]? = some fn ∧
    s.promises[fn.promise]? = some st ∧ (fn.delegated = true ∨ st.alreadyResolved = true)

/-- Settled promises stay as they are. -/
def Kept (s s' : State) : Prop :=
  ∀ (p : Nat) (st : PromiseState), s.promises[p]? = some st → st.state ≠ .pending →
    ∃ st', s'.promises[p]? = some st' ∧ st'.state = st.state ∧ st'.result = st.result

/-- What every operation does. -/
structure Moves (s s' : State) : Prop where
  inv : Inv s → Inv s'
  kept : Kept s s'

theorem Kept.of_eq (h : s'.promises = s.promises) : Kept s s' := fun _ st hst _ =>
  ⟨st, h ▸ hst, rfl, rfl⟩

theorem Moves.refl (s : State) : Moves s s :=
  ⟨id, .of_eq rfl⟩

theorem Moves.trans {s'' : State} (h : Moves s s') (h' : Moves s' s'') : Moves s s'' := by
  refine ⟨h'.inv ∘ h.inv, fun p st hst hsettled => ?_⟩
  obtain ⟨st', hst', hstate, hresult⟩ := h.kept p st hst hsettled
  obtain ⟨st'', hst'', hstate', hresult'⟩ := h'.kept p st' hst' (hstate ▸ hsettled)
  exact ⟨st'', hst'', hstate'.trans hstate, hresult'.trans hresult⟩

/-! ### The operations -/

/-- Only one promise changes, by calls of `then` on it and jobs for it. -/
theorem Moves.of_update {p : Nat} {st st' : PromiseState} (calls : List Registration)
    (jobs : List Microtask) (hp : s.promises[p]? = some st)
    (hpromises : s'.promises = s.promises.set p st') (hpairs : s'.pairs = s.pairs)
    (hcalled : s'.called = s.called) (htaken : s'.taken = s.taken)
    (hthens : s'.thens = s.thens ++ calls) (hcalls : ∀ r ∈ calls, r.on = p)
    (hqueue : s'.jobQueue = s.jobQueue ++ jobs)
    (hhistory : s'.history = s.history ++ jobs.map (some p, ·))
    (hresolved : st.alreadyResolved = true → st'.alreadyResolved = true)
    (hkept : st.state ≠ .pending → st'.state = st.state ∧ st'.result = st.result)
    (hserved : Served st (s.registeredOn p) (s.jobsFor p) →
      Served st' (s.registeredOn p ++ calls) (s.jobsFor p ++ jobs)) :
    Moves s s' := by
  have hlt := (List.getElem?_eq_some_iff.1 hp).1
  have hself : s'.promises[p]? = some st' := by rw [hpromises, List.getElem?_set_self hlt]
  have hother : ∀ q, q ≠ p → s'.promises[q]? = s.promises[q]? := fun q hq => by
    rw [hpromises, List.getElem?_set_ne hq.symm]
  have hon : ∀ q, s'.registeredOn q = s.registeredOn q ++ if q = p then calls else [] := by
    intro q
    rw [State.registeredOn, hthens, List.filter_append]
    congr 1
    split
    · next hq => exact List.filter_eq_self.2 fun r hr => by simp [hcalls r hr, hq]
    · next hq => exact List.filter_eq_nil_iff.2 fun r hr => by simp [hcalls r hr, Ne.symm hq]
  have hfor : ∀ q, s'.jobsFor q = s.jobsFor q ++ if q = p then jobs else [] := by
    intro q
    rw [State.jobsFor, hhistory, List.filter_append, List.map_append]
    congr 1
    split
    · next hq => simp [List.filter_map, Function.comp_def, hq]
    · next hq => simp [List.filter_map, Function.comp_def, Ne.symm hq]
  constructor
  · intro h
    refine ⟨?_, fun q st₀ hq => ?_, fun q hq => ?_, fun pair hpair => ?_⟩
    · rw [htaken, hqueue, hhistory, List.map_append, ← h.queue, List.map_map, List.append_assoc]
      simp [Function.comp_def]
    · rw [hon, hfor]
      by_cases hqp : q = p
      · subst hqp
        obtain rfl : st' = st₀ := Option.some.inj (hself.symm.trans hq)
        simpa using hserved (h.served q st hp)
      · simpa [hqp] using h.served q st₀ (hother q hqp ▸ hq)
    · rw [hpromises, List.length_set] at hq
      have hqp : q ≠ p := by omega
      rw [hon, hfor]
      simpa [hqp] using h.fresh q hq
    · obtain ⟨fn, st₀, hfn, hst₀, hor⟩ := h.called pair (hcalled ▸ hpair)
      by_cases hqp : fn.promise = p
      · obtain rfl : st = st₀ := Option.some.inj (hp.symm.trans (hqp ▸ hst₀))
        exact ⟨fn, st', hpairs ▸ hfn, hqp ▸ hself, hor.imp_right hresolved⟩
      · exact ⟨fn, st₀, hpairs ▸ hfn, (hother _ hqp).trans hst₀, hor⟩
  · intro q st₀ hq hsettled
    by_cases hqp : q = p
    · subst hqp
      obtain rfl : st = st₀ := Option.some.inj (hp.symm.trans hq)
      exact ⟨st', hself, hkept hsettled⟩
    · exact ⟨st₀, (hother q hqp).trans hq, rfl, rfl⟩

/-- The reactions of one kind, out of all of them. -/
theorem filter_reactions (calls : List Registration) (isFulfill : Bool) :
    (calls.flatMap fun r => [r.reaction true, r.reaction false]).filter
        (·.isFulfill == isFulfill) = calls.map (·.reaction isFulfill) := by
  induction calls with
  | nil => rfl
  | cons r calls ih =>
    rw [List.flatMap_cons, List.filter_append, ih, List.map_cons]
    cases isFulfill <;> rfl

theorem moves_settlePromise (s : State) (isFulfill : Bool) (p : Nat) (value : Value) :
    Moves s (s.settlePromise isFulfill p value) := by
  unfold State.settlePromise
  split
  · exact .refl s
  · next st hp =>
    split
    · exact .refl s
    · next hpending =>
      have hpending : st.state = .pending := by simpa using hpending
      refine .of_update [] _ hp rfl rfl rfl rfl (List.append_nil _).symm (by simp) rfl rfl
        id (fun h => absurd hpending h) fun hserved => ?_
      rw [Served, hpending] at hserved
      obtain ⟨hjobs, hreactions⟩ := hserved
      rw [hjobs, hreactions, filter_reactions]
      cases isFulfill <;> simp [Served, Function.comp_def]

theorem moves_markResolved (s : State) (p : Nat) : Moves s (s.markResolved p) := by
  unfold State.markResolved
  split
  · exact .refl s
  · next st hp =>
    exact .of_update [] [] hp rfl rfl rfl rfl (List.append_nil _).symm
      (by simp) (List.append_nil _).symm (List.append_nil _).symm (fun _ => rfl)
      (fun _ => ⟨rfl, rfl⟩) (by simp [Served])

theorem set_eq_self {α : Type*} {l : List α} {i : Nat} {a : α} (h : l[i]? = some a) :
    l.set i a = l := by
  obtain ⟨hlt, rfl⟩ := List.getElem?_eq_some_iff.1 h
  exact List.set_getElem_self hlt

theorem moves_performPromiseThen (s : State) (r : Registration) :
    Moves s (s.performPromiseThen r) := by
  unfold State.performPromiseThen
  split
  · exact .refl s
  · next st hp =>
    cases hstate : st.state with
    | pending =>
      refine .of_update [r] [] hp rfl rfl rfl rfl rfl (by simp)
        (List.append_nil _).symm (List.append_nil _).symm id (fun h => absurd hstate h)
        fun hserved => ?_
      rw [Served, hstate] at hserved
      simp [Served, hserved]
    | fulfilled | rejected =>
      have hset : s.promises = s.promises.set r.on st := (set_eq_self hp).symm
      refine .of_update [r] _ hp hset rfl rfl rfl rfl (by simp) rfl rfl id
        (fun _ => ⟨rfl, rfl⟩) fun hserved => ?_
      rw [Served, hstate] at hserved
      simp [Served, hstate, hserved]

/-- No promise changes; pairs are added, and jobs of no reaction. -/
theorem Moves.of_same (jobs : List Microtask) (pairs : List Pair)
    (hpromises : s'.promises = s.promises) (hpairs : s'.pairs = s.pairs ++ pairs)
    (hcalled : s'.called = s.called) (hthens : s'.thens = s.thens)
    (hqueue : s'.taken ++ s'.jobQueue = s.taken ++ s.jobQueue ++ jobs)
    (hhistory : s'.history = s.history ++ jobs.map (none, ·)) : Moves s s' := by
  have hon : s'.registeredOn = s.registeredOn := by
    funext p
    rw [State.registeredOn, hthens, State.registeredOn]
  have hfor : s'.jobsFor = s.jobsFor := by
    funext p
    rw [State.jobsFor, hhistory, State.jobsFor]
    simp [List.filter_map, Function.comp_def]
  refine ⟨fun h => ⟨?_, ?_, ?_, fun pair hpair => ?_⟩, .of_eq hpromises⟩
  · rw [hqueue, hhistory, h.queue, List.map_append, List.map_map]
    simp [Function.comp_def]
  · rw [hpromises, hon, hfor]
    exact h.served
  · rw [hpromises, hon, hfor]
    exact h.fresh
  · obtain ⟨fn, st, hfn, hst, hor⟩ := h.called pair (hcalled ▸ hpair)
    refine ⟨fn, st, ?_, hpromises ▸ hst, hor⟩
    rw [hpairs, List.getElem?_append_left (List.getElem?_eq_some_iff.1 hfn).1, hfn]

theorem moves_frames (s : State) (frames : List Frame) : Moves s { s with frames := frames } :=
  .of_same [] [] rfl (List.append_nil _).symm rfl rfl
    (List.append_nil _).symm (List.append_nil _).symm

theorem moves_makePair (s : State) (p : Nat) (delegated : Bool) :
    Moves s (s.makePair p delegated) :=
  .of_same [] _ rfl rfl rfl rfl (List.append_nil _).symm (List.append_nil _).symm

theorem moves_enqueue (s : State) (jobs : List Microtask) : Moves s (s.enqueue none jobs) :=
  .of_same _ [] rfl (List.append_nil _).symm rfl rfl (List.append_assoc _ _ _).symm rfl

theorem moves_takeJob {job : Microtask} {rest : List Microtask} (h : s.jobQueue = job :: rest) :
    Moves s (s.takeJob job rest) :=
  .of_same [] [] rfl (List.append_nil _).symm rfl rfl
    (by simp [State.takeJob, h]) (List.append_nil _).symm

/-- A call is noted when it can have no effect twice, or when it is one of
a delegate. -/
theorem moves_noteCall {pair : Nat} {fn : Pair} {st : PromiseState}
    (hfn : s.pairs[pair]? = some fn) (hst : s.promises[fn.promise]? = some st)
    (h : fn.delegated = true ∨ st.alreadyResolved = true) : Moves s (s.noteCall pair) := by
  refine ⟨fun hinv => ⟨hinv.queue, hinv.served, hinv.fresh, fun pair' hpair' => ?_⟩, .of_eq rfl⟩
  rcases List.mem_insert_iff.1 hpair' with rfl | hpair'
  · exact ⟨fn, st, hfn, hst, h⟩
  · exact hinv.called pair' hpair'

theorem moves_newPromiseCapability (s : State) : Moves s s.newPromiseCapability := by
  refine Moves.trans ?_ (moves_makePair _ _ _)
  constructor
  · intro h
    refine ⟨h.queue, fun p st hp => ?_, fun p hp => h.fresh p ?_, fun pair hpair => ?_⟩
    · rcases Nat.lt_or_ge p s.promises.length with hlt | hge
      · exact h.served p st ((List.getElem?_append_left hlt).symm.trans hp)
      · obtain ⟨hon, hfor⟩ := h.fresh p hge
        obtain ⟨-, rfl⟩ := List.getElem?_eq_some_iff.1
          ((List.getElem?_append_right hge).symm.trans hp)
        change Served _ (s.registeredOn p) (s.jobsFor p)
        rw [hon, hfor]
        simp [Served]
    · simp only [List.length_append, List.length_singleton] at hp
      omega
    · obtain ⟨fn, st, hfn, hst, hor⟩ := h.called pair hpair
      refine ⟨fn, st, hfn, ?_, hor⟩
      exact (List.getElem?_append_left (List.getElem?_eq_some_iff.1 hst).1).trans hst
  · intro p st hst _
    refine ⟨st, ?_, rfl, rfl⟩
    exact (List.getElem?_append_left (List.getElem?_eq_some_iff.1 hst).1).trans hst

theorem moves_resolveThen (s : State) (p : Nat) (x thenValue : Value) :
    Moves s (s.resolveThen p x thenValue) := by
  unfold State.resolveThen
  split
  · exact (moves_markResolved s p).trans ((moves_makePair _ p true).trans (moves_enqueue _ _))
  · exact moves_settlePromise s true p x

theorem moves_resolvePromise (s : State) (p : Nat) (x : Value) (thenRead : ThenRead) :
    Moves s (s.resolvePromise p x thenRead) := by
  unfold State.resolvePromise
  split
  · exact moves_settlePromise s false p _
  · split
    · cases thenRead with
      | data thenValue => exact moves_resolveThen s p x thenValue
      | getter => exact moves_frames s _
    · exact moves_settlePromise s true p x

theorem moves_callResolving (s : State) (pair : Nat) (reject : Bool) (x : Value)
    (thenRead : ThenRead) : Moves s (s.callResolving pair reject x thenRead) := by
  unfold State.callResolving
  split
  · exact .refl s
  next fn hfn =>
  split
  · exact .refl s
  next st hst =>
  split
  · next hspent =>
    simp only [Bool.and_eq_true] at hspent
    exact moves_noteCall hfn hst (.inr hspent.2)
  · have hnoted : Moves s
        ((if fn.delegated then s else s.markResolved fn.promise).noteCall pair) := by
      cases hdelegated : fn.delegated with
      | true => exact moves_noteCall hfn hst (.inl hdelegated)
      | false =>
        have hpair : (s.markResolved fn.promise).pairs[pair]? = some fn := by
          simpa [State.markResolved, hst, State.setPromise] using hfn
        have hresolved : (s.markResolved fn.promise).promises[fn.promise]? =
            some { st with alreadyResolved := true } := by
          simp [State.markResolved, hst, State.setPromise,
            List.getElem?_set_self (List.getElem?_eq_some_iff.1 hst).1]
        exact (moves_markResolved s fn.promise).trans (moves_noteCall hpair hresolved (.inr rfl))
    refine hnoted.trans ?_
    cases reject with
    | true => exact moves_settlePromise _ false _ x
    | false => exact moves_resolvePromise _ _ x thenRead

theorem moves_callFunction (s : State) (f x : Value) (thenRead : ThenRead) :
    Moves s (s.callFunction f x thenRead) := by
  cases f with
  | resolving pair reject => exact moves_callResolving s pair reject x thenRead
  | _ => exact .refl s

theorem moves_runMicrotask (s : State) (thenRead : ThenRead) (job : Microtask) :
    Moves s (s.runMicrotask thenRead job) := by
  cases job with
  | reaction isFulfill handler argument resolve reject =>
    dsimp only [State.runMicrotask]
    split
    · exact moves_frames s _
    · split <;> exact moves_callFunction s _ argument thenRead
  | thenable thenable thenValue resolve reject => exact moves_frames s _

theorem moves_returned (s : State) (v : Value) (thenRead : ThenRead) (f : Frame) :
    Moves s (s.returned v thenRead f) := by
  cases f with
  | thenOf p x => exact moves_resolveThen s p x v
  | handler resolve reject => exact moves_callFunction s resolve v thenRead
  | thenCall reject => exact .refl s
  | executor p => exact .refl s

theorem moves_thrown (s : State) (e : Value) (thenRead : ThenRead) (f : Frame) :
    Moves s (s.thrown e thenRead f) := by
  cases f with
  | thenOf p x => exact moves_settlePromise s false p e
  | handler resolve reject => exact moves_callFunction s reject e thenRead
  | thenCall reject => exact moves_callFunction s reject e thenRead
  | executor p => exact moves_settlePromise s false p e

theorem moves_step (s : State) (e : Event) : Moves s (step s e) := by
  cases e with
  | construct => exact (moves_newPromiseCapability s).trans (moves_frames _ _)
  | capability => exact moves_newPromiseCapability s
  | call pair reject x thenRead => exact moves_callResolving s pair reject x thenRead
  | «then» r => exact moves_performPromiseThen s r
  | resolve p x thenRead => exact moves_resolvePromise s p x thenRead
  | fulfill p value => exact moves_settlePromise s true p value
  | reject p reason => exact moves_settlePromise s false p reason
  | job thenRead =>
    dsimp only [step]
    split
    · exact .refl s
    · next hqueue => exact (moves_takeJob hqueue).trans (moves_runMicrotask _ thenRead _)
  | abortDrain =>
    dsimp only [step]
    split
    · exact .refl s
    · next hqueue => exact moves_takeJob hqueue
  | returned v thenRead =>
    dsimp only [step]
    split
    · exact .refl s
    · exact (moves_frames s _).trans (moves_returned _ v thenRead _)
  | thrown e thenRead =>
    dsimp only [step]
    split
    · exact .refl s
    · exact (moves_frames s _).trans (moves_thrown _ e thenRead _)

theorem moves_run (s : State) (events : List Event) : Moves s (run step s events) :=
  run_keeps (Moves s) (fun _ e h => h.trans (moves_step _ e)) (.refl s) events

theorem inv_after (events : List Event) : Inv (after events) :=
  (moves_run {} events).inv ⟨rfl, by simp, fun _ _ => ⟨rfl, rfl⟩, by simp⟩

/-! ### The second call -/

/-- A call of a pair that has been called does nothing: the pair is not a
delegate, or the promise is settled and there is no `then` to be found. -/
def Spent (s : State) (pair : Nat) (reject : Bool) (x : Value) (thenRead : ThenRead) : Prop :=
  ∃ fn st, s.pairs[pair]? = some fn ∧ s.promises[fn.promise]? = some st ∧
    (fn.delegated = false ∨
      st.state ≠ .pending ∧ (reject = true ∨ x = .promise fn.promise ∨ x.isObject = false ∨
        ∃ v, thenRead = .data v ∧ v.isCallable = false))

theorem noteCall_eq_self {pair : Nat} (h : pair ∈ s.called) : s.noteCall pair = s := by
  rw [State.noteCall, List.insert_of_mem h]

theorem settlePromise_eq_self_iff {isFulfill : Bool} {p : Nat} {value : Value} {st : PromiseState}
    (hp : s.promises[p]? = some st) :
    s.settlePromise isFulfill p value = s ↔ st.state ≠ .pending := by
  unfold State.settlePromise
  simp only [hp]
  split
  · next h => simp [h]
  · next h =>
    refine ⟨fun heq => ?_, fun h' => absurd h' h⟩
    -- the new state is another one
    have hlt := (List.getElem?_eq_some_iff.1 hp).1
    have hst := congrArg (fun s : State => s.promises[p]?) heq
    simp only [State.enqueue, State.setPromise, List.getElem?_set_self hlt, hp] at hst
    have hstate := congrArg PromiseState.state (Option.some.inj hst)
    dsimp only at hstate
    rw [← hstate]
    cases isFulfill <;> simp

theorem resolveThen_eq_self_iff {p : Nat} {x thenValue : Value} {st : PromiseState}
    (hp : s.promises[p]? = some st) :
    s.resolveThen p x thenValue = s ↔ thenValue.isCallable = false ∧ st.state ≠ .pending := by
  unfold State.resolveThen
  split
  · next h =>
    refine ⟨fun heq => ?_, fun h' => by simp [h] at h'⟩
    have hlen := congrArg (fun s : State => s.pairs.length) heq
    simp only [State.enqueue, State.makePair, State.markResolved, hp, State.setPromise,
      List.length_append, List.length_singleton] at hlen
    omega
  · next h => rw [State.fulfillPromise, settlePromise_eq_self_iff hp]; simp [h]

theorem resolvePromise_eq_self_iff {p : Nat} {x : Value} {thenRead : ThenRead} {st : PromiseState}
    (hp : s.promises[p]? = some st) :
    s.resolvePromise p x thenRead = s ↔
      st.state ≠ .pending ∧ (x = .promise p ∨ x.isObject = false ∨
        ∃ v, thenRead = .data v ∧ v.isCallable = false) := by
  unfold State.resolvePromise
  split
  · next hx => rw [State.rejectPromise, settlePromise_eq_self_iff hp]; simp [hx]
  next hx =>
  split
  · next hobj =>
    cases thenRead with
    | data v =>
      rw [resolveThen_eq_self_iff hp]
      simp [hx, hobj, and_comm]
    | getter =>
      refine ⟨fun heq => ?_, fun h => by simp [hx, hobj] at h⟩
      have hlen := congrArg (fun s : State => s.frames.length) heq
      simp [State.push] at hlen
  · next hobj => rw [State.fulfillPromise, settlePromise_eq_self_iff hp]; simp [hobj]

theorem callResolving_eq_self_iff (h : Inv s) {pair : Nat} (hcalled : pair ∈ s.called)
    (reject : Bool) (x : Value) (thenRead : ThenRead) :
    s.callResolving pair reject x thenRead = s ↔ Spent s pair reject x thenRead := by
  obtain ⟨fn, st, hfn, hst, hor⟩ := h.called pair hcalled
  have hspent : Spent s pair reject x thenRead ↔ (fn.delegated = false ∨
      st.state ≠ .pending ∧ (reject = true ∨ x = .promise fn.promise ∨ x.isObject = false ∨
        ∃ v, thenRead = .data v ∧ v.isCallable = false)) := by
    constructor
    · rintro ⟨fn', st', hfn', hst', hrest⟩
      obtain rfl := Option.some.inj (hfn.symm.trans hfn')
      obtain rfl := Option.some.inj (hst.symm.trans hst')
      exact hrest
    · exact fun hrest => ⟨fn, st, hfn, hst, hrest⟩
  rw [hspent]
  unfold State.callResolving
  simp only [hfn, hst]
  cases hdelegated : fn.delegated with
  | false =>
    have hresolved : st.alreadyResolved = true := by simpa [hdelegated] using hor
    simp [hresolved, noteCall_eq_self hcalled]
  | true =>
    simp only [Bool.not_true, Bool.false_and, Bool.false_eq_true, if_false, if_true,
      noteCall_eq_self hcalled]
    cases reject with
    | true => simpa [State.rejectPromise] using settlePromise_eq_self_iff hst
    | false => simpa using resolvePromise_eq_self_iff hst

/-- In every state of every run: a settled promise keeps its state and its
result; the jobs of its reactions are one for each call of `then` on it,
of the kind of its outcome and in the order of the calls, and there is
none before it is settled; all of them go through the queue; and a call of
a pair that has been called before has no effect just if it is spent. -/
theorem resolving_functions_once (events : List Event) :
    (∀ later, Kept (after events) (after (events ++ later))) ∧
    (∀ (p : Nat) (st : PromiseState), (after events).promises[p]? = some st →
      Served st ((after events).registeredOn p) ((after events).jobsFor p)) ∧
    (after events).taken ++ (after events).jobQueue = (after events).history.map (·.2) ∧
    ∀ pair ∈ (after events).called, ∀ reject x thenRead,
      step (after events) (.call pair reject x thenRead) = after events ↔
        Spent (after events) pair reject x thenRead := by
  have h := inv_after events
  refine ⟨fun later => ?_, h.served, h.queue, fun pair hpair reject x thenRead => ?_⟩
  · rw [after, after, run_append]
    exact (moves_run _ later).kept
  · exact callResolving_eq_self_iff h hpair reject x thenRead

/-- A promise is resolved with a thenable, which resolves it with a second
promise that is pending, and then calls the same function again. -/
def thenableTwice : List Event :=
  [.capability, .capability, .call 0 false (.object 0) (.data (.function 0)), .job .getter,
    .call 2 false (.promise 1) (.data (.function 1))]

/-- The second call of the thenable fulfils the promise. -/
theorem second_call_of_delegate :
    2 ∈ (after thenableTwice).called ∧
    ((after thenableTwice).promises.map (·.state)) = [.pending, .pending] ∧
    ((step (after thenableTwice) (.call 2 false (.primitive 5) .getter)).promises.map
      fun st => (st.state, st.result)) =
        [(.fulfilled, .primitive 5), (.pending, .undefined)] := by
  decide

end OxideJS.Promise
