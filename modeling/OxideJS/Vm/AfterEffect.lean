import OxideJS.Vm.Coercion

/-!
What an instruction does after one of its coercions has thrown.

An exception that is unwound in place leaves the handler of the
instruction running: the coercion returns, the other operand is coerced,
and a register of whichever frame runs now is written or a second
exception is raised. An exception that is passed up ends the instruction,
and the state after it is the one `unwind` produces.

The proof follows the state of the log. It is `Quiet` as long as nothing
has been thrown, `Tainted` once an exception has been caught in place, and
`Spoiled` as soon as anything happens after that. `Steps` says how one
step of a handler moves between these, and steps compose.
-/

namespace OxideJS.Vm

open Exec

/-- A coercion threw, and a handler took the exception. -/
def CoercionCaught (t : Trace) : Prop :=
  ∃ newer older m, t.log = newer ++ .caught m :: .threw :: older

/-- The catch is the last thing that happened, it is the only one, and the
state is the one it produced. -/
def NoAfterEffect (t : Trace) : Prop :=
  ∃ older, t.log = .caught t.vm :: older ∧ ∀ m, .caught m ∉ older

theorem unwindFrom_error {m m' : Machine} {handlers : List TryHandler}
    (h : m.unwindFrom handlers = .error m') : m'.tryStack = [] := by
  induction handlers generalizing m with
  | nil =>
    rw [Machine.unwindFrom] at h
    cases h
    rfl
  | cons handler rest ih =>
    rw [Machine.unwindFrom] at h
    split at h
    · exact ih h
    · split at h
      · split at h
        · exact ih h
        · cases h
      · split at h
        · cases h
        · exact ih h

section

variable (user : UserCode) (m : Machine)

/-- Every call the log mentions was within the depth limit. -/
def Allowed (log : List Event) : Prop :=
  ∀ callee, .called callee ∈ log → refuses user m callee = false

structure Quiet (t : Trace) : Prop where
  vm : t.vm = m
  noCatch : ∀ m', .caught m' ∉ t.log
  noThrow : .threw ∉ t.log
  allowed : Allowed user m t.log

/-- An exception was caught in place. In nested code this takes a call
beyond the depth limit. -/
structure Tainted (log : List Event) : Prop where
  caught : ∃ m', .caught m' ∈ log
  refused : 0 < m.nativeCallDepth → ¬ Allowed user m log

/-- Something happened after an exception was caught in place. -/
def Spoiled (log : List Event) : Prop := ∃ e older, log = e :: older ∧ Tainted user m older

/-- A failure without a catch. If a handler is left that may take it, it
was passed up by a coercion. -/
structure Missed (t : Trace) : Prop where
  noCatch : ∀ m', .caught m' ∉ t.log
  passedUp : t.vm.nativeCallDepth ≠ 0 → t.vm.tryStack ≠ [] →
    0 < m.nativeCallDepth ∧ Allowed user m t.log ∧ ∃ older, t.log = .threw :: older

/-- How a step of a handler moves the log. -/
structure Steps {α : Type} (x : Exec α) : Prop where
  quiet_ok : ∀ {t a t'}, Quiet user m t → x t = .ok a t' → Quiet user m t' ∨ Tainted user m t'.log
  quiet_error : ∀ {t e t'}, Quiet user m t → x t = .error e t' →
    Missed user m t' ∨ Spoiled user m t'.log
  tainted_ok : ∀ {t a t'}, Tainted user m t.log → x t = .ok a t' → Tainted user m t'.log
  tainted_error : ∀ {t e t'}, Tainted user m t.log → x t = .error e t' → Spoiled user m t'.log

/-- How the last step of a handler leaves the log. -/
structure Ends (x : Exec Unit) : Prop where
  quiet_ok : ∀ {t a t'}, Quiet user m t → x t = .ok a t' → .threw ∉ t'.log ∨ Spoiled user m t'.log
  quiet_error : ∀ {t e t'}, Quiet user m t → x t = .error e t' →
    Missed user m t' ∨ Spoiled user m t'.log
  tainted_ok : ∀ {t a t'}, Tainted user m t.log → x t = .ok a t' → Spoiled user m t'.log
  tainted_error : ∀ {t e t'}, Tainted user m t.log → x t = .error e t' → Spoiled user m t'.log

end

variable {user : UserCode} {m : Machine} {α β : Type}

/-! ### Growing logs -/

theorem Allowed.cons {log : List Event} {e : Event} (h : Allowed user m log)
    (he : ∀ callee, e = .called callee → refuses user m callee = false) :
    Allowed user m (e :: log) := by
  intro callee hmem
  rcases List.mem_cons.1 hmem with hhead | htail
  · exact he callee hhead.symm
  · exact h callee htail

theorem Tainted.cons {log : List Event} (h : Tainted user m log) (e : Event) :
    Tainted user m (e :: log) := by
  obtain ⟨m', hm'⟩ := h.caught
  refine ⟨⟨m', List.mem_cons_of_mem _ hm'⟩, fun hdepth hallowed => h.refused hdepth ?_⟩
  exact fun callee hmem => hallowed callee (List.mem_cons_of_mem _ hmem)

theorem Tainted.spoiled {log : List Event} (h : Tainted user m log) (e : Event) :
    Spoiled user m (e :: log) := ⟨e, log, rfl, h⟩

theorem Spoiled.tainted {log : List Event} (h : Spoiled user m log) : Tainted user m log := by
  obtain ⟨e, older, rfl, holder⟩ := h
  exact holder.cons e

theorem Quiet.emit {t : Trace} (h : Quiet user m t) {e : Event} (hcatch : ∀ m', e ≠ .caught m')
    (hthrow : e ≠ .threw) (hcall : ∀ callee, e = .called callee → refuses user m callee = false) :
    Quiet user m { t with log := e :: t.log } where
  vm := h.vm
  noCatch m' hmem := by
    rcases List.mem_cons.1 hmem with hhead | htail
    · exact hcatch m' hhead.symm
    · exact h.noCatch m' htail
  noThrow hmem := by
    rcases List.mem_cons.1 hmem with hhead | htail
    · exact hthrow hhead.symm
    · exact h.noThrow htail
  allowed := h.allowed.cons hcall

/-! ### Composition -/

theorem bind_ok_inv {x : Exec α} {f : α → Exec β} {t t' : Trace} {b : β}
    (h : (x >>= f) t = .ok b t') : ∃ a s, x t = .ok a s ∧ f a s = .ok b t' := by
  change EStateM.bind x f t = _ at h
  rw [EStateM.bind] at h
  split at h
  · exact ⟨_, _, by assumption, h⟩
  · cases h

theorem bind_error_inv {x : Exec α} {f : α → Exec β} {t t' : Trace} {e : Unit}
    (h : (x >>= f) t = .error e t') :
    x t = .error e t' ∨ ∃ a s, x t = .ok a s ∧ f a s = .error e t' := by
  change EStateM.bind x f t = _ at h
  rw [EStateM.bind] at h
  split at h
  · exact .inr ⟨_, _, by assumption, h⟩
  · cases h
    exact .inl (by assumption)

theorem Steps.bind {x : Exec α} {f : α → Exec β} (hx : Steps user m x)
    (hf : ∀ a, Steps user m (f a)) : Steps user m (x >>= f) where
  quiet_ok hq h := by
    obtain ⟨a, s, hxs, hfs⟩ := bind_ok_inv h
    rcases hx.quiet_ok hq hxs with hs | hs
    · exact (hf a).quiet_ok hs hfs
    · exact .inr ((hf a).tainted_ok hs hfs)
  quiet_error hq h := by
    rcases bind_error_inv h with hxs | ⟨a, s, hxs, hfs⟩
    · exact hx.quiet_error hq hxs
    · rcases hx.quiet_ok hq hxs with hs | hs
      · exact (hf a).quiet_error hs hfs
      · exact .inr ((hf a).tainted_error hs hfs)
  tainted_ok ht h := by
    obtain ⟨a, s, hxs, hfs⟩ := bind_ok_inv h
    exact (hf a).tainted_ok (hx.tainted_ok ht hxs) hfs
  tainted_error ht h := by
    rcases bind_error_inv h with hxs | ⟨a, s, hxs, hfs⟩
    · exact hx.tainted_error ht hxs
    · exact (hf a).tainted_error (hx.tainted_ok ht hxs) hfs

theorem Steps.bind_ends {x : Exec α} {f : α → Exec Unit} (hx : Steps user m x)
    (hf : ∀ a, Ends user m (f a)) : Ends user m (x >>= f) where
  quiet_ok hq h := by
    obtain ⟨a, s, hxs, hfs⟩ := bind_ok_inv h
    rcases hx.quiet_ok hq hxs with hs | hs
    · exact (hf a).quiet_ok hs hfs
    · exact .inr ((hf a).tainted_ok hs hfs)
  quiet_error hq h := by
    rcases bind_error_inv h with hxs | ⟨a, s, hxs, hfs⟩
    · exact hx.quiet_error hq hxs
    · rcases hx.quiet_ok hq hxs with hs | hs
      · exact (hf a).quiet_error hs hfs
      · exact .inr ((hf a).tainted_error hs hfs)
  tainted_ok ht h := by
    obtain ⟨a, s, hxs, hfs⟩ := bind_ok_inv h
    exact (hf a).tainted_ok (hx.tainted_ok ht hxs) hfs
  tainted_error ht h := by
    rcases bind_error_inv h with hxs | ⟨a, s, hxs, hfs⟩
    · exact hx.tainted_error ht hxs
    · exact (hf a).tainted_error (hx.tainted_ok ht hxs) hfs

/-- A step that only reads. -/
theorem Steps.of_read {x : Exec α} (value : Trace → α) (h : ∀ t, x t = .ok (value t) t) :
    Steps user m x where
  quiet_ok {t a t'} hq hx := by
    rw [h t] at hx
    cases hx
    exact .inl hq
  quiet_error {t e t'} _ hx := by
    rw [h t] at hx
    cases hx
  tainted_ok {t a t'} ht hx := by
    rw [h t] at hx
    cases hx
    exact ht
  tainted_error {t e t'} _ hx := by
    rw [h t] at hx
    cases hx

theorem steps_pure (a : α) : Steps user m (pure a : Exec α) := .of_read (fun _ => a) fun _ => rfl

theorem steps_machine : Steps user m machine := .of_read Trace.vm fun _ => rfl

theorem steps_history : Steps user m history := .of_read Trace.log fun _ => rfl

theorem steps_got (object : Nat) (key : Key) : Steps user m (emit (.got object key)) where
  quiet_ok {t a t'} hq hx := by
    cases hx
    exact .inl (hq.emit (fun _ => nofun) nofun (fun _ => nofun))
  quiet_error _ hx := by cases hx
  tainted_ok ht hx := by
    cases hx
    exact ht.cons _
  tainted_error _ hx := by cases hx

/-! ### Throwing -/

theorem throwInPlace_cases (e : Event) (exc : JsValue) (t : Trace) :
    (∃ m', throwInPlace e exc t = .ok () ⟨m', .caught m' :: e :: t.log⟩) ∨
      ∃ m', throwInPlace e exc t = .error () ⟨m', e :: t.log⟩ ∧ m'.tryStack = [] := by
  have hrun : throwInPlace e exc t =
      Exec.unwind ⟨{ t.vm with exceptionValue := some exc }, e :: t.log⟩ := rfl
  rw [hrun, Exec.unwind]
  cases hu : ({ t.vm with exceptionValue := some exc } : Machine).unwind with
  | ok m' => exact .inl ⟨m', rfl⟩
  | error m' => exact .inr ⟨m', rfl, unwindFrom_error hu⟩

/-- A coercion throws: in place at depth zero, by failing in nested code. -/
def Rejects (x : Exec Unit) : Prop :=
  ∀ t : Trace,
    (t.vm.nativeCallDepth = 0 ∧ ∃ m', x t = .ok () ⟨m', .caught m' :: .threw :: t.log⟩) ∨
      ∃ m', x t = .error () ⟨m', .threw :: t.log⟩ ∧
        (0 < t.vm.nativeCallDepth ∨ m'.tryStack = [])

theorem rejects_conversionError (message : String) : Rejects (conversionError user message) := by
  intro t
  by_cases hdepth : t.vm.nativeCallDepth = 0
  · have hrun : conversionError user message t =
        throwInPlace .threw (user.errorObject ⟨.typeError, message⟩) t := by
      change (if t.vm.nativeCallDepth = 0 then _ else _ : Exec Unit) t = _
      rw [if_pos hdepth]
    rw [hrun]
    rcases throwInPlace_cases .threw (user.errorObject ⟨.typeError, message⟩) t with
      hcaught | ⟨m', herror, hstack⟩
    · exact .inl ⟨hdepth, hcaught⟩
    · exact .inr ⟨m', herror, .inr hstack⟩
  · refine .inr ⟨t.vm, ?_, .inl (by omega)⟩
    change (if t.vm.nativeCallDepth = 0 then _ else _ : Exec Unit) t = _
    rw [if_neg hdepth]
    rfl

theorem rejects_raiseCallError (failure : Failure) : Rejects (raiseCallError user failure) := by
  intro t
  by_cases hdepth : t.vm.nativeCallDepth = 0
  · have hrun : raiseCallError user failure t =
        throwInPlace .threw (failure.uncaught.getD (user.errorFromText failure.text))
          ⟨{ t.vm with lastUncaughtValue := none }, t.log⟩ := by
      change (if t.vm.nativeCallDepth = 0 then _ else _ : Exec Unit) t = _
      rw [if_pos hdepth]
      rfl
    rw [hrun]
    rcases throwInPlace_cases .threw (failure.uncaught.getD (user.errorFromText failure.text))
      ⟨{ t.vm with lastUncaughtValue := none }, t.log⟩ with hcaught | ⟨m', herror, hstack⟩
    · exact .inl ⟨hdepth, hcaught⟩
    · exact .inr ⟨m', herror, .inr hstack⟩
  · refine .inr ⟨{ t.vm with
      exceptionValue := some (failure.uncaught.getD (user.errorFromText failure.text))
      lastUncaughtValue := failure.uncaught }, ?_, .inl (by omega)⟩
    change (if t.vm.nativeCallDepth = 0 then _ else _ : Exec Unit) t = _
    rw [if_neg hdepth]
    rfl

/-- A failure that a coercion reports, with the log it was reported in. -/
theorem Quiet.missed {t : Trace} (h : Quiet user m t) {m' : Machine}
    (hup : m'.nativeCallDepth ≠ 0 → m'.tryStack ≠ [] → 0 < m.nativeCallDepth) :
    Missed user m ⟨m', .threw :: t.log⟩ where
  noCatch m'' hmem := h.noCatch m'' (by simpa using hmem)
  passedUp hdepth hstack :=
    ⟨hup hdepth hstack, h.allowed.cons (fun _ => nofun), t.log, rfl⟩

theorem Rejects.steps {x : Exec Unit} (h : Rejects x) : Steps user m x where
  quiet_ok {t a t'} hq hx := by
    rcases h t with ⟨hdepth, m', hok⟩ | ⟨m', herror, _⟩
    · rw [hok] at hx
      cases hx
      rw [hq.vm] at hdepth
      exact .inr ⟨⟨m', List.mem_cons_self⟩, fun hpos => absurd hpos (by omega)⟩
    · rw [herror] at hx
      cases hx
  quiet_error {t e t'} hq hx := by
    rcases h t with ⟨_, m', hok⟩ | ⟨m', herror, hwhy⟩
    · rw [hok] at hx
      cases hx
    · rw [herror] at hx
      cases hx
      rw [hq.vm] at hwhy
      refine .inl (hq.missed fun _ hstack => ?_)
      exact hwhy.resolve_right hstack
  tainted_ok {t a t'} ht hx := by
    rcases h t with ⟨_, m', hok⟩ | ⟨m', herror, _⟩
    · rw [hok] at hx
      cases hx
      exact (ht.cons _).cons _
    · rw [herror] at hx
      cases hx
  tainted_error {t e t'} ht hx := by
    rcases h t with ⟨_, m', hok⟩ | ⟨m', herror, _⟩
    · rw [hok] at hx
      cases hx
    · rw [herror] at hx
      cases hx
      exact ht.spoiled _

/-- A property read that fails passes the failure on at any depth. -/
theorem steps_threw_fail : Steps user m (do emit .threw; fail : Exec α) where
  quiet_ok _ hx := by cases hx
  quiet_error {t e t'} hq hx := by
    cases hx
    refine .inl (hq.missed fun hdepth _ => ?_)
    rw [hq.vm] at hdepth
    omega
  tainted_ok _ hx := by cases hx
  tainted_error ht hx := by
    cases hx
    exact ht.spoiled _

theorem checkDepth_run (callee : Callee) (t : Trace) :
    checkDepth user callee t =
      if refuses user t.vm callee then
        (throwInPlace .threw
            (user.errorObject ⟨.rangeError, "Maximum call stack size exceeded"⟩) >>= fun _ =>
          pure false : Exec Bool) { t with log := .called callee :: t.log }
      else .ok true { t with log := .called callee :: t.log } := by
  change (if refuses user t.vm callee then _ else _ : Exec Bool)
    { t with log := .called callee :: t.log } = _
  split <;> rfl

theorem checkDepth_cases (callee : Callee) (t : Trace) :
    (refuses user t.vm callee = false ∧
        checkDepth user callee t = .ok true { t with log := .called callee :: t.log }) ∨
      (refuses user t.vm callee = true ∧
        ((∃ m', checkDepth user callee t =
            .ok false ⟨m', .caught m' :: .threw :: .called callee :: t.log⟩) ∨
          ∃ m', checkDepth user callee t = .error () ⟨m', .threw :: .called callee :: t.log⟩ ∧
            m'.tryStack = [])) := by
  rw [checkDepth_run]
  cases hrefuses : refuses user t.vm callee with
  | false => exact .inl ⟨rfl, rfl⟩
  | true =>
    refine .inr ⟨rfl, ?_⟩
    rw [if_pos rfl]
    change (∃ m', EStateM.bind _ _ _ = _) ∨ ∃ m', EStateM.bind _ _ _ = _ ∧ _
    rcases throwInPlace_cases .threw
        (user.errorObject ⟨.rangeError, "Maximum call stack size exceeded"⟩)
        { t with log := .called callee :: t.log } with ⟨m', hok⟩ | ⟨m', herror, hstack⟩
    · refine .inl ⟨m', ?_⟩
      rw [EStateM.bind, hok]
      rfl
    · refine .inr ⟨m', ?_, hstack⟩
      rw [EStateM.bind, herror]

theorem steps_checkDepth (callee : Callee) : Steps user m (checkDepth user callee) where
  quiet_ok {t a t'} hq hx := by
    rcases checkDepth_cases callee t with ⟨hin, hok⟩ | ⟨hrefused, ⟨m', hok⟩ | ⟨m', herror, _⟩⟩
    · rw [hok] at hx
      cases hx
      rw [hq.vm] at hin
      refine .inl (hq.emit (fun _ => nofun) nofun ?_)
      rintro _ ⟨⟩
      exact hin
    · rw [hok] at hx
      cases hx
      rw [hq.vm] at hrefused
      refine .inr ⟨⟨m', List.mem_cons_self⟩, fun _ hallowed => ?_⟩
      have := hallowed callee (by simp)
      rw [hrefused] at this
      cases this
    · rw [herror] at hx
      cases hx
  quiet_error {t e t'} hq hx := by
    rcases checkDepth_cases callee t with ⟨_, hok⟩ | ⟨_, ⟨m', hok⟩ | ⟨m', herror, hstack⟩⟩
    · rw [hok] at hx
      cases hx
    · rw [hok] at hx
      cases hx
    · rw [herror] at hx
      cases hx
      refine .inl ⟨fun m'' hmem => hq.noCatch m'' (by simpa using hmem), fun _ hleft => ?_⟩
      exact absurd hstack hleft
  tainted_ok {t a t'} ht hx := by
    rcases checkDepth_cases callee t with ⟨_, hok⟩ | ⟨_, ⟨m', hok⟩ | ⟨m', herror, _⟩⟩
    · rw [hok] at hx
      cases hx
      exact ht.cons _
    · rw [hok] at hx
      cases hx
      exact ((ht.cons _).cons _).cons _
    · rw [herror] at hx
      cases hx
  tainted_error {t e t'} ht hx := by
    rcases checkDepth_cases callee t with ⟨_, hok⟩ | ⟨_, ⟨m', hok⟩ | ⟨m', herror, _⟩⟩
    · rw [hok] at hx
      cases hx
    · rw [hok] at hx
      cases hx
    · rw [herror] at hx
      cases hx
      exact (ht.cons _).spoiled _

/-! ### The coercion -/

theorem steps_perform (acts : List Act) : Steps user m (perform user acts) := by
  induction acts with
  | nil => exact steps_pure ()
  | cons act acts ih =>
    cases act with
    | enter callee => exact (steps_checkDepth callee).bind fun _ => ih
    | fail failure => exact (rejects_raiseCallError failure).steps.bind fun _ => ih

theorem steps_ordinaryGet (object : Nat) (key : Key) :
    Steps user m (ordinaryGet user object key) := by
  refine steps_history.bind fun log => (steps_got object key).bind fun _ => ?_
  refine (steps_perform _).bind fun _ => ?_
  cases (user.get log object key).result with
  | ok v => exact steps_pure v
  | error failure => exact steps_threw_fail

theorem steps_runBody (f : Nat) : Steps user m (runBody user f) := by
  refine steps_history.bind fun log => ?_
  exact (steps_perform _).bind fun _ => steps_pure _

theorem steps_callFunctionSync (f : Nat) : Steps user m (callFunctionSync user f) := by
  unfold callFunctionSync
  cases user.body f with
  | empty => exact steps_pure _
  | proxy => exact steps_runBody f
  | code callee =>
    refine (steps_checkDepth callee).bind fun entered => ?_
    cases entered with
    | true => exact steps_runBody f
    | false => exact steps_pure _

variable {host : Host}

theorem steps_conversionError (message : String) (v : JsValue) :
    Steps user m (do conversionError user message; pure v) :=
  (rejects_conversionError message).steps.bind fun _ => steps_pure v

theorem steps_raiseCallError (failure : Failure) (v : JsValue) :
    Steps user m (do raiseCallError user failure; pure v) :=
  (rejects_raiseCallError failure).steps.bind fun _ => steps_pure v

theorem steps_exoticToPrimitive (method : JsValue) :
    Steps user m (exoticToPrimitive host user method) := by
  unfold exoticToPrimitive
  cases callable host method with
  | none => exact steps_conversionError _ _
  | some f =>
    refine (steps_callFunctionSync f).bind fun result => ?_
    cases result with
    | error failure => exact steps_raiseCallError failure _
    | ok v =>
      dsimp only
      split
      · exact steps_conversionError _ _
      · exact steps_pure v

theorem steps_ordinaryToPrimitive (object : Nat) (keys : List Key) :
    Steps user m (ordinaryToPrimitive host user object keys) := by
  induction keys with
  | nil => exact steps_conversionError _ _
  | cons key keys ih =>
    refine (steps_ordinaryGet object key).bind fun method => ?_
    cases callable host method with
    | none => exact ih
    | some f =>
      refine (steps_callFunctionSync f).bind fun result => ?_
      cases result with
      | error failure => exact steps_raiseCallError failure _
      | ok v =>
        dsimp only
        split
        · exact ih
        · exact steps_pure v

theorem steps_coercePrimitive (v : JsValue) : Steps user m (coercePrimitive host user v) := by
  unfold coercePrimitive
  split
  · refine (steps_ordinaryGet _ _).bind fun exotic => ?_
    split
    · exact steps_ordinaryToPrimitive _ _
    · exact steps_exoticToPrimitive exotic
  · exact steps_pure _

/-! ### The end of an instruction -/

theorem ends_write (r : Nat) (v : JsValue) : Ends user m (write r v) where
  quiet_ok {t a t'} hq hx := by
    cases hx
    exact .inl fun hmem => hq.noThrow (by simpa using hmem)
  quiet_error _ hx := by cases hx
  tainted_ok ht hx := by
    cases hx
    exact ht.spoiled _
  tainted_error _ hx := by cases hx

section Raised

variable {rest : Exec Unit} {exc : JsValue} {t t' : Trace}

/-- The instruction fails in place and goes on: a handler has caught the
error, and at most a register is written after that. -/
theorem raised_ok_inv {a : Unit}
    (hrest : ∀ t, ∃ t', rest t = .ok () t' ∧
      (t'.log = t.log ∨ ∃ r, t'.log = .wrote r :: t.log))
    (hx : (throwInPlace .raised exc >>= fun _ => rest) t = .ok a t') :
    ∃ m', t'.log = .caught m' :: .raised :: t.log ∨
      ∃ r, t'.log = .wrote r :: .caught m' :: .raised :: t.log := by
  obtain ⟨_, s, hs, hfs⟩ := bind_ok_inv hx
  obtain ⟨s', hs', hlog⟩ := hrest s
  rw [hs'] at hfs
  cases hfs
  rcases throwInPlace_cases .raised exc t with ⟨m', hok⟩ | ⟨m', herror, _⟩
  · rw [hok] at hs
    cases hs
    exact ⟨m', hlog⟩
  · rw [herror] at hs
    cases hs

/-- The instruction fails and no handler is left. -/
theorem raised_error_inv {e : Unit}
    (hrest : ∀ t, ∃ t', rest t = .ok () t' ∧
      (t'.log = t.log ∨ ∃ r, t'.log = .wrote r :: t.log))
    (hx : (throwInPlace .raised exc >>= fun _ => rest) t = .error e t') :
    ∃ m', t' = ⟨m', .raised :: t.log⟩ ∧ m'.tryStack = [] := by
  rcases bind_error_inv hx with hs | ⟨_, s, _, hfs⟩
  · rcases throwInPlace_cases .raised exc t with ⟨m', hok⟩ | ⟨m', herror, hstack⟩
    · rw [hok] at hs
      cases hs
    · rw [herror] at hs
      cases hs
      exact ⟨m', rfl, hstack⟩
  · obtain ⟨s', hs', _⟩ := hrest s
    rw [hs'] at hfs
    cases hfs

end Raised

/-- An error of the instruction itself, followed by anything that adds
no throw and does not fail. -/
theorem ends_raised {rest : Exec Unit} (exc : JsValue)
    (hrest : ∀ t, ∃ t', rest t = .ok () t' ∧
      (t'.log = t.log ∨ ∃ r, t'.log = .wrote r :: t.log)) :
    Ends user m (throwInPlace .raised exc >>= fun _ => rest) where
  quiet_ok hq hx := by
    obtain ⟨m', hlog⟩ := raised_ok_inv hrest hx
    refine .inl fun hmem => hq.noThrow ?_
    rcases hlog with hlog | ⟨r, hlog⟩ <;> simpa [hlog] using hmem
  quiet_error hq hx := by
    obtain ⟨m', rfl, hstack⟩ := raised_error_inv hrest hx
    refine .inl ⟨fun m'' hmem => hq.noCatch m'' (by simpa using hmem), fun _ hleft => ?_⟩
    exact absurd hstack hleft
  tainted_ok ht hx := by
    obtain ⟨m', hlog | ⟨r, hlog⟩⟩ := raised_ok_inv hrest hx
    · rw [hlog]
      exact (ht.cons _).spoiled _
    · rw [hlog]
      exact ((ht.cons _).cons _).spoiled _
  tainted_error ht hx := by
    obtain ⟨m', rfl, -⟩ := raised_error_inv hrest hx
    exact ht.spoiled _

theorem ends_finish (op : Operator) (rd : Nat) (result : Result JsValue) :
    Ends user m (op.finish user rd result) := by
  cases result with
  | ok v => exact ends_write rd v
  | error thrown =>
    -- Both kinds of operators stop right after the raise or write once.
    have hrest : ∀ t, ∃ t',
        (if op.writesAfterRaise then write rd .undefined else pure () : Exec Unit) t = .ok () t' ∧
          (t'.log = t.log ∨ ∃ r, t'.log = .wrote r :: t.log) := by
      intro t
      cases op.writesAfterRaise with
      | true => exact ⟨_, rfl, .inr ⟨rd, rfl⟩⟩
      | false => exact ⟨_, rfl, .inl rfl⟩
    cases thrown with
    | error e => exact ends_raised (user.errorObject e) hrest
    | value v => exact ends_raised v hrest

theorem ends_dispatch (op : Operator) (rd a b : Nat) :
    Ends user m (op.dispatch host user rd a b) := by
  refine steps_machine.bind_ends fun vm => ?_
  cases op.fast (vm.regs a) (vm.regs b) with
  | some result => exact ends_finish op rd result
  | none =>
    refine (steps_coercePrimitive _).bind_ends fun l => ?_
    refine steps_machine.bind_ends fun vm' => ?_
    exact (steps_coercePrimitive _).bind_ends fun r => ends_finish op rd _

theorem steps_abstractEqSteps (l r : JsValue) : Steps user m (abstractEqSteps host user l r) := by
  unfold abstractEqSteps
  split
  · exact steps_pure _
  · split
    · exact steps_pure _
    · exact (steps_coercePrimitive _).bind fun _ => steps_pure _
  · split
    · exact steps_pure _
    · exact (steps_coercePrimitive _).bind fun _ => steps_pure _
  · exact steps_pure _

theorem ends_instruction {op : OpCode} {rd a b : Nat} {body : Exec Unit}
    (h : instruction host user op rd a b = some body) : Ends user m body := by
  unfold instruction at h
  split at h
  · cases h
    exact steps_machine.bind_ends fun _ =>
      (steps_abstractEqSteps _ _).bind_ends fun _ => ends_write _ _
  · cases h
    exact steps_machine.bind_ends fun _ =>
      (steps_abstractEqSteps _ _).bind_ends fun _ => ends_write _ _
  · split at h
    · cases h
      exact ends_dispatch _ _ _ _
    · cases h
      exact ends_dispatch _ _ _ _
    · cases h

/-! ### Whole instructions -/

theorem CoercionCaught.mem_threw {t : Trace} (h : CoercionCaught t) : .threw ∈ t.log := by
  obtain ⟨newer, older, m', hlog⟩ := h
  simp [hlog]

theorem CoercionCaught.mem_caught {t : Trace} (h : CoercionCaught t) :
    ∃ m', .caught m' ∈ t.log := by
  obtain ⟨newer, older, m', hlog⟩ := h
  exact ⟨m', by simp [hlog]⟩

theorem Spoiled.not_noAfterEffect {t : Trace} (h : Spoiled user m t.log) : ¬ NoAfterEffect t := by
  rintro ⟨older, hlog, honly⟩
  obtain ⟨e, older', hlog', htainted⟩ := h
  rw [hlog] at hlog'
  cases hlog'
  obtain ⟨m', hm'⟩ := htainted.caught
  exact honly m' hm'

/-- A spoiled log decides both sides of the equivalence. -/
theorem Spoiled.iff {t : Trace} (h : Spoiled user m t.log) :
    NoAfterEffect t ↔ 0 < m.nativeCallDepth ∧ Allowed user m t.log := by
  refine ⟨fun hno => absurd hno h.not_noAfterEffect, fun hcond => ?_⟩
  exact absurd hcond.2 (h.tainted.refused hcond.1)

theorem settle_error_cases (tryBase : Option Nat) (t : Trace) :
    settle tryBase (.error () t) = t ∨
      (t.vm.nativeCallDepth ≠ 0 ∧ t.vm.tryStack ≠ [] ∧
        ∃ m', settle tryBase (.error () t) = ⟨m', .caught m' :: t.log⟩) ∨
      ∃ m', settle tryBase (.error () t) = ⟨m', t.log⟩ := by
  unfold settle
  dsimp only
  by_cases hdepth : t.vm.nativeCallDepth = 0
  · exact .inl (if_pos hdepth)
  rw [if_neg hdepth]
  cases tryBase with
  | none => exact .inl rfl
  | some base =>
    dsimp only
    by_cases hbase : t.vm.tryStack.length ≤ base
    · exact .inl (if_pos hbase)
    · rw [if_neg hbase, Exec.unwind]
      cases t.vm.unwind with
      | error m' => exact .inr (.inr ⟨m', rfl⟩)
      | ok m' =>
        refine .inr (.inl ⟨hdepth, fun hnil => hbase ?_, m', rfl⟩)
        rw [hnil]
        exact Nat.zero_le _

theorem Missed.iff {t : Trace} (h : Missed user m t) (tryBase : Option Nat)
    (hcaught : CoercionCaught (settle tryBase (.error () t))) :
    NoAfterEffect (settle tryBase (.error () t)) ↔
      0 < m.nativeCallDepth ∧ Allowed user m (settle tryBase (.error () t)).log := by
  rcases settle_error_cases tryBase t with hsame | ⟨hdepth, hstack, m', hsettle⟩ | ⟨m', hsettle⟩
  · rw [hsame] at hcaught
    obtain ⟨m', hmem⟩ := hcaught.mem_caught
    exact absurd hmem (h.noCatch m')
  · obtain ⟨hpos, hallowed, _⟩ := h.passedUp hdepth hstack
    rw [hsettle]
    exact ⟨fun _ => ⟨hpos, hallowed.cons (fun _ => nofun)⟩, fun _ => ⟨t.log, rfl, h.noCatch⟩⟩
  · rw [hsettle] at hcaught
    obtain ⟨m'', hmem⟩ := hcaught.mem_caught
    exact absurd hmem (h.noCatch m'')

/-- Failing after an exception was caught in place does not undo it. -/
theorem Spoiled.settle {t : Trace} (h : Spoiled user m t.log) (tryBase : Option Nat) :
    Spoiled user m (settle tryBase (.error () t)).log := by
  rcases settle_error_cases tryBase t with hsame | ⟨_, _, m', hsettle⟩ | ⟨m', hsettle⟩
  · rwa [hsame]
  · rw [hsettle]
    exact h.tainted.spoiled _
  · rwa [hsettle]

theorem quiet_initial : Quiet user m ⟨m, []⟩ where
  vm := rfl
  noCatch _ := List.not_mem_nil
  noThrow := List.not_mem_nil
  allowed _ hmem := absurd hmem List.not_mem_nil

/-- If a coercion of an operand throws and a handler takes the exception,
the instruction has no further effect exactly when it runs nested in a
native call and none of the calls its coercions make exceeds the call
depth limit. -/
theorem noAfterEffect_iff (host : Host) (user : UserCode) (op : OpCode) (rd a b : Nat)
    (body : Exec Unit) (m : Machine) (tryBase : Option Nat)
    (hbody : instruction host user op rd a b = some body)
    (hcaught : CoercionCaught (execute tryBase body m)) :
    NoAfterEffect (execute tryBase body m) ↔
      0 < m.nativeCallDepth ∧
        ∀ callee, .called callee ∈ (execute tryBase body m).log →
          refuses user m callee = false := by
  have hends : Ends user m body := ends_instruction hbody
  unfold execute at hcaught ⊢
  cases hrun : body ⟨m, []⟩ with
  | ok u t =>
    rw [hrun] at hcaught
    rcases hends.quiet_ok quiet_initial hrun with hthrow | hspoiled
    · exact absurd hcaught.mem_threw hthrow
    · exact hspoiled.iff
  | error e t =>
    rw [hrun] at hcaught
    rcases hends.quiet_error quiet_initial hrun with hmissed | hspoiled
    · exact hmissed.iff tryBase hcaught
    · exact (hspoiled.settle tryBase).iff

/-! ### Two runs -/

def bareHost : Host where
  parseNumber _ := Float.nan
  units _ := []
  concat _ _ := ""
  isHtmlDda _ := false
  isFunction id := id == 9

/-- Every object has a `valueOf` method that throws `7`. -/
def throwingValueOf : UserCode where
  get _ _ key := if key = .valueOf then ⟨[], .ok (.object 9)⟩ else ⟨[], .ok .undefined⟩
  call _ _ := ⟨[], .error ⟨some (.int 7), "7"⟩⟩
  body _ := .code .bytecode
  errorObject _ := .object 8
  errorFromText _ := .object 8
  maxCallDepth := 100

/-- A callee about to add an object and an integer. Its caller, which has
a string in register 2, is inside a `try` with a catch block at 40. -/
def calleeInTry (depth : Nat) : Machine where
  code := 1
  pc := 5
  regs i := if i = 0 then .object 1 else .int 1
  frames := [⟨20, 0, [.null, .null, .string "kept"], .undefined, .undefined⟩]
  tryStack := [⟨some 40, none, false, 0, 0⟩]
  forOfIters := 0
  forInIters := 0
  exceptionValue := none
  pendingException := none
  pendingCompletion := none
  lastUncaughtValue := none
  nativeCallDepth := depth

def sumBody : Exec Unit := (addOperator bareHost).dispatch bareHost throwingValueOf 2 0 1

/-- The calls and reads before the exception is caught. -/
def sumPrelude : List Event :=
  [.called .bytecode, .got 1 .valueOf, .got 1 .toPrimitive]

theorem execute_sumBody_nested :
    ∃ m, execute (some 0) sumBody (calleeInTry 1) = ⟨m, .caught m :: .threw :: sumPrelude⟩ :=
  ⟨_, rfl⟩

/-- In nested code the throwing coercion ends the addition. -/
theorem noAfterEffect_iff_nested : NoAfterEffect (execute (some 0) sumBody (calleeInTry 1)) := by
  obtain ⟨m, hrun⟩ := execute_sumBody_nested
  refine (noAfterEffect_iff bareHost throwingValueOf .add 2 0 1 sumBody (calleeInTry 1) (some 0)
    rfl ⟨[], sumPrelude, m, by rw [hrun]; rfl⟩).2 ⟨by decide, fun callee hmem => ?_⟩
  cases callee <;> rfl

/-- At depth zero the catch block of the caller is entered, and then the
addition overwrites a register of the caller. -/
theorem sum_writes_after_catch :
    CoercionCaught (execute none sumBody (calleeInTry 0)) ∧
      ¬ NoAfterEffect (execute none sumBody (calleeInTry 0)) ∧
      ∃ m, (execute none sumBody (calleeInTry 0)).log =
          .wrote 2 :: .caught m :: .threw :: sumPrelude ∧
        m.frames = [] ∧ m.regs 2 = .string "kept" ∧
        (execute none sumBody (calleeInTry 0)).vm.regs 2 ≠ .string "kept" := by
  refine ⟨⟨[.wrote 2], sumPrelude, _, rfl⟩, ?_, _, rfl, rfl, rfl, nofun⟩
  rintro ⟨older, hlog, _⟩
  cases hlog

end OxideJS.Vm
