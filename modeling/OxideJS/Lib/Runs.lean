import Mathlib.Init

/-!
Systems that are driven by a list of events.

The system is a function that takes a state and an event to the next
state; a run is a fold of it. What a step keeps, a run keeps, and where a
step keeps it under a condition only, the condition has to be met along
the run.
-/

namespace OxideJS.Lib.Runs

variable {σ ε : Type*} (step : σ → ε → σ)

/-- The state after a list of events. -/
def run (s : σ) (events : List ε) : σ :=
  events.foldl step s

/-- Every event of a run meets a condition in the state it finds. -/
def Along (ok : σ → ε → Prop) : σ → List ε → Prop
  | _, [] => True
  | s, e :: events => ok s e ∧ Along ok (step s e) events

variable {step}

@[simp] theorem run_nil (s : σ) : run step s [] = s := rfl

@[simp] theorem run_cons (s : σ) (e : ε) (events : List ε) :
    run step s (e :: events) = run step (step s e) events := rfl

@[simp] theorem run_append (s : σ) (events events' : List ε) :
    run step s (events ++ events') = run step (run step s events) events' :=
  List.foldl_append

/-- What every step keeps, a run keeps. -/
theorem run_keeps (Inv : σ → Prop) (hstep : ∀ s e, Inv s → Inv (step s e)) {s : σ} (h : Inv s)
    (events : List ε) : Inv (run step s events) := by
  induction events generalizing s with
  | nil => exact h
  | cons e events ih => exact ih (hstep s e h)

/-- What every step under a condition keeps, a run along which the
condition is met keeps. -/
theorem run_keeps_along {ok : σ → ε → Prop} (Inv : σ → Prop)
    (hstep : ∀ s e, Inv s → ok s e → Inv (step s e)) {s : σ} (h : Inv s) {events : List ε}
    (hok : Along step ok s events) : Inv (run step s events) := by
  induction events generalizing s with
  | nil => exact h
  | cons e events ih => exact ih (hstep s e h hok.1) hok.2

/-- Where a step that violates the condition breaks the invariant for good,
the runs that keep it are those along which the condition is met. -/
theorem run_iff_along {ok : σ → ε → Prop} (Inv Broken : σ → Prop)
    (hstep : ∀ s e, Inv s → ok s e → Inv (step s e))
    (hbreak : ∀ s e, Inv s → ¬ok s e → Broken (step s e))
    (hbroken : ∀ s e, Broken s → Broken (step s e)) (hnot : ∀ s, Broken s → ¬Inv s) {s : σ}
    (h : Inv s) (events : List ε) : Inv (run step s events) ↔ Along step ok s events := by
  induction events generalizing s with
  | nil => exact iff_of_true h trivial
  | cons e events ih =>
    by_cases hok : ok s e
    · rw [run_cons, ih (hstep s e h hok), Along, and_iff_right hok]
    · refine iff_of_false (hnot _ ?_) fun hall => hok hall.1
      exact run_keeps Broken hbroken (hbreak s e h hok) events

/-- A condition that follows from what every step keeps is met along every run. -/
theorem along_of_keeps {ok : σ → ε → Prop} (Inv : σ → Prop)
    (hstep : ∀ s e, Inv s → Inv (step s e)) {s : σ} (h : Inv s) {events : List ε}
    (hok : ∀ s, Inv s → ∀ e ∈ events, ok s e) : Along step ok s events := by
  induction events generalizing s with
  | nil => trivial
  | cons e events ih =>
    exact ⟨hok s h e List.mem_cons_self,
      ih (hstep s e h) fun s hs e' he' => hok s hs e' (List.mem_cons_of_mem _ he')⟩

end OxideJS.Lib.Runs
