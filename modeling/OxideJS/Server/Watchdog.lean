import Mathlib.Algebra.Order.Ring.Nat

/-!
The watchdog of a persistent server: it polls the server, restarts it after a crash, and
gives up when crashes come too often. One round of its loop is `step`; what the
operating system answers in that round is the input `Poll`, about which nothing is
assumed except, where it matters, that the clock does not go back.

Two things hold over every run. Restarts are spaced: of any six in a row the crashes that led
to the first and the last are more than the window apart, and so are the first and the last
of any seven restarts themselves. And the watchdog ends with success only at a poll that was
told to stop or that missed the sidecar as the poll before it did.
-/

namespace OxideJS.Server.Watchdog

structure ServerIdentity where
  pid : ℕ
  starttime : ℕ

inductive WatchState
  | alive
  | crash
  | exited
  deriving DecidableEq

def decide (identity : Option ServerIdentity) (pidAlive starttimeMatch : Bool) : WatchState :=
  match identity with
  | none => .exited
  | some _ => if !pidAlive then .crash else if starttimeMatch then .alive else .crash

structure CrashBudget where
  window : ℕ
  limit : ℕ
  times : List ℕ

namespace CrashBudget

/-- Sixty seconds, in milliseconds, and five crashes. -/
def new : CrashBudget := ⟨60000, 5, []⟩

/-- The entries outside of the window are dropped; says whether the budget is exhausted. The
difference of two instants does not go below zero. -/
def record (b : CrashBudget) (now : ℕ) : CrashBudget × Bool :=
  let times := (b.times.filter fun t => now - t ≤ b.window) ++ [now]
  ({ b with times := times }, times.length > b.limit)

end CrashBudget

inductive Event
  | crashed (pid now : ℕ)
  | restarted (crash now : ℕ)
  | shutdownRequested
  deriving DecidableEq

/-- One second, in milliseconds. -/
def crashBackoff : ℕ := 1000

/-- What a round of the loop finds. `now` is the instant at which a crash is recorded, and `delay`
what passes between the end of the backoff and the spawn of the new server, which `spawned`
says whether there is. -/
structure Poll where
  stop : Bool
  childExited : Bool
  identity : Option ServerIdentity
  pidAlive : Bool
  processStarttime : Option ℕ
  now : ℕ
  delay : ℕ
  spawned : Option ℕ
  ready : Bool

def Poll.restartAt (p : Poll) : ℕ := p.now + crashBackoff + p.delay

structure State where
  child : ℕ
  childExited : Bool
  budget : CrashBudget
  missingStreak : ℕ
  log : List Event

inductive Status
  | running
  | success
  | failure
  deriving DecidableEq

/-- The state after the first spawn of the server and its readiness. -/
def State.init (child : ℕ) : State := ⟨child, false, .new, 0, []⟩

/-- What the watchdog takes the server for that wrote the sidecar: its own child is dead when it
has been reaped, any other one is judged by its process. -/
def judge (s : State) (p : Poll) (id : ServerIdentity) : WatchState :=
  if id.pid = s.child then if s.childExited then .crash else .alive
  else decide (some id) p.pidAlive (p.processStarttime == some id.starttime)

/-- The server is restarted, unless the budget is exhausted. -/
def handleCrash (s : State) (p : Poll) (id : ServerIdentity) : State × Status :=
  let recorded := s.budget.record p.now
  let s := { s with budget := recorded.1, log := s.log ++ [.crashed id.pid p.now] }
  if recorded.2 then (s, .failure)
  else
    match p.spawned with
    | none => (s, .failure)
    | some child =>
      ({ s with
          child := child
          childExited := false
          log := s.log ++ [.restarted p.now p.restartAt] },
        if p.ready then .running else .failure)

def step (s : State) (p : Poll) : State × Status :=
  if p.stop then ({ s with log := s.log ++ [.shutdownRequested] }, .success)
  else
    let s := { s with childExited := s.childExited || p.childExited }
    match p.identity with
    | none =>
      let s := { s with missingStreak := s.missingStreak + 1 }
      (s, if s.missingStreak ≥ 2 then .success else .running)
    | some id =>
      let s := { s with missingStreak := 0 }
      match judge s p id with
      | .alive => (s, .running)
      | .crash => handleCrash s p id
      | .exited => (s, .success)

/-- The loop, until it returns. -/
def run (s : State) : List Poll → State × Status
  | [] => (s, .running)
  | p :: ps =>
    match step s p with
    | (s', .running) => run s' ps
    | (s', .success) => (s', .success)
    | (s', .failure) => (s', .failure)

/-! ### Restarts are spaced -/

/-- The crashes that were answered with a restart, each with the instant of the restart. -/
def State.restarts (s : State) : List (ℕ × ℕ) :=
  s.log.filterMap fun
    | .restarted crash now => some (crash, now)
    | _ => none

def State.crashes (s : State) : List ℕ := s.restarts.map Prod.fst

/-- Entries of a list that are `limit` apart differ by more than the window. -/
def Spaced (window limit : ℕ) (ts : List ℕ) : Prop :=
  ∀ i a b, ts[i]? = some a → ts[i + limit]? = some b → a + window < b

/-- Restarts wait for the backoff, and the next crash is recorded after them. -/
structure InTurn (rs : List (ℕ × ℕ)) : Prop where
  backoff : ∀ r ∈ rs, r.1 + crashBackoff ≤ r.2
  chained : rs.Pairwise fun r r' => r.2 ≤ r'.1

/-- Up to `now` the restarts come in turn, their crashes are spaced, and the budget holds those of
its window. -/
structure Paced (s : State) (now : ℕ) : Prop where
  inTurn : InTurn s.restarts
  bound : ∀ r ∈ s.restarts, r.2 ≤ now
  times : ∃ last ≤ now, s.budget.times = s.crashes.filter fun t => last - t ≤ s.budget.window
  spaced : Spaced s.budget.window s.budget.limit s.crashes

theorem InTurn.crashes_sorted {s : State} (h : InTurn s.restarts) :
    s.crashes.Pairwise (· ≤ ·) := by
  rw [State.crashes, List.pairwise_map]
  refine h.chained.imp_of_mem fun {r r'} hr _ hle => ?_
  have := h.backoff r hr
  omega

theorem Paced.crash_le {s : State} {now : ℕ} (h : Paced s now) : ∀ t ∈ s.crashes, t ≤ now := by
  intro t ht
  obtain ⟨r, hr, rfl⟩ := List.mem_map.mp ht
  have := h.inTurn.backoff r hr
  have := h.bound r hr
  omega

/-- An entry may be added to a spaced list when few of its entries are in the window before it. -/
theorem Spaced.append {window limit now : ℕ} {ts : List ℕ} (h : Spaced window limit ts)
    (hsorted : ts.Pairwise (· ≤ ·)) (hbound : ∀ t ∈ ts, t ≤ now)
    (hfew : ((ts ++ [now]).filter fun t => now - t ≤ window).length ≤ limit) :
    Spaced window limit (ts ++ [now]) := by
  intro i a b ha hb
  by_cases hi : i + limit < ts.length
  · rw [List.getElem?_append_left (by omega)] at ha hb
    exact h i a b ha hb
  · have hlen : i + limit < (ts ++ [now]).length := (List.getElem?_eq_some_iff.mp hb).1
    have hi' : i + limit = ts.length := by
      simp only [List.length_append, List.length_singleton] at hlen
      omega
    have hnow : now = b := by simpa [hi'] using hb
    subst hnow
    by_contra hclose
    -- everything from position `i` on lies in the window, which is too much
    have hall : ((ts ++ [now]).drop i).filter (fun t => now - t ≤ window) =
        (ts ++ [now]).drop i := by
      have hsorted' : (ts ++ [now]).Pairwise (· ≤ ·) :=
        List.pairwise_append.mpr ⟨hsorted, List.pairwise_singleton _ _, by simpa using hbound⟩
      obtain ⟨hlt, ha'⟩ := List.getElem?_eq_some_iff.mp ha
      rw [List.filter_eq_self, List.drop_eq_getElem_cons hlt, ha']
      have hdrop := (hsorted'.drop (i := i))
      rw [List.drop_eq_getElem_cons hlt, ha'] at hdrop
      intro t ht
      have : a ≤ t := by
        rcases List.mem_cons.mp ht with rfl | ht
        · exact le_rfl
        · exact (List.pairwise_cons.mp hdrop).1 t ht
      simp only [decide_eq_true_eq]
      omega
    have hsub : ((ts ++ [now]).drop i).length ≤
        ((ts ++ [now]).filter fun t => now - t ≤ window).length := by
      rw [← hall]
      exact ((List.drop_sublist i _).filter _).length_le
    simp only [List.length_drop, List.length_append, List.length_singleton] at hsub hfew
    omega

theorem Paced.mono {s : State} {now now' : ℕ} (h : Paced s now) (hle : now ≤ now') :
    Paced s now' := by
  obtain ⟨last, hlast, htimes⟩ := h.times
  exact ⟨h.inTurn, fun r hr => (h.bound r hr).trans hle, ⟨last, hlast.trans hle, htimes⟩, h.spaced⟩

/-- A step that neither restarts nor touches the budget. -/
theorem Paced.of_same {s s' : State} {now : ℕ} (h : Paced s now)
    (hr : s'.restarts = s.restarts) (hb : s'.budget = s.budget) : Paced s' now := by
  have hc : s'.crashes = s.crashes := congrArg (List.map Prod.fst) hr
  refine ⟨hr ▸ h.inTurn, hr ▸ h.bound, ?_, ?_⟩
  · rw [hc, hb]
    exact h.times
  · rw [hc, hb]
    exact h.spaced

/-- What the budget holds after a crash is what the window then holds of the crashes before it
and the crash itself. -/
theorem record_times {s : State} {lo now : ℕ} (h : Paced s lo) (hle : lo ≤ now) :
    (s.budget.record now).1.times =
      (s.crashes ++ [now]).filter fun t => now - t ≤ s.budget.window := by
  obtain ⟨last, hlast, htimes⟩ := h.times
  simp only [CrashBudget.record, htimes, List.filter_filter, List.filter_append]
  congr 1
  · refine List.filter_congr fun t _ => ?_
    simp only [← Bool.decide_and, decide_eq_decide]
    omega
  · simp

/-- The state after a restart. -/
def State.restarted (s : State) (p : Poll) (id : ServerIdentity) (child : ℕ) : State where
  child := child
  childExited := false
  budget := (s.budget.record p.now).1
  missingStreak := s.missingStreak
  log := s.log ++ [.crashed id.pid p.now] ++ [.restarted p.now p.restartAt]

theorem handleCrash_cases (s : State) (p : Poll) (id : ServerIdentity) :
    ((handleCrash s p id).2 = .failure ∧ (handleCrash s p id).1.restarts = s.restarts) ∨
      ∃ child, p.spawned = some child ∧ (s.budget.record p.now).2 = false ∧
        (handleCrash s p id).1 = s.restarted p id child ∧ (handleCrash s p id).2 ≠ .success := by
  rw [handleCrash]
  dsimp only
  by_cases hfull : (s.budget.record p.now).2 = true
  · rw [if_pos hfull]
    exact .inl ⟨rfl, by simp [State.restarts]⟩
  · rw [if_neg hfull]
    rcases p.spawned with _ | child
    · exact .inl ⟨rfl, by simp [State.restarts]⟩
    · refine .inr ⟨child, rfl, Bool.eq_false_iff.mpr hfull, rfl, ?_⟩
      by_cases hready : p.ready <;> simp [hready]

theorem restarts_restarted (s : State) (p : Poll) (id : ServerIdentity) (child : ℕ) :
    (s.restarted p id child).restarts = s.restarts ++ [(p.now, p.restartAt)] := by
  simp [State.restarts, State.restarted]

theorem restarted_paced {s : State} {p : Poll} {lo : ℕ} (h : Paced s lo) (hle : lo ≤ p.now)
    (id : ServerIdentity) (child : ℕ) (hroom : (s.budget.record p.now).2 = false) :
    Paced (s.restarted p id child) p.restartAt := by
  have htimes := record_times h hle
  have hlater : p.now + crashBackoff ≤ p.restartAt := Nat.le_add_right _ _
  have hcrashes : (s.restarted p id child).crashes = s.crashes ++ [p.now] := by
    simp [State.crashes, restarts_restarted]
  have hfew : ((s.crashes ++ [p.now]).filter fun t => p.now - t ≤ s.budget.window).length ≤
      s.budget.limit := by
    rw [← htimes]
    simpa [CrashBudget.record] using hroom
  refine ⟨⟨?_, ?_⟩, ?_, ⟨p.now, by omega, ?_⟩, ?_⟩
  · rw [restarts_restarted]
    intro r hr
    rcases List.mem_append.mp hr with hr | hr
    · exact h.inTurn.backoff r hr
    · rwa [List.mem_singleton.mp hr]
  · rw [restarts_restarted]
    refine List.pairwise_append.mpr ⟨h.inTurn.chained, List.pairwise_singleton _ _, ?_⟩
    intro r hr r' hr'
    rw [List.mem_singleton.mp hr']
    exact (h.bound r hr).trans hle
  · rw [restarts_restarted]
    intro r hr
    rcases List.mem_append.mp hr with hr | hr
    · have := h.bound r hr
      omega
    · rw [List.mem_singleton.mp hr]
  · rw [hcrashes]
    exact htimes
  · rw [hcrashes]
    exact h.spaced.append h.inTurn.crashes_sorted (fun t ht => (h.crash_le t ht).trans hle) hfew

/-- What a step can do: it ends, it goes on without touching the restarts, or it restarts. -/
theorem step_cases (s : State) (p : Poll) :
    ((step s p).2 ≠ .running ∧ (step s p).1.restarts = s.restarts) ∨
      ((step s p).1.restarts = s.restarts ∧ (step s p).1.budget = s.budget) ∨
      ∃ (s' : State) (id : ServerIdentity) (child : ℕ),
        p.spawned = some child ∧ s'.restarts = s.restarts ∧ s'.budget = s.budget ∧
        (s.budget.record p.now).2 = false ∧ (step s p).1 = s'.restarted p id child := by
  rw [step]
  by_cases hstop : p.stop = true
  · rw [if_pos hstop]
    exact .inl ⟨by simp, by simp [State.restarts]⟩
  · rw [if_neg hstop]
    rcases p.identity with _ | id
    · exact .inr (.inl ⟨rfl, rfl⟩)
    · dsimp only
      generalize hs' : ({ s with
        childExited := s.childExited || p.childExited
        missingStreak := 0 } : State) = s'
      have hr : s'.restarts = s.restarts := hs' ▸ rfl
      have hb : s'.budget = s.budget := hs' ▸ rfl
      rcases judge s' p id with _ | _ | _
      · exact .inr (.inl ⟨hr, hb⟩)
      · dsimp only
        rcases handleCrash_cases s' p id with ⟨hfail, hsame⟩ | ⟨child, hchild, hroom, heq, -⟩
        · exact .inl ⟨by simp [hfail], hsame.trans hr⟩
        · exact .inr (.inr ⟨s', id, child, hchild, hr, hb, hb ▸ hroom, heq⟩)
      · exact .inr (.inl ⟨hr, hb⟩)

/-- A clock that does not go back: a later poll is later, and after the restart if there was one. -/
def Poll.Before (p q : Poll) : Prop :=
  p.now ≤ q.now ∧ (p.spawned.isSome → p.restartAt ≤ q.now)

instance : DecidableRel Poll.Before := fun _ _ => inferInstanceAs (Decidable (_ ∧ _))

/-- What a run shows of its restarts. -/
structure SpacedRestarts (window limit : ℕ) (s : State) : Prop where
  inTurn : InTurn s.restarts
  spaced : Spaced window limit s.crashes

theorem step_paced {s : State} {p : Poll} {lo : ℕ} (h : Paced s lo) (hle : lo ≤ p.now) :
    SpacedRestarts s.budget.window s.budget.limit (step s p).1 ∧
      ((step s p).2 = .running →
        (∃ lo', Paced (step s p).1 lo' ∧ ∀ q, p.Before q → lo' ≤ q.now) ∧
        (step s p).1.budget.window = s.budget.window ∧
        (step s p).1.budget.limit = s.budget.limit) := by
  rcases step_cases s p with ⟨hend, hr⟩ | ⟨hr, hb⟩ | ⟨s', id, child, hchild, hr, hb, hroom, heq⟩
  · have hc : (step s p).1.crashes = s.crashes := congrArg (List.map Prod.fst) hr
    exact ⟨⟨hr ▸ h.inTurn, hc ▸ h.spaced⟩, fun hrun => (hend hrun).elim⟩
  · have hpaced := h.of_same hr hb
    refine ⟨⟨hpaced.inTurn, hb ▸ hpaced.spaced⟩, fun _ => ⟨⟨p.now, hpaced.mono hle, ?_⟩, ?_, ?_⟩⟩
    · exact fun q hq => hq.1
    · rw [hb]
    · rw [hb]
  · have hpaced := restarted_paced (h.of_same hr hb) hle id child (hb.symm ▸ hroom)
    have hw : (s'.restarted p id child).budget.window = s.budget.window := by
      rw [← hb]
      rfl
    have hl : (s'.restarted p id child).budget.limit = s.budget.limit := by
      rw [← hb]
      rfl
    rw [heq, ← hw, ← hl]
    refine ⟨⟨hpaced.inTurn, hpaced.spaced⟩, fun _ => ⟨⟨p.restartAt, hpaced, ?_⟩, rfl, rfl⟩⟩
    exact fun q hq => hq.2 (by simp [hchild])

theorem run_spaced {s : State} {lo : ℕ} (h : Paced s lo) {ps : List Poll}
    (hlo : ∀ q ∈ ps, lo ≤ q.now) (hclock : ps.Pairwise Poll.Before) :
    SpacedRestarts s.budget.window s.budget.limit (run s ps).1 := by
  induction ps generalizing s lo with
  | nil => exact ⟨h.inTurn, h.spaced⟩
  | cons p ps ih =>
    obtain ⟨hbefore, hrest⟩ := List.pairwise_cons.mp hclock
    obtain ⟨hspaced, hgo⟩ := step_paced h (hlo p (by simp))
    rw [run]
    generalize step s p = r at *
    obtain ⟨s', status⟩ := r
    cases status with
    | running =>
      obtain ⟨⟨lo', hpaced, hlater⟩, hw, hl⟩ := hgo rfl
      have := ih hpaced (fun q hq => hlater q (hbefore q hq)) hrest
      rwa [hw, hl] at this
    | success => exact hspaced
    | failure => exact hspaced

theorem init_paced (child : ℕ) : Paced (State.init child) 0 := by
  have hnone : (State.init child).restarts = [] := rfl
  refine ⟨⟨by simp [hnone], by simp [hnone]⟩, by simp [hnone], ⟨0, le_rfl, rfl⟩, ?_⟩
  intro i a b ha
  simp [State.crashes, hnone] at ha

/-- Between the first and the last of seven restarts lies the window of the crashes from the second
on, and the last backoff. -/
theorem SpacedRestarts.restarts_apart {window limit : ℕ} {s : State}
    (h : SpacedRestarts window limit s) (i : ℕ) (r r' : ℕ × ℕ)
    (hr : s.restarts[i]? = some r) (hr' : s.restarts[i + (limit + 1)]? = some r') :
    r.2 + (window + crashBackoff) < r'.2 := by
  obtain ⟨hlt', hget'⟩ := List.getElem?_eq_some_iff.mp hr'
  obtain ⟨hlt, hget⟩ := List.getElem?_eq_some_iff.mp hr
  have hnext : i + 1 < s.restarts.length := by omega
  have hchained : r.2 ≤ (s.restarts[i + 1]).1 := by
    rw [← hget]
    exact List.pairwise_iff_getElem.mp h.inTurn.chained i (i + 1) hlt hnext (by omega)
  have hapart : (s.restarts[i + 1]).1 + window < r'.1 := by
    refine h.spaced (i + 1) _ _ ?_ ?_
    · simp [State.crashes, List.getElem?_eq_getElem hnext]
    · rw [State.crashes, List.getElem?_map, show i + 1 + limit = i + (limit + 1) by omega, hr']
      rfl
  have hbackoff := h.inTurn.backoff r' (List.mem_of_getElem? hr')
  omega

/-- While the clock does not go back, of any six restarts in a row the crashes before the first and
before the last are more than sixty seconds apart, and any seven restarts in a row take more
than sixty-one seconds, whatever crashes and polls there are. -/
theorem restarts_spaced (child : ℕ) (ps : List Poll) (hclock : ps.Pairwise Poll.Before)
    (i : ℕ) (r r' : ℕ × ℕ) (hr : (run (.init child) ps).1.restarts[i]? = some r) :
    ((run (.init child) ps).1.restarts[i + 5]? = some r' → r.1 + 60000 < r'.1) ∧
      ((run (.init child) ps).1.restarts[i + 6]? = some r' → r.2 + 61000 < r'.2) := by
  have h := run_spaced (init_paced child) (fun _ _ => Nat.zero_le _) hclock
  refine ⟨fun hr' => h.spaced i _ _ ?_ ?_, h.restarts_apart i r r' hr⟩
  · simp [State.crashes, hr]
  · rw [State.crashes, List.getElem?_map]
    exact congrArg (Option.map Prod.fst) hr'

/-- The sidecar dies at each of six polls, the last of them after the window. -/
def sixCrashes : List Poll :=
  (List.range 5).map (fun k =>
      ⟨false, true, some ⟨k, 0⟩, false, none, 2000 * k, 500, some (k + 1), true⟩)
    ++ [⟨false, true, some ⟨5, 0⟩, false, none, 60001, 0, some 6, true⟩]

theorem restarts_spaced_of_six :
    (run (.init 0) sixCrashes).1.restarts =
        [(0, 1500), (2000, 3500), (4000, 5500), (6000, 7500), (8000, 9500), (60001, 61001)] ∧
      0 + 60000 < 60001 :=
  ⟨by decide, (restarts_spaced 0 sixCrashes (by decide) 0 (0, 1500) (60001, 61001) (by decide)).1
    (by decide)⟩

/-! ### How the watchdog ends -/

/-- The streak counts whether the previous poll missed the sidecar. -/
theorem step_success {s : State} {p : Poll} (h : (step s p).2 = .success) :
    p.stop = true ∨ (p.identity = none ∧ 1 ≤ s.missingStreak) := by
  rw [step] at h
  by_cases hstop : p.stop = true
  · exact .inl hstop
  · rw [if_neg hstop] at h
    rcases hid : p.identity with _ | id
    · rw [hid] at h
      dsimp only at h
      split_ifs at h with hstreak
      exact .inr ⟨rfl, by omega⟩
    · rw [hid] at h
      dsimp only at h
      generalize ({ s with
        childExited := s.childExited || p.childExited
        missingStreak := 0 } : State) = s' at h
      rcases hj : judge s' p id with _ | _ | _
      · simp [hj] at h
      · rw [hj] at h
        dsimp only at h
        rcases handleCrash_cases s' p id with ⟨hfail, -⟩ | ⟨child, -, -, -, hns⟩
        · rw [hfail] at h
          cases h
        · exact (hns h).elim
      · exfalso
        rw [judge, decide] at hj
        split_ifs at hj

theorem step_streak {s : State} {p : Poll} (h : (step s p).2 = .running) :
    (step s p).1.missingStreak = 0 ∨ p.identity = none := by
  rw [step] at h ⊢
  by_cases hstop : p.stop = true
  · simp [hstop] at h
  · rw [if_neg hstop] at h ⊢
    rcases hid : p.identity with _ | id
    · exact .inr rfl
    · rw [hid] at h
      dsimp only at h ⊢
      refine .inl ?_
      generalize hs' : ({ s with
        childExited := s.childExited || p.childExited
        missingStreak := 0 } : State) = s' at h ⊢
      have hzero : s'.missingStreak = 0 := hs' ▸ rfl
      rcases hj : judge s' p id with _ | _ | _
      · exact hzero
      · rw [hj] at h
        dsimp only at h ⊢
        rcases handleCrash_cases s' p id with ⟨hfail, -⟩ | ⟨child, -, -, heq, -⟩
        · rw [hfail] at h
          cases h
        · rw [heq]
          exact hzero
      · exact hzero

/-- The poll that ended a successful run, and the one before it if there was one. -/
theorem run_success {s : State} {prev : Option Poll} {ps : List Poll}
    (hstreak : s.missingStreak = 0 ∨ ∃ q, prev = some q ∧ q.identity = none)
    (h : (run s ps).2 = .success) :
    ∃ pre p post, ps = pre ++ p :: post ∧
      (run s pre).2 = .running ∧ run s (pre ++ [p]) = run s ps ∧
      (p.stop = true ∨ p.identity = none ∧
        ∃ q, (prev.toList ++ pre).getLast? = some q ∧ q.identity = none) := by
  induction ps generalizing s prev with
  | nil => cases h
  | cons p ps ih =>
    rw [run] at h
    have hsuccess := @step_success s p
    have hgo := @step_streak s p
    rcases hstep : step s p with ⟨s', status⟩
    rw [hstep] at h hsuccess hgo
    cases status with
    | running =>
      have hstreak' : s'.missingStreak = 0 ∨ ∃ q, some p = some q ∧ q.identity = none :=
        (hgo rfl).imp id fun hp => ⟨p, rfl, hp⟩
      obtain ⟨pre, p', post, rfl, hpre, hall, hend⟩ := ih hstreak' h
      refine ⟨p :: pre, p', post, rfl, ?_, ?_, hend.imp id fun hmiss => ⟨hmiss.1, ?_⟩⟩
      · rw [run, hstep]
        exact hpre
      · rw [List.cons_append, run, run, hstep]
        exact hall
      · obtain ⟨q, hq, hnone⟩ := hmiss.2
        refine ⟨q, ?_, hnone⟩
        simpa [List.getLast?_append] using hq
    | success =>
      refine ⟨[], p, ps, rfl, rfl, ?_, (hsuccess rfl).imp id fun hmiss => ⟨hmiss.1, ?_⟩⟩
      · rw [List.nil_append, run, run, hstep]
      · rcases hstreak with hzero | ⟨q, rfl, hq⟩
        · omega
        · exact ⟨q, rfl, hq⟩
    | failure => cases h

/-- A watchdog that ends with success runs up to a poll at which it ends, and that poll finds the
stop flag set, or misses the sidecar right after another one that missed it. -/
theorem success_causes (child : ℕ) (ps : List Poll)
    (h : (run (.init child) ps).2 = .success) :
    ∃ pre p post, ps = pre ++ p :: post ∧
      (run (.init child) pre).2 = .running ∧ (run (.init child) (pre ++ [p])).2 = .success ∧
      (p.stop = true ∨ p.identity = none ∧ ∃ q, pre.getLast? = some q ∧ q.identity = none) := by
  obtain ⟨pre, p, post, hps, hpre, hend, hcause⟩ := @run_success _ none _ (.inl rfl) h
  exact ⟨pre, p, post, hps, hpre, by rw [hend, h], hcause⟩

theorem success_causes_two_missing :
    ∃ pre p post,
      [(⟨false, false, none, false, none, 0, 0, none, false⟩ : Poll),
        ⟨false, false, none, false, none, 1, 0, none, false⟩] = pre ++ p :: post ∧
      (run (.init 0) pre).2 = .running ∧ (run (.init 0) (pre ++ [p])).2 = .success ∧
      (p.stop = true ∨ p.identity = none ∧ ∃ q, pre.getLast? = some q ∧ q.identity = none) :=
  success_causes 0 _ rfl

end OxideJS.Server.Watchdog
