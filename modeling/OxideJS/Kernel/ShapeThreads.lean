import OxideJS.Kernel.ShapeForge
import OxideJS.Lib.Runs

/-!
Many threads on one forge.

A call of `make_shape` looks into the transitions, draws a number, writes
the node and enters the transition, and each of these is one access to a
table behind a lock or to an atomic counter. Between two accesses of one
thread any number of accesses of the others may fall.

What makes the outcome unique is the last access: the entry of a
transition is made once, and whoever comes second takes what is there. The
node has been written before, so whoever finds the transition finds the
node.
-/

namespace OxideJS.Kernel

open OxideJS.Lib.Runs

/-! ### Calls in progress -/

/-- The access that a call makes next. -/
inductive Phase where
  | lookup
  | loadActive
  | readOverflow
  | draw
  | storeActive (newId : ShapeId)
  | enterOverflow (newId : ShapeId)
  | readDepth (newId : ShapeId)
  | write (newId : ShapeId) (depth : Nat)
  | enter (newId : ShapeId)
  | returned (id : ShapeId)
  | panicked
  deriving DecidableEq, Repr

structure Call where
  parent : ShapeId
  name : StringIndex
  phase : Phase
  deriving DecidableEq, Repr

namespace Call

def key (c : Call) : UInt64 :=
  packKey c.parent c.name

def goTo (c : Call) (phase : Phase) : Call :=
  { c with phase := phase }

/-- One access. -/
def step (f : ShapeForge) (c : Call) : ShapeForge × Call :=
  match c.phase with
  | .lookup =>
    match f.transitions c.key with
    | some id => (f, c.goTo (.returned id))
    | none => (f, c.goTo .loadActive)
  | .loadActive => (f, c.goTo (if f.overflowActive then .readOverflow else .draw))
  | .readOverflow =>
    match f.overflowMap c.key with
    | some id => (f, c.goTo (.returned id))
    | none => (f, c.goTo .draw)
  | .draw =>
    (f.drawId, c.goTo (if idLimit < f.nextId then .storeActive f.nextId else .readDepth f.nextId))
  | .storeActive newId => (f.activateOverflow, c.goTo (.enterOverflow newId))
  | .enterOverflow newId =>
    ((f.enterOverflow c.key newId).1, c.goTo (.returned (f.enterOverflow c.key newId).2))
  | .readDepth newId =>
    if f.poisoned then (f, c.goTo .panicked)
    else (f, c.goTo (.write newId (f.depthOf c.parent + 1)))
  | .write newId depth =>
    if f.poisoned then (f, c.goTo .panicked)
    else
      match f.writeShape ⟨newId, c.name, some c.parent, depth⟩ with
      | none => ({ f with poisoned := true }, c.goTo .panicked)
      | some f => (f, c.goTo (.enter newId))
  | .enter newId =>
    ((f.enterTransition c.key newId).1, c.goTo (.returned (f.enterTransition c.key newId).2))
  | .returned id => (f, c.goTo (.returned id))
  | .panicked => (f, c.goTo .panicked)

/-- A call that no other thread disturbs. -/
def alone : Nat → ShapeForge → Call → ShapeForge × Call
  | 0, f, c => (f, c)
  | k + 1, f, c => alone k (step f c).1 (step f c).2

def outcome : Option ShapeId → Phase
  | some id => .returned id
  | none => .panicked

@[simp] theorem alone_returned (k : Nat) (f : ShapeForge) (p : ShapeId) (n : StringIndex)
    (id : ShapeId) : alone k f ⟨p, n, .returned id⟩ = (f, ⟨p, n, .returned id⟩) := by
  induction k with
  | zero => rfl
  | succ k ih => exact ih

@[simp] theorem alone_panicked (k : Nat) (f : ShapeForge) (p : ShapeId) (n : StringIndex) :
    alone k f ⟨p, n, .panicked⟩ = (f, ⟨p, n, .panicked⟩) := by
  induction k with
  | zero => rfl
  | succ k ih => exact ih

theorem alone_succ {k : Nat} {f f' : ShapeForge} {c c' : Call} (h : step f c = (f', c')) :
    alone (k + 1) f c = alone k f' c' := by
  rw [alone, h]

/-- A call that has to draw a number. -/
theorem alone_draw (k : Nat) (f : ShapeForge) (p : ShapeId) (n : StringIndex)
    (hk : f.known (packKey p n) = none) :
    alone (k + 4) f ⟨p, n, .draw⟩
      = ((f.makeShape p n).1, ⟨p, n, outcome (f.makeShape p n).2⟩) := by
  rw [ShapeForge.makeShape, hk]
  by_cases hlt : idLimit < f.nextId
  · have hdraw : step f ⟨p, n, .draw⟩ = (f.drawId, ⟨p, n, .storeActive f.nextId⟩) := by
      simp only [step, goTo, if_pos hlt]
    rw [alone_succ hdraw, alone_succ rfl, alone_succ rfl]
    simp [hlt, goTo, key, outcome]
  · have hdraw : step f ⟨p, n, .draw⟩ = (f.drawId, ⟨p, n, .readDepth f.nextId⟩) := by
      simp only [step, goTo, if_neg hlt]
    rw [alone_succ hdraw]
    simp only [if_neg hlt, ShapeForge.register]
    cases hp : f.drawId.poisoned with
    | true =>
      have hread : step f.drawId ⟨p, n, .readDepth f.nextId⟩ = (f.drawId, ⟨p, n, .panicked⟩) := by
        simp [step, goTo, hp]
      rw [alone_succ hread]
      simp [outcome]
    | false =>
      have hread : step f.drawId ⟨p, n, .readDepth f.nextId⟩
          = (f.drawId, ⟨p, n, .write f.nextId (f.drawId.depthOf p + 1)⟩) := by
        simp [step, goTo, hp]
      rw [alone_succ hread]
      cases hw : f.drawId.writeShape ⟨f.nextId, n, some p, f.drawId.depthOf p + 1⟩ with
      | none =>
        have hwrite : step f.drawId ⟨p, n, .write f.nextId (f.drawId.depthOf p + 1)⟩
            = ({ f.drawId with poisoned := true }, ⟨p, n, .panicked⟩) := by
          simp [step, goTo, hp, hw]
        rw [alone_succ hwrite]
        simp [outcome]
      | some f' =>
        have hwrite : step f.drawId ⟨p, n, .write f.nextId (f.drawId.depthOf p + 1)⟩
            = (f', ⟨p, n, .enter f.nextId⟩) := by
          simp [step, goTo, hp, hw]
        rw [alone_succ hwrite, alone_succ rfl]
        simp [outcome, goTo, key]

/-- The accesses of one call, made in a row, are the function. -/
theorem alone_eq_makeShape (f : ShapeForge) (p : ShapeId) (n : StringIndex) :
    alone 7 f ⟨p, n, .lookup⟩
      = ((f.makeShape p n).1, ⟨p, n, outcome (f.makeShape p n).2⟩) := by
  cases ht : f.transitions (packKey p n) with
  | some id =>
    have hlookup : step f ⟨p, n, .lookup⟩ = (f, ⟨p, n, .returned id⟩) := by
      simp only [step, key, goTo, ht]
    rw [alone_succ hlookup]
    simp [ShapeForge.makeShape, ShapeForge.known, ht, outcome]
  | none =>
    have hlookup : step f ⟨p, n, .lookup⟩ = (f, ⟨p, n, .loadActive⟩) := by
      simp only [step, key, goTo, ht]
    rw [alone_succ hlookup]
    cases ha : f.overflowActive with
    | false =>
      have hload : step f ⟨p, n, .loadActive⟩ = (f, ⟨p, n, .draw⟩) := by simp [step, goTo, ha]
      rw [alone_succ hload]
      exact alone_draw 1 f p n (by simp [ShapeForge.known, ht, ha])
    | true =>
      have hload : step f ⟨p, n, .loadActive⟩ = (f, ⟨p, n, .readOverflow⟩) := by
        simp [step, goTo, ha]
      rw [alone_succ hload]
      cases ho : f.overflowMap (packKey p n) with
      | some id =>
        have hread : step f ⟨p, n, .readOverflow⟩ = (f, ⟨p, n, .returned id⟩) := by
          simp only [step, key, goTo, ho]
        rw [alone_succ hread]
        simp [ShapeForge.makeShape, ShapeForge.known, ht, ha, ho, outcome]
      | none =>
        have hread : step f ⟨p, n, .readOverflow⟩ = (f, ⟨p, n, .draw⟩) := by
          simp only [step, key, goTo, ho]
        rw [alone_succ hread]
        exact alone_draw 0 f p n (by simp [ShapeForge.known, ht, ha, ho])

end Call

/-! ### Threads -/

structure Return where
  parent : ShapeId
  name : StringIndex
  id : ShapeId
  deriving DecidableEq, Repr

structure Threads where
  forge : ShapeForge
  /-- The call each thread is in. -/
  calls : Nat → Option Call
  /-- The calls that have returned, the latest first. -/
  returned : List Return

inductive Event where
  | call (t : Nat) (parent : ShapeId) (name : StringIndex)
  | access (t : Nat)
  deriving DecidableEq, Repr

namespace Threads

def new : Threads := ⟨.new, fun _ => none, []⟩

/-- A thread goes on with its call; a call that returns is over. -/
def continueCall (s : Threads) (t : Nat) (res : ShapeForge × Call) : Threads :=
  match res.2.phase with
  | .returned id =>
    ⟨res.1, Function.update s.calls t none, ⟨res.2.parent, res.2.name, id⟩ :: s.returned⟩
  | _ => ⟨res.1, Function.update s.calls t (some res.2), s.returned⟩

/-- A thread begins a call when it is in none, and makes one access when
it is in one. -/
def step (s : Threads) : Event → Threads
  | .call t p n =>
    match s.calls t with
    | some _ => s
    | none => { s with calls := Function.update s.calls t (some ⟨p, n, .lookup⟩) }
  | .access t =>
    match s.calls t with
    | some c => s.continueCall t (c.step s.forge)
    | none => s

/-- Fewer than `2 ^ 24` shapes, with the root and with those that are
being made. -/
def HasRoom (s : Threads) : Prop :=
  s.forge.nextId.toNat ≤ 2 ^ 24

end Threads

/-! ### The invariant -/

/-- The number that a call has drawn. -/
def Phase.drawn : Phase → Option ShapeId
  | .storeActive i | .enterOverflow i | .readDepth i | .write i _ | .enter i => some i
  | _ => none

/-- The phases of a call that does not meet the overflow. -/
def Phase.OnTrack : Phase → Prop
  | .lookup | .loadActive | .draw | .readDepth _ | .write _ _ | .enter _ => True
  | _ => False

/-- A number that was drawn is in no transition, and before the transition
is entered the node is there. -/
structure Pending (f : ShapeForge) (c : Call) : Prop where
  onTrack : c.phase.OnTrack
  fresh : ∀ i, c.phase.drawn = some i →
    2 ≤ i.toNat ∧ i.toNat < f.nextId.toNat ∧ ∀ key, f.transitions key ≠ some i
  written : ∀ i, c.phase = .enter i → ∃ depth, f.shapeAt i = some ⟨i, c.name, some c.parent, depth⟩

structure Calm (f : ShapeForge) : Prop where
  low : 2 ≤ f.nextId.toNat
  high : f.nextId.toNat ≤ 2 ^ 24
  inactive : f.overflowActive = false
  unpoisoned : f.poisoned = false

structure Consed (s : Threads) : Prop where
  calm : Calm s.forge
  numbered : ∀ key i, s.forge.transitions key = some i → i.toNat < s.forge.nextId.toNat
  entered : ∀ p n i, s.forge.transitions (packKey p n) = some i →
    ∃ depth, s.forge.shapeAt i = some ⟨i, n, some p, depth⟩
  pending : ∀ t c, s.calls t = some c → Pending s.forge c
  distinct : ∀ t t' c c' i, s.calls t = some c → s.calls t' = some c' → c.phase.drawn = some i →
    c'.phase.drawn = some i → t = t'
  returned : ∀ r ∈ s.returned, s.forge.transitions (packKey r.parent r.name) = some r.id

theorem consed_new : Consed .new :=
  ⟨⟨by decide, by decide, rfl, rfl⟩, nofun, nofun, nofun, nofun, nofun⟩

/-- Writing a node changes no other. -/
theorem ShapeForge.writeShape_spec (f : ShapeForge) (shape : Shape) (h : 1 ≤ shape.id.toNat) :
    ∃ shapes, f.writeShape shape = some { f with shapes := shapes } ∧
      ({ f with shapes := shapes } : ShapeForge).shapeAt shape.id = some shape ∧
      ∀ j, j ≠ shape.id → ({ f with shapes := shapes } : ShapeForge).shapeAt j = f.shapeAt j := by
  have hid := shape.id.toNat_lt
  have hindex : (shape.id - 1).toNat = shape.id.toNat - 1 := by
    rw [UInt32.toNat_sub, show (1 : UInt32).toNat = 1 from rfl]
    omega
  have hlt : (shape.id - 1).toNat
      < (f.shapes ++ List.replicate (shape.id.toNat - f.shapes.length) none).length := by
    rw [List.length_append, List.length_replicate]
    omega
  refine ⟨_, by rw [ShapeForge.writeShape, if_pos hlt], ?_, ?_⟩
  · rw [ShapeForge.shapeAt, List.getElem?_set_self hlt, Option.join_some]
  · intro j hj
    have hne : (shape.id - 1).toNat ≠ (j - 1).toNat := by
      have hjlt := j.toNat_lt
      have hjne : j.toNat ≠ shape.id.toNat := fun h => hj (UInt32.toNat_inj.1 h)
      rw [hindex, UInt32.toNat_sub, show (1 : UInt32).toNat = 1 from rfl]
      omega
    rw [ShapeForge.shapeAt, List.getElem?_set_ne hne, ShapeForge.shapeAt]
    by_cases hin : (j - 1).toNat < f.shapes.length
    · rw [List.getElem?_append_left hin]
    · rw [List.getElem?_append_right (by omega), List.getElem?_eq_none (l := f.shapes) (by omega),
        List.getElem?_replicate]
      split
      · rfl
      · rfl

namespace Consed

variable {s : Threads} {t : Nat} {c : Call}

/-- An access that enters no transition: the numbers of the other calls
and their nodes are untouched. -/
theorem advance (h : Consed s) (ht : s.calls t = some c) {f' : ShapeForge} {c' : Call}
    (hcalm : Calm f') (htrans : f'.transitions = s.forge.transitions)
    (hnext : s.forge.nextId.toNat ≤ f'.nextId.toNat)
    (hshape : ∀ j, c.phase.drawn ≠ some j → f'.shapeAt j = s.forge.shapeAt j)
    (hdrawn : ∀ i, c'.phase.drawn = some i →
      c.phase.drawn = some i ∨ s.forge.nextId.toNat ≤ i.toNat)
    (hpend : Pending f' c') :
    Consed ⟨f', Function.update s.calls t (some c'), s.returned⟩ := by
  have hother : ∀ t' c'', t' ≠ t → s.calls t' = some c'' → ∀ i, c''.phase.drawn = some i →
      c.phase.drawn ≠ some i ∧ c'.phase.drawn ≠ some i := by
    intro t' c'' hne hc'' i hi
    have hold : c.phase.drawn ≠ some i := fun hci => hne (h.distinct t' t c'' c i hc'' ht hi hci)
    refine ⟨hold, fun hci => ?_⟩
    rcases hdrawn i hci with hci | hge
    · exact hold hci
    · have := ((h.pending t' c'' hc'').fresh i hi).2.1
      omega
  refine ⟨hcalm, ?_, ?_, ?_, ?_, ?_⟩
  · intro key i hi
    rw [htrans] at hi
    exact Nat.lt_of_lt_of_le (h.numbered key i hi) hnext
  · intro p n i hi
    rw [htrans] at hi
    obtain ⟨depth, hnode⟩ := h.entered p n i hi
    refine ⟨depth, ?_⟩
    rw [hshape i fun hci => ((h.pending t c ht).fresh i hci).2.2 _ hi]
    exact hnode
  · intro t' c'' hc''
    by_cases heq : t' = t
    · subst heq
      obtain rfl : c' = c'' := by simpa using hc''
      exact hpend
    · have hc : s.calls t' = some c'' := by simpa [Function.update_of_ne heq] using hc''
      have hold := h.pending t' c'' hc
      refine ⟨hold.onTrack, ?_, ?_⟩
      · intro i hi
        obtain ⟨hge, hlt, hfree⟩ := hold.fresh i hi
        exact ⟨hge, Nat.lt_of_lt_of_le hlt hnext, by rwa [htrans]⟩
      · intro i hi
        obtain ⟨depth, hnode⟩ := hold.written i hi
        refine ⟨depth, ?_⟩
        rw [hshape i (hother t' c'' heq hc i (by rw [hi]; rfl)).1]
        exact hnode
  · intro t₁ t₂ c₁ c₂ i h₁ h₂ hi₁ hi₂
    by_cases h1 : t₁ = t
    · by_cases h2 : t₂ = t
      · rw [h1, h2]
      · subst h1
        obtain rfl : c' = c₁ := by simpa using h₁
        have hc : s.calls t₂ = some c₂ := by simpa [Function.update_of_ne h2] using h₂
        exact absurd hi₁ (hother t₂ c₂ h2 hc i hi₂).2
    · have hc₁ : s.calls t₁ = some c₁ := by simpa [Function.update_of_ne h1] using h₁
      by_cases h2 : t₂ = t
      · subst h2
        obtain rfl : c' = c₂ := by simpa using h₂
        exact absurd hi₂ (hother t₁ c₁ h1 hc₁ i hi₁).2
      · have hc₂ : s.calls t₂ = some c₂ := by simpa [Function.update_of_ne h2] using h₂
        exact h.distinct t₁ t₂ c₁ c₂ i hc₁ hc₂ hi₁ hi₂
  · intro r hr
    rw [htrans]
    exact h.returned r hr

/-- A call that begins. -/
theorem begin (h : Consed s) (p : ShapeId) (n : StringIndex) :
    Consed { s with calls := Function.update s.calls t (some ⟨p, n, .lookup⟩) } := by
  have hold : ∀ {t' c'}, Function.update s.calls t (some ⟨p, n, .lookup⟩) t' = some c' →
      s.calls t' = some c' ∨ c' = ⟨p, n, .lookup⟩ := by
    intro t' c' hc'
    by_cases heq : t' = t
    · subst heq
      exact .inr (by simpa using hc'.symm)
    · exact .inl (by simpa [Function.update_of_ne heq] using hc')
  refine ⟨h.calm, h.numbered, h.entered, ?_, ?_, h.returned⟩
  · intro t' c' hc'
    rcases hold hc' with hc' | rfl
    · exact h.pending t' c' hc'
    · exact ⟨trivial, nofun, nofun⟩
  · intro t₁ t₂ c₁ c₂ i h₁ h₂ hi₁ hi₂
    rcases hold h₁ with h₁ | rfl
    · rcases hold h₂ with h₂ | rfl
      · exact h.distinct t₁ t₂ c₁ c₂ i h₁ h₂ hi₁ hi₂
      · cases hi₂
    · cases hi₁

/-- A call that returns what a transition says. -/
theorem finish (h : Consed s) {r : Return}
    (hr : s.forge.transitions (packKey r.parent r.name) = some r.id) :
    Consed ⟨s.forge, Function.update s.calls t none, r :: s.returned⟩ := by
  have hold : ∀ {t' c'}, Function.update s.calls t none t' = some c' → s.calls t' = some c' := by
    intro t' c' hc'
    by_cases heq : t' = t
    · subst heq
      simp at hc'
    · simpa [Function.update_of_ne heq] using hc'
  refine ⟨h.calm, h.numbered, h.entered, fun t' c' hc' => h.pending t' c' (hold hc'),
    fun t₁ t₂ c₁ c₂ i h₁ h₂ => h.distinct t₁ t₂ c₁ c₂ i (hold h₁) (hold h₂), ?_⟩
  intro r' hr'
  rcases List.mem_cons.1 hr' with rfl | hr'
  · exact hr
  · exact h.returned r' hr'

/-- The transition of a call that comes first. -/
theorem enter (h : Consed s) {i : ShapeId} (ht : s.calls t = some c) (hphase : c.phase = .enter i)
    (hfree : s.forge.transitions (packKey c.parent c.name) = none) :
    Consed ⟨{ s.forge with
        transitions := Function.update s.forge.transitions (packKey c.parent c.name) (some i) },
      Function.update s.calls t none, ⟨c.parent, c.name, i⟩ :: s.returned⟩ := by
  have hpend := h.pending t c ht
  have hdrawn : c.phase.drawn = some i := by rw [hphase]; rfl
  obtain ⟨-, hlt, -⟩ := hpend.fresh i hdrawn
  have hold : ∀ {t' c'}, Function.update s.calls t none t' = some c' →
      t' ≠ t ∧ s.calls t' = some c' := by
    intro t' c' hc'
    by_cases heq : t' = t
    · subst heq
      simp at hc'
    · exact ⟨heq, by simpa [Function.update_of_ne heq] using hc'⟩
  refine ⟨⟨h.calm.low, h.calm.high, h.calm.inactive, h.calm.unpoisoned⟩, ?_, ?_, ?_, ?_, ?_⟩
  · intro key j hj
    simp only [Function.update_apply] at hj
    split at hj
    · obtain rfl : i = j := by simpa using hj
      exact hlt
    · exact h.numbered key j hj
  · intro p n j hj
    simp only [Function.update_apply, packKey_inj] at hj
    split at hj
    · next heq =>
      obtain ⟨rfl, rfl⟩ := heq
      obtain rfl : i = j := by simpa using hj
      exact hpend.written i hphase
    · exact h.entered p n j hj
  · intro t' c' hc'
    obtain ⟨hne, hc'⟩ := hold hc'
    have hp' := h.pending t' c' hc'
    refine ⟨hp'.onTrack, ?_, hp'.written⟩
    intro j hj
    obtain ⟨hge, hlt', hnot⟩ := hp'.fresh j hj
    refine ⟨hge, hlt', fun key => ?_⟩
    simp only [Function.update_apply]
    split
    · intro heq
      obtain rfl : i = j := by simpa using heq
      exact hne (h.distinct t' t c' c i hc' ht hj hdrawn)
    · exact hnot key
  · intro t₁ t₂ c₁ c₂ j h₁ h₂
    exact h.distinct t₁ t₂ c₁ c₂ j (hold h₁).2 (hold h₂).2
  · intro r hr
    have hkeep : ∀ r ∈ s.returned, Function.update s.forge.transitions
        (packKey c.parent c.name) (some i) (packKey r.parent r.name) = some r.id := by
      intro r hr
      have hr := h.returned r hr
      rw [Function.update_of_ne]
      · exact hr
      · intro heq
        rw [heq, hfree] at hr
        cases hr
    rcases List.mem_cons.1 hr with rfl | hr
    · exact Function.update_self _ _ _
    · exact hkeep r hr

/-- One access. -/
theorem access (h : Consed s) (ht : s.calls t = some c)
    (hroom : (s.continueCall t (c.step s.forge)).HasRoom) :
    Consed (s.continueCall t (c.step s.forge)) := by
  have hpend := h.pending t c ht
  obtain ⟨p, n, phase⟩ := c
  cases phase with
  | lookup =>
    cases hl : s.forge.transitions (packKey p n) with
    | some id =>
      simp only [Call.step, Call.key, hl, Threads.continueCall, Call.goTo]
      exact h.finish hl
    | none =>
      simp only [Call.step, Call.key, hl, Threads.continueCall, Call.goTo]
      exact h.advance ht h.calm rfl (Nat.le_refl _) (fun _ _ => rfl) nofun ⟨trivial, nofun, nofun⟩
  | loadActive =>
    simp only [Call.step, h.calm.inactive, Bool.false_eq_true, if_false, Threads.continueCall,
      Call.goTo]
    exact h.advance ht h.calm rfl (Nat.le_refl _) (fun _ _ => rfl) nofun ⟨trivial, nofun, nofun⟩
  | draw =>
    have hhigh : s.forge.drawId.nextId.toNat ≤ 2 ^ 24 := by
      have hsame : (s.continueCall t (Call.step s.forge ⟨p, n, .draw⟩)).forge = s.forge.drawId := by
        by_cases hlt : idLimit < s.forge.nextId
        · simp only [Call.step, if_pos hlt, Threads.continueCall, Call.goTo]
        · simp only [Call.step, if_neg hlt, Threads.continueCall, Call.goTo]
      rw [← hsame]
      exact hroom
    have hadd : s.forge.drawId.nextId.toNat = s.forge.nextId.toNat + 1 := by
      have hold := h.calm.high
      have hwrap : (s.forge.nextId + 1).toNat = (s.forge.nextId.toNat + 1) % 2 ^ 32 :=
        UInt32.toNat_add _ _
      rw [ShapeForge.drawId, hwrap]
      omega
    have hle : ¬idLimit < s.forge.nextId := by
      rw [UInt32.lt_iff_toNat_lt, show idLimit.toNat = 16777215 from rfl]
      omega
    have hlow := h.calm.low
    simp only [Call.step, if_neg hle, Threads.continueCall, Call.goTo]
    refine h.advance ht ⟨by omega, hhigh, h.calm.inactive, h.calm.unpoisoned⟩ rfl (by omega)
      (fun _ _ => rfl) ?_ ⟨trivial, ?_, nofun⟩
    · intro i hi
      obtain rfl : s.forge.nextId = i := by simpa [Phase.drawn] using hi
      exact .inr (Nat.le_refl _)
    · intro i hi
      obtain rfl : s.forge.nextId = i := by simpa [Phase.drawn] using hi
      refine ⟨hlow, by omega, fun key hkey => ?_⟩
      exact Nat.lt_irrefl _ (h.numbered key _ hkey)
  | readDepth i =>
    obtain ⟨hge, hlt, hfree⟩ := hpend.fresh i rfl
    simp only [Call.step, h.calm.unpoisoned, Bool.false_eq_true, if_false, Threads.continueCall,
      Call.goTo]
    refine h.advance ht h.calm rfl (Nat.le_refl _) (fun _ _ => rfl) (fun _ hi => .inl hi) ?_
    exact ⟨trivial, hpend.fresh, nofun⟩
  | write i depth =>
    obtain ⟨hge, hlt, hfree⟩ := hpend.fresh i rfl
    obtain ⟨shapes, hw, hself, hother⟩ :=
      s.forge.writeShape_spec ⟨i, n, some p, depth⟩ (show 1 ≤ i.toNat by omega)
    simp only [Call.step, h.calm.unpoisoned, Bool.false_eq_true, if_false, hw,
      Threads.continueCall, Call.goTo]
    refine h.advance ht ⟨h.calm.low, h.calm.high, h.calm.inactive, rfl⟩ rfl
      (Nat.le_refl _) (fun j hj => hother j fun heq => hj (by rw [heq]; rfl))
      (fun _ hi => .inl hi) ⟨trivial, hpend.fresh, ?_⟩
    intro j hj
    obtain rfl : i = j := by simpa using hj
    exact ⟨depth, hself⟩
  | enter i =>
    cases hl : s.forge.transitions (packKey p n) with
    | some id =>
      simp only [Call.step, Call.key, ShapeForge.enterTransition, hl, Threads.continueCall,
        Call.goTo]
      exact h.finish hl
    | none =>
      simp only [Call.step, Call.key, ShapeForge.enterTransition, hl, Threads.continueCall,
        Call.goTo]
      exact h.enter (c := ⟨p, n, .enter i⟩) ht rfl hl
  | readOverflow => exact hpend.onTrack.elim
  | storeActive i => exact hpend.onTrack.elim
  | enterOverflow i => exact hpend.onTrack.elim
  | returned i => exact hpend.onTrack.elim
  | panicked => exact hpend.onTrack.elim

end Consed

/-! ### Progress -/

/-- The accesses a call has left at most. -/
def Phase.left : Phase → Nat
  | .lookup => 7
  | .loadActive => 6
  | .readOverflow => 5
  | .draw => 4
  | .storeActive _ => 2
  | .enterOverflow _ => 1
  | .readDepth _ => 3
  | .write _ _ => 2
  | .enter _ => 1
  | .returned _ => 0
  | .panicked => 0

namespace Threads

variable {s : Threads} {t : Nat} {c : Call}

theorem consed_step (s : Threads) (e : Event) (h : Consed s) (hroom : (s.step e).HasRoom) :
    Consed (s.step e) := by
  cases e with
  | call t p n =>
    rw [step]
    split
    · exact h
    · exact h.begin p n
  | access t =>
    rw [step] at hroom ⊢
    split
    · next c ht =>
      rw [ht] at hroom
      exact h.access ht hroom
    · exact h

/-- There is room after every event of a run. -/
def RoomAlong (s : Threads) (events : List Event) : Prop :=
  Along step (fun s e => (s.step e).HasRoom) s events

theorem consed_run {events : List Event} (h : Consed s) (hroom : s.RoomAlong events) :
    Consed (run step s events) :=
  run_keeps_along Consed consed_step h hroom

/-- A call of a thread has returned, or it has so many accesses left at
most. -/
def Returns (t : Nat) (p : ShapeId) (n : StringIndex) (left : Nat) (s : Threads) : Prop :=
  (∃ phase, s.calls t = some ⟨p, n, phase⟩ ∧ phase.left ≤ left) ∨
    (s.calls t = none ∧ ∃ id, ⟨p, n, id⟩ ∈ s.returned)

/-- An access of the call itself. -/
theorem returns_access {p : ShapeId} {n : StringIndex} {phase : Phase}
    (ht : s.calls t = some ⟨p, n, phase⟩) (hon : phase.OnTrack) {left : Nat}
    (hle : phase.left ≤ left + 1) : Returns t p n left (s.step (.access t)) := by
  have hgo : ∀ f' phase', (∀ id, phase' ≠ .returned id) → phase'.left ≤ left →
      Returns t p n left (s.continueCall t (f', ⟨p, n, phase'⟩)) := by
    intro f' phase' hnot hle'
    refine .inl ⟨phase', ?_, hle'⟩
    unfold continueCall
    split
    · next id hid => exact absurd hid (hnot id)
    · exact Function.update_self _ _ _
  have hend : ∀ f' id, Returns t p n left (s.continueCall t (f', ⟨p, n, .returned id⟩)) :=
    fun f' id => .inr ⟨Function.update_self _ _ _, id, List.mem_cons_self⟩
  simp only [step, ht]
  cases phase with
  | lookup =>
    simp only [Phase.left] at hle
    simp only [Call.step, Call.goTo]
    split
    · exact hend _ _
    · exact hgo _ _ nofun (by simp only [Phase.left]; omega)
  | loadActive =>
    simp only [Phase.left] at hle
    simp only [Call.step, Call.goTo]
    split
    · exact hgo _ _ nofun (by simp only [Phase.left]; omega)
    · exact hgo _ _ nofun (by simp only [Phase.left]; omega)
  | draw =>
    simp only [Phase.left] at hle
    simp only [Call.step, Call.goTo]
    split
    · exact hgo _ _ nofun (by simp only [Phase.left]; omega)
    · exact hgo _ _ nofun (by simp only [Phase.left]; omega)
  | readDepth i =>
    simp only [Phase.left] at hle
    simp only [Call.step, Call.goTo]
    split
    · exact hgo _ _ nofun (Nat.zero_le _)
    · exact hgo _ _ nofun (by simp only [Phase.left]; omega)
  | write i depth =>
    simp only [Phase.left] at hle
    simp only [Call.step, Call.goTo]
    split
    · exact hgo _ _ nofun (Nat.zero_le _)
    · split
      · exact hgo _ _ nofun (Nat.zero_le _)
      · exact hgo _ _ nofun (by simp only [Phase.left]; omega)
  | enter i => exact hend _ _
  | readOverflow => exact hon.elim
  | storeActive i => exact hon.elim
  | enterOverflow i => exact hon.elim
  | returned i => exact hon.elim
  | panicked => exact hon.elim

/-- What a thread is in is its own affair, and returns are not taken back. -/
theorem returns_other {p : ShapeId} {n : StringIndex} {left : Nat} (h : Returns t p n left s)
    {e : Event} (he : ∀ q m, e ≠ .call t q m) (he' : e ≠ .access t) :
    Returns t p n left (s.step e) := by
  have hkeep : (s.step e).calls t = s.calls t ∧ ∀ r ∈ s.returned, r ∈ (s.step e).returned := by
    cases e with
    | call t' q m =>
      have hne : t ≠ t' := fun heq => he q m (by rw [heq])
      rw [step]
      split
      · exact ⟨rfl, fun _ hr => hr⟩
      · exact ⟨Function.update_of_ne hne _ _, fun _ hr => hr⟩
    | access t' =>
      have hne : t ≠ t' := fun heq => he' (by rw [heq])
      rw [step]
      split
      · rw [continueCall.eq_def]
        split
        · exact ⟨Function.update_of_ne hne _ _, fun _ hr => List.mem_cons_of_mem _ hr⟩
        · exact ⟨Function.update_of_ne hne _ _, fun _ hr => hr⟩
      · exact ⟨rfl, fun _ hr => hr⟩
  rcases h with ⟨phase, hphase, hle⟩ | ⟨hnone, id, hid⟩
  · exact .inl ⟨phase, hkeep.1.trans hphase, hle⟩
  · exact .inr ⟨hkeep.1.trans hnone, id, hkeep.2 _ hid⟩

theorem left_pos_of_onTrack {phase : Phase} (h : phase.OnTrack) : 0 < phase.left := by
  cases phase with
  | lookup | loadActive | draw => simp [Phase.left]
  | readDepth _ | write _ _ | enter _ => simp [Phase.left]
  | readOverflow | panicked => exact h.elim
  | storeActive _ | enterOverflow _ | returned _ => exact h.elim

/-- However the accesses of the others fall, a call returns when it has
made those it has left. -/
theorem returns_run {p : ShapeId} {n : StringIndex} {events : List Event} {left : Nat}
    (h : Consed s) (hroom : s.RoomAlong events) (hret : Returns t p n left s)
    (hcalls : ∀ q m, .call t q m ∉ events) (hcount : left ≤ events.count (.access t)) :
    (run step s events).calls t = none ∧ ∃ id, ⟨p, n, id⟩ ∈ (run step s events).returned := by
  induction events generalizing s left with
  | nil =>
    rcases hret with ⟨phase, hphase, hle⟩ | hdone
    · have hpos : 0 < phase.left := left_pos_of_onTrack (h.pending t _ hphase).onTrack
      simp only [List.count_nil] at hcount
      omega
    · exact hdone
  | cons e events ih =>
    obtain ⟨hroom, hrest⟩ := hroom
    have hcalls' : ∀ q m, .call t q m ∉ events :=
      fun q m hmem => hcalls q m (List.mem_cons_of_mem _ hmem)
    rw [run_cons]
    by_cases he : e = .access t
    · subst he
      rw [List.count_cons_self] at hcount
      have hret' : Returns t p n (left - 1) (s.step (.access t)) := by
        rcases hret with ⟨phase, hphase, hle⟩ | ⟨hnone, hid⟩
        · exact returns_access hphase (h.pending t _ hphase).onTrack (by omega)
        · have hsame : s.step (.access t) = s := by simp only [step, hnone]
          rw [hsame]
          exact .inr ⟨hnone, hid⟩
      exact ih (consed_step s _ h hroom) hrest hret' hcalls' (by omega)
    · rw [List.count_cons_of_ne he] at hcount
      refine ih (consed_step s e h hroom) hrest (returns_other hret ?_ he) hcalls' hcount
      exact fun q m heq => hcalls q m (heq ▸ List.mem_cons_self)

end Threads

/-- Whatever the threads do, as long as there is room: two calls return
the same number if and only if they ask for the same parent and name, the
number leads to a node with that parent and name, and a call returns when
it has made seven accesses. -/
theorem shapes_hash_consed (events : List Event) (hroom : Threads.new.RoomAlong events) :
    (∀ r ∈ (run Threads.step .new events).returned, ∀ r' ∈ (run Threads.step .new events).returned,
      r.id = r'.id ↔ r.parent = r'.parent ∧ r.name = r'.name) ∧
    (∀ r ∈ (run Threads.step .new events).returned, ∃ depth,
      (run Threads.step .new events).forge.getShape r.id
        = some (some ⟨r.id, r.name, some r.parent, depth⟩)) ∧
    (∀ t p n phase, (run Threads.step .new events).calls t = some ⟨p, n, phase⟩ → ∀ more,
      (run Threads.step .new events).RoomAlong more → (∀ q m, .call t q m ∉ more) →
      7 ≤ more.count (.access t) →
      (run Threads.step .new (events ++ more)).calls t = none ∧
        ∃ id, ⟨p, n, id⟩ ∈ (run Threads.step .new (events ++ more)).returned) := by
  have h := Threads.consed_run consed_new hroom
  generalize hs : run Threads.step .new events = s at h ⊢
  have hnode : ∀ r ∈ s.returned, ∃ depth,
      s.forge.shapeAt r.id = some ⟨r.id, r.name, some r.parent, depth⟩ :=
    fun r hr => h.entered _ _ _ (h.returned r hr)
  refine ⟨?_, ?_, ?_⟩
  · intro r hr r' hr'
    constructor
    · intro hid
      obtain ⟨depth, hn⟩ := hnode r hr
      obtain ⟨depth', hn'⟩ := hnode r' hr'
      rw [hid, hn'] at hn
      simp only [Option.some.injEq, Shape.mk.injEq, true_and] at hn
      exact ⟨hn.2.1.symm, hn.1.symm⟩
    · rintro ⟨hp, hn⟩
      have hr := h.returned r hr
      rw [hp, hn, h.returned r' hr'] at hr
      exact (Option.some.inj hr).symm
  · intro r hr
    obtain ⟨depth, hn⟩ := hnode r hr
    exact ⟨depth, by rw [ShapeForge.getShape, h.calm.unpoisoned, if_neg (by decide), hn]⟩
  · intro t p n phase hphase more hmore hcalls hcount
    rw [run_append, hs]
    refine Threads.returns_run h hmore (.inl ⟨phase, hphase, ?_⟩) hcalls hcount
    cases phase with
    | lookup | loadActive | readOverflow | draw | panicked => simp [Phase.left]
    | storeActive _ | enterOverflow _ | readDepth _ | enter _ | returned _ => simp [Phase.left]
    | write _ _ => simp [Phase.left]

/-- Two threads that draw a number each for the same pair. -/
def race : List Event :=
  [.call 0 1 7, .call 1 1 7, .access 0, .access 1, .access 0, .access 1, .access 0, .access 1,
    .access 1, .access 1, .access 1, .access 0, .access 0, .access 0]

theorem shapes_hash_consed_race :
    (run Threads.step .new race).returned = [⟨1, 7, 3⟩, ⟨1, 7, 3⟩] ∧
      ∃ depth,
        (run Threads.step .new race).forge.getShape 3 = some (some ⟨3, 7, some 1, depth⟩) := by
  have hret : (run Threads.step .new race).returned = [⟨1, 7, 3⟩, ⟨1, 7, 3⟩] := by decide +kernel
  refine ⟨hret, (shapes_hash_consed race ?_).2.1 ⟨1, 7, 3⟩ (by simp [hret])⟩
  simp only [Threads.RoomAlong, race, Along, Threads.HasRoom]
  decide +kernel

end OxideJS.Kernel
