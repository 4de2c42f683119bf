import Mathlib.Algebra.GroupWithZero.Nat
import Mathlib.Algebra.Order.Group.Nat

/-!
Which module the machine believes to be running.

`activeFlatId` and `activeTableGen` name the module whose literals,
templates and builtin slots an instruction uses. A call pushes them on two
stacks beside the caller's bytecode, and a return pops them. Native code
that runs JavaScript of its own (a callback, a generator, an async body)
first moves the execution state aside with `saveInlineState` and brings it
back with `restoreInlineState`; suspending a generator or an async body
takes its frame away with `saveFrom`, and resuming it puts the frame back
with `restoreInto`.

The two stacks of module ids are not part of the state that is moved, and
`saveFrom` pops a frame without popping them. The run theorem at the end
says exactly which runs survive this.
-/

namespace OxideJS.Vm.ActiveModule

/-- A compiled module: its index in a flat table and the generation of the
table. -/
structure Module where
  flatId : Nat
  tableGen : Nat
  deriving DecidableEq

/-- The part of the execution state that `saveInlineState` moves aside.
The empty bytecode belongs to no module. -/
structure Level where
  bytecode : Option Module
  activeFlatId : Nat
  activeTableGen : Nat
  frames : Nat
  savedBytecodeStack : List (Option Module)
  deriving DecidableEq

/-- A state moved aside, with the function whose generator or async body
runs in its place, if it is one. -/
structure Saved where
  level : Level
  owner : Option Module
  deriving DecidableEq

structure SuspendedFrame where
  bytecode : Option Module
  savedBytecodeStack : List (Option Module)
  callee : Module
  deriving DecidableEq

structure Config where
  level : Level
  savedFlatIdStack : List Nat
  savedTableGenStack : List Nat
  outer : List Saved
  suspended : List SuspendedFrame
  deriving DecidableEq

/-! ### The operations of the machine -/

def pushBytecodeFrame (c : Config) (callee : Module) : Config :=
  { c with
    level :=
      { bytecode := some callee
        activeFlatId := callee.flatId
        activeTableGen := callee.tableGen
        frames := c.level.frames + 1
        savedBytecodeStack := c.level.bytecode :: c.level.savedBytecodeStack }
    savedFlatIdStack := c.level.activeFlatId :: c.savedFlatIdStack
    savedTableGenStack := c.level.activeTableGen :: c.savedTableGenStack }

/-- A frame is popped and its caller restored. An empty stack leaves its
field as it is. -/
def restoreFrame (c : Config) : Config :=
  { c with
    level :=
      { bytecode := c.level.savedBytecodeStack.headD c.level.bytecode
        activeFlatId := c.savedFlatIdStack.headD c.level.activeFlatId
        activeTableGen := c.savedTableGenStack.headD c.level.activeTableGen
        frames := c.level.frames - 1
        savedBytecodeStack := c.level.savedBytecodeStack.tail }
    savedFlatIdStack := c.savedFlatIdStack.tail
    savedTableGenStack := c.savedTableGenStack.tail }

def popFrames : Nat → Config → Config
  | 0, c => c
  | n + 1, c => popFrames n (restoreFrame c)

/-- Frames and bytecode are taken away; the active ids are only copied. -/
def saveInlineState (c : Config) (owner : Option Module) : Config :=
  { c with
    level := { c.level with bytecode := none, frames := 0, savedBytecodeStack := [] }
    outer := ⟨c.level, owner⟩ :: c.outer }

def restoreInlineState (c : Config) : Config :=
  match c.outer with
  | [] => c
  | saved :: rest => { c with level := saved.level, outer := rest }

/-- A bytecode function called from native code runs without a frame. -/
def callBytecodeFunctionInline (c : Config) (callee : Module) : Config :=
  let c := saveInlineState c none
  { c with
    level := { c.level with
      bytecode := some callee
      activeFlatId := callee.flatId
      activeTableGen := callee.tableGen } }

/-- A generator or an async function starts with a frame on an empty
level. -/
def prepareExecutionInitial (c : Config) (callee : Module) : Config :=
  pushBytecodeFrame (saveInlineState c (some callee)) callee

/-- So does a constructor called from native code, which cannot suspend. -/
def constructBytecode (c : Config) (callee : Module) : Config :=
  pushBytecodeFrame (saveInlineState c none) callee

/-- The frame and the bytecode move into the suspended state. -/
def saveFrom (c : Config) (callee : Module) : Config :=
  { c with
    level := { c.level with
      bytecode := none
      frames := c.level.frames - 1
      savedBytecodeStack := [] }
    suspended := ⟨c.level.bytecode, c.level.savedBytecodeStack, callee⟩ :: c.suspended }

def restoreInto (c : Config) (s : SuspendedFrame) : Config :=
  { c with
    level :=
      { bytecode := s.bytecode
        activeFlatId := s.callee.flatId
        activeTableGen := s.callee.tableGen
        frames := 1
        savedBytecodeStack := s.savedBytecodeStack } }

/-! ### Runs -/

/-- What may happen between two instructions, as far as modules go. -/
inductive Action where
  | call (callee : Module)
  | ret
  /-- An exception unwinds to a handler at frame depth `depth`, or to
  depth zero if there is none. -/
  | throwTo (depth : Nat)
  | inlineCall (callee : Module)
  /-- A generator or async function is called. -/
  | start (callee : Module)
  | construct (callee : Module)
  /-- Control returns to the native code that owns the running body: the
  body is over, or it failed and the failure is passed up. -/
  | leave
  | suspend
  | resume (index : Nat)

def step (c : Config) : Action → Option Config
  | .call callee => some (pushBytecodeFrame c callee)
  | .ret => if 0 < c.level.frames then some (restoreFrame c) else none
  | .throwTo depth =>
    if depth ≤ c.level.frames then some (popFrames (c.level.frames - depth) c) else none
  | .inlineCall callee => some (callBytecodeFunctionInline c callee)
  | .start callee => some (prepareExecutionInitial c callee)
  | .construct callee => some (constructBytecode c callee)
  | .leave => if c.outer = [] then none else some (restoreInlineState c)
  | .suspend =>
    match c.outer with
    | ⟨_, some callee⟩ :: _ =>
      if 0 < c.level.frames then some (restoreInlineState (saveFrom c callee)) else none
    | _ => none
  | .resume index =>
    match c.suspended[index]? with
    | some s =>
      some (restoreInto
        { saveInlineState c (some s.callee) with suspended := c.suspended.eraseIdx index } s)
    | none => none

/-- The state in which `run` enters the top-level code of the module table
`gen`. -/
def Config.start (gen : Nat) : Config where
  level := ⟨some ⟨0, gen⟩, 0, gen, 0, []⟩
  savedFlatIdStack := []
  savedTableGenStack := []
  outer := []
  suspended := []

/-! ### What should hold -/

def Level.active (l : Level) : Module := ⟨l.activeFlatId, l.activeTableGen⟩

/-- The active ids name the module whose bytecode runs. -/
def Level.Named (l : Level) : Prop := ∀ k, l.bytecode = some k → l.active = k

/-- The modules the frames of a level return to, innermost first. A frame
started by native code returns to the module that called the native
code. -/
def Level.callers (l : Level) (outside : Module) : List Module :=
  l.savedBytecodeStack.map (·.getD outside)

/-- The module that called the native code a level belongs to. The level
of the top-level code has none; it has no frame started by native code
either. -/
def outside : List Saved → Module
  | [] => ⟨0, 0⟩
  | saved :: _ => saved.level.active

def callersOf (l : Level) : List Saved → List Module
  | [] => l.callers (outside [])
  | saved :: rest => l.callers (outside (saved :: rest)) ++ callersOf saved.level rest

/-- The number of frames pushed and not yet left. -/
def frameCount (c : Config) : Nat := c.level.frames + (c.outer.map (·.level.frames)).sum

/-- The running code is named by the active ids, and the two stacks have
one entry for each frame, the module of its caller. -/
structure InSync (c : Config) : Prop where
  named : c.level.Named
  flat : c.savedFlatIdStack = (callersOf c.level c.outer).map Module.flatId
  gen : c.savedTableGenStack = (callersOf c.level c.outer).map Module.tableGen
  flat_length : c.savedFlatIdStack.length = frameCount c
  gen_length : c.savedTableGenStack.length = frameCount c

/-- A step that keeps the stacks in step with the frames: no suspension,
no resumption, and no body left with frames of its own. -/
def Clean (c : Config) : Action → Prop
  | .suspend => False
  | .resume _ => False
  | .leave => c.level.frames = 0
  | _ => True

/-- Every state along the run is in sync. -/
def AlwaysInSync (c : Config) : List Action → Prop
  | [] => InSync c
  | a :: as => InSync c ∧ ∀ c', step c a = some c' → AlwaysInSync c' as

def CleanRun (c : Config) : List Action → Prop
  | [] => True
  | a :: as => ∀ c', step c a = some c' → Clean c a ∧ CleanRun c' as

/-! ### The invariant -/

/-- The active ids name the running module, or the one outside if no
bytecode is loaded, and every frame has saved the bytecode of its
caller. -/
structure Level.Ok (l : Level) (outside : Module) : Prop where
  active : l.bytecode.getD outside = l.active
  frames : l.frames = l.savedBytecodeStack.length

def LevelsOk (l : Level) : List Saved → Prop
  | [] => l.Ok (outside [])
  | saved :: rest => l.Ok (outside (saved :: rest)) ∧ LevelsOk saved.level rest

structure Inv (c : Config) : Prop where
  levels : LevelsOk c.level c.outer
  flat : c.savedFlatIdStack = (callersOf c.level c.outer).map Module.flatId
  gen : c.savedTableGenStack = (callersOf c.level c.outer).map Module.tableGen
  suspended : c.suspended = []

theorem LevelsOk.head {l : Level} {outer : List Saved} (h : LevelsOk l outer) :
    l.Ok (outside outer) := by
  cases outer with
  | nil => exact h
  | cons saved rest => exact h.1

/-- The frames of the outer levels do not depend on the running one. -/
theorem LevelsOk.replace {l l' : Level} {outer : List Saved} (h : LevelsOk l outer)
    (h' : l'.Ok (outside outer)) : LevelsOk l' outer := by
  cases outer with
  | nil => exact h'
  | cons saved rest => exact ⟨h', h.2⟩

def outerCallers : List Saved → List Module
  | [] => []
  | saved :: rest => callersOf saved.level rest

theorem callersOf_eq (l : Level) (outer : List Saved) :
    callersOf l outer = l.callers (outside outer) ++ outerCallers outer := by
  cases outer with
  | nil => exact (List.append_nil _).symm
  | cons saved rest => rfl

theorem length_callersOf {l : Level} {outer : List Saved} (h : LevelsOk l outer) :
    (callersOf l outer).length = l.frames + (outer.map (·.level.frames)).sum := by
  induction outer generalizing l with
  | nil =>
    rw [h.head.frames]
    simp [callersOf, Level.callers]
  | cons saved rest ih =>
    rw [callersOf, List.length_append, ih h.2, h.1.frames]
    simp [Level.callers]

theorem Inv.inSync {c : Config} (h : Inv c) : InSync c where
  named k hk := by
    have hactive := h.levels.head.active
    rw [hk] at hactive
    exact hactive.symm
  flat := h.flat
  gen := h.gen
  flat_length := by rw [h.flat, List.length_map, length_callersOf h.levels, frameCount]
  gen_length := by rw [h.gen, List.length_map, length_callersOf h.levels, frameCount]

theorem inv_start (gen : Nat) : Inv (.start gen) where
  levels := ⟨rfl, rfl⟩
  flat := rfl
  gen := rfl
  suspended := rfl

/-! ### Clean steps keep the invariant -/

theorem Inv.pushBytecodeFrame {c : Config} (h : Inv c) (callee : Module) :
    Inv (pushBytecodeFrame c callee) where
  levels := h.levels.replace ⟨rfl, by simp [ActiveModule.pushBytecodeFrame, h.levels.head.frames]⟩
  flat := by
    have hflat := h.flat
    rw [callersOf_eq] at hflat ⊢
    simp only [ActiveModule.pushBytecodeFrame, Level.callers, List.map_cons, List.cons_append,
      h.levels.head.active, Level.active, hflat]
  gen := by
    have hgen := h.gen
    rw [callersOf_eq] at hgen ⊢
    simp only [ActiveModule.pushBytecodeFrame, Level.callers, List.map_cons, List.cons_append,
      h.levels.head.active, Level.active, hgen]
  suspended := h.suspended

theorem Inv.restoreFrame {c : Config} (h : Inv c) (hpos : 0 < c.level.frames) :
    Inv (restoreFrame c) := by
  have hframes := h.levels.head.frames
  cases hsaved : c.level.savedBytecodeStack with
  | nil =>
    rw [hsaved] at hframes
    exact absurd hframes (by simp; omega)
  | cons top rest =>
    have hflat := h.flat
    have hgen := h.gen
    rw [callersOf_eq] at hflat hgen
    simp only [Level.callers, hsaved, List.map_cons, List.cons_append] at hflat hgen
    refine ⟨h.levels.replace ⟨?_, ?_⟩, ?_, ?_, h.suspended⟩
    · simp [ActiveModule.restoreFrame, Level.active, hsaved, hflat, hgen]
    · rw [hsaved] at hframes
      simp [ActiveModule.restoreFrame, hsaved, hframes]
    · rw [callersOf_eq]
      simp [ActiveModule.restoreFrame, Level.callers, hsaved, hflat]
    · rw [callersOf_eq]
      simp [ActiveModule.restoreFrame, Level.callers, hsaved, hgen]

theorem Inv.popFrames {c : Config} (h : Inv c) {n : Nat} (hn : n ≤ c.level.frames) :
    Inv (popFrames n c) := by
  induction n generalizing c with
  | zero => exact h
  | succ n ih =>
    refine ih (h.restoreFrame (by omega)) ?_
    change n ≤ c.level.frames - 1
    omega

theorem Inv.saveInlineState {c : Config} (h : Inv c) (owner : Option Module) :
    Inv (saveInlineState c owner) where
  levels := ⟨⟨rfl, rfl⟩, h.levels⟩
  flat := h.flat
  gen := h.gen
  suspended := h.suspended

theorem Inv.callBytecodeFunctionInline {c : Config} (h : Inv c) (callee : Module) :
    Inv (callBytecodeFunctionInline c callee) where
  levels := ⟨⟨rfl, rfl⟩, h.levels⟩
  flat := h.flat
  gen := h.gen
  suspended := h.suspended

theorem Inv.restoreInlineState {c : Config} (h : Inv c) (hzero : c.level.frames = 0) :
    Inv (restoreInlineState c) := by
  obtain ⟨level, flat, gen, outer, suspended⟩ := c
  cases outer with
  | nil => exact h
  | cons saved rest =>
    have hnil : level.savedBytecodeStack = [] := by
      have hframes := h.levels.head.frames
      rw [hzero] at hframes
      exact List.length_eq_zero_iff.1 hframes.symm
    have hcallers : callersOf level (saved :: rest) = callersOf saved.level rest := by
      simp [callersOf, Level.callers, hnil]
    have hflat := h.flat
    have hgen := h.gen
    rw [hcallers] at hflat hgen
    exact ⟨h.levels.2, hflat, hgen, h.suspended⟩

/-- Clean steps keep the invariant. -/
theorem step_clean {c c' : Config} {a : Action} (h : Inv c) (hclean : Clean c a)
    (hstep : step c a = some c') : Inv c' := by
  cases a with
  | call callee =>
    cases hstep
    exact h.pushBytecodeFrame callee
  | ret =>
    simp only [step, Option.ite_none_right_eq_some, Option.some.injEq] at hstep
    obtain ⟨hpos, rfl⟩ := hstep
    exact h.restoreFrame hpos
  | throwTo depth =>
    simp only [step, Option.ite_none_right_eq_some, Option.some.injEq] at hstep
    obtain ⟨_, rfl⟩ := hstep
    exact h.popFrames (Nat.sub_le _ _)
  | inlineCall callee =>
    cases hstep
    exact h.callBytecodeFunctionInline callee
  | start callee =>
    cases hstep
    exact (h.saveInlineState (some callee)).pushBytecodeFrame callee
  | construct callee =>
    cases hstep
    exact (h.saveInlineState none).pushBytecodeFrame callee
  | leave =>
    simp only [step, Option.ite_none_left_eq_some, Option.some.injEq] at hstep
    obtain ⟨_, rfl⟩ := hstep
    exact h.restoreInlineState hclean
  | suspend => exact hclean.elim
  | resume index => exact hclean.elim

/-! ### Other steps break it -/

/-- A level that is given up with frames leaves their entries behind. -/
theorem not_inSync_of_dropped {c c' : Config} {saved : Saved} {rest : List Saved} (h : Inv c)
    (hpos : 0 < c.level.frames) (houter : c.outer = saved :: rest)
    (hlevel : c'.level = saved.level) (houter' : c'.outer = rest)
    (hstack : c'.savedFlatIdStack = c.savedFlatIdStack) : ¬ InSync c' := by
  intro hsync
  have hbefore := h.inSync.flat_length
  have hafter := hsync.flat_length
  rw [hstack] at hafter
  rw [frameCount, houter] at hbefore
  rw [frameCount, hlevel, houter'] at hafter
  simp only [List.map_cons, List.sum_cons] at hbefore
  omega

theorem step_not_clean {c c' : Config} {a : Action} (h : Inv c) (hclean : ¬ Clean c a)
    (hstep : step c a = some c') : ¬ InSync c' := by
  cases a with
  | call callee => exact absurd trivial hclean
  | ret => exact absurd trivial hclean
  | throwTo depth => exact absurd trivial hclean
  | inlineCall callee => exact absurd trivial hclean
  | start callee => exact absurd trivial hclean
  | construct callee => exact absurd trivial hclean
  | leave =>
    simp only [step, Option.ite_none_left_eq_some, Option.some.injEq] at hstep
    obtain ⟨hne, rfl⟩ := hstep
    obtain ⟨saved, rest, houter⟩ := List.exists_cons_of_ne_nil hne
    refine not_inSync_of_dropped h (Nat.pos_of_ne_zero hclean) houter ?_ ?_ ?_ <;>
      simp [restoreInlineState, houter]
  | suspend =>
    simp only [step] at hstep
    split at hstep
    case h_1 saved callee rest houter =>
      rw [Option.ite_none_right_eq_some] at hstep
      obtain ⟨hpos, hstep⟩ := hstep
      cases hstep
      refine not_inSync_of_dropped h hpos houter ?_ ?_ ?_ <;>
        simp [restoreInlineState, saveFrom, houter]
    case h_2 => cases hstep
  | resume index =>
    simp only [step, h.suspended, List.getElem?_nil] at hstep
    cases hstep

/-- From the start of the top-level code, the active ids name the running
module and the stacks match the frames all along a run exactly when no
body is suspended or resumed in it and no body is left with frames of its
own. -/
theorem alwaysInSync_iff_cleanRun (gen : Nat) (actions : List Action) :
    AlwaysInSync (.start gen) actions ↔ CleanRun (.start gen) actions := by
  suffices h : ∀ c, Inv c → (AlwaysInSync c actions ↔ CleanRun c actions) from
    h _ (inv_start gen)
  induction actions with
  | nil => exact fun c hc => ⟨fun _ => trivial, fun _ => hc.inSync⟩
  | cons a as ih =>
    intro c hc
    constructor
    · intro hsync c' hstep
      have hrest := hsync.2 c' hstep
      have hnow : InSync c' := by
        cases as with
        | nil => exact hrest
        | cons b bs => exact hrest.1
      have hclean : Clean c a := by
        by_contra hnot
        exact step_not_clean hc hnot hstep hnow
      exact ⟨hclean, (ih c' (step_clean hc hclean hstep)).1 hrest⟩
    · intro hrun
      refine ⟨hc.inSync, fun c' hstep => ?_⟩
      obtain ⟨hclean, hrest⟩ := hrun c' hstep
      exact (ih c' (step_clean hc hclean hstep)).2 hrest

/-! ### A run that goes wrong -/

def run (c : Config) : List Action → Option Config
  | [] => some c
  | a :: as => (step c a).bind fun c' => run c' as

/-- The top-level code calls function 1, which creates a generator with
body 2 and returns. -/
def generatorInCallee : List Action := [.call ⟨1, 7⟩, .start ⟨2, 7⟩, .suspend, .ret]

/-- The top-level code, module 0, goes on under the name of function 1. -/
theorem generatorInCallee_misnames :
    ¬ AlwaysInSync (.start 7) generatorInCallee ∧
      ∃ c, run (.start 7) generatorInCallee = some c ∧
        c.level.bytecode = some ⟨0, 7⟩ ∧ c.level.active = ⟨1, 7⟩ ∧
        frameCount c = 0 ∧ c.savedFlatIdStack = [0] := by
  refine ⟨fun hsync => ?_, _, rfl, rfl, rfl, rfl, rfl⟩
  have hlast : InSync _ := ((hsync.2 _ rfl).2 _ rfl).2 _ rfl |>.2 _ rfl
  exact absurd hlast.flat_length (by decide)

end OxideJS.Vm.ActiveModule
