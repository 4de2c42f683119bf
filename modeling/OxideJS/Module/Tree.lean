import OxideJS.Bytecode.Encoding
import Mathlib.Algebra.BigOperators.Group.List.Basic
import Mathlib.Algebra.GroupWithZero.Nat

/-!
Compiled functions and the tree they form.

A compiled function carries its byte code, the compiled functions nested
in it, the flag that marks an asynchronous body and the identifier the
numbering pass gives it. Everything else the record holds (constants,
register counts, names, captures) no pass of this part looks at, and it
travels along as one component of arbitrary type.

A function of the tree is named by its path: the positions, from the
root, of the nested functions that lead to it.
-/

namespace OxideJS

/-- A compiled function with those nested in it. -/
structure CompiledModule (α : Type) where
  bytecode : List Instr := []
  subModules : List (CompiledModule α) := []
  isAsync : Bool := false
  flatId : Nat := 0
  rest : α

namespace CompiledModule

variable {α : Type}

/-- What holds of a function when it holds of those nested in it holds of
every function. -/
@[elab_as_elim]
theorem tree_induction {motive : CompiledModule α → Prop}
    (node : ∀ m : CompiledModule α, (∀ s ∈ m.subModules, motive s) → motive m)
    (m : CompiledModule α) : motive m :=
  node m fun s hs => by
    have : sizeOf s < sizeOf m := by
      have h := List.sizeOf_lt_of_mem hs
      cases m
      simp only [mk.sizeOf_spec] at h ⊢
      omega
    exact tree_induction node s
termination_by sizeOf m

mutual

/-- The functions of a tree, each before those nested in it. -/
def modules : CompiledModule α → List (CompiledModule α)
  | ⟨code, subs, async, id, rest⟩ => ⟨code, subs, async, id, rest⟩ :: modulesAll subs

def modulesAll : List (CompiledModule α) → List (CompiledModule α)
  | [] => []
  | sub :: subs => modules sub ++ modulesAll subs

end

theorem modules_eq (m : CompiledModule α) : m.modules = m :: modulesAll m.subModules := by
  cases m
  rw [modules]

@[simp] theorem modulesAll_nil : modulesAll ([] : List (CompiledModule α)) = [] := by
  rw [modulesAll]

@[simp] theorem modulesAll_cons (s : CompiledModule α) (subs : List (CompiledModule α)) :
    modulesAll (s :: subs) = s.modules ++ modulesAll subs := by
  rw [modulesAll]

@[simp] theorem modulesAll_append (xs ys : List (CompiledModule α)) :
    modulesAll (xs ++ ys) = modulesAll xs ++ modulesAll ys := by
  induction xs with
  | nil => simp
  | cons x xs ih => simp [ih]

theorem mem_modulesAll {s : CompiledModule α} {subs : List (CompiledModule α)} :
    s ∈ modulesAll subs ↔ ∃ t ∈ subs, s ∈ t.modules := by
  induction subs with
  | nil => simp
  | cons t ts ih => simp [ih]

theorem self_mem_modules (m : CompiledModule α) : m ∈ m.modules := by
  rw [modules_eq]
  exact List.mem_cons_self

/-- A walk that visits a function before those nested in it folds over the
functions of the tree. -/
theorem walk_eq_foldl {β : Type*} {visit : β → CompiledModule α → β}
    {walk : CompiledModule α → β → β} {walkAll : List (CompiledModule α) → β → β}
    (hwalk : ∀ m out, walk m out = walkAll m.subModules (visit out m))
    (hnil : ∀ out, walkAll [] out = out)
    (hcons : ∀ s subs out, walkAll (s :: subs) out = walkAll subs (walk s out))
    (m : CompiledModule α) (out : β) : walk m out = m.modules.foldl visit out := by
  induction m using tree_induction generalizing out with
  | node m ih =>
    have hall : ∀ (subs : List (CompiledModule α)) (out : β), (∀ s ∈ subs, s ∈ m.subModules) →
        walkAll subs out = (modulesAll subs).foldl visit out := by
      intro subs
      induction subs with
      | nil =>
        intro out _
        rw [hnil, modulesAll_nil, List.foldl_nil]
      | cons s subs ihs =>
        intro out hsub
        rw [hcons, ih s (hsub s List.mem_cons_self),
          ihs _ fun t ht => hsub t (List.mem_cons_of_mem s ht), modulesAll_cons,
          List.foldl_append]
    rw [hwalk, modules_eq, List.foldl_cons, hall m.subModules _ fun s hs => hs]

/-- The number of functions nested in a function, at any depth. -/
def nested (m : CompiledModule α) : Nat := (modulesAll m.subModules).length

/-- The number of functions nested in those of a list. -/
def nestedAll (subs : List (CompiledModule α)) : Nat := (subs.map nested).sum

@[simp] theorem nestedAll_nil : nestedAll ([] : List (CompiledModule α)) = 0 := rfl

@[simp] theorem nestedAll_cons (s : CompiledModule α) (subs : List (CompiledModule α)) :
    nestedAll (s :: subs) = s.nested + nestedAll subs := by
  simp [nestedAll]

theorem length_modules (m : CompiledModule α) : m.modules.length = m.nested + 1 := by
  rw [modules_eq]
  rfl

theorem length_modulesAll (subs : List (CompiledModule α)) :
    (modulesAll subs).length = subs.length + nestedAll subs := by
  induction subs with
  | nil => rfl
  | cons s subs ih =>
    simp only [modulesAll_cons, List.length_append, length_modules, ih, List.length_cons,
      nestedAll_cons]
    omega

theorem nested_eq (m : CompiledModule α) :
    m.nested = m.subModules.length + nestedAll m.subModules :=
  length_modulesAll m.subModules

/-! ### Paths -/

/-- The function a path leads to. -/
def at? (m : CompiledModule α) : List Nat → Option (CompiledModule α)
  | [] => some m
  | k :: p => m.subModules[k]?.bind fun s => s.at? p

@[simp] theorem at?_nil (m : CompiledModule α) : m.at? [] = some m := rfl

theorem at?_cons (m : CompiledModule α) (k : Nat) (p : List Nat) :
    m.at? (k :: p) = m.subModules[k]?.bind fun s => s.at? p := rfl

theorem at?_append (m : CompiledModule α) (p q : List Nat) :
    m.at? (p ++ q) = (m.at? p).bind fun s => s.at? q := by
  induction p generalizing m with
  | nil => rfl
  | cons k p ih =>
    simp only [List.cons_append, at?_cons, Option.bind_assoc]
    congr 1
    funext s
    exact ih s

theorem at?_singleton (m : CompiledModule α) (k : Nat) : m.at? [k] = m.subModules[k]? := by
  rw [at?_cons]
  cases m.subModules[k]? <;> rfl

theorem mem_modules_of_at? {m s : CompiledModule α} {p : List Nat} (h : m.at? p = some s) :
    s ∈ m.modules := by
  induction p generalizing m with
  | nil =>
    obtain rfl := Option.some.inj h
    exact self_mem_modules m
  | cons k p ih =>
    rw [at?_cons, Option.bind_eq_some_iff] at h
    obtain ⟨t, ht, hs⟩ := h
    rw [modules_eq]
    exact List.mem_cons_of_mem _ (mem_modulesAll.mpr ⟨t, List.mem_of_getElem? ht, ih hs⟩)

theorem exists_at?_of_mem_modules {m s : CompiledModule α} (h : s ∈ m.modules) :
    ∃ p, m.at? p = some s := by
  induction m using tree_induction with
  | node m ih =>
    rw [modules_eq, List.mem_cons, mem_modulesAll] at h
    rcases h with rfl | ⟨t, ht, hs⟩
    · exact ⟨[], rfl⟩
    · obtain ⟨p, hp⟩ := ih t ht hs
      obtain ⟨k, hk⟩ := List.mem_iff_getElem?.mp ht
      refine ⟨k :: p, ?_⟩
      rw [at?_cons, hk]
      exact hp

end CompiledModule

end OxideJS
