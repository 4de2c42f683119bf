import OxideJS.Module.Flatten

/-!
Functions compiled at run time.

A program that builds a function or a script from text compiles it while
it runs, and the numbered tree the compiler returns is appended to the
table of the running program. The tree is walked each function before
those nested in it, every function is copied with its number and the
indices of its closure instructions moved by the same amount, and the
copies go to the end of the table in the order of the walk.

The order of the walk is not the order of the numbering, which takes the
functions nested directly in a function together. `keepsChildren_iff`
says for which trees the two agree.
-/

namespace OxideJS.CompiledModule

variable {α : Type}

/-! ### Appending a tree -/

/-- The new index of a closure instruction, in 32-bit arithmetic. -/
def rehomeWord (base : Nat) (w : Instr) : Instr :=
  if w.opcode = .createClosure then
    withIndex w ((base + (w.imm16 + (2 ^ 32 - 1))) % 2 ^ 32)
  else w

/-- The copy of one function. -/
def rehome (base : Nat) (m : CompiledModule α) : CompiledModule α :=
  { m with
    bytecode := m.bytecode.map (rehomeWord base)
    flatId := base + m.flatId - 1 }

mutual

/-- Copy a function and everything nested in it to the end of a list. -/
def rehomeSubtree (base : Nat) : CompiledModule α → List (CompiledModule α) →
    List (CompiledModule α)
  | ⟨code, subs, async, id, rest⟩, out =>
    rehomeAll base subs (out ++ [rehome base ⟨code, subs, async, id, rest⟩])

def rehomeAll (base : Nat) : List (CompiledModule α) → List (CompiledModule α) →
    List (CompiledModule α)
  | [], out => out
  | sub :: subs, out => rehomeAll base subs (rehomeSubtree base sub out)

end

theorem rehomeSubtree_eq (base : Nat) (m : CompiledModule α) :
    rehomeSubtree base m [] = m.modules.map (rehome base) := by
  have hfold : rehomeSubtree base m [] =
      m.modules.foldl (fun out m => out ++ [rehome base m]) [] := by
    refine @walk_eq_foldl _ _ _ (rehomeSubtree base) (rehomeAll base) ?_ ?_ ?_ m []
    · intro m out
      cases m
      rw [rehomeSubtree]
    · intro out
      rw [rehomeAll]
    · intro s subs out
      rw [rehomeAll]
  rw [hfold, List.foldl_append_eq_append, List.nil_append]
  exact List.map_eq_flatMap.symm

variable [Inhabited α]

/-- A table that is still empty gets an entry at zero, which no function
object may refer to. -/
def reserved (table : List (CompiledModule α)) : List (CompiledModule α) :=
  if table.isEmpty then [empty] else table

/-- The table after a script compiled at run time. -/
def createDynamicScript (table : List (CompiledModule α)) (module : CompiledModule α) :
    List (CompiledModule α) :=
  let table := reserved table
  let base := table.length
  table ++ rehomeSubtree (base + 1) module []

/-- The table after a function compiled at run time: the text is wrapped
into a script, and the first function nested in that script is the one
appended. -/
def createDynamicFunction (table : List (CompiledModule α)) (module : CompiledModule α) :
    Option (List (CompiledModule α)) :=
  module.subModules.head?.map fun anonymous =>
    let table := reserved table
    let base := table.length
    table ++ rehomeSubtree base anonymous []

/-! ### What appending should keep -/

/-- Each entry of a table is the function with that number. -/
def Installed (table : List (CompiledModule α)) : Prop :=
  ∀ (i : Nat) (m : CompiledModule α), table[i]? = some m → m.flatId = i

/-- Appending a tree to a table, copied with `base`, keeps the table in
order, its old entries as they were, and each closure instruction of the
tree, in its copy, at the copy of the nested function it named. -/
structure KeepsChildren (table table' : List (CompiledModule α)) (base : Nat)
    (tree : CompiledModule α) : Prop where
  installed : Installed table'
  old : ∀ i < table.length, table'[i]? = table[i]?
  closures : ∀ m ∈ tree.modules, ∀ f ∈ decode m.bytecode, f.1.opcode = .createClosure →
    ∀ c ∈ m.subModules, c.flatId = f.1.imm16 →
      table'[(rehomeWord base f.1).imm16]? = some (rehome base c)

/-- In every function of a tree, only the last of the functions nested
directly in it has functions nested in it. -/
def LastOnly (m : CompiledModule α) : Prop :=
  ∀ s ∈ m.modules, ∀ c ∈ s.subModules.dropLast, c.subModules = []

/-- Every closure instruction of the tree that names a nested function has
room for its index when it moves on by `n`. -/
def RoomFor (n : Nat) (tree : CompiledModule α) : Prop :=
  ∀ m ∈ tree.modules, ∀ f ∈ decode m.bytecode, f.1.opcode = .createClosure →
    ∀ c ∈ m.subModules, c.flatId = f.1.imm16 → n + f.1.imm16 < 2 ^ 16

/-! ### When the walk and the numbering agree -/

omit [Inhabited α] in
theorem nested_eq_zero_iff {m : CompiledModule α} : m.nested = 0 ↔ m.subModules = [] := by
  rw [nested_eq]
  constructor
  · intro h
    exact List.length_eq_zero_iff.mp (by omega)
  · intro h
    rw [h]
    rfl

omit [Inhabited α] in
theorem lastOnly_iff {m : CompiledModule α} :
    m.LastOnly ↔ (∀ c ∈ m.subModules.dropLast, c.subModules = []) ∧
      ∀ s ∈ m.subModules, s.LastOnly := by
  simp only [LastOnly, modules_eq m, List.mem_cons, mem_modulesAll]
  constructor
  · intro h
    exact ⟨h m (Or.inl rfl), fun s hs x hx => h x (Or.inr ⟨s, hs, hx⟩)⟩
  · rintro ⟨hm, hsub⟩ x (rfl | ⟨s, hs, hx⟩)
    · exact hm
    · exact hsub s hs x hx

omit [Inhabited α] in
theorem lastOnly_of_nested_eq_zero {m : CompiledModule α} (h : m.nested = 0) : m.LastOnly := by
  rw [lastOnly_iff, nested_eq_zero_iff.mp h]
  simp

omit [Inhabited α] in
/-- The walk goes from a function to the first one nested in it, which has
the first of the numbers that were left. -/
theorem map_flatId_assignIds_one {m : CompiledModule α} (h : m.nested ≠ 0) (id next : Nat) :
    ((assignIds false id m next).1.modules.map flatId)[1]? = some next := by
  obtain ⟨c, cs, hc⟩ := List.exists_cons_of_ne_nil (mt nested_eq_zero_iff.mpr h)
  rw [modules_eq, assignIds_false, hc, List.length_cons, List.range'_succ, assignAll_cons,
    modulesAll_cons, modules_eq, assignIds_false]
  rfl

omit [Inhabited α] in
theorem map_flatId_of_nested_eq_zero {m : CompiledModule α} (h : m.nested = 0) (id next : Nat) :
    (assignIds false id m next).1.modules.map flatId = [id] := by
  have hnil : (assignIds false id m next).1.subModules = [] := by
    rw [assignIds_false, nested_eq_zero_iff.mp h]
    simp [assignAll]
  rw [modules_eq, hnil, modulesAll_nil, assignIds_false]
  rfl

omit [Inhabited α] in
/-- In the order of the walk, the numbers given to a function and to what
is nested in it are consecutive from its own on just when only last
functions have functions nested in them. -/
theorem map_flatId_assignIds_iff (m : CompiledModule α) (id : Nat) :
    (assignIds false id m (id + 1)).1.modules.map flatId = List.range' id (m.nested + 1) ↔
      m.LastOnly := by
  induction m using tree_induction generalizing id with
  | node m ih =>
    have hall : ∀ (subs : List (CompiledModule α)) (a : Nat), (∀ s ∈ subs, s ∈ m.subModules) →
        ((modulesAll (assignAll (List.range' a subs.length) subs (a + subs.length)).1).map
            flatId = List.range' a (subs.length + nestedAll subs) ↔
          (∀ c ∈ subs.dropLast, c.subModules = []) ∧ ∀ s ∈ subs, s.LastOnly) := by
      intro subs
      induction subs with
      | nil =>
        intro a _
        simp [assignAll]
      | cons s subs ihs =>
        intro a hsub
        have hs := ih s (hsub s List.mem_cons_self) a
        rw [List.length_cons, List.range'_succ, assignAll_cons, modulesAll_cons,
          List.map_append, assignIds_snd, nestedAll_cons]
        cases hrest : subs with
        | nil => simpa [assignAll, Nat.add_comm] using hs
        | cons s₂ subs₂ =>
          rw [← hrest, List.dropLast_cons_of_ne_nil (by rw [hrest]; simp)]
          by_cases hleaf : s.nested = 0
          · -- a function with nothing nested in it takes one number, and the rest goes on
            have hihs := ihs (a + 1) fun t ht => hsub t (List.mem_cons_of_mem s ht)
            have hnext : a + (subs.length + 1) + s.nested = a + 1 + subs.length := by omega
            have hcount : subs.length + 1 + (s.nested + nestedAll subs) =
                subs.length + nestedAll subs + 1 := by omega
            rw [map_flatId_of_nested_eq_zero hleaf, hnext, hcount, List.range'_succ,
              List.singleton_append, List.cons.injEq, hihs]
            simp [nested_eq_zero_iff.mp hleaf, lastOnly_of_nested_eq_zero hleaf]
          · -- the walk goes into a function whose siblings have taken the next numbers
            constructor
            · intro h
              have hlen : 1 < ((assignIds false a s (a + (subs.length + 1))).1.modules.map
                  flatId).length := by
                have := map_flatId_assignIds_one hleaf a (a + (subs.length + 1))
                exact (List.getElem?_eq_some_iff.mp this).1
              have h1 := congrArg (·[1]?) h
              rw [List.getElem?_append_left hlen, map_flatId_assignIds_one hleaf,
                List.getElem?_range' (by rw [hrest, List.length_cons]; omega),
                Option.some.injEq, hrest, List.length_cons] at h1
              omega
            · rintro ⟨h, -⟩
              exact absurd (nested_eq_zero_iff.mpr (h s List.mem_cons_self)) hleaf
    rw [modules_eq, assignIds_false, List.map_cons, List.range'_succ, List.cons.injEq,
      lastOnly_iff, ← hall m.subModules (id + 1) fun s hs => hs, ← nested_eq]
    exact and_iff_right rfl

/-! ### Appending keeps the table in order -/

section Append

variable {table : List (CompiledModule α)} {tree : CompiledModule α} {base d : Nat}

omit [Inhabited α]

@[simp] theorem flatId_rehome (base : Nat) (m : CompiledModule α) :
    (rehome base m).flatId = base + m.flatId - 1 := rfl

/-- The copies continue a table in order just when the walk meets the
numbers one after the other. -/
theorem installed_append_iff (htable : Installed table) (hpos : 0 < table.length)
    (hbase : base + d = table.length + 1) :
    Installed (table ++ tree.modules.map (rehome base)) ↔
      tree.modules.map flatId = List.range' d (tree.nested + 1) := by
  have hnumber : ∀ j id : Nat, base + id - 1 = table.length + j ↔ id = d + j := by
    intro j id
    omega
  constructor
  · intro h
    apply List.ext_getElem?
    intro j
    rw [List.getElem?_map]
    rcases hj : tree.modules[j]? with _ | m
    · have hlen := List.getElem?_eq_none_iff.mp hj
      rw [length_modules] at hlen
      rw [List.getElem?_eq_none (by rw [List.length_range']; exact hlen)]
      rfl
    · have hlt := (List.getElem?_eq_some_iff.mp hj).1
      rw [length_modules] at hlt
      have hid := h (table.length + j) (rehome base m) (by
        rw [List.getElem?_append_right (Nat.le_add_right ..), Nat.add_sub_cancel_left,
          List.getElem?_map, hj]
        rfl)
      rw [flatId_rehome, hnumber] at hid
      rw [List.getElem?_range' hlt, Nat.one_mul, Option.map_some, hid]
  · intro h i m hi
    rcases Nat.lt_or_ge i table.length with hlt | hge
    · rw [List.getElem?_append_left hlt] at hi
      exact htable i m hi
    · rw [List.getElem?_append_right hge, List.getElem?_map, Option.map_eq_some_iff] at hi
      obtain ⟨s, hs, rfl⟩ := hi
      have hlt := (List.getElem?_eq_some_iff.mp hs).1
      rw [length_modules] at hlt
      have hid : (tree.modules.map flatId)[i - table.length]? = some s.flatId := by
        rw [List.getElem?_map, hs]
        rfl
      rw [h, List.getElem?_range' hlt, Nat.one_mul, Option.some.injEq] at hid
      have := (hnumber (i - table.length) s.flatId).mpr hid.symm
      rw [flatId_rehome, this]
      omega

theorem imm16_rehomeWord {w : Instr} (hw : w.opcode = .createClosure) (hbase : 0 < base) :
    (rehomeWord base w).imm16 = (base - 1 + w.imm16) % 2 ^ 16 := by
  rw [rehomeWord, if_pos hw, imm16_withIndex]
  omega

/-- In a table in order, a function of the tree is found at the number of
its copy. -/
theorem getElem?_rehome (h : Installed (table ++ tree.modules.map (rehome base)))
    {c : CompiledModule α} (hc : c ∈ tree.modules) :
    (table ++ tree.modules.map (rehome base))[(rehome base c).flatId]? = some (rehome base c) := by
  have hmem : rehome base c ∈ table ++ tree.modules.map (rehome base) :=
    List.mem_append_right _ (List.mem_map_of_mem hc)
  obtain ⟨i, hi⟩ := List.mem_iff_getElem?.mp hmem
  rw [h i _ hi]
  exact hi

theorem mem_modules_of_mem_subModules {m c : CompiledModule α} (hm : m ∈ tree.modules)
    (hc : c ∈ m.subModules) : c ∈ tree.modules := by
  obtain ⟨p, hp⟩ := exists_at?_of_mem_modules hm
  obtain ⟨k, hk⟩ := List.mem_iff_getElem?.mp hc
  apply mem_modules_of_at? (p := p ++ [k])
  rw [at?_append, hp]
  exact (at?_singleton m k).trans hk

/-- Appending keeps what it should just when the walk meets the numbers
one after the other and the indices have room. -/
theorem keepsChildren_append_iff (htable : Installed table) (hpos : 0 < table.length) (hd : d ≤ 1)
    (hbase : base + d = table.length + 1) {old : List (CompiledModule α)}
    (hold : ∀ i < old.length, table[i]? = old[i]?) (hlen : old.length ≤ table.length) :
    KeepsChildren old (table ++ tree.modules.map (rehome base)) base tree ↔
      tree.modules.map flatId = List.range' d (tree.nested + 1) ∧ RoomFor (base - 1) tree := by
  rw [← installed_append_iff htable hpos hbase]
  have hb : 0 < base := by omega
  constructor
  · rintro ⟨hinst, -, hclosures⟩
    refine ⟨hinst, fun m hm f hf hop c hc hid => ?_⟩
    have hfound := hclosures m hm f hf hop c hc hid
    have hnum := hinst _ _ hfound
    rw [imm16_rehomeWord hop hb, flatId_rehome, hid] at hnum
    have hmod : (base - 1 + f.1.imm16) % 2 ^ 16 < 2 ^ 16 := Nat.mod_lt _ (by decide)
    omega
  · rintro ⟨hinst, hroom⟩
    refine ⟨hinst, fun i hi => ?_, fun m hm f hf hop c hc hid => ?_⟩
    · rw [List.getElem?_append_left (hi.trans_le hlen), hold i hi]
    · have hfound := getElem?_rehome hinst (mem_modules_of_mem_subModules hm hc)
      have hidx : (rehomeWord base f.1).imm16 = (rehome base c).flatId := by
        rw [imm16_rehomeWord hop hb, Nat.mod_eq_of_lt (hroom m hm f hf hop c hc hid),
          flatId_rehome, hid]
        omega
      rw [hidx]
      exact hfound

end Append

/-! ### The two entry points -/

theorem reserved_pos (table : List (CompiledModule α)) : 0 < (reserved table).length := by
  rw [reserved]
  cases table <;> simp

theorem installed_reserved {table : List (CompiledModule α)} (h : Installed table) :
    Installed (reserved table) := by
  cases table with
  | nil =>
    intro i m hi
    cases i with
    | zero =>
      obtain rfl := Option.some.inj hi
      rfl
    | succ i => simp [reserved] at hi
  | cons m ms => exact h

theorem reserved_extends (table : List (CompiledModule α)) :
    (∀ i < table.length, (reserved table)[i]? = table[i]?) ∧
      table.length ≤ (reserved table).length := by
  cases table <;> simp [reserved]

theorem flattenSubmodules_of_not_async {t : CompiledModule α} (h0 : t.flatId = 0)
    (ht : t.isAsync = false) : flattenSubmodules t = (assignIds false 0 t 1).1 := by
  rw [flattenSubmodules, if_neg (by rw [ht]; exact Bool.false_ne_true), h0]

omit [Inhabited α] in
theorem nested_assignIds (id next : Nat) (m : CompiledModule α) :
    (assignIds false id m next).1.nested = m.nested := by
  have h := (perm_ids_assignIds id next m).length_eq
  rw [List.length_map, length_modules, List.length_cons, List.length_range'] at h
  omega

/-- The numbers of a whole numbered tree, in the order of the walk. -/
theorem map_flatId_flatten_iff {t : CompiledModule α} (h0 : t.flatId = 0) :
    (flattenSubmodules t).modules.map flatId =
        List.range' 0 ((flattenSubmodules t).nested + 1) ↔
      t.isAsync = false ∧ t.LastOnly := by
  cases ht : t.isAsync with
  | false =>
    rw [flattenSubmodules_of_not_async h0 ht, nested_assignIds]
    exact (map_flatId_assignIds_iff t 0).trans (and_iff_right rfl).symm
  | true =>
    refine iff_of_false (fun h => ?_) (by simp)
    have hroot := congrArg List.head? h
    rw [modules_eq, flattenSubmodules_eq h0, numbered_eq, firstNumber, ht, if_pos rfl] at hroot
    exact absurd hroot (by simp [List.range'_succ])

/-- The numbers of the first function nested in the root, in the order of
the walk. -/
theorem map_flatId_first_iff {t anonymous : CompiledModule α} (h0 : t.flatId = 0)
    (h : (flattenSubmodules t).subModules.head? = some anonymous) :
    anonymous.modules.map flatId = List.range' 1 (anonymous.nested + 1) ↔
      t.isAsync = false ∧
        ∀ a rest, t.subModules = a :: rest → a.subModules = [] ∨ rest = [] ∧ a.LastOnly := by
  cases ht : t.isAsync with
  | true =>
    refine iff_of_false (fun hids => ?_) (by simp)
    rw [flattenSubmodules_eq h0, entries, ht, if_pos rfl] at h
    obtain rfl := Option.some.inj h
    exact absurd (congrArg List.head? hids) (by simp [modules_eq, empty, List.range'_succ])
  | false =>
    rw [flattenSubmodules_of_not_async h0 ht, assignIds_false] at h
    cases hsubs : t.subModules with
    | nil =>
      rw [hsubs] at h
      simp [assignAll] at h
    | cons a rest =>
      rw [hsubs, List.length_cons, List.range'_succ, assignAll_cons] at h
      obtain rfl := Option.some.inj h
      rw [nested_assignIds]
      have hcond : (∀ a' rest', a :: rest = a' :: rest' →
          a'.subModules = [] ∨ rest' = [] ∧ a'.LastOnly) ↔
          a.subModules = [] ∨ rest = [] ∧ a.LastOnly := by
        constructor
        · intro hc
          exact hc a rest rfl
        · rintro hc _ _ heq
          cases heq
          exact hc
      rw [hcond, and_iff_right rfl]
      by_cases hleaf : a.nested = 0
      · rw [map_flatId_of_nested_eq_zero hleaf, hleaf]
        exact iff_of_true rfl (Or.inl (nested_eq_zero_iff.mp hleaf))
      · rw [or_iff_right (mt nested_eq_zero_iff.mpr hleaf)]
        cases rest with
        | nil => exact (map_flatId_assignIds_iff a 1).trans (and_iff_right rfl).symm
        | cons b rest =>
          refine iff_of_false (fun hids => ?_) (by simp)
          have h1 := map_flatId_assignIds_one hleaf 1 (1 + ((b :: rest).length + 1))
          rw [hids, List.getElem?_range' (by omega), Option.some.injEq,
            List.length_cons] at h1
          omega

/-- A tree appended at run time to a table in order keeps its children
just when the walk that copies it meets its functions in the order of
their numbers, and the moved indices still fit. For a script that is so
when its top level does not await and in every function only the last of
the functions nested directly in it has functions nested in it. For a
function it is so when the function is alone in the script it was wrapped
into and is of that form, or has no function nested in it. -/
theorem keepsChildren_iff (table : List (CompiledModule α)) (t : CompiledModule α)
    (hinst : Installed table) (h0 : t.flatId = 0) :
    (KeepsChildren table (createDynamicScript table (flattenSubmodules t))
        ((reserved table).length + 1) (flattenSubmodules t) ↔
      (t.isAsync = false ∧ t.LastOnly) ∧
        RoomFor (reserved table).length (flattenSubmodules t)) ∧
    ∀ anonymous table', (flattenSubmodules t).subModules.head? = some anonymous →
      createDynamicFunction table (flattenSubmodules t) = some table' →
      (KeepsChildren table table' (reserved table).length anonymous ↔
        (t.isAsync = false ∧
          ∀ a rest, t.subModules = a :: rest → a.subModules = [] ∨ rest = [] ∧ a.LastOnly) ∧
          RoomFor ((reserved table).length - 1) anonymous) := by
  obtain ⟨hold, hlen⟩ := reserved_extends table
  constructor
  · rw [createDynamicScript, rehomeSubtree_eq, ← map_flatId_flatten_iff h0]
    exact keepsChildren_append_iff (installed_reserved hinst) (reserved_pos table)
      (Nat.zero_le 1) rfl hold hlen
  · intro anonymous table' hhead htable'
    rw [createDynamicFunction, hhead, Option.map_some] at htable'
    obtain rfl := Option.some.inj htable'
    simp only [rehomeSubtree_eq]
    rw [← map_flatId_first_iff h0 hhead]
    exact keepsChildren_append_iff (installed_reserved hinst) (reserved_pos table) le_rfl rfl
      hold hlen

/-- A script of two functions, the first of which holds a third. -/
def twoFunctions : CompiledModule Nat where
  bytecode := [encode .createClosure 1 1 0, encode .createClosure 2 2 0]
  subModules :=
    [{ bytecode := [encode .createClosure 1 1 0], subModules := [{ rest := 3 }], rest := 1 },
      { rest := 2 }]
  rest := 0

/-- The table of a program that is one function. -/
def oneEntry : List (CompiledModule Nat) := [{ rest := 0 }]

theorem oneEntry_installed : Installed oneEntry := by
  intro i m hi
  cases i with
  | zero =>
    obtain rfl := Option.some.inj hi
    rfl
  | succ i => simp [oneEntry] at hi

theorem oneEntry_keepsChildren_iff :
    Installed oneEntry ∧ twoFunctions.flatId = 0 ∧
      (KeepsChildren oneEntry (createDynamicScript oneEntry (flattenSubmodules twoFunctions))
          ((reserved oneEntry).length + 1) (flattenSubmodules twoFunctions) ↔
        (twoFunctions.isAsync = false ∧ twoFunctions.LastOnly) ∧
          RoomFor (reserved oneEntry).length (flattenSubmodules twoFunctions)) :=
  ⟨oneEntry_installed, rfl, (keepsChildren_iff oneEntry twoFunctions oneEntry_installed rfl).1⟩

/-- Appended to that table, the second function of the script and the one
held by the first change places: entry three holds the function with
number four. -/
theorem twoFunctions_out_of_place :
    ¬ KeepsChildren oneEntry (createDynamicScript oneEntry (flattenSubmodules twoFunctions))
        ((reserved oneEntry).length + 1) (flattenSubmodules twoFunctions) ∧
      (createDynamicScript oneEntry (flattenSubmodules twoFunctions)).map flatId =
        [0, 1, 2, 4, 3] := by
  have hids : (createDynamicScript oneEntry (flattenSubmodules twoFunctions)).map flatId =
      [0, 1, 2, 4, 3] := by decide +kernel
  refine ⟨fun h => ?_, hids⟩
  have hthree : ((createDynamicScript oneEntry (flattenSubmodules twoFunctions)).map flatId)[3]? =
      some 4 := by rw [hids]; rfl
  rw [List.getElem?_map, Option.map_eq_some_iff] at hthree
  obtain ⟨m, hm, hid⟩ := hthree
  have := h.installed 3 m hm
  omega

end OxideJS.CompiledModule
