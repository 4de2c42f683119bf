import OxideJS.Module.Tree
import Mathlib.Data.List.Perm.Basic

/-!
Numbering the functions of a tree and putting them into one table.

The emitter lets a closure name the function it is made from by that
function's position among the nested functions of its parent. A closure
that escapes is called where that position means nothing, so the last
pass of the compiler numbers the whole tree and rewrites each closure
instruction to the number. At run time the numbers are positions in one
table.

The numbering takes all the functions nested directly in a function
before it goes into the first of them. A program whose top level awaits
gets an empty entry in front, so that its own top level is not entry
zero, which the call protocol takes to mean a function without a body.
-/

namespace OxideJS.CompiledModule

variable {α : Type}

/-! ### The numbering pass -/

/-- A closure instruction with another index. -/
def withIndex (w : Instr) (n : Nat) : Instr :=
  encode .createClosure w.rd n (n / 2 ^ 8)

@[simp] theorem opcode_withIndex (w : Instr) (n : Nat) :
    (withIndex w n).opcode = .createClosure :=
  opcode_encode ..

@[simp] theorem rd_withIndex (w : Instr) (n : Nat) : (withIndex w n).rd = w.rd := by
  rw [withIndex, rd_encode, Instr.rd, Nat.mod_mod]

@[simp] theorem imm16_withIndex (w : Instr) (n : Nat) : (withIndex w n).imm16 = n % 2 ^ 16 :=
  imm16_encode_split ..

@[simp] theorem withIndex_withIndex (w : Instr) (n k : Nat) :
    withIndex (withIndex w n) k = withIndex w k := by
  rw [withIndex, rd_withIndex, withIndex]

/-- The field holds sixteen bits. -/
theorem withIndex_congr (w : Instr) {n k : Nat} (h : n % 2 ^ 16 = k % 2 ^ 16) :
    withIndex w n = withIndex w k := by
  apply UInt32.toNat_inj.mp
  rw [withIndex, withIndex, toNat_encode, toNat_encode]
  omega

/-- The number of the nested function at a position counted from one, and
zero when there is none. -/
def closureIndex (ids : List Nat) (rel : Nat) : Nat :=
  if 0 < rel then ids[rel - 1]?.getD 0 else 0

/-- What the pass does to a word: one whose low byte is that of a closure
instruction has its index replaced by the number of the function it
names. -/
def retarget (ids : List Nat) (w : Instr) : Instr :=
  if w.opcode = .createClosure then withIndex w (closureIndex ids w.imm16) else w

/-- The numbers the loop of a call gives to the functions nested directly
in its own. A first entry that is only there to fill position zero is
skipped. -/
def childIds (skipPlaceholder : Bool) (next n : Nat) : List Nat :=
  if skipPlaceholder then 0 :: List.range' next (n - 1) else List.range' next n

mutual

/-- The pass over one function and everything nested in it. The loop of
the parent has given the function its number before the call; it is an
argument here, so that the recursion is on the tree. -/
def assignIds (skipPlaceholder : Bool) (id : Nat) :
    CompiledModule α → Nat → CompiledModule α × Nat
  | ⟨code, subs, async, _, rest⟩, next =>
    let ids := childIds skipPlaceholder next subs.length
    let next' := if skipPlaceholder then next + (subs.length - 1) else next + subs.length
    let r := assignAll ids subs next'
    (⟨code.map (retarget ids), r.1, async, id, rest⟩, r.2)

def assignAll : List Nat → List (CompiledModule α) → Nat → List (CompiledModule α) × Nat
  | id :: ids, sub :: subs, next =>
    let r := assignIds false id sub next
    let rs := assignAll ids subs r.2
    (r.1 :: rs.1, rs.2)
  | _, _, next => ([], next)

end

/-- The index of a closure instruction moves by one when a function is
put in front of the nested ones. -/
def bumpIndex (w : Instr) : Instr :=
  if w.opcode = .createClosure then withIndex w (w.imm16 + 1) else w

/-- The empty function. -/
def empty [Inhabited α] : CompiledModule α where
  rest := default

/-- The numbering pass over a whole tree. -/
def flattenSubmodules [Inhabited α] (m : CompiledModule α) : CompiledModule α :=
  if m.isAsync then
    (assignIds true 1
      { m with
        subModules := empty :: m.subModules
        bytecode := m.bytecode.map bumpIndex } 2).1
  else
    (assignIds false m.flatId m 1).1

/-! ### The table -/

/-- Put a function into the table at its number. -/
def place (out : List (Option (CompiledModule α))) (m : CompiledModule α) :
    List (Option (CompiledModule α)) :=
  let out := if out.length ≤ m.flatId then
    out ++ List.replicate (m.flatId + 1 - out.length) none else out
  out.set m.flatId (some m)

mutual

/-- Put a function and everything nested in it into the table. -/
def placeFlat : CompiledModule α → List (Option (CompiledModule α)) →
    List (Option (CompiledModule α))
  | ⟨code, subs, async, id, rest⟩, out => placeAll subs (place out ⟨code, subs, async, id, rest⟩)

def placeAll : List (CompiledModule α) → List (Option (CompiledModule α)) →
    List (Option (CompiledModule α))
  | [], out => out
  | sub :: subs, out => placeAll subs (placeFlat sub out)

end

/-- The table of a numbered tree. An entry that was never filled is an
error. -/
def collectFlatModules (m : CompiledModule α) : Option (List (CompiledModule α)) :=
  (placeFlat m []).mapM id

/-! ### What the pass makes of one function -/

theorem assignIds_false (id : Nat) (m : CompiledModule α) (next : Nat) :
    assignIds false id m next =
      ({ m with
          bytecode := m.bytecode.map (retarget (List.range' next m.subModules.length))
          subModules := (assignAll (List.range' next m.subModules.length) m.subModules
            (next + m.subModules.length)).1
          flatId := id },
        (assignAll (List.range' next m.subModules.length) m.subModules
          (next + m.subModules.length)).2) := by
  cases m
  rw [assignIds]
  rfl

theorem assignAll_cons (id : Nat) (ids : List Nat) (s : CompiledModule α)
    (subs : List (CompiledModule α)) (next : Nat) :
    assignAll (id :: ids) (s :: subs) next =
      ((assignIds false id s next).1 :: (assignAll ids subs (assignIds false id s next).2).1,
        (assignAll ids subs (assignIds false id s next).2).2) := by
  rw [assignAll]

/-- The counter moves on by the number of nested functions. -/
theorem assignIds_snd (id : Nat) (m : CompiledModule α) (next : Nat) :
    (assignIds false id m next).2 = next + m.nested := by
  induction m using tree_induction generalizing id next with
  | node m ih =>
    have hall : ∀ (subs : List (CompiledModule α)) (ids : List Nat) (next : Nat),
        (∀ s ∈ subs, s ∈ m.subModules) → ids.length = subs.length →
        (assignAll ids subs next).2 = next + nestedAll subs := by
      intro subs
      induction subs with
      | nil =>
        intro ids next _ hids
        obtain rfl := List.length_eq_zero_iff.mp hids
        simp [assignAll]
      | cons s subs ihs =>
        intro ids next hsub hids
        cases ids with
        | nil => simp at hids
        | cons id ids =>
          rw [assignAll_cons, ihs ids _ (fun t ht => hsub t (List.mem_cons_of_mem s ht))
            (by simpa using hids), ih s (hsub s List.mem_cons_self), nestedAll_cons]
          omega
    rw [assignIds_false]
    show (assignAll _ _ _).2 = _
    rw [hall _ _ _ (fun s hs => hs) List.length_range', nested_eq]
    omega

/-- The function at position `k` of a list is passed over with the number
at that position, and with the counter moved past those before it. -/
theorem assignAll_getElem? {ids : List Nat} {subs : List (CompiledModule α)}
    (h : ids.length = subs.length) (next k : Nat) :
    (assignAll ids subs next).1[k]? =
      subs[k]?.bind fun s => ids[k]?.map fun id =>
        (assignIds false id s (next + nestedAll (subs.take k))).1 := by
  induction subs generalizing ids next k with
  | nil =>
    obtain rfl := List.length_eq_zero_iff.mp h
    simp [assignAll]
  | cons s subs ih =>
    cases ids with
    | nil => simp at h
    | cons id ids =>
      rw [assignAll_cons]
      cases k with
      | zero => simp
      | succ k =>
        simp only [List.getElem?_cons_succ, List.take_succ_cons, nestedAll_cons]
        rw [ih (by simpa using h), assignIds_snd, Nat.add_assoc]

/-- The number of the first function nested in one at position `k` of a
list that starts at `next`: past the list, and past what is nested in the
functions before. -/
def firstBelow (subs : List (CompiledModule α)) (next k : Nat) : Nat :=
  next + subs.length + nestedAll (subs.take k)

theorem getElem?_assignIds (id : Nat) (m : CompiledModule α) (next k : Nat) :
    (assignIds false id m next).1.subModules[k]? =
      m.subModules[k]?.map fun s =>
        (assignIds false (next + k) s (firstBelow m.subModules next k)).1 := by
  rw [assignIds_false]
  show (assignAll _ _ _).1[k]? = _
  rw [assignAll_getElem? List.length_range']
  rcases hk : m.subModules[k]? with _ | s
  · rfl
  · have hlt : k < m.subModules.length := (List.getElem?_eq_some_iff.mp hk).1
    rw [List.getElem?_range' hlt, Nat.one_mul]
    rfl

/-! ### Numbers and paths -/

/-- The number of the function at a path below one with number `id` whose
nested functions are numbered from `next` on, together with the number of
the first function nested in it. -/
def numberAt (id next : Nat) (m : CompiledModule α) : List Nat → Option (Nat × Nat)
  | [] => some (id, next)
  | k :: p => m.subModules[k]?.bind fun s =>
    s.numberAt (next + k) (firstBelow m.subModules next k) p

theorem numberAt_append (id next : Nat) (m : CompiledModule α) (p q : List Nat) :
    m.numberAt id next (p ++ q) =
      (m.at? p).bind fun s => (m.numberAt id next p).bind fun n => s.numberAt n.1 n.2 q := by
  induction p generalizing id next m with
  | nil => rfl
  | cons k p ih =>
    simp only [List.cons_append, numberAt, at?_cons, Option.bind_assoc]
    rcases m.subModules[k]? with _ | s
    · rfl
    · exact ih _ _ s

theorem numberAt_isSome {id next : Nat} {m s : CompiledModule α} {p : List Nat}
    (h : m.at? p = some s) : ∃ n, m.numberAt id next p = some n := by
  induction p generalizing id next m with
  | nil => exact ⟨_, rfl⟩
  | cons k p ih =>
    rw [at?_cons, Option.bind_eq_some_iff] at h
    obtain ⟨t, ht, hs⟩ := h
    obtain ⟨n, hn⟩ := @ih (next + k) (firstBelow m.subModules next k) t hs
    refine ⟨n, ?_⟩
    rw [numberAt, ht]
    exact hn

/-- The function at a path of the numbered tree is the pass applied to the
one at that path before. -/
theorem at?_assignIds (id next : Nat) (m : CompiledModule α) (p : List Nat) :
    (assignIds false id m next).1.at? p =
      (m.at? p).bind fun s =>
        (m.numberAt id next p).map fun n => (assignIds false n.1 s n.2).1 := by
  induction p generalizing id next m with
  | nil => rfl
  | cons k p ih =>
    rw [at?_cons, getElem?_assignIds, at?_cons, numberAt]
    rcases m.subModules[k]? with _ | s
    · rfl
    · exact ih _ _ s

/-- Numbers below a function are those of a segment, each once. -/
theorem perm_ids_assignIds (id next : Nat) (m : CompiledModule α) :
    ((assignIds false id m next).1.modules.map flatId).Perm
      (id :: List.range' next m.nested) := by
  induction m using tree_induction generalizing id next with
  | node m ih =>
    have hall : ∀ (subs : List (CompiledModule α)) (ids : List Nat) (next : Nat),
        (∀ s ∈ subs, s ∈ m.subModules) → ids.length = subs.length →
        ((modulesAll (assignAll ids subs next).1).map flatId).Perm
          (ids ++ List.range' next (nestedAll subs)) := by
      intro subs
      induction subs with
      | nil =>
        intro ids next _ hids
        obtain rfl := List.length_eq_zero_iff.mp hids
        simp [assignAll]
      | cons s subs ihs =>
        intro ids next hsub hids
        cases ids with
        | nil => simp at hids
        | cons id ids =>
          have hs := ih s (hsub s List.mem_cons_self) id next
          have hrest := ihs ids (next + s.nested)
            (fun t ht => hsub t (List.mem_cons_of_mem s ht)) (by simpa using hids)
          rw [assignAll_cons, modulesAll_cons, List.map_append, assignIds_snd,
            nestedAll_cons, ← List.range'_append_1]
          refine (hs.append hrest).trans ?_
          rw [List.cons_append, List.cons_append]
          refine List.Perm.cons id ?_
          rw [← List.append_assoc, ← List.append_assoc]
          exact List.perm_append_comm.append_right _
    have hsubs := hall m.subModules (List.range' next m.subModules.length)
      (next + m.subModules.length) (fun s hs => hs) List.length_range'
    rw [List.range'_append_1, ← nested_eq] at hsubs
    rw [modules_eq, assignIds_false, List.map_cons]
    exact hsubs.cons id

/-! ### The whole tree -/

/-- The number of the first function nested directly in the root. -/
def firstNumber (m : CompiledModule α) : Nat := if m.isAsync then 2 else 1

/-- Where a function of the tree stands in the numbered tree: one
position further, below the root, when an entry was put in front. -/
def home (m : CompiledModule α) : List Nat → List Nat
  | [] => []
  | k :: p => (if m.isAsync then k + 1 else k) :: p

/-- The number of the function at a path, and of the first one nested in
it. -/
def number (m : CompiledModule α) (p : List Nat) : Option (Nat × Nat) :=
  m.numberAt (m.firstNumber - 1) m.firstNumber p

theorem number_append {t s : CompiledModule α} {p : List Nat} {n : Nat × Nat}
    (hs : t.at? p = some s) (hn : t.number p = some n) (q : List Nat) :
    t.number (p ++ q) = s.numberAt n.1 n.2 q := by
  rw [number, numberAt_append, hs]
  show (t.number p).bind _ = _
  rw [hn]
  rfl

theorem number_eq_none {t : CompiledModule α} {p : List Nat} (h : t.at? p = none) :
    t.number p = none := by
  have := numberAt_append (t.firstNumber - 1) t.firstNumber t p []
  rw [List.append_nil, h] at this
  exact this

/-- The number of a function nested directly in another. -/
theorem number_child {t s : CompiledModule α} {p : List Nat} {n : Nat × Nat} {k : Nat}
    (hs : t.at? p = some s) (hn : t.number p = some n) (hk : k < s.subModules.length) :
    t.number (p ++ [k]) = some (n.2 + k, firstBelow s.subModules n.2 k) := by
  rw [number_append hs hn, numberAt, List.getElem?_eq_getElem hk]
  rfl

theorem closureIndex_succ (ids : List Nat) (k : Nat) :
    closureIndex ids (k + 1) = ids[k]?.getD 0 := by
  rw [closureIndex, if_pos (Nat.succ_pos k), Nat.add_sub_cancel]

theorem closureIndex_zero (ids : List Nat) : closureIndex ids 0 = 0 :=
  if_neg (Nat.lt_irrefl 0)

/-- With the entry in front, moving an index and then looking it up is
looking it up without the entry. An index that wraps around when it is
moved stands for a number that wraps around to zero. -/
theorem retarget_bumpIndex (n : Nat) (w : Instr) :
    retarget (0 :: List.range' 2 n) (bumpIndex w) = retarget (List.range' 2 n) w := by
  by_cases hw : w.opcode = .createClosure
  · have hlt := w.imm16_lt
    have hb : bumpIndex w = withIndex w (w.imm16 + 1) := if_pos hw
    rw [hb, retarget, if_pos (opcode_withIndex ..), retarget, if_pos hw, imm16_withIndex,
      withIndex_withIndex]
    apply withIndex_congr
    rcases Nat.lt_or_ge (w.imm16 + 1) (2 ^ 16) with h | h
    · rw [Nat.mod_eq_of_lt h, closureIndex_succ]
      rcases hi : w.imm16 with _ | k
      · rfl
      · rw [List.getElem?_cons_succ, closureIndex_succ]
    · have hmax : w.imm16 = 65534 + 1 := by omega
      rw [hmax, closureIndex_succ, show (65534 + 1 + 1) % 2 ^ 16 = 0 from rfl,
        closureIndex_zero]
      rcases Nat.lt_or_ge 65534 n with hn | hn
      · rw [List.getElem?_range' hn]
        rfl
      · rw [List.getElem?_eq_none (by rw [List.length_range']; exact hn)]
        rfl
  · have hb : bumpIndex w = w := if_neg hw
    rw [hb, retarget, retarget, if_neg hw, if_neg hw]

section Whole

variable [Inhabited α]

@[simp] theorem assignIds_empty (next : Nat) :
    assignIds false 0 (empty : CompiledModule α) next = (empty, next) := by
  rw [assignIds_false]
  simp [empty, assignAll]

/-- The entry put in front of the functions nested directly in the root. -/
def entries (t : CompiledModule α) : List (CompiledModule α) :=
  if t.isAsync then [empty] else []

/-- The tree as the pass numbers it, before the entry is put in front. -/
def numbered (t : CompiledModule α) : CompiledModule α :=
  (assignIds false (t.firstNumber - 1) t t.firstNumber).1

omit [Inhabited α] in
theorem numbered_eq (t : CompiledModule α) :
    t.numbered =
      { t with
        bytecode := t.bytecode.map (retarget (List.range' t.firstNumber t.subModules.length))
        subModules := (assignAll (List.range' t.firstNumber t.subModules.length) t.subModules
          (t.firstNumber + t.subModules.length)).1
        flatId := t.firstNumber - 1 } := by
  rw [numbered, assignIds_false]

/-- A numbered tree is the pass over the tree as it was, with the entry
put in front afterwards. -/
theorem flattenSubmodules_eq {t : CompiledModule α} (h0 : t.flatId = 0) :
    flattenSubmodules t = { t.numbered with subModules := t.entries ++ t.numbered.subModules } := by
  obtain ⟨code, subs, async, id, rest⟩ := t
  obtain rfl : id = 0 := h0
  rw [flattenSubmodules, numbered_eq]
  cases async with
  | false =>
    rw [if_neg Bool.false_ne_true, assignIds_false]
    rfl
  | true =>
    rw [if_pos rfl]
    simp only [assignIds, childIds, if_true, List.length_cons, Nat.add_sub_cancel,
      assignAll_cons, assignIds_empty, List.map_map, firstNumber, entries]
    congr 1
    exact List.map_congr_left fun w _ => retarget_bumpIndex _ w

omit [Inhabited α] in
theorem at?_numbered (t : CompiledModule α) (p : List Nat) :
    t.numbered.at? p =
      (t.at? p).bind fun s => (t.number p).map fun n => (assignIds false n.1 s n.2).1 :=
  at?_assignIds ..

/-- Below the root, a function stands in the numbered tree as the pass
left it. -/
theorem at?_home {t : CompiledModule α} (h0 : t.flatId = 0) (k : Nat) (p : List Nat) :
    (flattenSubmodules t).at? (t.home (k :: p)) = t.numbered.at? (k :: p) := by
  rw [flattenSubmodules_eq h0, home, at?_cons, at?_cons, entries]
  cases t.isAsync <;> simp

/-- What the numbering pass makes of each function of a tree. -/
theorem flatten_at? {t s : CompiledModule α} {p : List Nat} (h0 : t.flatId = 0)
    (hs : t.at? p = some s) :
    ∃ s' n, (flattenSubmodules t).at? (t.home p) = some s' ∧ t.number p = some n ∧
      s'.flatId = n.1 ∧
      s'.bytecode = s.bytecode.map (retarget (List.range' n.2 s.subModules.length)) ∧
      s'.rest = s.rest ∧ s'.isAsync = s.isAsync := by
  cases p with
  | nil =>
    obtain rfl := Option.some.inj hs
    rw [flattenSubmodules_eq h0]
    refine ⟨_, _, rfl, rfl, ?_⟩
    rw [numbered_eq]
    exact ⟨rfl, rfl, rfl, rfl⟩
  | cons k p =>
    obtain ⟨n, hn⟩ : ∃ n, t.number (k :: p) = some n := numberAt_isSome hs
    refine ⟨(assignIds false n.1 s n.2).1, n, ?_, hn, ?_⟩
    · rw [at?_home h0, at?_numbered, hs, hn]
      rfl
    · rw [assignIds_false]
      exact ⟨rfl, rfl, rfl, rfl⟩

/-- A path leads to the same number in the numbered tree as in the
numbering, and nowhere in the one when it leads nowhere in the other. -/
theorem flatId_at?_home {t : CompiledModule α} (h0 : t.flatId = 0) (p : List Nat) :
    ((flattenSubmodules t).at? (t.home p)).map flatId = (t.number p).map Prod.fst := by
  rcases hs : t.at? p with _ | s
  · cases p with
    | nil => simp at hs
    | cons k p =>
      rw [at?_home h0, at?_numbered, number_eq_none hs, hs]
      rfl
  · obtain ⟨s', n, hs', hn, hid, -⟩ := flatten_at? h0 hs
    rw [hs', hn]
    exact congrArg some hid

/-- The numbers of a numbered tree are those below its size, each once. -/
theorem perm_ids_flatten {t : CompiledModule α} (h0 : t.flatId = 0) :
    ((flattenSubmodules t).modules.map flatId).Perm
      (List.range (t.nested + t.firstNumber)) := by
  have hperm := perm_ids_assignIds (t.firstNumber - 1) t.firstNumber t
  have hroot : t.numbered.flatId = t.firstNumber - 1 := by rw [numbered_eq]
  rw [modules_eq, List.map_cons] at hperm
  change (t.numbered.flatId :: _).Perm _ at hperm
  rw [hroot, List.perm_cons] at hperm
  change ((modulesAll t.numbered.subModules).map flatId).Perm _ at hperm
  rw [flattenSubmodules_eq h0, modules_eq, List.map_cons, List.range_eq_range', modulesAll_append,
    List.map_append]
  change (t.numbered.flatId :: _).Perm _
  rw [hroot]
  have hcase :
      (t.firstNumber = 1 ∧ t.entries = []) ∨ (t.firstNumber = 2 ∧ t.entries = [empty]) := by
    rw [firstNumber, entries]
    cases t.isAsync <;> simp
  rcases hcase with ⟨hf, he⟩ | ⟨hf, he⟩
  · rw [hf] at hperm ⊢
    rw [he, modulesAll_nil, List.range'_succ]
    exact hperm.cons 0
  · rw [hf] at hperm ⊢
    rw [he, List.range'_succ, List.range'_succ]
    refine (List.Perm.swap 0 1 _).trans ?_
    exact (hperm.cons 1).cons 0

theorem length_modules_flatten {t : CompiledModule α} (h0 : t.flatId = 0) :
    (flattenSubmodules t).modules.length = t.nested + t.firstNumber := by
  simpa using (perm_ids_flatten h0).length_eq

end Whole

/-! ### Filling the table -/

theorem join_getElem?_place (out : List (Option (CompiledModule α))) (m : CompiledModule α)
    (i : Nat) :
    (place out m)[i]?.join = if m.flatId = i then some m else out[i]?.join := by
  have hlen : m.flatId < (if out.length ≤ m.flatId then
      out ++ List.replicate (m.flatId + 1 - out.length) none else out).length := by
    split
    · simp only [List.length_append, List.length_replicate]
      omega
    · omega
  rw [place, List.getElem?_set]
  split
  · rfl
  · split
    · rw [List.getElem?_append]
      split
      · rfl
      · rw [List.getElem?_eq_none (show out.length ≤ i by omega), List.getElem?_replicate]
        split <;> rfl
    · rfl

theorem length_place (out : List (Option (CompiledModule α))) (m : CompiledModule α) :
    (place out m).length = max out.length (m.flatId + 1) := by
  rw [place, List.length_set]
  split
  · simp only [List.length_append, List.length_replicate]
    omega
  · omega

/-- Placing a tree is placing its functions one after the other. -/
theorem placeFlat_eq (m : CompiledModule α) (out : List (Option (CompiledModule α))) :
    placeFlat m out = m.modules.foldl place out := by
  refine @walk_eq_foldl _ _ place placeFlat placeAll ?_ ?_ ?_ m out
  · intro m out
    cases m
    rw [placeFlat]
  · intro out
    rw [placeAll]
  · intro s subs out
    rw [placeAll]

theorem join_getElem?_foldl_place_of_notMem {ms : List (CompiledModule α)} {i : Nat}
    (h : i ∉ ms.map flatId) (out : List (Option (CompiledModule α))) :
    (ms.foldl place out)[i]?.join = out[i]?.join := by
  induction ms generalizing out with
  | nil => rfl
  | cons m ms ih =>
    rw [List.map_cons, List.mem_cons, not_or] at h
    rw [List.foldl_cons, ih h.2, join_getElem?_place, if_neg (Ne.symm h.1)]

theorem join_getElem?_foldl_place {ms : List (CompiledModule α)} (hnd : (ms.map flatId).Nodup)
    {m : CompiledModule α} (hm : m ∈ ms) (out : List (Option (CompiledModule α))) :
    (ms.foldl place out)[m.flatId]?.join = some m := by
  induction ms generalizing out with
  | nil => simp at hm
  | cons x ms ih =>
    rw [List.map_cons, List.nodup_cons] at hnd
    rw [List.foldl_cons]
    rcases List.mem_cons.mp hm with rfl | hm
    · rw [join_getElem?_foldl_place_of_notMem hnd.1, join_getElem?_place, if_pos rfl]
    · exact ih hnd.2 hm _

theorem length_foldl_place_le {ms : List (CompiledModule α)} {n : Nat}
    (h : ∀ m ∈ ms, m.flatId < n) {out : List (Option (CompiledModule α))} (hout : out.length ≤ n) :
    (ms.foldl place out).length ≤ n := by
  induction ms generalizing out with
  | nil => exact hout
  | cons m ms ih =>
    refine ih (fun x hx => h x (List.mem_cons_of_mem m hx)) ?_
    rw [length_place]
    exact max_le hout (h m List.mem_cons_self)

theorem mapM_id_of_forall_isSome {β : Type} {l : List (Option β)} (h : ∀ x ∈ l, x.isSome) :
    ∃ bs : List β, l.mapM id = some bs ∧ l = bs.map some := by
  induction l with
  | nil => exact ⟨[], rfl, rfl⟩
  | cons x l ih =>
    obtain ⟨b, rfl⟩ := Option.isSome_iff_exists.mp (h x List.mem_cons_self)
    obtain ⟨bs, hbs, hl⟩ := ih fun y hy => h y (List.mem_cons_of_mem _ hy)
    refine ⟨b :: bs, ?_, by rw [hl]; rfl⟩
    rw [List.mapM_cons, hbs]
    rfl

/-- A tree whose numbers are those below its size, each once, fills a
table of that size, with each function at its number. -/
theorem collectFlatModules_of_perm {m : CompiledModule α} {n : Nat}
    (h : (m.modules.map flatId).Perm (List.range n)) :
    ∃ table, collectFlatModules m = some table ∧ table.length = n ∧
      ∀ s ∈ m.modules, table[s.flatId]? = some s := by
  have hnd : (m.modules.map flatId).Nodup := h.nodup_iff.mpr List.nodup_range
  have hlt : ∀ s ∈ m.modules, s.flatId < n := fun s hs =>
    List.mem_range.mp (h.subset (List.mem_map_of_mem hs))
  have hslot : ∀ s ∈ m.modules, (placeFlat m [])[s.flatId]?.join = some s := by
    intro s hs
    rw [placeFlat_eq]
    exact join_getElem?_foldl_place hnd hs []
  have hfull : ∀ i < n, ∃ s ∈ m.modules, s.flatId = i := fun i hi =>
    List.mem_map.mp (h.symm.subset (List.mem_range.mpr hi))
  have hlen : (placeFlat m []).length = n := by
    apply Nat.le_antisymm
    · rw [placeFlat_eq]
      exact length_foldl_place_le hlt (Nat.zero_le n)
    · by_contra hshort
      obtain ⟨s, hs, hid⟩ := hfull _ (Nat.lt_of_not_le hshort)
      have := hslot s hs
      rw [hid, List.getElem?_eq_none le_rfl] at this
      simp at this
  have hsome : ∀ x ∈ placeFlat m [], x.isSome := by
    intro x hx
    obtain ⟨i, hi⟩ := List.mem_iff_getElem?.mp hx
    obtain ⟨s, hs, hid⟩ := hfull i (hlen ▸ (List.getElem?_eq_some_iff.mp hi).1)
    have := hslot s hs
    rw [hid, hi] at this
    rw [show x = some s from this]
    rfl
  obtain ⟨table, htable, hout⟩ := mapM_id_of_forall_isSome hsome
  refine ⟨table, htable, ?_, ?_⟩
  · rw [← hlen, hout, List.length_map]
  · intro s hs
    have := hslot s hs
    rw [hout, List.getElem?_map] at this
    rcases ht : table[s.flatId]? with _ | b
    · rw [ht] at this
      simp at this
    · rw [ht] at this
      exact this

/-! ### Closures resolve -/

theorem getElem?_retarget {code : List Instr} {i k : Nat} {w : Instr} {ids : List Nat}
    (hi : code[i]? = some w) (hw : w.opcode = .createClosure) (hk : w.imm16 = k + 1) :
    (code.map (retarget ids))[i]? = some (withIndex w (ids[k]?.getD 0)) := by
  rw [List.getElem?_map, hi, Option.map_some, retarget, if_pos hw, hk, closureIndex_succ]

/-- Numbering a tree of at most 65535 functions gives each of them a
number of its own, the numbers are those below the number of functions,
each function is found in the table at its number, and the table entry at
the index of a rewritten closure instruction is the nested function the
instruction named. -/
theorem flatten_resolves_closures [Inhabited α] (t : CompiledModule α) (h0 : t.flatId = 0)
    (hsize : t.modules.length ≤ 65535) :
    ((flattenSubmodules t).modules.map flatId).Perm
        (List.range (flattenSubmodules t).modules.length) ∧
      ∃ table, collectFlatModules (flattenSubmodules t) = some table ∧
        table.length = (flattenSubmodules t).modules.length ∧
        (∀ s ∈ (flattenSubmodules t).modules, table[s.flatId]? = some s) ∧
        ∀ p m, t.at? p = some m →
          ∃ m', (flattenSubmodules t).at? (t.home p) = some m' ∧ m'.rest = m.rest ∧
            m'.bytecode.length = m.bytecode.length ∧
            ∀ (i : Nat) (w : Instr) (k : Nat), m.bytecode[i]? = some w →
              w.opcode = .createClosure → w.imm16 = k + 1 → k < m.subModules.length →
              ∃ (w' : Instr) (c : CompiledModule α), m'.bytecode[i]? = some w' ∧
                w'.opcode = .createClosure ∧ w'.rd = w.rd ∧
                (flattenSubmodules t).at? (t.home (p ++ [k])) = some c ∧
                table[w'.imm16]? = some c := by
  have hperm := perm_ids_flatten h0
  have hlen := length_modules_flatten h0
  obtain ⟨table, htable, htlen, hat⟩ := collectFlatModules_of_perm hperm
  rw [hlen]
  refine ⟨hperm, table, htable, htlen, hat, fun p m hm => ?_⟩
  obtain ⟨m', n, hm', hn, -, hcode, hrest, -⟩ := flatten_at? h0 hm
  refine ⟨m', hm', hrest, by rw [hcode, List.length_map], fun i w k hi hw hk hlt => ?_⟩
  have hc : t.at? (p ++ [k]) = some (m.subModules[k]) := by
    rw [at?_append, hm]
    show m.at? [k] = _
    rw [at?_singleton, List.getElem?_eq_getElem hlt]
  obtain ⟨c', nc, hc', hnc, hid, -⟩ := flatten_at? h0 hc
  have hnum : c'.flatId = n.2 + k := by
    rw [number_child hm hn hlt, Option.some.injEq] at hnc
    rw [hid, ← hnc]
  have hmem := mem_modules_of_at? hc'
  have hsmall : c'.flatId < 2 ^ 16 := by
    have h1 : c'.flatId < t.nested + t.firstNumber :=
      List.mem_range.mp (hperm.subset (List.mem_map_of_mem hmem))
    have h2 : t.firstNumber ≤ 2 := by
      rw [firstNumber]
      split <;> omega
    rw [length_modules] at hsize
    omega
  refine ⟨withIndex w (n.2 + k), c', ?_, opcode_withIndex .., rd_withIndex .., hc', ?_⟩
  · rw [hcode, getElem?_retarget hi hw hk, List.getElem?_range' hlt, Nat.one_mul]
    rfl
  · rw [imm16_withIndex, ← hnum, Nat.mod_eq_of_lt hsmall]
    exact hat c' hmem

/-- A program that awaits at its top level, with two functions, the first
of which holds a third. -/
def awaitingTree : CompiledModule Nat where
  bytecode := [encode .createClosure 1 1 0, encode .createClosure 2 2 0]
  subModules :=
    [{ bytecode := [encode .createClosure 1 1 0], subModules := [{ rest := 3 }], rest := 1 },
      { rest := 2 }]
  isAsync := true
  rest := 0

theorem awaitingTree_resolves :
    awaitingTree.flatId = 0 ∧ awaitingTree.modules.length ≤ 65535 ∧
      ((flattenSubmodules awaitingTree).modules.map flatId).Perm
        (List.range (flattenSubmodules awaitingTree).modules.length) :=
  ⟨rfl, by decide, (flatten_resolves_closures awaitingTree rfl (by decide)).1⟩

end OxideJS.CompiledModule
