import OxideJS.Module.Flatten

/-!
What the numbering pass leaves alone.

The pass looks at every word of a function's byte code and takes each one
with the right low byte for a closure instruction. An extension word has
no opcode: its low byte is part of a string length, a register, a
constant index or a count, and when it happens to be that of a closure
instruction the pass rewrites the upper half of the word. A rewritten
count makes every reader lose the rest of the function.

`closuresOnly_iff` says exactly when nothing but the indices of closure
instructions changes.
-/

namespace OxideJS

open Framing

/-! ### Words that look like closure instructions -/

theorem OpCode.byte_of_ofByte {v : Nat} {op : OpCode} (h : OpCode.ofByte v = some op) :
    op.byte = v := by
  simpa using List.find?_some h

theorem Instr.byte_of_opcode {w : Instr} {op : OpCode} (h : w.opcode = op) (hop : op ≠ .nop) :
    w.toNat % 256 = op.byte := by
  rw [Instr.opcode] at h
  rcases hv : OpCode.ofByte (w.toNat % 256) with _ | op'
  · rw [hv] at h
    exact absurd h.symm hop
  · rw [hv] at h
    obtain rfl : op' = op := h
    exact (OpCode.byte_of_ofByte hv).symm

namespace CompiledModule

theorem withIndex_eq_self_iff {w : Instr} (hw : w.opcode = .createClosure) (n : Nat) :
    withIndex w n = w ↔ n % 2 ^ 16 = w.imm16 := by
  constructor
  · intro h
    rw [← imm16_withIndex w, h]
  · intro h
    apply UInt32.toNat_inj.mp
    have hop := (opcode_withIndex w n).trans hw.symm
    rw [toNat_eq_fields (withIndex w n), toNat_eq_fields w, imm16_withIndex, rd_withIndex, h,
      Instr.byte_of_opcode (opcode_withIndex w n) (by decide), Instr.byte_of_opcode hw (by decide)]

/-- The pass leaves a word alone when it does not look like a closure
instruction, or when the number it puts there is there already. -/
theorem retarget_eq_self_iff (ids : List Nat) (w : Instr) :
    retarget ids w = w ↔
      (w.opcode = .createClosure → closureIndex ids w.imm16 % 2 ^ 16 = w.imm16) := by
  rw [retarget]
  split
  · rename_i hw
    rw [withIndex_eq_self_iff hw]
    exact ⟨fun h _ => h, fun h => h hw⟩
  · rename_i hw
    exact ⟨fun _ h => absurd h hw, fun _ => rfl⟩

@[simp] theorem opcode_retarget (ids : List Nat) (w : Instr) :
    (retarget ids w).opcode = w.opcode := by
  rw [retarget]
  split
  · rename_i hw
    rw [opcode_withIndex, hw]
  · rfl

/-! ### One function -/

/-- The pass never changes how many extension words an instruction asks
for. -/
theorem extWords_retarget (ids : List Nat) (w : Instr) (h : Option Instr) :
    extWords (retarget ids w) h = extWords w h := by
  by_cases hw : w.opcode = .createClosure
  · rw [extWords, extWords, opcode_retarget, hw]
  · rw [retarget, if_neg hw]

theorem retarget_zero (ids : List Nat) : retarget ids 0 = 0 :=
  if_neg (by decide)

/-- An instruction without extension words has none after the word that
follows it went through the pass. -/
theorem extWords_map_retarget (ids : List Nat) (w : Instr) (h : Option Instr)
    (h0 : extWords w h = 0) : extWords w (h.map (retarget ids)) = 0 := by
  -- only the operand count of a concatenation reads zero words off a header
  have hheader : (h.getD 0).toNat = 0 → ((h.map (retarget ids)).getD 0).toNat = 0 := by
    intro hz
    cases h with
    | none => rfl
    | some x =>
      obtain rfl : x = 0 := UInt32.toNat_inj.mp hz
      rw [Option.map_some, retarget_zero]
      rfl
  simp only [extWords] at h0 ⊢
  split at h0
  · exact absurd h0 (by decide)
  · rename_i hic
    rw [if_neg hic]
    split at h0 <;> omega

/-- An instruction as the pass should leave it: the same, with the same
extension words, but for the index of a closure instruction. -/
def Kept (number : Nat → Nat) (f f' : Frame Instr) : Prop :=
  f'.2 = f.2 ∧
    if f.1.opcode = .createClosure then
      f'.1.opcode = .createClosure ∧ f'.1.rd = f.1.rd ∧ f'.1.imm16 = number f.1.imm16
    else f'.1 = f.1

/-- The pass leaves an instruction in order: the number fits into the
index field, and no extension word is taken for a closure instruction. -/
def InOrder (number : Nat → Nat) (f : Frame Instr) : Prop :=
  (f.1.opcode = .createClosure → number f.1.imm16 < 2 ^ 16) ∧
    ∀ x ∈ f.2, x.opcode = .createClosure → number x.imm16 % 2 ^ 16 = x.imm16

theorem kept_of_inOrder {ids : List Nat} {f : Frame Instr} (h : InOrder (closureIndex ids) f) :
    Kept (closureIndex ids) f (retarget ids f.1, f.2) := by
  refine ⟨rfl, ?_⟩
  split
  · rename_i hw
    rw [retarget, if_pos hw]
    exact ⟨opcode_withIndex .., rd_withIndex .., by rw [imm16_withIndex, Nat.mod_eq_of_lt (h.1 hw)]⟩
  · rename_i hw
    exact if_neg hw

theorem inOrder_of_kept {ids : List Nat} {f f' : Frame Instr} (h : Kept (closureIndex ids) f f')
    (hext : f'.2 = f.2.map (retarget ids)) : InOrder (closureIndex ids) f := by
  constructor
  · intro hop
    have himm := h.2
    rw [if_pos hop] at himm
    rw [← himm.2.2]
    exact f'.1.imm16_lt
  · intro x hx
    have hmap : f.2.map (retarget ids) = f.2 := by rw [← hext, h.1]
    rw [← retarget_eq_self_iff]
    exact List.map_inj_left.mp (hmap.trans (List.map_id f.2).symm) x hx

/-- The frames before and after, compared word by word. -/
theorem inOrder_of_forall₂_kept {ids : List Nat} {fs fs' : List (Frame Instr)}
    (h : List.Forall₂ (Kept (closureIndex ids)) fs fs')
    (hwords : (unframe fs).map (retarget ids) = unframe fs') :
    ∀ f ∈ fs, InOrder (closureIndex ids) f := by
  induction h with
  | nil => simp
  | @cons f f' fs fs' hf _ ih =>
    rw [unframe_cons, unframe_cons, List.map_cons, List.map_append, List.cons.injEq] at hwords
    have hlen : (f.2.map (retarget ids)).length = f'.2.length := by
      rw [List.length_map, hf.1]
    obtain ⟨hext, hrest⟩ := List.append_inj hwords.2 hlen
    intro g hg
    rcases List.mem_cons.mp hg with rfl | hg
    · exact inOrder_of_kept hf hext.symm
    · exact ih hrest g hg

theorem unframe_map_of_inOrder {ids : List Nat} {fs : List (Frame Instr)}
    (h : ∀ f ∈ fs, InOrder (closureIndex ids) f) :
    (unframe fs).map (retarget ids) = unframe (fs.map fun f => (retarget ids f.1, f.2)) := by
  induction fs with
  | nil => rfl
  | cons f fs ih =>
    have hext : f.2.map (retarget ids) = f.2.map id := List.map_congr_left fun x hx =>
      (retarget_eq_self_iff ids x).mpr ((h f List.mem_cons_self).2 x hx)
    rw [List.map_cons, unframe_cons, unframe_cons, List.map_cons, List.map_append, hext,
      List.map_id, ih fun g hg => h g (List.mem_cons_of_mem f hg)]

/-- The pass over one function keeps everything but the indices of its
closure instructions just when it leaves each instruction in order. -/
theorem forall₂_kept_iff (ids : List Nat) (code : List Instr) :
    List.Forall₂ (Kept (closureIndex ids)) (decode code) (decode (code.map (retarget ids))) ↔
      ∀ f ∈ decode code, InOrder (closureIndex ids) f := by
  constructor
  · intro h
    refine inOrder_of_forall₂_kept h ?_
    rw [decode, decode, unframe_frames, unframe_frames]
  · intro h
    have hwords := unframe_map_of_inOrder h
    rw [decode, unframe_frames] at hwords
    rw [hwords, decode, decode,
      frames_map_head extWords (extWords_retarget ids) (extWords_map_retarget ids),
      List.forall₂_map_right_iff, List.forall₂_same]
    exact fun f hf => kept_of_inOrder (h f hf)

/-! ### The whole tree -/

variable {α : Type} [Inhabited α]

/-- The number, in the numbered tree, of the nested function at a
position counted from one below a path; zero when there is none. -/
def childNumber (t : CompiledModule α) (p : List Nat) (rel : Nat) : Nat :=
  if 0 < rel then
    (((flattenSubmodules t).at? (t.home (p ++ [rel - 1]))).map flatId).getD 0
  else 0

/-- After the pass, every function of the tree decodes to the same
instructions with the same extension words, but for the indices of its
closure instructions, which are the numbers of the functions named. -/
def ClosuresOnly (t : CompiledModule α) : Prop :=
  ∀ p m, t.at? p = some m →
    ∃ m', (flattenSubmodules t).at? (t.home p) = some m' ∧
      List.Forall₂ (Kept (t.childNumber p)) (decode m.bytecode) (decode m'.bytecode)

omit [Inhabited α] in
/-- The place in the numbering of the nested function at a position
counted from one below a path: directly nested functions are counted
before those nested in them, and earlier siblings with all that is nested
in them before later ones. -/
def childPlace (t : CompiledModule α) (p : List Nat) (rel : Nat) : Nat :=
  if 0 < rel then ((t.number (p ++ [rel - 1])).map Prod.fst).getD 0 else 0

/-- No closure instruction names a function whose place does not fit into
sixteen bits, and every extension word with the low byte of a closure
instruction has zero in its upper half, or the place of the function it
would name. -/
def Undisturbed (t : CompiledModule α) : Prop :=
  ∀ p m, t.at? p = some m → ∀ f ∈ decode m.bytecode, InOrder (t.childPlace p) f

omit [Inhabited α] in
theorem closureIndex_range' {t m : CompiledModule α} {p : List Nat} {n : Nat × Nat}
    (hm : t.at? p = some m) (hn : t.number p = some n) :
    closureIndex (List.range' n.2 m.subModules.length) = t.childPlace p := by
  funext rel
  rw [closureIndex, childPlace]
  split
  · rw [number_append hm hn, numberAt]
    rcases Nat.lt_or_ge (rel - 1) m.subModules.length with hk | hk
    · rw [List.getElem?_range' hk, List.getElem?_eq_getElem hk, Nat.one_mul]
      rfl
    · rw [List.getElem?_eq_none hk, List.getElem?_eq_none (by rw [List.length_range']; exact hk)]
      rfl
  · rfl

theorem childNumber_eq {t : CompiledModule α} (h0 : t.flatId = 0) (p : List Nat) :
    t.childNumber p = t.childPlace p := by
  funext rel
  rw [childNumber, childPlace, flatId_at?_home h0]

/-- One function of the tree. -/
theorem closuresOnly_at?_iff {t m : CompiledModule α} {p : List Nat} (h0 : t.flatId = 0)
    (hm : t.at? p = some m) :
    (∃ m', (flattenSubmodules t).at? (t.home p) = some m' ∧
      List.Forall₂ (Kept (t.childNumber p)) (decode m.bytecode) (decode m'.bytecode)) ↔
      ∀ f ∈ decode m.bytecode, InOrder (t.childPlace p) f := by
  obtain ⟨m', n, hm', hn, -, hcode, -⟩ := flatten_at? h0 hm
  rw [childNumber_eq h0, ← closureIndex_range' hm hn, ← forall₂_kept_iff, ← hcode, hm']
  exact ⟨fun ⟨_, h, hk⟩ => Option.some.inj h ▸ hk, fun hk => ⟨m', rfl, hk⟩⟩

/-- Numbering a tree changes nothing but the indices of its closure
instructions just when no extension word is taken for one and every index
fits into its field. -/
theorem closuresOnly_iff (t : CompiledModule α) (h0 : t.flatId = 0) :
    t.ClosuresOnly ↔ t.Undisturbed :=
  forall_congr' fun _ => forall_congr' fun _ => forall_congr' fun hm => closuresOnly_at?_iff h0 hm

/-- A closure made from the only nested function, whose own code calls
with one spread argument. -/
def spreadInClosure : CompiledModule Unit where
  bytecode := [encode .createClosure 1 1 0, encode .halt 0 0 0]
  subModules := [{ bytecode := [encode .callSpread 1 0 0, 0x00000100, 0x80000002], rest := () }]
  rest := ()

theorem spreadInClosure_closuresOnly : spreadInClosure.flatId = 0 ∧
    (spreadInClosure.ClosuresOnly ↔ spreadInClosure.Undisturbed) :=
  ⟨rfl, closuresOnly_iff spreadInClosure rfl⟩

/-- A template with one inserted value, 74 units of text and no nested
function: the word that counts its three segments ends in the byte of a
closure instruction. -/
def seventyFourUnits : CompiledModule Unit where
  bytecode := [encode .templateStr 1 0 0, 0x0003004A, 0, 0x80000002, 1, encode .halt 0 0 0]
  rest := ()

/-- Numbering the one function of that program sets the count to zero. -/
theorem seventyFourUnits_disturbed :
    ¬ seventyFourUnits.ClosuresOnly ∧
      (flattenSubmodules seventyFourUnits).bytecode[1]? = some 0x0000004A := by
  refine ⟨fun h => ?_, by decide +kernel⟩
  have horder := (closuresOnly_at?_iff (p := []) rfl rfl).mp (h [] _ rfl)
    (encode .templateStr 1 0 0, [0x0003004A, 0, 0x80000002, 1]) (by decide +kernel)
  exact absurd (horder.2 0x0003004A (by decide) (by decide +kernel)) (by decide +kernel)

end CompiledModule

end OxideJS
