import OxideJS.Ir.Inst
import OxideJS.Module.Tree

/-!
From the intermediate representation to byte code.

Lowering writes the instructions one after the other, each followed by
its extension words, and notes where each of them starts. Jumps are
written with an empty offset; when every start is known the offsets are
put in. Whatever does not fit into a jump offset, and a register beyond
the last one, is an error.
-/

namespace OxideJS

open Framing

/-- Why lowering refuses a function. -/
inductive LowerError where
  | tooManyConstants
  | tooManyRegisters
  | labelMissing (op : OpCode)
  | labelNotFound (label : Nat)
  | offsetOutOfRange
  deriving DecidableEq, Repr

/-- The names of the jumps, as they stand in an error message. -/
def OpCode.jumpName : OpCode → String
  | .jmp => "JMP"
  | .brk => "BREAK"
  | .cont => "CONTINUE"
  | .jmpIfFalse => "JMP_IF_FALSE"
  | .jmpIfTrue => "JMP_IF_TRUE"
  | .jmpIfNullish => "JMP_IF_NULLISH"
  | .tryBegin => "TRY_BEGIN"
  | .tryFinallyBegin => "TRY_FINALLY_BEGIN"
  | _ => ""

def LowerError.message : LowerError → String
  | .tooManyConstants => "RangeError: too many constants"
  | .tooManyRegisters => "RangeError: function body uses too many registers (max 253)"
  | .labelMissing op => "jump op " ++ op.jumpName ++ " requires Label operand in b slot"
  | .labelNotFound label => "Label " ++ toString label ++ " not found in bytecode map"
  | .offsetOutOfRange => "RangeError: jump offset out of range"

/-! ### Instructions -/

/-- The byte of an operand slot. -/
def operandToU8 : Operand → Nat
  | .reg r => r % 256
  | .this => 254
  | .newTarget => 255
  | .imm n => n % 256
  | .const idx => idx % 256
  | .label _ => 0
  | .none => 0

/-- The bytes of the two last slots. A constant or a number in the first
of them takes both. -/
def operandPairToU8 (a b : Operand) : Nat × Nat :=
  match a with
  | .const idx => (idx % 256, idx / 2 ^ 8 % 256)
  | .imm n => (n % 256, n / 2 ^ 8 % 256)
  | a => (operandToU8 a, operandToU8 b)

/-- The word of a jump with an empty offset. The plain jump and the two
that open a protected region have no use for the first slot. -/
def jumpWord (op : OpCode) (cond : Nat) : Instr :=
  match op with
  | .jmp | .tryBegin | .tryFinallyBegin => encode op 0 0 0
  | op => encode op cond 0 0

/-- What has been written so far: the words, where each instruction
starts, and the jumps that still need their offset, with their labels. -/
structure Layout where
  instrs : List Instr := []
  starts : List Nat := []
  jumps : List (Nat × Nat) := []

def extWordsOf (i : Inst) : List Instr := i.ext.map UInt32.ofNat

/-- Write one instruction. -/
def encodeInst (i : Inst) (l : Layout) : Except LowerError Layout :=
  if i.op.isJump then
    match i.b with
    | .label id =>
      let cond := operandToU8 i.rd
      .ok { l with
        instrs := l.instrs ++ jumpWord i.op cond :: extWordsOf i
        jumps := l.jumps ++ [(l.instrs.length, id)] }
    | _ => .error (.labelMissing i.op)
  else
    let ab := operandPairToU8 i.a i.b
    .ok { l with
      instrs := l.instrs ++ encode i.op (operandToU8 i.rd) ab.1 ab.2 :: extWordsOf i }

/-- Write a list of instructions. -/
def layout : List Inst → Layout → Except LowerError Layout
  | [], l => .ok l
  | i :: is, l => do
    let l' ← encodeInst i { l with starts := l.starts ++ [l.instrs.length] }
    layout is l'

/-- A word with an offset in its two last bytes. -/
def withOffset (w : Instr) (offset : Int) : Instr :=
  let bits := (offset % 2 ^ 16).toNat
  encode w.opcode w.rd bits (bits / 2 ^ 8)

/-- Put the offset into one jump. -/
def patch (f : IRFunction) (starts : List Nat) (instrs : List Instr) (jump : Nat × Nat) :
    Except LowerError (List Instr) :=
  match f.labelTarget jump.2 with
  | none => .error (.labelNotFound jump.2)
  | some targetInst =>
    match starts[targetInst]? with
    | none => .error (.labelNotFound jump.2)
    | some targetInstr =>
      let offset : Int := targetInstr - jump.1
      if offset < -2 ^ 15 ∨ 2 ^ 15 - 1 < offset then .error .offsetOutOfRange
      else .ok (instrs.set jump.1 (withOffset (instrs[jump.1]?.getD 0) offset))

/-- Put the offsets into all jumps. -/
def patchAll (f : IRFunction) (starts : List Nat) :
    List (Nat × Nat) → List Instr → Except LowerError (List Instr)
  | [], instrs => .ok instrs
  | jump :: jumps, instrs => do
    let instrs' ← patch f starts instrs jump
    patchAll f starts jumps instrs'

/-- The registers beyond the last one. -/
def Operand.isHighReg : Operand → Bool
  | .reg r => 253 < r
  | _ => false

/-- The byte code of a function that needs `nRegisters` registers. -/
def lowerCode (f : IRFunction) (nRegisters : Nat) : Except LowerError (List Instr) :=
  if f.constOverflow || 65535 < f.constants.length then .error .tooManyConstants
  else if f.insts.any fun i => i.rd.isHighReg || i.a.isHighReg || i.b.isHighReg then
    .error .tooManyRegisters
  else if 254 < nRegisters then .error .tooManyRegisters
  else do
    let l ← layout f.insts {}
    patchAll f l.starts l.jumps l.instrs

/-- A function with those nested in it. `rest` stands for the fields that
are handed on unread. -/
structure FunctionUnit (α : Type) where
  code : IRFunction
  nRegisters : Nat := 0
  nested : List (FunctionUnit α) := []
  isAsync : Bool := false
  rest : α

/-- The fields of a compiled function that come from its code, with those
handed on unread. -/
structure LoweredData (α : Type) where
  constants : List Constant
  nRegisters : Nat
  rest : α

variable {α : Type}

mutual

/-- Lower a function and those nested in it. -/
def lowerOwned : FunctionUnit α → Except LowerError (CompiledModule (LoweredData α))
  | ⟨code, nRegisters, nested, isAsync, rest⟩ => do
    let bytecode ← lowerCode code nRegisters
    let subModules ← lowerAll nested
    return {
      bytecode := bytecode
      subModules := subModules
      isAsync := isAsync
      rest := { constants := code.constants, nRegisters := nRegisters % 256, rest := rest } }

def lowerAll : List (FunctionUnit α) → Except LowerError (List (CompiledModule (LoweredData α)))
  | [] => return []
  | f :: fs => do
    let m ← lowerOwned f
    let ms ← lowerAll fs
    return m :: ms

end

/-! ### What lowering writes -/

theorem except_bind_eq_ok {ε β γ : Type} {x : Except ε β} {g : β → Except ε γ} {c : γ} :
    (x >>= g) = .ok c ↔ ∃ b, x = .ok b ∧ g b = .ok c := by
  constructor
  · intro h
    cases x with
    | error e => cases h
    | ok b => exact ⟨b, rfl, h⟩
  · rintro ⟨b, rfl, hg⟩
    exact hg

theorem lowerOwned_bytecode {f : FunctionUnit α} {m : CompiledModule (LoweredData α)}
    (h : lowerOwned f = .ok m) : lowerCode f.code f.nRegisters = .ok m.bytecode := by
  cases f
  rw [lowerOwned, except_bind_eq_ok] at h
  obtain ⟨bytecode, hcode, h⟩ := h
  rw [except_bind_eq_ok] at h
  obtain ⟨subs, -, h⟩ := h
  obtain rfl := Except.ok.inj h
  exact hcode

/-- The first word of an instruction, before offsets are put in. -/
def headWord (i : Inst) : Instr :=
  if i.op.isJump then jumpWord i.op (operandToU8 i.rd)
  else encode i.op (operandToU8 i.rd) (operandPairToU8 i.a i.b).1 (operandPairToU8 i.a i.b).2

/-- The number of words before an instruction. -/
def wordIndex (insts : List Inst) (j : Nat) : Nat :=
  ((insts.take j).map fun i => 1 + i.ext.length).sum

@[simp] theorem wordIndex_zero (insts : List Inst) : wordIndex insts 0 = 0 := by
  simp [wordIndex]

@[simp] theorem wordIndex_succ (i : Inst) (insts : List Inst) (j : Nat) :
    wordIndex (i :: insts) (j + 1) = 1 + i.ext.length + wordIndex insts j := by
  simp [wordIndex]

/-- Where instructions start when the first one starts at `pos`. -/
def startsFrom (pos : Nat) : List Inst → List Nat
  | [] => []
  | i :: is => pos :: startsFrom (pos + (1 + i.ext.length)) is

theorem getElem?_startsFrom (pos : Nat) (insts : List Inst) (j : Nat) :
    (startsFrom pos insts)[j]? =
      if j < insts.length then some (pos + wordIndex insts j) else none := by
  induction insts generalizing pos j with
  | nil => simp [startsFrom]
  | cons i is ih =>
    cases j with
    | zero => simp [startsFrom]
    | succ j =>
      simp only [startsFrom, List.getElem?_cons_succ, ih, List.length_cons,
        Nat.add_lt_add_iff_right, wordIndex_succ, Nat.add_assoc]

/-- The jumps of a list of instructions that starts at `pos`. -/
def jumpsFrom (pos : Nat) : List Inst → List (Nat × Nat)
  | [] => []
  | i :: is =>
    (if i.op.isJump then [(pos, i.target.getD 0)] else []) ++
      jumpsFrom (pos + (1 + i.ext.length)) is

@[simp] theorem length_extWordsOf (i : Inst) : (extWordsOf i).length = i.ext.length :=
  List.length_map ..

/-- The frames of a list of instructions, before offsets are put in. -/
def blankFrames (insts : List Inst) : List (Frame Instr) :=
  insts.map fun i => (headWord i, extWordsOf i)

theorem encodeInst_eq_ok {i : Inst} {l l' : Layout} (h : encodeInst i l = .ok l') :
    l' = { l with
      instrs := l.instrs ++ headWord i :: extWordsOf i
      jumps := l.jumps ++ if i.op.isJump then [(l.instrs.length, i.target.getD 0)] else [] } ∧
      (i.op.isJump → ∃ label, i.b = .label label) := by
  rw [encodeInst] at h
  split at h
  · rename_i hj
    split at h
    · rename_i id hb
      obtain rfl := Except.ok.inj h
      refine ⟨?_, fun _ => ⟨id, hb⟩⟩
      simp only [headWord, hj, if_true, Inst.target, hb, Option.getD_some]
    · cases h
  · rename_i hj
    obtain rfl := Except.ok.inj h
    refine ⟨?_, fun h => absurd h hj⟩
    simp only [headWord, hj, Bool.false_eq_true, if_false, List.append_nil]

theorem layout_eq_ok {insts : List Inst} {l l' : Layout} (h : layout insts l = .ok l') :
    l'.instrs = l.instrs ++ unframe (blankFrames insts) ∧
      l'.starts = l.starts ++ startsFrom l.instrs.length insts ∧
      l'.jumps = l.jumps ++ jumpsFrom l.instrs.length insts ∧
      ∀ i ∈ insts, i.op.isJump → ∃ label, i.b = .label label := by
  induction insts generalizing l with
  | nil =>
    obtain rfl := Except.ok.inj h
    simp [blankFrames, startsFrom, jumpsFrom]
  | cons i is ih =>
    rw [layout, except_bind_eq_ok] at h
    obtain ⟨l₁, hi, h⟩ := h
    obtain ⟨rfl, hlabel⟩ := encodeInst_eq_ok hi
    obtain ⟨hinstrs, hstarts, hjumps, hlabels⟩ := ih h
    refine ⟨?_, ?_, ?_, ?_⟩
    · simp [hinstrs, blankFrames]
    · simp [hstarts, startsFrom, Nat.add_comm, Nat.add_left_comm]
    · simp [hjumps, jumpsFrom, Nat.add_comm, Nat.add_left_comm]
    · simpa using ⟨hlabel, hlabels⟩

/-- An instruction as it stands in the byte code at a position: a jump has
the distance to the start of the instruction its label stands before. -/
def PlacedAt (f : IRFunction) (starts : List Nat) (pos : Nat) (i : Inst) (w : Frame Instr) : Prop :=
  w.2 = extWordsOf i ∧
    if i.op.isJump then
      ∃ k t, f.labelTarget (i.target.getD 0) = some k ∧ starts[k]? = some t ∧
        -2 ^ 15 ≤ (t : Int) - pos ∧ (t : Int) - pos < 2 ^ 15 ∧
        w.1 = withOffset (headWord i) ((t : Int) - pos)
    else w.1 = headWord i

/-- A list of instructions as it stands in the byte code. -/
inductive Placed (f : IRFunction) (starts : List Nat) : Nat → List Inst → List (Frame Instr) → Prop
  | nil (pos : Nat) : Placed f starts pos [] []
  | cons {pos : Nat} {i : Inst} {is : List Inst} {w : Frame Instr} {ws : List (Frame Instr)}
      (head : PlacedAt f starts pos i w)
      (tail : Placed f starts (pos + (1 + i.ext.length)) is ws) :
      Placed f starts pos (i :: is) (w :: ws)

theorem patch_eq_ok {f : IRFunction} {starts : List Nat} {instrs instrs' : List Instr}
    {pos label : Nat} (h : patch f starts instrs (pos, label) = .ok instrs') :
    ∃ k t, f.labelTarget label = some k ∧ starts[k]? = some t ∧
      -2 ^ 15 ≤ (t : Int) - pos ∧ (t : Int) - pos < 2 ^ 15 ∧
      instrs' = instrs.set pos (withOffset (instrs[pos]?.getD 0) ((t : Int) - pos)) := by
  rw [patch] at h
  split at h
  · cases h
  · rename_i k hk
    split at h
    · cases h
    · rename_i t ht
      simp only at h
      split at h
      · cases h
      · rename_i hrange
        obtain rfl := Except.ok.inj h
        exact ⟨k, t, hk, ht, by omega, by omega, rfl⟩

/-- Patching from a position on leaves what stands before it and puts the
offset into each jump behind it. -/
theorem patchAll_eq_ok {f : IRFunction} {starts : List Nat} {is : List Inst} (done : List Instr)
    {code : List Instr}
    (h : patchAll f starts (jumpsFrom done.length is) (done ++ unframe (blankFrames is)) =
      .ok code) :
    ∃ ws, code = done ++ unframe ws ∧ Placed f starts done.length is ws := by
  induction is generalizing done with
  | nil =>
    obtain rfl := Except.ok.inj h
    exact ⟨[], rfl, .nil _⟩
  | cons i is ih =>
    -- the instruction with its final first word joins the words that are done
    have step : ∀ w : Instr,
        patchAll f starts (jumpsFrom (done.length + (1 + i.ext.length)) is)
          (done ++ w :: (extWordsOf i ++ unframe (blankFrames is))) = .ok code →
        PlacedAt f starts done.length i (w, extWordsOf i) →
        ∃ ws, code = done ++ unframe ws ∧ Placed f starts done.length (i :: is) ws := by
      intro w hw hplaced
      have hlen : (done ++ w :: extWordsOf i).length = done.length + (1 + i.ext.length) := by
        simp [Nat.add_comm]
      have happ : done ++ w :: (extWordsOf i ++ unframe (blankFrames is)) =
          (done ++ w :: extWordsOf i) ++ unframe (blankFrames is) := by simp
      rw [happ, ← hlen] at hw
      obtain ⟨ws, hcode, hws⟩ := ih _ hw
      rw [hlen] at hws
      exact ⟨(w, extWordsOf i) :: ws, by simp [hcode], .cons hplaced hws⟩
    rw [jumpsFrom] at h
    change patchAll f starts _ (done ++ headWord i :: (extWordsOf i ++ unframe (blankFrames is))) =
      _ at h
    by_cases hj : i.op.isJump
    · rw [if_pos hj, List.singleton_append, patchAll, except_bind_eq_ok] at h
      obtain ⟨instrs', hpatch, h⟩ := h
      obtain ⟨k, t, hk, ht, hlo, hhi, rfl⟩ := patch_eq_ok hpatch
      have hget : (done ++ headWord i :: (extWordsOf i ++ unframe (blankFrames is)))[done.length]? =
          some (headWord i) := by simp
      rw [hget, Option.getD_some, List.set_append_right _ _ le_rfl, Nat.sub_self,
        List.set_cons_zero] at h
      refine step _ h ⟨rfl, ?_⟩
      rw [if_pos hj]
      exact ⟨k, t, hk, ht, hlo, hhi, rfl⟩
    · rw [if_neg hj, List.nil_append] at h
      refine step _ h ⟨rfl, ?_⟩
      rw [if_neg hj]

/-- What lowering makes of a function it accepts. -/
theorem lowerCode_eq_ok {f : IRFunction} {n : Nat} {code : List Instr}
    (h : lowerCode f n = .ok code) :
    (∀ i ∈ f.insts, i.rd.isHighReg = false ∧ i.a.isHighReg = false ∧ i.b.isHighReg = false) ∧
      (∀ i ∈ f.insts, i.op.isJump → ∃ label, i.b = .label label) ∧
      ∃ ws, code = unframe ws ∧ Placed f (startsFrom 0 f.insts) 0 f.insts ws := by
  rw [lowerCode] at h
  split at h
  · cases h
  split at h
  · cases h
  rename_i hregs
  split at h
  · cases h
  rw [except_bind_eq_ok] at h
  obtain ⟨l, hl, h⟩ := h
  obtain ⟨hinstrs, hstarts, hjumps, hlabels⟩ := layout_eq_ok hl
  refine ⟨?_, hlabels, ?_⟩
  · simpa [and_assoc] using hregs
  · simp only [List.nil_append, List.length_nil] at hinstrs hstarts hjumps
    rw [hinstrs, hstarts, hjumps] at h
    obtain ⟨ws, hcode, hws⟩ := patchAll_eq_ok [] h
    exact ⟨ws, hcode, hws⟩

end OxideJS
