import OxideJS.Ir.Lower
import Mathlib.Tactic.FinCases

/-!
Reading lowered byte code back.

A reader of byte code knows nothing but the words. It takes a word, asks
it (and the one behind it) for the number of extension words, skips them
and takes the next. `lowerOwned_faithful_iff` says for which functions
this gives back the instructions that were written, with their operands
and extension words, up to the end of the code and with every jump
landing on the instruction its label stands before.

Counts and operands are narrowed on the way into the words without a
check, so the answer is not "whenever lowering succeeds".
-/

namespace OxideJS

open Framing

/-! ### Extension words as the constructors build them -/

/-- How the constructors of an opcode build its extension words. -/
inductive ExtKind where
  | fixed (n : Nat)
  | spread
  | template
  | templateObject
  | concat
  | object
  deriving DecidableEq

def OpCode.extKind (op : OpCode) : ExtKind :=
  if op.semantics.icExt then .fixed icExtWords
  else
    match op with
    | .call | .callNative | .newExpression | .superCall | .initPrivate | .defineAccessor
    | .defineAccessorDynamic | .definePropAttrs | .defineGlobalPropC | .defineGlobalPropCStrict
    | .defineGlobalPropCIfAbsent | .storeGlobalLex | .deletePropStatic | .deleteGlobalPropC
    | .restObject | .spill | .unspill => .fixed 1
    | .getPrivate | .setPrivate | .privateBrandIn | .defineAccessorAttrs
    | .defineAccessorAttrsDynamic | .brk | .cont | .ret => .fixed 2
    | .callSpread | .newExpressionSpread | .superCallSpread => .spread
    | .templateStr => .template
    | .getTemplateObject => .templateObject
    | .concatN => .concat
    | .newObject => .object
    | _ => .fixed 0

/-- An argument word is marked when it is a spread source. -/
def isSpreadWord (w : Nat) : Bool := w / 2 ^ 31 == 1

/-- The arguments of a call with spread sources, with their two counts in
front. -/
def spreadExt (words : List Nat) : List Nat :=
  let nspread := words.countP isSpreadWord
  let nstatic := words.length - nspread
  (nstatic ||| nspread <<< 8) % 2 ^ 32 :: words

/-- The parts of a template, with their number and a length in front. -/
def templateExt (segmentCount totalLenHint : Nat) (parts : List Nat) : List Nat :=
  (((segmentCount % 2 ^ 16) <<< 16) ||| totalLenHint % 2 ^ 16) :: parts

/-- The two texts of each part of a tagged template, with their number in
front and the number of the site behind. -/
def templateObjectExt (siteNo : Nat) (pairs : List (Nat × Nat)) : List Nat :=
  pairs.length :: (pairs.flatMap fun p => [p.1, p.2]) ++ [siteNo]

/-- The operands of a concatenation but the first, with the number of all
of them in front. -/
def concatExt (operands : List Nat) : List Nat :=
  operands.length :: operands.tail

/-- The extension words are 32-bit words that one of the constructors of
the opcode can have built. An object that is created without a table of
keys has neither a count nor extension words. -/
def Inst.ExtBuilt (i : Inst) : Prop :=
  (∀ w ∈ i.ext, w < 2 ^ 32) ∧
    match i.op.extKind with
    | .fixed n => i.ext.length = n
    | .spread => ∃ words, i.ext = spreadExt words
    | .template => ∃ segmentCount hint parts, i.ext = templateExt segmentCount hint parts
    | .templateObject => ∃ siteNo pairs, i.ext = templateObjectExt siteNo pairs
    | .concat => ∃ operands, operands ≠ [] ∧ i.ext = concatExt operands
    | .object => (∃ nprops, i.a = .imm nprops) ∨ i.a = .none ∧ i.ext = []

/-! ### Reading back -/

/-- A slot holds an operand. A label is never in a slot. -/
def SlotHolds : Operand → Nat → Prop
  | .reg r, n => n = r
  | .this, n => n = 254
  | .newTarget, n => n = 255
  | .imm v, n => n = v
  | .const idx, n => n = idx
  | .none, n => n = 0
  | .label _, _ => False

/-- An instruction read back: the opcode, the operands and the extension
words. The two last slots of a jump are its offset. -/
structure Recovers (i : Inst) (w : Frame Instr) : Prop where
  op : w.1.opcode = i.op
  ext : w.2.map UInt32.toNat = i.ext
  rd : SlotHolds i.rd w.1.rd
  ab : if i.op.isJump then i.a = .none else
    match i.a with
    | .const idx => w.1.imm16 = idx ∧ i.b = .none
    | .imm n => w.1.imm16 = n ∧ i.b = .none
    | a => SlotHolds a w.1.a ∧ SlotHolds i.b w.1.b

/-- Where the machine goes from a jump at `pc`: the program counter has
moved past the first word when the offset is added. -/
def jumpTarget (pc : Nat) (w : Instr) : Int := ((pc + 1 : Nat) : Int) + w.offset16 - 1

/-- Every jump, taken, goes to the first word of the instruction its label
stands before. -/
def JumpsLand (f : IRFunction) (code : List Instr) : Prop :=
  ∀ (j : Nat) (i : Inst), f.insts[j]? = some i → i.op.isJump →
    ∃ (label k : Nat) (w : Instr), i.b = .label label ∧ f.labelTarget label = some k ∧
      k < f.insts.length ∧ code[wordIndex f.insts j]? = some w ∧
      jumpTarget (wordIndex f.insts j) w = wordIndex f.insts k

/-- Byte code that is read back as the function it was made from. -/
structure Faithful (f : IRFunction) (code : List Instr) : Prop where
  intact : Intact extWords (decode code)
  recovers : List.Forall₂ Recovers f.insts (decode code)
  jumps : JumpsLand f code

/-! ### What fits -/

/-- The counts in the instruction and in its first extension word say how
many extension words there are. -/
def Inst.CountFits (i : Inst) : Prop :=
  match i.op.extKind with
  | .spread => i.ext.tail.countP isSpreadWord < 256 ∧
      i.ext.tail.length - i.ext.tail.countP isSpreadWord < 256
  | .template => i.ext.head?.getD 0 / 2 ^ 16 = i.ext.tail.length
  | .object =>
    match i.a with
    | .imm n => n % 256 = i.ext.length
    | _ => True
  | _ => True

/-- An operand fits into one byte. -/
def Operand.FitsByte : Operand → Prop
  | .reg r => r < 256
  | .imm n => n < 256
  | .const idx => idx < 256
  | .label _ => False
  | _ => True

/-- The operands fit into the slots they are written to. -/
def Inst.OperandsFit (i : Inst) : Prop :=
  if i.op.isJump then
    i.a = .none ∧
      match i.op with
      | .jmp | .tryBegin | .tryFinallyBegin => SlotHolds i.rd 0
      | _ => i.rd.FitsByte
  else
    i.rd.FitsByte ∧
      match i.a with
      | .const idx => idx < 2 ^ 16 ∧ i.b = .none
      | .imm n => n < 2 ^ 16 ∧ i.b = .none
      | a => a.FitsByte ∧ i.b.FitsByte

def Inst.Fits (i : Inst) : Prop := i.CountFits ∧ i.OperandsFit

/-! ### Counting -/

/-- The number of extension words an instruction asks for. -/
theorem extWords_eq (w : Instr) (h : Option Instr) :
    extWords w h =
      match w.opcode.extKind with
      | .fixed n => n
      | .spread => 1 + (h.getD 0).toNat % 256 + (h.getD 0).toNat / 2 ^ 8 % 256
      | .template => 1 + (h.getD 0).toNat / 2 ^ 16 % 2 ^ 16
      | .templateObject => 2 + 2 * (h.getD 0).toNat
      | .concat => (h.getD 0).toNat
      | .object => w.a := by
  rw [extWords]
  generalize w.opcode = op
  cases op <;> rfl

theorem toNat_header {i : Inst} (h : ∀ w ∈ i.ext, w < 2 ^ 32) {x : Nat} {xs : List Nat}
    (hx : i.ext = x :: xs) (next : Option Instr) :
    (((extWordsOf i).head?.or next).getD 0).toNat = x := by
  have hlt : x < 2 ^ 32 := h x (by rw [hx]; exact List.mem_cons_self)
  rw [extWordsOf, hx]
  show (UInt32.ofNat x).toNat = x
  rw [UInt32.toNat_ofNat', Nat.mod_eq_of_lt hlt]

theorem or_le_add (x y : Nat) : x ||| y ≤ x + y := by
  induction x using Nat.strongRecOn generalizing y with
  | _ x ih =>
    rcases Nat.eq_zero_or_pos x with rfl | hx
    · rw [Nat.zero_or, Nat.zero_add]
    · have hhalf := ih (x / 2) (by omega) (y / 2)
      have hdiv : (x ||| y) / 2 = x / 2 ||| y / 2 := Nat.or_div_two
      have hmod : (x ||| y) % 2 = x % 2 ||| y % 2 := Nat.or_mod_two_pow (n := 1)
      have hbit : x % 2 ||| y % 2 ≤ x % 2 + y % 2 := by
        rcases Nat.mod_two_eq_zero_or_one x with h | h <;>
          rcases Nat.mod_two_eq_zero_or_one y with h' | h' <;> rw [h, h'] <;> decide
      omega

/-- The two counts of a call with spread sources are read back just when
each fits into its byte. -/
theorem spread_counts_iff (nstatic nspread : Nat) :
    1 + ((nstatic ||| nspread <<< 8) % 2 ^ 32) % 256 +
          ((nstatic ||| nspread <<< 8) % 2 ^ 32) / 2 ^ 8 % 256 = nstatic + nspread + 1 ↔
      nspread < 256 ∧ nstatic < 256 := by
  have hlow : (nstatic ||| nspread <<< 8) % 2 ^ 8 = nstatic % 2 ^ 8 := by
    rw [Nat.or_mod_two_pow, Nat.shiftLeft_eq, Nat.mul_mod_left, Nat.or_zero]
  have hhigh : (nstatic ||| nspread <<< 8) / 2 ^ 8 = nstatic / 2 ^ 8 ||| nspread := by
    rw [← Nat.shiftRight_eq_div_pow, Nat.shiftRight_or_distrib, Nat.shiftLeft_shiftRight,
      Nat.shiftRight_eq_div_pow]
  rcases Nat.lt_or_ge nstatic 256 with hs | hs
  · rw [show nstatic / 2 ^ 8 = 0 from Nat.div_eq_of_lt hs, Nat.zero_or] at hhigh
    omega
  · -- bits of the first count fall into the byte of the second and are not counted in full
    have hle := or_le_add (nstatic / 2 ^ 8) nspread
    omega

/-- An instruction as lowering places it asks for its extension words just
when its counts fit. -/
theorem extWords_placed_iff {i : Inst} {w : Instr} (hext : i.ExtBuilt) (hop : w.opcode = i.op)
    (ha : i.op.extKind = .object → w.a = operandToU8 i.a % 256) (next : Option Instr) :
    extWords w ((extWordsOf i).head?.or next) = (extWordsOf i).length ↔ i.CountFits := by
  obtain ⟨hlt, hbuilt⟩ := hext
  rw [extWords_eq, hop, Inst.CountFits, length_extWordsOf]
  cases hkind : i.op.extKind with
  | fixed n =>
    rw [hkind] at hbuilt
    exact iff_of_true hbuilt.symm trivial
  | spread =>
    rw [hkind] at hbuilt
    obtain ⟨words, hwords⟩ := hbuilt
    have hcount := List.countP_le_length (p := isSpreadWord) (l := words)
    simp only [toNat_header hlt hwords, hwords, spreadExt, List.tail_cons, List.length_cons]
    rw [← spread_counts_iff]
    omega
  | template =>
    rw [hkind] at hbuilt
    obtain ⟨segmentCount, hint, parts, hparts⟩ := hbuilt
    rw [templateExt] at hparts
    generalize ((segmentCount % 2 ^ 16) <<< 16) ||| hint % 2 ^ 16 = x at hparts
    have hx : x < 2 ^ 32 := hlt x (by rw [hparts]; exact List.mem_cons_self)
    simp only [toNat_header hlt hparts, hparts, List.tail_cons, List.length_cons,
      List.head?_cons, Option.getD_some]
    omega
  | templateObject =>
    rw [hkind] at hbuilt
    obtain ⟨siteNo, pairs, hpairs⟩ := hbuilt
    have hflat : (pairs.flatMap fun p => [p.1, p.2]).length = 2 * pairs.length := by
      rw [List.length_flatMap]
      simp [Nat.mul_comm]
    simp only [toNat_header hlt hpairs, hpairs, templateObjectExt, List.cons_append,
      List.length_cons, List.length_append, hflat, List.length_nil, iff_true]
    omega
  | concat =>
    rw [hkind] at hbuilt
    obtain ⟨operands, hne, hoperands⟩ := hbuilt
    have hpos := List.length_pos_iff.mpr hne
    simp only [toNat_header hlt hoperands, hoperands, concatExt, List.length_cons,
      List.length_tail, iff_true]
    omega
  | object =>
    rw [hkind] at hbuilt
    obtain ⟨nprops, ha'⟩ | ⟨ha', hext⟩ := hbuilt
    · simp only [ha hkind, ha', operandToU8, Nat.mod_mod]
    · simp only [ha hkind, ha', hext, operandToU8, List.length_nil, Nat.zero_mod]

/-! ### Operands -/

theorem slotHolds_operandToU8_iff (o : Operand) : SlotHolds o (operandToU8 o) ↔ o.FitsByte := by
  cases o <;> simp only [SlotHolds, operandToU8, Operand.FitsByte] <;> omega

theorem operandToU8_lt (o : Operand) : operandToU8 o < 256 := by
  cases o <;> simp only [operandToU8] <;> omega

@[simp] theorem opcode_headWord (i : Inst) : (headWord i).opcode = i.op := by
  rw [headWord]
  split
  · unfold jumpWord
    split <;> rw [opcode_encode]
  · rw [opcode_encode]

@[simp] theorem opcode_withOffset (w : Instr) (offset : Int) :
    (withOffset w offset).opcode = w.opcode := by
  rw [withOffset, opcode_encode]

@[simp] theorem rd_withOffset (w : Instr) (offset : Int) : (withOffset w offset).rd = w.rd := by
  rw [withOffset, rd_encode, Instr.rd, Nat.mod_mod]

theorem offset16_withOffset (w : Instr) {offset : Int} (hlo : -2 ^ 15 ≤ offset)
    (hhi : offset < 2 ^ 15) : (withOffset w offset).offset16 = offset := by
  have himm : (withOffset w offset).imm16 = (offset % 2 ^ 16).toNat := by
    rw [withOffset, imm16_encode_split]
    omega
  rw [Instr.offset16, himm]
  split <;> omega

theorem map_toNat_extWordsOf {i : Inst} (h : ∀ w ∈ i.ext, w < 2 ^ 32) :
    (extWordsOf i).map UInt32.toNat = i.ext := by
  rw [extWordsOf, List.map_map]
  refine (List.map_congr_left fun w hw => ?_).trans (List.map_id _)
  show (UInt32.ofNat w).toNat = w
  rw [UInt32.toNat_ofNat', Nat.mod_eq_of_lt (h w hw)]

/-- The first slot of a jump. -/
theorem slotHolds_rd_jump_iff {i : Inst} (hj : i.op.isJump = true) :
    SlotHolds i.rd (headWord i).rd ↔
      match i.op with
      | .jmp | .tryBegin | .tryFinallyBegin => SlotHolds i.rd 0
      | _ => i.rd.FitsByte := by
  rw [headWord, if_pos hj]
  by_cases hop : i.op = .jmp ∨ i.op = .tryBegin ∨ i.op = .tryFinallyBegin
  · obtain hop | hop | hop := hop <;> simp [jumpWord, hop, rd_encode]
  · obtain ⟨h1, h2, h3⟩ := not_or.mp hop |>.imp_right not_or.mp
    simp [jumpWord, rd_encode, Nat.mod_eq_of_lt (operandToU8_lt _), slotHolds_operandToU8_iff]

/-- The two last slots of any other instruction. -/
theorem ab_headWord_iff {i : Inst} (hj : i.op.isJump = false) :
    (match i.a with
      | .const idx => (headWord i).imm16 = idx ∧ i.b = .none
      | .imm n => (headWord i).imm16 = n ∧ i.b = .none
      | a => SlotHolds a (headWord i).a ∧ SlotHolds i.b (headWord i).b) ↔
      match i.a with
      | .const idx => idx < 2 ^ 16 ∧ i.b = .none
      | .imm n => n < 2 ^ 16 ∧ i.b = .none
      | a => a.FitsByte ∧ i.b.FitsByte := by
  have hw : headWord i =
      encode i.op (operandToU8 i.rd) (operandPairToU8 i.a i.b).1 (operandPairToU8 i.a i.b).2 :=
    if_neg (by rw [hj]; exact Bool.false_ne_true)
  have hb := Nat.mod_eq_of_lt (operandToU8_lt i.b)
  rw [hw]
  cases ha : i.a
  case const idx =>
    simp only [operandPairToU8, imm16_encode]
    refine and_congr_left fun _ => ?_
    omega
  case imm n =>
    simp only [operandPairToU8, imm16_encode]
    refine and_congr_left fun _ => ?_
    omega
  all_goals
    simp only [operandPairToU8, a_encode, b_encode, hb, slotHolds_operandToU8_iff,
      Nat.mod_eq_of_lt (operandToU8_lt _)]

/-- An instruction as lowering places it is read back just when its
operands fit. -/
theorem recovers_placed_iff {f : IRFunction} {starts : List Nat} {pos : Nat} {i : Inst}
    {w : Frame Instr} (hplaced : PlacedAt f starts pos i w) (hlt : ∀ x ∈ i.ext, x < 2 ^ 32) :
    Recovers i w ↔ i.OperandsFit := by
  obtain ⟨hext, hhead⟩ := hplaced
  have hmap : w.2.map UInt32.toNat = i.ext := by rw [hext, map_toNat_extWordsOf hlt]
  rw [Inst.OperandsFit]
  cases hj : i.op.isJump with
  | true =>
    rw [if_pos rfl, ← slotHolds_rd_jump_iff hj]
    rw [if_pos hj] at hhead
    obtain ⟨k, t, -, -, -, -, hw⟩ := hhead
    constructor
    · rintro ⟨-, -, hrd, hab⟩
      rw [if_pos hj] at hab
      rw [hw, rd_withOffset] at hrd
      exact ⟨hab, hrd⟩
    · rintro ⟨hab, hrd⟩
      refine ⟨by rw [hw, opcode_withOffset, opcode_headWord], hmap, ?_, ?_⟩
      · rw [hw, rd_withOffset]
        exact hrd
      · rw [if_pos hj]
        exact hab
  | false =>
    have hj' : ¬ i.op.isJump = true := by rw [hj]; exact Bool.false_ne_true
    have hrd : SlotHolds i.rd (headWord i).rd ↔ i.rd.FitsByte := by
      rw [headWord, if_neg hj', rd_encode, Nat.mod_eq_of_lt (operandToU8_lt _),
        slotHolds_operandToU8_iff]
    rw [if_neg Bool.false_ne_true, ← hrd, ← ab_headWord_iff hj]
    rw [if_neg hj'] at hhead
    constructor
    · rintro ⟨-, -, hrd, hab⟩
      rw [if_neg hj'] at hab
      rw [hhead] at hrd hab
      exact ⟨hrd, hab⟩
    · rintro ⟨hrd, hab⟩
      refine ⟨by rw [hhead, opcode_headWord], hmap, by rw [hhead]; exact hrd, ?_⟩
      rw [if_neg hj', hhead]
      exact hab

/-- The byte a count of properties is read from. -/
theorem a_placed {f : IRFunction} {starts : List Nat} {pos : Nat} {i : Inst} {w : Frame Instr}
    (hplaced : PlacedAt f starts pos i w) (hkind : i.op.extKind = .object) :
    w.1.a = operandToU8 i.a % 256 := by
  have hj : ¬ i.op.isJump = true := by
    intro hj
    revert hkind
    revert hj
    generalize i.op = op
    cases op <;> simp [OpCode.isJump, OpCode.semantics, OpCode.extKind]
  have hhead := hplaced.2
  rw [if_neg hj] at hhead
  rw [hhead, headWord, if_neg hj, a_encode]
  cases i.a <;> rfl

theorem opcode_placed {f : IRFunction} {starts : List Nat} {pos : Nat} {i : Inst}
    {w : Frame Instr} (hplaced : PlacedAt f starts pos i w) : w.1.opcode = i.op := by
  have hhead := hplaced.2
  split at hhead
  · obtain ⟨k, t, -, -, -, -, hw⟩ := hhead
    rw [hw, opcode_withOffset, opcode_headWord]
  · rw [hhead, opcode_headWord]

/-! ### Whole functions -/

section Placed

variable {f : IRFunction} {starts : List Nat} {pos : Nat} {is : List Inst}
  {ws : List (Frame Instr)}

theorem Placed.recovers_iff (h : Placed f starts pos is ws) (hext : ∀ i ∈ is, i.ExtBuilt) :
    List.Forall₂ Recovers is ws ↔ ∀ i ∈ is, i.OperandsFit := by
  induction h with
  | nil => simp
  | @cons pos i is w ws head _ ih =>
    rw [List.forall₂_cons, recovers_placed_iff head (hext i List.mem_cons_self).1,
      ih fun x hx => hext x (List.mem_cons_of_mem i hx), List.forall_mem_cons]

theorem Placed.intact_iff (h : Placed f starts pos is ws) (hext : ∀ i ∈ is, i.ExtBuilt) :
    Intact extWords ws ↔ ∀ i ∈ is, i.CountFits := by
  induction h with
  | nil => simp [Intact]
  | @cons pos i is w ws head _ ih =>
    rw [Intact, ih fun x hx => hext x (List.mem_cons_of_mem i hx), List.forall_mem_cons, head.1,
      extWords_placed_iff (hext i List.mem_cons_self) (opcode_placed head) (a_placed head)]

/-- The frames that are read are those written as soon as they are read
with the extension words that were written. -/
theorem Placed.eq_of_recovers (h : Placed f starts pos is ws) {ws' : List (Frame Instr)}
    (hrec : List.Forall₂ Recovers is ws') (hwords : unframe ws' = unframe ws) : ws' = ws := by
  refine eq_of_unframe_eq ?_ hwords
  clear hwords
  induction h generalizing ws' with
  | nil =>
    cases hrec
    exact .nil
  | @cons pos i is w ws head _ ih =>
    cases hrec with
    | cons hi his =>
      refine .cons ?_ (ih his)
      rw [head.1, length_extWordsOf, ← hi.ext, List.length_map]

/-- A function is read back just when its counts and operands fit. -/
theorem Placed.decode_iff (h : Placed f starts pos is ws) (hext : ∀ i ∈ is, i.ExtBuilt) :
    (Intact extWords (decode (unframe ws)) ∧ List.Forall₂ Recovers is (decode (unframe ws))) ↔
      ∀ i ∈ is, i.Fits := by
  constructor
  · rintro ⟨hintact, hrec⟩
    have heq : decode (unframe ws) = ws := h.eq_of_recovers hrec (unframe_frames extWords _)
    rw [heq] at hintact hrec
    exact fun i hi => ⟨(h.intact_iff hext).mp hintact i hi, (h.recovers_iff hext).mp hrec i hi⟩
  · intro hfits
    have hintact := (h.intact_iff hext).mpr fun i hi => (hfits i hi).1
    rw [decode, frames_unframe extWords hintact]
    exact ⟨hintact, (h.recovers_iff hext).mpr fun i hi => (hfits i hi).2⟩

/-- The instruction at a position of the function stands at the word where
it starts. -/
theorem Placed.at_wordIndex (h : Placed f starts pos is ws) {j : Nat} {i : Inst}
    (hi : is[j]? = some i) :
    ∃ w, PlacedAt f starts (pos + wordIndex is j) i w ∧
      (unframe ws)[wordIndex is j]? = some w.1 := by
  induction h generalizing j with
  | nil => simp at hi
  | @cons pos x is w ws head _ ih =>
    cases j with
    | zero =>
      obtain rfl := Option.some.inj hi
      exact ⟨w, by simpa using head, by simp⟩
    | succ j =>
      obtain ⟨w', hplaced, hw'⟩ := ih hi
      refine ⟨w', by rw [wordIndex_succ, ← Nat.add_assoc]; exact hplaced, ?_⟩
      have hlen : (w.1 :: w.2).length = 1 + x.ext.length := by
        rw [List.length_cons, head.1, length_extWordsOf, Nat.add_comm]
      rw [unframe_cons, ← List.cons_append, wordIndex_succ,
        List.getElem?_append_right (by rw [hlen]; exact Nat.le_add_right ..), hlen,
        Nat.add_sub_cancel_left]
      exact hw'

end Placed

theorem jumpsLand_of_placed {f : IRFunction} {ws : List (Frame Instr)}
    (h : Placed f (startsFrom 0 f.insts) 0 f.insts ws)
    (hlabels : ∀ i ∈ f.insts, i.op.isJump → ∃ label, i.b = .label label) :
    JumpsLand f (unframe ws) := by
  intro j i hi hj
  obtain ⟨label, hb⟩ := hlabels i (List.mem_of_getElem? hi) hj
  obtain ⟨w, hplaced, hw⟩ := h.at_wordIndex hi
  have hhead := hplaced.2
  rw [if_pos hj] at hhead
  obtain ⟨k, t, hk, ht, hlo, hhi, hword⟩ := hhead
  rw [getElem?_startsFrom] at ht
  split at ht
  · rename_i hlt
    obtain rfl := Option.some.inj ht
    have htarget : f.labelTarget label = some k := by
      rw [← hk, Inst.target, hb]
      rfl
    refine ⟨label, k, w.1, hb, htarget, hlt, hw, ?_⟩
    rw [jumpTarget, hword, offset16_withOffset _ hlo hhi]
    push_cast
    omega
  · cases ht

/-- Byte code lowered from instructions whose extension words were built
by their constructors is read back as it was written, with every jump
landing on its label, just when no count and no operand was cut short. -/
theorem lowerOwned_faithful_iff {α : Type} (f : FunctionUnit α)
    (m : CompiledModule (LoweredData α)) (hext : ∀ i ∈ f.code.insts, i.ExtBuilt)
    (h : lowerOwned f = .ok m) :
    Faithful f.code m.bytecode ↔ ∀ i ∈ f.code.insts, i.Fits := by
  obtain ⟨-, hlabels, ws, hcode, hplaced⟩ := lowerCode_eq_ok (lowerOwned_bytecode h)
  rw [← hplaced.decode_iff hext, hcode]
  constructor
  · intro hf
    exact ⟨hf.intact, hf.recovers⟩
  · rintro ⟨hintact, hrec⟩
    exact ⟨hintact, hrec, jumpsLand_of_placed hplaced hlabels⟩

/-- A loop that ends when the call with one spread argument returns
something true. -/
def spreadLoop : FunctionUnit Unit where
  code := {
    insts := [
      { op := .callSpread, rd := .reg 1, a := .this, ext := spreadExt [2, 0x80000003] },
      { op := .jmpIfFalse, rd := .reg 0, b := .label 0 },
      { op := .halt }]
    labelPos := [some 0] }
  nRegisters := 4
  rest := ()

/-- Its byte code: the jump goes back four words. -/
def spreadLoopModule : CompiledModule (LoweredData Unit) where
  bytecode := [encode .callSpread 1 254 0, 0x00000101, 2, 0x80000003,
    encode .jmpIfFalse 0 0xFC 0xFF, encode .halt 0 0 0]
  rest := { constants := [], nRegisters := 4, rest := () }

theorem spreadLoop_extBuilt : ∀ i ∈ spreadLoop.code.insts, i.ExtBuilt := by
  intro i hi
  fin_cases hi
  · exact ⟨by decide, [2, 0x80000003], rfl⟩
  · exact ⟨by decide, rfl⟩
  · exact ⟨by decide, rfl⟩

theorem spreadLoop_faithful :
    lowerOwned spreadLoop = .ok spreadLoopModule ∧
      Faithful spreadLoop.code spreadLoopModule.bytecode := by
  have hlower : lowerOwned spreadLoop = .ok spreadLoopModule := by rfl
  refine ⟨hlower, (lowerOwned_faithful_iff _ _ spreadLoop_extBuilt hlower).mpr ?_⟩
  intro i hi
  fin_cases hi
  · exact ⟨⟨by decide, by decide⟩, show 1 < 256 by decide, trivial, trivial⟩
  · exact ⟨trivial, rfl, show 0 < 256 by decide⟩
  · exact ⟨trivial, trivial, trivial, trivial⟩

/-- A function that breaks out of 256 protected regions. -/
def deepBreak : FunctionUnit Unit where
  code := {
    insts := [{ op := .brk, rd := .imm 256, b := .label 0, ext := [0, 0] }, { op := .halt }]
    labelPos := [some 1] }
  rest := ()

/-- The number of regions it leaves is cut to zero in its byte code. -/
theorem deepBreak_not_faithful :
    (∀ i ∈ deepBreak.code.insts, i.ExtBuilt) ∧
      ∃ m, lowerOwned deepBreak = .ok m ∧ ¬ Faithful deepBreak.code m.bytecode := by
  constructor
  · intro i hi
    fin_cases hi
    · exact ⟨by decide, rfl⟩
    · exact ⟨by decide, rfl⟩
  · refine ⟨_, rfl, fun h => ?_⟩
    have hrec := h.recovers
    generalize decode _ = ws at hrec
    cases hrec with
    | @cons _ w _ _ hw _ =>
      have hrd : w.1.rd = 256 := hw.rd
      have hlt : w.1.rd < 256 := Nat.mod_lt _ (by decide)
      omega

end OxideJS
