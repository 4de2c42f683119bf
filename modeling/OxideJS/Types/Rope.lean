import OxideJS.Lib.Utf16

/-!
Strings that are put together lazily.

A concatenation is a node with two children, which may be shared, and a
length that is computed from theirs when it is made. The units are gathered
when they are asked for, and kept at the node. Strings are named by their
place in the list of all strings; a program makes strings from strings it
has and asks for lengths and units in between.

What a string is for is told by the list of unit sequences beside it, where
a concatenation is `++`. The units always agree with it. The length has 32
bits, and wraps around.
-/

namespace OxideJS.Types.Rope

open Utf16

inductive Node where
  /-- a text, whose length is computed when it is first asked for -/
  | flat (text : List Char) (len : UInt32)
  | flatU16 (units : List UInt16) (len : UInt32)
  | cons (left right : Nat) (len : UInt32) (cache : Option (List UInt16))

/-- `UTF16_LEN_UNSET`. -/
def unset : UInt32 := 0xFFFFFFFF

/-- `utf16_len`. -/
def Node.utf16Len : Node → UInt32
  | flat text len => if len ≠ unset then len else UInt32.ofNat (text.flatMap units).length
  | flatU16 _ len => len
  | cons _ _ len _ => len

/-- The length is kept where it was computed. -/
def Node.cacheLen : Node → Node
  | flat text len => flat text (flat text len).utf16Len
  | n => n

abbrev Store := List Node

/-- `flatten_units`, with the stack of strings that are still to be
gathered. -/
def flattenUnits (s : Store) : Nat → List Nat → List UInt16 → Option (List UInt16)
  | _, [], buf => some buf
  | 0, _ :: _, _ => none
  | fuel + 1, id :: stack, buf =>
    match s[id]? with
    | some (.flat text _) => flattenUnits s fuel stack (buf ++ text.flatMap units)
    | some (.flatU16 us _) => flattenUnits s fuel stack (buf ++ us)
    | some (.cons left right _ _) => flattenUnits s fuel (left :: right :: stack) buf
    | none => none

/-- `units`: what was gathered before is used again. -/
def unitsOf (s : Store) (fuel id : Nat) : Option (List UInt16) :=
  match s[id]? with
  | some (.flat text _) => some (text.flatMap units)
  | some (.flatU16 us _) => some us
  | some (.cons _ _ _ (some us)) => some us
  | some (.cons _ _ _ none) => flattenUnits s fuel [id] []
  | none => none

inductive Op where
  | flat (text : List Char)
  | flatU16 (units : List UInt16)
  | cons (left right : Nat)
  | length (id : Nat)
  | units (id fuel : Nat)

def Node.keep (us : List UInt16) : Node → Node
  | cons left right len none => cons left right len (some us)
  | n => n

def step (s : Store) : Op → Store
  | .flat text => s ++ [.flat text unset]
  | .flatU16 us => s ++ [.flatU16 us (UInt32.ofNat us.length)]
  | .cons left right =>
    -- `new_cons`
    match s[left]?, s[right]? with
    | some a, some b =>
      (s.modify left Node.cacheLen).modify right Node.cacheLen ++
        [.cons left right (a.utf16Len + b.utf16Len) none]
    | _, _ => s
  | .length id => s.modify id Node.cacheLen
  | .units id fuel =>
    match unitsOf s fuel id with
    | some us => s.modify id (Node.keep us)
    | none => s

/-- The sequences that the strings stand for. -/
def denote (d : List (List UInt16)) : Op → List (List UInt16)
  | .flat text => d ++ [text.flatMap units]
  | .flatU16 us => d ++ [us]
  | .cons left right =>
    match d[left]?, d[right]? with
    | some a, some b => d ++ [a ++ b]
    | _, _ => d
  | _ => d

/-! ### Nodes and what they stand for -/

/-- The node with number `id` stands for `us`. -/
def Node.Holds (d : List (List UInt16)) (id : Nat) (us : List UInt16) : Node → Prop
  | flat text len => us = text.flatMap units ∧ (len = unset ∨ len = UInt32.ofNat us.length)
  | flatU16 vs len => us = vs ∧ len = UInt32.ofNat us.length
  | cons left right len cache =>
    (left < id ∧ right < id ∧ ∃ a b, d[left]? = some a ∧ d[right]? = some b ∧ us = a ++ b) ∧
      len = UInt32.ofNat us.length ∧ (cache = none ∨ cache = some us)

structure Wf (s : Store) (d : List (List UInt16)) : Prop where
  length : s.length = d.length
  node : ∀ id (n : Node) us, s[id]? = some n → d[id]? = some us → n.Holds d id us

section

variable {s : Store} {d : List (List UInt16)} {id : Nat} {n : Node} {us : List UInt16}

theorem Node.Holds.utf16Len (h : n.Holds d id us) : n.utf16Len = UInt32.ofNat us.length := by
  cases n with
  | flat text len =>
    obtain ⟨rfl, hlen⟩ := h
    rw [Node.utf16Len]
    split
    · next hset => exact hlen.resolve_left hset
    · rfl
  | flatU16 => exact h.2
  | cons => exact h.2.1

theorem Node.Holds.cacheLen (h : n.Holds d id us) : n.cacheLen.Holds d id us := by
  cases n with
  | flat text len => exact ⟨h.1, .inr h.utf16Len⟩
  | _ => exact h

theorem Node.Holds.keep (h : n.Holds d id us) : (n.keep us).Holds d id us := by
  cases n with
  | cons left right len cache =>
    cases cache with
    | none => exact ⟨h.1, h.2.1, .inr rfl⟩
    | some vs => exact h
  | _ => exact h

theorem getElem?_concat {α : Type} {xs : List α} {i : Nat} {a : α} (h : xs[i]? = some a) (b : α) :
    (xs ++ [b])[i]? = some a := by
  rw [List.getElem?_append_left (List.getElem?_eq_some_iff.1 h).1, h]

/-- A new string changes nothing about the others. -/
theorem Node.Holds.append (h : n.Holds d id us) (vs : List UInt16) : n.Holds (d ++ [vs]) id us := by
  cases n with
  | cons left right len cache =>
    obtain ⟨⟨hl, hr, a, b, ha, hb, hus⟩, hrest⟩ := h
    exact ⟨⟨hl, hr, a, b, getElem?_concat ha vs, getElem?_concat hb vs, hus⟩, hrest⟩
  | _ => exact h

/-! ### Runs -/

theorem Wf.modify (h : Wf s d) {f : Node → Node} (i : Nat)
    (hf : ∀ (n : Node) us, d[i]? = some us → n.Holds d i us → (f n).Holds d i us) :
    Wf (s.modify i f) d := by
  refine ⟨by rw [List.length_modify, h.length], fun id n us hn hus => ?_⟩
  rw [List.getElem?_modify] at hn
  obtain ⟨m, hm, rfl⟩ := Option.map_eq_some_iff.1 hn
  have hholds := h.node id m us hm hus
  split
  · next heq =>
    subst heq
    exact hf m us hus hholds
  · exact hholds

theorem Wf.cacheLen (h : Wf s d) (i : Nat) : Wf (s.modify i Node.cacheLen) d :=
  h.modify i fun _ _ _ hn => hn.cacheLen

theorem Wf.concat (h : Wf s d) (hn : n.Holds (d ++ [us]) d.length us) :
    Wf (s ++ [n]) (d ++ [us]) := by
  refine ⟨by simp [h.length], fun id m vs hm hvs => ?_⟩
  rcases Nat.lt_or_ge id s.length with hlt | hge
  · rw [List.getElem?_append_left hlt] at hm
    rw [List.getElem?_append_left (h.length ▸ hlt)] at hvs
    exact (h.node id m vs hm hvs).append us
  · obtain rfl : id = s.length := by
      have := (List.getElem?_eq_some_iff.1 hm).1
      rw [List.length_append, List.length_singleton] at this
      omega
    rw [List.getElem?_concat_length] at hm
    rw [h.length, List.getElem?_concat_length] at hvs
    obtain rfl := Option.some.inj hm
    obtain rfl := Option.some.inj hvs
    exact h.length ▸ hn

theorem Wf.exists_node (h : Wf s d) (hus : d[id]? = some us) :
    ∃ n, s[id]? = some n ∧ n.Holds d id us := by
  have hn := List.getElem?_eq_getElem (h.length ▸ (List.getElem?_eq_some_iff.1 hus).1)
  exact ⟨_, hn, h.node id _ us hn hus⟩

/-- The strings below a string are gathered, and then the rest of the
stack. -/
theorem Wf.flattenUnits (h : Wf s d) (hus : d[id]? = some us) :
    ∃ k, ∀ fuel stack buf, flattenUnits s (k + fuel) (id :: stack) buf =
      flattenUnits s fuel stack (buf ++ us) := by
  induction id using Nat.strong_induction_on generalizing us with
  | _ id ih =>
  obtain ⟨n, hn, hholds⟩ := h.exists_node hus
  cases n with
  | flat text len =>
    obtain ⟨rfl, -⟩ := hholds
    exact ⟨1, fun fuel stack buf => by rw [Nat.add_comm, Rope.flattenUnits, hn]⟩
  | flatU16 vs len =>
    obtain ⟨rfl, -⟩ := hholds
    exact ⟨1, fun fuel stack buf => by rw [Nat.add_comm, Rope.flattenUnits, hn]⟩
  | cons left right len cache =>
    obtain ⟨⟨hl, hr, a, b, ha, hb, rfl⟩, -⟩ := hholds
    obtain ⟨k, hk⟩ := ih left hl ha
    obtain ⟨l, hl⟩ := ih right hr hb
    refine ⟨k + l + 1, fun fuel stack buf => ?_⟩
    rw [show k + l + 1 + fuel = k + (l + fuel) + 1 by omega, Rope.flattenUnits, hn]
    dsimp only
    rw [hk, hl, List.append_assoc]

/-- With enough fuel the units are those the string stands for. -/
theorem Wf.unitsOf (h : Wf s d) (hus : d[id]? = some us) :
    ∃ k, ∀ fuel, k ≤ fuel → unitsOf s fuel id = some us := by
  obtain ⟨n, hn, hholds⟩ := h.exists_node hus
  unfold Rope.unitsOf
  rw [hn]
  cases n with
  | flat text len => exact ⟨0, fun _ _ => congrArg some hholds.1.symm⟩
  | flatU16 vs len => exact ⟨0, fun _ _ => congrArg some hholds.1.symm⟩
  | cons left right len cache =>
    cases cache with
    | some vs => exact ⟨0, fun _ _ => hholds.2.2.resolve_left nofun⟩
    | none =>
      obtain ⟨k, hk⟩ := h.flattenUnits hus
      refine ⟨k, fun fuel hfuel => ?_⟩
      obtain ⟨m, rfl⟩ := Nat.exists_eq_add_of_le hfuel
      exact (hk m [] []).trans (by cases m <;> rfl)

theorem flattenUnits_mono {fuel : Nat} {stack : List Nat} {buf vs : List UInt16}
    (h : flattenUnits s fuel stack buf = some vs) (k : Nat) :
    flattenUnits s (fuel + k) stack buf = some vs := by
  induction fuel generalizing stack buf with
  | zero =>
    cases stack with
    | nil => cases k <;> exact h
    | cons => exact nomatch h
  | succ fuel ih =>
    cases stack with
    | nil => rw [Nat.succ_add]; exact h
    | cons i stack =>
      rw [Nat.succ_add, flattenUnits]
      rw [flattenUnits] at h
      split <;> simp_all only [reduceCtorEq]

/-- Whatever comes out is right, with any fuel. -/
theorem Wf.eq_of_unitsOf (h : Wf s d) (hus : d[id]? = some us) {fuel : Nat} {vs : List UInt16}
    (hvs : Rope.unitsOf s fuel id = some vs) : vs = us := by
  obtain ⟨k, hk⟩ := h.unitsOf hus
  have hmono : Rope.unitsOf s (fuel + k) id = some vs := by
    unfold Rope.unitsOf at hvs ⊢
    split at hvs
    · exact hvs
    · exact hvs
    · exact hvs
    · exact flattenUnits_mono hvs k
    · exact hvs
  exact Option.some.inj (hmono.symm.trans (hk _ (Nat.le_add_left k fuel)))

theorem Wf.step (h : Wf s d) (op : Op) : Wf (step s op) (denote d op) := by
  cases op with
  | flat text => exact h.concat ⟨rfl, .inl rfl⟩
  | flatU16 us => exact h.concat ⟨rfl, rfl⟩
  | length id => exact h.cacheLen id
  | units id fuel =>
    show Wf (match Rope.unitsOf s fuel id with
      | some us => s.modify id (Node.keep us)
      | none => s) d
    split
    · next us hus =>
      refine h.modify id fun n vs hvs hn => ?_
      rw [h.eq_of_unitsOf hvs hus]
      exact hn.keep
    · exact h
  | cons left right =>
    simp only [Rope.step, denote]
    cases ha : d[left]? with
    | none =>
      have : s[left]? = none := List.getElem?_eq_none (h.length ▸ List.getElem?_eq_none_iff.1 ha)
      simpa only [this] using h
    | some a =>
    cases hb : d[right]? with
    | none =>
      have : s[right]? = none := List.getElem?_eq_none (h.length ▸ List.getElem?_eq_none_iff.1 hb)
      simp only [this]
      split <;> first | exact h | simp_all
    | some b =>
      obtain ⟨m, hm, hmholds⟩ := h.exists_node ha
      obtain ⟨n, hn, hnholds⟩ := h.exists_node hb
      have hl := (List.getElem?_eq_some_iff.1 ha).1
      have hr := (List.getElem?_eq_some_iff.1 hb).1
      rw [hm, hn]
      refine ((h.cacheLen left).cacheLen right).concat ?_
      refine ⟨⟨hl, hr, a, b, getElem?_concat ha _, getElem?_concat hb _, rfl⟩, ?_, .inl rfl⟩
      rw [hmholds.utf16Len, hnholds.utf16Len, List.length_append, UInt32.ofNat_add]

theorem Wf.run (h : Wf s d) (ops : List Op) : Wf (ops.foldl Rope.step s) (ops.foldl denote d) := by
  induction ops generalizing s d with
  | nil => exact h
  | cons op ops ih => exact ih (h.step op)

theorem Wf.nil : Wf [] [] := ⟨rfl, fun _ _ _ h => nomatch h⟩

end

/-! ### Lengths and units -/

/-- A string reports the length of what it stands for, and its units are
what it stands for. -/
def Reports (s : Store) (id : Nat) (us : List UInt16) : Prop :=
  (s[id]?.map fun n => n.utf16Len.toNat) = some us.length ∧
    ∃ k, ∀ fuel, k ≤ fuel → unitsOf s fuel id = some us

/-- After any run, exactly the strings shorter than `2 ^ 32` do. -/
theorem reports_iff (ops : List Op) {id : Nat} {us : List UInt16}
    (hus : (ops.foldl denote [])[id]? = some us) :
    Reports (ops.foldl step []) id us ↔ us.length < 2 ^ 32 := by
  have h := Wf.nil.run ops
  obtain ⟨n, hn, hholds⟩ := h.exists_node hus
  unfold Reports
  rw [hn, Option.map_some, hholds.utf16Len, UInt32.toNat_ofNat', Option.some.injEq,
    and_iff_left (h.unitsOf hus)]
  omega

/-- A concatenation of a text with itself. -/
theorem reports_shared :
    Reports ([Op.flat ['a', 'b'], .cons 0 0, .units 1 9].foldl step []) 1 [97, 98, 97, 98] :=
  (reports_iff [.flat ['a', 'b'], .cons 0 0, .units 1 9] rfl).2 (by decide)

/-- A unit, and a string that is doubled `n` times. -/
def doubling (n : Nat) : List Op := .flatU16 [0] :: (List.range n).map fun i => .cons i i

theorem denote_doubling (n : Nat) : (doubling n).foldl denote [] =
    (List.range (n + 1)).map fun k => List.replicate (2 ^ k) 0 := by
  induction n with
  | zero => rfl
  | succ n ih =>
    have hlast :
        (doubling n ++ [Op.cons n n]).foldl denote [] = (doubling (n + 1)).foldl denote [] := by
      rw [doubling, doubling, List.range_succ, List.map_append]
      rfl
    rw [← hlast, List.foldl_append, ih, List.foldl_cons, List.foldl_nil, denote, List.getElem?_map,
      List.getElem?_range (Nat.lt_succ_self n), List.range_succ (n := n + 1), List.map_append]
    simp only [Option.map_some, List.replicate_append_replicate, List.map_cons, List.map_nil,
      pow_succ, Nat.mul_two]

/-- A unit that is doubled 32 times reports the length zero. -/
theorem length_wraps_around : ∃ us : List UInt16,
    ((doubling 32).foldl denote [])[32]? = some us ∧ us.length = 2 ^ 32 ∧
      (((doubling 32).foldl step [])[32]?.map Node.utf16Len) = some 0 := by
  refine ⟨List.replicate (2 ^ 32) 0, ?_, List.length_replicate, by decide +kernel⟩
  rw [denote_doubling, List.getElem?_map, List.getElem?_range (by decide)]
  rfl

end OxideJS.Types.Rope
