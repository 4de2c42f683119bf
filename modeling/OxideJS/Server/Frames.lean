import Mathlib.Algebra.Order.BigOperators.Group.List
import Mathlib.Algebra.Order.Ring.Nat
import Mathlib.Data.List.TakeWhile
import OxideJS.Lib.Utf8
import OxideJS.Lib.Trimming

/-!
The frames of a server connection.

A frame is a line. The reader takes bytes from the stream in whatever chunks
it gets them, keeps what is behind a line for the next one and skips blank
lines. A line that has grown longer than the limit without an end is handed
out as far as it has come, and the connection is closed because the frame is
too large. Where that part is blank, or short once it is trimmed, nothing is
closed and the rest of the line becomes a frame of its own, unless it is blank
or no text.
-/

namespace OxideJS.Server

open Lib.Trimming

def maxFrameBytes : Nat := 1024 * 1024

def newline : Nat := 10

/-- What a read of the stream gives, until it is at its end. -/
inductive ReadEvent where
  | interrupted
  | chunk (bytes : List Nat)

/-- The bytes of the reads. -/
def bytesOf : List ReadEvent → List Nat
  | [] => []
  | .interrupted :: events => bytesOf events
  | .chunk bytes :: events => bytes ++ bytesOf events

structure FrameReader where
  inner : List ReadEvent
  pending : List Nat

def FrameReader.new (inner : List ReadEvent) : FrameReader := ⟨inner, []⟩

/-- The characters of bytes that are valid. -/
def fromUtf8 : List Nat → Option (List Char)
  | [] => some []
  | b :: bytes =>
    match Utf8.sequenceLen b with
    | none => none
    | some n =>
      match Utf8.decode (b :: bytes.take (n - 1)) with
      | none => none
      | some c => (fromUtf8 (bytes.drop (n - 1))).map (Char.ofNat c :: ·)
termination_by bytes => bytes.length
decreasing_by
  simp only [List.length_drop, List.length_cons]
  omega

/-- The first line that the pending bytes have with its end, or what there is of one that is
too long or at the end of the stream. -/
def takeLine : List ReadEvent → List Nat → Option (List Nat) × FrameReader
  | events, pending =>
    if newline ∈ pending then
      let pos := pending.idxOf newline
      (some (pending.take (pos + 1)), ⟨events, pending.drop (pos + 1)⟩)
    else if pending.length > maxFrameBytes then (some pending, ⟨events, []⟩)
    else
      match events with
      | [] => (if pending = [] then none else some pending, ⟨[], []⟩)
      | .interrupted :: events => takeLine events pending
      | .chunk bytes :: events => takeLine events (pending ++ bytes)

/-- What the reader still has in front of it. -/
def FrameReader.rest (r : FrameReader) : List Nat := r.pending ++ bytesOf r.inner

/-! ### Taking a line -/

/-- A part of the stream that is taken, in front of the rest: a line with its end, the last
line without one, or the start of a line that is too long. -/
inductive Taken : List Nat → List Nat → Prop
  | terminated {c rest : List Nat} : newline ∉ c → Taken (c ++ [newline]) rest
  | last {c rest : List Nat} : newline ∉ c → c ≠ [] → rest = [] → Taken c rest
  | cut {c rest : List Nat} : newline ∉ c → c.length > maxFrameBytes → Taken c rest

theorem taken_ne_nil {line rest : List Nat} (h : Taken line rest) : line ≠ [] := by
  cases h with
  | terminated hc => simp
  | last hc hne _ => exact hne
  | cut hc hlen =>
    rintro rfl
    simp at hlen

/-- The pending bytes up to the first end of a line. -/
theorem take_idxOf {l : List Nat} (h : newline ∈ l) :
    ∃ c rest, newline ∉ c ∧ l = c ++ newline :: rest ∧
      l.take (l.idxOf newline + 1) = c ++ [newline] ∧ l.drop (l.idxOf newline + 1) = rest := by
  induction l with
  | nil => cases h
  | cons b l ih =>
    by_cases hb : b = newline
    · subst hb
      exact ⟨[], l, by simp, rfl, by simp, by simp⟩
    · have hmem : newline ∈ l := (List.mem_cons.1 h).resolve_left (Ne.symm hb)
      obtain ⟨c, rest, hc, rfl, htake, hdrop⟩ := ih hmem
      refine ⟨b :: c, rest, ?_, rfl, ?_, ?_⟩
      · simp [hc, Ne.symm hb]
      · rw [List.idxOf_cons_ne _ hb, List.take_succ_cons, htake]
        rfl
      · rw [List.idxOf_cons_ne _ hb, List.drop_succ_cons, hdrop]

theorem takeLine_of_mem (events : List ReadEvent) {pending : List Nat} (h : newline ∈ pending) :
    takeLine events pending = (some (pending.take (pending.idxOf newline + 1)),
      ⟨events, pending.drop (pending.idxOf newline + 1)⟩) := by
  unfold takeLine
  rw [if_pos h]

theorem takeLine_of_long (events : List ReadEvent) {pending : List Nat} (h : newline ∉ pending)
    (hlen : pending.length > maxFrameBytes) :
    takeLine events pending = (some pending, ⟨events, []⟩) := by
  unfold takeLine
  rw [if_neg h, if_pos hlen]

theorem takeLine_interrupted (events : List ReadEvent) {pending : List Nat}
    (h : newline ∉ pending) (hlen : pending.length ≤ maxFrameBytes) :
    takeLine (.interrupted :: events) pending = takeLine events pending := by
  conv_lhs => unfold takeLine
  rw [if_neg h, if_neg (by omega)]

theorem takeLine_chunk (bytes : List Nat) (events : List ReadEvent) {pending : List Nat}
    (h : newline ∉ pending) (hlen : pending.length ≤ maxFrameBytes) :
    takeLine (.chunk bytes :: events) pending = takeLine events (pending ++ bytes) := by
  conv_lhs => unfold takeLine
  rw [if_neg h, if_neg (by omega)]

theorem takeLine_spec_mem (events : List ReadEvent) {pending : List Nat} (h : newline ∈ pending) :
    ∃ line, (takeLine events pending).1 = some line ∧
      pending ++ bytesOf events = line ++ (takeLine events pending).2.rest ∧
      Taken line (takeLine events pending).2.rest := by
  obtain ⟨c, rest, hc, hl, htake, hdrop⟩ := take_idxOf h
  rw [takeLine_of_mem events h, htake, hdrop]
  refine ⟨c ++ [newline], rfl, ?_, .terminated hc⟩
  rw [hl]
  simp [FrameReader.rest]

/-- Whatever the chunks, what is taken is the start of the stream. -/
theorem takeLine_spec (events : List ReadEvent) (pending : List Nat) :
    ((takeLine events pending).1 = none ∧ pending ++ bytesOf events = []) ∨
      ∃ line, (takeLine events pending).1 = some line ∧
        pending ++ bytesOf events = line ++ (takeLine events pending).2.rest ∧
        Taken line (takeLine events pending).2.rest := by
  induction events generalizing pending with
  | nil =>
    by_cases hmem : newline ∈ pending
    · exact .inr (takeLine_spec_mem [] hmem)
    · by_cases hlen : pending.length > maxFrameBytes
      · rw [takeLine_of_long [] hmem hlen]
        exact .inr ⟨pending, rfl, by simp [FrameReader.rest, bytesOf], .cut hmem hlen⟩
      · unfold takeLine
        rw [if_neg hmem, if_neg hlen]
        by_cases hnil : pending = []
        · subst hnil
          exact .inl ⟨rfl, rfl⟩
        · simp only [hnil, if_false]
          exact .inr ⟨pending, rfl, by simp [FrameReader.rest, bytesOf], .last hmem hnil rfl⟩
  | cons event events ih =>
    by_cases hmem : newline ∈ pending
    · exact .inr (takeLine_spec_mem _ hmem)
    · by_cases hlen : pending.length > maxFrameBytes
      · rw [takeLine_of_long _ hmem hlen]
        exact .inr ⟨pending, rfl, by simp [FrameReader.rest], .cut hmem hlen⟩
      · cases event with
        | interrupted =>
          rw [takeLine_interrupted events hmem (by omega)]
          exact ih pending
        | chunk bytes =>
          rw [takeLine_chunk bytes events hmem (by omega), bytesOf, ← List.append_assoc]
          exact ih (pending ++ bytes)

theorem takeLine_shorter {r : FrameReader} {line : List Nat}
    (h : (takeLine r.inner r.pending).1 = some line) :
    (takeLine r.inner r.pending).2.rest.length < r.rest.length := by
  rcases takeLine_spec r.inner r.pending with ⟨hnone, -⟩ | ⟨line', hline, hrest, htaken⟩
  · rw [hnone] at h
    cases h
  · have hne := taken_ne_nil htaken
    have hpos := List.length_pos_of_ne_nil hne
    change _ < (r.pending ++ bytesOf r.inner).length
    rw [hrest, List.length_append]
    omega

/-! ### Frames -/

def isBlankText (text : List Char) : Bool := trim isWhitespace text == []

inductive ReadResult where
  | eof
  | frame (line : List Nat)
  | invalidData
  deriving DecidableEq

/-- A line longer than the limit, its end not counted. -/
def TooLong (l : List Nat) : Prop := (l.takeWhile (· ≠ newline)).length > maxFrameBytes

instance (l : List Nat) : Decidable (TooLong l) := inferInstanceAs (Decidable (_ > _))

/-- What the frames of a stream should be: its lines without the blank ones, up to an invalid
line or to the first that is too long, of which there is a frame longer than the limit or an
error and nothing more. -/
def Faithful : List (List Nat) → List ReadResult → Prop
  | [], out => out = []
  | l :: ls, out =>
    if TooLong l then
      out = [.invalidData] ∨ ∃ p, p <+: l ∧ p.length > maxFrameBytes ∧ out = [.frame p]
    else
      match fromUtf8 l with
      | none => out = [.invalidData]
      | some text =>
        if isBlankText text then Faithful ls out
        else ∃ out', out = .frame l :: out' ∧ Faithful ls out'

/-! ### The parts of a stream -/

/-- The parts in which the stream is taken: its lines, where one that is too long may come in
several parts, as the reads cut it. -/
def FrameReader.parts (r : FrameReader) : List (List Nat) :=
  match _h : (takeLine r.inner r.pending).1 with
  | none => []
  | some line => line :: parts (takeLine r.inner r.pending).2
termination_by r.rest.length
decreasing_by exact takeLine_shorter _h

section Deliver

variable {p q : List Nat} {ps : List (List Nat)}

end Deliver

/-! ### What follows blanks is no start of them -/

section Blanks

variable (m : Nat)

end Blanks

end OxideJS.Server
