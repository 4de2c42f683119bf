import Mathlib.Data.List.Forall2
import Mathlib.Order.Lattice

/-!
Streams of self-delimiting frames.

A stream is a list of words. A frame is a head word and the words that
belong to it, and how many belong to it can be read off the head word and
the word right after it. Nothing else marks where a frame ends, so a
reader that is given one wrong count loses the rest of the stream.

Reading is total: a frame that the stream cuts short gets the words that
are left.
-/

namespace OxideJS.Framing

variable {α : Type*}

/-- A head word and the words that belong to it. -/
abbrev Frame (α : Type*) := α × List α

/-- The words of a list of frames, one after the other. -/
def unframe (fs : List (Frame α)) : List α :=
  fs.flatMap fun f => f.1 :: f.2

@[simp] theorem unframe_nil : unframe ([] : List (Frame α)) = [] := rfl

@[simp] theorem unframe_cons (f : Frame α) (fs : List (Frame α)) :
    unframe (f :: fs) = f.1 :: (f.2 ++ unframe fs) := rfl

variable (len : α → Option α → Nat)

/-- Reading with a bound on the number of frames, which the number of
words always is. -/
def framesUpTo : Nat → List α → List (Frame α)
  | 0, _ => []
  | _ + 1, [] => []
  | n + 1, w :: rest =>
    (w, rest.take (len w rest.head?)) :: framesUpTo n (rest.drop (len w rest.head?))

/-- The frames of a stream. -/
def frames (ws : List α) : List (Frame α) :=
  framesUpTo len ws.length ws

theorem framesUpTo_of_length_le {n : Nat} {ws : List α} (h : ws.length ≤ n) :
    framesUpTo len n ws = frames len ws := by
  suffices H : ∀ n m : Nat, ∀ ws : List α, ws.length ≤ n → ws.length ≤ m →
      framesUpTo len n ws = framesUpTo len m ws from H n _ ws h le_rfl
  intro n
  induction n with
  | zero =>
    intro m ws hn _
    obtain rfl : ws = [] := List.length_eq_zero_iff.mp (Nat.le_zero.mp hn)
    cases m <;> rfl
  | succ n ih =>
    intro m ws hn hm
    cases ws with
    | nil => cases m <;> rfl
    | cons w rest =>
      cases m with
      | zero => simp at hm
      | succ m =>
        have hlen : (rest.drop (len w rest.head?)).length ≤ rest.length := by
          simp only [List.length_drop]
          omega
        simp only [List.length_cons, Nat.add_le_add_iff_right] at hn hm
        simp only [framesUpTo]
        rw [ih m _ (hlen.trans hn) (hlen.trans hm)]

@[simp] theorem frames_nil : frames len ([] : List α) = [] := rfl

theorem frames_cons (w : α) (rest : List α) :
    frames len (w :: rest) =
      (w, rest.take (len w rest.head?)) :: frames len (rest.drop (len w rest.head?)) := by
  have hdrop : (rest.drop (len w rest.head?)).length ≤ rest.length := by
    simp only [List.length_drop]
    omega
  rw [← framesUpTo_of_length_le len hdrop]
  rfl

/-- Streams are read from the front, a frame at a time. -/
theorem frames_induction {motive : List α → Prop} (nil : motive [])
    (cons : ∀ w rest, motive (rest.drop (len w rest.head?)) → motive (w :: rest))
    (ws : List α) : motive ws := by
  induction h : ws.length using Nat.strongRecOn generalizing ws with
  | _ n ih =>
    cases ws with
    | nil => exact nil
    | cons w rest =>
      refine cons w rest (ih _ ?_ _ rfl)
      subst h
      simp only [List.length_drop, List.length_cons]
      omega

/-- Reading loses no word. -/
@[simp] theorem unframe_frames (ws : List α) : unframe (frames len ws) = ws := by
  induction ws using frames_induction len with
  | nil => rfl
  | cons w rest ih =>
    rw [frames_cons, unframe_cons, ih]
    simp only [List.take_append_drop]

/-- Every frame carries as many words as its head asks for, none of them
cut short. -/
def Intact : List (Frame α) → Prop
  | [] => True
  | f :: fs => len f.1 (f.2.head?.or (unframe fs).head?) = f.2.length ∧ Intact fs

/-- Frames that carry what their heads ask for are read back. -/
theorem frames_unframe {fs : List (Frame α)} (h : Intact len fs) :
    frames len (unframe fs) = fs := by
  induction fs with
  | nil => rfl
  | cons f fs ih =>
    have hlen : len f.1 (f.2 ++ unframe fs).head? = f.2.length := by
      rw [List.head?_append]
      exact h.1
    rw [unframe_cons, frames_cons, hlen, List.take_left, List.drop_left, ih h.2]

/-- Read back or not, the frames are the ones written as soon as the
words are. -/
theorem eq_of_unframe_eq {fs gs : List (Frame α)}
    (hlen : List.Forall₂ (fun f g => f.2.length = g.2.length) fs gs)
    (h : unframe fs = unframe gs) : fs = gs := by
  induction hlen with
  | nil => rfl
  | cons hfg _ ih =>
    rename_i f g fs gs
    rw [unframe_cons, unframe_cons, List.cons.injEq] at h
    obtain ⟨h1, h2⟩ := List.append_inj h.2 hfg
    rw [ih h2, Prod.ext h.1 h1]

/-- Replacing head words by head words that ask for the same number of
words leaves the reading as it was. A head that asks for nothing must do
so as well when the next head has been replaced. -/
theorem frames_map_head {g : α → α} (hlen : ∀ w h, len (g w) h = len w h)
    (hzero : ∀ w h, len w h = 0 → len w (h.map g) = 0) (ws : List α) :
    frames len (unframe ((frames len ws).map fun f => (g f.1, f.2))) =
      (frames len ws).map fun f => (g f.1, f.2) := by
  induction ws using frames_induction len with
  | nil => rfl
  | cons w rest ih =>
    rw [frames_cons, List.map_cons, unframe_cons]
    -- the words after the head: those of the frame, then the replaced rest
    generalize hr : unframe ((frames len (rest.drop (len w rest.head?))).map
      fun f => (g f.1, f.2)) = tail at ih ⊢
    have htail : rest.drop (len w rest.head?) = [] → tail = [] := by
      intro h
      rw [h] at hr
      exact hr.symm
    have hhead : ∀ x xs, rest.drop (len w rest.head?) = x :: xs → tail.head? = some (g x) := by
      intro x xs h
      rw [h, frames_cons] at hr
      rw [← hr]
      rfl
    show frames len (g w :: (rest.take (len w rest.head?) ++ tail)) = _
    have hcount : len (g w) (rest.take (len w rest.head?) ++ tail).head? =
        len w rest.head? := by
      rw [hlen]
      rcases hz : len w rest.head? with _ | k
      · rw [List.take_zero, List.nil_append]
        rw [hz, List.drop_zero] at htail hhead
        cases rest with
        | nil => rw [htail rfl]; exact hz
        | cons x xs => rw [hhead x xs rfl]; exact hzero w _ hz
      · cases rest with
        | nil =>
          rw [htail (List.drop_nil), List.take_nil, List.nil_append]
          exact hz
        | cons x xs => simpa using hz
    rw [frames_cons, hcount]
    rcases Nat.lt_or_ge rest.length (len w rest.head?) with hshort | hfull
    · have h0 : rest.drop (len w rest.head?) = [] := List.drop_eq_nil_of_le hshort.le
      rw [htail h0, List.append_nil, List.take_take, min_self, h0, frames_nil, List.map_nil,
        List.drop_eq_nil_of_le]
      · rfl
      · simp
    · have htake : (rest.take (len w rest.head?)).length = len w rest.head? := by
        rw [List.length_take, min_eq_left hfull]
      rw [List.take_append_of_le_length htake.ge, List.take_take, min_self,
        List.drop_append_of_le_length htake.ge, List.drop_eq_nil_of_le htake.le,
        List.nil_append, ih]

end OxideJS.Framing
