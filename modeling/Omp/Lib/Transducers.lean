import Mathlib.Data.List.Infix

/-!
# Streams that are read in pieces

A transducer reads symbols one by one and writes some at each.  A reader is given its input in
pieces: it turns each piece into symbols with a transducer, appends these to a buffer and takes from
it all that is ended by a separator.  What it takes does not depend on how the input was cut, also
where a piece ends inside of a separator.

## Main definitions

* `Transducer`, `Transducer.run`, `Transducer.comp` : transducers, and one after the other.
* `cut`, `frames` : what stands before a separator, once and as often as there is one.
* `Transducer.reader` : the reader.

## Main results

* `frames_append` : frames can be taken before all of the input is there.
* `Transducer.run_reader` : the reader takes the frames of the whole input.
-/

namespace Lib

/-- What reads symbols, and writes some at each. -/
structure Transducer (σ α β : Type) where
  /-- The next state, and what is written. -/
  step : σ → α → σ × List β

namespace Transducer

variable {σ τ α β γ : Type}

/-- The state after a word, and what was written. -/
def run (T : Transducer σ α β) (s : σ) : List α → σ × List β
  | [] => (s, [])
  | a :: w => ((T.run (T.step s a).1 w).1, (T.step s a).2 ++ (T.run (T.step s a).1 w).2)

@[simp] theorem run_nil (T : Transducer σ α β) (s : σ) : T.run s [] = (s, []) := rfl

theorem run_cons {T : Transducer σ α β} {s s' : σ} {a : α} {out : List β}
    (h : T.step s a = (s', out)) (w : List α) :
    T.run s (a :: w) = ((T.run s' w).1, out ++ (T.run s' w).2) := by
  rw [run, h]

theorem run_append (T : Transducer σ α β) (s : σ) (v w : List α) :
    T.run s (v ++ w) =
      ((T.run (T.run s v).1 w).1, (T.run s v).2 ++ (T.run (T.run s v).1 w).2) := by
  induction v generalizing s with
  | nil => rfl
  | cons a v ih => simp [run, ih]

/-- What one transducer writes is read by another. -/
def comp (T : Transducer σ α β) (U : Transducer τ β γ) : Transducer (σ × τ) α γ where
  step s a := (((T.step s.1 a).1, (U.run s.2 (T.step s.1 a).2).1),
    (U.run s.2 (T.step s.1 a).2).2)

theorem run_comp (T : Transducer σ α β) (U : Transducer τ β γ) (s : σ × τ) (w : List α) :
    (T.comp U).run s w =
      (((T.run s.1 w).1, (U.run s.2 (T.run s.1 w).2).1), (U.run s.2 (T.run s.1 w).2).2) := by
  induction w generalizing s with
  | nil => rfl
  | cons a w ih =>
    rw [run, ih, run, run_append]
    rfl

end Transducer

/-! ### Frames -/

section Frames

variable {α : Type} [DecidableEq α]

/-- What stands before the first occurrence of a separator, and what comes after it. -/
def cut (sep : List α) : List α → Option (List α × List α)
  | [] => none
  | a :: l =>
    if sep.isPrefixOf (a :: l) then some ([], (a :: l).drop sep.length)
    else (cut sep l).map fun p => (a :: p.1, p.2)

/-- At most so many frames, and the rest. -/
def framesWithin (sep : List α) : Nat → List α → List (List α) × List α
  | 0, buf => ([], buf)
  | n + 1, buf => match cut sep buf with
    | none => ([], buf)
    | some (frame, rest) =>
      (frame :: (framesWithin sep n rest).1, (framesWithin sep n rest).2)

/-- All frames that are ended by a separator, and the rest. -/
def frames (sep buf : List α) : List (List α) × List α := framesWithin sep buf.length buf

variable {sep l frame rest : List α}

theorem eq_of_cut (h : cut sep l = some (frame, rest)) : l = frame ++ (sep ++ rest) := by
  induction l generalizing frame with
  | nil => cases h
  | cons a l ih =>
    rw [cut] at h
    split_ifs at h with hpre
    · cases h
      obtain ⟨t, ht⟩ := List.isPrefixOf_iff_prefix.1 hpre
      rw [← ht, List.drop_left, List.nil_append]
    · obtain ⟨⟨f, r⟩, hp, heq⟩ := Option.map_eq_some_iff.1 h
      cases heq
      rw [ih hp, List.cons_append]

/-- **What has been cut is cut in the same way when more follows.** -/
theorem cut_append (h : cut sep l = some (frame, rest)) (more : List α) :
    cut sep (l ++ more) = some (frame, rest ++ more) := by
  induction l generalizing frame with
  | nil => cases h
  | cons a l ih =>
    rw [cut] at h
    rw [List.cons_append, cut, ← List.cons_append]
    split_ifs at h with hpre
    · cases h
      have hpre' := List.isPrefixOf_iff_prefix.1 hpre
      rw [if_pos (List.isPrefixOf_iff_prefix.2 (hpre'.trans (List.prefix_append _ _))),
        List.drop_append_of_le_length hpre'.length_le]
    · obtain ⟨⟨f, r⟩, hp, heq⟩ := Option.map_eq_some_iff.1 h
      cases heq
      -- the separator ends before what follows, so it does not begin here either
      have hlength : sep.length ≤ (a :: l).length := by
        rw [eq_of_cut hp]
        simp only [List.length_cons, List.length_append]
        omega
      have hnot : ¬ sep.isPrefixOf (a :: l ++ more) = true := fun hlong =>
        hpre (List.isPrefixOf_iff_prefix.2 (List.prefix_of_prefix_length_le
          (List.isPrefixOf_iff_prefix.1 hlong) (List.prefix_append _ _) hlength))
      rw [if_neg hnot, ih hp]
      rfl

/-- A frame without the first symbol of the separator. -/
theorem cut_frame {a : α} {s : List α} (h : a ∉ frame) (rest : List α) :
    cut (a :: s) (frame ++ (a :: s ++ rest)) = some (frame, rest) := by
  induction frame with
  | nil =>
    rw [List.nil_append, List.cons_append, cut, ← List.cons_append,
      if_pos (List.isPrefixOf_iff_prefix.2 (List.prefix_append _ _)), List.drop_left]
  | cons b frame ih =>
    obtain ⟨hne, hmem⟩ := not_or.1 (List.mem_cons.not.1 h)
    rw [List.cons_append, cut, ih hmem, if_neg]
    · rfl
    · simp [List.isPrefixOf, hne]

theorem framesWithin_of_le (hsep : sep ≠ []) {n m : Nat} (hn : l.length ≤ n) (hm : l.length ≤ m) :
    framesWithin sep n l = framesWithin sep m l := by
  induction n generalizing l m with
  | zero =>
    obtain rfl := List.eq_nil_of_length_eq_zero (Nat.le_zero.1 hn)
    cases m <;> rfl
  | succ n ih =>
    cases m with
    | zero =>
      obtain rfl := List.eq_nil_of_length_eq_zero (Nat.le_zero.1 hm)
      rfl
    | succ m =>
      rw [framesWithin, framesWithin]
      cases h : cut sep l with
      | none => rfl
      | some p =>
        have hlength := congrArg List.length (eq_of_cut h)
        have hpos := List.length_pos_iff.2 hsep
        simp only [List.length_append] at hlength
        have hrest : framesWithin sep n p.2 = framesWithin sep m p.2 :=
          ih (by omega) (by omega)
        dsimp only
        rw [hrest]

theorem frames_of_none (h : cut sep l = none) : frames sep l = ([], l) := by
  unfold frames
  cases hl : l.length with
  | zero => rfl
  | succ n => rw [framesWithin, h]

theorem frames_of_some (hsep : sep ≠ []) (h : cut sep l = some (frame, rest)) :
    frames sep l = (frame :: (frames sep rest).1, (frames sep rest).2) := by
  have hlength := congrArg List.length (eq_of_cut h)
  have hpos := List.length_pos_iff.2 hsep
  simp only [List.length_append] at hlength
  obtain ⟨n, hn⟩ : ∃ n, l.length = n + 1 := ⟨l.length - 1, by omega⟩
  have hrest : framesWithin sep n rest = frames sep rest :=
    framesWithin_of_le hsep (by omega) (le_refl _)
  rw [frames, hn, framesWithin, h]
  dsimp only
  rw [hrest]

/-- **Frames can be taken before all of the input is there.** -/
theorem frames_append (hsep : sep ≠ []) (l more : List α) :
    frames sep (l ++ more) = ((frames sep l).1 ++ (frames sep ((frames sep l).2 ++ more)).1,
      (frames sep ((frames sep l).2 ++ more)).2) := by
  induction hn : l.length using Nat.strong_induction_on generalizing l with
  | _ n ih =>
    cases h : cut sep l with
    | none => simp [frames_of_none h]
    | some p =>
      have hlength := congrArg List.length (eq_of_cut h)
      have hpos := List.length_pos_iff.2 hsep
      simp only [List.length_append] at hlength
      rw [frames_of_some hsep h, frames_of_some hsep (cut_append h more),
        ih p.2.length (by omega) p.2 rfl]
      rfl

/-- There is no separator in what is left. -/
theorem cut_frames (hsep : sep ≠ []) (l : List α) : cut sep (frames sep l).2 = none := by
  induction hn : l.length using Nat.strong_induction_on generalizing l with
  | _ n ih =>
    cases h : cut sep l with
    | none => rwa [frames_of_none h]
    | some p =>
      have hlength := congrArg List.length (eq_of_cut h)
      have hpos := List.length_pos_iff.2 hsep
      simp only [List.length_append] at hlength
      rw [frames_of_some hsep h]
      exact ih p.2.length (by omega) p.2 rfl

/-- A frame with its separator. -/
theorem frames_frame {a : α} {s : List α} (h : a ∉ frame) (rest : List α) :
    frames (a :: s) (frame ++ (a :: s ++ rest)) =
      (frame :: (frames (a :: s) rest).1, (frames (a :: s) rest).2) :=
  frames_of_some (List.cons_ne_nil _ _) (cut_frame h rest)

end Frames

/-! ### Readers -/

namespace Transducer

variable {σ α β : Type} [DecidableEq β]

/-- Each piece is turned into symbols, which are appended to the buffer, and the frames that are
ended by then are taken from it. -/
def reader (T : Transducer σ α β) (sep : List β) :
    Transducer (σ × List β) (List α) (List β) where
  step s piece :=
    (((T.run s.1 piece).1, (frames sep (s.2 ++ (T.run s.1 piece).2)).2),
      (frames sep (s.2 ++ (T.run s.1 piece).2)).1)

theorem reader_step (T : Transducer σ α β) (sep : List β) (s : σ × List β) (piece : List α) :
    (T.reader sep).step s piece =
      (((T.run s.1 piece).1, (frames sep (s.2 ++ (T.run s.1 piece).2)).2),
        (frames sep (s.2 ++ (T.run s.1 piece).2)).1) := rfl

/-- **The reader takes the frames of the whole input**, however it was cut. -/
theorem run_reader (T : Transducer σ α β) {sep : List β} (hsep : sep ≠ []) (s : σ)
    (pieces : List (List α)) :
    (T.reader sep).run (s, []) pieces = (((T.run s pieces.flatten).1,
      (frames sep (T.run s pieces.flatten).2).2), (frames sep (T.run s pieces.flatten).2).1) := by
  -- what is kept between pieces holds no separator
  have hrun : ∀ (pieces : List (List α)) (s : σ) (buf : List β), cut sep buf = none →
      (T.reader sep).run (s, buf) pieces = (((T.run s pieces.flatten).1,
        (frames sep (buf ++ (T.run s pieces.flatten).2)).2),
        (frames sep (buf ++ (T.run s pieces.flatten).2)).1) := by
    intro pieces
    induction pieces with
    | nil =>
      intro s buf hbuf
      simp [frames_of_none hbuf]
    | cons piece pieces ih =>
      intro s buf hbuf
      rw [run, reader_step, ih _ _ (cut_frames hsep _), List.flatten_cons, run_append,
        ← List.append_assoc, frames_append hsep (buf ++ (T.run s piece).2)]
  exact hrun pieces s [] rfl

end Transducer

end Lib
