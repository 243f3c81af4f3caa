import Mathlib.Data.List.Basic

/-!
# Runs that differ in what an observer must not see

A machine takes steps one after the other, and may show something at each.  An observer sees part
of what is shown.  That certain steps do not interfere with what the observer sees is a statement
about two runs: with these steps, and without them.

It follows from a relation between the states of the two runs that is kept by the steps both take,
which then show the observer the same, and by the steps that only the first takes, which then show
nothing.

## Main definitions

* `Reactor`, `Reactor.trace`, `Reactor.after` : a machine, what a list of steps shows, and the
  state it leads to.
* `Reactor.Meets` : the steps of a run meet a condition, each in the state it is taken in.
* `Reactor.Unwinding` : the relation.

## Main results

* `Reactor.Unwinding.trace_eq` : the two runs show the observer the same.
-/

namespace Lib

/-- A machine that takes steps, and may show something at each. -/
structure Reactor (σ L ω : Type) where
  /-- What a step leads to, and what it shows. -/
  step : σ → L → σ × Option ω

namespace Reactor

variable {σ L ω : Type} (M : Reactor σ L ω)

/-- What the steps of a run show, in order. -/
def trace : σ → List L → List ω
  | _, [] => []
  | s, l :: ls => (M.step s l).2.toList ++ trace (M.step s l).1 ls

/-- The state that a run leads to. -/
def after : σ → List L → σ
  | s, [] => s
  | s, l :: ls => after (M.step s l).1 ls

/-- Every step of a run meets the condition in the state it is taken in. -/
def Meets (Q : σ → L → Prop) : σ → List L → Prop
  | _, [] => True
  | s, l :: ls => Q s l ∧ Meets Q (M.step s l).1 ls

theorem after_concat (s : σ) (ls : List L) (l : L) :
    M.after s (ls ++ [l]) = (M.step (M.after s ls) l).1 := by
  induction ls generalizing s with
  | nil => rfl
  | cons l' ls ih => exact ih _

variable {M} in
theorem Meets.of_concat {Q : σ → L → Prop} {s : σ} {ls : List L} {l : L}
    (h : M.Meets Q s (ls ++ [l])) : M.Meets Q s ls ∧ Q (M.after s ls) l := by
  induction ls generalizing s with
  | nil => exact ⟨trivial, h.1⟩
  | cons l' ls ih => exact ⟨⟨h.1, (ih h.2).1⟩, (ih h.2).2⟩

/-- A relation between the states of a run and of the run of the steps that are kept, for steps
that meet a condition. -/
structure Unwinding (sees : ω → Bool) (kept : L → Bool) (Q : σ → L → Prop)
    (R : σ → σ → Prop) : Prop where
  /-- A step that both runs take shows the same to the observer. -/
  both : ∀ {s t l}, R s t → Q s l → kept l = true → R (M.step s l).1 (M.step t l).1 ∧
    (M.step s l).2.filter sees = (M.step t l).2.filter sees
  /-- A step that only the first takes shows the observer nothing. -/
  skip : ∀ {s t l}, R s t → Q s l → kept l = false → R (M.step s l).1 t ∧
    (M.step s l).2.filter sees = none

variable {M} {sees : ω → Bool} {kept : L → Bool} {Q : σ → L → Prop} {R : σ → σ → Prop}

theorem filter_toList (p : ω → Bool) (o : Option ω) : o.toList.filter p = (o.filter p).toList := by
  cases o with
  | none => rfl
  | some a =>
    rw [Option.toList_some, Option.filter_some, List.filter_cons]
    split_ifs <;> rfl

/-- **What the observer sees is the same** without the steps that are not kept. -/
theorem Unwinding.trace_eq (h : M.Unwinding sees kept Q R) {s t : σ} (hR : R s t) {ls : List L}
    (hQ : M.Meets Q s ls) :
    (M.trace s ls).filter sees = (M.trace t (ls.filter kept)).filter sees := by
  induction ls generalizing s t with
  | nil => rfl
  | cons l ls ih =>
    obtain ⟨hl, hls⟩ := hQ
    rw [trace, List.filter_append, filter_toList]
    cases hk : kept l with
    | true =>
      obtain ⟨hR', hsame⟩ := h.both hR hl hk
      rw [List.filter_cons_of_pos hk, trace, List.filter_append, filter_toList, hsame,
        ih hR' hls]
    | false =>
      obtain ⟨hR', hnone⟩ := h.skip hR hl hk
      rw [List.filter_cons_of_neg (by rw [hk]; nofun), hnone, ih hR' hls]
      rfl

end Reactor

end Lib
