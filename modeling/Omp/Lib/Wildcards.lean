import Mathlib.Data.List.Infix
import Mathlib.Data.List.Forall2

/-!
# Patterns with wildcards

A pattern is a sequence of items: a symbol stands for itself, one wildcard for any symbol, and
another one for any run of symbols.  A word matches a pattern if it can be cut into pieces for which
its items stand, one after the other.

## Main definitions

* `Wildcard` : the items.
* `Wildcard.Matches` : the words that match a pattern.

## Main results

* `Wildcard.matches_one_cons`, `Wildcard.matches_any_cons` : what an item for one symbol takes.
* `Wildcard.matches_run_iff`, `Wildcard.matches_run_cons` : a run takes the word up to some suffix,
  or symbol by symbol.
-/

namespace Lib

/-- An item of a pattern. -/
inductive Wildcard (α : Type*) where
  /-- A symbol, which stands for itself. -/
  | one (a : α)
  /-- What stands for any symbol. -/
  | any
  /-- What stands for any run of symbols. -/
  | run

namespace Wildcard

variable {α : Type*} {p : List (Wildcard α)} {w : List α}

/-- The words an item stands for. -/
def Stands : Wildcard α → List α → Prop
  | one a, w => w = [a]
  | any, w => w.length = 1
  | run, _ => True

/-- A word is a concatenation of pieces for which the items of a pattern stand. -/
def Matches (p : List (Wildcard α)) (w : List α) : Prop :=
  ∃ pieces : List (List α), List.Forall₂ Stands p pieces ∧ pieces.flatten = w

@[simp] theorem matches_nil : Matches ([] : List (Wildcard α)) w ↔ w = [] := by
  constructor
  · rintro ⟨pieces, hpieces, rfl⟩
    cases hpieces
    rfl
  · rintro rfl
    exact ⟨[], .nil, rfl⟩

/-- **The first item** takes the first piece. -/
theorem matches_cons {x : Wildcard α} :
    Matches (x :: p) w ↔ ∃ u v, x.Stands u ∧ Matches p v ∧ u ++ v = w := by
  constructor
  · rintro ⟨pieces, hpieces, rfl⟩
    cases hpieces with
    | cons hu hp => exact ⟨_, _, hu, ⟨_, hp, rfl⟩, rfl⟩
  · rintro ⟨u, v, hu, ⟨pieces, hpieces, rfl⟩, rfl⟩
    exact ⟨u :: pieces, .cons hu hpieces, rfl⟩

@[simp] theorem not_matches_one_nil {a : α} : ¬ Matches (one a :: p) [] := by
  rw [matches_cons]
  rintro ⟨u, v, rfl, -, h⟩
  cases h

@[simp] theorem matches_one_cons {a b : α} :
    Matches (one a :: p) (b :: w) ↔ b = a ∧ Matches p w := by
  rw [matches_cons]
  constructor
  · rintro ⟨u, v, rfl, hv, h⟩
    cases h
    exact ⟨rfl, hv⟩
  · rintro ⟨rfl, hw⟩
    exact ⟨[b], w, rfl, hw, rfl⟩

@[simp] theorem not_matches_any_nil : ¬ Matches (any :: p) ([] : List α) := by
  rw [matches_cons]
  rintro ⟨u, v, hu, -, h⟩
  rw [(List.append_eq_nil_iff.1 h).1] at hu
  cases hu

@[simp] theorem matches_any_cons {b : α} : Matches (any :: p) (b :: w) ↔ Matches p w := by
  rw [matches_cons]
  constructor
  · rintro ⟨u, v, hu, hv, h⟩
    obtain ⟨a, rfl⟩ := List.length_eq_one_iff.1 hu
    cases h
    exact hv
  · exact fun hw => ⟨[b], w, rfl, hw, rfl⟩

/-- A run takes the word up to some suffix. -/
theorem matches_run_iff : Matches (run :: p) w ↔ ∃ v, v <:+ w ∧ Matches p v := by
  rw [matches_cons]
  constructor
  · rintro ⟨u, v, -, hv, rfl⟩
    exact ⟨v, List.suffix_append u v, hv⟩
  · rintro ⟨v, ⟨u, rfl⟩, hv⟩
    exact ⟨u, v, trivial, hv, rfl⟩

@[simp] theorem matches_run_nil : Matches (run :: p) [] ↔ Matches p [] := by
  simp [matches_run_iff]

/-- **A run ends, or takes one symbol more.** -/
theorem matches_run_cons {b : α} :
    Matches (run :: p) (b :: w) ↔ Matches p (b :: w) ∨ Matches (run :: p) w := by
  simp only [matches_run_iff, List.suffix_cons_iff, or_and_right, exists_or, exists_eq_left]

end Wildcard

end Lib
