import Mathlib.Data.List.Chain

/-!
# Pieces that tile an interval

A piece is a list with the place it starts at.  Pieces in the order of these places tile an
interval if the first starts where the interval does, each of the others where the one before it
ends, and the last ends where the interval does: there is no gap between two of them, and they do
not overlap.

## Main definitions

* `Tiles` : pieces tile an interval.

## Main results

* `tiles_cons` : the pieces after the first tile what it leaves.
* `tiles_iff_covers` : pieces that are not empty tile an interval exactly when each place of it is
  in one of them, and they are in the interval.
-/

namespace Lib

variable {α : Type}

/-- Where a piece ends. -/
def pieceEnd (p : Nat × List α) : Nat := p.1 + p.2.length

/-- **Pieces tile an interval.** -/
structure Tiles (pieces : List (Nat × List α)) (start stop : Nat) : Prop where
  /-- The first starts where the interval does. -/
  first : ∀ p ∈ pieces.head?, p.1 = start
  /-- There is no gap after a piece, and no overlap with the next. -/
  next : pieces.IsChain fun p q => pieceEnd p = q.1
  /-- The last ends where the interval does. -/
  last : pieces.getLast?.elim start pieceEnd = stop

section Tiles

variable {p : Nat × List α} {pieces : List (Nat × List α)} {start stop : Nat}

@[simp] theorem tiles_nil : Tiles ([] : List (Nat × List α)) start stop ↔ start = stop :=
  ⟨fun h => h.last, fun h => ⟨by simp, .nil, h⟩⟩

/-- **The pieces after the first tile what it leaves.** -/
@[simp] theorem tiles_cons :
    Tiles (p :: pieces) start stop ↔ p.1 = start ∧ Tiles pieces (pieceEnd p) stop := by
  have hlast : (p :: pieces).getLast?.elim start pieceEnd =
      pieces.getLast?.elim (pieceEnd p) pieceEnd := by
    cases pieces with
    | nil => rfl
    | cons q pieces => rw [List.getLast?_cons_cons]; rfl
  constructor
  · rintro ⟨hfirst, hnext, hstop⟩
    obtain ⟨hq, hnext⟩ := List.isChain_cons.1 hnext
    exact ⟨hfirst p rfl, fun q hmem => (hq q hmem).symm, hnext, hlast ▸ hstop⟩
  · rintro ⟨rfl, hfirst, hnext, hstop⟩
    refine ⟨?_, List.isChain_cons.2 ⟨fun q hmem => (hfirst q hmem).symm, hnext⟩, hlast ▸ hstop⟩
    rintro q ⟨⟩
    rfl

/-- An interval that is tiled is as long as the pieces together. -/
theorem Tiles.stop_eq (h : Tiles pieces start stop) :
    start + (pieces.flatMap Prod.snd).length = stop := by
  induction pieces generalizing start with
  | nil => exact tiles_nil.1 h
  | cons p pieces ih =>
    obtain ⟨rfl, hrest⟩ := tiles_cons.1 h
    rw [← ih hrest, List.flatMap_cons, List.length_append, pieceEnd]
    omega

/-- **Pieces that are not empty tile an interval exactly when each place of it is in one of them**,
and they are in the interval. -/
theorem tiles_iff_covers (hsorted : pieces.Pairwise fun p q => p.1 < q.1)
    (hne : ∀ p ∈ pieces, p.2 ≠ []) :
    Tiles pieces start stop ↔ start ≤ stop ∧ (∀ p ∈ pieces, start ≤ p.1 ∧ pieceEnd p ≤ stop) ∧
      ∀ i, start ≤ i → i < stop → ∃! p, p ∈ pieces ∧ p.1 ≤ i ∧ i < pieceEnd p := by
  induction pieces generalizing start with
  | nil =>
    rw [tiles_nil]
    constructor
    · rintro rfl
      exact ⟨le_refl _, by simp, fun i hi hi' => absurd hi' (by omega)⟩
    · rintro ⟨hle, -, hcovers⟩
      refine le_antisymm hle (not_lt.1 fun hlt => ?_)
      obtain ⟨p, ⟨hp, -⟩, -⟩ := hcovers start (le_refl _) hlt
      exact absurd hp List.not_mem_nil
  | cons p pieces ih =>
    obtain ⟨hless, hsorted⟩ := List.pairwise_cons.1 hsorted
    obtain ⟨hnep, hne⟩ := List.forall_mem_cons.1 hne
    have hlen : 0 < p.2.length := List.length_pos_iff.2 hnep
    rw [tiles_cons, ih hsorted hne]
    constructor
    · rintro ⟨rfl, hle, hin, hcovers⟩
      rw [pieceEnd] at hle hin hcovers
      refine ⟨by omega, List.forall_mem_cons.2 ⟨⟨le_refl _, hle⟩, fun q hq => ?_⟩, fun i hi hi' => ?_⟩
      · have := hin q hq
        omega
      · rcases lt_or_ge i (pieceEnd p) with hlt | hge
        · -- no other piece starts before the first ends
          refine ⟨p, ⟨List.mem_cons_self, hi, hlt⟩, fun q hq => ?_⟩
          rcases List.mem_cons.1 hq.1 with rfl | hmem
          · rfl
          · rw [pieceEnd] at hlt
            have := hin q hmem
            omega
        · obtain ⟨q, ⟨hmem, hq⟩, hunique⟩ := hcovers i hge hi'
          refine ⟨q, ⟨List.mem_cons_of_mem _ hmem, hq⟩, fun r hr => ?_⟩
          rcases List.mem_cons.1 hr.1 with rfl | hrmem
          · omega
          · exact hunique r ⟨hrmem, hr.2⟩
    · rintro ⟨hle, hin, hcovers⟩
      obtain ⟨⟨hstart, hend⟩, hin⟩ := List.forall_mem_cons.1 hin
      rw [pieceEnd] at hend
      -- the first place is in the first piece
      have hfirst : p.1 = start := by
        obtain ⟨q, ⟨hmem, hq, -⟩, -⟩ := hcovers start (le_refl _) (by omega)
        rcases List.mem_cons.1 hmem with rfl | hmem
        · omega
        · have := hless q hmem
          omega
      have hafter (q : Nat × List α) (hq : q ∈ pieces) : pieceEnd p ≤ q.1 := by
        by_contra hover
        have hq' := hin q hq
        have hless := hless q hq
        have hlenq : 0 < q.2.length := List.length_pos_iff.2 (hne q hq)
        rw [pieceEnd] at hq'
        -- else the place where it starts is in both
        have heq := (hcovers q.1 (by omega) (by omega)).unique
          ⟨List.mem_cons_self, le_of_lt hless, not_le.1 hover⟩
          ⟨List.mem_cons_of_mem _ hq, le_refl _, by rw [pieceEnd]; omega⟩
        rw [heq] at hless
        exact lt_irrefl _ hless
      refine ⟨hfirst, by rw [pieceEnd]; omega, fun q hq => ⟨hafter q hq, (hin q hq).2⟩,
        fun i hi hi' => ?_⟩
      have hi₀ : start ≤ i := by
        rw [pieceEnd] at hi
        omega
      obtain ⟨q, ⟨hmem, hq⟩, hunique⟩ := hcovers i hi₀ hi'
      rcases List.mem_cons.1 hmem with rfl | hmem
      · omega
      · exact ⟨q, ⟨hmem, hq⟩, fun r hr => hunique r ⟨List.mem_cons_of_mem _ hr.1, hr.2⟩⟩

end Tiles

end Lib
