import Mathlib.Algebra.Group.Nat.Defs
import Mathlib.Data.List.Pairwise
import Mathlib.Tactic.Common
import Omp.Lib.Text

/-!
# Loops that trap or run forever

A program on a machine of 32 bits traps where it reads outside of its memory, and its numbers wrap.
A loop of such a program ends, traps, or runs forever, which shows as running out of any fuel.

## Main definitions

* `wrap`, `slice`, `leNat`, `beNat` : numbers and slices of the machine.
* `Turn`, `run` : loops.

## Main results

* `run_returned` : a loop whose offset grows up to a bound ends.
* `next_mem_of_returned` : what comes next in a loop that has ended.
-/

namespace Lib

/-! ### Numbers and slices -/

/-- What is kept of a number. -/
def wrap (n : Nat) : Nat := n % 2 ^ 32

/-- `saturating_add`. -/
def saturatingAdd (m n : Nat) : Nat := min (m + n) (2 ^ 32 - 1)

/-- `bytes[i..j]`, which traps if it does not lie within the bytes. -/
def slice (bytes : Bytes) (i j : Nat) : Option Bytes :=
  if i ≤ j ∧ j ≤ bytes.length then some ((bytes.drop i).take (j - i)) else none

/-- The number with the given digits, the least one first. -/
def leNat (bytes : Bytes) : Nat := bytes.foldr (fun b n => b.toNat + 256 * n) 0

/-- The number with the given digits, the greatest one first. -/
def beNat (bytes : Bytes) : Nat := leNat bytes.reverse

theorem wrap_of_lt {n : Nat} (h : n < 2 ^ 32) : wrap n = n := Nat.mod_eq_of_lt h

theorem slice_eq {bytes : Bytes} {i j : Nat} (hij : i ≤ j) (hj : j ≤ bytes.length) :
    slice bytes i j = some ((bytes.drop i).take (j - i)) := if_pos ⟨hij, hj⟩

theorem slice_eq_none {bytes : Bytes} {i j : Nat} (h : bytes.length < i) : slice bytes i j = none :=
  if_neg fun ⟨hij, hj⟩ => Nat.not_lt.2 (Nat.le_trans hij hj) h

theorem leNat_lt (bytes : Bytes) : leNat bytes < 256 ^ bytes.length := by
  induction bytes with
  | nil => exact Nat.one_pos
  | cons b bytes ih =>
    have hb : b.toNat < 256 := b.toNat_lt
    simp only [leNat, List.foldr_cons, List.length_cons, Nat.pow_succ] at ih ⊢
    omega

theorem beNat_lt (bytes : Bytes) : beNat bytes < 256 ^ bytes.length := by
  rw [← bytes.length_reverse]
  exact leNat_lt _

/-! ### Loops -/

/-- What one turn of a loop comes to. -/
inductive Turn (S R : Type) where
  | trap
  | stop (r : R)
  | next (s : S)

/-- What a loop has come to. -/
inductive Outcome (R : Type) where
  | running
  | trapped
  | returned (r : R)
  deriving DecidableEq

/-- What is made of the result of a loop. -/
def Outcome.map {R Q : Type} (f : R → Q) : Outcome R → Outcome Q
  | .running => .running
  | .trapped => .trapped
  | .returned r => .returned (f r)

theorem Outcome.map_eq_returned {R Q : Type} {f : R → Q} {o : Outcome R} {q : Q}
    (h : o.map f = .returned q) : ∃ r, o = .returned r ∧ f r = q := by
  cases o with
  | running => cases h
  | trapped => cases h
  | returned r => exact ⟨r, rfl, Outcome.returned.inj h⟩

variable {S R : Type}

/-- The states that a number of turns go through, and what they come to. -/
def run (f : S → Turn S R) : Nat → S → List S × Outcome R
  | 0, _ => ([], .running)
  | n + 1, s =>
    match f s with
    | .trap => ([s], .trapped)
    | .stop r => ([s], .returned r)
    | .next s' => (s :: (run f n s').1, (run f n s').2)

variable {f : S → Turn S R}

/-- A loop that has ended has begun. -/
theorem mem_run_of_returned {n : Nat} {s : S} {r : R} (h : (run f n s).2 = .returned r) :
    s ∈ (run f n s).1 := by
  cases n with
  | zero => cases h
  | succ n =>
    rw [run]
    split <;> exact List.mem_cons_self

/-- After a state of a loop that has ended comes another one, if it does not end there. -/
theorem next_mem_of_returned {n : Nat} {s t : S} {r : R} (h : (run f n s).2 = .returned r)
    (ht : t ∈ (run f n s).1) :
    (∃ r, f t = .stop r) ∨ ∃ t', f t = .next t' ∧ t' ∈ (run f n s).1 := by
  induction n generalizing s with
  | zero => cases h
  | succ n ih =>
    rw [run] at h ht ⊢
    cases hs : f s with
    | trap =>
      rw [hs] at h
      cases h
    | stop r =>
      rw [hs] at ht
      obtain rfl := List.mem_singleton.1 ht
      exact .inl ⟨r, hs⟩
    | next s' =>
      rw [hs] at h ht
      rcases List.mem_cons.1 ht with rfl | ht
      · -- the next turn has begun, or the loop would still be running
        exact .inr ⟨s', hs, List.mem_cons_of_mem _ (mem_run_of_returned h)⟩
      · obtain hstop | ⟨t', ht', hmem⟩ := ih h ht
        · exact .inl hstop
        · exact .inr ⟨t', ht', List.mem_cons_of_mem _ hmem⟩

/-- And it is related to what comes after it, if everything is. -/
theorem rel_next_of_returned {Q : S → S → Prop} {n : Nat} {s t t' : S} {r : R}
    (h : (run f n s).2 = .returned r) (hQ : (run f n s).1.Pairwise Q) (ht : t ∈ (run f n s).1)
    (hnext : f t = .next t') : Q t t' := by
  induction n generalizing s with
  | zero => cases h
  | succ n ih =>
    rw [run] at h hQ ht
    cases hs : f s with
    | trap =>
      rw [hs] at h
      cases h
    | stop r =>
      rw [hs] at ht
      obtain rfl := List.mem_singleton.1 ht
      rw [hs] at hnext
      cases hnext
    | next s' =>
      rw [hs] at h hQ ht
      obtain ⟨hhead, htail⟩ := List.pairwise_cons.1 hQ
      rcases List.mem_cons.1 ht with rfl | ht
      · obtain rfl : s' = t' := Turn.next.inj (hs.symm.trans hnext)
        exact hhead _ (mem_run_of_returned h)
      · exact ih h htail ht

/-- **A loop ends** if its invariant excludes traps and its offset grows up to a bound; the offsets
are in order. -/
theorem run_returned (I : S → Prop) (offset : S → Nat) (bound : Nat)
    (htrap : ∀ s, I s → f s ≠ .trap)
    (hnext : ∀ s s', I s → f s = .next s' → I s' ∧ offset s < offset s' ∧ offset s < bound)
    {n : Nat} {s : S} (hs : I s) (hn : bound - offset s < n) :
    (∃ r, (run f n s).2 = .returned r) ∧
      (run f n s).1.Pairwise (fun t t' => offset t < offset t') ∧
      ∀ t ∈ (run f n s).1, offset s ≤ offset t := by
  induction n generalizing s with
  | zero => exact absurd hn (Nat.not_lt_zero _)
  | succ n ih =>
    rw [run]
    cases hf : f s with
    | trap => exact absurd hf (htrap s hs)
    | stop r => exact ⟨⟨r, rfl⟩, List.pairwise_singleton _ _, by simp⟩
    | next s' =>
      obtain ⟨hs', hlt, hbound⟩ := hnext s s' hs hf
      obtain ⟨hreturned, hpair, hle⟩ := ih hs' (by omega)
      refine ⟨hreturned, List.pairwise_cons.2 ⟨fun t ht => ?_, hpair⟩, fun t ht => ?_⟩
      · exact Nat.lt_of_lt_of_le hlt (hle t ht)
      · rcases List.mem_cons.1 ht with rfl | ht
        · exact Nat.le_refl _
        · exact Nat.le_trans (Nat.le_of_lt hlt) (hle t ht)

end Lib
