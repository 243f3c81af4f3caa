import Mathlib.Algebra.Ring.Parity
import Mathlib.Data.List.Nodup
import Mathlib.Tactic.Common

/-!
# Scans that jump

A scan looks at one position after the other.  Where it finds something, it jumps ahead, and does
not see what it could have found in between.  If nothing lies between a position and what it jumps
over, then what is found after one another forms chains, and of every chain the scan sees the first,
the third and so on.

## Main definitions

* `Jumps`, `Jumps.visits` : a scan, and the positions where it finds something.
* `Jumps.Over` : one position is jumped over from another one.
* `Jumps.Chain` : positions each of which is jumped over from the one before.

## Main results

* `Jumps.mem_visits_iff` : a position is seen if it is the last of an odd number in a chain.
-/

namespace Lib

/-- Where there is something to find, and where the scan goes on from there. -/
structure Jumps where
  found : Nat → Bool
  next : Nat → Nat
  lt_next : ∀ i, i < next i

namespace Jumps

variable (J : Jumps)

/-- The positions before `n` where something is found, from position `i` on. -/
def visits (n i : Nat) : List Nat :=
  if i < n then
    if J.found i then i :: visits n (J.next i) else visits n (i + 1)
  else []
termination_by n - i
decreasing_by
  · have := J.lt_next i
    omega
  · omega

/-- There is something at both positions, and a jump from the first one passes the second one. -/
structure Over (p q : Nat) : Prop where
  left : J.found p = true
  right : J.found q = true
  lt : p < q
  lt_next : q < J.next p

/-- The last of a number of positions, each jumped over from the one before, and the first from
nowhere. -/
inductive Chain : Nat → Nat → Prop
  | first {q : Nat} (h : J.found q = true) (hfirst : ∀ p, ¬ J.Over p q) : Chain 1 q
  | next {n p q : Nat} (h : Chain n p) (hover : J.Over p q) : Chain (n + 1) q

/-- Between a position and what is jumped over from it there is nothing to find. -/
def Adjacent : Prop :=
  ∀ ⦃p p' q⦄, J.Over p q → J.found p' = true → p < p' → q ≤ p'

variable {J}

theorem visits_of_found {n i : Nat} (hi : i < n) (h : J.found i = true) :
    J.visits n i = i :: J.visits n (J.next i) := by
  rw [visits, if_pos hi, if_pos h]

theorem visits_of_not_found {n i : Nat} (hi : i < n) (h : ¬ J.found i = true) :
    J.visits n i = J.visits n (i + 1) := by
  rw [visits, if_pos hi, if_neg h]

/-! ### Chains -/

/-- A position is jumped over from one position only. -/
theorem Adjacent.unique (hJ : J.Adjacent) {p p' q : Nat} (h : J.Over p q) (h' : J.Over p' q) :
    p = p' := by
  rcases Nat.lt_trichotomy p p' with hlt | heq | hlt
  · exact absurd (hJ h h'.left hlt) (Nat.not_le.2 h'.lt)
  · exact heq
  · exact absurd (hJ h' h.left hlt) (Nat.not_le.2 h.lt)

/-- Every position is in a chain. -/
theorem exists_chain (q : Nat) (h : J.found q = true) : ∃ n, J.Chain n q := by
  induction q using Nat.strongRecOn with
  | ind q ih =>
    by_cases hfirst : ∃ p, J.Over p q
    · obtain ⟨p, hp⟩ := hfirst
      obtain ⟨n, hn⟩ := ih p hp.lt hp.left
      exact ⟨n + 1, hn.next hp⟩
    · exact ⟨1, .first h (not_exists.1 hfirst)⟩

/-- And its number there is fixed. -/
theorem Chain.unique (hJ : J.Adjacent) {m n q : Nat} (h : J.Chain m q) (h' : J.Chain n q) :
    m = n := by
  induction h generalizing n with
  | first hq hfirst =>
    cases h' with
    | first => rfl
    | next _ hover => exact absurd hover (hfirst _)
  | next _ hover ih =>
    cases h' with
    | first _ hfirst => exact absurd hover (hfirst _)
    | next hchain hover' =>
      obtain rfl := hJ.unique hover hover'
      rw [ih hchain]

/-! ### What is seen -/

/-- What is jumped over from before a position has an even number there. -/
def Seen (J : Jumps) (i : Nat) : Prop :=
  ∀ ⦃p q n⦄, p < i → i ≤ q → J.Over p q → J.Chain n p → Even n

theorem seen_zero : J.Seen 0 := fun _ _ _ hp => absurd hp (Nat.not_lt_zero _)

theorem Seen.succ {i : Nat} (h : J.Seen i) (hi : J.found i = false) : J.Seen (i + 1) := by
  intro p q n hp hq hover hchain
  have hne : p ≠ i := by
    rintro rfl
    rw [hover.left] at hi
    cases hi
  exact h (by omega) (by omega) hover hchain

/-- The scan stands at odd numbers. -/
theorem Seen.odd {i n : Nat} (h : J.Seen i) (hn : J.Chain n i) : Odd n := by
  cases hn with
  | first => exact odd_one
  | next hchain hover => exact (h hover.lt (Nat.le_refl i) hover hchain).add_one

/-- What it jumps over has even numbers. -/
theorem Seen.even (hJ : J.Adjacent) {i q n : Nat} (h : J.Seen i) (hover : J.Over i q)
    (hn : J.Chain n q) : Even n := by
  obtain ⟨m, hm⟩ := exists_chain i hover.left
  rw [hn.unique hJ (hm.next hover)]
  exact (h.odd hm).add_one

theorem Seen.next (hJ : J.Adjacent) {i : Nat} (h : J.Seen i) (hi : J.found i = true) :
    J.Seen (J.next i) := by
  intro p q n hp hq hover hchain
  rcases Nat.lt_trichotomy p i with hlt | rfl | hlt
  · -- `i` lies between `p` and `q`
    have hlt' := J.lt_next i
    exact absurd (hJ hover hi hlt) (by omega)
  · exact absurd hover.lt_next (Nat.not_lt.2 hq)
  · exact h.even hJ ⟨hi, hover.left, hlt, hp⟩ hchain

/-- **What the scan sees** are the odd numbers in the chains. -/
theorem mem_visits_iff (hJ : J.Adjacent) {n i q : Nat} (h : J.Seen i) :
    q ∈ J.visits n i ↔ i ≤ q ∧ q < n ∧ J.found q = true ∧ ∃ k, J.Chain k q ∧ Odd k := by
  fun_induction J.visits n i with
  | case1 i hlt hi ih =>
    have hnext := J.lt_next i
    rw [List.mem_cons, ih (h.next hJ hi)]
    constructor
    · rintro (rfl | ⟨hq, hrest⟩)
      · obtain ⟨k, hk⟩ := exists_chain _ hi
        exact ⟨Nat.le_refl _, hlt, hi, k, hk, h.odd hk⟩
      · exact ⟨by omega, hrest⟩
    · rintro ⟨hq, hqn, hfound, k, hk, hodd⟩
      rcases Nat.eq_or_lt_of_le hq with rfl | hlt'
      · exact .inl rfl
      · refine .inr ⟨Nat.not_lt.1 fun hover => ?_, hqn, hfound, k, hk, hodd⟩
        exact Nat.not_even_iff_odd.2 hodd (h.even hJ ⟨hi, hfound, hlt', hover⟩ hk)
  | case2 i hlt hi ih =>
    rw [Bool.not_eq_true] at hi
    rw [ih (h.succ hi)]
    refine and_congr_left fun ⟨_, hfound, _⟩ => ⟨fun hq => by omega, fun hq => ?_⟩
    have hne : i ≠ q := by
      rintro rfl
      rw [hfound] at hi
      cases hi
    omega
  | case3 i hlt =>
    simp only [List.not_mem_nil, false_iff, not_and]
    intro hq hqn
    omega

theorem le_of_mem_visits {n i q : Nat} (h : q ∈ J.visits n i) : i ≤ q := by
  fun_induction J.visits n i with
  | case1 i hlt hi ih =>
    have hnext := J.lt_next i
    rcases List.mem_cons.1 h with rfl | h
    · exact Nat.le_refl _
    · exact Nat.le_trans (Nat.le_of_lt hnext) (ih h)
  | case2 i hlt hi ih => exact Nat.le_trans (Nat.le_succ i) (ih h)
  | case3 => cases h

/-- It sees nothing twice. -/
theorem nodup_visits (n i : Nat) : (J.visits n i).Nodup := by
  fun_induction J.visits n i with
  | case1 i hlt hi ih =>
    refine List.nodup_cons.2 ⟨fun hmem => ?_, ih⟩
    exact absurd (le_of_mem_visits hmem) (Nat.not_le.2 (J.lt_next i))
  | case2 i hlt hi ih => exact ih
  | case3 => exact List.nodup_nil

/-- Where there is nothing to find it finds nothing. -/
theorem visits_eq_nil {n i : Nat} (h : ∀ q, i ≤ q → J.found q = false) : J.visits n i = [] := by
  fun_induction J.visits n i with
  | case1 i hlt hi ih =>
    rw [h i (Nat.le_refl i)] at hi
    cases hi
  | case2 i hlt hi ih => exact ih fun q hq => h q (by omega)
  | case3 => rfl

end Jumps

end Lib
