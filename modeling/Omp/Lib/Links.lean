import Mathlib.Data.Fintype.Pigeonhole
import Mathlib.Logic.Function.Iterate

/-!
# Following links

Every place may name the next one.  Whoever follows the links from a place comes to an end unless
they lead back to a place where he has been.

## Main definitions

* `Links.visit` : the place after a number of links.
* `Links.Loops` : the links lead back.

## Main results

* `Links.ends_iff` : among finitely many places, the links end exactly when they do not loop.
-/

namespace Lib

namespace Links

variable {α : Type*} (next : α → Option α)

/-- The place after a number of links, if there are so many. -/
def visit (start : Option α) (n : Nat) : Option α := (fun o => o.bind next)^[n] start

/-- Some place is visited twice. -/
def Loops (start : Option α) : Prop :=
  ∃ n m a, n < m ∧ visit next start n = some a ∧ visit next start m = some a

variable {next} {start : Option α}

@[simp] theorem visit_zero : visit next start 0 = start := rfl

theorem visit_succ (n : Nat) : visit next start (n + 1) = (visit next start n).bind next :=
  Function.iterate_succ_apply' _ _ _

theorem visit_succ' (n : Nat) : visit next start (n + 1) = visit next (start.bind next) n := rfl

@[simp] theorem visit_none (n : Nat) : visit next none n = none := by
  induction n with
  | zero => rfl
  | succ n ih => rw [visit_succ, ih, Option.bind_none]

/-- What was visited twice is visited again and again. -/
theorem visit_periodic {n d : Nat} {a : α} (hn : visit next start n = some a)
    (hd : visit next start (n + d) = some a) (k : Nat) :
    visit next start (n + k * d) = some a := by
  have hshift : ∀ t, visit next start (n + d + t) = visit next start (n + t) := by
    intro t
    induction t with
    | zero => exact hd.trans hn.symm
    | succ t ih => rw [← Nat.add_assoc, ← Nat.add_assoc, visit_succ, visit_succ, ih]
  induction k with
  | zero => rwa [Nat.zero_mul, Nat.add_zero]
  | succ k ih => rw [Nat.succ_mul, Nat.add_comm (k * d), ← Nat.add_assoc, hshift, ih]

theorem visit_none_of_le {n m : Nat} (hnm : n ≤ m) (hn : visit next start n = none) :
    visit next start m = none := by
  induction m, hnm using Nat.le_induction with
  | base => exact hn
  | succ m _ ih => rw [visit_succ, ih, Option.bind_none]

/-- **The links end exactly when they do not loop.** -/
theorem ends_iff [Finite α] : (∃ n, visit next start n = none) ↔ ¬ Loops next start := by
  constructor
  · rintro ⟨n, hn⟩ ⟨i, j, a, hij, hi, hj⟩
    obtain ⟨d, rfl⟩ := Nat.exists_eq_add_of_lt hij
    have hvisit := visit_periodic hi (d := d + 1) hj n
    have hle : n ≤ i + n * (d + 1) := Nat.le_add_left_of_le (Nat.le_mul_of_pos_right n d.succ_pos)
    rw [visit_none_of_le hle hn] at hvisit
    cases hvisit
  · intro hloop
    by_contra hnone
    have hsome : ∀ n, ∃ a, visit next start n = some a := fun n =>
      Option.ne_none_iff_exists'.1 fun h => hnone ⟨n, h⟩
    choose f hf using hsome
    obtain ⟨n, m, hne, heq⟩ := Finite.exists_ne_map_eq_of_infinite f
    rcases Nat.lt_or_gt_of_ne hne with hlt | hlt
    · exact hloop ⟨n, m, f n, hlt, hf n, heq ▸ hf m⟩
    · exact hloop ⟨m, n, f n, hlt, heq ▸ hf m, hf n⟩

end Links

end Lib
