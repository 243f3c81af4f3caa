import Omp.Lib.Rounding
import Omp.Query

/-!
# Comparing integers in queries

A predicate compares an integer field with an integer literal as floats, after a conversion that
rounds integers of more than 53 bits.  Integers that are rounded to one float are equal to the
predicate, while the items of a list are compared as integers.

## Main definitions

* `Query.Op.Truth` : what an operator says of two integers.
* `Query.IntOrder` : the predicates on two integers are those of their order.

## Main results

* `Query.int_order_iff` : they are, unless two different integers have one float.
-/

namespace Omp

open Lib

namespace Query

/-- What an operator says of two integers; an integer has no parts and no beginning. -/
def Op.Truth (n m : Int) : Op → Prop
  | .eq => n = m
  | .ne => n ≠ m
  | .lt => n < m
  | .le => n ≤ m
  | .gt => m < n
  | .ge => m ≤ n
  | .contains | .startsWith => False

/-- The predicates on an integer field and an integer literal follow the order of the integers. -/
structure IntOrder (n m : Int64) : Prop where
  /-- Every operator tells the truth. -/
  truth : ∀ op, compareField (.int n) op (.int m) = true ↔ op.Truth n.toInt m.toInt
  /-- One of less, equal and greater holds, and only one. -/
  trichotomy : ∃! op, op ∈ [Op.lt, Op.eq, Op.gt] ∧ compareField (.int n) op (.int m) = true
  /-- Different is not equal. -/
  ne : compareField (.int n) .ne (.int m) = !compareField (.int n) .eq (.int m)
  /-- At most is less or equal. -/
  le : compareField (.int n) .le (.int m) =
    (compareField (.int n) .lt (.int m) || compareField (.int n) .eq (.int m))
  /-- Equality is that of the items of a list. -/
  contains : compareField (.list [.int n]) .contains (.int m) =
    compareField (.int n) .eq (.int m)

/-- Every integer of the machine is near to a float. -/
theorem inRange_toInt (n : Int64) : F64.InRange n.toInt := by
  have hlow := n.le_toInt
  have hhigh := n.toInt_lt
  rw [F64.InRange]
  rcases Nat.eq_zero_or_pos n.toInt.natAbs with hzero | hpos
  · rw [hzero]
    decide
  · have hlog : Nat.log2 n.toInt.natAbs < 64 := (Nat.log2_lt (by omega)).2 (by omega)
    omega

variable {n m : Int64}

/-- What a predicate says is said of the rounded values. -/
theorem compare_int (op : Op) : compareField (.int n) op (.int m) = true ↔
    op.Truth (F64.roundInt n.toInt) (F64.roundInt m.toInt) := by
  have hn := inRange_toInt n
  have hm := inRange_toInt m
  cases op with
  | eq => exact F64.near_ofInt hn hm
  | ne =>
    show (F64.ofInt n.toInt).apart (F64.ofInt m.toInt) = true ↔ _
    rw [F64.apart_ofInt hn hm, Bool.not_eq_true', ← Bool.not_eq_true, F64.near_ofInt hn hm]
    rfl
  | lt => exact F64.lt_ofInt hn hm
  | le => exact F64.le_ofInt hn hm
  | gt => exact F64.lt_ofInt hm hn
  | ge => exact F64.le_ofInt hm hn
  | contains => exact iff_of_false nofun id
  | startsWith => exact iff_of_false nofun id

/-- Rounding that tells two integers apart keeps what operators say of them. -/
theorem truth_roundInt (op : Op)
    (h : F64.roundInt n.toInt = F64.roundInt m.toInt → n.toInt = m.toInt) :
    op.Truth (F64.roundInt n.toInt) (F64.roundInt m.toInt) ↔ op.Truth n.toInt m.toInt := by
  have hle := @F64.roundInt_mono n.toInt m.toInt
  have hge := @F64.roundInt_mono m.toInt n.toInt
  have heq : n.toInt = m.toInt → F64.roundInt n.toInt = F64.roundInt m.toInt := fun h => by rw [h]
  generalize F64.roundInt n.toInt = a at *
  generalize F64.roundInt m.toInt = b at *
  cases op <;> simp only [Op.Truth] <;> omega

/-- Exactly one of less, equal and greater is true of two integers. -/
theorem Op.existsUnique_truth (a b : Int) :
    ∃! op, op ∈ [Op.lt, Op.eq, Op.gt] ∧ op.Truth a b := by
  have hmem : ∀ op, op ∈ [Op.lt, Op.eq, Op.gt] ↔ op = .lt ∨ op = .eq ∨ op = .gt := by simp
  rcases Int.lt_trichotomy a b with hlt | heq | hgt
  · refine ⟨.lt, ⟨by simp, hlt⟩, fun op hop => ?_⟩
    rcases (hmem op).1 hop.1 with rfl | rfl | rfl
    · rfl
    · exact absurd (show a = b from hop.2) (by omega)
    · exact absurd (show b < a from hop.2) (by omega)
  · refine ⟨.eq, ⟨by simp, heq⟩, fun op hop => ?_⟩
    rcases (hmem op).1 hop.1 with rfl | rfl | rfl
    · exact absurd (show a < b from hop.2) (by omega)
    · rfl
    · exact absurd (show b < a from hop.2) (by omega)
  · refine ⟨.gt, ⟨by simp, hgt⟩, fun op hop => ?_⟩
    rcases (hmem op).1 hop.1 with rfl | rfl | rfl
    · exact absurd (show a < b from hop.2) (by omega)
    · exact absurd (show a = b from hop.2) (by omega)
    · rfl

/-- **When predicates follow the order of integers**: exactly when the two are not different
integers with one float. -/
theorem int_order_iff : IntOrder n m ↔ (F64.ofInt n.toInt = F64.ofInt m.toInt → n = m) := by
  rw [F64.ofInt_inj (inRange_toInt n) (inRange_toInt m), ← Int64.toInt_inj]
  constructor
  · intro h heq
    exact (h.truth .eq).1 ((compare_int .eq).2 heq)
  · intro h
    have htruth : ∀ op, compareField (.int n) op (.int m) = true ↔ op.Truth n.toInt m.toInt :=
      fun op => (compare_int op).trans (truth_roundInt op h)
    refine ⟨htruth, ?_, ?_, ?_, ?_⟩
    · simp only [compare_int]
      exact Op.existsUnique_truth _ _
    · rw [Bool.eq_iff_iff, Bool.not_eq_true', ← Bool.not_eq_true, htruth, htruth]
      rfl
    · rw [Bool.eq_iff_iff, Bool.or_eq_true, htruth, htruth, htruth]
      exact Int.le_iff_lt_or_eq
    · rw [Bool.eq_iff_iff, htruth]
      simp [compareField, isItem, Op.Truth, Int64.toInt_inj]

/-- `2 ^ 53 + 1` is rounded to `2 ^ 53`. -/
theorem rounded_integers_equal : ¬ IntOrder 9007199254740993 9007199254740992 := by
  intro h
  have heq : (9007199254740993 : Int64).toInt = (9007199254740992 : Int64).toInt :=
    (h.truth .eq).1 (by decide +kernel)
  exact absurd heq (by decide +kernel)

end Query

end Omp
