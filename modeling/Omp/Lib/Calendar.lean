import Mathlib.Algebra.Group.Nat.Defs
import Mathlib.Data.Int.Order.Basic
import Mathlib.Order.Monotone.Basic
import Omp.Lib.Text

/-!
# The Gregorian calendar

Dates of the proleptic Gregorian calendar, one after the other, and their texts.  A number with
zeros before it, up to a fixed width, is printed so that the texts of numbers are in the order of
the numbers; this goes on for texts that are made of such parts.

## Main definitions

* `Date`, `Date.succ` : dates, and the next date.
* `Date.Before` : the order of dates.
* `padded` : a number with zeros before it.

## Main results

* `Date.before_iterate` : later days have later dates.
* `compare_padded` : padded numbers are printed in their order.
* `compare_append` : texts are compared by their parts, if these are equally long.
-/

namespace Lib

/-- A date. -/
structure Date where
  year : Int
  month : Nat
  day : Nat
  deriving DecidableEq

namespace Date

/-! ### One date after the other -/

/-- Leap years. -/
def isLeap (y : Int) : Bool := y % 4 == 0 && (y % 100 != 0 || y % 400 == 0)

/-- The number of days of a month. -/
def daysInMonth (y : Int) : Nat → Nat
  | 2 => if isLeap y then 29 else 28
  | 4 | 6 | 9 | 11 => 30
  | _ => 31

/-- The next date. -/
def succ (d : Date) : Date :=
  if d.day < daysInMonth d.year d.month then { d with day := d.day + 1 }
  else if d.month < 12 then ⟨d.year, d.month + 1, 1⟩
  else ⟨d.year + 1, 1, 1⟩

/-- A date of the calendar. -/
structure Valid (d : Date) : Prop where
  month_pos : 0 < d.month
  month_le : d.month ≤ 12
  day_pos : 0 < d.day
  day_le : d.day ≤ daysInMonth d.year d.month

theorem daysInMonth_pos (y : Int) (m : Nat) : 0 < daysInMonth y m := by
  unfold daysInMonth
  split
  · split_ifs <;> omega
  all_goals omega

theorem daysInMonth_le (y : Int) (m : Nat) : daysInMonth y m ≤ 31 := by
  unfold daysInMonth
  split
  · split_ifs <;> omega
  all_goals omega

theorem Valid.succ {d : Date} (h : d.Valid) : d.succ.Valid := by
  obtain ⟨hm, hm', hd, hd'⟩ := h
  rw [Date.succ]
  split_ifs with hday hmonth
  · exact ⟨hm, hm', Nat.succ_pos _, hday⟩
  · exact ⟨Nat.succ_pos _, hmonth, Nat.one_pos, daysInMonth_pos _ _⟩
  · exact ⟨Nat.one_pos, (by decide : 1 ≤ 12), Nat.one_pos, daysInMonth_pos _ _⟩

theorem Valid.iterate {d : Date} (h : d.Valid) (n : Nat) : (Date.succ^[n] d).Valid := by
  induction n generalizing d with
  | zero => exact h
  | succ n ih => exact ih h.succ

/-! ### Their order -/

/-- A date is before another one. -/
def Before (a b : Date) : Prop :=
  a.year < b.year ∨ a.year = b.year ∧ (a.month < b.month ∨ a.month = b.month ∧ a.day < b.day)

theorem Before.trans {a b c : Date} (h : a.Before b) (h' : b.Before c) : a.Before c := by
  unfold Before at *
  omega

theorem before_succ (d : Date) : d.Before d.succ := by
  unfold Before Date.succ
  split_ifs
  · exact .inr ⟨rfl, .inr ⟨rfl, Nat.lt_succ_self _⟩⟩
  · exact .inr ⟨rfl, .inl (Nat.lt_succ_self _)⟩
  · exact .inl (Int.lt_succ _)

/-- **Later days have later dates.** -/
theorem before_iterate (d : Date) {m n : Nat} (h : m < n) :
    (Date.succ^[m] d).Before (Date.succ^[n] d) := by
  induction n, h using Nat.le_induction with
  | base =>
    rw [Function.iterate_succ_apply']
    exact before_succ _
  | succ n _ ih =>
    rw [Function.iterate_succ_apply']
    exact ih.trans (before_succ _)

end Date

/-! ### Their texts -/

/-- A number with zeros before it, up to the given width. -/
def padded (w n : Nat) : Text :=
  List.replicate (w - (Nat.toDigits 10 n).length) '0' ++ Nat.toDigits 10 n

/-- The last digits of a number, of the given width. -/
def lastDigits : Nat → Nat → Text
  | 0, _ => []
  | w + 1, n => lastDigits w (n / 10) ++ [(n % 10).digitChar]

theorem length_lastDigits (w n : Nat) : (lastDigits w n).length = w := by
  induction w generalizing n with
  | zero => rfl
  | succ w ih => rw [lastDigits, List.length_append, ih, List.length_singleton]

theorem lastDigits_zero (w : Nat) : lastDigits w 0 = List.replicate w '0' := by
  induction w with
  | zero => rfl
  | succ w ih =>
    rw [lastDigits, ih, List.replicate_succ']
    rfl

/-- A number that has the width is its last digits. -/
theorem padded_eq_lastDigits {w n : Nat} (h : n < 10 ^ w) (hw : 0 < w) :
    padded w n = lastDigits w n := by
  induction w generalizing n with
  | zero => exact absurd hw (Nat.lt_irrefl _)
  | succ w ih =>
    rw [lastDigits]
    rcases Nat.lt_or_ge n 10 with hlt | hge
    · rw [Nat.div_eq_of_lt hlt, Nat.mod_eq_of_lt hlt, lastDigits_zero, padded,
        Nat.toDigits_of_lt_base hlt]
      rfl
    · have hpos : 0 < n / 10 := Nat.div_pos hge (by omega)
      have hdiv : n / 10 < 10 ^ w := by
        rw [Nat.pow_succ] at h
        omega
      have hw : 0 < w := by
        rcases Nat.eq_zero_or_pos w with rfl | hw
        · rw [Nat.pow_zero] at hdiv
          omega
        · exact hw
      have hdigits : Nat.toDigits 10 n = Nat.toDigits 10 (n / 10) ++ [(n % 10).digitChar] := by
        have hlast := Nat.toDigits_append_toDigits (b := 10) (by omega) hpos
          (Nat.mod_lt n (by omega : 10 > 0))
        rw [Nat.div_add_mod, Nat.toDigits_of_lt_base (Nat.mod_lt n (by omega : 10 > 0))] at hlast
        exact hlast.symm
      rw [← ih hdiv hw, padded, padded, hdigits, List.length_append, List.length_singleton,
        Nat.add_sub_add_right, List.append_assoc]

theorem length_padded {w n : Nat} (h : n < 10 ^ w) (hw : 0 < w) : (padded w n).length = w := by
  rw [padded_eq_lastDigits h hw, length_lastDigits]

/-- Texts are compared by their first parts, if these are equally long, and then by the others. -/
theorem compare_append {s s' t t' : Text} (h : s.length = s'.length) :
    compare (s ++ t) (s' ++ t') = (compare s s').then (compare t t') := by
  induction s generalizing s' with
  | nil =>
    obtain rfl := List.length_eq_zero_iff.1 h.symm
    rfl
  | cons c s ih =>
    cases s' with
    | nil => cases h
    | cons c' s' =>
      rw [List.cons_append, List.cons_append, List.compare_cons_cons, List.compare_cons_cons,
        ih (Nat.succ.inj h), Ordering.then_assoc]

theorem compare_digitChar {a b : Nat} (ha : a < 10) (hb : b < 10) :
    compare a.digitChar b.digitChar = compare a b := by
  have key : ∀ a < 10, ∀ b < 10, compare a.digitChar b.digitChar = compare a b := by decide
  exact key a ha b hb

theorem compare_lastDigits {w a b : Nat} (ha : a < 10 ^ w) (hb : b < 10 ^ w) :
    compare (lastDigits w a) (lastDigits w b) = compare a b := by
  induction w generalizing a b with
  | zero =>
    rw [Nat.pow_zero] at ha hb
    obtain rfl : a = b := by omega
    simp [Std.ReflCmp.compare_self]
  | succ w ih =>
    rw [Nat.pow_succ] at ha hb
    have hlen : (lastDigits w (a / 10)).length = (lastDigits w (b / 10)).length := by
      rw [length_lastDigits, length_lastDigits]
    rw [lastDigits, lastDigits, compare_append hlen, ih (by omega) (by omega),
      List.compare_cons_cons, compare_digitChar (Nat.mod_lt _ (by omega)) (Nat.mod_lt _ (by omega))]
    rcases Nat.lt_trichotomy (a / 10) (b / 10) with h | h | h
    · rw [Nat.compare_eq_lt.2 h, Nat.compare_eq_lt.2 (show a < b by omega)]
      rfl
    · rw [Nat.compare_eq_eq.2 h]
      rcases Nat.lt_trichotomy (a % 10) (b % 10) with h' | h' | h'
      · rw [Nat.compare_eq_lt.2 h', Nat.compare_eq_lt.2 (by omega)]
        rfl
      · rw [Nat.compare_eq_eq.2 h', Nat.compare_eq_eq.2 (by omega)]
        rfl
      · rw [Nat.compare_eq_gt.2 h', Nat.compare_eq_gt.2 (by omega)]
        rfl
    · rw [Nat.compare_eq_gt.2 h, Nat.compare_eq_gt.2 (show b < a by omega)]
      rfl

/-- **Padded numbers are printed in their order.** -/
theorem compare_padded {w a b : Nat} (hw : 0 < w) (ha : a < 10 ^ w) (hb : b < 10 ^ w) :
    compare (padded w a) (padded w b) = compare a b := by
  rw [padded_eq_lastDigits ha hw, padded_eq_lastDigits hb hw, compare_lastDigits ha hb]

end Lib
