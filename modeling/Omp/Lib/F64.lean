import Mathlib.Algebra.Group.Int.Defs
import Mathlib.Algebra.Group.Nat.Defs
import Mathlib.Data.Nat.Log

/-!
# Binary64 values

A 64-bit float as its bit pattern, with what a program that only stores, compares and converts
floats needs of the format.  Of the arithmetic there is only whether two floats are closer than the
machine epsilon.

## Main definitions

* `F64` : a bit pattern.
* `F64.units` : the value of a finite float, as an integer.
* `F64.lt`, `F64.le`, `F64.near` : comparisons.
* `F64.isInteger` : whether a float is an integer.
* `F64.ofInt`, `F64.ofRatio` : the conversions from an integer and from a fraction, rounding to
  nearest, ties to even.

## Main results

* `F64.units_ofRatio_one` : a number below `2 ^ 53` is represented as it is.
-/

namespace Lib

/-- A 64-bit IEEE 754 float. -/
structure F64 where
  /-- The bit pattern. -/
  bits : UInt64
  deriving DecidableEq

namespace F64

/-- The biased exponent. -/
def exponent (x : F64) : UInt64 := (x.bits >>> 52) &&& 0x7FF

/-- The fraction. -/
def fraction (x : F64) : UInt64 := x.bits &&& 0xFFFFFFFFFFFFF

/-- Neither infinite nor a NaN. -/
def isFinite (x : F64) : Bool := x.exponent != 0x7FF

/-- A NaN. -/
def isNaN (x : F64) : Bool := x.exponent == 0x7FF && x.fraction != 0

/-- One of the two zeros. -/
def isZero (x : F64) : Bool := x.exponent == 0 && x.fraction == 0

/-- A zero is finite. -/
theorem isFinite_of_isZero {x : F64} (h : x.isZero = true) : x.isFinite = true := by
  rw [isZero, Bool.and_eq_true, beq_iff_eq] at h
  rw [isFinite, h.1]
  decide

/-- The sign bit. -/
def isNegative (x : F64) : Bool := x.bits >>> 63 == 1

/-- The positive zero. -/
def zero : F64 := ⟨0⟩

/-- IEEE equality: a NaN differs from itself and the zeros are equal. -/
def eq (x y : F64) : Bool := !x.isNaN && !y.isNaN && (x == y || (x.isZero && y.isZero))

/-- The significand of `n` cut to 53 bits, rounded to nearest, ties to even.  It is `2 ^ 53`
when rounding carries. -/
def significand (n : Nat) : Nat :=
  let k := Nat.log2 n
  if k ≤ 52 then n <<< (52 - k)
  else
    let q := n >>> (k - 52)
    let r := n % 2 ^ (k - 52)
    let half := 2 ^ (k - 53)
    if half < r ∨ r = half ∧ q % 2 = 1 then q + 1 else q

/-- The float nearest to a natural number below `2 ^ 1023`.  A carry out of the significand goes
to the exponent, which is what it means. -/
def ofNat (n : Nat) : F64 :=
  if n = 0 then zero
  else ⟨UInt64.ofNat (((Nat.log2 n + 1023) <<< 52) + (significand n - 2 ^ 52))⟩

/-- The float nearest to an integer. -/
def ofInt (i : Int) : F64 :=
  if 0 ≤ i then ofNat i.toNat else ⟨(ofNat i.natAbs).bits ||| 0x8000000000000000⟩

/-- The exponent `e` for which `n / d` is between `2 ^ e` and `2 ^ (e + 1)`. -/
def ratioLog (n d : Nat) : Int :=
  let l : Int := (Nat.log2 n : Int) - Nat.log2 d
  if n * 2 ^ (-l).toNat < d * 2 ^ l.toNat then l - 1 else l

/-- The float nearest to `n / d`, ties to even, and infinity beyond the largest.  The significand is
cut to 53 bits, or at `2 ^ -1074`; a carry out of it goes to the exponent. -/
def ofRatio (n d : Nat) : F64 :=
  if n = 0 then zero
  else
    let e := max (ratioLog n d - 52) (-1074)
    let num := n * 2 ^ (-e).toNat
    let den := d * 2 ^ e.toNat
    let q := num / den
    let r := num % den
    let q := if den < 2 * r ∨ 2 * r = den ∧ q % 2 = 1 then q + 1 else q
    ⟨UInt64.ofNat (min (((e + 1074).toNat <<< 52) + q) 0x7FF0000000000000)⟩

/-- The sign bit is set. -/
def neg (x : F64) : F64 := ⟨x.bits ||| 0x8000000000000000⟩

/-! ### Comparing -/

/-- The value of a finite float in units of `2 ^ -1074`, of which every finite float is a
multiple. -/
def units (x : F64) : Int :=
  let magnitude := if x.exponent = 0 then x.fraction.toNat
    else (2 ^ 52 + x.fraction.toNat) * 2 ^ (x.exponent.toNat - 1)
  if x.isNegative then -(magnitude : Int) else magnitude

/-- The place of a float that is not a NaN in the order: infinities are beyond `2 ^ 1024`. -/
def place (x : F64) : Int :=
  if x.isFinite then x.units else if x.isNegative then -2 ^ 2099 else 2 ^ 2099

/-- IEEE `<`. -/
def lt (x y : F64) : Bool := !x.isNaN && !y.isNaN && decide (x.place < y.place)

/-- IEEE `<=`. -/
def le (x y : F64) : Bool := !x.isNaN && !y.isNaN && decide (x.place ≤ y.place)

/-- `(x - y).abs() < f64::EPSILON`.  The floats below `2 ^ -52`, which is `2 ^ 1022` units, are
`2 ^ 969` units apart: a difference of at least `2 ^ 1022 - 2 ^ 968` units is rounded to
`2 ^ -52` or more. -/
def near (x y : F64) : Bool :=
  x.isFinite && y.isFinite && decide ((x.units - y.units).natAbs < 2 ^ 1022 - 2 ^ 968)

/-- `(x - y).abs() >= f64::EPSILON`, which a NaN is not: the difference of a NaN is one, and that of
two infinities of the same sign. -/
def apart (x y : F64) : Bool :=
  !x.isNaN && !y.isNaN &&
    !(!x.isFinite && !y.isFinite && x.isNegative == y.isNegative) && !x.near y

example : ofRatio 1 10 = ⟨0x3FB999999999999A⟩ := by decide +kernel

example : ofInt (-5) = ⟨0xC014000000000000⟩ := by decide +kernel

/-! ### Integers -/

/-- An integer. -/
def isInteger (x : F64) : Bool := x.isFinite && x.units % 2 ^ 1074 == 0

theorem toNat_exponent (x : F64) : x.exponent.toNat = x.bits.toNat / 2 ^ 52 % 2 ^ 11 := by
  unfold exponent
  rw [UInt64.toNat_and, UInt64.toNat_shiftRight]
  have h : (0x7FF : UInt64).toNat = 2 ^ 11 - 1 := rfl
  rw [h, Nat.and_two_pow_sub_one_eq_mod]
  congr 1
  rw [Nat.shiftRight_eq_div_pow]
  rfl

theorem toNat_fraction (x : F64) : x.fraction.toNat = x.bits.toNat % 2 ^ 52 := by
  unfold fraction
  rw [UInt64.toNat_and]
  have h : (0xFFFFFFFFFFFFF : UInt64).toNat = 2 ^ 52 - 1 := rfl
  rw [h, Nat.and_two_pow_sub_one_eq_mod]

theorem isNegative_eq (x : F64) : x.isNegative = decide (2 ^ 63 ≤ x.bits.toNat) := by
  have hlt := x.bits.toNat_lt
  have hshift : (x.bits >>> 63).toNat = x.bits.toNat / 2 ^ 63 := by
    rw [UInt64.toNat_shiftRight, Nat.shiftRight_eq_div_pow]
    rfl
  rw [isNegative, Bool.eq_iff_iff, beq_iff_eq, decide_eq_true_iff, ← UInt64.toNat_inj, hshift]
  have : (1 : UInt64).toNat = 1 := rfl
  omega

/-- The significand of a number below `2 ^ 53` is the number, shifted. -/
theorem toNat_bits_ofRatio_one {n l : Nat} (hl : Nat.log2 n = l) (hpos : 0 < n) (h : n < 2 ^ 53) :
    l ≤ 52 ∧ 2 ^ 52 ≤ n * 2 ^ (52 - l) ∧ n * 2 ^ (52 - l) < 2 ^ 53 ∧
      (ofRatio n 1).bits.toNat = (l + 1022) * 2 ^ 52 + n * 2 ^ (52 - l) := by
  have hlow : 2 ^ l ≤ n := hl ▸ Nat.log2_self_le (by omega)
  have hlog : l ≤ 52 := hl ▸ Nat.lt_succ_iff.1 ((Nat.log2_lt (by omega)).2 h)
  have hlt : n < 2 ^ (l + 1) := hl ▸ Nat.lt_log2_self
  have hlow' : 2 ^ 52 ≤ n * 2 ^ (52 - l) := by
    calc 2 ^ 52 = 2 ^ l * 2 ^ (52 - l) := by rw [← Nat.pow_add]; congr 1; omega
      _ ≤ n * 2 ^ (52 - l) := Nat.mul_le_mul_right _ hlow
  have hhigh : n * 2 ^ (52 - l) < 2 ^ 53 := by
    calc n * 2 ^ (52 - l) < 2 ^ (l + 1) * 2 ^ (52 - l) :=
          Nat.mul_lt_mul_of_pos_right hlt (Nat.two_pow_pos _)
      _ = 2 ^ 53 := by rw [← Nat.pow_add]; congr 1; omega
  refine ⟨hlog, hlow', hhigh, ?_⟩
  have hratio : ratioLog n 1 = l := by
    have h1 : Nat.log2 1 = 0 := rfl
    simp only [ratioLog, h1, hl]
    rw [if_neg]
    · simp
    · simp
      exact hlow
  have he : max (ratioLog n 1 - 52) (-1074) = -((52 - l : Nat) : Int) := by
    rw [hratio]
    omega
  have hneg : (-(-((52 - l : Nat) : Int))).toNat = 52 - l := by omega
  have hzero : (-((52 - l : Nat) : Int)).toNat = 0 := by omega
  have hexp : (-((52 - l : Nat) : Int) + 1074).toNat = l + 1022 := by omega
  rw [ofRatio, if_neg (by omega)]
  simp only [he, hneg, hzero, hexp]
  generalize n * 2 ^ (52 - l) = q at hlow' hhigh ⊢
  have hone : 1 * 2 ^ 0 = 1 := rfl
  have hround : ¬(1 < 2 * 0 ∨ 2 * 0 = 1 ∧ q % 2 = 1) := by omega
  have hmin : (l + 1022) * 2 ^ 52 + q ≤ 0x7FF0000000000000 := by omega
  have hlt : (l + 1022) * 2 ^ 52 + q < 2 ^ 64 := by omega
  rw [hone, Nat.div_one, Nat.mod_one, if_neg hround, Nat.shiftLeft_eq, Nat.min_eq_left hmin,
    UInt64.toNat_ofNat', Nat.mod_eq_of_lt hlt]

/-- A finite float that is not negative, by its exponent and its fraction. -/
theorem units_of_bits {x : F64} {e f : Nat} (he : 0 < e) (he' : e < 2047) (hf : f < 2 ^ 52)
    (hx : x.bits.toNat = e * 2 ^ 52 + f) :
    x.isFinite = true ∧ x.units = ((2 ^ 52 + f) * 2 ^ (e - 1) : Nat) := by
  have hexp : x.exponent.toNat = e := by
    rw [toNat_exponent, hx]
    omega
  have hfrac : x.fraction.toNat = f := by
    rw [toNat_fraction, hx]
    omega
  have hpos : x.isNegative = false := by
    rw [isNegative_eq, hx]
    exact decide_eq_false (by omega)
  have hmax : (0x7FF : UInt64).toNat = 2047 := rfl
  have hzero : (0 : UInt64).toNat = 0 := rfl
  constructor
  · rw [isFinite, bne_iff_ne]
    intro heq
    rw [heq, hmax] at hexp
    omega
  · have hne : x.exponent ≠ 0 := by
      intro heq
      rw [heq, hzero] at hexp
      omega
    simp only [units, hpos, if_neg hne, hfrac, hexp]
    rfl

/-- **Below `2 ^ 53` a number is represented as it is.** -/
theorem units_ofRatio_one {n : Nat} (h : n < 2 ^ 53) :
    (ofRatio n 1).bits.toNat < 2 ^ 63 ∧ (ofRatio n 1).isFinite = true ∧
      (ofRatio n 1).units = (n * 2 ^ 1074 : Nat) := by
  rcases Nat.eq_zero_or_pos n with rfl | hpos
  · rw [Nat.zero_mul]
    exact ⟨by decide, by decide, by decide⟩
  obtain ⟨hlog, hlow, hhigh, hbits⟩ := toNat_bits_ofRatio_one rfl hpos h
  generalize Nat.log2 n = l at hlog hlow hhigh hbits
  obtain ⟨f, hf⟩ := Nat.exists_eq_add_of_le hlow
  have hx : (ofRatio n 1).bits.toNat = (l + 1023) * 2 ^ 52 + f := by
    rw [hbits, hf]
    omega
  obtain ⟨hfinite, hunits⟩ := units_of_bits (by omega) (by omega) (by omega) hx
  refine ⟨by omega, hfinite, ?_⟩
  rw [hunits, ← hf, Nat.mul_assoc, ← Nat.pow_add]
  have hsum : 52 - l + (l + 1023 - 1) = 1074 := by omega
  exact congrArg (fun k => ((n * 2 ^ k : Nat) : Int)) hsum

theorem units_neg {x : F64} (h : x.bits.toNat < 2 ^ 63) :
    x.neg.isFinite = x.isFinite ∧ x.neg.units = -x.units := by
  have hbits : x.neg.bits.toNat = 2 ^ 63 + x.bits.toNat := by
    have hsign : (0x8000000000000000 : UInt64).toNat = 2 ^ 63 := rfl
    rw [neg, UInt64.toNat_or, hsign, Nat.or_two_pow_eq_add_of_lt h, Nat.add_comm]
  have hexp : x.neg.exponent = x.exponent := by
    rw [← UInt64.toNat_inj, toNat_exponent, toNat_exponent, hbits]
    omega
  have hfrac : x.neg.fraction = x.fraction := by
    rw [← UInt64.toNat_inj, toNat_fraction, toNat_fraction, hbits]
    omega
  have hpos : x.isNegative = false := by
    rw [isNegative_eq]
    exact decide_eq_false (by omega)
  have hneg : x.neg.isNegative = true := by
    rw [isNegative_eq, hbits]
    exact decide_eq_true (by omega)
  constructor
  · rw [isFinite, isFinite, hexp]
  · simp only [units, hexp, hfrac, hpos, hneg]
    rfl

end F64

end Lib
