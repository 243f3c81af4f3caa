import Mathlib.Data.Nat.Cast.Order.Ring
import Mathlib.Tactic.Ring
import Omp.Lib.F64

/-!
# Integers as floats

The float nearest to an integer has an integer value, which grows with the integer.  Floats that
come from integers are therefore compared as these values, and are near only when they are equal.

## Main definitions

* `F64.roundNat`, `F64.roundInt` : the value of the float nearest to an integer.

## Main results

* `F64.units_ofInt` : that it is.
* `F64.roundInt_mono` : it grows with the integer.
* `F64.lt_ofInt`, `F64.le_ofInt`, `F64.near_ofInt`, `F64.ofInt_inj` : comparisons.
-/

namespace Lib

namespace F64

/-! ### Rounding natural numbers -/

/-- The value of the float nearest to a natural number. -/
def roundNat (n : Nat) : Nat :=
  if Nat.log2 n ≤ 52 then n else significand n * 2 ^ (Nat.log2 n - 52)

theorem significand_of_le {n : Nat} (h : Nat.log2 n ≤ 52) :
    significand n = n * 2 ^ (52 - Nat.log2 n) := by
  rw [significand, if_pos h, Nat.shiftLeft_eq]

/-- A number is cut to 53 bits, and one is added where it rounds up. -/
theorem significand_of_lt {n k : Nat} (hk : Nat.log2 n = k) (h : 52 < k) :
    significand n = n / 2 ^ (k - 52) +
      if 2 ^ (k - 53) < n % 2 ^ (k - 52) ∨
        n % 2 ^ (k - 52) = 2 ^ (k - 53) ∧ n / 2 ^ (k - 52) % 2 = 1 then 1 else 0 := by
  rw [significand, hk, if_neg (by omega), Nat.shiftRight_eq_div_pow]
  dsimp only
  split_ifs <;> rfl

theorem two_pow_le_of_log2 {n k : Nat} (hn : 0 < n) (hk : Nat.log2 n = k) :
    2 ^ k ≤ n ∧ n < 2 ^ (k + 1) :=
  ⟨hk ▸ Nat.log2_self_le (by omega), hk ▸ Nat.lt_log2_self⟩

/-- The significand has 53 bits, or is the power of two after them. -/
theorem significand_bounds {n : Nat} (hn : 0 < n) :
    2 ^ 52 ≤ significand n ∧ significand n ≤ 2 ^ 53 := by
  obtain ⟨hlow, hhigh⟩ := two_pow_le_of_log2 hn rfl
  generalize hk : Nat.log2 n = k at hlow hhigh
  rcases Nat.lt_or_ge 52 k with h | h
  · have hsplit : 2 ^ k = 2 ^ 52 * 2 ^ (k - 52) := by rw [← Nat.pow_add]; congr 1; omega
    have hsplit' : 2 ^ (k + 1) = 2 ^ 53 * 2 ^ (k - 52) := by rw [← Nat.pow_add]; congr 1; omega
    rw [hsplit] at hlow
    rw [hsplit'] at hhigh
    have hdiv : 2 ^ 52 ≤ n / 2 ^ (k - 52) := (Nat.le_div_iff_mul_le (Nat.two_pow_pos _)).2 hlow
    have hdiv' : n / 2 ^ (k - 52) < 2 ^ 53 := (Nat.div_lt_iff_lt_mul (Nat.two_pow_pos _)).2 hhigh
    rw [significand_of_lt hk h]
    split_ifs <;> omega
  · have hsplit : 2 ^ 52 = 2 ^ k * 2 ^ (52 - k) := by rw [← Nat.pow_add]; congr 1; omega
    have hsplit' : 2 ^ 53 = 2 ^ (k + 1) * 2 ^ (52 - k) := by rw [← Nat.pow_add]; congr 1; omega
    rw [significand_of_le (hk ▸ h), hk, hsplit', hsplit]
    exact ⟨Nat.mul_le_mul_right _ hlow, Nat.mul_le_mul_right _ hhigh.le⟩

/-- Rounding stays between the powers of two around a number. -/
theorem roundNat_bounds {n k : Nat} (hn : 0 < n) (hk : Nat.log2 n = k) :
    2 ^ k ≤ roundNat n ∧ roundNat n ≤ 2 ^ (k + 1) := by
  obtain ⟨hlow, hhigh⟩ := two_pow_le_of_log2 hn hk
  rw [roundNat, hk]
  split_ifs with h
  · exact ⟨hlow, hhigh.le⟩
  · obtain ⟨hsig, hsig'⟩ := significand_bounds hn
    have hsplit : 2 ^ k = 2 ^ 52 * 2 ^ (k - 52) := by rw [← Nat.pow_add]; congr 1; omega
    have hsplit' : 2 ^ (k + 1) = 2 ^ 53 * 2 ^ (k - 52) := by rw [← Nat.pow_add]; congr 1; omega
    rw [hsplit, hsplit']
    exact ⟨Nat.mul_le_mul_right _ hsig, Nat.mul_le_mul_right _ hsig'⟩

/-- Numbers of one length are rounded in their order. -/
theorem significand_mono {n m k : Nat} (hn : Nat.log2 n = k) (hm : Nat.log2 m = k) (hk : 52 < k)
    (h : n ≤ m) : significand n ≤ significand m := by
  rw [significand_of_lt hn hk, significand_of_lt hm hk]
  have hdiv : n / 2 ^ (k - 52) ≤ m / 2 ^ (k - 52) := Nat.div_le_div_right h
  rcases Nat.lt_or_eq_of_le hdiv with hlt | heq
  · split_ifs <;> omega
  · -- with the same quotient, the remainders are in order, and rounding looks at them alone
    have hmod : n % 2 ^ (k - 52) ≤ m % 2 ^ (k - 52) := by
      have hn' := Nat.div_add_mod n (2 ^ (k - 52))
      have hm' := Nat.div_add_mod m (2 ^ (k - 52))
      rw [heq] at hn'
      omega
    rw [heq]
    generalize n % 2 ^ (k - 52) = r at hmod ⊢
    generalize m % 2 ^ (k - 52) = r' at hmod ⊢
    generalize m / 2 ^ (k - 52) = q
    generalize 2 ^ (k - 53) = half
    split_ifs <;> omega

theorem roundNat_zero : roundNat 0 = 0 := rfl

theorem roundNat_mono {n m : Nat} (h : n ≤ m) : roundNat n ≤ roundNat m := by
  rcases Nat.eq_zero_or_pos n with rfl | hn
  · rw [roundNat_zero]
    exact Nat.zero_le _
  have hm : 0 < m := hn.trans_le h
  have hlog : Nat.log2 n ≤ Nat.log2 m :=
    (Nat.le_log2 (by omega)).2 ((Nat.log2_self_le (by omega)).trans h)
  rcases Nat.lt_or_eq_of_le hlog with hlt | heq
  · calc roundNat n ≤ 2 ^ (Nat.log2 n + 1) := (roundNat_bounds hn rfl).2
      _ ≤ 2 ^ Nat.log2 m := Nat.pow_le_pow_right (by omega) hlt
      _ ≤ roundNat m := (roundNat_bounds hm rfl).1
  · rw [roundNat, roundNat, heq]
    split_ifs with hk
    · exact h
    · exact Nat.mul_le_mul_right _ (significand_mono heq rfl (by omega) h)

/-! ### The float of a natural number -/

theorem toNat_bits_ofNat {n : Nat} (hn : 0 < n) (h : Nat.log2 n < 1023) :
    (ofNat n).bits.toNat = (Nat.log2 n + 1022) * 2 ^ 52 + significand n ∧
      (ofNat n).bits.toNat < 2 ^ 63 := by
  obtain ⟨hsig, hsig'⟩ := significand_bounds hn
  have hvalue : ((Nat.log2 n + 1023) <<< 52) + (significand n - 2 ^ 52) =
      (Nat.log2 n + 1022) * 2 ^ 52 + significand n := by
    rw [Nat.shiftLeft_eq]
    omega
  rw [ofNat, if_neg (by omega), UInt64.toNat_ofNat', hvalue, Nat.mod_eq_of_lt (by omega)]
  exact ⟨rfl, by omega⟩

/-- The rounded value is the significand at the place of the highest bit. -/
theorem roundNat_mul {n u : Nat} (hu : 52 ≤ u) :
    roundNat n * 2 ^ u = significand n * 2 ^ (Nat.log2 n + (u - 52)) := by
  rw [roundNat]
  split_ifs with hk
  · have hsum : u = 52 - Nat.log2 n + (Nat.log2 n + (u - 52)) := by omega
    rw [significand_of_le hk, Nat.mul_assoc, ← Nat.pow_add, ← hsum]
  · have hsum : Nat.log2 n + (u - 52) = Nat.log2 n - 52 + u := by omega
    rw [Nat.mul_assoc, ← Nat.pow_add, ← hsum]

/-- **The float of a natural number** has its rounded value. -/
theorem units_ofNat {n : Nat} (h : Nat.log2 n < 1023) :
    (ofNat n).isFinite = true ∧ (ofNat n).bits.toNat < 2 ^ 63 ∧
      (ofNat n).units = (roundNat n * 2 ^ 1074 : Nat) := by
  rcases Nat.eq_zero_or_pos n with rfl | hn
  · rw [roundNat_zero, Nat.zero_mul]
    exact ⟨by decide, by decide, by decide⟩
  obtain ⟨hbits, hsign⟩ := toNat_bits_ofNat hn h
  obtain ⟨hsig, hsig'⟩ := significand_bounds hn
  have hfloat : (ofNat n).isFinite = true ∧
      (ofNat n).units = (significand n * 2 ^ (Nat.log2 n + 1022) : Nat) := by
    generalize ofNat n = x at hbits ⊢
    generalize significand n = q at hbits hsig hsig' ⊢
    generalize Nat.log2 n = l at h hbits ⊢
    clear hsign hn
    rcases Nat.lt_or_eq_of_le hsig' with hlt | rfl
    · obtain ⟨f, rfl⟩ := Nat.exists_eq_add_of_le hsig
      have hx : x.bits.toNat = (l + 1023) * 2 ^ 52 + f := hbits.trans (by ring)
      have hexp : l + 1023 - 1 = l + 1022 := Nat.succ_sub_one _
      have hunits := units_of_bits (Nat.succ_pos _) (by omega) (by omega) hx
      rwa [hexp] at hunits
    · -- a carry goes to the exponent
      have hx : x.bits.toNat = (l + 1024) * 2 ^ 52 + 0 := hbits.trans (by ring)
      obtain ⟨hfinite, hunits⟩ := units_of_bits (Nat.succ_pos _) (by omega) (by omega) hx
      refine ⟨hfinite, hunits.trans ?_⟩
      have hsum : 52 + (l + 1024 - 1) = 53 + (l + 1022) := by omega
      rw [Nat.add_zero, ← Nat.pow_add, ← Nat.pow_add, hsum]
  have hround : roundNat n * 2 ^ 1074 = significand n * 2 ^ (Nat.log2 n + (1074 - 52)) :=
    roundNat_mul (by decide)
  rw [hround]
  exact ⟨hfloat.1, hsign, hfloat.2⟩

/-! ### Floats by their values -/

/-- The value of a float without a sign, by its bits. -/
def magnitude (b : Nat) : Nat :=
  if b / 2 ^ 52 = 0 then b % 2 ^ 52 else (2 ^ 52 + b % 2 ^ 52) * 2 ^ (b / 2 ^ 52 - 1)

theorem magnitude_strictMono : StrictMono magnitude := by
  intro b b' h
  have hdiv : b / 2 ^ 52 ≤ b' / 2 ^ 52 := Nat.div_le_div_right h.le
  have hfrac : b % 2 ^ 52 < 2 ^ 52 := Nat.mod_lt _ (Nat.two_pow_pos _)
  have hsplit := Nat.div_add_mod b (2 ^ 52)
  have hsplit' := Nat.div_add_mod b' (2 ^ 52)
  unfold magnitude
  generalize b / 2 ^ 52 = e at hdiv hsplit ⊢
  generalize b' / 2 ^ 52 = e' at hdiv hsplit' ⊢
  generalize b % 2 ^ 52 = f at hfrac hsplit ⊢
  generalize b' % 2 ^ 52 = f' at hsplit' ⊢
  rcases Nat.lt_or_eq_of_le hdiv with hlt | rfl
  · -- a greater exponent is at least a doubling
    have hle : 2 ^ 52 * 2 ^ (e' - 1) ≤ (2 ^ 52 + f') * 2 ^ (e' - 1) :=
      Nat.mul_le_mul_right _ (Nat.le_add_right _ _)
    rw [if_neg (show ¬ e' = 0 by omega)]
    refine Nat.lt_of_lt_of_le ?_ hle
    by_cases he : e = 0
    · rw [if_pos he]
      exact hfrac.trans_le (Nat.le_mul_of_pos_right _ (Nat.two_pow_pos _))
    · rw [if_neg he]
      calc (2 ^ 52 + f) * 2 ^ (e - 1) < (2 * 2 ^ 52) * 2 ^ (e - 1) :=
            Nat.mul_lt_mul_of_pos_right (by omega) (Nat.two_pow_pos _)
        _ = 2 ^ 52 * 2 ^ (e - 1 + 1) := by rw [Nat.pow_succ]; ring
        _ ≤ 2 ^ 52 * 2 ^ (e' - 1) :=
            Nat.mul_le_mul_left _ (Nat.pow_le_pow_right (by omega) (by omega))
  · have hff : f < f' := by omega
    by_cases he : e = 0
    · rw [if_pos he, if_pos he]
      exact hff
    · rw [if_neg he, if_neg he]
      exact Nat.mul_lt_mul_of_pos_right (by omega) (Nat.two_pow_pos _)

theorem units_of_nonneg {x : F64} (h : x.bits.toNat < 2 ^ 63) :
    x.units = (magnitude x.bits.toNat : Int) := by
  have hpos : x.isNegative = false := by
    rw [isNegative_eq]
    exact decide_eq_false (by omega)
  have hexp : x.exponent.toNat = x.bits.toNat / 2 ^ 52 := by
    rw [toNat_exponent]
    omega
  have hzero : x.exponent = 0 ↔ x.bits.toNat / 2 ^ 52 = 0 := by
    rw [← hexp, ← UInt64.toNat_inj]
    rfl
  have hunits : x.units = ((if x.exponent = 0 then x.fraction.toNat
      else (2 ^ 52 + x.fraction.toNat) * 2 ^ (x.exponent.toNat - 1) : Nat) : Int) := by
    rw [units, hpos]
    rfl
  rw [hunits, magnitude, toNat_fraction, hexp]
  by_cases hx : x.bits.toNat / 2 ^ 52 = 0
  · rw [if_pos hx, if_pos (hzero.2 hx)]
  · rw [if_neg hx, if_neg (mt hzero.1 hx)]

/-- Floats without a sign are told apart by their values. -/
theorem eq_of_units {x y : F64} (hx : x.bits.toNat < 2 ^ 63) (hy : y.bits.toNat < 2 ^ 63)
    (h : x.units = y.units) : x = y := by
  rw [units_of_nonneg hx, units_of_nonneg hy, Nat.cast_inj] at h
  have hbits := UInt64.toNat_inj.1 (magnitude_strictMono.injective h)
  cases x
  cases y
  exact congrArg F64.mk hbits

/-! ### Integers -/

/-- The value of the float nearest to an integer. -/
def roundInt (i : Int) : Int := if 0 ≤ i then roundNat i.toNat else -roundNat i.natAbs

/-- An integer that a float can come near to. -/
def InRange (i : Int) : Prop := Nat.log2 i.natAbs < 1023

theorem ofInt_of_neg {i : Int} (h : i < 0) : ofInt i = (ofNat i.natAbs).neg := by
  rw [ofInt, if_neg (by omega), neg]

theorem ofInt_of_nonneg {i : Int} (h : 0 ≤ i) : ofInt i = ofNat i.natAbs := by
  rw [ofInt, if_pos h]
  congr 1
  omega

theorem roundInt_of_neg {i : Int} (h : i < 0) : roundInt i = -roundNat i.natAbs := by
  rw [roundInt, if_neg (by omega)]

theorem roundInt_of_nonneg {i : Int} (h : 0 ≤ i) : roundInt i = roundNat i.natAbs := by
  have hnat : i.toNat = i.natAbs := by omega
  rw [roundInt, if_pos h, hnat]

/-- **The float of an integer** has its rounded value. -/
theorem units_ofInt {i : Int} (h : InRange i) :
    (ofInt i).isFinite = true ∧ (ofInt i).units = roundInt i * 2 ^ 1074 := by
  obtain ⟨hfinite, hbits, hunits⟩ := units_ofNat h
  have hcast : ((roundNat i.natAbs * 2 ^ 1074 : Nat) : Int) = roundNat i.natAbs * 2 ^ 1074 := by
    rw [Nat.cast_mul, Nat.cast_pow]
    rfl
  rw [hcast] at hunits
  rcases Int.lt_or_le i 0 with hneg | hpos
  · obtain ⟨hfinite', hunits'⟩ := units_neg hbits
    rw [ofInt_of_neg hneg, roundInt_of_neg hneg, hfinite', hunits', hunits]
    exact ⟨hfinite, (Int.neg_mul _ _).symm⟩
  · rw [ofInt_of_nonneg hpos, roundInt_of_nonneg hpos]
    exact ⟨hfinite, hunits⟩

/-- **Rounding keeps the order.** -/
theorem roundInt_mono {i j : Int} (h : i ≤ j) : roundInt i ≤ roundInt j := by
  rcases Int.lt_or_le i 0 with hi | hi
  · rw [roundInt_of_neg hi]
    rcases Int.lt_or_le j 0 with hj | hj
    · have hmono := roundNat_mono (n := j.natAbs) (m := i.natAbs) (by omega)
      rw [roundInt_of_neg hj]
      omega
    · rw [roundInt_of_nonneg hj]
      omega
  · have hmono := roundNat_mono (n := i.natAbs) (m := j.natAbs) (by omega)
    rw [roundInt_of_nonneg hi, roundInt_of_nonneg (hi.trans h)]
    omega

/-- Integers have one float exactly when they have one rounded value. -/
theorem ofInt_inj {i j : Int} (hi : InRange i) (hj : InRange j) :
    ofInt i = ofInt j ↔ roundInt i = roundInt j := by
  have hpow : (2 : Int) ^ 1074 ≠ 0 := pow_ne_zero _ (by decide)
  constructor
  · intro h
    have hunits := congrArg units h
    rw [(units_ofInt hi).2, (units_ofInt hj).2] at hunits
    exact Int.eq_of_mul_eq_mul_right hpow hunits
  · intro h
    have hpos : ∀ {k : Int}, k < 0 → 0 < roundNat k.natAbs := fun {k} hk =>
      (Nat.two_pow_pos _).trans_le (roundNat_bounds (by omega) rfl).1
    have hnat : roundNat i.natAbs = roundNat j.natAbs → ofNat i.natAbs = ofNat j.natAbs := by
      intro heq
      obtain ⟨-, hbits, hunits⟩ := units_ofNat hi
      obtain ⟨-, hbits', hunits'⟩ := units_ofNat hj
      exact eq_of_units hbits hbits' (by rw [hunits, hunits', heq])
    rcases Int.lt_or_le i 0 with hi' | hi'
    · rcases Int.lt_or_le j 0 with hj' | hj'
      · rw [roundInt_of_neg hi', roundInt_of_neg hj'] at h
        rw [ofInt_of_neg hi', ofInt_of_neg hj', hnat (by omega)]
      · have := hpos hi'
        rw [roundInt_of_neg hi', roundInt_of_nonneg hj'] at h
        omega
    · rcases Int.lt_or_le j 0 with hj' | hj'
      · have := hpos hj'
        rw [roundInt_of_nonneg hi', roundInt_of_neg hj'] at h
        omega
      · rw [roundInt_of_nonneg hi', roundInt_of_nonneg hj'] at h
        rw [ofInt_of_nonneg hi', ofInt_of_nonneg hj', hnat (by omega)]

/-! ### Comparisons -/

theorem isNaN_of_isFinite {x : F64} (h : x.isFinite = true) : x.isNaN = false := by
  rw [isFinite, bne_iff_ne] at h
  rw [isNaN, beq_eq_false_iff_ne.2 h, Bool.false_and]

section Compare

variable {i j : Int} (hi : InRange i) (hj : InRange j)

include hi hj

theorem lt_ofInt : (ofInt i).lt (ofInt j) = true ↔ roundInt i < roundInt j := by
  obtain ⟨hfi, hui⟩ := units_ofInt hi
  obtain ⟨hfj, huj⟩ := units_ofInt hj
  have hpow : (0 : Int) < 2 ^ 1074 := Int.pow_pos (by decide)
  rw [lt, isNaN_of_isFinite hfi, isNaN_of_isFinite hfj, place, place, if_pos hfi, if_pos hfj, hui,
    huj]
  simp only [Bool.not_false, Bool.true_and, decide_eq_true_iff]
  exact Int.mul_lt_mul_right hpow

theorem le_ofInt : (ofInt i).le (ofInt j) = true ↔ roundInt i ≤ roundInt j := by
  obtain ⟨hfi, hui⟩ := units_ofInt hi
  obtain ⟨hfj, huj⟩ := units_ofInt hj
  have hpow : (0 : Int) < 2 ^ 1074 := Int.pow_pos (by decide)
  rw [le, isNaN_of_isFinite hfi, isNaN_of_isFinite hfj, place, place, if_pos hfi, if_pos hfj, hui,
    huj]
  simp only [Bool.not_false, Bool.true_and, decide_eq_true_iff]
  exact Int.mul_le_mul_right hpow

/-- **Floats of integers are near only when they are equal.** -/
theorem near_ofInt : (ofInt i).near (ofInt j) = true ↔ roundInt i = roundInt j := by
  obtain ⟨hfi, hui⟩ := units_ofInt hi
  obtain ⟨hfj, huj⟩ := units_ofInt hj
  have hsmall : 2 ^ 1022 - 2 ^ 968 ≤ 2 ^ 1074 :=
    (Nat.sub_le _ _).trans (Nat.pow_le_pow_right (by decide) (by decide))
  have hlt : 2 ^ 968 < 2 ^ 1022 := Nat.pow_lt_pow_right (by decide) (by decide)
  have hgap : 0 < 2 ^ 1022 - 2 ^ 968 := Nat.sub_pos_of_lt hlt
  have habs : ((2 : Int) ^ 1074).natAbs = 2 ^ 1074 := Int.natAbs_pow 2 1074
  rw [near, hfi, hfj, hui, huj, ← Int.sub_mul, Int.natAbs_mul, habs]
  simp only [Bool.true_and, decide_eq_true_iff]
  constructor
  · intro h
    by_contra hne
    have hpos : 1 ≤ (roundInt i - roundInt j).natAbs := by omega
    have hle := Nat.mul_le_mul_right (2 ^ 1074) hpos
    rw [Nat.one_mul] at hle
    exact absurd (h.trans_le (hsmall.trans hle)) (Nat.lt_irrefl _)
  · intro h
    rw [h, Int.sub_self, Int.natAbs_zero, Nat.zero_mul]
    exact hgap

theorem apart_ofInt : (ofInt i).apart (ofInt j) = !(ofInt i).near (ofInt j) := by
  obtain ⟨hfi, -⟩ := units_ofInt hi
  obtain ⟨hfj, -⟩ := units_ofInt hj
  rw [apart, isNaN_of_isFinite hfi, isNaN_of_isFinite hfj, hfi, hfj]
  rfl

end Compare

end F64

end Lib
