import Mathlib.Tactic.IntervalCases
import Omp.Lib.Calendar

/-!
# Timestamps of the builder's jobs

`chrono_secs_to_iso` turns a number of seconds since 1970 into a date and a time, without a library
for dates.  It counts days from the first of March of the year 0, in eras of 400 years, so that the
day that comes and goes is the last one of a year.

## Main definitions

* `daysSinceEpochToYmd`, `chronoSecsToIso` : the functions.
* `isoText` : the text of a date and a time.

## Main results

* `ymd_succ` : the next day has the next date.
* `timestamps_correct` : what is printed is the date and the time.
-/

namespace Omp

open Lib

/-! ### The functions -/

/-- `as i32`. -/
def asI32 (i : Int) : Int := i.bmod (2 ^ 32)

/-- A result of 64 bits. -/
def asI64 (i : Int) : Int := i.bmod (2 ^ 64)

/-- `days_since_epoch_to_ymd`.  The intermediate numbers of type `u32` do not go below zero. -/
def daysSinceEpochToYmd (days : Int) : Date :=
  let days := asI64 (days + 719468)
  let era := days / 146097
  let doe := (days % 146097).toNat
  let yoe := (doe - doe / 1460 + doe / 36524 - doe / 146096) / 365
  let y := asI32 (yoe + asI32 (asI32 era * 400))
  let doy := doe - (365 * yoe + yoe / 4 - yoe / 100)
  let mp := (5 * doy + 2) / 153
  let d := doy - (153 * mp + 2) / 5 + 1
  let m := if mp < 10 then mp + 3 else mp - 9
  let y := if m ≤ 2 then asI32 (y + 1) else y
  ⟨y, m, d⟩

/-- `{:04}` of a number with a sign. -/
def paddedInt (w : Nat) (i : Int) : Text :=
  if i < 0 then '-' :: padded (w - 1) i.natAbs else padded w i.natAbs

/-- The text of a date and a time. -/
def isoText (d : Date) (h m s : Nat) : Text :=
  paddedInt 4 d.year ++ ('-' :: padded 2 d.month ++ ('-' :: padded 2 d.day ++
    ('T' :: padded 2 h ++ (':' :: padded 2 m ++ (':' :: padded 2 s ++ ['Z'])))))

/-- `chrono_secs_to_iso`. -/
def chronoSecsToIso (secs : Int) : Text :=
  let days := secs / 86400
  let secsOfDay := (secs % 86400).toNat
  let h := secsOfDay / 3600
  let m := secsOfDay % 3600 / 60
  let s := secsOfDay % 60
  isoText (daysSinceEpochToYmd days) h m s

/-! ### Years that begin in March -/

/-- The number of days before a year of an era. -/
def startOfYear (y : Nat) : Nat := 365 * y + y / 4 - y / 100 + y / 400

/-- The year of an era, by its day. -/
def yearOfEra (doe : Nat) : Nat := (doe - doe / 1460 + doe / 36524 - doe / 146096) / 365

/-- The first and the last day of every year are in it. -/
theorem yearOfEra_ends : ∀ y < 400, yearOfEra (startOfYear y) = y ∧
    yearOfEra (startOfYear (y + 1) - 1) = y := by
  decide +kernel

theorem yearOfEra_mono : Monotone yearOfEra := by
  have hstep : ∀ n, n - n / 1460 + n / 36524 - n / 146096 ≤
      n + 1 - (n + 1) / 1460 + (n + 1) / 36524 - (n + 1) / 146096 := fun n => by omega
  exact fun a b h => Nat.div_le_div_right (monotone_nat_of_le_succ hstep h)

/-- **The year of a day** is the one it is in. -/
theorem yearOfEra_bounds {doe : Nat} (h : doe < 146097) :
    yearOfEra doe < 400 ∧ startOfYear (yearOfEra doe) ≤ doe ∧
      doe < startOfYear (yearOfEra doe + 1) := by
  have hlast : yearOfEra doe ≤ 399 := by
    have hmax : yearOfEra 146096 = 399 := by decide
    exact hmax ▸ yearOfEra_mono (Nat.lt_succ_iff.1 h)
  refine ⟨Nat.lt_succ_of_le hlast, ?_, ?_⟩
  · -- before its beginning it would be in the year before
    by_contra hlt
    obtain ⟨y, hy⟩ : ∃ y, yearOfEra doe = y + 1 := Nat.exists_eq_succ_of_ne_zero fun hzero => by
      rw [hzero] at hlt
      exact hlt (Nat.zero_le _)
    have hmono := yearOfEra_mono (show doe ≤ startOfYear (y + 1) - 1 by rw [hy] at hlt; omega)
    rw [(yearOfEra_ends y (by omega)).2] at hmono
    omega
  · by_contra hge
    by_cases hy : yearOfEra doe = 399
    · have hend : startOfYear 400 = 146097 := by decide
      rw [hy, hend] at hge
      exact hge h
    · have hmono := yearOfEra_mono (show startOfYear (yearOfEra doe + 1) ≤ doe by omega)
      rw [(yearOfEra_ends _ (by omega)).1] at hmono
      omega

/-- The number of days of a year that begins in March: it ends with February. -/
def yearLength (y : Int) : Nat := if Date.isLeap (y + 1) then 366 else 365

theorem startOfYear_succ {y : Nat} (hy : y < 400) (era : Int) :
    startOfYear (y + 1) = startOfYear y + yearLength (era * 400 + y) := by
  have hleap : Date.isLeap (era * 400 + y + 1) = true ↔
      (y + 1) % 4 = 0 ∧ ((y + 1) % 100 ≠ 0 ∨ (y + 1) % 400 = 0) := by
    simp only [Date.isLeap, Bool.and_eq_true, Bool.or_eq_true, beq_iff_eq, bne_iff_ne]
    omega
  unfold startOfYear yearLength
  by_cases h : Date.isLeap (era * 400 + y + 1) = true
  · rw [if_pos h]
    rw [hleap] at h
    omega
  · rw [if_neg h]
    rw [hleap] at h
    omega

/-! ### Months from March on -/

/-- The month of a day, March being the first. -/
def marchMonth (doy : Nat) : Nat := (5 * doy + 2) / 153

/-- The day of its month. -/
def dayOfMonth (doy : Nat) : Nat := doy - (153 * marchMonth doy + 2) / 5 + 1

/-- The number of days of the months from March on, February being cut by the year. -/
def monthLength (mp : Nat) : Nat := [31, 30, 31, 30, 31, 31, 30, 31, 30, 31, 31, 30].getD mp 0

/-- The next day is in the same month, or is the first one of the next month. -/
theorem marchMonth_succ : ∀ doy < 365, marchMonth doy ≤ 11 ∧
    (dayOfMonth doy < monthLength (marchMonth doy) ∧ marchMonth (doy + 1) = marchMonth doy ∧
        dayOfMonth (doy + 1) = dayOfMonth doy + 1 ∨
      dayOfMonth doy = monthLength (marchMonth doy) ∧ marchMonth doy < 11 ∧
        marchMonth (doy + 1) = marchMonth doy + 1 ∧ dayOfMonth (doy + 1) = 1) := by
  decide +kernel

/-- The date of a day of a year that begins in March. -/
def civil (y : Int) (doy : Nat) : Date :=
  let m := if marchMonth doy < 10 then marchMonth doy + 3 else marchMonth doy - 9
  ⟨if m ≤ 2 then y + 1 else y, m, dayOfMonth doy⟩

theorem daysInMonth_march (y : Int) {mp : Nat} (h : mp < 11) :
    Date.daysInMonth y (if mp < 10 then mp + 3 else mp - 9) = monthLength mp := by
  interval_cases mp <;> rfl

/-- Within a year, the next day has the next date. -/
theorem civil_succ {y : Int} {doy : Nat} (h : doy + 1 < yearLength y) :
    civil y (doy + 1) = (civil y doy).succ := by
  have hlen : doy < 365 := by
    unfold yearLength at h
    split_ifs at h <;> omega
  obtain ⟨hle, ⟨hday, hmonth, hnext⟩ | ⟨hday, hlt, hmonth, hnext⟩⟩ := marchMonth_succ doy hlen
  · -- the same month
    have hin : (civil y doy).day < Date.daysInMonth (civil y doy).year (civil y doy).month := by
      by_cases hfeb : marchMonth doy < 11
      · show dayOfMonth doy < Date.daysInMonth _ (if marchMonth doy < 10 then _ else _)
        rw [daysInMonth_march _ hfeb]
        exact hday
      · have heq : marchMonth doy = 11 := by omega
        have hcivil : civil y doy = ⟨y + 1, 2, dayOfMonth doy⟩ := by
          rw [civil, heq]
          rfl
        rw [hcivil, dayOfMonth, heq, Date.daysInMonth]
        dsimp only
        unfold yearLength at h
        split_ifs at h ⊢ <;> omega
    rw [Date.succ, if_pos hin]
    simp only [civil, hmonth, hnext]
  · -- the first day of the next month
    have hout : ¬ (civil y doy).day < Date.daysInMonth (civil y doy).year (civil y doy).month := by
      show ¬ dayOfMonth doy < Date.daysInMonth _ (if marchMonth doy < 10 then _ else _)
      rw [daysInMonth_march _ hlt, hday]
      exact Nat.lt_irrefl _
    rw [Date.succ, if_neg hout]
    obtain ⟨mp, hmp⟩ : ∃ mp, marchMonth doy = mp := ⟨_, rfl⟩
    rw [hmp] at hlt
    simp only [civil, hmonth, hnext, hmp]
    interval_cases mp <;> rfl

/-- After the last day of a year comes the first of March. -/
theorem civil_succ_last {y : Int} {doy : Nat} (h : doy + 1 = yearLength y) :
    civil (y + 1) 0 = (civil y doy).succ := by
  unfold yearLength at h
  split_ifs at h with hleap
  · obtain rfl : doy = 365 := by omega
    have hcivil : civil y 365 = ⟨y + 1, 2, 29⟩ := rfl
    rw [hcivil, Date.succ, Date.daysInMonth, if_pos hleap]
    rfl
  · obtain rfl : doy = 364 := by omega
    have hcivil : civil y 364 = ⟨y + 1, 2, 28⟩ := rfl
    rw [hcivil, Date.succ, Date.daysInMonth, if_neg hleap]
    rfl

/-! ### Days since the epoch -/

/-- The days whose years are of type `i32`: over two thousand million years before and after. -/
def Fits (d : Int) : Prop := -5368709 * 146097 ≤ d + 719468 ∧ d + 719468 < 5368709 * 146097

theorem asI32_eq {i : Int} (h : -2 ^ 31 ≤ i) (h' : i < 2 ^ 31) : asI32 i = i := by
  rw [asI32, Int.bmod_def]
  split <;> omega

theorem asI64_eq {i : Int} (h : -2 ^ 63 ≤ i) (h' : i < 2 ^ 63) : asI64 i = i := by
  rw [asI64, Int.bmod_def]
  split <;> omega

/-- The date of a day, by its era and the year of the era. -/
theorem ymd_eq {d : Int} (era : Int) (y doy : Nat) (hd : Fits d) (hy : y < 400)
    (hdoy : doy < yearLength (era * 400 + y))
    (h : d + 719468 = era * 146097 + (startOfYear y + doy : Nat)) :
    daysSinceEpochToYmd d = civil (era * 400 + y) doy := by
  obtain ⟨hlow, hhigh⟩ := hd
  have hnext := startOfYear_succ hy era
  have hend : startOfYear (y + 1) ≤ 146097 := by
    unfold startOfYear
    omega
  have hdoe : startOfYear y + doy < 146097 := by omega
  have hdays : asI64 (d + 719468) = d + 719468 := asI64_eq (by omega) (by omega)
  have hera : (d + 719468) / 146097 = era := by omega
  have hmod : ((d + 719468) % 146097).toNat = startOfYear y + doy := by omega
  -- the code's formula for the year gives the year that holds the day
  have hyear : yearOfEra (startOfYear y + doy) = y := by
    have hmono := yearOfEra_mono (show startOfYear y ≤ startOfYear y + doy by omega)
    have hmono' := yearOfEra_mono (show startOfYear y + doy ≤ startOfYear (y + 1) - 1 by omega)
    rw [(yearOfEra_ends y hy).1] at hmono
    rw [(yearOfEra_ends y hy).2] at hmono'
    omega
  have hstart : 365 * y + y / 4 - y / 100 = startOfYear y := by
    unfold startOfYear
    omega
  have hera32 : asI32 era = era := asI32_eq (by omega) (by omega)
  have hmul : asI32 (era * 400) = era * 400 := asI32_eq (by omega) (by omega)
  have hsum : asI32 (y + era * 400) = era * 400 + y := by
    rw [asI32_eq (by omega) (by omega), Int.add_comm]
  have hsucc : asI32 (era * 400 + y + 1) = era * 400 + y + 1 := asI32_eq (by omega) (by omega)
  unfold yearOfEra at hyear
  unfold daysSinceEpochToYmd
  simp only [hdays, hera, hmod, hyear, hstart, hera32, hmul, hsum, hsucc, Nat.add_sub_cancel_left]
  rfl

/-- Every day is in a year of an era. -/
theorem exists_year (d : Int) : ∃ (era : Int) (y doy : Nat), y < 400 ∧
    doy < yearLength (era * 400 + y) ∧
    d + 719468 = era * 146097 + (startOfYear y + doy : Nat) := by
  have hdoe : ((d + 719468) % 146097).toNat < 146097 := by omega
  obtain ⟨hy, hlow, hhigh⟩ := yearOfEra_bounds hdoe
  generalize yearOfEra ((d + 719468) % 146097).toNat = y at hy hlow hhigh
  rw [startOfYear_succ hy ((d + 719468) / 146097)] at hhigh
  refine ⟨(d + 719468) / 146097, y, ((d + 719468) % 146097).toNat - startOfYear y, hy, by omega, ?_⟩
  omega

/-- **The next day has the next date.** -/
theorem ymd_succ {d : Int} (hd : Fits d) (hd' : Fits (d + 1)) :
    daysSinceEpochToYmd (d + 1) = (daysSinceEpochToYmd d).succ := by
  obtain ⟨era, y, doy, hy, hdoy, h⟩ := exists_year d
  rw [ymd_eq era y doy hd hy hdoy h]
  rcases Nat.lt_or_eq_of_le (Nat.succ_le_of_lt hdoy) with hlt | heq
  · rw [ymd_eq era y (doy + 1) hd' hy hlt (by push_cast at h ⊢; omega), civil_succ hlt]
  · -- the last day of a year, and perhaps of an era
    have hpos : ∀ i, 0 < yearLength i := fun i => by
      unfold yearLength
      split_ifs <;> omega
    have hnext := startOfYear_succ hy era
    rw [← civil_succ_last heq]
    by_cases hlast : y = 399
    · subst hlast
      have hend : startOfYear 400 = 146097 := by decide
      have hstart : startOfYear 0 = 0 := by decide
      rw [hend] at hnext
      rw [ymd_eq (era + 1) 0 0 hd' (by omega) (hpos _)
        (by rw [hstart]; push_cast at h ⊢; omega)]
      congr 1
      push_cast
      omega
    · rw [ymd_eq era (y + 1) 0 hd' (by omega) (hpos _)
        (by rw [hnext]; push_cast at h ⊢; omega)]
      congr 1
      push_cast
      omega

/-! ### Seconds since the epoch -/

/-- The first of January 1970. -/
def epoch : Date := ⟨1970, 1, 1⟩

/-- The number of days from 1970 to the end of the year 9999. -/
def dayLimit : Nat := 2932897

/-- **The date of a day** is reached from 1970 day by day. -/
theorem ymd_eq_iterate {n : Nat} (h : n ≤ dayLimit) :
    daysSinceEpochToYmd n = Date.succ^[n] epoch := by
  have hlimit : dayLimit = 2932897 := rfl
  induction n with
  | zero => decide +kernel
  | succ n ih =>
    rw [Function.iterate_succ_apply', ← ih (by omega), Nat.cast_succ]
    refine ymd_succ ⟨?_, ?_⟩ ⟨?_, ?_⟩ <;> omega

theorem valid_epoch : epoch.Valid := ⟨by decide, by decide, by decide, by decide⟩

/-- The dates up to the limit have years of four digits. -/
theorem year_bounds {n : Nat} (h : n < dayLimit) :
    0 ≤ (Date.succ^[n] epoch).year ∧ (Date.succ^[n] epoch).year < 10000 := by
  constructor
  · rcases Nat.eq_zero_or_pos n with rfl | hpos
    · decide
    · have hbefore := Date.before_iterate epoch hpos
      have hyear : (Date.succ^[0] epoch).year = 1970 := rfl
      unfold Date.Before at hbefore
      omega
  · have hbefore := Date.before_iterate epoch h
    have hlast : Date.succ^[dayLimit] epoch = ⟨10000, 1, 1⟩ := by
      rw [← ymd_eq_iterate (Nat.le_refl _)]
      decide +kernel
    rw [hlast] at hbefore
    have hmonth := ((valid_epoch.iterate n).month_pos)
    have hday := ((valid_epoch.iterate n).day_pos)
    unfold Date.Before at hbefore
    dsimp only at hbefore
    omega

/-- A date and a time that are printed with a fixed width. -/
structure Printable (d : Date) (h m s : Nat) : Prop where
  valid : d.Valid
  year_nonneg : 0 ≤ d.year
  year_lt : d.year < 10000
  hour : h < 24
  minute : m < 60
  second : s < 60

/-- Timestamps of a fixed width are compared number by number. -/
theorem compare_isoText {d d' : Date} {h m s h' m' s' : Nat} (hp : Printable d h m s)
    (hp' : Printable d' h' m' s') :
    compare (isoText d h m s) (isoText d' h' m' s') =
      (compare d.year.natAbs d'.year.natAbs).then ((compare d.month d'.month).then
        ((compare d.day d'.day).then ((compare h h').then
          ((compare m m').then (compare s s'))))) := by
  obtain ⟨⟨-, hmonth, -, hday⟩, hy, hy', hh, hm, hs⟩ := hp
  obtain ⟨⟨-, hmonth', -, hday'⟩, hz, hz', hh', hm', hs'⟩ := hp'
  have hdim := Date.daysInMonth_le d.year d.month
  have hdim' := Date.daysInMonth_le d'.year d'.month
  have hpart : ∀ {w a b : Nat} (t t' : Text), 0 < w → a < 10 ^ w → b < 10 ^ w →
      compare (padded w a ++ t) (padded w b ++ t') = (compare a b).then (compare t t') := by
    intro w a b t t' hw ha hb
    rw [compare_append (by rw [length_padded ha hw, length_padded hb hw]), compare_padded hw ha hb]
  have hsep : ∀ (c : Char) (t t' : Text), compare (c :: t) (c :: t') = compare t t' := by
    intro c t t'
    have hself : compare c c = .eq := Std.ReflCmp.compare_self
    rw [List.compare_cons_cons, hself]
    rfl
  have hend : compare ['Z'] ['Z'] = .eq := Std.ReflCmp.compare_self
  unfold isoText paddedInt
  rw [if_neg (by omega), if_neg (by omega), hpart _ _ (by omega) (by omega) (by omega)]
  simp only [List.cons_append, hsep]
  rw [hpart _ _ (by omega) (by omega) (by omega), hsep, hpart _ _ (by omega) (by omega) (by omega),
    hsep, hpart _ _ (by omega) (by omega) (by omega), hsep,
    hpart _ _ (by omega) (by omega) (by omega), hsep, hpart _ _ (by omega) (by omega) (by omega),
    hend]
  simp

theorem compare_then_eq_lt {a b : Nat} {o : Ordering} :
    (compare a b).then o = .lt ↔ a < b ∨ a = b ∧ o = .lt := by
  rcases Nat.lt_trichotomy a b with h | h | h
  · rw [Nat.compare_eq_lt.2 h]
    exact iff_of_true rfl (.inl h)
  · rw [Nat.compare_eq_eq.2 h]
    exact ⟨fun ho => .inr ⟨h, ho⟩, fun hor => hor.elim (fun hlt => absurd h hlt.ne) And.right⟩
  · rw [Nat.compare_eq_gt.2 h]
    refine iff_of_false nofun ?_
    omega

/-- The parts of a number of seconds, and its text. -/
theorem chronoSecsToIso_eq {secs : Int} (h : 0 ≤ secs) (h' : secs < 86400 * dayLimit) :
    ∃ days hour min sec : Nat, secs = (days * 86400 + hour * 3600 + min * 60 + sec : Nat) ∧
      days < dayLimit ∧ Printable (Date.succ^[days] epoch) hour min sec ∧
      chronoSecsToIso secs = isoText (Date.succ^[days] epoch) hour min sec := by
  obtain ⟨n, rfl⟩ := Int.eq_ofNat_of_zero_le h
  have hdays : n / 86400 < dayLimit := by omega
  obtain ⟨hy, hy'⟩ := year_bounds hdays
  refine ⟨n / 86400, n % 86400 / 3600, n % 86400 % 3600 / 60, n % 86400 % 60, ?_, hdays,
    ⟨valid_epoch.iterate _, hy, hy', by omega, by omega, by omega⟩, ?_⟩
  · rw [Int.ofNat_inj]
    omega
  · have hquot : (n : Int) / 86400 = (n / 86400 : Nat) := by omega
    have hrem : ((n : Int) % 86400).toNat = n % 86400 := by omega
    rw [chronoSecsToIso, hquot, hrem, ymd_eq_iterate hdays.le]

/-- **Timestamps are correct**: from 1970 up to the year 9999 the date and the time are printed, the
next day has the next date, and the texts are in the order of time. -/
theorem timestamps_correct :
    (∀ secs : Int, 0 ≤ secs → secs < 253402300800 → ∃ days hour min sec : Nat,
      secs = (days * 86400 + hour * 3600 + min * 60 + sec : Nat) ∧ hour < 24 ∧ min < 60 ∧ sec < 60 ∧
      chronoSecsToIso secs = isoText (Date.succ^[days] ⟨1970, 1, 1⟩) hour min sec) ∧
    daysSinceEpochToYmd 0 = ⟨1970, 1, 1⟩ ∧
    (∀ d : Int, Fits d → Fits (d + 1) →
      daysSinceEpochToYmd (d + 1) = (daysSinceEpochToYmd d).succ) ∧
    ∀ secs secs' : Int, 0 ≤ secs → secs < secs' → secs' < 253402300800 →
      compare (chronoSecsToIso secs) (chronoSecsToIso secs') = .lt := by
  have hlimit : (86400 : Int) * dayLimit = 253402300800 := rfl
  refine ⟨fun secs h h' => ?_, by decide +kernel, fun d hd hd' => ymd_succ hd hd', ?_⟩
  · obtain ⟨days, hour, min, sec, hsecs, -, hp, htext⟩ := chronoSecsToIso_eq h h'
    exact ⟨days, hour, min, sec, hsecs, hp.hour, hp.minute, hp.second, htext⟩
  · intro secs secs' h hlt h'
    obtain ⟨days, hour, min, sec, hsecs, -, hp, htext⟩ := chronoSecsToIso_eq h (hlt.trans h')
    obtain ⟨days', hour', min', sec', hsecs', -, hp', htext'⟩ :=
      chronoSecsToIso_eq (h.trans hlt.le) h'
    have htotal : days * 86400 + hour * 3600 + min * 60 + sec <
        days' * 86400 + hour' * 3600 + min' * 60 + sec' := by
      rw [hsecs, hsecs'] at hlt
      exact Int.ofNat_lt.1 hlt
    rw [htext, htext', compare_isoText hp hp']
    have hy := hp.year_nonneg
    have hz := hp'.year_nonneg
    obtain ⟨hh, hm, hs⟩ := And.intro hp.hour (And.intro hp.minute hp.second)
    obtain ⟨hh', hm', hs'⟩ := And.intro hp'.hour (And.intro hp'.minute hp'.second)
    simp only [compare_then_eq_lt, Nat.compare_eq_lt]
    rcases Nat.lt_or_ge days days' with hday | hday
    · -- a later day has a later date
      have hbefore := Date.before_iterate epoch hday
      unfold Date.Before at hbefore
      omega
    · obtain rfl : days = days' := by omega
      refine .inr ⟨rfl, .inr ⟨rfl, .inr ⟨rfl, ?_⟩⟩⟩
      omega

theorem timestamps_correct_demo :
    (∃ days hour min sec : Nat, (1709211599 : Int) =
      (days * 86400 + hour * 3600 + min * 60 + sec : Nat) ∧ hour < 24 ∧ min < 60 ∧ sec < 60 ∧
      chronoSecsToIso 1709211599 = isoText (Date.succ^[days] ⟨1970, 1, 1⟩) hour min sec) ∧
    daysSinceEpochToYmd (19781 + 1) = (daysSinceEpochToYmd 19781).succ ∧
    compare (chronoSecsToIso 951782399) (chronoSecsToIso 1709211599) = .lt := by
  obtain ⟨htext, -, hnext, horder⟩ := timestamps_correct
  exact ⟨htext _ (by decide) (by decide), hnext 19781 ⟨by decide, by decide⟩
    ⟨by decide, by decide⟩, horder _ _ (by decide) (by decide) (by decide)⟩

end Omp
