import Omp.Lib.Text

/-!
# Base64

The encoding of bytes by digits of six bits, with the alphabet that is safe in URLs and without
padding, and with the standard alphabet and padding.  Decoding is strict: it takes exactly what the
encoding yields.

## Main definitions

* `Base64.encode`, `Base64.decode`.
* `Base64.encodeStandard`, `Base64.decodeStandard`.

## Main results

* `Base64.decode_encode`, `Base64.decodeStandard_encodeStandard` : what was encoded is decoded.
-/

namespace Lib.Base64

/-- The digits. -/
def alphabet : Text := "ABCDEFGHIJKLMNOPQRSTUVWXYZabcdefghijklmnopqrstuvwxyz0123456789-_".toList

/-- A digit. -/
def digit (n : Nat) : Char := alphabet.getD n 'A'

/-- The value of a digit. -/
def value (c : Char) : Option Nat := alphabet.findIdx? fun d => d = c

/-- The digits of a list of bytes, three bytes at a time. -/
def encode : Bytes → Text
  | [] => []
  | [a] => [digit (a.toNat / 4), digit (a.toNat % 4 * 16)]
  | [a, b] => [digit (a.toNat / 4), digit (a.toNat % 4 * 16 + b.toNat / 16),
      digit (b.toNat % 16 * 4)]
  | a :: b :: c :: rest =>
    digit (a.toNat / 4) :: digit (a.toNat % 4 * 16 + b.toNat / 16) ::
      digit (b.toNat % 16 * 4 + c.toNat / 64) :: digit (c.toNat % 64) :: encode rest

/-- The bytes that digits stand for.  A last digit that stands for less than six bits has zeros in
the place of the others. -/
def decode : Text → Option Bytes
  | [] => some []
  | [_] => none
  | [w, x] => do
    let w ← value w
    let x ← value x
    if x % 16 = 0 then some [UInt8.ofNat (w * 4 + x / 16)] else none
  | [w, x, y] => do
    let w ← value w
    let x ← value x
    let y ← value y
    if y % 4 = 0 then some [UInt8.ofNat (w * 4 + x / 16), UInt8.ofNat (x % 16 * 16 + y / 4)]
    else none
  | w :: x :: y :: z :: rest => do
    let w ← value w
    let x ← value x
    let y ← value y
    let z ← value z
    let bs ← decode rest
    some (UInt8.ofNat (w * 4 + x / 16) :: UInt8.ofNat (x % 16 * 16 + y / 4) ::
      UInt8.ofNat (y % 4 * 64 + z) :: bs)

theorem value_digit {n : Nat} (h : n < 64) : value (digit n) = some n := by
  have key : ∀ n : Fin 64, value (digit n.val) = some n.val := by decide +kernel
  exact key ⟨n, h⟩

/-- A byte is put together from its parts. -/
theorem ofNat_eq (a : UInt8) {n : Nat} (h : n = a.toNat) : UInt8.ofNat n = a := by
  subst h
  exact UInt8.ofNat_toNat

/-- **What was encoded is decoded.** -/
theorem decode_encode (bs : Bytes) : decode (encode bs) = some bs := by
  induction bs using encode.induct with
  | case1 => rfl
  | case2 a =>
    have ha := a.toNat_lt
    rw [encode, decode, value_digit (by omega), value_digit (by omega)]
    simp only [Option.bind_eq_bind, Option.bind_some]
    rw [if_pos (by omega), ofNat_eq a (by omega)]
  | case3 a b =>
    have ha := a.toNat_lt
    have hb := b.toNat_lt
    rw [encode, decode, value_digit (by omega), value_digit (by omega), value_digit (by omega)]
    simp only [Option.bind_eq_bind, Option.bind_some]
    rw [if_pos (by omega), ofNat_eq a (by omega), ofNat_eq b (by omega)]
  | case4 a b c rest ih =>
    have ha := a.toNat_lt
    have hb := b.toNat_lt
    have hc := c.toNat_lt
    rw [encode, decode, value_digit (by omega), value_digit (by omega), value_digit (by omega),
      value_digit (by omega), ih]
    simp only [Option.bind_eq_bind, Option.bind_some]
    rw [ofNat_eq a (by omega), ofNat_eq b (by omega), ofNat_eq c (by omega)]

example : encode (utf8 "main|7".toList) = "bWFpbnw3".toList := by decide +kernel

theorem length_encode_le (bs : Bytes) : (encode bs).length ≤ 2 * bs.length := by
  induction bs using encode.induct with
  | case1 => exact Nat.le_refl _
  | case2 a => exact Nat.le_refl _
  | case3 a b => simp [encode]
  | case4 a b c rest ih =>
    simp only [encode, List.length_cons]
    omega

theorem digit_mem (n : Nat) : digit n ∈ alphabet := by
  rw [digit, List.getD_eq_getElem?_getD]
  cases h : alphabet[n]? with
  | none => decide
  | some c => exact List.mem_of_getElem? h

/-- What is encoded is written with the alphabet. -/
theorem mem_alphabet_of_mem_encode {bs : Bytes} {c : Char} (h : c ∈ encode bs) : c ∈ alphabet := by
  induction bs using encode.induct with
  | case1 => cases h
  | case2 a =>
    simp only [encode, List.mem_cons, List.not_mem_nil, or_false] at h
    rcases h with rfl | rfl <;> exact digit_mem _
  | case3 a b =>
    simp only [encode, List.mem_cons, List.not_mem_nil, or_false] at h
    rcases h with rfl | rfl | rfl <;> exact digit_mem _
  | case4 a b c rest ih =>
    simp only [encode, List.mem_cons] at h
    rcases h with rfl | rfl | rfl | rfl | h
    · exact digit_mem _
    · exact digit_mem _
    · exact digit_mem _
    · exact digit_mem _
    · exact ih h

/-! ### The standard alphabet -/

/-- The digit of the standard alphabet. -/
def standardDigit (c : Char) : Char := if c = '-' then '+' else if c = '_' then '/' else c

/-- The digit that is safe in URLs. -/
def urlSafeDigit (c : Char) : Char := if c = '+' then '-' else if c = '/' then '_' else c

/-- The digits of the standard alphabet, filled up with `=` to a multiple of four. -/
def encodeStandard (bs : Bytes) : Text :=
  (encode bs).map standardDigit ++ .replicate ((4 - (encode bs).length % 4) % 4) '='

/-- The bytes that are encoded so. -/
def decodeStandard (t : Text) : Option Bytes :=
  (decode ((t.filter (· ≠ '=')).map urlSafeDigit)).filter fun bs => encodeStandard bs = t

/-- **What was encoded is decoded.** -/
theorem decodeStandard_encodeStandard (bs : Bytes) :
    decodeStandard (encodeStandard bs) = some bs := by
  have halphabet : (alphabet.all fun c =>
      standardDigit c ≠ '=' ∧ urlSafeDigit (standardDigit c) = c) = true := by decide +kernel
  have hdigit : ∀ c ∈ encode bs, standardDigit c ≠ '=' ∧ urlSafeDigit (standardDigit c) = c :=
    fun c hc => of_decide_eq_true (List.all_eq_true.1 halphabet c (mem_alphabet_of_mem_encode hc))
  have hkept : (encodeStandard bs).filter (· ≠ '=') = (encode bs).map standardDigit := by
    rw [encodeStandard, List.filter_append, List.filter_replicate, if_neg (by decide),
      List.append_nil, List.filter_eq_self]
    intro c hc
    obtain ⟨d, hd, rfl⟩ := List.mem_map.1 hc
    exact decide_eq_true (hdigit d hd).1
  have hback : ((encode bs).map standardDigit).map urlSafeDigit = encode bs := by
    rw [List.map_map]
    exact (List.map_congr_left fun c hc => (hdigit c hc).2).trans (List.map_id _)
  rw [decodeStandard, hkept, hback, decode_encode]
  simp

/-- What is encoded is written with the alphabet and `=`. -/
theorem mem_of_mem_encodeStandard {bs : Bytes} {c : Char} (h : c ∈ encodeStandard bs) :
    c ∈ '=' :: alphabet.map standardDigit := by
  rcases List.mem_append.1 h with h | h
  · obtain ⟨d, hd, rfl⟩ := List.mem_map.1 h
    exact List.mem_cons_of_mem _ (List.mem_map_of_mem (mem_alphabet_of_mem_encode hd))
  · rw [List.eq_of_mem_replicate h]
    exact List.mem_cons_self

example : encodeStandard (utf8 "main|".toList) = "bWFpbnw=".toList := by decide +kernel

end Lib.Base64
