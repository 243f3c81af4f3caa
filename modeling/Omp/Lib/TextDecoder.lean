import Omp.Lib.Encodings
import Omp.Lib.Transducers

/-!
# Decoding UTF-8 as it arrives

The decoder of the web's text encodings, which reads UTF-8 byte by byte: it keeps the code point it
is in the middle of and the range in which the next byte has to be.  A byte that is out of place is
replaced by `U+FFFD`.  A byte order mark at the very beginning is not part of the text.

## Main definitions

* `utf8Decoder` : from bytes to scalar values.
* `textDecoder` : the same without the byte order mark.

## Main results

* `run_utf8Decoder`, `run_textDecoder` : what was encoded is decoded, and nothing is pending.
-/

namespace Lib

/-- Between two bytes: the code point so far, how many bytes are missing, and the range of the next
one. -/
structure Utf8State where
  /-- The bits of the code point that have been read. -/
  codePoint : Nat
  /-- The number of bytes that are missing. -/
  needed : Nat
  /-- The least next byte. -/
  lower : Nat
  /-- The greatest next byte. -/
  upper : Nat
  deriving DecidableEq, Repr

/-- Between two characters. -/
def Utf8State.init : Utf8State := ⟨0, 0, 0x80, 0xBF⟩

/-- What stands for bytes that are no character. -/
def replacementChar : Char := Char.ofNat 0xFFFD

/-- A byte that begins a character. -/
def utf8First (b : UInt8) : Utf8State × Text :=
  if b.toNat ≤ 0x7F then (.init, [Char.ofNat b.toNat])
  else if 0xC2 ≤ b.toNat ∧ b.toNat ≤ 0xDF then (⟨b.toNat % 0x20, 1, 0x80, 0xBF⟩, [])
  -- the ranges leave out overlong forms, surrogates and what is beyond Unicode
  else if 0xE0 ≤ b.toNat ∧ b.toNat ≤ 0xEF then
    (⟨b.toNat % 0x10, 2, if b.toNat = 0xE0 then 0xA0 else 0x80,
      if b.toNat = 0xED then 0x9F else 0xBF⟩, [])
  else if 0xF0 ≤ b.toNat ∧ b.toNat ≤ 0xF4 then
    (⟨b.toNat % 8, 3, if b.toNat = 0xF0 then 0x90 else 0x80,
      if b.toNat = 0xF4 then 0x8F else 0xBF⟩, [])
  else (.init, [replacementChar])

/-- The next byte.  One that does not continue a character is read again as the first of one. -/
def utf8Next (s : Utf8State) (b : UInt8) : Utf8State × Text :=
  if s.needed = 0 then utf8First b
  else if s.lower ≤ b.toNat ∧ b.toNat ≤ s.upper then
    if s.needed = 1 then (.init, [Char.ofNat (s.codePoint * 64 + b.toNat % 64)])
    else (⟨s.codePoint * 64 + b.toNat % 64, s.needed - 1, 0x80, 0xBF⟩, [])
  else ((utf8First b).1, replacementChar :: (utf8First b).2)

/-- From bytes to scalar values. -/
def utf8Decoder : Transducer Utf8State UInt8 Char := ⟨utf8Next⟩

/-- The byte order mark. -/
def byteOrderMark : Char := Char.ofNat 0xFEFF

/-- Drops the byte order mark where it is the first character. -/
def bomStripper : Transducer Bool Char Char :=
  ⟨fun seen c => (true, if seen = false ∧ c = byteOrderMark then [] else [c])⟩

/-- A decoder of UTF-8 that is called with one chunk after the other. -/
def textDecoder : Transducer (Utf8State × Bool) UInt8 Char := utf8Decoder.comp bomStripper

/-! ### What was encoded is decoded -/

theorem utf8Decoder_step (s : Utf8State) (b : UInt8) : utf8Decoder.step s b = utf8Next s b := rfl

theorem utf8Decoder_init (b : UInt8) : utf8Decoder.step .init b = utf8First b := rfl

theorem toNat_ofNat_of_lt {n : Nat} (h : n < 256) : (UInt8.ofNat n).toNat = n := by
  rw [UInt8.toNat_ofNat']
  exact Nat.mod_eq_of_lt h

section Bytes

variable {n p low high m : Nat} (w : Bytes)

theorem run_first_one (h : n ≤ 0x7F) :
    utf8Decoder.run .init (UInt8.ofNat n :: w) =
      ((utf8Decoder.run .init w).1, Char.ofNat n :: (utf8Decoder.run .init w).2) := by
  have hb := toNat_ofNat_of_lt (show n < 256 by omega)
  have hstep : utf8Decoder.step .init (UInt8.ofNat n) = (.init, [Char.ofNat n]) := by
    rw [utf8Decoder_init, utf8First, hb, if_pos h]
  exact Transducer.run_cons hstep w

theorem run_first_two (hlow : 2 ≤ n) (hhigh : n < 0x20) :
    utf8Decoder.run .init (UInt8.ofNat (n + 0xC0) :: w) =
      utf8Decoder.run ⟨n, 1, 0x80, 0xBF⟩ w := by
  have hb := toNat_ofNat_of_lt (show n + 0xC0 < 256 by omega)
  have hmod : (n + 0xC0) % 0x20 = n := by omega
  have hstep : utf8Decoder.step .init (UInt8.ofNat (n + 0xC0)) = (⟨n, 1, 0x80, 0xBF⟩, []) := by
    rw [utf8Decoder_init, utf8First, hb, if_neg (by omega), if_pos (by omega), hmod]
  exact Transducer.run_cons hstep w

theorem run_first_three (hhigh : n < 0x10) :
    utf8Decoder.run .init (UInt8.ofNat (n + 0xE0) :: w) =
      utf8Decoder.run ⟨n, 2, if n = 0 then 0xA0 else 0x80, if n = 0xD then 0x9F else 0xBF⟩ w := by
  have hb := toNat_ofNat_of_lt (show n + 0xE0 < 256 by omega)
  have hmod : (n + 0xE0) % 0x10 = n := by omega
  have hstep : utf8Decoder.step .init (UInt8.ofNat (n + 0xE0)) =
      (⟨n, 2, if n = 0 then 0xA0 else 0x80, if n = 0xD then 0x9F else 0xBF⟩, []) := by
    rw [utf8Decoder_init, utf8First, hb, if_neg (by omega), if_neg (by omega),
      if_pos (by omega), hmod]
    simp
  exact Transducer.run_cons hstep w

theorem run_first_four (hhigh : n ≤ 4) :
    utf8Decoder.run .init (UInt8.ofNat (n + 0xF0) :: w) =
      utf8Decoder.run ⟨n, 3, if n = 0 then 0x90 else 0x80, if n = 4 then 0x8F else 0xBF⟩ w := by
  have hb := toNat_ofNat_of_lt (show n + 0xF0 < 256 by omega)
  have hmod : (n + 0xF0) % 8 = n := by omega
  have hstep : utf8Decoder.step .init (UInt8.ofNat (n + 0xF0)) =
      (⟨n, 3, if n = 0 then 0x90 else 0x80, if n = 4 then 0x8F else 0xBF⟩, []) := by
    rw [utf8Decoder_init, utf8First, hb, if_neg (by omega), if_neg (by omega), if_neg (by omega),
      if_pos (by omega), hmod]
    simp
  exact Transducer.run_cons hstep w

/-- A byte that continues a character, and is not the last one. -/
theorem run_tail_more (hlow : low ≤ m % 0x40 + 0x80) (hhigh : m % 0x40 + 0x80 ≤ high) :
    utf8Decoder.run ⟨p, n + 2, low, high⟩ (UInt8.ofNat (m % 0x40 + 0x80) :: w) =
      utf8Decoder.run ⟨p * 64 + m % 64, n + 1, 0x80, 0xBF⟩ w := by
  have hb := toNat_ofNat_of_lt (show m % 0x40 + 0x80 < 256 by omega)
  have hmod : (m % 0x40 + 0x80) % 64 = m % 64 := by omega
  have hstep : utf8Decoder.step ⟨p, n + 2, low, high⟩ (UInt8.ofNat (m % 0x40 + 0x80)) =
      (⟨p * 64 + m % 64, n + 1, 0x80, 0xBF⟩, []) := by
    rw [utf8Decoder_step, utf8Next, hb, if_neg (by simp), if_pos ⟨hlow, hhigh⟩,
      if_neg (by simp), hmod]
    rfl
  exact Transducer.run_cons hstep w

/-- The last byte of a character. -/
theorem run_tail_last (hlow : low ≤ m % 0x40 + 0x80) (hhigh : m % 0x40 + 0x80 ≤ high) :
    utf8Decoder.run ⟨p, 1, low, high⟩ (UInt8.ofNat (m % 0x40 + 0x80) :: w) =
      ((utf8Decoder.run .init w).1,
        Char.ofNat (p * 64 + m % 64) :: (utf8Decoder.run .init w).2) := by
  have hb := toNat_ofNat_of_lt (show m % 0x40 + 0x80 < 256 by omega)
  have hmod : (m % 0x40 + 0x80) % 64 = m % 64 := by omega
  have hstep : utf8Decoder.step ⟨p, 1, low, high⟩ (UInt8.ofNat (m % 0x40 + 0x80)) =
      (.init, [Char.ofNat (p * 64 + m % 64)]) := by
    rw [utf8Decoder_step, utf8Next, hb, if_neg Nat.one_ne_zero, if_pos ⟨hlow, hhigh⟩,
      if_pos rfl, hmod]
  exact Transducer.run_cons hstep w

end Bytes

/-- **The bytes of a character are read as the character.** -/
theorem run_utf8Decoder_char (c : Char) :
    utf8Decoder.run .init (String.utf8EncodeChar c) = (.init, [c]) := by
  have hlt := toNat_lt c
  have hvalid : c.toNat < 0xD800 ∨ 0xDFFF < c.toNat := c.valid.imp id And.left
  have hv : c.val.toNat = c.toNat := rfl
  unfold String.utf8EncodeChar
  simp only [hv]
  split_ifs with h1 h2 h3
  · rw [run_first_one [] h1, Char.ofNat_toNat]
    rfl
  · have hsum : c.toNat / 64 % 0x20 * 64 + c.toNat % 64 = c.toNat := by omega
    rw [run_first_two _ (by omega) (by omega), run_tail_last _ (by omega) (by omega), hsum,
      Char.ofNat_toNat]
    rfl
  · have hsum : (c.toNat / 4096 % 0x10 * 64 + c.toNat / 64 % 64) * 64 + c.toNat % 64 =
        c.toNat := by omega
    -- no overlong form and no surrogate is encoded
    rw [run_first_three _ (by omega), run_tail_more _ (by split_ifs <;> omega)
      (by split_ifs <;> omega), run_tail_last _ (by omega) (by omega), hsum, Char.ofNat_toNat]
    rfl
  · have hsum : ((c.toNat / 262144 % 0x08 * 64 + c.toNat / 4096 % 64) * 64 +
        c.toNat / 64 % 64) * 64 + c.toNat % 64 = c.toNat := by omega
    rw [run_first_four _ (by omega), run_tail_more _ (by split_ifs <;> omega)
      (by split_ifs <;> omega), run_tail_more _ (by omega) (by omega),
      run_tail_last _ (by omega) (by omega), hsum, Char.ofNat_toNat]
    rfl

/-- **What was encoded is decoded**, and nothing is pending. -/
theorem run_utf8Decoder (t : Text) : utf8Decoder.run .init (utf8 t) = (.init, t) := by
  induction t with
  | nil => rfl
  | cons c t ih => rw [utf8_cons, Transducer.run_append, run_utf8Decoder_char, ih]; rfl

theorem run_bomStripper_true (t : Text) : bomStripper.run true t = (true, t) := by
  induction t with
  | nil => rfl
  | cons c t ih =>
    rw [Transducer.run]
    simp only [bomStripper, Bool.true_eq_false, false_and, if_false] at ih ⊢
    rw [ih]
    rfl

/-- A text that does not begin with a byte order mark is left as it is. -/
theorem run_bomStripper {t : Text} (ht : t.head? ≠ some byteOrderMark) :
    (bomStripper.run false t).2 = t := by
  cases t with
  | nil => rfl
  | cons c t =>
    have hc : c ≠ byteOrderMark := fun hc => ht (congrArg some hc)
    rw [Transducer.run]
    change (if false = false ∧ c = byteOrderMark then [] else [c]) ++
      (bomStripper.run true t).2 = c :: t
    rw [run_bomStripper_true, if_neg (fun h => hc h.2)]
    rfl

/-- **The decoder gives back the text that was encoded.** -/
theorem run_textDecoder {t : Text} (ht : t.head? ≠ some byteOrderMark) :
    (textDecoder.run (.init, false) (utf8 t)).2 = t := by
  rw [textDecoder, Transducer.run_comp, run_utf8Decoder]
  exact run_bomStripper ht

end Lib
