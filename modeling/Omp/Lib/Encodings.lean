import Omp.Lib.Scan

/-!
# UTF-8 and UTF-16

The two encodings of texts, as encodings that scanners read.  Beyond ASCII a character has fewer
units in UTF-16 than octets in UTF-8.

## Main definitions

* `utf16` : the UTF-16 encoding of a text.
* `Encoding.utf8`, `Encoding.utf16` : the encodings.

## Main results

* `length_utf16_lt` : a text beyond ASCII is shorter in UTF-16.
* `fromUtf8_eq_some` : what is decoded is what was encoded.
-/

namespace Lib

/-- A string of 16-bit units. -/
abbrev JsString := List UInt16

/-- The UTF-16 encoding of a character: one unit, or a pair of surrogates. -/
def utf16EncodeChar (c : Char) : JsString :=
  if c.toNat < 0x10000 then [UInt16.ofNat c.toNat]
  else [UInt16.ofNat (0xD800 + (c.toNat - 0x10000) / 0x400),
    UInt16.ofNat (0xDC00 + (c.toNat - 0x10000) % 0x400)]

/-- The UTF-16 encoding of a text. -/
def utf16 (t : Text) : JsString := t.flatMap utf16EncodeChar

/-- All characters are of ASCII. -/
def IsAscii (t : Text) : Prop := ∀ c ∈ t, c.toNat < 128

instance (t : Text) : Decidable (IsAscii t) :=
  List.decidableBAll (fun c : Char => c.toNat < 128) t

theorem toNat_lt (c : Char) : c.toNat < 0x110000 := by
  rcases c.valid with h | ⟨-, h⟩
  · exact h.trans (by decide)
  · exact h

theorem utf8EncodeChar_ascii {c : Char} (hc : c.toNat < 128) :
    String.utf8EncodeChar c = [UInt8.ofNat c.toNat] := by
  unfold String.utf8EncodeChar
  exact if_pos (Nat.le_of_lt_succ hc)

theorem utf16EncodeChar_ascii {c : Char} (hc : c.toNat < 128) :
    utf16EncodeChar c = [UInt16.ofNat c.toNat] := if_pos (by omega)

namespace Scan

/-- UTF-8. -/
def Encoding.utf8 : Encoding UInt8 where
  encode := String.utf8EncodeChar
  code := UInt8.toNat
  ascii c hc := ⟨UInt8.ofNat c.toNat, utf8EncodeChar_ascii hc, by
    rw [UInt8.toNat_ofNat']
    omega⟩
  other c hc := by
    have hlt := toNat_lt c
    unfold String.utf8EncodeChar
    have hv : c.val.toNat = c.toNat := rfl
    simp only [hv]
    split_ifs
    · omega
    all_goals
      refine ⟨nofun, fun u hu => ?_⟩
      simp only [List.mem_cons, List.not_mem_nil, or_false] at hu
      rcases hu with rfl | rfl | rfl | rfl <;> rw [UInt8.toNat_ofNat'] <;> omega

/-- UTF-16. -/
def Encoding.utf16 : Encoding UInt16 where
  encode := utf16EncodeChar
  code := UInt16.toNat
  ascii c hc := ⟨UInt16.ofNat c.toNat, utf16EncodeChar_ascii hc, by
    rw [UInt16.toNat_ofNat']
    omega⟩
  other c hc := by
    have hlt := toNat_lt c
    unfold utf16EncodeChar
    split_ifs
    all_goals
      refine ⟨nofun, fun u hu => ?_⟩
      simp only [List.mem_cons, List.not_mem_nil, or_false] at hu
    · rw [hu, UInt16.toNat_ofNat']
      omega
    · rcases hu with rfl | rfl <;> rw [UInt16.toNat_ofNat'] <;> omega

variable {α : Type} {E : Encoding α} {t : Text}

/-- The codes of a text of ASCII are its characters. -/
theorem Encoding.map_code_text (ht : IsAscii t) : (E.text t).map E.code = t.map Char.toNat := by
  induction t with
  | nil => rfl
  | cons c t ih =>
    obtain ⟨u, henc, hcode⟩ := E.ascii c (ht c List.mem_cons_self)
    rw [E.text_cons, henc, List.map_append, ih fun d hd => ht d (List.mem_cons_of_mem _ hd)]
    exact congrArg (· :: _) hcode

theorem Encoding.length_text (ht : IsAscii t) : (E.text t).length = t.length := by
  simpa using congrArg List.length (E.map_code_text ht)

/-- Texts of ASCII are encoded differently. -/
theorem Encoding.text_inj {s : Text} (hs : IsAscii s) (ht : IsAscii t) :
    E.text s = E.text t ↔ s = t := by
  refine ⟨fun h => ?_, fun h => h ▸ rfl⟩
  have hcodes := congrArg (List.map E.code) h
  rw [E.map_code_text hs, E.map_code_text ht] at hcodes
  exact List.map_injective_iff.2 (fun c d => Char.toNat_inj.1) hcodes

end Scan

/-- **The bytes of a text are not zero**, if no character is. -/
theorem zero_not_mem_utf8 {t : Text} (h : Char.ofNat 0 ∉ t) : (0 : UInt8) ∉ utf8 t := by
  intro hmem
  obtain ⟨c, hc, hzero⟩ := List.mem_flatMap.1 hmem
  rcases Nat.lt_or_ge c.toNat 128 with hlt | hge
  · rw [utf8EncodeChar_ascii hlt, List.mem_singleton] at hzero
    have hnat := congrArg UInt8.toNat hzero
    rw [UInt8.toNat_ofNat', Nat.mod_eq_of_lt (by omega)] at hnat
    have hchar : c = Char.ofNat 0 := by
      rw [← Char.ofNat_toNat c, ← hnat]
      rfl
    exact h (hchar ▸ hc)
  · have hbig := (Scan.Encoding.utf8.other c hge).2 0 hzero
    exact absurd hbig (by decide)

/-! ### Decoding -/

theorem exists_of_utf8Head? {bs : Bytes} {c : Char} (h : utf8Head? bs = some c) :
    ∃ rest, bs = String.utf8EncodeChar c ++ rest := by
  obtain ⟨tail, htail⟩ := ByteArray.exists_of_utf8DecodeChar?_eq_some h
  have htake : bs.take 4 = String.utf8EncodeChar c ++ tail.data.toList := by
    have hdata := congrArg (fun b => b.data.toList) htail
    simpa using hdata
  exact ⟨tail.data.toList ++ bs.drop 4, by rw [← List.append_assoc, ← htake, List.take_append_drop]⟩

theorem eq_utf8_of_fuel {n : Nat} {bs : Bytes} {t : Text} (h : utf8DecodeFuel n bs = some t) :
    bs = utf8 t := by
  induction n generalizing bs t with
  | zero =>
    cases bs with
    | nil =>
      rw [utf8DecodeFuel, Option.some.injEq] at h
      exact h ▸ rfl
    | cons b bs => cases h
  | succ n ih =>
    cases bs with
    | nil =>
      rw [utf8DecodeFuel, Option.some.injEq] at h
      exact h ▸ rfl
    | cons b bs =>
      rw [utf8DecodeFuel] at h
      cases hhead : utf8Head? (b :: bs) with
      | none => rw [hhead] at h; cases h
      | some c =>
        simp only [hhead, Option.map_eq_some_iff] at h
        obtain ⟨t, ht, rfl⟩ := h
        obtain ⟨rest, hrest⟩ := exists_of_utf8Head? hhead
        have hdrop : (b :: bs).drop c.utf8Size = rest := by
          rw [hrest, ← String.length_utf8EncodeChar, List.drop_left]
        rw [hdrop] at ht
        rw [hrest, ih ht, utf8_cons]

/-- **What is decoded is what was encoded.** -/
theorem fromUtf8_eq_some {bs : Bytes} {t : Text} : fromUtf8 bs = some t ↔ bs = utf8 t :=
  ⟨eq_utf8_of_fuel, fun h => h ▸ fromUtf8_utf8 t⟩

/-! ### Lengths -/

theorem length_utf16EncodeChar_le (c : Char) :
    (utf16EncodeChar c).length ≤ (String.utf8EncodeChar c).length ∧
      (128 ≤ c.toNat → (utf16EncodeChar c).length < (String.utf8EncodeChar c).length) := by
  have hv : c.val.toNat = c.toNat := rfl
  unfold utf16EncodeChar String.utf8EncodeChar
  simp only [hv]
  split_ifs <;> simp <;> omega

theorem length_utf16_le (t : Text) : (utf16 t).length ≤ (utf8 t).length := by
  induction t with
  | nil => exact le_rfl
  | cons c t ih =>
    have hc := (length_utf16EncodeChar_le c).1
    rw [utf8_cons, utf16, List.flatMap_cons, List.length_append, List.length_append]
    exact Nat.add_le_add hc ih

/-- **A text beyond ASCII is shorter in UTF-16.** -/
theorem length_utf16_lt {t : Text} (ht : ¬IsAscii t) : (utf16 t).length < (utf8 t).length := by
  obtain ⟨c, hc, hlarge⟩ : ∃ c ∈ t, 128 ≤ c.toNat := by
    simpa [IsAscii] using ht
  obtain ⟨s, r, rfl⟩ := List.append_of_mem hc
  have hs := length_utf16_le s
  have hr := length_utf16_le r
  have hlt := (length_utf16EncodeChar_le c).2 hlarge
  unfold utf16 at hs hr ⊢
  rw [utf8_append, utf8_cons, List.flatMap_append, List.flatMap_cons]
  simp only [List.length_append]
  omega

end Lib
