import Mathlib.Data.List.Basic
import Mathlib.Data.List.DropRight
import Mathlib.Data.List.Nodup
import Std.Data.ExtTreeMap

/-!
# Text and bytes

A string of the program is a sequence of Unicode scalar values, and what is stored is its
UTF-8 encoding.  This module fixes the two types, the encoding between them and the few
scanning functions every text codec is written with: splitting at the first separator,
cutting a body into lines, trimming, and hexadecimal digits.  Maps keyed by texts are ordered
by scalar values, which is the order of the encoded bytes.

## Main results

* `fromUtf8_utf8` : decoding undoes encoding.
* `lines_cons_lf` : a line that is ended by a line feed is the first line of the text, except
  that a carriage return at its very end is dropped.
* `lf_not_mem_of_mem_lines`, `getLast?_ne_cr_of_stripCr` : what lines and shortened lines cannot
  hold.
* `hexDecode_hexEncode` : reading hexadecimal digits back gives the bytes.
* `TextMap.collect_toList` : a map is determined by its entries in key order.
-/

namespace Lib

/-- A string: the sequence of its Unicode scalar values. -/
abbrev Text := List Char

instance : LawfulBEq Text := inferInstance

/-- A string of octets. -/
abbrev Bytes := List UInt8

/-! ### UTF-8 -/

/-- The UTF-8 encoding of a text. -/
def utf8 (t : Text) : Bytes := t.flatMap String.utf8EncodeChar

@[simp] theorem utf8_nil : utf8 [] = [] := rfl

@[simp] theorem utf8_cons (c : Char) (t : Text) :
    utf8 (c :: t) = String.utf8EncodeChar c ++ utf8 t := rfl

@[simp] theorem utf8_append (s t : Text) : utf8 (s ++ t) = utf8 s ++ utf8 t :=
  List.flatMap_append

/-- The first scalar value of a byte string, if the bytes start with the encoding of one.  No
encoding is longer than four bytes. -/
def utf8Head? (bs : Bytes) : Option Char :=
  ByteArray.utf8DecodeChar? (bs.take 4).toByteArray 0

theorem length_utf8_le (t : Text) : (utf8 t).length ≤ 4 * t.length := by
  induction t with
  | nil => exact le_refl 0
  | cons c t ih =>
    have hc : (String.utf8EncodeChar c).length ≤ 4 := by
      rw [String.length_utf8EncodeChar]
      exact Char.utf8Size_le_four c
    rw [utf8_cons, List.length_append, List.length_cons]
    omega

theorem utf8Head?_encode (c : Char) (bs : Bytes) :
    utf8Head? (String.utf8EncodeChar c ++ bs) = some c := by
  have hlen : (String.utf8EncodeChar c).length ≤ 4 := by
    rw [String.length_utf8EncodeChar]
    exact c.utf8Size_le_four
  have htake : (String.utf8EncodeChar c ++ bs).take 4 =
      String.utf8EncodeChar c ++ bs.take (4 - (String.utf8EncodeChar c).length) := by
    rw [List.take_append, List.take_of_length_le hlen]
  rw [utf8Head?, htake, List.toByteArray_append]
  exact ByteArray.utf8DecodeChar?_utf8EncodeChar_append

/-- Decode at most `n` scalar values; a byte string has no more of them than bytes. -/
def utf8DecodeFuel : Nat → Bytes → Option Text
  | _, [] => some []
  | 0, _ :: _ => none
  | n + 1, b :: bs =>
    match utf8Head? (b :: bs) with
    | none => none
    | some c => (utf8DecodeFuel n ((b :: bs).drop c.utf8Size)).map (c :: ·)

/-- Decode a byte string that must be UTF-8 throughout. -/
def fromUtf8 (bs : Bytes) : Option Text := utf8DecodeFuel bs.length bs

theorem utf8DecodeFuel_utf8 (t : Text) (n : Nat) (h : (utf8 t).length ≤ n) :
    utf8DecodeFuel n (utf8 t) = some t := by
  induction t generalizing n with
  | nil => cases n <;> rfl
  | cons c t ih =>
    have hpos := c.utf8Size_pos
    have hhead := utf8Head?_encode c (utf8 t)
    have hdrop : (String.utf8EncodeChar c ++ utf8 t).drop c.utf8Size = utf8 t := by
      simp [← String.length_utf8EncodeChar]
    have hlen : (utf8 (c :: t)).length = c.utf8Size + (utf8 t).length := by
      simp [String.length_utf8EncodeChar]
    rw [utf8_cons] at h hlen ⊢
    cases hb : String.utf8EncodeChar c ++ utf8 t with
    | nil => simp only [hb, List.length_nil] at hlen; omega
    | cons b bs =>
      cases n with
      | zero => omega
      | succ n =>
        rw [hb] at hhead hdrop
        simp only [utf8DecodeFuel, hhead, hdrop]
        rw [ih n (by omega)]
        rfl

@[simp] theorem fromUtf8_utf8 (t : Text) : fromUtf8 (utf8 t) = some t :=
  utf8DecodeFuel_utf8 t _ le_rfl

theorem utf8_injective : Function.Injective utf8 := fun s t h => by
  have := congrArg fromUtf8 h
  simpa using this

/-! ### Splitting -/

section Split

variable {α : Type*} [DecidableEq α]

/-- Split at the first occurrence of `c`, dropping it. -/
def splitOnce (c : α) : List α → Option (List α × List α)
  | [] => none
  | a :: l => if a = c then some ([], l) else (splitOnce c l).map fun p => (a :: p.1, p.2)

theorem splitOnce_append {c : α} {l : List α} (h : c ∉ l) (r : List α) :
    splitOnce c (l ++ c :: r) = some (l, r) := by
  induction l with
  | nil => simp [splitOnce]
  | cons a l ih =>
    simp only [List.mem_cons, not_or] at h
    simp [splitOnce, Ne.symm h.1, ih h.2]

theorem splitOnce_eq_some {c : α} {l a b : List α} (h : splitOnce c l = some (a, b)) :
    l = a ++ c :: b ∧ c ∉ a := by
  induction l generalizing a with
  | nil => cases h
  | cons x l ih =>
    rw [splitOnce] at h
    split_ifs at h with hx
    · cases h
      exact ⟨by rw [hx]; rfl, List.not_mem_nil⟩
    · obtain ⟨p, hp, heq⟩ := Option.map_eq_some_iff.1 h
      cases heq
      obtain ⟨rfl, hc⟩ := ih hp
      exact ⟨rfl, fun hmem => (List.mem_cons.1 hmem).elim (fun heq => hx heq.symm) hc⟩

theorem splitOnce_eq_none {c : α} {l : List α} : splitOnce c l = none ↔ c ∉ l := by
  induction l with
  | nil => simp [splitOnce]
  | cons a l ih =>
    by_cases h : a = c
    · simp [splitOnce, h]
    · simp [splitOnce, h, ih, Ne.symm h]

/-- Drop `c` from both ends. -/
def trimMatches (c : α) (l : List α) : List α :=
  (l.dropWhile (· == c)).rdropWhile (· == c)

theorem trimMatches_eq_self {c : α} {l : List α} (hhead : l.head? ≠ some c)
    (hlast : l.getLast? ≠ some c) : trimMatches c l = l := by
  have hdrop : l.dropWhile (· == c) = l := by
    cases l with
    | nil => rfl
    | cons a l =>
      have hne : a ≠ c := fun h => hhead (by rw [h]; rfl)
      simp [hne]
  rw [trimMatches, hdrop, List.rdropWhile_eq_self_iff]
  intro hl
  rw [List.getLast?_eq_some_getLast hl] at hlast
  simpa using hlast

theorem mem_of_mem_trimMatches {c a : α} {l : List α} (h : a ∈ trimMatches c l) : a ∈ l :=
  (List.dropWhile_sublist _).subset ((List.rdropWhile_prefix _ _).subset h)

theorem mem_of_mem_splitOn {c a : α} {l p : List α} (hp : p ∈ l.splitOn c) (ha : a ∈ p) :
    a ∈ l := by
  induction l generalizing p with
  | nil =>
    rw [List.splitOn_nil, List.mem_singleton] at hp
    subst hp
    cases ha
  | cons b l ih =>
    rw [List.splitOn_cons_eq_if_modifyHead] at hp
    split_ifs at hp with hb
    · rcases List.mem_cons.1 hp with rfl | hp
      · cases ha
      · exact List.mem_cons_of_mem _ (ih hp ha)
    · cases hs : l.splitOn c with
      | nil => exact absurd hs (List.splitOn_ne_nil c l)
      | cons q qs =>
        rw [hs] at ih hp
        rcases List.mem_cons.1 hp with rfl | hp
        · rcases List.mem_cons.1 ha with rfl | ha
          · exact List.mem_cons_self
          · exact List.mem_cons_of_mem _ (ih List.mem_cons_self ha)
        · exact List.mem_cons_of_mem _ (ih (List.mem_cons_of_mem _ hp) ha)

theorem not_mem_of_mem_splitOn {c : α} {l p : List α} (hp : p ∈ l.splitOn c) : c ∉ p := by
  induction l generalizing p with
  | nil =>
    rw [List.splitOn_nil, List.mem_singleton] at hp
    subst hp
    exact List.not_mem_nil
  | cons b l ih =>
    rw [List.splitOn_cons_eq_if_modifyHead] at hp
    split_ifs at hp with hb
    · rcases List.mem_cons.1 hp with rfl | hp
      · exact List.not_mem_nil
      · exact ih hp
    · cases hs : l.splitOn c with
      | nil => exact absurd hs (List.splitOn_ne_nil c l)
      | cons q qs =>
        rw [hs] at ih hp
        rcases List.mem_cons.1 hp with rfl | hp
        · rw [List.mem_cons, not_or]
          exact ⟨fun h => hb (by simp [h]), ih List.mem_cons_self⟩
        · exact ih (List.mem_cons_of_mem _ hp)

/-- The pieces, with `c` between them. -/
def joinWith (c : α) (parts : List (List α)) : List α := [c].intercalate parts

omit [DecidableEq α] in
@[simp] theorem joinWith_singleton (c : α) (p : List α) : joinWith c [p] = p := by
  simp [joinWith]

omit [DecidableEq α] in
theorem joinWith_cons_cons (c : α) (p q : List α) (ps : List (List α)) :
    joinWith c (p :: q :: ps) = p ++ c :: joinWith c (q :: ps) := by
  simp [joinWith]

omit [DecidableEq α] in
theorem joinWith_append {c : α} {ps qs : List (List α)} (hps : ps ≠ []) (hqs : qs ≠ []) :
    joinWith c (ps ++ qs) = joinWith c ps ++ c :: joinWith c qs := by
  induction ps with
  | nil => exact absurd rfl hps
  | cons p ps ih =>
    cases ps with
    | nil =>
      obtain ⟨q, qs, rfl⟩ := List.exists_cons_of_ne_nil hqs
      simp [joinWith_cons_cons]
    | cons p' ps =>
      rw [List.cons_append, List.cons_append, joinWith_cons_cons, joinWith_cons_cons,
        ← List.cons_append, ih (by simp)]
      simp

omit [DecidableEq α] in
/-- The first and the last element of joined pieces, none of which is empty or holds `c`. -/
theorem head?_joinWith {c : α} {parts : List (List α)} (h : ∀ p ∈ parts, p ≠ [] ∧ c ∉ p) :
    (joinWith c parts).head? ≠ some c ∧ (joinWith c parts).getLast? ≠ some c := by
  induction parts with
  | nil => simp [joinWith]
  | cons p ps ih =>
    obtain ⟨hne, hc⟩ := h p List.mem_cons_self
    have hps := ih fun q hq => h q (List.mem_cons_of_mem _ hq)
    have hhead : p.head? ≠ some c := fun hp => hc (List.mem_of_mem_head? hp)
    cases ps with
    | nil =>
      rw [joinWith_singleton]
      exact ⟨hhead, fun hp => hc (List.mem_of_getLast? hp)⟩
    | cons q ps =>
      rw [joinWith_cons_cons]
      refine ⟨?_, ?_⟩
      · rwa [List.head?_append_of_ne_nil _ hne]
      · have hne' : joinWith c (q :: ps) ≠ [] := by
          have hq := (h q (by simp)).1
          cases ps with
          | nil => simpa using hq
          | cons r ps => simp [joinWith_cons_cons]
        rw [List.getLast?_append_of_ne_nil _ (by simp)]
        obtain ⟨a, l, hl⟩ := List.exists_cons_of_ne_nil hne'
        rw [hl, List.getLast?_cons_cons, ← hl]
        exact hps.2

/-- **Splitting undoes joining**, for pieces that are not empty and do not hold `c`. -/
theorem splitOn_joinWith {c : α} {parts : List (List α)} (hne : parts ≠ [])
    (h : ∀ p ∈ parts, p ≠ [] ∧ c ∉ p) :
    (trimMatches c (joinWith c parts)).splitOn c = parts := by
  obtain ⟨hhead, hlast⟩ := head?_joinWith h
  rw [trimMatches_eq_self hhead hlast]
  exact List.splitOn_intercalate c (fun p hp => (h p hp).2) hne

/-- A separator splits what is on its left from what is on its right. -/
theorem splitOn_append_sep (c : α) (l r : List α) :
    (l ++ c :: r).splitOn c = l.splitOn c ++ r.splitOn c := by
  induction l with
  | nil => simp [List.splitOn_cons_eq_if_modifyHead]
  | cons a l ih =>
    rw [List.cons_append, List.splitOn_cons_eq_if_modifyHead, List.splitOn_cons_eq_if_modifyHead, ih]
    split_ifs
    · rfl
    · cases hs : l.splitOn c with
      | nil => exact absurd hs (List.splitOn_ne_nil c l)
      | cons p ps => rfl

/-- What is put before a list comes before its first piece. -/
theorem splitOn_append_left {c : α} {l : List α} (h : c ∉ l) (r : List α) :
    (l ++ r).splitOn c = (r.splitOn c).modifyHead (l ++ ·) := by
  induction l with
  | nil =>
    cases hs : r.splitOn c with
    | nil => exact absurd hs (List.splitOn_ne_nil c r)
    | cons p ps => exact hs
  | cons a l ih =>
    obtain ⟨ha, hl⟩ := not_or.1 (mt List.mem_cons.2 h)
    rw [List.cons_append, List.splitOn_cons_eq_if_modifyHead, if_neg (by simpa using Ne.symm ha), ih hl]
    cases r.splitOn c <;> rfl

theorem splitOn_append_cons {c : α} {l : List α} (h : c ∉ l) (r : List α) :
    (l ++ c :: r).splitOn c = l :: r.splitOn c := by
  induction l with
  | nil => simp [List.splitOn_cons_eq_if_modifyHead]
  | cons a l ih =>
    obtain ⟨ha, hl⟩ := not_or.1 (mt List.mem_cons.2 h)
    rw [List.cons_append, List.splitOn_cons_eq_if_modifyHead, ih hl]
    simp [Ne.symm ha]

theorem splitOn_of_not_mem {c : α} {l : List α} (h : c ∉ l) : l.splitOn c = [l] := by
  induction l with
  | nil => simp
  | cons a l ih =>
    obtain ⟨ha, hl⟩ := not_or.1 (mt List.mem_cons.2 h)
    rw [List.splitOn_cons_eq_if_modifyHead, ih hl]
    simp [Ne.symm ha]

theorem joinWith_splitOn (c : α) (l : List α) : joinWith c (l.splitOn c) = l :=
  List.intercalate_splitOn c

omit [DecidableEq α] in
/-- A prefix stays when what is dropped at the end cannot reach into it. -/
theorem prefix_rdropWhile_iff {p : α → Bool} {l m : List α} {a : α} (ha : p a = false) :
    l ++ [a] <+: m.rdropWhile p ↔ l ++ [a] <+: m := by
  refine ⟨fun h => h.trans (List.rdropWhile_prefix p m), ?_⟩
  rintro ⟨r, rfl⟩
  induction r using List.reverseRecOn with
  | nil =>
    have hkeep : (l ++ [a]).rdropWhile p = l ++ [a] :=
      List.rdropWhile_concat_neg _ _ _ (by simp [ha])
    exact ⟨[], by rw [List.append_nil (l ++ [a]), hkeep]⟩
  | append_singleton r b ih =>
    rw [← List.append_assoc, List.rdropWhile_concat]
    split_ifs
    · exact ih
    · rw [List.append_assoc]
      exact List.prefix_append _ _

end Split

/-! ### Lines -/

/-- Drop one carriage return at the end of a line. -/
def stripCr (l : Text) : Text :=
  if l.getLast? = some '\r' then l.dropLast else l

theorem stripCr_of_ne {l : Text} (h : l.getLast? ≠ some '\r') : stripCr l = l := if_neg h

@[simp] theorem stripCr_append_cr (l : Text) : stripCr (l ++ ['\r']) = l := by
  simp [stripCr]

theorem stripCr_append (l : Text) {r : Text} (hr : r ≠ []) : stripCr (l ++ r) = l ++ stripCr r := by
  unfold stripCr
  rw [List.getLast?_append_of_ne_nil _ hr]
  split_ifs
  · exact List.dropLast_append_of_ne_nil hr
  · rfl

/-- The lines of a text whose current line has read `acc`, in reverse. -/
def linesAux (acc : Text) : Text → List Text
  | [] => if acc = [] then [] else [acc.reverse]
  | c :: cs =>
    if c = '\n' then stripCr acc.reverse :: linesAux [] cs else linesAux (c :: acc) cs

/-- The lines of a text: pieces ended by a line feed, or by a carriage return and a line feed;
a last piece without a line feed counts when it is not empty, and keeps its carriage return. -/
def lines (t : Text) : List Text := linesAux [] t

theorem linesAux_append_lf (acc l rest : Text) (h : '\n' ∉ l) :
    linesAux acc (l ++ '\n' :: rest) = stripCr (acc.reverse ++ l) :: lines rest := by
  induction l generalizing acc with
  | nil => simp [linesAux, lines]
  | cons c l ih =>
    simp only [List.mem_cons, not_or] at h
    simp only [List.cons_append, linesAux, if_neg (Ne.symm h.1)]
    rw [ih (c :: acc) h.2]
    simp

@[simp] theorem lines_nil : lines [] = [] := rfl

/-- **A line ended by a line feed comes first**, without a carriage return at its end. -/
theorem lines_cons_lf {l : Text} (h : '\n' ∉ l) (rest : Text) :
    lines (l ++ '\n' :: rest) = stripCr l :: lines rest := by
  rw [lines, linesAux_append_lf [] l rest h]
  simp

theorem mem_of_mem_stripCr {l : Text} {c : Char} (h : c ∈ stripCr l) : c ∈ l := by
  rw [stripCr] at h
  split_ifs at h
  · exact List.dropLast_subset l h
  · exact h

theorem lf_not_mem_of_mem_linesAux {t l acc : Text} (hacc : '\n' ∉ acc) (h : l ∈ linesAux acc t) :
    '\n' ∉ l := by
  induction t generalizing acc with
  | nil =>
    rw [linesAux] at h
    split_ifs at h
    · cases h
    · rw [List.mem_singleton.1 h, List.mem_reverse]
      exact hacc
  | cons c t ih =>
    rw [linesAux] at h
    split_ifs at h with hc
    · rcases List.mem_cons.1 h with rfl | h
      · exact fun hmem => hacc (List.mem_reverse.1 (mem_of_mem_stripCr hmem))
      · exact ih List.not_mem_nil h
    · refine ih (fun hmem => ?_) h
      rcases List.mem_cons.1 hmem with heq | hmem
      · exact hc heq.symm
      · exact hacc hmem

/-- No line holds a line feed. -/
theorem lf_not_mem_of_mem_lines {t l : Text} (h : l ∈ lines t) : '\n' ∉ l :=
  lf_not_mem_of_mem_linesAux List.not_mem_nil h

/-- A carriage return that is dropped shortens the line. -/
theorem eq_append_of_stripCr_ne {l : Text} (h : stripCr l ≠ l) : l = stripCr l ++ ['\r'] := by
  rw [stripCr] at h ⊢
  split_ifs at h ⊢ with hcr
  · exact (List.dropLast_append_getLast? _ hcr).symm
  · exact absurd rfl h

/-- **Names that are all among their own shortened forms end in no carriage return**: otherwise
there would be longer and longer ones. -/
theorem getLast?_ne_cr_of_stripCr {S : List Text} (hS : ∀ x ∈ S, ∃ y ∈ S, stripCr y = x) {x : Text}
    (hx : x ∈ S) : x.getLast? ≠ some '\r' := by
  intro hcr
  have hlong : ∀ k : Nat, ∃ y ∈ S, y.getLast? = some '\r' ∧ k ≤ y.length := by
    intro k
    induction k with
    | zero => exact ⟨x, hx, hcr, Nat.zero_le _⟩
    | succ k ih =>
      obtain ⟨y, hy, hlast, hk⟩ := ih
      obtain ⟨z, hz, rfl⟩ := hS y hy
      have hne : stripCr z ≠ z := fun heq => by
        rw [heq] at hlast
        have := congrArg List.length heq
        rw [stripCr, if_pos hlast, List.length_dropLast] at this
        have hpos := List.length_pos_of_mem (List.mem_of_getLast? hlast)
        omega
      have hz' := eq_append_of_stripCr_ne hne
      refine ⟨z, hz, by rw [hz', List.getLast?_concat], ?_⟩
      rw [hz', List.length_append]
      simp only [List.length_singleton]
      omega
  obtain ⟨y, hy, -, hk⟩ := hlong (S.flatten.length + 1)
  have := (List.sublist_flatten_of_mem hy).length_le
  omega

/-! ### Hexadecimal digits -/

/-- The lower-case hexadecimal digit of a number below 16. -/
def hexDigit (n : Nat) : Char :=
  if n < 10 then Char.ofNat (48 + n) else Char.ofNat (87 + n)

/-- The value of a hexadecimal digit in either case, given as an ASCII byte. -/
def nibble (b : UInt8) : Option UInt8 :=
  if 48 ≤ b ∧ b ≤ 57 then some (b - 48)
  else if 97 ≤ b ∧ b ≤ 102 then some (b - 97 + 10)
  else if 65 ≤ b ∧ b ≤ 70 then some (b - 65 + 10)
  else none

/-- Two hexadecimal digits for each byte. -/
def hexEncode (bs : Bytes) : Text :=
  bs.flatMap fun b => [hexDigit (b.toNat / 16), hexDigit (b.toNat % 16)]

/-- Read pairs of hexadecimal digits, or report the first byte that is not a digit; a digit
left over at the end is not looked at. -/
def hexDecode : Bytes → Except UInt8 Bytes
  | hi :: lo :: rest =>
    match nibble hi, nibble lo with
    | some h, some l => (hexDecode rest).map ((h <<< 4 ||| l) :: ·)
    | none, _ => .error hi
    | some _, none => .error lo
  | _ => .ok []

/-- `hexDigit` as an ASCII byte. -/
def hexByte (n : Nat) : UInt8 :=
  if n < 10 then UInt8.ofNat (48 + n) else UInt8.ofNat (87 + n)

theorem utf8_hexDigit {n : Nat} (h : n < 16) : utf8 [hexDigit n] = [hexByte n] := by
  have key : ∀ n : Fin 16, utf8 [hexDigit n.val] = [hexByte n.val] := by decide
  exact key ⟨n, h⟩

theorem nibble_hexByte {n : Nat} (h : n < 16) : nibble (hexByte n) = some (UInt8.ofNat n) := by
  have key : ∀ n : Fin 16, nibble (hexByte n.val) = some (UInt8.ofNat n.val) := by decide
  exact key ⟨n, h⟩

theorem join_nibbles (b : UInt8) :
    UInt8.ofNat (b.toNat / 16) <<< 4 ||| UInt8.ofNat (b.toNat % 16) = b := by
  have key : ∀ n : Fin 256, UInt8.ofNat ((UInt8.ofNat n.val).toNat / 16) <<< 4 |||
      UInt8.ofNat ((UInt8.ofNat n.val).toNat % 16) = UInt8.ofNat n.val := by
    decide +kernel
  simpa using key ⟨b.toNat, b.toNat_lt⟩

/-- The text of a byte's digits, followed by the digits of the others. -/
theorem utf8_hexEncode_cons (b : UInt8) (bs : Bytes) :
    utf8 (hexEncode (b :: bs)) =
      hexByte (b.toNat / 16) :: hexByte (b.toNat % 16) :: utf8 (hexEncode bs) := by
  have h1 := utf8_hexDigit (n := b.toNat / 16) (by have := b.toNat_lt; omega)
  have h2 := utf8_hexDigit (n := b.toNat % 16) (by omega)
  change utf8 ([hexDigit (b.toNat / 16)] ++ ([hexDigit (b.toNat % 16)] ++ hexEncode bs)) = _
  rw [utf8_append, utf8_append, h1, h2]
  rfl

/-- **Reading the digits back gives the bytes.** -/
theorem hexDecode_hexEncode (bs : Bytes) : hexDecode (utf8 (hexEncode bs)) = .ok bs := by
  induction bs with
  | nil => rfl
  | cons b bs ih =>
    have hhi := nibble_hexByte (n := b.toNat / 16) (by have := b.toNat_lt; omega)
    have hlo := nibble_hexByte (n := b.toNat % 16) (by omega)
    rw [utf8_hexEncode_cons, hexDecode, hhi, hlo, ih]
    simp [Except.map, join_nibbles]

/-- Only digits are read, when none is left over. -/
theorem nibble_ne_none_of_hexDecode : ∀ {bs r : Bytes}, hexDecode bs = .ok r →
    bs.length % 2 = 0 → ∀ b ∈ bs, nibble b ≠ none
  | [], _, _, _ => nofun
  | [_], _, _, heven => by simp at heven
  | hi :: lo :: rest, r, h, heven => by
    rw [List.length_cons, List.length_cons] at heven
    rw [hexDecode] at h
    cases hhi : nibble hi with
    | none => rw [hhi] at h; cases h
    | some x =>
      cases hlo : nibble lo with
      | none => rw [hhi, hlo] at h; cases h
      | some y =>
        cases hrest : hexDecode rest with
        | error e => rw [hhi, hlo, hrest] at h; cases h
        | ok r =>
          refine List.forall_mem_cons.2 ⟨by simp [hhi], List.forall_mem_cons.2 ⟨by simp [hlo], ?_⟩⟩
          exact nibble_ne_none_of_hexDecode hrest (by omega)

theorem length_utf8_hexEncode (bs : Bytes) : (utf8 (hexEncode bs)).length = 2 * bs.length := by
  induction bs with
  | nil => rfl
  | cons b bs ih =>
    rw [utf8_hexEncode_cons, List.length_cons, List.length_cons, ih, List.length_cons]
    omega

/-- The characters of hexadecimal digits are digits or the letters `a` to `f`. -/
theorem hexDigit_mem {bs : Bytes} {c : Char} (h : c ∈ hexEncode bs) :
    c.isAlphanum = true := by
  have key : ∀ n : Fin 16, (hexDigit n.val).isAlphanum = true := by decide
  simp only [hexEncode, List.mem_flatMap, List.mem_cons, List.not_mem_nil, or_false] at h
  obtain ⟨b, -, rfl | rfl⟩ := h
  · exact key ⟨b.toNat / 16, by have := b.toNat_lt; omega⟩
  · exact key ⟨b.toNat % 16, by omega⟩

/-! ### Maps keyed by text -/

/-- An ordered map from texts. -/
abbrev TextMap (V : Type) := Std.ExtTreeMap Text V

namespace TextMap

variable {V : Type}

theorem getElem?_insert (m : TextMap V) (k a : Text) (v : V) :
    (m.insert k v)[a]? = if k = a then some v else m[a]? := by
  rw [Std.ExtTreeMap.getElem?_insert]
  simp only [Std.compare_eq_iff_eq]

theorem getElem?_erase (m : TextMap V) (k a : Text) :
    (m.erase k)[a]? = if k = a then none else m[a]? := by
  rw [Std.ExtTreeMap.getElem?_erase]
  simp only [Std.compare_eq_iff_eq]

/-- The keys of the entries are distinct. -/
theorem pairwise_toList (m : TextMap V) : m.toList.Pairwise fun p q => p.1 ≠ q.1 :=
  m.distinct_keys_toList.imp fun h heq => h (Std.compare_eq_iff_eq.2 heq)

/-- The entries come in key order. -/
theorem sorted_toList (m : TextMap V) : m.toList.Pairwise fun p q => compare p.1 q.1 = .lt :=
  Std.ExtTreeMap.ordered_keys_toList.imp fun h => h

theorem mem_toList {m : TextMap V} {k : Text} {v : V} : (k, v) ∈ m.toList ↔ m[k]? = some v :=
  Std.ExtTreeMap.mem_toList_iff_getElem?_eq_some

/-- Inserting entries with distinct keys one after the other. -/
theorem getElem?_foldl_insert (l : List (Text × V)) (m : TextMap V) (k : Text)
    (hl : l.Pairwise fun p q => p.1 ≠ q.1) :
    (l.foldl (fun m p => m.insert p.1 p.2) m)[k]? =
      ((l.find? fun p => p.1 = k).map Prod.snd).or m[k]? := by
  induction l generalizing m with
  | nil => simp
  | cons p l ih =>
    rw [List.pairwise_cons] at hl
    rw [List.foldl_cons, ih _ hl.2, getElem?_insert]
    by_cases hk : p.1 = k
    · have hnone : l.find? (fun q => q.1 = k) = none := by
        rw [List.find?_eq_none]
        intro q hq
        simpa [← hk] using Ne.symm (hl.1 q hq)
      simp [hk, hnone]
    · simp [hk]

/-- A map from entries, the last one with a key winning. -/
def collect (l : List (Text × V)) : TextMap V := l.foldl (fun m p => m.insert p.1 p.2) ∅

theorem getElem?_collect {l : List (Text × V)} (hl : (l.map Prod.fst).Nodup) {k : Text} {v : V} :
    (collect l)[k]? = some v ↔ (k, v) ∈ l := by
  rw [collect, getElem?_foldl_insert _ _ _ (List.pairwise_map.1 hl)]
  constructor
  · intro h
    cases hf : l.find? (fun p => p.1 = k) with
    | none => simp [hf] at h
    | some p =>
      obtain ⟨k', w⟩ := p
      obtain rfl : k' = k := by simpa using List.find?_some hf
      obtain rfl : w = v := by simpa [hf] using h
      exact List.mem_of_find?_eq_some hf
  · intro h
    cases hf : l.find? (fun p => p.1 = k) with
    | none =>
      have := List.find?_eq_none.1 hf (k, v) h
      simp at this
    | some p =>
      have hkey : p.1 = k := by simpa using List.find?_some hf
      have := List.inj_on_of_nodup_map hl (List.mem_of_find?_eq_some hf) h hkey
      simp [this]

/-- What a map holds is one of its entries. -/
theorem mem_of_getElem?_foldl_insert {l : List (Text × V)} {m : TextMap V} {k : Text} {v : V}
    (h : (l.foldl (fun m p => m.insert p.1 p.2) m)[k]? = some v) : (k, v) ∈ l ∨ m[k]? = some v := by
  induction l generalizing m with
  | nil => exact .inr h
  | cons p l ih =>
    rcases ih h with hmem | hget
    · exact .inl (List.mem_cons_of_mem _ hmem)
    · rw [getElem?_insert] at hget
      split_ifs at hget with hk
      · cases hget
        exact .inl (hk ▸ List.mem_cons_self)
      · exact .inr hget

theorem mem_of_getElem?_collect {l : List (Text × V)} {k : Text} {v : V}
    (h : (collect l)[k]? = some v) : (k, v) ∈ l := by
  refine (mem_of_getElem?_foldl_insert h).resolve_right fun hempty => ?_
  rw [Std.ExtTreeMap.getElem?_empty] at hempty
  cases hempty

theorem nodup_keys_toList (m : TextMap V) : (m.toList.map Prod.fst).Nodup :=
  List.pairwise_map.2 m.pairwise_toList

/-- **A map is determined by its entries.** -/
theorem collect_toList (m : TextMap V) : collect m.toList = m :=
  Std.ExtTreeMap.ext_getElem? fun k => Option.ext fun v => by
    rw [getElem?_collect m.nodup_keys_toList, mem_toList]

end TextMap

/-! ### Decimal digits -/

/-- The first digit of a number. -/
theorem exists_toDigits_cons (n : Nat) :
    ∃ c ds, Nat.toDigits 10 n = c :: ds ∧ c.isDigit = true := by
  obtain ⟨c, ds, hc⟩ := List.exists_cons_of_ne_nil (Nat.toDigits_ne_nil (n := n) (b := 10))
  refine ⟨c, ds, hc, Nat.isDigit_of_mem_toDigits (b := 10) (n := n) (by omega) (by omega) ?_⟩
  rw [hc]
  exact List.mem_cons_self

end Lib
