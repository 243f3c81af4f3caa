import Omp.Chunks
import Omp.Concrete
import Omp.DiskStore
import Omp.RefExprs

/-!
# Frames and chunk lists with more than one spelling

`parse_framed` and `ChunksBody::parse` read what `frame` and `ChunksBody::serialize` write.  They
also read other bytes: the standard library takes a plus sign and zeros before a number, an
address may be in capitals, and lines of a chunk list that are empty do not count.  Bytes with such
a spelling are accepted and are written back as other bytes.

## Main definitions

* `Spells` : what is read as a number.
* `OneFrame`, `OneList` : what is accepted is what would be written.
* `LooseSize`, `TidyLines` : where the spelling is another one, and where it is not.

## Main results

* `parseFramed_eq_ok`, `ChunksBody.parse_eq_ok` : exactly what is read.
* `frame_one_spelling`, `chunks_one_spelling` : when what is accepted is what would be written.
-/

namespace Omp

open Lib

/-! ### Numbers -/

theorem digitChar_of_isDigit {c : Char} (h : c.isDigit = true) :
    c.toNat - '0'.toNat < 10 ∧ (c.toNat - '0'.toNat).digitChar = c := by
  obtain ⟨hlow, hhigh⟩ : 48 ≤ c.toNat ∧ c.toNat ≤ 57 := by
    rw [Char.isDigit, Bool.and_eq_true, decide_eq_true_iff, decide_eq_true_iff] at h
    exact ⟨h.1, h.2⟩
  have hzero : '0'.toNat = 48 := rfl
  have hchar : ∀ n < 10, (n.digitChar) = Char.ofNat (n + 48) := by decide
  refine ⟨by omega, ?_⟩
  rw [hchar _ (by omega), hzero, Nat.sub_add_cancel hlow, Char.ofNat_toNat]

/-- Digits are the decimal form of their number, with zeros before it. -/
theorem exists_zeros {ds : Text} (hne : ds ≠ []) (hall : ∀ c ∈ ds, c.isDigit = true) :
    ∃ k, ds = List.replicate k '0' ++ decimal (Nat.ofDigitChars 10 ds 0) := by
  induction ds using List.reverseRecOn with
  | nil => exact absurd rfl hne
  | append_singleton ds c ih =>
    obtain ⟨hlt, hchar⟩ := digitChar_of_isDigit (hall c (by simp))
    have hvalue : Nat.ofDigitChars 10 (ds ++ [c]) 0 =
        10 * Nat.ofDigitChars 10 ds 0 + (c.toNat - '0'.toNat) := by
      rw [Nat.ofDigitChars_append, Nat.ofDigitChars_cons, Nat.ofDigitChars_nil]
    have hlast : Nat.toDigits 10 (c.toNat - '0'.toNat) = [c] := by
      rw [Nat.toDigits_of_lt_base hlt, hchar]
    rw [hvalue]
    generalize hn : Nat.ofDigitChars 10 ds 0 = n at ih
    rcases Nat.eq_zero_or_pos n with rfl | hpos
    · -- only zeros come before the last digit
      have hzeros : ∃ k, ds = List.replicate k '0' := by
        by_cases hds : ds = []
        · exact ⟨0, hds⟩
        · obtain ⟨k, hk⟩ := ih hds fun d hd => hall d (List.mem_append_left _ hd)
          exact ⟨k + 1, by rw [hk, List.replicate_succ']; rfl⟩
      obtain ⟨k, rfl⟩ := hzeros
      refine ⟨k, ?_⟩
      rw [decimal, Nat.mul_zero, Nat.zero_add, hlast]
    · have hds : ds ≠ [] := by
        rintro rfl
        rw [Nat.ofDigitChars_nil] at hn
        omega
      obtain ⟨k, hk⟩ := ih hds fun d hd => hall d (List.mem_append_left _ hd)
      refine ⟨k, ?_⟩
      rw [decimal, ← Nat.toDigits_append_toDigits (by omega) hpos hlt, hlast, ← List.append_assoc,
        ← decimal, ← hk]

theorem toLower_of_isDigit {c : Char} (h : c.isDigit = true) : c.toLower = c := by
  have hchar : ∀ n < 10, n.digitChar.toLower = n.digitChar := by decide
  obtain ⟨hlt, heq⟩ := digitChar_of_isDigit h
  rw [← heq, hchar _ hlt]

/-- A decimal form has no zero before it. -/
theorem eq_nil_of_decimal {n : Nat} {s : Text} (h : decimal n = '0' :: s) : s = [] := by
  rw [decimal] at h
  induction n using Nat.base_induction 10 (by omega) generalizing s with
  | single m hm =>
    rw [Nat.toDigits_of_lt_base hm, List.cons.injEq] at h
    exact h.2.symm
  | digit m k hk hm ih =>
    rw [← Nat.toDigits_append_toDigits (by omega) hm hk] at h
    obtain ⟨c, ds, hds⟩ := List.exists_cons_of_ne_nil (Nat.toDigits_ne_nil (b := 10) (n := m))
    rw [hds, List.cons_append, List.cons.injEq] at h
    obtain ⟨rfl, -⟩ := h
    have hzero : Nat.ofDigitChars 10 (Nat.toDigits 10 m) 0 = 0 := by
      rw [hds, ih hds]
      rfl
    rw [Nat.ofDigitChars_ten_toDigits] at hzero
    omega

/-- A text that is read as a number: its decimal form, after zeros and a plus sign. -/
def Spells (s : Text) (n : Nat) : Prop :=
  ∃ k, s = List.replicate k '0' ++ decimal n ∨ s = '+' :: (List.replicate k '0' ++ decimal n)

theorem spells_decimal (n : Nat) : Spells (decimal n) n := ⟨0, .inl rfl⟩

theorem parseUsize_plus {n : Nat} (h : n < 2 ^ 64) (k : Nat) :
    parseUsize ('+' :: (List.replicate k '0' ++ decimal n)) = some n := by
  have hread := parseUsize_padded h k
  rw [parseUsize] at hread
  · rw [parseUsize]
    exact hread
  · rintro ds heq
    have hplus : '+' ∈ List.replicate k '0' ++ decimal n := heq ▸ List.mem_cons_self
    rcases List.mem_append.1 hplus with hmem | hmem
    · exact absurd (List.eq_of_mem_replicate hmem) (by decide)
    · exact absurd (Nat.isDigit_of_mem_toDigits (by omega) (by omega) hmem) (by decide)

/-- **A number is read** from its decimal form, after zeros and a plus sign. -/
theorem parseUsize_eq_some {s : Text} {n : Nat} :
    parseUsize s = some n ↔ Spells s n ∧ n < 2 ^ 64 := by
  constructor
  · intro h
    -- a digit list that is read is read as the number it stands for
    have hdigits : ∀ ds : Text, (if ds ≠ [] ∧ ds.all Char.isDigit then
        let n := ds.foldl (fun n c => 10 * n + (c.toNat - '0'.toNat)) 0
        if n < 2 ^ 64 then some n else none else none) = some n →
        (∃ k, ds = List.replicate k '0' ++ decimal n) ∧ n < 2 ^ 64 := by
      intro ds hds
      dsimp only at hds
      split_ifs at hds with hall hlt
      obtain rfl := Option.some.inj hds
      exact ⟨exists_zeros hall.1 (List.all_eq_true.1 hall.2), hlt⟩
    unfold parseUsize at h
    split at h
    · obtain ⟨⟨k, rfl⟩, hlt⟩ := hdigits _ h
      exact ⟨⟨k, .inr rfl⟩, hlt⟩
    · obtain ⟨⟨k, rfl⟩, hlt⟩ := hdigits _ h
      exact ⟨⟨k, .inl rfl⟩, hlt⟩
  · rintro ⟨⟨k, rfl | rfl⟩, hlt⟩
    · exact parseUsize_padded hlt k
    · exact parseUsize_plus hlt k

/-! ### Frames -/

variable {P : Platform}

/-- The bytes of a frame whose size is written in the given way. -/
def frameWith (t : ObjectType) (size : Text) (content : Bytes) : Bytes :=
  utf8 (t.asStr ++ ' ' :: size) ++ 0 :: content

theorem frame_eq (t : ObjectType) (content : Bytes) :
    Object.frame ⟨t, content⟩ = frameWith t (decimal content.length) content := by
  have hnul : utf8 [Char.ofNat 0] = [0] := by decide
  rw [Object.frame, utf8_append, hnul, List.append_assoc]
  rfl

theorem frameWith_inj {t : ObjectType} {s s' : Text} {content : Bytes}
    (h : frameWith t s content = frameWith t s' content) : s = s' := by
  rw [frameWith, frameWith, List.append_left_inj] at h
  have htext := utf8_injective h
  rw [List.append_cancel_left_eq, List.cons.injEq] at htext
  exact htext.2

theorem Spells.not_mem {s : Text} {n : Nat} (h : Spells s n) {c : Char} (hc : c.isDigit = false)
    (hplus : c ≠ '+') : c ∉ s := by
  have hdigits : ∀ k, c ∉ List.replicate k '0' ++ decimal n := by
    intro k hmem
    rcases List.mem_append.1 hmem with hmem | hmem
    · rw [List.eq_of_mem_replicate hmem] at hc
      cases hc
    · rw [Nat.isDigit_of_mem_toDigits (by omega) (by omega) hmem] at hc
      cases hc
  obtain ⟨k, rfl | rfl⟩ := h
  · exact hdigits k
  · rw [List.mem_cons, not_or]
    exact ⟨hplus, hdigits k⟩

/-- **What is read as a frame**: a type, a spelling of the length of the content, and the content. -/
theorem parseFramed_eq_ok {b content : Bytes} {t : ObjectType} :
    parseFramed P b = .ok (t, content) ↔
      ∃ s, Spells s content.length ∧ content.length < 2 ^ 64 ∧ b = frameWith t s content := by
  constructor
  · intro h
    unfold parseFramed at h
    cases hsplit : splitOnce 0 b with
    | none => rw [hsplit] at h; cases h
    | some p =>
      obtain ⟨head, rest⟩ := p
      simp only [hsplit] at h
      cases hutf : fromUtf8 head with
      | none => rw [hutf] at h; cases h
      | some header =>
        simp only [hutf] at h
        cases hspace : splitOnce ' ' header with
        | none => rw [hspace] at h; cases h
        | some q =>
          obtain ⟨typeStr, sizeStr⟩ := q
          simp only [hspace] at h
          cases hsize : parseUsize sizeStr with
          | none => rw [hsize] at h; cases h
          | some declared =>
            simp only [hsize] at h
            obtain ⟨type, htype, h⟩ := except_bind_eq_ok.1 h
            split_ifs at h with hlen
            cases h
            obtain ⟨hspells, hlt⟩ := parseUsize_eq_some.1 hsize
            obtain rfl := not_not.1 hlen
            refine ⟨sizeStr, hspells, hlt, ?_⟩
            rw [(splitOnce_eq_some hsplit).1, fromUtf8_eq_some.1 hutf, (splitOnce_eq_some hspace).1,
              ObjectType.eq_asStr_of_parse htype]
            rfl
  · rintro ⟨s, hs, hlt, rfl⟩
    have hspace : ' ' ∉ t.asStr := by cases t <;> decide +kernel
    have hzero : (0 : UInt8) ∉ utf8 (t.asStr ++ ' ' :: s) := by
      refine zero_not_mem_utf8 ?_
      rw [List.mem_append, List.mem_cons, not_or, not_or]
      exact ⟨by cases t <;> decide +kernel, by decide, hs.not_mem (by decide) (by decide)⟩
    rw [frameWith, parseFramed, splitOnce_append hzero]
    dsimp only
    rw [fromUtf8_utf8]
    dsimp only
    rw [splitOnce_append hspace]
    dsimp only
    rw [parseUsize_eq_some.2 ⟨hs, hlt⟩]
    dsimp only
    rw [ObjectType.parse_asStr]
    exact if_neg (not_not.2 rfl)

/-- The size in the header is not written as `frame` writes it: there is a plus sign or a zero
before it. -/
def LooseSize (b : Bytes) : Prop :=
  ∃ t s content, b = frameWith t s content ∧ Spells s content.length ∧ s ≠ decimal content.length

/-- What is read as a frame is a frame, and all that is: an object that is accepted is framed to the
same bytes again, and has their hash as its address. -/
structure OneFrame (P : Platform) (b : Bytes) : Prop where
  /-- The accepted bytes are the frame of what is read. -/
  frame : ∀ t content, parseFramed P b = .ok (t, content) ↔ b = Object.frame ⟨t, content⟩
  /-- Their hash is the address. -/
  address : ∀ t content, parseFramed P b = .ok (t, content) → hashOf P t content = P.sha256 b

/-- **When an object frame has one spelling**: exactly when its size is not written loosely. -/
theorem frame_one_spelling {b : Bytes} (hb : b.length < 2 ^ 64) :
    OneFrame P b ↔ ¬ LooseSize b := by
  constructor
  · rintro ⟨hframe, -⟩ ⟨t, s, content, rfl, hs, hne⟩
    have hlt : content.length < 2 ^ 64 := by
      rw [frameWith, List.length_append, List.length_cons] at hb
      omega
    have hread := (hframe t content).1 (parseFramed_eq_ok.2 ⟨s, hs, hlt, rfl⟩)
    exact hne (frameWith_inj (hread.trans (frame_eq t content)))
  · intro hloose
    have hframe : ∀ t content, parseFramed P b = .ok (t, content) → b = Object.frame ⟨t, content⟩ := by
      intro t content h
      obtain ⟨s, hs, -, rfl⟩ := parseFramed_eq_ok.1 h
      by_cases hdec : s = decimal content.length
      · rw [frame_eq, hdec]
      · exact absurd ⟨t, s, content, rfl, hs, hdec⟩ hloose
    refine ⟨fun t content => ⟨hframe t content, ?_⟩, fun t content h => ?_⟩
    · rintro rfl
      refine parseFramed_eq_ok.2 ⟨_, spells_decimal _, ?_, frame_eq t content⟩
      rw [frame_eq, frameWith, List.length_append, List.length_cons] at hb
      omega
    · rw [hashOf, Object.address, ← hframe t content h]

theorem frame_one_spelling_demo : OneFrame demo (Object.frame ⟨.blob, [7]⟩) :=
  (frame_one_spelling (by decide +kernel)).2 fun hloose => by
    obtain ⟨t, s, content, heq, hs, hne⟩ := hloose
    have hread : parseFramed demo (Object.frame ⟨.blob, [7]⟩) = .ok (.blob, [7]) := by
      decide +kernel
    have hlt : content.length < 2 ^ 64 := by
      have hlen : (Object.frame ⟨.blob, [7]⟩).length < 2 ^ 64 := by decide +kernel
      rw [heq, frameWith, List.length_append, List.length_cons] at hlen
      omega
    rw [heq, parseFramed_eq_ok.2 ⟨s, hs, hlt, rfl⟩, Except.ok.injEq, Prod.mk.injEq] at hread
    obtain ⟨rfl, rfl⟩ := hread
    exact hne (frameWith_inj (heq.symm.trans (frame_eq _ _)))

/-- A plus sign in the header is read over. -/
theorem plus_in_header : ¬ OneFrame demo (frameWith .blob "+0".toList []) := by
  rintro ⟨hframe, -⟩
  have hread := (hframe .blob []).1 (by decide +kernel)
  exact absurd hread (by decide +kernel)

/-! ### Chunk lists -/

namespace ChunksBody

variable {W : World}

/-- `total_length`, which wraps around. -/
def totalLength (body : ChunksBody) : UInt64 :=
  body.foldl (fun n e => n + UInt64.ofNat e.length) 0

/-- The lengths are those of the machine. -/
def Fits (body : ChunksBody) : Prop := ∀ e ∈ body, e.length < 2 ^ 64

theorem toNat_totalLength (body : ChunksBody) :
    (totalLength body).toNat = (body.map ChunkEntry.length).sum % 2 ^ 64 := by
  have hfold : ∀ n : UInt64, (body.foldl (fun n e => n + UInt64.ofNat e.length) n).toNat =
      (n.toNat + (body.map ChunkEntry.length).sum) % 2 ^ 64 := by
    induction body with
    | nil => exact fun n => by simp [Nat.mod_eq_of_lt n.toNat_lt]
    | cons e body ih =>
      intro n
      rw [List.foldl_cons, ih, List.map_cons, List.sum_cons, UInt64.toNat_add,
        UInt64.toNat_ofNat']
      omega
  rw [totalLength, hfold]
  simp

/-- A line that is read as an entry: the address in either case, and a spelling of the length. -/
def LineSpells (l : Text) (e : ChunkEntry) : Prop :=
  ∃ h s, l = h ++ ' ' :: s ∧ h.map Char.toLower = e.hash.hex ∧ Spells s e.length ∧
    e.length < 2 ^ 64

theorem parseLine_eq_ok {i : Nat} {l : Text} {e : ChunkEntry} :
    parseLine W i l = .ok e ↔ LineSpells l e := by
  constructor
  · intro h
    unfold parseLine at h
    cases hsplit : splitOnce ' ' l with
    | none => simp only [hsplit] at h; cases h
    | some p =>
      obtain ⟨hashPart, lenPart⟩ := p
      simp only [hsplit] at h
      cases hhash : Hash.parse W.toPlatform hashPart with
      | error err => simp only [hhash] at h; cases h
      | ok hash =>
        simp only [hhash] at h
        cases hlen : parseUsize lenPart with
        | none => simp only [hlen] at h; cases h
        | some length =>
          simp only [hlen, Except.ok.injEq] at h
          subst h
          exact ⟨hashPart, lenPart, (splitOnce_eq_some hsplit).1, Hash.parse_eq_ok.1 hhash,
            parseUsize_eq_some.1 hlen⟩
  · rintro ⟨h, s, rfl, hhash, hlen⟩
    have hspace : ' ' ∉ h := by
      intro hmem
      have hlower := List.mem_map_of_mem (f := Char.toLower) hmem
      rw [hhash] at hlower
      exact Hash.not_mem_hex (c := ' '.toLower) (by decide) hlower
    rw [parseLine, splitOnce_append hspace]
    dsimp only
    rw [Hash.parse_eq_ok.2 hhash]
    dsimp only
    rw [parseUsize_eq_some.2 hlen]

/-- The lines of a text that are not empty. -/
def fullLines (s : Text) : List Text := (s.splitOn '\n').filter (· ≠ [])

theorem parseLines_eq_ok {i : Nat} {ls : List Text} {body : ChunksBody} :
    parseLines W i ls = .ok body ↔ List.Forall₂ LineSpells (ls.filter (· ≠ [])) body := by
  induction ls generalizing i body with
  | nil =>
    rw [parseLines, Except.ok.injEq, List.filter_nil, List.forall₂_nil_left_iff]
    exact eq_comm
  | cons l ls ih =>
    rw [parseLines]
    by_cases hl : l = []
    · rw [if_pos hl, ih, List.filter_cons_of_neg (by simpa using hl)]
    · rw [if_neg hl, List.filter_cons_of_pos (by simpa using hl), except_bind_eq_ok,
        List.forall₂_cons_left_iff]
      constructor
      · rintro ⟨e, he, h⟩
        obtain ⟨es, hes, h⟩ := except_bind_eq_ok.1 h
        cases h
        exact ⟨e, es, parseLine_eq_ok.1 he, ih.1 hes, rfl⟩
      · rintro ⟨e, es, he, hes, rfl⟩
        exact ⟨e, parseLine_eq_ok.2 he, except_bind_eq_ok.2 ⟨es, ih.2 hes, rfl⟩⟩

/-- **What is read as a chunk list**: lines that are read as its entries, with empty lines anywhere
between them. -/
theorem parse_eq_ok {b : Bytes} {body : ChunksBody} :
    parse W b = .ok body ↔
      ∃ s, b = utf8 s ∧ List.Forall₂ LineSpells (fullLines s) body := by
  rw [parse]
  cases hutf : fromUtf8 b with
  | none =>
    refine iff_of_false (by simp) ?_
    rintro ⟨s, rfl, -⟩
    rw [fromUtf8_utf8] at hutf
    cases hutf
  | some s =>
    obtain rfl := fromUtf8_eq_some.1 hutf
    refine parseLines_eq_ok.trans ⟨fun h => ⟨s, rfl, h⟩, ?_⟩
    rintro ⟨s', heq, h⟩
    exact utf8_injective heq ▸ h

/-- A line without capitals, plus signs and zeros before its number. -/
structure TidyLine (l : Text) : Prop where
  lower : l.map Char.toLower = l
  plus : '+' ∉ l
  zeros : ∀ h s, ' ' ∉ h → l = h ++ ' ' :: '0' :: s → s = []

/-- Tidy lines, and after them at most two empty ones, the last of which is what follows the final
line feed. -/
def TidyLines (s : Text) : Prop :=
  ∃ ls k, s.splitOn '\n' = ls ++ List.replicate k [] ∧ k ≤ 2 ∧ ∀ l ∈ ls, l ≠ [] ∧ TidyLine l

/-- Equal up to one line feed at the end. -/
def UpToFinalLf (b s : Bytes) : Prop := b = s ∨ b ++ [0x0A] = s ∨ b = s ++ [0x0A]

/-- The bytes are read as a chunk list exactly when they are the list as it is written, up to the
final line feed; and then the lengths add up. -/
structure OneList (W : World) (b : Bytes) : Prop where
  /-- What is accepted is written. -/
  accepts : (∃ body, parse W b = .ok body) ↔ ∃ body, Fits body ∧ UpToFinalLf b (serialize body)
  /-- What is returned is what was written. -/
  returns : ∀ body, Fits body → (parse W b = .ok body ↔ UpToFinalLf b (serialize body))
  /-- The total is the sum. -/
  total : ∀ body, parse W b = .ok body →
    (totalLength body).toNat = (body.map ChunkEntry.length).sum

theorem tidyLine_line (e : ChunkEntry) : TidyLine (line e) := by
  have hdigit : ∀ c ∈ decimal e.length, c.isDigit = true := fun c hc =>
    Nat.isDigit_of_mem_toDigits (by omega) (by omega) hc
  refine ⟨?_, fun hmem => ?_, fun h s hspace heq => ?_⟩
  · have hhex : e.hash.hex.map Char.toLower = e.hash.hex :=
      Hash.parse_eq_ok.1 (Hash.parse_hex demo e.hash)
    have hdec : (decimal e.length).map Char.toLower = decimal e.length :=
      (List.map_congr_left fun c hc => toLower_of_isDigit (hdigit c hc)).trans (List.map_id _)
    rw [line, List.map_append, List.map_cons, hhex, hdec]
    rfl
  · rcases List.mem_append.1 hmem with hmem | hmem
    · exact Hash.not_mem_hex (by decide) hmem
    · rcases List.mem_cons.1 hmem with hmem | hmem
      · cases hmem
      · exact absurd (hdigit _ hmem) (by decide)
  · have hsplit := splitOnce_append (c := ' ') (Hash.not_mem_hex (h := e.hash) (by decide))
      (decimal e.length)
    rw [show e.hash.hex ++ ' ' :: decimal e.length = h ++ ' ' :: '0' :: s from heq,
      splitOnce_append hspace, Option.some.injEq, Prod.mk.injEq] at hsplit
    exact eq_nil_of_decimal hsplit.2.symm

/-- A tidy line that is read as an entry is the line of the entry. -/
theorem LineSpells.eq_line {l : Text} {e : ChunkEntry} (h : LineSpells l e) (ht : TidyLine l) :
    l = line e := by
  obtain ⟨h, s, rfl, hhash, ⟨k, hs⟩, -⟩ := h
  obtain ⟨hlower, hplus, hzeros⟩ := ht
  have hspace : ' ' ∉ h := by
    intro hmem
    have hlow := List.mem_map_of_mem (f := Char.toLower) hmem
    rw [hhash] at hlow
    exact Hash.not_mem_hex (c := ' '.toLower) (by decide) hlow
  have hhex : h = e.hash.hex := by
    rw [List.map_append] at hlower
    rw [← hhash]
    exact (List.append_inj_left hlower (List.length_map _)).symm
  have hdec : s = decimal e.length := by
    rcases hs with rfl | rfl
    · cases k with
      | zero => rfl
      | succ k =>
        rw [List.replicate_succ, List.cons_append] at hzeros
        have hnil := hzeros h _ hspace rfl
        exact absurd (List.append_eq_nil_iff.1 hnil).2 Nat.toDigits_ne_nil
    · exact absurd (List.mem_append_right h (List.mem_cons_of_mem _ List.mem_cons_self)) hplus
  rw [hhex, hdec, line]

theorem lineSpells_line {e : ChunkEntry} (he : e.length < 2 ^ 64) : LineSpells (line e) e :=
  ⟨e.hash.hex, decimal e.length, rfl, Hash.parse_eq_ok.1 (Hash.parse_hex demo e.hash),
    spells_decimal _, he⟩

theorem splitOn_body (body : ChunksBody) :
    (body.flatMap fun e => line e ++ ['\n']).splitOn '\n' = body.map line ++ [[]] := by
  induction body with
  | nil => rfl
  | cons e body ih =>
    rw [List.flatMap_cons, List.append_assoc, List.singleton_append,
      splitOn_append_cons (lf_not_mem_line e), ih]
    rfl

theorem line_ne_nil (e : ChunkEntry) : line e ≠ [] :=
  List.append_ne_nil_of_right_ne_nil _ (List.cons_ne_nil _ _)

/-- Empty lines at the end do not count. -/
theorem fullLines_eq {s : Text} {ls : List Text} {k : Nat}
    (h : s.splitOn '\n' = ls ++ List.replicate k []) (hls : ∀ l ∈ ls, l ≠ []) :
    fullLines s = ls := by
  have hblank : (List.replicate k ([] : Text)).filter (· ≠ []) = [] :=
    List.filter_eq_nil_iff.2 fun l hl => by simp [List.eq_of_mem_replicate hl]
  have hfull : ls.filter (· ≠ []) = ls := List.filter_eq_self.2 fun l hl => by simpa using hls l hl
  rw [fullLines, h, List.filter_append, hblank, List.append_nil, hfull]

/-- The lines of a chunk list, with or without the final line feed or one more. -/
theorem upToFinalLf_iff {s : Text} {body : ChunksBody} :
    UpToFinalLf (utf8 s) (serialize body) ↔
      ∃ k ≤ 2, s.splitOn '\n' = body.map line ++ List.replicate k [] := by
  have hlf : ∀ t : Text, utf8 t ++ [0x0A] = utf8 (t ++ ['\n']) := fun t => by
    rw [utf8_append]
    rfl
  have hinj : ∀ t u : Text, t.splitOn '\n' = u.splitOn '\n' → t = u := fun t u h => by
    rw [← joinWith_splitOn '\n' t, h, joinWith_splitOn]
  have hsplit : ∀ t : Text, (t ++ ['\n']).splitOn '\n' = t.splitOn '\n' ++ [[]] := fun t => by
    rw [splitOn_append_sep]
    rfl
  have hbody := splitOn_body body
  have hser : serialize body = utf8 (body.flatMap fun e => line e ++ ['\n']) := rfl
  rw [UpToFinalLf, hser, hlf, hlf, utf8_injective.eq_iff, utf8_injective.eq_iff,
    utf8_injective.eq_iff]
  constructor
  · rintro (rfl | h | rfl)
    · exact ⟨1, by omega, hbody⟩
    · refine ⟨0, by omega, ?_⟩
      rw [← h, hsplit] at hbody
      rw [List.append_cancel_right hbody, List.replicate_zero, List.append_nil]
    · refine ⟨2, by omega, ?_⟩
      rw [hsplit, hbody, List.append_assoc]
      rfl
  · rintro ⟨k, hk, h⟩
    obtain rfl | rfl | rfl : k = 0 ∨ k = 1 ∨ k = 2 := by omega
    · refine .inr (.inl (hinj _ _ ?_))
      rw [hsplit, h, hbody, List.replicate_zero, List.append_nil]
    · exact .inl (hinj _ _ (h.trans hbody.symm))
    · refine .inr (.inr (hinj _ _ ?_))
      rw [hsplit, h, hbody, List.append_assoc]
      rfl

/-- Such lines are read. -/
theorem parse_of_upToFinalLf {b : Bytes} {body : ChunksBody} (hbody : Fits body)
    (h : UpToFinalLf b (serialize body)) : parse W b = .ok body := by
  obtain ⟨s, rfl⟩ : ∃ s, b = utf8 s := by
    have hser : serialize body = utf8 (body.flatMap fun e => line e ++ ['\n']) := rfl
    rcases h with rfl | h | rfl
    · exact ⟨_, hser⟩
    · rcases List.eq_nil_or_concat body with rfl | ⟨body, e, rfl⟩
      · simp [serialize] at h
      · refine ⟨(body.flatMap fun e => line e ++ ['\n']) ++ line e, ?_⟩
        rw [hser, List.concat_eq_append, List.flatMap_append, List.flatMap_singleton,
          ← List.append_assoc, utf8_append _ ['\n']] at h
        exact List.append_cancel_right h
    · exact ⟨_, by rw [hser, utf8_append _ ['\n']]; rfl⟩
  obtain ⟨k, -, hk⟩ := upToFinalLf_iff.1 h
  refine parse_eq_ok.2 ⟨s, rfl, ?_⟩
  have hlines : ∀ l ∈ body.map line, l ≠ [] := List.forall_mem_map.2 fun e _ => line_ne_nil e
  rw [fullLines_eq hk hlines, List.forall₂_map_left_iff, List.forall₂_same]
  exact fun e he => lineSpells_line (hbody e he)

/-- What is read fits. -/
theorem fits_of_parse {b : Bytes} {body : ChunksBody} (h : parse W b = .ok body) : Fits body := by
  obtain ⟨s, -, hall⟩ := parse_eq_ok.1 h
  refine forall_left_of_forall₂ hall.flip fun e l hl => ?_
  obtain ⟨-, -, -, -, -, hlt⟩ := hl
  exact hlt

/-- **When a chunk list has one spelling**: exactly when its lines are tidy, the empty ones at the
end, and its lengths add up to a number of the machine, or it is not read at all. -/
theorem chunks_one_spelling :
    (∀ body, Fits body → parse W (serialize body) = .ok body) ∧
      ∀ b, OneList W b ↔ ∀ s body, b = utf8 s → List.Forall₂ LineSpells (fullLines s) body →
        TidyLines s ∧ (body.map ChunkEntry.length).sum < 2 ^ 64 := by
  refine ⟨fun body h => parse_serialize W h, fun b => ⟨?_, fun hcond => ?_⟩⟩
  · rintro ⟨-, hreturns, htotal⟩ s body rfl hall
    have hparse := (parse_eq_ok (W := W)).2 ⟨s, rfl, hall⟩
    obtain ⟨k, hk, hsplit⟩ := upToFinalLf_iff.1 ((hreturns body (fits_of_parse hparse)).1 hparse)
    refine ⟨⟨body.map line, k, hsplit, hk, fun l hl => ?_⟩, ?_⟩
    · obtain ⟨e, -, rfl⟩ := List.mem_map.1 hl
      exact ⟨line_ne_nil e, tidyLine_line e⟩
    · rw [← htotal body hparse]
      exact (totalLength body).toNat_lt
  · -- what is read is read from its own lines
    have hspelled : ∀ body, parse W b = .ok body → UpToFinalLf b (serialize body) := by
      intro body hparse
      obtain ⟨s, rfl, hall⟩ := parse_eq_ok.1 hparse
      obtain ⟨⟨ls, k, hsplit, hk, htidy⟩, -⟩ := hcond s body rfl hall
      refine upToFinalLf_iff.2 ⟨k, hk, ?_⟩
      rw [fullLines_eq hsplit fun l hl => (htidy l hl).1] at hall
      have hlines : ls = body.map line := by
        clear hsplit hcond hparse
        induction hall with
        | nil => rfl
        | cons hl _ ih =>
          obtain ⟨⟨-, ht⟩, htidy⟩ := List.forall_mem_cons.1 htidy
          rw [List.map_cons, hl.eq_line ht, ih htidy]
      rw [hsplit, hlines]
    refine ⟨⟨?_, ?_⟩, fun body hbody => ⟨hspelled body, parse_of_upToFinalLf hbody⟩, ?_⟩
    · rintro ⟨body, hparse⟩
      exact ⟨body, fits_of_parse hparse, hspelled body hparse⟩
    · rintro ⟨body, hbody, hup⟩
      exact ⟨body, parse_of_upToFinalLf hbody hup⟩
    · intro body hparse
      obtain ⟨s, rfl, hall⟩ := parse_eq_ok.1 hparse
      rw [toNat_totalLength, Nat.mod_eq_of_lt (hcond s body rfl hall).2]

theorem chunks_one_spelling_demo :
    parse (demoWorld ⟨[], [], []⟩) (serialize [⟨demo.sha256 [], 5⟩]) =
        .ok [⟨demo.sha256 [], 5⟩] ∧
      OneList (demoWorld ⟨[], [], []⟩) (utf8 "x".toList) := by
  refine ⟨chunks_one_spelling.1 _ (List.forall_mem_singleton.2 (by decide)),
    (chunks_one_spelling.2 _).2 fun s body heq hall => ?_⟩
  -- a line without a space is not read
  obtain rfl := utf8_injective heq
  obtain ⟨e, -, ⟨h, t, hl, -⟩, -⟩ := List.forall₂_cons_left_iff.1
    (show List.Forall₂ LineSpells ["x".toList] body from hall)
  exact absurd (hl ▸ List.mem_append_right h List.mem_cons_self : ' ' ∈ "x".toList) (by decide)

/-- Empty lines are read over, not only after the last line feed. -/
theorem empty_lines_accepted : ¬ OneList (demoWorld ⟨[], [], []⟩) (utf8 "\n\n".toList) := by
  rintro ⟨-, hreturns, -⟩
  rcases (hreturns [] nofun).1 (by decide +kernel) with h | h | h
  · exact absurd h (by decide +kernel)
  · exact absurd h (by decide +kernel)
  · exact absurd h (by decide +kernel)

end ChunksBody

end Omp
