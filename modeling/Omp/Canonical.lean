import Mathlib.Data.List.Sort
import Omp.World

/-!
# Canonical TOML

`canonicalize` parses a text with `toml_edit` and writes the document from scratch: the entries
of every table in key order, one pair a line, no comments, floats always with a decimal point.
The addresses of manifests are taken over this form.

A document of values and of tables of values, the shape of a manifest, is read back from its
canonical form by the reader of `Omp.Lib.Toml`, with its entries in key order and its negative
zeros made positive (`read_emitTable`), unless a delete character is in it: that character is
written as it is, and no TOML text may hold it.

## Main definitions

* `quoteString`, `quoteKey`, `emitValue`, `emitTable`, `canonicalize` : the writer.
* `canonValue` : the value that is read back.

## Main results

* `written_emitValue` : a value is read back from its text.
* `read_emitTable`, `parse_emitTable` : a document is read back from its text.
-/

namespace Omp

open Lib Lib.Toml

variable (W : World)

/-! ### Strings and keys -/

/-- `\u` with `{:04X}` of a character below 32. -/
def controlEscape (c : Char) : Text :=
  ['u', '0', '0', if c.toNat < 16 then '0' else '1', (hexDigit (c.toNat % 16)).toUpper]

/-- What `quote_string` writes for one character. -/
def quoteChar (c : Char) : Text :=
  if c = '"' then ['\\', '"']
  else if c = '\\' then ['\\', '\\']
  else if c = '\n' then ['\\', 'n']
  else if c = '\r' then ['\\', 'r']
  else if c = '\t' then ['\\', 't']
  else if c = Char.ofNat 8 then ['\\', 'b']
  else if c = Char.ofNat 12 then ['\\', 'f']
  else if c.toNat < 0x20 then '\\' :: controlEscape c
  else [c]

/-- `quote_string`. -/
def quoteString (s : Text) : Text := '"' :: s.flatMap quoteChar ++ ['"']

/-- `quote_key` : bare where possible. -/
def quoteKey (k : Text) : Text := if k ≠ [] ∧ k.all isBare = true then k else quoteString k

/-! ### Values -/

/-- The order of entries with their keys. -/
def KeyLe {α : Type} (p q : Text × α) : Prop := (compare p.1 q.1).isLE = true

instance {α : Type} : DecidableRel (@KeyLe α) := fun _ _ => inferInstanceAs (Decidable (_ = _))

/-- Sort entries by their keys. -/
def sortKeys {α : Type} (es : List (Text × α)) : List (Text × α) := es.insertionSort KeyLe

/-- The pairs of entries, each of which may have failed to be written. -/
def emitPairs (es : List (Text × Except OmpError Text)) : Except OmpError (List Text) :=
  es.mapM fun p => p.2.map fun t => pairText (quoteKey p.1, t)

mutual
/-- `emit_value`. -/
def emitValue : Value → Except OmpError Text
  | .str s => .ok (quoteString s)
  | .int i => .ok (intText i.toInt)
  | .float x =>
    if x.isFinite then .ok (formatFloat W x)
    else .error (.schemaValidation
      ("non-finite float rejected by canonical TOML: ".toList ++ W.floatDebug x))
  | .bool b => .ok (if b then "true".toList else "false".toList)
  | .datetime s => .ok s
  | .array items => do
    let ts ← emitItems items
    .ok ('[' :: joinComma ts ++ [']'])
  | .inline entries => do
    let ts ← emitPairs (sortKeys (emitEntries entries))
    .ok ('{' :: joinComma ts ++ ['}'])
/-- The texts of the items of an array. -/
def emitItems : List Value → Except OmpError (List Text)
  | [] => .ok []
  | v :: vs => do
    let t ← emitValue v
    let ts ← emitItems vs
    .ok (t :: ts)
/-- The texts of the entries of an inline table, with their keys. -/
def emitEntries : List (Text × Value) → List (Text × Except OmpError Text)
  | [] => []
  | (k, v) :: es => (k, emitValue v) :: emitEntries es
end

/-! ### Tables -/

/-- What is written for the item under a key: the text of a value, or the blocks of the tables
it stands for, each with its header. -/
inductive Emitted where
  | inline (text : Except OmpError Text)
  | blocks (texts : Except OmpError (List Text))

namespace Emitted

/-- The text of a value. -/
def inline? : Text × Emitted → Option (Text × Except OmpError Text)
  | (k, inline t) => some (k, t)
  | (_, blocks _) => none

/-- The blocks of tables. -/
def blocks? : Text × Emitted → Option (Text × Except OmpError (List Text))
  | (_, inline _) => none
  | (k, blocks ts) => some (k, ts)

theorem fst_of_inline? (p : Text × Emitted) (q : Text × Except OmpError Text)
    (h : inline? p = some q) : q.1 = p.1 := by
  obtain ⟨k, _ | _⟩ := p <;> cases h
  rfl

theorem fst_of_blocks? (p : Text × Emitted) (q : Text × Except OmpError (List Text))
    (h : blocks? p = some q) : q.1 = p.1 := by
  obtain ⟨k, _ | _⟩ := p <;> cases h
  rfl

end Emitted

/-- The pairs and then the blocks of a table, in key order. -/
def emitBody (es : List (Text × Emitted)) : Except OmpError (List Text × List Text) := do
  let pairs ← emitPairs ((sortKeys es).filterMap Emitted.inline?)
  let blocks ← ((sortKeys es).filterMap Emitted.blocks?).mapM Prod.snd
  .ok (pairs, blocks.flatten)

/-- The header of a table; its keys are written as they are. -/
def header (path : List Text) : Text := '[' :: ['.'].intercalate path ++ [']']

/-- `emit_table`, once its items are written: the header is left out at the root and where
there are only subtables, and blocks are set apart by empty lines. -/
def finishTable (path : List Text) (es : List (Text × Emitted)) : Except OmpError Text := do
  let (pairs, blocks) ← emitBody es
  let hasInline := es.any fun p => (Emitted.inline? p).isSome
  let hasSubtables := es.any fun p => (Emitted.blocks? p).isSome
  let emittedHeader := path ≠ [] ∧ (hasInline ∨ ¬ hasSubtables)
  let head := if emittedHeader then unlines [header path] else []
  let body := if emittedHeader then blocks.flatMap ('\n' :: ·) else ['\n'].intercalate blocks
  .ok (head ++ unlines pairs ++ body)

/-- `emit_table_body`, once its items are written, under the header of an array of tables. -/
def finishTableBody (path : List Text) (es : List (Text × Emitted)) : Except OmpError Text := do
  let (pairs, blocks) ← emitBody es
  .ok (unlines ['[' :: header path ++ [']']] ++ unlines pairs ++ blocks.flatMap ('\n' :: ·))

mutual
/-- What is written for an item under its full path. -/
def emitItem (path : List Text) : Item → Emitted
  | .value v => .inline (emitValue W v)
  | .table es => .blocks (do
    let t ← finishTable path (emitItemEntries path es)
    .ok [t])
  | .tables ts => .blocks (emitTables path ts)
/-- The items of a table under its path. -/
def emitItemEntries (path : List Text) : List (Text × Item) → List (Text × Emitted)
  | [] => []
  | (k, i) :: es => (k, emitItem (path ++ [k]) i) :: emitItemEntries path es
/-- The tables of an array of tables. -/
def emitTables (path : List Text) : List (List (Text × Item)) → Except OmpError (List Text)
  | [] => .ok []
  | t :: ts => do
    let t ← finishTableBody path (emitItemEntries path t)
    let ts ← emitTables path ts
    .ok (t :: ts)
end

/-- `emit_table` at the root. -/
def emitTable (d : Doc) : Except OmpError Text := finishTable [] (emitItemEntries W [] d)

/-- `canonicalize`. -/
def canonicalize (input : Text) : Except OmpError Text :=
  match W.toml.parse input with
  | .error e => .error (.schemaValidation ("invalid TOML: ".toList ++ e))
  | .ok doc => emitTable W doc

/-! ### Reading strings and keys back -/

variable {W}

/-- The delete character, which TOML texts cannot hold and the writer does not escape. -/
def del : Char := Char.ofNat 0x7F

theorem char_lt_32 {p : Char → Prop} (h : ∀ n < 32, p (Char.ofNat n)) {c : Char}
    (hc : c.toNat < 32) : p c := by
  have := h c.toNat hc
  rwa [Char.ofNat_toNat] at this

theorem readString_quoteChar {c : Char} (hc : c ≠ del) (n : Nat) (t : Text) :
    readString (n + 1) (quoteChar c ++ t) = (readString n t).map fun x => (c :: x.1, x.2) := by
  unfold quoteChar
  split_ifs with h₁ h₂ h₃ h₄ h₅ h₆ h₇ h₈
  · exact h₁ ▸ readString_escape (e := ['"']) rfl n
  · exact h₂ ▸ readString_escape (e := ['\\']) rfl n
  · exact h₃ ▸ readString_escape (e := ['n']) rfl n
  · exact h₄ ▸ readString_escape (e := ['r']) rfl n
  · exact h₅ ▸ readString_escape (e := ['t']) rfl n
  · exact h₆ ▸ readString_escape (e := ['b']) rfl n
  · exact h₇ ▸ readString_escape (e := ['f']) rfl n
  · refine readString_escape (e := controlEscape c) ?_ n
    have hcode : unicodeEscape '0' '0' (if c.toNat < 16 then '0' else '1')
        (hexDigit (c.toNat % 16)).toUpper = some c :=
      char_lt_32 (p := fun c => unicodeEscape '0' '0' (if c.toNat < 16 then '0' else '1')
        (hexDigit (c.toNat % 16)).toUpper = some c) (by decide +kernel) h₈
    simp [controlEscape, readEscape, hcode]
  · refine readString_raw ?_ n t
    have hne : c.toNat ≠ 0x7F := fun h => hc (by rw [del, ← h, Char.ofNat_toNat])
    simp [isRaw, h₁, h₂, hne]
    omega

theorem one_le_length_quoteChar (c : Char) : 1 ≤ (quoteChar c).length := by
  unfold quoteChar
  split_ifs <;> simp

/-- **A quoted string is read back.** -/
theorem readString_quote {s : Text} (hs : del ∉ s) (n : Nat) (rest : Text)
    (hn : (s.flatMap quoteChar).length < n) :
    readString n (s.flatMap quoteChar ++ '"' :: rest) = some (s, rest) := by
  induction s generalizing n with
  | nil =>
    obtain ⟨n, rfl⟩ : ∃ m, n = m + 1 := ⟨n - 1, by omega⟩
    exact readString_close n rest
  | cons c s ih =>
    obtain ⟨n, rfl⟩ : ∃ m, n = m + 1 := ⟨n - 1, by omega⟩
    rw [List.mem_cons, not_or] at hs
    have hlen := one_le_length_quoteChar c
    rw [List.flatMap_cons, List.length_append] at hn
    rw [List.flatMap_cons, List.append_assoc, readString_quoteChar (Ne.symm hs.1),
      ih hs.2 n (by omega)]
    rfl

/-- Without line breaks. -/
def NoBreak (t : Text) : Prop := '\n' ∉ t ∧ '\r' ∉ t

theorem noBreak_quoteChar (c : Char) : NoBreak (quoteChar c) := by
  unfold quoteChar NoBreak
  split_ifs with h₁ h₂ h₃ h₄ h₅ h₆ h₇ h₈
  · simp
  · simp
  · simp
  · simp
  · simp
  · simp
  · simp
  · exact char_lt_32 (p := fun c => '\n' ∉ '\\' :: controlEscape c ∧
      '\r' ∉ '\\' :: controlEscape c) (by decide +kernel) h₈
  · simp [Ne.symm h₃, Ne.symm h₄]

theorem NoBreak.append {s t : Text} (hs : NoBreak s) (ht : NoBreak t) : NoBreak (s ++ t) :=
  ⟨by simp [hs.1, ht.1], by simp [hs.2, ht.2]⟩

theorem NoBreak.cons {c : Char} {t : Text} (hlf : c ≠ '\n') (hcr : c ≠ '\r') (ht : NoBreak t) :
    NoBreak (c :: t) :=
  ⟨by simp [Ne.symm hlf, ht.1], by simp [Ne.symm hcr, ht.2]⟩

theorem noBreak_quoteString (s : Text) : NoBreak (quoteString s) := by
  have hbody : NoBreak (s.flatMap quoteChar) := by
    refine ⟨fun h => ?_, fun h => ?_⟩
    · obtain ⟨c, -, hc⟩ := List.mem_flatMap.1 h
      exact (noBreak_quoteChar c).1 hc
    · obtain ⟨c, -, hc⟩ := List.mem_flatMap.1 h
      exact (noBreak_quoteChar c).2 hc
  exact (NoBreak.cons (by decide) (by decide) hbody).append ⟨by decide, by decide⟩

theorem noBreak_of_forall {p : Char → Bool} {t : Text} (ht : ∀ c ∈ t, p c = true)
    (hlf : p '\n' = false) (hcr : p '\r' = false) : NoBreak t := by
  constructor <;> intro h
  · rw [ht _ h] at hlf
    cases hlf
  · rw [ht _ h] at hcr
    cases hcr

theorem noBreak_of_token {t : Text} (ht : Token t) : NoBreak t :=
  noBreak_of_forall ht.2 (by decide) (by decide)

theorem keyReads_quoteKey {k : Text} (hk : del ∉ k) : KeyReads (quoteKey k) k := by
  intro n rest hn
  unfold quoteKey at hn ⊢
  split_ifs at hn ⊢ with hbare
  · have hall := List.all_eq_true.1 hbare.2
    obtain ⟨htake, hdrop⟩ := takeWhile_append (' ' :: rest) hall fun c hc => by
      obtain rfl : ' ' = c := by simpa using hc
      decide
    obtain ⟨c, k, rfl⟩ := List.exists_cons_of_ne_nil hbare.1
    have hne : c ≠ '"' := by
      rintro rfl
      have := hall '"' List.mem_cons_self
      cases this
    rw [List.cons_append] at htake hdrop ⊢
    rw [readKey, htake, hdrop, if_neg hbare.1]
    intro t' h'
    exact hne (List.cons.inj h').1
  · simp only [quoteString, List.cons_append, List.length_cons, List.length_append] at hn
    have := readString_quote hk n (' ' :: rest) (by omega)
    simpa [quoteString, readKey] using this

theorem noBreak_quoteKey (k : Text) : NoBreak (quoteKey k) := by
  unfold quoteKey
  split_ifs with hbare
  · exact noBreak_of_forall (List.all_eq_true.1 hbare.2) (by decide) (by decide)
  · exact noBreak_quoteString k

/-! ### Reading values back -/

mutual
/-- The value that is read back: inline tables in key order, zeros positive. -/
def canonValue : Value → Value
  | .float x => .float (if x.isZero then F64.zero else x)
  | .array items => .array (canonItems items)
  | .inline entries => .inline (sortKeys (canonEntries entries))
  | v => v
/-- The same for the items of an array. -/
def canonItems : List Value → List Value
  | [] => []
  | v :: vs => canonValue v :: canonItems vs
/-- The same for the entries of an inline table. -/
def canonEntries : List (Text × Value) → List (Text × Value)
  | [] => []
  | (k, v) :: es => (k, canonValue v) :: canonEntries es
end

/-- The conditions for reading a value back: no delete character, dates in the canonical form
and distinct keys. -/
def Readable (W : World) (v : Value) : Prop :=
  v.All (fun s => del ∉ s) (fun _ => True) (fun s => W.toml.datetime s = some s) List.Nodup

/-- A text that is read back as a value and stays on its line. -/
structure Written (W : World) (t : Text) (v : Value) : Prop where
  /-- It is read as the value. -/
  reads : ReadsAs W.toml.scalar t v
  /-- It has no line breaks. -/
  noBreak : NoBreak t

/-- Entries that are written so that the corresponding entries are read back. -/
def WrittenEntry (W : World) (p : Text × Except OmpError Text) (q : Text × Value) : Prop :=
  p.1 = q.1 ∧ del ∉ p.1 ∧ ∀ t, p.2 = .ok t → Written W t q.2

theorem forall₂_orderedInsert {α β : Type} {R : Text × α → Text × β → Prop}
    (hR : ∀ p q, R p q → p.1 = q.1) {p : Text × α} {q : Text × β} (hpq : R p q)
    {l : List (Text × α)} {m : List (Text × β)} (h : List.Forall₂ R l m) :
    List.Forall₂ R (l.orderedInsert KeyLe p) (m.orderedInsert KeyLe q) := by
  induction h with
  | nil => exact .cons hpq .nil
  | @cons a b l m hab hl ih =>
    have hle : KeyLe p a ↔ KeyLe q b := by
      simp only [KeyLe, hR p q hpq, hR a b hab]
    simp only [List.orderedInsert_cons]
    by_cases hpa : KeyLe p a
    · rw [if_pos hpa, if_pos (hle.1 hpa)]
      exact .cons hpq (.cons hab hl)
    · rw [if_neg hpa, if_neg (fun h => hpa (hle.2 h))]
      exact .cons hab ih

/-- Lists of entries with the same keys are sorted alike. -/
theorem forall₂_sortKeys {α β : Type} {R : Text × α → Text × β → Prop}
    (hR : ∀ p q, R p q → p.1 = q.1) {l : List (Text × α)} {m : List (Text × β)}
    (h : List.Forall₂ R l m) : List.Forall₂ R (sortKeys l) (sortKeys m) := by
  induction h with
  | nil => exact .nil
  | cons hab _ ih => exact forall₂_orderedInsert hR hab ih

theorem sortKeys_perm {α : Type} (es : List (Text × α)) : (sortKeys es).Perm es :=
  List.perm_insertionSort _ _

/-- Pairs are written so that they are read back. -/
theorem emitPairs_ok {ps : List (Text × Except OmpError Text)} {qs : List (Text × Value)}
    (h : List.Forall₂ (WrittenEntry W) ps qs) {ts : List Text} (hts : emitPairs ps = .ok ts) :
    ∃ xs : List (Text × Text), ts = xs.map pairText ∧
      List.Forall₂ (PairReads W.toml.scalar) xs qs ∧ ∀ x ∈ xs, NoBreak (pairText x) := by
  induction h generalizing ts with
  | nil =>
    rw [emitPairs, List.mapM_nil] at hts
    cases hts
    exact ⟨[], rfl, .nil, nofun⟩
  | @cons p q ps qs hpq hps ih =>
    obtain ⟨hkey, hdel, hwritten⟩ := hpq
    rw [emitPairs, List.mapM_cons] at hts
    cases hp : p.2 with
    | error e =>
      rw [hp] at hts
      cases hts
    | ok t =>
      cases hrest : emitPairs ps with
      | error e =>
        rw [hp, ← emitPairs, hrest] at hts
        cases hts
      | ok us =>
        rw [hp, ← emitPairs, hrest] at hts
        cases hts
        obtain ⟨xs, rfl, hxs, hbreak⟩ := ih hrest
        obtain ⟨hreads, hnb⟩ := hwritten t hp
        refine ⟨(quoteKey p.1, t) :: xs, rfl, .cons ⟨hkey ▸ keyReads_quoteKey hdel, hreads⟩ hxs,
          List.forall_mem_cons.2 ⟨?_, hbreak⟩⟩
        exact (noBreak_quoteKey p.1).append
          (.cons (by decide) (by decide) (.cons (by decide) (by decide)
            (.cons (by decide) (by decide) hnb)))

theorem noBreak_joinComma {ts : List Text} (h : ∀ t ∈ ts, NoBreak t) : NoBreak (joinComma ts) := by
  match ts, h with
  | [], _ => exact ⟨nofun, nofun⟩
  | [t], h => exact h t (List.mem_singleton_self t)
  | t :: u :: ts, h =>
    obtain ⟨ht, hts⟩ := List.forall_mem_cons.1 h
    exact ht.append (.cons (by decide) (by decide) (.cons (by decide) (by decide)
      (noBreak_joinComma hts)))

theorem map_fst_canonEntries (es : List (Text × Value)) :
    (canonEntries es).map Prod.fst = es.map Prod.fst := by
  induction es with
  | nil => rfl
  | cons p es ih => simp [canonEntries, ih]

theorem forall_left_of_forall₂ {α β : Type} {R : α → β → Prop} {p : α → Prop} {l : List α}
    {m : List β} (h : List.Forall₂ R l m) (hp : ∀ a b, R a b → p a) : ∀ a ∈ l, p a := by
  induction h with
  | nil => exact nofun
  | cons hab _ ih => exact List.forall_mem_cons.2 ⟨hp _ _ hab, ih⟩

theorem written_scalar {t : Text} {v : Value} (ht : Token t) (hv : W.toml.scalar t = some v) :
    Written W t v :=
  ⟨readsAs_scalar ht hv, noBreak_of_token ht⟩

mutual
/-- **A value is read back from its text.** -/
theorem written_emitValue (hW : W.ReadsScalars) : ∀ {v : Value} {t : Text}, Readable W v →
    emitValue W v = .ok t → Written W t (canonValue v)
  | .str s, t, hv, ht => by
    rw [emitValue, Except.ok.injEq] at ht
    subst ht
    exact ⟨readsAs_str fun n rest hn => readString_quote hv n rest hn, noBreak_quoteString s⟩
  | .int i, t, _, ht => by
    rw [emitValue, Except.ok.injEq] at ht
    exact ht ▸ written_scalar (token_intText _) (hW.int i)
  | .float x, t, _, ht => by
    rw [emitValue] at ht
    split_ifs at ht with hfin
    rw [Except.ok.injEq] at ht
    obtain ⟨htok, hread⟩ := hW.float hfin
    exact ht ▸ written_scalar htok hread
  | .bool b, t, _, ht => by
    rw [emitValue, Except.ok.injEq] at ht
    subst ht
    cases b
    · exact written_scalar ⟨by decide, List.all_eq_true.1 (by decide)⟩ hW.false_
    · exact written_scalar ⟨by decide, List.all_eq_true.1 (by decide)⟩ hW.true_
  | .datetime s, t, hv, ht => by
    rw [emitValue, Except.ok.injEq] at ht
    obtain ⟨htok, hread⟩ := hW.date hv
    exact ht ▸ written_scalar htok hread
  | .array items, t, hv, ht => by
    rw [emitValue] at ht
    cases hts : emitItems W items with
    | error e => rw [hts] at ht; cases ht
    | ok ts =>
      rw [hts] at ht
      cases ht
      have hall := written_emitItems hW hv hts
      refine ⟨readsAs_array (hall.imp fun _ _ h => h.reads), ?_⟩
      have hbreak : ∀ t ∈ ts, NoBreak t := forall_left_of_forall₂ hall fun _ _ h => h.noBreak
      exact (NoBreak.cons (by decide) (by decide) (noBreak_joinComma hbreak)).append
        ⟨by decide, by decide⟩
  | .inline entries, t, hv, ht => by
    rw [emitValue] at ht
    cases hts : emitPairs (sortKeys (emitEntries W entries)) with
    | error e => rw [hts] at ht; cases ht
    | ok ts =>
      rw [hts] at ht
      cases ht
      have hall := forall₂_sortKeys (fun _ _ h => h.1) (written_emitEntries hW hv.2)
      obtain ⟨xs, rfl, hxs, hbreak⟩ := emitPairs_ok hall hts
      have hkeys : ((sortKeys (canonEntries entries)).map Prod.fst).Nodup := by
        rw [((sortKeys_perm _).map Prod.fst).nodup_iff, map_fst_canonEntries]
        exact hv.1
      refine ⟨readsAs_inline hxs hkeys, ?_⟩
      refine (NoBreak.cons (by decide) (by decide) (noBreak_joinComma fun t ht => ?_)).append
        ⟨by decide, by decide⟩
      obtain ⟨x, hx, rfl⟩ := List.mem_map.1 ht
      exact hbreak x hx
/-- The same for the items of an array. -/
theorem written_emitItems (hW : W.ReadsScalars) : ∀ {vs : List Value} {ts : List Text},
    AllItems (fun s => del ∉ s) (fun _ => True) (fun s => W.toml.datetime s = some s)
      List.Nodup vs →
    emitItems W vs = .ok ts → List.Forall₂ (Written W) ts (canonItems vs)
  | [], ts, _, hts => by
    rw [emitItems, Except.ok.injEq] at hts
    exact hts ▸ .nil
  | v :: vs, ts, hvs, hts => by
    rw [emitItems] at hts
    cases hv : emitValue W v with
    | error e => rw [hv] at hts; cases hts
    | ok t =>
      cases hrest : emitItems W vs with
      | error e => rw [hv, hrest] at hts; cases hts
      | ok us =>
        rw [hv, hrest] at hts
        cases hts
        exact .cons (written_emitValue hW hvs.1 hv) (written_emitItems hW hvs.2 hrest)
/-- The same for the entries of an inline table. -/
theorem written_emitEntries (hW : W.ReadsScalars) : ∀ {es : List (Text × Value)},
    AllEntries (fun s => del ∉ s) (fun _ => True) (fun s => W.toml.datetime s = some s)
      List.Nodup es →
    List.Forall₂ (WrittenEntry W) (emitEntries W es) (canonEntries es)
  | [], _ => .nil
  | (_, _) :: _, hes =>
    .cons ⟨rfl, hes.1.1, fun _ ht => written_emitValue hW hes.1.2 ht⟩
      (written_emitEntries hW hes.2)
end

/-! ### Reading documents back -/

/-- The pairs of a table as they are read back. -/
def canonPairs (ps : List (Text × Value)) : List (Text × Value) := sortKeys (canonEntries ps)

/-- The conditions for reading the pairs of a table back. -/
def ReadablePairs (W : World) (ps : List (Text × Value)) : Prop :=
  AllEntries (fun s => del ∉ s) (fun _ => True) (fun s => W.toml.datetime s = some s)
    List.Nodup ps

theorem inline?_emitted (W : World) (path : List Text) (ps : List (Text × Value)) :
    emitItemEntries W path (ps.map fun p => (p.1, .value p.2)) =
      (emitEntries W ps).map fun p => (p.1, Emitted.inline p.2) := by
  induction ps with
  | nil => rfl
  | cons p ps ih => simp [emitItemEntries, emitEntries, emitItem, ih]

theorem map_sortKeys {α β : Type} (f : Text × α → β) (es : List (Text × α)) :
    sortKeys (es.map fun p => (p.1, f p)) = (sortKeys es).map fun p => (p.1, f p) :=
  (List.map_insertionSort KeyLe KeyLe (fun p => (p.1, f p)) es fun _ _ _ _ => Iff.rfl).symm

instance {α : Type} : Std.Total (@KeyLe α) where
  total p q := by
    by_cases h : (compare p.1 q.1).isLE = true
    · exact .inl h
    · exact .inr (by simp [KeyLe, Std.OrientedCmp.lt_of_not_isLE h])

instance {α : Type} : IsTrans (Text × α) KeyLe where
  trans _ _ _ h₁ h₂ := Std.TransOrd.isLE_trans h₁ h₂

/-- Entries with distinct keys have one sorted order. -/
theorem sortKeys_eq {α : Type} {es fs : List (Text × α)} (hperm : es.Perm fs)
    (hkeys : (es.map Prod.fst).Nodup) (hsorted : fs.Pairwise KeyLe) : sortKeys es = fs := by
  refine List.Perm.eq_of_pairwise (fun p q hp hq hpq hqp => ?_)
    (List.pairwise_insertionSort _ _) hsorted ((sortKeys_perm es).trans hperm)
  have hfst : p.1 = q.1 := Std.compare_eq_iff_eq.1 (Std.OrientedCmp.isLE_antisymm hpq hqp)
  exact List.inj_on_of_nodup_map hkeys ((sortKeys_perm es).mem_iff.1 hp)
    (hperm.mem_iff.2 hq) hfst

theorem map_fst_filterMap_sublist {α β : Type} {f : Text × α → Option (Text × β)}
    (hf : ∀ p q, f p = some q → q.1 = p.1) (es : List (Text × α)) :
    ((es.filterMap f).map Prod.fst).Sublist (es.map Prod.fst) := by
  induction es with
  | nil => exact .slnil
  | cons p es ih =>
    cases h : f p with
    | none => simpa [h] using ih.cons p.1
    | some q => simpa [h, hf p q h] using ih.cons_cons p.1

theorem filterMap_sortKeys {α β : Type} {f : Text × α → Option (Text × β)}
    (hf : ∀ p q, f p = some q → q.1 = p.1) {es : List (Text × α)}
    (hkeys : (es.map Prod.fst).Nodup) :
    (sortKeys es).filterMap f = sortKeys (es.filterMap f) := by
  refine (sortKeys_eq (((sortKeys_perm es).filterMap f).symm) ?_ ?_).symm
  · exact (map_fst_filterMap_sublist hf es).nodup hkeys
  · refine List.pairwise_filterMap.2 ((List.pairwise_insertionSort KeyLe es).imp ?_)
    intro p p' hle q hq q' hq'
    rwa [KeyLe, hf p q hq, hf p' q' hq']

/-- The lines of a block: the header of a table and its pairs. -/
def IsBlock (W : World) (L : List Text) (t : Text × List (Text × Value)) : Prop :=
  ∃ xs, L = ('[' :: t.1 ++ [']']) :: xs.map pairText ∧
    List.Forall₂ (PairReads W.toml.scalar) xs t.2 ∧ ∀ x ∈ xs, NoBreak (pairText x)

theorem filterMap_inline (es : List (Text × Except OmpError Text)) :
    (es.map fun p => (p.1, Emitted.inline p.2)).filterMap Emitted.inline? = es := by
  rw [List.filterMap_map]
  exact List.filterMap_some

theorem filterMap_blocks_inline (es : List (Text × Except OmpError Text)) :
    (es.map fun p => (p.1, Emitted.inline p.2)).filterMap Emitted.blocks? = [] := by
  rw [List.filterMap_map]
  exact List.filterMap_eq_nil_iff.2 fun _ _ => rfl

theorem filterMap_blocks {α : Type} (f : Text × α → Except OmpError (List Text))
    (es : List (Text × α)) :
    (es.map fun t => (t.1, Emitted.blocks (f t))).filterMap Emitted.blocks? =
      es.map fun t => (t.1, f t) := by
  rw [List.filterMap_map]
  exact congrFun (List.filterMap_eq_map (f := fun t => (t.1, f t))) es

theorem filterMap_inline_blocks {α : Type} (f : Text × α → Except OmpError (List Text))
    (es : List (Text × α)) :
    (es.map fun t => (t.1, Emitted.blocks (f t))).filterMap Emitted.inline? = [] := by
  rw [List.filterMap_map]
  exact List.filterMap_eq_nil_iff.2 fun _ _ => rfl

/-- The items of a table of values. -/
def valueItems (ps : List (Text × Value)) : List (Text × Item) :=
  ps.map fun p => (p.1, .value p.2)

/-- The text of a table of values. -/
theorem finishTable_eq_ok {k : Text} {ps : List (Text × Value)} {t : Text}
    (ht : finishTable [k] (emitItemEntries W [k] (valueItems ps)) = .ok t) :
    ∃ us, emitPairs (sortKeys (emitEntries W ps)) = .ok us ∧
      t = unlines (('[' :: k ++ [']']) :: us) := by
  rw [valueItems, inline?_emitted, finishTable, emitBody,
    map_sortKeys (fun p => Emitted.inline p.2), filterMap_inline, filterMap_blocks_inline] at ht
  cases hpairs : emitPairs (sortKeys (emitEntries W ps)) with
  | error e => rw [hpairs] at ht; cases ht
  | ok us =>
    have hsub : ((emitEntries W ps).map fun p => (p.1, Emitted.inline p.2)).any
        (fun p => (Emitted.blocks? p).isSome) = false := by
      simp [Emitted.blocks?]
    rw [hpairs] at ht
    simp [hsub, header, bind, Except.bind, pure, Except.pure] at ht
    exact ⟨us, rfl, by simp [← ht, unlines]⟩

/-- A table of values is written as a block. -/
theorem exists_block (hW : W.Lawful) {k : Text} {ps : List (Text × Value)}
    (hps : ReadablePairs W ps) {t : Text}
    (ht : finishTable [k] (emitItemEntries W [k] (valueItems ps)) = .ok t) :
    ∃ L, t = unlines L ∧ IsBlock W L (k, canonPairs ps) := by
  obtain ⟨us, hpairs, rfl⟩ := finishTable_eq_ok ht
  obtain ⟨xs, rfl, hxs, hbreak⟩ :=
    emitPairs_ok (forall₂_sortKeys (fun _ _ h => h.1) (written_emitEntries hW.readsScalars hps)) hpairs
  exact ⟨_, rfl, xs, rfl, hxs, hbreak⟩

theorem readLines_blocks {Ls : List (List Text)} {ts : List (Text × List (Text × Value))}
    (h : List.Forall₂ (IsBlock W) Ls ts)
    (hnames : ∀ t ∈ ts, t.1 ≠ [] ∧ ∀ c ∈ t.1, isBare c = true) :
    readLines W.toml.scalar (joinWith [] Ls) = some ([], ts) := by
  induction h with
  | nil => rfl
  | @cons L t Ls ts hL hrest ih =>
    obtain ⟨xs, rfl, hxs, -⟩ := hL
    obtain ⟨⟨hne, hbare⟩, hnames⟩ := List.forall_mem_cons.1 hnames
    have hread := ih hnames
    cases hrest with
    | nil =>
      have := readLines_pairs hxs (show readLines W.toml.scalar [] = some ([], []) from rfl)
      rw [joinWith_singleton, readLines_header hne hbare (by simpa using this)]
    | @cons L' t' Ls ts hL' hrest =>
      have := readLines_pairs hxs (readLines_blank.trans hread)
      rw [joinWith_cons_cons, List.cons_append, readLines_header hne hbare this]
      simp

theorem unlines_append (l m : List Text) : unlines (l ++ m) = unlines l ++ unlines m :=
  List.flatMap_append

theorem joinWith_unlines (Ls : List (List Text)) :
    joinWith '\n' (Ls.map unlines) = unlines (joinWith [] Ls) := by
  match Ls with
  | [] => rfl
  | [L] => simp
  | L :: M :: Ls =>
    have ih := joinWith_unlines (M :: Ls)
    rw [List.map_cons] at ih
    rw [List.map_cons, List.map_cons, joinWith_cons_cons, joinWith_cons_cons, ih, unlines_append]
    rfl

/-- The conditions for reading a document back. -/
structure ReadableDoc (W : World) (ps : List (Text × Value))
    (ts : List (Text × List (Text × Value))) : Prop where
  /-- The keys of the root table are distinct. -/
  keys : (ps.map Prod.fst ++ ts.map Prod.fst).Nodup
  /-- The keys of the tables are distinct. -/
  tableKeys : ∀ t ∈ ts, (t.2.map Prod.fst).Nodup
  /-- The values can be read back. -/
  pairs : ReadablePairs W ps
  /-- Those of the tables, too. -/
  tables : ∀ t ∈ ts, ReadablePairs W t.2
  /-- The tables have bare names. -/
  names : ∀ t ∈ ts, t.1 ≠ [] ∧ ∀ c ∈ t.1, isBare c = true

/-- The tables as they are read back. -/
def canonTables (ts : List (Text × List (Text × Value))) : List (Text × List (Text × Value)) :=
  (sortKeys ts).map fun t => (t.1, canonPairs t.2)

theorem map_fst_emitEntries (W : World) (es : List (Text × Value)) :
    (emitEntries W es).map Prod.fst = es.map Prod.fst := by
  induction es with
  | nil => rfl
  | cons p es ih => simp [emitEntries, ih]

/-- What is written for a table of values under a key of the root. -/
def emitFlatTable (W : World) (t : Text × List (Text × Value)) : Except OmpError (List Text) := do
  let x ← finishTable [t.1] (emitItemEntries W [t.1] (valueItems t.2))
  .ok [x]

theorem emitItemEntries_tables (W : World) (ts : List (Text × List (Text × Value))) :
    emitItemEntries W [] (ts.map fun t => (t.1, .table (valueItems t.2))) =
      ts.map fun t => (t.1, .blocks (emitFlatTable W t)) := by
  induction ts with
  | nil => rfl
  | cons t ts ih =>
    rw [List.map_cons, emitItemEntries, ih, emitItem]
    rfl

theorem emitItemEntries_append (W : World) (path : List Text) (es fs : List (Text × Item)) :
    emitItemEntries W path (es ++ fs) =
      emitItemEntries W path es ++ emitItemEntries W path fs := by
  induction es with
  | nil => rfl
  | cons p es ih => rw [List.cons_append, emitItemEntries, emitItemEntries, ih, List.cons_append]

/-- The blocks of tables of values. -/
theorem exists_blocks (hW : W.Lawful) {ts : List (Text × List (Text × Value))}
    (hts : ∀ t ∈ ts, ReadablePairs W t.2) {bs : List (List Text)}
    (hbs : ts.mapM (emitFlatTable W) = .ok bs) :
    ∃ Ls, bs.flatten = Ls.map unlines ∧
      List.Forall₂ (IsBlock W) Ls (ts.map fun t => (t.1, canonPairs t.2)) := by
  induction ts generalizing bs with
  | nil =>
    rw [List.mapM_nil] at hbs
    cases hbs
    exact ⟨[], rfl, .nil⟩
  | cons t ts ih =>
    obtain ⟨ht, hts⟩ := List.forall_mem_cons.1 hts
    rw [List.mapM_cons, emitFlatTable] at hbs
    cases hx : finishTable [t.1] (emitItemEntries W [t.1] (valueItems t.2)) with
    | error e => rw [hx] at hbs; cases hbs
    | ok x =>
      cases hrest : ts.mapM (emitFlatTable W) with
      | error e => rw [hx, hrest] at hbs; cases hbs
      | ok bs' =>
        rw [hx, hrest] at hbs
        cases hbs
        obtain ⟨L, rfl, hL⟩ := exists_block hW ht hx
        obtain ⟨Ls, heq, hLs⟩ := ih hts hrest
        exact ⟨L :: Ls, by simp [heq], .cons hL hLs⟩

theorem isLine_of_noBreak {l : Text} (h : NoBreak l) : IsLine l :=
  ⟨h.1, fun hlast => h.2 (List.mem_of_getLast? hlast)⟩

theorem isLine_of_block {Ls : List (List Text)} {ts : List (Text × List (Text × Value))}
    (h : List.Forall₂ (IsBlock W) Ls ts)
    (hnames : ∀ t ∈ ts, t.1 ≠ [] ∧ ∀ c ∈ t.1, isBare c = true) :
    ∀ l ∈ joinWith [] Ls, IsLine l := by
  induction h with
  | nil => exact nofun
  | @cons L t Ls ts hL hrest ih =>
    obtain ⟨⟨-, hbare⟩, hnames⟩ := List.forall_mem_cons.1 hnames
    obtain ⟨xs, rfl, -, hbreak⟩ := hL
    have hhead : NoBreak ('[' :: t.1 ++ [']']) :=
      (NoBreak.cons (by decide) (by decide) (noBreak_of_forall hbare (by decide)
        (by decide))).append ⟨by decide, by decide⟩
    have hblock : ∀ l ∈ ('[' :: t.1 ++ [']']) :: xs.map pairText, IsLine l := by
      refine List.forall_mem_cons.2 ⟨isLine_of_noBreak hhead, fun l hl => ?_⟩
      obtain ⟨x, hx, rfl⟩ := List.mem_map.1 hl
      exact isLine_of_noBreak (hbreak x hx)
    cases Ls with
    | nil => rwa [joinWith_singleton]
    | cons L' Ls =>
      rw [joinWith_cons_cons]
      refine List.forall_mem_append.2 ⟨hblock, List.forall_mem_cons.2 ⟨⟨nofun, nofun⟩, ih hnames⟩⟩

theorem map_fst_canonPairs_perm (ps : List (Text × Value)) :
    ((canonPairs ps).map Prod.fst).Perm (ps.map Prod.fst) := by
  have := (sortKeys_perm (canonEntries ps)).map Prod.fst
  rwa [map_fst_canonEntries] at this

theorem map_fst_canonTables_perm (ts : List (Text × List (Text × Value))) :
    ((canonTables ts).map Prod.fst).Perm (ts.map Prod.fst) := by
  rw [canonTables, List.map_map]
  exact (sortKeys_perm ts).map Prod.fst

/-- The text of a document of values and of tables of values. -/
theorem emitTable_eq_ok {ps : List (Text × Value)} {ts : List (Text × List (Text × Value))}
    (hkeys : (ps.map Prod.fst ++ ts.map Prod.fst).Nodup) {t : Text}
    (ht : emitTable W (.flat ps ts) = .ok t) :
    ∃ us bs, emitPairs (sortKeys (emitEntries W ps)) = .ok us ∧
      (sortKeys ts).mapM (emitFlatTable W) = .ok bs ∧
      t = unlines us ++ joinWith '\n' bs.flatten := by
  have hes : emitItemEntries W [] (Doc.flat ps ts) =
      (emitEntries W ps).map (fun p => (p.1, Emitted.inline p.2)) ++
        ts.map fun t => (t.1, .blocks (emitFlatTable W t)) := by
    rw [Doc.flat, emitItemEntries_append, inline?_emitted]
    exact congrArg _ (emitItemEntries_tables W ts)
  have hkeys : ((emitItemEntries W [] (Doc.flat ps ts)).map Prod.fst).Nodup := by
    rw [hes, List.map_append, List.map_map, List.map_map]
    exact map_fst_emitEntries W ps ▸ hkeys
  have hinline : (sortKeys (emitItemEntries W [] (Doc.flat ps ts))).filterMap Emitted.inline? =
      sortKeys (emitEntries W ps) := by
    rw [filterMap_sortKeys Emitted.fst_of_inline? hkeys, hes, List.filterMap_append,
      filterMap_inline, filterMap_inline_blocks, List.append_nil]
  have hblocks : (sortKeys (emitItemEntries W [] (Doc.flat ps ts))).filterMap Emitted.blocks? =
      (sortKeys ts).map fun t => (t.1, emitFlatTable W t) := by
    rw [filterMap_sortKeys Emitted.fst_of_blocks? hkeys, hes, List.filterMap_append,
      filterMap_blocks_inline, filterMap_blocks, List.nil_append, map_sortKeys]
  have hcomp : (Prod.snd ∘ fun t => (t.1, emitFlatTable W t)) = emitFlatTable W := rfl
  rw [emitTable, finishTable, emitBody, hinline, hblocks, List.mapM_map, hcomp] at ht
  cases hpairs : emitPairs (sortKeys (emitEntries W ps)) with
  | error e => rw [hpairs] at ht; cases ht
  | ok us =>
    cases hbs : (sortKeys ts).mapM (emitFlatTable W) with
    | error e =>
      rw [hpairs, hbs] at ht
      cases ht
    | ok bs =>
      rw [hpairs, hbs] at ht
      simp [bind, Except.bind] at ht
      exact ⟨us, bs, rfl, rfl, ht.symm⟩

/-- What is written for a document: the lines of its pairs, and then those of its tables. -/
theorem exists_parts (hW : W.Lawful) {ps : List (Text × Value)}
    {ts : List (Text × List (Text × Value))} (hdoc : ReadableDoc W ps ts) {t : Text}
    (ht : emitTable W (.flat ps ts) = .ok t) :
    ∃ xs Ls, t = unlines (xs.map pairText ++ joinWith [] Ls) ∧
      List.Forall₂ (PairReads W.toml.scalar) xs (canonPairs ps) ∧
      (∀ x ∈ xs, NoBreak (pairText x)) ∧ List.Forall₂ (IsBlock W) Ls (canonTables ts) := by
  obtain ⟨us, bs, hpairs, hbs, rfl⟩ := emitTable_eq_ok hdoc.keys ht
  obtain ⟨xs, rfl, hxs, hbreak⟩ := emitPairs_ok
    (forall₂_sortKeys (fun _ _ h => h.1) (written_emitEntries hW.readsScalars hdoc.pairs)) hpairs
  obtain ⟨Ls, heq, hLs⟩ := exists_blocks hW
    (fun t ht => hdoc.tables t ((sortKeys_perm ts).mem_iff.1 ht)) hbs
  refine ⟨xs, Ls, ?_, hxs, hbreak, hLs⟩
  rw [unlines_append, ← joinWith_unlines, ← heq]

/-- **A document is read back from its canonical form**, its keys in order. -/
theorem read_emitTable (hW : W.Lawful) {ps : List (Text × Value)}
    {ts : List (Text × List (Text × Value))} (hdoc : ReadableDoc W ps ts) {t : Text}
    (ht : emitTable W (.flat ps ts) = .ok t) :
    read W.toml.scalar t = some (.flat (canonPairs ps) (canonTables ts)) := by
  have hnames : ∀ t ∈ canonTables ts, t.1 ≠ [] ∧ ∀ c ∈ t.1, isBare c = true := fun t ht => by
    obtain ⟨u, hu, rfl⟩ := List.mem_map.1 ht
    exact hdoc.names u ((sortKeys_perm ts).mem_iff.1 hu)
  obtain ⟨xs, bs, rfl, hxs, hbreak, hbs⟩ := exists_parts hW hdoc ht
  have hread := readLines_pairs hxs (readLines_blocks hbs hnames)
  rw [List.append_nil] at hread
  refine read_unlines (List.forall_mem_append.2 ⟨fun l hl => ?_, isLine_of_block hbs hnames⟩)
    hread ?_ fun e he => ?_
  · obtain ⟨x, hx, rfl⟩ := List.mem_map.1 hl
    exact isLine_of_noBreak (hbreak x hx)
  · exact (((map_fst_canonPairs_perm ps).append (map_fst_canonTables_perm ts)).nodup_iff).2
      hdoc.keys
  · obtain ⟨u, hu, rfl⟩ := List.mem_map.1 he
    exact (map_fst_canonPairs_perm u.2).nodup_iff.2
      (hdoc.tableKeys u ((sortKeys_perm ts).mem_iff.1 hu))

/-! ### Canonical documents are accepted -/

theorem depthEntries_perm {l m : List (Text × Value)} (h : l.Perm m) :
    depthEntries l = depthEntries m := by
  induction h with
  | nil => rfl
  | cons p _ ih => simp [depthEntries, ih]
  | swap p q l => simp only [depthEntries]; omega
  | trans _ _ ih₁ ih₂ => exact ih₁.trans ih₂

mutual
/-- The value that is read back is nested no deeper. -/
theorem depth_canonValue : ∀ v : Value, (canonValue v).depth = v.depth
  | .str _ | .int _ | .float _ | .bool _ | .datetime _ => rfl
  | .array items => by
    rw [canonValue, Value.depth, Value.depth, depthItems_canonItems items]
  | .inline entries => by
    rw [canonValue, Value.depth, Value.depth, depthEntries_perm (sortKeys_perm _),
      depthEntries_canonEntries entries]
theorem depthItems_canonItems : ∀ vs : List Value, depthItems (canonItems vs) = depthItems vs
  | [] => rfl
  | v :: vs => by
    rw [canonItems, depthItems, depthItems, depth_canonValue v, depthItems_canonItems vs]
theorem depthEntries_canonEntries :
    ∀ es : List (Text × Value), depthEntries (canonEntries es) = depthEntries es
  | [] => rfl
  | (_, v) :: es => by
    rw [canonEntries, depthEntries, depthEntries, depth_canonValue v,
      depthEntries_canonEntries es]
end

theorem mem_canonEntries {es : List (Text × Value)} {x : Text × Value}
    (hx : x ∈ canonEntries es) : ∃ y ∈ es, x = (y.1, canonValue y.2) := by
  induction es with
  | nil => cases hx
  | cons p es ih =>
    rcases List.mem_cons.1 hx with rfl | hx
    · exact ⟨p, List.mem_cons_self, rfl⟩
    · obtain ⟨y, hy, rfl⟩ := ih hx
      exact ⟨y, List.mem_cons_of_mem _ hy, rfl⟩

theorem mem_canonPairs {ps : List (Text × Value)} {x : Text × Value} (hx : x ∈ canonPairs ps) :
    ∃ y ∈ ps, x = (y.1, canonValue y.2) :=
  mem_canonEntries ((sortKeys_perm _).mem_iff.1 hx)

theorem canonValue_mem_canonPairs {ps : List (Text × Value)} {k : Text} {v : Value}
    (h : (k, v) ∈ ps) : (k, canonValue v) ∈ canonPairs ps := by
  have hmem : (k, canonValue v) ∈ canonEntries ps := by
    induction ps with
    | nil => cases h
    | cons p ps ih =>
      rcases List.mem_cons.1 h with rfl | h
      · exact List.mem_cons_self
      · exact List.mem_cons_of_mem _ (ih h)
  exact (sortKeys_perm _).mem_iff.2 hmem

section Get

variable {ps : List (Text × Value)} {ts : List (Text × List (Text × Value))}

theorem nodup_keys_canon (hkeys : (ps.map Prod.fst ++ ts.map Prod.fst).Nodup) :
    ((Doc.flat (canonPairs ps) (canonTables ts)).map Prod.fst).Nodup := by
  rw [Doc.map_fst_flat]
  exact ((map_fst_canonPairs_perm ps).append (map_fst_canonTables_perm ts)).nodup_iff.2 hkeys

/-- A value of a document in the document that is read back. -/
theorem get_canonPairs (hkeys : (ps.map Prod.fst ++ ts.map Prod.fst).Nodup) {k : Text}
    {v : Value} (h : (k, v) ∈ ps) :
    (Doc.flat (canonPairs ps) (canonTables ts)).get k = some (.value (canonValue v)) :=
  Doc.get_of_mem (nodup_keys_canon hkeys) (List.mem_append_left _
    (List.mem_map_of_mem (f := fun p => (p.1, Item.value p.2)) (canonValue_mem_canonPairs h)))

/-- A table of a document in the document that is read back. -/
theorem get_canonTables (hkeys : (ps.map Prod.fst ++ ts.map Prod.fst).Nodup) {k : Text}
    {es : List (Text × Value)} (h : (k, es) ∈ ts) :
    (Doc.flat (canonPairs ps) (canonTables ts)).get k =
      some (.table (valueItems (canonPairs es))) :=
  Doc.get_of_mem (nodup_keys_canon hkeys) (List.mem_append_right _
    (List.mem_map_of_mem (f := fun t => (t.1, Item.table (valueItems t.2)))
      (List.mem_map_of_mem (f := fun t => (t.1, canonPairs t.2))
        ((sortKeys_perm ts).mem_iff.2 h))))

end Get

mutual
theorem distinctKeys_canonValue : ∀ {v : Value}, v.DistinctKeys → (canonValue v).DistinctKeys
  | .str _, _ | .int _, _ | .float _, _ | .bool _, _ | .datetime _, _ => trivial
  | .array _, h => distinctKeys_canonItems h
  | .inline _, h => by
    refine ⟨?_, allEntries_iff.2 fun p hp => ?_⟩
    · rw [((sortKeys_perm _).map Prod.fst).nodup_iff, map_fst_canonEntries]
      exact h.1
    · exact allEntries_iff.1 (distinctKeys_canonEntries h.2) p ((sortKeys_perm _).mem_iff.1 hp)
theorem distinctKeys_canonItems : ∀ {vs : List Value},
    AllItems (fun _ => True) (fun _ => True) (fun _ => True) List.Nodup vs →
      AllItems (fun _ => True) (fun _ => True) (fun _ => True) List.Nodup (canonItems vs)
  | [], _ => trivial
  | _ :: _, h => ⟨distinctKeys_canonValue h.1, distinctKeys_canonItems h.2⟩
theorem distinctKeys_canonEntries : ∀ {es : List (Text × Value)},
    AllEntries (fun _ => True) (fun _ => True) (fun _ => True) List.Nodup es →
      AllEntries (fun _ => True) (fun _ => True) (fun _ => True) List.Nodup (canonEntries es)
  | [], _ => trivial
  | _ :: _, h => ⟨⟨trivial, distinctKeys_canonValue h.1.2⟩, distinctKeys_canonEntries h.2⟩
end

/-- **The canonical form of a document is accepted**, and is the document with its keys in
order. -/
theorem parse_emitTable (hW : W.Lawful) {ps : List (Text × Value)}
    {ts : List (Text × List (Text × Value))} (hdoc : ReadableDoc W ps ts)
    (hvalues : FlatAll (fun v => v.DistinctKeys ∧ v.depth ≤ W.toml.nestingLimit) ps ts)
    {t : Text} (ht : emitTable W (.flat ps ts) = .ok t) (hdel : del ∉ t) :
    W.toml.parse t = .ok (.flat (canonPairs ps) (canonTables ts)) := by
  have hcanon : ∀ v : Value, v.DistinctKeys ∧ v.depth ≤ W.toml.nestingLimit →
      (canonValue v).DistinctKeys ∧ (canonValue v).depth ≤ W.toml.nestingLimit := fun v hv =>
    ⟨distinctKeys_canonValue hv.1, by rw [depth_canonValue]; exact hv.2⟩
  refine hW.toml.parse_read (read_emitTable hW hdoc ht) ⟨fun x hx => ?_, fun u hu x hx => ?_⟩ hdel
  · obtain ⟨y, hy, rfl⟩ := mem_canonPairs hx
    exact hcanon _ (hvalues.1 y hy)
  · obtain ⟨v, hv, rfl⟩ := List.mem_map.1 hu
    obtain ⟨y, hy, rfl⟩ := mem_canonPairs hx
    exact hcanon _ (hvalues.2 v ((sortKeys_perm ts).mem_iff.1 hv) y hy)

/-! ### The delete character -/

theorem del_mem_quoteString {s : Text} (h : del ∈ s) : del ∈ quoteString s := by
  have hraw : quoteChar del = [del] := by decide
  have hbody : del ∈ s.flatMap quoteChar := List.mem_flatMap.2 ⟨del, h, by simp [hraw]⟩
  simp [quoteString, hbody]

theorem del_mem_quoteKey {k : Text} (h : del ∈ k) : del ∈ quoteKey k := by
  unfold quoteKey
  split_ifs
  · exact h
  · exact del_mem_quoteString h

theorem subset_joinComma {ts : List Text} {t : Text} (ht : t ∈ ts) : t ⊆ joinComma ts := by
  match ts, ht with
  | [u], ht => exact List.mem_singleton.1 ht ▸ List.Subset.refl _
  | u :: v :: ts, ht =>
    rcases List.mem_cons.1 ht with rfl | ht
    · exact List.subset_append_left _ _
    · exact List.Subset.trans (subset_joinComma ht)
        (List.Subset.trans (List.subset_append_right [',', ' '] _) (List.subset_append_right u _))

/-- Without the delete character in texts and keys. -/
abbrev Plain (v : Value) : Prop :=
  v.All (fun s => del ∉ s) (fun _ => True) (fun _ => True) fun _ => True

/-- The same for entries. -/
abbrev PlainEntries (es : List (Text × Value)) : Prop :=
  AllEntries (fun s => del ∉ s) (fun _ => True) (fun _ => True) (fun _ => True) es

/-- The texts of pairs that were written are among what was written. -/
theorem mem_emitPairs {ps : List (Text × Except OmpError Text)} {us : List Text}
    (hus : emitPairs ps = .ok us) {p : Text × Except OmpError Text} (hp : p ∈ ps) :
    ∃ t, p.2 = .ok t ∧ pairText (quoteKey p.1, t) ∈ us := by
  obtain ⟨u, hu, hmem⟩ := exists_of_mapM hus hp
  cases ht : p.2 with
  | error e => rw [ht] at hu; cases hu
  | ok t =>
    rw [ht] at hu
    cases hu
    exact ⟨t, rfl, hmem⟩

mutual
/-- A delete character in a value is in its text. -/
theorem plain_of_emitValue : ∀ {v : Value} {t : Text}, emitValue W v = .ok t → del ∉ t → Plain v
  | .str s, t, ht, hdel => by
    rw [emitValue, Except.ok.injEq] at ht
    exact fun h => hdel (ht ▸ del_mem_quoteString h)
  | .int _, _, _, _ | .float _, _, _, _ | .bool _, _, _, _ | .datetime _, _, _, _ => trivial
  | .array items, t, ht, hdel => by
    rw [emitValue] at ht
    cases hts : emitItems W items with
    | error e => rw [hts] at ht; cases ht
    | ok ts =>
      rw [hts] at ht
      cases ht
      refine plain_of_emitItems hts fun u hu hmem => hdel ?_
      exact List.mem_append_left _ (List.mem_cons_of_mem _ (subset_joinComma hu hmem))
  | .inline entries, t, ht, hdel => by
    rw [emitValue] at ht
    cases hts : emitPairs (sortKeys (emitEntries W entries)) with
    | error e => rw [hts] at ht; cases ht
    | ok ts =>
      rw [hts] at ht
      cases ht
      refine ⟨trivial, plain_of_emitEntries fun p hp => ?_⟩
      obtain ⟨u, hu, hmem⟩ := mem_emitPairs hts ((sortKeys_perm _).mem_iff.2 hp)
      refine ⟨u, hu, fun h => hdel ?_⟩
      exact List.mem_append_left _ (List.mem_cons_of_mem _ (subset_joinComma hmem h))
theorem plain_of_emitItems : ∀ {vs : List Value} {ts : List Text}, emitItems W vs = .ok ts →
    (∀ t ∈ ts, del ∉ t) →
    AllItems (fun s => del ∉ s) (fun _ => True) (fun _ => True) (fun _ => True) vs
  | [], _, _, _ => trivial
  | v :: vs, ts, hts, hdel => by
    rw [emitItems] at hts
    cases hv : emitValue W v with
    | error e => rw [hv] at hts; cases hts
    | ok t =>
      cases hrest : emitItems W vs with
      | error e => rw [hv, hrest] at hts; cases hts
      | ok us =>
        rw [hv, hrest] at hts
        cases hts
        obtain ⟨ht, hus⟩ := List.forall_mem_cons.1 hdel
        exact ⟨plain_of_emitValue hv ht, plain_of_emitItems hrest hus⟩
theorem plain_of_emitEntries : ∀ {es : List (Text × Value)},
    (∀ p ∈ emitEntries W es, ∃ t, p.2 = .ok t ∧ del ∉ pairText (quoteKey p.1, t)) →
    PlainEntries es
  | [], _ => trivial
  | (k, v) :: es, h => by
    rw [emitEntries] at h
    obtain ⟨⟨t, ht, hdel⟩, hes⟩ := List.forall_mem_cons.1 h
    have hkey : del ∉ k := fun hk => hdel (List.mem_append_left _ (del_mem_quoteKey hk))
    have htext : del ∉ t := fun hmem =>
      hdel (List.mem_append_right _ (List.subset_append_right [' ', '=', ' '] t hmem))
    exact ⟨⟨hkey, plain_of_emitValue ht htext⟩, plain_of_emitEntries hes⟩
end

theorem del_not_mem_quoteString {s : Text} (h : del ∉ s) : del ∉ quoteString s := by
  have hraw : ∀ c, c ≠ del → del ∉ quoteChar c := by
    intro c hc
    unfold quoteChar
    split_ifs with h₁ h₂ h₃ h₄ h₅ h₆ h₇ h₈
    · decide
    · decide
    · decide
    · decide
    · decide
    · decide
    · decide
    · exact char_lt_32 (p := fun c => del ∉ '\\' :: controlEscape c) (by decide +kernel) h₈
    · exact fun hmem => hc (List.mem_singleton.1 hmem).symm
  have hbody : del ∉ s.flatMap quoteChar := by
    intro hmem
    obtain ⟨c, hc, hdel⟩ := List.mem_flatMap.1 hmem
    exact hraw c (fun heq => h (heq ▸ hc)) hdel
  have hquote : del ≠ '"' := by decide
  simp [quoteString, hbody, hquote]

theorem del_not_mem_quoteKey {k : Text} (h : del ∉ k) : del ∉ quoteKey k := by
  unfold quoteKey
  split_ifs
  · exact h
  · exact del_not_mem_quoteString h

theorem del_not_mem_of_token {t : Text} (h : Token t) : del ∉ t := by
  intro hmem
  have htok := h.2 _ hmem
  cases htok

theorem del_not_mem_joinComma {ts : List Text} (h : ∀ t ∈ ts, del ∉ t) : del ∉ joinComma ts := by
  match ts, h with
  | [], _ => exact List.not_mem_nil
  | [t], h => exact h t (List.mem_singleton_self t)
  | t :: u :: ts, h =>
    obtain ⟨ht, hts⟩ := List.forall_mem_cons.1 h
    have hrest := del_not_mem_joinComma hts
    have hsep : del ∉ [',', ' '] := by decide
    intro hmem
    rcases List.mem_append.1 hmem with hmem | hmem
    · exact ht hmem
    · rcases List.mem_append.1 (show del ∈ [',', ' '] ++ joinComma (u :: ts) from hmem) with
        hmem | hmem
      · exact hsep hmem
      · exact hrest hmem

theorem del_not_mem_bracket {c d : Char} {t : Text} (hc : del ≠ c) (hd : del ≠ d)
    (h : del ∉ t) : del ∉ c :: t ++ [d] := by
  simp [hc, hd, h]

theorem del_not_mem_pairText {k t : Text} (hk : del ∉ k) (ht : del ∉ t) :
    del ∉ pairText (quoteKey k, t) := by
  have hsep : del ∉ [' ', '=', ' '] := by decide
  intro hmem
  rcases List.mem_append.1 hmem with hmem | hmem
  · exact del_not_mem_quoteKey hk hmem
  · rcases List.mem_append.1 (show del ∈ [' ', '=', ' '] ++ t from hmem) with hmem | hmem
    · exact hsep hmem
    · exact ht hmem

theorem del_not_mem_emitPairs {ps : List (Text × Except OmpError Text)} {us : List Text}
    (hus : emitPairs ps = .ok us)
    (h : ∀ p ∈ ps, del ∉ p.1 ∧ ∀ t, p.2 = .ok t → del ∉ t) : ∀ u ∈ us, del ∉ u := by
  intro u hu
  obtain ⟨p, hp, hpu⟩ := exists_mem_of_mapM hus hu
  obtain ⟨hkey, htext⟩ := h p hp
  cases ht : p.2 with
  | error e =>
    rw [ht] at hpu
    cases hpu
  | ok t =>
    rw [ht] at hpu
    cases hpu
    exact del_not_mem_pairText hkey (htext t ht)

/-- Without the delete character, and with what a writer needs. -/
abbrev Clean (W : World) (v : Value) : Prop :=
  v.All (fun s => del ∉ s) (fun x => x.isFinite = true) (fun s => W.toml.datetime s = some s)
    fun _ => True

/-- The same for entries. -/
abbrev CleanEntries (W : World) (es : List (Text × Value)) : Prop :=
  AllEntries (fun s => del ∉ s) (fun x => x.isFinite = true)
    (fun s => W.toml.datetime s = some s) (fun _ => True) es

mutual
/-- A value without a delete character is written without one. -/
theorem del_not_mem_emitValue (hW : W.Lawful) : ∀ {v : Value} {t : Text}, Clean W v →
    emitValue W v = .ok t → del ∉ t
  | .str s, t, hv, ht => by
    rw [emitValue, Except.ok.injEq] at ht
    exact ht ▸ del_not_mem_quoteString hv
  | .int i, t, _, ht => by
    rw [emitValue, Except.ok.injEq] at ht
    exact ht ▸ del_not_mem_of_token (token_intText _)
  | .float x, t, hv, ht => by
    have hfin : x.isFinite = true := hv
    rw [emitValue, if_pos hfin, Except.ok.injEq] at ht
    exact ht ▸ del_not_mem_of_token (hW.scalar_float hfin).1
  | .bool b, t, _, ht => by
    rw [emitValue, Except.ok.injEq] at ht
    cases b
    · exact ht ▸ by decide
    · exact ht ▸ by decide
  | .datetime s, t, hv, ht => by
    rw [emitValue, Except.ok.injEq] at ht
    exact ht ▸ del_not_mem_of_token (hW.toml.scalar_datetime hv).1
  | .array items, t, hv, ht => by
    rw [emitValue, except_bind_eq_ok] at ht
    obtain ⟨ts, hts, ht⟩ := ht
    cases ht
    exact del_not_mem_bracket (by decide) (by decide)
      (del_not_mem_joinComma (del_not_mem_emitItems hW hv hts))
  | .inline entries, t, hv, ht => by
    rw [emitValue, except_bind_eq_ok] at ht
    obtain ⟨ts, hts, ht⟩ := ht
    cases ht
    refine del_not_mem_bracket (by decide) (by decide)
      (del_not_mem_joinComma (del_not_mem_emitPairs hts fun p hp => ?_))
    exact del_not_mem_emitEntries hW hv.2 p ((sortKeys_perm _).mem_iff.1 hp)
theorem del_not_mem_emitItems (hW : W.Lawful) : ∀ {vs : List Value} {ts : List Text},
    AllItems (fun s => del ∉ s) (fun x => x.isFinite = true)
      (fun s => W.toml.datetime s = some s) (fun _ => True) vs →
    emitItems W vs = .ok ts → ∀ t ∈ ts, del ∉ t
  | [], ts, _, hts => by
    rw [emitItems, Except.ok.injEq] at hts
    exact hts ▸ nofun
  | v :: vs, ts, hvs, hts => by
    rw [emitItems, except_bind_eq_ok] at hts
    obtain ⟨t, ht, hts⟩ := hts
    obtain ⟨us, hus, hts⟩ := except_bind_eq_ok.1 hts
    cases hts
    exact List.forall_mem_cons.2
      ⟨del_not_mem_emitValue hW hvs.1 ht, del_not_mem_emitItems hW hvs.2 hus⟩
theorem del_not_mem_emitEntries (hW : W.Lawful) : ∀ {es : List (Text × Value)},
    CleanEntries W es → ∀ p ∈ emitEntries W es, del ∉ p.1 ∧ ∀ t, p.2 = .ok t → del ∉ t
  | [], _ => nofun
  | (k, v) :: es, hes => by
    rw [emitEntries]
    exact List.forall_mem_cons.2 ⟨⟨hes.1.1, fun t ht => del_not_mem_emitValue hW hes.1.2 ht⟩,
      del_not_mem_emitEntries hW hes.2⟩
end

theorem subset_unlines {ls : List Text} {l : Text} (hl : l ∈ ls) : l ⊆ unlines ls :=
  fun _ hc => List.mem_flatMap.2 ⟨l, hl, List.mem_append_left _ hc⟩

theorem subset_joinWith {α : Type} {c : α} {ps : List (List α)} {p : List α} (hp : p ∈ ps) :
    p ⊆ joinWith c ps := by
  match ps, hp with
  | [q], hp =>
    rw [joinWith_singleton]
    exact List.mem_singleton.1 hp ▸ List.Subset.refl _
  | q :: r :: ps, hp =>
    rw [joinWith_cons_cons]
    rcases List.mem_cons.1 hp with rfl | hp
    · exact List.subset_append_left _ _
    · exact List.Subset.trans (subset_joinWith hp)
        (List.Subset.trans (List.subset_cons_self _ _) (List.subset_append_right q _))

theorem plainEntries_of_emitPairs {ps : List (Text × Value)} {us : List Text}
    (hus : emitPairs (sortKeys (emitEntries W ps)) = .ok us) (hdel : ∀ u ∈ us, del ∉ u) :
    PlainEntries ps := by
  refine plain_of_emitEntries (W := W) fun p hp => ?_
  obtain ⟨t, ht, hmem⟩ := mem_emitPairs hus ((sortKeys_perm _).mem_iff.2 hp)
  exact ⟨t, ht, hdel _ hmem⟩

/-- **A delete character in a document is in its text.** -/
theorem plain_of_emitTable {ps : List (Text × Value)} {ts : List (Text × List (Text × Value))}
    (hkeys : (ps.map Prod.fst ++ ts.map Prod.fst).Nodup) {t : Text}
    (ht : emitTable W (.flat ps ts) = .ok t) (hdel : del ∉ t) :
    PlainEntries ps ∧ ∀ u ∈ ts, PlainEntries u.2 := by
  obtain ⟨us, bs, hpairs, hbs, rfl⟩ := emitTable_eq_ok hkeys ht
  rw [List.mem_append, not_or] at hdel
  refine ⟨plainEntries_of_emitPairs hpairs fun u hu h => hdel.1 (subset_unlines hu h),
    fun u hu => ?_⟩
  obtain ⟨b, hb, hmem⟩ := exists_of_mapM hbs ((sortKeys_perm ts).mem_iff.2 hu)
  rw [emitFlatTable] at hb
  cases hx : finishTable [u.1] (emitItemEntries W [u.1] (valueItems u.2)) with
  | error e => rw [hx] at hb; cases hb
  | ok x =>
    rw [hx] at hb
    cases hb
    obtain ⟨vs, hvs, rfl⟩ := finishTable_eq_ok hx
    refine plainEntries_of_emitPairs hvs fun v hv h => hdel.2 ?_
    exact subset_joinWith (List.mem_flatten_of_mem hmem (List.mem_singleton_self _))
      (subset_unlines (List.mem_cons_of_mem _ hv) h)

theorem del_not_mem_unlines {ls : List Text} (h : ∀ l ∈ ls, del ∉ l) : del ∉ unlines ls := by
  intro hmem
  obtain ⟨l, hl, hdel⟩ := List.mem_flatMap.1 hmem
  rcases List.mem_append.1 hdel with hdel | hdel
  · exact h l hl hdel
  · exact absurd hdel (by decide)

theorem del_not_mem_joinWith {c : Char} (hc : del ≠ c) {ps : List Text}
    (h : ∀ p ∈ ps, del ∉ p) : del ∉ joinWith c ps := by
  match ps, h with
  | [], _ => exact List.not_mem_nil
  | [p], h =>
    rw [joinWith_singleton]
    exact h p (List.mem_singleton_self p)
  | p :: q :: ps, h =>
    obtain ⟨hp, hps⟩ := List.forall_mem_cons.1 h
    have hrest := del_not_mem_joinWith hc hps
    rw [joinWith_cons_cons]
    simp [hp, hc, hrest]

theorem CleanEntries.del_not_mem (hW : W.Lawful) {ps : List (Text × Value)}
    (hps : CleanEntries W ps) {us : List Text}
    (hus : emitPairs (sortKeys (emitEntries W ps)) = .ok us) : ∀ u ∈ us, del ∉ u :=
  del_not_mem_emitPairs hus fun p hp =>
    del_not_mem_emitEntries hW hps p ((sortKeys_perm _).mem_iff.1 hp)

/-- **A document without a delete character is written without one.** -/
theorem del_not_mem_emitTable (hW : W.Lawful) {ps : List (Text × Value)}
    {ts : List (Text × List (Text × Value))} (hkeys : (ps.map Prod.fst ++ ts.map Prod.fst).Nodup)
    (hps : CleanEntries W ps) (hts : ∀ u ∈ ts, del ∉ u.1 ∧ CleanEntries W u.2) {t : Text}
    (ht : emitTable W (.flat ps ts) = .ok t) : del ∉ t := by
  obtain ⟨us, bs, hpairs, hbs, rfl⟩ := emitTable_eq_ok hkeys ht
  have hblocks : ∀ x ∈ bs.flatten, del ∉ x := by
    intro x hx
    obtain ⟨b, hb, hxb⟩ := List.mem_flatten.1 hx
    obtain ⟨u, hu, hblock⟩ := exists_mem_of_mapM hbs hb
    obtain ⟨hname, hentries⟩ := hts u ((sortKeys_perm ts).mem_iff.1 hu)
    rw [emitFlatTable, except_bind_eq_ok] at hblock
    obtain ⟨y, hy, hblock⟩ := hblock
    cases hblock
    obtain rfl := List.mem_singleton.1 hxb
    obtain ⟨vs, hvs, rfl⟩ := finishTable_eq_ok hy
    exact del_not_mem_unlines (List.forall_mem_cons.2
      ⟨del_not_mem_bracket (by decide) (by decide) hname, hentries.del_not_mem hW hvs⟩)
  intro hmem
  rcases List.mem_append.1 hmem with hmem | hmem
  · exact del_not_mem_unlines (hps.del_not_mem hW hpairs) hmem
  · exact del_not_mem_joinWith (by decide) hblocks hmem

end Omp
