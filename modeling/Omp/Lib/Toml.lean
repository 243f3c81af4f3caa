import Omp.Lib.F64
import Omp.Lib.Text

/-!
# TOML documents and their canonical texts

TOML values and documents, and a reader for the part of the language a canonical writer needs:
one `key = value` pair a line, headers of tables one level below the root, basic strings, and
unquoted scalars, whose texts are left to a parameter.  What the reader accepts, it reads as
the language defines it; comments, other quotations, dotted keys and values over several lines
it does not accept.

A TOML library is a parser and a printer.  `Library.Lawful` says what may be relied on: the
parser reads the texts of the fragment as the reader does, up to its limit on nesting, and
reads back what was printed.

## Main definitions

* `Value`, `Item`, `Doc` : values, items and documents.
* `readValue`, `read` : the reader.
* `Library`, `Library.Lawful` : a TOML library.

## Main results

* `readItems_join`, `readPairs_join` : lists and inline tables are read from their parts.
* `read_lines` : a document is read from its lines.
-/

namespace Lib.Toml

/-! ### Documents -/

/-- A TOML value.  A date or time is its canonical text. -/
inductive Value where
  | str (s : Text)
  | int (i : Int64)
  | float (x : F64)
  | bool (b : Bool)
  | datetime (s : Text)
  | array (items : List Value)
  | inline (entries : List (Text × Value))

/-- What stands under a key of a table. -/
inductive Item where
  | value (v : Value)
  | table (entries : List (Text × Item))
  | tables (items : List (List (Text × Item)))

/-- A document: the entries of the root table, in order. -/
abbrev Doc := List (Text × Item)

/-- The item under a key. -/
def Doc.get (d : Doc) (key : Text) : Option Item := (d.find? fun p => p.1 = key).map Prod.snd

/-- A document of values followed by tables of values. -/
def Doc.flat (pairs : List (Text × Value)) (tables : List (Text × List (Text × Value))) : Doc :=
  pairs.map (fun p => (p.1, .value p.2)) ++
    tables.map fun t => (t.1, .table (t.2.map fun p => (p.1, .value p.2)))

theorem Doc.get_of_mem {d : Doc} (h : (d.map Prod.fst).Nodup) {key : Text} {i : Item}
    (hi : (key, i) ∈ d) : d.get key = some i := by
  induction d with
  | nil => cases hi
  | cons p d ih =>
    rw [List.map_cons, List.nodup_cons] at h
    rw [Doc.get, List.find?_cons]
    rcases List.mem_cons.1 hi with rfl | hi
    · simp
    · have hne : p.1 ≠ key := fun heq => h.1 (heq ▸ List.mem_map_of_mem hi)
      simpa [hne, Doc.get] using ih h.2 hi

theorem Doc.map_fst_flat (pairs : List (Text × Value)) (tables : List (Text × List (Text × Value))) :
    (Doc.flat pairs tables).map Prod.fst = pairs.map Prod.fst ++ tables.map Prod.fst := by
  rw [Doc.flat, List.map_append, List.map_map, List.map_map]
  rfl

section Properties

mutual
/-- How deep arrays and inline tables are nested. -/
def Value.depth : Value → Nat
  | .array items => depthItems items + 1
  | .inline entries => depthEntries entries + 1
  | _ => 0
/-- The depth of the items of an array. -/
def depthItems : List Value → Nat
  | [] => 0
  | v :: vs => max v.depth (depthItems vs)
/-- The depth of the entries of an inline table. -/
def depthEntries : List (Text × Value) → Nat
  | [] => 0
  | (_, v) :: es => max v.depth (depthEntries es)
end

variable (str : Text → Prop) (float : F64 → Prop) (date : Text → Prop) (keys : List Text → Prop)

mutual
/-- Conditions on the texts, floats and dates in a value, keys being texts, and on the key lists
of its inline tables. -/
def Value.All : Value → Prop
  | .str s => str s
  | .float x => float x
  | .datetime s => date s
  | .array items => AllItems items
  | .inline entries => keys (entries.map Prod.fst) ∧ AllEntries entries
  | _ => True
/-- The conditions for the items of an array. -/
def AllItems : List Value → Prop
  | [] => True
  | v :: vs => v.All ∧ AllItems vs
/-- The conditions for the entries of an inline table. -/
def AllEntries : List (Text × Value) → Prop
  | [] => True
  | (k, v) :: es => (str k ∧ v.All) ∧ AllEntries es
end

end Properties

section Combine

variable {str str' str'' : Text → Prop} {float float' float'' : F64 → Prop}
  {date date' date'' : Text → Prop} {keys keys' keys'' : List Text → Prop}

mutual
/-- Two sets of conditions give a third where they do on texts, floats, dates and keys. -/
theorem Value.All.combine (hs : ∀ s, str s → str' s → str'' s)
    (hf : ∀ x, float x → float' x → float'' x) (hd : ∀ s, date s → date' s → date'' s)
    (hk : ∀ ks, keys ks → keys' ks → keys'' ks) :
    ∀ {v : Value}, v.All str float date keys → v.All str' float' date' keys' →
      v.All str'' float'' date'' keys''
  | .str _, h, h' => hs _ h h'
  | .int _, _, _ | .bool _, _, _ => trivial
  | .float _, h, h' => hf _ h h'
  | .datetime _, h, h' => hd _ h h'
  | .array _, h, h' => AllItems.combine hs hf hd hk h h'
  | .inline _, h, h' => ⟨hk _ h.1 h'.1, AllEntries.combine hs hf hd hk h.2 h'.2⟩
theorem AllItems.combine (hs : ∀ s, str s → str' s → str'' s)
    (hf : ∀ x, float x → float' x → float'' x) (hd : ∀ s, date s → date' s → date'' s)
    (hk : ∀ ks, keys ks → keys' ks → keys'' ks) :
    ∀ {vs : List Value}, AllItems str float date keys vs → AllItems str' float' date' keys' vs →
      AllItems str'' float'' date'' keys'' vs
  | [], _, _ => trivial
  | _ :: _, h, h' => ⟨h.1.combine hs hf hd hk h'.1, AllItems.combine hs hf hd hk h.2 h'.2⟩
theorem AllEntries.combine (hs : ∀ s, str s → str' s → str'' s)
    (hf : ∀ x, float x → float' x → float'' x) (hd : ∀ s, date s → date' s → date'' s)
    (hk : ∀ ks, keys ks → keys' ks → keys'' ks) :
    ∀ {es : List (Text × Value)}, AllEntries str float date keys es →
      AllEntries str' float' date' keys' es → AllEntries str'' float'' date'' keys'' es
  | [], _, _ => trivial
  | _ :: _, h, h' => ⟨⟨hs _ h.1.1 h'.1.1, h.1.2.combine hs hf hd hk h'.1.2⟩,
      AllEntries.combine hs hf hd hk h.2 h'.2⟩
end

theorem allEntries_iff {es : List (Text × Value)} :
    AllEntries str float date keys es ↔ ∀ p ∈ es, str p.1 ∧ p.2.All str float date keys := by
  induction es with
  | nil => simp [AllEntries]
  | cons p es ih => simp only [AllEntries, ih, List.forall_mem_cons]

end Combine

/-! ### Strings and keys -/

/-- A character that stands for itself in a basic string. -/
def isRaw (c : Char) : Bool :=
  (c == '\t' || 0x20 ≤ c.toNat) && c != '"' && c != '\\' && c.toNat != 0x7F

/-- The character a one-letter escape stands for. -/
def escapeChar : Char → Option Char
  | '"' => some '"'
  | '\\' => some '\\'
  | 'n' => some '\n'
  | 'r' => some '\r'
  | 't' => some '\t'
  | 'b' => some (Char.ofNat 8)
  | 'f' => some (Char.ofNat 12)
  | _ => none

/-- The value of a hexadecimal digit. -/
def hexValue (c : Char) : Option Nat :=
  if '0' ≤ c ∧ c ≤ '9' then some (c.toNat - '0'.toNat)
  else if 'a' ≤ c ∧ c ≤ 'f' then some (c.toNat - 'a'.toNat + 10)
  else if 'A' ≤ c ∧ c ≤ 'F' then some (c.toNat - 'A'.toNat + 10)
  else none

/-- The character of a `\u` escape; surrogates are refused. -/
def unicodeEscape (a b c d : Char) : Option Char := do
  let n := (((← hexValue a) * 16 + (← hexValue b)) * 16 + (← hexValue c)) * 16 + (← hexValue d)
  if n < 0xD800 ∨ 0xE000 ≤ n then some (Char.ofNat n) else none

/-- Read what follows a backslash. -/
def readEscape : Text → Option (Char × Text)
  | 'u' :: a :: b :: c :: d :: t => (unicodeEscape a b c d).map (·, t)
  | c :: t => (escapeChar c).map (·, t)
  | [] => none

/-- Read a basic string up to and with its closing quote; the number bounds its characters. -/
def readString : Nat → Text → Option (Text × Text)
  | 0, _ => none
  | _ + 1, [] => none
  | n + 1, c :: t =>
    if c = '"' then some ([], t)
    else if c = '\\' then do
      let (d, t) ← readEscape t
      let (s, t) ← readString n t
      some (d :: s, t)
    else if isRaw c then do
      let (s, t) ← readString n t
      some (c :: s, t)
    else none

/-- A character of a bare key. -/
def isBare (c : Char) : Bool := c.isAlphanum || c == '_' || c == '-'

/-- Read a key. -/
def readKey (n : Nat) : Text → Option (Text × Text)
  | '"' :: t => readString n t
  | t => if t.takeWhile isBare = [] then none else some (t.takeWhile isBare, t.dropWhile isBare)

/-! ### Values -/

/-- A character of an unquoted scalar. -/
def isToken (c : Char) : Bool :=
  c.isAlphanum || c == '+' || c == '-' || c == '.' || c == ':' || c == '_'

section Reader

variable (scalar : Text → Option Value)

mutual
/-- Read a value; the number bounds the recursion. -/
def readValue : Nat → Text → Option (Value × Text)
  | 0, _ => none
  | _ + 1, [] => none
  | n + 1, c :: t =>
    if c = '"' then do
      let (s, t) ← readString n t
      some (.str s, t)
    else if c = '[' then
      if t.head? = some ']' then some (.array [], t.tail)
      else do
        let (vs, t) ← readItems n t
        some (.array vs, t)
    else if c = '{' then
      if t.head? = some '}' then some (.inline [], t.tail)
      else do
        let (es, t) ← readPairs n t
        if (es.map Prod.fst).Nodup then some (.inline es, t) else none
    else do
      let v ← scalar ((c :: t).takeWhile isToken)
      some (v, (c :: t).dropWhile isToken)
/-- Read the items of an array that has some, up to and with its closing bracket. -/
def readItems : Nat → Text → Option (List Value × Text)
  | 0, _ => none
  | n + 1, t => do
    let (v, t) ← readValue n t
    match t with
    | ']' :: t => some ([v], t)
    | ',' :: ' ' :: t => do
      let (vs, t) ← readItems n t
      some (v :: vs, t)
    | _ => none
/-- Read the entries of an inline table that has some, up to and with its closing brace. -/
def readPairs : Nat → Text → Option (List (Text × Value) × Text)
  | 0, _ => none
  | n + 1, t => do
    let (k, t) ← readKey n t
    match t with
    | ' ' :: '=' :: ' ' :: t => do
      let (v, t) ← readValue n t
      match t with
      | '}' :: t => some ([(k, v)], t)
      | ',' :: ' ' :: t => do
        let (es, t) ← readPairs n t
        some ((k, v) :: es, t)
      | _ => none
    | _ => none
end

/-! ### Documents by lines -/

/-- What one line of a document says. -/
inductive Line where
  | blank
  | header (name : Text)
  | pair (key : Text) (v : Value)

/-- Read a line. -/
def readLine (l : Text) : Option Line :=
  match l with
  | [] => some .blank
  | '[' :: t =>
    if t.takeWhile isBare ≠ [] ∧ t.dropWhile isBare = [']'] then
      some (.header (t.takeWhile isBare))
    else none
  | l => do
    let (k, t) ← readKey (2 * l.length) l
    match t with
    | ' ' :: '=' :: ' ' :: t => do
      let (v, t) ← readValue scalar (2 * l.length) t
      if t = [] then some (.pair k v) else none
    | _ => none

/-- The pairs before the first header, and the tables with their pairs. -/
def readLines : List Text →
    Option (List (Text × Value) × List (Text × List (Text × Value)))
  | [] => some ([], [])
  | l :: ls => do
    let (pairs, tables) ← readLines ls
    match ← readLine scalar l with
    | .blank => some (pairs, tables)
    | .header name => some ([], (name, pairs) :: tables)
    | .pair k v => some ((k, v) :: pairs, tables)

/-- **Read a document.**  No key of a table may come twice. -/
def read (t : Text) : Option Doc := do
  let (pairs, tables) ← readLines scalar (lines t)
  if (pairs.map Prod.fst ++ tables.map Prod.fst).Nodup ∧
      ∀ e ∈ tables, (e.2.map Prod.fst).Nodup then
    some (.flat pairs tables)
  else none

end Reader

/-! ### Reading from parts -/

theorem readString_close (n : Nat) (rest : Text) :
    readString (n + 1) ('"' :: rest) = some ([], rest) := by
  simp [readString]

theorem readString_raw {c : Char} (hc : isRaw c = true) (n : Nat) (t : Text) :
    readString (n + 1) (c :: t) = (readString n t).map fun x => (c :: x.1, x.2) := by
  have h₁ : c ≠ '"' := by rintro rfl; simp [isRaw] at hc
  have h₂ : c ≠ '\\' := by rintro rfl; simp [isRaw] at hc
  simp only [readString, if_neg h₁, if_neg h₂, hc, if_true]
  cases readString n t <;> rfl

theorem readString_escape {e t : Text} {c : Char} (he : readEscape (e ++ t) = some (c, t))
    (n : Nat) :
    readString (n + 1) ('\\' :: (e ++ t)) = (readString n t).map fun x => (c :: x.1, x.2) := by
  simp only [readString, show '\\' ≠ '"' by decide, if_false, if_true, he, Option.bind_eq_bind,
    Option.bind_some]
  cases readString n t <;> rfl

/-- The texts of a list, with commas between them. -/
def joinComma : List Text → Text
  | [] => []
  | [t] => t
  | t :: ts => t ++ ',' :: ' ' :: joinComma ts

section Parts

variable (scalar : Text → Option Value)

/-- What may follow an unquoted scalar. -/
def Ends (rest : Text) : Prop := ∀ c, rest.head? = some c → isToken c = false

/-- A text is read as a value, wherever one can end. -/
def ReadsAs (t : Text) (v : Value) : Prop :=
  ∀ n rest, 2 * t.length < n → Ends rest → readValue scalar n (t ++ rest) = some (v, rest)

/-- A text is read as a key before the space of a pair. -/
def KeyReads (t k : Text) : Prop :=
  ∀ n rest, t.length < n → readKey n (t ++ ' ' :: rest) = some (k, ' ' :: rest)

/-- The text of a pair. -/
def pairText (x : Text × Text) : Text := x.1 ++ ' ' :: '=' :: ' ' :: x.2

/-- The two texts of a pair are read as its key and its value. -/
def PairReads (x : Text × Text) (p : Text × Value) : Prop :=
  KeyReads x.1 p.1 ∧ ReadsAs scalar x.2 p.2

variable {scalar}

theorem ends_of_head {c : Char} (h : isToken c = false) (rest : Text) : Ends (c :: rest) := by
  intro d hd
  obtain rfl : c = d := by simpa using hd
  exact h

theorem readsAs_str {body s : Text}
    (h : ∀ n rest, body.length < n → readString n (body ++ '"' :: rest) = some (s, rest)) :
    ReadsAs scalar ('"' :: body ++ ['"']) (.str s) := by
  intro n rest hn _
  obtain ⟨n, rfl⟩ : ∃ m, n = m + 1 := ⟨n - 1, by omega⟩
  have hread := h n rest (by simp at hn; omega)
  simp only [List.cons_append, List.append_assoc, List.nil_append, readValue, if_true, hread,
    Option.bind_eq_bind, Option.bind_some]

/-- A text of one or more characters of unquoted scalars. -/
def Token (t : Text) : Prop := t ≠ [] ∧ ∀ c ∈ t, isToken c = true

theorem takeWhile_append {p : Char → Bool} {t : Text} (rest : Text) (ht : ∀ c ∈ t, p c = true)
    (hrest : ∀ c, rest.head? = some c → p c = false) :
    (t ++ rest).takeWhile p = t ∧ (t ++ rest).dropWhile p = rest := by
  rw [List.takeWhile_append_of_pos ht, List.dropWhile_append_of_pos ht]
  cases rest with
  | nil => simp
  | cons c rest => simp [hrest c rfl]

theorem readsAs_scalar {t : Text} {v : Value} (ht : Token t) (hv : scalar t = some v) :
    ReadsAs scalar t v := by
  intro n rest hn hrest
  obtain ⟨n, rfl⟩ : ∃ m, n = m + 1 := ⟨n - 1, by omega⟩
  obtain ⟨hne, htok⟩ := ht
  obtain ⟨htake, hdrop⟩ := takeWhile_append _ htok hrest
  obtain ⟨c, t, rfl⟩ := List.exists_cons_of_ne_nil hne
  have hc := htok c List.mem_cons_self
  have h₁ : c ≠ '"' := by rintro rfl; simp [isToken] at hc
  have h₂ : c ≠ '[' := by rintro rfl; simp [isToken] at hc
  have h₃ : c ≠ '{' := by rintro rfl; simp [isToken] at hc
  rw [List.cons_append] at htake hdrop ⊢
  simp only [readValue, if_neg h₁, if_neg h₂, if_neg h₃, htake, hdrop, hv, Option.bind_eq_bind,
    Option.bind_some]

/-- **Items are read from their parts.** -/
theorem readItems_join {ts : List Text} {vs : List Value}
    (h : List.Forall₂ (ReadsAs scalar) ts vs) (hne : ts ≠ []) (n : Nat) (rest : Text)
    (hn : 2 * (joinComma ts).length + 1 < n) :
    readItems scalar n (joinComma ts ++ ']' :: rest) = some (vs, rest) := by
  induction h generalizing n with
  | nil => exact absurd rfl hne
  | @cons t v ts vs hv hvs ih =>
    obtain ⟨n, rfl⟩ : ∃ m, n = m + 1 := ⟨n - 1, by omega⟩
    cases hvs with
    | nil =>
      have := hv n (']' :: rest) (by simp [joinComma] at hn; omega) (ends_of_head (by decide) _)
      simp [readItems, joinComma, this]
    | @cons t' v' ts vs hv' hvs =>
      simp only [joinComma, List.length_append, List.length_cons] at hn
      have h₁ := hv n (',' :: ' ' :: (joinComma (t' :: ts) ++ ']' :: rest)) (by omega)
        (ends_of_head (by decide) _)
      have h₂ := ih (by simp) n (by omega)
      simp [readItems, joinComma, h₁, h₂]

/-- **Entries are read from their parts.** -/
theorem readPairs_join {ts : List (Text × Text)} {es : List (Text × Value)}
    (h : List.Forall₂ (PairReads scalar) ts es) (hne : ts ≠ []) (n : Nat) (rest : Text)
    (hn : 2 * (joinComma (ts.map pairText)).length + 1 < n) :
    readPairs scalar n (joinComma (ts.map pairText) ++ '}' :: rest) = some (es, rest) := by
  induction h generalizing n with
  | nil => exact absurd rfl hne
  | @cons x p ts es hx hes ih =>
    obtain ⟨n, rfl⟩ : ∃ m, n = m + 1 := ⟨n - 1, by omega⟩
    obtain ⟨hk, hv⟩ := hx
    cases hes with
    | nil =>
      simp only [List.map_cons, List.map_nil, joinComma, pairText, List.length_append,
        List.length_cons] at hn
      have h₁ := hk n ('=' :: ' ' :: (x.2 ++ '}' :: rest)) (by omega)
      have h₂ := hv n ('}' :: rest) (by omega) (ends_of_head (by decide) _)
      simp [readPairs, joinComma, pairText, h₁, h₂]
    | @cons x' p' ts es hx' hes =>
      generalize htail : joinComma ((x' :: ts).map pairText) = tail at ih
      have hjoin : joinComma ((x :: x' :: ts).map pairText) =
          x.1 ++ ' ' :: '=' :: ' ' :: (x.2 ++ ',' :: ' ' :: tail) := by
        rw [← htail]
        simp [joinComma, pairText]
      rw [hjoin] at hn ⊢
      simp only [List.length_append, List.length_cons] at hn
      have h₁ := hk n ('=' :: ' ' :: (x.2 ++ ',' :: ' ' :: (tail ++ '}' :: rest))) (by omega)
      have h₂ := hv n (',' :: ' ' :: (tail ++ '}' :: rest)) (by omega)
        (ends_of_head (by decide) _)
      have h₃ := ih (by simp) n (by omega)
      simp [readPairs, h₁, h₂, h₃]

/-- A text that is read as a value starts with a character that closes nothing. -/
theorem ReadsAs.exists_head {t : Text} {v : Value} (h : ReadsAs scalar t v) :
    ∃ c, t.head? = some c ∧ c ≠ ']' := by
  have hread := h (2 * t.length + 1) [] (by omega) nofun
  rw [List.append_nil] at hread
  cases t with
  | nil => simp [readValue] at hread
  | cons c t =>
    refine ⟨c, rfl, ?_⟩
    rintro rfl
    have htok : isToken ']' = false := by decide
    cases hs : scalar [] <;> simp [readValue, htok, hs] at hread

theorem KeyReads.exists_head {t k : Text} (h : KeyReads t k) :
    ∃ c, t.head? = some c ∧ c ≠ '}' ∧ c ≠ '[' := by
  have hread := h (t.length + 1) [] (by omega)
  cases t with
  | nil => simp [readKey, show isBare ' ' = false by decide] at hread
  | cons c t =>
    refine ⟨c, rfl, ?_, ?_⟩
    · rintro rfl
      simp [readKey, show isBare '}' = false by decide] at hread
    · rintro rfl
      simp [readKey, show isBare '[' = false by decide] at hread

theorem head?_joinComma {t : Text} (ts : List Text) {c : Char} (h : t.head? = some c)
    (rest : Text) : (joinComma (t :: ts) ++ rest).head? = some c := by
  cases t with
  | nil => cases h
  | cons d t => cases ts <;> simpa [joinComma] using h

/-- **An array is read from its items.** -/
theorem readsAs_array {ts : List Text} {vs : List Value}
    (h : List.Forall₂ (ReadsAs scalar) ts vs) :
    ReadsAs scalar ('[' :: joinComma ts ++ [']']) (.array vs) := by
  intro n rest hn _
  obtain ⟨n, rfl⟩ : ∃ m, n = m + 1 := ⟨n - 1, by omega⟩
  cases h with
  | nil => simp [readValue, joinComma]
  | @cons t v ts vs hv hvs =>
    have hread := readItems_join (.cons hv hvs) (by simp) n rest (by simp at hn; omega)
    obtain ⟨c, hc, hne⟩ := hv.exists_head
    have hhead := head?_joinComma ts hc (']' :: rest)
    have hnot : (joinComma (t :: ts) ++ ']' :: rest).head? ≠ some ']' := by
      rw [hhead]
      simpa using hne
    rw [List.cons_append, List.cons_append, List.append_assoc, List.cons_append,
      List.nil_append]
    simp only [readValue, if_neg (show '[' ≠ '"' by decide), if_true, if_neg hnot, hread,
      Option.bind_eq_bind, Option.bind_some]

/-- **An inline table is read from its entries.** -/
theorem readsAs_inline {ts : List (Text × Text)} {es : List (Text × Value)}
    (h : List.Forall₂ (PairReads scalar) ts es) (hkeys : (es.map Prod.fst).Nodup) :
    ReadsAs scalar ('{' :: joinComma (ts.map pairText) ++ ['}']) (.inline es) := by
  intro n rest hn _
  obtain ⟨n, rfl⟩ : ∃ m, n = m + 1 := ⟨n - 1, by omega⟩
  cases h with
  | nil => simp [readValue, joinComma]
  | @cons x p ts es hx hes =>
    have hread := readPairs_join (.cons hx hes) (by simp) n rest (by simp at hn ⊢; omega)
    obtain ⟨c, hc, hne, -⟩ := hx.1.exists_head
    have hpair : (pairText x).head? = some c := by
      rw [pairText, List.head?_append, hc]
      rfl
    have hhead := head?_joinComma (ts.map pairText) hpair ('}' :: rest)
    have hnot : (joinComma ((x :: ts).map pairText) ++ '}' :: rest).head? ≠ some '}' := by
      rw [List.map_cons, hhead]
      simpa using hne
    rw [List.cons_append, List.cons_append, List.append_assoc, List.cons_append,
      List.nil_append]
    simp only [readValue, if_neg (show '{' ≠ '"' by decide), if_neg (show '{' ≠ '[' by decide),
      if_true, if_neg hnot, hread, Option.bind_eq_bind, Option.bind_some, if_pos hkeys]

/-! ### Reading from lines -/

theorem readLine_pair {x : Text × Text} {p : Text × Value} (h : PairReads scalar x p) :
    readLine scalar (pairText x) = some (.pair p.1 p.2) := by
  obtain ⟨hk, hv⟩ := h
  obtain ⟨c, hc, -, hne⟩ := hk.exists_head
  obtain ⟨kt, vt⟩ := x
  obtain ⟨t, rfl⟩ : ∃ t, kt = c :: t := by
    cases kt with
    | nil => cases hc
    | cons d t => exact ⟨t, by simpa using hc⟩
  have hkey := hk (2 * (pairText (c :: t, vt)).length) ('=' :: ' ' :: vt)
    (by simp [pairText]; omega)
  have hval := hv (2 * (pairText (c :: t, vt)).length) [] (by simp [pairText]; omega) nofun
  rw [List.append_nil] at hval
  have htext : pairText (c :: t, vt) = c :: (t ++ ' ' :: '=' :: ' ' :: vt) := by simp [pairText]
  rw [htext] at hkey hval ⊢
  rw [readLine]
  · simp only [List.cons_append] at hkey
    simp only [hkey, hval, Option.bind_eq_bind, Option.bind_some, if_true]
  · nofun
  · intro t' h'
    exact hne (List.cons.inj h').1

theorem readLine_header {name : Text} (hne : name ≠ []) (h : ∀ c ∈ name, isBare c = true) :
    readLine scalar ('[' :: name ++ [']']) = some (.header name) := by
  obtain ⟨htake, hdrop⟩ := takeWhile_append [']'] h fun c hc => by
    obtain rfl : ']' = c := by simpa using hc
    decide
  rw [List.cons_append, readLine, htake, hdrop, if_pos ⟨hne, rfl⟩]

theorem readLines_pairs {xs : List (Text × Text)} {ps : List (Text × Value)}
    (h : List.Forall₂ (PairReads scalar) xs ps) {ls : List Text}
    {r : List (Text × Value) × List (Text × List (Text × Value))}
    (hr : readLines scalar ls = some r) :
    readLines scalar (xs.map pairText ++ ls) = some (ps ++ r.1, r.2) := by
  induction h with
  | nil => simpa using hr
  | cons hx _ ih => simp [readLines, ih, readLine_pair hx]

theorem readLines_header {name : Text} (hne : name ≠ []) (h : ∀ c ∈ name, isBare c = true)
    {ls : List Text} {r : List (Text × Value) × List (Text × List (Text × Value))}
    (hr : readLines scalar ls = some r) :
    readLines scalar (('[' :: name ++ [']']) :: ls) = some ([], (name, r.1) :: r.2) := by
  rw [readLines, hr, readLine_header hne h]
  rfl

theorem readLines_blank {ls : List Text} : readLines scalar ([] :: ls) = readLines scalar ls := by
  cases h : readLines scalar ls <;> simp [readLines, readLine, h]

/-- A line as it is written: without line feeds, and not ending in a carriage return. -/
def IsLine (l : Text) : Prop := '\n' ∉ l ∧ l.getLast? ≠ some '\r'

/-- Lines, each with its line feed. -/
def unlines (ls : List Text) : Text := ls.flatMap fun l => l ++ ['\n']

theorem lines_unlines {ls : List Text} (h : ∀ l ∈ ls, IsLine l) : lines (unlines ls) = ls := by
  induction ls with
  | nil => rfl
  | cons l ls ih =>
    obtain ⟨⟨hlf, hcr⟩, hls⟩ := List.forall_mem_cons.1 h
    have hcons : unlines (l :: ls) = l ++ '\n' :: unlines ls := by simp [unlines]
    rw [hcons, lines_cons_lf hlf, stripCr_of_ne hcr, ih hls]

/-- **A document is read from its lines.** -/
theorem read_unlines {ls : List Text} (hls : ∀ l ∈ ls, IsLine l)
    {pairs : List (Text × Value)} {tables : List (Text × List (Text × Value))}
    (hread : readLines scalar ls = some (pairs, tables))
    (hkeys : (pairs.map Prod.fst ++ tables.map Prod.fst).Nodup)
    (htables : ∀ e ∈ tables, (e.2.map Prod.fst).Nodup) :
    read scalar (unlines ls) = some (.flat pairs tables) := by
  rw [read, lines_unlines hls, hread]
  simp only [Option.bind_eq_bind, Option.bind_some]
  rw [if_pos ⟨hkeys, htables⟩]

end Parts

/-! ### Libraries -/

/-- The decimal text of an integer. -/
def intText (i : Int) : Text :=
  if i < 0 then '-' :: Nat.toDigits 10 i.natAbs else Nat.toDigits 10 i.natAbs

/-- A TOML library. -/
structure Library where
  /-- Parse a text; the error is a message. -/
  parse : Text → Except Text Doc
  /-- Print a document. -/
  print : Doc → Text
  /-- Read an unquoted scalar. -/
  scalar : Text → Option Value
  /-- Parse a date or time and print it in the canonical form. -/
  datetime : Text → Option Text
  /-- How deep arrays and inline tables may be nested. -/
  nestingLimit : Nat

/-- All values of a flat document have a property. -/
def FlatAll (p : Value → Prop) (pairs : List (Text × Value))
    (tables : List (Text × List (Text × Value))) : Prop :=
  (∀ x ∈ pairs, p x.2) ∧ ∀ t ∈ tables, ∀ x ∈ t.2, p x.2

/-- The inline tables in a value have distinct keys. -/
def Value.DistinctKeys (v : Value) : Prop :=
  v.All (fun _ => True) (fun _ => True) (fun _ => True) List.Nodup

namespace Library

variable (T : Library)

/-- The floats in a value are finite and its dates are in the canonical form. -/
def Writable (v : Value) : Prop :=
  v.All (fun _ => True) (fun x => x.isFinite = true) (fun s => T.datetime s = some s)
    fun _ => True

/-- What may be relied on of a TOML library, for documents of values and tables of values. -/
structure Lawful : Prop where
  /-- A printed document is read back, if it is accepted at all. -/
  parse_print : ∀ {pairs tables d}, FlatAll T.Writable pairs tables →
    T.parse (T.print (.flat pairs tables)) = .ok d → d = .flat pairs tables
  /-- A document that is accepted has distinct keys and nests no deeper than the limit. -/
  of_parse : ∀ {t pairs tables}, T.parse t = .ok (.flat pairs tables) →
    (pairs.map Prod.fst ++ tables.map Prod.fst).Nodup ∧
    (∀ e ∈ tables, (e.2.map Prod.fst).Nodup) ∧
    FlatAll (fun v => v.DistinctKeys ∧ v.depth ≤ T.nestingLimit) pairs tables
  /-- Texts of the fragment mean what the reader makes of them, unless they nest too deep or hold
  a character that no text may hold. -/
  parse_read : ∀ {t pairs tables}, read T.scalar t = some (.flat pairs tables) →
    FlatAll (fun v => v.DistinctKeys ∧ v.depth ≤ T.nestingLimit) pairs tables →
    Char.ofNat 0x7F ∉ t → T.parse t = .ok (.flat pairs tables)
  /-- The delete character is in no TOML text. -/
  not_mem_of_parse : ∀ {t d}, T.parse t = .ok d → Char.ofNat 0x7F ∉ t
  /-- Decimal integers. -/
  scalar_int : ∀ i : Int64, T.scalar (intText i.toInt) = some (.int i)
  /-- Booleans. -/
  scalar_true : T.scalar "true".toList = some (.bool true)
  scalar_false : T.scalar "false".toList = some (.bool false)
  /-- Dates and times in the canonical form, which has no spaces. -/
  scalar_datetime : ∀ {s}, T.datetime s = some s → Token s ∧ T.scalar s = some (.datetime s)
  /-- The canonical form is one. -/
  datetime_idem : ∀ {s s'}, T.datetime s = some s' → T.datetime s' = some s'

end Library

theorem token_intText (i : Int) : Token (intText i) := by
  have hdigits : ∀ n : Nat, ∀ c ∈ Nat.toDigits 10 n, isToken c = true := fun n c hc => by
    have := Nat.isDigit_of_mem_toDigits (by omega) (by omega) hc
    simp [isToken, Char.isAlphanum, this]
  have hne : ∀ n : Nat, Nat.toDigits 10 n ≠ [] := fun n => Nat.toDigits_ne_nil
  unfold intText
  split
  · refine ⟨by simp, List.forall_mem_cons.2 ⟨by decide, hdigits _⟩⟩
  · exact ⟨hne _, hdigits _⟩

end Lib.Toml
