import Omp.Grammar

/-!
# String literals

A string is written between quotes, with a backslash before the quote and before a backslash.  The
scanner goes through octets and pushes each as a character of its own, so the token of a quoted text
has the octets of the text for characters.  It has the text itself for its value exactly if the text
is of ASCII; beyond ASCII a predicate is about another text than the one that is written.

## Main definitions

* `quotedForm`, `predicate` : a text between quotes, and a field compared with it.
* `Holds` : what a comparison with a text is true of.
* `Denotes` : the quoted form of a text stands for the text.

## Main results

* `tokenize_quotedForm` : the token of a quoted text.
* `parse_predicate` : what a predicate is parsed as.
* `denotes_iff` : the texts that quoted forms stand for.
-/

namespace Omp

open Lib Scan

namespace Query

/-! ### What is written -/

/-- The form of a text between quotes. -/
def quotedForm (q : Char) (s : Text) : Text :=
  q :: ((s.flatMap fun c => if c = q ∨ c = '\\' then ['\\', c] else [c]) ++ [q])

/-- A field compared with a quoted text. -/
def predicate (path : FieldPath) (op : Op) (q : Char) (s : Text) : Text :=
  joinWith '.' path ++ ' ' :: (QueryLang.opText op ++ ' ' :: quotedForm q s)

/-- A field is equal to a text, has it as a part or begins with it; a list has it as an item. -/
def Holds (op : Op) (s : Text) : Option FieldValue → Prop
  | some (.string t) | some (.datetime t) =>
    op = .eq ∧ t = s ∨ op = .contains ∧ s <:+: t ∨ op = .startsWith ∧ s <+: t
  | some (.list items) => op = .contains ∧ .string s ∈ items
  | _ => False

/-- **The quoted form of a text stands for the text**: it is one token with that value, and a
predicate with it holds of the manifests whose field is equal to the text, has it as a part or
begins with it. -/
def Denotes (s : Text) : Prop :=
  ∀ q, q = '"' ∨ q = '\'' → tokenize (quotedForm q s) = .ok [⟨.str s, 0⟩] ∧
    ∀ path op, path ≠ [] → (∀ word ∈ path, IsName word) →
      op = .eq ∨ op = .contains ∨ op = .startsWith →
        ∃ e, parse (predicate path op q s) = .ok e ∧
          ∀ m : Manifest, evaluate m e = true ↔ Holds op s (resolvePath m path)

/-! ### Tokens -/

theorem quoted_escape {q : Char} (s : Text) :
    Quoted q (s.flatMap fun c => if c = q ∨ c = '\\' then ['\\', c] else [c]) s := by
  induction s with
  | nil => exact .nil
  | cons c s ih =>
    rw [List.flatMap_cons]
    split_ifs with hc
    · exact .escape c ih
    · obtain ⟨hq, hb⟩ := not_or.1 hc
      exact .plain hq hb ih

theorem spelled_quotedForm {q : Char} (hq : q = '"' ∨ q = '\'') (s : Text) :
    Spelled (.string s) (quotedForm q s) := .string hq (quoted_escape s)

/-- The value a quoted text is scanned as: a character for each octet. -/
def scanned (s : Text) : Text := (utf8 s).map asChar

/-- **The token of a quoted text.** -/
theorem tokenize_quotedForm {q : Char} (hq : q = '"' ∨ q = '\'') (s : Text) :
    tokenize (quotedForm q s) = .ok [⟨.str (scanned s), 0⟩] := by
  refine QueryLang.tokenize_server.2 ⟨[.lexeme (.string s) (quotedForm q s)], ?_, ?_⟩
  · have hlexed : Lexed (fun c => isSpace c.toNat) (quotedForm q s ++ []) _ :=
      .lexeme (spelled_quotedForm hq s) trivial .nil
    rwa [List.append_nil] at hlexed
  · exact ⟨_, rfl, rfl⟩

/-- A text is scanned as itself exactly if it is of ASCII. -/
theorem scanned_eq_self {s : Text} : scanned s = s ↔ IsAscii s := by
  refine ⟨fun heq => ?_, QueryLang.map_asChar⟩
  -- beyond ASCII there are more octets than units of UTF-16
  by_contra hascii
  have hlt := length_utf16_lt hascii
  have hlength := QueryLang.length_asChar (utf8 s)
  rw [show (utf8 s).map asChar = s from heq] at hlength
  omega

/-! ### Predicates -/

theorem Prints.cons {k : Tok} {toks : List Tok} {l : Lexeme Char} {t s : Text}
    (hl : Spelled l t) (hstop : Scan.Stops l s) (hk : Writes k l) (h : Prints s toks) :
    Prints (t ++ s) (k :: toks) := by
  obtain ⟨ps, hps, hforall⟩ := h
  exact ⟨_, .lexeme hl hstop hps, .cons hk hforall⟩

theorem Prints.space {toks : List Tok} {s : Text} (h : Prints s toks) :
    Prints (' ' :: s) toks := by
  obtain ⟨ps, hps, hforall⟩ := h
  exact ⟨_, .space rfl hps, hforall⟩

/-- A name is written as it is. -/
theorem IsName.spelled {word : Text} (h : IsName word) : Spelled (.word word) word := by
  obtain ⟨⟨t, ht⟩, -⟩ := h
  cases ht with
  | word hc hcs => exact .word hc hcs

/-- A path is written with points between its names. -/
theorem Prints.path {path : FieldPath} (hne : path ≠ []) (hpath : ∀ word ∈ path, IsName word)
    {toks : List Tok} {s : Text} (h : Prints s toks) :
    Prints (joinWith '.' path ++ ' ' :: s) (pathToks path ++ toks) := by
  obtain ⟨word, rest, rfl⟩ := List.exists_cons_of_ne_nil hne
  clear hne
  induction rest generalizing word with
  | nil =>
    obtain ⟨hword, -⟩ := List.forall_mem_cons.1 hpath
    rw [joinWith_singleton]
    exact .cons hword.spelled (stops_space _ _) (.ident hword.2) h.space
  | cons word' rest ih =>
    obtain ⟨hword, hrest⟩ := List.forall_mem_cons.1 hpath
    have hdot : Prints ('.' :: (joinWith '.' (word' :: rest) ++ ' ' :: s))
        (.dot :: (pathToks (word' :: rest) ++ toks)) :=
      .cons (t := ['.']) (.symbol .dot) trivial (.symbol .dot) (ih word' hrest)
    rw [joinWith_cons_cons, List.append_assoc]
    refine .cons hword.spelled (fun c hc => ?_) (.ident hword.2) hdot
    cases hc
    rfl

/-- The operators are written as they are. -/
theorem Prints.op {o : Op} (ho : o = .eq ∨ o = .contains ∨ o = .startsWith) {toks : List Tok}
    {s : Text} (h : Prints s toks) :
    Prints (QueryLang.opText o ++ ' ' :: s) (.op o :: toks) := by
  have hword : ∀ {c : Char} {cs : Text} {k : Tok}, (lower (c :: cs), k) ∈ keywords →
      isWordStart c.toNat = true → (cs.all fun d => isWordPart d.toNat) = true →
        Prints (c :: cs ++ ' ' :: s) (k :: toks) := fun hmem hc hcs =>
    .cons (.word hc (List.all_eq_true.1 hcs)) (stops_space _ _) (.keyword hmem) h.space
  rcases ho with rfl | rfl | rfl
  · exact .cons (t := ['=']) (.symbol .eq) trivial (.symbol .eq) h.space
  · exact hword (by decide +kernel) (by decide +kernel) (by decide +kernel)
  · exact hword (by decide +kernel) (by decide +kernel) (by decide +kernel)

/-- **What a predicate is parsed as.** -/
theorem parse_predicate {path : FieldPath} {op : Op} {q : Char} (hq : q = '"' ∨ q = '\'')
    (hne : path ≠ []) (hpath : ∀ word ∈ path, IsName word)
    (hop : op = .eq ∨ op = .contains ∨ op = .startsWith) (s : Text) :
    parse (predicate path op q s) = .ok (.atom (.compare path op (.string (scanned s)))) := by
  refine parse_eq_ok.2 ⟨.atom (.compare path op (.string (scanned s))), ?_, rfl, ?_⟩
  · intro a ha
    rw [List.mem_singleton.1 ha]
    exact hne
  · have hquoted : Prints (quotedForm q s ++ []) [.str (scanned s)] :=
      .cons (spelled_quotedForm hq s) trivial (.str s) ⟨[], .nil, .nil⟩
    rw [List.append_nil] at hquoted
    exact .path hne hpath (.op hop hquoted)

/-- What a comparison with a text is true of. -/
theorem evaluate_compare {op : Op} (hop : op = .eq ∨ op = .contains ∨ op = .startsWith)
    (m : Manifest) (path : FieldPath) (s : Text) :
    evaluate m (.atom (.compare path op (.string s))) = true ↔
      Holds op s (resolvePath m path) := by
  have htext : ∀ t, cmpText t s op = true ↔
      op = .eq ∧ t = s ∨ op = .contains ∧ s <:+: t ∨ op = .startsWith ∧ s <+: t := by
    intro t
    rcases hop with rfl | rfl | rfl <;> simp [cmpText]
  rw [evaluate]
  cases resolvePath m path with
  | none => simp [Holds]
  | some field =>
    cases field with
    | string t => exact htext t
    | datetime t => exact htext t
    | list items =>
      have hitem : ∀ item, isItem item (.string s) = true ↔ item = .string s := by
        intro item
        cases item <;> simp [isItem]
      simp [compareField, Holds, hitem]
    | null =>
      rcases hop with rfl | rfl | rfl <;> simp [compareField, Holds]
    | _ => simp [compareField, Holds]

/-- **The texts that quoted forms stand for** are those of ASCII. -/
theorem denotes_iff (s : Text) : Denotes s ↔ IsAscii s := by
  constructor
  · intro h
    have htokens := (h '"' (.inl rfl)).1
    rw [tokenize_quotedForm (.inl rfl), Except.ok.injEq] at htokens
    rw [← scanned_eq_self]
    simpa using htokens
  · intro hascii q hq
    have hsame := scanned_eq_self.2 hascii
    refine ⟨by rw [tokenize_quotedForm hq, hsame], fun path op hne hpath hop => ?_⟩
    refine ⟨_, parse_predicate hq hne hpath hop s, fun m => ?_⟩
    rw [hsame]
    exact evaluate_compare hop m path s

/-- **The quoted form of `é` stands for two other characters.** -/
theorem not_denotes : ¬ Denotes [Char.ofNat 0xE9] := by
  intro h
  have htokens := (h '"' (.inl rfl)).1
  rw [tokenize_quotedForm (.inl rfl), Except.ok.injEq] at htokens
  have hlength : (scanned [Char.ofNat 0xE9]).length = 2 := by decide +kernel
  have hsame : scanned [Char.ofNat 0xE9] = [Char.ofNat 0xE9] := by simpa using htokens
  rw [hsame] at hlength
  exact absurd hlength (by decide)

end Query

end Omp
