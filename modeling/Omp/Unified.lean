import Omp.Grammar
import Mathlib.Data.List.DropRight

/-!
# Unified queries

The query editor of the browser takes a predicate and the clauses `prefix`, `at` and `limit` as one
text, in this order or another.  It peels the clauses off the end, as long as they stand outside of
parentheses and each is new, and leaves the rest to the server.

The same words may name fields of the predicate.  They are never taken for clauses: an expression
ends in a literal after an operator, or in a parenthesis that closes another.

## Main definitions

* `QueryLang.parseUnified` : what the editor does with a text.
* `Appended` : clauses that are appended to a predicate.
* `Closed` : how the tokens of an expression end.

## Main results

* `closed_print` : an expression does not end in a clause.
* `parseUnified_exact` : what was appended is peeled off, and no more.
-/

namespace Omp

namespace QueryLang

open Lib Scan

/-! ### Peeling off clauses -/

/-- `UnifiedQuery`. -/
structure UnifiedQuery where
  where_ : Option JsString
  prefix_ : Option JsString
  at_ : Option JsString
  limit : Option F64
  deriving DecidableEq

/-- A query without clauses. -/
def UnifiedQuery.empty : UnifiedQuery := ⟨none, none, none, none⟩

/-- `trim`. -/
def trim (s : JsString) : JsString :=
  (s.rdropWhile fun u => isSpace u.toNat).dropWhile fun u => isSpace u.toNat

/-- `Number`, of an integer as it is spelled. -/
def number (value : JsString) : F64 :=
  let (minus, ds) := Query.splitSign (value.map fun u => Char.ofNat u.toNat)
  let x := F64.ofRatio (Nat.ofDigitChars 10 ds 0) 1
  if minus then x.neg else x

/-- The value of a `prefix` or `at`: a string or a bare identifier. -/
def textValue (t : Token) : Option JsString :=
  if t.kind = .string ∨ t.kind = .ident then some t.value else none

/-- The value of a `limit`. -/
def limitValue (t : Token) : Option F64 :=
  if t.kind = .int then
    let n := number t.value
    if !n.isFinite || !n.isInteger then none else some n
  else none

/-- One turn of the loop: a clause that is new is taken. -/
def takeClause (result : UnifiedQuery) (keyTok valTok : Token) : Option UnifiedQuery :=
  if keyTok.kind ≠ .ident then none
  else
    let keyword := toLowerCase keyTok.value
    if keyword = utf16 "prefix".toList then
      if result.prefix_.isSome then none
      else (textValue valTok).map fun v => { result with prefix_ := some v }
    else if keyword = utf16 "at".toList then
      if result.at_.isSome then none
      else (textValue valTok).map fun v => { result with at_ := some v }
    else if keyword = utf16 "limit".toList then
      if result.limit.isSome then none
      else (limitValue valTok).map fun n => { result with limit := some n }
    else none

/-- The depth after a token. -/
def nest (d : Nat) (kind : TokenKind) : Nat :=
  match kind with
  | .lparen => d + 1
  | .rparen => d - 1
  | _ => d

/-- The depths after the tokens. -/
def depths (d : Nat) : List Token → List Nat
  | [] => []
  | t :: ts => nest d t.kind :: depths (nest d t.kind) ts

/-- The loop from the end. -/
def peel (tokens : List Token) (depth : List Nat) : Nat → UnifiedQuery → UnifiedQuery × Nat
  | endIdx + 2, result =>
    if depth[endIdx + 1]? ≠ some 0 ∨ depth[endIdx]? ≠ some 0 then (result, endIdx + 2)
    else match tokens[endIdx]?, tokens[endIdx + 1]? with
      | some keyTok, some valTok => match takeClause result keyTok valTok with
        | some result => peel tokens depth endIdx result
        | none => (result, endIdx + 2)
      | _, _ => (result, endIdx + 2)
  | endIdx, result => (result, endIdx)

/-- A text, unless it is empty. -/
def nonempty (s : JsString) : Option JsString := if s = [] then none else some s

/-- `parseUnified`. -/
def parseUnified (input : JsString) : Except TokenizeError UnifiedQuery :=
  if trim input = [] then .ok .empty
  else do
    let tokens ← tokenize input
    if tokens = [] then .ok .empty
    else
      let (result, endIdx) := peel tokens (depths 0 tokens) tokens.length .empty
      if 0 < endIdx then
        let cutoff := tokens[endIdx]?.elim input.length Token.pos
        .ok { result with where_ := nonempty (trim (input.take cutoff)) }
      else .ok result

/-! ### Clauses that are appended -/

/-- A clause. -/
inductive Modifier where
  | under (v : Text)
  | at (v : Text)
  | limit (n : Int)

namespace Modifier

/-- The word of a clause. -/
def keyword : Modifier → Text
  | under _ => "prefix".toList
  | .at _ => "at".toList
  | limit _ => "limit".toList

/-- The value of a `prefix`. -/
def under? : Modifier → Option Text
  | under v => some v
  | _ => none

/-- The value of an `at`. -/
def at? : Modifier → Option Text
  | .at v => some v
  | _ => none

/-- The value of a `limit`. -/
def limit? : Modifier → Option Int
  | limit n => some n
  | _ => none

/-- How the value of a clause is written: a quoted string, or an integer. -/
inductive Value : Modifier → Lexeme Char → Prop where
  | under (v : Text) : Value (under v) (.string v)
  | at (v : Text) : Value (.at v) (.string v)
  | limit {n : Int} {num : Text} (hnum : num ≠ ['-']) (h : Query.intOf num = n) :
      Value (limit n) (.number num false)

end Modifier

/-- White space. -/
def Blank (s : Text) : Prop := ∀ c ∈ s, isSpace c.toNat = true

/-- **Clauses that are appended**, each a word in any case and a value, with white space around. -/
inductive Appended : List Modifier → Text → Prop where
  | nil {sp : Text} (hsp : Blank sp) : Appended [] sp
  | cons {m : Modifier} {ms : List Modifier} {sp word sp' value rest : Text} {l : Lexeme Char}
      (hsp : Blank sp) (hword : Spelled (.word word) word) (hkey : Query.lower word = m.keyword)
      (hsp' : Blank sp') (hstop : Stops (.word word) (sp' ++ (value ++ rest)))
      (hvalue : m.Value l) (hl : Spelled l value) (hstop' : Stops l rest) (h : Appended ms rest) :
      Appended (m :: ms) (sp ++ (word ++ (sp' ++ (value ++ rest))))

/-- No lexeme of a text goes on in another. -/
def Apart (s s' : Text) : Prop := ∀ ps qs, Lexed (fun c => isSpace c.toNat) s ps →
  Lexed (fun c => isSpace c.toNat) s' qs → Lexed (fun c => isSpace c.toNat) (s ++ s') (ps ++ qs)

/-- A query has these clauses: texts as they are, and a number that is the integer. -/
structure Carries (ms : List Modifier) (q : UnifiedQuery) : Prop where
  prefix_ : q.prefix_ = (ms.findSome? Modifier.under?).map utf16
  at_ : q.at_ = (ms.findSome? Modifier.at?).map utf16
  limit : q.limit.map F64.units = (ms.findSome? Modifier.limit?).map (· * 2 ^ 1074)

/-! ### White space -/

variable {w s sp : Text} {ms : List Modifier}

/-- A text that begins with white space is apart. -/
theorem apart_of_space (h : ∀ c ∈ s.head?, isSpace c.toNat = true) : Apart w s :=
  fun _ _ hps hqs => hps.append hqs fun c hc => kind_space (h c hc)

/-- The units of white space are white space. -/
theorem isSpace_utf16 (hsp : Blank sp) : ∀ u ∈ utf16 sp, isSpace u.toNat = true := by
  intro u hu
  obtain ⟨c, hc, hcu⟩ := List.mem_flatMap.1 hu
  obtain ⟨v, henc, hv⟩ := spaces_browser.of_space c (hsp c hc)
  have hv' : utf16EncodeChar c = [v] := henc
  rw [hv', List.mem_singleton] at hcu
  exact hcu ▸ hv

/-- White space at the end is trimmed. -/
theorem trim_append (x : JsString) {y : JsString} (hy : ∀ u ∈ y, isSpace u.toNat = true) :
    trim (x ++ y) = trim x := by
  have hdrop : (y.reverse ++ x.reverse).dropWhile (fun u => isSpace u.toNat) =
      x.reverse.dropWhile fun u => isSpace u.toNat :=
    List.dropWhile_append_of_pos fun u hu => hy u (List.mem_reverse.1 hu)
  rw [trim, trim, List.rdropWhile, List.rdropWhile, List.reverse_append, hdrop]

theorem trim_blank {x : JsString} (hx : ∀ u ∈ x, isSpace u.toNat = true) : trim x = [] :=
  trim_append [] hx

/-- What is trimmed to nothing is white space. -/
theorem isSpace_of_trim {x : JsString} (h : trim x = []) : ∀ u ∈ x, isSpace u.toNat = true := by
  have hrest := List.dropWhile_eq_nil_iff.1 h
  by_cases hnil : x.rdropWhile (fun u => isSpace u.toNat) = []
  · exact List.rdropWhile_eq_nil_iff.1 hnil
  · -- the last unit that is left is no space
    exact absurd (hrest _ (List.getLast_mem hnil)) (List.rdropWhile_last_not _ _ hnil)

/-- White space has no tokens. -/
theorem tokenize_blank {x : JsString} (hx : ∀ u ∈ x, isSpace u.toNat = true) :
    tokenize x = .ok [] := by
  have hloop : ∀ (fuel pos : Nat) (x : JsString), (∀ u ∈ x, isSpace u.toNat = true) →
      scanner.loop fuel pos x = .ok [] := by
    intro fuel
    induction fuel with
    | zero => exact fun _ _ _ => rfl
    | succ fuel ih =>
      intro pos x hx
      cases x with
      | nil => rfl
      | cons u x =>
        rw [Scanner.loop]
        exact (if_pos (hx u List.mem_cons_self)).trans
          (ih _ _ fun v hv => hx v (List.mem_cons_of_mem _ hv))
  rw [tokenize, Scanner.scan, hloop _ _ x hx]
  rfl

/-- **What the editor does with tokens**: the test for white space is not needed. -/
theorem parseUnified_eq {input : JsString} {tokens : List Token} (h : tokenize input = .ok tokens) :
    parseUnified input = if tokens = [] then .ok .empty
      else
        let p := peel tokens (depths 0 tokens) tokens.length .empty
        if 0 < p.2 then
          let cutoff := tokens[p.2]?.elim input.length Token.pos
          .ok { p.1 with where_ := nonempty (trim (input.take cutoff)) }
        else .ok p.1 := by
  by_cases htrim : trim input = []
  · have hnil : tokens = [] :=
      Except.ok.inj (h.symm.trans (tokenize_blank (isSpace_of_trim htrim)))
    rw [parseUnified, if_pos htrim, if_pos hnil]
  · rw [parseUnified, if_neg htrim, h]
    rfl

/-! ### Taking clauses -/

/-- The two tokens of a clause. -/
structure Clause (m : Modifier) (keyTok valTok : Token) : Prop where
  kind : keyTok.kind = .ident
  keyword : toLowerCase keyTok.value = utf16 m.keyword
  value : ∀ v, m.under? = some v ∨ m.at? = some v → valTok.kind = .string ∧ valTok.value = utf16 v
  number : ∀ n, m.limit? = some n →
    ∃ x, limitValue valTok = some x ∧ x.units = n * 2 ^ 1074

/-- The tokens of clauses. -/
inductive Clauses : List Modifier → List Token → Prop where
  | nil : Clauses [] []
  | cons {m : Modifier} {ms : List Modifier} {keyTok valTok : Token} {ts : List Token}
      (h : Clause m keyTok valTok) (hts : Clauses ms ts) :
      Clauses (m :: ms) (keyTok :: valTok :: ts)

variable {m : Modifier} {q : UnifiedQuery} {keyTok valTok : Token}

theorem textValue_eq {v : Text} (h : valTok.kind = .string ∧ valTok.value = utf16 v) :
    textValue valTok = some (utf16 v) := by
  rw [textValue, if_pos (.inl h.1), h.2]

/-- A clause that is new is taken. -/
theorem takeClause_eq (h : Clause m keyTok valTok) (hq : Carries ms q)
    (hnew : m.keyword ∉ ms.map Modifier.keyword) :
    ∃ q', takeClause q keyTok valTok = some q' ∧ Carries (m :: ms) q' ∧ q'.where_ = q.where_ := by
  have hnone {α : Type} {f : Modifier → Option α} (hf : ∀ m' a, f m' = some a →
      m'.keyword = m.keyword) : ms.findSome? f = none := by
    refine List.findSome?_eq_none_iff.2 fun m' hm' => ?_
    refine Option.eq_none_iff_forall_ne_some.2 fun a ha => hnew ?_
    exact hf m' a ha ▸ List.mem_map_of_mem hm'
  rw [takeClause, if_neg (not_not.2 h.kind)]
  dsimp only
  rw [h.keyword]
  cases m with
  | under v =>
    have hfree : q.prefix_ = none := by
      rw [hq.prefix_, hnone fun m' a ha => by cases m' <;> first | rfl | cases ha]
      rfl
    refine ⟨{ q with prefix_ := some (utf16 v) }, ?_, ⟨rfl, hq.at_, hq.limit⟩, rfl⟩
    rw [Modifier.keyword, if_pos rfl, hfree, textValue_eq (h.value v (.inl rfl))]
    rfl
  | «at» v =>
    have hfree : q.at_ = none := by
      rw [hq.at_, hnone fun m' a ha => by cases m' <;> first | rfl | cases ha]
      rfl
    refine ⟨{ q with at_ := some (utf16 v) }, ?_, ⟨hq.prefix_, rfl, hq.limit⟩, rfl⟩
    rw [Modifier.keyword, if_neg (by decide +kernel), if_pos rfl, hfree,
      textValue_eq (h.value v (.inr rfl))]
    rfl
  | limit n =>
    have hfree : q.limit = none := by
      have hunits := hq.limit
      rw [hnone fun m' a ha => by cases m' <;> first | rfl | cases ha] at hunits
      exact Option.map_eq_none_iff.1 hunits
    obtain ⟨x, hx, hunits⟩ := h.number n rfl
    refine ⟨{ q with limit := some x }, ?_, ⟨hq.prefix_, hq.at_, congrArg some hunits⟩, rfl⟩
    rw [Modifier.keyword, if_neg (by decide +kernel), if_neg (by decide +kernel), if_pos rfl,
      hfree, hx]
    rfl

variable {tokens before ts : List Token} {depth : List Nat}

/-- **Clauses at the end are taken**, the last one first. -/
theorem peel_clauses (h : Clauses ms ts) (hnew : (ms.map Modifier.keyword).Nodup)
    (hq : Carries [] q) (htokens : tokens = before ++ ts)
    (hdepth : ∀ i, before.length ≤ i → i < before.length + ts.length → depth[i]? = some 0) :
    ∃ q', peel tokens depth (before.length + ts.length) q = peel tokens depth before.length q' ∧
      Carries ms q' ∧ q'.where_ = q.where_ := by
  induction h generalizing before with
  | nil => exact ⟨q, rfl, hq, rfl⟩
  | @cons m ms keyTok valTok ts hm _ ih =>
    obtain ⟨hmem, hnodup⟩ := List.nodup_cons.1 hnew
    -- the clauses that stand after this one are taken first
    have hlen : (before ++ [keyTok, valTok]).length = before.length + 2 := by simp
    obtain ⟨q', hpeel, hq', hwhere⟩ := @ih (before ++ [keyTok, valTok]) hnodup
      (by simp [htokens]) fun i hi hi' => hdepth i (by omega) (by simp at hi' ⊢; omega)
    obtain ⟨q'', htake, hq'', hwhere'⟩ := takeClause_eq hm hq' hmem
    refine ⟨q'', ?_, hq'', hwhere'.trans hwhere⟩
    have hkey : tokens[before.length]? = some keyTok := by
      rw [htokens]
      simp
    have hval : tokens[before.length + 1]? = some valTok := by
      rw [htokens]
      simp
    have h₀ := hdepth before.length le_rfl (by simp)
    have h₁ := hdepth (before.length + 1) (by omega) (by simp)
    have hstep : peel tokens depth (before.length + 2) q' = peel tokens depth before.length q'' := by
      rw [peel, if_neg (by rw [h₀, h₁]; simp), hkey, hval]
      dsimp only
      rw [htake]
    rw [← hstep, ← hlen, ← hpeel, hlen, List.length_cons, List.length_cons]
    congr 1
    omega

/-! ### How expressions end -/

/-- The depth after a token of the server. -/
def nestTok (d : Nat) : Query.Tok → Nat
  | .lparen => d + 1
  | .rparen => d - 1
  | _ => d

/-- Each parenthesis is closed. -/
def Balanced (toks : List Query.Tok) : Prop := ∀ d, toks.foldl nestTok d = d

/-- **How expressions end**: in a literal after an operator, or in a parenthesis within others. -/
structure Closed (toks : List Query.Tok) : Prop where
  balanced : Balanced toks
  last : ∃ init a b, toks = init ++ [a, b] ∧
    ((∃ o, a = .op o) ∨ ∀ d, 1 ≤ (init ++ [a]).foldl nestTok d)

variable {toks toks' : List Query.Tok}

theorem Balanced.append (h : Balanced toks) (h' : Balanced toks') : Balanced (toks ++ toks') := by
  intro d
  rw [List.foldl_append, h, h']

theorem Balanced.cons {k : Query.Tok} (hk : ∀ d, nestTok d k = d) (h : Balanced toks) :
    Balanced (k :: toks) := by
  intro d
  rw [List.foldl_cons, hk, h]

theorem balanced_path (path : Query.FieldPath) : Balanced (Query.pathToks path) := by
  cases path with
  | nil => exact fun _ => rfl
  | cons s path =>
    refine .cons (fun _ => rfl) ?_
    induction path with
    | nil => exact fun _ => rfl
    | cons s path ih => exact .cons (fun _ => rfl) (.cons (fun _ => rfl) ih)

/-- What stands before does not matter, if it is balanced. -/
theorem Closed.append_left (h : Balanced toks) (h' : Closed toks') : Closed (toks ++ toks') := by
  obtain ⟨hbalanced, init, a, b, rfl, hlast⟩ := h'
  refine ⟨h.append hbalanced, toks ++ init, a, b, (List.append_assoc ..).symm, ?_⟩
  refine hlast.imp_right fun hdepth d => ?_
  rw [List.append_assoc, List.foldl_append, h]
  exact hdepth d

theorem Closed.cons {k : Query.Tok} (hk : ∀ d, nestTok d k = d) (h : Closed toks) :
    Closed (k :: toks) := by
  have hone : Balanced [k] := hk
  exact Closed.append_left hone h

theorem closed_literal (o : Query.Op) (v : Query.Literal) : Closed [.op o, v.tok] :=
  ⟨.cons (fun _ => rfl) (.cons (by cases v <;> exact fun _ => rfl) fun _ => rfl),
    [], .op o, v.tok, rfl, .inl ⟨o, rfl⟩⟩

theorem closed_paren (h : Balanced toks) (hne : toks ≠ []) :
    Closed (.lparen :: (toks ++ [.rparen])) := by
  have hdepth (d : Nat) : (.lparen :: toks).foldl nestTok d = d + 1 := h (d + 1)
  obtain ⟨init, a, rfl⟩ := (List.eq_nil_or_concat' toks).resolve_left hne
  refine ⟨fun d => ?_, .lparen :: init, a, .rparen, by simp, .inr fun d => ?_⟩
  · rw [← List.cons_append, List.foldl_append, hdepth]
    rfl
  · rw [List.cons_append, hdepth]
    exact Nat.le_add_left ..

theorem Closed.ne_nil (h : Closed toks) : toks ≠ [] := by
  obtain ⟨-, init, a, b, rfl, -⟩ := h
  simp

theorem closed_parens (need : Bool) (h : Closed toks) : Closed (Query.parens need toks) := by
  cases need with
  | true => exact closed_paren h.balanced h.ne_nil
  | false => exact h

/-- **An expression does not end in a clause.** -/
theorem closed_print {p : Query.Shown} (hp : p.Named) (n : Nat) : Closed (p.print n) := by
  induction p generalizing n with
  | join j a b iha ihb =>
    have ha := iha (fun c hc => hp c (List.mem_append_left _ hc)) j.level
    have hb := ihb (fun c hc => hp c (List.mem_append_right _ hc)) (j.level + 1)
    refine closed_parens _ ((hb.cons ?_).append_left ha.balanced)
    cases j <;> exact fun _ => rfl
  | not a ih => exact (ih hp 2).cons fun _ => rfl
  | paren a ih => exact closed_paren (ih hp 0).balanced (ih hp 0).ne_nil
  | atom a =>
    cases a with
    | compare path op value => exact (closed_literal op value).append_left (balanced_path path)
    | «exists» path =>
      have hpath : path ≠ [] := hp _ List.mem_cons_self
      refine (closed_paren (balanced_path path) ?_).cons fun _ => rfl
      cases path with
      | nil => exact absurd rfl hpath
      | cons s path => exact List.cons_ne_nil _ _

/-! ### The tokens of a predicate -/

/-- A token of the browser nests as a token of the server does, and is an operator if that is. -/
structure Nests (k : Query.Tok) (t : Token) : Prop where
  depth : ∀ d, nest d t.kind = nestTok d k
  op : ∀ o, k = .op o → t.kind = .op

/-- A token, of what a scanner returns. -/
def Token.of (t : Spanned (TokenKind × JsString)) : Token := ⟨t.tok.1, t.start, t.stop, t.tok.2⟩

/-- No word is a parenthesis. -/
theorem nest_keywordKind (d : Nat) (name : JsString) : nest d (keywordKind name) = d := by
  have hmap : ∀ k ∈ keywordMap, nest d k.2 = d := by
    simp [keywordMap, nest]
  unfold keywordKind
  cases hfind : keywordMap.find? fun k => utf16 k.1 = name with
  | some k => exact hmap k (List.mem_of_find?_eq_some hfind)
  | none => cases prototypeNames.find? fun n => utf16 n = name <;> rfl

theorem nests_word {word : Text} {k : Query.Tok} (hword : IsAscii word)
    (h : Query.Writes k (.word word)) {t : Token} (ht : t.kind = (wordToken (utf16 word)).1) :
    Nests k t := by
  have hnest : ∀ k ∈ Query.keywords, ∀ d, nestTok d k.2 = d := by
    simp [Query.keywords, nestTok]
  have hkind : ∀ d, nest d t.kind = d := fun d => ht ▸ nest_keywordKind d _
  cases h with
  | keyword hk =>
    refine ⟨fun d => (hkind d).trans (hnest _ hk d).symm, ?_⟩
    rintro o rfl
    have hsame := (same_keyword hword hk rfl).1
    rw [Query.wordTok_eq.2 (.keyword hk)] at hsame
    exact ht.trans hsame.1
  | ident => exact ⟨hkind, by simp⟩

/-- The same lexeme nests alike. -/
theorem nests_token {l : Lexeme Char} {text : Text} {k : Query.Tok} {pos : Nat} {t : Token}
    {v : TokenKind × JsString} (hl : Spelled l text) (h : Query.Writes k l)
    (hv : scanner.token pos (l.encode .utf16) = .ok v) (ht : t.kind = v.1) : Nests k t := by
  obtain ⟨kind, pos, stop, value⟩ := t
  cases l with
  | symbol s =>
    cases h
    cases hv
    cases ht
    cases s <;> exact ⟨fun _ => rfl, fun _ _ => by first | rfl | contradiction⟩
  | string content =>
    cases h
    cases hv
    cases ht
    exact ⟨fun _ => rfl, nofun⟩
  | word word =>
    cases hv
    exact nests_word (isAscii_word hl) h ht
  | number num p =>
    have hkind : kind = if p then .float else .int := by
      by_cases hbare : Encoding.utf16.text num = [0x2D]
      · cases (if_pos hbare).symm.trans hv
      · cases (if_neg hbare).symm.trans hv
        exact ht
    cases h with
    | int => exact ⟨fun _ => hkind ▸ rfl, nofun⟩
    | float => exact ⟨fun _ => hkind ▸ rfl, nofun⟩

theorem nests_emit {ps : List Piece} (h : Lexed (fun c => isSpace c.toNat) s ps)
    (hps : List.Forall₂ Query.Writes toks (Query.lexemes ps)) {pos : Nat}
    {out : List (Spanned (TokenKind × JsString))} (hout : scanner.emit .utf16 pos ps = .ok out) :
    List.Forall₂ Nests toks (out.map Token.of) := by
  induction h generalizing pos out toks with
  | nil =>
    cases hps
    cases hout
    exact .nil
  | space _ _ ih => exact ih hps hout
  | lexeme hl _ _ ih =>
    obtain ⟨k, toks, hk, hrest, rfl⟩ := List.forall₂_cons_right_iff.1 hps
    simp only [Scanner.emit, except_bind_eq_ok] at hout
    obtain ⟨v, hv, out', hout', heq⟩ := hout
    cases heq
    exact .cons (nests_token hl hk hv rfl) (ih hrest hout')

/-- **The tokens of a predicate** are balanced, and do not end in a clause. -/
theorem exists_predicate (hw : (∃ e, Query.parse w = .ok e) ∨ Blank w) :
    ∃ ps us, Lexed (fun c => isSpace c.toNat) w ps ∧ scanner.emit .utf16 0 ps = .ok us ∧
      ((us = [] ∧ Blank w) ∨ ∃ toks, Closed toks ∧ List.Forall₂ Nests toks (us.map Token.of)) := by
  rcases hw with ⟨e, he⟩ | hblank
  · obtain ⟨p, hp, -, hprints⟩ := Query.parse_eq_ok.1 he
    obtain ⟨ts, hts, hkinds⟩ := Query.tokenize_eq_ok.2 hprints
    obtain ⟨ps, hps, out, hout, rfl⟩ := tokenize_server.1 hts
    -- the pieces are those that the browser sees, and none is a bare `-`
    have hps' : Lexed (fun c => isSpace c.toNat) _ ps := hps.of_spaces
      fun c hc => (isSpace_ascii (hps.isSpace_of_mem hc)).2
    obtain ⟨us, hus⟩ : ∃ us, scanner.emit .utf16 0 ps = .ok us :=
      (emit_browser hps').2 (emit_server hout)
    rw [List.map_map] at hkinds
    have hwrites := Query.emit_eq_ok.1 ⟨out, hout, hkinds⟩
    exact ⟨ps, us, hps', hus, .inr ⟨_, closed_print hp 0, nests_emit hps' hwrites hus⟩⟩
  · refine ⟨w.map .space ++ [], [], ?_, ?_, .inl ⟨rfl, hblank⟩⟩
    · simpa using Lexed.spaces hblank .nil
    · rw [Scanner.emit_spaces]
      rfl

/-! ### The tokens of clauses -/

/-- A number is read as it is spelled. -/
theorem limitValue_eq {num text : Text} {n : Int} (hl : Spelled (.number num false) text)
    (h : Query.intOf num = n) (hn : -2 ^ 53 < n ∧ n < 2 ^ 53) {t : Token} (hkind : t.kind = .int)
    (hvalue : t.value = utf16 num) :
    ∃ x, limitValue t = some x ∧ x.units = n * 2 ^ 1074 := by
  have hchars : (utf16 num).map (fun u => Char.ofNat u.toNat) = num := by
    have hcodes := Encoding.map_code_text (E := .utf16) (isAscii_number hl)
    have hmap := congrArg (List.map Char.ofNat) hcodes
    rw [List.map_map, List.map_map] at hmap
    refine hmap.trans ((List.map_congr_left fun c _ => ?_).trans num.map_id)
    exact Char.ofNat_toNat c
  rcases hsign : Query.splitSign num with ⟨minus, ds⟩
  rw [Query.intOf, hsign] at h
  dsimp only at h
  have hlt : Nat.ofDigitChars 10 ds 0 < 2 ^ 53 := by
    cases minus <;> simp at h <;> omega
  obtain ⟨hbits, hfinite, hunits⟩ := F64.units_ofRatio_one hlt
  obtain ⟨x, hx, hxfinite, hxunits⟩ : ∃ x, number t.value = x ∧ x.isFinite = true ∧
      x.units = n * 2 ^ 1074 := by
    refine ⟨_, rfl, ?_⟩
    rw [hvalue, number, hchars, hsign]
    cases minus with
    | false =>
      refine ⟨hfinite, hunits.trans ?_⟩
      rw [← h, Nat.cast_mul, Nat.cast_pow]
      rfl
    | true =>
      obtain ⟨hneg, hnegunits⟩ := F64.units_neg hbits
      refine ⟨hneg.trans hfinite, hnegunits.trans ?_⟩
      rw [← h, hunits, Nat.cast_mul, Nat.cast_pow]
      exact (neg_mul ..).symm
  refine ⟨x, ?_, hxunits⟩
  have hinteger : x.isInteger = true := by
    rw [F64.isInteger, hxfinite, hxunits, Int.mul_emod_left]
    rfl
  rw [limitValue, if_pos hkind]
  dsimp only
  rw [hx, hxfinite, hinteger]
  rfl

/-- The word of a clause is an identifier. -/
theorem token_keyword {word : Text} (hword : IsAscii word) (hkey : Query.lower word = m.keyword) :
    wordToken (utf16 word) = (.ident, utf16 word) ∧ toLowerCase (utf16 word) = utf16 m.keyword := by
  have hlower : toLowerCase (utf16 word) = utf16 m.keyword := hkey ▸ toLowerCase_utf16 hword
  have hkind : keywordKind (utf16 m.keyword) = .ident := by
    cases m with
    | under v => exact of_decide_eq_true (by rfl)
    | «at» v => exact of_decide_eq_true (by rfl)
    | limit n => exact of_decide_eq_true (by rfl)
  rw [wordToken, hlower, hkind]
  exact ⟨rfl, rfl⟩

/-- **The tokens of clauses**, after white space. -/
theorem exists_clauses (h : Appended ms s)
    (hlimit : ∀ n, Modifier.limit n ∈ ms → -2 ^ 53 < n ∧ n < 2 ^ 53) (pos : Nat) :
    ∃ qs vs, Lexed (fun c => isSpace c.toNat) s qs ∧ scanner.emit .utf16 pos qs = .ok vs ∧
      Clauses ms (vs.map Token.of) ∧ ∃ sp rest, s = sp ++ rest ∧ Blank sp ∧
        (vs.map Token.of).head?.elim (pos + (utf16 s).length) Token.pos =
          pos + (utf16 sp).length := by
  induction h generalizing pos with
  | @nil sp hsp =>
    refine ⟨sp.map .space ++ [], [], ?_, ?_, .nil, sp, [], (List.append_nil _).symm, hsp, rfl⟩
    · simpa using Lexed.spaces hsp .nil
    · rw [Scanner.emit_spaces]
      rfl
  | @cons m ms sp word sp' value rest l hsp hword hkey hsp' hstop hvalue hl hstop' _ ih =>
    obtain ⟨qs, vs, hqs, hvs, hclauses, -⟩ :=
      ih (fun n hn => hlimit n (List.mem_cons_of_mem _ hn))
        (pos + (utf16 sp).length + (utf16 word).length + (utf16 sp').length + (utf16 value).length)
    obtain ⟨hident, hlower⟩ := token_keyword (isAscii_word hword) hkey
    -- the token of the value
    obtain ⟨v, hv, hclause⟩ : ∃ v, (∀ pos, scanner.token pos (l.encode .utf16) = .ok v) ∧
        ∀ keyTok valTok : Token, keyTok.kind = .ident → keyTok.value = utf16 word →
          valTok.kind = v.1 → valTok.value = v.2 → Clause m keyTok valTok := by
      cases hvalue with
      | under x =>
        refine ⟨(.string, utf16 x), fun _ => rfl, fun keyTok valTok hk hkv hvk hvv =>
          ⟨hk, hkv ▸ hlower, ?_, nofun⟩⟩
        rintro y (hy | hy) <;> cases hy
        exact ⟨hvk, hvv⟩
      | «at» x =>
        refine ⟨(.string, utf16 x), fun _ => rfl, fun keyTok valTok hk hkv hvk hvv =>
          ⟨hk, hkv ▸ hlower, ?_, nofun⟩⟩
        rintro y (hy | hy) <;> cases hy
        exact ⟨hvk, hvv⟩
      | @limit n num hnum hint =>
        have hunits : Encoding.utf16.text num ≠ [0x2D] := fun heq => hnum
          ((Encoding.text_inj (E := .utf16) (isAscii_number hl) (by decide)).1 heq)
        refine ⟨(.int, utf16 num), fun _ => if_neg hunits, fun keyTok valTok hk hkv hvk hvv =>
          ⟨hk, hkv ▸ hlower, ?_, ?_⟩⟩
        · rintro y (hy | hy) <;> cases hy
        · intro n' hn'
          cases hn'
          exact limitValue_eq hl hint (hlimit n List.mem_cons_self) hvk hvv
    let start := pos + (utf16 sp).length
    let stop := start + (utf16 word).length
    let start' := stop + (utf16 sp').length
    refine ⟨sp.map .space ++ (.lexeme (.word word) word :: (sp'.map .space ++
      (.lexeme l value :: qs))), ⟨(.ident, utf16 word), start, stop⟩ ::
        ⟨v, start', start' + (utf16 value).length⟩ :: vs, ?_, ?_, ?_, sp, _, rfl, hsp, rfl⟩
    · exact .spaces hsp (.lexeme hword hstop (.spaces hsp' (.lexeme hl hstop' hqs)))
    · rw [Scanner.emit_spaces, Scanner.emit]
      simp only [Scanner.emit_spaces, Scanner.emit, except_bind_eq_ok]
      exact ⟨_, congrArg Except.ok hident, _, ⟨v, hv _, vs, hvs, rfl⟩, rfl⟩
    · exact .cons (hclause _ _ rfl rfl rfl rfl) hclauses

/-! ### What is left -/

/-- The depth after tokens. -/
def depthAfter (d : Nat) (ts : List Token) : Nat := ts.foldl (fun d t => nest d t.kind) d

theorem depths_append (d : Nat) (ts us : List Token) :
    depths d (ts ++ us) = depths d ts ++ depths (depthAfter d ts) us := by
  induction ts generalizing d with
  | nil => rfl
  | cons t ts ih => exact congrArg (_ :: ·) (ih _)

theorem length_depths (d : Nat) (ts : List Token) : (depths d ts).length = ts.length := by
  induction ts generalizing d with
  | nil => rfl
  | cons t ts ih => exact congrArg Nat.succ (ih _)

/-- The depth at a token. -/
theorem depths_at (d : Nat) (ts : List Token) (t : Token) (us : List Token) :
    (depths d (ts ++ t :: us))[ts.length]? = some (depthAfter d (ts ++ [t])) := by
  have hlen : ts.length = (depths d ts).length := (length_depths d ts).symm
  rw [depths_append, hlen, List.getElem?_append_right le_rfl, Nat.sub_self, depthAfter, depthAfter,
    List.foldl_append]
  rfl

/-- Tokens that nest alike are as deep. -/
theorem depthAfter_eq {us : List Token} (h : List.Forall₂ Nests toks us) (d : Nat) :
    depthAfter d us = toks.foldl nestTok d := by
  induction h generalizing d with
  | nil => rfl
  | cons ht _ ih =>
    rw [List.foldl_cons, ← ht.depth]
    exact ih _

/-- The tokens of clauses are no parentheses. -/
theorem Clauses.depths_eq (h : Clauses ms ts) (d : Nat) :
    depths d ts = List.replicate ts.length d := by
  induction h with
  | nil => rfl
  | @cons m ms keyTok valTok ts hm _ ih =>
    have hval : nest d valTok.kind = d := by
      cases m with
      | under v => rw [(hm.value v (.inl rfl)).1]; rfl
      | «at» v => rw [(hm.value v (.inr rfl)).1]; rfl
      | limit n =>
        obtain ⟨x, hx, -⟩ := hm.number n rfl
        unfold limitValue at hx
        split_ifs at hx with hkind
        rw [hkind]
        rfl
    have hkey : nest d keyTok.kind = d := by rw [hm.kind]; rfl
    rw [depths, hkey, depths, hval, ih]
    rfl

/-- The last two tokens. -/
theorem exists_last_two {init : List Query.Tok} {a b : Query.Tok} {us : List Token}
    (h : List.Forall₂ Nests (init ++ [a, b]) us) : ∃ us' t u, us = us' ++ [t, u] ∧ Nests a t ∧
      List.Forall₂ Nests (init ++ [a]) (us' ++ [t]) := by
  induction init generalizing us with
  | nil =>
    obtain ⟨t, us, ht, hrest, rfl⟩ := List.forall₂_cons_left_iff.1 h
    obtain ⟨u, us, -, hnil, rfl⟩ := List.forall₂_cons_left_iff.1 hrest
    obtain rfl := List.forall₂_nil_left_iff.1 hnil
    exact ⟨[], t, u, rfl, ht, .cons ht .nil⟩
  | cons k init ih =>
    obtain ⟨v, us, hv, hrest, rfl⟩ := List.forall₂_cons_left_iff.1 h
    obtain ⟨us', t, u, rfl, ht, hinit⟩ := ih hrest
    exact ⟨v :: us', t, u, rfl, ht, .cons hv hinit⟩

/-- **An expression stays**: its last two tokens are no clause. -/
theorem peel_closed {us : List Token} (hclosed : Closed toks) (h : List.Forall₂ Nests toks us)
    (htokens : tokens = us ++ ts) :
    peel tokens (depths 0 tokens) us.length q = (q, us.length) := by
  obtain ⟨-, init, a, b, rfl, hlast⟩ := hclosed
  obtain ⟨us, t, u, rfl, ht, hinit⟩ := exists_last_two h
  have heq : tokens = us ++ t :: (u :: ts) := by simp [htokens]
  have hlen : (us ++ [t, u]).length = us.length + 2 := by simp
  rw [hlen, peel]
  split_ifs with hdepth
  · rfl
  · have hdepth₀ := not_not.1 (not_or.1 hdepth).2
    rw [heq, depths_at, depthAfter_eq hinit] at hdepth₀
    rcases hlast with ⟨o, ho⟩ | hdeep
    · -- what stands before a literal is an operator
      have hkey : tokens[us.length]? = some t := by simp [heq]
      have hval : tokens[us.length + 1]? = some u := by simp [heq]
      have htake : takeClause q t u = none := by
        rw [takeClause, if_pos]
        rw [ht.op o ho]
        nofun
      rw [hkey, hval]
      dsimp only
      rw [htake]
    · -- what stands before a parenthesis is within others
      have := hdeep 0
      rw [Option.some.inj hdepth₀] at this
      exact absurd this (by decide)

/-- The editor takes what was appended from the tokens. -/
theorem peel_appended {us : List Token} (hus : us = [] ∨
    ∃ toks, Closed toks ∧ List.Forall₂ Nests toks us) (hts : Clauses ms ts)
    (honce : (ms.map Modifier.keyword).Nodup) : ∃ q, Carries ms q ∧ q.where_ = none ∧
      peel (us ++ ts) (depths 0 (us ++ ts)) (us ++ ts).length .empty = (q, us.length) := by
  have hafter : depthAfter 0 us = 0 := by
    rcases hus with rfl | ⟨toks, hclosed, hnests⟩
    · rfl
    · rw [depthAfter_eq hnests, hclosed.balanced]
  have hdepth : ∀ i, us.length ≤ i → i < us.length + ts.length →
      (depths 0 (us ++ ts))[i]? = some 0 := by
    intro i hi hi'
    rw [depths_append, hafter, hts.depths_eq, List.getElem?_append_right (by rwa [length_depths]),
      length_depths, List.getElem?_replicate, if_pos (by omega)]
  obtain ⟨q, hpeel, hq, hwhere⟩ :=
    peel_clauses (q := .empty) hts honce ⟨rfl, rfl, rfl⟩ rfl hdepth
  refine ⟨q, hq, hwhere, ?_⟩
  rw [List.length_append, hpeel]
  rcases hus with rfl | ⟨toks, hclosed, hnests⟩
  · rfl
  · exact peel_closed hclosed hnests rfl

/-- **Unified queries are split exactly.**  Let clauses be appended to a predicate that the server
accepts, or to none, each at most once and in any order.  What is split off are the clauses with
their values, and what is left is the predicate.  No part of the predicate is taken for a clause,
whatever its fields are called. -/
theorem parseUnified_exact {w s : Text} {ms : List Modifier}
    (hw : (∃ e, Query.parse w = .ok e) ∨ Blank w) (hapart : Apart w s) (hs : Appended ms s)
    (honce : (ms.map Modifier.keyword).Nodup)
    (hlimit : ∀ n, Modifier.limit n ∈ ms → -2 ^ 53 < n ∧ n < 2 ^ 53) :
    ∃ q, parseUnified (utf16 (w ++ s)) = .ok q ∧ q.where_ = nonempty (trim (utf16 w)) ∧
      Carries ms q := by
  obtain ⟨ps, us, hps, hus, hpredicate⟩ := exists_predicate hw
  obtain ⟨qs, vs, hqs, hvs, hclauses, sp, rest, rfl, hsp, hcutoff⟩ :=
    exists_clauses hs hlimit (0 + (utf16 w).length)
  have htokens : tokenize (utf16 (w ++ (sp ++ rest))) = .ok (us.map Token.of ++ vs.map Token.of) :=
    tokenize_browser.2 ⟨ps ++ qs, hapart ps qs hps hqs, us ++ vs, scanner.emit_append hps hus hvs,
      List.map_append⟩
  have hkind : us.map Token.of = [] ∨
      ∃ toks, Closed toks ∧ List.Forall₂ Nests toks (us.map Token.of) :=
    hpredicate.imp_left fun h => List.map_eq_nil_iff.2 h.1
  obtain ⟨q, hq, hwhere, hpeel⟩ := peel_appended hkind hclauses honce
  have hblank : us = [] → nonempty (trim (utf16 w)) = none := by
    rintro rfl
    rcases hpredicate with ⟨-, hblank⟩ | ⟨toks, hclosed, hnests⟩
    · rw [nonempty, if_pos (trim_blank (isSpace_utf16 hblank))]
    · exact absurd (List.forall₂_nil_right_iff.1 hnests) hclosed.ne_nil
  rw [parseUnified_eq htokens, hpeel]
  dsimp only
  by_cases hnil : us.map Token.of ++ vs.map Token.of = []
  · obtain ⟨hus', hvs'⟩ := List.append_eq_nil_iff.1 hnil
    rw [if_pos hnil]
    rw [hvs'] at hclauses
    cases hclauses
    exact ⟨_, rfl, (hblank (List.map_eq_nil_iff.1 hus')).symm, ⟨rfl, rfl, rfl⟩⟩
  · rw [if_neg hnil]
    split_ifs with hpos
    · -- the predicate ends where the first clause begins, or the text
      refine ⟨_, rfl, ?_, hq.1, hq.2, hq.3⟩
      have hat : (us.map Token.of ++ vs.map Token.of)[(us.map Token.of).length]? =
          (vs.map Token.of).head? := by
        rw [List.getElem?_append_right le_rfl, Nat.sub_self, List.head?_eq_getElem?]
      have htext : utf16 (w ++ (sp ++ rest)) = (utf16 w ++ utf16 sp) ++ utf16 rest := by
        rw [List.append_assoc]
        exact List.flatMap_append.trans (congrArg _ List.flatMap_append)
      have hlen : (utf16 (w ++ (sp ++ rest))).length =
          0 + (utf16 w).length + (utf16 (sp ++ rest)).length := by
        rw [Nat.zero_add, ← List.length_append]
        exact congrArg _ List.flatMap_append
      rw [hat, hlen, hcutoff, htext, Nat.zero_add, ← List.length_append, List.take_left,
        trim_append _ (isSpace_utf16 hsp)]
    · obtain rfl : us = [] := by
        simpa using hpos
      exact ⟨q, rfl, hwhere.trans (hblank rfl).symm, hq⟩

/-- A commit and a limit. -/
theorem appended_demo : Appended [.at ['h'], .limit 5]
    [' ', 'a', 't', ' ', '"', 'h', '"', ' ', 'L', 'i', 'm', 'i', 't', ' ', '5'] := by
  have hsp : Blank [' '] := List.forall_mem_singleton.2 (by decide)
  have hat : Spelled (.word ['a', 't']) ['a', 't'] :=
    .word (by decide) (List.all_eq_true.1 (by decide))
  have hlimit : Spelled (.word ['L', 'i', 'm', 'i', 't']) ['L', 'i', 'm', 'i', 't'] :=
    .word (by decide) (List.all_eq_true.1 (by decide))
  have hbody : Quoted '"' ['h'] ['h'] := .plain (by decide) (by decide) .nil
  have hcommit : Spelled (.string ['h']) ['"', 'h', '"'] := .string (.inl rfl) hbody
  have hfive : Spelled (.number ['5'] false) ['5'] := .number (by decide) (.digit (by decide) .nil)
  refine .cons hsp hat (by decide) hsp ?_ (.at ['h']) hcommit trivial ?_
  · rintro c ⟨⟩
    decide
  · have hnil : Appended [] [] := .nil nofun
    refine .cons hsp hlimit (by decide) hsp ?_ (.limit (by decide) ?_) hfive nofun hnil
    · rintro c ⟨⟩
      decide
    · decide

/-- A predicate over a field `prefix`, with a commit and a limit. -/
theorem parseUnified_exact_demo : ∃ q,
    parseUnified (utf16 ("prefix = \"x\"".toList ++
      [' ', 'a', 't', ' ', '"', 'h', '"', ' ', 'L', 'i', 'm', 'i', 't', ' ', '5'])) = .ok q ∧
      q.where_ = nonempty (trim (utf16 "prefix = \"x\"".toList)) ∧
      Carries [.at ['h'], .limit 5] q := by
  refine parseUnified_exact ?_ ?_ appended_demo (by decide) ?_
  · exact .inl (exists_eq_ok_of_isOk (by decide +kernel))
  · refine apart_of_space ?_
    rintro c ⟨⟩
    decide
  · intro n hn
    obtain rfl : n = 5 := by simpa using hn
    decide

end QueryLang

end Omp
